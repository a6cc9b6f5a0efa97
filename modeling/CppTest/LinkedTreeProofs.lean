import Mathlib.Data.List.Nodup
import Mathlib.Logic.Function.Basic

/-! # Binary trees in memory, with parent links

    A node of a linked tree is a cell with two child pointers, a parent pointer
    and a payload.  This file relates such cells to the trees they hold:

    * `Reps m p t` — the cells of the memory `m` hold the tree `t`, and its root
      cell points back to the parent `p`;
    * `Focus m root t k` — the same with a marked subtree: `t` sits in the context
      `k`, a path of frames up to `root`, and all addresses are different.  The
      focus moves along the tree without touching memory (`focus_fill`);
    * the surgery a program does at the focus: overwrite a payload
      (`Focus.setVal`), hang a new leaf (`Focus.attach`), rotate
      (`Focus.rotate`).  Each lemma asks for the cells that changed and says that
      the rest of memory stayed.

    Left and right are one case: everything is stated for a `Side`.  Nothing here
    names a program of the repository. -/

namespace LinkedTree

variable {β : Type}

/-! ## Cells -/

inductive Side where
  | left
  | right
  deriving Repr, DecidableEq

def Side.opp : Side → Side
  | .left => .right
  | .right => .left

/-- A tree node in memory; `none` is a null link. -/
structure Cell (β : Type) where
  left : Option Nat
  right : Option Nat
  p : Option Nat
  val : β
  deriving Repr, DecidableEq

/-- The cell with child `t` on side `s` and child `u` on the other side. -/
def Cell.of (s : Side) (t u p : Option Nat) (v : β) : Cell β :=
  match s with
  | .left => ⟨t, u, p, v⟩
  | .right => ⟨u, t, p, v⟩

def Cell.child (c : Cell β) : Side → Option Nat
  | .left => c.left
  | .right => c.right

def Cell.setChild (c : Cell β) (s : Side) (t : Option Nat) : Cell β :=
  match s with
  | .left => { c with left := t }
  | .right => { c with right := t }

section CellOf
variable (s : Side) (t u p : Option Nat) (v : β)

@[simp] theorem Cell.of_child : (Cell.of s t u p v).child s = t := by cases s <;> rfl
@[simp] theorem Cell.of_child_opp : (Cell.of s t u p v).child s.opp = u := by cases s <;> rfl
@[simp] theorem Cell.of_p : (Cell.of s t u p v).p = p := by cases s <;> rfl
@[simp] theorem Cell.of_val : (Cell.of s t u p v).val = v := by cases s <;> rfl

theorem Cell.of_setChild (t' : Option Nat) :
    (Cell.of s t u p v).setChild s t' = Cell.of s t' u p v := by cases s <;> rfl

theorem Cell.of_setChild_opp (u' : Option Nat) :
    (Cell.of s t u p v).setChild s.opp u' = Cell.of s t u' p v := by cases s <;> rfl

theorem Cell.of_with_p (q : Option Nat) :
    { Cell.of s t u p v with p := q } = Cell.of s t u q v := by cases s <;> rfl

theorem Cell.of_with_val (w : β) :
    { Cell.of s t u p v with val := w } = Cell.of s t u p w := by cases s <;> rfl

end CellOf

/-- Memory: the cells that are allocated. -/
abbrev Mem (β : Type) := Nat → Option (Cell β)

/-- A write through the pointer `a`; a dangling pointer faults. -/
def modify (m : Mem β) (a : Nat) (f : Cell β → Cell β) : Option (Mem β) := do
  let c ← m a
  some (Function.update m a (some (f c)))

theorem modify_eq {m : Mem β} {a : Nat} {c : Cell β} (h : m a = some c) (f : Cell β → Cell β) :
    modify m a f = some (Function.update m a (some (f c))) := by
  simp only [modify, h, Option.bind_eq_bind, Option.bind_some]

/-- A write through a valid pointer changes that cell only. -/
theorem modify_spec {m : Mem β} {a : Nat} {c : Cell β} (h : m a = some c) (f : Cell β → Cell β) :
    ∃ m', modify m a f = some m' ∧ m' a = some (f c) ∧ ∀ b, b ≠ a → m' b = m b := by
  refine ⟨Function.update m a (some (f c)), modify_eq h f, Function.update_self .., ?_⟩
  intro b hb
  exact Function.update_of_ne hb ..

/-! ## Trees -/

/-- A tree with the address of each node. -/
inductive LTree (β : Type) where
  | nil : LTree β
  | node (a : Nat) (l : LTree β) (v : β) (r : LTree β) : LTree β
  deriving Repr, DecidableEq

namespace LTree

theorem node_ne_nil {a : Nat} {l r : LTree β} {v : β} : node a l v r ≠ nil := by
  intro h
  cases h

def ptr : LTree β → Option Nat
  | nil => none
  | node a _ _ _ => some a

def addrs : LTree β → List Nat
  | nil => []
  | node a l _ r => a :: (l.addrs ++ r.addrs)

/-- The payloads in order. -/
def vals : LTree β → List β
  | nil => []
  | node _ l v r => l.vals ++ v :: r.vals

def size : LTree β → Nat
  | nil => 0
  | node _ l _ r => l.size + 1 + r.size

/-- The number of nodes on the longest path from the root. -/
def height : LTree β → Nat
  | nil => 0
  | node _ l _ r => max l.height r.height + 1

/-- The tree with `t` on side `s` and `u` on the other side. -/
def join (s : Side) (a : Nat) (t : LTree β) (v : β) (u : LTree β) : LTree β :=
  match s with
  | .left => node a t v u
  | .right => node a u v t

@[simp] theorem join_ptr (s : Side) (a : Nat) (t : LTree β) (v : β) (u : LTree β) :
    (join s a t v u).ptr = some a := by
  cases s <;> rfl

theorem join_addrs (s : Side) (a : Nat) (t : LTree β) (v : β) (u : LTree β) :
    (join s a t v u).addrs.Perm (a :: (t.addrs ++ u.addrs)) := by
  cases s with
  | left => exact List.Perm.refl _
  | right => exact List.Perm.cons a List.perm_append_comm

theorem ptr_mem_addrs {t : LTree β} {a : Nat} (h : t.ptr = some a) : a ∈ t.addrs := by
  cases t with
  | nil => exact nomatch h
  | node b l v r =>
      obtain rfl := Option.some.inj h
      exact List.mem_cons_self ..

theorem height_le_size (t : LTree β) : t.height ≤ t.size := by
  induction t with
  | nil => exact Nat.le_refl 0
  | node a l v r ihl ihr =>
      show max l.height r.height + 1 ≤ l.size + 1 + r.size
      omega

end LTree

open LTree

/-! ## Representation -/

/-- The memory holds the tree, under the parent `p`. -/
def Reps (m : Mem β) : Option Nat → LTree β → Prop
  | _, .nil => True
  | p, .node a l v r => m a = some ⟨l.ptr, r.ptr, p, v⟩ ∧ Reps m (some a) l ∧ Reps m (some a) r

theorem reps_join (m : Mem β) (p : Option Nat) (s : Side) (a : Nat) (t : LTree β) (v : β)
    (u : LTree β) : Reps m p (join s a t v u) ↔
      m a = some (Cell.of s t.ptr u.ptr p v) ∧ Reps m (some a) t ∧ Reps m (some a) u := by
  cases s with
  | left => exact Iff.rfl
  | right => exact and_congr_right fun _ => and_comm

/-- Memory that agrees on the addresses of a tree holds it too. -/
theorem Reps.frame {m m' : Mem β} : ∀ {t : LTree β} {p : Option Nat}, Reps m p t →
    (∀ a ∈ t.addrs, m' a = m a) → Reps m' p t := by
  intro t
  induction t with
  | nil => intro p _ _; trivial
  | node a l v r ihl ihr =>
      intro p h hm
      obtain ⟨ha, hl, hr⟩ := h
      refine ⟨?_, ihl hl ?_, ihr hr ?_⟩
      · rw [hm a (List.mem_cons_self ..)]
        exact ha
      · intro b hb
        exact hm b (List.mem_cons_of_mem _ (List.mem_append.mpr (Or.inl hb)))
      · intro b hb
        exact hm b (List.mem_cons_of_mem _ (List.mem_append.mpr (Or.inr hb)))

/-- Redirecting the parent link of the root cell. -/
theorem Reps.reparent {m m' : Mem β} {t : LTree β} {p q : Option Nat} (h : Reps m p t)
    (hnd : t.addrs.Nodup)
    (hroot : ∀ b, t.ptr = some b → m' b = (m b).map fun c => { c with p := q })
    (hm : ∀ a ∈ t.addrs, some a ≠ t.ptr → m' a = m a) : Reps m' q t := by
  cases t with
  | nil => trivial
  | node a l v r =>
      obtain ⟨ha, hl, hr⟩ := h
      obtain ⟨hnot, -⟩ := List.nodup_cons.mp hnd
      have hother : ∀ b ∈ l.addrs ++ r.addrs, m' b = m b := by
        intro b hb
        refine hm b (List.mem_cons_of_mem _ hb) ?_
        intro heq
        rw [Option.some.inj heq] at hb
        exact hnot hb
      refine ⟨?_, hl.frame ?_, hr.frame ?_⟩
      · rw [hroot a rfl, ha]
        rfl
      · exact fun b hb => hother b (List.mem_append.mpr (Or.inl hb))
      · exact fun b hb => hother b (List.mem_append.mpr (Or.inr hb))

/-! ## Contexts -/

/-- One step of a path: the node `a` with payload `v`, the hole on side `side` and
    the subtree `sib` on the other side. -/
structure Frame (β : Type) where
  side : Side
  a : Nat
  v : β
  sib : LTree β
  deriving Repr, DecidableEq

/-- Put a tree into the hole of a frame. -/
def Frame.fill (f : Frame β) (t : LTree β) : LTree β := join f.side f.a t f.v f.sib

/-- Put a tree into the hole of a context, innermost frame first. -/
def plug : List (Frame β) → LTree β → LTree β
  | [], t => t
  | f :: k, t => plug k (f.fill t)

theorem length_add_height_le (k : List (Frame β)) : ∀ t : LTree β,
    k.length + t.height ≤ (plug k t).height := by
  induction k with
  | nil => intro t; exact Nat.le_of_eq (Nat.zero_add _)
  | cons f k ih =>
      intro t
      have hfill : t.height + 1 ≤ (f.fill t).height := by
        obtain ⟨side, a, v, u⟩ := f
        cases side with
        | left => exact Nat.succ_le_succ (Nat.le_max_left ..)
        | right => exact Nat.succ_le_succ (Nat.le_max_right ..)
      have := ih (f.fill t)
      show k.length + 1 + t.height ≤ (plug k (f.fill t)).height
      omega

/-- The node above the hole. -/
def parentOf : List (Frame β) → Option Nat
  | [] => none
  | f :: _ => some f.a

theorem parentOf_cons (f : Frame β) (k : List (Frame β)) : parentOf (f :: k) = some f.a := rfl

def ctxAddrs : List (Frame β) → List Nat
  | [] => []
  | f :: k => f.a :: (f.sib.addrs ++ ctxAddrs k)

/-- The memory holds the context, with `hole` in its hole, up to `root`. -/
def RepsCtx (m : Mem β) (root : Option Nat) : List (Frame β) → Option Nat → Prop
  | [], hole => root = hole
  | f :: k, hole =>
      m f.a = some (Cell.of f.side hole f.sib.ptr (parentOf k) f.v) ∧
      Reps m (some f.a) f.sib ∧ RepsCtx m root k (some f.a)

/-- Memory that agrees on the addresses of a context holds it too. -/
theorem RepsCtx.frame {m m' : Mem β} {root : Option Nat} : ∀ {k : List (Frame β)}
    {hole : Option Nat}, RepsCtx m root k hole → (∀ a ∈ ctxAddrs k, m' a = m a) →
    RepsCtx m' root k hole := by
  intro k
  induction k with
  | nil => intro hole h _; exact h
  | cons f k ih =>
      intro hole h hm
      obtain ⟨hf, hs, hk⟩ := h
      refine ⟨?_, hs.frame ?_, ih hk ?_⟩
      · rw [hm f.a (List.mem_cons_self ..)]
        exact hf
      · intro b hb
        exact hm b (List.mem_cons_of_mem _ (List.mem_append.mpr (Or.inl hb)))
      · intro b hb
        exact hm b (List.mem_cons_of_mem _ (List.mem_append.mpr (Or.inr hb)))

/-! ## The focus -/

/-- The memory holds the tree `plug k t`, with `t` in focus; no address occurs
    twice. -/
structure Focus (m : Mem β) (root : Option Nat) (t : LTree β) (k : List (Frame β)) : Prop where
  tree : Reps m (parentOf k) t
  ctx : RepsCtx m root k t.ptr
  nodup : (t.addrs ++ ctxAddrs k).Nodup

theorem fill_addrs (f : Frame β) (t : LTree β) (k : List (Frame β)) :
    ((f.fill t).addrs ++ ctxAddrs k).Perm (t.addrs ++ ctxAddrs (f :: k)) := by
  have h1 : ((f.fill t).addrs ++ ctxAddrs k).Perm
      ((f.a :: (t.addrs ++ f.sib.addrs)) ++ ctxAddrs k) :=
    (join_addrs f.side f.a t f.v f.sib).append_right _
  refine h1.trans ?_
  show (f.a :: (t.addrs ++ f.sib.addrs) ++ ctxAddrs k).Perm
    (t.addrs ++ f.a :: (f.sib.addrs ++ ctxAddrs k))
  rw [List.cons_append, List.append_assoc]
  exact List.perm_middle.symm

theorem plug_addrs (k : List (Frame β)) : ∀ t : LTree β,
    (plug k t).addrs.Perm (t.addrs ++ ctxAddrs k) := by
  induction k with
  | nil =>
      intro t
      show t.addrs.Perm (t.addrs ++ [])
      rw [List.append_nil]
  | cons f k ih => intro t; exact (ih (f.fill t)).trans (fill_addrs f t k)

/-- Moving the focus between a node and its child. -/
theorem focus_fill {m : Mem β} {root : Option Nat} {t : LTree β} {f : Frame β}
    {k : List (Frame β)} : Focus m root (f.fill t) k ↔ Focus m root t (f :: k) := by
  have hreps : Reps m (parentOf k) (f.fill t) ↔ _ := reps_join m (parentOf k) f.side f.a t f.v f.sib
  have hptr : (f.fill t).ptr = some f.a := join_ptr ..
  constructor
  · intro h
    obtain ⟨ha, ht, hs⟩ := hreps.mp h.tree
    have hk := h.ctx
    rw [hptr] at hk
    exact ⟨ht, ⟨ha, hs, hk⟩, (fill_addrs f t k).nodup_iff.mp h.nodup⟩
  · intro h
    obtain ⟨ha, hs, hk⟩ := h.ctx
    refine ⟨hreps.mpr ⟨ha, h.tree, hs⟩, ?_, (fill_addrs f t k).nodup_iff.mpr h.nodup⟩
    rw [hptr]
    exact hk

/-- Moving the focus to the root. -/
theorem focus_plug {m : Mem β} {root : Option Nat} : ∀ {k : List (Frame β)} {t : LTree β},
    Focus m root t k ↔ Focus m root (plug k t) [] := by
  intro k
  induction k with
  | nil => intro t; exact Iff.rfl
  | cons f k ih =>
      intro t
      rw [← focus_fill]
      exact ih

/-- The focused node and the context use different addresses. -/
theorem Focus.disjoint {m : Mem β} {root : Option Nat} {t : LTree β} {k : List (Frame β)}
    (h : Focus m root t k) {a : Nat} (ha : a ∈ t.addrs) : a ∉ ctxAddrs k :=
  fun hk => (List.nodup_append.mp h.nodup).2.2 a ha a hk rfl

theorem parentOf_mem {k : List (Frame β)} {a : Nat} (h : parentOf k = some a) :
    a ∈ ctxAddrs k := by
  cases k with
  | nil => exact nomatch h
  | cons f k =>
      obtain rfl := Option.some.inj h
      exact List.mem_cons_self ..

/-! ## Replacing the focused tree -/

/-- The link from above to the hole of a context, set to `q`; the node above keeps
    the rest of its cell. -/
def Hung (m' : Mem β) (root root' : Option Nat) (q : Option Nat) : List (Frame β) → Prop
  | [] => root' = q
  | f :: k => root' = root ∧ m' f.a = some (Cell.of f.side q f.sib.ptr (parentOf k) f.v)

/-- A context whose hole is filled anew: nothing but the node above the hole
    changed. -/
theorem RepsCtx.rehang {m m' : Mem β} {root root' : Option Nat} {k : List (Frame β)}
    {hole q : Option Nat} (h : RepsCtx m root k hole) (hnd : (ctxAddrs k).Nodup)
    (hk : Hung m' root root' q k)
    (hm : ∀ a ∈ ctxAddrs k, some a ≠ parentOf k → m' a = m a) : RepsCtx m' root' k q := by
  cases k with
  | nil => exact hk
  | cons f k =>
      obtain ⟨rfl, hf⟩ := hk
      obtain ⟨-, hs, hk'⟩ := h
      have hnot := (List.nodup_cons.mp hnd).1
      have hin : ∀ a ∈ f.sib.addrs ++ ctxAddrs k, m' a = m a := by
        intro a ha
        refine hm a (List.mem_cons_of_mem _ ha) ?_
        intro heq
        rw [Option.some.inj heq] at ha
        exact hnot ha
      refine ⟨hf, hs.frame ?_, hk'.frame ?_⟩
      · exact fun a ha => hin a (List.mem_append.mpr (Or.inl ha))
      · exact fun a ha => hin a (List.mem_append.mpr (Or.inr ha))

/-! ## Surgery at the focus -/

/-- Overwriting the payload of the focused node. -/
theorem Focus.setVal {m m' : Mem β} {root : Option Nat} {a : Nat} {l r : LTree β} {v : β}
    {k : List (Frame β)} (h : Focus m root (.node a l v r) k) (v' : β)
    (ha : m' a = (m a).map fun c => { c with val := v' })
    (hm : ∀ b, b ≠ a → m' b = m b) : Focus m' root (.node a l v' r) k := by
  obtain ⟨hcell, hl, hr⟩ := h.tree
  have hnd := h.nodup
  obtain ⟨hnot, -⟩ := List.nodup_cons.mp hnd
  have hne : ∀ b, b ∈ l.addrs ++ r.addrs ++ ctxAddrs k → m' b = m b := by
    intro b hb
    refine hm b ?_
    intro heq
    rw [heq] at hb
    exact hnot hb
  refine ⟨⟨?_, hl.frame ?_, hr.frame ?_⟩, h.ctx.frame ?_, hnd⟩
  · rw [ha, hcell]
    rfl
  · intro b hb
    exact hne b (by simp [hb])
  · intro b hb
    exact hne b (by simp [hb])
  · intro b hb
    exact hne b (by simp [hb])

/-- Hanging a new node into the empty place in focus. -/
theorem Focus.attach {m m' : Mem β} {root : Option Nat} {f : Frame β} {k : List (Frame β)}
    (h : Focus m root .nil (f :: k)) {a : Nat} (hfresh : a ∉ ctxAddrs (f :: k)) (v : β)
    (ha : m' a = some ⟨none, none, some f.a, v⟩)
    (hf : m' f.a = some (Cell.of f.side (some a) f.sib.ptr (parentOf k) f.v))
    (hm : ∀ b, b ≠ a → b ≠ f.a → m' b = m b) :
    Focus m' root (.node a .nil v .nil) (f :: k) := by
  have hnd : (ctxAddrs (f :: k)).Nodup := h.nodup
  refine ⟨⟨ha, trivial, trivial⟩, h.ctx.rehang hnd ⟨rfl, hf⟩ ?_, ?_⟩
  · intro b hb hne
    refine hm b ?_ ?_
    · rintro rfl
      exact hfresh hb
    · rintro rfl
      exact hne rfl
  · show (a :: ctxAddrs (f :: k)).Nodup
    exact List.nodup_cons.mpr ⟨hfresh, hnd⟩

/-- The link from above to the focus, redirected to `y`. -/
def Relinked (m' : Mem β) (root root' : Option Nat) (y : Nat) : List (Frame β) → Prop
  | [] => root' = some y
  | f :: k => root' = root ∧ m' f.a = some (Cell.of f.side (some y) f.sib.ptr (parentOf k) f.v)

theorem Relinked.hung {m' : Mem β} {root root' : Option Nat} {y : Nat} {k : List (Frame β)}
    (h : Relinked m' root root' y k) : Hung m' root root' (some y) k := by
  cases k with
  | nil => exact h
  | cons f k => exact h

/-- The addresses of a node with a grandchild level on the side away from `s`. -/
theorem rotate_nodup {s : Side} {x y : Nat} {A B C : LTree β} {vx vy : β} {k : List (Frame β)}
    (h : ((join s x A vx (join s y B vy C)).addrs ++ ctxAddrs k).Nodup) :
    (x :: y :: (A.addrs ++ (B.addrs ++ (C.addrs ++ ctxAddrs k)))).Nodup := by
  refine (List.Perm.nodup_iff ?_).mp h
  refine ((join_addrs s x A vx (join s y B vy C)).append_right _).trans ?_
  rw [List.cons_append]
  refine List.Perm.cons x ?_
  refine (((join_addrs s y B vy C).append_left A.addrs).append_right _).trans ?_
  rw [List.append_assoc, List.cons_append, List.append_assoc]
  exact List.perm_middle

/-- Rotating at the focus: `y`, the child of `x` away from `s`, takes the place of
    `x`, and `x` becomes its child on side `s`. -/
theorem Focus.rotate {m m' : Mem β} {root root' : Option Nat} {s : Side} {x y : Nat}
    {A B C : LTree β} {vx vy : β} {k : List (Frame β)}
    (h : Focus m root (join s x A vx (join s y B vy C)) k) (vx' vy' : β)
    (hx : m' x = some (Cell.of s A.ptr B.ptr (some y) vx'))
    (hy : m' y = some (Cell.of s (some x) C.ptr (parentOf k) vy'))
    (hB : ∀ b, B.ptr = some b → m' b = (m b).map fun c => { c with p := some x })
    (hk : Relinked m' root root' y k)
    (hm : ∀ a, a ≠ x → a ≠ y → some a ≠ B.ptr → some a ≠ parentOf k → m' a = m a) :
    Focus m' root' (join s y (join s x A vx' B) vy' C) k := by
  have hnd := rotate_nodup h.nodup
  have hxy : x ≠ y := by
    intro heq
    exact (List.nodup_cons.mp hnd).1 (by simp [heq])
  -- the untouched parts: A, C, the inside of B and of the context
  have hfar : ∀ a ∈ A.addrs ++ (B.addrs ++ (C.addrs ++ ctxAddrs k)),
      some a ≠ B.ptr → some a ≠ parentOf k → m' a = m a := by
    intro a ha hab hak
    refine hm a ?_ ?_ hab hak
    · intro heq
      rw [heq] at ha
      exact (List.nodup_cons.mp hnd).1 (List.mem_cons_of_mem _ ha)
    · intro heq
      rw [heq] at ha
      exact (List.nodup_cons.mp (List.nodup_cons.mp hnd).2).1 ha
  obtain ⟨hnA, hnBCk, hdA⟩ := List.nodup_append.mp (List.nodup_cons.mp (List.nodup_cons.mp hnd).2).2
  obtain ⟨hnB, hnCk, hdB⟩ := List.nodup_append.mp hnBCk
  obtain ⟨-, hnk, hdC⟩ := List.nodup_append.mp hnCk
  obtain ⟨-, hA, hY⟩ := (reps_join ..).mp h.tree
  obtain ⟨-, hBr, hC⟩ := (reps_join ..).mp hY
  have hB_in : ∀ {a}, B.ptr = some a → a ∈ B.addrs := fun h => ptr_mem_addrs h
  refine ⟨?_, ?_, ?_⟩
  · refine (reps_join ..).mpr ⟨?_, (reps_join ..).mpr ⟨hx, hA.frame ?_, ?_⟩, hC.frame ?_⟩
    · rw [join_ptr]
      exact hy
    · intro a ha
      refine hfar a (by simp [ha]) ?_ ?_
      · intro heq
        exact hdA a ha a (by simp [hB_in heq.symm]) rfl
      · intro heq
        exact hdA a ha a (by simp [parentOf_mem heq.symm]) rfl
    · refine hBr.reparent hnB hB ?_
      intro a ha hne
      refine hfar a (by simp [ha]) hne ?_
      intro heq
      exact hdB a ha a (by simp [parentOf_mem heq.symm]) rfl
    · intro a ha
      refine hfar a (by simp [ha]) ?_ ?_
      · intro heq
        exact hdB a (hB_in heq.symm) a (by simp [ha]) rfl
      · intro heq
        exact hdC a ha a (parentOf_mem heq.symm) rfl
  · rw [join_ptr]
    refine h.ctx.rehang hnk (Relinked.hung hk) ?_
    intro a ha hne
    refine hfar a (by simp [ha]) ?_ hne
    intro heq
    exact hdB a (hB_in heq.symm) a (by simp [ha]) rfl
  · refine (List.Perm.nodup_iff ?_).mp hnd
    refine List.Perm.symm ?_
    refine ((join_addrs s y (join s x A vx' B) vy' C).append_right _).trans ?_
    rw [List.cons_append, List.append_assoc]
    refine (List.Perm.cons y ((join_addrs s x A vx' B).append_right _)).trans ?_
    rw [List.cons_append, List.append_assoc]
    exact List.Perm.swap x y _

/-! ## Nodes in order -/

/-- The nodes in order, each with its address and payload. -/
def LTree.nodes : LTree β → List (Nat × β)
  | nil => []
  | node a l v r => l.nodes ++ (a, v) :: r.nodes

/-- The nodes of a context that come before its hole. -/
def nodesBefore : List (Frame β) → List (Nat × β)
  | [] => []
  | f :: k => nodesBefore k ++ match f.side with
      | .left => []
      | .right => f.sib.nodes ++ [(f.a, f.v)]

/-- The nodes of a context that come after its hole. -/
def nodesAfter : List (Frame β) → List (Nat × β)
  | [] => []
  | f :: k => (match f.side with
      | .left => (f.a, f.v) :: f.sib.nodes
      | .right => []) ++ nodesAfter k

theorem nodes_plug (k : List (Frame β)) : ∀ t : LTree β,
    (plug k t).nodes = nodesBefore k ++ t.nodes ++ nodesAfter k := by
  induction k with
  | nil =>
      intro t
      show t.nodes = [] ++ t.nodes ++ []
      rw [List.append_nil, List.nil_append]
  | cons f k ih =>
      intro t
      obtain ⟨side, a, v, u⟩ := f
      show (plug k (Frame.fill ⟨side, a, v, u⟩ t)).nodes = _
      rw [ih]
      cases side with
      | left => simp [nodesBefore, nodesAfter, Frame.fill, join, LTree.nodes]
      | right => simp [nodesBefore, nodesAfter, Frame.fill, join, LTree.nodes]

theorem vals_eq_map_nodes (t : LTree β) : t.vals = t.nodes.map Prod.snd := by
  induction t with
  | nil => rfl
  | node a l v r ihl ihr => simp [LTree.vals, LTree.nodes, ihl, ihr]

theorem addrs_perm_nodes (t : LTree β) : t.addrs.Perm (t.nodes.map Prod.fst) := by
  induction t with
  | nil => exact List.Perm.refl _
  | node a l v r ihl ihr =>
      show (a :: (l.addrs ++ r.addrs)).Perm ((l.nodes ++ (a, v) :: r.nodes).map Prod.fst)
      rw [List.map_append, List.map_cons]
      exact (List.Perm.cons a (ihl.append ihr)).trans List.perm_middle.symm

theorem length_nodes (t : LTree β) : t.nodes.length = t.size := by
  induction t with
  | nil => rfl
  | node a l v r ihl ihr =>
      simp only [LTree.nodes, LTree.size, List.length_append, List.length_cons, ihl, ihr]
      omega

/-! ## Paths -/

theorem plug_append (k k' : List (Frame β)) : ∀ t : LTree β,
    plug (k ++ k') t = plug k' (plug k t) := by
  induction k with
  | nil => intro t; rfl
  | cons f k ih => intro t; exact ih (f.fill t)

/-- Moving the focus along a path. -/
theorem focus_append {m : Mem β} {root : Option Nat} {k' : List (Frame β)} :
    ∀ {k : List (Frame β)} {t : LTree β}, Focus m root (plug k t) k' ↔ Focus m root t (k ++ k') := by
  intro k
  induction k with
  | nil => intro t; exact Iff.rfl
  | cons f k ih =>
      intro t
      show Focus m root (plug k (f.fill t)) k' ↔ Focus m root t (f :: (k ++ k'))
      rw [← focus_fill]
      exact ih

/-- Every address of a tree is the root of one of its subtrees. -/
theorem exists_plug {a : Nat} {t : LTree β} (h : a ∈ t.addrs) :
    ∃ k l v r, t = plug k (.node a l v r) := by
  induction t with
  | nil => exact nomatch h
  | node b l v r ihl ihr =>
      rcases List.mem_cons.mp h with rfl | h
      · exact ⟨[], l, v, r, rfl⟩
      · rcases List.mem_append.mp h with h | h
        · obtain ⟨k, l', w, r', rfl⟩ := ihl h
          refine ⟨k ++ [⟨.left, b, v, r⟩], l', w, r', ?_⟩
          rw [plug_append]
          rfl
        · obtain ⟨k, l', w, r', rfl⟩ := ihr h
          refine ⟨k ++ [⟨.right, b, v, l⟩], l', w, r', ?_⟩
          rw [plug_append]
          rfl

end LinkedTree
