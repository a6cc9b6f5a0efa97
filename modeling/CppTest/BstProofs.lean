import CppTest.MachineProofs
import CppTest.LinkedTreeProofs
import Mathlib.Order.Bounds.Basic

/-! # The binary search tree (`src/algs/intro_to_algs3th/test_binary_search_tree.cpp`)

    The model of the source, and what each of its operations does to the tree in
    memory.

    * The model: a root pointer and the cells of all nodes, in the tree or not.  The
      payload of a cell is the `key`, which no operation writes.
    * The order: `Ordered t`, smaller keys to the left and greater or EQUAL keys to
      the right, and its reading through a context (`ordered_plug`): exchanging the
      tree in the hole is a local question.
    * One spec lemma for each operation: `bstreeEnd_spec`, `bstreeInsert_spec`,
      `bstreeSearch_spec`, `bstreeTransplant_spec`, `bstreeDelete_spec`.

    A null or dangling pointer faults (`none`), and so does an exhausted fuel. -/

namespace Bst

open Machine LinkedTree

/-! ## The model -/

/-- The root variable of a caller, and the memory of all its nodes. -/
structure Tree where
  root : Option Nat
  mem : Mem Int

/-- One pass of the loops of `bstree_max` and `bstree_min`, which differ in the
    side they follow. -/
def bstreeEndPass (s : Side) (m : Mem Int) (x : Nat) : Option (Pass Nat Nat) := do
  let c ← m x
  match c.child s with
  | none => some (.done x)
  | some y => some (.next y)

/-- `while(root->side) root = root->side; return root`. -/
def bstreeEnd (s : Side) (fuel : Nat) (m : Mem Int) (root : Nat) : Option Nat :=
  loop (bstreeEndPass s m) fuel root

/-- `bstree_max`; a null `root` is not an argument. -/
def bstreeMax (fuel : Nat) (m : Mem Int) (root : Nat) : Option Nat := bstreeEnd .right fuel m root

/-- `bstree_min`. -/
def bstreeMin (fuel : Nat) (m : Mem Int) (root : Nat) : Option Nat := bstreeEnd .left fuel m root

/-- One pass of the loop of `bstree_insert`, with the pointers `x` and `p`. -/
def bstreeInsertPass (m : Mem Int) (key : Int) :
    Option Nat × Option Nat → Option (Pass (Option Nat × Option Nat) (Option Nat))
  | (none, p) => some (.done p)
  | (some x, _) => do
      let c ← m x
      some (.next (if key < c.val then c.left else c.right, some x))

/-- `bstree_insert`: the tree after the call and the return value. -/
def bstreeInsert (fuel : Nat) (tr : Tree) (node : Option Nat) : Option (Tree × Int) :=
  match node with
  | none => some (tr, -1)
  | some node => do
      let c ← tr.mem node
      let p ← loop (bstreeInsertPass tr.mem c.val) fuel (tr.root, none)
      let tr ← match p with
        | none => some { tr with root := some node }
        | some p => do
            let cp ← tr.mem p
            let m ← modify tr.mem p fun n =>
              n.setChild (if c.val < cp.val then .left else .right) (some node)
            some { tr with mem := m }
      let m ← modify tr.mem node fun n => { n with p := p }
      some ({ tr with mem := m }, 0)

/-- What the reference parameter of `bstree_insert_recursive` may refer to. -/
inductive Link where
  | ofRoot
  | ofChild (a : Nat) (s : Side)
  deriving Repr, DecidableEq

def Link.get (tr : Tree) : Link → Option (Option Nat)
  | .ofRoot => some tr.root
  | .ofChild a s => (tr.mem a).map fun c => c.child s

def Link.set (tr : Tree) (q : Option Nat) : Link → Option Tree
  | .ofRoot => some { tr with root := q }
  | .ofChild a s => (modify tr.mem a fun c => c.setChild s q).map fun m => { tr with mem := m }

/-- `bstree_insert_recursive`; the fuel bounds the depth. -/
def bstreeInsertRecursive : Nat → Tree → Link → Option Nat → Option (Tree × Int)
  | 0, _, _, _ => none
  | fuel + 1, tr, root, node =>
      match node with
      | none => some (tr, -1)
      | some n => do
          match ← root.get tr with
          | none => do
              let tr ← root.set tr (some n)
              some (tr, 0)
          | some r => do
              let cn ← tr.mem n
              let cr ← tr.mem r
              if cn.val < cr.val then bstreeInsertRecursive fuel tr (.ofChild r .left) node
              else bstreeInsertRecursive fuel tr (.ofChild r .right) node

/-- One pass of the loop of `bstree_search`. -/
def bstreeSearchPass (m : Mem Int) (key : Int) :
    Option Nat → Option (Pass (Option Nat) (Option Nat))
  | none => some (.done none)
  | some x => do
      let c ← m x
      if c.val ≠ key then some (.next (if key < c.val then c.left else c.right))
      else some (.done (some x))

/-- `bstree_search`: the node found, or null. -/
def bstreeSearch (fuel : Nat) (m : Mem Int) (root : Option Nat) (key : Int) : Option (Option Nat) :=
  loop (bstreeSearchPass m key) fuel root

/-- The link to `u` from its parent `p`, or the root, redirected to `v`. -/
def bstreeRelink (tr : Tree) (p : Option Nat) (u : Nat) (v : Option Nat) : Option Tree :=
  match p with
  | none => some { tr with root := v }
  | some p => do
      let cp ← tr.mem p
      let m ← modify tr.mem p fun n => n.setChild (if cp.left = some u then .left else .right) v
      some { tr with mem := m }

/-- `bstree_transplant`. -/
def bstreeTransplant (tr : Tree) (u : Nat) (v : Option Nat) : Option Tree := do
  let c ← tr.mem u
  let tr ← bstreeRelink tr c.p u v
  match v with
  | none => some tr
  | some v => do
      let c ← tr.mem u
      let m ← modify tr.mem v fun n => { n with p := c.p }
      some { tr with mem := m }

/-- `child->p = y` through the link `y->side` just written. -/
def adopt (m : Mem Int) (y : Nat) (s : Side) (child : Option Nat) : Option (Mem Int) := do
  let m ← modify m y fun n => n.setChild s child
  let b ← child
  modify m b fun n => { n with p := some y }

/-- The branch `y->p != node` of `bstree_delete`: `y` leaves its place to its right
    child, and `y->right = node->right; y->right->p = y`. -/
def bstreeDetach (tr : Tree) (node y : Nat) (right : Option Nat) : Option Tree := do
  let tr ← bstreeTransplant tr y right
  let c ← tr.mem node
  let m ← adopt tr.mem y .right c.right
  some { tr with mem := m }

/-- The last statements of `bstree_delete`: `y` takes the place of `node`, and
    `y->left = node->left; y->left->p = y`. -/
def bstreeTakePlace (tr : Tree) (node y : Nat) : Option Tree := do
  let tr ← bstreeTransplant tr node (some y)
  let c ← tr.mem node
  let m ← adopt tr.mem y .left c.left
  some { tr with mem := m }

/-- `bstree_delete`. -/
def bstreeDelete (fuel : Nat) (tr : Tree) (node : Nat) : Option Tree := do
  let c ← tr.mem node
  match c.left, c.right with
  | none, right => bstreeTransplant tr node right
  | some left, none => bstreeTransplant tr node (some left)
  | some _, some right => do
      let y ← bstreeMin fuel tr.mem right
      let cy ← tr.mem y
      let tr ← (if cy.p ≠ some node then bstreeDetach tr node y cy.right else some tr)
      bstreeTakePlace tr node y

/-- `bstree_inorder_walk`: the keys it prints; the fuel bounds the depth. -/
def bstreeInorderWalk : Nat → Mem Int → Option Nat → Option (List Int)
  | 0, _, _ => none
  | _ + 1, _, none => some []
  | fuel + 1, m, some a => do
      let c ← m a
      let l ← bstreeInorderWalk fuel m c.left
      let r ← bstreeInorderWalk fuel m c.right
      some (l ++ c.val :: r)

open LTree

/-! ## The order -/

/-- A search tree: smaller keys to the left, greater or equal keys to the right. -/
def Ordered : LTree Int → Prop
  | .nil => True
  | .node _ l v r => (∀ x ∈ l.vals, x < v) ∧ (∀ x ∈ r.vals, v ≤ x) ∧ Ordered l ∧ Ordered r

/-- A key on its way down to the hole of a context turned left and right as the
    order asks. -/
def Admits (k : List (Frame Int)) (x : Int) : Prop :=
  ∀ f ∈ k, match f.side with
    | .left => x < f.v
    | .right => f.v ≤ x

theorem admits_cons {f : Frame Int} {k : List (Frame Int)} {x : Int} :
    Admits (f :: k) x ↔ (match f.side with
      | .left => x < f.v
      | .right => f.v ≤ x) ∧ Admits k x :=
  List.forall_mem_cons

theorem mem_vals_fill {f : Frame Int} {t : LTree Int} {x : Int} :
    x ∈ (f.fill t).vals ↔ x ∈ t.vals ∨ x ∈ (f.fill .nil).vals := by
  obtain ⟨side, a, v, u⟩ := f
  cases side with
  | left => simp [Frame.fill, join, vals]
  | right =>
      simp only [Frame.fill, join, vals, List.mem_append, List.mem_cons, List.not_mem_nil, or_false]
      tauto

/-- One frame keeps the order if its hole gets an ordered tree of admitted keys. -/
theorem ordered_fill {f : Frame Int} {t : LTree Int} :
    Ordered (f.fill t) ↔ Ordered (f.fill .nil) ∧ Ordered t ∧ ∀ x ∈ t.vals, Admits [f] x := by
  obtain ⟨side, a, v, u⟩ := f
  cases side with
  | left =>
      simp only [Frame.fill, join, Ordered, vals, List.not_mem_nil, admits_cons]
      constructor
      · rintro ⟨hl, hr, hot, hou⟩
        exact ⟨⟨(fun _ h => h.elim), hr, trivial, hou⟩, hot,
          fun x hx => ⟨hl x hx, fun _ h => absurd h List.not_mem_nil⟩⟩
      · rintro ⟨⟨-, hr, -, hou⟩, hot, hl⟩
        exact ⟨fun x hx => (hl x hx).1, hr, hot, hou⟩
  | right =>
      simp only [Frame.fill, join, Ordered, vals, List.not_mem_nil, admits_cons]
      constructor
      · rintro ⟨hl, hr, hou, hot⟩
        exact ⟨⟨hl, (fun _ h => h.elim), hou, trivial⟩, hot,
          fun x hx => ⟨hr x hx, fun _ h => absurd h List.not_mem_nil⟩⟩
      · rintro ⟨⟨hl, -, hou, -⟩, hot, hr⟩
        exact ⟨hl, fun x hx => (hr x hx).1, hou, hot⟩

/-- A context keeps the order exactly for the ordered trees of admitted keys. -/
theorem ordered_plug (k : List (Frame Int)) : ∀ t : LTree Int,
    Ordered (plug k t) ↔ Ordered (plug k .nil) ∧ Ordered t ∧ ∀ x ∈ t.vals, Admits k x := by
  induction k with
  | nil =>
      intro t
      constructor
      · exact fun h => ⟨trivial, h, fun _ _ _ hf => nomatch hf⟩
      · exact fun h => h.2.1
  | cons f k ih =>
      intro t
      show Ordered (plug k (f.fill t)) ↔ Ordered (plug k (f.fill .nil)) ∧ _
      rw [ih (f.fill t), ih (f.fill .nil), ordered_fill]
      constructor
      · rintro ⟨hk, ⟨hf, ht, hadm⟩, hall⟩
        refine ⟨⟨hk, hf, fun x hx => hall x (mem_vals_fill.mpr (Or.inr hx))⟩, ht, ?_⟩
        intro x hx
        exact admits_cons.mpr ⟨(admits_cons.mp (hadm x hx)).1, hall x (mem_vals_fill.mpr (Or.inl hx))⟩
      · rintro ⟨⟨hk, hf, hall⟩, ht, hadm⟩
        refine ⟨hk, ⟨hf, ht, ?_⟩, ?_⟩
        · intro x hx
          exact admits_cons.mpr ⟨(admits_cons.mp (hadm x hx)).1, fun _ h => nomatch h⟩
        · intro x hx
          rcases mem_vals_fill.mp hx with hx | hx
          · exact (admits_cons.mp (hadm x hx)).2
          · exact hall x hx

/-- The in-order walk of a search tree is sorted. -/
theorem Ordered.sorted {t : LTree Int} (h : Ordered t) : t.vals.Pairwise (· ≤ ·) := by
  induction t with
  | nil => exact List.Pairwise.nil
  | node a l v r ihl ihr =>
      obtain ⟨hlt, hge, hl, hr⟩ := h
      refine List.pairwise_append.mpr ⟨ihl hl, List.pairwise_cons.mpr ⟨hge, ihr hr⟩, ?_⟩
      intro x hx y hy
      rcases List.mem_cons.mp hy with rfl | hy
      · exact le_of_lt (hlt x hx)
      · exact (le_of_lt (hlt x hx)).trans (hge y hy)

/-! ## Walking down -/

theorem height_join (s : Side) (a : Nat) (t : LTree Int) (v : Int) (u : LTree Int) :
    (join s a t v u).height = max t.height u.height + 1 := by
  cases s with
  | left => rfl
  | right => exact congrArg (· + 1) (Nat.max_comm ..)

/-- A tree that is not empty, seen from one side. -/
theorem exists_join (s : Side) (a : Nat) (l : LTree Int) (v : Int) (r : LTree Int) :
    ∃ t u, LTree.node a l v r = join s a t v u ∧ (t = l ∨ t = r) := by
  cases s with
  | left => exact ⟨l, r, rfl, Or.inl rfl⟩
  | right => exact ⟨r, l, rfl, Or.inr rfl⟩

/-- `bstree_min` and `bstree_max` end at the node with no child on their side, down
    a path that never turns. -/
theorem bstreeEnd_spec (s : Side) {m : Mem Int} : ∀ (t : LTree Int) (p : Option Nat) (a : Nat),
    Reps m p t → t.ptr = some a →
      ∃ k y v u, t = plug k (join s y .nil v u) ∧ (∀ f ∈ k, f.side = s)
        ∧ ∀ fuel, t.height ≤ fuel → bstreeEnd s fuel m a = some y := by
  intro t
  induction t with
  | nil =>
      intro p a _ hptr
      exact nomatch hptr
  | node b l v r ihl ihr =>
      intro p a hreps hptr
      obtain rfl := Option.some.inj hptr
      obtain ⟨c, o, heq, hc⟩ := exists_join s b l v r
      rw [heq] at hreps ⊢
      obtain ⟨hcell, hchild, -⟩ := (reps_join ..).mp hreps
      rw [height_join]
      cases hptr' : c.ptr with
      | none =>
          have hnil : c = .nil := by
            cases c with
            | nil => rfl
            | node => exact nomatch hptr'
          refine ⟨[], b, v, o, by rw [hnil]; rfl, (fun _ h => nomatch h), ?_⟩
          intro fuel hfuel
          refine loop_done (by omega) ?_
          simp [bstreeEndPass, hcell, hptr']
      | some d =>
          have ih : ∃ k y w u, c = plug k (join s y .nil w u) ∧ (∀ f ∈ k, f.side = s)
              ∧ ∀ fuel, c.height ≤ fuel → bstreeEnd s fuel m d = some y := by
            rcases hc with rfl | rfl
            · exact ihl (some b) d hchild hptr'
            · exact ihr (some b) d hchild hptr'
          obtain ⟨k, y, w, u, hplug, hside, hrun⟩ := ih
          refine ⟨k ++ [⟨s, b, v, o⟩], y, w, u, ?_, ?_, ?_⟩
          · rw [plug_append, ← hplug]
            rfl
          · intro f hf
            rcases List.mem_append.mp hf with hf | hf
            · exact hside f hf
            · rw [List.mem_singleton.mp hf]
          · intro fuel hfuel
            have hpass : bstreeEndPass s m b = some (.next d) := by
              simp [bstreeEndPass, hcell, hptr']
            exact (loop_next (by omega) hpass).trans (hrun _ (by omega))

/-- The memory holds the tree by its child links; the parent links are anything. -/
def Linked (m : Mem Int) : LTree Int → Prop
  | .nil => True
  | .node a l v r => (∃ p, m a = some ⟨l.ptr, r.ptr, p, v⟩) ∧ Linked m l ∧ Linked m r

theorem linked_of_reps {m : Mem Int} : ∀ {t : LTree Int} {p : Option Nat}, Reps m p t →
    Linked m t := by
  intro t
  induction t with
  | nil => exact fun _ => trivial
  | node a l v r ihl ihr =>
      rintro p ⟨hcell, hl, hr⟩
      exact ⟨⟨p, hcell⟩, ihl hl, ihr hr⟩

/-- The node that a new node with this key is hung under; `p` stands above the tree. -/
def seat (key : Int) : LTree Int → Option Nat → Option Nat
  | .nil, p => p
  | .node a l v r, _ => if key < v then seat key l (some a) else seat key r (some a)

/-- The loop of `bstree_insert` ends at the seat of the key. -/
theorem bstreeInsert_loop {m : Mem Int} (key : Int) : ∀ (t : LTree Int) (p : Option Nat),
    Linked m t → ∀ fuel, t.height < fuel →
      loop (bstreeInsertPass m key) fuel (t.ptr, p) = some (seat key t p) := by
  intro t
  induction t with
  | nil =>
      intro p _ fuel hfuel
      exact loop_done (by omega) rfl
  | node a l v r ihl ihr =>
      rintro p ⟨⟨q, hcell⟩, hl, hr⟩ fuel hfuel
      have hheight : max l.height r.height + 1 = (LTree.node a l v r).height := rfl
      have hpass : bstreeInsertPass m key (some a, p)
          = some (.next (if key < v then l.ptr else r.ptr, some a)) := by
        simp [bstreeInsertPass, hcell]
      refine (loop_next (by omega) hpass).trans ?_
      by_cases hlt : key < v
      · rw [seat, if_pos hlt, if_pos hlt]
        exact ihl (some a) hl _ (by omega)
      · rw [seat, if_neg hlt, if_neg hlt]
        exact ihr (some a) hr _ (by omega)

/-- The focus moves to the empty place for a key. -/
theorem exists_seat {m : Mem Int} {root : Option Nat} (key : Int) :
    ∀ (t : LTree Int) (k : List (Frame Int)), Focus m root t k → Admits k key →
      ∃ k', plug k' .nil = plug k t ∧ Focus m root .nil k' ∧ Admits k' key
        ∧ parentOf k' = seat key t (parentOf k) := by
  intro t
  induction t with
  | nil => exact fun k hf hadm => ⟨k, rfl, hf, hadm, rfl⟩
  | node a l v r ihl ihr =>
      intro k hf hadm
      by_cases hlt : key < v
      · rw [seat, if_pos hlt]
        exact ihl (⟨.left, a, v, r⟩ :: k) (focus_fill.mp hf) (admits_cons.mpr ⟨hlt, hadm⟩)
      · rw [seat, if_neg hlt]
        exact ihr (⟨.right, a, v, l⟩ :: k) (focus_fill.mp hf)
          (admits_cons.mpr ⟨not_lt.mp hlt, hadm⟩)

/-- `bstree_search` finds a node with the key, or there is none. -/
theorem bstreeSearch_spec {m : Mem Int} (key : Int) : ∀ (t : LTree Int) (p : Option Nat),
    Reps m p t → Ordered t →
      ∃ r, (∀ fuel, t.height < fuel → bstreeSearch fuel m t.ptr key = some r)
        ∧ (∀ a, r = some a → (a, key) ∈ t.nodes) ∧ (r = none → key ∉ t.vals) := by
  intro t
  induction t with
  | nil =>
      intro p _ _
      refine ⟨none, ?_, (fun _ h => nomatch h), fun _ => List.not_mem_nil⟩
      exact fun fuel hfuel => loop_done (by omega) rfl
  | node a l v r ihl ihr =>
      intro p hreps hord
      obtain ⟨hcell, hl, hr⟩ := hreps
      obtain ⟨hlt, hge, hol, hor⟩ := hord
      have hheight : max l.height r.height + 1 = (LTree.node a l v r).height := rfl
      by_cases heq : v = key
      · refine ⟨some a, ?_, ?_, fun h => nomatch h⟩
        · intro fuel hfuel
          refine loop_done (by omega) ?_
          simp [bstreeSearchPass, hcell, heq, ptr]
        · intro b hb
          obtain rfl := Option.some.inj hb
          simp [LTree.nodes, heq]
      · have hpass : bstreeSearchPass m key (some a)
            = some (.next (if key < v then l.ptr else r.ptr)) := by
          simp [bstreeSearchPass, hcell, heq]
        by_cases hsm : key < v
        · obtain ⟨res, hrun, hin, hout⟩ := ihl _ hl hol
          refine ⟨res, ?_, fun b hb => List.mem_append.mpr (Or.inl (hin b hb)), ?_⟩
          · intro fuel hfuel
            rw [if_pos hsm] at hpass
            exact (loop_next (by omega) hpass).trans (hrun _ (by omega))
          · intro hnone hmem
            rcases List.mem_append.mp hmem with hmem | hmem
            · exact hout hnone hmem
            · rcases List.mem_cons.mp hmem with rfl | hmem
              · exact heq rfl
              · exact absurd (hge key hmem) (not_le.mpr hsm)
        · obtain ⟨res, hrun, hin, hout⟩ := ihr _ hr hor
          refine ⟨res, ?_, fun b hb => List.mem_append.mpr
            (Or.inr (List.mem_cons_of_mem _ (hin b hb))), ?_⟩
          · intro fuel hfuel
            rw [if_neg hsm] at hpass
            exact (loop_next (by omega) hpass).trans (hrun _ (by omega))
          · intro hnone hmem
            rcases List.mem_append.mp hmem with hmem | hmem
            · exact hsm (hlt key hmem)
            · rcases List.mem_cons.mp hmem with rfl | hmem
              · exact heq rfl
              · exact hout hnone hmem

/-- `bstree_inorder_walk` prints the keys in order. -/
theorem bstreeInorderWalk_spec {m : Mem Int} : ∀ (t : LTree Int) (p : Option Nat), Reps m p t →
    ∀ fuel, t.height < fuel → bstreeInorderWalk fuel m t.ptr = some t.vals := by
  intro t
  induction t with
  | nil =>
      intro p _ fuel hfuel
      obtain ⟨n, rfl⟩ : ∃ n, fuel = n + 1 := ⟨fuel - 1, by omega⟩
      rfl
  | node a l v r ihl ihr =>
      intro p hreps fuel hfuel
      obtain ⟨hcell, hl, hr⟩ := hreps
      have hheight : max l.height r.height + 1 = (LTree.node a l v r).height := rfl
      obtain ⟨n, rfl⟩ : ∃ n, fuel = n + 1 := ⟨fuel - 1, by omega⟩
      have hleft := ihl _ hl n (by omega)
      have hright := ihr _ hr n (by omega)
      show bstreeInorderWalk (n + 1) m (some a) = _
      simp only [bstreeInorderWalk, hcell, hleft, hright, vals, Option.bind_eq_bind,
        Option.bind_some]

/-! ## Inserting -/

/-- The state with `a` in the hole of a context. -/
def hang (tr : Tree) (a : Nat) : List (Frame Int) → Tree
  | [] => { tr with root := some a }
  | f :: k =>
      let cell := Cell.of f.side (some a) f.sib.ptr (parentOf k) f.v
      { tr with mem := Function.update tr.mem f.a (some cell) }

/-- The state with the leaf `a` in the hole and pointing to the node above. -/
def seated (tr : Tree) (a : Nat) (key : Int) (k : List (Frame Int)) : Tree :=
  ⟨(hang tr a k).root, Function.update (hang tr a k).mem a (some ⟨none, none, parentOf k, key⟩)⟩

theorem hang_mem_of_notMem {tr : Tree} {a b : Nat} {k : List (Frame Int)} (h : b ∉ ctxAddrs k) :
    (hang tr a k).mem b = tr.mem b := by
  cases k with
  | nil => rfl
  | cons f k =>
      refine Function.update_of_ne ?_ ..
      rintro rfl
      exact h (List.mem_cons_self ..)

/-- The side `bstree_insert` picks at the last node is the side of the hole. -/
theorem side_of_admits {f : Frame Int} {k : List (Frame Int)} {key : Int}
    (h : Admits (f :: k) key) : (if key < f.v then Side.left else Side.right) = f.side := by
  have hf := (admits_cons.mp h).1
  cases hs : f.side with
  | left =>
      simp only [hs] at hf
      exact if_pos hf
  | right =>
      simp only [hs] at hf
      exact if_neg (not_lt.mpr hf)

/-- **`bstree_insert` of a node that is not in the tree** hangs it into the place for
    its key and points it at the node above. -/
theorem bstreeInsert_spec {tr : Tree} {t : LTree Int} (hf : Focus tr.mem tr.root t []) {a : Nat}
    {p : Option Nat} {key : Int} (ha : tr.mem a = some ⟨none, none, p, key⟩)
    (hfresh : a ∉ t.addrs) :
    ∃ k, plug k .nil = t ∧ Focus tr.mem tr.root .nil k ∧ Admits k key ∧ a ∉ ctxAddrs k
      ∧ ∀ fuel, t.height < fuel →
          bstreeInsert fuel tr (some a) = some (seated tr a key k, 0) := by
  obtain ⟨k, hplug, hfk, hadm, hseat⟩ := exists_seat key t [] hf (fun _ h => nomatch h)
  have hroot : tr.root = t.ptr := hf.ctx
  have hnot : a ∉ ctxAddrs k := by
    intro hmem
    refine hfresh ?_
    have := (plug_addrs k (.nil : LTree Int)).mem_iff (a := a)
    rw [hplug] at this
    exact this.mpr (by simpa using Or.inr hmem)
  refine ⟨k, hplug, hfk, hadm, hnot, ?_⟩
  intro fuel hfuel
  have hrun : loop (bstreeInsertPass tr.mem key) fuel (tr.root, none) = some (parentOf k) := by
    rw [hroot, hseat]
    exact bstreeInsert_loop key t none (linked_of_reps hf.tree) fuel hfuel
  have hcell : (hang tr a k).mem a = some ⟨none, none, p, key⟩ :=
    (hang_mem_of_notMem hnot).trans ha
  cases k with
  | nil =>
      have hrun₀ : loop (bstreeInsertPass tr.mem key) fuel (tr.root, none) = some none := hrun
      simp only [bstreeInsert, ha, hrun₀, Option.bind_eq_bind, Option.bind_some, modify_eq ha]
      rfl
  | cons f k =>
      have hrun₁ : loop (bstreeInsertPass tr.mem key) fuel (tr.root, none) = some (some f.a) := hrun
      obtain ⟨hcf, -, -⟩ := hfk.ctx
      have hset : LinkedTree.modify tr.mem f.a (fun n => n.setChild f.side (some a))
          = some (hang tr a (f :: k)).mem := by
        rw [modify_eq hcf, Cell.of_setChild]
        rfl
      simp only [bstreeInsert, ha, hrun₁, Option.bind_eq_bind, Option.bind_some, hcf,
        Cell.of_val, side_of_admits hadm, hset, modify_eq hcell]
      rfl

/-- The tree after `bstree_insert`, with the new node in focus. -/
theorem focus_seated {tr : Tree} {a : Nat} {key : Int} {k : List (Frame Int)}
    (hf : Focus tr.mem tr.root .nil k) (hnot : a ∉ ctxAddrs k) :
    Focus (seated tr a key k).mem (seated tr a key k).root (.node a .nil key .nil) k := by
  have hnd : (ctxAddrs k).Nodup := hf.nodup
  refine ⟨⟨Function.update_self .., trivial, trivial⟩, hf.ctx.rehang hnd ?_ ?_,
    List.nodup_cons.mpr ⟨hnot, hnd⟩⟩
  · cases k with
    | nil => rfl
    | cons f k =>
        have hne : f.a ≠ a := fun heq => hnot (heq ▸ List.mem_cons_self ..)
        exact ⟨rfl, (Function.update_of_ne hne ..).trans (Function.update_self ..)⟩
  · intro b hb hne
    have hba : b ≠ a := fun heq => hnot (heq ▸ hb)
    refine (Function.update_of_ne hba ..).trans ?_
    cases k with
    | nil => rfl
    | cons f k =>
        refine Function.update_of_ne ?_ ..
        rintro rfl
        exact hne rfl

/-! ## Transplanting -/

/-- The link above `u` goes to `v`, and every other cell stays. -/
theorem bstreeRelink_spec {tr : Tree} {u : Nat} {k : List (Frame Int)}
    (hctx : RepsCtx tr.mem tr.root k (some u)) (hnot : u ∉ ctxAddrs k) (v : Option Nat) :
    ∃ tr', bstreeRelink tr (parentOf k) u v = some tr' ∧ Hung tr'.mem tr.root tr'.root v k
      ∧ ∀ b, some b ≠ parentOf k → tr'.mem b = tr.mem b := by
  cases k with
  | nil => exact ⟨{ tr with root := v }, rfl, rfl, fun _ _ => rfl⟩
  | cons f k =>
      obtain ⟨hcf, -, -⟩ := hctx
      have hside : (if (Cell.of f.side (some u) f.sib.ptr (parentOf k) f.v).left = some u
          then Side.left else Side.right) = f.side := by
        cases hs : f.side with
        | left => exact if_pos rfl
        | right =>
            refine if_neg ?_
            intro hsib
            exact hnot (List.mem_cons_of_mem _ (List.mem_append.mpr (Or.inl (ptr_mem_addrs hsib))))
      have hset := modify_eq hcf fun n => n.setChild f.side v
      rw [Cell.of_setChild] at hset
      refine ⟨⟨tr.root, Function.update tr.mem f.a
        (some (Cell.of f.side v f.sib.ptr (parentOf k) f.v))⟩, ?_, ⟨rfl, ?_⟩, ?_⟩
      · simp only [bstreeRelink, parentOf_cons, hcf, Option.bind_eq_bind, Option.bind_some, hside,
          hset]
      · exact Function.update_self ..
      · intro b hb
        refine Function.update_of_ne ?_ ..
        rintro rfl
        exact hb rfl

/-- **`bstree_transplant`** puts `v` where `u` hung: the link above `u` goes to `v`,
    `v` points to the node above, and every other cell stays. -/
theorem bstreeTransplant_spec {tr : Tree} {u : Nat} {k : List (Frame Int)} {c : Cell Int}
    (hu : tr.mem u = some c) (hp : c.p = parentOf k) (hctx : RepsCtx tr.mem tr.root k (some u))
    (hnot : u ∉ ctxAddrs k) (v : Option Nat)
    (hv : ∀ w, v = some w → w ∉ ctxAddrs k ∧ ∃ cw, tr.mem w = some cw) :
    ∃ tr', bstreeTransplant tr u v = some tr' ∧ Hung tr'.mem tr.root tr'.root v k
      ∧ (∀ w, v = some w → tr'.mem w = (tr.mem w).map fun n => { n with p := parentOf k })
      ∧ ∀ b, some b ≠ v → some b ≠ parentOf k → tr'.mem b = tr.mem b := by
  obtain ⟨tr₁, hlink, hhung, hother⟩ := bstreeRelink_spec hctx hnot v
  rw [← hp] at hlink
  cases v with
  | none =>
      refine ⟨tr₁, ?_, hhung, (fun _ h => nomatch h), fun b _ hb => hother b hb⟩
      simp only [bstreeTransplant, hu, Option.bind_eq_bind, Option.bind_some, hlink]
  | some w =>
      obtain ⟨hwk, cw, hw⟩ := hv w rfl
      have hwp : some w ≠ parentOf k := fun heq => hwk (parentOf_mem heq.symm)
      have hw₁ : tr₁.mem w = some cw := (hother w hwp).trans hw
      have hu₁ : tr₁.mem u = some c :=
        (hother u fun heq => hnot (parentOf_mem heq.symm)).trans hu
      refine ⟨⟨tr₁.root, Function.update tr₁.mem w (some { cw with p := c.p })⟩, ?_, ?_, ?_, ?_⟩
      · simp only [bstreeTransplant, hu, Option.bind_eq_bind, Option.bind_some, hlink, hu₁,
          modify_eq hw₁]
      · cases k with
        | nil => exact hhung
        | cons f k =>
            obtain ⟨hroot, hf⟩ := hhung
            refine ⟨hroot, ?_⟩
            rw [← hf]
            refine Function.update_of_ne ?_ ..
            rintro rfl
            exact hwp rfl
      · intro x hx
        obtain rfl := Option.some.inj hx
        rw [hw, ← hp]
        exact Function.update_self ..
      · intro b hb hbk
        rw [← hother b hbk]
        refine Function.update_of_ne ?_ ..
        rintro rfl
        exact hb rfl

theorem Reps.root_cell {m : Mem Int} {p : Option Nat} {t : LTree Int} (h : Reps m p t) {a : Nat}
    (ha : t.ptr = some a) : ∃ c, m a = some c := by
  cases t with
  | nil => exact nomatch ha
  | node b l v r =>
      obtain rfl := Option.some.inj ha
      exact ⟨_, h.1⟩

/-- Transplanting its only child over a node removes the node. -/
theorem bstreeTransplant_child {tr : Tree} {s : Side} {z : Nat} {v : Int} {t : LTree Int}
    {k : List (Frame Int)} (hf : Focus tr.mem tr.root (join s z .nil v t) k) :
    ∃ tr', bstreeTransplant tr z t.ptr = some tr' ∧ Focus tr'.mem tr'.root t k
      ∧ Hung tr'.mem tr.root tr'.root t.ptr k
      ∧ ∀ b, some b ≠ t.ptr → some b ≠ parentOf k → tr'.mem b = tr.mem b := by
  obtain ⟨hz, -, ht⟩ := (reps_join ..).mp hf.tree
  have hperm : ((join s z .nil v t).addrs ++ ctxAddrs k).Perm (z :: (t.addrs ++ ctxAddrs k)) :=
    (join_addrs s z .nil v t).append_right _
  have hnd := hperm.nodup_iff.mp hf.nodup
  obtain ⟨-, hnd'⟩ := List.nodup_cons.mp hnd
  obtain ⟨hndt, hndk, hdisj⟩ := List.nodup_append.mp hnd'
  have hzk : z ∉ ctxAddrs k :=
    fun h => (List.nodup_cons.mp hnd).1 (List.mem_append.mpr (Or.inr h))
  have htk : ∀ b ∈ t.addrs, b ∉ ctxAddrs k := fun b hb hk => hdisj b hb b hk rfl
  have hctx := hf.ctx
  rw [join_ptr] at hctx
  obtain ⟨tr', hrun, hhung, hroot, hother⟩ :=
    bstreeTransplant_spec hz (Cell.of_p ..) hctx hzk t.ptr
      (fun w hw => ⟨htk w (ptr_mem_addrs hw), Reps.root_cell ht hw⟩)
  refine ⟨tr', hrun, ⟨?_, hf.ctx.rehang hndk hhung ?_, hnd'⟩, hhung, hother⟩
  · refine ht.reparent hndt hroot ?_
    intro a ha hne
    refine hother a hne ?_
    intro heq
    exact htk a ha (parentOf_mem heq.symm)
  · intro a ha hne
    refine hother a ?_ hne
    intro heq
    exact htk a (ptr_mem_addrs heq.symm) ha

/-! ## Deleting -/

/-- `y` gets `b` as its child, and `b` gets `y` as its parent. -/
theorem adopt_spec {m : Mem Int} {y b : Nat} {cy cb : Cell Int} (hy : m y = some cy)
    (hb : m b = some cb) (hne : b ≠ y) (s : Side) :
    ∃ m', adopt m y s (some b) = some m' ∧ m' y = some (cy.setChild s (some b))
      ∧ m' b = some { cb with p := some y } ∧ ∀ a, a ≠ y → a ≠ b → m' a = m a := by
  have hb' : Function.update m y (some (cy.setChild s (some b))) b = some cb :=
    (Function.update_of_ne hne ..).trans hb
  refine ⟨Function.update (Function.update m y (some (cy.setChild s (some b)))) b
    (some { cb with p := some y }), ?_, ?_, Function.update_self .., ?_⟩
  · simp only [adopt, modify_eq hy, Option.bind_eq_bind, Option.bind_some, modify_eq hb']
  · rw [Function.update_of_ne hne.symm, Function.update_self]
  · intro a hay hab
    rw [Function.update_of_ne hab, Function.update_of_ne hay]

/-- The tree that `y` has adopted is as before, but for its parent. -/
theorem adopted_reps {m m' : Mem Int} {q : Option Nat} {t : LTree Int} {y b : Nat} {cb : Cell Int}
    (h : Reps m q t) (hnd : t.addrs.Nodup) (hb : t.ptr = some b) (hcb : m b = some cb)
    (hb' : m' b = some { cb with p := some y }) (hother : ∀ a, a ≠ y → a ≠ b → m' a = m a)
    (hy : y ∉ t.addrs) : Reps m' (some y) t := by
  refine h.reparent hnd ?_ ?_
  · intro a ha
    obtain rfl := Option.some.inj (hb.symm.trans ha)
    rw [hb', hcb]
    rfl
  · intro a ha hne
    refine hother a ?_ ?_
    · rintro rfl
      exact hy ha
    · rintro rfl
      exact hne hb.symm

/-- Before the last transplant of a deletion: `z` still hangs in its place with its
    left subtree `l`, and `y` stands aside with what is left of the right one. -/
structure Handover (m : Mem Int) (root : Option Nat) (z y : Nat) (l r : LTree Int) (vy : Int)
    (k : List (Frame Int)) : Prop where
  z_cell : ∃ q v, m z = some ⟨l.ptr, q, parentOf k, v⟩
  y_cell : ∃ p, m y = some ⟨none, r.ptr, p, vy⟩
  left : Reps m (some z) l
  right : Reps m (some y) r
  ctx : RepsCtx m root k (some z)
  nodup : (z :: y :: (l.addrs ++ (r.addrs ++ ctxAddrs k))).Nodup

/-- The last three statements of `bstree_delete`: `y` takes the place of `z`. -/
theorem Handover.finish {tr : Tree} {z y : Nat} {l r : LTree Int} {vy : Int} {k : List (Frame Int)}
    (h : Handover tr.mem tr.root z y l r vy k) {b : Nat} (hb : l.ptr = some b) :
    ∃ tr', bstreeTakePlace tr z y = some tr'
      ∧ Focus tr'.mem tr'.root (.node y l vy r) k := by
  obtain ⟨q, vz, hz⟩ := h.z_cell
  obtain ⟨p, hy⟩ := h.y_cell
  obtain ⟨hznot, hnd⟩ := List.nodup_cons.mp h.nodup
  obtain ⟨hynot, hnd'⟩ := List.nodup_cons.mp hnd
  obtain ⟨hndl, hndrk, hdl⟩ := List.nodup_append.mp hnd'
  obtain ⟨hndr, hndk, hdr⟩ := List.nodup_append.mp hndrk
  have hzy : z ≠ y := fun heq => hznot (heq ▸ List.mem_cons_self ..)
  have hzk : z ∉ ctxAddrs k := fun hm => hznot (by simp [hm])
  have hyk : y ∉ ctxAddrs k := fun hm => hynot (by simp [hm])
  have hbl : b ∈ l.addrs := ptr_mem_addrs hb
  have hby : b ≠ y := fun heq => hynot (by rw [← heq]; simp [hbl])
  -- what the transplant leaves
  obtain ⟨tr₁, hrun, hhung, hroot, hother⟩ :=
    bstreeTransplant_spec hz rfl h.ctx hzk (some y)
      (fun w hw => by obtain rfl := Option.some.inj hw; exact ⟨hyk, _, hy⟩)
  have hkeep : ∀ a, a ≠ y → a ∉ ctxAddrs k → tr₁.mem a = tr.mem a := by
    intro a hay hak
    refine hother a (fun heq => hay (Option.some.inj heq)) ?_
    intro heq
    exact hak (parentOf_mem heq.symm)
  have hz₁ : tr₁.mem z = some ⟨l.ptr, q, parentOf k, vz⟩ := (hkeep z hzy hzk).trans hz
  have hy₁ : tr₁.mem y = some ⟨none, r.ptr, parentOf k, vy⟩ := by
    rw [hroot y rfl, hy]
    rfl
  have hlk : ∀ a ∈ l.addrs, a ∉ ctxAddrs k := fun a ha hk => hdl a ha a (by simp [hk]) rfl
  have hrk : ∀ a ∈ r.addrs, a ∉ ctxAddrs k := fun a ha hk => hdr a ha a hk rfl
  have hly : ∀ a ∈ l.addrs, a ≠ y := fun a ha heq => hynot (by rw [← heq]; simp [ha])
  have hry : ∀ a ∈ r.addrs, a ≠ y := fun a ha heq => hynot (by rw [← heq]; simp [ha])
  have hl₁ : Reps tr₁.mem (some z) l := h.left.frame fun a ha => hkeep a (hly a ha) (hlk a ha)
  obtain ⟨cb, hcb⟩ := Reps.root_cell hl₁ hb
  -- what the adoption leaves
  obtain ⟨m₂, hadopt, hy₂, hb₂, hother₂⟩ := adopt_spec hy₁ hcb hby .left
  refine ⟨⟨tr₁.root, m₂⟩, ?_, (?_ : Focus m₂ tr₁.root (.node y l vy r) k)⟩
  · simp only [bstreeTakePlace, hrun, Option.bind_eq_bind, Option.bind_some, hz₁, hb, hadopt]
  refine ⟨⟨?_, ?_, ?_⟩, ?_, ?_⟩
  · rw [hy₂, hb]
    rfl
  · exact adopted_reps hl₁ hndl hb hcb hb₂ hother₂ (fun hm => hly y hm rfl)
  · refine h.right.frame ?_
    intro a ha
    have hab : a ≠ b := fun heq => hdl b hbl a (by simp [ha]) heq.symm
    rw [hother₂ a (hry a ha) hab]
    exact hkeep a (hry a ha) (hrk a ha)
  · refine h.ctx.rehang hndk ?_ ?_
    · cases k with
      | nil => exact hhung
      | cons f k =>
          obtain ⟨hr, hcf⟩ := hhung
          have hfa : f.a ∈ ctxAddrs (f :: k) := List.mem_cons_self ..
          have hfy : f.a ≠ y := fun heq => hyk (heq ▸ hfa)
          have hfb : f.a ≠ b := fun heq => hlk b hbl (heq ▸ hfa)
          exact ⟨hr, (hother₂ f.a hfy hfb).trans hcf⟩
    · intro a ha hne
      have hay : a ≠ y := fun heq => hyk (heq ▸ ha)
      have hab : a ≠ b := fun heq => hlk b hbl (heq ▸ ha)
      rw [hother₂ a hay hab]
      exact hother a (fun heq => hay (Option.some.inj heq)) hne
  · show (y :: (l.addrs ++ r.addrs) ++ ctxAddrs k).Nodup
    rw [List.cons_append, List.append_assoc]
    exact hnd

/-- The addresses of a tree whose inner node `y` has no left child. -/
theorem addrs_plug_left {k : List (Frame Int)} {y : Nat} {vy : Int} {t : LTree Int} :
    (plug k (.node y .nil vy t)).addrs.Perm (y :: (plug k t).addrs) :=
  (plug_addrs k (.node y .nil vy t)).trans ((plug_addrs k t).symm.cons y)

theorem handover_nodup {z y : Nat} {l t : LTree Int} {v vy : Int} {k' k : List (Frame Int)}
    (h : ((LTree.node z l v (plug k' (.node y .nil vy t))).addrs ++ ctxAddrs k).Nodup) :
    (z :: y :: (l.addrs ++ ((plug k' t).addrs ++ ctxAddrs k))).Nodup := by
  refine (List.Perm.nodup_iff ?_).mp h
  show (z :: (l.addrs ++ (plug k' (.node y .nil vy t)).addrs) ++ ctxAddrs k).Perm _
  rw [List.cons_append, List.append_assoc]
  refine List.Perm.cons z ?_
  refine ((addrs_plug_left.append_right (ctxAddrs k)).append_left l.addrs).trans ?_
  rw [List.cons_append]
  exact List.perm_middle

theorem ptr_plug_cons (f : Frame Int) (k : List (Frame Int)) : ∀ t u : LTree Int,
    ∃ a, (plug (f :: k) t).ptr = some a ∧ (plug (f :: k) u).ptr = some a := by
  induction k generalizing f with
  | nil => exact fun t u => ⟨f.a, join_ptr .., join_ptr ..⟩
  | cons g k ih => exact fun t u => ih g (f.fill t) (f.fill u)

/-- The successor deeper in the right subtree is taken out of it and gets what is
    left as its own. -/
theorem detach_spec {tr : Tree} {z y : Nat} {l t : LTree Int} {v vy : Int} {f : Frame Int}
    {k' k : List (Frame Int)}
    (hf : Focus tr.mem tr.root (.node z l v (plug (f :: k') (.node y .nil vy t))) k) :
    ∃ tr', bstreeDetach tr z y t.ptr = some tr'
      ∧ Handover tr'.mem tr'.root z y l (plug (f :: k') t) vy k := by
  have hnd := handover_nodup hf.nodup
  obtain ⟨hznot, hnd₁⟩ := List.nodup_cons.mp hnd
  obtain ⟨hynot, hnd₂⟩ := List.nodup_cons.mp hnd₁
  obtain ⟨-, hndrk, hdl⟩ := List.nodup_append.mp hnd₂
  obtain ⟨hndr, -, hdr⟩ := List.nodup_append.mp hndrk
  -- the focus on `y`, and the cell there
  have hfy : Focus tr.mem tr.root (join .left y .nil vy t) ((f :: k') ++ ⟨.right, z, v, l⟩ :: k) :=
    focus_append.mp (focus_fill.mp hf)
  have hy := hfy.tree.1
  obtain ⟨tr₁, hrun, hf₁, -, hother⟩ := bstreeTransplant_child hfy
  have hfz : Focus tr₁.mem tr₁.root (.node z l v (plug (f :: k') t)) k :=
    focus_fill.mpr (focus_append.mpr hf₁)
  obtain ⟨hz₁, hl₁, hr₁⟩ := hfz.tree
  have hy₁ : tr₁.mem y = some ⟨none, t.ptr, some f.a, vy⟩ := by
    refine (hother y ?_ ?_).trans hy
    · intro heq
      refine hynot ?_
      have := (plug_addrs (f :: k') t).symm.mem_iff (a := y)
      simp [this.mp (List.mem_append.mpr (Or.inl (ptr_mem_addrs heq.symm)))]
    · intro heq
      refine hynot ?_
      have := (plug_addrs (f :: k') t).symm.mem_iff (a := y)
      have hfa : y ∈ ctxAddrs (f :: k') := parentOf_mem heq.symm
      simp [this.mp (List.mem_append.mpr (Or.inr hfa))]
  obtain ⟨d, hd, -⟩ := ptr_plug_cons f k' t t
  have hdmem : d ∈ (plug (f :: k') t).addrs := ptr_mem_addrs hd
  obtain ⟨cd, hcd⟩ := Reps.root_cell hr₁ hd
  have hdy : d ≠ y := fun heq => hynot (by rw [← heq]; simp [hdmem])
  obtain ⟨m₂, hadopt, hy₂, hd₂, hother₂⟩ := adopt_spec hy₁ hcd hdy .right
  refine ⟨⟨tr₁.root, m₂⟩, ?_,
    (?_ : Handover m₂ tr₁.root z y l (plug (f :: k') t) vy k)⟩
  · simp only [bstreeDetach, hrun, Option.bind_eq_bind, Option.bind_some, hz₁, hd, hadopt]
  have hkeep : ∀ a, a ∈ l.addrs ∨ a ∈ ctxAddrs k → m₂ a = tr₁.mem a := by
    intro a ha
    refine hother₂ a ?_ ?_
    · rintro rfl
      exact hynot (by rcases ha with ha | ha <;> simp [ha])
    · rintro rfl
      rcases ha with ha | ha
      · exact hdl a ha a (by simp [hdmem]) rfl
      · exact hdr a hdmem a ha rfl
  constructor
  · refine ⟨some d, v, ?_⟩
    rw [← hd, ← hz₁]
    refine hother₂ z ?_ ?_
    · rintro rfl
      exact hznot (List.mem_cons_self ..)
    · rintro rfl
      exact hznot (by simp [hdmem])
  · refine ⟨some f.a, ?_⟩
    rw [hy₂, hd]
    rfl
  · exact hl₁.frame fun a ha => hkeep a (Or.inl ha)
  · exact adopted_reps hr₁ hndr hd hcd hd₂ hother₂ (fun hm => hynot (by simp [hm]))
  · exact hfz.ctx.frame fun a ha => hkeep a (Or.inr ha)
  · exact hnd

theorem nodesBefore_left {k : List (Frame Int)} (h : ∀ f ∈ k, f.side = .left) :
    nodesBefore k = [] := by
  induction k with
  | nil => rfl
  | cons f k ih =>
      have hf := h f (List.mem_cons_self ..)
      simp only [nodesBefore, hf, List.append_nil]
      exact ih fun g hg => h g (List.mem_cons_of_mem _ hg)

/-- The leftmost node comes first. -/
theorem nodes_leftmost {k : List (Frame Int)} (h : ∀ f ∈ k, f.side = .left) (y : Nat) (vy : Int)
    (t : LTree Int) : (plug k (.node y .nil vy t)).nodes = (y, vy) :: (plug k t).nodes := by
  rw [nodes_plug, nodes_plug, nodesBefore_left h]
  rfl

/-- The order after the successor took the place of the deleted node. -/
theorem Ordered.successor {z y : Nat} {l t : LTree Int} {v vy : Int} {k : List (Frame Int)}
    (hleft : ∀ f ∈ k, f.side = .left) (h : Ordered (.node z l v (plug k (.node y .nil vy t)))) :
    Ordered (.node y l vy (plug k t)) := by
  obtain ⟨hlt, hge, hol, hor⟩ := h
  have hvals : (plug k (.node y .nil vy t)).vals = vy :: (plug k t).vals := by
    rw [vals_eq_map_nodes, nodes_leftmost hleft, vals_eq_map_nodes]
    rfl
  have hsorted := hor.sorted
  rw [hvals, List.pairwise_cons] at hsorted
  refine ⟨?_, hsorted.1, hol, ?_⟩
  · intro x hx
    exact lt_of_lt_of_le (hlt x hx) (hge vy (by simp [hvals]))
  · obtain ⟨hk, ⟨-, -, -, ht⟩, hadm⟩ := (ordered_plug ..).mp hor
    exact (ordered_plug ..).mpr ⟨hk, ht, fun x hx => hadm x (by simp [vals, hx])⟩

/-- **`bstree_delete` of a node of the tree** takes that node out and keeps all others
    in their order, in each of its four shapes. -/
theorem bstreeDelete_spec {tr : Tree} {z : Nat} {l r : LTree Int} {v : Int} {k : List (Frame Int)}
    (hf : Focus tr.mem tr.root (.node z l v r) k) :
    ∃ tr' t, (∀ fuel, r.height ≤ fuel → bstreeDelete fuel tr z = some tr')
      ∧ Focus tr'.mem tr'.root t k ∧ t.nodes = l.nodes ++ r.nodes
      ∧ (Ordered (.node z l v r) → Ordered t) := by
  obtain ⟨hz, hl, hr⟩ := hf.tree
  cases hlp : l.ptr with
  | none =>
      obtain rfl : l = .nil := by
        cases l with
        | nil => rfl
        | node => exact nomatch hlp
      obtain ⟨tr', hrun, hf', -, -⟩ :=
        bstreeTransplant_child (s := .left) (v := v) (t := r) hf
      refine ⟨tr', r, ?_, hf', rfl, fun h => h.2.2.2⟩
      intro fuel _
      simp only [bstreeDelete, hz, Option.bind_eq_bind, Option.bind_some]
      exact hrun
  | some bl =>
      cases hrp : r.ptr with
      | none =>
          obtain rfl : r = .nil := by
            cases r with
            | nil => rfl
            | node => exact nomatch hrp
          obtain ⟨tr', hrun, hf', -, -⟩ :=
            bstreeTransplant_child (s := .right) (v := v) (t := l) hf
          refine ⟨tr', l, ?_, hf', (List.append_nil _).symm, fun h => h.2.2.1⟩
          intro fuel _
          rw [hlp] at hrun
          simp only [bstreeDelete, hz, hlp, hrp, Option.bind_eq_bind, Option.bind_some]
          exact hrun
      | some br =>
          obtain ⟨k', y, vy, t, hplug, hleft, hmin⟩ := bstreeEnd_spec .left r (some z) br hr hrp
          have hplug' : r = plug k' (.node y .nil vy t) := hplug
          subst hplug'
          -- before the last statements, in both shapes
          obtain ⟨tr₂, cy, hy, hmid, hover⟩ : ∃ tr₂ cy, tr.mem y = some cy
              ∧ (if cy.p ≠ some z then bstreeDetach tr z y cy.right else some tr) = some tr₂
              ∧ Handover tr₂.mem tr₂.root z y l (plug k' t) vy k := by
            cases k' with
            | nil =>
                obtain ⟨hy, -, ht⟩ := hr
                exact ⟨tr, _, hy, if_neg (fun h => h rfl), ⟨_, _, hz⟩, ⟨_, hy⟩, hl, ht, hf.ctx,
                  handover_nodup hf.nodup⟩
            | cons f k' =>
                have hfr : Focus tr.mem tr.root (plug (f :: k') (.node y .nil vy t))
                    (⟨.right, z, v, l⟩ :: k) := focus_fill.mp hf
                have hy := (focus_append.mp hfr).tree.1
                obtain ⟨tr₂, hrun, hover⟩ := detach_spec hf
                have hne : ¬ some f.a = some z := by
                  intro heq
                  obtain rfl := Option.some.inj heq
                  refine (List.nodup_cons.mp hover.nodup).1 (List.mem_cons_of_mem _ ?_)
                  have := (plug_addrs (f :: k') t).symm.mem_iff (a := f.a)
                  simp [this.mp (List.mem_append.mpr (Or.inr (List.mem_cons_self ..)))]
                exact ⟨tr₂, _, hy, (if_pos hne).trans hrun, hover⟩
          obtain ⟨tr', hend, hf'⟩ := hover.finish hlp
          refine ⟨tr', _, ?_, hf', ?_, fun h => h.successor hleft⟩
          · intro fuel hfuel
            have hmin' : bstreeMin fuel tr.mem br = some y := hmin fuel hfuel
            simp only [bstreeDelete, hz, hlp, hrp, Option.bind_eq_bind, Option.bind_some, hmin', hy,
              hmid, hend]
          · rw [nodes_leftmost hleft]
            rfl

end Bst
