import CppTest.MachineProofs
import Mathlib.Data.List.Nodup
import Mathlib.Logic.Function.Basic

/-! # 2-3 search trees (`algs/algorithms4th/bs23tree.cpp`)

    A node has room for two keys and three children.  Insertion fills the first node with one key
    that it meets, but the root keeps to one key for ever, and nothing is split: a tree can be as
    deep as it likes.

    * `Within top P t`: the keys of the tree `t` satisfy `P` and lie where the search goes for
      them; `Reps` ties `t` to the cells of the memory.
    * `insert_below`: what `bs23tree_insert` does below a node is `add`.
    * `bs23treeInit_ordered`: after the insertions of `bs23tree_init` all keys are there, in
      order.
    * `bs23treeSearch_alone`: and yet the search finds a key only where it is the only one of
      its node. -/

namespace Bs23Tree

open Machine

/-! ## The model -/

inductive Way where
  | left
  | midle
  | right
  deriving Repr, DecidableEq

/-- `bs23tree_node`; `none` is a null link. -/
structure Node where
  left : Option Nat
  midle : Option Nat
  right : Option Nat
  p : Option Nat
  lkey : Int
  rkey : Int
  deriving Repr, DecidableEq

def Node.child (x : Node) : Way → Option Nat
  | .left => x.left
  | .midle => x.midle
  | .right => x.right

def Node.setChild (x : Node) (w : Way) (q : Option Nat) : Node :=
  match w with
  | .left => { x with left := q }
  | .midle => { x with midle := q }
  | .right => { x with right := q }

/-- `BS23TR_NODE(key)`. -/
def newNode (key : Int) : Node := ⟨none, none, none, none, key, -intMax⟩

/-- `BS23TR_IS_3NODE(x)`. -/
def Node.is3 (x : Node) : Prop := x.rkey ≠ -intMax

instance (x : Node) : Decidable x.is3 := inferInstanceAs (Decidable (_ ≠ _))

/-- The child that `key` belongs to.  The root is never taken for a 3-node. -/
def Node.way (x : Node) (key : Int) : Way :=
  if x.p ≠ none ∧ x.is3 ∧ x.lkey < key ∧ key < x.rkey then .midle
  else if key < x.lkey then .left
  else .right

abbrev Mem := Nat → Option Node

structure Tree where
  mem : Mem
  root : Option Nat

/-- One pass of the loop of `bs23tree_insert`: it ends in a node that took the key, or below the
    node `p`. -/
def insertPass (m : Mem) (node : Nat) (s : Option Nat × Option Nat) :
    Option (Pass (Option Nat × Option Nat) (Mem × Nat ⊕ Option Nat)) :=
  match s.1 with
  | none => some (.done (.inr s.2))
  | some a => do
      let x ← m a
      let key := (← m node).lkey
      if x.p = none ∨ x.is3 then some (.next (x.child (x.way key), some a))
      -- a 2-node: change it to a 3-node
      else if key < x.lkey then
        some (.done (.inl (Function.update m a (some { x with rkey := x.lkey, lkey := key }), a)))
      else some (.done (.inl (Function.update m a (some { x with rkey := key }), a)))

/-- `p->midle = node` or its like, and `node->p = p`. -/
def link (m : Mem) (p node : Nat) : Option Mem := do
  let x ← m p
  let key := (← m node).lkey
  let m := Function.update m p (some (x.setChild (x.way key) (some node)))
  let n ← m node
  some (Function.update m node (some { n with p := some p }))

/-- `bs23tree_insert`. -/
def bs23treeInsert (fuel : Nat) (tr : Tree) (node : Option Nat) : Option (Tree × Option Nat) :=
  match node with
  | none => some (tr, none)
  | some node => do
      match ← loop (insertPass tr.mem node) fuel (tr.root, none) with
      | .inl (m, a) => some (⟨m, tr.root⟩, some a)
      | .inr (some p) =>
          let m ← link tr.mem p node
          some (⟨m, tr.root⟩, some node)
      | .inr none =>
          let n ← tr.mem node
          some (⟨Function.update tr.mem node (some { n with p := none }), some node⟩, some node)

/-- One pass of the loop of `bs23tree_search`. -/
def searchPass (m : Mem) (key : Int) (x : Option Nat) :
    Option (Pass (Option Nat) (Option Nat)) :=
  match x with
  | none => some (.done none)
  | some a => do
      let x ← m a
      if x.lkey ≠ key ∨ (x.p ≠ none ∧ x.is3 ∧ x.rkey ≠ key) then
        some (.next (x.child (x.way key)))
      else some (.done (some a))

/-- `bs23tree_search`. -/
def bs23treeSearch (fuel : Nat) (tr : Tree) (key : Int) : Option (Option Nat) :=
  loop (searchPass tr.mem key) fuel tr.root

/-- The insertions of `bs23tree_init`, from `nodes[i]` on. -/
def initFrom (fuel nodes : Nat) : Tree → List Nat → Option (Tree × Int)
  | tr, [] => some (tr, 0)
  | tr, i :: is => do
      let (tr, x) ← bs23treeInsert fuel tr (some (nodes + i))
      match x with
      | none => some (tr, -1)
      | some _ => initFrom fuel nodes tr is

/-- `bs23tree_init`: what it prints at its end reads the root. -/
def bs23treeInit (fuel : Nat) (m : Mem) (nodes n : Nat) : Option (Tree × Int) := do
  let (tr, r) ← initFrom fuel nodes ⟨m, none⟩ (List.range n)
  if r ≠ 0 then some (tr, r)
  else
    let root ← tr.root
    let _ ← tr.mem root
    some (tr, 0)

/-! ## Trees -/

/-- A tree with the address of each node; a node without a right key is a 2-node. -/
inductive Tree23 where
  | nil : Tree23
  | node (a : Nat) (lkey : Int) (rkey : Option Int) (child : Way → Tree23) : Tree23

namespace Tree23

def ptr : Tree23 → Option Nat
  | nil => none
  | node a _ _ _ => some a

/-- The keys, from the left to the right. -/
def keys : Tree23 → List Int
  | nil => []
  | node _ lkey rkey child =>
      (child .left).keys ++ lkey :: ((child .midle).keys ++ (rkey.toList ++ (child .right).keys))

def height : Tree23 → Nat
  | nil => 0
  | node _ _ _ child =>
      max (child .left).height (max (child .midle).height (child .right).height) + 1

/-- `b` is the address of a node. -/
def At (b : Nat) : Tree23 → Prop
  | nil => False
  | node a _ _ child => b = a ∨ ∃ w, (child w).At b

/-- No address occurs twice. -/
def Apart : Tree23 → Prop
  | nil => True
  | node a _ _ child => (∀ w, ¬ (child w).At a) ∧
      (∀ w w' b, w ≠ w' → (child w).At b → ¬ (child w').At b) ∧ ∀ w, (child w).Apart

/-- The node at `a` has the key and no other. -/
def Alone (key : Int) (a : Nat) : Tree23 → Prop
  | nil => False
  | node b lkey rkey child =>
      (b = a ∧ rkey = none ∧ lkey = key) ∨ ∃ w, (child w).Alone key a

end Tree23

open Tree23

/-- The child that `key` belongs to. -/
def way (lkey : Int) (rkey : Option Int) (key : Int) : Way :=
  if ∃ r ∈ rkey, lkey < key ∧ key < r then .midle else if key < lkey then .left else .right

/-- The keys that belong to a child. -/
def Part (lkey : Int) (rkey : Option Int) : Way → Int → Prop
  | .left, x => x < lkey
  | .midle, x => ∃ r ∈ rkey, lkey < x ∧ x < r
  | .right, x => lkey < x ∧ ∀ r ∈ rkey, r < x

/-- All keys satisfy `P` and lie where they belong.  The root, on the `top`, never gets a second
    key, and no other node with one key has children. -/
def Within : Bool → (Int → Prop) → Tree23 → Prop
  | _, _, .nil => True
  | top, P, .node _ lkey rkey child => P lkey ∧ (∀ r ∈ rkey, P r ∧ lkey < r) ∧
      (top = true → rkey = none) ∧ (top = false → rkey = none → ∀ w, child w = .nil) ∧
      ∀ w, Within false (fun x => P x ∧ Part lkey rkey w x) (child w)

theorem mem_keys {x : Int} {a : Nat} {lkey : Int} {rkey : Option Int} {child : Way → Tree23} :
    x ∈ (node a lkey rkey child).keys ↔ x = lkey ∨ x ∈ rkey ∨ ∃ w, x ∈ (child w).keys := by
  have hway : (∃ w, x ∈ (child w).keys)
      ↔ x ∈ (child .left).keys ∨ x ∈ (child .midle).keys ∨ x ∈ (child .right).keys := by
    constructor
    · rintro ⟨_ | _ | _, h⟩
      · exact Or.inl h
      · exact Or.inr (Or.inl h)
      · exact Or.inr (Or.inr h)
    · rintro (h | h | h)
      · exact ⟨_, h⟩
      · exact ⟨_, h⟩
      · exact ⟨_, h⟩
  rw [hway]
  simp only [keys, List.mem_append, List.mem_cons, Option.mem_toList]
  tauto

theorem Within.mem {x : Int} : ∀ {t : Tree23} {top : Bool} {P : Int → Prop}, Within top P t →
    x ∈ t.keys → P x := by
  intro t
  induction t with
  | nil => exact fun _ hx => absurd hx List.not_mem_nil
  | node a lkey rkey child ih =>
      rintro top P ⟨hl, hr, -, -, hchild⟩ hx
      rcases mem_keys.mp hx with rfl | hx | ⟨w, hx⟩
      · exact hl
      · exact (hr x hx).1
      · exact (ih w (hchild w) hx).1

theorem Within.sorted : ∀ {t : Tree23} {top : Bool} {P : Int → Prop}, Within top P t →
    t.keys.Pairwise (· < ·) := by
  intro t
  induction t with
  | nil => exact fun _ => List.Pairwise.nil
  | node a lkey rkey child ih =>
      rintro top P ⟨-, hr, -, -, hchild⟩
      have hpart : ∀ w, ∀ x ∈ (child w).keys, Part lkey rkey w x :=
        fun w x hx => ((hchild w).mem hx).2
      have hleft : ∀ x ∈ (child .left).keys, x < lkey := hpart .left
      have hmidle : ∀ x ∈ (child .midle).keys, ∃ r ∈ rkey, lkey < x ∧ x < r := hpart .midle
      have hright : ∀ x ∈ (child .right).keys, lkey < x ∧ ∀ r ∈ rkey, r < x := hpart .right
      have hroom : (rkey.toList ++ (child .right).keys).Pairwise (· < ·) := by
        refine List.pairwise_append.mpr ⟨?_, ih _ (hchild _), ?_⟩
        · cases rkey with
          | none => exact List.Pairwise.nil
          | some r => exact List.pairwise_singleton ..
        · exact fun r hrk x hx => (hright x hx).2 r (Option.mem_toList.mp hrk)
      have hbelow : ∀ x ∈ (child .midle).keys, ∀ y ∈ rkey.toList ++ (child .right).keys, x < y := by
        intro x hx y hy
        obtain ⟨r, hrk, -, hxr⟩ := hmidle x hx
        rcases List.mem_append.mp hy with hy | hy
        · rw [Option.mem_toList] at hy
          obtain rfl := Option.mem_unique hrk hy
          exact hxr
        · exact lt_trans hxr ((hright y hy).2 r hrk)
      have habove : ∀ y ∈ (child .midle).keys ++ (rkey.toList ++ (child .right).keys),
          lkey < y := by
        intro y hy
        rcases List.mem_append.mp hy with hy | hy
        · obtain ⟨_, -, hy, -⟩ := hmidle y hy
          exact hy
        · rcases List.mem_append.mp hy with hy | hy
          · exact (hr y (Option.mem_toList.mp hy)).2
          · exact (hright y hy).1
      refine List.pairwise_append.mpr ⟨ih _ (hchild _), List.pairwise_cons.mpr ⟨habove,
        List.pairwise_append.mpr ⟨ih _ (hchild _), hroom, hbelow⟩⟩, ?_⟩
      intro x hx y hy
      rcases List.mem_cons.mp hy with rfl | hy
      · exact hleft x hx
      · exact lt_trans (hleft x hx) (habove y hy)

/-- A key that the node does not have belongs to the child that is looked into. -/
theorem part_way {lkey key : Int} {rkey : Option Int} (hl : key ≠ lkey) (hr : key ∉ rkey) :
    Part lkey rkey (way lkey rkey key) key := by
  rw [way]
  split
  case isTrue h => exact h
  case isFalse h =>
    split
    case isTrue hlt => exact hlt
    case isFalse hlt =>
      refine ⟨by omega, fun r hrk => ?_⟩
      have hne : r ≠ key := fun heq => hr (heq ▸ hrk)
      have hle : ¬ (lkey < key ∧ key < r) := fun hin => h ⟨r, hrk, hin⟩
      omega

theorem not_part_lkey {lkey : Int} {rkey : Option Int} : ∀ w, ¬ Part lkey rkey w lkey
  | .left => lt_irrefl lkey
  | .midle => fun ⟨_, _, h, _⟩ => lt_irrefl lkey h
  | .right => fun ⟨h, _⟩ => lt_irrefl lkey h

theorem not_part_rkey {lkey r : Int} (h : lkey < r) : ∀ w, ¬ Part lkey (some r) w r
  | .left => fun hlt : r < lkey => by omega
  | .midle => fun ⟨_, hr, _, hlt⟩ => by
      obtain rfl := Option.some.inj hr
      exact lt_irrefl r hlt
  | .right => fun ⟨_, hr⟩ => lt_irrefl r (hr r rfl)

theorem way_of_part {lkey key : Int} {rkey : Option Int} {w : Way} (h : Part lkey rkey w key) :
    way lkey rkey key = w := by
  cases w with
  | left =>
      have hlt : key < lkey := h
      rw [way, if_neg (fun ⟨_, _, hin, _⟩ => by omega), if_pos hlt]
  | midle => exact if_pos h
  | right =>
      obtain ⟨hlt, habove⟩ : lkey < key ∧ ∀ r ∈ rkey, r < key := h
      have hnot : ¬ ∃ r ∈ rkey, lkey < key ∧ key < r := by
        rintro ⟨r, hrk, -, hin⟩
        have := habove r hrk
        omega
      rw [way, if_neg hnot, if_neg (by omega)]

/-! ## Trees in memory -/

/-- The cell of a node. -/
def cell (child : Way → Tree23) (p : Option Nat) (lkey : Int) (rkey : Option Int) : Node :=
  ⟨(child .left).ptr, (child .midle).ptr, (child .right).ptr, p, lkey, rkey.getD (-intMax)⟩

/-- The memory holds the tree, and its root has the parent `p`. -/
def Reps (m : Mem) : Option Nat → Tree23 → Prop
  | _, .nil => True
  | p, .node a lkey rkey child =>
      m a = some (cell child p lkey rkey) ∧ ∀ w, Reps m (some a) (child w)

theorem Reps.frame {m m' : Mem} : ∀ {t : Tree23} {p : Option Nat}, Reps m p t →
    (∀ b, t.At b → m' b = m b) → Reps m' p t := by
  intro t
  induction t with
  | nil => exact fun _ _ => trivial
  | node a lkey rkey child ih =>
      rintro p ⟨hcell, hchild⟩ hsame
      refine ⟨(hsame a (Or.inl rfl)).trans hcell, ?_⟩
      exact fun w => ih w (hchild w) fun b hb => hsame b (Or.inr ⟨w, hb⟩)

section Cell
variable (child : Way → Tree23) (p : Option Nat) (lkey : Int) (rkey : Option Int)

@[simp] theorem cell_child (w : Way) : (cell child p lkey rkey).child w = (child w).ptr := by
  cases w <;> rfl

theorem cell_setChild (w : Way) (t : Tree23) :
    (cell child p lkey rkey).setChild w t.ptr = cell (Function.update child w t) p lkey rkey := by
  cases w <;> rfl

theorem cell_congr {child child' : Way → Tree23} (h : ∀ w, (child' w).ptr = (child w).ptr) :
    cell child' p lkey rkey = cell child p lkey rkey := by
  rw [cell, cell, h, h, h]

theorem cell_is3 (hr : ∀ r ∈ rkey, r ≠ -intMax) :
    (cell child p lkey rkey).is3 ↔ rkey ≠ none := by
  cases rkey with
  | none => exact iff_of_false (fun h => h rfl) (fun h => h rfl)
  | some r => exact iff_of_true (hr r rfl) (Option.some_ne_none r)

/-- The code looks for a right key only below the root; there is none at the root. -/
theorem cell_way (hr : ∀ r ∈ rkey, r ≠ -intMax) (htop : p = none → rkey = none) (key : Int) :
    (cell child p lkey rkey).way key = way lkey rkey key := by
  have hmidle : ((cell child p lkey rkey).p ≠ none ∧ (cell child p lkey rkey).is3 ∧ lkey < key
      ∧ key < (cell child p lkey rkey).rkey) ↔ ∃ r ∈ rkey, lkey < key ∧ key < r := by
    rw [cell_is3 child p lkey rkey hr]
    cases rkey with
    | none => exact iff_of_false (fun h => h.2.1 rfl) (fun ⟨_, h, _⟩ => nomatch h)
    | some r =>
        constructor
        · exact fun h => ⟨r, rfl, h.2.2⟩
        · rintro ⟨r', hr', h⟩
          obtain rfl := Option.some.inj hr'
          exact ⟨fun hp => absurd (htop hp) (Option.some_ne_none _), Option.some_ne_none _, h⟩
  rw [Node.way, way]
  exact if_congr hmidle rfl rfl

end Cell

/-! ## Insertion -/

/-- A new node. -/
def leaf (a : Nat) (key : Int) : Tree23 := .node a key none fun _ => .nil

/-- What insertion makes of a tree: the root does not take a second key. -/
def add (a : Nat) (key : Int) : Bool → Tree23 → Tree23
  | _, .nil => leaf a key
  | top, .node b lkey rkey child =>
      if top = true ∨ rkey ≠ none then
        .node b lkey rkey fun w =>
          if w = way lkey rkey key then add a key false (child w) else child w
      else if key < lkey then .node b key (some lkey) child
      else .node b lkey (some key) child

theorem height_le {a h : Nat} {lkey : Int} {rkey : Option Int} {child : Way → Tree23} :
    (node a lkey rkey child).height ≤ h + 1 ↔ ∀ w, (child w).height ≤ h := by
  rw [height, Nat.add_le_add_iff_right, Nat.max_le, Nat.max_le]
  constructor
  · rintro ⟨hl, hm, hr⟩ (_ | _ | _)
    · exact hl
    · exact hm
    · exact hr
  · exact fun hw => ⟨hw _, hw _, hw _⟩

theorem height_child {a : Nat} {lkey : Int} {rkey : Option Int} {child : Way → Tree23} (w : Way) :
    (child w).height + 1 ≤ (node a lkey rkey child).height :=
  Nat.succ_le_succ (height_le.mp (le_refl (node a lkey rkey child).height) w)

theorem height_add (a : Nat) (key : Int) : ∀ (t : Tree23) (top : Bool),
    (add a key top t).height ≤ t.height + 1 := by
  intro t
  induction t with
  | nil => exact fun _ => le_refl _
  | node b lkey rkey child ih =>
      intro top
      rw [add]
      split
      · refine height_le.mpr fun w => ?_
        split
        · exact le_trans (ih w false) (height_child w)
        · exact le_trans (Nat.le_succ _) (height_child w)
      · split
        · exact Nat.le_succ _
        · exact Nat.le_succ _

theorem ptr_add {a : Nat} {key : Int} {top : Bool} {t : Tree23} (h : t ≠ .nil) :
    (add a key top t).ptr = t.ptr := by
  cases t with
  | nil => exact absurd rfl h
  | node b lkey rkey child =>
      rw [add]
      split
      · rfl
      · split <;> rfl

theorem at_add {a b : Nat} {key : Int} : ∀ {t : Tree23} {top : Bool}, (add a key top t).At b →
    b = a ∨ t.At b := by
  intro t
  induction t with
  | nil =>
      rintro top (h | ⟨_, h⟩)
      · exact Or.inl h
      · exact h.elim
  | node c lkey rkey child ih =>
      intro top h
      rw [add] at h
      split at h
      · rcases h with h | ⟨w, h⟩
        · exact Or.inr (Or.inl h)
        · dsimp only at h
          split at h
          · exact (ih w h).imp_right fun h => Or.inr ⟨w, h⟩
          · exact Or.inr (Or.inr ⟨w, h⟩)
      · split at h
        · exact Or.inr h
        · exact Or.inr h

theorem mem_add {a : Nat} {key x : Int} : ∀ {t : Tree23} {top : Bool} {P : Int → Prop},
    Within top P t → (x ∈ (add a key top t).keys ↔ x = key ∨ x ∈ t.keys) := by
  intro t
  induction t with
  | nil => exact fun _ => by simp [add, leaf, keys]
  | node b lkey rkey child ih =>
      rintro top P ⟨-, -, -, -, hchild⟩
      rw [add]
      split
      · rw [mem_keys, mem_keys]
        have hsome : (∃ w, x ∈ (if w = way lkey rkey key then add a key false (child w)
            else child w).keys) ↔ x = key ∨ ∃ w, x ∈ (child w).keys := by
          constructor
          · rintro ⟨w, hx⟩
            split at hx
            · exact ((ih w (hchild w)).mp hx).imp_right fun h => ⟨w, h⟩
            · exact Or.inr ⟨w, hx⟩
          · rintro (rfl | ⟨w, hx⟩)
            · refine ⟨way lkey rkey x, ?_⟩
              rw [if_pos rfl]
              exact (ih _ (hchild _)).mpr (Or.inl rfl)
            · refine ⟨w, ?_⟩
              split
              · exact (ih w (hchild w)).mpr (Or.inr hx)
              · exact hx
        rw [hsome]
        tauto
      case isFalse hfull =>
        obtain rfl : rkey = none := by
          by_contra hne
          exact hfull (Or.inr hne)
        split
        · rw [mem_keys, mem_keys]
          simp only [Option.mem_def, Option.some.injEq, reduceCtorEq, false_or, eq_comm]
        · rw [mem_keys, mem_keys]
          simp only [Option.mem_def, Option.some.injEq, reduceCtorEq, false_or, eq_comm]
          tauto

theorem within_leaf {top : Bool} {P : Int → Prop} {a : Nat} {key : Int} (hP : P key) :
    Within top P (leaf a key) :=
  ⟨hP, (fun _ h => nomatch h), fun _ => rfl, fun _ _ _ => rfl, fun _ => trivial⟩

/-- **A new key keeps the order.** -/
theorem Within.add {a : Nat} {key : Int} : ∀ {t : Tree23} {top : Bool} {P : Int → Prop},
    Within top P t → P key → key ∉ t.keys → Within top P (add a key top t) := by
  intro t
  induction t with
  | nil => exact fun _ hP _ => within_leaf hP
  | node b lkey rkey child ih =>
      rintro top P ⟨hl, hr, htop, hleaf, hchild⟩ hP hnew
      rw [mem_keys] at hnew
      push Not at hnew
      obtain ⟨hnl, hnr, hnchild⟩ := hnew
      rw [Bs23Tree.add]
      split
      case isTrue hfull =>
        refine ⟨hl, hr, htop, ?_, fun w => ?_⟩
        · rintro rfl rfl
          exact hfull.elim (fun h => nomatch h) (fun h => absurd rfl h)
        · dsimp only
          split
          case isTrue hw =>
            exact ih w (hchild w) ⟨hP, hw ▸ part_way hnl hnr⟩ (hnchild w)
          case isFalse => exact hchild w
      case isFalse hroom =>
        push Not at hroom
        obtain ⟨hbelow, rfl⟩ := hroom
        have hnil : ∀ w, child w = .nil := hleaf (Bool.eq_false_iff.mpr hbelow) rfl
        split
        case isTrue hlt =>
          refine ⟨hP, ?_, fun h => absurd h hbelow, (fun _ h => nomatch h), fun w => ?_⟩
          · rintro r hrk
            obtain rfl := Option.some.inj hrk
            exact ⟨hl, hlt⟩
          · rw [hnil w]
            trivial
        case isFalse hlt =>
          refine ⟨hl, ?_, fun h => absurd h hbelow, (fun _ h => nomatch h), fun w => ?_⟩
          · rintro r hrk
            obtain rfl := Option.some.inj hrk
            exact ⟨hP, by omega⟩
          · rw [hnil w]
            trivial

theorem Tree23.Apart.add {a : Nat} {key : Int} : ∀ {t : Tree23} {top : Bool}, t.Apart → ¬ t.At a →
    (add a key top t).Apart := by
  intro t
  induction t with
  | nil => exact fun _ _ => ⟨fun _ => id, fun _ _ _ _ h => h.elim, fun _ => trivial⟩
  | node b lkey rkey child ih =>
      rintro top ⟨hroot, hsib, hchild⟩ ha
      have hout : ∀ w, ¬ (child w).At a := fun w h => ha (Or.inr ⟨w, h⟩)
      have hne : a ≠ b := fun h => ha (Or.inl h)
      rw [Bs23Tree.add]
      split
      · refine ⟨fun w h => ?_, fun w w' c hww hc hc' => ?_, fun w => ?_⟩
        · dsimp only at h
          split at h
          · rcases at_add h with h | h
            · exact hne h.symm
            · exact hroot w h
          · exact hroot w h
        · dsimp only at hc hc'
          -- at most one of the two children got the new node
          have hold : ∀ w, (child w).At c → c ≠ a := fun w h heq => hout w (heq ▸ h)
          split at hc
          · rw [if_neg (fun h => hww (by rw [h]; assumption))] at hc'
            rcases at_add hc with rfl | hc
            · exact hout w' hc'
            · exact hsib w w' c hww hc hc'
          · split at hc'
            · rcases at_add hc' with rfl | hc'
              · exact hout w hc
              · exact hsib w w' c hww hc hc'
            · exact hsib w w' c hww hc hc'
        · dsimp only
          split
          · exact ih w (hchild w) (hout w)
          · exact hchild w
      · split
        · exact ⟨hroot, hsib, hchild⟩
        · exact ⟨hroot, hsib, hchild⟩

/-- What `bs23tree_insert` does when its loop has ended below a node. -/
def landed (m : Mem) (node : Nat) : Mem × Nat ⊕ Option Nat → Option (Mem × Nat)
  | .inl r => some r
  | .inr none => none
  | .inr (some p) => (link m p node).map (·, node)

/-- The new node is hung below a node without a child there. -/
theorem link_spec {m : Mem} {node b : Nat} {key lkey : Int} {rkey : Option Int}
    {child : Way → Tree23} {p : Option Nat} (hnode : m node = some (newNode key))
    (hcell : m b = some (cell child p lkey rkey)) (hne : node ≠ b)
    (hr : ∀ r ∈ rkey, r ≠ -intMax) (htop : p = none → rkey = none) :
    ∃ m', link m b node = some m'
      ∧ m' b = some (cell (Function.update child (way lkey rkey key) (leaf node key)) p lkey rkey)
      ∧ m' node = some (cell (fun _ => .nil) (some b) key none)
      ∧ ∀ c, c ≠ node → c ≠ b → m' c = m c := by
  have hset : (cell child p lkey rkey).setChild (way lkey rkey key) (some node)
      = cell (Function.update child (way lkey rkey key) (leaf node key)) p lkey rkey :=
    cell_setChild child p lkey rkey _ (leaf node key)
  have hlink : link m b node = some (Function.update (Function.update m b
      (some (cell (Function.update child (way lkey rkey key) (leaf node key)) p lkey rkey))) node
      (some (cell (fun _ => .nil) (some b) key none))) := by
    have hkey : (newNode key).lkey = key := rfl
    simp only [link, hnode, hcell, Option.bind_eq_bind, Option.bind_some, hkey,
      cell_way child p lkey rkey hr htop, hset, Function.update_of_ne hne]
    rfl
  refine ⟨_, hlink, ?_, Function.update_self .., fun c hcn hcb => ?_⟩
  · rw [Function.update_of_ne hne.symm, Function.update_self]
  · rw [Function.update_of_ne hcn, Function.update_of_ne hcb]

/-- The loop goes round in the root and in a 3-node. -/
theorem insertPass_next {m : Mem} {node b : Nat} {key lkey : Int} {rkey : Option Int}
    {child : Way → Tree23} {p : Option Nat} (hnode : m node = some (newNode key))
    (hcell : m b = some (cell child p lkey rkey)) (hr : ∀ r ∈ rkey, r ≠ -intMax)
    (htop : p = none → rkey = none) (hfull : p = none ∨ rkey ≠ none) (q : Option Nat) :
    insertPass m node (some b, q) = some (.next ((child (way lkey rkey key)).ptr, some b)) := by
  have hpass : (cell child p lkey rkey).p = none ∨ (cell child p lkey rkey).is3 :=
    hfull.imp_right (cell_is3 child p lkey rkey hr).mpr
  simp only [insertPass, hcell, hnode, Option.bind_eq_bind, Option.bind_some, if_pos hpass]
  have hkey : (newNode key).lkey = key := rfl
  rw [hkey, cell_way child p lkey rkey hr htop, cell_child]

theorem add_full {a : Nat} {key : Int} {top : Bool} {b : Nat} {lkey : Int} {rkey : Option Int}
    {child : Way → Tree23} (hfull : top = true ∨ rkey ≠ none) :
    add a key top (.node b lkey rkey child) = .node b lkey rkey (Function.update child
      (way lkey rkey key) (add a key false (child (way lkey rkey key)))) := by
  rw [add, if_pos hfull]
  congr 1
  funext w
  rw [Function.update_apply]
  split
  case isTrue hw => rw [hw]
  case isFalse => rfl

/-- A 2-node below the root becomes a 3-node. -/
theorem insertPass_room {m : Mem} {node b : Nat} {key lkey : Int} {child : Way → Tree23}
    {p : Option Nat} (hnode : m node = some (newNode key))
    (hcell : m b = some (cell child p lkey none)) (hbelow : ¬ p.isNone = true) (q : Option Nat) :
    ∃ l r, add node key p.isNone (.node b lkey none child) = .node b l (some r) child
      ∧ insertPass m node (some b, q) = some (.done (.inl
        (Function.update m b (some (cell child p l (some r))), b))) := by
  have hstop : ¬ ((cell child p lkey none).p = none ∨ (cell child p lkey none).is3) := by
    rintro (h | h)
    · exact hbelow (Option.isNone_iff_eq_none.mpr h)
    · exact h rfl
  have hfull : ¬ (p.isNone = true ∨ (none : Option Int) ≠ none) := by
    rintro (h | h)
    · exact hbelow h
    · exact h rfl
  have hkey : (newNode key).lkey = key := rfl
  have hlkey : (cell child p lkey none).lkey = lkey := rfl
  rw [add, if_neg hfull]
  simp only [insertPass, hcell, hnode, Option.bind_eq_bind, Option.bind_some, if_neg hstop, hkey,
    hlkey]
  by_cases hlt : key < lkey
  · rw [if_pos hlt, if_pos hlt]
    exact ⟨key, lkey, rfl, rfl⟩
  · rw [if_neg hlt, if_neg hlt]
    exact ⟨lkey, key, rfl, rfl⟩

/-- The other children are left alone. -/
theorem reps_update {m m' : Mem} {b : Nat} {w : Way} {child : Way → Tree23} {u : Tree23}
    (hchild : ∀ w, Reps m (some b) (child w)) (hu : Reps m' (some b) u)
    (hsame : ∀ w', w' ≠ w → ∀ c, (child w').At c → m' c = m c) (w' : Way) :
    Reps m' (some b) (Function.update child w u w') := by
  by_cases hw : w' = w
  · subst hw
    rwa [Function.update_self]
  · rw [Function.update_of_ne hw]
    exact (hchild w').frame (hsame w' hw)

/-- **`bs23tree_insert` below the root.** -/
theorem insert_below {m : Mem} {node : Nat} {key : Int} (hnode : m node = some (newNode key)) :
    ∀ {t : Tree23} {p q : Option Nat} {P : Int → Prop}, Within p.isNone P t →
      (∀ x, P x → x ≠ -intMax) → Reps m p t → t.Apart → ¬ t.At node → t ≠ .nil →
    ∃ r m' a, (∀ fuel, t.height < fuel → loop (insertPass m node) fuel (t.ptr, q) = some r)
      ∧ landed m node r = some (m', a) ∧ Reps m' p (add node key p.isNone t)
      ∧ ∀ c, c ≠ node → ¬ t.At c → m' c = m c := by
  intro t
  induction t with
  | nil => exact fun _ _ _ _ _ h => absurd rfl h
  | node b lkey rkey child ih =>
      rintro p q P ⟨-, hr, htop, hleaf, hin⟩ hP ⟨hcell, hchild⟩ ⟨hroot, hsib, hapart⟩ hnot -
      have hne : node ≠ b := fun h => hnot (Or.inl h)
      have hout : ∀ w, ¬ (child w).At node := fun w h => hnot (Or.inr ⟨w, h⟩)
      have hr' : ∀ r ∈ rkey, r ≠ -intMax := fun r h => hP r (hr r h).1
      have htop' : p = none → rkey = none := fun h => htop (Option.isNone_iff_eq_none.mpr h)
      by_cases hfull : p.isNone = true ∨ rkey ≠ none
      · -- the loop goes on with a child
        have hfull' := hfull.imp_left Option.isNone_iff_eq_none.mp
        have hnext := insertPass_next hnode hcell hr' htop' hfull' q
        rw [add_full hfull]
        generalize hw : way lkey rkey key = w at hnext ⊢
        by_cases hc : child w = .nil
        · obtain ⟨m', hlink, hb, hnew, hsame⟩ := link_spec hnode hcell hne hr' htop'
          rw [hw] at hb
          refine ⟨.inr (some b), m', node, fun fuel hfuel => ?_, ?_, ⟨?_, ?_⟩, ?_⟩
          · rw [ptr, loop_next (by omega) hnext, hc]
            have hpos : 0 < (Tree23.node b lkey rkey child).height := Nat.succ_pos _
            exact loop_done (by omega) rfl
          · rw [landed, hlink]
            rfl
          · rw [hc]
            exact hb
          · rw [hc]
            refine reps_update hchild ⟨hnew, fun _ => trivial⟩ fun w' _ c hc => ?_
            exact hsame c (fun h => hout w' (h ▸ hc)) (fun h => hroot w' (h ▸ hc))
          · intro c hcn hct
            exact hsame c hcn fun h => hct (Or.inl h)
        · obtain ⟨r, m', a, hloop, hland, hreps, hsame⟩ := @ih w (some b) (some b) _ (hin w)
            (fun x hx => hP x hx.1) (hchild w) (hapart w) (hout w) hc
          refine ⟨r, m', a, fun fuel hfuel => ?_, hland, ⟨?_, ?_⟩, ?_⟩
          · have hheight := @height_child b lkey rkey child w
            rw [ptr, loop_next (by omega) hnext]
            exact hloop _ (by omega)
          · rw [hsame b hne.symm (hroot w), hcell, cell_congr]
            intro w'
            by_cases hww : w' = w
            · subst hww
              rw [Function.update_self, ptr_add hc]
            · rw [Function.update_of_ne hww]
          · refine reps_update hchild hreps fun w' hww c hc => ?_
            exact hsame c (fun h => hout w' (h ▸ hc)) (hsib w' w c hww hc)
          · intro c hcn hct
            exact hsame c hcn fun h => hct (Or.inr ⟨w, h⟩)
      · -- a 2-node below the root takes the key
        push Not at hfull
        obtain ⟨hbelow, rfl⟩ := hfull
        obtain ⟨l, r, hadd, hpass⟩ := insertPass_room hnode hcell hbelow q
        rw [hadd]
        refine ⟨_, _, b, fun fuel hfuel => loop_done (by omega) hpass, rfl,
          ⟨Function.update_self .., fun w => (hchild w).frame fun c hc => ?_⟩, fun c _ hct => ?_⟩
        · exact Function.update_of_ne (fun h : c = b => hroot w (h ▸ hc)) ..
        · exact Function.update_of_ne (fun h => hct (Or.inl h)) ..

/-- The tree that is in memory, and its order; `-INT_MAX` marks a missing right key and is none
    itself. -/
structure Kept (tr : Tree) (t : Tree23) : Prop where
  root : t.ptr = tr.root
  reps : Reps tr.mem none t
  apart : t.Apart
  within : Within true (· ≠ -intMax) t

theorem bs23treeInsert_spec {tr : Tree} {t : Tree23} (h : Kept tr t) {node : Nat} {key : Int}
    (hnode : tr.mem node = some (newNode key)) (hnot : ¬ t.At node) (hkey : key ≠ -intMax)
    (hnew : key ∉ t.keys) :
    ∃ tr' a, (∀ fuel, t.height < fuel → bs23treeInsert fuel tr (some node) = some (tr', some a))
      ∧ Kept tr' (add node key true t) ∧ ∀ c, c ≠ node → ¬ t.At c → tr'.mem c = tr.mem c := by
  have hwithin := h.within.add (a := node) hkey hnew
  have hapart : (add node key true t).Apart := h.apart.add hnot
  by_cases ht : t = .nil
  · subst ht
    have hroot : tr.root = none := h.root.symm
    refine ⟨⟨Function.update tr.mem node (some (newNode key)), some node⟩, node,
      fun fuel hfuel => ?_, ⟨rfl, ⟨Function.update_self .., fun _ => trivial⟩, hapart, hwithin⟩,
      fun c hcn _ => ?_⟩
    · have hloop : loop (insertPass tr.mem node) fuel (none, none) = some (.inr none) :=
        loop_done (by omega) rfl
      simp only [bs23treeInsert, hroot, hloop, hnode, Option.bind_eq_bind, Option.bind_some]
      rfl
    · exact Function.update_of_ne hcn ..
  · obtain ⟨r, m', a, hloop, hland, hreps, hsame⟩ :=
      @insert_below _ _ _ hnode t none none _ h.within (fun _ hx => hx) h.reps h.apart hnot ht
    refine ⟨⟨m', tr.root⟩, a, fun fuel hfuel => ?_,
      ⟨(ptr_add ht).trans h.root, hreps, hapart, hwithin⟩, hsame⟩
    have hrun := hloop fuel hfuel
    rw [h.root] at hrun
    rw [bs23treeInsert, hrun]
    match r, hland with
    | .inl r, hland =>
        obtain rfl := Option.some.inj hland
        rfl
    | .inr (some p), hland =>
        obtain ⟨_, hlink, hpair⟩ := Option.map_eq_some_iff.mp hland
        obtain ⟨rfl, rfl⟩ := Prod.mk.inj hpair
        simp only [Option.bind_eq_bind, Option.bind_some, hlink]

/-! ## A run of insertions -/

theorem initFrom_spec {nodes : Nat} {k : Nat → Int} : ∀ {is : List Nat} {tr : Tree} {t : Tree23},
    Kept tr t → is.Nodup →
      (∀ i ∈ is, tr.mem (nodes + i) = some (newNode (k i)) ∧ ¬ t.At (nodes + i)) →
      (∀ i ∈ is, k i ≠ -intMax ∧ k i ∉ t.keys) → (is.map k).Nodup →
    ∃ tr' t', (∀ fuel, t.height + is.length < fuel → initFrom fuel nodes tr is = some (tr', 0))
      ∧ Kept tr' t' ∧ t'.height ≤ t.height + is.length
      ∧ ∀ x, x ∈ t'.keys ↔ x ∈ t.keys ∨ x ∈ is.map k := by
  intro is
  induction is with
  | nil =>
      intro tr t h _ _ _ _
      exact ⟨tr, t, fun _ _ => rfl, h, le_refl _, fun x => by simp⟩
  | cons i is ih =>
      intro tr t h hdist hnodes hkeys hnodup
      obtain ⟨hi, hdist⟩ := List.nodup_cons.mp hdist
      obtain ⟨hki, hnodup⟩ := List.nodup_cons.mp hnodup
      obtain ⟨hnode, hnot⟩ := hnodes i List.mem_cons_self
      obtain ⟨hkey, hnew⟩ := hkeys i List.mem_cons_self
      obtain ⟨tr₁, a, hins, h₁, hsame⟩ := bs23treeInsert_spec h hnode hnot hkey hnew
      have hmem := fun x => @mem_add (nodes + i) (k i) x t true _ h.within
      have hnodes₁ : ∀ j ∈ is, tr₁.mem (nodes + j) = some (newNode (k j))
          ∧ ¬ (add (nodes + i) (k i) true t).At (nodes + j) := by
        intro j hj
        obtain ⟨hj₁, hj₂⟩ := hnodes j (List.mem_cons_of_mem _ hj)
        have hne : nodes + j ≠ nodes + i := fun heq => hi ((Nat.add_left_cancel heq) ▸ hj)
        exact ⟨(hsame _ hne hj₂).trans hj₁, fun hat => (at_add hat).elim hne hj₂⟩
      have hkeys₁ : ∀ j ∈ is, k j ≠ -intMax ∧ k j ∉ (add (nodes + i) (k i) true t).keys := by
        intro j hj
        obtain ⟨hj₁, hj₂⟩ := hkeys j (List.mem_cons_of_mem _ hj)
        refine ⟨hj₁, fun hat => ?_⟩
        rcases (hmem _).mp hat with heq | hat
        · exact hki (heq ▸ List.mem_map_of_mem hj)
        · exact hj₂ hat
      obtain ⟨tr', t', hrun, h', hheight', hmem'⟩ := ih h₁ hdist hnodes₁ hkeys₁ hnodup
      have hheight := height_add (nodes + i) (k i) t true
      refine ⟨tr', t', fun fuel hfuel => ?_, h', ?_, fun x => ?_⟩
      · rw [List.length_cons] at hfuel
        simp only [initFrom, hins fuel (by omega), Option.bind_eq_bind, Option.bind_some]
        exact hrun fuel (by omega)
      · rw [List.length_cons]
        omega
      · rw [hmem' x, hmem x, List.map_cons, List.mem_cons]
        tauto

/-- The array of `bs23tree_init`: new nodes with different keys, none of them `-INT_MAX`. -/
structure Fresh (m : Mem) (nodes n : Nat) (k : Nat → Int) : Prop where
  node : ∀ i < n, m (nodes + i) = some (newNode (k i))
  key : ∀ i < n, k i ≠ -intMax
  inj : ∀ i < n, ∀ j < n, k i = k j → i = j

theorem bs23treeInit_spec {m : Mem} {nodes n : Nat} {k : Nat → Int} (hn : 0 < n)
    (h : Fresh m nodes n k) :
    ∃ tr t, (∀ fuel, n < fuel → bs23treeInit fuel m nodes n = some (tr, 0)) ∧ Kept tr t
      ∧ t.height ≤ n ∧ t.keys.Perm ((List.range n).map k) := by
  have hnodup : ((List.range n).map k).Nodup := by
    refine List.Nodup.map_on ?_ List.nodup_range
    exact fun i hi j hj => h.inj i (List.mem_range.mp hi) j (List.mem_range.mp hj)
  obtain ⟨tr, t, hrun, hkept, hheight, hmem⟩ := @initFrom_spec nodes k (List.range n) ⟨m, none⟩ .nil
    ⟨rfl, trivial, trivial, trivial⟩ List.nodup_range
    (fun i hi => ⟨h.node i (List.mem_range.mp hi), id⟩)
    (fun i hi => ⟨h.key i (List.mem_range.mp hi), List.not_mem_nil⟩) hnodup
  rw [List.length_range, height, Nat.zero_add] at hheight
  have hmem' : ∀ x, x ∈ t.keys ↔ x ∈ (List.range n).map k := by
    intro x
    rw [hmem x, keys]
    exact or_iff_right List.not_mem_nil
  have hsorted : t.keys.Nodup := hkept.within.sorted.imp fun hlt => ne_of_lt hlt
  refine ⟨tr, t, fun fuel hfuel => ?_, hkept, hheight,
    (List.perm_ext_iff_of_nodup hsorted hnodup).mpr hmem'⟩
  have hinit := hrun fuel (by rw [List.length_range, height]; omega)
  -- the root is there, as a key is
  have hk : k 0 ∈ t.keys := (hmem' _).mpr (List.mem_map_of_mem (List.mem_range.mpr hn))
  have hroot := hkept.root
  have hreps := hkept.reps
  match t, hk, hroot, hreps with
  | .node a lkey rkey child, _, hroot, hreps =>
      simp only [bs23treeInit, hinit, Option.bind_eq_bind, Option.bind_some, ← hroot, ptr, hreps.1]
      rfl

/-- **Insertion.**  Whatever the order of the nodes, `bs23tree_init` leaves a tree in memory that
    has all keys, and they are in order. -/
theorem bs23treeInit_ordered (m : Mem) (nodes n : Nat) (k : Nat → Int) (hn : 0 < n)
    (h : Fresh m nodes n k) :
    ∃ tr t, (∀ fuel, n < fuel → bs23treeInit fuel m nodes n = some (tr, 0)) ∧ Kept tr t
      ∧ t.keys.Pairwise (· < ·) ∧ t.keys.Perm ((List.range n).map k) := by
  obtain ⟨tr, t, hrun, hkept, -, hperm⟩ := bs23treeInit_spec hn h
  exact ⟨tr, t, hrun, hkept, hkept.within.sorted, hperm⟩

/-- The first nodes of `test_bs23tree_main`. -/
def someKeys (i : Nat) : Int := [77, 69, 74, 65].getD i 0

def someNodes (i : Nat) : Option Node := if i < 4 then some (newNode (someKeys i)) else none

theorem bs23treeInit_ordered_four :
    ∃ tr t, (∀ fuel, 4 < fuel → bs23treeInit fuel someNodes 0 4 = some (tr, 0)) ∧ Kept tr t
      ∧ t.keys.Pairwise (· < ·) ∧ t.keys.Perm ((List.range 4).map someKeys) :=
  bs23treeInit_ordered someNodes 0 4 someKeys (by decide) ⟨by decide, by decide, by decide⟩

/-! ## The search -/

/-- What `bs23tree_search` finds. -/
def find (key : Int) : Tree23 → Option Nat
  | .nil => none
  | .node a lkey rkey child =>
      if lkey = key ∧ rkey = none then some a else find key (child (way lkey rkey key))

theorem bs23treeSearch_loop {m : Mem} (key : Int) :
    ∀ {t : Tree23} {p : Option Nat} {P : Int → Prop}, Within p.isNone P t →
      (∀ x, P x → x ≠ -intMax) → Reps m p t →
    ∀ fuel, t.height < fuel → loop (searchPass m key) fuel t.ptr = some (find key t) := by
  intro t
  induction t with
  | nil => exact fun _ _ _ fuel hfuel => loop_done (by omega) rfl
  | node a lkey rkey child ih =>
      rintro p P ⟨-, hr, htop, -, hin⟩ hP ⟨hcell, hchild⟩ fuel hfuel
      have hr' : ∀ r ∈ rkey, r ≠ -intMax := fun r h => hP r (hr r h).1
      have htop' : p = none → rkey = none := fun h => htop (Option.isNone_iff_eq_none.mpr h)
      -- a node with two keys is passed by whatever the key
      have hgo : ((cell child p lkey rkey).lkey ≠ key ∨ ((cell child p lkey rkey).p ≠ none
          ∧ (cell child p lkey rkey).is3 ∧ (cell child p lkey rkey).rkey ≠ key))
          ↔ ¬ (lkey = key ∧ rkey = none) := by
        rw [cell_is3 child p lkey rkey hr']
        cases rkey with
        | none => simp [cell]
        | some r =>
            have hlt : lkey < r := (hr r rfl).2
            have hp : p ≠ none := fun h => absurd (htop' h) (Option.some_ne_none r)
            simp only [cell, Option.getD_some, reduceCtorEq, and_false, not_false_eq_true, iff_true]
            by_cases hl : lkey = key
            · exact Or.inr ⟨hp, Option.some_ne_none r, by omega⟩
            · exact Or.inl hl
      have hpass : searchPass m key (some a) = if ¬ (lkey = key ∧ rkey = none)
          then some (.next (child (way lkey rkey key)).ptr) else some (.done (some a)) := by
        simp only [searchPass, hcell, Option.bind_eq_bind, Option.bind_some,
          cell_way child p lkey rkey hr' htop', cell_child]
        exact if_congr hgo rfl rfl
      rw [find, ptr]
      by_cases hfound : lkey = key ∧ rkey = none
      · rw [if_neg (not_not.mpr hfound)] at hpass
        rw [if_pos hfound]
        exact loop_done (by omega) hpass
      · rw [if_pos hfound] at hpass
        rw [if_neg hfound, loop_next (by omega) hpass]
        have hheight := @height_child a lkey rkey child (way lkey rkey key)
        exact @ih _ (some a) _ (hin _) (fun x hx => hP x hx.1) (hchild _) _ (by omega)

theorem Tree23.Alone.mem {key : Int} {a : Nat} : ∀ {t : Tree23}, t.Alone key a → key ∈ t.keys := by
  intro t
  induction t with
  | nil => exact False.elim
  | node b lkey rkey child ih =>
      rintro (⟨-, -, rfl⟩ | ⟨w, h⟩)
      · exact mem_keys.mpr (Or.inl rfl)
      · exact mem_keys.mpr (Or.inr (Or.inr ⟨w, ih w h⟩))

theorem find_eq_some {key : Int} {a : Nat} : ∀ {t : Tree23} {top : Bool} {P : Int → Prop},
    Within top P t → (find key t = some a ↔ t.Alone key a) := by
  intro t
  induction t with
  | nil => exact fun _ => iff_of_false (fun h => nomatch h) id
  | node b lkey rkey child ih =>
      rintro top P ⟨-, -, -, -, hin⟩
      have hpart : ∀ w, (child w).Alone key a → Part lkey rkey w key :=
        fun w h => ((hin w).mem h.mem).2
      rw [find]
      split
      case isTrue hfound =>
        obtain ⟨rfl, rfl⟩ := hfound
        constructor
        · rintro ⟨⟩
          exact Or.inl ⟨rfl, rfl, rfl⟩
        · rintro (⟨rfl, -, -⟩ | ⟨w, h⟩)
          · rfl
          · exact absurd (hpart w h) (not_part_lkey w)
      case isFalse hfound =>
        rw [ih _ (hin _)]
        constructor
        · exact fun h => Or.inr ⟨_, h⟩
        · rintro (⟨-, hr, hl⟩ | ⟨w, h⟩)
          · exact absurd ⟨hl, hr⟩ hfound
          · rwa [way_of_part (hpart w h)]

theorem bs23treeSearch_spec {tr : Tree} {t : Tree23} (h : Kept tr t) (key : Int) {fuel : Nat}
    (hfuel : t.height < fuel) : bs23treeSearch fuel tr key = some (find key t) := by
  rw [bs23treeSearch, ← h.root]
  exact @bs23treeSearch_loop _ key t none _ h.within (fun _ hx => hx) h.reps fuel hfuel

/-- A right key is never found. -/
theorem find_rkey {a : Nat} {lkey r : Int} {child : Way → Tree23} {top : Bool} {P : Int → Prop}
    (h : Within top P (.node a lkey (some r) child)) :
    find r (.node a lkey (some r) child) = none := by
  obtain ⟨-, hr, -, -, hin⟩ := h
  rw [find, if_neg (fun h => absurd h.2 (Option.some_ne_none r)), Option.eq_none_iff_forall_ne_some]
  intro b hb
  have hpart := ((hin _).mem ((find_eq_some (hin _)).mp hb).mem).2
  exact not_part_rkey (hr r rfl).2 _ hpart

/-- Where all keys are found, no node has two, and the tree is no more than a root with its
    children. -/
theorem length_keys_le {P : Int → Prop} {t : Tree23} (h : Within true P t)
    (hall : ∀ x ∈ t.keys, find x t ≠ none) : t.keys.length ≤ 3 := by
  cases t with
  | nil => exact Nat.zero_le _
  | node a lkey rkey child =>
      obtain ⟨-, -, htop, -, hin⟩ := h
      obtain rfl := htop rfl
      have hone : ∀ w, (child w).keys.length ≤ 1 := by
        intro w
        have hw := hin w
        have hfind : ∀ x ∈ (child w).keys, find x (child w) ≠ none := by
          intro x hx
          have hpart := ((hin w).mem hx).2
          have hne : lkey ≠ x := fun heq => not_part_lkey w (heq ▸ hpart)
          have hsub := hall x (mem_keys.mpr (Or.inr (Or.inr ⟨w, hx⟩)))
          rwa [find, if_neg (fun h => hne h.1), way_of_part hpart] at hsub
        revert hw hfind
        cases child w with
        | nil => exact fun _ _ => Nat.zero_le _
        | node b l r below =>
            intro hw hfind
            cases r with
            | some r => exact absurd (find_rkey hw) (hfind r (mem_keys.mpr (Or.inr (Or.inl rfl))))
            | none =>
                obtain ⟨-, -, -, hleaf, -⟩ := hw
                rw [keys, hleaf rfl rfl, hleaf rfl rfl, hleaf rfl rfl]
                exact le_refl _
      have hmidle : (child .midle).keys = [] := by
        refine List.eq_nil_iff_forall_not_mem.mpr fun x hx => ?_
        obtain ⟨_, hr, -⟩ := ((hin .midle).mem hx).2
        exact nomatch hr
      have hl := hone .left
      have hr := hone .right
      rw [keys, hmidle, List.length_append, List.length_cons]
      simp only [List.nil_append, Option.toList_none]
      omega

/-- **The search misses keys.**  It finds a key where the key is alone in its node, so of four
    keys or more there is always one that `bs23tree_init` has put into the tree and
    `bs23tree_search` does not find. -/
theorem bs23treeSearch_alone (m : Mem) (nodes n : Nat) (k : Nat → Int) (hn : 0 < n)
    (h : Fresh m nodes n k) :
    ∃ tr t, (∀ fuel, n < fuel → bs23treeInit fuel m nodes n = some (tr, 0)) ∧ Kept tr t
      ∧ (∀ key, ∃ x, (∀ fuel, n < fuel → bs23treeSearch fuel tr key = some x)
        ∧ ∀ a, x = some a ↔ t.Alone key a)
      ∧ (4 ≤ n → ∃ i < n, ∀ fuel, n < fuel → bs23treeSearch fuel tr (k i) = some none) := by
  obtain ⟨tr, t, hrun, hkept, hheight, hperm⟩ := bs23treeInit_spec hn h
  have hsearch : ∀ key fuel, n < fuel → bs23treeSearch fuel tr key = some (find key t) :=
    fun key fuel hfuel => bs23treeSearch_spec hkept key (by omega)
  refine ⟨tr, t, hrun, hkept, fun key => ⟨_, hsearch key, fun a => find_eq_some hkept.within⟩, ?_⟩
  intro hfour
  by_contra hfound
  push Not at hfound
  have hall : ∀ x ∈ t.keys, find x t ≠ none := by
    intro x hx
    obtain ⟨i, hi, rfl⟩ := List.mem_map.mp (hperm.mem_iff.mp hx)
    obtain ⟨fuel, hfuel, hne⟩ := hfound i (List.mem_range.mp hi)
    rw [hsearch _ fuel hfuel] at hne
    exact fun heq => hne (congrArg some heq)
  have hlen := length_keys_le hkept.within hall
  rw [hperm.length_eq, List.length_map, List.length_range] at hlen
  omega

theorem bs23treeSearch_alone_four :
    ∃ tr t, (∀ fuel, 4 < fuel → bs23treeInit fuel someNodes 0 4 = some (tr, 0)) ∧ Kept tr t
      ∧ (∀ key, ∃ x, (∀ fuel, 4 < fuel → bs23treeSearch fuel tr key = some x)
        ∧ ∀ a, x = some a ↔ t.Alone key a)
      ∧ (4 ≤ 4 → ∃ i < 4, ∀ fuel, 4 < fuel → bs23treeSearch fuel tr (someKeys i) = some none) :=
  bs23treeSearch_alone someNodes 0 4 someKeys (by decide) ⟨by decide, by decide, by decide⟩

end Bs23Tree
