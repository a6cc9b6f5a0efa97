import CppTest.RbTreeDictProofs

/-! # The `int`-keyed red-black tree (`src/algs/intro_to_algs3th/test_rb_tree.cpp`)

    The test program carries a red-black tree of its own, with `int` keys compared by `<`.
    Its rotations, its colour flip and the loop that restores the colours are those of
    `rb_tree.cpp`, word for word (`node->red = (node->p)` included), and are taken from its
    model.  The search for the insert position is not: it goes left where the key is
    smaller and right otherwise, so an equal key is inserted once more.

    * `rbtreeInsert_eq` — this insertion is the one of `rb_tree.cpp` under a comparison
      that never finds two keys equal.
    * `searched_sorted` — on a sorted tree the search ends behind the last key that is not
      larger, whatever the rotations did with equal keys.
    * `int_rbtree_keeps_all` — the walk after any insertions lists all keys in order, with
      their multiplicity, and the tree is a left-leaning red-black tree. -/

namespace IntRbTree

open Machine LinkedTree RbTree

/-! ## The program -/

/-- One pass of the search loop of `rbtree_insert`; the state is `(x, y)` and the result
    is `y`. -/
def rbtreeDescendPass (m : Mem (NodeVal Int)) (key : Int) (xy : Option Nat × Option Nat) :
    Option (Pass (Option Nat × Option Nat) (Option Nat)) := do
  match xy.1 with
  | none => some (.done xy.2)
  | some x =>
      let c ← m x
      if key < c.val.data then some (.next (c.left, some x))
      else some (.next (c.right, some x))

/-- `rbtree_insert(tr, key)`: the tree afterwards and the new node, at the address `new`
    that `tr.node_new` returns. -/
def rbtreeInsert (fuel : Nat) (tr : Rb Int) (new : Nat) (key : Int) : Option (Rb Int × Nat) := do
  match tr.root with
  | none =>
      let m := Function.update tr.mem new (some ⟨none, none, none, ⟨false, key⟩⟩)
      some ({ tr with root := some new, mem := m }, new)
  | some _ =>
      let y ← loop (rbtreeDescendPass tr.mem key) fuel (tr.root, none)
      let m := Function.update tr.mem new (some ⟨none, none, none, ⟨true, key⟩⟩)
      let y ← y
      let cy ← m y
      let m ← modify m y fun n =>
        n.setChild (if key < cy.val.data then .left else .right) (some new)
      let m ← modify m new fun n => { n with p := some y }
      let tr' ← loop rbtreeFixupPass fuel ({ tr with mem := m }, some y)
      some (tr', new)

/-- `rbtree_init`: one insertion for each key, with the addresses that `node_new`
    returns. -/
def rbtreeInit (fuel : Nat) : Rb Int → List (Nat × Int) → Option (Rb Int)
  | tr, [] => some tr
  | tr, (new, key) :: calls => do
      let (tr, _) ← rbtreeInsert fuel tr new key
      rbtreeInit fuel tr calls

/-- `rbtree_inorder_walk(root)`: the keys in the order they are printed; the fuel bounds
    the depth. -/
def rbtreeInorderWalk : Nat → Mem (NodeVal Int) → Option Nat → Option (List Int)
  | 0, _, _ => none
  | fuel + 1, m, root =>
      match root with
      | none => some []
      | some a => do
          let c ← m a
          let left ← rbtreeInorderWalk fuel m c.left
          let right ← rbtreeInorderWalk fuel m c.right
          some (left ++ c.val.data :: right)

/-! ## The insertion of `rb_tree.cpp` that never finds an equal key -/

/-- The comparison of the search: smaller, or not. -/
def strictHooks : Hooks Int := ⟨fun a b => if a < b then -1 else 1, false⟩

theorem strict_lt (a b : Int) : strictHooks.nodeCmp a b < 0 ↔ a < b := by
  show (if a < b then -1 else 1 : Int) < 0 ↔ a < b
  by_cases h : a < b
  · rw [if_pos h]
    exact iff_of_true (by decide) h
  · rw [if_neg h]
    exact iff_of_false (by decide) h

theorem strict_ne (a b : Int) : strictHooks.nodeCmp a b ≠ 0 := by
  show (if a < b then -1 else 1 : Int) ≠ 0
  by_cases h : a < b
  · rw [if_pos h]
    decide
  · rw [if_neg h]
    decide

/-- The two search loops go the same way. -/
theorem descend_eq (m : Mem (NodeVal Int)) (key : Int) : ∀ (fuel : Nat)
    (xy : Option Nat × Option Nat),
    loop (RbTree.rbtreeDescendPass strictHooks m key) fuel xy
      = (loop (rbtreeDescendPass m key) fuel xy).map Descent.leaf := by
  intro fuel
  induction fuel with
  | zero => exact fun xy => rfl
  | succ fuel ih =>
      rintro ⟨x, y⟩
      cases x with
      | none => rfl
      | some x =>
          cases hx : m x with
          | none => simp [loop, rbtreeDescendPass, RbTree.rbtreeDescendPass, hx]
          | some c =>
              simp only [loop, rbtreeDescendPass, RbTree.rbtreeDescendPass, hx,
                Option.bind_eq_bind, Option.bind_some, if_neg (strict_ne key c.val.data),
                strict_lt]
              by_cases hlt : key < c.val.data
              · simp only [if_pos hlt]
                exact ih _
              · simp only [if_neg hlt]
                exact ih _

theorem rbtreeInsert_eq (fuel : Nat) (tr : Rb Int) (new : Nat) (key : Int) :
    rbtreeInsert fuel tr new key = RbTree.rbtreeInsert strictHooks fuel tr new key := by
  rw [rbtreeInsert, RbTree.rbtreeInsert]
  cases hroot : tr.root with
  | none => rfl
  | some r =>
      simp only [descend_eq]
      cases loop (rbtreeDescendPass tr.mem key) fuel (some r, none) with
      | none => rfl
      | some y =>
          simp only [Option.map_some, Option.bind_eq_bind, Option.bind_some, strict_lt]

theorem rbtreeInit_eq (fuel : Nat) (calls : List (Nat × Int)) : ∀ tr : Rb Int,
    rbtreeInit fuel tr calls = insertAll strictHooks fuel tr calls := by
  induction calls with
  | nil => exact fun tr => rfl
  | cons c calls ih =>
      intro tr
      rw [rbtreeInit, insertAll, rbtreeInsert_eq]
      simp only [ih]

/-! ## The order, with equal keys -/

/-- On a sorted tree the place where a search ends has the keys that are not larger in
    front of it and the larger keys behind it. -/
theorem searched_sorted {key : Int} : ∀ (k : List (Frame (NodeVal Int))),
    Searched strictHooks key k → ((before k ++ after k).map Prod.snd).Pairwise (· ≤ ·) →
    (∀ d ∈ (before k).map Prod.snd, d ≤ key) ∧ (∀ d ∈ (after k).map Prod.snd, key < d) := by
  intro k hs hsort
  refine hs.separates ?_ (fun d hlt => (strict_lt key d).mp hlt) ?_ ?_ hsort
  · -- the search goes right of an equal key too
    intro d hgt
    by_contra hlt
    have hneg := (strict_lt key d).mpr (by omega)
    omega
  · exact fun hde he => le_trans hde he
  · exact fun hde hd => lt_of_lt_of_le hd hde

/-- What the tree holds after the keys `ds` were inserted. -/
def Keeps (ds : List Int) (its : List (Nat × Int)) (_ : List Int) : Prop :=
  (its.map Prod.snd).Pairwise (· ≤ ·) ∧ (its.map Prod.snd).Perm ds

theorem keeps_step (ds : List Int) (its : List (Nat × Int)) (fr : List Int) (new : Nat) (key : Int)
    (its' : List (Nat × Int)) (gone : List Int) (h : Keeps ds its fr)
    (hstep : Step strictHooks new key its its' gone) : Keeps (ds ++ [key]) its' (fr ++ gone) := by
  cases hstep with
  | fresh k hs =>
      obtain ⟨hsort, hperm⟩ := h
      obtain ⟨hbefore, hafter⟩ := searched_sorted k hs hsort
      rw [List.map_append, List.pairwise_append] at hsort
      obtain ⟨hb, ha, hcross⟩ := hsort
      rw [List.map_append] at hperm
      constructor
      · rw [List.map_append, List.map_cons, List.pairwise_append, List.pairwise_cons]
        refine ⟨hb, ⟨fun d hd => le_of_lt (hafter d hd), ha⟩, ?_⟩
        intro d hd e he
        rcases List.mem_cons.mp he with rfl | he
        · exact hbefore d hd
        · exact hcross d hd e he
      · rw [List.map_append, List.map_cons]
        calc ((before k).map Prod.snd ++ key :: (after k).map Prod.snd).Perm
              (key :: ((before k).map Prod.snd ++ (after k).map Prod.snd)) := List.perm_middle
          List.Perm _ (key :: ds) := hperm.cons key
          List.Perm _ (ds ++ [key]) := (List.perm_append_singleton key ds).symm
  | replace xs ys a d heq => exact absurd heq (strict_ne key d)

/-- The walk prints the keys of the tree in order. -/
theorem rbtreeInorderWalk_spec {m : Mem (NodeVal Int)} : ∀ {t : LTree (NodeVal Int)}
    {p : Option Nat}, Reps m p t → ∀ fuel, t.height < fuel →
      rbtreeInorderWalk fuel m t.ptr = some ((items t).map Prod.snd) := by
  intro t
  induction t with
  | nil =>
      intro p _ fuel hfuel
      obtain ⟨n, rfl⟩ : ∃ n, fuel = n + 1 := ⟨fuel - 1, by omega⟩
      rfl
  | node a l v r ihl ihr =>
      intro p hreps fuel hfuel
      obtain ⟨n, rfl⟩ : ∃ n, fuel = n + 1 := ⟨fuel - 1, by omega⟩
      have hheight : (LTree.node a l v r).height = max l.height r.height + 1 := rfl
      obtain ⟨ha, hl, hr⟩ := hreps
      show rbtreeInorderWalk (n + 1) m (some a)
        = some ((items l ++ (a, v.data) :: items r).map Prod.snd)
      simp only [rbtreeInorderWalk, ha, Option.bind_eq_bind, Option.bind_some]
      rw [ihl hl n (by omega), ihr hr n (by omega), List.map_append, List.map_cons]
      rfl

/-- **Every sequence of insertions** into an empty tree, each at a fresh node, returns.  The
    walk then prints the inserted keys in order, each as often as it was inserted; the tree
    is linked with correct parent pointers, black at the root, without a red right child and
    without a red node under a red one, and has as many black nodes on every path. -/
theorem int_rbtree_keeps_all (calls : List (Nat × Int)) (hfresh : (calls.map Prod.fst).Nodup) :
    ∃ tr t, (∀ fuel, 2 * calls.length ≤ fuel → rbtreeInit fuel emptyTree calls = some tr) ∧
      (∃ keys, (∀ fuel, calls.length < fuel → rbtreeInorderWalk fuel tr.mem tr.root = some keys) ∧
        keys.Pairwise (· ≤ ·) ∧ keys.Perm (calls.map Prod.snd)) ∧
      tr.root = t.ptr ∧ Reps tr.mem none t ∧ t.addrs.Nodup ∧
      isRed t = false ∧ NoRedRight t ∧ NoRedRed t ∧ ∃ n, ∀ c ∈ blackCounts t, c = n := by
  obtain ⟨tr, t, hrun, hb, hsorted, hperm⟩ := insertAll_spec strictHooks (P := Keeps) keeps_step
    calls [] balanced_emptyTree ⟨List.Pairwise.nil, List.Perm.refl []⟩ hfresh
    (fun _ _ h => absurd h List.not_mem_nil)
  rw [List.nil_append] at hperm
  obtain ⟨n, hn⟩ := hb.leaning
  have hsize : t.height ≤ calls.length := by
    have hlen := hperm.length_eq
    rw [List.length_map, List.length_map, length_items] at hlen
    rw [← hlen]
    exact t.height_le_size
  refine ⟨tr, t, ?_, ⟨(items t).map Prod.snd, ?_, hsorted, hperm⟩, hb.focus.ctx, hb.focus.tree,
    (List.nodup_append.mp hb.focus.nodup).1, hb.black, hn.noRedRight, hn.noRedRed,
    ⟨n, hn.blackCounts_eq⟩⟩
  · intro fuel hfuel
    rw [rbtreeInit_eq]
    exact hrun fuel (by rw [show (LTree.nil : LTree (NodeVal Int)).size = 0 from rfl]; omega)
  · intro fuel hfuel
    have hroot : tr.root = t.ptr := hb.focus.ctx
    rw [hroot]
    exact rbtreeInorderWalk_spec hb.focus.tree fuel (by omega)

/-- Six insertions, the key 2 three times. -/
theorem int_rbtree_keeps_all_six :
    ∃ tr t, (∀ fuel, 12 ≤ fuel → rbtreeInit fuel emptyTree
        [(1, 2), (2, 7), (3, 2), (4, 1), (5, 2), (6, -3)] = some tr) ∧
      (∃ keys, (∀ fuel, 6 < fuel → rbtreeInorderWalk fuel tr.mem tr.root = some keys) ∧
        keys.Pairwise (· ≤ ·) ∧ keys.Perm [2, 7, 2, 1, 2, -3]) ∧
      tr.root = t.ptr ∧ Reps tr.mem none t ∧ t.addrs.Nodup ∧
      isRed t = false ∧ NoRedRight t ∧ NoRedRed t ∧ ∃ n, ∀ c ∈ blackCounts t, c = n :=
  int_rbtree_keeps_all [(1, 2), (2, 7), (3, 2), (4, 1), (5, 2), (6, -3)] (by decide)

end IntRbTree
