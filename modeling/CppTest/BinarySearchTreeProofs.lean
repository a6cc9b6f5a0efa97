import Mathlib.Order.Bounds.Basic
import Mathlib.Data.List.Infix

/-! # The class `BinarySearchTree` (`src/algs/cti/test_cti_bstree.cpp`)

    A set of elements as a binary tree.  Two of its members do something else than
    their names say:

    * `remove` takes the branch for two children when there are NONE, and looks for the
      least element of a null tree; a node that does have two is replaced by its left
      one, and the right one is lost.  It is right for an element that is absent or
      whose node has one child (`Removable`).
    * `findMax` calls `findMin`.

    `bstree_ordered_set` says that these are the only ways a run can go wrong. -/

namespace BinarySearchTree

variable {α : Type} [LinearOrder α]

/-! ## The model -/

/-- A pointer to a `BinaryNode`, with what it points to. -/
inductive BinaryNode (α : Type) where
  | null
  | node (element : α) (left right : BinaryNode α)
  deriving Repr, DecidableEq

open BinaryNode

/-- The private `findMin`: the element of the node it returns.  A null tree faults. -/
def findMinNode : BinaryNode α → Option α
  | null => none
  | node element null _ => some element
  | node _ left _ => findMinNode left

/-- `findMin`; `some none` is the null pointer returned for an empty tree. -/
def findMin : BinaryNode α → Option (Option α)
  | null => some none
  | root => (findMinNode root).map some

/-- `findMax`, which calls the private `findMin`. -/
def findMax : BinaryNode α → Option (Option α)
  | null => some none
  | root => (findMinNode root).map some

/-- `contains`. -/
def contains (x : α) : BinaryNode α → Bool
  | null => false
  | node element left right =>
      if x < element then contains x left
      else if element < x then contains x right
      else true

/-- `insert`: the tree afterwards. -/
def insert (x : α) : BinaryNode α → BinaryNode α
  | null => node x null null
  | node element left right =>
      if x < element then node element (insert x left) right
      else if element < x then node element left (insert x right)
      else node element left right

/-- `remove`: the tree afterwards. -/
def remove (x : α) : BinaryNode α → Option (BinaryNode α)
  | null => some null
  | node element left right =>
      if x < element then (remove x left).map fun left => node element left right
      else if element < x then (remove x right).map fun right => node element left right
      -- the source's comment here is "2 children"
      else if left = null ∧ right = null then do
        let least ← findMinNode right
        let right ← remove least right
        some (node least left right)
      else some (if left ≠ null then left else right)

/-- A call of `insert` or `remove`. -/
inductive Call (α : Type) where
  | insert (x : α)
  | remove (x : α)
  deriving Repr, DecidableEq

def call (t : BinaryNode α) : Call α → Option (BinaryNode α)
  | .insert x => some (insert x t)
  | .remove x => remove x t

/-- A sequence of calls on an empty tree. -/
def calls (cs : List (Call α)) : Option (BinaryNode α) :=
  cs.foldlM call null

/-! ## Search trees -/

/-- The elements, from left to right. -/
def elems : BinaryNode α → List α
  | null => []
  | node element left right => elems left ++ element :: elems right

/-- The search-tree property of the header: smaller elements to the left, greater ones
    to the right. -/
def Ordered : BinaryNode α → Prop
  | null => True
  | node element left right =>
      Ordered left ∧ Ordered right ∧ (∀ y ∈ elems left, y < element) ∧ ∀ y ∈ elems right, element < y

omit [LinearOrder α] in
@[simp] theorem mem_elems_node {e x : α} {l r : BinaryNode α} :
    x ∈ elems (node e l r) ↔ x ∈ elems l ∨ x = e ∨ x ∈ elems r := by
  simp [elems]

theorem mem_of_contains {x : α} {t : BinaryNode α} (h : contains x t = true) : x ∈ elems t := by
  induction t with
  | null => exact nomatch h
  | node e l r ihl ihr =>
      rw [contains] at h
      rw [mem_elems_node]
      split_ifs at h with hxe hex
      · exact Or.inl (ihl h)
      · exact Or.inr (Or.inr (ihr h))
      · exact Or.inr (Or.inl (le_antisymm (not_lt.mp hex) (not_lt.mp hxe)))

theorem contains_iff {t : BinaryNode α} (h : Ordered t) (x : α) :
    contains x t = true ↔ x ∈ elems t := by
  refine ⟨mem_of_contains, ?_⟩
  induction t with
  | null => exact fun hx => nomatch hx
  | node e l r ihl ihr =>
      obtain ⟨hl, hr, hlt, hgt⟩ := h
      intro hx
      rw [contains]
      rcases mem_elems_node.mp hx with hx | rfl | hx
      · rw [if_pos (hlt x hx)]
        exact ihl hl hx
      · rw [if_neg (lt_irrefl x), if_neg (lt_irrefl x)]
      · rw [if_neg (not_lt_of_gt (hgt x hx)), if_pos (hgt x hx)]
        exact ihr hr hx

theorem mem_insert (x y : α) (t : BinaryNode α) : y ∈ elems (insert x t) ↔ y = x ∨ y ∈ elems t := by
  induction t with
  | null => simp [insert, elems]
  | node e l r ihl ihr =>
      rw [insert]
      split_ifs with hxe hex
      · rw [mem_elems_node, ihl, mem_elems_node, or_assoc]
      · simp only [mem_elems_node, ihr, or_left_comm]
      · obtain rfl : x = e := le_antisymm (not_lt.mp hex) (not_lt.mp hxe)
        refine ⟨Or.inr, ?_⟩
        rintro (rfl | hy)
        · exact mem_elems_node.mpr (Or.inr (Or.inl rfl))
        · exact hy

theorem ordered_insert {t : BinaryNode α} (h : Ordered t) (x : α) : Ordered (insert x t) := by
  induction t with
  | null => exact ⟨trivial, trivial, fun y hy => (nomatch hy), fun y hy => nomatch hy⟩
  | node e l r ihl ihr =>
      obtain ⟨hl, hr, hlt, hgt⟩ := h
      rw [insert]
      split_ifs with hxe hex
      · refine ⟨ihl hl, hr, ?_, hgt⟩
        intro y hy
        rcases (mem_insert x y l).mp hy with rfl | hy
        · exact hxe
        · exact hlt y hy
      · refine ⟨hl, ihr hr, hlt, ?_⟩
        intro y hy
        rcases (mem_insert x y r).mp hy with rfl | hy
        · exact hex
        · exact hgt y hy
      · exact ⟨hl, hr, hlt, hgt⟩

/-! ## Removing -/

/-- `x` is absent, or its node has exactly one child. -/
def Removable (x : α) : BinaryNode α → Prop
  | null => True
  | node element left right =>
      if x < element then Removable x left
      else if element < x then Removable x right
      else (left = null ↔ right ≠ null)

/-- Where it may be called, `remove` takes out its element and no other. -/
theorem remove_removable {x : α} {t : BinaryNode α} (h : Ordered t) (hx : Removable x t) :
    ∃ t', remove x t = some t' ∧ Ordered t' ∧ ∀ y, y ∈ elems t' ↔ y ∈ elems t ∧ y ≠ x := by
  induction t with
  | null => exact ⟨null, rfl, trivial, by simp [elems]⟩
  | node e l r ihl ihr =>
      obtain ⟨hl, hr, hlt, hgt⟩ := h
      rw [Removable] at hx
      rw [remove]
      split_ifs at hx ⊢ with hxe hex hboth hnull
      · obtain ⟨l', hrun, hl', hmem⟩ := ihl hl hx
        refine ⟨node e l' r, by rw [hrun]; rfl, ⟨hl', hr, ?_, hgt⟩, ?_⟩
        · exact fun y hy => hlt y ((hmem y).mp hy).1
        · intro y
          have he : y = e → y ≠ x := fun hy => hy ▸ ne_of_gt hxe
          have hright : y ∈ elems r → y ≠ x := fun hy => ne_of_gt (hxe.trans (hgt y hy))
          rw [mem_elems_node, mem_elems_node, hmem, or_and_right, or_and_right,
            and_iff_left_of_imp he, and_iff_left_of_imp hright]
      · obtain ⟨r', hrun, hr', hmem⟩ := ihr hr hx
        refine ⟨node e l r', by rw [hrun]; rfl, ⟨hl, hr', hlt, ?_⟩, ?_⟩
        · exact fun y hy => hgt y ((hmem y).mp hy).1
        · intro y
          have he : y = e → y ≠ x := fun hy => hy ▸ ne_of_lt hex
          have hleft : y ∈ elems l → y ≠ x := fun hy => ne_of_lt ((hlt y hy).trans hex)
          rw [mem_elems_node, mem_elems_node, hmem, or_and_right, or_and_right,
            and_iff_left_of_imp he, and_iff_left_of_imp hleft]
      · exact absurd hboth.2 (hx.mp hboth.1)
      · -- the left child takes the place of the node
        obtain rfl : x = e := le_antisymm (not_lt.mp hex) (not_lt.mp hxe)
        obtain rfl : r = null := not_not.mp fun hne => hnull (hx.mpr hne)
        refine ⟨l, rfl, hl, ?_⟩
        intro y
        rw [mem_elems_node]
        constructor
        · exact fun hy => ⟨Or.inl hy, ne_of_lt (hlt y hy)⟩
        · rintro ⟨hy | rfl | hy, hne⟩
          · exact hy
          · exact absurd rfl hne
          · exact nomatch hy
      · -- the right child does
        obtain rfl : x = e := le_antisymm (not_lt.mp hex) (not_lt.mp hxe)
        obtain rfl : l = null := not_not.mp hnull
        refine ⟨r, rfl, hr, ?_⟩
        intro y
        rw [mem_elems_node]
        constructor
        · exact fun hy => ⟨Or.inr (Or.inr hy), ne_of_gt (hgt y hy)⟩
        · rintro ⟨hy | rfl | hy, hne⟩
          · exact nomatch hy
          · exact absurd rfl hne
          · exact hy

/-- Elsewhere it faults, or loses an element it was not called for. -/
theorem remove_not_removable {x : α} {t : BinaryNode α} (h : Ordered t) (hx : ¬ Removable x t)
    {t' : BinaryNode α} (hrun : remove x t = some t') : ∃ y ∈ elems t, y ≠ x ∧ y ∉ elems t' := by
  induction t generalizing t' with
  | null => exact absurd trivial hx
  | node e l r ihl ihr =>
      obtain ⟨hl, hr, hlt, hgt⟩ := h
      rw [Removable] at hx
      rw [remove] at hrun
      split_ifs at hx hrun with hxe hex hboth hnull
      · obtain ⟨l', hrun', rfl⟩ := Option.map_eq_some_iff.mp hrun
        obtain ⟨y, hy, hne, hnot⟩ := ihl hl hx hrun'
        refine ⟨y, mem_elems_node.mpr (Or.inl hy), hne, ?_⟩
        rw [mem_elems_node]
        rintro (hy' | rfl | hy')
        · exact hnot hy'
        · exact lt_irrefl y (hlt y hy)
        · exact lt_asymm (hlt y hy) (hgt y hy')
      · obtain ⟨r', hrun', rfl⟩ := Option.map_eq_some_iff.mp hrun
        obtain ⟨y, hy, hne, hnot⟩ := ihr hr hx hrun'
        refine ⟨y, mem_elems_node.mpr (Or.inr (Or.inr hy)), hne, ?_⟩
        rw [mem_elems_node]
        rintro (hy' | rfl | hy')
        · exact lt_asymm (hlt y hy') (hgt y hy)
        · exact lt_irrefl y (hgt y hy)
        · exact hnot hy'
      · -- no child: the least element of a null tree
        rw [hboth.2] at hrun
        exact nomatch hrun
      · -- two children: the right one is lost
        have hr0 : r ≠ null := fun hr0 => hx ⟨fun h => absurd h hnull, fun h => absurd hr0 h⟩
        obtain rfl := Option.some.inj hrun
        cases r with
        | null => exact absurd rfl hr0
        | node f rl rr =>
            have hf : f ∈ elems (node f rl rr) := mem_elems_node.mpr (Or.inr (Or.inl rfl))
            refine ⟨f, mem_elems_node.mpr (Or.inr (Or.inr hf)), ?_, ?_⟩
            · exact ne_of_gt ((not_lt.mp hex).trans_lt (hgt f hf))
            · exact fun hfl => lt_asymm (hlt f hfl) (hgt f hf)
      · -- the only child is on the right, so `x` was removable
        obtain rfl : l = null := not_not.mp hnull
        exact absurd ⟨fun _ hr0 => hboth ⟨rfl, hr0⟩, fun _ => rfl⟩ hx

/-! ## The least element -/

theorem findMinNode_spec {t : BinaryNode α} (h : Ordered t) (hne : t ≠ null) :
    ∃ m, findMinNode t = some m ∧ IsLeast {x | x ∈ elems t} m := by
  induction t with
  | null => exact absurd rfl hne
  | node e l r ihl _ =>
      obtain ⟨hl, _, hlt, hgt⟩ := h
      cases l with
      | null =>
          refine ⟨e, rfl, mem_elems_node.mpr (Or.inr (Or.inl rfl)), ?_⟩
          intro y hy
          rcases mem_elems_node.mp hy with hy | rfl | hy
          · exact nomatch hy
          · exact le_refl y
          · exact (hgt y hy).le
      | node f ll lr =>
          obtain ⟨m, hrun, hmem, hle⟩ := ihl hl (fun h => nomatch h)
          refine ⟨m, hrun, mem_elems_node.mpr (Or.inl hmem), ?_⟩
          intro y hy
          rcases mem_elems_node.mp hy with hy | rfl | hy
          · exact hle hy
          · exact (hlt m hmem).le
          · exact ((hlt m hmem).trans (hgt y hy)).le

/-! ## Runs -/

/-- The last `insert` or `remove` of `x` was an `insert`. -/
def lastIsInsert (cs : List (Call α)) (x : α) : Bool :=
  cs.foldl (fun b c =>
    match c with
    | .insert y => if y = x then true else b
    | .remove y => if y = x then false else b) false

/-- Every `remove` of the run finds its element absent or at a node with one child. -/
def RemovesWell (cs : List (Call α)) : Prop :=
  ∀ before x, before ++ [.remove x] <+: cs → ∀ t, calls before = some t → Removable x t

/-- `contains` and `findMin` answer as a set does. -/
structure SetLaw (cs : List (Call α)) (t : BinaryNode α) : Prop where
  mem : ∀ x, contains x t = lastIsInsert cs x
  min : t ≠ null → ∃ m, findMin t = some (some m) ∧ IsLeast {x | lastIsInsert cs x = true} m

/-- So does `findMax`. -/
def MaxLaw (cs : List (Call α)) (t : BinaryNode α) : Prop :=
  t ≠ null → ∃ m, findMax t = some (some m) ∧ IsGreatest {x | lastIsInsert cs x = true} m

/-- The tree is a search tree of the elements that the calls leave. -/
def Represents (cs : List (Call α)) (t : BinaryNode α) : Prop :=
  Ordered t ∧ ∀ x, x ∈ elems t ↔ lastIsInsert cs x = true

theorem lastIsInsert_snoc (cs : List (Call α)) (c : Call α) (y : α) :
    lastIsInsert (cs ++ [c]) y
      = match c with
        | .insert x => if x = y then true else lastIsInsert cs y
        | .remove x => if x = y then false else lastIsInsert cs y := by
  rw [lastIsInsert, List.foldl_append]
  rfl

theorem lastIsInsert_insert (cs : List (Call α)) (x y : α) :
    lastIsInsert (cs ++ [.insert x]) y = true ↔ y = x ∨ lastIsInsert cs y = true := by
  rw [lastIsInsert_snoc]
  by_cases hxy : x = y
  · simp [hxy]
  · simp [hxy, Ne.symm hxy]

theorem lastIsInsert_remove (cs : List (Call α)) (x y : α) :
    lastIsInsert (cs ++ [.remove x]) y = true ↔ lastIsInsert cs y = true ∧ y ≠ x := by
  rw [lastIsInsert_snoc]
  by_cases hxy : x = y
  · simp [hxy]
  · simp [hxy, Ne.symm hxy]

theorem calls_snoc (cs : List (Call α)) (c : Call α) :
    calls (cs ++ [c]) = (calls cs).bind fun t => call t c := by
  rw [calls, List.foldlM_append]
  show _ = (cs.foldlM call null).bind _
  cases cs.foldlM call null with
  | none => rfl
  | some t => exact bind_pure (call t c)

theorem RemovesWell.mono {before cs : List (Call α)} (h : RemovesWell cs) (hp : before <+: cs) :
    RemovesWell before :=
  fun b x hb => h b x (hb.trans hp)

/-- **One call** from a tree that represents a set: it represents the next one, unless
    the call is a `remove` that cannot be made there. -/
theorem Represents.call {cs : List (Call α)} {t : BinaryNode α} (h : Represents cs t) (c : Call α)
    (hc : ∀ x, c = .remove x → Removable x t) :
    ∃ t', BinarySearchTree.call t c = some t' ∧ Represents (cs ++ [c]) t' := by
  obtain ⟨hord, hmem⟩ := h
  cases c with
  | insert x =>
      refine ⟨insert x t, rfl, ordered_insert hord x, ?_⟩
      intro y
      rw [mem_insert, hmem, lastIsInsert_insert]
  | remove x =>
      obtain ⟨t', hrun, hord', hmem'⟩ := remove_removable hord (hc x rfl)
      refine ⟨t', hrun, hord', ?_⟩
      intro y
      rw [hmem', hmem, lastIsInsert_remove]

/-- **A whole run.** -/
theorem represents_calls (cs : List (Call α)) (h : RemovesWell cs) :
    ∃ t, calls cs = some t ∧ Represents cs t := by
  induction cs using List.reverseRecOn with
  | nil => exact ⟨null, rfl, trivial, by simp [elems, lastIsInsert]⟩
  | append_singleton cs c ih =>
      obtain ⟨t, hrun, ht⟩ := ih (h.mono (List.prefix_append cs [c]))
      obtain ⟨t', hcall, ht'⟩ := ht.call c (by
        rintro x rfl
        exact h cs x (List.prefix_refl _) t hrun)
      refine ⟨t', ?_, ht'⟩
      rw [calls_snoc, hrun]
      exact hcall

omit [LinearOrder α] in
theorem findMin_of_ne {t : BinaryNode α} (hne : t ≠ null) :
    findMin t = (findMinNode t).map some ∧ findMax t = (findMinNode t).map some := by
  cases t with
  | null => exact absurd rfl hne
  | node e l r => exact ⟨rfl, rfl⟩

theorem Represents.setLaw {cs : List (Call α)} {t : BinaryNode α} (h : Represents cs t) :
    SetLaw cs t := by
  obtain ⟨hord, hmem⟩ := h
  refine ⟨?_, ?_⟩
  · intro x
    rw [Bool.eq_iff_iff, contains_iff hord, hmem]
  · intro hne
    obtain ⟨m, hrun, hleast⟩ := findMinNode_spec hord hne
    refine ⟨m, ?_, ?_⟩
    · rw [(findMin_of_ne hne).1, hrun]
      rfl
    · simpa only [hmem] using hleast

/-- `findMax` returns the least element: right for at most one. -/
theorem Represents.maxLaw_iff {cs : List (Call α)} {t : BinaryNode α} (h : Represents cs t) :
    MaxLaw cs t ↔ {x | lastIsInsert cs x = true}.Subsingleton := by
  obtain ⟨hord, hmem⟩ := h
  by_cases hne : t = null
  · subst hne
    have hnone : ∀ x, ¬ lastIsInsert cs x = true := fun x hx => nomatch (hmem x).mpr hx
    exact iff_of_true (fun h => absurd rfl h) fun x hx => absurd hx (hnone x)
  · obtain ⟨m, hrun, hleast⟩ := findMinNode_spec hord hne
    simp only [hmem] at hleast
    have hmax : findMax t = some (some m) := by
      rw [(findMin_of_ne hne).2, hrun]
      rfl
    constructor
    · intro hlaw x hx y hy
      obtain ⟨m', hm', hgreatest⟩ := hlaw hne
      obtain rfl := Option.some.inj (Option.some.inj (hmax.symm.trans hm'))
      exact (le_antisymm (hgreatest.2 hx) (hleast.2 hx)).trans
        (le_antisymm (hleast.2 hy) (hgreatest.2 hy))
    · intro hone _
      refine ⟨m, hmax, hleast.1, ?_⟩
      intro x hx
      exact (hone hx hleast.1).le

/-- If the set is right all along, no `remove` was made where it cannot be. -/
theorem removesWell_of_setLaw (cs : List (Call α))
    (h : ∀ before, before <+: cs → ∃ t, calls before = some t ∧ SetLaw before t) :
    RemovesWell cs := by
  induction cs using List.reverseRecOn with
  | nil =>
      intro before x hp
      exact absurd (List.prefix_nil.mp hp) (by simp)
  | append_singleton cs c ih =>
      have hcs : RemovesWell cs := ih fun before hp => h before (hp.trans (List.prefix_append cs [c]))
      intro before x hp t hrun
      rcases List.prefix_concat_iff.mp hp with heq | hp
      · obtain ⟨rfl, hc⟩ := List.append_inj' heq rfl
        obtain rfl := (List.cons.inj hc).1
        by_contra hnot
        obtain ⟨t₀, hrun₀, hord, hmem⟩ := represents_calls before hcs
        obtain rfl := Option.some.inj (hrun.symm.trans hrun₀)
        obtain ⟨t', hrun', hlaw⟩ := h _ (List.prefix_refl _)
        rw [calls_snoc, hrun] at hrun'
        -- an element that was not removed is missing
        obtain ⟨y, hy, hne, hlost⟩ := remove_not_removable hord hnot hrun'
        have hlast := (lastIsInsert_remove before x y).mpr ⟨(hmem y).mp hy, hne⟩
        exact hlost (mem_of_contains ((hlaw.mem y).trans hlast))
      · exact hcs before x hp t hrun

/-- **ORDERED SET.**  In every state of a run, the calls have returned and `contains` and
    `findMin` answer as the set of the inserted and not removed elements, exactly if each
    `remove` was made where its element is absent or its node has one child.  In every
    state `findMax` does so too exactly if, besides, the set never has two elements. -/
theorem bstree_ordered_set (cs : List (Call α)) :
    ((∀ before, before <+: cs → ∃ t, calls before = some t ∧ SetLaw before t) ↔
      RemovesWell cs) ∧
    ((∀ before, before <+: cs → ∃ t, calls before = some t ∧ SetLaw before t ∧ MaxLaw before t) ↔
      RemovesWell cs ∧
      ∀ before, before <+: cs → {x | lastIsInsert before x = true}.Subsingleton) := by
  refine ⟨⟨removesWell_of_setLaw cs, ?_⟩, ?_, ?_⟩
  · intro h before hp
    obtain ⟨t, hrun, ht⟩ := represents_calls before (h.mono hp)
    exact ⟨t, hrun, ht.setLaw⟩
  · intro h
    have hcs : RemovesWell cs := removesWell_of_setLaw cs fun before hp => by
      obtain ⟨t, hrun, hlaw, -⟩ := h before hp
      exact ⟨t, hrun, hlaw⟩
    refine ⟨hcs, ?_⟩
    intro before hp
    obtain ⟨t, hrun, -, hmax⟩ := h before hp
    obtain ⟨t₀, hrun₀, ht⟩ := represents_calls before (hcs.mono hp)
    obtain rfl := Option.some.inj (hrun.symm.trans hrun₀)
    exact ht.maxLaw_iff.mp hmax
  · rintro ⟨hcs, hone⟩ before hp
    obtain ⟨t, hrun, ht⟩ := represents_calls before (hcs.mono hp)
    exact ⟨t, hrun, ht.setLaw, ht.maxLaw_iff.mpr (hone before hp)⟩

/-- `insert(1), remove(1)` faults; after `insert(2), insert(1), insert(3), remove(2)` the
    element 3 is lost; and after `insert(1), insert(2)` the greatest element is 1. -/
theorem bstree_ordered_set_fails :
    calls [.insert (1 : Int), .remove 1] = none ∧
    (calls [.insert (2 : Int), .insert 1, .insert 3, .remove 2]).map (contains 3) = some false ∧
    (calls [.insert (1 : Int), .insert 2]).bind findMax = some (some 1) := by
  decide

end BinarySearchTree
