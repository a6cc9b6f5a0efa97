import CppTest.BinaryHeapProofs

/-! # The binary heap: every `int`, and construction from items

    Two questions that `BinaryHeapProofs` leaves open.

    * `insert` of a NEGATIVE element.  The zero in `array_[0]` is then larger than
      the element, so the loop walks past the root to index 0 and stays there for
      ever (`insert_negative`).  On a heap reachable by insertions, `insert` does
      its work exactly on the non-negative elements (`insert_law_iff`).
    * `BinaryHeap( items )`.  The items are copied with no zero in front, so the
      first of them is not among the stored elements `array_[1 ..]`, and nothing
      `buildHeap` does afterwards changes how many are stored (`build_law_iff`). -/

namespace BinaryHeap

open Machine

/-! ## Insertions of every `int` -/

/-- A heap reachable from `BinaryHeap( capacity )` by insertions that returned. -/
inductive Inserted (capacity : Int) : List Int → Prop where
  | new {array} : binaryHeap capacity = some array → Inserted capacity array
  | insert {array array' x fuel} : Inserted capacity array → insert fuel array x = some array' →
      Inserted capacity array'

/-- What an `insert` is for: it returns, the array is in order, and the stored
    elements have gained one occurrence of `x`. -/
def InsertLaw (array : List Int) (x : Int) : Prop :=
  ∃ array', (∃ enough, ∀ fuel, enough < fuel → insert fuel array x = some array')
    ∧ HeapOrder array' ∧ contents array' = x ::ₘ contents array

/-- The loop of a negative `x` at index `k`: no cell that it can still compare with
    is negative. -/
structure Climbing (array : List Int) (k : Nat) : Prop where
  lt : k < array.length
  up : 0 ≤ cell array (k / 2)
  front : ∀ j, j < k → 0 ≤ cell array j

/-- A pass moves the parent down and goes on, also at the root and at index 0. -/
theorem insertPass_negative {x : Int} (hx : x < 0) {array : List Int} {k : Nat}
    (h : Climbing array k) :
    ∃ array', insertPass x (array, (k : Int)) = some (.next (array', ((k / 2 : Nat) : Int)))
      ∧ Climbing array' (k / 2) := by
  have hlt := h.lt
  have hhalf : (k : Int).tdiv 2 = ((k / 2 : Nat) : Int) := (Int.ofNat_tdiv k 2).symm
  have hup : getAt array ((k / 2 : Nat) : Int) = some (cell array (k / 2)) := getAt_cell (by omega)
  have hgt : cell array (k / 2) > x := lt_of_lt_of_le hx h.up
  refine ⟨array.set k (cell array (k / 2)), ?_, ?_⟩
  · simp only [insertPass, hhalf, hup, Option.bind_eq_bind, Option.bind_some, if_pos hgt,
      setAt_natCast _ _ hlt]
  · -- index 0 is its own parent: there the pass writes what it has read
    have hkeep : ∀ j, j ≤ k → (j < k ∨ j = k) → 0 ≤ cell (array.set k (cell array (k / 2))) j := by
      rintro j - (hj | rfl)
      · rw [cell_set_of_ne _ (by omega)]
        exact h.front j hj
      · rw [cell_set_self _ hlt]
        exact h.up
    refine ⟨by rw [List.length_set]; omega, hkeep _ (by omega) (by omega), ?_⟩
    intro j hj
    exact hkeep j (by omega) (by omega)

/-- **`insert` of a negative element never returns** on a heap without negative
    cells. -/
theorem insert_negative {array : List Int} (hpos : ∀ y ∈ array, 0 ≤ y) (hne : array ≠ [])
    (hroom : (array.length : Int) ≤ intMax) {x : Int} (hx : x < 0) (fuel : Nat) :
    insert fuel array x = none := by
  have hcell : ∀ j, j < array.length → 0 ≤ cell (array ++ [x]) j := by
    intro j hj
    rw [cell, List.getD_eq_getElem?_getD, List.getElem?_append_left hj, List.getElem?_eq_getElem hj]
    exact hpos _ (List.getElem_mem hj)
  have hsize := List.length_pos_iff.mpr hne
  have hopen : Climbing (array ++ [x]) array.length :=
    ⟨by simp, hcell _ (by omega), hcell⟩
  have hnever : loop (insertPass x) fuel (array ++ [x], (array.length : Int)) = none := by
    have hpass : ∀ s : List Int × Int, (∃ k : Nat, s.2 = k ∧ Climbing s.1 k) →
        insertPass x s = none ∨ ∃ s', insertPass x s = some (.next s')
          ∧ ∃ k : Nat, s'.2 = k ∧ Climbing s'.1 k := by
      rintro ⟨b, j⟩ ⟨k, rfl, hc⟩
      obtain ⟨b', hstep, hc'⟩ := insertPass_negative hx hc
      exact .inr ⟨(b', _), hstep, k / 2, rfl, hc'⟩
    exact loop_never hpass fuel _ ⟨array.length, rfl, hopen⟩
  simp only [insert, wrap32_last x hroom, hnever, Option.bind_eq_bind, Option.bind_none]

/-- An index that `int` cannot hold: the loop reads outside the array at once. -/
theorem insert_too_long {array : List Int} (hlen : (array.length : Int) = intMax + 1) (x : Int)
    (fuel : Nat) : insert fuel array x = none := by
  have hstart : wrap32 ((array ++ [x]).length - 1) = -2 ^ 31 := by
    have hl : (((array ++ [x]).length : Nat) : Int) - 1 = intMax + 1 := by simp [hlen]
    rw [hl]
    decide
  have hread : insertPass x (array ++ [x], -2 ^ 31) = none := rfl
  have hnever : loop (insertPass x) fuel (array ++ [x], -2 ^ 31) = none := by
    cases fuel with
    | zero => rfl
    | succ fuel => simp only [loop, hread]
  simp only [insert, hstart, hnever, Option.bind_eq_bind, Option.bind_none]

/-- A reachable heap: ordered, with no negative cell, and one element too many for
    `int` at most. -/
structure Grown (array : List Int) : Prop where
  heap : Heap array
  nonneg : ∀ y ∈ array, 0 ≤ y
  length : (array.length : Int) ≤ intMax + 1

theorem Grown.ne_nil {array : List Int} (h : Grown array) : array ≠ [] := by
  rintro rfl
  exact absurd h.heap.sentinel.symm (Option.some_ne_none _)

/-- `insert` returns only for a non-negative element in an array that `int` can
    index. -/
theorem Grown.returned {array array' : List Int} (h : Grown array) {x : Int} {fuel : Nat}
    (hrun : insert fuel array x = some array') : 0 ≤ x ∧ (array.length : Int) ≤ intMax := by
  have hroom : (array.length : Int) ≤ intMax := by
    by_contra hlong
    have hlen := h.length
    rw [insert_too_long (by omega)] at hrun
    exact absurd hrun.symm (Option.some_ne_none _)
  refine ⟨?_, hroom⟩
  by_contra hx
  rw [insert_negative h.nonneg h.ne_nil hroom (not_le.mp hx)] at hrun
  exact absurd hrun.symm (Option.some_ne_none _)

/-- The cells of a heap are the zero in front and the stored elements. -/
theorem mem_of_sentinel {array : List Int} (h : array.head? = some 0) {y : Int} :
    y ∈ array ↔ y = 0 ∨ y ∈ contents array := by
  cases array with
  | nil => exact absurd h.symm (Option.some_ne_none _)
  | cons s l =>
      obtain rfl : s = 0 := Option.some.inj h
      exact List.mem_cons

/-- More fuel does not change what `insert` returns. -/
theorem insert_mono {array array' : List Int} {x : Int} {fuel fuel' : Nat} (hle : fuel ≤ fuel')
    (h : insert fuel array x = some array') : insert fuel' array x = some array' := by
  rw [insert] at h ⊢
  obtain ⟨s, hloop, hset⟩ := Option.bind_eq_some_iff.mp h
  exact Option.bind_eq_some_iff.mpr ⟨s, loop_mono (fun _ _ hp => hp) hle hloop, hset⟩

/-- The insertions so far keep the heap good. -/
theorem Inserted.grown {capacity : Int} {array : List Int} (h : Inserted capacity array) :
    Grown array := by
  induction h with
  | new hnew =>
      obtain ⟨rfl, hheap⟩ := binaryHeap_spec hnew
      exact ⟨hheap, by simp, by decide⟩
  | @insert array array' x fuel _ hrun ih =>
      obtain ⟨hx, hroom⟩ := ih.returned hrun
      obtain ⟨b, hb, hheap, hheld, hlen⟩ := insert_spec ih.heap hx hroom
      have hmore := insert_mono (Nat.le_add_right fuel (array.length + 1)) hrun
      rw [hb _ (by omega)] at hmore
      obtain rfl := Option.some.inj hmore
      refine ⟨hheap, ?_, by omega⟩
      intro y hy
      rw [mem_of_sentinel hheap.sentinel, hheld, Multiset.mem_cons] at hy
      rcases hy with rfl | rfl | hold
      · exact le_refl 0
      · exact hx
      · exact ih.nonneg y ((mem_of_sentinel ih.heap.sentinel).mpr (.inr hold))

/-- **`insert` on a reachable heap** does its work exactly when the element is not
    negative (and the array is still short enough for an `int` index). -/
theorem insert_law_iff {capacity : Int} {array : List Int} (h : Inserted capacity array) (x : Int) :
    InsertLaw array x ↔ 0 ≤ x ∧ (array.length : Int) ≤ intMax := by
  constructor
  · rintro ⟨array', ⟨enough, hrun⟩, -⟩
    exact h.grown.returned (hrun (enough + 1) (Nat.lt_succ_self _))
  · rintro ⟨hx, hroom⟩
    obtain ⟨array', hrun, hheap, hheld, -⟩ := insert_spec h.grown.heap hx hroom
    exact ⟨array', ⟨array.length, hrun⟩, hheap.order, hheld⟩

theorem insert_law_pair : InsertLaw [0, 3] 1 := by
  have hnew : Inserted 100 [0] := .new rfl
  have hthree : Inserted 100 [0, 3] := .insert hnew (show insert 5 [0] 3 = some [0, 3] by decide)
  exact (insert_law_iff hthree 1).mpr ⟨by decide, by decide⟩

/-- A new heap takes no negative element: `insert(-1)` runs for ever. -/
theorem insert_law_negative : Inserted 100 [0] ∧ ¬ InsertLaw [0] (-1) := by
  refine ⟨.new rfl, ?_⟩
  rintro ⟨array', ⟨enough, hrun⟩, -⟩
  have hnone : insert (enough + 1) [0] (-1) = none :=
    insert_negative (by simp) (by simp) (by decide) (by decide) _
  rw [hrun (enough + 1) (Nat.lt_succ_self _)] at hnone
  exact absurd hnone (Option.some_ne_none _)

/-! ## `BinaryHeap( items )` -/

/-- The loop of `buildHeap` from `i` down to 1.  The `size_t` index becomes the `int`
    argument of `percolateDown`. -/
def buildLoop (fuel : Nat) : Nat → List Int → Option (List Int)
  | 0, array => some array
  | i + 1, array => do buildLoop fuel i (← percolateDown fuel array (wrap32 ((i + 1 : Nat) : Int)))

/-- `buildHeap`. -/
def buildHeap (fuel : Nat) (array : List Int) : Option (List Int) :=
  if isEmpty array then some array else buildLoop fuel (array.length / 2) array

/-- `BinaryHeap( const std::vector<Comparable> & items )`: `array_ = items`, then
    `buildHeap()`. -/
def binaryHeapOf (fuel : Nat) (items : List Int) : Option (List Int) := buildHeap fuel items

/-- What the constructor is for: it returns an ordered array that stores the items. -/
def BuildLaw (items : List Int) : Prop :=
  ∃ array, (∃ enough, ∀ fuel, enough < fuel → binaryHeapOf fuel items = some array)
    ∧ HeapOrder array ∧ contents array = ↑items

theorem length_of_setAt {array array' : List Int} {i v : Int} (h : setAt array i v = some array') :
    array'.length = array.length := by
  obtain ⟨-, rfl⟩ := of_setAt h
  exact List.length_set

/-- A pass of `percolateDown` overwrites a cell or none, so the array keeps its
    length. -/
theorem percolateDownPass_length {s : List Int × Int}
    {p : Pass (List Int × Int) (List Int × Int)} (h : percolateDownPass s = some p) :
    ∃ array i, array.length = s.1.length ∧ (p = .next (array, i) ∨ p = .done (array, i)) := by
  obtain ⟨array, i⟩ := s
  rw [percolateDownPass] at h
  split at h
  · obtain ⟨left, -, h⟩ := Option.bind_eq_some_iff.mp h
    obtain ⟨right, -, h⟩ := Option.bind_eq_some_iff.mp h
    split at h
    all_goals
      obtain ⟨array', hset, h⟩ := Option.bind_eq_some_iff.mp h
      obtain rfl := Option.some.inj h
      exact ⟨array', _, length_of_setAt hset, .inl rfl⟩
  · obtain rfl := Option.some.inj h
    exact ⟨array, i, rfl, .inr rfl⟩

theorem percolateDown_length {fuel : Nat} {array array' : List Int} {i : Int}
    (h : percolateDown fuel array i = some array') : array'.length = array.length := by
  rw [percolateDown] at h
  obtain ⟨⟨b, j⟩, hloop, h⟩ := Option.bind_eq_some_iff.mp h
  obtain ⟨back, -, hset⟩ := Option.bind_eq_some_iff.mp h
  have hnext : ∀ s s' : List Int × Int, s.1.length = array.length →
      percolateDownPass s = some (.next s') → s'.1.length = array.length := by
    intro s s' hs hpass
    obtain ⟨c, k, hlen, heq | heq⟩ := percolateDownPass_length hpass
    · rw [Pass.next.inj heq]
      exact hlen.trans hs
    · cases heq
  have hdone : ∀ s r : List Int × Int, s.1.length = array.length →
      percolateDownPass s = some (.done r) → r.1.length = array.length := by
    intro s r hs hpass
    obtain ⟨c, k, hlen, heq | heq⟩ := percolateDownPass_length hpass
    · cases heq
    · rw [Pass.done.inj heq]
      exact hlen.trans hs
  have hb : b.length = array.length := loop_keeps hnext hdone rfl hloop
  rw [length_of_setAt hset, hb]

theorem buildLoop_length {fuel i : Nat} {array array' : List Int}
    (h : buildLoop fuel i array = some array') : array'.length = array.length := by
  induction i generalizing array with
  | zero =>
      obtain rfl := Option.some.inj h
      rfl
  | succ i ih =>
      rw [buildLoop] at h
      obtain ⟨b, hdown, hrest⟩ := Option.bind_eq_some_iff.mp h
      rw [ih hrest, percolateDown_length hdown]

/-- The array has one cell for each item, so that one item is not stored. -/
theorem binaryHeapOf_length {fuel : Nat} {items array : List Int}
    (h : binaryHeapOf fuel items = some array) : array.length = items.length := by
  rw [binaryHeapOf, buildHeap] at h
  split at h
  · rw [Option.some.inj h]
  · exact buildLoop_length h

/-- Of a non-empty vector one item too few is stored, whatever `buildHeap` does. -/
theorem BuildLaw.eq_nil {items : List Int} (h : BuildLaw items) : items = [] := by
  obtain ⟨array, ⟨enough, hrun⟩, -, hheld⟩ := h
  have hlen := binaryHeapOf_length (hrun (enough + 1) (Nat.lt_succ_self _))
  have hcard : array.length - 1 = items.length := by
    have hc := congrArg Multiset.card hheld
    rw [contents, Multiset.coe_card, Multiset.coe_card, List.length_tail] at hc
    exact hc
  exact List.length_eq_zero_iff.mp (by omega)

/-- **`BinaryHeap( items )` stores the items exactly when there are none.** -/
theorem build_law_iff (items : List Int) : BuildLaw items ↔ items = [] := by
  constructor
  · exact fun h => h.eq_nil
  · rintro rfl
    refine ⟨[], ⟨0, fun _ _ => rfl⟩, ?_, rfl⟩
    intro i _ hlt
    exact absurd hlt (Nat.not_lt_zero i)

/-- Three items: the first is not stored, and `percolateDown(1)` copies the last one
    over the second. -/
theorem build_law_three :
    binaryHeapOf 10 [3, 1, 2] = some [3, 2, 2] ∧ ¬ BuildLaw [3, 1, 2] := by
  refine ⟨by decide, ?_⟩
  intro h
  exact absurd h.eq_nil (List.cons_ne_nil _ _)

end BinaryHeap
