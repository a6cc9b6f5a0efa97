import CppTest.MachineProofs
import Mathlib.Data.Multiset.AddSub
import Mathlib.Data.List.Perm.Basic
import Mathlib.Order.Bounds.Basic

/-! # The binary heap (`src/algs/cti/test_cti_heap.{h,cpp}`)

    `BinaryHeap<int>` keeps its elements in `array_[1 ..]`, with a zero in
    `array_[0]` that stops `insert` from walking past the root.

    * The model: `insert` and `percolateDown` as loops over an `int` index,
      `deleteMin` as the descent of the hole and the removal of the last cell.
    * What an `insert` of `x ≥ 0` does: `insert_spec`.
    * What a `deleteMin` does: `deleteMin_spec`.  It always answers the least
      element and removes one occurrence of it; but it drops the last element
      into the leaf where the hole ends and does not walk it UP again, so the heap
      order survives exactly when the last element fits there (`LastFits`).
    * The runs: `heap_run_law` and its failing run. -/

namespace BinaryHeap

open Machine

/-! ## The model -/

/-- `BinaryHeap( int capacity )`: `array_.reserve(capacity)` throws on a negative
    capacity, and `array_.push_back(0)` puts the zero in front. -/
def binaryHeap (capacity : Int) : Option (List Int) :=
  if 0 ≤ capacity then some [0] else none

/-- `isEmpty`. -/
def isEmpty (array : List Int) : Bool := array.length ≤ 1

/-- One pass of the loop of `insert`: `array_[i / 2] > x` moves the parent down. -/
def insertPass (x : Int) : List Int × Int → Option (Pass (List Int × Int) (List Int × Int))
  | (array, i) => do
      let up ← getAt array (i.tdiv 2)
      if up > x then
        let array ← setAt array i up
        some (.next (array, i.tdiv 2))
      else some (.done (array, i))

/-- `insert`. -/
def insert (fuel : Nat) (array : List Int) (x : Int) : Option (List Int) := do
  let array := array ++ [x]
  let (array, i) ← loop (insertPass x) fuel (array, wrap32 (array.length - 1))
  setAt array i x

/-- One pass of the loop of `percolateDown`.  The test compares the `int` index
    `2 * i + 1` with a `size_t`. -/
def percolateDownPass : List Int × Int → Option (Pass (List Int × Int) (List Int × Int))
  | (array, i) =>
      if wrap64 (wrap32 (2 * i + 1)) < array.length then do
        let left ← getAt array (wrap32 (2 * i))
        let right ← getAt array (wrap32 (2 * i + 1))
        if left < right then
          let array ← setAt array i left
          some (.next (array, wrap32 (i * 2)))
        else
          let array ← setAt array i right
          some (.next (array, wrap32 (i * 2 + 1)))
      else some (.done (array, i))

/-- `percolateDown`. -/
def percolateDown (fuel : Nat) (array : List Int) (i : Int) : Option (List Int) := do
  let (array, i) ← loop percolateDownPass fuel (array, i)
  let back ← array.getLast?
  setAt array i back

/-- `deleteMin( Comparable & minItem )`: the array and `minItem` after the call. -/
def deleteMin (fuel : Nat) (array : List Int) (minItem : Int) : Option (List Int × Int) :=
  if isEmpty array then some (array, minItem)
  else do
    let minItem ← getAt array 1
    let array ← percolateDown fuel array 1
    some (array.dropLast, minItem)

/-! ## Arrays as heaps -/

/-- `array_[i]`, for the statements. -/
def cell (array : List Int) (i : Nat) : Int := array.getD i 0

/-- The heap order, `array_[i/2] <= array_[i]` for every `i >= 2`. -/
def HeapOrder (array : List Int) : Prop :=
  ∀ i, 2 ≤ i → i < array.length → cell array (i / 2) ≤ cell array i

/-- The stored elements, `array_[1 ..]`. -/
def contents (array : List Int) : Multiset Int := ↑array.tail

/-- An ordered heap with the zero in front. -/
structure Heap (array : List Int) : Prop where
  sentinel : array.head? = some 0
  order : HeapOrder array

theorem getAt_cell {array : List Int} {i : Nat} (h : i < array.length) :
    getAt array (i : Int) = some (cell array i) := by
  simp [cell, h]

@[simp] theorem cell_set_self {array : List Int} {i : Nat} (v : Int) (h : i < array.length) :
    cell (array.set i v) i = v := by
  simp [cell, h]

@[simp] theorem cell_set_of_ne {array : List Int} {i j : Nat} (v : Int) (h : i ≠ j) :
    cell (array.set i v) j = cell array j := by
  simp [cell, h]

/-- Overwriting a cell exchanges one stored element for another. -/
theorem contents_set {array : List Int} {i : Nat} (v : Int) (hpos : 1 ≤ i)
    (hlt : i < array.length) :
    cell array i ::ₘ contents (array.set i v) = v ::ₘ contents array := by
  obtain ⟨k, rfl⟩ : ∃ k, i = k + 1 := ⟨i - 1, by omega⟩
  cases array with
  | nil => simp at hlt
  | cons s l =>
      have hk : k < l.length := by simpa using hlt
      have hset := List.set_perm_cons_eraseIdx hk v
      have hold := List.getElem_cons_eraseIdx_perm hk
      have hperm : (l[k] :: l.set k v).Perm (v :: l) :=
        (hset.cons _).trans ((List.Perm.swap ..).trans (hold.cons _))
      simpa [contents, cell, hk] using Multiset.coe_eq_coe.mpr hperm

/-- The root of an ordered heap is a least element. -/
theorem HeapOrder.root_le {array : List Int} (h : HeapOrder array) :
    ∀ i, 1 ≤ i → i < array.length → cell array 1 ≤ cell array i := by
  intro i
  induction i using Nat.strongRecOn with
  | ind i ih =>
      intro hpos hlt
      by_cases hone : i = 1
      · rw [hone]
      · exact (ih (i / 2) (by omega) (by omega) (by omega)).trans (h i (by omega) hlt)

theorem mem_contents {array : List Int} {x : Int} :
    x ∈ contents array ↔ ∃ i, 1 ≤ i ∧ i < array.length ∧ cell array i = x := by
  cases array with
  | nil => simp [contents]
  | cons s l =>
      simp only [contents, List.tail_cons, Multiset.mem_coe, List.mem_iff_getElem]
      constructor
      · rintro ⟨k, hk, rfl⟩
        exact ⟨k + 1, by omega, by simpa using hk, by simp [cell, hk]⟩
      · rintro ⟨i, hpos, hlt, rfl⟩
        obtain ⟨k, rfl⟩ : ∃ k, i = k + 1 := ⟨i - 1, by omega⟩
        have hk : k < l.length := by simpa using hlt
        exact ⟨k, hk, by simp [cell, hk]⟩

theorem HeapOrder.isLeast {array : List Int} (h : HeapOrder array) (hne : 1 < array.length) :
    IsLeast {x | x ∈ contents array} (cell array 1) := by
  constructor
  · exact mem_contents.mpr ⟨1, le_refl 1, hne, rfl⟩
  · rintro x hx
    obtain ⟨i, hpos, hlt, rfl⟩ := mem_contents.mp hx
    exact h.root_le i hpos hlt

/-! ## `insert` -/

/-- The loop of `insert` at index `i`: the array without the pair above `i` is in
    order, `x` and the cell above `i` are at most the cells below `i`, and the stored
    elements are the old ones and the one that `i` holds. -/
structure Rising (x : Int) (n : Nat) (base : Multiset Int) (array : List Int) (i : Nat) : Prop where
  sentinel : array.head? = some 0
  length : array.length = n
  pos : 1 ≤ i
  lt : i < n
  order : ∀ j, 2 ≤ j → j < n → j ≠ i → cell array (j / 2) ≤ cell array j
  below : ∀ j, j / 2 = i → j < n → x ≤ cell array j ∧ (2 ≤ i → cell array (i / 2) ≤ cell array j)
  held : contents array = cell array i ::ₘ base

theorem cell_zero {array : List Int} (h : array.head? = some 0) : cell array 0 = 0 := by
  cases array with
  | nil => rfl
  | cons s l => simpa [cell] using h

theorem head?_set_pos {array : List Int} {i : Nat} (v : Int) (hpos : 1 ≤ i) :
    (array.set i v).head? = array.head? := by
  obtain ⟨k, rfl⟩ : ∃ k, i = k + 1 := ⟨i - 1, by omega⟩
  cases array <;> rfl

/-- Appending `x` opens the loop. -/
theorem Heap.rising {array : List Int} (h : Heap array) (x : Int) :
    Rising x (array.length + 1) (contents array) (array ++ [x]) array.length := by
  obtain ⟨s, l, rfl⟩ : ∃ s l, array = s :: l := by
    cases array with
    | nil => exact nomatch h.sentinel
    | cons s l => exact ⟨s, l, rfl⟩
  have hkeep : ∀ j, j < (s :: l).length → cell (s :: l ++ [x]) j = cell (s :: l) j := by
    intro j hj
    simp only [cell, List.getD_eq_getElem?_getD, List.getElem?_append_left hj]
  constructor
  · simpa using h.sentinel
  · simp
  · simp
  · exact Nat.lt_succ_self _
  · intro j hj hlt hne
    rw [hkeep j (by omega), hkeep (j / 2) (by omega)]
    exact h.order j hj (by omega)
  · intro j hj hlt
    simp only [List.length_cons] at hj hlt
    omega
  · have hlast : cell (s :: l ++ [x]) (s :: l).length = x := by simp [cell]
    rw [hlast]
    simp only [contents, List.cons_append, List.tail_cons]
    exact Multiset.coe_eq_coe.mpr (List.perm_append_singleton x l)

/-- Moving the parent down keeps the loop's invariant. -/
theorem Rising.up {x : Int} {n : Nat} {base : Multiset Int} {array : List Int} {i : Nat}
    (h : Rising x n base array i) (hi : 2 ≤ i) (hgt : cell array (i / 2) > x) :
    Rising x n base (array.set i (cell array (i / 2))) (i / 2) := by
  have hlt : i < array.length := h.length ▸ h.lt
  have hne : i ≠ i / 2 := by omega
  have hlt' := h.lt
  constructor
  · rw [head?_set_pos _ h.pos]
    exact h.sentinel
  · simpa using h.length
  · omega
  · omega
  · intro j hj hjn hjne
    by_cases hji : j = i
    · subst hji
      simp [hlt, hne]
    · rw [cell_set_of_ne _ (Ne.symm hji)]
      by_cases hup : j / 2 = i
      · rw [hup, cell_set_self _ hlt]
        exact (h.below j hup hjn).2 hi
      · rw [cell_set_of_ne _ (Ne.symm hup)]
        exact h.order j hj hjn hji
  · intro j hj hjn
    -- the cells below the new index hold at least what the new index holds
    have hge : cell array (i / 2) ≤ cell (array.set i (cell array (i / 2))) j := by
      by_cases hji : j = i
      · subst hji
        simp [hlt]
      · rw [cell_set_of_ne _ (Ne.symm hji), ← hj]
        exact h.order j (by omega) hjn hji
    refine ⟨(le_of_lt hgt).trans hge, ?_⟩
    intro hi'
    rw [cell_set_of_ne _ (by omega)]
    exact (h.order (i / 2) hi' (by omega) (Ne.symm hne)).trans hge
  · have hset := contents_set (cell array (i / 2)) h.pos hlt
    rw [h.held, Multiset.cons_swap, Multiset.cons_inj_right] at hset
    rw [hset, cell_set_of_ne _ hne]

/-- Leaving the loop, `x` fits in the cell the index points to. -/
theorem Rising.place {x : Int} {n : Nat} {base : Multiset Int} {array : List Int} {i : Nat}
    (h : Rising x n base array i) (hle : cell array (i / 2) ≤ x) :
    Heap (array.set i x) ∧ contents (array.set i x) = x ::ₘ base := by
  have hlt : i < array.length := h.length ▸ h.lt
  refine ⟨⟨?_, ?_⟩, ?_⟩
  · rw [head?_set_pos _ h.pos]
    exact h.sentinel
  · intro j hj hjn
    rw [List.length_set, h.length] at hjn
    by_cases hji : j = i
    · subst hji
      rw [cell_set_self _ hlt, cell_set_of_ne _ (by omega)]
      exact hle
    · rw [cell_set_of_ne _ (Ne.symm hji)]
      by_cases hup : j / 2 = i
      · rw [hup, cell_set_self _ hlt]
        exact (h.below j hup hjn).1
      · rw [cell_set_of_ne _ (Ne.symm hup)]
        exact h.order j hj hjn hji
  · have hset := contents_set x h.pos hlt
    rw [h.held, Multiset.cons_swap, Multiset.cons_inj_right] at hset
    exact hset

/-- A pass of the loop moves a larger parent down, or has found the place of `x`. -/
theorem insertPass_spec {x : Int} (hx : 0 ≤ x) (n : Nat) (base : Multiset Int) :
    ∀ (k : Nat) (s : List Int × Int), (s.2 = k ∧ Rising x n base s.1 k) →
      (∃ r, insertPass x s = some (.done r)
        ∧ ∃ j : Nat, r.2 = j ∧ Rising x n base r.1 j ∧ cell r.1 (j / 2) ≤ x) ∨
      (∃ s' k', insertPass x s = some (.next s') ∧ k' < k ∧ s'.2 = (k' : Int)
        ∧ Rising x n base s'.1 k') := by
  rintro k ⟨b, j⟩ ⟨rfl, hr⟩
  have hlt := hr.lt
  have hpos := hr.pos
  have hk : k < b.length := hr.length ▸ hlt
  have hhalf : (k : Int).tdiv 2 = ((k / 2 : Nat) : Int) := (Int.ofNat_tdiv k 2).symm
  have hup : getAt b ((k / 2 : Nat) : Int) = some (cell b (k / 2)) := getAt_cell (by omega)
  by_cases hgt : cell b (k / 2) > x
  · -- the zero in front is not above `x`, so the index is not the root's
    have htwo : 2 ≤ k := by
      by_contra hone
      have hzero : k / 2 = 0 := by omega
      rw [hzero, cell_zero hr.sentinel] at hgt
      exact absurd hx (not_le.mpr hgt)
    refine Or.inr ⟨(b.set k (cell b (k / 2)), ((k / 2 : Nat) : Int)), k / 2, ?_, by omega, rfl,
      hr.up htwo hgt⟩
    simp only [insertPass, hhalf, hup, Option.bind_eq_bind, Option.bind_some, if_pos hgt,
      setAt_natCast _ _ hk]
  · refine Or.inl ⟨(b, (k : Int)), ?_, k, rfl, hr, not_lt.mp hgt⟩
    simp only [insertPass, hhalf, hup, Option.bind_eq_bind, Option.bind_some, if_neg hgt]

/-- The index of the new cell, as the code computes it. -/
theorem wrap32_last {array : List Int} (x : Int) (hroom : (array.length : Int) ≤ intMax) :
    wrap32 ((array ++ [x]).length - 1) = (array.length : Int) := by
  have hlen : (((array ++ [x]).length : Nat) : Int) - 1 = array.length := by simp
  rw [hlen]
  exact wrap32_eq (by omega) hroom

/-- **`insert` of a non-negative element** into an ordered heap that `int` can
    index returns an ordered heap with one more occurrence of it. -/
theorem insert_spec {array : List Int} (h : Heap array) {x : Int} (hx : 0 ≤ x)
    (hroom : (array.length : Int) ≤ intMax) :
    ∃ array', (∀ fuel, array.length < fuel → insert fuel array x = some array')
      ∧ Heap array' ∧ contents array' = x ::ₘ contents array
      ∧ array'.length = array.length + 1 := by
  obtain ⟨⟨b, j⟩, ⟨k, hj, hr, hle⟩, hloop⟩ :=
    loop_total (insertPass_spec hx (array.length + 1) (contents array)) array.length
      (array ++ [x], (array.length : Int)) ⟨rfl, h.rising x⟩
  obtain rfl : j = (k : Int) := hj
  obtain ⟨hheap, hheld⟩ := hr.place hle
  refine ⟨b.set k x, ?_, hheap, hheld, by simp [hr.length]⟩
  intro fuel hfuel
  simp only [insert, wrap32_last x hroom, hloop fuel hfuel, Option.bind_eq_bind, Option.bind_some]
  exact setAt_natCast _ _ (by rw [hr.length]; exact hr.lt)

/-! ## `deleteMin` -/

/-- Where the hole ends that starts at `i`: the end of the path of smaller children
    (the right one on a tie), in at most `fuel` moves. -/
def minLeaf : Nat → List Int → Nat → Nat
  | 0, _, i => i
  | fuel + 1, array, i =>
      if 2 * i + 1 < array.length then
        if cell array (2 * i) < cell array (2 * i + 1) then minLeaf fuel array (2 * i)
        else minLeaf fuel array (2 * i + 1)
      else i

/-- The last element of the array fits where the hole from the root ends: it is not
    smaller than the element found there. -/
def LastFits (array : List Int) : Prop :=
  cell array (minLeaf array.length array 1) ≤ cell array (array.length - 1)

/-- The hole of `percolateDown` at index `i`, in an array that was `old`: the
    array is in order, the cells from `i` on are the old ones, the cell above `i`
    holds what `i` held, and the stored elements are the old ones with the root
    exchanged for what `i` held.  At most `k` moves are left. -/
structure Sinking (old : List Int) (k : Nat) (array : List Int) (i : Nat) : Prop where
  sentinel : array.head? = some 0
  length : array.length = old.length
  pos : 1 ≤ i
  lt : i < old.length
  order : HeapOrder array
  keeps : ∀ j, i ≤ j → cell array j = cell old j
  moved : 2 ≤ i → cell array (i / 2) = cell old i
  held : cell old 1 ::ₘ contents array = cell old i ::ₘ contents old
  left : old.length ≤ i + k
  path : minLeaf k old i = minLeaf old.length old 1

theorem Heap.sinking {array : List Int} (h : Heap array) (hne : 1 < array.length) :
    Sinking array array.length array 1 where
  sentinel := h.sentinel
  length := rfl
  pos := le_refl 1
  lt := hne
  order := h.order
  keeps := fun _ _ => rfl
  moved := fun h => absurd h (by omega)
  held := rfl
  left := by omega
  path := rfl

/-- Moving the smaller child up keeps the invariant. -/
theorem Sinking.down {old : List Int} {k k' : Nat} {array : List Int} {i c : Nat}
    (h : Sinking old k array i) (hup : c / 2 = i) (hlt : c < old.length)
    (hmin : ∀ j, j / 2 = i → j < old.length → cell array c ≤ cell array j)
    (hleft : old.length ≤ c + k') (hpath : minLeaf k' old c = minLeaf k old i) :
    Sinking old k' (array.set i (cell array c)) c := by
  have hpos := h.pos
  have hi : i < array.length := h.length ▸ h.lt
  constructor
  · rw [head?_set_pos _ hpos]
    exact h.sentinel
  · simpa using h.length
  · omega
  · exact hlt
  · intro j hj hjn
    rw [List.length_set, h.length] at hjn
    by_cases hji : j = i
    · subst hji
      rw [cell_set_self _ hi, cell_set_of_ne _ (by omega)]
      have hc := h.order c (by omega) (by rw [h.length]; exact hlt)
      rw [hup] at hc
      exact (h.order j hj hi).trans hc
    · rw [cell_set_of_ne _ (Ne.symm hji)]
      by_cases hjup : j / 2 = i
      · rw [hjup, cell_set_self _ hi]
        exact hmin j hjup hjn
      · rw [cell_set_of_ne _ (Ne.symm hjup)]
        exact h.order j hj (by rw [h.length]; exact hjn)
  · intro j hj
    rw [cell_set_of_ne _ (by omega)]
    exact h.keeps j (by omega)
  · intro _
    rw [hup, cell_set_self _ hi]
    exact h.keeps c (by omega)
  · have hset := contents_set (cell array c) hpos hi
    rw [h.keeps i (le_refl i), h.keeps c (by omega)] at hset
    rw [h.keeps c (by omega), ← Multiset.cons_inj_right (cell old i), Multiset.cons_swap, hset,
      Multiset.cons_swap, h.held, Multiset.cons_swap]
  · exact hleft
  · exact hpath.trans h.path

/-- The loop test compares an `int` with a `size_t`, and is exact while the array
    has at most `2 ^ 31` cells. -/
theorem index_test {i n : Nat} (hi : i < n) (hn : (n : Int) ≤ intMax + 1) :
    wrap64 (wrap32 (2 * (i : Int) + 1)) < n ↔ 2 * i + 1 < n := by
  rw [intMax] at hn
  by_cases hfit : 2 * (i : Int) + 1 ≤ intMax
  · rw [wrap32_eq (by omega) hfit]
    rw [intMax] at hfit
    rw [wrap64_eq (by omega) (by omega)]
    omega
  · rw [intMax] at hfit
    have hneg : wrap32 (2 * (i : Int) + 1) = 2 * i + 1 - 2 ^ 32 := by
      rw [wrap32, Int.bmod_def]
      have hmod : (2 * (i : Int) + 1) % ((2 ^ 32 : Nat) : Int) = 2 * i + 1 :=
        Int.emod_eq_of_lt (by omega) (by omega)
      rw [hmod, if_neg (by omega)]
      norm_num
    have hwrap : wrap64 (wrap32 (2 * (i : Int) + 1)) = 2 * i + 1 - 2 ^ 32 + 2 ^ 64 := by
      rw [hneg, wrap64, ← Int.add_emod_right]
      exact Int.emod_eq_of_lt (by omega) (by omega)
    rw [hwrap]
    omega

/-- A pass of `percolateDown` moves the smaller child up, or stands at the end of
    the path. -/
theorem percolateDownPass_spec (old : List Int) (hn : (old.length : Int) ≤ intMax + 1) :
    ∀ (k : Nat) (s : List Int × Int), (∃ i : Nat, s.2 = i ∧ Sinking old k s.1 i) →
      (∃ r, percolateDownPass s = some (.done r)
        ∧ ∃ i k : Nat, r.2 = i ∧ Sinking old k r.1 i ∧ old.length ≤ 2 * i + 1) ∨
      (∃ s' k', percolateDownPass s = some (.next s') ∧ k' < k
        ∧ ∃ i : Nat, s'.2 = i ∧ Sinking old k' s'.1 i) := by
  rintro k ⟨b, j⟩ ⟨i, rfl, h⟩
  have hpos := h.pos
  have hlt := h.lt
  have hi : i < b.length := h.length ▸ hlt
  have hleft := h.left
  have htest := index_test (n := b.length) hi (by rw [h.length]; exact hn)
  by_cases hmore : 2 * i + 1 < b.length
  · obtain ⟨k', rfl⟩ : ∃ k', k = k' + 1 := ⟨k - 1, by omega⟩
    have hmore' : 2 * i + 1 < old.length := h.length ▸ hmore
    have hl : wrap32 (2 * (i : Int)) = ((2 * i : Nat) : Int) := by
      rw [wrap32_eq (by omega) (by omega)]
      omega
    have hr : wrap32 (2 * (i : Int) + 1) = ((2 * i + 1 : Nat) : Int) := by
      rw [wrap32_eq (by omega) (by omega)]
      omega
    have hread := h.keeps (2 * i) (by omega)
    have hread' := h.keeps (2 * i + 1) (by omega)
    have hrun : percolateDownPass (b, (i : Int)) =
        if cell b (2 * i) < cell b (2 * i + 1)
        then some (.next (b.set i (cell b (2 * i)), ((2 * i : Nat) : Int)))
        else some (.next (b.set i (cell b (2 * i + 1)), ((2 * i + 1 : Nat) : Int))) := by
      rw [percolateDownPass, if_pos (htest.mpr hmore)]
      rw [mul_comm (i : Int) 2, hl, hr, getAt_cell (by omega), getAt_cell hmore]
      simp only [Option.bind_eq_bind, Option.bind_some, setAt_natCast _ _ hi]
    by_cases hsmall : cell b (2 * i) < cell b (2 * i + 1)
    · rw [if_pos hsmall] at hrun
      refine Or.inr ⟨_, k', hrun, by omega, 2 * i, rfl, ?_⟩
      refine h.down (by omega) (by omega) ?_ (by omega) ?_
      · intro j hj hjn
        obtain rfl | rfl : j = 2 * i ∨ j = 2 * i + 1 := by omega
        · exact le_refl _
        · exact le_of_lt hsmall
      · rw [hread, hread'] at hsmall
        simp only [minLeaf, if_pos hmore', if_pos hsmall]
    · rw [if_neg hsmall] at hrun
      refine Or.inr ⟨_, k', hrun, by omega, 2 * i + 1, rfl, ?_⟩
      refine h.down (by omega) (by omega) ?_ (by omega) ?_
      · intro j hj hjn
        obtain rfl | rfl : j = 2 * i ∨ j = 2 * i + 1 := by omega
        · exact not_lt.mp hsmall
        · exact le_refl _
      · rw [hread, hread'] at hsmall
        simp only [minLeaf, if_pos hmore', if_neg hsmall]
  · refine Or.inl ⟨(b, (i : Int)), ?_, i, k, rfl, h, by rw [h.length] at hmore; omega⟩
    rw [percolateDownPass, if_neg (fun hc => hmore (htest.mp hc))]

theorem getLast?_cell {array : List Int} (hne : 1 < array.length) :
    array.getLast? = some (cell array (array.length - 1)) := by
  have hlt : array.length - 1 < array.length := by omega
  simp [List.getLast?_eq_getElem?, cell, hlt]

theorem cell_dropLast {array : List Int} {j : Nat} (hj : j < array.length - 1) :
    cell array.dropLast j = cell array j := by
  have hlt : j < array.length := by omega
  simp [cell, hj, hlt]

theorem contents_dropLast {array : List Int} (hne : 1 < array.length) :
    cell array (array.length - 1) ::ₘ contents array.dropLast = contents array := by
  have hnil : array.tail ≠ [] := by
    intro h
    have := congrArg List.length h
    simp only [List.length_tail, List.length_nil] at this
    omega
  have hlast : array.tail.getLast hnil = cell array (array.length - 1) := by
    rw [List.getLast_tail]
    have := getLast?_cell hne
    rw [List.getLast?_eq_some_getLast (List.ne_nil_of_length_pos (by omega))] at this
    exact Option.some.inj this
  have happend := List.dropLast_append_getLast hnil
  rw [hlast, ← List.tail_dropLast] at happend
  have hperm := (List.perm_append_singleton (cell array (array.length - 1)) array.dropLast.tail)
  rw [happend] at hperm
  exact (Multiset.coe_eq_coe.mpr hperm).symm

section Finish

/-! The hole at the end of its path takes the last element, and the last cell goes. -/

variable {old : List Int} {k : Nat} {array : List Int} {i : Nat}

/-- The cells of the array that is left. -/
theorem Sinking.cell_finish (h : Sinking old k array i) {j : Nat} (hj : j < old.length - 1) :
    cell (array.set i (cell old (old.length - 1))).dropLast j
      = if j = i then cell old (old.length - 1) else cell array j := by
  have hi : i < array.length := h.length ▸ h.lt
  have hlen : (array.set i (cell old (old.length - 1))).length = old.length := by simp [h.length]
  rw [cell_dropLast (by rw [hlen]; exact hj)]
  split
  · next hji => rw [hji, cell_set_self _ hi]
  · next hji => rw [cell_set_of_ne _ (Ne.symm hji)]

/-- The root's element is gone, and no other. -/
theorem Sinking.contents_finish (h : Sinking old k array i) (hne : 1 < old.length) :
    cell old 1 ::ₘ contents (array.set i (cell old (old.length - 1))).dropLast = contents old := by
  have hlt := h.lt
  have hi : i < array.length := h.length ▸ hlt
  have hlen : (array.set i (cell old (old.length - 1))).length = old.length := by simp [h.length]
  have hlast : cell (array.set i (cell old (old.length - 1))) (old.length - 1)
      = cell old (old.length - 1) := by
    by_cases hil : i = old.length - 1
    · rw [← hil, cell_set_self _ hi]
    · rw [cell_set_of_ne _ hil]
      exact h.keeps _ (by omega)
  -- the last element is counted twice once it is in the hole, then the last cell goes
  have hset := contents_set (cell old (old.length - 1)) h.pos hi
  have hdrop := contents_dropLast
    (show 1 < (array.set i (cell old (old.length - 1))).length by rw [hlen]; exact hne)
  rw [hlen, hlast] at hdrop
  rw [h.keeps i (le_refl i), ← hdrop, Multiset.cons_swap, Multiset.cons_inj_right] at hset
  rw [← Multiset.cons_inj_right (cell old i), Multiset.cons_swap, hset, h.held]

/-- At a leaf the path of smaller children ends. -/
theorem Sinking.lastFits_iff (h : Sinking old k array i) (hleaf : old.length ≤ 2 * i + 1) :
    LastFits old ↔ cell old i ≤ cell old (old.length - 1) := by
  have hend : minLeaf k old i = i := by
    cases k with
    | zero => rfl
    | succ k => exact if_neg (by omega)
  rw [LastFits, ← h.path, hend]

/-- The order is kept exactly when the last element fits. -/
theorem Sinking.order_finish (h : Sinking old k array i) (hleaf : old.length ≤ 2 * i + 1)
    (hold : HeapOrder old) :
    HeapOrder (array.set i (cell old (old.length - 1))).dropLast ↔ LastFits old := by
  have hpos := h.pos
  have hlt := h.lt
  rw [h.lastFits_iff hleaf]
  constructor
  · intro horder
    by_cases hlast : i = old.length - 1
    · rw [← hlast]
    · by_cases hone : i = 1
      · rw [hone]
        exact hold.root_le _ (by omega) (by omega)
      · have hpair := horder i (by omega) (by simp [h.length]; omega)
        rw [h.cell_finish (by omega), h.cell_finish (by omega), if_pos rfl, if_neg (by omega),
          h.moved (by omega)] at hpair
        exact hpair
  · intro hle j hj hjn
    have hjn' : j < old.length - 1 := by simpa [h.length] using hjn
    rw [h.cell_finish hjn', h.cell_finish (by omega)]
    -- nothing is left below the leaf
    rw [if_neg (by omega : ¬ j / 2 = i)]
    split
    · next hji =>
        rw [hji, h.moved (by omega)]
        exact hle
    · exact h.order j hj (by rw [h.length]; omega)

theorem Sinking.finish (h : Sinking old k array i) (hleaf : old.length ≤ 2 * i + 1)
    (hne : 1 < old.length) (hold : HeapOrder old) :
    let array' := (array.set i (cell old (old.length - 1))).dropLast
    array'.head? = some 0 ∧ array'.length = old.length - 1
      ∧ cell old 1 ::ₘ contents array' = contents old
      ∧ (HeapOrder array' ↔ LastFits old) := by
  intro array'
  refine ⟨?_, by simp [array', h.length], h.contents_finish hne, h.order_finish hleaf hold⟩
  have hhead := (head?_set_pos (cell old (old.length - 1)) h.pos).trans h.sentinel
  rw [← hhead]
  rw [List.head?_dropLast, if_pos (by simpa [h.length] using hne)]

end Finish

/-- **`deleteMin` on a non-empty ordered heap** answers its least element and
    removes one occurrence of it.  The heap order is kept exactly when the last
    element fits where the hole ends. -/
theorem deleteMin_spec {array : List Int} (h : Heap array) (hne : 1 < array.length)
    (hn : (array.length : Int) ≤ intMax + 1) (minItem : Int) :
    ∃ array', (∀ fuel, array.length < fuel →
        deleteMin fuel array minItem = some (array', cell array 1))
      ∧ array'.head? = some 0 ∧ array'.length = array.length - 1
      ∧ cell array 1 ::ₘ contents array' = contents array
      ∧ (HeapOrder array' ↔ LastFits array) := by
  obtain ⟨⟨b, j⟩, ⟨i, k, hj, hs, hleaf⟩, hloop⟩ :=
    loop_total (percolateDownPass_spec array hn) array.length (array, ((1 : Nat) : Int))
      ⟨1, rfl, h.sinking hne⟩
  obtain rfl : j = (i : Int) := hj
  refine ⟨_, ?_, hs.finish hleaf hne h.order⟩
  intro fuel hfuel
  have hlt := hs.lt
  have hback : b.getLast? = some (cell array (array.length - 1)) := by
    rw [getLast?_cell (by rw [hs.length]; exact hne), hs.length, hs.keeps _ (by omega)]
  have hroot : getAt array 1 = some (cell array 1) := getAt_cell (i := 1) hne
  have hfull : isEmpty array = false := by simpa [isEmpty] using hne
  have hrun : loop percolateDownPass fuel (array, 1) = some (b, (i : Int)) := hloop fuel hfuel
  have hset : setAt b (i : Int) (cell array (array.length - 1))
      = some (b.set i (cell array (array.length - 1))) :=
    setAt_natCast _ _ (by rw [hs.length]; exact hlt)
  simp only [deleteMin, hfull, Bool.false_eq_true, if_false, hroot, percolateDown, hrun,
    Option.bind_eq_bind, Option.bind_some, hback, hset]

/-! ## Runs -/

/-- A call on the heap.  `deleteMin` gets the caller's variable. -/
inductive Op where
  | insert (x : Int)
  | deleteMin (minItem : Int)
  deriving Repr, DecidableEq

/-- The law along a run from `array`, where `held` is the multiset of the elements
    inserted and not yet deleted: the array is in order and stores `held`; every
    call returns; a `deleteMin` on a non-empty heap answers a least element, and
    that occurrence is gone. -/
def RunLaw (fuel : Nat) : List Op → List Int → Multiset Int → Prop
  | [], array, held => HeapOrder array ∧ contents array = held
  | .insert x :: ops, array, held =>
      HeapOrder array ∧ contents array = held
      ∧ ∃ array', insert fuel array x = some array' ∧ RunLaw fuel ops array' (x ::ₘ held)
  | .deleteMin minItem :: ops, array, held =>
      HeapOrder array ∧ contents array = held
      ∧ ∃ array' m, deleteMin fuel array minItem = some (array', m)
          ∧ (held ≠ 0 → IsLeast {x | x ∈ held} m) ∧ RunLaw fuel ops array' (held.erase m)

/-- The run stays clear of the defect: every `insert` finds an array that `int` can
    index, and every `deleteMin` on a non-empty heap finds a last element that fits
    where the hole ends. -/
def RunFits (fuel : Nat) : List Op → List Int → Prop
  | [], _ => True
  | .insert x :: ops, array =>
      (array.length : Int) ≤ intMax
      ∧ ∀ array', insert fuel array x = some array' → RunFits fuel ops array'
  | .deleteMin minItem :: ops, array =>
      (1 < array.length → LastFits array)
      ∧ ∀ array' m, deleteMin fuel array minItem = some (array', m) → RunFits fuel ops array'

/-- What `deleteMin` leaves of an empty heap: everything. -/
theorem deleteMin_empty {array : List Int} (h : array.length ≤ 1) (fuel : Nat) (minItem : Int) :
    deleteMin fuel array minItem = some (array, minItem) :=
  if_pos (by simpa [isEmpty] using h)

theorem contents_eq_zero {array : List Int} : contents array = 0 ↔ array.length ≤ 1 := by
  rw [contents, Multiset.coe_eq_zero, ← List.length_eq_zero_iff, List.length_tail]
  omega

theorem run_law_of_fits (fuel : Nat) (ops : List Op) (hx : ∀ x, Op.insert x ∈ ops → 0 ≤ x) :
    ∀ array, Heap array → (array.length : Int) ≤ intMax + 1 → array.length + ops.length < fuel →
      RunFits fuel ops array → RunLaw fuel ops array (contents array) := by
  induction ops with
  | nil =>
      intro array h _ _ _
      exact ⟨h.order, rfl⟩
  | cons op ops ih =>
      intro array h hn hfuel hfits
      have hx' : ∀ x, Op.insert x ∈ ops → 0 ≤ x := fun x hm => hx x (List.mem_cons_of_mem _ hm)
      rw [List.length_cons] at hfuel
      cases op with
      | insert x =>
          obtain ⟨hroom, hrest⟩ := hfits
          obtain ⟨array', hrun, h', hheld, hlen⟩ :=
            insert_spec h (hx x (List.mem_cons_self ..)) hroom
          refine ⟨h.order, rfl, array', hrun fuel (by omega), ?_⟩
          rw [← hheld]
          exact ih hx' array' h' (by omega) (by omega) (hrest array' (hrun fuel (by omega)))
      | deleteMin minItem =>
          obtain ⟨hfit, hrest⟩ := hfits
          by_cases hne : 1 < array.length
          · obtain ⟨array', hrun, hsent, hlen, hheld, horder⟩ := deleteMin_spec h hne hn minItem
            have hrun' := hrun fuel (by omega)
            refine ⟨h.order, rfl, array', cell array 1, hrun', fun _ => h.order.isLeast hne, ?_⟩
            rw [← hheld, Multiset.erase_cons_head]
            exact ih hx' array' ⟨hsent, horder.mpr (hfit hne)⟩ (by omega) (by omega)
              (hrest array' _ hrun')
          · have hempty := deleteMin_empty (Nat.le_of_not_lt hne) fuel minItem
            have hzero := contents_eq_zero.mpr (Nat.le_of_not_lt hne)
            refine ⟨h.order, rfl, array, minItem, hempty, fun h0 => absurd hzero h0, ?_⟩
            have hkeep := ih hx' array h hn (by omega) (hrest array minItem hempty)
            rw [hzero] at hkeep ⊢
            exact hkeep

theorem fits_of_run_law (fuel : Nat) (ops : List Op) (hx : ∀ x, Op.insert x ∈ ops → 0 ≤ x) :
    ∀ array held, Heap array → (array.length : Int) + ops.length ≤ intMax + 1 →
      array.length + ops.length < fuel → RunLaw fuel ops array held → RunFits fuel ops array := by
  induction ops with
  | nil =>
      intro array held _ _ _ _
      trivial
  | cons op ops ih =>
      intro array held h hn hfuel hlaw
      have hx' : ∀ x, Op.insert x ∈ ops → 0 ≤ x := fun x hm => hx x (List.mem_cons_of_mem _ hm)
      rw [List.length_cons] at hfuel hn
      cases op with
      | insert x =>
          obtain ⟨-, -, array', hrun, hrest⟩ := hlaw
          have hroom : (array.length : Int) ≤ intMax := by omega
          obtain ⟨array'', hrun', h', -, hlen⟩ :=
            insert_spec h (hx x (List.mem_cons_self ..)) hroom
          rw [hrun' fuel (by omega)] at hrun
          obtain rfl := Option.some.inj hrun
          refine ⟨hroom, ?_⟩
          intro array' heq
          rw [hrun' fuel (by omega)] at heq
          obtain rfl := Option.some.inj heq
          exact ih hx' _ _ h' (by omega) (by omega) hrest
      | deleteMin minItem =>
          obtain ⟨-, -, array', m, hrun, -, hrest⟩ := hlaw
          have horder' : HeapOrder array' := by
            cases ops with
            | nil => exact hrest.1
            | cons op ops => cases op <;> exact hrest.1
          by_cases hne : 1 < array.length
          · obtain ⟨array'', hrun', hsent, hlen, -, horder⟩ :=
              deleteMin_spec h hne (by omega) minItem
            rw [hrun' fuel (by omega)] at hrun
            obtain ⟨rfl, rfl⟩ := Prod.mk.inj (Option.some.inj hrun)
            refine ⟨fun _ => horder.mp horder', ?_⟩
            intro array' m heq
            rw [hrun' fuel (by omega)] at heq
            obtain ⟨rfl, rfl⟩ := Prod.mk.inj (Option.some.inj heq)
            exact ih hx' _ _ ⟨hsent, horder'⟩ (by omega) (by omega) hrest
          · have hempty := deleteMin_empty (Nat.le_of_not_lt hne) fuel minItem
            rw [hempty] at hrun
            obtain ⟨rfl, rfl⟩ := Prod.mk.inj (Option.some.inj hrun)
            refine ⟨fun h1 => absurd h1 hne, ?_⟩
            intro array' m heq
            rw [hempty] at heq
            obtain ⟨rfl, rfl⟩ := Prod.mk.inj (Option.some.inj heq)
            exact ih hx' _ _ h (by omega) (by omega) hrest

/-- The heap a constructor returns is ordered and empty. -/
theorem binaryHeap_spec {capacity : Int} {array : List Int} (h : binaryHeap capacity = some array) :
    array = [0] ∧ Heap array := by
  rw [binaryHeap] at h
  split at h
  · obtain rfl := Option.some.inj h
    refine ⟨rfl, rfl, ?_⟩
    intro i hi hlt
    simp only [List.length_cons, List.length_nil] at hlt
    omega
  · exact nomatch h

/-- **The priority-queue law, where it holds.**  Every run of `insert` (of `x ≥ 0`)
    and `deleteMin` calls that stays clear of the defect obeys the law in every state;
    and a run short enough for its array to be indexed by `int` obeys it ONLY so. -/
theorem heap_run_law {capacity : Int} {array : List Int} (h : binaryHeap capacity = some array)
    (ops : List Op) (hx : ∀ x, Op.insert x ∈ ops → 0 ≤ x) (fuel : Nat)
    (hfuel : ops.length + 1 < fuel) :
    (RunFits fuel ops array → RunLaw fuel ops array 0)
    ∧ ((ops.length : Int) ≤ intMax → RunLaw fuel ops array 0 → RunFits fuel ops array) := by
  obtain ⟨rfl, hheap⟩ := binaryHeap_spec h
  constructor
  · intro hfits
    exact run_law_of_fits fuel ops hx [0] hheap (by decide) (by simp; omega) hfits
  · intro hlen hlaw
    refine fits_of_run_law fuel ops hx [0] 0 hheap ?_ (by simp; omega) hlaw
    simp only [List.length_cons, List.length_nil]
    omega

theorem heap_run_law_pair :
    RunLaw 10 [.insert 3, .insert 1, .deleteMin 0] [0] 0 := by
  refine (@heap_run_law 100 [0] rfl [.insert 3, .insert 1, .deleteMin 0] ?_ 10 (by decide)).1 ?_
  · intro x hm
    simp only [List.mem_cons, Op.insert.injEq, reduceCtorEq, List.not_mem_nil, or_false] at hm
    omega
  · refine ⟨by decide, fun array h => ?_⟩
    obtain rfl : [0, 3] = array := Option.some.inj h
    refine ⟨by decide, fun array h => ?_⟩
    obtain rfl : [0, 1, 3] = array := Option.some.inj h
    exact ⟨fun _ => by unfold LastFits; decide, fun _ _ _ => trivial⟩

/-- The array after a run. -/
def runArray (fuel : Nat) : List Op → List Int → Option (List Int)
  | [], array => some array
  | .insert x :: ops, array => do runArray fuel ops (← insert fuel array x)
  | .deleteMin minItem :: ops, array => do
      runArray fuel ops (← deleteMin fuel array minItem).1

/-- The law along a run puts the last array in order. -/
theorem RunLaw.order {fuel : Nat} {ops : List Op} :
    ∀ {array array' : List Int} {held : Multiset Int}, RunLaw fuel ops array held →
      runArray fuel ops array = some array' → HeapOrder array' := by
  induction ops with
  | nil =>
      intro array array' held h hrun
      obtain rfl := Option.some.inj hrun
      exact h.1
  | cons op ops ih =>
      intro array array' held h hrun
      cases op with
      | insert x =>
          obtain ⟨-, -, b, hcall, hrest⟩ := h
          simp only [runArray, hcall, Option.bind_eq_bind, Option.bind_some] at hrun
          exact ih hrest hrun
      | deleteMin minItem =>
          obtain ⟨-, -, b, m, hcall, -, hrest⟩ := h
          simp only [runArray, hcall, Option.bind_eq_bind, Option.bind_some] at hrun
          exact ih hrest hrun

/-- The run that fails: six inserts and a `deleteMin` leave 10 above 6, and the fourth
    `deleteMin` then answers 10 while 6 is still stored. -/
theorem heap_run_breaks_order :
    ¬ RunLaw 20 [.insert 1, .insert 2, .insert 5, .insert 10, .insert 11, .insert 6,
        .deleteMin 0] [0] 0
    ∧ (runArray 20 [.insert 1, .insert 2, .insert 5, .insert 10, .insert 11, .insert 6,
          .deleteMin 0, .deleteMin 0, .deleteMin 0] [0]).bind (fun array => deleteMin 20 array 0)
        = some ([0, 6, 11], 10) := by
  constructor
  · intro hlaw
    have hrun : runArray 20 [.insert 1, .insert 2, .insert 5, .insert 10, .insert 11, .insert 6,
        .deleteMin 0] [0] = some [0, 2, 10, 5, 6, 11] := by decide
    exact absurd (hlaw.order hrun 4 (by decide) (by decide)) (by decide)
  · decide

end BinaryHeap
