import CppTest.SortingProofs

/-! # The heap sort of `test_cti_heap.cpp`

    `max_heapify` takes `2 * i` and `2 * i + 1` for the children of node `i` of an array
    that begins at index 0.  So node 0 has one child, node 1, and from there on the nodes
    make a binary tree; node `c` hangs under node `c / 2`.  `build_max_heap` starts at node
    `size / 2 - 1`.  Of an array with an odd number of elements the node `size / 2` has a
    child too, the last element, and is passed over.

    * `maxHeapify_spec` — a sift returns, permutes the first `size` cells and repairs the
      order below its node; a cell goes up one level at most.
    * `heap_sort_sorts` — the sort returns with a permutation for every array; it is
      sorted where the node passed over is in order, and is not sorted where the last of
      an odd number of elements is above all others.
    * `heap_sort_sizes` — all arrays of a size are sorted if and only if the size is even
      or 1. -/

namespace CtiHeap

open Machine Sorting

variable {α : Type} [LinearOrder α]

/-! ## The program -/

/-- One test of `max_heapify`: the child `c`, when it is there and above `largest`. -/
def larger (a : List α) (size c largest : Int) : Option Int :=
  if c < size then do
    let x ← getAt a c
    let y ← getAt a largest
    some (if y < x then c else largest)
  else some largest

/-- `max_heapify(a, size, i)`: the recursion on fuel. -/
def maxHeapify : Nat → List α → Int → Int → Option (List α)
  | 0, _, _, _ => none
  | fuel + 1, a, size, i => do
      let largest ← larger a size (2 * i) i
      let largest ← larger a size (2 * i + 1) largest
      if largest ≠ i then
        let a ← swapAt a largest i
        maxHeapify fuel a size largest
      else some a

/-- The loop of `build_max_heap`; its second argument is `i + 1`, the number of passes
    that are left. -/
def buildLoop (fuel : Nat) (size : Int) : Nat → List α → Option (List α)
  | 0, a => some a
  | i + 1, a => do
      let a ← maxHeapify fuel a size i
      buildLoop fuel size i a

/-- `build_max_heap(a, size)`. -/
def buildMaxHeap (fuel : Nat) (a : List α) (size : Int) : Option (List α) :=
  buildLoop fuel size (size / 2).toNat a

/-- The loop of `heap_sort`; its first argument is `i`, the number of passes that are
    left. -/
def sortLoop (fuel : Nat) : Nat → List α → Int → Option (List α)
  | 0, a, _ => some a
  | i + 1, a, size => do
      let a ← swapAt a ((i + 1 : Nat) : Int) 0
      let a ← maxHeapify fuel a (size - 1) 0
      sortLoop fuel i a (size - 1)

/-- `heap_sort(a, size)`. -/
def heapSort (fuel : Nat) (a : List α) (size : Int) : Option (List α) := do
  let a ← buildMaxHeap fuel a size
  sortLoop fuel (size - 1).toNat a size

/-! ## One call of `max_heapify` -/

theorem larger_spec {a : List α} {size c m : Nat} (hsize : size ≤ a.length) (hm : m < a.length) :
    ∃ m' : Nat, larger a size c m = some (m' : Int) ∧ (m' = m ∨ m' = c ∧ c < size) ∧
      CellLe a m m' ∧ (c < size → CellLe a c m') := by
  by_cases hc : c < size
  · have hx : a[c]? = some a[c] := List.getElem?_eq_getElem (by omega)
    have hy : a[m]? = some a[m] := List.getElem?_eq_getElem hm
    have hrun : larger a size c m = some (if a[m] < a[c] then (c : Int) else m) := by
      rw [larger, if_pos (by omega), getAt_natCast, getAt_natCast, hx, hy]
      rfl
    rw [hrun]
    by_cases hlt : a[m] < a[c]
    · rw [if_pos hlt]
      exact ⟨c, rfl, .inr ⟨rfl, hc⟩, ⟨_, _, hy, hx, le_of_lt hlt⟩,
        fun _ => CellLe.refl (by omega)⟩
    · rw [if_neg hlt]
      exact ⟨m, rfl, .inl rfl, CellLe.refl hm, fun _ => ⟨_, _, hx, hy, not_lt.mp hlt⟩⟩
  · refine ⟨m, ?_, .inl rfl, CellLe.refl hm, fun h => absurd h hc⟩
    rw [larger, if_neg (by omega)]

/-- What a call does: no child is above node `i` and it returns, or the largest child
    `l` is exchanged with the node and the call goes on there. -/
theorem maxHeapify_cases {a : List α} {size i : Nat} (hsize : size ≤ a.length) (hi : i < size) :
    ((∀ fuel, maxHeapify (fuel + 1) a size i = some a) ∧
      ∀ c, 0 < c → c < size → c / 2 = i → CellLe a c i) ∨
    (∃ (l : Nat) (a' : List α),
      (∀ fuel, maxHeapify (fuel + 1) a size i = maxHeapify fuel a' size l) ∧
      i < l ∧ l < size ∧ l / 2 = i ∧ Exchanged a a' l i ∧ CellLe a i l ∧
      ∀ c, 0 < c → c < size → c / 2 = i → CellLe a c l) := by
  obtain ⟨m, hm, hmc, him, hleft⟩ := larger_spec (c := 2 * i) hsize (m := i) (by omega)
  have hmsize : m < size := by rcases hmc with rfl | ⟨rfl, h⟩ <;> omega
  obtain ⟨l, hl, hlc, hml, hright⟩ := larger_spec (c := 2 * i + 1) hsize (m := m) (by omega)
  have hlsize : l < size := by rcases hlc with rfl | ⟨rfl, h⟩ <;> omega
  have hchild : ∀ c, 0 < c → c < size → c / 2 = i → CellLe a c l := by
    intro c hpos hc hci
    rcases (by omega : c = 2 * i ∨ c = 2 * i + 1) with rfl | rfl
    · exact (hleft hc).trans hml
    · exact hright hc
  have hrun : ∀ fuel, maxHeapify (fuel + 1) a size i
      = if (l : Int) ≠ i then (swapAt a l i).bind fun a => maxHeapify fuel a size l
        else some a := by
    intro fuel
    rw [maxHeapify]
    rw [show (2 * i : Int) = ((2 * i : Nat) : Int) by omega, hm]
    show (larger a size (((2 * i : Nat) : Int) + 1) m).bind _ = _
    rw [show ((2 * i : Nat) : Int) + 1 = ((2 * i + 1 : Nat) : Int) by omega, hl]
    rfl
  by_cases hli : l = i
  · left
    refine ⟨fun fuel => ?_, by rwa [hli] at hchild⟩
    rw [hrun fuel, if_neg (by omega)]
  · right
    have hil : i < l ∧ l / 2 = i := by
      rcases hmc with rfl | ⟨rfl, -⟩ <;> rcases hlc with rfl | ⟨rfl, -⟩ <;> omega
    obtain ⟨a', hswap, hex⟩ := swapAt_spec (l := a) (i := l) (j := i) (by omega) (by omega)
    refine ⟨l, a', fun fuel => ?_, hil.1, hlsize, hil.2, hex, him.trans hml, hchild⟩
    rw [hrun fuel, if_pos (by omega), hswap, Option.bind_some]

/-! ## The sift -/

/-- From node `s` on no node is below a child of it. -/
def HeapFrom (a : List α) (size s : Nat) : Prop :=
  ∀ c, 0 < c → c < size → s ≤ c / 2 → CellLe a c (c / 2)

/-- The same except at node `i`, whose children are not above the parent of `i` either. -/
structure Sifting (a : List α) (size s i : Nat) : Prop where
  others : ∀ c, 0 < c → c < size → s ≤ c / 2 → c / 2 ≠ i → CellLe a c (c / 2)
  above : ∀ c, 0 < c → c < size → c / 2 = i → 0 < i → s ≤ i / 2 → CellLe a c (i / 2)

/-- The largest child goes up and the hole goes down. -/
theorem Sifting.down {a a' : List α} {size s i l : Nat} (h : Sifting a size s i) (hil : i < l)
    (hl : l < size) (hli : l / 2 = i) (hex : Exchanged a a' l i) (hle : CellLe a i l)
    (hchild : ∀ c, 0 < c → c < size → c / 2 = i → CellLe a c l) : Sifting a' size s l := by
  constructor
  · intro c hpos hc hs hcl
    by_cases hci : c / 2 = i
    · rw [hci]
      by_cases hcl' : c = l
      · rw [hcl']
        exact hle.congr hex.fst hex.snd
      · exact (hchild c hpos hc hci).congr (hex.other c hcl' (by omega)) hex.snd
    · by_cases hi : c = i
      · rw [hi] at hpos hs ⊢
        exact (h.above l (by omega) hl hli hpos hs).congr hex.snd
          (hex.other (i / 2) (by omega) (by omega))
      · exact (h.others c hpos hc hs hci).congr (hex.other c (by omega) hi)
          (hex.other (c / 2) hcl hci)
  · intro c hpos hc hcl hl0 hs
    rw [hli] at hs ⊢
    have hcl' := h.others c hpos hc (by omega) (by omega)
    rw [hcl] at hcl'
    exact hcl'.congr (hex.other c (by omega) (by omega)) hex.snd

theorem Sifting.finish {a : List α} {size s i : Nat} (h : Sifting a size s i)
    (hchild : ∀ c, 0 < c → c < size → c / 2 = i → CellLe a c i) : HeapFrom a size s := by
  intro c hpos hc hs
  by_cases hci : c / 2 = i
  · rw [hci]
    exact hchild c hpos hc hci
  · exact h.others c hpos hc hs hci

/-- What a sift at node `i` of the first `size` cells does. -/
structure Sifted (a a' : List α) (size i : Nat) : Prop where
  perm : a'.Perm a
  outside : ∀ d, size ≤ d → a'[d]? = a[d]?
  inside : ∀ c, c < size → ∃ c', c' < size ∧ a'[c]? = a[c']?
  /-- A cell other than `i` stays or goes up one level, to a node on the way. -/
  lifts : ∀ w, w ≠ i → ∃ w', (w' = w ∨ w' = w / 2 ∧ (w / 2 = i ∨ i ≤ w / 2 / 2)) ∧
    a'[w']? = a[w]?
  heap : ∀ s, Sifting a size s i → HeapFrom a' size s

/-- The exchange with the largest child, before the sift at that child. -/
theorem Sifted.down {a a' b : List α} {size i l : Nat} (h : Sifted a' b size l) (hil : i < l)
    (hl : l < size) (hli : l / 2 = i) (hex : Exchanged a a' l i) (hle : CellLe a i l)
    (hchild : ∀ c, 0 < c → c < size → c / 2 = i → CellLe a c l) : Sifted a b size i := by
  refine ⟨h.perm.trans hex.perm, ?_, ?_, ?_, ?_⟩
  · intro d hd
    rw [h.outside d hd]
    exact hex.other d (by omega) (by omega)
  · intro c hc
    obtain ⟨c', hc', hcell⟩ := h.inside c hc
    by_cases hcl : c' = l
    · rw [hcl, hex.fst] at hcell
      exact ⟨i, by omega, hcell⟩
    · by_cases hci : c' = i
      · rw [hci, hex.snd] at hcell
        exact ⟨l, hl, hcell⟩
      · rw [hex.other c' hcl hci] at hcell
        exact ⟨c', hc', hcell⟩
  · intro w hw
    by_cases hwl : w = l
    · -- the largest child itself: it is at node `i` now, above the rest of the sift
      obtain ⟨w', hw', hcell⟩ := h.lifts i (by omega)
      rw [hex.snd] at hcell
      obtain rfl : w' = i := by omega
      exact ⟨w', .inr ⟨by omega, .inl (by omega)⟩, by rw [hcell, hwl]⟩
    · obtain ⟨w', hw', hcell⟩ := h.lifts w hwl
      rw [hex.other w hwl hw] at hcell
      exact ⟨w', by omega, hcell⟩
  · intro s hs
    exact h.heap s (hs.down hil hl hli hex hle hchild)

/-- A call returns, whatever the order of the array is. -/
theorem maxHeapify_spec {size : Nat} : ∀ (k : Nat) {i : Nat} {a : List α}, size - i ≤ k →
    i < size → size ≤ a.length →
    ∃ a', (∀ fuel, k < fuel → maxHeapify fuel a size i = some a') ∧ Sifted a a' size i := by
  intro k
  induction k with
  | zero => exact fun hk hi => absurd hi (by omega)
  | succ k ih =>
      intro i a hk hi hsize
      rcases maxHeapify_cases hsize hi with ⟨hrun, hchild⟩ | ⟨l, a', hrun, hil, hl, hli, hex, hle,
        hchild⟩
      · refine ⟨a, fun fuel hfuel => ?_, List.Perm.refl a, fun d _ => rfl, fun c hc => ⟨c, hc, rfl⟩,
          fun w _ => ⟨w, .inl rfl, rfl⟩, fun s hs => hs.finish hchild⟩
        obtain ⟨fuel, rfl⟩ : ∃ f, fuel = f + 1 := ⟨fuel - 1, by omega⟩
        exact hrun fuel
      · obtain ⟨b, hb, hsifted⟩ := ih (i := l) (a := a') (by omega) hl
          (by rw [hex.perm.length_eq]; exact hsize)
        refine ⟨b, fun fuel hfuel => ?_, hsifted.down hil hl hli hex hle hchild⟩
        obtain ⟨fuel, rfl⟩ : ∃ f, fuel = f + 1 := ⟨fuel - 1, by omega⟩
        rw [hrun fuel]
        exact hb fuel (by omega)

/-! ## Building the heap -/

/-- The passes from node `i - 1` down to node 0.  A cell whose parent is done stays below
    node 0. -/
theorem buildLoop_spec {size : Nat} : ∀ (i : Nat) {a : List α}, i ≤ size → size ≤ a.length →
    ∃ a', (∀ fuel, size < fuel → buildLoop fuel size i a = some a') ∧ a'.Perm a ∧
      (HeapFrom a size i → HeapFrom a' size 0) ∧
      ∀ w, 0 < w → i ≤ w / 2 → ∃ w', 0 < w' ∧ a'[w']? = a[w]? := by
  intro i
  induction i with
  | zero => exact fun hi hsize => ⟨_, fun _ _ => rfl, List.Perm.refl _, id, fun w hw _ => ⟨w, hw, rfl⟩⟩
  | succ i ih =>
      intro a hi hsize
      obtain ⟨b, hb, hsifted⟩ := maxHeapify_spec size (i := i) (Nat.sub_le size i) (by omega) hsize
      obtain ⟨a', hrun, hperm, hheap, hlow⟩ := ih (a := b) (by omega)
        (by rw [hsifted.perm.length_eq]; exact hsize)
      refine ⟨a', fun fuel hfuel => ?_, hperm.trans hsifted.perm, fun hs => ?_, fun w hw hiw => ?_⟩
      · rw [buildLoop, hb fuel hfuel]
        exact hrun fuel hfuel
      · refine hheap (hsifted.heap i ⟨?_, ?_⟩)
        · exact fun c hpos hc hic hne => hs c hpos hc (by omega)
        · exact fun c _ _ _ hi0 hii => absurd hii (by omega)
      · obtain ⟨w', hw', hcell⟩ := hsifted.lifts w (by omega)
        obtain ⟨w'', hpos, hcell'⟩ := hlow w' (by omega) (by omega)
        exact ⟨w'', hpos, hcell'.trans hcell⟩

theorem HeapFrom.root_max {a : List α} {size : Nat} (h : HeapFrom a size 0)
    (hsize : size ≤ a.length) : ∀ c, c < size → CellLe a c 0 := by
  intro c
  induction c using Nat.strongRecOn with
  | ind c ih =>
      intro hc
      by_cases hpos : 0 < c
      · exact (h c hpos hc (Nat.zero_le _)).trans (ih (c / 2) (by omega) (by omega))
      · obtain rfl : c = 0 := by omega
        exact CellLe.refl (by omega)

/-! ## Taking the heap apart -/

/-- The cells from `i + 1` on are final. -/
def Tail (a : List α) (i : Nat) : Prop := ∀ c d, c < d → i < d → d < a.length → CellLe a c d

/-- One pass: the root goes behind the heap, the last cell of the heap sinks from the
    root. -/
theorem sortPass_spec {i : Nat} {a : List α} (hi : i + 1 < a.length) :
    ∃ a', (∀ fuel, i + 1 < fuel →
        sortLoop fuel (i + 1) a (i + 2 : Nat) = sortLoop fuel i a' (i + 1 : Nat)) ∧
      a'.Perm a ∧ (∀ d, i + 1 < d → a'[d]? = a[d]?) ∧ a'[i + 1]? = a[0]? ∧
      (HeapFrom a (i + 2) 0 → Tail a (i + 1) → HeapFrom a' (i + 1) 0 ∧ Tail a' i) := by
  obtain ⟨b, hswap, hex⟩ := swapAt_spec (l := a) (i := i + 1) (j := 0) hi (by omega)
  obtain ⟨a', hrun, hsifted⟩ := maxHeapify_spec (i + 1) (i := 0) (a := b) (Nat.sub_le _ 0)
    (by omega) (by rw [hex.perm.length_eq]; omega)
  have hlen : a'.length = a.length := (hsifted.perm.trans hex.perm).length_eq
  have hlast : a'[i + 1]? = a[0]? := (hsifted.outside (i + 1) (Nat.le_refl _)).trans hex.fst
  have hout : ∀ d, i + 1 < d → a'[d]? = a[d]? := by
    intro d hd
    rw [hsifted.outside d (by omega)]
    exact hex.other d (by omega) (by omega)
  have hin : ∀ c, c ≤ i + 1 → ∃ c', c' ≤ i + 1 ∧ a'[c]? = a[c']? := by
    intro c hc
    by_cases hci : c = i + 1
    · rw [hci]
      exact ⟨0, by omega, hlast⟩
    · obtain ⟨c', hc', hcell⟩ := hsifted.inside c (by omega)
      by_cases h0 : c' = 0
      · rw [h0, hex.snd] at hcell
        exact ⟨i + 1, Nat.le_refl _, hcell⟩
      · rw [hex.other c' (by omega) h0] at hcell
        exact ⟨c', by omega, hcell⟩
  refine ⟨a', ?_, hsifted.perm.trans hex.perm, hout, hlast, ?_⟩
  · intro fuel hfuel
    rw [Nat.cast_zero] at hswap hrun
    rw [sortLoop, show ((i + 2 : Nat) : Int) - 1 = (i + 1 : Nat) by omega]
    simp only [hswap, hrun fuel hfuel, Option.bind_eq_bind, Option.bind_some]
  · intro hheap htail
    constructor
    · refine hsifted.heap 0 ⟨?_, fun c _ _ _ h0 => absurd h0 (Nat.lt_irrefl 0)⟩
      intro c hpos hc hs hne
      exact (hheap c hpos (by omega) hs).congr (hex.other c (by omega) (by omega))
        (hex.other (c / 2) (by omega) hne)
    · intro c d hcd hid hd
      rw [hlen] at hd
      by_cases hdi : d = i + 1
      · obtain ⟨c', hc', hcell⟩ := hin c (by omega)
        rw [hdi]
        exact (hheap.root_max (by omega) c' (by omega)).congr hcell hlast
      · by_cases hci : c ≤ i + 1
        · obtain ⟨c', hc', hcell⟩ := hin c hci
          exact (htail c' d (by omega) (by omega) hd).congr hcell (hout d (by omega))
        · exact (htail c d hcd (by omega) hd).congr (hout c (by omega)) (hout d (by omega))

/-- The passes from `i` down to 1, on a heap of `i + 1` cells. -/
theorem sortLoop_spec : ∀ (i : Nat) {a : List α}, i < a.length →
    ∃ out, (∀ fuel, i < fuel → sortLoop fuel i a (i + 1 : Nat) = some out) ∧ out.Perm a ∧
      (∀ d, i < d → out[d]? = a[d]?) ∧ (0 < i → out[i]? = a[0]?) ∧
      (HeapFrom a (i + 1) 0 → Tail a i → out.Pairwise (· ≤ ·)) := by
  intro i
  induction i with
  | zero =>
      intro a hi
      refine ⟨a, fun _ _ => rfl, List.Perm.refl a, fun _ _ => rfl,
        fun h => absurd h (Nat.lt_irrefl 0), fun _ htail => ?_⟩
      exact pairwise_of_cells (fun c d hcd hd => htail c d hcd (by omega) hd)
  | succ i ih =>
      intro a hi
      obtain ⟨b, hpass, hperm, hkept, hroot, hnext⟩ := sortPass_spec hi
      obtain ⟨out, hrun, hperm', hkept', hroot', hsorted⟩ := ih (a := b)
        (by rw [hperm.length_eq]; omega)
      refine ⟨out, fun fuel hfuel => ?_, hperm'.trans hperm, fun d hd => ?_, fun _ => ?_,
        fun hheap htail => ?_⟩
      · exact (hpass fuel hfuel).trans (hrun fuel (by omega))
      · rw [hkept' d (by omega), hkept d hd]
      · rw [hkept' (i + 1) (Nat.lt_succ_self i), hroot]
      · obtain ⟨hheap', htail'⟩ := hnext hheap htail
        exact hsorted hheap' htail'

/-! ## The sort -/

/-- `heap_sort` leaves the array a sorted permutation of itself. -/
def Sorts (a : List α) : Prop :=
  ∃ out, out.Perm a ∧ out.Pairwise (· ≤ ·) ∧
    ∀ fuel, a.length < fuel → heapSort fuel a a.length = some out

/-- The size is even, or the node that the build passes over is not below its child, the
    last element. -/
def InOrder (a : List α) : Prop := a.length % 2 = 0 ∨ CellLe a (a.length - 1) (a.length / 2)

/-- The last element is above all others. -/
def LastAbove (a : List α) : Prop := ∃ rest x, a = rest ++ [x] ∧ ∀ y ∈ rest, y < x

/-- The nodes that the build does not visit are in order. -/
theorem InOrder.heapFrom {a : List α} (h : InOrder a) : HeapFrom a a.length (a.length / 2) := by
  intro c hpos hc hs
  rcases h with heven | hle
  · exact absurd hs (by omega)
  · rw [show c = a.length - 1 by omega, show (a.length - 1) / 2 = a.length / 2 by omega]
    exact hle

/-- The sort returns; its last cell is what the build leaves at the root. -/
theorem heapSort_spec (a : List α) :
    ∃ heap out : List α, (∀ fuel, a.length < fuel → heapSort fuel a a.length = some out) ∧
      out.Perm a ∧ heap.Perm a ∧ (1 < a.length → out[a.length - 1]? = heap[0]?) ∧
      (InOrder a → out.Pairwise (· ≤ ·)) ∧
      ∀ w, 0 < w → a.length / 2 ≤ w / 2 → ∃ w', 0 < w' ∧ heap[w']? = a[w]? := by
  obtain ⟨heap, hbuild, hperm, hheap, hlow⟩ := buildLoop_spec (a := a) (a.length / 2)
    (Nat.div_le_self _ _) (Nat.le_refl _)
  have hhalf : ((a.length : Int) / 2).toNat = a.length / 2 := by omega
  by_cases hpos : 0 < a.length
  · obtain ⟨i, hi⟩ : ∃ i, a.length = i + 1 := ⟨a.length - 1, by omega⟩
    obtain ⟨out, hrun, hperm', -, hroot, hsorted⟩ := sortLoop_spec i (a := heap)
      (by rw [hperm.length_eq]; omega)
    refine ⟨heap, out, fun fuel hfuel => ?_, hperm'.trans hperm, hperm, fun hone => ?_,
      fun horder => ?_, hlow⟩
    · have hpasses : ((a.length : Int) - 1).toNat = i := by omega
      rw [heapSort, buildMaxHeap, hhalf, hbuild fuel hfuel, hpasses, hi]
      exact hrun fuel (by omega)
    · rw [show a.length - 1 = i by omega]
      exact hroot (by omega)
    · refine hsorted ?_ ?_
      · rw [← hi]
        exact hheap horder.heapFrom
      · exact fun c d _ hid hd => absurd hd (by rw [hperm.length_eq]; omega)
  · have hnil : a = [] := List.length_eq_zero_iff.mp (by omega)
    refine ⟨heap, heap, fun fuel hfuel => ?_, hperm, hperm, fun h => absurd h (by omega),
      fun _ => pairwise_of_short (by rw [hperm.length_eq]; omega), hlow⟩
    have hpasses : ((a.length : Int) - 1).toNat = 0 := by omega
    rw [heapSort, buildMaxHeap, hhalf, hbuild fuel hfuel, hpasses]
    rfl

theorem sorts_of_inOrder {a : List α} (h : InOrder a) : Sorts a := by
  obtain ⟨heap, out, hrun, hperm, -, -, hsorted, -⟩ := heapSort_spec a
  exact ⟨out, hperm, hsorted h, hrun⟩

/-- The largest element does not come to the root when it is the last of an odd number. -/
theorem not_sorts_of_lastAbove {a : List α} (hodd : a.length % 2 = 1) (hone : 1 < a.length)
    (hlast : LastAbove a) : ¬ Sorts a := by
  rintro ⟨out, hperm, hsorted, hrun⟩
  obtain ⟨heap, out', hrun', -, hheap, hroot, -, hlow⟩ := heapSort_spec a
  obtain rfl : out = out' := Option.some.inj
    ((hrun _ (Nat.lt_succ_self _)).symm.trans (hrun' _ (Nat.lt_succ_self _)))
  obtain ⟨rest, x, rfl, habove⟩ := hlast
  have hlen : (rest ++ [x]).length = rest.length + 1 := by simp
  rw [hlen] at hodd hone hroot hlow
  -- the largest element is in the heap below the root, and nowhere else
  obtain ⟨w, hw, hcell⟩ := hlow rest.length (by omega) (by omega)
  rw [List.getElem?_concat_length] at hcell
  have hcount : heap.count x = 1 := by
    rw [hheap.count_eq, List.count_append, List.count_singleton_self,
      List.count_eq_zero.mpr (fun hx => lt_irrefl x (habove x hx))]
  obtain ⟨root, below, rfl⟩ : ∃ root below, heap = root :: below :=
    List.exists_cons_of_length_pos (by rw [hheap.length_eq, hlen]; omega)
  have hbelow : x ∈ below := by
    obtain ⟨w, rfl⟩ : ∃ v, w = v + 1 := ⟨w - 1, by omega⟩
    exact List.mem_of_getElem? hcell
  have hne : root ≠ x := by
    rintro rfl
    rw [List.count_cons_self] at hcount
    have := List.count_pos_iff.mpr hbelow
    omega
  have hrootlt : root < x := by
    have hmem : root ∈ rest ++ [x] := hheap.mem_iff.mp List.mem_cons_self
    rcases List.mem_append.mp hmem with hr | hr
    · exact habove root hr
    · exact absurd (List.mem_singleton.mp hr) hne
  -- the root ends as the last element of the array
  have hlastcell : out[rest.length]? = some root := hroot (by omega)
  have hxout : x ∈ out := hperm.mem_iff.mpr (List.mem_append_right rest (List.mem_singleton_self x))
  obtain ⟨c, hc⟩ := List.mem_iff_getElem?.mp hxout
  have hoc := (List.getElem?_eq_some_iff.mp hc).1
  have hod := (List.getElem?_eq_some_iff.mp hlastcell).1
  rw [hperm.length_eq, hlen] at hoc
  by_cases hcl : c = rest.length
  · rw [hcl, hlastcell] at hc
    exact hne (Option.some.inj hc)
  · have hle := List.pairwise_iff_getElem.mp hsorted c rest.length (by omega) hod (by omega)
    rw [List.getElem?_eq_getElem (by omega)] at hc
    rw [List.getElem?_eq_getElem hod] at hlastcell
    rw [Option.some.inj hc, Option.some.inj hlastcell] at hle
    exact not_le.mpr hrootlt hle

/-- Every array of a size is sorted exactly where the size is even or 1. -/
theorem heap_sort_sizes (n : Nat) :
    (∀ a : List Int, a.length = n → Sorts a) ↔ n % 2 = 0 ∨ n = 1 := by
  constructor
  · intro hall
    by_contra hn
    have hlen : (List.replicate (n - 1) (0 : Int) ++ [1]).length = n := by
      rw [List.length_append, List.length_replicate, List.length_singleton]
      omega
    refine not_sorts_of_lastAbove (by omega) (by omega) ⟨_, 1, rfl, ?_⟩ (hall _ hlen)
    intro y hy
    rw [List.eq_of_mem_replicate hy]
    exact Int.one_pos
  · intro hn a ha
    refine sorts_of_inOrder ?_
    rcases hn with heven | hone
    · exact .inl (by omega)
    · refine .inr ?_
      rw [ha, hone]
      exact CellLe.refl (by omega)

end CtiHeap
