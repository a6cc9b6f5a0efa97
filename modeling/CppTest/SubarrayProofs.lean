import CppTest.MachineProofs
import Mathlib.Algebra.BigOperators.Group.List.Basic
import Mathlib.Order.Bounds.Basic

/-! # The maximum subarray (`maximun_subarray` of `src/algs/cti/test_cti.cpp`)

    Both versions scan the array once.  `maximun_subarray2` also reports where the best
    segment lies: it keeps its END, and finds its start by subtracting backwards until
    nothing is left.

    * Sums of segments in terms of the sums of the prefixes (`segSum`, `sums`).
    * What the scan knows after `k` elements: `Scanned`, kept by every turn
      (`Scanned.step`).
    * The backward loop, from the right index (`backLoop_found`) and from any other
      index in front of it (`backLoop_lost`): the end is a `size_t`, but the loop
      starts from it as an `int`.
    * The result: `subarray_law_iff`. -/

namespace Subarray

open Machine

/-! ## The model -/

/-- `if(b < 0) b = arr[i]; else b += arr[i];` -/
def extend (b x : Int) : Option Int := if b < 0 then some x else int32 (b + x)

/-- The loop of `maximun_subarray` over the elements that are left: `b` and `maxSum`. -/
def scan : List Int → Int × Int → Option (Int × Int)
  | [], s => some s
  | x :: rest, (b, maxSum) => do
      let b ← extend b x
      scan rest (b, if maxSum < b then b else maxSum)

/-- `maximun_subarray`: the three references after the call.  A null pointer is
    `none`. -/
def maximunSubarray (arr : Option (List Int)) (maxSum low high : Int) : Option (Int × Int × Int) :=
  match arr with
  | none | some [] => some (maxSum, low, high)
  | some arr => do
      let (_, maxSum) ← scan arr (0, 0)
      some (maxSum, low, high)

/-- The first loop of `maximun_subarray2`, at index `i`: `thisSum`, `maxSum` and `high`. -/
def scan2 : List Int → Nat → Int × Int × Nat → Option (Int × Int × Nat)
  | [], _, s => some s
  | x :: rest, i, (thisSum, maxSum, high) => do
      let thisSum ← int32 (thisSum + x)
      if thisSum > maxSum then scan2 rest (i + 1) (thisSum, thisSum, i)
      else scan2 rest (i + 1) (if thisSum < 0 then 0 else thisSum, maxSum, high)

/-- One pass of the second loop, `for(; thisSum != 0; --i) thisSum -= arr[i]`. -/
def backPass (arr : List Int) : Int × Int → Option (Pass (Int × Int) Int)
  | (thisSum, i) =>
      if thisSum ≠ 0 then do
        let thisSum ← int32 (thisSum - (← getAt arr i))
        some (.next (thisSum, i - 1))
      else some (.done i)

/-- `maximun_subarray2`.  The loop variable of the second loop is an `int`, `high` a
    `size_t`. -/
def maximunSubarray2 (fuel : Nat) (arr : Option (List Int)) (maxSum low high : Int) :
    Option (Int × Int × Int) :=
  match arr with
  | none | some [] => some (maxSum, low, high)
  | some arr => do
      let (_, maxSum, high) ← scan2 arr 0 (0, 0, 0)
      let i ← loop (backPass arr) fuel (maxSum, wrap32 high)
      some (maxSum, wrap64 (← int32 (i + 1)), high)

/-! ## Segments -/

/-- The sum of the segment `arr[i .. j)`. -/
def segSum (arr : List Int) (i j : Nat) : Int := ((arr.drop i).take (j - i)).sum

/-- The sums of the segments of an array, the empty ones included. -/
def sums (arr : List Int) : Set Int := {v | ∃ i j, i ≤ j ∧ j ≤ arr.length ∧ segSum arr i j = v}

/-- The sum of the first `k` elements. -/
def front (arr : List Int) (k : Nat) : Int := (arr.take k).sum

theorem segSum_eq (arr : List Int) {i j : Nat} (h : i ≤ j) :
    segSum arr i j = front arr j - front arr i := by
  have hsplit : arr.take j = arr.take i ++ (arr.drop i).take (j - i) := by
    rw [← List.take_add]
    congr 1
    omega
  rw [segSum, front, front, hsplit, List.sum_append]
  omega

theorem front_succ {arr : List Int} {k : Nat} {x : Int} (h : arr[k]? = some x) :
    front arr (k + 1) = front arr k + x := by
  rw [front, front, List.take_add_one, h, List.sum_append]
  simp

/-- The element a scan reads at index `k`. -/
theorem drop_cons {arr rest : List Int} {k : Nat} {x : Int} (h : arr.drop k = x :: rest) :
    k < arr.length ∧ arr[k]? = some x ∧ arr.drop (k + 1) = rest := by
  refine ⟨?_, ?_, ?_⟩
  · by_contra hge
    rw [List.drop_eq_nil_of_le (by omega)] at h
    exact List.cons_ne_nil x rest h.symm
  · have hhead := congrArg List.head? h
    rwa [List.head?_drop] at hhead
  · rw [← List.drop_drop, h]
    rfl

/-- No sum of a segment overflows `int`. -/
def NoOverflow (arr : List Int) : Prop := ∀ v ∈ sums arr, intMin ≤ v ∧ v ≤ intMax

theorem NoOverflow.int32 {arr : List Int} (h : NoOverflow arr) {i j : Nat} (hij : i ≤ j)
    (hj : j ≤ arr.length) {v : Int} (hv : v = front arr j - front arr i) :
    int32 v = some v := by
  have hb := h v ⟨i, j, hij, hj, by rw [segSum_eq arr hij, hv]⟩
  exact int32_eq hb.1 hb.2

/-! ## The scans -/

/-- `best` is the largest sum of a segment within the first `k` elements. -/
structure Best (arr : List Int) (k : Nat) (best : Int) : Prop where
  attained : ∃ i j, i ≤ j ∧ j ≤ k ∧ front arr j - front arr i = best
  upper : ∀ i j, i ≤ j → j ≤ k → front arr j - front arr i ≤ best

/-- A segment that ends with the new element, or an old one. -/
theorem Best.step {arr : List Int} {k : Nat} {best b : Int} (h : Best arr k best)
    (hb : ∃ a, a ≤ k + 1 ∧ b = front arr (k + 1) - front arr a)
    (hsuffix : ∀ i, i ≤ k → front arr (k + 1) - front arr i ≤ b) :
    Best arr (k + 1) (if best < b then b else best) := by
  obtain ⟨i, j, hij, hj, hbest⟩ := h.attained
  have hzero := h.upper k k (le_refl k) (le_refl k)
  constructor
  · split
    · obtain ⟨a, ha, heq⟩ := hb
      exact ⟨a, k + 1, ha, le_refl _, heq.symm⟩
    · exact ⟨i, j, hij, by omega, hbest⟩
  · intro i j hij hj
    by_cases hlast : j = k + 1
    · subst hlast
      by_cases hi : i = k + 1
      · subst hi
        split <;> omega
      · have hs := hsuffix i (by omega)
        split <;> omega
    · have hold := h.upper i j hij (by omega)
      split <;> omega

/-- The scan of `maximun_subarray` after `k` elements: `b` is the largest sum of a
    segment that ends there and is not empty. -/
structure Scanned1 (arr : List Int) (k : Nat) (b maxSum : Int) : Prop where
  start : ∃ a, a ≤ k ∧ b = front arr k - front arr a
  suffix : ∀ i, i < k → front arr k - front arr i ≤ b
  best : Best arr k maxSum

/-- The scan of `maximun_subarray2` after `k` elements: `thisSum` is the largest sum
    of a segment that ends there, and `high` is the FIRST index where the largest sum
    so far ends. -/
structure Scanned (arr : List Int) (k : Nat) (thisSum maxSum : Int) (high : Nat) : Prop where
  start : ∃ a, a ≤ k ∧ thisSum = front arr k - front arr a
  suffix : ∀ i, i ≤ k → front arr k - front arr i ≤ thisSum
  best : Best arr k maxSum
  found : (maxSum = 0 ∧ high = 0) ∨ (0 < maxSum ∧ high < k
    ∧ (∃ a, a ≤ high ∧ front arr (high + 1) - front arr a = maxSum)
    ∧ ∀ i j, i ≤ j → j ≤ high → front arr j - front arr i < maxSum)

theorem best_zero (arr : List Int) : Best arr 0 0 := by
  refine ⟨⟨0, 0, le_refl 0, le_refl 0, Int.sub_self _⟩, ?_⟩
  intro i j hij hj
  obtain rfl : i = j := by omega
  exact (Int.sub_self _).le

/-- The segment that ends with the new element. -/
theorem Scanned.extend {arr : List Int} {k high : Nat} {thisSum maxSum x : Int}
    (h : Scanned arr k thisSum maxSum high) (hx : arr[k]? = some x) :
    (∃ a, a ≤ k ∧ thisSum + x = front arr (k + 1) - front arr a)
      ∧ (∀ i, i ≤ k → front arr (k + 1) - front arr i ≤ thisSum + x)
      ∧ Best arr (k + 1) (if maxSum < thisSum + x then thisSum + x else maxSum) := by
  have hsucc := front_succ hx
  obtain ⟨a, ha, hsum⟩ := h.start
  have hsuffix : ∀ i, i ≤ k → front arr (k + 1) - front arr i ≤ thisSum + x := by
    intro i hi
    have hs := h.suffix i hi
    omega
  exact ⟨⟨a, ha, by omega⟩, hsuffix, h.best.step ⟨a, by omega, by omega⟩ hsuffix⟩

/-- A new largest sum ends at the new element. -/
theorem Scanned.raise {arr : List Int} {k high : Nat} {thisSum maxSum x : Int}
    (h : Scanned arr k thisSum maxSum high) (hx : arr[k]? = some x)
    (hgt : maxSum < thisSum + x) : Scanned arr (k + 1) (thisSum + x) (thisSum + x) k := by
  obtain ⟨⟨a, ha, hsum⟩, hsuffix, hbest⟩ := h.extend hx
  have hzero := h.best.upper k k (le_refl k) (le_refl k)
  rw [if_pos hgt] at hbest
  refine ⟨⟨a, by omega, hsum⟩, ?_, hbest, .inr ⟨by omega, by omega, ⟨a, ha, hsum.symm⟩, ?_⟩⟩
  · intro i hi
    by_cases hik : i = k + 1
    · subst hik
      omega
    · exact hsuffix i (by omega)
  · intro i j hij hj
    have hold := h.best.upper i j hij hj
    omega

/-- No new largest sum: a negative rest is given up. -/
theorem Scanned.keep {arr : List Int} {k high : Nat} {thisSum maxSum x : Int}
    (h : Scanned arr k thisSum maxSum high) (hx : arr[k]? = some x)
    (hle : ¬ maxSum < thisSum + x) :
    Scanned arr (k + 1) (if thisSum + x < 0 then 0 else thisSum + x) maxSum high := by
  obtain ⟨⟨a, ha, hsum⟩, hsuffix, hbest⟩ := h.extend hx
  rw [if_neg hle] at hbest
  refine ⟨?_, ?_, hbest, ?_⟩
  · split
    · exact ⟨k + 1, le_refl _, (Int.sub_self _).symm⟩
    · exact ⟨a, by omega, hsum⟩
  · intro i hi
    by_cases hik : i = k + 1
    · subst hik
      split <;> omega
    · have hs := hsuffix i (by omega)
      split <;> omega
  · rcases h.found with hnone | ⟨hpos, hlt, hend, hfirst⟩
    · exact .inl hnone
    · exact .inr ⟨hpos, by omega, hend, hfirst⟩

section Scan

variable {arr : List Int} (hno : NoOverflow arr)
include hno

/-- The segment goes on, or starts again at the new element. -/
theorem Scanned1.extend {k : Nat} {b maxSum x : Int} (h : Scanned1 arr k b maxSum)
    (hlt : k < arr.length) (hx : arr[k]? = some x) :
    ∃ b', Subarray.extend b x = some b' ∧ (∃ a, a ≤ k + 1 ∧ b' = front arr (k + 1) - front arr a)
      ∧ ∀ i, i ≤ k → front arr (k + 1) - front arr i ≤ b' := by
  have hsucc := front_succ hx
  obtain ⟨a, ha, hba⟩ := h.start
  rw [Subarray.extend]
  by_cases hneg : b < 0
  · refine ⟨x, if_pos hneg, ⟨k, by omega, by omega⟩, ?_⟩
    intro i hi
    by_cases hik : i = k
    · subst hik
      omega
    · have hs := h.suffix i (by omega)
      omega
  · refine ⟨b + x, ?_, ⟨a, by omega, by omega⟩, ?_⟩
    · rw [if_neg hneg]
      exact hno.int32 (show a ≤ k + 1 by omega) hlt (by omega)
    · intro i hi
      by_cases hik : i = k
      · subst hik
        omega
      · have hs := h.suffix i (by omega)
        omega

theorem scan_spec : ∀ (rest : List Int) {k : Nat} {b maxSum : Int}, arr.drop k = rest →
    k ≤ arr.length → Scanned1 arr k b maxSum →
    ∃ b' maxSum', scan rest (b, maxSum) = some (b', maxSum')
      ∧ Scanned1 arr arr.length b' maxSum' := by
  intro rest
  induction rest with
  | nil =>
      intro k b maxSum hdrop hk h
      obtain rfl : k = arr.length := le_antisymm hk (List.drop_eq_nil_iff.mp hdrop)
      exact ⟨b, maxSum, rfl, h⟩
  | cons x rest ih =>
      intro k b maxSum hdrop hk h
      obtain ⟨hlt, hx, hrest⟩ := drop_cons hdrop
      obtain ⟨b', hstep, hstart, hsuffix⟩ := h.extend hno hlt hx
      have hnext : Scanned1 arr (k + 1) b' (if maxSum < b' then b' else maxSum) :=
        ⟨hstart, fun i hi => hsuffix i (by omega), h.best.step hstart hsuffix⟩
      obtain ⟨c, m, hrun, hfinal⟩ := ih hrest hlt hnext
      refine ⟨c, m, ?_, hfinal⟩
      rw [scan, hstep]
      exact hrun

theorem scan2_spec : ∀ (rest : List Int) {k high : Nat} {thisSum maxSum : Int},
    arr.drop k = rest → k ≤ arr.length → Scanned arr k thisSum maxSum high →
    ∃ thisSum' maxSum' high', scan2 rest k (thisSum, maxSum, high) = some (thisSum', maxSum', high')
      ∧ Scanned arr arr.length thisSum' maxSum' high' := by
  intro rest
  induction rest with
  | nil =>
      intro k high thisSum maxSum hdrop hk h
      obtain rfl : k = arr.length := le_antisymm hk (List.drop_eq_nil_iff.mp hdrop)
      exact ⟨thisSum, maxSum, high, rfl, h⟩
  | cons x rest ih =>
      intro k high thisSum maxSum hdrop hk h
      obtain ⟨hlt, hx, hrest⟩ := drop_cons hdrop
      obtain ⟨a, ha, hsum⟩ := h.start
      have hsucc := front_succ hx
      have hadd : Machine.int32 (thisSum + x) = some (thisSum + x) :=
        hno.int32 (show a ≤ k + 1 by omega) hlt (by omega)
      by_cases hgt : maxSum < thisSum + x
      · obtain ⟨c, m, p, hrun, hfinal⟩ := ih hrest hlt (h.raise hx hgt)
        refine ⟨c, m, p, ?_, hfinal⟩
        rw [scan2, hadd]
        exact (if_pos hgt).trans hrun
      · obtain ⟨c, m, p, hrun, hfinal⟩ := ih hrest hlt (h.keep hx hgt)
        refine ⟨c, m, p, ?_, hfinal⟩
        rw [scan2, hadd]
        exact (if_neg hgt).trans hrun

end Scan

/-! ## The backward loop -/

/-- A pass that reads inside the array. -/
theorem backPass_at {arr : List Int} {thisSum x : Int} {n : Nat} (hne : thisSum ≠ 0)
    (hx : arr[n]? = some x) :
    backPass arr (thisSum, (n : Int))
      = (int32 (thisSum - x)).bind fun rest => some (.next (rest, (n : Int) - 1)) := by
  rw [backPass, if_pos hne, getAt_natCast, hx]
  rfl

/-- Before index `n` the loop has the sum from `a` to `n` left.  It stops there, or the
    start `a` is further to the front. -/
theorem backPass_found {arr : List Int} (hno : NoOverflow arr) {n a : Nat} (hn : n ≤ arr.length)
    (ha : a ≤ n) :
    (backPass arr (front arr n - front arr a, (n : Int) - 1) = some (.done ((n : Int) - 1))
      ∧ front arr n = front arr a) ∨
    (a < n ∧ backPass arr (front arr n - front arr a, (n : Int) - 1)
      = some (.next (front arr (n - 1) - front arr a, ((n - 1 : Nat) : Int) - 1))) := by
  by_cases hzero : front arr n - front arr a = 0
  · refine .inl ⟨?_, by omega⟩
    rw [backPass, if_neg (not_not.mpr hzero)]
  · have hne : n ≠ a := by
      rintro rfl
      exact hzero (Int.sub_self _)
    obtain ⟨m, rfl⟩ : ∃ m, n = m + 1 := ⟨n - 1, by omega⟩
    have hx : arr[m]? = some arr[m] := List.getElem?_eq_getElem hn
    have hsucc := front_succ hx
    have hrest : front arr (m + 1) - front arr a - arr[m] = front arr m - front arr a := by omega
    have hidx : ((m + 1 : Nat) : Int) - 1 = (m : Int) := by omega
    refine .inr ⟨by omega, ?_⟩
    rw [hidx, backPass_at hzero hx, hrest, hno.int32 (show a ≤ m by omega) (by omega) rfl]
    rfl

/-- **From the right end** the loop finds a segment with the largest sum: it stops at
    the start of the one that the scan found, or before. -/
theorem backLoop_found {arr : List Int} (hno : NoOverflow arr) {high a : Nat}
    (hhigh : high < arr.length) (ha : a ≤ high + 1) :
    ∃ low : Nat, a ≤ low ∧ low ≤ high + 1 ∧ front arr low = front arr a
      ∧ ∀ fuel, high + 1 < fuel →
        loop (backPass arr) fuel (front arr (high + 1) - front arr a, (high : Int))
          = some ((low : Int) - 1) := by
  have hpass : ∀ (n : Nat) (s : Int × Int),
      (n ≤ high + 1 ∧ a ≤ n ∧ s = (front arr n - front arr a, (n : Int) - 1)) →
      (∃ r, backPass arr s = some (.done r)
        ∧ ∃ low : Nat, r = (low : Int) - 1 ∧ a ≤ low ∧ low ≤ high + 1
          ∧ front arr low = front arr a) ∨
      (∃ s' n', backPass arr s = some (.next s') ∧ n' < n
        ∧ (n' ≤ high + 1 ∧ a ≤ n' ∧ s' = (front arr n' - front arr a, (n' : Int) - 1))) := by
    rintro n s ⟨hn, han, rfl⟩
    rcases backPass_found hno (show n ≤ arr.length by omega) han with ⟨hdone, hsum⟩ | ⟨hlt, hnext⟩
    · exact .inl ⟨_, hdone, n, rfl, han, hn, hsum⟩
    · exact .inr ⟨_, n - 1, hnext, by omega, by omega, by omega, rfl⟩
  obtain ⟨r, ⟨low, rfl, hlo, hhi, hsum⟩, hrun⟩ :=
    loop_total hpass (high + 1) (front arr (high + 1) - front arr a, ((high + 1 : Nat) : Int) - 1)
      ⟨le_refl _, ha, rfl⟩
  refine ⟨low, hlo, hhi, hsum, ?_⟩
  intro fuel hfuel
  have hidx : ((high + 1 : Nat) : Int) - 1 = (high : Int) := by omega
  rw [hidx] at hrun
  exact hrun fuel hfuel

/-- An index in front of the array. -/
theorem backPass_outside (arr : List Int) {thisSum i : Int} (hne : thisSum ≠ 0) (hi : i < 0) :
    backPass arr (thisSum, i) = none := by
  rw [backPass, if_pos hne, getAt, if_neg (not_le.mpr hi)]
  rfl

/-- The loop on its way down from an index `e`. -/
def Descending (arr : List Int) (maxSum : Int) (e : Nat) (s : Int × Int) : Prop :=
  ∃ n, n ≤ e + 1 ∧ s = (maxSum - (front arr (e + 1) - front arr n), ((n : Nat) : Int) - 1)

/-- From an index where no segment with the largest sum ends, something is always left. -/
theorem backPass_lost {arr : List Int} {maxSum : Int} {e : Nat}
    (hfirst : ∀ i, i ≤ e + 1 → front arr (e + 1) - front arr i < maxSum) (s : Int × Int)
    (hs : Descending arr maxSum e s) :
    backPass arr s = none ∨
      ∃ s', backPass arr s = some (.next s') ∧ Descending arr maxSum e s' := by
  obtain ⟨n, hn, rfl⟩ := hs
  have hshort := hfirst n hn
  have hne : maxSum - (front arr (e + 1) - front arr n) ≠ 0 := by omega
  cases n with
  | zero => exact .inl (backPass_outside arr hne (by decide))
  | succ n =>
      have hidx : ((n + 1 : Nat) : Int) - 1 = (n : Int) := by omega
      rw [hidx]
      cases hx : arr[n]? with
      | none =>
          refine .inl ?_
          rw [backPass, if_pos hne, getAt_natCast, hx]
          rfl
      | some x =>
          have hsucc := front_succ hx
          rw [backPass_at hne hx]
          cases hsub : int32 (maxSum - (front arr (e + 1) - front arr (n + 1)) - x) with
          | none => exact .inl rfl
          | some rest =>
              have hrest := eq_of_int32 hsub
              refine .inr ⟨_, rfl, n, by omega, ?_⟩
              rw [hrest]
              congr 1
              omega

/-- **From an index in front of the right end** the loop never finds a start: it would
    end a segment with the largest sum earlier than the first one. -/
theorem backLoop_lost {arr : List Int} {maxSum : Int} {high : Nat} {i : Int}
    (hpos : 0 < maxSum) (hfirst : ∀ i j, i ≤ j → j ≤ high → front arr j - front arr i < maxSum)
    (hi : i < (high : Int)) (fuel : Nat) : loop (backPass arr) fuel (maxSum, i) = none := by
  by_cases hneg : i < 0
  · cases fuel with
    | zero => rfl
    | succ fuel => simp only [loop, backPass_outside arr (ne_of_gt hpos) hneg]
  · have hend : ∀ k, k ≤ i.toNat + 1 → front arr (i.toNat + 1) - front arr k < maxSum :=
      fun k hk => hfirst k _ hk (by omega)
    refine loop_never (backPass_lost hend) fuel _ ⟨i.toNat + 1, le_refl _, ?_⟩
    rw [Int.sub_self, Int.sub_zero]
    congr 1
    omega

/-! ## The result -/

/-- What the two functions are for: both find the largest sum of a segment, and the
    second one reports a segment inside the array with that sum, the empty segment
    behind `high` when the sum is 0. -/
def SubarrayLaw (arr : List Int) : Prop :=
  ∃ maxSum : Int, ∃ low high : Nat,
    (∃ enough, ∀ fuel, enough < fuel → ∀ m l h,
      maximunSubarray2 fuel (some arr) m l h = some (maxSum, (low : Int), (high : Int)))
    ∧ IsGreatest (sums arr) maxSum
    ∧ low ≤ high + 1 ∧ high < arr.length ∧ segSum arr low (high + 1) = maxSum
    ∧ (maxSum = 0 → low = high + 1)
    ∧ ∀ m l h, maximunSubarray (some arr) m l h = some (maxSum, l, h)

/-- The largest sum is already reached within the first 2^31 elements. -/
def Early (arr : List Int) : Prop :=
  ∃ v, IsGreatest (sums (arr.take (2 ^ 31))) v ∧ IsGreatest (sums arr) v

theorem Best.isGreatest {arr : List Int} {v : Int} (h : Best arr arr.length v) :
    IsGreatest (sums arr) v := by
  constructor
  · obtain ⟨i, j, hij, hj, hv⟩ := h.attained
    exact ⟨i, j, hij, hj, by rw [segSum_eq arr hij, hv]⟩
  · rintro v ⟨i, j, hij, hj, rfl⟩
    rw [segSum_eq arr hij]
    exact h.upper i j hij hj

/-- The segments of the first `m` elements are segments. -/
theorem mem_sums_take {arr : List Int} {m : Nat} {v : Int} :
    v ∈ sums (arr.take m) ↔
      ∃ i j, i ≤ j ∧ j ≤ arr.length ∧ j ≤ m ∧ front arr j - front arr i = v := by
  have hfront : ∀ k, k ≤ m → front (arr.take m) k = front arr k := by
    intro k hk
    rw [front, List.take_take, min_eq_left hk, front]
  constructor
  · rintro ⟨i, j, hij, hj, rfl⟩
    rw [List.length_take] at hj
    refine ⟨i, j, hij, by omega, by omega, ?_⟩
    rw [segSum_eq _ hij, hfront i (by omega), hfront j (by omega)]
  · rintro ⟨i, j, hij, hj, hm, rfl⟩
    refine ⟨i, j, hij, by rw [List.length_take]; omega, ?_⟩
    rw [segSum_eq _ hij, hfront i (by omega), hfront j (by omega)]

/-- The largest sum is reached early exactly if the index where it first ends is. -/
theorem Scanned.early_iff {arr : List Int} {thisSum maxSum : Int} {high : Nat}
    (h : Scanned arr arr.length thisSum maxSum high) :
    Early arr ↔ maxSum = 0 ∨ (high : Int) ≤ intMax := by
  have hmax : intMax = 2147483647 := rfl
  have hpow : (2 : Nat) ^ 31 = 2147483648 := rfl
  constructor
  · rintro ⟨v, ⟨hmem, -⟩, hgreat⟩
    obtain rfl : v = maxSum := hgreat.unique h.best.isGreatest
    obtain ⟨i, j, hij, -, hj, hv⟩ := mem_sums_take.mp hmem
    by_contra hlate
    rw [not_or] at hlate
    rcases h.found with hnone | ⟨-, -, -, hfirst⟩
    · exact hlate.1 hnone.1
    · have hshort := hfirst i j hij (by omega)
      omega
  · intro hearly
    refine ⟨maxSum, ⟨mem_sums_take.mpr ?_, ?_⟩, h.best.isGreatest⟩
    · rcases h.found with hnone | ⟨hpos, hlt, ⟨a, ha, hsum⟩, -⟩
      · exact ⟨0, 0, le_refl 0, Nat.zero_le _, Nat.zero_le _, by omega⟩
      · have hhigh := hearly.resolve_left (ne_of_gt hpos)
        exact ⟨a, high + 1, by omega, hlt, by omega, hsum⟩
    · rintro v hv
      obtain ⟨i, j, hij, hj, -, rfl⟩ := mem_sums_take.mp hv
      exact h.best.upper i j hij hj

theorem scanned_zero (arr : List Int) : Scanned arr 0 0 0 0 where
  start := ⟨0, le_refl 0, (Int.sub_self _).symm⟩
  suffix := fun i hi => by
    obtain rfl := Nat.le_zero.mp hi
    exact (Int.sub_self _).le
  best := best_zero arr
  found := .inl ⟨rfl, rfl⟩

theorem maximunSubarray_spec {arr : List Int} (hne : arr ≠ []) (hno : NoOverflow arr) :
    ∃ maxSum, IsGreatest (sums arr) maxSum
      ∧ ∀ m l h, maximunSubarray (some arr) m l h = some (maxSum, l, h) := by
  have hstart : Scanned1 arr 0 0 0 :=
    ⟨⟨0, le_refl 0, (Int.sub_self _).symm⟩, fun i hi => absurd hi (Nat.not_lt_zero i),
      best_zero arr⟩
  obtain ⟨b, maxSum, hrun, hscan⟩ := scan_spec hno arr rfl (Nat.zero_le _) hstart
  refine ⟨maxSum, hscan.best.isGreatest, ?_⟩
  intro m l h
  obtain ⟨x, rest, rfl⟩ := List.exists_cons_of_ne_nil hne
  simp only [maximunSubarray, hrun, Option.bind_eq_bind, Option.bind_some]

/-- `maximun_subarray2` after its scan. -/
theorem maximunSubarray2_eq {arr : List Int} (hne : arr ≠ []) {thisSum maxSum : Int} {high : Nat}
    (hscan : scan2 arr 0 (0, 0, 0) = some (thisSum, maxSum, high)) (fuel : Nat) (m l h : Int) :
    maximunSubarray2 fuel (some arr) m l h = (do
      let i ← loop (backPass arr) fuel (maxSum, wrap32 high)
      some (maxSum, wrap64 (← int32 (i + 1)), (high : Int))) := by
  obtain ⟨x, rest, rfl⟩ := List.exists_cons_of_ne_nil hne
  simp only [maximunSubarray2, hscan, Option.bind_eq_bind, Option.bind_some]

/-- Where the index of the best end fits in an `int`, the segment is found. -/
theorem Scanned.law {arr : List Int} (hne : arr ≠ []) (hno : NoOverflow arr)
    {thisSum maxSum : Int} {high : Nat} (h : Scanned arr arr.length thisSum maxSum high)
    (hscan : scan2 arr 0 (0, 0, 0) = some (thisSum, maxSum, high))
    (hfits : maxSum = 0 ∨ (high : Int) ≤ intMax) : SubarrayLaw arr := by
  have hlen := List.length_pos_iff.mpr hne
  have hmax : intMax = 2147483647 := rfl
  have hmin : intMin = -2147483648 := rfl
  -- the end `high + 1`, and a start: the end itself when there is nothing to report
  obtain ⟨a, ha, hhigh, hsmall, hsum, hempty⟩ : ∃ a, a ≤ high + 1 ∧ high < arr.length
      ∧ (high : Int) ≤ intMax ∧ front arr (high + 1) - front arr a = maxSum
      ∧ (maxSum = 0 → a = high + 1 ∧ high = 0) := by
    rcases h.found with ⟨hz, hh⟩ | ⟨hpos, hlt, ⟨a, ha, hsum⟩, -⟩
    · refine ⟨high + 1, le_refl _, by omega, by omega, ?_, fun _ => ⟨rfl, hh⟩⟩
      rw [Int.sub_self, hz]
    · exact ⟨a, by omega, hlt, hfits.resolve_left (ne_of_gt hpos), hsum, by omega⟩
  obtain ⟨low, hlo, hhi, hfront, hrun⟩ := backLoop_found hno hhigh ha
  obtain ⟨maxSum', hgreat, hfirst⟩ := maximunSubarray_spec hne hno
  obtain rfl : maxSum' = maxSum := hgreat.unique h.best.isGreatest
  have hlow : (low : Int) ≤ intMax := by
    by_cases hend : low = high + 1
    · have hz : maxSum' = 0 := by
        rw [hend] at hfront
        omega
      have hh := (hempty hz).2
      omega
    · omega
  refine ⟨maxSum', low, high, ⟨high + 1, ?_⟩, hgreat, hhi, hhigh, ?_, ?_, hfirst⟩
  · intro fuel hfuel m l k
    have hstart : wrap32 (high : Int) = (high : Int) := wrap32_eq (by omega) hsmall
    have hback : Machine.int32 ((low : Int) - 1 + 1) = some (low : Int) := by
      rw [Int.sub_add_cancel]
      exact int32_eq (by omega) hlow
    have hsize : wrap64 (low : Int) = (low : Int) :=
      wrap64_eq (by omega) (lt_of_le_of_lt hlow (by decide))
    rw [maximunSubarray2_eq hne hscan, hstart, ← hsum, hrun fuel hfuel]
    simp only [Option.bind_eq_bind, Option.bind_some, hback, hsize]
  · rw [segSum_eq arr hhi, hfront, hsum]
  · intro hz
    have heq := (hempty hz).1
    omega

/-- Where it does not fit, the second loop reads outside the array. -/
theorem Scanned.lost {arr : List Int} (hne : arr ≠ []) {thisSum maxSum : Int} {high : Nat}
    (h : Scanned arr arr.length thisSum maxSum high)
    (hscan : scan2 arr 0 (0, 0, 0) = some (thisSum, maxSum, high))
    (hlate : ¬ (maxSum = 0 ∨ (high : Int) ≤ intMax)) (fuel : Nat) (m l k : Int) :
    maximunSubarray2 fuel (some arr) m l k = none := by
  rw [not_or] at hlate
  rcases h.found with ⟨hz, -⟩ | ⟨hpos, -, -, hfirst⟩
  · exact absurd hz hlate.1
  · -- whatever `int` the index becomes, it is in front of the end
    have hfront : wrap32 (high : Int) < (high : Int) := by
      have hle : wrap32 (high : Int) ≤ intMax := by
        have hb := Int.bmod_lt (x := (high : Int)) (m := 2 ^ 32) (by decide)
        have hmax : intMax = 2147483647 := rfl
        rw [wrap32]
        omega
      exact lt_of_le_of_lt hle (not_le.mp hlate.2)
    rw [maximunSubarray2_eq hne hscan, backLoop_lost hpos hfirst hfront]
    rfl

theorem SubarrayLaw.early {arr : List Int} (hne : arr ≠ []) (hno : NoOverflow arr)
    (h : SubarrayLaw arr) : Early arr := by
  obtain ⟨maxSum, low, high, ⟨enough, hrun⟩, -⟩ := h
  obtain ⟨thisSum, best, last, hscan, hs⟩ :=
    scan2_spec hno arr rfl (Nat.zero_le _) (scanned_zero arr)
  rw [hs.early_iff]
  by_contra hlate
  have hnone := hs.lost hne hscan hlate (enough + 1) 0 0 0
  rw [hrun (enough + 1) (Nat.lt_succ_self _)] at hnone
  exact absurd hnone (Option.some_ne_none _)

theorem early_of_length {arr : List Int} (hne : arr ≠ []) (hno : NoOverflow arr)
    (hlen : arr.length ≤ 2 ^ 31) : Early arr := by
  obtain ⟨v, hgreat, -⟩ := maximunSubarray_spec hne hno
  rw [Early, List.take_of_length_le hlen]
  exact ⟨v, hgreat, hgreat⟩

/-- **The maximum subarray.**  On an array none of whose segments overflows, both
    functions do their work exactly when the largest sum is already reached within
    the first 2^31 elements, so on every array of that length at most; otherwise the
    index of its end does not fit in the `int` that `maximun_subarray2` searches
    backwards with. -/
theorem subarray_law_iff {arr : List Int} (hne : arr ≠ []) (hno : NoOverflow arr) :
    (SubarrayLaw arr ↔ Early arr) ∧ (arr.length ≤ 2 ^ 31 → SubarrayLaw arr) := by
  have hlaw : Early arr → SubarrayLaw arr := by
    intro hearly
    obtain ⟨thisSum, maxSum, high, hscan, hs⟩ :=
      scan2_spec hno arr rfl (Nat.zero_le _) (scanned_zero arr)
    exact hs.law hne hno hscan (hs.early_iff.mp hearly)
  exact ⟨⟨fun h => h.early hne hno, hlaw⟩, fun hlen => hlaw (early_of_length hne hno hlen)⟩

theorem subarray_law_three : SubarrayLaw [1, -2, 3] := by
  have hno : NoOverflow [1, -2, 3] := by
    have hsegs : ∀ j < 4, ∀ i < 4, intMin ≤ segSum [1, -2, 3] i j
        ∧ segSum [1, -2, 3] i j ≤ intMax := by decide
    rintro v ⟨i, j, hij, hj, rfl⟩
    have hj4 : j < 4 := Nat.lt_succ_of_le hj
    exact hsegs j hj4 i (by omega)
  exact (subarray_law_iff (List.cons_ne_nil _ _) hno).2 (by decide)

/-- Zeros, and a 1 behind them. -/
def lateOne (n : Nat) : List Int := List.replicate n 0 ++ [1]

theorem front_lateOne (n k : Nat) : front (lateOne n) k = if k ≤ n then 0 else 1 := by
  have hzeros : ∀ m, (List.replicate m (0 : Int)).sum = 0 := by
    intro m
    induction m with
    | zero => rfl
    | succ m ih => rw [List.replicate_succ, List.sum_cons, ih, Int.add_zero]
  rw [front, lateOne]
  split
  · next hk =>
      rw [List.take_append_of_le_length (by rw [List.length_replicate]; exact hk),
        List.take_replicate, hzeros]
  · next hk =>
      rw [List.take_of_length_le (by simp; omega), List.sum_append, hzeros]
      rfl

theorem lateOne_noOverflow (n : Nat) : NoOverflow (lateOne n) := by
  rintro v ⟨i, j, hij, -, rfl⟩
  have hmax : intMax = 2147483647 := rfl
  have hmin : intMin = -2147483648 := rfl
  rw [segSum_eq _ hij, front_lateOne, front_lateOne]
  split <;> split <;> omega

theorem lateOne_ne_nil (n : Nat) : lateOne n ≠ [] :=
  List.append_ne_nil_of_right_ne_nil _ (List.cons_ne_nil _ _)

/-- The 1 comes too late: among the zeros every sum is 0. -/
theorem lateOne_not_law {n : Nat} (hn : 2 ^ 31 ≤ n) : ¬ SubarrayLaw (lateOne n) := by
  intro hlaw
  obtain ⟨v, ⟨hmem, -⟩, -, hupper⟩ := hlaw.early (lateOne_ne_nil n) (lateOne_noOverflow n)
  have hv : v = 0 := by
    obtain ⟨i, j, hij, -, hj, rfl⟩ := mem_sums_take.mp hmem
    rw [front_lateOne, front_lateOne, if_pos (hj.trans hn), if_pos (hij.trans (hj.trans hn))]
    rfl
  have hone : (1 : Int) ∈ sums (lateOne n) := by
    refine ⟨0, n + 1, Nat.zero_le _, by simp [lateOne], ?_⟩
    rw [segSum_eq _ (Nat.zero_le _), front_lateOne, front_lateOne, if_neg (by omega),
      if_pos (Nat.zero_le _)]
    rfl
  have hle : (1 : Int) ≤ v := hupper hone
  omega

/-- A 1 behind 2^31 zeros: `high` is 2^31, and the second loop starts at the index
    -2^31. -/
theorem subarray_law_late :
    lateOne (2 ^ 31) ≠ [] ∧ NoOverflow (lateOne (2 ^ 31)) ∧ ¬ SubarrayLaw (lateOne (2 ^ 31)) :=
  ⟨lateOne_ne_nil _, lateOne_noOverflow _, lateOne_not_law (Nat.le_refl _)⟩

end Subarray
