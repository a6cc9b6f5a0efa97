import CppTest.MachineProofs
import Mathlib.Data.Nat.Log

/-! # Binary search (`binary_search` of `src/algs/cti/test_cti.cpp`)

    `binary_search` halves a CLOSED interval of indices that starts as `[0, length]`,
    one cell too far, and computes `(low + high) / 2` in `int`.

    * As long as the search only goes right, `high` is `length` and the cells it reads
      depend on the length alone: `rightProbe`.
    * Once it has turned left it stays inside the array (`Window`), and the usual
      invariant carries it to the end (`searchPass_window`).
    * A search that never turns left in time reads `arr[length]`, or overflows before
      (`search_lost`).
    * The result: `search_law_iff`. -/

namespace CtiSearch

open Machine

/-! ## The model -/

/-- One pass of the loop of `binary_search`. -/
def searchPass (arr : List Int) (val : Int) : Int × Int → Option (Pass (Int × Int) Int)
  | (low, high) =>
      if low ≤ high then do
        let mid := (← int32 (low + high)).tdiv 2
        let x ← getAt arr mid
        if x < val then some (.next (mid + 1, high))
        else if x > val then some (.next (low, mid - 1))
        else some (.done mid)
      else some (.done (-1))

/-- `binary_search`.  A null pointer is `none`. -/
def binarySearch (fuel : Nat) (arr : Option (List Int)) (length val : Int) : Option Int :=
  match arr with
  | none => some (-2)
  | some arr => if length = 0 then some (-2) else loop (searchPass arr val) fuel (0, length)

/-! ## The law -/

/-- What a search is for: it returns an index where `val` is, or -1 if it is nowhere. -/
def SearchLaw (arr : List Int) (val : Int) : Prop :=
  ∃ r, (∃ enough, ∀ fuel, enough < fuel → binarySearch fuel (some arr) arr.length val = some r)
    ∧ ((∃ i : Nat, r = i ∧ arr[i]? = some val) ∨ (r = -1 ∧ val ∉ arr))

/-- The `j`-th cell that a search among `n` cells reads if it goes right every time. -/
def rightProbe (n j : Nat) : Nat := n - (n + 1) / 2 ^ (j + 1)

/-- Going right, the search reads a cell that is not below `val`, inside the array and
    at an index whose double fits in an `int`. -/
def TurnsInTime (arr : List Int) (val : Int) : Prop :=
  ∃ j x, rightProbe arr.length j < 2 ^ 30 ∧ arr[rightProbe arr.length j]? = some x ∧ val ≤ x

/-! ## The search -/

/-- The lower bound after `j` steps to the right. -/
def rightLow (n j : Nat) : Nat := n + 1 - (n + 1) / 2 ^ j

/-- The middle of what is left is the next probe. -/
theorem rightLow_mid (n j : Nat) : (rightLow n j + n) / 2 = rightProbe n j := by
  have hle : (n + 1) / 2 ^ j ≤ n + 1 := Nat.div_le_self _ _
  have hhalf : (n + 1) / 2 ^ (j + 1) = (n + 1) / 2 ^ j / 2 := by
    rw [Nat.pow_succ, Nat.div_div_eq_div_mul]
  rw [rightLow, rightProbe, hhalf]
  omega

theorem rightLow_succ {n j : Nat} (h : rightProbe n j < n) :
    rightLow n (j + 1) = rightProbe n j + 1 := by
  have hpow : 2 ^ 1 ≤ 2 ^ (j + 1) := Nat.pow_le_pow_right (by decide) (by omega)
  have hhalf : (n + 1) / 2 ^ (j + 1) ≤ (n + 1) / 2 ^ 1 := Nat.div_le_div_left hpow (by decide)
  rw [rightProbe] at h
  rw [rightLow, rightProbe]
  omega

theorem rightProbe_mono {n i j : Nat} (h : i ≤ j) : rightProbe n i ≤ rightProbe n j := by
  have hpow : 2 ^ (i + 1) ≤ 2 ^ (j + 1) := Nat.pow_le_pow_right (by decide) (by omega)
  have hdiv : (n + 1) / 2 ^ (j + 1) ≤ (n + 1) / 2 ^ (i + 1) :=
    Nat.div_le_div_left hpow (Nat.two_pow_pos _)
  rw [rightProbe, rightProbe]
  omega

/-- The pass that looks at index `mid`. -/
theorem searchPass_at {arr : List Int} (val : Int) {x : Int} {low high mid : Nat} (hle : low ≤ high)
    (hmid : (low + high) / 2 = mid) (hsmall : mid < 2 ^ 30) (hx : arr[mid]? = some x) :
    searchPass arr val ((low : Int), (high : Int))
      = some (if x < val then .next ((mid : Int) + 1, (high : Int))
          else if x > val then .next ((low : Int), (mid : Int) - 1) else .done (mid : Int)) := by
  have hmax : intMax = 2147483647 := rfl
  have hmin : intMin = -2147483648 := rfl
  have hadd : int32 ((low : Int) + (high : Int)) = some ((low + high : Nat) : Int) := by
    rw [← Int.natCast_add]
    exact int32_eq (by omega) (by omega)
  have hhalf : ((low + high : Nat) : Int).tdiv 2 = (mid : Int) := by
    rw [← hmid]
    exact (Int.ofNat_tdiv (low + high) 2).symm
  have hread : getAt arr (mid : Int) = some x := by rw [getAt_natCast, hx]
  rw [searchPass, if_pos (by omega), hadd]
  simp only [Option.bind_eq_bind, Option.bind_some, hhalf, hread]
  split
  · rfl
  · split <;> rfl

/-- The pass that looks outside the array. -/
theorem searchPass_outside {arr : List Int} (val : Int) {low high mid : Nat} (hle : low ≤ high)
    (hmid : (low + high) / 2 = mid) (hout : arr[mid]? = none) :
    searchPass arr val ((low : Int), (high : Int)) = none := by
  have hhalf : ((low : Int) + (high : Int)).tdiv 2 = (mid : Int) := by
    rw [← hmid, ← Int.natCast_add]
    exact (Int.ofNat_tdiv (low + high) 2).symm
  rw [searchPass, if_pos (by omega), int32]
  split
  · simp only [Option.bind_eq_bind, Option.bind_some, hhalf, getAt_natCast, hout, Option.bind_none]
  · rfl

/-- The search has narrowed `val` down to the indices `l ≤ i < h`: everything before is
    smaller and everything from `h` on is larger.  It has turned left and is inside
    the array, or it has gone right all the time, at most `J` times. -/
structure Window (arr : List Int) (val : Int) (J l h : Nat) : Prop where
  le : l ≤ h
  below : ∀ i x, i < l → arr[i]? = some x → x < val
  above : ∀ i x, h ≤ i → arr[i]? = some x → val < x
  phase : (h ≤ 2 ^ 30 ∧ h ≤ arr.length) ∨
    (h = arr.length + 1 ∧ ∃ j, j ≤ J ∧ l = rightLow arr.length j)

section Search

variable {arr : List Int} {val : Int}

theorem sorted_le (hs : arr.Pairwise (· ≤ ·)) {i j : Nat} {x y : Int} (hij : i ≤ j)
    (hx : arr[i]? = some x) (hy : arr[j]? = some y) : x ≤ y := by
  obtain ⟨hi, rfl⟩ := List.getElem?_eq_some_iff.mp hx
  obtain ⟨hj, rfl⟩ := List.getElem?_eq_some_iff.mp hy
  rcases Nat.lt_or_eq_of_le hij with hlt | rfl
  · exact List.pairwise_iff_getElem.mp hs i j hi hj hlt
  · exact le_refl _

/-- An empty window: `val` is nowhere. -/
theorem Window.notMem {J l : Nat} (h : Window arr val J l l) : val ∉ arr := by
  intro hmem
  obtain ⟨i, hi⟩ := List.mem_iff_getElem?.mp hmem
  rcases Nat.lt_or_ge i l with hlt | hge
  · exact lt_irrefl _ (h.below i val hlt hi)
  · exact lt_irrefl _ (h.above i val hge hi)

/-- The probe of a window that is not empty is inside it, inside the array and small. -/
theorem Window.probe {J l h : Nat} (hw : Window arr val J l h) (hlt : l < h) {mid : Nat}
    (hmid : (l + (h - 1)) / 2 = mid) (hJ : rightProbe arr.length J < 2 ^ 30)
    (hin : rightProbe arr.length J < arr.length) :
    l ≤ mid ∧ mid < h ∧ mid < 2 ^ 30 ∧ mid < arr.length := by
  rcases hw.phase with ⟨hsmall, hlen⟩ | ⟨rfl, j, hj, rfl⟩
  · omega
  · rw [Nat.add_sub_cancel] at hmid
    have heq : mid = rightProbe arr.length j := by rw [← hmid, rightLow_mid]
    have hmono := rightProbe_mono (n := arr.length) hj
    omega

/-- Going right: in the first phase one more step of it, since the `J`-th probe would
    have turned the search. -/
theorem Window.right {J l h mid : Nat} {x y : Int} (hs : arr.Pairwise (· ≤ ·))
    (hw : Window arr val J l h) (hlt : l < h) (hmid : (l + (h - 1)) / 2 = mid)
    (hJ : arr[rightProbe arr.length J]? = some y) (hy : val ≤ y) (hx : arr[mid]? = some x)
    (hxv : x < val) : Window arr val J (mid + 1) h := by
  refine ⟨by omega, ?_, hw.above, ?_⟩
  · intro i z hi hz
    exact lt_of_le_of_lt (sorted_le hs (by omega) hz hx) hxv
  · rcases hw.phase with hturned | ⟨rfl, j, hj, rfl⟩
    · exact .inl hturned
    · rw [Nat.add_sub_cancel] at hmid
      have heq : mid = rightProbe arr.length j := by rw [← hmid, rightLow_mid]
      have hlen : mid < arr.length := (List.getElem?_eq_some_iff.mp hx).1
      have hne : j ≠ J := by
        rintro rfl
        rw [heq, hJ] at hx
        have hyx := Option.some.inj hx
        omega
      refine .inr ⟨rfl, j + 1, by omega, ?_⟩
      rw [rightLow_succ (by omega), heq]

/-- Going left: from here on the search is inside the array. -/
theorem Window.left {J l h mid : Nat} {x : Int} (hs : arr.Pairwise (· ≤ ·))
    (hw : Window arr val J l h) (hl : l ≤ mid) (hsmall : mid < 2 ^ 30) (hx : arr[mid]? = some x)
    (hxv : val < x) : Window arr val J l mid := by
  have hlen : mid < arr.length := (List.getElem?_eq_some_iff.mp hx).1
  refine ⟨hl, hw.below, ?_, .inl ⟨by omega, by omega⟩⟩
  intro i z hi hz
  exact lt_of_lt_of_le hxv (sorted_le hs hi hx hz)

/-- A pass finds `val`, finds that it is nowhere, or makes the window smaller. -/
theorem searchPass_window (hs : arr.Pairwise (· ≤ ·)) {J : Nat} {y : Int}
    (hsmall : rightProbe arr.length J < 2 ^ 30) (hJ : arr[rightProbe arr.length J]? = some y)
    (hy : val ≤ y) :
    ∀ (n : Nat) (s : Int × Int),
      (∃ l h : Nat, Window arr val J l h ∧ s = ((l : Int), (h : Int) - 1) ∧ n = h - l) →
      (∃ r, searchPass arr val s = some (.done r)
        ∧ ((∃ i : Nat, r = i ∧ arr[i]? = some val) ∨ (r = -1 ∧ val ∉ arr))) ∨
      (∃ s' n', searchPass arr val s = some (.next s') ∧ n' < n
        ∧ ∃ l h : Nat, Window arr val J l h ∧ s' = ((l : Int), (h : Int) - 1) ∧ n' = h - l) := by
  rintro n s ⟨l, h, hw, rfl, rfl⟩
  have hle := hw.le
  rcases Nat.lt_or_eq_of_le hle with hlt | rfl
  · obtain ⟨mid, hmid⟩ : ∃ mid, (l + (h - 1)) / 2 = mid := ⟨_, rfl⟩
    obtain ⟨hl, hh, hm30, hmlen⟩ :=
      hw.probe hlt hmid hsmall (List.getElem?_eq_some_iff.mp hJ).1
    have hx : arr[mid]? = some arr[mid] := List.getElem?_eq_getElem hmlen
    have hhigh : (h : Int) - 1 = ((h - 1 : Nat) : Int) := by omega
    have hpass := searchPass_at val (show l ≤ h - 1 by omega) hmid hm30 hx
    rw [hhigh, hpass]
    by_cases hless : arr[mid] < val
    · rw [if_pos hless]
      refine .inr ⟨_, h - (mid + 1), rfl, by omega, mid + 1, h, ?_, ?_, rfl⟩
      · exact hw.right hs hlt hmid hJ hy hx hless
      · rw [hhigh]
        rfl
    · rw [if_neg hless]
      by_cases hmore : arr[mid] > val
      · rw [if_pos hmore]
        exact .inr ⟨_, mid - l, rfl, by omega, l, mid, hw.left hs hl hm30 hx hmore, rfl, rfl⟩
      · rw [if_neg hmore]
        refine .inl ⟨_, rfl, .inl ⟨mid, rfl, ?_⟩⟩
        rw [hx]
        congr 1
        omega
  · refine .inl ⟨-1, ?_, .inr ⟨rfl, hw.notMem⟩⟩
    rw [searchPass, if_neg (by omega)]

/-- A step to the right that does not turn the search in time reads outside the array,
    overflows, or is followed by another one. -/
theorem searchPass_lost (h : ¬ TurnsInTime arr val) {j : Nat}
    (hj : rightLow arr.length j ≤ arr.length) :
    searchPass arr val ((rightLow arr.length j : Int), (arr.length : Int)) = none ∨
    (searchPass arr val ((rightLow arr.length j : Int), (arr.length : Int))
        = some (.next ((rightLow arr.length (j + 1) : Int), (arr.length : Int)))
      ∧ rightLow arr.length (j + 1) ≤ arr.length) := by
  have hmid := rightLow_mid arr.length j
  have hmax : intMax = 2147483647 := rfl
  by_cases hsmall : rightProbe arr.length j < 2 ^ 30
  · by_cases hin : rightProbe arr.length j < arr.length
    · have hx := List.getElem?_eq_getElem hin
      have hless : arr[rightProbe arr.length j] < val := by
        by_contra hge
        exact h ⟨j, _, hsmall, hx, not_lt.mp hge⟩
      have hsucc := rightLow_succ hin
      refine .inr ⟨?_, by omega⟩
      rw [searchPass_at val hj hmid hsmall hx, if_pos hless, hsucc]
      rfl
    · exact .inl (searchPass_outside val hj hmid (List.getElem?_eq_none (not_lt.mp hin)))
  · refine .inl ?_
    have hover : int32 ((rightLow arr.length j : Int) + (arr.length : Int)) = none := by
      rw [int32, if_neg (by omega)]
    rw [searchPass, if_pos (by omega), hover]
    rfl

/-- **A search that never turns left in time** reads outside the array or overflows. -/
theorem search_lost (h : ¬ TurnsInTime arr val) (hne : arr ≠ []) (fuel : Nat) :
    binarySearch fuel (some arr) arr.length val = none := by
  have hlen := List.length_pos_iff.mpr hne
  have hpass : ∀ s : Int × Int,
      (∃ j, rightLow arr.length j ≤ arr.length
        ∧ s = ((rightLow arr.length j : Int), (arr.length : Int))) →
      searchPass arr val s = none ∨ ∃ s', searchPass arr val s = some (.next s')
        ∧ ∃ j, rightLow arr.length j ≤ arr.length
          ∧ s' = ((rightLow arr.length j : Int), (arr.length : Int)) := by
    rintro s ⟨j, hj, rfl⟩
    rcases searchPass_lost h hj with hnone | ⟨hnext, hj'⟩
    · exact .inl hnone
    · exact .inr ⟨_, hnext, j + 1, hj', rfl⟩
  have hzero : rightLow arr.length 0 = 0 := by simp [rightLow]
  have hstart := loop_never hpass fuel (0, (arr.length : Int)) ⟨0, by omega, by rw [hzero]; rfl⟩
  rw [binarySearch]
  show (if (arr.length : Int) = 0 then some (-2) else loop (searchPass arr val) fuel _) = none
  rw [if_neg (by omega), hstart]

theorem SearchLaw.turns (hne : arr ≠ []) (h : SearchLaw arr val) : TurnsInTime arr val := by
  obtain ⟨r, ⟨enough, hrun⟩, -⟩ := h
  by_contra hlost
  have hnone := search_lost hlost hne (enough + 1)
  rw [hrun (enough + 1) (Nat.lt_succ_self _)] at hnone
  exact absurd hnone (Option.some_ne_none _)

theorem TurnsInTime.law (hne : arr ≠ []) (hs : arr.Pairwise (· ≤ ·)) (h : TurnsInTime arr val) :
    SearchLaw arr val := by
  obtain ⟨J, y, hsmall, hJ, hy⟩ := h
  have hlen := List.length_pos_iff.mpr hne
  have hzero : rightLow arr.length 0 = 0 := by simp [rightLow]
  have hopen : Window arr val J 0 (arr.length + 1) := by
    refine ⟨Nat.zero_le _, fun i x hi => absurd hi (Nat.not_lt_zero i), ?_, ?_⟩
    · intro i x hi hx
      have hlt := (List.getElem?_eq_some_iff.mp hx).1
      omega
    · exact .inr ⟨rfl, 0, Nat.zero_le _, hzero.symm⟩
  obtain ⟨r, hr, hrun⟩ := loop_total (searchPass_window hs hsmall hJ hy) (arr.length + 1 - 0)
    (((0 : Nat) : Int), ((arr.length + 1 : Nat) : Int) - 1) ⟨0, arr.length + 1, hopen, rfl, rfl⟩
  refine ⟨r, ⟨arr.length + 1 - 0, ?_⟩, hr⟩
  intro fuel hfuel
  have hhigh : ((arr.length + 1 : Nat) : Int) - 1 = (arr.length : Int) := by omega
  rw [hhigh] at hrun
  rw [binarySearch]
  show (if (arr.length : Int) = 0 then some (-2) else loop (searchPass arr val) fuel _) = some r
  rw [if_neg (by omega)]
  exact hrun fuel hfuel

/-- Among 2^30 cells or fewer every search to the right ends at the last one. -/
theorem turnsInTime_iff (hne : arr ≠ []) (hs : arr.Pairwise (· ≤ ·)) (hlen : arr.length ≤ 2 ^ 30) :
    TurnsInTime arr val ↔ ∃ x, arr.getLast? = some x ∧ val ≤ x := by
  have hpos := List.length_pos_iff.mpr hne
  rw [List.getLast?_eq_getElem?]
  constructor
  · rintro ⟨j, x, -, hx, hval⟩
    have hin := (List.getElem?_eq_some_iff.mp hx).1
    have hlast : arr[arr.length - 1]? = some arr[arr.length - 1] :=
      List.getElem?_eq_getElem (by omega)
    exact ⟨_, hlast, hval.trans (sorted_le hs (by omega) hx hlast)⟩
  · rintro ⟨x, hx, hval⟩
    -- `(n + 1) / 2 ^ j` passes through 1
    have hlog : 1 ≤ Nat.log 2 (arr.length + 1) := Nat.log_pos (by decide) (by omega)
    have hone : (arr.length + 1) / 2 ^ Nat.log 2 (arr.length + 1) = 1 := by
      refine Nat.div_eq_of_lt_le ?_ ?_
      · rw [Nat.one_mul]
        exact Nat.pow_log_le_self 2 (by omega)
      · have hlt := Nat.lt_pow_succ_log_self (b := 2) (by decide) (arr.length + 1)
        rw [Nat.pow_succ] at hlt
        omega
    have hprobe : rightProbe arr.length (Nat.log 2 (arr.length + 1) - 1) = arr.length - 1 := by
      rw [rightProbe, Nat.sub_add_cancel hlog, hone]
    exact ⟨Nat.log 2 (arr.length + 1) - 1, x, by omega, by rw [hprobe, hx], hval⟩

end Search

/-! ## The result -/

/-- **Binary search** finds what there is to find exactly when the search turns left in
    time; among 2^30 cells or fewer, when `val` is not above the last cell. -/
theorem search_law_iff {arr : List Int} (hne : arr ≠ []) (hs : arr.Pairwise (· ≤ ·)) (val : Int) :
    (SearchLaw arr val ↔ TurnsInTime arr val)
    ∧ (arr.length ≤ 2 ^ 30 → (SearchLaw arr val ↔ ∃ x, arr.getLast? = some x ∧ val ≤ x)) := by
  have hiff : SearchLaw arr val ↔ TurnsInTime arr val :=
    ⟨fun h => h.turns hne, fun h => h.law hne hs⟩
  exact ⟨hiff, fun hlen => hiff.trans (turnsInTime_iff hne hs hlen)⟩

theorem search_law_three : SearchLaw [1, 4, 4] 3 :=
  ((search_law_iff (List.cons_ne_nil _ _) (by decide) 3).2 (by decide)).mpr ⟨4, rfl, by decide⟩

/-- A value above the last cell: `arr[1]` of one cell is read. -/
theorem search_law_above : ¬ SearchLaw [1] 2 := by
  intro h
  have hlast := (turnsInTime_iff (List.cons_ne_nil _ _) (by decide) (by decide)).mp
    (h.turns (List.cons_ne_nil _ _))
  obtain ⟨x, hx, hle⟩ := hlast
  rw [← Option.some.inj hx] at hle
  exact absurd hle (by decide)

end CtiSearch
