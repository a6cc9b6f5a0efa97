import CppTest.SortingProofs

/-! # The merge sort of `test_cti.cpp`

    `merge_sort` sorts the halves of an `int` array and `my_merge` merges them from two
    copies `L` and `R`.  Behind the last element of each copy stands `INT_MAX`, a sentinel
    that takes the place of the test whether a copy is used up.

    An `INT_MAX` among the data looks like the sentinel.  At a tie the left copy goes
    first, its sentinel included, so one such element in the right half is harmless
    when it is the last one written; a second one makes the loop read behind the
    sentinel of `L`.

    * `Distinguishable` — no right half of the recursion along the left edge holds
      `INT_MAX` twice.
    * `merge_sort_sorts` — the array is sorted if and only if that is so. -/

namespace CtiSort

open Machine Sorting

/-! ## The program -/

/-- `std::copy` of `len` cells from index `start` on into a new array of one more cell,
    and the sentinel behind them. -/
def copyRun (arr : List Int) (start len : Int) : Option (List Int) :=
  if 0 ≤ start ∧ 0 ≤ len ∧ start + len ≤ arr.length then
    some ((arr.drop start.toNat).take len.toNat ++ [intMax])
  else none

/-- The loop of `my_merge`; its first argument counts the passes that are left. -/
def mergeLoop (L R : List Int) : Nat → Int → Int → Int → List Int → Option (List Int)
  | 0, _, _, _, arr => some arr
  | passes + 1, i, j, k, arr => do
      let x ← getAt L i
      let y ← getAt R j
      if x ≤ y then
        mergeLoop L R passes (i + 1) j (k + 1) (← setAt arr k x)
      else
        mergeLoop L R passes i (j + 1) (k + 1) (← setAt arr k y)

/-- `my_merge(arr, p, q, r)`. -/
def myMerge (arr : List Int) (p q r : Int) : Option (List Int) := do
  let n1 := q - p + 1
  let n2 := r - q
  let L ← copyRun arr 0 n1
  let R ← copyRun arr n1 n2
  mergeLoop L R (r + 1 - p).toNat 0 0 p arr

/-- `merge_sort(arr, length)`: the recursion on fuel.  `arr` holds the cells from the
    pointer on, which is not null. -/
def mergeSort : Nat → List Int → Int → Option (List Int)
  | 0, _, _ => none
  | fuel + 1, arr, length =>
      if length < 2 then some arr
      else do
        let q := length / 2
        let arr ← mergeSort fuel arr q
        let right ← mergeSort fuel (arr.drop q.toNat) (length - q)
        myMerge (arr.take q.toNat ++ right) 0 (q - 1) (length - 1)

/-! ## The merge -/

section Merge

/-- The order of the merge. -/
def leInt (a b : Int) : Bool := decide (a ≤ b)

/-- The pass that takes an element of `L`. -/
theorem mergeLoop_left {L R : List Int} {i j : Int} {passes : Nat} {x y o : Int}
    {out old : List Int} (hx : getAt L i = some x) (hy : getAt R j = some y) (hle : x ≤ y) :
    mergeLoop L R (passes + 1) i j out.length (out ++ o :: old)
      = mergeLoop L R passes (i + 1) j (out ++ [x]).length ((out ++ [x]) ++ old) := by
  rw [mergeLoop, hx, hy]
  simp only [Option.bind_eq_bind, Option.bind_some, if_pos hle, setAt_mid,
    List.append_assoc, List.singleton_append, List.length_append, List.length_singleton]
  rfl

/-- The pass that takes an element of `R`. -/
theorem mergeLoop_right {L R : List Int} {i j : Int} {passes : Nat} {x y o : Int}
    {out old : List Int} (hx : getAt L i = some x) (hy : getAt R j = some y) (hlt : y < x) :
    mergeLoop L R (passes + 1) i j out.length (out ++ o :: old)
      = mergeLoop L R passes i (j + 1) (out ++ [y]).length ((out ++ [y]) ++ old) := by
  rw [mergeLoop, hx, hy]
  simp only [Option.bind_eq_bind, Option.bind_some, if_neg (not_le.mpr hlt), setAt_mid,
    List.append_assoc, List.singleton_append, List.length_append, List.length_singleton]
  rfl

/-- An element of a copy, in front of the sentinel. -/
theorem getAt_copy {l : List Int} {i : Nat} (hi : i < l.length) :
    getAt (l ++ [intMax]) (i : Int) = some (l[i]) := by
  rw [getAt_natCast, List.getElem?_append_left hi]
  exact List.getElem?_eq_getElem hi

/-- The sentinel. -/
theorem getAt_sentinel (l : List Int) : getAt (l ++ [intMax]) (l.length : Int) = some intMax :=
  getAt_mid l intMax []

/-- Behind the sentinel. -/
theorem getAt_behind (l : List Int) : getAt (l ++ [intMax]) (l.length + 1 : Nat) = none := by
  rw [getAt_natCast]
  exact List.getElem?_eq_none (by simp)

/-- In a sorted copy with at most one `INT_MAX` that one is the last element. -/
theorem last_of_max {r : List Int} (hr : ∀ y ∈ r, y ≤ intMax) (hsorted : r.Pairwise (· ≤ ·))
    (hcount : r.count intMax ≤ 1) {j : Nat} (hj : j < r.length)
    (hmax : r[j] = intMax) : j + 1 = r.length := by
  have hdrop : r.drop j = intMax :: r.drop (j + 1) := by
    rw [List.drop_eq_getElem_cons hj, hmax]
  have htail : ∀ y ∈ r.drop (j + 1), y = intMax := by
    intro y hy
    have hrel : (r.drop j).Pairwise (· ≤ ·) := hsorted.drop
    rw [hdrop] at hrel
    exact le_antisymm (hr y (List.mem_of_mem_drop hy)) (List.rel_of_pairwise_cons hrel hy)
  have hle : (r.drop j).count intMax ≤ r.count intMax := (List.drop_sublist j r).count_le intMax
  have hlen : (r.drop (j + 1)).count intMax = r.length - (j + 1) := by
    rw [List.count_eq_length.mpr (fun y hy => (htail y hy).symm), List.length_drop]
  rw [hdrop, List.count_cons_self, hlen] at hle
  omega

/-- With at most one `INT_MAX` in the right copy the loop writes the merge of what the
    cursors have not passed. -/
theorem mergeLoop_merges (l : List Int) {r : List Int} (rest : List Int)
    (hl : ∀ x ∈ l, x ≤ intMax) (hr : ∀ y ∈ r, y ≤ intMax) (hsorted : r.Pairwise (· ≤ ·))
    (hcount : r.count intMax ≤ 1) : ∀ (passes i j : Nat) (out old : List Int),
    i ≤ l.length → j ≤ r.length → (l.length - i) + (r.length - j) = passes →
    old.length = passes →
    mergeLoop (l ++ [intMax]) (r ++ [intMax]) passes i j out.length (out ++ (old ++ rest))
      = some (out ++ (List.merge (l.drop i) (r.drop j) leInt ++ rest)) := by
  intro passes
  induction passes with
  | zero =>
      intro i j out old hi hj hpasses hold
      obtain rfl : old = [] := List.length_eq_zero_iff.mp hold
      rw [List.drop_of_length_le (by omega), List.drop_of_length_le (by omega)]
      simp [mergeLoop]
  | succ passes ih =>
      intro i j out old hi hj hpasses hold
      obtain ⟨o, old, rfl⟩ : ∃ o old', old = o :: old' :=
        List.exists_cons_of_length_eq_add_one hold
      replace hold : old.length = passes := by simpa using hold
      rw [List.cons_append]
      by_cases hil : i = l.length
      · -- the left copy is used up: its sentinel is compared
        have hj' : j < r.length := by omega
        have hx : getAt (l ++ [intMax]) (i : Int) = some intMax := by
          rw [hil]
          exact getAt_sentinel l
        have hnil : l.drop i = [] := List.drop_of_length_le (by omega)
        rw [hnil, List.nil_merge, List.drop_eq_getElem_cons hj']
        by_cases hmax : r[j] = intMax
        · -- the sentinel goes first, and it is the last element written
          have hlast := last_of_max hr hsorted hcount hj' hmax
          obtain rfl : passes = 0 := by omega
          obtain rfl : old = [] := List.length_eq_zero_iff.mp hold
          rw [mergeLoop_left hx (getAt_copy hj') (le_of_eq hmax.symm), mergeLoop,
            List.drop_of_length_le (by omega)]
          simp [hmax]
        · have hlt : r[j] < intMax := lt_of_le_of_ne (hr _ (List.getElem_mem hj')) hmax
          rw [mergeLoop_right hx (getAt_copy hj') hlt]
          have hnext := ih i (j + 1) (out ++ [r[j]]) old hi (by omega) (by omega) hold
          rw [← Nat.cast_add_one, hnext, hnil]
          simp only [List.nil_merge, List.append_assoc, List.cons_append]
          rfl
      · have hi' : i < l.length := by omega
        by_cases hjr : j = r.length
        · -- the right copy is used up: no element is above its sentinel
          have hy : getAt (r ++ [intMax]) (j : Int) = some intMax := by
            rw [hjr]
            exact getAt_sentinel r
          have hnil : r.drop j = [] := List.drop_of_length_le (by omega)
          rw [mergeLoop_left (getAt_copy hi') hy (hl _ (List.getElem_mem hi'))]
          have hnext := ih (i + 1) j (out ++ [l[i]]) old (by omega) hj (by omega) hold
          rw [← Nat.cast_add_one, hnext, hnil, List.drop_eq_getElem_cons hi']
          simp only [List.merge_right, List.append_assoc, List.cons_append]
          rfl
        · have hj' : j < r.length := by omega
          rw [List.drop_eq_getElem_cons hi', List.drop_eq_getElem_cons hj', List.cons_merge_cons]
          by_cases hle : l[i] ≤ r[j]
          · have hnext := ih (i + 1) j (out ++ [l[i]]) old (by omega) hj (by omega) hold
            have hfirst : leInt l[i] r[j] = true := decide_eq_true hle
            rw [mergeLoop_left (getAt_copy hi') (getAt_copy hj') hle, ← Nat.cast_add_one, hnext,
              List.drop_eq_getElem_cons hj', if_pos hfirst]
            simp
          · have hlt : r[j] < l[i] := not_le.mp hle
            have hnext := ih i (j + 1) (out ++ [r[j]]) old hi (by omega) (by omega) hold
            rw [mergeLoop_right (getAt_copy hi') (getAt_copy hj') hlt, ← Nat.cast_add_one, hnext,
              List.drop_eq_getElem_cons hi', if_neg (by simpa [leInt] using hle)]
            simp

/-- With two more `INT_MAX` in the right copy the loop comes to read behind the sentinel of
    the left copy. -/
theorem mergeLoop_faults (l r rest : List Int) (hl : ∀ x ∈ l, x ≤ intMax)
    (hr : ∀ y ∈ r, y ≤ intMax) : ∀ (passes i j : Nat) (out old : List Int),
    i ≤ l.length → 2 ≤ (r.drop j).count intMax → (l.length - i) + (r.length - j) = passes →
    old.length = passes →
    mergeLoop (l ++ [intMax]) (r ++ [intMax]) passes i j out.length (out ++ (old ++ rest))
      = none := by
  intro passes
  induction passes with
  | zero =>
      intro i j out old hi hcount hpasses hold
      rw [List.drop_of_length_le (by omega)] at hcount
      exact absurd hcount (by simp)
  | succ passes ih =>
      intro i j out old hi hcount hpasses hold
      obtain ⟨o, old, rfl⟩ : ∃ o old', old = o :: old' :=
        List.exists_cons_of_length_eq_add_one hold
      replace hold : old.length = passes := by simpa using hold
      have htwo : 2 ≤ r.length - j := by
        rw [← List.length_drop]
        exact le_trans hcount List.count_le_length
      have hj' : j < r.length := by omega
      have hkept : r[j] ≠ intMax → 2 ≤ (r.drop (j + 1)).count intMax := by
        intro hne
        rw [List.drop_eq_getElem_cons hj', List.count_cons_of_ne hne] at hcount
        exact hcount
      rw [List.cons_append]
      by_cases hil : i = l.length
      · have hx : getAt (l ++ [intMax]) (i : Int) = some intMax := by
          rw [hil]
          exact getAt_sentinel l
        by_cases hmax : r[j] = intMax
        · -- the sentinel goes first, and a pass is left
          obtain ⟨passes, rfl⟩ : ∃ n, passes = n + 1 := ⟨passes - 1, by omega⟩
          have hbehind : getAt (l ++ [intMax]) ((i : Int) + 1) = none := by
            rw [hil]
            exact getAt_behind l
          rw [mergeLoop_left hx (getAt_copy hj') (le_of_eq hmax.symm), mergeLoop, hbehind]
          rfl
        · have hlt : r[j] < intMax := lt_of_le_of_ne (hr _ (List.getElem_mem hj')) hmax
          rw [mergeLoop_right hx (getAt_copy hj') hlt]
          exact ih i (j + 1) (out ++ [r[j]]) old hi (hkept hmax) (by omega) hold
      · have hi' : i < l.length := by omega
        by_cases hle : l[i] ≤ r[j]
        · rw [mergeLoop_left (getAt_copy hi') (getAt_copy hj') hle]
          exact ih (i + 1) j (out ++ [l[i]]) old (by omega) hcount (by omega) hold
        · have hlt : r[j] < l[i] := not_le.mp hle
          have hne : r[j] ≠ intMax :=
            ne_of_lt (lt_of_lt_of_le hlt (hl _ (List.getElem_mem hi')))
          rw [mergeLoop_right (getAt_copy hi') (getAt_copy hj') hlt]
          exact ih i (j + 1) (out ++ [r[j]]) old hi (hkept hne) (by omega) hold

/-- The two copies of `my_merge`, for halves `l` and `r` that are not empty. -/
theorem myMerge_eq (l r rest : List Int) (hl : l ≠ []) :
    myMerge (l ++ r ++ rest) 0 ((l.length : Int) - 1) ((l.length + r.length : Nat) - 1)
      = mergeLoop (l ++ [intMax]) (r ++ [intMax]) (l.length + r.length) 0 0 0
          (l ++ r ++ rest) := by
  have hpos : 0 < l.length := List.length_pos_iff.mpr hl
  have hn1 : (l.length : Int) - 1 - 0 + 1 = l.length := by omega
  have hn2 : ((l.length + r.length : Nat) : Int) - 1 - (l.length - 1) = r.length := by omega
  have hpasses : (((l.length + r.length : Nat) : Int) - 1 + 1 - 0).toNat
      = l.length + r.length := by omega
  have hL : copyRun (l ++ r ++ rest) 0 l.length = some (l ++ [intMax]) := by
    rw [copyRun, if_pos (by simp only [List.length_append]; omega)]
    simp
  have hR : copyRun (l ++ r ++ rest) l.length r.length = some (r ++ [intMax]) := by
    rw [copyRun, if_pos (by simp only [List.length_append]; omega)]
    simp
  rw [myMerge]
  simp only [hn1, hn2, hpasses, hL, hR, Option.bind_eq_bind, Option.bind_some]

end Merge

/-! ## The recursion -/

section Recursion

/-- No right half of the recursion along its left edge holds `INT_MAX` twice. -/
def Distinguishable (arr : List Int) : Prop :=
  ∀ k, ((arr.take (arr.length / 2 ^ k)).drop (arr.length / 2 ^ (k + 1))).count intMax ≤ 1

theorem distinguishable_of_count {arr : List Int} (h : arr.count intMax ≤ 1) :
    Distinguishable arr := by
  intro k
  have hsub : ((arr.take (arr.length / 2 ^ k)).drop (arr.length / 2 ^ (k + 1))).Sublist arr :=
    (List.drop_sublist _ _).trans (List.take_sublist _ _)
  exact le_trans (hsub.count_le intMax) h

theorem distinguishable_short {arr : List Int} (h : arr.length < 2) : Distinguishable arr :=
  distinguishable_of_count (le_trans List.count_le_length (by omega))

theorem distinguishable_halves (arr : List Int) :
    Distinguishable arr ↔ Distinguishable (arr.take (arr.length / 2)) ∧
      (arr.drop (arr.length / 2)).count intMax ≤ 1 := by
  have hlen : (arr.take (arr.length / 2)).length = arr.length / 2 := by
    rw [List.length_take]
    omega
  have hpow : ∀ k, arr.length / 2 / 2 ^ k = arr.length / 2 ^ (k + 1) := by
    intro k
    rw [Nat.div_div_eq_div_mul, Nat.pow_succ, Nat.mul_comm]
  have htake : ∀ k, (arr.take (arr.length / 2)).take (arr.length / 2 / 2 ^ k)
      = arr.take (arr.length / 2 ^ (k + 1)) := by
    intro k
    rw [List.take_take, Nat.min_eq_left (Nat.div_le_self _ _), hpow]
  constructor
  · intro h
    refine ⟨fun k => ?_, by simpa using h 0⟩
    rw [hlen, htake, hpow]
    exact h (k + 1)
  · rintro ⟨hleft, hright⟩ k
    cases k with
    | zero => simpa using hright
    | succ k =>
        have := hleft k
        rw [hlen, htake, hpow] at this
        exact this

/-- A call on at least two elements: both halves, then the merge. -/
theorem mergeSort_halves (fuel : Nat) (arr : List Int) {n : Nat} (htwo : 2 ≤ n) :
    mergeSort (fuel + 1) arr n
      = (mergeSort fuel arr (n / 2 : Nat)).bind fun left =>
          (mergeSort fuel (left.drop (n / 2)) (n - n / 2 : Nat)).bind fun right =>
            myMerge (left.take (n / 2) ++ right) 0 ((n / 2 : Nat) - 1) (n - 1) := by
  have hdiv : (n : Int) / 2 = (n / 2 : Nat) := by omega
  have hsub : (n : Int) - (n / 2 : Nat) = (n - n / 2 : Nat) := by omega
  rw [mergeSort, if_neg (by omega)]
  simp only [hdiv, hsub, Int.toNat_natCast]
  rfl

/-- When both halves are sorted, the loop of the merge is left. -/
theorem mergeSort_merges {fuel n : Nat} {arr l r r' rest : List Int} (htwo : 2 ≤ n)
    (hl : l.length = n / 2) (hr : r'.length = n - n / 2)
    (hleft : mergeSort fuel arr (n / 2 : Nat) = some (l ++ (r ++ rest)))
    (hright : mergeSort fuel (r ++ rest) (n - n / 2 : Nat) = some (r' ++ rest)) :
    mergeSort (fuel + 1) arr n
      = mergeLoop (l ++ [intMax]) (r' ++ [intMax]) n 0 0 0 (l ++ r' ++ rest) := by
  have hne : l ≠ [] := by
    rintro rfl
    rw [List.length_nil] at hl
    omega
  have hmerge := myMerge_eq l r' rest hne
  rw [hl, hr, show n / 2 + (n - n / 2) = n by omega] at hmerge
  rw [mergeSort_halves fuel arr htwo, hleft, Option.bind_some, List.drop_left' hl, hright,
    Option.bind_some, List.take_left' hl, ← List.append_assoc]
  exact hmerge

/-- The halves of a list, as a call sees them. -/
theorem split_halves (arr rest : List Int) :
    arr ++ rest = arr.take (arr.length / 2) ++ (arr.drop (arr.length / 2) ++ rest) := by
  rw [← List.append_assoc, List.take_append_drop]

theorem length_halves {arr : List Int} {n : Nat} (hn : arr.length = n) :
    (arr.take (n / 2)).length = n / 2 ∧ (arr.drop (n / 2)).length = n - n / 2 := by
  rw [List.length_take, List.length_drop]
  omega

/-- The first `n` cells are sorted and the others stay, when no sentinel can be
    mistaken. -/
theorem mergeSort_spec : ∀ (n : Nat) (arr : List Int), arr.length = n →
    (∀ x ∈ arr, x ≤ intMax) → Distinguishable arr →
    ∃ out, out.Perm arr ∧ out.Pairwise (· ≤ ·) ∧
      ∀ fuel rest, n < fuel → mergeSort fuel (arr ++ rest) n = some (out ++ rest) := by
  intro n
  induction n using Nat.strongRecOn with
  | ind n ih =>
      intro arr hn hmax hdist
      by_cases hshort : n < 2
      · refine ⟨arr, List.Perm.refl arr, pairwise_of_short (by omega), ?_⟩
        intro fuel rest hfuel
        obtain ⟨fuel, rfl⟩ : ∃ f, fuel = f + 1 := ⟨fuel - 1, by omega⟩
        rw [mergeSort, if_pos (by omega)]
      · obtain ⟨hdl, hcount⟩ := (distinguishable_halves arr).mp hdist
        rw [hn] at hdl hcount
        obtain ⟨hllen, hrlen⟩ := length_halves hn
        obtain ⟨l, hlperm, hlsorted, hleft⟩ := ih (n / 2) (by omega) (arr.take (n / 2)) hllen
          (fun x hx => hmax x (List.mem_of_mem_take hx)) hdl
        obtain ⟨r, hrperm, hrsorted, hright⟩ := ih (n - n / 2) (by omega) (arr.drop (n / 2)) hrlen
          (fun x hx => hmax x (List.mem_of_mem_drop hx)) (distinguishable_of_count hcount)
        have hl : ∀ x ∈ l, x ≤ intMax := fun x hx =>
          hmax x (List.mem_of_mem_take (hlperm.mem_iff.mp hx))
        have hr : ∀ x ∈ r, x ≤ intMax := fun x hx =>
          hmax x (List.mem_of_mem_drop (hrperm.mem_iff.mp hx))
        rw [← hrperm.count_eq] at hcount
        refine ⟨List.merge l r leInt, ?_, ?_, ?_⟩
        · refine (List.merge_perm_append _).trans ((hlperm.append hrperm).trans ?_)
          rw [List.take_append_drop]
        · have hsorted := List.pairwise_merge (fun a b c => by simpa [leInt] using le_trans)
            (fun a b => by simpa [leInt] using le_total a b) l r
            (hlsorted.imp (fun h => decide_eq_true h)) (hrsorted.imp (fun h => decide_eq_true h))
          exact hsorted.imp (fun h => of_decide_eq_true h)
        · intro fuel rest hfuel
          obtain ⟨fuel, rfl⟩ : ∃ f, fuel = f + 1 := ⟨fuel - 1, by omega⟩
          have hcells := split_halves arr rest
          rw [hn] at hcells
          have hllen' : l.length = n / 2 := by rw [hlperm.length_eq, hllen]
          have hrlen' : r.length = n - n / 2 := by rw [hrperm.length_eq, hrlen]
          have hrun := mergeSort_merges (by omega) hllen' hrlen'
            (hleft fuel (arr.drop (n / 2) ++ rest) (by omega)) (hright fuel rest (by omega))
          have hloop := mergeLoop_merges l rest hl hr hrsorted hcount n 0 0 [] (l ++ r)
            (Nat.zero_le _) (Nat.zero_le _) (by omega) (by rw [List.length_append]; omega)
          rw [hcells, hrun]
          simpa using hloop

/-- Where a sentinel can be mistaken, the call reads behind it. -/
theorem mergeSort_faults : ∀ (n : Nat) (arr : List Int), arr.length = n →
    (∀ x ∈ arr, x ≤ intMax) → ¬ Distinguishable arr →
    ∀ fuel rest, n < fuel → mergeSort fuel (arr ++ rest) n = none := by
  intro n
  induction n using Nat.strongRecOn with
  | ind n ih =>
      intro arr hn hmax hdist fuel rest hfuel
      obtain ⟨fuel, rfl⟩ : ∃ f, fuel = f + 1 := ⟨fuel - 1, by omega⟩
      have htwo : 2 ≤ n := by
        by_contra hshort
        exact hdist (distinguishable_short (by omega))
      have hcells := split_halves arr rest
      rw [hn] at hcells
      obtain ⟨hllen, hrlen⟩ := length_halves hn
      have hmaxl : ∀ x ∈ arr.take (n / 2), x ≤ intMax :=
        fun x hx => hmax x (List.mem_of_mem_take hx)
      have hmaxr : ∀ x ∈ arr.drop (n / 2), x ≤ intMax :=
        fun x hx => hmax x (List.mem_of_mem_drop hx)
      rw [distinguishable_halves, hn] at hdist
      by_cases hdl : Distinguishable (arr.take (n / 2))
      · obtain ⟨l, hlperm, -, hleft⟩ := mergeSort_spec (n / 2) _ hllen hmaxl hdl
        replace hleft := hleft fuel (arr.drop (n / 2) ++ rest) (by omega)
        have hllen' : l.length = n / 2 := by rw [hlperm.length_eq, hllen]
        by_cases hdr : Distinguishable (arr.drop (n / 2))
        · obtain ⟨r, hrperm, -, hright⟩ := mergeSort_spec (n - n / 2) _ hrlen hmaxr hdr
          have hrlen' : r.length = n - n / 2 := by rw [hrperm.length_eq, hrlen]
          have hcount : 2 ≤ (r.drop 0).count intMax := by
            rw [List.drop_zero, hrperm.count_eq]
            have := not_and.mp hdist hdl
            omega
          have hloop := mergeLoop_faults l r rest
            (fun x hx => hmaxl x (hlperm.mem_iff.mp hx))
            (fun x hx => hmaxr x (hrperm.mem_iff.mp hx)) n 0 0 [] (l ++ r) (Nat.zero_le _) hcount
            (by omega) (by rw [List.length_append]; omega)
          rw [hcells, mergeSort_merges htwo hllen' hrlen' hleft (hright fuel rest (by omega))]
          simpa using hloop
        · have hright := ih (n - n / 2) (by omega) _ hrlen hmaxr hdr fuel rest (by omega)
          rw [hcells, mergeSort_halves fuel _ htwo, hleft, Option.bind_some,
            List.drop_left' hllen', hright, Option.bind_none]
      · have hleft := ih (n / 2) (by omega) _ hllen hmaxl hdl fuel (arr.drop (n / 2) ++ rest)
          (by omega)
        rw [hcells, mergeSort_halves fuel _ htwo, hleft, Option.bind_none]

/-- `merge_sort` leaves the array a sorted permutation of itself, and `my_merge` reads
    nothing behind a sentinel (it would fault). -/
def Sorts (arr : List Int) : Prop :=
  ∃ out, out.Perm arr ∧ out.Pairwise (· ≤ ·) ∧
    ∀ fuel, arr.length < fuel → mergeSort fuel arr arr.length = some out

/-- An array with a sentinel that can be mistaken is not sorted. -/
theorem not_sorts {arr : List Int} (hmax : ∀ x ∈ arr, x ≤ intMax)
    (hdist : ¬ Distinguishable arr) : ¬ Sorts arr := by
  rintro ⟨out, -, -, hrun⟩
  have hfail := mergeSort_faults arr.length arr rfl hmax hdist (arr.length + 1) []
    (Nat.lt_succ_self _)
  rw [List.append_nil, hrun _ (Nat.lt_succ_self _)] at hfail
  exact Option.some_ne_none _ hfail

/-- **`merge_sort`.**  An array of `int`s is sorted, without a read behind a sentinel, if
    and only if no right half along the left edge of the recursion holds `INT_MAX` twice. -/
theorem merge_sort_sorts (arr : List Int) (hmax : ∀ x ∈ arr, x ≤ intMax) :
    Sorts arr ↔ Distinguishable arr := by
  constructor
  · intro hsorts
    by_contra hdist
    exact not_sorts hmax hdist hsorts
  · intro hdist
    obtain ⟨out, hperm, hsorted, hrun⟩ := mergeSort_spec arr.length arr rfl hmax hdist
    refine ⟨out, hperm, hsorted, fun fuel hfuel => ?_⟩
    have hout := hrun fuel [] hfuel
    rw [List.append_nil, List.append_nil] at hout
    exact hout

theorem merge_sort_sorts_three :
    Sorts [intMax, 2, intMax] ↔ Distinguishable [intMax, 2, intMax] :=
  merge_sort_sorts [intMax, 2, intMax] (by decide)

/-- Two `INT_MAX` in the right half. -/
theorem merge_sort_reads_behind : ¬ Sorts [1, intMax, intMax] := by
  refine not_sorts (by decide) ?_
  intro hdist
  exact absurd (hdist 0) (by decide)

end Recursion

end CtiSort
