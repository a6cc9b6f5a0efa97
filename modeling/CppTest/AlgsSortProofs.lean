import CppTest.SortingProofs

/-! # The merge sort of `sort.c`

    `algs_msort` sorts an array of `algs_sort_t` through callbacks: `compare(arr, m, n)`
    says whether `arr[m] > arr[n]`, `swap` exchanges two elements and `size` is the size
    of one.  The array is sorted by halves; the merge copies the whole range and fills
    it again from the copy, with one cursor in each half.  With `desc` the sorted array
    is turned round by swaps.

    The number of bytes of the copy is `n * opt.size()`, an `int`.  The result, for
    every strict weak order:

    * `algs_msort_stable` — the array is sorted, stably, if and only if that number
      fits an `int`; a longer array faults. -/

namespace AlgsSort

open Machine Sorting

variable {α : Type}

/-! ## The program -/

/-- `sizeof(algs_sort_t)`. -/
def sizeofSortT : Int := 4

/-- `struct algs_sort_opt`; a callback may be null.  A callback that is given an index
    outside the array faults. -/
structure SortOpt (α : Type) where
  compare : Option (List α → Int → Int → Option Bool)
  swap : Option (List α → Int → Int → Option (List α))
  size : Option Int

/-- `aux = malloc(bytes); memcpy(aux, arr, bytes)`.  A negative number of bytes is a
    huge `size_t`: there is no such block, and the copy goes to a null pointer. -/
def copyOf (arr : List α) (bytes : Int) : Option (List α) :=
  if 0 ≤ bytes ∧ bytes ≤ sizeofSortT * arr.length then
    some (arr.take (bytes / sizeofSortT).toNat)
  else none

/-- Whether a pass takes its element from the right half. -/
def takesRight (compare : List α → Int → Int → Option Bool) (aux : List α) (m n i j : Int) :
    Option Bool :=
  if m ≤ i then some true
  else if n ≤ j then some false
  else compare aux i j

/-- The loop of `algs_msort_merge`; its first argument counts the passes that are left. -/
def mergeLoop (compare : List α → Int → Int → Option Bool) (aux : List α) (m n : Int) :
    Nat → Int → Int → Int → List α → Option (List α)
  | 0, _, _, _, arr => some arr
  | passes + 1, i, j, k, arr => do
      let right ← takesRight compare aux m n i j
      if right then
        let x ← getAt aux j
        mergeLoop compare aux m n passes i (j + 1) (k + 1) (← setAt arr k x)
      else
        let x ← getAt aux i
        mergeLoop compare aux m n passes (i + 1) j (k + 1) (← setAt arr k x)

/-- `algs_msort_merge(arr, opt, m, n)`, with its return value. -/
def algsMsortMerge (opt : SortOpt α) (arr : List α) (m n : Int) : Option (List α × Int) := do
  let compare ← opt.compare
  let size ← opt.size
  let aux ← copyOf arr (wrap32 (n * size))
  let arr ← mergeLoop compare aux m n n.toNat 0 m 0 arr
  some (arr, 0)

/-- `algs_msort_r(arr, opt, n)`: the recursion on fuel.  `arr` holds the cells from the
    pointer on. -/
def algsMsortR (opt : SortOpt α) : Nat → List α → Int → Option (List α × Int)
  | 0, _, _ => none
  | fuel + 1, arr, n =>
      if n < 0 then none
      else if n ≤ 1 then some (arr, 0)
      else do
        let m := n / 2
        let (arr, _) ← algsMsortR opt fuel arr m
        let (right, _) ← algsMsortR opt fuel (arr.drop m.toNat) (n - m)
        let (arr, _) ← algsMsortMerge opt (arr.take m.toNat ++ right) m n
        some (arr, 0)

/-- The loop of `algs_msort_desc`; its second argument counts the passes that are left. -/
def descLoop (swap : List α → Int → Int → Option (List α)) (n : Int) :
    Nat → Int → List α → Option (List α)
  | 0, _, arr => some arr
  | passes + 1, i, arr => do
      let arr ← swap arr i (n - 1 - i)
      descLoop swap n passes (i + 1) arr

/-- `algs_msort_desc(arr, opt, n)`. -/
def algsMsortDesc (opt : SortOpt α) (arr : List α) (n : Int) : Option (List α × Int) := do
  let swap ← opt.swap
  let arr ← descLoop swap n (n / 2).toNat 0 arr
  some (arr, 0)

/-- `algs_msort(arr, opt, n, desc)`; the array is null or given by its cells. -/
def algsMsort (opt : SortOpt α) (fuel : Nat) (arr : Option (List α)) (n desc : Int) :
    Option (Option (List α) × Int) :=
  match arr with
  | none => some (none, -1)
  | some cells =>
      if n < 0 ∨ opt.compare.isNone = true ∨ opt.swap.isNone = true then some (some cells, -1)
      else if n ≤ 1 then some (some cells, 0)
      else do
        let (cells, r) ← algsMsortR opt fuel cells n
        if r ≠ 0 then some (some cells, -1)
        else if desc ≠ 0 then do
          let (cells, _) ← algsMsortDesc opt cells n
          some (some cells, 0)
        else some (some cells, 0)

/-! ## The callbacks -/

/-- A `compare` callback for the order `gt`: read the two cells and compare them. -/
def compareBy (gt : α → α → Bool) (arr : List α) (m n : Int) : Option Bool := do
  let x ← getAt arr m
  let y ← getAt arr n
  some (gt x y)

/-- The callbacks sort by `gt`: `compare` compares, `swap` exchanges two elements and
    `size` is the element size. -/
structure Orders (opt : SortOpt α) (gt : α → α → Bool) : Prop where
  compare_eq : opt.compare = some (compareBy gt)
  swap_eq : opt.swap = some swapAt
  size_eq : opt.size = some sizeofSortT

/-! ## The merge -/

section Merge

variable (gt : α → α → Bool)

/-- The pass that takes an element of the right half. -/
theorem mergeLoop_right {aux : List α} {m n i j : Int} {passes : Nat} {y o : α}
    {out old : List α} (hright : takesRight (compareBy gt) aux m n i j = some true)
    (hget : getAt aux j = some y) :
    mergeLoop (compareBy gt) aux m n (passes + 1) i j out.length (out ++ o :: old)
      = mergeLoop (compareBy gt) aux m n passes i (j + 1) (out ++ [y]).length
          ((out ++ [y]) ++ old) := by
  rw [mergeLoop, hright]
  simp only [Option.bind_eq_bind, Option.bind_some, if_true, hget, setAt_mid,
    List.append_assoc, List.singleton_append, List.length_append, List.length_singleton]
  rfl

/-- The pass that takes an element of the left half. -/
theorem mergeLoop_left {aux : List α} {m n i j : Int} {passes : Nat} {x o : α}
    {out old : List α} (hright : takesRight (compareBy gt) aux m n i j = some false)
    (hget : getAt aux i = some x) :
    mergeLoop (compareBy gt) aux m n (passes + 1) i j out.length (out ++ o :: old)
      = mergeLoop (compareBy gt) aux m n passes (i + 1) j (out ++ [x]).length
          ((out ++ [x]) ++ old) := by
  rw [mergeLoop, hright]
  simp only [Option.bind_eq_bind, Option.bind_some, hget, setAt_mid, Bool.false_eq_true,
    if_false, List.append_assoc, List.singleton_append, List.length_append, List.length_singleton]
  rfl

/-- The loop writes the merge of what the cursors have not passed.  `out` is the part of
    the array that is written. -/
theorem mergeLoop_eq (l r rest : List α) : ∀ (passes i j : Nat) (out old : List α),
    i ≤ l.length → j ≤ r.length → (l.length - i) + (r.length - j) = passes →
    old.length = passes →
    mergeLoop (compareBy gt) (l ++ r) l.length (l.length + r.length : Nat) passes i
      (l.length + j : Nat) out.length (out ++ (old ++ rest))
      = some (out ++ (List.merge (l.drop i) (r.drop j) (fun a b => !gt a b) ++ rest)) := by
  intro passes
  induction passes with
  | zero =>
      intro i j out old hi hj hpasses hold
      obtain rfl : old = [] := List.length_eq_zero_iff.mp hold
      rw [List.drop_of_length_le (by omega), List.drop_of_length_le (by omega)]
      simp [mergeLoop]
  | succ passes ih =>
      intro i j out old hi hj hpasses hold
      obtain ⟨o, old, rfl⟩ : ∃ o old', old = o :: old' :=
        List.exists_cons_of_length_eq_add_one hold
      have hgetl : ∀ hi' : i < l.length, getAt (l ++ r) (i : Int) = some (l.get ⟨i, hi'⟩) := by
        intro hi'
        rw [getAt_natCast, List.getElem?_append_left hi']
        exact List.getElem?_eq_getElem hi'
      have hgetr : ∀ hj' : j < r.length,
          getAt (l ++ r) (l.length + j : Nat) = some (r.get ⟨j, hj'⟩) := by
        intro hj'
        rw [getAt_natCast, List.getElem?_append_right (by omega), Nat.add_sub_cancel_left]
        exact List.getElem?_eq_getElem hj'
      rw [List.cons_append]
      by_cases hil : i = l.length
      · -- the left half is used up
        have hj' : j < r.length := by omega
        have hright : takesRight (compareBy gt) (l ++ r) l.length (l.length + r.length : Nat) i
            (l.length + j : Nat) = some true := by
          rw [takesRight, if_pos (by omega)]
        rw [mergeLoop_right gt hright (hgetr hj')]
        have hnext := ih i (j + 1) (out ++ [r.get ⟨j, hj'⟩]) old hi (by omega) (by omega)
          (by simpa using hold)
        have hnil : l.drop i = [] := List.drop_of_length_le (by omega)
        rw [← Nat.cast_add_one, Nat.add_assoc, hnext, hnil, List.drop_eq_getElem_cons hj']
        simp only [List.nil_merge, List.append_assoc, List.cons_append]
        rfl
      · have hi' : i < l.length := by omega
        by_cases hjr : j = r.length
        · -- the right half is used up
          have hleft : takesRight (compareBy gt) (l ++ r) l.length (l.length + r.length : Nat) i
              (l.length + j : Nat) = some false := by
            rw [takesRight, if_neg (by omega), if_pos (by omega)]
          rw [mergeLoop_left gt hleft (hgetl hi')]
          have hnext := ih (i + 1) j (out ++ [l.get ⟨i, hi'⟩]) old (by omega) hj (by omega)
            (by simpa using hold)
          have hnil : r.drop j = [] := List.drop_of_length_le (by omega)
          rw [← Nat.cast_add_one, hnext, hnil, List.drop_eq_getElem_cons hi']
          simp only [List.merge_right, List.append_assoc, List.cons_append]
          rfl
        · have hj' : j < r.length := by omega
          have hcompare : takesRight (compareBy gt) (l ++ r) l.length (l.length + r.length : Nat) i
              (l.length + j : Nat) = some (gt (l.get ⟨i, hi'⟩) (r.get ⟨j, hj'⟩)) := by
            rw [takesRight, if_neg (by omega), if_neg (by omega), compareBy, hgetl hi', hgetr hj']
            rfl
          rw [List.drop_eq_getElem_cons hi', List.drop_eq_getElem_cons hj', List.cons_merge_cons]
          cases hgt : gt (l.get ⟨i, hi'⟩) (r.get ⟨j, hj'⟩) with
          | true =>
              rw [hgt] at hcompare
              rw [mergeLoop_right gt hcompare (hgetr hj')]
              have hnext := ih i (j + 1) (out ++ [r.get ⟨j, hj'⟩]) old hi (by omega) (by omega)
                (by simpa using hold)
              rw [← Nat.cast_add_one, Nat.add_assoc, hnext, List.drop_eq_getElem_cons hi',
                if_neg (by simp)]
              simp
          | false =>
              rw [hgt] at hcompare
              rw [mergeLoop_left gt hcompare (hgetl hi')]
              have hnext := ih (i + 1) j (out ++ [l.get ⟨i, hi'⟩]) old (by omega) hj (by omega)
                (by simpa using hold)
              rw [← Nat.cast_add_one, hnext, List.drop_eq_getElem_cons hj',
                if_pos (by simp)]
              simp

variable {gt} {opt : SortOpt α}

/-- The copy of an array that is not too long. -/
theorem copyOf_eq {arr : List α} {n : Nat} (hn : n ≤ arr.length)
    (hbytes : (n : Int) * sizeofSortT ≤ intMax) :
    copyOf arr (wrap32 (n * sizeofSortT)) = some (arr.take n) := by
  have hsize : (0 : Int) < sizeofSortT := by decide
  have hpos : 0 ≤ (n : Int) * sizeofSortT := Int.mul_nonneg (by omega) (by omega)
  have hle : (n : Int) * sizeofSortT ≤ sizeofSortT * arr.length := by
    rw [Int.mul_comm]
    exact Int.mul_le_mul_of_nonneg_left (by omega) (by omega)
  rw [wrap32_eq hpos hbytes, copyOf, if_pos ⟨hpos, hle⟩,
    Int.mul_ediv_cancel _ (by omega), Int.toNat_natCast]

theorem algsMsortMerge_eq {compare : List α → Int → Int → Option Bool} {size : Int}
    (hcompare : opt.compare = some compare) (hsize : opt.size = some size) (arr : List α)
    (m n : Int) :
    algsMsortMerge opt arr m n
      = (copyOf arr (wrap32 (n * size))).bind (fun aux =>
          (mergeLoop compare aux m n n.toNat 0 m 0 arr).bind fun arr => some (arr, 0)) := by
  rw [algsMsortMerge, hcompare, hsize]
  rfl

/-- The merge of two halves `l` and `r`, in an array that may go on behind them. -/
theorem algsMsortMerge_merges (hopt : Orders opt gt) (l r rest : List α)
    (hbytes : ((l.length + r.length : Nat) : Int) * sizeofSortT ≤ intMax) :
    algsMsortMerge opt (l ++ r ++ rest) l.length (l.length + r.length : Nat)
      = some (List.merge l r (fun a b => !gt a b) ++ rest, 0) := by
  have hlen : l.length + r.length ≤ (l ++ r ++ rest).length := by
    simp only [List.length_append]
    omega
  have hcopy := copyOf_eq hlen hbytes
  rw [List.take_left' (by simp)] at hcopy
  have hloop := mergeLoop_eq gt l r rest (l.length + r.length) 0 0 [] (l ++ r) (Nat.zero_le _)
    (Nat.zero_le _) (by omega) (by simp)
  simp only [Nat.add_zero, List.length_nil, List.nil_append, List.drop_zero,
    Nat.cast_zero] at hloop
  rw [algsMsortMerge_eq hopt.compare_eq hopt.size_eq, hcopy, Option.bind_some,
    Int.toNat_natCast, hloop, Option.bind_some]

/-- The number of bytes of a range that is too long: negative, or too small for the left
    half of the range. -/
theorem wrap32_bytes {n : Nat} (hn : (n : Int) ≤ intMax)
    (hbytes : intMax < (n : Int) * sizeofSortT) :
    wrap32 (n * sizeofSortT) < 0 ∨ wrap32 (n * sizeofSortT) / sizeofSortT ≤ (n / 2 : Nat) := by
  rw [intMax] at hn hbytes
  rw [sizeofSortT] at hbytes ⊢
  rw [wrap32, Int.bmod_def]
  split <;> omega

/-- The merge of a range that is too long faults: there is no copy of it, or the first
    pass reads behind the copy. -/
theorem algsMsortMerge_faults (hopt : Orders opt gt) (arr : List α) {n : Nat} (htwo : 2 ≤ n)
    (hn : (n : Int) ≤ intMax) (hbytes : intMax < (n : Int) * sizeofSortT) :
    algsMsortMerge opt arr (n / 2 : Nat) n = none := by
  rw [algsMsortMerge_eq hopt.compare_eq hopt.size_eq]
  rcases wrap32_bytes hn hbytes with hneg | hshort
  · rw [copyOf, if_neg (by omega), Option.bind_none]
  · cases hcopy : copyOf arr (wrap32 (n * sizeofSortT)) with
    | none => exact Option.bind_none _
    | some aux =>
        have haux : aux.length ≤ n / 2 := by
          rw [copyOf] at hcopy
          split at hcopy
          · rw [← Option.some.inj hcopy, List.length_take]
            omega
          · exact absurd hcopy.symm (Option.some_ne_none _)
        have hread : getAt aux (n / 2 : Nat) = none := by
          rw [getAt_natCast]
          exact List.getElem?_eq_none haux
        have hfirst : takesRight (compareBy gt) aux (n / 2 : Nat) n 0 (n / 2 : Nat) = none := by
          rw [takesRight, if_neg (by omega), if_neg (by omega), compareBy, hread]
          cases getAt aux 0 <;> rfl
        obtain ⟨passes, rfl⟩ : ∃ passes, n = passes + 1 := ⟨n - 1, by omega⟩
        rw [Option.bind_some, Int.toNat_natCast, mergeLoop, hfirst]
        rfl

end Merge

/-! ## The recursion -/

section Recursion

variable {gt : α → α → Bool} {opt : SortOpt α}

/-- A call on at least two elements: both halves, then the merge. -/
theorem algsMsortR_halves (fuel : Nat) (arr : List α) {n : Nat} (htwo : 2 ≤ n) :
    algsMsortR opt (fuel + 1) arr n
      = (algsMsortR opt fuel arr (n / 2 : Nat)).bind fun left =>
          (algsMsortR opt fuel (left.1.drop (n / 2)) (n - n / 2 : Nat)).bind fun right =>
            (algsMsortMerge opt (left.1.take (n / 2) ++ right.1) (n / 2 : Nat) n).bind fun out =>
              some (out.1, (0 : Int)) := by
  have hdiv : (n : Int) / 2 = (n / 2 : Nat) := by omega
  have hsub : (n : Int) - (n / 2 : Nat) = (n - n / 2 : Nat) := by omega
  rw [algsMsortR, if_neg (by omega), if_neg (by omega)]
  simp only [hdiv, hsub, Int.toNat_natCast]
  rfl

/-- The first `n` cells are sorted stably and the others stay. -/
theorem algsMsortR_spec [IsStrictWeakOrder α (fun a b => gt a b = true)] (hopt : Orders opt gt) :
    ∀ (n : Nat) (arr : List α), n ≤ arr.length → (n : Int) * sizeofSortT ≤ intMax →
      ∃ out, StableSorted gt (arr.take n) out ∧
        ∀ fuel, n < fuel → algsMsortR opt fuel arr n = some (out ++ arr.drop n, 0) := by
  intro n
  induction n using Nat.strongRecOn with
  | ind n ih =>
      intro arr hn hbytes
      by_cases hone : n ≤ 1
      · refine ⟨arr.take n, StableSorted.refl_of_length (by rw [List.length_take]; omega), ?_⟩
        intro fuel hfuel
        obtain ⟨fuel, rfl⟩ : ∃ f, fuel = f + 1 := ⟨fuel - 1, by omega⟩
        rw [algsMsortR, if_neg (by omega), if_pos (by omega), List.take_append_drop]
      · rw [sizeofSortT] at hbytes
        have hsum : n / 2 + (n - n / 2) = n := by omega
        obtain ⟨l, hl, hleft⟩ := ih (n / 2) (by omega) arr (by omega) (by rw [sizeofSortT]; omega)
        obtain ⟨r, hr, hright⟩ := ih (n - n / 2) (by omega) (arr.drop (n / 2))
          (by rw [List.length_drop]; omega) (by rw [sizeofSortT]; omega)
        rw [List.drop_drop, hsum] at hright
        have hllen : l.length = n / 2 := by
          rw [hl.perm.length_eq, List.length_take]
          omega
        have hrlen : r.length = n - n / 2 := by
          rw [hr.perm.length_eq, List.length_take, List.length_drop]
          omega
        have hmerge := algsMsortMerge_merges hopt l r (arr.drop n)
          (by rw [sizeofSortT, hllen, hrlen]; omega)
        rw [hllen, hrlen, hsum] at hmerge
        refine ⟨List.merge l r (fun a b => !gt a b), ?_, ?_⟩
        · have hsplit : arr.take n = arr.take (n / 2) ++ (arr.drop (n / 2)).take (n - n / 2) := by
            rw [← List.take_add, hsum]
          rw [hsplit]
          exact hl.merge hr
        · intro fuel hfuel
          obtain ⟨fuel, rfl⟩ : ∃ f, fuel = f + 1 := ⟨fuel - 1, by omega⟩
          rw [algsMsortR_halves fuel arr (by omega), hleft fuel (by omega)]
          simp only [Option.bind_some, List.drop_left' hllen, List.take_left' hllen,
            hright fuel (by omega), ← List.append_assoc, hmerge]

/-- A call on a range that is too long never comes to a result. -/
theorem algsMsortR_faults (hopt : Orders opt gt) (fuel : Nat) (arr : List α) {n : Nat}
    (htwo : 2 ≤ n) (hn : (n : Int) ≤ intMax) (hbytes : intMax < (n : Int) * sizeofSortT) :
    algsMsortR opt fuel arr n = none := by
  cases fuel with
  | zero => rfl
  | succ fuel =>
      rw [algsMsortR_halves fuel arr htwo]
      simp only [algsMsortMerge_faults hopt _ htwo hn hbytes, Option.bind_none, Option.bind_fun_none]

end Recursion

/-! ## The order turned round -/

/-- The loop turns a part of the array round, from its ends inwards. -/
theorem descLoop_eq : ∀ (passes : Nat) (l m r : List α), l.length = r.length →
    passes = m.length / 2 →
    descLoop swapAt (l ++ m ++ r).length passes l.length (l ++ m ++ r)
      = some (l ++ m.reverse ++ r) := by
  intro passes
  induction passes with
  | zero =>
      intro l m r hlr hpasses
      rw [descLoop, reverse_of_short (by omega)]
  | succ passes ih =>
      intro l m r hlr hpasses
      obtain ⟨x, m, rfl⟩ : ∃ x m', m = x :: m' := List.exists_cons_of_length_pos (by omega)
      obtain ⟨m, y, rfl⟩ : ∃ m' y, m = m' ++ [y] := by
        refine ⟨m.dropLast, m.getLast ?_, (List.dropLast_append_getLast _).symm⟩
        rintro rfl
        simp at hpasses
      have hcells : l ++ x :: (m ++ [y]) ++ r = l ++ x :: (m ++ y :: r) := by simp
      have hlast : ((l ++ x :: (m ++ [y]) ++ r).length : Int) - 1 - l.length
          = (l.length + 1 + m.length : Nat) := by
        simp only [List.length_append, List.length_cons, List.length_nil]
        omega
      have hnext := ih (l ++ [y]) m ([x] ++ r) (by simp [hlr])
        (by simp only [List.length_cons, List.length_append, List.length_nil] at hpasses; omega)
      rw [descLoop, hlast, hcells, swapAt_mid]
      simpa [hlr, Nat.add_assoc] using hnext

theorem algsMsortDesc_eq {gt : α → α → Bool} {opt : SortOpt α} (hopt : Orders opt gt)
    (arr : List α) : algsMsortDesc opt arr arr.length = some (arr.reverse, 0) := by
  have hloop := descLoop_eq (arr.length / 2) [] arr [] rfl rfl
  simp only [List.nil_append, List.append_nil, List.length_nil, Nat.cast_zero] at hloop
  have hhalf : ((arr.length : Int) / 2).toNat = arr.length / 2 := by omega
  rw [algsMsortDesc, hopt.swap_eq]
  simp only [Option.bind_eq_bind, Option.bind_some, hhalf, hloop]

/-! ## The sort -/

/-- `algs_msort` returns 0 and leaves the array sorted stably; with `desc` it leaves that
    array turned round. -/
def SortsStably (opt : SortOpt α) (gt : α → α → Bool) (arr : List α) : Prop :=
  ∃ out, StableSorted gt arr out ∧ ∀ fuel, arr.length < fuel →
    algsMsort opt fuel (some arr) arr.length 0 = some (some out, 0) ∧
    algsMsort opt fuel (some arr) arr.length 1 = some (some out.reverse, 0)

section Result

variable {gt : α → α → Bool} {opt : SortOpt α} (hopt : Orders opt gt)

include hopt

theorem algsMsort_short (fuel : Nat) {arr : List α} (hone : arr.length ≤ 1) (desc : Int) :
    algsMsort opt fuel (some arr) arr.length desc = some (some arr, 0) := by
  rw [algsMsort, hopt.compare_eq, hopt.swap_eq]
  simp only [Option.isNone_some, Bool.false_eq_true, or_false]
  rw [if_neg (by omega), if_pos (by omega)]

theorem algsMsort_long (fuel : Nat) {arr : List α} (htwo : 2 ≤ arr.length) (desc : Int) :
    algsMsort opt fuel (some arr) arr.length desc
      = (algsMsortR opt fuel arr arr.length).bind fun out =>
          if out.2 ≠ 0 then some (some out.1, -1)
          else if desc ≠ 0 then
            (algsMsortDesc opt out.1 arr.length).bind fun turned => some (some turned.1, (0 : Int))
          else some (some out.1, 0) := by
  rw [algsMsort, hopt.compare_eq, hopt.swap_eq]
  simp only [Option.isNone_some, Bool.false_eq_true, or_false]
  rw [if_neg (by omega), if_neg (by omega)]
  rfl

/-- An array whose bytes are not an `int` is not sorted. -/
theorem not_sortsStably (arr : List α) (hn : (arr.length : Int) ≤ intMax)
    (hbytes : intMax < (arr.length : Int) * sizeofSortT) : ¬ SortsStably opt gt arr := by
  rintro ⟨out, -, hrun⟩
  have htwo : 2 ≤ arr.length := by
    have hmax : 4 ≤ intMax := by decide
    rw [sizeofSortT] at hbytes
    omega
  have hfail := (hrun (arr.length + 1) (Nat.lt_succ_self _)).1
  rw [algsMsort_long hopt _ htwo, algsMsortR_faults hopt _ arr htwo hn hbytes] at hfail
  exact Option.some_ne_none _ hfail.symm

/-- **`algs_msort`.**  For every array and every strict weak order the sort returns 0 with
    the array sorted stably, and with `desc` the reverse of that, if and only if the bytes
    of the array are an `int`. -/
theorem algs_msort_stable [IsStrictWeakOrder α (fun a b => gt a b = true)] (arr : List α)
    (hn : (arr.length : Int) ≤ intMax) :
    SortsStably opt gt arr ↔ (arr.length : Int) * sizeofSortT ≤ intMax := by
  by_cases hone : arr.length ≤ 1
  · refine iff_of_true ⟨arr, StableSorted.refl_of_length hone, ?_⟩ ?_
    · intro fuel _
      rw [reverse_of_short hone]
      exact ⟨algsMsort_short hopt fuel hone 0, algsMsort_short hopt fuel hone 1⟩
    · have hmax : 4 ≤ intMax := by decide
      rw [sizeofSortT]
      omega
  · constructor
    · intro hsorts
      by_contra hbytes
      exact not_sortsStably hopt arr hn (by omega) hsorts
    · intro hbytes
      obtain ⟨out, hout, hrun⟩ := algsMsortR_spec hopt arr.length arr (Nat.le_refl _) hbytes
      rw [List.take_length] at hout
      rw [List.drop_length, List.append_nil] at hrun
      have hdesc : algsMsortDesc opt out arr.length = some (out.reverse, 0) := by
        rw [← hout.perm.length_eq]
        exact algsMsortDesc_eq hopt out
      refine ⟨out, hout, fun fuel hfuel => ⟨?_, ?_⟩⟩
      · rw [algsMsort_long hopt fuel (by omega), hrun fuel hfuel, Option.bind_some,
          if_neg (by simp), if_neg (by simp)]
      · rw [algsMsort_long hopt fuel (by omega), hrun fuel hfuel, Option.bind_some,
          if_neg (by simp), if_pos (by simp), hdesc, Option.bind_some]

end Result

/-! ## The callbacks of the test -/

/-- The order of `int_cmp`. -/
def intGt (a b : Int) : Bool := decide (a > b)

/-- `int_cmp`. -/
def intCmp : List Int → Int → Int → Option Bool := compareBy intGt

/-- `int_swap`. -/
def intSwap : List Int → Int → Int → Option (List Int) := swapAt

/-- `int_size`. -/
def intSize : Int := 4

/-- The options of the test. -/
def intOpt : SortOpt Int := ⟨some intCmp, some intSwap, some intSize⟩

theorem orders_intOpt : Orders intOpt intGt := ⟨rfl, rfl, rfl⟩

instance : IsStrictWeakOrder Int (fun a b => intGt a b = true) where
  irrefl a := by simp [intGt]
  trans a b c hab hbc := by
    simp only [intGt, decide_eq_true_eq] at *
    omega
  incomp_trans a b c hab hbc := by
    simp only [intGt, decide_eq_true_eq] at *
    omega

theorem algs_msort_stable_three :
    SortsStably intOpt intGt [3, 1, 2] ↔ (([3, 1, 2] : List Int).length : Int) * sizeofSortT ≤ intMax :=
  algs_msort_stable orders_intOpt [3, 1, 2] (by decide)

/-- An array of 2^29 elements is not sorted: its bytes are not an `int`. -/
theorem algs_msort_overflows : ¬ SortsStably intOpt intGt (List.replicate (2 ^ 29) 7) := by
  have hmax : ((2 ^ 29 : Nat) : Int) ≤ intMax := by decide
  have hbytes : intMax < ((2 ^ 29 : Nat) : Int) * sizeofSortT := by decide
  refine not_sortsStably orders_intOpt _ ?_ ?_
  · rw [List.length_replicate]
    exact hmax
  · rw [List.length_replicate]
    exact hbytes

end AlgsSort
