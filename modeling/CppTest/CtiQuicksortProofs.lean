import CppTest.SortingProofs

/-! # The quicksort of `test_cti_heap.cpp`

    `quicksort_partition` moves the elements that are at most the pivot `a[r]` to the front
    of the range, in place: in front of the cursor `j` stand first these and then the
    greater ones, and each pass that finds a small element exchanges it with the first
    greater one.  Then the pivot is put between the two.

    * `quicksortPartition_spec` — the range becomes `lo`, the pivot, `hi`.
    * `quicksort_sorts` — `quicksort(a, p, r)` sorts the range and changes nothing else. -/

namespace CtiSort

open Machine Sorting

variable {α : Type} [LinearOrder α]

/-! ## The program -/

/-- One pass of the loop of `quicksort_partition`; the state is the array with `i` and
    `j`. -/
def partitionPass (r : Int) (s : List α × Int × Int) :
    Option (Pass (List α × Int × Int) (List α × Int)) := do
  let (a, i, j) := s
  if j = r then
    some (.done (a, i))
  else
    let x ← getAt a j
    let pivot ← getAt a r
    if x ≤ pivot then
      let a ← swapAt a (i + 1) j
      some (.next (a, i + 1, j + 1))
    else
      some (.next (a, i, j + 1))

/-- `quicksort_partition(a, p, r)`: the array and the place of the pivot. -/
def quicksortPartition (fuel : Nat) (a : List α) (p r : Int) : Option (List α × Int) := do
  let (a, i) ← loop (partitionPass r) fuel (a, p - 1, p)
  let a ← swapAt a (i + 1) r
  some (a, i + 1)

/-- `quicksort(a, p, r)`. -/
def quicksort : Nat → List α → Int → Int → Option (List α)
  | 0, _, _, _ => none
  | fuel + 1, a, p, r =>
      if p < r then do
        let (a, q) ← quicksortPartition fuel a p r
        let a ← quicksort fuel a p (q - 1)
        quicksort fuel a (q + 1) r
      else some a

/-! ## The partition -/

/-- The elements in front of the cursor, split by the pivot: `lo` first, then `hi`. -/
structure Split (pivot : α) (seen lo hi : List α) : Prop where
  lo_le : ∀ x ∈ lo, x ≤ pivot
  lt_hi : ∀ x ∈ hi, pivot < x
  perm : (lo ++ hi).Perm seen

theorem Split.small {pivot y : α} {seen lo hi : List α} (h : Split pivot seen lo hi)
    (hy : y ≤ pivot) : Split pivot (seen ++ [y]) (lo ++ [y]) (hi.rotate 1) := by
  refine ⟨?_, fun x hx => h.lt_hi x (List.mem_rotate.mp hx), ?_⟩
  · intro x hx
    rcases List.mem_append.mp hx with hx | hx
    · exact h.lo_le x hx
    · rw [List.mem_singleton.mp hx]
      exact hy
  · calc (lo ++ [y] ++ hi.rotate 1).Perm (lo ++ [y] ++ hi) :=
          (List.rotate_perm hi 1).append_left _
      _ = lo ++ ([y] ++ hi) := List.append_assoc _ _ _
      List.Perm _ (lo ++ (hi ++ [y])) := List.perm_append_comm.append_left lo
      _ = (lo ++ hi) ++ [y] := (List.append_assoc _ _ _).symm
      List.Perm _ (seen ++ [y]) := h.perm.append_right [y]

theorem Split.great {pivot y : α} {seen lo hi : List α} (h : Split pivot seen lo hi)
    (hy : pivot < y) : Split pivot (seen ++ [y]) lo (hi ++ [y]) := by
  refine ⟨h.lo_le, ?_, ?_⟩
  · intro x hx
    rcases List.mem_append.mp hx with hx | hx
    · exact h.lt_hi x hx
    · rw [List.mem_singleton.mp hx]
      exact hy
  · rw [← List.append_assoc]
    exact h.perm.append_right [y]

section Partition

variable (before : List α) (pivot : α) (after : List α)

/-- The state of the loop: the elements seen, split, and those to come. -/
def scanning (lo hi todo : List α) : List α × Int × Int :=
  (before ++ (lo ++ (hi ++ (todo ++ pivot :: after))),
    before.length + lo.length - 1, (before.length + lo.length + hi.length : Nat))

theorem partitionPass_next (lo hi : List α) (y : α) (todo : List α) :
    partitionPass (before.length + lo.length + hi.length + (todo.length + 1) : Nat)
        (scanning before pivot after lo hi (y :: todo))
      = some (.next (if y ≤ pivot then scanning before pivot after (lo ++ [y]) (hi.rotate 1) todo
          else scanning before pivot after lo (hi ++ [y]) todo)) := by
  have hy : getAt (before ++ (lo ++ (hi ++ (y :: todo ++ pivot :: after))))
      (before.length + lo.length + hi.length : Nat) = some y := by
    rw [List.cons_append, ← List.append_assoc, ← List.append_assoc, ← List.length_append,
      ← List.length_append]
    exact getAt_mid _ y _
  have hpivot : getAt (before ++ (lo ++ (hi ++ (y :: todo ++ pivot :: after))))
      (before.length + lo.length + hi.length + (todo.length + 1) : Nat) = some pivot := by
    rw [← List.append_assoc, ← List.append_assoc, ← List.append_assoc, ← List.length_append,
      ← List.length_append, ← List.length_cons (a := y), ← List.length_append]
    exact getAt_mid _ pivot after
  have hne : ¬ ((before.length + lo.length + hi.length : Nat) : Int)
      = (before.length + lo.length + hi.length + (todo.length + 1) : Nat) := by omega
  have hi' : (before.length : Int) + lo.length - 1 + 1 = (before ++ lo).length := by
    rw [List.length_append]
    omega
  have hswap : swapAt (before ++ (lo ++ (hi ++ (y :: todo ++ pivot :: after))))
      (before.length + lo.length - 1 + 1) (before.length + lo.length + hi.length : Nat)
      = some (before ++ ((lo ++ [y]) ++ (hi.rotate 1 ++ (todo ++ pivot :: after)))) := by
    rw [hi', ← List.length_append, ← List.append_assoc, List.cons_append, swapAt_rotate]
    simp only [List.append_assoc, List.singleton_append]
  rw [scanning, partitionPass]
  simp only [if_neg hne, hy, hpivot, Option.bind_eq_bind, Option.bind_some]
  by_cases hle : y ≤ pivot
  · rw [if_pos hle, if_pos hle, hswap, Option.bind_some, scanning]
    simp only [List.length_append, List.length_singleton, List.length_rotate]
    congr 4
    · push_cast
      omega
    · omega
  · rw [if_neg hle, if_neg hle, scanning]
    simp only [List.length_append, List.length_singleton, List.append_assoc, List.cons_append]
    rfl

/-- The loop splits the elements to come. -/
theorem partitionLoop_spec : ∀ (todo seen lo hi : List α), Split pivot seen lo hi →
    ∃ lo' hi', Split pivot (seen ++ todo) lo' hi' ∧ ∀ before after fuel, todo.length < fuel →
      loop (partitionPass (before.length + lo.length + hi.length + todo.length : Nat)) fuel
          (scanning before pivot after lo hi todo)
        = some (before ++ (lo' ++ (hi' ++ pivot :: after)),
            (before.length : Int) + lo'.length - 1) := by
  intro todo
  induction todo with
  | nil =>
      intro seen lo hi hsplit
      refine ⟨lo, hi, by rwa [List.append_nil], fun before after fuel hfuel => ?_⟩
      refine loop_done (by omega) ?_
      rw [scanning, partitionPass]
      simp
  | cons y todo ih =>
      intro seen lo hi hsplit
      by_cases hle : y ≤ pivot
      · obtain ⟨lo', hi', hsplit', hrun⟩ := ih (seen ++ [y]) (lo ++ [y]) (hi.rotate 1)
          (hsplit.small hle)
        refine ⟨lo', hi', by simpa using hsplit', fun before after fuel hfuel => ?_⟩
        have hnext := partitionPass_next before pivot after lo hi y todo
        rw [if_pos hle] at hnext
        rw [List.length_cons] at hfuel
        rw [List.length_cons, loop_next (by omega) hnext,
          ← hrun before after (fuel - 1) (by omega)]
        congr 3
        simp only [List.length_append, List.length_singleton, List.length_rotate]
        omega
      · obtain ⟨lo', hi', hsplit', hrun⟩ := ih (seen ++ [y]) lo (hi ++ [y])
          (hsplit.great (not_le.mp hle))
        refine ⟨lo', hi', by simpa using hsplit', fun before after fuel hfuel => ?_⟩
        have hnext := partitionPass_next before pivot after lo hi y todo
        rw [if_neg hle] at hnext
        rw [List.length_cons] at hfuel
        rw [List.length_cons, loop_next (by omega) hnext,
          ← hrun before after (fuel - 1) (by omega)]
        congr 3
        simp only [List.length_append, List.length_singleton]
        omega

end Partition

/-- The range becomes the elements that are at most the pivot, the pivot, the others. -/
theorem quicksortPartition_spec (seen : List α) (pivot : α) :
    ∃ lo hi, Split pivot seen lo hi ∧ ∀ before after fuel, seen.length < fuel →
      quicksortPartition fuel (before ++ (seen ++ pivot :: after)) before.length
          (before.length + seen.length : Nat)
        = some (before ++ (lo ++ pivot :: (hi ++ after)),
            ((before.length + lo.length : Nat) : Int)) := by
  obtain ⟨lo, hi, hsplit, hrun⟩ := partitionLoop_spec pivot seen [] [] []
    ⟨fun x hx => absurd hx List.not_mem_nil, fun x hx => absurd hx List.not_mem_nil,
      List.Perm.refl []⟩
  rw [List.nil_append] at hsplit
  refine ⟨lo, hi.rotate 1, ⟨hsplit.lo_le, fun x hx => hsplit.lt_hi x (List.mem_rotate.mp hx),
    ((List.rotate_perm hi 1).append_left lo).trans hsplit.perm⟩, ?_⟩
  intro before after fuel hfuel
  have hloop := hrun before after fuel hfuel
  have hlen : seen.length = lo.length + hi.length := by
    rw [← hsplit.perm.length_eq, List.length_append]
  have hplace : (before.length : Int) + lo.length - 1 + 1 = (before ++ lo).length := by
    rw [List.length_append]
    omega
  have hlast : (before.length + seen.length : Nat) = (before ++ lo).length + hi.length := by
    rw [List.length_append]
    omega
  have hswap : swapAt (before ++ (lo ++ (hi ++ pivot :: after)))
      (before.length + lo.length - 1 + 1) (before.length + seen.length : Nat)
      = some (before ++ (lo ++ pivot :: (hi.rotate 1 ++ after))) := by
    rw [hplace, hlast, ← List.append_assoc, swapAt_rotate, List.append_assoc]
  simp only [scanning, List.length_nil, List.nil_append, Nat.cast_zero, add_zero] at hloop
  rw [quicksortPartition, hloop]
  simp only [Option.bind_eq_bind, Option.bind_some, hswap]
  congr 2
  omega

/-! ## The sort -/

/-- The range between any two parts of the array is sorted; the parts stay. -/
theorem quicksort_spec : ∀ (n : Nat) (range : List α), range.length = n →
    ∃ out, out.Perm range ∧ out.Pairwise (· ≤ ·) ∧ ∀ before after fuel, n < fuel →
      quicksort fuel (before ++ (range ++ after)) before.length (before.length + n - 1)
        = some (before ++ (out ++ after)) := by
  intro n
  induction n using Nat.strongRecOn with
  | ind n ih =>
      intro range hn
      by_cases hshort : n ≤ 1
      · refine ⟨range, List.Perm.refl range, pairwise_of_short (by omega), ?_⟩
        intro before after fuel hfuel
        obtain ⟨fuel, rfl⟩ : ∃ f, fuel = f + 1 := ⟨fuel - 1, by omega⟩
        rw [quicksort, if_neg (by omega)]
      · have hne : range ≠ [] := by
          rintro rfl
          rw [List.length_nil] at hn
          omega
        obtain ⟨seen, pivot, rfl⟩ : ∃ seen pivot, range = seen ++ [pivot] :=
          ⟨range.dropLast, range.getLast hne, (List.dropLast_append_getLast hne).symm⟩
        rw [List.length_append, List.length_singleton] at hn
        obtain ⟨lo, hi, hsplit, hpart⟩ := quicksortPartition_spec seen pivot
        have hlen : lo.length + hi.length = seen.length := by
          rw [← hsplit.perm.length_eq, List.length_append]
        obtain ⟨lo', hlo, hlosorted, hleft⟩ := ih lo.length (by omega) lo rfl
        obtain ⟨hi', hhi, hhisorted, hright⟩ := ih hi.length (by omega) hi rfl
        refine ⟨lo' ++ pivot :: hi', ?_, ?_, ?_⟩
        · calc (lo' ++ pivot :: hi').Perm (lo ++ pivot :: hi) := hlo.append (hhi.cons pivot)
            List.Perm _ (pivot :: (lo ++ hi)) := List.perm_middle
            List.Perm _ (pivot :: seen) := hsplit.perm.cons pivot
            List.Perm _ (seen ++ [pivot]) := (List.perm_append_singleton pivot seen).symm
        · have hbelow : ∀ x ∈ lo', x ≤ pivot := fun x hx => hsplit.lo_le x (hlo.mem_iff.mp hx)
          have habove : ∀ x ∈ hi', pivot < x := fun x hx => hsplit.lt_hi x (hhi.mem_iff.mp hx)
          refine List.pairwise_append.mpr ⟨hlosorted, List.Pairwise.cons ?_ hhisorted, ?_⟩
          · exact fun x hx => le_of_lt (habove x hx)
          · intro x hx y hy
            rcases List.mem_cons.mp hy with rfl | hy
            · exact hbelow x hx
            · exact le_trans (hbelow x hx) (le_of_lt (habove y hy))
        · intro before after fuel hfuel
          obtain ⟨fuel, rfl⟩ : ∃ f, fuel = f + 1 := ⟨fuel - 1, by omega⟩
          have hr : (before.length : Int) + n - 1 = (before.length + seen.length : Nat) := by omega
          have hcells : before ++ (seen ++ [pivot] ++ after)
              = before ++ (seen ++ pivot :: after) := by simp
          have hp := hpart before after fuel (by omega)
          have hl := hleft before (pivot :: (hi ++ after)) fuel (by omega)
          have hh := hright (before ++ lo' ++ [pivot]) after fuel (by omega)
          have hlq : (before.length : Int) + lo.length - 1
              = ((before.length + lo.length : Nat) : Int) - 1 := by omega
          have hhq : ((before ++ lo' ++ [pivot]).length : Int)
              = ((before.length + lo.length : Nat) : Int) + 1 := by
            simp only [List.length_append, List.length_singleton, hlo.length_eq]
            omega
          have hhr : ((before.length + lo.length : Nat) : Int) + 1 + hi.length - 1
              = (before.length + seen.length : Nat) := by omega
          rw [hlq] at hl
          rw [hhq, hhr] at hh
          rw [hcells, hr, quicksort, if_pos (by omega), hp]
          simp only [Option.bind_eq_bind, Option.bind_some, hl]
          simpa using hh

/-- The cells `a[p..r]`. -/
def cells (a : List α) (p r : Int) : List α := (a.drop p.toNat).take (r + 1 - p).toNat

end CtiSort
