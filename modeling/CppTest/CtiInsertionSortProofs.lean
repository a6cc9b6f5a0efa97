import CppTest.SortingProofs

/-! # The insertion sort of `test_cti.cpp`

    In front of the key the array is in order; the greater elements of that part move up by one
    cell, which overwrites the key first and then each of them, and the key goes into the cell
    that is left.  So the loop always has one cell that does not count, and it is there that the
    key ends.

    `i` is an `int`, and `arr[i + 1]` the place for the key: with 2^31 + 1 elements `i` starts at
    the largest `int`, and `i + 1` overflows.

    * `insertLoop_spec`: the inner loop, with the cell that does not count.
    * `insertKey_spec`: one pass of the outer loop.
    * `insertion_sort_sorts`: the array is sorted exactly if it has at most 2^31 elements. -/

namespace CtiInsertion

open Machine Sorting

/-! ## The program -/

/-- One pass of the inner loop of `insertion_sort`; the state is the array and `i`. -/
def insertPass (key : Int) (s : List Int × Int) :
    Option (Pass (List Int × Int) (List Int × Int)) := do
  let (arr, i) := s
  if 0 ≤ i then
    let x ← getAt arr i
    if key < x then
      let k ← int32 (i + 1)
      let arr ← setAt arr k x
      some (.next (arr, i - 1))
    else some (.done (arr, i))
  else some (.done (arr, i))

/-- One pass of the outer loop.  `int i = j - 1` wraps. -/
def insertKey (fuel : Nat) (arr : List Int) (j : Nat) : Option (List Int) := do
  let key ← getAt arr j
  let (arr, i) ← loop (insertPass key) fuel (arr, wrap32 (j - 1))
  let k ← int32 (i + 1)
  setAt arr k key

/-- `insertion_sort(arr, length)`. -/
def insertionSort (fuel : Nat) (arr : List Int) : Option (List Int) :=
  if arr.length < 2 then some arr
  else (List.range' 1 (arr.length - 1)).foldlM (insertKey fuel) arr

/-! ## The inner loop -/

/-- The loop has moved `b` and not yet looked at `a`; between them is the cell that does not
    count. -/
theorem insertLoop_spec {key : Int} {post : List Int} (a : List Int) :
    ∀ (b : List Int) (c : Int) (fuel : Nat), a.length < fuel → (a.length : Int) ≤ intMax →
      (a ++ b).Pairwise (· ≤ ·) → (∀ y ∈ b, key < y) →
      ∃ a' b' c', loop (insertPass key) fuel (a ++ c :: (b ++ post), (a.length : Int) - 1)
          = some (a' ++ c' :: (b' ++ post), (a'.length : Int) - 1)
        ∧ a' ++ b' = a ++ b ∧ (∀ x ∈ a', x ≤ key) ∧ (∀ y ∈ b', key < y) := by
  induction a using List.reverseRecOn with
  | nil =>
      intro b c fuel hfuel _ _ hb
      exact ⟨[], b, c, loop_done hfuel rfl, rfl, List.forall_mem_nil _, hb⟩
  | append_singleton a x ih =>
      intro b c fuel hfuel hint hsorted hb
      rw [List.length_append, List.length_singleton] at hfuel hint ⊢
      have hi : ((a.length + 1 : Nat) : Int) - 1 = a.length := by omega
      have hassoc : a ++ [x] ++ c :: (b ++ post) = a ++ x :: c :: (b ++ post) := by
        rw [List.append_assoc]
        rfl
      have hget : getAt (a ++ x :: c :: (b ++ post)) (a.length : Int) = some x := getAt_mid ..
      rw [hi, hassoc]
      by_cases hx : key < x
      · have hset : setAt (a ++ x :: c :: (b ++ post)) ((a.length : Int) + 1) x
            = some (a ++ x :: x :: (b ++ post)) := by
          have hmid := setAt_mid (a ++ [x]) c x (b ++ post)
          rw [List.length_append, List.length_singleton, List.append_assoc,
            List.append_assoc] at hmid
          exact hmid
        have hpass : insertPass key (a ++ x :: c :: (b ++ post), (a.length : Int))
            = some (.next (a ++ x :: (x :: b ++ post), (a.length : Int) - 1)) := by
          have hk : int32 ((a.length : Int) + 1) = some ((a.length : Int) + 1) :=
            int32_eq (by rw [intMin]; omega) (by omega)
          simp only [insertPass, if_pos (Int.natCast_nonneg a.length), hget, Option.bind_eq_bind,
            Option.bind_some, if_pos hx, hk, hset]
          rfl
        rw [loop_next (by omega) hpass]
        obtain ⟨a', b', c', hrun, heq, hle, hlt⟩ := ih (x :: b) x (fuel - 1) (by omega) (by omega)
          (by rw [List.append_cons]; exact hsorted) (List.forall_mem_cons.mpr ⟨hx, hb⟩)
        exact ⟨a', b', c', hrun, heq.trans (List.append_cons a x b), hle, hlt⟩
      · have hpass : insertPass key (a ++ x :: c :: (b ++ post), (a.length : Int))
            = some (.done (a ++ x :: c :: (b ++ post), (a.length : Int))) := by
          simp only [insertPass, if_pos (Int.natCast_nonneg a.length), hget, Option.bind_eq_bind,
            Option.bind_some, if_neg hx]
        refine ⟨a ++ [x], b, c, ?_, rfl, ?_, hb⟩
        · rw [loop_done (by omega) hpass, hassoc, List.length_append, List.length_singleton, hi]
        · have hpre := (List.pairwise_append.mp hsorted).1
          obtain ⟨-, -, hax⟩ := List.pairwise_append.mp hpre
          intro y hy
          rcases List.mem_append.mp hy with hya | hyx
          · exact Int.le_trans (hax y hya x (List.mem_singleton.mpr rfl)) (Int.not_lt.mp hx)
          · rw [List.mem_singleton.mp hyx]
            exact Int.not_lt.mp hx

/-! ## The outer loop -/

/-- **One pass.**  The key goes between what is at most the key and what is greater. -/
theorem insertKey_spec {l post : List Int} {key : Int} {fuel : Nat} (hfuel : l.length < fuel)
    (hpos : 0 < l.length) (hint : (l.length : Int) ≤ intMax) (hsorted : l.Pairwise (· ≤ ·)) :
    ∃ l', insertKey fuel (l ++ key :: post) l.length = some (l' ++ post)
      ∧ l'.Perm (l ++ [key]) ∧ l'.Pairwise (· ≤ ·) := by
  obtain ⟨a, b, c, hrun, heq, hle, hlt⟩ := @insertLoop_spec key post l [] key fuel hfuel hint
    (by rw [List.append_nil]; exact hsorted) (List.forall_mem_nil _)
  rw [List.append_nil] at heq
  have hlen : (a.length : Int) ≤ intMax := by
    have hab := congrArg List.length heq
    rw [List.length_append] at hab
    omega
  have hget : getAt (l ++ key :: post) (l.length : Int) = some key := getAt_mid ..
  have hi : wrap32 ((l.length : Int) - 1) = (l.length : Int) - 1 :=
    wrap32_eq (by omega) (by omega)
  have hk : int32 ((a.length : Int) - 1 + 1) = some (a.length : Int) := by
    rw [Int.sub_add_cancel]
    exact int32_eq (by rw [intMin]; omega) hlen
  have hset : setAt (a ++ c :: (b ++ post)) (a.length : Int) key = some (a ++ key :: (b ++ post)) :=
    setAt_mid ..
  refine ⟨a ++ key :: b, ?_, ?_, ?_⟩
  · rw [insertKey, hget]
    simp only [Option.bind_eq_bind, Option.bind_some, hi]
    rw [List.nil_append] at hrun
    rw [hrun]
    simp only [Option.bind_some, hk, hset]
    rw [List.append_assoc]
    rfl
  · have hcomm : (key :: (a ++ b)).Perm (a ++ b ++ [key]) := (List.perm_append_singleton ..).symm
    rw [← heq]
    exact List.perm_middle.trans hcomm
  · rw [← heq] at hsorted
    obtain ⟨ha, hb, hab⟩ := List.pairwise_append.mp hsorted
    refine List.pairwise_append.mpr ⟨ha, List.pairwise_cons.mpr ⟨fun y hy => ?_, hb⟩, ?_⟩
    · exact Int.le_of_lt (hlt y hy)
    · intro x hx y hy
      rcases List.mem_cons.mp hy with rfl | hy
      · exact hle x hx
      · exact hab x hx y hy

/-- The first `k + 1` cells are in order, and the others are untouched. -/
def Inserted (arr : List Int) (k : Nat) (s : List Int) : Prop :=
  ∃ l, s = l ++ arr.drop (k + 1) ∧ l.Perm (arr.take (k + 1)) ∧ l.Pairwise (· ≤ ·)

theorem Inserted.insertKey {arr s : List Int} {k fuel : Nat} (h : Inserted arr k s)
    (hk : k + 1 < arr.length) (hint : ((k + 1 : Nat) : Int) ≤ intMax) (hfuel : k + 1 < fuel) :
    ∃ s', insertKey fuel s (k + 1) = some s' ∧ Inserted arr (k + 1) s' := by
  obtain ⟨l, rfl, hperm, hsorted⟩ := h
  have hl : l.length = k + 1 := by
    rw [hperm.length_eq, List.length_take]
    omega
  have hdrop : arr.drop (k + 1) = arr.get ⟨k + 1, hk⟩ :: arr.drop (k + 2) :=
    List.drop_eq_getElem_cons hk
  rw [← hl] at hint hfuel
  obtain ⟨l', hpass, hperm', hsorted'⟩ := @insertKey_spec l (arr.drop (k + 2))
    (arr.get ⟨k + 1, hk⟩) fuel hfuel (by omega) hint hsorted
  rw [hl] at hpass
  rw [hdrop]
  refine ⟨l' ++ arr.drop (k + 2), hpass, l', rfl, ?_, hsorted'⟩
  rw [List.take_succ_eq_append_getElem hk]
  exact hperm'.trans (hperm.append_right _)

/-- With `i` the largest `int`, there is no place for the key. -/
theorem insertKey_overflows (fuel : Nat) (arr : List Int) : insertKey fuel arr (2 ^ 31) = none := by
  have hi : wrap32 (((2 ^ 31 : Nat) : Int) - 1) = intMax := wrap32_eq (by decide) (by decide)
  have hover : int32 (intMax + 1) = none := by decide
  rw [insertKey, hi]
  cases hkey : getAt arr ((2 ^ 31 : Nat) : Int) with
  | none => rfl
  | some key =>
      cases fuel with
      | zero => rfl
      | succ fuel =>
          -- the first pass finds a greater element and has no place for it, or leaves the loop
          have hpass : insertPass key (arr, intMax) = none
              ∨ insertPass key (arr, intMax) = some (.done (arr, intMax)) := by
            have hpos : (0 : Int) ≤ intMax := by decide
            simp only [insertPass, if_pos hpos]
            cases getAt arr intMax with
            | none => exact Or.inl rfl
            | some x =>
                by_cases hx : key < x
                · simp [hx, hover]
                · simp [hx]
          rcases hpass with hnone | hdone
          · simp [loop, hnone]
          · simp [loop, hdone, hover]

/-- **The insertion sort.**  It sorts the array if that has at most 2^31 elements, and only
    then. -/
theorem insertion_sort_sorts (arr : List Int) :
    (∀ fuel, arr.length < fuel → ∃ out, insertionSort fuel arr = some out
        ∧ out.Perm arr ∧ out.Pairwise (· ≤ ·))
      ↔ arr.length ≤ 2 ^ 31 := by
  constructor
  · intro h
    by_contra hlong
    obtain ⟨out, hrun, -⟩ := h (arr.length + 1) (Nat.lt_succ_self _)
    have hmem : 2 ^ 31 ∈ List.range' 1 (arr.length - 1) := List.mem_range'_1.mpr (by omega)
    rw [insertionSort, if_neg (by omega), foldlM_faults (insertKey_overflows _) _ hmem] at hrun
    exact absurd hrun.symm (Option.some_ne_none _)
  · intro hlen fuel hfuel
    rw [insertionSort]
    by_cases hshort : arr.length < 2
    · rw [if_pos hshort]
      exact ⟨arr, rfl, List.Perm.refl _, pairwise_of_short (by omega)⟩
    · rw [if_neg hshort]
      have hzero : Inserted arr 0 arr := by
        refine ⟨arr.take 1, (List.take_append_drop 1 arr).symm, List.Perm.refl _, ?_⟩
        exact pairwise_of_short (by rw [List.length_take]; omega)
      have hpass : ∀ k s, k < arr.length - 1 → Inserted arr k s →
          ∃ s', insertKey fuel s (k + 1) = some s' ∧ Inserted arr (k + 1) s' := by
        intro k s hk h
        exact h.insertKey (by omega) (by rw [intMax]; omega) (by omega)
      obtain ⟨out, hrun, l, rfl, hperm, hsorted⟩ := foldlM_range'_keeps hzero _ hpass
      have hend : arr.length - 1 + 1 = arr.length := by omega
      rw [hend, List.drop_length, List.append_nil] at hrun
      rw [hend, List.take_length] at hperm
      exact ⟨l, hrun, hperm, hsorted⟩

end CtiInsertion
