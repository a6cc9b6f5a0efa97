import CppTest.MachineProofs

/-! # Searching a string (`src/algs/jzoffer/test_string.cpp`)

    Two brute-force searches for a pattern in a text.  `str_search_force2` has one
    loop and moves its index BACK on a mismatch; `str_search_force` has two loops and
    compares its outer index with the unsigned difference `N - M`.

    * Where a pattern occurs: `OccursAt`, and the answer both should give, `IsFirst`.
    * `str_search_force2` gives it: `force2_law`.
    * `str_search_force` never tries the last place, and for a pattern longer than the
      text the difference wraps (`force_short`, `force_long`).  When the two agree:
      `force_agrees_iff`. -/

namespace StringSearch

open Machine

/-! ## The model -/

/-- One pass of the loop of `str_search_force2`: `i` and `j`. -/
def force2Pass (str pat : List Char) : Int × Int → Option (Pass (Int × Int) (Int × Int))
  | (i, j) =>
      if i < str.length ∧ j < pat.length then do
        if (← getAt str i) = (← getAt pat j) then some (.next (wrap64 (i + 1), wrap64 (j + 1)))
        else some (.next (wrap64 (wrap64 (i - j) + 1), 0))
      else some (.done (i, j))

/-- `str_search_force2`. -/
def strSearchForce2 (fuel : Nat) (str pat : List Char) : Option Int := do
  let (i, j) ← loop (force2Pass str pat) fuel (0, 0)
  if j = pat.length then some (wrap64 (i - pat.length)) else some str.length

/-- One pass of the inner loop of `str_search_force`, at `j`. -/
def comparePass (str pat : List Char) (i : Int) : Int → Option (Pass Int Int)
  | j =>
      if j < pat.length then do
        if (← getAt str (wrap64 (i + j))) ≠ (← getAt pat j) then some (.done j)
        else some (.next (wrap64 (j + 1)))
      else some (.done j)

/-- One pass of its outer loop, at `i`. -/
def forcePass (fuel : Nat) (str pat : List Char) : Int → Option (Pass Int Int)
  | i =>
      if i < wrap64 (str.length - pat.length) then do
        let j ← loop (comparePass str pat i) fuel 0
        if j = pat.length then some (.done i) else some (.next (wrap64 (i + 1)))
      else some (.done str.length)

/-- `str_search_force`. -/
def strSearchForce (fuel : Nat) (str pat : List Char) : Option Int :=
  loop (forcePass fuel str pat) fuel 0

/-! ## Occurrences -/

/-- The pattern stands in the text at `i`. -/
def OccursAt (str pat : List Char) (i : Nat) : Prop :=
  i ≤ str.length ∧ (str.drop i).take pat.length = pat

/-- The first place of the pattern, and the length of the text if there is none. -/
def IsFirst (str pat : List Char) (r : Nat) : Prop :=
  (OccursAt str pat r ∧ ∀ k < r, ¬ OccursAt str pat k)
    ∨ (r = str.length ∧ ∀ k, ¬ OccursAt str pat k)

/-- An occurrence, character by character. -/
theorem occursAt_iff {str pat : List Char} {i : Nat} :
    OccursAt str pat i ↔ i ≤ str.length ∧ ∀ t < pat.length, str[i + t]? = pat[t]? := by
  refine and_congr_right fun _ => ?_
  constructor
  · intro h t ht
    have hget := congrArg (fun l => l[t]?) h
    rwa [List.getElem?_take_of_lt ht, List.getElem?_drop] at hget
  · intro h
    refine List.ext_getElem? ?_
    intro t
    by_cases ht : t < pat.length
    · rw [List.getElem?_take_of_lt ht, List.getElem?_drop, h t ht]
    · rw [List.getElem?_take_eq_none (by omega), List.getElem?_eq_none (by omega)]

theorem OccursAt.fits {str pat : List Char} {i : Nat} (h : OccursAt str pat i) :
    i + pat.length ≤ str.length := by
  have hlen := congrArg List.length h.2
  rw [List.length_take, List.length_drop] at hlen
  have hi := h.1
  omega

theorem IsFirst.unique {str pat : List Char} {r r' : Nat} (h : IsFirst str pat r)
    (h' : IsFirst str pat r') : r = r' := by
  rcases h with ⟨ho, hno⟩ | ⟨rfl, hno⟩
  · rcases h' with ⟨ho', hno'⟩ | ⟨rfl, hno'⟩
    · rcases Nat.lt_trichotomy r r' with hlt | heq | hgt
      · exact absurd ho (hno' r hlt)
      · exact heq
      · exact absurd ho' (hno r' hgt)
    · exact absurd ho (hno' r)
  · rcases h' with ⟨ho', -⟩ | ⟨heq, -⟩
    · exact absurd ho' (hno r')
    · exact heq.symm

/-! ## The search that moves back -/

/-- The loop of `str_search_force2` with the pattern at `a`: no earlier place fits, and
    the first `j` characters do here. -/
structure Trying (str pat : List Char) (a j : Nat) : Prop where
  text : a + j ≤ str.length
  pattern : j ≤ pat.length
  tried : ∀ k < a, ¬ OccursAt str pat k
  matched : ∀ t < j, str[a + t]? = pat[t]?

/-- The end of the loop: the whole pattern fits, or the text is over. -/
theorem Trying.isFirst {str pat : List Char} {a j : Nat} (h : Trying str pat a j)
    (hend : ¬ (a + j < str.length ∧ j < pat.length)) :
    IsFirst str pat (if j = pat.length then a else str.length) := by
  have htext := h.text
  have hpat := h.pattern
  split
  · next hj =>
      refine .inl ⟨occursAt_iff.mpr ⟨by omega, ?_⟩, h.tried⟩
      intro t ht
      exact h.matched t (by omega)
  · next hj =>
      refine .inr ⟨rfl, ?_⟩
      intro k hk
      have hfits := hk.fits
      rcases Nat.lt_or_ge k a with hlt | hge
      · exact h.tried k hlt hk
      · omega

/-- One more character fits. -/
theorem Trying.fits {str pat : List Char} {a j : Nat} (h : Trying str pat a j)
    (htext : a + j < str.length) (hpat : j < pat.length) (heq : str[a + j]? = pat[j]?) :
    Trying str pat a (j + 1) := by
  refine ⟨htext, hpat, h.tried, ?_⟩
  intro t ht
  by_cases htj : t = j
  · rw [htj, heq]
  · exact h.matched t (by omega)

/-- The character just read is wrong, so the pattern does not stand here. -/
theorem Trying.moves {str pat : List Char} {a j : Nat} (h : Trying str pat a j)
    (htext : a + j < str.length) (hpat : j < pat.length) (hne : str[a + j]? ≠ pat[j]?) :
    Trying str pat (a + 1) 0 := by
  refine ⟨by omega, Nat.zero_le _, ?_, fun t ht => absurd ht (Nat.not_lt_zero t)⟩
  intro k hk
  rcases Nat.lt_or_eq_of_le (Nat.le_of_lt_succ hk) with hlt | rfl
  · exact h.tried k hlt
  · exact fun hocc => hne ((occursAt_iff.mp hocc).2 j hpat)

/-- What a pass does inside both arrays: nothing wraps. -/
theorem force2Pass_at {str pat : List Char} (hN : str.length < 2 ^ 64) (hM : pat.length < 2 ^ 64)
    {a j : Nat} (htext : a + j < str.length) (hpat : j < pat.length) :
    force2Pass str pat (((a + j : Nat) : Int), (j : Int))
      = if str[a + j]? = pat[j]? then
          some (.next (((a + (j + 1) : Nat) : Int), ((j + 1 : Nat) : Int)))
        else some (.next (((a + 1 + 0 : Nat) : Int), ((0 : Nat) : Int))) := by
  have hi : wrap64 (((a + j : Nat) : Int) + 1) = ((a + (j + 1) : Nat) : Int) :=
    wrap64_eq (by omega) (by omega)
  have hj : wrap64 ((j : Int) + 1) = ((j + 1 : Nat) : Int) := wrap64_eq (by omega) (by omega)
  have hback : wrap64 (((a + j : Nat) : Int) - (j : Int)) = (a : Int) := by
    rw [Int.natCast_add, Int.add_sub_cancel]
    exact wrap64_eq (by omega) (by omega)
  have hnext : wrap64 ((a : Int) + 1) = ((a + 1 + 0 : Nat) : Int) :=
    wrap64_eq (by omega) (by omega)
  rw [force2Pass, if_pos (by omega), getAt_natCast, getAt_natCast,
    List.getElem?_eq_getElem htext, List.getElem?_eq_getElem hpat]
  simp only [Option.bind_eq_bind, Option.bind_some, Option.some.injEq, hi, hj, hback, hnext]
  rfl

/-- A pass of the loop: one more character fits, or the next place is tried. -/
theorem force2Pass_trying {str pat : List Char} (hN : str.length < 2 ^ 64)
    (hM : pat.length < 2 ^ 64) :
    ∀ (n : Nat) (s : Int × Int),
      (∃ a j : Nat, Trying str pat a j ∧ s = (((a + j : Nat) : Int), (j : Int))
        ∧ n = (str.length - a) * (pat.length + 1) + (pat.length - j)) →
      (∃ r, force2Pass str pat s = some (.done r)
        ∧ ∃ a j : Nat, Trying str pat a j ∧ r = (((a + j : Nat) : Int), (j : Int))
          ∧ ¬ (a + j < str.length ∧ j < pat.length)) ∨
      (∃ s' n', force2Pass str pat s = some (.next s') ∧ n' < n
        ∧ ∃ a j : Nat, Trying str pat a j ∧ s' = (((a + j : Nat) : Int), (j : Int))
          ∧ n' = (str.length - a) * (pat.length + 1) + (pat.length - j)) := by
  rintro n s ⟨a, j, h, rfl, rfl⟩
  by_cases hin : a + j < str.length ∧ j < pat.length
  · obtain ⟨htext, hpat⟩ := hin
    rw [force2Pass_at hN hM htext hpat]
    by_cases heq : str[a + j]? = pat[j]?
    · rw [if_pos heq]
      refine .inr ⟨_, _, rfl, ?_, a, j + 1, h.fits htext hpat heq, rfl, rfl⟩
      omega
    · rw [if_neg heq]
      refine .inr ⟨_, _, rfl, ?_, a + 1, 0, h.moves htext hpat heq, rfl, rfl⟩
      have hsucc : str.length - a = (str.length - (a + 1)) + 1 := by omega
      rw [hsucc, Nat.succ_mul]
      omega
  · refine .inl ⟨_, ?_, a, j, h, rfl, hin⟩
    rw [force2Pass, if_neg (by omega)]

theorem force2_returns {str pat : List Char} (hN : str.length < 2 ^ 64) (hM : pat.length < 2 ^ 64) :
    ∃ r : Nat, IsFirst str pat r ∧ ∀ fuel, str.length * (pat.length + 1) + pat.length < fuel →
      strSearchForce2 fuel str pat = some (r : Int) := by
  have hopen : Trying str pat 0 0 := by
    refine ⟨Nat.zero_le _, Nat.zero_le _, ?_, ?_⟩
    · exact fun k hk => absurd hk (Nat.not_lt_zero k)
    · exact fun t ht => absurd ht (Nat.not_lt_zero t)
  obtain ⟨res, ⟨a, j, h, rfl, hend⟩, hrun⟩ :=
    loop_total (force2Pass_trying hN hM) (str.length * (pat.length + 1) + pat.length)
      (((0 + 0 : Nat) : Int), ((0 : Nat) : Int)) ⟨0, 0, hopen, rfl, rfl⟩
  refine ⟨_, h.isFirst hend, ?_⟩
  intro fuel hfuel
  replace hrun : loop (force2Pass str pat) fuel (0, 0) = some (((a + j : Nat) : Int), (j : Int)) :=
    hrun fuel hfuel
  rw [strSearchForce2, hrun]
  show (if (j : Int) = pat.length then some (wrap64 (((a + j : Nat) : Int) - pat.length))
    else some (str.length : Int)) = _
  by_cases hj : j = pat.length
  · have hstart : wrap64 (((a + j : Nat) : Int) - pat.length) = (a : Int) := by
      rw [hj, Int.natCast_add, Int.add_sub_cancel]
      have htext := h.text
      exact wrap64_eq (by omega) (by omega)
    rw [if_pos (by omega), if_pos hj, hstart]
  · rw [if_neg (by omega), if_neg hj]

/-- **`str_search_force2`** returns the first place of the pattern, or the length of the
    text; it reads only inside both arrays, since a read outside would fault. -/
theorem force2_law {str pat : List Char} (hN : str.length < 2 ^ 64) (hM : pat.length < 2 ^ 64) :
    ∃ r : Nat, IsFirst str pat r
      ∧ ∃ enough, ∀ fuel, enough < fuel → strSearchForce2 fuel str pat = some (r : Int) := by
  obtain ⟨r, hfirst, hrun⟩ := force2_returns hN hM
  exact ⟨r, hfirst, _, hrun⟩

theorem force2_law_middle :
    ∃ enough, ∀ fuel, enough < fuel → strSearchForce2 fuel ['a', 'b', 'c'] ['b', 'c'] = some 1 := by
  obtain ⟨r, hfirst, enough, hrun⟩ :=
    @force2_law ['a', 'b', 'c'] ['b', 'c'] (by decide) (by decide)
  have hone : IsFirst ['a', 'b', 'c'] ['b', 'c'] 1 := by
    refine .inl ⟨⟨by decide, by decide⟩, ?_⟩
    intro k hk
    obtain rfl : k = 0 := by omega
    rintro ⟨-, h⟩
    exact absurd h (by decide)
  obtain rfl := hfirst.unique hone
  exact ⟨enough, hrun⟩

/-! ## The search with two loops -/

/-- What a pass of the inner loop does inside the pattern. -/
theorem comparePass_at {str pat : List Char} {i j : Nat} (hsize : i + j < 2 ^ 64)
    (hpat : j < pat.length) (hM : pat.length < 2 ^ 64) :
    comparePass str pat i (j : Int) = (str[i + j]?).bind fun a =>
      if some a ≠ pat[j]? then some (.done (j : Int)) else some (.next ((j + 1 : Nat) : Int)) := by
  have hindex : wrap64 ((i : Int) + (j : Int)) = ((i + j : Nat) : Int) :=
    wrap64_eq (by omega) (by omega)
  have hnext : wrap64 ((j : Int) + 1) = ((j + 1 : Nat) : Int) := wrap64_eq (by omega) (by omega)
  rw [comparePass, if_pos (by omega), hindex, hnext, getAt_natCast, getAt_natCast,
    List.getElem?_eq_getElem hpat]
  simp only [Option.bind_eq_bind, Option.bind_some, ne_eq, Option.some.injEq]

/-- The inner loop at a place where the pattern has room compares it with the text. -/
theorem compareLoop_spec {str pat : List Char} (hN : str.length < 2 ^ 64) {i : Nat}
    (hi : i + pat.length ≤ str.length) :
    ∃ j : Nat, (j = pat.length ↔ OccursAt str pat i) ∧ ∀ fuel, pat.length < fuel →
      loop (comparePass str pat i) fuel 0 = some (j : Int) := by
  have hpass : ∀ (n : Nat) (s : Int),
      (∃ j : Nat, s = j ∧ j ≤ pat.length ∧ n = pat.length - j
        ∧ ∀ t < j, str[i + t]? = pat[t]?) →
      (∃ r, comparePass str pat i s = some (.done r)
        ∧ ∃ j : Nat, r = j ∧ (j = pat.length ↔ OccursAt str pat i)) ∨
      (∃ s' n', comparePass str pat i s = some (.next s') ∧ n' < n
        ∧ ∃ j : Nat, s' = j ∧ j ≤ pat.length ∧ n' = pat.length - j
          ∧ ∀ t < j, str[i + t]? = pat[t]?) := by
    rintro n s ⟨j, rfl, hj, rfl, hmatch⟩
    by_cases hin : j < pat.length
    · have hread := List.getElem?_eq_getElem (show i + j < str.length by omega)
      rw [comparePass_at (by omega) hin (by omega), hread, Option.bind_some, ← hread]
      by_cases heq : str[i + j]? = pat[j]?
      · rw [if_neg (not_not.mpr heq)]
        refine .inr ⟨_, _, rfl, ?_, j + 1, rfl, hin, rfl, ?_⟩
        · omega
        · intro t ht
          by_cases htj : t = j
          · rw [htj, heq]
          · exact hmatch t (by omega)
      · rw [if_pos heq]
        refine .inl ⟨_, rfl, j, rfl, ⟨fun h => absurd h (by omega), ?_⟩⟩
        exact fun hocc => absurd ((occursAt_iff.mp hocc).2 j hin) heq
    · refine .inl ⟨_, by rw [comparePass, if_neg (by omega)], j, rfl, ?_⟩
      refine ⟨fun _ => ?_, fun _ => by omega⟩
      exact occursAt_iff.mpr ⟨by omega, fun t ht => hmatch t (by omega)⟩
  obtain ⟨r, ⟨j, rfl, hj⟩, hrun⟩ := loop_total hpass pat.length ((0 : Nat) : Int)
    ⟨0, rfl, Nat.zero_le _, rfl, fun t ht => absurd ht (Nat.not_lt_zero t)⟩
  exact ⟨j, hj, hrun⟩

/-- The first place of the pattern before the last one that it has room at. -/
def IsEarlyFirst (str pat : List Char) (r : Nat) : Prop :=
  (r < str.length - pat.length ∧ OccursAt str pat r ∧ ∀ k < r, ¬ OccursAt str pat k)
    ∨ (r = str.length ∧ ∀ k < str.length - pat.length, ¬ OccursAt str pat k)

/-- **A pattern that is not longer than the text**: every place but the last is tried. -/
theorem force_short {str pat : List Char} (hN : str.length < 2 ^ 64)
    (hle : pat.length ≤ str.length) {fuel : Nat} (hfuel : str.length < fuel) :
    ∃ r : Nat, IsEarlyFirst str pat r ∧ strSearchForce fuel str pat = some (r : Int) := by
  have hbound : wrap64 ((str.length : Int) - (pat.length : Int))
      = ((str.length - pat.length : Nat) : Int) := by
    rw [Int.natCast_sub hle]
    exact wrap64_eq (by omega) (by omega)
  have hpass : ∀ (n : Nat) (s : Int),
      (∃ i : Nat, s = i ∧ i ≤ str.length - pat.length ∧ n = str.length - pat.length - i
        ∧ ∀ k < i, ¬ OccursAt str pat k) →
      (∃ r, forcePass fuel str pat s = some (.done r)
        ∧ ∃ q : Nat, r = q ∧ IsEarlyFirst str pat q) ∨
      (∃ s' n', forcePass fuel str pat s = some (.next s') ∧ n' < n
        ∧ ∃ i : Nat, s' = i ∧ i ≤ str.length - pat.length ∧ n' = str.length - pat.length - i
          ∧ ∀ k < i, ¬ OccursAt str pat k) := by
    rintro n s ⟨i, rfl, hi, rfl, htried⟩
    rw [forcePass, hbound]
    by_cases hin : i < str.length - pat.length
    · obtain ⟨j, hj, hrun⟩ := compareLoop_spec hN (show i + pat.length ≤ str.length by omega)
      rw [if_pos (by omega), hrun fuel (by omega), Option.bind_eq_bind, Option.bind_some]
      by_cases hocc : OccursAt str pat i
      · rw [if_pos (by rw [hj.mpr hocc])]
        exact .inl ⟨_, rfl, i, rfl, .inl ⟨hin, hocc, htried⟩⟩
      · have hne : j ≠ pat.length := fun h => hocc (hj.mp h)
        have hnext : wrap64 ((i : Int) + 1) = ((i + 1 : Nat) : Int) :=
          wrap64_eq (by omega) (by omega)
        rw [if_neg (by omega), hnext]
        refine .inr ⟨_, _, rfl, ?_, i + 1, rfl, hin, rfl, ?_⟩
        · omega
        · intro k hk
          rcases Nat.lt_or_eq_of_le (Nat.le_of_lt_succ hk) with hlt | rfl
          · exact htried k hlt
          · exact hocc
    · rw [if_neg (by omega)]
      refine .inl ⟨_, rfl, str.length, rfl, .inr ⟨rfl, ?_⟩⟩
      exact fun k hk => htried k (by omega)
  obtain ⟨r, ⟨q, rfl, hq⟩, hrun⟩ := loop_total hpass (str.length - pat.length) ((0 : Nat) : Int)
    ⟨0, rfl, Nat.zero_le _, rfl, fun k hk => absurd hk (Nat.not_lt_zero k)⟩
  exact ⟨q, hq, hrun fuel (by omega)⟩

/-- In a pattern longer than the text the comparison ends with a mismatch inside the
    text, or reads behind it. -/
theorem compareLoop_long {str pat : List Char} (hM : pat.length < 2 ^ 64)
    (hlt : str.length < pat.length) {i : Nat} (hi : i ≤ str.length) {fuel : Nat} {r : Int}
    (hrun : loop (comparePass str pat i) fuel 0 = some r) : r ≠ pat.length ∧ i < str.length := by
  have hstep : ∀ (s : Int) p, (∃ j : Nat, s = j ∧ i + j ≤ str.length) →
      comparePass str pat i s = some p →
      (p = .done s ∧ s ≠ pat.length ∧ i < str.length)
        ∨ ∃ j : Nat, p = .next (j : Int) ∧ i + j ≤ str.length := by
    rintro s p ⟨j, rfl, hj⟩ hp
    rw [comparePass_at (by omega) (by omega) hM] at hp
    obtain ⟨a, ha, hp⟩ := Option.bind_eq_some_iff.mp hp
    have hin := (List.getElem?_eq_some_iff.mp ha).1
    split at hp
    · exact .inl ⟨(Option.some.inj hp).symm, by omega, by omega⟩
    · exact .inr ⟨j + 1, (Option.some.inj hp).symm, by omega⟩
  have hnext : ∀ s s' : Int, (∃ j : Nat, s = j ∧ i + j ≤ str.length) →
      comparePass str pat i s = some (.next s') → ∃ j : Nat, s' = j ∧ i + j ≤ str.length := by
    intro s s' hs hp
    rcases hstep s _ hs hp with ⟨heq, -⟩ | ⟨j, heq, hj⟩
    · cases heq
    · exact ⟨j, Pass.next.inj heq, hj⟩
  have hdone : ∀ s r : Int, (∃ j : Nat, s = j ∧ i + j ≤ str.length) →
      comparePass str pat i s = some (.done r) → r ≠ pat.length ∧ i < str.length := by
    intro s r hs hp
    rcases hstep s _ hs hp with ⟨heq, hend⟩ | ⟨j, heq, -⟩
    · rw [Pass.done.inj heq]
      exact hend
    · cases heq
  exact loop_keeps hnext hdone ⟨0, rfl, hi⟩ hrun

/-- **A pattern that is longer than the text**: the difference wraps, and the search
    reads behind the text. -/
theorem force_long {str pat : List Char} (hM : pat.length < 2 ^ 64)
    (hlt : str.length < pat.length) (fuel : Nat) : strSearchForce fuel str pat = none := by
  have hbound : ∀ i : Nat, i ≤ str.length →
      (i : Int) < wrap64 ((str.length : Int) - (pat.length : Int)) := by
    intro i hi
    rw [wrap64]
    omega
  have hpass : ∀ s : Int, (∃ i : Nat, s = i ∧ i ≤ str.length) →
      forcePass fuel str pat s = none ∨ ∃ s', forcePass fuel str pat s = some (.next s')
        ∧ ∃ i : Nat, s' = i ∧ i ≤ str.length := by
    rintro s ⟨i, rfl, hi⟩
    rw [forcePass, if_pos (hbound i hi)]
    cases hrun : loop (comparePass str pat i) fuel 0 with
    | none => exact .inl rfl
    | some r =>
        obtain ⟨hne, hin⟩ := compareLoop_long hM hlt hi hrun
        have hnext : wrap64 ((i : Int) + 1) = ((i + 1 : Nat) : Int) :=
          wrap64_eq (by omega) (by omega)
        refine .inr ⟨_, ?_, i + 1, rfl, hin⟩
        rw [Option.bind_eq_bind, Option.bind_some, if_neg hne, hnext]
  exact loop_never hpass fuel 0 ⟨0, rfl, Nat.zero_le _⟩

/-! ## When the two agree -/

/-- Both searches return the same place; a read outside an array would fault. -/
def Agrees (str pat : List Char) : Prop :=
  ∃ r, ∃ enough, ∀ fuel, enough < fuel →
    strSearchForce fuel str pat = some r ∧ strSearchForce2 fuel str pat = some r

/-- The pattern is not longer than the text, and it is not at the end of the text for
    the first time. -/
def NotOnlyLast (str pat : List Char) : Prop :=
  pat.length ≤ str.length ∧ (pat = [] ∨ ¬ OccursAt str pat (str.length - pat.length)
    ∨ ∃ k < str.length - pat.length, OccursAt str pat k)

/-- The two answers are the same exactly if the last place is not the first one. -/
theorem IsEarlyFirst.eq_iff {str pat : List Char} (hle : pat.length ≤ str.length) {r r' : Nat}
    (h : IsEarlyFirst str pat r) (h' : IsFirst str pat r') : r = r' ↔ NotOnlyLast str pat := by
  rcases h with ⟨hlt, hocc, hno⟩ | ⟨rfl, hno⟩
  · have hsame : r = r' := IsFirst.unique (.inl ⟨hocc, hno⟩) h'
    exact ⟨fun _ => ⟨hle, .inr (.inr ⟨r, hlt, hocc⟩)⟩, fun _ => hsame⟩
  · rcases h' with ⟨hocc, -⟩ | ⟨rfl, hnone⟩
    · -- the only place is the last one
      have hfits := hocc.fits
      have hlast : r' = str.length - pat.length := by
        by_contra hne
        exact hno r' (by omega) hocc
      subst hlast
      constructor
      · intro heq
        exact ⟨hle, .inl (List.length_eq_zero_iff.mp (by omega))⟩
      · rintro ⟨-, rfl | hnot | ⟨k, hk, hk'⟩⟩
        · rfl
        · exact absurd hocc hnot
        · exact absurd hk' (hno k hk)
    · exact ⟨fun _ => ⟨hle, .inr (.inl (hnone _))⟩, fun _ => rfl⟩

theorem agrees_of_notOnlyLast {str pat : List Char} (hN : str.length < 2 ^ 64)
    (h : NotOnlyLast str pat) : Agrees str pat := by
  have hle := h.1
  obtain ⟨r, hfirst, hrun2⟩ := force2_returns hN (show pat.length < 2 ^ 64 by omega)
  refine ⟨r, str.length * (pat.length + 1) + pat.length + str.length, ?_⟩
  intro fuel hfuel
  obtain ⟨q, hearly, hrun⟩ := force_short hN hle (show str.length < fuel by omega)
  obtain rfl := (hearly.eq_iff hle hfirst).mpr h
  exact ⟨hrun, hrun2 fuel (by omega)⟩

theorem Agrees.notOnlyLast {str pat : List Char} (hN : str.length < 2 ^ 64)
    (hM : pat.length < 2 ^ 64) (h : Agrees str pat) : NotOnlyLast str pat := by
  obtain ⟨r, enough, hrun⟩ := h
  obtain ⟨q', hfirst, hrun2⟩ := force2_returns hN hM
  obtain ⟨fuel, hfuel⟩ :
      ∃ fuel, enough + (str.length * (pat.length + 1) + pat.length) + str.length < fuel :=
    ⟨_, Nat.lt_succ_self _⟩
  obtain ⟨hforce, hforce2⟩ := hrun fuel (by omega)
  by_cases hle : pat.length ≤ str.length
  · obtain ⟨q, hearly, hq⟩ := force_short hN hle (show str.length < fuel by omega)
    rw [hrun2 fuel (by omega)] at hforce2
    rw [hq, ← hforce2] at hforce
    have hsame : (q : Int) = q' := Option.some.inj hforce
    exact (hearly.eq_iff hle hfirst).mp (by omega)
  · rw [force_long hM (by omega)] at hforce
    exact absurd hforce.symm (Option.some_ne_none _)

/-- **When the two searches agree**: exactly if the pattern is not longer than the text
    and does not stand at the end of the text for the first time. -/
theorem force_agrees_iff {str pat : List Char} (hN : str.length < 2 ^ 64)
    (hM : pat.length < 2 ^ 64) : Agrees str pat ↔ NotOnlyLast str pat :=
  ⟨fun h => h.notOnlyLast hN hM, agrees_of_notOnlyLast hN⟩

theorem force_agrees_middle : Agrees ['a', 'b', 'c', 'd'] ['b', 'c'] := by
  refine (force_agrees_iff (by decide) (by decide)).mpr ⟨by decide, .inr (.inl ?_)⟩
  rintro ⟨-, h⟩
  exact absurd h (by decide)

/-- The pattern is the whole text: one search finds it, the other does not. -/
theorem force_disagrees_whole :
    strSearchForce 20 ['a'] ['a'] = some 1 ∧ strSearchForce2 20 ['a'] ['a'] = some 0
    ∧ ¬ Agrees ['a'] ['a'] := by
  refine ⟨by decide, by decide, ?_⟩
  rintro h
  obtain ⟨-, hnil | hnot | ⟨k, hk, -⟩⟩ := h.notOnlyLast (by decide) (by decide)
  · exact List.cons_ne_nil _ _ hnil
  · exact hnot ⟨by decide, by decide⟩
  · exact absurd hk (Nat.not_lt_zero k)

end StringSearch
