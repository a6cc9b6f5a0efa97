import CppTest.MachineProofs

/-! # The greatest common divisor of `test_cti.cpp`

    `gcd` takes any two `long`s.  `%` truncates, so the remainders have signs, and so has the
    result; without its sign it is the greatest common divisor.  One remainder does not exist:
    that of the smallest `long` by -1, whose quotient is no `long`.  The loop comes to it from one
    pair only, since a remainder is smaller than what it was divided by.

    * `Safe`: a state from which the loop does not come to that remainder; `Safe.step`.
    * `gcd_spec`: the result, for exactly those arguments that are not that pair. -/

namespace CtiGcd

open Machine

/-! ## The program -/

/-- The smallest `long`. -/
def longMin : Int := -2 ^ 63

/-- `m % n`, for `n` that is not 0. -/
def rem (m n : Int) : Option Int := if m = longMin ∧ n = -1 then none else some (m.tmod n)

/-- One pass of the loop of `gcd`. -/
def gcdPass (s : Int × Int) : Option (Pass (Int × Int) Int) :=
  if s.2 = 0 then some (.done s.1)
  else (rem s.1 s.2).map fun r => .next (s.2, r)

/-- `gcd(m, n)`: the larger one first. -/
def gcd (fuel : Nat) (m n : Int) : Option Int :=
  if m < n then loop gcdPass fuel (n, m) else loop gcdPass fuel (m, n)

/-! ## The loop -/

/-- The two numbers are in range, and are not -1 and the smallest `long`. -/
structure Safe (m n : Int) : Prop where
  fst : m.natAbs ≤ 2 ^ 63
  snd : n.natAbs ≤ 2 ^ 63
  apart : ¬ (m = longMin ∧ n = -1) ∧ ¬ (m = -1 ∧ n = longMin)

theorem Safe.step {m n : Int} (h : Safe m n) (hn : n ≠ 0) :
    rem m n = some (m.tmod n) ∧ Safe n (m.tmod n) := by
  have hlt : (m.tmod n).natAbs < n.natAbs := by
    rw [Int.natAbs_tmod]
    exact Nat.mod_lt _ (Int.natAbs_pos.mpr hn)
  refine ⟨if_neg h.apart.1, h.snd, Nat.le_of_lt (Nat.lt_of_lt_of_le hlt h.snd), ?_, ?_⟩
  · -- only -1 itself leaves -1 behind
    rintro ⟨hmin, hone⟩
    have habs : m.natAbs = 1 := by
      have hmod := congrArg Int.natAbs hone
      have hmin' : longMin.natAbs = 2 ^ 63 := rfl
      rw [Int.natAbs_tmod, hmin, hmin'] at hmod
      have hone' : (-1 : Int).natAbs = 1 := rfl
      have hle := h.fst
      omega
    rcases Int.natAbs_eq m with hm | hm
    · rw [hm, habs, hmin] at hone
      exact absurd hone (by decide)
    · rw [habs] at hm
      exact h.apart.2 ⟨hm, hmin⟩
  · rintro ⟨hone, hmin⟩
    rw [hmin, hone] at hlt
    exact absurd hlt (by decide)

theorem gcd_tmod (m n : Int) : Int.gcd n (m.tmod n) = Int.gcd m n := by
  rw [Int.gcd, Int.natAbs_tmod, Nat.gcd_comm, ← Nat.gcd_rec, Int.gcd, Nat.gcd_comm]

/-- What holds of the state of the loop while at most `k` passes go round. -/
structure Reducing (d : Nat) (plain : Prop) (k : Nat) (s : Int × Int) : Prop where
  safe : Safe s.1 s.2
  same : Int.gcd s.1 s.2 = d
  plain : plain → 0 ≤ s.1 ∧ 0 ≤ s.2
  fuel : s.2.natAbs ≤ k

theorem gcdPass_total (d : Nat) (plain : Prop) : ∀ k s, Reducing d plain k s →
    (∃ r, gcdPass s = some (.done r) ∧ r.natAbs = d ∧ (plain → 0 ≤ r)) ∨
    ∃ s' k', gcdPass s = some (.next s') ∧ k' < k ∧ Reducing d plain k' s' := by
  rintro k ⟨m, n⟩ h
  by_cases hn : n = 0
  · refine Or.inl ⟨m, if_pos hn, ?_, fun hplain => (h.plain hplain).1⟩
    rw [← h.same, hn]
    exact (Int.gcd_zero_right m).symm
  · obtain ⟨hrem, hsafe⟩ := h.safe.step hn
    have hlt : (m.tmod n).natAbs < n.natAbs := by
      rw [Int.natAbs_tmod]
      exact Nat.mod_lt _ (Int.natAbs_pos.mpr hn)
    refine Or.inr ⟨(n, m.tmod n), (m.tmod n).natAbs, ?_, Nat.lt_of_lt_of_le hlt h.fuel, hsafe,
      (gcd_tmod m n).trans h.same, fun hplain => ⟨(h.plain hplain).2, ?_⟩, Nat.le_refl _⟩
    · rw [gcdPass, if_neg hn, hrem]
      rfl
    · exact Int.tmod_nonneg n (h.plain hplain).1

/-- The pair that the loop fails on. -/
theorem gcdLoop_fails (fuel : Nat) : loop gcdPass fuel (-1, longMin) = none := by
  have hfirst : gcdPass (-1, longMin) = some (.next (longMin, -1)) := by decide
  have hsecond : gcdPass (longMin, -1) = none := by decide
  cases fuel with
  | zero => rfl
  | succ fuel =>
      rw [loop_next (Nat.succ_pos fuel) hfirst]
      show loop gcdPass fuel (longMin, -1) = none
      cases fuel with
      | zero => rfl
      | succ fuel => rw [loop, hsecond]

theorem gcd_eq (fuel : Nat) (m n : Int) :
    gcd fuel m n = loop gcdPass fuel (max m n, min m n) := by
  rw [gcd]
  by_cases h : m < n
  · rw [if_pos h, max_eq_right (Int.le_of_lt h), min_eq_left (Int.le_of_lt h)]
  · rw [if_neg h, max_eq_left (Int.not_lt.mp h), min_eq_right (Int.not_lt.mp h)]

theorem gcd_max_min (m n : Int) : Int.gcd (max m n) (min m n) = Int.gcd m n := by
  rcases Int.le_total m n with h | h
  · rw [max_eq_right h, min_eq_left h, Int.gcd_comm]
  · rw [max_eq_left h, min_eq_right h]

/-- **The greatest common divisor**, up to its sign: there is one for any two `long`s, except
    for -1 and the smallest `long`. -/
theorem gcd_spec (m n : Int) (hm : longMin ≤ m ∧ m < 2 ^ 63) (hn : longMin ≤ n ∧ n < 2 ^ 63) :
    (∃ r N, (∀ fuel, N ≤ fuel → gcd fuel m n = some r) ∧ r.natAbs = Int.gcd m n
        ∧ (0 ≤ m ∧ 0 ≤ n → 0 ≤ r))
      ↔ ¬ (min m n = longMin ∧ max m n = -1) := by
  constructor
  · rintro ⟨r, N, hrun, -⟩ ⟨hmin, hmax⟩
    have hr := hrun N (Nat.le_refl N)
    rw [gcd_eq, hmin, hmax, gcdLoop_fails] at hr
    exact absurd hr.symm (Option.some_ne_none r)
  · intro hpair
    rw [longMin] at hm hn
    have hsafe : Safe (max m n) (min m n) := by
      refine ⟨by omega, by omega, fun h => ?_, fun h => hpair ⟨h.2, h.1⟩⟩
      have hlow : max m n = -2 ^ 63 := h.1
      have hone := h.2
      omega
    obtain ⟨r, ⟨habs, hpos⟩, hrun⟩ := loop_total (gcdPass_total _ (0 ≤ m ∧ 0 ≤ n)) _
      (max m n, min m n) ⟨hsafe, gcd_max_min m n, fun h => by omega, Nat.le_refl _⟩
    exact ⟨r, _, fun fuel hfuel => (gcd_eq fuel m n).trans (hrun fuel hfuel), habs, hpos⟩

/-- The remainders of 12 and -18 are 12, -6 and 0. -/
theorem gcd_spec_twelve :
    (∃ r N, (∀ fuel, N ≤ fuel → gcd fuel 12 (-18) = some r) ∧ r.natAbs = Int.gcd 12 (-18)
        ∧ ((0 : Int) ≤ 12 ∧ (0 : Int) ≤ -18 → 0 ≤ r))
      ↔ ¬ (min 12 (-18) = longMin ∧ max 12 (-18) = (-1 : Int)) :=
  gcd_spec 12 (-18) (by decide) (by decide)

end CtiGcd
