import CppTest.MachineProofs
import Mathlib.Data.List.Basic

/-! # Reading numbers from a text

    The conversions `%d` and `%zu` of `scanf`, on the characters that are left of a text:
    white space is skipped, then a sign is read and then digits.

    * `Conv` — a conversion finds a number, or something else, or the end of the text.
      The character that stops it stays in the text; a sign before it does not.
    * `number_used` — only white space, signs and digits are ever taken away.
    * `number_shorter` — where there is nothing else, something is.
    * `atoi` — the number at the front of a text, if it is an `int` (`atoi_eq_iff`).
    * `number_toDigits` — a number that was printed is read back, with the digits behind it.

    Nothing here names a program of the repository. -/

namespace Scan

/-- `isspace`. -/
def isSpace (c : Char) : Bool := c.toNat == 32 || (9 ≤ c.toNat && c.toNat ≤ 13)

/-- A sign. -/
def isSign (c : Char) : Bool := c == '+' || c == '-'

/-- A character that a conversion can take. -/
def Numeric (c : Char) : Prop := isSpace c = true ∨ isSign c = true ∨ c.isDigit = true

instance (c : Char) : Decidable (Numeric c) := inferInstanceAs (Decidable (_ ∨ _ ∨ _))

/-- How a conversion ends, with what it leaves of the text. -/
inductive Conv where
  | value (n : Int) (rest : List Char)
  | mismatch (rest : List Char)
  | eof
  deriving Repr, DecidableEq

/-- The number that digits spell. -/
def digits (ds : List Char) : Nat := ds.foldl (fun n c => 10 * n + (c.toNat - 48)) 0

/-- The digits at the front of a text, behind a sign or none. -/
def unsigned (negative : Bool) (s : List Char) : Conv :=
  match s.takeWhile Char.isDigit with
  | [] => .mismatch s
  | d :: ds =>
      .value (if negative then -(digits (d :: ds) : Int) else digits (d :: ds))
        (s.dropWhile Char.isDigit)

/-- A number at the front of a text, as `%d` and `%zu` read it. -/
def number (s : List Char) : Conv :=
  match s.dropWhile isSpace with
  | [] => .eof
  | c :: rest => if isSign c then unsigned (c == '-') rest else unsigned false (c :: rest)

/-- The number at the front of a text; 0 where there is none. -/
def numberOf (s : List Char) : Int :=
  match number s with
  | .value n _ => n
  | _ => 0

/-- `strtol(s, NULL, 10)`: the number, or the end of `long` that it lies beyond. -/
def strtol (s : List Char) : Int := max (-2 ^ 63) (min (numberOf s) (2 ^ 63 - 1))

/-- `atoi`: the `int` that the result of `strtol` is cut to. -/
def atoi (s : List Char) : Int := Machine.wrap32 (strtol s)

/-- `atoi` gives the number where that is an `int`, and only there. -/
theorem atoi_eq_iff (s : List Char) :
    atoi s = numberOf s ↔ Machine.intMin ≤ numberOf s ∧ numberOf s ≤ Machine.intMax := by
  rw [atoi, strtol, Machine.wrap32, Machine.intMin, Machine.intMax]
  generalize numberOf s = n
  constructor
  · intro h
    have hlo : -(2 ^ 32 / 2 : Int) ≤ Int.bmod (max (-2 ^ 63) (min n (2 ^ 63 - 1))) (2 ^ 32) :=
      Int.le_bmod (by decide)
    have hhi : Int.bmod (max (-2 ^ 63) (min n (2 ^ 63 - 1))) (2 ^ 32) < (2 ^ 32 + 1) / 2 :=
      Int.bmod_lt (by decide)
    omega
  · rintro ⟨hlo, hhi⟩
    have hclamp : max (-2 ^ 63) (min n (2 ^ 63 - 1)) = n := by omega
    rw [hclamp]
    exact Int.bmod_eq_of_le (by omega) (by omega)

/-! ## What is taken from the text -/

/-- What a conversion leaves; nothing at the end of the text. -/
def Conv.rest : Conv → List Char
  | .value _ rest => rest
  | .mismatch rest => rest
  | .eof => []

theorem takeWhile_true {p : Char → Bool} {s : List Char} : ∀ c ∈ s.takeWhile p, p c = true :=
  fun _ hc => List.all_eq_true.mp (List.all_takeWhile) _ hc

theorem unsigned_used (negative : Bool) (s : List Char) :
    ∃ used, s = used ++ (unsigned negative s).rest ∧ ∀ c ∈ used, c.isDigit = true := by
  unfold unsigned
  cases h : s.takeWhile Char.isDigit with
  | nil => exact ⟨[], rfl, fun c hc => nomatch hc⟩
  | cons d ds =>
      refine ⟨s.takeWhile Char.isDigit, (List.takeWhile_append_dropWhile).symm, takeWhile_true⟩

/-- **Only characters of numbers are taken away**, and white space. -/
theorem number_used (s : List Char) :
    ∃ used, s = used ++ (number s).rest ∧ ∀ c ∈ used, Numeric c := by
  have hsplit : s = s.takeWhile isSpace ++ s.dropWhile isSpace :=
    (List.takeWhile_append_dropWhile).symm
  have hspace : ∀ c ∈ s.takeWhile isSpace, Numeric c := fun c hc => .inl (takeWhile_true c hc)
  unfold number
  cases h : s.dropWhile isSpace with
  | nil =>
      rw [h] at hsplit
      exact ⟨_, hsplit, hspace⟩
  | cons c rest =>
      rw [h] at hsplit
      by_cases hc : isSign c = true
      · obtain ⟨used, hused, hdigits⟩ := unsigned_used (c == '-') rest
        refine ⟨s.takeWhile isSpace ++ c :: used, ?_, ?_⟩
        · dsimp only
          rw [if_pos hc, List.append_assoc, List.cons_append, ← hused]
          exact hsplit
        · refine List.forall_mem_append.mpr ⟨hspace, List.forall_mem_cons.mpr ⟨.inr (.inl hc), ?_⟩⟩
          exact fun d hd => .inr (.inr (hdigits d hd))
      · obtain ⟨used, hused, hdigits⟩ := unsigned_used false (c :: rest)
        refine ⟨s.takeWhile isSpace ++ used, ?_, ?_⟩
        · dsimp only
          rw [if_neg hc, List.append_assoc, ← hused]
          exact hsplit
        · exact List.forall_mem_append.mpr ⟨hspace, fun d hd => .inr (.inr (hdigits d hd))⟩

theorem unsigned_length (negative : Bool) (s : List Char) :
    (unsigned negative s).rest.length ≤ s.length := by
  obtain ⟨used, hused, -⟩ := unsigned_used negative s
  have hlen := congrArg List.length hused
  rw [List.length_append] at hlen
  omega

theorem unsigned_digit {negative : Bool} {c : Char} {s : List Char} (hc : c.isDigit = true) :
    (unsigned negative (c :: s)).rest = s.dropWhile Char.isDigit := by
  rw [unsigned, List.takeWhile_cons_of_pos hc, List.dropWhile_cons_of_pos hc]
  rfl

/-- **Where there is nothing else, a conversion takes something away.** -/
theorem number_shorter {s : List Char} (hs : ∀ c ∈ s, Numeric c) (h : number s ≠ .eof) :
    (number s).rest.length < s.length := by
  have hlen := (List.dropWhile_sublist isSpace (l := s)).length_le
  cases hdrop : s.dropWhile isSpace with
  | nil =>
      rw [number, hdrop] at h
      exact absurd rfl h
  | cons c rest =>
      rw [hdrop, List.length_cons] at hlen
      have hnumber : number s
          = if isSign c then unsigned (c == '-') rest else unsigned false (c :: rest) := by
        rw [number, hdrop]
      have hmem : c ∈ s :=
        (List.dropWhile_sublist isSpace).subset (hdrop ▸ List.mem_cons_self)
      have hspace : ¬ isSpace c = true := by
        have hhead := List.head?_dropWhile_not isSpace s
        rw [hdrop] at hhead
        simpa using hhead
      rw [hnumber]
      rcases hs c hmem with hc | hc | hc
      · exact absurd hc hspace
      · rw [if_pos hc]
        exact Nat.lt_of_le_of_lt (unsigned_length _ rest) hlen
      · by_cases hsign : isSign c = true
        · rw [if_pos hsign]
          exact Nat.lt_of_le_of_lt (unsigned_length _ rest) hlen
        · rw [if_neg hsign, unsigned_digit hc]
          exact Nat.lt_of_le_of_lt (List.dropWhile_sublist Char.isDigit).length_le hlen

/-! ## A number that was printed -/

theorem digits_toDigits (k : Nat) : digits (Nat.toDigits 10 k) = k := Nat.ofDigitChars_ten_toDigits

/-- More digits behind a number. -/
theorem digits_append (l r : List Char) :
    digits (l ++ r) = 10 ^ r.length * digits l + digits r := by
  have happend : digits (l ++ r) = Nat.ofDigitChars 10 r (digits l) :=
    Nat.ofDigitChars_append (b := 10) 0
  rw [happend, Nat.ofDigitChars_eq_ofDigitChars_zero]
  rfl

/-- Digits are worth nothing if all are zeros. -/
theorem digits_eq_zero : ∀ {ds : List Char}, (∀ c ∈ ds, c.isDigit = true) →
    (digits ds = 0 ↔ ∀ c ∈ ds, c = '0') := by
  intro ds
  induction ds with
  | nil => exact fun _ => iff_of_true rfl fun _ hc => absurd hc List.not_mem_nil
  | cons d ds ih =>
      intro hdigits
      have hsplit := digits_append [d] ds
      have hd : digits [d] = 0 ↔ d = '0' := by
        have hrange := hdigits d (List.mem_cons_self ..)
        rw [Char.isDigit, Bool.and_eq_true, decide_eq_true_eq, decide_eq_true_eq] at hrange
        have hone : digits [d] = d.toNat - 48 := by simp [digits]
        have hlo : 48 ≤ d.toNat := hrange.1
        rw [hone, ← Char.toNat_inj]
        show _ ↔ d.toNat = 48
        omega
      rw [List.singleton_append] at hsplit
      rw [hsplit, Nat.add_eq_zero_iff, Nat.mul_eq_zero, hd,
        ih fun c hc => hdigits c (List.mem_cons_of_mem _ hc), List.forall_mem_cons]
      have hpow : ¬ 10 ^ ds.length = 0 := Nat.pos_iff_ne_zero.mp (Nat.pow_pos (by decide))
      simp only [hpow, false_or]

/-- A number is not changed by more digits if there are none, or all is zero. -/
theorem digits_append_eq {k : Nat} {ds : List Char} (hds : ∀ c ∈ ds, c.isDigit = true) :
    digits (Nat.toDigits 10 k ++ ds) = k ↔ ds = [] ∨ k = 0 ∧ ∀ c ∈ ds, c = '0' := by
  rw [digits_append, digits_toDigits]
  constructor
  · intro h
    by_cases hk : k = 0
    · rw [hk, Nat.mul_zero, Nat.zero_add] at h
      exact Or.inr ⟨hk, (digits_eq_zero hds).mp h⟩
    · left
      by_contra hne
      have hlen := List.length_pos_iff.mpr hne
      have hpow : 10 ^ 1 ≤ 10 ^ ds.length := Nat.pow_le_pow_right (by decide) hlen
      have hmul := Nat.mul_le_mul_right k hpow
      omega
  · rintro (rfl | ⟨rfl, hzero⟩)
    · simp [digits]
    · rw [Nat.mul_zero, Nat.zero_add]
      exact (digits_eq_zero hds).mpr hzero

/-- **Reading back**: the number with the digits that happen to stand behind it. -/
theorem number_toDigits (k : Nat) (rest : List Char) :
    number (Nat.toDigits 10 k ++ rest)
      = .value (digits (Nat.toDigits 10 k ++ rest.takeWhile Char.isDigit))
          (rest.dropWhile Char.isDigit) := by
  have hdigit : ∀ c ∈ Nat.toDigits 10 k, c.isDigit = true :=
    fun c hc => Nat.isDigit_of_mem_toDigits (by decide) (by decide) hc
  obtain ⟨d, ds, hd⟩ := List.exists_cons_of_ne_nil (Nat.toDigits_ne_nil (n := k) (b := 10))
  have hfront := hdigit d (hd ▸ List.mem_cons_self)
  have hspace : isSpace d = false := by
    rw [Char.isDigit, Bool.and_eq_true, decide_eq_true_eq, decide_eq_true_eq] at hfront
    have hlo : 48 ≤ d.toNat := hfront.1
    simp only [isSpace, Bool.or_eq_false_iff, beq_eq_false_iff_ne, Bool.and_eq_false_iff,
      decide_eq_false_iff_not]
    omega
  have hsign : isSign d = false := by
    rw [isSign, Bool.or_eq_false_iff, beq_eq_false_iff_ne, beq_eq_false_iff_ne]
    constructor <;> rintro rfl <;> exact absurd hfront (by decide)
  have htake : (Nat.toDigits 10 k ++ rest).takeWhile Char.isDigit
      = Nat.toDigits 10 k ++ rest.takeWhile Char.isDigit := List.takeWhile_append_of_pos hdigit
  have hdrop : (Nat.toDigits 10 k ++ rest).dropWhile Char.isDigit = rest.dropWhile Char.isDigit :=
    List.dropWhile_append_of_pos hdigit
  have hnumber : number (Nat.toDigits 10 k ++ rest)
      = unsigned false (Nat.toDigits 10 k ++ rest) := by
    rw [hd, List.cons_append, number, List.dropWhile_cons_of_neg (by rw [hspace]; decide)]
    exact if_neg (by rw [hsign]; decide)
  rw [hnumber, unsigned, htake, hdrop, hd, List.cons_append]
  rfl

end Scan
