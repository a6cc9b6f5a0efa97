import Mathlib.Algebra.Ring.Nat
import Mathlib.Data.List.Basic
import Mathlib.Tactic.Common

/-! # Hexadecimal digits

    `pad w v` is `v` in `w` digits, as `%0wX` prints it where they are enough, and `read` the
    value of digits (`read_pad`).

    Nothing here names a program of the repository. -/

namespace Hex

def digit (d : Nat) : Char := if d < 10 then Char.ofNat (48 + d) else Char.ofNat (55 + d)

def value (c : Char) : Nat := if c.isDigit then c.toNat - 48 else c.toNat - 55

theorem value_digit {d : Nat} (h : d < 16) : value (digit d) = d :=
  (by decide : ∀ d : Fin 16, value (digit d) = d) ⟨d, h⟩

/-- The last `w` digits of `v`. -/
def pad : Nat → Nat → List Char
  | 0, _ => []
  | w + 1, v => pad w (v / 16) ++ [digit (v % 16)]

def read (ds : List Char) : Nat := ds.foldl (fun n c => 16 * n + value c) 0

@[simp] theorem length_pad : ∀ w v : Nat, (pad w v).length = w := by
  intro w
  induction w with
  | zero => exact fun _ => rfl
  | succ w ih =>
      intro v
      rw [pad, List.length_append, ih, List.length_singleton]

/-- **Reading back** what was printed. -/
theorem read_pad : ∀ {w v : Nat}, v < 16 ^ w → read (pad w v) = v := by
  intro w
  induction w with
  | zero =>
      intro v hv
      obtain rfl : v = 0 := Nat.lt_one_iff.mp hv
      rfl
  | succ w ih =>
      intro v hv
      have hdiv : v / 16 < 16 ^ w := by
        rw [Nat.div_lt_iff_lt_mul (by decide)]
        exact hv
      have hlast : read (pad (w + 1) v) = 16 * read (pad w (v / 16)) + value (digit (v % 16)) := by
        rw [pad, read, List.foldl_append]
        rfl
      rw [hlast, ih hdiv, value_digit (Nat.mod_lt _ (by decide))]
      exact Nat.div_add_mod v 16

theorem exists_of_mem_pad : ∀ {w v : Nat} {c : Char}, c ∈ pad w v → ∃ d < 16, c = digit d := by
  intro w
  induction w with
  | zero => exact fun h => absurd h List.not_mem_nil
  | succ w ih =>
      intro v c h
      rcases List.mem_append.mp h with h | h
      · exact ih h
      · exact ⟨v % 16, Nat.mod_lt _ (by decide), List.mem_singleton.mp h⟩

/-- A digit is nothing but a digit. -/
theorem ne_of_mem_pad {w v : Nat} {c x : Char} (h : c ∈ pad w v)
    (hx : ∀ d : Fin 16, digit d ≠ x) : c ≠ x := by
  obtain ⟨d, hd, rfl⟩ := exists_of_mem_pad h
  exact hx ⟨d, hd⟩

end Hex
