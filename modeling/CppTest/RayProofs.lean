import Mathlib.Data.List.Basic
import Mathlib.Tactic.Ring

/-! # Following a line from a point, both ways

    The positions of a line are the integers, with the point at 0, and `ok` says which of
    them are right.  A search looks at the positions `r` and `-r` in its round `r`, and
    goes on in a direction as long as it has met right positions only.

    * `reach ok r` — how far one direction has come after `r` rounds.
    * `count ok r` — the positions found in both.  A round that finds two of them has
      found all it has looked at (`both_advance`).
    * `visited`, `segment_perm` — the positions found, with the point between them, are
      consecutive.

    Nothing here names a program of the repository. -/

namespace Ray

/-! ## One direction -/

section Direction

variable (ok : Nat → Prop) [DecidablePred ok]

/-- How many of the positions `1 .. r` come before the first that is not right. -/
def reach : Nat → Nat
  | 0 => 0
  | r + 1 => if reach r = r ∧ ok (r + 1) then r + 1 else reach r

variable {ok}

theorem reach_advance {r : Nat} (h : reach ok r = r) (hok : ok (r + 1)) :
    reach ok (r + 1) = r + 1 := if_pos ⟨h, hok⟩

theorem reach_stay {r : Nat} (h : reach ok r = r → ¬ ok (r + 1)) :
    reach ok (r + 1) = reach ok r := if_neg fun hr => h hr.1 hr.2

variable (ok) in
theorem reach_succ (r : Nat) :
    reach ok (r + 1) = reach ok r ∨ (reach ok r = r ∧ reach ok (r + 1) = r + 1) := by
  by_cases h : reach ok r = r ∧ ok (r + 1)
  · exact .inr ⟨h.1, reach_advance h.1 h.2⟩
  · exact .inl (reach_stay fun hr hok => h ⟨hr, hok⟩)

variable (ok) in
theorem reach_le (r : Nat) : reach ok r ≤ r := by
  induction r with
  | zero => exact Nat.le_refl 0
  | succ r ih =>
      rcases reach_succ ok r with h | ⟨-, h⟩
      · omega
      · omega

theorem ok_of_le_reach {r i : Nat} (hi : 1 ≤ i) (hir : i ≤ reach ok r) : ok i := by
  induction r with
  | zero =>
      have hle := reach_le ok 0
      omega
  | succ r ih =>
      by_cases h : reach ok r = r ∧ ok (r + 1)
      · rw [reach_advance h.1 h.2] at hir
        rcases Nat.lt_or_eq_of_le hir with hlt | rfl
        · exact ih (by omega)
        · exact h.2
      · rw [reach_stay fun hr hok => h ⟨hr, hok⟩] at hir
        exact ih hir

theorem reach_full {r : Nat} (h : ∀ i, 1 ≤ i → i ≤ r → ok i) : reach ok r = r := by
  induction r with
  | zero => rfl
  | succ r ih =>
      exact reach_advance (ih fun i hi hir => h i hi (by omega)) (h (r + 1) (by omega) (by omega))

theorem le_reach_iff {k r : Nat} : k ≤ reach ok r ↔ k ≤ r ∧ ∀ i, 1 ≤ i → i ≤ k → ok i := by
  constructor
  · exact fun h => ⟨h.trans (reach_le ok r), fun i hi hik => ok_of_le_reach hi (hik.trans h)⟩
  · rintro ⟨hk, h⟩
    induction r with
    | zero => exact hk
    | succ r ih =>
        rcases Nat.lt_or_eq_of_le hk with hlt | rfl
        · have hr := ih (by omega)
          rcases reach_succ ok r with heq | ⟨-, heq⟩
          · rw [heq]
            exact hr
          · rw [heq]
            omega
        · rw [reach_full h]

theorem reach_mono {r r' : Nat} (h : r ≤ r') : reach ok r ≤ reach ok r' := by
  obtain ⟨hle, hok⟩ := le_reach_iff.mp (Nat.le_refl (reach ok r))
  exact le_reach_iff.mpr ⟨hle.trans h, hok⟩

/-- A direction does not come past a position that is not right. -/
theorem reach_le_of_not {r : Nat} (h : ¬ ok (r + 1)) (r' : Nat) : reach ok r' ≤ reach ok r := by
  obtain ⟨-, hok⟩ := le_reach_iff.mp (Nat.le_refl (reach ok r'))
  refine le_reach_iff.mpr ⟨?_, hok⟩
  by_contra hlt
  exact h (hok (r + 1) (by omega) (by omega))

end Direction

/-! ## Both directions -/

section Line

variable (ok : Int → Prop) [DecidablePred ok]

/-- How far the search has come towards the positive positions. -/
def ahead (r : Nat) : Nat := reach (fun i => ok (i : Int)) r

/-- How far it has come towards the negative ones. -/
def behind (r : Nat) : Nat := reach (fun i => ok (-(i : Int))) r

/-- How many positions it has found in both. -/
def count (r : Nat) : Nat := behind ok r + ahead ok r

variable {ok}

variable (ok) in
theorem count_le (r : Nat) : count ok r ≤ 2 * r := by
  have hbehind := reach_le (fun i => ok (-(i : Int))) r
  have hahead := reach_le (fun i => ok (i : Int)) r
  show reach (fun i => ok (-(i : Int))) r + reach (fun i => ok (i : Int)) r ≤ 2 * r
  omega

variable (ok) in
theorem count_mono {r r' : Nat} (h : r ≤ r') : count ok r ≤ count ok r' :=
  Nat.add_le_add (reach_mono h) (reach_mono h)

/-- If a round brings the positions from less than `m` to more, it has found two. -/
theorem both_advance {m r : Nat} (hlt : count ok r < m) (hgt : m < count ok (r + 1)) :
    behind ok (r + 1) = r + 1 ∧ ahead ok (r + 1) = r + 1 ∧ m + 1 = 2 * (r + 1) := by
  replace hlt : behind ok r + ahead ok r < m := hlt
  replace hgt : m < behind ok (r + 1) + ahead ok (r + 1) := hgt
  have hbehind : behind ok (r + 1) = behind ok r ∨ behind ok r = r ∧ behind ok (r + 1) = r + 1 :=
    reach_succ (fun i => ok (-(i : Int))) r
  have hahead : ahead ok (r + 1) = ahead ok r ∨ ahead ok r = r ∧ ahead ok (r + 1) = r + 1 :=
    reach_succ (fun i => ok (i : Int)) r
  -- a round finds one position in each direction at most
  rcases hbehind with hb | ⟨hb, hb'⟩
  · rcases hahead with ha | ⟨ha, ha'⟩
    · omega
    · omega
  · rcases hahead with ha | ⟨ha, ha'⟩
    · omega
    · omega

end Line

/-! ## The positions found -/

section Positions

variable {α : Type}

/-- The positions `1 .. k`. -/
def visited (cell : Nat → α) (k : Nat) : List α := (List.range k).map fun i : Nat => cell (i + 1)

theorem visited_succ (cell : Nat → α) (k : Nat) :
    visited cell (k + 1) = visited cell k ++ [cell (k + 1)] := by
  rw [visited, List.range_succ, List.map_append]
  rfl

theorem length_visited (cell : Nat → α) (k : Nat) : (visited cell k).length = k := by
  rw [visited, List.length_map, List.length_range]

/-- The `n` positions from `lo` on. -/
def segment (cell : Int → α) (lo : Int) (n : Nat) : List α :=
  (List.range n).map fun i : Nat => cell (lo + (i : Int))

theorem segment_succ (cell : Int → α) (lo : Int) (n : Nat) :
    segment cell lo (n + 1) = cell lo :: segment cell (lo + 1) n := by
  rw [segment, List.range_succ_eq_map, List.map_cons, List.map_map]
  refine congrArg₂ _ (by simp) (List.map_congr_left fun i _ => ?_)
  show cell (lo + ((i + 1 : Nat) : Int)) = cell (lo + 1 + (i : Int))
  congr 1
  push_cast
  ring

/-- **What both directions have found is consecutive**, with the point itself in between. -/
theorem segment_perm (cell : Int → α) (a b : Nat) :
    (cell 0 :: (visited (fun i => cell (-(i : Int))) a ++ visited (fun i => cell (i : Int)) b)).Perm
      (segment cell (-(a : Int)) (a + b + 1)) := by
  induction a with
  | zero =>
      rw [Nat.zero_add, segment_succ]
      refine List.Perm.of_eq (congrArg₂ _ rfl (List.map_congr_left fun i _ => ?_))
      congr 1
      push_cast
      ring
  | succ a ih =>
      have hnext : -((a + 1 : Nat) : Int) + 1 = -(a : Int) := by
        push_cast
        ring
      rw [show a + 1 + b + 1 = a + b + 1 + 1 from by omega, segment_succ, hnext, visited_succ,
        List.append_assoc]
      refine List.Perm.trans ?_ (ih.cons _)
      exact (List.perm_middle.cons (cell 0)).trans (List.Perm.swap _ _ _)

end Positions

end Ray
