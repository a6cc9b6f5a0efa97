import Mathlib.Data.Finset.Card
import Mathlib.Logic.Relation

/-! # Permits that processes share

    A semaphore counts the permits that are free.  A process takes one and gives it back; one
    that is gone while it holds a permit takes it along; and a permit may be added from outside.

    * `Balanced n s` — the free permits, the held and the lost ones are the first `n` and those
      that were added.
    * `Balanced.exclusive` — one permit has one holder.
    * `Step.of_drained` — where none is free and none is held, only a new one can help.

    Nothing here names a program of the repository. -/

namespace Permits

variable {ι : Type}

structure Shared (ι : Type) where
  free : Nat
  holds : Finset ι
  added : Nat
  lost : Nat

/-- No permit is made or lost but by `add` and `lose`. -/
def Balanced (n : Nat) (s : Shared ι) : Prop := s.free + s.holds.card + s.lost = n + s.added

/-- **One permit, one holder**, as long as none is added. -/
theorem Balanced.exclusive {s : Shared ι} (h : Balanced 1 s) (hadded : s.added ≤ s.lost) {i j : ι}
    (hi : i ∈ s.holds) (hj : j ∈ s.holds) : i = j := by
  rw [Balanced] at h
  have hcard : s.holds.card ≤ 1 := by omega
  exact Finset.card_le_one.mp hcard i hi j hj

/-- No permit is free and none is held. -/
def Drained (s : Shared ι) : Prop := s.free = 0 ∧ s.holds = ∅

variable [DecidableEq ι]

inductive Step : Shared ι → Shared ι → Prop where
  | take {s : Shared ι} {i : ι} : 0 < s.free → i ∉ s.holds →
      Step s { s with free := s.free - 1, holds := insert i s.holds }
  | give {s : Shared ι} {i : ι} : i ∈ s.holds →
      Step s { s with free := s.free + 1, holds := s.holds.erase i }
  | add {s : Shared ι} : Step s { s with free := s.free + 1, added := s.added + 1 }
  | lose {s : Shared ι} {i : ι} : i ∈ s.holds →
      Step s { s with holds := s.holds.erase i, lost := s.lost + 1 }

theorem Step.balanced {n : Nat} {s s' : Shared ι} (h : Step s s') (hs : Balanced n s) :
    Balanced n s' := by
  rw [Balanced] at hs ⊢
  cases h with
  | take hfree hi =>
      rw [Finset.card_insert_of_notMem hi]
      dsimp only
      omega
  | give hi =>
      have hpos := Finset.card_pos.mpr ⟨_, hi⟩
      rw [Finset.card_erase_of_mem hi]
      dsimp only
      omega
  | add =>
      dsimp only
      omega
  | lose hi =>
      have hpos := Finset.card_pos.mpr ⟨_, hi⟩
      rw [Finset.card_erase_of_mem hi]
      dsimp only
      omega

theorem Step.of_drained {s s' : Shared ι} (h : Step s s') (hs : Drained s) :
    s'.added = s.added + 1 := by
  obtain ⟨hfree, hholds⟩ := hs
  cases h with
  | take hpos _ => omega
  | give hi =>
      rw [hholds] at hi
      exact absurd hi (Finset.notMem_empty _)
  | add => rfl
  | lose hi =>
      rw [hholds] at hi
      exact absurd hi (Finset.notMem_empty _)

end Permits
