import Mathlib.Algebra.Group.Nat.Defs
import Mathlib.Data.List.Basic
import Mathlib.Logic.Function.Basic

/-! # The towers of Hanoi (`src/algs/cti/test_cti.cpp`)

    `Hanoi` prints one line for each move.  Here a line is the move it names, and the moves
    are PLAYED on pegs that hold disks, the top one first.

    * A call for `n` disks is played above any larger disks on all three pegs
      (`hanoi_plays`); the two calls inside it permute the pegs and leave one more large disk
      below.
    * From the tower on `a`, so, all moves are legal and the tower ends on `c`
      (`hanoi_moves`). -/

namespace Hanoi

/-! ## The model -/

/-- A line `disk: src -> dst`. -/
structure Move where
  disk : Int
  src : Char
  dst : Char
  deriving Repr, DecidableEq

/-- `Hanoi`: the lines it prints.  For `n` below 1 it does not come to an end. -/
def hanoi : Nat → Char → Char → Char → Int → Option (List Move)
  | 0, _, _, _, _ => none
  | fuel + 1, a, b, c, n =>
      if 1 = n then some [⟨n, a, c⟩]
      else do
        let before ← hanoi fuel a c b (n - 1)
        let behind ← hanoi fuel b a c (n - 1)
        some (before ++ ⟨n, a, c⟩ :: behind)

/-! ## Playing the moves -/

/-- The disks on each peg, the top one first. -/
abbrev Pegs := Char → List Int

/-- A legal move: the disk is on top of its peg, and no disk on the other one is smaller. -/
def play (pegs : Pegs) (m : Move) : Option Pegs :=
  if (pegs m.src).head? = some m.disk ∧ ∀ d ∈ pegs m.dst, m.disk ≤ d then
    some (Function.update (Function.update pegs m.src (pegs m.src).tail) m.dst
      (m.disk :: pegs m.dst))
  else none

/-- The disks 1 to `n` in order. -/
def tower (n : Nat) : List Int := (List.range n).map fun i : Nat => ((i + 1 : Nat) : Int)

theorem tower_succ (n : Nat) : tower (n + 1) = tower n ++ [((n + 1 : Nat) : Int)] := by
  rw [tower, List.range_succ, List.map_append, ← tower]
  rfl

/-- The pegs after the disks `T` went from `a`, where `A` lies below them, to `c`. -/
def carried (pegs : Pegs) (a c : Char) (T A : List Int) : Pegs :=
  Function.update (Function.update pegs a A) c (T ++ pegs c)

section Carried

variable {pegs : Pegs} {a b c : Char} {T A : List Int}

theorem carried_src (hac : a ≠ c) : carried pegs a c T A a = A := by
  rw [carried, Function.update_of_ne hac, Function.update_self]

theorem carried_dst : carried pegs a c T A c = T ++ pegs c := by
  rw [carried, Function.update_self]

theorem carried_other (hba : b ≠ a) (hbc : b ≠ c) : carried pegs a c T A b = pegs b := by
  rw [carried, Function.update_of_ne hbc, Function.update_of_ne hba]

/-- One disk from the top of `a`. -/
theorem play_top {d : Int} (ha : pegs a = d :: A) (hc : ∀ x ∈ pegs c, d ≤ x) :
    play pegs ⟨d, a, c⟩ = some (carried pegs a c [d] A) := by
  have hlegal : (pegs a).head? = some d ∧ ∀ x ∈ pegs c, d ≤ x := ⟨by rw [ha]; rfl, hc⟩
  rw [play, if_pos hlegal, ha]
  rfl

/-- Disks from `a` to `b`, one from `a` to `c`, and the first ones from `b` to `c`. -/
theorem carried_three (d : Int) (hab : a ≠ b) (hbc : b ≠ c) (hac : a ≠ c) :
    carried (carried (carried pegs a b T (d :: A)) a c [d] A) b c T (pegs b)
      = carried pegs a c (T ++ [d]) A := by
  funext p
  by_cases hpc : p = c
  · subst hpc
    rw [carried_dst, carried_dst, carried_dst, carried_other hac.symm hbc.symm, List.append_assoc]
  · by_cases hpb : p = b
    · subst hpb
      rw [carried_src hbc, carried_other hab.symm hbc]
    · by_cases hpa : p = a
      · subst hpa
        rw [carried_other hab hac, carried_src hac, carried_src hac]
      · rw [carried_other hpb hpc, carried_other hpa hpc, carried_other hpa hpb,
          carried_other hpa hpc]

end Carried

/-- **A call is played** above the larger disks of all three pegs; by induction on the number
    of disks. -/
theorem hanoi_plays : ∀ (n : Nat) {a b c : Char} {pegs : Pegs} {A : List Int},
    a ≠ b → b ≠ c → a ≠ c → pegs a = tower (n + 1) ++ A →
    (∀ d, d ∈ A ∨ d ∈ pegs b ∨ d ∈ pegs c → ((n + 1 : Nat) : Int) < d) →
    ∃ moves, (∀ fuel, n + 1 ≤ fuel → hanoi fuel a b c (n + 1 : Nat) = some moves)
      ∧ moves.foldlM play pegs = some (carried pegs a c (tower (n + 1)) A)
      ∧ moves.length = 2 ^ (n + 1) - 1 := by
  intro n
  induction n with
  | zero =>
      intro a b c pegs A hab hbc hac ha hlarge
      refine ⟨[⟨((0 + 1 : Nat) : Int), a, c⟩], fun fuel hfuel => ?_, ?_, rfl⟩
      · obtain ⟨fuel, rfl⟩ : ∃ k, fuel = k + 1 := ⟨fuel - 1, by omega⟩
        rw [hanoi]
        rfl
      · have hmove : play pegs ⟨((0 + 1 : Nat) : Int), a, c⟩
            = some (carried pegs a c (tower 1) A) :=
          play_top ha fun x hx => Int.le_of_lt (hlarge x (.inr (.inr hx)))
        rw [List.foldlM_cons, hmove]
        rfl
  | succ n ih =>
      intro a b c pegs A hab hbc hac ha hlarge
      rw [tower_succ, List.append_assoc] at ha
      have hd : ((n + 1 : Nat) : Int) < ((n + 1 + 1 : Nat) : Int) := by omega
      generalize hdisk : ((n + 1 + 1 : Nat) : Int) = d at *
      change pegs a = tower (n + 1) ++ (d :: A) at ha
      have hmore : ∀ x, x ∈ A ∨ x ∈ pegs b ∨ x ∈ pegs c → ((n + 1 : Nat) : Int) < x :=
        fun x hx => Int.lt_trans hd (hlarge x hx)
      -- the smaller disks go to `b`, above the large one that stays on `a`
      have hfirst : ∀ x, x ∈ d :: A ∨ x ∈ pegs c ∨ x ∈ pegs b → ((n + 1 : Nat) : Int) < x := by
        rintro x (hx | hx | hx)
        · rcases List.mem_cons.mp hx with rfl | hx
          · exact hd
          · exact hmore x (.inl hx)
        · exact hmore x (.inr (.inr hx))
        · exact hmore x (.inr (.inl hx))
      obtain ⟨before, hbefore, hplay₁, hlen₁⟩ := ih hac hbc.symm hab ha hfirst
      -- the large one goes to `c`
      have hmove : play (carried pegs a b (tower (n + 1)) (d :: A)) ⟨d, a, c⟩
          = some (carried (carried pegs a b (tower (n + 1)) (d :: A)) a c [d] A) := by
        refine play_top (carried_src hab) fun x hx => ?_
        rw [carried_other hac.symm hbc.symm] at hx
        exact Int.le_of_lt (hlarge x (.inr (.inr hx)))
      -- and the smaller ones follow
      generalize hmid : carried (carried pegs a b (tower (n + 1)) (d :: A)) a c [d] A = mid at *
      have hmidb : mid b = tower (n + 1) ++ pegs b := by
        rw [← hmid, carried_other hab.symm hbc, carried_dst]
      have hlast : ∀ x, x ∈ pegs b ∨ x ∈ mid a ∨ x ∈ mid c → ((n + 1 : Nat) : Int) < x := by
        rw [← hmid, carried_src hac, carried_dst, carried_other hac.symm hbc.symm]
        rintro x (hx | hx | hx)
        · exact hmore x (.inr (.inl hx))
        · exact hmore x (.inl hx)
        · rcases List.mem_cons.mp hx with rfl | hx
          · exact hd
          · exact hmore x (.inr (.inr hx))
      obtain ⟨behind, hbehind, hplay₂, hlen₂⟩ := ih hab.symm hac hbc hmidb hlast
      refine ⟨before ++ ⟨d, a, c⟩ :: behind, fun fuel hfuel => ?_, ?_, ?_⟩
      · obtain ⟨fuel, rfl⟩ : ∃ k, fuel = k + 1 := ⟨fuel - 1, by omega⟩
        have hless : d - 1 = ((n + 1 : Nat) : Int) := by omega
        rw [hanoi, if_neg (by omega), hless, hbefore fuel (by omega), hbehind fuel (by omega)]
        rfl
      · rw [List.foldlM_append, hplay₁, Option.bind_eq_bind, Option.bind_some, List.foldlM_cons,
          hmove, Option.bind_eq_bind, Option.bind_some, hplay₂, ← hmid,
          carried_three d hab hbc hac, tower_succ (n + 1), hdisk]
      · have hpow := Nat.two_pow_pos (n + 1)
        rw [List.length_append, List.length_cons, hlen₁, hlen₂, Nat.pow_succ 2 (n + 1)]
        omega

/-- The pegs with all disks in one tower. -/
def towerOn (p : Char) (n : Nat) : Pegs := fun q => if q = p then tower n else []

theorem carried_towerOn {a c : Char} (n : Nat) (hac : a ≠ c) :
    carried (towerOn a n) a c (tower n) [] = towerOn c n := by
  funext p
  by_cases hpc : p = c
  · subst hpc
    rw [carried_dst, towerOn, towerOn, if_neg hac.symm, if_pos rfl, List.append_nil]
  · rw [towerOn, if_neg hpc]
    by_cases hpa : p = a
    · subst hpa
      rw [carried_src hac]
    · rw [carried_other hpa hpc, towerOn, if_neg hpa]

/-- **The moves that are printed** are legal, one after the other, and bring the tower from
    `a` to `c`. -/
theorem hanoi_moves {a b c : Char} {n : Nat} (hab : a ≠ b) (hbc : b ≠ c) (hac : a ≠ c)
    (hn : 1 ≤ n) : ∃ moves, (∀ fuel, n ≤ fuel → hanoi fuel a b c n = some moves)
      ∧ moves.foldlM play (towerOn a n) = some (towerOn c n) ∧ moves.length = 2 ^ n - 1 := by
  obtain ⟨k, rfl⟩ : ∃ k, n = k + 1 := ⟨n - 1, by omega⟩
  have htower : towerOn a (k + 1) a = tower (k + 1) ++ [] := by
    rw [towerOn, if_pos rfl, List.append_nil]
  have hlarge : ∀ d, d ∈ [] ∨ d ∈ towerOn a (k + 1) b ∨ d ∈ towerOn a (k + 1) c →
      ((k + 1 : Nat) : Int) < d := by
    rw [towerOn, if_neg hab.symm, towerOn, if_neg hac.symm]
    rintro d (hd | hd | hd)
    all_goals exact absurd hd List.not_mem_nil
  obtain ⟨moves, hmoves, hplay, hlen⟩ := hanoi_plays k hab hbc hac htower hlarge
  rw [carried_towerOn (k + 1) hac] at hplay
  exact ⟨moves, hmoves, hplay, hlen⟩

theorem hanoi_moves_three : ∃ moves,
    (∀ fuel, 3 ≤ fuel → hanoi fuel 'A' 'B' 'C' (3 : Nat) = some moves)
      ∧ moves.foldlM play (towerOn 'A' 3) = some (towerOn 'C' 3) ∧ moves.length = 2 ^ 3 - 1 :=
  hanoi_moves (by decide) (by decide) (by decide) (by decide)

end Hanoi
