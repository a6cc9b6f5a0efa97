import CppTest.MachineProofs
import Mathlib.Data.List.Rotate

/-! # The Josephus problem (`Josephus` of `src/algs/cti/test_cti.cpp`)

    The children stand in an array, and a child that is out is marked with `INT_MIN`.

    * The elimination itself, in its own terms: a circle is a list that starts with the
      child counted next, and one round counts `m` children and takes the last of them
      away (`round`).
    * The inner loop counts over the marks (`countLoop_spec`), so that the unmarked
      children in counting order are the circle (`live`).
    * The outer loop stops when ONE child is still to be taken away, and returns the
      child that the count has reached: that is the one to go, not the survivor
      (`josephus_returns`).
    * The result: `josephus_law_iff`. -/

namespace Josephus

open Machine

/-! ## The model -/

/-- `a % n` of `int`; a zero divisor faults. -/
def rem (a n : Int) : Option Int := if n = 0 then none else some (a.tmod n)

/-- One pass of `for(int i = 0; i != m;)`. -/
def countPass (child : List Int) (n m : Int) : Int × Int → Option (Pass (Int × Int) Int)
  | (i, curr) =>
      if i ≠ m then do
        let curr ← rem (← int32 (curr + 1)) n
        if (← getAt child curr) ≠ intMin then some (.next (← int32 (i + 1), curr))
        else some (.next (i, curr))
      else some (.done curr)

/-- One pass of the outer loop: `child`, `kickOut` and `curr`.  It is left with the
    array and the child that is returned. -/
def kickPass (fuel : Nat) (n m : Int) :
    List Int × Int × Int → Option (Pass (List Int × Int × Int) (List Int × Int))
  | (child, kickOut, curr) => do
      let curr ← loop (countPass child n m) fuel (0, curr)
      if kickOut = 1 then some (.done (child, ← getAt child curr))
      else
        let child ← setAt child curr intMin
        some (.next (child, ← int32 (kickOut - 1), curr))

/-- `Josephus<int>`: the array after the call and the value returned. -/
def josephus (fuel : Nat) (child : List Int) (n m : Int) : Option (List Int × Int) := do
  loop (kickPass fuel n m) fuel (child, ← int32 (n - 1), -1)

/-! ## The elimination -/

section Circle

variable {α β : Type}

/-- One round: `m` children are counted, and the last of them leaves the circle. -/
def round (m : Nat) (circle : List α) : List α := (circle.rotate (m - 1)).tail

/-- The circle after `k` rounds. -/
def rounds (m : Nat) : Nat → List α → List α
  | 0, circle => circle
  | k + 1, circle => round m (rounds m k circle)

theorem length_rounds (m k : Nat) (circle : List α) :
    (rounds m k circle).length = circle.length - k := by
  induction k with
  | zero => rfl
  | succ k ih =>
      rw [rounds, round, List.length_tail, List.length_rotate, ih]
      omega

/-- Who leaves depends on the places alone. -/
theorem rounds_map (m k : Nat) (f : α → β) (circle : List α) :
    rounds m k (circle.map f) = (rounds m k circle).map f := by
  induction k with
  | zero => rfl
  | succ k ih => rw [rounds, rounds, ih, round, round, ← List.map_rotate, List.map_tail]

end Circle

/-! ## The array as a circle -/

/-- The children in the circle, from index `k` on. -/
def live (child : List Int) (k : Nat) : List Int :=
  (child.rotate k).filter fun x => x ≠ intMin

/-- The others, from the one behind `p` on. -/
def others (child : List Int) (p : Nat) : List Int := child.drop (p + 1) ++ child.take p

section Array

variable {child : List Int} {p : Nat}

theorem rotate_at (hp : p < child.length) :
    child.rotate p = child.get ⟨p, hp⟩ :: others child p := by
  rw [List.rotate_eq_drop_append_take (Nat.le_of_lt hp), List.drop_eq_getElem_cons hp]
  rfl

theorem rotate_behind (hp : p < child.length) :
    child.rotate (p + 1) = others child p ++ [child.get ⟨p, hp⟩] := by
  rw [List.rotate_eq_drop_append_take hp, List.take_succ_eq_append_getElem hp,
    ← List.append_assoc]
  rfl

theorem others_set (v : Int) : others (child.set p v) p = others child p := by
  rw [others, others, List.drop_set_of_lt (Nat.lt_succ_self p), List.take_set_of_le (le_refl p)]

/-- Marking the child that was counted last takes it out of the circle. -/
theorem live_set (hp : p < child.length) :
    live (child.set p intMin) (p + 1) = (others child p).filter fun x => x ≠ intMin := by
  have hp' : p < (child.set p intMin).length := by rw [List.length_set]; exact hp
  rw [live, rotate_behind hp', others_set, List.filter_append]
  simp

theorem live_mod (k : Nat) : live child (k % child.length) = live child k := by
  rw [live, List.rotate_mod, live]

/-- Passing a marked child does not change the circle. -/
theorem live_marked (hp : p < child.length) (hx : child.get ⟨p, hp⟩ = intMin) :
    live child (p + 1) = live child p := by
  rw [live, live, rotate_behind hp, rotate_at hp, hx, List.filter_append]
  simp

/-- Counting a child moves it from the front of the circle to its end. -/
theorem live_counted (hp : p < child.length) (hx : child.get ⟨p, hp⟩ ≠ intMin) :
    live child p = child.get ⟨p, hp⟩ :: (others child p).filter (fun x => x ≠ intMin)
    ∧ live child (p + 1) = (live child p).rotate 1 := by
  have hfront : live child p
      = child.get ⟨p, hp⟩ :: (others child p).filter (fun x => x ≠ intMin) := by
    rw [live, rotate_at hp, List.filter_cons_of_pos (by simpa using hx)]
  refine ⟨hfront, ?_⟩
  rw [hfront, List.rotate_cons_succ, List.rotate_zero, live, rotate_behind hp, List.filter_append,
    List.filter_cons_of_pos (by simpa using hx), List.filter_nil]

/-! ## Counting -/

/-- How many marked children the count meets first. -/
def marked (child : List Int) (k : Nat) : Nat :=
  ((child.rotate k).takeWhile fun x => x = intMin).length

theorem marked_mod (k : Nat) : marked child (k % child.length) = marked child k := by
  rw [marked, List.rotate_mod, marked]

theorem marked_le (child : List Int) (k : Nat) : marked child k ≤ child.length := by
  rw [marked, ← List.length_rotate child k]
  exact (List.takeWhile_sublist _).length_le

/-- Passing a marked child leaves fewer, if somebody is still in the circle. -/
theorem marked_marked (hp : p < child.length) (hx : child.get ⟨p, hp⟩ = intMin)
    (hlive : live child p ≠ []) : marked child (p + 1) < marked child p := by
  have hnot : ((others child p).takeWhile fun x => x = intMin).length
      ≠ (others child p).length := by
    intro hall
    have heq := (List.takeWhile_prefix (p := fun x => decide (x = intMin))
      (l := others child p)).eq_of_length hall
    refine hlive (List.filter_eq_nil_iff.mpr ?_)
    intro x hmem
    rw [rotate_at hp, List.mem_cons, hx, ← heq] at hmem
    rcases hmem with rfl | hmem
    · simp
    · have htrue := List.all_eq_true.mp (List.all_takeWhile) x hmem
      simpa using htrue
  rw [marked, marked, rotate_behind hp, rotate_at hp, List.takeWhile_append, if_neg hnot,
    List.takeWhile_cons_of_pos (by simpa using hx), List.length_cons]
  exact Nat.lt_succ_self _

/-- The count moves on by one child, round the end of the array. -/
theorem countPass_at {m i k : Nat} (hn : (child.length : Int) ≤ intMax) (hm : (m : Int) ≤ intMax)
    (hi : i < m) (hk : k ≤ child.length) (hp : k % child.length < child.length) :
    countPass child child.length m ((i : Int), (k : Int) - 1)
      = some (.next (((if child.get ⟨_, hp⟩ ≠ intMin then i + 1 else i : Nat) : Int),
          ((k % child.length : Nat) : Int))) := by
  have hmin : intMin = -2147483648 := rfl
  have hnext : int32 ((k : Int) - 1 + 1) = some (k : Int) := by
    rw [Int.sub_add_cancel]
    exact int32_eq (by omega) (by omega)
  have hrem : rem (k : Int) child.length = some ((k % child.length : Nat) : Int) := by
    rw [rem, if_neg (by omega), Int.ofNat_tmod]
  have hread : getAt child ((k % child.length : Nat) : Int) = some (child.get ⟨_, hp⟩) := by
    rw [getAt_natCast, List.getElem?_eq_getElem hp]
    rfl
  have hcount : int32 ((i : Int) + 1) = some ((i + 1 : Nat) : Int) := int32_eq (by omega) (by omega)
  rw [countPass, if_pos (by omega)]
  simp only [Option.bind_eq_bind, hnext, Option.bind_some, hrem, hread, hcount]
  split
  · rfl
  · rfl

/-- Where the count of `m` children ends: at the child that leaves the circle. -/
structure Counted (child : List Int) (m : Nat) (circle : List Int) (p : Nat) (x : Int) : Prop where
  here : child[p]? = some x
  last : circle.rotate (m - 1) = x :: (others child p).filter fun x => x ≠ intMin

/-- The inner loop, with at most so many passes left: it is still counting, or the last
    pass has counted the `m`-th child. -/
inductive Counting (child : List Int) (m : Nat) (circle : List Int) : Nat → Int × Int → Prop where
  | going {i k : Nat} : i < m → k ≤ child.length → live child k = circle.rotate i →
      Counting child m circle ((m - i) * (child.length + 1) + marked child k)
        ((i : Int), (k : Int) - 1)
  | ended {p : Nat} {x : Int} : Counted child m circle p x →
      Counting child m circle 0 ((m : Int), (p : Int))

/-- A pass of the inner loop over a circle that is not empty. -/
theorem countPass_counting {m : Nat} (hn : (child.length : Int) ≤ intMax) (hm : (m : Int) ≤ intMax)
    {circle : List Int} (hne : circle ≠ []) :
    ∀ (N : Nat) (s : Int × Int), Counting child m circle N s →
      (∃ r, countPass child child.length m s = some (.done r)
        ∧ ∃ p x, r = ((p : Nat) : Int) ∧ Counted child m circle p x) ∨
      (∃ s' N', countPass child child.length m s = some (.next s') ∧ N' < N
        ∧ Counting child m circle N' s') := by
  intro N s h
  cases h with
  | @ended p x hdone =>
      refine .inl ⟨(p : Int), ?_, p, x, rfl, hdone⟩
      rw [countPass, if_neg (by simp)]
  | @going i k hi hk hrot =>
      have hlen : 0 < child.length := by
        by_contra hzero
        have hnil : child = [] := List.length_eq_zero_iff.mp (by omega)
        rw [hnil, live, List.rotate_nil, List.filter_nil] at hrot
        exact hne (List.rotate_eq_nil_iff.mp hrot.symm)
      have hp : k % child.length < child.length := Nat.mod_lt _ hlen
      have hstep := countPass_at hn hm hi hk hp
      have hcurr : ((k % child.length : Nat) : Int)
          = ((k % child.length + 1 : Nat) : Int) - 1 := by omega
      by_cases hx : child.get ⟨_, hp⟩ = intMin
      · rw [if_neg (not_not.mpr hx), hcurr] at hstep
        have hfewer := marked_marked hp hx (by
          rw [live_mod, hrot]
          exact fun h => hne (List.rotate_eq_nil_iff.mp h))
        rw [marked_mod] at hfewer
        refine .inr ⟨_, _, hstep, ?_, .going hi hp ?_⟩
        · omega
        · rw [live_marked hp hx, live_mod, hrot]
      · rw [if_pos hx] at hstep
        obtain ⟨hfront, hnext⟩ := live_counted hp hx
        rw [live_mod, hrot] at hfront hnext
        by_cases hend : i + 1 = m
        · subst hend
          refine .inr ⟨_, 0, hstep, ?_, .ended ⟨List.getElem?_eq_getElem hp, hfront⟩⟩
          rw [Nat.add_sub_cancel_left, Nat.one_mul]
          omega
        · rw [hcurr] at hstep
          refine .inr ⟨_, _, hstep, ?_, .going (by omega) hp ?_⟩
          · have hmarked := marked_le child (k % child.length + 1)
            have hsucc : m - i = (m - (i + 1)) + 1 := by omega
            rw [hsucc, Nat.succ_mul]
            omega
          · rw [hnext, List.rotate_rotate]

/-- **The inner loop counts `m` children of the circle**, which is not empty. -/
theorem countLoop_spec {m k : Nat} (hn : (child.length : Int) ≤ intMax) (hm : (m : Int) ≤ intMax)
    (hpos : 1 ≤ m) (hk : k ≤ child.length) (hlive : live child k ≠ []) :
    ∃ p x, Counted child m (live child k) p x
      ∧ ∀ fuel, m * (child.length + 1) + child.length < fuel →
        loop (countPass child child.length m) fuel (0, (k : Int) - 1) = some (p : Int) := by
  have hstart : Counting child m (live child k) ((m - 0) * (child.length + 1) + marked child k)
      (((0 : Nat) : Int), (k : Int) - 1) := .going hpos hk (List.rotate_zero _).symm
  obtain ⟨r, ⟨p, x, rfl, hdone⟩, hrun⟩ :=
    loop_total (countPass_counting hn hm hlive) _ _ hstart
  refine ⟨p, x, hdone, ?_⟩
  intro fuel hfuel
  have hmarked := marked_le child k
  exact hrun fuel (by rw [Nat.sub_zero]; omega)

end Array

/-! ## Kicking out -/

/-- The outer loop after `r` rounds. -/
structure Kicked (child₀ : List Int) (m r : Nat) (child : List Int) (k : Nat) : Prop where
  length : child.length = child₀.length
  le : k ≤ child.length
  circle : live child k = rounds m r child₀

/-- One more child is out. -/
theorem Kicked.kick {child₀ child : List Int} {m r k p : Nat} {x : Int}
    (h : Kicked child₀ m r child k) (hc : Counted child m (live child k) p x) :
    setAt child (p : Int) intMin = some (child.set p intMin)
      ∧ Kicked child₀ m (r + 1) (child.set p intMin) (p + 1) := by
  have hp : p < child.length := (List.getElem?_eq_some_iff.mp hc.here).1
  refine ⟨setAt_natCast _ _ hp, ?_, ?_, ?_⟩
  · rw [List.length_set, h.length]
  · rw [List.length_set]
    exact hp
  · rw [live_set hp, rounds, round, ← h.circle, hc.last, List.tail_cons]

section Run

variable {child₀ : List Int} {m : Nat} (hn : (child₀.length : Int) ≤ intMax)
  (hm : (m : Int) ≤ intMax) (hpos : 1 ≤ m)
include hn hm hpos

/-- A pass of the outer loop after `r` rounds, with two children left or more: the last
    one is left with the child that the count has reached. -/
theorem kickPass_kicked {fuel : Nat} (hfuel : m * (child₀.length + 1) + child₀.length < fuel) :
    ∀ (N : Nat) (s : List Int × Int × Int),
      (∃ child k r, s = (child, (child₀.length : Int) - 1 - (r : Nat), ((k : Nat) : Int) - 1)
        ∧ r + 2 + N = child₀.length ∧ Kicked child₀ m r child k) →
      (∃ res, kickPass fuel child₀.length m s = some (.done res)
        ∧ ∃ rest, (rounds m (child₀.length - 2) child₀).rotate (m - 1) = res.2 :: rest) ∨
      (∃ s' N', kickPass fuel child₀.length m s = some (.next s') ∧ N' < N
        ∧ ∃ child k r, s' = (child, (child₀.length : Int) - 1 - (r : Nat), ((k : Nat) : Int) - 1)
          ∧ r + 2 + N' = child₀.length ∧ Kicked child₀ m r child k) := by
  rintro N s ⟨child, k, r, rfl, hr, hk⟩
  have hlive : live child k ≠ [] := by
    intro hnil
    have hlen := length_rounds m r child₀
    rw [← hk.circle, hnil, List.length_nil] at hlen
    omega
  obtain ⟨p, x, hc, hrun⟩ :=
    countLoop_spec (hk.length ▸ hn) hm hpos hk.le hlive
  rw [hk.length] at hrun
  have hread : getAt child (p : Int) = some x := by rw [getAt_natCast, hc.here]
  by_cases hlast : N = 0
  · -- two children are left, and the count has reached one of them
    have hr2 : child₀.length - 2 = r := by omega
    refine .inl ⟨(child, x), ?_, (others child p).filter fun x => x ≠ intMin, ?_⟩
    · rw [kickPass, hrun fuel hfuel]
      simp only [Option.bind_eq_bind, Option.bind_some]
      rw [if_pos (by omega), hread]
      rfl
    · rw [hr2, ← hk.circle]
      exact hc.last
  · obtain ⟨hset, hk'⟩ := hk.kick hc
    have hmin : intMin = -2147483648 := rfl
    have hdown : int32 ((child₀.length : Int) - 1 - (r : Nat) - 1)
        = some ((child₀.length : Int) - 1 - ((r + 1 : Nat) : Int)) := by
      rw [int32_eq (by omega) (by omega)]
      congr 1
      omega
    refine .inr ⟨(child.set p intMin, (child₀.length : Int) - 1 - ((r + 1 : Nat) : Int), (p : Int)),
      N - 1, ?_, by omega, child.set p intMin, p + 1, r + 1, ?_, by omega, hk'⟩
    · rw [kickPass, hrun fuel hfuel]
      simp only [Option.bind_eq_bind, Option.bind_some]
      rw [if_neg (by omega), hset]
      simp only [Option.bind_some, hdown]
    · simp

/-- **What `Josephus` returns** among two children or more: the child that the count
    reaches when two are left. -/
theorem josephus_returns (htwo : 2 ≤ child₀.length) (hmark : ∀ x ∈ child₀, x ≠ intMin)
    {fuel : Nat} (hfuel : m * (child₀.length + 1) + child₀.length < fuel) :
    ∃ child x rest, (rounds m (child₀.length - 2) child₀).rotate (m - 1) = x :: rest
      ∧ josephus fuel child₀ child₀.length m = some (child, x) := by
  have hstart : Kicked child₀ m 0 child₀ 0 := by
    refine ⟨rfl, Nat.zero_le _, ?_⟩
    rw [live, List.rotate_zero, rounds, List.filter_eq_self.mpr]
    simpa using hmark
  obtain ⟨⟨child, x⟩, ⟨rest, hlast⟩, hrun⟩ :=
    loop_total (kickPass_kicked hn hm hpos hfuel) (child₀.length - 2)
      (child₀, (child₀.length : Int) - 1 - ((0 : Nat) : Int), ((0 : Nat) : Int) - 1)
      ⟨child₀, 0, 0, rfl, by omega, hstart⟩
  refine ⟨child, x, rest, hlast, ?_⟩
  have hmin : intMin = -2147483648 := rfl
  have hkick : int32 ((child₀.length : Int) - 1) = some ((child₀.length : Int) - 1) :=
    int32_eq (by omega) (by omega)
  rw [josephus, hkick]
  have hzero : (child₀.length : Int) - 1 - ((0 : Nat) : Int) = (child₀.length : Int) - 1 := by omega
  rw [hzero] at hrun
  exact hrun fuel (by omega)

end Run

/-- A single child: nothing is ever left to be taken away, and the loop goes on. -/
theorem josephus_single (fuel : Nat) (x : Int) (m : Int) : josephus fuel [x] 1 m = none := by
  have hpass : ∀ s : List Int × Int × Int, s.2.1 ≤ 0 →
      kickPass fuel 1 m s = none ∨ ∃ s', kickPass fuel 1 m s = some (.next s') ∧ s'.2.1 ≤ 0 := by
    rintro ⟨child, kickOut, curr⟩ hle
    replace hle : kickOut ≤ 0 := hle
    rw [kickPass]
    cases loop (countPass child 1 m) fuel (0, curr) with
    | none => exact .inl rfl
    | some curr =>
        simp only [Option.bind_eq_bind, Option.bind_some]
        rw [if_neg (by omega)]
        cases setAt child curr intMin with
        | none => exact .inl rfl
        | some child =>
            simp only [Option.bind_some]
            rw [int32]
            split
            · exact .inr ⟨_, rfl, show kickOut - 1 ≤ 0 by omega⟩
            · exact .inl rfl
  exact loop_never hpass fuel ([x], 0, -1) (le_refl 0)

/-! ## The result -/

/-- What `Josephus` is for: it returns the value of the child that is left after all
    rounds but the last. -/
def JosephusLaw (child : List Int) (m : Nat) : Prop :=
  ∃ s, rounds m (child.length - 1) child = [s]
    ∧ ∃ enough, ∀ fuel, enough < fuel →
      ∃ child', josephus fuel child child.length m = some (child', s)

/-- The two children left last, as places, have the same value. -/
def LastTwoEqual (child : List Int) (m : Nat) : Prop :=
  ∃ p q, rounds m (child.length - 2) (List.range child.length) = [p, q] ∧ child[p]? = child[q]?

theorem rotate_pair (a b : Int) (k : Nat) :
    [a, b].rotate k = [a, b] ∨ [a, b].rotate k = [b, a] := by
  rw [← List.rotate_mod]
  rcases Nat.mod_two_eq_zero_or_one k with h | h
  · exact .inl (by rw [List.length_cons, List.length_singleton, h]; rfl)
  · exact .inr (by rw [List.length_cons, List.length_singleton, h]; rfl)

/-- The values of the children left are the values at the places left. -/
theorem rounds_places (m k : Nat) (child : List Int) :
    (rounds m k child).map some = (rounds m k (List.range child.length)).map (child[·]?) := by
  have hplaces : (List.range child.length).map (child[·]?) = child.map some := by
    refine List.ext_getElem (by simp) ?_
    intro i hi hi'
    simp
  rw [← rounds_map, ← rounds_map, hplaces]

/-- Two children left: their values are equal if their places' are. -/
theorem lastTwoEqual_iff {child : List Int} {m : Nat} {a b : Int}
    (h : rounds m (child.length - 2) child = [a, b]) : LastTwoEqual child m ↔ a = b := by
  have hplaces := rounds_places m (child.length - 2) child
  rw [h] at hplaces
  constructor
  · rintro ⟨p, q, hpq, heq⟩
    rw [hpq] at hplaces
    simp only [List.map_cons, List.map_nil, List.cons.injEq, and_true] at hplaces
    rw [← hplaces.1, ← hplaces.2] at heq
    exact Option.some.inj heq
  · rintro rfl
    have hlen := congrArg List.length hplaces
    rw [List.length_map, List.length_map] at hlen
    obtain ⟨p, q, hpq⟩ := List.length_eq_two.mp hlen.symm
    rw [hpq] at hplaces
    simp only [List.map_cons, List.map_nil, List.cons.injEq, and_true] at hplaces
    exact ⟨p, q, hpq, hplaces.1.symm.trans hplaces.2⟩

/-- **Among two children or more** the survivor's value is returned exactly if the last
    two have the same. -/
theorem law_iff_of_two {child : List Int} {m : Nat} (hn : (child.length : Int) ≤ intMax)
    (hm : (m : Int) ≤ intMax) (hpos : 1 ≤ m) (htwo : 2 ≤ child.length)
    (hmark : ∀ x ∈ child, x ≠ intMin) : JosephusLaw child m ↔ LastTwoEqual child m := by
  have hlen := length_rounds m (child.length - 2) child
  obtain ⟨a, b, hab⟩ := List.length_eq_two.mp (hlen.trans (by omega))
  have hfinal : rounds m (child.length - 1) child = ([a, b].rotate (m - 1)).tail := by
    have hsucc : child.length - 1 = child.length - 2 + 1 := by omega
    rw [hsucc, rounds, hab, round]
  have hreturn : ∀ fuel, m * (child.length + 1) + child.length < fuel → ∃ child' x rest,
      [a, b].rotate (m - 1) = x :: rest
        ∧ josephus fuel child child.length m = some (child', x) := by
    intro fuel hfuel
    have hret := josephus_returns hn hm hpos htwo hmark hfuel
    rwa [hab] at hret
  rw [lastTwoEqual_iff hab]
  constructor
  · rintro ⟨s, hs, enough, hrun⟩
    obtain ⟨child', x, rest, hrot, hret⟩ :=
      hreturn (enough + (m * (child.length + 1) + child.length) + 1) (by omega)
    obtain ⟨child'', hlaw⟩ := hrun (enough + (m * (child.length + 1) + child.length) + 1) (by omega)
    rw [hlaw] at hret
    obtain ⟨-, rfl⟩ := Prod.mk.inj (Option.some.inj hret)
    rw [hfinal] at hs
    rcases rotate_pair a b (m - 1) with hpair | hpair
    all_goals
      rw [hpair] at hs hrot
      simp only [List.tail_cons, List.cons.injEq, and_true] at hs hrot
      omega
  · rintro rfl
    have hpair : [a, a].rotate (m - 1) = [a, a] := by
      rcases rotate_pair a a (m - 1) with hpair | hpair <;> exact hpair
    refine ⟨a, by rw [hfinal, hpair, List.tail_cons], m * (child.length + 1) + child.length, ?_⟩
    intro fuel hfuel
    obtain ⟨child', x, rest, hrot, hret⟩ := hreturn fuel hfuel
    rw [hpair] at hrot
    obtain ⟨rfl, -⟩ := List.cons.inj hrot
    exact ⟨child', hret⟩

/-- One child: the elimination is over, and the function does not return. -/
theorem not_law_single (x : Int) (m : Nat) : ¬ JosephusLaw [x] m := by
  rintro ⟨s, -, enough, hrun⟩
  obtain ⟨child', hret⟩ := hrun (enough + 1) (Nat.lt_succ_self _)
  replace hret : josephus (enough + 1) [x] 1 m = some (child', s) := hret
  rw [josephus_single] at hret
  exact absurd hret.symm (Option.some_ne_none _)

/-- **`Josephus` returns the survivor's value exactly if the two children left last
    have the same value**: it stops one removal too early, with the count at the child
    to be taken away.  A single child has no last two, and the loop never ends. -/
theorem josephus_law_iff {child : List Int} {m : Nat} (hne : child ≠ [])
    (hn : (child.length : Int) ≤ intMax) (hm : (m : Int) ≤ intMax) (hpos : 1 ≤ m)
    (hmark : ∀ x ∈ child, x ≠ intMin) : JosephusLaw child m ↔ LastTwoEqual child m := by
  have hlen := List.length_pos_iff.mpr hne
  by_cases htwo : 2 ≤ child.length
  · exact law_iff_of_two hn hm hpos htwo hmark
  · obtain ⟨x, rfl⟩ := List.length_eq_one_iff.mp (by omega : child.length = 1)
    refine ⟨fun h => absurd h (not_law_single x m), ?_⟩
    rintro ⟨p, q, hpq, -⟩
    have h2 := congrArg List.length hpq
    rw [length_rounds] at h2
    exact absurd h2 (by simp)

theorem josephus_law_three : JosephusLaw [7, 7, 5] 3 := by
  refine (josephus_law_iff (List.cons_ne_nil _ _) (by decide) (by decide) (by decide) ?_).mpr ?_
  · decide
  · exact ⟨0, 1, by decide, rfl⟩

/-- Two children and `m = 1`: the first one goes and the second one survives, but the
    first one is returned; and a single child is never returned. -/
theorem josephus_law_pair :
    rounds 1 1 [10, 20] = [20] ∧ (josephus 100 [10, 20] 2 1).map Prod.snd = some 10
    ∧ ¬ JosephusLaw [10, 20] 1 ∧ ¬ JosephusLaw [10] 1 := by
  have hpair : rounds 1 ([10, 20].length - 2) [10, 20] = [(10 : Int), 20] := by decide
  refine ⟨by decide, by decide, ?_, not_law_single 10 1⟩
  rw [law_iff_of_two (by decide) (by decide) (by decide) (by decide) (by decide),
    lastTwoEqual_iff hpair]
  decide

end Josephus
