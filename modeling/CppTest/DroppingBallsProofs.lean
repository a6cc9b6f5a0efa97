import CppTest.MachineProofs

/-! # Dropping balls (`src/algs/9787302356288/9787302356288.c`)

    Every node of a binary tree has a switch.  A ball flips the switch of each node it comes
    to and goes left if the switch is on after that, else right.

    * How many of the first `t` balls come to a node (`visits`): the left child gets every
      other ball, the first one included.  The switch is their parity.
    * The path of the next ball (`node`): along it, and nowhere else, the number of visits
      grows (`visits_succ`).
    * A ball that drops flips the switches of its path (`drop_run`), and the last one ends
      where the count of the balls alone leads (`node_eq_leafFrom`).
    * The loop over the balls counts in an `int` (`drop_law_iff`). -/

namespace DroppingBalls

open Machine

/-! ## The model -/

def sMaxD : Nat := 2 ^ 20

/-- One pass of the inner loop: `s_s` and `k`. -/
def dropPass (n : Int) : List Int × Nat → Option (Pass (List Int × Nat) (List Int × Nat))
  | (ss, k) => do
      let x ← getAt ss k
      let ss ← setAt ss k (if x = 0 then 1 else 0)
      let x ← getAt ss k
      let k := if x ≠ 0 then 2 * k else 2 * k + 1
      if n < k then some (.done (ss, k)) else some (.next (ss, k))

/-- `dropping_balls`; `s_s` is cleared at each call, and `k` is set by the first ball. -/
def droppingBalls (fuel : Nat) (D I : Int) : Option Int :=
  if ¬ (0 < D ∧ 0 < I) then some (-1)
  else do
    let shifted ← int32 (2 ^ D.toNat)
    let n := shifted - 1
    let (_, k) ← forTo I.toNat (fun st _ => loop (dropPass n) fuel (st.1, 1))
      (List.replicate sMaxD 0, 0)
    some (k / 2)

/-! ## Where the balls go -/

/-- How many of the first `t` balls come to the node. -/
def visits (t : Nat) (c : Nat) : Nat :=
  if c = 0 then 0
  else if c = 1 then t
  else if c % 2 = 0 then (visits t (c / 2) + 1) / 2
  else visits t (c / 2) / 2
termination_by c

theorem visits_root (t : Nat) : visits t 1 = t := by
  rw [visits, if_neg (by omega), if_pos rfl]

theorem visits_left (t : Nat) {c : Nat} (hc : 0 < c) :
    visits t (2 * c) = (visits t c + 1) / 2 := by
  rw [visits, if_neg (by omega), if_neg (by omega), if_pos (by omega),
    Nat.mul_div_cancel_left c (by omega)]

theorem visits_right (t : Nat) {c : Nat} (hc : 0 < c) :
    visits t (2 * c + 1) = visits t c / 2 := by
  have hhalf : (2 * c + 1) / 2 = c := by omega
  rw [visits, if_neg (by omega), if_neg (by omega), if_neg (by omega), hhalf]

/-- No ball, no visit. -/
theorem visits_zero : ∀ c, visits 0 c = 0 := by
  intro c
  induction c using Nat.strongRecOn with
  | ind c ih =>
      rw [visits]
      split_ifs with h₀ h₁ h₂
      · rfl
      · rfl
      · rw [ih (c / 2) (by omega)]
      · rw [ih (c / 2) (by omega)]

/-- The node of the ball after the first `t`, at each depth. -/
def node (t : Nat) : Nat → Nat
  | 0 => 1
  | d + 1 => if visits t (node t d) % 2 = 0 then 2 * node t d else 2 * node t d + 1

theorem node_bounds (t : Nat) : ∀ d, 2 ^ d ≤ node t d ∧ node t d < 2 ^ (d + 1) := by
  intro d
  induction d with
  | zero => exact ⟨Nat.le_refl 1, Nat.lt_succ_self 1⟩
  | succ d ih =>
      rw [node, Nat.pow_succ 2 (d + 1), Nat.pow_succ 2 d]
      rw [Nat.pow_succ] at ih
      split_ifs
      · omega
      · omega

theorem node_pos (t d : Nat) : 0 < node t d :=
  (Nat.two_pow_pos d).trans_le (node_bounds t d).1

theorem node_half (t d : Nat) : node t (d + 1) / 2 = node t d := by
  rw [node]
  split_ifs
  · omega
  · omega

/-- The next ball is counted at the nodes of its path and nowhere else; by induction on the
    depth. -/
theorem visits_succ (t : Nat) : ∀ d c, 2 ^ d ≤ c → c < 2 ^ (d + 1) →
    visits (t + 1) c = visits t c + if c = node t d then 1 else 0 := by
  intro d
  induction d with
  | zero =>
      intro c hlo hhi
      obtain rfl : c = 1 := by omega
      rw [visits_root, visits_root, node, if_pos rfl]
  | succ d ih =>
      intro c hlo hhi
      rw [Nat.pow_succ] at hlo hhi
      have hpos := Nat.two_pow_pos d
      have ihc := ih (c / 2) (by omega) (by omega)
      rw [node]
      -- a child is counted once more only if its parent is, on the side of the parent's parity
      rcases Nat.mod_two_eq_zero_or_one c with hc | hc
      · obtain ⟨p, rfl⟩ : ∃ p, c = 2 * p := ⟨c / 2, by omega⟩
        rw [Nat.mul_div_cancel_left p (by omega)] at ihc
        rw [visits_left _ (by omega), visits_left _ (by omega), ihc]
        by_cases hp : p = node t d
        · rw [if_pos hp, ← hp]
          split_ifs <;> omega
        · rw [if_neg hp]
          split_ifs <;> omega
      · obtain ⟨p, rfl⟩ : ∃ p, c = 2 * p + 1 := ⟨c / 2, by omega⟩
        have hhalf : (2 * p + 1) / 2 = p := by omega
        rw [hhalf] at ihc
        rw [visits_right _ (by omega), visits_right _ (by omega), ihc]
        by_cases hp : p = node t d
        · rw [if_pos hp, ← hp]
          split_ifs <;> omega
        · rw [if_neg hp]
          split_ifs <;> omega

/-! ## The closed form -/

/-- From the node `k`, where the ball is the `i`-th: odd ones go left. -/
def leafFrom : Nat → Nat → Nat → Nat
  | 0, k, _ => k
  | d + 1, k, i =>
      if i % 2 = 1 then leafFrom d (2 * k) ((i + 1) / 2) else leafFrom d (2 * k + 1) (i / 2)

/-- The leaf of the `I`-th ball. -/
def leaf (D I : Nat) : Nat := leafFrom (D - 1) 1 I

theorem node_eq_leafFrom (t : Nat) : ∀ d j,
    leafFrom d (node t j) (visits t (node t j) + 1) = node t (j + d) := by
  intro d
  induction d with
  | zero => exact fun j => rfl
  | succ d ih =>
      intro j
      have hpos := node_pos t j
      rw [leafFrom, show j + (d + 1) = (j + 1) + d by omega, ← ih (j + 1), node]
      -- the ball is the next one at its node: an even number before it makes it an odd one
      by_cases heven : visits t (node t j) % 2 = 0
      · rw [if_pos (by omega), if_pos heven, visits_left t hpos]
        congr 1
        omega
      · rw [if_neg (by omega), if_neg heven, visits_right t hpos]
        congr 1
        omega

/-! ## A ball drops -/

/-- The switches of the first `D` levels after `t` balls. -/
structure Switches (D t : Nat) (ss : List Int) : Prop where
  length : ss.length = sMaxD
  read : ∀ c < 2 ^ D, ss[c]? = some ((visits t c % 2 : Nat) : Int)

/-- The same while the next ball drops: it has passed the first `d` levels. -/
structure Dropping (D t d : Nat) (ss : List Int) : Prop where
  length : ss.length = sMaxD
  above : ∀ c < 2 ^ d, ss[c]? = some ((visits (t + 1) c % 2 : Nat) : Int)
  below : ∀ c, 2 ^ d ≤ c → c < 2 ^ D → ss[c]? = some ((visits t c % 2 : Nat) : Int)

theorem Switches.dropping {D t : Nat} {ss : List Int} (h : Switches D t ss) :
    Dropping D t 0 ss := by
  refine ⟨h.length, fun c hc => ?_, fun c _ hc => h.read c hc⟩
  obtain rfl : c = 0 := by omega
  have hzero : ∀ t, visits t 0 = 0 := fun t => by rw [visits, if_pos rfl]
  rw [h.read 0 (Nat.two_pow_pos D), hzero, hzero]

theorem Dropping.switches {D t : Nat} {ss : List Int} (h : Dropping D t D ss) :
    Switches D (t + 1) ss :=
  ⟨h.length, h.above⟩

/-- A level above the last one, and all of them, in the table of the switches. -/
theorem levels_le {D d : Nat} (hd : d < D) (hD : D ≤ 20) :
    2 ^ (d + 1) ≤ 2 ^ D ∧ 2 ^ D ≤ sMaxD :=
  ⟨Nat.pow_le_pow_right (by omega) hd, Nat.pow_le_pow_right (by omega) hD⟩

theorem Dropping.flip {D t d : Nat} {ss : List Int} (h : Dropping D t d ss) (hd : d < D)
    (hD : D ≤ 20) : Dropping D t (d + 1)
      (ss.set (node t d) ((visits (t + 1) (node t d) % 2 : Nat) : Int)) := by
  have hnode := node_bounds t d
  obtain ⟨hle, hroom⟩ := levels_le hd hD
  refine ⟨by rw [List.length_set, h.length], fun c hc => ?_, fun c hlo hhi => ?_⟩
  · by_cases hcn : node t d = c
    · rw [← hcn, List.getElem?_set_self (by rw [h.length]; omega)]
    · rw [List.getElem?_set_ne hcn]
      -- the other nodes of the level are not on the path
      by_cases hup : c < 2 ^ d
      · exact h.above c hup
      · rw [h.below c (by omega) (by omega), visits_succ t d c (by omega) hc,
          if_neg (Ne.symm hcn), Nat.add_zero]
  · rw [List.getElem?_set_ne (by omega)]
    exact h.below c (by omega) hhi

/-- One level: the ball flips the switch of its node and goes on by it. -/
theorem dropPass_eq {D t d : Nat} {ss : List Int} (h : Dropping D t d ss) (hd : d < D)
    (hD : D ≤ 20) (n : Int) : dropPass n (ss, node t d)
      = if n < node t (d + 1) then
          some (.done (ss.set (node t d) ((visits (t + 1) (node t d) % 2 : Nat) : Int),
            node t (d + 1)))
        else
          some (.next (ss.set (node t d) ((visits (t + 1) (node t d) % 2 : Nat) : Int),
            node t (d + 1))) := by
  have hnode := node_bounds t d
  obtain ⟨hle, hroom⟩ := levels_le hd hD
  have hlt : node t d < ss.length := by
    rw [h.length]
    omega
  have hcount := visits_succ t d (node t d) hnode.1 hnode.2
  rw [if_pos rfl] at hcount
  have hflip : (if ((visits t (node t d) % 2 : Nat) : Int) = 0 then (1 : Int) else 0)
      = ((visits (t + 1) (node t d) % 2 : Nat) : Int) := by
    split_ifs <;> omega
  have hnext : (if ((visits (t + 1) (node t d) % 2 : Nat) : Int) ≠ 0 then 2 * node t d
      else 2 * node t d + 1) = node t (d + 1) := by
    rw [node]
    split_ifs <;> omega
  simp only [dropPass, getAt_natCast, h.below _ hnode.1 (by omega), Option.bind_eq_bind,
    Option.bind_some, hflip, setAt_natCast ss _ hlt, List.getElem?_set_self hlt, hnext]

/-- **A ball drops**: the switches count it, and it ends behind the last level. -/
theorem drop_run {D t : Nat} {ss : List Int} (h : Switches D t ss) (hpos : 0 < D) (hD : D ≤ 20)
    {fuel : Nat} (hfuel : D ≤ fuel) :
    ∃ ss', loop (dropPass (2 ^ D - 1)) fuel (ss, 1) = some (ss', node t D)
      ∧ Switches D (t + 1) ss' := by
  have hloop := @loop_total _ _ (dropPass (2 ^ D - 1))
    (fun m st => ∃ d, d + m + 1 = D ∧ st.2 = node t d ∧ Dropping D t d st.1)
    (fun r => r.2 = node t D ∧ Switches D (t + 1) r.1) ?_ (D - 1) (ss, 1)
    ⟨0, by omega, rfl, h.dropping⟩
  · obtain ⟨⟨ss', k⟩, ⟨rfl, hss'⟩, hrun⟩ := hloop
    exact ⟨ss', hrun fuel (by omega), hss'⟩
  · rintro m ⟨ss, k⟩ ⟨d, hm, rfl, hss⟩
    have hnode := node_bounds t (d + 1)
    have hflip := hss.flip (by omega) hD
    rw [dropPass_eq hss (by omega) hD]
    -- the nodes behind level `D` are the first above `n`
    by_cases hlast : d + 1 = D
    · refine .inl ⟨_, if_pos ?_, by rw [hlast], ?_⟩
      · rw [hlast] at hnode ⊢
        have hcast : ((2 ^ D : Nat) : Int) ≤ node t D := Int.ofNat_le.mpr hnode.1
        push_cast at hcast
        omega
      · rw [hlast] at hflip
        exact hflip.switches
    · refine .inr ⟨_, m - 1, if_neg ?_, by omega, d + 1, by omega, rfl, hflip⟩
      have hle : 2 ^ (d + 1 + 1) ≤ 2 ^ D := Nat.pow_le_pow_right (by omega) (by omega)
      have hcast : (node t (d + 1) : Int) < ((2 ^ D : Nat) : Int) :=
        Int.ofNat_lt.mpr (hnode.2.trans_le hle)
      push_cast at hcast
      omega

/-! ## All balls -/

/-- At first every switch is off. -/
theorem switches_zero {D : Nat} (hD : D ≤ 20) : Switches D 0 (List.replicate sMaxD 0) := by
  have hroom : 2 ^ D ≤ sMaxD := Nat.pow_le_pow_right (by omega) hD
  refine ⟨List.length_replicate, fun c hc => ?_⟩
  rw [List.getElem?_replicate, if_pos (hc.trans_le hroom), visits_zero]
  rfl

/-- After `t` balls: the switches, and where the last one ended. -/
structure Dropped (D t : Nat) (st : List Int × Nat) : Prop where
  switches : Switches D t st.1
  last : 0 < t → st.2 = node (t - 1) D

theorem Dropped.next {D t fuel : Nat} {st : List Int × Nat} (h : Dropped D t st) (hpos : 0 < D)
    (hD : D ≤ 20) (hfuel : D ≤ fuel) :
    ∃ st', loop (dropPass (2 ^ D - 1)) fuel (st.1, 1) = some st' ∧ Dropped D (t + 1) st' := by
  obtain ⟨ss', hrun, hss'⟩ := drop_run h.switches hpos hD hfuel
  exact ⟨_, hrun, hss', fun _ => rfl⟩

/-- The simulation gives the leaf of the closed form. -/
def DropLaw (D I : Nat) : Prop :=
  ∀ fuel, D ≤ fuel → droppingBalls fuel D I = some (leaf D I : Int)

theorem droppingBalls_eq {D I fuel : Nat} (hpos : 0 < D) (hD : D ≤ 20) (hI : 0 < I) :
    droppingBalls fuel D I
      = (forTo I (fun st _ => loop (dropPass (2 ^ D - 1)) fuel (st.1, 1))
          (List.replicate sMaxD 0, 0)).map fun st => (st.2 / 2 : Int) := by
  have hshift : int32 (2 ^ D) = some (2 ^ D) := by
    have hle : (2 : Int) ^ D ≤ 2 ^ 20 := pow_le_pow_right₀ (by decide) hD
    have hge : (0 : Int) < 2 ^ D := pow_pos (by decide) D
    refine int32_eq ?_ ?_
    · rw [intMin]
      omega
    · rw [intMax]
      omega
  rw [droppingBalls, if_neg (by omega), Int.toNat_natCast, Int.toNat_natCast, hshift]
  simp only [Option.bind_eq_bind, Option.bind_some]
  cases forTo I (fun st _ => loop (dropPass (2 ^ D - 1)) fuel (st.1, 1))
      (List.replicate sMaxD 0, 0) with
  | none => rfl
  | some st => rfl

/-- **The simulation gives the closed form** exactly if the number of balls is below the
    largest `int`. -/
theorem drop_law_iff {D I : Nat} (hpos : 1 ≤ D) (hD : D ≤ 20) (hI : 1 ≤ I) :
    DropLaw D I ↔ (I : Int) < intMax := by
  constructor
  · intro h
    by_contra hmax
    have hrun := h D (Nat.le_refl D)
    rw [droppingBalls_eq hpos hD hI, forTo_overflows (not_lt.mp hmax)] at hrun
    exact nomatch hrun
  · intro hmax fuel hfuel
    have hzero : Dropped D 0 (List.replicate sMaxD 0, 0) :=
      ⟨switches_zero hD, fun h => absurd h (Nat.lt_irrefl 0)⟩
    obtain ⟨⟨ss, k⟩, hrun, hdone⟩ := @forTo_keeps _
      (fun st _ => loop (dropPass (2 ^ D - 1)) fuel (st.1, 1)) (Dropped D) _ _ hmax hzero
      fun t st _ hst => hst.next hpos hD hfuel
    obtain rfl : k = node (I - 1) D := hdone.last hI
    obtain ⟨d, rfl⟩ : ∃ d, D = d + 1 := ⟨D - 1, by omega⟩
    have hleaf : leafFrom d 1 I = node (I - 1) d := by
      have hfrom := node_eq_leafFrom (I - 1) d 0
      rw [node, visits_root, Nat.sub_add_cancel hI, Nat.zero_add] at hfrom
      exact hfrom
    rw [droppingBalls_eq hpos hD hI, hrun, leaf, Nat.add_sub_cancel, hleaf,
      ← node_half (I - 1) d]
    rfl

theorem drop_law_sixteen : DropLaw 16 12345 :=
  (drop_law_iff (by decide) (by decide) (by decide)).mpr (by decide)

/-- The leaf the test of the source expects there. -/
example : leaf 16 12345 = 36358 := by decide

/-- As many balls as the largest `int`. -/
theorem drop_law_overflows : ¬ DropLaw 1 2147483647 := by
  intro h
  have hrun := h 1 (Nat.le_refl 1)
  rw [droppingBalls_eq (by decide) (by decide) (by decide), forTo_overflows (by decide)] at hrun
  exact nomatch hrun

end DroppingBalls
