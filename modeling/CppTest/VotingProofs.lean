import Mathlib.Data.Finset.Card
import Mathlib.Data.Finset.Union
import Mathlib.Tactic.Linarith

/-! # Voting by majorities, in numbered ballots

    The consensus argument of Paxos with no messages in it.  Acceptors vote for
    values in ballots; each acceptor has a ballot below which it casts no further
    vote; a value is proposed in a ballot before it is voted for.

    * `Majority` — more than half of the acceptors; two majorities meet;
    * `Voting` — who voted for what, up to where each acceptor is bound, and what was
      proposed;
    * `SafeAt b v` — below `b` no other value than `v` is chosen or can still be;
    * `Consistent` — one value per ballot, every vote for a proposed value, every
      proposed value safe.  `Consistent.agree`: then at most one value is chosen;
    * `Grows` — how the state may change, and `SafeAt.mono`: what is safe stays safe;
    * `Reports`, `safeAt_of_reports` — the proposer's rule: the value reported with the
      highest ballot by a majority is safe.

    Nothing here names a program of the repository. -/

namespace Voting

variable {α V : Type}

/-! ## Majorities -/

/-- More than half of the members of `U`. -/
def Majority (U Q : Finset α) : Prop := Q ⊆ U ∧ U.card / 2 < Q.card

/-- **Two majorities meet.** -/
theorem Majority.meet {U Q R : Finset α} (hQ : Majority U Q) (hR : Majority U R) :
    ∃ a, a ∈ Q ∧ a ∈ R := by
  classical
  by_contra hno
  push Not at hno
  have hdisj : Disjoint Q R := Finset.disjoint_left.mpr hno
  have hle : (Q ∪ R).card ≤ U.card := Finset.card_le_card (Finset.union_subset hQ.1 hR.1)
  rw [Finset.card_union_of_disjoint hdisj] at hle
  have h1 := hQ.2
  have h2 := hR.2
  omega

/-! ## Votes -/

/-- The state of a vote: who voted for what in which ballot, the ballot below which
    an acceptor votes no more, and what was proposed in which ballot. -/
structure Votes (α V : Type) where
  vote : α → Nat → V → Prop
  bound : α → Nat
  proposed : Nat → V → Prop

/-- A majority voted for the value in the ballot. -/
def Chosen (U : Finset α) (S : Votes α V) (b : Nat) (v : V) : Prop :=
  ∃ Q, Majority U Q ∧ ∀ a ∈ Q, S.vote a b v

/-- Below the ballot `b` nothing but `v` is chosen or can still be: in each ballot
    `c` below, every member of some majority voted for `v`, or did not vote and
    never will. -/
def SafeAt (U : Finset α) (S : Votes α V) (b : Nat) (v : V) : Prop :=
  ∀ c, c < b → ∃ Q, Majority U Q ∧
    ∀ a ∈ Q, S.vote a c v ∨ (c < S.bound a ∧ ∀ w, ¬ S.vote a c w)

/-- What a run of the protocol keeps true. -/
structure Consistent (U : Finset α) (S : Votes α V) : Prop where
  one : ∀ b v w, S.proposed b v → S.proposed b w → v = w
  voted : ∀ a b v, S.vote a b v → S.proposed b v
  pos : ∀ a b v, S.vote a b v → 0 < b
  safe : ∀ b v, S.proposed b v → SafeAt U S b v

section Agreement
variable {U : Finset α} {S : Votes α V}

theorem Chosen.proposed (hS : Consistent U S) {b : Nat} {v : V} (h : Chosen U S b v) :
    S.proposed b v := by
  obtain ⟨Q, hQ, hvote⟩ := h
  obtain ⟨a, ha, -⟩ := hQ.meet hQ
  exact hS.voted a b v (hvote a ha)

theorem Consistent.vote_unique (hS : Consistent U S) {a a' : α} {b : Nat} {v w : V}
    (hv : S.vote a b v) (hw : S.vote a' b w) : v = w :=
  hS.one b v w (hS.voted a b v hv) (hS.voted a' b w hw)

/-- A value that is safe at `b` is the only one that can be chosen below. -/
theorem SafeAt.chosen_eq (hS : Consistent U S) {b c : Nat} {v w : V} (hsafe : SafeAt U S b v)
    (hw : Chosen U S c w) (hc : c < b) : w = v := by
  obtain ⟨Q, hQ, hQv⟩ := hsafe c hc
  obtain ⟨R, hR, hRw⟩ := hw
  obtain ⟨a, haQ, haR⟩ := hQ.meet hR
  rcases hQv a haQ with hvote | ⟨-, hnone⟩
  · exact hS.vote_unique (hRw a haR) hvote
  · exact absurd (hRw a haR) (hnone w)

/-- **Agreement**: at most one value is chosen. -/
theorem Consistent.agree (hS : Consistent U S) {b c : Nat} {v w : V} (hv : Chosen U S b v)
    (hw : Chosen U S c w) : v = w := by
  rcases Nat.lt_trichotomy b c with hlt | rfl | hgt
  · exact (hS.safe c w (hw.proposed hS)).chosen_eq hS hv hlt
  · exact hS.one b v w (hv.proposed hS) (hw.proposed hS)
  · exact ((hS.safe b v (hv.proposed hS)).chosen_eq hS hw hgt).symm

end Agreement

/-! ## Growth -/

/-- The state grows: votes and proposals are kept, an acceptor's new votes are not
    below its bound, and the bound only rises. -/
structure Grows (S S' : Votes α V) : Prop where
  keep : ∀ a b v, S.vote a b v → S'.vote a b v
  new : ∀ a b v, S'.vote a b v → S.vote a b v ∨ S.bound a ≤ b
  rise : ∀ a, S.bound a ≤ S'.bound a
  offer : ∀ b v, S.proposed b v → S'.proposed b v

/-- What is safe stays safe. -/
theorem SafeAt.mono {U : Finset α} {S S' : Votes α V} (h : Grows S S') {b : Nat} {v : V}
    (hsafe : SafeAt U S b v) : SafeAt U S' b v := by
  intro c hc
  obtain ⟨Q, hQ, hQv⟩ := hsafe c hc
  refine ⟨Q, hQ, ?_⟩
  intro a ha
  rcases hQv a ha with hvote | ⟨hbound, hnone⟩
  · exact Or.inl (h.keep a c v hvote)
  · refine Or.inr ⟨lt_of_lt_of_le hbound (h.rise a), ?_⟩
    intro w hw
    rcases h.new a c w hw with hold | hle
    · exact hnone w hold
    · omega

theorem Chosen.mono {U : Finset α} {S S' : Votes α V} (h : Grows S S') {b : Nat} {v : V}
    (hchosen : Chosen U S b v) : Chosen U S' b v := by
  obtain ⟨Q, hQ, hvote⟩ := hchosen
  exact ⟨Q, hQ, fun a ha => h.keep a b v (hvote a ha)⟩

/-! ## The proposer's rule -/

/-- The acceptor `a` is bound to `b`, and `t` and `v` tell of its votes below `b`: there
    is none above `t`, and, unless `t` is zero, `v` was proposed in some ballot from
    `t` on. -/
structure Reports (S : Votes α V) (a : α) (b t : Nat) (v : V) : Prop where
  bound : b ≤ S.bound a
  last : ∀ c w, S.vote a c w → c ≤ t ∨ b ≤ c
  value : 0 < t → ∃ b', t ≤ b' ∧ S.proposed b' v

/-- A report stays true: new votes are not below the bound. -/
theorem Reports.mono {S S' : Votes α V} (h : Grows S S') {a : α} {b t : Nat} {v : V}
    (hrep : Reports S a b t v) : Reports S' a b t v := by
  refine ⟨hrep.bound.trans (h.rise a), ?_, ?_⟩
  · intro c w hw
    rcases h.new a c w hw with hold | hle
    · exact hrep.last c w hold
    · exact Or.inr (hrep.bound.trans hle)
  · intro ht
    obtain ⟨b', hle, hprop⟩ := hrep.value ht
    exact ⟨b', hle, h.offer b' v hprop⟩

/-- **The proposer's rule**: a majority reports to the ballot `b`, and no report goes
    beyond `s`.  Then `v` is safe at `b` if `s` is zero, or if `v` was proposed in some
    ballot from `s` on. -/
theorem safeAt_of_reports {U Q : Finset α} {S : Votes α V} (hS : Consistent U S)
    (hQ : Majority U Q) {b s : Nat} {v : V}
    (hrep : ∀ a ∈ Q, ∃ t w, t ≤ s ∧ Reports S a b t w)
    (hv : s = 0 ∨ ∃ b', s ≤ b' ∧ S.proposed b' v) : SafeAt U S b v := by
  have hbound : ∀ a ∈ Q, b ≤ S.bound a := by
    intro a ha
    obtain ⟨_, _, -, hr⟩ := hrep a ha
    exact hr.bound
  have hnone : ∀ a ∈ Q, ∀ c w, S.vote a c w → c ≤ s ∨ b ≤ c := by
    intro a ha c w hw
    obtain ⟨_, _, hts, hr⟩ := hrep a ha
    exact (hr.last c w hw).imp_left fun hct => hct.trans hts
  intro c hc
  -- in a ballot where no member of the majority voted, nothing can be chosen
  have hsilent : (∀ a ∈ Q, ∀ w, ¬ S.vote a c w) → ∃ Q, Majority U Q ∧
      ∀ a ∈ Q, S.vote a c v ∨ (c < S.bound a ∧ ∀ w, ¬ S.vote a c w) := by
    intro h
    exact ⟨Q, hQ, fun a ha => Or.inr ⟨lt_of_lt_of_le hc (hbound a ha), h a ha⟩⟩
  rcases Nat.lt_or_ge s c with hsc | hcs
  · refine hsilent fun a ha w hw => ?_
    rcases hnone a ha c w hw with h | h <;> omega
  · rcases hv with rfl | ⟨b', hsb, hprop⟩
    · refine hsilent fun a ha w hw => ?_
      have := hS.pos a c w hw
      omega
    · rcases Nat.lt_or_ge c b' with hcb | hbc
      · exact hS.safe b' v hprop c hcb
      · -- c = s = b': who voted there voted for v
        obtain rfl : c = b' := by omega
        refine ⟨Q, hQ, fun a ha => ?_⟩
        by_cases hvote : ∃ w, S.vote a c w
        · obtain ⟨w, hw⟩ := hvote
          rw [hS.one c v w hprop (hS.voted a c w hw)]
          exact Or.inl hw
        · exact Or.inr ⟨lt_of_lt_of_le hc (hbound a ha), fun w hw => hvote ⟨w, hw⟩⟩

/-- A value that is chosen may stand in for one that a report tells of. -/
theorem Chosen.reportable {U : Finset α} {S : Votes α V} (hS : Consistent U S) {b t : Nat}
    {v w : V} (hchosen : Chosen U S b v) (hw : ∃ b', t ≤ b' ∧ S.proposed b' w) :
    ∃ b', t ≤ b' ∧ S.proposed b' v := by
  obtain ⟨b', hle, hprop⟩ := hw
  rcases Nat.lt_or_ge b b' with hlt | hge
  · -- a later proposal than the chosen one is for the same value
    rw [(hS.safe b' w hprop).chosen_eq hS hchosen hlt]
    exact ⟨b', hle, hprop⟩
  · exact ⟨b, hle.trans hge, hchosen.proposed hS⟩

end Voting
