import CppTest.PaxosProposerProofs

/-! # The value of a proposal

    Every promise beyond the majority sorts `propose_ok_list` again and may replace
    `value_try`.  `Since` is the history the law is about: the value that was given to
    `paxos_echo` last, and the promises that came since then.

    * `Tracks` — the list holds these promises, in some order, and `value_try` is the echoed
      value as long as none of them carries a stored proposal;
    * `value_choice` — when flag 3 messages are made, then, they carry the stored proposal of
      the largest `t`, or the echoed value if there is none. -/

namespace Paxos

/-! ## The history of a round -/

/-- What was given to the last `paxos_echo`, and the promises since then. -/
structure Since where
  echo : Value
  promises : List Promise

def sinceStep (s : Since) : Event → Since
  | .echo str => ⟨str, []⟩
  | .reply _ msg =>
      if msg.flag = 2 then { s with promises := s.promises ++ [⟨msg.proposalid, msg.value⟩] } else s
  | .recv _ _ _ => s
  | .beforeWait _ => s

/-- Before the first echo `value_try` is empty. -/
def since (es : List Event) : Since := es.foldl sinceStep ⟨[], []⟩

/-- The node after a run from `paxos_init`. -/
def ctxAfter (nodeId : Nat) (peers : List Nat) (es : List Event) : Ctx :=
  (nodeRun (paxosInit nodeId peers, []) es).1

/-- The event calls `paxos_propose`. -/
def Proposes (ctx : Ctx) : Event → Prop
  | .reply _ msg => msg.flag = 2 ∧ ctx.nNodes / 2 < ctx.nProposeOk + 1
  | _ => False

/-- The value of a promise with the largest `t`, or the echoed one if that `t` is 0. -/
def ValueChoice (s : Since) (v : Value) : Prop :=
  ∃ p ∈ s.promises, (∀ q ∈ s.promises, q.t ≤ p.t) ∧ v = if 0 < p.t then p.value else s.echo

/-! ## What a proposer knows of its round -/

structure Tracks (ctx : Ctx) (s : Since) : Prop where
  perm : ctx.proposeOkList.Perm s.promises
  echoed : (∀ p ∈ s.promises, p.t = 0) → ctx.valueTry.bytes = s.echo

theorem tracks_init (nodeId : Nat) (peers : List Nat) : Tracks (paxosInit nodeId peers) ⟨[], []⟩ :=
  ⟨List.Perm.refl _, fun _ => rfl⟩

theorem adopted_zero (s : Sds) {p : Promise} (ht : ¬ 0 < p.t) : adopted s (some p) = s := if_neg ht

section Steps
variable {ctx : Ctx} {s : Since} (h : Tracks ctx s)
include h

/-- **The promise that is past the majority.** -/
theorem Tracks.chooses {src : Nat} {msg : Msg} (hflag : msg.flag = 2)
    (hquorum : ctx.nNodes / 2 < ctx.nProposeOk + 1) :
    ValueChoice (sinceStep s (.reply src msg)) (countPromise ctx src msg).valueTry.bytes := by
  have hspec := countPromise_spec ctx src msg
  have hmem : ∀ p, p ∈ (countPromise ctx src msg).proposeOkList
      ↔ p ∈ (sinceStep s (.reply src msg)).promises := by
    intro p
    rw [sinceStep, if_pos hflag]
    exact (hspec.perm.trans (h.perm.append_right _)).mem_iff
  have hnew : (⟨msg.proposalid, msg.value⟩ : Promise) ∈ (countPromise ctx src msg).proposeOkList :=
    hspec.perm.mem_iff.mpr (List.mem_append_right _ (List.mem_singleton.mpr rfl))
  rw [(hspec.quorum hquorum).1]
  cases hbest : best (countPromise ctx src msg).proposeOkList with
  | none =>
      -- the list is not empty
      rw [← head_sortByT, List.head?_eq_none_iff] at hbest
      exact absurd ((sortByT_perm _).mem_iff.mpr hnew) (hbest ▸ List.not_mem_nil)
  | some p =>
      obtain ⟨hp, hmax⟩ := best_mem hbest
      refine ⟨p, (hmem p).mp hp, fun q hq => hmax q ((hmem q).mpr hq), ?_⟩
      by_cases ht : 0 < p.t
      · rw [adopted_bytes ctx.valueTry ht, if_pos ht]
      · -- no promise carries a proposal, so none has before
        rw [adopted_zero ctx.valueTry ht, if_neg ht]
        have hzero : ∀ q ∈ s.promises, q.t = 0 := by
          intro q hq
          have := hmax q (hspec.perm.mem_iff.mpr
            (List.mem_append_left _ (h.perm.mem_iff.mpr hq)))
          omega
        rw [h.echoed hzero, sinceStep, if_pos hflag]

theorem Tracks.promise {src : Nat} {msg : Msg} (hflag : msg.flag = 2) :
    Tracks (countPromise ctx src msg) (sinceStep s (.reply src msg)) := by
  have hspec := countPromise_spec ctx src msg
  constructor
  · rw [sinceStep, if_pos hflag]
    exact hspec.perm.trans (h.perm.append_right _)
  · intro hzero
    rcases Nat.lt_or_ge (ctx.nNodes / 2) (ctx.nProposeOk + 1) with hquorum | hearly
    · have hchoice : ValueChoice (sinceStep s (.reply src msg)) _ := h.chooses hflag hquorum
      obtain ⟨p, hp, _, hvalue⟩ := hchoice
      rw [hvalue, if_neg (by rw [hzero p hp]; exact Nat.lt_irrefl 0)]
    · rw [(hspec.early hearly).1, sinceStep, if_pos hflag]
      rw [sinceStep, if_pos hflag] at hzero
      exact h.echoed fun p hp => hzero p (List.mem_append_left _ hp)

/-- **One event.** -/
theorem Tracks.step (e : Event) : Tracks (nodeStep ctx e).ctx (sinceStep s e) := by
  cases e with
  | echo str => exact ⟨List.Perm.refl _, fun _ => bytes_sdscpylen ctx.valueTry str⟩
  | recv src msg io =>
      obtain ⟨_, _, _, _, hframe⟩ := fdIo_frame ctx src msg io
      show Tracks (epollHandlePaxosFdIo ctx src msg io).1 s
      rw [hframe]
      exact ⟨h.perm, h.echoed⟩
  | reply src msg =>
      show Tracks (epollHandlePaxosNodeFdIo ctx src msg).1 _
      rcases nodeFdIo_cases ctx src msg with ⟨-, hflag, hr⟩ | ⟨-, hflag, hr⟩ | ⟨-, hflag, hr⟩
      · obtain ⟨_, hframe⟩ := (countSuccess_spec ctx).frame
        rw [hr, hframe, sinceStep, if_neg hflag]
        exact ⟨h.perm, h.echoed⟩
      · rw [hr]
        exact h.promise hflag
      · rw [hr, sinceStep, if_neg hflag]
        exact h
  | beforeWait env => exact ⟨h.perm, h.echoed⟩

/-- **Every run.** -/
theorem Tracks.run (es : List Event) (sent : List Packet) :
    Tracks (nodeRun (ctx, sent) es).1 (es.foldl sinceStep s) := by
  induction es generalizing ctx s sent with
  | nil => exact h
  | cons e es ih => exact ih (h.step e) _

end Steps

/-- Only `paxos_propose` makes flag 3 messages. -/
theorem flag_three_proposed {ctx : Ctx} {e : Event} (hnot : ¬ Proposes ctx e) :
    ∀ q ∈ queue (nodeStep ctx e).ctx, q.msg.flag = 3 → q ∈ queue ctx := by
  intro q hq hthree
  cases e with
  | echo str => exact (queue_paxosEcho q hq).resolve_right (absurd hthree)
  | recv src msg io =>
      obtain ⟨_, _, _, _, hframe⟩ := fdIo_frame ctx src msg io
      change q ∈ queue (epollHandlePaxosFdIo ctx src msg io).1 at hq
      rw [hframe] at hq
      exact hq
  | reply src msg =>
      change q ∈ queue (epollHandlePaxosNodeFdIo ctx src msg).1 at hq
      rcases nodeFdIo_cases ctx src msg with ⟨-, -, hr⟩ | ⟨-, hflag, hr⟩ | ⟨-, -, hr⟩
      · rw [hr] at hq
        exact (queue_countSuccess q hq).resolve_right (absurd hthree)
      · rw [hr] at hq
        have hearly : ctx.nProposeOk + 1 ≤ ctx.nNodes / 2 :=
          Nat.le_of_not_lt fun hlt => hnot ⟨hflag, hlt⟩
        exact ((countPromise_spec ctx src msg).early hearly).2 q hq
      · rw [hr] at hq
        exact hq
  | beforeWait env => exact mem_epollBeforeWait.1 q hq

/-- **Value choice.**  In every run of a node: an event that calls `paxos_propose` leaves
    `value_try` as the history of the round demands, and the flag 3 messages that are new in
    the queues carry it; no other event makes flag 3 messages. -/
theorem value_choice (nodeId : Nat) (peers : List Nat) (es : List Event) (e : Event) :
    let ctx := ctxAfter nodeId peers es
    let ctx' := ctxAfter nodeId peers (es ++ [e])
    (Proposes ctx e → ValueChoice (since (es ++ [e])) ctx'.valueTry.bytes
      ∧ ∀ q ∈ queue ctx', q ∈ queue ctx ∨ (q.msg.flag = 3 ∧ q.msg.value = ctx'.valueTry.bytes))
    ∧ (¬ Proposes ctx e → ∀ q ∈ queue ctx', q.msg.flag = 3 → q ∈ queue ctx) := by
  intro ctx ctx'
  have hlast : ctx' = (nodeStep ctx e).ctx := by
    show ctxAfter nodeId peers (es ++ [e]) = _
    rw [ctxAfter, nodeRun, List.foldl_append]
    rfl
  have htracks : Tracks ctx (since es) := (tracks_init nodeId peers).run es []
  rw [hlast]
  refine ⟨fun hpropose => ?_, flag_three_proposed⟩
  cases e with
  | reply src msg =>
      obtain ⟨hflag, hquorum⟩ := hpropose
      have hstep : (nodeStep ctx (.reply src msg)).ctx = countPromise ctx src msg := by
        rcases nodeFdIo_cases ctx src msg with ⟨-, hne, -⟩ | ⟨-, -, hr⟩ | ⟨-, hne, -⟩
        · exact absurd hflag hne
        · exact congrArg Prod.fst hr
        · exact absurd hflag hne
      rw [hstep, since, List.foldl_append]
      refine ⟨htracks.chooses hflag hquorum, fun q hq => ?_⟩
      rcases ((countPromise_spec ctx src msg).quorum hquorum).2 q hq with hold | ⟨hmsg, -, -⟩
      · exact Or.inl hold
      · exact Or.inr ⟨by rw [hmsg]; rfl, by rw [hmsg]; rfl⟩
  | echo str => exact hpropose.elim
  | recv src msg io => exact hpropose.elim
  | beforeWait env => exact hpropose.elim

end Paxos
