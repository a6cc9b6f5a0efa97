import CppTest.PaxosProofs

/-! # The acceptor keeps its promises

    What `epoll_handle_paxos_fd_io` can do to a node (`fdIo_cases`), and what follows
    for the acceptor over every sequence of datagrams and of the node's own prepare
    phases (`acceptor_promise_safety`): the promised ballots rise, and no ballot below
    a promised one is accepted.  A prepare phase forgets the stored proposal, but not
    the promise. -/

namespace Paxos

/-! ## One datagram -/

/-- A reply is sent, queued or given up; nothing but the queue changes. -/
theorem sendReply_cases (ctx : Ctx) (src ballot flag : Nat) (io : SendTo) :
    sendReply ctx src ballot flag io = (ctx, [⟨ctx.nodeId, src, replyMsg ctx flag, ballot⟩]) ∨
    sendReply ctx src ballot flag io = ({ ctx with oList := ctx.oList ++
      [⟨src, replyMsg ctx flag, ctx.valueStore.gen, ballot⟩] }, []) ∨
    sendReply ctx src ballot flag io = (ctx, []) := by
  cases io with
  | sent => exact Or.inl rfl
  | again => exact Or.inr (Or.inl rfl)
  | failed => exact Or.inr (Or.inr rfl)

/-- The acceptor's part of the node, which `sendReply` does not touch. -/
theorem sendReply_tMax (ctx : Ctx) (src ballot flag : Nat) (io : SendTo) :
    (sendReply ctx src ballot flag io).1.tMax = ctx.tMax ∧
      (sendReply ctx src ballot flag io).1.tStore = ctx.tStore := by
  rcases sendReply_cases ctx src ballot flag io with h | h | h <;> rw [h] <;> exact ⟨rfl, rfl⟩

/-- **What a datagram does**: store a chosen value, promise, accept, or nothing. -/
theorem fdIo_cases (ctx : Ctx) (src : Nat) (msg : Msg) (io : SendTo) :
    (msg.flag = 5 ∧ epollHandlePaxosFdIo ctx src msg io
      = ({ ctx with valueStore := sdscpylen ctx.valueStore msg.value }, [], none)) ∨
    (ctx.tMax < msg.proposalid ∧ msg.flag = 1 ∧
      ∃ c out, sendReply { ctx with tMax := msg.proposalid } src msg.proposalid 2 io = (c, out) ∧
        epollHandlePaxosFdIo ctx src msg io = (c, out, some (.promise src msg.proposalid))) ∨
    (msg.proposalid = ctx.tMax ∧ msg.flag = 3 ∧
      ∃ c out, sendReply { ctx with
          tStore := msg.proposalid
          valueStore := sdscpylen ctx.valueStore msg.value } src msg.proposalid 4 io = (c, out) ∧
        epollHandlePaxosFdIo ctx src msg io
          = (c, out, some (.accept src msg.proposalid msg.value))) ∨
    epollHandlePaxosFdIo ctx src msg io = (ctx, [], none) := by
  unfold epollHandlePaxosFdIo
  by_cases h5 : msg.flag = 5
  · rw [if_pos h5]
    exact Or.inl ⟨h5, rfl⟩
  · rw [if_neg h5]
    by_cases h1 : msg.proposalid > ctx.tMax ∧ msg.flag = 1
    · rw [if_pos h1]
      exact Or.inr (Or.inl ⟨h1.1, h1.2, _, _, rfl, rfl⟩)
    · rw [if_neg h1]
      by_cases h3 : msg.proposalid = ctx.tMax ∧ msg.flag = 3
      · rw [if_pos h3]
        exact Or.inr (Or.inr (Or.inl ⟨h3.1, h3.2, _, _, rfl, rfl⟩))
      · rw [if_neg h3]
        exact Or.inr (Or.inr (Or.inr rfl))

/-! ## Runs of an acceptor -/

/-- What can happen to an acceptor: a datagram at the listening socket, or a prepare
    phase of the node itself. -/
inductive AcceptorEvent where
  | recv (src : Nat) (msg : Msg) (io : SendTo)
  | prepare
  deriving Repr, DecidableEq

/-- The node and what its acceptor has done so far, oldest first. -/
def acceptorStep (st : Ctx × List Act) : AcceptorEvent → Ctx × List Act
  | .recv src msg io =>
      let (ctx, _, act) := epollHandlePaxosFdIo st.1 src msg io
      (ctx, st.2 ++ act.toList)
  | .prepare => (paxosPrepare st.1, st.2)

def acceptorRun (st : Ctx × List Act) (es : List AcceptorEvent) : Ctx × List Act :=
  es.foldl acceptorStep st

def Act.ballot : Act → Nat
  | .promise _ t => t
  | .accept _ t _ => t

/-- What an earlier act of the acceptor demands of a later one: a larger promise, and
    no acceptance below a promise. -/
def Respects : Act → Act → Prop
  | .promise _ t, .promise _ u => t < u
  | .promise _ t, .accept _ u _ => t ≤ u
  | .accept _ _ _, _ => True

/-- The acceptor's invariant. -/
structure AcceptorInv (st : Ctx × List Act) : Prop where
  store_le : st.1.tStore ≤ st.1.tMax
  acts_le : ∀ a ∈ st.2, a.ballot ≤ st.1.tMax
  respects : st.2.Pairwise Respects

theorem respects_promise {a : Act} {src t : Nat} (h : a.ballot < t) :
    Respects a (.promise src t) := by
  cases a with
  | promise s u => exact h
  | accept s u v => trivial

theorem respects_accept {a : Act} {src t : Nat} {v : Value} (h : a.ballot ≤ t) :
    Respects a (.accept src t v) := by
  cases a with
  | promise s u => exact h
  | accept s u w => trivial

/-- The acts after one more. -/
theorem AcceptorInv.snoc {acts : List Act} {a : Act} (hacts : acts.Pairwise Respects)
    (ha : ∀ b ∈ acts, Respects b a) : (acts ++ [a]).Pairwise Respects := by
  rw [List.pairwise_append]
  refine ⟨hacts, List.pairwise_singleton _ _, ?_⟩
  intro b hb c hc
  rw [List.mem_singleton.mp hc]
  exact ha b hb

/-- **One event** raises `t_max` or leaves it, and keeps the invariant. -/
theorem AcceptorInv.step {st : Ctx × List Act} (h : AcceptorInv st) (e : AcceptorEvent) :
    st.1.tMax ≤ (acceptorStep st e).1.tMax ∧ AcceptorInv (acceptorStep st e) := by
  obtain ⟨ctx, acts⟩ := st
  obtain ⟨hstore, hle, hres⟩ := h
  cases e with
  | prepare => exact ⟨Nat.le_refl _, Nat.zero_le _, hle, hres⟩
  | recv src msg io =>
      rcases fdIo_cases ctx src msg io with ⟨-, hr⟩ | ⟨hgt, -, c, out, hsend, hr⟩ |
        ⟨heq, -, c, out, hsend, hr⟩ | hr
      · simp only [acceptorStep, hr, Option.toList_none, List.append_nil]
        exact ⟨Nat.le_refl _, hstore, hle, hres⟩
      · -- a promise: larger than everything before
        obtain ⟨hmax, hst⟩ :=
          sendReply_tMax { ctx with tMax := msg.proposalid } src msg.proposalid 2 io
        rw [hsend] at hmax hst
        simp only [acceptorStep, hr, Option.toList_some]
        have hmax' : c.tMax = msg.proposalid := hmax
        have hst' : c.tStore = ctx.tStore := hst
        refine ⟨?_, ?_, ?_, ?_⟩
        · rw [hmax']
          exact hgt.le
        · show c.tStore ≤ c.tMax
          rw [hmax', hst']
          exact hstore.trans hgt.le
        · intro a ha
          show a.ballot ≤ c.tMax
          rw [hmax']
          cases List.mem_append.mp ha with
          | inl hold => exact (hle a hold).trans hgt.le
          | inr hnew => rw [List.mem_singleton.mp hnew]; exact Nat.le_refl _
        · exact AcceptorInv.snoc hres fun a ha => respects_promise (lt_of_le_of_lt (hle a ha) hgt)
      · -- an acceptance: of the ballot promised last
        obtain ⟨hmax, hst⟩ := sendReply_tMax { ctx with
          tStore := msg.proposalid
          valueStore := sdscpylen ctx.valueStore msg.value } src msg.proposalid 4 io
        rw [hsend] at hmax hst
        simp only [acceptorStep, hr, Option.toList_some]
        have hmax' : c.tMax = ctx.tMax := hmax
        have hst' : c.tStore = msg.proposalid := hst
        refine ⟨hmax'.ge, ?_, ?_, ?_⟩
        · show c.tStore ≤ c.tMax
          rw [hmax', hst', heq]
        · intro a ha
          show a.ballot ≤ c.tMax
          rw [hmax']
          cases List.mem_append.mp ha with
          | inl hold => exact hle a hold
          | inr hnew => rw [List.mem_singleton.mp hnew]; exact heq.le
        · refine AcceptorInv.snoc hres fun a ha => respects_accept ?_
          rw [heq]
          exact hle a ha
      · simp only [acceptorStep, hr, Option.toList_none, List.append_nil]
        exact ⟨Nat.le_refl _, hstore, hle, hres⟩

theorem AcceptorInv.run (es : List AcceptorEvent) : ∀ {st : Ctx × List Act}, AcceptorInv st →
    st.1.tMax ≤ (acceptorRun st es).1.tMax ∧ AcceptorInv (acceptorRun st es) := by
  induction es with
  | nil => intro st h; exact ⟨Nat.le_refl _, h⟩
  | cons e es ih =>
      intro st h
      obtain ⟨hle, hinv⟩ := h.step e
      obtain ⟨hle', hinv'⟩ := ih hinv
      exact ⟨hle.trans hle', hinv'⟩

/-- **Promise safety of the acceptor.**  After any events `es`, and any further events
    `es'`: `t_max` has not decreased, `t_store` is at most `t_max`, every promise is
    for a larger ballot than every earlier one, and no ballot below a promised one
    has been accepted after the promise. -/
theorem acceptor_promise_safety (nodeId : Nat) (peers : List Nat) (es es' : List AcceptorEvent) :
    (acceptorRun (paxosInit nodeId peers, []) es).1.tMax
      ≤ (acceptorRun (paxosInit nodeId peers, []) (es ++ es')).1.tMax ∧
    (acceptorRun (paxosInit nodeId peers, []) es).1.tStore
      ≤ (acceptorRun (paxosInit nodeId peers, []) es).1.tMax ∧
    (acceptorRun (paxosInit nodeId peers, []) es).2.Pairwise Respects := by
  have hinit : AcceptorInv (paxosInit nodeId peers, []) :=
    ⟨Nat.le_refl _, (fun _ ha => nomatch ha), List.Pairwise.nil⟩
  obtain ⟨-, hinv⟩ := hinit.run es
  obtain ⟨hle, -⟩ := hinv.run es'
  refine ⟨?_, hinv.store_le, hinv.respects⟩
  have happ : acceptorRun (paxosInit nodeId peers, []) (es ++ es')
      = acceptorRun (acceptorRun (paxosInit nodeId peers, []) es) es' := List.foldl_append ..
  rw [happ]
  exact hle

end Paxos
