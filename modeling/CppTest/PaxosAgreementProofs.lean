import CppTest.PaxosQuorumProofs
import CppTest.VotingProofs

/-! # Agreement

    The cluster as a vote: an acceptance is a vote, `t_max` binds, a flag 3 message that
    was sent is a proposal.

    * `ballots`, `grows_act` — the votes of a cluster, and that every step only adds to
      them;
    * `Stored` — an acceptor's `t_store` and `value_store` tell of its last vote;
    * `Agreement` — what holds in every run of orderly steps, and
      `Agreement.consistent`: then the vote is consistent, so one value is chosen;
    * `agreement` — all values reported as chosen are equal, in every run of orderly
      steps.

    A step is not orderly (`Orderly`) if a reply is counted for another ballot than its
    own or twice, if a late promise replaces the value of a proposal, or if
    `paxos_prepare` clears the stored proposal of a node that has accepted one.  The
    last is enough to break agreement (`agreement_fails`). -/

namespace Paxos

open Voting

/-! ## The votes of a cluster -/

def ballots (N : Nat) (s : Cluster) : Votes Nat Value where
  vote := fun j b v => j < N ∧ ∃ i, Act.accept i b v ∈ (s.host j).acts
  bound := fun j => (s.host j).ctx.tMax
  proposed := fun b v => ∃ i, i < N ∧ ∃ p ∈ (s.host i).sent,
    p.msg.flag = 3 ∧ p.msg.proposalid = b ∧ p.msg.value = v

/-- **Every step only adds to the vote.** -/
theorem grows_act {N : Nat} {s : Cluster} (h : Base N s) {i : Nat} (hi : i < N) (e : Event) :
    Grows (ballots N s) (ballots N (s.act i e)) := by
  constructor
  · rintro j b v ⟨hj, k, hact⟩
    exact ⟨hj, k, act_acts_subset s i e j hact⟩
  · rintro j b v ⟨hj, k, hact⟩
    rcases mem_act_acts s i e hact with hold | ⟨rfl, hnew⟩
    · exact Or.inl ⟨hj, k, hold⟩
    · obtain ⟨_, msg, _, -, ⟨-, -, heq⟩ | ⟨-, hmax, heq⟩⟩ := nodeStep_act hnew
      · exact nomatch heq
      · obtain ⟨-, rfl, -⟩ := Act.accept.inj heq
        exact Or.inr hmax.ge
  · intro j
    show (s.host j).ctx.tMax ≤ ((s.act i e).host j).ctx.tMax
    by_cases hj : j = i
    · rw [hj, act_host_self]
      exact ((h.node i hi).acceptor.nodeStep e).1
    · rw [act_host_ne s i e hj]
  · rintro b v ⟨k, hk, p, hp, hrest⟩
    exact ⟨k, hk, p, act_sent_subset s i e k hp, hrest⟩

/-- The votes of a node that does not take the step stay. -/
theorem vote_act_ne {N : Nat} {s : Cluster} {i j : Nat} (hj : j ≠ i) (e : Event) {c : Nat}
    {w : Value} (h : (ballots N (s.act i e)).vote j c w) : (ballots N s).vote j c w := by
  obtain ⟨hlt, k, hact⟩ := h
  rw [act_host_ne s i e hj] at hact
  exact ⟨hlt, k, hact⟩

/-- Taking a datagram off the wire changes no vote. -/
theorem ballots_take {N : Nat} {s s' : Cluster} (h : s'.host = s.host) :
    ballots N s' = ballots N s := by
  unfold ballots
  rw [h]

/-! ## What an acceptor has stored -/

/-- The stored proposal tells of the last vote, and so do the promises that wait. -/
structure Stored (S : Votes Nat Value) (j : Nat) (ctx : Ctx) : Prop where
  last : ∀ c w, S.vote j c w → c ≤ ctx.tStore
  value : 0 < ctx.tStore → ∃ b', ctx.tStore ≤ b' ∧ S.proposed b' ctx.valueStore.bytes
  queued : ∀ q ∈ ctx.oList, q.msg.flag = 2 →
    Reports S j q.ballot q.msg.proposalid q.msg.value

theorem Stored.mono {S S' : Votes Nat Value} {j : Nat} {ctx : Ctx} (h : Stored S j ctx)
    (hgrow : Grows S S') (hsame : ∀ c w, S'.vote j c w → S.vote j c w) : Stored S' j ctx := by
  refine ⟨fun c w hw => h.last c w (hsame c w hw), ?_, ?_⟩
  · intro ht
    obtain ⟨b', hle, hprop⟩ := h.value ht
    exact ⟨b', hle, hgrow.offer b' _ hprop⟩
  · intro q hq h2
    exact (h.queued q hq h2).mono hgrow

/-- The reply tells of the last vote, wherever it goes. -/
theorem Stored.sendReply {S : Votes Nat Value} {j : Nat} {ctx : Ctx} (h : Stored S j ctx)
    (src flag : Nat) {ballot : Nat} (hb : ballot ≤ S.bound j) (io : SendTo) :
    Stored S j (sendReply ctx src ballot flag io).1 ∧
    ∀ r ∈ (sendReply ctx src ballot flag io).2, r.msg.flag = 2 →
      Reports S j r.ballot r.msg.proposalid r.msg.value := by
  have hrep : Reports S j ballot ctx.tStore ctx.valueStore.bytes :=
    ⟨hb, fun c w hw => Or.inl (h.last c w hw), h.value⟩
  cases io with
  | sent =>
      refine ⟨h, ?_⟩
      intro r hr _
      rw [List.mem_singleton.mp hr]
      exact hrep
  | again =>
      refine ⟨⟨h.last, h.value, ?_⟩, fun r hr => nomatch hr⟩
      intro q hq h2
      cases List.mem_append.mp hq with
      | inl hold => exact h.queued q hold h2
      | inr hnew =>
          rw [List.mem_singleton.mp hnew]
          exact hrep
  | failed => exact ⟨h, fun r hr => nomatch hr⟩

/-- **A datagram keeps what is stored true.**  A flag 5 message replaces the value but
    not `t_store`; that does no harm, since the value it brings has been chosen. -/
theorem Stored.recv {S : Votes Nat Value} {U : Finset Nat} {j : Nat} {ctx : Ctx}
    (h : Stored S j ctx) (hS : Consistent U S) {S' : Votes Nat Value} (hgrow : Grows S S')
    (hstore : ctx.tStore ≤ ctx.tMax) {src : Nat} {msg : Msg} (io : SendTo)
    (hbound : S'.bound j = (epollHandlePaxosFdIo ctx src msg io).1.tMax)
    (hvote : ∀ c w, S'.vote j c w → S.vote j c w ∨
      ∃ k, (epollHandlePaxosFdIo ctx src msg io).2.2 = some (.accept k c w))
    (h3 : msg.flag = 3 → S.proposed msg.proposalid msg.value)
    (h5 : msg.flag = 5 → ∃ b, Chosen U S b msg.value) :
    Stored S' j (epollHandlePaxosFdIo ctx src msg io).1 ∧
    ∀ r ∈ (epollHandlePaxosFdIo ctx src msg io).2.1, r.msg.flag = 2 →
      Reports S' j r.ballot r.msg.proposalid r.msg.value := by
  -- without an acceptance, what was stored stays true
  have hkept : (∀ k c w, (epollHandlePaxosFdIo ctx src msg io).2.2 ≠ some (.accept k c w)) →
      Stored S' j ctx := by
    intro hno
    refine h.mono hgrow fun c w hw => ?_
    rcases hvote c w hw with hold | ⟨k, hk⟩
    · exact hold
    · exact absurd hk (hno k c w)
  rcases fdIo_cases ctx src msg io with ⟨hflag, hr⟩ | ⟨-, -, c, out, hsend, hr⟩ |
    ⟨hmax, hflag, c, out, hsend, hr⟩ | hr
  · rw [hr] at hkept ⊢
    have hold := hkept fun _ _ _ hk => nomatch hk
    obtain ⟨b, hchosen⟩ := h5 hflag
    refine ⟨⟨hold.last, ?_, hold.queued⟩, fun r hr => nomatch hr⟩
    intro ht
    obtain ⟨b', hle, hprop⟩ := hchosen.reportable hS (h.value ht)
    refine ⟨b', hle, hgrow.offer b' _ ?_⟩
    show S.proposed b' (sdscpylen ctx.valueStore msg.value).bytes
    rw [bytes_sdscpylen]
    exact hprop
  · rw [hr] at hkept hbound ⊢
    obtain ⟨hlast, hvalue, hqueued⟩ := hkept fun _ _ _ hk => nomatch hk
    have hold : Stored S' j { ctx with tMax := msg.proposalid } := ⟨hlast, hvalue, hqueued⟩
    have hle : msg.proposalid ≤ S'.bound j := by
      have htmax := (sendReply_tMax { ctx with tMax := msg.proposalid } src msg.proposalid 2 io).1
      rw [hsend] at htmax
      rw [hbound]
      exact htmax.ge
    have hspec := hold.sendReply src 2 hle io
    rw [hsend] at hspec
    exact hspec
  · rw [hr] at hvote hbound ⊢
    have hnew : Stored S' j { ctx with
        tStore := msg.proposalid
        valueStore := sdscpylen ctx.valueStore msg.value } := by
      refine ⟨?_, ?_, fun q hq h2 => (h.queued q hq h2).mono hgrow⟩
      · intro c w hw
        rcases hvote c w hw with hold | ⟨k, hk⟩
        · -- a vote of before is not above t_store, and t_store not above t_max
          exact ((h.last c w hold).trans hstore).trans hmax.ge
        · obtain ⟨-, rfl, -⟩ := Act.accept.inj (Option.some.inj hk)
          exact Nat.le_refl _
      · intro _
        refine ⟨msg.proposalid, Nat.le_refl _, hgrow.offer _ _ ?_⟩
        show S.proposed msg.proposalid (sdscpylen ctx.valueStore msg.value).bytes
        rw [bytes_sdscpylen]
        exact h3 hflag
    have hle : msg.proposalid ≤ S'.bound j := by
      have htmax := (sendReply_tMax { ctx with
        tStore := msg.proposalid
        valueStore := sdscpylen ctx.valueStore msg.value } src msg.proposalid 4 io).1
      rw [hsend] at htmax
      rw [hbound]
      exact (htmax.trans hmax.symm).ge
    have hspec := hnew.sendReply src 4 hle io
    rw [hsend] at hspec
    exact hspec
  · rw [hr] at hkept ⊢
    exact ⟨hkept (fun _ _ _ hk => nomatch hk), fun r hr => nomatch hr⟩

/-! ## Orderly steps -/

/-- `paxos_prepare` does not clear a stored proposal. -/
def KeepsStore (s : Cluster) : Label → Prop
  | .echo i _ => (s.host i).ctx.tStore = 0
  | .recv _ _ => True
  | .reply _ => True
  | .beforeWait _ _ => True

/-- Replies are counted in time, the rounds are kept, and so are the stored
    proposals. -/
def Orderly (s : Cluster) (l : Label) : Prop :=
  PromiseInTime s l ∧ AcceptInTime s l ∧ KeepsStore s l

/-- A message carries a copy of the value it had when it was queued. -/
def WriteEnv.Copies (env : WriteEnv) : Prop :=
  (∀ j k v, env.stale j k v = v) ∧ ∀ k v, env.staleReply k v = v

def CopiesValues : Label → Prop
  | .beforeWait _ env => env.Copies
  | .echo _ _ => True
  | .recv _ _ => True
  | .reply _ => True

/-- What an orderly step is to the node that takes it. -/
structure OrderlyEvent (N : Nat) (s : Cluster) (i : Nat) (e : Event) : Prop where
  sourced : Sourced N s i e
  promise : PromiseCounts N s i e
  accept : AcceptCounts N s i e
  store : ∀ str, e = .echo str → (s.host i).ctx.tStore = 0
  report : ∀ src msg, e = .reply src msg → msg.flag = 2 →
    Reports (ballots N s) src (s.host i).ctx.tTry msg.proposalid msg.value
  copies : ∀ env, e = .beforeWait env → env.Copies

theorem pack_copy {gen : Nat} {stale : Value → Value} (h : ∀ v, stale v = v) (q : Queued) :
    pack gen stale q = q.msg := by
  unfold pack
  split
  · rfl
  · rw [h]

theorem OrderlyEvent.packsCopies {N : Nat} {s : Cluster} {i : Nat} {e : Event}
    (h : OrderlyEvent N s i e) : PacksCopies (s.host i).ctx e := by
  cases e with
  | echo str => trivial
  | recv src msg io => trivial
  | reply src msg => trivial
  | beforeWait env => exact fun q _ _ j k => pack_copy ((h.copies env rfl).1 j k) q

/-! ## Flag 5 messages -/

/-- A flag 5 message with this value has been sent, or waits. -/
def Executed (ctx : Ctx) (sent : List Packet) (v : Value) : Prop :=
  (∃ p ∈ sent, p.msg.flag = 5 ∧ p.msg.value = v) ∨
  (∃ q ∈ queue ctx, q.msg.flag = 5 ∧ q.msg.value = v)

theorem Executed.mono {ctx ctx' : Ctx} {sent : List Packet} {v : Value}
    (hq : ∀ q ∈ queue ctx', q ∈ queue ctx ∨ q.msg.flag ≠ 5) (h : Executed ctx' sent v) :
    Executed ctx sent v := by
  rcases h with hsent | ⟨q, hmem, hflag, hv⟩
  · exact Or.inl hsent
  · rcases hq q hmem with hold | hne
    · exact Or.inr ⟨q, hold, hflag, hv⟩
    · exact absurd hflag hne

/-- After a step, a flag 5 message is an old one, or an acceptance has just been counted
    beyond the majority. -/
theorem Executed.of_nodeStep {ctx : Ctx} {sent : List Packet} {e : Event} {v : Value}
    (hcopy : ∀ env, e = .beforeWait env → env.Copies)
    (h : Executed (nodeStep ctx e).ctx (sent ++ (nodeStep ctx e).requests) v) :
    Executed ctx sent v ∨
    (∃ src msg, e = .reply src msg ∧ (msg.hasPreacceptid && msg.flag == 4) = true ∧
      ctx.nNodes / 2 < ctx.nProposeSuccess + 1 ∧ v = ctx.valueTry.bytes) := by
  cases e with
  | echo str =>
      have h' : Executed (paxosEcho ctx str) (sent ++ []) v := h
      rw [List.append_nil] at h'
      refine Or.inl (h'.mono fun q hq => ?_)
      rcases mem_queueRequest hq with hold | ⟨hmsg, -⟩
      · exact Or.inl hold
      · rw [hmsg]
        exact Or.inr (show (1 : Nat) ≠ 5 by decide)
  | recv src msg io =>
      obtain ⟨_, _, _, _, hframe⟩ := fdIo_frame ctx src msg io
      have h' : Executed (epollHandlePaxosFdIo ctx src msg io).1 (sent ++ []) v := h
      rw [hframe, List.append_nil] at h'
      exact Or.inl h'
  | reply src msg =>
      have h' : Executed (epollHandlePaxosNodeFdIo ctx src msg).1 (sent ++ []) v := h
      rw [List.append_nil] at h'
      rcases nodeFdIo_cases ctx src msg with ⟨h4, -, hr⟩ | ⟨-, -, hr⟩ | ⟨-, -, hr⟩
      · rw [hr] at h'
        rcases h' with hsent | ⟨q, hq, hflag, hv⟩
        · exact Or.inl (Or.inl hsent)
        · rcases (countSuccess_spec ctx).queued q hq with hold | ⟨hlt, hmsg, -⟩
          · exact Or.inl (Or.inr ⟨q, hold, hflag, hv⟩)
          · rw [hmsg] at hv
            exact Or.inr ⟨src, msg, rfl, h4, hlt, hv.symm⟩
      · rw [hr] at h'
        have hspec := countPromise_spec ctx src msg
        refine Or.inl (h'.mono fun q hq => ?_)
        rcases Nat.lt_or_ge (ctx.nNodes / 2) (ctx.nProposeOk + 1) with hlt | hge
        · rcases (hspec.quorum hlt).2 q hq with hold | ⟨hmsg, -, -⟩
          · exact Or.inl hold
          · rw [hmsg]
            exact Or.inr (show (3 : Nat) ≠ 5 by decide)
        · exact Or.inl ((hspec.early hge).2 q hq)
      · rw [hr] at h'
        exact Or.inl h'
  | beforeWait env =>
      refine Or.inl ?_
      rcases h with ⟨p, hp, hflag, hv⟩ | ⟨q, hq, hrest⟩
      · cases List.mem_append.mp hp with
        | inl hold => exact Or.inl ⟨p, hold, hflag, hv⟩
        | inr hnew =>
            obtain ⟨q, hq, j, k, hmsg, -⟩ := mem_epollBeforeWait.2 p hnew
            rw [pack_copy ((hcopy env rfl).1 j k)] at hmsg
            rw [hmsg] at hflag hv
            exact Or.inr ⟨q, hq, hflag, hv⟩
      · exact Or.inr ⟨q, mem_epollBeforeWait.1 q hq, hrest⟩

/-! ## The invariant -/

/-- What holds of a node: its proposals are safe, what it has stored and heard tells of
    votes, and what it had executed was chosen. -/
structure Learned (N : Nat) (s : Cluster) (i : Nat) : Prop where
  one : OneValue (s.host i).ctx (s.host i).sent
  safe : ∀ b v, Offered (s.host i).ctx (s.host i).sent b v →
    SafeAt (Finset.range N) (ballots N s) b v
  stored : Stored (ballots N s) i (s.host i).ctx
  heard : ∀ x ∈ (s.host i).heard,
    Reports (ballots N s) x.1 (s.host i).ctx.tTry x.2.t x.2.value
  executed : ∀ v, Executed (s.host i).ctx (s.host i).sent v →
    ∃ b, Chosen (Finset.range N) (ballots N s) b v

structure Agreement (N : Nat) (s : Cluster) : Prop where
  promises : PromiseQuorum N s
  accepts : AcceptQuorum N s
  learned : ∀ i, i < N → Learned N s i
  replies : ∀ r ∈ s.replies, r.msg.flag = 2 →
    Reports (ballots N s) r.src r.ballot r.msg.proposalid r.msg.value

/-- An acceptor promises a ballot to one proposer only. -/
theorem promise_unique {acts : List Act} (h : acts.Pairwise Respects) {i k b : Nat}
    (hi : Act.promise i b ∈ acts) (hk : Act.promise k b ∈ acts) : i = k := by
  induction acts with
  | nil => exact nomatch hi
  | cons a acts ih =>
      obtain ⟨hhead, htail⟩ := List.pairwise_cons.mp h
      rcases List.mem_cons.mp hi with rfl | hitail
      · rcases List.mem_cons.mp hk with heq | hktail
        · exact (Act.promise.inj heq).1.symm
        · exact absurd (hhead _ hktail) (Nat.lt_irrefl b)
      · rcases List.mem_cons.mp hk with rfl | hktail
        · exact absurd (hhead _ hitail) (Nat.lt_irrefl b)
        · exact ih htail hitail hktail

/-- A majority of the peers is one of the nodes. -/
theorem majority_actors {N : Nat} {s : Cluster} {i : Nat} {a : Act}
    (h : N / 2 < (actors N s i a).card) : Majority (Finset.range N) (actors N s i a) :=
  ⟨Finset.filter_subset .., (Finset.card_range N).symm ▸ h⟩

/-- Two proposers do not propose in the same ballot. -/
theorem PromiseQuorum.proposer_unique {N : Nat} {s : Cluster} (h : PromiseQuorum N s)
    {i k b : Nat} {v w : Value} (hi : i < N) (hk : k < N)
    (hv : Offered (s.host i).ctx (s.host i).sent b v)
    (hw : Offered (s.host k).ctx (s.host k).sent b w) : i = k := by
  obtain ⟨j, hji, hjk⟩ := (majority_actors ((h.promised i hi).backed b v hv)).meet
    (majority_actors ((h.promised k hk).backed b w hw))
  obtain ⟨hpeer, hacti⟩ := mem_actors.mp hji
  obtain ⟨-, hactk⟩ := mem_actors.mp hjk
  exact promise_unique (h.base.node j (mem_peers.mp hpeer).1).acceptor.respects hacti hactk

/-- Ballots with a proposal are positive. -/
theorem PromiseQuorum.offered_pos {N : Nat} {s : Cluster} (h : PromiseQuorum N s) {i b : Nat}
    {v : Value} (hi : i < N) (hv : Offered (s.host i).ctx (s.host i).sent b v) : 0 < b := by
  have hcard := (h.promised i hi).backed b v hv
  obtain ⟨j, hj⟩ := Finset.card_pos.mp (Nat.zero_lt_of_lt hcard)
  obtain ⟨hpeer, hact⟩ := mem_actors.mp hj
  exact (h.base.node j (mem_peers.mp hpeer).1).pos i b hact

/-- **The vote of a cluster is consistent.** -/
theorem Agreement.consistent {N : Nat} {s : Cluster} (h : Agreement N s) :
    Consistent (Finset.range N) (ballots N s) := by
  have hvoted : ∀ j b v, (ballots N s).vote j b v → (ballots N s).proposed b v := by
    rintro j b v ⟨hj, i, hact⟩
    obtain ⟨hi, p, hp, -, hrest⟩ := h.promises.base.wire.accepts j hj i b v hact
    exact ⟨i, hi, p, hp, hrest⟩
  refine ⟨?_, hvoted, ?_, ?_⟩
  · rintro b v w ⟨i, hi, hv⟩ ⟨k, hk, hw⟩
    obtain rfl : i = k := h.promises.proposer_unique hi hk (Or.inl hv) (Or.inl hw)
    exact (h.learned i hi).one b v w (Or.inl hv) (Or.inl hw)
  · intro j b v hvote
    obtain ⟨i, hi, hv⟩ := hvoted j b v hvote
    exact h.promises.offered_pos hi (Or.inl hv)
  · rintro b v ⟨i, hi, hv⟩
    exact (h.learned i hi).safe b v (Or.inl hv)

/-- A majority of acceptances is a choice. -/
theorem chosen_of_accepters {N : Nat} {s : Cluster} {i b : Nat} {v : Value}
    (h : N / 2 < (accepters N s i b v).card) : Chosen (Finset.range N) (ballots N s) b v := by
  refine ⟨accepters N s i b v, majority_actors h, ?_⟩
  intro j hj
  obtain ⟨hpeer, hact⟩ := mem_actors.mp hj
  exact ⟨(mem_peers.mp hpeer).1, i, hact⟩

theorem best_snoc_isSome (l : List Promise) (m : Promise) : ∃ p, best (l ++ [m]) = some p := by
  rw [best_snoc]
  cases best l with
  | none => exact ⟨m, rfl⟩
  | some q =>
      by_cases hle : m.t ≤ q.t
      · exact ⟨q, if_pos hle⟩
      · exact ⟨m, if_neg hle⟩

/-- **The proposer's rule**: what is proposed beyond the majority of promises is safe,
    however many promises there are. -/
theorem Agreement.safe_proposal {N : Nat} {s : Cluster} (h : Agreement N s) {i : Nat} (hi : i < N)
    {src : Nat} {msg : Msg} (he : OrderlyEvent N s i (.reply src msg)) (h2 : msg.flag = 2)
    (hlt : (s.host i).ctx.nNodes / 2 < (s.host i).ctx.nProposeOk + 1) :
    SafeAt (Finset.range N) (ballots N s) (s.host i).ctx.tTry
      (countPromise (s.host i).ctx src msg).valueTry.bytes := by
  have hlocal := h.promises.base.node i hi
  have hpromised := h.promises.promised i hi
  have hspec := countPromise_spec (s.host i).ctx src msg
  -- the promises of the round, with this one
  have hheard : heardAfter (s.host i).heard (.reply src msg)
      = (s.host i).heard ++ [(src, ⟨msg.proposalid, msg.value⟩)] := if_pos h2
  have hreports : ∀ x ∈ heardAfter (s.host i).heard (.reply src msg),
      Reports (ballots N s) x.1 (s.host i).ctx.tTry x.2.t x.2.value := by
    intro x hx
    rcases mem_heardAfter hx with ⟨hold, -⟩ | ⟨msg', heq, h2', hx2⟩
    · exact (h.learned i hi).heard x hold
    · rw [hx2]
      exact he.report x.1 msg' heq h2'
  have hperm : ((heardAfter (s.host i).heard (.reply src msg)).map Prod.snd).Perm
      ((s.host i).ctx.proposeOkList ++ [⟨msg.proposalid, msg.value⟩]) := by
    rw [hheard, List.map_append]
    exact hlocal.heard_perm.append_right _
  have hmajority : Majority (Finset.range N)
      ((heardAfter (s.host i).heard (.reply src msg)).map Prod.fst).toFinset := by
    refine ⟨?_, ?_⟩
    · intro j hj
      obtain ⟨x, hx, rfl⟩ := List.mem_map.mp (List.mem_toFinset.mp hj)
      exact Finset.mem_range.mpr (mem_peers.mp (hpromised.heard_after he.promise x hx).1).1
    · rw [List.toFinset_card_of_nodup (hpromised.nodup_after he.promise), Finset.card_range,
        List.length_map, hheard, List.length_append, hlocal.heard_length]
      rw [hlocal.nNodes] at hlt
      exact hlt
  -- the best of them
  obtain ⟨p, hp⟩ := best_snoc_isSome (s.host i).ctx.proposeOkList ⟨msg.proposalid, msg.value⟩
  obtain ⟨hmem, hmax⟩ := best_mem hp
  rw [(hspec.quorum hlt).1, hspec.best_eq, hp]
  refine safeAt_of_reports (s := p.t) h.consistent hmajority ?_ ?_
  · intro j hj
    obtain ⟨x, hx, rfl⟩ := List.mem_map.mp (List.mem_toFinset.mp hj)
    exact ⟨x.2.t, x.2.value, hmax _ (hperm.mem_iff.mp (List.mem_map_of_mem hx)), hreports x hx⟩
  · rcases Nat.eq_zero_or_pos p.t with hzero | hpos
    · exact Or.inl hzero
    · rw [adopted_bytes _ hpos]
      obtain ⟨x, hx, rfl⟩ := List.mem_map.mp (hperm.mem_iff.mpr hmem)
      exact Or.inr ((hreports x hx).value hpos)

/-! ## One step -/

theorem vote_act_self {N : Nat} {s : Cluster} {i : Nat} {e : Event} {c : Nat} {w : Value}
    (h : (ballots N (s.act i e)).vote i c w) : (ballots N s).vote i c w ∨
      ∃ k, (nodeStep (s.host i).ctx e).act = some (.accept k c w) := by
  obtain ⟨hlt, k, hact⟩ := h
  rcases mem_act_acts s i e hact with hold | ⟨-, hnew⟩
  · exact Or.inl ⟨hlt, k, hold⟩
  · exact Or.inr ⟨k, hnew⟩

/-- **What is stored stays true**, and so are the promises that go out. -/
theorem Agreement.stored_act {N : Nat} {s : Cluster} (h : Agreement N s) {i : Nat} (hi : i < N)
    {e : Event} (he : OrderlyEvent N s i e) :
    Stored (ballots N (s.act i e)) i (nodeStep (s.host i).ctx e).ctx ∧
    ∀ r ∈ (nodeStep (s.host i).ctx e).replies, r.msg.flag = 2 →
      Reports (ballots N (s.act i e)) i r.ballot r.msg.proposalid r.msg.value := by
  have hgrow := grows_act h.promises.base hi e
  have hstored := (h.learned i hi).stored
  -- a step without an act changes no vote of this node
  have hsame : (nodeStep (s.host i).ctx e).act = none →
      ∀ c w, (ballots N (s.act i e)).vote i c w → (ballots N s).vote i c w := by
    intro hnone c w hw
    rcases vote_act_self hw with hold | ⟨k, hk⟩
    · exact hold
    · rw [hnone] at hk
      exact nomatch hk
  cases e with
  | echo str =>
      have hzero := he.store str rfl
      refine ⟨⟨?_, (fun ht => nomatch ht), fun q hq => nomatch hq⟩, fun r hr => nomatch hr⟩
      intro c w hw
      have hle := hstored.last c w (hsame rfl c w hw)
      rw [hzero] at hle
      exact hle
  | recv src msg io =>
      obtain ⟨hsrc, p, hp, -, rfl⟩ := he.sourced
      refine hstored.recv h.consistent hgrow (h.promises.base.node i hi).acceptor.store_le io ?_ ?_
        ?_ ?_
      · show ((s.act i _).host i).ctx.tMax = _
        rw [act_host_self]
        rfl
      · exact fun c w hw => vote_act_self hw
      · exact fun hflag => ⟨src, hsrc, p, hp, hflag, rfl, rfl⟩
      · exact fun hflag => (h.learned src hsrc).executed _ (Or.inl ⟨p, hp, hflag, rfl⟩)
  | reply src msg =>
      have hold := hstored.mono hgrow (hsame rfl)
      obtain ⟨_, _, _, _, _, hframe⟩ := nodeFdIo_frame (s.host i).ctx src msg
      refine ⟨?_, fun r hr => nomatch hr⟩
      show Stored _ i (epollHandlePaxosNodeFdIo (s.host i).ctx src msg).1
      rw [hframe]
      exact ⟨hold.last, hold.value, hold.queued⟩
  | beforeWait env =>
      have hold := hstored.mono hgrow (hsame rfl)
      refine ⟨⟨hold.last, hold.value, fun q hq => hold.queued q (mem_writeQueue.1 q hq)⟩, ?_⟩
      intro r hr h2
      obtain ⟨q, hq, k, hmsg, -, -, hballot⟩ := mem_writeQueue.2 r hr
      rw [pack_copy ((he.copies env rfl).2 k)] at hmsg
      rw [hmsg] at h2 ⊢
      rw [hballot]
      exact hold.queued q hq h2

/-- **The node that takes the step.** -/
theorem Agreement.learned_self {N : Nat} {s : Cluster} (h : Agreement N s) {i : Nat} (hi : i < N)
    {e : Event} (he : OrderlyEvent N s i e) : Learned N (s.act i e) i := by
  have hgrow := grows_act h.promises.base hi e
  have hlearned := h.learned i hi
  have haccepted := h.accepts.accepted i hi
  constructor
  · rw [act_host_self]
    exact hlearned.one.step haccepted.round he.accept.keeps he.packsCopies
  · rw [act_host_self]
    intro b v hoff
    refine SafeAt.mono hgrow ?_
    rcases Offered.of_nodeStep hoff with hold | ⟨env, rfl, q, hq, hflag, hid, j, k, hval⟩ |
      ⟨src, msg, rfl, h2, hlt, rfl, rfl⟩
    · exact hlearned.safe b v hold
    · rw [pack_copy ((he.copies env rfl).1 j k)] at hval
      exact hlearned.safe b v (Or.inr ⟨q, hq, hflag, hid, hval.symm⟩)
    · exact h.safe_proposal hi he h2 hlt
  · rw [act_host_self]
    exact (h.stored_act hi he).1
  · rw [act_host_self]
    intro x hx
    refine Reports.mono hgrow ?_
    show Reports _ x.1 (nodeStep (s.host i).ctx e).ctx.tTry x.2.t x.2.value
    rcases mem_heardAfter hx with ⟨hold, hecho⟩ | ⟨msg, rfl, h2, hx2⟩
    · rw [nodeStep_tTry _ hecho]
      exact hlearned.heard x hold
    · rw [nodeStep_reply_tTry, hx2]
      exact he.report x.1 msg rfl h2
  · rw [act_host_self]
    intro v hex
    rcases Executed.of_nodeStep he.copies hex with hold | ⟨src, msg, rfl, h4, hlt, rfl⟩
    · obtain ⟨b, hchosen⟩ := hlearned.executed v hold
      exact ⟨b, hchosen.mono hgrow⟩
    · have hmajority := haccepted.majority h.accepts.base hi he.accept h4 hlt
      exact ⟨_, (chosen_of_accepters hmajority).mono hgrow⟩

/-- The other nodes. -/
theorem Agreement.learned_other {N : Nat} {s : Cluster} (h : Agreement N s) {i k : Nat}
    (hi : i < N) (hk : k < N) (hki : k ≠ i) (e : Event) : Learned N (s.act i e) k := by
  have hgrow := grows_act h.promises.base hi e
  have hlearned := h.learned k hk
  have hsame := act_host_ne s i e hki
  constructor
  · rw [hsame]
    exact hlearned.one
  · rw [hsame]
    exact fun b v hoff => (hlearned.safe b v hoff).mono hgrow
  · rw [hsame]
    exact hlearned.stored.mono hgrow fun c w => vote_act_ne hki e
  · rw [hsame]
    exact fun x hx => (hlearned.heard x hx).mono hgrow
  · rw [hsame]
    intro v hex
    obtain ⟨b, hchosen⟩ := hlearned.executed v hex
    exact ⟨b, hchosen.mono hgrow⟩

theorem Agreement.act {N : Nat} {s : Cluster} (h : Agreement N s) {i : Nat} (hi : i < N)
    {e : Event} (he : OrderlyEvent N s i e) : Agreement N (s.act i e) := by
  refine ⟨h.promises.act hi he.sourced he.promise, h.accepts.act hi he.sourced he.accept, ?_, ?_⟩
  · intro k hk
    by_cases hki : k = i
    · rw [hki]
      exact h.learned_self hi he
    · exact h.learned_other hi hk hki e
  · intro r hr h2
    cases List.mem_append.mp hr with
    | inl hold => exact (h.replies r hold h2).mono (grows_act h.promises.base hi e)
    | inr hnew =>
        obtain ⟨-, hout, -⟩ := nodeStep_replies (h.promises.base.node i hi).answers e
        have hsrc : r.src = i := (hout r hnew).1.trans (h.promises.base.node i hi).nodeId
        rw [hsrc]
        exact (h.stored_act hi he).2 r hnew h2

/-- Taking a datagram off the wire keeps the invariant. -/
theorem Agreement.take {N : Nat} {s s' : Cluster} (h : Agreement N s) (ht : Taken s s') :
    Agreement N s' := by
  have hhost := ht.host
  have hsame : ballots N s' = ballots N s := ballots_take hhost
  refine ⟨h.promises.take ht, h.accepts.take ht, ?_, ?_⟩
  · intro i hi
    obtain ⟨hone, hsafe, hstored, hheard, hexecuted⟩ := h.learned i hi
    constructor <;> rw [hhost]
    · exact hone
    · rw [hsame]
      exact hsafe
    · rw [hsame]
      exact hstored
    · rw [hsame]
      exact hheard
    · rw [hsame]
      exact hexecuted
  · rw [hsame]
    exact fun r hr => h.replies r (ht.replies.subset hr)

/-- An orderly step is an orderly event. -/
theorem Agreement.orderlyEvent {N : Nat} {s s₀ : Cluster} {l : Label} {i : Nat} {e : Event}
    (h : Agreement N s) (hok : Orderly s l) (hcopy : CopiesValues l) (hcause : Causes s l s₀ i e)
    (hsrc : Sourced N s₀ i e) : OrderlyEvent N s₀ i e := by
  obtain ⟨hpromise, haccept, hstore⟩ := hok
  refine ⟨hsrc, h.promises.counts hpromise hcause, h.accepts.counts haccept hcause, ?_, ?_, ?_⟩
  · cases hcause with
    | echo => exact fun _ _ => hstore
    | recv => exact fun _ heq => nomatch heq
    | reply => exact fun _ heq => nomatch heq
    | beforeWait => exact fun _ heq => nomatch heq
  · cases hcause with
    | echo => exact fun _ _ heq => nomatch heq
    | recv => exact fun _ _ heq => nomatch heq
    | beforeWait => exact fun _ _ heq => nomatch heq
    | reply p hp =>
        rintro src msg heq h2
        obtain ⟨rfl, rfl⟩ := Event.reply.inj heq
        -- the reply tells of the votes below its ballot, and that is the current one
        have hreport := h.replies p hp h2
        rw [show p.ballot = (s.host p.dst).ctx.tTry from hpromise h2] at hreport
        exact hreport
  · cases hcause with
    | echo => exact fun _ heq => nomatch heq
    | recv => exact fun _ heq => nomatch heq
    | reply => exact fun _ heq => nomatch heq
    | beforeWait _ env =>
        rintro env' heq
        obtain rfl := Event.beforeWait.inj heq
        exact hcopy

/-- **One orderly step of the cluster.** -/
theorem Agreement.step {N : Nat} {s s' : Cluster} {l : Label} (h : Agreement N s)
    (hok : Orderly s l) (hcopy : CopiesValues l) (hstep : clusterStep N s l = some s') :
    Agreement N s' := by
  obtain ⟨s₀, i, e, hcause, hi, hsrc, rfl⟩ := h.promises.base.step_cases hstep
  exact (h.take hcause.taken).act hi (h.orderlyEvent hok hcopy hcause hsrc)

theorem agreement_init (N : Nat) : Agreement N (clusterInit N) := by
  refine ⟨promiseQuorum_init N, acceptQuorum_init N, ?_, fun r hr => nomatch hr⟩
  intro i hi
  have hnone : ∀ b v, ¬ Offered (paxosInit i (peers N i)) [] b v := by
    intro b v hoff
    exact absurd ((promiseQuorum_init N).offered_pos hi hoff)
      (Nat.not_lt.mpr ((round_init i (peers N i)).le b v hoff))
  refine ⟨fun b v w hv => absurd hv (hnone b v), fun b v hv => absurd hv (hnone b v),
    ⟨?_, (fun ht => nomatch ht), fun q hq => nomatch hq⟩, (fun x hx => nomatch hx), ?_⟩
  · rintro c w ⟨-, k, hact⟩
    exact nomatch hact
  · rintro v (⟨p, hp, -⟩ | ⟨q, hq, -⟩)
    · exact nomatch hp
    · have hq' : q ∈ queue (paxosInit i (peers N i)) := hq
      rw [queue_paxosInit] at hq'
      exact nomatch hq'

/-- **Agreement**: in every run of orderly steps, with messages that carry copies of
    their values, all values that any nodes report as chosen for an instance are
    equal. -/
theorem agreement (N : Nat) (ls : List Label) (s : Cluster)
    (hrun : clusterRun N (clusterInit N) ls = some s) (hcopy : ∀ l ∈ ls, CopiesValues l)
    (hok : AllSteps N Orderly (clusterInit N) ls) :
    ∀ i, i < N → ∀ k, k < N → ∀ rep ∈ (s.host i).chosen, ∀ rep' ∈ (s.host k).chosen,
      rep.instanceId = rep'.instanceId → rep.value = rep'.value := by
  have h : Agreement N s := clusterRun_invariant (fun _ _ _ hI hok hs => hI.step hok.1 hok.2 hs)
    (agreement_init N) (hok.and_forall hcopy) hrun
  intro i hi k hk rep hrep rep' hrep' _
  have hchosen := chosen_of_accepters ((h.accepts.accepted i hi).backed rep hrep)
  have hchosen' := chosen_of_accepters ((h.accepts.accepted k hk).backed rep' hrep')
  exact h.consistent.agree hchosen hchosen'

instance (s : Cluster) : ∀ l : Label, Decidable (KeepsStore s l)
  | .echo _ _ => inferInstanceAs (Decidable (_ = _))
  | .recv _ _ => inferInstanceAs (Decidable True)
  | .reply _ => inferInstanceAs (Decidable True)
  | .beforeWait _ _ => inferInstanceAs (Decidable True)

instance (s : Cluster) (l : Label) : Decidable (Orderly s l) :=
  inferInstanceAs (Decidable (_ ∧ _ ∧ _))

/-- A whole ballot of `i`: the client asks for `v`, the peers `js` promise with the
    stored proposal `t`, `w`, and accept `u`. -/
def decidedBy (i : Nat) (js : List Nat) (b : Nat) (v : Value) (t : Nat) (w u : Value) :
    List Label :=
  preparedBy i js b v ++ promisedTo i js b t w ++ proposedBy i js b u ++ acceptedTo i js b u

theorem copies_decidedBy {i : Nat} {js : List Nat} {b : Nat} {v : Value} {t : Nat} {w u : Value} :
    ∀ l ∈ decidedBy i js b v t w u, CopiesValues l := by
  have hcopy : allSent.Copies := ⟨fun _ _ _ => rfl, fun _ _ => rfl⟩
  intro l hl
  simp only [decidedBy, preparedBy, promisedTo, proposedBy, acceptedTo, List.mem_append,
    List.mem_map, List.mem_cons, List.not_mem_nil, or_false] at hl
  rcases hl with ((((rfl | rfl) | ⟨j, -, rfl⟩) | (⟨j, -, rfl⟩ | rfl)) | ⟨j, -, rfl⟩) | ⟨j, -, rfl⟩
  · trivial
  · exact hcopy
  · trivial
  · trivial
  · exact hcopy
  · trivial
  · trivial

/-- Five nodes: node 0 has 97 chosen, and node 4, which was asked for 98, finds 97 in the
    promises and has it chosen again. -/
theorem agreement_five : ∃ s, clusterRun 5 (clusterInit 5) (decidedBy 0 [1, 2, 3] 1 [97] 0 [] [97]
      ++ [.echo 4 [98]] ++ decidedBy 4 [1, 2, 3] 2 [98] 1 [97] [97]) = some s ∧
    (s.host 0).chosen = [⟨1, 1, [97]⟩] ∧ (s.host 4).chosen = [⟨1, 2, [97]⟩] ∧
    ∀ i, i < 5 → ∀ k, k < 5 → ∀ rep ∈ (s.host i).chosen, ∀ rep' ∈ (s.host k).chosen,
      rep.instanceId = rep'.instanceId → rep.value = rep'.value := by
  refine ⟨_, rfl, by decide, by decide, agreement 5 (decidedBy 0 [1, 2, 3] 1 [97] 0 [] [97]
    ++ [.echo 4 [98]] ++ decidedBy 4 [1, 2, 3] 2 [98] 1 [97] [97]) _ rfl ?_ (by decide)⟩
  exact List.forall_mem_append.mpr ⟨List.forall_mem_append.mpr
    ⟨copies_decidedBy, by simp [CopiesValues]⟩, copies_decidedBy⟩

/-- Three nodes: node 0 has 97 chosen by the nodes 1 and 2; then both start a ballot of
    their own, which clears what they have stored, and node 1 has 98 chosen by the nodes
    0 and 2. -/
theorem agreement_fails : ∃ s, clusterRun 3 (clusterInit 3) (decidedBy 0 [1, 2] 1 [97] 0 [] [97]
      ++ [.echo 2 [99], .echo 1 [98]] ++ decidedBy 1 [0, 2] 2 [98] 0 [] [98]) = some s ∧
    (∀ l ∈ decidedBy 0 [1, 2] 1 [97] 0 [] [97] ++ [.echo 2 [99], .echo 1 [98]]
      ++ decidedBy 1 [0, 2] 2 [98] 0 [] [98], CopiesValues l) ∧
    (s.host 0).chosen = [⟨1, 1, [97]⟩] ∧ (s.host 1).chosen = [⟨1, 2, [98]⟩] := by
  refine ⟨_, rfl, ?_, by decide, by decide⟩
  exact List.forall_mem_append.mpr ⟨List.forall_mem_append.mpr
    ⟨copies_decidedBy, by simp [CopiesValues]⟩, copies_decidedBy⟩

end Paxos
