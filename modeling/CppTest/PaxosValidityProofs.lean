import CppTest.PaxosQuorumProofs

/-! # No value comes from nowhere

    A proposal carries what the client asked for, or a stored proposal that a promise brought; a
    stored proposal is one that was sent.  So whatever set `V` of values the clients ask for,
    every value that is proposed, accepted, promised as stored, spread or reported lies in it.

    A queued message has a pointer to its value, so `V` has to be closed under what is found
    behind the pointer when the buffer has changed (`Within`): with one buffer that never moves
    that is a piece of one value and the end of another.  The length at least is the old one.

    * `Sound`: what holds of a node; `Sound.step`, every event keeps it.
    * `Valid`: what holds of the cluster; `validity`, in every run. -/

namespace Paxos

variable (V : Value → Prop)

/-- The clients ask for values of `V`, and the buffers have values of `V` for values of `V`. -/
def Within : Label → Prop
  | .echo _ str => V str
  | .recv _ _ => True
  | .reply _ => True
  | .beforeWait _ env => (∀ j k v, V v → V (env.stale j k v)) ∧ ∀ k v, V v → V (env.staleReply k v)

/-- A message that carries a proposal, or the value that was chosen. -/
def Proposal (msg : Msg) : Prop := msg.flag = 3 ∨ msg.flag = 5

/-- What a node stores, and what waits in its queues. -/
structure Sound (ctx : Ctx) : Prop where
  store : 0 < ctx.tStore → V ctx.valueStore.bytes
  promises : ∀ p ∈ ctx.proposeOkList, 0 < p.t → V p.value
  requests : ∀ q ∈ queue ctx, Proposal q.msg → V q.msg.value
  replies : ∀ q ∈ ctx.oList, 0 < q.msg.proposalid → V q.msg.value

/-- What an event may bring to the node. -/
def Brings (ctx : Ctx) : Event → Prop
  | .echo str => V str
  | .recv _ msg _ => Proposal msg → V msg.value
  | .reply _ msg => V ctx.valueTry.bytes ∧ (0 < msg.proposalid → V msg.value)
  | .beforeWait env => (∀ j k v, V v → V (env.stale j k v)) ∧ ∀ k v, V v → V (env.staleReply k v)

/-- What an event may let out. -/
structure Emits (eff : Effect) : Prop where
  requests : ∀ p ∈ eff.requests, Proposal p.msg → V p.msg.value
  replies : ∀ r ∈ eff.replies, 0 < r.msg.proposalid → V r.msg.value
  act : ∀ src b v, eff.act = some (.accept src b v) → V v
  report : ∀ rep, eff.report = some rep → V rep.value

variable {V}

theorem emits_nothing (ctx : Ctx) : Emits V ⟨ctx, [], [], none, none⟩ :=
  ⟨(fun _ hp => nomatch hp), (fun _ hr => nomatch hr), (fun _ _ _ h => nomatch h),
    fun _ h => nomatch h⟩

/-! ## A node -/

/-- The message that a queue packs, when its own value is in `V`. -/
theorem pack_within {gen : Nat} {stale : Value → Value} {q : Queued}
    (hstale : ∀ v, V v → V (stale v)) (h : V q.msg.value) : V (pack gen stale q).value := by
  unfold pack
  split
  · exact h
  · exact hstale _ h

theorem Sound.sendReply {ctx : Ctx} (h : Sound V ctx) (src ballot flag : Nat) (io : SendTo) :
    Sound V (sendReply ctx src ballot flag io).1 ∧
      ∀ r ∈ (sendReply ctx src ballot flag io).2, 0 < r.msg.proposalid → V r.msg.value := by
  cases io with
  | sent =>
      refine ⟨h, fun r hr => ?_⟩
      rw [List.mem_singleton.mp hr]
      exact h.store
  | again =>
      refine ⟨⟨h.store, h.promises, h.requests, fun q hq => ?_⟩, fun r hr => nomatch hr⟩
      rcases List.mem_append.mp hq with hold | hnew
      · exact h.replies q hold
      · rw [List.mem_singleton.mp hnew]
        exact h.store
  | failed => exact ⟨h, fun r hr => nomatch hr⟩

/-- The acceptor stores proposals. -/
theorem Sound.recv {ctx : Ctx} (h : Sound V ctx) (src : Nat) {msg : Msg}
    (hmsg : Proposal msg → V msg.value) (io : SendTo) :
    Sound V (nodeStep ctx (.recv src msg io)).ctx ∧ Emits V (nodeStep ctx (.recv src msg io)) := by
  show Sound V (epollHandlePaxosFdIo ctx src msg io).1 ∧ Emits V
    ⟨(epollHandlePaxosFdIo ctx src msg io).1, [], (epollHandlePaxosFdIo ctx src msg io).2.1,
      (epollHandlePaxosFdIo ctx src msg io).2.2, none⟩
  rcases fdIo_cases ctx src msg io with ⟨hflag, hr⟩ | ⟨-, -, c, out, hsend, hr⟩ |
    ⟨-, hflag, c, out, hsend, hr⟩ | hr
  · rw [hr]
    refine ⟨⟨fun _ => ?_, h.promises, h.requests, h.replies⟩, emits_nothing _⟩
    show V (sdscpylen ctx.valueStore msg.value).bytes
    rw [bytes_sdscpylen]
    exact hmsg (Or.inr hflag)
  · have hmax : Sound V { ctx with tMax := msg.proposalid } :=
      ⟨h.store, h.promises, h.requests, h.replies⟩
    have hsent := hmax.sendReply src msg.proposalid 2 io
    rw [hsend] at hsent
    rw [hr]
    exact ⟨hsent.1, (fun p hp => nomatch hp), hsent.2, (fun _ _ _ heq => nomatch heq),
      fun rep heq => nomatch heq⟩
  · have hvalue : V msg.value := hmsg (Or.inl hflag)
    have hstored : Sound V { ctx with
        tStore := msg.proposalid
        valueStore := sdscpylen ctx.valueStore msg.value } := by
      refine ⟨fun _ => ?_, h.promises, h.requests, h.replies⟩
      show V (sdscpylen ctx.valueStore msg.value).bytes
      rw [bytes_sdscpylen]
      exact hvalue
    have hsent := hstored.sendReply src msg.proposalid 4 io
    rw [hsend] at hsent
    rw [hr]
    refine ⟨hsent.1, (fun p hp => nomatch hp), hsent.2, fun _ _ v heq => ?_,
      fun rep heq => nomatch heq⟩
    obtain ⟨-, -, rfl⟩ := Act.accept.inj (Option.some.inj heq)
    exact hvalue
  · rw [hr]
    exact ⟨h, emits_nothing _⟩

/-- What the promises bring is a value that may be proposed. -/
theorem adopted_within {s : Sds} {l : List Promise} (hs : V s.bytes)
    (hl : ∀ p ∈ l, 0 < p.t → V p.value) : V (adopted s (best l)).bytes := by
  cases hbest : best l with
  | none => exact hs
  | some p =>
      by_cases ht : 0 < p.t
      · rw [adopted_bytes s ht]
        exact hl p (best_mem hbest).1 ht
      · rw [adopted, if_neg ht]
        exact hs

/-- The proposer takes promises and acceptances. -/
theorem Sound.reply {ctx : Ctx} (h : Sound V ctx) (src : Nat) {msg : Msg}
    (htry : V ctx.valueTry.bytes) (hmsg : 0 < msg.proposalid → V msg.value) :
    let eff := nodeStep ctx (.reply src msg)
    Sound V eff.ctx ∧ Emits V eff ∧ V eff.ctx.valueTry.bytes := by
  show Sound V (epollHandlePaxosNodeFdIo ctx src msg).1 ∧ Emits V
    ⟨(epollHandlePaxosNodeFdIo ctx src msg).1, [], [], none,
      (epollHandlePaxosNodeFdIo ctx src msg).2⟩
    ∧ V (epollHandlePaxosNodeFdIo ctx src msg).1.valueTry.bytes
  rcases nodeFdIo_cases ctx src msg with ⟨-, -, hr⟩ | ⟨-, -, hr⟩ | ⟨-, -, hr⟩
  · have hspec := countSuccess_spec ctx
    obtain ⟨nodes, hframe⟩ := hspec.frame
    have hqueue : ∀ q ∈ queue (countSuccess ctx).1, Proposal q.msg → V q.msg.value := by
      intro q hq hprop
      rcases hspec.queued q hq with hold | ⟨-, hnew, -⟩
      · exact h.requests q hold hprop
      · rw [hnew]
        exact htry
    rw [hr]
    refine ⟨⟨?_, ?_, hqueue, ?_⟩, ⟨(fun p hp => nomatch hp), (fun r hr => nomatch hr),
      (fun _ _ _ heq => nomatch heq), fun rep hrep => ?_⟩, ?_⟩
    · rw [hframe]
      exact h.store
    · rw [hframe]
      exact h.promises
    · rw [hframe]
      exact h.replies
    · rw [(hspec.report rep hrep).2]
      exact htry
    · rw [hframe]
      exact htry
  · have hspec := countPromise_spec ctx src msg
    obtain ⟨_, _, _, _, hframe⟩ := hspec.frame
    have hlist : ∀ p ∈ (countPromise ctx src msg).proposeOkList, 0 < p.t → V p.value := by
      intro p hp
      rcases List.mem_append.mp (hspec.perm.mem_iff.mp hp) with hold | hnew
      · exact h.promises p hold
      · rw [List.mem_singleton.mp hnew]
        exact hmsg
    have htry' : V (countPromise ctx src msg).valueTry.bytes := by
      rcases Nat.lt_or_ge (ctx.nNodes / 2) (ctx.nProposeOk + 1) with hlt | hge
      · rw [(hspec.quorum hlt).1]
        exact adopted_within htry hlist
      · rw [(hspec.early hge).1]
        exact htry
    have hqueue : ∀ q ∈ queue (countPromise ctx src msg), Proposal q.msg → V q.msg.value := by
      intro q hq hprop
      rcases Nat.lt_or_ge (ctx.nNodes / 2) (ctx.nProposeOk + 1) with hlt | hge
      · rcases (hspec.quorum hlt).2 q hq with hold | ⟨hnew, -, -⟩
        · exact h.requests q hold hprop
        · rw [hnew]
          exact htry'
      · exact h.requests q ((hspec.early hge).2 q hq) hprop
    rw [hr]
    refine ⟨⟨?_, hlist, hqueue, ?_⟩, emits_nothing _, htry'⟩
    · rw [hframe]
      exact h.store
    · rw [hframe]
      exact h.replies
  · rw [hr]
    exact ⟨h, emits_nothing _, htry⟩

/-- Writing the queues. -/
theorem Sound.beforeWait {ctx : Ctx} (h : Sound V ctx) {env : WriteEnv}
    (hstale : ∀ j k v, V v → V (env.stale j k v))
    (hstaleReply : ∀ k v, V v → V (env.staleReply k v)) :
    Sound V (nodeStep ctx (.beforeWait env)).ctx ∧ Emits V (nodeStep ctx (.beforeWait env)) := by
  obtain ⟨hkept, hsent⟩ := @mem_epollBeforeWait ctx env
  refine ⟨⟨h.store, h.promises, fun q hq => h.requests q (hkept q hq),
    fun q hq => h.replies q (mem_writeQueue.1 q hq)⟩, fun p hp hprop => ?_, fun r hr hpos => ?_,
    (fun _ _ _ heq => nomatch heq), fun rep heq => nomatch heq⟩
  · obtain ⟨q, hq, j, k, hmsg, -⟩ := hsent p hp
    rw [hmsg] at hprop ⊢
    refine pack_within (hstale j k) (h.requests q hq ?_)
    rwa [Proposal, (pack_header ..).1] at hprop
  · obtain ⟨q, hq, k, hmsg, -⟩ := mem_writeQueue.2 r hr
    rw [hmsg] at hpos ⊢
    refine pack_within (hstaleReply k) (h.replies q hq ?_)
    rwa [(pack_header ..).2] at hpos

/-- The client asks. -/
theorem Sound.echo {ctx : Ctx} (h : Sound V ctx) {str : Value} (hstr : V str) :
    Sound V (paxosEcho ctx str) ∧ V (paxosEcho ctx str).valueTry.bytes := by
  refine ⟨⟨fun hpos => absurd hpos (Nat.lt_irrefl 0), (fun p hp => nomatch hp),
    fun q hq hprop => ?_, fun q hq => nomatch hq⟩, ?_⟩
  · rcases mem_queueRequest hq with hold | ⟨hmsg, -, -⟩
    · exact h.requests q hold hprop
    · rw [hmsg] at hprop
      rcases hprop with hthree | hfive
      · exact absurd hthree (show (1 : Nat) ≠ 3 by decide)
      · exact absurd hfive (show (1 : Nat) ≠ 5 by decide)
  · show V (sdscpylen ctx.valueTry str).bytes
    rw [bytes_sdscpylen]
    exact hstr

/-- **Every event of the node.** -/
theorem Sound.step {ctx : Ctx} (h : Sound V ctx) {e : Event} (he : Brings V ctx e) :
    Sound V (nodeStep ctx e).ctx ∧ Emits V (nodeStep ctx e) := by
  cases e with
  | echo str => exact ⟨(h.echo he).1, emits_nothing _⟩
  | recv src msg io => exact h.recv src he io
  | reply src msg =>
      obtain ⟨hsound, hemits, -⟩ := h.reply src he.1 he.2
      exact ⟨hsound, hemits⟩
  | beforeWait env => exact h.beforeWait he.1 he.2

/-- `value_try` stays in `V`, and an echo takes it there. -/
theorem Sound.step_try {ctx : Ctx} (h : Sound V ctx) {e : Event} (he : Brings V ctx e)
    (htry : V ctx.valueTry.bytes ∨ ∃ str, e = .echo str) :
    V (nodeStep ctx e).ctx.valueTry.bytes := by
  cases e with
  | echo str => exact (h.echo he).2
  | recv src msg io =>
      obtain ⟨_, _, _, _, hframe⟩ := fdIo_frame ctx src msg io
      show V (epollHandlePaxosFdIo ctx src msg io).1.valueTry.bytes
      rw [hframe]
      exact htry.resolve_right fun ⟨_, heq⟩ => nomatch heq
  | reply src msg => exact (h.reply src he.1 he.2).2.2
  | beforeWait env => exact htry.resolve_right fun ⟨_, heq⟩ => nomatch heq

/-! ## The cluster -/

variable (V) in
/-- A node has been asked for a value of `V`, or it has never sent a request. -/
def Spoken (h : Host) : Prop :=
  (h.sent = [] ∧ queue h.ctx = []) ∨ V h.ctx.valueTry.bytes

variable (V) in
structure Valid (N : Nat) (s : Cluster) : Prop where
  sound : ∀ i < N, Sound V (s.host i).ctx
  spoken : ∀ i < N, Spoken V (s.host i)
  sent : ∀ i < N, ∀ p ∈ (s.host i).sent, Proposal p.msg → V p.msg.value
  promised : ∀ i < N, ∀ src t, Act.promise src t ∈ (s.host i).acts → (s.host src).sent ≠ []
  accepted : ∀ i < N, ∀ src b v, Act.accept src b v ∈ (s.host i).acts → V v
  chosen : ∀ i < N, ∀ rep ∈ (s.host i).chosen, V rep.value
  replies : ∀ r ∈ s.replies, 0 < r.msg.proposalid → V r.msg.value

/-- A node that gets a reply has asked. -/
theorem Valid.spoken_of_reply {N : Nat} {s : Cluster} (h : Valid V N s) (hb : Base N s)
    {r : Packet} (hr : r ∈ s.replies) : V (s.host r.dst).ctx.valueTry.bytes := by
  have hsent : (s.host r.dst).sent ≠ [] := by
    obtain ⟨hsrc, ⟨-, hact⟩ | ⟨-, v, hact⟩⟩ := hb.wire.replies r hr
    · exact h.promised r.src hsrc _ _ hact
    · obtain ⟨-, p, hp, -⟩ := hb.wire.accepts r.src hsrc _ _ _ hact
      exact List.ne_nil_of_mem hp
  exact (h.spoken r.dst (hb.reply_dst hr)).resolve_left fun hnil => hsent hnil.1

/-- A step of the cluster brings the node what it may. -/
theorem Valid.brings {N : Nat} {s s₀ : Cluster} (h : Valid V N s) (hb : Base N s) {l : Label}
    (hl : Within V l) {i : Nat} {e : Event} (hcause : Causes s l s₀ i e) :
    Brings V (s₀.host i).ctx e := by
  cases hcause with
  | echo i str => exact hl
  | recv p io hp =>
      obtain ⟨hsrc, hsent⟩ := hb.wire.requests p hp
      exact h.sent p.src hsrc p hsent
  | reply r hr => exact ⟨h.spoken_of_reply hb hr, h.replies r hr⟩
  | beforeWait i env => exact hl

theorem Valid.take {N : Nat} {s s' : Cluster} (h : Valid V N s) (ht : Taken s s') :
    Valid V N s' := by
  obtain ⟨hhost, -, hreplies⟩ := ht
  refine ⟨?_, ?_, ?_, ?_, ?_, ?_, fun r hr => h.replies r (hreplies.subset hr)⟩
  · exact hhost ▸ h.sound
  · exact hhost ▸ h.spoken
  · exact hhost ▸ h.sent
  · exact hhost ▸ h.promised
  · exact hhost ▸ h.accepted
  · exact hhost ▸ h.chosen

/-- The node that takes the step has spoken afterwards, or is still silent. -/
theorem Spoken.step {h : Host} (hs : Spoken V h) (hsound : Sound V h.ctx) {e : Event}
    (he : Brings V h.ctx e) : Spoken V (hostStep h e) := by
  rcases hs with ⟨hsent, hqueue⟩ | htry
  · cases e with
    | echo str => exact Or.inr (hsound.step_try he (Or.inr ⟨str, rfl⟩))
    | recv src msg io =>
        obtain ⟨_, _, _, _, hframe⟩ := fdIo_frame h.ctx src msg io
        refine Or.inl ⟨?_, ?_⟩
        · show h.sent ++ [] = []
          rw [hsent, List.append_nil]
        · show queue (epollHandlePaxosFdIo h.ctx src msg io).1 = []
          rw [hframe]
          exact hqueue
    | reply src msg => exact Or.inr (hsound.step_try he (Or.inl he.1))
    | beforeWait env =>
        obtain ⟨hkept, hout⟩ := @mem_epollBeforeWait h.ctx env
        rw [hqueue] at hkept hout
        refine Or.inl ⟨?_, List.eq_nil_iff_forall_not_mem.mpr fun q hq => nomatch hkept q hq⟩
        show h.sent ++ (epollBeforeWait h.ctx env).2.1 = []
        rw [hsent, List.nil_append]
        refine List.eq_nil_iff_forall_not_mem.mpr fun p hp => ?_
        obtain ⟨q, hq, -⟩ := hout p hp
        exact nomatch hq
  · exact Or.inr (hsound.step_try he (Or.inl htry))

/-- **One step at one node.** -/
theorem Valid.act {N : Nat} {s : Cluster} (h : Valid V N s) {i : Nat} (hi : i < N) {e : Event}
    (hsrc : Sourced N s i e) (he : Brings V (s.host i).ctx e) : Valid V N (s.act i e) := by
  obtain ⟨hsound, hemits⟩ := (h.sound i hi).step he
  have hother : ∀ k, k ≠ i → (s.act i e).host k = s.host k := fun k hk => act_host_ne s i e hk
  have hself : (s.act i e).host i = hostStep (s.host i) e := act_host_self ..
  -- a field of every host holds afterwards if it holds of the one that took the step
  have hall : ∀ P : Host → Prop, (∀ k < N, P (s.host k)) → P (hostStep (s.host i) e) →
      ∀ k < N, P ((s.act i e).host k) := by
    intro P hold hnew k hk
    by_cases hki : k = i
    · rw [hki, hself]
      exact hnew
    · rw [hother k hki]
      exact hold k hk
  refine ⟨?_, ?_, ?_, ?_, ?_, ?_, ?_⟩
  · exact hall (fun h => Sound V h.ctx) h.sound hsound
  · exact hall (Spoken V) h.spoken ((h.spoken i hi).step (h.sound i hi) he)
  · refine hall (fun h => ∀ p ∈ h.sent, Proposal p.msg → V p.msg.value) h.sent fun p hp => ?_
    rcases List.mem_append.mp hp with hold | hnew
    · exact h.sent i hi p hold
    · exact hemits.requests p hnew
  · intro k hk src t hmem hnil
    have hsub := act_sent_subset s i e src
    rw [hnil] at hsub
    rcases mem_act_acts s i e hmem with hold | ⟨rfl, hact⟩
    · exact h.promised k hk src t hold (List.subset_nil.mp hsub)
    · obtain ⟨_, _, _, rfl, ⟨-, -, heq⟩ | ⟨-, -, heq⟩⟩ := nodeStep_act hact
      · obtain ⟨rfl, -⟩ := Act.promise.inj heq
        obtain ⟨-, p, hp, -⟩ := hsrc
        exact nomatch hsub hp
      · exact nomatch heq
  · refine hall (fun h => ∀ src b v, Act.accept src b v ∈ h.acts → V v) h.accepted ?_
    intro src b v hmem
    rcases List.mem_append.mp hmem with hold | hnew
    · exact h.accepted i hi src b v hold
    · exact hemits.act src b v (Option.mem_toList.mp hnew)
  · refine hall (fun h => ∀ rep ∈ h.chosen, V rep.value) h.chosen fun rep hmem => ?_
    rcases List.mem_append.mp hmem with hold | hnew
    · exact h.chosen i hi rep hold
    · exact hemits.report rep (Option.mem_toList.mp hnew)
  · intro r hr
    rcases List.mem_append.mp hr with hold | hnew
    · exact h.replies r hold
    · exact hemits.replies r hnew

theorem Valid.step {N : Nat} {s s' : Cluster} (h : Valid V N s) (hb : Base N s) {l : Label}
    (hl : Within V l) (hstep : clusterStep N s l = some s') : Valid V N s' := by
  obtain ⟨s₀, i, e, hcause, hi, hsrc, rfl⟩ := hb.step_cases hstep
  exact (h.take hcause.taken).act hi hsrc (h.brings hb hl hcause)

theorem valid_init (N : Nat) : Valid V N (clusterInit N) := by
  refine ⟨fun i _ => ?_, fun i _ => Or.inl ⟨rfl, queue_paxosInit i (peers N i)⟩,
    (fun _ _ p hp => nomatch hp), (fun _ _ _ _ h => nomatch h), (fun _ _ _ _ _ h => nomatch h),
    (fun _ _ rep h => nomatch h), fun r hr => nomatch hr⟩
  refine ⟨fun h => absurd h (Nat.lt_irrefl 0), (fun p hp => nomatch hp), fun q hq => ?_,
    fun q hq => nomatch hq⟩
  have hq' : q ∈ queue (paxosInit i (peers N i)) := hq
  rw [queue_paxosInit] at hq'
  exact nomatch hq'

/-- **No value comes from nowhere.**  In every run, whatever is lost, delayed or reordered: the
    values that are proposed, accepted, stored with a proposal or reported as chosen are in any
    set `V` that has all values the clients ask for, and in which the buffers stay. -/
theorem validity (V : Value → Prop) (N : Nat) (ls : List Label) (s : Cluster)
    (hrun : clusterRun N (clusterInit N) ls = some s) (hls : ∀ l ∈ ls, Within V l) :
    ∀ i < N, (∀ rep ∈ (s.host i).chosen, V rep.value)
      ∧ (∀ src b v, Act.accept src b v ∈ (s.host i).acts → V v)
      ∧ (∀ p ∈ (s.host i).sent, p.msg.flag = 3 ∨ p.msg.flag = 5 → V p.msg.value)
      ∧ (0 < (s.host i).ctx.tStore → V (s.host i).ctx.valueStore.bytes) := by
  have hend : Base N s ∧ Valid V N s := by
    refine @clusterRun_invariant N _ (fun s => Base N s ∧ Valid V N s)
      (fun s l s' hI hl hs => ⟨hI.1.step hs, hI.2.step hI.1 hl.2 hs⟩)
      ls _ s ⟨base_init N, valid_init N⟩ ((allSteps_true N ls _).and_forall hls) hrun
  exact fun i hi => ⟨hend.2.chosen i hi, hend.2.accepted i hi, hend.2.sent i hi,
    (hend.2.sound i hi).store⟩

/-- One client asks three nodes for the value 97. -/
theorem validity_three :
    ∃ s, clusterRun 3 (clusterInit 3) (preparedBy 0 [1, 2] 1 [97] ++ promisedTo 0 [1, 2] 1 0 []
        ++ proposedBy 0 [1, 2] 1 [97] ++ acceptedTo 0 [1, 2] 1 [97]) = some s ∧
      ∀ i < 3, (∀ rep ∈ (s.host i).chosen, rep.value = [97])
        ∧ (∀ src b v, Act.accept src b v ∈ (s.host i).acts → v = [97])
        ∧ (∀ p ∈ (s.host i).sent, p.msg.flag = 3 ∨ p.msg.flag = 5 → p.msg.value = [97])
        ∧ (0 < (s.host i).ctx.tStore → (s.host i).ctx.valueStore.bytes = [97]) := by
  refine ⟨_, rfl, validity (· = [97]) 3 (preparedBy 0 [1, 2] 1 [97] ++ promisedTo 0 [1, 2] 1 0 []
    ++ proposedBy 0 [1, 2] 1 [97] ++ acceptedTo 0 [1, 2] 1 [97]) _ rfl ?_⟩
  simp [preparedBy, promisedTo, proposedBy, acceptedTo, Within, allSent]

end Paxos
