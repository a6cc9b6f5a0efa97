import CppTest.PaxosQuorumProofs

/-! # A proposer that is alone gets its value chosen

    Safety says nothing about a cluster that does nothing.  Here one node takes up a value, from
    a state at rest, no other node takes one up, and `sendto` gives no datagram up.  The order is
    still free, what has to wait waits as long as it likes.  The peers have accepted nothing
    before, or, with `again`, all of them the value of the rounds before.

    * `Asked`, `Answered`: a request to a node, or a reply of it, is queued or on its way.
    * `Alone`: what holds in every state of such a run.  For each peer, what has not happened yet
      is going to be caused by something that is still asked or answered.
    * `lossless_echo_chosen`: so when the cluster has come to rest again, all peers have accepted
      the value, and the proposer has reported it, and nothing else.
    * `first_value_stays`: every round behind it reports that value too, and not its own.

    Three nodes are needed.  A proposer does not count itself, so it has to hear from more than
    half of the nodes among its peers, and the single peer of a pair is not enough. -/

namespace Paxos

/-! ## Nothing is lost -/

/-- `sendto` sends now or later. -/
def Lossless : Label → Prop
  | .echo _ _ => False
  | .recv _ io => io ≠ .failed
  | .reply _ => True
  | .beforeWait _ env => (∀ a k, env.sendTo a k ≠ .failed) ∧ ∀ k, env.sendReplyTo k ≠ .failed

/-- What a pass over a queue does not keep it sends. -/
theorem writeQueue_lossless {src gen : Nat} {sendTo : Nat → SendTo} {stale : Nat → Value → Value}
    (hsend : ∀ k, sendTo k ≠ .failed) : ∀ (k : Nat) (qs : List Queued), ∀ q ∈ qs,
      q ∈ (writeQueue src gen sendTo stale k qs).1 ∨
      ∃ p ∈ (writeQueue src gen sendTo stale k qs).2,
        p.src = src ∧ p.dst = q.dst ∧ p.msg.flag = q.msg.flag := by
  intro k qs
  induction qs generalizing k with
  | nil => exact List.forall_mem_nil _
  | cons q₀ qs ih =>
      intro q hq
      simp only [writeQueue]
      have hrest := ih (k + 1) q
      cases hk : sendTo k with
      | sent =>
          rcases List.mem_cons.mp hq with rfl | hq
          · exact Or.inr ⟨_, List.mem_cons_self, rfl, rfl, (pack_header ..).1⟩
          · rcases hrest hq with hkept | ⟨p, hp, hp'⟩
            · exact Or.inl hkept
            · exact Or.inr ⟨p, List.mem_cons_of_mem _ hp, hp'⟩
      | again =>
          rcases List.mem_cons.mp hq with rfl | hq
          · exact Or.inl List.mem_cons_self
          · rcases hrest hq with hkept | hsent
            · exact Or.inl (List.mem_cons_of_mem _ hkept)
            · exact Or.inr hsent
      | failed => exact absurd hk (hsend k)

/-- The same for all queues to the peers. -/
theorem epollBeforeWait_lossless {ctx : Ctx} {env : WriteEnv}
    (hsend : ∀ a k, env.sendTo a k ≠ .failed) : ∀ q ∈ queue ctx,
      q ∈ queue (epollBeforeWait ctx env).1 ∨
      ∃ p ∈ (epollBeforeWait ctx env).2.1, p.dst = q.dst ∧ p.msg.flag = q.msg.flag := by
  intro q hq
  obtain ⟨node, hnode, hq⟩ := List.mem_flatMap.mp hq
  simp only [queue, epollBeforeWait, paxosCtxWrite, List.mem_flatMap, List.mem_map]
  by_cases hconnect : env.connect node.addr = true
  · have hwrite : writeNode ctx env node = ({ node with
        oList := (writeQueue ctx.nodeId ctx.valueTry.gen (env.sendTo node.addr)
          (env.stale node.addr) 0 node.oList).1 }, (writeQueue ctx.nodeId ctx.valueTry.gen
          (env.sendTo node.addr) (env.stale node.addr) 0 node.oList).2) := if_pos hconnect
    rcases writeQueue_lossless (hsend node.addr) 0 node.oList q hq with hkept | ⟨p, hp, -, hp'⟩
    · exact Or.inl ⟨_, ⟨node, hnode, congrArg Prod.fst hwrite⟩, hkept⟩
    · exact Or.inr ⟨p, ⟨node, hnode, (congrArg Prod.snd hwrite) ▸ hp⟩, hp'⟩
  · exact Or.inl ⟨node, ⟨node, hnode, congrArg Prod.fst (if_neg hconnect)⟩, hq⟩

/-! ## What the proposer queues -/

/-- The peers, and which of them have `PAXOS_PROPOSE_OK`. -/
def marks (ctx : Ctx) : List (Nat × Bool) := ctx.nodes.map fun node => (node.addr, node.proposeOk)

theorem marks_queueRequest (ctx : Ctx) (flag : Nat) (sel : Node → Bool) :
    marks (queueRequest ctx flag sel) = marks ctx := by
  show (ctx.nodes.map _).map _ = _
  rw [List.map_map]
  refine List.map_congr_left fun node _ => ?_
  cases h : sel node <;> simp [h]

/-- What was queued stays so, and every peer that is selected is asked. -/
theorem queueRequest_asks (ctx : Ctx) (flag : Nat) (sel : Node → Bool) :
    queue ctx ⊆ queue (queueRequest ctx flag sel) ∧ ∀ node ∈ ctx.nodes, sel node = true →
      ∃ q ∈ queue (queueRequest ctx flag sel), q.dst = node.addr ∧ q.msg.flag = flag := by
  constructor
  · intro q hq
    obtain ⟨node, hnode, hq⟩ := List.mem_flatMap.mp hq
    refine List.mem_flatMap.mpr ⟨_, List.mem_map_of_mem hnode, ?_⟩
    cases hsel : sel node with
    | false => exact hq
    | true => exact List.mem_append_left _ hq
  · intro node hnode hsel
    refine ⟨⟨node.addr, requestMsg ctx flag, ctx.valueTry.gen, ctx.tTry⟩,
      List.mem_flatMap.mpr ⟨_, List.mem_map_of_mem hnode, ?_⟩, rfl, rfl⟩
    rw [hsel]
    exact List.mem_append_right _ (List.mem_singleton.mpr rfl)

/-- What a peer has stored before the round, and what its promise brings: nothing, or with `again`
    a proposal of the value that is going to be reported. -/
def Kept (again : Bool) (rep : Report) (t : Nat) (v : Value) : Prop :=
  if again then 0 < t ∧ v = rep.value else t = 0

/-- The proposer has the value of the round: its own if nothing is stored, else the one that a
    majority has promised. -/
def Settled (again : Bool) (ctx : Ctx) : Prop := again = true → ctx.nNodes / 2 < ctx.nProposeOk

/-- A request of the round that ends with this report, from the proposer in this state. -/
def Request (again : Bool) (rep : Report) (ctx : Ctx) (msg : Msg) : Prop :=
  msg.proposalid = rep.ballot ∧ (msg.flag = 1 ∨ Settled again ctx ∧ msg.value = rep.value)

/-- The proposer of the round. -/
structure Proposer (again : Bool) (rep : Report) (ctx : Ctx) : Prop where
  ballot : ctx.tTry = rep.ballot
  instanceId : ctx.instanceId = rep.instanceId
  value : Settled again ctx → ctx.valueTry.bytes = rep.value
  requests : ∀ q ∈ queue ctx,
    Request again rep ctx q.msg ∧ (q.msg.flag = 1 ∨ q.gen = ctx.valueTry.gen)
  promises : ∀ p ∈ ctx.proposeOkList, Kept again rep p.t p.value
  replies : ctx.oList = []

section Proposing
variable {again : Bool} {rep : Report} {ctx : Ctx}

theorem Request.mono {ctx' : Ctx} {msg : Msg} (h : Request again rep ctx msg)
    (hsettled : Settled again ctx → Settled again ctx') : Request again rep ctx' msg :=
  ⟨h.1, h.2.imp_right fun h => ⟨hsettled h.1, h.2⟩⟩

/-- The value that the proposer adopts, with the promise `m` the last one. -/
theorem adopted_kept {s : Sds} {l : List Promise} {m : Promise}
    (hl : ∀ p ∈ l ++ [m], Kept again rep p.t p.value) (hs : again = false → s.bytes = rep.value) :
    (adopted s (best (l ++ [m]))).bytes = rep.value
      ∧ (s.bytes = rep.value → adopted s (best (l ++ [m])) = s) := by
  obtain ⟨p, hbest⟩ : ∃ p, best (l ++ [m]) = some p := by
    rw [best_snoc]
    cases best l with
    | none => exact ⟨m, rfl⟩
    | some q =>
        by_cases hle : m.t ≤ q.t
        · exact ⟨q, if_pos hle⟩
        · exact ⟨m, if_neg hle⟩
  have hp := hl p (best_mem hbest).1
  rw [hbest]
  cases again with
  | true =>
      have hkept : 0 < p.t ∧ p.value = rep.value := hp
      refine ⟨(adopted_bytes s hkept.1).trans hkept.2, fun heq => adopted_eq fun q hq _ => ?_⟩
      rw [← Option.some.inj hq, hkept.2, heq]
  | false =>
      have hzero : p.t = 0 := hp
      have hsame : adopted s (some p) = s := by
        refine adopted_eq fun q hq ht => ?_
        rw [← Option.some.inj hq, hzero] at ht
        exact absurd ht (Nat.lt_irrefl 0)
      rw [hsame]
      exact ⟨hs rfl, fun _ => rfl⟩

theorem Proposer.queueRequest (h : Proposer again rep ctx) {flag : Nat}
    (hflag : flag = 1 ∨ Settled again ctx) (sel : Node → Bool) :
    Proposer again rep (queueRequest ctx flag sel) := by
  refine ⟨h.ballot, h.instanceId, h.value, fun q hq => ?_, h.promises, h.replies⟩
  rcases mem_queueRequest hq with hold | ⟨hmsg, hgen, -⟩
  · exact h.requests q hold
  · rw [hmsg]
    exact ⟨⟨h.ballot, hflag.imp id fun hs => ⟨hs, h.value hs⟩⟩, Or.inr hgen⟩

/-- **A promise.**  If the proposer has heard from enough nodes, it asks all those that it has
    ever heard from to accept. -/
theorem Proposer.countPromise (h : Proposer again rep ctx) (src : Nat) {msg : Msg}
    (hkept : Kept again rep msg.proposalid msg.value) :
    let ctx' := countPromise ctx src msg
    Proposer again rep ctx' ∧ queue ctx ⊆ queue ctx' ∧ (Settled again ctx → Settled again ctx')
      ∧ (∀ m ∈ marks ctx', m ∈ marks ctx ∧ m.1 ≠ src ∨ m.2 = true)
      ∧ (ctx.nNodes / 2 < ctx.nProposeOk + 1 → ∀ m ∈ marks ctx', m.2 = true →
          ∃ q ∈ queue ctx', q.dst = m.1 ∧ q.msg.flag = 3) := by
  let ctx₁ : Ctx := { ctx with
    nodes := ctx.nodes.map fun node =>
      if node.addr = src then { node with proposeOk := true } else node
    proposeOkList := ctx.proposeOkList ++ [⟨msg.proposalid, msg.value⟩]
    nProposeOk := ctx.nProposeOk + 1 }
  have hqueue : queue ctx₁ = queue ctx := queue_setOk ctx.nodes src
  have hsettled : Settled again ctx → Settled again ctx₁ :=
    fun hs ha => Nat.lt_succ_of_lt (hs ha)
  have hpromises : ∀ p ∈ ctx₁.proposeOkList, Kept again rep p.t p.value := by
    intro p hp
    rcases List.mem_append.mp hp with hp | hp
    · exact h.promises p hp
    · rw [List.mem_singleton.mp hp]
      exact hkept
  have hmarks : ∀ m ∈ marks ctx₁, m ∈ marks ctx ∧ m.1 ≠ src ∨ m.2 = true := by
    intro m hm
    obtain ⟨_, hnew, rfl⟩ := List.mem_map.mp hm
    obtain ⟨node, hnode, rfl⟩ := List.mem_map.mp hnew
    by_cases hsrc : node.addr = src
    · rw [if_pos hsrc]
      exact Or.inr rfl
    · rw [if_neg hsrc]
      exact Or.inl ⟨List.mem_map_of_mem hnode, hsrc⟩
  intro ctx'
  by_cases hquorum : ctx.nNodes / 2 < ctx.nProposeOk + 1
  · let ctx₂ : Ctx := { ctx₁ with
      proposeOkList := sortByT ctx₁.proposeOkList
      valueTry := adopted ctx.valueTry (best ctx₁.proposeOkList) }
    have hctx : ctx' = paxosPropose ctx₂ := by
      have hadopt : adoptMax ctx₁ = ctx₂ := adoptMax_eq ctx₁
      rw [← hadopt]
      exact if_pos hquorum
    obtain ⟨hvalue, hsame⟩ := adopted_kept hpromises fun ha => h.value fun ht =>
      absurd (ha.symm.trans ht) Bool.false_ne_true
    have hnow : Settled again ctx₂ := fun _ => hquorum
    have htwo : Proposer again rep ctx₂ := by
      refine ⟨h.ballot, h.instanceId, fun _ => hvalue, fun q hq => ?_, fun p hp => ?_, h.replies⟩
      · obtain ⟨hreq, hgen⟩ := h.requests q (hqueue ▸ hq)
        refine ⟨hreq.mono fun _ => hnow, ?_⟩
        rcases hreq.2 with hone | ⟨hs, -⟩
        · exact Or.inl hone
        · refine hgen.imp id fun hgen => hgen.trans ?_
          exact congrArg Sds.gen (hsame (h.value hs)).symm
      · exact hpromises p ((sortByT_perm _).mem_iff.mp hp)
    have hasks := queueRequest_asks ctx₂ 3 Node.proposeOk
    have hmarks' : marks ctx' = marks ctx₁ := by
      rw [hctx, paxosPropose, marks_queueRequest]
      rfl
    rw [hmarks', hctx]
    refine ⟨htwo.queueRequest (Or.inr hnow) _, ?_, fun _ => hnow, hmarks, fun _ m hm hok => ?_⟩
    · rw [← hqueue]
      exact hasks.1
    · obtain ⟨node, hnode, rfl⟩ := List.mem_map.mp hm
      exact hasks.2 node hnode hok
  · have hctx : ctx' = ctx₁ := if_neg hquorum
    have hback : Settled again ctx₁ → Settled again ctx := fun hs ha => absurd (hs ha) hquorum
    rw [hctx]
    refine ⟨⟨h.ballot, h.instanceId, fun hs => h.value (hback hs), fun q hq => ?_, hpromises,
      h.replies⟩, hqueue ▸ List.Subset.refl _, hsettled, hmarks, fun hlt => absurd hlt hquorum⟩
    obtain ⟨hreq, hgen⟩ := h.requests q (hqueue ▸ hq)
    exact ⟨hreq.mono hsettled, hgen⟩

/-- **An acceptance.**  If there are enough, the value is reported. -/
theorem Proposer.countSuccess (h : Proposer again rep ctx) (hsettled : Settled again ctx) :
    Proposer again rep (countSuccess ctx).1 ∧ queue ctx ⊆ queue (countSuccess ctx).1
      ∧ marks (countSuccess ctx).1 = marks ctx ∧ Settled again (countSuccess ctx).1
      ∧ (countSuccess ctx).2
        = if ctx.nNodes / 2 < ctx.nProposeSuccess + 1 then some rep else none := by
  let ctx₁ : Ctx := { ctx with nProposeSuccess := ctx.nProposeSuccess + 1 }
  have hone : Proposer again rep ctx₁ :=
    ⟨h.ballot, h.instanceId, h.value, h.requests, h.promises, h.replies⟩
  by_cases hquorum : ctx.nNodes / 2 < ctx.nProposeSuccess + 1
  · have hctx : Paxos.countSuccess ctx
        = (paxosExecute ctx₁, some ⟨ctx.instanceId, ctx.tTry, ctx.valueTry.bytes⟩) :=
      if_pos hquorum
    rw [hctx, if_pos hquorum, h.ballot, h.value hsettled, h.instanceId]
    exact ⟨hone.queueRequest (Or.inr hsettled) _, (queueRequest_asks ctx₁ 5 _).1,
      marks_queueRequest .., hsettled, rfl⟩
  · have hctx : Paxos.countSuccess ctx = (ctx₁, none) := if_neg hquorum
    rw [hctx, if_neg hquorum]
    exact ⟨hone, List.Subset.refl _, rfl, hsettled, rfl⟩

/-- Writing the queues: what is sent are requests of the round. -/
theorem Proposer.beforeWait (h : Proposer again rep ctx) (env : WriteEnv) :
    Proposer again rep (epollBeforeWait ctx env).1
      ∧ marks (epollBeforeWait ctx env).1 = marks ctx
      ∧ (∀ p ∈ (epollBeforeWait ctx env).2.1, p.src = ctx.nodeId ∧ Request again rep ctx p.msg)
      ∧ (epollBeforeWait ctx env).2.2 = [] := by
  obtain ⟨hkept, hsent⟩ := @mem_epollBeforeWait ctx env
  refine ⟨⟨h.ballot, h.instanceId, h.value, fun q hq => h.requests q (hkept q hq), h.promises, ?_⟩,
    ?_, fun p hp => ?_, ?_⟩
  · show (writeQueue _ _ _ _ 0 ctx.oList).1 = []
    rw [h.replies]
    rfl
  · show (ctx.nodes.map _).map _ = _
    rw [List.map_map]
    refine List.map_congr_left fun node _ => ?_
    show ((writeNode _ env node).1.addr, (writeNode _ env node).1.proposeOk) = _
    unfold writeNode
    split <;> rfl
  · obtain ⟨q, hq, _, _, hmsg, hsrc, -⟩ := hsent p hp
    obtain ⟨hreq, hgen⟩ := h.requests q hq
    refine ⟨hsrc, ?_⟩
    rw [hmsg]
    rcases hgen with hone | hgen
    · exact ⟨(pack_header ..).2.trans hreq.1, Or.inl ((pack_header ..).1.trans hone)⟩
    · rw [pack_eq hgen]
      exact hreq
  · show (writeQueue _ _ _ _ 0 ctx.oList).2 = []
    rw [h.replies]
    rfl

end Proposing

/-! ## What an acceptor answers -/

/-- What an acceptor in this state has answered: a promise with what it had stored before the
    round, or an acceptance. -/
def Reply (again : Bool) (rep : Report) (ctx : Ctx) (msg : Msg) : Prop :=
  ctx.tMax = rep.ballot ∧ ((msg.flag = 2 ∧ Kept again rep msg.proposalid msg.value) ∨
    (msg.flag = 4 ∧ msg.hasPreacceptid = true ∧ ctx.tStore = rep.ballot))

/-- A peer of the proposer `i`. -/
structure Acceptor (again : Bool) (i : Nat) (rep : Report) (ctx : Ctx) : Prop where
  bound : ctx.tMax ≤ rep.ballot
  stored : Kept again rep ctx.tStore ctx.valueStore.bytes ∨
    ctx.tMax = rep.ballot ∧ ctx.tStore = rep.ballot ∧ ctx.valueStore.bytes = rep.value
  replies : ∀ q ∈ ctx.oList, q.dst = i ∧ Reply again rep ctx q.msg
    ∧ (again = true → q.gen = ctx.valueStore.gen)
  requests : queue ctx = []

/-- A reply with this flag is queued, or among those just sent. -/
def Replies (r : Ctx × List Packet) (flag : Nat) : Prop :=
  (∃ q ∈ r.1.oList, q.msg.flag = flag) ∨ ∃ p ∈ r.2, p.msg.flag = flag

theorem sendReply_lossless (ctx : Ctx) (src ballot flag : Nat) {io : SendTo} (hio : io ≠ .failed) :
    ∃ oList out, sendReply ctx src ballot flag io = ({ ctx with oList := oList }, out)
      ∧ ctx.oList ⊆ oList
      ∧ (∀ q ∈ oList, q ∈ ctx.oList ∨
          q.dst = src ∧ q.msg = replyMsg ctx flag ∧ q.gen = ctx.valueStore.gen)
      ∧ (∀ p ∈ out, p.src = ctx.nodeId ∧ p.dst = src ∧ p.msg = replyMsg ctx flag)
      ∧ Replies ({ ctx with oList := oList }, out) flag := by
  cases io with
  | sent =>
      refine ⟨_, _, rfl, List.Subset.refl _, fun q hq => Or.inl hq, fun p hp => ?_, Or.inr ?_⟩
      · rw [List.mem_singleton.mp hp]
        exact ⟨rfl, rfl, rfl⟩
      · exact ⟨_, List.mem_singleton.mpr rfl, rfl⟩
  | again =>
      refine ⟨_, _, rfl, List.subset_append_left _ _, fun q hq => ?_, List.forall_mem_nil _,
        Or.inl ⟨_, List.mem_append_right _ (List.mem_singleton.mpr rfl), rfl⟩⟩
      rcases List.mem_append.mp hq with hold | hnew
      · exact Or.inl hold
      · rw [List.mem_singleton.mp hnew]
        exact Or.inr ⟨rfl, rfl, rfl⟩
  | failed => exact absurd rfl hio

/-- **What a request of the round does to an acceptor**, written out. -/
structure Takes (again : Bool) (i : Nat) (rep : Report) (ctx : Ctx) (flag : Nat)
    (r : Ctx × List Packet) : Prop where
  acceptor : Acceptor again i rep r.1
  sent : ∀ p ∈ r.2, p.src = ctx.nodeId ∧ p.dst = i ∧ Reply again rep r.1 p.msg
  kept : ctx.oList ⊆ r.1.oList
  tMax_le : ctx.tMax ≤ r.1.tMax
  promises : ctx.tMax < r.1.tMax → Replies r 2
  accepts : ctx.tStore ≠ r.1.tStore → flag = 3 ∧ Replies r 4
  prepared : flag = 1 → r.1.tMax = rep.ballot
  proposed : flag = 3 → ctx.tMax = rep.ballot → r.1.tStore = rep.ballot
  stays : ctx.tStore = rep.ballot → r.1.tStore = rep.ballot

section Accepting
variable {again : Bool} {i : Nat} {rep : Report} {ctx : Ctx}

theorem Reply.mono {ctx' : Ctx} {msg : Msg} (h : Reply again rep ctx msg)
    (hmax : ctx.tMax = rep.ballot → ctx'.tMax = rep.ballot)
    (hstore : ctx.tStore = rep.ballot → ctx'.tStore = rep.ballot) : Reply again rep ctx' msg :=
  ⟨hmax h.1, h.2.imp id fun h => ⟨h.1, h.2.1, hstore h.2.2⟩⟩

/-- The value of the round, written over what is stored, is what is stored. -/
theorem Acceptor.write (h : Acceptor again i rep ctx) {v : Value} (hv : v = rep.value) :
    (Kept again rep ctx.tStore ctx.valueStore.bytes →
        Kept again rep ctx.tStore (sdscpylen ctx.valueStore v).bytes)
      ∧ (again = true → (sdscpylen ctx.valueStore v).gen = ctx.valueStore.gen) := by
  rw [bytes_sdscpylen]
  cases again with
  | true =>
      have hsame : ctx.valueStore.bytes = rep.value := h.stored.elim (fun h => h.2) fun h => h.2.2
      refine ⟨fun hkept => ⟨hkept.1, hv⟩, fun _ => ?_⟩
      rw [hv, ← hsame, sdscpylen_self]
  | false => exact ⟨fun hkept => hkept, fun ha => absurd ha Bool.false_ne_true⟩

/-- **An acceptor answers**: it still is one, and the answer is queued or sent. -/
theorem Acceptor.reply (h : Acceptor again i rep ctx) {flag : Nat} {io : SendTo} {c : Ctx}
    {out : List Packet} (hmsg : Reply again rep ctx (replyMsg ctx flag)) (hio : io ≠ .failed)
    (hsend : sendReply ctx i rep.ballot flag io = (c, out)) :
    Acceptor again i rep c ∧ (∀ p ∈ out, p.src = ctx.nodeId ∧ p.dst = i ∧ Reply again rep c p.msg)
      ∧ ctx.oList ⊆ c.oList ∧ c.tMax = ctx.tMax ∧ c.tStore = ctx.tStore
      ∧ Replies (c, out) flag := by
  obtain ⟨oList, out', hsend', hsub, hqueued, hout, hreplies⟩ :=
    sendReply_lossless ctx i rep.ballot flag hio
  obtain ⟨rfl, rfl⟩ := Prod.mk.inj (hsend.symm.trans hsend')
  refine ⟨⟨h.bound, h.stored, fun q hq => ?_, h.requests⟩, fun p hp => ?_, hsub, rfl, rfl, hreplies⟩
  · rcases hqueued q hq with hold | ⟨hdst, hq', hgen⟩
    · exact h.replies q hold
    · exact ⟨hdst, hq' ▸ hmsg, fun _ => hgen⟩
  · obtain ⟨hsrc, hdst, hp'⟩ := hout p hp
    exact ⟨hsrc, hdst, hp' ▸ hmsg⟩

theorem Acceptor.recv (h : Acceptor again i rep ctx) {msg : Msg}
    (hballot : msg.proposalid = rep.ballot) (hvalue : msg.flag = 1 ∨ msg.value = rep.value)
    {io : SendTo} (hio : io ≠ .failed) :
    Takes again i rep ctx msg.flag ((epollHandlePaxosFdIo ctx i msg io).1,
      (epollHandlePaxosFdIo ctx i msg io).2.1) := by
  rcases fdIo_cases ctx i msg io with ⟨hflag, hr⟩ | ⟨hgt, hflag, c, out, hsend, hr⟩ |
    ⟨hmax, hflag, c, out, hsend, hr⟩ | hr
  · -- the chosen value
    obtain ⟨hkept, hgen⟩ := h.write (hvalue.resolve_left (by omega))
    rw [hr]
    have hacc : Acceptor again i rep
        { ctx with valueStore := sdscpylen ctx.valueStore msg.value } := by
      refine ⟨h.bound, ?_, fun q hq => ?_, h.requests⟩
      · refine h.stored.imp hkept fun hs => ⟨hs.1, hs.2.1, ?_⟩
        exact (bytes_sdscpylen ..).trans (hvalue.resolve_left (by omega))
      · obtain ⟨hdst, hreply, hq'⟩ := h.replies q hq
        exact ⟨hdst, hreply, fun ha => (hq' ha).trans (hgen ha).symm⟩
    exact ⟨hacc, List.forall_mem_nil _, List.Subset.refl _, Nat.le_refl _,
      fun hlt => absurd hlt (Nat.lt_irrefl _), fun hne => absurd rfl hne,
      fun h1 => absurd (h1.symm.trans hflag) (by decide),
      fun h3 => absurd (h3.symm.trans hflag) (by decide), fun hstore => hstore⟩
  · -- a promise
    rw [hballot] at hgt hsend
    have hold : Kept again rep ctx.tStore ctx.valueStore.bytes :=
      h.stored.resolve_right fun hs => by omega
    have hpromised : Acceptor again i rep { ctx with tMax := rep.ballot } := by
      refine ⟨Nat.le_refl _, Or.inl hold, fun q hq => ?_, h.requests⟩
      obtain ⟨hdst, hreply, hgen⟩ := h.replies q hq
      exact ⟨hdst, hreply.mono (fun _ => rfl) fun hstore => hstore, hgen⟩
    obtain ⟨hacc, hout, hsub, hmax, hstore, hreplies⟩ :=
      hpromised.reply ⟨rfl, Or.inl ⟨rfl, hold⟩⟩ hio hsend
    rw [hr]
    refine ⟨hacc, hout, hsub, ?_, fun _ => hreplies, fun hne => absurd hstore.symm hne,
      fun _ => hmax, fun h3 => absurd (h3.symm.trans hflag) (by decide), fun hs => hstore.trans hs⟩
    exact Nat.le_of_lt (hmax ▸ hgt)
  · -- an acceptance
    have hsame : msg.value = rep.value := hvalue.resolve_left (by omega)
    obtain ⟨-, hgen⟩ := h.write hsame
    rw [hballot] at hmax hsend
    have haccepted : Acceptor again i rep { ctx with
        tStore := rep.ballot
        valueStore := sdscpylen ctx.valueStore msg.value } := by
      refine ⟨h.bound, Or.inr ⟨hmax.symm, rfl, (bytes_sdscpylen ..).trans hsame⟩, fun q hq => ?_,
        h.requests⟩
      obtain ⟨hdst, hreply, hq'⟩ := h.replies q hq
      exact ⟨hdst, hreply.mono (fun hm => hm) fun _ => rfl,
        fun ha => (hq' ha).trans (hgen ha).symm⟩
    obtain ⟨hacc, hout, hsub, htMax, hstore, hreplies⟩ :=
      haccepted.reply ⟨hmax.symm, Or.inr ⟨rfl, rfl, rfl⟩⟩ hio hsend
    rw [hr]
    exact ⟨hacc, hout, hsub, Nat.le_of_eq htMax.symm,
      fun hlt => absurd hlt (Nat.not_lt_of_le (Nat.le_of_eq htMax)), fun _ => ⟨hflag, hreplies⟩,
      fun h1 => absurd (h1.symm.trans hflag) (by decide), fun _ _ => hstore, fun _ => hstore⟩
  · -- the request comes too late, or too early
    have hprepared : msg.flag = 1 → ctx.tMax = rep.ballot := by
      intro h1
      refine Nat.le_antisymm h.bound (Nat.le_of_not_lt fun hlt => ?_)
      rw [epollHandlePaxosFdIo, if_neg (by omega), if_pos ⟨by omega, h1⟩] at hr
      exact Option.some_ne_none _ (congrArg (fun r => r.2.2) hr)
    have hproposed : msg.flag = 3 → ctx.tMax ≠ rep.ballot := by
      intro h3 hmax
      rw [epollHandlePaxosFdIo, if_neg (by omega), if_neg (by omega),
        if_pos ⟨by omega, h3⟩] at hr
      exact Option.some_ne_none _ (congrArg (fun r => r.2.2) hr)
    rw [hr]
    exact ⟨h, List.forall_mem_nil _, List.Subset.refl _, Nat.le_refl _,
      fun hlt => absurd hlt (Nat.lt_irrefl _), fun hne => absurd rfl hne, hprepared,
      fun h3 hmax => absurd hmax (hproposed h3), fun hstore => hstore⟩

/-- Writing the replies. -/
theorem Acceptor.beforeWait (h : Acceptor again i rep ctx) {env : WriteEnv}
    (hsend : ∀ k, env.sendReplyTo k ≠ .failed) :
    Acceptor again i rep (epollBeforeWait ctx env).1 ∧ (epollBeforeWait ctx env).2.1 = []
      ∧ (∀ p ∈ (epollBeforeWait ctx env).2.2,
          p.src = ctx.nodeId ∧ p.dst = i ∧ Reply again rep ctx p.msg)
      ∧ ∀ q ∈ ctx.oList,
          Replies ((epollBeforeWait ctx env).1, (epollBeforeWait ctx env).2.2) q.msg.flag := by
  obtain ⟨hkept, hsent⟩ := @mem_epollBeforeWait ctx env
  refine ⟨⟨h.bound, h.stored, fun q hq => h.replies q (mem_writeQueue.1 q hq), ?_⟩, ?_,
    fun p hp => ?_, fun q hq => ?_⟩
  · refine List.eq_nil_iff_forall_not_mem.mpr fun q hq => ?_
    have hmem := hkept q hq
    rw [h.requests] at hmem
    exact List.not_mem_nil hmem
  · refine List.eq_nil_iff_forall_not_mem.mpr fun p hp => ?_
    obtain ⟨q, hq, -⟩ := hsent p hp
    rw [h.requests] at hq
    exact List.not_mem_nil hq
  · obtain ⟨q, hq, k, hmsg, hsrc, hdst, -⟩ := mem_writeQueue.2 p hp
    obtain ⟨hto, hreply, hgen⟩ := h.replies q hq
    refine ⟨hsrc, hdst.trans hto, ?_⟩
    rw [hmsg]
    cases again with
    | true =>
        rw [pack_eq (hgen rfl)]
        exact hreply
    | false =>
        -- a promise has nothing stored, whatever is found behind its pointer
        unfold pack
        split
        · exact hreply
        · exact hreply
  · rcases writeQueue_lossless hsend 0 ctx.oList q hq with hold | ⟨p, hp, -, -, hflag⟩
    · exact Or.inl ⟨q, hold, rfl⟩
    · exact Or.inr ⟨p, hp, hflag⟩

end Accepting

/-! ## The cluster -/

/-- A request with this flag waits at `i` for `j`, or is on its way. -/
def Asked (s : Cluster) (i j flag : Nat) : Prop :=
  (∃ q ∈ queue (s.host i).ctx, q.dst = j ∧ q.msg.flag = flag) ∨
  ∃ p ∈ s.requests, p.dst = j ∧ p.msg.flag = flag

/-- A reply of `j` with this flag waits, or is on its way. -/
def Answered (s : Cluster) (j flag : Nat) : Prop :=
  (∃ q ∈ (s.host j).ctx.oList, q.msg.flag = flag) ∨
  ∃ r ∈ s.replies, r.src = j ∧ r.msg.flag = flag

/-- From whom `i` has counted promises since the last `paxos_prepare`. -/
def heardFrom (h : Host) : List Nat := h.heard.map Prod.fst

/-- **One proposer and its round.**  `before` is what it has reported earlier. -/
structure Alone (again : Bool) (N i : Nat) (rep : Report) (before : List Report) (s : Cluster) :
    Prop where
  proposer : Proposer again rep (s.host i).ctx
  acceptors : ∀ j ∈ peers N i, Acceptor again i rep (s.host j).ctx
  requests : ∀ p ∈ s.requests, p.src = i ∧ Request again rep (s.host i).ctx p.msg
  replies : ∀ r ∈ s.replies, r.dst = i ∧ r.src ∈ peers N i
    ∧ Reply again rep (s.host r.src).ctx r.msg
  heard : ∀ j ∈ heardFrom (s.host i), (s.host j).ctx.tMax = rep.ballot
  marked : ∀ m ∈ marks (s.host i).ctx, m.1 ∈ heardFrom (s.host i) → m.2 = true
  prepared : ∀ j ∈ peers N i, (s.host j).ctx.tMax < rep.ballot → Asked s i j 1
  promised : ∀ j ∈ peers N i, (s.host j).ctx.tMax = rep.ballot →
    Answered s j 2 ∨ j ∈ heardFrom (s.host i)
  proposed : peers N i ⊆ heardFrom (s.host i) → ∀ j ∈ peers N i,
    (s.host j).ctx.tStore ≠ rep.ballot → Asked s i j 3
  accepted : ∀ j ∈ peers N i, (s.host j).ctx.tStore = rep.ballot →
    Answered s j 4 ∨ j ∈ (s.host i).counted
  settled : ∀ j ∈ peers N i, (s.host j).ctx.tStore = rep.ballot → Settled again (s.host i).ctx
  reported : ∃ k, (s.host i).chosen = before ++ List.replicate k rep
    ∧ (peers N i ⊆ (s.host i).counted → 0 < k)

/-- The proposer has heard of, or counted, all its peers: that is more than half of the nodes. -/
theorem Base.majority {N : Nat} {s : Cluster} (hb : Base N s) (hN : 3 ≤ N) {i : Nat} (hi : i < N)
    {l : List Nat} (hall : peers N i ⊆ l) : (s.host i).ctx.nNodes / 2 < l.length := by
  have hle : (peers N i).length ≤ l.length :=
    (List.subperm_of_subset (List.nodup_range.filter _) hall).length_le
  have hlen := length_peers hi
  rw [(hb.node i hi).nNodes]
  omega

/-- Taking a request leaves the other nodes alone, and the other requests where they are. -/
theorem recv_others {i : Nat} {s s' : Cluster} {p : Packet} {io : SendTo} (hne : p.dst ≠ i)
    (hs' : s' = { s with requests := s.requests.erase p }.act p.dst (.recv p.src p.msg io)) :
    let r := epollHandlePaxosFdIo (s.host p.dst).ctx p.src p.msg io
    (∀ k, k ≠ p.dst → s'.host k = s.host k) ∧ (s'.host p.dst).ctx = r.1
      ∧ s'.requests = s.requests.erase p ∧ s'.replies = s.replies ++ r.2.1
      ∧ ∀ k f, k ≠ p.dst ∨ f ≠ p.msg.flag → Asked s i k f → Asked s' i k f := by
  have hother : ∀ k, k ≠ p.dst → s'.host k = s.host k := by
    intro k hk
    rw [hs', act_host_ne _ _ _ hk]
  have hrequests : s'.requests = s.requests.erase p := by
    rw [hs']
    exact List.append_nil _
  refine ⟨hother, ?_, hrequests, ?_, ?_⟩
  · rw [hs', act_host_self]
    rfl
  · rw [hs']
    rfl
  · rintro k f hkf (⟨q, hq, hq'⟩ | ⟨p', hp', hdst, hflag⟩)
    · exact Or.inl ⟨q, (hother i hne.symm) ▸ hq, hq'⟩
    · refine Or.inr ⟨p', ?_, hdst, hflag⟩
      rw [hrequests]
      refine (List.mem_erase_of_ne ?_).mpr hp'
      rintro rfl
      exact hkf.elim (fun hk => hk hdst.symm) fun hf => hf hflag.symm

/-- Counting a reply leaves the peers alone, and the other replies on their way. -/
theorem reply_others {N i : Nat} {s s' : Cluster} {r : Packet}
    (hs' : s' = { s with replies := s.replies.erase r }.act i (.reply r.src r.msg)) :
    (∀ k, k ≠ i → s'.host k = s.host k) ∧ s'.requests = s.requests
      ∧ (∀ k, (s'.host k).ctx.tMax = (s.host k).ctx.tMax)
      ∧ (∀ r' ∈ s'.replies, r' ∈ s.replies)
      ∧ ∀ k ∈ peers N i, ∀ f, Answered s k f → Answered s' k f ∨ k = r.src ∧ f = r.msg.flag := by
  have hother : ∀ k, k ≠ i → s'.host k = s.host k := by
    intro k hk
    rw [hs', act_host_ne _ _ _ hk]
  have hreplies : s'.replies = s.replies.erase r := by
    rw [hs']
    exact List.append_nil _
  refine ⟨hother, ?_, fun k => ?_, fun r' hr' => ?_, ?_⟩
  · rw [hs']
    exact List.append_nil _
  · by_cases hk : k = i
    · obtain ⟨_, _, _, _, _, hframe⟩ := nodeFdIo_frame (s.host i).ctx r.src r.msg
      rw [hk, hs', act_host_self]
      show (epollHandlePaxosNodeFdIo (s.host i).ctx r.src r.msg).1.tMax = _
      rw [hframe]
    · rw [hother k hk]
  · rw [hreplies] at hr'
    exact List.mem_of_mem_erase hr'
  · rintro k hk f (⟨q, hq, hflag⟩ | ⟨r', hr', hsrc, hflag⟩)
    · refine Or.inl (Or.inl ⟨q, ?_, hflag⟩)
      rw [hother k (mem_peers.mp hk).2]
      exact hq
    · by_cases heq : r' = r
      · rw [← heq]
        exact Or.inr ⟨hsrc.symm, hflag.symm⟩
      · refine Or.inl (Or.inr ⟨r', ?_, hsrc, hflag⟩)
        rw [hreplies]
        exact (List.mem_erase_of_ne heq).mpr hr'

/-- A promise, at the proposer: the sender has been heard from. -/
theorem hostStep_promise (hst : Host) (src : Nat) {msg : Msg} (hflag : msg.flag = 2) :
    (hostStep hst (.reply src msg)).ctx = countPromise hst.ctx src msg
      ∧ heardFrom (hostStep hst (.reply src msg)) = heardFrom hst ++ [src]
      ∧ (hostStep hst (.reply src msg)).counted = hst.counted
      ∧ (hostStep hst (.reply src msg)).chosen = hst.chosen := by
  have hnot4 : (msg.hasPreacceptid && msg.flag == 4) = false := by
    rw [hflag]
    exact Bool.and_false _
  have hio : epollHandlePaxosNodeFdIo hst.ctx src msg = (countPromise hst.ctx src msg, none) := by
    rw [epollHandlePaxosNodeFdIo, hnot4, if_neg Bool.false_ne_true, if_pos hflag]
  refine ⟨congrArg Prod.fst hio, ?_, ?_, ?_⟩
  · show (heardAfter _ (.reply src msg)).map Prod.fst = _
    rw [heardAfter, if_pos hflag, List.map_append]
    rfl
  · show countedAfter _ (.reply src msg) = _
    rw [countedAfter, hnot4, if_neg Bool.false_ne_true]
  · show _ ++ (epollHandlePaxosNodeFdIo hst.ctx src msg).2.toList = _
    rw [hio]
    exact List.append_nil _

/-- An acceptance: the sender has been counted. -/
theorem hostStep_success (hst : Host) (src : Nat) {msg : Msg} (hflag : msg.flag = 4)
    (hpre : msg.hasPreacceptid = true) :
    (hostStep hst (.reply src msg)).ctx = (countSuccess hst.ctx).1
      ∧ heardFrom (hostStep hst (.reply src msg)) = heardFrom hst
      ∧ (hostStep hst (.reply src msg)).counted = hst.counted ++ [src]
      ∧ (hostStep hst (.reply src msg)).chosen
        = hst.chosen ++ (countSuccess hst.ctx).2.toList := by
  have h4 : (msg.hasPreacceptid && msg.flag == 4) = true := by
    rw [hpre, hflag]
    rfl
  have hnot2 : msg.flag ≠ 2 := by omega
  have hio : epollHandlePaxosNodeFdIo hst.ctx src msg = countSuccess hst.ctx := by
    rw [epollHandlePaxosNodeFdIo, h4, if_pos rfl]
  refine ⟨congrArg Prod.fst hio, ?_, ?_, ?_⟩
  · show (heardAfter _ (.reply src msg)).map Prod.fst = _
    rw [heardAfter, if_neg hnot2]
    rfl
  · show countedAfter _ (.reply src msg) = _
    rw [countedAfter, h4, if_pos rfl]
  · show _ ++ (epollHandlePaxosNodeFdIo hst.ctx src msg).2.toList = _
    rw [hio]

/-- **A step of a peer**: what is promised, stored or answered stays so, and what is new is
    answered.  `flag` is that of the request, if there is one. -/
structure Onward (rep : Report) (flag : Nat) (s s' : Cluster) : Prop where
  tMax_le : ∀ k, (s.host k).ctx.tMax ≤ (s'.host k).ctx.tMax
  promised : ∀ k, (s.host k).ctx.tMax = rep.ballot → (s'.host k).ctx.tMax = rep.ballot
  stored : ∀ k, (s.host k).ctx.tStore = rep.ballot → (s'.host k).ctx.tStore = rep.ballot
  answered : ∀ k f, Answered s k f → Answered s' k f
  promises : ∀ k, (s.host k).ctx.tMax = (s'.host k).ctx.tMax ∨ Answered s' k 2
  accepts : ∀ k, (s.host k).ctx.tStore = (s'.host k).ctx.tStore ∨ flag = 3 ∧ Answered s' k 4

theorem Takes.onward {again : Bool} {i j flag : Nat} {rep : Report} {s s' : Cluster}
    {r : Ctx × List Packet} (htakes : Takes again i rep (s.host j).ctx flag r)
    (hother : ∀ k, k ≠ j → s'.host k = s.host k) (hctx : (s'.host j).ctx = r.1)
    (hreplies : s'.replies = s.replies ++ r.2) (hid : (s.host j).ctx.nodeId = j) :
    Onward rep flag s s' := by
  have hnew : ∀ f, Replies r f → Answered s' j f := by
    rintro f (⟨q, hq, hflag⟩ | ⟨r', hr', hflag⟩)
    · exact Or.inl ⟨q, hctx ▸ hq, hflag⟩
    · exact Or.inr ⟨r', hreplies ▸ List.mem_append_right _ hr', (htakes.sent r' hr').1.trans hid,
        hflag⟩
  refine ⟨fun k => ?_, fun k hk => ?_, fun k hk => ?_, ?_, fun k => ?_, fun k => ?_⟩
  · by_cases hkj : k = j
    · subst hkj
      rw [hctx]
      exact htakes.tMax_le
    · rw [hother k hkj]
  · by_cases hkj : k = j
    · subst hkj
      rw [hctx]
      exact Nat.le_antisymm htakes.acceptor.bound (hk ▸ htakes.tMax_le)
    · rw [hother k hkj]
      exact hk
  · by_cases hkj : k = j
    · subst hkj
      rw [hctx]
      exact htakes.stays hk
    · rw [hother k hkj]
      exact hk
  · rintro k f (⟨q, hq, hflag⟩ | ⟨r', hr', hrest⟩)
    · refine Or.inl ⟨q, ?_, hflag⟩
      by_cases hkj : k = j
      · subst hkj
        rw [hctx]
        exact htakes.kept hq
      · rw [hother k hkj]
        exact hq
    · exact Or.inr ⟨r', hreplies ▸ List.mem_append_left _ hr', hrest⟩
  · by_cases hkj : k = j
    · subst hkj
      rw [hctx]
      rcases Nat.lt_or_eq_of_le htakes.tMax_le with hlt | hsame
      · exact Or.inr (hnew 2 (htakes.promises hlt))
      · exact Or.inl hsame
    · exact Or.inl (by rw [hother k hkj])
  · by_cases hkj : k = j
    · subst hkj
      rw [hctx]
      by_cases hsame : (s.host k).ctx.tStore = r.1.tStore
      · exact Or.inl hsame
      · exact Or.inr ((htakes.accepts hsame).imp id (hnew 4))
    · exact Or.inl (by rw [hother k hkj])

section Steps
variable {again : Bool} {N i : Nat} {rep : Report} {before : List Report} {s : Cluster}
  (h : Alone again N i rep before s) (hb : Base N s)
include h hb

theorem Alone.peer {p : Packet} (hp : p ∈ s.requests) : p.dst ∈ peers N i := by
  obtain ⟨hsrc, hsent⟩ := hb.wire.requests p hp
  rw [(h.requests p hp).1] at hsrc hsent
  exact (hb.node i hsrc).sent p hsent

omit hb in
/-- **A peer takes a step**: the proposer is as before, and what it has asked for and not got yet
    is asked for still. -/
theorem Alone.peerStep {s' : Cluster} {j flag : Nat} (hj : j ∈ peers N i)
    (hother : ∀ k, k ≠ j → s'.host k = s.host k) (hacc : Acceptor again i rep (s'.host j).ctx)
    (hon : Onward rep flag s s') (hflag : flag = 3 → Settled again (s.host i).ctx)
    (hrequests : s'.requests ⊆ s.requests)
    (hreplies : ∀ r ∈ s'.replies, r ∈ s.replies ∨
      r.src = j ∧ r.dst = i ∧ Reply again rep (s'.host j).ctx r.msg)
    (hprepare : ∀ k, (s'.host k).ctx.tMax < rep.ballot → Asked s i k 1 → Asked s' i k 1)
    (hpropose : ∀ k, (s.host k).ctx.tMax = rep.ballot → (s'.host k).ctx.tStore ≠ rep.ballot →
      Asked s i k 3 → Asked s' i k 3) : Alone again N i rep before s' := by
  have hi : s'.host i = s.host i := hother i (mem_peers.mp hj).2.symm
  refine ⟨hi ▸ h.proposer, fun k hk => ?_, fun p hp => ?_, fun r hr => ?_, ?_,
    hi ▸ h.marked, fun k hk hlt => ?_, fun k hk heq => ?_, ?_, fun k hk heq => ?_,
    fun k hk heq => ?_, hi ▸ h.reported⟩
  · by_cases hkj : k = j
    · exact hkj ▸ hacc
    · rw [hother k hkj]
      exact h.acceptors k hk
  · rw [hi]
    exact h.requests p (hrequests hp)
  · rcases hreplies r hr with hold | ⟨hsrc, hdst, hreply⟩
    · obtain ⟨hdst, hfrom, hreply⟩ := h.replies r hold
      exact ⟨hdst, hfrom, hreply.mono (hon.promised _) (hon.stored _)⟩
    · rw [hsrc]
      exact ⟨hdst, hj, hreply⟩
  · rw [hi]
    exact fun k hk => hon.promised k (h.heard k hk)
  · exact hprepare k hlt (h.prepared k hk (lt_of_le_of_lt (hon.tMax_le k) hlt))
  · rw [hi]
    rcases hon.promises k with hsame | hnew
    · exact (h.promised k hk (hsame.trans heq)).imp_left (hon.answered k 2)
    · exact Or.inl hnew
  · rw [hi]
    intro hall k hk hne
    refine hpropose k (h.heard k (hall hk)) hne (h.proposed hall k hk fun heq => ?_)
    exact hne (hon.stored k heq)
  · rw [hi]
    rcases hon.accepts k with hsame | ⟨-, hnew⟩
    · exact (h.accepted k hk (hsame.trans heq)).imp_left (hon.answered k 4)
    · exact Or.inl hnew
  · rw [hi]
    rcases hon.accepts k with hsame | ⟨h3, -⟩
    · exact h.settled k hk (hsame.trans heq)
    · exact hflag h3

/-- **A request arrives.** -/
theorem Alone.recv {p : Packet} (hp : p ∈ s.requests) {io : SendTo}
    (hio : io ≠ .failed) : Alone again N i rep before
      ({ s with requests := s.requests.erase p }.act p.dst (.recv p.src p.msg io)) := by
  obtain ⟨hsrc, hreq⟩ := h.requests p hp
  have hj := h.peer hb hp
  obtain ⟨hjN, hji⟩ := mem_peers.mp hj
  generalize hs' : ({ s with requests := s.requests.erase p } : Cluster).act p.dst
    (.recv p.src p.msg io) = s'
  obtain ⟨hother, hctx, hrequests, hreplies, hasked⟩ := @recv_others i s s' p io hji hs'.symm
  rw [hsrc] at hctx hreplies
  generalize hj₀ : p.dst = j at *
  let r : Ctx × List Packet := ((epollHandlePaxosFdIo (s.host j).ctx i p.msg io).1,
    (epollHandlePaxosFdIo (s.host j).ctx i p.msg io).2.1)
  have htakes : Takes again i rep (s.host j).ctx p.msg.flag r :=
    (h.acceptors j hj).recv hreq.1 (hreq.2.imp_right fun h => h.2) hio
  have hid := (hb.node j hjN).nodeId
  refine h.peerStep hj hother (hctx ▸ htakes.acceptor)
    (htakes.onward hother hctx hreplies hid) (fun h3 => (hreq.2.resolve_left (by omega)).1)
    (hrequests ▸ List.erase_subset) (fun r' hr' => ?_) (fun k hlt hasks => ?_)
    (fun k hmax hne hasks => ?_)
  · rw [hreplies] at hr'
    refine (List.mem_append.mp hr').imp_right fun hout => ?_
    obtain ⟨hfrom, hdst, hreply⟩ := htakes.sent r' hout
    exact ⟨hfrom.trans hid, hdst, hctx ▸ hreply⟩
  · by_cases hkj : k = j
    · subst hkj
      rw [hctx] at hlt
      exact hasked k 1 (Or.inr fun h1 => Nat.ne_of_lt hlt (htakes.prepared h1.symm)) hasks
    · exact hasked k 1 (Or.inl hkj) hasks
  · by_cases hkj : k = j
    · subst hkj
      rw [hctx] at hne
      exact hasked k 3 (Or.inr fun h3 => hne (htakes.proposed h3.symm hmax)) hasks
    · exact hasked k 3 (Or.inl hkj) hasks

omit hb in
/-- **The proposer takes a step**: its peers are as before, and what was asked or answered is so
    still, or has been counted. -/
theorem Alone.proposerStep {s' : Cluster} (hother : ∀ k, k ≠ i → s'.host k = s.host k)
    (hmax : ∀ k, (s'.host k).ctx.tMax = (s.host k).ctx.tMax)
    (hproposer : Proposer again rep (s'.host i).ctx)
    (hsettled : Settled again (s.host i).ctx → Settled again (s'.host i).ctx)
    (hrequests : ∀ p ∈ s'.requests, p.src = i ∧ Request again rep (s.host i).ctx p.msg)
    (hreplies : ∀ r ∈ s'.replies, r ∈ s.replies)
    (hheard : ∀ k ∈ heardFrom (s'.host i), (s.host k).ctx.tMax = rep.ballot)
    (hmarked : ∀ m ∈ marks (s'.host i).ctx, m.1 ∈ heardFrom (s'.host i) → m.2 = true)
    (hasked : ∀ k f, Asked s i k f → Asked s' i k f)
    (hpromised : ∀ k ∈ peers N i, Answered s k 2 ∨ k ∈ heardFrom (s.host i) →
      Answered s' k 2 ∨ k ∈ heardFrom (s'.host i))
    (hproposed : peers N i ⊆ heardFrom (s'.host i) → ∀ k ∈ peers N i,
      (s.host k).ctx.tStore ≠ rep.ballot → Asked s' i k 3)
    (haccepted : ∀ k ∈ peers N i, Answered s k 4 ∨ k ∈ (s.host i).counted →
      Answered s' k 4 ∨ k ∈ (s'.host i).counted)
    (hreported : ∃ k, (s'.host i).chosen = before ++ List.replicate k rep
      ∧ (peers N i ⊆ (s'.host i).counted → 0 < k)) : Alone again N i rep before s' := by
  refine ⟨hproposer, fun k hk => ?_, fun p hp => ?_, fun r hr => ?_, fun k hk => ?_, hmarked,
    fun k hk hlt => ?_, fun k hk heq => ?_, fun hall k hk hstore => ?_, fun k hk heq => ?_,
    fun k hk heq => ?_, hreported⟩
  · rw [hother k (mem_peers.mp hk).2]
    exact h.acceptors k hk
  · exact ⟨(hrequests p hp).1, (hrequests p hp).2.mono hsettled⟩
  · obtain ⟨hdst, hfrom, hreply⟩ := h.replies r (hreplies r hr)
    rw [hother r.src (mem_peers.mp hfrom).2]
    exact ⟨hdst, hfrom, hreply⟩
  · rw [hmax]
    exact hheard k hk
  · rw [hmax] at hlt
    exact hasked k 1 (h.prepared k hk hlt)
  · rw [hmax] at heq
    exact hpromised k hk (h.promised k hk heq)
  · rw [hother k (mem_peers.mp hk).2] at hstore
    exact hproposed hall k hk hstore
  · rw [hother k (mem_peers.mp hk).2] at heq
    exact haccepted k hk (h.accepted k hk heq)
  · rw [hother k (mem_peers.mp hk).2] at heq
    exact hsettled (h.settled k hk heq)

/-- **A promise arrives.** -/
theorem Alone.promise (hN : 3 ≤ N) (hi : i < N) {r : Packet} (hr : r ∈ s.replies)
    (hflag : r.msg.flag = 2) (hkept : Kept again rep r.msg.proposalid r.msg.value) :
    Alone again N i rep before
      ({ s with replies := s.replies.erase r }.act i (.reply r.src r.msg)) := by
  generalize hs' : ({ s with replies := s.replies.erase r } : Cluster).act i
    (.reply r.src r.msg) = s'
  obtain ⟨hother, hrequests, hmax, hreplies, hanswered⟩ := @reply_others N i s s' r hs'.symm
  obtain ⟨hproposer, hqueue, hsettled, hmarks, hasks⟩ := h.proposer.countPromise r.src hkept
  obtain ⟨hctx, hheard, hcounted, hchosen⟩ := hostStep_promise (s.host i) r.src hflag
  have hhost : s'.host i = hostStep (s.host i) (.reply r.src r.msg) := by
    rw [← hs', act_host_self]
  rw [← hhost] at hctx hheard hcounted hchosen
  have hasked : ∀ k f, Asked s i k f → Asked s' i k f := by
    rintro k f (⟨q, hq, hq'⟩ | ⟨p, hp, hp'⟩)
    · exact Or.inl ⟨q, hctx ▸ hqueue hq, hq'⟩
    · exact Or.inr ⟨p, hrequests ▸ hp, hp'⟩
  have hmarked : ∀ m ∈ marks (s'.host i).ctx, m.1 ∈ heardFrom (s'.host i) → m.2 = true := by
    intro m hm hin
    rw [hctx] at hm
    rw [hheard] at hin
    refine (hmarks m hm).elim (fun hold => h.marked m hold.1 ?_) id
    exact (List.mem_append.mp hin).resolve_right fun hmem => hold.2 (List.mem_singleton.mp hmem)
  refine h.proposerStep hother hmax (hctx ▸ hproposer) (hctx ▸ hsettled) (hrequests ▸ h.requests)
    hreplies (fun k hk => ?_) hmarked hasked (fun k hk hold => ?_) (fun hall k hk _ => ?_)
    (fun k hk hold => ?_) ?_
  · rw [hheard] at hk
    rcases List.mem_append.mp hk with hold | hnew
    · exact h.heard k hold
    · rw [List.mem_singleton.mp hnew]
      exact (h.replies r hr).2.2.1
  · rw [hheard]
    rcases hold with hans | hold
    · rcases hanswered k hk 2 hans with hans' | ⟨rfl, -⟩
      · exact Or.inl hans'
      · exact Or.inr (List.mem_append_right _ (List.mem_singleton.mpr rfl))
    · exact Or.inr (List.mem_append_left _ hold)
  · -- all peers are asked now, whoever was asked before
    have hquorum : (s.host i).ctx.nNodes / 2 < (s.host i).ctx.nProposeOk + 1 := by
      have hlt := hb.majority hN hi hall
      rw [hheard, List.length_append, heardFrom, List.length_map,
        (hb.node i hi).heard_length] at hlt
      exact hlt
    have haddr : k ∈ (countPromise (s.host i).ctx r.src r.msg).nodes.map Node.addr := by
      rw [(countPromise_spec (s.host i).ctx r.src r.msg).addrs, (hb.node i hi).addrs]
      exact hk
    obtain ⟨node, hnode, rfl⟩ := List.mem_map.mp haddr
    have hm : (node.addr, node.proposeOk) ∈ marks (countPromise (s.host i).ctx r.src r.msg) :=
      List.mem_map_of_mem hnode
    obtain ⟨q, hq, hq'⟩ := hasks hquorum _ hm (hmarked _ (hctx ▸ hm) (hall hk))
    exact Or.inl ⟨q, hctx ▸ hq, hq'⟩
  · rw [hcounted]
    refine hold.imp_left fun hans => (hanswered k hk 4 hans).resolve_right fun hsame => ?_
    exact absurd (hsame.2.trans hflag) (by decide)
  · rw [hcounted, hchosen]
    exact h.reported

/-- **An acceptance arrives.** -/
theorem Alone.success (hN : 3 ≤ N) (hi : i < N) {r : Packet} (hr : r ∈ s.replies)
    (hflag : r.msg.flag = 4) (hpre : r.msg.hasPreacceptid = true)
    (hstored : (s.host r.src).ctx.tStore = rep.ballot) : Alone again N i rep before
      ({ s with replies := s.replies.erase r }.act i (.reply r.src r.msg)) := by
  generalize hs' : ({ s with replies := s.replies.erase r } : Cluster).act i
    (.reply r.src r.msg) = s'
  obtain ⟨hother, hrequests, hmax, hreplies, hanswered⟩ := @reply_others N i s s' r hs'.symm
  obtain ⟨hproposer, hqueue, hmarks, hsettled, hreport⟩ := h.proposer.countSuccess
    (h.settled r.src (h.replies r hr).2.1 hstored)
  obtain ⟨hctx, hheard, hcounted, hchosen⟩ := hostStep_success (s.host i) r.src hflag hpre
  have hhost : s'.host i = hostStep (s.host i) (.reply r.src r.msg) := by
    rw [← hs', act_host_self]
  rw [← hhost] at hctx hheard hcounted hchosen
  have hasked : ∀ k f, Asked s i k f → Asked s' i k f := by
    rintro k f (⟨q, hq, hq'⟩ | ⟨p, hp, hp'⟩)
    · exact Or.inl ⟨q, hctx ▸ hqueue hq, hq'⟩
    · exact Or.inr ⟨p, hrequests ▸ hp, hp'⟩
  refine h.proposerStep hother hmax (hctx ▸ hproposer) (fun _ => hctx ▸ hsettled)
    (hrequests ▸ h.requests) hreplies (hheard ▸ h.heard) ?_ hasked (fun k hk hold => ?_)
    (fun hall k hk hstore => ?_) (fun k hk hold => ?_) ?_
  · rw [hctx, hmarks, hheard]
    exact h.marked
  · rw [hheard]
    refine hold.imp_left fun hans => (hanswered k hk 2 hans).resolve_right fun hsame => ?_
    exact absurd (hsame.2.trans hflag) (by decide)
  · exact hasked k 3 (h.proposed (hheard ▸ hall) k hk hstore)
  · rw [hcounted]
    rcases hold with hans | hold
    · rcases hanswered k hk 4 hans with hans' | ⟨rfl, -⟩
      · exact Or.inl hans'
      · exact Or.inr (List.mem_append_right _ (List.mem_singleton.mpr rfl))
    · exact Or.inr (List.mem_append_left _ hold)
  · obtain ⟨n, hn, hpos⟩ := h.reported
    rw [hchosen, hreport, hn]
    by_cases hquorum : (s.host i).ctx.nNodes / 2 < (s.host i).ctx.nProposeSuccess + 1
    · rw [if_pos hquorum]
      refine ⟨n + 1, ?_, fun _ => Nat.succ_pos n⟩
      rw [List.replicate_succ', List.append_assoc]
      rfl
    · rw [if_neg hquorum]
      refine ⟨n, List.append_nil _, fun hall => absurd ?_ hquorum⟩
      have hlt := hb.majority hN hi hall
      rw [hcounted, List.length_append, (hb.node i hi).counted_length] at hlt
      exact hlt

/-- **The proposer writes its queues.** -/
theorem Alone.writeRequests {env : WriteEnv} (hi : i < N)
    (hsend : ∀ a k, env.sendTo a k ≠ .failed) :
    Alone again N i rep before (s.act i (.beforeWait env)) := by
  generalize hs' : s.act i (.beforeWait env) = s'
  obtain ⟨hproposer, hmarks, hsent, hnone⟩ := h.proposer.beforeWait env
  have hother : ∀ k, k ≠ i → s'.host k = s.host k := by
    intro k hk
    rw [← hs', act_host_ne _ _ _ hk]
  have hctx : (s'.host i).ctx = (epollBeforeWait (s.host i).ctx env).1 := by
    rw [← hs', act_host_self]
    rfl
  have hsame : heardFrom (s'.host i) = heardFrom (s.host i)
      ∧ (s'.host i).counted = (s.host i).counted ∧ (s'.host i).chosen = (s.host i).chosen := by
    rw [← hs', act_host_self]
    exact ⟨rfl, rfl, List.append_nil _⟩
  obtain ⟨hheard, hcounted, hchosen⟩ := hsame
  have hrequests : s'.requests = s.requests ++ (epollBeforeWait (s.host i).ctx env).2.1 := by
    rw [← hs']
    rfl
  have hreplies : s'.replies = s.replies := by
    rw [← hs']
    show _ ++ (epollBeforeWait (s.host i).ctx env).2.2 = _
    rw [hnone, List.append_nil]
  have hmax : ∀ k, (s'.host k).ctx.tMax = (s.host k).ctx.tMax := by
    intro k
    by_cases hk : k = i
    · rw [hk, hctx]
      rfl
    · rw [hother k hk]
  have hasked : ∀ k f, Asked s i k f → Asked s' i k f := by
    rintro k f (⟨q, hq, hdst, hflag⟩ | ⟨p, hp, hp'⟩)
    · rcases epollBeforeWait_lossless hsend q hq with hkept | ⟨p, hp, hpdst, hpflag⟩
      · exact Or.inl ⟨q, hctx ▸ hkept, hdst, hflag⟩
      · exact Or.inr ⟨p, hrequests ▸ List.mem_append_right _ hp, hpdst.trans hdst,
          hpflag.trans hflag⟩
    · exact Or.inr ⟨p, hrequests ▸ List.mem_append_left _ hp, hp'⟩
  have hanswered : ∀ k ∈ peers N i, ∀ f, Answered s k f → Answered s' k f := by
    intro k hk f hans
    rw [Answered, hother k (mem_peers.mp hk).2, hreplies]
    exact hans
  refine h.proposerStep hother hmax (hctx ▸ hproposer) (fun hs => hctx ▸ hs) (fun p hp => ?_)
    (fun r hr => hreplies ▸ hr) (hheard ▸ h.heard) ?_ hasked
    (fun k hk hold => hheard ▸ hold.imp_left (hanswered k hk 2))
    (fun hall k hk hstore => hasked k 3 (h.proposed (hheard ▸ hall) k hk hstore))
    (fun k hk hold => hcounted ▸ hold.imp_left (hanswered k hk 4)) ?_
  · rw [hrequests] at hp
    rcases List.mem_append.mp hp with hold | hnew
    · exact h.requests p hold
    · exact ⟨(hsent p hnew).1.trans (hb.node i hi).nodeId, (hsent p hnew).2⟩
  · rw [hctx, hmarks, hheard]
    exact h.marked
  · rw [hchosen, hcounted]
    exact h.reported

/-- **A peer writes its replies.** -/
theorem Alone.writeReplies {env : WriteEnv} {j : Nat} (hj : j ∈ peers N i)
    (hsend : ∀ k, env.sendReplyTo k ≠ .failed) :
    Alone again N i rep before (s.act j (.beforeWait env)) := by
  generalize hs' : s.act j (.beforeWait env) = s'
  obtain ⟨hjN, hji⟩ := mem_peers.mp hj
  obtain ⟨hacc, hnone, hsent, hkept⟩ := (h.acceptors j hj).beforeWait hsend
  have hother : ∀ k, k ≠ j → s'.host k = s.host k := by
    intro k hk
    rw [← hs', act_host_ne _ _ _ hk]
  have hi : s'.host i = s.host i := hother i hji.symm
  have hctx : (s'.host j).ctx = (epollBeforeWait (s.host j).ctx env).1 := by
    rw [← hs', act_host_self]
    rfl
  have hrequests : s'.requests = s.requests := by
    rw [← hs']
    show _ ++ (epollBeforeWait (s.host j).ctx env).2.1 = _
    rw [hnone, List.append_nil]
  have hreplies : s'.replies = s.replies ++ (epollBeforeWait (s.host j).ctx env).2.2 := by
    rw [← hs']
    rfl
  have hstate : ∀ k, (s'.host k).ctx.tMax = (s.host k).ctx.tMax
      ∧ (s'.host k).ctx.tStore = (s.host k).ctx.tStore := by
    intro k
    by_cases hk : k = j
    · rw [hk, hctx]
      exact ⟨rfl, rfl⟩
    · rw [hother k hk]
      exact ⟨rfl, rfl⟩
  have hasked : ∀ k f, Asked s i k f → Asked s' i k f := by
    intro k f hask
    rw [Asked, hi, hrequests]
    exact hask
  have hanswered : ∀ k f, Answered s k f → Answered s' k f := by
    rintro k f (⟨q, hq, hflag⟩ | ⟨r, hr, hrest⟩)
    · by_cases hk : k = j
      · subst hk
        rcases hkept q hq with ⟨q', hq', hflag'⟩ | ⟨r, hr, hflag'⟩
        · exact Or.inl ⟨q', hctx ▸ hq', hflag'.trans hflag⟩
        · refine Or.inr ⟨r, hreplies ▸ List.mem_append_right _ hr, ?_, hflag'.trans hflag⟩
          exact (hsent r hr).1.trans (hb.node k hjN).nodeId
      · exact Or.inl ⟨q, (hother k hk) ▸ hq, hflag⟩
    · exact Or.inr ⟨r, hreplies ▸ List.mem_append_left _ hr, hrest⟩
  have hon : Onward rep 0 s s' := by
    refine ⟨fun k => Nat.le_of_eq (hstate k).1.symm, fun k hk => (hstate k).1.trans hk,
      fun k hk => (hstate k).2.trans hk, hanswered, fun k => Or.inl (hstate k).1.symm,
      fun k => Or.inl (hstate k).2.symm⟩
  refine h.peerStep hj hother (hctx ▸ hacc) hon (fun h3 => absurd h3 (by decide))
    (hrequests ▸ List.Subset.refl _) (fun r hr => ?_) (fun k _ => hasked k 1)
    fun k _ _ => hasked k 3
  rw [hreplies] at hr
  refine (List.mem_append.mp hr).imp_right fun hnew => ?_
  obtain ⟨hsrc, hdst, hreply⟩ := hsent r hnew
  refine ⟨hsrc.trans (hb.node j hjN).nodeId, hdst, hreply.mono (fun hm => ?_) fun hs => ?_⟩
  · exact (hstate j).1.trans hm
  · exact (hstate j).2.trans hs

end Steps

/-- **A step of the cluster.** -/
theorem Alone.step {again : Bool} {N i : Nat} {rep : Report} {before : List Report} {s s' : Cluster}
    (h : Alone again N i rep before s) (hb : Base N s) (hN : 3 ≤ N) (hi : i < N)
    {l : Label} (hl : Lossless l) (hstep : clusterStep N s l = some s') :
    Alone again N i rep before s' := by
  cases l with
  | echo j str => exact hl.elim
  | recv p io =>
      obtain ⟨hp, heq⟩ := Option.ite_none_right_eq_some.mp hstep
      rw [← Option.some.inj heq]
      exact h.recv hb hp hl
  | reply r =>
      obtain ⟨hr, heq⟩ := Option.ite_none_right_eq_some.mp hstep
      obtain ⟨hdst, -, -, hreply⟩ := h.replies r hr
      rw [← Option.some.inj heq, hdst]
      rcases hreply with ⟨hflag, hkept⟩ | ⟨hflag, hpre, hstored⟩
      · exact h.promise hb hN hi hr hflag hkept
      · exact h.success hb hN hi hr hflag hpre hstored
  | beforeWait j env =>
      obtain ⟨hj, heq⟩ := Option.ite_none_right_eq_some.mp hstep
      rw [← Option.some.inj heq]
      by_cases hji : j = i
      · rw [hji]
        exact h.writeRequests hb hi hl.1
      · exact h.writeReplies hb (mem_peers.mpr ⟨hj, hji⟩) hl.2

/-! ## From rest to rest -/

/-- Nothing is queued, and nothing is on its way. -/
structure AtRest (N : Nat) (s : Cluster) : Prop where
  requests : s.requests = []
  replies : s.replies = []
  queues : ∀ j < N, queue (s.host j).ctx = [] ∧ (s.host j).ctx.oList = []

/-- The report that the round of this node is to end with. -/
def aim (ctx : Ctx) (v : Value) : Report := ⟨ctx.instanceId, ctx.tTry + 1, v⟩

/-- The proposer of the new round, when nothing of an old one waits. -/
theorem proposer_echo {again : Bool} {ctx : Ctx} {v w : Value} (hv : again = false → v = w)
    (hwrap : ctx.tTry + 1 < 2 ^ 64) (hqueue : queue ctx = []) :
    Proposer again (aim ctx w) (paxosEcho ctx v) := by
  refine ⟨Nat.mod_eq_of_lt hwrap, rfl, fun hsettled => ?_, fun q hq => ?_,
    List.forall_mem_nil _, rfl⟩
  · cases again with
    | true => exact absurd (hsettled rfl) (Nat.not_lt_zero _)
    | false => exact (bytes_sdscpylen ..).trans (hv rfl)
  · rcases mem_queueRequest hq with hold | ⟨hmsg, -⟩
    · rw [queue] at hqueue hold
      rw [hqueue] at hold
      exact absurd hold List.not_mem_nil
    · rw [hmsg]
      exact ⟨⟨Nat.mod_eq_of_lt hwrap, Or.inl rfl⟩, Or.inl rfl⟩

/-- What the peers have before the round of the proposer `i`. -/
structure Before (again : Bool) (N i : Nat) (rep : Report) (s : Cluster) : Prop where
  kept : ∀ j ∈ peers N i,
    Kept again rep (s.host j).ctx.tStore (s.host j).ctx.valueStore.bytes
  tStore_lt : ∀ j ∈ peers N i, (s.host j).ctx.tStore < rep.ballot
  tMax_lt : ∀ j ∈ peers N i, (s.host j).ctx.tMax < rep.ballot

/-- **The echo begins the round.** -/
theorem alone_echo {again : Bool} {N i : Nat} {s : Cluster} (hb : Base N s) (hN : 3 ≤ N)
    (hi : i < N) (hrest : AtRest N s) {v w : Value} (hv : again = false → v = w)
    (hwrap : (s.host i).ctx.tTry + 1 < 2 ^ 64)
    (hbefore : Before again N i (aim (s.host i).ctx w) s) :
    Alone again N i (aim (s.host i).ctx w) (s.host i).chosen (s.act i (.echo v)) := by
  generalize hs' : s.act i (.echo v) = s'
  have hother : ∀ k ∈ peers N i, s'.host k = s.host k := by
    intro k hk
    rw [← hs', act_host_ne _ _ _ (mem_peers.mp hk).2]
  have hctx : (s'.host i).ctx = paxosEcho (s.host i).ctx v := by
    rw [← hs', act_host_self]
    rfl
  have hempty : heardFrom (s'.host i) = [] ∧ (s'.host i).counted = [] := by
    rw [← hs', act_host_self]
    exact ⟨rfl, rfl⟩
  have hchosen : (s'.host i).chosen = (s.host i).chosen := by
    rw [← hs', act_host_self]
    exact List.append_nil _
  have hrequests : s'.requests = [] := by
    rw [← hs']
    show s.requests ++ [] = []
    rw [hrest.requests]
    rfl
  have hreplies : s'.replies = [] := by
    rw [← hs']
    show s.replies ++ [] = []
    rw [hrest.replies]
    rfl
  obtain ⟨k, hk⟩ : ∃ k, k ∈ peers N i := by
    refine List.exists_mem_of_length_pos ?_
    have := length_peers hi
    omega
  have hsome : ∀ {l : List Nat}, l = [] → ¬ peers N i ⊆ l := by
    rintro l rfl hall
    exact List.not_mem_nil (hall hk)
  have hstore : ∀ j ∈ peers N i, (s'.host j).ctx.tStore ≠ (aim (s.host i).ctx w).ballot := by
    intro j hj
    rw [hother j hj]
    exact Nat.ne_of_lt (hbefore.tStore_lt j hj)
  refine ⟨?_, fun j hj => ?_, ?_, ?_, ?_, ?_, fun j hj _ => ?_, fun j hj heq => ?_,
    fun hall => absurd hall (hsome hempty.1), fun j hj heq => absurd heq (hstore j hj),
    fun j hj heq => absurd heq (hstore j hj), ⟨0, by rw [hchosen]; exact (List.append_nil _).symm,
      fun hall => absurd hall (hsome hempty.2)⟩⟩
  · rw [hctx]
    exact proposer_echo hv hwrap (hrest.queues i hi).1
  · obtain ⟨hqueue, holist⟩ := hrest.queues j (mem_peers.mp hj).1
    rw [hother j hj]
    refine ⟨Nat.le_of_lt (hbefore.tMax_lt j hj), Or.inl (hbefore.kept j hj), ?_, hqueue⟩
    rw [holist]
    exact List.forall_mem_nil _
  · rw [hrequests]
    exact List.forall_mem_nil _
  · rw [hreplies]
    exact List.forall_mem_nil _
  · rw [hempty.1]
    exact List.forall_mem_nil _
  · rw [hempty.1]
    exact fun m _ hm => absurd hm List.not_mem_nil
  · -- every peer is asked to promise
    have haddr : j ∈ (s.host i).ctx.nodes.map Node.addr := by
      rw [(hb.node i hi).addrs]
      exact hj
    obtain ⟨node, hnode, rfl⟩ := List.mem_map.mp haddr
    refine Or.inl ?_
    rw [hctx]
    exact (queueRequest_asks _ 1 fun _ => true).2 node hnode rfl
  · rw [hother j hj] at heq
    exact absurd heq (Nat.ne_of_lt (hbefore.tMax_lt j hj))

/-- What a round leaves behind. -/
structure Ended (N i : Nat) (rep : Report) (before : List Report) (s : Cluster) : Prop where
  rest : AtRest N s
  ballot : (s.host i).ctx.tTry = rep.ballot
  instanceId : (s.host i).ctx.instanceId = rep.instanceId
  stored : ∀ j ∈ peers N i, (s.host j).ctx.tStore = rep.ballot
    ∧ (s.host j).ctx.valueStore.bytes = rep.value ∧ (s.host j).ctx.tMax = rep.ballot
  reported : ∃ k, 0 < k ∧ (s.host i).chosen = before ++ List.replicate k rep

/-- **At rest, the round is over.** -/
theorem Alone.ended {again : Bool} {N i : Nat} {rep : Report} {before : List Report} {s : Cluster}
    (h : Alone again N i rep before s) (hpos : 0 < rep.ballot) (hi : i < N) (hrest : AtRest N s) :
    Ended N i rep before s := by
  have hnotAsked : ∀ j f, ¬ Asked s i j f := by
    rintro j f (⟨q, hq, -⟩ | ⟨p, hp, -⟩)
    · rw [(hrest.queues i hi).1] at hq
      exact absurd hq List.not_mem_nil
    · rw [hrest.requests] at hp
      exact absurd hp List.not_mem_nil
  have hnotAnswered : ∀ j ∈ peers N i, ∀ f, ¬ Answered s j f := by
    rintro j hj f (⟨q, hq, -⟩ | ⟨r, hr, -⟩)
    · rw [(hrest.queues j (mem_peers.mp hj).1).2] at hq
      exact absurd hq List.not_mem_nil
    · rw [hrest.replies] at hr
      exact absurd hr List.not_mem_nil
  have hmax : ∀ j ∈ peers N i, (s.host j).ctx.tMax = rep.ballot := fun j hj =>
    Nat.le_antisymm (h.acceptors j hj).bound
      (Nat.le_of_not_lt fun hlt => hnotAsked j 1 (h.prepared j hj hlt))
  have hheard : peers N i ⊆ heardFrom (s.host i) := fun j hj =>
    (h.promised j hj (hmax j hj)).resolve_left (hnotAnswered j hj 2)
  have hstore : ∀ j ∈ peers N i, (s.host j).ctx.tStore = rep.ballot := fun j hj =>
    by_contra fun hne => hnotAsked j 3 (h.proposed hheard j hj hne)
  refine ⟨hrest, h.proposer.ballot, h.proposer.instanceId, fun j hj => ⟨hstore j hj, ?_, hmax j hj⟩,
    ?_⟩
  · rcases (h.acceptors j hj).stored with hkept | hdone
    · rw [hstore j hj] at hkept
      cases again with
      | true => exact hkept.2
      | false => exact absurd hkept (Nat.ne_of_gt hpos)
    · exact hdone.2.2
  · obtain ⟨k, hk, hreported⟩ := h.reported
    refine ⟨k, hreported fun j hj => ?_, hk⟩
    exact (h.accepted j hj (hstore j hj)).resolve_left (hnotAnswered j hj 4)

/-- **A round of a lone proposer**, from rest to rest. -/
theorem round_ends {again : Bool} {N i : Nat} {v w : Value} {ls : List Label} {s₀ s : Cluster}
    (hb : Base N s₀) (hN : 3 ≤ N) (hi : i < N) (hrest₀ : AtRest N s₀)
    (hv : again = false → v = w) (hwrap : (s₀.host i).ctx.tTry + 1 < 2 ^ 64)
    (hbefore : Before again N i (aim (s₀.host i).ctx w) s₀)
    (hrun : clusterRun N s₀ (.echo i v :: ls) = some s) (hls : ∀ l ∈ ls, Lossless l)
    (hrest : AtRest N s) :
    Base N s ∧ Ended N i (aim (s₀.host i).ctx w) (s₀.host i).chosen s := by
  have hstart := alone_echo hb hN hi hrest₀ hv hwrap hbefore
  have hecho : clusterStep N s₀ (.echo i v) = some (s₀.act i (.echo v)) := if_pos hi
  rw [clusterRun, hecho] at hrun
  have hend : Base N s ∧ Alone again N i (aim (s₀.host i).ctx w) (s₀.host i).chosen s := by
    refine @clusterRun_invariant N _ (fun s => Base N s
      ∧ Alone again N i (aim (s₀.host i).ctx w) (s₀.host i).chosen s) (fun s l s' hI hl hs => ?_)
      ls _ s ⟨hb.step hecho, hstart⟩ ((allSteps_true N ls _).and_forall hls) hrun
    exact ⟨hI.1.step hs, hI.2.step hI.1 hN hi hl.2 hs⟩
  exact ⟨hend.1, hend.2.ended (Nat.succ_pos _) hi hrest⟩

theorem before_none {N i : Nat} {v : Value} {s : Cluster}
    (hnone : ∀ j ∈ peers N i, (s.host j).ctx.tStore = 0
      ∧ (s.host j).ctx.tMax ≤ (s.host i).ctx.tTry) :
    Before false N i (aim (s.host i).ctx v) s := by
  refine ⟨fun j hj => (hnone j hj).1, fun j hj => ?_, fun j hj => ?_⟩
  · rw [(hnone j hj).1]
    exact Nat.succ_pos _
  · exact Nat.lt_succ_of_le (hnone j hj).2

/-- What follows the echo of node 0 when two peers answer at once. -/
def loneRun : List Label :=
  (preparedBy 0 [1, 2] 1 [97]).tail ++ promisedTo 0 [1, 2] 1 0 [] ++ proposedBy 0 [1, 2] 1 [97]
    ++ acceptedTo 0 [1, 2] 1 [97] ++ [.beforeWait 0 allSent]
    ++ [1, 2].map fun j => .recv (requestFrom 0 j 5 1 [97]) .sent

theorem lossless_loneRun : ∀ l ∈ loneRun, Lossless l := by
  simp [loneRun, preparedBy, promisedTo, proposedBy, acceptedTo, Lossless, allSent]

/-- Rounds of the proposer `i`, each of them to rest: what the client asks for, and what happens
    then. -/
def Rounds (N i : Nat) : Cluster → List (Value × List Label) → Cluster → Prop
  | s, [], s' => s' = s
  | s, (v, ls) :: rounds, s' => ∃ s₁, clusterRun N s (.echo i v :: ls) = some s₁
      ∧ (∀ l ∈ ls, Lossless l) ∧ AtRest N s₁ ∧ Rounds N i s₁ rounds s'

/-- What all rounds leave behind, from the ballot `b` on: only `v` is reported, once at least in
    each round. -/
structure Stays (N i : Nat) (v : Value) (s s' : Cluster) (b : Nat) : Prop where
  ballot : (s'.host i).ctx.tTry = b
  stored : ∀ j ∈ peers N i, (s'.host j).ctx.tStore = b ∧ (s'.host j).ctx.valueStore.bytes = v
  reported : ∃ new, (s'.host i).chosen = (s.host i).chosen ++ new ∧ (∀ rep ∈ new, rep.value = v)
    ∧ ∀ k, (s.host i).ctx.tTry < k → k ≤ b → ⟨(s.host i).ctx.instanceId, k, v⟩ ∈ new

/-- The cluster is at rest, and the peers have accepted `v` with the ballot of `i`. -/
structure Holds (N i : Nat) (v : Value) (s : Cluster) : Prop where
  rest : AtRest N s
  pos : 0 < (s.host i).ctx.tTry
  stored : ∀ j ∈ peers N i, (s.host j).ctx.tStore = (s.host i).ctx.tTry
    ∧ (s.host j).ctx.valueStore.bytes = v ∧ (s.host j).ctx.tMax = (s.host i).ctx.tTry

section Rounds
variable {N i : Nat} {v : Value} {s s₁ s' : Cluster}

theorem Ended.holds {ctx : Ctx} {before : List Report} (h : Ended N i (aim ctx v) before s) :
    Holds N i v s := by
  refine ⟨h.rest, ?_, fun j hj => ?_⟩
  · rw [h.ballot]
    exact Nat.succ_pos _
  · rw [h.ballot]
    exact h.stored j hj

/-- A node that holds a value answers with it. -/
theorem Holds.before (h : Holds N i v s) : Before true N i (aim (s.host i).ctx v) s := by
  refine ⟨fun j hj => ?_, fun j hj => ?_, fun j hj => ?_⟩
  · obtain ⟨hstore, hvalue, -⟩ := h.stored j hj
    exact ⟨hstore ▸ h.pos, hvalue⟩
  · rw [(h.stored j hj).1]
    exact Nat.lt_succ_self _
  · rw [(h.stored j hj).2.2]
    exact Nat.lt_succ_self _

/-- One round, and those behind it. -/
theorem Ended.stays {b : Nat} (h : Ended N i (aim (s.host i).ctx v) (s.host i).chosen s₁)
    (hrest : Stays N i v s₁ s' b) : Stays N i v s s' b := by
  obtain ⟨k, hk, hchosen⟩ := h.reported
  obtain ⟨new, hnew, hvalue, hall⟩ := hrest.reported
  have hballot : (s₁.host i).ctx.tTry = (s.host i).ctx.tTry + 1 := h.ballot
  have hinstance : (s₁.host i).ctx.instanceId = (s.host i).ctx.instanceId := h.instanceId
  rw [hballot, hinstance] at hall
  refine ⟨hrest.ballot, hrest.stored, List.replicate k (aim (s.host i).ctx v) ++ new, ?_, ?_, ?_⟩
  · rw [hnew, hchosen, List.append_assoc]
  · intro rep hrep
    rcases List.mem_append.mp hrep with hold | hlater
    · rw [List.eq_of_mem_replicate hold]
      rfl
    · exact hvalue rep hlater
  · intro c hlt hle
    rcases Nat.lt_or_eq_of_le (Nat.succ_le_of_lt hlt) with hlater | rfl
    · exact List.mem_append_right _ (hall c hlater hle)
    · exact List.mem_append_left _ (List.mem_replicate.mpr ⟨Nat.ne_of_gt hk, rfl⟩)

/-- **Every later round** reports the value that is held, whatever the client asks for. -/
theorem Holds.rounds (hN : 3 ≤ N) (hi : i < N) : ∀ (rounds : List (Value × List Label))
    {s : Cluster}, Base N s → Holds N i v s →
    (s.host i).ctx.tTry + rounds.length < 2 ^ 64 → Rounds N i s rounds s' →
    Stays N i v s s' ((s.host i).ctx.tTry + rounds.length) := by
  intro rounds
  induction rounds with
  | nil =>
      intro s _ h _ hrounds
      obtain rfl : s' = s := hrounds
      refine ⟨rfl, fun j hj => ⟨(h.stored j hj).1, (h.stored j hj).2.1⟩, [],
        (List.append_nil _).symm, List.forall_mem_nil _, fun k hlt hle => ?_⟩
      exact absurd hle (Nat.not_le_of_lt hlt)
  | cons round rounds ih =>
      intro s hb h hwrap hrounds
      obtain ⟨u, ls⟩ := round
      obtain ⟨s₁, hrun, hls, hrest, hrounds⟩ := hrounds
      rw [List.length_cons] at hwrap ⊢
      obtain ⟨hb₁, hend⟩ := round_ends hb hN hi h.rest (fun ha => absurd ha.symm Bool.false_ne_true)
        (by omega) h.before hrun hls hrest
      have hballot : (s₁.host i).ctx.tTry = (s.host i).ctx.tTry + 1 := hend.ballot
      have hlater := ih hb₁ hend.holds (by omega) hrounds
      rw [hballot, Nat.add_assoc, Nat.add_comm 1] at hlater
      exact hend.stays hlater

end Rounds

/-- What follows when the client asks node 0 for the value 98 then. -/
def secondRun : List Label :=
  (preparedBy 0 [1, 2] 2 [98]).tail ++ promisedTo 0 [1, 2] 2 1 [97] ++ proposedBy 0 [1, 2] 2 [97]
    ++ acceptedTo 0 [1, 2] 2 [97] ++ [.beforeWait 0 allSent]
    ++ [1, 2].map fun j => .recv (requestFrom 0 j 5 2 [97]) .sent

theorem lossless_secondRun : ∀ l ∈ secondRun, Lossless l := by
  simp [secondRun, preparedBy, promisedTo, proposedBy, acceptedTo, Lossless, allSent]

end Paxos
