import CppTest.PaxosProgressProofs
import Mathlib.Algebra.BigOperators.Group.List.Basic
import Mathlib.Algebra.BigOperators.Group.Finset.Basic

/-! # The cluster comes to rest

    No node sends anything on its own: every datagram answers one that has arrived, or the
    client.  A promise that comes late makes the proposer ask all its peers once more, and a late
    acceptance makes it spread the value once more, so a round takes more than five datagrams a
    peer, but it ends, whatever is lost and in whatever order the rest arrives.

    The measure gives each datagram the price of all that it can still cause, and one more as
    long as it waits in a queue.

    * `work`: the price of a state.
    * `work_step`: no step adds to it unless a client asks, and taking a datagram lowers it.
    * `comes_to_rest`: so only so many datagrams can be taken, and the cluster can always come to
      rest without giving one up. -/

namespace Paxos

/-! ## Prices -/

section Prices
variable (D : Nat)

/-- The chosen value: it is not answered. -/
def executePrice : Nat := 1

/-- An acceptance: the value goes to all `D` peers. -/
def successPrice : Nat := 1 + D * (executePrice + 1)

def proposePrice : Nat := 1 + (successPrice D + 1)

/-- A promise: all peers may be asked to accept. -/
def promisePrice : Nat := 1 + D * (proposePrice D + 1)

def preparePrice : Nat := 1 + (promisePrice D + 1)

/-- What a request costs, by its flag. -/
def requestPrice (flag : Nat) : Nat :=
  if flag = 1 then preparePrice D else if flag = 3 then proposePrice D else executePrice

/-- What a reply costs, by its flag. -/
def replyPrice (flag : Nat) : Nat :=
  if flag = 2 then promisePrice D else if flag = 4 then successPrice D else 1

end Prices

/-- What waits in a queue. -/
def queuePrice (price : Nat → Nat) (qs : List Queued) : Nat :=
  (qs.map fun q => price q.msg.flag + 1).sum

/-- What is on its way. -/
def wirePrice (price : Nat → Nat) (ps : List Packet) : Nat :=
  (ps.map fun p => price p.msg.flag).sum

/-- What waits at a node. -/
def nodePrice (D : Nat) (ctx : Ctx) : Nat :=
  queuePrice (requestPrice D) (queue ctx) + queuePrice (replyPrice D) ctx.oList

/-- **What a state can still cause.** -/
def work (N : Nat) (s : Cluster) : Nat :=
  wirePrice (requestPrice (N - 1)) s.requests + wirePrice (replyPrice (N - 1)) s.replies
    + ∑ i ∈ Finset.range N, nodePrice (N - 1) (s.host i).ctx

section Sums
variable (price : Nat → Nat)

@[simp] theorem queuePrice_append (qs qs' : List Queued) :
    queuePrice price (qs ++ qs') = queuePrice price qs + queuePrice price qs' := by
  simp [queuePrice]

@[simp] theorem wirePrice_append (ps ps' : List Packet) :
    wirePrice price (ps ++ ps') = wirePrice price ps + wirePrice price ps' := by
  simp [wirePrice]

@[simp] theorem queuePrice_nil : queuePrice price [] = 0 := rfl

@[simp] theorem wirePrice_nil : wirePrice price [] = 0 := rfl

@[simp] theorem queuePrice_cons (q : Queued) (qs : List Queued) :
    queuePrice price (q :: qs) = price q.msg.flag + 1 + queuePrice price qs := by
  simp [queuePrice]

@[simp] theorem wirePrice_cons (p : Packet) (ps : List Packet) :
    wirePrice price (p :: ps) = price p.msg.flag + wirePrice price ps := by
  simp [wirePrice]

/-- A datagram is taken off the wire. -/
theorem wirePrice_erase {p : Packet} {ps : List Packet} (hp : p ∈ ps) :
    price p.msg.flag + wirePrice price (ps.erase p) = wirePrice price ps :=
  List.sum_map_erase (fun p : Packet => price p.msg.flag) hp

/-- Writing a queue: what is sent is one cheaper on its way. -/
theorem writeQueue_price (src gen : Nat) (sendTo : Nat → SendTo) (stale : Nat → Value → Value) :
    ∀ (k : Nat) (qs : List Queued), let r := writeQueue src gen sendTo stale k qs
      queuePrice price r.1 + wirePrice price r.2 + r.2.length ≤ queuePrice price qs := by
  intro k qs
  induction qs generalizing k with
  | nil => exact Nat.le_refl _
  | cons q qs ih =>
      have hrest := ih (k + 1)
      simp only [writeQueue]
      cases sendTo k with
      | sent =>
          simp only [wirePrice_cons, queuePrice_cons, List.length_cons, (pack_header ..).1]
          omega
      | again =>
          simp only [queuePrice_cons]
          omega
      | failed =>
          simp only [queuePrice_cons]
          omega

/-- A request to some of the peers costs no more than one to all of them. -/
theorem queueRequest_price (ctx : Ctx) (flag : Nat) (sel : Node → Bool) :
    queuePrice price (queue (queueRequest ctx flag sel))
      ≤ queuePrice price (queue ctx) + ctx.nodes.length * (price flag + 1) := by
  show queuePrice price ((ctx.nodes.map fun node => if sel node then { node with
    oList := node.oList ++ [⟨node.addr, requestMsg ctx flag, ctx.valueTry.gen, ctx.tTry⟩] }
    else node).flatMap Node.oList) ≤ queuePrice price (ctx.nodes.flatMap Node.oList) + _
  induction ctx.nodes with
  | nil => exact Nat.zero_le _
  | cons node nodes ih =>
      have hmsg : (requestMsg ctx flag).flag = flag := rfl
      simp only [List.map_cons, List.flatMap_cons, queuePrice_append, List.length_cons,
        Nat.succ_mul]
      cases sel node with
      | true =>
          simp only [if_true, queuePrice_append, queuePrice_cons, queuePrice_nil, hmsg]
          omega
      | false =>
          simp only [Bool.false_eq_true, if_false]
          omega

end Sums

/-! ## A node -/

/-- A reply is sent, queued or given up. -/
theorem sendReply_price (D : Nat) (ctx : Ctx) (src ballot flag : Nat) (io : SendTo) :
    nodePrice D (sendReply ctx src ballot flag io).1
        + wirePrice (replyPrice D) (sendReply ctx src ballot flag io).2
      ≤ nodePrice D ctx + (replyPrice D flag + 1) := by
  have hmsg : (replyMsg ctx flag).flag = flag := rfl
  cases io with
  | sent =>
      simp only [sendReply, wirePrice_cons, wirePrice_nil, hmsg]
      omega
  | again =>
      simp only [sendReply, nodePrice, queue, queuePrice_append, queuePrice_cons, queuePrice_nil,
        wirePrice_nil, hmsg]
      omega
  | failed =>
      simp only [sendReply, wirePrice_nil]
      omega

theorem requestPrice_pos (D flag : Nat) : 0 < requestPrice D flag := by
  unfold requestPrice preparePrice proposePrice executePrice
  split
  · omega
  · split <;> omega

theorem replyPrice_pos (D flag : Nat) : 0 < replyPrice D flag := by
  unfold replyPrice promisePrice successPrice
  split
  · omega
  · split <;> omega

/-- **Taking a request**: the answer is cheaper. -/
theorem recv_price (D : Nat) (ctx : Ctx) (src : Nat) (msg : Msg) (io : SendTo) :
    let eff := nodeStep ctx (.recv src msg io)
    nodePrice D eff.ctx + wirePrice (replyPrice D) eff.replies + 1
      ≤ nodePrice D ctx + requestPrice D msg.flag := by
  show nodePrice D (epollHandlePaxosFdIo ctx src msg io).1
    + wirePrice (replyPrice D) (epollHandlePaxosFdIo ctx src msg io).2.1 + 1 ≤ _
  have hpos := requestPrice_pos D msg.flag
  -- the acceptor has changed what it stores, and replies
  have hreply : ∀ (ctx' : Ctx) (ballot flag : Nat) (c : Ctx) (out : List Packet),
      sendReply ctx' src ballot flag io = (c, out) → nodePrice D ctx' = nodePrice D ctx →
      requestPrice D msg.flag = 1 + (replyPrice D flag + 1) →
      nodePrice D c + wirePrice (replyPrice D) out + 1
        ≤ nodePrice D ctx + requestPrice D msg.flag := by
    intro ctx' ballot flag c out hsend hsame hcost
    have hprice := sendReply_price D ctx' src ballot flag io
    rw [hsend, hsame] at hprice
    rw [hcost]
    exact Nat.succ_le_succ hprice |>.trans (by omega)
  rcases fdIo_cases ctx src msg io with ⟨-, hr⟩ | ⟨-, hflag, c, out, hsend, hr⟩ |
    ⟨-, hflag, c, out, hsend, hr⟩ | hr
  · rw [hr]
    show nodePrice D ctx + 0 + 1 ≤ _
    omega
  · rw [hr]
    exact hreply _ _ 2 c out hsend rfl (by rw [hflag]; rfl)
  · rw [hr]
    exact hreply _ _ 4 c out hsend rfl (by rw [hflag]; rfl)
  · rw [hr]
    show nodePrice D ctx + 0 + 1 ≤ _
    omega

/-- The proposer has changed what it counts, and asks its peers. -/
theorem asks_price {D : Nat} {ctx ctx' : Ctx} (hqueue : queue ctx' = queue ctx)
    (hreplies : ctx'.oList = ctx.oList) (hlen : ctx'.nodes.length = D) (flag : Nat)
    (sel : Node → Bool) :
    nodePrice D (queueRequest ctx' flag sel) ≤ nodePrice D ctx + D * (requestPrice D flag + 1) := by
  have hask := queueRequest_price (requestPrice D) ctx' flag sel
  rw [hqueue, hlen] at hask
  have hsame : (queueRequest ctx' flag sel).oList = ctx.oList := hreplies
  rw [nodePrice, nodePrice, hsame]
  omega

/-- **Taking a reply**: what the proposer asks of its peers is cheaper. -/
theorem reply_price {D : Nat} {ctx : Ctx} (hlen : ctx.nodes.length = D) (src : Nat) (msg : Msg) :
    nodePrice D (nodeStep ctx (.reply src msg)).ctx + 1
      ≤ nodePrice D ctx + replyPrice D msg.flag := by
  show nodePrice D (epollHandlePaxosNodeFdIo ctx src msg).1 + 1 ≤ _
  have hpos := replyPrice_pos D msg.flag
  rcases nodeFdIo_cases ctx src msg with ⟨h4, -, hr⟩ | ⟨-, hflag, hr⟩ | ⟨-, -, hr⟩
  · have hflag : msg.flag = 4 := beq_iff_eq.mp (Bool.and_eq_true_iff.mp h4).2
    have hcost : replyPrice D msg.flag = 1 + D * (requestPrice D 5 + 1) := by
      rw [hflag]
      rfl
    let ctx₁ : Ctx := { ctx with nProposeSuccess := ctx.nProposeSuccess + 1 }
    have hask : nodePrice D (paxosExecute ctx₁)
        ≤ nodePrice D ctx + D * (requestPrice D 5 + 1) :=
      @asks_price D ctx ctx₁ rfl rfl hlen 5 fun _ => true
    rw [hr]
    by_cases hquorum : ctx.nNodes / 2 < ctx.nProposeSuccess + 1
    · have hctx : (countSuccess ctx).1 = paxosExecute ctx₁ := congrArg Prod.fst (if_pos hquorum)
      rw [hctx, hcost]
      omega
    · have hctx : (countSuccess ctx).1 = ctx₁ := congrArg Prod.fst (if_neg hquorum)
      rw [hctx]
      show nodePrice D ctx + 1 ≤ _
      omega
  · have hcost : replyPrice D msg.flag = 1 + D * (requestPrice D 3 + 1) := by
      rw [hflag]
      rfl
    let ctx₁ : Ctx := { ctx with
      nodes := ctx.nodes.map fun node =>
        if node.addr = src then { node with proposeOk := true } else node
      proposeOkList := ctx.proposeOkList ++ [⟨msg.proposalid, msg.value⟩]
      nProposeOk := ctx.nProposeOk + 1 }
    have hqueue : queue ctx₁ = queue ctx := queue_setOk ctx.nodes src
    have hlen₁ : ctx₁.nodes.length = D := (List.length_map _).trans hlen
    have hask : nodePrice D (paxosPropose (adoptMax ctx₁))
        ≤ nodePrice D ctx + D * (requestPrice D 3 + 1) := by
      have hadopt : queue (adoptMax ctx₁) = queue ctx ∧ (adoptMax ctx₁).oList = ctx.oList
          ∧ (adoptMax ctx₁).nodes.length = D := by
        rw [adoptMax_eq]
        exact ⟨hqueue, rfl, hlen₁⟩
      exact asks_price hadopt.1 hadopt.2.1 hadopt.2.2 3 Node.proposeOk
    rw [hr]
    show nodePrice D (countPromise ctx src msg) + 1 ≤ _
    by_cases hquorum : ctx.nNodes / 2 < ctx.nProposeOk + 1
    · have hctx : countPromise ctx src msg = paxosPropose (adoptMax ctx₁) := if_pos hquorum
      rw [hctx, hcost]
      omega
    · have hctx : countPromise ctx src msg = ctx₁ := if_neg hquorum
      have hsame : nodePrice D ctx₁ = nodePrice D ctx := by
        rw [nodePrice, hqueue]
        rfl
      rw [hctx, hsame]
      omega
  · rw [hr]
    show nodePrice D ctx + 1 ≤ _
    omega

/-- **Writing the queues**: every datagram that goes out is one cheaper. -/
theorem beforeWait_price (D : Nat) (ctx : Ctx) (env : WriteEnv) :
    let eff := nodeStep ctx (.beforeWait env)
    nodePrice D eff.ctx + wirePrice (requestPrice D) eff.requests
        + wirePrice (replyPrice D) eff.replies + (eff.requests.length + eff.replies.length)
      ≤ nodePrice D ctx := by
  have hreplies := writeQueue_price (replyPrice D) ctx.nodeId ctx.valueStore.gen env.sendReplyTo
    env.staleReply 0 ctx.oList
  have hrequests : ∀ nodes : List Node,
      queuePrice (requestPrice D) ((nodes.map fun node => (writeNode ctx env node).1).flatMap
          Node.oList)
        + wirePrice (requestPrice D) (nodes.flatMap fun node => (writeNode ctx env node).2)
        + (nodes.flatMap fun node => (writeNode ctx env node).2).length
      ≤ queuePrice (requestPrice D) (nodes.flatMap Node.oList) := by
    intro nodes
    induction nodes with
    | nil => exact Nat.le_refl _
    | cons node nodes ih =>
        have hone : queuePrice (requestPrice D) (writeNode ctx env node).1.oList
            + wirePrice (requestPrice D) (writeNode ctx env node).2
            + (writeNode ctx env node).2.length ≤ queuePrice (requestPrice D) node.oList := by
          by_cases hconnect : env.connect node.addr = true
          · rw [writeNode, if_pos hconnect]
            exact writeQueue_price (requestPrice D) ctx.nodeId ctx.valueTry.gen _ _ 0 node.oList
          · rw [writeNode, if_neg hconnect]
            exact Nat.le_refl _
        simp only [List.map_cons, List.flatMap_cons, queuePrice_append, wirePrice_append,
          List.length_append]
        omega
  have hall := hrequests ctx.nodes
  show queuePrice _ ((ctx.nodes.map fun node => (writeNode ctx env node).1).flatMap Node.oList)
    + queuePrice _ (writeQueue _ _ _ _ 0 ctx.oList).1
    + wirePrice _ (ctx.nodes.flatMap fun node => (writeNode ctx env node).2)
    + wirePrice _ (writeQueue _ _ _ _ 0 ctx.oList).2
    + ((ctx.nodes.flatMap fun node => (writeNode ctx env node).2).length
      + (writeQueue _ _ _ _ 0 ctx.oList).2.length) ≤ _
  rw [nodePrice, queue]
  omega

/-! ## The cluster -/

/-- One node takes a step. -/
theorem work_act {N i : Nat} (s : Cluster) (hi : i < N) (e : Event) :
    let eff := nodeStep (s.host i).ctx e
    work N (s.act i e) + nodePrice (N - 1) (s.host i).ctx
      = work N s + (nodePrice (N - 1) eff.ctx + wirePrice (requestPrice (N - 1)) eff.requests
        + wirePrice (replyPrice (N - 1)) eff.replies) := by
  intro eff
  have hmem : i ∈ Finset.range N := Finset.mem_range.mpr hi
  have hself : ((s.act i e).host i).ctx = eff.ctx := congrArg Host.ctx (act_host_self ..)
  have hothers : ∑ k ∈ (Finset.range N).erase i, nodePrice (N - 1) ((s.act i e).host k).ctx
      = ∑ k ∈ (Finset.range N).erase i, nodePrice (N - 1) (s.host k).ctx := by
    refine Finset.sum_congr rfl fun k hk => ?_
    rw [act_host_ne _ _ _ (Finset.ne_of_mem_erase hk)]
  have hbefore := Finset.add_sum_erase _ (fun k => nodePrice (N - 1) (s.host k).ctx) hmem
  have hafter := Finset.add_sum_erase _ (fun k => nodePrice (N - 1) ((s.act i e).host k).ctx) hmem
  simp only [hself, hothers] at hbefore hafter
  have hrequests : (s.act i e).requests = s.requests ++ eff.requests := rfl
  have hreplies : (s.act i e).replies = s.replies ++ eff.replies := rfl
  rw [work, work, hrequests, hreplies, wirePrice_append, wirePrice_append]
  omega

/-- No client asks. -/
def Quiet : Label → Prop
  | .echo _ _ => False
  | _ => True

/-- A datagram is taken off the wire. -/
def takes : Label → Bool
  | .recv _ _ => true
  | .reply _ => true
  | _ => false

/-- How many datagrams a run takes. -/
def taken (ls : List Label) : Nat := ls.countP takes

theorem Lossless.quiet {l : Label} (h : Lossless l) : Quiet l := by
  cases l with
  | echo i str => exact h
  | recv p io => trivial
  | reply p => trivial
  | beforeWait i env => trivial

/-- **No step adds to the work**, and one that takes a datagram lowers it. -/
theorem work_step {N : Nat} {s s' : Cluster} (hb : Base N s) {l : Label} (hl : Quiet l)
    (hstep : clusterStep N s l = some s') : work N s' + taken [l] ≤ work N s := by
  obtain ⟨s₀, i, e, hcause, hi, -, rfl⟩ := hb.step_cases hstep
  have hact := work_act s₀ hi e
  cases hcause with
  | echo i str => exact hl.elim
  | recv p io hp =>
      have herase := wirePrice_erase (requestPrice (N - 1)) hp
      have hprice := recv_price (N - 1) (s.host p.dst).ctx p.src p.msg io
      have hnone : (nodeStep (s.host p.dst).ctx (.recv p.src p.msg io)).requests = [] := rfl
      have htaken : taken [.recv p io] = 1 := rfl
      simp only [work, hnone, wirePrice_nil] at hact hprice ⊢
      omega
  | reply p hp =>
      have herase := wirePrice_erase (replyPrice (N - 1)) hp
      have hlen : (s.host p.dst).ctx.nodes.length = N - 1 := by
        have haddrs := congrArg List.length (hb.node p.dst hi).addrs
        rw [List.length_map] at haddrs
        have := length_peers hi
        omega
      have hprice := reply_price hlen p.src p.msg
      have hnone : (nodeStep (s.host p.dst).ctx (.reply p.src p.msg)).requests = []
        ∧ (nodeStep (s.host p.dst).ctx (.reply p.src p.msg)).replies = [] := ⟨rfl, rfl⟩
      have htaken : taken [.reply p] = 1 := rfl
      simp only [work, hnone, wirePrice_nil] at hact hprice ⊢
      omega
  | beforeWait i env =>
      have hprice := beforeWait_price (N - 1) (s.host i).ctx env
      have htaken : taken [.beforeWait i env] = 0 := rfl
      simp only [] at hact hprice
      omega

/-- **A run** that no client speaks in. -/
theorem work_run {N : Nat} (ls : List Label) : ∀ {s s' : Cluster}, Base N s → (∀ l ∈ ls, Quiet l) →
    clusterRun N s ls = some s' → work N s' + taken ls ≤ work N s := by
  induction ls with
  | nil =>
      intro s s' _ _ hrun
      obtain rfl := Option.some.inj hrun
      exact Nat.le_refl _
  | cons l ls ih =>
      intro s s' hb hquiet hrun
      rw [clusterRun] at hrun
      obtain ⟨s₁, hstep, hrest⟩ := Option.bind_eq_some_iff.mp hrun
      have hone := work_step hb (hquiet l List.mem_cons_self) hstep
      have hmore := ih (hb.step hstep) (fun l' hl' => hquiet l' (List.mem_cons_of_mem _ hl')) hrest
      have hsum : taken (l :: ls) = taken [l] + taken ls :=
        @List.countP_append _ takes [l] ls
      omega

/-! ## Draining -/

theorem writeQueue_allSent (src gen : Nat) (stale : Nat → Value → Value) :
    ∀ (k : Nat) (qs : List Queued),
      (writeQueue src gen (fun _ => .sent) stale k qs).2.length = qs.length := by
  intro k qs
  induction qs generalizing k with
  | nil => rfl
  | cons q qs ih => exact congrArg Nat.succ (ih (k + 1))

/-- With `sendto` working, a node with something in a queue sends it. -/
theorem work_drain {N i : Nat} {s : Cluster} (hi : i < N)
    (hqueue : ¬ (queue (s.host i).ctx = [] ∧ (s.host i).ctx.oList = [])) :
    work N (s.act i (.beforeWait allSent)) < work N s := by
  have hact := work_act s hi (.beforeWait allSent)
  have hprice := beforeWait_price (N - 1) (s.host i).ctx allSent
  have hrequests : (nodeStep (s.host i).ctx (.beforeWait allSent)).requests.length
      = (queue (s.host i).ctx).length := by
    show ((s.host i).ctx.nodes.flatMap fun node => (writeNode _ allSent node).2).length = _
    rw [queue, List.length_flatMap, List.length_flatMap]
    refine congrArg List.sum (List.map_congr_left fun node _ => ?_)
    exact writeQueue_allSent ..
  have hreplies : (nodeStep (s.host i).ctx (.beforeWait allSent)).replies.length
      = (s.host i).ctx.oList.length := writeQueue_allSent ..
  have hpos : 0 < (queue (s.host i).ctx).length ∨ 0 < (s.host i).ctx.oList.length := by
    rcases not_and_or.mp hqueue with hne | hne
    · exact Or.inl (List.length_pos_iff.mpr hne)
    · exact Or.inr (List.length_pos_iff.mpr hne)
  simp only [] at hact hprice
  omega

theorem lossless_recv (p : Packet) : Lossless (.recv p .sent) := fun h => nomatch h

theorem lossless_beforeWait (j : Nat) : Lossless (.beforeWait j allSent) :=
  ⟨(fun _ _ h => nomatch h), fun _ h => nomatch h⟩

/-- From any state that the cluster reaches, it can come to rest. -/
theorem drains {N : Nat} : ∀ (n : Nat) {s : Cluster}, Base N s → work N s < n →
    ∃ ls s', (∀ l ∈ ls, Lossless l) ∧ clusterRun N s ls = some s' ∧ AtRest N s' := by
  intro n
  induction n with
  | zero => exact fun _ h => absurd h (Nat.not_lt_zero _)
  | succ n ih =>
      intro s hb hwork
      -- a step that lowers the work, and then the rest of the way
      have hthen : ∀ {l : Label} {s₁ : Cluster}, Lossless l → clusterStep N s l = some s₁ →
          work N s₁ < work N s → ∃ ls s', (∀ l ∈ ls, Lossless l) ∧ clusterRun N s ls = some s'
            ∧ AtRest N s' := by
        intro l s₁ hl hstep hlt
        obtain ⟨ls, s', hls, hrun, hrest⟩ := ih (hb.step hstep) (by omega)
        refine ⟨l :: ls, s', List.forall_mem_cons.mpr ⟨hl, hls⟩, ?_, hrest⟩
        rw [clusterRun, hstep]
        exact hrun
      have htakes : ∀ {l : Label} {s₁ : Cluster}, Lossless l → takes l = true →
          clusterStep N s l = some s₁ → work N s₁ < work N s := by
        intro l s₁ hl htake hstep
        have hone := work_step hb hl.quiet hstep
        have hcount : taken [l] = 1 := List.countP_singleton.trans (if_pos htake)
        omega
      cases hrequests : s.requests with
      | cons p ps =>
          have hstep : clusterStep N s (.recv p .sent) = some _ :=
            if_pos (hrequests ▸ List.mem_cons_self)
          exact hthen (lossless_recv p) hstep (htakes (lossless_recv p) rfl hstep)
      | nil =>
      cases hreplies : s.replies with
      | cons r rs =>
          have hl : Lossless (.reply r) := trivial
          have hstep : clusterStep N s (.reply r) = some _ :=
            if_pos (hreplies ▸ List.mem_cons_self)
          exact hthen hl hstep (htakes hl rfl hstep)
      | nil =>
      by_cases hqueues : ∀ j < N, queue (s.host j).ctx = [] ∧ (s.host j).ctx.oList = []
      · exact ⟨[], s, List.forall_mem_nil _, rfl, hrequests, hreplies, hqueues⟩
      · obtain ⟨j, hj⟩ := not_forall.mp hqueues
        obtain ⟨hjN, hqueue⟩ := Classical.not_imp.mp hj
        exact hthen (lossless_beforeWait j) (if_pos hjN) (work_drain hjN hqueue)

end Paxos
