import CppTest.PaxosAcceptorProofs
import CppTest.PaxosProposerProofs
import Mathlib.Data.List.Perm.Subperm

/-! # A cluster of Paxos nodes

    Any number of nodes and the datagrams between them.  A datagram that was sent is
    delivered at most once, at any time and in any order, or never.

    * `Host` — a node with its history: what its acceptor did, the requests it sent,
      whose replies it has counted since its last `paxos_prepare`, what it reported;
    * `Cluster`, `clusterStep`, `clusterRun` — the nodes take their steps one at a time;
    * `AllSteps ok` — every step of a run meets a condition in the state it finds;
    * `Local`, `Wire` — what holds in every run, with no condition: a datagram comes
      from the history of its sender, a reply from an act of an acceptor. -/

namespace Paxos

/-! ## Nodes with their history -/

structure Host where
  ctx : Ctx
  acts : List Act
  sent : List Packet
  heard : List (Nat × Promise)
  counted : List Nat
  chosen : List Report
  deriving Repr, DecidableEq

/-- The promises counted since the last `paxos_prepare`, and from whom. -/
def heardAfter (heard : List (Nat × Promise)) : Event → List (Nat × Promise)
  | .echo _ => []
  | .reply src msg =>
      if msg.flag = 2 then heard ++ [(src, ⟨msg.proposalid, msg.value⟩)] else heard
  | .recv _ _ _ => heard
  | .beforeWait _ => heard

/-- From whom acceptances have been counted since the last `paxos_prepare`. -/
def countedAfter (counted : List Nat) : Event → List Nat
  | .echo _ => []
  | .reply src msg =>
      if msg.hasPreacceptid && msg.flag == 4 then counted ++ [src] else counted
  | .recv _ _ _ => counted
  | .beforeWait _ => counted

def hostStep (h : Host) (e : Event) : Host where
  ctx := (nodeStep h.ctx e).ctx
  acts := h.acts ++ (nodeStep h.ctx e).act.toList
  sent := h.sent ++ (nodeStep h.ctx e).requests
  heard := heardAfter h.heard e
  counted := countedAfter h.counted e
  chosen := h.chosen ++ (nodeStep h.ctx e).report.toList

/-! ## The cluster -/

/-- The nodes, and the datagrams on their way: requests to the listening sockets and
    replies to the sockets of the proposers. -/
structure Cluster where
  host : Nat → Host
  requests : List Packet
  replies : List Packet

/-- The other nodes. -/
def peers (N i : Nat) : List Nat := (List.range N).filter (· ≠ i)

def clusterInit (N : Nat) : Cluster where
  host := fun i => ⟨paxosInit i (peers N i), [], [], [], [], []⟩
  requests := []
  replies := []

/-- The node `i` takes a step, and what it sends is on its way. -/
def Cluster.act (s : Cluster) (i : Nat) (e : Event) : Cluster where
  host := Function.update s.host i (hostStep (s.host i) e)
  requests := s.requests ++ (nodeStep (s.host i).ctx e).requests
  replies := s.replies ++ (nodeStep (s.host i).ctx e).replies

/-- A step of the cluster. -/
inductive Label where
  | echo (i : Nat) (str : Value)
  | recv (p : Packet) (io : SendTo)
  | reply (p : Packet)
  | beforeWait (i : Nat) (env : WriteEnv)

/-- `none`: there is no such node, or the datagram is not on its way. -/
def clusterStep (N : Nat) (s : Cluster) : Label → Option Cluster
  | .echo i str => if i < N then some (s.act i (.echo str)) else none
  | .recv p io =>
      if p ∈ s.requests then
        some ({ s with requests := s.requests.erase p }.act p.dst (.recv p.src p.msg io))
      else none
  | .reply p =>
      if p ∈ s.replies then
        some ({ s with replies := s.replies.erase p }.act p.dst (.reply p.src p.msg))
      else none
  | .beforeWait i env => if i < N then some (s.act i (.beforeWait env)) else none

def clusterRun (N : Nat) : Cluster → List Label → Option Cluster
  | s, [] => some s
  | s, l :: ls => (clusterStep N s l).bind fun s => clusterRun N s ls

/-- Every step of the run meets the condition, in the state it finds. -/
def AllSteps (N : Nat) (ok : Cluster → Label → Prop) : Cluster → List Label → Prop
  | _, [] => True
  | s, l :: ls => ok s l ∧
      match clusterStep N s l with
      | none => True
      | some s' => AllSteps N ok s' ls

/-- **The rule for runs**: what every step that meets the condition keeps holds at the
    end. -/
theorem clusterRun_invariant {N : Nat} {ok : Cluster → Label → Prop} {I : Cluster → Prop}
    (hstep : ∀ s l s', I s → ok s l → clusterStep N s l = some s' → I s') :
    ∀ {ls : List Label} {s s' : Cluster}, I s → AllSteps N ok s ls →
      clusterRun N s ls = some s' → I s' := by
  intro ls
  induction ls with
  | nil =>
      intro s s' hI _ hrun
      obtain rfl := Option.some.inj hrun
      exact hI
  | cons l ls ih =>
      intro s s' hI hok hrun
      obtain ⟨hl, hrest⟩ := hok
      cases hs : clusterStep N s l with
      | none =>
          rw [clusterRun, hs] at hrun
          exact nomatch hrun
      | some s1 =>
          rw [clusterRun, hs] at hrun
          rw [hs] at hrest
          exact ih (hstep s l s1 hI hl hs) hrest hrun

theorem allSteps_true (N : Nat) (ls : List Label) : ∀ s : Cluster,
    AllSteps N (fun _ _ => True) s ls := by
  induction ls with
  | nil => exact fun _ => trivial
  | cons l ls ih =>
      intro s
      refine ⟨trivial, ?_⟩
      cases clusterStep N s l with
      | none => trivial
      | some s' => exact ih s'

/-- A condition on the labels alone joins a condition on the steps. -/
theorem AllSteps.and_forall {N : Nat} {ok : Cluster → Label → Prop} {P : Label → Prop}
    {ls : List Label} : ∀ {s : Cluster}, AllSteps N ok s ls → (∀ l ∈ ls, P l) →
      AllSteps N (fun s l => ok s l ∧ P l) s ls := by
  induction ls with
  | nil => intro s _ _; trivial
  | cons l ls ih =>
      rintro s ⟨hl, hrest⟩ hP
      refine ⟨⟨hl, hP l (List.mem_cons_self ..)⟩, ?_⟩
      cases hs : clusterStep N s l with
      | none => trivial
      | some s' =>
          rw [hs] at hrest
          exact ih hrest fun l' hl' => hP l' (List.mem_cons_of_mem _ hl')

/-- What the step `l` is in the state `s`: the event `e` at the node `i`, in the state
    `s'` with the datagram that causes it taken off the wire. -/
inductive Causes (s : Cluster) : Label → Cluster → Nat → Event → Prop where
  | echo (i : Nat) (str : Value) : Causes s (.echo i str) s i (.echo str)
  | recv (p : Packet) (io : SendTo) (hp : p ∈ s.requests) : Causes s (.recv p io)
      { s with requests := s.requests.erase p } p.dst (.recv p.src p.msg io)
  | reply (p : Packet) (hp : p ∈ s.replies) : Causes s (.reply p)
      { s with replies := s.replies.erase p } p.dst (.reply p.src p.msg)
  | beforeWait (i : Nat) (env : WriteEnv) : Causes s (.beforeWait i env) s i (.beforeWait env)

theorem clusterStep_cases {N : Nat} {s s' : Cluster} {l : Label}
    (h : clusterStep N s l = some s') : ∃ s₀ i e, Causes s l s₀ i e ∧ s' = s₀.act i e ∧
      (∀ str, l = .echo i str → i < N) ∧ (∀ env, l = .beforeWait i env → i < N) := by
  cases l with
  | echo i str =>
      obtain ⟨hi, heq⟩ := Option.ite_none_right_eq_some.mp h
      exact ⟨s, i, _, .echo i str, (Option.some.inj heq).symm, fun _ _ => hi, fun _ _ => hi⟩
  | recv p io =>
      obtain ⟨hp, heq⟩ := Option.ite_none_right_eq_some.mp h
      exact ⟨_, _, _, .recv p io hp, (Option.some.inj heq).symm, (fun _ h => nomatch h),
        fun _ h => nomatch h⟩
  | reply p =>
      obtain ⟨hp, heq⟩ := Option.ite_none_right_eq_some.mp h
      exact ⟨_, _, _, .reply p hp, (Option.some.inj heq).symm, (fun _ h => nomatch h),
        fun _ h => nomatch h⟩
  | beforeWait i env =>
      obtain ⟨hi, heq⟩ := Option.ite_none_right_eq_some.mp h
      exact ⟨s, i, _, .beforeWait i env, (Option.some.inj heq).symm, fun _ _ => hi, fun _ _ => hi⟩

/-- Only the wire has lost something. -/
structure Taken (s s' : Cluster) : Prop where
  host : s'.host = s.host
  requests : s'.requests ⊆ s.requests
  replies : s'.replies.Sublist s.replies

theorem Causes.taken {s s' : Cluster} {l : Label} {i : Nat} {e : Event}
    (h : Causes s l s' i e) : Taken s s' := by
  cases h with
  | echo => exact ⟨rfl, List.Subset.refl _, List.Sublist.refl _⟩
  | recv => exact ⟨rfl, List.erase_subset, List.Sublist.refl _⟩
  | reply => exact ⟨rfl, List.Subset.refl _, List.erase_sublist⟩
  | beforeWait => exact ⟨rfl, List.Subset.refl _, List.Sublist.refl _⟩

/-! ## What a node's step does to its surroundings -/

/-- The identity of a node and of its peers does not change. -/
structure Steady (ctx ctx' : Ctx) : Prop where
  nodeId : ctx'.nodeId = ctx.nodeId
  nNodes : ctx'.nNodes = ctx.nNodes
  addrs : ctx'.nodes.map Node.addr = ctx.nodes.map Node.addr

theorem nodeStep_steady (ctx : Ctx) (e : Event) : Steady ctx (nodeStep ctx e).ctx := by
  cases e with
  | echo str => exact ⟨rfl, rfl, addrs_queueRequest ..⟩
  | recv src msg io =>
      obtain ⟨_, _, _, _, hframe⟩ := fdIo_frame ctx src msg io
      show Steady ctx (epollHandlePaxosFdIo ctx src msg io).1
      rw [hframe]
      exact ⟨rfl, rfl, rfl⟩
  | reply src msg =>
      show Steady ctx (epollHandlePaxosNodeFdIo ctx src msg).1
      rcases nodeFdIo_cases ctx src msg with ⟨-, -, hr⟩ | ⟨-, -, hr⟩ | ⟨-, -, hr⟩
      · have hspec := countSuccess_spec ctx
        obtain ⟨_, hframe⟩ := hspec.frame
        rw [hr]
        refine ⟨?_, ?_, hspec.addrs⟩ <;> rw [hframe]
      · have hspec := countPromise_spec ctx src msg
        obtain ⟨_, _, _, _, hframe⟩ := hspec.frame
        rw [hr]
        exact ⟨by rw [hframe], by rw [hframe], hspec.addrs⟩
      · rw [hr]
        exact ⟨rfl, rfl, rfl⟩
  | beforeWait env =>
      refine ⟨rfl, rfl, ?_⟩
      show (ctx.nodes.map _).map Node.addr = _
      rw [List.map_map]
      refine List.map_congr_left fun node _ => ?_
      show (writeNode _ env node).1.addr = node.addr
      unfold writeNode
      split <;> rfl

/-- New requests in the queues go to peers. -/
theorem nodeStep_queued (ctx : Ctx) (e : Event) : ∀ q ∈ queue (nodeStep ctx e).ctx,
    q ∈ queue ctx ∨ q.dst ∈ ctx.nodes.map Node.addr := by
  intro q hq
  cases e with
  | echo str =>
      rcases mem_queueRequest hq with hold | ⟨-, -, hdst⟩
      · exact Or.inl hold
      · exact Or.inr hdst
  | recv src msg io =>
      obtain ⟨_, _, _, _, hframe⟩ := fdIo_frame ctx src msg io
      have hq' : q ∈ queue (epollHandlePaxosFdIo ctx src msg io).1 := hq
      rw [hframe] at hq'
      exact Or.inl hq'
  | reply src msg =>
      have hq' : q ∈ queue (epollHandlePaxosNodeFdIo ctx src msg).1 := hq
      rcases nodeFdIo_cases ctx src msg with ⟨-, -, hr⟩ | ⟨-, -, hr⟩ | ⟨-, -, hr⟩
      · rw [hr] at hq'
        rcases (countSuccess_spec ctx).queued q hq' with hold | ⟨-, -, hdst⟩
        · exact Or.inl hold
        · exact Or.inr hdst
      · rw [hr] at hq'
        have hspec := countPromise_spec ctx src msg
        rcases Nat.lt_or_ge (ctx.nNodes / 2) (ctx.nProposeOk + 1) with hlt | hge
        · rcases (hspec.quorum hlt).2 q hq' with hold | ⟨-, -, hdst⟩
          · exact Or.inl hold
          · exact Or.inr hdst
        · exact Or.inl ((hspec.early hge).2 q hq')
      · rw [hr] at hq'
        exact Or.inl hq'
  | beforeWait env => exact Or.inl (mem_epollBeforeWait.1 q hq)

/-- Requests are sent from the queues. -/
theorem nodeStep_requests (ctx : Ctx) (e : Event) : ∀ p ∈ (nodeStep ctx e).requests,
    p.src = ctx.nodeId ∧ ∃ q ∈ queue ctx, p.dst = q.dst := by
  intro p hp
  cases e with
  | echo str => exact nomatch hp
  | recv src msg io => exact nomatch hp
  | reply src msg => exact nomatch hp
  | beforeWait env =>
      obtain ⟨q, hq, _, _, -, hsrc, hdst, -⟩ := mem_epollBeforeWait.2 p hp
      exact ⟨hsrc, q, hq, hdst⟩

/-- What the acceptor does: only a datagram makes it act. -/
theorem nodeStep_act {ctx : Ctx} {e : Event} {a : Act} (h : (nodeStep ctx e).act = some a) :
    ∃ src msg io, e = .recv src msg io ∧
      ((msg.flag = 1 ∧ ctx.tMax < msg.proposalid ∧ a = .promise src msg.proposalid) ∨
       (msg.flag = 3 ∧ msg.proposalid = ctx.tMax ∧ a = .accept src msg.proposalid msg.value)) := by
  cases e with
  | echo str => exact nomatch h
  | reply src msg => exact nomatch h
  | beforeWait env => exact nomatch h
  | recv src msg io =>
      have h' : (epollHandlePaxosFdIo ctx src msg io).2.2 = some a := h
      refine ⟨src, msg, io, rfl, ?_⟩
      rcases fdIo_cases ctx src msg io with ⟨-, hr⟩ | ⟨hgt, hflag, c, out, -, hr⟩ |
        ⟨heq, hflag, c, out, -, hr⟩ | hr
      · rw [hr] at h'
        exact nomatch h'
      · rw [hr] at h'
        exact Or.inl ⟨hflag, hgt, (Option.some.inj h').symm⟩
      · rw [hr] at h'
        exact Or.inr ⟨hflag, heq, (Option.some.inj h').symm⟩
      · rw [hr] at h'
        exact nomatch h'

/-- The acceptor's invariant, over all events of the node. -/
theorem AcceptorInv.nodeStep {ctx : Ctx} {acts : List Act} (h : AcceptorInv (ctx, acts))
    (e : Event) : ctx.tMax ≤ (nodeStep ctx e).ctx.tMax ∧
      AcceptorInv ((nodeStep ctx e).ctx, acts ++ (nodeStep ctx e).act.toList) := by
  cases e with
  | recv src msg io => exact h.step (.recv src msg io)
  | echo str =>
      refine ⟨Nat.le_refl _, Nat.zero_le _, ?_, ?_⟩
      · show ∀ a ∈ acts ++ [], _
        rw [List.append_nil]
        exact h.acts_le
      · show (acts ++ []).Pairwise _
        rw [List.append_nil]
        exact h.respects
  | reply src msg =>
      obtain ⟨_, _, _, _, _, hframe⟩ := nodeFdIo_frame ctx src msg
      show ctx.tMax ≤ (epollHandlePaxosNodeFdIo ctx src msg).1.tMax ∧
        AcceptorInv ((epollHandlePaxosNodeFdIo ctx src msg).1, acts ++ [])
      rw [hframe, List.append_nil]
      exact ⟨Nat.le_refl _, h.store_le, h.acts_le, h.respects⟩
  | beforeWait env =>
      show ctx.tMax ≤ ctx.tMax ∧ AcceptorInv ((epollBeforeWait ctx env).1, acts ++ [])
      rw [List.append_nil]
      exact ⟨Nat.le_refl _, h.store_le, h.acts_le, h.respects⟩

/-! ## Replies -/

/-- A reply with this destination, message and ballot comes from an act of the
    acceptor: flag 2 from a promise, flag 4 from an acceptance. -/
def Answer (acts : List Act) (dst : Nat) (msg : Msg) (ballot : Nat) : Prop :=
  (msg.flag = 2 ∧ Act.promise dst ballot ∈ acts) ∨
  (msg.flag = 4 ∧ ∃ v, Act.accept dst msg.proposalid v ∈ acts)

theorem Answer.mono {acts acts' : List Act} {dst : Nat} {msg : Msg} {ballot : Nat}
    (h : Answer acts dst msg ballot) (hsub : acts ⊆ acts') : Answer acts' dst msg ballot := by
  rcases h with ⟨hflag, hmem⟩ | ⟨hflag, v, hmem⟩
  · exact Or.inl ⟨hflag, hsub hmem⟩
  · exact Or.inr ⟨hflag, v, hsub hmem⟩

/-- The flag and the ballot of a reply, queued or on its way. -/
def keysQ (qs : List Queued) : List (Nat × Nat) := qs.map fun q => (q.msg.flag, q.ballot)

def keysP (ps : List Packet) : List (Nat × Nat) := ps.map fun p => (p.msg.flag, p.ballot)

/-- The key of the reply that an act gives rise to. -/
def actKey : Option Act → List (Nat × Nat)
  | none => []
  | some (.promise _ t) => [(2, t)]
  | some (.accept _ t _) => [(4, t)]

theorem keys_writeQueue (src gen : Nat) (sendTo : Nat → SendTo) (stale : Nat → Value → Value) :
    ∀ (k : Nat) (qs : List Queued),
      (keysQ (writeQueue src gen sendTo stale k qs).1
        ++ keysP (writeQueue src gen sendTo stale k qs).2).Subperm (keysQ qs) := by
  intro k qs
  induction qs generalizing k with
  | nil => exact List.Subperm.refl _
  | cons q qs ih =>
      simp only [writeQueue]
      cases sendTo k with
      | sent =>
          have hkey : keysP (⟨src, q.dst, pack gen (stale k) q, q.ballot⟩ ::
              (writeQueue src gen sendTo stale (k + 1) qs).2)
              = (q.msg.flag, q.ballot) :: keysP (writeQueue src gen sendTo stale (k + 1) qs).2 := by
            show ((pack gen (stale k) q).flag, q.ballot) :: _ = _
            rw [(pack_header gen (stale k) q).1]
            rfl
          rw [hkey]
          exact List.perm_middle.subperm.trans ((List.subperm_cons _).mpr (ih (k + 1)))
      | again => exact (List.subperm_cons _).mpr (ih (k + 1))
      | failed => exact (ih (k + 1)).cons_right _

/-- A reply that is built for an act of the acceptor, wherever it goes. -/
theorem sendReply_replies (ctx : Ctx) (a : Act) (src ballot flag : Nat) (io : SendTo)
    {acts : List Act} (h : ∀ q ∈ ctx.oList, Answer acts q.dst q.msg q.ballot)
    (ha : Answer (acts ++ [a]) src (replyMsg ctx flag) ballot)
    (hkey : actKey (some a) = [(flag, ballot)]) :
    (∀ q ∈ (sendReply ctx src ballot flag io).1.oList,
      Answer (acts ++ [a]) q.dst q.msg q.ballot) ∧
    (∀ r ∈ (sendReply ctx src ballot flag io).2, r.src = ctx.nodeId ∧
      Answer (acts ++ [a]) r.dst r.msg r.ballot) ∧
    (keysQ (sendReply ctx src ballot flag io).1.oList
      ++ keysP (sendReply ctx src ballot flag io).2).Subperm
      (keysQ ctx.oList ++ actKey (some a)) := by
  have hold : ∀ q ∈ ctx.oList, Answer (acts ++ [a]) q.dst q.msg q.ballot :=
    fun q hq => (h q hq).mono (List.subset_append_left ..)
  rw [hkey]
  cases io with
  | sent =>
      refine ⟨hold, ?_, List.Subperm.refl _⟩
      intro r hr
      rw [List.mem_singleton.mp hr]
      exact ⟨rfl, ha⟩
  | again =>
      refine ⟨?_, (fun r hr => nomatch hr), ?_⟩
      · intro q hq
        cases List.mem_append.mp hq with
        | inl hq => exact hold q hq
        | inr hq => rw [List.mem_singleton.mp hq]; exact ha
      · show (keysQ (ctx.oList ++ [_]) ++ []).Subperm _
        rw [List.append_nil, keysQ, List.map_append]
        exact List.Subperm.refl _
  | failed =>
      refine ⟨hold, (fun r hr => nomatch hr), ?_⟩
      show (keysQ ctx.oList ++ []).Subperm _
      exact (List.subperm_append_left _).mpr List.nil_subperm

/-- **Replies come from acts**, one reply for an act at most. -/
theorem nodeStep_replies {ctx : Ctx} {acts : List Act}
    (h : ∀ q ∈ ctx.oList, Answer acts q.dst q.msg q.ballot) (e : Event) :
    (∀ q ∈ (nodeStep ctx e).ctx.oList,
      Answer (acts ++ (nodeStep ctx e).act.toList) q.dst q.msg q.ballot) ∧
    (∀ r ∈ (nodeStep ctx e).replies, r.src = ctx.nodeId ∧
      Answer (acts ++ (nodeStep ctx e).act.toList) r.dst r.msg r.ballot) ∧
    (keysQ (nodeStep ctx e).ctx.oList ++ keysP (nodeStep ctx e).replies).Subperm
      (keysQ ctx.oList ++ actKey (nodeStep ctx e).act) := by
  cases e with
  | echo str =>
      refine ⟨(fun q hq => nomatch hq), (fun r hr => nomatch hr), ?_⟩
      exact List.nil_subperm
  | reply src msg =>
      obtain ⟨_, _, _, _, _, hframe⟩ := nodeFdIo_frame ctx src msg
      have holist : (nodeStep ctx (.reply src msg)).ctx.oList = ctx.oList := by
        show (epollHandlePaxosNodeFdIo ctx src msg).1.oList = _
        rw [hframe]
      rw [holist]
      refine ⟨fun q hq => (h q hq).mono (List.subset_append_left ..), (fun r hr => nomatch hr), ?_⟩
      exact List.Subperm.refl _
  | beforeWait env =>
      have hacts : acts ++ (nodeStep ctx (.beforeWait env)).act.toList = acts := List.append_nil _
      rw [hacts]
      refine ⟨fun q hq => h q (mem_writeQueue.1 q hq), ?_, ?_⟩
      · intro r hr
        obtain ⟨q, hq, k, hmsg, hsrc, hdst, hballot⟩ := mem_writeQueue.2 r hr
        obtain ⟨hflag, hid⟩ := pack_header ctx.valueStore.gen (env.staleReply k) q
        refine ⟨hsrc, ?_⟩
        rw [hmsg, hdst, hballot]
        rcases h q hq with ⟨h2, hmem⟩ | ⟨h4, v, hmem⟩
        · exact Or.inl ⟨hflag.trans h2, hmem⟩
        · exact Or.inr ⟨hflag.trans h4, v, hid ▸ hmem⟩
      · show List.Subperm _ (keysQ ctx.oList ++ [])
        rw [List.append_nil]
        exact keys_writeQueue ..
  | recv src msg io =>
      show (∀ q ∈ (epollHandlePaxosFdIo ctx src msg io).1.oList, Answer (acts ++
          (epollHandlePaxosFdIo ctx src msg io).2.2.toList) q.dst q.msg q.ballot) ∧
        (∀ r ∈ (epollHandlePaxosFdIo ctx src msg io).2.1, r.src = ctx.nodeId ∧ Answer (acts ++
          (epollHandlePaxosFdIo ctx src msg io).2.2.toList) r.dst r.msg r.ballot) ∧
        (keysQ (epollHandlePaxosFdIo ctx src msg io).1.oList
          ++ keysP (epollHandlePaxosFdIo ctx src msg io).2.1).Subperm
          (keysQ ctx.oList ++ actKey (epollHandlePaxosFdIo ctx src msg io).2.2)
      have hidle : (∀ q ∈ ctx.oList, Answer (acts ++ []) q.dst q.msg q.ballot) ∧
          (∀ r ∈ ([] : List Packet), r.src = ctx.nodeId ∧ Answer (acts ++ []) r.dst r.msg r.ballot) ∧
          (keysQ ctx.oList ++ keysP []).Subperm (keysQ ctx.oList ++ actKey none) := by
        rw [List.append_nil]
        exact ⟨h, (fun r hr => nomatch hr), List.Subperm.refl _⟩
      rcases fdIo_cases ctx src msg io with ⟨-, hr⟩ | ⟨-, -, c, out, hsend, hr⟩ |
        ⟨-, -, c, out, hsend, hr⟩ | hr
      · rw [hr]
        exact hidle
      · have hspec := sendReply_replies { ctx with tMax := msg.proposalid }
          (.promise src msg.proposalid) src msg.proposalid 2 io h (Or.inl ⟨rfl, by simp⟩) rfl
        rw [hsend] at hspec
        rw [hr]
        exact hspec
      · have hspec := sendReply_replies { ctx with
            tStore := msg.proposalid
            valueStore := sdscpylen ctx.valueStore msg.value }
          (.accept src msg.proposalid msg.value) src msg.proposalid 4 io h
          (Or.inr ⟨rfl, msg.value, by simp [replyMsg]⟩) rfl
        rw [hsend] at hspec
        rw [hr]
        exact hspec
      · rw [hr]
        exact hidle

/-! ## What holds of a node in every run -/

/-- A node among its peers: what it knows of them, and what its history says. -/
structure Local (N i : Nat) (h : Host) : Prop where
  nodeId : h.ctx.nodeId = i
  nNodes : h.ctx.nNodes = N
  addrs : h.ctx.nodes.map Node.addr = peers N i
  queued : ∀ q ∈ queue h.ctx, q.dst ∈ peers N i
  sent : ∀ p ∈ h.sent, p.dst ∈ peers N i
  acceptor : AcceptorInv (h.ctx, h.acts)
  pos : ∀ src t, Act.promise src t ∈ h.acts → 0 < t
  heard_length : h.heard.length = h.ctx.nProposeOk
  heard_perm : (h.heard.map Prod.snd).Perm h.ctx.proposeOkList
  counted_length : h.counted.length = h.ctx.nProposeSuccess
  answers : ∀ q ∈ h.ctx.oList, Answer h.acts q.dst q.msg q.ballot

/-- The counters and lists of a round go with the history of the round. -/
theorem hostStep_round {h : Host} (e : Event) (hlen : h.heard.length = h.ctx.nProposeOk)
    (hperm : (h.heard.map Prod.snd).Perm h.ctx.proposeOkList)
    (hcount : h.counted.length = h.ctx.nProposeSuccess) :
    (hostStep h e).heard.length = (hostStep h e).ctx.nProposeOk ∧
    ((hostStep h e).heard.map Prod.snd).Perm (hostStep h e).ctx.proposeOkList ∧
    (hostStep h e).counted.length = (hostStep h e).ctx.nProposeSuccess := by
  cases e with
  | echo str => exact ⟨rfl, List.Perm.refl _, rfl⟩
  | recv src msg io =>
      obtain ⟨_, _, _, _, hframe⟩ := fdIo_frame h.ctx src msg io
      show h.heard.length = (epollHandlePaxosFdIo h.ctx src msg io).1.nProposeOk ∧
        (h.heard.map Prod.snd).Perm (epollHandlePaxosFdIo h.ctx src msg io).1.proposeOkList ∧
        h.counted.length = (epollHandlePaxosFdIo h.ctx src msg io).1.nProposeSuccess
      rw [hframe]
      exact ⟨hlen, hperm, hcount⟩
  | beforeWait env => exact ⟨hlen, hperm, hcount⟩
  | reply src msg =>
      show (heardAfter h.heard (.reply src msg)).length
          = (epollHandlePaxosNodeFdIo h.ctx src msg).1.nProposeOk ∧
        ((heardAfter h.heard (.reply src msg)).map Prod.snd).Perm
          (epollHandlePaxosNodeFdIo h.ctx src msg).1.proposeOkList ∧
        (countedAfter h.counted (.reply src msg)).length
          = (epollHandlePaxosNodeFdIo h.ctx src msg).1.nProposeSuccess
      simp only [heardAfter, countedAfter]
      rcases nodeFdIo_cases h.ctx src msg with ⟨h4, h2, hr⟩ | ⟨h4, h2, hr⟩ | ⟨h4, h2, hr⟩
      · obtain ⟨_, hframe⟩ := (countSuccess_spec h.ctx).frame
        rw [hr, hframe, if_neg h2, if_pos h4, List.length_append, hcount]
        exact ⟨hlen, hperm, rfl⟩
      · have hspec := countPromise_spec h.ctx src msg
        obtain ⟨_, _, _, _, hframe⟩ := hspec.frame
        rw [hr, if_pos h2, h4, if_neg Bool.false_ne_true]
        refine ⟨?_, ?_, ?_⟩
        · rw [hspec.count, List.length_append, hlen]
          rfl
        · rw [List.map_append]
          exact (hperm.append_right _).trans hspec.perm.symm
        · rw [hcount, hframe]
      · rw [hr, if_neg h2, h4, if_neg Bool.false_ne_true]
        exact ⟨hlen, hperm, hcount⟩

/-- **Every step of a node keeps this.** -/
theorem Local.step {N i : Nat} {h : Host} (hl : Local N i h) (e : Event) :
    Local N i (hostStep h e) := by
  have hsteady := nodeStep_steady h.ctx e
  obtain ⟨hlen, hperm, hcount⟩ :=
    hostStep_round e hl.heard_length hl.heard_perm hl.counted_length
  refine ⟨hsteady.nodeId.trans hl.nodeId, hsteady.nNodes.trans hl.nNodes,
    hsteady.addrs.trans hl.addrs, ?_, ?_, (hl.acceptor.nodeStep e).2, ?_, hlen, hperm, hcount,
    (nodeStep_replies hl.answers e).1⟩
  · intro q hq
    rcases nodeStep_queued h.ctx e q hq with hold | hdst
    · exact hl.queued q hold
    · rw [hl.addrs] at hdst
      exact hdst
  · intro p hp
    cases List.mem_append.mp hp with
    | inl hold => exact hl.sent p hold
    | inr hnew =>
        obtain ⟨-, q, hq, hdst⟩ := nodeStep_requests h.ctx e p hnew
        rw [hdst]
        exact hl.queued q hq
  · intro src t hmem
    cases List.mem_append.mp hmem with
    | inl hold => exact hl.pos src t hold
    | inr hnew =>
        obtain ⟨_, msg, _, -, ⟨-, hgt, heq⟩ | ⟨-, -, heq⟩⟩ :=
          nodeStep_act (Option.mem_toList.mp hnew)
        · obtain ⟨rfl, rfl⟩ := Act.promise.inj heq
          exact Nat.zero_lt_of_lt hgt
        · exact nomatch heq

theorem length_peers {N i : Nat} (hi : i < N) : (peers N i).length + 1 = N := by
  have hsplit := List.length_eq_length_filter_add (l := List.range N) (fun j => decide (j ≠ i))
  have hone : ((List.range N).filter fun j => !decide (j ≠ i)).length = 1 := by
    have : ((List.range N).filter fun j => !decide (j ≠ i)).length = (List.range N).count i := by
      rw [List.count, List.countP_eq_length_filter]
      congr 1
      refine List.filter_congr fun j _ => ?_
      by_cases hj : j = i <;> simp [hj]
    rw [this, List.count_eq_one_of_mem List.nodup_range (List.mem_range.mpr hi)]
  rw [List.length_range, hone] at hsplit
  exact hsplit.symm

theorem local_init {N i : Nat} (hi : i < N) : Local N i ((clusterInit N).host i) := by
  refine ⟨rfl, length_peers hi, ?_, ?_, (fun p hp => nomatch hp),
    ⟨Nat.le_refl _, (fun a ha => nomatch ha), List.Pairwise.nil⟩, (fun src t h => nomatch h), rfl,
    List.Perm.refl _, rfl, (fun q hq => nomatch hq)⟩
  · show ((peers N i).map _).map Node.addr = peers N i
    rw [List.map_map]
    exact List.map_id _
  · intro q hq
    have hq' : q ∈ queue (paxosInit i (peers N i)) := hq
    rw [queue_paxosInit] at hq'
    exact nomatch hq'

/-! ## What holds between the nodes in every run -/

/-- The replies of the acceptor `j` that have not been delivered: in its queue, and on
    their way. -/
def pending (s : Cluster) (j : Nat) : List (Nat × Nat) :=
  keysQ (s.host j).ctx.oList ++ keysP (s.replies.filter (·.src = j))

/-- Where the datagrams and the acts come from, and that a promise is delivered once
    at most. -/
structure Wire (N : Nat) (s : Cluster) : Prop where
  requests : ∀ p ∈ s.requests, p.src < N ∧ p ∈ (s.host p.src).sent
  replies : ∀ r ∈ s.replies, r.src < N ∧ Answer (s.host r.src).acts r.dst r.msg r.ballot
  promises : ∀ j, j < N → ∀ i t, Act.promise i t ∈ (s.host j).acts → i < N ∧ j ∈ peers N i
  accepts : ∀ j, j < N → ∀ i b v, Act.accept i b v ∈ (s.host j).acts → i < N ∧
    ∃ p ∈ (s.host i).sent, p.dst = j ∧ p.msg.flag = 3 ∧ p.msg.proposalid = b ∧ p.msg.value = v
  once : ∀ j, j < N → ((pending s j).filter (·.1 = 2)).Nodup

structure Base (N : Nat) (s : Cluster) : Prop where
  node : ∀ i, i < N → Local N i (s.host i)
  wire : Wire N s

section Act
variable (s : Cluster) (i : Nat) (e : Event)

theorem act_host_self : (s.act i e).host i = hostStep (s.host i) e := Function.update_self ..

theorem act_host_ne {j : Nat} (h : j ≠ i) : (s.act i e).host j = s.host j :=
  Function.update_of_ne h ..

theorem act_acts_subset (j : Nat) : (s.host j).acts ⊆ ((s.act i e).host j).acts := by
  by_cases h : j = i
  · rw [h, act_host_self]
    exact List.subset_append_left ..
  · rw [act_host_ne s i e h]
    exact List.Subset.refl _

theorem act_sent_subset (j : Nat) : (s.host j).sent ⊆ ((s.act i e).host j).sent := by
  by_cases h : j = i
  · rw [h, act_host_self]
    exact List.subset_append_left ..
  · rw [act_host_ne s i e h]
    exact List.Subset.refl _

/-- A new act is one of the node that takes the step. -/
theorem mem_act_acts {j : Nat} {a : Act} (h : a ∈ ((s.act i e).host j).acts) :
    a ∈ (s.host j).acts ∨ (j = i ∧ (nodeStep (s.host i).ctx e).act = some a) := by
  by_cases hj : j = i
  · rw [hj, act_host_self] at h
    cases List.mem_append.mp h with
    | inl hold => exact Or.inl (hj ▸ hold)
    | inr hnew => exact Or.inr ⟨hj, Option.mem_toList.mp hnew⟩
  · rw [act_host_ne s i e hj] at h
    exact Or.inl h

end Act

theorem promise_of_pending {N : Nat} {s : Cluster} (h : Base N s) {j b : Nat} (hj : j < N)
    (hb : (2, b) ∈ pending s j) : ∃ i, Act.promise i b ∈ (s.host j).acts := by
  rcases List.mem_append.mp hb with hq | hr
  · obtain ⟨q, hmemq, heq⟩ := List.mem_map.mp hq
    obtain ⟨hflag, rfl⟩ := Prod.mk.inj heq
    rcases (h.node j hj).answers q hmemq with ⟨-, hact⟩ | ⟨h4, -⟩
    · exact ⟨_, hact⟩
    · omega
  · obtain ⟨r, hmemr, heq⟩ := List.mem_map.mp hr
    obtain ⟨hflag, rfl⟩ := Prod.mk.inj heq
    obtain ⟨hfly, hsrc⟩ := List.mem_filter.mp hmemr
    have hsrc' : r.src = j := of_decide_eq_true hsrc
    rcases (h.wire.replies r hfly).2 with ⟨-, hact⟩ | ⟨h4, -⟩
    · rw [hsrc'] at hact
      exact ⟨_, hact⟩
    · omega

/-- The undelivered replies after a step. -/
theorem pending_act {N : Nat} {s : Cluster} (h : Base N s) {i : Nat} (hi : i < N) (e : Event)
    (j : Nat) : (pending (s.act i e) j).Subperm
      (pending s j ++ if j = i then actKey (nodeStep (s.host i).ctx e).act else []) := by
  obtain ⟨-, hout, hkeys⟩ := nodeStep_replies (h.node i hi).answers e
  have hsrc : ∀ r ∈ (nodeStep (s.host i).ctx e).replies, r.src = i :=
    fun r hr => (hout r hr).1.trans (h.node i hi).nodeId
  by_cases hj : j = i
  · subst hj
    have hall : (nodeStep (s.host j).ctx e).replies.filter (fun p => decide (p.src = j))
        = (nodeStep (s.host j).ctx e).replies :=
      List.filter_eq_self.mpr fun r hr => decide_eq_true (hsrc r hr)
    rw [if_pos rfl]
    show (keysQ ((s.act j e).host j).ctx.oList ++ keysP ((s.replies
      ++ (nodeStep (s.host j).ctx e).replies).filter fun p => decide (p.src = j))).Subperm _
    rw [act_host_self, List.filter_append, hall, keysP, List.map_append]
    refine (List.Perm.append_left _ List.perm_append_comm).subperm.trans ?_
    rw [← List.append_assoc]
    refine List.Subperm.trans (hkeys.append (List.Subperm.refl _)) ?_
    unfold pending
    rw [List.append_assoc, List.append_assoc]
    exact (List.Perm.append_left _ List.perm_append_comm).subperm
  · have hnone : (nodeStep (s.host i).ctx e).replies.filter (fun p => decide (p.src = j)) = [] := by
      refine List.filter_eq_nil_iff.mpr fun r hr => ?_
      rw [hsrc r hr, decide_eq_true_eq]
      exact fun heq => hj heq.symm
    rw [if_neg hj, List.append_nil]
    show (keysQ ((s.act i e).host j).ctx.oList ++ keysP ((s.replies
      ++ (nodeStep (s.host i).ctx e).replies).filter fun p => decide (p.src = j))).Subperm _
    rw [act_host_ne s i e hj, List.filter_append, hnone, List.append_nil]
    exact List.Subperm.refl _

/-- The promise that a step makes is new, so that none is pending twice. -/
theorem pending_act_promises {N : Nat} {s : Cluster} (h : Base N s) {i : Nat} (hi : i < N)
    (e : Event) {j : Nat} (hj : j < N) :
    ((pending (s.act i e) j).filter (·.1 = 2)).Nodup ∧
    ∀ b, (2, b) ∈ pending (s.act i e) j → (2, b) ∈ pending s j ∨ (s.host j).ctx.tMax < b := by
  have hsub := pending_act h hi e j
  have hfil := hsub.filter (fun k => decide (k.1 = 2))
  rw [List.filter_append] at hfil
  -- the keys of new promises
  have hnew : ∀ k ∈ (if j = i then actKey (nodeStep (s.host i).ctx e).act else []), k.1 = 2 →
      (s.host j).ctx.tMax < k.2 := by
    intro k hk h2
    by_cases hji : j = i
    · rw [if_pos hji] at hk
      cases hact : (nodeStep (s.host i).ctx e).act with
      | none =>
          rw [hact] at hk
          exact nomatch hk
      | some a =>
          rw [hact] at hk
          obtain ⟨_, msg, _, -, ⟨-, hgt, rfl⟩ | ⟨-, -, rfl⟩⟩ := nodeStep_act hact
          · rw [List.mem_singleton.mp hk, hji]
            exact hgt
          · rw [List.mem_singleton.mp hk] at h2
            exact nomatch h2
    · rw [if_neg hji] at hk
      exact nomatch hk
  refine ⟨?_, ?_⟩
  · obtain ⟨l, hperm, hsubl⟩ := hfil
    refine hperm.nodup_iff.mp (hsubl.nodup ?_)
    rw [List.nodup_append]
    refine ⟨h.wire.once j hj, ?_, ?_⟩
    · refine List.Nodup.filter _ ?_
      by_cases hji : j = i
      · rw [if_pos hji]
        cases (nodeStep (s.host i).ctx e).act with
        | none => exact List.nodup_nil
        | some a => cases a <;> exact List.nodup_singleton _
      · rw [if_neg hji]
        exact List.nodup_nil
    · intro k hk k' hk' heq
      obtain ⟨hmem, h2⟩ := List.mem_filter.mp hk
      obtain ⟨hmem', h2'⟩ := List.mem_filter.mp hk'
      have hlt := hnew k' hmem' (of_decide_eq_true h2')
      obtain ⟨f, b⟩ := k
      obtain rfl : f = 2 := of_decide_eq_true h2
      obtain ⟨_, hact⟩ := promise_of_pending h hj hmem
      have hle : b ≤ (s.host j).ctx.tMax := (h.node j hj).acceptor.acts_le _ hact
      rw [← heq] at hlt
      exact absurd hle (Nat.not_le_of_lt hlt)
  · intro b hb
    rcases List.mem_append.mp (hsub.subset hb) with hold | hnewb
    · exact Or.inl hold
    · exact Or.inr (hnew _ hnewb rfl)

/-- A datagram that a node handles comes from the history of its sender. -/
def Sourced (N : Nat) (s : Cluster) (i : Nat) : Event → Prop
  | .recv src msg _ => src < N ∧ ∃ p ∈ (s.host src).sent, p.dst = i ∧ p.msg = msg
  | .echo _ => True
  | .reply _ _ => True
  | .beforeWait _ => True

/-- **Every step of the cluster keeps the base.** -/
theorem Base.act {N : Nat} {s : Cluster} (h : Base N s) {i : Nat} (hi : i < N) {e : Event}
    (he : Sourced N s i e) : Base N (s.act i e) := by
  obtain ⟨-, hout, -⟩ := nodeStep_replies (h.node i hi).answers e
  refine ⟨?_, ?_, ?_, ?_, ?_, fun j hj => (pending_act_promises h hi e hj).1⟩
  · intro j hj
    by_cases hji : j = i
    · rw [hji, act_host_self]
      exact (h.node i hi).step e
    · rw [act_host_ne s i e hji]
      exact h.node j hj
  · intro p hp
    cases List.mem_append.mp hp with
    | inl hold =>
        obtain ⟨hlt, hsent⟩ := h.wire.requests p hold
        exact ⟨hlt, act_sent_subset s i e p.src hsent⟩
    | inr hnew =>
        have hsrc : p.src = i := (nodeStep_requests _ e p hnew).1.trans (h.node i hi).nodeId
        refine ⟨hsrc ▸ hi, ?_⟩
        rw [hsrc, act_host_self]
        exact List.mem_append.mpr (Or.inr hnew)
  · intro r hr
    cases List.mem_append.mp hr with
    | inl hold =>
        obtain ⟨hlt, hans⟩ := h.wire.replies r hold
        exact ⟨hlt, hans.mono (act_acts_subset s i e r.src)⟩
    | inr hnew =>
        obtain ⟨hid, hans⟩ := hout r hnew
        have hsrc : r.src = i := hid.trans (h.node i hi).nodeId
        refine ⟨hsrc ▸ hi, ?_⟩
        rw [hsrc, act_host_self]
        exact hans
  · intro j hj k t hmem
    rcases mem_act_acts s i e hmem with hold | ⟨rfl, hact⟩
    · exact h.wire.promises j hj k t hold
    · obtain ⟨src, msg, io, rfl, ⟨-, -, heq⟩ | ⟨-, -, heq⟩⟩ := nodeStep_act hact
      · obtain ⟨rfl, -⟩ := Act.promise.inj heq
        obtain ⟨hlt, p, hp, hdst, -⟩ := he
        exact ⟨hlt, hdst ▸ (h.node k hlt).sent p hp⟩
      · exact nomatch heq
  · intro j hj k b v hmem
    rcases mem_act_acts s i e hmem with hold | ⟨rfl, hact⟩
    · obtain ⟨hlt, p, hp, hrest⟩ := h.wire.accepts j hj k b v hold
      exact ⟨hlt, p, act_sent_subset s i e k hp, hrest⟩
    · obtain ⟨src, msg, io, rfl, ⟨-, -, heq⟩ | ⟨hflag, -, heq⟩⟩ := nodeStep_act hact
      · exact nomatch heq
      · obtain ⟨rfl, rfl, rfl⟩ := Act.accept.inj heq
        obtain ⟨hlt, p, hp, hdst, rfl⟩ := he
        exact ⟨hlt, p, act_sent_subset s _ _ k hp, hdst, hflag, rfl, rfl⟩

/-- Taking a datagram off the wire keeps the base. -/
theorem Base.take {N : Nat} {s s' : Cluster} (h : Base N s) (ht : Taken s s') : Base N s' := by
  obtain ⟨hhost, hreq, hrep⟩ := ht
  refine ⟨?_, ?_, ?_, ?_, ?_, ?_⟩
  · rw [hhost]
    exact h.node
  · rw [hhost]
    exact fun p hp => h.wire.requests p (hreq hp)
  · rw [hhost]
    exact fun r hr => h.wire.replies r (hrep.subset hr)
  · rw [hhost]
    exact h.wire.promises
  · rw [hhost]
    exact h.wire.accepts
  · intro j hj
    have hpend : (pending s' j).Sublist (pending s j) := by
      unfold pending
      rw [hhost]
      exact (List.Sublist.refl _).append ((hrep.filter _).map _)
    exact (hpend.filter _).nodup (h.wire.once j hj)

theorem mem_peers {N i j : Nat} : j ∈ peers N i ↔ j < N ∧ j ≠ i := by
  simp [peers]

/-- The node that handles a datagram exists. -/
theorem Base.reply_dst {N : Nat} {s : Cluster} (h : Base N s) {r : Packet} (hr : r ∈ s.replies) :
    r.dst < N := by
  obtain ⟨hsrc, ⟨-, hact⟩ | ⟨-, v, hact⟩⟩ := h.wire.replies r hr
  · exact (h.wire.promises _ hsrc _ _ hact).1
  · exact (h.wire.accepts _ hsrc _ _ _ hact).1

/-- **A step is an event of an existing node**, and a datagram that it handles comes from
    the history of its sender. -/
theorem Base.step_cases {N : Nat} {s s' : Cluster} {l : Label} (h : Base N s)
    (hstep : clusterStep N s l = some s') : ∃ s₀ i e, Causes s l s₀ i e ∧ i < N ∧
      Sourced N s₀ i e ∧ s' = s₀.act i e := by
  obtain ⟨s₀, i, e, hcause, rfl, hecho, hwrite⟩ := clusterStep_cases hstep
  refine ⟨s₀, i, e, hcause, ?_, ?_, rfl⟩
  · cases hcause with
    | echo _ str => exact hecho str rfl
    | recv p io hp =>
        obtain ⟨hsrc, hsent⟩ := h.wire.requests p hp
        exact (mem_peers.mp ((h.node p.src hsrc).sent p hsent)).1
    | reply p hp => exact h.reply_dst hp
    | beforeWait _ env => exact hwrite env rfl
  · cases hcause with
    | echo => trivial
    | recv p io hp =>
        obtain ⟨hsrc, hsent⟩ := h.wire.requests p hp
        exact ⟨hsrc, p, hsent, rfl, rfl⟩
    | reply => trivial
    | beforeWait => trivial

theorem Base.step {N : Nat} {s s' : Cluster} {l : Label} (h : Base N s)
    (hstep : clusterStep N s l = some s') : Base N s' := by
  obtain ⟨s₀, i, e, hcause, hi, hsrc, rfl⟩ := h.step_cases hstep
  exact (h.take hcause.taken).act hi hsrc

theorem base_init (N : Nat) : Base N (clusterInit N) := by
  refine ⟨fun i hi => local_init hi, (fun p hp => nomatch hp), (fun r hr => nomatch hr),
    (fun j _ i t h => nomatch h), (fun j _ i b v h => nomatch h), ?_⟩
  intro j _
  exact List.nodup_nil

/-- **The base holds in every run**, whatever is lost, delayed or reordered. -/
theorem base_run (N : Nat) (ls : List Label) (s : Cluster)
    (hrun : clusterRun N (clusterInit N) ls = some s) : Base N s :=
  clusterRun_invariant (fun _ _ _ hI _ hs => hI.step hs) (base_init N) (allSteps_true N ls _) hrun

end Paxos
