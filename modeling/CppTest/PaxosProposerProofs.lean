import CppTest.PaxosProofs

/-! # One proposer, one value per ballot

    The runs of a single node: `paxos_echo`, datagrams, replies and the writing of the
    queues, in any order (`Event`, `nodeStep`).

    * `Round` — what a proposer knows about its flag 3 messages: those of the current
      ballot exist only once a majority has promised, and carry `value_try`;
    * `OneValue` — all flag 3 messages of one ballot carry one value.

    Neither holds of every run.  `paxos_propose` runs again for every promise beyond
    the majority, and a promise that comes late with a larger `t` than all before
    replaces `value_try` (`one_value_per_ballot_fails`).  `Undisturbed` says when a
    step does no harm, and `one_value_per_ballot` that the law holds in every run of
    such steps. -/

namespace Paxos

/-! ## Runs of a node -/

/-- What can happen at a node. -/
inductive Event where
  | echo (str : Value)
  | recv (src : Nat) (msg : Msg) (io : SendTo)
  | reply (src : Nat) (msg : Msg)
  | beforeWait (env : WriteEnv)

/-- The node after an event, and what left it: requests, replies, an act of the
    acceptor, a value reported as chosen. -/
structure Effect where
  ctx : Ctx
  requests : List Packet
  replies : List Packet
  act : Option Act
  report : Option Report

def nodeStep (ctx : Ctx) : Event → Effect
  | .echo str => ⟨paxosEcho ctx str, [], [], none, none⟩
  | .recv src msg io =>
      let (ctx, out, act) := epollHandlePaxosFdIo ctx src msg io
      ⟨ctx, [], out, act, none⟩
  | .reply src msg =>
      let (ctx, report) := epollHandlePaxosNodeFdIo ctx src msg
      ⟨ctx, [], [], none, report⟩
  | .beforeWait env =>
      let (ctx, requests, replies) := epollBeforeWait ctx env
      ⟨ctx, requests, replies, none, none⟩

/-- The node after a sequence of events, and all requests it has sent. -/
def nodeRun (st : Ctx × List Packet) (es : List Event) : Ctx × List Packet :=
  es.foldl (fun st e => ((nodeStep st.1 e).ctx, st.2 ++ (nodeStep st.1 e).requests)) st

/-- Every event of the run meets the condition, in the state it finds. -/
def AllMeet (ok : Ctx → Event → Prop) : Ctx → List Event → Prop
  | _, [] => True
  | ctx, e :: es => ok ctx e ∧ AllMeet ok (nodeStep ctx e).ctx es

/-! ## The queues to the peers -/

/-- All requests that wait, peer after peer. -/
def queue (ctx : Ctx) : List Queued := ctx.nodes.flatMap Node.oList

theorem mem_queueRequest {ctx : Ctx} {flag : Nat} {sel : Node → Bool} {q : Queued}
    (h : q ∈ queue (queueRequest ctx flag sel)) : q ∈ queue ctx ∨
      (q.msg = requestMsg ctx flag ∧ q.gen = ctx.valueTry.gen ∧
        q.dst ∈ ctx.nodes.map Node.addr) := by
  simp only [queue, queueRequest, List.mem_flatMap, List.mem_map] at h ⊢
  obtain ⟨_, ⟨node, hnode, rfl⟩, hq⟩ := h
  cases hsel : sel node with
  | false =>
      rw [hsel] at hq
      exact Or.inl ⟨node, hnode, hq⟩
  | true =>
      rw [hsel] at hq
      cases List.mem_append.mp hq with
      | inl hold => exact Or.inl ⟨node, hnode, hold⟩
      | inr hnew =>
          rw [List.mem_singleton.mp hnew]
          exact Or.inr ⟨rfl, rfl, node, hnode, rfl⟩

/-- Setting `PAXOS_PROPOSE_OK` leaves the queues alone. -/
theorem queue_setOk (nodes : List Node) (src : Nat) :
    (nodes.map fun node => if node.addr = src then { node with proposeOk := true } else node).flatMap
      Node.oList = nodes.flatMap Node.oList := by
  rw [List.flatMap_map]
  refine List.flatMap_congr fun node _ => ?_
  by_cases h : node.addr = src
  · rw [if_pos h]
  · rw [if_neg h]

theorem addrs_queueRequest (ctx : Ctx) (flag : Nat) (sel : Node → Bool) :
    (queueRequest ctx flag sel).nodes.map Node.addr = ctx.nodes.map Node.addr := by
  show (ctx.nodes.map _).map Node.addr = _
  rw [List.map_map]
  refine List.map_congr_left fun node _ => ?_
  cases h : sel node <;> simp [h]

theorem addrs_setOk (nodes : List Node) (src : Nat) :
    (nodes.map fun node => if node.addr = src then { node with proposeOk := true } else node).map
      Node.addr = nodes.map Node.addr := by
  rw [List.map_map]
  refine List.map_congr_left fun node _ => ?_
  by_cases h : node.addr = src <;> simp [h]

theorem pack_eq {gen : Nat} {stale : Value → Value} {q : Queued} (h : q.gen = gen) :
    pack gen stale q = q.msg := if_pos h

theorem pack_header (gen : Nat) (stale : Value → Value) (q : Queued) :
    (pack gen stale q).flag = q.msg.flag ∧ (pack gen stale q).proposalid = q.msg.proposalid := by
  rw [pack]
  split <;> exact ⟨rfl, rfl⟩

/-- What a pass over a queue keeps was there, and what it sends is packed from
    there. -/
theorem mem_writeQueue {src gen : Nat} {sendTo : Nat → SendTo} {stale : Nat → Value → Value} :
    ∀ {k : Nat} {qs : List Queued},
      (∀ q ∈ (writeQueue src gen sendTo stale k qs).1, q ∈ qs) ∧
      (∀ p ∈ (writeQueue src gen sendTo stale k qs).2, ∃ q ∈ qs, ∃ j, p.msg = pack gen (stale j) q ∧
        p.src = src ∧ p.dst = q.dst ∧ p.ballot = q.ballot) := by
  intro k qs
  induction qs generalizing k with
  | nil => exact ⟨(fun _ h => nomatch h), (fun _ h => nomatch h)⟩
  | cons q qs ih =>
      obtain ⟨ihl, ihr⟩ := ih (k := k + 1)
      have hright : ∀ p ∈ (writeQueue src gen sendTo stale (k + 1) qs).2, ∃ q' ∈ q :: qs, ∃ j,
          p.msg = pack gen (stale j) q' ∧ p.src = src ∧ p.dst = q'.dst ∧ p.ballot = q'.ballot := by
        intro p hp
        obtain ⟨q', hq', h⟩ := ihr p hp
        exact ⟨q', List.mem_cons_of_mem _ hq', h⟩
      have hleft : ∀ q' ∈ (writeQueue src gen sendTo stale (k + 1) qs).1, q' ∈ q :: qs :=
        fun q' hq' => List.mem_cons_of_mem _ (ihl q' hq')
      simp only [writeQueue]
      cases sendTo k with
      | sent =>
          refine ⟨hleft, ?_⟩
          intro p hp
          cases List.mem_cons.mp hp with
          | inl heq =>
              rw [heq]
              exact ⟨q, List.mem_cons_self .., k, rfl, rfl, rfl, rfl⟩
          | inr hp => exact hright p hp
      | again =>
          refine ⟨?_, hright⟩
          intro q' hq'
          cases List.mem_cons.mp hq' with
          | inl heq => rw [heq]; exact List.mem_cons_self ..
          | inr hq' => exact hleft q' hq'
      | failed => exact ⟨hleft, hright⟩

/-- The same for all queues to the peers. -/
theorem mem_epollBeforeWait {ctx : Ctx} {env : WriteEnv} :
    (∀ q ∈ queue (epollBeforeWait ctx env).1, q ∈ queue ctx) ∧
    (∀ p ∈ (epollBeforeWait ctx env).2.1, ∃ q ∈ queue ctx, ∃ j k,
      p.msg = pack ctx.valueTry.gen (env.stale j k) q ∧ p.src = ctx.nodeId ∧ p.dst = q.dst ∧
      p.ballot = q.ballot) := by
  refine ⟨?_, ?_⟩
  · intro q hq
    simp only [queue, epollBeforeWait, paxosCtxWrite, List.mem_flatMap, List.mem_map] at hq ⊢
    obtain ⟨_, ⟨node, hnode, rfl⟩, hq⟩ := hq
    refine ⟨node, hnode, ?_⟩
    rw [writeNode] at hq
    split at hq
    · exact mem_writeQueue.1 q hq
    · exact hq
  · intro p hp
    simp only [epollBeforeWait, paxosCtxWrite, List.mem_flatMap] at hp
    obtain ⟨node, hnode, hp⟩ := hp
    rw [writeNode] at hp
    split at hp
    · obtain ⟨q, hq, k, h⟩ := mem_writeQueue.2 p hp
      exact ⟨q, List.mem_flatMap.mpr ⟨node, hnode, hq⟩, node.addr, k, h⟩
    · exact nomatch hp

/-! ## The promise with the largest `t` -/

/-- The first promise with the largest `t`. -/
def best : List Promise → Option Promise
  | [] => none
  | p :: ps =>
      match best ps with
      | none => some p
      | some q => if q.t ≤ p.t then some p else some q

theorem head_sortByT (l : List Promise) : (sortByT l).head? = best l := by
  induction l with
  | nil => rfl
  | cons p ps ih =>
      show ((sortByT ps).orderedInsert (fun a b => b.t ≤ a.t) p).head? = _
      simp only [best, ← ih]
      cases sortByT ps with
      | nil => rfl
      | cons q qs =>
          show _ = if q.t ≤ p.t then some p else some q
          rw [List.orderedInsert_cons]
          by_cases h : q.t ≤ p.t
          · rw [if_pos h, if_pos h]
            rfl
          · rw [if_neg h, if_neg h]
            rfl

theorem sortByT_perm (l : List Promise) : (sortByT l).Perm l := List.perm_insertionSort _ l

theorem sortByT_sorted (l : List Promise) : (sortByT l).Pairwise fun a b => b.t ≤ a.t := by
  have : Std.Total fun a b : Promise => b.t ≤ a.t := ⟨fun a b => le_total b.t a.t⟩
  have : IsTrans Promise fun a b => b.t ≤ a.t := ⟨fun _ _ _ hab hbc => hbc.trans hab⟩
  exact List.pairwise_insertionSort _ l

/-- Sorting again changes nothing. -/
theorem best_sortByT (l : List Promise) : best (sortByT l) = best l := by
  rw [← head_sortByT, ← head_sortByT]
  congr 1
  exact (sortByT_sorted l).insertionSort_eq

theorem best_mem {l : List Promise} {p : Promise} (h : best l = some p) :
    p ∈ l ∧ ∀ q ∈ l, q.t ≤ p.t := by
  rw [← head_sortByT] at h
  have hsorted := sortByT_sorted l
  have hmem : ∀ q, q ∈ sortByT l ↔ q ∈ l := fun q => (sortByT_perm l).mem_iff
  cases hs : sortByT l with
  | nil =>
      rw [hs] at h
      exact nomatch h
  | cons a rest =>
      rw [hs] at h hsorted hmem
      obtain rfl := Option.some.inj h
      refine ⟨(hmem a).mp (List.mem_cons_self ..), ?_⟩
      intro q hq
      cases List.mem_cons.mp ((hmem q).mpr hq) with
      | inl heq => rw [heq]
      | inr hq => exact (List.pairwise_cons.mp hsorted).1 q hq

/-- One more promise: it is the best only if its `t` is larger than all before. -/
theorem best_snoc (l : List Promise) (m : Promise) : best (l ++ [m]) = match best l with
    | none => some m
    | some q => if m.t ≤ q.t then some q else some m := by
  induction l with
  | nil => rfl
  | cons p ps ih =>
      simp only [List.cons_append, best, ih]
      cases best ps with
      | none => rfl
      | some q =>
          show (match if m.t ≤ q.t then some q else some m with
            | none => some p
            | some r => if r.t ≤ p.t then some p else some r)
              = match if q.t ≤ p.t then some p else some q with
                | none => some m
                | some r => if m.t ≤ r.t then some r else some m
          by_cases h1 : m.t ≤ q.t <;> by_cases h2 : q.t ≤ p.t <;> by_cases h3 : m.t ≤ p.t <;>
            simp [h1, h2, h3] <;> omega

/-! ## What the handlers change -/

/-- `value_try` after the promise with the largest `t` has been looked at. -/
def adopted (s : Sds) : Option Promise → Sds
  | none => s
  | some p => if p.t > 0 then sdscpylen s p.value else s

theorem adoptMax_eq (ctx : Ctx) : adoptMax ctx = { ctx with
    proposeOkList := sortByT ctx.proposeOkList
    valueTry := adopted ctx.valueTry (best ctx.proposeOkList) } := by
  rw [← head_sortByT]
  rw [adoptMax]
  cases hs : sortByT ctx.proposeOkList with
  | nil =>
      have hnil : ctx.proposeOkList = [] := by
        have := (sortByT_perm ctx.proposeOkList).length_eq
        rw [hs] at this
        exact List.length_eq_zero_iff.mp this.symm
      show ctx = { ctx with proposeOkList := [] }
      rw [← hnil]
  | cons p rest => rfl

/-- The acceptor's handler changes nothing of the proposer. -/
theorem fdIo_frame (ctx : Ctx) (src : Nat) (msg : Msg) (io : SendTo) :
    ∃ tMax tStore valueStore oList, (epollHandlePaxosFdIo ctx src msg io).1
      = { ctx with tMax := tMax, tStore := tStore, valueStore := valueStore, oList := oList } := by
  have hsend : ∀ (c : Ctx) (b f : Nat), ∃ oList,
      (sendReply c src b f io).1 = { c with oList := oList } := by
    intro c b f
    cases io with
    | sent => exact ⟨_, rfl⟩
    | again => exact ⟨_, rfl⟩
    | failed => exact ⟨_, rfl⟩
  rw [epollHandlePaxosFdIo]
  split
  · exact ⟨_, _, _, _, rfl⟩
  · split
    · obtain ⟨oList, h⟩ := hsend { ctx with tMax := msg.proposalid } msg.proposalid 2
      exact ⟨_, _, _, _, h⟩
    · split
      · obtain ⟨oList, h⟩ := hsend { ctx with
          tStore := msg.proposalid
          valueStore := sdscpylen ctx.valueStore msg.value } msg.proposalid 4
        exact ⟨_, _, _, _, h⟩
      · exact ⟨_, _, _, _, rfl⟩

/-- **What a promise does to the proposer**, written out. -/
structure CountsPromise (ctx : Ctx) (msg : Msg) (ctx' : Ctx) : Prop where
  frame : ∃ valueTry proposeOkList nProposeOk nodes, ctx' = { ctx with
    valueTry := valueTry, proposeOkList := proposeOkList, nProposeOk := nProposeOk, nodes := nodes }
  count : ctx'.nProposeOk = ctx.nProposeOk + 1
  perm : ctx'.proposeOkList.Perm (ctx.proposeOkList ++ [⟨msg.proposalid, msg.value⟩])
  best_eq : best ctx'.proposeOkList = best (ctx.proposeOkList ++ [⟨msg.proposalid, msg.value⟩])
  addrs : ctx'.nodes.map Node.addr = ctx.nodes.map Node.addr
  early : ctx.nProposeOk + 1 ≤ ctx.nNodes / 2 → ctx'.valueTry = ctx.valueTry ∧
    ∀ q ∈ queue ctx', q ∈ queue ctx
  quorum : ctx.nNodes / 2 < ctx.nProposeOk + 1 →
    ctx'.valueTry = adopted ctx.valueTry (best ctx'.proposeOkList) ∧
    ∀ q ∈ queue ctx', q ∈ queue ctx ∨
      (q.msg = requestMsg ctx' 3 ∧ q.gen = ctx'.valueTry.gen ∧
        q.dst ∈ ctx.nodes.map Node.addr)

theorem countPromise_spec (ctx : Ctx) (src : Nat) (msg : Msg) :
    CountsPromise ctx msg (countPromise ctx src msg) := by
  have hqueue := queue_setOk ctx.nodes src
  rw [countPromise]
  by_cases h : ctx.nNodes / 2 < ctx.nProposeOk + 1
  · simp only [adoptMax_eq]
    rw [if_pos h]
    refine ⟨⟨_, _, _, _, rfl⟩, rfl, sortByT_perm _, best_sortByT _, ?_,
      fun h' => absurd h (by omega), fun _ => ⟨?_, ?_⟩⟩
    · exact (addrs_queueRequest ..).trans (addrs_setOk ..)
    · show adopted _ _ = adopted _ (best (sortByT _))
      rw [best_sortByT]
    · intro q hq
      rcases mem_queueRequest hq with hold | hnew
      · refine Or.inl ?_
        rw [queue] at hold ⊢
        rw [← hqueue]
        exact hold
      · obtain ⟨hmsg, hgen, hdst⟩ := hnew
        exact Or.inr ⟨hmsg, hgen, (addrs_setOk ctx.nodes src) ▸ hdst⟩
  · simp only []
    rw [if_neg h]
    refine ⟨⟨_, _, _, _, rfl⟩, rfl, List.Perm.refl _, rfl, addrs_setOk .., fun _ => ⟨rfl, ?_⟩,
      fun h' => absurd h' h⟩
    intro q hq
    rw [queue] at hq ⊢
    rw [← hqueue]
    exact hq

/-- **What an acceptance does to the proposer**: it is counted, and beyond a majority
    the value is reported and flag 5 is queued. -/
structure CountsSuccess (ctx : Ctx) (r : Ctx × Option Report) : Prop where
  frame : ∃ nodes, r.1 = { ctx with nProposeSuccess := ctx.nProposeSuccess + 1, nodes := nodes }
  addrs : r.1.nodes.map Node.addr = ctx.nodes.map Node.addr
  queued : ∀ q ∈ queue r.1, q ∈ queue ctx ∨ (ctx.nNodes / 2 < ctx.nProposeSuccess + 1 ∧
    q.msg = requestMsg ctx 5 ∧ q.dst ∈ ctx.nodes.map Node.addr)
  report : ∀ rep, r.2 = some rep → ctx.nNodes / 2 < ctx.nProposeSuccess + 1 ∧
    rep = ⟨ctx.instanceId, ctx.tTry, ctx.valueTry.bytes⟩

theorem countSuccess_spec (ctx : Ctx) : CountsSuccess ctx (countSuccess ctx) := by
  rw [countSuccess]
  by_cases h : ctx.nNodes / 2 < ctx.nProposeSuccess + 1
  · simp only []
    rw [if_pos h]
    refine ⟨⟨_, rfl⟩, addrs_queueRequest .., ?_, ?_⟩
    · intro q hq
      rcases mem_queueRequest hq with hold | ⟨hmsg, -, hdst⟩
      · exact Or.inl hold
      · exact Or.inr ⟨h, hmsg, hdst⟩
    · intro rep hrep
      exact ⟨h, (Option.some.inj hrep).symm⟩
  · simp only []
    rw [if_neg h]
    exact ⟨⟨_, rfl⟩, rfl, fun q hq => Or.inl hq, fun rep hrep => nomatch hrep⟩

/-- A reply is an acceptance, a promise, or ignored. -/
theorem nodeFdIo_cases (ctx : Ctx) (src : Nat) (msg : Msg) :
    ((msg.hasPreacceptid && msg.flag == 4) = true ∧ msg.flag ≠ 2 ∧
      epollHandlePaxosNodeFdIo ctx src msg = countSuccess ctx) ∨
    ((msg.hasPreacceptid && msg.flag == 4) = false ∧ msg.flag = 2 ∧
      epollHandlePaxosNodeFdIo ctx src msg = (countPromise ctx src msg, none)) ∨
    ((msg.hasPreacceptid && msg.flag == 4) = false ∧ msg.flag ≠ 2 ∧
      epollHandlePaxosNodeFdIo ctx src msg = (ctx, none)) := by
  rw [epollHandlePaxosNodeFdIo]
  cases h4 : msg.hasPreacceptid && msg.flag == 4 with
  | true =>
      have hflag : msg.flag = 4 := by
        simp only [Bool.and_eq_true, beq_iff_eq] at h4
        exact h4.2
      exact Or.inl ⟨rfl, by omega, if_pos rfl⟩
  | false =>
      rw [if_neg Bool.false_ne_true]
      by_cases h2 : msg.flag = 2
      · rw [if_pos h2]
        exact Or.inr (Or.inl ⟨rfl, h2, rfl⟩)
      · rw [if_neg h2]
        exact Or.inr (Or.inr ⟨rfl, h2, rfl⟩)

/-- The proposer's handler changes nothing of the acceptor. -/
theorem nodeFdIo_frame (ctx : Ctx) (src : Nat) (msg : Msg) :
    ∃ valueTry proposeOkList nProposeOk nProposeSuccess nodes,
      (epollHandlePaxosNodeFdIo ctx src msg).1 = { ctx with
        valueTry := valueTry, proposeOkList := proposeOkList, nProposeOk := nProposeOk,
        nProposeSuccess := nProposeSuccess, nodes := nodes } := by
  rcases nodeFdIo_cases ctx src msg with ⟨-, -, hr⟩ | ⟨-, -, hr⟩ | ⟨-, -, hr⟩
  · obtain ⟨_, hframe⟩ := (countSuccess_spec ctx).frame
    rw [hr]
    exact ⟨_, _, _, _, _, hframe⟩
  · obtain ⟨_, _, _, _, hframe⟩ := (countPromise_spec ctx src msg).frame
    rw [hr]
    exact ⟨_, _, _, _, _, hframe⟩
  · rw [hr]
    exact ⟨_, _, _, _, _, rfl⟩

/-! ## The flag 3 messages of a node -/

/-- A flag 3 message with this ballot and value has been sent, or waits. -/
def Offered (ctx : Ctx) (sent : List Packet) (b : Nat) (v : Value) : Prop :=
  (∃ p ∈ sent, p.msg.flag = 3 ∧ p.msg.proposalid = b ∧ p.msg.value = v) ∨
  (∃ q ∈ queue ctx, q.msg.flag = 3 ∧ q.msg.proposalid = b ∧ q.msg.value = v)

theorem Offered.mono {ctx ctx' : Ctx} {sent : List Packet} {b : Nat} {v : Value}
    (hq : ∀ q ∈ queue ctx', q ∈ queue ctx ∨ q.msg.flag ≠ 3) (h : Offered ctx' sent b v) :
    Offered ctx sent b v := by
  rcases h with hsent | ⟨q, hmem, hflag, hb, hv⟩
  · exact Or.inl hsent
  · rcases hq q hmem with hold | hne
    · exact Or.inr ⟨q, hold, hflag, hb, hv⟩
    · exact absurd hflag hne

theorem queue_paxosEcho {ctx : Ctx} {str : Value} : ∀ q ∈ queue (paxosEcho ctx str),
    q ∈ queue ctx ∨ q.msg.flag ≠ 3 := by
  intro q hq
  rcases mem_queueRequest hq with hold | ⟨hmsg, -⟩
  · exact Or.inl hold
  · rw [hmsg]
    exact Or.inr (show (1 : Nat) ≠ 3 by decide)

theorem queue_countSuccess {ctx : Ctx} : ∀ q ∈ queue (countSuccess ctx).1,
    q ∈ queue ctx ∨ q.msg.flag ≠ 3 := by
  intro q hq
  rcases (countSuccess_spec ctx).queued q hq with hold | ⟨-, hmsg, -⟩
  · exact Or.inl hold
  · rw [hmsg]
    exact Or.inr (show (5 : Nat) ≠ 3 by decide)

/-- After a promise, a flag 3 message is an old one, or one of the current ballot
    with the current value. -/
theorem Offered.of_promise {ctx : Ctx} {sent : List Packet} {src : Nat} {msg : Msg} {b : Nat}
    {v : Value} (h : Offered (countPromise ctx src msg) sent b v) : Offered ctx sent b v ∨
      (ctx.nNodes / 2 < ctx.nProposeOk + 1 ∧ b = ctx.tTry ∧
        v = (countPromise ctx src msg).valueTry.bytes) := by
  have hspec := countPromise_spec ctx src msg
  obtain ⟨_, _, _, _, hframe⟩ := hspec.frame
  rcases h with hsent | ⟨q, hmem, hflag, hb, hv⟩
  · exact Or.inl (Or.inl hsent)
  · rcases Nat.lt_or_ge (ctx.nNodes / 2) (ctx.nProposeOk + 1) with hlt | hge
    · rcases (hspec.quorum hlt).2 q hmem with hold | ⟨hmsg, -, -⟩
      · exact Or.inl (Or.inr ⟨q, hold, hflag, hb, hv⟩)
      · refine Or.inr ⟨hlt, ?_, ?_⟩
        · rw [← hb, hmsg, hframe]
          rfl
        · rw [← hv, hmsg]
          rfl
    · exact Or.inl (Or.inr ⟨q, (hspec.early hge).2 q hmem, hflag, hb, hv⟩)

/-- After writing, a flag 3 message is an old one, or was packed from one. -/
theorem Offered.of_beforeWait {ctx : Ctx} {sent : List Packet} {env : WriteEnv} {b : Nat}
    {v : Value} (h : Offered (epollBeforeWait ctx env).1
      (sent ++ (epollBeforeWait ctx env).2.1) b v) : Offered ctx sent b v ∨
      ∃ q ∈ queue ctx, q.msg.flag = 3 ∧ q.msg.proposalid = b ∧
        ∃ j k, v = (pack ctx.valueTry.gen (env.stale j k) q).value := by
  rcases h with ⟨p, hp, hflag, hb, hv⟩ | ⟨q, hmem, hq⟩
  · rcases List.mem_append.mp hp with hold | hnew
    · exact Or.inl (Or.inl ⟨p, hold, hflag, hb, hv⟩)
    · obtain ⟨q, hq, j, k, hmsg, -⟩ := mem_epollBeforeWait.2 p hnew
      obtain ⟨hf, hid⟩ := pack_header ctx.valueTry.gen (env.stale j k) q
      rw [hmsg] at hflag hb hv
      exact Or.inr ⟨q, hq, hf ▸ hflag, hid ▸ hb, j, k, hv.symm⟩
  · exact Or.inl (Or.inr ⟨q, mem_epollBeforeWait.1 q hmem, hq⟩)

/-! ## The current round -/

/-- The flag 3 messages of the current ballot: there are some only once a majority
    has promised, and they carry `value_try`, which is the value of the best
    promise. -/
structure Round (ctx : Ctx) (sent : List Packet) : Prop where
  le : ∀ b v, Offered ctx sent b v → b ≤ ctx.tTry
  now : ∀ v, Offered ctx sent ctx.tTry v →
    ctx.nNodes / 2 < ctx.nProposeOk ∧ v = ctx.valueTry.bytes
  gen : ∀ q ∈ queue ctx, q.msg.flag = 3 → q.msg.proposalid = ctx.tTry →
    q.gen = ctx.valueTry.gen
  best_value : ctx.nNodes / 2 < ctx.nProposeOk → ∀ p, best ctx.proposeOkList = some p →
    0 < p.t → p.value = ctx.valueTry.bytes

/-- A promise that comes when a majority has promised already does not carry a larger
    `t` than every promise before, unless with the value that is proposed. -/
def NotLateAndLarger (ctx : Ctx) (msg : Msg) : Prop :=
  msg.flag = 2 → ctx.nNodes / 2 < ctx.nProposeOk →
    (∃ p ∈ ctx.proposeOkList, msg.proposalid ≤ p.t) ∨ msg.value = ctx.valueTry.bytes

/-- `++t_try` does not wrap, and no promise is late and larger. -/
def KeepsRound (ctx : Ctx) : Event → Prop
  | .echo _ => ctx.tTry + 1 < 2 ^ 64
  | .reply _ msg => NotLateAndLarger ctx msg
  | .recv _ _ _ => True
  | .beforeWait _ => True

theorem sdscpylen_self (s : Sds) : sdscpylen s s.bytes = s := if_pos rfl

theorem bytes_sdscpylen (s : Sds) (v : Value) : (sdscpylen s v).bytes = v := by
  rw [sdscpylen]
  split
  · rename_i heq
    exact heq.symm
  · rfl

theorem adopted_eq {s : Sds} {o : Option Promise}
    (h : ∀ p, o = some p → 0 < p.t → p.value = s.bytes) : adopted s o = s := by
  cases o with
  | none => rfl
  | some p =>
      show (if p.t > 0 then sdscpylen s p.value else s) = s
      by_cases ht : p.t > 0
      · rw [if_pos ht, h p rfl ht, sdscpylen_self]
      · rw [if_neg ht]

theorem adopted_bytes (s : Sds) {p : Promise} (ht : 0 < p.t) :
    (adopted s (some p)).bytes = p.value := by
  show (if p.t > 0 then sdscpylen s p.value else s).bytes = p.value
  rw [if_pos ht, bytes_sdscpylen]

/-- A late promise that is not larger leaves `value_try` alone. -/
theorem Round.late {ctx : Ctx} {sent : List Packet} (h : Round ctx sent) {src : Nat} {msg : Msg}
    (hmsg : NotLateAndLarger ctx msg) (hflag : msg.flag = 2)
    (hq : ctx.nNodes / 2 < ctx.nProposeOk) :
    (countPromise ctx src msg).valueTry = ctx.valueTry := by
  have hspec := countPromise_spec ctx src msg
  rw [(hspec.quorum (by omega)).1]
  refine adopted_eq fun p hp ht => ?_
  rw [hspec.best_eq, best_snoc] at hp
  rcases hmsg hflag hq with ⟨r, hr, hle⟩ | hval
  · cases hb : best ctx.proposeOkList with
    | none =>
        have := (head_sortByT ctx.proposeOkList).trans hb
        rw [List.head?_eq_none_iff] at this
        have hnil := (sortByT_perm ctx.proposeOkList).mem_iff.mpr hr
        rw [this] at hnil
        exact nomatch hnil
    | some q =>
        rw [hb] at hp
        have hmq : msg.proposalid ≤ q.t := hle.trans ((best_mem hb).2 r hr)
        simp only [if_pos hmq, Option.some.injEq] at hp
        rw [← hp] at ht ⊢
        exact h.best_value hq q hb ht
  · cases hb : best ctx.proposeOkList with
    | none =>
        rw [hb] at hp
        obtain rfl := Option.some.inj hp
        exact hval
    | some q =>
        rw [hb] at hp
        by_cases hmq : msg.proposalid ≤ q.t
        · simp only [if_pos hmq, Option.some.injEq] at hp
          rw [← hp] at ht ⊢
          exact h.best_value hq q hb ht
        · simp only [if_neg hmq, Option.some.injEq] at hp
          rw [← hp]
          exact hval

section Steps
variable {ctx : Ctx} {sent : List Packet} (h : Round ctx sent)
include h

/-- A new ballot: all flag 3 messages are of smaller ones. -/
theorem Round.echo (str : Value) (hwrap : ctx.tTry + 1 < 2 ^ 64) :
    Round (paxosEcho ctx str) sent := by
  have htry : (paxosEcho ctx str).tTry = ctx.tTry + 1 := Nat.mod_eq_of_lt hwrap
  have hnone : ∀ b v, Offered (paxosEcho ctx str) sent b v → b < ctx.tTry + 1 := by
    intro b v hoff
    exact Nat.lt_succ_of_le (h.le b v (hoff.mono queue_paxosEcho))
  refine ⟨?_, ?_, ?_, ?_⟩
  · intro b v hoff
    rw [htry]
    exact (hnone b v hoff).le
  · intro v hoff
    rw [htry] at hoff
    exact absurd (hnone _ v hoff) (Nat.lt_irrefl _)
  · intro q hq hflag hid
    rw [htry] at hid
    exact absurd (hnone _ _ (Or.inr ⟨q, hq, hflag, hid, rfl⟩)) (Nat.lt_irrefl _)
  · intro hlt
    exact nomatch hlt

theorem Round.success : Round (countSuccess ctx).1 sent := by
  obtain ⟨_, hframe⟩ := (countSuccess_spec ctx).frame
  have hoff : ∀ b v, Offered (countSuccess ctx).1 sent b v → Offered ctx sent b v :=
    fun b v hoff => hoff.mono queue_countSuccess
  have hqueue := @queue_countSuccess ctx
  rw [hframe] at hoff hqueue ⊢
  refine ⟨fun b v hb => h.le b v (hoff b v hb), fun v hv => h.now v (hoff _ v hv), ?_,
    h.best_value⟩
  intro q hq hflag hid
  rcases hqueue q hq with hold | hne
  · exact h.gen q hold hflag hid
  · exact absurd hflag hne

/-- A promise that is not late and larger.  If there are messages of the current
    ballot already, a majority had promised before, and `value_try` stays. -/
theorem Round.promise {src : Nat} {msg : Msg} (hflag : msg.flag = 2)
    (hmsg : NotLateAndLarger ctx msg) : Round (countPromise ctx src msg) sent := by
  have hspec := countPromise_spec ctx src msg
  obtain ⟨_, _, _, _, hframe⟩ := hspec.frame
  have htry : (countPromise ctx src msg).tTry = ctx.tTry := by rw [hframe]
  have hn : (countPromise ctx src msg).nNodes = ctx.nNodes := by rw [hframe]
  refine ⟨?_, ?_, ?_, ?_⟩
  · intro b v hoff
    rw [htry]
    rcases hoff.of_promise with hold | ⟨-, rfl, -⟩
    · exact h.le b v hold
    · exact Nat.le_refl _
  · intro v hoff
    rw [htry] at hoff
    rw [hn, hspec.count]
    rcases hoff.of_promise with hold | ⟨hlt, -, hval⟩
    · obtain ⟨hq, hval⟩ := h.now v hold
      rw [h.late hmsg hflag hq]
      exact ⟨hq.trans (Nat.lt_succ_self _), hval⟩
    · exact ⟨hlt, hval⟩
  · intro q hq hflag3 hid
    rw [htry] at hid
    rcases Nat.lt_or_ge (ctx.nNodes / 2) (ctx.nProposeOk + 1) with hlt | hge
    · rcases (hspec.quorum hlt).2 q hq with hold | ⟨-, hgen, -⟩
      · obtain ⟨hlate, -⟩ := h.now _ (Or.inr ⟨q, hold, hflag3, hid, rfl⟩)
        rw [h.late hmsg hflag hlate]
        exact h.gen q hold hflag3 hid
      · exact hgen
    · rw [(hspec.early hge).1]
      exact h.gen q ((hspec.early hge).2 q hq) hflag3 hid
  · intro hlt p hp ht
    rw [hn, hspec.count] at hlt
    rw [(hspec.quorum hlt).1, hp]
    exact (adopted_bytes ctx.valueTry ht).symm

/-- What is packed for the current ballot is what was queued. -/
theorem Round.beforeWait (env : WriteEnv) :
    Round (epollBeforeWait ctx env).1 (sent ++ (epollBeforeWait ctx env).2.1) := by
  have hoff : ∀ v, Offered (epollBeforeWait ctx env).1
      (sent ++ (epollBeforeWait ctx env).2.1) ctx.tTry v → Offered ctx sent ctx.tTry v := by
    intro v hv
    rcases hv.of_beforeWait with hold | ⟨q, hq, hflag, hid, j, k, hval⟩
    · exact hold
    · rw [pack_eq (h.gen q hq hflag hid)] at hval
      exact Or.inr ⟨q, hq, hflag, hid, hval.symm⟩
  refine ⟨?_, fun v hv => h.now v (hoff v hv), ?_, h.best_value⟩
  · intro b v hv
    rcases hv.of_beforeWait with hold | ⟨q, hq, hflag, hid, -⟩
    · exact h.le b v hold
    · exact h.le b _ (Or.inr ⟨q, hq, hflag, hid, rfl⟩)
  · intro q hq
    exact h.gen q (mem_epollBeforeWait.1 q hq)

/-- **One event keeps the round.** -/
theorem Round.step {e : Event} (hok : KeepsRound ctx e) :
    Round (nodeStep ctx e).ctx (sent ++ (nodeStep ctx e).requests) := by
  cases e with
  | echo str =>
      show Round (paxosEcho ctx str) (sent ++ [])
      rw [List.append_nil]
      exact h.echo str hok
  | recv src msg io =>
      obtain ⟨_, _, _, _, hframe⟩ := fdIo_frame ctx src msg io
      show Round (epollHandlePaxosFdIo ctx src msg io).1 (sent ++ [])
      rw [hframe, List.append_nil]
      exact ⟨h.le, h.now, h.gen, h.best_value⟩
  | reply src msg =>
      show Round (epollHandlePaxosNodeFdIo ctx src msg).1 (sent ++ [])
      rw [List.append_nil]
      rcases nodeFdIo_cases ctx src msg with ⟨-, -, hr⟩ | ⟨-, hflag, hr⟩ | ⟨-, -, hr⟩
      · rw [hr]
        exact h.success
      · rw [hr]
        exact h.promise hflag hok
      · rw [hr]
        exact h
  | beforeWait env => exact h.beforeWait env

end Steps

theorem queue_paxosInit (nodeId : Nat) (peers : List Nat) :
    queue (paxosInit nodeId peers) = [] := by
  show (peers.map _).flatMap Node.oList = []
  rw [List.flatMap_map]
  exact List.flatMap_eq_nil_iff.mpr fun _ _ => rfl

theorem round_init (nodeId : Nat) (peers : List Nat) : Round (paxosInit nodeId peers) [] := by
  have hempty := queue_paxosInit nodeId peers
  have hnone : ∀ b v, ¬ Offered (paxosInit nodeId peers) [] b v := by
    rintro b v (⟨p, hp, -⟩ | ⟨q, hq, -⟩)
    · exact nomatch hp
    · rw [hempty] at hq
      exact nomatch hq
  refine ⟨fun b v h => absurd h (hnone b v), fun v h => absurd h (hnone _ v), ?_, ?_⟩
  · intro q hq
    rw [hempty] at hq
    exact nomatch hq
  · intro hlt
    exact nomatch hlt

/-! ## One value per ballot -/

/-- All flag 3 messages of one ballot carry one value. -/
def OneValue (ctx : Ctx) (sent : List Packet) : Prop :=
  ∀ b v w, Offered ctx sent b v → Offered ctx sent b w → v = w

/-- The flag 3 messages that are written carry the value they were queued with. -/
def PacksCopies (ctx : Ctx) : Event → Prop
  | .beforeWait env => ∀ q ∈ queue ctx, q.msg.flag = 3 →
      ∀ j k, pack ctx.valueTry.gen (env.stale j k) q = q.msg
  | .echo _ => True
  | .recv _ _ _ => True
  | .reply _ _ => True

/-- **One event keeps one value per ballot.**  The only new messages are those of the
    current ballot, and the round says what the older ones of that ballot carry. -/
theorem OneValue.step {ctx : Ctx} {sent : List Packet} (h : OneValue ctx sent)
    (hround : Round ctx sent) {e : Event} (hok : KeepsRound ctx e) (hcopy : PacksCopies ctx e) :
    OneValue (nodeStep ctx e).ctx (sent ++ (nodeStep ctx e).requests) := by
  cases e with
  | echo str =>
      intro b v w hv hw
      rw [show (nodeStep ctx (.echo str)).requests = [] from rfl, List.append_nil] at hv hw
      exact h b v w (hv.mono queue_paxosEcho) (hw.mono queue_paxosEcho)
  | recv src msg io =>
      obtain ⟨_, _, _, _, hframe⟩ := fdIo_frame ctx src msg io
      show OneValue (epollHandlePaxosFdIo ctx src msg io).1 (sent ++ [])
      rw [hframe, List.append_nil]
      exact h
  | reply src msg =>
      show OneValue (epollHandlePaxosNodeFdIo ctx src msg).1 (sent ++ [])
      rw [List.append_nil]
      rcases nodeFdIo_cases ctx src msg with ⟨-, -, hr⟩ | ⟨-, hflag, hr⟩ | ⟨-, -, hr⟩
      · rw [hr]
        intro b v w hv hw
        exact h b v w (hv.mono queue_countSuccess) (hw.mono queue_countSuccess)
      · rw [hr]
        -- the values of the current ballot, before and after
        have hnow : ∀ v, Offered ctx sent ctx.tTry v →
            v = (countPromise ctx src msg).valueTry.bytes := by
          intro v hv
          obtain ⟨hq, hval⟩ := hround.now v hv
          rw [hround.late hok hflag hq]
          exact hval
        intro b v w hv hw
        rcases hv.of_promise with hvold | ⟨-, rfl, hvnew⟩
        · rcases hw.of_promise with hwold | ⟨-, rfl, hwnew⟩
          · exact h b v w hvold hwold
          · rw [hwnew]
            exact hnow v hvold
        · rcases hw.of_promise with hwold | ⟨-, -, hwnew⟩
          · rw [hvnew]
            exact (hnow w hwold).symm
          · rw [hvnew, hwnew]
      · rw [hr]
        exact h
  | beforeWait env =>
      have hoff : ∀ b v, Offered (epollBeforeWait ctx env).1
          (sent ++ (epollBeforeWait ctx env).2.1) b v → Offered ctx sent b v := by
        intro b v hv
        rcases hv.of_beforeWait with hold | ⟨q, hq, hflag, hid, j, k, hval⟩
        · exact hold
        · rw [hcopy q hq hflag j k] at hval
          exact Or.inr ⟨q, hq, hflag, hid, hval.symm⟩
      intro b v w hv hw
      exact h b v w (hoff b v hv) (hoff b w hw)

/-- A step that cannot disturb the values of a ballot: `++t_try` does not wrap; no
    promise is late and larger; and while a flag 3 message waits, `value_try` is not
    given other bytes, be it by `paxos_echo` or by the promise that completes the
    majority. -/
def Undisturbed (ctx : Ctx) : Event → Prop
  | .echo str => ctx.tTry + 1 < 2 ^ 64 ∧
      (str = ctx.valueTry.bytes ∨ ∀ q ∈ queue ctx, q.msg.flag ≠ 3)
  | .reply _ msg => NotLateAndLarger ctx msg ∧
      (msg.flag = 2 → ctx.nProposeOk ≤ ctx.nNodes / 2 → ctx.nNodes / 2 < ctx.nProposeOk + 1 →
        (∃ q ∈ queue ctx, q.msg.flag = 3) →
        ∀ p ∈ ctx.proposeOkList ++ [⟨msg.proposalid, msg.value⟩],
          (∀ r ∈ ctx.proposeOkList ++ [⟨msg.proposalid, msg.value⟩], r.t ≤ p.t) →
          0 < p.t → p.value = ctx.valueTry.bytes)
  | .recv _ _ _ => True
  | .beforeWait _ => True

theorem Undisturbed.keepsRound {ctx : Ctx} {e : Event} (h : Undisturbed ctx e) :
    KeepsRound ctx e := by
  cases e with
  | echo str => exact h.1
  | recv src msg io => trivial
  | reply src msg => exact h.1
  | beforeWait env => trivial

/-- The flag 3 messages that wait point to the current contents of `value_try`. -/
def QueueCurrent (ctx : Ctx) : Prop :=
  ∀ q ∈ queue ctx, q.msg.flag = 3 → q.gen = ctx.valueTry.gen

theorem QueueCurrent.packsCopies {ctx : Ctx} (h : QueueCurrent ctx) (e : Event) :
    PacksCopies ctx e := by
  cases e with
  | echo str => trivial
  | recv src msg io => trivial
  | reply src msg => trivial
  | beforeWait env => exact fun q hq hflag j k => pack_eq (h q hq hflag)

theorem QueueCurrent.step {ctx : Ctx} {sent : List Packet} (h : QueueCurrent ctx)
    (hround : Round ctx sent) {e : Event} (hok : Undisturbed ctx e) :
    QueueCurrent (nodeStep ctx e).ctx := by
  cases e with
  | echo str =>
      intro q hq hflag
      rcases queue_paxosEcho q hq with hold | hne
      · rcases hok.2 with rfl | hnone
        · show q.gen = (sdscpylen ctx.valueTry ctx.valueTry.bytes).gen
          rw [sdscpylen_self]
          exact h q hold hflag
        · exact absurd hflag (hnone q hold)
      · exact absurd hflag hne
  | recv src msg io =>
      obtain ⟨_, _, _, _, hframe⟩ := fdIo_frame ctx src msg io
      show QueueCurrent (epollHandlePaxosFdIo ctx src msg io).1
      rw [hframe]
      exact h
  | reply src msg =>
      show QueueCurrent (epollHandlePaxosNodeFdIo ctx src msg).1
      rcases nodeFdIo_cases ctx src msg with ⟨-, -, hr⟩ | ⟨-, hflag, hr⟩ | ⟨-, -, hr⟩
      · rw [hr]
        obtain ⟨_, hframe⟩ := (countSuccess_spec ctx).frame
        intro q hq hflag
        rcases queue_countSuccess q hq with hold | hne
        · rw [hframe]
          exact h q hold hflag
        · exact absurd hflag hne
      · rw [hr]
        have hspec := countPromise_spec ctx src msg
        intro q hq hflag3
        rcases Nat.lt_or_ge (ctx.nNodes / 2) (ctx.nProposeOk + 1) with hlt | hge
        · rcases (hspec.quorum hlt).2 q hq with hold | ⟨-, hgen, -⟩
          · -- an old message waits, so value_try keeps its bytes
            have hsame : (countPromise ctx src msg).valueTry = ctx.valueTry := by
              rcases Nat.lt_or_ge (ctx.nNodes / 2) ctx.nProposeOk with hlate | hfirst
              · exact hround.late hok.1 hflag hlate
              · rw [(hspec.quorum hlt).1, hspec.best_eq]
                refine adopted_eq fun p hp ht => ?_
                obtain ⟨hmem, hmax⟩ := best_mem hp
                exact hok.2 hflag hfirst hlt ⟨q, hold, hflag3⟩ p hmem hmax ht
            rw [hsame]
            exact h q hold hflag3
          · exact hgen
        · rw [(hspec.early hge).1]
          exact h q ((hspec.early hge).2 q hq) hflag3
      · rw [hr]
        exact h
  | beforeWait env => exact fun q hq => h q (mem_epollBeforeWait.1 q hq)

instance (ctx : Ctx) (msg : Msg) : Decidable (NotLateAndLarger ctx msg) :=
  inferInstanceAs (Decidable (_ → _ → _))

instance (ctx : Ctx) : ∀ e : Event, Decidable (Undisturbed ctx e)
  | .echo _ => inferInstanceAs (Decidable (_ ∧ (_ ∨ _)))
  | .reply _ _ => inferInstanceAs (Decidable (_ ∧ (_ → _ → _ → _ → _)))
  | .recv _ _ _ => inferInstanceAs (Decidable True)
  | .beforeWait _ => inferInstanceAs (Decidable True)

instance (ok : Ctx → Event → Prop) [∀ ctx e, Decidable (ok ctx e)] :
    ∀ (ctx : Ctx) (es : List Event), Decidable (AllMeet ok ctx es)
  | _, [] => inferInstanceAs (Decidable True)
  | ctx, e :: es =>
      have := instDecidableAllMeet ok (nodeStep ctx e).ctx es
      inferInstanceAs (Decidable (_ ∧ _))

/-- What a run of undisturbed steps keeps. -/
theorem oneValue_run (es : List Event) : ∀ {ctx : Ctx} {sent : List Packet}, Round ctx sent →
    OneValue ctx sent → QueueCurrent ctx → AllMeet Undisturbed ctx es →
    OneValue (nodeRun (ctx, sent) es).1 (nodeRun (ctx, sent) es).2 := by
  induction es with
  | nil => intro ctx sent _ hone _ _; exact hone
  | cons e es ih =>
      intro ctx sent hround hone hcur hmeet
      obtain ⟨hok, hmeet⟩ := hmeet
      exact ih (hround.step hok.keepsRound) (hone.step hround hok.keepsRound (hcur.packsCopies e))
        (hcur.step hround hok) hmeet

/-- **One value per ballot**, in every run of undisturbed steps from `paxos_init`. -/
theorem one_value_per_ballot (nodeId : Nat) (peers : List Nat) (es : List Event)
    (hmeet : AllMeet Undisturbed (paxosInit nodeId peers) es) :
    ∀ p ∈ (nodeRun (paxosInit nodeId peers, []) es).2,
    ∀ p' ∈ (nodeRun (paxosInit nodeId peers, []) es).2,
      p.msg.flag = 3 → p'.msg.flag = 3 → p.msg.proposalid = p'.msg.proposalid →
      p.msg.value = p'.msg.value := by
  have hround := round_init nodeId peers
  have hone : OneValue (paxosInit nodeId peers) [] := by
    intro b v w hv
    have hlt := hround.le b v hv
    obtain rfl : b = 0 := Nat.le_zero.mp hlt
    exact absurd (hround.now v hv).1 (Nat.not_lt_zero _)
  have hcur : QueueCurrent (paxosInit nodeId peers) := by
    intro q hq hflag
    have hle := hround.le _ _ (Or.inr ⟨q, hq, hflag, rfl, rfl⟩)
    exact hround.gen q hq hflag (Nat.le_zero.mp hle)
  intro p hp p' hp' hflag hflag' hid
  exact oneValue_run es hround hone hcur hmeet p.msg.proposalid _ _
    (Or.inl ⟨p, hp, hflag, rfl, rfl⟩) (Or.inl ⟨p', hp', hflag', hid.symm, rfl⟩)

/-- The sockets take everything. -/
def allSent : WriteEnv where
  connect := fun _ => true
  sendTo := fun _ _ => .sent
  stale := fun _ _ v => v
  sendReplyTo := fun _ => .sent
  staleReply := fun _ v => v

/-- A flag 2 reply of the peer `src`. -/
def promiseFrom (src t : Nat) (v : Value) : Event := .reply src ⟨1, src, t, 2, false, v⟩

/-- Five nodes, ballot 2: the promises of the nodes 1 and 3 with nothing stored, the one of
    node 2 with `t`, `v`; the proposal goes out; then the promise of node 4, which has
    accepted the value 98 in ballot 1. -/
def latePromise (t : Nat) (v : Value) : List Event :=
  [.echo [97], .echo [97], promiseFrom 1 0 [], promiseFrom 2 t v, promiseFrom 3 0 [],
    .beforeWait allSent, promiseFrom 4 1 [98], .beforeWait allSent]

/-- The late promise is not larger than the one of node 2. -/
theorem one_value_per_ballot_five :
    (nodeRun (paxosInit 0 [1, 2, 3, 4], []) (latePromise 1 [98])).1.valueTry.bytes = [98] ∧
    ∀ p ∈ (nodeRun (paxosInit 0 [1, 2, 3, 4], []) (latePromise 1 [98])).2,
    ∀ p' ∈ (nodeRun (paxosInit 0 [1, 2, 3, 4], []) (latePromise 1 [98])).2,
      p.msg.flag = 3 → p'.msg.flag = 3 → p.msg.proposalid = p'.msg.proposalid →
      p.msg.value = p'.msg.value :=
  ⟨by decide, one_value_per_ballot 0 [1, 2, 3, 4] (latePromise 1 [98]) (by decide)⟩

/-- The late promise is the only one with a stored proposal: flag 3 messages of ballot 2
    go out with the value 97, and then with 98. -/
theorem one_value_per_ballot_fails :
    ∃ p ∈ (nodeRun (paxosInit 0 [1, 2, 3, 4], []) (latePromise 0 [])).2,
    ∃ p' ∈ (nodeRun (paxosInit 0 [1, 2, 3, 4], []) (latePromise 0 [])).2,
      p.msg.flag = 3 ∧ p'.msg.flag = 3 ∧ p.msg.proposalid = 2 ∧ p'.msg.proposalid = 2 ∧
      p.msg.value = [97] ∧ p'.msg.value = [98] := by
  decide

end Paxos
