import Mathlib.Data.List.Sort
import Mathlib.Tactic.Linarith

/-! # The Paxos node (`src/paxos/test_paxos.c`)

    The model of one node: its `paxos_ctx` with the acceptor's and the proposer's
    fields, the queues of messages that wait for `sendto`, and the functions that
    change it.

    * `epollHandlePaxosFdIo` — the acceptor, on a datagram at the listening socket;
    * `epollHandlePaxosNodeFdIo` — the proposer, on a reply of a peer;
    * `paxosEcho`, `paxosPrepare`, `paxosPropose`, `paxosExecute`;
    * `epollBeforeWait` — the queues are written.

    A queued message does not hold its value but a pointer to `value_try` or
    `value_store`.  `Sds` carries a number that changes with every write that changes
    the bytes; a message whose number is out of date is packed with whatever stands
    behind its pointer (`WriteEnv.stale`).  A reply with flag 2 does not say which
    ballot it answers; the model remembers it (`Queued.ballot`), and no function reads
    it.
    Node ids double as addresses: a datagram's `src` and `dst` are node ids. -/

namespace Paxos

/-! ## Data -/

abbrev Value := List UInt8

/-- An `sds` buffer: its bytes, and a number for its contents. -/
structure Sds where
  bytes : Value
  gen : Nat
  deriving Repr, DecidableEq

/-- `sdscpylen`: a copy of the same bytes neither moves nor changes the buffer. -/
def sdscpylen (s : Sds) (v : Value) : Sds :=
  if v = s.bytes then s else ⟨v, s.gen + 1⟩

def sdsclear (s : Sds) : Sds := sdscpylen s []

/-- The fields of `Xh__PaxosMsg` that the code sets. -/
structure Msg where
  instanceid : Nat
  nodeid : Nat
  proposalid : Nat
  flag : Nat
  hasPreacceptid : Bool
  value : Value
  deriving Repr, DecidableEq

/-- A `paxos_msg` that waits for `sendto`: the message as it was when it was queued,
    the contents its value points to, and the ballot it belongs to. -/
structure Queued where
  dst : Nat
  msg : Msg
  gen : Nat
  ballot : Nat
  deriving Repr, DecidableEq

/-- A promise on `propose_ok_list`. -/
structure Promise where
  t : Nat
  value : Value
  deriving Repr, DecidableEq

/-- `paxos_node`: a peer, whether `PAXOS_PROPOSE_OK` is set, and the messages to
    it. -/
structure Node where
  addr : Nat
  proposeOk : Bool
  oList : List Queued
  deriving Repr, DecidableEq

/-- `paxos_ctx`, with the `node_id` of the configuration. -/
structure Ctx where
  nodeId : Nat
  instanceId : Nat
  tTry : Nat
  valueTry : Sds
  tMax : Nat
  tStore : Nat
  valueStore : Sds
  proposeOkList : List Promise
  nProposeOk : Nat
  nProposeSuccess : Nat
  nodes : List Node
  nNodes : Nat
  oList : List Queued
  deriving Repr, DecidableEq

/-- `paxos_init`: no ballot yet; `n_nodes` counts the peers and the node itself. -/
def paxosInit (nodeId : Nat) (peers : List Nat) : Ctx where
  nodeId := nodeId
  instanceId := 1
  tTry := 0
  valueTry := ⟨[], 0⟩
  tMax := 0
  tStore := 0
  valueStore := ⟨[], 0⟩
  proposeOkList := []
  nProposeOk := 0
  nProposeSuccess := 0
  nodes := peers.map fun a => ⟨a, false, []⟩
  nNodes := peers.length + 1
  oList := []

/-! ## The proposer -/

/-- The message of the current ballot that `paxos_prepare`, `paxos_propose` and
    `paxos_execute` build; they differ in the flag only. -/
def requestMsg (ctx : Ctx) (flag : Nat) : Msg where
  instanceid := ctx.instanceId
  nodeid := ctx.nodeId
  proposalid := ctx.tTry
  flag := flag
  hasPreacceptid := false
  value := ctx.valueTry.bytes

/-- Queue the message with this flag to every peer that `sel` selects. -/
def queueRequest (ctx : Ctx) (flag : Nat) (sel : Node → Bool) : Ctx :=
  let q (node : Node) : Queued :=
    ⟨node.addr, requestMsg ctx flag, ctx.valueTry.gen, ctx.tTry⟩
  { ctx with
    nodes := ctx.nodes.map fun node =>
      if sel node then { node with oList := node.oList ++ [q node] } else node }

/-- `paxos_prepare`: a new ballot, flag 1 to every peer.  The stored proposal of the
    acceptor goes, and so do its unsent replies; the queues to the peers stay. -/
def paxosPrepare (ctx : Ctx) : Ctx :=
  queueRequest { ctx with
    tTry := (ctx.tTry + 1) % 2 ^ 64
    tStore := 0
    valueStore := sdsclear ctx.valueStore
    proposeOkList := []
    nProposeOk := 0
    nProposeSuccess := 0
    oList := [] } 1 fun _ => true

/-- `paxos_propose`: flag 3 to the peers with `PAXOS_PROPOSE_OK`. -/
def paxosPropose (ctx : Ctx) : Ctx := queueRequest ctx 3 Node.proposeOk

/-- `paxos_execute`: flag 5 to every peer. -/
def paxosExecute (ctx : Ctx) : Ctx := queueRequest ctx 5 fun _ => true

/-- `paxos_echo`. -/
def paxosEcho (ctx : Ctx) (str : Value) : Ctx :=
  paxosPrepare { ctx with valueTry := sdscpylen ctx.valueTry str }

/-- `list_sort` with `propose_ok_list_comp_by_t`: by falling `t`, and stable. -/
def sortByT (l : List Promise) : List Promise := l.insertionSort fun a b => b.t ≤ a.t

/-- The value of the promise with the largest `t` replaces `value_try`, unless that
    `t` is zero. -/
def adoptMax (ctx : Ctx) : Ctx :=
  match sortByT ctx.proposeOkList with
  | [] => ctx
  | pmmax :: rest =>
      { ctx with
        proposeOkList := pmmax :: rest
        valueTry := if pmmax.t > 0 then sdscpylen ctx.valueTry pmmax.value else ctx.valueTry }

/-- What a node logs as chosen: the instance, the ballot and the value. -/
structure Report where
  instanceId : Nat
  ballot : Nat
  value : Value
  deriving Repr, DecidableEq

/-- `epoll_handle_paxos_node_fd_io`, flag 4: one more acceptor, whoever it is. -/
def countSuccess (ctx : Ctx) : Ctx × Option Report :=
  let ctx := { ctx with nProposeSuccess := ctx.nProposeSuccess + 1 }
  if ctx.nProposeSuccess > ctx.nNodes / 2 then
    (paxosExecute ctx, some ⟨ctx.instanceId, ctx.tTry, ctx.valueTry.bytes⟩)
  else (ctx, none)

/-- `epoll_handle_paxos_node_fd_io`, flag 2: one more promise, whatever ballot it is
    for. -/
def countPromise (ctx : Ctx) (src : Nat) (msg : Msg) : Ctx :=
  let ctx := { ctx with
    nodes := ctx.nodes.map fun node =>
      if node.addr = src then { node with proposeOk := true } else node
    proposeOkList := ctx.proposeOkList ++ [⟨msg.proposalid, msg.value⟩]
    nProposeOk := ctx.nProposeOk + 1 }
  if ctx.nProposeOk > ctx.nNodes / 2 then paxosPropose (adoptMax ctx) else ctx

/-- `epoll_handle_paxos_node_fd_io`: a reply from the peer `src`. -/
def epollHandlePaxosNodeFdIo (ctx : Ctx) (src : Nat) (msg : Msg) : Ctx × Option Report :=
  if msg.hasPreacceptid && msg.flag == 4 then countSuccess ctx
  else if msg.flag = 2 then (countPromise ctx src msg, none)
  else (ctx, none)

/-! ## The acceptor -/

/-- The result of `sendto`: the datagram is on its way, is to be sent again later
    (`EINTR`, `EAGAIN`), or is given up. -/
inductive SendTo where
  | sent
  | again
  | failed
  deriving Repr, DecidableEq

/-- A datagram on the wire, with the ballot it belongs to. -/
structure Packet where
  src : Nat
  dst : Nat
  msg : Msg
  ballot : Nat
  deriving Repr, DecidableEq

/-- What an acceptor does on behalf of the proposer `src`. -/
inductive Act where
  | promise (src t : Nat)
  | accept (src t : Nat) (v : Value)
  deriving Repr, DecidableEq

/-- The reply the acceptor builds; flag 4 sets `has_preacceptid`. -/
def replyMsg (ctx : Ctx) (flag : Nat) : Msg where
  instanceid := ctx.instanceId
  nodeid := ctx.nodeId
  proposalid := ctx.tStore
  flag := flag
  hasPreacceptid := flag == 4
  value := ctx.valueStore.bytes

/-- Send a reply at once; if that has to wait, queue it. -/
def sendReply (ctx : Ctx) (src ballot flag : Nat) (io : SendTo) : Ctx × List Packet :=
  match io with
  | .sent => (ctx, [⟨ctx.nodeId, src, replyMsg ctx flag, ballot⟩])
  | .again =>
      ({ ctx with oList := ctx.oList ++ [⟨src, replyMsg ctx flag, ctx.valueStore.gen, ballot⟩] }, [])
  | .failed => (ctx, [])

/-- `epoll_handle_paxos_fd_io`: a datagram from `src`.  Returns the datagrams sent and
    what the acceptor did. -/
def epollHandlePaxosFdIo (ctx : Ctx) (src : Nat) (msg : Msg) (io : SendTo) :
    Ctx × List Packet × Option Act :=
  if msg.flag = 5 then
    ({ ctx with valueStore := sdscpylen ctx.valueStore msg.value }, [], none)
  else if msg.proposalid > ctx.tMax ∧ msg.flag = 1 then
    let (ctx, out) := sendReply { ctx with tMax := msg.proposalid } src msg.proposalid 2 io
    (ctx, out, some (.promise src msg.proposalid))
  else if msg.proposalid = ctx.tMax ∧ msg.flag = 3 then
    let (ctx, out) := sendReply { ctx with
      tStore := msg.proposalid
      valueStore := sdscpylen ctx.valueStore msg.value } src msg.proposalid 4 io
    (ctx, out, some (.accept src msg.proposalid msg.value))
  else (ctx, [], none)

/-! ## Writing the queues -/

/-- What the sockets do during one round of writing, per peer and per place in its
    queue: whether `connect` works, what `sendto` returns, and the bytes that are
    found behind a pointer whose buffer has changed since the message was queued
    (given the bytes it had then).  The listening socket has the queue of replies. -/
structure WriteEnv where
  connect : Nat → Bool
  sendTo : Nat → Nat → SendTo
  stale : Nat → Nat → Value → Value
  sendReplyTo : Nat → SendTo
  staleReply : Nat → Value → Value

/-- `xh__paxos_msg__pack` of a queued message, while the buffer has the contents
    `gen`. -/
def pack (gen : Nat) (stale : Value → Value) (q : Queued) : Msg :=
  if q.gen = gen then q.msg else { q.msg with value := stale q.msg.value }

/-- One pass over a queue from place `k` on: what stays, and what is sent. -/
def writeQueue (src gen : Nat) (sendTo : Nat → SendTo) (stale : Nat → Value → Value) :
    Nat → List Queued → List Queued × List Packet
  | _, [] => ([], [])
  | k, q :: qs =>
      let (rest, out) := writeQueue src gen sendTo stale (k + 1) qs
      match sendTo k with
      | .sent => (rest, ⟨src, q.dst, pack gen (stale k) q, q.ballot⟩ :: out)
      | .again => (q :: rest, out)
      | .failed => (rest, out)

/-- `paxos_ctx_write`: the replies. -/
def paxosCtxWrite (ctx : Ctx) (env : WriteEnv) : Ctx × List Packet :=
  let (rest, out) :=
    writeQueue ctx.nodeId ctx.valueStore.gen env.sendReplyTo env.staleReply 0 ctx.oList
  ({ ctx with oList := rest }, out)

/-- The queue of one peer, if `connect` works. -/
def writeNode (ctx : Ctx) (env : WriteEnv) (node : Node) : Node × List Packet :=
  if env.connect node.addr then
    let (rest, out) := writeQueue ctx.nodeId ctx.valueTry.gen (env.sendTo node.addr)
      (env.stale node.addr) 0 node.oList
    ({ node with oList := rest }, out)
  else (node, [])

/-- `epoll_before_wait`: the replies, then the requests, peer by peer.  Returns the
    requests and the replies that were sent. -/
def epollBeforeWait (ctx : Ctx) (env : WriteEnv) : Ctx × List Packet × List Packet :=
  let (ctx, replies) := paxosCtxWrite ctx env
  ({ ctx with nodes := ctx.nodes.map fun node => (writeNode ctx env node).1 },
    ctx.nodes.flatMap fun node => (writeNode ctx env node).2, replies)

end Paxos
