import CppTest.EchoSelectProofs
import Mathlib.Logic.Relation
import Mathlib.Data.Finset.Insert
import Mathlib.Data.Fintype.Defs

/-! # The two processes of the echo server (`src/fork/test_fork.cpp`)

    The server forks once.  Master and worker listen on the same socket, and a semaphore of one
    permit says who waits for connections: a process with room for a client tries for it before
    `select`, and gives it back after.  When the worker dies the master gets a SIGCHLD, and its
    handler adds a permit; the worker's own may have died with it.

    * A state has the semaphore and, for each process, its slots and its place in the loop; an
      event moves one process on, kills one, or is a signal.  The events come in any order, and
      the system answers as it likes.
    * `afterSelect_spec`: no connection is turned away.
    * `Steps.cases`: what a step can do.

    The reports of the worker to the master change nothing here. -/

namespace ForkServer

open Echo

/-! ## The model -/

def SOCK_CLI_MAX : Nat := 2

inductive Who where
  | master
  | worker
  deriving DecidableEq, Repr

instance : Fintype Who := ⟨{.master, .worker}, fun who => by cases who <;> decide⟩

/-- The descriptors that both processes have from before `fork`. -/
structure Files where
  listenfd : Int
  mwrfd : Int
  mwwfd : Int
  pos : 0 < listenfd ∧ 0 < mwrfd ∧ 0 < mwwfd
  distinct : listenfd ≠ mwrfd ∧ listenfd ≠ mwwfd

/-- `struct evtctx`, with the descriptor sets as functions. -/
structure Evtctx where
  rfds : Int → Bool
  wfds : Int → Bool
  maxfd : Int

/-- `evtctx_init`. -/
def evtctxInit : Evtctx := ⟨fun _ => false, fun _ => false, 0⟩

def FD_SET (fd : Int) (fds : Int → Bool) : Int → Bool := Function.update fds fd true

/-- `if(fd > ctx->maxfd) ctx->maxfd = fd;` -/
def raise (fd : Int) (ctx : Evtctx) : Evtctx :=
  if fd > ctx.maxfd then { ctx with maxfd := fd } else ctx

/-- `sock_cli_size`. -/
def sockCliSize (gfds : Table) : Nat := gfds.countP fun cli => 0 < cli.fd

/-- `clisz < SOCK_CLI_MAX * 0.8`. -/
def HasRoom (gfds : Table) : Prop := 10 * sockCliSize gfds < 8 * SOCK_CLI_MAX

instance (gfds : Table) : Decidable (HasRoom gfds) := inferInstanceAs (Decidable (_ < _))

/-- A client's descriptor is asked for. -/
def askClient (ctx : Evtctx) (cli : SockCli) : Evtctx :=
  if 0 < cli.fd then
    raise cli.fd { ctx with rfds := FD_SET cli.fd ctx.rfds, wfds := FD_SET cli.fd ctx.wfds }
  else ctx

/-- The descriptors the loop asks for apart from the clients; `gotfd` says that it has the
    lock. -/
def askOwn (fs : Files) (who : Who) (gfds : Table) (gotfd : Bool) : Evtctx :=
  let ctx := evtctxInit
  let ctx := if who = .master then raise fs.mwrfd { ctx with rfds := FD_SET fs.mwrfd ctx.rfds }
    else ctx
  if HasRoom gfds then
    -- `maxfd` is not raised but set
    if gotfd then ⟨FD_SET fs.listenfd ctx.rfds, FD_SET fs.listenfd ctx.wfds, fs.listenfd⟩
    else ctx
  else if who = .worker then raise fs.mwwfd { ctx with wfds := FD_SET fs.mwwfd ctx.wfds }
  else ctx

/-- All descriptors the loop asks for. -/
def prepare (fs : Files) (who : Who) (gfds : Table) (gotfd : Bool) : Evtctx :=
  gfds.foldl askClient (askOwn fs who gfds gotfd)

/-- Where a process is: at the top of its loop, in `select`, or gone. -/
inductive Phase where
  | top
  | selecting (ctx : Evtctx) (gotfd : Bool)
  | gone

structure Proc where
  gfds : Table
  phase : Phase

/-- `pending` is a SIGCHLD that the master has not handled yet.  The last four members are not in
    the program: they count the stops of the worker, the calls of `on_sigchld` and the permits
    that died with their holder, and list the connections that were closed at once. -/
structure State where
  sem : Nat
  proc : Who → Proc
  pending : Bool
  stops : Nat
  posts : Nat
  lost : Nat
  refused : List Int

/-- The answers to a process that comes back from `select`: the result of `select` with its two
    sets, that of `accept`, and what the slots get from `read` and `write`. -/
structure Answers where
  ret : Int
  errno : Errno
  confd : Int
  acceptErrno : Errno
  io : Io

inductive Event where
  /-- From the top of the loop to `select`. -/
  | enter (who : Who)
  /-- From `select` to the top of the loop, or out of it. -/
  | back (who : Who) (ans : Answers)
  | kill (who : Who)
  /-- The worker is stopped or continued. -/
  | stop
  /-- The master handles the SIGCHLD. -/
  | sigchld

/-- `select_on_socket_connect`: the slots, the connection that is closed for want of one, and the
    result. -/
def selectOnSocketConnect (confd : Int) (errno : Errno) (gfds : Table) :
    Table × List Int × Int :=
  if confd < 0 then (gfds, [], if errno = .EINTR ∨ errno = .EAGAIN then 0 else -1)
  else
    let (gfds, r) := sockCliAdd (newClient confd) gfds
    if r ≠ 0 then (gfds, [confd], 0) else (gfds, [], 0)

/-- The sets as `select` leaves them: what was asked for, below `nfds`, and is ready. -/
def readySets (ctx : Evtctx) (io : Io) : Io :=
  { io with
    readable := fun fd => ctx.rfds fd && decide (fd ≤ ctx.maxfd) && io.readable fd
    writable := fun fd => ctx.wfds fd && decide (fd ≤ ctx.maxfd) && io.writable fd }

/-- The loop behind `select`: the process, and the connections that are closed at once. -/
def afterSelect (fs : Files) (gechobytes : Int) (ans : Answers) (ctx : Evtctx) (gfds : Table) :
    Option (Proc × List Int) :=
  if ans.ret = -1 then
    some (⟨gfds, if ans.errno = .EINTR ∨ ans.errno = .EAGAIN then .top else .gone⟩, [])
  else
    let io := readySets ctx ans.io
    if io.readable fs.listenfd then
      let (gfds, refused, r) := selectOnSocketConnect ans.confd ans.acceptErrno gfds
      some (⟨gfds, if r ≠ 0 then .gone else .top⟩, refused)
    else do
      let (gfds, _) ← selectOnCliRw gechobytes io gfds
      some (⟨gfds, .top⟩, [])

def setProc (s : State) (who : Who) (p : Proc) : State :=
  { s with proc := Function.update s.proc who p }

/-- The end of the worker is a SIGCHLD to the master. -/
def exits (s : State) (who : Who) (gfds : Table) : State :=
  { setProc s who ⟨gfds, .gone⟩ with pending := s.pending || decide (who = .worker) }

/-- The loop up to `select`.  `sem_trywait` is called if there is room. -/
def enter (fs : Files) (s : State) (who : Who) : State :=
  let gfds := (s.proc who).gfds
  let gotfd := decide (HasRoom gfds ∧ 0 < s.sem)
  let s := if gotfd then { s with sem := s.sem - 1 } else s
  let ctx := prepare fs who gfds gotfd
  -- `sleep(1); continue;`
  if ctx.maxfd = 0 then setProc s who ⟨gfds, .top⟩ else setProc s who ⟨gfds, .selecting ctx gotfd⟩

def step (fs : Files) (gechobytes : Int) (s : State) : Event → Option State
  | .enter who =>
      match (s.proc who).phase with
      | .top => some (enter fs s who)
      | _ => none
  | .back who ans =>
      match (s.proc who).phase with
      | .selecting ctx gotfd => do
          let s := if gotfd then { s with sem := s.sem + 1 } else s
          let (p, refused) ← afterSelect fs gechobytes ans ctx (s.proc who).gfds
          let s := { s with refused := s.refused ++ refused }
          match p.phase with
          | .gone => some (exits s who p.gfds)
          | _ => some (setProc s who p)
      | _ => none
  | .kill who =>
      match (s.proc who).phase with
      | .top => some (exits s who (s.proc who).gfds)
      | .selecting _ gotfd =>
          let s := if gotfd then { s with lost := s.lost + 1 } else s
          some (exits s who (s.proc who).gfds)
      | .gone => none
  | .stop =>
      match (s.proc .worker).phase with
      | .gone => none
      | _ => some { s with pending := true, stops := s.stops + 1 }
  | .sigchld =>
      match (s.proc .master).phase with
      | .gone => none
      | _ => if s.pending then
          -- `on_sigchld`
          some { s with sem := s.sem + 1, pending := false, posts := s.posts + 1 }
        else none

/-- What the system promises: the calls keep their contracts, and `accept` returns a descriptor
    that is not in use. -/
structure Lawful (fs : Files) (s : State) (who : Who) (ans : Answers) : Prop where
  io : ans.io.Lawful
  fresh : ∀ cli ∈ (s.proc who).gfds, 0 < cli.fd → cli.fd ≠ ans.confd
  other : ans.confd ≠ fs.listenfd

/-- One step of the system. -/
inductive Steps (fs : Files) (gechobytes : Int) : State → State → Prop where
  | step {s s' : State} {e : Event} : (∀ who ans, e = .back who ans → Lawful fs s who ans) →
      step fs gechobytes s e = some s' → Steps fs gechobytes s s'

/-- After `sem_open`, which makes a semaphore of one permit. -/
def start : State where
  sem := 1
  proc := fun _ => ⟨List.replicate SOCK_CLI_MAX (newClient 0), .top⟩
  pending := false
  stops := 0
  posts := 0
  lost := 0
  refused := []

def Runs (fs : Files) (gechobytes : Int) : State → State → Prop :=
  Relation.ReflTransGen (Steps fs gechobytes)

/-! ## The slots of one process -/

/-- Asking for clients does not ask for another descriptor. -/
theorem foldl_askClient {fd : Int} : ∀ {gfds : Table} (ctx : Evtctx),
    (∀ cli ∈ gfds, cli.fd ≠ fd) → (gfds.foldl askClient ctx).rfds fd = ctx.rfds fd
      ∧ ctx.maxfd ≤ (gfds.foldl askClient ctx).maxfd := by
  intro gfds
  induction gfds with
  | nil => exact fun _ _ => ⟨rfl, Int.le_refl _⟩
  | cons cli gfds ih =>
      intro ctx hne
      have hone : (askClient ctx cli).rfds fd = ctx.rfds fd
          ∧ ctx.maxfd ≤ (askClient ctx cli).maxfd := by
        have hcli : fd ≠ cli.fd := (hne cli (List.mem_cons_self ..)).symm
        unfold askClient raise FD_SET
        split_ifs with hpos hmax
        · exact ⟨Function.update_of_ne hcli _ _, by dsimp only at hmax ⊢; omega⟩
        · exact ⟨Function.update_of_ne hcli _ _, Int.le_refl _⟩
        · exact ⟨rfl, Int.le_refl _⟩
      obtain ⟨hrfds, hmax⟩ := ih (askClient ctx cli) fun c hc => hne c (List.mem_cons_of_mem _ hc)
      exact ⟨hrfds.trans hone.1, hone.2.trans hmax⟩

theorem askOwn_listenfd (fs : Files) (who : Who) (gfds : Table) (gotfd : Bool) :
    (askOwn fs who gfds gotfd).rfds fs.listenfd = (gotfd && decide (HasRoom gfds)) := by
  have hne : fs.listenfd ≠ fs.mwrfd := fs.distinct.1
  by_cases hroom : HasRoom gfds
  · cases gotfd with
    | true => simp [askOwn, hroom, FD_SET]
    | false =>
        cases who <;> simp [askOwn, hroom, raise, FD_SET, evtctxInit, hne, apply_ite Evtctx.rfds]
  · cases who <;> simp [askOwn, hroom, raise, FD_SET, evtctxInit, hne, apply_ite Evtctx.rfds]

/-- **The listening socket is asked for with the lock only**, and only where there is room. -/
theorem prepare_listenfd (fs : Files) (who : Who) {gfds : Table} (gotfd : Bool)
    (hne : ∀ cli ∈ gfds, cli.fd ≠ fs.listenfd) :
    (prepare fs who gfds gotfd).rfds fs.listenfd = (gotfd && decide (HasRoom gfds)) := by
  rw [← askOwn_listenfd fs who]
  exact (foldl_askClient _ hne).1

/-- A process with the lock does not go to sleep. -/
theorem prepare_maxfd (fs : Files) (who : Who) {gfds : Table} (hroom : HasRoom gfds)
    (hne : ∀ cli ∈ gfds, cli.fd ≠ fs.listenfd) : (prepare fs who gfds true).maxfd ≠ 0 := by
  have hown : (askOwn fs who gfds true).maxfd = fs.listenfd := by
    simp only [askOwn, if_pos hroom, if_true]
  have hmax := (foldl_askClient (askOwn fs who gfds true) hne).2
  have hpos := fs.pos.1
  rw [hown] at hmax
  rw [prepare]
  omega

/-- A client is added where a slot is free. -/
theorem sockCliAdd_free (new : SockCli) : ∀ {gfds : Table}, (∃ cli ∈ gfds, cli.fd = 0) →
    (sockCliAdd new gfds).2 = 0 := by
  intro gfds
  induction gfds with
  | nil => exact fun ⟨_, hmem, _⟩ => absurd hmem List.not_mem_nil
  | cons cli gfds ih =>
      rintro ⟨c, hmem, hfree⟩
      rw [sockCliAdd]
      split_ifs with hcli
      · rfl
      · rcases List.mem_cons.mp hmem with rfl | hmem
        · exact absurd hfree hcli
        · exact ih ⟨c, hmem, hfree⟩

/-- The slots of a process: those of the echo server, and none has the listening socket. -/
structure SlotsInv (fs : Files) (gechobytes : Int) (gfds : Table) : Prop where
  reached : Reached gechobytes SOCK_CLI_MAX gfds
  slots : gfds.length = SOCK_CLI_MAX
  listen : ∀ cli ∈ gfds, cli.fd ≠ fs.listenfd

/-- A process, and what it waits for. -/
structure ProcInv (fs : Files) (gechobytes : Int) (who : Who) (p : Proc) : Prop
    extends SlotsInv fs gechobytes p.gfds where
  asks : ∀ ctx gotfd, p.phase = .selecting ctx gotfd →
    ctx = prepare fs who p.gfds gotfd ∧ (gotfd = true → HasRoom p.gfds)

/-- Where there is room by the count of the clients, a slot is free. -/
theorem SlotsInv.exists_free {fs : Files} {gechobytes : Int} {gfds : Table}
    (h : SlotsInv fs gechobytes gfds) (hroom : HasRoom gfds) : ∃ cli ∈ gfds, cli.fd = 0 := by
  by_contra hnone
  push Not at hnone
  have hall : sockCliSize gfds = gfds.length := by
    refine List.countP_eq_length.mpr fun cli hcli => ?_
    obtain ⟨i, hi⟩ := List.getElem?_of_mem hcli
    have hnonneg := (h.reached.sane.slot i cli hi).2
    have hne := hnone cli hcli
    exact decide_eq_true (by omega)
  rw [HasRoom, hall, h.slots] at hroom
  exact absurd hroom (by decide)

/-- The slots after turns of a pass hold the clients they held, or none. -/
theorem selectOnCliRw_fds {gfds gfds' : Table} {io : Io} {gechobytes : Int} {log : Log}
    (hgfds : Sane gfds) (hio : io.Lawful)
    (hrun : selectOnCliRw gechobytes io gfds = some (gfds', log)) :
    gfds'.length = gfds.length ∧ ∀ cli ∈ gfds', ∃ c ∈ gfds, cli.fd = c.fd ∨ cli.fd = 0 := by
  have hpass := @Machine.foldlM_range_keeps _ (selectTurn gechobytes io)
    (fun _ t => Sane t.1 ∧ t.1.length = gfds.length
      ∧ ∀ cli ∈ t.1, ∃ c ∈ gfds, cli.fd = c.fd ∨ cli.fd = 0) (gfds, [])
    ⟨hgfds, rfl, fun cli hcli => ⟨cli, hcli, Or.inl rfl⟩⟩ gfds.length ?_
  · obtain ⟨t, ht, -, hlen, hfds⟩ := hpass
    obtain rfl := Option.some.inj (ht.symm.trans hrun)
    exact ⟨hlen, hfds⟩
  · rintro k ⟨t, log⟩ hk ⟨hsane, hlen, hfds⟩
    dsimp only at hsane hlen hfds
    obtain ⟨cli, hcli⟩ : ∃ cli, t[k]? = some cli :=
      ⟨_, List.getElem?_eq_getElem (hlen ▸ hk)⟩
    obtain ⟨cli', log', hturn, hcli', hfd, -⟩ := selectSlot_turn hsane hcli hio gechobytes
    refine ⟨(t.set k cli', log ++ log'), ?_, hsane.keep hcli hcli' hfd, ?_, ?_⟩
    · rw [selectTurn, hturn]
      rfl
    · exact List.length_set.trans hlen
    · intro c hc
      rcases List.mem_or_eq_of_mem_set hc with hold | rfl
      · exact hfds c hold
      · obtain ⟨c₀, hc₀, hfd₀⟩ := hfds cli (List.mem_of_getElem? hcli)
        exact ⟨c₀, hc₀, by omega⟩

/-- A connection gets a slot. -/
theorem SlotsInv.connect {fs : Files} {gechobytes : Int} {gfds : Table}
    (h : SlotsInv fs gechobytes gfds) (hroom : HasRoom gfds) {confd : Int} (errno : Errno)
    (hfresh : ∀ cli ∈ gfds, 0 < cli.fd → cli.fd ≠ confd) (hother : confd ≠ fs.listenfd) :
    ∃ gfds' r, selectOnSocketConnect confd errno gfds = (gfds', [], r)
      ∧ SlotsInv fs gechobytes gfds' := by
  rw [selectOnSocketConnect]
  by_cases hconfd : confd < 0
  · rw [if_pos hconfd]
    exact ⟨gfds, _, rfl, h⟩
  · rw [if_neg hconfd]
    have hzero := sockCliAdd_free (newClient confd) (h.exists_free hroom)
    have hadd : sockCliAdd (newClient confd) gfds = ((sockCliAdd (newClient confd) gfds).1, 0) :=
      Prod.ext rfl hzero
    refine ⟨(sockCliAdd (newClient confd) gfds).1, 0, ?_,
      h.reached.connect (Int.not_lt.mp hconfd) hfresh, ?_, ?_⟩
    · rw [hadd]
      rfl
    · rcases sockCliAdd_set (newClient confd) gfds with hsame | ⟨i, hset⟩
      · rw [hsame]
        exact h.slots
      · rw [hset]
        exact List.length_set.trans h.slots
    · intro cli hcli
      rcases sockCliAdd_set (newClient confd) gfds with hsame | ⟨i, hset⟩
      · rw [hsame] at hcli
        exact h.listen cli hcli
      · rw [hset] at hcli
        rcases List.mem_or_eq_of_mem_set hcli with hold | rfl
        · exact h.listen cli hold
        · exact hother

/-- A pass over the clients. -/
theorem SlotsInv.pass {fs : Files} {gechobytes : Int} {gfds : Table}
    (h : SlotsInv fs gechobytes gfds) {io : Io} (hio : io.Lawful) :
    ∃ gfds' log, selectOnCliRw gechobytes io gfds = some (gfds', log)
      ∧ SlotsInv fs gechobytes gfds' := by
  obtain ⟨gfds', log, hrun, -, -⟩ := selectOnCliRw_pass h.reached.sane hio gechobytes
  obtain ⟨hlen, hfds⟩ := selectOnCliRw_fds h.reached.sane hio hrun
  refine ⟨gfds', log, hrun, h.reached.pass hio hrun, hlen.trans h.slots, fun cli hcli => ?_⟩
  obtain ⟨c, hc, hfd | hfd⟩ := hfds cli hcli
  · rw [hfd]
    exact h.listen c hc
  · rw [hfd]
    exact Int.ne_of_lt fs.pos.1

/-- **The loop behind `select`**: no connection is turned away. -/
theorem afterSelect_spec {fs : Files} {gechobytes : Int} {who : Who} {gfds : Table} {gotfd : Bool}
    (h : SlotsInv fs gechobytes gfds) {ans : Answers} (hio : ans.io.Lawful)
    (hfresh : ∀ cli ∈ gfds, 0 < cli.fd → cli.fd ≠ ans.confd) (hother : ans.confd ≠ fs.listenfd) :
    ∃ p, afterSelect fs gechobytes ans (prepare fs who gfds gotfd) gfds = some (p, [])
      ∧ SlotsInv fs gechobytes p.gfds ∧ (p.phase = .top ∨ p.phase = .gone) := by
  have hphase : ∀ (b : Prop) [Decidable b],
      (if b then Phase.top else .gone) = .top ∨ (if b then Phase.top else .gone) = .gone := by
    intro b _
    split_ifs
    · exact Or.inl rfl
    · exact Or.inr rfl
  rw [afterSelect]
  by_cases hret : ans.ret = -1
  · rw [if_pos hret]
    exact ⟨_, rfl, h, hphase _⟩
  rw [if_neg hret]
  by_cases hlisten :
      (readySets (prepare fs who gfds gotfd) ans.io).readable fs.listenfd = true
  · rw [if_pos hlisten]
    -- the bit of the listening socket is one that was asked for
    have hasked : (prepare fs who gfds gotfd).rfds fs.listenfd = true := by
      simp only [readySets, Bool.and_eq_true] at hlisten
      exact hlisten.1.1
    rw [prepare_listenfd fs who gotfd h.listen, Bool.and_eq_true, decide_eq_true_eq] at hasked
    obtain ⟨gfds', r, hconnect, h'⟩ := h.connect hasked.2 ans.acceptErrno hfresh hother
    rw [hconnect]
    refine ⟨_, rfl, h', ?_⟩
    by_cases hr : r ≠ 0
    · exact Or.inr (if_pos hr)
    · exact Or.inl (if_neg hr)
  · rw [if_neg hlisten]
    have hready : (readySets (prepare fs who gfds gotfd) ans.io).Lawful := ⟨hio.read, hio.write⟩
    obtain ⟨gfds', log, hpass, h'⟩ := h.pass hready
    refine ⟨⟨gfds', .top⟩, ?_, h', Or.inl rfl⟩
    simp only [hpass, Option.bind_eq_bind, Option.bind_some]

/-! ## A step of the system -/

def Phase.isGone : Phase → Bool
  | .gone => true
  | _ => false

/-- The process has the lock. -/
def Phase.holding : Phase → Bool
  | .selecting _ gotfd => gotfd
  | _ => false

/-- What the semaphore has to do with a step of a process. -/
inductive Effect (s : State) : Bool → Bool → Nat → Nat → Prop where
  | keep : Effect s false false s.sem s.lost
  | take : 0 < s.sem → Effect s false true (s.sem - 1) s.lost
  | give : Effect s true false (s.sem + 1) s.lost
  | lose : Effect s true false s.sem (s.lost + 1)

/-- A process has moved on, or is gone. -/
structure Moved (fs : Files) (gechobytes : Int) (s s' : State) (who : Who) (p : Proc) : Prop where
  alive : (s.proc who).phase.isGone = false
  proc : s'.proc = Function.update s.proc who p
  inv : ProcInv fs gechobytes who p
  effect : Effect s (s.proc who).phase.holding p.phase.holding s'.sem s'.lost
  pending : s'.pending = (s.pending || (p.phase.isGone && decide (who = .worker)))
  stops : s'.stops = s.stops
  posts : s'.posts = s.posts
  refused : s'.refused = s.refused
  lost : s'.lost ≤ s.lost + p.phase.isGone.toNat

/-- A process that waits for nothing. -/
theorem SlotsInv.idle {fs : Files} {gechobytes : Int} {gfds : Table}
    (h : SlotsInv fs gechobytes gfds) {phase : Phase} (hphase : phase = .top ∨ phase = .gone)
    (who : Who) : ProcInv fs gechobytes who ⟨gfds, phase⟩ where
  toSlotsInv := h
  asks := by
    rintro ctx gotfd rfl
    rcases hphase with hp | hp
    · exact absurd hp Phase.noConfusion
    · exact absurd hp Phase.noConfusion

theorem enter_moved {fs : Files} {gechobytes : Int} {s : State} {who : Who}
    (h : ProcInv fs gechobytes who (s.proc who)) (htop : (s.proc who).phase = .top) :
    ∃ p, Moved fs gechobytes s (enter fs s who) who p ∧ p.gfds = (s.proc who).gfds := by
  have hno : (s.proc who).phase.holding = false := by rw [htop]; rfl
  have halive : (s.proc who).phase.isGone = false := by rw [htop]; rfl
  by_cases hgot : HasRoom (s.proc who).gfds ∧ 0 < s.sem
  · -- the lock is taken
    have hmax := prepare_maxfd fs who hgot.1 h.listen
    refine ⟨⟨(s.proc who).gfds, .selecting (prepare fs who (s.proc who).gfds true) true⟩, ?_, rfl⟩
    simp only [enter, hgot, and_self, decide_true, if_true, if_neg hmax]
    refine ⟨halive, rfl, ⟨h.toSlotsInv, ?_⟩, ?_, ?_, rfl, rfl, rfl, Nat.le_refl _⟩
    · rintro ctx gotfd hsel
      obtain ⟨rfl, rfl⟩ := Phase.selecting.inj hsel
      exact ⟨rfl, fun _ => hgot.1⟩
    · rw [hno]
      exact .take hgot.2
    · exact (Bool.or_false _).symm
  · simp only [enter, hgot, decide_false, Bool.false_eq_true, if_false]
    split_ifs with hmax
    · refine ⟨⟨(s.proc who).gfds, .top⟩, ⟨halive, rfl, h.toSlotsInv.idle (Or.inl rfl) who, ?_, ?_,
        rfl, rfl, rfl, Nat.le_refl _⟩, rfl⟩
      · rw [hno]
        exact .keep
      · exact (Bool.or_false _).symm
    · refine ⟨⟨(s.proc who).gfds, .selecting (prepare fs who (s.proc who).gfds false) false⟩,
        ⟨halive, rfl, ⟨h.toSlotsInv, ?_⟩, ?_, ?_, rfl, rfl, rfl, Nat.le_refl _⟩, rfl⟩
      · rintro ctx gotfd hsel
        obtain ⟨rfl, rfl⟩ := Phase.selecting.inj hsel
        exact ⟨rfl, fun hf => absurd hf Bool.false_ne_true⟩
      · rw [hno]
        exact .keep
      · exact (Bool.or_false _).symm

/-- The lock is given back before anything else is done. -/
theorem back_effect (s : State) (gotfd : Bool) :
    Effect s gotfd false (if gotfd then { s with sem := s.sem + 1 } else s).sem
      (if gotfd then { s with sem := s.sem + 1 } else s).lost := by
  cases gotfd with
  | true => exact .give
  | false => exact .keep

/-- A process comes back from `select`. -/
theorem back_moved {fs : Files} {gechobytes : Int} {s s' : State} {who : Who} {ans : Answers}
    (h : ProcInv fs gechobytes who (s.proc who)) (hans : Lawful fs s who ans)
    (hrun : step fs gechobytes s (.back who ans) = some s') :
    ∃ p, Moved fs gechobytes s s' who p := by
  cases hphase : (s.proc who).phase with
  | top =>
      simp only [step, hphase] at hrun
      exact absurd hrun.symm (Option.some_ne_none _)
  | gone =>
      simp only [step, hphase] at hrun
      exact absurd hrun.symm (Option.some_ne_none _)
  | selecting ctx gotfd =>
      obtain ⟨rfl, -⟩ := h.asks ctx gotfd hphase
      obtain ⟨⟨gfds, phase⟩, hafter, hslots, hend⟩ := @afterSelect_spec fs gechobytes who _ gotfd
        h.toSlotsInv ans hans.io hans.fresh hans.other
      have halive : (s.proc who).phase.isGone = false := by rw [hphase]; rfl
      have hhold : (s.proc who).phase.holding = gotfd := by rw [hphase]; rfl
      have hsame : (if gotfd then { s with sem := s.sem + 1 } else s).proc = s.proc := by
        cases gotfd <;> rfl
      simp only [step, hphase, hsame, hafter, Option.bind_eq_bind, Option.bind_some,
        List.append_nil] at hrun
      have heffect := back_effect s gotfd
      rcases hend with rfl | rfl
      · obtain rfl := Option.some.inj hrun
        refine ⟨⟨gfds, .top⟩, halive, ?_, hslots.idle (Or.inl rfl) who, hhold ▸ heffect, ?_, ?_, ?_,
          ?_, ?_⟩
        all_goals cases gotfd <;> simp [setProc, Phase.isGone]
      · obtain rfl := Option.some.inj hrun
        refine ⟨⟨gfds, .gone⟩, halive, ?_, hslots.idle (Or.inr rfl) who, hhold ▸ heffect, ?_, ?_,
          ?_, ?_, ?_⟩
        all_goals cases gotfd <;> simp [exits, setProc, Phase.isGone]

/-- A process is killed, perhaps with the lock. -/
theorem kill_moved {fs : Files} {gechobytes : Int} {s s' : State} {who : Who}
    (h : ProcInv fs gechobytes who (s.proc who))
    (hrun : step fs gechobytes s (.kill who) = some s') :
    ∃ p, Moved fs gechobytes s s' who p := by
  have hidle : ProcInv fs gechobytes who ⟨(s.proc who).gfds, .gone⟩ :=
    h.toSlotsInv.idle (Or.inr rfl) who
  cases hphase : (s.proc who).phase with
  | top =>
      simp only [step, hphase] at hrun
      obtain rfl := Option.some.inj hrun
      refine ⟨⟨(s.proc who).gfds, .gone⟩, by rw [hphase]; rfl, rfl, hidle, ?_, rfl, rfl, rfl, rfl,
        Nat.le_succ _⟩
      rw [hphase]
      exact .keep
  | gone =>
      simp only [step, hphase] at hrun
      exact absurd hrun.symm (Option.some_ne_none _)
  | selecting ctx gotfd =>
      simp only [step, hphase] at hrun
      obtain rfl := Option.some.inj hrun
      refine ⟨⟨(s.proc who).gfds, .gone⟩, by rw [hphase]; rfl, ?_, hidle, ?_, ?_, ?_, ?_, ?_, ?_⟩
      · cases gotfd <;> rfl
      · rw [hphase]
        cases gotfd with
        | true => exact .lose
        | false => exact .keep
      all_goals cases gotfd <;> simp [exits, setProc, Phase.isGone]

/-- A step that is no process's. -/
structure Signalled (s s' : State) : Prop where
  proc : s'.proc = s.proc
  lost : s'.lost = s.lost
  refused : s'.refused = s.refused
  stopped : (s'.pending = true ∧ s'.stops = s.stops + 1 ∧ s'.posts = s.posts ∧ s'.sem = s.sem
      ∧ (s.proc .worker).phase.isGone = false) ∨
    (s.pending = true ∧ s'.pending = false ∧ s'.stops = s.stops ∧ s'.posts = s.posts + 1
      ∧ s'.sem = s.sem + 1 ∧ (s.proc .master).phase.isGone = false)

/-- **What a step can do**: a process moves on or is gone, the worker is stopped, or the master
    handles a signal. -/
theorem Steps.cases {fs : Files} {gechobytes : Int} {s s' : State}
    (hinv : ∀ who, ProcInv fs gechobytes who (s.proc who)) (h : Steps fs gechobytes s s') :
    (∃ who p, Moved fs gechobytes s s' who p) ∨ Signalled s s' := by
  obtain ⟨hans, hrun⟩ := h
  rename_i e
  cases e with
  | enter who =>
      left
      cases hphase : (s.proc who).phase with
      | top =>
          simp only [ForkServer.step, hphase] at hrun
          obtain rfl := Option.some.inj hrun
          obtain ⟨p, hmoved, -⟩ := enter_moved (hinv who) hphase
          exact ⟨who, p, hmoved⟩
      | selecting ctx gotfd =>
          simp only [ForkServer.step, hphase] at hrun
          exact absurd hrun.symm (Option.some_ne_none _)
      | gone =>
          simp only [ForkServer.step, hphase] at hrun
          exact absurd hrun.symm (Option.some_ne_none _)
  | back who ans =>
      obtain ⟨p, hmoved⟩ := back_moved (hinv who) (hans who ans rfl) hrun
      exact Or.inl ⟨who, p, hmoved⟩
  | kill who =>
      obtain ⟨p, hmoved⟩ := kill_moved (hinv who) hrun
      exact Or.inl ⟨who, p, hmoved⟩
  | stop =>
      right
      cases hphase : (s.proc .worker).phase with
      | gone =>
          simp only [ForkServer.step, hphase] at hrun
          exact absurd hrun.symm (Option.some_ne_none _)
      | top | selecting =>
          simp only [ForkServer.step, hphase] at hrun
          obtain rfl := Option.some.inj hrun
          exact ⟨rfl, rfl, rfl, Or.inl ⟨rfl, rfl, rfl, rfl, by rw [hphase]; rfl⟩⟩
  | sigchld =>
      right
      cases hphase : (s.proc .master).phase with
      | gone =>
          simp only [ForkServer.step, hphase] at hrun
          exact absurd hrun.symm (Option.some_ne_none _)
      | top | selecting =>
          simp only [ForkServer.step, hphase] at hrun
          split_ifs at hrun with hpending
          obtain rfl := Option.some.inj hrun
          exact ⟨rfl, rfl, rfl, Or.inr ⟨hpending, rfl, rfl, rfl, rfl, by rw [hphase]; rfl⟩⟩

end ForkServer
