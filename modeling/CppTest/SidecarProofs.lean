import CppTest.EchoProofs

/-! # The health check server (`src/springboot-sidecar/select-srv.cpp`)

    A client connects, asks something, gets the answer that the server is up, and is closed.  The
    server keeps its clients in the slots of `g_xhsdk_clis`.

    * `Session.next` is what may be done with one descriptor: it is accepted, read any number of
      times, written ONCE after a read that got something, and closed.  A read that gets nothing
      is followed by the close, and so is the write.
    * `sessions_kept`: in every run, every descriptor is used like that, and it is open exactly
      as long as a slot has it.

    Only the output and `ip`, which is for it, are left out. -/

namespace Sidecar

open Echo (Errno)

/-! ## The model -/

/-- `struct sockcli`. -/
structure Sockcli where
  fd : Int
  alive : Int
  deriving Repr, DecidableEq

abbrev Table := List Sockcli

inductive Syscall where
  | accept (confd : Int)
  | read (fd n : Int)
  | write (fd n : Int)
  | close (fd : Int)
  deriving Repr, DecidableEq

/-- The answers of the system in one pass of the loop: the result of `select` and its sets, that
    of `accept`, and for each slot those of `read` and `write`. -/
structure Answers where
  ret : Int
  readable : Int → Bool
  writable : Int → Bool
  confd : Int
  read : Nat → Int
  readErrno : Nat → Errno
  write : Nat → Int
  writeErrno : Nat → Errno

/-- The descriptor sets. -/
structure Selectctx where
  rfds : Int → Bool
  wfds : Int → Bool

/-- `selectctx_init` and `selectctx_set_cli_fds`. -/
def selectctxInit (listenfd : Int) (clis : Table) : Selectctx where
  rfds := fun fd => decide (fd = listenfd ∨ 0 < fd ∧ ∃ cli ∈ clis, cli.fd = fd)
  wfds := fun fd => decide (0 < fd ∧ ∃ cli ∈ clis, cli.fd = fd)

/-- `xhsdkclient_add`, in the first free slot. -/
def xhsdkclientAdd (new : Sockcli) : Table → Option Table
  | [] => none
  | cli :: clis =>
      if cli.fd = 0 then some (new :: clis) else (xhsdkclientAdd new clis).map (cli :: ·)

/-- The result of `sidecar_select_on_read` and `sidecar_select_on_write` for that of the call. -/
def ioResult (n : Int) (errno : Errno) : Int :=
  if n ≤ 0 then
    if n < 0 ∧ (errno = .EAGAIN ∨ errno = .EINTR) then 0 else -1
  else n

/-- The first half of a turn of `select_on_socket_rw`. -/
def readSlot (ans : Answers) (sctx : Selectctx) (i : Nat) (cli : Sockcli) :
    Sockcli × List Syscall :=
  if cli.fd ≠ 0 ∧ sctx.rfds cli.fd = true then
    if 0 < ioResult (ans.read i) (ans.readErrno i) then
      ({ cli with alive := 1 }, [.read cli.fd (ans.read i)])
    else ({ cli with fd := 0 }, [.read cli.fd (ans.read i), .close cli.fd])
  else (cli, [])

/-- The second half.  `fd` is a reference to the member of the slot, so it is 0 where the first
    half has closed the client. -/
def writeSlot (ans : Answers) (sctx : Selectctx) (i : Nat) (cli : Sockcli) :
    Sockcli × List Syscall :=
  if cli.fd ≠ 0 ∧ sctx.wfds cli.fd = true then
    if cli.alive ≠ 0 then (⟨0, 0⟩, [.write cli.fd (ans.write i), .close cli.fd]) else (cli, [])
  else (cli, [])

/-- A turn of `select_on_socket_rw`. -/
def turn (ans : Answers) (sctx : Selectctx) (i : Nat) (cli : Sockcli) : Sockcli × List Syscall :=
  let (cli, calls) := readSlot ans sctx i cli
  let (cli, calls') := writeSlot ans sctx i cli
  (cli, calls ++ calls')

/-- `select_on_socket_rw`, from slot `i` on. -/
def selectOnSocketRw (ans : Answers) (sctx : Selectctx) : Nat → Table → Table × List Syscall
  | _, [] => ([], [])
  | i, cli :: clis =>
      let (cli, calls) := turn ans sctx i cli
      let (clis, calls') := selectOnSocketRw ans sctx (i + 1) clis
      (cli :: clis, calls ++ calls')

/-- `select_on_socket_connect`: the sets, the slots, the calls and the result.  The new client is
    put into the sets that `select` has left, so it is served in the same pass. -/
def selectOnSocketConnect (ans : Answers) (sctx : Selectctx) (clis : Table) :
    Selectctx × Table × List Syscall × Int :=
  if ans.confd < 0 then (sctx, clis, [.accept ans.confd], -1)
  else
    match xhsdkclientAdd ⟨ans.confd, 0⟩ clis with
    | none => (sctx, clis, [.accept ans.confd, .close ans.confd], -2)
    | some clis =>
        (⟨Function.update sctx.rfds ans.confd true, Function.update sctx.wfds ans.confd true⟩, clis,
          [.accept ans.confd], 0)

/-- One pass of `for(;;)`: the slots, the calls, and whether the loop goes on. -/
def pass (listenfd : Int) (ans : Answers) (clis : Table) : Table × List Syscall × Bool :=
  if ans.ret = -1 then (clis, [], false)
  else if ans.ret = 0 then (clis, [], true)
  else
    let sctx := selectctxInit listenfd clis
    -- `select` leaves what is ready of what was asked for
    let sctx : Selectctx := ⟨fun fd => sctx.rfds fd && ans.readable fd,
      fun fd => sctx.wfds fd && ans.writable fd⟩
    if sctx.rfds listenfd then
      let (sctx, clis, calls, r) := selectOnSocketConnect ans sctx clis
      if r = -1 then (clis, calls, false)
      else
        let (clis, calls') := selectOnSocketRw ans sctx 0 clis
        (clis, calls ++ calls', true)
    else
      let (clis, calls) := selectOnSocketRw ans sctx 0 clis
      (clis, calls, true)

/-- A pass with answers that the system may give: `accept` fails, or returns a descriptor that is
    not in use. -/
def Lawful (ans : Answers) (clis : Table) : Prop :=
  ans.confd < 0 ∨ 0 < ans.confd ∧ ∀ cli ∈ clis, cli.fd ≠ ans.confd

/-- The runs of the server, with the log of its calls.  The last pass of a run may have left the
    loop. -/
inductive Runs (listenfd : Int) (slots : Nat) : Table → List Syscall → Prop where
  | start : Runs listenfd slots (List.replicate slots ⟨0, 0⟩) []
  | pass {clis : Table} {log : List Syscall} {ans : Answers} : Runs listenfd slots clis log →
      Lawful ans clis →
      Runs listenfd slots (pass listenfd ans clis).1 (log ++ (pass listenfd ans clis).2.1)

/-! ## What may be done with a descriptor -/

inductive Session where
  | closed
  /-- Nothing was read yet. -/
  | fresh
  /-- Something was read. -/
  | asked
  /-- There was a read that got nothing, or the answer was sent. -/
  | ending
  deriving Repr, DecidableEq

/-- The calls that may be made, seen from the descriptor `fd`. -/
def Session.next (fd : Int) : Session → Syscall → Option Session
  | s, .accept confd => if confd ≠ fd then some s else if s = .closed then some .fresh else none
  | s, .read fd' n =>
      if fd' ≠ fd then some s
      else if s = .fresh ∨ s = .asked then some (if 0 < n then .asked else .ending)
      else none
  | s, .write fd' _ =>
      if fd' ≠ fd then some s else if s = .asked then some .ending else none
  | s, .close fd' =>
      if fd' ≠ fd then some s else if s = .ending ∨ s = .fresh then some .closed else none

/-- The session of a descriptor after some calls, if all of them may be made. -/
def session (fd : Int) (s : Session) (calls : List Syscall) : Option Session :=
  calls.foldlM (Session.next fd) s

/-- The session that the slot of a client stands for. -/
def Sockcli.session (cli : Sockcli) : Session := if cli.alive ≠ 0 then .asked else .fresh

/-- The session of a descriptor, by the slots. -/
def sessionOf (fd : Int) (clis : Table) : Session :=
  match clis.find? fun cli => cli.fd = fd with
  | none => .closed
  | some cli => cli.session

/-! ## Calls and sessions -/

/-- The descriptor of a call. -/
def Syscall.on : Syscall → Int
  | .accept confd => confd
  | .read fd _ => fd
  | .write fd _ => fd
  | .close fd => fd

theorem session_append (fd : Int) (s : Session) (calls calls' : List Syscall) :
    session fd s (calls ++ calls') = (session fd s calls).bind fun s => session fd s calls' :=
  List.foldlM_append ..

/-- A call on another descriptor does not matter. -/
theorem next_other {fd : Int} {call : Syscall} (h : call.on ≠ fd) (s : Session) :
    s.next fd call = some s := by
  cases call with
  | accept confd => exact if_pos h
  | read fd' n => exact if_pos h
  | write fd' n => exact if_pos h
  | close fd' => exact if_pos h

theorem session_others {fd : Int} {s : Session} : ∀ {calls : List Syscall},
    (∀ call ∈ calls, call.on ≠ fd) → session fd s calls = some s := by
  intro calls
  induction calls with
  | nil => exact fun _ => rfl
  | cons call calls ih =>
      intro h
      rw [session, List.foldlM_cons, next_other (h call (List.mem_cons_self ..))]
      exact ih fun c hc => h c (List.mem_cons_of_mem _ hc)

/-- No two clients share a descriptor. -/
def Unique (clis : Table) : Prop := clis.Pairwise fun cli cli' => cli.fd ≠ 0 → cli.fd ≠ cli'.fd

theorem sessionOf_cons (fd : Int) (cli : Sockcli) (clis : Table) :
    sessionOf fd (cli :: clis) = if cli.fd = fd then cli.session else sessionOf fd clis := by
  rw [sessionOf, List.find?_cons]
  split_ifs with h
  · rw [decide_eq_true h]
  · rw [decide_eq_false h]
    rfl

theorem sessionOf_closed {fd : Int} {clis : Table} :
    sessionOf fd clis = .closed ↔ ∀ cli ∈ clis, cli.fd ≠ fd := by
  induction clis with
  | nil => exact iff_of_true rfl fun _ h => absurd h List.not_mem_nil
  | cons cli clis ih =>
      rw [sessionOf_cons, List.forall_mem_cons]
      split_ifs with h
      · refine iff_of_false ?_ fun hall => hall.1 h
        unfold Sockcli.session
        split_ifs <;> simp
      · rw [ih]
        exact ⟨fun hall => ⟨h, hall⟩, fun hall => hall.2⟩

/-- What is left of the client of a slot. -/
def Sockcli.after (cli : Sockcli) : Session := if cli.fd = 0 then .closed else cli.session

section Turn

variable (ans : Answers) (sctx : Selectctx) (i : Nat)

theorem session_cases (cli : Sockcli) : cli.session = .fresh ∨ cli.session = .asked := by
  rw [Sockcli.session]
  split_ifs
  · exact Or.inr rfl
  · exact Or.inl rfl

/-- A half of a turn keeps to the session of its client. -/
structure Serves (cli cli' : Sockcli) (calls : List Syscall) : Prop where
  fd : cli'.fd = cli.fd ∨ cli'.fd = 0
  on : ∀ call ∈ calls, cli.fd ≠ 0 ∧ call.on = cli.fd
  session : cli.fd ≠ 0 → session cli.fd cli.session calls = some cli'.after

theorem serves_idle (cli : Sockcli) : Serves cli cli [] where
  fd := Or.inl rfl
  on := fun _ h => absurd h List.not_mem_nil
  session := by
    intro hfd
    rw [Sockcli.after, if_neg hfd]
    rfl

theorem ioResult_pos {n : Int} {errno : Errno} : 0 < ioResult n errno ↔ 0 < n := by
  unfold ioResult
  split_ifs <;> omega

theorem readSlot_serves (cli : Sockcli) :
    Serves cli (readSlot ans sctx i cli).1 (readSlot ans sctx i cli).2 := by
  rw [readSlot]
  by_cases hset : cli.fd ≠ 0 ∧ sctx.rfds cli.fd = true
  · rw [if_pos hset]
    by_cases hn : 0 < ioResult (ans.read i) (ans.readErrno i)
    · rw [if_pos hn]
      refine ⟨Or.inl rfl, fun call hcall => ?_, fun hfd => ?_⟩
      · obtain rfl := List.mem_singleton.mp hcall
        exact ⟨hset.1, rfl⟩
      · have hpos := ioResult_pos.mp hn
        simp [session, Session.next, hpos, Sockcli.after, Sockcli.session, hfd]
    · rw [if_neg hn]
      refine ⟨Or.inr rfl, fun call hcall => ?_, fun hfd => ?_⟩
      · rcases List.mem_cons.mp hcall with rfl | hcall
        · exact ⟨hset.1, rfl⟩
        · obtain rfl := List.mem_singleton.mp hcall
          exact ⟨hset.1, rfl⟩
      · have hneg := mt ioResult_pos.mpr hn
        have hopen := session_cases cli
        simp [session, Session.next, hopen, hneg, Sockcli.after]
  · rw [if_neg hset]
    exact serves_idle cli

theorem writeSlot_serves (cli : Sockcli) :
    Serves cli (writeSlot ans sctx i cli).1 (writeSlot ans sctx i cli).2 := by
  rw [writeSlot]
  by_cases hset : cli.fd ≠ 0 ∧ sctx.wfds cli.fd = true
  · rw [if_pos hset]
    by_cases halive : cli.alive ≠ 0
    · rw [if_pos halive]
      refine ⟨Or.inr rfl, fun call hcall => ?_, fun hfd => ?_⟩
      · rcases List.mem_cons.mp hcall with rfl | hcall
        · exact ⟨hset.1, rfl⟩
        · obtain rfl := List.mem_singleton.mp hcall
          exact ⟨hset.1, rfl⟩
      · have hsession : cli.session = .asked := if_pos halive
        simp [session, Session.next, hsession, Sockcli.after]
    · rw [if_neg halive]
      exact serves_idle cli
  · rw [if_neg hset]
    exact serves_idle cli

/-- **A turn** of `select_on_socket_rw`. -/
theorem turn_serves (cli : Sockcli) :
    Serves cli (turn ans sctx i cli).1 (turn ans sctx i cli).2 := by
  have hread := readSlot_serves ans sctx i cli
  have hwrite := writeSlot_serves ans sctx i (readSlot ans sctx i cli).1
  show Serves cli (writeSlot ans sctx i (readSlot ans sctx i cli).1).1
    ((readSlot ans sctx i cli).2 ++ (writeSlot ans sctx i (readSlot ans sctx i cli).1).2)
  have hon : ∀ call ∈ (writeSlot ans sctx i (readSlot ans sctx i cli).1).2,
      cli.fd ≠ 0 ∧ call.on = cli.fd := by
    intro call hcall
    obtain ⟨hne, hcallfd⟩ := hwrite.on call hcall
    rcases hread.fd with hfd | hfd
    · exact ⟨hfd ▸ hne, hcallfd.trans hfd⟩
    · exact absurd hfd hne
  refine ⟨?_, fun call hcall => ?_, fun hfd => ?_⟩
  · rcases hwrite.fd with h | h
    · rw [h]
      exact hread.fd
    · exact Or.inr h
  · rcases List.mem_append.mp hcall with hcall | hcall
    · exact hread.on call hcall
    · exact hon call hcall
  · rw [session_append, hread.session hfd, Option.bind_some]
    rcases hread.fd with h | h
    · -- the client is still there for the second half
      have hne : (readSlot ans sctx i cli).1.fd ≠ 0 := h ▸ hfd
      have hafter : (readSlot ans sctx i cli).1.after = (readSlot ans sctx i cli).1.session :=
        if_neg hne
      rw [hafter, ← h]
      exact hwrite.session hne
    · have hnone : (writeSlot ans sctx i (readSlot ans sctx i cli).1)
          = ((readSlot ans sctx i cli).1, []) := if_neg fun hset => hset.1 h
      rw [hnone]
      rfl

end Turn

/-- What a pass over the slots does. -/
structure Passed (clis clis' : Table) (calls : List Syscall) : Prop where
  length : clis'.length = clis.length
  fds : ∀ cli' ∈ clis', cli'.fd = 0 ∨ ∃ cli ∈ clis, cli'.fd = cli.fd
  unique : Unique clis'
  on : ∀ call ∈ calls, ∃ cli ∈ clis, cli.fd ≠ 0 ∧ call.on = cli.fd
  session : ∀ fd, fd ≠ 0 → session fd (sessionOf fd clis) calls = some (sessionOf fd clis')

/-- **A pass over the slots** keeps to all sessions. -/
theorem selectOnSocketRw_passed (ans : Answers) (sctx : Selectctx) : ∀ (clis : Table) (i : Nat),
    Unique clis → Passed clis (selectOnSocketRw ans sctx i clis).1
      (selectOnSocketRw ans sctx i clis).2 := by
  intro clis
  induction clis with
  | nil =>
      intro i _
      exact ⟨rfl, fun _ h => absurd h List.not_mem_nil, List.Pairwise.nil,
        fun _ h => absurd h List.not_mem_nil, fun _ _ => rfl⟩
  | cons cli clis ih =>
      intro i hunique
      obtain ⟨hfirst, hrest⟩ := List.pairwise_cons.mp hunique
      have hturn := turn_serves ans sctx i cli
      have hpass := ih (i + 1) hrest
      show Passed (cli :: clis)
        ((turn ans sctx i cli).1 :: (selectOnSocketRw ans sctx (i + 1) clis).1)
        ((turn ans sctx i cli).2 ++ (selectOnSocketRw ans sctx (i + 1) clis).2)
      generalize (turn ans sctx i cli).1 = cli' at hturn ⊢
      generalize (turn ans sctx i cli).2 = calls at hturn ⊢
      generalize (selectOnSocketRw ans sctx (i + 1) clis).1 = clis' at hpass ⊢
      generalize (selectOnSocketRw ans sctx (i + 1) clis).2 = calls' at hpass ⊢
      have hleft : ∀ c ∈ clis', cli'.fd ≠ 0 → cli'.fd ≠ c.fd := by
        intro c hc hne heq
        have hfd : cli'.fd = cli.fd := hturn.fd.resolve_right hne
        rcases hpass.fds c hc with hzero | ⟨c₀, hc₀, hcfd⟩
        · exact hne (heq.trans hzero)
        · exact hfirst c₀ hc₀ (hfd ▸ hne) (by rw [← hfd, heq, hcfd])
      refine ⟨congrArg Nat.succ hpass.length, ?_,
        List.pairwise_cons.mpr ⟨hleft, hpass.unique⟩, ?_, ?_⟩
      · intro c hc
        rcases List.mem_cons.mp hc with rfl | hc
        · rcases hturn.fd with h | h
          · exact Or.inr ⟨cli, List.mem_cons_self .., h⟩
          · exact Or.inl h
        · rcases hpass.fds c hc with h | ⟨c₀, hc₀, h⟩
          · exact Or.inl h
          · exact Or.inr ⟨c₀, List.mem_cons_of_mem _ hc₀, h⟩
      · intro call hcall
        rcases List.mem_append.mp hcall with hcall | hcall
        · exact ⟨cli, List.mem_cons_self .., hturn.on call hcall⟩
        · obtain ⟨c, hc, h⟩ := hpass.on call hcall
          exact ⟨c, List.mem_cons_of_mem _ hc, h⟩
      · intro fd hfd
        rw [session_append, sessionOf_cons, sessionOf_cons]
        by_cases hcli : cli.fd = fd
        · subst hcli
          have hothers : ∀ call ∈ calls', call.on ≠ cli.fd := by
            intro call hcall heq
            obtain ⟨c, hc, -, hon⟩ := hpass.on call hcall
            exact hfirst c hc hfd (heq.symm.trans hon)
          have hnone : sessionOf cli.fd clis' = .closed := by
            rw [sessionOf_closed]
            intro c hc heq
            rcases hpass.fds c hc with hzero | ⟨c₀, hc₀, hcfd⟩
            · exact hfd (heq.symm.trans hzero)
            · exact hfirst c₀ hc₀ hfd (heq.symm.trans hcfd)
          rw [if_pos rfl, hturn.session hfd, Option.bind_some, session_others hothers, hnone,
            Sockcli.after]
          rcases hturn.fd with h | h
          · rw [if_neg (h ▸ hfd), if_pos h]
          · rw [if_pos h, if_neg (by rw [h]; exact fun h0 => hfd h0.symm)]
        · have hothers : ∀ call ∈ calls, call.on ≠ fd := fun call hcall heq =>
            hcli ((hturn.on call hcall).2.symm.trans heq)
          have hcli' : cli'.fd ≠ fd := by
            rcases hturn.fd with h | h
            · rw [h]
              exact hcli
            · rw [h]
              exact fun h0 => hfd h0.symm
          rw [if_neg hcli, if_neg hcli', session_others hothers, Option.bind_some]
          exact hpass.session fd hfd

/-! ## The runs -/

/-- A new client, in a free slot. -/
theorem xhsdkclientAdd_spec {confd : Int} : ∀ {clis clis' : Table},
    Unique clis → (∀ cli ∈ clis, cli.fd ≠ confd) →
    xhsdkclientAdd ⟨confd, 0⟩ clis = some clis' →
    Unique clis' ∧ (∀ cli' ∈ clis', cli'.fd = confd ∨ ∃ cli ∈ clis, cli'.fd = cli.fd)
      ∧ ∀ fd, fd ≠ 0 → sessionOf fd clis' = if fd = confd then .fresh else sessionOf fd clis := by
  intro clis
  induction clis with
  | nil => exact fun _ _ h => absurd h.symm (Option.some_ne_none _)
  | cons cli clis ih =>
      intro clis' hunique hfresh h
      obtain ⟨hfirst, hrest⟩ := List.pairwise_cons.mp hunique
      rw [List.forall_mem_cons] at hfresh
      rw [xhsdkclientAdd] at h
      by_cases hfree : cli.fd = 0
      · rw [if_pos hfree] at h
        obtain rfl := Option.some.inj h
        refine ⟨List.pairwise_cons.mpr ⟨fun c hc _ heq => hfresh.2 c hc heq.symm, hrest⟩, ?_, ?_⟩
        · intro c hc
          rcases List.mem_cons.mp hc with rfl | hc
          · exact Or.inl rfl
          · exact Or.inr ⟨c, List.mem_cons_of_mem _ hc, rfl⟩
        · intro fd hfd
          rw [sessionOf_cons, sessionOf_cons, if_neg (fun h0 : cli.fd = fd => hfd (h0 ▸ hfree))]
          by_cases heq : fd = confd
          · rw [if_pos heq, if_pos heq.symm]
            rfl
          · rw [if_neg heq, if_neg fun h0 => heq h0.symm]
      · rw [if_neg hfree] at h
        obtain ⟨rest, hadd, rfl⟩ := Option.map_eq_some_iff.mp h
        obtain ⟨hunique', hfds, hsession⟩ := ih hrest hfresh.2 hadd
        refine ⟨List.pairwise_cons.mpr ⟨fun c hc hne heq => ?_, hunique'⟩, ?_, ?_⟩
        · rcases hfds c hc with hc' | ⟨c₀, hc₀, hc'⟩
          · exact hfresh.1 (heq.trans hc')
          · exact hfirst c₀ hc₀ hne (heq.trans hc')
        · intro c hc
          rcases List.mem_cons.mp hc with rfl | hc
          · exact Or.inr ⟨c, List.mem_cons_self .., rfl⟩
          · rcases hfds c hc with hc' | ⟨c₀, hc₀, hc'⟩
            · exact Or.inl hc'
            · exact Or.inr ⟨c₀, List.mem_cons_of_mem _ hc₀, hc'⟩
        · intro fd hfd
          rw [sessionOf_cons, sessionOf_cons, hsession fd hfd]
          by_cases heq : fd = confd
          · rw [if_pos heq, if_neg (heq ▸ hfresh.1), if_pos heq]
          · rw [if_neg heq, if_neg heq]

/-- The slots, as the calls so far have left them. -/
structure Inv (clis : Table) (log : List Syscall) : Prop where
  unique : Unique clis
  session : ∀ fd, 0 < fd → session fd .closed log = some (sessionOf fd clis)

/-- More calls. -/
theorem Inv.append {clis clis' : Table} {log calls : List Syscall} (h : Inv clis log)
    (hunique : Unique clis')
    (hcalls : ∀ fd, 0 < fd → Sidecar.session fd (sessionOf fd clis) calls
      = some (sessionOf fd clis')) : Inv clis' (log ++ calls) where
  unique := hunique
  session := by
    intro fd hfd
    rw [session_append, h.session fd hfd]
    exact hcalls fd hfd

/-- `select_on_socket_rw`. -/
theorem Inv.rw {clis : Table} {log : List Syscall} (h : Inv clis log) (ans : Answers)
    (sctx : Selectctx) : Inv (selectOnSocketRw ans sctx 0 clis).1
      (log ++ (selectOnSocketRw ans sctx 0 clis).2) := by
  have hpass := selectOnSocketRw_passed ans sctx clis 0 h.unique
  exact h.append hpass.unique fun fd hfd => hpass.session fd (Int.ne_of_gt hfd)

/-- `select_on_socket_connect`. -/
theorem Inv.connect {clis : Table} {log : List Syscall} (h : Inv clis log) {ans : Answers}
    (hans : Lawful ans clis) (sctx : Selectctx) :
    Inv (selectOnSocketConnect ans sctx clis).2.1
      (log ++ (selectOnSocketConnect ans sctx clis).2.2.1) := by
  rw [selectOnSocketConnect]
  by_cases hneg : ans.confd < 0
  · rw [if_pos hneg]
    refine h.append h.unique fun fd hfd => session_others fun call hcall => ?_
    obtain rfl := List.mem_singleton.mp hcall
    exact Int.ne_of_lt (Int.lt_trans hneg hfd)
  · rw [if_neg hneg]
    obtain ⟨-, hfresh⟩ := hans.resolve_left hneg
    have hclosed : sessionOf ans.confd clis = .closed := sessionOf_closed.mpr hfresh
    cases hadd : xhsdkclientAdd ⟨ans.confd, 0⟩ clis with
    | none =>
        refine h.append h.unique fun fd hfd => ?_
        by_cases heq : ans.confd = fd
        · subst heq
          rw [hclosed]
          simp [Sidecar.session, Session.next]
        · refine session_others fun call hcall => ?_
          rcases List.mem_cons.mp hcall with rfl | hcall
          · exact heq
          · obtain rfl := List.mem_singleton.mp hcall
            exact heq
    | some clis' =>
        obtain ⟨hunique, -, hsession⟩ := xhsdkclientAdd_spec h.unique hfresh hadd
        refine h.append hunique fun fd hfd => ?_
        rw [hsession fd (Int.ne_of_gt hfd)]
        by_cases heq : fd = ans.confd
        · subst heq
          rw [if_pos rfl, hclosed]
          simp [Sidecar.session, Session.next]
        · rw [if_neg heq]
          refine session_others fun call hcall => ?_
          obtain rfl := List.mem_singleton.mp hcall
          exact fun h0 => heq h0.symm

/-- **One pass** of the server. -/
theorem Inv.pass {clis : Table} {log : List Syscall} (h : Inv clis log) {ans : Answers}
    (hans : Lawful ans clis) (listenfd : Int) :
    Inv (pass listenfd ans clis).1 (log ++ (pass listenfd ans clis).2.1) := by
  have hsame : Inv clis (log ++ []) := by
    rw [List.append_nil]
    exact h
  rw [Sidecar.pass]
  by_cases herr : ans.ret = -1
  · rw [if_pos herr]
    exact hsame
  rw [if_neg herr]
  by_cases htime : ans.ret = 0
  · rw [if_pos htime]
    exact hsame
  rw [if_neg htime]
  dsimp only
  split_ifs with hlisten hbreak
  · exact h.connect hans _
  · have hrw := (h.connect hans ⟨fun fd => (selectctxInit listenfd clis).rfds fd && ans.readable fd,
      fun fd => (selectctxInit listenfd clis).wfds fd && ans.writable fd⟩).rw ans
    rw [← List.append_assoc]
    exact hrw _
  · exact h.rw ans _

/-- **Every run.** -/
theorem Runs.inv {listenfd : Int} {slots : Nat} {clis : Table} {log : List Syscall}
    (h : Runs listenfd slots clis log) : Inv clis log := by
  induction h with
  | start =>
      have hfree : ∀ cli ∈ List.replicate slots (⟨0, 0⟩ : Sockcli), cli.fd = 0 := by
        intro cli hcli
        rw [List.eq_of_mem_replicate hcli]
      refine ⟨?_, fun fd hfd => ?_⟩
      · refine List.pairwise_of_forall_mem_list fun cli hcli _ _ hne => absurd (hfree cli hcli) hne
      · have hclosed : sessionOf fd (List.replicate slots ⟨0, 0⟩) = .closed :=
          sessionOf_closed.mpr fun cli hcli heq => Int.ne_of_gt hfd (heq ▸ hfree cli hcli)
        rw [hclosed]
        rfl
  | pass _ hans ih => exact ih.pass hans _

/-- A client connects, and its question is there. -/
def connects : Answers where
  ret := 1
  readable := fun fd => decide (fd = 3)
  writable := fun _ => false
  confd := 4
  read := fun _ => 10
  readErrno := fun _ => .other
  write := fun _ => 80
  writeErrno := fun _ => .other

theorem runs_connects : Runs 3 2 [⟨0, 0⟩, ⟨0, 0⟩] [.accept 4, .read 4 10, .write 4 80, .close 4] :=
  @Runs.pass 3 2 _ _ connects .start (Or.inr ⟨by decide, by decide⟩)

end Sidecar
