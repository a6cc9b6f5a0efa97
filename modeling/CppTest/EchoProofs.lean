import CppTest.PrintProofs

/-! # The echo server (`src/fork/test_fork.cpp`)

    A client has a slot of `gfds` with a buffer.  `protocol_echo_read` appends what the client
    sends to the buffer, and `protocol_echo_write` sends what is in the buffer back, from the
    front.

    * The system calls answer as they like, within their contracts.  Every call is logged with
      the slots as they are at that moment.
    * `Served.conserved`: what was read is what was written, followed by what is in the buffer.
      `echo_law` says the same of the buffer, its length and the totals.

    Only what the handlers print is left out. -/

namespace Echo

open Machine Print

/-! ## The model -/

def SOCK_BUF : Int := 1024 * 10

/-- `struct sock_cli`, without `ip`, and without `stat`, which is for output that `verbose`, always
    0, turns off. -/
structure SockCli where
  fd : Int
  buf : List Char
  len : Int
  r : Int
  w : Int
  deriving Repr, DecidableEq

inductive Errno where
  | EAGAIN
  | EINTR
  | other
  deriving Repr, DecidableEq

/-- The answer of a system call: its result, `errno`, and for `read` the bytes it got. -/
structure IoResult where
  n : Int
  errno : Errno
  data : List Char
  deriving Repr, DecidableEq

/-- `read` gets no more than it was asked for; a negative count is refused. -/
def ReadLawful (sys : Int → IoResult) : Prop :=
  ∀ count, (sys count).n ≤ count ∧ (0 < (sys count).n → ((sys count).data.length : Int)
    = (sys count).n)

/-- `write` takes no more than it was given. -/
def WriteLawful (sys : Int → IoResult) : Prop := ∀ count, (sys count).n ≤ count

/-- The system calls of the handlers.  `read` goes to `cli->buf + off`. -/
inductive Syscall where
  | read (fd off count : Int) (res : IoResult)
  | write (fd : Int) (bytes : List Char) (res : IoResult)
  | close (fd : Int)
  deriving Repr, DecidableEq

abbrev Table := List SockCli

/-- The calls in order, each with the slots before it. -/
abbrev Log := List (Table × Syscall)

/-- `n < 0 && (errno == EAGAIN || errno == EINTR)`. -/
def IoResult.again (res : IoResult) : Bool :=
  decide (res.n < 0 ∧ (res.errno = .EAGAIN ∨ res.errno = .EINTR))

/-- `sock_cli_remove`: the first slot with this descriptor is free again.  Its buffer stays. -/
def sockCliRemove (fd : Int) : Table → Table
  | [] => []
  | cli :: gfds =>
      if 0 < cli.fd ∧ cli.fd = fd then { cli with fd := 0 } :: gfds
      else cli :: sockCliRemove fd gfds

/-- What both handlers do when a call has got or taken nothing. -/
def ioFailed (res : IoResult) (fd : Int) (gfds : Table) (call : Syscall) : Table × Log × Int :=
  if res.again then (gfds, [(gfds, call)], 0)
  else (sockCliRemove fd gfds, [(gfds, call), (gfds, .close fd)], 0)

/-- `protocol_echo_read`. -/
def protocolEchoRead (gechobytes : Int) (sys : Int → IoResult) (gfds : Table) (i : Nat) :
    Option (Table × Log × Int) := do
  let cli ← gfds[i]?
  -- write op too slow
  if SOCK_BUF - cli.len < gechobytes then some (gfds, [], 0)
  else
    let res := sys gechobytes
    let call := Syscall.read cli.fd cli.len gechobytes res
    if res.n ≤ 0 then some (ioFailed res cli.fd gfds call)
    else
      let buf ← memcpyAt cli.buf cli.len.toNat res.data
      some (gfds.set i { cli with
        buf := buf
        len := cli.len + res.n
        r := wrap32 (cli.r + res.n) }, [(gfds, call)], res.n)

/-- `if(n < cli->len) memmove(cli->buf, cli->buf + n, cli->len - n)`. -/
def moveRest (cli : SockCli) (n : Int) : Option (List Char) :=
  if n < cli.len then memmoveFrom cli.buf n.toNat (cli.len - n).toNat else some cli.buf

/-- `protocol_echo_write`. -/
def protocolEchoWrite (sys : Int → IoResult) (gfds : Table) (i : Nat) :
    Option (Table × Log × Int) := do
  let cli ← gfds[i]?
  -- nothing to write
  if cli.len ≤ 0 then some (gfds, [], 0)
  else
    let res := sys cli.len
    let call := Syscall.write cli.fd (cli.buf.take cli.len.toNat) res
    if res.n ≤ 0 then some (ioFailed res cli.fd gfds call)
    else
      let buf ← moveRest cli res.n
      some (gfds.set i { cli with
        buf := buf
        len := cli.len - res.n
        w := wrap32 (cli.w + res.n) }, [(gfds, call)], res.n)

/-- The client `select_on_socket_connect` adds for a new descriptor. -/
def newClient (confd : Int) : SockCli := ⟨confd, List.replicate (1024 * 10) nul, 0, 0, 0⟩

/-! ## What a handler does -/

/-- The buffer of a slot. -/
structure SockCli.Sane (cli : SockCli) : Prop where
  cells : (cli.buf.length : Int) = SOCK_BUF
  len_nonneg : 0 ≤ cli.len
  len_le : cli.len ≤ SOCK_BUF

theorem newClient_sane (confd : Int) : (newClient confd).Sane :=
  ⟨congrArg Nat.cast List.length_replicate, Int.le_refl 0, (by decide : (0 : Int) ≤ SOCK_BUF)⟩

/-- What `protocol_echo_read` makes of a slot when it has got bytes. -/
structure Appended (res : IoResult) (cli cli' : SockCli) : Prop where
  sane : cli'.Sane
  count : (res.data.length : Int) = res.n
  fd : cli'.fd = cli.fd
  len : cli'.len = cli.len + res.n
  r : cli'.r = wrap32 (cli.r + res.n)
  w : cli'.w = cli.w
  bytes : cli'.buf.take cli'.len.toNat = cli.buf.take cli.len.toNat ++ res.data

/-- What `protocol_echo_write` makes of a slot when bytes were taken. -/
structure Shifted (res : IoResult) (cli cli' : SockCli) : Prop where
  sane : cli'.Sane
  fd : cli'.fd = cli.fd
  r : cli'.r = cli.r
  w : cli'.w = wrap32 (cli.w + res.n)
  count : (((cli.buf.take cli.len.toNat).take res.n.toNat).length : Int) = res.n
  bytes : cli.buf.take cli.len.toNat
    = (cli.buf.take cli.len.toNat).take res.n.toNat ++ cli'.buf.take cli'.len.toNat

/-- The rest comes to the front of the buffer. -/
theorem moveRest_spec {cli : SockCli} {n : Int} (hsane : cli.Sane) (hn : 0 ≤ n)
    (hle : n ≤ cli.len) : ∃ buf, moveRest cli n = some buf ∧ buf.length = cli.buf.length
      ∧ cli.buf.take cli.len.toNat
        = (cli.buf.take cli.len.toNat).take n.toNat ++ buf.take (cli.len - n).toNat := by
  have hcells := hsane.cells
  have hlen := hsane.len_le
  rw [moveRest]
  by_cases hshort : n < cli.len
  · obtain ⟨buf, hmove, hbuf, htake⟩ := @memmoveFrom_take cli.buf n.toNat (cli.len - n).toNat
      (by omega)
    refine ⟨buf, (if_pos hshort).trans hmove, hbuf, ?_⟩
    rw [htake, show (cli.len - n).toNat = cli.len.toNat - n.toNat by omega, ← List.drop_take,
      List.take_append_drop]
  · -- all was taken
    obtain rfl : n = cli.len := by omega
    refine ⟨cli.buf, if_neg hshort, rfl, ?_⟩
    rw [Int.sub_self, Int.toNat_zero, List.take_zero, List.append_nil, List.take_take,
      Nat.min_self]

section Handlers

variable {gfds : Table} {i : Nat} {cli : SockCli} {sys : Int → IoResult}
  (hcli : gfds[i]? = some cli) (hsane : cli.Sane)

include hcli hsane in
/-- **`protocol_echo_read`** has no room, or it gets nothing, or it appends to the buffer. -/
theorem protocolEchoRead_spec (gechobytes : Int) (hsys : ReadLawful sys) :
    (SOCK_BUF - cli.len < gechobytes ∧ protocolEchoRead gechobytes sys gfds i = some (gfds, [], 0))
    ∨ (gechobytes ≤ SOCK_BUF - cli.len ∧ (sys gechobytes).n ≤ 0
      ∧ protocolEchoRead gechobytes sys gfds i = some (ioFailed (sys gechobytes) cli.fd gfds
        (.read cli.fd cli.len gechobytes (sys gechobytes))))
    ∨ ∃ cli', gechobytes ≤ SOCK_BUF - cli.len ∧ 0 < (sys gechobytes).n
      ∧ protocolEchoRead gechobytes sys gfds i = some (gfds.set i cli',
        [(gfds, .read cli.fd cli.len gechobytes (sys gechobytes))], (sys gechobytes).n)
      ∧ Appended (sys gechobytes) cli cli' := by
  obtain ⟨hle, hdata⟩ := hsys gechobytes
  have hcells := hsane.cells
  have hlen := hsane.len_nonneg
  rw [protocolEchoRead]
  simp only [hcli, Option.bind_eq_bind, Option.bind_some]
  by_cases hroom : SOCK_BUF - cli.len < gechobytes
  · exact Or.inl ⟨hroom, if_pos hroom⟩
  · rw [if_neg hroom]
    by_cases hn : (sys gechobytes).n ≤ 0
    · exact Or.inr (Or.inl ⟨by omega, hn, if_pos hn⟩)
    · have hdata := hdata (by omega)
      obtain ⟨buf, hcopy, hbuf, htake⟩ := memcpyAt_take
        (show cli.len.toNat + (sys gechobytes).data.length ≤ cli.buf.length by omega)
      refine Or.inr (Or.inr ⟨{ cli with
        buf := buf
        len := cli.len + (sys gechobytes).n
        r := wrap32 (cli.r + (sys gechobytes).n) }, by omega, by omega, ?_, ⟨?_, ?_, ?_⟩, hdata,
        rfl, rfl, rfl, rfl, ?_⟩)
      · rw [if_neg hn, hcopy]
        rfl
      · exact (congrArg Nat.cast hbuf).trans hcells
      · show 0 ≤ cli.len + _
        omega
      · show cli.len + _ ≤ SOCK_BUF
        omega
      · rw [← htake]
        congr 1
        show (cli.len + _).toNat = _
        omega

include hcli hsane in
/-- **`protocol_echo_write`** has nothing to send, or nothing is taken, or what is taken leaves
    the buffer at the front. -/
theorem protocolEchoWrite_spec (hsys : WriteLawful sys) :
    (cli.len = 0 ∧ protocolEchoWrite sys gfds i = some (gfds, [], 0))
    ∨ (0 < cli.len ∧ (sys cli.len).n ≤ 0
      ∧ protocolEchoWrite sys gfds i = some (ioFailed (sys cli.len) cli.fd gfds
        (.write cli.fd (cli.buf.take cli.len.toNat) (sys cli.len))))
    ∨ ∃ cli', 0 < cli.len ∧ 0 < (sys cli.len).n
      ∧ protocolEchoWrite sys gfds i = some (gfds.set i cli',
        [(gfds, .write cli.fd (cli.buf.take cli.len.toNat) (sys cli.len))], (sys cli.len).n)
      ∧ Shifted (sys cli.len) cli cli' := by
  have hle := hsys cli.len
  have hcells := hsane.cells
  have hlen := hsane.len_le
  have hnonneg := hsane.len_nonneg
  rw [protocolEchoWrite]
  simp only [hcli, Option.bind_eq_bind, Option.bind_some]
  by_cases hempty : cli.len ≤ 0
  · exact Or.inl ⟨by omega, if_pos hempty⟩
  · rw [if_neg hempty]
    by_cases hn : (sys cli.len).n ≤ 0
    · exact Or.inr (Or.inl ⟨by omega, hn, if_pos hn⟩)
    · rw [if_neg hn]
      obtain ⟨buf, hmove, hbuf, hbytes⟩ := moveRest_spec hsane (by omega) hle
      refine Or.inr (Or.inr ⟨{ cli with
        buf := buf
        len := cli.len - (sys cli.len).n
        w := wrap32 (cli.w + (sys cli.len).n) }, by omega, by omega, ?_, ⟨?_, ?_, ?_⟩, rfl, rfl,
        rfl, ?_, hbytes⟩)
      · rw [hmove]
        rfl
      · exact (congrArg Nat.cast hbuf).trans hcells
      · show 0 ≤ cli.len - _
        omega
      · show cli.len - _ ≤ SOCK_BUF
        omega
      · rw [List.take_take, List.length_take]
        omega

end Handlers

/-- A slot that is freed keeps its other fields. -/
theorem sockCliRemove_slot (fd : Int) : ∀ (gfds : Table) (i : Nat) {cli : SockCli},
    gfds[i]? = some cli → ∃ fd', (sockCliRemove fd gfds)[i]? = some { cli with fd := fd' } := by
  intro gfds
  induction gfds with
  | nil => exact fun i cli h => absurd h.symm (Option.some_ne_none _)
  | cons c gfds ih =>
      intro i cli h
      rw [sockCliRemove]
      split
      · cases i with
        | zero =>
            obtain rfl := Option.some.inj h
            exact ⟨0, rfl⟩
        | succ i => exact ⟨cli.fd, h⟩
      · cases i with
        | zero => exact ⟨cli.fd, h⟩
        | succ i => exact ih i h

/-- The log of one call, which may have failed. -/
def OneCall (gfds : Table) (call : Syscall) (log : Log) : Prop :=
  log = [(gfds, call)] ∨ ∃ fd, log = [(gfds, call), (gfds, .close fd)]

theorem ioFailed_slot (res : IoResult) (fd : Int) {gfds : Table} {i : Nat} {cli : SockCli}
    (call : Syscall) (h : gfds[i]? = some cli) :
    (∃ fd', (ioFailed res fd gfds call).1[i]? = some { cli with fd := fd' })
      ∧ OneCall gfds call (ioFailed res fd gfds call).2.1 := by
  rw [ioFailed]
  split
  · exact ⟨⟨cli.fd, h⟩, Or.inl rfl⟩
  · exact ⟨sockCliRemove_slot fd gfds i h, Or.inr ⟨fd, rfl⟩⟩

/-! ## A client that is served -/

/-- The bytes a call has got from a descriptor. -/
def gotFrom (fd : Int) : Syscall → List Char
  | .read fd' _ _ res => if fd' = fd ∧ 0 < res.n then res.data else []
  | _ => []

/-- The bytes a call has put to a descriptor. -/
def putTo (fd : Int) : Syscall → List Char
  | .write fd' bytes res => if fd' = fd then bytes.take res.n.toNat else []
  | _ => []

@[simp] theorem gotFrom_close (fd fd' : Int) : gotFrom fd (.close fd') = [] := rfl

@[simp] theorem putTo_close (fd fd' : Int) : putTo fd (.close fd') = [] := rfl

def bytesRead (fd : Int) (log : Log) : List Char := log.flatMap fun e => gotFrom fd e.2

def bytesWritten (fd : Int) (log : Log) : List Char := log.flatMap fun e => putTo fd e.2

/-- The handlers serve the client with descriptor `fd` in slot `i`, in any order and with any
    answers, from the moment it was added; the log has their calls.  What happens to the other
    slots meanwhile does not matter. -/
inductive Served (gechobytes : Int) (i : Nat) (fd : Int) : Table → Log → Prop where
  | added {gfds : Table} {cli : SockCli} : gfds[i]? = some cli → cli.fd = fd →
      (cli.buf.length : Int) = SOCK_BUF → cli.len = 0 → cli.r = 0 → cli.w = 0 →
      Served gechobytes i fd gfds []
  | read {gfds gfds' : Table} {log log' : Log} {cli : SockCli} {sys : Int → IoResult} {n : Int} :
      Served gechobytes i fd gfds log → gfds[i]? = some cli → cli.fd = fd → ReadLawful sys →
      protocolEchoRead gechobytes sys gfds i = some (gfds', log', n) →
      Served gechobytes i fd gfds' (log ++ log')
  | write {gfds gfds' : Table} {log log' : Log} {cli : SockCli} {sys : Int → IoResult} {n : Int} :
      Served gechobytes i fd gfds log → gfds[i]? = some cli → cli.fd = fd → WriteLawful sys →
      protocolEchoWrite sys gfds i = some (gfds', log', n) →
      Served gechobytes i fd gfds' (log ++ log')
  | others {gfds gfds' : Table} {log : Log} : Served gechobytes i fd gfds log →
      gfds'[i]? = gfds[i]? → Served gechobytes i fd gfds' log

/-- Every `read` goes to cells of the buffer. -/
def ReadsInside (log : Log) : Prop :=
  ∀ gfds fd off count res, (gfds, Syscall.read fd off count res) ∈ log →
    0 ≤ off ∧ 0 < count ∧ off + count ≤ SOCK_BUF

/-- No byte is lost, and none is there twice; the totals count them. -/
structure Conserved (fd : Int) (cli : SockCli) (log : Log) : Prop where
  sane : cli.Sane
  bytes : bytesRead fd log = bytesWritten fd log ++ cli.buf.take cli.len.toNat
  r_eq : cli.r = wrap32 (bytesRead fd log).length
  w_eq : cli.w = wrap32 (bytesWritten fd log).length
  inside : ReadsInside log

theorem bytesRead_append (fd : Int) (log log' : Log) :
    bytesRead fd (log ++ log') = bytesRead fd log ++ bytesRead fd log' := List.flatMap_append

theorem bytesWritten_append (fd : Int) (log log' : Log) :
    bytesWritten fd (log ++ log') = bytesWritten fd log ++ bytesWritten fd log' :=
  List.flatMap_append

theorem ReadsInside.append {log log' : Log} (h : ReadsInside log) (h' : ReadsInside log') :
    ReadsInside (log ++ log') := by
  intro t fd off count res hmem
  rcases List.mem_append.mp hmem with hold | hnew
  · exact h t fd off count res hold
  · exact h' t fd off count res hnew

section Conserved

variable {gechobytes fd : Int} {cli : SockCli} {log log' : Log} {gfds gfds' : Table} {i : Nat}
  {sys : Int → IoResult} {n : Int}

/-- Calls that move no bytes. -/
theorem Conserved.idle (h : Conserved fd cli log) (fd' : Int) (hgot : bytesRead fd log' = [])
    (hput : bytesWritten fd log' = []) (hinside : ReadsInside log') :
    Conserved fd { cli with fd := fd' } (log ++ log') := by
  have hread : bytesRead fd (log ++ log') = bytesRead fd log := by
    rw [bytesRead_append, hgot, List.append_nil]
  have hwritten : bytesWritten fd (log ++ log') = bytesWritten fd log := by
    rw [bytesWritten_append, hput, List.append_nil]
  refine ⟨⟨h.sane.cells, h.sane.len_nonneg, h.sane.len_le⟩, ?_, ?_, ?_, h.inside.append hinside⟩
  · rw [hread, hwritten]
    exact h.bytes
  · rw [hread]
    exact h.r_eq
  · rw [hwritten]
    exact h.w_eq

/-- A call that fails, and perhaps `close`. -/
theorem Conserved.failed (h : Conserved fd cli log) (hcli : gfds[i]? = some cli) (res : IoResult)
    (call : Syscall) (hgot : gotFrom fd call = []) (hput : putTo fd call = [])
    (hinside : ReadsInside [(gfds, call)]) :
    ∃ cli', (ioFailed res cli.fd gfds call).1[i]? = some cli'
      ∧ Conserved fd cli' (log ++ (ioFailed res cli.fd gfds call).2.1) := by
  -- the slot may be free afterwards, but its buffer is the same
  obtain ⟨⟨fd', hslot⟩, hlog⟩ := ioFailed_slot res cli.fd call hcli
  refine ⟨_, hslot, ?_⟩
  rcases hlog with hlog | ⟨fd₁, hlog⟩
  · rw [hlog]
    exact h.idle fd' (by simp [bytesRead, hgot]) (by simp [bytesWritten, hput]) hinside
  · rw [hlog]
    refine h.idle fd' (by simp [bytesRead, hgot]) (by simp [bytesWritten, hput]) ?_
    have hclose : ReadsInside [(gfds, .close fd₁)] := by
      intro t fd off count res hmem
      exact absurd (Prod.mk.inj (List.mem_singleton.mp hmem)).2 Syscall.noConfusion
    exact hinside.append hclose

/-- One step of `protocol_echo_read`. -/
theorem Conserved.read (h : Conserved fd cli log) (hcli : gfds[i]? = some cli) (hfd : cli.fd = fd)
    (hone : 1 ≤ gechobytes) (hsys : ReadLawful sys)
    (hrun : protocolEchoRead gechobytes sys gfds i = some (gfds', log', n)) :
    ∃ cli', gfds'[i]? = some cli' ∧ Conserved fd cli' (log ++ log') := by
  have hinside : gechobytes ≤ SOCK_BUF - cli.len →
      ReadsInside [(gfds, .read cli.fd cli.len gechobytes (sys gechobytes))] := by
    intro hroom t fd off count res hmem
    obtain ⟨-, rfl, rfl, -⟩ := Syscall.read.inj (Prod.mk.inj (List.mem_singleton.mp hmem)).2
    exact ⟨h.sane.len_nonneg, by omega, by omega⟩
  rcases protocolEchoRead_spec hcli h.sane gechobytes hsys with
    ⟨_, heq⟩ | ⟨hroom, hn, heq⟩ | ⟨cli', hroom, hn, heq, happ⟩
  · obtain ⟨rfl, rfl, -⟩ := Option.some.inj (heq.symm.trans hrun)
    exact ⟨cli, hcli, by rw [List.append_nil]; exact h⟩
  · have hres := Option.some.inj (heq.symm.trans hrun)
    have hfail := h.failed hcli (sys gechobytes) (.read cli.fd cli.len gechobytes (sys gechobytes))
      (if_neg fun hpos => by omega) rfl (hinside hroom)
    rw [hres] at hfail
    exact hfail
  · obtain ⟨rfl, rfl, -⟩ := Option.some.inj (heq.symm.trans hrun)
    have hlt : i < gfds.length := (List.getElem?_eq_some_iff.mp hcli).1
    have hgot : bytesRead fd [(gfds, .read cli.fd cli.len gechobytes (sys gechobytes))]
        = (sys gechobytes).data := by
      rw [bytesRead, List.flatMap_singleton]
      exact if_pos ⟨hfd, hn⟩
    have hput : bytesWritten fd [(gfds, .read cli.fd cli.len gechobytes (sys gechobytes))] = [] :=
      rfl
    refine ⟨cli', List.getElem?_set_self hlt, happ.sane, ?_, ?_, ?_,
      h.inside.append (hinside hroom)⟩
    · rw [bytesRead_append, bytesWritten_append, hgot, hput, happ.bytes, h.bytes, List.append_nil,
        List.append_assoc]
    · rw [bytesRead_append, hgot, List.length_append, Nat.cast_add, happ.count, happ.r, h.r_eq,
        wrap32_add]
    · rw [bytesWritten_append, hput, List.append_nil, happ.w]
      exact h.w_eq

/-- One step of `protocol_echo_write`. -/
theorem Conserved.write (h : Conserved fd cli log) (hcli : gfds[i]? = some cli) (hfd : cli.fd = fd)
    (hsys : WriteLawful sys) (hrun : protocolEchoWrite sys gfds i = some (gfds', log', n)) :
    ∃ cli', gfds'[i]? = some cli' ∧ Conserved fd cli' (log ++ log') := by
  have hinside :
      ReadsInside [(gfds, .write cli.fd (cli.buf.take cli.len.toNat) (sys cli.len))] := by
    intro t fd off count res hmem
    exact absurd (Prod.mk.inj (List.mem_singleton.mp hmem)).2 Syscall.noConfusion
  rcases protocolEchoWrite_spec hcli h.sane hsys with
    ⟨_, heq⟩ | ⟨_, hn, heq⟩ | ⟨cli', _, _, heq, hshift⟩
  · obtain ⟨rfl, rfl, -⟩ := Option.some.inj (heq.symm.trans hrun)
    exact ⟨cli, hcli, by rw [List.append_nil]; exact h⟩
  · have hres := Option.some.inj (heq.symm.trans hrun)
    have hnone : putTo fd (.write cli.fd (cli.buf.take cli.len.toNat) (sys cli.len)) = [] := by
      rw [putTo, Int.toNat_of_nonpos hn, List.take_zero, ite_self]
    have hfail := h.failed hcli (sys cli.len) _ rfl hnone hinside
    rw [hres] at hfail
    exact hfail
  · obtain ⟨rfl, rfl, -⟩ := Option.some.inj (heq.symm.trans hrun)
    have hlt : i < gfds.length := (List.getElem?_eq_some_iff.mp hcli).1
    have hput : bytesWritten fd [(gfds, .write cli.fd (cli.buf.take cli.len.toNat) (sys cli.len))]
        = (cli.buf.take cli.len.toNat).take (sys cli.len).n.toNat := by
      rw [bytesWritten, List.flatMap_singleton]
      exact if_pos hfd
    have hgot : bytesRead fd [(gfds, .write cli.fd (cli.buf.take cli.len.toNat) (sys cli.len))]
        = [] := rfl
    refine ⟨cli', List.getElem?_set_self hlt, hshift.sane, ?_, ?_, ?_, h.inside.append hinside⟩
    · rw [bytesRead_append, bytesWritten_append, hgot, hput, List.append_nil, List.append_assoc,
        ← hshift.bytes]
      exact h.bytes
    · rw [bytesRead_append, hgot, List.append_nil, hshift.r]
      exact h.r_eq
    · rw [bytesWritten_append, hput, List.length_append, Nat.cast_add, hshift.count, hshift.w,
        h.w_eq, wrap32_add]

end Conserved

/-- **Every run.** -/
theorem Served.conserved {gechobytes fd : Int} {i : Nat} {gfds : Table} {log : Log}
    (hone : 1 ≤ gechobytes) (h : Served gechobytes i fd gfds log) :
    ∃ cli, gfds[i]? = some cli ∧ Conserved fd cli log := by
  induction h with
  | @added gfds cli hcli _ hbuf hlen hr hw =>
      have hzero : wrap32 0 = 0 := wrap32_eq (Int.le_refl 0) (by decide)
      refine ⟨cli, hcli, ⟨hbuf, Int.le_of_eq hlen.symm, ?_⟩, ?_, hr.trans hzero.symm,
        hw.trans hzero.symm, ?_⟩
      · rw [hlen]
        decide
      · rw [hlen]
        rfl
      · exact fun t fd off count res hmem => absurd hmem List.not_mem_nil
  | read _ hcli hfd hsys hrun ih =>
      obtain ⟨cli, hcli', h⟩ := ih
      obtain rfl := Option.some.inj (hcli'.symm.trans hcli)
      exact h.read hcli hfd hone hsys hrun
  | write _ hcli hfd hsys hrun ih =>
      obtain ⟨cli, hcli', h⟩ := ih
      obtain rfl := Option.some.inj (hcli'.symm.trans hcli)
      exact h.write hcli hfd hsys hrun
  | others _ hsame ih =>
      rw [hsame]
      exact ih

/-- The buffer of a client: its length, what it holds, the totals and what was echoed. -/
structure EchoLaw (fd : Int) (cli : SockCli) (log : Log) : Prop where
  len : 0 ≤ cli.len ∧ cli.len ≤ SOCK_BUF
  inside : ReadsInside log
  buffered : bytesRead fd log = bytesWritten fd log ++ cli.buf.take cli.len.toNat
  totals : ((bytesRead fd log).length : Int) ≤ intMax → cli.r - cli.w = cli.len
  echoed : bytesWritten fd log <+: bytesRead fd log

theorem Conserved.law {fd : Int} {cli : SockCli} {log : Log} (h : Conserved fd cli log) :
    EchoLaw fd cli log := by
  refine ⟨⟨h.sane.len_nonneg, h.sane.len_le⟩, h.inside, h.bytes, ?_, ⟨_, h.bytes.symm⟩⟩
  intro hfits
  -- what was written is no more than what was read, so neither total has wrapped
  have hcells := h.sane.cells
  have hlen := h.sane.len_le
  have hnonneg := h.sane.len_nonneg
  have hcount := congrArg List.length h.bytes
  rw [List.length_append, List.length_take] at hcount
  rw [h.r_eq, h.w_eq, wrap32_eq (by omega) hfits, wrap32_eq (by omega) (by omega)]
  omega

/-- **The echo.**  However the two handlers are called and whatever `read` and `write` answer,
    the law of the buffer holds, and the next handler does not fault. -/
theorem echo_law (gechobytes fd : Int) (i : Nat) (gfds : Table) (log : Log)
    (hone : 1 ≤ gechobytes) (h : Served gechobytes i fd gfds log) :
    ∃ cli, gfds[i]? = some cli ∧ EchoLaw fd cli log
      ∧ (∀ sys, ReadLawful sys → (protocolEchoRead gechobytes sys gfds i).isSome)
      ∧ ∀ sys, WriteLawful sys → (protocolEchoWrite sys gfds i).isSome := by
  obtain ⟨cli, hcli, hcons⟩ := h.conserved hone
  refine ⟨cli, hcli, hcons.law, fun sys hsys => ?_, fun sys hsys => ?_⟩
  · rcases protocolEchoRead_spec hcli hcons.sane gechobytes hsys with
      ⟨_, heq⟩ | ⟨_, _, heq⟩ | ⟨_, _, _, heq, _⟩
    · rw [heq]; rfl
    · rw [heq]; rfl
    · rw [heq]; rfl
  · rcases protocolEchoWrite_spec hcli hcons.sane hsys with
      ⟨_, heq⟩ | ⟨_, _, heq⟩ | ⟨_, _, _, heq, _⟩
    · rw [heq]; rfl
    · rw [heq]; rfl
    · rw [heq]; rfl

/-- A call that gets these bytes, if there is room for them. -/
def gets (data : List Char) (count : Int) : IoResult :=
  if (data.length : Int) ≤ count then ⟨data.length, .other, data⟩ else ⟨min count 0, .other, []⟩

/-- A call that gets or takes nothing yet. -/
def waits (count : Int) : IoResult := ⟨min count (-1), .EAGAIN, []⟩

theorem gets_lawful (data : List Char) : ReadLawful (gets data) := by
  intro count
  rw [gets]
  split
  · next h => exact ⟨h, fun _ => rfl⟩
  · exact ⟨Int.min_le_left .., fun h => absurd h (Int.not_lt.mpr (Int.min_le_right ..))⟩

theorem waits_lawful : WriteLawful waits := fun _ => Int.min_le_left ..

/-- Two bytes arrive in an empty buffer. -/
theorem reads_two : ∃ buf, protocolEchoRead 10 (gets ['a', 'b']) [newClient 5, newClient 0] 0
    = some ([⟨5, buf, 2, 2, 0⟩, newClient 0],
      [([newClient 5, newClient 0], .read 5 0 10 ⟨2, .other, ['a', 'b']⟩)], 2) := by
  have hres : gets ['a', 'b'] 10 = ⟨2, .other, ['a', 'b']⟩ := by decide
  have hr : wrap32 (0 + 2) = 2 := by decide
  have hspec := @protocolEchoRead_spec [newClient 5, newClient 0] 0 (newClient 5)
    (gets ['a', 'b']) rfl (newClient_sane 5) 10 (gets_lawful _)
  rw [hres] at hspec
  rcases hspec with ⟨hfull, _⟩ | ⟨_, hn, _⟩ | ⟨⟨fd, buf, len, r, w⟩, _, _, heq, happ⟩
  · exact absurd hfull (by decide : ¬ SOCK_BUF - 0 < 10)
  · exact absurd hn (by decide : ¬ (2 : Int) ≤ 0)
  · obtain rfl : fd = 5 := happ.fd
    obtain rfl : len = 2 := happ.len
    obtain rfl : r = 2 := happ.r.trans hr
    obtain rfl : w = 0 := happ.w
    exact ⟨buf, heq⟩

/-- The bytes of `reads_two` are in the buffer. -/
theorem echo_law_two : ∃ (gfds : Table) (log : Log), bytesRead 5 log = ['a', 'b']
    ∧ ∃ cli, gfds[0]? = some cli ∧ EchoLaw 5 cli log := by
  obtain ⟨buf, hread⟩ := reads_two
  have hadded : Served 10 0 5 [newClient 5, newClient 0] [] :=
    .added rfl rfl (newClient_sane 5).cells rfl rfl rfl
  have hserved := hadded.read rfl rfl (gets_lawful _) hread
  obtain ⟨cli, hcli, hlaw, _⟩ := echo_law 10 5 0 _ _ (by decide) hserved
  exact ⟨_, _, rfl, cli, hcli, hlaw⟩

end Echo
