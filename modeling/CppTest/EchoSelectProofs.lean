import CppTest.EchoProofs

/-! # The passes of the echo server (`src/fork/test_fork.cpp`)

    `select_on_cli_rw` calls the two handlers for the clients that are ready.  It takes the
    descriptor of a slot once, and asks for both bits with it; so the second handler is called
    even where the first one has closed the client and freed the slot.

    * `Reached` are the slots a server may have, between the passes.  No two clients share a
      descriptor there (`Reached.sane`).
    * `selectSlot_turn` and `selectOnCliRw_pass` say what is written in one turn and in a pass.
    * `writes_open_iff`: when all that is written goes to open clients. -/

namespace Echo

open Machine Print

/-! ## The passes of the server -/

/-- What the system answers in one pass: the descriptor sets of `select`, and for each slot its
    `read` and its `write`. -/
structure Io where
  readable : Int → Bool
  writable : Int → Bool
  read : Nat → Int → IoResult
  write : Nat → Int → IoResult

structure Io.Lawful (io : Io) : Prop where
  read : ∀ i, ReadLawful (io.read i)
  write : ∀ i, WriteLawful (io.write i)

/-- `if(FD_ISSET(fd, rfds)) protocol_echo_read(ctx, &gfds[i])`. -/
def readIfSet (gechobytes : Int) (io : Io) (fd : Int) (gfds : Table) (i : Nat) :
    Option (Table × Log × Int) :=
  if io.readable fd then protocolEchoRead gechobytes (io.read i) gfds i else some (gfds, [], 0)

/-- `if(FD_ISSET(fd, wfds)) protocol_echo_write(ctx, &gfds[i])`. -/
def writeIfSet (io : Io) (fd : Int) (gfds : Table) (i : Nat) : Option (Table × Log × Int) :=
  if io.writable fd then protocolEchoWrite (io.write i) gfds i else some (gfds, [], 0)

/-- One turn of `select_on_cli_rw`: both bits are those of the descriptor that was in the slot
    at first. -/
def selectSlot (gechobytes : Int) (io : Io) (gfds : Table) (i : Nat) : Option (Table × Log) := do
  let cli ← gfds[i]?
  if 0 < cli.fd then
    let (gfds, log, _) ← readIfSet gechobytes io cli.fd gfds i
    let (gfds, log', _) ← writeIfSet io cli.fd gfds i
    some (gfds, log ++ log')
  else some (gfds, [])

/-- A turn adds its calls to the log. -/
def selectTurn (gechobytes : Int) (io : Io) (s : Table × Log) (i : Nat) : Option (Table × Log) := do
  let (gfds, log) ← selectSlot gechobytes io s.1 i
  some (gfds, s.2 ++ log)

/-- `select_on_cli_rw`, with the log of its calls. -/
def selectOnCliRw (gechobytes : Int) (io : Io) (gfds : Table) : Option (Table × Log) :=
  (List.range gfds.length).foldlM (selectTurn gechobytes io) (gfds, [])

/-- `sock_cli_add`, in the first free slot. -/
def sockCliAdd (new : SockCli) : Table → Table × Int
  | [] => ([], -1)
  | cli :: gfds =>
      if cli.fd = 0 then (new :: gfds, 0)
      else
        let (gfds, r) := sockCliAdd new gfds
        (cli :: gfds, r)

/-- The slots as they may be: all free at first, then clients are added and passes made.
    `accept` returns a descriptor that is not in use. -/
inductive Reached (gechobytes : Int) (slots : Nat) : Table → Prop where
  | start : Reached gechobytes slots (List.replicate slots (newClient 0))
  | connect {gfds : Table} {confd : Int} : Reached gechobytes slots gfds → 0 ≤ confd →
      (∀ cli ∈ gfds, 0 < cli.fd → cli.fd ≠ confd) →
      Reached gechobytes slots (sockCliAdd (newClient confd) gfds).1
  | pass {gfds gfds' : Table} {io : Io} {log : Log} : Reached gechobytes slots gfds →
      io.Lawful → selectOnCliRw gechobytes io gfds = some (gfds', log) →
      Reached gechobytes slots gfds'

/-- The descriptor is that of a client in the slots. -/
def Open (gfds : Table) (fd : Int) : Prop := 0 < fd ∧ ∃ cli ∈ gfds, cli.fd = fd

/-- Whatever was written went to an open client. -/
def WritesOpen (log : Log) : Prop :=
  ∀ gfds fd bytes res, (gfds, Syscall.write fd bytes res) ∈ log → Open gfds fd

/-- `protocol_echo_read` closes the client. -/
def ReadCloses (gechobytes : Int) (sys : Int → IoResult) (cli : SockCli) : Prop :=
  gechobytes ≤ SOCK_BUF - cli.len ∧ (sys gechobytes).n ≤ 0 ∧ (sys gechobytes).again = false

/-- The client is closed in the turn of its slot with bytes left in its buffer, and it was
    writable. -/
structure Slips (gechobytes : Int) (io : Io) (i : Nat) (cli : SockCli) : Prop where
  client : 0 < cli.fd
  readable : io.readable cli.fd = true
  writable : io.writable cli.fd = true
  closes : ReadCloses gechobytes (io.read i) cli
  left : 0 < cli.len

/-! ## The slots between the calls -/

/-- No two clients share a descriptor. -/
structure Sane (gfds : Table) : Prop where
  slot : ∀ (i : Nat) (cli : SockCli), gfds[i]? = some cli → cli.Sane ∧ 0 ≤ cli.fd
  unique : ∀ (i j : Nat) (cli cli' : SockCli), gfds[i]? = some cli → gfds[j]? = some cli' →
    0 < cli.fd → cli.fd = cli'.fd → i = j

/-- A slot is changed; its descriptor is not that of another client. -/
theorem Sane.set {gfds : Table} (h : Sane gfds) {i : Nat} {cli : SockCli} (hcli : cli.Sane)
    (hfd : 0 ≤ cli.fd)
    (hfresh : ∀ (j : Nat) (c : SockCli), gfds[j]? = some c → i ≠ j → 0 < c.fd → c.fd ≠ cli.fd) :
    Sane (gfds.set i cli) := by
  have hslot : ∀ (j : Nat) (c : SockCli), (gfds.set i cli)[j]? = some c →
      (i = j ∧ c = cli) ∨ i ≠ j ∧ gfds[j]? = some c := by
    intro j c hc
    by_cases hij : i = j
    · subst hij
      obtain ⟨hlt, hget⟩ := List.getElem?_eq_some_iff.mp hc
      rw [List.getElem_set_self] at hget
      exact Or.inl ⟨rfl, hget.symm⟩
    · rw [List.getElem?_set_ne hij] at hc
      exact Or.inr ⟨hij, hc⟩
  constructor
  · intro j c hc
    rcases hslot j c hc with ⟨_, rfl⟩ | ⟨_, hc⟩
    · exact ⟨hcli, hfd⟩
    · exact h.slot j c hc
  · intro j k c c' hc hc' hpos heq
    rcases hslot j c hc with ⟨rfl, rfl⟩ | ⟨hij, hold⟩
    · rcases hslot k c' hc' with ⟨rfl, rfl⟩ | ⟨hik, hold'⟩
      · rfl
      · exact absurd heq.symm (hfresh k c' hold' hik (heq ▸ hpos))
    · rcases hslot k c' hc' with ⟨rfl, rfl⟩ | ⟨hik, hold'⟩
      · exact absurd heq (hfresh j c hold hij hpos)
      · exact h.unique j k c c' hold hold' hpos heq

/-- A slot keeps its descriptor, or it is freed. -/
theorem Sane.keep {gfds : Table} (h : Sane gfds) {i : Nat} {cli cli' : SockCli}
    (hcli : gfds[i]? = some cli) (hsane : cli'.Sane) (hfd : cli'.fd = cli.fd ∨ cli'.fd = 0) :
    Sane (gfds.set i cli') := by
  refine h.set hsane ?_ fun j c hc hij hpos heq => ?_
  · have := (h.slot i cli hcli).2
    omega
  · rcases hfd with hfd | hfd
    · exact hij (h.unique i j cli c hcli hc (by omega) (by omega))
    · omega

theorem set_self {gfds : Table} {i : Nat} {cli : SockCli} (hcli : gfds[i]? = some cli) :
    gfds.set i cli = gfds := by
  obtain ⟨hlt, rfl⟩ := List.getElem?_eq_some_iff.mp hcli
  exact List.set_getElem_self hlt

theorem sockCliRemove_free {fd : Int} (hfd : fd ≤ 0) : ∀ gfds : Table,
    sockCliRemove fd gfds = gfds := by
  intro gfds
  induction gfds with
  | nil => rfl
  | cons c gfds ih => rw [sockCliRemove, if_neg (by omega), ih]

/-- The slot of a client is the one that is freed. -/
theorem sockCliRemove_set : ∀ (gfds : Table) (i : Nat) {cli : SockCli}, gfds[i]? = some cli →
    0 < cli.fd → (∀ (j : Nat) (c : SockCli), gfds[j]? = some c → cli.fd = c.fd → i = j) →
    sockCliRemove cli.fd gfds = gfds.set i { cli with fd := 0 } := by
  intro gfds
  induction gfds with
  | nil => exact fun i cli h => absurd h.symm (Option.some_ne_none _)
  | cons c gfds ih =>
      intro i cli hcli hfd hunique
      rw [sockCliRemove]
      cases i with
      | zero =>
          obtain rfl := Option.some.inj hcli
          rw [if_pos ⟨hfd, rfl⟩]
          rfl
      | succ i =>
          have hother : ¬ (0 < c.fd ∧ c.fd = cli.fd) := fun hmatch =>
            absurd (hunique 0 c rfl hmatch.2.symm) (Nat.succ_ne_zero i)
          rw [if_neg hother, ih i hcli hfd]
          · rfl
          · intro j c' hc' heq
            exact Nat.succ.inj (hunique (j + 1) c' hc' heq)

/-- A failed call changes nothing, or frees the slot. -/
theorem ioFailed_set {gfds : Table} (h : Sane gfds) {i : Nat} {cli : SockCli}
    (hcli : gfds[i]? = some cli) (res : IoResult) (call : Syscall) :
    ∃ log, ioFailed res cli.fd gfds call
        = (gfds.set i { cli with fd := if res.again then cli.fd else 0 }, log, 0)
      ∧ OneCall gfds call log := by
  rw [ioFailed]
  cases res.again with
  | true =>
      refine ⟨[(gfds, call)], ?_, Or.inl rfl⟩
      show (gfds, _) = (gfds.set i cli, _)
      rw [set_self hcli]
  | false =>
      refine ⟨[(gfds, call), (gfds, .close cli.fd)], congrArg (·, _) ?_, Or.inr ⟨_, rfl⟩⟩
      show sockCliRemove cli.fd gfds = gfds.set i { cli with fd := 0 }
      by_cases hfd : 0 < cli.fd
      · exact sockCliRemove_set gfds i hcli hfd fun j c hc heq =>
          h.unique i j cli c hcli hc hfd heq
      · -- a slot that is free stays so
        have hzero : cli.fd = 0 := by
          have := (h.slot i cli hcli).2
          omega
        have hfree : { cli with fd := 0 } = cli := by rw [← hzero]
        rw [hfree, set_self hcli]
        exact sockCliRemove_free (by omega) gfds

/-! ## A turn, and a pass -/

section Turn

variable {gfds : Table} {i : Nat} {cli : SockCli} {sys : Int → IoResult}
  (hgfds : Sane gfds) (hcli : gfds[i]? = some cli)

theorem OneCall.writesOpen {call : Syscall} {log : Log} (h : OneCall gfds call log) :
    WritesOpen log ↔ ∀ fd bytes res, call = .write fd bytes res → Open gfds fd := by
  constructor
  · rintro hopen fd bytes res rfl
    refine hopen gfds fd bytes res ?_
    rcases h with rfl | ⟨_, rfl⟩
    · exact List.mem_singleton_self _
    · exact List.mem_cons_self
  · intro hopen t fd bytes res hmem
    have hcall : (t, Syscall.write fd bytes res) = (gfds, call) := by
      rcases h with rfl | ⟨_, rfl⟩
      · exact List.mem_singleton.mp hmem
      · rcases List.mem_cons.mp hmem with hcall | hclose
        · exact hcall
        · exact absurd (Prod.mk.inj (List.mem_singleton.mp hclose)).2 Syscall.noConfusion
    obtain ⟨rfl, heq⟩ := Prod.mk.inj hcall
    exact hopen fd bytes res heq.symm

theorem writesOpen_nil : WritesOpen [] := fun _ _ _ _ hmem => absurd hmem List.not_mem_nil

theorem writesOpen_append {log log' : Log} :
    WritesOpen (log ++ log') ↔ WritesOpen log ∧ WritesOpen log' := by
  constructor
  · intro h
    exact ⟨fun t fd bytes res hmem => h t fd bytes res (List.mem_append_left _ hmem),
      fun t fd bytes res hmem => h t fd bytes res (List.mem_append_right _ hmem)⟩
  · rintro ⟨h, h'⟩ t fd bytes res hmem
    rcases List.mem_append.mp hmem with hold | hnew
    · exact h t fd bytes res hold
    · exact h' t fd bytes res hnew

include hgfds hcli in
/-- `protocol_echo_read` in a turn: it writes nothing, and frees the slot if it closes the
    client. -/
theorem read_turn (gechobytes : Int) (hsys : ReadLawful sys) :
    ∃ cli' log n, protocolEchoRead gechobytes sys gfds i = some (gfds.set i cli', log, n)
      ∧ cli'.Sane ∧ WritesOpen log
      ∧ (ReadCloses gechobytes sys cli → cli' = { cli with fd := 0 })
      ∧ (¬ ReadCloses gechobytes sys cli → cli'.fd = cli.fd) := by
  have hsane := (hgfds.slot i cli hcli).1
  rcases protocolEchoRead_spec hcli hsane gechobytes hsys with
    ⟨hfull, heq⟩ | ⟨hroom, hn, heq⟩ | ⟨cli', hroom, hn, heq, happ⟩
  · refine ⟨cli, [], 0, ?_, hsane, writesOpen_nil, ?_, fun _ => rfl⟩
    · rw [set_self hcli]
      exact heq
    · intro hcloses
      have := hcloses.1
      omega
  · obtain ⟨log, hfail, hcall⟩ := ioFailed_set hgfds hcli (sys gechobytes)
      (.read cli.fd cli.len gechobytes (sys gechobytes))
    rw [hfail] at heq
    refine ⟨_, log, 0, heq, ⟨hsane.cells, hsane.len_nonneg, hsane.len_le⟩, ?_, ?_, ?_⟩
    · exact hcall.writesOpen.mpr fun _ _ _ h => absurd h Syscall.noConfusion
    · intro hcloses
      rw [hcloses.2.2]
      rfl
    · intro hopen
      have hagain : (sys gechobytes).again = true := by
        by_contra hno
        exact hopen ⟨hroom, hn, Bool.eq_false_iff.mpr hno⟩
      rw [hagain]
      rfl
  · refine ⟨cli', _, _, heq, happ.sane, ?_, ?_, fun _ => happ.fd⟩
    · exact OneCall.writesOpen (Or.inl rfl) |>.mpr fun _ _ _ h => absurd h Syscall.noConfusion
    · intro hcloses
      have := hcloses.2.1
      omega

include hgfds hcli in
/-- `protocol_echo_write` in a turn: what is in the buffer goes to the descriptor in the slot. -/
theorem write_turn (hsys : WriteLawful sys) :
    ∃ cli' log n, protocolEchoWrite sys gfds i = some (gfds.set i cli', log, n)
      ∧ cli'.Sane ∧ (cli'.fd = cli.fd ∨ cli'.fd = 0)
      ∧ (WritesOpen log ↔ (0 < cli.len → 0 < cli.fd)) := by
  have hsane := (hgfds.slot i cli hcli).1
  have hopen : Open gfds cli.fd ↔ 0 < cli.fd :=
    ⟨fun h => h.1, fun h => ⟨h, cli, List.mem_of_getElem? hcli, rfl⟩⟩
  have hcall : ∀ {log : Log} {bytes : List Char} {res : IoResult}, 0 < cli.len →
      OneCall gfds (.write cli.fd bytes res) log →
      (WritesOpen log ↔ (0 < cli.len → 0 < cli.fd)) := by
    intro log bytes res hpos hone
    rw [hone.writesOpen]
    constructor
    · exact fun h _ => hopen.mp (h _ _ _ rfl)
    · intro h fd bytes' res' heq
      obtain ⟨rfl, -, -⟩ := Syscall.write.inj heq
      exact hopen.mpr (h hpos)
  rcases protocolEchoWrite_spec hcli hsane hsys with
    ⟨hempty, heq⟩ | ⟨hpos, hn, heq⟩ | ⟨cli', hpos, hn, heq, hshift⟩
  · refine ⟨cli, [], 0, ?_, hsane, Or.inl rfl, ?_⟩
    · rw [set_self hcli]
      exact heq
    · exact ⟨fun _ hpos => absurd hempty (Int.ne_of_gt hpos), fun _ => writesOpen_nil⟩
  · obtain ⟨log, hfail, hone⟩ := ioFailed_set hgfds hcli (sys cli.len)
      (.write cli.fd (cli.buf.take cli.len.toNat) (sys cli.len))
    rw [hfail] at heq
    refine ⟨_, log, 0, heq, ⟨hsane.cells, hsane.len_nonneg, hsane.len_le⟩, ?_, hcall hpos hone⟩
    show (if _ then cli.fd else 0) = cli.fd ∨ (if _ then cli.fd else 0) = (0 : Int)
    split
    · exact Or.inl rfl
    · exact Or.inr rfl
  · exact ⟨cli', _, _, heq, hshift.sane, Or.inl hshift.fd, hcall hpos (Or.inl rfl)⟩

variable {io : Io} (hio : io.Lawful)

include hgfds hcli hio in
theorem readIfSet_turn (gechobytes : Int) :
    ∃ cli' log n, readIfSet gechobytes io cli.fd gfds i = some (gfds.set i cli', log, n)
      ∧ cli'.Sane ∧ WritesOpen log
      ∧ (io.readable cli.fd = true ∧ ReadCloses gechobytes (io.read i) cli →
        cli' = { cli with fd := 0 })
      ∧ (¬ (io.readable cli.fd = true ∧ ReadCloses gechobytes (io.read i) cli) →
        cli'.fd = cli.fd) := by
  rw [readIfSet]
  by_cases hset : io.readable cli.fd = true
  · obtain ⟨cli', log, n, hread, hsane, hopen, hcloses, hkeeps⟩ :=
      read_turn hgfds hcli gechobytes (hio.read i)
    exact ⟨cli', log, n, (if_pos hset).trans hread, hsane, hopen, fun h => hcloses h.2,
      fun h => hkeeps fun hc => h ⟨hset, hc⟩⟩
  · refine ⟨cli, [], 0, ?_, (hgfds.slot i cli hcli).1, writesOpen_nil, fun h => absurd h.1 hset,
      fun _ => rfl⟩
    rw [if_neg hset, set_self hcli]

include hgfds hcli hio in
theorem writeIfSet_turn (fd : Int) :
    ∃ cli' log n, writeIfSet io fd gfds i = some (gfds.set i cli', log, n)
      ∧ cli'.Sane ∧ (cli'.fd = cli.fd ∨ cli'.fd = 0)
      ∧ (WritesOpen log ↔ (io.writable fd = true → 0 < cli.len → 0 < cli.fd)) := by
  rw [writeIfSet]
  by_cases hset : io.writable fd = true
  · obtain ⟨cli', log, n, hwrite, hsane, hfd, hopen⟩ := write_turn hgfds hcli (hio.write i)
    exact ⟨cli', log, n, (if_pos hset).trans hwrite, hsane, hfd,
      hopen.trans ⟨fun h _ => h, fun h => h hset⟩⟩
  · refine ⟨cli, [], 0, ?_, (hgfds.slot i cli hcli).1, Or.inl rfl, fun _ h => absurd h hset,
      fun _ => writesOpen_nil⟩
    rw [if_neg hset, set_self hcli]

include hgfds hcli hio in
/-- **A turn** writes to an open client unless the client slips. -/
theorem selectSlot_turn (gechobytes : Int) :
    ∃ cli' log, selectSlot gechobytes io gfds i = some (gfds.set i cli', log)
    ∧ cli'.Sane ∧ (cli'.fd = cli.fd ∨ cli'.fd = 0)
    ∧ (WritesOpen log ↔ ¬ Slips gechobytes io i cli) := by
  have hlt : i < gfds.length := (List.getElem?_eq_some_iff.mp hcli).1
  rw [selectSlot]
  simp only [hcli, Option.bind_eq_bind, Option.bind_some]
  by_cases hfd : 0 < cli.fd
  · rw [if_pos hfd]
    obtain ⟨cli₁, log₁, n₁, hread, hsane₁, hopen₁, hcloses, hkeeps⟩ :=
      readIfSet_turn hgfds hcli hio gechobytes
    have hfd₁ : cli₁.fd = cli.fd ∨ cli₁.fd = 0 := by
      by_cases hc : io.readable cli.fd = true ∧ ReadCloses gechobytes (io.read i) cli
      · rw [hcloses hc]
        exact Or.inr rfl
      · exact Or.inl (hkeeps hc)
    -- the second handler finds the slot as the first one left it
    obtain ⟨cli₂, log₂, n₂, hwrite, hsane₂, hfd₂, hopen₂⟩ := writeIfSet_turn
      (hgfds.keep hcli hsane₁ hfd₁) (List.getElem?_set_self hlt) hio cli.fd
    rw [List.set_set] at hwrite
    refine ⟨cli₂, log₁ ++ log₂, ?_, hsane₂, by omega, ?_⟩
    · rw [hread, Option.bind_some, hwrite]
      rfl
    · rw [writesOpen_append, hopen₂]
      by_cases hc : io.readable cli.fd = true ∧ ReadCloses gechobytes (io.read i) cli
      · obtain rfl := hcloses hc
        constructor
        · rintro ⟨_, hall⟩ hslips
          exact absurd (hall hslips.writable hslips.left) (Int.lt_irrefl 0)
        · intro hno
          exact ⟨hopen₁, fun hw hleft => absurd ⟨hfd, hc.1, hw, hc.2, hleft⟩ hno⟩
      · refine ⟨fun _ hslips => hc ⟨hslips.readable, hslips.closes⟩, fun _ => ⟨hopen₁, ?_⟩⟩
        intro _ _
        rw [hkeeps hc]
        exact hfd
  · rw [if_neg hfd]
    refine ⟨cli, [], by rw [set_self hcli], (hgfds.slot i cli hcli).1, Or.inl rfl, ?_⟩
    exact ⟨fun _ hslips => hfd hslips.client, fun _ => writesOpen_nil⟩

end Turn

/-- The first `k` turns of a pass are made: each of them has changed its own slot only. -/
structure AfterTurns (gechobytes : Int) (io : Io) (gfds : Table) (k : Nat) (s : Table × Log) :
    Prop where
  sane : Sane s.1
  rest : ∀ j, k ≤ j → s.1[j]? = gfds[j]?
  opens : WritesOpen s.2 ↔ ∀ j < k, ∀ cli, gfds[j]? = some cli → ¬ Slips gechobytes io j cli

theorem AfterTurns.next {gechobytes : Int} {io : Io} {gfds : Table} {s : Table × Log} {k : Nat}
    (hio : io.Lawful) (h : AfterTurns gechobytes io gfds k s) (hk : k < gfds.length) :
    ∃ s', selectTurn gechobytes io s k = some s' ∧ AfterTurns gechobytes io gfds (k + 1) s' := by
  obtain ⟨t, log⟩ := s
  obtain ⟨cli, hcli⟩ : ∃ cli, gfds[k]? = some cli := ⟨_, List.getElem?_eq_getElem hk⟩
  have htk : t[k]? = some cli := (h.rest k (Nat.le_refl k)).trans hcli
  obtain ⟨cli', log', hturn, hcli', hfd, hopen⟩ := selectSlot_turn h.sane htk hio gechobytes
  refine ⟨(t.set k cli', log ++ log'), ?_, h.sane.keep htk hcli' hfd, ?_, ?_⟩
  · rw [selectTurn, hturn]
    rfl
  · intro j hj
    show (t.set k cli')[j]? = _
    rw [List.getElem?_set_ne (by omega)]
    exact h.rest j (by omega)
  · show WritesOpen (log ++ log') ↔ _
    rw [writesOpen_append, h.opens, hopen]
    constructor
    · rintro ⟨hbefore, hnow⟩ j hj c hc
      rcases Nat.lt_succ_iff_lt_or_eq.mp hj with hlt | rfl
      · exact hbefore j hlt c hc
      · obtain rfl := Option.some.inj (hcli.symm.trans hc)
        exact hnow
    · intro hall
      exact ⟨fun j hj => hall j (Nat.lt_succ_of_lt hj), hall k (Nat.lt_succ_self k) cli hcli⟩

/-- **A pass** makes the turns of all slots. -/
theorem selectOnCliRw_pass {gfds : Table} {io : Io} (hgfds : Sane gfds) (hio : io.Lawful)
    (gechobytes : Int) : ∃ gfds' log, selectOnCliRw gechobytes io gfds = some (gfds', log)
      ∧ Sane gfds'
      ∧ (WritesOpen log ↔ ∀ i cli, gfds[i]? = some cli → ¬ Slips gechobytes io i cli) := by
  have hzero : AfterTurns gechobytes io gfds 0 (gfds, []) :=
    ⟨hgfds, fun _ _ => rfl, fun _ j hj => absurd hj (Nat.not_lt_zero j), fun _ => writesOpen_nil⟩
  obtain ⟨⟨gfds', log⟩, hrun, hpass⟩ := foldlM_range_keeps hzero gfds.length
    fun k s hk h => h.next hio hk
  refine ⟨gfds', log, hrun, hpass.sane, hpass.opens.trans ⟨fun h i cli hcli => ?_, fun h j _ => h j⟩⟩
  exact h i (List.getElem?_eq_some_iff.mp hcli).1 cli hcli

/-- A client is added to a free slot, if there is one. -/
theorem sockCliAdd_set (new : SockCli) : ∀ gfds : Table, (sockCliAdd new gfds).1 = gfds
    ∨ ∃ i, (sockCliAdd new gfds).1 = gfds.set i new := by
  intro gfds
  induction gfds with
  | nil => exact Or.inl rfl
  | cons cli gfds ih =>
      rw [sockCliAdd]
      split
      · exact Or.inr ⟨0, rfl⟩
      · rcases ih with ih | ⟨i, ih⟩
        · exact Or.inl (congrArg (cli :: ·) ih)
        · exact Or.inr ⟨i + 1, congrArg (cli :: ·) ih⟩

/-- **The slots that are reached.** -/
theorem Reached.sane {gechobytes : Int} {slots : Nat} {gfds : Table}
    (h : Reached gechobytes slots gfds) : Sane gfds := by
  induction h with
  | start =>
      have hfree : ∀ (i : Nat) (cli : SockCli),
          (List.replicate slots (newClient 0))[i]? = some cli → cli = newClient 0 := by
        intro i cli hcli
        exact List.eq_of_mem_replicate (List.mem_of_getElem? hcli)
      constructor
      · intro i cli hcli
        rw [hfree i cli hcli]
        exact ⟨newClient_sane 0, Int.le_refl 0⟩
      · intro i j cli cli' hcli _ hpos
        rw [hfree i cli hcli] at hpos
        exact absurd hpos (Int.lt_irrefl 0)
  | @connect gfds confd _ hconfd hfresh ih =>
      rcases sockCliAdd_set (newClient confd) gfds with hsame | ⟨i, hset⟩
      · rw [hsame]
        exact ih
      · rw [hset]
        exact ih.set (newClient_sane confd) hconfd fun j c hc _ hpos =>
          hfresh c (List.mem_of_getElem? hc) hpos
  | pass _ hio hrun ih =>
      obtain ⟨gfds', log, hpass, hsane, _⟩ := selectOnCliRw_pass ih hio gechobytes
      obtain ⟨rfl, rfl⟩ := Prod.mk.inj (Option.some.inj (hpass.symm.trans hrun))
      exact hsane

/-- The pass is made, and it writes to open clients only. -/
def PassLaw (gechobytes : Int) (io : Io) (gfds : Table) : Prop :=
  ∃ gfds' log, selectOnCliRw gechobytes io gfds = some (gfds', log) ∧ WritesOpen log

/-- **CLOSED CLIENTS.**  A pass writes to open clients only if and ONLY if no writable client is
    closed by its `read` with bytes left in its buffer. -/
theorem writes_open_iff (gechobytes : Int) (slots : Nat) (gfds : Table) (io : Io)
    (h : Reached gechobytes slots gfds) (hio : io.Lawful) :
    PassLaw gechobytes io gfds
      ↔ ∀ i cli, gfds[i]? = some cli → ¬ Slips gechobytes io i cli := by
  obtain ⟨gfds', log, hpass, _, hopen⟩ := selectOnCliRw_pass h.sane hio gechobytes
  rw [← hopen]
  constructor
  · rintro ⟨gfds'', log', hrun, hlaw⟩
    obtain ⟨rfl, rfl⟩ := Prod.mk.inj (Option.some.inj (hpass.symm.trans hrun))
    exact hlaw
  · exact fun hlaw => ⟨gfds', log, hpass, hlaw⟩

/-- The client 5 sends something, and is not writable. -/
def arrives : Io := ⟨fun fd => decide (fd = 5), fun _ => false, fun _ => gets ['a', 'b'],
  fun _ => waits⟩

/-- The client 5 hangs up. -/
def hangsUp : Io := ⟨fun fd => decide (fd = 5), fun fd => decide (fd = 5), fun _ => gets [],
  fun _ => waits⟩

/-- Two slots, and the client 5 in the first one. -/
theorem reached_five : Reached 10 2 [newClient 5, newClient 0] := by
  refine @Reached.connect 10 2 _ 5 .start (by decide) fun cli hmem hpos => ?_
  rw [List.eq_of_mem_replicate hmem] at hpos
  exact absurd hpos (Int.lt_irrefl 0)

/-- A client that hangs up before it has sent anything. -/
theorem writes_open_empty : PassLaw 10 hangsUp [newClient 5, newClient 0] := by
  refine (writes_open_iff 10 2 _ hangsUp reached_five
    ⟨fun _ => gets_lawful _, fun _ => waits_lawful⟩).mpr fun i cli hcli hslips => ?_
  have hlen : cli.len = 0 := by
    rcases List.mem_cons.mp (List.mem_of_getElem? hcli) with rfl | hmem
    · rfl
    · rw [List.mem_singleton.mp hmem]
      rfl
  exact absurd hslips.left (Int.not_lt.mpr (Int.le_of_eq hlen))

/-- Its bytes have come, but have not been echoed. -/
theorem reached_two : ∃ buf, Reached 10 2 [⟨5, buf, 2, 2, 0⟩, newClient 0] := by
  obtain ⟨buf, hread⟩ := reads_two
  have hfirst : selectSlot 10 arrives [newClient 5, newClient 0] 0
      = some ([⟨5, buf, 2, 2, 0⟩, newClient 0],
        [([newClient 5, newClient 0], .read 5 0 10 ⟨2, .other, ['a', 'b']⟩)]) := by
    have hset : readIfSet 10 arrives (newClient 5).fd [newClient 5, newClient 0] 0 = _ := hread
    rw [selectSlot]
    simp only [List.getElem?_cons_zero, Option.bind_eq_bind, Option.bind_some, hset]
    rfl
  have hsecond : selectSlot 10 arrives [⟨5, buf, 2, 2, 0⟩, newClient 0] 1
      = some ([⟨5, buf, 2, 2, 0⟩, newClient 0], []) := rfl
  have hio : arrives.Lawful := ⟨fun _ => gets_lawful _, fun _ => waits_lawful⟩
  have hpass : selectOnCliRw 10 arrives [newClient 5, newClient 0]
      = some ([⟨5, buf, 2, 2, 0⟩, newClient 0],
        [([newClient 5, newClient 0], .read 5 0 10 ⟨2, .other, ['a', 'b']⟩)]) := by
    simp [selectOnCliRw, selectTurn, List.range_succ, hfirst, hsecond]
  exact ⟨buf, .pass reached_five hio hpass⟩

/-- A client that hangs up before its bytes are echoed: they go to descriptor 0. -/
theorem writes_to_zero : ¬ ∀ gechobytes slots gfds io, Reached gechobytes slots gfds →
    io.Lawful → PassLaw gechobytes io gfds := by
  intro hall
  obtain ⟨buf, hreached⟩ := reached_two
  have hio : hangsUp.Lawful := ⟨fun _ => gets_lawful _, fun _ => waits_lawful⟩
  obtain ⟨gfds', log, hrun, hlaw⟩ := hall 10 2 _ hangsUp hreached hio
  obtain ⟨gfds'', log', hpass, _, hopen⟩ :=
    selectOnCliRw_pass hreached.sane hio 10
  obtain ⟨rfl, rfl⟩ := Prod.mk.inj (Option.some.inj (hpass.symm.trans hrun))
  exact hopen.mp hlaw 0 _ rfl ⟨(by decide : (0 : Int) < 5), rfl, rfl,
    ⟨(by decide : (10 : Int) ≤ SOCK_BUF - 2), (by decide : (gets [] 10).n ≤ 0),
      (by decide : (gets [] 10).again = false)⟩, (by decide : (0 : Int) < 2)⟩

end Echo
