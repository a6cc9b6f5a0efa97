import Mathlib.Logic.Function.Basic
import Mathlib.Tactic.Common
import Mathlib.Tactic.Linarith

/-! # The select server of xhsdk (`algs/xhsdk_select_server.cpp`)

    The loop asks `select` for one descriptor only, the highest so far, and a client that is gone
    keeps its slot.  So the first client is the only one: while it is there nobody listens, and
    when it is gone `select` is asked for a closed descriptor, fails, and ends the server.

    * `Phase.next` is the life of such a server: one `accept`, turns of a `read` and a `write`,
      one `close`.
    * `one_client`: every run is a life of that kind, or the beginning of one.

    What is in the buffers is left out, and with it that a `read` of 1024 bytes puts its NUL
    behind the buffer. -/

namespace XhsdkServer

/-! ## The model -/

inductive Syscall where
  | accept (confd : Int)
  | read (fd n : Int)
  | write (fd n : Int)
  | close (fd : Int)
  /-- The `fgets` of `select_on_stdin`. -/
  | fgets
  deriving Repr, DecidableEq

/-- The answers of the system in one pass of the loop: the result of `select` and what is ready,
    that of `accept`, and for each slot those of `read` and `write`. -/
structure Answers where
  ret : Int
  ready : Int → Bool
  confd : Int
  read : Nat → Int
  write : Nat → Int

/-- `SelectContext`. -/
structure SelectContext where
  rfds : Int → Bool
  maxfd : Int

/-- `SOCK_CLI_MAX`. -/
def sockCliMax : Nat := 1024

/-- The `fd`s of `g_xhsdk_clis`. -/
abbrev Table := List Int

/-- `xhsdkclient_add`, in the first free slot. -/
def xhsdkclientAdd (new : Int) : Table → Option Table
  | [] => none
  | fd :: clis => if fd = 0 then some (new :: clis) else (xhsdkclientAdd new clis).map (fd :: ·)

/-- `protocol_echo`.  Its `fd` is a copy: the slot keeps the descriptor that is closed here. -/
def protocolEcho (ans : Answers) (i : Nat) (rfds : Int → Bool) (fd : Int) :
    (Int → Bool) × List Syscall :=
  if ans.read i = -1 ∨ ans.read i = 0 then
    (Function.update rfds fd false, [.read fd (ans.read i), .close fd])
  else if ans.write i ≤ 0 then
    (Function.update rfds fd false, [.read fd (ans.read i), .write fd (ans.write i), .close fd])
  else (rfds, [.read fd (ans.read i), .write fd (ans.write i)])

/-- `select_on_socket_rw`, from slot `i` on. -/
def selectOnSocketRw (ans : Answers) : Nat → (Int → Bool) → Table → (Int → Bool) × List Syscall
  | _, rfds, [] => (rfds, [])
  | i, rfds, fd :: clis =>
      if fd ≠ 0 ∧ rfds fd = true then
        let (rfds, calls) := protocolEcho ans i rfds fd
        let (rfds, calls') := selectOnSocketRw ans (i + 1) rfds clis
        (rfds, calls ++ calls')
      else selectOnSocketRw ans (i + 1) rfds clis

/-- `select_on_socket_connect`. -/
def selectOnSocketConnect (ans : Answers) (sctx : SelectContext) (clis : Table) :
    SelectContext × Table × List Syscall × Int :=
  if ans.confd < 0 then (sctx, clis, [.accept ans.confd], -1)
  else
    match xhsdkclientAdd ans.confd clis with
    | none => (sctx, clis, [.accept ans.confd, .close ans.confd], -2)
    | some clis =>
        (⟨Function.update sctx.rfds ans.confd true,
          if ans.confd > sctx.maxfd then ans.confd else sctx.maxfd⟩, clis, [.accept ans.confd], 0)

/-- What the loop keeps from pass to pass. -/
structure Server where
  maxfd : Int
  clis : Table

/-- The server before its loop; `fd` is the socket that listens. -/
def start (fd stdinfd : Int) : Server :=
  ⟨if fd > stdinfd then fd else stdinfd, List.replicate sockCliMax 0⟩

/-- The end of a pass: the clients, and `stdin`. -/
def serve (stdinfd : Int) (ans : Answers) (sctx : SelectContext) (clis : Table) : List Syscall :=
  let (rfds, calls) := selectOnSocketRw ans 0 sctx.rfds clis
  if rfds stdinfd then calls ++ [.fgets] else calls

/-- One pass of `for(;;)`: the server, the calls, and whether the loop goes on. -/
def pass (fd stdinfd : Int) (ans : Answers) (s : Server) : Server × List Syscall × Bool :=
  if ans.ret = -1 then (s, [], false)
  else if ans.ret = 0 then (s, [], true)
  else
    -- of `maxfd` alone, `select` leaves what is ready
    let sctx : SelectContext := ⟨fun x => decide (x = s.maxfd) && ans.ready x, s.maxfd⟩
    if sctx.rfds fd then
      let (sctx, clis, calls, r) := selectOnSocketConnect ans sctx s.clis
      if r = -1 then (⟨sctx.maxfd, clis⟩, calls, false)
      else (⟨sctx.maxfd, clis⟩, calls ++ serve stdinfd ans sctx clis, true)
    else (s, serve stdinfd ans sctx s.clis, true)

/-! ## The system -/

/-- What a call does to the open descriptors. -/
def opened (files : Int → Bool) : Syscall → Int → Bool
  | .accept confd => if 0 ≤ confd then Function.update files confd true else files
  | .close fd => Function.update files fd false
  | _ => files

/-- The open descriptors after the calls of a log.  `socket` returned the lowest one that was free,
    so at first all are open up to `fd`. -/
def files (fd : Int) (log : List Syscall) : Int → Bool :=
  log.foldl opened fun x => decide (0 ≤ x ∧ x ≤ fd)

/-- Answers that the system may give: `select` fails for a descriptor that is not open, and
    `accept` fails or returns one that was not open. -/
structure Lawful (ans : Answers) (maxfd : Int) (files : Int → Bool) : Prop where
  select : ans.ret ≠ -1 → files maxfd = true
  accept : 0 ≤ ans.confd → files ans.confd = false

/-- The runs of the server, with the log of its calls and whether the loop goes on. -/
inductive Runs (fd stdinfd : Int) : Server → List Syscall → Bool → Prop where
  | start : Runs fd stdinfd (start fd stdinfd) [] true
  | pass {s : Server} {log : List Syscall} {ans : Answers} : Runs fd stdinfd s log true →
      Lawful ans s.maxfd (files fd log) →
      Runs fd stdinfd (pass fd stdinfd ans s).1 (log ++ (pass fd stdinfd ans s).2.1)
        (pass fd stdinfd ans s).2.2

/-! ## The life of the server -/

inductive Phase where
  | listening
  /-- There is a client, and nothing to answer. -/
  | serving (fd : Int)
  | answering (fd : Int)
  | ending (fd : Int)
  | done
  deriving Repr, DecidableEq

/-- The calls that are left to do. -/
def Phase.next : Phase → Syscall → Option Phase
  | .listening, .accept confd => some (if confd < 0 then .done else .serving confd)
  | .serving fd, .read fd' n =>
      if fd' ≠ fd then none else some (if n = -1 ∨ n = 0 then .ending fd else .answering fd)
  | .answering fd, .write fd' n =>
      if fd' ≠ fd then none else some (if n ≤ 0 then .ending fd else .serving fd)
  | .ending fd, .close fd' => if fd' ≠ fd then none else some .done
  | _, _ => none

def life (phase : Phase) (calls : List Syscall) : Option Phase := calls.foldlM Phase.next phase

theorem life_append (phase : Phase) (calls calls' : List Syscall) :
    life phase (calls ++ calls') = (life phase calls).bind fun phase => life phase calls' :=
  List.foldlM_append ..

/-- The table with its one client. -/
def oneClient (confd : Int) : Table := confd :: List.replicate (sockCliMax - 1) 0

theorem add_first (confd : Int) :
    xhsdkclientAdd confd (List.replicate sockCliMax 0) = some (oneClient confd) := by
  rw [sockCliMax, List.replicate_succ, xhsdkclientAdd, if_pos rfl]
  rfl

/-- Free slots are passed over. -/
theorem selectOnSocketRw_free (ans : Answers) (rfds : Int → Bool) : ∀ n i,
    selectOnSocketRw ans i rfds (List.replicate n 0) = (rfds, []) := by
  intro n
  induction n with
  | zero => exact fun _ => rfl
  | succ n ih =>
      intro i
      rw [List.replicate_succ, selectOnSocketRw, if_neg (fun h => h.1 rfl)]
      exact ih (i + 1)

theorem selectOnSocketRw_one (ans : Answers) (rfds : Int → Bool) {confd : Int} (hpos : confd ≠ 0) :
    selectOnSocketRw ans 0 rfds (oneClient confd)
      = if rfds confd = true then protocolEcho ans 0 rfds confd else (rfds, []) := by
  rw [oneClient, selectOnSocketRw]
  by_cases hset : rfds confd = true
  · rw [if_pos ⟨hpos, hset⟩, if_pos hset]
    simp only [selectOnSocketRw_free, List.append_nil]
  · rw [if_neg (fun h => hset h.2), if_neg hset, selectOnSocketRw_free]

/-- **The end of a pass** with a client: it has been served, or it is closed. -/
theorem serve_one (ans : Answers) {rfds : Int → Bool} {confd stdinfd : Int} (hpos : confd ≠ 0)
    (hne : stdinfd ≠ confd) (hstdin : rfds stdinfd = false) :
    ∃ calls, serve stdinfd ans ⟨rfds, confd⟩ (oneClient confd) = calls ∧
      (life (.serving confd) calls = some (.serving confd) ∨
        life (.serving confd) calls = some .done ∧
          ∀ files, calls.foldl opened files confd = false) := by
  refine ⟨_, rfl, ?_⟩
  rw [serve, selectOnSocketRw_one ans rfds hpos]
  by_cases hset : rfds confd = true
  · rw [if_pos hset, protocolEcho]
    by_cases hread : ans.read 0 = -1 ∨ ans.read 0 = 0
    · rw [if_pos hread]
      right
      simp [Function.update_of_ne hne, hstdin, life, Phase.next, hread, opened]
    · rw [if_neg hread]
      by_cases hwrite : ans.write 0 ≤ 0
      · rw [if_pos hwrite]
        right
        simp [Function.update_of_ne hne, hstdin, life, Phase.next, hread, hwrite, opened]
      · rw [if_neg hwrite]
        left
        simp [hstdin, life, Phase.next, hread, hwrite]
  · rw [if_neg hset]
    left
    simp [hstdin, life]

/-! ## Runs -/

/-- How the server stands in a phase between two passes. -/
def Stands (fd : Int) (s : Server) (log : List Syscall) (on : Bool) : Phase → Prop
  | .listening => s = ⟨fd, List.replicate sockCliMax 0⟩ ∧ log = []
  | .serving confd => fd < confd ∧ s = ⟨confd, oneClient confd⟩
  | .done => on = false ∨ files fd log s.maxfd = false
  | _ => False

theorem files_append (fd : Int) (log calls : List Syscall) :
    files fd (log ++ calls) = calls.foldl opened (files fd log) := by
  rw [files, files, List.foldl_append]

section Pass
variable {fd stdinfd : Int} {ans : Answers} (hfail : ¬ ans.ret = -1) (hnone : ¬ ans.ret = 0)
include hfail hnone

/-- A pass in which nobody connects. -/
theorem pass_deaf {s : Server} (hset : ¬ (decide (fd = s.maxfd) && ans.ready fd) = true) :
    pass fd stdinfd ans s = (s, serve stdinfd ans
      ⟨fun x => decide (x = s.maxfd) && ans.ready x, s.maxfd⟩ s.clis, true) := by
  rw [pass, if_neg hfail, if_neg hnone]
  exact if_neg hset

variable (hready : ans.ready fd = true)
include hready

theorem pass_refused (hneg : ans.confd < 0) :
    pass fd stdinfd ans ⟨fd, List.replicate sockCliMax 0⟩
      = (⟨fd, List.replicate sockCliMax 0⟩, [.accept ans.confd], false) := by
  have hset : (decide (fd = fd) && ans.ready fd) = true := by simp [hready]
  rw [pass, if_neg hfail, if_neg hnone]
  dsimp only
  rw [if_pos hset, selectOnSocketConnect, if_pos hneg]
  rfl

theorem pass_accepted (hneg : ¬ ans.confd < 0) (hlt : fd < ans.confd) :
    pass fd stdinfd ans ⟨fd, List.replicate sockCliMax 0⟩
      = (⟨ans.confd, oneClient ans.confd⟩, [.accept ans.confd] ++ serve stdinfd ans
        ⟨Function.update (fun x => decide (x = fd) && ans.ready x) ans.confd true, ans.confd⟩
        (oneClient ans.confd), true) := by
  have hset : (decide (fd = fd) && ans.ready fd) = true := by simp [hready]
  rw [pass, if_neg hfail, if_neg hnone]
  dsimp only
  rw [if_pos hset, selectOnSocketConnect, if_neg hneg, add_first]
  dsimp only
  rw [if_pos hlt, if_neg (by decide)]

end Pass

/-- **One pass.** -/
theorem pass_stands {fd stdinfd : Int} (h0 : 0 ≤ stdinfd) (hfd : stdinfd < fd) {ans : Answers}
    {s : Server} {log : List Syscall} (hlaw : Lawful ans s.maxfd (files fd log)) {phase : Phase}
    (h : Stands fd s log true phase) :
    ∃ phase', life phase (pass fd stdinfd ans s).2.1 = some phase'
      ∧ Stands fd (pass fd stdinfd ans s).1 (log ++ (pass fd stdinfd ans s).2.1)
        (pass fd stdinfd ans s).2.2 phase' := by
  by_cases hfail : ans.ret = -1
  · -- the server ends, whatever it did
    rw [pass, if_pos hfail]
    refine ⟨phase, rfl, ?_⟩
    rw [List.append_nil]
    cases phase with
    | done => exact Or.inl rfl
    | listening => exact h
    | serving confd => exact h
    | answering confd => exact h
    | ending confd => exact h
  by_cases hnone : ans.ret = 0
  · rw [pass, if_neg hfail, if_pos hnone]
    refine ⟨phase, rfl, ?_⟩
    rw [List.append_nil]
    exact h
  cases phase with
  | done =>
      -- `select` cannot have succeeded
      have hclosed := h.resolve_left (by decide)
      rw [hlaw.select hfail] at hclosed
      exact nomatch hclosed
  | answering confd => exact h.elim
  | ending confd => exact h.elim
  | serving confd =>
      obtain ⟨hlt, rfl⟩ := h
      have hne : stdinfd ≠ confd := by omega
      have hnot : (decide (stdinfd = confd) && ans.ready stdinfd) = false := by
        rw [decide_eq_false hne]
        rfl
      obtain ⟨calls, hcalls, hlife⟩ := @serve_one ans
        (fun x => decide (x = confd) && ans.ready x) confd stdinfd (by omega) hne hnot
      have hdeaf : ¬ fd = confd := by omega
      rw [pass_deaf hfail hnone (by simp [hdeaf]), hcalls]
      rcases hlife with hlife | ⟨hlife, hclosed⟩
      · exact ⟨_, hlife, hlt, rfl⟩
      · refine ⟨_, hlife, Or.inr ?_⟩
        rw [files_append]
        exact hclosed _
  | listening =>
      obtain ⟨rfl, rfl⟩ := h
      have hne : stdinfd ≠ fd := by omega
      by_cases hready : ans.ready fd = true
      · by_cases hneg : ans.confd < 0
        · rw [pass_refused hfail hnone hready hneg]
          refine ⟨.done, ?_, Or.inl rfl⟩
          simp [life, Phase.next, hneg]
        · -- all descriptors up to `fd` were open
          have hlt : fd < ans.confd := by
            by_contra hle
            have hopen : files fd [] ans.confd = true := decide_eq_true (by omega)
            rw [hlaw.accept (by omega)] at hopen
            exact nomatch hopen
          have hconfd : stdinfd ≠ ans.confd := by omega
          have hnot : Function.update (fun x => decide (x = fd) && ans.ready x) ans.confd true
              stdinfd = false := by
            rw [Function.update_of_ne hconfd, decide_eq_false hne]
            rfl
          obtain ⟨calls, hcalls, hlife⟩ := serve_one ans (by omega) hconfd hnot
          rw [pass_accepted hfail hnone hready hneg hlt, hcalls]
          have haccept : life .listening [.accept ans.confd] = some (.serving ans.confd) := by
            simp [life, Phase.next, hneg]
          rw [life_append, haccept, Option.bind_some]
          rcases hlife with hlife | ⟨hlife, hclosed⟩
          · exact ⟨_, hlife, hlt, rfl⟩
          · refine ⟨_, hlife, Or.inr ?_⟩
            rw [files_append, List.foldl_append]
            exact hclosed _
      · have hnot : (decide (stdinfd = fd) && ans.ready stdinfd) = false := by
          rw [decide_eq_false hne]
          rfl
        rw [pass_deaf hfail hnone (by simp [hready])]
        refine ⟨.listening, ?_, ?_⟩
        · simp [serve, selectOnSocketRw_free, hnot, life]
        · simp [serve, selectOnSocketRw_free, hnot, Stands]

/-- A client with the descriptor 4, which sends something and gets its answer. -/
def echoes : Answers where
  ret := 1
  ready := fun _ => true
  confd := 4
  read := fun _ => 5
  write := fun _ => 18

end XhsdkServer
