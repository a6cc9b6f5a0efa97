import CppTest.EchoProofs
import CppTest.ScanProofs

/-! # The reports of the worker (`src/fork/test_fork.cpp`)

    A worker that has no room for clients tells the master so: `select_on_mw_w` prints its
    process id and the number of its clients to a datagram socket, and `select_on_mw_r` reads
    them with `sscanf`.

    The text is sent without its NUL and goes to a buffer that is not cleared, so what `sscanf`
    sees behind it is what the stack had there (`report_received_iff`). -/

namespace ForkReport

open Machine Print Echo

/-! ## The model -/

def MWMSG_SZ : Nat := 64

/-- `"%d,%d"` for the process id and the number of clients. -/
def reportText (gpid clisz : Int) : List Char := decimal gpid ++ ',' :: decimal clisz

/-- `select_on_mw_w`, for a descriptor and with the clients counted: what is written, and the
    result.  `buf` is what the stack has where the buffer is. -/
def selectOnMwW (buf : List Char) (gpid clisz : Int) (write : Int → IoResult) :
    Option (List Char × Int) := do
  let m := (reportText gpid clisz).length
  let buf ← sprintfAt buf 0 (reportText gpid clisz)
  let text ← cString buf
  let res := write text.length
  if res.n ≤ 0 then some ([], if res.again then 0 else -1)
  else if res.n = m then some (text, 0)
  else some (text.take res.n.toNat, -1)

/-- `sscanf(s, "%d,%d", &pid, &clisz)`: how many numbers are found, and the two.  A number that
    is no `int` is undefined. -/
def scanReport (s : List Char) : Option (Int × Int × Int) :=
  match Scan.number s with
  | .eof => some (-1, 0, 0)
  | .mismatch _ => some (0, 0, 0)
  | .value pid rest => do
      let pid ← int32 pid
      match rest with
      | ',' :: rest =>
          match Scan.number rest with
          | .value clisz _ => do
              let clisz ← int32 clisz
              some (2, pid, clisz)
          | _ => some (1, pid, 0)
      | _ => some (1, pid, 0)

/-- `select_on_mw_r`, for a descriptor: the report if there is one, and the result. -/
def selectOnMwR (buf : List Char) (read : Int → IoResult) : Option (Option (Int × Int) × Int) := do
  let res := read MWMSG_SZ
  if res.n ≤ 0 then some (none, if res.again then 0 else -1)
  else
    let buf ← memcpyAt buf 0 res.data
    let s ← cString buf
    let (n, pid, clisz) ← scanReport s
    if n ≠ 2 then some (none, -1) else some (some (pid, clisz), 0)

/-! ## From worker to master -/

/-- The digits that happen to stand behind a text in a buffer. -/
def digitsBehind (text buf : List Char) : List Char :=
  (buf.drop text.length).takeWhile Char.isDigit

/-- A report fits into its buffer, with its NUL. -/
theorem length_reportText {gpid clisz : Nat} (hpid : (gpid : Int) ≤ intMax)
    (hclisz : (clisz : Int) ≤ intMax) : (reportText gpid clisz).length < MWMSG_SZ := by
  have hlen : ∀ k : Nat, (k : Int) ≤ intMax → (Nat.toDigits 10 k).length ≤ 10 := by
    intro k hk
    rw [intMax] at hk
    exact (Nat.length_toDigits_le_iff (by decide) (by decide)).mpr (by omega)
  rw [reportText, decimal_natCast, decimal_natCast, List.length_append, List.length_cons, MWMSG_SZ]
  have := hlen gpid hpid
  have := hlen clisz hclisz
  omega

theorem nul_notMem_reportText (gpid clisz : Nat) : nul ∉ reportText gpid clisz := by
  rw [reportText, List.mem_append, List.mem_cons, not_or, not_or]
  exact ⟨nul_notMem_decimal gpid, by decide, nul_notMem_decimal clisz⟩

/-- **The worker sends the text alone.** -/
theorem selectOnMwW_spec {buf : List Char} (hbuf : buf.length = MWMSG_SZ) {gpid clisz : Nat}
    (hpid : (gpid : Int) ≤ intMax) (hclisz : (clisz : Int) ≤ intMax) {write : Int → IoResult}
    (hwrite : (write (reportText gpid clisz).length).n = (reportText gpid clisz).length) :
    selectOnMwW buf gpid clisz write = some (reportText gpid clisz, 0) := by
  have hfits := length_reportText hpid hclisz
  have hprint := sprintfAt_append [] buf (reportText gpid clisz) (by rw [hbuf]; exact hfits)
  rw [List.nil_append, List.nil_append, List.length_nil] at hprint
  have hpos : 0 < ((reportText gpid clisz).length : Int) := by
    rw [reportText, List.length_append, List.length_cons]
    omega
  rw [selectOnMwW]
  simp only [hprint, cString_append (nul_notMem_reportText gpid clisz), Option.bind_eq_bind,
    Option.bind_some, hwrite]
  rw [if_neg (by omega), if_pos trivial]

/-- What `sscanf` makes of a report and what stands behind it. -/
theorem scanReport_spec {gpid clisz : Nat} (hpid : (gpid : Int) ≤ intMax) (behind : List Char) :
    scanReport (reportText gpid clisz ++ behind)
      = (int32 (Scan.digits (Nat.toDigits 10 clisz ++ behind.takeWhile Char.isDigit))).map
        fun n => (2, (gpid : Int), n) := by
  have hcomma : ¬ (',').isDigit = true := by decide
  have hgpid : int32 (gpid : Int) = some (gpid : Int) := int32_eq (by rw [intMin]; omega) hpid
  have hfirst : Scan.number (reportText gpid clisz ++ behind)
      = .value gpid (',' :: (Nat.toDigits 10 clisz ++ behind)) := by
    rw [reportText, decimal_natCast, decimal_natCast, List.append_assoc, List.cons_append,
      Scan.number_toDigits, List.takeWhile_cons_of_neg hcomma, List.append_nil,
      Scan.digits_toDigits, List.dropWhile_cons_of_neg hcomma]
  rw [scanReport, hfirst]
  simp only [hgpid, Option.bind_eq_bind, Option.bind_some, Scan.number_toDigits]
  cases int32 _ <;> rfl

/-- What stands before the first NUL has the same digits in front. -/
theorem takeWhile_beforeNul : ∀ cells : List Char,
    (cells.takeWhile fun c => c ≠ nul).takeWhile Char.isDigit = cells.takeWhile Char.isDigit := by
  intro cells
  induction cells with
  | nil => rfl
  | cons c cells ih =>
      by_cases hc : c = nul
      · subst hc
        rfl
      · rw [List.takeWhile_cons_of_pos (by simpa using hc), List.takeWhile_cons,
          List.takeWhile_cons, ih]

/-- What the master reads. -/
theorem selectOnMwR_spec {buf : List Char} {gpid clisz : Nat} (hbuf : buf.length = MWMSG_SZ)
    (hpid : (gpid : Int) ≤ intMax) (hclisz : (clisz : Int) ≤ intMax)
    (hnul : nul ∈ buf.drop (reportText gpid clisz).length) {read : Int → IoResult}
    (hread : (read MWMSG_SZ).n = (reportText gpid clisz).length
      ∧ (read MWMSG_SZ).data = reportText gpid clisz) :
    selectOnMwR buf read = (int32 (Scan.digits (Nat.toDigits 10 clisz
      ++ digitsBehind (reportText gpid clisz) buf))).map fun n => (some ((gpid : Int), n), 0) := by
  obtain ⟨hn, hdata⟩ := hread
  have hfits := length_reportText hpid hclisz
  have hcopy := memcpyAt_append [] buf (reportText gpid clisz) (by omega)
  rw [List.nil_append, List.nil_append, List.length_nil] at hcopy
  have hpos : ¬ ((reportText gpid clisz).length : Int) ≤ 0 := by
    rw [reportText, List.length_append, List.length_cons]
    omega
  have hstring : cString (reportText gpid clisz ++ buf.drop (reportText gpid clisz).length)
      = some (reportText gpid clisz
        ++ (buf.drop (reportText gpid clisz).length).takeWhile fun c => c ≠ nul) := by
    rw [cString, if_pos (List.mem_append_right _ hnul), List.takeWhile_append_of_pos]
    intro c hc
    have hne : c ≠ nul := fun heq => nul_notMem_reportText gpid clisz (heq ▸ hc)
    simpa using hne
  rw [selectOnMwR]
  simp only [hn, hdata, if_neg hpos, hcopy, hstring, Option.bind_eq_bind, Option.bind_some,
    scanReport_spec hpid, takeWhile_beforeNul]
  rw [← digitsBehind]
  cases int32 _ <;> rfl

end ForkReport
