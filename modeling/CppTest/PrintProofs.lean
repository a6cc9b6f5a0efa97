import Mathlib.Data.List.Infix
import Mathlib.Data.List.TakeWhile
import CppTest.MachineProofs

/-! # Writing a text into a buffer

    A buffer is a list of characters, and a text in it is a prefix of the list.  `snprintfAt`
    is `snprintf` at an offset of the buffer: it writes no more cells than it is given, the
    last of them a NUL, and where these are enough the text before the offset is continued
    (`snprintfAt_spec`).  `memcpyAt` writes at an offset too, but `strcatAt` writes where it
    finds a NUL (`strcatAt_append`, `strcatAt_outside`).

    Nothing here names a program of the repository. -/

namespace Print

open Machine

/-- The character that ends a text. -/
def nul : Char := Char.ofNat 0

/-- An `int` as `%d` prints it. -/
def decimal (k : Int) : List Char := (toString k).toList

/-- `snprintf(cells + n, length, ...)` for the text `text`; a cell outside the buffer
    faults. -/
def snprintfAt (cells : List Char) (n length : Nat) (text : List Char) : Option (List Char) :=
  if length = 0 then some cells
  else
    let out := text.take (length - 1) ++ [nul]
    if n + out.length ≤ cells.length then
      some (cells.take n ++ out ++ cells.drop (n + out.length))
    else none

/-- `sprintf(cells + n, ...)` for the text `text`, with its NUL; a cell outside the buffer
    faults. -/
def sprintfAt (cells : List Char) (n : Nat) (text : List Char) : Option (List Char) :=
  snprintfAt cells n (text.length + 1) text

/-- `memcpy(cells, data, data.length)`. -/
def memcpyTo (cells data : List Char) : Option (List Char) :=
  if data.length ≤ cells.length then some (data ++ cells.drop data.length) else none

/-- `memcpy(cells + n, data, data.length)`; a cell outside the buffer faults. -/
def memcpyAt (cells : List Char) (n : Nat) (data : List Char) : Option (List Char) :=
  if n + data.length ≤ cells.length then
    some (cells.take n ++ data ++ cells.drop (n + data.length))
  else none

/-- `memmove(cells, cells + n, k)`; a cell outside the buffer faults. -/
def memmoveFrom (cells : List Char) (n k : Nat) : Option (List Char) :=
  if n + k ≤ cells.length then memcpyTo cells ((cells.drop n).take k) else none

/-- What stands before the first NUL. -/
def beforeNul (cells : List Char) : List Char := cells.takeWhile fun c => c ≠ nul

/-- `strcat(cells + n, text)`: the text goes to the first NUL from `n` on.  If the buffer has
    none there, the search for it leaves the buffer and faults. -/
def strcatAt (cells : List Char) (n : Nat) (text : List Char) : Option (List Char) :=
  if nul ∈ cells.drop n then sprintfAt cells (n + (beforeNul (cells.drop n)).length) text
  else none

/-- The C string in a buffer: what stands before the first NUL.  A buffer without a NUL
    holds none. -/
def cString (cells : List Char) : Option (List Char) :=
  if nul ∈ cells then some (cells.takeWhile fun c => c ≠ nul) else none

/-- `strchr(cells + n, c)`: where the first `c` of the C string at `n` is, or null.  The
    search faults where no NUL ends it. -/
def strchrAt (cells : List Char) (n : Nat) (c : Char) : Option (Option Nat) := do
  let s ← cString (cells.drop n)
  some (if c ∈ s then some (n + (s.takeWhile fun d => d ≠ c).length) else none)

/-- Lines that each end in a newline are the lines with newlines between them, and one
    more. -/
theorem flatMap_lines {α : Type} (line : α → List Char) : ∀ {vs : List α}, vs ≠ [] →
    vs.flatMap (fun v => line v ++ ['\n']) = ['\n'].intercalate (vs.map line) ++ ['\n'] := by
  intro vs hvs
  induction vs with
  | nil => exact absurd rfl hvs
  | cons v vs ih =>
      cases vs with
      | nil => simp
      | cons u vs =>
          rw [List.flatMap_cons, ih (List.cons_ne_nil u vs)]
          simp [List.intercalate]

/-- What is printed for nothing but the elements with a property. -/
theorem flatMap_filter {α : Type} (P : α → Prop) [DecidablePred P] (text : α → List Char)
    (vs : List α) : (vs.filter fun v => P v).flatMap text
      = vs.flatMap fun v => if P v then text v else [] := by
  induction vs with
  | nil => rfl
  | cons v vs ih =>
      by_cases hv : P v
      · simp [hv, ih]
      · simp [hv, ih]

/-- A cell behind a text is set. -/
theorem prefix_set {cells T : List Char} (h : T <+: cells) (hlt : T.length < cells.length)
    (c : Char) : T ++ [c] <+: cells.set T.length c := by
  obtain ⟨rest, rfl⟩ := h
  rw [List.length_append] at hlt
  obtain ⟨d, rest, rfl⟩ := List.exists_cons_of_length_pos (l := rest) (by omega)
  refine ⟨rest, ?_⟩
  rw [List.set_append_right _ _ (Nat.le_refl _), Nat.sub_self, List.append_assoc]
  rfl

/-- **`snprintf` writes into the cells it is given**, and continues the text before them if
    they are enough. -/
theorem snprintfAt_spec {cells : List Char} {n length : Nat} (hpos : 0 < length)
    (hfits : n + length ≤ cells.length) (text : List Char) :
    ∃ cells', snprintfAt cells n length text = some cells' ∧ cells'.length = cells.length ∧
      ∀ T, T.length = n → T <+: cells → text.length < length → T ++ text <+: cells' := by
  have hout : (text.take (length - 1) ++ [nul]).length ≤ length := by
    rw [List.length_append, List.length_take, List.length_singleton]
    omega
  refine ⟨cells.take n ++ (text.take (length - 1) ++ [nul])
    ++ cells.drop (n + (text.take (length - 1) ++ [nul]).length), ?_, ?_, ?_⟩
  · rw [snprintfAt, if_neg (by omega)]
    exact if_pos (by omega)
  · simp only [List.length_append, List.length_take, List.length_drop, List.length_singleton]
      at hout ⊢
    omega
  · rintro T rfl ⟨rest, rfl⟩ hlt
    rw [List.take_left, List.take_of_length_le (l := text) (by omega)]
    rw [← List.append_assoc T, List.append_assoc (T ++ text)]
    exact List.prefix_append _ _

/-- `sprintf` continues a text and ends it. -/
theorem sprintfAt_append (T room text : List Char) (hroom : text.length < room.length) :
    sprintfAt (T ++ room) T.length text
      = some (T ++ text ++ nul :: room.drop (text.length + 1)) := by
  have hout : text.take (text.length + 1 - 1) ++ [nul] = text ++ [nul] := by
    rw [Nat.add_sub_cancel, List.take_length]
  have hdrop : (T ++ room).drop (T.length + (text.length + 1)) = room.drop (text.length + 1) := by
    rw [← List.drop_drop, List.drop_left]
  rw [sprintfAt, snprintfAt, if_neg (Nat.succ_ne_zero _), hout]
  simp only [List.length_append, List.length_singleton, List.take_left, hdrop]
  rw [if_pos (by omega)]
  simp

/-- Where the text and its NUL do not fit, `sprintf` leaves the buffer. -/
theorem sprintfAt_outside {cells text : List Char} {n : Nat} (h : cells.length ≤ n + text.length) :
    sprintfAt cells n text = none := by
  rw [sprintfAt, snprintfAt, if_neg (Nat.succ_ne_zero _)]
  refine if_neg ?_
  simp only [List.length_append, List.length_take, List.length_singleton]
  omega

/-- `memcpy` continues a text. -/
theorem memcpyAt_append (T room data : List Char) (hroom : data.length ≤ room.length) :
    memcpyAt (T ++ room) T.length data = some (T ++ data ++ room.drop data.length) := by
  rw [memcpyAt, if_pos (by rw [List.length_append]; omega), List.take_left, ← List.drop_drop,
    List.drop_left]

/-- What `memcpy` puts behind a text. -/
theorem memcpyAt_take {cells data : List Char} {n : Nat} (h : n + data.length ≤ cells.length) :
    ∃ cells', memcpyAt cells n data = some cells' ∧ cells'.length = cells.length
      ∧ cells'.take (n + data.length) = cells.take n ++ data := by
  have hn : (cells.take n).length = n := List.length_take_of_le (by omega)
  have hroom : data.length ≤ (cells.drop n).length := by
    rw [List.length_drop]
    omega
  have hcopy := memcpyAt_append (cells.take n) (cells.drop n) data hroom
  rw [List.take_append_drop, hn] at hcopy
  refine ⟨_, hcopy, ?_, ?_⟩
  · rw [List.length_append, List.length_append, List.length_drop, List.length_drop, hn]
    omega
  · exact List.take_left' (by rw [List.length_append, hn])

/-- What `memmove` brings to the front. -/
theorem memmoveFrom_take {cells : List Char} {n k : Nat} (h : n + k ≤ cells.length) :
    ∃ cells', memmoveFrom cells n k = some cells' ∧ cells'.length = cells.length
      ∧ cells'.take k = (cells.drop n).take k := by
  have hk : ((cells.drop n).take k).length = k :=
    List.length_take_of_le (by rw [List.length_drop]; omega)
  refine ⟨(cells.drop n).take k ++ cells.drop k, ?_, ?_, List.take_left' hk⟩
  · rw [memmoveFrom, if_pos h, memcpyTo, hk, if_pos (by omega)]
  · rw [List.length_append, hk, List.length_drop]
    omega

/-- Where something stands behind the text, it is a NUL. -/
theorem nul_mem_of_lt {room : List Char} (h : (beforeNul room).length < room.length) :
    nul ∈ room := by
  by_contra hno
  have hall : beforeNul room = room := by
    refine List.takeWhile_eq_self_iff.mpr ?_
    intro c hc
    have hne : c ≠ nul := fun heq => hno (heq ▸ hc)
    simpa using hne
  rw [hall] at h
  exact Nat.lt_irrefl _ h

/-- `strcat` leaves what stands before the first NUL, and writes behind it. -/
theorem strcatAt_append (T room text : List Char)
    (hroom : (beforeNul room).length + text.length < room.length) :
    strcatAt (T ++ room) T.length text = some (T ++ (beforeNul room ++ text
      ++ nul :: room.drop ((beforeNul room).length + text.length + 1))) := by
  have hpre : beforeNul room ++ room.drop (beforeNul room).length = room := by
    conv_rhs => rw [← List.take_append_drop (beforeNul room).length room]
    congr 1
    exact List.prefix_iff_eq_take.mp (List.takeWhile_prefix _)
  have hlen := congrArg List.length hpre
  rw [List.length_append] at hlen
  have hput := sprintfAt_append (T ++ beforeNul room) (room.drop (beforeNul room).length) text
    (by omega)
  rw [List.append_assoc T, hpre, List.length_append, List.drop_drop] at hput
  rw [strcatAt, List.drop_left, if_pos (nul_mem_of_lt (by omega)), hput]
  simp only [List.append_assoc, Nat.add_assoc]

/-- Where the text does not fit behind the first NUL, or there is none, `strcat` leaves the
    buffer. -/
theorem strcatAt_outside (T room text : List Char)
    (hroom : room.length ≤ (beforeNul room).length + text.length) :
    strcatAt (T ++ room) T.length text = none := by
  rw [strcatAt, List.drop_left]
  split
  · refine sprintfAt_outside ?_
    rw [List.length_append]
    omega
  · rfl

/-- A text without a NUL in it, and then a NUL. -/
theorem cString_append {text : List Char} (h : nul ∉ text) (rest : List Char) :
    cString (text ++ nul :: rest) = some text := by
  rw [cString, if_pos (by simp), List.takeWhile_append_of_pos]
  · rw [List.takeWhile_cons_of_neg (by simp), List.append_nil]
  · intro c hc
    have hne : c ≠ nul := fun heq => h (heq ▸ hc)
    simpa using hne

theorem takeWhile_first {c : Char} {text : List Char} (h : c ∉ text) (rest : List Char) :
    (text ++ c :: rest).takeWhile (fun d => d ≠ c) = text := by
  rw [List.takeWhile_append_of_pos, List.takeWhile_cons_of_neg (by simp), List.append_nil]
  intro d hd
  have hne : d ≠ c := fun heq => h (heq ▸ hd)
  simpa using hne

/-- `strchr` finds the first `c`. -/
theorem strchrAt_found {T seg rest tail : List Char} {c : Char} (hc : c ∉ seg)
    (hnul : nul ∉ seg ++ c :: rest) :
    strchrAt (T ++ (seg ++ c :: rest ++ nul :: tail)) T.length c
      = some (some (T.length + seg.length)) := by
  rw [strchrAt, List.drop_left, cString_append hnul]
  simp only [Option.bind_eq_bind, Option.bind_some]
  rw [if_pos (by simp), takeWhile_first hc]

/-- Or there is none. -/
theorem strchrAt_null {T text tail : List Char} {c : Char} (hc : c ∉ text) (hnul : nul ∉ text) :
    strchrAt (T ++ (text ++ nul :: tail)) T.length c = some none := by
  rw [strchrAt, List.drop_left, cString_append hnul]
  simp only [Option.bind_eq_bind, Option.bind_some]
  rw [if_neg hc]

/-- A size is printed in its decimal digits. -/
theorem decimal_natCast (k : Nat) : decimal (k : Int) = Nat.toDigits 10 k :=
  show (Nat.repr k).toList = Nat.toDigits 10 k from Nat.toList_repr

theorem nul_notMem_decimal (k : Nat) : nul ∉ decimal (k : Int) := by
  rw [decimal_natCast]
  intro hmem
  have hdigit : nul.isDigit := Nat.isDigit_of_mem_toDigits (by decide) (by decide) hmem
  exact absurd hdigit (by decide)

end Print
