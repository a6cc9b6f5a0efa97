import CppTest.HexProofs
import CppTest.MachineProofs
import CppTest.PrintProofs
import Mathlib.Data.Nat.Log

/-! # `hexdump` (`src/hexdump.cpp`)

    A line shows up to 16 bytes, in hexadecimal and as characters, and where they are.  It is put
    together in one buffer: `sprintf` writes a byte and a NUL behind it, which the next writes
    take away again.

    * `Filled` says what the buffer is while a line is made; `Filled.putByte` is one byte more.
    * `dumpLine_spec`: a line is `lineOf`, 64 characters.
    * `hexdump_round_trip`: the bytes can be read off the lines (`undump`). -/

namespace Hexdump

open Machine Print

/-! ## The model -/

/-- `"%0wX"`. -/
def printHex (w v : Nat) : List Char := Hex.pad (max w (Nat.log 16 v + 1)) v

/-- The line as `sprintf` prints it first. -/
def template (relative : Nat) : List Char :=
  " >".toList ++ List.replicate 54 ' ' ++ printHex 8 relative

/-- `isprint`. -/
def isprint (c : Nat) : Prop := 32 ≤ c ∧ c < 127

instance (c : Nat) : Decidable (isprint c) := inferInstanceAs (Decidable (_ ∧ _))

/-- The variables of the loop that makes a line. -/
structure Line where
  szBuf : List Char
  lIndex : Nat
  lIndex2 : Nat
  lRelPos : Nat

/-- `if(!isprint(ucTmp))  ucTmp = '.';` -/
def shown (ucTmp : UInt8) : Char := if isprint ucTmp.toNat then Char.ofNat ucTmp.toNat else '.'

/-- One pass of the loop. -/
def putByte (s : Line) (ucTmp : UInt8) : Option Line := do
  let szBuf ← sprintfAt s.szBuf s.lIndex (printHex 2 ucTmp.toNat ++ [' '])
  let szBuf ← setAt szBuf s.lIndex2 (shown ucTmp)
  let lRelPos := s.lRelPos + 1
  if lRelPos &&& 3 = 0 then
    -- extra blank after 4 bytes
    let lIndex := s.lIndex + 1
    let szBuf ← setAt szBuf ((lIndex + 2 : Nat) : Int) ' '
    some ⟨szBuf, lIndex + 2, s.lIndex2 + 1, lRelPos⟩
  else some ⟨szBuf, s.lIndex + 2, s.lIndex2 + 1, lRelPos⟩

/-- A line: the buffer, and what is printed of it. -/
def dumpLine (szBuf : List Char) (relative : Nat) (bytes : List UInt8) :
    Option (List Char × List Char) := do
  let lIndent := 1
  let szBuf ← sprintfAt szBuf 0 (template relative)
  let s ← bytes.foldlM putByte ⟨szBuf, 1 + lIndent, 53 - 15 + lIndent, 0⟩
  let lIndex := if s.lRelPos &&& 3 = 0 then s.lIndex - 1 else s.lIndex
  let szBuf ← setAt s.szBuf lIndex '<'
  let szBuf ← setAt szBuf ((lIndex + 1 : Nat) : Int) ' '
  let line ← cString szBuf
  some (szBuf, line)

/-- The variables of the loop over the lines, and the lines that are printed. -/
structure Dump where
  szBuf : List Char
  relative : Nat
  rest : List UInt8
  lines : List (List Char)

/-- One pass of `while (buf.lSize > 0)`. -/
def dumpPass (s : Dump) : Option (Pass Dump (List (List Char))) :=
  if s.rest.length = 0 then some (.done s.lines)
  else
    let lOutLen := wrap32 s.rest.length
    let lOutLen := if lOutLen > 16 then 16 else lOutLen
    -- the loop that makes a line counts it down to 0
    if lOutLen < 0 then none
    else do
      let (szBuf, line) ← dumpLine s.szBuf s.relative (s.rest.take lOutLen.toNat)
      some (.next ⟨szBuf, s.relative + lOutLen.toNat, s.rest.drop lOutLen.toNat,
        s.lines ++ [line]⟩)

/-- `hexdump`: the lines.  `szBuf` is what the stack has where the buffer is. -/
def hexdump (fuel : Nat) (szBuf : List Char) (bytes : List UInt8) : Option (List (List Char)) :=
  loop dumpPass fuel ⟨szBuf, 0, bytes, []⟩

/-! ## What a line is -/

/-- The bytes from the `k`-th on, with a blank after each four. -/
def hexPart : Nat → List UInt8 → List Char
  | _, [] => []
  | k, b :: bs =>
      Hex.pad 2 b.toNat ++ (if (k + 1) % 4 = 0 then [' '] else []) ++ hexPart (k + 1) bs

/-- The blank after the last four is not there. -/
def hexShown (bytes : List UInt8) : List Char :=
  if bytes.length % 4 = 0 then (hexPart 0 bytes).dropLast else hexPart 0 bytes

/-- The line for these bytes. -/
def lineOf (relative : Nat) (bytes : List UInt8) : List Char :=
  " >".toList ++ hexShown bytes ++ '<' :: List.replicate (36 - (hexShown bytes).length) ' '
    ++ bytes.map shown ++ List.replicate (17 - bytes.length) ' ' ++ Hex.pad 8 relative

/-- The bytes that pairs of digits stand for. -/
def pairs : List Char → List UInt8
  | a :: b :: ds => UInt8.ofNat (Hex.read [a, b]) :: pairs ds
  | _ => []

/-- The bytes of a line: its digits stand before the `<`. -/
def undumpLine (line : List Char) : List UInt8 :=
  pairs (((line.drop 2).takeWhile fun c => c ≠ '<').filter fun c => c ≠ ' ')

def undump (lines : List (List Char)) : List UInt8 := lines.flatMap undumpLine

example : lineOf 16 [72, 105, 10, 0, 255]
    = " >48690A00 FF<                         Hi...            00000010".toList := by decide

/-! ## Making a line -/

theorem and_three (n : Nat) : n &&& 3 = n % 4 := Nat.and_two_pow_sub_one_eq_mod n 2

theorem printHex_eq {w v : Nat} (h : v < 16 ^ w) (hw : 0 < w) : printHex w v = Hex.pad w v := by
  have hlog : Nat.log 16 v < w := Nat.log_lt_of_lt_pow' (by omega) h
  rw [printHex, Nat.max_eq_left (by omega)]

theorem printHex_byte (b : UInt8) : printHex 2 b.toNat = Hex.pad 2 b.toNat :=
  printHex_eq (by have := b.toNat_lt; omega) (by decide)

/-- One byte more. -/
theorem hexPart_snoc (b : UInt8) : ∀ (bs : List UInt8) (k : Nat),
    hexPart k (bs ++ [b]) = hexPart k bs ++ Hex.pad 2 b.toNat
      ++ (if (k + bs.length + 1) % 4 = 0 then [' '] else []) := by
  intro bs
  induction bs with
  | nil =>
      intro k
      simp [hexPart]
  | cons c bs ih =>
      intro k
      have hk : k + 1 + bs.length = k + (bs.length + 1) := by omega
      rw [List.cons_append, hexPart, ih (k + 1), hexPart, List.length_cons, hk]
      simp only [List.append_assoc]

theorem length_hexPart : ∀ bs : List UInt8,
    (hexPart 0 bs).length = 2 * bs.length + bs.length / 4 := by
  intro bs
  induction bs using List.reverseRecOn with
  | nil => rfl
  | append_singleton bs b ih =>
      rw [hexPart_snoc, List.length_append, List.length_append, ih, Hex.length_pad,
        List.length_append, List.length_singleton, Nat.zero_add]
      split_ifs with h
      · rw [List.length_singleton]
        omega
      · rw [List.length_nil]
        omega

/-- The cells between the digits and the characters: blanks, but perhaps a NUL in the second
    place. -/
def gap (x : Char) (n : Nat) : List Char := (' ' :: x :: List.replicate 35 ' ').take n

theorem gap_two {x : Char} {n : Nat} (h : n + 2 ≤ 37) :
    gap x (n + 2) = ' ' :: x :: List.replicate n ' ' := by
  rw [gap, List.take_succ_cons, List.take_succ_cons, List.take_replicate,
    Nat.min_eq_left (by omega)]

theorem gap_blank {n : Nat} (h : n ≤ 37) : gap ' ' n = List.replicate n ' ' := by
  have hall : ' ' :: ' ' :: List.replicate 35 ' ' = List.replicate 37 ' ' := rfl
  rw [gap, hall, List.take_replicate, Nat.min_eq_left h]

/-- What stands behind the gap. -/
def behind (relative : Nat) (junk : List Char) (bs : List UInt8) : List Char :=
  bs.map shown ++ (List.replicate (17 - bs.length) ' ' ++ (Hex.pad 8 relative ++ nul :: junk))

/-- The buffer with the bytes `bs` in it. -/
structure Filled (relative : Nat) (junk : List Char) (bs : List UInt8) (s : Line) : Prop where
  szBuf : ∃ x, (bs.length % 4 = 0 → x = ' ') ∧ s.szBuf = " >".toList ++ hexPart 0 bs
    ++ (gap x (37 - (hexPart 0 bs).length) ++ behind relative junk bs)
  lIndex : s.lIndex = 2 + (hexPart 0 bs).length
  lIndex2 : s.lIndex2 = 39 + bs.length
  lRelPos : s.lRelPos = bs.length

/-- The first `sprintf`. -/
theorem filled_template {relative : Nat} (hrel : relative < 16 ^ 8) {szBuf : List Char}
    (hbuf : szBuf.length = 100) :
    ∃ szBuf' junk, sprintfAt szBuf 0 (template relative) = some szBuf' ∧ junk.length = 35
      ∧ Filled relative junk [] ⟨szBuf', 1 + 1, 53 - 15 + 1, 0⟩ := by
  have hlen : (template relative).length = 64 := by
    simp [template, printHex_eq hrel (by decide)]
  have hprint := sprintfAt_append [] szBuf (template relative) (by omega)
  rw [List.nil_append, List.nil_append, List.length_nil, hlen] at hprint
  refine ⟨_, szBuf.drop 65, hprint, by rw [List.length_drop]; omega, ⟨' ', fun _ => rfl, ?_⟩, rfl,
    rfl, rfl⟩
  have hblanks : List.replicate 54 ' ' = List.replicate 37 ' ' ++ List.replicate 17 ' ' := rfl
  rw [template, printHex_eq hrel (by decide), hblanks]
  simp [hexPart, behind, gap_blank]

/-- The digits of one byte more, with a NUL behind them, and its character. -/
theorem Filled.digits {relative : Nat} {junk : List Char} {bs : List UInt8} {s : Line}
    (h : Filled relative junk bs s) (hlen : bs.length < 16) (b : UInt8) :
    ∃ n szBuf', 37 - (hexPart 0 bs).length = n + 2 + 2
      ∧ sprintfAt s.szBuf s.lIndex (printHex 2 b.toNat ++ [' ']) = some szBuf'
      ∧ setAt szBuf' s.lIndex2 (shown b)
        = some ((" >".toList ++ hexPart 0 bs ++ Hex.pad 2 b.toNat ++ [' ']) ++ nul
          :: (List.replicate n ' ' ++ behind relative junk (bs ++ [b]))) := by
  obtain ⟨⟨x, -, hbuf⟩, hindex, hindex2, -⟩ := h
  have hpart := length_hexPart bs
  obtain ⟨n, hn⟩ : ∃ n, 37 - (hexPart 0 bs).length = n + 2 + 2 :=
    ⟨33 - (hexPart 0 bs).length, by omega⟩
  obtain ⟨k, hk⟩ : ∃ k, 17 - bs.length = k + 1 := ⟨16 - bs.length, by omega⟩
  have hgap : gap x (n + 2 + 2) = [' ', x, ' ', ' '] ++ List.replicate n ' ' := by
    rw [gap_two (by omega)]
    rfl
  -- the digits, with a NUL behind them
  have hprint : sprintfAt s.szBuf s.lIndex (printHex 2 b.toNat ++ [' '])
      = some ((" >".toList ++ hexPart 0 bs ++ Hex.pad 2 b.toNat ++ [' ', nul]
        ++ List.replicate n ' ' ++ bs.map shown) ++ ' ' :: (List.replicate k ' '
          ++ (Hex.pad 8 relative ++ nul :: junk))) := by
    have happend := sprintfAt_append (" >".toList ++ hexPart 0 bs)
      (gap x (n + 2 + 2) ++ behind relative junk bs) (Hex.pad 2 b.toNat ++ [' ']) (by simp [hgap])
    have hP : (" >".toList ++ hexPart 0 bs).length = s.lIndex := by
      rw [hindex, List.length_append]
      rfl
    rw [hP, ← hn, ← hbuf] at happend
    rw [printHex_byte, happend, hn, hgap, behind, hk, List.replicate_succ]
    simp
  -- the character
  have hset : setAt ((" >".toList ++ hexPart 0 bs ++ Hex.pad 2 b.toNat ++ [' ', nul]
      ++ List.replicate n ' ' ++ bs.map shown) ++ ' ' :: (List.replicate k ' '
        ++ (Hex.pad 8 relative ++ nul :: junk))) s.lIndex2 (shown b)
      = some ((" >".toList ++ hexPart 0 bs ++ Hex.pad 2 b.toNat ++ [' ']) ++ nul
        :: (List.replicate n ' ' ++ behind relative junk (bs ++ [b]))) := by
    have hlen2 : s.lIndex2 = (" >".toList ++ hexPart 0 bs ++ Hex.pad 2 b.toNat ++ [' ', nul]
        ++ List.replicate n ' ' ++ bs.map shown).length := by
      rw [hindex2]
      simp
      omega
    have hk' : 17 - (bs.length + 1) = k := by omega
    rw [hlen2, setAt_mid, behind, List.length_append, List.length_singleton, hk']
    simp
  exact ⟨n, _, hn, hprint, hset⟩

/-- **One byte more.** -/
theorem Filled.putByte {relative : Nat} {junk : List Char} {bs : List UInt8} {s : Line}
    (h : Filled relative junk bs s) (hlen : bs.length < 16) (b : UInt8) :
    ∃ s', Hexdump.putByte s b = some s' ∧ Filled relative junk (bs ++ [b]) s' := by
  obtain ⟨n, szBuf', hn, hprint, hset⟩ := h.digits hlen b
  obtain ⟨-, hindex, hindex2, hrel⟩ := h
  have hpart' := hexPart_snoc b bs 0
  rw [Nat.zero_add] at hpart'
  rw [Hexdump.putByte]
  simp only [hprint, Option.bind_eq_bind, Option.bind_some, hset, hrel, and_three]
  by_cases hfour : (bs.length + 1) % 4 = 0
  · -- a blank in the place of the NUL
    have hblank : setAt ((" >".toList ++ hexPart 0 bs ++ Hex.pad 2 b.toNat ++ [' ']) ++ nul
        :: (List.replicate n ' ' ++ behind relative junk (bs ++ [b])))
        ((s.lIndex + 1 + 2 : Nat) : Int) ' '
        = some ((" >".toList ++ hexPart 0 bs ++ Hex.pad 2 b.toNat ++ [' ']) ++ ' '
          :: (List.replicate n ' ' ++ behind relative junk (bs ++ [b]))) := by
      have hlen3 : s.lIndex + 1 + 2
          = (" >".toList ++ hexPart 0 bs ++ Hex.pad 2 b.toNat ++ [' ']).length := by
        rw [hindex]
        simp
        omega
      rw [hlen3, setAt_mid]
    rw [if_pos hfour] at hpart'
    have hlen' : 37 - (hexPart 0 (bs ++ [b])).length = n + 1 := by
      rw [hpart']
      simp
      omega
    rw [if_pos hfour, hblank, Option.bind_some]
    refine ⟨_, rfl, ⟨' ', fun _ => rfl, ?_⟩, ?_, ?_, ?_⟩
    · rw [hlen', hpart', gap_blank (by omega), List.replicate_succ]
      simp
    · rw [hpart', hindex]
      simp
      omega
    · show s.lIndex2 + 1 = _
      rw [hindex2, List.length_append, List.length_singleton]
      omega
    · rw [List.length_append, List.length_singleton]
  · rw [if_neg hfour, List.append_nil] at hpart'
    have hlen' : 37 - (hexPart 0 (bs ++ [b])).length = n + 2 := by
      rw [hpart']
      simp
      omega
    rw [if_neg hfour]
    refine ⟨_, rfl, ⟨nul, fun hmod => ?_, ?_⟩, ?_, ?_, ?_⟩
    · rw [List.length_append, List.length_singleton] at hmod
      exact absurd hmod hfour
    · rw [hlen', hpart', gap_two (by omega)]
      simp
    · rw [hpart', hindex]
      simp
      omega
    · show s.lIndex2 + 1 = _
      rw [hindex2, List.length_append, List.length_singleton]
      omega
    · rw [List.length_append, List.length_singleton]

/-- All bytes of a line. -/
theorem Filled.foldlM {relative : Nat} {junk : List Char} : ∀ {bs cs : List UInt8} {s : Line},
    Filled relative junk bs s → bs.length + cs.length ≤ 16 →
    ∃ s', cs.foldlM Hexdump.putByte s = some s' ∧ Filled relative junk (bs ++ cs) s' := by
  intro bs cs
  induction cs generalizing bs with
  | nil => exact fun {s} h _ => ⟨s, rfl, by rw [List.append_nil]; exact h⟩
  | cons c cs ih =>
      intro s h hlen
      rw [List.length_cons] at hlen
      obtain ⟨s', hput, h'⟩ := h.putByte (by omega) c
      obtain ⟨s'', hrest, h''⟩ := ih h' (by rw [List.length_append, List.length_singleton]; omega)
      refine ⟨s'', ?_, ?_⟩
      · rw [List.foldlM_cons, hput]
        exact hrest
      · rw [List.append_assoc, List.singleton_append] at h''
        exact h''

/-- The blank at the end of four. -/
theorem hexPart_dropLast {bs : List UInt8} (hne : bs ≠ []) (hfour : bs.length % 4 = 0) :
    (hexPart 0 bs).dropLast ++ [' '] = hexPart 0 bs := by
  rcases List.eq_nil_or_concat' bs with rfl | ⟨l, b, rfl⟩
  · exact absurd rfl hne
  · rw [List.length_append, List.length_singleton] at hfour
    rw [hexPart_snoc, Nat.zero_add, if_pos hfour, List.dropLast_concat]

/-- The cells where a line ends. -/
theorem Filled.ends {relative : Nat} {junk : List Char} {bs : List UInt8} {s : Line}
    (h : Filled relative junk bs s) (hne : bs ≠ []) (hlen : bs.length ≤ 16) :
    ∃ y n, 36 - (hexShown bs).length = n + 1
      ∧ (if s.lRelPos &&& 3 = 0 then s.lIndex - 1 else s.lIndex)
        = (" >".toList ++ hexShown bs).length
      ∧ s.szBuf = " >".toList ++ hexShown bs ++ ' ' :: y
        :: (List.replicate n ' ' ++ behind relative junk bs) := by
  obtain ⟨⟨x, hx, hbuf⟩, hindex, -, hrel⟩ := h
  have hpart := length_hexPart bs
  have hpos := List.length_pos_iff.mpr hne
  have htwo : (" >".toList ++ hexShown bs).length = 2 + (hexShown bs).length :=
    List.length_append
  rw [hrel, and_three, hindex, hbuf, htwo]
  by_cases hfour : bs.length % 4 = 0
  · obtain rfl := hx hfour
    have hshown : hexPart 0 bs = hexShown bs ++ [' '] := by
      rw [hexShown, if_pos hfour, hexPart_dropLast hne hfour]
    have hlast := congrArg List.length hshown
    rw [List.length_append, List.length_singleton] at hlast
    refine ⟨' ', 35 - (hexShown bs).length, by omega, ?_, ?_⟩
    · rw [if_pos hfour]
      omega
    · have hgap : 37 - (hexPart 0 bs).length = 35 - (hexShown bs).length + 1 := by omega
      rw [hgap, gap_blank (by omega), hshown, List.replicate_succ]
      simp
  · have hshown : hexShown bs = hexPart 0 bs := if_neg hfour
    refine ⟨x, 35 - (hexPart 0 bs).length, by rw [hshown]; omega, ?_, ?_⟩
    · rw [if_neg hfour, hshown]
    · have hgap : 37 - (hexPart 0 bs).length = 35 - (hexPart 0 bs).length + 2 := by omega
      rw [hgap, gap_two (by omega), hshown]
      rfl

/-- What may stand in a line. -/
theorem nul_notMem_hexPart : ∀ (bs : List UInt8) (k : Nat), nul ∉ hexPart k bs := by
  intro bs
  induction bs with
  | nil => exact fun _ => List.not_mem_nil
  | cons b bs ih =>
      intro k hmem
      rw [hexPart, List.mem_append, List.mem_append] at hmem
      rcases hmem with (hmem | hmem) | hmem
      · exact Hex.ne_of_mem_pad hmem (by decide) rfl
      · split_ifs at hmem
        · exact absurd (List.mem_singleton.mp hmem) (by decide)
        · exact absurd hmem List.not_mem_nil
      · exact ih _ hmem

theorem shown_ne_nul (b : UInt8) : shown b ≠ nul := by
  rw [shown]
  split_ifs with h
  · have hval : (Char.ofNat b.toNat).toNat = b.toNat := by
      have hle := h.2
      rw [Char.ofNat, dif_pos (Or.inl (by omega))]
      rfl
    intro heq
    have hge := h.1
    rw [heq] at hval
    rw [← hval] at hge
    exact absurd hge (by decide)
  · decide

theorem nul_notMem_lineOf (relative : Nat) (bs : List UInt8) : nul ∉ lineOf relative bs := by
  have hshown : nul ∉ hexShown bs := by
    rw [hexShown]
    split_ifs
    · exact fun hmem => nul_notMem_hexPart bs 0 (List.dropLast_subset _ hmem)
    · exact nul_notMem_hexPart bs 0
  have hmap : nul ∉ bs.map shown := by
    intro hmem
    obtain ⟨b, -, hb⟩ := List.mem_map.mp hmem
    exact shown_ne_nul b hb
  have hpad : nul ∉ Hex.pad 8 relative := fun hmem => Hex.ne_of_mem_pad hmem (by decide) rfl
  have hblank : ∀ n, nul ∉ List.replicate n ' ' := fun n hmem =>
    absurd (List.eq_of_mem_replicate hmem) (by decide)
  simp only [lineOf, List.mem_append, List.mem_cons, not_or]
  exact ⟨⟨⟨⟨⟨by decide, hshown⟩, by decide, hblank _⟩, hmap⟩, hblank _⟩, hpad⟩

theorem length_lineOf {bs : List UInt8} (hlen : bs.length ≤ 16) (relative : Nat) :
    (lineOf relative bs).length = 64 := by
  have hpart := length_hexPart bs
  have hshown : (hexShown bs).length ≤ 36 := by
    rw [hexShown]
    split_ifs
    · rw [List.length_dropLast]
      omega
    · omega
  simp [lineOf]
  omega

/-- **A line**: it is printed whole, and no cell outside the buffer is written. -/
theorem dumpLine_spec {relative : Nat} (hrel : relative < 16 ^ 8) {szBuf : List Char}
    (hbuf : szBuf.length = 100) {bs : List UInt8} (hne : bs ≠ []) (hlen : bs.length ≤ 16) :
    ∃ szBuf', szBuf'.length = 100 ∧
      dumpLine szBuf relative bs = some (szBuf', lineOf relative bs) := by
  obtain ⟨szBuf₁, junk, hprint, hjunk, h₀⟩ := filled_template hrel hbuf
  have hroom : ([] : List UInt8).length + bs.length ≤ 16 := by simpa using hlen
  obtain ⟨s, hfold, h⟩ := h₀.foldlM hroom
  rw [List.nil_append] at h
  obtain ⟨y, n, hn, hindex, hs⟩ := h.ends hne hlen
  have hline : " >".toList ++ hexShown bs ++ '<' :: ' ' :: (List.replicate n ' '
      ++ behind relative junk bs) = lineOf relative bs ++ nul :: junk := by
    rw [lineOf, hn, behind, List.replicate_succ]
    simp
  have hfirst : setAt s.szBuf
      ((if s.lRelPos &&& 3 = 0 then s.lIndex - 1 else s.lIndex : Nat) : Int) '<'
      = some (" >".toList ++ hexShown bs ++ '<' :: y
        :: (List.replicate n ' ' ++ behind relative junk bs)) := by
    rw [hindex, hs, setAt_mid]
  have hsecond : setAt (" >".toList ++ hexShown bs ++ '<' :: y
      :: (List.replicate n ' ' ++ behind relative junk bs))
      (((if s.lRelPos &&& 3 = 0 then s.lIndex - 1 else s.lIndex) + 1 : Nat) : Int) ' '
      = some (lineOf relative bs ++ nul :: junk) := by
    have hmid := setAt_mid (" >".toList ++ hexShown bs ++ ['<']) y ' '
      (List.replicate n ' ' ++ behind relative junk bs)
    rw [List.length_append, List.length_singleton, ← hindex] at hmid
    rw [← hline]
    simpa using hmid
  refine ⟨lineOf relative bs ++ nul :: junk, ?_, ?_⟩
  · rw [List.length_append, length_lineOf hlen, List.length_cons, hjunk]
  · rw [dumpLine]
    simp only [hprint, hfold, hfirst, hsecond, Option.bind_eq_bind, Option.bind_some,
      cString_append (nul_notMem_lineOf relative bs)]

/-! ## Reading a line -/

/-- The digits of a line, without the blanks. -/
def digitsOf (bs : List UInt8) : List Char := bs.flatMap fun b => Hex.pad 2 b.toNat

theorem filter_hexPart : ∀ (bs : List UInt8) (k : Nat),
    (hexPart k bs).filter (fun c => c ≠ ' ') = digitsOf bs := by
  intro bs
  induction bs with
  | nil => exact fun _ => rfl
  | cons b bs ih =>
      intro k
      have hdigits : (Hex.pad 2 b.toNat).filter (fun c => c ≠ ' ') = Hex.pad 2 b.toNat := by
        refine List.filter_eq_self.mpr fun c hc => decide_eq_true ?_
        exact Hex.ne_of_mem_pad hc (by decide)
      have hblank : (if (k + 1) % 4 = 0 then [' '] else []).filter (fun c => c ≠ ' ') = [] := by
        split_ifs <;> rfl
      rw [hexPart, List.filter_append, List.filter_append, hdigits, hblank, ih, List.append_nil]
      rfl

theorem filter_hexShown (bs : List UInt8) :
    (hexShown bs).filter (fun c => c ≠ ' ') = digitsOf bs := by
  rw [← filter_hexPart bs 0, hexShown]
  split_ifs with hfour
  · by_cases hne : bs = []
    · rw [hne]
      rfl
    · conv_rhs => rw [← hexPart_dropLast hne hfour, List.filter_append]
      rw [List.filter_cons_of_neg (by decide), List.filter_nil, List.append_nil]
  · rfl

theorem pairs_digitsOf : ∀ bs : List UInt8, pairs (digitsOf bs) = bs := by
  intro bs
  induction bs with
  | nil => rfl
  | cons b bs ih =>
      have hlt : b.toNat < 16 ^ 2 := b.toNat_lt
      obtain ⟨x, y, hxy⟩ := List.length_eq_two.mp (Hex.length_pad 2 b.toNat)
      have hread := Hex.read_pad hlt
      rw [hxy] at hread
      rw [digitsOf, List.flatMap_cons, hxy]
      show UInt8.ofNat (Hex.read [x, y]) :: pairs (digitsOf bs) = b :: bs
      rw [hread, ih, UInt8.ofNat_toNat]

theorem bracket_notMem_hexShown (bs : List UInt8) : '<' ∉ hexShown bs := by
  have hpart : ∀ (bs : List UInt8) (k : Nat), '<' ∉ hexPart k bs := by
    intro bs
    induction bs with
    | nil => exact fun _ => List.not_mem_nil
    | cons b bs ih =>
        intro k hmem
        rw [hexPart, List.mem_append, List.mem_append] at hmem
        rcases hmem with (hmem | hmem) | hmem
        · exact Hex.ne_of_mem_pad hmem (by decide) rfl
        · split_ifs at hmem
          · exact absurd (List.mem_singleton.mp hmem) (by decide)
          · exact absurd hmem List.not_mem_nil
        · exact ih _ hmem
  rw [hexShown]
  split_ifs
  · exact fun hmem => hpart bs 0 (List.dropLast_subset _ hmem)
  · exact hpart bs 0

/-- **The bytes of a line.** -/
theorem undumpLine_lineOf (relative : Nat) (bs : List UInt8) :
    undumpLine (lineOf relative bs) = bs := by
  have hdrop : (lineOf relative bs).drop 2 = hexShown bs ++ '<'
      :: (List.replicate (36 - (hexShown bs).length) ' ' ++ bs.map shown
        ++ List.replicate (17 - bs.length) ' ' ++ Hex.pad 8 relative) := by
    have htwo : (" >".toList : List Char) = [' ', '>'] := rfl
    rw [lineOf, htwo]
    simp
  rw [undumpLine, hdrop, takeWhile_first (bracket_notMem_hexShown bs), filter_hexShown,
    pairs_digitsOf]

/-! ## The dump -/

/-- Between two lines: the bytes before `relative` are on the lines. -/
structure Dumped (bytes : List UInt8) (s : Dump) : Prop where
  szBuf : s.szBuf.length = 100
  split : undump s.lines ++ s.rest = bytes
  relative : s.relative + s.rest.length = bytes.length
  lines : ∀ line ∈ s.lines, line.length = 64 ∧ nul ∉ line

/-- **One pass** of the loop over the lines. -/
theorem Dumped.pass {bytes : List UInt8} (hbytes : (bytes.length : Int) ≤ intMax) {s : Dump}
    (h : Dumped bytes s) :
    (dumpPass s = some (.done s.lines) ∧ undump s.lines = bytes) ∨
    ∃ s', dumpPass s = some (.next s') ∧ s'.rest.length < s.rest.length ∧ Dumped bytes s' := by
  have hsplit := h.split
  have hrelative := h.relative
  by_cases hzero : s.rest.length = 0
  · left
    refine ⟨if_pos hzero, ?_⟩
    rwa [List.length_eq_zero_iff.mp hzero, List.append_nil] at hsplit
  · right
    have hwrap : wrap32 s.rest.length = s.rest.length :=
      wrap32_eq (by omega) (by omega)
    obtain ⟨k, hk, hk16, hkpos⟩ : ∃ k : Nat, (if (s.rest.length : Int) > 16 then 16
        else (s.rest.length : Int)) = k ∧ k ≤ 16 ∧ 0 < k := by
      split_ifs with hlong
      · exact ⟨16, rfl, Nat.le_refl 16, by decide⟩
      · exact ⟨s.rest.length, rfl, by omega, by omega⟩
    have hkrest : k ≤ s.rest.length := by
      split_ifs at hk <;> omega
    have hlen : (s.rest.take k).length = k := List.length_take_of_le hkrest
    have hrel : s.relative < 16 ^ 8 := by
      rw [intMax] at hbytes
      omega
    obtain ⟨szBuf', hszBuf', hline⟩ := dumpLine_spec hrel h.szBuf
      (List.length_pos_iff.mp (by omega : 0 < (s.rest.take k).length)) (by omega)
    refine ⟨⟨szBuf', s.relative + k, s.rest.drop k,
      s.lines ++ [lineOf s.relative (s.rest.take k)]⟩, ?_, ?_, hszBuf', ?_, ?_, ?_⟩
    · rw [dumpPass, if_neg hzero]
      simp only [hwrap, hk, Int.toNat_natCast, hline, Option.bind_eq_bind, Option.bind_some]
      exact if_neg (by omega)
    · rw [List.length_drop]
      omega
    · rw [undump, List.flatMap_append, List.flatMap_singleton, undumpLine_lineOf, List.append_assoc,
        List.take_append_drop]
      exact hsplit
    · rw [List.length_drop]
      show s.relative + k + _ = _
      omega
    · intro line hmem
      rcases List.mem_append.mp hmem with hmem | hmem
      · exact h.lines line hmem
      · rw [List.mem_singleton.mp hmem]
        exact ⟨length_lineOf (by omega) _, nul_notMem_lineOf _ _⟩

/-- **`hexdump`.**  For less than 2^31 bytes it comes to its end without leaving its buffer, each
    line it prints has 64 characters, and the bytes can be read off the lines. -/
theorem hexdump_round_trip (bytes : List UInt8) (hbytes : (bytes.length : Int) ≤ intMax)
    (szBuf : List Char) (hszBuf : szBuf.length = 100) :
    ∃ lines, (undump lines = bytes ∧ ∀ line ∈ lines, line.length = 64 ∧ nul ∉ line)
      ∧ ∀ fuel, bytes.length < fuel → hexdump fuel szBuf bytes = some lines := by
  refine @loop_total _ _ dumpPass (fun n s => s.rest.length = n ∧ Dumped bytes s) _ ?_ _
    ⟨szBuf, 0, bytes, []⟩ ⟨rfl, hszBuf, rfl, Nat.zero_add _, fun _ h => absurd h List.not_mem_nil⟩
  rintro n s ⟨rfl, hs⟩
  rcases hs.pass hbytes with ⟨hdone, hall⟩ | ⟨s', hnext, hlt, hs'⟩
  · exact Or.inl ⟨s.lines, hdone, hall, hs.lines⟩
  · exact Or.inr ⟨s', _, hnext, hlt, rfl, hs'⟩

theorem hexdump_round_trip_five : ∃ lines, (undump lines = [72, 105, 10, 0, 255]
    ∧ ∀ line ∈ lines, line.length = 64 ∧ nul ∉ line)
      ∧ ∀ fuel, 5 < fuel →
        hexdump fuel (List.replicate 100 '?') [72, 105, 10, 0, 255] = some lines :=
  hexdump_round_trip [72, 105, 10, 0, 255] (by decide) (List.replicate 100 '?') rfl

end Hexdump
