import CppTest.PrintProofs

/-! # Replacing a character by a string (`replace_char_to_str`, `src/algs/jzoffer/test_string.cpp`)

    The function copies the pieces between the occurrences of `c` by `memcpy`, to the place
    where the text so far ends, but the replacements by `strcat`, to the first NUL from
    there on.  Nothing has written a NUL there.

    * What the buffer should hold (`replaced`), and what the loop leaves in it
      (`written`): behind every piece, what stood in the buffer up to its NUL.
    * The loop on every buffer: `replaceLoop_spec`.
    * When the text comes out right (`Clears`): at every occurrence what stands before the
      NUL, followed by the replacement, begins with the replacement.
    * The result: `replace_law_iff`.  A buffer of NULs is always good (`clears_zeroed`). -/

namespace Replace

open Machine Print

/-! ## The model -/

/-- Copy the piece from `p` to `q` to the end of the text, if it is not empty.  `some none` is
    a piece that does not fit. -/
def copyPiece (len : Nat) (piece buf : List Char) (n : Nat) : Option (Option (List Char × Nat)) :=
  if 0 < piece.length then
    if n + piece.length > len - 1 then some none
    else do
      let buf ← memcpyAt buf n piece
      some (some (buf, n + piece.length))
  else some (some (buf, n))

/-- The loop, with `q` at the first of the given characters and the piece from `p` to `q`.
    The result says whether `buf` is returned, and what it holds then. -/
def replaceLoop (c : Char) (r : List Char) (len : Nat) :
    List Char → List Char → List Char → Nat → Option (Bool × List Char)
  | [], piece, buf, n => do
      match ← copyPiece len piece buf n with
      | none => some (false, buf)
      | some (buf, n) => some (true, ← setAt buf n nul)
  | a :: rest, piece, buf, n =>
      if a = c then do
        match ← copyPiece len piece buf n with
        | none => some (false, buf)
        | some (buf, n) =>
            if n + r.length > len - 1 then some (false, buf)
            else replaceLoop c r len rest [] (← strcatAt buf n r) (n + r.length)
      else replaceLoop c r len rest (piece ++ [a]) buf n

/-- `replace_char_to_str`, with `len` the size of the buffer.  `none` is a null pointer;
    `strlen(str)` comes before it is looked at. -/
def replaceCharToStr (str : Option (List Char)) (c : Char) (r buf : Option (List Char)) :
    Option (Bool × List Char) :=
  match str, r, buf with
  | none, _, _ => none
  | some str, some r, some buf =>
      if str ≠ [] ∧ r ≠ [] ∧ 0 < buf.length then replaceLoop c r buf.length str [] buf 0
      else some (false, buf)
  | some _, _, buf => some (false, buf.getD [])

/-! ## What the buffer should hold, and what it holds -/

/-- Every occurrence of the character replaced. -/
def replaced (c : Char) (r str : List Char) : List Char :=
  str.flatMap fun a => if a = c then r else [a]

/-- The cells from the end of the text on, after a `strcat` that did not leave them. -/
def catCells (r room : List Char) : List Char :=
  beforeNul room ++ r ++ nul :: room.drop ((beforeNul room).length + r.length + 1)

/-- What the buffer holds from the end of the text on, when the characters that are left have
    been read. -/
def written (c : Char) (r : List Char) : List Char → List Char → List Char
  | [], _ => []
  | a :: str, room =>
      if a = c then
        (catCells r room).take r.length ++ written c r str ((catCells r room).drop r.length)
      else a :: written c r str room.tail

/-- At every occurrence that passes the test for room, the replacement ends inside the
    buffer; and if the `whole` text is wanted, what stands before the NUL followed by the
    replacement begins with the replacement. -/
def Clears (c : Char) (r : List Char) (whole : Prop) : List Char → List Char → Prop
  | [], _ => True
  | a :: str, room =>
      if a = c then
        r.length < room.length →
          (beforeNul room).length + r.length < room.length
          ∧ (whole → r <+: beforeNul room ++ r)
          ∧ Clears c r whole str ((catCells r room).drop r.length)
      else Clears c r whole str room.tail

theorem replaced_cons_same (c : Char) (r str : List Char) :
    replaced c r (c :: str) = r ++ replaced c r str := by
  rw [replaced, List.flatMap_cons, if_pos rfl]
  rfl

theorem replaced_cons_ne {a c : Char} (h : a ≠ c) (r str : List Char) :
    replaced c r (a :: str) = a :: replaced c r str := by
  rw [replaced, List.flatMap_cons, if_neg h]
  rfl

theorem length_catCells {r room : List Char}
    (h : (beforeNul room).length + r.length < room.length) :
    (catCells r room).length = room.length := by
  simp only [catCells, List.length_append, List.length_cons, List.length_drop]
  omega

/-- The first characters of the cells are those of the old text and the replacement. -/
theorem take_catCells (r room : List Char) :
    (catCells r room).take r.length = (beforeNul room ++ r).take r.length := by
  rw [catCells, List.take_append_of_le_length]
  rw [List.length_append]
  omega

/-! ## The loop -/

theorem copyPiece_fits {len : Nat} {piece T room : List Char} (hlen : T.length + room.length = len)
    (h : piece.length < room.length) :
    copyPiece len piece (T ++ room) T.length
      = some (some (T ++ piece ++ room.drop piece.length, (T ++ piece).length)) := by
  rw [copyPiece]
  by_cases hpos : 0 < piece.length
  · rw [if_pos hpos, if_neg (by omega), memcpyAt_append _ _ _ (by omega), List.length_append]
    rfl
  · obtain rfl : piece = [] := List.length_eq_zero_iff.mp (by omega)
    rw [if_neg hpos, List.append_nil]
    rfl

theorem copyPiece_fails {len : Nat} {piece T room : List Char}
    (hlen : T.length + room.length = len) (hpos : 0 < room.length)
    (h : room.length ≤ piece.length) : copyPiece len piece (T ++ room) T.length = some none := by
  rw [copyPiece, if_pos (by omega), if_pos (by omega)]

/-- What the loop does from a state in which `T` is the text so far: the result of `written`
    where everything fits, `0` where it does not, and a fault where a `strcat` leaves the
    buffer. -/
structure Outcome (c : Char) (r : List Char) (len : Nat) (rest piece T room : List Char) :
    Prop where
  fits : Clears c r False rest (room.drop piece.length) →
    piece.length + (replaced c r rest).length < room.length →
    ∃ tail, replaceLoop c r len rest piece (T ++ room) T.length
        = some (true, T ++ piece ++ written c r rest (room.drop piece.length) ++ nul :: tail)
      ∧ (T ++ piece ++ written c r rest (room.drop piece.length) ++ nul :: tail).length = len
  fails : Clears c r False rest (room.drop piece.length) →
    room.length ≤ piece.length + (replaced c r rest).length →
    ∃ buf, replaceLoop c r len rest piece (T ++ room) T.length = some (false, buf)
  leaves : ¬ Clears c r False rest (room.drop piece.length) →
    replaceLoop c r len rest piece (T ++ room) T.length = none

/-- The end of the string: the last piece is copied, and the NUL set behind it. -/
theorem outcome_nil {c : Char} {r : List Char} {len : Nat} {piece T room : List Char}
    (hlen : T.length + room.length = len) (hpos : 0 < room.length) :
    Outcome c r len [] piece T room := by
  refine ⟨?_, ?_, fun h => absurd trivial h⟩
  · intro _ hfits
    replace hfits : piece.length < room.length := hfits
    obtain ⟨x, tail, htail⟩ := List.exists_cons_of_length_pos
      (l := room.drop piece.length) (by rw [List.length_drop]; omega)
    refine ⟨tail, ?_, ?_⟩
    · rw [replaceLoop, copyPiece_fits hlen hfits, htail]
      simp only [Option.bind_eq_bind, Option.bind_some, written, List.append_nil]
      rw [setAt_mid]
      rfl
    · have hsize := congrArg List.length htail
      rw [List.length_drop, List.length_cons] at hsize
      simp only [written, List.length_append, List.length_cons, List.length_nil]
      omega
  · intro _ hfails
    refine ⟨T ++ room, ?_⟩
    rw [replaceLoop, copyPiece_fails hlen hpos hfails]
    rfl

/-- An occurrence behind a piece that fits. -/
theorem replaceLoop_same {c : Char} {r : List Char} {len : Nat} {rest piece T room : List Char}
    (hlen : T.length + room.length = len) (h : piece.length < room.length) :
    replaceLoop c r len (c :: rest) piece (T ++ room) T.length
      = if (room.drop piece.length).length ≤ r.length then
          some (false, T ++ piece ++ room.drop piece.length)
        else (strcatAt (T ++ piece ++ room.drop piece.length) (T ++ piece).length r).bind
          fun buf => replaceLoop c r len rest [] buf ((T ++ piece).length + r.length) := by
  rw [replaceLoop, if_pos rfl, copyPiece_fits hlen h]
  simp only [Option.bind_eq_bind, Option.bind_some]
  refine if_congr ?_ rfl rfl
  rw [List.length_append, List.length_drop]
  omega

theorem clears_same {c : Char} {r : List Char} {whole : Prop} {rest room : List Char} :
    Clears c r whole (c :: rest) room ↔ (r.length < room.length →
      (beforeNul room).length + r.length < room.length ∧ (whole → r <+: beforeNul room ++ r)
      ∧ Clears c r whole rest ((catCells r room).drop r.length)) := by
  rw [Clears, if_pos rfl]

/-- An occurrence for which there is no room: `0`. -/
theorem outcome_full {c : Char} {r : List Char} {len : Nat} {rest piece T room : List Char}
    (hlen : T.length + room.length = len) (hpos : 0 < room.length)
    (hfull : (room.drop piece.length).length ≤ r.length) :
    Outcome c r len (c :: rest) piece T room := by
  have hclears : Clears c r False (c :: rest) (room.drop piece.length) :=
    clears_same.mpr fun hlt => absurd hlt (by omega)
  have hsize := List.length_drop (i := piece.length) (l := room)
  have htext : (replaced c r (c :: rest)).length = r.length + (replaced c r rest).length := by
    rw [replaced_cons_same, List.length_append]
  refine ⟨fun _ hfits => absurd hfits (by omega), ?_, fun h => absurd hclears h⟩
  intro _ _
  by_cases hpiece : piece.length < room.length
  · rw [replaceLoop_same hlen hpiece, if_pos hfull]
    exact ⟨_, rfl⟩
  · refine ⟨T ++ room, ?_⟩
    rw [replaceLoop, if_pos rfl, copyPiece_fails hlen hpos (by omega)]
    rfl

/-- An occurrence for which there is room: what the `strcat` leaves is taken over by the rest
    of the loop. -/
theorem Outcome.same {c : Char} {r : List Char} {len : Nat} {rest piece T room : List Char}
    (ih : ∀ T' room' : List Char, T'.length + room'.length = len → 0 < room'.length →
      Outcome c r len rest [] T' room')
    (hlen : T.length + room.length = len) (hroom : r.length < (room.drop piece.length).length) :
    Outcome c r len (c :: rest) piece T room := by
  have hsize := List.length_drop (i := piece.length) (l := room)
  have hpiece : piece.length < room.length := by omega
  have hloop := @replaceLoop_same c r len rest piece T room hlen hpiece
  rw [if_neg (by omega)] at hloop
  generalize hcells : room.drop piece.length = cells at *
  -- whether the text behind what stands in the buffer, up to its NUL, is inside it
  by_cases hin : (beforeNul cells).length + r.length < cells.length
  · have hcat := length_catCells hin
    have hT : (T ++ piece ++ (catCells r cells).take r.length).length
        = (T ++ piece).length + r.length := by
      rw [List.length_append, List.length_take]
      omega
    -- `n` grows by `rlen` wherever the `strcat` wrote, so its first `rlen` cells are text now
    have hrun : replaceLoop c r len (c :: rest) piece (T ++ room) T.length
        = replaceLoop c r len rest [] (T ++ piece ++ (catCells r cells).take r.length
          ++ (catCells r cells).drop r.length)
          (T ++ piece ++ (catCells r cells).take r.length).length := by
      rw [hloop, strcatAt_append _ _ _ hin, ← catCells, Option.bind_some, hT,
        List.append_assoc (T ++ piece), List.take_append_drop]
    have hdrop : ((catCells r cells).drop r.length).length = cells.length - r.length := by
      rw [List.length_drop, hcat]
    obtain ⟨hfits, hfails, hleaves⟩ := ih (T ++ piece ++ (catCells r cells).take r.length)
      ((catCells r cells).drop r.length) (by rw [hT, hdrop, List.length_append]; omega) (by omega)
    rw [← hrun, List.length_nil, List.drop_zero, hdrop] at hfits hfails
    rw [← hrun, List.length_nil, List.drop_zero] at hleaves
    have htext : (replaced c r (c :: rest)).length = r.length + (replaced c r rest).length := by
      rw [replaced_cons_same, List.length_append]
    have hiff : Clears c r False (c :: rest) cells
        ↔ Clears c r False rest ((catCells r cells).drop r.length) := by
      rw [clears_same]
      exact ⟨fun h => (h hroom).2.2, fun h _ => ⟨hin, fun hf => absurd hf not_false, h⟩⟩
    refine ⟨?_, ?_, ?_⟩
    · rw [hcells, hiff]
      intro hc hlt
      obtain ⟨tail, heq, hl⟩ := hfits hc (by omega)
      refine ⟨tail, ?_, ?_⟩
      · rw [heq, written, if_pos rfl]
        simp only [List.append_nil, List.append_assoc]
      · rw [written, if_pos rfl]
        simpa only [List.append_nil, List.append_assoc] using hl
    · rw [hcells, hiff]
      exact fun hc hle => hfails hc (by omega)
    · rw [hcells, hiff]
      exact hleaves
  · have hnot : ¬ Clears c r False (c :: rest) cells := fun h => hin (clears_same.mp h hroom).1
    refine ⟨fun h => absurd (hcells ▸ h) hnot, fun h => absurd (hcells ▸ h) hnot, fun _ => ?_⟩
    rw [hloop, strcatAt_outside _ _ _ (by omega)]
    rfl

/-- Another character joins the piece. -/
theorem Outcome.other {c a : Char} {r : List Char} {len : Nat} {rest piece T room : List Char}
    (hne : a ≠ c) (ih : Outcome c r len rest (piece ++ [a]) T room) :
    Outcome c r len (a :: rest) piece T room := by
  obtain ⟨hfits, hfails, hleaves⟩ := ih
  have hcells : room.drop (piece ++ [a]).length = (room.drop piece.length).tail := by
    rw [List.length_append, List.length_singleton, ← List.drop_one, List.drop_drop]
  have htext : (replaced c r (a :: rest)).length = (replaced c r rest).length + 1 := by
    rw [replaced_cons_ne hne, List.length_cons]
  have hlen : (piece ++ [a]).length = piece.length + 1 := by
    rw [List.length_append, List.length_singleton]
  have hrun : replaceLoop c r len (a :: rest) piece (T ++ room) T.length
      = replaceLoop c r len rest (piece ++ [a]) (T ++ room) T.length := by
    rw [replaceLoop, if_neg hne]
  rw [hcells, hlen, ← hrun] at hfits hfails
  rw [hcells, ← hrun] at hleaves
  have hiff : Clears c r False (a :: rest) (room.drop piece.length)
      ↔ Clears c r False rest (room.drop piece.length).tail := by
    rw [Clears, if_neg hne]
  refine ⟨?_, ?_, ?_⟩
  · rw [hiff, htext, written, if_neg hne]
    intro hc hlt
    obtain ⟨tail, heq, hl⟩ := hfits hc (by omega)
    refine ⟨tail, ?_, ?_⟩
    · rw [heq]
      simp only [List.append_assoc, List.cons_append, List.nil_append]
    · simpa only [List.append_assoc, List.cons_append, List.nil_append] using hl
  · rw [hiff, htext]
    exact fun hc hle => hfails hc (by omega)
  · rw [hiff]
    exact hleaves

/-- **The loop on every buffer**, by induction on the characters that are left. -/
theorem replaceLoop_spec (c : Char) (r : List Char) (len : Nat) :
    ∀ rest piece T room : List Char, T.length + room.length = len → 0 < room.length →
      Outcome c r len rest piece T room := by
  intro rest
  induction rest with
  | nil => exact fun piece T room hlen hpos => outcome_nil hlen hpos
  | cons a rest ih =>
      intro piece T room hlen hpos
      by_cases hac : a = c
      · subst hac
        rcases Nat.lt_or_ge r.length (room.drop piece.length).length with hroom | hfull
        · exact Outcome.same (ih []) hlen hroom
        · exact outcome_full hlen hpos hfull
      · exact Outcome.other hac (ih (piece ++ [a]) T room hlen hpos)

/-! ## When the text is right -/

theorem length_written {c : Char} {r : List Char} : ∀ {str room : List Char},
    Clears c r False str room → (replaced c r str).length < room.length →
    (written c r str room).length = (replaced c r str).length := by
  intro str
  induction str with
  | nil => exact fun _ _ => rfl
  | cons a str ih =>
      intro room hclears hfits
      by_cases hac : a = c
      · subst hac
        rw [replaced_cons_same, List.length_append] at hfits ⊢
        obtain ⟨hin, -, hrest⟩ := clears_same.mp hclears (by omega)
        have hcat := length_catCells hin
        rw [written, if_pos rfl, List.length_append, ih hrest (by rw [List.length_drop]; omega),
          List.length_take]
        omega
      · rw [replaced_cons_ne hac, List.length_cons] at hfits ⊢
        rw [Clears, if_neg hac] at hclears
        rw [written, if_neg hac, List.length_cons, ih hclears (by rw [List.length_tail]; omega)]

/-- **The text is right** exactly if it is at every occurrence. -/
theorem written_eq_iff {c : Char} {r : List Char} : ∀ {str room : List Char},
    (replaced c r str).length < room.length →
    (Clears c r False str room ∧ written c r str room = replaced c r str
      ↔ Clears c r True str room) := by
  intro str
  induction str with
  | nil => exact fun _ => ⟨fun _ => trivial, fun _ => ⟨trivial, rfl⟩⟩
  | cons a str ih =>
      intro room hfits
      by_cases hac : a = c
      · subst hac
        rw [replaced_cons_same, List.length_append] at hfits
        have hroom : r.length < room.length := by omega
        rw [clears_same, clears_same, written, if_pos rfl, replaced_cons_same]
        constructor
        · rintro ⟨hclears, htext⟩ -
          obtain ⟨hin, -, hrest⟩ := hclears hroom
          have hcat := length_catCells hin
          have htake : ((catCells r room).take r.length).length = r.length := by
            rw [List.length_take]
            omega
          obtain ⟨hhead, htail⟩ := List.append_inj htext htake
          rw [take_catCells] at hhead
          refine ⟨hin, fun _ => List.prefix_iff_eq_take.mpr hhead.symm, ?_⟩
          exact (ih (by rw [List.length_drop]; omega)).mp ⟨hrest, htail⟩
        · intro hclears
          obtain ⟨hin, hpre, hrest⟩ := hclears hroom
          have hcat := length_catCells hin
          obtain ⟨hrest', htail⟩ := (ih (by rw [List.length_drop]; omega)).mpr hrest
          refine ⟨fun _ => ⟨hin, fun hf => absurd hf not_false, hrest'⟩, ?_⟩
          rw [htail, take_catCells, ← List.prefix_iff_eq_take.mp (hpre trivial)]
      · rw [replaced_cons_ne hac, List.length_cons] at hfits
        rw [Clears, Clears, if_neg hac, if_neg hac, written, if_neg hac, replaced_cons_ne hac,
          List.cons.injEq, eq_self, true_and]
        exact ih (by rw [List.length_tail]; omega)

/-! ## The result -/

/-- What the function is for: `buf` with every occurrence replaced if that fits, else `0`. -/
def ReplaceLaw (str : List Char) (c : Char) (r buf : List Char) : Prop :=
  if (replaced c r str).length < buf.length then
    ∃ buf', replaceCharToStr (some str) c (some r) (some buf) = some (true, buf')
      ∧ buf'.length = buf.length ∧ cString buf' = some (replaced c r str)
  else ∃ buf', replaceCharToStr (some str) c (some r) (some buf) = some (false, buf')

theorem nul_notMem_replaced {c : Char} {r str : List Char} (hr : nul ∉ r) (hstr : nul ∉ str) :
    nul ∉ replaced c r str := by
  intro hmem
  obtain ⟨a, ha, hin⟩ := List.mem_flatMap.mp hmem
  split at hin
  · exact hr hin
  · rw [List.mem_singleton] at hin
    exact hstr (hin ▸ ha)

/-- Nothing is written to a buffer without cells. -/
theorem clears_nil (c : Char) (r : List Char) (whole : Prop) :
    ∀ str : List Char, Clears c r whole str [] := by
  intro str
  induction str with
  | nil => trivial
  | cons a str ih =>
      rw [Clears]
      split
      · exact fun hlt => absurd hlt (Nat.not_lt_zero _)
      · exact ih

/-- The string in the buffer is as long as the text only if it is the text. -/
theorem eq_of_cString {text rest s : List Char} (h : cString (text ++ nul :: rest) = some s)
    (hlen : text.length = s.length) : text = s := by
  rw [cString, if_pos (by simp)] at h
  have hpre : s <+: text ++ nul :: rest := Option.some.inj h ▸ List.takeWhile_prefix _
  rw [List.prefix_iff_eq_take.mp hpre, ← hlen, List.take_left]

/-- **Replacing** does what it should exactly if, at every occurrence of the character that
    passes the test for room, the replacement behind the next NUL still ends in the buffer,
    and, where the whole text fits, what stands before that NUL and then the replacement
    begins with the replacement. -/
theorem replace_law_iff {str r : List Char} (c : Char) (hstr : str ≠ []) (hr : r ≠ [])
    (hnul : nul ∉ str) (hrnul : nul ∉ r) (buf : List Char) :
    ReplaceLaw str c r buf ↔ Clears c r ((replaced c r str).length < buf.length) str buf := by
  rcases Nat.eq_zero_or_pos buf.length with hzero | hpos
  · obtain rfl : buf = [] := List.length_eq_zero_iff.mp hzero
    refine ⟨fun _ => clears_nil c r _ str, fun _ => ?_⟩
    rw [ReplaceLaw, if_neg (List.length_nil ▸ Nat.not_lt_zero _)]
    exact ⟨[], if_neg fun h => Nat.lt_irrefl 0 h.2.2⟩
  · obtain ⟨hfits, hfails, hleaves⟩ :=
      replaceLoop_spec c r buf.length str [] [] buf (Nat.zero_add _) hpos
    have hrun : replaceCharToStr (some str) c (some r) (some buf)
        = replaceLoop c r buf.length str [] ([] ++ buf) ([] : List Char).length :=
      if_pos ⟨hstr, hr, hpos⟩
    rw [← hrun, List.length_nil, List.drop_zero, Nat.zero_add] at hfits hfails
    rw [← hrun, List.length_nil, List.drop_zero] at hleaves
    by_cases hroom : (replaced c r str).length < buf.length
    · rw [ReplaceLaw, if_pos hroom, eq_true hroom, ← written_eq_iff hroom]
      constructor
      · rintro ⟨buf', hbuf', -, hstring⟩
        have hclears : Clears c r False str buf := by
          by_contra hnot
          rw [hleaves hnot] at hbuf'
          exact absurd hbuf'.symm (Option.some_ne_none _)
        obtain ⟨tail, htext, -⟩ := hfits hclears hroom
        rw [htext, Option.some.injEq, Prod.mk.injEq] at hbuf'
        obtain rfl := hbuf'.2
        exact ⟨hclears, eq_of_cString hstring (length_written hclears hroom)⟩
      · rintro ⟨hclears, htext⟩
        obtain ⟨tail, hbuf, hlen⟩ := hfits hclears hroom
        refine ⟨_, hbuf, hlen, ?_⟩
        rw [htext]
        exact cString_append (nul_notMem_replaced hrnul hnul) tail
    · rw [ReplaceLaw, if_neg hroom, eq_false hroom]
      constructor
      · rintro ⟨buf', hbuf'⟩
        by_contra hnot
        rw [hleaves hnot] at hbuf'
        exact absurd hbuf'.symm (Option.some_ne_none _)
      · exact fun hclears => hfails hclears (by omega)

/-- **A buffer of NULs** is good for every string: each replacement is written where the text
    ends. -/
theorem clears_zeroed (c : Char) (r : List Char) (whole : Prop) :
    ∀ (str : List Char) (k : Nat), Clears c r whole str (List.replicate k nul) := by
  intro str
  induction str with
  | nil => exact fun _ => trivial
  | cons a str ih =>
      intro k
      by_cases hac : a = c
      · subst hac
        refine clears_same.mpr fun hroom => ?_
        rw [List.length_replicate] at hroom
        obtain ⟨j, rfl⟩ : ∃ j, k = r.length + (j + 1) := ⟨k - r.length - 1, by omega⟩
        have hnone : beforeNul (List.replicate (r.length + (j + 1)) nul) = [] := by
          rw [← Nat.add_assoc, List.replicate_succ]
          exact List.takeWhile_cons_of_neg (by simp)
        have hcells : (catCells r (List.replicate (r.length + (j + 1)) nul)).drop r.length
            = List.replicate (j + 1) nul := by
          rw [catCells, hnone, List.nil_append, List.drop_left, List.drop_replicate,
            List.length_nil, Nat.zero_add, List.replicate_succ]
          congr 2
          omega
        rw [hnone, hcells, List.length_nil, Nat.zero_add, List.length_replicate]
        exact ⟨hroom, fun _ => List.prefix_rfl, ih (j + 1)⟩
      · rw [Clears, if_neg hac, List.tail_replicate]
        exact ih (k - 1)

theorem replace_law_spaces :
    ReplaceLaw ['a', ' ', ' ', 'b'] ' ' ['%', '2', '0'] (List.replicate 9 nul) :=
  (replace_law_iff ' ' (List.cons_ne_nil _ _) (List.cons_ne_nil _ _) (by decide) (by decide)
    (List.replicate 9 nul)).mpr (clears_zeroed ' ' _ _ _ 9)

/-- A buffer that is not cleared: `strcat` finds no NUL in it; or it finds one too late, and
    the replacement is not where it belongs. -/
theorem replace_law_uncleared :
    replaceCharToStr (some ['a', ' ', 'b']) ' ' (some ['%', '2', '0'])
        (some (List.replicate 8 '.')) = none
    ∧ (replaceCharToStr (some ['a', ' ', 'b']) ' ' (some ['-'])
        (some ['.', '.', nul, '.', '.', '.'])).bind (fun p => cString p.2) = some ['a', '.', 'b']
    ∧ ¬ ReplaceLaw ['a', ' ', 'b'] ' ' ['%', '2', '0'] (List.replicate 8 '.') := by
  have hrun : replaceCharToStr (some ['a', ' ', 'b']) ' ' (some ['%', '2', '0'])
      (some (List.replicate 8 '.')) = none := by decide
  refine ⟨hrun, by decide, ?_⟩
  rw [ReplaceLaw, if_pos (by decide)]
  rintro ⟨buf', hbuf', -⟩
  rw [hrun] at hbuf'
  exact absurd hbuf'.symm (Option.some_ne_none _)

end Replace
