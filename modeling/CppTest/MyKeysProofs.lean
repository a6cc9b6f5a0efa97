import CppTest.PrintProofs

/-! # The lines of a chunk (`src/mykeys.cpp`)

    `openssl_stdout` gets the output of a command in chunks that end in a NUL, and adds their
    lines to `keys`.  Behind a newline it goes on TWO characters: one in the body of the loop and
    one in its header.  So the first character of a line is never looked at.

    * The model: a read outside the memory of the chunk faults.
    * `scan` is the loop without its pointers (`splitLoop_scan`, `splitLoop_outside`).
    * A newline that is the first character of its line is not found, so fewer lines are added
      than there are newlines (`scan_count`); and where a newline stands before the NUL, the NUL
      is passed over.
    * `openssl_stdout_iff`: the lines of the chunk are added exactly when neither happens. -/

namespace MyKeys

open Machine Print

/-! ## The model -/

/-- The loop of `openssl_stdout`: the offsets `p` and `q`, and `keys`. -/
structure Split where
  p : Nat
  q : Nat
  keys : List (List Char)

/-- One pass, with the `++q` of the loop's header. -/
def splitPass (cdata : List Char) (s : Split) : Option (Pass Split (List (List Char))) := do
  let c ← cdata[s.q]?
  if c = nul then some (.done s.keys)
  else if c = '\n' then
    let line := (cdata.drop s.p).take (s.q - s.p)
    -- p = ++q, and then ++q
    some (.next ⟨s.q + 1, s.q + 2, s.keys ++ [line]⟩)
  else some (.next { s with q := s.q + 1 })

/-- `openssl_stdout`: the new `keys`.  It does not look at `length`. -/
def opensslStdout (fuel : Nat) (cdata : List Char) (keys : List (List Char)) :
    Option (List (List Char)) :=
  loop (splitPass cdata) fuel ⟨0, 0, keys⟩

/-- The lines of a text that end in a newline, also the empty ones. -/
def terminatedLines (s : List Char) : List (List Char) := (s.splitOn '\n').dropLast

/-- The chunk `s` is split: the loop ends with the lines of `s` behind the old `keys`, whatever
    stands behind the NUL, and also if nothing there can be read. -/
def SplitsLines (s : List Char) : Prop :=
  ∀ rest keys, ∃ enough, ∀ fuel, enough ≤ fuel →
    opensslStdout fuel (s ++ nul :: rest) keys = some (keys ++ terminatedLines s)

/-- Behind every newline stands a character that is none. -/
def Separated (s : List Char) : Prop := ¬ ['\n', '\n'] <:+: s ∧ ¬ ['\n'] <:+ s

/-! ## The lines -/

theorem terminatedLines_none {line : List Char} (h : '\n' ∉ line) : terminatedLines line = [] := by
  rw [terminatedLines, List.splitOn_eq_singleton h]
  rfl

theorem terminatedLines_newline {line : List Char} (h : '\n' ∉ line) (s : List Char) :
    terminatedLines (line ++ '\n' :: s) = line :: terminatedLines s := by
  rw [terminatedLines, List.splitOn_append_cons_self_of_not_mem h, terminatedLines,
    List.dropLast_cons_of_ne_nil (List.splitOn_ne_nil '\n' s)]

theorem length_splitOn (s : List Char) : (s.splitOn '\n').length = s.count '\n' + 1 := by
  induction s with
  | nil => rfl
  | cons c s ih =>
      rw [List.splitOn_cons_eq_if_modifyHead, List.count_cons]
      split
      · rw [List.length_cons, ih]
      · rw [List.length_modifyHead, ih, Nat.add_zero]

theorem length_terminatedLines (s : List Char) : (terminatedLines s).length = s.count '\n' := by
  rw [terminatedLines, List.length_dropLast, length_splitOn, Nat.add_sub_cancel]

theorem separated_nil : Separated [] := by
  constructor
  · intro h
    exact absurd (List.infix_nil.mp h) (List.cons_ne_nil _ _)
  · intro h
    exact absurd (List.suffix_nil.mp h) (List.cons_ne_nil _ _)

theorem separated_cons {c : Char} {s : List Char} (hc : c ≠ '\n') :
    Separated (c :: s) ↔ Separated s := by
  have hinfix : ['\n', '\n'] <:+: c :: s ↔ ['\n', '\n'] <:+: s := by
    rw [List.infix_cons_iff]
    refine ⟨fun h => h.resolve_left fun hpre => ?_, Or.inr⟩
    exact hc (List.cons_prefix_cons.mp hpre).1.symm
  have hsuffix : ['\n'] <:+ c :: s ↔ ['\n'] <:+ s := by
    rw [List.suffix_cons_iff]
    refine ⟨fun h => h.resolve_left fun heq => ?_, Or.inr⟩
    exact hc (List.cons.inj heq).1.symm
  rw [Separated, Separated, hinfix, hsuffix]

/-- Behind a newline. -/
theorem separated_newline {d : Char} {s : List Char} :
    Separated ('\n' :: d :: s) ↔ d ≠ '\n' ∧ Separated s := by
  by_cases hd : d = '\n'
  · subst hd
    refine ⟨fun h => absurd ⟨[], s, rfl⟩ h.1, fun h => absurd rfl h.1⟩
  · have hinfix : ['\n', '\n'] <:+: '\n' :: d :: s ↔ ['\n', '\n'] <:+: d :: s := by
      rw [List.infix_cons_iff]
      refine ⟨fun h => h.resolve_left fun hpre => ?_, Or.inr⟩
      exact hd (List.cons_prefix_cons.mp (List.cons_prefix_cons.mp hpre).2).1.symm
    have hsuffix : ['\n'] <:+ '\n' :: d :: s ↔ ['\n'] <:+ d :: s := by
      rw [List.suffix_cons_iff]
      refine ⟨fun h => h.resolve_left fun heq => ?_, Or.inr⟩
      exact absurd (List.cons.inj heq).2.symm (List.cons_ne_nil d s)
    have hsep : Separated ('\n' :: d :: s) ↔ Separated (d :: s) := by
      rw [Separated, Separated, hinfix, hsuffix]
    rw [hsep, separated_cons hd]
    exact ⟨fun h => ⟨hd, h⟩, fun h => h.2⟩

theorem separated_last {c : Char} : Separated [c] ↔ c ≠ '\n' := by
  refine ⟨fun h hc => h.2 ⟨[], by rw [hc]; rfl⟩, fun hc => ?_⟩
  exact (separated_cons hc).mpr separated_nil

/-! ## The loop without its pointers -/

/-- The lines that the loop adds from `q` on: `line` is what stands from `p` to `q`, and `todo`
    what stands from `q` to the NUL.  None if it passes over the NUL. -/
def scan : List Char → List Char → Option (List (List Char))
  | _, [] => some []
  | _, [c] => if c = '\n' then none else some []
  | line, c :: d :: todo =>
      if c = '\n' then (scan [d] todo).map (line :: ·)
      else scan (line ++ [c]) (d :: todo)

/-- The pass at the character `c`, with `line` read. -/
theorem splitPass_at (pre line todo : List Char) (c : Char) (keys : List (List Char)) :
    splitPass (pre ++ line ++ c :: todo) ⟨pre.length, (pre ++ line).length, keys⟩ =
      if c = nul then some (.done keys)
      else if c = '\n' then
        some (.next ⟨(pre ++ line ++ [c]).length, (pre ++ line ++ [c]).length + 1, keys ++ [line]⟩)
      else some (.next ⟨pre.length, (pre ++ line ++ [c]).length, keys⟩) := by
  have hread : (pre ++ line ++ c :: todo)[(pre ++ line).length]? = some c := by
    rw [List.getElem?_append_right (Nat.le_refl _), Nat.sub_self, List.getElem?_cons_zero]
  have hline : ((pre ++ line ++ c :: todo).drop pre.length).take
      ((pre ++ line).length - pre.length) = line := by
    rw [List.append_assoc, List.drop_left, List.length_append, Nat.add_sub_cancel_left,
      List.take_left]
  have hnext : (pre ++ line ++ [c]).length = (pre ++ line).length + 1 := List.length_append
  simp only [splitPass, hread, hline, hnext, Option.bind_eq_bind, Option.bind_some]

/-- Nothing can be read outside the memory of the chunk. -/
theorem splitPass_outside {cdata : List Char} {s : Split} (h : cdata.length ≤ s.q) :
    splitPass cdata s = none := by
  rw [splitPass, List.getElem?_eq_none h]
  rfl

/-- The loop at `q`: the memory is what stands before `p`, `line`, `todo`, a NUL and `rest`. -/
def splitFrom (pre line todo rest : List Char) (fuel : Nat) (keys : List (List Char)) :
    Option (List (List Char)) :=
  loop (splitPass (pre ++ line ++ (todo ++ nul :: rest))) fuel
    ⟨pre.length, (pre ++ line).length, keys⟩

theorem opensslStdout_eq (s rest : List Char) (fuel : Nat) (keys : List (List Char)) :
    opensslStdout fuel (s ++ nul :: rest) keys = splitFrom [] [] s rest fuel keys := rfl

/-- At the NUL. -/
theorem splitFrom_nul {pre line rest : List Char} {fuel : Nat} {keys : List (List Char)} :
    splitFrom pre line [] rest (fuel + 1) keys = some keys := by
  refine loop_done (Nat.succ_pos fuel) ?_
  rw [List.nil_append, splitPass_at, if_pos rfl]

/-- At a character that is no newline. -/
theorem splitFrom_other {pre line todo rest : List Char} {c : Char} {fuel : Nat}
    {keys : List (List Char)} (hnul : c ≠ nul) (hc : c ≠ '\n') :
    splitFrom pre line (c :: todo) rest (fuel + 1) keys =
      splitFrom pre (line ++ [c]) todo rest fuel keys := by
  have hpass := splitPass_at pre line (todo ++ nul :: rest) c keys
  rw [if_neg hnul, if_neg hc] at hpass
  rw [splitFrom, List.cons_append, loop_next (Nat.succ_pos fuel) hpass, splitFrom]
  simp only [List.append_assoc, List.singleton_append, Nat.succ_sub_one]

/-- At a newline that is not the last character: the one behind it is passed over. -/
theorem splitFrom_newline {pre line todo rest : List Char} {d : Char} {fuel : Nat}
    {keys : List (List Char)} :
    splitFrom pre line ('\n' :: d :: todo) rest (fuel + 1) keys =
      splitFrom (pre ++ line ++ ['\n']) [d] todo rest fuel (keys ++ [line]) := by
  have hpass := splitPass_at pre line (d :: todo ++ nul :: rest) '\n' keys
  rw [if_neg (by decide), if_pos rfl] at hpass
  have hmem : pre ++ line ++ '\n' :: (d :: todo ++ nul :: rest) =
      pre ++ line ++ ['\n'] ++ [d] ++ (todo ++ nul :: rest) := by
    simp only [List.append_assoc, List.cons_append, List.nil_append]
  have hq : (pre ++ line ++ ['\n'] ++ [d]).length = (pre ++ line ++ ['\n']).length + 1 :=
    List.length_append
  rw [splitFrom, List.cons_append, loop_next (Nat.succ_pos fuel) hpass, splitFrom, hmem, hq,
    Nat.succ_sub_one]

/-- At a newline before the NUL, with nothing behind the NUL: the NUL is passed over. -/
theorem splitFrom_outside {pre line : List Char} {fuel : Nat} {keys : List (List Char)} :
    splitFrom pre line ['\n'] [] (fuel + 1) keys = none := by
  have hpass := splitPass_at pre line [nul] '\n' keys
  rw [if_neg (by decide), if_pos rfl] at hpass
  rw [splitFrom, List.singleton_append, loop_next (Nat.succ_pos fuel) hpass]
  refine loop_never (fun s hs => Or.inl (splitPass_outside hs)) _ _ ?_
  show (pre ++ line ++ ['\n', nul]).length ≤ (pre ++ line ++ ['\n']).length + 1
  simp only [List.length_append, List.length_cons, List.length_nil, Nat.add_assoc, Nat.le_refl]

/-- Where `scan` ends, the loop does, whatever stands behind the NUL. -/
theorem splitLoop_scan {pre rest line todo : List Char} {ls keys : List (List Char)} {fuel : Nat}
    (hnul : nul ∉ todo) (h : scan line todo = some ls) (hfuel : todo.length < fuel) :
    splitFrom pre line todo rest fuel keys = some (keys ++ ls) := by
  -- a pass takes one character of `todo` or two, so the fuel goes down no faster than `todo`
  fun_induction scan line todo generalizing pre fuel keys ls <;>
    obtain ⟨fuel, rfl⟩ := Nat.exists_eq_add_one_of_ne_zero (Nat.ne_zero_of_lt hfuel)
  case case1 line =>
    rw [splitFrom_nul, ← Option.some.inj h, List.append_nil]
  case case2 line => exact absurd h.symm (Option.some_ne_none _)
  case case3 line c hc =>
    -- the last character, and then the NUL
    have hfuel' : fuel ≠ 0 := Nat.ne_zero_of_lt (Nat.lt_of_succ_lt_succ hfuel)
    obtain ⟨fuel, rfl⟩ := Nat.exists_eq_add_one_of_ne_zero hfuel'
    rw [splitFrom_other (List.ne_of_not_mem_cons hnul).symm hc, splitFrom_nul,
      ← Option.some.inj h, List.append_nil]
  case case4 line d todo ih =>
    obtain ⟨ls', h', rfl⟩ := Option.map_eq_some_iff.mp h
    have hnul' : nul ∉ todo :=
      List.not_mem_of_not_mem_cons (List.not_mem_of_not_mem_cons hnul)
    rw [List.length_cons, List.length_cons] at hfuel
    rw [splitFrom_newline, ih hnul' h' (by omega), List.append_assoc, List.singleton_append]
  case case5 line c d todo hc ih =>
    rw [splitFrom_other (List.ne_of_not_mem_cons hnul).symm hc]
    exact ih (List.not_mem_of_not_mem_cons hnul) h (Nat.lt_of_succ_lt_succ hfuel)

/-- Where it does not, the loop leaves the memory of a chunk with nothing behind the NUL. -/
theorem splitLoop_outside {pre line todo : List Char} {keys : List (List Char)} {fuel : Nat}
    (hnul : nul ∉ todo) (h : scan line todo = none) :
    splitFrom pre line todo [] fuel keys = none := by
  fun_induction scan line todo generalizing pre fuel keys with
  | case1 line => exact absurd h (Option.some_ne_none _)
  | case2 line =>
      -- without fuel nothing is read, but nothing is returned either
      cases fuel with
      | zero => rfl
      | succ fuel => exact splitFrom_outside
  | case3 line c hc => exact absurd h (Option.some_ne_none _)
  | case4 line d todo ih =>
      have hnul' : nul ∉ todo :=
        List.not_mem_of_not_mem_cons (List.not_mem_of_not_mem_cons hnul)
      cases fuel with
      | zero => rfl
      | succ fuel => rw [splitFrom_newline, ih hnul' (Option.map_eq_none_iff.mp h)]
  | case5 line c d todo hc ih =>
      cases fuel with
      | zero => rfl
      | succ fuel =>
          rw [splitFrom_other (List.ne_of_not_mem_cons hnul).symm hc]
          exact ih (List.not_mem_of_not_mem_cons hnul) h

/-! ## When the lines are those of the chunk -/

theorem newline_not_mem {c : Char} (hc : c ≠ '\n') : '\n' ∉ [c] :=
  List.not_mem_cons_of_ne_of_not_mem hc.symm List.not_mem_nil

/-- Every newline is found: the lines are those of the chunk. -/
theorem scan_clean {line todo : List Char} (hsep : Separated todo) (hline : '\n' ∉ line) :
    scan line todo = some (terminatedLines (line ++ todo)) := by
  fun_induction scan line todo with
  | case1 line => rw [List.append_nil, terminatedLines_none hline]
  | case2 line => exact absurd rfl (separated_last.mp hsep)
  | case3 line c hc =>
      have hall : '\n' ∉ line ++ [c] := List.not_mem_append hline (newline_not_mem hc)
      rw [terminatedLines_none hall]
  | case4 line d todo ih =>
      obtain ⟨hd, hsep'⟩ := separated_newline.mp hsep
      rw [ih hsep' (newline_not_mem hd), terminatedLines_newline hline]
      rfl
  | case5 line c d todo hc ih =>
      have hall : '\n' ∉ line ++ [c] := List.not_mem_append hline (newline_not_mem hc)
      rw [ih ((separated_cons hc).mp hsep) hall, List.append_assoc, List.singleton_append]

/-- No more lines than newlines. -/
theorem scan_count {line todo : List Char} {ls : List (List Char)}
    (h : scan line todo = some ls) : ls.length ≤ todo.count '\n' := by
  fun_induction scan line todo generalizing ls with
  | case1 line => rw [← Option.some.inj h]; exact Nat.zero_le _
  | case2 line => exact absurd h.symm (Option.some_ne_none _)
  | case3 line c hc => rw [← Option.some.inj h]; exact Nat.zero_le _
  | case4 line d todo ih =>
      obtain ⟨ls', h', rfl⟩ := Option.map_eq_some_iff.mp h
      have hcons : todo.count '\n' ≤ (d :: todo).count '\n' := List.count_le_count_cons
      rw [List.length_cons, List.count_cons_self]
      exact Nat.succ_le_succ (Nat.le_trans (ih h') hcons)
  | case5 line c d todo hc ih =>
      rw [List.count_cons_of_ne hc]
      exact ih h

/-- A line for each newline, only if none of them is passed over. -/
theorem separated_of_scan {line todo : List Char} {ls : List (List Char)}
    (h : scan line todo = some ls) (hcount : ls.length = todo.count '\n') : Separated todo := by
  fun_induction scan line todo generalizing ls with
  | case1 line => exact separated_nil
  | case2 line => exact absurd h.symm (Option.some_ne_none _)
  | case3 line c hc => exact separated_last.mpr hc
  | case4 line d todo ih =>
      obtain ⟨ls', h', rfl⟩ := Option.map_eq_some_iff.mp h
      rw [List.length_cons, List.count_cons_self, Nat.add_right_cancel_iff] at hcount
      have hle := scan_count h'
      have hd : d ≠ '\n' := by
        intro hd
        rw [hd, List.count_cons_self] at hcount
        omega
      rw [List.count_cons_of_ne hd] at hcount
      exact separated_newline.mpr ⟨hd, ih h' hcount⟩
  | case5 line c d todo hc ih =>
      rw [List.count_cons_of_ne hc] at hcount
      exact (separated_cons hc).mpr (ih h hcount)

/-- The chunk is split if every newline has a character behind it that is none. -/
theorem splitsLines_of_separated {s : List Char} (hs : nul ∉ s) (hsep : Separated s) :
    SplitsLines s := by
  intro rest keys
  refine ⟨s.length + 1, fun fuel hfuel => ?_⟩
  have hscan : scan [] s = some (terminatedLines s) := scan_clean hsep List.not_mem_nil
  rw [opensslStdout_eq, splitLoop_scan hs hscan hfuel]

/-- And only then: with nothing behind the NUL the loop ends, so it adds what `scan` finds, and
    this is a line for each newline. -/
theorem separated_of_splitsLines {s : List Char} (hs : nul ∉ s) (h : SplitsLines s) :
    Separated s := by
  obtain ⟨enough, hrun⟩ := h [] []
  cases hscan : scan [] s with
  | none =>
      have hend := hrun enough (Nat.le_refl _)
      rw [opensslStdout_eq, splitLoop_outside hs hscan] at hend
      exact absurd hend.symm (Option.some_ne_none _)
  | some ls =>
      have hend := hrun (enough + (s.length + 1)) (Nat.le_add_right _ _)
      rw [opensslStdout_eq, splitLoop_scan hs hscan (Nat.le_add_left _ _)] at hend
      have hls : ls = terminatedLines s := Option.some.inj hend
      exact separated_of_scan hscan (by rw [hls, length_terminatedLines])

/-- A chunk is split into its lines exactly when no two newlines of it are in a row and it does
    not end in one. -/
theorem openssl_stdout_iff (s : List Char) (hs : nul ∉ s) :
    SplitsLines s ↔ ¬ ['\n', '\n'] <:+: s ∧ ¬ ['\n'] <:+ s :=
  ⟨separated_of_splitsLines hs, splitsLines_of_separated hs⟩

theorem openssl_stdout_iff_keys : SplitsLines ['k', '1', '\n', 'k', '2'] :=
  (openssl_stdout_iff ['k', '1', '\n', 'k', '2'] (by decide)).mpr ⟨by decide, by decide⟩

/-- The line `a` alone: its newline stands before the NUL. -/
theorem openssl_stdout_one_line : ¬ ∀ s : List Char, nul ∉ s → SplitsLines s := by
  intro h
  have hs : nul ∉ ['a', '\n'] := by decide
  exact (separated_of_splitsLines hs (h _ hs)).2 ⟨['a'], rfl⟩

end MyKeys
