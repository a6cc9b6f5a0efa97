import CppTest.PrintProofs
import Mathlib.Data.List.SplitBy

/-! # Run-length compression (`compress_repeat_str` of `src/algs/cti/test_cti.cpp`)

    The function prints each run of equal characters as the character and its count, and
    falls back to the source if that is not shorter.

    * The run-length text in its own terms (`runLength`): the maximal runs of the
      source, each as its character and its count.
    * The loop writes this text (`compressLoop_spec`), and every `sprintf` ends it with a
      NUL.
    * The fallback copies the source over the text WITHOUT a NUL.  So the text must not
      be longer than the source, or its end is left behind the copy.
    * The result: `compress_law_iff`. -/

namespace Compress

open Machine Print

/-! ## The model -/

/-- `"%c%zu"`. -/
def runText (c : Char) (count : Nat) : List Char := c :: decimal count

/-- The loop over the characters that are left: `c`, `count`, `dest` and `index`. -/
def compressLoop : List Char → Char × Nat × List Char × Nat → Option (Char × Nat × List Char × Nat)
  | [], s => some s
  | b :: rest, (c, count, dest, index) =>
      if c = b then compressLoop rest (c, count + 1, dest, index)
      else do
        let dest ← sprintfAt dest index (runText c count)
        compressLoop rest (b, 1, dest, index + (runText c count).length)

/-- `compress_repeat_str`: the buffer `dest` after the call.  A null pointer is
    `none`. -/
def compressRepeatStr (src : Option (List Char)) (dest : List Char) : Option (List Char) :=
  match src with
  | none | some [] => some dest
  | some (beg :: rest) => do
      let (c, count, dest, index) ← compressLoop rest (beg, 1, dest, 0)
      let dest ← sprintfAt dest index (runText c count)
      let index := index + (runText c count).length
      if index ≥ (beg :: rest).length then memcpyTo dest (beg :: rest) else some dest

/-! ## Runs -/

/-- A run as its character and its count. -/
def printRun : List Char → List Char
  | [] => []
  | c :: run => runText c (run.length + 1)

/-- The run-length text: every maximal run of the source. -/
def runLength (src : List Char) : List Char := (src.splitBy (· == ·)).flatMap printRun

theorem printRun_replicate (c : Char) {count : Nat} (h : 1 ≤ count) :
    printRun (List.replicate count c) = runText c count := by
  obtain ⟨k, rfl⟩ : ∃ k, count = k + 1 := ⟨count - 1, by omega⟩
  rw [List.replicate_succ, printRun, List.length_replicate]

/-- A single run. -/
theorem runLength_replicate (c : Char) {count : Nat} (h : 1 ≤ count) :
    runLength (List.replicate count c) = runText c count := by
  have hne : List.replicate count c ≠ [] := by
    rw [Ne, List.replicate_eq_nil_iff]
    omega
  rw [runLength, List.splitBy_of_isChain hne (List.isChain_replicate_of_rel count (by simp)),
    List.flatMap_singleton, printRun_replicate c h]

/-- A run that ends before another character. -/
theorem runLength_append {c b : Char} (hne : c ≠ b) {count : Nat} (h : 1 ≤ count)
    (rest : List Char) :
    runLength (List.replicate count c ++ b :: rest)
      = runText c count ++ runLength (b :: rest) := by
  have hend : ∀ x ∈ (List.replicate count c).getLast?, (x == b) = false := by
    intro x hx
    obtain rfl : x = c := (List.mem_replicate.mp (List.mem_of_mem_getLast? hx)).2
    simpa using hne
  rw [runLength, List.splitBy_append_cons _ hend, List.flatMap_append, ← runLength, ← runLength,
    runLength_replicate c h]

/-! ## The loop -/

/-- **The loop writes the run-length text** behind the text `T`, all but its last run. -/
theorem compressLoop_spec : ∀ (rest : List Char) (c : Char) (count : Nat) (T room : List Char),
    1 ≤ count → (runLength (List.replicate count c ++ rest)).length < room.length →
    ∃ c' count' T' room',
      compressLoop rest (c, count, T ++ room, T.length)
          = some (c', count', T' ++ room', T'.length)
      ∧ T' ++ runText c' count' = T ++ runLength (List.replicate count c ++ rest)
      ∧ T'.length + room'.length = T.length + room.length := by
  intro rest
  induction rest with
  | nil =>
      intro c count T room hcount _
      rw [List.append_nil, runLength_replicate c hcount]
      exact ⟨c, count, T, room, rfl, rfl, rfl⟩
  | cons b rest ih =>
      intro c count T room hcount hroom
      by_cases hcb : c = b
      · subst hcb
        have hrun : List.replicate count c ++ c :: rest = List.replicate (count + 1) c ++ rest := by
          rw [List.replicate_succ', List.append_assoc, List.singleton_append]
        rw [hrun] at hroom ⊢
        rw [compressLoop, if_pos rfl]
        exact ih c (count + 1) T room (by omega) hroom
      · have hrun := runLength_append hcb hcount rest
        rw [hrun, List.length_append] at hroom
        -- the NUL that ends the text so far is the first cell the next run takes
        obtain ⟨c', count', T', room', hloop, htext, hlen⟩ := ih b 1 (T ++ runText c count)
          (nul :: room.drop ((runText c count).length + 1)) (le_refl 1) (by
            rw [List.length_cons, List.length_drop]
            show (runLength (b :: rest)).length < _
            omega)
        refine ⟨c', count', T', room', ?_, ?_, ?_⟩
        · rw [compressLoop, if_neg hcb, sprintfAt_append T room _ (by omega), ← List.length_append]
          exact hloop
        · rw [htext, hrun, List.append_assoc]
          rfl
        · rw [hlen, List.length_append, List.length_cons, List.length_drop]
          omega

/-- What the buffer holds before the fallback is considered. -/
theorem compressRepeatStr_eq {src dest : List Char} (hne : src ≠ [])
    (hroom : (runLength src).length < dest.length) :
    ∃ rest, (runLength src ++ nul :: rest).length = dest.length
      ∧ compressRepeatStr (some src) dest
        = if src.length ≤ (runLength src).length then memcpyTo (runLength src ++ nul :: rest) src
          else some (runLength src ++ nul :: rest) := by
  obtain ⟨beg, tail, rfl⟩ := List.exists_cons_of_ne_nil hne
  obtain ⟨c, count, T, room, hloop, htext, hlen⟩ :=
    compressLoop_spec tail beg 1 [] dest (le_refl 1) hroom
  replace htext : T ++ runText c count = runLength (beg :: tail) := htext
  have hsize := congrArg List.length htext
  rw [List.length_append] at hsize
  rw [List.length_nil, Nat.zero_add] at hlen
  refine ⟨room.drop ((runText c count).length + 1), ?_, ?_⟩
  · rw [List.length_append, List.length_cons, List.length_drop]
    omega
  · replace hloop : compressLoop tail (beg, 1, dest, 0) = some (c, count, T ++ room, T.length) :=
      hloop
    rw [compressRepeatStr, hloop]
    simp only [Option.bind_eq_bind, Option.bind_some]
    rw [sprintfAt_append T room _ (by omega), htext, Option.bind_some, hsize]

theorem nul_notMem_runLength {src : List Char} (h : nul ∉ src) : nul ∉ runLength src := by
  intro hmem
  obtain ⟨run, hrun, hin⟩ := List.mem_flatMap.mp hmem
  cases run with
  | nil => exact absurd hin List.not_mem_nil
  | cons c run =>
      rw [printRun, runText, List.mem_cons] at hin
      rcases hin with rfl | hin
      · have hsrc : nul ∈ (src.splitBy (· == ·)).flatten :=
          List.mem_flatten.mpr ⟨_, hrun, List.mem_cons_self⟩
        rw [List.flatten_splitBy] at hsrc
        exact h hsrc
      · exact nul_notMem_decimal _ hin

/-! ## The result -/

/-- What the function is for: `dest` holds the run-length text if that is shorter than the
    source, and the source otherwise. -/
def CompressLaw (src dest : List Char) : Prop :=
  ∃ dest', compressRepeatStr (some src) dest = some dest'
    ∧ cString dest' = some (if (runLength src).length < src.length then runLength src else src)

/-- **The string in `dest`**: with the fallback, the source and what the text has left
    behind it. -/
theorem compressRepeatStr_string {src dest : List Char} (hne : src ≠ []) (hnul : nul ∉ src)
    (hroom : (runLength src).length < dest.length) :
    ∃ dest', compressRepeatStr (some src) dest = some dest'
      ∧ cString dest' = some (if (runLength src).length < src.length then runLength src
          else src ++ (runLength src).drop src.length) := by
  obtain ⟨rest, hlen, hrun⟩ := compressRepeatStr_eq hne hroom
  have htext := nul_notMem_runLength hnul
  by_cases hshort : (runLength src).length < src.length
  · rw [if_neg (by omega)] at hrun
    refine ⟨_, hrun, ?_⟩
    rw [if_pos hshort, cString_append htext]
  · have hcopy : memcpyTo (runLength src ++ nul :: rest) src
        = some (src ++ (runLength src).drop src.length ++ nul :: rest) := by
      rw [memcpyTo, if_pos (by rw [hlen]; omega), List.drop_append_of_le_length (by omega),
        List.append_assoc]
    rw [if_pos (by omega), hcopy] at hrun
    refine ⟨_, hrun, ?_⟩
    rw [if_neg hshort, cString_append]
    intro hmem
    rcases List.mem_append.mp hmem with h | h
    · exact hnul h
    · exact htext (List.mem_of_mem_drop h)

/-- **Compression** leaves the string it should exactly if the run-length text is not
    longer than the source: the fallback copies the source without a NUL, and a longer
    text still ends where it ended. -/
theorem compress_law_iff {src dest : List Char} (hne : src ≠ []) (hnul : nul ∉ src)
    (hroom : (runLength src).length < dest.length) :
    CompressLaw src dest ↔ (runLength src).length ≤ src.length := by
  obtain ⟨dest', hrun, hstring⟩ := compressRepeatStr_string hne hnul hroom
  have hlaw : CompressLaw src dest ↔
      cString dest'
        = some (if (runLength src).length < src.length then runLength src else src) := by
    constructor
    · rintro ⟨d, hd, hs⟩
      obtain rfl := Option.some.inj (hd.symm.trans hrun)
      exact hs
    · exact fun hs => ⟨dest', hrun, hs⟩
  rw [hlaw, hstring]
  by_cases hshort : (runLength src).length < src.length
  · rw [if_pos hshort, if_pos hshort]
    exact ⟨fun _ => Nat.le_of_lt hshort, fun _ => rfl⟩
  · rw [if_neg hshort, if_neg hshort, Option.some.injEq, List.append_right_eq_self,
      List.drop_eq_nil_iff]

theorem compress_law_runs : CompressLaw ['a', 'a', 'a', 'b', 'b'] (List.replicate 8 '.') := by
  have hroom : (runLength ['a', 'a', 'a', 'b', 'b']).length < (List.replicate 8 '.').length := by
    decide
  exact (compress_law_iff (List.cons_ne_nil _ _) (by decide) hroom).mpr (by decide)

/-- One character: the text `a1` is longer, and the copied `a` does not end it. -/
theorem compress_law_single :
    (runLength ['a']).length < (List.replicate 8 '.').length
    ∧ (compressRepeatStr (some ['a']) (List.replicate 8 '.')).bind cString = some ['a', '1']
    ∧ ¬ CompressLaw ['a'] (List.replicate 8 '.') := by
  have hstring : (compressRepeatStr (some ['a']) (List.replicate 8 '.')).bind cString
      = some ['a', '1'] := by decide
  refine ⟨by decide, hstring, ?_⟩
  rintro ⟨dest, hrun, hlaw⟩
  rw [hrun, Option.bind_some, hlaw] at hstring
  exact absurd hstring (by decide)

end Compress
