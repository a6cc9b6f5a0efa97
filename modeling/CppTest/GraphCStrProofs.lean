import CppTest.GraphBuiltProofs
import CppTest.PrintProofs

/-! # The text of a graph (`graph_c_str` in `src/algs/algorithms4th/graph.cpp`)

    One pass over the vertices counts the characters in `n` and writes them where the buffer
    has room; what it has no room for is written to a local array, and lost.  A newline is
    counted and written after each line, and in the end the last one becomes the NUL.

    * `Wrote` — after the pieces of a text `T` the count is its length, and the buffer holds
      it as long as it is long enough.  A piece needs one cell more, for the NUL of
      `snprintf`; a newline does not.
    * `graph_c_str_renders` — without an edge nothing is counted, and the NUL goes before
      the buffer. -/

namespace AlgsGraph

open Machine RbTree LinkedTree Adjacency Print

variable {ω : Type}

/-! ## The model -/

/-- The buffer, or null, and the count `n`. -/
abbrev Sink := Option (List Char) × Nat

/-- A call of `snprintf` on the rest of the buffer, or on the array `tmp`. -/
def sinkPrint (len : Nat) (st : Sink) (text : List Char) : Option Sink := do
  match st.1 with
  | some cells =>
      if len > st.2 then do
        let cells ← snprintfAt cells st.2 (len - st.2) text
        some (some cells, st.2 + text.length)
      else some (some cells, st.2 + text.length)
  | none => some (none, st.2 + text.length)

/-- The newline after a line. -/
def sinkNewline (len : Nat) (st : Sink) : Option Sink := do
  match st.1 with
  | some cells =>
      if len > st.2 then do
        let cells ← setAt cells st.2 '\n'
        some (some cells, st.2 + 1)
      else some (some cells, st.2 + 1)
  | none => some (none, st.2 + 1)

/-- `"\t%d: "`. -/
def headText (key : Int) : List Char := '\t' :: decimal key ++ [':', ' ']

/-- `"%d, "`, and `"(%f)%d, "` in a weighted graph; `float` is `%f`. -/
def endText (float : ω → List Char) (weight : Option ω) (key : Int) : List Char :=
  match weight with
  | some x => '(' :: float x ++ ')' :: decimal key ++ [',', ' ']
  | none => decimal key ++ [',', ' ']

/-- One turn of the loop over the list of a vertex. -/
def cStrEnd (float : ω → List Char) (weight : Bool) (gb : GraphBag ω) (len : Nat) (st : Sink)
    (j : Nat) : Option Sink := do
  let cell ← getAt gb.v j
  let node ← cell
  if weight then do
    let w ← gb.w
    let x ← getAt w j
    sinkPrint len st (endText float (some x) node.key)
  else sinkPrint len st (endText float none node.key)

/-- One turn of the loop over the vertices. -/
def cStrVertex (float : ω → List Char) (g : Graph ω) (len : Nat) (st : Sink) (p : BagPtr) :
    Option Sink := do
  let gb ← g.bags[p.addr]?
  if gb.i = 0 then some st
  else do
    let st ← sinkPrint len st (headText p.node.key)
    let st ← (List.range gb.i).foldlM (cStrEnd float g.weight gb len) st
    sinkNewline len st

/-- `graph_c_str`: the buffer and `len` afterwards, and whether the buffer is returned. -/
def graphCStr (float : ω → List Char) (g : Graph ω) (buf : Option (List Char)) (len : Nat) :
    Option (Option (List Char) × Nat × Bool) := do
  let len := if buf.isNone then 0 else len
  let ps ← graphWalk g
  let (buf, n) ← ps.foldlM (cStrVertex float g len) (buf, 0)
  match buf with
  | none => some (none, n, false)
  | some cells =>
      if len < n then some (some cells, n, false)
      else do
        -- without a line this is a cell before the buffer
        let cells ← setAt cells ((n : Int) - 1) nul
        some (some cells, len, true)

/-! ## Writing the pieces -/

/-- After the text `T`: it has been counted, and a buffer of `len` cells holds it if it has
    `spare` cells more. -/
structure Wrote (spare len : Nat) (null : Bool) (T : List Char) (st : Sink) : Prop where
  count : st.2 = T.length
  null : st.1.isNone = null
  cells : ∀ cells, st.1 = some cells →
    cells.length = len ∧ (T.length + spare ≤ len → T <+: cells)

section Pieces
variable {len : Nat} {null : Bool} {T : List Char} {st : Sink}

theorem Wrote.weaken (h : Wrote 0 len null T st) : Wrote 1 len null T st where
  count := h.count
  null := h.null
  cells := fun cells hc => ⟨(h.cells cells hc).1, fun hle => (h.cells cells hc).2 (by omega)⟩

theorem Wrote.print (h : Wrote 1 len null T st) (text : List Char) :
    ∃ st', sinkPrint len st text = some st' ∧ Wrote 1 len null (T ++ text) st' := by
  obtain ⟨buf, n⟩ := st
  obtain rfl : n = T.length := h.count
  cases buf with
  | none =>
      refine ⟨(none, T.length + text.length), rfl, List.length_append.symm, h.null, ?_⟩
      exact fun cells hc => absurd hc.symm (Option.some_ne_none _)
  | some cells =>
      obtain ⟨hlen, hpre⟩ := h.cells cells rfl
      by_cases hroom : len > T.length
      · have hpos : 0 < len - T.length := by omega
        have hfits : T.length + (len - T.length) ≤ cells.length := by omega
        obtain ⟨cells', hrun, hlen', hcont⟩ := snprintfAt_spec hpos hfits text
        refine ⟨(some cells', T.length + text.length), ?_, List.length_append.symm, h.null, ?_⟩
        · simp only [sinkPrint, if_pos hroom, hrun, Option.bind_eq_bind, Option.bind_some]
        · rintro _ ⟨rfl⟩
          -- a text that fits without its NUL loses its last character
          refine ⟨hlen'.trans hlen, fun hle => ?_⟩
          rw [List.length_append] at hle
          exact hcont T rfl (hpre (by omega)) (by omega)
      · -- the piece goes to `tmp`, and the text is too long for the buffer from here on
        refine ⟨(some cells, T.length + text.length), ?_, List.length_append.symm, h.null, ?_⟩
        · simp only [sinkPrint, if_neg hroom]
        · rintro _ ⟨rfl⟩
          refine ⟨hlen, fun hle => ?_⟩
          rw [List.length_append] at hle
          omega

theorem Wrote.newline (h : Wrote 1 len null T st) :
    ∃ st', sinkNewline len st = some st' ∧ Wrote 0 len null (T ++ ['\n']) st' := by
  obtain ⟨buf, n⟩ := st
  obtain rfl : n = T.length := h.count
  have hcount : T.length + 1 = (T ++ ['\n']).length := by
    rw [List.length_append, List.length_singleton]
  cases buf with
  | none =>
      refine ⟨(none, T.length + 1), rfl, hcount, h.null, ?_⟩
      exact fun cells hc => absurd hc.symm (Option.some_ne_none _)
  | some cells =>
      obtain ⟨hlen, hpre⟩ := h.cells cells rfl
      by_cases hroom : len > T.length
      · refine ⟨(some (cells.set T.length '\n'), T.length + 1), ?_, hcount, h.null, ?_⟩
        · simp only [sinkNewline, if_pos hroom, setAt_natCast cells '\n' (hlen ▸ hroom),
            Option.bind_eq_bind, Option.bind_some]
        · rintro _ ⟨rfl⟩
          refine ⟨(List.length_set ..).trans hlen, fun _ => ?_⟩
          exact prefix_set (hpre (by omega)) (by omega) '\n'
      · refine ⟨(some cells, T.length + 1), ?_, hcount, h.null, ?_⟩
        · simp only [sinkNewline, if_neg hroom]
        · rintro _ ⟨rfl⟩
          refine ⟨hlen, fun hle => ?_⟩
          rw [← hcount] at hle
          omega

end Pieces

/-! ## The loops -/

/-- The text for the ends at a vertex. -/
def endsText (float : ω → List Char) (weight : Bool) (es : List (Int × ω)) : List Char :=
  es.flatMap fun x => endText float (if weight then some x.2 else none) x.1

/-- The line of a vertex with the ends `es`, if there are any. -/
def vertexText (float : ω → List Char) (weight : Bool) (key : Int) (es : List (Int × ω)) :
    List Char :=
  if es = [] then [] else headText key ++ endsText float weight es ++ ['\n']

theorem Holds.cStrEnd_eq {weight : Bool} {gb : GraphBag ω} {es : List (Int × ω)}
    (h : Holds weight gb es) (float : ω → List Char) (len : Nat) {j : Nat} {x : Int × ω}
    (hx : es[j]? = some x) (st : Sink) :
    cStrEnd float weight gb len st j
      = sinkPrint len st (endText float (if weight then some x.2 else none) x.1) := by
  cases weight with
  | false => simp only [cStrEnd, h.cell hx, Option.bind_eq_bind, Option.bind_some,
      Bool.false_eq_true, if_false]
  | true =>
      obtain ⟨w, hw, hcell⟩ := h.weigh hx
      simp only [cStrEnd, h.cell hx, hw, hcell, Option.bind_eq_bind, Option.bind_some, if_true]

theorem Wrote.ends {len : Nat} {null : Bool} (float : ω → List Char) (weight : Bool)
    (es : List (Int × ω)) : ∀ {T : List Char} {st : Sink}, Wrote 1 len null T st →
      ∃ st', es.foldlM (fun st x => sinkPrint len st
          (endText float (if weight then some x.2 else none) x.1)) st = some st' ∧
        Wrote 1 len null (T ++ endsText float weight es) st' := by
  induction es with
  | nil =>
      intro T st h
      refine ⟨st, rfl, ?_⟩
      rw [endsText, List.flatMap_nil, List.append_nil]
      exact h
  | cons x es ih =>
      intro T st h
      obtain ⟨st₁, hrun₁, h₁⟩ := h.print (endText float (if weight then some x.2 else none) x.1)
      obtain ⟨st', hrun, h'⟩ := ih h₁
      refine ⟨st', ?_, ?_⟩
      · rw [List.foldlM_cons, hrun₁]
        exact hrun
      · rw [endsText, List.flatMap_cons, ← List.append_assoc]
        exact h'

/-- A vertex: a line, or nothing. -/
theorem Wrote.vertex {g : Graph ω} {gb : GraphBag ω} {es : List (Int × ω)} {p : BagPtr}
    (hget : g.bags[p.addr]? = some gb) (hholds : Holds g.weight gb es) (float : ω → List Char)
    {len : Nat} {null : Bool} {T : List Char} {st : Sink} (h : Wrote 0 len null T st) :
    ∃ st', cStrVertex float g len st p = some st' ∧
      Wrote 0 len null (T ++ vertexText float g.weight p.node.key es) st' := by
  rw [cStrVertex]
  simp only [hget, Option.bind_eq_bind, Option.bind_some]
  by_cases hes : es = []
  · have hi : gb.i = 0 := by
      rw [hholds.count, hes]
      rfl
    rw [if_pos hi, vertexText, if_pos hes, List.append_nil]
    exact ⟨st, rfl, h⟩
  · have hi : gb.i ≠ 0 := by
      rw [hholds.count]
      exact fun h0 => hes (List.length_eq_zero_iff.mp h0)
    obtain ⟨st₁, hrun₁, h₁⟩ := h.weaken.print (headText p.node.key)
    obtain ⟨st₂, hrun₂, h₂⟩ := h₁.ends float g.weight es
    obtain ⟨st₃, hrun₃, h₃⟩ := h₂.newline
    have hloop : (List.range gb.i).foldlM (cStrEnd float g.weight gb len) st₁ = some st₂ := by
      rw [hholds.count, foldlM_range es (fun j x hx => hholds.cStrEnd_eq float len hx) st₁]
      exact hrun₂
    refine ⟨st₃, ?_, ?_⟩
    · rw [if_neg hi, hrun₁, Option.bind_some, hloop]
      exact hrun₃
    · rw [vertexText, if_neg hes, ← List.append_assoc, ← List.append_assoc]
      exact h₃

/-- All vertices. -/
theorem Wrote.vertices {g : Graph ω} {A : Adj Int ω} (hg : Built g A) (float : ω → List Char)
    {len : Nat} {null : Bool} (ps : List BagPtr) : ∀ {T : List Char} {st : Sink},
      (∀ p ∈ ps, owner (vertexKeys g.v) p.node.key = some p) → Wrote 0 len null T st →
      ∃ st', ps.foldlM (cStrVertex float g len) st = some st' ∧
        Wrote 0 len null (T ++ ps.flatMap fun p =>
          vertexText float g.weight p.node.key ((A p.node.key).getD [])) st' := by
  induction ps with
  | nil =>
      intro T st _ h
      rw [List.flatMap_nil, List.append_nil]
      exact ⟨st, rfl, h⟩
  | cons p ps ih =>
      intro T st hps h
      obtain ⟨t, href⟩ := hg.refines
      obtain ⟨gb, es, hget, hA, hholds⟩ := href.bags _ p (hps p List.mem_cons_self)
      obtain ⟨st₁, hrun₁, h₁⟩ := Wrote.vertex hget hholds float h
      obtain ⟨st', hrun, h'⟩ := ih (fun q hq => hps q (List.mem_cons_of_mem p hq)) h₁
      refine ⟨st', ?_, ?_⟩
      · rw [List.foldlM_cons, hrun₁]
        exact hrun
      · rw [List.flatMap_cons, ← List.append_assoc, hA, Option.getD_some]
        exact h'

/-! ## The text -/

/-- The line of a vertex, in the format of `graph.h`. -/
def graphLine (g : Graph ω) (v : Int) : List Char :=
  headText v ++ (adjKeys g v).flatMap fun w => decimal w ++ [',', ' ']

/-- One line for each of the vertices `vs`, which are those with a neighbour, in increasing
    order. -/
structure Lines (g : Graph ω) (vs : List Int) : Prop where
  sorted : vs.Pairwise (· < ·)
  neighbours : ∀ v, v ∈ vs ↔ adjKeys g v ≠ []

/-- The size query gives a length `L`; a buffer of at least `L` cells is returned and holds
    the lines with newlines between them, ended by NUL; with a smaller one nothing is
    returned, and `len` is `L`.  In no case is a cell outside the buffer written. -/
def Renders (float : ω → List Char) (g : Graph ω) : Prop :=
  ∃ L, (∀ len, graphCStr float g none len = some (none, L, false)) ∧ ∀ cells : List Char,
    (L ≤ cells.length → ∃ cells' vs,
      graphCStr float g (some cells) cells.length = some (some cells', cells.length, true) ∧
      cells'.length = cells.length ∧ Lines g vs ∧
      ['\n'].intercalate (vs.map (graphLine g)) ++ [nul] <+: cells') ∧
    (cells.length < L → ∃ cells',
      graphCStr float g (some cells) cells.length = some (some cells', L, false) ∧
      cells'.length = cells.length)

/-- The lines that are written are the lines of the vertices with a neighbour. -/
theorem Built.lines {g : Graph ω} {A : Adj Int ω} (h : Built g A) (hw : g.weight = false)
    (float : ω → List Char) {ps : List BagPtr} (hps : Walked g A ps) :
    ∃ vs, Lines g vs ∧ (ps.flatMap fun p => vertexText float g.weight p.node.key
        ((A p.node.key).getD [])) = vs.flatMap fun v => graphLine g v ++ ['\n'] := by
  refine ⟨(ps.map fun p => p.node.key).filter fun v => adjKeys g v ≠ [], ⟨?_, ?_⟩, ?_⟩
  · exact hps.sorted_keys.filter _
  · intro v
    rw [List.mem_filter, decide_eq_true_iff, and_iff_right_iff_imp]
    intro hv
    exact (hps.mem_keys h v).mpr ((h.known_iff v).mp (h.known_of_ne_nil hv))
  · rw [flatMap_filter, List.flatMap_map]
    congr 1
    funext p
    have hkeys := h.adjKeys_eq p.node.key
    rw [vertexText, hw]
    by_cases hes : (A p.node.key).getD [] = []
    · rw [hes, List.map_nil] at hkeys
      rw [if_pos hes, if_neg (not_not.mpr hkeys)]
    · have hne : adjKeys g p.node.key ≠ [] := by
        rw [hkeys]
        exact fun h0 => hes (List.map_eq_nil_iff.mp h0)
      rw [if_neg hes, if_pos hne, graphLine, hkeys, List.flatMap_map]
      rfl

/-- What `graph_c_str` does with the text `T` of the loops: it queries the length, reports
    that a buffer is too short, or ends the text. -/
theorem Built.graphCStr_spec {g : Graph ω} {A : Adj Int ω} (h : Built g A) (hw : g.weight = false)
    (float : ω → List Char) :
    ∃ vs T, Lines g vs ∧ T = (vs.flatMap fun v => graphLine g v ++ ['\n']) ∧
      (∀ len, graphCStr float g none len = some (none, T.length, false)) ∧
      ∀ cells : List Char, ∃ cells', cells'.length = cells.length ∧
        (T.length ≤ cells.length → T <+: cells') ∧
        graphCStr float g (some cells) cells.length
          = if cells.length < T.length then some (some cells', T.length, false)
            else (setAt cells' ((T.length : Int) - 1) nul).bind fun cells'' =>
              some (some cells'', cells.length, true) := by
  obtain ⟨ps, hwalk, hps⟩ := h.walk
  obtain ⟨vs, hvs, htext⟩ := h.lines hw float hps
  refine ⟨vs, _, hvs, htext, fun len => ?_, fun cells => ?_⟩
  · have hstart : Wrote 0 0 true [] (none, 0) :=
      ⟨rfl, rfl, fun cells hc => absurd hc.symm (Option.some_ne_none _)⟩
    obtain ⟨⟨buf, n⟩, hrun, hwrote⟩ := Wrote.vertices h float ps hps.owns hstart
    obtain rfl : n = _ := hwrote.count
    obtain rfl : buf = none := Option.isNone_iff_eq_none.mp hwrote.null
    rw [graphCStr, hwalk]
    simp only [Option.isNone_none, if_true, Option.bind_eq_bind, Option.bind_some, hrun]
    rfl
  · have hstart : Wrote 0 cells.length false [] (some cells, 0) := by
      refine ⟨rfl, rfl, ?_⟩
      rintro _ ⟨rfl⟩
      exact ⟨rfl, fun _ => List.nil_prefix⟩
    obtain ⟨⟨buf, n⟩, hrun, hwrote⟩ := Wrote.vertices h float ps hps.owns hstart
    obtain rfl : n = _ := hwrote.count
    cases buf with
    | none => exact absurd (show true = false from hwrote.null) (by decide)
    | some cells' =>
        obtain ⟨hlen, hpre⟩ := hwrote.cells cells' rfl
        refine ⟨cells', hlen, hpre, ?_⟩
        rw [graphCStr, hwalk]
        simp only [Option.isNone_some, Bool.false_eq_true, if_false, Option.bind_eq_bind,
          Option.bind_some, hrun]
        rfl

/-- **RENDERING.**  For every graph without weights that `graph_init` has returned, with zero
    in the recycled memory, the size query and the rendering of `graph_c_str` agree if and
    ONLY if some vertex has a neighbour: without an edge the length is 0, and the NUL is
    written before the buffer. -/
theorem graph_c_str_renders (direct : Bool) (v₀ e₀ e fuel : Nat) (mem : InitMem ω) (x : ω)
    (float : ω → List Char) (s : List Char) (hzero : ∀ i, (mem.vertex i).i = 0) {g : Graph ω}
    (hinit : graphInit mem x fuel (emptyGraph direct false v₀) e₀ s = some (g, e, 0)) :
    Renders float g ↔ ∃ v, adjKeys g v ≠ [] := by
  obtain ⟨-, hw, A, h⟩ := graphInit_built hzero hinit
  obtain ⟨vs, T, hvs, hT, hquery, hrun⟩ := h.graphCStr_spec hw float
  constructor
  · rintro ⟨L, hlen, hbufs⟩
    by_contra hnone
    have hnil : vs = [] := by
      rw [List.eq_nil_iff_forall_not_mem]
      exact fun v hv => hnone ⟨v, (hvs.neighbours v).mp hv⟩
    obtain rfl : T = [] := by rw [hT, hnil]; rfl
    obtain rfl : 0 = L :=
      (Prod.mk.inj (Prod.mk.inj (Option.some.inj ((hquery 0).symm.trans (hlen 0)))).2).1
    obtain ⟨cells', -, -, hstr⟩ := hrun []
    obtain ⟨cells₁, vs₁, hstr₁, -⟩ := (hbufs []).1 (Nat.le_refl _)
    rw [hstr, if_neg (by decide)] at hstr₁
    exact absurd hstr₁.symm (Option.some_ne_none _)
  · rintro ⟨v, hv⟩
    have hne : vs ≠ [] := List.ne_nil_of_mem ((hvs.neighbours v).mpr hv)
    rw [flatMap_lines _ hne] at hT
    refine ⟨T.length, hquery, fun cells => ?_⟩
    obtain ⟨cells', hlen, hpre, hstr⟩ := hrun cells
    refine ⟨fun hle => ?_, fun hlt => ⟨cells', by rw [hstr, if_pos hlt], hlen⟩⟩
    -- the last newline becomes the NUL
    have hinit : ['\n'].intercalate (vs.map (graphLine g)) <+: cells' :=
      (hT ▸ List.prefix_append _ _ : _ <+: T).trans (hpre hle)
    have hT' : T.length = (['\n'].intercalate (vs.map (graphLine g))).length + 1 := by
      rw [hT, List.length_append, List.length_singleton]
    have hindex : (T.length : Int) - 1
        = ((['\n'].intercalate (vs.map (graphLine g))).length : Nat) := by omega
    have hroom : (['\n'].intercalate (vs.map (graphLine g))).length < cells'.length := by omega
    rw [if_neg (by omega), hindex, setAt_natCast _ _ hroom, Option.bind_some] at hstr
    exact ⟨_, vs, hstr, (List.length_set ..).trans hlen, hvs, prefix_set hinit hroom nul⟩

/-- The edge 0 - 1. -/
theorem graph_c_str_edge : ∃ (g : Graph Int) (e : Nat),
    graphInit clearedMem 0 9 (emptyGraph false false 0) 0 ['2', ' ', '1', ' ', '0', ' ', '1']
      = some (g, e, 0) ∧ Renders decimal g := by
  have hsome : (graphInit clearedMem 0 9 (emptyGraph false false 0) 0
      ['2', ' ', '1', ' ', '0', ' ', '1']).map (fun r => (r.2.2, adjKeys r.1 0))
      = some (0, [1]) := by decide
  obtain ⟨⟨g, e, r⟩, hinit, hr⟩ := Option.map_eq_some_iff.mp hsome
  obtain ⟨rfl, hadj⟩ : r = 0 ∧ adjKeys g 0 = [1] := Prod.mk.inj hr
  refine ⟨g, e, hinit, (graph_c_str_renders false 0 0 e 9 clearedMem 0 decimal _ (fun _ => rfl)
    hinit).mpr ⟨0, ?_⟩⟩
  rw [hadj]
  exact List.cons_ne_nil 1 []

example : (graphInit clearedMem 0 9 (emptyGraph false false 0) 0
      ['2', ' ', '1', ' ', '0', ' ', '1']).bind
    (fun r => graphCStr decimal r.1 (some (List.replicate 17 'x')) 17)
    = some (some ['\t', '0', ':', ' ', '1', ',', ' ', '\n', '\t', '1', ':', ' ', '0', ',', ' ',
      nul, 'x'], 17, true) := rfl

/-- One vertex without an edge: the length is 0, and on a buffer of one cell a cell outside
    is written. -/
theorem graph_c_str_outside : ∃ (g : Graph Int) (e : Nat),
    graphInit clearedMem 0 9 (emptyGraph false false 0) 0 ['1', ' ', '0'] = some (g, e, 0) ∧
    graphCStr decimal g none 7 = some (none, 0, false) ∧
    graphCStr decimal g (some ['x']) 1 = none ∧ ¬ Renders decimal g := by
  have hsome : (graphInit clearedMem 0 9 (emptyGraph false false 0) 0 ['1', ' ', '0']).map
      (fun r => (r.2.2, graphCStr decimal r.1 none 7, graphCStr decimal r.1 (some ['x']) 1))
      = some (0, some (none, 0, false), none) := rfl
  obtain ⟨⟨g, e, r⟩, hinit, hr⟩ := Option.map_eq_some_iff.mp hsome
  obtain ⟨rfl, hr⟩ : r = 0 ∧ _ := Prod.mk.inj hr
  obtain ⟨hquery, hfault⟩ : graphCStr decimal g none 7 = some (none, 0, false) ∧
    graphCStr decimal g (some ['x']) 1 = none := Prod.mk.inj hr
  refine ⟨g, e, hinit, hquery, hfault, ?_⟩
  rintro ⟨L, hlen, hbufs⟩
  obtain rfl : 0 = L :=
    (Prod.mk.inj (Prod.mk.inj (Option.some.inj (hquery.symm.trans (hlen 7)))).2).1
  obtain ⟨cells', vs, hrun, -⟩ := (hbufs ['x']).1 (Nat.zero_le _)
  replace hrun : graphCStr decimal g (some ['x']) 1 = some _ := hrun
  rw [hfault] at hrun
  exact absurd hrun.symm (Option.some_ne_none _)

end AlgsGraph
