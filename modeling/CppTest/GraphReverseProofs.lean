import CppTest.GraphBuiltProofs

/-! # Reversal by copy (`dgraph_reverse_copy` in `src/algs/algorithms4th/graph.cpp`)

    The copy has a tree and pools of its own.  Its vertices are added by `graph_add_vertex`,
    and then every edge of the original, found by the walk over the vertices and their
    lists, is added the other way round.

    * `Built.reverseVertex_eq` — the loop over the list of a vertex adds its edges turned
      round; `Built.reverseCopy` puts the loops together.
    * `dgraph_reverse_copy_reverses` — the list of `w` is the sorted list of the sources of
      the edges to `w`, so that reversing twice sorts the lists. -/

namespace AlgsGraph

open Machine RbTree LinkedTree Adjacency

variable {ω : Type}

/-! ## The model -/

/-- `graph_vertex`, with an array of `g.v` cells. -/
def graphVertex (g : Graph ω) : Option (List GraphNode) := do
  let ps ← graphWalk g
  some (ps.map BagPtr.node)

/-- `graph{0}`. -/
def nullGraph : Graph ω := emptyGraph false false 0

/-- The turn of the inner loop for one cell of the list of `node`, the `k`-th edge next; the
    weight is the default of `graph_add_edge`, and what that returns is ignored. -/
def reverseTurn (mem : Nat → Recycled ω × Recycled ω) (zero : ω) (node : GraphNode)
    (cells : List (Option GraphNode)) (st : Graph ω × Nat) (j : Nat) : Option (Graph ω × Nat) := do
  match ← getAt cells j with
  | none => some st
  | some adj =>
      let (g, _) ← graphAddEdge (mem st.2) st.1 adj.key node.key zero
      some (g, st.2 + 1)

/-- The turn of the outer loop for one vertex. -/
def reverseVertex (mem : Nat → Recycled ω × Recycled ω) (zero : ω) (og : Graph ω)
    (st : Graph ω × Nat) (node : GraphNode) : Option (Graph ω × Nat) := do
  match ← graphAdj og node.key with
  | (none, _) => some st
  | (some cells, sz) => (List.range sz).foldlM (reverseTurn mem zero node cells) st

/-- `dgraph_reverse_copy`: the argument afterwards and the result.  Nothing is written to
    the argument, and the copy has a new tree and new pools. -/
def dgraphReverseCopy (mem : InitMem ω) (zero : ω) (og : Graph ω) :
    Option (Graph ω × Graph ω) :=
  if og.direct = false then some (og, nullGraph)
  else do
    let g := { og with tr := emptyTree, bags := [] }
    let (g, r) ← addVertices mem.vertex g (List.range og.v)
    if r ≠ 0 then some (og, nullGraph)
    else do
      let vers ← graphVertex og
      if vers.length = 0 then some (og, nullGraph)
      else do
        let (g, _) ← vers.foldlM (reverseVertex mem.edge zero og) (g, 0)
        some (og, g)

/-! ## The loops -/

/-- `graph_add_edge` in a loop, the `k`-th edge next. -/
def edgeTurn (mem : Nat → Recycled ω × Recycled ω) (st : Graph ω × Nat) (e : Edge Int ω) :
    Option (Graph ω × Nat) := do
  let (g, _) ← graphAddEdge (mem st.2) st.1 e.src e.dst e.label
  some (g, st.2 + 1)

theorem Built.edges (mem : Nat → Recycled ω × Recycled ω) (es : List (Edge Int ω)) :
    ∀ {g : Graph ω} {A : Adj Int ω} (k : Nat), Built g A →
      ∃ g' k', es.foldlM (edgeTurn mem) (g, k) = some (g', k') ∧ SameKind g g' ∧
        Built g' (addEdges g.direct A es) := by
  induction es with
  | nil => exact fun {g A} k h => ⟨g, k, rfl, ⟨rfl, rfl, rfl⟩, h⟩
  | cons e es ih =>
      intro g A k h
      obtain ⟨bags, hedge, h₁⟩ := h.addEdge (mem k) e
      obtain ⟨g', k', hrun, hsame, h'⟩ := ih (k + 1) h₁
      refine ⟨g', k', ?_, ⟨hsame.v, hsame.direct, hsame.weight⟩, h'⟩
      rw [List.foldlM_cons, edgeTurn]
      dsimp only
      rw [hedge]
      exact hrun

/-- The loop over the list of a vertex adds its edges turned round. -/
theorem Built.reverseVertex_eq {og : Graph ω} {A : Adj Int ω} (h : Built og A)
    (mem : Nat → Recycled ω × Recycled ω) (zero : ω) {v : Int} (hv : (A v).isSome)
    (st : Graph ω × Nat) :
    reverseVertex mem zero og st ⟨v⟩
      = ((adjKeys og v).map fun w => (⟨w, v, zero⟩ : Edge Int ω)).foldlM (edgeTurn mem) st := by
  obtain ⟨cells, hadj, hcells⟩ := h.adj hv
  rw [reverseVertex, hadj, List.foldlM_map]
  refine foldlM_range (adjKeys og v) (fun i w hw st => ?_) st
  simp only [reverseTurn, hcells i w hw, edgeTurn, Option.bind_eq_bind, Option.bind_some]

/-- The loop over the vertices adds all edges turned round. -/
theorem Built.reverseVertices_eq {og : Graph ω} {A : Adj Int ω} (h : Built og A)
    (mem : Nat → Recycled ω × Recycled ω) (zero : ω) (vs : List Int) :
    ∀ st : Graph ω × Nat, (∀ v ∈ vs, (A v).isSome) →
      (vs.map GraphNode.mk).foldlM (reverseVertex mem zero og) st
        = (reversedEdges vs (adjKeys og) zero).foldlM (edgeTurn mem) st := by
  induction vs with
  | nil => exact fun st _ => rfl
  | cons v vs ih =>
      intro st hvs
      rw [List.map_cons, List.foldlM_cons, h.reverseVertex_eq mem zero (hvs v List.mem_cons_self),
        reversedEdges, List.flatMap_cons, List.foldlM_append]
      congr 1
      funext st'
      exact ih st' fun u hu => hvs u (List.mem_cons_of_mem v hu)

/-! ## The copy -/

/-- The adjacency lists of the copy: at each vertex the sources of the edges to it. -/
def Reverses (zero : ω) (vs : List Int) (og : Graph ω) (A' : Adj Int ω) : Prop :=
  ∀ w, A' w = if w ∈ vertexKeys og.v then
    some ((sources vs (adjKeys og) w).map fun v => (v, zero)) else none

/-- The end points of an edge that is turned round are vertices. -/
theorem Built.known_reversed {og : Graph ω} {A : Adj Int ω} (h : Built og A) {vs : List Int}
    (hvs : ∀ v ∈ vs, v ∈ vertexKeys og.v) (zero : ω) :
    ∀ e ∈ reversedEdges vs (adjKeys og) zero, Known (isolated (vertexKeys og.v)) e := by
  intro e he
  obtain ⟨v, hv, he⟩ := List.mem_flatMap.mp he
  obtain ⟨w, hw, rfl⟩ := List.mem_map.mp he
  have hw : w ∈ vertexKeys og.v := (h.known_iff w).mp (h.known_of_mem hw)
  refine ⟨?_, ?_⟩
  · show (isolated (vertexKeys og.v) w).isSome
    rw [isolated, if_pos hw]
    rfl
  · show (isolated (vertexKeys og.v) v).isSome
    rw [isolated, if_pos (hvs v hv)]
    rfl

theorem Built.reverses {og : Graph ω} {A : Adj Int ω} (h : Built og A) {vs : List Int}
    (hvs : ∀ v ∈ vs, v ∈ vertexKeys og.v) (zero : ω) :
    Reverses zero vs og (addEdges true (isolated (vertexKeys og.v))
      (reversedEdges vs (adjKeys og) zero)) := by
  -- no edge is refused
  have hall : (reversedEdges vs (adjKeys og) zero).filter
      (fun e => Known (isolated (vertexKeys og.v)) e) = reversedEdges vs (adjKeys og) zero := by
    rw [List.filter_eq_self]
    exact fun e he => decide_eq_true (h.known_reversed hvs zero e he)
  intro w
  rw [addEdges_apply, hall, endsAt_reversedEdges, isolated]
  split_ifs with hw
  · rfl
  · rfl

/-- **The copy is the reversed graph.**  The vertices `vs` are in increasing order. -/
theorem Built.reverseCopy {og : Graph ω} {A : Adj Int ω} (h : Built og A) (hd : og.direct = true)
    (hv : og.v ≠ 0) {mem : InitMem ω} (hzero : ∀ i, (mem.vertex i).i = 0) (zero : ω) :
    ∃ g A' vs, dgraphReverseCopy mem zero og = some (og, g) ∧ SameKind og g ∧ Built g A' ∧
      vs.Pairwise (· < ·) ∧ (∀ v, v ∈ vs ↔ v ∈ vertexKeys og.v) ∧ Reverses zero vs og A' := by
  obtain ⟨ps, hwalk, hps⟩ := h.walk
  obtain ⟨g₁, hadd, hsame₁, h₁⟩ := built_addVertices hzero og.direct og.weight og.v
  obtain ⟨g, k, hrun, hsame, hbuilt⟩ := h₁.edges mem.edge
    (reversedEdges (ps.map fun p => p.node.key) (adjKeys og) zero) 0
  have hmem := hps.mem_keys h
  have hlen : (ps.map BagPtr.node).length ≠ 0 := by
    -- there is a vertex, so the walk finds one
    obtain ⟨k, hk⟩ := List.exists_mem_of_length_pos (l := vertexKeys og.v)
      (by rw [length_vertexKeys]; omega)
    obtain ⟨p, hp, -⟩ := List.mem_map.mp ((hmem k).mpr hk)
    rw [List.length_map]
    exact Nat.ne_of_gt (List.length_pos_of_mem hp)
  have hloops := h.reverseVertices_eq mem.edge zero (ps.map fun p => p.node.key) (g₁, 0)
    fun v hv => (h.known_iff v).mpr ((hmem v).mp hv)
  rw [hrun, List.map_map] at hloops
  rw [hsame₁.direct, show (emptyGraph og.direct og.weight og.v : Graph ω).direct = true from hd]
    at hbuilt
  refine ⟨g, _, ps.map fun p => p.node.key, ?_, ?_, hbuilt, ?_, hmem,
    h.reverses (fun v hv => (hmem v).mp hv) zero⟩
  · have hstart : addVertices mem.vertex { og with tr := emptyTree, bags := [] }
        (List.range og.v) = some (g₁, 0) := hadd
    rw [dgraphReverseCopy, if_neg (by rw [hd]; decide)]
    simp only [hstart, graphVertex, hwalk, Option.bind_eq_bind, Option.bind_some]
    rw [if_neg (by decide), if_neg hlen]
    exact congrArg (Option.bind · _) hloops
  · exact ⟨hsame.v.trans hsame₁.v, hsame.direct.trans hsame₁.direct,
      hsame.weight.trans hsame₁.weight⟩
  · exact hps.sorted_keys

/-! ## The lists of the copy -/

/-- `graph_search` finds the vertex. -/
def HasVertex (g : Graph ω) (k : Int) : Prop := ∃ p, graphSearch g k = some (some p)

theorem Built.hasVertex_iff {g : Graph ω} {A : Adj Int ω} (h : Built g A) (k : Int) :
    HasVertex g k ↔ k ∈ vertexKeys g.v := by
  obtain ⟨t, href⟩ := h.refines
  rw [HasVertex, href.index.search, ← owner_isSome, Option.isSome_iff_exists]
  simp only [Option.some.injEq]

theorem built_nullGraph : Built (nullGraph : Graph ω) (isolated []) where
  refines := ⟨.nil, refines_emptyGraph false false 0⟩
  closed := closed_isolated []
  roomy hd := absurd hd Bool.false_ne_true

/-- A graph without vertices has the empty copy. -/
theorem Built.reverseCopy_null {og : Graph ω} {A : Adj Int ω} (h : Built og A) (hv : og.v = 0)
    (mem : InitMem ω) (zero : ω) : dgraphReverseCopy mem zero og = some (og, nullGraph) := by
  rw [dgraphReverseCopy]
  by_cases hd : og.direct = false
  · rw [if_pos hd]
  · rw [if_neg hd]
    obtain ⟨ps, hwalk, hps⟩ := h.walk
    have hnil : ps.map BagPtr.node = [] := by
      rw [List.map_eq_nil_iff, List.eq_nil_iff_forall_not_mem]
      intro p hp
      have hmem := (hps.mem_keys h p.node.key).mp (List.mem_map_of_mem hp)
      rw [hv] at hmem
      exact absurd hmem List.not_mem_nil
    simp only [hv, List.range_zero, addVertices, graphVertex, hwalk, hnil, Option.bind_eq_bind,
      Option.bind_some]
    rfl

/-- **The copy lists the sources in order.**  A graph without vertices is its own reverse,
    directed or not. -/
theorem Built.reverseCopy_lists {og : Graph ω} {A : Adj Int ω} (h : Built og A)
    (hd : og.direct = true ∨ og.v = 0) {mem : InitMem ω} (hzero : ∀ i, (mem.vertex i).i = 0)
    (zero : ω) :
    ∃ g A', dgraphReverseCopy mem zero og = some (og, g) ∧ Built g A' ∧ g.v = og.v ∧
      (og.v ≠ 0 → SameKind og g) ∧ (∀ w, ∀ y ∈ (A' w).getD [], y.2 = zero) ∧
      ∀ w, (adjKeys g w).Pairwise (· ≤ ·) ∧ ∀ v, (adjKeys g w).count v = (adjKeys og v).count w := by
  by_cases hv : og.v = 0
  · refine ⟨nullGraph, _, h.reverseCopy_null hv mem zero, built_nullGraph, hv.symm,
      fun hne => absurd hv hne, fun w y hy => absurd hy List.not_mem_nil, fun w => ?_⟩
    rw [built_nullGraph.adjKeys_of_null rfl w]
    refine ⟨List.Pairwise.nil, fun v => ?_⟩
    rw [h.adjKeys_of_null hv v]
    rfl
  · obtain ⟨g, A', vs, hrun, hsame, hbuilt, hsorted, hvs, hrev⟩ :=
      h.reverseCopy (hd.resolve_right hv) hv hzero zero
    refine ⟨g, A', hrun, hbuilt, hsame.v, fun _ => hsame, fun w y hy => ?_, fun w => ?_⟩
    · rw [hrev w] at hy
      split_ifs at hy
      · obtain ⟨v, -, rfl⟩ := List.mem_map.mp hy
        rfl
      · exact absurd hy List.not_mem_nil
    rw [hbuilt.adjKeys_eq, hrev w]
    by_cases hw : w ∈ vertexKeys og.v
    · rw [if_pos hw, Option.getD_some, List.map_map]
      have hid : (Prod.fst ∘ fun v : Int => (v, zero)) = id := rfl
      rw [hid, List.map_id]
      refine ⟨sources_sorted le_refl (hsorted.imp fun h => le_of_lt h) _ w, fun v => ?_⟩
      rw [count_sources (hsorted.imp fun h => ne_of_lt h)]
      by_cases hmem : v ∈ vs
      · rw [if_pos hmem]
      · -- a key without a vertex has no list
        have hnone : A v = none := by
          rw [← Option.not_isSome_iff_eq_none, h.known_iff, ← hvs]
          exact hmem
        rw [if_neg hmem, h.adjKeys_eq, hnone]
        rfl
    · rw [if_neg hw]
      refine ⟨List.Pairwise.nil, fun v => ?_⟩
      refine (List.count_eq_zero.mpr fun hmem => hw ?_).symm
      exact (h.known_iff w).mp (h.known_of_mem hmem)

/-- **REVERSAL BY COPY.**  For every directed graph without weights that `graph_init` has
    returned, with zero in the recycled memory, `dgraph_reverse_copy` returns, and leaves
    its argument.  The result has the same vertices; the list of `w` there is increasing
    and counts each `v` as often as `v` lists `w` in the argument.  A second reversal gives
    the lists of the argument, sorted. -/
theorem dgraph_reverse_copy_reverses (v₀ e₀ e fuel : Nat) (mem₀ mem mem' : InitMem ω) (zero : ω)
    (s : List Char) (hzero₀ : ∀ i, (mem₀.vertex i).i = 0) (hzero : ∀ i, (mem.vertex i).i = 0)
    (hzero' : ∀ i, (mem'.vertex i).i = 0) {og : Graph ω}
    (hinit : graphInit mem₀ zero fuel (emptyGraph true false v₀) e₀ s = some (og, e, 0)) :
    ∃ g g', dgraphReverseCopy mem zero og = some (og, g) ∧
      (∀ k, HasVertex g k ↔ HasVertex og k) ∧
      (∀ w, (adjKeys g w).Pairwise (· ≤ ·) ∧
        ∀ v, (adjKeys g w).count v = (adjKeys og v).count w) ∧
      dgraphReverseCopy mem' zero g = some (g, g') ∧
      (∀ k, HasVertex g' k ↔ HasVertex og k) ∧
      (∀ v, (adjKeys g' v).Pairwise (· ≤ ·) ∧ (adjKeys g' v).Perm (adjKeys og v)) ∧
      (og.v ≠ 0 → SameKind og g ∧ SameKind og g') := by
  obtain ⟨hd, -, A, h⟩ := graphInit_built hzero₀ hinit
  obtain ⟨g, A₁, hrun₁, h₁, hv₁, hsame₁, -, hlists₁⟩ := h.reverseCopy_lists (.inl hd) hzero zero
  have hd₁ : g.direct = true ∨ g.v = 0 := by
    by_cases hv : og.v = 0
    · exact .inr (hv₁.trans hv)
    · exact .inl ((hsame₁ hv).direct.trans hd)
  obtain ⟨g', A₂, hrun₂, h₂, hv₂, hsame₂, -, hlists₂⟩ := h₁.reverseCopy_lists hd₁ hzero' zero
  refine ⟨g, g', hrun₁, fun k => ?_, hlists₁, hrun₂, fun k => ?_, fun v => ⟨(hlists₂ v).1, ?_⟩,
    fun hv => ?_⟩
  · rw [h₁.hasVertex_iff, h.hasVertex_iff, hv₁]
  · rw [h₂.hasVertex_iff, h.hasVertex_iff, hv₂, hv₁]
  · -- what is turned round twice is counted as before
    rw [List.perm_iff_count]
    intro w
    rw [(hlists₂ v).2, (hlists₁ w).2]
  · have hs₁ := hsame₁ hv
    have hs₂ := hsame₂ (hv₁ ▸ hv)
    exact ⟨hs₁, hs₂.v.trans hs₁.v, hs₂.direct.trans hs₁.direct, hs₂.weight.trans hs₁.weight⟩

/-- The edges 1 -> 0, 0 -> 1 and 1 -> 0 of a graph of two vertices. -/
theorem dgraph_reverse_copy_parallel : ∃ (og g g' : Graph Int) (e : Nat),
    graphInit clearedMem 0 9 (emptyGraph true false 0) 0
      ['2', ' ', '3', ' ', '1', ' ', '0', ' ', '0', ' ', '1', ' ', '1', ' ', '0']
      = some (og, e, 0) ∧
    dgraphReverseCopy clearedMem 0 og = some (og, g) ∧
    (adjKeys g 0).count 1 = (adjKeys og 1).count 0 ∧
    dgraphReverseCopy clearedMem 0 g = some (g, g') ∧ (adjKeys g' 1).Perm (adjKeys og 1) := by
  have hsome : (graphInit clearedMem 0 9 (emptyGraph true false 0) 0
      ['2', ' ', '3', ' ', '1', ' ', '0', ' ', '0', ' ', '1', ' ', '1', ' ', '0']).map
        (fun r => r.2.2) = some 0 := by decide
  obtain ⟨⟨og, e, r⟩, hinit, hr⟩ := Option.map_eq_some_iff.mp hsome
  obtain rfl : r = 0 := hr
  obtain ⟨g, g', hrun, -, hlists, hrun', -, hlists', -⟩ := dgraph_reverse_copy_reverses 0 0 e 9
    clearedMem clearedMem clearedMem 0 _ (fun _ => rfl) (fun _ => rfl) (fun _ => rfl) hinit
  exact ⟨og, g, g', e, hinit, hrun, (hlists 0).2 1, hrun', (hlists' 1).2⟩

end AlgsGraph
