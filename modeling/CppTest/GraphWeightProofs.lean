import CppTest.GraphReverseProofs

/-! # Weights (`wgraph_init` in `src/algs/algorithms4th/graph.cpp`) and their reversal

    `wgraph_init` reads triples, the third of them a weight.  The conversion `%f` is an
    argument; so is which of the two callbacks that are called without a check are null.

    * `wgraphInit_built` — the graph is built as by `graph_init`.
    * `dgraph_reverse_copy_weights` — `dgraph_reverse_copy` adds its edges with the default
      weight of `graph_add_edge`, so it keeps the weights only where all of them are 0. -/

namespace AlgsGraph

open Machine RbTree LinkedTree Adjacency Scan

variable {ω : Type}

/-! ## The model -/

/-- How the conversion `%f` ends, with what it leaves of the text. -/
inductive FloatConv (ω : Type) where
  | value (x : ω) (rest : List Char)
  | mismatch (rest : List Char)
  | eof
  deriving Repr, DecidableEq

/-- The result of `fscanf(in, "%d%d%f", &w, &x, &we)`: `EOF`, less than 3, or 3. -/
inductive ScannedTriple (ω : Type) where
  | eof
  | few (rest : List Char)
  | all (w x : Int) (we : ω) (rest : List Char)
  deriving Repr, DecidableEq

/-- `fscanf(in, "%d%d%f", &w, &x, &we)`. -/
def scanTriple (float : List Char → FloatConv ω) (s : List Char) : ScannedTriple ω :=
  match scanPair s with
  | .eof => .eof
  | .few rest => .few rest
  | .both w x rest =>
      match float rest with
      | .value we rest => .all w x we rest
      | .mismatch rest => .few rest
      | .eof => .few []

/-- Whether the callbacks that are called without a check are there. -/
structure Callbacks where
  vertexEnd : Bool
  edgeEnd : Bool
  deriving Repr, DecidableEq

/-- One turn of the loop over the edges, the `k`-th of them next. -/
def wgraphPass (mem : Nat → Recycled ω × Recycled ω) (float : List Char → FloatConv ω) :
    List Char × Graph ω × Nat → Option (Pass (List Char × Graph ω × Nat) (Graph ω))
  | (s, g, k) =>
      match scanTriple float s with
      | .eof => some (.done g)
      | .few rest => some (.next (rest, g, k))
      | .all w x we rest => do
          -- an edge that is refused is reported and skipped
          let (g, _) ← graphAddEdge (mem k) g w x we
          some (.next (rest, g, k + 1))

/-- `wgraph_init`: the graph and `g.e` afterwards, and the returned value. -/
def wgraphInit (mem : InitMem ω) (float : List Char → FloatConv ω) (cb : Callbacks) (fuel : Nat)
    (g : Graph ω) (e : Nat) (s : List Char) : Option (Graph ω × Nat × Int) :=
  let g := { g with weight := true }
  match number s with
  | .value v s =>
      let g := { g with v := (wrap64 v).toNat }
      match number s with
      | .value e s => do
          let e := (wrap64 e).toNat
          let (g, r) ← addVertices mem.vertex g (List.range g.v)
          if r ≠ 0 then some (g, e, -1)
          -- a call through a null pointer
          else if cb.vertexEnd = false then none
          else do
            let g ← loop (wgraphPass mem.edge float) fuel (s, g, 0)
            if cb.edgeEnd = false then none else some (g, e, 0)
      | _ => some (g, e, -1)
  | _ => some (g, e, -1)

/-- The ends and weights in use at `v`. -/
def weightedAdj (g : Graph ω) (v : Int) : List (Int × ω) :=
  match (graphSearch g v).bind fun p => p.bind fun p => g.bags[p.addr]? with
  | some gb => ((gb.v.take gb.i).filterMap (Option.map GraphNode.key)).zip
      ((gb.w.getD []).take gb.i)
  | none => []

/-! ## What `wgraph_init` builds -/

/-- The turns of the loop over the edges keep a graph built. -/
theorem wgraphPass_built {mem : Nat → Recycled ω × Recycled ω} {float : List Char → FloatConv ω}
    {g₀ : Graph ω} {y : List Char × Graph ω × Nat} (h : SameKind g₀ y.2.1 ∧ ∃ A, Built y.2.1 A) :
    (∀ y', wgraphPass mem float y = some (.next y') →
      SameKind g₀ y'.2.1 ∧ ∃ A, Built y'.2.1 A) ∧
    ∀ g, wgraphPass mem float y = some (.done g) → SameKind g₀ g ∧ ∃ A, Built g A := by
  obtain ⟨s, g, k⟩ := y
  obtain ⟨hsame, A, h⟩ := h
  cases hp : scanTriple float s with
  | eof =>
      simp only [wgraphPass, hp, Option.some.injEq]
      refine ⟨fun y' hy => ?_, fun g' hg => ?_⟩
      · cases hy
      · obtain rfl := Pass.done.inj hg
        exact ⟨hsame, A, h⟩
  | few rest =>
      simp only [wgraphPass, hp, Option.some.injEq]
      refine ⟨fun y' hy => ?_, fun g' hg => ?_⟩
      · obtain rfl := Pass.next.inj hy
        exact ⟨hsame, A, h⟩
      · cases hg
  | all w x we rest =>
      obtain ⟨bags, hedge, hbuilt⟩ := h.addEdge (mem k) ⟨w, x, we⟩
      replace hedge : graphAddEdge (mem k) g w x we = some _ := hedge
      simp only [wgraphPass, hp, hedge, Option.bind_eq_bind, Option.bind_some,
        Option.some.injEq]
      refine ⟨fun y' hy => ?_, fun g' hg => ?_⟩
      · obtain rfl := Pass.next.inj hy
        exact ⟨⟨hsame.v, hsame.direct, hsame.weight⟩, _, hbuilt⟩
      · cases hg

/-- **A graph that `wgraph_init` has returned is built**, if the memory that became the field
    `i` of a bag was zero. -/
theorem wgraphInit_built {mem : InitMem ω} (hzero : ∀ i, (mem.vertex i).i = 0)
    {float : List Char → FloatConv ω} {cb : Callbacks} {fuel : Nat} {direct weight : Bool}
    {v₀ e₀ e : Nat} {s : List Char} {g : Graph ω}
    (hinit : wgraphInit mem float cb fuel (emptyGraph direct weight v₀) e₀ s = some (g, e, 0)) :
    g.direct = direct ∧ g.weight = true ∧ ∃ A, Built g A := by
  rw [wgraphInit] at hinit
  cases hv : number s with
  | eof =>
      rw [hv] at hinit
      cases hinit
  | mismatch rest =>
      rw [hv] at hinit
      cases hinit
  | value v s₁ =>
      simp only [hv] at hinit
      cases he : number s₁ with
      | eof =>
          rw [he] at hinit
          cases hinit
      | mismatch rest =>
          rw [he] at hinit
          cases hinit
      | value e' s₂ =>
          simp only [he] at hinit
          obtain ⟨g₁, hadd, hsame, hbuilt⟩ := built_addVertices hzero direct true (wrap64 v).toNat
          replace hadd : addVertices mem.vertex
            { (emptyGraph direct weight v₀ : Graph ω) with weight := true, v := (wrap64 v).toNat }
            (List.range (wrap64 v).toNat) = some (g₁, 0) := hadd
          rw [hadd] at hinit
          simp only [Option.bind_eq_bind, Option.bind_some] at hinit
          rw [if_neg (by decide)] at hinit
          by_cases hcb : cb.vertexEnd = false
          · rw [if_pos hcb] at hinit
            cases hinit
          rw [if_neg hcb] at hinit
          obtain ⟨g₂, hloop, hinit⟩ := Option.bind_eq_some_iff.mp hinit
          split_ifs at hinit
          obtain ⟨rfl, -⟩ := Prod.mk.inj (Option.some.inj hinit)
          have hinv : SameKind g₁ g₁ ∧ ∃ A, Built g₁ A := ⟨⟨rfl, rfl, rfl⟩, _, hbuilt⟩
          obtain ⟨hkind, hA⟩ := loop_keeps
            (fun (y y' : List Char × Graph ω × Nat) (h : SameKind g₁ y.2.1 ∧ ∃ A, Built y.2.1 A)
              hpass => (wgraphPass_built h).1 y' hpass)
            (fun y g h hpass => (wgraphPass_built h).2 g hpass) hinv hloop
          exact ⟨hkind.direct.trans hsame.direct, hkind.weight.trans hsame.weight, hA⟩

/-! ## Weights after the reversal -/

theorem Built.weightedAdj_eq {g : Graph ω} {A : Adj Int ω} (h : Built g A) {v : Int}
    (hw : v ∈ vertexKeys g.v → g.weight = true) : weightedAdj g v = (A v).getD [] := by
  obtain ⟨t, href⟩ := h.refines
  rw [weightedAdj]
  rw [href.index.search]
  cases howner : owner (vertexKeys g.v) v with
  | none =>
      rw [href.unknown v howner]
      rfl
  | some p =>
      obtain ⟨gb, es, hget, hA, hholds⟩ := href.bags v p howner
      have hmem : v ∈ vertexKeys g.v := (owner_isSome _ v).mp (by rw [howner]; rfl)
      obtain ⟨w, hgbw, -, hweights⟩ := hholds.weights (hw hmem)
      simp only [Option.bind_some, hget, hA, Option.getD_some, hgbw, hweights, hholds.cells]
      rw [List.filterMap_map]
      have hkeys : es.filterMap (Option.map GraphNode.key ∘ fun x => some ⟨x.1⟩) = es.map Prod.fst :=
        congrFun List.filterMap_eq_map es
      rw [hkeys]
      exact (List.zip_of_prod rfl rfl).symm

/-- All weights are 0. -/
def Unweighted (zero : ω) (g : Graph ω) : Prop := ∀ v, ∀ y ∈ weightedAdj g v, y.2 = zero

/-- The weighted edges of `g` are those of `og` turned round, each as often as there. -/
def ReversesWeights [DecidableEq ω] (og g : Graph ω) : Prop :=
  ∀ v w x, (weightedAdj g w).count (v, x) = (weightedAdj og v).count (w, x)

/-- The ends with their labels, where the labels are all the same. -/
theorem map_label_of_unweighted {zero : ω} {l : List (Int × ω)} (h : ∀ y ∈ l, y.2 = zero) :
    l = (l.map Prod.fst).map fun u => (u, zero) := by
  rw [List.map_map]
  refine (List.map_id l).symm.trans (List.map_congr_left fun y hy => ?_)
  exact Prod.ext rfl (h y hy)

section Reversed
variable [DecidableEq ω]

/-- How often an end stands in a list in which all labels are the same. -/
theorem count_map_label (zero x : ω) (v : Int) (l : List Int) :
    (l.map fun u => (u, zero)).count (v, x) = if x = zero then l.count v else 0 := by
  by_cases hx : x = zero
  · subst hx
    rw [if_pos rfl]
    exact List.count_map_of_injective l _ (fun a b hab => (Prod.mk.inj hab).1) v
  · rw [if_neg hx]
    refine List.count_eq_zero.mpr fun hmem => hx ?_
    obtain ⟨u, -, hu⟩ := List.mem_map.mp hmem
    exact (Prod.mk.inj hu).2.symm

/-- What the copy counts. -/
theorem Built.count_weightedAdj {og : Graph ω} {A : Adj Int ω} (h : Built og A)
    (hd : og.direct = true) (hw : og.weight = true) {mem : InitMem ω}
    (hzero : ∀ i, (mem.vertex i).i = 0) (zero : ω) :
    ∃ g, dgraphReverseCopy mem zero og = some (og, g) ∧
      ∀ v w x, (weightedAdj g w).count (v, x)
        = if x = zero then (adjKeys og v).count w else 0 := by
  obtain ⟨g, A', hrun, hbuilt, hv, hsame, hlabels, hlists⟩ :=
    h.reverseCopy_lists (.inl hd) hzero zero
  refine ⟨g, hrun, fun v w x => ?_⟩
  rw [← (hlists w).2 v]
  have hlist : weightedAdj g w = (adjKeys g w).map fun u => (u, zero) := by
    rw [hbuilt.adjKeys_eq, ← map_label_of_unweighted (hlabels w)]
    refine hbuilt.weightedAdj_eq fun hmem => ?_
    -- where there is a vertex the copy is not the null graph
    have hne : og.v ≠ 0 := by
      intro h0
      rw [hv, h0] at hmem
      exact absurd hmem List.not_mem_nil
    exact (hsame hne).weight.trans hw
  rw [hlist, count_map_label]

/-- **Weights are kept where they are all 0, and nowhere else.** -/
theorem Built.reversesWeights_iff {og : Graph ω} {A : Adj Int ω} (h : Built og A)
    (hw : og.weight = true) (zero : ω) {g : Graph ω}
    (hcount : ∀ v w x, (weightedAdj g w).count (v, x)
      = if x = zero then (adjKeys og v).count w else 0) :
    ReversesWeights og g ↔ Unweighted zero og := by
  constructor
  · -- an edge with another weight is nowhere in the copy
    rintro hrev v ⟨w, x⟩ hy
    have hpos := List.count_pos_iff.mpr hy
    rw [← hrev v w x, hcount] at hpos
    by_contra hx
    rw [if_neg hx] at hpos
    exact Nat.lt_irrefl 0 hpos
  · intro hall v w x
    have hlist := map_label_of_unweighted (hall v)
    have hkeys : (weightedAdj og v).map Prod.fst = adjKeys og v := by
      rw [h.weightedAdj_eq fun _ => hw, h.adjKeys_eq]
    rw [hkeys] at hlist
    rw [hcount, hlist, count_map_label]

/-- **REVERSAL OF WEIGHTS.**  For every directed graph that `wgraph_init` has returned, with
    zero in the recycled memory, `dgraph_reverse_copy` returns, and it turns every weighted
    edge round if and ONLY if all weights are 0: the edges are added with the default
    weight. -/
theorem dgraph_reverse_copy_weights (weight : Bool) (v₀ e₀ e fuel : Nat) (mem₀ mem : InitMem ω)
    (float : List Char → FloatConv ω) (cb : Callbacks) (zero : ω) (s : List Char)
    (hzero₀ : ∀ i, (mem₀.vertex i).i = 0) (hzero : ∀ i, (mem.vertex i).i = 0) {og : Graph ω}
    (hinit : wgraphInit mem₀ float cb fuel (emptyGraph true weight v₀) e₀ s = some (og, e, 0)) :
    ∃ g, dgraphReverseCopy mem zero og = some (og, g) ∧
      (ReversesWeights og g ↔ Unweighted zero og) := by
  obtain ⟨hd, hw, A, h⟩ := wgraphInit_built hzero₀ hinit
  obtain ⟨g, hrun, hcount⟩ := h.count_weightedAdj hd hw hzero zero
  exact ⟨g, hrun, h.reversesWeights_iff hw zero hcount⟩

end Reversed

/-- `%f` on the texts below: they have no point and no exponent. -/
def wholeFloat (s : List Char) : FloatConv Int :=
  match number s with
  | .value n rest => .value n rest
  | .mismatch rest => .mismatch rest
  | .eof => .eof

/-- The edge 0 -> 1 with the weight 0. -/
theorem dgraph_reverse_copy_weightless : ∃ (og g : Graph Int) (e : Nat),
    wgraphInit clearedMem wholeFloat ⟨true, true⟩ 9 (emptyGraph true true 0) 0
      ['2', ' ', '1', ' ', '0', ' ', '1', ' ', '0'] = some (og, e, 0) ∧
    dgraphReverseCopy clearedMem 0 og = some (og, g) ∧
    (ReversesWeights og g ↔ Unweighted 0 og) := by
  have hsome : (wgraphInit clearedMem wholeFloat ⟨true, true⟩ 9 (emptyGraph true true 0) 0
      ['2', ' ', '1', ' ', '0', ' ', '1', ' ', '0']).map (fun r => r.2.2) = some 0 := by decide
  obtain ⟨⟨og, e, r⟩, hinit, hr⟩ := Option.map_eq_some_iff.mp hsome
  obtain rfl : r = 0 := hr
  obtain ⟨g, hrun, hiff⟩ := dgraph_reverse_copy_weights true 0 0 e 9 clearedMem clearedMem
    wholeFloat ⟨true, true⟩ 0 _ (fun _ => rfl) (fun _ => rfl) hinit
  exact ⟨og, g, e, hinit, hrun, hiff⟩

/-- The edge 0 -> 1 with the weight 5 becomes 1 -> 0 with the weight 0. -/
theorem dgraph_reverse_copy_drops : ∃ (og g : Graph Int) (e : Nat),
    wgraphInit clearedMem wholeFloat ⟨true, true⟩ 9 (emptyGraph true true 0) 0
      ['2', ' ', '1', ' ', '0', ' ', '1', ' ', '5'] = some (og, e, 0) ∧
    dgraphReverseCopy clearedMem 0 og = some (og, g) ∧
    weightedAdj og 0 = [(1, 5)] ∧ weightedAdj g 1 = [(0, 0)] ∧ ¬ ReversesWeights og g := by
  have hsome : ((wgraphInit clearedMem wholeFloat ⟨true, true⟩ 9 (emptyGraph true true 0) 0
      ['2', ' ', '1', ' ', '0', ' ', '1', ' ', '5']).bind fun r =>
        (dgraphReverseCopy clearedMem 0 r.1).map fun c =>
          (r.2.2, weightedAdj r.1 0, weightedAdj c.2 1))
      = some (0, [(1, 5)], [(0, 0)]) := by decide
  obtain ⟨⟨og, e, r⟩, hinit, hmap⟩ := Option.bind_eq_some_iff.mp hsome
  obtain ⟨c, hcopy, hlists⟩ := Option.map_eq_some_iff.mp hmap
  obtain ⟨rfl, hlists⟩ : r = 0 ∧ _ := Prod.mk.inj hlists
  obtain ⟨hog, hg⟩ : weightedAdj og 0 = [(1, 5)] ∧ weightedAdj c.2 1 = [(0, 0)] :=
    Prod.mk.inj hlists
  have hzero : ∀ i, (clearedMem.vertex i).i = 0 := fun _ => rfl
  obtain ⟨hd, hw, A, h⟩ := wgraphInit_built hzero hinit
  obtain ⟨g, hrun, hcount⟩ := h.count_weightedAdj hd hw hzero 0
  obtain rfl := Option.some.inj (hcopy.symm.trans hrun)
  refine ⟨og, g, e, hinit, hrun, hog, hg, fun hrev => ?_⟩
  have hcounts := hrev 0 1 5
  rw [hog, hg] at hcounts
  exact absurd hcounts (by decide)

end AlgsGraph
