import CppTest.GraphProofs

/-! # What `graph_adj` returns

    Three statements about whole runs of `graph_add_vertex` and `graph_add_edge`, all
    read off `Refines.calls`:

    * `graph_adjacency` — on a graph with given vertices, the lists after any edges;
    * `graph_symmetry` — the lists of an undirected graph are symmetric until a vertex
      with a neighbour is added again;
    * `graph_recycled_memory` — the lists are those of the calls exactly as long as
      every new bag finds a zero where its `i` will be: `graph_bag_new` does not set
      it. -/

namespace AlgsGraph

open Machine LinkedTree RbTree Adjacency

variable {ω : Type}

/-! ## Exact lists -/

/-- The calls that add the vertices `vs`, each with the memory it finds. -/
def vertexCalls (vs : List (Int × Recycled ω)) : List (Call ω) :=
  vs.map fun x => .vertex x.1 x.2

/-- The calls that add the edges `es`, each with the memory it finds. -/
def edgeCalls (es : List (Edge Int ω × Recycled ω × Recycled ω)) : List (Call ω) :=
  es.map fun x => .edge x.1 x.2

/-- The ends at `v` of those edges whose end points are both in `vs`, in order. -/
def edgeEnds (direct : Bool) (vs : List Int) (es : List (Edge Int ω)) (v : Int) :
    List (Int × ω) :=
  (es.filter fun e => e.src ∈ vs ∧ e.dst ∈ vs).flatMap (endsAt direct v)

theorem flatMap_keys_vertexCalls (vs : List (Int × Recycled ω)) :
    (vertexCalls vs).flatMap Call.keys = vs.map Prod.fst := by
  induction vs with
  | nil => rfl
  | cons x vs ih =>
      show x.1 :: (vertexCalls vs).flatMap Call.keys = _
      rw [ih]
      rfl

theorem zeroed_vertexCalls {vs : List (Int × Recycled ω)} (hzero : ∀ x ∈ vs, x.2.i = 0) :
    ∀ c ∈ vertexCalls vs, c.Zeroed := by
  intro c hc
  obtain ⟨x, hx, rfl⟩ := List.mem_map.mp hc
  exact hzero x hx

/-- Vertices only: every list is empty. -/
theorem foldl_vertexCalls (direct : Bool) (vs : List (Int × Recycled ω)) :
    ∀ (A : Adj Int ω) (v : Int), (∀ es, A v = some es → es = []) →
      ∀ es, ((vertexCalls vs).map Call.change).foldl (change direct) A v = some es → es = [] := by
  induction vs with
  | nil => exact fun A v hA => hA
  | cons x vs ih =>
      intro A v hA
      refine ih (addVertex A x.1) v ?_
      intro es hes
      rw [addVertex, Function.update_apply] at hes
      split_ifs at hes
      · exact (Option.some.inj hes).symm
      · exact hA es hes

/-- Edges only: the end points are looked up among the vertices from before. -/
theorem replies_edgeCalls (direct : Bool) (es : List (Edge Int ω × Recycled ω × Recycled ω)) :
    ∀ A : Adj Int ω, replies direct A (edgeCalls es)
      = es.map fun x => if Known A x.1 then 0 else -1 := by
  induction es with
  | nil => exact fun A => rfl
  | cons x es ih =>
      intro A
      show (if Known A x.1 then 0 else -1) :: replies direct (addEdge direct A x.1) (edgeCalls es)
        = _
      rw [ih]
      simp only [known_addEdge, List.map_cons]

/-- A sequence of edges, from any graph. -/
theorem Refines.edges {g : Graph ω} {ks : List Int} {A : Adj Int ω} {t : LTree (NodeVal BagPtr)}
    (h : Refines g ks A t) (es : List (Edge Int ω × Recycled ω × Recycled ω)) :
    ∃ g' t', AlgsGraph.calls g (edgeCalls es)
        = some (g', es.map fun x => if Known A x.1 then 0 else -1) ∧
      Refines g' ks (addEdges g.direct A (es.map Prod.fst)) t' ∧ SameKind g g' := by
  have hkeys : (edgeCalls es).flatMap Call.keys = [] := by
    rw [List.flatMap_eq_nil_iff]
    intro c hc
    obtain ⟨x, -, rfl⟩ := List.mem_map.mp hc
    rfl
  have hchange : (edgeCalls es).map Call.change = (es.map Prod.fst).map Change.edge := by
    rw [edgeCalls, List.map_map, List.map_map]
    rfl
  obtain ⟨g', t', hrun, href, hsame⟩ := h.calls (edgeCalls es)
    (Or.inr (List.flatMap_eq_nil_iff.mp hkeys)) (by
      intro c hc
      obtain ⟨x, -, rfl⟩ := List.mem_map.mp hc
      trivial)
  rw [replies_edgeCalls] at hrun
  rw [hkeys, List.append_nil, hchange, List.foldl_map] at href
  exact ⟨g', t', hrun, href, hsame⟩

/-- The graph after its vertices were added, if they could be. -/
theorem refines_vertexCalls {direct weight : Bool} {n : Nat} {vs : List (Int × Recycled ω)}
    (hzero : ∀ x ∈ vs, x.2.i = 0) {g : Graph ω} {rs : List Int}
    (hg : calls (emptyGraph direct weight n) (vertexCalls vs) = some (g, rs)) :
    ∃ A t, Refines g (vs.map Prod.fst) A t ∧ SameKind (emptyGraph direct weight n) g ∧
      ∀ v es, A v = some es → es = [] := by
  -- a vertex can be added only where `g.v` is positive
  have hn : 0 < n ∨ ∀ c ∈ vertexCalls vs, c.keys = [] := by
    rcases Nat.eq_zero_or_pos n with rfl | hn
    · cases vs with
      | nil => exact Or.inr fun c hc => nomatch hc
      | cons x vs => exact nomatch hg
    · exact Or.inl hn
  obtain ⟨g', t, hrun, href, hsame⟩ := (refines_emptyGraph direct weight n).calls (vertexCalls vs)
    hn (zeroed_vertexCalls hzero)
  rw [hrun] at hg
  obtain ⟨rfl, -⟩ := Prod.mk.inj (Option.some.inj hg)
  rw [List.nil_append, flatMap_keys_vertexCalls] at href
  exact ⟨_, t, href, hsame, fun v => foldl_vertexCalls direct vs _ v fun _ h => nomatch h⟩

/-- **ADJACENCY.**  On a graph whose vertices were added by `graph_add_vertex`, with
    zero in the recycled memory, every sequence of `graph_add_edge` calls returns: 0 for
    an edge between vertices, and -1 for another one, which changes nothing.  The bag of
    each vertex then holds the ends of the edges at it, in order: they are the first `i`
    cells of `v`, in a weighted graph with their weights in `w`, and both arrays have `I`
    cells.  No call writes outside an array. -/
theorem graph_adjacency (direct weight : Bool) (n : Nat) (vs : List (Int × Recycled ω))
    (hzero : ∀ x ∈ vs, x.2.i = 0) :
    (0 < n → ∃ g rs, calls (emptyGraph direct weight n) (vertexCalls vs) = some (g, rs)) ∧
    ∀ g rs, calls (emptyGraph direct weight n) (vertexCalls vs) = some (g, rs) →
    ∀ es : List (Edge Int ω × Recycled ω × Recycled ω), ∃ g',
      calls g (edgeCalls es) = some (g', es.map fun x =>
        if x.1.src ∈ vs.map Prod.fst ∧ x.1.dst ∈ vs.map Prod.fst then 0 else -1) ∧
      (∀ v ∈ vs.map Prod.fst, ∃ p gb, graphSearch g' v = some (some p) ∧
        g'.bags[p.addr]? = some gb ∧ graphAdj g' v = some (some gb.v, gb.i) ∧
        Holds weight gb (edgeEnds direct (vs.map Prod.fst) (es.map Prod.fst) v)) ∧
      (∀ v ∉ vs.map Prod.fst, graphAdj g' v = some (none, 0)) ∧
      ∀ (e : Edge Int ω) (olds : Recycled ω × Recycled ω),
        ¬ (e.src ∈ vs.map Prod.fst ∧ e.dst ∈ vs.map Prod.fst) →
        graphAddEdge olds g' e.src e.dst e.label = some (g', -1) := by
  constructor
  · intro hn
    obtain ⟨g, t, hrun, -⟩ := (refines_emptyGraph direct weight n).calls (vertexCalls vs)
      (Or.inl hn) (zeroed_vertexCalls hzero)
    exact ⟨g, _, hrun⟩
  · intro g rs hg es
    obtain ⟨A, t, h, hsame, hnil⟩ := refines_vertexCalls hzero hg
    have hknown : ∀ e : Edge Int ω, Known A e ↔
        e.src ∈ vs.map Prod.fst ∧ e.dst ∈ vs.map Prod.fst :=
      fun e => and_congr (h.known_iff e.src) (h.known_iff e.dst)
    obtain ⟨g', t', hrun, h', hsame'⟩ := h.edges es
    have hlist : ∀ v, addEdges g.direct A (es.map Prod.fst) v
        = (A v).map (· ++ edgeEnds direct (vs.map Prod.fst) (es.map Prod.fst) v) := by
      intro v
      rw [addEdges_apply, hsame.direct]
      simp only [hknown]
      rfl
    refine ⟨g', ?_, ?_, ?_, ?_⟩
    · simp only [hknown] at hrun
      exact hrun
    · intro v hv
      rcases h'.adj v with ⟨hnone, -⟩ | ⟨p, gb, xs, hxs, hsearch, hget, hadj, hholds⟩
      · exact absurd ((h'.known_iff v).mpr hv) (by simp [hnone])
      · refine ⟨p, gb, hsearch, hget, hadj, ?_⟩
        -- the list was empty before the edges
        obtain ⟨ys, hys⟩ := Option.isSome_iff_exists.mp ((h.known_iff v).mpr hv)
        rw [hlist, hys, hnil v ys hys] at hxs
        rw [hsame'.weight, hsame.weight] at hholds
        obtain rfl := Option.some.inj hxs
        exact hholds
    · intro v hv
      rcases h'.adj v with ⟨-, hadj⟩ | ⟨p, gb, xs, hxs, -⟩
      · exact hadj
      · exact absurd ((h'.known_iff v).mp (by simp [hxs])) hv
    · intro e olds hn
      obtain ⟨bags, hedge, -, hkeep⟩ := h'.addEdge olds e
      have hunknown : ¬ Known (addEdges g.direct A (es.map Prod.fst)) e := by
        rw [Known, h'.known_iff, h'.known_iff]
        exact hn
      rw [hedge, if_neg hunknown, hkeep hunknown]

/-- Memory with a zero where a bag's `i` will be. -/
def zeroMem : Recycled Int := ⟨0, fun _ => none, fun _ => 0⟩

/-- An edge 1 - 2, a loop at 1 and an edge to nowhere: three ends at 1, with their
    weights. -/
theorem graph_adjacency_loop : ∃ (g : Graph Int) (rs : List Int) (g' : Graph Int)
    (gb : GraphBag Int) (w : List Int),
    calls (emptyGraph false true 2) (vertexCalls [(1, zeroMem), (2, zeroMem)]) = some (g, rs) ∧
    calls g (edgeCalls [(⟨1, 2, 70⟩, zeroMem, zeroMem), (⟨1, 1, 80⟩, zeroMem, zeroMem),
      (⟨1, 3, 90⟩, zeroMem, zeroMem)]) = some (g', [0, 0, -1]) ∧
    graphAdj g' 1 = some (some gb.v, 3) ∧ gb.v.take 3 = [some ⟨2⟩, some ⟨1⟩, some ⟨1⟩] ∧
    gb.w = some w ∧ w.take 3 = [70, 80, 80] := by
  obtain ⟨hadd, hedges⟩ := graph_adjacency false true 2 [(1, zeroMem), (2, zeroMem)]
    (by simp [zeroMem])
  obtain ⟨g, rs, hg⟩ := hadd (by decide)
  obtain ⟨g', hrun, hlists, -⟩ := hedges g rs hg [(⟨1, 2, 70⟩, zeroMem, zeroMem),
    (⟨1, 1, 80⟩, zeroMem, zeroMem), (⟨1, 3, 90⟩, zeroMem, zeroMem)]
  obtain ⟨p, gb, -, -, hadj, hholds⟩ := hlists 1 (by decide)
  have hi : gb.i = 3 := hholds.count
  obtain ⟨w, hw, -, hcells⟩ := hholds.weights rfl
  refine ⟨g, rs, g', gb, w, hg, hrun, ?_, ?_, hw, ?_⟩
  · rw [hadj, hi]
  · rw [← hi]
    exact hholds.cells
  · rw [← hi]
    exact hcells

/-! ## Symmetry -/

/-- The keys that `graph_adj` lists at `v`. -/
def adjKeys (g : Graph ω) (v : Int) : List Int :=
  match graphAdj g v with
  | some (some cells, sz) => (cells.take sz).filterMap (Option.map GraphNode.key)
  | _ => []

/-- Any two vertices list each other equally often. -/
def SymmetricAdj (g : Graph ω) : Prop :=
  ∀ v w, v ≠ w → (adjKeys g v).count w = (adjKeys g w).count v

theorem Refines.adjKeys_eq {g : Graph ω} {ks : List Int} {A : Adj Int ω}
    {t : LTree (NodeVal BagPtr)} (h : Refines g ks A t) (v : Int) :
    adjKeys g v = ((A v).getD []).map Prod.fst := by
  rw [adjKeys]
  rcases h.adj v with ⟨hnone, hadj⟩ | ⟨p, gb, es, hes, -, -, hadj, hholds⟩
  · rw [hadj, hnone]
    rfl
  · rw [hadj, hes, Option.getD_some]
    show (gb.v.take gb.i).filterMap (Option.map GraphNode.key) = es.map Prod.fst
    rw [hholds.cells, List.filterMap_map, ← List.filterMap_eq_map]
    rfl

section Mirror
variable {g : Graph ω} {ks : List Int} {A : Adj Int ω} {t : LTree (NodeVal BagPtr)}

theorem Refines.symmetricAdj_iff (h : Refines g ks A t) : SymmetricAdj g ↔ Mirrored A := by
  unfold SymmetricAdj Mirrored times
  simp only [h.adjKeys_eq]

theorem Refines.alone_iff (h : Refines g ks A t) (v : Int) :
    (∀ u ∈ adjKeys g v, u = v) ↔ ∀ w, w ≠ v → times A v w = 0 := by
  rw [h.adjKeys_eq]
  constructor
  · intro hall w hw
    exact List.count_eq_zero.mpr fun hmem => hw (hall w hmem)
  · intro hzero u hu
    by_contra hne
    exact List.count_eq_zero.mp (hzero u hne) hu

end Mirror

/-- The graph after some calls, with zero in the recycled memory. -/
theorem refines_calls (direct weight : Bool) {n : Nat} (hn : 0 < n) {cs : List (Call ω)}
    (hzero : ∀ c ∈ cs, c.Zeroed) :
    ∃ g rs ks t, calls (emptyGraph direct weight n) cs = some (g, rs) ∧
      Refines g ks (build direct (cs.map Call.change)) t ∧ g.v = n := by
  obtain ⟨g, t, hrun, href, hsame⟩ :=
    (refines_emptyGraph direct weight n).calls cs (Or.inl hn) hzero
  exact ⟨g, _, _, t, hrun, href, hsame.v⟩

/-- A run ends in one graph. -/
theorem exists_run_iff {g₀ g : Graph ω} {cs : List (Call ω)} {rs : List Int}
    (h : calls g₀ cs = some (g, rs)) (P : Graph ω → Prop) :
    (∃ g' rs', calls g₀ cs = some (g', rs') ∧ P g') ↔ P g := by
  constructor
  · rintro ⟨g', rs', hrun, hP⟩
    rw [h] at hrun
    obtain ⟨rfl, -⟩ := Prod.mk.inj (Option.some.inj hrun)
    exact hP
  · exact fun hP => ⟨g, rs, h, hP⟩

/-- **SYMMETRY, where it holds.**  In every run on an undirected graph, with zero in the
    recycled memory, all graphs on the way are symmetric if and ONLY if no vertex is
    added while `graph_adj` lists another vertex there: the new bag takes the place of
    the old one, and the entries in the other bags stay. -/
theorem graph_symmetry (weight : Bool) {n : Nat} (hn : 0 < n) {cs : List (Call ω)}
    (hzero : ∀ c ∈ cs, c.Zeroed) :
    (∀ p, p <+: cs → ∃ g rs, calls (emptyGraph false weight n) p = some (g, rs) ∧
      SymmetricAdj g) ↔
    ∀ p v old, p ++ [.vertex v old] <+: cs →
      ∃ g rs, calls (emptyGraph false weight n) p = some (g, rs) ∧ ∀ u ∈ adjKeys g v, u = v := by
  have hsymm : ∀ p, p <+: cs → ((∃ g rs, calls (emptyGraph false weight n) p = some (g, rs) ∧
      SymmetricAdj g) ↔ Mirrored (build false (p.map Call.change))) := by
    intro p hp
    obtain ⟨g, rs, ks, t, hrun, href, -⟩ := refines_calls false weight hn
      fun c hc => hzero c (hp.subset hc)
    exact (exists_run_iff hrun _).trans href.symmetricAdj_iff
  have halone : ∀ p v old, p ++ [.vertex v old] <+: cs →
      ((∃ g rs, calls (emptyGraph false weight n) p = some (g, rs) ∧ ∀ u ∈ adjKeys g v, u = v) ↔
        ∀ w, w ≠ v → times (build false (p.map Call.change)) v w = 0) := by
    intro p v old hp
    obtain ⟨g, rs, ks, t, hrun, href, -⟩ := refines_calls false weight hn
      fun c hc => hzero c (((List.prefix_append _ _).trans hp).subset hc)
    exact (exists_run_iff hrun fun g => ∀ u ∈ adjKeys g v, u = v).trans (href.alone_iff v)
  have habstract := mirrored_throughout (cs.map Call.change)
  constructor
  · intro hall p v old hp
    refine (halone p v old hp).mpr (habstract.mp ?_ _ v ?_)
    · intro q hq
      obtain ⟨l, hl, rfl⟩ := List.prefix_map_iff.mp hq
      exact (hsymm l hl).mp (hall l hl)
    · have hmap := hp.map Call.change
      rw [List.map_append] at hmap
      exact hmap
  · intro hall p hp
    refine (hsymm p hp).mpr (habstract.mpr ?_ _ (hp.map Call.change))
    intro q v hq
    obtain ⟨l, hl, heq⟩ := List.prefix_map_iff.mp hq
    -- the last of these calls is one of `graph_add_vertex`
    obtain ⟨l, last, rfl, rfl, hlast⟩ := List.map_eq_append_iff.mp heq.symm
    obtain ⟨c, rfl, hc⟩ := List.map_eq_singleton_iff.mp hlast
    cases c with
    | vertex u old =>
        obtain rfl := Change.vertex.inj hc
        exact (halone l u old hl).mp (hall l u old hl)
    | edge e olds => exact nomatch hc

/-- Vertices 1 and 2, the edge 1 - 2, then a new vertex 3. -/
theorem graph_symmetry_path : ∃ (g : Graph Int) (rs : List Int),
    calls (emptyGraph false false 3) [.vertex 1 zeroMem, .vertex 2 zeroMem,
      .edge ⟨1, 2, 0⟩ (zeroMem, zeroMem), .vertex 3 zeroMem] = some (g, rs) ∧ SymmetricAdj g := by
  have hzero : ∀ c ∈ [Call.vertex 1 zeroMem, .vertex 2 zeroMem,
      .edge ⟨1, 2, 0⟩ (zeroMem, zeroMem), .vertex 3 zeroMem], c.Zeroed := by
    simp [Call.Zeroed, zeroMem]
  refine (graph_symmetry false (by decide) hzero).mpr ?_ _ (List.prefix_refl _)
  intro p v old hp
  obtain ⟨g, rs, ks, t, hrun, href, -⟩ := refines_calls false false (n := 3) (by decide)
    fun c hc => hzero c (((List.prefix_append _ _).trans hp).subset hc)
  refine ⟨g, rs, hrun, (href.alone_iff v).mpr ?_⟩
  -- each vertex is new where it is added
  obtain ⟨rest, hrest⟩ := hp
  rcases p with _ | ⟨c₁, _ | ⟨c₂, _ | ⟨c₃, _ | ⟨c₄, p⟩⟩⟩⟩
  · obtain ⟨⟨rfl, rfl⟩, -⟩ := by simpa using hrest
    exact fun w _ => rfl
  · obtain ⟨rfl, ⟨rfl, rfl⟩, -⟩ := by simpa using hrest
    exact fun w _ => rfl
  · simp at hrest
  · obtain ⟨rfl, rfl, rfl, ⟨rfl, rfl⟩, -⟩ := by simpa using hrest
    exact fun w _ => rfl
  · simp at hrest

/-- Vertices 1 and 2, the edge 1 - 2, then vertex 1 again: 2 still lists 1, and 1 lists
    nothing. -/
theorem graph_symmetry_fails : ∃ (g : Graph Int) (rs : List Int),
    calls (emptyGraph false false 2) [.vertex 1 zeroMem, .vertex 2 zeroMem,
      .edge ⟨1, 2, 0⟩ (zeroMem, zeroMem), .vertex 1 zeroMem] = some (g, rs) ∧
    adjKeys g 1 = [] ∧ adjKeys g 2 = [1] ∧ ¬ SymmetricAdj g := by
  have hzero : ∀ c ∈ [Call.vertex 1 zeroMem, .vertex 2 zeroMem,
      .edge ⟨1, 2, 0⟩ (zeroMem, zeroMem), .vertex 1 zeroMem], c.Zeroed := by
    simp [Call.Zeroed, zeroMem]
  obtain ⟨g, rs, ks, t, hrun, href, -⟩ := refines_calls false false (n := 2) (by decide) hzero
  have h1 : adjKeys g 1 = [] := href.adjKeys_eq 1
  have h2 : adjKeys g 2 = [1] := href.adjKeys_eq 2
  refine ⟨g, rs, hrun, h1, h2, ?_⟩
  intro hsymm
  have := hsymm 1 2 (by decide)
  rw [h1, h2] at this
  exact absurd this (by decide)

/-! ## Recycled memory -/

theorem calls_snoc {g g₁ g₂ : Graph ω} {cs : List (Call ω)} {c : Call ω} {rs : List Int} {r : Int}
    (h : calls g cs = some (g₁, rs)) (hc : call g₁ c = some (g₂, r)) :
    calls g (cs ++ [c]) = some (g₂, rs ++ [r]) := by
  induction cs generalizing g rs with
  | nil =>
      obtain ⟨rfl, rfl⟩ := Prod.mk.inj (Option.some.inj h)
      simp only [List.nil_append, calls, hc, Option.bind_eq_bind, Option.bind_some]
  | cons c' cs ih =>
      simp only [calls, Option.bind_eq_bind, Option.bind_eq_some_iff, Prod.exists] at h
      obtain ⟨g', r', hc', g'', rs', hrun, heq⟩ := h
      obtain ⟨rfl, rfl⟩ := Prod.mk.inj (Option.some.inj heq)
      simp only [List.cons_append, calls, hc', ih hrun, Option.bind_eq_bind, Option.bind_some]

/-- What `graph_adj` reports for a vertex that was just added: whatever the memory held
    before. -/
theorem Indexed.adj_new {g : Graph ω} {ks : List Int} {t : LTree (NodeVal BagPtr)}
    (h : Indexed g ks t) (hv : 0 < g.v) (old : Recycled ω) (v : Int) :
    ∃ g' cells, graphAddVertex old g v = some (g', 0) ∧ graphAdj g' v = some (some cells, old.i) := by
  obtain ⟨tr, gb, t', hgb, hrun, h'⟩ := h.addVertex hv old v
  have hi : gb.i = old.i := by
    rw [graphBagNew, if_neg (by omega)] at hgb
    obtain rfl := Option.some.inj hgb
    rfl
  refine ⟨_, gb.v, hrun, ?_⟩
  have hget : (g.bags ++ [gb])[ks.length]? = some gb := by
    rw [← h.count]
    exact List.getElem?_concat_length
  rw [graphAdj]
  rw [h'.search, owner_snoc, if_pos rfl]
  simp only [Option.bind_eq_bind, Option.bind_some, hget, hi]

/-- **RECYCLED MEMORY.**  In every run, all graphs on the way have the adjacency lists of
    the calls so far, and every edge is written inside the arrays, if and ONLY if each
    new bag finds a zero where its `i` will be. -/
theorem graph_recycled_memory (direct weight : Bool) {n : Nat} (hn : 0 < n) (cs : List (Call ω)) :
    (∀ p, p <+: cs → ∃ g rs, calls (emptyGraph direct weight n) p = some (g, rs) ∧
      ∀ v es, build direct (p.map Call.change) v = some es →
        ∃ cells, graphAdj g v = some (some cells, es.length) ∧
          cells.take es.length = es.map fun x => some ⟨x.1⟩) ↔
    ∀ c ∈ cs, c.Zeroed := by
  constructor
  · intro hall
    suffices hpre : ∀ p, p <+: cs → ∀ c ∈ p, c.Zeroed from hpre cs (List.prefix_refl cs)
    intro p
    induction p using List.reverseRecOn with
    | nil => exact fun _ c hc => nomatch hc
    | append_singleton p c ih =>
        intro hp c' hc'
        have hzero := ih ((List.prefix_append _ _).trans hp)
        rcases List.mem_append.mp hc' with hc' | hc'
        · exact hzero c' hc'
        · obtain rfl := List.mem_singleton.mp hc'
          cases c' with
          | edge e olds => trivial
          | vertex v old =>
              obtain ⟨g, rs, ks, t, hrun, href, hgv⟩ := refines_calls direct weight hn hzero
              obtain ⟨g', cells, hadd, hadj⟩ := href.index.adj_new (hgv ▸ hn) old v
              have hnext := calls_snoc hrun (c := .vertex v old) hadd
              obtain ⟨cells', hadj', -⟩ := (exists_run_iff hnext _).mp (hall _ hp) v [] (by
                rw [List.map_append, List.map_singleton, build_snoc]
                exact Function.update_self ..)
              rw [hadj] at hadj'
              exact (Prod.mk.inj (Option.some.inj hadj')).2
  · intro hzero p hp
    obtain ⟨g, rs, ks, t, hrun, href, -⟩ := refines_calls direct weight hn
      fun c hc => hzero c (hp.subset hc)
    refine ⟨g, rs, hrun, ?_⟩
    intro v es hes
    rcases href.adj v with ⟨hnone, -⟩ | ⟨p', gb, es', hes', -, -, hadj, hholds⟩
    · exact nomatch hnone.symm.trans hes
    · obtain rfl := Option.some.inj (hes'.symm.trans hes)
      rw [← hholds.count]
      exact ⟨gb.v, hadj, hholds.cells⟩

/-- A vertex and a loop at it, in memory with a zero. -/
theorem graph_recycled_memory_loop : ∃ (g : Graph Int) (rs : List Int)
    (cells : List (Option GraphNode)),
    calls (emptyGraph false false 1) [.vertex 1 zeroMem, .edge ⟨1, 1, 0⟩ (zeroMem, zeroMem)]
      = some (g, rs) ∧
    graphAdj g 1 = some (some cells, 2) ∧ cells.take 2 = [some ⟨1⟩, some ⟨1⟩] := by
  obtain ⟨g, rs, hrun, hlists⟩ := (graph_recycled_memory false false (n := 1) (by decide)
    [.vertex 1 zeroMem, .edge ⟨1, 1, 0⟩ (zeroMem, zeroMem)]).mpr (by simp [Call.Zeroed, zeroMem])
    _ (List.prefix_refl _)
  obtain ⟨cells, hadj, hcells⟩ := hlists 1 [(1, 0), (1, 0)] rfl
  exact ⟨g, rs, cells, hrun, hadj, hcells⟩

/-- Two runs of one call, in memory with a zero and in memory with a five; and an edge
    that is written outside the arrays. -/
theorem graph_recycled_memory_differs :
    (∃ (g g' : Graph Int) (cells cells' : List (Option GraphNode)),
      calls (emptyGraph false false 1) [.vertex 1 zeroMem] = some (g, [0]) ∧
      calls (emptyGraph false false 1) [.vertex 1 { zeroMem with i := 5 }] = some (g', [0]) ∧
      graphAdj g 1 = some (some cells, 0) ∧ graphAdj g' 1 = some (some cells', 5)) ∧
    calls (emptyGraph false false 1)
      [.vertex 1 { zeroMem with i := 100 }, .edge ⟨1, 1, 0⟩ (zeroMem, zeroMem)] = none :=
  ⟨⟨_, _, _, _, rfl, rfl, rfl, rfl⟩, rfl⟩

end AlgsGraph
