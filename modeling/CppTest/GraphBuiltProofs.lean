import CppTest.GraphInitProofs
import CppTest.GraphAdjProofs

/-! # The graphs that `graph_init` builds

    `Built g A` is what the functions below `graph_init` in `graph.cpp` can rely on: the
    adjacency lists are `A`, the keys are those of `g.v` numbers, every end is a vertex, and
    a bag of a directed graph has a free cell.

    * `Built.addEdge` — `graph_add_edge` keeps this.
    * `built_addVertices` and `graphInit_built` — the loop over the vertices and `graph_init`
      establish it.
    * `Built.walk` — the in-order walk of the tree finds the bags of the vertices, in
      increasing order of the keys. -/

namespace AlgsGraph

open Machine RbTree LinkedTree LTree Adjacency Scan

variable {ω : Type}

/-- The keys of `n` vertices; `graph_add_vertex` takes an `int`. -/
def vertexKeys (n : Nat) : List Int := (List.range n).map fun i : Nat => wrap32 i

@[simp] theorem length_vertexKeys (n : Nat) : (vertexKeys n).length = n := by
  rw [vertexKeys, List.length_map, List.length_range]

/-- In a directed graph no bag is full. -/
def Roomy (g : Graph ω) : Prop :=
  g.direct = true → ∀ (a : Nat) gb, g.bags[a]? = some gb → gb.i < gb.I

/-- A graph with vertices for `g.v` numbers and the adjacency lists `A`. -/
structure Built (g : Graph ω) (A : Adj Int ω) : Prop where
  refines : ∃ t, Refines g (vertexKeys g.v) A t
  closed : Closed A
  roomy : Roomy g

/-- `rbtree_inorder_walk(g.tr, vers, n)` with an array `vers` of `g.v` cells: the first `n`
    of them.  A write behind the array faults. -/
def graphWalk (g : Graph ω) : Option (List BagPtr) := do
  let (vers, n) ← rbtreeInorderWalk (g.bags.length + 1) g.tr fun _ => none
  if n ≤ g.v then (List.range n).mapM vers else none

/-! ## Edges -/

theorem modifyBag_eq {bags bags' : List (GraphBag ω)} {a : Nat}
    {f : GraphBag ω → Option (GraphBag ω)} (h : modifyBag bags a f = some bags') :
    ∃ gb gb', bags[a]? = some gb ∧ f gb = some gb' ∧ bags' = bags.set a gb' := by
  obtain ⟨gb, hgb, h⟩ := Option.bind_eq_some_iff.mp h
  obtain ⟨gb', hgb', h⟩ := Option.bind_eq_some_iff.mp h
  exact ⟨gb, gb', hgb, hgb', (Option.some.inj h).symm⟩

theorem graphBagPut_counts {weight : Bool} {node : GraphNode} {x : ω} {gb gb' : GraphBag ω}
    (h : graphBagPut weight node x gb = some gb') : gb'.i = gb.i + 1 ∧ gb'.I = gb.I := by
  obtain ⟨v, -, h⟩ := Option.bind_eq_some_iff.mp h
  obtain ⟨w, -, h⟩ := Option.bind_eq_some_iff.mp h
  obtain rfl := Option.some.inj h
  exact ⟨rfl, rfl⟩

theorem graphBagRealloc_counts (old : Recycled ω) (weight : Bool) {gb : GraphBag ω}
    (hroom : gb.i < gb.I) :
    (graphBagRealloc old weight gb).i = gb.i ∧ gb.i + 1 < (graphBagRealloc old weight gb).I := by
  rw [graphBagRealloc]
  by_cases hfree : gb.i < gb.I - 1
  · rw [if_pos hfree]
    exact ⟨rfl, by omega⟩
  · rw [if_neg hfree]
    have hgrow := eight_le gb.I
    refine ⟨rfl, ?_⟩
    show gb.i + 1 < gb.I + atLeast8 gb.I
    omega

/-- `graph_add_edge` on a directed graph changes one bag: it makes room in it and writes one
    cell. -/
theorem graphLink_direct {olds : Recycled ω × Recycled ω} {g : Graph ω} (hd : g.direct = true)
    {p q : BagPtr} {x : ω} {bags : List (GraphBag ω)} (h : graphLink olds g p q x = some bags) :
    ∃ gb gb', g.bags[p.addr]? = some gb ∧
      graphBagPut g.weight q.node x (graphBagRealloc olds.1 g.weight gb) = some gb' ∧
      bags = g.bags.set p.addr gb' := by
  obtain ⟨bags₁, hrun₁, h⟩ := Option.bind_eq_some_iff.mp h
  rw [if_pos hd] at h
  obtain ⟨bags₂, hrun₂, h⟩ := Option.bind_eq_some_iff.mp h
  obtain rfl := Option.some.inj hrun₂
  obtain ⟨bags₃, hrun₃, h⟩ := Option.bind_eq_some_iff.mp h
  rw [if_pos hd] at h
  obtain rfl := Option.some.inj h
  -- two changes of one bag: it is made larger, and then it is written
  obtain ⟨gb, gb₁, hgb, hgb₁, rfl⟩ := modifyBag_eq hrun₁
  obtain ⟨gb₂, gb', hgb₂, hput, rfl⟩ := modifyBag_eq hrun₃
  have hlt := (List.getElem?_eq_some_iff.mp hgb).1
  rw [List.getElem?_set_self hlt] at hgb₂
  obtain rfl := Option.some.inj hgb₂
  obtain rfl := Option.some.inj hgb₁
  exact ⟨gb, gb', hgb, hput, List.set_set ..⟩

theorem Roomy.set {g : Graph ω} (h : Roomy g) {a : Nat} {gb : GraphBag ω} (hgb : gb.i < gb.I) :
    Roomy { g with bags := g.bags.set a gb } := by
  intro hd b gb' hgb'
  rw [List.getElem?_set] at hgb'
  split_ifs at hgb'
  · obtain rfl := Option.some.inj hgb'
    exact hgb
  · exact h hd b gb' hgb'

theorem Roomy.link {olds : Recycled ω × Recycled ω} {g : Graph ω} (h : Roomy g) {p q : BagPtr}
    {x : ω} {bags : List (GraphBag ω)} (hrun : graphLink olds g p q x = some bags) :
    Roomy { g with bags := bags } := by
  intro hd
  replace hd : g.direct = true := hd
  obtain ⟨gb, gb', hgb, hput, rfl⟩ := graphLink_direct hd hrun
  obtain ⟨hi, hI⟩ := graphBagPut_counts hput
  obtain ⟨hi', hI'⟩ := graphBagRealloc_counts olds.1 g.weight (h hd _ gb hgb)
  exact h.set (a := p.addr) (by omega) hd

theorem Roomy.addEdge {olds : Recycled ω × Recycled ω} {g g' : Graph ω} (h : Roomy g) {v w r : Int}
    {x : ω} (hrun : graphAddEdge olds g v w x = some (g', r)) : Roomy g' := by
  obtain ⟨nodev, -, hrun⟩ := Option.bind_eq_some_iff.mp hrun
  obtain ⟨nodew, -, hrun⟩ := Option.bind_eq_some_iff.mp hrun
  cases nodev with
  | none =>
      obtain ⟨rfl, -⟩ := Prod.mk.inj (Option.some.inj hrun)
      exact h
  | some p =>
      cases nodew with
      | none =>
          obtain ⟨rfl, -⟩ := Prod.mk.inj (Option.some.inj hrun)
          exact h
      | some q =>
          obtain ⟨bags, hlink, hrun⟩ := Option.bind_eq_some_iff.mp hrun
          obtain ⟨rfl, -⟩ := Prod.mk.inj (Option.some.inj hrun)
          exact h.link hlink

/-- **`graph_add_edge` keeps a graph built.** -/
theorem Built.addEdge {g : Graph ω} {A : Adj Int ω} (h : Built g A)
    (olds : Recycled ω × Recycled ω) (e : Edge Int ω) :
    ∃ bags, graphAddEdge olds g e.src e.dst e.label
        = some ({ g with bags := bags }, if Known A e then 0 else -1) ∧
      Built { g with bags := bags } (Adjacency.addEdge g.direct A e) := by
  obtain ⟨t, href⟩ := h.refines
  obtain ⟨bags, hrun, href', -⟩ := href.addEdge olds e
  exact ⟨bags, hrun, ⟨t, href'⟩, h.closed.addEdge g.direct e, h.roomy.addEdge hrun⟩

/-! ## Vertices -/

theorem graphBagNew_roomy {old : Recycled ω} {v : Nat} {weight : Bool} {gb : GraphBag ω}
    (h : graphBagNew old v weight = some gb) (hzero : old.i = 0) : gb.i < gb.I := by
  rw [graphBagNew] at h
  split_ifs at h
  all_goals
    obtain rfl := Option.some.inj h
    have := eight_le v
    show old.i < atLeast8 v
    omega

theorem Roomy.addVertex {old : Recycled ω} (hzero : old.i = 0) {g g' : Graph ω} (h : Roomy g)
    {v r : Int} (hrun : graphAddVertex old g v = some (g', r)) : Roomy g' := by
  obtain ⟨gb, hgb, hrun⟩ := Option.bind_eq_some_iff.mp hrun
  obtain ⟨y, -, hrun⟩ := Option.bind_eq_some_iff.mp hrun
  obtain ⟨rfl, -⟩ := Prod.mk.inj (Option.some.inj hrun)
  intro hd a gb' hgb'
  replace hgb' : (g.bags ++ [gb])[a]? = some gb' := hgb'
  rcases List.mem_append.mp (List.mem_of_getElem? hgb') with hmem | hmem
  · obtain ⟨b, hb⟩ := List.mem_iff_getElem?.mp hmem
    exact h hd b gb' hb
  · obtain rfl := List.mem_singleton.mp hmem
    exact graphBagNew_roomy hgb hzero

theorem Roomy.addVertices {mem : Nat → Recycled ω} (hzero : ∀ i, (mem i).i = 0) (is : List Nat) :
    ∀ {g g' : Graph ω} {r : Int}, Roomy g → addVertices mem g is = some (g', r) → Roomy g' := by
  induction is with
  | nil =>
      intro g g' r h hrun
      obtain ⟨rfl, -⟩ := Prod.mk.inj (Option.some.inj hrun)
      exact h
  | cons i is ih =>
      intro g g' r h hrun
      rw [AlgsGraph.addVertices] at hrun
      obtain ⟨⟨g₁, r₁⟩, hadd, hrun⟩ := Option.bind_eq_some_iff.mp hrun
      dsimp only at hrun
      rw [if_neg (not_not.mpr (graphAddVertex_zero hadd))] at hrun
      exact ih (h.addVertex (hzero i) hadd) hrun

/-- **The loop over the vertices builds the graph without edges.** -/
theorem built_addVertices {mem : Nat → Recycled ω} (hzero : ∀ i, (mem i).i = 0)
    (direct weight : Bool) (n : Nat) :
    ∃ g, addVertices mem (emptyGraph direct weight n) (List.range n) = some (g, 0) ∧
      SameKind (emptyGraph direct weight n) g ∧ Built g (isolated (vertexKeys n)) := by
  have hpos : 0 < n ∨ List.range n = [] := by
    rcases Nat.eq_zero_or_pos n with rfl | hpos
    · exact .inr rfl
    · exact .inl hpos
  obtain ⟨g, t, hrun, hsame, href⟩ := addVertices_refines hzero (List.range n)
    (refines_emptyGraph direct weight n) hpos
  have hroomy : Roomy (emptyGraph direct weight n : Graph ω) :=
    fun _ _ _ hgb => absurd (List.mem_of_getElem? hgb) List.not_mem_nil
  have hlists : (List.range n).foldl (fun A (i : Nat) => addVertex A (wrap32 i))
      (fun _ => none : Adj Int ω) = isolated (vertexKeys n) := by
    rw [vertexKeys, ← List.nil_append ((List.range n).map _), ← foldl_addVertex, List.foldl_map]
    rfl
  rw [hlists] at href
  refine ⟨g, hrun, hsame, ⟨t, ?_⟩, closed_isolated _, hroomy.addVertices hzero _ hrun⟩
  rw [hsame.v]
  exact href

/-! ## The list of a vertex -/

/-- The cell of an end. -/
theorem Holds.cell {weight : Bool} {gb : GraphBag ω} {es : List (Int × ω)}
    (h : Holds weight gb es) {j : Nat} {x : Int × ω} (hx : es[j]? = some x) :
    getAt gb.v j = some (some ⟨x.1⟩) := by
  have hj : j < gb.i := h.count ▸ (List.getElem?_eq_some_iff.mp hx).1
  have hcell := congrArg (fun l => l[j]?) h.cells
  rw [List.getElem?_take_of_lt hj, List.getElem?_map, hx] at hcell
  rw [getAt_natCast]
  exact hcell

/-- The weight of an end. -/
theorem Holds.weigh {gb : GraphBag ω} {es : List (Int × ω)} (h : Holds true gb es) {j : Nat}
    {x : Int × ω} (hx : es[j]? = some x) : ∃ w, gb.w = some w ∧ getAt w j = some x.2 := by
  obtain ⟨w, hw, -, hweights⟩ := h.weights rfl
  have hj : j < gb.i := h.count ▸ (List.getElem?_eq_some_iff.mp hx).1
  have hcell := congrArg (fun l => l[j]?) hweights
  rw [List.getElem?_take_of_lt hj, List.getElem?_map, hx] at hcell
  exact ⟨w, hw, by rw [getAt_natCast]; exact hcell⟩

section Lists
variable {g : Graph ω} {A : Adj Int ω}

theorem Built.adjKeys_eq (h : Built g A) (v : Int) :
    adjKeys g v = ((A v).getD []).map Prod.fst := by
  obtain ⟨t, href⟩ := h.refines
  exact href.adjKeys_eq v

theorem Built.known_iff (h : Built g A) (v : Int) : (A v).isSome ↔ v ∈ vertexKeys g.v := by
  obtain ⟨t, href⟩ := h.refines
  exact href.known_iff v

/-- What lists something is a vertex. -/
theorem Built.known_of_ne_nil (h : Built g A) {v : Int} (hv : adjKeys g v ≠ []) :
    (A v).isSome := by
  rw [← Option.ne_none_iff_isSome]
  intro hnone
  rw [h.adjKeys_eq, hnone] at hv
  exact hv rfl

/-- The vertices that a vertex lists. -/
theorem Built.known_of_mem (h : Built g A) {v w : Int} (hw : w ∈ adjKeys g v) : (A w).isSome := by
  rw [h.adjKeys_eq] at hw
  obtain ⟨x, hx, rfl⟩ := List.mem_map.mp hw
  cases hv : A v with
  | none =>
      rw [hv] at hx
      exact absurd hx List.not_mem_nil
  | some es =>
      rw [hv] at hx
      exact h.closed v es hv x hx

/-- Without vertices there are no lists. -/
theorem Built.adjKeys_of_null (h : Built g A) (hv : g.v = 0) (v : Int) : adjKeys g v = [] := by
  rw [List.eq_nil_iff_forall_not_mem]
  intro u hu
  have hmem := (h.known_iff u).mp (h.known_of_mem hu)
  rw [hv] at hmem
  exact absurd hmem List.not_mem_nil

/-- `graph_adj` of a vertex: the cells in use hold the keys of the list. -/
theorem Built.adj (h : Built g A) {v : Int} (hv : (A v).isSome) :
    ∃ cells, graphAdj g v = some (some cells, (adjKeys g v).length) ∧
      ∀ (i : Nat) k, (adjKeys g v)[i]? = some k → getAt cells i = some (some ⟨k⟩) := by
  obtain ⟨t, href⟩ := h.refines
  rcases href.adj v with ⟨hnone, -⟩ | ⟨p, gb, es, hes, -, -, hadj, hholds⟩
  · rw [hnone] at hv
    exact absurd hv Bool.false_ne_true
  · have hkeys : adjKeys g v = es.map Prod.fst := by
      rw [href.adjKeys_eq, hes, Option.getD_some]
    refine ⟨gb.v, ?_, ?_⟩
    · rw [hadj, hkeys, List.length_map, hholds.count]
    · intro i k hk
      rw [hkeys, List.getElem?_map] at hk
      obtain ⟨x, hx, rfl⟩ := Option.map_eq_some_iff.mp hk
      exact hholds.cell hx

end Lists

/-! ## The walk over the vertices -/

theorem nodeCmp_neg (a b : BagPtr) : hooks.nodeCmp a b < 0 ↔ a.node.key < b.node.key := by
  show graphNodeCmp a b < 0 ↔ _
  rw [graphNodeCmp]
  split_ifs <;> omega

/-- What the walk finds: the bag of each vertex once, in increasing order of the keys. -/
structure Walked (g : Graph ω) (A : Adj Int ω) (ps : List BagPtr) : Prop where
  sorted : ps.Pairwise fun p q => p.node.key < q.node.key
  owns : ∀ p ∈ ps, owner (vertexKeys g.v) p.node.key = some p
  vertices : ∀ k, (A k).isSome ↔ ∃ p ∈ ps, p.node.key = k

/-- The keys that the walk finds. -/
theorem Walked.mem_keys {g : Graph ω} {A : Adj Int ω} {ps : List BagPtr} (hps : Walked g A ps)
    (h : Built g A) (k : Int) : k ∈ ps.map (fun p => p.node.key) ↔ k ∈ vertexKeys g.v := by
  rw [List.mem_map, ← h.known_iff, hps.vertices]

theorem Walked.sorted_keys {g : Graph ω} {A : Adj Int ω} {ps : List BagPtr}
    (hps : Walked g A ps) : (ps.map fun p => p.node.key).Pairwise (· < ·) :=
  List.pairwise_map.mpr hps.sorted

/-- The tree has no more nodes than vertices were added. -/
theorem Indexed.items_le {g : Graph ω} {ks : List Int} {t : LTree (NodeVal BagPtr)}
    (h : Indexed g ks t) : ((items t).map Prod.snd).length ≤ ks.length := by
  have hsub := (List.pwFilter_sublist (R := fun d e => hooks.nodeCmp d e ≠ 0) (ptrs ks)).length_le
  rw [length_ptrs] at hsub
  exact h.dict.keys.length_eq ▸ hsub

/-- **The in-order walk finds the vertices in order.** -/
theorem Built.walk {g : Graph ω} {A : Adj Int ω} (h : Built g A) :
    ∃ ps, graphWalk g = some ps ∧ Walked g A ps := by
  obtain ⟨t, href⟩ := h.refines
  have hindex := href.index
  have hfuel : t.height < g.bags.length + 1 := by
    have hle := hindex.dict.height_le
    rw [length_ptrs] at hle
    rw [hindex.count]
    omega
  obtain ⟨nodes, hrun, hcells, -⟩ := hindex.balanced.walk fun _ => none
  -- a key that was added twice has one node, so `g.v` cells are enough
  have hfits : ((items t).map Prod.snd).length ≤ g.v :=
    hindex.items_le.trans (by rw [length_vertexKeys])
  have howns : ∀ p ∈ (items t).map Prod.snd, owner (vertexKeys g.v) p.node.key = some p := by
    intro p hp
    have hlatest := (hindex.dict.mem_iff_latest hooks_total p).mp hp
    rwa [show p = ⟨p.addr, ⟨p.node.key⟩⟩ from rfl, latest_ptrs] at hlatest
  refine ⟨(items t).map Prod.snd, ?_, ?_, howns, ?_⟩
  · rw [graphWalk, hrun _ hfuel]
    simp only [Option.bind_eq_bind, Option.bind_some, if_pos hfits]
    refine mapM_range _ fun i p hp => ?_
    rw [hcells i (List.getElem?_eq_some_iff.mp hp).1, hp]
  · exact hindex.dict.sorted.imp fun {p q} hpq => (nodeCmp_neg p q).mp hpq
  · intro k
    rw [href.known_iff, ← owner_isSome, ← latest_ptrs _ 0, Option.isSome_iff_exists]
    constructor
    · rintro ⟨p, hp⟩
      obtain ⟨hmem, hkey⟩ := (hindex.dict.held _ p).mpr hp
      exact ⟨p, hmem, ((nodeCmp_eq_zero _ p).mp hkey).symm⟩
    · rintro ⟨p, hmem, hkey⟩
      exact ⟨p, (hindex.dict.held _ p).mp ⟨hmem, (nodeCmp_eq_zero _ p).mpr hkey.symm⟩⟩

/-! ## `graph_init` -/

/-- The turns of the loop over the edges keep a graph built. -/
theorem initPass_built {mem : Nat → Recycled ω × Recycled ω} {weight : ω} {g₀ : Graph ω}
    {y y' : List Char × Graph ω × Nat} (h : SameKind g₀ y.2.1 ∧ ∃ A, Built y.2.1 A)
    (hpass : initPass mem weight y = some (.next y')) :
    SameKind g₀ y'.2.1 ∧ ∃ A, Built y'.2.1 A := by
  obtain ⟨s, g, k⟩ := y
  obtain ⟨hsame, A, h⟩ := h
  cases hp : scanPair s with
  | eof =>
      rw [initPass_eof hp] at hpass
      cases Option.some.inj hpass
  | few rest =>
      rw [initPass_few hp] at hpass
      obtain rfl := Pass.next.inj (Option.some.inj hpass)
      exact ⟨hsame, A, h⟩
  | both w x rest =>
      obtain ⟨bags, hedge, hbuilt⟩ := h.addEdge (mem k) ⟨w, x, weight⟩
      replace hedge : graphAddEdge (mem k) g w x weight = some _ := hedge
      rw [initPass_both hp, hedge] at hpass
      obtain rfl := Pass.next.inj (Option.some.inj hpass)
      exact ⟨⟨hsame.v, hsame.direct, hsame.weight⟩, _, hbuilt⟩

theorem initPass_done {mem : Nat → Recycled ω × Recycled ω} {weight : ω}
    {y : List Char × Graph ω × Nat} {g : Graph ω}
    (hpass : initPass mem weight y = some (.done g)) : g = y.2.1 := by
  obtain ⟨s, g₁, k⟩ := y
  cases hp : scanPair s with
  | eof =>
      rw [initPass_eof hp] at hpass
      exact (Pass.done.inj (Option.some.inj hpass)).symm
  | few rest =>
      rw [initPass_few hp] at hpass
      cases Option.some.inj hpass
  | both w x rest =>
      rw [initPass_both hp] at hpass
      obtain ⟨y, -, hpass⟩ := Option.bind_eq_some_iff.mp hpass
      cases Option.some.inj hpass

/-- **A graph that `graph_init` has returned is built**, if the memory that became the field
    `i` of a bag was zero. -/
theorem graphInit_built {mem : InitMem ω} (hzero : ∀ i, (mem.vertex i).i = 0) {x : ω}
    {fuel : Nat} {direct weight : Bool} {v₀ e₀ e : Nat} {s : List Char} {g : Graph ω}
    (hinit : graphInit mem x fuel (emptyGraph direct weight v₀) e₀ s = some (g, e, 0)) :
    g.direct = direct ∧ g.weight = weight ∧ ∃ A, Built g A := by
  by_cases hcounts : ∃ v s₁ e s₂, number s = .value v s₁ ∧ number s₁ = .value e s₂
  · obtain ⟨v, s₁, e', s₂, hv, he⟩ := hcounts
    obtain ⟨g₁, hadd, hsame, hbuilt⟩ := built_addVertices hzero direct weight (wrap64 v).toNat
    rw [graphInit_eq hv he hadd, if_neg (by decide)] at hinit
    obtain ⟨g₂, hloop, hinit⟩ := Option.bind_eq_some_iff.mp hinit
    obtain ⟨rfl, -⟩ := Prod.mk.inj (Option.some.inj hinit)
    have hdone : ∀ (y : List Char × Graph ω × Nat) g, (SameKind g₁ y.2.1 ∧ ∃ A, Built y.2.1 A) →
        initPass mem.edge x y = some (.done g) → SameKind g₁ g ∧ ∃ A, Built g A :=
      fun y g h hpass => initPass_done hpass ▸ h
    obtain ⟨hkind, hA⟩ := loop_keeps (fun y y' h hpass => initPass_built h hpass) hdone
      ⟨⟨rfl, rfl, rfl⟩, _, hbuilt⟩ hloop
    exact ⟨hkind.direct.trans hsame.direct, hkind.weight.trans hsame.weight, hA⟩
  · obtain ⟨g', hrun⟩ := graphInit_refused mem x (emptyGraph direct weight v₀) e₀
      fun v s₁ e s₂ hv he => hcounts ⟨v, s₁, e, s₂, hv, he⟩
    rw [hrun] at hinit
    have hr : (-1 : Int) = 0 := (Prod.mk.inj (Prod.mk.inj (Option.some.inj hinit)).2).2
    exact absurd hr (by decide)

end AlgsGraph
