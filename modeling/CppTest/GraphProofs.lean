import CppTest.AdjacencyProofs
import CppTest.RbTreeDictProofs

/-! # The graph (`src/algs/algorithms4th/graph.cpp`)

    Vertices are bags in a red-black tree, ordered by key.  A bag holds the other ends
    of the edges at its vertex in an array `v` of `I` cells, of which `i` are used, and
    in a weighted graph the weights in a parallel array `w`.  The bags are made and
    grown by the functions of `test_graph.cpp`.

    * Memory comes as it is: what a cell holds before it is written is an argument
      (`Recycled`) of every call that obtains some.  `graph_bag_new` sets every field
      of a bag but `i`.
    * A write outside an array faults (`none`), and so does the logarithm of 0 in
      `graph_bag_new`.  Out of memory the source leaves the process; this is not
      modelled.
    * `Refines g ks A` connects a graph to its adjacency lists `A`, as
      `AdjacencyProofs` has them: `graph_add_vertex` and `graph_add_edge` do to the
      one what `addVertex` and `addEdge` do to the other. -/

namespace AlgsGraph

open Machine LinkedTree RbTree Adjacency

variable {ω : Type}

/-! ## The model -/

/-- `struct graph_node`. -/
structure GraphNode where
  key : Int
  deriving Repr, DecidableEq

/-- A pointer to a bag, with the field `node` of the bag: it is set when the bag is
    made and never changed.  No `graph_node` pointer is null. -/
structure BagPtr where
  addr : Nat
  node : GraphNode
  deriving Repr, DecidableEq

/-- The other fields of `struct graph_bag`; a cell of `v` may hold a pointer to no
    node, and `w` is null in a graph without weights. -/
structure GraphBag (ω : Type) where
  v : List (Option GraphNode)
  w : Option (List ω)
  i : Nat
  I : Nat
  deriving Repr, DecidableEq

/-- `struct graph`.  The cells of the pool `bpool` that have been handed out, in order,
    are `bags`; a cell's address is its number. -/
structure Graph (ω : Type) where
  tr : Rb BagPtr
  bags : List (GraphBag ω)
  v : Nat
  direct : Bool
  weight : Bool

/-- What memory holds before it is used: the field `i` of a bag, and the cells of the
    two arrays. -/
structure Recycled (ω : Type) where
  i : Nat
  v : Nat → Option GraphNode
  w : Nat → ω

/-- `graph_node_cmp`. -/
def graphNodeCmp (a b : BagPtr) : Int :=
  if a.node.key < b.node.key then -1 else if a.node.key = b.node.key then 0 else 1

/-- The function pointers of `g.tr`. -/
def hooks : Hooks BagPtr := ⟨graphNodeCmp, false⟩

/-- `(size_t)log2(n)`, but at least 8. -/
def atLeast8 (n : Nat) : Nat := if Nat.log2 n < 8 then 8 else Nat.log2 n

/-- `graph_bag_new`, without the pool: the new bag. -/
def graphBagNew (old : Recycled ω) (v : Nat) (weight : Bool) : Option (GraphBag ω) :=
  -- log2(0) is no size_t
  if v = 0 then none
  else some {
    v := resizeTo old.v [] (atLeast8 v)
    w := if weight then some (resizeTo old.w [] (atLeast8 v)) else none
    i := old.i
    I := atLeast8 v }

/-- `graph_bag_realloc`. -/
def graphBagRealloc (old : Recycled ω) (weight : Bool) (gb : GraphBag ω) : GraphBag ω :=
  if gb.i < gb.I - 1 then gb
  else { gb with
    I := gb.I + atLeast8 gb.I
    v := resizeTo old.v gb.v (gb.I + atLeast8 gb.I)
    w := if weight then some (resizeTo old.w (gb.w.getD []) (gb.I + atLeast8 gb.I)) else gb.w }

/-- `if(g.weight) gb->w[gb->i] = weight`. -/
def graphBagWeigh (weight : Bool) (gb : GraphBag ω) (x : ω) : Option (Option (List ω)) :=
  if weight then (do
    let w ← gb.w
    let w ← setAt w gb.i x
    some (some w))
  else some gb.w

/-- `gb->v[gb->i] = node`, the weight, and `++gb->i`. -/
def graphBagPut (weight : Bool) (node : GraphNode) (x : ω) (gb : GraphBag ω) :
    Option (GraphBag ω) := do
  let v ← setAt gb.v gb.i (some node)
  let w ← graphBagWeigh weight gb x
  some { gb with v := v, w := w, i := gb.i + 1 }

/-- Change the bag at an address. -/
def modifyBag (bags : List (GraphBag ω)) (a : Nat) (f : GraphBag ω → Option (GraphBag ω)) :
    Option (List (GraphBag ω)) := do
  let gb ← bags[a]?
  let gb ← f gb
  some (bags.set a gb)

/-- `graph_search`: the bag of the vertex, or null.  The bag searched for is not one of
    the pool. -/
def graphSearch (g : Graph ω) (key : Int) : Option (Option BagPtr) := do
  match ← rbtreeSearch hooks (g.bags.length + 1) g.tr ⟨g.bags.length, ⟨key⟩⟩ with
  | none => some none
  | some x =>
      let c ← g.tr.mem x
      some (some c.val.data)

/-- The part of `graph_add_edge` after the two searches. -/
def graphLink (olds : Recycled ω × Recycled ω) (g : Graph ω) (nodev nodew : BagPtr) (x : ω) :
    Option (List (GraphBag ω)) := do
  let bags ← modifyBag g.bags nodev.addr fun gb => some (graphBagRealloc olds.1 g.weight gb)
  let bags ← if g.direct then some bags else
    modifyBag bags nodew.addr fun gb => some (graphBagRealloc olds.2 g.weight gb)
  let bags ← modifyBag bags nodev.addr (graphBagPut g.weight nodew.node x)
  if g.direct then some bags else
    modifyBag bags nodew.addr (graphBagPut g.weight nodev.node x)

/-- `graph_add_edge`: the graph afterwards and the returned value. -/
def graphAddEdge (olds : Recycled ω × Recycled ω) (g : Graph ω) (v w : Int) (x : ω) :
    Option (Graph ω × Int) := do
  let nodev ← graphSearch g v
  let nodew ← graphSearch g w
  match nodev, nodew with
  | some nodev, some nodew =>
      let bags ← graphLink olds g nodev nodew x
      some ({ g with bags := bags }, 0)
  | _, _ => some (g, -1)

/-- `graph_add_vertex`: the graph afterwards and the returned value. -/
def graphAddVertex (old : Recycled ω) (g : Graph ω) (v : Int) : Option (Graph ω × Int) := do
  let gb ← graphBagNew old g.v g.weight
  let (tr, _) ← rbtreeInsert hooks (2 * g.bags.length + 2) g.tr g.bags.length
    ⟨g.bags.length, ⟨v⟩⟩
  some ({ g with tr := tr, bags := g.bags ++ [gb] }, 0)

/-- `graph_adj`: the array, or null, and the number of its cells in use. -/
def graphAdj (g : Graph ω) (v : Int) : Option (Option (List (Option GraphNode)) × Nat) := do
  match ← graphSearch g v with
  | none => some (none, 0)
  | some p =>
      let gb ← g.bags[p.addr]?
      some (some gb.v, gb.i)

/-- A graph without vertices. -/
def emptyGraph (direct weight : Bool) (v : Nat) : Graph ω :=
  { tr := emptyTree, bags := [], v := v, direct := direct, weight := weight }

/-- A call of `graph_add_vertex` or `graph_add_edge`, with the memory it will find. -/
inductive Call (ω : Type) where
  | vertex (v : Int) (old : Recycled ω)
  | edge (e : Adjacency.Edge Int ω) (olds : Recycled ω × Recycled ω)

def call (g : Graph ω) : Call ω → Option (Graph ω × Int)
  | .vertex v old => graphAddVertex old g v
  | .edge e olds => graphAddEdge olds g e.src e.dst e.label

/-- A sequence of calls: the graph afterwards and what they returned. -/
def calls : Graph ω → List (Call ω) → Option (Graph ω × List Int)
  | g, [] => some (g, [])
  | g, c :: cs => do
      let (g, r) ← call g c
      let (g, rs) ← calls g cs
      some (g, r :: rs)

/-! ## The index

    The tree maps each key to the bag that was added for it last. -/

theorem hooks_total : TotalPreorder hooks.nodeCmp where
  swap := by
    intro a b
    show graphNodeCmp a b < 0 ↔ 0 < graphNodeCmp b a
    unfold graphNodeCmp
    split_ifs <;> omega
  trans := by
    intro a b c hab hbc
    replace hab : graphNodeCmp a b ≤ 0 := hab
    replace hbc : graphNodeCmp b c ≤ 0 := hbc
    show graphNodeCmp a c ≤ 0
    rw [graphNodeCmp] at hab hbc ⊢
    split_ifs at * <;> omega

theorem nodeCmp_eq_zero (a b : BagPtr) : hooks.nodeCmp a b = 0 ↔ a.node.key = b.node.key := by
  show graphNodeCmp a b = 0 ↔ _
  rw [graphNodeCmp]
  constructor
  · intro h
    split_ifs at h with hlt heq
    · exact heq
    · exact absurd h (by decide)
  · intro heq
    rw [if_neg (by omega), if_pos heq]

/-- The bags for the keys `ks`, in the order in which they were added. -/
def ptrs (ks : List Int) : List BagPtr := ks.zipIdx.map fun x => ⟨x.2, ⟨x.1⟩⟩

/-- The bag that was added last for a key. -/
def owner (ks : List Int) (key : Int) : Option BagPtr :=
  (ptrs ks).reverse.find? fun p => p.node.key = key

theorem ptrs_snoc (ks : List Int) (k : Int) : ptrs (ks ++ [k]) = ptrs ks ++ [⟨ks.length, ⟨k⟩⟩] := by
  simp [ptrs, List.zipIdx_append]

@[simp] theorem length_ptrs (ks : List Int) : (ptrs ks).length = ks.length := by
  simp [ptrs]

theorem owner_snoc (ks : List Int) (k key : Int) :
    owner (ks ++ [k]) key = if k = key then some ⟨ks.length, ⟨k⟩⟩ else owner ks key := by
  rw [owner, ptrs_snoc, List.reverse_append, List.reverse_singleton, List.singleton_append,
    List.find?_cons]
  by_cases hk : k = key <;> simp [hk, owner]

theorem latest_ptrs (ks : List Int) (a : Nat) (key : Int) :
    latest hooks (ptrs ks) ⟨a, ⟨key⟩⟩ = owner ks key := by
  rw [latest, owner]
  congr 1
  funext p
  exact decide_eq_decide.mpr ((nodeCmp_eq_zero _ p).trans eq_comm)

/-- A bag is the owner of its own key only. -/
theorem owner_spec {ks : List Int} {key : Int} {p : BagPtr} (h : owner ks key = some p) :
    p.node = ⟨key⟩ ∧ ks[p.addr]? = some key := by
  induction ks using List.reverseRecOn with
  | nil => exact nomatch h
  | append_singleton ks k ih =>
      rw [owner_snoc] at h
      by_cases hk : k = key
      · subst hk
        rw [if_pos rfl] at h
        obtain rfl := Option.some.inj h
        exact ⟨rfl, List.getElem?_concat_length⟩
      · rw [if_neg hk] at h
        obtain ⟨hnode, hget⟩ := ih h
        exact ⟨hnode, (List.getElem?_append_left (List.getElem?_eq_some_iff.mp hget).1).trans hget⟩

theorem owner_inj {ks : List Int} {k k' : Int} {p p' : BagPtr} (h : owner ks k = some p)
    (h' : owner ks k' = some p') (haddr : p.addr = p'.addr) : k = k' := by
  have hget := (owner_spec h).2
  rw [haddr, (owner_spec h').2] at hget
  exact (Option.some.inj hget).symm

theorem owner_isSome (ks : List Int) (key : Int) : (owner ks key).isSome ↔ key ∈ ks := by
  induction ks using List.reverseRecOn with
  | nil => simp [owner, ptrs]
  | append_singleton ks k ih =>
      rw [owner_snoc, List.mem_append, List.mem_singleton, ← ih]
      by_cases hk : k = key
      · simp [hk]
      · simp [hk, Ne.symm hk]

/-- The bags of `g` are those added for `ks`, and the tree `t` finds them. -/
structure Indexed (g : Graph ω) (ks : List Int) (t : LTree (NodeVal BagPtr)) : Prop where
  balanced : Balanced g.tr t
  dict : Dict hooks (ptrs ks) (items t) g.tr.freed
  count : g.bags.length = ks.length
  addrs : ∀ a ∈ t.addrs, a < ks.length

theorem indexed_emptyGraph (direct weight : Bool) (n : Nat) :
    Indexed (emptyGraph direct weight n : Graph ω) [] .nil :=
  ⟨balanced_emptyTree, dict_empty hooks, rfl, fun _ ha => nomatch ha⟩

/-- `graph_search` finds the bag that was added last for the key. -/
theorem Indexed.search {g : Graph ω} {ks : List Int} {t : LTree (NodeVal BagPtr)}
    (h : Indexed g ks t) (key : Int) : graphSearch g key = some (owner ks key) := by
  obtain ⟨r, hrun, hfound, hdata⟩ := h.dict.search hooks_total h.balanced ⟨g.bags.length, ⟨key⟩⟩
  have hfuel : t.height < g.bags.length + 1 := by
    have hle := h.dict.height_le
    rw [length_ptrs] at hle
    rw [h.count]
    omega
  rw [graphSearch]
  rw [hrun _ hfuel]
  cases r with
  | none =>
      have hnone : owner ks key = none := by
        rw [← latest_ptrs ks g.bags.length key, ← Option.not_isSome_iff_eq_none,
          Option.isSome_iff_exists, latest_isSome, ← hfound]
        exact Bool.false_ne_true
      rw [hnone]
      rfl
  | some x =>
      obtain ⟨c, hc, hlatest⟩ := hdata x rfl
      rw [latest_ptrs] at hlatest
      rw [hlatest]
      simp only [Option.bind_eq_bind, Option.bind_some, hc]

/-- `graph_add_vertex` adds one bag and indexes it. -/
theorem Indexed.addVertex {g : Graph ω} {ks : List Int} {t : LTree (NodeVal BagPtr)}
    (h : Indexed g ks t) (hv : 0 < g.v) (old : Recycled ω) (v : Int) :
    ∃ tr gb t', graphBagNew old g.v g.weight = some gb ∧
      graphAddVertex old g v = some ({ g with tr := tr, bags := g.bags ++ [gb] }, 0) ∧
      Indexed { g with tr := tr, bags := g.bags ++ [gb] } (ks ++ [v]) t' := by
  have hfresh : ks.length ∉ t.addrs := fun ha => Nat.lt_irrefl _ (h.addrs _ ha)
  obtain ⟨tr, x, t', gone, hrun, hb, hs, hfreed⟩ :=
    rbtreeInsert_spec hooks h.balanced hfresh ⟨ks.length, ⟨v⟩⟩
  have hfuel : 2 * t.height + 1 < 2 * ks.length + 2 := by
    have hle := h.dict.height_le
    rw [length_ptrs] at hle
    omega
  obtain ⟨gb, hgb⟩ : ∃ gb, graphBagNew old g.v g.weight = some gb := ⟨_, if_neg (by omega)⟩
  refine ⟨tr, gb, t', hgb, ?_, hb, ?_, ?_, ?_⟩
  · rw [graphAddVertex]
    simp only [hgb, h.count, hrun _ hfuel, Option.bind_eq_bind, Option.bind_some]
  · have hdict := h.dict.step hooks_total hs
    rw [← ptrs_snoc, ← hfreed] at hdict
    exact hdict
  · show (g.bags ++ [gb]).length = _
    rw [List.length_append, List.length_append, h.count]
    rfl
  · intro a ha
    rw [(addrs_perm t').mem_iff] at ha
    rw [List.length_append, List.length_singleton]
    rcases hs.addr_mem ha with rfl | hold
    · omega
    · have := h.addrs a ((addrs_perm t).mem_iff.mpr hold)
      omega

/-! ## Bags -/

/-- The bag holds the ends `es`, in order, with their weights. -/
structure Holds (weight : Bool) (gb : GraphBag ω) (es : List (Int × ω)) : Prop where
  count : gb.i = es.length
  cells : gb.v.take gb.i = es.map fun x => some ⟨x.1⟩
  weights : weight = true →
    ∃ w, gb.w = some w ∧ w.length = gb.I ∧ w.take gb.i = es.map Prod.snd
  length : gb.v.length = gb.I
  fits : gb.i ≤ gb.I

theorem eight_le (n : Nat) : 8 ≤ atLeast8 n := by
  rw [atLeast8]
  split_ifs <;> omega

/-- A new bag is empty if the recycled memory is zero. -/
theorem holds_new {old : Recycled ω} {v : Nat} {weight : Bool} {gb : GraphBag ω}
    (h : graphBagNew old v weight = some gb) (hzero : old.i = 0) : Holds weight gb [] := by
  rw [graphBagNew] at h
  split_ifs at h with hv hw
  · obtain rfl := Option.some.inj h
    refine ⟨hzero, by simp [hzero], fun _ => ⟨_, rfl, ?_, by simp [hzero]⟩, ?_, by simp [hzero]⟩
    · exact length_resizeTo _ (Nat.zero_le _)
    · exact length_resizeTo _ (Nat.zero_le _)
  · obtain rfl := Option.some.inj h
    refine ⟨hzero, by simp [hzero], fun hw' => absurd hw' hw, ?_, by simp [hzero]⟩
    exact length_resizeTo _ (Nat.zero_le _)

/-- `graph_bag_realloc` keeps the entries and makes room for two more. -/
theorem Holds.realloc {weight : Bool} {gb : GraphBag ω} {es : List (Int × ω)}
    (h : Holds weight gb es) (old : Recycled ω) :
    Holds weight (graphBagRealloc old weight gb) es ∧
      (graphBagRealloc old weight gb).i = gb.i ∧
      gb.I ≤ (graphBagRealloc old weight gb).I ∧
      gb.i + 2 ≤ (graphBagRealloc old weight gb).I := by
  have hfits := h.fits
  rw [graphBagRealloc]
  by_cases hroom : gb.i < gb.I - 1
  · rw [if_pos hroom]
    exact ⟨h, rfl, le_refl _, by omega⟩
  · rw [if_neg hroom]
    have hgrow := eight_le gb.I
    have hlen : gb.v.length ≤ gb.I + atLeast8 gb.I := by
      rw [h.length]
      omega
    refine ⟨⟨h.count, ?_, ?_, length_resizeTo _ hlen, ?_⟩, rfl, ?_, ?_⟩
    · exact (take_resizeTo _ hlen (h.length ▸ hfits)).trans h.cells
    · intro hw
      obtain ⟨w, hgbw, hwlen, hwcells⟩ := h.weights hw
      have hwlen' : w.length ≤ gb.I + atLeast8 gb.I := by omega
      refine ⟨resizeTo old.w w (gb.I + atLeast8 gb.I), ?_, length_resizeTo _ hwlen', ?_⟩
      · show (if weight = true then some (resizeTo old.w (gb.w.getD []) _) else gb.w) = _
        rw [if_pos hw, hgbw]
        rfl
      · exact (take_resizeTo _ hwlen' (hwlen ▸ hfits)).trans hwcells
    · show gb.i ≤ gb.I + atLeast8 gb.I
      omega
    · show gb.I ≤ gb.I + atLeast8 gb.I
      omega
    · show gb.i + 2 ≤ gb.I + atLeast8 gb.I
      omega

/-- Writing a cell behind the first `i` appends to these. -/
theorem take_set_succ {α : Type} {l : List α} {i : Nat} (x : α) (hi : i < l.length) :
    (l.set i x).take (i + 1) = l.take i ++ [x] := by
  rw [List.take_add_one, List.take_set_of_le (Nat.le_refl i), List.getElem?_set_self hi]
  rfl

/-- With room left, an end is written behind the others, inside the arrays. -/
theorem Holds.put {weight : Bool} {gb : GraphBag ω} {es : List (Int × ω)}
    (h : Holds weight gb es) (node : GraphNode) (x : ω) (hroom : gb.i < gb.I) :
    ∃ gb', graphBagPut weight node x gb = some gb' ∧ gb'.i = gb.i + 1 ∧ gb'.I = gb.I ∧
      Holds weight gb' (es ++ [(node.key, x)]) := by
  have hv : gb.i < gb.v.length := h.length ▸ hroom
  rw [graphBagPut]
  rw [setAt_natCast _ _ hv]
  simp only [Option.bind_eq_bind, Option.bind_some]
  have hcells : (gb.v.set gb.i (some node)).take (gb.i + 1)
      = (es ++ [(node.key, x)]).map fun x => some ⟨x.1⟩ := by
    rw [take_set_succ _ hv, h.cells, List.map_append]
    rfl
  have hcount : gb.i + 1 = (es ++ [(node.key, x)]).length := by
    rw [List.length_append, List.length_singleton, h.count]
  have hlen : (gb.v.set gb.i (some node)).length = gb.I := by
    rw [List.length_set, h.length]
  rw [graphBagWeigh]
  cases weight with
  | true =>
      obtain ⟨w, hgbw, hwlen, hwcells⟩ := h.weights rfl
      have hwi : gb.i < w.length := hwlen ▸ hroom
      simp only [if_true, hgbw, Option.bind_eq_bind, Option.bind_some, setAt_natCast _ _ hwi]
      refine ⟨_, rfl, rfl, rfl, hcount, hcells, fun _ => ⟨w.set gb.i x, rfl, ?_, ?_⟩, hlen, hroom⟩
      · rw [List.length_set, hwlen]
      · show (w.set gb.i x).take (gb.i + 1) = _
        rw [take_set_succ _ hwi, hwcells, List.map_append]
        rfl
  | false =>
      rw [if_neg Bool.false_ne_true]
      exact ⟨_, rfl, rfl, rfl, hcount, hcells, fun hw => (nomatch hw), hlen, hroom⟩

/-! ## The graph and its adjacency lists -/

/-- `g` has the adjacency lists `A`: the bag of each vertex holds the list there. -/
structure Refines (g : Graph ω) (ks : List Int) (A : Adj Int ω) (t : LTree (NodeVal BagPtr)) :
    Prop where
  index : Indexed g ks t
  unknown : ∀ key, owner ks key = none → A key = none
  bags : ∀ key p, owner ks key = some p →
    ∃ gb es, g.bags[p.addr]? = some gb ∧ A key = some es ∧ Holds g.weight gb es

/-- Room for `n` more ends in the bag at `a`. -/
def Spare (bags : List (GraphBag ω)) (a n : Nat) : Prop :=
  ∃ gb, bags[a]? = some gb ∧ gb.i + n ≤ gb.I

theorem refines_emptyGraph (direct weight : Bool) (n : Nat) :
    Refines (emptyGraph direct weight n : Graph ω) [] (fun _ => none) .nil :=
  ⟨indexed_emptyGraph direct weight n, fun _ _ => rfl, fun _ _ h => nomatch h⟩

section Stages
variable {g : Graph ω} {ks : List Int} {A : Adj Int ω} {t : LTree (NodeVal BagPtr)}

theorem Refines.known_iff (h : Refines g ks A t) (key : Int) : (A key).isSome ↔ key ∈ ks := by
  rw [← owner_isSome]
  cases howner : owner ks key with
  | none => simp [h.unknown key howner]
  | some p =>
      obtain ⟨gb, es, -, hA, -⟩ := h.bags key p howner
      simp [hA]

/-- A bag that changes in place changes the list of its vertex only. -/
theorem Refines.edit (h : Refines g ks A t) {key : Int} {p : BagPtr} (hp : owner ks key = some p)
    {gb : GraphBag ω} {es : List (Int × ω)} (hgb : Holds g.weight gb es) :
    Refines { g with bags := g.bags.set p.addr gb } ks (Function.update A key (some es)) t := by
  have hlt : p.addr < g.bags.length := by
    rw [h.index.count]
    exact (List.getElem?_eq_some_iff.mp (owner_spec hp).2).1
  refine ⟨⟨h.index.balanced, h.index.dict, ?_, h.index.addrs⟩, ?_, ?_⟩
  · exact (List.length_set ..).trans h.index.count
  · intro k hk
    rw [Function.update_of_ne]
    · exact h.unknown k hk
    · rintro rfl
      exact nomatch hp.symm.trans hk
  · intro k q hq
    show ∃ gb' es', (g.bags.set p.addr gb)[q.addr]? = some gb' ∧ _
    by_cases hk : k = key
    · subst hk
      obtain rfl := Option.some.inj (hp.symm.trans hq)
      exact ⟨gb, es, List.getElem?_set_self hlt, Function.update_self .., hgb⟩
    · have haddr : p.addr ≠ q.addr := fun heq => hk (owner_inj hq hp heq.symm)
      rw [List.getElem?_set_ne haddr, Function.update_of_ne hk]
      exact h.bags k q hq

/-- `graph_bag_realloc` on the bag of a vertex. -/
theorem Refines.realloc (h : Refines g ks A t) {key : Int} {p : BagPtr}
    (hp : owner ks key = some p) (old : Recycled ω) :
    ∃ bags, modifyBag g.bags p.addr (fun gb => some (graphBagRealloc old g.weight gb)) = some bags ∧
      Refines { g with bags := bags } ks A t ∧ Spare bags p.addr 2 ∧
      ∀ a n, Spare g.bags a n → Spare bags a n := by
  obtain ⟨gb, es, hgb, hA, hholds⟩ := h.bags key p hp
  obtain ⟨hholds', hi, hI, hroom⟩ := hholds.realloc old
  have hlt := (List.getElem?_eq_some_iff.mp hgb).1
  refine ⟨g.bags.set p.addr (graphBagRealloc old g.weight gb), ?_, ?_, ?_, ?_⟩
  · simp only [modifyBag, hgb, Option.bind_eq_bind, Option.bind_some]
  · have hedit := h.edit hp hholds'
    rwa [← hA, Function.update_eq_self] at hedit
  · refine ⟨_, List.getElem?_set_self hlt, ?_⟩
    rw [hi]
    exact hroom
  · rintro a n ⟨gb', hgb', hn⟩
    by_cases ha : p.addr = a
    · subst ha
      obtain rfl := Option.some.inj (hgb.symm.trans hgb')
      refine ⟨_, List.getElem?_set_self hlt, ?_⟩
      rw [hi]
      exact hn.trans hI
    · exact ⟨gb', (List.getElem?_set_ne ha).trans hgb', hn⟩

/-- Writing one end into the bag of a vertex that has room for it. -/
theorem Refines.put (h : Refines g ks A t) {key : Int} {p : BagPtr} (hp : owner ks key = some p)
    (node : GraphNode) (x : ω) {n : Nat} (hspare : Spare g.bags p.addr (n + 1)) :
    ∃ bags, modifyBag g.bags p.addr (graphBagPut g.weight node x) = some bags ∧
      Refines { g with bags := bags } ks (push A key (node.key, x)) t ∧ Spare bags p.addr n ∧
      ∀ a m, a ≠ p.addr → Spare g.bags a m → Spare bags a m := by
  obtain ⟨gb, es, hgb, hA, hholds⟩ := h.bags key p hp
  obtain ⟨gb₀, hgb₀, hroom⟩ := hspare
  obtain rfl := Option.some.inj (hgb.symm.trans hgb₀)
  have hlt := (List.getElem?_eq_some_iff.mp hgb).1
  obtain ⟨gb', hput, hi, hI, hholds'⟩ := hholds.put node x (by omega)
  refine ⟨g.bags.set p.addr gb', ?_, ?_, ?_, ?_⟩
  · simp only [modifyBag, hgb, hput, Option.bind_eq_bind, Option.bind_some]
  · have hedit := h.edit hp hholds'
    rw [push, hA]
    exact hedit
  · refine ⟨gb', List.getElem?_set_self hlt, ?_⟩
    omega
  · rintro a m ha ⟨gb₁, hgb₁, hm⟩
    exact ⟨gb₁, (List.getElem?_set_ne (Ne.symm ha)).trans hgb₁, hm⟩

/-- Both ends of an edge, also where they share a bag: each bag gets room for two ends
    before the first is written. -/
theorem Refines.link (h : Refines g ks A t) {v w : Int} {p q : BagPtr}
    (hp : owner ks v = some p) (hq : owner ks w = some q) (olds : Recycled ω × Recycled ω) (x : ω) :
    ∃ bags, graphLink olds g p q x = some bags ∧
      Refines { g with bags := bags } ks (addEdge g.direct A ⟨v, w, x⟩) t := by
  have hnode := (owner_spec hp).1
  have hnode' := (owner_spec hq).1
  have hknown : Known A ⟨v, w, x⟩ :=
    ⟨(h.known_iff v).mpr ((owner_isSome ks v).mp (by rw [hp]; rfl)),
      (h.known_iff w).mpr ((owner_isSome ks w).mp (by rw [hq]; rfl))⟩
  obtain ⟨bags₁, hrun₁, h₁, hspare₁, -⟩ := h.realloc hp olds.1
  by_cases hd : g.direct = true
  · obtain ⟨bags₂, hrun₂, h₂, -⟩ := h₁.put hp q.node x hspare₁
    refine ⟨bags₂, ?_, ?_⟩
    · simp only [graphLink, hrun₁, if_pos hd, Option.bind_eq_bind, Option.bind_some]
      exact congrArg (Option.bind · _) hrun₂
    · rw [hnode'] at h₂
      rw [addEdge, if_pos hknown, if_pos hd]
      exact h₂
  · obtain ⟨bags₂, hrun₂, h₂, hspare₂, hkeep₂⟩ := h₁.realloc hq olds.2
    obtain ⟨bags₃, hrun₃, h₃, hspare₃, hkeep₃⟩ := h₂.put hp q.node x (hkeep₂ _ _ hspare₁)
    have hroom : Spare bags₃ q.addr 1 := by
      by_cases haddr : q.addr = p.addr
      · rw [haddr]
        exact hspare₃
      · obtain ⟨gb, hgb, hn⟩ := hkeep₃ _ _ haddr hspare₂
        exact ⟨gb, hgb, by omega⟩
    obtain ⟨bags₄, hrun₄, h₄, -⟩ := h₃.put hq p.node x (n := 0) hroom
    refine ⟨bags₄, ?_, ?_⟩
    · simp only [graphLink, hrun₁, if_neg hd, Option.bind_eq_bind, Option.bind_some]
      refine (congrArg (Option.bind · _) hrun₂).trans ?_
      refine (congrArg (Option.bind · _) hrun₃).trans ?_
      exact hrun₄
    · rw [hnode, hnode'] at h₄
      rw [addEdge, if_pos hknown, if_neg hd]
      exact h₄

/-- `graph_add_edge` adds the edge, or returns -1 and does nothing. -/
theorem Refines.addEdge (h : Refines g ks A t) (olds : Recycled ω × Recycled ω) (e : Edge Int ω) :
    ∃ bags, graphAddEdge olds g e.src e.dst e.label
        = some ({ g with bags := bags }, if Known A e then 0 else -1) ∧
      Refines { g with bags := bags } ks (addEdge g.direct A e) t ∧
      (¬ Known A e → bags = g.bags) := by
  rw [graphAddEdge]
  rw [h.index.search, h.index.search]
  simp only [Option.bind_eq_bind, Option.bind_some]
  by_cases hk : Known A e
  · obtain ⟨p, hp⟩ := Option.isSome_iff_exists.mp
      ((owner_isSome ks e.src).mpr ((h.known_iff e.src).mp hk.1))
    obtain ⟨q, hq⟩ := Option.isSome_iff_exists.mp
      ((owner_isSome ks e.dst).mpr ((h.known_iff e.dst).mp hk.2))
    obtain ⟨bags, hrun, href⟩ := h.link hp hq olds e.label
    refine ⟨bags, ?_, href, fun hn => absurd hk hn⟩
    simp only [hp, hq, hrun, Option.bind_some, if_pos hk]
  · have hsame : Refines g ks (Adjacency.addEdge g.direct A e) t := by
      rw [Adjacency.addEdge, if_neg hk]
      exact h
    refine ⟨g.bags, ?_, hsame, fun _ => rfl⟩
    rw [if_neg hk]
    cases hp : owner ks e.src with
    | none => rfl
    | some p =>
        cases hq : owner ks e.dst with
        | none => rfl
        | some q =>
            refine absurd ⟨?_, ?_⟩ hk
            · rw [h.known_iff, ← owner_isSome, hp]
              rfl
            · rw [h.known_iff, ← owner_isSome, hq]
              rfl

/-- `graph_add_vertex` gives the vertex a list of its own, which is empty if the
    recycled memory is zero. -/
theorem Refines.addVertex (h : Refines g ks A t) (hv : 0 < g.v) {old : Recycled ω}
    (hzero : old.i = 0) (v : Int) :
    ∃ tr gb t', graphAddVertex old g v = some ({ g with tr := tr, bags := g.bags ++ [gb] }, 0) ∧
      Refines { g with tr := tr, bags := g.bags ++ [gb] } (ks ++ [v]) (addVertex A v) t' := by
  obtain ⟨tr, gb, t', hgb, hrun, hindex⟩ := h.index.addVertex hv old v
  refine ⟨tr, gb, t', hrun, hindex, ?_, ?_⟩
  · intro key hkey
    rw [owner_snoc] at hkey
    split_ifs at hkey with heq
    rw [Adjacency.addVertex, Function.update_of_ne (Ne.symm heq)]
    exact h.unknown key hkey
  · intro key p hp
    show ∃ gb' es, (g.bags ++ [gb])[p.addr]? = some gb' ∧ _
    rw [owner_snoc] at hp
    split_ifs at hp with heq
    · subst heq
      obtain rfl := Option.some.inj hp
      refine ⟨gb, [], ?_, Function.update_self .., holds_new hgb hzero⟩
      show (g.bags ++ [gb])[ks.length]? = some gb
      rw [← h.index.count]
      exact List.getElem?_concat_length
    · obtain ⟨gb', es, hget, hA, hholds⟩ := h.bags key p hp
      refine ⟨gb', es, ?_, ?_, hholds⟩
      · exact (List.getElem?_append_left (List.getElem?_eq_some_iff.mp hget).1).trans hget
      · rw [Adjacency.addVertex, Function.update_of_ne (Ne.symm heq)]
        exact hA

/-- `graph_adj` returns the list of the vertex, and nothing for another key. -/
theorem Refines.adj (h : Refines g ks A t) (v : Int) :
    (A v = none ∧ graphAdj g v = some (none, 0)) ∨
    ∃ p gb es, A v = some es ∧ graphSearch g v = some (some p) ∧ g.bags[p.addr]? = some gb ∧
      graphAdj g v = some (some gb.v, gb.i) ∧ Holds g.weight gb es := by
  rw [graphAdj]
  rw [h.index.search]
  cases hp : owner ks v with
  | none => exact Or.inl ⟨h.unknown v hp, rfl⟩
  | some p =>
      obtain ⟨gb, es, hget, hA, hholds⟩ := h.bags v p hp
      refine Or.inr ⟨p, gb, es, hA, rfl, hget, ?_, hholds⟩
      simp only [Option.bind_eq_bind, Option.bind_some, hget]

end Stages

/-! ## Whole runs -/

namespace Call

/-- What a call does to the adjacency lists. -/
def change : Call ω → Change Int ω
  | .vertex v _ => .vertex v
  | .edge e _ => .edge e

/-- The keys it adds. -/
def keys : Call ω → List Int
  | .vertex v _ => [v]
  | .edge _ _ => []

/-- What it returns. -/
def reply (A : Adj Int ω) : Call ω → Int
  | .vertex _ _ => 0
  | .edge e _ => if Known A e then 0 else -1

/-- The memory it finds has a zero where a new bag's `i` will be. -/
def Zeroed : Call ω → Prop
  | .vertex _ old => old.i = 0
  | .edge _ _ => True

end Call

/-- What a sequence of calls returns. -/
def replies (direct : Bool) : Adj Int ω → List (Call ω) → List Int
  | _, [] => []
  | A, c :: cs => c.reply A :: replies direct (change direct A c.change) cs

/-- The graphs of one program differ in their vertices and edges only. -/
structure SameKind (g g' : Graph ω) : Prop where
  v : g'.v = g.v
  direct : g'.direct = g.direct
  weight : g'.weight = g.weight

theorem Refines.call {g : Graph ω} {ks : List Int} {A : Adj Int ω} {t : LTree (NodeVal BagPtr)}
    (h : Refines g ks A t) {c : Call ω} (hv : 0 < g.v ∨ c.keys = []) (hzero : c.Zeroed) :
    ∃ g' t', call g c = some (g', c.reply A) ∧
      Refines g' (ks ++ c.keys) (change g.direct A c.change) t' ∧ SameKind g g' := by
  cases c with
  | vertex v old =>
      rcases hv with hv | hv
      · obtain ⟨tr, gb, t', hrun, href⟩ := h.addVertex hv hzero v
        exact ⟨_, t', hrun, href, rfl, rfl, rfl⟩
      · exact nomatch hv
  | edge e olds =>
      obtain ⟨bags, hrun, href, -⟩ := h.addEdge olds e
      refine ⟨_, t, hrun, ?_, rfl, rfl, rfl⟩
      show Refines _ (ks ++ []) _ t
      rw [List.append_nil]
      exact href

/-- **A run of the graph is a run of its adjacency lists**: every call returns, and
    returns what it should. -/
theorem Refines.calls : ∀ (cs : List (Call ω)) {g : Graph ω} {ks : List Int} {A : Adj Int ω}
    {t : LTree (NodeVal BagPtr)}, Refines g ks A t →
    (0 < g.v ∨ ∀ c ∈ cs, c.keys = []) → (∀ c ∈ cs, c.Zeroed) →
    ∃ g' t', calls g cs = some (g', replies g.direct A cs) ∧
      Refines g' (ks ++ cs.flatMap Call.keys)
        ((cs.map Call.change).foldl (Adjacency.change g.direct) A) t' ∧ SameKind g g' := by
  intro cs
  induction cs with
  | nil =>
      intro g ks A t h _ _
      refine ⟨g, t, rfl, ?_, rfl, rfl, rfl⟩
      rw [List.flatMap_nil, List.append_nil]
      exact h
  | cons c cs ih =>
      intro g ks A t h hv hzero
      obtain ⟨g₁, t₁, hrun₁, h₁, hsame₁⟩ := h.call (c := c)
        (hv.imp_right fun hk => hk c (List.mem_cons_self ..)) (hzero c (List.mem_cons_self ..))
      obtain ⟨g₂, t₂, hrun₂, h₂, hsame₂⟩ := ih h₁
        (hv.imp (fun h0 => hsame₁.v ▸ h0) fun hk c' hc' => hk c' (List.mem_cons_of_mem _ hc'))
        fun c' hc' => hzero c' (List.mem_cons_of_mem _ hc')
      refine ⟨g₂, t₂, ?_, ?_, hsame₂.v.trans hsame₁.v, hsame₂.direct.trans hsame₁.direct,
        hsame₂.weight.trans hsame₁.weight⟩
      · simp only [AlgsGraph.calls, hrun₁, hrun₂, Option.bind_eq_bind, Option.bind_some, replies,
          hsame₁.direct]
      · rw [hsame₁.direct] at h₂
        rw [List.flatMap_cons, ← List.append_assoc, List.map_cons, List.foldl_cons]
        exact h₂

end AlgsGraph
