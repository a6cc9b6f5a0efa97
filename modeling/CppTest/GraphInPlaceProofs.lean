import CppTest.GraphReverseProofs
import CppTest.InPlaceProofs

/-! # Reversal in place (`dgraph_reverse` in `src/algs/algorithms4th/graph.cpp`)

    The first loop saves the array of each bag, with its length, and empties the bag; the
    second adds the edges that the saved arrays hold, turned round.  The arrays are those
    that `graph_add_edge` writes, and that `graph_bag_realloc` moves.

    * A saved pointer is the bag with the size `I` that its array had: `realloc` makes it
      larger.  Reading through the pointer afterwards faults (`readAdj`).
    * `Sim` connects a graph to the lists of `InPlaceProofs`; one turn of the outer loop is
      one `turn` there (`Sim.vertex`).
    * `dgraph_reverse_agrees` — with that, when the result has the edges that
      `dgraph_reverse_copy` finds. -/

namespace AlgsGraph

open Machine RbTree LinkedTree Adjacency InPlace

variable {ω : Type}

/-! ## The model -/

/-- A pointer to the array of a bag when it had `I` cells. -/
structure AdjPtr where
  addr : Nat
  I : Nat
  deriving Repr, DecidableEq

/-- `graph_adj`: the pointer, or null, and the number of cells in use. -/
def graphAdjPtr (g : Graph ω) (v : Int) : Option (Option AdjPtr × Nat) := do
  match ← graphSearch g v with
  | none => some (none, 0)
  | some p =>
      let gb ← g.bags[p.addr]?
      some (some ⟨p.addr, gb.I⟩, gb.i)

/-- `adj[j]` through a saved pointer; the array must not have moved. -/
def readAdj (g : Graph ω) (adj : AdjPtr) (j : Nat) : Option (Option GraphNode) := do
  let gb ← g.bags[adj.addr]?
  if gb.I = adj.I then getAt gb.v j else none

/-- One turn of the first loop. -/
def saveTurn (st : Graph ω × List (Option AdjPtr × Nat)) (p : BagPtr) :
    Option (Graph ω × List (Option AdjPtr × Nat)) := do
  let adj ← graphAdjPtr st.1 p.node.key
  let bags ← modifyBag st.1.bags p.addr fun gb => some { gb with i := 0 }
  some ({ st.1 with bags := bags }, st.2 ++ [adj])

/-- The turn of the inner loop for one cell, the `k`-th edge next; the key is read again to be
    printed after the edge has been added. -/
def inPlaceTurn (mem : Nat → Recycled ω × Recycled ω) (zero : ω) (p : BagPtr) (adj : AdjPtr)
    (st : Graph ω × Nat) (j : Nat) : Option (Graph ω × Nat) := do
  match ← readAdj st.1 adj j with
  | none => some st
  | some node =>
      let (g, _) ← graphAddEdge (mem st.2) st.1 node.key p.node.key zero
      let cell ← readAdj g adj j
      let _ ← cell
      some (g, st.2 + 1)

/-- One turn of the second loop. -/
def inPlaceVertex (mem : Nat → Recycled ω × Recycled ω) (zero : ω) (st : Graph ω × Nat)
    (x : BagPtr × Option AdjPtr × Nat) : Option (Graph ω × Nat) :=
  match x.2.1 with
  | none => some st
  | some adj => (List.range x.2.2).foldlM (inPlaceTurn mem zero x.1 adj) st

/-- `dgraph_reverse`: the graph afterwards. -/
def dgraphReverse (mem : Nat → Recycled ω × Recycled ω) (zero : ω) (g : Graph ω) :
    Option (Graph ω) :=
  if g.direct = false then some g
  else do
    let gbs ← graphWalk g
    let (g, adjs) ← gbs.foldlM saveTurn (g, [])
    let (g, _) ← (gbs.zip adjs).foldlM (inPlaceVertex mem zero) (g, 0)
    some g

/-! ## Bags that are written over -/

/-- The number of cells of the array of `v`. -/
def capacity (g : Graph ω) (v : Int) : Nat :=
  match (graphSearch g v).bind fun p => p.bind fun p => g.bags[p.addr]? with
  | some gb => gb.I
  | none => 0

/-- The array of a bag had `I` cells and held `o` when it was saved; now `b` is written over
    it, or it has moved. -/
structure WrittenOver (gb : GraphBag ω) (I : Nat) (o b : List Int) : Prop where
  grown : I ≤ gb.I
  stays : gb.I = I ↔ b.length < I
  held : gb.I = I → gb.v.take o.length = (overlay b o).map fun u => some ⟨u⟩

theorem graphBagPut_cells {weight : Bool} {node : GraphNode} {x : ω} {gb gb' : GraphBag ω}
    (h : graphBagPut weight node x gb = some gb') : gb'.v = gb.v.set gb.i (some node) := by
  obtain ⟨v, hv, h⟩ := Option.bind_eq_some_iff.mp h
  obtain ⟨w, -, h⟩ := Option.bind_eq_some_iff.mp h
  obtain rfl := Option.some.inj h
  exact (of_setAt hv).2

/-- One more entry. -/
theorem WrittenOver.append {gb gb' : GraphBag ω} {I : Nat} {o b : List Int}
    (h : WrittenOver gb I o b) (hi : gb.i = b.length) {old : Recycled ω} {weight : Bool}
    {node : GraphNode} {x : ω}
    (hput : graphBagPut weight node x (graphBagRealloc old weight gb) = some gb') :
    WrittenOver gb' I o (b ++ [node.key]) := by
  obtain ⟨-, hI⟩ := graphBagPut_counts hput
  have hcells := graphBagPut_cells hput
  have hgrown := h.grown
  have hstays := h.stays
  have hlen : (b ++ [node.key]).length = b.length + 1 := by
    rw [List.length_append, List.length_singleton]
  rw [graphBagRealloc] at hI hcells
  by_cases hroom : gb.i < gb.I - 1
  · rw [if_pos hroom] at hI hcells
    -- the entry goes over the next cell of the saved array, if it is still that one
    refine ⟨by omega, by omega, fun heq => ?_⟩
    rw [hcells, List.take_set, h.held (hI ▸ heq), hi, overlay_snoc, List.map_set]
  · rw [if_neg hroom] at hI
    -- the array moves
    have hmore := eight_le gb.I
    replace hI : gb'.I = gb.I + atLeast8 gb.I := hI
    exact ⟨by omega, by omega, fun heq => absurd heq (by omega)⟩

/-! ## One edge -/

/-- The adjacency lists with the entries `cur`. -/
def entries (zero : ω) (ks : List Int) (cur : Int → List Int) : Adj Int ω :=
  fun k => if k ∈ ks then some ((cur k).map fun u => (u, zero)) else none

/-- The graph in the second loop: its entries so far are `cur`, and they are written over the
    lists `orig` in arrays of `cap` cells. -/
structure Sim (zero : ω) (ks : List Int) (orig : Int → List Int) (cap : Int → Nat) (g : Graph ω)
    (cur : Int → List Int) : Prop where
  direct : g.direct = true
  refines : ∃ t, Refines g ks (entries zero ks cur) t
  cells : ∀ k p gb, owner ks k = some p → g.bags[p.addr]? = some gb →
    WrittenOver gb (cap k) (orig k) (cur k)
  known : ∀ k, ∀ u ∈ cur k, u ∈ ks
  outside : ∀ k, k ∉ ks → cur k = []

section Loop
variable {zero : ω} {ks : List Int} {orig : Int → List Int} {cap : Int → Nat} {g : Graph ω}
  {cur : Int → List Int}

theorem entries_push (v w : Int) (hw : w ∈ ks) (hv : v ∈ ks) :
    addEdge true (entries zero ks cur) ⟨w, v, zero⟩
      = entries zero ks (Function.update cur w (cur w ++ [v])) := by
  have hknown : Known (entries zero ks cur) ⟨w, v, zero⟩ := by
    refine ⟨?_, ?_⟩
    · rw [entries, if_pos hw]
      rfl
    · rw [entries, if_pos hv]
      rfl
  funext k
  rw [addEdge_apply, if_pos hknown, entries, entries]
  by_cases hk : k ∈ ks
  · rw [if_pos hk, if_pos hk]
    by_cases hkw : k = w
    · subst hkw
      simp [endsAt]
    · simp [endsAt, Ne.symm hkw, Function.update_of_ne hkw]
  · rw [if_neg hk, if_neg hk]
    rfl

/-- `graph_add_edge` is one more entry. -/
theorem Sim.addEdge (h : Sim zero ks orig cap g cur) {v w : Int} (hv : v ∈ ks) (hw : w ∈ ks)
    (olds : Recycled ω × Recycled ω) :
    ∃ g', graphAddEdge olds g w v zero = some (g', 0) ∧
      Sim zero ks orig cap g' (Function.update cur w (cur w ++ [v])) := by
  obtain ⟨t, href⟩ := h.refines
  obtain ⟨p, hp⟩ := Option.isSome_iff_exists.mp ((owner_isSome ks w).mpr hw)
  obtain ⟨q, hq⟩ := Option.isSome_iff_exists.mp ((owner_isSome ks v).mpr hv)
  obtain ⟨bags, hlink, href'⟩ := href.link hp hq olds zero
  refine ⟨{ g with bags := bags }, ?_, h.direct, ⟨t, ?_⟩, ?_, ?_, ?_⟩
  · simp only [graphAddEdge, href.index.search, hp, hq, hlink, Option.bind_eq_bind,
      Option.bind_some]
  · rw [← entries_push v w hw hv, ← h.direct]
    exact href'
  · intro k r gb hr hgb
    obtain ⟨gb₀, gb₁, hgb₀, hput, rfl⟩ := graphLink_direct h.direct hlink
    replace hgb : (g.bags.set p.addr gb₁)[r.addr]? = some gb := hgb
    by_cases hk : k = w
    · subst hk
      obtain rfl := Option.some.inj (hp.symm.trans hr)
      rw [List.getElem?_set_self (List.getElem?_eq_some_iff.mp hgb₀).1] at hgb
      obtain rfl := Option.some.inj hgb
      obtain ⟨gb₂, es, hgb₂, hes, hholds⟩ := href.bags k p hp
      obtain rfl := Option.some.inj (hgb₀.symm.trans hgb₂)
      rw [entries, if_pos hw] at hes
      have hi : gb₀.i = (cur k).length := by
        rw [hholds.count, ← Option.some.inj hes, List.length_map]
      rw [Function.update_self]
      have happend := (h.cells k p gb₀ hp hgb₀).append hi hput
      rw [(owner_spec hq).1] at happend
      exact happend
    · have haddr : p.addr ≠ r.addr := fun heq => hk (owner_inj hr hp heq.symm)
      rw [List.getElem?_set_ne haddr] at hgb
      rw [Function.update_of_ne hk]
      exact h.cells k r gb hr hgb
  · intro k u hu
    by_cases hk : k = w
    · subst hk
      rw [Function.update_self] at hu
      rcases List.mem_append.mp hu with hu | hu
      · exact h.known k u hu
      · exact List.mem_singleton.mp hu ▸ hv
    · rw [Function.update_of_ne hk] at hu
      exact h.known k u hu
  · intro k hk
    have hne : k ≠ w := fun heq => hk (heq ▸ hw)
    rw [Function.update_of_ne hne]
    exact h.outside k hk

/-- The lists of the graph are the entries. -/
theorem Sim.adjKeys_eq (h : Sim zero ks orig cap g cur) (k : Int) : adjKeys g k = cur k := by
  obtain ⟨t, href⟩ := h.refines
  rw [href.adjKeys_eq, entries]
  by_cases hk : k ∈ ks
  · rw [if_pos hk, Option.getD_some, List.map_map]
    exact List.map_id (cur k)
  · rw [if_neg hk, h.outside k hk]
    rfl

/-- Reading through the saved pointer: what is written over the list, if the array has not
    moved. -/
theorem Sim.read (h : Sim zero ks orig cap g cur) {v : Int} {p : BagPtr}
    (hp : owner ks v = some p) {j : Nat} (hj : j < (orig v).length) :
    readAdj g ⟨p.addr, cap v⟩ j = if (cur v).length < cap v then
      (overlay (cur v) (orig v))[j]?.map fun u => some ⟨u⟩ else none := by
  obtain ⟨t, href⟩ := h.refines
  obtain ⟨gb, es, hgb, -⟩ := href.bags v p hp
  have hover := h.cells v p gb hp hgb
  simp only [readAdj, hgb, Option.bind_eq_bind, Option.bind_some]
  by_cases hstays : (cur v).length < cap v
  · have hI := hover.stays.mpr hstays
    rw [if_pos hI, if_pos hstays, getAt_natCast, ← List.getElem?_map, ← hover.held hI,
      List.getElem?_take_of_lt hj]
  · rw [if_neg (fun hI => hstays (hover.stays.mp hI)), if_neg hstays]

/-! ## One vertex -/

/-- Behind the first `c` cells a value stands at most once in each cell. -/
theorem count_take_le {l : List Int} {c : Nat} {v : Int} (hv : v ∉ l.take c) (k : Nat) :
    (l.take k).count v ≤ k - c := by
  have hsplit : (l.take k).take c ++ (l.take k).drop c = l.take k := List.take_append_drop ..
  rw [← hsplit, List.count_append]
  have hfront : ((l.take k).take c).count v = 0 := by
    refine List.count_eq_zero.mpr fun hmem => hv ?_
    rw [List.take_take, Nat.min_comm, ← List.take_take] at hmem
    exact List.mem_of_mem_take hmem
  have hback : ((l.take k).drop c).count v ≤ k - c := by
    refine List.count_le_length.trans ?_
    rw [List.length_drop, List.length_take]
    omega
  omega

theorem take_overlay {b o : List Int} {v : Int} (hv : v ∉ b) : v ∉ (overlay b o).take b.length := by
  intro hmem
  rw [overlay, List.take_take, Nat.min_comm, ← List.take_take, List.take_left] at hmem
  exact hv (List.mem_of_mem_take hmem)

/-- A cell, and then the next, as long as the array stays. -/
theorem Sim.cellTurn {v w : Int} {p : BagPtr} (h : Sim zero ks orig cap g cur)
    (hp : owner ks v = some p) (hw : w ∈ ks) {j : Nat}
    (hread : (overlay (cur v) (orig v))[j]? = some w) (hcap : (cur v).length < cap v)
    (hcap' : (Function.update cur w (cur w ++ [v]) v).length < cap v)
    (mem : Nat → Recycled ω × Recycled ω) (n : Nat) :
    ∃ g', inPlaceTurn mem zero p ⟨p.addr, cap v⟩ (g, n) j = some (g', n + 1) ∧
      Sim zero ks orig cap g' (Function.update cur w (cur w ++ [v])) := by
  have hj : j < (orig v).length := by
    rw [← length_overlay (cur v)]
    exact (List.getElem?_eq_some_iff.mp hread).1
  have hv : v ∈ ks := (owner_isSome ks v).mp (by rw [hp]; rfl)
  obtain ⟨g', hedge, h'⟩ := h.addEdge hv hw (mem n)
  -- the cell that is printed holds something
  obtain ⟨u, hu⟩ : ∃ u, (overlay (Function.update cur w (cur w ++ [v]) v) (orig v))[j]? = some u :=
    ⟨_, List.getElem?_eq_getElem (by rw [length_overlay]; exact hj)⟩
  refine ⟨g', ?_, h'⟩
  have hkey : p.node.key = v := by rw [(owner_spec hp).1]
  rw [inPlaceTurn]
  dsimp only
  rw [h.read hp hj, if_pos hcap, hread]
  simp only [Option.map_some, Option.bind_eq_bind, Option.bind_some, hkey, hedge]
  rw [h'.read hp hj, if_pos hcap', hu]
  rfl

/-- What the cells of `v` hold are vertices. -/
theorem Sim.reads_known {v w : Int} (h : Sim zero ks orig cap g cur)
    (horig : ∀ u ∈ orig v, u ∈ ks) (hw : w ∈ reads orig cur v) : w ∈ ks := by
  rcases List.mem_append.mp (List.mem_of_mem_take hw) with hmem | hmem
  · exact h.known v w hmem
  · exact horig w (List.mem_of_mem_drop hmem)

/-- The entries after one cell more. -/
theorem entries_next (cur : Int → List Int) (v : Int) {R : List Int} {k : Nat} {w : Int}
    (hw : R[k]? = some w) :
    Function.update (fun u => cur u ++ List.replicate ((R.take k).count u) v) w
        (cur w ++ List.replicate ((R.take k).count w) v ++ [v])
      = fun u => cur u ++ List.replicate ((R.take (k + 1)).count u) v := by
  have hnext : R.take (k + 1) = R.take k ++ [w] := by
    rw [List.take_add_one, hw]
    rfl
  funext u
  rw [hnext, List.count_append, List.count_singleton]
  by_cases hu : u = w
  · subst hu
    rw [Function.update_self, if_pos (beq_self_eq_true u), List.replicate_succ', List.append_assoc]
  · rw [Function.update_of_ne hu, if_neg (by simpa using Ne.symm hu), Nat.add_zero]

/-- **The inner loop.**  After `k` cells their keys have got the entry `v`.  The cells still
    to be read are as at the start: the entries of a loop at `v` itself go to cells that have
    been read. -/
theorem Sim.cellTurns {v : Int} {p : BagPtr} (h : Sim zero ks orig cap g cur)
    (hp : owner ks v = some p) (hv : v ∉ cur v) (horig : ∀ u ∈ orig v, u ∈ ks)
    (hcap : (cur v).length < cap v) (hroom : (orig v).length < cap v)
    (mem : Nat → Recycled ω × Recycled ω) (n : Nat) :
    ∀ k, k ≤ (orig v).length →
      ∃ g' n', (List.range k).foldlM (inPlaceTurn mem zero p ⟨p.addr, cap v⟩) (g, n)
          = some (g', n') ∧
        Sim zero ks orig cap g' fun w =>
          cur w ++ List.replicate (((reads orig cur v).take k).count w) v := by
  intro k
  induction k with
  | zero =>
      intro _
      refine ⟨g, n, rfl, ?_⟩
      simp only [List.take_zero, List.count_nil, List.replicate_zero, List.append_nil]
      exact h
  | succ k ih =>
      intro hk
      obtain ⟨g₁, n₁, hrun₁, h₁⟩ := ih (by omega)
      obtain ⟨w, hw⟩ : ∃ w, (reads orig cur v)[k]? = some w :=
        ⟨_, List.getElem?_eq_getElem (by rw [reads, length_overlay]; omega)⟩
      -- so many entries has `v` got from itself by now
      have hloops : ∀ j, ((reads orig cur v).take j).count v ≤ j - (cur v).length :=
        count_take_le (take_overlay hv)
      have hread : (overlay (cur v ++ List.replicate (((reads orig cur v).take k).count v) v)
          (orig v))[k]? = some w := by
        rw [overlay_append_getElem? _ _ _ (by omega), ← hw]
        · rfl
        · rw [List.length_replicate]
          have := hloops k
          omega
      have hstays : ∀ j, j ≤ k + 1 →
          (cur v ++ List.replicate (((reads orig cur v).take j).count v) v).length < cap v := by
        intro j hj
        have := hloops j
        rw [List.length_append, List.length_replicate]
        omega
      have hknown := h.reads_known horig (List.mem_of_getElem? hw)
      have hcur := entries_next cur v hw
      obtain ⟨g', hturn, h'⟩ := h₁.cellTurn hp hknown hread (hstays k (by omega))
        (by rw [congrFun hcur v]; exact hstays (k + 1) (Nat.le_refl _)) mem n₁
      rw [hcur] at h'
      refine ⟨g', n₁ + 1, ?_, h'⟩
      rw [List.range_succ, List.foldlM_append, hrun₁]
      exact congrArg (Option.bind · _) hturn

/-- **One turn of the outer loop is one turn of the lists.** -/
theorem Sim.vertex {v : Int} {p : BagPtr} (h : Sim zero ks orig cap g cur)
    (hp : owner ks v = some p) (hv : v ∉ cur v) (horig : ∀ u ∈ orig v, u ∈ ks)
    (hroom : (orig v).length < cap v) (mem : Nat → Recycled ω × Recycled ω) (n : Nat) :
    (turn orig cap cur v = none →
      inPlaceVertex mem zero (g, n) (p, some ⟨p.addr, cap v⟩, (orig v).length) = none) ∧
    ∀ cur', turn orig cap cur v = some cur' →
      ∃ g' n', inPlaceVertex mem zero (g, n) (p, some ⟨p.addr, cap v⟩, (orig v).length)
          = some (g', n') ∧ Sim zero ks orig cap g' cur' := by
  constructor
  · intro hnone
    have hmoved : orig v ≠ [] ∧ cap v ≤ (cur v).length := by
      by_contra hneg
      rw [turn, if_neg hneg] at hnone
      exact absurd hnone (Option.some_ne_none _)
    obtain ⟨d, hd⟩ : ∃ d, (orig v).length = d + 1 :=
      ⟨(orig v).length - 1, by have := List.length_pos_iff.mpr hmoved.1; omega⟩
    -- the first cell cannot be read
    have hread : readAdj g ⟨p.addr, cap v⟩ 0 = none := by
      rw [h.read hp (by omega), if_neg (by omega)]
    show (List.range (orig v).length).foldlM (inPlaceTurn mem zero p ⟨p.addr, cap v⟩) (g, n) = none
    rw [hd, List.range_succ_eq_map, List.foldlM_cons, inPlaceTurn]
    dsimp only
    rw [hread]
    rfl
  · intro cur' hturn
    obtain ⟨hmoved, rfl⟩ := turn_eq hturn
    show ∃ g' n', (List.range (orig v).length).foldlM (inPlaceTurn mem zero p ⟨p.addr, cap v⟩)
      (g, n) = some (g', n') ∧ _
    by_cases hnil : orig v = []
    · refine ⟨g, n, by rw [hnil]; rfl, ?_⟩
      have hreads : reads orig cur v = [] := by
        rw [reads, hnil]
        exact List.take_zero
      rw [hreads]
      simp only [List.count_nil, List.replicate_zero, List.append_nil]
      exact h
    · obtain ⟨g', n', hrun, h'⟩ := h.cellTurns hp hv horig (by
        by_contra hge
        exact hmoved ⟨hnil, by omega⟩) hroom mem n _ (Nat.le_refl _)
      rw [List.take_of_length_le (by rw [reads, length_overlay])] at h'
      exact ⟨g', n', hrun, h'⟩

/-! ## All vertices -/

/-- What the first loop saves for a bag. -/
def savedAdj (orig : Int → List Int) (cap : Int → Nat) (p : BagPtr) : Option AdjPtr × Nat :=
  (some ⟨p.addr, cap p.node.key⟩, (orig p.node.key).length)

/-- **The second loop is the turns of the lists**, for vertices above all entries so far. -/
theorem Sim.vertices (horig : ∀ k, ∀ u ∈ orig k, u ∈ ks)
    (hroom : ∀ k ∈ ks, (orig k).length < cap k) (mem : Nat → Recycled ω × Recycled ω)
    (ps : List BagPtr) : ∀ {g : Graph ω} {cur : Int → List Int} (n : Nat),
      Sim zero ks orig cap g cur → (ps.map fun p => p.node.key).Pairwise (· < ·) →
      (∀ p ∈ ps, owner ks p.node.key = some p) →
      (∀ p ∈ ps, ∀ k, ∀ u ∈ cur k, u < p.node.key) →
      ((ps.map fun p => p.node.key).foldlM (turn orig cap) cur = none →
        (ps.map fun p => (p, savedAdj orig cap p)).foldlM (inPlaceVertex mem zero) (g, n) = none) ∧
      ∀ fin, (ps.map fun p => p.node.key).foldlM (turn orig cap) cur = some fin →
        ∃ g' n', (ps.map fun p => (p, savedAdj orig cap p)).foldlM (inPlaceVertex mem zero) (g, n)
            = some (g', n') ∧ Sim zero ks orig cap g' fin := by
  induction ps with
  | nil =>
      intro g cur n h _ _ _
      refine ⟨fun hnone => absurd hnone (Option.some_ne_none _), fun fin hfin => ?_⟩
      obtain rfl := Option.some.inj hfin
      exact ⟨g, n, rfl, h⟩
  | cons p ps ih =>
      intro g cur n h hsorted howns habove
      obtain ⟨hp, hsorted⟩ := List.pairwise_cons.mp hsorted
      have hown := howns p List.mem_cons_self
      have hmem : p.node.key ∈ ks := (owner_isSome ks _).mp (by rw [hown]; rfl)
      have hself : p.node.key ∉ cur p.node.key :=
        fun hu => lt_irrefl _ (habove p List.mem_cons_self _ _ hu)
      obtain ⟨hnone, hsome⟩ := h.vertex hown hself (horig _) (hroom _ hmem) mem n
      rw [List.map_cons, List.map_cons, List.foldlM_cons, List.foldlM_cons]
      cases hturn : turn orig cap cur p.node.key with
      | none =>
          refine ⟨fun _ => ?_, fun fin hfin => absurd hfin.symm (Option.some_ne_none _)⟩
          exact congrArg (Option.bind · _) (hnone hturn)
      | some cur' =>
          obtain ⟨g₁, n₁, hrun, h₁⟩ := hsome cur' hturn
          replace hrun : inPlaceVertex mem zero (g, n) (p, savedAdj orig cap p)
            = some (g₁, n₁) := hrun
          rw [hrun]
          refine ih n₁ h₁ hsorted (fun q hq => howns q (List.mem_cons_of_mem p hq)) ?_
          intro q hq k u hu
          obtain ⟨-, rfl⟩ := turn_eq hturn
          rcases List.mem_append.mp hu with hu | hu
          · exact habove q (List.mem_cons_of_mem p hq) k u hu
          · rw [(List.mem_replicate.mp hu).2]
            exact hp _ (List.mem_map_of_mem hq)

/-! ## The first loop -/

/-- The arrays hold the lists `orig`, and have `cap` cells. -/
def Kept (ks : List Int) (orig : Int → List Int) (cap : Int → Nat) (g : Graph ω) : Prop :=
  ∀ k p gb, owner ks k = some p → g.bags[p.addr]? = some gb →
    gb.I = cap k ∧ gb.v.take (orig k).length = (orig k).map fun u => some ⟨u⟩

/-- The bags of `ps` are emptied. -/
def emptied (A : Adj Int ω) (ps : List BagPtr) : Adj Int ω :=
  ps.foldl (fun A p => Function.update A p.node.key (some [])) A

theorem emptied_apply (ps : List BagPtr) : ∀ (A : Adj Int ω) (k : Int),
    emptied A ps k = if k ∈ ps.map (fun p => p.node.key) then some [] else A k := by
  induction ps with
  | nil => exact fun A k => (if_neg List.not_mem_nil).symm
  | cons p ps ih =>
      intro A k
      show emptied (Function.update A p.node.key (some [])) ps k = _
      rw [ih, Function.update_apply]
      by_cases hk : k = p.node.key
      · simp [hk]
      · simp [hk]

theorem holds_emptied {weight : Bool} {gb : GraphBag ω} {es : List (Int × ω)}
    (h : Holds weight gb es) : Holds weight { gb with i := 0 } [] where
  count := rfl
  cells := rfl
  weights hw := by
    obtain ⟨w, hgbw, hlen, -⟩ := h.weights hw
    exact ⟨w, hgbw, hlen, rfl⟩
  length := h.length
  fits := Nat.zero_le _

/-- **The first loop saves the arrays and empties the bags.** -/
theorem saveTurns (ps : List BagPtr) :
    ∀ {g : Graph ω} {A : Adj Int ω} {t : LTree (NodeVal BagPtr)}
      (adjs : List (Option AdjPtr × Nat)), Refines g ks A t → Kept ks orig cap g →
      (ps.map fun p => p.node.key).Pairwise (· < ·) →
      (∀ p ∈ ps, owner ks p.node.key = some p) →
      (∀ p ∈ ps, ((A p.node.key).getD []).length = (orig p.node.key).length) →
      ∃ g', ps.foldlM saveTurn (g, adjs) = some (g', adjs ++ ps.map (savedAdj orig cap)) ∧
        SameKind g g' ∧ Refines g' ks (emptied A ps) t ∧ Kept ks orig cap g' := by
  induction ps with
  | nil =>
      intro g A t adjs href hkept _ _ _
      refine ⟨g, ?_, ⟨rfl, rfl, rfl⟩, href, hkept⟩
      rw [List.map_nil, List.append_nil]
      rfl
  | cons p ps ih =>
      intro g A t adjs href hkept hsorted howns hlens
      obtain ⟨hp, hsorted⟩ := List.pairwise_cons.mp hsorted
      have hown := howns p List.mem_cons_self
      obtain ⟨gb, es, hgb, hA, hholds⟩ := href.bags _ p hown
      have hlt := (List.getElem?_eq_some_iff.mp hgb).1
      have hptr : graphAdjPtr g p.node.key = some (savedAdj orig cap p) := by
        have hlen := hlens p List.mem_cons_self
        rw [hA, Option.getD_some] at hlen
        simp only [graphAdjPtr, href.index.search, hown, hgb, Option.bind_eq_bind,
          Option.bind_some, savedAdj, (hkept _ p gb hown hgb).1, hholds.count, hlen]
      have hmodify : modifyBag g.bags p.addr (fun gb => some { gb with i := 0 })
          = some (g.bags.set p.addr { gb with i := 0 }) := by
        simp only [modifyBag, hgb, Option.bind_eq_bind, Option.bind_some]
      have href₁ := href.edit hown (holds_emptied hholds)
      have hkept₁ : Kept ks orig cap { g with bags := g.bags.set p.addr { gb with i := 0 } } := by
        intro k q gb' hq hgb'
        replace hgb' : (g.bags.set p.addr { gb with i := 0 })[q.addr]? = some gb' := hgb'
        by_cases haddr : p.addr = q.addr
        · rw [← haddr, List.getElem?_set_self hlt] at hgb'
          obtain rfl := Option.some.inj hgb'
          exact hkept k q gb hq (haddr ▸ hgb)
        · rw [List.getElem?_set_ne haddr] at hgb'
          exact hkept k q gb' hq hgb'
      obtain ⟨g', hrun, hsame, href', hkept'⟩ := ih (adjs ++ [savedAdj orig cap p]) href₁ hkept₁
        hsorted (fun q hq => howns q (List.mem_cons_of_mem p hq)) (by
          intro q hq
          have hne : q.node.key ≠ p.node.key := ne_of_gt (hp _ (List.mem_map_of_mem hq))
          rw [Function.update_of_ne hne]
          exact hlens q (List.mem_cons_of_mem p hq))
      refine ⟨g', ?_, ⟨hsame.v, hsame.direct, hsame.weight⟩, href', hkept'⟩
      have hturn : saveTurn (g, adjs) p
          = some ({ g with bags := g.bags.set p.addr { gb with i := 0 } },
            adjs ++ [savedAdj orig cap p]) := by
        simp only [saveTurn, hptr, hmodify, Option.bind_eq_bind, Option.bind_some]
      rw [List.foldlM_cons, hturn]
      rw [List.append_assoc] at hrun
      exact hrun

end Loop

/-! ## `dgraph_reverse` -/

section Built
variable {g : Graph ω} {A : Adj Int ω}

theorem Built.capacity_eq (h : Built g A) {k : Int} {p : BagPtr} {gb : GraphBag ω}
    (hp : owner (vertexKeys g.v) k = some p) (hgb : g.bags[p.addr]? = some gb) :
    capacity g k = gb.I := by
  obtain ⟨t, href⟩ := h.refines
  simp only [capacity, href.index.search, hp, Option.bind_some, hgb]

theorem Built.kept (h : Built g A) : Kept (vertexKeys g.v) (adjKeys g) (capacity g) g := by
  intro k p gb hp hgb
  obtain ⟨t, href⟩ := h.refines
  obtain ⟨gb', es, hgb', hA, hholds⟩ := href.bags k p hp
  obtain rfl := Option.some.inj (hgb.symm.trans hgb')
  refine ⟨(h.capacity_eq hp hgb).symm, ?_⟩
  rw [h.adjKeys_eq, hA, Option.getD_some, List.length_map, List.map_map, ← hholds.count]
  exact hholds.cells

theorem Built.room (h : Built g A) (hd : g.direct = true) :
    ∀ k ∈ vertexKeys g.v, (adjKeys g k).length < capacity g k := by
  intro k hk
  obtain ⟨t, href⟩ := h.refines
  obtain ⟨p, hp⟩ := Option.isSome_iff_exists.mp ((owner_isSome _ k).mpr hk)
  obtain ⟨gb, es, hgb, hA, hholds⟩ := href.bags k p hp
  rw [h.capacity_eq hp hgb, h.adjKeys_eq, hA, Option.getD_some, List.length_map, ← hholds.count]
  exact h.roomy hd _ gb hgb

/-- Before the second loop nothing is written over. -/
theorem Built.simStart (h : Built g A) (hd : g.direct = true) (zero : ω) {ps : List BagPtr}
    (hps : Walked g A ps) :
    ∃ g', ps.foldlM saveTurn (g, []) = some (g', ps.map (savedAdj (adjKeys g) (capacity g))) ∧
      Sim zero (vertexKeys g.v) (adjKeys g) (capacity g) g' fun _ => [] := by
  obtain ⟨t, href⟩ := h.refines
  obtain ⟨g', hrun, hsame, href', hkept⟩ := saveTurns ps [] href h.kept
    hps.sorted_keys hps.owns fun p _ => by
      rw [h.adjKeys_eq, List.length_map]
  refine ⟨g', hrun, hsame.direct.trans hd, ⟨t, ?_⟩, ?_,
    fun k u hu => absurd hu List.not_mem_nil, fun _ _ => rfl⟩
  · have hlists : emptied A ps = entries zero (vertexKeys g.v) fun _ => [] := by
      funext k
      have hmem := hps.mem_keys h k
      rw [emptied_apply, entries]
      by_cases hk : k ∈ vertexKeys g.v
      · rw [if_pos (hmem.mpr hk), if_pos hk]
        rfl
      · rw [if_neg (fun hk' => hk (hmem.mp hk')), if_neg hk, ← Option.not_isSome_iff_eq_none,
          h.known_iff]
        exact hk
    rw [← hlists]
    exact href'
  · intro k p gb hp hgb
    obtain ⟨hI, hcells⟩ := hkept k p gb hp hgb
    have hroom := h.room hd k ((owner_isSome _ k).mp (by rw [hp]; rfl))
    refine ⟨Nat.le_of_eq hI.symm, ⟨fun _ => Nat.lt_of_le_of_lt (Nat.zero_le _) hroom, fun _ => hI⟩,
      fun _ => ?_⟩
    rw [overlay_nil]
    exact hcells

/-- The keys that the walk finds. -/
def walkKeys (g : Graph ω) : List Int := ((graphWalk g).getD []).map fun p => p.node.key

theorem walkKeys_eq {ps : List BagPtr} (hwalk : graphWalk g = some ps) :
    walkKeys g = ps.map fun p => p.node.key := by
  rw [walkKeys, hwalk, Option.getD_some]

/-- **`dgraph_reverse` is the turns of the lists.** -/
theorem Built.reverse (h : Built g A) (hd : g.direct = true) (mem : Nat → Recycled ω × Recycled ω)
    (zero : ω) :
    ((walkKeys g).foldlM (turn (adjKeys g) (capacity g)) (fun _ => []) = none →
      dgraphReverse mem zero g = none) ∧
    ∀ fin, (walkKeys g).foldlM (turn (adjKeys g) (capacity g)) (fun _ => []) = some fin →
      ∃ g', dgraphReverse mem zero g = some g' ∧
        Sim zero (vertexKeys g.v) (adjKeys g) (capacity g) g' fin := by
  obtain ⟨ps, hwalk, hps⟩ := h.walk
  obtain ⟨g₁, hsave, hsim⟩ := h.simStart hd zero hps
  have horig : ∀ k, ∀ u ∈ adjKeys g k, u ∈ vertexKeys g.v :=
    fun k u hu => (h.known_iff u).mp (h.known_of_mem hu)
  obtain ⟨hnone, hsome⟩ := Sim.vertices horig (h.room hd) mem ps 0 hsim
    hps.sorted_keys hps.owns fun p _ k u hu => absurd hu List.not_mem_nil
  have hzip : ps.zip (ps.map (savedAdj (adjKeys g) (capacity g)))
      = ps.map fun p => (p, savedAdj (adjKeys g) (capacity g) p) := by
    refine (List.zip_of_prod ?_ ?_).symm
    · rw [List.map_map]
      exact List.map_id ps
    · rw [List.map_map]
      rfl
  have heq : dgraphReverse mem zero g
      = ((ps.map fun p => (p, savedAdj (adjKeys g) (capacity g) p)).foldlM
          (inPlaceVertex mem zero) (g₁, 0)).bind fun st => some st.1 := by
    rw [dgraphReverse, if_neg (by rw [hd]; decide)]
    simp only [hwalk, hsave, Option.bind_eq_bind, Option.bind_some, hzip]
  rw [walkKeys_eq hwalk, heq]
  refine ⟨fun hn => by rw [hnone hn]; rfl, fun fin hfin => ?_⟩
  obtain ⟨g', n', hrun, h'⟩ := hsome fin hfin
  exact ⟨g', by rw [hrun]; rfl, h'⟩

end Built

/-- The vertices below `v` with an edge to `v`, in increasing order, each as often as it has
    one: what `v` has got for entries when its array is read. -/
def lower (g : Graph ω) (v : Int) : List Int :=
  sources ((walkKeys g).filter (· < v)) (adjKeys g) v

/-- After `dgraph_reverse` the graph has the edges that `dgraph_reverse_copy` has found
    before, each as often. -/
def Agrees (mem : Nat → Recycled ω × Recycled ω) (mem' : InitMem ω) (zero : ω) (g : Graph ω) :
    Prop :=
  ∃ g' gc, dgraphReverse mem zero g = some g' ∧ dgraphReverseCopy mem' zero g = some (g, gc) ∧
    ∀ v w, (adjKeys g' v).count w = (adjKeys gc v).count w

/-- **REVERSAL IN PLACE.**  For every directed graph without weights that `graph_init` has
    returned, with zero in the recycled memory, `dgraph_reverse` and `dgraph_reverse_copy`
    agree if and ONLY if for every vertex with a neighbour the entries from lower vertices
    have not moved its array, and were, up to the order, in the cells that they overwrite. -/
theorem dgraph_reverse_agrees (v₀ e₀ e fuel : Nat) (mem₀ mem' : InitMem ω)
    (mem : Nat → Recycled ω × Recycled ω) (zero : ω) (s : List Char)
    (hzero₀ : ∀ i, (mem₀.vertex i).i = 0) (hzero' : ∀ i, (mem'.vertex i).i = 0) {g : Graph ω}
    (hinit : graphInit mem₀ zero fuel (emptyGraph true false v₀) e₀ s = some (g, e, 0)) :
    Agrees mem mem' zero g ↔
      ∀ v, adjKeys g v ≠ [] → (lower g v).length < capacity g v ∧
        ((adjKeys g v).take (lower g v).length).Perm ((lower g v).take (adjKeys g v).length) := by
  obtain ⟨hd, -, A, h⟩ := graphInit_built hzero₀ hinit
  obtain ⟨gc, -, hcopy, -, -, -, -, hlists⟩ := h.reverseCopy_lists (.inl hd) hzero' zero
  obtain ⟨ps, hwalk, hps⟩ := h.walk
  have hsorted : (walkKeys g).Pairwise (· < ·) := walkKeys_eq hwalk ▸ hps.sorted_keys
  have hmem : ∀ v, adjKeys g v ≠ [] → v ∈ walkKeys g := by
    intro v hv
    rw [walkKeys_eq hwalk, hps.mem_keys h]
    exact (h.known_iff v).mp (h.known_of_ne_nil hv)
  obtain ⟨hfault, hreturn⟩ := h.reverse hd mem zero
  have hturns := turns_reverse_iff (adjKeys g) (capacity g) hsorted
  have hspared : (∀ v ∈ walkKeys g, Spared (walkKeys g) (adjKeys g) (capacity g) v) ↔ _ :=
    ⟨fun hall v hv => hall v (hmem v hv) hv, fun hall v _ hv => hall v hv⟩
  refine Iff.trans ?_ (hturns.trans hspared)
  constructor
  · rintro ⟨g', gc', hrev, hcopy', hcounts⟩
    obtain ⟨-, rfl⟩ := Prod.mk.inj (Option.some.inj (hcopy'.symm.trans hcopy))
    cases hrun : (walkKeys g).foldlM (turn (adjKeys g) (capacity g)) (fun _ => []) with
    | none =>
        rw [hfault hrun] at hrev
        exact absurd hrev.symm (Option.some_ne_none _)
    | some fin =>
        obtain ⟨g'', hrev', hsim⟩ := hreturn fin hrun
        obtain rfl := Option.some.inj (hrev.symm.trans hrev')
        refine ⟨fin, rfl, fun v _ w => ?_⟩
        rw [← hsim.adjKeys_eq, hcounts, (hlists w).2]
  · rintro ⟨fin, hrun, hcounts⟩
    obtain ⟨g', hrev, hsim⟩ := hreturn fin hrun
    refine ⟨g', gc, hrev, hcopy, fun v w => ?_⟩
    rw [hsim.adjKeys_eq, (hlists v).2]
    by_cases hw : w ∈ walkKeys g
    · exact hcounts w hw v
    · -- no vertex, so no entry and no edge
      rw [turns_count hw hrun, not_not.mp fun hne => hw (hmem w hne)]
      rfl

/-- The edges 0 -> 1 and 1 -> 0: vertex 1 gets the entry 0 where it listed 0. -/
theorem dgraph_reverse_cycle : ∃ (g : Graph Int) (e : Nat),
    graphInit clearedMem 0 9 (emptyGraph true false 0) 0
      ['2', ' ', '2', ' ', '0', ' ', '1', ' ', '1', ' ', '0'] = some (g, e, 0) ∧
    Agrees clearedMem.edge clearedMem 0 g := by
  have hsome : (graphInit clearedMem 0 9 (emptyGraph true false 0) 0
      ['2', ' ', '2', ' ', '0', ' ', '1', ' ', '1', ' ', '0']).map
        (fun r => (r.2.2, r.1.v, (adjKeys r.1 0, lower r.1 0, capacity r.1 0),
          adjKeys r.1 1, lower r.1 1, capacity r.1 1))
      = some (0, 2, ([1], [], 8), [0], [0], 8) := rfl
  obtain ⟨⟨g, e, r⟩, hinit, hr⟩ := Option.map_eq_some_iff.mp hsome
  obtain ⟨rfl, hlists⟩ : r = 0 ∧ _ := Prod.mk.inj hr
  obtain ⟨hgv, hlists⟩ : g.v = 2 ∧ _ := Prod.mk.inj hlists
  obtain ⟨h0, h1⟩ := Prod.mk.inj hlists
  obtain ⟨hadj0, h0⟩ : adjKeys g 0 = [1] ∧ _ := Prod.mk.inj h0
  obtain ⟨hlow0, hcap0⟩ : lower g 0 = [] ∧ capacity g 0 = 8 := Prod.mk.inj h0
  obtain ⟨hadj1, h1⟩ : adjKeys g 1 = [0] ∧ _ := Prod.mk.inj h1
  obtain ⟨hlow1, hcap1⟩ : lower g 1 = [0] ∧ capacity g 1 = 8 := Prod.mk.inj h1
  refine ⟨g, e, hinit, (dgraph_reverse_agrees 0 0 e 9 clearedMem clearedMem clearedMem.edge 0 _
    (fun _ => rfl) (fun _ => rfl) hinit).mpr fun v hv => ?_⟩
  have hzero : ∀ i, (clearedMem.vertex i).i = 0 := fun _ => rfl
  obtain ⟨-, -, A, h⟩ := graphInit_built hzero hinit
  have hmem := (h.known_iff v).mp (h.known_of_ne_nil hv)
  rw [hgv, show vertexKeys 2 = [0, 1] by decide] at hmem
  rcases List.mem_cons.mp hmem with rfl | hmem
  · rw [hlow0, hcap0, hadj0]
    exact ⟨by decide, List.Perm.refl _⟩
  · obtain rfl := List.mem_singleton.mp hmem
    rw [hlow1, hcap1, hadj1]
    exact ⟨by decide, List.Perm.refl _⟩

/-- The edges 0 -> 1 and 1 -> 2: the entry 0 of vertex 1 is read in place of 2, so the edge
    1 -> 2 becomes 0 -> 1. -/
theorem dgraph_reverse_overwrites : ∃ (g g' gc : Graph Int) (e : Nat),
    graphInit clearedMem 0 9 (emptyGraph true false 0) 0
      ['3', ' ', '2', ' ', '0', ' ', '1', ' ', '1', ' ', '2'] = some (g, e, 0) ∧
    dgraphReverse clearedMem.edge 0 g = some g' ∧
    dgraphReverseCopy clearedMem 0 g = some (g, gc) ∧
    (adjKeys g' 0 = [1] ∧ adjKeys g' 2 = []) ∧ (adjKeys gc 0 = [] ∧ adjKeys gc 2 = [1]) ∧
    ¬ Agrees clearedMem.edge clearedMem 0 g := by
  have hsome : (graphInit clearedMem 0 9 (emptyGraph true false 0) 0
      ['3', ' ', '2', ' ', '0', ' ', '1', ' ', '1', ' ', '2']).bind
        (fun r => (dgraphReverse clearedMem.edge 0 r.1).bind fun g' =>
          (dgraphReverseCopy clearedMem 0 r.1).map fun c =>
            (r.2.2, (adjKeys g' 0, adjKeys g' 2), adjKeys c.2 0, adjKeys c.2 2))
      = some (0, ([1], []), [], [1]) := rfl
  obtain ⟨⟨g, e, r⟩, hinit, hrest⟩ := Option.bind_eq_some_iff.mp hsome
  obtain ⟨g', hrev, hrest⟩ := Option.bind_eq_some_iff.mp hrest
  obtain ⟨c, hcopy, hr⟩ := Option.map_eq_some_iff.mp hrest
  obtain ⟨rfl, hlists⟩ : r = 0 ∧ _ := Prod.mk.inj hr
  obtain ⟨hg', hgc⟩ := Prod.mk.inj hlists
  obtain ⟨hg0, hg2⟩ : adjKeys g' 0 = [1] ∧ adjKeys g' 2 = [] := Prod.mk.inj hg'
  obtain ⟨hc0, hc2⟩ : adjKeys c.2 0 = [] ∧ adjKeys c.2 2 = [1] := Prod.mk.inj hgc
  have hzero : ∀ i, (clearedMem.vertex i).i = 0 := fun _ => rfl
  obtain ⟨hd, -, A, h⟩ := graphInit_built hzero hinit
  obtain ⟨gc, -, hcopy', -⟩ := h.reverseCopy_lists (.inl hd) hzero 0
  obtain rfl := Option.some.inj (hcopy.symm.trans hcopy')
  refine ⟨g, g', gc, e, hinit, hrev, hcopy, ⟨hg0, hg2⟩, ⟨hc0, hc2⟩, ?_⟩
  rintro ⟨g₁, gc₁, hrev₁, hcopy₁, hcounts⟩
  obtain rfl := Option.some.inj (hrev.symm.trans hrev₁)
  obtain ⟨-, rfl⟩ := Prod.mk.inj (Option.some.inj (hcopy.symm.trans hcopy₁))
  have hcount := hcounts 2 1
  rw [hg2, hc2] at hcount
  exact absurd hcount (by decide)

end AlgsGraph
