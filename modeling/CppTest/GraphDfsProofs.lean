import CppTest.GraphBuiltProofs
import CppTest.DigraphProofs

/-! # Depth-first search (`graph_simple_dfs` in `src/algs/algorithms4th/graph.cpp`)

    `doGraphSimpleDfs` is the recursion, with the array `dfs_marked` and what has been
    printed as its state; the fuel bounds the depth.  A key outside the array faults.

    A call that returns has printed the vertices that it marked, in the order in which they
    were marked, and what they list is marked too: `doGraphSimpleDfs_spec`, by induction on a
    bound of the unmarked vertices.  `DigraphProofs` turns this into reachability. -/

namespace AlgsGraph

open Machine RbTree LinkedTree Adjacency Digraph

variable {ω : Type}

/-! ## The model -/

/-- The array `dfs_marked`, and the vertices that have been printed, each as `"%d,"`. -/
abbrev Dfs := List Bool × List Int

/-- One turn of the loop over the list; `visit` is the recursive call. -/
def dfsTurn (visit : Int → Dfs → Option Dfs) (adj : Option (List (Option GraphNode))) (st : Dfs)
    (i : Nat) : Option Dfs := do
  let cells ← adj
  let cell ← getAt cells i
  let node ← cell
  let marked ← getAt st.1 node.key
  if marked then some st else visit node.key st

/-- `do_graph_simple_dfs`. -/
def doGraphSimpleDfs (g : Graph ω) : Nat → Int → Dfs → Option Dfs
  | 0, _, _ => none
  | fuel + 1, v, st => do
      let marked ← setAt st.1 v true
      let (adj, sz) ← graphAdj g v
      (List.range sz).foldlM (dfsTurn (doGraphSimpleDfs g fuel) adj) (marked, st.2 ++ [v])

/-- `graph_simple_dfs`. -/
def graphSimpleDfs (g : Graph ω) (fuel : Nat) (v : Int) : Option Dfs :=
  doGraphSimpleDfs g fuel v (List.replicate g.v false, [])

/-! ## Marks -/

/-- `dfs_marked[u]`. -/
def Marked (M : List Bool) (u : Int) : Prop := getAt M u = some true

instance (M : List Bool) (u : Int) : Decidable (Marked M u) :=
  inferInstanceAs (Decidable (_ = _))

/-- The number of cells that are not marked. -/
def unmarked (M : List Bool) : Nat :=
  ((Finset.range M.length).filter fun i : Nat => ¬ Marked M i).card

theorem not_marked_replicate (n : Nat) (u : Int) : ¬ Marked (List.replicate n false) u := by
  rw [Marked, getAt]
  split_ifs
  · intro h
    exact absurd (List.mem_replicate.mp (List.mem_of_getElem? h)).2 (by decide)
  · exact not_false

theorem unmarked_replicate (n : Nat) : unmarked (List.replicate n false) ≤ n := by
  refine (Finset.card_filter_le _ _).trans ?_
  rw [Finset.card_range, List.length_replicate]

section Set
variable {M : List Bool} {v : Int} (hv : 0 ≤ v ∧ v < M.length)
include hv

theorem setAt_mark : setAt M v true = some (M.set v.toNat true) :=
  if_pos ⟨hv.1, by omega⟩

theorem marked_set (u : Int) : Marked (M.set v.toNat true) u ↔ Marked M u ∨ u = v := by
  unfold Marked getAt
  by_cases hu : 0 ≤ u
  · rw [if_pos hu, if_pos hu]
    by_cases huv : u = v
    · subst huv
      rw [List.getElem?_set_self (by omega)]
      simp
    · rw [List.getElem?_set_ne (by omega)]
      simp [huv]
  · rw [if_neg hu, if_neg hu]
    have huv : u ≠ v := by omega
    simp [huv]

/-- A cell that is not marked can be read. -/
theorem getAt_unmarked (hfresh : ¬ Marked M v) : getAt M v = some false := by
  have hlt : v.toNat < M.length := by omega
  cases hb : M[v.toNat] with
  | true =>
      refine absurd ?_ hfresh
      rw [Marked, getAt, if_pos hv.1, List.getElem?_eq_getElem hlt, hb]
  | false => rw [getAt, if_pos hv.1, List.getElem?_eq_getElem hlt, hb]

/-- A new mark leaves less to do. -/
theorem unmarked_set (hfresh : ¬ Marked M v) : unmarked (M.set v.toNat true) < unmarked M := by
  refine Finset.card_lt_card (Finset.ssubset_iff_subset_ne.mpr ⟨?_, ?_⟩)
  · intro i hi
    rw [Finset.mem_filter, List.length_set, marked_set hv] at hi
    exact Finset.mem_filter.mpr ⟨hi.1, fun hM => hi.2 (.inl hM)⟩
  · intro heq
    have hmem : v.toNat ∈ (Finset.range M.length).filter fun i : Nat => ¬ Marked M i := by
      refine Finset.mem_filter.mpr ⟨Finset.mem_range.mpr (by omega), ?_⟩
      rwa [Int.toNat_of_nonneg hv.1]
    rw [← heq, Finset.mem_filter, marked_set hv] at hmem
    exact hmem.2 (.inr (Int.toNat_of_nonneg hv.1))

end Set

theorem unmarked_mono {M M' : List Bool} (hlen : M'.length = M.length)
    (h : ∀ u, Marked M u → Marked M' u) : unmarked M' ≤ unmarked M := by
  refine Finset.card_le_card ?_
  intro i hi
  rw [Finset.mem_filter, hlen] at hi
  exact Finset.mem_filter.mpr ⟨hi.1, fun hM => hi.2 (h i hM)⟩

/-! ## The recursion -/

/-- What a call, or a loop over a list, does: the array keeps its length, the vertices `new`
    are marked and printed, and what they list is marked. -/
structure Searched (g : Graph ω) (st st' : Dfs) (new : List Int) : Prop where
  length : st'.1.length = st.1.length
  grown : Grown (adjKeys g) (Marked st.1) (Marked st'.1) new
  printed : st'.2 = st.2 ++ new

theorem Searched.refl (g : Graph ω) (st : Dfs) : Searched g st st [] :=
  ⟨rfl, Grown.refl _, (List.append_nil _).symm⟩

theorem Searched.trans {g : Graph ω} {st st₁ st' : Dfs} {new₁ new : List Int}
    (h₁ : Searched g st st₁ new₁) (h : Searched g st₁ st' new) :
    Searched g st st' (new₁ ++ new) where
  length := h.length.trans h₁.length
  grown := h₁.grown.trans h.grown
  printed := by rw [h.printed, h₁.printed, List.append_assoc]

/-- What has been marked stays marked. -/
theorem Searched.keeps {g : Graph ω} {st st' : Dfs} {new : List Int} (h : Searched g st st' new)
    {u : Int} (hu : Marked st.1 u) : Marked st'.1 u := (h.grown.marks u).mpr (.inl hu)

theorem Searched.unmarked_le {g : Graph ω} {st st' : Dfs} {new : List Int}
    (h : Searched g st st' new) : unmarked st'.1 ≤ unmarked st.1 :=
  unmarked_mono h.length fun _ hu => h.keeps hu

/-- The turns of the loop over the list of a vertex are turns over its keys. -/
theorem Built.dfsTurns {g : Graph ω} {A : Adj Int ω} (h : Built g A) {v : Int} (hv : (A v).isSome)
    (visit : Int → Dfs → Option Dfs) :
    ∃ adj, graphAdj g v = some (adj, (adjKeys g v).length) ∧
      ∀ st, (List.range (adjKeys g v).length).foldlM (dfsTurn visit adj) st
        = (adjKeys g v).foldlM (fun st u => (getAt st.1 u).bind fun marked =>
            if marked then some st else visit u st) st := by
  obtain ⟨cells, hadj, hcells⟩ := h.adj hv
  refine ⟨some cells, hadj, foldlM_range (adjKeys g v) fun i u hu st => ?_⟩
  simp only [dfsTurn, hcells i u hu, Option.bind_eq_bind, Option.bind_some]

/-- The loop over a list: what is not marked yet is visited. -/
theorem scanList_spec {g : Graph ω} {n : Nat} {visit : Nat → Int → Dfs → Option Dfs}
    (hvisit : ∀ (v : Int) (st : Dfs), (0 ≤ v ∧ v < g.v) → st.1.length = g.v → ¬ Marked st.1 v →
      unmarked st.1 ≤ n →
      ∃ st' new, (∀ fuel, n ≤ fuel → visit fuel v st = some st') ∧ Searched g st st' (v :: new) ∧
        ∀ u ∈ v :: new, Relation.ReflTransGen (Edge (adjKeys g)) v u) :
    ∀ (l : List Int) (st : Dfs), (∀ u ∈ l, 0 ≤ u ∧ u < g.v) → st.1.length = g.v →
      unmarked st.1 ≤ n →
      ∃ st' new, (∀ fuel, n ≤ fuel → l.foldlM (fun st u => (getAt st.1 u).bind fun marked =>
            if marked then some st else visit fuel u st) st = some st') ∧
        Searched g st st' new ∧ (∀ u ∈ l, Marked st'.1 u) ∧
        ∀ u ∈ new, ∃ w ∈ l, Relation.ReflTransGen (Edge (adjKeys g)) w u := by
  intro l
  induction l with
  | nil =>
      intro st _ _ _
      refine ⟨st, [], fun _ _ => rfl, Searched.refl g st, ?_, ?_⟩
      · exact fun u hu => absurd hu List.not_mem_nil
      · exact fun u hu => absurd hu List.not_mem_nil
  | cons v l ih =>
      intro st hl hlen hleft
      have hv := hl v List.mem_cons_self
      replace hl : ∀ u ∈ l, 0 ≤ u ∧ u < g.v := fun u hu => hl u (List.mem_cons_of_mem v hu)
      by_cases hM : Marked st.1 v
      · -- marked already: the turn does nothing
        obtain ⟨st', new, hrun, hs, hall, hreach⟩ := ih st hl hlen hleft
        have hread : getAt st.1 v = some true := hM
        refine ⟨st', new, fun fuel hfuel => ?_, hs, ?_, ?_⟩
        · rw [List.foldlM_cons, hread]
          exact hrun fuel hfuel
        · intro u hu
          rcases List.mem_cons.mp hu with rfl | hu
          · exact hs.keeps hM
          · exact hall u hu
        · intro u hu
          obtain ⟨w, hw, hwu⟩ := hreach u hu
          exact ⟨w, List.mem_cons_of_mem v hw, hwu⟩
      · obtain ⟨st₁, new₁, hrun₁, hs₁, hreach₁⟩ := hvisit v st hv hlen hM hleft
        obtain ⟨st', new, hrun, hs, hall, hreach⟩ := ih st₁ hl (hs₁.length.trans hlen)
          (hs₁.unmarked_le.trans hleft)
        have hread := getAt_unmarked (by omega) hM
        refine ⟨st', v :: new₁ ++ new, fun fuel hfuel => ?_, hs₁.trans hs, ?_, ?_⟩
        · rw [List.foldlM_cons, hread]
          show (visit fuel v st).bind _ = _
          rw [hrun₁ fuel hfuel]
          exact hrun fuel hfuel
        · intro u hu
          rcases List.mem_cons.mp hu with rfl | hu
          · exact hs.keeps ((hs₁.grown.marks u).mpr (.inr List.mem_cons_self))
          · exact hall u hu
        · intro u hu
          rcases List.mem_append.mp hu with hu | hu
          · exact ⟨v, List.mem_cons_self, hreach₁ u hu⟩
          · obtain ⟨w, hw, hwu⟩ := hreach u hu
            exact ⟨w, List.mem_cons_of_mem v hw, hwu⟩

/-- **A call marks and prints its vertex and what can be reached from there without a mark
    on the way.**  The depth is at most the number of vertices that are not marked. -/
theorem doGraphSimpleDfs_spec {g : Graph ω} {A : Adj Int ω} (h : Built g A)
    (hkeys : ∀ k : Int, (A k).isSome ↔ 0 ≤ k ∧ k < g.v) : ∀ (n : Nat) (v : Int) (st : Dfs),
    (0 ≤ v ∧ v < g.v) → st.1.length = g.v → ¬ Marked st.1 v → unmarked st.1 ≤ n →
    ∃ st' new, (∀ fuel, n ≤ fuel → doGraphSimpleDfs g fuel v st = some st') ∧
      Searched g st st' (v :: new) ∧
      ∀ u ∈ v :: new, Relation.ReflTransGen (Edge (adjKeys g)) v u := by
  intro n
  induction n with
  | zero =>
      intro v st hv hlen hM hleft
      have hless := unmarked_set (M := st.1) (by omega) hM
      omega
  | succ n ih =>
      intro v st hv hlen hM hleft
      -- the mark at `v` leaves at most `n` vertices to the calls below
      have hv' : 0 ≤ v ∧ v < st.1.length := by omega
      have hless := unmarked_set hv' hM
      have hrange : ∀ u ∈ adjKeys g v, 0 ≤ u ∧ u < g.v :=
        fun u hu => (hkeys u).mp (h.known_of_mem hu)
      obtain ⟨st', new, hrun, hs, hall, hreach⟩ := scanList_spec ih (adjKeys g v)
        (st.1.set v.toNat true, st.2 ++ [v]) hrange ((List.length_set ..).trans hlen)
        (Nat.le_of_lt_succ (hless.trans_le hleft))
      refine ⟨st', new, fun fuel hfuel => ?_, ⟨?_, ?_, ?_⟩, ?_⟩
      · obtain ⟨k, rfl⟩ : ∃ k, fuel = k + 1 := ⟨fuel - 1, by omega⟩
        obtain ⟨adj, hadj, hturns⟩ := h.dfsTurns ((hkeys v).mpr hv) (doGraphSimpleDfs g k)
        rw [doGraphSimpleDfs, setAt_mark hv', hadj]
        exact (hturns _).trans (hrun k (by omega))
      · exact hs.length.trans (List.length_set ..)
      · exact Grown.visit hM (marked_set hv') hs.grown hall
      · rw [hs.printed]
        exact List.append_assoc ..
      · intro u hu
        rcases List.mem_cons.mp hu with rfl | hu
        · exact .refl
        · obtain ⟨w, hw, hwu⟩ := hreach u hu
          exact .head hw hwu

/-! ## `graph_simple_dfs` -/

/-- Up to `2 ^ 31` vertices their keys are 0, 1, 2, and so on. -/
theorem mem_vertexKeys {n : Nat} (hn : n ≤ 2 ^ 31) (k : Int) :
    k ∈ vertexKeys n ↔ 0 ≤ k ∧ k < n := by
  have hwrap : ∀ i : Nat, i < n → wrap32 i = i := by
    intro i hi
    have hmax : (2 ^ 31 : Int) - 1 = intMax := rfl
    exact wrap32_eq (by omega) (by omega)
  rw [vertexKeys, List.mem_map]
  constructor
  · rintro ⟨i, hi, rfl⟩
    rw [List.mem_range] at hi
    rw [hwrap i hi]
    omega
  · intro hk
    refine ⟨k.toNat, List.mem_range.mpr (by omega), ?_⟩
    rw [hwrap _ (by omega), Int.toNat_of_nonneg hk.1]

/-- **DEPTH-FIRST SEARCH.**  On every graph that `graph_init` has returned with the vertices
    0 to `g.v - 1`, with zero in the recycled memory, `graph_simple_dfs` returns from every
    vertex `v`: it prints `v` first, and exactly the vertices that can be reached from `v`,
    each once.  No index is outside `dfs_marked`. -/
theorem graph_simple_dfs_reaches (direct weight : Bool) (v₀ e₀ e fuel₀ : Nat) (mem : InitMem ω)
    (x : ω) (s : List Char) (hzero : ∀ i, (mem.vertex i).i = 0) {g : Graph ω}
    (hinit : graphInit mem x fuel₀ (emptyGraph direct weight v₀) e₀ s = some (g, e, 0))
    (hkeys : g.v ≤ 2 ^ 31) {v : Int} (hv : 0 ≤ v ∧ v < g.v) :
    ∃ marked printed, (∀ fuel, g.v ≤ fuel → graphSimpleDfs g fuel v = some (marked, printed)) ∧
      printed.Nodup ∧ printed.head? = some v ∧
      ∀ u, u ∈ printed ↔ Relation.ReflTransGen (fun a b => b ∈ adjKeys g a) v u := by
  obtain ⟨-, -, A, h⟩ := graphInit_built hzero hinit
  have hknown : ∀ k : Int, (A k).isSome ↔ 0 ≤ k ∧ k < g.v :=
    fun k => (h.known_iff k).trans (mem_vertexKeys hkeys k)
  obtain ⟨⟨marked, printed⟩, new, hrun, hs, hreach⟩ := doGraphSimpleDfs_spec h hknown g.v v
    (List.replicate g.v false, []) hv List.length_replicate (not_marked_replicate g.v v)
    (unmarked_replicate g.v)
  obtain rfl : printed = v :: new := hs.printed
  refine ⟨marked, v :: new, hrun, hs.grown.nodup, rfl, ?_⟩
  exact hs.grown.mem_iff (not_marked_replicate g.v) List.mem_cons_self hreach

/-- From vertex 0 of a cycle of two vertices both are printed; there is a third one. -/
theorem graph_simple_dfs_cycle : ∃ (g : Graph Int) (e : Nat) (marked : List Bool)
    (printed : List Int),
    graphInit clearedMem 0 9 (emptyGraph true false 0) 0
      ['3', ' ', '2', ' ', '0', ' ', '1', ' ', '1', ' ', '0'] = some (g, e, 0) ∧
    graphSimpleDfs g 3 0 = some (marked, printed) ∧ printed.Nodup ∧
    ∀ u, u ∈ printed ↔ Relation.ReflTransGen (fun a b => b ∈ adjKeys g a) 0 u := by
  have hsome : (graphInit clearedMem 0 9 (emptyGraph true false 0) 0
      ['3', ' ', '2', ' ', '0', ' ', '1', ' ', '1', ' ', '0']).map (fun r => (r.1.v, r.2.2))
      = some (3, 0) := by decide
  obtain ⟨⟨g, e, r⟩, hinit, hr⟩ := Option.map_eq_some_iff.mp hsome
  obtain ⟨hv, rfl⟩ : g.v = 3 ∧ r = 0 := Prod.mk.inj hr
  obtain ⟨marked, printed, hrun, hnodup, -, hmem⟩ := graph_simple_dfs_reaches true false 0 0 e 9
    clearedMem 0 _ (fun _ => rfl) hinit (by omega) (v := 0) (by omega)
  exact ⟨g, e, marked, printed, hinit, hrun 3 (by omega), hnodup, hmem⟩

end AlgsGraph
