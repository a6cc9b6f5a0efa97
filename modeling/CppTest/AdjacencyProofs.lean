import Mathlib.Data.List.Infix
import Mathlib.Logic.Function.Basic

/-! # Multigraphs as adjacency lists

    A map from vertices to lists of labelled ends, `none` where there is no vertex.
    Parallel edges and self-loops are kept; an edge with an unknown end point is
    dropped; adding a vertex again empties its list.

    * `addEdges_apply` — after any edges, the list at `v` is the old one followed by
      the ends at `v` of the edges, in order.
    * `sources` — the vertices with an edge to a given one, in order and with
      multiplicity: the list there when all edges are turned round
      (`endsAt_reversedEdges`).
    * `mirrored_throughout` — the lists of an undirected graph stay symmetric exactly
      as long as no vertex with a neighbour is added again.

    Nothing here names a program of the repository. -/

namespace Adjacency

variable {κ ω : Type} [DecidableEq κ]

/-- An edge with its label. -/
structure Edge (κ ω : Type) where
  src : κ
  dst : κ
  label : ω
  deriving Repr, DecidableEq

/-- The adjacency lists: at a vertex the other ends of its edges, with the labels. -/
abbrev Adj (κ ω : Type) := κ → Option (List (κ × ω))

/-- A vertex without edges. -/
def addVertex (A : Adj κ ω) (v : κ) : Adj κ ω := Function.update A v (some [])

/-- One more end at `v`. -/
def push (A : Adj κ ω) (v : κ) (x : κ × ω) : Adj κ ω :=
  Function.update A v ((A v).map (· ++ [x]))

/-- Both end points are vertices. -/
def Known (A : Adj κ ω) (e : Edge κ ω) : Prop := (A e.src).isSome ∧ (A e.dst).isSome

instance (A : Adj κ ω) (e : Edge κ ω) : Decidable (Known A e) :=
  inferInstanceAs (Decidable (_ ∧ _))

/-- An edge is one end at its source and, if the graph is undirected, one at its
    target. -/
def addEdge (direct : Bool) (A : Adj κ ω) (e : Edge κ ω) : Adj κ ω :=
  if Known A e then
    if direct then push A e.src (e.dst, e.label)
    else push (push A e.src (e.dst, e.label)) e.dst (e.src, e.label)
  else A

/-- The ends of an edge at `v`; a self-loop of an undirected graph has two. -/
def endsAt (direct : Bool) (v : κ) (e : Edge κ ω) : List (κ × ω) :=
  (if e.src = v then [(e.dst, e.label)] else [])
    ++ if direct = false ∧ e.dst = v then [(e.src, e.label)] else []

/-! ## Edges -/

theorem push_apply (A : Adj κ ω) (v : κ) (x : κ × ω) (u : κ) :
    push A v x u = (A u).map (· ++ if v = u then [x] else []) := by
  rw [push, Function.update_apply]
  by_cases huv : u = v
  · subst huv
    simp
  · simp [huv, Ne.symm huv]

/-- What an edge adds at `u`. -/
theorem addEdge_apply (direct : Bool) (A : Adj κ ω) (e : Edge κ ω) (u : κ) :
    addEdge direct A e u
      = (A u).map (· ++ if Known A e then endsAt direct u e else []) := by
  rw [addEdge]
  by_cases hk : Known A e
  · rw [if_pos hk, if_pos hk]
    cases direct with
    | true => simp [push_apply, endsAt]
    | false =>
        rw [if_neg Bool.false_ne_true, push_apply, push_apply, Option.map_map]
        congr 1
        funext xs
        simp [endsAt]
  · rw [if_neg hk, if_neg hk]
    simp

@[simp] theorem addEdge_isSome (direct : Bool) (A : Adj κ ω) (e : Edge κ ω) (u : κ) :
    (addEdge direct A e u).isSome = (A u).isSome := by
  rw [addEdge_apply, Option.isSome_map]

/-- Edges make no end point known or unknown. -/
theorem known_addEdge (direct : Bool) (A : Adj κ ω) (e e' : Edge κ ω) :
    Known (addEdge direct A e) e' ↔ Known A e' := by
  simp only [Known, addEdge_isSome]

/-- A sequence of edges. -/
def addEdges (direct : Bool) (A : Adj κ ω) (es : List (Edge κ ω)) : Adj κ ω :=
  es.foldl (addEdge direct) A

/-- **The list at `u` after any edges**: the old one, and the ends at `u` of the edges
    between vertices, in order. -/
theorem addEdges_apply (direct : Bool) (es : List (Edge κ ω)) : ∀ (A : Adj κ ω) (u : κ),
    addEdges direct A es u
      = (A u).map (· ++ (es.filter fun e => Known A e).flatMap (endsAt direct u)) := by
  induction es with
  | nil =>
      intro A u
      simp [addEdges]
  | cons e es ih =>
      intro A u
      show addEdges direct (addEdge direct A e) es u = _
      simp only [ih, addEdge_apply, known_addEdge, Option.map_map]
      congr 1
      funext xs
      by_cases hk : Known A e <;> simp [hk]

/-! ## Graphs without loose ends -/

/-- The vertices `ks`, without edges. -/
def isolated (ks : List κ) : Adj κ ω := fun v => if v ∈ ks then some [] else none

theorem addVertex_isolated (ks : List κ) (k : κ) :
    addVertex (isolated ks : Adj κ ω) k = isolated (ks ++ [k]) := by
  funext v
  rw [addVertex, Function.update_apply]
  unfold isolated
  by_cases hv : v = k <;> simp [hv]

theorem foldl_addVertex (ks' : List κ) : ∀ ks : List κ,
    ks'.foldl addVertex (isolated ks : Adj κ ω) = isolated (ks ++ ks') := by
  induction ks' with
  | nil =>
      intro ks
      rw [List.append_nil]
      rfl
  | cons k ks' ih =>
      intro ks
      show ks'.foldl addVertex (addVertex (isolated ks) k) = _
      rw [addVertex_isolated, ih, List.append_assoc, List.singleton_append]

/-- Every end is a vertex. -/
def Closed (A : Adj κ ω) : Prop := ∀ v es, A v = some es → ∀ x ∈ es, (A x.1).isSome

theorem closed_isolated (ks : List κ) : Closed (isolated ks : Adj κ ω) := by
  intro v es hes x hx
  rw [isolated] at hes
  split_ifs at hes
  obtain rfl := Option.some.inj hes
  exact absurd hx List.not_mem_nil

/-- The ends of an edge between vertices are vertices. -/
theorem Known.of_mem_endsAt {A : Adj κ ω} {e : Edge κ ω} (h : Known A e) {direct : Bool} {v : κ}
    {x : κ × ω} (hx : x ∈ endsAt direct v e) : (A x.1).isSome := by
  rcases List.mem_append.mp hx with hx | hx
  · split_ifs at hx
    · obtain rfl := List.mem_singleton.mp hx
      exact h.2
    · exact absurd hx List.not_mem_nil
  · split_ifs at hx
    · obtain rfl := List.mem_singleton.mp hx
      exact h.1
    · exact absurd hx List.not_mem_nil

theorem Closed.addEdge {A : Adj κ ω} (h : Closed A) (direct : Bool) (e : Edge κ ω) :
    Closed (addEdge direct A e) := by
  intro v es hes x hx
  rw [addEdge_isSome]
  rw [addEdge_apply] at hes
  obtain ⟨es₀, hes₀, rfl⟩ := Option.map_eq_some_iff.mp hes
  rcases List.mem_append.mp hx with hx | hx
  · exact h v es₀ hes₀ x hx
  · split_ifs at hx with hk
    · exact hk.of_mem_endsAt hx
    · exact absurd hx List.not_mem_nil

/-! ## Symmetry -/

/-- How often `w` stands in the list at `v`. -/
def times (A : Adj κ ω) (v w : κ) : Nat := (((A v).getD []).map Prod.fst).count w

/-- Every vertex counts every other as often as it is counted there. -/
def Mirrored (A : Adj κ ω) : Prop := ∀ v w, v ≠ w → times A v w = times A w v

theorem times_addVertex (A : Adj κ ω) (u v w : κ) :
    times (addVertex A u) v w = if v = u then 0 else times A v w := by
  rw [times, addVertex]
  rw [Function.update_apply]
  split_ifs <;> rfl

/-- What an edge adds to the count. -/
theorem times_addEdge (direct : Bool) (A : Adj κ ω) (e : Edge κ ω) (v w : κ) :
    times (addEdge direct A e) v w
      = times A v w + if Known A e then ((endsAt direct v e).map Prod.fst).count w else 0 := by
  unfold times
  rw [addEdge_apply]
  cases hv : A v with
  | some xs =>
      by_cases hk : Known A e <;> simp [hk, List.count_append]
  | none =>
      -- no end of a known edge is at `v`
      by_cases hk : Known A e
      · have hsrc : e.src ≠ v := by
          rintro rfl
          exact absurd hk.1 (by simp [hv])
        have hdst : e.dst ≠ v := by
          rintro rfl
          exact absurd hk.2 (by simp [hv])
        simp [hk, endsAt, hsrc, hdst]
      · simp [hk]

/-- The two ends of an undirected edge mirror each other. -/
theorem count_endsAt (e : Edge κ ω) (v w : κ) :
    ((endsAt false v e).map Prod.fst).count w = ((endsAt false w e).map Prod.fst).count v := by
  have hcount : ∀ a b : κ, ((endsAt false a e).map Prod.fst).count b
      = (if e.src = a ∧ e.dst = b then 1 else 0) + if e.dst = a ∧ e.src = b then 1 else 0 := by
    intro a b
    rw [endsAt]
    rw [List.map_append, List.count_append]
    by_cases h1 : e.src = a <;> by_cases h2 : e.dst = a <;>
      simp [h1, h2, List.count_singleton]
  rw [hcount, hcount, Nat.add_comm]
  simp only [and_comm]

theorem Mirrored.addEdge {A : Adj κ ω} (h : Mirrored A) (e : Edge κ ω) :
    Mirrored (addEdge false A e) := by
  intro v w hvw
  rw [times_addEdge, times_addEdge, h v w hvw, count_endsAt e v w]

/-- Adding a vertex keeps the symmetry exactly when it had no neighbour. -/
theorem Mirrored.addVertex_iff {A : Adj κ ω} (h : Mirrored A) (u : κ) :
    Mirrored (addVertex A u) ↔ ∀ w, w ≠ u → times A u w = 0 := by
  constructor
  · intro hs w hw
    have huw := hs w u hw
    rw [times_addVertex, times_addVertex, if_neg hw, if_pos rfl] at huw
    rw [h u w hw.symm]
    exact huw
  · intro h0 v w hvw
    rw [times_addVertex, times_addVertex]
    by_cases hv : v = u
    · subst hv
      rw [if_pos rfl, if_neg hvw.symm, ← h v w hvw, h0 w hvw.symm]
    · by_cases hw : w = u
      · subst hw
        rw [if_neg hv, if_pos rfl, h v w hvw, h0 v hv]
      · rw [if_neg hv, if_neg hw]
        exact h v w hvw

/-! ## Reversal -/

/-- The vertices of `vs` with an edge to `w`, each as often as it has one. -/
def sources (vs : List κ) (out : κ → List κ) (w : κ) : List κ :=
  vs.flatMap fun v => List.replicate ((out v).count w) v

theorem count_sources {vs : List κ} (hvs : vs.Nodup) (out : κ → List κ) (v w : κ) :
    (sources vs out w).count v = if v ∈ vs then (out v).count w else 0 := by
  induction vs with
  | nil => rfl
  | cons u vs ih =>
      obtain ⟨hu, hvs⟩ := List.nodup_cons.mp hvs
      rw [sources, List.flatMap_cons, List.count_append]
      replace ih := ih hvs
      rw [sources] at ih
      rw [ih, List.count_replicate]
      by_cases huv : u = v
      · subst huv
        simp [hu]
      · simp [huv, Ne.symm huv]

theorem mem_sources {vs : List κ} {out : κ → List κ} {v w : κ} (h : v ∈ sources vs out w) :
    v ∈ vs := by
  obtain ⟨u, hu, hv⟩ := List.mem_flatMap.mp h
  exact (List.mem_replicate.mp hv).2 ▸ hu

/-- The sources come in the order of the vertices. -/
theorem sources_sorted {R : κ → κ → Prop} (hrefl : ∀ v, R v v) {vs : List κ}
    (hvs : vs.Pairwise R) (out : κ → List κ) (w : κ) : (sources vs out w).Pairwise R := by
  induction vs with
  | nil => exact List.Pairwise.nil
  | cons u vs ih =>
      obtain ⟨hu, hvs⟩ := List.pairwise_cons.mp hvs
      rw [sources, List.flatMap_cons]
      refine List.pairwise_append.mpr ⟨?_, ih hvs, ?_⟩
      · exact List.pairwise_replicate.mpr (.inr (hrefl u))
      · intro a ha b hb
        rw [(List.mem_replicate.mp ha).2]
        exact hu b (mem_sources hb)

/-- The edges from the vertices `vs`, turned round and all with the label `x`. -/
def reversedEdges (vs : List κ) (out : κ → List κ) (x : ω) : List (Edge κ ω) :=
  vs.flatMap fun v => (out v).map fun w => ⟨w, v, x⟩

theorem endsAt_reversed (x : ω) (v w : κ) (l : List κ) :
    (l.map fun u => (⟨u, v, x⟩ : Edge κ ω)).flatMap (endsAt true w)
      = (List.replicate (l.count w) v).map fun v => (v, x) := by
  induction l with
  | nil => rfl
  | cons u l ih =>
      rw [List.map_cons, List.flatMap_cons, ih, List.count_cons]
      by_cases hu : u = w
      · simp [endsAt, hu, Nat.add_comm _ 1, List.replicate_add]
      · simp [endsAt, hu]

/-- The edges that come to `w` when all edges are turned round. -/
theorem endsAt_reversedEdges (vs : List κ) (out : κ → List κ) (x : ω) (w : κ) :
    (reversedEdges vs out x).flatMap (endsAt true w)
      = (sources vs out w).map fun v => (v, x) := by
  induction vs with
  | nil => rfl
  | cons v vs ih =>
      rw [sources, reversedEdges, List.flatMap_cons, List.flatMap_cons, List.flatMap_append,
        List.map_append, endsAt_reversed]
      exact congrArg _ ih

/-! ## Vertices and edges in any order -/

/-- One change of a graph. -/
inductive Change (κ ω : Type) where
  | vertex (v : κ)
  | edge (e : Edge κ ω)

def change (direct : Bool) (A : Adj κ ω) : Change κ ω → Adj κ ω
  | .vertex v => addVertex A v
  | .edge e => addEdge direct A e

/-- The graph after some changes of the empty one. -/
def build (direct : Bool) (cs : List (Change κ ω)) : Adj κ ω :=
  cs.foldl (change direct) fun _ => none

theorem build_snoc (direct : Bool) (cs : List (Change κ ω)) (c : Change κ ω) :
    build direct (cs ++ [c]) = change direct (build direct cs) c :=
  List.foldl_append

/-- **Symmetry, where it holds.**  All graphs on the way are symmetric if and ONLY if
    no vertex with a neighbour is added again on the way. -/
theorem mirrored_throughout (cs : List (Change κ ω)) :
    (∀ p, p <+: cs → Mirrored (build false p)) ↔
      ∀ p v, p ++ [.vertex v] <+: cs → ∀ w, w ≠ v → times (build false p) v w = 0 := by
  constructor
  · intro h p v hp
    have hs := h p ((List.prefix_append _ _).trans hp)
    have hs' := h _ hp
    rw [build_snoc] at hs'
    exact (hs.addVertex_iff v).mp hs'
  · intro h p
    -- the symmetry at a prefix comes from the symmetry one change before
    induction p using List.reverseRecOn with
    | nil => exact fun _ v w _ => rfl
    | append_singleton p c ih =>
        intro hp
        have hs := ih ((List.prefix_append _ _).trans hp)
        rw [build_snoc]
        cases c with
        | vertex v => exact (hs.addVertex_iff v).mpr (h p v hp)
        | edge e => exact hs.addEdge e

end Adjacency
