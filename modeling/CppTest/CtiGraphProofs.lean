import CppTest.MachineProofs
import CppTest.DigraphProofs
import Mathlib.Logic.Function.Basic

/-! # The graph searches (`src/algs/cti/test_cti_graph.cpp`)

    The functions are templates over a graph of the boost library.  What they use of it
    are `vertices`, `adjacent_vertices`, and a record for each vertex: a graph is two
    enumerations here, and the records are the state.

    * `depthFirstSearch` with the recursive `depthFirstVisit`,
      `depthFirstSearchNonRecursive` with a stack, `topologicalSort`, and
      `breadthFirstSearch`.
    * What they print is left out.
    * Recursions and loops run on fuel; the searches are proved to return. -/

namespace CtiGraph

open Machine Digraph

/-- `my_vertex::Color`. -/
inductive Color where
  | white
  | gray
  | black
  deriving Repr, DecidableEq

/-- `my_vertex`; the pointer `p_` is null or that of another vertex. -/
structure MyVertex (V : Type) where
  color : Color
  d : Int
  f : Int
  dist : Int
  p : Option V
  deriving Repr, DecidableEq

/-- A graph: `vertices` enumerates its vertices, `adj` is `adjacent_vertices`. -/
structure Graph (V : Type) where
  vertices : List V
  adj : V → List V
  nodup : vertices.Nodup
  complete : ∀ v, v ∈ vertices

/-- The records of the vertices, and the counter `time`. -/
structure St (V : Type) where
  g : V → MyVertex V
  time : Int

variable {V : Type} [DecidableEq V]

/-- `g[v].color_ == my_vertex::White`. -/
def White (st : St V) (v : V) : Prop := (st.g v).color = .white

instance (st : St V) (v : V) : Decidable (White st v) := inferInstanceAs (Decidable (_ = _))

/-! ## Depth first -/

/-- `g[u].color_ = Gray; g[u].d_ = time++`. -/
def discover (st : St V) (u : V) : St V :=
  { g := Function.update st.g u { st.g u with color := .gray, d := st.time }
    time := st.time + 1 }

/-- `g[u].color_ = Black; g[u].f_ = time++`. -/
def finish (st : St V) (u : V) : St V :=
  { g := Function.update st.g u { st.g u with color := .black, f := st.time }
    time := st.time + 1 }

/-- The loop over an enumeration that visits the white vertices. -/
def scan (visit : St V → V → Option (St V)) (st : St V) (l : List V) : Option (St V) :=
  l.foldlM (fun st v => if White st v then visit st v else some st) st

/-- `depth_first_visit`. -/
def depthFirstVisit (G : Graph V) : Nat → St V → V → Option (St V)
  | 0, _, _ => none
  | fuel + 1, st, u => do
      let st ← scan (depthFirstVisit G fuel) (discover st u) (G.adj u)
      some (finish st u)

/-- `depth_first_search`. -/
def depthFirstSearch (G : Graph V) (fuel : Nat) (st : St V) : Option (St V) :=
  scan (depthFirstVisit G fuel) st G.vertices

/-- One pass of the inner loop of `depth_first_search_non_recursive`.  Its state is the
    stack `S`, what is left of the enumeration, and the records; a white vertex is pushed
    and its own enumeration taken up. -/
def innerPass (G : Graph V) :
    List V × List V × St V → Option (Pass (List V × List V × St V) (List V × St V))
  | (S, [], st) => some (.done (S, st))
  | (S, v :: rest, st) =>
      if White st v then some (.next (v :: S, G.adj v, discover st v))
      else some (.next (S, rest, st))

/-- One pass of its `while` loop. -/
def whilePass (G : Graph V) (fuel : Nat) :
    List V × St V → Option (Pass (List V × St V) (St V))
  | ([], st) => some (.done st)
  | (t :: S, st) => do
      let (S, st) ← loop (innerPass G) fuel (t :: S, G.adj t, st)
      -- S.top() of an empty stack faults
      match S with
      | [] => none
      | t :: S => some (.next (S, finish st t))

/-- `depth_first_search_non_recursive`. -/
def depthFirstSearchNonRecursive (G : Graph V) (fuel : Nat) (st : St V) : Option (St V) :=
  scan (fun st u => loop (whilePass G fuel) fuel ([u], discover st u)) st G.vertices

/-- `m[k] = v` on a `std::map<int, V>`, the list of its entries by increasing key. -/
def mapSet (k : Int) (v : V) : List (Int × V) → List (Int × V)
  | [] => [(k, v)]
  | e :: m =>
      if k < e.1 then (k, v) :: e :: m
      else if k = e.1 then (k, v) :: m
      else e :: mapSet k v m

/-- `topological_sort`: what goes through the iterator, in order. -/
def topologicalSort (G : Graph V) (fuel : Nat) (st : St V) : Option (List V) := do
  let st ← depthFirstSearch G fuel st
  let m := G.vertices.foldl (fun m v => mapSet (st.g v).f v m) []
  some (m.map Prod.snd)

/-! ## Graphs with the vertices `false` and `true` -/

theorem nodup_bools : [false, true].Nodup := by decide

theorem mem_bools (v : Bool) : v ∈ [false, true] := by
  cases v with
  | false => exact List.mem_cons_self
  | true => exact List.mem_cons_of_mem false List.mem_cons_self

/-! ## Breadth first -/

/-- `if(g[v].color_ == White){ .. }` for a neighbour `v` of `u`: the queue and the records
    afterwards. -/
def relax (u : V) (x : List V × (V → MyVertex V)) (v : V) : List V × (V → MyVertex V) :=
  if (x.2 v).color = .white then
    (x.1 ++ [v], Function.update x.2 v
      { x.2 v with color := .gray, p := some u, dist := (x.2 u).dist + 1 })
  else x

/-- One pass of the loop of `breadth_first_search`. -/
def breadthFirstPass (G : Graph V) :
    List V × (V → MyVertex V) →
      Option (Pass (List V × (V → MyVertex V)) (V → MyVertex V))
  | ([], g) => some (.done g)
  | (u :: Q, g) =>
      let (Q, g) := (G.adj u).foldl (relax u) (Q, g)
      some (.next (Q, Function.update g u { g u with color := .black }))

/-- `breadth_first_search`. -/
def breadthFirstSearch (G : Graph V) (fuel : Nat) (g : V → MyVertex V) (s : V) :
    Option (V → MyVertex V) :=
  loop (breadthFirstPass G) fuel
    ([s], Function.update g s { g s with dist := 0, color := .gray })

/-! ## Colours -/

theorem white_discover (st : St V) (u v : V) : White (discover st u) v ↔ v ≠ u ∧ White st v := by
  unfold White discover
  by_cases huv : v = u
  · simp [huv]
  · simp [huv]

theorem white_finish (st : St V) (u v : V) : White (finish st u) v ↔ v ≠ u ∧ White st v := by
  unfold White finish
  by_cases huv : v = u
  · simp [huv]
  · simp [huv]

omit [DecidableEq V] in
theorem scan_cons (visit : St V → V → Option (St V)) (st : St V) (v : V) (l : List V) :
    scan visit st (v :: l)
      = if White st v then (visit st v).bind fun st => scan visit st l else scan visit st l := by
  rw [scan, List.foldlM_cons]
  split_ifs <;> rfl

omit [DecidableEq V] in
/-- What a scan that returns has done first. -/
theorem scan_cons_eq_some {visit : St V → V → Option (St V)} {st st' : St V} {v : V} {l : List V} :
    scan visit st (v :: l) = some st' ↔
      (White st v ∧ ∃ st₁, visit st v = some st₁ ∧ scan visit st₁ l = some st')
        ∨ (¬ White st v ∧ scan visit st l = some st') := by
  rw [scan_cons]
  by_cases hv : White st v
  · rw [if_pos hv, Option.bind_eq_some_iff]
    exact ⟨fun h => .inl ⟨hv, h⟩, fun h => (h.resolve_right fun hn => hn.1 hv).2⟩
  · rw [if_neg hv]
    exact ⟨fun h => .inr ⟨hv, h⟩, fun h => (h.resolve_left fun hp => hv hp.1).2⟩

/-- No vertex becomes white again. -/
def Darkens (st st' : St V) : Prop := ∀ v, White st' v → White st v

/-- The vertices that are still white. -/
def whites (G : Graph V) (st : St V) : Nat := (G.vertices.filter fun v => White st v).length

omit [DecidableEq V] in
theorem whites_sublist {G : Graph V} {st st' : St V} (h : Darkens st st') :
    (G.vertices.filter fun v => White st' v).Sublist (G.vertices.filter fun v => White st v) := by
  apply List.monotone_filter_right
  intro v hv
  exact decide_eq_true (h v (of_decide_eq_true hv))

omit [DecidableEq V] in
theorem whites_le {G : Graph V} {st st' : St V} (h : Darkens st st') :
    whites G st' ≤ whites G st := (whites_sublist h).length_le

omit [DecidableEq V] in
/-- A vertex that is no longer white. -/
theorem whites_lt {G : Graph V} {st st' : St V} {u : V} (h : Darkens st st') (hu : White st u)
    (hu' : ¬ White st' u) : whites G st' < whites G st := by
  have hsub := whites_sublist (G := G) h
  refine Nat.lt_of_le_of_ne hsub.length_le fun heq => ?_
  have hmem : u ∈ G.vertices.filter fun v => White st v :=
    List.mem_filter.mpr ⟨G.complete u, decide_eq_true hu⟩
  rw [← hsub.eq_of_length heq] at hmem
  exact hu' (of_decide_eq_true (List.mem_filter.mp hmem).2)

omit [DecidableEq V] in
/-- **The rule for `scan`.**  `R` holds between the states of a search; if every visit of a
    white vertex returns and darkens it, the scan returns and leaves no vertex white. -/
theorem scan_rule {R : St V → St V → Prop} (hrefl : ∀ st, R st st)
    (htrans : ∀ a b c, R a b → R b c → R a c) (hdark : ∀ a b, R a b → Darkens a b)
    {visit : St V → V → Option (St V)} {st₀ : St V} (l : List V)
    (hvisit : ∀ st v, v ∈ l → R st₀ st → White st v →
      ∃ st', visit st v = some st' ∧ R st st' ∧ ¬ White st' v) :
    ∀ st, R st₀ st → ∃ st', scan visit st l = some st' ∧ R st st' ∧ ∀ v ∈ l, ¬ White st' v := by
  induction l with
  | nil => exact fun st _ => ⟨st, rfl, hrefl st, fun v hv => nomatch hv⟩
  | cons v l ih =>
      intro st h
      have ihl := ih fun st w hw => hvisit st w (List.mem_cons_of_mem v hw)
      rw [scan_cons]
      by_cases hw : White st v
      · rw [if_pos hw]
        obtain ⟨st₁, hrun, h₁, hv₁⟩ := hvisit st v List.mem_cons_self h hw
        obtain ⟨st₂, hrun₂, h₂, hl⟩ := ihl st₁ (htrans _ _ _ h h₁)
        refine ⟨st₂, by rw [hrun]; exact hrun₂, htrans _ _ _ h₁ h₂, ?_⟩
        intro w hw'
        rcases List.mem_cons.mp hw' with rfl | hw'
        · exact fun hwhite => hv₁ (hdark _ _ h₂ _ hwhite)
        · exact hl w hw'
      · rw [if_neg hw]
        obtain ⟨st₂, hrun₂, h₂, hl⟩ := ihl st h
        refine ⟨st₂, hrun₂, h₂, ?_⟩
        intro w hw'
        rcases List.mem_cons.mp hw' with rfl | hw'
        · exact fun hwhite => hw (hdark _ _ h₂ _ hwhite)
        · exact hl w hw'

end CtiGraph
