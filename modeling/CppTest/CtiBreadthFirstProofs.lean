import CppTest.CtiGraphProofs

/-! # Breadth first: distances are shortest

    * `Frontier` — the invariant between two steps, for the list of the vertices that are
      pending: the queue, behind the vertex whose neighbours are being looked at.
    * `Frontier.push`, `Frontier.pop` — the two steps that change it; from them
      `relax_fold`, the loop over the neighbours, and `breadthFirstPass_spec`.
    * `LeadsTo` — the chain of the `p_` pointers.

    `shortest_of_labels` then reads the distances off the invariant with nothing pending. -/

namespace CtiGraph

open Machine Digraph

variable {V : Type} [DecidableEq V] {G : Graph V} {s : V}

/-- A vertex that has been reached. -/
def Seen (g : V → MyVertex V) (v : V) : Prop := (g v).color ≠ .white

/-- What holds while the vertices of `P` are pending. -/
structure Frontier (G : Graph V) (s : V) (P : List V) (g : V → MyVertex V) : Prop where
  pending : ∀ v, (g v).color = .gray ↔ v ∈ P
  nodup : P.Nodup
  source : Seen g s ∧ (g s).dist = 0
  unseen : ∀ v, ¬ Seen g v → (g v).dist = -1
  walk : ∀ v, Seen g v → ∃ n : Nat, (g v).dist = n ∧ Walk G.adj s n v
  parent : ∀ v, Seen g v → v ≠ s →
    ∃ u, (g v).p = some u ∧ Seen g u ∧ v ∈ G.adj u ∧ (g v).dist = (g u).dist + 1
  closed : ∀ u v, (g u).color = .black → v ∈ G.adj u → Seen g v ∧ (g v).dist ≤ (g u).dist + 1
  sorted : P.Pairwise fun u v => (g u).dist ≤ (g v).dist
  near : ∀ u ∈ P.head?, ∀ v, Seen g v → (g v).dist ≤ (g u).dist + 1

omit [DecidableEq V] in
theorem Frontier.seen {P : List V} {g : V → MyVertex V} (h : Frontier G s P g) :
    ∀ v ∈ P, Seen g v := by
  intro v hv hwhite
  exact Color.noConfusion (((h.pending v).mpr hv).symm.trans hwhite)

/-! ## The neighbours of one vertex -/

/-- `g[v].color_ = Gray; g[v].p_ = &g[u]; g[v].dist_ = g[u].dist_ + 1`. -/
def reach (g : V → MyVertex V) (u v : V) : V → MyVertex V :=
  Function.update g v { g v with color := .gray, p := some u, dist := (g u).dist + 1 }

theorem reach_of_ne (g : V → MyVertex V) (u : V) {v w : V} (h : w ≠ v) : reach g u v w = g w :=
  Function.update_of_ne h _ _

theorem reach_self (g : V → MyVertex V) (u v : V) :
    reach g u v v = { g v with color := .gray, p := some u, dist := (g u).dist + 1 } :=
  Function.update_self _ _ _

theorem relax_seen (u : V) (Q : List V) {g : V → MyVertex V} {v : V} (h : Seen g v) :
    relax u (Q, g) v = (Q, g) := if_neg h

theorem relax_unseen (u : V) (Q : List V) {g : V → MyVertex V} {v : V} (h : ¬ Seen g v) :
    relax u (Q, g) v = (Q ++ [v], reach g u v) := if_pos (not_not.mp h)

theorem seen_reach (g : V → MyVertex V) (u v w : V) : Seen (reach g u v) w ↔ w = v ∨ Seen g w := by
  by_cases h : w = v
  · subst h
    simp [Seen, reach_self]
  · simp [Seen, reach_of_ne g u h, h]

theorem Seen.reach {g : V → MyVertex V} {w : V} (h : Seen g w) (u v : V) :
    Seen (CtiGraph.reach g u v) w := (seen_reach g u v w).mpr (.inr h)

omit [DecidableEq V] in
theorem darkens_of_seen {g g' : V → MyVertex V} (h : ∀ v, Seen g v → Seen g' v) :
    Darkens ⟨g, 0⟩ ⟨g', 0⟩ := by
  intro v hwhite
  by_contra hseen
  exact h v hseen hwhite

/-- A white neighbour of the first pending vertex becomes the last. -/
theorem Frontier.push {u v : V} {Q : List V} {g : V → MyVertex V} (h : Frontier G s (u :: Q) g)
    (huv : v ∈ G.adj u) (hv : ¬ Seen g v) : Frontier G s (u :: (Q ++ [v])) (reach g u v) := by
  have hne : ∀ w, Seen g w → w ≠ v := fun w hw heq => hv (heq ▸ hw)
  have hkept : ∀ w, Seen g w → reach g u v w = g w := fun w hw => reach_of_ne g u (hne w hw)
  have hpend := h.seen
  have hu : Seen g u := hpend u List.mem_cons_self
  have hself : (reach g u v v).dist = (g u).dist + 1 := by rw [reach_self]
  have hnear := h.near u rfl
  refine ⟨?_, ?_, ?_, ?_, ?_, ?_, ?_, ?_, ?_⟩
  · intro w
    by_cases hw : w = v
    · subst hw
      simp [reach_self]
    · rw [reach_of_ne g u hw, h.pending w]
      simp [hw]
  · have hvP : v ∉ u :: Q := fun hmem => hv (hpend v hmem)
    have hnodup := h.nodup
    rw [← List.cons_append, List.nodup_append]
    refine ⟨hnodup, List.pairwise_singleton _ v, fun w hw w' hw' heq => ?_⟩
    rw [List.mem_singleton.mp hw'] at heq
    exact hvP (heq ▸ hw)
  · refine ⟨h.source.1.reach u v, ?_⟩
    rw [hkept s h.source.1, h.source.2]
  · intro w hw
    have hw' : w ≠ v ∧ ¬ Seen g w := not_or.mp fun hor => hw ((seen_reach g u v w).mpr hor)
    rw [reach_of_ne g u hw'.1]
    exact h.unseen w hw'.2
  · intro w hw
    rcases (seen_reach g u v w).mp hw with rfl | hw
    · obtain ⟨n, hn, hwalk⟩ := h.walk u hu
      exact ⟨n + 1, by rw [hself, hn]; rfl, hwalk.tail huv⟩
    · rw [hkept w hw]
      exact h.walk w hw
  · intro w hw hws
    rcases (seen_reach g u v w).mp hw with rfl | hw
    · refine ⟨u, by rw [reach_self], hu.reach u w, huv, ?_⟩
      rw [hself, hkept u hu]
    · obtain ⟨x, hp, hx, hxw, hd⟩ := h.parent w hw hws
      rw [hkept w hw]
      exact ⟨x, hp, hx.reach u v, hxw, by rw [hd, hkept x hx]⟩
  · intro x w hx hxw
    have hxv : x ≠ v := by
      rintro rfl
      rw [reach_self] at hx
      exact nomatch hx
    rw [reach_of_ne g u hxv] at hx ⊢
    obtain ⟨hw, hd⟩ := h.closed x w hx hxw
    rw [hkept w hw]
    exact ⟨hw.reach u v, hd⟩
  · rw [← List.cons_append, List.pairwise_append]
    refine ⟨h.sorted.imp_of_mem fun {a b} ha hb hab => ?_, List.pairwise_singleton _ _, ?_⟩
    · rw [hkept a (hpend a ha), hkept b (hpend b hb)]
      exact hab
    · intro a ha b hb
      rw [List.mem_singleton.mp hb, hself, hkept a (hpend a ha)]
      exact hnear a (hpend a ha)
  · intro x hx w hw
    obtain rfl : u = x := Option.some.inj hx
    rw [hkept u hu]
    rcases (seen_reach g u v w).mp hw with rfl | hw
    · rw [hself]
    · rw [hkept w hw]
      exact hnear w hw

/-- **The loop over the neighbours.**  Those looked at are reached afterwards, and for each
    one pushed there is a white vertex less. -/
theorem relax_fold {u : V} (l : List V) :
    ∀ (Q : List V) (g : V → MyVertex V), (∀ v ∈ l, v ∈ G.adj u) → Frontier G s (u :: Q) g →
      ∃ Q' g', l.foldl (relax u) (Q, g) = (Q', g') ∧ Frontier G s (u :: Q') g'
        ∧ (∀ v, Seen g v → Seen g' v) ∧ (∀ v ∈ l, Seen g' v)
        ∧ whites G ⟨g', 0⟩ + Q'.length ≤ whites G ⟨g, 0⟩ + Q.length := by
  induction l with
  | nil =>
      intro Q g _ h
      exact ⟨Q, g, rfl, h, fun v hv => hv, (fun v hv => nomatch hv), Nat.le_refl _⟩
  | cons v l ih =>
      intro Q g hadj h
      have hadjl : ∀ w ∈ l, w ∈ G.adj u := fun w hw => hadj w (List.mem_cons_of_mem v hw)
      rw [List.foldl_cons]
      by_cases hv : Seen g v
      · rw [relax_seen u Q hv]
        obtain ⟨Q', g', hrun, hfront, hkeep, hseen, hcount⟩ := ih Q g hadjl h
        exact ⟨Q', g', hrun, hfront, hkeep, List.forall_mem_cons.mpr ⟨hkeep v hv, hseen⟩, hcount⟩
      · rw [relax_unseen u Q hv]
        have hdark : Darkens ⟨g, 0⟩ ⟨reach g u v, 0⟩ := darkens_of_seen fun w hw => hw.reach u v
        have hseen_v : Seen (reach g u v) v := (seen_reach g u v v).mpr (.inl rfl)
        have hless : whites G ⟨reach g u v, 0⟩ < whites G ⟨g, 0⟩ :=
          whites_lt hdark (not_not.mp hv) hseen_v
        obtain ⟨Q', g', hrun, hfront, hkeep, hseen, hcount⟩ := ih (Q ++ [v]) (reach g u v) hadjl
          (h.push (hadj v List.mem_cons_self) hv)
        refine ⟨Q', g', hrun, hfront, fun w hw => hkeep w (hw.reach u v),
          List.forall_mem_cons.mpr ⟨hkeep v hseen_v, hseen⟩, ?_⟩
        rw [List.length_append, List.length_singleton] at hcount
        omega

/-! ## One pass -/

/-- `g[u].color_ = Black`. -/
def blacken (g : V → MyVertex V) (u : V) : V → MyVertex V :=
  Function.update g u { g u with color := .black }

theorem blacken_eq (g : V → MyVertex V) (u v : V) :
    (blacken g u v).color = (if v = u then .black else (g v).color)
      ∧ (blacken g u v).dist = (g v).dist ∧ (blacken g u v).p = (g v).p := by
  unfold blacken
  by_cases h : v = u
  · subst h
    simp
  · simp [h]

theorem seen_blacken {g : V → MyVertex V} {u : V} (hu : Seen g u) (v : V) :
    Seen (blacken g u) v ↔ Seen g v := by
  rw [Seen, (blacken_eq g u v).1]
  by_cases h : v = u
  · rw [if_pos h, h]
    exact ⟨fun _ => hu, fun _ => Color.noConfusion⟩
  · rw [if_neg h]
    exact Iff.rfl

/-- The first pending vertex is done when its neighbours have been reached. -/
theorem Frontier.pop {u : V} {Q : List V} {g : V → MyVertex V} (h : Frontier G s (u :: Q) g)
    (hadj : ∀ v ∈ G.adj u, Seen g v) : Frontier G s Q (blacken g u) := by
  obtain ⟨huQ, hnodup⟩ := List.nodup_cons.mp h.nodup
  obtain ⟨hfirst, hsorted⟩ := List.pairwise_cons.mp h.sorted
  have hseen := seen_blacken (h.seen u List.mem_cons_self)
  have hdist : ∀ v, (blacken g u v).dist = (g v).dist := fun v => (blacken_eq g u v).2.1
  have hp : ∀ v, (blacken g u v).p = (g v).p := fun v => (blacken_eq g u v).2.2
  refine ⟨fun v => ?_, hnodup, ?_, fun v => ?_, fun v => ?_, fun v => ?_, fun x v => ?_, ?_, ?_⟩
  · rw [(blacken_eq g u v).1]
    by_cases hv : v = u
    · rw [if_pos hv, hv]
      exact ⟨fun hc => Color.noConfusion hc, fun hmem => absurd hmem huQ⟩
    · rw [if_neg hv, h.pending v, List.mem_cons, or_iff_right hv]
  · rw [hseen, hdist]
    exact h.source
  · rw [hseen, hdist]
    exact h.unseen v
  · rw [hseen, hdist]
    exact h.walk v
  · rw [hseen, hp, hdist]
    intro hv hvs
    obtain ⟨x, hpx, hx, hxv, hd⟩ := h.parent v hv hvs
    exact ⟨x, hpx, (hseen x).mpr hx, hxv, by rw [hdist, hd]⟩
  · rw [hseen, hdist, hdist, (blacken_eq g u x).1]
    by_cases hx : x = u
    · intro _ hxv
      rw [hx] at hxv ⊢
      exact ⟨hadj v hxv, h.near u rfl v (hadj v hxv)⟩
    · rw [if_neg hx]
      exact h.closed x v
  · exact hsorted.imp fun {a b} hab => by rw [hdist, hdist]; exact hab
  · intro x hx v hv
    have hxQ : x ∈ Q := List.mem_of_mem_head? hx
    rw [hdist, hdist]
    have hnear := h.near u rfl v ((hseen v).mp hv)
    have hle := hfirst x hxQ
    omega

theorem breadthFirstPass_spec {u : V} {Q : List V} {g : V → MyVertex V}
    (h : Frontier G s (u :: Q) g) :
    ∃ Q' g', breadthFirstPass G (u :: Q, g) = some (.next (Q', g')) ∧ Frontier G s Q' g'
      ∧ whites G ⟨g', 0⟩ + Q'.length ≤ whites G ⟨g, 0⟩ + Q.length := by
  obtain ⟨Q', g', hrun, hfront, -, hseen, hcount⟩ := relax_fold (G.adj u) Q g (fun v hv => hv) h
  refine ⟨Q', blacken g' u, by rw [breadthFirstPass, hrun]; rfl, hfront.pop hseen, ?_⟩
  have hu : Seen g' u := hfront.seen u List.mem_cons_self
  have hdark : Darkens ⟨g', 0⟩ ⟨blacken g' u, 0⟩ :=
    darkens_of_seen fun v hv => (seen_blacken hu v).mpr hv
  have hle : whites G ⟨blacken g' u, 0⟩ ≤ whites G ⟨g', 0⟩ := whites_le hdark
  omega

/-! ## The search -/

/-- All vertices are white, with `dist_ = -1` and no `p_`. -/
def Initial (g : V → MyVertex V) : Prop :=
  ∀ v, (g v).color = .white ∧ (g v).dist = -1 ∧ (g v).p = none

/-- `g[s].dist_ = 0; g[s].color_ = Gray`. -/
def start (g : V → MyVertex V) (s : V) : V → MyVertex V :=
  Function.update g s { g s with dist := 0, color := .gray }

theorem seen_start {g : V → MyVertex V} (h : Initial g) (v : V) : Seen (start g s) v ↔ v = s := by
  unfold Seen start
  by_cases hv : v = s
  · subst hv
    simp
  · simp [hv, (h v).1]

theorem frontier_start {g : V → MyVertex V} (h : Initial g) : Frontier G s [s] (start g s) := by
  have hself : (start g s s).dist = 0 := by simp [start]
  have hseen := seen_start (s := s) h
  refine ⟨fun v => ?_, List.pairwise_singleton _ s, ⟨(hseen s).mpr rfl, hself⟩, fun v hv => ?_,
    fun v hv => ?_, fun v hv hvs => ?_, fun u v hu => ?_, List.pairwise_singleton _ s,
    fun u hu v hv => ?_⟩
  · rw [List.mem_singleton]
    by_cases hv : v = s
    · subst hv
      simp [start]
    · simp [start, hv, (h v).1]
  · have hne : v ≠ s := fun heq => hv ((hseen v).mpr heq)
    rw [start, Function.update_of_ne hne]
    exact (h v).2.1
  · rw [(hseen v).mp hv]
    exact ⟨0, hself, .refl⟩
  · exact absurd ((hseen v).mp hv) hvs
  · have hus : u = s := (hseen u).mp fun hw => Color.noConfusion (hu.symm.trans hw)
    rw [hus] at hu
    simp [start] at hu
  · rw [(hseen v).mp hv, ← Option.some.inj hu]
    exact Int.le_of_lt (Int.lt_succ _)

/-- The pointers `p_` lead from a vertex to `s`, along edges and with `dist_` one less at
    each step. -/
inductive LeadsTo (adj : V → List V) (g : V → MyVertex V) (s : V) : V → Prop where
  | source : LeadsTo adj g s s
  | step {u v : V} : (g v).p = some u → v ∈ adj u → (g v).dist = (g u).dist + 1 →
      LeadsTo adj g s u → LeadsTo adj g s v

theorem Frontier.leadsTo {P : List V} {g : V → MyVertex V} (h : Frontier G s P g) (n : Nat) :
    ∀ v, Seen g v → (g v).dist = n → LeadsTo G.adj g s v := by
  induction n with
  | zero =>
      intro v hv hd
      by_cases hvs : v = s
      · exact hvs ▸ .source
      · obtain ⟨u, -, hu, -, hdu⟩ := h.parent v hv hvs
        obtain ⟨m, hm, -⟩ := h.walk u hu
        omega
  | succ n ih =>
      intro v hv hd
      by_cases hvs : v = s
      · exact hvs ▸ .source
      · obtain ⟨u, hp, hu, huv, hdu⟩ := h.parent v hv hvs
        exact .step hp huv hdu (ih u hu (by omega))

omit [DecidableEq V] in
/-- With nothing pending, the distances are shortest lengths. -/
theorem Frontier.shortest {g : V → MyVertex V} (h : Frontier G s [] g) (v : V) :
    (Seen g v ↔ ∃ n, Walk G.adj s n v)
      ∧ (Seen g v → Shortest G.adj s v (g v).dist.toNat) := by
  have hwalk : ∀ v, Seen g v → Walk G.adj s (g v).dist.toNat v := by
    intro v hv
    obtain ⟨n, hn, hw⟩ := h.walk v hv
    rw [hn]
    exact hw
  refine shortest_of_labels ⟨h.source.1, by rw [h.source.2]; rfl⟩ hwalk ?_ v
  intro u v hu huv
  have hblack : (g u).color = .black := by
    cases hc : (g u).color with
    | white => exact absurd hc hu
    | gray => exact absurd ((h.pending u).mp hc) List.not_mem_nil
    | black => rfl
  obtain ⟨hv, hle⟩ := h.closed u v hblack huv
  obtain ⟨n, hn, -⟩ := h.walk u hu
  exact ⟨hv, by omega⟩

theorem breadthFirstPass_total :
    ∀ n x, Frontier G s x.1 x.2 ∧ whites G ⟨x.2, 0⟩ + x.1.length ≤ n →
      (∃ g, breadthFirstPass G x = some (.done g) ∧ Frontier G s [] g)
      ∨ ∃ x' n', breadthFirstPass G x = some (.next x') ∧ n' < n
          ∧ Frontier G s x'.1 x'.2 ∧ whites G ⟨x'.2, 0⟩ + x'.1.length ≤ n' := by
  rintro n ⟨Q, g⟩ ⟨hfront, hn⟩
  dsimp only at hfront hn
  cases Q with
  | nil => exact .inl ⟨g, rfl, hfront⟩
  | cons u Q =>
      obtain ⟨Q', g', hpass, hfront', hcount⟩ := breadthFirstPass_spec hfront
      rw [List.length_cons] at hn
      have hn' : whites G ⟨g', 0⟩ + Q'.length ≤ n - 1 := by omega
      exact .inr ⟨(Q', g'), n - 1, hpass, by omega, hfront', hn'⟩

/-- Two vertices with all four edges. -/
def allEdges : Graph Bool where
  vertices := [false, true]
  adj v := [v, !v]
  nodup := nodup_bools
  complete := mem_bools

end CtiGraph
