import CppTest.CtiDepthFirstProofs

/-! # The topological sort

    * `Good` — what the finished vertices of an acyclic graph satisfy between two steps of
      the search: their finishing times are distinct and in the past, and every edge out
      of one of them leads to one that was finished before.
    * `Ext` — what a visit keeps: the gray vertices, and the times of the black ones.
    * `depthFirstVisit_good` — one visit, under the condition that the gray vertices reach
      the vertex visited.
    * `mapSet_fold` — a map that is filled with distinct keys lists them in order. -/

namespace CtiGraph

open Machine Digraph

variable {V : Type} [DecidableEq V] {G : Graph V}

/-- `g[v].color_` is gray. -/
def Gray (st : St V) (v : V) : Prop := (st.g v).color = .gray

/-- `g[v].color_` is black. -/
def Black (st : St V) (v : V) : Prop := (st.g v).color = .black

/-! ## One step of the search -/

theorem discover_of_ne (st : St V) {u v : V} (h : v ≠ u) : (discover st u).g v = st.g v :=
  Function.update_of_ne h _ _

theorem finish_of_ne (st : St V) {u v : V} (h : v ≠ u) : (finish st u).g v = st.g v :=
  Function.update_of_ne h _ _

theorem gray_discover (st : St V) (u v : V) : Gray (discover st u) v ↔ v = u ∨ Gray st v := by
  by_cases h : v = u
  · simp [Gray, discover, h]
  · simp [Gray, discover_of_ne st h, h]

theorem gray_finish (st : St V) (u v : V) : Gray (finish st u) v ↔ v ≠ u ∧ Gray st v := by
  by_cases h : v = u
  · simp [Gray, finish, h]
  · simp [Gray, finish_of_ne st h, h]

theorem black_discover (st : St V) (u v : V) : Black (discover st u) v ↔ v ≠ u ∧ Black st v := by
  by_cases h : v = u
  · simp [Black, discover, h]
  · simp [Black, discover_of_ne st h, h]

theorem black_finish (st : St V) (u v : V) : Black (finish st u) v ↔ v = u ∨ Black st v := by
  by_cases h : v = u
  · simp [Black, finish, h]
  · simp [Black, finish_of_ne st h, h]

/-! ## What the finished vertices satisfy -/

/-- What holds of the black vertices. -/
structure Good (G : Graph V) (st : St V) : Prop where
  past : ∀ v, Black st v → (st.g v).f < st.time
  distinct : ∀ u v, Black st u → Black st v → (st.g u).f = (st.g v).f → u = v
  closed : ∀ u v, Black st u → v ∈ G.adj u → Black st v ∧ (st.g v).f < (st.g u).f

/-- What a visit keeps. -/
structure Ext (st st' : St V) : Prop where
  gray : ∀ v, Gray st' v ↔ Gray st v
  black : ∀ v, Black st v → Black st' v ∧ (st'.g v).f = (st.g v).f

omit [DecidableEq V] in
theorem Ext.refl (st : St V) : Ext st st := ⟨fun _ => Iff.rfl, fun _ h => ⟨h, rfl⟩⟩

omit [DecidableEq V] in
theorem Ext.trans {a b c : St V} (hab : Ext a b) (hbc : Ext b c) : Ext a c := by
  refine ⟨fun v => (hbc.gray v).trans (hab.gray v), fun v h => ?_⟩
  obtain ⟨hb, hfb⟩ := hab.black v h
  obtain ⟨hc, hfc⟩ := hbc.black v hb
  exact ⟨hc, hfc.trans hfb⟩

omit [DecidableEq V] in
theorem white_of_not {st : St V} {v : V} (hg : ¬ Gray st v) (hb : ¬ Black st v) : White st v := by
  show (st.g v).color = .white
  cases h : (st.g v).color with
  | white => rfl
  | gray => exact absurd h hg
  | black => exact absurd h hb

omit [DecidableEq V] in
theorem White.not_gray {st : St V} {v : V} (h : White st v) : ¬ Gray st v :=
  fun hg => Color.noConfusion (h.symm.trans hg)

omit [DecidableEq V] in
theorem White.not_black {st : St V} {v : V} (h : White st v) : ¬ Black st v :=
  fun hb => Color.noConfusion (h.symm.trans hb)

omit [DecidableEq V] in
theorem Gray.not_black {st : St V} {v : V} (h : Gray st v) : ¬ Black st v :=
  fun hb => Color.noConfusion (h.symm.trans hb)

omit [DecidableEq V] in
theorem Ext.darkens {st st' : St V} (h : Ext st st') : Darkens st st' := by
  intro v hv
  refine white_of_not (fun hg => hv.not_gray ((h.gray v).mpr hg)) fun hb => ?_
  exact hv.not_black (h.black v hb).1

theorem Good.discover {st : St V} {u : V} (hgood : Good G st) (hu : White st u) :
    Good G (discover st u) := by
  have hne : ∀ v, Black st v → v ≠ u := fun v hv heq => hu.not_black (heq ▸ hv)
  have hback : ∀ v, Black (CtiGraph.discover st u) v → Black st v :=
    fun v hv => ((black_discover st u v).mp hv).2
  refine ⟨fun v hv => ?_, fun v w hv hw heq => ?_, fun v w hv hvw => ?_⟩
  · rw [discover_of_ne st (hne v (hback v hv))]
    exact Int.lt_trans (hgood.past v (hback v hv)) (Int.lt_succ _)
  · rw [discover_of_ne st (hne v (hback v hv)), discover_of_ne st (hne w (hback w hw))] at heq
    exact hgood.distinct v w (hback v hv) (hback w hw) heq
  · obtain ⟨hw, hlt⟩ := hgood.closed v w (hback v hv) hvw
    rw [discover_of_ne st (hne v (hback v hv)), discover_of_ne st (hne w hw)]
    exact ⟨(black_discover st u w).mpr ⟨hne w hw, hw⟩, hlt⟩

/-- A gray vertex may be finished once its neighbours are. -/
theorem Good.finish {st : St V} {u : V} (hgood : Good G st) (hu : Gray st u)
    (hadj : ∀ v ∈ G.adj u, Black st v) : Good G (finish st u) := by
  have hne : ∀ v, Black st v → v ≠ u := fun v hv heq => hu.not_black (heq ▸ hv)
  have hself : ((CtiGraph.finish st u).g u).f = st.time := by simp [CtiGraph.finish]
  have hkept : ∀ v, Black st v → ((CtiGraph.finish st u).g v).f = (st.g v).f :=
    fun v hv => by rw [finish_of_ne st (hne v hv)]
  have htime : (CtiGraph.finish st u).time = st.time + 1 := rfl
  refine ⟨fun v hv => ?_, fun v w hv hw heq => ?_, fun v w hv hvw => ?_⟩
  · rcases (black_finish st u v).mp hv with rfl | hv
    · omega
    · have := hgood.past v hv
      rw [hkept v hv]
      omega
  · rcases (black_finish st u v).mp hv with heqv | hv
    · rcases (black_finish st u w).mp hw with heqw | hw
      · exact heqv.trans heqw.symm
      · have := hgood.past w hw
        rw [heqv, hself, hkept w hw] at heq
        omega
    · have := hgood.past v hv
      rcases (black_finish st u w).mp hw with heqw | hw
      · rw [heqw, hself, hkept v hv] at heq
        omega
      · rw [hkept v hv, hkept w hw] at heq
        exact hgood.distinct v w hv hw heq
  · have hwb : Black st w := by
      rcases (black_finish st u v).mp hv with rfl | hv
      · exact hadj w hvw
      · exact (hgood.closed v w hv hvw).1
    refine ⟨(black_finish st u w).mpr (.inr hwb), ?_⟩
    rw [hkept w hwb]
    rcases (black_finish st u v).mp hv with rfl | hv
    · rw [hself]
      exact hgood.past w hwb
    · rw [hkept v hv]
      exact (hgood.closed v w hv hvw).2

/-! ## A visit, and the whole search -/

/-- What a visit with the fuel `n` does, when the gray vertices reach the vertex visited. -/
def VisitGood (G : Graph V) (n : Nat) : Prop :=
  ∀ (st : St V) (u : V), White st u → whites G st ≤ n → Good G st →
    (∀ w, Gray st w → Relation.TransGen (Edge G.adj) w u) →
    ∃ st', depthFirstVisit G n st u = some st' ∧ Ext st st' ∧ Good G st' ∧ Black st' u

/-- Scanning vertices that all gray vertices reach. -/
theorem scan_good {n : Nat} (hvisit : VisitGood G n) (st : St V) (l : List V)
    (hn : whites G st ≤ n) (hgood : Good G st)
    (hopen : ∀ w, ∀ v ∈ l, Gray st w → Relation.TransGen (Edge G.adj) w v) :
    ∃ st', scan (depthFirstVisit G n) st l = some st' ∧ Ext st st' ∧ Good G st'
      ∧ ∀ v ∈ l, ¬ Gray st v → Black st' v := by
  have hone : ∀ st₁ v, v ∈ l → Ext st st₁ ∧ (Good G st → Good G st₁) → White st₁ v →
      ∃ st', depthFirstVisit G n st₁ v = some st' ∧ (Ext st₁ st' ∧ (Good G st₁ → Good G st'))
        ∧ ¬ White st' v := by
    intro st₁ v hv h₁ hwhite
    obtain ⟨st₂, hrun, hext, hgood₂, hblack⟩ := hvisit st₁ v hwhite
      ((whites_le h₁.1.darkens).trans hn) (h₁.2 hgood)
      (fun w hw => hopen w v hv ((h₁.1.gray w).mp hw))
    exact ⟨st₂, hrun, ⟨hext, fun _ => hgood₂⟩, fun h => h.not_black hblack⟩
  obtain ⟨st', hrun, ⟨hext, hgood'⟩, hdone⟩ := scan_rule
    (R := fun a b => Ext a b ∧ (Good G a → Good G b))
    (fun a => ⟨Ext.refl a, id⟩) (fun a b c hab hbc => ⟨hab.1.trans hbc.1, hbc.2 ∘ hab.2⟩)
    (fun a b hab => hab.1.darkens) l hone st ⟨Ext.refl st, id⟩
  refine ⟨st', hrun, hext, hgood' hgood, fun v hv hgray => ?_⟩
  by_contra hb
  exact hdone v hv (white_of_not (fun hg => hgray ((hext.gray v).mp hg)) hb)

/-- What the scan kept is kept by the whole visit. -/
theorem Ext.visit {st st' : St V} {u : V} (hu : White st u) (h : Ext (discover st u) st') :
    Ext st (finish st' u) := by
  refine ⟨fun v => ?_, fun v hv => ?_⟩
  · rw [gray_finish, h.gray, gray_discover]
    constructor
    · rintro ⟨hne, heq | hv⟩
      · exact absurd heq hne
      · exact hv
    · exact fun hv => ⟨fun heq => hu.not_gray (heq ▸ hv), .inr hv⟩
  · have hne : v ≠ u := fun heq => hu.not_black (heq ▸ hv)
    obtain ⟨hv', hf⟩ := h.black v ((black_discover st u v).mpr ⟨hne, hv⟩)
    rw [discover_of_ne st hne] at hf
    exact ⟨(black_finish st' u v).mpr (.inr hv'), by rw [finish_of_ne st' hne, hf]⟩

/-- **One visit.**  While `u` is scanned the gray vertices are those that reach it, and
    `u`; so a neighbour that is gray would close a cycle, and after the scan all
    neighbours are black. -/
theorem depthFirstVisit_good (hacyclic : Acyclic G.adj) (n : Nat) : VisitGood G n := by
  induction n with
  | zero =>
      intro st u hu hn _ _
      exact absurd (whites_discover (G := G) hu) (by omega)
  | succ n ih =>
      intro st u hu hn hgood hgray
      have hless := whites_discover (G := G) hu
      have hopen : ∀ w, ∀ v ∈ G.adj u, Gray (discover st u) w →
          Relation.TransGen (Edge G.adj) w v := by
        intro w v hv hw
        rcases (gray_discover st u w).mp hw with rfl | hw
        · exact .single hv
        · exact .tail (hgray w hw) hv
      obtain ⟨st', hrun, hext, hgood', hdone⟩ := scan_good ih (discover st u) (G.adj u)
        (by omega) (hgood.discover hu) hopen
      have hself : Gray st' u := (hext.gray u).mpr ((gray_discover st u u).mpr (.inl rfl))
      have hadj : ∀ v ∈ G.adj u, Black st' v :=
        fun v hv => hdone v hv fun hg => hacyclic v (hopen v v hv hg)
      exact ⟨finish st' u, by rw [depthFirstVisit, hrun]; rfl, hext.visit hu,
        hgood'.finish hself hadj, (black_finish st' u u).mpr (.inl rfl)⟩

/-- **The search.**  All vertices end up black, with distinct finishing times that fall
    along every edge. -/
theorem depthFirstSearch_good (hacyclic : Acyclic G.adj) {st : St V} (hwhite : ∀ v, White st v) :
    ∃ st', (∀ fuel, whites G st ≤ fuel → depthFirstSearch G fuel st = some st')
      ∧ Function.Injective (fun v => (st'.g v).f)
      ∧ ∀ u v, v ∈ G.adj u → (st'.g v).f < (st'.g u).f := by
  have hgood : Good G st :=
    ⟨fun v hv => absurd hv (hwhite v).not_black, fun v _ hv => absurd hv (hwhite v).not_black,
      fun v _ hv => absurd hv (hwhite v).not_black⟩
  obtain ⟨st', hrun, -, hgood', hdone⟩ := scan_good (depthFirstVisit_good hacyclic _) st G.vertices
    (Nat.le_refl (whites G st)) hgood (fun w v _ hw => absurd hw (hwhite w).not_gray)
  have hblack : ∀ v, Black st' v := fun v => hdone v (G.complete v) (hwhite v).not_gray
  refine ⟨st', fun fuel hfuel => ?_, fun u v h => ?_, fun u v huv => ?_⟩
  · exact scan_mono (fun st v st' => depthFirstVisit_mono st v st' hfuel) _ _ _ hrun
  · exact hgood'.distinct u v (hblack u) (hblack v) h
  · exact (hgood'.closed u v (hblack u) huv).2

/-! ## The map from finishing times to vertices -/

/-- A map lists its entries by increasing key. -/
def Sorted (m : List (Int × V)) : Prop := m.Pairwise fun a b => a.1 < b.1

omit [DecidableEq V] in
theorem mapSet_perm {k : Int} {v : V} {m : List (Int × V)} (hk : ∀ e ∈ m, e.1 ≠ k) :
    (mapSet k v m).Perm ((k, v) :: m) := by
  induction m with
  | nil => exact List.Perm.refl _
  | cons e m ih =>
      have he : ¬ k = e.1 := fun h => hk e List.mem_cons_self h.symm
      rw [mapSet, if_neg he]
      by_cases hlt : k < e.1
      · rw [if_pos hlt]
      · rw [if_neg hlt]
        have htail := ih fun e' h => hk e' (List.mem_cons_of_mem e h)
        exact (htail.cons e).trans (List.Perm.swap (k, v) e m)

omit [DecidableEq V] in
theorem mapSet_sorted {k : Int} {v : V} {m : List (Int × V)} (hk : ∀ e ∈ m, e.1 ≠ k)
    (hm : Sorted m) : Sorted (mapSet k v m) := by
  induction m with
  | nil => exact List.pairwise_singleton _ _
  | cons e m ih =>
      have he : ¬ k = e.1 := fun h => hk e List.mem_cons_self h.symm
      have hk' : ∀ e' ∈ m, e'.1 ≠ k := fun e' h => hk e' (List.mem_cons_of_mem e h)
      obtain ⟨hfirst, htail⟩ := List.pairwise_cons.mp hm
      rw [mapSet, if_neg he]
      by_cases hlt : k < e.1
      · rw [if_pos hlt]
        refine List.pairwise_cons.mpr ⟨List.forall_mem_cons.mpr ⟨hlt, fun e' h' => ?_⟩, hm⟩
        exact Int.lt_trans hlt (hfirst e' h')
      · rw [if_neg hlt]
        refine List.pairwise_cons.mpr ⟨fun e' h' => ?_, ih hk' htail⟩
        rcases List.mem_cons.mp ((mapSet_perm hk').mem_iff.mp h') with rfl | h'
        · exact lt_of_le_of_ne (Int.not_lt.mp hlt) (Ne.symm he)
        · exact hfirst e' h'

omit [DecidableEq V] in
/-- **Filling a map with distinct keys.**  Its entries are those put into it, in order. -/
theorem mapSet_fold {f : V → Int} (hf : Function.Injective f) (l : List V) :
    ∀ m, l.Nodup → Sorted m → (∀ e ∈ m, ∀ v ∈ l, e.1 ≠ f v) →
      Sorted (l.foldl (fun m v => mapSet (f v) v m) m)
        ∧ (l.foldl (fun m v => mapSet (f v) v m) m).Perm (l.map (fun v => (f v, v)) ++ m) := by
  induction l with
  | nil => exact fun m _ hm _ => ⟨hm, List.Perm.refl _⟩
  | cons v l ih =>
      intro m hnodup hm hfresh
      obtain ⟨hv, hnodup⟩ := List.nodup_cons.mp hnodup
      have hk : ∀ e ∈ m, e.1 ≠ f v := fun e he => hfresh e he v List.mem_cons_self
      have hperm := mapSet_perm (v := v) hk
      obtain ⟨hsorted, hall⟩ := ih (mapSet (f v) v m) hnodup (mapSet_sorted hk hm) (by
        intro e he w hw
        rcases List.mem_cons.mp (hperm.mem_iff.mp he) with rfl | he
        · exact fun h => hv (hf h ▸ hw)
        · exact hfresh e he w (List.mem_cons_of_mem v hw))
      refine ⟨hsorted, hall.trans ?_⟩
      exact (hperm.append_left _).trans List.perm_middle

/-! ## The order -/

/-- Two members of an ordered list, in their order. -/
theorem pair_sublist {α : Type} {r : α → α → Prop} {l : List α} {a b : α} (hl : l.Pairwise r)
    (ha : a ∈ l) (hb : b ∈ l) (hne : a ≠ b) (hba : ¬ r b a) : [a, b].Sublist l := by
  obtain ⟨s, t, rfl⟩ := List.append_of_mem ha
  have hbt : b ∈ t := by
    rcases List.mem_append.mp hb with hs | ht
    · exact absurd ((List.pairwise_append.mp hl).2.2 b hs a List.mem_cons_self) hba
    · exact (List.mem_cons.mp ht).resolve_left (Ne.symm hne)
  exact ((List.singleton_sublist.mpr hbt).cons_cons a).trans (List.sublist_append_right s _)

/-- Two vertices and the edge from `false` to `true`. -/
def oneEdge : Graph Bool where
  vertices := [false, true]
  adj v := if v then [] else [true]
  nodup := nodup_bools
  complete := mem_bools

/-- The records as `my_vertex` builds them. -/
def fresh : St V := ⟨fun _ => ⟨.white, 0, 0, -1, none⟩, 1⟩

end CtiGraph
