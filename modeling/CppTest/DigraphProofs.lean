import Mathlib.Logic.Relation
import Mathlib.Data.List.Basic

/-! # Directed graphs by their adjacency lists

    The general facts that the graph searches rest on, for `adj : V → List V` over any
    type of vertices.

    * `Walk adj n u v` — a walk of `n` edges; `Shortest adj s v d` — its least length.
    * `shortest_of_labels` — a labelling that no edge out of a labelled vertex can
      improve consists of shortest lengths.
    * `Acyclic adj` — no vertex reaches itself.
    * `Grown adj M M' new` — a search that marks vertices has come from the marks `M` to the
      marks `M'`; without marks before, the vertices marked are the ones that can be reached
      (`Grown.mem_iff`).

    Nothing here names a program of the repository. -/

namespace Digraph

variable {V : Type} (adj : V → List V)

/-- An edge. -/
def Edge (u v : V) : Prop := v ∈ adj u

/-- A walk of `n` edges from `u` to `v`. -/
inductive Walk (u : V) : Nat → V → Prop where
  | refl : Walk u 0 u
  | tail {n : Nat} {v w : V} : Walk u n v → Edge adj v w → Walk u (n + 1) w

/-- `d` is the least length of a walk from `s` to `v`. -/
def Shortest (s v : V) (d : Nat) : Prop := Walk adj s d v ∧ ∀ n, Walk adj s n v → d ≤ n

/-- No vertex reaches itself. -/
def Acyclic : Prop := ∀ v, ¬ Relation.TransGen (Edge adj) v v

variable {adj}

/-- Edges that lower a rank make no cycle. -/
theorem Acyclic.of_rank (rank : V → Nat) (h : ∀ u v, Edge adj u v → rank v < rank u) :
    Acyclic adj := by
  have hlower : ∀ u v, Relation.TransGen (Edge adj) u v → rank v < rank u := by
    intro u v huv
    induction huv with
    | single huv => exact h u _ huv
    | tail _ hvw ih => exact Nat.lt_trans (h _ _ hvw) ih
  exact fun v hv => Nat.lt_irrefl _ (hlower v v hv)

/-- **Labels that no edge improves are shortest lengths.**  `labelled` are the vertices
    with a label `d`: the source with 0, each with a walk of the length of its label, and
    every edge out of one of them leads to one of them, whose label is greater by one at
    most.  Then they are the vertices that can be reached, and their labels are least. -/
theorem shortest_of_labels {s : V} {labelled : V → Prop} {d : V → Nat}
    (hsource : labelled s ∧ d s = 0) (hwalk : ∀ v, labelled v → Walk adj s (d v) v)
    (hedge : ∀ u v, labelled u → Edge adj u v → labelled v ∧ d v ≤ d u + 1) (v : V) :
    (labelled v ↔ ∃ n, Walk adj s n v) ∧ (labelled v → Shortest adj s v (d v)) := by
  have hreach : ∀ n w, Walk adj s n w → labelled w ∧ d w ≤ n := by
    intro n w hw
    induction hw with
    | refl => exact ⟨hsource.1, Nat.le_of_eq hsource.2⟩
    | tail _ hvw ih =>
        obtain ⟨hlab, hle⟩ := hedge _ _ ih.1 hvw
        exact ⟨hlab, Nat.le_trans hle (Nat.succ_le_succ ih.2)⟩
  refine ⟨⟨fun hv => ⟨d v, hwalk v hv⟩, ?_⟩, ?_⟩
  · rintro ⟨n, hn⟩
    exact (hreach n v hn).1
  · exact fun hv => ⟨hwalk v hv, fun n hn => (hreach n v hn).2⟩

/-! ## Marks -/

variable (adj) in
/-- From the marks `M` to the marks `M'` exactly the vertices `new` have been marked, each
    once, and every edge out of one of them leads to a mark. -/
structure Grown (M M' : V → Prop) (new : List V) : Prop where
  marks : ∀ u, M' u ↔ M u ∨ u ∈ new
  fresh : ∀ u ∈ new, ¬ M u
  nodup : new.Nodup
  closed : ∀ u ∈ new, ∀ w, Edge adj u w → M' w

namespace Grown

theorem refl (M : V → Prop) : Grown adj M M [] where
  marks u := by simp
  fresh u hu := absurd hu List.not_mem_nil
  nodup := List.nodup_nil
  closed u hu := absurd hu List.not_mem_nil

theorem trans {M M₁ M₂ : V → Prop} {new₁ new₂ : List V} (h₁ : Grown adj M M₁ new₁)
    (h₂ : Grown adj M₁ M₂ new₂) : Grown adj M M₂ (new₁ ++ new₂) where
  marks u := by rw [h₂.marks, h₁.marks, List.mem_append, or_assoc]
  fresh u hu := by
    rcases List.mem_append.mp hu with hu | hu
    · exact h₁.fresh u hu
    · exact fun hM => h₂.fresh u hu ((h₁.marks u).mpr (.inl hM))
  nodup := by
    refine List.nodup_append.mpr ⟨h₁.nodup, h₂.nodup, ?_⟩
    rintro u hu w hw rfl
    exact h₂.fresh u hw ((h₁.marks u).mpr (.inr hu))
  closed u hu w huw := by
    rcases List.mem_append.mp hu with hu | hu
    · exact (h₂.marks w).mpr (.inl (h₁.closed u hu w huw))
    · exact h₂.closed u hu w huw

/-- A vertex is marked, and then what its edges lead to. -/
theorem visit {M M₁ M' : V → Prop} {v : V} {new : List V} (hv : ¬ M v)
    (hM₁ : ∀ u, M₁ u ↔ M u ∨ u = v) (h : Grown adj M₁ M' new)
    (hadj : ∀ w, Edge adj v w → M' w) : Grown adj M M' (v :: new) where
  marks u := by rw [h.marks, hM₁, List.mem_cons, or_assoc]
  fresh u hu := by
    rcases List.mem_cons.mp hu with rfl | hu
    · exact hv
    · exact fun hM => h.fresh u hu ((hM₁ u).mpr (.inl hM))
  nodup := List.nodup_cons.mpr ⟨fun hmem => h.fresh v hmem ((hM₁ v).mpr (.inr rfl)), h.nodup⟩
  closed u hu := by
    rcases List.mem_cons.mp hu with rfl | hu
    · exact hadj
    · exact h.closed u hu

/-- **Without marks before, a search from `v` marks what can be reached from `v`.** -/
theorem mem_iff {M M' : V → Prop} {v : V} {new : List V} (h : Grown adj M M' new)
    (hM : ∀ u, ¬ M u) (hv : v ∈ new)
    (hreach : ∀ u ∈ new, Relation.ReflTransGen (Edge adj) v u) (u : V) :
    u ∈ new ↔ Relation.ReflTransGen (Edge adj) v u := by
  refine ⟨hreach u, fun hu => ?_⟩
  induction hu with
  | refl => exact hv
  | tail _ huw ih => exact ((h.marks _).mp (h.closed _ ih _ huw)).resolve_left (hM _)

end Grown

end Digraph
