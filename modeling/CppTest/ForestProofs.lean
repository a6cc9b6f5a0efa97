import Mathlib.Algebra.BigOperators.Group.Finset.Basic
import Mathlib.Algebra.Order.BigOperators.Group.Finset
import Mathlib.Logic.Relation

/-! # Parent-pointer forests and the equivalence closure

    A parent map `f : α → α` describes a forest when following it always ends at
    a fixed point.  This file is the general theory a union-find needs:

    * `PathTo f x r d` — from `x`, exactly `d` parent steps lead to the root `r`;
      the pair `(r, d)` is determined by `x` (`PathTo.unique`);
    * `link` — hanging one root under another moves exactly the nodes of the
      hung tree, one step deeper (`pathTo_link_moved`, `pathTo_link_kept`);
    * `WeightedForest` — a forest over a finite set whose roots carry the exact
      size of their tree and whose depths are logarithmic in it; it survives the
      arrival of singletons and the linking of a lighter root under a heavier;
    * `eqvGen_insert` — the equivalence closure after one more pair.

    Nothing here names a program of the repository. -/

namespace Forest

open Relation

variable {α : Type}

/-! ## Paths to the root -/

/-- Following the parent map from `x` reaches the root `r` after exactly `d`
    steps, none of them from a root. -/
inductive PathTo (f : α → α) : α → α → Nat → Prop where
  | root {r : α} : f r = r → PathTo f r r 0
  | step {x r : α} {d : Nat} : f x ≠ x → PathTo f (f x) r d → PathTo f x r (d + 1)

/-- `r` is the root above `x`. -/
def RootOf (f : α → α) (x r : α) : Prop := ∃ d, PathTo f x r d

/-- Two nodes hang under one root. -/
def SameRoot (f : α → α) (x y : α) : Prop := ∃ r, RootOf f x r ∧ RootOf f y r

/-- The end of a path is a root. -/
theorem PathTo.isRoot {f : α → α} {x r : α} {d : Nat} (h : PathTo f x r d) : f r = r := by
  induction h with
  | root hr => exact hr
  | step _ _ ih => exact ih

/-- A root has the trivial path only. -/
theorem PathTo.of_isRoot {f : α → α} {x r : α} {d : Nat} (h : PathTo f x r d)
    (hx : f x = x) : r = x ∧ d = 0 := by
  cases h with
  | root _ => exact ⟨rfl, rfl⟩
  | step hne _ => exact absurd hx hne

/-- The root and the distance are functions of the node. -/
theorem PathTo.unique {f : α → α} {x r : α} {d : Nat} (h : PathTo f x r d) :
    ∀ {r' : α} {d' : Nat}, PathTo f x r' d' → r = r' ∧ d = d' := by
  induction h with
  | root hr =>
      intro r' d' h'
      obtain ⟨h1, h2⟩ := h'.of_isRoot hr
      exact ⟨h1.symm, h2.symm⟩
  | step hne _ ih =>
      intro r' d' h'
      cases h' with
      | root hr => exact absurd hr hne
      | step _ h'' =>
          obtain ⟨h1, h2⟩ := ih h''
          exact ⟨h1, by rw [h2]⟩

theorem RootOf.unique {f : α → α} {x r r' : α} (h : RootOf f x r) (h' : RootOf f x r') :
    r = r' := by
  obtain ⟨d, h⟩ := h
  obtain ⟨d', h'⟩ := h'
  exact (h.unique h').1

/-- Paths only look at the parents of the nodes they meet. -/
theorem PathTo.congr {f g : α → α} {P : α → Prop} (hclosed : ∀ x, P x → P (f x))
    (hfg : ∀ x, P x → g x = f x) {x r : α} {d : Nat} (h : PathTo f x r d) :
    P x → PathTo g x r d := by
  induction h with
  | root hr =>
      intro hP
      exact PathTo.root (by rw [hfg _ hP, hr])
  | step hne _ ih =>
      intro hP
      refine PathTo.step (by rw [hfg _ hP]; exact hne) ?_
      rw [hfg _ hP]
      exact ih (hclosed _ hP)

/-- Two parent maps that agree on a closed set have the same paths there. -/
theorem pathTo_congr_iff {f g : α → α} {P : α → Prop} (hclosed : ∀ x, P x → P (f x))
    (hfg : ∀ x, P x → g x = f x) {x r : α} {d : Nat} (hx : P x) :
    PathTo g x r d ↔ PathTo f x r d := by
  constructor
  · intro h
    refine h.congr (P := P) ?_ (fun y hy => (hfg y hy).symm) hx
    intro y hy
    rw [hfg y hy]
    exact hclosed y hy
  · intro h
    exact h.congr hclosed hfg hx

/-- With the roots at hand, `SameRoot` is an equation. -/
theorem sameRoot_iff {f : α → α} {x y r s : α} (hx : RootOf f x r) (hy : RootOf f y s) :
    SameRoot f x y ↔ r = s := by
  constructor
  · rintro ⟨t, hxt, hyt⟩
    rw [hx.unique hxt, hy.unique hyt]
  · intro h
    rw [← h] at hy
    exact ⟨r, hx, hy⟩

/-! ## Linking two roots -/

/-- Along a path to `s` the nodes before the end are not `s`. -/
private theorem step_ne_end {f : α → α} {x s : α} (hs : f s = s) (hne : f x ≠ x) : x ≠ s := by
  intro h
  rw [h] at hne
  exact hne hs

section Link

variable [DecidableEq α]

/-- Hang `s` under `r`. -/
def link (f : α → α) (s r : α) : α → α := Function.update f s r

/-- A step from a node that is no root stays. -/
theorem PathTo.link_step {f : α → α} {s r x r' : α} {d : Nat} (h : PathTo (link f s r) (f x) r' d)
    (hs : f s = s) (hx : f x ≠ x) : PathTo (link f s r) x r' (d + 1) := by
  have hfx : link f s r x = f x := Function.update_of_ne (step_ne_end hs hx) _ _
  refine PathTo.step (by rw [hfx]; exact hx) ?_
  rw [hfx]
  exact h

/-- Nodes under another root keep their path. -/
theorem pathTo_link_kept {f : α → α} {s r : α} (hs : f s = s) {x r' : α} {d : Nat}
    (h : PathTo f x r' d) : r' ≠ s → PathTo (link f s r) x r' d := by
  induction h with
  | root hr =>
      intro hne
      refine PathTo.root ?_
      rw [link, Function.update_of_ne hne, hr]
  | @step x r' d hx _ ih =>
      intro hne
      exact (ih hne).link_step hs hx

/-- Nodes of the hung tree get one step deeper. -/
theorem pathTo_link_moved {f : α → α} {s r : α} (hs : f s = s) (hr : f r = r)
    (hrs : r ≠ s) {x r' : α} {d : Nat} (h : PathTo f x r' d) :
    r' = s → PathTo (link f s r) x r (d + 1) := by
  induction h with
  | @root r' _ =>
      intro heq
      subst heq
      have hfs : link f r' r r' = r := Function.update_self ..
      refine PathTo.step (by rw [hfs]; exact hrs) ?_
      rw [hfs]
      refine PathTo.root ?_
      rw [link, Function.update_of_ne hrs, hr]
  | @step x r' d hx _ ih =>
      intro heq
      exact (ih heq).link_step hs hx

/-- The root above a node after linking. -/
theorem rootOf_link_iff {f : α → α} {s r : α} (hs : f s = s) (hr : f r = r) (hrs : r ≠ s)
    {x t : α} (hx : RootOf f x t) (t' : α) :
    RootOf (link f s r) x t' ↔ t' = if t = s then r else t := by
  obtain ⟨d, hd⟩ := hx
  have hnew : RootOf (link f s r) x (if t = s then r else t) := by
    by_cases ht : t = s
    · rw [if_pos ht]
      exact ⟨d + 1, pathTo_link_moved hs hr hrs hd ht⟩
    · rw [if_neg ht]
      exact ⟨d, pathTo_link_kept hs hd ht⟩
  constructor
  · intro h
    exact h.unique hnew
  · intro h
    rw [h]
    exact hnew

/-- Linking merges the two trees and nothing else. -/
theorem sameRoot_link {f : α → α} {p q r s x y : α} (hp : RootOf f p r) (hq : RootOf f q s)
    (hrs : r ≠ s) (hx : ∃ t, RootOf f x t) (hy : ∃ t, RootOf f y t) :
    SameRoot (link f s r) x y ↔
      SameRoot f x y ∨ (SameRoot f x p ∧ SameRoot f q y) ∨ (SameRoot f x q ∧ SameRoot f p y) := by
  obtain ⟨tx, htx⟩ := hx
  obtain ⟨ty, hty⟩ := hy
  have hr : f r = r := hp.elim fun _ h => h.isRoot
  have hs : f s = s := hq.elim fun _ h => h.isRoot
  rw [sameRoot_iff ((rootOf_link_iff hs hr hrs htx _).mpr rfl)
      ((rootOf_link_iff hs hr hrs hty _).mpr rfl),
    sameRoot_iff htx hty, sameRoot_iff htx hp, sameRoot_iff hq hty, sameRoot_iff htx hq,
    sameRoot_iff hp hty]
  by_cases h1 : tx = s
  · by_cases h2 : ty = s
    · simp [h1, h2]
    · rw [if_pos h1, if_neg h2]
      simp [h1, hrs.symm, Ne.symm h2]
  · by_cases h2 : ty = s
    · rw [if_neg h1, if_pos h2]
      simp [h1, h2]
    · rw [if_neg h1, if_neg h2]
      simp [h1, Ne.symm h2]

end Link

/-! ## The equivalence closure -/

/-- Related elements are equal or both occur in a pair. -/
theorem eqvGen_support {R : α → α → Prop} {P : α → Prop}
    (hR : ∀ x y, R x y → P x ∧ P y) {x y : α} (h : EqvGen R x y) :
    x = y ∨ (P x ∧ P y) := by
  induction h with
  | rel x y hxy => exact Or.inr (hR x y hxy)
  | refl x => exact Or.inl rfl
  | symm x y _ ih =>
      rcases ih with ih | ⟨hx, hy⟩
      · exact Or.inl ih.symm
      · exact Or.inr ⟨hy, hx⟩
  | trans x y z _ _ ih1 ih2 =>
      rcases ih1 with rfl | ⟨hx, _⟩
      · exact ih2
      · rcases ih2 with rfl | ⟨_, hz⟩
        · exact Or.inr ⟨hx, by assumption⟩
        · exact Or.inr ⟨hx, hz⟩

/-- The closure after one more pair `(p, q)`: old links, or a passage through the
    new pair in one of its two directions. -/
theorem eqvGen_insert (R : α → α → Prop) (p q x y : α) :
    EqvGen (fun a b => R a b ∨ (a = p ∧ b = q)) x y ↔
      EqvGen R x y ∨ (EqvGen R x p ∧ EqvGen R q y) ∨ (EqvGen R x q ∧ EqvGen R p y) := by
  have hmono : ∀ {a b}, EqvGen R a b → EqvGen (fun a b => R a b ∨ (a = p ∧ b = q)) a b :=
    fun h => EqvGen.mono (fun a b hab => Or.inl hab) _ _ h
  have hpq : EqvGen (fun a b => R a b ∨ (a = p ∧ b = q)) p q :=
    EqvGen.rel _ _ (Or.inr ⟨rfl, rfl⟩)
  constructor
  · intro h
    induction h with
    | rel a b hab =>
        rcases hab with hab | ⟨rfl, rfl⟩
        · exact Or.inl (EqvGen.rel _ _ hab)
        · exact Or.inr (Or.inl ⟨EqvGen.refl _, EqvGen.refl _⟩)
    | refl a => exact Or.inl (EqvGen.refl a)
    | symm a b _ ih =>
        rcases ih with h | ⟨h1, h2⟩ | ⟨h1, h2⟩
        · exact Or.inl h.symm
        · exact Or.inr (Or.inr ⟨h2.symm, h1.symm⟩)
        · exact Or.inr (Or.inl ⟨h2.symm, h1.symm⟩)
    | trans a b c _ _ ih1 ih2 =>
        rcases ih1 with h | ⟨h1, h2⟩ | ⟨h1, h2⟩
        · rcases ih2 with h' | ⟨h1', h2'⟩ | ⟨h1', h2'⟩
          · exact Or.inl (h.trans _ _ _ h')
          · exact Or.inr (Or.inl ⟨h.trans _ _ _ h1', h2'⟩)
          · exact Or.inr (Or.inr ⟨h.trans _ _ _ h1', h2'⟩)
        · rcases ih2 with h' | ⟨_, h2'⟩ | ⟨_, h2'⟩
          · exact Or.inr (Or.inl ⟨h1, h2.trans _ _ _ h'⟩)
          · exact Or.inr (Or.inl ⟨h1, h2'⟩)
          · exact Or.inl (h1.trans _ _ _ h2')
        · rcases ih2 with h' | ⟨_, h2'⟩ | ⟨_, h2'⟩
          · exact Or.inr (Or.inr ⟨h1, h2.trans _ _ _ h'⟩)
          · exact Or.inl (h1.trans _ _ _ h2')
          · exact Or.inr (Or.inr ⟨h1, h2'⟩)
  · rintro (h | ⟨h1, h2⟩ | ⟨h1, h2⟩)
    · exact hmono h
    · exact ((hmono h1).trans _ _ _ hpq).trans _ _ _ (hmono h2)
    · exact ((hmono h1).trans _ _ _ hpq.symm).trans _ _ _ (hmono h2)

/-! ## Weighted forests over a finite set -/

open Classical in
/-- A forest over the finite set `V`: closed under parents, every node rooted,
    the size of a root exact, and depth at most the logarithm of the size. -/
structure WeightedForest (V : Finset α) (f : α → α) (size : α → Nat) : Prop where
  closed : ∀ x ∈ V, f x ∈ V
  rooted : ∀ x ∈ V, ∃ r, RootOf f x r
  size_eq : ∀ r ∈ V, f r = r → size r = (V.filter (fun x => RootOf f x r)).card
  depth_le : ∀ x ∈ V, ∀ r d, PathTo f x r d → 2 ^ d ≤ size r

namespace WeightedForest

variable {V : Finset α} {f : α → α} {size : α → Nat}

/-- The root above a member is a member. -/
theorem root_mem (h : WeightedForest V f size) {x r : α} {d : Nat} (hp : PathTo f x r d) :
    x ∈ V → r ∈ V := by
  induction hp with
  | root _ => exact id
  | step _ _ ih =>
      intro hx
      exact ih (h.closed _ hx)

/-- No tree is larger than the forest. -/
theorem size_le_card (h : WeightedForest V f size) {r : α} (hr : r ∈ V) (hroot : f r = r) :
    size r ≤ V.card := by
  classical
  rw [h.size_eq r hr hroot]
  exact Finset.card_le_card (Finset.filter_subset _ _)

open Classical in
/-- The sizes of the roots add up to the number of nodes. -/
theorem sum_size [DecidableEq α] (h : WeightedForest V f size) :
    ∑ r ∈ V.filter (fun r => f r = r), size r = V.card := by
  -- send each node to its root and count the fibres
  have hroot : ∀ x : {x // x ∈ V}, ∃ r, RootOf f x.1 r := fun x => h.rooted x.1 x.2
  choose root hspec using hroot
  let g : α → α := fun x => if hx : x ∈ V then root ⟨x, hx⟩ else x
  have hg : ∀ x ∈ V, RootOf f x (g x) := by
    intro x hx
    have : g x = root ⟨x, hx⟩ := dif_pos hx
    rw [this]
    exact hspec ⟨x, hx⟩
  have hmaps : ∀ x ∈ V, g x ∈ V.filter (fun r => f r = r) := by
    intro x hx
    obtain ⟨d, hd⟩ := hg x hx
    exact Finset.mem_filter.mpr ⟨h.root_mem hd hx, hd.isRoot⟩
  rw [Finset.card_eq_sum_card_fiberwise hmaps]
  refine Finset.sum_congr rfl ?_
  intro r hr
  obtain ⟨hrV, hrr⟩ := Finset.mem_filter.mp hr
  rw [h.size_eq r hrV hrr]
  congr 1
  refine Finset.filter_congr ?_
  intro x hx
  constructor
  · intro hxr
    exact (hg x hx).unique hxr
  · intro hxr
    rw [← hxr]
    exact hg x hx

/-- Singletons may arrive: a larger set, the old parents and sizes on the old
    part, self-parents of size one on the new part. -/
theorem extend (h : WeightedForest V f size) {W : Finset α} (hVW : V ⊆ W)
    {f' : α → α} {size' : α → Nat}
    (hold : ∀ x ∈ V, f' x = f x ∧ size' x = size x)
    (hnew : ∀ x ∈ W, x ∉ V → f' x = x ∧ size' x = 1) :
    WeightedForest W f' size' := by
  classical
  have hpath : ∀ {x r d}, x ∈ V → (PathTo f' x r d ↔ PathTo f x r d) := fun hx =>
    pathTo_congr_iff (P := fun y => y ∈ V) h.closed (fun y hy => (hold y hy).1) hx
  refine ⟨?_, ?_, ?_, ?_⟩
  · intro x hx
    by_cases hxV : x ∈ V
    · rw [(hold x hxV).1]
      exact hVW (h.closed x hxV)
    · rw [(hnew x hx hxV).1]
      exact hx
  · intro x hx
    by_cases hxV : x ∈ V
    · obtain ⟨r, d, hd⟩ := h.rooted x hxV
      exact ⟨r, d, (hpath hxV).mpr hd⟩
    · exact ⟨x, 0, PathTo.root (hnew x hx hxV).1⟩
  · intro r hr hroot
    by_cases hrV : r ∈ V
    · rw [(hold r hrV).1] at hroot
      rw [(hold r hrV).2, h.size_eq r hrV hroot]
      congr 1
      ext x
      simp only [Finset.mem_filter]
      constructor
      · rintro ⟨hxV, d, hd⟩
        exact ⟨hVW hxV, d, (hpath hxV).mpr hd⟩
      · rintro ⟨hxW, d, hd⟩
        by_cases hxV : x ∈ V
        · exact ⟨hxV, d, (hpath hxV).mp hd⟩
        · have hrx := (hd.of_isRoot (hnew x hxW hxV).1).1
          rw [hrx] at hrV
          exact absurd hrV hxV
    · rw [(hnew r hr hrV).2]
      symm
      rw [Finset.card_eq_one]
      refine ⟨r, ?_⟩
      ext x
      simp only [Finset.mem_filter, Finset.mem_singleton]
      constructor
      · rintro ⟨hxW, d, hd⟩
        by_cases hxV : x ∈ V
        · exact absurd (h.root_mem ((hpath hxV).mp hd) hxV) hrV
        · exact ((hd.of_isRoot (hnew x hxW hxV).1).1).symm
      · intro hxr
        rw [hxr]
        exact ⟨hr, 0, PathTo.root hroot⟩
  · intro x hx r d hd
    by_cases hxV : x ∈ V
    · have hdV := (hpath hxV).mp hd
      rw [(hold r (h.root_mem hdV hxV)).2]
      exact h.depth_le x hxV r d hdV
    · obtain ⟨hrx, hd0⟩ := hd.of_isRoot (hnew x hx hxV).1
      rw [hrx, hd0, (hnew x hx hxV).2]
      exact Nat.le_refl 1

variable [DecidableEq α]

/-- The tree of `r` after linking is the two old trees together. -/
private theorem filter_link (h : WeightedForest V f size) {r s : α}
    (hr : f r = r) (hs : f s = s) (hrs : r ≠ s) (t : α) :
    ∀ x ∈ V, (RootOf (link f s r) x t ↔
      (t = r ∧ (RootOf f x r ∨ RootOf f x s)) ∨ (t ≠ r ∧ t ≠ s ∧ RootOf f x t)) := by
  intro x hx
  obtain ⟨q, hq⟩ := h.rooted x hx
  rw [rootOf_link_iff hs hr hrs hq]
  by_cases hqs : q = s
  · rw [if_pos hqs]
    subst hqs
    constructor
    · intro ht
      exact Or.inl ⟨ht, Or.inr hq⟩
    · rintro (⟨ht, -⟩ | ⟨-, hts, ht⟩)
      · exact ht
      · exact absurd (ht.unique hq) hts
  · rw [if_neg hqs]
    constructor
    · intro ht
      subst ht
      by_cases htr : t = r
      · subst htr
        exact Or.inl ⟨rfl, Or.inl hq⟩
      · exact Or.inr ⟨htr, hqs, hq⟩
    · rintro (⟨ht, hxr | hxs⟩ | ⟨-, -, ht⟩)
      · rw [ht]
        exact hxr.unique hq
      · exact absurd (hq.unique hxs) hqs
      · exact ht.unique hq

/-- Link a root under a root that is at least as heavy. -/
theorem link_lighter (h : WeightedForest V f size) {r s : α} (hrV : r ∈ V) (hsV : s ∈ V)
    (hr : f r = r) (hs : f s = s) (hrs : r ≠ s) (hle : size s ≤ size r) :
    WeightedForest V (link f s r) (Function.update size r (size r + size s)) := by
  classical
  refine ⟨?_, ?_, ?_, ?_⟩
  · intro x hx
    by_cases hxs : x = s
    · rw [hxs, link, Function.update_self]
      exact hrV
    · rw [link, Function.update_of_ne hxs]
      exact h.closed x hx
  · intro x hx
    obtain ⟨q, hq⟩ := h.rooted x hx
    exact ⟨_, (rootOf_link_iff hs hr hrs hq _).mpr rfl⟩
  · intro t ht htroot
    by_cases htr : t = r
    · subst htr
      rw [Function.update_self, h.size_eq t hrV hr, h.size_eq s hsV hs]
      have hdisj : Disjoint (V.filter (fun x => RootOf f x t))
          (V.filter (fun x => RootOf f x s)) := by
        rw [Finset.disjoint_left]
        intro x hxt hxs
        exact hrs ((Finset.mem_filter.mp hxt).2.unique (Finset.mem_filter.mp hxs).2)
      rw [← Finset.card_union_of_disjoint hdisj, ← Finset.filter_or]
      congr 1
      refine Finset.filter_congr ?_
      intro x hx
      rw [filter_link h hr hs hrs t x hx]
      simp
    · rw [Function.update_of_ne htr]
      have hts : t ≠ s := by
        intro heq
        rw [heq, link, Function.update_self] at htroot
        exact hrs htroot
      have htf : f t = t := by
        rw [link, Function.update_of_ne hts] at htroot
        exact htroot
      rw [h.size_eq t ht htf]
      congr 1
      refine Finset.filter_congr ?_
      intro x hx
      rw [filter_link h hr hs hrs t x hx]
      simp [htr, hts]
  · intro x hx t d hd
    obtain ⟨q, e, he⟩ := h.rooted x hx
    by_cases hqs : q = s
    · -- a moved node: one step deeper, in a tree at least twice as large
      obtain ⟨htr, hde⟩ := hd.unique (pathTo_link_moved hs hr hrs he hqs)
      rw [htr, hde, Function.update_self, Nat.pow_succ]
      have hsz := h.depth_le x hx q e he
      rw [hqs] at hsz
      omega
    · obtain ⟨htq, hde⟩ := hd.unique (pathTo_link_kept hs he hqs)
      rw [htq, hde]
      have hsz := h.depth_le x hx q e he
      by_cases hqr : q = r
      · rw [hqr, Function.update_self]
        rw [hqr] at hsz
        omega
      · rw [Function.update_of_ne hqr]
        exact hsz

end WeightedForest

end Forest
