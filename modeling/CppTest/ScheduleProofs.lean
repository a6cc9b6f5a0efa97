import Mathlib.Data.Finset.Max
import Mathlib.Data.Finset.Powerset
import Mathlib.Order.Lattice

/-! # Jobs that do not overlap, and choosing them greedily

    Jobs occupy intervals of a linear order.  A greedy choice in a window takes one job by
    some rule and goes on in the gap before and in the gap behind it.

    * Compatible sets of jobs: they are joined at a job, and split at one of their own
      (`Compatible.join`, `Compatible.split`).
    * Whatever the rule, the choice is compatible and maximal (`Greedy.compatible`,
      `Greedy.maximal`).
    * It is LARGEST exactly if the rule takes, in every gap it comes to, a job of some largest
      compatible set of that gap (`Greedy.isLargest_iff`).

    Nothing here names a program of the repository. -/

namespace Schedule

variable {ι τ : Type} [LinearOrder τ]

/-- Jobs with an interval each that is not empty. -/
structure Jobs (ι τ : Type) [LinearOrder τ] where
  start : ι → τ
  finish : ι → τ
  all : Finset ι
  proper : ∀ a ∈ all, start a < finish a

/-- The job lies inside the window. -/
def Jobs.Inside (J : Jobs ι τ) (s f : τ) (a : ι) : Prop :=
  a ∈ J.all ∧ s ≤ J.start a ∧ J.finish a ≤ f

/-- The jobs do not overlap. -/
def Jobs.Apart (J : Jobs ι τ) (a b : ι) : Prop := J.finish a ≤ J.start b ∨ J.finish b ≤ J.start a

/-- Jobs inside a window that do not overlap. -/
structure Compatible (J : Jobs ι τ) (s f : τ) (C : Finset ι) : Prop where
  inside : ∀ a ∈ C, J.Inside s f a
  apart : ∀ a ∈ C, ∀ b ∈ C, a ≠ b → J.Apart a b

/-- No compatible set has more jobs. -/
def IsLargest (J : Jobs ι τ) (s f : τ) (C : Finset ι) : Prop :=
  Compatible J s f C ∧ ∀ C', Compatible J s f C' → C'.card ≤ C.card

/-! ## Gaps -/

section Gaps

variable {J : Jobs ι τ} {s f : τ} {a x y : ι}

theorem Jobs.Inside.left (ha : J.Inside s f a) (hx : J.Inside s (J.start a) x) :
    J.Inside s f x :=
  ⟨hx.1, hx.2.1, hx.2.2.trans ((J.proper a ha.1).le.trans ha.2.2)⟩

theorem Jobs.Inside.right (ha : J.Inside s f a) (hx : J.Inside (J.finish a) f x) :
    J.Inside s f x :=
  ⟨hx.1, (ha.2.1.trans (J.proper a ha.1).le).trans hx.2.1, hx.2.2⟩

theorem Jobs.Inside.ne_left (ha : J.Inside s f a) (hx : J.Inside s (J.start a) x) : x ≠ a := by
  rintro rfl
  exact absurd (J.proper x ha.1) (not_lt.mpr hx.2.2)

theorem Jobs.Inside.ne_right (ha : J.Inside s f a) (hx : J.Inside (J.finish a) f x) : x ≠ a := by
  rintro rfl
  exact absurd (J.proper x ha.1) (not_lt.mpr hx.2.1)

theorem Jobs.Inside.sides (ha : J.Inside s f a) (hx : J.Inside s (J.start a) x)
    (hy : J.Inside (J.finish a) f y) : J.finish x ≤ J.start y :=
  hx.2.2.trans ((J.proper a ha.1).le.trans hy.2.1)

theorem Jobs.Inside.ne_sides (ha : J.Inside s f a) (hx : J.Inside s (J.start a) x)
    (hy : J.Inside (J.finish a) f y) : x ≠ y := by
  rintro rfl
  exact absurd (J.proper x hx.1) (not_lt.mpr (ha.sides hx hy))

/-- A job that does not overlap the chosen one lies in a gap beside it. -/
theorem Jobs.Inside.gap (hx : J.Inside s f x) (hapart : J.Apart x a) :
    J.Inside s (J.start a) x ∨ J.Inside (J.finish a) f x := by
  rcases hapart with h | h
  · exact .inl ⟨hx.1, hx.2.1, h⟩
  · exact .inr ⟨hx.1, h, hx.2.2⟩

end Gaps

section Sets

variable [DecidableEq ι] {J : Jobs ι τ} {s f : τ} {a : ι} {L R C : Finset ι}

/-- Compatible sets of the two gaps and the job between them. -/
theorem Compatible.join (ha : J.Inside s f a) (hL : Compatible J s (J.start a) L)
    (hR : Compatible J (J.finish a) f R) : Compatible J s f (insert a (L ∪ R)) := by
  have hleft : ∀ x ∈ L, J.Apart x a := fun x hx => .inl (hL.inside x hx).2.2
  have hright : ∀ x ∈ R, J.Apart x a := fun x hx => .inr (hR.inside x hx).2.1
  constructor
  · intro x hx
    rcases Finset.mem_insert.mp hx with rfl | hx
    · exact ha
    · rcases Finset.mem_union.mp hx with hx | hx
      · exact ha.left (hL.inside x hx)
      · exact ha.right (hR.inside x hx)
  · intro x hx y hy hne
    replace hx := Finset.mem_insert.mp hx
    replace hy := Finset.mem_insert.mp hy
    rcases hx with rfl | hx
    · rcases hy with rfl | hy
      · exact absurd rfl hne
      · rcases Finset.mem_union.mp hy with hy | hy
        · exact (hleft y hy).symm
        · exact (hright y hy).symm
    · rcases hy with rfl | hy
      · rcases Finset.mem_union.mp hx with hx | hx
        · exact hleft x hx
        · exact hright x hx
      · rcases Finset.mem_union.mp hx with hx | hx
        · rcases Finset.mem_union.mp hy with hy | hy
          · exact hL.apart x hx y hy hne
          · exact .inl (ha.sides (hL.inside x hx) (hR.inside y hy))
        · rcases Finset.mem_union.mp hy with hy | hy
          · exact .inr (ha.sides (hL.inside y hy) (hR.inside x hx))
          · exact hR.apart x hx y hy hne

theorem card_join (ha : J.Inside s f a) (hL : Compatible J s (J.start a) L)
    (hR : Compatible J (J.finish a) f R) : (insert a (L ∪ R)).card = L.card + R.card + 1 := by
  rw [Finset.card_insert_of_notMem, Finset.card_union_of_disjoint]
  · rw [Finset.disjoint_left]
    exact fun x hx hx' => ha.ne_sides (hL.inside x hx) (hR.inside x hx') rfl
  · rw [Finset.mem_union, not_or]
    exact ⟨fun h => ha.ne_left (hL.inside a h) rfl, fun h => ha.ne_right (hR.inside a h) rfl⟩

/-- A compatible set is split at each of its jobs. -/
theorem Compatible.split (h : Compatible J s f C) (ha : a ∈ C) :
    ∃ L R, Compatible J s (J.start a) L ∧ Compatible J (J.finish a) f R
      ∧ C.card = L.card + R.card + 1 := by
  classical
  have hL : Compatible J s (J.start a) (C.filter fun x => J.Inside s (J.start a) x) := by
    refine ⟨fun x hx => (Finset.mem_filter.mp hx).2, fun x hx y hy => ?_⟩
    exact h.apart x (Finset.mem_filter.mp hx).1 y (Finset.mem_filter.mp hy).1
  have hR : Compatible J (J.finish a) f (C.filter fun x => J.Inside (J.finish a) f x) := by
    refine ⟨fun x hx => (Finset.mem_filter.mp hx).2, fun x hx y hy => ?_⟩
    exact h.apart x (Finset.mem_filter.mp hx).1 y (Finset.mem_filter.mp hy).1
  refine ⟨_, _, hL, hR, ?_⟩
  rw [← card_join (h.inside a ha) hL hR]
  congr 1
  ext x
  rw [Finset.mem_insert, Finset.mem_union, Finset.mem_filter, Finset.mem_filter]
  constructor
  · intro hx
    by_cases hxa : x = a
    · exact .inl hxa
    · rcases (h.inside x hx).gap (h.apart x hx a ha hxa) with hgap | hgap
      · exact .inr (.inl ⟨hx, hgap⟩)
      · exact .inr (.inr ⟨hx, hgap⟩)
  · rintro (rfl | ⟨hx, -⟩ | ⟨hx, -⟩)
    · exact ha
    · exact hx
    · exact hx

end Sets

/-! ## The greedy choice -/

/-- A rule that takes a job inside the window as long as there is one. -/
structure Rule (J : Jobs ι τ) (pick : τ → τ → Option ι) : Prop where
  none : ∀ {s f}, pick s f = none → ∀ x, ¬ J.Inside s f x
  some : ∀ {s f a}, pick s f = some a → J.Inside s f a

/-- What the greedy choice takes in a window, in its order. -/
inductive Greedy (J : Jobs ι τ) (pick : τ → τ → Option ι) : τ → τ → List ι → Prop where
  | nil {s f : τ} : pick s f = none → Greedy J pick s f []
  | cons {s f : τ} {a : ι} {l r : List ι} : pick s f = some a → Greedy J pick s (J.start a) l →
      Greedy J pick (J.finish a) f r → Greedy J pick s f (a :: (l ++ r))

/-- The gaps it comes to. -/
inductive Gap (J : Jobs ι τ) (pick : τ → τ → Option ι) (s f : τ) : τ → τ → Prop where
  | whole : Gap J pick s f s f
  | left {s' f' : τ} {a : ι} : Gap J pick s f s' f' → pick s' f' = some a →
      Gap J pick s f s' (J.start a)
  | right {s' f' : τ} {a : ι} : Gap J pick s f s' f' → pick s' f' = some a →
      Gap J pick s f (J.finish a) f'

/-- In every gap the rule takes a job of some largest compatible set. -/
def GoodChoice (J : Jobs ι τ) (pick : τ → τ → Option ι) (s f : τ) : Prop :=
  ∀ s' f', Gap J pick s f s' f' → ∀ a, pick s' f' = some a → ∃ C, IsLargest J s' f' C ∧ a ∈ C

section Choice

variable [DecidableEq ι] {J : Jobs ι τ} {pick : τ → τ → Option ι} {s f : τ} {out : List ι}

omit [DecidableEq ι] in
theorem Greedy.inside (hrule : Rule J pick) (h : Greedy J pick s f out) :
    ∀ x ∈ out, J.Inside s f x := by
  induction h with
  | nil => exact fun x hx => absurd hx List.not_mem_nil
  | cons hpick _ _ ihl ihr =>
      have ha := hrule.some hpick
      intro x hx
      rcases List.mem_cons.mp hx with rfl | hx
      · exact ha
      · rcases List.mem_append.mp hx with hx | hx
        · exact ha.left (ihl x hx)
        · exact ha.right (ihr x hx)

omit [DecidableEq ι] in
theorem Greedy.nodup (hrule : Rule J pick) (h : Greedy J pick s f out) : out.Nodup := by
  induction h with
  | nil => exact List.nodup_nil
  | cons hpick hl hr ihl ihr =>
      have ha := hrule.some hpick
      have hleft := hl.inside hrule
      have hright := hr.inside hrule
      refine List.nodup_cons.mpr ⟨?_, List.nodup_append.mpr ⟨ihl, ihr, ?_⟩⟩
      · rw [List.mem_append, not_or]
        exact ⟨fun hx => ha.ne_left (hleft _ hx) rfl, fun hx => ha.ne_right (hright _ hx) rfl⟩
      · exact fun x hx y hy => ha.ne_sides (hleft x hx) (hright y hy)

omit [DecidableEq ι] in
/-- The rule leaves no choice. -/
theorem Greedy.unique {out' : List ι} (h : Greedy J pick s f out) (h' : Greedy J pick s f out') :
    out = out' := by
  induction h generalizing out' with
  | nil hpick =>
      cases h' with
      | nil => rfl
      | cons hpick' _ _ => exact nomatch hpick.symm.trans hpick'
  | cons hpick _ _ ihl ihr =>
      cases h' with
      | nil hpick' => exact nomatch hpick.symm.trans hpick'
      | cons hpick' hl' hr' =>
          obtain rfl := Option.some.inj (hpick.symm.trans hpick')
          rw [ihl hl', ihr hr']

theorem toFinset_cons_append (a : ι) (l r : List ι) :
    (a :: (l ++ r)).toFinset = insert a (l.toFinset ∪ r.toFinset) := by
  rw [List.toFinset_cons, List.toFinset_append]

/-- **The greedy choice is compatible.** -/
theorem Greedy.compatible (hrule : Rule J pick) (h : Greedy J pick s f out) :
    Compatible J s f out.toFinset := by
  induction h with
  | nil =>
      refine ⟨fun x hx => ?_, fun x hx => ?_⟩
      · exact absurd (List.mem_toFinset.mp hx) List.not_mem_nil
      · exact absurd (List.mem_toFinset.mp hx) List.not_mem_nil
  | cons hpick _ _ ihl ihr =>
      rw [toFinset_cons_append]
      exact ihl.join (hrule.some hpick) ihr

omit [DecidableEq ι] in
/-- **It is maximal**: every job in the window is taken or overlaps one that is. -/
theorem Greedy.maximal (hrule : Rule J pick) (h : Greedy J pick s f out) :
    ∀ x, J.Inside s f x → x ∈ out ∨ ∃ y ∈ out, ¬ J.Apart x y := by
  induction h with
  | nil hpick => exact fun x hx => absurd hx (hrule.none hpick x)
  | @cons s f a l r hpick _ _ ihl ihr =>
      intro x hx
      by_cases hapart : J.Apart x a
      · rcases hx.gap hapart with hgap | hgap
        · rcases ihl x hgap with hl | ⟨y, hy, hno⟩
          · exact .inl (List.mem_cons_of_mem a (List.mem_append_left r hl))
          · exact .inr ⟨y, List.mem_cons_of_mem a (List.mem_append_left r hy), hno⟩
        · rcases ihr x hgap with hr | ⟨y, hy, hno⟩
          · exact .inl (List.mem_cons_of_mem a (List.mem_append_right l hr))
          · exact .inr ⟨y, List.mem_cons_of_mem a (List.mem_append_right l hy), hno⟩
      · exact .inr ⟨a, List.mem_cons_self, hapart⟩

omit [DecidableEq ι] in
/-- The gaps of the gap before the job, and of the one behind it. -/
theorem Gap.of_side {s' f' s₁ f₁ : τ} (hside : Gap J pick s f s' f')
    (h : Gap J pick s' f' s₁ f₁) : Gap J pick s f s₁ f₁ := by
  induction h with
  | whole => exact hside
  | left _ hpick ih => exact .left ih hpick
  | right _ hpick ih => exact .right ih hpick

omit [DecidableEq ι] in
theorem Gap.eq_of_none {s' f' : τ} (hpick : pick s f = none) (h : Gap J pick s f s' f') :
    s' = s ∧ f' = f := by
  induction h with
  | whole => exact ⟨rfl, rfl⟩
  | left _ hpick' ih =>
      obtain ⟨rfl, rfl⟩ := ih
      exact nomatch hpick.symm.trans hpick'
  | right _ hpick' ih =>
      obtain ⟨rfl, rfl⟩ := ih
      exact nomatch hpick.symm.trans hpick'

omit [DecidableEq ι] in
theorem Gap.cases_pick {s' f' : τ} {a : ι} (hpick : pick s f = some a)
    (h : Gap J pick s f s' f') : s' = s ∧ f' = f
      ∨ Gap J pick s (J.start a) s' f' ∨ Gap J pick (J.finish a) f s' f' := by
  induction h with
  | whole => exact .inl ⟨rfl, rfl⟩
  | left _ hpick' ih =>
      rcases ih with ⟨rfl, rfl⟩ | hl | hr
      · obtain rfl := Option.some.inj (hpick.symm.trans hpick')
        exact .inr (.inl .whole)
      · exact .inr (.inl (hl.left hpick'))
      · exact .inr (.inr (hr.left hpick'))
  | right _ hpick' ih =>
      rcases ih with ⟨rfl, rfl⟩ | hl | hr
      · obtain rfl := Option.some.inj (hpick.symm.trans hpick')
        exact .inr (.inr .whole)
      · exact .inr (.inl (hl.right hpick'))
      · exact .inr (.inr (hr.right hpick'))

/-- A largest set that holds the job is largest in both gaps beside it. -/
theorem isLargest_sides {a : ι} {L R : Finset ι} (ha : J.Inside s f a)
    (hL : Compatible J s (J.start a) L) (hR : Compatible J (J.finish a) f R)
    (h : IsLargest J s f (insert a (L ∪ R))) :
    IsLargest J s (J.start a) L ∧ IsLargest J (J.finish a) f R := by
  refine ⟨⟨hL, fun C hC => ?_⟩, ⟨hR, fun C hC => ?_⟩⟩
  · have hle := h.2 _ (hC.join ha hR)
    rw [card_join ha hC hR, card_join ha hL hR] at hle
    omega
  · have hle := h.2 _ (hL.join ha hC)
    rw [card_join ha hL hC, card_join ha hL hR] at hle
    omega

/-- **The greedy choice is a largest one** exactly if every job it takes is in a largest
    compatible set of its gap; by induction on the choice. -/
theorem Greedy.isLargest_iff (hrule : Rule J pick) (h : Greedy J pick s f out) :
    IsLargest J s f out.toFinset ↔ GoodChoice J pick s f := by
  induction h with
  | @nil s f hpick =>
      constructor
      · intro _ s' f' hgap a hpick'
        obtain ⟨rfl, rfl⟩ := hgap.eq_of_none hpick
        exact nomatch hpick.symm.trans hpick'
      · intro _
        refine ⟨(Greedy.nil hpick).compatible hrule, fun C hC => ?_⟩
        have hempty : C = ∅ := Finset.eq_empty_of_forall_notMem fun x hx =>
          hrule.none hpick x (hC.inside x hx)
        rw [hempty]
        exact Nat.zero_le _
  | @cons s f a l r hpick hl hr ihl ihr =>
      have ha := hrule.some hpick
      have hcl := hl.compatible hrule
      have hcr := hr.compatible hrule
      rw [toFinset_cons_append]
      constructor
      · intro hlargest s' f' hgap b hpick'
        obtain ⟨hleft, hright⟩ := isLargest_sides ha hcl hcr hlargest
        rcases hgap.cases_pick hpick with ⟨rfl, rfl⟩ | hgap | hgap
        · obtain rfl := Option.some.inj (hpick.symm.trans hpick')
          exact ⟨_, hlargest, Finset.mem_insert_self _ _⟩
        · exact ihl.mp hleft s' f' hgap b hpick'
        · exact ihr.mp hright s' f' hgap b hpick'
      · intro hgood
        refine ⟨hcl.join ha hcr, fun C hC => ?_⟩
        have hleft := ihl.mpr fun s' f' hgap =>
          hgood s' f' (Gap.of_side (.left .whole hpick) hgap)
        have hright := ihr.mpr fun s' f' hgap =>
          hgood s' f' (Gap.of_side (.right .whole hpick) hgap)
        -- a largest set with the job in it is split at the job
        obtain ⟨D, hD, haD⟩ := hgood s f .whole a hpick
        obtain ⟨L, R, hL, hR, hcard⟩ := hD.1.split haD
        have hCD := hD.2 C hC
        have hLl := hleft.2 L hL
        have hRr := hright.2 R hR
        rw [card_join ha hcl hcr]
        omega

omit [DecidableEq ι] in
theorem exists_isLargest (J : Jobs ι τ) (s f : τ) : ∃ C, IsLargest J s f C := by
  classical
  have hempty : Compatible J s f ∅ :=
    ⟨fun x hx => absurd hx (Finset.notMem_empty x), fun x hx => absurd hx (Finset.notMem_empty x)⟩
  have hmem : ∀ C, C ∈ J.all.powerset.filter (Compatible J s f) ↔ Compatible J s f C := by
    intro C
    rw [Finset.mem_filter, Finset.mem_powerset, and_iff_right_iff_imp]
    exact fun hC x hx => (hC.inside x hx).1
  obtain ⟨C, hC, hmax⟩ := Finset.exists_max_image (J.all.powerset.filter (Compatible J s f))
    Finset.card ⟨∅, (hmem ∅).mpr hempty⟩
  exact ⟨C, (hmem C).mp hC, fun C' hC' => hmax C' ((hmem C').mpr hC')⟩

/-- **Exchange.**  If the jobs in the gap that overlap `a` overlap each other, `a` is in a
    largest compatible set of the gap. -/
theorem exists_isLargest_mem {a : ι} (ha : J.Inside s f a)
    (hclique : ∀ b c, J.Inside s f b → J.Inside s f c → ¬ J.Apart b a → ¬ J.Apart c a →
      b = c ∨ ¬ J.Apart b c) : ∃ C, IsLargest J s f C ∧ a ∈ C := by
  classical
  obtain ⟨C, hC, hmax⟩ := exists_isLargest J s f
  -- the jobs of it that overlap `a` are at most one, and make room for it
  have hfew : (C.filter fun x => ¬ J.Apart x a).card ≤ 1 := by
    refine Finset.card_le_one.mpr fun b hb c hc => ?_
    obtain ⟨hbC, hba⟩ := Finset.mem_filter.mp hb
    obtain ⟨hcC, hca⟩ := Finset.mem_filter.mp hc
    rcases hclique b c (hC.inside b hbC) (hC.inside c hcC) hba hca with heq | hno
    · exact heq
    · by_contra hne
      exact hno (hC.apart b hbC c hcC hne)
  have hself : ¬ J.Apart a a := by
    rintro (h | h)
    · exact absurd (J.proper a ha.1) (not_lt.mpr h)
    · exact absurd (J.proper a ha.1) (not_lt.mpr h)
  have hnew : Compatible J s f (insert a (C.filter fun x => J.Apart x a)) := by
    constructor
    · intro x hx
      rcases Finset.mem_insert.mp hx with rfl | hx
      · exact ha
      · exact hC.inside x (Finset.mem_filter.mp hx).1
    · intro x hx y hy hne
      replace hx := Finset.mem_insert.mp hx
      replace hy := Finset.mem_insert.mp hy
      rcases hx with rfl | hx
      · rcases hy with rfl | hy
        · exact absurd rfl hne
        · exact (Finset.mem_filter.mp hy).2.symm
      · rcases hy with rfl | hy
        · exact (Finset.mem_filter.mp hx).2
        · exact hC.apart x (Finset.mem_filter.mp hx).1 y (Finset.mem_filter.mp hy).1 hne
  refine ⟨_, ⟨hnew, fun C' hC' => (hmax C' hC').trans ?_⟩, Finset.mem_insert_self _ _⟩
  have hnot : a ∉ C.filter fun x => J.Apart x a := fun h => hself (Finset.mem_filter.mp h).2
  rw [Finset.card_insert_of_notMem hnot]
  have hparts := Finset.card_filter_add_card_filter_not (s := C) fun x => J.Apart x a
  omega

end Choice

end Schedule
