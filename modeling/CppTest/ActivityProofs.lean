import CppTest.MachineProofs
import CppTest.ScheduleProofs
import Mathlib.Data.List.MinMax
import Mathlib.Order.Bounds.Basic

/-! # Choosing activities (`src/algs/intro_to_algs3th/16.c`)

    In a window `max_comp_activity` takes the LONGEST activity that lies in it, marks it as
    chosen, and goes on in the gap before and in the gap behind it.  The flags and the cursor
    of the output are shared by the two calls.

    * The scan finds the first of the longest activities of the window
      (`longestActivity_eq`), unless a difference `f - s` overflows
      (`longestActivity_overflows`).
    * The calls make the greedy choice by that rule (`maxCompActivity_run`): the flags say
      what is taken so far, and none of that lies in the window of a call.
    * So the output is compatible and maximal (`choose_law_iff`), and it is a largest one
      exactly if the longest activity is always a good choice (`size_law_iff`). -/

namespace Activity

open Machine Schedule

/-! ## The model -/

structure ItoaActivity where
  s : Int
  f : Int
  chosen : Int
  deriving Repr, DecidableEq

/-- One pass of the loop: `a`, as an index, and `maxa`. -/
def longestPass (s f : Int) (as : List ItoaActivity) :
    Option Nat × Int → Nat → Option (Option Nat × Int)
  | (a, maxa), i => do
      let act ← as[i]?
      if act.chosen = 0 ∧ s ≤ act.s ∧ act.f ≤ f then do
        let tmaxa ← int32 (act.f - act.s)
        if maxa < tmaxa then some (some i, tmaxa) else some (a, maxa)
      else some (a, maxa)

/-- `longest_activity`: the activities after the call, and the index of the one it returns. -/
def longestActivity (s f : Int) (as : List ItoaActivity) (nas : Nat) :
    Option (List ItoaActivity × Option Nat) :=
  if s = f then some (as, none)
  else if nas = 0 then some (as, none)
  else do
    let (a, _) ← (List.range nas).foldlM (longestPass s f as) (none, 0)
    match a with
    | none => some (as, none)
    | some i => do
        let act ← as[i]?
        some (as.set i { act with chosen := 1 }, some i)

/-- `max_comp_activity`: `as`, `comp_as` and `*ias` after the call; it always returns 0. -/
def maxCompActivity : Nat → Int → Int → List ItoaActivity → Nat → List ItoaActivity → Nat →
    Option (List ItoaActivity × List ItoaActivity × Nat)
  | 0, _, _, _, _, _, _ => none
  | fuel + 1, s, f, as, nas, comp, ias =>
      if s = f then some (as, comp, ias)
      else if nas = 0 then some (as, comp, ias)
      else do
        let (as, a) ← longestActivity s f as nas
        match a with
        | none => some (as, comp, ias)
        | some i => do
            let act ← as[i]?
            let comp ← setAt comp ias act
            if act.s = s ∧ act.f = f then some (as, comp, ias + 1)
            else if act.s = s ∧ act.f < f then
              maxCompActivity fuel act.f f as nas comp (ias + 1)
            else if s < act.s ∧ act.f = f then
              maxCompActivity fuel s act.s as nas comp (ias + 1)
            else do
              let (as, comp, ias) ← maxCompActivity fuel s act.s as nas comp (ias + 1)
              -- `a->f` is read again after the first call
              let act ← as[i]?
              maxCompActivity fuel act.f f as nas comp ias

/-! ## The activities as jobs -/

def activity (as : List ItoaActivity) (i : Nat) : ItoaActivity := as.getD i ⟨0, 0, 0⟩

/-- The copy of an activity that is put out. -/
def chosen (as : List ItoaActivity) (i : Nat) : ItoaActivity := { activity as i with chosen := 1 }

def span (as : List ItoaActivity) (i : Nat) : Int := (activity as i).f - (activity as i).s

theorem getElem?_activity {as : List ItoaActivity} {i : Nat} (hi : i < as.length) :
    as[i]? = some (activity as i) :=
  getElem?_getD _ hi

theorem activity_mem {as : List ItoaActivity} {i : Nat} (hi : i < as.length) :
    activity as i ∈ as :=
  List.mem_of_getElem? (getElem?_activity hi)

theorem exists_activity {as : List ItoaActivity} {x : ItoaActivity} (hx : x ∈ as) :
    ∃ i < as.length, activity as i = x :=
  exists_getD_of_mem _ hx

/-- Every activity ends after its start. -/
def Proper (as : List ItoaActivity) : Prop := ∀ x ∈ as, x.s < x.f

/-- The activities, by their index. -/
def jobs (as : List ItoaActivity) (h : Proper as) : Jobs Nat Int where
  start i := (activity as i).s
  finish i := (activity as i).f
  all := Finset.range as.length
  proper _ hi := h _ (activity_mem (Finset.mem_range.mp hi))

/-- No length of an activity in the window is above the largest `int`. -/
def NoOverflow (as : List ItoaActivity) (s f : Int) : Prop :=
  ∀ x ∈ as, s ≤ x.s → x.f ≤ f → x.f - x.s ≤ intMax

/-- The activity lies in the window. -/
def InWindow (as : List ItoaActivity) (s f : Int) (i : Nat) : Prop :=
  s ≤ (activity as i).s ∧ (activity as i).f ≤ f

instance (as : List ItoaActivity) (s f : Int) : DecidablePred (InWindow as s f) :=
  fun _ => inferInstanceAs (Decidable (_ ∧ _))

/-- The first of the longest activities that lie in the window, of the first `k`. -/
def longestOf (as : List ItoaActivity) (s f : Int) (k : Nat) : Option Nat :=
  @List.argmax Nat Int Int.instLinearOrder.toPreorder _ (span as)
    ((List.range k).filter fun i => InWindow as s f i)

/-- The first of the longest activities that lie in the window. -/
def longest (as : List ItoaActivity) (s f : Int) : Option Nat := longestOf as s f as.length

theorem inside_iff {as : List ItoaActivity} {hproper : Proper as} {s f : Int} {i : Nat} :
    (jobs as hproper).Inside s f i ↔ i < as.length ∧ InWindow as s f i := by
  rw [Jobs.Inside, jobs, Finset.mem_range]
  rfl

theorem longestOf_succ (as : List ItoaActivity) (s f : Int) (k : Nat) :
    longestOf as s f (k + 1) = if InWindow as s f k then
      match longestOf as s f k with
      | none => some k
      | some c => if span as c < span as k then some k else some c
    else longestOf as s f k := by
  rw [longestOf, List.range_succ, List.filter_append]
  by_cases hk : InWindow as s f k
  · rw [if_pos hk, List.filter_cons_of_pos (by simpa using hk), List.filter_nil,
      List.argmax_concat, ← longestOf]
    cases longestOf as s f k with
    | none => rfl
    | some c => rfl
  · rw [if_neg hk, List.filter_cons_of_neg (by simpa using hk), List.filter_nil,
      List.append_nil, ← longestOf]

/-- The scan is a rule: it takes an activity of the window as long as there is one. -/
theorem longest_rule {as : List ItoaActivity} (hproper : Proper as) :
    Rule (jobs as hproper) (longest as) := by
  constructor
  · intro s f hnone i hi
    obtain ⟨hlt, hwin⟩ := inside_iff.mp hi
    have hnil := List.argmax_eq_none.mp hnone
    have hmem : i ∈ (List.range as.length).filter fun i => InWindow as s f i :=
      List.mem_filter.mpr ⟨List.mem_range.mpr hlt, by simpa using hwin⟩
    rw [hnil] at hmem
    exact absurd hmem List.not_mem_nil
  · intro s f i hsome
    obtain ⟨hlt, hwin⟩ := List.mem_filter.mp (List.argmax_mem (Option.mem_def.mpr hsome))
    exact inside_iff.mpr ⟨List.mem_range.mp hlt, by simpa using hwin⟩

/-! ## The scan -/

/-- The activities with those of `C` chosen. -/
def mark (as : List ItoaActivity) (C : Finset Nat) (i : Nat) : ItoaActivity :=
  { activity as i with chosen := if i ∈ C then 1 else 0 }

/-- The flags of `as'` say that those of `C` are chosen. -/
structure Marked (as : List ItoaActivity) (C : Finset Nat) (as' : List ItoaActivity) : Prop where
  length : as'.length = as.length
  read : ∀ i < as.length, as'[i]? = some (mark as C i)

theorem mark_of_mem {as : List ItoaActivity} {C : Finset Nat} {i : Nat} (hi : i ∈ C) :
    mark as C i = chosen as i := by
  rw [mark, if_pos hi, chosen]

/-- At first none is chosen. -/
theorem marked_empty {as : List ItoaActivity} (hfree : ∀ x ∈ as, x.chosen = 0) :
    Marked as ∅ as := by
  refine ⟨rfl, fun i hi => ?_⟩
  have hzero : (activity as i).chosen = 0 := hfree _ (activity_mem hi)
  rw [getElem?_activity hi, mark, if_neg (Finset.notMem_empty i), ← hzero]

theorem Marked.insert {as as' : List ItoaActivity} {C : Finset Nat} {i : Nat}
    (h : Marked as C as') (hi : i < as.length) :
    Marked as (insert i C) (as'.set i { mark as C i with chosen := 1 }) := by
  refine ⟨by rw [List.length_set, h.length], fun k hk => ?_⟩
  rw [List.getElem?_set, h.length]
  by_cases hki : i = k
  · subst hki
    rw [if_pos rfl, if_pos hi, mark_of_mem (Finset.mem_insert_self i C)]
    rfl
  · rw [if_neg hki, h.read k hk, mark, mark]
    simp only [Finset.mem_insert, Ne.symm hki, false_or]

section Scan

variable {as as' : List ItoaActivity} {C : Finset Nat} {s f : Int}

/-- A pass at an activity outside the window. -/
theorem longestPass_outside (hmark : Marked as C as') {i : Nat} (hi : i < as.length)
    (hwin : ¬ InWindow as s f i) (st : Option Nat × Int) :
    longestPass s f as' st i = some st := by
  simp only [longestPass, hmark.read i hi, Option.bind_eq_bind, Option.bind_some]
  exact if_neg fun h => hwin h.2

/-- A pass at one inside it, not chosen yet. -/
theorem longestPass_inside (hmark : Marked as C as') {i : Nat} (hi : i < as.length)
    (hwin : InWindow as s f i) (hfree : i ∉ C) (st : Option Nat × Int) :
    longestPass s f as' st i = (int32 (span as i)).bind fun tmaxa =>
      if st.2 < tmaxa then some (some i, tmaxa) else some st := by
  have hcond : (mark as C i).chosen = 0 ∧ s ≤ (mark as C i).s ∧ (mark as C i).f ≤ f :=
    ⟨if_neg hfree, hwin.1, hwin.2⟩
  simp only [longestPass, hmark.read i hi, Option.bind_eq_bind, Option.bind_some, if_pos hcond]
  rfl

/-- The scan over the first `k` activities; by induction on `k`. -/
theorem longestPass_foldlM (hproper : Proper as) (hmark : Marked as C as')
    (hfree : ∀ c ∈ C, ¬ InWindow as s f c) (hspan : NoOverflow as s f) : ∀ k ≤ as.length,
    (List.range k).foldlM (longestPass s f as') (none, 0)
      = some (longestOf as s f k, (longestOf as s f k).elim 0 (span as)) := by
  intro k
  induction k with
  | zero => exact fun _ => rfl
  | succ k ih =>
      intro hk
      have hlt : k < as.length := hk
      rw [List.range_succ, List.foldlM_append, ih (by omega), longestOf_succ]
      simp only [Option.bind_eq_bind, Option.bind_some, List.foldlM_cons, List.foldlM_nil]
      by_cases hwin : InWindow as s f k
      · have hpos : 0 < span as k := Int.sub_pos.mpr (hproper _ (activity_mem hlt))
        have hint : int32 (span as k) = some (span as k) :=
          int32_eq (by rw [intMin]; omega) (hspan _ (activity_mem hlt) hwin.1 hwin.2)
        rw [longestPass_inside hmark hlt hwin fun hC => hfree k hC hwin, hint, if_pos hwin]
        -- `maxa` is 0 at first, below every length; one of the same length is passed over
        cases hbest : longestOf as s f k with
        | none => simp [hpos]
        | some c =>
            simp only [Option.elim_some, Option.bind_some]
            by_cases hmore : span as c < span as k
            · simp [hmore]
            · simp [hmore]
      · rw [longestPass_outside hmark hlt hwin, if_neg hwin]
        rfl

/-- **The scan** finds the first of the longest activities of the window. -/
theorem longestActivity_eq (hproper : Proper as) (hmark : Marked as C as')
    (hfree : ∀ c ∈ C, ¬ InWindow as s f c) (hspan : NoOverflow as s f) :
    ∃ as₁, longestActivity s f as' as.length = some (as₁, longest as s f)
      ∧ (longest as s f = none → as₁ = as')
      ∧ ∀ i, longest as s f = some i → Marked as (insert i C) as₁ := by
  have hrule := longest_rule hproper
  cases hlong : longest as s f with
  | none =>
      refine ⟨as', ?_, fun _ => rfl, fun _ h => absurd h.symm (Option.some_ne_none _)⟩
      -- also where the function returns before it scans
      rw [longestActivity]
      split_ifs with hsf hn
      · rfl
      · rfl
      · rw [longestPass_foldlM hproper hmark hfree hspan _ (Nat.le_refl _), ← longest, hlong]
        rfl
  | some i =>
      have hin := hrule.some hlong
      obtain ⟨hi, hwin⟩ := inside_iff.mp hin
      have hlt := hproper _ (activity_mem hi)
      have hsf : s ≠ f := ((hwin.1.trans_lt hlt).trans_le hwin.2).ne
      refine ⟨as'.set i { mark as C i with chosen := 1 }, ?_,
        fun h => absurd h (Option.some_ne_none i), fun j hj => ?_⟩
      · rw [longestActivity, if_neg hsf, if_neg (by omega),
          longestPass_foldlM hproper hmark hfree hspan _ (Nat.le_refl _), ← longest, hlong]
        simp only [Option.bind_eq_bind, Option.bind_some, hmark.read i hi]
      · obtain rfl := Option.some.inj hj
        exact hmark.insert hi

/-- An activity of the window that is too long makes the scan fault. -/
theorem longestActivity_overflows (hproper : Proper as) (hmark : Marked as C as')
    (hfree : ∀ c ∈ C, ¬ InWindow as s f c) (hspan : ¬ NoOverflow as s f) :
    longestActivity s f as' as.length = none := by
  rw [NoOverflow] at hspan
  push Not at hspan
  obtain ⟨x, hx, hs, hf, hlong⟩ := hspan
  obtain ⟨i, hi, rfl⟩ := exists_activity hx
  have hwin : InWindow as s f i := ⟨hs, hf⟩
  have hfault : ∀ st, longestPass s f as' st i = none := by
    intro st
    have hint : int32 (span as i) = none := if_neg fun h => absurd h.2 (not_le.mpr hlong)
    rw [longestPass_inside hmark hi hwin fun hC => hfree i hC hwin, hint]
    rfl
  have hlt := hproper _ hx
  rw [longestActivity, if_neg (by omega), if_neg (by omega),
    foldlM_faults hfault _ (List.mem_range.mpr hi)]
  rfl

end Scan

/-! ## The calls -/

section Calls

variable {s f : Int} {as as₁ : List ItoaActivity} {nas : Nat} {comp : List ItoaActivity}
  {ias fuel : Nat}

theorem maxCompActivity_point (hfuel : 0 < fuel) :
    maxCompActivity fuel s s as nas comp ias = some (as, comp, ias) := by
  obtain ⟨fuel, rfl⟩ : ∃ n, fuel = n + 1 := ⟨fuel - 1, by omega⟩
  rw [maxCompActivity, if_pos rfl]

/-- A call that finds nothing. -/
theorem maxCompActivity_none (h : longestActivity s f as nas = some (as, none)) :
    maxCompActivity (fuel + 1) s f as nas comp ias = some (as, comp, ias) := by
  rw [maxCompActivity, h]
  split_ifs
  · rfl
  · rfl
  · rfl

/-- A call that takes an activity does the gap before it and then the gap behind it, in each
    of its four cases: where a gap is empty the call for it does nothing. -/
theorem maxCompActivity_some {i : Nat} {act : ItoaActivity}
    {comp₁ : List ItoaActivity} {r r' : List ItoaActivity × List ItoaActivity × Nat}
    (hfuel : 0 < fuel) (hsf : s ≠ f) (hnas : nas ≠ 0)
    (hlong : longestActivity s f as nas = some (as₁, some i)) (hact : as₁[i]? = some act)
    (hset : setAt comp (ias : Int) act = some comp₁)
    (hleft : maxCompActivity fuel s act.s as₁ nas comp₁ (ias + 1) = some r)
    (hread : r.1[i]? = some act)
    (hright : maxCompActivity fuel act.f f r.1 nas r.2.1 r.2.2 = some r') :
    maxCompActivity (fuel + 1) s f as nas comp ias = some r' := by
  rw [maxCompActivity, if_neg hsf, if_neg hnas, hlong]
  simp only [Option.bind_eq_bind, Option.bind_some, hact, hset]
  split_ifs with h₁ h₂ h₃
  -- the activity fills the window; it has no gap before it; it has none behind it
  · rw [h₁.1, maxCompActivity_point hfuel] at hleft
    obtain rfl := Option.some.inj hleft
    rw [h₁.2, maxCompActivity_point hfuel] at hright
    exact hright
  · rw [h₂.1, maxCompActivity_point hfuel] at hleft
    obtain rfl := Option.some.inj hleft
    exact hright
  · rw [h₃.2, maxCompActivity_point hfuel] at hright
    rw [hleft]
    exact hright
  -- both gaps: `a->f` is read after the first call, which leaves it alone
  · rw [hleft]
    simp only [Option.bind_some, hread]
    exact hright

/-- The output of a call that takes an activity: that one, then the choices in the gaps. -/
theorem maxCompActivity_join {all as₂ as₃ out room : List ItoaActivity} {cell : ItoaActivity}
    {i : Nat} {l r : List Nat} (hfuel : 0 < fuel) (hsf : s ≠ f) (hnas : nas ≠ 0)
    (hlong : longestActivity s f as nas = some (as₁, some i))
    (hact : as₁[i]? = some (chosen all i)) (hread : as₂[i]? = some (chosen all i))
    (hleft : maxCompActivity fuel s (activity all i).s as₁ nas
        (out ++ [chosen all i] ++ room) (out ++ [chosen all i]).length
      = some (as₂, out ++ [chosen all i] ++ l.map (chosen all) ++ room.drop l.length,
          (out ++ [chosen all i]).length + l.length))
    (hright : maxCompActivity fuel (activity all i).f f as₂ nas
        (out ++ [chosen all i] ++ l.map (chosen all) ++ room.drop l.length)
        (out ++ [chosen all i] ++ l.map (chosen all)).length
      = some (as₃, out ++ [chosen all i] ++ l.map (chosen all) ++ r.map (chosen all)
          ++ (room.drop l.length).drop r.length,
          (out ++ [chosen all i] ++ l.map (chosen all)).length + r.length)) :
    maxCompActivity (fuel + 1) s f as nas (out ++ cell :: room) out.length
      = some (as₃, out ++ (i :: (l ++ r)).map (chosen all)
          ++ (cell :: room).drop (i :: (l ++ r)).length,
          out.length + (i :: (l ++ r)).length) := by
  -- the first cell of the room takes the activity
  have hset : setAt (out ++ cell :: room) (out.length : Int) (chosen all i)
      = some (out ++ [chosen all i] ++ room) := by
    rw [setAt_mid, List.append_assoc, List.singleton_append]
  have hlen : (out ++ [chosen all i]).length = out.length + 1 := List.length_append
  have hlen₂ : (out ++ [chosen all i] ++ l.map (chosen all)).length
      = out.length + 1 + l.length := by
    rw [List.length_append, hlen, List.length_map]
  rw [hlen] at hleft
  rw [hlen₂] at hright
  have hdrop : (cell :: room).drop (i :: (l ++ r)).length
      = (room.drop l.length).drop r.length := by
    rw [List.length_cons, List.drop_succ_cons, List.length_append, List.drop_drop]
  have hcount : out.length + 1 + l.length + r.length = out.length + (i :: (l ++ r)).length := by
    rw [List.length_cons, List.length_append]
    omega
  rw [maxCompActivity_some hfuel hsf hnas hlong hact hset hleft hread hright, hdrop, hcount]
  simp only [List.map_cons, List.map_append, List.append_assoc, List.cons_append,
    List.nil_append]

end Calls

/-- The scan is over a smaller window. -/
theorem NoOverflow.mono {as : List ItoaActivity} {s f s' f' : Int} (h : NoOverflow as s f)
    (hs : s ≤ s') (hf : f' ≤ f) : NoOverflow as s' f' :=
  fun x hx hxs hxf => h x hx (hs.trans hxs) (hxf.trans hf)

theorem card_union_toFinset {C : Finset Nat} {l : List Nat} (hl : l.Nodup)
    (hdisj : ∀ x ∈ l, x ∉ C) : (C ∪ l.toFinset).card = C.card + l.length := by
  rw [Finset.card_union_of_disjoint, List.toFinset_card_of_nodup hl]
  rw [Finset.disjoint_right]
  exact fun x hx => hdisj x (List.mem_toFinset.mp hx)

theorem union_cons_append (C : Finset Nat) (i : Nat) (l r : List Nat) :
    C ∪ (i :: (l ++ r)).toFinset = insert i C ∪ l.toFinset ∪ r.toFinset := by
  ext x
  simp only [Finset.mem_union, Finset.mem_insert, List.mem_toFinset, List.mem_cons,
    List.mem_append]
  tauto

/-- What is chosen before a call: some of the activities, and none of the window. -/
structure Before (as : List ItoaActivity) (s f : Int) (C : Finset Nat) : Prop where
  known : ∀ c ∈ C, c < as.length
  outside : ∀ c ∈ C, ¬ InWindow as s f c

theorem Before.card_le {as : List ItoaActivity} {s f : Int} {C : Finset Nat}
    (h : Before as s f C) : C.card ≤ as.length := by
  rw [← Finset.card_range as.length]
  exact Finset.card_le_card fun c hc => Finset.mem_range.mpr (h.known c hc)

section Gaps

variable {as : List ItoaActivity} {hproper : Proper as} {s f : Int} {C : Finset Nat} {i : Nat}

/-- Before the call for the gap before the activity. -/
theorem Before.left (h : Before as s f C) (hin : (jobs as hproper).Inside s f i) :
    Before as s (activity as i).s (insert i C) := by
  constructor
  · intro c hc
    rcases Finset.mem_insert.mp hc with rfl | hc
    · exact (inside_iff.mp hin).1
    · exact h.known c hc
  · intro c hc hwin
    rcases Finset.mem_insert.mp hc with rfl | hc
    · exact hin.ne_left (inside_iff.mpr ⟨(inside_iff.mp hin).1, hwin⟩) rfl
    · have hgap : (jobs as hproper).Inside s (activity as i).s c :=
        inside_iff.mpr ⟨h.known c hc, hwin⟩
      exact h.outside c hc (inside_iff.mp (hin.left hgap)).2

/-- Before the call for the gap behind it. -/
theorem Before.right {l : List Nat} (h : Before as s f C) (hin : (jobs as hproper).Inside s f i)
    (hl : ∀ x ∈ l, (jobs as hproper).Inside s (activity as i).s x) :
    Before as (activity as i).f f (insert i C ∪ l.toFinset) := by
  constructor
  · intro c hc
    rcases Finset.mem_union.mp hc with hc | hc
    · exact (h.left hin).known c hc
    · exact (inside_iff.mp (hl c (List.mem_toFinset.mp hc))).1
  · intro c hc hwin
    rcases Finset.mem_union.mp hc with hc | hc
    · rcases Finset.mem_insert.mp hc with rfl | hc
      · exact hin.ne_right (inside_iff.mpr ⟨(inside_iff.mp hin).1, hwin⟩) rfl
      · have hgap : (jobs as hproper).Inside (activity as i).f f c :=
          inside_iff.mpr ⟨h.known c hc, hwin⟩
        exact h.outside c hc (inside_iff.mp (hin.right hgap)).2
    · have hleft := hl c (List.mem_toFinset.mp hc)
      exact hin.ne_sides hleft (inside_iff.mpr ⟨(inside_iff.mp hleft).1, hwin⟩) rfl

end Gaps

/-- **A call makes the greedy choice in its window**, behind what is in the output already,
    and the flags say so; by induction on the fuel.  What is chosen before it lies outside
    the window, which the choice itself keeps up for the gaps. -/
theorem maxCompActivity_run {as : List ItoaActivity} (hproper : Proper as) :
    ∀ (fuel : Nat) {s f : Int} {C : Finset Nat} {as' out room : List ItoaActivity},
      Marked as C as' → Before as s f C → NoOverflow as s f →
      as.length - C.card < fuel → as.length - C.card ≤ room.length →
      ∃ as'' l, Greedy (jobs as hproper) (longest as) s f l ∧ Marked as (C ∪ l.toFinset) as''
        ∧ maxCompActivity fuel s f as' as.length (out ++ room) out.length
          = some (as'', out ++ l.map (chosen as) ++ room.drop l.length, out.length + l.length) := by
  intro fuel
  induction fuel with
  | zero => exact fun _ _ _ h => absurd h (Nat.not_lt_zero _)
  | succ fuel ih =>
      intro s f C as' out room hmark hC hspan hfuel hroom
      have hrule := longest_rule hproper
      obtain ⟨as₁, hscan, hnone, hsome⟩ := longestActivity_eq hproper hmark hC.outside hspan
      cases hlong : longest as s f with
      | none =>
          rw [hlong] at hscan
          rw [hnone hlong] at hscan
          refine ⟨as', [], .nil hlong, ?_, ?_⟩
          · rw [List.toFinset_nil, Finset.union_empty]
            exact hmark
          · rw [maxCompActivity_none hscan]
            simp
      | some i =>
          rw [hlong] at hscan
          have hin := hrule.some hlong
          obtain ⟨hi, hwin⟩ := inside_iff.mp hin
          have hlt := hproper _ (activity_mem hi)
          have hsf : s ≠ f := ((hwin.1.trans_lt hlt).trans_le hwin.2).ne
          have hmark₁ := hsome i hlong
          have hleft := hC.left hin
          have hcard : (insert i C).card = C.card + 1 :=
            Finset.card_insert_of_notMem fun h => hC.outside i h hwin
          have hle := hleft.card_le
          obtain ⟨cell, room, rfl⟩ := List.exists_cons_of_length_pos (l := room) (by omega)
          rw [List.length_cons] at hroom
          -- the gap before it, with one cell less in the room
          obtain ⟨as₂, l, hl, hmark₂, hrun₂⟩ := @ih _ _ _ _ (out ++ [chosen as i]) room
            hmark₁ hleft (hspan.mono (Int.le_refl s) (hlt.le.trans hwin.2)) (by omega) (by omega)
          have hinl := hl.inside hrule
          have hright := hC.right hin hinl
          have hcard₂ : (insert i C ∪ l.toFinset).card = (insert i C).card + l.length := by
            refine card_union_toFinset (hl.nodup hrule) fun x hx hxC => ?_
            exact hleft.outside x hxC (inside_iff.mp (hinl x hx)).2
          have hle₂ := hright.card_le
          -- the gap behind it: what the first call took lies before it
          obtain ⟨as₃, r, hr, hmark₃, hrun₃⟩ :=
            @ih _ _ _ _ (out ++ [chosen as i] ++ l.map (chosen as)) (room.drop l.length)
            hmark₂ hright (hspan.mono (hwin.1.trans hlt.le) (Int.le_refl f)) (by omega)
            (by rw [List.length_drop]; omega)
          refine ⟨as₃, i :: (l ++ r), .cons hlong hl hr, ?_, ?_⟩
          · rw [union_cons_append]
            exact hmark₃
          · have hact : as₁[i]? = some (chosen as i) := by
              rw [hmark₁.read i hi, mark_of_mem (Finset.mem_insert_self i C)]
            have hread : as₂[i]? = some (chosen as i) := by
              rw [hmark₂.read i hi,
                mark_of_mem (Finset.mem_union_left _ (Finset.mem_insert_self i C))]
            exact maxCompActivity_join (by omega) hsf (by omega) hscan hact hread hrun₂ hrun₃

/-! ## The output -/

/-- The activities a call puts into an empty output. -/
def output (fuel : Nat) (s f : Int) (as comp : List ItoaActivity) : Option (List ItoaActivity) := do
  let (_, comp, ias) ← maxCompActivity fuel s f as as.length comp 0
  some (comp.take ias)

section Output

variable {as comp : List ItoaActivity} {s f : Int}

/-- The output is the greedy choice. -/
theorem output_eq (hproper : Proper as) (hfree : ∀ x ∈ as, x.chosen = 0)
    (hroom : as.length ≤ comp.length) (hspan : NoOverflow as s f) :
    ∃ l, Greedy (jobs as hproper) (longest as) s f l
      ∧ ∀ fuel, as.length < fuel → output fuel s f as comp = some (l.map (chosen as)) := by
  have hbefore : Before as s f ∅ :=
    ⟨fun c hc => absurd hc (Finset.notMem_empty c), fun c hc => absurd hc (Finset.notMem_empty c)⟩
  have hrun : ∀ fuel, as.length < fuel → ∃ l, Greedy (jobs as hproper) (longest as) s f l
      ∧ output fuel s f as comp = some (l.map (chosen as)) := by
    intro fuel hfuel
    obtain ⟨as', l, hl, -, hrun⟩ := @maxCompActivity_run as hproper fuel s f ∅ as [] comp
      (marked_empty hfree) hbefore hspan (by rw [Finset.card_empty]; omega)
      (by rw [Finset.card_empty]; omega)
    refine ⟨l, hl, ?_⟩
    rw [List.nil_append, List.length_nil, List.nil_append, Nat.zero_add] at hrun
    have htake : (l.map (chosen as) ++ comp.drop l.length).take l.length = l.map (chosen as) := by
      rw [List.take_append_of_le_length (by rw [List.length_map]), List.take_of_length_le]
      rw [List.length_map]
    rw [output, hrun]
    simp only [Option.bind_eq_bind, Option.bind_some, htake]
  -- the choice is the same for every fuel
  obtain ⟨l, hl, -⟩ := hrun (as.length + 1) (Nat.lt_succ_self _)
  refine ⟨l, hl, fun fuel hfuel => ?_⟩
  obtain ⟨l', hl', hout⟩ := hrun fuel hfuel
  rw [hout, hl.unique hl']

/-- With an activity that is too long there is none. -/
theorem output_overflows (hproper : Proper as) (hfree : ∀ x ∈ as, x.chosen = 0)
    (hspan : ¬ NoOverflow as s f) (fuel : Nat) : output fuel s f as comp = none := by
  have hscan := longestActivity_overflows hproper (marked_empty hfree)
    (fun c hc => absurd hc (Finset.notMem_empty c)) hspan
  rw [output]
  cases fuel with
  | zero => rfl
  | succ fuel =>
      rw [longestActivity] at hscan
      rw [maxCompActivity, longestActivity]
      split_ifs at hscan ⊢ with hsf hn
      rw [hscan]
      rfl

end Output

/-! ## What the output is -/

def Apart (x y : ItoaActivity) : Prop := x.f ≤ y.s ∨ y.f ≤ x.s

instance (x y : ItoaActivity) : Decidable (Apart x y) := inferInstanceAs (Decidable (_ ∨ _))

/-- Activities of the list, by their index, that lie in the window and do not overlap. -/
structure Selection (as : List ItoaActivity) (s f : Int) (C : Finset Nat) : Prop where
  known : ∀ i ∈ C, i < as.length
  inside : ∀ i ∈ C, InWindow as s f i
  apart : ∀ i ∈ C, ∀ j ∈ C, i ≠ j → Apart (activity as i) (activity as j)

theorem compatible_iff {as : List ItoaActivity} {hproper : Proper as} {s f : Int}
    {C : Finset Nat} : Compatible (jobs as hproper) s f C ↔ Selection as s f C := by
  constructor
  · intro h
    refine ⟨fun i hi => ?_, fun i hi => ?_, h.apart⟩
    · exact (inside_iff.mp (h.inside i hi)).1
    · exact (inside_iff.mp (h.inside i hi)).2
  · intro h
    exact ⟨fun i hi => inside_iff.mpr ⟨h.known i hi, h.inside i hi⟩, h.apart⟩

/-- The call ends, and its output is a maximal selection: distinct entries of the list, and
    every other activity of the window overlaps one of them. -/
def ChooseLaw (as : List ItoaActivity) (s f : Int) (comp : List ItoaActivity) : Prop :=
  ∃ l : List Nat,
    (∀ fuel, as.length < fuel → output fuel s f as comp = some (l.map (chosen as)))
      ∧ l.Nodup ∧ Selection as s f l.toFinset
      ∧ ∀ i < as.length, InWindow as s f i →
        i ∈ l ∨ ∃ j ∈ l, ¬ Apart (activity as i) (activity as j)

/-- **The output is a maximal selection** exactly if no length of an activity in the window
    overflows. -/
theorem choose_law_iff {as comp : List ItoaActivity} {s f : Int} (hproper : Proper as)
    (hfree : ∀ x ∈ as, x.chosen = 0) (hroom : as.length ≤ comp.length) :
    ChooseLaw as s f comp ↔ NoOverflow as s f := by
  have hrule := longest_rule hproper
  constructor
  · rintro ⟨l, hout, -⟩
    by_contra hspan
    have hnone := hout _ (Nat.lt_succ_self _)
    rw [output_overflows hproper hfree hspan] at hnone
    exact nomatch hnone
  · intro hspan
    obtain ⟨l, hl, hout⟩ := output_eq hproper hfree hroom hspan
    refine ⟨l, hout, hl.nodup hrule, compatible_iff.mp (hl.compatible hrule), ?_⟩
    exact fun i hi hwin => hl.maximal hrule i (inside_iff.mpr ⟨hi, hwin⟩)

theorem choose_law_three :
    ChooseLaw [⟨1, 4, 0⟩, ⟨3, 8, 0⟩, ⟨8, 9, 0⟩] 0 9 (List.replicate 3 ⟨0, 0, 0⟩) := by
  refine (choose_law_iff ?_ ?_ ?_).mpr ?_
  · unfold Proper
    decide
  · decide
  · decide
  · unfold NoOverflow
    decide

/-- The activity from the smallest to the largest `int`. -/
theorem choose_law_overflows :
    ¬ ChooseLaw [⟨intMin, intMax, 0⟩] intMin intMax [⟨0, 0, 0⟩] := by
  rintro ⟨l, hout, -⟩
  have hproper : Proper [⟨intMin, intMax, 0⟩] := by
    unfold Proper
    decide
  have hspan : ¬ NoOverflow [⟨intMin, intMax, 0⟩] intMin intMax := by
    unfold NoOverflow
    decide
  have hnone := hout 2 (by decide)
  rw [output_overflows hproper (by decide) hspan] at hnone
  exact nomatch hnone

/-- The call ends, and no selection has more activities than its output. -/
def SizeLaw (as : List ItoaActivity) (s f : Int) (comp : List ItoaActivity) : Prop :=
  ∃ out : List ItoaActivity, (∀ fuel, as.length < fuel → output fuel s f as comp = some out)
    ∧ IsGreatest { k | ∃ C, Selection as s f C ∧ C.card = k } out.length

theorem isLargest_iff_isGreatest {as : List ItoaActivity} {hproper : Proper as} {s f : Int}
    {C : Finset Nat} (hC : Compatible (jobs as hproper) s f C) :
    IsLargest (jobs as hproper) s f C
      ↔ IsGreatest { k | ∃ C, Selection as s f C ∧ C.card = k } C.card := by
  constructor
  · intro h
    refine ⟨⟨C, compatible_iff.mp hC, rfl⟩, ?_⟩
    rintro k ⟨C', hC', rfl⟩
    exact h.2 C' (compatible_iff.mpr hC')
  · intro h
    exact ⟨hC, fun C' hC' => h.2 ⟨C', compatible_iff.mp hC', rfl⟩⟩

/-- **The output is a largest selection** exactly if no length overflows and, in the window
    and in every gap, the first of the longest activities is in a largest selection of it. -/
theorem size_law_iff {as comp : List ItoaActivity} {s f : Int} (hproper : Proper as)
    (hfree : ∀ x ∈ as, x.chosen = 0) (hroom : as.length ≤ comp.length) :
    SizeLaw as s f comp
      ↔ NoOverflow as s f ∧ GoodChoice (jobs as hproper) (longest as) s f := by
  have hrule := longest_rule hproper
  by_cases hspan : NoOverflow as s f
  · obtain ⟨l, hl, hout⟩ := output_eq hproper hfree hroom hspan
    have hcard : l.toFinset.card = (l.map (chosen as)).length := by
      rw [List.toFinset_card_of_nodup (hl.nodup hrule), List.length_map]
    have hlargest := isLargest_iff_isGreatest (hl.compatible hrule)
    rw [hl.isLargest_iff hrule, hcard] at hlargest
    rw [hlargest]
    constructor
    · rintro ⟨out, hout', hgreat⟩
      have heq := (hout _ (Nat.lt_succ_self _)).symm.trans (hout' _ (Nat.lt_succ_self _))
      rw [Option.some.inj heq]
      exact ⟨hspan, hgreat⟩
    · rintro ⟨-, hgreat⟩
      exact ⟨_, hout, hgreat⟩
  · constructor
    · rintro ⟨out, hout, -⟩
      have hnone := hout _ (Nat.lt_succ_self _)
      rw [output_overflows hproper hfree hspan] at hnone
      exact nomatch hnone
    · exact fun h => absurd h.1 hspan

/-- Where two activities that overlap a third overlap each other, every choice is good. -/
theorem goodChoice_of_overlap {as : List ItoaActivity} (hproper : Proper as) (s f : Int)
    (h : ∀ a b c : Fin as.length,
      ¬ Apart (activity as b) (activity as a) → ¬ Apart (activity as c) (activity as a) →
      b = c ∨ ¬ Apart (activity as b) (activity as c)) :
    GoodChoice (jobs as hproper) (longest as) s f := by
  intro s' f' _ a ha
  have hin := (longest_rule hproper).some ha
  refine exists_isLargest_mem hin fun b c hb hc hba hca => ?_
  rcases h ⟨a, (inside_iff.mp hin).1⟩ ⟨b, (inside_iff.mp hb).1⟩ ⟨c, (inside_iff.mp hc).1⟩ hba hca
    with heq | hno
  · exact .inl (Fin.mk.inj heq)
  · exact .inr hno

/-- The longest of three overlaps one of them. -/
theorem size_law_three :
    SizeLaw [⟨1, 4, 0⟩, ⟨3, 8, 0⟩, ⟨8, 9, 0⟩] 0 9 (List.replicate 3 ⟨0, 0, 0⟩) := by
  have hproper : Proper [⟨1, 4, 0⟩, ⟨3, 8, 0⟩, ⟨8, 9, 0⟩] := by
    unfold Proper
    decide
  refine (size_law_iff hproper ?_ ?_).mpr ⟨?_, goodChoice_of_overlap hproper 0 9 ?_⟩
  · decide
  · decide
  · unfold NoOverflow
    decide
  · decide

/-- The longest of three overlaps both of the others, which do not overlap. -/
theorem size_law_misses :
    ¬ SizeLaw [⟨0, 4, 0⟩, ⟨3, 8, 0⟩, ⟨7, 11, 0⟩] 0 11 (List.replicate 3 ⟨0, 0, 0⟩) := by
  rintro ⟨out, hout, hgreat⟩
  have hone : output 4 0 11 [⟨0, 4, 0⟩, ⟨3, 8, 0⟩, ⟨7, 11, 0⟩] (List.replicate 3 ⟨0, 0, 0⟩)
      = some [⟨3, 8, 1⟩] := by decide
  obtain rfl := Option.some.inj (hone.symm.trans (hout 4 (by decide)))
  have htwo : Selection [⟨0, 4, 0⟩, ⟨3, 8, 0⟩, ⟨7, 11, 0⟩] 0 11 {0, 2} :=
    ⟨by decide, by decide, by decide⟩
  have hle := hgreat.2 ⟨_, htwo, rfl⟩
  exact absurd hle (by decide)

end Activity
