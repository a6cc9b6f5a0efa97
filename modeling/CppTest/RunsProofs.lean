import Mathlib.Data.List.Basic
import Mathlib.Tactic.Common

/-! # Merging runs from the bottom up

    A bottom-up merge sort goes over the list again and again.  Each time it cuts the list into
    runs of length `w`, merges them two by two, and doubles `w`, until one merge was enough.

    * `mergeRuns mrg w l` — one such pass with the merge `mrg`.
    * `Sortedly R w orig cur` — every run of `cur` is related to the run of `orig` at its place.
      `R` is what sorting means, and `mrg` is asked for one thing only: that it merges two
      results into one for the longer list.
    * `Sortedly.pass` — a pass takes runs of `w` to runs of `2 * w`.

    Nothing here names a program of the repository. -/

namespace Runs

variable {α : Type}

/-- One pass: the runs of length `w`, merged two by two. -/
def mergeRuns (mrg : List α → List α → List α) (w : Nat) (l : List α) : List α :=
  if _h : l = [] ∨ w = 0 then l
  else mrg (l.take w) ((l.drop w).take w) ++ mergeRuns mrg w (l.drop (2 * w))
termination_by l.length
decreasing_by
  have := List.length_pos_iff.mpr (not_or.mp _h).1
  have := (not_or.mp _h).2
  rw [List.length_drop]
  omega

section Pass

variable {mrg : List α → List α → List α} {w : Nat}

theorem mergeRuns_nil : mergeRuns mrg w [] = [] := by
  rw [mergeRuns, dif_pos (Or.inl rfl)]

theorem mergeRuns_of_ne_nil (hw : 0 < w) {l : List α} (hl : l ≠ []) :
    mergeRuns mrg w l
      = mrg (l.take w) ((l.drop w).take w) ++ mergeRuns mrg w (l.drop (2 * w)) := by
  rw [mergeRuns, dif_neg (not_or.mpr ⟨hl, by omega⟩)]

/-- Two runs, and what comes behind them. -/
theorem mergeRuns_append (hw : 0 < w) {ps qs rest : List α} (hps : ps ≠ [])
    (hlen : ps.length = w ∨ ps.length ≤ w ∧ qs ++ rest = [])
    (hlen' : qs.length = w ∨ qs.length ≤ w ∧ rest = []) :
    mergeRuns mrg w (ps ++ (qs ++ rest)) = mrg ps qs ++ mergeRuns mrg w rest := by
  have htake : (ps ++ (qs ++ rest)).take w = ps := by
    rcases hlen with hlen | ⟨hlen, hnil⟩
    · rw [← hlen, List.take_left]
    · rw [hnil, List.append_nil, List.take_of_length_le hlen]
  have hdrop : (ps ++ (qs ++ rest)).drop w = qs ++ rest := by
    rcases hlen with hlen | ⟨hlen, hnil⟩
    · rw [← hlen, List.drop_left]
    · rw [hnil, List.append_nil, List.drop_of_length_le hlen]
  have hnext : (qs ++ rest).take w = qs ∧ (qs ++ rest).drop w = rest := by
    rcases hlen' with hlen' | ⟨hlen', rfl⟩
    · rw [← hlen']
      exact ⟨List.take_left, List.drop_left⟩
    · rw [List.append_nil]
      exact ⟨List.take_of_length_le hlen', List.drop_of_length_le hlen'⟩
  have htwo : (ps ++ (qs ++ rest)).drop (2 * w) = rest := by
    rw [Nat.two_mul, ← List.drop_drop, hdrop, hnext.2]
  rw [mergeRuns_of_ne_nil hw (List.append_ne_nil_of_left_ne_nil hps _), htake, hdrop, hnext.1,
    htwo]

/-- What keeps the elements of two runs keeps those of all. -/
theorem mergeRuns_perm (hperm : ∀ l r, (mrg l r).Perm (l ++ r)) (l : List α) :
    (mergeRuns mrg w l).Perm l := by
  fun_induction mergeRuns mrg w l with
  | case1 l h => exact List.Perm.refl _
  | case2 l h ih =>
      have hcut : l.take w ++ (l.drop w).take w ++ l.drop (2 * w) = l := by
        rw [List.append_assoc, Nat.two_mul, ← List.drop_drop, List.take_append_drop,
          List.take_append_drop]
      have hboth := (hperm (l.take w) ((l.drop w).take w)).append ih
      rw [hcut] at hboth
      exact hboth

end Pass

/-! ## What a pass achieves -/

section Sorted

variable {R : List α → List α → Prop} {mrg : List α → List α → List α}

/-- The runs of length `w` of `cur` are those of `orig`, up to `R`; the last may be shorter. -/
inductive Sortedly (R : List α → List α → Prop) (w : Nat) : List α → List α → Prop where
  | last {o c : List α} : c.length ≤ w → R o c → Sortedly R w o c
  | more {o c os cs : List α} : c.length = w → R o c → Sortedly R w os cs →
      Sortedly R w (o ++ os) (c ++ cs)

/-- `mrg` merges: two results give one for the longer list, with the elements of both. -/
structure Merges (R : List α → List α → Prop) (mrg : List α → List α → List α) : Prop where
  short : ∀ l : List α, l.length ≤ 1 → R l l
  empty : ∀ o, R o [] → o = []
  merge : ∀ {o c o' c'}, R o c → R o' c' → R (o ++ o') (mrg c c')
  perm : ∀ l r, (mrg l r).Perm (l ++ r)

/-- Single elements are runs of length 1. -/
theorem Merges.sortedly_one (h : Merges R mrg) (l : List α) : Sortedly R 1 l l := by
  induction l with
  | nil => exact .last (by simp) (h.short [] (by simp))
  | cons a l ih =>
      have := Sortedly.more (c := [a]) rfl (h.short [a] (by simp)) ih
      rwa [List.singleton_append] at this

/-- One run that is long enough is the whole list. -/
theorem Sortedly.whole (h : Merges R mrg) {w : Nat} {orig cur : List α}
    (hruns : Sortedly R w orig cur) (hlen : cur.length ≤ w) : R orig cur := by
  induction hruns with
  | last _ hR => exact hR
  | @more o c os cs hc hR hrest ih =>
      rw [List.length_append] at hlen
      obtain rfl : cs = [] := List.length_eq_zero_iff.mp (by omega)
      have hos : os = [] := h.empty os (ih (by simp))
      rw [hos, List.append_nil, List.append_nil]
      exact hR

theorem Merges.length (h : Merges R mrg) (l r : List α) :
    (mrg l r).length = l.length + r.length := by
  rw [(h.perm l r).length_eq, List.length_append]

/-- A last run that has no partner is merged with nothing. -/
theorem Merges.alone (h : Merges R mrg) {w : Nat} (hw : 0 < w) {o c : List α} (hR : R o c)
    (hlen : c.length ≤ w) : Sortedly R (2 * w) o (mergeRuns mrg w c) := by
  by_cases hc : c = []
  · rw [hc, mergeRuns_nil]
    rw [hc] at hR
    exact .last (Nat.zero_le _) hR
  · have hpass := @mergeRuns_append α mrg w hw c [] [] hc (Or.inr ⟨hlen, rfl⟩)
      (Or.inr ⟨Nat.zero_le _, rfl⟩)
    rw [List.append_nil, List.append_nil, mergeRuns_nil, List.append_nil] at hpass
    have hR' := h.merge hR (h.short [] (Nat.zero_le _))
    rw [List.append_nil] at hR'
    rw [hpass]
    refine .last ?_ hR'
    rw [h.length, List.length_nil]
    omega

/-- **A pass** takes runs of length `w` to runs of length `2 * w`. -/
theorem Sortedly.pass (h : Merges R mrg) {w : Nat} (hw : 0 < w) : ∀ (n : Nat) {orig cur : List α},
    cur.length ≤ n → Sortedly R w orig cur → Sortedly R (2 * w) orig (mergeRuns mrg w cur) := by
  intro n
  induction n using Nat.strongRecOn with
  | ind n ih =>
      intro orig cur hn hruns
      cases hruns with
      | last hlen hR => exact h.alone hw hR hlen
      | @more o c os cs hc hR hrest =>
          have hne : c ≠ [] := List.length_pos_iff.mp (by omega)
          rw [List.length_append] at hn
          -- the run and its partner, which may be the last one
          cases hrest with
          | last hlen hR' =>
              have hpass := @mergeRuns_append α mrg w hw c cs [] hne (Or.inl hc)
                (Or.inr ⟨hlen, rfl⟩)
              rw [List.append_nil, mergeRuns_nil, List.append_nil] at hpass
              rw [hpass]
              refine .last ?_ (h.merge hR hR')
              rw [h.length]
              omega
          | @more o' c' os' cs' hc' hR' hrest' =>
              rw [List.length_append] at hn
              rw [mergeRuns_append hw hne (Or.inl hc) (Or.inl hc'), ← List.append_assoc]
              refine .more ?_ (h.merge hR hR') (ih cs'.length (by omega) (Nat.le_refl _) hrest')
              rw [h.length]
              omega

end Sorted

end Runs
