import CppTest.MachineProofs
import Mathlib.Order.RelClasses
import Mathlib.Data.List.Rotate

/-! # Sorting arrays in place

    What the sorting routines of this development share.

    * `swapAt` — exchange two cells, checked; `Exchanged` says what that does to each
      cell.
    * `CellLe` — one cell holds at most what another one holds.
    * `StableSorted gt arr out` — `out` is `arr` in order for `gt`, and elements that
      `gt` does not tell apart stand in it as they stood in `arr`.
    * `StableSorted.merge` — merging two such results, with the left one first at a
      tie, gives one for the array of both halves.

    Nothing here names a program of the repository. -/

namespace Sorting

open Machine

variable {α : Type}

/-! ## Exchanging two cells -/

/-- `swap(l[i], l[j])`; an index outside the array faults. -/
def swapAt (l : List α) (i j : Int) : Option (List α) := do
  let x ← getAt l i
  let y ← getAt l j
  let l ← setAt l i y
  setAt l j x

theorem swapAt_eq {l : List α} {i j : Nat} (hi : i < l.length) (hj : j < l.length) :
    swapAt l i j = some ((l.set i (l.get ⟨j, hj⟩)).set j (l.get ⟨i, hi⟩)) := by
  have hx : getAt l (i : Int) = some (l.get ⟨i, hi⟩) := by
    rw [getAt_natCast]
    exact List.getElem?_eq_getElem hi
  have hy : getAt l (j : Int) = some (l.get ⟨j, hj⟩) := by
    rw [getAt_natCast]
    exact List.getElem?_eq_getElem hj
  simp only [swapAt, hx, hy, Option.bind_eq_bind, Option.bind_some]
  rw [setAt_natCast _ _ hi]
  exact setAt_natCast _ _ (by rw [List.length_set]; exact hj)

/-- `l'` is `l` with the cells `i` and `j` exchanged. -/
structure Exchanged (l l' : List α) (i j : Nat) : Prop where
  perm : l'.Perm l
  fst : l'[i]? = l[j]?
  snd : l'[j]? = l[i]?
  other : ∀ k, k ≠ i → k ≠ j → l'[k]? = l[k]?

theorem swapAt_spec {l : List α} {i j : Nat} (hi : i < l.length) (hj : j < l.length) :
    ∃ l', swapAt l i j = some l' ∧ Exchanged l l' i j := by
  refine ⟨_, swapAt_eq hi hj, List.set_set_perm hi hj, ?_, ?_, ?_⟩
  · by_cases hij : i = j
    · subst hij
      simp [hi]
    · rw [List.getElem?_set_ne (by omega), List.getElem?_set_self hi]
      simp [hj]
  · rw [List.getElem?_set_self (by rw [List.length_set]; exact hj)]
    simp [hi]
  · intro k hki hkj
    rw [List.getElem?_set_ne (by omega), List.getElem?_set_ne (by omega)]

/-- Exchanging the ends of a middle part. -/
theorem swapAt_mid (l : List α) (x : α) (m : List α) (y : α) (r : List α) :
    swapAt (l ++ x :: (m ++ y :: r)) l.length (l.length + 1 + m.length : Nat)
      = some (l ++ y :: (m ++ x :: r)) := by
  have hsplit : ∀ z, l ++ z :: (m ++ y :: r) = (l ++ z :: m) ++ y :: r := by simp
  have hlen : ∀ z, (l.length + 1 + m.length : Nat) = (l ++ z :: m).length := by
    intro z
    simp only [List.length_append, List.length_cons]
    omega
  have hy : getAt (l ++ x :: (m ++ y :: r)) (l.length + 1 + m.length : Nat) = some y := by
    rw [hsplit, hlen x]
    exact getAt_mid _ y r
  have hset : setAt (l ++ y :: (m ++ y :: r)) (l.length + 1 + m.length : Nat) x
      = some (l ++ y :: (m ++ x :: r)) := by
    rw [hsplit, hlen y, setAt_mid]
    simp
  simp only [swapAt, getAt_mid, hy, setAt_mid, hset, Option.bind_eq_bind, Option.bind_some]

/-- Exchanging the first cell of a part with the cell behind the part: that cell comes
    in front and the part is rotated.  The part may be empty. -/
theorem swapAt_rotate (l part : List α) (y : α) (r : List α) :
    swapAt (l ++ (part ++ y :: r)) l.length (l.length + part.length : Nat)
      = some (l ++ y :: (part.rotate 1 ++ r)) := by
  cases part with
  | nil =>
      have hself : swapAt (l ++ y :: r) l.length l.length = some (l ++ y :: r) := by
        simp only [swapAt, getAt_mid, setAt_mid, Option.bind_eq_bind, Option.bind_some]
      simpa using hself
  | cons x m =>
      rw [List.cons_append, List.length_cons, Nat.add_comm m.length 1, ← Nat.add_assoc,
        swapAt_mid, List.rotate_cons_succ, List.rotate_zero]
      simp

theorem pairwise_of_short {l : List α} {R : α → α → Prop} (h : l.length ≤ 1) : l.Pairwise R := by
  cases l with
  | nil => exact List.Pairwise.nil
  | cons x rest =>
      obtain rfl : rest = [] := List.length_eq_zero_iff.mp (by simpa using h)
      exact List.pairwise_singleton R x

theorem reverse_of_short {l : List α} (h : l.length ≤ 1) : l.reverse = l := by
  cases l with
  | nil => rfl
  | cons x rest =>
      obtain rfl : rest = [] := List.length_eq_zero_iff.mp (by simpa using h)
      rfl

/-! ## Comparing cells -/

section Cells

variable [LinearOrder α]

/-- The cells `c` and `d` are inside the array, and `c` holds at most what `d` holds. -/
def CellLe (a : List α) (c d : Nat) : Prop := ∃ x y, a[c]? = some x ∧ a[d]? = some y ∧ x ≤ y

theorem CellLe.refl {a : List α} {c : Nat} (hc : c < a.length) : CellLe a c c :=
  ⟨a[c], a[c], List.getElem?_eq_getElem hc, List.getElem?_eq_getElem hc, le_refl _⟩

theorem CellLe.trans {a : List α} {c d e : Nat} (hcd : CellLe a c d) (hde : CellLe a d e) :
    CellLe a c e := by
  obtain ⟨x, y, hx, hy, hxy⟩ := hcd
  obtain ⟨y', z, hy', hz, hyz⟩ := hde
  obtain rfl : y = y' := Option.some.inj (hy.symm.trans hy')
  exact ⟨x, z, hx, hz, le_trans hxy hyz⟩

/-- The comparison depends on the two cells only. -/
theorem CellLe.congr {a a' : List α} {c c' d d' : Nat} (h : CellLe a c d)
    (hc : a'[c']? = a[c]?) (hd : a'[d']? = a[d]?) : CellLe a' c' d' := by
  obtain ⟨x, y, hx, hy, hxy⟩ := h
  exact ⟨x, y, hc.trans hx, hd.trans hy, hxy⟩

/-- A list whose cells are in order is sorted. -/
theorem pairwise_of_cells {a : List α} (h : ∀ c d, c < d → d < a.length → CellLe a c d) :
    a.Pairwise (· ≤ ·) := by
  rw [List.pairwise_iff_getElem]
  intro c d hc hd hcd
  obtain ⟨x, y, hx, hy, hxy⟩ := h c d hcd hd
  rw [List.getElem?_eq_getElem hc] at hx
  rw [List.getElem?_eq_getElem hd] at hy
  rw [Option.some.inj hx, Option.some.inj hy]
  exact hxy

end Cells

/-! ## Stable sorting -/

section Stable

variable {gt : α → α → Bool}

/-- Elements that the order does not tell apart. -/
def tied (gt : α → α → Bool) (x y : α) : Bool := !gt x y && !gt y x

/-- `out` is a stable sorted permutation of `arr`. -/
structure StableSorted (gt : α → α → Bool) (arr out : List α) : Prop where
  perm : out.Perm arr
  sorted : out.Pairwise (fun a b => gt a b = false)
  stable : ∀ x, out.filter (tied gt x) = arr.filter (tied gt x)

theorem StableSorted.refl_of_length {arr : List α} (h : arr.length ≤ 1) :
    StableSorted gt arr arr :=
  ⟨List.Perm.refl arr, pairwise_of_short h, fun _ => rfl⟩

variable [IsStrictWeakOrder α (fun a b => gt a b = true)]

/-- What is not greater passes on. -/
theorem not_gt_trans {a b c : α} (hab : gt a b = false) (hbc : gt b c = false) :
    gt a c = false := by
  have htrans : ∀ x y z, gt x y = true → gt y z = true → gt x z = true :=
    IsTrans.trans (r := fun a b => gt a b = true)
  by_contra hac
  replace hac : gt a c = true := by simpa using hac
  have hba : ¬ gt b a = true := by
    intro hba
    rw [htrans b a c hba hac] at hbc
    exact Bool.noConfusion hbc
  have hcb : ¬ gt c b = true := by
    intro hcb
    rw [htrans a c b hac hcb] at hab
    exact Bool.noConfusion hab
  have hincomp := @IsStrictWeakOrder.incomp_trans α (fun a b => gt a b = true) _ a b c
    ⟨by simp [hab], hba⟩ ⟨by simp [hbc], hcb⟩
  exact hincomp.1 hac

/-- The order is asymmetric. -/
theorem not_gt_of_gt {a b : α} (h : gt a b = true) : gt b a = false := by
  by_contra hba
  replace hba : gt b a = true := by simpa using hba
  have haa : gt a a = true := IsTrans.trans (r := fun a b => gt a b = true) a b a h hba
  exact Std.Irrefl.irrefl (r := fun a b => gt a b = true) a haa

/-- An element below `b` is tied with nothing that is not below `b`. -/
theorem tied_of_gt {a b x : α} (h : gt a b = true) (hx : tied gt x b = true) :
    tied gt x a = false := by
  cases hax : gt a x with
  | true => simp [tied, hax]
  | false =>
      have hxb : gt x b = false := by
        have := hx
        simp only [tied, Bool.and_eq_true, Bool.not_eq_true'] at this
        exact this.1
      rw [not_gt_trans hax hxb] at h
      exact Bool.noConfusion h

/-- In a merge of two sorted lists the elements of one tie come from the left list
    first. -/
theorem filter_tied_merge (x : α) : ∀ {l r : List α},
    l.Pairwise (fun a b => gt a b = false) →
    (List.merge l r (fun a b => !gt a b)).filter (tied gt x)
      = l.filter (tied gt x) ++ r.filter (tied gt x) := by
  intro l
  induction l with
  | nil => intro r _; simp
  | cons a l ihl =>
      intro r hl
      induction r with
      | nil => simp
      | cons b r ihr =>
          rw [List.cons_merge_cons]
          cases hab : gt a b with
          | false =>
              rw [if_pos (by simp), List.filter_cons, List.filter_cons, ihl hl.of_cons]
              split <;> rfl
          | true =>
              rw [if_neg (by simp), List.filter_cons, ihr, List.filter_cons (x := b)]
              by_cases hx : tied gt x b = true
              · -- the whole left list is above `b`, so none of it is tied with `x`
                have hnone : (a :: l).filter (tied gt x) = [] := by
                  rw [List.filter_eq_nil_iff]
                  intro c hc
                  have hcb : gt c b = true := by
                    by_contra hcb
                    replace hcb : gt c b = false := by simpa using hcb
                    rcases List.mem_cons.mp hc with rfl | hc'
                    · rw [hcb] at hab
                      exact Bool.noConfusion hab
                    · rw [not_gt_trans (List.rel_of_pairwise_cons hl hc') hcb] at hab
                      exact Bool.noConfusion hab
                  rw [tied_of_gt hcb hx]
                  exact Bool.false_ne_true
                rw [hnone]
                simp
              · rw [if_neg hx, if_neg hx]

/-- Merging two stable sorted halves. -/
theorem StableSorted.merge {l r l' r' : List α} (hl : StableSorted gt l l')
    (hr : StableSorted gt r r') :
    StableSorted gt (l ++ r) (List.merge l' r' (fun a b => !gt a b)) := by
  refine ⟨?_, ?_, ?_⟩
  · exact (List.merge_perm_append _).trans (hl.perm.append hr.perm)
  · have hsorted := @List.pairwise_merge α (fun a b => !gt a b)
      (by
        intro a b c hab hbc
        simp only [Bool.not_eq_true'] at hab hbc ⊢
        exact not_gt_trans hab hbc)
      (by
        intro a b
        cases hab : gt a b with
        | false => rfl
        | true => simp [not_gt_of_gt hab])
      l' r' (hl.sorted.imp (by intro a b h; simp [h])) (hr.sorted.imp (by intro a b h; simp [h]))
    exact hsorted.imp (by intro a b h; simpa using h)
  · intro x
    rw [filter_tied_merge x hl.sorted, hl.stable, hr.stable, List.filter_append]

end Stable

end Sorting
