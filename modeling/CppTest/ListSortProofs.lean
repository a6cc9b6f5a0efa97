import CppTest.ListMergeProofs
import CppTest.SortingProofs

/-! # Merge sort for linked lists (`src/algs/merge_sort_link_list/`)

    * `listsort` serves linear and circular lists, with and without backward links.  It is a
      STABLE sort of all of them, and only links of cells of the list are written
      (`listsort_sorts`).
    * `merge_sort_list` is for linear lists.  Where two keys tie it takes the right one first, so
      it turns ties around (`merge_sort_list_sorts`); from a circular list it never returns
      (`merge_sort_list_endless`). -/

namespace ListSort

open Machine LinkedRing LinkedList Runs Sorting

/-! ## The model -/

/-! ### `listsort` -/

/-- `cmp`: the difference of the members `i`, which may overflow. -/
def cmp (m : Mem Int) (a b : Nat) : Option Int := do
  let x ← m a
  let y ← m b
  int32 (x.key - y.key)

/-- `cmp(p, q) <= 0`. -/
def cmpFirst (m : Mem Int) (p q : Nat) : Option Bool := (cmp m p q).map fun d => d ≤ 0

/-- One go over the list, and whether it was the last. -/
def sortPass (fuel : Nat) (circular double : Bool) (s : Mem Int × Option Nat × Nat) :
    Option (Pass (Mem Int × Option Nat × Nat) (Mem Int × Option Nat)) := do
  let (m, list, insize) := s
  let oldhead := list
  let stop := if circular then oldhead else none
  let step := fun m i q => stepAlong stop m i q 0
  let t ← loop (sweepPass cmpFirst step fuel stop double insize) fuel ⟨m, list, none, none, 0⟩
  let m ← close circular double t.mem t.list t.tail
  if t.nmerges ≤ 1 then some (.done (m, t.list))
  else
    let insize ← int32 (insize * 2)
    some (.next (m, t.list, insize.toNat))

/-- `listsort`: the memory it leaves, and the new first cell. -/
def listsort (fuel : Nat) (circular double : Bool) (m : Mem Int) (list : Option Nat) :
    Option (Mem Int × Option Nat) :=
  if list = none then some (m, none) else loop (sortPass fuel circular double) fuel (m, list, 1)

/-! ### `merge_sort_list` -/

section Model

variable {κ : Type}

/-- `while (right && leftSize<listSize) leftSize++,right=right->next;` with the number of places
    that are left to go. -/
def cutRuns (m : Mem κ) : Nat → Option Nat → Nat → Option (Option Nat × Nat)
  | 0, right, leftSize => some (right, leftSize)
  | _ + 1, none, leftSize => some (none, leftSize)
  | i + 1, some right, leftSize => do
      let right ← nextAt m right
      cutRuns m i right (leftSize + 1)

/-- `right=left,leftSize=0`, and cut. -/
def cutLeft (m : Mem κ) (listSize left : Nat) : Option (Option Nat × Nat) :=
  cutRuns m listSize (some left) 0

/-- `compare(left, right) < 0`. -/
def compareFirst (compare : κ → κ → Option Int) (m : Mem κ) (left right : Nat) : Option Bool := do
  let x ← m left
  let y ← m right
  (compare x.key y.key).map fun d => d < 0

/-- One pass of `do { … } while (numMerges>1)`. -/
def mergeSortPass (compare : κ → κ → Option Int) (fuel : Nat) (s : Mem κ × Option Nat × Nat) :
    Option (Pass (Mem κ × Option Nat × Nat) (Mem κ × Option Nat)) := do
  let (m, list, listSize) := s
  let t ← loop (sweepPass (compareFirst compare) cutLeft fuel none true listSize) fuel
    ⟨m, list, none, none, 0⟩
  let m ← close false true t.mem t.list t.tail
  let listSize ← int32 (listSize * 2)
  if 1 < t.nmerges then some (.next (m, t.list, listSize.toNat)) else some (.done (m, t.list))

/-- `merge_sort_list`: the memory it leaves, and the new first cell. -/
def mergeSortList (compare : κ → κ → Option Int) (fuel : Nat) (m : Mem κ) (list : Option Nat) :
    Option (Mem κ × Option Nat) :=
  match list with
  | none => some (m, none)
  | some a => do
      match ← nextAt m a with
      | none => some (m, some a)
      | some _ => loop (mergeSortPass compare fuel) fuel (m, some a, 1)

end Model

/-! ## `listsort` -/

section Listsort

/-- Stepping along a run: it has `w` cells, or it is the last one. -/
theorem stepAlong_walk {κ : Type} {stop : Option Nat} {m : Mem κ} {y : Option Nat} :
    ∀ {w k a : Nat} {ps : List Nat},
    Walk stop m (some a) (a :: ps) y →
    ((a :: ps).length = w ∨ y = none ∧ (a :: ps).length ≤ w) →
    stepAlong stop m w a k = some (y, k + (a :: ps).length) := by
  intro w
  induction w with
  | zero =>
      intro k a ps _ hw
      rw [List.length_cons] at hw
      omega
  | succ w ih =>
      rintro k a ps ⟨-, z, hz, hwalk⟩ hw
      simp only [stepAlong, hz, Option.bind_eq_bind, Option.bind_some]
      rw [List.length_cons] at hw ⊢
      cases ps with
      | nil =>
          obtain rfl : z = y := hwalk
          cases z with
          | none => rfl
          | some b =>
              -- the run is at its end, the list is not
              rcases hw with hw | ⟨hy, -⟩
              · obtain rfl : w = 0 := by simpa using hw.symm
                rfl
              · exact absurd hy (Option.some_ne_none b)
      | cons b ps =>
          obtain rfl : z = some b := hwalk.1
          have hw' : (b :: ps).length = w ∨ y = none ∧ (b :: ps).length ≤ w := by
            rcases hw with hw | ⟨hy, hw⟩
            · exact Or.inl (by omega)
            · exact Or.inr ⟨hy, by omega⟩
          have hstep := ih (k := k + 1) hwalk hw'
          simp only [hstep, List.length_cons]
          congr 2
          omega

theorem steps_stepAlong {κ : Type} (stop : Option Nat) :
    Steps stop fun (m : Mem κ) i q => stepAlong stop m i q 0 := by
  intro m w a ps y hwalk hlen
  have hstep := stepAlong_walk (k := 0) hwalk hlen
  rwa [Nat.zero_add] at hstep

/-- The cells in the order of their keys. -/
def keyGt (m : Mem Int) (a b : Nat) : Bool := (keyAt m b).getD 0 < (keyAt m a).getD 0

instance (m : Mem Int) : IsStrictWeakOrder Nat (fun a b => keyGt m a b = true) where
  irrefl a := by simp [keyGt]
  trans a b c hab hbc := by
    simp only [keyGt, decide_eq_true_eq] at *
    omega
  incomp_trans a b c hab hbc := by
    simp only [keyGt, decide_eq_true_eq] at *
    omega

/-- `cmp` of two of these cells does not overflow. -/
def Comparable (m : Mem Int) (as : List Nat) : Prop :=
  ∀ a ∈ as, ∀ b ∈ as, ∀ x ∈ keyAt m a, ∀ y ∈ keyAt m b, intMin ≤ x - y ∧ x - y ≤ intMax

/-- Of equal keys the left one is first. -/
theorem merges_keyGt (m : Mem Int) :
    Merges (StableSorted (keyGt m)) fun ps qs => List.merge ps qs fun a b => !keyGt m a b where
  short := fun _ hl => StableSorted.refl_of_length hl
  empty := fun _ ho => List.nil_perm.mp ho.perm
  merge := fun hl hr => hl.merge hr
  perm := fun _ _ => List.merge_perm_append _

theorem decides_cmpFirst {m₀ : Mem Int} {as : List Nat} (hcmp : Comparable m₀ as)
    (hlive : ∀ a ∈ as, ∃ c, m₀ a = some c) :
    Decides cmpFirst (fun a b => !keyGt m₀ a b) m₀ as := by
  intro m hkeys a ha b hb
  obtain ⟨c, hc⟩ := hlive a ha
  obtain ⟨d, hd⟩ := hlive b hb
  obtain ⟨c', hc', hckey⟩ := key_of_keyAt hkeys hc
  obtain ⟨d', hd', hdkey⟩ := key_of_keyAt hkeys hd
  have hfits := hcmp a ha b hb c.key (by rw [keyAt, hc]; rfl) d.key (by rw [keyAt, hd]; rfl)
  have hgt : keyGt m₀ a b = decide (d.key < c.key) := by
    simp only [keyGt, keyAt, hc, hd, Option.map_some, Option.getD_some]
  have hdiff : cmp m a b = some (c.key - d.key) := by
    simp only [cmp, hc', hd', hckey, hdkey, Option.bind_eq_bind, Option.bind_some]
    exact int32_eq hfits.1 hfits.2
  show cmpFirst m a b = some (!keyGt m₀ a b)
  rw [cmpFirst, hdiff, hgt, Option.map_some, ← decide_not]
  congr 2
  apply propext
  omega

/-- A pass of `listsort`. -/
theorem sortPass_spec {circular double : Bool} {m m' : Mem Int} {as cur : List Nat} {w : Nat}
    (h : IsList circular false m as) (hne : as ≠ []) (hcmp : Comparable m as)
    (hlen : (as.length : Int) ≤ intMax)
    (hinv : SortInv (StableSorted (keyGt m)) circular double m as m' cur w) :
    ∃ s m'' out, Gone (StableSorted (keyGt m)) circular double m as w s m'' out
      ∧ ∀ fuel, as.length < fuel → sortPass fuel circular double (m', cur.head?, w)
        = some (if as.length ≤ 2 * w then .done (m'', out.head?)
          else .next (m'', out.head?, 2 * w)) := by
  obtain ⟨s, m'', out, hgone, hgo⟩ := hinv.go (merges_keyGt m) hne
    (steps_stepAlong (stopOf circular cur)) (decides_cmpFirst hcmp fun a ha => h.live ha)
  refine ⟨s, m'', out, hgone, fun fuel hfuel => ?_⟩
  have hstop : (if circular then cur.head? else none) = stopOf circular cur := rfl
  simp only [sortPass, hstop, hgo fuel hfuel, hgone.close, Option.bind_eq_bind,
    Option.bind_some, hgone.merges]
  rw [hgone.head]
  split_ifs with hshort
  · rfl
  · have hdouble : int32 ((w : Int) * 2) = some ((w : Int) * 2) :=
      int32_eq (by rw [intMin]; omega) (by omega)
    rw [hdouble]
    simp only [Option.bind_some]
    congr 4
    omega

/-- **`listsort` sorts.**  On every list, linear or circular, whose keys can be compared and whose
    length is an `int`, the result is the stable sort of the list, linear or circular as before,
    with the backward links that were asked for.  The keys stay, no other cell is written, and
    without `is_double` no backward link is. -/
theorem listsort_sorts {circular : Bool} (double : Bool) {m : Mem Int} {as : List Nat}
    (h : IsList circular false m as) (hcmp : Comparable m as) (hlen : (as.length : Int) ≤ intMax) :
    ∃ m' out, StableSorted (keyGt m) as out ∧ IsList circular double m' out
      ∧ Relinked double m m' as
      ∧ ∀ fuel, as.length < fuel →
        listsort fuel circular double m as.head? = some (m', out.head?) := by
  by_cases hne : as = []
  · subst hne
    exact ⟨m, [], StableSorted.refl_of_length (Nat.zero_le _), isList_nil circular double m,
      Relinked.refl double m [], fun fuel _ => if_pos rfl⟩
  · obtain ⟨m', out, hsorted, hlist, hsame, hrun⟩ :=
      sort_loop (merges_keyGt m) h (sortPass_spec h hne hcmp hlen)
    refine ⟨m', out, hsorted, hlist, hsame, fun fuel hfuel => ?_⟩
    have hhead : as.head? ≠ none := by
      rw [List.head?_eq_some_head hne]
      exact Option.some_ne_none _
    rw [listsort, if_neg hhead, hrun fuel hfuel]

/-- Three cells with two equal keys. -/
def threeCells (circular : Bool) : Mem Int
  | 1 => some ⟨2, none, some 2⟩
  | 2 => some ⟨1, none, some 3⟩
  | 3 => some ⟨2, none, if circular then some 1 else none⟩
  | _ => none

theorem isList_threeCells (circular : Bool) :
    IsList circular false (threeCells circular) [1, 2, 3] where
  nodup := by decide
  next := by simp [nextAt, threeCells]
  last := by
    intro a ha
    obtain rfl : 3 = a := Option.some.inj ha
    cases circular <;> rfl
  prev := fun hd => absurd hd Bool.false_ne_true
  first := fun hd => absurd hd Bool.false_ne_true

theorem keyAt_threeCells {circular : Bool} {a : Nat} {x : Int}
    (hx : x ∈ keyAt (threeCells circular) a) : x = 1 ∨ x = 2 := by
  obtain ⟨c, hc, rfl⟩ := Option.map_eq_some_iff.mp hx
  unfold threeCells at hc
  split at hc <;> simp at hc <;> subst hc <;> simp

theorem listsort_sorts_three :
    ∃ m' out, StableSorted (keyGt (threeCells true)) [1, 2, 3] out ∧ IsList true true m' out
      ∧ Relinked true (threeCells true) m' [1, 2, 3]
      ∧ ∀ fuel, 3 < fuel →
        listsort fuel true true (threeCells true) (some 1) = some (m', out.head?) :=
  listsort_sorts true (isList_threeCells true) (fun a _ b _ x hx y hy => by
    rcases keyAt_threeCells hx with rfl | rfl <;> rcases keyAt_threeCells hy with rfl | rfl <;>
      decide) (by decide)

end Listsort

/-! ## `merge_sort_list` -/

section MergeSortList

variable {κ : Type}

theorem cutRuns_none (m : Mem κ) (w k : Nat) : cutRuns m w none k = some (none, k) := by
  cases w <;> rfl

/-- Without a stop the links are read as they are. -/
theorem follow_none (m : Mem κ) (a : Nat) : follow none m a = nextAt m a := by
  rw [follow]
  cases nextAt m a with
  | none => rfl
  | some x =>
      rw [Option.map_some]
      split_ifs with hx
      · rw [hx]
      · rfl

/-- Both loops that look for the end of a run find it. -/
theorem cutRuns_eq (m : Mem κ) : ∀ (w a k : Nat),
    cutRuns m (w + 1) (some a) k = stepAlong none m (w + 1) a k := by
  intro w
  induction w with
  | zero =>
      intro a k
      simp only [cutRuns, stepAlong, follow_none]
      congr 1
      funext x
      cases x <;> rfl
  | succ w ih =>
      intro a k
      rw [cutRuns, stepAlong, follow_none]
      congr 1
      funext x
      cases x with
      | none => exact cutRuns_none m _ _
      | some b => exact ih b (k + 1)

theorem steps_cutLeft : Steps none (@cutLeft κ) := by
  intro m w a ps y hwalk hlen
  obtain ⟨w, rfl⟩ : ∃ k, w = k + 1 := by
    rw [List.length_cons] at hlen
    exact ⟨w - 1, by omega⟩
  show cutRuns m (w + 1) (some a) 0 = _
  rw [cutRuns_eq]
  exact steps_stepAlong none hwalk hlen

/-- A merge with the right list first at a tie. -/
theorem merge_swap {α : Type} (le : α → α → Bool) : ∀ l r : List α,
    List.merge l r le = List.merge r l fun b a => !le a b := by
  intro l
  induction l with
  | nil => intro r; rw [List.nil_merge, List.merge_right]
  | cons a l ihl =>
      intro r
      induction r with
      | nil => rw [List.nil_merge, List.merge_right]
      | cons b r ihr =>
          rw [List.cons_merge_cons, List.cons_merge_cons]
          cases le a b with
          | true => rw [if_pos rfl, if_neg (by simp), ihl]
          | false => rw [if_neg Bool.false_ne_true, if_pos (by simp), ihr]

variable [Inhabited κ] {gt : κ → κ → Bool} {compare : κ → κ → Option Int}

/-- The cells in the order of their keys. -/
def cellGt (gt : κ → κ → Bool) (m : Mem κ) (a b : Nat) : Bool :=
  gt ((keyAt m a).getD default) ((keyAt m b).getD default)

/-- `compare` tells which of two of these cells is less. -/
def ComparedBy (compare : κ → κ → Option Int) (gt : κ → κ → Bool) (m : Mem κ) (as : List Nat) :
    Prop :=
  ∀ a ∈ as, ∀ b ∈ as, ∀ x ∈ keyAt m a, ∀ y ∈ keyAt m b,
    ∃ d, compare x y = some d ∧ (d < 0 ↔ gt y x = true)

theorem decides_compareFirst {m₀ : Mem κ} {as : List Nat} (hcmp : ComparedBy compare gt m₀ as)
    (hlive : ∀ a ∈ as, ∃ c, m₀ a = some c) :
    Decides (compareFirst compare) (fun a b => cellGt gt m₀ b a) m₀ as := by
  intro m hkeys a ha b hb
  obtain ⟨c, hc⟩ := hlive a ha
  obtain ⟨d, hd⟩ := hlive b hb
  obtain ⟨c', hc', hckey⟩ := key_of_keyAt hkeys hc
  obtain ⟨d', hd', hdkey⟩ := key_of_keyAt hkeys hd
  obtain ⟨x, hx, hless⟩ := hcmp a ha b hb c.key (by rw [keyAt, hc]; rfl) d.key
    (by rw [keyAt, hd]; rfl)
  have hgt : cellGt gt m₀ b a = gt d.key c.key := by
    simp only [cellGt, keyAt, hc, hd, Option.map_some, Option.getD_some]
  show compareFirst compare m a b = some (cellGt gt m₀ b a)
  simp only [compareFirst, hc', hd', hckey, hdkey, hx, Option.bind_eq_bind, Option.bind_some,
    Option.map_some, hgt, hless, Bool.decide_eq_true]

variable [IsStrictWeakOrder κ (fun x y => gt x y = true)]

instance (m : Mem κ) : IsStrictWeakOrder Nat (fun a b => cellGt gt m a b = true) where
  irrefl _ := irrefl_of (fun x y => gt x y = true) _
  trans _ _ _ := trans_of (fun x y => gt x y = true)
  incomp_trans _ _ _ := @IsStrictWeakOrder.incomp_trans κ (fun x y => gt x y = true) _ _ _ _

/-- Of equal keys the right one is first, so every merge turns them around. -/
theorem merges_cellGt (m : Mem κ) :
    Merges (fun o c => StableSorted (cellGt gt m) o.reverse c)
      fun ps qs => List.merge ps qs fun a b => cellGt gt m b a where
  short := by
    intro l hl
    have hrev : l.reverse = l := by
      match l, hl with
      | [], _ => rfl
      | [_], _ => rfl
    rw [hrev]
    exact StableSorted.refl_of_length hl
  empty := by
    intro o ho
    have := List.nil_perm.mp ho.perm
    exact List.reverse_eq_nil_iff.mp this
  merge := by
    intro o c o' c' hl hr
    rw [List.reverse_append, merge_swap]
    exact hr.merge hl
  perm := fun _ _ => List.merge_perm_append _

/-- A pass of `merge_sort_list`. -/
theorem mergeSortPass_spec {m m' : Mem κ} {as cur : List Nat} {w : Nat}
    (h : IsList false false m as) (hne : as ≠ []) (hcmp : ComparedBy compare gt m as)
    (hlen : as.length ≤ 2 ^ 30)
    (hinv : SortInv (fun o c => StableSorted (cellGt gt m) o.reverse c) false true m as m' cur w) :
    ∃ s m'' out,
      Gone (fun o c => StableSorted (cellGt gt m) o.reverse c) false true m as w s m'' out
      ∧ ∀ fuel, as.length < fuel → mergeSortPass compare fuel (m', cur.head?, w)
        = some (if as.length ≤ 2 * w then .done (m'', out.head?)
          else .next (m'', out.head?, 2 * w)) := by
  obtain ⟨s, m'', out, hgone, hgo⟩ := hinv.go (merges_cellGt m) hne steps_cutLeft
    (decides_compareFirst hcmp fun a ha => h.live ha)
  refine ⟨s, m'', out, hgone, fun fuel hfuel => ?_⟩
  have hdouble : int32 ((w : Int) * 2) = some ((w : Int) * 2) := by
    refine int32_eq (by rw [intMin]; omega) ?_
    have hsize := hinv.size
    rw [intMax]
    omega
  have hstop : (none : Option Nat) = stopOf false cur := rfl
  have hmerges : 1 < s.nmerges ↔ ¬ as.length ≤ 2 * w := by
    rw [← hgone.merges]
    exact Nat.not_le.symm
  rw [← hstop] at hgo
  simp only [mergeSortPass, hgo fuel hfuel, hgone.close, hdouble, Option.bind_eq_bind,
    Option.bind_some, hmerges]
  rw [hgone.head]
  split_ifs with hshort
  · rfl
  · congr 4
    omega

/-- **`merge_sort_list` sorts, and turns ties around.**  On every linear list the result is the
    stable sort of the REVERSED list: cells whose keys tie come in the opposite order.  Of a list
    of two cells or more it makes one with backward links; the keys stay, and no other cell is
    written.  (`listSize` is doubled after the last pass too: it needs room for one more.) -/
theorem merge_sort_list_sorts {m : Mem κ} {as : List Nat} (h : IsList false false m as)
    (hcmp : ComparedBy compare gt m as) (hlen : as.length ≤ 2 ^ 30) :
    ∃ m' out, StableSorted (cellGt gt m) as.reverse out
      ∧ IsList false (decide (2 ≤ as.length)) m' out ∧ Relinked true m m' as
      ∧ ∀ fuel, as.length < fuel →
        mergeSortList compare fuel m as.head? = some (m', out.head?) := by
  match as, h with
  | [], h =>
      exact ⟨m, [], StableSorted.refl_of_length (Nat.zero_le _), h, Relinked.refl true m [],
        fun _ _ => rfl⟩
  | [a], h =>
      have hnext : nextAt m a = some none := h.last a rfl
      refine ⟨m, [a], StableSorted.refl_of_length (Nat.le_refl 1), h, Relinked.refl true m [a],
        fun _ _ => ?_⟩
      simp only [mergeSortList, List.head?_cons, hnext, Option.bind_eq_bind, Option.bind_some]
  | a :: b :: as, h =>
      have hnext : nextAt m a = some (some b) := (List.isChain_cons_cons.mp h.next).1
      obtain ⟨m', out, hsorted, hlist, hsame, hrun⟩ := sort_loop (merges_cellGt m) h
        (mergeSortPass_spec h (List.cons_ne_nil _ _) hcmp hlen)
      have htwo : decide (2 ≤ (a :: b :: as).length) = true := by simp
      rw [htwo]
      refine ⟨m', out, hsorted, hlist, hsame, fun fuel hfuel => ?_⟩
      simp only [mergeSortList, List.head?_cons, hnext, Option.bind_eq_bind, Option.bind_some]
      exact hrun fuel hfuel

end MergeSortList

/-- `cmp` of the program. -/
def nodeCmp (x y : Int) : Option Int := int32 (x - y)

def intAfter (x y : Int) : Bool := y < x

instance : IsStrictWeakOrder Int (fun x y => intAfter x y = true) where
  irrefl a := by simp [intAfter]
  trans a b c hab hbc := by
    simp only [intAfter, decide_eq_true_eq] at *
    omega
  incomp_trans a b c hab hbc := by
    simp only [intAfter, decide_eq_true_eq] at *
    omega

theorem merge_sort_list_sorts_three :
    ∃ m' out, StableSorted (cellGt intAfter (threeCells false)) [3, 2, 1] out
      ∧ IsList false true m' out ∧ Relinked true (threeCells false) m' [1, 2, 3]
      ∧ ∀ fuel, 3 < fuel →
        mergeSortList nodeCmp fuel (threeCells false) (some 1) = some (m', out.head?) :=
  merge_sort_list_sorts (isList_threeCells false) (fun a _ b _ x hx y hy => by
    refine ⟨x - y, ?_, ?_⟩
    · rcases keyAt_threeCells hx with rfl | rfl <;>
        rcases keyAt_threeCells hy with rfl | rfl <;> rfl
    · simp only [intAfter, decide_eq_true_eq]
      omega) (by decide)

/-! ### On a circular list -/

section Endless

variable {κ : Type} {as : List Nat}

/-- No link among the cells `as` is null, and none leads out. -/
def Closed (m : Mem κ) (as : List Nat) : Prop := ∀ a ∈ as, ∃ b ∈ as, nextAt m a = some (some b)

theorem IsList.closed {m : Mem κ} (h : IsList true false m as) : Closed m as := by
  intro a ha
  obtain ⟨l, r, rfl⟩ := List.append_of_mem ha
  cases r with
  | nil =>
      obtain ⟨b, hb⟩ : ∃ b, (l ++ [a]).head? = some b :=
        ⟨_, List.head?_eq_some_head (List.append_ne_nil_of_right_ne_nil _ (List.cons_ne_nil _ _))⟩
      have hlast := h.last a (List.getLast?_concat ..)
      rw [if_pos rfl, hb] at hlast
      exact ⟨b, List.mem_of_head? hb, hlast⟩
  | cons b r =>
      have hnext := (List.isChain_append.mp h.next).2.1
      exact ⟨b, by simp, (List.isChain_cons_cons.mp hnext).1⟩

theorem Closed.setNext {m m' : Mem κ} {t e : Nat} (h : Closed m as) (he : e ∈ as)
    (hset : LinkedList.setNext m t (some e) = some m') : Closed m' as := by
  obtain ⟨c, hc, -⟩ := Option.bind_eq_some_iff.mp hset
  obtain ⟨m'', hset', hm''⟩ := setNext_spec hc (some e)
  obtain rfl : m'' = m' := Option.some.inj (hset'.symm.trans hset)
  intro a ha
  rw [hm''.next]
  split_ifs with hat
  · exact ⟨e, he, rfl⟩
  · exact h a ha

theorem Closed.setPrev {m m' : Mem κ} {e : Nat} {x : Option Nat} (h : Closed m as)
    (hset : LinkedList.setPrev m e x = some m') : Closed m' as := by
  obtain ⟨c, hc, -⟩ := Option.bind_eq_some_iff.mp hset
  obtain ⟨m'', hset', hm''⟩ := setPrev_spec hc x
  obtain rfl : m'' = m' := Option.some.inj (hset'.symm.trans hset)
  intro a ha
  rw [hm''.next]
  exact h a ha

theorem Closed.emit {m m' : Mem κ} {list list' tail : Option Nat} {e : Nat} (h : Closed m as)
    (he : e ∈ as) (hemit : LinkedList.emit true m list tail e = some (m', list')) :
    Closed m' as := by
  obtain ⟨⟨m₁, list₁⟩, hhang, hprev⟩ := Option.bind_eq_some_iff.mp hemit
  obtain ⟨m₂, hset, heq⟩ := Option.map_eq_some_iff.mp (show (LinkedList.setPrev m₁ e tail).map
    (fun m => (m, list₁)) = some (m', list') from hprev)
  obtain ⟨rfl, rfl⟩ := Prod.mk.inj heq
  refine Closed.setPrev ?_ hset
  cases tail with
  | none =>
      obtain ⟨rfl, -⟩ := Prod.mk.inj (Option.some.inj hhang)
      exact h
  | some t =>
      obtain ⟨m₃, hset₃, heq₃⟩ := Option.map_eq_some_iff.mp hhang
      obtain ⟨rfl, -⟩ := Prod.mk.inj heq₃
      exact h.setNext he hset₃

/-- While two runs are merged: both pointers are at cells of the ring. -/
structure Inside (as : List Nat) (s : Merging κ) : Prop where
  closed : Closed s.mem as
  p : ∃ a ∈ as, s.p = some a
  q : ∃ b ∈ as, s.q = some b

theorem Inside.take {s s' : Merging κ} {e : Nat} (h : Inside as s)
    (htake : takeP none s = some (e, s') ∨ takeQ none s = some (e, s')) :
    Inside as s' ∧ e ∈ as := by
  obtain ⟨hclosed, ⟨a, ha, hp⟩, b, hb, hq⟩ := h
  rcases htake with htake | htake
  · obtain ⟨c, hc, hnext⟩ := hclosed a ha
    simp only [takeP, hp, follow_none, hnext, Option.bind_eq_bind, Option.bind_some] at htake
    obtain ⟨rfl, rfl⟩ := Prod.mk.inj (Option.some.inj htake)
    exact ⟨⟨hclosed, ⟨c, hc, rfl⟩, b, hb, hq⟩, ha⟩
  · obtain ⟨c, hc, hnext⟩ := hclosed b hb
    simp only [takeQ, hq, follow_none, hnext, Option.bind_eq_bind, Option.bind_some] at htake
    obtain ⟨rfl, rfl⟩ := Prod.mk.inj (Option.some.inj htake)
    exact ⟨⟨hclosed, ⟨a, ha, hp⟩, c, hc, rfl⟩, hb⟩

/-- The next cell is taken from one of the two runs. -/
theorem choose_cases {first : Mem κ → Nat → Nat → Option Bool} {stop : Option Nat}
    {s : Merging κ} {r : Nat × Merging κ} (h : choose first stop s = some r) :
    takeP stop s = some r ∨ takeQ stop s = some r := by
  rw [choose] at h
  split_ifs at h with hp hq
  · exact Or.inr h
  · exact Or.inl h
  · obtain ⟨p, -, h⟩ := Option.bind_eq_some_iff.mp h
    obtain ⟨q, -, h⟩ := Option.bind_eq_some_iff.mp h
    obtain ⟨b, -, h⟩ := Option.bind_eq_some_iff.mp h
    cases b with
    | true => exact Or.inl h
    | false => exact Or.inr h

theorem Inside.pass {first : Mem κ → Nat → Nat → Option Bool} {s s' : Merging κ}
    (h : Inside as s) (hpass : mergePass first none true s = some (.next s')) : Inside as s' := by
  rw [mergePass] at hpass
  split_ifs at hpass with hgo
  · obtain ⟨⟨e, s₁⟩, hchoose, hpass⟩ := Option.bind_eq_some_iff.mp hpass
    obtain ⟨s₂, hadd, heq⟩ := Option.bind_eq_some_iff.mp hpass
    obtain rfl : s₂ = s' := by simpa using heq
    obtain ⟨h₁, he⟩ := h.take (choose_cases hchoose)
    obtain ⟨⟨m, list⟩, hemit, hs₂⟩ := Option.bind_eq_some_iff.mp hadd
    obtain rfl := Option.some.inj hs₂
    exact ⟨h₁.closed.emit he hemit, h₁.p, h₁.q⟩
  · simp at hpass

/-- Looking for the end of a run ends inside the ring. -/
theorem Closed.cutRuns {m : Mem κ} (h : Closed m as) : ∀ (w : Nat) {a : Nat} (k : Nat), a ∈ as →
    ∃ b ∈ as, ∃ k', ListSort.cutRuns m w (some a) k = some (some b, k') := by
  intro w
  induction w with
  | zero => exact fun {a} k ha => ⟨a, ha, k, rfl⟩
  | succ w ih =>
      intro a k ha
      obtain ⟨b, hb, hnext⟩ := h a ha
      obtain ⟨c, hc, k', hcut⟩ := ih (k + 1) hb
      refine ⟨c, hc, k', ?_⟩
      simp only [ListSort.cutRuns, hnext, Option.bind_eq_bind, Option.bind_some, hcut]

/-- **One pass** of the loop over a ring: it does not come to an end. -/
theorem sweepPass_endless {first : Mem κ → Nat → Nat → Option Bool} {fuel w : Nat} {s : Sweep κ}
    (h : Closed s.mem as) (hp : ∃ a ∈ as, s.p = some a) :
    sweepPass first cutLeft fuel none true w s = none
      ∨ ∃ s', sweepPass first cutLeft fuel none true w s = some (.next s')
        ∧ Closed s'.mem as ∧ ∃ a ∈ as, s'.p = some a := by
  obtain ⟨a, ha, hp⟩ := hp
  obtain ⟨b, hb, k, hcut⟩ := h.cutRuns w 0 ha
  simp only [sweepPass, hp, cutLeft, hcut, Option.bind_eq_bind, Option.bind_some, mergeTwo]
  cases hloop : loop (mergePass first none true) fuel
    ⟨s.mem, some a, k, some b, w, s.list, s.tail⟩ with
  | none => exact Or.inl rfl
  | some t =>
      have hinside : Inside as t := by
        refine @loop_keeps _ _ (mergePass first none true) (Inside as) (Inside as) ?_ ?_ fuel _ _
          ⟨h, ⟨a, ha, rfl⟩, b, hb, rfl⟩ hloop
        · intro s s' hs hpass
          exact hs.pass hpass
        · intro s r hs hpass
          rw [mergePass] at hpass
          split_ifs at hpass with hgo
          · obtain ⟨r₁, -, hpass⟩ := Option.bind_eq_some_iff.mp hpass
            obtain ⟨s₂, -, heq⟩ := Option.bind_eq_some_iff.mp hpass
            simp at heq
          · obtain rfl : s = r := by simpa using hpass
            exact hs
      exact Or.inr ⟨_, rfl, hinside.closed, hinside.q⟩

/-- **`merge_sort_list` never returns from a circular list**, whatever it compares with: it looks
    for a null link, and all that it writes on its way are links to cells of the ring.  The
    lists of `klist.h`, which the program calls it with, are circular. -/
theorem merge_sort_list_endless (compare : κ → κ → Option Int) {m : Mem κ}
    (h : IsList true false m as) (hne : as ≠ []) (fuel : Nat) :
    mergeSortList compare fuel m as.head? = none := by
  obtain ⟨a, ha⟩ : ∃ a, as.head? = some a := ⟨_, List.head?_eq_some_head hne⟩
  have hmem := List.mem_of_head? ha
  obtain ⟨b, hb, hnext⟩ := IsList.closed h a hmem
  have hpass : mergeSortPass compare fuel (m, some a, 1) = none := by
    have hsweep := @loop_never _ _ (sweepPass (compareFirst compare) cutLeft fuel none true 1)
      (fun s => Closed s.mem as ∧ ∃ a ∈ as, s.p = some a)
      (fun s hs => sweepPass_endless hs.1 hs.2) fuel ⟨m, some a, none, none, 0⟩
      ⟨IsList.closed h, a, hmem, rfl⟩
    simp only [mergeSortPass, hsweep]
    rfl
  simp only [mergeSortList, ha, hnext, Option.bind_eq_bind, Option.bind_some]
  cases fuel with
  | zero => rfl
  | succ fuel => simp only [loop, hpass]

theorem merge_sort_list_endless_three :
    mergeSortList nodeCmp 100 (threeCells true) (some 1) = none :=
  merge_sort_list_endless nodeCmp (isList_threeCells true) (List.cons_ne_nil _ _) 100

end Endless

end ListSort
