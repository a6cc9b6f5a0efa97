import Mathlib.Algebra.Ring.Nat
import Mathlib.Data.List.Basic
import Mathlib.Data.List.Perm.Basic
import Mathlib.Logic.Function.Basic
import Mathlib.Tactic.Common

/-! # Key-indexed counting

    With keys below `R`, elements are sorted without comparing them: the elements with the key `r`
    belong behind those with a smaller key, in the order they came in.

    * `buckets key R xs`: the result.  It has the elements of `xs` (`buckets_perm`), and those
      with one key in the order of `xs` (`filter_buckets`), so it is the stable sort.
    * `Filling key R xs ys zs`: the array `zs` when `ys`, a beginning of `xs`, has been put into its
      places.  `Filling.put` is one element more.

    Nothing here names a program of the repository. -/

namespace KeyIndexed

variable {α : Type} (key : α → Nat)

/-- The elements with the key `r`. -/
def bucket (xs : List α) (r : Nat) : List α := xs.filter fun x => key x = r

/-- The elements with keys below `R`, by their keys. -/
def buckets (R : Nat) (xs : List α) : List α := (List.range R).flatMap (bucket key xs)

theorem mem_bucket {xs : List α} {r : Nat} {x : α} : x ∈ bucket key xs r ↔ x ∈ xs ∧ key x = r := by
  rw [bucket, List.mem_filter, decide_eq_true_iff]

theorem buckets_succ (R : Nat) (xs : List α) :
    buckets key (R + 1) xs = buckets key R xs ++ bucket key xs R := by
  rw [buckets, List.range_succ, List.flatMap_append, List.flatMap_singleton]
  rfl

theorem mem_buckets {R : Nat} {xs : List α} {x : α} :
    x ∈ buckets key R xs ↔ x ∈ xs ∧ key x < R := by
  rw [buckets, List.mem_flatMap]
  constructor
  · rintro ⟨r, hr, hx⟩
    obtain ⟨hmem, rfl⟩ := (mem_bucket key).mp hx
    exact ⟨hmem, List.mem_range.mp hr⟩
  · rintro ⟨hmem, hlt⟩
    exact ⟨key x, List.mem_range.mpr hlt, (mem_bucket key).mpr ⟨hmem, rfl⟩⟩

theorem buckets_perm_filter (xs : List α) (R : Nat) :
    (buckets key R xs).Perm (xs.filter fun x => key x < R) := by
  induction R with
  | zero =>
      have hnone : (xs.filter fun x => key x < 0) = [] := by
        rw [List.filter_eq_nil_iff]
        simp
      rw [hnone]
      exact List.Perm.refl _
  | succ R ih =>
      rw [buckets_succ]
      refine (ih.append_right _).trans ?_
      have hsplit := List.filter_append_perm (fun x => decide (key x < R))
        (xs.filter fun x => key x < R + 1)
      rw [List.filter_filter, List.filter_filter] at hsplit
      have hlow : (xs.filter fun x => decide (key x < R))
          = xs.filter fun x => decide (key x < R) && decide (key x < R + 1) :=
        List.filter_congr fun x _ => by
          rw [Bool.eq_iff_iff, Bool.and_eq_true]
          simp only [decide_eq_true_iff]
          omega
      have hlast : bucket key xs R
          = xs.filter fun x => !decide (key x < R) && decide (key x < R + 1) :=
        List.filter_congr fun x _ => by
          rw [Bool.eq_iff_iff, Bool.and_eq_true, Bool.not_eq_true', decide_eq_false_iff_not]
          simp only [decide_eq_true_iff]
          omega
      rw [hlow, hlast]
      exact hsplit

theorem buckets_perm {R : Nat} {xs : List α} (h : ∀ x ∈ xs, key x < R) :
    (buckets key R xs).Perm xs := by
  have hall : (xs.filter fun x => key x < R) = xs :=
    List.filter_eq_self.mpr fun x hx => decide_eq_true (h x hx)
  have hperm := buckets_perm_filter key xs R
  rwa [hall] at hperm

/-- **Stability.** -/
theorem filter_buckets {R r : Nat} (hr : r < R) (xs : List α) :
    bucket key (buckets key R xs) r = bucket key xs r := by
  have hother : ∀ s, s ≠ r → bucket key (bucket key xs s) r = [] := by
    intro s hs
    refine List.filter_eq_nil_iff.mpr fun x hx => ?_
    rw [decide_eq_true_iff, ((mem_bucket key).mp hx).2]
    exact hs
  have hself : bucket key (bucket key xs r) r = bucket key xs r :=
    List.filter_eq_self.mpr fun x hx => decide_eq_true ((mem_bucket key).mp hx).2
  have hsmall : ∀ R ≤ r, bucket key (buckets key R xs) r = [] := by
    intro R hR
    refine List.filter_eq_nil_iff.mpr fun x hx => ?_
    have := ((mem_buckets key).mp hx).2
    rw [decide_eq_true_iff]
    omega
  induction R with
  | zero => exact absurd hr (Nat.not_lt_zero r)
  | succ R ih =>
      have happ : bucket key (buckets key (R + 1) xs) r
          = bucket key (buckets key R xs) r ++ bucket key (bucket key xs R) r := by
        rw [buckets_succ, bucket, List.filter_append]
        rfl
      rw [happ]
      by_cases heq : R = r
      · rw [heq, hsmall r (Nat.le_refl r), hself]
        rfl
      · rw [ih (by omega), hother R heq, List.append_nil]

/-- A relation that smaller keys have to larger ones is left to the single buckets. -/
theorem buckets_pairwise {R : Nat} {xs : List α} {S : α → α → Prop}
    (h : ∀ x ∈ xs, ∀ y ∈ xs, key x < key y → S x y) :
    (buckets key R xs).Pairwise S ↔ ∀ r < R, (bucket key xs r).Pairwise S := by
  rw [buckets, List.pairwise_flatMap]
  simp only [List.mem_range, and_iff_left_iff_imp]
  intro _
  refine List.pairwise_lt_range.imp fun {r s} hrs x hx y hy => ?_
  obtain ⟨hxmem, rfl⟩ := (mem_bucket key).mp hx
  obtain ⟨hymem, rfl⟩ := (mem_bucket key).mp hy
  exact h x hxmem y hymem hrs

/-- The result is in the order of the keys. -/
theorem buckets_sorted (R : Nat) (xs : List α) :
    (buckets key R xs).Pairwise fun x y => key x ≤ key y := by
  refine (buckets_pairwise key fun x _ y _ h => Nat.le_of_lt h).mpr fun r _ => ?_
  refine List.pairwise_of_forall_mem_list fun x hx y hy => ?_
  exact Nat.le_of_eq (((mem_bucket key).mp hx).2.trans ((mem_bucket key).mp hy).2.symm)

/-! ## Filling the places -/

/-- The places of the elements `ys` of `xs` are filled, bucket by bucket. -/
def Filling (R : Nat) (xs ys zs : List α) : Prop :=
  ∃ junk : Nat → List α, zs = (List.range R).flatMap (fun r => bucket key ys r ++ junk r)
    ∧ ∀ r < R, (bucket key ys r).length + (junk r).length = (bucket key xs r).length

/-- Every list can be cut into parts of given lengths. -/
theorem exists_parts (len : Nat → Nat) : ∀ (R : Nat) (zs : List α),
    zs.length = ((List.range R).map len).sum →
    ∃ part : Nat → List α, zs = (List.range R).flatMap part ∧ ∀ r < R, (part r).length = len r := by
  intro R
  induction R with
  | zero =>
      intro zs hlen
      exact ⟨fun _ => [], List.length_eq_zero_iff.mp hlen,
        fun r hr => absurd hr (Nat.not_lt_zero r)⟩
  | succ R ih =>
      intro zs hlen
      rw [List.range_succ, List.map_append, List.sum_append, List.map_singleton,
        List.sum_singleton] at hlen
      obtain ⟨part, hparts, hlens⟩ := ih (zs.take ((List.range R).map len).sum) (by
        rw [List.length_take]
        omega)
      refine ⟨Function.update part R (zs.drop ((List.range R).map len).sum), ?_, fun r hr => ?_⟩
      · have hsame : (List.range R).flatMap (Function.update part R
            (zs.drop ((List.range R).map len).sum)) = (List.range R).flatMap part := by
          refine List.flatMap_congr fun r hr => ?_
          rw [Function.update_of_ne (Nat.ne_of_lt (List.mem_range.mp hr))]
        rw [List.range_succ, List.flatMap_append, hsame, ← hparts, List.flatMap_singleton,
          Function.update_self, List.take_append_drop]
      · by_cases heq : r = R
        · subst heq
          rw [Function.update_self, List.length_drop]
          omega
        · rw [Function.update_of_ne heq]
          exact hlens r (by omega)

theorem length_buckets (R : Nat) (xs : List α) :
    (buckets key R xs).length = ((List.range R).map fun r => (bucket key xs r).length).sum := by
  rw [buckets, List.length_flatMap]

/-- At first there may be anything in the array. -/
theorem filling_nil {R : Nat} {xs zs : List α} (h : ∀ x ∈ xs, key x < R)
    (hlen : zs.length = xs.length) : Filling key R xs [] zs := by
  have hsum : zs.length = ((List.range R).map fun r => (bucket key xs r).length).sum := by
    rw [← length_buckets, (buckets_perm key h).length_eq, hlen]
  obtain ⟨part, hzs, hpart⟩ := exists_parts _ R zs hsum
  refine ⟨part, hzs, fun r hr => ?_⟩
  rw [hpart r hr]
  exact Nat.zero_add _

/-- When all places are filled, the array is the result. -/
theorem Filling.done {R : Nat} {xs zs : List α} (h : Filling key R xs xs zs) :
    zs = buckets key R xs := by
  obtain ⟨junk, rfl, hlen⟩ := h
  refine List.flatMap_congr fun r hr => ?_
  have hnil : junk r = [] := by
    refine List.length_eq_zero_iff.mp ?_
    have := hlen r (List.mem_range.mp hr)
    omega
  rw [hnil, List.append_nil]

theorem bucket_append (xs ys : List α) (r : Nat) :
    bucket key (xs ++ ys) r = bucket key xs r ++ bucket key ys r := List.filter_append ..

theorem bucket_singleton (x : α) : bucket key [x] (key x) = [x] :=
  List.filter_eq_self.mpr fun _ hy => by rw [List.mem_singleton.mp hy, decide_eq_true rfl]

theorem bucket_singleton_of_ne {x : α} {r : Nat} (h : key x ≠ r) : bucket key [x] r = [] :=
  List.filter_eq_nil_iff.mpr fun _ hy => by
    rw [List.mem_singleton.mp hy, decide_eq_true_iff]
    exact h

/-- The place of the next element `x`: behind the smaller keys, and behind the elements with its
    key that came before it. -/
def place (xs ys : List α) (r : Nat) : Nat :=
  (buckets key r xs).length + (bucket key ys r).length

/-- **One element** is put into its place. -/
theorem Filling.put {R : Nat} {xs ys zs tail : List α} {x : α} (h : Filling key R xs ys zs)
    (hxs : ys ++ x :: tail = xs) (hx : key x < R) :
    place key xs ys (key x) < zs.length ∧
      Filling key R xs (ys ++ [x]) (zs.set (place key xs ys (key x)) x) := by
  obtain ⟨junk, hzs, hlen⟩ := h
  have hlenx := hlen (key x) hx
  have hbucket : bucket key xs (key x)
      = bucket key ys (key x) ++ x :: bucket key tail (key x) := by
    rw [← hxs, bucket_append, ← List.singleton_append, bucket_append, bucket_singleton]
    rfl
  rw [hbucket, List.length_append, List.length_cons] at hlenx
  obtain ⟨y, rest, hjunk⟩ : ∃ y rest, junk (key x) = y :: rest := by
    cases hj : junk (key x) with
    | nil =>
        rw [hj, List.length_nil] at hlenx
        omega
    | cons y rest => exact ⟨y, rest, rfl⟩
  have hrange : List.range R
      = List.range (key x) ++ key x :: List.range' (key x + 1) (R - key x - 1) := by
    have hR : R = key x + (R - key x - 1 + 1) := by omega
    rw [List.range_eq_range', List.range_eq_range']
    conv_lhs => rw [hR]
    rw [← List.range'_append_1, Nat.zero_add, List.range'_succ]
  -- what stands in front of the bucket of `x`
  have hfront : ((List.range (key x)).flatMap fun r => bucket key ys r ++ junk r).length
      = (buckets key (key x) xs).length := by
    rw [List.length_flatMap, length_buckets]
    refine congrArg List.sum (List.map_congr_left fun r hr => ?_)
    rw [List.length_append]
    exact hlen r (Nat.lt_trans (List.mem_range.mp hr) hx)
  have hcut : zs = ((List.range (key x)).flatMap fun r => bucket key ys r ++ junk r)
      ++ bucket key ys (key x) ++ y :: (rest ++
        (List.range' (key x + 1) (R - key x - 1)).flatMap fun r =>
          bucket key ys r ++ junk r) := by
    rw [hzs, hrange, List.flatMap_append, List.flatMap_cons, hjunk]
    simp only [List.append_assoc, List.cons_append]
  have hplace : place key xs ys (key x)
      = (((List.range (key x)).flatMap fun r => bucket key ys r ++ junk r)
        ++ bucket key ys (key x)).length := by
    rw [List.length_append, hfront, place]
  have hother : ∀ r, key x ≠ r → bucket key (ys ++ [x]) r
      ++ Function.update junk (key x) rest r = bucket key ys r ++ junk r := by
    intro r hr
    rw [bucket_append, bucket_singleton_of_ne key hr, List.append_nil,
      Function.update_of_ne (Ne.symm hr)]
  refine ⟨?_, Function.update junk (key x) rest, ?_, fun r hr => ?_⟩
  · rw [hplace]
    conv_rhs => rw [hcut]
    simp
  · rw [hplace]
    conv_lhs => rw [hcut]
    rw [List.set_append_right _ _ (Nat.le_refl _), Nat.sub_self, List.set_cons_zero, hrange,
      List.flatMap_append, List.flatMap_cons, bucket_append, bucket_singleton, Function.update_self]
    have hlow : (List.range (key x)).flatMap (fun r => bucket key (ys ++ [x]) r
        ++ Function.update junk (key x) rest r)
        = (List.range (key x)).flatMap fun r => bucket key ys r ++ junk r :=
      List.flatMap_congr fun r hr => hother r (Nat.ne_of_gt (List.mem_range.mp hr))
    have hhigh : (List.range' (key x + 1) (R - key x - 1)).flatMap (fun r =>
        bucket key (ys ++ [x]) r ++ Function.update junk (key x) rest r)
        = (List.range' (key x + 1) (R - key x - 1)).flatMap fun r => bucket key ys r ++ junk r := by
      refine List.flatMap_congr fun r hr => hother r ?_
      have := (List.mem_range'_1.mp hr).1
      omega
    rw [hlow, hhigh]
    simp only [List.append_assoc, List.cons_append, List.nil_append]
  · by_cases heq : key x = r
    · subst heq
      rw [bucket_append, bucket_singleton, Function.update_self, ← hlen (key x) hx, hjunk]
      simp only [List.length_append, List.length_cons, List.length_nil]
      omega
    · rw [← hlen r hr, ← List.length_append, hother r heq, List.length_append]

end KeyIndexed
