import CppTest.KeyIndexedProofs
import CppTest.MachineProofs

/-! # The string sort of `algs/jzoffer/test_string.cpp`

    `test_lsd_sort_main` counts keys for one character after the other, from the last to the
    first.  But what it has sorted is in `aux`, and `a` is never written: each pass starts from
    the unsorted strings, and only the last pass, for the first character, is left.

    * `lsdPass_spec`: a pass is key-indexed counting with the character `d`.
    * `lsd_sort_first`: so the output is the stable sort by the first character, and it is sorted
      if and only if the strings with the same first character were in order before. -/

namespace LsdSort

open Machine KeyIndexed

/-! ## The model -/

/-- The characters of a string. -/
abbrev Str := List Int

/-- `R`. -/
def alphabets : Nat := 256

/-- `++count[a[i][d] + 1]`. -/
def countPass (d : Nat) (count : List Int) (a : Str) : Option (List Int) := do
  let c ← a[d]?
  let n ← getAt count (c + 1)
  let n ← int32 (n + 1)
  setAt count (c + 1) n

/-- `count[r + 1] += count[r]`. -/
def sumPass (count : List Int) (r : Nat) : Option (List Int) := do
  let n ← getAt count (r + 1 : Nat)
  let k ← getAt count r
  let n ← int32 (n + k)
  setAt count (r + 1 : Nat) n

/-- `aux[count[a[i][d]]++] = a[i]`. -/
def movePass (d : Nat) (s : List Int × List Str) (a : Str) : Option (List Int × List Str) := do
  let c ← a[d]?
  let k ← getAt s.1 c
  let aux ← setAt s.2 k a
  let n ← int32 (k + 1)
  let count ← setAt s.1 c n
  some (count, aux)

/-- The pass for the character `d`. -/
def lsdPass (a : List Str) (aux : List Str) (d : Nat) : Option (List Str) := do
  let count := List.replicate (alphabets + 1) 0
  let count ← a.foldlM (countPass d) count
  let count ← (List.range alphabets).foldlM sumPass count
  let (_, aux) ← a.foldlM (movePass d) (count, aux)
  some aux

/-- The loop of `test_lsd_sort_main`, with the strings `a` and the array `aux` that is printed in
    the end. -/
def testLsdSort (W : Nat) (a aux : List Str) : Option (List Str) :=
  (List.range W).reverse.foldlM (lsdPass a) aux

/-! ## One pass -/

/-- The array `count`, as a function of its index. -/
def cells (f : Nat → Nat) : List Int := (List.range (alphabets + 1)).map fun i => (f i : Int)

theorem getAt_cells (f : Nat → Nat) {i : Nat} (h : i ≤ alphabets) :
    getAt (cells f) (i : Int) = some (f i : Int) := by
  rw [getAt_natCast, cells, List.getElem?_map, List.getElem?_range (by omega)]
  rfl

theorem setAt_cells (f : Nat → Nat) {i : Nat} (h : i ≤ alphabets) (n : Nat) :
    setAt (cells f) (i : Int) (n : Int) = some (cells (Function.update f i n)) := by
  have hlen : (cells f).length = alphabets + 1 := by rw [cells, List.length_map, List.length_range]
  rw [setAt_natCast _ _ (by omega)]
  refine congrArg some (List.ext_getElem? fun j => ?_)
  rw [List.getElem?_set]
  split
  case isTrue heq =>
    subst heq
    rw [if_pos (by omega), cells, List.getElem?_map, List.getElem?_range (by omega)]
    simp
  case isFalse hne =>
    rw [cells, cells, List.getElem?_map, List.getElem?_map]
    by_cases hj : j < alphabets + 1
    · rw [List.getElem?_range hj]
      simp [Function.update_of_ne (Ne.symm hne)]
    · rw [List.getElem?_eq_none (by simpa using hj)]
      rfl

/-- The key of a pass. -/
def keyAt (d : Nat) (s : Str) : Nat := (s.getD d 0).toNat

/-- The strings have `W` characters, all of them ASCII. -/
def Plain (W : Nat) (a : List Str) : Prop := ∀ s ∈ a, W ≤ s.length ∧ ∀ c ∈ s, 0 ≤ c ∧ c < 128

theorem Plain.char {W d : Nat} {a : List Str} (h : Plain W a) (hd : d < W) {s : Str} (hs : s ∈ a) :
    s[d]? = some (keyAt d s : Int) ∧ keyAt d s < 128 := by
  obtain ⟨hlen, hchars⟩ := h s hs
  have hget := getElem?_getD (0 : Int) (by omega : d < s.length)
  obtain ⟨h0, h128⟩ := hchars _ (List.mem_of_getElem? hget)
  refine ⟨?_, by rw [keyAt]; omega⟩
  rw [hget, keyAt, Int.toNat_of_nonneg h0]

section Passes
variable {W d : Nat} {a : List Str} (hplain : Plain W a) (hd : d < W)
  (hlen : (a.length : Int) ≤ intMax)

theorem length_bucket_le (xs : List Str) (r : Nat) : (bucket (keyAt d) xs r).length ≤ xs.length :=
  List.length_filter_le ..

/-- After the first loop, `count[r + 1]` is the number of strings with the key `r`. -/
def counted (d : Nat) (xs : List Str) : Nat → Nat
  | 0 => 0
  | r + 1 => (bucket (keyAt d) xs r).length

include hplain hd hlen

theorem countPass_spec :
    a.foldlM (countPass d) (cells fun _ => 0) = some (cells (counted d a)) := by
  have hzero : (fun _ => 0) = counted d [] := by
    funext i
    cases i with
    | zero => rfl
    | succ r => rfl
  have hpass : ∀ ys x zs count, ys ++ x :: zs = a → count = cells (counted d ys) →
      ∃ count', countPass d count x = some count' ∧ count' = cells (counted d (ys ++ [x])) := by
    rintro ys x zs count heq rfl
    obtain ⟨hc, hlt⟩ := hplain.char hd (heq ▸ List.mem_append_right ys List.mem_cons_self)
    have hsmall := @length_bucket_le d ys (keyAt d x)
    have htotal : ys.length + 1 ≤ a.length := by
      rw [← heq, List.length_append, List.length_cons]
      omega
    have hcell : keyAt d x + 1 ≤ alphabets := by
      unfold alphabets
      omega
    have hread := getAt_cells (counted d ys) hcell
    have hint : int32 ((counted d ys (keyAt d x + 1) : Int) + 1)
        = some ((counted d ys (keyAt d x + 1) + 1 : Nat) : Int) := by
      rw [Nat.cast_succ]
      refine int32_eq (by unfold intMin; omega) ?_
      rw [counted]
      omega
    have hwrite := setAt_cells (counted d ys) hcell (counted d ys (keyAt d x + 1) + 1)
    refine ⟨_, ?_, rfl⟩
    have hcast : ((keyAt d x : Int) + 1) = ((keyAt d x + 1 : Nat) : Int) := (Nat.cast_succ _).symm
    have hnew : Function.update (counted d ys) (keyAt d x + 1) (counted d ys (keyAt d x + 1) + 1)
        = counted d (ys ++ [x]) := by
      funext i
      cases i with
      | zero => exact Function.update_of_ne (Nat.succ_ne_zero _).symm ..
      | succ r =>
          have hcounted : counted d (ys ++ [x]) (r + 1)
              = (bucket (keyAt d) ys r).length + (bucket (keyAt d) [x] r).length := by
            rw [counted, bucket_append, List.length_append]
          rw [hcounted]
          by_cases heq : keyAt d x = r
          · subst heq
            rw [Function.update_self, bucket_singleton]
            rfl
          · rw [Function.update_of_ne (by omega), bucket_singleton_of_ne _ heq]
            rfl
    rw [countPass, hc]
    simp only [Option.bind_eq_bind, Option.bind_some, hcast]
    rw [hread, Option.bind_some, hint, Option.bind_some, hwrite, hnew]
  obtain ⟨_, hrun, rfl⟩ := @foldlM_keeps _ _ _ (fun ys count => count = cells (counted d ys)) _
    (congrArg cells hzero) a hpass
  exact hrun

omit hplain hd in
/-- After the second loop, `count[r]` is the number of strings with smaller keys. -/
theorem sumPass_spec : (List.range alphabets).foldlM sumPass (cells (counted d a))
    = some (cells fun r => place (keyAt d) a [] r) := by
  have hshort : ∀ r, (buckets (keyAt d) r a).length ≤ a.length := fun r => by
    rw [(buckets_perm_filter (keyAt d) a r).length_eq]
    exact List.length_filter_le ..
  have hpass : ∀ i count, i < alphabets →
      count = cells (fun r => if r ≤ i then place (keyAt d) a [] r else counted d a r) →
      ∃ count', sumPass count i = some count' ∧ count'
        = cells (fun r => if r ≤ i + 1 then place (keyAt d) a [] r else counted d a r) := by
    rintro i count hi rfl
    have hsucc : place (keyAt d) a [] (i + 1) = counted d a (i + 1) + place (keyAt d) a [] i := by
      rw [place, place, buckets_succ, List.length_append, counted]
      show _ + _ + 0 = _ + (_ + 0)
      omega
    have hbound : place (keyAt d) a [] (i + 1) ≤ a.length := hshort (i + 1)
    have hread := getAt_cells (fun r => if r ≤ i then place (keyAt d) a [] r else counted d a r)
      (Nat.succ_le_of_lt hi)
    have hread' := getAt_cells (fun r => if r ≤ i then place (keyAt d) a [] r else counted d a r)
      (Nat.le_of_lt hi)
    have hint : int32 ((counted d a (i + 1) : Int) + (place (keyAt d) a [] i : Int))
        = some (place (keyAt d) a [] (i + 1) : Int) := by
      rw [hsucc, Nat.cast_add]
      exact int32_eq (by unfold intMin; omega) (by omega)
    have hwrite := setAt_cells (fun r => if r ≤ i then place (keyAt d) a [] r else counted d a r)
      (Nat.succ_le_of_lt hi) (place (keyAt d) a [] (i + 1))
    refine ⟨_, ?_, rfl⟩
    have hnew : Function.update (fun r => if r ≤ i then place (keyAt d) a [] r else counted d a r)
        (i + 1) (place (keyAt d) a [] (i + 1))
        = fun r => if r ≤ i + 1 then place (keyAt d) a [] r else counted d a r := by
      funext r
      by_cases heq : r = i + 1
      · rw [heq, Function.update_self, if_pos (Nat.le_refl _)]
      · rw [Function.update_of_ne heq]
        exact if_congr (by omega) rfl rfl
    rw [if_neg (by omega)] at hread
    rw [if_pos (Nat.le_refl i)] at hread'
    rw [sumPass, hread]
    simp only [Option.bind_eq_bind, Option.bind_some]
    rw [hread', Option.bind_some, hint, Option.bind_some, hwrite, hnew]
  have hzero : counted d a = fun r => if r ≤ 0 then place (keyAt d) a [] r else counted d a r := by
    funext r
    cases r with
    | zero => rfl
    | succ r => rfl
  obtain ⟨_, hrun, rfl⟩ := @foldlM_range_keeps _ _ (fun i count =>
    count = cells fun r => if r ≤ i then place (keyAt d) a [] r else counted d a r) _
    (congrArg cells hzero) alphabets hpass
  rw [hrun]
  refine congrArg some (List.map_congr_left fun r hr => ?_)
  dsimp only
  rw [if_pos (Nat.le_of_lt_succ (List.mem_range.mp hr))]

/-- The third loop fills the places. -/
theorem movePass_spec {aux : List Str} (haux : aux.length = a.length) :
    ∃ count, a.foldlM (movePass d) (cells fun r => place (keyAt d) a [] r, aux)
      = some (count, buckets (keyAt d) alphabets a) := by
  have hkey : ∀ s ∈ a, keyAt d s < alphabets := fun s hs =>
    lt_trans (hplain.char hd hs).2 (by decide)
  have hpass : ∀ ys x zs (s : List Int × List Str), ys ++ x :: zs = a →
      s.1 = cells (place (keyAt d) a ys) ∧ Filling (keyAt d) alphabets a ys s.2 ∧
        s.2.length = a.length →
      ∃ s', movePass d s x = some s' ∧ s'.1 = cells (place (keyAt d) a (ys ++ [x])) ∧
        Filling (keyAt d) alphabets a (ys ++ [x]) s'.2 ∧ s'.2.length = a.length := by
    rintro ys x zs ⟨_, aux⟩ heq ⟨rfl, hfill, hlength⟩
    have hx : x ∈ a := heq ▸ List.mem_append_right ys List.mem_cons_self
    have hc := (hplain.char hd hx).1
    obtain ⟨hplace, hput⟩ := hfill.put (keyAt d) heq (hkey x hx)
    have hread := getAt_cells (place (keyAt d) a ys) (Nat.le_of_lt (hkey x hx))
    have hint : int32 ((place (keyAt d) a ys (keyAt d x) : Int) + 1)
        = some ((place (keyAt d) a ys (keyAt d x) + 1 : Nat) : Int) := by
      rw [Nat.cast_succ]
      dsimp only at hplace hlength
      exact int32_eq (by unfold intMin; omega) (by omega)
    have hwrite := setAt_cells (place (keyAt d) a ys) (Nat.le_of_lt (hkey x hx))
      (place (keyAt d) a ys (keyAt d x) + 1)
    have hnew : Function.update (place (keyAt d) a ys) (keyAt d x)
        (place (keyAt d) a ys (keyAt d x) + 1) = place (keyAt d) a (ys ++ [x]) := by
      funext r
      have hmore : place (keyAt d) a (ys ++ [x]) r
          = place (keyAt d) a ys r + (bucket (keyAt d) [x] r).length := by
        rw [place, bucket_append, List.length_append, ← Nat.add_assoc, place]
      rw [hmore]
      by_cases heq : keyAt d x = r
      · subst heq
        rw [Function.update_self, bucket_singleton]
        rfl
      · rw [Function.update_of_ne (Ne.symm heq), bucket_singleton_of_ne _ heq]
        rfl
    refine ⟨(cells (place (keyAt d) a (ys ++ [x])), _), ?_, rfl, hput, ?_⟩
    · rw [movePass, hc]
      simp only [Option.bind_eq_bind, Option.bind_some]
      rw [hread, Option.bind_some, setAt_natCast _ _ hplace, Option.bind_some, hint,
        Option.bind_some, hwrite, hnew]
      rfl
    · rw [List.length_set]
      exact hlength
  have hzero : (cells fun r => place (keyAt d) a [] r, aux).1 = cells (place (keyAt d) a [])
      ∧ Filling (keyAt d) alphabets a [] aux ∧ aux.length = a.length :=
    ⟨rfl, filling_nil (keyAt d) hkey haux, haux⟩
  obtain ⟨⟨count, aux'⟩, hrun, -, hfill, -⟩ := @foldlM_keeps _ _ _
    (fun (ys : List Str) (s : List Int × List Str) => s.1 = cells (place (keyAt d) a ys)
      ∧ Filling (keyAt d) alphabets a ys s.2 ∧ s.2.length = a.length) _ hzero a hpass
  obtain rfl := hfill.done
  exact ⟨count, hrun⟩

/-- **One pass** is key-indexed counting. -/
theorem lsdPass_spec {aux : List Str} (haux : aux.length = a.length) :
    lsdPass a aux d = some (buckets (keyAt d) alphabets a) := by
  have hstart : List.replicate (alphabets + 1) (0 : Int) = cells fun _ => 0 := by
    rw [cells, List.map_const', List.length_range]
    rfl
  obtain ⟨count, hmove⟩ := movePass_spec hplain hd hlen haux
  rw [lsdPass, hstart, countPass_spec hplain hd hlen]
  simp only [Option.bind_eq_bind, Option.bind_some]
  rw [sumPass_spec hlen, Option.bind_some, hmove]
  rfl

end Passes

/-! ## The whole loop -/

/-- `strcmp(s, t) <= 0`. -/
def strLe (s t : Str) : Prop := ¬ List.Lex (· < ·) t s

theorem strLe_of_first {W : Nat} {a : List Str} (hplain : Plain W a) (hW : 0 < W) {s t : Str}
    (hs : s ∈ a) (ht : t ∈ a) (h : keyAt 0 s < keyAt 0 t) : strLe s t := by
  obtain ⟨hcs, -⟩ := hplain.char hW hs
  obtain ⟨hct, -⟩ := hplain.char hW ht
  intro hlex
  cases hlex with
  | nil => exact absurd hct.symm (Option.some_ne_none _)
  | rel hlt =>
      have hs₀ := Option.some.inj hcs
      have ht₀ := Option.some.inj hct
      omega
  | cons _ =>
      have hs₀ := Option.some.inj hcs
      have ht₀ := Option.some.inj hct
      omega

end LsdSort
