import Mathlib.Data.Int.Basic
import Mathlib.Data.List.Induction
import Mathlib.Tactic.Linarith

/-! # The machine underneath: loops, `int` arithmetic, checked arrays

    The C and C++ sources of this development share three mechanisms, and this
    file fixes one reading of each:

    * a loop whose end is not visible in its text runs on FUEL (`loop`); the
      pass that leaves it is told apart from the pass that goes round again;
      `loop_keeps` carries an invariant to the result, and `loop_total` turns an
      invariant and a measure into a result for all sufficiently large fuel;
    * a 32-bit `int` and a 64-bit `size_t` wrap (`wrap32`, `wrap64`), and are
      the identity on the values that fit; where an overflow must be seen, it is a
      fault (`int32`), also that of a loop counter (`forTo`);
    * an array access is checked (`getAt`, `setAt`): an index outside the array
      is a fault, `none`, just as a failed assertion or a null pointer is.

    Nothing here names a program of the repository. -/

namespace Machine

variable {σ ρ α : Type}

/-! ## Loops on fuel -/

/-- What one pass through a loop body does: leave the loop with a result, or go
    round again with a new loop state. -/
inductive Pass (σ ρ : Type) where
  | done : ρ → Pass σ ρ
  | next : σ → Pass σ ρ
  deriving Repr, DecidableEq

/-- Run a loop for at most `fuel` passes.  A faulting pass and an exhausted fuel
    both give `none`. -/
def loop (body : σ → Option (Pass σ ρ)) : Nat → σ → Option ρ
  | 0, _ => none
  | fuel + 1, s =>
      match body s with
      | none => none
      | some (.done r) => some r
      | some (.next s') => loop body fuel s'

theorem loop_done {body : σ → Option (Pass σ ρ)} {s : σ} {r : ρ} {fuel : Nat} (hfuel : 0 < fuel)
    (h : body s = some (.done r)) : loop body fuel s = some r := by
  cases fuel with
  | zero => exact absurd hfuel (Nat.lt_irrefl 0)
  | succ n => simp only [loop, h]

theorem loop_next {body : σ → Option (Pass σ ρ)} {s s' : σ} {fuel : Nat} (hfuel : 0 < fuel)
    (h : body s = some (.next s')) : loop body fuel s = loop body (fuel - 1) s' := by
  cases fuel with
  | zero => exact absurd hfuel (Nat.lt_irrefl 0)
  | succ n => simp only [loop, h, Nat.add_sub_cancel]

/-- More fuel gives the same result, also to the body. -/
theorem loop_mono {body body' : σ → Option (Pass σ ρ)} {s : σ} {r : ρ} {fuel fuel' : Nat}
    (hbody : ∀ s p, body s = some p → body' s = some p) (hle : fuel ≤ fuel')
    (h : loop body fuel s = some r) : loop body' fuel' s = some r := by
  induction fuel generalizing fuel' s with
  | zero => exact nomatch h
  | succ fuel ih =>
      obtain ⟨n, rfl⟩ : ∃ n, fuel' = n + 1 := ⟨fuel' - 1, by omega⟩
      rw [loop] at h ⊢
      cases hb : body s with
      | none => simp only [hb] at h; exact nomatch h
      | some p =>
          rw [hbody s p hb]
          cases p with
          | done r' => simpa only [hb] using h
          | next s' =>
              simp only [hb] at h ⊢
              exact ih (by omega) h

/-- A loop that is never left has no result. -/
theorem loop_never {body : σ → Option (Pass σ ρ)} {Inv : σ → Prop}
    (hpass : ∀ s, Inv s → body s = none ∨ ∃ s', body s = some (.next s') ∧ Inv s') :
    ∀ fuel s, Inv s → loop body fuel s = none := by
  intro fuel
  induction fuel with
  | zero => exact fun s _ => rfl
  | succ fuel ih =>
      intro s hs
      rcases hpass s hs with hbody | ⟨s', hbody, hs'⟩
      · simp only [loop, hbody]
      · rw [loop_next (by omega) hbody]
        exact ih s' hs'

/-- **Partial correctness of a loop.**  What every pass keeps holds when the loop is
    left. -/
theorem loop_keeps {body : σ → Option (Pass σ ρ)} {Inv : σ → Prop} {Post : ρ → Prop}
    (hnext : ∀ s s', Inv s → body s = some (.next s') → Inv s')
    (hdone : ∀ s r, Inv s → body s = some (.done r) → Post r) :
    ∀ {fuel s r}, Inv s → loop body fuel s = some r → Post r := by
  intro fuel
  induction fuel with
  | zero => exact fun _ h => absurd h.symm (Option.some_ne_none _)
  | succ fuel ih =>
      intro s r hs h
      rw [loop] at h
      cases hb : body s with
      | none =>
          rw [hb] at h
          exact absurd h.symm (Option.some_ne_none _)
      | some p =>
          rw [hb] at h
          cases p with
          | done r' =>
              obtain rfl := Option.some.inj h
              exact hdone s r' hs hb
          | next s' => exact ih (hnext s s' hs hb) h

/-- **Total correctness of a loop.**  `Inv n s` says that the loop state is good and
    at most `n` passes go round from it; the number may depend on more than the
    state shows.  If every pass leaves with a good result or goes round with a
    smaller number, the loop has ONE result and every larger fuel reaches it. -/
theorem loop_total {body : σ → Option (Pass σ ρ)} {Inv : Nat → σ → Prop} {Post : ρ → Prop}
    (hpass : ∀ n s, Inv n s →
      (∃ r, body s = some (.done r) ∧ Post r) ∨
      (∃ s' n', body s = some (.next s') ∧ n' < n ∧ Inv n' s')) :
    ∀ n s, Inv n s → ∃ r, Post r ∧ ∀ fuel, n < fuel → loop body fuel s = some r := by
  intro n
  induction n using Nat.strongRecOn with
  | ind n ih =>
      intro s hs
      rcases hpass n s hs with ⟨r, hbody, hr⟩ | ⟨s', n', hbody, hlt, hs'⟩
      · refine ⟨r, hr, ?_⟩
        exact fun fuel hfuel => loop_done (by omega) hbody
      · obtain ⟨r, hr, hrun⟩ := ih n' hlt s' hs'
        refine ⟨r, hr, ?_⟩
        intro fuel hfuel
        rw [loop_next (by omega) hbody]
        exact hrun _ (by omega)

/-- Total correctness where the passes run loops of their own, on the fuel `fuel'`: one bound is
    enough for all of them. -/
theorem loop_total_inner {body : Nat → σ → Option (Pass σ ρ)} {Inv : Nat → σ → Prop}
    {Post : ρ → Prop} {k : Nat}
    (hpass : ∀ n s, Inv n s →
      (∃ r, (∀ fuel', k < fuel' → body fuel' s = some (.done r)) ∧ Post r) ∨
      (∃ s' n', (∀ fuel', k < fuel' → body fuel' s = some (.next s')) ∧ n' < n ∧ Inv n' s')) :
    ∀ n s, Inv n s → ∃ r, Post r ∧
      ∀ fuel' fuel, k < fuel' → n < fuel → loop (body fuel') fuel s = some r := by
  intro n
  induction n using Nat.strongRecOn with
  | ind n ih =>
      intro s hs
      rcases hpass n s hs with ⟨r, hbody, hr⟩ | ⟨s', n', hbody, hlt, hs'⟩
      · refine ⟨r, hr, ?_⟩
        exact fun fuel' fuel hfuel' hfuel => loop_done (by omega) (hbody fuel' hfuel')
      · obtain ⟨r, hr, hrun⟩ := ih n' hlt s' hs'
        refine ⟨r, hr, ?_⟩
        intro fuel' fuel hfuel' hfuel
        rw [loop_next (by omega) (hbody fuel' hfuel')]
        exact hrun _ _ hfuel' (by omega)

/-! ## Loops over an index -/

/-- A loop over the indices of a list is a loop over its elements. -/
theorem foldlM_range {f : σ → α → Option σ} {h : σ → Nat → Option σ} : ∀ (l : List α),
    (∀ i x, l[i]? = some x → ∀ s, h s i = f s x) →
    ∀ s, (List.range l.length).foldlM h s = l.foldlM f s := by
  intro l
  induction l using List.reverseRecOn with
  | nil => exact fun _ s => rfl
  | append_singleton l x ih =>
      intro hread s
      have hl : ∀ i y, l[i]? = some y → ∀ s, h s i = f s y := fun i y hy =>
        hread i y ((List.getElem?_append_left (List.getElem?_eq_some_iff.mp hy).1).trans hy)
      rw [List.length_append, List.length_singleton, List.range_succ, List.foldlM_append,
        List.foldlM_append, ih hl]
      congr 1
      funext s'
      simp only [List.foldlM_cons, List.foldlM_nil,
        hread l.length x List.getElem?_concat_length]

/-- A loop over the cells of an array keeps what every pass keeps; `Inv` knows the cells that were
    passed. -/
theorem foldlM_keeps {body : σ → α → Option σ} {Inv : List α → σ → Prop} {s : σ}
    (hzero : Inv [] s) : ∀ (xs : List α),
    (∀ ys x zs s, ys ++ x :: zs = xs → Inv ys s → ∃ s', body s x = some s' ∧ Inv (ys ++ [x]) s') →
    ∃ s', xs.foldlM body s = some s' ∧ Inv xs s' := by
  intro xs
  induction xs using List.reverseRecOn with
  | nil => exact fun _ => ⟨s, rfl, hzero⟩
  | append_singleton xs x ih =>
      intro hpass
      obtain ⟨s₁, hrun, h₁⟩ := ih fun ys y zs s heq => hpass ys y (zs ++ [x]) s (by simp [← heq])
      obtain ⟨s₂, hbody, h₂⟩ := hpass xs x [] s₁ rfl h₁
      refine ⟨s₂, ?_, h₂⟩
      rw [List.foldlM_append, hrun]
      simp [hbody]

/-- A loop with an element at which every pass faults. -/
theorem foldlM_faults {f : σ → α → Option σ} {x : α} (hfault : ∀ s, f s x = none) :
    ∀ l : List α, x ∈ l → ∀ s, l.foldlM f s = none := by
  intro l
  induction l with
  | nil => exact fun hx => absurd hx List.not_mem_nil
  | cons y l ih =>
      intro hx s
      rw [List.foldlM_cons]
      rcases List.mem_cons.mp hx with rfl | hx
      · rw [hfault]
        rfl
      · cases f s y with
        | none => rfl
        | some s' => exact ih hx s'

/-- Reading the cells of an array one after the other gives their contents. -/
theorem mapM_range {f : Nat → Option α} : ∀ (l : List α),
    (∀ i x, l[i]? = some x → f i = some x) → (List.range l.length).mapM f = some l := by
  intro l
  induction l using List.reverseRecOn with
  | nil => exact fun _ => rfl
  | append_singleton l x ih =>
      intro hread
      have hl : ∀ i y, l[i]? = some y → f i = some y := fun i y hy =>
        hread i y ((List.getElem?_append_left (List.getElem?_eq_some_iff.mp hy).1).trans hy)
      rw [List.length_append, List.length_singleton, List.range_succ, List.mapM_append, ih hl]
      simp [hread l.length x List.getElem?_concat_length]

/-! ## Machine integers -/

/-- The largest `int`. -/
def intMax : Int := 2 ^ 31 - 1

/-- The smallest `int`. -/
def intMin : Int := -2 ^ 31

/-- The result of a signed operation; an overflow is undefined, and faults. -/
def int32 (x : Int) : Option Int := if intMin ≤ x ∧ x ≤ intMax then some x else none

theorem int32_eq {x : Int} (hlo : intMin ≤ x) (hhi : x ≤ intMax) : int32 x = some x :=
  if_pos ⟨hlo, hhi⟩

theorem eq_of_int32 {x y : Int} (h : int32 x = some y) : y = x := by
  rw [int32] at h
  split at h
  · exact (Option.some.inj h).symm
  · exact absurd h.symm (Option.some_ne_none _)

/-- The value of an `int` after two's complement wrap-around. -/
def wrap32 (x : Int) : Int := Int.bmod x (2 ^ 32)

/-- The value of a `size_t` after wrap-around. -/
def wrap64 (x : Int) : Int := x % 2 ^ 64

/-- A value in the range of `int` is not changed. -/
theorem wrap32_eq {x : Int} (hlo : 0 ≤ x) (hhi : x ≤ intMax) : wrap32 x = x := by
  rw [intMax] at hhi
  rw [wrap32]
  rw [Int.bmod_eq_of_le] <;> omega

/-- A sum may be wrapped at every addend. -/
theorem wrap32_add (x y : Int) : wrap32 (wrap32 x + y) = wrap32 (x + y) := by
  rw [wrap32, wrap32, wrap32, Int.bmod_add_bmod]

/-- A value in the range of `size_t` is not changed. -/
theorem wrap64_eq {x : Int} (hlo : 0 ≤ x) (hhi : x < 2 ^ 64) : wrap64 x = x :=
  Int.emod_eq_of_lt hlo hhi

/-! ## Loops that count to their end -/

/-- `for (int i = 1; i <= n; ++i)`: the passes with 1 to `n`, and the increment after the last
    of them, which overflows if `n` is the largest `int`. -/
def forTo (n : Nat) (body : σ → Nat → Option σ) (s : σ) : Option σ := do
  let s ← (List.range' 1 n).foldlM body s
  let _ ← int32 (n + 1)
  some s

/-- What every pass keeps, over all passes. -/
theorem foldlM_range_keeps {body : σ → Nat → Option σ} {Inv : Nat → σ → Prop} {s : σ}
    (hzero : Inv 0 s) : ∀ (n : Nat),
    (∀ i s, i < n → Inv i s → ∃ s', body s i = some s' ∧ Inv (i + 1) s') →
    ∃ s', (List.range n).foldlM body s = some s' ∧ Inv n s' := by
  intro n
  induction n with
  | zero => exact fun _ => ⟨s, rfl, hzero⟩
  | succ n ih =>
      intro hpass
      obtain ⟨s₁, hrun, h₁⟩ := ih fun i s hi => hpass i s (by omega)
      obtain ⟨s₂, hbody, h₂⟩ := hpass n s₁ (Nat.lt_succ_self n) h₁
      refine ⟨s₂, ?_, h₂⟩
      rw [List.range_succ, List.foldlM_append, hrun]
      simp [hbody]

/-- The same for a loop that counts from 1. -/
theorem foldlM_range'_keeps {body : σ → Nat → Option σ} {Inv : Nat → σ → Prop} {s : σ}
    (hzero : Inv 0 s) (n : Nat)
    (hpass : ∀ i s, i < n → Inv i s → ∃ s', body s (i + 1) = some s' ∧ Inv (i + 1) s') :
    ∃ s', (List.range' 1 n).foldlM body s = some s' ∧ Inv n s' := by
  have hshift : List.range' 1 n = (List.range n).map (· + 1) := by
    simp only [List.range'_eq_map_range, Nat.add_comm]
  rw [hshift, List.foldlM_map]
  exact foldlM_range_keeps hzero n hpass

/-- The same for a loop that counts down. -/
theorem foldlM_down_keeps {body : σ → Nat → Option σ} {Inv : Nat → σ → Prop} : ∀ (n : Nat) {s : σ},
    Inv n s → (∀ i s, i < n → Inv (i + 1) s → ∃ s', body s i = some s' ∧ Inv i s') →
    ∃ s', (List.range n).reverse.foldlM body s = some s' ∧ Inv 0 s' := by
  intro n
  induction n with
  | zero => exact fun h _ => ⟨_, rfl, h⟩
  | succ n ih =>
      intro s hs hpass
      obtain ⟨s₁, hbody, h₁⟩ := hpass n s (Nat.lt_succ_self n) hs
      obtain ⟨s₂, hrun, h₂⟩ := ih h₁ fun i s hi => hpass i s (by omega)
      refine ⟨s₂, ?_, h₂⟩
      rw [List.range_succ, List.reverse_append, List.reverse_singleton, List.singleton_append,
        List.foldlM_cons, hbody]
      exact hrun

/-- **A counting loop** keeps what every pass keeps. -/
theorem forTo_keeps {body : σ → Nat → Option σ} {Inv : Nat → σ → Prop} {s : σ} {n : Nat}
    (hn : (n : Int) < intMax) (hzero : Inv 0 s)
    (hpass : ∀ i s, i < n → Inv i s → ∃ s', body s (i + 1) = some s' ∧ Inv (i + 1) s') :
    ∃ s', forTo n body s = some s' ∧ Inv n s' := by
  obtain ⟨s', hrun, hinv⟩ := foldlM_range'_keeps hzero n hpass
  refine ⟨s', ?_, hinv⟩
  have hnext : int32 ((n : Int) + 1) = some ((n : Int) + 1) :=
    int32_eq (by rw [intMin]; omega) (by omega)
  rw [forTo, hrun, hnext]
  rfl

/-- A counting loop with a pass that faults. -/
theorem forTo_faults {body : σ → Nat → Option σ} {Inv : Nat → σ → Prop} {s : σ} {n k : Nat}
    (hk : k < n) (hzero : Inv 0 s)
    (hpass : ∀ i s, i < k → Inv i s → ∃ s', body s (i + 1) = some s' ∧ Inv (i + 1) s')
    (hfault : ∀ s, Inv k s → body s (k + 1) = none) : forTo n body s = none := by
  obtain ⟨s', hrun, hinv⟩ := foldlM_range'_keeps hzero k hpass
  obtain ⟨j, rfl⟩ : ∃ j, n = k + (j + 1) := ⟨n - k - 1, by omega⟩
  have hsplit : List.range' 1 (k + (j + 1))
      = List.range' 1 k ++ (k + 1) :: List.range' (k + 2) j := by
    rw [← List.range'_append_1, List.range'_succ, Nat.add_comm 1 k]
  rw [forTo, hsplit, List.foldlM_append, hrun]
  simp [hfault s' hinv]

/-- A counting loop to the largest `int` does not end. -/
theorem forTo_overflows {body : σ → Nat → Option σ} {s : σ} {n : Nat} (hn : intMax ≤ (n : Int)) :
    forTo n body s = none := by
  have hnext : int32 ((n : Int) + 1) = none := by
    rw [int32, if_neg]
    omega
  rw [forTo, hnext]
  cases (List.range' 1 n).foldlM body s with
  | none => rfl
  | some s' => rfl

/-! ## Checked arrays -/

/-- Read `l[i]`; an index outside the array faults. -/
def getAt (l : List α) (i : Int) : Option α :=
  if 0 ≤ i then l[i.toNat]? else none

/-- Write `l[i] = x`; an index outside the array faults. -/
def setAt (l : List α) (i : Int) (x : α) : Option (List α) :=
  if 0 ≤ i ∧ i.toNat < l.length then some (l.set i.toNat x) else none

/-- Set the `k` cells of `l` from index `i` on to `x`; a cell outside the array
    faults. -/
def memsetAt (l : List α) (i k : Int) (x : α) : Option (List α) :=
  if 0 ≤ i ∧ 0 ≤ k ∧ i + k ≤ l.length then
    some (l.take i.toNat ++ List.replicate k.toNat x ++ l.drop (i + k).toNat)
  else none

/-- The cells of a block resized to `n` cells: the old contents up to the smaller
    size, then cells that are not initialised. -/
def resizeTo (junk : Nat → α) (l : List α) (n : Nat) : List α :=
  l.take n ++ (List.range' l.length (n - l.length)).map junk

@[simp] theorem getAt_natCast (l : List α) (n : Nat) : getAt l (n : Int) = l[n]? := by
  simp [getAt]

/-- What was read was in the array. -/
theorem of_getAt {l : List α} {i : Int} {x : α} (h : getAt l i = some x) :
    0 ≤ i ∧ l[i.toNat]? = some x := by
  rw [getAt] at h
  split at h
  · next hi => exact ⟨hi, h⟩
  · exact absurd h.symm (Option.some_ne_none _)

/-- What was written is in the array. -/
theorem of_setAt {l l' : List α} {i : Int} {x : α} (h : setAt l i x = some l') :
    (0 ≤ i ∧ i.toNat < l.length) ∧ l' = l.set i.toNat x := by
  rw [setAt] at h
  split at h
  · next hi => exact ⟨hi, (Option.some.inj h).symm⟩
  · exact absurd h.symm (Option.some_ne_none _)

theorem setAt_natCast (l : List α) {n : Nat} (x : α) (h : n < l.length) :
    setAt l (n : Int) x = some (l.set n x) := by
  simp [setAt, h]

/-- A cell of the array, as a total function of its index. -/
theorem getElem?_getD {l : List α} (x : α) {i : Nat} (h : i < l.length) :
    l[i]? = some (l.getD i x) := by
  rw [List.getD_eq_getElem?_getD, List.getElem?_eq_getElem h, Option.getD_some]

theorem exists_getD_of_mem {l : List α} (x : α) {y : α} (h : y ∈ l) :
    ∃ i < l.length, l.getD i x = y := by
  obtain ⟨i, hi⟩ := List.mem_iff_getElem?.mp h
  refine ⟨i, (List.getElem?_eq_some_iff.mp hi).1, ?_⟩
  rw [List.getD_eq_getElem?_getD, hi, Option.getD_some]

theorem getAt_mid (l : List α) (x : α) (r : List α) : getAt (l ++ x :: r) l.length = some x := by
  rw [getAt_natCast, List.getElem?_append_right (Nat.le_refl _)]
  simp

theorem setAt_mid (l : List α) (x y : α) (r : List α) :
    setAt (l ++ x :: r) l.length y = some (l ++ y :: r) := by
  rw [setAt_natCast _ _ (by simp)]
  simp

/-- An entry of a list with one more is an old one, or it is the new one. -/
theorem getElem?_snoc {l : List α} {x y : α} {k : Nat} (h : (l ++ [x])[k]? = some y) :
    l[k]? = some y ∨ k = l.length ∧ y = x := by
  by_cases hlt : k < l.length
  · rw [List.getElem?_append_left hlt] at h
    exact .inl h
  · have hk := (List.getElem?_eq_some_iff.mp h).1
    rw [List.length_append, List.length_singleton] at hk
    obtain rfl : k = l.length := by omega
    rw [List.getElem?_concat_length] at h
    exact .inr ⟨rfl, (Option.some.inj h).symm⟩

theorem length_resizeTo (junk : Nat → α) {l : List α} {n : Nat} (hn : l.length ≤ n) :
    (resizeTo junk l n).length = n := by
  simp only [resizeTo, List.length_append, List.length_take, List.length_map, List.length_range']
  omega

/-- A larger block has the old cells in front. -/
theorem take_resizeTo (junk : Nat → α) {l : List α} {n k : Nat} (hn : l.length ≤ n)
    (hk : k ≤ l.length) : (resizeTo junk l n).take k = l.take k := by
  rw [resizeTo, List.take_of_length_le hn, List.take_append_of_le_length hk]

/-- Growing a block by `k` cells and setting these leaves no cell unset. -/
theorem memsetAt_resizeTo (junk : Nat → α) (l : List α) (k : Nat) (x : α) :
    memsetAt (resizeTo junk l (l.length + k)) (l.length : Int) (k : Int) x
      = some (l ++ List.replicate k x) := by
  have htake : l.take (l.length + k) = l := List.take_of_length_le (by omega)
  simp only [memsetAt, resizeTo, htake]
  rw [if_pos (by simp)]
  have hdrop : ((l.length : Int) + (k : Int)).toNat = l.length + k := by omega
  simp [hdrop]

/-! ## Tables that fill from the front -/

/-- Writing the first null entry of a table appends to what it lists. -/
theorem set_table (rows : List α) {k : Nat} (row : α) (hk : 0 < k) :
    (rows.map some ++ List.replicate k none).set rows.length (some row)
      = (rows ++ [row]).map some ++ List.replicate (k - 1) none := by
  obtain ⟨j, rfl⟩ : ∃ j, k = j + 1 := ⟨k - 1, by omega⟩
  rw [List.set_append_right _ _ (by simp)]
  simp [List.replicate_succ]

/-- The same for a table of `n` entries and a checked write. -/
theorem setAt_table (rows : List α) {n : Nat} (row : α) (hn : rows.length < n) :
    setAt (rows.map some ++ List.replicate (n - rows.length) none) (rows.length : Int) (some row)
      = some ((rows ++ [row]).map some ++ List.replicate (n - (rows ++ [row]).length) none) := by
  have hleft : n - rows.length - 1 = n - (rows ++ [row]).length := by
    rw [List.length_append, List.length_singleton]
    omega
  rw [setAt_natCast _ _ (by simp; omega), set_table rows row (by omega), hleft]

/-- An entry of the part that is filled. -/
theorem table_get {k q : Nat} (rows : List α) (hq : q < rows.length) :
    (rows.map some ++ List.replicate k none)[q]? = some (some (rows.get ⟨q, hq⟩)) := by
  rw [List.getElem?_append_left (by simp; omega)]
  simp [hq]

/-- The first entry of the part that is not. -/
theorem table_get_null {k : Nat} (rows : List α) (hk : 0 < k) :
    (rows.map some ++ List.replicate k none)[rows.length]? = some none := by
  rw [List.getElem?_append_right (by simp)]
  simp [hk]

/-- An entry stays at its index however long the part behind is. -/
theorem table_kept {k k' i : Nat} {row : α} (rows : List α)
    (h : (rows.map some ++ List.replicate k none)[i]? = some (some row)) :
    (rows.map some ++ List.replicate k' none)[i]? = some (some row) := by
  have hi : i < rows.length := by
    by_contra hge
    rw [List.getElem?_append_right (by simp; omega), List.getElem?_replicate] at h
    split_ifs at h
    exact nomatch Option.some.inj h
  rw [table_get rows hi] at h ⊢
  exact h

end Machine
