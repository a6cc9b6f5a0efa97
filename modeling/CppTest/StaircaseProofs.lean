import CppTest.MachineProofs

/-! # Searching an ordered matrix (`src/algs/jzoffer/ordered_2d_array_search.cpp`)

    The search starts at the end of the first row and goes left from a cell above the key
    and down from a cell below it.  But a cell is read at `a[i * m + j]`, with the number of
    ROWS, and `j >= 0` holds of every `size_t`.  So the walk is one on the flat array: to
    the left by 1, down by `m`, and `m` times down is the end.

    * A pass in terms of the flat place (`searchPass_at`, `searchPass_outside`).
    * The cells where the walk goes down (`stopFrom`): the last cell up to the present place
      that is not above the key, and from there `m` cells on.
    * The walk finds the key at one of these, or is lost when there is none
      (`walk_run`).  When the answer is right: `search_law_iff_stops`. -/

namespace Staircase

open Machine

/-! ## The model -/

/-- One pass of the loop: `i` and `j`. -/
def searchPass (a : List Int) (m : Nat) (key : Int) : Int × Int → Option (Pass (Int × Int) Bool)
  | (i, j) =>
      if i < m ∧ 0 ≤ j then do
        let x ← getAt a (wrap64 (wrap64 (i * m) + j))
        if key = x then some (.done true)
        else if key < x then some (.next (i, wrap64 (j - 1)))
        else some (.next (wrap64 (i + 1), j))
      else some (.done false)

/-- `ordered_2d_array_search`; `none` is a null pointer. -/
def ordered2dArraySearch (fuel : Nat) (a : Option (List Int)) (m n : Nat) (key : Int) :
    Option Bool :=
  match a with
  | none => some false
  | some a =>
      if 0 < m ∧ 0 < n then loop (searchPass a m key) fuel (0, wrap64 (n - 1)) else some false

/-! ## The matrix -/

def cell (a : List Int) (q : Nat) : Int := a.getD q 0

/-- The rows and the columns of the matrix are in order. -/
structure Ordered (a : List Int) (m n : Nat) : Prop where
  row : ∀ i < m, ∀ j, j + 1 < n → cell a (i * n + j) ≤ cell a (i * n + (j + 1))
  col : ∀ i, i + 1 < m → ∀ j < n, cell a (i * n + j) ≤ cell a ((i + 1) * n + j)

theorem getElem?_cell {a : List Int} {q : Nat} (h : q < a.length) : a[q]? = some (cell a q) :=
  getElem?_getD 0 h

theorem cell_mem {a : List Int} {q : Nat} (h : q < a.length) : cell a q ∈ a :=
  List.mem_of_getElem? (getElem?_cell h)

theorem exists_cell {a : List Int} {key : Int} (h : key ∈ a) :
    ∃ q < a.length, cell a q = key :=
  exists_getD_of_mem 0 h

theorem Ordered.row_le {a : List Int} {m n i j k : Nat} (h : Ordered a m n) (hi : i < m)
    (hjk : j ≤ k) (hk : k < n) : cell a (i * n + j) ≤ cell a (i * n + k) := by
  induction k, hjk using Nat.le_induction with
  | base => exact le_refl _
  | succ k hjk ih => exact (ih (by omega)).trans (h.row i hi k hk)

theorem Ordered.col_le {a : List Int} {m n i k j : Nat} (h : Ordered a m n) (hik : i ≤ k)
    (hk : k < m) (hj : j < n) : cell a (i * n + j) ≤ cell a (k * n + j) := by
  induction k, hik using Nat.le_induction with
  | base => exact le_refl _
  | succ k hik ih => exact (ih (by omega)).trans (h.col k hk j hj)

/-- The row and the column of a flat place. -/
theorem exists_place {m n q : Nat} (hq : q < m * n) : ∃ i < m, ∃ j < n, q = i * n + j := by
  have hn : 0 < n := Nat.pos_of_ne_zero fun h => by simp [h] at hq
  refine ⟨q / n, Nat.div_lt_of_lt_mul (Nat.mul_comm m n ▸ hq), q % n, Nat.mod_lt q hn, ?_⟩
  rw [Nat.mul_comm]
  exact (Nat.div_add_mod q n).symm

/-- No cell is below the first one. -/
theorem Ordered.first_le {a : List Int} {m n q : Nat} (h : Ordered a m n) (hq : q < m * n) :
    cell a 0 ≤ cell a q := by
  obtain ⟨i, hi, j, hj, rfl⟩ := exists_place hq
  have hrow := h.row_le (i := 0) (by omega) (Nat.zero_le j) hj
  have hcol := h.col_le (Nat.zero_le i) hi hj
  rw [Nat.zero_mul, Nat.zero_add, Nat.zero_add] at hrow
  rw [Nat.zero_mul, Nat.zero_add] at hcol
  exact hrow.trans hcol

/-! ## The walk -/

/-- The last cell up to `p` that is not above the key; there is none if `p` is outside the
    array. -/
def settle (a : List Int) (key : Int) : Nat → Option Nat
  | 0 => if 0 < a.length ∧ cell a 0 ≤ key then some 0 else none
  | p + 1 =>
      if p + 1 < a.length then
        if cell a (p + 1) ≤ key then some (p + 1) else settle a key p
      else none

/-- The cells from which the walk goes down, from the place `p` on. -/
def stopFrom (a : List Int) (m : Nat) (key : Int) : Nat → Nat → Option Nat
  | p, 0 => settle a key p
  | p, i + 1 => (settle a key p).bind fun q => stopFrom a m key (q + m) i

/-- What `settle` gives. -/
theorem settle_eq_some {a : List Int} {key : Int} : ∀ {p q : Nat}, settle a key p = some q →
    p < a.length ∧ q ≤ p ∧ cell a q ≤ key ∧ ∀ t, t ≤ p → cell a t ≤ key → t ≤ q := by
  intro p
  induction p with
  | zero =>
      intro q h
      rw [settle] at h
      split at h
      · next hin =>
          obtain rfl := Option.some.inj h
          exact ⟨hin.1, Nat.le_refl 0, hin.2, fun t ht _ => ht⟩
      · exact absurd h.symm (Option.some_ne_none _)
  | succ p ih =>
      intro q h
      rw [settle] at h
      split at h
      · next hin =>
          split at h
          · next hle =>
              obtain rfl := Option.some.inj h
              exact ⟨hin, Nat.le_refl _, hle, fun t ht _ => ht⟩
          · next hgt =>
              obtain ⟨-, hq, hcell, hlast⟩ := ih h
              refine ⟨hin, by omega, hcell, fun t ht htle => ?_⟩
              rcases Nat.lt_or_eq_of_le ht with hlt | rfl
              · exact hlast t (by omega) htle
              · exact absurd htle hgt
      · exact absurd h.symm (Option.some_ne_none _)

theorem settle_eq_none {a : List Int} {key : Int} : ∀ {p : Nat}, settle a key p = none →
    a.length ≤ p ∨ p < a.length ∧ ∀ t ≤ p, key < cell a t := by
  intro p h
  by_cases hp : p < a.length
  · refine .inr ⟨hp, ?_⟩
    induction p with
    | zero =>
        intro t ht
        obtain rfl : t = 0 := by omega
        rw [settle] at h
        split at h
        · exact absurd h (Option.some_ne_none _)
        · next hno => exact Int.not_le.mp fun hle => hno ⟨hp, hle⟩
    | succ p ih =>
        intro t ht
        rw [settle, if_pos hp] at h
        split at h
        · exact absurd h (Option.some_ne_none _)
        · next hgt =>
            rcases Nat.lt_or_eq_of_le ht with hlt | rfl
            · exact ih h (by omega) t (by omega)
            · exact Int.not_le.mp hgt
  · exact .inl (by omega)

theorem settle_isSome {a : List Int} {key : Int} (hfirst : cell a 0 ≤ key) : ∀ {p : Nat},
    p < a.length → ∃ q, settle a key p = some q := by
  intro p
  induction p with
  | zero =>
      intro hp
      refine ⟨0, ?_⟩
      rw [settle, if_pos ⟨hp, hfirst⟩]
  | succ p ih =>
      intro hp
      rw [settle, if_pos hp]
      by_cases hle : cell a (p + 1) ≤ key
      · exact ⟨p + 1, if_pos hle⟩
      · rw [if_neg hle]
        exact ih (by omega)

/-- The loop state at the flat place `p`, after `i` times down. -/
def place (m i : Nat) (p : Int) : Int × Int := (i, wrap64 (p - i * m))

theorem index_place (m i : Nat) (p : Int) :
    wrap64 (wrap64 ((i : Int) * m) + wrap64 (p - i * m)) = wrap64 p := by
  rw [wrap64, wrap64, wrap64, ← Int.add_emod, Int.add_comm, Int.sub_add_cancel]
  rfl

/-- A place outside the array, or with nothing but cells above the key to its left. -/
def Lost (a : List Int) (m : Nat) (key : Int) (i : Nat) (s : Int × Int) : Prop :=
  ∃ p : Int, s = place m i p ∧ ((p = -1 ∨ (a.length : Int) ≤ p ∧ p < 2 ^ 64)
    ∨ ∃ q : Nat, p = q ∧ q < a.length ∧ ∀ t ≤ q, key < cell a t)

section Walk

variable {a : List Int} {m : Nat} {key : Int} (hsize : 4 * a.length < 2 ^ 64)
  (hm : m ≤ a.length)

include hsize hm

/-- A pass at a place inside the array. -/
theorem searchPass_at {i p : Nat} (hi : i < m) (hp : p < a.length) :
    searchPass a m key (place m i p)
      = if key = cell a p then some (.done true)
        else if key < cell a p then some (.next (place m i ((p : Int) - 1)))
        else some (.next (place m (i + 1) ((p + m : Nat) : Int))) := by
  have hindex : wrap64 (wrap64 ((i : Int) * m) + wrap64 ((p : Int) - i * m)) = (p : Int) := by
    rw [index_place]
    exact wrap64_eq (by omega) (by omega)
  have hleft : wrap64 (wrap64 ((p : Int) - i * m) - 1) = wrap64 ((p : Int) - 1 - i * m) := by
    rw [wrap64, wrap64, wrap64, Int.emod_sub_emod]
    congr 1
    omega
  have hdown : wrap64 ((i : Int) + 1) = ((i + 1 : Nat) : Int) := wrap64_eq (by omega) (by omega)
  have hsame : (p : Int) - i * m = ((p + m : Nat) : Int) - ((i + 1 : Nat) : Int) * m := by
    push_cast
    rw [Int.add_mul]
    omega
  have hj : (0 : Int) ≤ wrap64 ((p : Int) - i * m) := Int.emod_nonneg _ (by decide)
  rw [place, searchPass, if_pos ⟨by omega, hj⟩, hindex, hleft, hdown, getAt_natCast,
    getElem?_cell hp, place, place, ← hsame]
  rfl

/-- A pass to the left of the array, or behind it. -/
theorem searchPass_outside {i : Nat} {p : Int} (hi : i < m)
    (hp : p = -1 ∨ (a.length : Int) ≤ p ∧ p < 2 ^ 64) :
    searchPass a m key (place m i p) = none := by
  have hout : getAt a (wrap64 p) = none := by
    have hindex : ∃ k : Nat, wrap64 p = (k : Int) ∧ a.length ≤ k := by
      rcases hp with rfl | ⟨hge, hlt⟩
      -- -1 is the largest `size_t`
      · exact ⟨2 ^ 64 - 1, rfl, by omega⟩
      · refine ⟨p.toNat, ?_, by omega⟩
        rw [wrap64_eq (by omega) hlt]
        omega
    obtain ⟨k, hk, hge⟩ := hindex
    rw [hk, getAt_natCast, List.getElem?_eq_none hge]
  have hj : (0 : Int) ≤ wrap64 (p - i * m) := Int.emod_nonneg _ (by decide)
  rw [place, searchPass, if_pos ⟨by omega, hj⟩, index_place, hout]
  rfl

/-- A pass at a cell above the key. -/
theorem searchPass_left {i p : Nat} (hi : i < m) (hp : p < a.length) (hlt : key < cell a p) :
    searchPass a m key (place m i p) = some (.next (place m i ((p : Int) - 1))) := by
  rw [searchPass_at hsize hm hi hp, if_neg (Int.ne_of_lt hlt), if_pos hlt]

/-- From such a place the walk leaves the array. -/
theorem walk_lost {i p : Nat} (hi : i < m) (hp : p < 2 ^ 64) (h : settle a key p = none)
    (fuel : Nat) : loop (searchPass a m key) fuel (place m i p) = none := by
  have hpass : ∀ s, Lost a m key i s → searchPass a m key s = none
      ∨ ∃ s', searchPass a m key s = some (.next s') ∧ Lost a m key i s' := by
    rintro s ⟨p, rfl, hout | ⟨q, rfl, hq, habove⟩⟩
    · exact .inl (searchPass_outside hsize hm hi hout)
    · refine .inr ⟨_, searchPass_left hsize hm hi hq (habove q (Nat.le_refl q)), _, rfl, ?_⟩
      cases q with
      | zero => exact .inl (.inl rfl)
      | succ q => exact .inr ⟨q, by omega, by omega, fun t ht => habove t (by omega)⟩
  refine loop_never hpass fuel _ ⟨p, rfl, ?_⟩
  rcases settle_eq_none h with hout | ⟨hin, habove⟩
  · exact .inl (.inr ⟨by omega, by omega⟩)
  · exact .inr ⟨p, rfl, hin, habove⟩

/-- The walk to the left ends where `settle` says. -/
theorem walk_left {i : Nat} (hi : i < m) : ∀ {p q : Nat}, settle a key p = some q →
    ∃ k, ∀ fuel, loop (searchPass a m key) (fuel + k) (place m i p)
      = loop (searchPass a m key) fuel (place m i q) := by
  intro p
  induction p with
  | zero =>
      intro q h
      have hq := (settle_eq_some h).2.1
      obtain rfl : q = 0 := by omega
      exact ⟨0, fun fuel => rfl⟩
  | succ p ih =>
      intro q h
      rw [settle] at h
      split at h
      · next hin =>
          split at h
          · obtain rfl := Option.some.inj h
            exact ⟨0, fun fuel => rfl⟩
          · next hgt =>
              obtain ⟨k, hk⟩ := ih h
              refine ⟨k + 1, fun fuel => ?_⟩
              have hleft : ((p + 1 : Nat) : Int) - 1 = (p : Int) := by omega
              rw [loop_next (by omega) (searchPass_left hsize hm hi hin (Int.not_le.mp hgt)),
                hleft, ← hk]
              rfl
      · exact absurd h.symm (Option.some_ne_none _)

end Walk

/-- The answer of the walk with `k` times down left. -/
def walk (a : List Int) (m : Nat) (key : Int) : Nat → Nat → Option Bool
  | 0, _ => some false
  | k + 1, p => (settle a key p).bind fun q =>
      if cell a q = key then some true else walk a m key k (q + m)

/-- **The loop gives the answer of the walk**, and no answer if the walk is lost; by induction
    on how often it still goes down. -/
theorem walk_run {a : List Int} {m : Nat} {key : Int} (hsize : 4 * a.length < 2 ^ 64)
    (hm : m ≤ a.length) : ∀ (k i p : Nat), i + k = m → p < 2 ^ 64 →
    (∃ r, walk a m key k p = some r ∧ ∃ enough, ∀ fuel, enough < fuel →
      loop (searchPass a m key) fuel (place m i p) = some r)
    ∨ (walk a m key k p = none ∧ ∀ fuel, loop (searchPass a m key) fuel (place m i p) = none) := by
  intro k
  induction k with
  | zero =>
      intro i p hik _
      refine .inl ⟨false, rfl, 0, fun fuel hfuel => loop_done hfuel ?_⟩
      rw [place, searchPass, if_neg (by omega)]
  | succ k ih =>
      intro i p hik hp
      have hi : i < m := by omega
      rw [walk]
      -- to the left as far as it goes, then one pass there
      cases hq : settle a key p with
      | none => exact .inr ⟨rfl, walk_lost hsize hm hi hp hq⟩
      | some q =>
          obtain ⟨hin, hle, hcell, -⟩ := settle_eq_some hq
          obtain ⟨j, hj⟩ := walk_left hsize hm hi hq
          have hpass := @searchPass_at a m key hsize hm i q hi (by omega)
          rw [Option.bind_some]
          by_cases hkey : cell a q = key
          · rw [if_pos hkey.symm] at hpass
            rw [if_pos hkey]
            refine .inl ⟨true, rfl, j, fun fuel hfuel => ?_⟩
            obtain ⟨f, rfl⟩ : ∃ f, fuel = f + j := ⟨fuel - j, by omega⟩
            rw [hj, loop_done (by omega) hpass]
          · rw [if_neg (fun h => hkey h.symm), if_neg (by omega)] at hpass
            rw [if_neg hkey]
            rcases ih (i + 1) (q + m) (by omega) (by omega) with ⟨r, hr, enough, hrun⟩ | ⟨hr, hrun⟩
            · refine .inl ⟨r, hr, enough + 1 + j, fun fuel hfuel => ?_⟩
              obtain ⟨f, rfl⟩ : ∃ f, fuel = f + j := ⟨fuel - j, by omega⟩
              rw [hj, loop_next (by omega) hpass, hrun _ (by omega)]
            · refine .inr ⟨hr, fun fuel => ?_⟩
              -- a result would be one for more fuel too, which passes the walk to the left
              by_contra hsome
              obtain ⟨r, hr'⟩ := Option.ne_none_iff_exists'.mp hsome
              have hmore := loop_mono (fun _ _ h => h) (Nat.le_add_right fuel (j + 1)) hr'
              rw [← Nat.add_assoc, Nat.add_right_comm, hj, loop_next (by omega) hpass,
                hrun] at hmore
              exact absurd hmore.symm (Option.some_ne_none _)

theorem walk_true_iff {a : List Int} {m : Nat} {key : Int} : ∀ {k p : Nat},
    walk a m key k p = some true
      ↔ ∃ t < k, ∃ q, stopFrom a m key p t = some q ∧ cell a q = key := by
  intro k
  induction k with
  | zero =>
      intro p
      constructor
      · exact fun h => absurd (Option.some.inj h) Bool.false_ne_true
      · rintro ⟨t, ht, -⟩
        exact absurd ht (Nat.not_lt_zero t)
  | succ k ih =>
      intro p
      rw [walk]
      cases hq : settle a key p with
      | none =>
          refine ⟨fun h => absurd h.symm (Option.some_ne_none _), ?_⟩
          rintro ⟨t, -, q, hstop, -⟩
          cases t with
          | zero => exact absurd (hq.symm.trans hstop).symm (Option.some_ne_none _)
          | succ t =>
              rw [stopFrom, hq] at hstop
              exact absurd hstop.symm (Option.some_ne_none _)
      | some q =>
          rw [Option.bind_some]
          by_cases hkey : cell a q = key
          · rw [if_pos hkey]
            exact ⟨fun _ => ⟨0, Nat.succ_pos k, q, hq, hkey⟩, fun _ => rfl⟩
          · rw [if_neg hkey, ih]
            constructor
            · rintro ⟨t, ht, q', hstop, hq'⟩
              refine ⟨t + 1, by omega, q', ?_, hq'⟩
              rw [stopFrom, hq]
              exact hstop
            · rintro ⟨t, ht, q', hstop, hq'⟩
              cases t with
              | zero =>
                  obtain rfl := Option.some.inj (hq.symm.trans hstop)
                  exact absurd hq' hkey
              | succ t =>
                  rw [stopFrom, hq] at hstop
                  exact ⟨t, by omega, q', hstop, hq'⟩

theorem walk_false_iff {a : List Int} {m : Nat} {key : Int} : ∀ {k p : Nat},
    walk a m key k p = some false
      ↔ ∀ t < k, ∃ q, stopFrom a m key p t = some q ∧ cell a q ≠ key := by
  intro k
  induction k with
  | zero => exact fun {p} => ⟨fun _ t ht => absurd ht (Nat.not_lt_zero t), fun _ => rfl⟩
  | succ k ih =>
      intro p
      rw [walk]
      cases hq : settle a key p with
      | none =>
          refine ⟨fun h => absurd h.symm (Option.some_ne_none _), fun h => ?_⟩
          obtain ⟨q, hstop, -⟩ := h 0 (Nat.succ_pos k)
          exact absurd (hq.symm.trans hstop).symm (Option.some_ne_none _)
      | some q =>
          rw [Option.bind_some]
          by_cases hkey : cell a q = key
          · rw [if_pos hkey]
            refine ⟨fun h => absurd (Option.some.inj h).symm Bool.false_ne_true, fun h => ?_⟩
            obtain ⟨q', hstop, hne⟩ := h 0 (Nat.succ_pos k)
            obtain rfl := Option.some.inj (hq.symm.trans hstop)
            exact absurd hkey hne
          · rw [if_neg hkey, ih]
            constructor
            · intro h t ht
              cases t with
              | zero => exact ⟨q, hq, hkey⟩
              | succ t =>
                  rw [stopFrom, hq]
                  exact h t (by omega)
            · intro h t ht
              have hnext := h (t + 1) (by omega)
              rw [stopFrom, hq] at hnext
              exact hnext

/-! ## When the answer is right -/

/-- What the function is for. -/
def SearchLaw (a : List Int) (m n : Nat) (key : Int) : Prop :=
  ∃ enough, ∀ fuel, enough < fuel →
    ordered2dArraySearch fuel (some a) m n key = some (decide (key ∈ a))

/-- One of the `m` cells from which the walk goes down holds a key that occurs; and if the
    key does not occur, there are these `m` cells. -/
def StopsRight (a : List Int) (m n : Nat) (key : Int) : Prop :=
  if key ∈ a then ∃ t < m, ∃ q, stopFrom a m key (n - 1) t = some q ∧ cell a q = key
  else ∀ t < m, ∃ q, stopFrom a m key (n - 1) t = some q

theorem stopFrom_lt {a : List Int} {m : Nat} {key : Int} : ∀ {t p q : Nat},
    stopFrom a m key p t = some q → q < a.length := by
  intro t
  induction t with
  | zero =>
      intro p q h
      obtain ⟨hp, hq, -⟩ := settle_eq_some h
      exact Nat.lt_of_le_of_lt hq hp
  | succ t ih =>
      intro p q h
      rw [stopFrom, Option.bind_eq_some_iff] at h
      obtain ⟨q', -, h⟩ := h
      exact ih h

theorem stopFrom_first {a : List Int} {m : Nat} {key : Int} {t p q : Nat}
    (h : stopFrom a m key p t = some q) : ∃ q', settle a key p = some q' := by
  cases t with
  | zero => exact ⟨q, h⟩
  | succ t =>
      rw [stopFrom, Option.bind_eq_some_iff] at h
      obtain ⟨q', hq', -⟩ := h
      exact ⟨q', hq'⟩

theorem walk_eq_iff {a : List Int} {m n : Nat} {key : Int} :
    walk a m key m (n - 1) = some (decide (key ∈ a)) ↔ StopsRight a m n key := by
  rw [StopsRight]
  by_cases hkey : key ∈ a
  · rw [if_pos hkey, decide_eq_true hkey]
    exact walk_true_iff
  · rw [if_neg hkey, decide_eq_false hkey, walk_false_iff]
    constructor
    · intro h t ht
      obtain ⟨q, hstop, -⟩ := h t ht
      exact ⟨q, hstop⟩
    · intro h t ht
      obtain ⟨q, hstop⟩ := h t ht
      exact ⟨q, hstop, fun heq => hkey (heq ▸ cell_mem (stopFrom_lt hstop))⟩

theorem law_iff_stops {a : List Int} {m n : Nat} (hm : 0 < m) (hn : 0 < n)
    (hlen : a.length = m * n) (hsize : 4 * a.length < 2 ^ 64) (key : Int) :
    SearchLaw a m n key ↔ StopsRight a m n key := by
  have hle : m ≤ a.length := hlen ▸ Nat.le_mul_of_pos_right m hn
  have hle' : n ≤ a.length := hlen ▸ Nat.le_mul_of_pos_left n hm
  have hrun : ∀ fuel, ordered2dArraySearch fuel (some a) m n key
      = loop (searchPass a m key) fuel (place m 0 ((n - 1 : Nat) : Int)) := by
    intro fuel
    rw [place, Int.ofNat_zero, Int.zero_mul, Int.sub_zero, Int.natCast_sub hn]
    exact if_pos ⟨hm, hn⟩
  rw [← walk_eq_iff]
  rcases walk_run hsize hle m 0 (n - 1) (Nat.zero_add m) (by omega) with
    ⟨r, hwalk, enough, hloop⟩ | ⟨hwalk, hloop⟩
  · rw [hwalk, Option.some.injEq]
    constructor
    · rintro ⟨enough', hlaw⟩
      have heq := hlaw (enough + enough' + 1) (by omega)
      rw [hrun, hloop _ (by omega)] at heq
      exact Option.some.inj heq
    · rintro rfl
      exact ⟨enough, fun fuel hfuel => (hrun fuel).trans (hloop fuel hfuel)⟩
  · rw [hwalk]
    refine ⟨?_, (nomatch ·)⟩
    rintro ⟨enough, hlaw⟩
    have heq := hlaw (enough + 1) (Nat.lt_succ_self _)
    rw [hrun, hloop] at heq
    exact absurd heq.symm (Option.some_ne_none _)

/-- Where the answer is right, the key is not below the first cell. -/
theorem StopsRight.first_le {a : List Int} {m n : Nat} {key : Int} (h : StopsRight a m n key)
    (hm : 0 < m) (hlen : a.length = m * n) (hord : Ordered a m n) : cell a 0 ≤ key := by
  have hstop : ∃ t q, stopFrom a m key (n - 1) t = some q := by
    rw [StopsRight] at h
    split at h
    · obtain ⟨t, -, q, hq, -⟩ := h
      exact ⟨t, q, hq⟩
    · obtain ⟨q, hq⟩ := h 0 hm
      exact ⟨0, q, hq⟩
  obtain ⟨t, q, hq⟩ := hstop
  obtain ⟨q', hq'⟩ := stopFrom_first hq
  obtain ⟨hin, hle, hcell, -⟩ := settle_eq_some hq'
  exact (hord.first_le (by omega)).trans hcell

/-- The walk is not lost where `m` steps down from the first row stay inside. -/
theorem stopFrom_isSome {a : List Int} {m : Nat} {key : Int} (hfirst : cell a 0 ≤ key) :
    ∀ {t p : Nat}, p + t * m < a.length → ∃ q, stopFrom a m key p t = some q := by
  intro t
  induction t with
  | zero =>
      intro p hp
      rw [Nat.zero_mul, Nat.add_zero] at hp
      exact settle_isSome hfirst hp
  | succ t ih =>
      intro p hp
      rw [Nat.succ_mul] at hp
      obtain ⟨q, hq⟩ := settle_isSome hfirst (show p < a.length by omega)
      have hle := (settle_eq_some hq).2.1
      obtain ⟨q', hq'⟩ := ih (show q + m + t * m < a.length by omega)
      refine ⟨q', ?_⟩
      rw [stopFrom, hq]
      exact hq'

theorem stops_of_wide {a : List Int} {m n : Nat} {key : Int} (hn : 0 < n) (hlen : a.length = m * n)
    (hmn : m ≤ n) (hfirst : cell a 0 ≤ key) :
    ∀ t < m, ∃ q, stopFrom a m key (n - 1) t = some q := by
  intro t ht
  refine stopFrom_isSome hfirst ?_
  have hrows : (t + 1) * n ≤ m * n := Nat.mul_le_mul_right n ht
  have hstep : t * m ≤ t * n := Nat.mul_le_mul_left t hmn
  rw [Nat.succ_mul] at hrows
  omega

/-- **The staircase.**  In a square matrix the walk stays to the right of the key's column, row
    by row, until it meets the key; by induction on the rows above it. -/
theorem stops_of_square {a : List Int} {m n k j : Nat} {key : Int} (hlen : a.length = m * n)
    (hord : Ordered a m n) (hmn : m = n ∨ m = 1) (hk : k < m) (hj : j < n)
    (hkey : cell a (k * n + j) = key) :
    ∀ (d i p : Nat), i + d = k → i * n + j ≤ p → p < i * n + n →
      ∃ t ≤ d, ∃ q, stopFrom a m key p t = some q ∧ cell a q = key := by
  have hfirst : cell a 0 ≤ key := by
    have hplace : (k + 1) * n ≤ m * n := Nat.mul_le_mul_right n hk
    rw [Nat.succ_mul] at hplace
    rw [← hkey]
    exact hord.first_le (by omega)
  intro d
  induction d with
  | zero =>
      intro i p hik hle hlt
      obtain rfl : i = k := hik
      have hplace : (i + 1) * n ≤ m * n := Nat.mul_le_mul_right n hk
      rw [Nat.succ_mul] at hplace
      obtain ⟨q, hq⟩ := settle_isSome hfirst (show p < a.length by omega)
      obtain ⟨-, hqp, hcell, hlast⟩ := settle_eq_some hq
      have hright := hlast (i * n + j) hle (Int.le_of_eq hkey)
      obtain ⟨j', rfl⟩ : ∃ j', q = i * n + j' := ⟨q - i * n, by omega⟩
      have hrow := hord.row_le hk (show j ≤ j' by omega) (by omega)
      exact ⟨0, Nat.le_refl 0, _, hq, Int.le_antisymm hcell (hkey ▸ hrow)⟩
  | succ d ih =>
      intro i p hik hle hlt
      obtain rfl : m = n := by omega
      have hplace : (i + 1) * m ≤ m * m := Nat.mul_le_mul_right m (by omega)
      rw [Nat.succ_mul] at hplace
      obtain ⟨q, hq⟩ := settle_isSome hfirst (show p < a.length by omega)
      obtain ⟨-, hqp, hcell, hlast⟩ := settle_eq_some hq
      have hcol := hord.col_le (show i ≤ k by omega) hk hj
      have hright := hlast (i * m + j) hle (hkey ▸ hcol)
      by_cases hfound : cell a q = key
      · exact ⟨0, Nat.zero_le _, q, hq, hfound⟩
      · obtain ⟨t, ht, q', hstop, hq'⟩ := ih (i + 1) (q + m) (by omega)
          (by rw [Nat.succ_mul]; omega) (by rw [Nat.succ_mul]; omega)
        refine ⟨t + 1, by omega, q', ?_, hq'⟩
        rw [stopFrom, hq]
        exact hstop

theorem stopsRight_of_square {a : List Int} {m n : Nat} {key : Int} (hn : 0 < n)
    (hlen : a.length = m * n) (hord : Ordered a m n) (hmn : m = n ∨ m = 1)
    (hfirst : cell a 0 ≤ key) : StopsRight a m n key := by
  rw [StopsRight]
  split
  · next hmem =>
      obtain ⟨q, hq, hkey⟩ := exists_cell hmem
      obtain ⟨k, hk, j, hj, rfl⟩ := exists_place (hlen ▸ hq)
      obtain ⟨t, ht, q, hstop, hcell⟩ := stops_of_square hlen hord hmn hk hj hkey k 0 (n - 1)
        (Nat.zero_add k) (by omega) (by omega)
      exact ⟨t, by omega, q, hstop, hcell⟩
  · exact stops_of_wide hn hlen (by omega) hfirst

/-- **The search** of an ordered matrix is right exactly if the walk on the flat array is.  A
    key that does not occur is reported so in a matrix that is not higher than wide if it is
    not below the first cell; and in a square matrix, or a single row, the same holds of
    every key. -/
theorem search_law_iff_stops {a : List Int} {m n : Nat} (hm : 0 < m) (hn : 0 < n)
    (hlen : a.length = m * n) (hsize : 4 * a.length < 2 ^ 64) (hord : Ordered a m n) (key : Int) :
    (SearchLaw a m n key ↔ StopsRight a m n key)
    ∧ (m ≤ n → key ∉ a → (SearchLaw a m n key ↔ cell a 0 ≤ key))
    ∧ (m = n ∨ m = 1 → (SearchLaw a m n key ↔ cell a 0 ≤ key)) := by
  have hiff := law_iff_stops hm hn hlen hsize key
  refine ⟨hiff, ?_, ?_⟩
  · intro hmn hkey
    rw [hiff]
    refine ⟨fun h => h.first_le hm hlen hord, fun hfirst => ?_⟩
    rw [StopsRight, if_neg hkey]
    exact stops_of_wide hn hlen hmn hfirst
  · intro hmn
    rw [hiff]
    exact ⟨fun h => h.first_le hm hlen hord, stopsRight_of_square hn hlen hord hmn⟩

theorem search_law_square : SearchLaw [1, 2, 2, 4] 2 2 2 := by
  have hord : Ordered [1, 2, 2, 4] 2 2 := by
    constructor
    · intro i hi j hj
      obtain rfl : j = 0 := by omega
      obtain rfl | rfl : i = 0 ∨ i = 1 := by omega
      · decide
      · decide
    · intro i hi j hj
      obtain rfl : i = 0 := by omega
      obtain rfl | rfl : j = 0 ∨ j = 1 := by omega
      · decide
      · decide
  exact ((search_law_iff_stops (by decide) (by decide) rfl (by decide) hord 2).2.2 (.inl rfl)).mpr
    (by decide)

/-- A key below a single cell is looked for to the left of the array; and in a matrix of two rows
    and three columns the last cell is not found. -/
theorem search_law_misses :
    (Ordered [1] 1 1 ∧ ¬ SearchLaw [1] 1 1 0)
    ∧ ordered2dArraySearch 20 (some [1, 2, 3, 4, 5, 6]) 2 3 6 = some false := by
  have hord : Ordered [1] 1 1 := ⟨fun i hi j hj => by omega, fun i hi j hj => by omega⟩
  refine ⟨⟨hord, fun h => ?_⟩, by decide⟩
  have hfirst := ((law_iff_stops (by decide) (by decide) rfl (by decide) 0).mp h).first_le
    (by decide) rfl hord
  exact absurd hfirst (by decide)

end Staircase
