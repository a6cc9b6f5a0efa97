import CppTest.MachineProofs
import Mathlib.Order.Bounds.Basic

/-! # The largest sum in a triangle (`src/algs/9787302356288/9787302356288.c`)

    The cells with `i + j < n` of a table, walked from `(0, 0)` to `(i + 1, j)` or to
    `(i, j + 1)`.  The recursions stop at the negative cells of the diagonal `i + j = n`; the
    version from below goes along the diagonals from `i + j = n - 1` on.

    * The largest sum from a cell, by the number of diagonals left (`best`), is the largest of
      the sums along paths (`best_isGreatest`).
    * What one path may sum up bounds every sum of the code, as each cell is on a path from
      `(0, 0)` (`Numbers.best_le`).
    * The three versions give it (`solve1R_eq`, `solve2_eq`, `solve3_eq`). -/

namespace Triangle

open Machine

/-! ## The model -/

/-- Read `p[i][j]`. -/
def readCell (p : List (List Int)) (i j : Nat) : Option Int := do
  let row ← getAt p i
  getAt row j

/-- Write `d[i][j] = x`. -/
def writeCell (d : List (List Int)) (i j : Nat) (x : Int) : Option (List (List Int)) := do
  let row ← getAt d i
  let row ← setAt row j x
  setAt d i row

/-- `x < 0 ? 0 : (x + max(a, b))` where `a` and `b` are calls.  The macro `max` makes the call
    with the larger result again. -/
def cellSum (x : Int) (a b : Option Int) : Option Int :=
  if x < 0 then some 0
  else do
    let a' ← a
    let b' ← b
    let m ← if b' < a' then a else b
    int32 (x + m)

def solve1R : Nat → List (List Int) → Nat → Nat → Nat → Option Int
  | 0, _, _, _, _ => none
  | fuel + 1, p, i, j, n => do
      let x ← readCell p i j
      cellSum x (solve1R fuel p (i + 1) j n) (solve1R fuel p i (j + 1) n)

def solve1 (fuel : Nat) (p : List (List Int)) (n : Nat) : Option Int := solve1R fuel p 0 0 n

/-- `solve2_r`, with `d` after the call.  It goes on with `solve1_r`. -/
def solve2R (fuel : Nat) (p : List (List Int)) (i j n : Nat) (d : List (List Int)) :
    Option (List (List Int) × Int) :=
  if 0 < n then do
    let y ← readCell d i j
    if 0 ≤ y then some (d, y)
    else do
      let x ← readCell p i j
      let v ← cellSum x (solve1R fuel p (i + 1) j n) (solve1R fuel p i (j + 1) n)
      let d ← writeCell d i j v
      some (d, v)
  else none

def solve2 (fuel : Nat) (p d : List (List Int)) (n : Nat) : Option (List (List Int) × Int) := do
  let d ← (List.range n).foldlM (fun d i =>
    (List.range (n - i)).reverse.foldlM (fun d j => writeCell d i j (-1)) d) d
  solve2R fuel p 0 0 n d

/-- One pass of the inner loop of `solve3`. -/
def solve3Pass (p : List (List Int)) (n k : Nat) (d : List (List Int)) (j : Nat) :
    Option (List (List Int)) :=
  let i := k - j
  if i + j = n - 1 then do
    let x ← readCell p i j
    writeCell d i j x
  else do
    let x ← readCell p i j
    let a ← readCell d (i + 1) j
    let b ← readCell d i (j + 1)
    let v ← int32 (x + if b < a then a else b)
    writeCell d i j v

def solve3 (p d : List (List Int)) (n : Nat) : Option (List (List Int) × Int) := do
  let d ← (List.range n).reverse.foldlM (fun d k =>
    (List.range (k + 1)).foldlM (solve3Pass p n k) d) d
  let v ← readCell d 0 0
  some (d, v)

/-! ## Tables -/

def cell (p : List (List Int)) (i j : Nat) : Int := (p.getD i []).getD j 0

/-- At least `rows` rows of `maxN` cells. -/
structure Table (maxN rows : Nat) (p : List (List Int)) : Prop where
  rows : rows ≤ p.length
  wide : ∀ row ∈ p, row.length = maxN

theorem Table.read {maxN rows i j : Nat} {p : List (List Int)} (h : Table maxN rows p)
    (hi : i < rows) (hj : j < maxN) : readCell p i j = some (cell p i j) := by
  have hrow : p[i]? = some (p.getD i []) := getElem?_getD [] (hi.trans_le h.rows)
  have hwide := h.wide _ (List.mem_of_getElem? hrow)
  rw [readCell, getAt_natCast, hrow, Option.bind_eq_bind, Option.bind_some, getAt_natCast]
  exact getElem?_getD 0 (by rw [hwide]; exact hj)

/-- A write into a table: the cell is set, and no other one is changed. -/
theorem Table.write {maxN rows i j : Nat} {d : List (List Int)} (h : Table maxN rows d)
    (hi : i < rows) (hj : j < maxN) (x : Int) :
    ∃ d', writeCell d i j x = some d' ∧ Table maxN rows d' ∧ readCell d' i j = some x
      ∧ ∀ i' j', ¬ (i' = i ∧ j' = j) → readCell d' i' j' = readCell d i' j' := by
  have hlt : i < d.length := hi.trans_le h.rows
  obtain ⟨row, hrow⟩ : ∃ row, d[i]? = some row := ⟨_, List.getElem?_eq_getElem hlt⟩
  have hwide := h.wide row (List.mem_of_getElem? hrow)
  refine ⟨d.set i (row.set j x), ?_, ⟨?_, ?_⟩, ?_, ?_⟩
  · simp only [writeCell, getAt_natCast, hrow, Option.bind_eq_bind, Option.bind_some]
    rw [setAt_natCast row x (by rw [hwide]; exact hj), Option.bind_some, setAt_natCast d _ hlt]
  · rw [List.length_set]
    exact h.rows
  -- rows stay as wide as they are
  · intro row' hrow'
    rcases List.mem_or_eq_of_mem_set hrow' with hold | rfl
    · exact h.wide row' hold
    · rw [List.length_set, hwide]
  · simp only [readCell, getAt_natCast, List.getElem?_set_self hlt, Option.bind_eq_bind,
      Option.bind_some]
    exact List.getElem?_set_self (by rw [hwide]; exact hj)
  · intro i' j' hne
    simp only [readCell, getAt_natCast]
    by_cases hii : i = i'
    · subst hii
      rw [List.getElem?_set_self hlt, hrow]
      exact List.getElem?_set_ne fun hjj => hne ⟨rfl, hjj.symm⟩
    · rw [List.getElem?_set_ne hii]

/-! ## Paths -/

/-- The sums along the paths from a cell that stay inside the triangle. -/
inductive PathSum (p : List (List Int)) (n : Nat) : Nat → Nat → Int → Prop where
  | stop {i j : Nat} : i + j < n → PathSum p n i j (cell p i j)
  | down {i j : Nat} {s : Int} : i + j < n → PathSum p n (i + 1) j s →
      PathSum p n i j (cell p i j + s)
  | right {i j : Nat} {s : Int} : i + j < n → PathSum p n i (j + 1) s →
      PathSum p n i j (cell p i j + s)

/-- The largest sum from a cell with `e` diagonals left. -/
def best (p : List (List Int)) : Nat → Nat → Nat → Int
  | 0, _, _ => 0
  | e + 1, i, j => cell p i j + max (best p e (i + 1) j) (best p e i (j + 1))

/-- A triangle of numbers inside its border of negative ones, where no path sums up to more
    than an `int`. -/
structure Numbers (maxN n : Nat) (p : List (List Int)) : Prop where
  pos : 1 ≤ n
  lt : n < maxN
  table : Table maxN (n + 1) p
  inside : ∀ i j, i + j < n → 0 ≤ cell p i j
  border : ∀ i j, i + j = n → cell p i j < 0
  sums : ∀ s, PathSum p n 0 0 s → s ≤ intMax

section Best

variable {maxN n : Nat} {p : List (List Int)}

theorem best_nonneg (hin : ∀ i j, i + j < n → 0 ≤ cell p i j) :
    ∀ e i j, i + j + e = n → 0 ≤ best p e i j := by
  intro e
  induction e with
  | zero => exact fun i j _ => Int.le_refl 0
  | succ e ih =>
      intro i j hij
      have hcell := hin i j (by omega)
      have hdown := ih (i + 1) j (by omega)
      rw [best]
      exact Int.add_nonneg hcell (hdown.trans (le_max_left _ _))

/-- No path has a larger sum. -/
theorem le_best (hin : ∀ i j, i + j < n → 0 ≤ cell p i j) {i j : Nat} {s : Int}
    (hs : PathSum p n i j s) : ∀ e, i + j + e = n → s ≤ best p e i j := by
  induction hs with
  | @stop i j hij =>
      intro e he
      obtain ⟨e, rfl⟩ : ∃ k, e = k + 1 := ⟨e - 1, by omega⟩
      have hdown := best_nonneg hin e (i + 1) j (by omega)
      rw [best]
      exact le_add_of_nonneg_right (hdown.trans (le_max_left _ _))
  | @down i j s hij _ ih =>
      intro e he
      obtain ⟨e, rfl⟩ : ∃ k, e = k + 1 := ⟨e - 1, by omega⟩
      have hdown := ih e (by omega)
      rw [best]
      exact Int.add_le_add_left (hdown.trans (le_max_left _ _)) _
  | @right i j s hij _ ih =>
      intro e he
      obtain ⟨e, rfl⟩ : ∃ k, e = k + 1 := ⟨e - 1, by omega⟩
      have hright := ih e (by omega)
      rw [best]
      exact Int.add_le_add_left (hright.trans (le_max_right _ _)) _

/-- A path has it. -/
theorem best_pathSum : ∀ e i j, i + j + (e + 1) = n → PathSum p n i j (best p (e + 1) i j) := by
  intro e
  induction e with
  | zero =>
      intro i j hij
      have hstop : PathSum p n i j (cell p i j) := .stop (by omega)
      rw [best, best, best, max_self, Int.add_zero]
      exact hstop
  | succ e ih =>
      intro i j hij
      rw [best]
      rcases max_choice (best p (e + 1) (i + 1) j) (best p (e + 1) i (j + 1)) with hmax | hmax
      · rw [hmax]
        exact .down (by omega) (ih (i + 1) j (by omega))
      · rw [hmax]
        exact .right (by omega) (ih i (j + 1) (by omega))

/-- **The largest sum** along a path from `(0, 0)`. -/
theorem Numbers.best_isGreatest (h : Numbers maxN n p) :
    IsGreatest { s | PathSum p n 0 0 s } (best p n 0 0) := by
  have hpos := h.pos
  obtain ⟨e, rfl⟩ : ∃ k, n = k + 1 := ⟨n - 1, by omega⟩
  refine ⟨best_pathSum e 0 0 (by omega), fun s hs => ?_⟩
  exact le_best h.inside hs (e + 1) (by omega)

/-- A path from a cell goes on backwards to `(0, 0)`, and its sum does not get smaller. -/
theorem Numbers.pathSum_le (h : Numbers maxN n p) : ∀ m i j s, i + j = m → PathSum p n i j s →
    s ≤ intMax := by
  intro m
  induction m with
  | zero =>
      intro i j s hij hs
      obtain ⟨rfl, rfl⟩ : i = 0 ∧ j = 0 := by omega
      exact h.sums s hs
  | succ m ih =>
      intro i j s hij hs
      have hin : i + j < n := by
        cases hs with
        | stop hlt => exact hlt
        | down hlt _ => exact hlt
        | right hlt _ => exact hlt
      -- one step back, up or to the left
      cases i with
      | succ i =>
          have hcell := h.inside i j (by omega)
          have hle := ih i j _ (by omega) (.down (by omega) hs)
          omega
      | zero =>
          obtain ⟨k, rfl⟩ : ∃ k, j = k + 1 := ⟨j - 1, by omega⟩
          have hcell := h.inside 0 k (by omega)
          have hle := ih 0 k _ (by omega) (.right (by omega) hs)
          omega

/-- So no sum of the code overflows. -/
theorem Numbers.best_le (h : Numbers maxN n p) {e i j : Nat} (hij : i + j + e = n) :
    best p e i j ≤ intMax := by
  cases e with
  | zero =>
      rw [best, intMax]
      decide
  | succ e => exact h.pathSum_le _ i j _ rfl (best_pathSum e i j hij)

theorem Numbers.int32_best (h : Numbers maxN n p) {e i j : Nat} (hij : i + j + e = n) :
    int32 (best p e i j) = some (best p e i j) := by
  have hnonneg := best_nonneg h.inside e i j hij
  refine int32_eq ?_ (h.best_le hij)
  rw [intMin]
  omega

end Best

/-! ## The recursions -/

/-- What the macro `max` gives. -/
theorem max_eq_ite (a b : Int) : (if b < a then a else b) = max a b := by
  split_ifs with hlt
  · exact (max_eq_left hlt.le).symm
  · exact (max_eq_right (not_lt.mp hlt)).symm

theorem cellSum_some {x : Int} (hx : 0 ≤ x) (a b : Int) :
    cellSum x (some a) (some b) = int32 (x + max a b) := by
  rw [cellSum, if_neg (not_lt.mpr hx), ← max_eq_ite]
  simp only [Option.bind_eq_bind, Option.bind_some]
  rw [← apply_ite fun m => int32 (x + m)]

section Recursion

variable {maxN n : Nat} {p : List (List Int)}

/-- The sum at a cell inside the triangle. -/
theorem Numbers.sum_eq (h : Numbers maxN n p) {e i j : Nat} (hij : i + j + (e + 1) = n) :
    cellSum (cell p i j) (some (best p e (i + 1) j)) (some (best p e i (j + 1)))
      = some (best p (e + 1) i j) := by
  rw [cellSum_some (h.inside i j (by omega)), ← best]
  exact h.int32_best hij

theorem Numbers.read (h : Numbers maxN n p) {i j : Nat} (hij : i + j ≤ n) :
    readCell p i j = some (cell p i j) :=
  h.table.read (by omega) (by have := h.lt; omega)

/-- **`solve1_r`** gives the largest sum from its cell; by induction on the diagonals left. -/
theorem solve1R_eq (h : Numbers maxN n p) : ∀ e fuel i j, i + j + e = n → e < fuel →
    solve1R fuel p i j n = some (best p e i j) := by
  intro e
  induction e with
  | zero =>
      intro fuel i j hij hfuel
      obtain ⟨fuel, rfl⟩ : ∃ k, fuel = k + 1 := ⟨fuel - 1, by omega⟩
      rw [solve1R, h.read (by omega), Option.bind_eq_bind, Option.bind_some, cellSum,
        if_pos (h.border i j (by omega)), best]
  | succ e ih =>
      intro fuel i j hij hfuel
      obtain ⟨fuel, rfl⟩ : ∃ k, fuel = k + 1 := ⟨fuel - 1, by omega⟩
      rw [solve1R, h.read (by omega), Option.bind_eq_bind, Option.bind_some,
        ih fuel (i + 1) j (by omega) (by omega), ih fuel i (j + 1) (by omega) (by omega)]
      exact h.sum_eq hij

/-- The value `solve2_r` stores is the one `solve1_r` gives. -/
theorem solve2R_eq (h : Numbers maxN n p) {d : List (List Int)} (hd : Table maxN n d)
    {e fuel i j : Nat} (hij : i + j + (e + 1) = n) (hfuel : e < fuel)
    (hnew : readCell d i j = some (-1)) :
    ∃ d', solve2R fuel p i j n d = some (d', best p (e + 1) i j) := by
  have hlt := h.lt
  obtain ⟨d', hwrite, -⟩ :=
    hd.write (show i < n by omega) (show j < maxN by omega) (best p (e + 1) i j)
  refine ⟨d', ?_⟩
  rw [solve2R, if_pos (show 0 < n from h.pos), hnew]
  simp only [Option.bind_eq_bind, Option.bind_some, h.read (show i + j ≤ n by omega)]
  rw [if_neg (by decide), solve1R_eq h e fuel (i + 1) j (by omega) hfuel,
    solve1R_eq h e fuel i (j + 1) (by omega) hfuel, h.sum_eq hij]
  simp only [Option.bind_some, hwrite]

end Recursion

/-! ## Clearing the triangle -/

/-- The rows before `i`, and row `i` from `m` on, are set to -1. -/
structure Cleared (maxN n i m : Nat) (d : List (List Int)) : Prop where
  table : Table maxN n d
  read : ∀ i' j', i' + j' < n → (i' < i ∨ i' = i ∧ m ≤ j') → readCell d i' j' = some (-1)

theorem Cleared.next {maxN n i m : Nat} {d : List (List Int)} (h : Cleared maxN n i (m + 1) d)
    (him : i + m < n) (hn : n < maxN) :
    ∃ d', writeCell d i m (-1) = some d' ∧ Cleared maxN n i m d' := by
  obtain ⟨d', hwrite, htable, hself, hother⟩ :=
    h.table.write (show i < n by omega) (show m < maxN by omega) (-1)
  refine ⟨d', hwrite, htable, fun i' j' hin hdone => ?_⟩
  by_cases hsame : i' = i ∧ j' = m
  · rw [hsame.1, hsame.2]
    exact hself
  · rw [hother i' j' hsame]
    exact h.read i' j' hin (by omega)

/-- The two loops of `solve2`. -/
theorem clear_run {maxN n : Nat} {d : List (List Int)} (hd : Table maxN n d) (hn : n < maxN) :
    ∃ d', (List.range n).foldlM (fun d i =>
        (List.range (n - i)).reverse.foldlM (fun d j => writeCell d i j (-1)) d) d = some d'
      ∧ Cleared maxN n n 0 d' := by
  have hzero : Cleared maxN n 0 n d := ⟨hd, fun i' j' hin hdone => by omega⟩
  have hpass : ∀ i d, i < n → Cleared maxN n i n d →
      ∃ d', (List.range (n - i)).reverse.foldlM (fun d j => writeCell d i j (-1)) d = some d'
        ∧ Cleared maxN n (i + 1) n d' := by
    intro i d hi hrow
    -- row `i` has `n - i` cells in the triangle
    have hstart : Cleared maxN n i (n - i) d :=
      ⟨hrow.table, fun i' j' hin hdone => hrow.read i' j' hin (by omega)⟩
    obtain ⟨d', hrun, hdone⟩ := @foldlM_down_keeps _ (fun d j => writeCell d i j (-1))
      (Cleared maxN n i) (n - i) d hstart fun j d hj hcell => hcell.next (by omega) hn
    exact ⟨d', hrun, hdone.table, fun i' j' hin hrow => hdone.read i' j' hin (by omega)⟩
  obtain ⟨d', hrun, hdone⟩ := @foldlM_range_keeps _ (fun d i =>
    (List.range (n - i)).reverse.foldlM (fun d j => writeCell d i j (-1)) d)
    (fun i => Cleared maxN n i n) d hzero n hpass
  exact ⟨d', hrun, hdone.table, fun i' j' hin _ => hdone.read i' j' hin (by omega)⟩

/-- **`solve2`** gives the largest sum. -/
theorem solve2_eq {maxN n fuel : Nat} {p d : List (List Int)} (h : Numbers maxN n p)
    (hd : Table maxN n d) (hfuel : n ≤ fuel) :
    ∃ d', solve2 fuel p d n = some (d', best p n 0 0) := by
  have hpos := h.pos
  obtain ⟨d₁, hclear, hcleared⟩ := clear_run hd h.lt
  have hnew := hcleared.read 0 0 (by omega) (by omega)
  obtain ⟨e, rfl⟩ : ∃ k, n = k + 1 := ⟨n - 1, by omega⟩
  obtain ⟨d', hrun⟩ := solve2R_eq h hcleared.table (by omega) (show e < fuel by omega) hnew
  refine ⟨d', ?_⟩
  rw [solve2, hclear]
  exact hrun

/-! ## From below -/

/-- The diagonals behind `k`, and diagonal `k` before column `m`, hold their largest sums. -/
structure Summed (maxN n : Nat) (p : List (List Int)) (k m : Nat) (d : List (List Int)) : Prop where
  table : Table maxN n d
  read : ∀ i j, i + j < n → (k < i + j ∨ i + j = k ∧ j < m) →
    readCell d i j = some (best p (n - (i + j)) i j)

section Below

variable {maxN n : Nat} {p : List (List Int)}

/-- The value of one pass: on the last diagonal the cell itself, else its sum with the larger
    of two cells of the diagonal behind. -/
theorem solve3Pass_eq (h : Numbers maxN n p) {k m : Nat} {d : List (List Int)}
    (hd : Summed maxN n p k m d) (hm : m ≤ k) (hk : k < n) :
    solve3Pass p n k d m = writeCell d (k - m) m (best p (n - k) (k - m) m) := by
  have hsplit : k - m + m = k := Nat.sub_add_cancel hm
  rw [solve3Pass, h.read (show k - m + m ≤ n by omega)]
  simp only [Option.bind_eq_bind, Option.bind_some, hsplit]
  by_cases hlast : k = n - 1
  · have hone : n - k = 0 + 1 := by omega
    rw [if_pos hlast, hone, best, best, best, max_self, Int.add_zero]
  -- both cells it reads are on the diagonal behind
  · obtain ⟨e, he⟩ : ∃ e, n - k = e + 1 := ⟨n - k - 1, by omega⟩
    have hdown := hd.read (k - m + 1) m (by omega) (by omega)
    have hright := hd.read (k - m) (m + 1) (by omega) (by omega)
    rw [show n - (k - m + 1 + m) = e by omega] at hdown
    rw [show n - (k - m + (m + 1)) = e by omega] at hright
    have hsum := h.int32_best (show k - m + m + (e + 1) = n by omega)
    rw [best] at hsum
    rw [if_neg hlast, hdown, hright, Option.bind_some, Option.bind_some, max_eq_ite, hsum, he, best,
      Option.bind_some]

theorem Summed.next (h : Numbers maxN n p) {k m : Nat} {d : List (List Int)}
    (hd : Summed maxN n p k m d) (hm : m ≤ k) (hk : k < n) :
    ∃ d', solve3Pass p n k d m = some d' ∧ Summed maxN n p k (m + 1) d' := by
  have hlt := h.lt
  obtain ⟨d', hwrite, htable, hself, hother⟩ := hd.table.write (show k - m < n by omega)
    (show m < maxN by omega) (best p (n - k) (k - m) m)
  refine ⟨d', (solve3Pass_eq h hd hm hk).trans hwrite, htable, fun i j hin hdone => ?_⟩
  by_cases hsame : i = k - m ∧ j = m
  · rw [hsame.1, hsame.2, Nat.sub_add_cancel hm]
    exact hself
  · rw [hother i j hsame]
    exact hd.read i j hin (by omega)

/-- The two loops of `solve3`, the outer one from the last diagonal to the first cell. -/
theorem sum_run (h : Numbers maxN n p) {d : List (List Int)} (hd : Table maxN n d) :
    ∃ d', (List.range n).reverse.foldlM (fun d k =>
        (List.range (k + 1)).foldlM (solve3Pass p n k) d) d = some d'
      ∧ Summed maxN n p 0 1 d' := by
  have hstart : Summed maxN n p n (n + 1) d := ⟨hd, fun i j hin hdone => by omega⟩
  have hpass : ∀ k d, k < n → Summed maxN n p (k + 1) (k + 1 + 1) d →
      ∃ d', (List.range (k + 1)).foldlM (solve3Pass p n k) d = some d'
        ∧ Summed maxN n p k (k + 1) d' := by
    intro k d hk hbehind
    -- the diagonal behind is complete, its last cell in column `k + 1`
    have hzero : Summed maxN n p k 0 d :=
      ⟨hbehind.table, fun i j hin hdone => hbehind.read i j hin (by omega)⟩
    exact @foldlM_range_keeps _ (solve3Pass p n k) (Summed maxN n p k) d hzero (k + 1)
      fun m d hm hcell => hcell.next h (by omega) hk
  exact @foldlM_down_keeps _ (fun d k => (List.range (k + 1)).foldlM (solve3Pass p n k) d)
    (fun k => Summed maxN n p k (k + 1)) n d hstart hpass

/-- **`solve3`** gives the largest sum. -/
theorem solve3_eq (h : Numbers maxN n p) {d : List (List Int)} (hd : Table maxN n d) :
    ∃ d', solve3 p d n = some (d', best p n 0 0) := by
  have hpos := h.pos
  obtain ⟨d', hrun, hsummed⟩ := sum_run h hd
  have hread := hsummed.read 0 0 (by omega) (by omega)
  refine ⟨d', ?_⟩
  rw [solve3, hrun]
  simp only [Option.bind_eq_bind, Option.bind_some, hread, Nat.add_zero, Nat.sub_zero]

end Below

/-! ## The three agree -/

/-- All three give the largest sum along a path from `(0, 0)` inside the triangle. -/
def SolvesLaw (n : Nat) (p d : List (List Int)) : Prop :=
  ∃ v, IsGreatest { s | PathSum p n 0 0 s } v
    ∧ (∀ fuel, n < fuel → solve1 fuel p n = some v
      ∧ (solve2 fuel p d n).map Prod.snd = some v)
    ∧ (solve3 p d n).map Prod.snd = some v

/-- **The recursion, the version with a memo and the one from below agree** on every triangle,
    whatever the second table holds. -/
theorem solves_agree {maxN n : Nat} {p d : List (List Int)} (h : Numbers maxN n p)
    (hd : Table maxN n d) : SolvesLaw n p d := by
  refine ⟨best p n 0 0, h.best_isGreatest, fun fuel hfuel => ⟨?_, ?_⟩, ?_⟩
  · exact solve1R_eq h n fuel 0 0 (by omega) hfuel
  · obtain ⟨d', hrun⟩ := solve2_eq h hd hfuel.le
    rw [hrun]
    rfl
  · obtain ⟨d', hrun⟩ := solve3_eq h hd
    rw [hrun]
    rfl

/-- The table of the test, and a second one of any contents. -/
theorem solves_agree_rec :
    SolvesLaw 4 [[1, 2, 1, 20, -1], [3, 10, 2, -1, -1], [4, 3, -1, -1, -1], [4, -1, -1, -1, -1],
      [-1, 0, 0, 0, 0]] (List.replicate 5 (List.replicate 5 7)) := by
  have hin : ∀ i j, i + j < 4 → 0 ≤ cell [[1, 2, 1, 20, -1], [3, 10, 2, -1, -1],
      [4, 3, -1, -1, -1], [4, -1, -1, -1, -1], [-1, 0, 0, 0, 0]] i j := by
    have hcells : ∀ i < 4, ∀ j < 4 - i, 0 ≤ cell [[1, 2, 1, 20, -1], [3, 10, 2, -1, -1],
        [4, 3, -1, -1, -1], [4, -1, -1, -1, -1], [-1, 0, 0, 0, 0]] i j := by decide
    exact fun i j hij => hcells i (by omega) j (by omega)
  have hborder : ∀ i < 5, cell [[1, 2, 1, 20, -1], [3, 10, 2, -1, -1], [4, 3, -1, -1, -1],
      [4, -1, -1, -1, -1], [-1, 0, 0, 0, 0]] i (4 - i) < 0 := by decide
  refine @solves_agree 5 4 _ _ ⟨by decide, by decide, ⟨by decide, by decide⟩, hin, ?_, ?_⟩
    ⟨by decide, by decide⟩
  · intro i j hij
    obtain rfl : j = 4 - i := by omega
    exact hborder i (by omega)
  · exact fun s hs => (le_best hin hs 4 rfl).trans (by decide)

end Triangle
