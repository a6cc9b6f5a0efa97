import CppTest.MachineProofs
import Mathlib.Data.List.Nodup

/-! # Pools of rows

    A pool hands out the cells of rows.  The rows are blocks of one length in a table that
    grows, and a cursor `(i, j)` names the next cell.  The first row is made by the first use;
    a full table is made longer before a row may be added; and the row is left ONE CELL EARLY,
    when `j` is at the last cell.

    * `newCell` is one use, in the four parts the sources have: `firstRow`, `growTable`,
      `nextRow` and `takeCell`.  The growth of the table, the length of a row, and what is
      written to the cell are parameters.
    * `Ready` is the state between the parts, `Between` the state between the uses, and
      `Between.newCell` says what a use does to it.
    * `Run.filled`, for rows of two cells or more: the `k`-th use is cell `k % (L - 1)` of row
      `k / (L - 1)`, and no cell is touched again.

    Nothing here names a program of the repository. -/

namespace RowPool

open Machine

variable {α : Type}

/-! ## The pool -/

/-- What the allocator answers during one call: whether it grants so many bytes, and what
    uninitialised memory holds, as entries of the table and as cells. -/
structure Env (α : Type) where
  malloc : Nat → Bool
  realloc : Nat → Bool
  entry : Nat → Option Nat
  cell : Nat → α

/-- The largest object the allocator grants. -/
def ptrdiffMax : Nat := 2 ^ 63 - 1

/-- The contract of the allocator. -/
structure Env.Lawful (env : Env α) : Prop where
  malloc_le : ∀ n, env.malloc n = true → n ≤ ptrdiffMax
  realloc_le : ∀ n, env.realloc n = true → n ≤ ptrdiffMax

/-- The allocator that grants all that can be had, and whose memory is blank. -/
def generous (blank : α) : Env α where
  malloc := fun n => decide (n ≤ ptrdiffMax)
  realloc := fun n => decide (n ≤ ptrdiffMax)
  entry := fun _ => none
  cell := fun _ => blank

theorem generous_lawful (blank : α) : (generous blank).Lawful :=
  ⟨fun _ => of_decide_eq_true, fun _ => of_decide_eq_true⟩

/-- The cells of a row, the bytes of a cell, and by how much a table of so many entries
    grows. -/
structure Geometry where
  rowLen : Nat
  cellSize : Nat
  grow : Nat → Nat

/-- The table `n` of `N` entries, the cursor, and the rows that were allocated.  An entry is
    null or the number of a row. -/
structure Pool (α : Type) where
  n : List (Option Nat)
  i : Nat
  j : Nat
  N : Nat
  rows : List (List α)

/-- `p.n[k] = malloc(L * sizeof cell)`; the flag is false when it is denied. -/
def newRow (g : Geometry) (env : Env α) (k : Nat) (p : Pool α) : Option (Pool α × Bool) := do
  let bytes := g.rowLen * g.cellSize % 2 ^ 64
  if env.malloc bytes then
    let n ← setAt p.n k (some p.rows.length)
    some ({ p with
      n := n
      rows := p.rows ++ [(List.range (bytes / g.cellSize)).map env.cell] }, true)
  else
    let n ← setAt p.n k none
    some ({ p with n := n }, false)

/-- The first row, if it is not there. -/
def firstRow (g : Geometry) (env : Env α) (p : Pool α) : Option (Pool α × Bool) := do
  match ← p.n[0]? with
  | some _ => some (p, true)
  | none => newRow g env 0 p

/-- A longer table, when the cursor is in its last row.  A denied one loses the table. -/
def growTable (g : Geometry) (env : Env α) (p : Pool α) : Pool α × Bool :=
  if p.i = p.N - 1 then
    let N := (p.N + g.grow p.N) % 2 ^ 64
    let bytes := N * 8 % 2 ^ 64
    if env.realloc bytes then
      ({ p with N := N, n := resizeTo env.entry p.n (bytes / 8) }, true)
    else ({ p with N := N, n := [] }, false)
  else (p, true)

/-- A new row, when the cursor is at the last cell of its row. -/
def nextRow (g : Geometry) (env : Env α) (p : Pool α) : Option (Pool α × Bool) :=
  if p.j = g.rowLen - 1 then do
    let (p, ok) ← newRow g env (p.i + 1) { p with i := p.i + 1 }
    some (if ok then { p with j := 0 } else p, ok)
  else some (p, true)

/-- `&p.n[p.i][p.j++]`, and what is written there.  A cell outside its row faults. -/
def takeCell (init : α → Option α) (p : Pool α) : Option (Pool α × (Nat × Nat)) := do
  let b ← ← p.n[p.i]?
  let row ← p.rows[b]?
  let old ← row[p.j]?
  let v ← init old
  some ({ p with j := p.j + 1, rows := p.rows.set b (row.set p.j v) }, (p.i, p.j))

/-- One use: the row and the column of the cell, or none when memory was denied. -/
def newCell (g : Geometry) (env : Env α) (init : α → Option α) (p : Pool α) :
    Option (Pool α × Option (Nat × Nat)) := do
  let (p, ok) ← firstRow g env p
  if ok then
    let (p, ok) := growTable g env p
    if ok then
      let (p, ok) ← nextRow g env p
      if ok then
        let (p, c) ← takeCell init p
        some (p, some c)
      else some (p, none)
    else some (p, none)
  else some (p, none)

/-- A use needs memory that the allocator does not have: for a row, or for a longer table when
    the cursor is in the last row. -/
def Env.Denies (env : Env α) (g : Geometry) (p : Pool α) : Prop :=
  env.malloc (g.rowLen * g.cellSize) = false
    ∨ p.i = p.N - 1 ∧ env.realloc ((p.N + g.grow p.N) * 8) = false

/-- What a cell of an allocated row holds. -/
def cellAt (p : Pool α) (c : Nat × Nat) : Option α := do
  let b ← ← p.n[c.1]?
  let row ← p.rows[b]?
  row[c.2]?

/-- `p` is reached from `p₀` by uses that got their memory; each of them with its cell and what
    it writes. -/
inductive Run (g : Geometry) (p₀ : Pool α) :
    Pool α → List ((Nat × Nat) × (α → Option α)) → Prop where
  | start : Run g p₀ p₀ []
  | new {p p' : Pool α} {calls : List ((Nat × Nat) × (α → Option α))} {env : Env α}
      {init : α → Option α} {c : Nat × Nat} : Run g p₀ p calls → env.Lawful →
      newCell g env init p = some (p', some c) → Run g p₀ p' (calls ++ [(c, init)])

/-- The cell of the `k`-th use: the last cell of a row is never taken. -/
def slot (g : Geometry) (k : Nat) : Nat × Nat := (k / (g.rowLen - 1), k % (g.rowLen - 1))

theorem slot_injective (g : Geometry) : Function.Injective (slot g) := by
  intro a b hab
  obtain ⟨hdiv, hmod⟩ := Prod.mk.inj hab
  rw [← Nat.div_add_mod a (g.rowLen - 1), hdiv, hmod, Nat.div_add_mod]

/-! ## The parts of a use -/

/-- The rows are in the table in order, and the cursor is in the last one. -/
structure Ready (g : Geometry) (k : Nat) (p : Pool α) : Prop where
  len : p.n.length = p.N
  bytes : p.N * 8 ≤ ptrdiffMax
  room : p.i < p.N
  count : p.i * (g.rowLen - 1) + p.j = k
  col : p.j ≤ g.rowLen - 1
  rows_len : p.rows.length = p.i + 1
  entries : ∀ r < p.rows.length, p.n[r]? = some (some r)
  cells : ∀ row ∈ p.rows, row.length = g.rowLen

/-- The pool before the first use. -/
structure Start (p : Pool α) : Prop where
  len : p.n.length = p.N
  bytes : p.N * 8 ≤ ptrdiffMax
  room : 0 < p.N
  i_zero : p.i = 0
  j_zero : p.j = 0
  rows_nil : p.rows = []
  first : p.n[0]? = some none

/-- What a pool of this geometry needs: rows that can be had, and a table that grows, but not
    beyond all sizes. -/
structure Geometry.Good (g : Geometry) : Prop where
  cell_pos : 0 < g.cellSize
  row_le : g.rowLen * g.cellSize ≤ ptrdiffMax
  grow_pos : ∀ N, 0 < N → 0 < g.grow N
  grow_le : ∀ N, 0 < N → g.grow N ≤ max N 128

/-- The table and the rows with one more row at the end. -/
theorem entries_snoc {n : List (Option Nat)} {rows : List (List α)} {row : List α}
    (hlen : rows.length < n.length) (hent : ∀ r < rows.length, n[r]? = some (some r)) :
    ∀ r < (rows ++ [row]).length, (n.set rows.length (some rows.length))[r]? = some (some r) := by
  intro r hr
  rw [List.length_append, List.length_singleton] at hr
  by_cases heq : rows.length = r
  · subst heq
    exact List.getElem?_set_self hlen
  · rw [List.getElem?_set_ne heq]
    exact hent r (by omega)

section Parts

variable {g : Geometry} (env : Env α) {p : Pool α} {k : Nat} (hg : g.Good)
include hg

/-- A new row at the end of the table. -/
theorem newRow_spec {r : Nat} (hr : r = p.rows.length) (hlen : r < p.n.length) :
    (env.malloc (g.rowLen * g.cellSize) = true ∧ newRow g env r p = some ({ p with
      n := p.n.set r (some r)
      rows := p.rows ++ [(List.range g.rowLen).map env.cell] }, true))
    ∨ env.malloc (g.rowLen * g.cellSize) = false ∧ ∃ p', newRow g env r p = some (p', false) := by
  have hbytes : g.rowLen * g.cellSize % 2 ^ 64 = g.rowLen * g.cellSize := by
    have := hg.row_le
    rw [ptrdiffMax] at this
    exact Nat.mod_eq_of_lt (by omega)
  have hset : ∀ e, setAt p.n (r : Int) e = some (p.n.set r e) := fun e => setAt_natCast p.n e hlen
  subst hr
  rw [newRow, hbytes]
  simp only [hset, Option.bind_eq_bind, Option.bind_some]
  split
  · next hgrant =>
      rw [Nat.mul_div_cancel _ hg.cell_pos]
      exact Or.inl ⟨hgrant, rfl⟩
  · next hdenied => exact Or.inr ⟨Bool.eq_false_iff.mpr hdenied, _, rfl⟩

/-- **The first row.** -/
theorem Start.firstRow (h : Start p) :
    (∃ p', firstRow g env p = some (p', true) ∧ Ready g 0 p' ∧ p'.i = p.i ∧ p'.N = p.N)
      ∨ env.malloc (g.rowLen * g.cellSize) = false
        ∧ ∃ p', firstRow g env p = some (p', false) := by
  have hzero : 0 = p.rows.length := by rw [h.rows_nil]; rfl
  have hfirst : RowPool.firstRow g env p = newRow g env 0 p := by
    rw [RowPool.firstRow, h.first]
    rfl
  rw [hfirst]
  rcases newRow_spec env hg hzero (by rw [h.len]; exact h.room) with ⟨-, hrow⟩ | hdenied
  · refine Or.inl ⟨_, hrow, ?_, rfl, rfl⟩
    refine ⟨?_, h.bytes, ?_, ?_, ?_, ?_, ?_, ?_⟩
    · exact (List.length_set ..).trans h.len
    · show p.i < p.N
      rw [h.i_zero]
      exact h.room
    · show p.i * _ + p.j = 0
      rw [h.i_zero, h.j_zero, Nat.zero_mul]
    · show p.j ≤ _
      rw [h.j_zero]
      exact Nat.zero_le _
    · show (p.rows ++ [_]).length = p.i + 1
      rw [h.rows_nil, h.i_zero]
      rfl
    · have hent := @entries_snoc α p.n p.rows ((List.range g.rowLen).map env.cell)
        (by rw [← hzero, h.len]; exact h.room) (fun r hr => absurd hr (by rw [← hzero]; omega))
      rw [← hzero] at hent
      exact hent
    · intro row hrow
      change row ∈ p.rows ++ [_] at hrow
      rw [h.rows_nil] at hrow
      rw [List.mem_singleton.mp hrow, List.length_map, List.length_range]
  · exact Or.inr hdenied

/-- **The table**: afterwards there is an entry behind the cursor's, and the old entries
    stay. -/
theorem growTable_spec (hlen : p.n.length = p.N) (hbytes : p.N * 8 ≤ ptrdiffMax)
    (hroom : p.i < p.N) (hlaw : env.Lawful) :
    (∃ N n, growTable g env p = ({ p with N := N, n := n }, true) ∧ n.length = N
        ∧ N * 8 ≤ ptrdiffMax ∧ p.i + 1 < N ∧ ∀ r < p.n.length, n[r]? = p.n[r]?)
      ∨ p.i = p.N - 1 ∧ env.realloc ((p.N + g.grow p.N) * 8) = false
        ∧ ∃ p', growTable g env p = (p', false) := by
  have hgrow := hg.grow_pos p.N (by omega)
  have hle := hg.grow_le p.N (by omega)
  rw [growTable]
  split
  · next hlast =>
      rw [ptrdiffMax] at hbytes
      have hN : (p.N + g.grow p.N) % 2 ^ 64 = p.N + g.grow p.N := Nat.mod_eq_of_lt (by omega)
      have hb : (p.N + g.grow p.N) * 8 % 2 ^ 64 = (p.N + g.grow p.N) * 8 :=
        Nat.mod_eq_of_lt (by omega)
      simp only [hN, hb, Nat.mul_div_cancel _ (show 0 < 8 by decide)]
      split
      · next hgrant =>
          have hlen' : p.n.length ≤ p.N + g.grow p.N := by
            rw [hlen]
            omega
          refine Or.inl ⟨_, _, rfl, length_resizeTo _ hlen', hlaw.realloc_le _ hgrant, by omega, ?_⟩
          intro r hr
          have htake := take_resizeTo env.entry hlen' (Nat.le_refl p.n.length)
          rw [List.take_length] at htake
          rw [← List.getElem?_take_of_lt hr, htake]
      · next hdenied => exact Or.inr ⟨hlast, Bool.eq_false_iff.mpr hdenied, _, rfl⟩
  · next hlast =>
      exact Or.inl ⟨p.N, p.n, rfl, hlen, hbytes, by omega, fun _ _ => rfl⟩

theorem Ready.growTable (h : Ready g k p) (hlaw : env.Lawful) :
    (∃ p', growTable g env p = (p', true) ∧ Ready g k p' ∧ p'.i + 1 < p'.N ∧ p'.rows = p.rows)
      ∨ (p.i = p.N - 1 ∧ env.realloc ((p.N + g.grow p.N) * 8) = false)
        ∧ ∃ p', growTable g env p = (p', false) := by
  rcases growTable_spec env hg h.len h.bytes h.room hlaw with
    ⟨N, n, hgrow, hlen, hbytes, hroom, hkept⟩ | ⟨hlast, hdenied, hgrow⟩
  · refine Or.inl ⟨_, hgrow, ⟨hlen, hbytes, Nat.lt_of_succ_lt hroom, h.count, h.col, h.rows_len, ?_,
      h.cells⟩, hroom, rfl⟩
    intro r hr
    have hrows := h.rows_len
    have hroom := h.room
    rw [← h.entries r hr]
    refine hkept r ?_
    rw [h.len]
    change r < p.rows.length at hr
    omega
  · exact Or.inr ⟨⟨hlast, hdenied⟩, hgrow⟩

/-- At the last cell of the row, a row is added and the cursor goes to its front. -/
theorem nextRow_spec (hlast : p.j = g.rowLen - 1) (hrows : p.rows.length = p.i + 1)
    (hroom : p.i + 1 < p.n.length) :
    nextRow g env p = some ({ p with
        i := p.i + 1
        j := 0
        n := p.n.set (p.i + 1) (some (p.i + 1))
        rows := p.rows ++ [(List.range g.rowLen).map env.cell] }, true)
      ∨ env.malloc (g.rowLen * g.cellSize) = false ∧ ∃ p', nextRow g env p = some (p', false) := by
  rw [nextRow, if_pos hlast]
  rcases @newRow_spec _ _ env { p with i := p.i + 1 } hg _ hrows.symm hroom with
    ⟨-, hrow⟩ | ⟨hdenied, p', hrow⟩
  · rw [hrow]
    exact Or.inl rfl
  · rw [hrow]
    exact Or.inr ⟨hdenied, p', rfl⟩

/-- **The row**: afterwards the cursor is before the last cell of its row. -/
theorem Ready.nextRow (htwo : 2 ≤ g.rowLen) (h : Ready g k p) (hroom : p.i + 1 < p.N) :
    (∃ p', nextRow g env p = some (p', true) ∧ Ready g k p' ∧ p'.j < g.rowLen - 1
        ∧ p.rows <+: p'.rows)
      ∨ env.malloc (g.rowLen * g.cellSize) = false
        ∧ ∃ p', nextRow g env p = some (p', false) := by
  have hcol := h.col
  have hrows := h.rows_len
  by_cases hlast : p.j = g.rowLen - 1
  · rcases nextRow_spec env hg hlast hrows (by rw [h.len]; exact hroom) with hrow | hdenied
    · refine Or.inl ⟨_, hrow, ⟨?_, h.bytes, hroom, ?_, Nat.zero_le _, ?_, ?_, ?_⟩, ?_,
        List.prefix_append _ _⟩
      · exact (List.length_set ..).trans h.len
      · show (p.i + 1) * (g.rowLen - 1) + 0 = k
        rw [← h.count, Nat.succ_mul, hlast, Nat.add_zero]
      · show (p.rows ++ [_]).length = p.i + 1 + 1
        rw [List.length_append, hrows]
        rfl
      · have hent := @entries_snoc α p.n p.rows ((List.range g.rowLen).map env.cell)
          (by rw [hrows, h.len]; exact hroom) h.entries
        rw [hrows] at hent
        exact hent
      · intro row hmem
        rcases List.mem_append.mp hmem with hold | hnew
        · exact h.cells row hold
        · rw [List.mem_singleton.mp hnew, List.length_map, List.length_range]
      · show 0 < g.rowLen - 1
        omega
    · exact Or.inr hdenied
  · rw [RowPool.nextRow, if_neg hlast]
    exact Or.inl ⟨p, rfl, h, by omega, List.prefix_refl _⟩

end Parts

/-- **The cell**: the cursor's, and nothing but it is written. -/
theorem Ready.takeCell {g : Geometry} {p : Pool α} {k : Nat} (h : Ready g k p)
    (hj : p.j < g.rowLen - 1) (init : α → Option α) :
    ∃ old row, p.rows[p.i]? = some row ∧
      ((init old = none ∧ takeCell init p = none)
        ∨ ∃ v, init old = some v ∧ takeCell init p = some ({ p with
            j := p.j + 1
            rows := p.rows.set p.i (row.set p.j v) }, slot g k)
          ∧ (p.i, p.j) = slot g k
          ∧ Ready g (k + 1) { p with j := p.j + 1, rows := p.rows.set p.i (row.set p.j v) }) := by
  have hi : p.i < p.rows.length := by
    rw [h.rows_len]
    exact Nat.lt_succ_self _
  have hslot : (p.i, p.j) = slot g k := by
    obtain ⟨hq, hr⟩ := (Nat.div_mod_unique (show 0 < g.rowLen - 1 by omega)).mpr
      ⟨show p.j + (g.rowLen - 1) * p.i = k by rw [← h.count, Nat.mul_comm, Nat.add_comm], hj⟩
    rw [slot, hq, hr]
  obtain ⟨row, hrow⟩ : ∃ row, p.rows[p.i]? = some row := ⟨_, List.getElem?_eq_getElem hi⟩
  have hlen : row.length = g.rowLen := h.cells row (List.mem_of_getElem? hrow)
  obtain ⟨old, hold⟩ : ∃ old, row[p.j]? = some old :=
    ⟨_, List.getElem?_eq_getElem (by omega)⟩
  have htake : RowPool.takeCell init p = (init old).bind fun v => some ({ p with
      j := p.j + 1
      rows := p.rows.set p.i (row.set p.j v) }, (p.i, p.j)) := by
    rw [RowPool.takeCell, h.entries p.i hi]
    simp only [Option.bind_eq_bind, Option.bind_some, hrow, hold]
  refine ⟨old, row, hrow, ?_⟩
  cases hv : init old with
  | none =>
      rw [hv] at htake
      exact Or.inl ⟨rfl, htake⟩
  | some v =>
      rw [hv, Option.bind_some, hslot] at htake
      refine Or.inr ⟨v, rfl, htake, hslot, h.len, h.bytes, h.room, ?_, hj, ?_, ?_, ?_⟩
      · show p.i * _ + (p.j + 1) = k + 1
        rw [← h.count]
        rfl
      · exact (List.length_set ..).trans h.rows_len
      · intro r hr
        rw [show (p.rows.set p.i (row.set p.j v)).length = p.rows.length from List.length_set ..]
          at hr
        exact h.entries r hr
      · intro row' hmem
        rcases List.mem_or_eq_of_mem_set hmem with hmem | rfl
        · exact h.cells row' hmem
        · rw [List.length_set, hlen]

/-! ## A use, and every run -/

/-- The pool between the uses, `k` of which have been. -/
def Between (g : Geometry) (k : Nat) (p : Pool α) : Prop := (k = 0 ∧ Start p) ∨ Ready g k p

/-- What the owners of the cells write there does not matter to the pool. -/
theorem Between.use {g : Geometry} {k : Nat} {p : Pool α} (h : Between g k p)
    {rows : List (List α)} (hshape : rows.map List.length = p.rows.map List.length) :
    Between g k { p with rows := rows } := by
  have hlen : rows.length = p.rows.length := by
    have := congrArg List.length hshape
    rwa [List.length_map, List.length_map] at this
  rcases h with ⟨hk, h⟩ | h
  · refine Or.inl ⟨hk, h.len, h.bytes, h.room, h.i_zero, h.j_zero, ?_, h.first⟩
    rw [h.rows_nil] at hlen
    exact List.length_eq_zero_iff.mp hlen
  · refine Or.inr ⟨h.len, h.bytes, h.room, h.count, h.col, hlen.trans h.rows_len, ?_, ?_⟩
    · intro r hr
      exact h.entries r (hlen ▸ hr)
    · intro row hmem
      have hrow : row.length ∈ p.rows.map List.length := by
        rw [← hshape]
        exact List.mem_map_of_mem hmem
      obtain ⟨row', hmem', heq⟩ := List.mem_map.mp hrow
      rw [← heq]
      exact h.cells row' hmem'

/-- **A use** is denied its memory, or it is the cell of its number; it faults only in what is
    written.  Up to the last write the pool is some `q`, which has the rows there were, and
    perhaps another one. -/
theorem Between.newCell {g : Geometry} {k : Nat} {p : Pool α} {env : Env α} (hg : g.Good)
    (htwo : 2 ≤ g.rowLen) (h : Between g k p) (hlaw : env.Lawful) (init : α → Option α) :
    (env.Denies g p ∧ ∃ p', newCell g env init p = some (p', none))
      ∨ (∃ old, init old = none ∧ newCell g env init p = none)
      ∨ ∃ (q p' : Pool α) (row : List α) (old v : α),
        newCell g env init p = some (p', some (q.i, q.j)) ∧ Ready g (k + 1) p'
        ∧ p' = { q with j := q.j + 1, rows := q.rows.set q.i (row.set q.j v) }
        ∧ p.rows <+: q.rows ∧ q.rows[q.i]? = some row ∧ q.j < row.length
        ∧ (q.i, q.j) = slot g k ∧ init old = some v := by
  -- the first row
  have hfirst : (∃ p', firstRow g env p = some (p', true) ∧ Ready g k p' ∧ p.rows <+: p'.rows
        ∧ p'.i = p.i ∧ p'.N = p.N)
      ∨ env.malloc (g.rowLen * g.cellSize) = false
        ∧ ∃ p', firstRow g env p = some (p', false) := by
    rcases h with ⟨rfl, hstart⟩ | hready
    · rcases hstart.firstRow env hg with ⟨p', hp', hready, hsame⟩ | hdenied
      · exact Or.inl ⟨p', hp', hready, by rw [hstart.rows_nil]; exact List.nil_prefix, hsame⟩
      · exact Or.inr hdenied
    · refine Or.inl ⟨p, ?_, hready, List.prefix_refl _, rfl, rfl⟩
      rw [firstRow, hready.entries 0 (by rw [hready.rows_len]; omega)]
      rfl
  rw [RowPool.newCell]
  rcases hfirst with ⟨p₁, hp₁, hready₁, hpre₁, hi₁, hN₁⟩ | ⟨hdenied, p₁, hp₁⟩
  · simp only [hp₁, Option.bind_eq_bind, Option.bind_some, if_true]
    rcases hready₁.growTable env hg hlaw with ⟨p₂, hp₂, hready₂, hroom, hrows₂⟩ |
        ⟨hdenied, p₂, hp₂⟩
    · simp only [hp₂, if_true]
      rcases hready₂.nextRow env hg htwo hroom with ⟨p₃, hp₃, hready₃, hj, hpre₃⟩ |
          ⟨hdenied, p₃, hp₃⟩
      · simp only [hp₃, Option.bind_some, if_true]
        obtain ⟨old, row, hrow, ⟨hfault, htake⟩ | ⟨v, hv, htake, hcell, hready₄⟩⟩ :=
          hready₃.takeCell hj init
        · refine Or.inr (Or.inl ⟨old, hfault, ?_⟩)
          rw [htake]
          rfl
        · refine Or.inr (Or.inr ⟨p₃, _, row, old, v, ?_, hready₄, rfl, ?_, hrow, ?_, hcell, hv⟩)
          · rw [htake, ← hcell]
            rfl
          · rw [← hrows₂] at hpre₁
            exact hpre₁.trans hpre₃
          · rw [hready₃.cells row (List.mem_of_getElem? hrow)]
            omega
      · simp only [hp₃, Option.bind_some]
        exact Or.inl ⟨Or.inl hdenied, p₃, rfl⟩
    · simp only [hp₂]
      rw [hi₁, hN₁] at hdenied
      exact Or.inl ⟨Or.inr hdenied, p₂, rfl⟩
  · simp only [hp₁, Option.bind_eq_bind, Option.bind_some]
    exact Or.inl ⟨Or.inl hdenied, p₁, rfl⟩

/-- A cell of an allocated row. -/
theorem Ready.cellAt {g : Geometry} {k : Nat} {p : Pool α} (h : Ready g k p) {c : Nat × Nat}
    {row : List α} (hrow : p.rows[c.1]? = some row) : cellAt p c = row[c.2]? := by
  rw [RowPool.cellAt, h.entries _ (List.getElem?_eq_some_iff.mp hrow).1]
  simp only [Option.bind_eq_bind, Option.bind_some, hrow]

/-- The cells of the uses there were. -/
theorem Ready.slot_inside {g : Geometry} {k m : Nat} {p : Pool α} (htwo : 2 ≤ g.rowLen)
    (h : Ready g k p) (hm : m < k) : (slot g m).1 < p.N ∧ (slot g m).2 < g.rowLen
      ∧ (RowPool.cellAt p (slot g m)).isSome := by
  have hcol : (slot g m).2 < g.rowLen - 1 := Nat.mod_lt _ (by omega)
  have hrow : (slot g m).1 < p.i + 1 := by
    refine (Nat.div_lt_iff_lt_mul (by omega)).mpr ?_
    rw [Nat.succ_mul]
    have hcount := h.count
    have hlast := h.col
    omega
  have hroom := h.room
  obtain ⟨row, hget⟩ : ∃ row, p.rows[(slot g m).1]? = some row :=
    ⟨_, List.getElem?_eq_getElem (by rw [h.rows_len]; exact hrow)⟩
  refine ⟨by omega, by omega, ?_⟩
  rw [h.cellAt hget, List.getElem?_eq_getElem
    (show (slot g m).2 < row.length by rw [h.cells row (List.mem_of_getElem? hget)]; omega)]
  rfl

/-- The calls so far have their cells in order, and the cells hold what was written. -/
def Holds (g : Geometry) (p : Pool α) (calls : List ((Nat × Nat) × (α → Option α))) : Prop :=
  ∀ k c init, calls[k]? = some (c, init) → c = slot g k
    ∧ ∃ row old v, p.rows[c.1]? = some row ∧ row[c.2]? = some v ∧ init old = some v

/-- The pool after these calls. -/
structure Filled (g : Geometry) (p : Pool α) (calls : List ((Nat × Nat) × (α → Option α))) :
    Prop where
  state : Between g calls.length p
  holds : Holds g p calls

theorem Holds.mono {g : Geometry} {p p' : Pool α} {calls : List ((Nat × Nat) × (α → Option α))}
    (h : Holds g p calls) (hrows : p.rows <+: p'.rows) : Holds g p' calls := by
  intro k c init hk
  obtain ⟨hc, row, old, v, hrow, hv⟩ := h k c init hk
  refine ⟨hc, row, old, v, ?_, hv⟩
  rw [List.prefix_iff_getElem?] at hrows
  obtain ⟨hlt, heq⟩ := List.getElem?_eq_some_iff.mp hrow
  rw [hrows _ hlt, heq]

/-- One more call: its cell is none of the cells before. -/
theorem Holds.snoc {g : Geometry} {p : Pool α} {calls : List ((Nat × Nat) × (α → Option α))}
    (h : Holds g p calls) {row : List α} {init : α → Option α} {old v : α}
    (hcell : (p.i, p.j) = slot g calls.length)
    (hrow : p.rows[p.i]? = some row) (hj : p.j < row.length) (hv : init old = some v) :
    Holds g { p with j := p.j + 1, rows := p.rows.set p.i (row.set p.j v) }
      (calls ++ [((p.i, p.j), init)]) := by
  have hi : p.i < p.rows.length := (List.getElem?_eq_some_iff.mp hrow).1
  intro k c init' hk
  rcases getElem?_snoc hk with hk' | ⟨rfl, heq⟩
  · obtain ⟨hc, row', old', v', hrow', hv', hinit⟩ := h k c init' hk'
    have hlt := (List.getElem?_eq_some_iff.mp hk').1
    refine ⟨hc, ?_⟩
    by_cases hci : c.1 = p.i
    · -- another column of the same row
      have hcj : p.j ≠ c.2 := by
        intro hcj
        have hsame : c = (p.i, p.j) := Prod.ext hci hcj.symm
        rw [hsame, hcell] at hc
        exact absurd (slot_injective g hc) (Nat.ne_of_gt hlt)
      rw [hci, hrow] at hrow'
      obtain rfl := Option.some.inj hrow'
      refine ⟨row.set p.j v, old', v', ?_, ?_, hinit⟩
      · rw [hci]
        exact List.getElem?_set_self hi
      · rw [List.getElem?_set_ne hcj]
        exact hv'
    · refine ⟨row', old', v', ?_, hv', hinit⟩
      show (p.rows.set p.i _)[c.1]? = some row'
      rw [List.getElem?_set_ne (Ne.symm hci)]
      exact hrow'
  · obtain ⟨rfl, rfl⟩ := Prod.mk.inj heq
    exact ⟨hcell, row.set p.j v, old, v, List.getElem?_set_self hi, List.getElem?_set_self hj, hv⟩

theorem Filled.newCell {g : Geometry} {p : Pool α} {calls : List ((Nat × Nat) × (α → Option α))}
    {env : Env α} (hg : g.Good) (htwo : 2 ≤ g.rowLen) (h : Filled g p calls) (hlaw : env.Lawful)
    (init : α → Option α) :
    (env.Denies g p ∧ ∃ p', newCell g env init p = some (p', none))
      ∨ (∃ old, init old = none ∧ newCell g env init p = none)
      ∨ ∃ p' c, newCell g env init p = some (p', some c) ∧ Filled g p' (calls ++ [(c, init)]) := by
  rcases h.state.newCell hg htwo hlaw init with
    hdenied | hfault | ⟨q, p', row, old, v, hnew, hready, rfl, hpre, hrow, hj, hcell, hv⟩
  · exact Or.inl hdenied
  · exact Or.inr (Or.inl hfault)
  · refine Or.inr (Or.inr ⟨_, _, hnew, Or.inr ?_, ?_⟩)
    · rw [List.length_append, List.length_singleton]
      exact hready
    · exact (h.holds.mono hpre).snoc hcell hrow hj hv

/-- **Every run.** -/
theorem Run.filled {g : Geometry} {p₀ p : Pool α} {calls : List ((Nat × Nat) × (α → Option α))}
    (hg : g.Good) (htwo : 2 ≤ g.rowLen) (hstart : Start p₀) (h : Run g p₀ p calls) :
    Filled g p calls := by
  induction h with
  | start => exact ⟨Or.inl ⟨rfl, hstart⟩, fun k c init hk => absurd hk.symm (Option.some_ne_none _)⟩
  | @new p p' calls env init c _ hlaw hnew ih =>
      rcases ih.newCell hg htwo hlaw init with ⟨_, q, hq⟩ | ⟨_, _, hq⟩ | ⟨q, c', hq, hfilled⟩
      · rw [hq] at hnew
        exact absurd (Prod.mk.inj (Option.some.inj hnew)).2.symm (Option.some_ne_none _)
      · rw [hq] at hnew
        exact absurd hnew.symm (Option.some_ne_none _)
      · rw [hq] at hnew
        obtain ⟨rfl, heq⟩ := Prod.mk.inj (Option.some.inj hnew)
        obtain rfl := Option.some.inj heq
        exact hfilled

/-- **The law of the cursor**: each use is the cell of its number, in an allocated row of the
    table and inside it; no two uses share a cell; and the cells hold what was written. -/
structure CursorLaw (g : Geometry) (p : Pool α) (calls : List ((Nat × Nat) × (α → Option α))) :
    Prop where
  slot : ∀ k c init, calls[k]? = some (c, init) → c = slot g k
  inside : ∀ c init, (c, init) ∈ calls → c.1 < p.N ∧ c.2 < g.rowLen
    ∧ ∃ old v, cellAt p c = some v ∧ init old = some v
  distinct : (calls.map Prod.fst).Nodup

theorem Filled.law {g : Geometry} {p : Pool α} {calls : List ((Nat × Nat) × (α → Option α))}
    (h : Filled g p calls) : CursorLaw g p calls := by
  refine ⟨fun k c init hk => (h.holds k c init hk).1, fun c init hmem => ?_, ?_⟩
  · obtain ⟨k, hk⟩ := List.mem_iff_getElem?.mp hmem
    obtain ⟨_, row, old, v, hrow, hv, hinit⟩ := h.holds k c init hk
    rcases h.state with ⟨hzero, _⟩ | hready
    · rw [List.length_eq_zero_iff.mp hzero] at hmem
      exact absurd hmem List.not_mem_nil
    · have hlt := (List.getElem?_eq_some_iff.mp hrow).1
      have hcol := (List.getElem?_eq_some_iff.mp hv).1
      rw [hready.cells row (List.mem_of_getElem? hrow)] at hcol
      have hroom := hready.room
      have hrows := hready.rows_len
      exact ⟨by omega, hcol, old, v, (hready.cellAt hrow).trans hv, hinit⟩
  · refine List.nodup_iff_getElem?_ne_getElem?.mpr fun a b hab hb heq => ?_
    rw [List.length_map] at hb
    have hslot : ∀ i < calls.length, (calls.map Prod.fst)[i]?
        = some (slot g i) := by
      intro i hi
      obtain ⟨⟨c, init⟩, hget⟩ : ∃ call, calls[i]? = some call := ⟨_, List.getElem?_eq_getElem hi⟩
      rw [List.getElem?_map, hget, ← (h.holds i c init hget).1]
      rfl
    rw [hslot a (by omega), hslot b hb] at heq
    exact absurd (slot_injective g (Option.some.inj heq)) (Nat.ne_of_lt hab)

end RowPool
