import CppTest.MachineProofs
import Mathlib.Tactic.Linarith
import Mathlib.Tactic.Positivity
import Mathlib.Tactic.Ring

/-! # The memory pool (`src/mem_pool/mem_pool.c`)

    A pool of fixed-size objects laid out as a table of rows.  A row is one block
    from `malloc`: a header of `NY` pointers, then `NY` objects of `NOBJ` bytes.
    The cursor `(x, y)` names the next slot; a full row moves it to the next row,
    and the row table doubles when the cursor reaches its last entry.

    * The model keeps the arithmetic of the source: `int` values wrap at 32 bits,
      `size_t` values at 64, and each access to the row table, to a header or
      through a null table is checked.
    * The allocator is a parameter (`Env`), with `malloc`'s contract as a
      hypothesis (`Env.Lawful`): a new block overlaps no live block, and no
      request above `PTRDIFF_MAX` is granted.
    * `Slots st as` is the invariant of a pool that has handed out `as`. -/

namespace MemPool

open Machine

/-! ## The model -/

/-- A row block: the bytes asked for, and its first bytes read as the header, an
    array of `char *`. -/
structure Block where
  size : Int
  hdr : List (Option Int)
  deriving Repr, DecidableEq

/-- `struct mem_pool`; `none` is a null pointer. -/
structure Pool where
  ptr : Option (List (Option Int))
  x : Int
  y : Int
  NX : Int
  NY : Int
  NOBJ : Int
  memused : Int
  deriving Repr, DecidableEq

/-- The pool and the row blocks it points to. -/
structure St where
  mp : Pool
  mem : Int → Option Block

/-- What the allocator answers during one call: whether `realloc` grants so many
    bytes, the block `malloc` returns, and what uninitialised cells hold. -/
structure Env where
  realloc : Int → Bool
  malloc : Int → Option Int
  junk : Nat → Option Int

/-- `sizeof(struct mem_pool)`: one pointer, five `int`s, padding, one `size_t`. -/
def sizeofMemPool : Int := 40

/-- `sizeof(char *)`. -/
def sizeofPtr : Int := 8

/-- The largest object the allocator grants. -/
def ptrdiffMax : Int := 2 ^ 63 - 1

/-- `mp_create`; `none` is the null pointer returned for a bad object size. -/
def mpCreate (objsize y : Int) : Option St :=
  if objsize ≤ 0 then none
  else
    some {
      mp := {
        ptr := some (List.replicate 10 none)
        x := 0
        y := 0
        NX := 10
        NY := if y < 1 then 1 else y
        NOBJ := objsize
        memused := wrap64 (sizeofMemPool + 10 * sizeofPtr) }
      mem := fun _ => none }

/-- The first part of `mp_alloc`: double the row table when the cursor is at its
    last entry.  The flag is false when `realloc` failed; the table is lost then. -/
def mpAllocTable (env : Env) (mp : Pool) : Option (Pool × Bool) :=
  if mp.x = wrap32 (mp.NX - 1) then
    let bytes := wrap64 (wrap64 (wrap32 (mp.NX * 2)) * sizeofPtr)
    if env.realloc bytes then do
      let t ← memsetAt (resizeTo env.junk (mp.ptr.getD []) (bytes / sizeofPtr).toNat)
        mp.NX mp.NX none
      some ({ mp with
        ptr := some t
        memused := wrap64 (mp.memused + wrap64 (mp.NX * sizeofPtr))
        NX := wrap32 (mp.NX * 2) }, true)
    else some ({ mp with ptr := none }, false)
  else some (mp, true)

/-- `int HDRLEN = mp->NY * sizeof(char **)`. -/
def hdrLen (mp : Pool) : Int := wrap32 (wrap64 (mp.NY * sizeofPtr))

/-- `HDRLEN + mp->NY * mp->NOBJ`, as passed to `malloc`. -/
def rowBytes (mp : Pool) : Int := wrap64 (wrap32 (hdrLen mp + wrap32 (mp.NY * mp.NOBJ)))

/-- The second part of `mp_alloc`: the current row, created on first use; a null
    row when `malloc` failed. -/
def mpAllocRow (env : Env) (st : St) : Option (St × Option Int) := do
  let t ← st.mp.ptr
  match ← getAt t st.mp.x with
  | some row => some (st, some row)
  | none =>
      match env.malloc (rowBytes st.mp) with
      | none => some (st, none)
      | some row =>
          -- memset(row, 0, HDRLEN) stays inside the block
          if 0 ≤ hdrLen st.mp ∧ hdrLen st.mp ≤ rowBytes st.mp then do
            let t ← setAt t st.mp.x (some row)
            some ({
              mp := { st.mp with
                ptr := some t
                memused := wrap64 (st.mp.memused + rowBytes st.mp) }
              mem := Function.update st.mem row (some {
                size := rowBytes st.mp
                hdr := List.replicate (hdrLen st.mp / sizeofPtr).toNat none }) }, some row)
          else none

/-- The third part of `mp_alloc`: take the slot under the cursor and move on. -/
def mpAllocSlot (st : St) (row : Int) : Option (St × Int) := do
  let addr := row + hdrLen st.mp + wrap32 (st.mp.NOBJ * st.mp.y)
  let b ← st.mem row
  let hdr ← setAt b.hdr st.mp.y (some addr)
  let mem := Function.update st.mem row (some { b with hdr := hdr })
  if wrap32 (st.mp.y + 1) = st.mp.NY then
    some ({ mp := { st.mp with x := wrap32 (st.mp.x + 1), y := 0 }, mem := mem }, addr)
  else
    some ({ mp := { st.mp with y := wrap32 (st.mp.y + 1) }, mem := mem }, addr)

/-- `mp_alloc`: the new state and the returned pointer. -/
def mpAlloc (env : Env) (st : St) : Option (St × Option Int) := do
  let (mp, ok) ← mpAllocTable env st.mp
  if ok then
    let (st, row) ← mpAllocRow env { st with mp := mp }
    match row with
    | none => some (st, none)
    | some row =>
        let (st, addr) ← mpAllocSlot st row
        some (st, some addr)
  else some ({ st with mp := mp }, none)

/-- The inner loop of `mp_free`: the header with the entry `p` cleared, if there is
    such an entry among the `k` from index `i` on. -/
def mpFreeRow : Nat → Int → List (Option Int) → Int → Option (Option (List (Option Int)))
  | 0, _, _, _ => some none
  | k + 1, i, hdr, p => do
      let e ← getAt hdr i
      if e = some p then
        let hdr ← setAt hdr i none
        some (some hdr)
      else mpFreeRow k (i + 1) hdr p

/-- The outer loop of `mp_free`, `k` rows from row `x` on. -/
def mpFreeRows : Nat → Int → St → Int → Option St
  | 0, _, st, _ => some st
  | k + 1, x, st, p => do
      let t ← st.mp.ptr
      match ← getAt t x with
      | none => some st
      | some row =>
          let b ← st.mem row
          match ← mpFreeRow st.mp.NY.toNat 0 b.hdr p with
          | some hdr =>
              some { st with mem := Function.update st.mem row (some { b with hdr := hdr }) }
          | none => mpFreeRows k (x + 1) st p

/-- `mp_free`; a null pointer is ignored. -/
def mpFree (st : St) : Option Int → Option St
  | none => some st
  | some p => mpFreeRows st.mp.x.toNat 0 st p

/-! ## Runs -/

/-- The contract of the allocator in state `st`. -/
structure Env.Lawful (env : Env) (st : St) : Prop where
  realloc_le : ∀ n, env.realloc n = true → n ≤ ptrdiffMax
  malloc_disjoint : ∀ n a, env.malloc n = some a →
    ∀ b blk, st.mem b = some blk → a + n ≤ b ∨ b + blk.size ≤ a

/-- `st` is reached from `mp_create(objsize, y)` by any interleaving of `mp_free`
    calls and `mp_alloc` calls whose `malloc` and `realloc` succeed; `as` are the
    pointers handed out, in order. -/
inductive Reach (objsize y : Int) : St → List Int → Prop where
  | create {st : St} : mpCreate objsize y = some st → Reach objsize y st []
  | alloc {st st' : St} {as : List Int} {env : Env} {a : Int} :
      Reach objsize y st as → env.Lawful st → mpAlloc env st = some (st', some a) →
      Reach objsize y st' (as ++ [a])
  | free {st st' : St} {as : List Int} {p : Option Int} :
      Reach objsize y st as → mpFree st p = some st' → Reach objsize y st' as

/-! ## The invariant -/

/-- Two row blocks of `n` bytes that do not overlap. -/
def Apart (n : Int) (a b : Int) : Prop := a + n ≤ b ∨ b + n ≤ a

/-- Blocks of positive size that do not overlap have different addresses. -/
theorem Apart.ne {n a b : Int} (h : Apart n a b) (hn : 0 < n) : a ≠ b := by
  rintro rfl
  rw [Apart] at h
  omega

/-- A pool with the row blocks `rows` and a table of `nx` entries: the table lists
    the rows in order and is null behind them, every row is a live block with a
    header of `ny` entries, no two blocks overlap, and `memused` adds them up. -/
structure Rows (ny nobj : Nat) (st : St) (rows : List Int) (nx : Nat) : Prop where
  ny_eq : st.mp.NY = ny
  nobj_eq : st.mp.NOBJ = nobj
  nx_eq : st.mp.NX = nx
  nx_two : 2 ≤ nx
  nx_le : (nx : Int) ≤ intMax
  fits : rows.length ≤ nx
  table : st.mp.ptr = some (rows.map some ++ List.replicate (nx - rows.length) none)
  blocks : ∀ row ∈ rows, ∃ hdr, hdr.length = ny ∧
    st.mem row = some { size := (ny : Int) * (8 + nobj), hdr := hdr }
  apart : rows.Pairwise (Apart ((ny : Int) * (8 + nobj)))
  memused : st.mp.memused
    = sizeofMemPool + (nx : Int) * 8 + (rows.length : Int) * ((ny : Int) * (8 + nobj))

/-- The slot of the `k`-th object, counted row by row. -/
def IsSlot (ny nobj : Nat) (rows : List Int) (k : Nat) (a : Int) : Prop :=
  ∃ row, rows[k / ny]? = some row ∧ a = row + (ny : Int) * 8 + (nobj : Int) * (k % ny : Nat)

/-- A pool that has handed out `as`: the cursor stands at slot `as.length`, the rows
    up to it exist, and each pointer is its slot. -/
structure Slots (ny nobj : Nat) (st : St) (as rows : List Int) (nx : Nat) : Prop where
  grid : Rows ny nobj st rows nx
  x_eq : st.mp.x = (as.length / ny : Nat)
  y_eq : st.mp.y = (as.length % ny : Nat)
  room : as.length / ny < nx
  rows_len : rows.length = as.length / ny + if as.length % ny = 0 then 0 else 1
  addrs : ∀ k a, as[k]? = some a → IsSlot ny nobj rows k a

section Fixed

/-! The pool's geometry is fixed by `mp_create`; the row size stays below
    `INT_MAX`. -/

variable {ny nobj : Nat} (hny : 0 < ny) (hbound : (ny : Int) * (8 + nobj) < intMax)

/-! ## Arithmetic without wrap-around -/

include hbound in
theorem hdrLen_eq {mp : Pool} (h1 : mp.NY = ny) : hdrLen mp = (ny : Int) * 8 := by
  have hpos : (0 : Int) ≤ (ny : Int) * nobj := by positivity
  have hlt : (ny : Int) * 8 ≤ intMax := by linarith
  have h64 : intMax < 2 ^ 64 := by decide
  rw [hdrLen, sizeofPtr]
  rw [h1, wrap64_eq (by omega) (by omega), wrap32_eq (by omega) hlt]

include hbound in
theorem rowBytes_eq {mp : Pool} (h1 : mp.NY = ny) (h2 : mp.NOBJ = nobj) :
    rowBytes mp = (ny : Int) * (8 + nobj) := by
  have hpos : (0 : Int) ≤ (ny : Int) * nobj := by positivity
  have hsum : (ny : Int) * (8 + nobj) = (ny : Int) * 8 + (ny : Int) * nobj := by ring
  have h64 : intMax < 2 ^ 64 := by decide
  rw [rowBytes]
  rw [hdrLen_eq hbound h1, h1, h2, wrap32_eq hpos (by omega), ← hsum,
    wrap32_eq (by omega) (by omega), wrap64_eq (by omega) (by omega)]

/-- A granted `realloc` shows that doubling the table did not overflow: a wrapped
    `NX * 2` would have asked for almost `2 ^ 64` bytes. -/
theorem double_le_of_granted {nx : Nat} (hle : (nx : Int) ≤ intMax)
    (hgrant : wrap64 (wrap64 (wrap32 ((nx : Int) * 2)) * sizeofPtr) ≤ ptrdiffMax) :
    (nx : Int) * 2 ≤ intMax := by
  by_contra hlt
  rw [intMax] at hle hlt
  have hbmod : wrap32 ((nx : Int) * 2) = (nx : Int) * 2 - 2 ^ 32 := by
    rw [wrap32]
    rw [Int.bmod_def]
    omega
  rw [hbmod] at hgrant
  unfold wrap64 sizeofPtr ptrdiffMax at hgrant
  omega

/-- A granted table of twice the length. -/
theorem double_any (junk : Nat → Option Int) (t : List (Option Int)) {nx : Nat}
    (hlen : t.length = nx) (hdouble : (nx : Int) * 2 ≤ intMax) :
    memsetAt (resizeTo junk t
        (wrap64 (wrap64 (wrap32 ((nx : Int) * 2)) * sizeofPtr) / sizeofPtr).toNat) nx nx none
      = some (t ++ List.replicate nx none) := by
  subst hlen
  have hmax : intMax < 2 ^ 60 := by decide
  have hbytes : wrap64 (wrap64 (wrap32 ((t.length : Int) * 2)) * sizeofPtr)
      = (t.length : Int) * 2 * 8 := by
    have h64 : wrap64 ((t.length : Int) * 2) = (t.length : Int) * 2 :=
      wrap64_eq (by omega) (by omega)
    rw [wrap32_eq (by omega) hdouble, h64]
    exact wrap64_eq (by unfold sizeofPtr; omega) (by unfold sizeofPtr; omega)
  have hcells : ((t.length : Int) * 2 * 8 / sizeofPtr).toNat = t.length + t.length := by
    rw [sizeofPtr]
    omega
  rw [hbytes, hcells]
  exact memsetAt_resizeTo junk t t.length none

/-- The same for a table that is null behind its rows. -/
theorem double_table (junk : Nat → Option Int) (rows : List Int) {nx : Nat}
    (hfits : rows.length ≤ nx) (hdouble : (nx : Int) * 2 ≤ intMax) :
    memsetAt (resizeTo junk (rows.map some ++ List.replicate (nx - rows.length) none)
        (wrap64 (wrap64 (wrap32 ((nx : Int) * 2)) * sizeofPtr) / sizeofPtr).toNat) nx nx none
      = some (rows.map some ++ List.replicate (2 * nx - rows.length) none) := by
  have hlen : (rows.map some ++ List.replicate (nx - rows.length) (none : Option Int)).length
      = nx := by
    simp
    omega
  have hsum : nx - rows.length + nx = 2 * nx - rows.length := by omega
  rw [double_any junk _ hlen hdouble, List.append_assoc, List.replicate_append_replicate, hsum]

include hbound in
/-- The statistics of a pool fit into a `size_t`. -/
theorem memused_bound {n m : Nat} (hn : (n : Int) ≤ intMax) (hm : (m : Int) ≤ intMax) :
    0 ≤ sizeofMemPool + (n : Int) * 8 + (m : Int) * ((ny : Int) * (8 + nobj)) ∧
    sizeofMemPool + (n : Int) * 8 + (m : Int) * ((ny : Int) * (8 + nobj)) < 2 ^ 64 := by
  have hpos : (0 : Int) ≤ (ny : Int) * (8 + nobj) := by positivity
  have hprod : (m : Int) * ((ny : Int) * (8 + nobj)) ≤ intMax * intMax :=
    mul_le_mul hm (le_of_lt hbound) hpos (by decide)
  have hprod0 : (0 : Int) ≤ (m : Int) * ((ny : Int) * (8 + nobj)) := by positivity
  have hmax : intMax * intMax < 2 ^ 62 := by decide
  have hmax' : intMax < 2 ^ 31 := by decide
  rw [sizeofMemPool]
  omega

/-! ## The three parts of `mp_alloc` -/

include hbound in
/-- A table of twice the length, null in its second half. -/
theorem Rows.double {st : St} {rows : List Int} {nx : Nat} (h : Rows ny nobj st rows nx)
    (hdouble : (nx : Int) * 2 ≤ intMax) :
    Rows ny nobj { st with
      mp := { st.mp with
        ptr := some (rows.map some ++ List.replicate (2 * nx - rows.length) none)
        memused := wrap64 (st.mp.memused + wrap64 (st.mp.NX * sizeofPtr))
        NX := wrap32 (st.mp.NX * 2) } } rows (2 * nx) := by
  have htwo := h.nx_two
  have hfits := h.fits
  have hmax : intMax < 2 ^ 60 := by decide
  refine ⟨h.ny_eq, h.nobj_eq, ?_, by omega, by push_cast; linarith, by omega, rfl, h.blocks,
    h.apart, ?_⟩
  · show wrap32 (st.mp.NX * 2) = _
    rw [h.nx_eq, wrap32_eq (by omega) hdouble]
    push_cast
    ring
  · show wrap64 (st.mp.memused + wrap64 (st.mp.NX * sizeofPtr)) = _
    have hb := memused_bound hbound (n := 2 * nx) (m := rows.length)
      (by push_cast; linarith) (by omega)
    have h1 : wrap64 (st.mp.NX * sizeofPtr) = (nx : Int) * 8 := by
      rw [h.nx_eq]
      exact wrap64_eq (by unfold sizeofPtr; omega) (by unfold sizeofPtr; omega)
    have h2 : st.mp.memused + (nx : Int) * 8 = sizeofMemPool + ((2 * nx : Nat) : Int) * 8
        + (rows.length : Int) * ((ny : Int) * (8 + nobj)) := by
      rw [h.memused]
      push_cast
      ring
    rw [h1, h2]
    exact wrap64_eq hb.1 hb.2

/-- The table is full and `realloc` denies a larger one. -/
def TableDenied (env : Env) (mp : Pool) : Prop :=
  mp.x = wrap32 (mp.NX - 1) ∧
    env.realloc (wrap64 (wrap64 (wrap32 (mp.NX * 2)) * sizeofPtr)) = false

include hbound in
/-- Growing the table: afterwards the cursor is not at the last entry.  A denied
    growth loses the table. -/
theorem mpAllocTable_spec {env : Env} {st : St} {rows : List Int} {nx q : Nat}
    (h : Rows ny nobj st rows nx) (hlaw : env.Lawful st) (hx : st.mp.x = q) (hq : q < nx) :
    (¬ TableDenied env st.mp ∧ ∃ mp' nx', mpAllocTable env st.mp = some (mp', true) ∧
      Rows ny nobj { st with mp := mp' } rows nx' ∧ mp'.x = st.mp.x ∧ mp'.y = st.mp.y ∧
      nx ≤ nx' ∧ q + 1 < nx' ∧ (q + 1 < nx → nx' = nx)) ∨
    (TableDenied env st.mp ∧
      mpAllocTable env st.mp = some ({ st.mp with ptr := none }, false)) := by
  have hle := h.nx_le
  have htwo := h.nx_two
  have hfits := h.fits
  have hlast : wrap32 (st.mp.NX - 1) = (nx : Int) - 1 := by
    rw [h.nx_eq]
    exact wrap32_eq (by omega) (by omega)
  rw [mpAllocTable]
  by_cases hcur : st.mp.x = wrap32 (st.mp.NX - 1)
  · rw [if_pos hcur]
    by_cases hgrant : env.realloc (wrap64 (wrap64 (wrap32 (st.mp.NX * 2)) * sizeofPtr)) = true
    · refine Or.inl ⟨fun hd => absurd hgrant (by rw [hd.2]; decide), ?_⟩
      have hdouble : (nx : Int) * 2 ≤ intMax := by
        have hg := hlaw.realloc_le _ hgrant
        rw [h.nx_eq] at hg
        exact double_le_of_granted hle hg
      have hset := double_table env.junk rows hfits hdouble
      rw [← h.nx_eq] at hset
      have htab : st.mp.ptr.getD [] = rows.map some ++ List.replicate (nx - rows.length) none := by
        rw [h.table]
        rfl
      simp only [hgrant, if_true, htab, hset, Option.bind_eq_bind, Option.bind_some]
      refine ⟨_, 2 * nx, rfl, h.double hbound hdouble, rfl, rfl, by omega, by omega, ?_⟩
      rw [hlast, hx] at hcur
      omega
    · refine Or.inr ⟨⟨hcur, by simpa using hgrant⟩, ?_⟩
      simp only [hgrant]
      rfl
  · refine Or.inl ⟨fun hd => hcur hd.1, ?_⟩
    rw [if_neg hcur]
    refine ⟨st.mp, nx, rfl, h, rfl, rfl, le_refl nx, ?_, fun _ => rfl⟩
    rw [hlast, hx] at hcur
    omega

include hny hbound in
/-- A fresh block at the end of the table is one more row. -/
theorem Rows.addRow {st : St} {rows : List Int} {nx : Nat} (h : Rows ny nobj st rows nx)
    (hfits : rows.length < nx) {row : Int}
    (hfresh : ∀ r ∈ rows, Apart ((ny : Int) * (8 + nobj)) r row) {hdr : List (Option Int)}
    (hhdr : hdr.length = ny) :
    Rows ny nobj {
      mp := { st.mp with
        ptr := some ((rows ++ [row]).map some
          ++ List.replicate (nx - (rows ++ [row]).length) none)
        memused := wrap64 (st.mp.memused + (ny : Int) * (8 + nobj)) }
      mem := Function.update st.mem row (some { size := (ny : Int) * (8 + nobj), hdr := hdr }) }
      (rows ++ [row]) nx := by
  have hle := h.nx_le
  -- a block of positive size does not share its address with another row
  have hne : ∀ r ∈ rows, r ≠ row := fun r hr => (hfresh r hr).ne (by positivity)
  refine ⟨h.ny_eq, h.nobj_eq, h.nx_eq, h.nx_two, h.nx_le, by simp; omega, rfl, ?_, ?_, ?_⟩
  · intro r hr
    rcases List.mem_append.mp hr with hr | hr
    · obtain ⟨hdr', hl, hmem⟩ := h.blocks r hr
      refine ⟨hdr', hl, ?_⟩
      show Function.update st.mem row _ r = _
      rw [Function.update_of_ne (hne r hr)]
      exact hmem
    · rw [List.mem_singleton] at hr
      subst hr
      exact ⟨hdr, hhdr, Function.update_self ..⟩
  · rw [List.pairwise_append]
    refine ⟨h.apart, List.pairwise_singleton _ _, ?_⟩
    intro a ha b hb
    rw [List.mem_singleton] at hb
    rw [hb]
    exact hfresh a ha
  · show wrap64 (st.mp.memused + (ny : Int) * (8 + nobj)) = _
    have hb := memused_bound hbound (n := nx) (m := rows.length + 1) hle (by omega)
    have h2 : st.mp.memused + (ny : Int) * (8 + nobj) = sizeofMemPool + (nx : Int) * 8
        + ((rows.length + 1 : Nat) : Int) * ((ny : Int) * (8 + nobj)) := by
      rw [h.memused]
      push_cast
      ring
    rw [h2, wrap64_eq hb.1 hb.2]
    simp

include hny hbound in
/-- The current row: the one in the table, or a new block at its end with an empty
    header. -/
theorem mpAllocRow_spec {env : Env} {st : St} {rows : List Int} {nx q : Nat}
    (h : Rows ny nobj st rows nx) (hlaw : env.Lawful st) (hx : st.mp.x = q) (hq : q < nx)
    (hlen : rows.length = q ∨ rows.length = q + 1) :
    (∃ st' row rows', mpAllocRow env st = some (st', some row) ∧
      Rows ny nobj st' rows' nx ∧ st'.mp.x = st.mp.x ∧ st'.mp.y = st.mp.y ∧
      rows'.length = q + 1 ∧ rows'[q]? = some row ∧
      (rows' = rows ∧ st' = st ∨ rows' = rows ++ [row] ∧ row ∉ rows ∧
        env.malloc ((ny : Int) * (8 + nobj)) = some row ∧ st'.mem = Function.update st.mem row
          (some { size := (ny : Int) * (8 + nobj), hdr := List.replicate ny none }))) ∨
    (rows.length = q ∧ env.malloc ((ny : Int) * (8 + nobj)) = none ∧
      mpAllocRow env st = some (st, none)) := by
  have hle := h.nx_le
  have hbytes := rowBytes_eq hbound h.ny_eq h.nobj_eq
  rw [mpAllocRow]
  simp only [h.table, hx, Option.bind_eq_bind, Option.bind_some, getAt_natCast]
  rcases hlen with hlen | hlen
  · -- the entry is still null
    subst hlen
    simp only [table_get_null rows (show 0 < nx - rows.length by omega), Option.bind_some]
    cases hm : env.malloc (rowBytes st.mp) with
    | none =>
        rw [hbytes] at hm
        exact Or.inr ⟨trivial, hm, rfl⟩
    | some row =>
        left
        have hhdr := hdrLen_eq hbound h.ny_eq
        have hpos : (0 : Int) ≤ (ny : Int) * nobj := by positivity
        have hsum : (ny : Int) * (8 + nobj) = (ny : Int) * 8 + (ny : Int) * nobj := by ring
        have hfresh : ∀ r ∈ rows, Apart ((ny : Int) * (8 + nobj)) r row := by
          intro r hr
          obtain ⟨hdr, -, hmem⟩ := h.blocks r hr
          have := hlaw.malloc_disjoint _ _ hm r _ hmem
          rw [hbytes] at this
          exact this.symm
        have hcells : ((ny : Int) * 8 / sizeofPtr).toNat = ny := by simp [sizeofPtr]
        rw [hbytes] at hm
        simp only [hhdr, hbytes, hcells]
        rw [if_pos (by omega), setAt_table rows row hq]
        refine ⟨_, row, rows ++ [row], rfl, ?_, rfl, rfl, by simp, by simp,
          Or.inr ⟨rfl, fun hr => (hfresh row hr).ne (by omega) rfl, hm, rfl⟩⟩
        rw [← hx]
        exact h.addRow hny hbound (by omega) hfresh (List.length_replicate ..)
  · -- the row exists
    left
    have hqlt : q < rows.length := by omega
    simp only [table_get rows hqlt, Option.bind_some]
    exact ⟨st, _, rows, rfl, h, hx, rfl, hlen, by simp [hqlt], Or.inl ⟨rfl, rfl⟩⟩

/-- Rewriting a header keeps the rows. -/
theorem Rows.setHdr {st : St} {rows : List Int} {nx : Nat} (h : Rows ny nobj st rows nx)
    {row : Int} {b : Block} (hb : st.mem row = some b) {hdr : List (Option Int)}
    (hl : hdr.length = b.hdr.length) {mp : Pool} (hNY : mp.NY = st.mp.NY)
    (hNOBJ : mp.NOBJ = st.mp.NOBJ) (hNX : mp.NX = st.mp.NX) (hptr : mp.ptr = st.mp.ptr)
    (hused : mp.memused = st.mp.memused) :
    Rows ny nobj { mp := mp, mem := Function.update st.mem row (some { b with hdr := hdr }) }
      rows nx := by
  refine ⟨hNY.trans h.ny_eq, hNOBJ.trans h.nobj_eq, hNX.trans h.nx_eq, h.nx_two, h.nx_le, h.fits,
    hptr.trans h.table, ?_, h.apart, hused.trans h.memused⟩
  intro r hr
  obtain ⟨hdr', hl', hmem⟩ := h.blocks r hr
  show ∃ hd, _ ∧ Function.update st.mem row _ r = _
  by_cases hrr : r = row
  · subst hrr
    rw [hb] at hmem
    obtain rfl := Option.some.inj hmem
    exact ⟨hdr, hl.trans hl', Function.update_self ..⟩
  · rw [Function.update_of_ne hrr]
    exact ⟨hdr', hl', hmem⟩

include hny hbound in
/-- Taking the slot under the cursor `(q, r)`. -/
theorem mpAllocSlot_spec {st : St} {rows : List Int} {nx q r : Nat}
    (h : Rows ny nobj st rows nx) (hx : st.mp.x = q) (hy : st.mp.y = r) (hq : q + 1 < nx)
    (hr : r < ny) {row : Int} (hrow : rows[q]? = some row) :
    ∃ st', mpAllocSlot st row = some (st', row + (ny : Int) * 8 + (nobj : Int) * r) ∧
      Rows ny nobj st' rows nx ∧
      (if r + 1 = ny then st'.mp.x = ((q + 1 : Nat) : Int) ∧ st'.mp.y = 0
        else st'.mp.x = q ∧ st'.mp.y = ((r + 1 : Nat) : Int)) ∧
      ∃ hdr, st.mem row = some { size := (ny : Int) * (8 + nobj), hdr := hdr } ∧
        st'.mem = Function.update st.mem row (some {
          size := (ny : Int) * (8 + nobj)
          hdr := hdr.set r (some (row + (ny : Int) * 8 + (nobj : Int) * r)) }) := by
  have hle := h.nx_le
  obtain ⟨hdr, hlen, hmem⟩ := h.blocks row (List.mem_of_getElem? hrow)
  have hoff : wrap32 (st.mp.NOBJ * st.mp.y) = (nobj : Int) * r := by
    have h1 : (nobj : Int) * r ≤ (nobj : Int) * ny := by
      apply mul_le_mul_of_nonneg_left <;> omega
    have h2 : (ny : Int) * (8 + nobj) = (ny : Int) * 8 + (nobj : Int) * ny := by ring
    have h3 : (0 : Int) ≤ (nobj : Int) * r := by positivity
    rw [h.nobj_eq, hy]
    exact wrap32_eq h3 (by omega)
  have hnyle : (ny : Int) ≤ intMax := by
    have h1 : (0 : Int) ≤ (ny : Int) * nobj := by positivity
    have h2 : (ny : Int) * (8 + nobj) = (ny : Int) * 8 + (ny : Int) * nobj := by ring
    omega
  have hy1 : wrap32 (st.mp.y + 1) = ((r + 1 : Nat) : Int) := by
    rw [hy, wrap32_eq (by omega) (by omega)]
    push_cast
    rfl
  have hx1 : wrap32 (st.mp.x + 1) = ((q + 1 : Nat) : Int) := by
    rw [hx, wrap32_eq (by omega) (by omega)]
    push_cast
    rfl
  have hset : ∀ a : Option Int, setAt hdr st.mp.y a = some (hdr.set r a) := by
    intro a
    rw [hy]
    exact setAt_natCast hdr a (by omega)
  have hgrid : ∀ (mp : Pool) (a : Option Int), mp.NY = st.mp.NY → mp.NOBJ = st.mp.NOBJ →
      mp.NX = st.mp.NX → mp.ptr = st.mp.ptr → mp.memused = st.mp.memused →
      Rows ny nobj ⟨mp, Function.update st.mem row
        (some { size := (ny : Int) * (8 + nobj), hdr := hdr.set r a })⟩ rows nx :=
    fun mp a h1 h2 h3 h4 h5 => h.setHdr hmem (List.length_set ..) h1 h2 h3 h4 h5
  rw [mpAllocSlot]
  simp only [hdrLen_eq hbound h.ny_eq, hoff, hmem, hset, Option.bind_eq_bind, Option.bind_some, hy1,
    hx1, h.ny_eq, Nat.cast_inj]
  by_cases hlast : r + 1 = ny
  · rw [if_pos hlast]
    refine ⟨_, rfl, ?_, ?_, hdr, rfl, rfl⟩
    · exact hgrid _ _ h.ny_eq.symm rfl rfl rfl rfl
    · rw [if_pos hlast]
      exact ⟨rfl, rfl⟩
  · rw [if_neg hlast]
    refine ⟨_, rfl, ?_, ?_, hdr, rfl, rfl⟩
    · exact hgrid _ _ h.ny_eq.symm rfl rfl rfl rfl
    · rw [if_neg hlast]
      exact ⟨hx, rfl⟩

/-! ## `mp_free` -/

/-- The inner loop clears the first entry `p` of the header, or there is none. -/
theorem mpFreeRow_spec (p : Int) (hdr : List (Option Int)) : ∀ (k i : Nat),
    i + k ≤ hdr.length →
      (mpFreeRow k (i : Int) hdr p = some none ∧
        ∀ j, i ≤ j → j < i + k → hdr[j]? ≠ some (some p)) ∨
      ∃ j, j < i + k ∧ hdr[j]? = some (some p) ∧
        mpFreeRow k (i : Int) hdr p = some (some (hdr.set j none)) := by
  intro k
  induction k with
  | zero =>
      intro i _
      refine Or.inl ⟨rfl, ?_⟩
      intro j hle hlt
      omega
  | succ k ih =>
      intro i hi
      have hget : hdr[i]? = some (hdr.get ⟨i, by omega⟩) := by simp
      simp only [mpFreeRow, getAt_natCast, hget, Option.bind_eq_bind, Option.bind_some]
      by_cases he : hdr.get ⟨i, by omega⟩ = some p
      · right
        rw [if_pos he, setAt_natCast _ _ (by omega)]
        exact ⟨i, by omega, by rw [hget, he], rfl⟩
      · rw [if_neg he]
        rcases ih (i + 1) (by omega) with ⟨hrun, hnone⟩ | ⟨j, hj, hp, hrun⟩
        · refine Or.inl ⟨by simpa using hrun, ?_⟩
          intro j hle hlt
          by_cases hji : j = i
          · rw [hji, hget]
            intro heq
            exact he (Option.some.inj heq)
          · exact hnone j (by omega) (by omega)
        · exact Or.inr ⟨j, by omega, hp, by simpa using hrun⟩

/-- The header entry `c` of row `j` is `p`. -/
def HoldsAt (st : St) (rows : List Int) (j c : Nat) (p : Int) : Prop :=
  ∃ row b, rows[j]? = some row ∧ st.mem row = some b ∧ b.hdr[c]? = some (some p)

/-- The state with the header entry `c` of row `j` cleared. -/
def ClearsAt (st st' : St) (rows : List Int) (j c : Nat) : Prop :=
  ∃ row b, rows[j]? = some row ∧ st.mem row = some b ∧
    st' = { st with mem := Function.update st.mem row (some { b with hdr := b.hdr.set c none }) }

/-- The outer loop meets existing rows only; it clears one entry `p` in them, or
    there is none and nothing changes. -/
theorem mpFreeRows_spec (p : Int) {rows : List Int} {nx : Nat} : ∀ (k i : Nat) (st : St),
    Rows ny nobj st rows nx → i + k ≤ rows.length →
    ∃ st', mpFreeRows k (i : Int) st p = some st' ∧ st'.mp = st.mp ∧
      Rows ny nobj st' rows nx ∧
      ((st' = st ∧ ∀ j c, i ≤ j → j < i + k → ¬ HoldsAt st rows j c p) ∨
        ∃ j c, j < i + k ∧ HoldsAt st rows j c p ∧ ClearsAt st st' rows j c) := by
  intro k
  induction k with
  | zero =>
      intro i st h _
      refine ⟨st, rfl, rfl, h, Or.inl ⟨rfl, ?_⟩⟩
      intro j c hle hlt
      omega
  | succ k ih =>
      intro i st h hi
      have hilt : i < rows.length := by omega
      have hrow := table_get (k := nx - rows.length) rows hilt
      have hget : rows[i]? = some (rows.get ⟨i, hilt⟩) := by simp
      obtain ⟨hdr, hlen, hmem⟩ := h.blocks (rows.get ⟨i, hilt⟩) (List.get_mem rows ⟨i, hilt⟩)
      have hnat : st.mp.NY.toNat = ny := by
        rw [h.ny_eq]
        exact Int.toNat_natCast ny
      have hzero : (0 : Int) = ((0 : Nat) : Int) := rfl
      simp only [mpFreeRows, h.table, getAt_natCast, hrow, hmem, hnat, Option.bind_eq_bind,
        Option.bind_some]
      rcases mpFreeRow_spec p hdr ny 0 (by omega) with ⟨hrun, hnone⟩ | ⟨c, hc, hp, hrun⟩
      · rw [hzero, hrun]
        obtain ⟨st', hst', hmp, hrows, hcase⟩ := ih (i + 1) st h (by omega)
        refine ⟨st', by simpa using hst', hmp, hrows, ?_⟩
        rcases hcase with ⟨rfl, habsent⟩ | ⟨j, c, hj, hheld, hclear⟩
        · refine Or.inl ⟨rfl, ?_⟩
          rintro j c hle hlt ⟨row, b, hr, hb, hbp⟩
          by_cases hji : j = i
          · subst hji
            obtain rfl := Option.some.inj (hget.symm.trans hr)
            obtain rfl := Option.some.inj (hmem.symm.trans hb)
            have hcl : c < hdr.length := (List.getElem?_eq_some_iff.mp hbp).1
            exact hnone c (Nat.zero_le c) (by omega) hbp
          · exact habsent j c (by omega) (by omega) ⟨row, b, hr, hb, hbp⟩
        · exact Or.inr ⟨j, c, by omega, hheld, hclear⟩
      · rw [hzero, hrun]
        refine ⟨_, rfl, rfl, h.setHdr hmem (List.length_set ..) rfl rfl rfl rfl rfl, Or.inr ?_⟩
        exact ⟨i, c, by omega, ⟨_, _, hget, hmem, hp⟩, _, _, hget, hmem, rfl⟩

/-! ## The invariant over a run -/

/-- Counting one further: the slot after `k`, row by row. -/
theorem slot_succ (hny : 0 < ny) (k : Nat) :
    if k % ny + 1 = ny then (k + 1) / ny = k / ny + 1 ∧ (k + 1) % ny = 0
      else (k + 1) / ny = k / ny ∧ (k + 1) % ny = k % ny + 1 := by
  have hk := Nat.div_add_mod k ny
  have hlt := Nat.mod_lt k hny
  by_cases hlast : k % ny + 1 = ny
  · rw [if_pos hlast]
    refine (Nat.div_mod_unique hny).mpr ⟨?_, hny⟩
    rw [Nat.mul_add]
    omega
  · rw [if_neg hlast]
    refine (Nat.div_mod_unique hny).mpr ⟨?_, by omega⟩
    omega

include hny in
/-- The cursor has moved on by one slot, and its row exists. -/
theorem Slots.advance {st st' : St} {as rows rows' : List Int} {nx nx' : Nat} {row : Int}
    (h : Slots ny nobj st as rows nx) (hgrid : Rows ny nobj st' rows' nx')
    (hq : as.length / ny + 1 < nx') (hlen : rows'.length = as.length / ny + 1)
    (hget : rows'[as.length / ny]? = some row)
    (hkeep : ∀ (j : Nat) (r : Int), rows[j]? = some r → rows'[j]? = some r)
    (hcur : if as.length % ny + 1 = ny
      then st'.mp.x = ((as.length / ny + 1 : Nat) : Int) ∧ st'.mp.y = 0
      else st'.mp.x = (as.length / ny : Nat) ∧ st'.mp.y = ((as.length % ny + 1 : Nat) : Int)) :
    Slots ny nobj st'
      (as ++ [row + (ny : Int) * 8 + (nobj : Int) * (as.length % ny : Nat)]) rows' nx' := by
  have hsucc := slot_succ hny as.length
  refine ⟨hgrid, ?_, ?_, ?_, ?_, ?_⟩
  · rw [List.length_append, List.length_singleton]
    by_cases hlast : as.length % ny + 1 = ny
    · rw [if_pos hlast] at hsucc hcur
      rw [hcur.1, hsucc.1]
    · rw [if_neg hlast] at hsucc hcur
      rw [hcur.1, hsucc.1]
  · rw [List.length_append, List.length_singleton]
    by_cases hlast : as.length % ny + 1 = ny
    · rw [if_pos hlast] at hsucc hcur
      rw [hcur.2, hsucc.2]
      rfl
    · rw [if_neg hlast] at hsucc hcur
      rw [hcur.2, hsucc.2]
  · rw [List.length_append, List.length_singleton]
    split_ifs at hsucc <;> omega
  · rw [List.length_append, List.length_singleton, hlen]
    by_cases hlast : as.length % ny + 1 = ny
    · rw [if_pos hlast] at hsucc
      rw [hsucc.1, hsucc.2]
      rfl
    · rw [if_neg hlast] at hsucc
      rw [hsucc.1, hsucc.2, if_neg (by omega)]
  · intro k a hk
    rcases getElem?_snoc hk with hk | ⟨rfl, rfl⟩
    · obtain ⟨r, hr, ha⟩ := h.addrs k a hk
      exact ⟨r, hkeep _ _ hr, ha⟩
    · exact ⟨row, hget, rfl⟩

/-- The block of row `q`, old or new with an empty header, with `a` written into
    entry `r` of its header. -/
def FillsAt (ny nobj : Nat) (st st' : St) (rows rows' : List Int) (q r : Nat) (a : Int) : Prop :=
  ∃ row hdr, rows'[q]? = some row ∧
    (rows' = rows ∧ st.mem row = some { size := (ny : Int) * (8 + nobj), hdr := hdr } ∨
      rows' = rows ++ [row] ∧ row ∉ rows ∧ hdr = List.replicate ny none) ∧
    st'.mem = Function.update st.mem row
      (some { size := (ny : Int) * (8 + nobj), hdr := hdr.set r (some a) })

include hny hbound in
/-- One `mp_alloc`: it hands out the slot of its number; or `malloc` denied the row,
    and nothing but the length of the table changed; or `realloc` denied the table,
    and the table is lost.  It never faults. -/
theorem Slots.alloc {env : Env} {st : St} {as rows : List Int} {nx : Nat}
    (h : Slots ny nobj st as rows nx) (hlaw : env.Lawful st) :
    (¬ TableDenied env st.mp ∧ ∃ st' a rows' nx', mpAlloc env st = some (st', some a) ∧
      Slots ny nobj st' (as ++ [a]) rows' nx' ∧ as.length / ny + 1 < nx' ∧
      FillsAt ny nobj st st' rows rows' (as.length / ny) (as.length % ny) a ∧
      (rows.length = as.length / ny → env.malloc ((ny : Int) * (8 + nobj)) ≠ none) ∧
      (as.length / ny + 1 < nx → nx' = nx)) ∨
    (¬ TableDenied env st.mp ∧ env.malloc ((ny : Int) * (8 + nobj)) = none ∧
      ∃ st' nx', mpAlloc env st = some (st', none) ∧ Slots ny nobj st' as rows nx' ∧
        st'.mem = st.mem ∧ as.length / ny + 1 < nx') ∨
    (TableDenied env st.mp ∧
      mpAlloc env st = some ({ st with mp := { st.mp with ptr := none } }, none)) := by
  have hmod := Nat.mod_lt as.length hny
  have hroom := h.room
  rcases mpAllocTable_spec hbound h.grid hlaw h.x_eq h.room with
    ⟨hgranted, mp', nx', htab, hgrid, hx', hy', -, hq, hsame⟩ | ⟨hdenied, htab⟩
  · have hlen : rows.length = as.length / ny ∨ rows.length = as.length / ny + 1 := by
      rw [h.rows_len]
      by_cases h0 : as.length % ny = 0
      · rw [if_pos h0]
        exact Or.inl rfl
      · rw [if_neg h0]
        exact Or.inr rfl
    have hlaw' : env.Lawful { st with mp := mp' } := ⟨hlaw.realloc_le, hlaw.malloc_disjoint⟩
    rcases mpAllocRow_spec hny hbound hgrid hlaw' (hx'.trans h.x_eq) (by omega) hlen with
      ⟨st₂, row, rows', hrow, hgrid₂, hx₂, hy₂, hlen₂, hget₂, hcase⟩ | ⟨-, hnull, hrow⟩
    · obtain ⟨st₃, hslot, hgrid₃, hcur, hdr, hmem₂, hmem₃⟩ := mpAllocSlot_spec hny hbound hgrid₂
        (hx₂.trans (hx'.trans h.x_eq)) (hy₂.trans (hy'.trans h.y_eq)) hq hmod hget₂
      have hkeep : ∀ (j : Nat) (r : Int), rows[j]? = some r → rows'[j]? = some r := by
        intro j r hj
        rcases hcase with ⟨rfl, -⟩ | ⟨rfl, -⟩
        · exact hj
        · rw [List.getElem?_append_left (List.getElem?_eq_some_iff.mp hj).1]
          exact hj
      refine Or.inl ⟨hgranted, st₃, row + (ny : Int) * 8 + (nobj : Int) * (as.length % ny : Nat),
        rows', nx', ?_, h.advance hny hgrid₃ hq hlen₂ hget₂ hkeep hcur, hq,
        ⟨row, hdr, hget₂, ?_, ?_⟩, ?_, hsame⟩
      · rw [mpAlloc]
        simp only [htab, hrow, hslot, Option.bind_eq_bind, Option.bind_some, if_true]
      · rcases hcase with ⟨hrows, rfl⟩ | ⟨hrows, hnot, -, hmem⟩
        · exact Or.inl ⟨hrows, hmem₂⟩
        · rw [hmem, Function.update_self] at hmem₂
          exact Or.inr ⟨hrows, hnot, (Block.mk.inj (Option.some.inj hmem₂)).2.symm⟩
      · rcases hcase with ⟨-, rfl⟩ | ⟨-, -, -, hmem⟩
        · exact hmem₃
        · rw [hmem₃, hmem, Function.update_idem]
      · intro hnull
        rcases hcase with ⟨rfl, -⟩ | ⟨-, -, hgrant, -⟩
        · omega
        · rw [hgrant]
          exact Option.some_ne_none row
    · refine Or.inr (Or.inl ⟨hgranted, hnull, { st with mp := mp' }, nx', ?_, ?_, rfl, hq⟩)
      · rw [mpAlloc]
        simp only [htab, hrow, Option.bind_eq_bind, Option.bind_some, if_true]
      · exact ⟨hgrid, hx'.trans h.x_eq, hy'.trans h.y_eq, by omega, h.rows_len, h.addrs⟩
  · refine Or.inr (Or.inr ⟨hdenied, ?_⟩)
    rw [mpAlloc]
    simp only [htab, Option.bind_eq_bind, Option.bind_some]
    rfl

/-- One `mp_free` of any pointer keeps the slots.  It clears one header entry in the
    rows before the cursor's, or finds the pointer in none of them. -/
theorem Slots.free {st : St} {as rows : List Int} {nx : Nat}
    (h : Slots ny nobj st as rows nx) (p : Int) :
    ∃ st', mpFree st (some p) = some st' ∧ Slots ny nobj st' as rows nx ∧
      ((st' = st ∧ ∀ j c, j < as.length / ny → ¬ HoldsAt st rows j c p) ∨
        ∃ j c, j < as.length / ny ∧ HoldsAt st rows j c p ∧ ClearsAt st st' rows j c) := by
  have hnat : st.mp.x.toNat = as.length / ny := by
    rw [h.x_eq]
    exact Int.toNat_natCast _
  obtain ⟨st', hrun, hmp, hgrid, hcase⟩ := mpFreeRows_spec p (as.length / ny) 0 st h.grid
    (by rw [h.rows_len]; omega)
  refine ⟨st', ?_, ⟨hgrid, ?_, ?_, h.room, h.rows_len, h.addrs⟩, ?_⟩
  · rw [mpFree]
    rw [hnat]
    exact hrun
  · rw [hmp]
    exact h.x_eq
  · rw [hmp]
    exact h.y_eq
  · simpa using hcase

end Fixed

/-! ## The pool over every run -/

/-- A pool that `mp_create` returned. -/
theorem slots_create {objsize y : Int} {st : St} (hc : mpCreate objsize y = some st)
    (hbound : max y 1 * (8 + objsize) < intMax) :
    ∃ ny nobj : Nat, 0 < ny ∧ 0 < nobj ∧ (ny : Int) = max y 1 ∧ (nobj : Int) = objsize ∧
      (ny : Int) * (8 + nobj) < intMax ∧ Slots ny nobj st [] [] 10 ∧ ∀ a, st.mem a = none := by
  rw [mpCreate] at hc
  by_cases hobj : objsize ≤ 0
  · rw [if_pos hobj] at hc
    exact nomatch hc
  · rw [if_neg hobj] at hc
    obtain rfl := Option.some.inj hc
    obtain ⟨nobj, hnobj⟩ := Int.eq_ofNat_of_zero_le (show 0 ≤ objsize by omega)
    obtain ⟨ny, hny⟩ := Int.eq_ofNat_of_zero_le (show 0 ≤ max y 1 by omega)
    refine ⟨ny, nobj, by omega, by omega, hny.symm, hnobj.symm, ?_, ?_, fun _ => rfl⟩
    · rw [← hny, ← hnobj]
      exact hbound
    · refine ⟨⟨?_, hnobj, rfl, by omega, by decide, by simp, rfl, ?_, List.Pairwise.nil, ?_⟩,
        ?_, ?_, by simp, by simp, ?_⟩
      · show (if y < 1 then 1 else y) = (ny : Int)
        by_cases hy : y < 1
        · rw [if_pos hy]
          omega
        · rw [if_neg hy]
          omega
      · intro row hrow
        exact nomatch hrow
      · show wrap64 (sizeofMemPool + 10 * sizeofPtr) = _
        rw [wrap64_eq (by decide) (by decide)]
        simp [sizeofPtr]
      · simp
      · simp
      · intro k a hk
        simp at hk

/-- Every reachable pool has its slots in place. -/
theorem reach_slots {objsize y : Int} {st : St} {as : List Int} (h : Reach objsize y st as)
    (hbound : max y 1 * (8 + objsize) < intMax) :
    ∃ ny nobj : Nat, 0 < ny ∧ 0 < nobj ∧ (ny : Int) = max y 1 ∧ (nobj : Int) = objsize ∧
      (ny : Int) * (8 + nobj) < intMax ∧ ∃ rows nx, Slots ny nobj st as rows nx := by
  induction h with
  | create hc =>
      obtain ⟨ny, nobj, hny, hnobj, h1, h2, hb, hs, -⟩ := slots_create hc hbound
      exact ⟨ny, nobj, hny, hnobj, h1, h2, hb, [], 10, hs⟩
  | alloc _ hlaw hrun ih =>
      obtain ⟨ny, nobj, hny, hnobj, h1, h2, hb, rows, nx, hs⟩ := ih
      refine ⟨ny, nobj, hny, hnobj, h1, h2, hb, ?_⟩
      rcases hs.alloc hny hb hlaw with
        ⟨-, st', a, rows', nx', hrun', hs', -⟩ | ⟨-, -, st', nx', hrun', -⟩ | ⟨-, hrun'⟩
      · rw [hrun'] at hrun
        obtain ⟨rfl, ha⟩ := Prod.mk.inj (Option.some.inj hrun)
        obtain rfl := Option.some.inj ha
        exact ⟨rows', nx', hs'⟩
      · rw [hrun'] at hrun
        exact nomatch (Prod.mk.inj (Option.some.inj hrun)).2
      · rw [hrun'] at hrun
        exact nomatch (Prod.mk.inj (Option.some.inj hrun)).2
  | @free st st' as p _ hrun ih =>
      obtain ⟨ny, nobj, hny, hnobj, h1, h2, hb, rows, nx, hs⟩ := ih
      refine ⟨ny, nobj, hny, hnobj, h1, h2, hb, rows, nx, ?_⟩
      cases p with
      | none =>
          obtain rfl := Option.some.inj hrun
          exact hs
      | some p =>
          obtain ⟨st'', hrun', hs', -⟩ := hs.free p
          rw [hrun'] at hrun
          obtain rfl := Option.some.inj hrun
          exact hs'

/-- Two slots of one row do not overlap. -/
theorem slot_apart_row (nobj : Nat) {i j : Nat} (hij : i < j) (base : Int) :
    base + (nobj : Int) * i + nobj ≤ base + (nobj : Int) * j := by
  have h1 : (nobj : Int) * ((i : Int) + 1) ≤ (nobj : Int) * j := by
    apply mul_le_mul_of_nonneg_left <;> omega
  have h2 : (nobj : Int) * ((i : Int) + 1) = (nobj : Int) * i + nobj := by ring
  omega

/-- A slot lies behind the header and inside the block. -/
theorem slot_inside (nobj : Nat) {ny i : Nat} (hi : i < ny) (row : Int) :
    row + (ny : Int) * 8 ≤ row + (ny : Int) * 8 + (nobj : Int) * i ∧
    row + (ny : Int) * 8 + (nobj : Int) * i + nobj ≤ row + (ny : Int) * (8 + nobj) := by
  have h0 : (0 : Int) ≤ (nobj : Int) * i := by positivity
  have h1 := slot_apart_row nobj hi (row + (ny : Int) * 8)
  have h2 : row + (ny : Int) * (8 + nobj) = row + (ny : Int) * 8 + (nobj : Int) * ny := by ring
  omega

/-- In a grid of rows that are apart, each with `w` slots behind a header of `hdr`
    bytes, different slots do not overlap. -/
theorem grid_disjoint {rows : List Int} {size hdr : Int} {w nobj : Nat}
    (happart : rows.Pairwise (Apart size)) (hw : 0 < w) (hhdr : 0 ≤ hdr)
    (hsize : hdr + (nobj : Int) * w ≤ size) {i j : Nat} {ra rb : Int} (hij : i < j)
    (hra : rows[i / w]? = some ra) (hrb : rows[j / w]? = some rb) :
    ra + hdr + (nobj : Int) * (i % w : Nat) + nobj ≤ rb + hdr + (nobj : Int) * (j % w : Nat) ∨
    rb + hdr + (nobj : Int) * (j % w : Nat) + nobj ≤ ra + hdr + (nobj : Int) * (i % w : Nat) := by
  by_cases hrow : i / w = j / w
  · -- one row: the columns differ
    rw [hrow, hrb] at hra
    obtain rfl := Option.some.inj hra
    have hcol : i % w < j % w := by
      have h1 := Nat.div_add_mod i w
      have h2 := Nat.div_add_mod j w
      rw [hrow] at h1
      omega
    exact Or.inl (slot_apart_row nobj hcol (rb + hdr))
  · -- two rows: the blocks are apart
    have hlt : i / w < j / w := lt_of_le_of_ne (Nat.div_le_div_right (le_of_lt hij)) hrow
    have happ : Apart size ra rb := by
      obtain ⟨hi', hra'⟩ := List.getElem?_eq_some_iff.mp hra
      obtain ⟨hj', hrb'⟩ := List.getElem?_eq_some_iff.mp hrb
      rw [← hra', ← hrb']
      exact List.pairwise_iff_getElem.mp happart _ _ hi' hj' hlt
    have hai := slot_apart_row nobj (Nat.mod_lt i hw) (ra + hdr)
    have hbj := slot_apart_row nobj (Nat.mod_lt j hw) (rb + hdr)
    have h0i : (0 : Int) ≤ (nobj : Int) * (i % w : Nat) := by positivity
    have h0j : (0 : Int) ≤ (nobj : Int) * (j % w : Nat) := by positivity
    rcases happ with happ | happ <;> omega

/-- Different slots do not overlap. -/
theorem Slots.disjoint {ny nobj : Nat} (hny : 0 < ny) {st : St} {as rows : List Int} {nx : Nat}
    (h : Slots ny nobj st as rows nx) {i j : Nat} {a b : Int} (hij : i < j)
    (hi : as[i]? = some a) (hj : as[j]? = some b) : a + nobj ≤ b ∨ b + nobj ≤ a := by
  obtain ⟨ra, hra, rfl⟩ := h.addrs i a hi
  obtain ⟨rb, hrb, rfl⟩ := h.addrs j b hj
  have hsize : (ny : Int) * 8 + (nobj : Int) * ny ≤ (ny : Int) * (8 + nobj) :=
    le_of_eq (by ring)
  exact grid_disjoint h.grid.apart hny (by positivity) hsize hij hra hrb

/-- **POOL SLOTS.**  For a pool made by `mp_create(objsize, y)` whose row size is
    below `INT_MAX`, after any interleaving of successful `mp_alloc` calls and of
    `mp_free` calls (of any pointers): the `k`-th pointer is slot `k mod NY` of row
    `k / NY`, inside that row's block and behind its header; different pointers do
    not overlap; the table has `NX` entries and `x < NX`; `memused` counts the pool,
    the table and the rows; and no further call accesses the table outside. -/
theorem mp_slots {objsize y : Int} {st : St} {as : List Int} (h : Reach objsize y st as)
    (hbound : max y 1 * (8 + objsize) < intMax) :
    ∃ (ny nobj : Nat) (t : List (Option Int)), (ny : Int) = max y 1 ∧ (nobj : Int) = objsize ∧
      st.mp.ptr = some t ∧ (t.length : Int) = st.mp.NX ∧ 0 ≤ st.mp.x ∧ st.mp.x < st.mp.NX ∧
      (∀ k a, as[k]? = some a → ∃ row blk, t[k / ny]? = some (some row) ∧
        st.mem row = some blk ∧
        a = row + (ny : Int) * sizeofPtr + (nobj : Int) * (k % ny : Nat) ∧
        row + (ny : Int) * sizeofPtr ≤ a ∧ a + nobj ≤ row + blk.size) ∧
      (∀ (i j : Nat) (a b : Int), i ≠ j → as[i]? = some a → as[j]? = some b →
        a + nobj ≤ b ∨ b + nobj ≤ a) ∧
      st.mp.memused = sizeofMemPool + st.mp.NX * sizeofPtr
        + (t.countP Option.isSome : Nat) * ((ny : Int) * (sizeofPtr + nobj)) ∧
      (∀ env : Env, env.Lawful st →
        ∃ st' r, mpAlloc env st = some (st', r) ∧ st.mp.x < st'.mp.NX) ∧
      (∀ p, ∃ st', mpFree st p = some st') := by
  obtain ⟨ny, nobj, hny, hnobj, h1, h2, hb, rows, nx, hs⟩ := reach_slots h hbound
  have hroom := hs.room
  have hfits := hs.grid.fits
  refine ⟨ny, nobj, _, h1, h2, hs.grid.table, ?_, ?_, ?_, ?_, ?_, ?_, ?_, ?_⟩
  · rw [hs.grid.nx_eq]
    simp
    omega
  · rw [hs.x_eq]
    exact Int.natCast_nonneg _
  · rw [hs.x_eq, hs.grid.nx_eq]
    omega
  · intro k a hk
    obtain ⟨row, hrow, rfl⟩ := hs.addrs k a hk
    obtain ⟨hdr, -, hmem⟩ := hs.grid.blocks row (List.mem_of_getElem? hrow)
    have hlt := (List.getElem?_eq_some_iff.mp hrow).1
    have hin := slot_inside nobj (Nat.mod_lt k hny) row
    refine ⟨row, _, ?_, hmem, rfl, hin.1, hin.2⟩
    rw [List.getElem?_append_left (by simp; omega)]
    simp [hrow]
  · intro i j a b hij hi hj
    rcases Nat.lt_or_gt_of_ne hij with hlt | hgt
    · exact hs.disjoint hny hlt hi hj
    · exact (hs.disjoint hny hgt hj hi).symm
  · have hcount : (rows.map some ++ List.replicate (nx - rows.length) (none : Option Int)).countP
        Option.isSome = rows.length := by
      rw [List.countP_append, List.countP_replicate]
      simp [List.countP_map]
    rw [hcount, hs.grid.memused, hs.grid.nx_eq]
    rfl
  · intro env hlaw
    rcases hs.alloc hny hb hlaw with
      ⟨-, st', a, rows', nx', hrun, hs', hlt, -⟩ |
        ⟨-, -, st', nx', hrun, hs', -, hlt⟩ | ⟨-, hrun⟩
    · refine ⟨st', some a, hrun, ?_⟩
      rw [hs.x_eq, hs'.grid.nx_eq]
      omega
    · refine ⟨st', none, hrun, ?_⟩
      rw [hs.x_eq, hs'.grid.nx_eq]
      omega
    · refine ⟨_, none, hrun, ?_⟩
      show st.mp.x < st.mp.NX
      rw [hs.x_eq, hs.grid.nx_eq]
      omega
  · rintro (_ | p)
    · exact ⟨st, rfl⟩
    · obtain ⟨st', hrun, -⟩ := hs.free p
      exact ⟨st', hrun⟩

/-- An allocator that places a block of at most 100 bytes at `base`. -/
def fixedEnv (base : Int) : Env where
  realloc := fun _ => false
  malloc := fun n => if n ≤ 100 then some base else none
  junk := fun _ => none

theorem fixedEnv_lawful {base : Int} {st : St}
    (h : ∀ b blk, st.mem b = some blk → b + blk.size ≤ base) : (fixedEnv base).Lawful st := by
  refine ⟨fun n hn => absurd hn (by simp [fixedEnv]), ?_⟩
  intro n a hn b blk hb
  simp only [fixedEnv] at hn
  by_cases hle : n ≤ 100
  · rw [if_pos hle] at hn
    obtain rfl := Option.some.inj hn
    exact Or.inr (h b blk hb)
  · rw [if_neg hle] at hn
    exact nomatch hn

/-- The state after one `mp_alloc` with `fixedEnv base`. -/
def afterAlloc (base : Int) (st : St) : St :=
  ((mpAlloc (fixedEnv base) st).map Prod.fst).getD st

/-- Two objects to a row of 24 bytes: the third object opens a second row. -/
theorem mp_slots_second_row : ∃ st as, Reach 4 2 st as ∧ as = [1016, 1020, 2016] ∧
    max (2 : Int) 1 * (8 + 4) < intMax ∧ st.mp.x < st.mp.NX := by
  obtain ⟨st₀, hst₀⟩ : ∃ st, st = (mpCreate 4 2).get rfl := ⟨_, rfl⟩
  have hmem₁ : (afterAlloc 1000 st₀).mem = Function.update (Function.update (fun _ => none)
      1000 (some ⟨24, [none, none]⟩)) 1000 (some ⟨24, [some 1016, none]⟩) := by
    rw [hst₀]
    rfl
  have hmem₂ : (afterAlloc 2000 (afterAlloc 1000 st₀)).mem = Function.update
      (afterAlloc 1000 st₀).mem 1000 (some ⟨24, [some 1016, some 1020]⟩) := by
    rw [hst₀]
    rfl
  have hlaw₀ : (fixedEnv 1000).Lawful st₀ := by
    refine fixedEnv_lawful ?_
    intro b blk hb
    rw [hst₀] at hb
    exact nomatch hb
  have hlaw₁ : (fixedEnv 2000).Lawful (afterAlloc 1000 st₀) := by
    refine fixedEnv_lawful ?_
    intro b blk hb
    rw [hmem₁, Function.update_idem, Function.update_apply] at hb
    split_ifs at hb with h
    · rw [h, ← Option.some.inj hb]
      decide
  have hlaw₂ : (fixedEnv 2000).Lawful (afterAlloc 2000 (afterAlloc 1000 st₀)) := by
    refine fixedEnv_lawful ?_
    intro b blk hb
    rw [hmem₂, hmem₁, Function.update_idem, Function.update_idem, Function.update_apply] at hb
    split_ifs at hb with h
    · rw [h, ← Option.some.inj hb]
      decide
  have hreach : Reach 4 2 (afterAlloc 2000 (afterAlloc 2000 (afterAlloc 1000 st₀)))
      ((([] ++ [1016]) ++ [1020]) ++ [2016]) := by
    refine .alloc (.alloc (.alloc (.create ?_) hlaw₀ ?_) hlaw₁ ?_) hlaw₂ ?_
    all_goals
      rw [hst₀]
      rfl
  obtain ⟨ny, nobj, t, -, -, -, -, -, hx, -⟩ := mp_slots hreach (by decide)
  exact ⟨_, _, hreach, rfl, by decide, hx⟩

end MemPool
