import CppTest.MemPoolLifeProofs

/-! # The second memory pool (`src/mmpool/mmpool.c`)

    The same table of rows as `mem_pool`, with two differences: `mmp_create` chooses
    the geometry from the object size, and the cursor wraps BEFORE an allocation and
    one slot early, when `y` is `Y - 1`.

    * `Slots … q r` is the invariant of a pool with the cursor `(q, r)`: `q` rows of
      `Y - 1` objects and `r` objects in the cursor's row.
    * The row size is not checked by the source.  A size that wraps is never granted
      (`rowBytes_granted`), so only `Y * obj_size` has to fit into an `int`.
    * The header bytes of a row are set to `-1` and never read; a block is its size
      here. -/

namespace Mmpool

open Machine
open MemPool (Env Apart sizeofPtr ptrdiffMax Freed FreesEachRow)

/-! ## The model -/

/-- `struct mmpool`; `none` is a null pointer. -/
structure Pool where
  ptr : Option (List (Option Int))
  x : Int
  y : Int
  X : Int
  Y : Int
  obj_size : Int
  stat_memused : Int
  deriving Repr, DecidableEq

/-- The pool and the sizes of the row blocks it points to. -/
structure St where
  mp : Pool
  mem : Int → Option Int

/-- `sizeof(struct mmpool)`: one pointer, five `int`s, padding, one `size_t`. -/
def sizeofMmpool : Int := 40

/-- The factor that `mmp_create` works with. -/
def mmpFactor (factor : Int) : Int := if 1 ≤ factor ∧ factor ≤ 10 then factor else 5

/-- The columns of a row.  The quotient is one of `double`s; truncating it to `int`
    is dividing toward zero. -/
def mmpY (page_size objsize factor : Int) : Int :=
  let Y := Int.tdiv (mmpFactor factor * page_size - 2 * (objsize * 10)) (objsize * 10)
  if Y ≤ 1 then 2 else Y

/-- The rows of the first table. -/
def mmpX (objsize factor : Int) : Int :=
  mmpFactor factor * if Nat.log2 objsize.toNat < 8 then 8 else Nat.log2 objsize.toNat

/-- `mmp_create`; `calloc` says which sizes are granted, `none` is the null pointer
    returned for a bad object size or without memory. -/
def mmpCreate (calloc : Int → Bool) (page_size objsize factor : Int) : Option St :=
  if objsize ≤ 0 then none
  else if calloc sizeofMmpool then
    if calloc (mmpX objsize factor * sizeofPtr) then
      some {
        mp := {
          ptr := some (List.replicate (mmpX objsize factor).toNat none)
          x := 0
          y := 0
          X := mmpX objsize factor
          Y := mmpY page_size objsize factor
          obj_size := objsize
          stat_memused := wrap64 (sizeofMmpool + mmpX objsize factor * sizeofPtr) }
        mem := fun _ => none }
    else none
  else none

/-- The first part of `mmp_alloc`: leave a row with one slot unused. -/
def mmpAllocWrap (mp : Pool) : Pool :=
  if mp.y = wrap32 (mp.Y - 1) then { mp with x := wrap32 (mp.x + 1), y := 0 } else mp

/-- `mp->X * 2 * sizeof(void *)`. -/
def tableBytes (mp : Pool) : Int := wrap64 (wrap64 (wrap32 (mp.X * 2)) * sizeofPtr)

/-- The second part of `mmp_alloc`: double the row table when the cursor is at its
    last entry.  The flag is false when `realloc` failed; the table is lost then. -/
def mmpAllocTable (env : Env) (mp : Pool) : Option (Pool × Bool) :=
  if mp.x = wrap32 (mp.X - 1) then
    if env.realloc (tableBytes mp) then do
      let t ← memsetAt (resizeTo env.junk (mp.ptr.getD []) (tableBytes mp / sizeofPtr).toNat)
        mp.X mp.X none
      some ({ mp with
        ptr := some t
        stat_memused := wrap64 (mp.stat_memused + wrap64 (mp.X * sizeofPtr))
        X := wrap32 (mp.X * 2) }, true)
    else some ({ mp with ptr := none }, false)
  else some (mp, true)

/-- `y_hdr + mp->Y * mp->obj_size` with `int y_hdr = mp->Y`, as passed to `malloc`. -/
def rowBytes (mp : Pool) : Int := wrap64 (wrap32 (mp.Y + wrap32 (mp.Y * mp.obj_size)))

/-- The third part of `mmp_alloc`: the current row, created on first use; a null row
    when `malloc` failed. -/
def mmpAllocRow (env : Env) (st : St) : Option (St × Option Int) := do
  let t ← st.mp.ptr
  match ← getAt t st.mp.x with
  | some row => some (st, some row)
  | none =>
      match env.malloc (rowBytes st.mp) with
      | none => some (st, none)
      | some row =>
          -- memset(row, -1, y_hdr) stays inside the block
          if 0 ≤ st.mp.Y ∧ st.mp.Y ≤ rowBytes st.mp then do
            let t ← setAt t st.mp.x (some row)
            some ({
              mp := { st.mp with
                ptr := some t
                stat_memused := wrap64 (st.mp.stat_memused + rowBytes st.mp) }
              mem := Function.update st.mem row (some (rowBytes st.mp)) }, some row)
          else none

/-- `mmp_alloc`: the new state and the returned pointer. -/
def mmpAlloc (env : Env) (st : St) : Option (St × Option Int) := do
  let (mp, ok) ← mmpAllocTable env (mmpAllocWrap st.mp)
  if ok then
    let (st, row) ← mmpAllocRow env { st with mp := mp }
    match row with
    | none => some (st, none)
    | some row =>
        let ret := row + st.mp.Y + wrap32 (st.mp.obj_size * st.mp.y)
        some ({ st with mp := { st.mp with y := wrap32 (st.mp.y + 1) } }, some ret)
  else some ({ st with mp := mp }, none)

/-- The loop of `mmp_destroy`, `k` rows from row `x` on. -/
def mmpDestroyRows : Nat → Int → List (Option Int) → Option (List Freed)
  | 0, _, _ => some []
  | k + 1, x, t => do
      let p ← getAt t x
      let rest ← mmpDestroyRows k (x + 1) t
      some (.row p :: rest)

/-- `mmp_destroy`: the calls of `free`, in order. -/
def mmpDestroy (st : St) : Option (List Freed) :=
  match st.mp.ptr with
  | none => some [.pool]
  | some t => do
      let rows ← mmpDestroyRows st.mp.x.toNat 0 t
      some (rows ++ [.table, .pool])

/-! ## Runs -/

/-- The contract of the allocator in state `st`. -/
structure Lawful (env : Env) (st : St) : Prop where
  realloc_le : ∀ n, env.realloc n = true → n ≤ ptrdiffMax
  malloc_le : ∀ n a, env.malloc n = some a → n ≤ ptrdiffMax
  malloc_disjoint : ∀ n a, env.malloc n = some a →
    ∀ b size, st.mem b = some size → a + n ≤ b ∨ b + size ≤ a

/-- The cursor is at the last entry of the table, and `realloc` denies a larger one. -/
def TableFull (env : Env) (mp : Pool) : Prop :=
  mp.x = wrap32 (mp.X - 1) ∧ env.realloc (tableBytes mp) = false

/-- So it is after the cursor's wrap. -/
def TableDenied (env : Env) (mp : Pool) : Prop := TableFull env (mmpAllocWrap mp)

/-- `st` is reached from `mmp_create(objsize, factor)` by `mmp_alloc` calls.  `malloc`
    may deny, `realloc` does not; `as` are the pointers handed out, in order. -/
inductive Life (page_size objsize factor : Int) : St → List Int → Prop where
  | create {calloc : Int → Bool} {st : St} :
      mmpCreate calloc page_size objsize factor = some st → Life page_size objsize factor st []
  | alloc {st st' : St} {as : List Int} {env : Env} {r : Option Int} :
      Life page_size objsize factor st as → Lawful env st → ¬ TableDenied env st.mp →
      mmpAlloc env st = some (st', r) → Life page_size objsize factor st' (as ++ r.toList)

/-! ## The invariant -/

/-- A pool with the row blocks `rows` and a table of `nx` entries.  A row has `w + 1`
    columns; the blocks in memory are the rows, and no two overlap. -/
structure Rows (w nobj : Nat) (st : St) (rows : List Int) (nx : Nat) : Prop where
  Y_eq : st.mp.Y = (w + 1 : Nat)
  obj_eq : st.mp.obj_size = nobj
  X_eq : st.mp.X = nx
  X_le : (nx : Int) ≤ intMax
  fits : rows.length ≤ nx
  table : st.mp.ptr = some (rows.map some ++ List.replicate (nx - rows.length) none)
  blocks : ∀ row ∈ rows, st.mem row = some ((w + 1 : Nat) * (1 + (nobj : Int)))
  only : ∀ a size, st.mem a = some size → a ∈ rows
  apart : rows.Pairwise (Apart ((w + 1 : Nat) * (1 + (nobj : Int))))

/-- The slot of the `k`-th object: a row holds `w` objects behind a header of `w + 1`
    bytes. -/
def IsSlot (w nobj : Nat) (rows : List Int) (k : Nat) (a : Int) : Prop :=
  ∃ row, rows[k / w]? = some row ∧ a = row + (w + 1 : Nat) + (nobj : Int) * (k % w : Nat)

/-- The cursor stands at `(q, r)` after `n` objects in `k` rows. -/
structure Cursor (w : Nat) (mp : Pool) (n k nx q r : Nat) : Prop where
  x_eq : mp.x = q
  y_eq : mp.y = r
  count : q * w + r = n
  room : q < nx
  rows_len : k = q + if r = 0 then 0 else 1

/-- A pool that has handed out `as`. -/
structure Slots (w nobj : Nat) (st : St) (as rows : List Int) (nx q r : Nat) : Prop where
  grid : Rows w nobj st rows nx
  cursor : Cursor w st.mp as.length rows.length nx q r
  col : r ≤ w
  spare : q + 1 < nx
  addrs : ∀ k a, as[k]? = some a → IsSlot w nobj rows k a

/-- The allocator denies what this call asks for: the larger table, or the cursor's
    row. -/
def Refused (env : Env) (st : St) : Prop :=
  TableDenied env st.mp ∨ ∃ t, st.mp.ptr = some t ∧
    getAt t (mmpAllocWrap st.mp).x = some none ∧ env.malloc (rowBytes st.mp) = none

section Fixed

/-! A row has `w + 1` columns, of which `w` are used; `Y * obj_size` fits into an
    `int`. -/

variable {w nobj : Nat} (hw : 0 < w) (hnobj : 0 < nobj)
  (hbound : ((w + 1 : Nat) : Int) * nobj ≤ intMax)

/-! ## Arithmetic without wrap-around -/

/-- A row is its bytes and its objects. -/
theorem row_sum (w nobj : Nat) : (0 : Int) ≤ ((w + 1 : Nat) : Int) * nobj ∧
    ((w + 1 : Nat) : Int) * (1 + (nobj : Int))
      = (w + 1 : Nat) + ((w + 1 : Nat) : Int) * nobj := by
  constructor
  · positivity
  · ring

include hnobj hbound in
theorem columns_le : ((w + 1 : Nat) : Int) ≤ intMax := by
  have h1 : ((w + 1 : Nat) : Int) * 1 ≤ ((w + 1 : Nat) : Int) * nobj := by
    apply mul_le_mul_of_nonneg_left <;> omega
  omega

include hnobj hbound in
/-- A granted row size did not wrap: a wrapped one would have asked for almost
    `2 ^ 64` bytes. -/
theorem rowBytes_granted {mp : Pool} (hY : mp.Y = (w + 1 : Nat)) (hobj : mp.obj_size = nobj)
    (hgrant : rowBytes mp ≤ ptrdiffMax) :
    rowBytes mp = (w + 1 : Nat) * (1 + (nobj : Int)) := by
  have hcols := columns_le hnobj hbound
  obtain ⟨hpos, hsum⟩ := row_sum w nobj
  rw [rowBytes] at hgrant ⊢
  rw [hY, hobj, wrap32_eq hpos hbound, ← hsum] at hgrant ⊢
  by_cases hfit : ((w + 1 : Nat) : Int) * (1 + (nobj : Int)) ≤ intMax
  · have hmax : intMax < 2 ^ 64 := by decide
    rw [wrap32_eq (by omega) hfit, wrap64_eq (by omega) (by omega)]
  · exfalso
    have hwrap : wrap32 (((w + 1 : Nat) : Int) * (1 + (nobj : Int)))
        = ((w + 1 : Nat) : Int) * (1 + (nobj : Int)) - 2 ^ 32 := by
      rw [intMax] at hfit hcols hbound
      rw [wrap32]
      rw [Int.bmod_def]
      omega
    rw [hwrap] at hgrant
    rw [intMax] at hfit hcols hbound
    rw [wrap64, ptrdiffMax] at hgrant
    omega

/-! ## The parts of `mmp_alloc` -/

@[simp] theorem mmpAllocWrap_ptr (mp : Pool) : (mmpAllocWrap mp).ptr = mp.ptr := by
  rw [mmpAllocWrap]
  split_ifs <;> rfl

@[simp] theorem mmpAllocWrap_X (mp : Pool) : (mmpAllocWrap mp).X = mp.X := by
  rw [mmpAllocWrap]
  split_ifs <;> rfl

@[simp] theorem mmpAllocWrap_Y (mp : Pool) : (mmpAllocWrap mp).Y = mp.Y := by
  rw [mmpAllocWrap]
  split_ifs <;> rfl

@[simp] theorem mmpAllocWrap_obj_size (mp : Pool) :
    (mmpAllocWrap mp).obj_size = mp.obj_size := by
  rw [mmpAllocWrap]
  split_ifs <;> rfl

include hw hnobj hbound in
/-- The wrap keeps the number of the next slot, and leaves the cursor on a column that
    is used. -/
theorem Slots.wrap {st : St} {as rows : List Int} {nx q r : Nat}
    (h : Slots w nobj st as rows nx q r) :
    ∃ q' r', Cursor w (mmpAllocWrap st.mp) as.length rows.length nx q' r' ∧ r' < w := by
  have hcols := columns_le hnobj hbound
  have hcol := h.col
  have hspare := h.spare
  have hle := h.grid.X_le
  have hlast : wrap32 (st.mp.Y - 1) = w := by
    rw [h.grid.Y_eq, wrap32_eq (by omega) (by omega)]
    omega
  have hnext : wrap32 ((q : Int) + 1) = (q + 1 : Nat) := by
    rw [wrap32_eq (by omega) (by omega)]
    exact (Nat.cast_succ q).symm
  rw [mmpAllocWrap]
  rw [hlast, h.cursor.y_eq, h.cursor.x_eq]
  by_cases hr : r = w
  · subst hr
    rw [if_pos rfl, hnext]
    refine ⟨q + 1, 0, ⟨rfl, rfl, ?_, hspare, ?_⟩, hw⟩
    · rw [Nat.add_mul, ← h.cursor.count]
      omega
    · rw [h.cursor.rows_len, if_neg (by omega), if_pos rfl]
  · rw [if_neg (by exact_mod_cast hr)]
    exact ⟨q, r, h.cursor, by omega⟩

/-- Growing the table: afterwards the cursor is not at the last entry.  A denied
    growth loses the table. -/
theorem mmpAllocTable_spec {env : Env} {st : St} {rows : List Int} {n nx q r : Nat}
    (h : Rows w nobj st rows nx) (hlaw : Lawful env st)
    (hc : Cursor w st.mp n rows.length nx q r) :
    (¬ TableFull env st.mp ∧
      ∃ mp' nx', mmpAllocTable env st.mp = some (mp', true) ∧
        Rows w nobj { st with mp := mp' } rows nx' ∧
        Cursor w mp' n rows.length nx' q r ∧ q + 1 < nx') ∨
    (TableFull env st.mp ∧
      mmpAllocTable env st.mp = some ({ st.mp with ptr := none }, false)) := by
  have hle := h.X_le
  have hroom := hc.room
  have hfits := h.fits
  have hlast : wrap32 (st.mp.X - 1) = (nx : Int) - 1 := by
    rw [h.X_eq]
    exact wrap32_eq (by omega) (by omega)
  rw [mmpAllocTable]
  by_cases hcur : st.mp.x = wrap32 (st.mp.X - 1)
  · rw [if_pos hcur]
    by_cases hgrant : env.realloc (tableBytes st.mp) = true
    · refine Or.inl ⟨fun hd => absurd hgrant (by rw [hd.2]; decide), ?_⟩
      have hdouble : (nx : Int) * 2 ≤ intMax := by
        have hg := hlaw.realloc_le _ hgrant
        rw [tableBytes] at hg
        rw [h.X_eq] at hg
        exact MemPool.double_le_of_granted hle hg
      have hset := MemPool.double_table env.junk rows hfits hdouble
      rw [← h.X_eq] at hset
      have htab : st.mp.ptr.getD [] = rows.map some ++ List.replicate (nx - rows.length) none := by
        rw [h.table]
        rfl
      have hX : wrap32 (st.mp.X * 2) = (2 * nx : Nat) := by
        rw [h.X_eq, wrap32_eq (by omega) hdouble]
        push_cast
        ring
      rw [tableBytes] at hgrant ⊢
      simp only [hgrant, if_true, htab, hset, Option.bind_eq_bind, Option.bind_some]
      refine ⟨_, 2 * nx, rfl, ?_, ?_, by omega⟩
      · exact ⟨h.Y_eq, h.obj_eq, hX, by push_cast; linarith, by omega, rfl, h.blocks, h.only,
          h.apart⟩
      · exact ⟨hc.x_eq, hc.y_eq, hc.count, by omega, hc.rows_len⟩
    · refine Or.inr ⟨⟨hcur, by simpa using hgrant⟩, ?_⟩
      simp only [hgrant]
      rfl
  · refine Or.inl ⟨fun hd => hcur hd.1, ?_⟩
    rw [if_neg hcur]
    refine ⟨st.mp, nx, rfl, h, hc, ?_⟩
    rw [hlast, hc.x_eq] at hcur
    omega

/-- A fresh block at the end of the table is one more row. -/
theorem Rows.addRow {st : St} {rows : List Int} {nx : Nat} (h : Rows w nobj st rows nx)
    (hfits : rows.length < nx) {row used : Int}
    (hfresh : ∀ r ∈ rows, Apart ((w + 1 : Nat) * (1 + (nobj : Int))) r row) :
    Rows w nobj {
      mp := { st.mp with
        ptr := some ((rows ++ [row]).map some
          ++ List.replicate (nx - (rows ++ [row]).length) none)
        stat_memused := used }
      mem := Function.update st.mem row (some ((w + 1 : Nat) * (1 + (nobj : Int)))) }
      (rows ++ [row]) nx := by
  refine ⟨h.Y_eq, h.obj_eq, h.X_eq, h.X_le, by simp; omega, rfl, ?_, ?_, ?_⟩
  · intro r hr
    show Function.update st.mem row _ r = _
    rw [Function.update_apply]
    split_ifs with heq
    · rfl
    · rcases List.mem_append.mp hr with hr | hr
      · exact h.blocks r hr
      · exact absurd (List.mem_singleton.mp hr) heq
  · intro a size ha
    replace ha : Function.update st.mem row _ a = some size := ha
    rw [Function.update_apply] at ha
    rw [List.mem_append, List.mem_singleton]
    split_ifs at ha with heq
    · exact Or.inr heq
    · exact Or.inl (h.only a size ha)
  · rw [List.pairwise_append]
    refine ⟨h.apart, List.pairwise_singleton _ _, ?_⟩
    intro a ha b hb
    rw [List.mem_singleton.mp hb]
    exact hfresh a ha

include hnobj hbound in
/-- The current row: the one in the table, or a new block at its end. -/
theorem mmpAllocRow_spec {env : Env} {st : St} {rows : List Int} {nx q : Nat}
    (h : Rows w nobj st rows nx) (hlaw : Lawful env st) (hx : st.mp.x = q) (hq : q < nx)
    (hlen : rows.length = q ∨ rows.length = q + 1) :
    (∃ st' row rows', mmpAllocRow env st = some (st', some row) ∧
      Rows w nobj st' rows' nx ∧ st'.mp.x = st.mp.x ∧ st'.mp.y = st.mp.y ∧
      rows'.length = q + 1 ∧ rows'[q]? = some row ∧
      (∀ (j : Nat) (r : Int), rows[j]? = some r → rows'[j]? = some r) ∧
      (rows.length = q → env.malloc (rowBytes st.mp) ≠ none)) ∨
    (rows.length = q ∧ env.malloc (rowBytes st.mp) = none ∧
      mmpAllocRow env st = some (st, none)) := by
  rw [mmpAllocRow]
  simp only [h.table, hx, Option.bind_eq_bind, Option.bind_some, getAt_natCast]
  rcases hlen with hlen | hlen
  · -- the entry is still null
    subst hlen
    simp only [table_get_null rows (show 0 < nx - rows.length by omega), Option.bind_some]
    cases hm : env.malloc (rowBytes st.mp) with
    | none => exact Or.inr ⟨trivial, rfl, rfl⟩
    | some row =>
        left
        have hbytes := rowBytes_granted hnobj hbound h.Y_eq h.obj_eq (hlaw.malloc_le _ _ hm)
        obtain ⟨hpos, hsum⟩ := row_sum w nobj
        have hfresh : ∀ r ∈ rows, Apart ((w + 1 : Nat) * (1 + (nobj : Int))) r row := by
          intro r hr
          have := hlaw.malloc_disjoint _ _ hm r _ (h.blocks r hr)
          rw [hbytes] at this
          exact this.symm
        have hkeep : ∀ (j : Nat) (r : Int), rows[j]? = some r → (rows ++ [row])[j]? = some r :=
          fun j r hj => (List.getElem?_append_left (List.getElem?_eq_some_iff.mp hj).1).trans hj
        simp only [hbytes]
        rw [if_pos (by rw [h.Y_eq]; omega), setAt_table rows row hq]
        refine ⟨_, row, rows ++ [row], rfl, ?_, rfl, rfl, by simp, by simp, hkeep, fun _ => ?_⟩
        · rw [← hx]
          exact h.addRow hq hfresh
        · exact Option.some_ne_none row
  · -- the row exists
    left
    have hqlt : q < rows.length := by omega
    simp only [table_get rows hqlt, Option.bind_some]
    exact ⟨st, _, rows, rfl, h, hx, rfl, hlen, by simp [hqlt], fun _ _ hj => hj,
      fun heq => absurd hlen (by omega)⟩

/-! ## One call -/

include hw in
/-- The slot under a cursor on a used column. -/
theorem Cursor.slot {mp : Pool} {n k nx q r : Nat} (hc : Cursor w mp n k nx q r) (hr : r < w) :
    n / w = q ∧ n % w = r := by
  have hcount := hc.count
  refine (Nat.div_mod_unique hw).mpr ⟨?_, hr⟩
  rw [Nat.mul_comm w q]
  omega

include hw in
/-- The cursor has moved on by one slot, and its row exists. -/
theorem Slots.advance {st st' : St} {as rows rows' : List Int} {nx nx' q r q' r' : Nat} {row : Int}
    (h : Slots w nobj st as rows nx q' r') {mp : Pool}
    (hc : Cursor w mp as.length rows.length nx' q r) (hr : r < w)
    (hgrid : Rows w nobj st' rows' nx') (hspare : q + 1 < nx')
    (hx : st'.mp.x = q) (hy : st'.mp.y = (r + 1 : Nat)) (hlen : rows'.length = q + 1)
    (hget : rows'[q]? = some row)
    (hkeep : ∀ (j : Nat) (a : Int), rows[j]? = some a → rows'[j]? = some a) :
    Slots w nobj st' (as ++ [row + (w + 1 : Nat) + (nobj : Int) * r]) rows' nx' q (r + 1) := by
  obtain ⟨hq, hcol⟩ := hc.slot hw hr
  have hcount := hc.count
  refine ⟨hgrid, ⟨hx, hy, ?_, by omega, ?_⟩, hr, hspare, ?_⟩
  · rw [List.length_append, List.length_singleton]
    omega
  · rw [if_neg (Nat.succ_ne_zero r)]
    exact hlen
  · intro k a hk
    rcases getElem?_snoc hk with hk | ⟨rfl, rfl⟩
    · obtain ⟨r, hr, ha⟩ := h.addrs k a hk
      exact ⟨r, hkeep _ _ hr, ha⟩
    · exact ⟨row, hq ▸ hget, by rw [hcol]⟩

/-- The wrap moves the cursor only. -/
theorem Rows.wrap {st : St} {rows : List Int} {nx : Nat} (h : Rows w nobj st rows nx) :
    Rows w nobj { st with mp := mmpAllocWrap st.mp } rows nx := by
  refine ⟨?_, ?_, ?_, h.X_le, h.fits, ?_, h.blocks, h.only, h.apart⟩
  · exact (mmpAllocWrap_Y _).trans h.Y_eq
  · exact (mmpAllocWrap_obj_size _).trans h.obj_eq
  · exact (mmpAllocWrap_X _).trans h.X_eq
  · exact (mmpAllocWrap_ptr _).trans h.table

/-- The contract speaks of the blocks only. -/
theorem Lawful.withPool {env : Env} {st : St} (h : Lawful env st) (mp : Pool) :
    Lawful env { st with mp := mp } :=
  ⟨h.realloc_le, h.malloc_le, h.malloc_disjoint⟩

/-- Two pools of one geometry ask for rows of one size. -/
theorem Rows.rowBytes_eq {st st' : St} {rows rows' : List Int} {nx nx' : Nat}
    (h : Rows w nobj st rows nx) (h' : Rows w nobj st' rows' nx') :
    rowBytes st'.mp = rowBytes st.mp := by
  unfold rowBytes
  rw [h'.Y_eq, h'.obj_eq, h.Y_eq, h.obj_eq]

include hnobj hbound in
/-- On a used column neither the offset of the slot nor the next column wraps. -/
theorem Rows.column {st : St} {rows : List Int} {nx r : Nat} (h : Rows w nobj st rows nx)
    (hr : r < w) (hy : st.mp.y = r) :
    wrap32 (st.mp.obj_size * st.mp.y) = (nobj : Int) * r ∧
    wrap32 (st.mp.y + 1) = (r + 1 : Nat) := by
  have hcols := columns_le hnobj hbound
  have h1 : (nobj : Int) * r ≤ (nobj : Int) * (w + 1 : Nat) := by
    apply mul_le_mul_of_nonneg_left <;> omega
  have h2 : (nobj : Int) * (w + 1 : Nat) = (w + 1 : Nat) * (nobj : Int) := mul_comm _ _
  rw [h.obj_eq, hy]
  constructor
  · exact wrap32_eq (by positivity) (by omega)
  · rw [wrap32_eq (by omega) (by omega)]
    exact (Nat.cast_succ r).symm

/-- Under the cursor of a pool that was granted its table: nothing is refused when the
    row exists, or when `malloc` grants it. -/
theorem Rows.not_refused {env : Env} {st : St} {rows : List Int} {nx q : Nat}
    (h : Rows w nobj st rows nx) (hx : (mmpAllocWrap st.mp).x = q)
    (hlen : rows.length = q ∨ rows.length = q + 1) (hgranted : ¬ TableDenied env st.mp)
    (hmalloc : rows.length = q → env.malloc (rowBytes st.mp) ≠ none) : ¬ Refused env st := by
  rintro (hd | ⟨t, ht, hnull, hm⟩)
  · exact hgranted hd
  · rcases hlen with hlen | hlen
    · exact hmalloc hlen hm
    · obtain rfl := Option.some.inj (h.table.symm.trans ht)
      rw [hx, getAt_natCast, table_get rows (by omega)] at hnull
      exact nomatch hnull

include hw hnobj hbound in
/-- One `mmp_alloc`: it hands out the slot of its number; or `malloc` denied the row,
    and only the cursor's wrap and the length of the table may have changed; or
    `realloc` denied the table, and the table is lost.  It never faults. -/
theorem Slots.alloc {env : Env} {st : St} {as rows : List Int} {nx q r : Nat}
    (h : Slots w nobj st as rows nx q r) (hlaw : Lawful env st) :
    (¬ Refused env st ∧ ∃ st' a rows' nx' q' r', mmpAlloc env st = some (st', some a) ∧
      Slots w nobj st' (as ++ [a]) rows' nx' q' r') ∨
    (¬ TableDenied env st.mp ∧ env.malloc (rowBytes st.mp) = none ∧
      ∃ st' nx' q' r', mmpAlloc env st = some (st', none) ∧
        Slots w nobj st' as rows nx' q' r') ∨
    (TableDenied env st.mp ∧
      mmpAlloc env st = some ({ st with mp := { mmpAllocWrap st.mp with ptr := none } }, none)) := by
  obtain ⟨q', r', hc, hr⟩ := h.wrap hw hnobj hbound
  rcases mmpAllocTable_spec h.grid.wrap (hlaw.withPool _) hc with
    ⟨hgranted, mp', nx', htab, hgrid₂, hc₂, hspare⟩ | ⟨hdenied, htab⟩
  · have hbytes := h.grid.rowBytes_eq hgrid₂
    have hlen : rows.length = q' ∨ rows.length = q' + 1 := by
      have := hc₂.rows_len
      split_ifs at this <;> omega
    rcases mmpAllocRow_spec hnobj hbound hgrid₂ (hlaw.withPool _) hc₂.x_eq hc₂.room hlen with
      ⟨st₃, row, rows', hrow, hgrid₃, hx₃, hy₃, hlen₃, hget₃, hkeep, hmalloc⟩ | ⟨-, hnull, hrow⟩
    · -- the row is there: its next slot is handed out
      left
      obtain ⟨hoff, hnext⟩ := hgrid₃.column hnobj hbound hr (hy₃.trans hc₂.y_eq)
      have hgrant : rows.length = q' → env.malloc (rowBytes st.mp) ≠ none := by
        intro hq
        rw [← hbytes]
        exact hmalloc hq
      refine ⟨h.grid.not_refused hc.x_eq hlen hgranted hgrant,
        { st₃ with mp := { st₃.mp with y := ((r' + 1 : Nat) : Int) } },
        row + (w + 1 : Nat) + (nobj : Int) * r', rows', nx', q', r' + 1, ?_, ?_⟩
      · rw [mmpAlloc]
        simp only [htab, hrow, hoff, hnext, hgrid₃.Y_eq, Option.bind_eq_bind, Option.bind_some,
          if_true]
      · refine h.advance hw hc₂ hr ?_ hspare (hx₃.trans hc₂.x_eq) rfl hlen₃ hget₃ hkeep
        exact ⟨hgrid₃.Y_eq, hgrid₃.obj_eq, hgrid₃.X_eq, hgrid₃.X_le, hgrid₃.fits, hgrid₃.table,
          hgrid₃.blocks, hgrid₃.only, hgrid₃.apart⟩
    · -- the row was denied: the pool keeps what it handed out
      refine Or.inr (Or.inl ⟨hgranted, (congrArg env.malloc hbytes).symm.trans hnull,
        { st with mp := mp' }, nx', q', r', ?_, hgrid₂, hc₂, le_of_lt hr, hspare, h.addrs⟩)
      rw [mmpAlloc]
      simp only [htab, hrow, Option.bind_eq_bind, Option.bind_some, if_true]
  · refine Or.inr (Or.inr ⟨hdenied, ?_⟩)
    rw [mmpAlloc]
    simp only [htab, Option.bind_eq_bind, Option.bind_some]
    rfl

/-! ## Denied allocations -/

/-- The allocator grants whatever one call may ask for. -/
def Available (env : Env) (mp : Pool) : Prop :=
  env.realloc (tableBytes mp) = true ∧ env.malloc (rowBytes mp) ≠ none

theorem Available.not_refused {env : Env} {st : St} (h : Available env st.mp) :
    ¬ Refused env st := by
  rintro (⟨-, hd⟩ | ⟨t, -, -, hm⟩)
  · have hbytes : tableBytes (mmpAllocWrap st.mp) = tableBytes st.mp := by
      unfold tableBytes
      rw [mmpAllocWrap_X]
    rw [hbytes, h.1] at hd
    exact nomatch hd
  · exact h.2 hm

/-- What a denied call may leave: the rows are in the table at their old indices, and
    the next call with memory returns a slot of a row, apart from every object in
    `as`. -/
structure Atomic (st st' : St) (as : List Int) : Prop where
  kept : ∀ (t : List (Option Int)) (i : Nat) (row : Int), st.mp.ptr = some t →
    t[i]? = some (some row) →
    ∃ t', st'.mp.ptr = some t' ∧ t'[i]? = some (some row)
  next : ∀ env : Env, Lawful env st' → Available env st'.mp →
    ∃ st'' a t row size, mmpAlloc env st' = some (st'', some a) ∧ st''.mp.ptr = some t ∧
      some row ∈ t ∧ st''.mem row = some size ∧ row + st.mp.Y ≤ a ∧
      a + st.mp.obj_size ≤ row + size ∧
      ∀ o ∈ as, a + st.mp.obj_size ≤ o ∨ o + st.mp.obj_size ≤ a

include hw in
/-- A slot lies behind the header and inside the block. -/
theorem slot_inside (nobj : Nat) (k : Nat) (row : Int) :
    row + (w + 1 : Nat) ≤ row + (w + 1 : Nat) + (nobj : Int) * (k % w : Nat) ∧
    row + (w + 1 : Nat) + (nobj : Int) * (k % w : Nat) + nobj
      ≤ row + (w + 1 : Nat) * (1 + (nobj : Int)) := by
  have hcol : k % w < w + 1 := Nat.lt_succ_of_lt (Nat.mod_lt k hw)
  have h0 : (0 : Int) ≤ (nobj : Int) * (k % w : Nat) := by positivity
  have h1 := MemPool.slot_apart_row nobj hcol (row + (w + 1 : Nat))
  have h2 : row + (w + 1 : Nat) * (1 + (nobj : Int))
      = row + (w + 1 : Nat) + (nobj : Int) * (w + 1 : Nat) := by ring
  omega

include hw in
/-- Different slots do not overlap. -/
theorem Slots.disjoint {st : St} {as rows : List Int} {nx q r : Nat}
    (h : Slots w nobj st as rows nx q r) {i j : Nat} {a b : Int} (hij : i < j)
    (hi : as[i]? = some a) (hj : as[j]? = some b) : a + nobj ≤ b ∨ b + nobj ≤ a := by
  obtain ⟨ra, hra, rfl⟩ := h.addrs i a hi
  obtain ⟨rb, hrb, rfl⟩ := h.addrs j b hj
  have hsize : ((w + 1 : Nat) : Int) + (nobj : Int) * w ≤ (w + 1 : Nat) * (1 + (nobj : Int)) := by
    push_cast
    nlinarith [Int.natCast_nonneg nobj]
  exact MemPool.grid_disjoint h.grid.apart hw (by positivity) hsize hij hra hrb

include hw hnobj hbound in
/-- The next call with memory, from any pool with its slots in place. -/
theorem Slots.next {st : St} {as rows : List Int} {nx q r : Nat}
    (h : Slots w nobj st as rows nx q r) {env : Env} (hlaw : Lawful env st)
    (hav : Available env st.mp) :
    ∃ st'' a t row size, mmpAlloc env st = some (st'', some a) ∧ st''.mp.ptr = some t ∧
      some row ∈ t ∧ st''.mem row = some size ∧ row + (w + 1 : Nat) ≤ a ∧
      a + nobj ≤ row + size ∧ ∀ o ∈ as, a + nobj ≤ o ∨ o + nobj ≤ a := by
  rcases h.alloc hw hnobj hbound hlaw with
    ⟨-, st'', a, rows', nx', q', r', hrun, hs'⟩ | ⟨-, hnull, -⟩ | ⟨hd, -⟩
  · have hlast : (as ++ [a])[as.length]? = some a := List.getElem?_concat_length
    obtain ⟨row, hrow, ha⟩ := hs'.addrs as.length a hlast
    have hmem := List.mem_of_getElem? hrow
    have hin := slot_inside hw nobj as.length row
    refine ⟨st'', a, _, row, _, hrun, hs'.grid.table, ?_, hs'.grid.blocks row hmem, ?_, ?_, ?_⟩
    · exact List.mem_append.mpr (Or.inl (List.mem_map_of_mem hmem))
    · rw [ha]
      exact hin.1
    · rw [ha]
      exact hin.2
    · intro o ho
      obtain ⟨i, hi⟩ := List.mem_iff_getElem?.mp ho
      have hlt := (List.getElem?_eq_some_iff.mp hi).1
      have hi' : (as ++ [a])[i]? = some o := (List.getElem?_append_left hlt).trans hi
      exact (hs'.disjoint hw hlt hi' hlast).symm
  · exact absurd hnull hav.2
  · exact absurd (Or.inl hd) hav.not_refused

include hw hnobj hbound in
/-- A refused `mmp_alloc` returns null, and is atomic exactly when it was not the
    table that was denied. -/
theorem Slots.denial {st : St} {as rows : List Int} {nx q r : Nat}
    (h : Slots w nobj st as rows nx q r) {env : Env} (hlaw : Lawful env st)
    (href : Refused env st) :
    ∃ st', mmpAlloc env st = some (st', none) ∧
      (Atomic st st' as ↔ ¬ TableDenied env st.mp) := by
  rcases h.alloc hw hnobj hbound hlaw with
    ⟨hgrant, -⟩ | ⟨hgrant, -, st', nx', q', r', hrun, hs'⟩ | ⟨hd, hrun⟩
  · exact absurd href hgrant
  · refine ⟨st', hrun, ⟨fun _ => hgrant, fun _ => ⟨?_, ?_⟩⟩⟩
    · intro t i row ht hrow
      obtain rfl := Option.some.inj (h.grid.table.symm.trans ht)
      exact ⟨_, hs'.grid.table, table_kept rows hrow⟩
    · intro env' hlaw' hav'
      rw [h.grid.Y_eq, h.grid.obj_eq]
      exact hs'.next hw hnobj hbound hlaw' hav'
  · -- the first row is lost with the table
    refine ⟨_, hrun, ⟨fun hat => ?_, fun hn => absurd hd hn⟩⟩
    obtain ⟨q', r', hc, -⟩ := h.wrap hw hnobj hbound
    have hle := h.grid.X_le
    have hspare := h.spare
    have hfirst : 0 < rows.length := by
      have hlast := hd.1
      rw [hc.x_eq, mmpAllocWrap_X, h.grid.X_eq, wrap32_eq (by omega) (by omega)] at hlast
      have := hc.rows_len
      omega
    obtain ⟨t', ht', -⟩ := hat.kept _ 0 _ h.grid.table (table_get rows hfirst)
    exact nomatch ht'

/-! ## `mmp_destroy` -/

theorem mmpDestroyRows_spec (rows : List Int) (n : Nat) : ∀ k i : Nat, i + k ≤ rows.length →
    mmpDestroyRows k (i : Int) (rows.map some ++ List.replicate n none)
      = some (((rows.drop i).take k).map fun r => Freed.row (some r)) := by
  intro k
  induction k with
  | zero => exact fun i _ => rfl
  | succ k ih =>
      intro i hi
      have hilt : i < rows.length := by omega
      have hrest := ih (i + 1) (by omega)
      push_cast at hrest
      simp only [mmpDestroyRows, getAt_natCast, table_get rows hilt, Option.bind_eq_bind,
        Option.bind_some, hrest]
      rw [List.drop_eq_getElem_cons hilt, List.take_succ_cons, List.map_cons]
      rfl

/-- `mmp_destroy` frees each row once exactly when there is no object in the cursor's
    row: otherwise that row is left. -/
theorem Slots.destroy {st : St} {as rows : List Int} {nx q r : Nat}
    (h : Slots w nobj st as rows nx q r) :
    FreesEachRow st.mem (mmpDestroy st) ↔ st.mp.y = 0 := by
  have hrows := h.cursor.rows_len
  have hrun : mmpDestroy st = some ((rows.take q).map (fun r => Freed.row (some r))
      ++ [.table, .pool]) := by
    have hx : st.mp.x.toNat = q := by
      rw [h.cursor.x_eq]
      exact Int.toNat_natCast _
    have hspec := mmpDestroyRows_spec rows (nx - rows.length) q 0 (by omega)
    rw [List.drop_zero, Nat.cast_zero] at hspec
    simp only [mmpDestroy, h.grid.table, hx, hspec, Option.bind_eq_bind, Option.bind_some]
  have hmem : ∀ a, (st.mem a).isSome ↔ a ∈ rows := by
    intro a
    constructor
    · intro ha
      obtain ⟨size, hsize⟩ := Option.isSome_iff_exists.mp ha
      exact h.grid.only a size hsize
    · intro ha
      rw [h.grid.blocks a ha]
      rfl
  have hnd : rows.Nodup := h.grid.apart.imp fun hab => hab.ne (by positivity)
  rw [hrun, MemPool.freesEachRow_iff hnd hmem (by omega), h.cursor.y_eq, hrows]
  by_cases h0 : r = 0
  · simp [h0]
  · simp [h0]

end Fixed

/-! ## The pool over every run -/

/-- The geometry of a pool whose `Y * obj_size` fits into an `int`. -/
theorem geometry {page_size objsize factor : Int} (hobj : 0 < objsize)
    (hbound : mmpY page_size objsize factor * objsize ≤ intMax) :
    2 ≤ mmpY page_size objsize factor ∧ 8 ≤ mmpX objsize factor ∧
      mmpX objsize factor ≤ intMax := by
  have hY : 2 ≤ mmpY page_size objsize factor := by
    unfold mmpY
    dsimp only
    split_ifs <;> omega
  have hsize : 2 * objsize ≤ intMax := by
    have h1 : 2 * objsize ≤ mmpY page_size objsize factor * objsize := by
      apply mul_le_mul_of_nonneg_right hY
      omega
    omega
  have hlog : Nat.log2 objsize.toNat < 31 := by
    rw [intMax] at hsize
    exact (Nat.log2_lt (by omega)).mpr (by omega)
  have hfactor : 1 ≤ mmpFactor factor ∧ mmpFactor factor ≤ 10 := by
    rw [mmpFactor]
    split_ifs with h
    · exact h
    · decide
  obtain ⟨c, hc, hlo, hhi⟩ : ∃ c : Int, mmpX objsize factor = mmpFactor factor * c ∧
      8 ≤ c ∧ c ≤ 30 := by
    refine ⟨_, rfl, ?_, ?_⟩
    · split_ifs <;> omega
    · split_ifs <;> omega
  refine ⟨hY, ?_, ?_⟩
  · rw [hc]
    nlinarith
  · rw [hc]
    rw [intMax]
    nlinarith

/-- Every pool in its life has its slots in place. -/
theorem life_slots {page_size objsize factor : Int} {st : St} {as : List Int}
    (h : Life page_size objsize factor st as)
    (hbound : mmpY page_size objsize factor * objsize ≤ intMax) :
    ∃ w nobj : Nat, 0 < w ∧ 0 < nobj ∧ ((w + 1 : Nat) : Int) = mmpY page_size objsize factor ∧
      (nobj : Int) = objsize ∧ ((w + 1 : Nat) : Int) * nobj ≤ intMax ∧
      ∃ rows nx q r, Slots w nobj st as rows nx q r := by
  induction h with
  | @create calloc st hc =>
      rw [mmpCreate] at hc
      split_ifs at hc with hobj h1 h2
      obtain rfl := Option.some.inj hc
      obtain ⟨hY, hX, hXle⟩ := geometry (by omega) hbound
      obtain ⟨w, hw⟩ := Int.eq_ofNat_of_zero_le (show 0 ≤ mmpY page_size objsize factor - 1 by omega)
      obtain ⟨nobj, hnobj⟩ := Int.eq_ofNat_of_zero_le (show 0 ≤ objsize by omega)
      obtain ⟨nx, hnx⟩ := Int.eq_ofNat_of_zero_le (show 0 ≤ mmpX objsize factor by omega)
      have hcols : ((w + 1 : Nat) : Int) = mmpY page_size objsize factor := by omega
      refine ⟨w, nobj, by omega, by omega, hcols, hnobj.symm, ?_, [], nx, 0, 0, ?_⟩
      · rw [hcols, ← hnobj]
        exact hbound
      · refine ⟨⟨hcols.symm, hnobj, hnx, by omega, Nat.zero_le _, ?_, ?_, ?_, List.Pairwise.nil⟩,
          ⟨rfl, rfl, by simp, by omega, rfl⟩, Nat.zero_le _, by omega, ?_⟩
        · show some (List.replicate (mmpX objsize factor).toNat none) = _
          rw [hnx]
          rfl
        · exact fun row hrow => nomatch hrow
        · exact fun a size ha => nomatch ha
        · exact fun k a hk => nomatch hk
  | @alloc st st' as env r _ hlaw hgrant hrun ih =>
      obtain ⟨w, nobj, hw, hnobj, h1, h2, hb, rows, nx, q, c, hs⟩ := ih
      refine ⟨w, nobj, hw, hnobj, h1, h2, hb, ?_⟩
      rcases hs.alloc hw hnobj hb hlaw with
        ⟨-, st₁, a, rows', nx', q', r', hrun', hs'⟩ | ⟨-, -, st₁, nx', q', r', hrun', hs'⟩ | ⟨hd, -⟩
      · rw [hrun'] at hrun
        obtain ⟨rfl, rfl⟩ := Prod.mk.inj (Option.some.inj hrun)
        exact ⟨rows', nx', q', r', hs'⟩
      · rw [hrun'] at hrun
        obtain ⟨rfl, rfl⟩ := Prod.mk.inj (Option.some.inj hrun)
        rw [Option.toList_none, List.append_nil]
        exact ⟨rows, nx', q', r', hs'⟩
      · exact absurd hd hgrant

/-- An allocator that places every block it can at 1000. -/
def someEnv : Env where
  realloc := fun _ => false
  malloc := fun n => if n ≤ ptrdiffMax then some 1000 else none
  junk := fun _ => none

/-- An allocator without memory. -/
def noEnv : Env where
  realloc := fun _ => false
  malloc := fun _ => none
  junk := fun _ => none

theorem noEnv_lawful (st : St) : Lawful noEnv st :=
  ⟨fun _ h => (nomatch h), fun _ _ h => (nomatch h), fun _ _ h => nomatch h⟩

theorem noEnv_lawful_memPool (st : MemPool.St) : noEnv.Lawful st :=
  ⟨fun _ h => (nomatch h), fun _ _ h => nomatch h⟩

/-- The life of a pool of 4000-byte objects, one to a row, after one `mmp_alloc`. -/
theorem life_first {st : St} {a : Int}
    (hrun : (mmpCreate (fun _ => true) 4096 4000 5).bind (mmpAlloc someEnv) = some (st, some a)) :
    Life 4096 4000 5 st [a] := by
  obtain ⟨st₀, hcreate, hrun⟩ := Option.bind_eq_some_iff.mp hrun
  have hst₀ : (∀ b, st₀.mem b = none) ∧ ¬ TableDenied someEnv st₀.mp := by
    obtain rfl := Option.some.inj hcreate
    exact ⟨fun _ => rfl, fun hd => absurd hd.1 (by decide)⟩
  have hlaw : Lawful someEnv st₀ := by
    refine ⟨fun _ h => (nomatch h), ?_, ?_⟩
    · intro n b hb
      by_contra hn
      exact absurd ((if_neg hn).symm.trans hb) (by simp)
    · intro n b hb c size hsize
      rw [hst₀.1] at hsize
      exact nomatch hsize
  exact Life.alloc (.create hcreate) hlaw hst₀.2 hrun

/-! ## Both pools

    A run of the first pool beside a run of the second. -/

section Both
variable {objsize y : Int} {st : MemPool.St} {as freed missed : List Int}
  {page_size objsize' factor : Int} {st' : St} {as' : List Int}

/-- **WHAT DESTROY LEAVES.**  In every run of either pool, the destroy call frees each
    row block exactly once if and ONLY if the cursor stands at the start of a row: the
    loops of both end before the cursor's row. -/
theorem destroy_frees_each_row (h : MemPool.Life objsize y st as freed missed)
    (hbound : max y 1 * (8 + objsize) < intMax) (h' : Life page_size objsize' factor st' as')
    (hbound' : mmpY page_size objsize' factor * objsize' ≤ intMax) :
    (FreesEachRow st.mem (MemPool.mpDestroy st) ↔ st.mp.y = 0) ∧
    (FreesEachRow st'.mem (mmpDestroy st') ↔ st'.mp.y = 0) := by
  constructor
  · obtain ⟨ny, nobj, hny, -, -, -, -, rows, nx, live, hl, -⟩ := MemPool.life_ledger h hbound
    exact hl.destroy hny
  · obtain ⟨w, nobj, -, -, -, -, -, rows, nx, q, r, hs⟩ := life_slots h' hbound'
    exact hs.destroy

/-- One object, alone in its row: `mp_destroy` frees the row at once, `mmp_destroy` once
    a further call has moved the cursor and was denied. -/
theorem destroy_frees_each_row_one : ∃ st st',
    MemPool.Life 4 1 st [1008] [] [] ∧ st.mem 1000 ≠ none ∧
    FreesEachRow st.mem (MemPool.mpDestroy st) ∧
    Life 4096 4000 5 st' [1002] ∧ st'.mem 1000 ≠ none ∧
    FreesEachRow st'.mem (mmpDestroy st') := by
  obtain ⟨st, hst⟩ : ∃ st, (MemPool.mpCreate 4 1).bind (MemPool.mpAlloc (MemPool.fixedEnv 1000))
      = some (st, some 1008) := ⟨_, rfl⟩
  have hlife := MemPool.life_first hst
  obtain ⟨rfl, -⟩ := Prod.mk.inj (Option.some.inj hst)
  obtain ⟨st₁, hst₁⟩ : ∃ st, (mmpCreate (fun _ => true) 4096 4000 5).bind (mmpAlloc someEnv)
      = some (st, some 1002) := ⟨_, rfl⟩
  obtain ⟨st', hst', hfull⟩ : ∃ st', mmpAlloc noEnv st₁ = some (st', none) ∧
      ¬ TableDenied noEnv st₁.mp := by
    obtain ⟨rfl, -⟩ := Prod.mk.inj (Option.some.inj hst₁)
    exact ⟨_, rfl, fun hd => absurd hd.1 (by decide)⟩
  have hlife' := Life.alloc (life_first hst₁) (noEnv_lawful st₁) hfull hst'
  obtain ⟨rfl, -⟩ := Prod.mk.inj (Option.some.inj hst₁)
  obtain ⟨rfl, -⟩ := Prod.mk.inj (Option.some.inj hst')
  obtain ⟨hfirst, hsecond⟩ := destroy_frees_each_row hlife (by decide) hlife' (by decide)
  exact ⟨_, _, hlife, Option.some_ne_none _, hfirst.mpr rfl, hlife', Option.some_ne_none _,
    hsecond.mpr rfl⟩

/-- One object in a row that stays the cursor's: neither destroy call frees it. -/
theorem destroy_leaves_row :
    (∃ st, MemPool.Life 4 2 st [1016] [] [] ∧
      ¬ FreesEachRow st.mem (MemPool.mpDestroy st)) ∧
    (∃ st, Life 4096 4000 5 st [1002] ∧ ¬ FreesEachRow st.mem (mmpDestroy st)) := by
  constructor
  · obtain ⟨st, hst⟩ : ∃ st, (MemPool.mpCreate 4 2).bind (MemPool.mpAlloc (MemPool.fixedEnv 1000))
        = some (st, some 1016) := ⟨_, rfl⟩
    have hlife := MemPool.life_first hst
    obtain ⟨rfl, -⟩ := Prod.mk.inj (Option.some.inj hst)
    refine ⟨_, hlife, ?_⟩
    rintro ⟨l, hl, hall⟩
    obtain rfl := Option.some.inj hl
    exact absurd (hall 1000 rfl) (by decide)
  · obtain ⟨st, hst⟩ : ∃ st, (mmpCreate (fun _ => true) 4096 4000 5).bind (mmpAlloc someEnv)
        = some (st, some 1002) := ⟨_, rfl⟩
    have hlife := life_first hst
    obtain ⟨rfl, -⟩ := Prod.mk.inj (Option.some.inj hst)
    refine ⟨_, hlife, ?_⟩
    rintro ⟨l, hl, hall⟩
    obtain rfl := Option.some.inj hl
    exact absurd (hall 1000 rfl) (by decide)

/-- **DENIED ALLOCATIONS.**  In every run of either pool, a call that `malloc` or
    `realloc` refuses returns null, and is atomic if and ONLY if it was not `realloc`
    of the row table that refused. -/
theorem denied_alloc_atomic (h : MemPool.Life objsize y st as freed missed)
    (hbound : max y 1 * (8 + objsize) < intMax) {env : Env} (hlaw : env.Lawful st)
    (href : MemPool.Refused env st) (h' : Life page_size objsize' factor st' as')
    (hbound' : mmpY page_size objsize' factor * objsize' ≤ intMax) {env' : Env}
    (hlaw' : Lawful env' st') (href' : Refused env' st') :
    (∃ st₁, MemPool.mpAlloc env st = some (st₁, none) ∧
      (MemPool.Atomic st st₁ as ↔ ¬ MemPool.TableDenied env st.mp)) ∧
    (∃ st₁, mmpAlloc env' st' = some (st₁, none) ∧
      (Atomic st' st₁ as' ↔ ¬ TableDenied env' st'.mp)) := by
  constructor
  · obtain ⟨ny, nobj, hny, -, -, -, hb, rows, nx, live, hl, -⟩ := MemPool.life_ledger h hbound
    exact hl.slots.denial hny hb hlaw href
  · obtain ⟨w, nobj, hw, hnobj, -, -, hb, rows, nx, q, r, hs⟩ := life_slots h' hbound'
    exact hs.denial hw hnobj hb hlaw' href'

/-- The first call on a new pool, denied its row. -/
theorem denied_alloc_atomic_first : ∃ st st₁ st' st₁',
    MemPool.Life 4 2 st [] [] [] ∧ MemPool.mpAlloc noEnv st = some (st₁, none) ∧
    MemPool.Atomic st st₁ [] ∧
    Life 4096 4000 5 st' [] ∧ mmpAlloc noEnv st' = some (st₁', none) ∧ Atomic st' st₁' [] := by
  obtain ⟨st, hst⟩ : ∃ st, MemPool.mpCreate 4 2 = some st := ⟨_, rfl⟩
  have hlife := MemPool.Life.create hst
  obtain rfl := Option.some.inj hst
  obtain ⟨st', hst'⟩ : ∃ st, mmpCreate (fun _ => true) 4096 4000 5 = some st := ⟨_, rfl⟩
  have hlife' := Life.create hst'
  obtain rfl := Option.some.inj hst'
  obtain ⟨⟨st₁, hrun, hiff⟩, st₁', hrun', hiff'⟩ := denied_alloc_atomic hlife (by decide)
    (noEnv_lawful_memPool _) (Or.inr ⟨_, rfl, rfl, rfl⟩) hlife' (by decide) (noEnv_lawful _)
    (Or.inr ⟨_, rfl, rfl, rfl⟩)
  exact ⟨_, st₁, _, st₁', hlife, hrun, hiff.mpr fun hd => absurd hd.1 (by decide), hlife', hrun',
    hiff'.mpr fun hd => absurd hd.1 (by decide)⟩

end Both

/-- Nine full rows and a `realloc` that fails: the table, and with it every row, is
    lost. -/
theorem denied_table_not_atomic : ∃ st as st',
    MemPool.Life 4 1 st as [] [] ∧ noEnv.Lawful st ∧ MemPool.Refused noEnv st ∧
      MemPool.mpAlloc noEnv st = some (st', none) ∧ ¬ MemPool.Atomic st st' as := by
  obtain ⟨st, as, hlife, hlen, hNX⟩ := MemPool.life_rows 9 (by decide)
  obtain ⟨ny, nobj, hny, -, h1, -, hb, rows, nx, live, hl, -⟩ :=
    MemPool.life_ledger hlife (by decide)
  obtain rfl : ny = 1 := by
    have : (ny : Int) = 1 := h1
    omega
  have hd : MemPool.TableDenied noEnv st.mp := by
    refine ⟨?_, rfl⟩
    rw [hl.slots.x_eq, hNX, Nat.div_one, hlen]
    rfl
  have hlaw := noEnv_lawful_memPool st
  obtain ⟨st', hrun, hiff⟩ := hl.slots.denial hny hb hlaw (Or.inl hd)
  exact ⟨st, as, st', hlife, hlaw, Or.inl hd, hrun, fun hat => hiff.mp hat hd⟩

end Mmpool
