import CppTest.MemPoolProofs

/-! # The pool's arithmetic over all sizes (`src/mem_pool/mem_pool.c`)

    `mp_create` takes any object size and any number of columns, and the products of the two
    wrap.  Then the header may reach into the objects, so here a block is no more than its
    BYTES, and `hdr[mp->y] = addr` is a write of eight of them.

    * The model: `mpAllocRaw`.  `mpAlloc_sim` says that it does what `mpAlloc` does as long as
      that does not fault, and `mpFree_sim` that `mp_free` changes nothing it looks at.
    * `Live` is kept by every call: all rows have the bytes that were asked for, and the cursor
      is in a column.
    * A row is as long as the columns of a row only if their product does not wrap; else the
      first object that ends behind its row is in column `P / objsize`, with `P` the wrapped
      product.  `pool_arith_iff` says for which sizes it can be returned. -/

namespace MemPool

open Machine

/-! ## The model -/

/-- The pool, and the sizes of the row blocks. -/
structure Raw where
  mp : Pool
  size : Int → Option Int

/-- `mp_create`. -/
def mpCreateRaw (objsize y : Int) : Option Raw :=
  (mpCreate objsize y).map fun st => ⟨st.mp, fun _ => none⟩

/-- The current row, created on first use. -/
def mpAllocRowRaw (env : Env) (st : Raw) : Option (Raw × Option Int) := do
  let t ← st.mp.ptr
  match ← getAt t st.mp.x with
  | some row => some (st, some row)
  | none =>
      match env.malloc (rowBytes st.mp) with
      | none => some (st, none)
      | some row =>
          -- memset(row, 0, HDRLEN) stays inside the block
          if 0 ≤ hdrLen st.mp ∧ hdrLen st.mp ≤ rowBytes st.mp then do
            let t ← setAt t st.mp.x (some row)
            some ({
              mp := { st.mp with
                ptr := some t
                memused := wrap64 (st.mp.memused + rowBytes st.mp) }
              size := Function.update st.size row (some (rowBytes st.mp)) }, some row)
          else none

/-- The slot under the cursor. -/
def mpAllocSlotRaw (st : Raw) (row : Int) : Option (Raw × Int) := do
  let addr := row + hdrLen st.mp + wrap32 (st.mp.NOBJ * st.mp.y)
  let size ← st.size row
  -- hdr[mp->y] = addr stays inside the block
  if 0 ≤ st.mp.y ∧ (st.mp.y + 1) * sizeofPtr ≤ size then
    if wrap32 (st.mp.y + 1) = st.mp.NY then
      some ({ st with mp := { st.mp with x := wrap32 (st.mp.x + 1), y := 0 } }, addr)
    else some ({ st with mp := { st.mp with y := wrap32 (st.mp.y + 1) } }, addr)
  else none

/-- `mp_alloc`. -/
def mpAllocRaw (env : Env) (st : Raw) : Option (Raw × Option Int) := do
  let (mp, ok) ← mpAllocTable env st.mp
  if ok then
    let (st, row) ← mpAllocRowRaw env { st with mp := mp }
    match row with
    | none => some (st, none)
    | some row =>
        let (st, addr) ← mpAllocSlotRaw st row
        some (st, some addr)
  else some ({ st with mp := mp }, none)

/-! ## The same as before, but for the headers -/

/-- A state without what its headers hold. -/
def St.raw (st : St) : Raw := ⟨st.mp, fun a => (st.mem a).map Block.size⟩

/-- Every header lies inside its block. -/
def HdrFits (st : St) : Prop := ∀ a b, st.mem a = some b → (b.hdr.length : Int) * sizeofPtr ≤ b.size

theorem raw_update (st : St) (mp : Pool) (row : Int) (b : Block) :
    St.raw ⟨mp, Function.update st.mem row (some b)⟩
      = ⟨mp, Function.update st.raw.size row (some b.size)⟩ := by
  have hsize : (fun a => (Function.update st.mem row (some b) a).map Block.size)
      = Function.update st.raw.size row (some b.size) := by
    funext a
    by_cases ha : a = row
    · subst ha
      rw [Function.update_self, Function.update_self]
      rfl
    · rw [Function.update_of_ne ha, Function.update_of_ne ha]
      rfl
  rw [St.raw, hsize]

theorem HdrFits.update {st : St} (h : HdrFits st) (mp : Pool) {row : Int} {b : Block}
    (hb : (b.hdr.length : Int) * sizeofPtr ≤ b.size) :
    HdrFits ⟨mp, Function.update st.mem row (some b)⟩ := by
  intro a c hc
  by_cases ha : a = row
  · subst ha
    change Function.update st.mem a (some b) a = some c at hc
    rw [Function.update_self] at hc
    exact Option.some.inj hc ▸ hb
  · change Function.update st.mem row (some b) a = some c at hc
    rw [Function.update_of_ne ha] at hc
    exact h a c hc

theorem mpAllocRow_sim {env : Env} {st st' : St} {row : Option Int} (h : HdrFits st)
    (hrow : mpAllocRow env st = some (st', row)) :
    mpAllocRowRaw env st.raw = some (st'.raw, row) ∧ HdrFits st' := by
  rw [mpAllocRow] at hrow
  obtain ⟨t, ht, hrow⟩ := Option.bind_eq_some_iff.mp hrow
  obtain ⟨entry, hentry, hrow⟩ := Option.bind_eq_some_iff.mp hrow
  rw [mpAllocRowRaw, show st.raw.mp = st.mp from rfl, ht]
  simp only [Option.bind_eq_bind, Option.bind_some, hentry]
  cases entry with
  | some r =>
      obtain ⟨rfl, rfl⟩ := Prod.mk.inj (Option.some.inj hrow)
      exact ⟨rfl, h⟩
  | none =>
      simp only at hrow ⊢
      cases hm : env.malloc (rowBytes st.mp) with
      | none =>
          rw [hm] at hrow
          obtain ⟨rfl, rfl⟩ := Prod.mk.inj (Option.some.inj hrow)
          exact ⟨rfl, h⟩
      | some r =>
          rw [hm] at hrow
          simp only at hrow ⊢
          split at hrow
          · next hfits =>
              obtain ⟨t', ht', hrow⟩ := Option.bind_eq_some_iff.mp hrow
              obtain ⟨rfl, rfl⟩ := Prod.mk.inj (Option.some.inj hrow)
              rw [if_pos hfits, ht', Option.bind_some, raw_update]
              refine ⟨rfl, h.update _ ?_⟩
              rw [List.length_replicate, sizeofPtr]
              show _ ≤ rowBytes st.mp
              omega
          · exact absurd hrow.symm (Option.some_ne_none _)

theorem mpAllocSlot_sim {st st' : St} {row a : Int} (h : HdrFits st)
    (hslot : mpAllocSlot st row = some (st', a)) :
    mpAllocSlotRaw st.raw row = some (st'.raw, a) ∧ HdrFits st' := by
  rw [mpAllocSlot] at hslot
  obtain ⟨b, hb, hslot⟩ := Option.bind_eq_some_iff.mp hslot
  obtain ⟨hdr, hset, hslot⟩ := Option.bind_eq_some_iff.mp hslot
  have hsize : st.raw.size row = some b.size := by
    show (st.mem row).map Block.size = some b.size
    rw [hb]
    rfl
  obtain ⟨hy, rfl⟩ := of_setAt hset
  have hfits := h row b hb
  have hin : 0 ≤ st.raw.mp.y ∧ (st.raw.mp.y + 1) * sizeofPtr ≤ b.size := by
    rw [sizeofPtr] at hfits ⊢
    rw [show st.raw.mp = st.mp from rfl]
    omega
  have hkept : ∀ v : Option Int,
      ((b.hdr.set st.mp.y.toNat v).length : Int) * sizeofPtr ≤ b.size := by
    intro v
    rw [List.length_set]
    exact hfits
  -- the block keeps its size
  have hsame : Function.update st.raw.size row (some b.size) = st.raw.size :=
    Function.update_eq_self_iff.mpr hsize.symm
  rw [mpAllocSlotRaw, hsize]
  simp only [Option.bind_eq_bind, Option.bind_some]
  rw [if_pos hin]
  simp only at hslot
  split at hslot
  · next hlast =>
      obtain ⟨rfl, rfl⟩ := Prod.mk.inj (Option.some.inj hslot)
      rw [if_pos (show wrap32 (st.raw.mp.y + 1) = st.raw.mp.NY from hlast), raw_update, hsame]
      exact ⟨rfl, h.update _ (hkept _)⟩
  · next hlast =>
      obtain ⟨rfl, rfl⟩ := Prod.mk.inj (Option.some.inj hslot)
      rw [if_neg (show ¬ wrap32 (st.raw.mp.y + 1) = st.raw.mp.NY from hlast), raw_update, hsame]
      exact ⟨rfl, h.update _ (hkept _)⟩

/-- **Where `mpAlloc` does not fault**, both models do the same. -/
theorem mpAlloc_sim {env : Env} {st st' : St} {r : Option Int} (h : HdrFits st)
    (halloc : mpAlloc env st = some (st', r)) :
    mpAllocRaw env st.raw = some (st'.raw, r) ∧ HdrFits st' := by
  rw [mpAlloc] at halloc
  obtain ⟨⟨mp, ok⟩, htable, halloc⟩ := Option.bind_eq_some_iff.mp halloc
  rw [mpAllocRaw, show st.raw.mp = st.mp from rfl, htable]
  simp only [Option.bind_eq_bind, Option.bind_some]
  cases ok with
  | false =>
      obtain ⟨rfl, rfl⟩ := Prod.mk.inj (Option.some.inj halloc)
      exact ⟨rfl, h⟩
  | true =>
      simp only [if_true] at halloc ⊢
      obtain ⟨⟨st₁, row⟩, hrow, halloc⟩ := Option.bind_eq_some_iff.mp halloc
      have hh : HdrFits { st with mp := mp } := h
      obtain ⟨hraw, h₁⟩ := mpAllocRow_sim hh hrow
      rw [show (⟨mp, st.raw.size⟩ : Raw) = St.raw { st with mp := mp } from rfl, hraw,
        Option.bind_some]
      cases row with
      | none =>
          obtain ⟨rfl, rfl⟩ := Prod.mk.inj (Option.some.inj halloc)
          exact ⟨rfl, h₁⟩
      | some row =>
          obtain ⟨⟨st₂, a⟩, hslot, halloc⟩ := Option.bind_eq_some_iff.mp halloc
          obtain ⟨rfl, rfl⟩ := Prod.mk.inj (Option.some.inj halloc)
          obtain ⟨hraw, h₂⟩ := mpAllocSlot_sim h₁ hslot
          simp only [hraw]
          exact ⟨rfl, h₂⟩

theorem mpFreeRow_length {p : Int} : ∀ {k : Nat} {i : Int} {hdr hdr' : List (Option Int)},
    mpFreeRow k i hdr p = some (some hdr') → hdr'.length = hdr.length := by
  intro k
  induction k with
  | zero =>
      intro i hdr hdr' h
      exact absurd (Option.some.inj h).symm (Option.some_ne_none _)
  | succ k ih =>
      intro i hdr hdr' h
      rw [mpFreeRow] at h
      obtain ⟨e, _, h⟩ := Option.bind_eq_some_iff.mp h
      split at h
      · obtain ⟨hdr₁, hset, h⟩ := Option.bind_eq_some_iff.mp h
        obtain rfl := Option.some.inj (Option.some.inj h)
        rw [(of_setAt hset).2, List.length_set]
      · exact ih h

theorem mpFreeRows_sim {p : Int} : ∀ {k : Nat} {x : Int} {st st' : St}, HdrFits st →
    mpFreeRows k x st p = some st' → st'.raw = st.raw ∧ HdrFits st' := by
  intro k
  induction k with
  | zero =>
      intro x st st' hfits h
      obtain rfl := Option.some.inj h
      exact ⟨rfl, hfits⟩
  | succ k ih =>
      intro x st st' hfits h
      rw [mpFreeRows] at h
      obtain ⟨t, _, h⟩ := Option.bind_eq_some_iff.mp h
      obtain ⟨entry, _, h⟩ := Option.bind_eq_some_iff.mp h
      cases entry with
      | none =>
          obtain rfl := Option.some.inj h
          exact ⟨rfl, hfits⟩
      | some row =>
          obtain ⟨b, hb, h⟩ := Option.bind_eq_some_iff.mp h
          obtain ⟨found, hfound, h⟩ := Option.bind_eq_some_iff.mp h
          cases found with
          | none => exact ih hfits h
          | some hdr =>
              obtain rfl := Option.some.inj h
              have hsize : st.raw.size row = some b.size := by
                show (st.mem row).map Block.size = some b.size
                rw [hb]
                rfl
              refine ⟨?_, hfits.update _ ?_⟩
              · rw [raw_update, Function.update_eq_self_iff.mpr hsize.symm]
                rfl
              · rw [mpFreeRow_length hfound]
                exact hfits row b hb

/-- **`mp_free`** changes headers only. -/
theorem mpFree_sim {st st' : St} {p : Option Int} (hfits : HdrFits st)
    (h : mpFree st p = some st') : st'.raw = st.raw ∧ HdrFits st' := by
  cases p with
  | none =>
      obtain rfl := Option.some.inj h
      exact ⟨rfl, hfits⟩
  | some p => exact mpFreeRows_sim hfits h

/-! ## Runs -/

/-- The contract of the allocator in state `st`. -/
structure Env.LawfulRaw (env : Env) (st : Raw) : Prop where
  realloc_le : ∀ n, env.realloc n = true → n ≤ ptrdiffMax
  malloc_le : ∀ n a, env.malloc n = some a → n ≤ ptrdiffMax
  malloc_disjoint : ∀ n a, env.malloc n = some a →
    ∀ b size, st.size b = some size → a + n ≤ b ∨ b + size ≤ a

/-- `st` is reached from `mp_create(objsize, y)` by calls of `mp_alloc` that do not fail. -/
inductive ReachRaw (objsize y : Int) : Raw → Prop where
  | create {st : Raw} : mpCreateRaw objsize y = some st → ReachRaw objsize y st
  | alloc {st st' : Raw} {env : Env} {a : Int} : ReachRaw objsize y st → env.LawfulRaw st →
      mpAllocRaw env st = some (st', some a) → ReachRaw objsize y st'

/-- All bytes of the object at `a` are in the row block where the cursor of `st` stood. -/
def InRow (st st' : Raw) (a : Int) : Prop :=
  ∃ t row size, st'.mp.ptr = some t ∧ getAt t st.mp.x = some (some row)
    ∧ st'.size row = some size ∧ row ≤ a ∧ a + st'.mp.NOBJ ≤ row + size

/-- Every object that `mp_alloc` returns, in every run, lies inside its row. -/
def PoolLaw (objsize y : Int) : Prop :=
  ∀ {st st' : Raw} {env : Env} {a : Int}, ReachRaw objsize y st → env.LawfulRaw st →
    mpAllocRaw env st = some (st', some a) → InRow st st' a

/-! ## The products -/

/-- The columns of a pool. -/
def columns (y : Int) : Int := if y < 1 then 1 else y

/-- `HDRLEN` of a pool with `n` columns. -/
def headerBytes (n : Int) : Int := wrap32 (wrap64 (n * sizeofPtr))

/-- The bytes of a row block with `n` columns of `b` bytes. -/
def blockBytes (n b : Int) : Int := wrap64 (wrap32 (headerBytes n + wrap32 (n * b)))

/-- The row block can be had, and its header can be cleared. -/
def RowExists (n b : Int) : Prop :=
  0 ≤ headerBytes n ∧ headerBytes n ≤ blockBytes n b ∧ blockBytes n b ≤ ptrdiffMax

instance (n b : Int) : Decidable (RowExists n b) := inferInstanceAs (Decidable (_ ∧ _ ∧ _))

/-- `int` arithmetic is exact up to multiples of `2 ^ 32`. -/
theorem wrap32_cases (x : Int) :
    ∃ k, wrap32 x = x - 2 ^ 32 * k ∧ -2 ^ 31 ≤ wrap32 x ∧ wrap32 x < 2 ^ 31 := by
  have hlo : -(2 ^ 32 / 2 : Int) ≤ Int.bmod x (2 ^ 32) := Int.le_bmod (by decide)
  have hhi : Int.bmod x (2 ^ 32) < (2 ^ 32 + 1) / 2 := Int.bmod_lt (by decide)
  refine ⟨(x - Int.bmod x (2 ^ 32)) / 2 ^ 32, ?_, ?_, ?_⟩
  · rw [wrap32, Int.bmod_def]
    split <;> omega
  · rw [wrap32]
    omega
  · rw [wrap32]
    omega

/-- A row that exists is its header and the wrapped product. -/
theorem RowExists.split {n b : Int} (h : RowExists n b) :
    blockBytes n b = headerBytes n + wrap32 (n * b) ∧ 0 ≤ wrap32 (n * b) := by
  obtain ⟨hhdr, hle, hmax⟩ := h
  obtain ⟨k, hk, hlo, hhi⟩ := wrap32_cases (headerBytes n + wrap32 (n * b))
  obtain ⟨_, _, hplo, hphi⟩ := wrap32_cases (n * b)
  have hheader : headerBytes n < 2 ^ 31 := (wrap32_cases _).choose_spec.2.2
  rw [blockBytes, wrap64, ptrdiffMax] at *
  generalize wrap32 (headerBytes n + wrap32 (n * b)) = s at *
  generalize wrap32 (n * b) = p at *
  generalize headerBytes n = hb at *
  omega

/-- The sizes for which no object leaves its row: the product does not wrap, or no row comes
    into being, or the header entry of the first object that would leave its row is outside
    the row itself. -/
def ArithOk (n b : Int) : Prop :=
  ¬ RowExists n b ∨ n * b ≤ intMax ∨ blockBytes n b < (wrap32 (n * b) / b + 1) * sizeofPtr

instance (n b : Int) : Decidable (ArithOk n b) := inferInstanceAs (Decidable (_ ∨ _ ∨ _))

section Columns

variable {n b c : Int} (hb : 0 < b) (hrow : RowExists n b)
include hb hrow

/-- **An object whose header entry is in the row** lies in the row, if the sizes are such. -/
theorem object_inside (hn : 0 < n) (hok : ArithOk n b) (hc : 0 ≤ c) (hcn : c < n)
    (hentry : (c + 1) * sizeofPtr ≤ blockBytes n b) :
    0 ≤ headerBytes n + wrap32 (b * c)
      ∧ headerBytes n + wrap32 (b * c) + b ≤ blockBytes n b := by
  obtain ⟨hsplit, hpos⟩ := hrow.split
  obtain ⟨_, _, _, hpmax⟩ := wrap32_cases (n * b)
  have hend : b * c + b ≤ wrap32 (n * b) := by
    rcases hok with hno | hexact | hout
    · exact absurd hrow hno
    · have hprod : wrap32 (n * b) = n * b := wrap32_eq (by positivity) hexact
      rw [hprod]
      nlinarith
    · -- the column is before the first one that leaves the row
      rw [sizeofPtr] at hentry hout
      have hlt : c + 1 ≤ wrap32 (n * b) / b := by omega
      have hle := Int.ediv_mul_le (wrap32 (n * b)) (Int.ne_of_gt hb)
      nlinarith
  have hoff : wrap32 (b * c) = b * c := wrap32_eq (by positivity) (by rw [intMax]; omega)
  rw [hoff, hsplit]
  have := hrow.1
  have : 0 ≤ b * c := by positivity
  omega

/-- **The first object that leaves the row**, where the sizes are not such. -/
theorem object_outside (hbad : ¬ ArithOk n b) (hc : c = wrap32 (n * b) / b) :
    0 ≤ c ∧ c < n ∧ (c + 1) * sizeofPtr ≤ blockBytes n b
      ∧ blockBytes n b < headerBytes n + wrap32 (b * c) + b := by
  obtain ⟨hsplit, hpos⟩ := hrow.split
  obtain ⟨k, hk, _, hpmax⟩ := wrap32_cases (n * b)
  have hwraps : ¬ n * b ≤ intMax := fun h => hbad (.inr (.inl h))
  have hentry : (c + 1) * sizeofPtr ≤ blockBytes n b := by
    rw [hc]
    exact Int.not_lt.mp fun h => hbad (.inr (.inr h))
  have hlow := Int.ediv_mul_le (wrap32 (n * b)) (Int.ne_of_gt hb)
  have hhigh := Int.lt_ediv_add_one_mul_self (wrap32 (n * b)) hb
  have hc0 : 0 ≤ c := hc ▸ Int.ediv_nonneg hpos (Int.le_of_lt hb)
  rw [← hc] at hlow hhigh
  rw [intMax] at hwraps
  have hoff : wrap32 (b * c) = b * c :=
    wrap32_eq (by positivity) (by rw [intMax]; nlinarith)
  refine ⟨hc0, ?_, hentry, ?_⟩
  · by_contra hge
    nlinarith
  · rw [hsplit, hoff]
    nlinarith

end Columns

/-! ## The invariant -/

/-- A pool in use: all its rows have the bytes that were asked for. -/
structure Live (n b : Int) (st : Raw) : Prop where
  ny : st.mp.NY = n
  nobj : st.mp.NOBJ = b
  y_nonneg : 0 ≤ st.mp.y
  y_lt : st.mp.y < n
  nx_le : st.mp.NX ≤ intMax
  table : ∃ t, st.mp.ptr = some t ∧ (t.length : Int) = st.mp.NX
    ∧ ∀ row, some row ∈ t → st.size row = some (blockBytes n b) ∧ RowExists n b

section Steps

variable {n b : Int} {st st' : Raw} {env : Env} (h : Live n b st) (henv : env.LawfulRaw st)
include h

include henv in
/-- The table part. -/
theorem Live.allocTable {mp : Pool} (htable : mpAllocTable env st.mp = some (mp, true)) :
    Live n b { st with mp := mp } ∧ mp.x = st.mp.x ∧ mp.y = st.mp.y := by
  rw [mpAllocTable] at htable
  split at htable
  · simp only at htable
    split at htable
    · next hgrant =>
        obtain ⟨t', ht', hmp⟩ := Option.bind_eq_some_iff.mp htable
        obtain ⟨rfl, -⟩ := Prod.mk.inj (Option.some.inj hmp)
        obtain ⟨t, ht, hlen, hrows⟩ := h.table
        have hle := h.nx_le
        have hbytes := henv.realloc_le _ hgrant
        rw [← hlen] at ht' hle hbytes
        have hdouble := double_le_of_granted hle hbytes
        rw [ht, Option.getD_some, double_any env.junk t rfl hdouble] at ht'
        obtain rfl := Option.some.inj ht'
        have hnx : wrap32 (st.mp.NX * 2) = st.mp.NX * 2 := by
          rw [← hlen]
          exact wrap32_eq (by omega) hdouble
        refine ⟨⟨h.ny, h.nobj, h.y_nonneg, h.y_lt, ?_, _, rfl, ?_, fun row hrow => ?_⟩, rfl, rfl⟩
        · show wrap32 (st.mp.NX * 2) ≤ intMax
          rw [hnx, ← hlen]
          exact hdouble
        · show _ = wrap32 (st.mp.NX * 2)
          rw [hnx, ← hlen, List.length_append, List.length_replicate]
          omega
        · -- the new entries are null
          rcases List.mem_append.mp hrow with hold | hnew
          · exact hrows row hold
          · exact absurd (List.eq_of_mem_replicate hnew) (Option.some_ne_none _)
    · exact absurd (Prod.mk.inj (Option.some.inj htable)).2 Bool.false_ne_true
  · obtain ⟨rfl, -⟩ := Prod.mk.inj (Option.some.inj htable)
    exact ⟨h, rfl, rfl⟩

/-- The row part: the row where the cursor stands. -/
theorem Live.allocRow {row : Int} (hmalloc : ∀ m a, env.malloc m = some a → m ≤ ptrdiffMax)
    (hrow : mpAllocRowRaw env st = some (st', some row)) :
    Live n b st' ∧ st'.mp.x = st.mp.x ∧ st'.mp.y = st.mp.y
      ∧ st'.size row = some (blockBytes n b) ∧ RowExists n b
      ∧ ∃ t, st'.mp.ptr = some t ∧ getAt t st.mp.x = some (some row) := by
  obtain ⟨t, ht, hlen, hrows⟩ := h.table
  rw [mpAllocRowRaw, ht] at hrow
  simp only [Option.bind_eq_bind, Option.bind_some] at hrow
  obtain ⟨entry, hentry, hrow⟩ := Option.bind_eq_some_iff.mp hrow
  have hidx := of_getAt hentry
  cases entry with
  | some r =>
      obtain ⟨rfl, heq⟩ := Prod.mk.inj (Option.some.inj hrow)
      obtain rfl := Option.some.inj heq
      obtain ⟨hsize, hexists⟩ := hrows r (List.mem_of_getElem? hidx.2)
      exact ⟨h, rfl, rfl, hsize, hexists, t, ht, hentry⟩
  | none =>
      simp only at hrow
      cases hm : env.malloc (rowBytes st.mp) with
      | none =>
          rw [hm] at hrow
          exact absurd (Prod.mk.inj (Option.some.inj hrow)).2.symm (Option.some_ne_none _)
      | some r =>
          rw [hm] at hrow
          simp only at hrow
          have hbytes : rowBytes st.mp = blockBytes n b := by
            rw [rowBytes, hdrLen, h.ny, h.nobj]
            rfl
          have hhdr : hdrLen st.mp = headerBytes n := by
            rw [hdrLen, h.ny]
            rfl
          rw [hbytes] at hm
          rw [hbytes, hhdr] at hrow
          split at hrow
          · next hfits =>
              obtain ⟨t', ht', hrow⟩ := Option.bind_eq_some_iff.mp hrow
              obtain ⟨rfl, heq⟩ := Prod.mk.inj (Option.some.inj hrow)
              obtain rfl := Option.some.inj heq
              have hexists : RowExists n b := ⟨hfits.1, hfits.2, hmalloc _ _ hm⟩
              obtain ⟨hx, rfl⟩ := of_setAt ht'
              refine ⟨⟨h.ny, h.nobj, h.y_nonneg, h.y_lt, h.nx_le, _, rfl, ?_, ?_⟩, rfl, rfl,
                Function.update_self .., hexists, _, rfl, ?_⟩
              · rw [List.length_set]
                exact hlen
              · intro row hmem
                refine ⟨?_, hexists⟩
                show Function.update st.size r (some (blockBytes n b)) row = _
                by_cases hr : row = r
                · rw [hr, Function.update_self]
                · rw [Function.update_of_ne hr]
                  rcases List.mem_or_eq_of_mem_set hmem with hold | hnew
                  · exact (hrows row hold).1
                  · exact absurd (Option.some.inj hnew) hr
              · rw [getAt, if_pos hx.1, List.getElem?_set_self hx.2]
          · exact absurd hrow.symm (Option.some_ne_none _)

/-- The slot part: the object of the column, whose header entry is in the row. -/
theorem Live.allocSlot {row a : Int} (hn : n ≤ intMax)
    (hsize : st.size row = some (blockBytes n b)) (hslot : mpAllocSlotRaw st row = some (st', a)) :
    Live n b st' ∧ st'.mp.ptr = st.mp.ptr ∧ st'.size = st.size
      ∧ a = row + (headerBytes n + wrap32 (b * st.mp.y))
      ∧ (st.mp.y + 1) * sizeofPtr ≤ blockBytes n b := by
  rw [mpAllocSlotRaw, hsize] at hslot
  simp only [Option.bind_eq_bind, Option.bind_some] at hslot
  have haddr : row + hdrLen st.mp + wrap32 (st.mp.NOBJ * st.mp.y)
      = row + (headerBytes n + wrap32 (b * st.mp.y)) := by
    rw [hdrLen, h.ny, h.nobj, Int.add_assoc]
    rfl
  have hy := h.y_lt
  have hy0 := h.y_nonneg
  have hnext : wrap32 (st.mp.y + 1) = st.mp.y + 1 := wrap32_eq (by omega) (by omega)
  rw [haddr, hnext, h.ny] at hslot
  split at hslot
  · next hentry =>
      split at hslot
      · obtain ⟨rfl, rfl⟩ := Prod.mk.inj (Option.some.inj hslot)
        refine ⟨⟨rfl, h.nobj, Int.le_refl 0, ?_, h.nx_le, h.table⟩, rfl, rfl, rfl, hentry.2⟩
        show 0 < n
        omega
      · next hlast =>
          obtain ⟨rfl, rfl⟩ := Prod.mk.inj (Option.some.inj hslot)
          refine ⟨⟨rfl, h.nobj, ?_, ?_, h.nx_le, h.table⟩, rfl, rfl, rfl, hentry.2⟩
          · show 0 ≤ st.mp.y + 1
            omega
          · show st.mp.y + 1 < n
            omega
  · exact absurd hslot.symm (Option.some_ne_none _)

include henv in
/-- **One call** of `mp_alloc`. -/
theorem Live.alloc {a : Int} (hn : n ≤ intMax)
    (halloc : mpAllocRaw env st = some (st', some a)) :
    Live n b st' ∧ RowExists n b ∧ (st.mp.y + 1) * sizeofPtr ≤ blockBytes n b
      ∧ ∃ t row, st'.mp.ptr = some t ∧ getAt t st.mp.x = some (some row)
        ∧ st'.size row = some (blockBytes n b)
        ∧ a = row + (headerBytes n + wrap32 (b * st.mp.y)) := by
  rw [mpAllocRaw] at halloc
  obtain ⟨⟨mp, ok⟩, htable, halloc⟩ := Option.bind_eq_some_iff.mp halloc
  cases ok with
  | false => exact absurd (Prod.mk.inj (Option.some.inj halloc)).2.symm (Option.some_ne_none _)
  | true =>
      simp only [if_true] at halloc
      obtain ⟨⟨st₁, row⟩, hrow, halloc⟩ := Option.bind_eq_some_iff.mp halloc
      obtain ⟨hlive, hx, hy⟩ := h.allocTable henv htable
      cases row with
      | none => exact absurd (Prod.mk.inj (Option.some.inj halloc)).2.symm (Option.some_ne_none _)
      | some row =>
          obtain ⟨⟨st₂, a'⟩, hslot, halloc⟩ := Option.bind_eq_some_iff.mp halloc
          obtain ⟨rfl, heq⟩ := Prod.mk.inj (Option.some.inj halloc)
          obtain rfl := Option.some.inj heq
          obtain ⟨hlive₁, hx₁, hy₁, hsize, hexists, t, ht, hget⟩ :=
            hlive.allocRow henv.malloc_le hrow
          obtain ⟨hlive₂, hptr, hsizes, ha, hentry⟩ := hlive₁.allocSlot hn hsize hslot
          rw [hy₁] at ha hentry
          change _ = row + (headerBytes n + wrap32 (b * mp.y)) at ha
          change (mp.y + 1) * sizeofPtr ≤ _ at hentry
          rw [hy] at ha hentry
          change getAt t mp.x = _ at hget
          rw [hx] at hget
          exact ⟨hlive₂, hexists, hentry, t, row, hptr.trans ht, hget, hsizes ▸ hsize, ha⟩

end Steps

theorem columns_pos (y : Int) : 0 < columns y := by
  rw [columns]
  split <;> omega

theorem columns_le {y : Int} (hy : y ≤ intMax) : columns y ≤ intMax := by
  rw [columns]
  split
  · decide
  · exact hy

theorem live_create {objsize y : Int} {st : Raw} (h : mpCreateRaw objsize y = some st) :
    Live (columns y) objsize st := by
  obtain ⟨st₀, hcreate, rfl⟩ := Option.map_eq_some_iff.mp h
  rw [mpCreate] at hcreate
  split at hcreate
  · exact absurd hcreate.symm (Option.some_ne_none _)
  · obtain rfl := Option.some.inj hcreate
    have hnx : (10 : Int) ≤ intMax := by decide
    refine ⟨rfl, rfl, Int.le_refl 0, columns_pos y, hnx, _, rfl, rfl, fun row hrow => ?_⟩
    exact absurd (List.eq_of_mem_replicate hrow) (Option.some_ne_none _)

/-- **Every run.** -/
theorem reachRaw_live {objsize y : Int} {st : Raw} (hy : y ≤ intMax)
    (h : ReachRaw objsize y st) : Live (columns y) objsize st := by
  induction h with
  | create hcreate => exact live_create hcreate
  | alloc _ henv halloc ih => exact (ih.alloc henv (columns_le hy) halloc).1

/-! ## A run that leaves the row -/

/-- Where the row is put. -/
def rowBase : Int := 4096

/-- The allocator puts the first row there, and has nothing else to give. -/
def oneRowEnv (first : Bool) : Env where
  realloc := fun _ => false
  malloc := fun m => if first = true ∧ m ≤ ptrdiffMax then some rowBase else none
  junk := fun _ => none

/-- The pool with its first row, and the cursor in column `c` of it. -/
def rawAt (n b c : Int) : Raw where
  mp := {
    ptr := some (some rowBase :: List.replicate 9 none)
    x := 0
    y := c
    NX := 10
    NY := n
    NOBJ := b
    memused := wrap64 (wrap64 (sizeofMemPool + 10 * sizeofPtr) + blockBytes n b) }
  size := Function.update (fun _ => none) rowBase (some (blockBytes n b))

theorem oneRowEnv_lawful {first : Bool} {st : Raw} (h : first = true → st.size = fun _ => none) :
    (oneRowEnv first).LawfulRaw st := by
  have hgrant : ∀ m a, (oneRowEnv first).malloc m = some a → first = true ∧ m ≤ ptrdiffMax := by
    intro m a hm
    change (if first = true ∧ m ≤ ptrdiffMax then some rowBase else none) = some a at hm
    split at hm
    · next hc => exact hc
    · exact absurd hm.symm (Option.some_ne_none _)
  refine ⟨fun m hm => absurd hm Bool.false_ne_true, fun m a hm => (hgrant m a hm).2, ?_⟩
  intro m a hm c size hsize
  rw [h (hgrant m a hm).1] at hsize
  exact absurd hsize.symm (Option.some_ne_none _)

/-- A call that stays with its table and gets its row. -/
theorem mpAllocRaw_row {env : Env} {st st' : Raw} {row : Int}
    (hx : st.mp.x ≠ wrap32 (st.mp.NX - 1)) (hrow : mpAllocRowRaw env st = some (st', some row)) :
    mpAllocRaw env st = (mpAllocSlotRaw st' row).map fun r => (r.1, some r.2) := by
  rw [mpAllocRaw, mpAllocTable, if_neg hx]
  simp only [Option.bind_eq_bind, Option.bind_some, if_true]
  rw [show (⟨st.mp, st.size⟩ : Raw) = st from rfl, hrow, Option.bind_some]
  show (mpAllocSlotRaw st' row).bind _ = _
  cases mpAllocSlotRaw st' row <;> rfl

/-- The slot part does not fault where the header entry is in the row. -/
theorem mpAllocSlotRaw_returns {st : Raw} {row size : Int} (hsize : st.size row = some size)
    (hentry : 0 ≤ st.mp.y ∧ (st.mp.y + 1) * sizeofPtr ≤ size) :
    ∃ st', mpAllocSlotRaw st row
        = some (st', row + hdrLen st.mp + wrap32 (st.mp.NOBJ * st.mp.y))
      ∧ st'.mp.ptr = st.mp.ptr ∧ st'.size = st.size ∧ st'.mp.NOBJ = st.mp.NOBJ := by
  rw [mpAllocSlotRaw, hsize]
  simp only [Option.bind_eq_bind, Option.bind_some]
  rw [if_pos hentry]
  split
  · exact ⟨_, rfl, rfl, rfl, rfl⟩
  · exact ⟨_, rfl, rfl, rfl, rfl⟩

theorem rawAt_size (n b c : Int) : (rawAt n b c).size rowBase = some (blockBytes n b) := by
  simp only [rawAt, Function.update_self]

section Violation

variable {objsize y n : Int} (hn : n = columns y) (hobj : 0 < objsize) (hy : y ≤ intMax)
  (hrow : RowExists n objsize)

/-- A call whose row part leaves the cursor in column `c`. -/
def TakesColumn (objsize y : Int) (c : Int) : Prop :=
  ∃ st env, ReachRaw objsize y st ∧ env.LawfulRaw st ∧ st.mp.x = 0
    ∧ mpAllocRaw env st = (mpAllocSlotRaw (rawAt (columns y) objsize c) rowBase).map
      fun r => (r.1, some r.2)

include hn hobj hrow in
theorem takes_first : TakesColumn objsize y 0 := by
  subst hn
  have hcreate : mpCreateRaw objsize y = some ⟨{
      ptr := some (List.replicate 10 none)
      x := 0
      y := 0
      NX := 10
      NY := columns y
      NOBJ := objsize
      memused := wrap64 (sizeofMemPool + 10 * sizeofPtr) }, fun _ => none⟩ := by
    rw [mpCreateRaw, mpCreate, if_neg (by omega)]
    rfl
  refine ⟨_, oneRowEnv true, .create hcreate, oneRowEnv_lawful fun _ => rfl, rfl, ?_⟩
  refine mpAllocRaw_row (show (0 : Int) ≠ wrap32 (10 - 1) by decide) ?_
  have hgrant : (oneRowEnv true).malloc (blockBytes (columns y) objsize) = some rowBase :=
    if_pos ⟨rfl, hrow.2.2⟩
  show (match (oneRowEnv true).malloc (blockBytes (columns y) objsize) with
    | none => _
    | some row => if 0 ≤ headerBytes (columns y)
        ∧ headerBytes (columns y) ≤ blockBytes (columns y) objsize then _ else _) = _
  rw [hgrant]
  exact if_pos ⟨hrow.1, hrow.2.1⟩

include hn hy in
theorem takes_next {c : Nat} (hc : (c : Int) + 1 < n)
    (hentry : ((c : Int) + 1) * sizeofPtr ≤ blockBytes n objsize)
    (h : TakesColumn objsize y c) : TakesColumn objsize y (c + 1 : Nat) := by
  subst hn
  obtain ⟨st, env, hreach, henv, _, halloc⟩ := h
  have hmax := columns_le hy
  have hnext : wrap32 ((c : Int) + 1) = ((c + 1 : Nat) : Int) := by
    rw [wrap32_eq (by omega) (by omega)]
    rfl
  have hslot : mpAllocSlotRaw (rawAt (columns y) objsize c) rowBase
      = some (rawAt (columns y) objsize (c + 1 : Nat),
        rowBase + hdrLen (rawAt (columns y) objsize c).mp + wrap32 (objsize * c)) := by
    have hlast : ¬ wrap32 ((c : Int) + 1) = columns y := by
      rw [hnext]
      omega
    rw [mpAllocSlotRaw, rawAt_size]
    simp only [Option.bind_eq_bind, Option.bind_some]
    rw [if_pos ⟨Int.natCast_nonneg c, hentry⟩]
    refine (if_neg hlast).trans ?_
    show some (({ rawAt (columns y) objsize c with
      mp := { (rawAt (columns y) objsize c).mp with y := wrap32 ((c : Int) + 1) } } : Raw), _) = _
    rw [hnext]
    rfl
  rw [hslot] at halloc
  refine ⟨rawAt (columns y) objsize (c + 1 : Nat), oneRowEnv false, .alloc hreach henv halloc,
    oneRowEnv_lawful fun h => absurd h Bool.false_ne_true, rfl, ?_⟩
  exact mpAllocRaw_row (show (0 : Int) ≠ wrap32 (10 - 1) by decide) rfl

include hn hobj hy hrow in
/-- **Every column** whose header entries before it are in the row is reached; by induction on
    the column. -/
theorem takes_column : ∀ c : Nat, (c : Int) < n →
    (c : Int) * sizeofPtr ≤ blockBytes n objsize → TakesColumn objsize y c := by
  intro c
  induction c with
  | zero => exact fun _ _ => takes_first hn hobj hrow
  | succ c ih =>
      intro hc hentry
      have hcast : ((c + 1 : Nat) : Int) = (c : Int) + 1 := rfl
      rw [hcast] at hc hentry
      refine takes_next hn hy hc hentry (ih (by omega) ?_)
      rw [sizeofPtr] at hentry ⊢
      omega

end Violation

/-- Where the sizes are not such, an object leaves its row. -/
theorem not_poolLaw {objsize y : Int} (hobj : 0 < objsize) (hy : y ≤ intMax)
    (hbad : ¬ ArithOk (columns y) objsize) : ¬ PoolLaw objsize y := by
  intro hlaw
  have hrow : RowExists (columns y) objsize := by
    by_contra hno
    exact hbad (.inl hno)
  obtain ⟨hc, hcn, hentry, hout⟩ := object_outside hobj hrow hbad rfl
  obtain ⟨c, hcast⟩ := Int.eq_ofNat_of_zero_le hc
  rw [hcast] at hcn hentry hout
  obtain ⟨st, env, hreach, henv, hx, halloc⟩ := takes_column rfl hobj hy hrow c hcn
    (by rw [sizeofPtr] at hentry ⊢; omega)
  obtain ⟨st', hslot, hptr, hsizes, hnobj⟩ :=
    mpAllocSlotRaw_returns (rawAt_size (columns y) objsize c) ⟨Int.natCast_nonneg c, hentry⟩
  rw [hslot] at halloc
  -- the object is in the row of the cursor, which is the only one, and ends behind it
  obtain ⟨t, row, size, ht, hget, hsize, _, hend⟩ := hlaw hreach henv halloc
  rw [hptr] at ht
  obtain rfl := Option.some.inj ht
  rw [hx] at hget
  obtain rfl : rowBase = row := Option.some.inj (Option.some.inj hget)
  rw [hsizes, rawAt_size] at hsize
  obtain rfl := Option.some.inj hsize
  rw [hnobj] at hend
  change rowBase + headerBytes (columns y) + wrap32 (objsize * c) + objsize ≤ _ at hend
  omega

/-- **The pool's arithmetic**: no object leaves its row, in any run, exactly when the sizes are
    such. -/
theorem pool_arith_iff {objsize y : Int} (hobj : 0 < objsize) (hy : y ≤ intMax) :
    PoolLaw objsize y ↔ ArithOk (columns y) objsize := by
  constructor
  · intro hlaw
    by_contra hbad
    exact not_poolLaw hobj hy hbad hlaw
  · intro hok st st' env a hreach henv halloc
    have hlive := reachRaw_live hy hreach
    obtain ⟨_, hrow, hentry, t, row, ht, hget, hsize, rfl⟩ :=
      hlive.alloc henv (columns_le hy) halloc
    obtain ⟨hlow, hhigh⟩ := object_inside hobj hrow (columns_pos y) hok hlive.y_nonneg hlive.y_lt
      hentry
    have hnobj : st'.mp.NOBJ = objsize := (hlive.alloc henv (columns_le hy) halloc).1.nobj
    refine ⟨t, row, _, ht, hget, hsize, ?_, ?_⟩
    · omega
    · rw [hnobj]
      omega

/-- The pool of `mp_create(4, 2)`. -/
theorem pool_arith_small : ArithOk (columns 2) 4 ∧ (PoolLaw 4 2 ↔ ArithOk (columns 2) 4) :=
  ⟨by decide, pool_arith_iff (by decide) (by decide)⟩

/-- Four columns of `2 ^ 30` bytes: the product wraps to 0, the row has 32 bytes, which are its
    header, and the first object is behind it. -/
theorem pool_arith_wraps : ¬ PoolLaw (2 ^ 30) 4 :=
  not_poolLaw (by decide) (by decide) (by decide)

end MemPool
