import CppTest.MemPoolProofs
import Mathlib.Data.List.Nodup
import Mathlib.Data.List.Count
import Mathlib.Order.Bounds.Basic
import Mathlib.Data.Set.Finite.Lattice

/-! # The life of a memory pool (`src/mem_pool/mem_pool.c`)

    What the row headers record over a run, what `mp_destroy` releases, and what a
    denied allocation leaves behind.

    * `Ledger … live` — the headers of a pool are the function `live` from slot
      numbers to pointers, and the blocks in memory are the rows.  `mp_alloc` adds one
      entry to `live`, a successful `mp_free` removes one.
    * `mp_free` never looks into the row the cursor is in: an object of that row keeps
      its entry for ever.  `mp_liveness` says that this is the only way the headers
      go wrong.
    * `mp_destroy` does not look into it either (`Ledger.destroy`), and a denied
      `realloc` loses the table (`Ledger.denial`). -/

namespace MemPool

open Machine

/-! ## Runs -/

/-- The objects of the row that is not full yet: the last `as.length % ny`
    pointers. -/
def openRow (ny : Nat) (as : List Int) : List Int := as.drop (as.length - as.length % ny)

/-- `st` is reached from `mp_create(objsize, y)` by `mp_alloc` and `mp_free` calls.
    `malloc` may deny, `realloc` does not; a freed pointer was handed out and not
    freed before.  `as` are the pointers handed out, `freed` those freed, and `missed`
    those that stood in the row not full yet when they were freed. -/
inductive Life (objsize y : Int) : St → List Int → List Int → List Int → Prop where
  | create {st : St} : mpCreate objsize y = some st → Life objsize y st [] [] []
  | alloc {st st' : St} {as freed missed : List Int} {env : Env} {r : Option Int} :
      Life objsize y st as freed missed → env.Lawful st → ¬ TableDenied env st.mp →
      mpAlloc env st = some (st', r) → Life objsize y st' (as ++ r.toList) freed missed
  | free {st st' : St} {as freed missed : List Int} {p : Int} :
      Life objsize y st as freed missed → p ∈ as → p ∉ freed → mpFree st (some p) = some st' →
      Life objsize y st' as (p :: freed)
        (if p ∈ openRow (max y 1).toNat as then p :: missed else missed)

/-! ## The ledger -/

/-- A pool that has handed out `as`, whose headers hold `live` and whose rows are all
    the blocks there are. -/
structure Ledger (ny nobj : Nat) (st : St) (as rows : List Int) (nx : Nat)
    (live : Nat → Option Int) : Prop where
  slots : Slots ny nobj st as rows nx
  only : ∀ a b, st.mem a = some b → a ∈ rows
  entry : ∀ j row b, rows[j]? = some row → st.mem row = some b →
    ∀ c, c < ny → b.hdr[c]? = some (live (j * ny + c))
  ahead : ∀ k, as.length ≤ k → live k = none

section Fixed
variable {ny nobj : Nat} (hny : 0 < ny) (hbound : (ny : Int) * (8 + nobj) < intMax)

include hny in
/-- A slot number is one row and one column. -/
theorem slot_number {j j' c c' : Nat} (hc : c < ny) (hc' : c' < ny)
    (h : j * ny + c = j' * ny + c') : j = j' ∧ c = c' := by
  have hdiv : (j * ny + c) / ny = j := by
    rw [Nat.mul_comm, Nat.mul_add_div hny, Nat.div_eq_of_lt hc, Nat.add_zero]
  have hdiv' : (j' * ny + c') / ny = j' := by
    rw [Nat.mul_comm, Nat.mul_add_div hny, Nat.div_eq_of_lt hc', Nat.add_zero]
  obtain rfl : j = j' := by rw [← hdiv, h, hdiv']
  exact ⟨rfl, by omega⟩

include hny in
/-- The rows of a pool are different blocks. -/
theorem Rows.nodup {st : St} {rows : List Int} {nx : Nat} (h : Rows ny nobj st rows nx) :
    rows.Nodup :=
  h.apart.imp fun hab => hab.ne (by positivity)

include hny in
theorem Rows.index_unique {st : St} {rows : List Int} {nx : Nat} (h : Rows ny nobj st rows nx)
    {i j : Nat} {row : Int} (hi : rows[i]? = some row) (hj : rows[j]? = some row) : i = j := by
  obtain ⟨hil, hig⟩ := List.getElem?_eq_some_iff.mp hi
  obtain ⟨hjl, hjg⟩ := List.getElem?_eq_some_iff.mp hj
  exact (h.nodup hny).getElem_inj_iff.mp (hig.trans hjg.symm)

theorem Rows.block {st : St} {rows : List Int} {nx : Nat} (h : Rows ny nobj st rows nx) {j : Nat}
    {row : Int} (hj : rows[j]? = some row) : ∃ hdr, hdr.length = ny ∧
      st.mem row = some { size := (ny : Int) * (8 + nobj), hdr := hdr } :=
  h.blocks row (List.mem_of_getElem? hj)

/-- A row other than the one just added stood in the table before. -/
theorem row_before {rows rows' : List Int} {row r : Int} {j : Nat}
    (h : rows' = rows ∨ rows' = rows ++ [row]) (hj : rows'[j]? = some r) (hne : r ≠ row) :
    rows[j]? = some r := by
  rcases h with rfl | rfl
  · exact hj
  · rcases getElem?_snoc hj with hj | ⟨-, heq⟩
    · exact hj
    · exact absurd heq hne

include hny in
/-- A row is added only by the object that stands in its first column. -/
theorem Slots.first_column {st st' : St} {as rows : List Int} {nx nx' : Nat} {a row : Int}
    (h : Slots ny nobj st as rows nx)
    (hs : Slots ny nobj st' (as ++ [a]) (rows ++ [row]) nx') : as.length % ny = 0 := by
  by_contra h0
  have hr := h.rows_len
  have hr' := hs.rows_len
  have hsucc := slot_succ hny as.length
  rw [if_neg h0] at hr
  rw [List.length_append, List.length_append, List.length_singleton,
    List.length_singleton] at hr'
  split_ifs at hsucc hr' <;> omega

include hny in
/-- The header that the new object is written into, before the write. -/
theorem Ledger.header {st st' : St} {as rows rows' : List Int} {nx nx' : Nat}
    {live : Nat → Option Int} (h : Ledger ny nobj st as rows nx live) {a row : Int}
    {hdr : List (Option Int)} (hs : Slots ny nobj st' (as ++ [a]) rows' nx')
    (hrow : rows'[as.length / ny]? = some row)
    (hold : rows' = rows ∧ st.mem row = some { size := (ny : Int) * (8 + nobj), hdr := hdr } ∨
      rows' = rows ++ [row] ∧ row ∉ rows ∧ hdr = List.replicate ny none) {c : Nat} (hc : c < ny) :
    hdr[c]? = some (live (as.length / ny * ny + c)) := by
  rcases hold with ⟨rfl, hb⟩ | ⟨rfl, -, rfl⟩
  · exact h.entry _ row _ hrow hb c hc
  · -- a new header is empty, and no slot of a new row was handed out
    have h0 := h.slots.first_column hny hs
    have hlen : as.length / ny * ny = as.length := by
      rw [Nat.mul_comm]
      have := Nat.div_add_mod as.length ny
      omega
    rw [List.getElem?_replicate, if_pos hc, h.ahead _ (by omega)]

include hny in
/-- Handing out a slot writes one entry. -/
theorem Ledger.fill {st st' : St} {as rows rows' : List Int} {nx nx' : Nat}
    {live : Nat → Option Int} (h : Ledger ny nobj st as rows nx live) {a : Int}
    (hs : Slots ny nobj st' (as ++ [a]) rows' nx')
    (hf : FillsAt ny nobj st st' rows rows' (as.length / ny) (as.length % ny) a) :
    Ledger ny nobj st' (as ++ [a]) rows' nx' (Function.update live as.length (some a)) := by
  obtain ⟨row, hdr, hrow, hold, hmem⟩ := hf
  have hmod := Nat.mod_lt as.length hny
  have hnum : as.length / ny * ny + as.length % ny = as.length := by
    rw [Nat.mul_comm]
    exact Nat.div_add_mod _ _
  have hrows : rows' = rows ∨ rows' = rows ++ [row] := hold.imp And.left And.left
  have hlen : hdr.length = ny := by
    obtain ⟨hdr', hl, hb⟩ := hs.grid.block hrow
    rw [hmem, Function.update_self] at hb
    rw [← hl, ← (Block.mk.inj (Option.some.inj hb)).2, List.length_set]
  constructor
  · exact hs
  · intro x b hb
    rw [hmem, Function.update_apply] at hb
    split_ifs at hb with hx
    · rw [hx]
      exact List.mem_of_getElem? hrow
    · have hx' := h.only x b hb
      rcases hrows with rfl | rfl
      · exact hx'
      · exact List.mem_append.mpr (Or.inl hx')
  · intro j r b hj hb c hc
    by_cases hjq : j = as.length / ny
    · -- the row written into: the new entry, or one of the old header
      subst hjq
      obtain rfl := Option.some.inj (hrow.symm.trans hj)
      rw [hmem, Function.update_self] at hb
      obtain rfl := Option.some.inj hb
      show (hdr.set (as.length % ny) (some a))[c]? = _
      rw [List.getElem?_set, Function.update_apply]
      by_cases hcr : as.length % ny = c
      · subst hcr
        rw [if_pos rfl, if_pos (by omega), if_pos hnum]
      · rw [if_neg hcr, if_neg (by omega)]
        exact h.header hny hs hrow hold hc
    · -- another row: neither its header nor its slots changed
      have hne : r ≠ row := fun heq => hjq (hs.grid.index_unique hny (heq ▸ hj) hrow)
      rw [hmem, Function.update_of_ne hne] at hb
      rw [h.entry j r b (row_before hrows hj hne) hb c hc, Function.update_of_ne]
      intro heq
      exact hjq (slot_number hny hc hmod (heq.trans hnum.symm)).1
  · intro k hk
    rw [List.length_append, List.length_singleton] at hk
    rw [Function.update_of_ne (by omega)]
    exact h.ahead k (by omega)

include hny in
/-- Clearing a header entry removes it. -/
theorem Ledger.clear {st st' : St} {as rows : List Int} {nx : Nat} {live : Nat → Option Int}
    (h : Ledger ny nobj st as rows nx live) {j c : Nat} (hc : c < ny)
    (hs : Slots ny nobj st' as rows nx) (hclear : ClearsAt st st' rows j c) :
    Ledger ny nobj st' as rows nx (Function.update live (j * ny + c) none) := by
  obtain ⟨row, b, hrow, hb, hst⟩ := hclear
  have hmem : st'.mem = Function.update st.mem row (some { b with hdr := b.hdr.set c none }) := by
    rw [hst]
  constructor
  · exact hs
  · intro x b' hx
    rw [hmem, Function.update_apply] at hx
    split_ifs at hx with hxr
    · rw [hxr]
      exact List.mem_of_getElem? hrow
    · exact h.only x b' hx
  · intro j' r b' hj' hb' c' hc'
    have hentry : ∀ {b₀ : Block}, st.mem r = some b₀ → b₀.hdr[c']? = some (live (j' * ny + c')) :=
      fun hb₀ => h.entry j' r _ hj' hb₀ c' hc'
    rw [Function.update_apply]
    by_cases hjj : j' = j
    · subst hjj
      obtain rfl := Option.some.inj (hrow.symm.trans hj')
      rw [hmem, Function.update_self] at hb'
      obtain rfl := Option.some.inj hb'
      show (b.hdr.set c none)[c']? = _
      rw [List.getElem?_set]
      by_cases hcc : c = c'
      · subst hcc
        have hlt : c < b.hdr.length := (List.getElem?_eq_some_iff.mp (hentry hb)).1
        rw [if_pos rfl, if_pos hlt, if_pos rfl]
      · rw [if_neg hcc, if_neg (by omega)]
        exact hentry hb
    · have hne : r ≠ row := fun heq => hjj (h.slots.grid.index_unique hny (heq ▸ hj') hrow)
      rw [hmem, Function.update_of_ne hne] at hb'
      rw [if_neg fun heq => hjj (slot_number hny hc' hc heq).1]
      exact hentry hb'
  · intro k hk
    rw [Function.update_apply]
    split_ifs
    · rfl
    · exact h.ahead k hk

/-- A denied row leaves the ledger as it is. -/
theorem Ledger.grow {st st' : St} {as rows : List Int} {nx nx' : Nat} {live : Nat → Option Int}
    (h : Ledger ny nobj st as rows nx live) (hs : Slots ny nobj st' as rows nx')
    (hmem : st'.mem = st.mem) : Ledger ny nobj st' as rows nx' live :=
  ⟨hs, fun a b hb => h.only a b (hmem ▸ hb), fun j row b hj hb => h.entry j row b hj (hmem ▸ hb),
    h.ahead⟩

/-- An entry of a header is an entry of the ledger. -/
theorem Ledger.holdsAt {st : St} {as rows : List Int} {nx : Nat} {live : Nat → Option Int}
    (h : Ledger ny nobj st as rows nx live) {j c : Nat} {p : Int} (hp : HoldsAt st rows j c p) :
    c < ny ∧ live (j * ny + c) = some p := by
  obtain ⟨row, b, hrow, hb, hentry⟩ := hp
  obtain ⟨hdr, hlen, hb'⟩ := h.slots.grid.block hrow
  obtain rfl := Option.some.inj (hb'.symm.trans hb)
  have hc : c < ny := hlen ▸ (List.getElem?_eq_some_iff.mp hentry).1
  have hl := (h.entry j row _ hrow hb c hc).symm.trans hentry
  exact ⟨hc, Option.some.inj hl⟩

include hny in
/-- An entry of the ledger stands in a header. -/
theorem Ledger.holds {st : St} {as rows : List Int} {nx : Nat} {live : Nat → Option Int}
    (h : Ledger ny nobj st as rows nx live) {k : Nat} {p : Int} (hp : live k = some p) :
    HoldsAt st rows (k / ny) (k % ny) p := by
  have hlt : k < as.length := by
    by_contra hge
    rw [h.ahead k (by omega)] at hp
    exact nomatch hp
  have hq : k / ny ≤ as.length / ny := Nat.div_le_div_right (le_of_lt hlt)
  have hrows : k / ny < rows.length := by
    rw [h.slots.rows_len]
    by_cases h0 : as.length % ny = 0
    · rw [if_pos h0, Nat.add_zero]
      have hmul := Nat.div_add_mod as.length ny
      exact Nat.div_lt_of_lt_mul (by omega)
    · rw [if_neg h0]
      omega
  obtain ⟨row, hrow⟩ : ∃ row, rows[k / ny]? = some row := ⟨_, List.getElem?_eq_getElem hrows⟩
  obtain ⟨hdr, hlen, hb⟩ := h.slots.grid.block hrow
  refine ⟨row, _, hrow, hb, ?_⟩
  rw [h.entry _ row _ hrow hb _ (Nat.mod_lt k hny), Nat.mul_comm, Nat.div_add_mod, hp]

end Fixed

/-! ## The headers over a run -/

/-- What the ledger says of the pointers: those handed out and not freed, and those
    whose free was missed. -/
structure Account (as freed missed : List Int) (live : Nat → Option Int) : Prop where
  nodup : as.Nodup
  freed_sub : ∀ p ∈ freed, p ∈ as
  missed_sub : ∀ p ∈ missed, p ∈ freed
  live_iff : ∀ k p, live k = some p ↔ as[k]? = some p ∧ (p ∈ freed → p ∈ missed)

theorem Slots.nodup {ny nobj : Nat} (hny : 0 < ny) (hnobj : 0 < nobj) {st : St}
    {as rows : List Int} {nx : Nat} (h : Slots ny nobj st as rows nx) : as.Nodup := by
  refine List.pairwise_iff_getElem.mpr ?_
  intro i j hi hj hij heq
  have hdis := h.disjoint hny hij (List.getElem?_eq_getElem hi) (List.getElem?_eq_getElem hj)
  rw [heq] at hdis
  omega

/-- A pointer stands in the open row exactly when its number is past the full rows. -/
theorem mem_openRow_iff {ny : Nat} {as : List Int} (hnd : as.Nodup) {k : Nat} {p : Int}
    (hk : as[k]? = some p) : p ∈ openRow ny as ↔ as.length / ny ≤ k / ny := by
  obtain ⟨hlt, hget⟩ := List.getElem?_eq_some_iff.mp hk
  have hstart : as.length - as.length % ny = as.length / ny * ny := by
    have := Nat.div_add_mod as.length ny
    rw [Nat.mul_comm] at this
    omega
  have hmem : p ∈ openRow ny as ↔ as.length / ny * ny ≤ k := by
    unfold openRow
    rw [hstart]
    constructor
    · intro hp
      obtain ⟨i, hi, hpi⟩ := List.mem_iff_getElem.mp hp
      rw [List.getElem_drop, ← hget] at hpi
      have := (hnd.getElem_inj_iff).mp hpi
      omega
    · intro hle
      refine List.mem_iff_getElem.mpr ⟨k - as.length / ny * ny, ?_, ?_⟩
      · rw [List.length_drop]
        omega
      · rw [List.getElem_drop, ← hget]
        congr 1
        omega
  rw [hmem]
  constructor
  · intro hle
    rcases Nat.eq_zero_or_pos ny with rfl | hny
    · simp
    · exact (Nat.le_div_iff_mul_le hny).mpr hle
  · intro hle
    exact (Nat.mul_le_mul_right ny hle).trans (Nat.div_mul_le_self k ny)

/-- A pointer that is handed out now was neither freed nor missed. -/
theorem Account.fill {as freed missed : List Int} {live : Nat → Option Int}
    (h : Account as freed missed live) {a : Int} (hnd : (as ++ [a]).Nodup) :
    Account (as ++ [a]) freed missed (Function.update live as.length (some a)) := by
  have hnew : a ∉ as := by
    have := List.nodup_append.mp hnd
    exact fun ha => this.2.2 a ha a (List.mem_singleton.mpr rfl) rfl
  refine ⟨hnd, fun p hp => List.mem_append.mpr (Or.inl (h.freed_sub p hp)), h.missed_sub, ?_⟩
  intro k p
  rw [Function.update_apply]
  split_ifs with hk
  · rw [hk, List.getElem?_concat_length]
    constructor
    · intro heq
      obtain rfl := Option.some.inj heq
      exact ⟨rfl, fun hf => absurd (h.freed_sub a hf) hnew⟩
    · exact fun hp => hp.1
  · rw [h.live_iff]
    have hsame : (as ++ [a])[k]? = as[k]? := by
      by_cases hlt : k < as.length
      · exact List.getElem?_append_left hlt
      · rw [List.getElem?_eq_none (by simp; omega), List.getElem?_eq_none (by omega)]
    rw [hsame]

/-- A free that is found clears the pointer. -/
theorem Account.clear {as freed missed : List Int} {live : Nat → Option Int}
    (h : Account as freed missed live) {k : Nat} {p : Int} (hk : as[k]? = some p)
    (hp : p ∉ freed) : Account as (p :: freed) missed (Function.update live k none) := by
  refine ⟨h.nodup, ?_, fun q hq => List.mem_cons_of_mem _ (h.missed_sub q hq), ?_⟩
  · intro q hq
    rcases List.mem_cons.mp hq with rfl | hq
    · exact List.mem_of_getElem? hk
    · exact h.freed_sub q hq
  · intro i q
    rw [Function.update_apply]
    split_ifs with hik
    · subst hik
      constructor
      · exact fun hq => nomatch hq
      · rintro ⟨hq, himp⟩
        obtain rfl := Option.some.inj (hk.symm.trans hq)
        exact absurd (h.missed_sub p (himp (List.mem_cons_self ..))) hp
    · rw [h.live_iff]
      refine and_congr_right fun hq => ?_
      have hne : q ≠ p := by
        rintro rfl
        obtain ⟨hi, hgi⟩ := List.getElem?_eq_some_iff.mp hq
        obtain ⟨hk', hgk⟩ := List.getElem?_eq_some_iff.mp hk
        exact hik (h.nodup.getElem_inj_iff.mp (hgi.trans hgk.symm))
      simp [hne]

/-- A free that is missed leaves the pointer in its header. -/
theorem Account.miss {as freed missed : List Int} {live : Nat → Option Int}
    (h : Account as freed missed live) {p : Int} (hp : p ∈ as) (hnot : p ∉ freed) :
    Account as (p :: freed) (p :: missed) live := by
  refine ⟨h.nodup, ?_, ?_, ?_⟩
  · intro q hq
    rcases List.mem_cons.mp hq with rfl | hq
    · exact hp
    · exact h.freed_sub q hq
  · intro q hq
    rcases List.mem_cons.mp hq with rfl | hq
    · exact List.mem_cons_self ..
    · exact List.mem_cons_of_mem _ (h.missed_sub q hq)
  · intro k q
    rw [h.live_iff]
    refine and_congr_right fun _ => ?_
    by_cases hqp : q = p
    · subst hqp
      simp [hnot]
    · simp [hqp]

/-- One `mp_free`: it clears the entry of its object, or misses an object of the row
    that is not full yet. -/
theorem Account.free {ny nobj : Nat} (hny : 0 < ny) {st st' : St} {as rows freed missed : List Int}
    {nx : Nat} {live : Nat → Option Int} (ha : Account as freed missed live)
    (hl : Ledger ny nobj st as rows nx live) {p : Int} (hp : p ∈ as) (hnot : p ∉ freed)
    (hrun : mpFree st (some p) = some st') :
    ∃ live', Ledger ny nobj st' as rows nx live' ∧
      Account as (p :: freed) (if p ∈ openRow ny as then p :: missed else missed) live' := by
  obtain ⟨k, hklt, hkp⟩ := List.mem_iff_getElem.mp hp
  have hk : as[k]? = some p := List.getElem?_eq_some_iff.mpr ⟨hklt, hkp⟩
  have hlive : live k = some p := (ha.live_iff k p).mpr ⟨hk, fun hf => absurd hf hnot⟩
  obtain ⟨st₁, hrun', hs', hcase⟩ := hl.slots.free p
  rw [hrun'] at hrun
  obtain rfl := Option.some.inj hrun
  rcases hcase with ⟨rfl, habsent⟩ | ⟨j, c, hj, hheld, hclear⟩
  · -- not found: the pointer stands in the cursor's row
    have hopen : p ∈ openRow ny as := by
      rw [mem_openRow_iff ha.nodup hk]
      by_contra hlt
      exact habsent _ _ (by omega) (hl.holds hny hlive)
    rw [if_pos hopen]
    exact ⟨live, hl, ha.miss hp hnot⟩
  · -- found: the entry is that of the pointer's own slot, in a full row
    obtain ⟨hc, hjc⟩ := hl.holdsAt hheld
    have hindex : as[j * ny + c]? = some p := ((ha.live_iff _ p).mp hjc).1
    have hjk : j * ny + c = k := by
      obtain ⟨hi, hgi⟩ := List.getElem?_eq_some_iff.mp hindex
      exact ha.nodup.getElem_inj_iff.mp (hgi.trans hkp.symm)
    have hclosed : p ∉ openRow ny as := by
      rw [mem_openRow_iff ha.nodup hk, ← hjk, Nat.mul_comm, Nat.mul_add_div hny,
        Nat.div_eq_of_lt hc]
      omega
    rw [if_neg hclosed]
    refine ⟨_, hl.clear hny hc hs' hclear, ?_⟩
    rw [hjk]
    exact ha.clear hk hnot

/-- The ledger of every pool in its life. -/
theorem life_ledger {objsize y : Int} {st : St} {as freed missed : List Int}
    (h : Life objsize y st as freed missed) (hbound : max y 1 * (8 + objsize) < intMax) :
    ∃ ny nobj : Nat, 0 < ny ∧ 0 < nobj ∧ (ny : Int) = max y 1 ∧ (nobj : Int) = objsize ∧
      (ny : Int) * (8 + nobj) < intMax ∧
      ∃ rows nx live, Ledger ny nobj st as rows nx live ∧ Account as freed missed live := by
  induction h with
  | create hc =>
      obtain ⟨ny, nobj, hny, hnobj, h1, h2, hb, hs, hmem⟩ := slots_create hc hbound
      refine ⟨ny, nobj, hny, hnobj, h1, h2, hb, [], 10, fun _ => none, ⟨hs, ?_, ?_, ?_⟩,
        List.nodup_nil, ?_, ?_, ?_⟩
      · intro a b hb
        rw [hmem] at hb
        exact nomatch hb
      · exact fun j row b hj => nomatch hj
      · exact fun k _ => rfl
      · exact fun p hp => nomatch hp
      · exact fun p hp => nomatch hp
      · intro k p
        simp
  | @alloc st st' as freed missed env r _ hlaw hgrant hrun ih =>
      obtain ⟨ny, nobj, hny, hnobj, h1, h2, hb, rows, nx, live, hl, ha⟩ := ih
      refine ⟨ny, nobj, hny, hnobj, h1, h2, hb, ?_⟩
      rcases hl.slots.alloc hny hb hlaw with
        ⟨-, st₁, a, rows', nx', hrun', hs', -, hf, -⟩ | ⟨-, -, st₁, nx', hrun', hs', hmem, -⟩ | ⟨hd, -⟩
      · rw [hrun'] at hrun
        obtain ⟨rfl, rfl⟩ := Prod.mk.inj (Option.some.inj hrun)
        exact ⟨rows', nx', _, hl.fill hny hs' hf, ha.fill (hs'.nodup hny hnobj)⟩
      · rw [hrun'] at hrun
        obtain ⟨rfl, rfl⟩ := Prod.mk.inj (Option.some.inj hrun)
        rw [Option.toList_none, List.append_nil]
        exact ⟨rows, nx', live, hl.grow hs' hmem, ha⟩
      · exact absurd hd hgrant
  | @free st st' as freed missed p _ hp hnot hrun ih =>
      obtain ⟨ny, nobj, hny, hnobj, h1, h2, hb, rows, nx, live, hl, ha⟩ := ih
      refine ⟨ny, nobj, hny, hnobj, h1, h2, hb, ?_⟩
      obtain ⟨live', hl', ha'⟩ := ha.free hny hl hp hnot hrun
      have hny' : (max y 1).toNat = ny := by
        rw [← h1]
        exact Int.toNat_natCast ny
      rw [hny']
      exact ⟨rows, nx, live', hl', ha'⟩

/-- `p` is a non-null entry of the header of some row. -/
def InHeader (st : St) (p : Int) : Prop := ∃ row b, st.mem row = some b ∧ some p ∈ b.hdr

theorem Ledger.inHeader_iff {ny nobj : Nat} (hny : 0 < ny) {st : St} {as rows : List Int} {nx : Nat}
    {live : Nat → Option Int} (h : Ledger ny nobj st as rows nx live) (p : Int) :
    InHeader st p ↔ ∃ k, live k = some p := by
  constructor
  · rintro ⟨row, b, hb, hp⟩
    obtain ⟨j, hj, hrow⟩ := List.mem_iff_getElem.mp (h.only row b hb)
    obtain ⟨c, hc, hentry⟩ := List.mem_iff_getElem.mp hp
    exact ⟨_, (h.holdsAt (c := c) ⟨row, b, List.getElem?_eq_some_iff.mpr ⟨hj, hrow⟩, hb,
      List.getElem?_eq_some_iff.mpr ⟨hc, hentry⟩⟩).2⟩
  · rintro ⟨k, hk⟩
    obtain ⟨row, b, -, hb, hentry⟩ := h.holds hny hk
    exact ⟨row, b, hb, List.mem_of_getElem? hentry⟩

/-- **The liveness map, where it holds.**  In every state of every run, the header
    entries are exactly the pointers handed out and not freed if and ONLY if no pointer
    has been freed while it stood in the row that was not full yet. -/
theorem mp_liveness {objsize y : Int} {st : St} {as freed missed : List Int}
    (h : Life objsize y st as freed missed) (hbound : max y 1 * (8 + objsize) < intMax) :
    (∀ p, InHeader st p ↔ p ∈ as ∧ p ∉ freed) ↔ missed = [] := by
  obtain ⟨ny, nobj, hny, -, -, -, -, rows, nx, live, hl, ha⟩ := life_ledger h hbound
  have hentry : ∀ p, InHeader st p ↔ p ∈ as ∧ (p ∈ freed → p ∈ missed) := by
    intro p
    rw [hl.inHeader_iff hny]
    constructor
    · rintro ⟨k, hk⟩
      obtain ⟨hget, himp⟩ := (ha.live_iff k p).mp hk
      exact ⟨List.mem_of_getElem? hget, himp⟩
    · rintro ⟨hp, himp⟩
      obtain ⟨k, hk⟩ := List.mem_iff_getElem?.mp hp
      exact ⟨k, (ha.live_iff k p).mpr ⟨hk, himp⟩⟩
  constructor
  · intro hexact
    refine List.eq_nil_iff_forall_not_mem.mpr ?_
    intro p hp
    have hf := ha.missed_sub p hp
    exact ((hexact p).mp ((hentry p).mpr ⟨ha.freed_sub p hf, fun _ => hp⟩)).2 hf
  · rintro rfl p
    rw [hentry p]
    exact and_congr_right fun _ => ⟨fun himp hf => (nomatch himp hf), fun hn hf => absurd hf hn⟩

/-- The life of a pool of 4-byte objects after one `mp_alloc` in a block at 1000. -/
theorem life_first {y : Int} {st : St} {a : Int}
    (hrun : (mpCreate 4 y).bind (mpAlloc (fixedEnv 1000)) = some (st, some a)) :
    Life 4 y st [a] [] [] := by
  obtain ⟨st₀, hcreate, hrun⟩ := Option.bind_eq_some_iff.mp hrun
  obtain ⟨hmem, hcursor⟩ : (∀ b, st₀.mem b = none) ∧ ¬ TableDenied (fixedEnv 1000) st₀.mp := by
    unfold mpCreate at hcreate
    rw [if_neg (by decide)] at hcreate
    obtain rfl := Option.some.inj hcreate
    refine ⟨fun _ => rfl, fun hd => ?_⟩
    exact absurd (show (0 : Int) = wrap32 (10 - 1) from hd.1) (by decide)
  have hlaw : (fixedEnv 1000).Lawful st₀ := by
    refine fixedEnv_lawful ?_
    intro b blk hb
    rw [hmem] at hb
    exact nomatch hb
  exact Life.alloc (.create hcreate) hlaw hcursor hrun

/-- One object to a row: its row is full, and its free is found. -/
theorem mp_liveness_full_row : ∃ st, Life 4 1 st [1008] [1008] []
    ∧ ∀ p, InHeader st p ↔ p ∈ [(1008 : Int)] ∧ p ∉ [(1008 : Int)] := by
  obtain ⟨st, hst⟩ : ∃ st, (mpCreate 4 1).bind (mpAlloc (fixedEnv 1000)) = some (st, some 1008) :=
    ⟨_, rfl⟩
  obtain ⟨st', hfree⟩ : ∃ st', mpFree st (some 1008) = some st' := by
    obtain ⟨rfl, -⟩ := Prod.mk.inj (Option.some.inj hst)
    exact ⟨_, rfl⟩
  have hlife : Life 4 1 st' [1008] [1008] [] :=
    Life.free (life_first hst) (List.mem_singleton.mpr rfl) (fun h => nomatch h) hfree
  exact ⟨st', hlife, (mp_liveness hlife (by decide)).mpr rfl⟩

/-- Two objects to a row: the first object is freed while its row is not full, and its
    entry stays. -/
theorem mp_liveness_fails : ∃ st missed, Life 4 2 st [1016] [1016] missed
    ∧ ¬ ∀ p, InHeader st p ↔ p ∈ [(1016 : Int)] ∧ p ∉ [(1016 : Int)] := by
  obtain ⟨st, hst⟩ : ∃ st, (mpCreate 4 2).bind (mpAlloc (fixedEnv 1000)) = some (st, some 1016) :=
    ⟨_, rfl⟩
  have hfree : mpFree st (some 1016) = some st := by
    obtain ⟨rfl, -⟩ := Prod.mk.inj (Option.some.inj hst)
    rfl
  refine ⟨st, _, Life.free (life_first hst) (List.mem_singleton.mpr rfl) (fun h => nomatch h)
    hfree, ?_⟩
  intro hexact
  have hin : InHeader st 1016 := by
    obtain ⟨rfl, -⟩ := Prod.mk.inj (Option.some.inj hst)
    exact ⟨1000, ⟨24, [some 1016, none]⟩, rfl, List.mem_cons_self ..⟩
  exact ((hexact 1016).mp hin).2 (List.mem_singleton.mpr rfl)

/-! ## `mp_destroy` -/

/-- What a destroy call passes to `free`. -/
inductive Freed where
  | row (p : Option Int)
  | table
  | pool
  deriving Repr, DecidableEq

/-- The loop of `mp_destroy`, `k` rows from row `x` on. -/
def mpDestroyRows : Nat → Int → St → Option (List Freed)
  | 0, _, _ => some []
  | k + 1, x, st => do
      let t ← st.mp.ptr
      let p ← getAt t x
      let rest ← mpDestroyRows k (x + 1) st
      some (.row p :: rest)

/-- `mp_destroy`: the calls of `free`, in order. -/
def mpDestroy (st : St) : Option (List Freed) := do
  let rows ← mpDestroyRows st.mp.x.toNat 0 st
  some (rows ++ [.table, .pool])

/-- A destroy call returns and passes every row block of the pool to `free` exactly
    once. -/
def FreesEachRow {β : Type} (mem : Int → Option β) (calls : Option (List Freed)) : Prop :=
  ∃ l, calls = some l ∧ ∀ a, (mem a).isSome → l.count (.row (some a)) = 1

/-- Freeing the first `q` of the rows frees each row once when these are all. -/
theorem freesEachRow_iff {β : Type} {mem : Int → Option β} {rows : List Int} {q : Nat}
    (hnd : rows.Nodup) (hmem : ∀ a, (mem a).isSome ↔ a ∈ rows) (hq : q ≤ rows.length) :
    FreesEachRow mem (some ((rows.take q).map (fun r => Freed.row (some r)) ++ [.table, .pool]))
      ↔ rows.length = q := by
  have hcount : ∀ a, ((rows.take q).map (fun r => Freed.row (some r))
      ++ [Freed.table, Freed.pool]).count (Freed.row (some a)) = (rows.take q).count a := by
    intro a
    have hinj : Function.Injective fun r : Int => Freed.row (some r) :=
      fun r r' heq => Option.some.inj (Freed.row.inj heq)
    rw [List.count_append]
    exact congrArg (· + 0) (List.count_map_of_injective (rows.take q) _ hinj a)
  constructor
  · rintro ⟨l, hl, hall⟩
    obtain rfl := Option.some.inj hl
    by_contra hne
    have hlt : q < rows.length := by omega
    -- the row that the loop does not reach
    have hlast := hall rows[q] ((hmem _).mpr (List.getElem_mem hlt))
    rw [hcount, List.count_eq_zero.mpr] at hlast
    · exact nomatch hlast
    · intro hin
      obtain ⟨i, hi, hget⟩ := List.mem_iff_getElem.mp hin
      rw [List.getElem_take] at hget
      have := hnd.getElem_inj_iff.mp hget
      rw [List.length_take] at hi
      omega
  · intro hall
    refine ⟨_, rfl, ?_⟩
    intro a ha
    rw [hcount, List.take_of_length_le (by omega)]
    exact List.count_eq_one_of_mem hnd ((hmem a).mp ha)

section Destroy
variable {ny nobj : Nat}

theorem mpDestroyRows_spec {st : St} {rows : List Int} {nx : Nat} (h : Rows ny nobj st rows nx) :
    ∀ k i : Nat, i + k ≤ rows.length → mpDestroyRows k (i : Int) st
      = some (((rows.drop i).take k).map fun r => Freed.row (some r)) := by
  intro k
  induction k with
  | zero => exact fun i _ => rfl
  | succ k ih =>
      intro i hi
      have hilt : i < rows.length := by omega
      have hrest := ih (i + 1) (by omega)
      push_cast at hrest
      simp only [mpDestroyRows, h.table, getAt_natCast, table_get rows hilt, Option.bind_eq_bind,
        Option.bind_some, hrest]
      rw [List.drop_eq_getElem_cons hilt, List.take_succ_cons, List.map_cons]
      rfl

/-- `mp_destroy` frees each row once exactly when the cursor stands at the start of a
    row: otherwise the cursor's row is left. -/
theorem Ledger.destroy (hny : 0 < ny) {st : St} {as rows : List Int} {nx : Nat}
    {live : Nat → Option Int} (h : Ledger ny nobj st as rows nx live) :
    FreesEachRow st.mem (mpDestroy st) ↔ st.mp.y = 0 := by
  have hrows := h.slots.rows_len
  have hle : as.length / ny ≤ rows.length := by omega
  have hrun : mpDestroy st = some ((rows.take (as.length / ny)).map (fun r => Freed.row (some r))
      ++ [.table, .pool]) := by
    have hx : st.mp.x.toNat = as.length / ny := by
      rw [h.slots.x_eq]
      exact Int.toNat_natCast _
    have hspec := mpDestroyRows_spec h.slots.grid (as.length / ny) 0 (by omega)
    rw [List.drop_zero, Nat.cast_zero] at hspec
    simp only [mpDestroy, hx, hspec, Option.bind_eq_bind, Option.bind_some]
  have hmem : ∀ a, (st.mem a).isSome ↔ a ∈ rows := by
    intro a
    constructor
    · intro ha
      obtain ⟨b, hb⟩ := Option.isSome_iff_exists.mp ha
      exact h.only a b hb
    · intro ha
      obtain ⟨hdr, -, hb⟩ := h.slots.grid.blocks a ha
      rw [hb]
      rfl
  rw [hrun, freesEachRow_iff (h.slots.grid.nodup hny) hmem hle, h.slots.y_eq]
  by_cases h0 : as.length % ny = 0
  · rw [if_pos h0] at hrows
    simp [h0, hrows]
  · rw [if_neg h0] at hrows
    constructor
    · intro hlen
      omega
    · intro hcast
      exact absurd (Nat.cast_eq_zero.mp hcast) h0

end Destroy

/-! ## Denied allocations -/

/-- The allocator denies what this call asks for: the larger table, or the cursor's
    row. -/
def Refused (env : Env) (st : St) : Prop :=
  TableDenied env st.mp ∨
    ∃ t, st.mp.ptr = some t ∧ getAt t st.mp.x = some none ∧ env.malloc (rowBytes st.mp) = none

/-- The allocator grants whatever one call may ask for. -/
def Available (env : Env) (mp : Pool) : Prop :=
  env.realloc (wrap64 (wrap64 (wrap32 (mp.NX * 2)) * sizeofPtr)) = true ∧
    env.malloc (rowBytes mp) ≠ none

/-- What a denied call may leave: the rows are in the table at their old indices, and
    the next call with memory returns a slot of a row, apart from every object in
    `as`. -/
structure Atomic (st st' : St) (as : List Int) : Prop where
  kept : ∀ (t : List (Option Int)) (i : Nat) (row : Int), st.mp.ptr = some t →
    t[i]? = some (some row) →
    ∃ t', st'.mp.ptr = some t' ∧ t'[i]? = some (some row)
  next : ∀ env : Env, env.Lawful st' → Available env st'.mp →
    ∃ st'' a t row b, mpAlloc env st' = some (st'', some a) ∧ st''.mp.ptr = some t ∧
      some row ∈ t ∧ st''.mem row = some b ∧ row + st.mp.NY * sizeofPtr ≤ a ∧
      a + st.mp.NOBJ ≤ row + b.size ∧
      ∀ o ∈ as, a + st.mp.NOBJ ≤ o ∨ o + st.mp.NOBJ ≤ a

section Denied
variable {ny nobj : Nat} (hny : 0 < ny) (hbound : (ny : Int) * (8 + nobj) < intMax)

include hny hbound in
/-- The next call with memory, from any pool with its slots in place. -/
theorem Slots.next {st : St} {as rows : List Int} {nx : Nat} (h : Slots ny nobj st as rows nx)
    {env : Env} (hlaw : env.Lawful st) (hav : Available env st.mp) :
    ∃ st'' a t row b, mpAlloc env st = some (st'', some a) ∧ st''.mp.ptr = some t ∧
      some row ∈ t ∧ st''.mem row = some b ∧ row + (ny : Int) * 8 ≤ a ∧
      a + nobj ≤ row + b.size ∧ ∀ o ∈ as, a + nobj ≤ o ∨ o + nobj ≤ a := by
  rcases h.alloc hny hbound hlaw with
    ⟨-, st'', a, rows', nx', hrun, hs', -⟩ | ⟨-, hnull, -⟩ | ⟨hd, -⟩
  · have hlast : (as ++ [a])[as.length]? = some a := List.getElem?_concat_length
    obtain ⟨row, hrow, ha⟩ := hs'.addrs as.length a hlast
    obtain ⟨hdr, -, hb⟩ := hs'.grid.block hrow
    have hin := slot_inside nobj (Nat.mod_lt as.length hny) row
    refine ⟨st'', a, _, row, _, hrun, hs'.grid.table, ?_, hb, ?_, ?_, ?_⟩
    · exact List.mem_append.mpr (Or.inl (List.mem_map_of_mem (List.mem_of_getElem? hrow)))
    · rw [ha]
      exact hin.1
    · rw [ha]
      exact hin.2
    · intro o ho
      obtain ⟨i, hi⟩ := List.mem_iff_getElem?.mp ho
      have hlt := (List.getElem?_eq_some_iff.mp hi).1
      have hi' : (as ++ [a])[i]? = some o := (List.getElem?_append_left hlt).trans hi
      exact (hs'.disjoint hny hlt hi' hlast).symm
  · rw [← rowBytes_eq hbound h.grid.ny_eq h.grid.nobj_eq] at hnull
    exact absurd hnull hav.2
  · exact absurd (hav.1.symm.trans hd.2) (by decide)

include hny hbound in
/-- A refused `mp_alloc` returns null, and is atomic exactly when it was not the
    table that was denied. -/
theorem Slots.denial {st : St} {as rows : List Int} {nx : Nat} (h : Slots ny nobj st as rows nx)
    {env : Env} (hlaw : env.Lawful st) (href : Refused env st) :
    ∃ st', mpAlloc env st = some (st', none) ∧
      (Atomic st st' as ↔ ¬ TableDenied env st.mp) := by
  have hroom := h.room
  rcases h.alloc hny hbound hlaw with
    ⟨hgrant, st', a, rows', nx', hrun, hs', -, -, hmalloc, -⟩ |
      ⟨hgrant, -, st', nx', hrun, hs', -, -⟩ | ⟨hd, hrun⟩
  · -- memory was there after all
    exfalso
    rcases href with hd | ⟨t, ht, hnull, hm⟩
    · exact hgrant hd
    · rw [rowBytes_eq hbound h.grid.ny_eq h.grid.nobj_eq] at hm
      refine hmalloc ?_ hm
      by_contra hne
      have hq : as.length / ny < rows.length := by
        have := h.rows_len
        omega
      obtain rfl := Option.some.inj (h.grid.table.symm.trans ht)
      rw [h.x_eq, getAt_natCast, table_get rows hq] at hnull
      exact nomatch hnull
  · refine ⟨st', hrun, ⟨fun _ => hgrant, fun _ => ⟨?_, ?_⟩⟩⟩
    · intro t i row ht hrow
      obtain rfl := Option.some.inj (h.grid.table.symm.trans ht)
      exact ⟨_, hs'.grid.table, table_kept rows hrow⟩
    · intro env' hlaw' hav'
      rw [h.grid.ny_eq, h.grid.nobj_eq]
      exact hs'.next hny hbound hlaw' hav'
  · -- the first row is lost with the table
    refine ⟨_, hrun, ⟨fun hat => ?_, fun hn => absurd hd hn⟩⟩
    have htwo := h.grid.nx_two
    have hle := h.grid.nx_le
    have hx : as.length / ny = nx - 1 := by
      have hcur := hd.1
      rw [h.x_eq, h.grid.nx_eq, wrap32_eq (by omega) (by omega)] at hcur
      omega
    have hq : 0 < rows.length := by
      have := h.rows_len
      omega
    obtain ⟨t', ht', -⟩ := hat.kept _ 0 _ h.grid.table (table_get rows hq)
    exact nomatch ht'

end Denied

/-- An allocator that places every block at `base` and grants no larger table. -/
def tightEnv (base : Int) : Env where
  realloc := fun _ => false
  malloc := fun _ => some base
  junk := fun _ => none

/-- One object to a row: `n` rows in a table of ten, up to its last entry. -/
theorem life_rows : ∀ n, n ≤ 9 → ∃ st as, Life 4 1 st as [] [] ∧ as.length = n ∧ st.mp.NX = 10 := by
  intro n
  induction n with
  | zero =>
      intro _
      exact ⟨_, [], .create rfl, rfl, rfl⟩
  | succ n ih =>
      intro hn
      obtain ⟨st, as, hlife, hlen, hNX⟩ := ih (by omega)
      obtain ⟨ny, nobj, hny, -, h1, -, hb, rows, nx, live, hl, -⟩ := life_ledger hlife (by decide)
      obtain rfl : ny = 1 := by
        have : (ny : Int) = 1 := h1
        omega
      obtain rfl : nx = 10 := by
        have := hl.slots.grid.nx_eq
        omega
      -- a place above all rows
      obtain ⟨top, htop⟩ := (List.finite_toSet rows).bddAbove
      have hlaw : (tightEnv (top + ((1 : Nat) : Int) * (8 + nobj))).Lawful st := by
        refine ⟨fun _ h => (nomatch h), ?_⟩
        intro _ a ha b blk hblk
        obtain rfl := Option.some.inj ha
        have hrow := hl.only b blk hblk
        obtain ⟨hdr, -, hmem⟩ := hl.slots.grid.blocks b hrow
        obtain rfl := Option.some.inj (hmem.symm.trans hblk)
        exact Or.inr (Int.add_le_add_right (htop hrow) _)
      have hdiv : as.length / 1 = n := by rw [Nat.div_one, hlen]
      rcases hl.slots.alloc hny hb hlaw with
        ⟨hgrant, st', a, rows', nx', hrun, hs', -, -, -, hsame⟩ | ⟨-, hnull, -⟩ | ⟨hd, -⟩
      · refine ⟨st', as ++ [a], .alloc hlife hlaw hgrant hrun, ?_, ?_⟩
        · rw [List.length_append, List.length_singleton, hlen]
        · rw [hs'.grid.nx_eq, hsame (by omega)]
          rfl
      · exact nomatch hnull
      · have hcur := hd.1
        rw [hl.slots.x_eq, hdiv, hNX, wrap32_eq (by decide) (by decide)] at hcur
        omega

end MemPool
