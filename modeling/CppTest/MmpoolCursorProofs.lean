import CppTest.MmpoolProofs

/-! # The cursor of the second memory pool (`src/mmpool/mmpool.c`)

    Runs of successful `mmp_alloc` calls from a pool of ANY geometry with two rows and two
    columns or more, where `mmp_create` chooses one.  The cursor leaves a row one slot early,
    and the table grows one row early; both tests are for equality.

    * `UnderCursor` is the state in which the table is accessed: the cursor is inside the
      table, and everything behind its row is null; so is its entry before the row's first
      slot.
    * `mmp_cells` says what a run hands out, and that the next call finds the table so. -/

namespace Mmpool

open Machine
open MemPool (Env)

/-- A pool as `mmp_create` leaves it. -/
def freshPool (X Y obj_size : Nat) (used : Int) : St where
  mp := {
    ptr := some (List.replicate X none)
    x := 0
    y := 0
    X := X
    Y := Y
    obj_size := obj_size
    stat_memused := used }
  mem := fun _ => none

/-- `mmp_create` leaves such a pool. -/
theorem mmpCreate_fresh {calloc : Int → Bool} {page_size objsize factor : Int} {st : St}
    (hbound : mmpY page_size objsize factor * objsize ≤ intMax)
    (h : mmpCreate calloc page_size objsize factor = some st) :
    ∃ X Y obj_size used, st = freshPool X Y obj_size used ∧ 2 ≤ X ∧ 2 ≤ Y ∧ 0 < obj_size
      ∧ (X : Int) ≤ intMax ∧ (Y : Int) * obj_size ≤ intMax := by
  rw [mmpCreate] at h
  split_ifs at h with hobj h1 h2
  obtain rfl := Option.some.inj h
  obtain ⟨hY, hX, hXle⟩ := geometry (by omega) hbound
  obtain ⟨X, hX'⟩ := Int.eq_ofNat_of_zero_le (show 0 ≤ mmpX objsize factor by omega)
  obtain ⟨Y, hY'⟩ := Int.eq_ofNat_of_zero_le (show 0 ≤ mmpY page_size objsize factor by omega)
  obtain ⟨obj, hobj'⟩ := Int.eq_ofNat_of_zero_le (show 0 ≤ objsize by omega)
  refine ⟨X, Y, obj, wrap64 (sizeofMmpool + mmpX objsize factor * MemPool.sizeofPtr), ?_,
    by omega, by omega, by omega, by omega, ?_⟩
  · rw [freshPool, hX', hY', hobj']
    rfl
  · rw [← hY', ← hobj']
    exact hbound

/-- `st` is reached from the fresh pool by successful `mmp_alloc` calls; `as` are the pointers
    handed out, in order. -/
inductive Run (X Y obj_size : Nat) (used : Int) : St → List Int → Prop where
  | fresh : Run X Y obj_size used (freshPool X Y obj_size used) []
  | alloc {st st' : St} {as : List Int} {env : Env} {a : Int} : Run X Y obj_size used st as →
      Lawful env st → mmpAlloc env st = some (st', some a) →
      Run X Y obj_size used st' (as ++ [a])

section Geometry

variable {X Y obj_size : Nat} {used : Int} (hX : 2 ≤ X) (hXle : (X : Int) ≤ intMax) (hY : 2 ≤ Y)
  (hobj : 0 < obj_size) (hbound : (Y : Int) * obj_size ≤ intMax)
include hX hXle hY hobj hbound

/-- **Every run** has its slots in place. -/
theorem run_slots {st : St} {as : List Int} (h : Run X Y obj_size used st as) :
    ∃ rows nx q r, Slots (Y - 1) obj_size st as rows nx q r := by
  have hY' : Y - 1 + 1 = Y := by omega
  induction h with
  | fresh =>
      refine ⟨[], X, 0, 0, ⟨?_, rfl, rfl, hXle, Nat.zero_le _, rfl, ?_, ?_, List.Pairwise.nil⟩,
        ⟨rfl, rfl, by simp, by omega, rfl⟩, Nat.zero_le _, by omega, ?_⟩
      · rw [hY']
        rfl
      · exact fun row hrow => absurd hrow List.not_mem_nil
      · exact fun a size ha => absurd ha.symm (Option.some_ne_none _)
      · exact fun k a hk => absurd hk.symm (Option.some_ne_none _)
  | @alloc st st' as env a _ hlaw hrun ih =>
      obtain ⟨rows, nx, q, r, hs⟩ := ih
      rcases hs.alloc (by omega) hobj (by rw [hY']; exact hbound) hlaw with
        ⟨-, st₁, a₁, rows', nx', q', r', hrun', hs'⟩ | ⟨-, -, st₁, _, _, _, hrun', -⟩ | ⟨-, hrun'⟩
      · rw [hrun'] at hrun
        obtain ⟨rfl, heq⟩ := Prod.mk.inj (Option.some.inj hrun)
        obtain rfl := Option.some.inj heq
        exact ⟨rows', nx', q', r', hs'⟩
      all_goals
        rw [hrun'] at hrun
        exact absurd (Prod.mk.inj (Option.some.inj hrun)).2.symm (Option.some_ne_none _)

end Geometry

/-- The table where it is accessed: the cursor is inside it, the entries behind the cursor's
    row are null, and the entry of the row is null when its first slot is taken. -/
def UnderCursor (mp : Pool) : Prop :=
  ∃ t, mp.ptr = some t ∧ (t.length : Int) = mp.X ∧ 0 ≤ mp.x ∧ mp.x < mp.X
    ∧ (∀ j : Nat, mp.x < j → (j : Int) < mp.X → t[j]? = some none)
    ∧ (mp.y = 0 → getAt t mp.x = some none)

theorem Rows.underCursor {w nobj n nx q r : Nat} {st : St} {rows : List Int}
    (h : Rows w nobj st rows nx) (hc : Cursor w st.mp n rows.length nx q r) :
    UnderCursor st.mp := by
  have hlen := hc.rows_len
  have hfits := h.fits
  have hroom := hc.room
  have hnull : ∀ j, rows.length ≤ j → j < nx →
      (rows.map some ++ List.replicate (nx - rows.length) none)[j]? = some none := by
    intro j hj hjn
    rw [List.getElem?_append_right (by rw [List.length_map]; exact hj), List.length_map,
      List.getElem?_replicate, if_pos (by omega)]
  refine ⟨_, h.table, ?_, ?_, ?_, fun j hj hjn => ?_, fun hy => ?_⟩
  · rw [h.X_eq, List.length_append, List.length_map, List.length_replicate]
    omega
  · rw [hc.x_eq]
    exact Int.natCast_nonneg q
  · rw [hc.x_eq, h.X_eq]
    exact_mod_cast hroom
  · rw [hc.x_eq] at hj
    rw [h.X_eq] at hjn
    refine hnull j ?_ (by omega)
    split_ifs at hlen <;> omega
  · -- the row has no slot in use, so it is not there yet
    rw [hc.y_eq] at hy
    rw [if_pos (by omega)] at hlen
    rw [hc.x_eq, getAt_natCast]
    exact hnull q (by omega) hroom

/-- What a run has handed out: the `k`-th object is slot `k % (Y - 1)` of row `k / (Y - 1)`,
    inside the block of that row, and no two objects overlap. -/
structure Cells (Y obj_size : Nat) (st : St) (as : List Int) : Prop where
  slot : ∀ (k : Nat) (a : Int), as[k]? = some a → ∃ t row size, st.mp.ptr = some t
    ∧ t[k / (Y - 1)]? = some (some row) ∧ st.mem row = some size
    ∧ a = row + Y + (obj_size : Int) * (k % (Y - 1) : Nat)
    ∧ row + Y ≤ a ∧ a + obj_size ≤ row + size
  disjoint : ∀ (i j : Nat) (a b : Int), i < j → as[i]? = some a → as[j]? = some b →
    a + obj_size ≤ b ∨ b + obj_size ≤ a

theorem Slots.cells {Y nobj nx q r : Nat} (hY : 2 ≤ Y) {st : St} {as rows : List Int}
    (h : Slots (Y - 1) nobj st as rows nx q r) : Cells Y nobj st as := by
  have hw : 0 < Y - 1 := by omega
  have hY' : Y - 1 + 1 = Y := by omega
  constructor
  · intro k a hk
    obtain ⟨row, hrow, ha⟩ := h.addrs k a hk
    have hin := slot_inside hw nobj k row
    have hmem := List.mem_of_getElem? hrow
    have hlt := (List.getElem?_eq_some_iff.mp hrow).1
    refine ⟨_, row, _, h.grid.table, ?_, h.grid.blocks row hmem, ?_, ?_, ?_⟩
    · rw [table_get rows hlt]
      exact congrArg (some ∘ some) (List.getElem?_eq_some_iff.mp hrow).2
    · rw [ha, hY']
    · rw [ha]
      rw [hY'] at hin ⊢
      exact hin.1
    · rw [ha]
      exact hin.2
  · intro i j a b hij hi hj
    exact h.disjoint hw hij hi hj

/-- **Every number of successful calls**: the objects are in their cells, and the next call
    does not fault and finds the table as it has to be. -/
theorem mmp_cells {X Y obj_size : Nat} {used : Int} {st : St} {as : List Int} (hX : 2 ≤ X)
    (hXle : (X : Int) ≤ intMax) (hY : 2 ≤ Y) (hobj : 0 < obj_size)
    (hbound : (Y : Int) * obj_size ≤ intMax) (h : Run X Y obj_size used st as) :
    Cells Y obj_size st as ∧ ∀ env, Lawful env st → mmpAlloc env st ≠ none
      ∧ ∀ mp, mmpAllocTable env (mmpAllocWrap st.mp) = some (mp, true) → UnderCursor mp := by
  have hY' : Y - 1 + 1 = Y := by omega
  have hb : ((Y - 1 + 1 : Nat) : Int) * obj_size ≤ intMax := by rw [hY']; exact hbound
  obtain ⟨rows, nx, q, r, hs⟩ := run_slots hX hXle hY hobj hbound h
  refine ⟨hs.cells hY, fun env hlaw => ⟨?_, fun mp hmp => ?_⟩⟩
  · rcases hs.alloc (by omega) hobj hb hlaw with
      ⟨-, _, _, _, _, _, _, hrun, -⟩ | ⟨-, -, _, _, _, _, hrun, -⟩ | ⟨-, hrun⟩
    all_goals
      rw [hrun]
      exact Option.some_ne_none _
  · obtain ⟨q', r', hc, _⟩ := hs.wrap (by omega) hobj hb
    rcases mmpAllocTable_spec hs.grid.wrap (hlaw.withPool _) hc with
      ⟨-, mp', nx', htab, hgrid, hc', -⟩ | ⟨-, htab⟩
    · rw [htab] at hmp
      obtain ⟨rfl, -⟩ := Prod.mk.inj (Option.some.inj hmp)
      exact hgrid.underCursor hc'
    · rw [htab] at hmp
      exact absurd (Prod.mk.inj (Option.some.inj hmp)).2 Bool.false_ne_true

/-- The smallest pool, after one call. -/
theorem mmp_cells_one : ∃ st, Run 2 2 4 0 st [1002] ∧ Cells 2 4 st [1002]
    ∧ ∀ env, Lawful env st → mmpAlloc env st ≠ none
      ∧ ∀ mp, mmpAllocTable env (mmpAllocWrap st.mp) = some (mp, true) → UnderCursor mp := by
  have hlaw : Lawful someEnv (freshPool 2 2 4 0) := by
    refine ⟨fun _ h => absurd h Bool.false_ne_true, fun n b hb => ?_, fun n b _ c size hsize => ?_⟩
    · by_contra hn
      exact absurd ((if_neg hn).symm.trans hb).symm (Option.some_ne_none _)
    · exact absurd hsize.symm (Option.some_ne_none _)
  obtain ⟨st, hrun⟩ : ∃ st, mmpAlloc someEnv (freshPool 2 2 4 0) = some (st, some 1002) := ⟨_, rfl⟩
  have hone : Run 2 2 4 0 st ([] ++ [1002]) := .alloc .fresh hlaw hrun
  exact ⟨st, hone, mmp_cells (by decide) (by decide) (by decide) (by decide) (by decide) hone⟩

end Mmpool
