import CppTest.RowPoolProofs

/-! # The two-dimensional array (`src/algs/tdarr.cpp`)

    A `tdarr` is a pool of rows of `int`s whose table doubles.

    * With two columns or more every call writes a cell of its own, inside its row
      (`TdRun.good`).
    * With one column the test for the last cell is passed on the first call, and never again:
      the second one writes behind its row (`second_faults`).
    * `tdarr_law_iff` puts both together. -/

namespace TdArray

open RowPool Machine

/-! ## The model -/

/-- `struct tdarr`: the table `p` with `i`, `j` and `I` is a pool. -/
structure Tdarr where
  pool : Pool Int
  J : Nat

/-- The rows of `J` `int`s, and the table's growth; `log2` is `(size_t)log2(I)`. -/
def geometry (log2 : Nat → Nat) (J : Nat) : Geometry where
  rowLen := J
  cellSize := 4
  grow := fun I => if log2 I < I then I else log2 I

/-- `tdarr_init`.  Without memory `a.p[0] = 0` faults. -/
def tdarrInit (env : Env Int) (i j : Nat) : Option Tdarr := do
  let bytes := i * 8 % 2 ^ 64
  if env.malloc bytes then
    let p ← setAt ((List.range (bytes / 8)).map env.entry) 0 none
    some ⟨⟨p, 0, 0, i, []⟩, j⟩
  else none

/-- `tdarr_int_new`: the row and the column of the cell, or null. -/
def tdarrIntNew (log2 : Nat → Nat) (env : Env Int) (a : Tdarr) (key : Int) :
    Option (Tdarr × Option (Nat × Nat)) := do
  let (pool, c) ← newCell (geometry log2 a.J) env (fun _ => some key) a.pool
  some ({ a with pool := pool }, c)

/-- `a` is reached from `tdarr_init(a, i, j)` by calls that got their memory; each of them with
    its cell and its key.  Memory is available: there is enough for a table of `i` pointers, and
    for a row of `j` `int`s. -/
inductive TdRun (log2 : Nat → Nat) (i j : Nat) : Tdarr → List ((Nat × Nat) × Int) → Prop where
  | init {env : Env Int} {a : Tdarr} : env.Lawful → env.malloc (i * 8) = true →
      tdarrInit env i j = some a → TdRun log2 i j a []
  | new {env : Env Int} {a a' : Tdarr} {calls : List ((Nat × Nat) × Int)} {key : Int}
      {c : Nat × Nat} : TdRun log2 i j a calls → env.Lawful → env.malloc (j * 4) = true →
      tdarrIntNew log2 env a key = some (a', some c) → TdRun log2 i j a' (calls ++ [(c, key)])

/-- Every call has written a cell of an allocated row, inside the row, no two calls share a
    cell, and the cells hold their keys. -/
structure Good (a : Tdarr) (calls : List ((Nat × Nat) × Int)) : Prop where
  inside : ∀ c key, (c, key) ∈ calls → c.1 < a.pool.N ∧ c.2 < a.J ∧ cellAt a.pool c = some key
  distinct : (calls.map Prod.fst).Nodup

/-- A call does not fault, and gives a cell unless it is denied the memory for it. -/
def Served (log2 : Nat → Nat) (j : Nat) (a : Tdarr) : Prop :=
  ∀ env key, env.Lawful → env.malloc (j * 4) = true → ∃ a' r,
    tdarrIntNew log2 env a key = some (a', r) ∧ (r = none → env.Denies (geometry log2 j) a.pool)

/-- So it is for `n` calls of `tdarr_int_new`, and each of them is served. -/
def TdarrLaw (log2 : Nat → Nat) (i j n : Nat) : Prop :=
  ∀ a calls, TdRun log2 i j a calls → calls.length ≤ n →
    Good a calls ∧ (calls.length < n → Served log2 j a)

/-! ## Two columns or more -/

section Geometry

variable {log2 : Nat → Nat} {i j : Nat} (hlog : ∀ n, 0 < n → log2 n ≤ Nat.log2 n + 1) (hi : 1 ≤ i)

include hlog in
theorem geometry_good (hjb : j * 4 ≤ ptrdiffMax) : (geometry log2 j).Good := by
  refine ⟨Nat.succ_pos 3, hjb, fun N hN => ?_, fun N hN => ?_⟩
  · show 0 < if log2 N < N then N else log2 N
    split <;> omega
  · show (if log2 N < N then N else log2 N) ≤ max N 128
    have hle := hlog N hN
    split
    · exact Nat.le_max_left ..
    · have hself : N.log2 < N := (Nat.log2_lt (Nat.ne_of_gt hN)).mpr Nat.lt_two_pow_self
      omega

include hi in
theorem tdarrInit_start {env : Env Int} {a : Tdarr} (hib : i * 8 ≤ ptrdiffMax)
    (h : tdarrInit env i j = some a) : Start a.pool ∧ a.J = j := by
  have hbytes : i * 8 % 2 ^ 64 = i * 8 := by
    rw [ptrdiffMax] at hib
    exact Nat.mod_eq_of_lt (by omega)
  rw [tdarrInit, hbytes, Nat.mul_div_cancel _ (by decide)] at h
  split at h
  · obtain ⟨p, hp, h⟩ := Option.bind_eq_some_iff.mp h
    obtain rfl := Option.some.inj h
    have hlen : ((List.range i).map env.entry).length = i := by
      rw [List.length_map, List.length_range]
    have hset := setAt_natCast ((List.range i).map env.entry) (none : Option Nat)
      (show 0 < _ by rw [hlen]; exact hi)
    rw [Nat.cast_zero] at hset
    obtain rfl := Option.some.inj (hset.symm.trans hp)
    refine ⟨⟨?_, hib, hi, rfl, rfl, rfl, ?_⟩, rfl⟩
    · rw [List.length_set, hlen]
    · exact List.getElem?_set_self (by rw [hlen]; exact hi)
  · exact absurd h.symm (Option.some_ne_none _)

theorem tdarrIntNew_of {env : Env Int} {a : Tdarr} {key : Int} {p' : Pool Int}
    {c : Option (Nat × Nat)} (hJ : a.J = j)
    (h : newCell (geometry log2 j) env (fun _ => some key) a.pool = some (p', c)) :
    tdarrIntNew log2 env a key = some (⟨p', j⟩, c) := by
  subst hJ
  rw [tdarrIntNew, h]
  rfl

theorem tdarrIntNew_some {env : Env Int} {a a' : Tdarr} {key : Int} {c : Option (Nat × Nat)}
    (hJ : a.J = j) (h : tdarrIntNew log2 env a key = some (a', c)) : a'.J = j
      ∧ newCell (geometry log2 j) env (fun _ => some key) a.pool = some (a'.pool, c) := by
  subst hJ
  obtain ⟨r, hcell, h⟩ := Option.bind_eq_some_iff.mp h
  obtain ⟨rfl, rfl⟩ := Prod.mk.inj (Option.some.inj h)
  exact ⟨rfl, hcell⟩

include hi in
/-- A run of the array is a run of the pool. -/
theorem TdRun.run {a : Tdarr} {calls : List ((Nat × Nat) × Int)} (h : TdRun log2 i j a calls) :
    a.J = j ∧ (calls = [] ∨ j * 4 ≤ ptrdiffMax)
      ∧ ∃ p₀ : Pool Int, Start p₀ ∧ Run (geometry log2 j) p₀ a.pool
        (calls.map fun call => (call.1, fun _ => some call.2)) := by
  induction h with
  | init hlaw htable hinit =>
      obtain ⟨hstart, hJ⟩ := tdarrInit_start hi (hlaw.malloc_le _ htable) hinit
      exact ⟨hJ, Or.inl rfl, _, hstart, .start⟩
  | @new env a a' calls key c _ hlaw hrow hnew ih =>
      obtain ⟨hJ, _, p₀, hstart, hrun⟩ := ih
      obtain ⟨hJ', hcell⟩ := tdarrIntNew_some hJ hnew
      refine ⟨hJ', Or.inr (hlaw.malloc_le _ hrow), p₀, hstart, ?_⟩
      rw [List.map_append]
      exact .new hrun hlaw hcell

include hlog hi in
/-- **Two columns or more.** -/
theorem TdRun.good {a : Tdarr} {calls : List ((Nat × Nat) × Int)} (hj : 2 ≤ j)
    (h : TdRun log2 i j a calls) : Good a calls ∧ Served log2 j a := by
  obtain ⟨hJ, hjb, p₀, hstart, hrun⟩ := h.run hi
  constructor
  · rcases hjb with rfl | hjb
    · exact ⟨fun c key hmem => absurd hmem List.not_mem_nil, List.nodup_nil⟩
    · have hlaw := (hrun.filled (geometry_good hlog hjb) hj hstart).law
      refine ⟨fun c key hmem => ?_, ?_⟩
      · obtain ⟨hrow, hcol, _, v, hv, hkey⟩ := hlaw.inside c (fun _ => some key)
          (List.mem_map.mpr ⟨(c, key), hmem, rfl⟩)
        rw [hJ]
        exact ⟨hrow, hcol, hv.trans hkey.symm⟩
      · have hdistinct := hlaw.distinct
        rw [List.map_map] at hdistinct
        exact hdistinct
  · intro env key hlaw hgrant
    have hg := geometry_good (j := j) hlog (hlaw.malloc_le _ hgrant)
    rcases (hrun.filled hg hj hstart).newCell hg hj hlaw (fun _ => some key) with
      ⟨hdenied, p', hp⟩ | ⟨_, hfault, _⟩ | ⟨p', c, hp, _⟩
    · exact ⟨⟨p', j⟩, none, tdarrIntNew_of hJ hp, fun _ => hdenied⟩
    · exact absurd hfault (Option.some_ne_none _)
    · exact ⟨⟨p', j⟩, some c, tdarrIntNew_of hJ hp, fun h => absurd h (Option.some_ne_none _)⟩

end Geometry

/-! ## One column -/

/-- The array of one column after its first call: the cell is in row 1, and the cursor is behind
    it. -/
structure AfterFirst (p : Pool Int) (key : Int) : Prop where
  i_one : p.i = 1
  j_one : p.j = 1
  len : p.n.length = p.N
  bytes : p.N * 8 ≤ ptrdiffMax
  room : 1 < p.N
  first : p.n[0]? = some (some 0)
  second : p.n[1]? = some (some 1)
  row : p.rows[1]? = some [key]

section OneColumn

variable {log2 : Nat → Nat} (hlog : ∀ n, 0 < n → log2 n ≤ Nat.log2 n + 1) {env : Env Int}
  (hlaw : env.Lawful) {p : Pool Int} {key : Int}

include hlog in
/-- A table of one or two entries can be made longer. -/
theorem generous_grants (hroom : p.i < p.N) (hrow : p.i ≤ 1) :
    ¬ (generous 0).Denies (geometry log2 1) p := by
  rintro (hmalloc | ⟨hlast, hrealloc⟩)
  · have hrow : ¬ 1 * 4 ≤ ptrdiffMax := of_decide_eq_false hmalloc
    exact hrow (by decide)
  · have htable : ¬ (p.N + (geometry log2 1).grow p.N) * 8 ≤ ptrdiffMax :=
      of_decide_eq_false hrealloc
    have hle := (geometry_good hlog (by decide : 1 * 4 ≤ ptrdiffMax)).grow_le p.N (by omega)
    rw [ptrdiffMax] at htable
    omega

/-- The first cell of row 1 is taken. -/
theorem takeCell_front {old : Int} (hi : p.i = 1) (hj : p.j = 0)
    (hentry : p.n[1]? = some (some 1)) (hrow : p.rows[1]? = some [old]) :
    takeCell (fun _ => some key) p
      = some ({ p with j := 1, rows := p.rows.set 1 [key] }, (1, 0)) := by
  rw [takeCell]
  simp only [hi, hj, hentry, hrow, Option.bind_eq_bind, Option.bind_some]
  rfl

include hlog hlaw in
/-- **The first call** goes to row 1 at once. -/
theorem first_call (h : Start p) :
    (env.Denies (geometry log2 1) p
        ∧ ∃ p', newCell (geometry log2 1) env (fun _ => some key) p = some (p', none))
      ∨ ∃ p', newCell (geometry log2 1) env (fun _ => some key) p = some (p', some (1, 0))
        ∧ AfterFirst p' key := by
  have hg := geometry_good hlog (by decide : 1 * 4 ≤ ptrdiffMax)
  rw [newCell]
  rcases h.firstRow env hg with ⟨p₁, hfirst, hready, hi₁, hN₁⟩ | ⟨hdenied, p', hfirst⟩
  · rw [hfirst]
    simp only [Option.bind_eq_bind, Option.bind_some, if_true]
    have hone : p₁.i + 1 = 1 := by rw [hi₁, h.i_zero]
    have hj₁ : p₁.j = 0 := Nat.le_zero.mp hready.col
    have hrows₁ : p₁.rows.length = 1 := hready.rows_len.trans hone
    rcases growTable_spec env hg hready.len hready.bytes hready.room hlaw with
      ⟨N, n, hgrow, hlen, hbytes, hroom, hkept⟩ | ⟨hlast, hdenied, p', hgrow⟩
    · rw [hgrow]
      simp only [if_true]
      -- the cursor is at the last cell of row 0 from the start
      rcases nextRow_spec env hg (p := { p₁ with N := N, n := n }) hj₁ hready.rows_len
          (by rw [hlen]; exact hroom) with hnext | ⟨hdenied, p', hnext⟩
      · rw [hone] at hroom
        have hentry : (n.set 1 (some 1))[1]? = some (some 1) :=
          List.getElem?_set_self (by rw [hlen]; exact hroom)
        have hrow : (p₁.rows ++ [(List.range (geometry log2 1).rowLen).map env.cell])[1]?
            = some [env.cell 0] := by
          rw [List.getElem?_append_right (Nat.le_of_eq hrows₁), hrows₁]
          rfl
        rw [hnext]
        simp only [Option.bind_some, if_true, hone]
        rw [takeCell_front rfl rfl hentry hrow]
        refine Or.inr ⟨_, rfl, rfl, rfl, ?_, hbytes, hroom, ?_, hentry, ?_⟩
        · exact (List.length_set ..).trans hlen
        · show (n.set 1 (some 1))[0]? = _
          have hold := hready.room
          rw [List.getElem?_set_ne (by decide), hkept 0 (by rw [hready.len]; omega)]
          exact hready.entries 0 (by rw [hrows₁]; exact Nat.one_pos)
        · refine List.getElem?_set_self ?_
          rw [List.length_append, hrows₁]
          exact Nat.lt_succ_self 1
      · rw [hnext]
        exact Or.inl ⟨Or.inl hdenied, p', rfl⟩
    · rw [hgrow]
      refine Or.inl ⟨Or.inr ?_, p', rfl⟩
      rw [hi₁, hN₁] at hlast
      rw [hN₁] at hdenied
      exact ⟨hlast, hdenied⟩
  · rw [hfirst]
    exact Or.inl ⟨Or.inl hdenied, p', rfl⟩

include hlog in
/-- **The second call**: the cursor has passed the last column of its row, so no row is added,
    and the key is written behind the row. -/
theorem second_faults (h : AfterFirst p key) (key' : Int) :
    newCell (geometry log2 1) (generous 0) (fun _ => some key') p = none := by
  have hg := geometry_good hlog (by decide : 1 * 4 ≤ ptrdiffMax)
  have hroom : p.i < p.N := by rw [h.i_one]; exact h.room
  have hfirst : firstRow (geometry log2 1) (generous 0) p = some (p, true) := by
    rw [firstRow, h.first]
    rfl
  rw [newCell, hfirst]
  simp only [Option.bind_eq_bind, Option.bind_some, if_true]
  rcases growTable_spec (generous 0) hg h.len h.bytes hroom (generous_lawful 0) with
    ⟨N, n, hgrow, _, _, _, hkept⟩ | ⟨hlast, hdenied, _⟩
  · rw [hgrow]
    have hnext : nextRow (geometry log2 1) (generous 0) { p with N := N, n := n }
        = some ({ p with N := N, n := n }, true) := by
      refine if_neg ?_
      show p.j ≠ 0
      rw [h.j_one]
      exact Nat.one_ne_zero
    have hentry : n[1]? = some (some 1) := by
      rw [hkept 1 (by rw [h.len]; exact h.room)]
      exact h.second
    have htake : takeCell (fun _ => some key') { p with N := N, n := n } = none := by
      rw [takeCell]
      simp only [h.i_one, h.j_one, hentry, h.row, Option.bind_eq_bind, Option.bind_some]
      rfl
    simp only [hnext, htake, Option.bind_some, Option.bind_none, if_true]
  · exact absurd (Or.inr ⟨hlast, hdenied⟩) (generous_grants hlog hroom (Nat.le_of_eq h.i_one))

include hlog in
/-- With one column a run has one call at most, and what it wrote is there. -/
theorem TdRun.one_column {i : Nat} {a : Tdarr} {calls : List ((Nat × Nat) × Int)} (hi : 1 ≤ i)
    (h : TdRun log2 i 1 a calls) (hle : calls.length ≤ 1) :
    a.J = 1 ∧ ((calls = [] ∧ Start a.pool)
      ∨ ∃ key, calls = [((1, 0), key)] ∧ AfterFirst a.pool key) := by
  cases h with
  | init hlaw htable hinit =>
      obtain ⟨hstart, hJ⟩ := tdarrInit_start hi (hlaw.malloc_le _ htable) hinit
      exact ⟨hJ, Or.inl ⟨rfl, hstart⟩⟩
  | @new env a₀ _ calls key c hrun hlaw hrow hnew =>
      cases hrun with
      | @new _ _ _ calls =>
          rw [List.length_append, List.length_append] at hle
          simp only [List.length_singleton] at hle
          omega
      | init hlaw₀ htable hinit =>
          obtain ⟨hstart, hJ⟩ := tdarrInit_start hi (hlaw₀.malloc_le _ htable) hinit
          obtain ⟨hJ', hcell⟩ := tdarrIntNew_some hJ hnew
          refine ⟨hJ', Or.inr ⟨key, ?_⟩⟩
          rcases @first_call log2 hlog env hlaw a₀.pool key hstart with
            ⟨_, p', hp⟩ | ⟨p', hp, hafter⟩
          · obtain ⟨-, hnull⟩ := Prod.mk.inj (Option.some.inj (hp.symm.trans hcell))
            exact absurd hnull.symm (Option.some_ne_none _)
          · obtain ⟨rfl, hc⟩ := Prod.mk.inj (Option.some.inj (hp.symm.trans hcell))
            obtain rfl := Option.some.inj hc
            exact ⟨rfl, hafter⟩

/-- The cell of the first call is the only one. -/
theorem AfterFirst.good {a : Tdarr} (hJ : a.J = 1) (h : AfterFirst a.pool key) :
    Good a [((1, 0), key)] := by
  refine ⟨fun c key' hmem => ?_, List.nodup_singleton _⟩
  obtain ⟨rfl, rfl⟩ := Prod.mk.inj (List.mem_singleton.mp hmem)
  refine ⟨h.room, ?_, ?_⟩
  · rw [hJ]
    exact Nat.one_pos
  · rw [cellAt]
    simp only [h.second, h.row, Option.bind_eq_bind, Option.bind_some]
    rfl

end OneColumn

/-! ## The array -/

section Law

variable {log2 : Nat → Nat} {i : Nat} (hlog : ∀ n, 0 < n → log2 n ≤ Nat.log2 n + 1) (hi : 1 ≤ i)

include hlog hi in
/-- One call into one column goes well. -/
theorem TdarrLaw.one_column {n : Nat} (hn : n ≤ 1) : TdarrLaw log2 i 1 n := by
  intro a calls hrun hle
  obtain ⟨hJ, ⟨rfl, hstart⟩ | ⟨key, rfl, hafter⟩⟩ := hrun.one_column hlog hi (hle.trans hn)
  · refine ⟨⟨fun c key hmem => absurd hmem List.not_mem_nil, List.nodup_nil⟩, ?_⟩
    intro _ env key hlaw _
    rcases @first_call log2 hlog env hlaw a.pool key hstart with ⟨hdenied, p', hp⟩ | ⟨p', hp, _⟩
    · exact ⟨⟨p', 1⟩, none, tdarrIntNew_of hJ hp, fun _ => hdenied⟩
    · exact ⟨⟨p', 1⟩, some (1, 0), tdarrIntNew_of hJ hp,
        fun h => absurd h (Option.some_ne_none _)⟩
  · refine ⟨hafter.good hJ, fun hlt => absurd hlt ?_⟩
    rw [List.length_singleton]
    exact Nat.not_lt.mpr hn

include hlog hi in
/-- Two calls into one column do not. -/
theorem one_column_faults {n : Nat} (hib : i * 8 ≤ ptrdiffMax) (hn : 2 ≤ n) :
    ¬ TdarrLaw log2 i 1 n := by
  intro hlaw
  have hbytes : i * 8 % 2 ^ 64 = i * 8 := by
    rw [ptrdiffMax] at hib
    exact Nat.mod_eq_of_lt (by omega)
  have htable : (generous (0 : Int)).malloc (i * 8) = true := decide_eq_true hib
  have hrow : (generous (0 : Int)).malloc (1 * 4) = true := by decide
  obtain ⟨a₀, hinit⟩ : ∃ a₀, tdarrInit (generous 0) i 1 = some a₀ := by
    have hset := setAt_natCast ((List.range i).map (generous (0 : Int)).entry) (none : Option Nat)
      (show 0 < _ by rw [List.length_map, List.length_range]; exact hi)
    rw [Nat.cast_zero] at hset
    refine ⟨⟨⟨((List.range i).map (generous (0 : Int)).entry).set 0 none, 0, 0, i, []⟩, 1⟩, ?_⟩
    rw [tdarrInit, hbytes, Nat.mul_div_cancel _ (by decide), htable, hset]
    rfl
  obtain ⟨hstart, hJ⟩ := tdarrInit_start hi hib hinit
  rcases @first_call log2 hlog (generous 0) (generous_lawful 0) a₀.pool 0 hstart with
    ⟨hdenied, _⟩ | ⟨p, hp, hafter⟩
  · refine absurd hdenied (generous_grants hlog ?_ ?_)
    · rw [hstart.i_zero]
      exact hstart.room
    · rw [hstart.i_zero]
      exact Nat.zero_le 1
  · have hrun := TdRun.new (.init (generous_lawful 0) htable hinit) (generous_lawful 0) hrow
      (tdarrIntNew_of hJ hp)
    obtain ⟨a', r, hnew, _⟩ := (hlaw _ _ hrun (Nat.le_of_succ_le hn)).2 hn (generous 0) 1
      (generous_lawful 0) hrow
    obtain ⟨-, hcell⟩ := tdarrIntNew_some rfl hnew
    exact absurd (hcell.symm.trans (second_faults hlog hafter 1)) (Option.some_ne_none _)

end Law

end TdArray
