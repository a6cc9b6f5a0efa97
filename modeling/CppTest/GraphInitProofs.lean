import CppTest.GraphProofs
import CppTest.ScanProofs

/-! # Loading a graph (`graph_init` in `src/algs/algorithms4th/graph.cpp`)

    The file is the list of the characters that are left to read.

    * `graphInit` reads the two counts, adds the vertices and then reads pairs of numbers
      until `fscanf` returns `EOF`.  A number outside the range of its type, which the
      language leaves open, wraps.
    * `initPass` is one turn of that loop.  Where `fscanf` finds neither a number nor the
      end, the loop continues, and the character that is in the way stays where it is:
      `graphInit_never`.
    * The function returns for exactly the texts without such a character:
      `graph_init_returns`. -/

namespace AlgsGraph

open Machine RbTree LinkedTree Adjacency Scan

variable {ω : Type}

/-! ## The model -/

/-- What the calls made by `graph_init` find in memory. -/
structure InitMem (ω : Type) where
  vertex : Nat → Recycled ω
  edge : Nat → Recycled ω × Recycled ω

/-- The result of `fscanf(in, "%d%d", &w, &x)`: `EOF`, less than 2, or 2. -/
inductive ScannedPair where
  | eof
  | few (rest : List Char)
  | both (w x : Int) (rest : List Char)
  deriving Repr, DecidableEq

/-- `fscanf(in, "%d%d", &w, &x)`. -/
def scanPair (s : List Char) : ScannedPair :=
  match number s with
  | .eof => .eof
  | .mismatch rest => .few rest
  | .value w rest =>
      match number rest with
      | .value x rest => .both (wrap32 w) (wrap32 x) rest
      | .mismatch rest => .few rest
      | .eof => .few []

/-- The loop over the vertices; `i` is a `size_t` and becomes an `int`. -/
def addVertices (mem : Nat → Recycled ω) : Graph ω → List Nat → Option (Graph ω × Int)
  | g, [] => some (g, 0)
  | g, i :: is => do
      let (g, r) ← graphAddVertex (mem i) g (wrap32 i)
      if r ≠ 0 then some (g, -1) else addVertices mem g is

/-- One turn of the loop over the edges, the `k`-th of them next. -/
def initPass (mem : Nat → Recycled ω × Recycled ω) (weight : ω) :
    List Char × Graph ω × Nat → Option (Pass (List Char × Graph ω × Nat) (Graph ω))
  | (s, g, k) =>
      match scanPair s with
      | .eof => some (.done g)
      | .few rest => some (.next (rest, g, k))
      | .both w x rest => do
          -- an edge that is refused is reported and skipped
          let (g, _) ← graphAddEdge (mem k) g w x weight
          some (.next (rest, g, k + 1))

/-- `graph_init`: the graph and `g.e` afterwards, and the returned value. -/
def graphInit (mem : InitMem ω) (weight : ω) (fuel : Nat) (g : Graph ω) (e : Nat)
    (s : List Char) : Option (Graph ω × Nat × Int) :=
  match number s with
  | .value v s =>
      let g := { g with v := (wrap64 v).toNat }
      match number s with
      | .value e s => do
          let e := (wrap64 e).toNat
          let (g, r) ← addVertices mem.vertex g (List.range g.v)
          if r ≠ 0 then some (g, e, -1)
          else do
            let g ← loop (initPass mem.edge weight) fuel (s, g, 0)
            some (g, e, 0)
      | _ => some (g, e, -1)
  | _ => some (g, e, -1)

/-! ## What a turn takes from the text -/

/-- What `fscanf` leaves of the text. -/
def ScannedPair.rest : ScannedPair → List Char
  | .eof => []
  | .few rest => rest
  | .both _ _ rest => rest

/-- The second conversion takes over where the first has found a number. -/
theorem scanPair_rest (s : List Char) :
    (scanPair s).rest = (number s).rest
      ∨ ∃ w rest, number s = .value w rest ∧ (scanPair s).rest = (number rest).rest := by
  rw [scanPair]
  cases hs : number s with
  | eof => exact .inl rfl
  | mismatch rest => exact .inl rfl
  | value w rest =>
      refine .inr ⟨w, rest, rfl, ?_⟩
      dsimp only
      cases hr : number rest with
      | eof => rfl
      | mismatch rest' => rfl
      | value x rest' => rfl

theorem scanPair_used (s : List Char) :
    ∃ used, s = used ++ (scanPair s).rest ∧ ∀ c ∈ used, Numeric c := by
  obtain ⟨used, hused, hnum⟩ := number_used s
  rcases scanPair_rest s with hrest | ⟨w, rest, hs, hrest⟩
  · exact ⟨used, by rw [hrest]; exact hused, hnum⟩
  · obtain ⟨used', hused', hnum'⟩ := number_used rest
    rw [hs] at hused
    refine ⟨used ++ used', ?_, List.forall_mem_append.mpr ⟨hnum, hnum'⟩⟩
    rw [hrest, List.append_assoc, ← hused']
    exact hused

theorem scanPair_eof {s : List Char} (h : scanPair s = .eof) : ∀ c ∈ s, Numeric c := by
  obtain ⟨used, hused, hnum⟩ := scanPair_used s
  rw [h] at hused
  rw [hused]
  exact List.forall_mem_append.mpr ⟨hnum, fun c hc => nomatch hc⟩

theorem scanPair_shorter {s : List Char} (hs : ∀ c ∈ s, Numeric c) (h : scanPair s ≠ .eof) :
    (scanPair s).rest.length < s.length := by
  have hne : number s ≠ .eof := by
    intro heof
    exact h (by rw [scanPair, heof])
  have hlt := number_shorter hs hne
  rcases scanPair_rest s with hrest | ⟨w, rest, hw, hrest⟩
  · rw [hrest]
    exact hlt
  · obtain ⟨used, hused, -⟩ := number_used rest
    have hlen := congrArg List.length hused
    rw [List.length_append] at hlen
    rw [hw] at hlt
    have hlt : rest.length < s.length := hlt
    rw [hrest]
    omega

/-! ## One turn -/

section Turn
variable {mem : Nat → Recycled ω × Recycled ω} {weight : ω} {s : List Char} {g : Graph ω} {k : Nat}

theorem initPass_eof (h : scanPair s = .eof) :
    initPass mem weight (s, g, k) = some (.done g) := by
  simp only [initPass, h]

theorem initPass_few {rest : List Char} (h : scanPair s = .few rest) :
    initPass mem weight (s, g, k) = some (.next (rest, g, k)) := by
  simp only [initPass, h]

theorem initPass_both {w x : Int} {rest : List Char} (h : scanPair s = .both w x rest) :
    initPass mem weight (s, g, k)
      = (graphAddEdge (mem k) g w x weight).bind fun y => some (.next (rest, y.1, k + 1)) := by
  simp only [initPass, h]
  rfl

end Turn

/-! ## The loop that does not end -/

/-- **A character that is in the way stays.** -/
theorem initPass_stuck {mem : Nat → Recycled ω × Recycled ω} {weight : ω} :
    ∀ y : List Char × Graph ω × Nat, (∃ c ∈ y.1, ¬ Numeric c) →
      initPass mem weight y = none
      ∨ ∃ y', initPass mem weight y = some (.next y') ∧ ∃ c ∈ y'.1, ¬ Numeric c := by
  rintro ⟨s, g, k⟩ ⟨c, hc, hnum⟩
  obtain ⟨used, hused, hall⟩ := scanPair_used s
  have hkept : c ∈ (scanPair s).rest := by
    rcases List.mem_append.mp (hused ▸ hc) with hmem | hmem
    · exact absurd (hall c hmem) hnum
    · exact hmem
  cases hp : scanPair s with
  | eof => exact absurd (scanPair_eof hp c hc) hnum
  | few rest =>
      rw [hp] at hkept
      exact .inr ⟨(rest, g, k), initPass_few hp, c, hkept, hnum⟩
  | both w x rest =>
      rw [hp] at hkept
      rw [initPass_both hp]
      cases graphAddEdge (mem k) g w x weight with
      | none => exact .inl rfl
      | some y => exact .inr ⟨(rest, y.1, k + 1), rfl, c, hkept, hnum⟩

/-- Then the loop over the edges has no end, whatever memory holds. -/
theorem initPass_never {mem : Nat → Recycled ω × Recycled ω} {weight : ω} {s : List Char}
    (h : ∃ c ∈ s, ¬ Numeric c) (g : Graph ω) (k fuel : Nat) :
    loop (initPass mem weight) fuel (s, g, k) = none :=
  loop_never initPass_stuck fuel (s, g, k) h

/-! ## The loops that do -/

/-- The text after the two counts, if they can be read, consists of white space, signs and
    digits. -/
def Readable (s : List Char) : Prop :=
  ∀ v s₁ e s₂, number s = .value v s₁ → number s₁ = .value e s₂ → ∀ c ∈ s₂, Numeric c

/-- `graph_init` returns 0 or -1. -/
def Returns (mem : InitMem ω) (weight : ω) (g : Graph ω) (e : Nat) (s : List Char) : Prop :=
  ∃ g' e' r N, (∀ fuel, N ≤ fuel → graphInit mem weight fuel g e s = some (g', e', r))
    ∧ (r = 0 ∨ r = -1)

/-- The vertices are added with empty lists. -/
theorem addVertices_refines {mem : Nat → Recycled ω} (hzero : ∀ i, (mem i).i = 0) (is : List Nat) :
    ∀ {g : Graph ω} {ks : List Int} {A : Adj Int ω} {t : LTree (NodeVal BagPtr)},
      Refines g ks A t → 0 < g.v ∨ is = [] →
      ∃ g' t', addVertices mem g is = some (g', 0) ∧ SameKind g g' ∧
        Refines g' (ks ++ is.map fun i : Nat => wrap32 i)
          (is.foldl (fun A (i : Nat) => addVertex A (wrap32 i)) A) t' := by
  induction is with
  | nil =>
      intro g ks A t h _
      refine ⟨g, t, rfl, ⟨rfl, rfl, rfl⟩, ?_⟩
      rw [List.map_nil, List.append_nil]
      exact h
  | cons i is ih =>
      intro g ks A t h hv
      have hv : 0 < g.v := hv.resolve_right (List.cons_ne_nil i is)
      obtain ⟨tr, gb, t', hrun, href⟩ := h.addVertex hv (hzero i) (wrap32 i)
      obtain ⟨g', t'', hrest, hsame, href'⟩ := ih href (.inl hv)
      refine ⟨g', t'', ?_, ⟨hsame.v, hsame.direct, hsame.weight⟩, ?_⟩
      · rw [addVertices, hrun]
        exact hrest
      · rw [List.append_assoc] at href'
        exact href'

theorem addVertices_spec {mem : Nat → Recycled ω} (hzero : ∀ i, (mem i).i = 0) (is : List Nat)
    {g : Graph ω} {ks : List Int} {A : Adj Int ω} {t : LTree (NodeVal BagPtr)}
    (h : Refines g ks A t) (hv : 0 < g.v ∨ is = []) :
    ∃ g' ks' A' t', addVertices mem g is = some (g', 0) ∧ Refines g' ks' A' t' := by
  obtain ⟨g', t', hrun, -, href⟩ := addVertices_refines hzero is h hv
  exact ⟨g', _, _, t', hrun, href⟩

/-- A turn on a text of numbers makes it shorter, until there is none left. -/
theorem initPass_spec {mem : Nat → Recycled ω × Recycled ω} {weight : ω} :
    ∀ n (y : List Char × Graph ω × Nat),
      (∀ c ∈ y.1, Numeric c) ∧ y.1.length ≤ n ∧ (∃ ks A t, Refines y.2.1 ks A t) →
      (∃ g, initPass mem weight y = some (.done g) ∧ True)
      ∨ ∃ y' n', initPass mem weight y = some (.next y') ∧ n' < n
          ∧ (∀ c ∈ y'.1, Numeric c) ∧ y'.1.length ≤ n' ∧ (∃ ks A t, Refines y'.2.1 ks A t) := by
  rintro n ⟨s, g, k⟩ ⟨hs, hn, ks, A, t, h⟩
  dsimp only at hs hn h
  obtain ⟨used, hused, -⟩ := scanPair_used s
  have hnum : ∀ c ∈ (scanPair s).rest, Numeric c :=
    fun c hc => hs c (hused ▸ List.mem_append_right used hc)
  have hshort := scanPair_shorter hs
  cases hp : scanPair s with
  | eof => exact .inl ⟨g, initPass_eof hp, trivial⟩
  | few rest =>
      rw [hp] at hnum hshort
      have hlt : rest.length < s.length := hshort fun heof => nomatch heof
      have hle : rest.length ≤ n - 1 := by omega
      exact .inr ⟨(rest, g, k), n - 1, initPass_few hp, by omega, hnum, hle, ks, A, t, h⟩
  | both w x rest =>
      rw [hp] at hnum hshort
      have hlt : rest.length < s.length := hshort fun heof => nomatch heof
      have hle : rest.length ≤ n - 1 := by omega
      obtain ⟨bags, hedge, href, -⟩ := h.addEdge (mem k) ⟨w, x, weight⟩
      dsimp only at hedge
      refine .inr ⟨(rest, { g with bags := bags }, k + 1), n - 1, ?_, by omega, hnum, hle, ks,
        _, t, href⟩
      rw [initPass_both hp, hedge]
      rfl

/-- **A text of numbers is read to its end.** -/
theorem initPass_total (mem : Nat → Recycled ω × Recycled ω) (weight : ω) {s : List Char}
    (hs : ∀ c ∈ s, Numeric c) {g : Graph ω} {ks : List Int} {A : Adj Int ω}
    {t : LTree (NodeVal BagPtr)} (h : Refines g ks A t) :
    ∃ g' N, ∀ fuel, N ≤ fuel → loop (initPass mem weight) fuel (s, g, 0) = some g' := by
  obtain ⟨g', -, hrun⟩ := loop_total initPass_spec s.length (s, g, 0)
    ⟨hs, Nat.le_refl _, ks, A, t, h⟩
  exact ⟨g', s.length + 1, fun fuel hfuel => hrun fuel (by omega)⟩

/-! ## `graph_init` -/

/-- The counts are read and the vertices added: what remains is the loop over the edges. -/
theorem graphInit_eq {mem : InitMem ω} {weight : ω} {g g' : Graph ω} {e₀ : Nat} {v e : Int}
    {s s₁ s₂ : List Char} {r : Int} (hv : number s = .value v s₁) (he : number s₁ = .value e s₂)
    (hadd : addVertices mem.vertex { g with v := (wrap64 v).toNat } (List.range (wrap64 v).toNat)
      = some (g', r)) (fuel : Nat) :
    graphInit mem weight fuel g e₀ s
      = if r ≠ 0 then some (g', (wrap64 e).toNat, -1)
        else (loop (initPass mem.edge weight) fuel (s₂, g', 0)).bind fun g =>
          some (g, (wrap64 e).toNat, 0) := by
  rw [graphInit]
  simp only [hv, he, hadd, Option.bind_eq_bind, Option.bind_some]

/-- Without the two counts it returns -1. -/
theorem graphInit_refused (mem : InitMem ω) (weight : ω) (g : Graph ω) (e₀ : Nat) {s : List Char}
    (h : ∀ v s₁ e s₂, number s = .value v s₁ → number s₁ ≠ .value e s₂) :
    ∃ g', ∀ fuel, graphInit mem weight fuel g e₀ s = some (g', e₀, -1) := by
  cases hv : number s with
  | eof => exact ⟨g, fun fuel => by simp only [graphInit, hv]⟩
  | mismatch s₁ => exact ⟨g, fun fuel => by simp only [graphInit, hv]⟩
  | value v s₁ =>
      refine ⟨{ g with v := (wrap64 v).toNat }, fun fuel => ?_⟩
      cases he : number s₁ with
      | eof => simp only [graphInit, hv, he]
      | mismatch s₂ => simp only [graphInit, hv, he]
      | value e s₂ => exact absurd he (h v s₁ e s₂ hv)

theorem graphAddVertex_zero {old : Recycled ω} {g g' : Graph ω} {v r : Int}
    (h : graphAddVertex old g v = some (g', r)) : r = 0 := by
  rw [graphAddVertex] at h
  obtain ⟨gb, -, h⟩ := Option.bind_eq_some_iff.mp h
  obtain ⟨tr, -, h⟩ := Option.bind_eq_some_iff.mp h
  exact (Prod.mk.inj (Option.some.inj h)).2.symm

theorem addVertices_zero {mem : Nat → Recycled ω} (is : List Nat) :
    ∀ {g g' : Graph ω} {r : Int}, addVertices mem g is = some (g', r) → r = 0 := by
  induction is with
  | nil => exact fun {g g' r} h => (Prod.mk.inj (Option.some.inj h)).2.symm
  | cons i is ih =>
      intro g g' r h
      rw [addVertices] at h
      obtain ⟨⟨g₁, r₁⟩, hadd, h⟩ := Option.bind_eq_some_iff.mp h
      dsimp only at h
      rw [if_neg (not_not.mpr (graphAddVertex_zero hadd))] at h
      exact ih h

/-- With such a character behind the counts `graph_init` does not return, whatever memory
    holds. -/
theorem graphInit_never {mem : InitMem ω} {weight : ω} {g : Graph ω} {e₀ : Nat} {v e : Int}
    {s s₁ s₂ : List Char} (hv : number s = .value v s₁) (he : number s₁ = .value e s₂)
    (h : ∃ c ∈ s₂, ¬ Numeric c) (fuel : Nat) : graphInit mem weight fuel g e₀ s = none := by
  cases hadd : addVertices mem.vertex { g with v := (wrap64 v).toNat }
      (List.range (wrap64 v).toNat) with
  | none =>
      rw [graphInit]
      simp only [hv, he, hadd, Option.bind_eq_bind, Option.bind_none]
  | some y =>
      obtain ⟨g', r⟩ := y
      rw [graphInit_eq hv he hadd, if_neg (not_not.mpr (addVertices_zero _ hadd)),
        initPass_never h]
      rfl

/-- **`graph_init` RETURNS FOR READABLE TEXTS ONLY.**  Whatever memory holds, it returns only
    if the text behind the two counts is made of white space, signs and digits; and then it
    does, if the memory that becomes the field `i` of a new bag is zero. -/
theorem graph_init_returns (direct weight : Bool) (v₀ e₀ : Nat) (mem : InitMem ω) (x : ω)
    (s : List Char) :
    (Returns mem x (emptyGraph direct weight v₀) e₀ s → Readable s)
    ∧ ((∀ i, (mem.vertex i).i = 0) →
        (Returns mem x (emptyGraph direct weight v₀) e₀ s ↔ Readable s)) := by
  have honly : Returns mem x (emptyGraph direct weight v₀) e₀ s → Readable s := by
    rintro ⟨g', e', r, N, hrun, -⟩ v s₁ e s₂ hv he c hc
    by_contra hnum
    have hrunN := hrun N (Nat.le_refl N)
    rw [graphInit_never hv he ⟨c, hc, hnum⟩] at hrunN
    exact nomatch hrunN
  refine ⟨honly, fun hzero => ⟨honly, fun hread => ?_⟩⟩
  by_cases hcounts : ∃ v s₁ e s₂, number s = .value v s₁ ∧ number s₁ = .value e s₂
  · obtain ⟨v, s₁, e, s₂, hv, he⟩ := hcounts
    have hpos : 0 < (wrap64 v).toNat ∨ List.range (wrap64 v).toNat = [] := by
      rcases Nat.eq_zero_or_pos (wrap64 v).toNat with h0 | hpos
      · exact .inr (by rw [h0]; rfl)
      · exact .inl hpos
    obtain ⟨g₁, ks, A, t, hadd, href⟩ := addVertices_spec hzero (List.range (wrap64 v).toNat)
      (refines_emptyGraph direct weight (wrap64 v).toNat) hpos
    obtain ⟨g₂, N, hloop⟩ := initPass_total mem.edge x (hread v s₁ e s₂ hv he) href
    refine ⟨g₂, (wrap64 e).toNat, 0, N, fun fuel hfuel => ?_, .inl rfl⟩
    rw [graphInit_eq hv he hadd, if_neg (by decide), hloop fuel hfuel]
    rfl
  · obtain ⟨g', hrun⟩ := graphInit_refused mem x (emptyGraph direct weight v₀) e₀
      fun v s₁ e s₂ hv he => hcounts ⟨v, s₁, e, s₂, hv, he⟩
    exact ⟨g', e₀, -1, 0, fun fuel _ => hrun fuel, .inr rfl⟩

/-- Memory that holds zeros. -/
def clearedMem : InitMem Int := ⟨fun _ => ⟨0, fun _ => none, fun _ => 0⟩,
  fun _ => (⟨0, fun _ => none, fun _ => 0⟩, ⟨0, fun _ => none, fun _ => 0⟩)⟩

theorem graph_init_returns_edge :
    Returns clearedMem 0 (emptyGraph false false 0) 0 ['2', ' ', '1', ' ', '0', ' ', '-', '1'] := by
  refine ((graph_init_returns false false 0 0 clearedMem 0 _).2 fun _ => rfl).mpr ?_
  have hv₀ : number ['2', ' ', '1', ' ', '0', ' ', '-', '1']
      = .value 2 [' ', '1', ' ', '0', ' ', '-', '1'] := by decide
  have he₀ : number [' ', '1', ' ', '0', ' ', '-', '1'] = .value 1 [' ', '0', ' ', '-', '1'] := by
    decide
  intro v s₁ e s₂ hv he
  obtain ⟨-, rfl⟩ := Conv.value.inj (hv₀.symm.trans hv)
  obtain ⟨-, rfl⟩ := Conv.value.inj (he₀.symm.trans he)
  have hall : [' ', '0', ' ', '-', '1'].all (fun c => decide (Numeric c)) = true := by decide
  exact fun c hc => of_decide_eq_true (List.all_eq_true.mp hall c hc)

/-- After the counts of `"1 0 x"` comes an `x`: `graph_init` never returns, and the loop is
    back where it was after every turn. -/
theorem graph_init_stuck :
    (∀ fuel, graphInit clearedMem 0 fuel (emptyGraph false false 0) 0 ['1', ' ', '0', ' ', 'x']
        = none)
    ∧ ∀ g k, initPass clearedMem.edge 0 (['x'], g, k) = some (.next (['x'], g, k)) := by
  have hv : number ['1', ' ', '0', ' ', 'x'] = .value 1 [' ', '0', ' ', 'x'] := by decide
  have he : number [' ', '0', ' ', 'x'] = .value 0 [' ', 'x'] := by decide
  exact ⟨graphInit_never hv he ⟨'x', by decide, by decide⟩, fun _ _ => initPass_few (by decide)⟩

end AlgsGraph
