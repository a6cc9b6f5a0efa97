import Mathlib.Algebra.BigOperators.Group.List.Basic
import Mathlib.Order.Bounds.Basic
import CppTest.CtiGraphProofs

/-! # Cutting a rod (`src/algs/intro_to_algs3th/dynamic_programming.cpp`)

    Three functions for the largest price of a rod that is cut into pieces: a recursion, a
    table of values, and a template that also emits the first cuts.

    * What they are for: the prices of all ways to cut a rod (`revenues`), and how a first cut
      leaves a shorter rod (`mem_revenues_iff`).
    * The template computes the largest price, and its cuts lead to pieces of that price
      (`bottomUpCutRodIt_spec`, `follow_spec`); only the loop counters overflow at the
      largest `int` (`cut_rod_law_iff`).
    * The recursion forgets all cuts but the last (`cutRod_eq`), and the table of values starts
      from the LARGEST `int` (`bottomUpCutRod_eq`).  When the three agree:
      `cut_rods_agree_iff`. -/

namespace CutRod

open Machine CtiGraph

/-! ## The model -/

/-- `cut_rod`.  The length that is left is `n + 1 - i`, for `i` from 1 to `n + 1`. -/
def cutRod (p : List Int) : Nat → Option Int
  | 0 => some 0
  | n + 1 => forTo (n + 1) (fun _ i => do
      some (max (← getAt p (i - 1)) (← cutRod p (n - (i - 1))))) intMin
  termination_by n => n

/-- A pass of the inner loop of `bottom_up_cut_rod(p, n)`, at `q`. -/
def valuePass (p : List Int) (r : Nat → Int) (j : Nat) (q : Int) (i : Nat) : Option Int := do
  some (max q (← int32 ((← getAt p (i - 1)) + r (j - i))))

/-- A pass of its outer loop: the map `r`, with the value 0 for a key that is not in it. -/
def valuesPass (p : List Int) (r : Nat → Int) (j : Nat) : Option (Nat → Int) := do
  let q ← forTo j (valuePass p r j) intMax
  some (Function.update r j q)

/-- `bottom_up_cut_rod(p, n)`. -/
def bottomUpCutRod (p : List Int) (n : Nat) : Option Int := do
  let r ← forTo n (valuesPass p) (fun _ => 0)
  some (r n)

/-- A pass of the inner loop of the template: `q` and the map `s`. -/
def bestCutPass (p : List Int) (r : Nat → Int) (j : Nat) :
    Int × List (Int × Int) → Nat → Option (Int × List (Int × Int))
  | (q, s), i => do
      let v ← int32 ((← getAt p (i - 1)) + r (j - i))
      if q < v then some (v, mapSet j (i : Int) s) else some (q, s)

/-- A pass of the outer loop: the maps `r` and `s`. -/
def tablePass (p : List Int) : (Nat → Int) × List (Int × Int) → Nat →
    Option ((Nat → Int) × List (Int × Int))
  | (r, s), j => do
      let (q, s) ← forTo j (bestCutPass p r j) (intMin, s)
      some (Function.update r j q, s)

/-- The template `bottom_up_cut_rod(p, n, it)`: its value, and what goes through the iterator. -/
def bottomUpCutRodIt (p : List Int) (n : Nat) : Option (Int × List Int) := do
  let (r, s) ← forTo n (tablePass p) (fun _ => 0, [])
  some (r n, s.map Prod.snd)

/-- One pass of the loop of `test_cut_rod_main` that prints the pieces. -/
def followPass (solutions : List Int) : Int × List Int → Option (Pass (Int × List Int) (List Int))
  | (n, parts) =>
      if 0 < n then do
        let c ← getAt solutions (n - 1)
        some (.next (wrap64 (n - c), parts ++ [c]))
      else some (.done parts)

/-! ## Ways to cut a rod -/

/-- The price of a piece. -/
def priceOf (p : List Int) (k : Nat) : Int := p.getD (k - 1) 0

/-- The price of all pieces. -/
def total (p : List Int) (parts : List Nat) : Int := (parts.map (priceOf p)).sum

/-- The pieces of a rod of length `n`. -/
structure Cuts (n : Nat) (parts : List Nat) : Prop where
  pos : ∀ k ∈ parts, 0 < k
  sum : parts.sum = n

/-- The prices of all ways to cut a rod of length `n`. -/
def revenues (p : List Int) (n : Nat) : Set Int := {v | ∃ parts, Cuts n parts ∧ total p parts = v}

theorem getAt_price {p : List Int} {k : Nat} (hpos : 0 < k) (hk : k ≤ p.length) :
    getAt p ((k : Int) - 1) = some (priceOf p k) := by
  have hcast : (k : Int) - 1 = ((k - 1 : Nat) : Int) := by omega
  rw [hcast, getAt_natCast]
  exact getElem?_getD 0 (by omega)

theorem cuts_nil : Cuts 0 [] := ⟨fun _ h => absurd h List.not_mem_nil, rfl⟩

theorem Cuts.cons {n k : Nat} {parts : List Nat} (h : Cuts n parts) (hk : 0 < k) :
    Cuts (k + n) (k :: parts) :=
  ⟨List.forall_mem_cons.mpr ⟨hk, h.pos⟩, by rw [List.sum_cons, h.sum]⟩

theorem total_cons (p : List Int) (k : Nat) (parts : List Nat) :
    total p (k :: parts) = priceOf p k + total p parts := by
  rw [total, List.map_cons, List.sum_cons]
  rfl

theorem revenues_zero (p : List Int) : IsGreatest (revenues p 0) 0 := by
  refine ⟨⟨[], cuts_nil, rfl⟩, ?_⟩
  rintro v ⟨parts, hcuts, rfl⟩
  cases parts with
  | nil => exact le_refl _
  | cons k parts =>
      have hk := hcuts.pos k List.mem_cons_self
      have hsum := hcuts.sum
      rw [List.sum_cons] at hsum
      omega

/-- **A first cut** leaves a shorter rod. -/
theorem mem_revenues_iff {p : List Int} {n : Nat} (hn : 0 < n) {v : Int} :
    v ∈ revenues p n ↔ ∃ k, 0 < k ∧ k ≤ n ∧ ∃ w ∈ revenues p (n - k), v = priceOf p k + w := by
  constructor
  · rintro ⟨parts, hcuts, rfl⟩
    cases parts with
    | nil =>
        have hsum := hcuts.sum
        rw [List.sum_nil] at hsum
        omega
    | cons k parts =>
        have hk := hcuts.pos k List.mem_cons_self
        have hsum := hcuts.sum
        rw [List.sum_cons] at hsum
        refine ⟨k, hk, by omega, total p parts, ⟨parts, ⟨?_, by omega⟩, rfl⟩, total_cons p k parts⟩
        exact fun x hx => hcuts.pos x (List.mem_cons_of_mem k hx)
  · rintro ⟨k, hk, hkn, w, ⟨parts, hcuts, rfl⟩, rfl⟩
    refine ⟨k :: parts, ?_, total_cons p k parts⟩
    have hlen : k + (n - k) = n := by omega
    exact hlen ▸ hcuts.cons hk

/-- The best price of a rod is that of the best first cut. -/
theorem isGreatest_revenues {p : List Int} {n : Nat} (hn : 0 < n) {r : Nat → Int}
    (hr : ∀ k < n, IsGreatest (revenues p k) (r k)) {q : Int}
    (hq : IsGreatest {v | ∃ k, 0 < k ∧ k ≤ n ∧ v = priceOf p k + r (n - k)} q) :
    IsGreatest (revenues p n) q := by
  obtain ⟨⟨k, hk, hkn, rfl⟩, hupper⟩ := hq
  refine ⟨(mem_revenues_iff hn).mpr ⟨k, hk, hkn, r (n - k), (hr (n - k) (by omega)).1, rfl⟩, ?_⟩
  intro v hv
  obtain ⟨k', hk', hkn', w, hw, rfl⟩ := (mem_revenues_iff hn).mp hv
  have hbest : w ≤ r (n - k') := (hr (n - k') (by omega)).2 hw
  have hcut := hupper ⟨k', hk', hkn', rfl⟩
  omega

/-! ## The map of first cuts -/

theorem mapSet_mapSet (k v w : Int) (m : List (Int × Int)) :
    mapSet k v (mapSet k w m) = mapSet k v m := by
  induction m with
  | nil => simp [mapSet]
  | cons e m ih =>
      simp only [mapSet]
      by_cases hlt : k < e.1
      · simp [mapSet, hlt]
      · by_cases heq : k = e.1
        · simp [mapSet, heq]
        · simp [mapSet, hlt, heq, ih]

/-- A new largest key comes last. -/
theorem mapSet_last {k v : Int} : ∀ {m : List (Int × Int)}, (∀ e ∈ m, e.1 < k) →
    mapSet k v m = m ++ [(k, v)] := by
  intro m
  induction m with
  | nil => exact fun _ => rfl
  | cons e m ih =>
      intro h
      have he : e.1 < k := h e List.mem_cons_self
      rw [mapSet, if_neg (by omega), if_neg (by omega), ih fun e' h' => h e' (.tail e h')]
      rfl

/-! ## The template -/

/-- The value of a rod of length `j` with a first cut at `k`. -/
def cutValue (p : List Int) (r : Nat → Int) (j k : Nat) : Int := priceOf p k + r (j - k)

/-- The inner loop after `i` cuts have been tried. -/
structure Tried (p : List Int) (r : Nat → Int) (j : Nat) (s : List (Int × Int)) (i : Nat)
    (state : Int × List (Int × Int)) : Prop where
  upper : ∀ k, 0 < k → k ≤ i → cutValue p r j k ≤ state.1
  attained : state = (intMin, s)
    ∨ ∃ c : Nat, 0 < c ∧ c ≤ i ∧ state = (cutValue p r j c, mapSet j (c : Int) s)

theorem Tried.pass {p : List Int} {r : Nat → Int} {j i : Nat} {s : List (Int × Int)}
    {state : Int × List (Int × Int)} (h : Tried p r j s i state) (hi : i < j) (hlen : j ≤ p.length)
    (hlo : intMin ≤ cutValue p r j (i + 1)) (hhi : cutValue p r j (i + 1) ≤ intMax) :
    ∃ state', bestCutPass p r j state (i + 1) = some state' ∧ Tried p r j s (i + 1) state' := by
  obtain ⟨q, s'⟩ := state
  obtain ⟨hupper, hattained⟩ := h
  have hread := getAt_price (p := p) (Nat.succ_pos i) (by omega)
  have hpass : bestCutPass p r j (q, s') (i + 1)
      = if q < cutValue p r j (i + 1) then
          some (cutValue p r j (i + 1), mapSet j ((i + 1 : Nat) : Int) s')
        else some (q, s') := by
    rw [bestCutPass, hread]
    simp only [Option.bind_eq_bind, Option.bind_some]
    rw [← cutValue, int32_eq hlo hhi]
    rfl
  rw [hpass]
  by_cases hlt : q < cutValue p r j (i + 1)
  · rw [if_pos hlt]
    refine ⟨_, rfl, ?_, .inr ⟨i + 1, Nat.succ_pos i, Nat.le_refl _, ?_⟩⟩
    · intro k hk hle
      rcases Nat.lt_or_eq_of_le hle with hlt' | rfl
      · exact (hupper k hk (by omega)).trans (Int.le_of_lt hlt)
      · exact le_refl _
    · rcases hattained with h | ⟨c, -, -, h⟩
      · rw [(Prod.mk.inj h).2]
      · rw [(Prod.mk.inj h).2, mapSet_mapSet]
  · rw [if_neg hlt]
    refine ⟨_, rfl, ?_, ?_⟩
    · intro k hk hle
      rcases Nat.lt_or_eq_of_le hle with hlt' | rfl
      · exact hupper k hk (by omega)
      · exact Int.not_lt.mp hlt
    · rcases hattained with h | ⟨c, hc, hci, h⟩
      · exact .inl h
      · exact .inr ⟨c, hc, by omega, h⟩

/-- **The inner loop** finds the best first cut and enters it in the map; only where every value
    is the smallest `int` there may be no entry. -/
theorem bestCut_spec {p : List Int} {r : Nat → Int} {j : Nat} (s : List (Int × Int)) (hj : 0 < j)
    (hlen : j ≤ p.length) (hmax : (j : Int) < intMax)
    (hrange : ∀ k, 0 < k → k ≤ j → intMin ≤ cutValue p r j k ∧ cutValue p r j k ≤ intMax) :
    ∃ q s', forTo j (bestCutPass p r j) (intMin, s) = some (q, s')
      ∧ IsGreatest {v | ∃ k, 0 < k ∧ k ≤ j ∧ v = cutValue p r j k} q
      ∧ ((∀ k, 0 < k → k ≤ j → intMin < cutValue p r j k) →
        ∃ c : Nat, 0 < c ∧ c ≤ j ∧ q = cutValue p r j c ∧ s' = mapSet j (c : Int) s) := by
  have hzero : Tried p r j s 0 (intMin, s) := ⟨fun k hk hle => by omega, .inl rfl⟩
  have hpass : ∀ i state, i < j → Tried p r j s i state →
      ∃ state', bestCutPass p r j state (i + 1) = some state' ∧ Tried p r j s (i + 1) state' := by
    intro i state hi h
    obtain ⟨hlo, hhi⟩ := hrange (i + 1) (Nat.succ_pos i) hi
    exact h.pass hi hlen hlo hhi
  obtain ⟨⟨q, s'⟩, hrun, hupper, hattained⟩ := forTo_keeps hmax hzero hpass
  have hone := hupper 1 Nat.one_pos hj
  obtain ⟨hlo, -⟩ := hrange 1 Nat.one_pos hj
  refine ⟨q, s', hrun, ⟨?_, ?_⟩, ?_⟩
  · rcases hattained with h | ⟨c, hc, hcj, h⟩
    · obtain ⟨rfl, -⟩ := Prod.mk.inj h
      exact ⟨1, Nat.one_pos, hj, Int.le_antisymm hlo hone⟩
    · exact ⟨c, hc, hcj, (Prod.mk.inj h).1⟩
  · rintro v ⟨k, hk, hkj, rfl⟩
    exact hupper k hk hkj
  · intro hstrict
    rcases hattained with h | ⟨c, hc, hcj, h⟩
    · obtain ⟨rfl, -⟩ := Prod.mk.inj h
      exact absurd (hstrict 1 Nat.one_pos hj) (Int.not_lt.mpr hone)
    · obtain ⟨hq, hs'⟩ := Prod.mk.inj h
      exact ⟨c, hc, hcj, hq, hs'⟩

/-- All sums are in the range of `int`. -/
def InRange (p : List Int) (n : Nat) : Prop :=
  ∀ k ≤ n, ∀ v ∈ revenues p k, intMin ≤ v ∧ v ≤ intMax

theorem InRange.price {p : List Int} {n k : Nat} (h : InRange p n) (hk : 0 < k) (hkn : k ≤ n) :
    intMin ≤ priceOf p k ∧ priceOf p k ≤ intMax := by
  refine h k hkn _ ((mem_revenues_iff hk).mpr ⟨k, hk, Nat.le_refl k, 0, ?_, (Int.add_zero _).symm⟩)
  rw [Nat.sub_self]
  exact (revenues_zero p).1

/-- No sum is the smallest `int`. -/
def AboveMin (p : List Int) (n : Nat) : Prop := ∀ k ≤ n, ∀ v ∈ revenues p k, intMin < v

/-- The map `s` has for every length the first cut of a best way. -/
structure FirstCuts (p : List Int) (r : Nat → Int) (j : Nat) (s : List (Int × Int))
    (cut : Nat → Nat) : Prop where
  entries : s = (List.range' 1 j).map fun k : Nat => ((k : Int), (cut k : Int))
  best : ∀ k, 0 < k → k ≤ j → 0 < cut k ∧ cut k ≤ k ∧ r k = cutValue p r k (cut k)

/-- The two maps when the lengths up to `j` are done. -/
structure Table (p : List Int) (n j : Nat) (state : (Nat → Int) × List (Int × Int)) : Prop where
  values : ∀ k ≤ j, IsGreatest (revenues p k) (state.1 k)
  cuts : AboveMin p n → ∃ cut, FirstCuts p state.1 j state.2 cut

theorem table_zero (p : List Int) (n : Nat) : Table p n 0 (fun _ => 0, []) := by
  refine ⟨?_, fun _ => ⟨fun _ => 0, rfl, fun k hk hle => by omega⟩⟩
  intro k hk
  obtain rfl : k = 0 := by omega
  exact revenues_zero p

/-- One more entry, for the next length. -/
theorem FirstCuts.snoc {p : List Int} {r : Nat → Int} {j c : Nat} {s : List (Int × Int)}
    {cut : Nat → Nat} {q : Int} (h : FirstCuts p r j s cut) (hc : 0 < c) (hcj : c ≤ j + 1)
    (hq : q = cutValue p r (j + 1) c) :
    FirstCuts p (Function.update r (j + 1) q) (j + 1)
      (mapSet ((j + 1 : Nat) : Int) (c : Int) s) (Function.update cut (j + 1) c) := by
  have hkeys : ∀ e ∈ s, e.1 < ((j + 1 : Nat) : Int) := by
    intro e he
    rw [h.entries] at he
    obtain ⟨k, hk, rfl⟩ := List.mem_map.mp he
    rw [List.mem_range'_1] at hk
    show (k : Int) < ((j + 1 : Nat) : Int)
    omega
  constructor
  · rw [mapSet_last hkeys, h.entries, List.range'_1_concat, List.map_append, Nat.add_comm 1 j]
    congr 1
    · refine List.map_congr_left ?_
      intro k hk
      rw [List.mem_range'_1] at hk
      rw [Function.update_of_ne (by omega)]
    · rw [List.map_singleton, Function.update_self]
  · intro k hk hle
    rcases Nat.lt_or_eq_of_le hle with hlt | rfl
    · obtain ⟨hpos, hcut, hval⟩ := h.best k hk (by omega)
      rw [Function.update_of_ne (by omega), Function.update_of_ne (by omega), cutValue,
        Function.update_of_ne (by omega)]
      exact ⟨hpos, hcut, hval⟩
    · rw [Function.update_self, Function.update_self, cutValue, Function.update_of_ne (by omega)]
      exact ⟨hc, hcj, hq⟩

/-- **A pass of the outer loop** of the template. -/
theorem Table.pass {p : List Int} {n j : Nat} {state : (Nat → Int) × List (Int × Int)}
    (h : Table p n j state) (hj : j < n) (hlen : n ≤ p.length) (hmax : (n : Int) < intMax)
    (hrange : InRange p n) :
    ∃ state', tablePass p state (j + 1) = some state' ∧ Table p n (j + 1) state' := by
  obtain ⟨r, s⟩ := state
  obtain ⟨hvalues, hcuts⟩ := h
  have hmem : ∀ k, 0 < k → k ≤ j + 1 → cutValue p r (j + 1) k ∈ revenues p (j + 1) := by
    intro k hk hle
    exact (mem_revenues_iff (Nat.succ_pos j)).mpr
      ⟨k, hk, hle, _, (hvalues (j + 1 - k) (by omega)).1, rfl⟩
  obtain ⟨q, s', hrun, hbest, hentry⟩ := bestCut_spec s (Nat.succ_pos j)
    (show j + 1 ≤ p.length by omega) (by omega)
    fun k hk hle => hrange (j + 1) hj _ (hmem k hk hle)
  refine ⟨(Function.update r (j + 1) q, s'), ?_, ?_, ?_⟩
  · rw [tablePass, hrun]
    rfl
  · intro k hk
    show IsGreatest (revenues p k) (Function.update r (j + 1) q k)
    rcases Nat.lt_or_eq_of_le hk with hlt | rfl
    · rw [Function.update_of_ne (by omega)]
      exact hvalues k (by omega)
    · rw [Function.update_self]
      exact isGreatest_revenues (Nat.succ_pos j) (fun k hk => hvalues k (by omega)) hbest
  · intro habove
    obtain ⟨cut, hfirst⟩ := hcuts habove
    obtain ⟨c, hc, hcj, hq, hs'⟩ := hentry fun k hk hle => habove (j + 1) hj _ (hmem k hk hle)
    subst hs'
    exact ⟨_, hfirst.snoc hc hcj hq⟩

/-- **The template** returns the largest price; and if no sum is the smallest `int`, what it
    emits are the first cuts of best ways, by length. -/
theorem bottomUpCutRodIt_spec {p : List Int} {n : Nat} (hlen : n ≤ p.length)
    (hmax : (n : Int) < intMax) (hrange : InRange p n) :
    ∃ r s, bottomUpCutRodIt p n = some (r n, s.map Prod.snd) ∧ Table p n n (r, s) := by
  have hpass : ∀ j state, j < n → Table p n j state →
      ∃ state', tablePass p state (j + 1) = some state' ∧ Table p n (j + 1) state' :=
    fun j state hj h => h.pass hj hlen hmax hrange
  obtain ⟨⟨r, s⟩, hrun, htable⟩ := forTo_keeps hmax (table_zero p n) hpass
  refine ⟨r, s, ?_, htable⟩
  rw [bottomUpCutRodIt, hrun]
  rfl

/-! ## Following the cuts -/

/-- The cuts lead from a length to its pieces, by induction on the length. -/
theorem follow_spec {p : List Int} {r : Nat → Int} {n : Nat} {s : List (Int × Int)}
    {cut : Nat → Nat} (h : FirstCuts p r n s cut) (hzero : r 0 = 0) (hmax : (n : Int) < intMax) :
    ∀ k ≤ n, ∃ parts : List Nat, Cuts k parts ∧ total p parts = r k
      ∧ ∀ fuel done, k < fuel → loop (followPass (s.map Prod.snd)) fuel ((k : Int), done)
        = some (done ++ parts.map fun c : Nat => (c : Int)) := by
  intro k
  induction k using Nat.strongRecOn with
  | ind k ih =>
      intro hkn
      rcases Nat.eq_zero_or_pos k with rfl | hk
      · refine ⟨[], cuts_nil, hzero.symm, ?_⟩
        intro fuel done hfuel
        rw [List.map_nil, List.append_nil]
        exact loop_done hfuel rfl
      · obtain ⟨hpos, hcut, hval⟩ := h.best k hk hkn
        obtain ⟨parts, hcuts, htotal, hrun⟩ := ih (k - cut k) (by omega) (by omega)
        have hwhole := hcuts.cons hpos
        rw [Nat.add_sub_cancel' hcut] at hwhole
        refine ⟨cut k :: parts, hwhole, ?_, ?_⟩
        · rw [total_cons, htotal, hval]
          rfl
        · intro fuel done hfuel
          have hread : getAt (s.map Prod.snd) ((k : Int) - 1) = some (cut k : Int) := by
            have hcast : (k : Int) - 1 = ((k - 1 : Nat) : Int) := by omega
            rw [hcast, getAt_natCast, h.entries, List.map_map, List.getElem?_map,
              List.getElem?_range' (by omega)]
            show some (cut (1 + 1 * (k - 1)) : Int) = some (cut k : Int)
            rw [Nat.one_mul, Nat.add_sub_cancel' hk]
          have hnext : wrap64 ((k : Int) - cut k) = ((k - cut k : Nat) : Int) := by
            rw [intMax] at hmax
            rw [Int.natCast_sub hcut]
            exact wrap64_eq (by omega) (by omega)
          have hpass : followPass (s.map Prod.snd) ((k : Int), done)
              = some (.next (((k - cut k : Nat) : Int), done ++ [(cut k : Int)])) := by
            rw [followPass, if_pos (by omega), hread]
            simp only [Option.bind_eq_bind, Option.bind_some, hnext]
          rw [loop_next (by omega) hpass, hrun _ _ (by omega), List.map_cons, List.append_assoc]
          rfl

/-- What the template is for: the largest price, and cuts that lead to pieces of this price. -/
def CutRodLaw (p : List Int) (n : Nat) : Prop :=
  ∃ value solutions, bottomUpCutRodIt p n = some (value, solutions)
    ∧ IsGreatest (revenues p n) value ∧ solutions.length = n
    ∧ ∃ parts : List Nat, Cuts n parts ∧ total p parts = value
      ∧ ∃ enough, ∀ fuel, enough < fuel →
        loop (followPass solutions) fuel ((n : Int), []) = some (parts.map fun c : Nat => (c : Int))

theorem bottomUpCutRodIt_overflows {p : List Int} {n : Nat} (hmax : intMax ≤ (n : Int)) :
    bottomUpCutRodIt p n = none := by
  rw [bottomUpCutRodIt, forTo_overflows hmax]
  rfl

/-- **The template** computes the largest price and its cuts for every length but the largest
    `int`, at which the loop counter overflows. -/
theorem cut_rod_law_iff {p : List Int} {n : Nat} (hlen : n ≤ p.length) (hrange : InRange p n)
    (habove : AboveMin p n) : CutRodLaw p n ↔ (n : Int) < intMax := by
  constructor
  · rintro ⟨value, solutions, hrun, -⟩
    by_contra hnot
    rw [bottomUpCutRodIt_overflows (Int.not_lt.mp hnot)] at hrun
    exact absurd hrun.symm (Option.some_ne_none _)
  · intro hmax
    obtain ⟨r, s, hrun, hvalues, hcuts⟩ := bottomUpCutRodIt_spec hlen hmax hrange
    obtain ⟨cut, hfirst⟩ := hcuts habove
    have hzero : r 0 = 0 := (hvalues 0 (Nat.zero_le n)).unique (revenues_zero p)
    obtain ⟨parts, hparts, htotal, hfollow⟩ := follow_spec hfirst hzero hmax n (Nat.le_refl n)
    refine ⟨_, _, hrun, hvalues n (Nat.le_refl n), ?_, parts, hparts, htotal, n, ?_⟩
    · have hentries : s = _ := hfirst.entries
      rw [hentries, List.length_map, List.length_map, List.length_range']
    · exact fun fuel hfuel => hfollow fuel [] hfuel

/-- The prices of a rod are bounded if those of the pieces are. -/
theorem total_bounds {p : List Int} {b : Int} (hp : ∀ x ∈ p, 0 ≤ x ∧ x ≤ b) (hb : 0 ≤ b) :
    ∀ {n : Nat} {parts : List Nat}, Cuts n parts → 0 ≤ total p parts ∧ total p parts ≤ b * n := by
  intro n parts
  induction parts generalizing n with
  | nil =>
      intro h
      obtain rfl : 0 = n := h.sum
      rw [Int.ofNat_zero, Int.mul_zero]
      exact ⟨le_refl _, le_refl _⟩
  | cons k parts ih =>
      intro h
      have hk := h.pos k List.mem_cons_self
      have hsum := h.sum
      rw [List.sum_cons] at hsum
      obtain ⟨hlo, hhi⟩ := ih ⟨fun x hx => h.pos x (List.mem_cons_of_mem k hx), rfl⟩
      have hprice : 0 ≤ priceOf p k ∧ priceOf p k ≤ b := by
        rw [priceOf, List.getD_eq_getElem?_getD]
        cases hget : p[k - 1]? with
        | none => exact ⟨le_refl _, hb⟩
        | some x => exact hp x (List.mem_of_getElem? hget)
      have hparts : b * 1 + b * parts.sum ≤ b * n := by
        rw [← Int.mul_add]
        refine Int.mul_le_mul_of_nonneg_left ?_ hb
        omega
      rw [total_cons]
      omega

/-- The sums of a table of prices from 0 to `b`. -/
theorem sums_of_bound {p : List Int} {b : Int} {n : Nat} (hp : ∀ x ∈ p, 0 ≤ x ∧ x ≤ b)
    (hb : 0 ≤ b) (hn : b * n ≤ intMax) : InRange p n ∧ AboveMin p n := by
  have hsums : ∀ k ≤ n, ∀ v ∈ revenues p k, 0 ≤ v ∧ v ≤ intMax := by
    rintro k hk v ⟨parts, hcuts, rfl⟩
    obtain ⟨hlo, hhi⟩ := total_bounds hp hb hcuts
    have hle : b * k ≤ b * n := Int.mul_le_mul_of_nonneg_left (by omega) hb
    exact ⟨hlo, by omega⟩
  have hmin : intMin < 0 := by decide
  refine ⟨?_, ?_⟩
  · intro k hk v hv
    obtain ⟨hlo, hhi⟩ := hsums k hk v hv
    exact ⟨by omega, hhi⟩
  · intro k hk v hv
    obtain ⟨hlo, -⟩ := hsums k hk v hv
    omega

theorem cut_rod_law_ten : CutRodLaw [1, 5, 8, 9, 10, 17, 17, 20, 24, 30] 10 := by
  have hp : ∀ x ∈ [(1 : Int), 5, 8, 9, 10, 17, 17, 20, 24, 30], 0 ≤ x ∧ x ≤ 30 := by decide
  obtain ⟨hrange, habove⟩ := sums_of_bound (n := 10) hp (by decide) (by decide)
  exact (cut_rod_law_iff (by decide) hrange habove).mpr (by decide)

/-- A rod as long as the largest `int`, with every price 0. -/
theorem cut_rod_law_longest :
    InRange (List.replicate (2 ^ 31 - 1) 0) (2 ^ 31 - 1)
    ∧ AboveMin (List.replicate (2 ^ 31 - 1) 0) (2 ^ 31 - 1)
    ∧ ¬ CutRodLaw (List.replicate (2 ^ 31 - 1) 0) (2 ^ 31 - 1) := by
  have hp : ∀ x ∈ List.replicate (2 ^ 31 - 1) (0 : Int), 0 ≤ x ∧ x ≤ 0 := by
    intro x hx
    obtain rfl := List.eq_of_mem_replicate hx
    exact ⟨le_refl _, le_refl _⟩
  obtain ⟨hrange, habove⟩ := sums_of_bound (n := 2 ^ 31 - 1) hp (le_refl _) (by decide)
  refine ⟨hrange, habove, ?_⟩
  rintro ⟨value, solutions, hrun, -⟩
  rw [bottomUpCutRodIt_overflows (by decide)] at hrun
  exact absurd hrun.symm (Option.some_ne_none _)

/-! ## The recursion -/

/-- **`cut_rod`** forgets every cut but the last, which leaves the rod whole. -/
theorem cutRod_eq {p : List Int} : ∀ {n : Nat}, n ≤ p.length → (n : Int) < intMax →
    cutRod p n = some (if n = 0 then 0 else max (priceOf p n) 0) := by
  intro n
  induction n using Nat.strongRecOn with
  | ind n ih =>
      intro hlen hmax
      cases n with
      | zero =>
          rw [cutRod]
          rfl
      | succ n =>
          -- after a pass `q` is the value of that pass alone
          obtain ⟨q, hrun, hq⟩ := @forTo_keeps Int (fun _ i => do
              some (max (← getAt p (i - 1)) (← cutRod p (n - (i - 1)))))
            (fun i q => i = n + 1 → q = max (priceOf p (n + 1)) 0) intMin (n + 1) hmax
            (fun h => by omega) (by
              intro i q hi _
              have hread := getAt_price (p := p) (Nat.succ_pos i) (by omega)
              rw [hread, ih (n - (i + 1 - 1)) (by omega) (by omega) (by omega)]
              refine ⟨_, rfl, ?_⟩
              intro hlast
              obtain rfl : i = n := by omega
              rw [if_pos (by omega)])
          rw [cutRod, hrun, hq rfl, if_neg (Nat.succ_ne_zero n)]

theorem cutRod_overflows {p : List Int} {n : Nat} (hmax : intMax ≤ (n : Int)) :
    cutRod p n = none := by
  cases n with
  | zero => exact absurd hmax (by decide)
  | succ n => rw [cutRod, forTo_overflows hmax]

/-! ## The table of values -/

/-- The inner loop from the largest `int` stays there, if no sum overflows. -/
theorem values_stay {p : List Int} {r : Nat → Int} {j : Nat} (hlen : j ≤ p.length)
    (hmax : (j : Int) < intMax)
    (hsum : ∀ k, 0 < k → k ≤ j → intMin ≤ cutValue p r j k ∧ cutValue p r j k ≤ intMax) :
    forTo j (valuePass p r j) intMax = some intMax := by
  have hpass : ∀ i q, i < j → q = intMax →
      ∃ q', valuePass p r j q (i + 1) = some q' ∧ q' = intMax := by
    rintro i q hi rfl
    obtain ⟨hlo, hhi⟩ := hsum (i + 1) (Nat.succ_pos i) hi
    refine ⟨intMax, ?_, rfl⟩
    rw [valuePass, getAt_price (Nat.succ_pos i) (by omega)]
    simp only [Option.bind_eq_bind, Option.bind_some]
    rw [← cutValue, int32_eq hlo hhi, Option.bind_some, max_eq_left hhi]
  obtain ⟨q, hrun, rfl⟩ := @forTo_keeps _ _ (fun _ q => q = intMax) _ _ hmax rfl hpass
  exact hrun

/-- Every length that is done has the largest `int`. -/
def AllMax (j : Nat) (r : Nat → Int) : Prop := ∀ k, r k = if 0 < k ∧ k ≤ j then intMax else 0

theorem AllMax.cutValue_eq {p : List Int} {j k : Nat} {r : Nat → Int} (h : AllMax j r)
    (hk : 0 < k) (hkj : k ≤ j + 1) :
    cutValue p r (j + 1) k = if k = j + 1 then priceOf p k else priceOf p k + intMax := by
  rw [cutValue, h]
  by_cases hlast : k = j + 1
  · rw [if_pos hlast, if_neg (by omega), Int.add_zero]
  · rw [if_neg hlast, if_pos (by omega)]

theorem allMax_zero : AllMax 0 fun _ => 0 := by
  intro k
  rw [if_neg (by omega)]

/-- A pass of the outer loop, while the shorter pieces cost nothing. -/
theorem AllMax.pass {p : List Int} {n j : Nat} {r : Nat → Int} (h : AllMax j r) (hj : j < n)
    (hlen : n ≤ p.length) (hmax : (n : Int) < intMax) (hrange : InRange p n)
    (hfree : ∀ k, 0 < k → k ≤ j → priceOf p k ≤ 0) :
    ∃ r', valuesPass p r (j + 1) = some r' ∧ AllMax (j + 1) r' := by
  have hstay : forTo (j + 1) (valuePass p r (j + 1)) intMax = some intMax := by
    refine values_stay (by omega) (by omega) ?_
    intro k hk hkj
    obtain ⟨hlo, hhi⟩ := hrange.price hk (show k ≤ n by omega)
    rw [h.cutValue_eq hk hkj]
    have hmin : intMin ≤ intMin + intMax := by decide
    split
    · exact ⟨hlo, hhi⟩
    · have hle := hfree k hk (by omega)
      exact ⟨by omega, by omega⟩
  refine ⟨Function.update r (j + 1) intMax, ?_, ?_⟩
  · rw [valuesPass, hstay]
    rfl
  · intro k
    by_cases hk : k = j + 1
    · rw [hk, Function.update_self, if_pos (by omega)]
    · rw [Function.update_of_ne hk, h]
      refine if_congr ?_ rfl rfl
      omega

/-- A piece that costs something overflows in the pass after its length. -/
theorem AllMax.overflows {p : List Int} {k : Nat} {r : Nat → Int} (h : AllMax k r) (hk : 0 < k)
    (hlen : k + 1 ≤ p.length) (hmax : (k : Int) + 1 < intMax) (hcost : 0 < priceOf p k)
    (hrange : InRange p k) (hfree : ∀ i, 0 < i → i < k → priceOf p i ≤ 0) :
    valuesPass p r (k + 1) = none := by
  obtain ⟨i, rfl⟩ : ∃ i, k = i + 1 := ⟨k - 1, by omega⟩
  have hpass : ∀ t q, t < i → q = intMax →
      ∃ q', valuePass p r (i + 1 + 1) q (t + 1) = some q' ∧ q' = intMax := by
    rintro t q ht rfl
    obtain ⟨hlo, hhi⟩ := hrange.price (k := t + 1) (by omega) (by omega)
    have hle := hfree (t + 1) (Nat.succ_pos t) (by omega)
    have hmin : intMin ≤ intMin + intMax := by decide
    have hsum : int32 (cutValue p r (i + 1 + 1) (t + 1)) = some (priceOf p (t + 1) + intMax) := by
      rw [h.cutValue_eq (k := t + 1) (by omega) (by omega), if_neg (by omega)]
      exact int32_eq (by omega) (by omega)
    refine ⟨intMax, ?_, rfl⟩
    rw [valuePass, getAt_price (Nat.succ_pos t) (by omega)]
    simp only [Option.bind_eq_bind, Option.bind_some]
    rw [← cutValue, hsum, Option.bind_some, max_eq_left (by omega)]
  have hfault : ∀ q, q = intMax → valuePass p r (i + 1 + 1) q (i + 1) = none := by
    rintro q -
    have hsum : int32 (cutValue p r (i + 1 + 1) (i + 1)) = none := by
      rw [h.cutValue_eq (k := i + 1) (by omega) (by omega), if_neg (by omega)]
      exact if_neg (by omega)
    rw [valuePass, getAt_price (Nat.succ_pos i) (by omega)]
    simp only [Option.bind_eq_bind, Option.bind_some]
    rw [← cutValue, hsum]
    rfl
  rw [valuesPass, @forTo_faults _ _ (fun _ q => q = intMax) _ _ i (by omega) rfl hpass hfault]
  rfl

/-- **`bottom_up_cut_rod(p, n)`** gives the largest `int`, or overflows on the way. -/
theorem bottomUpCutRod_eq {p : List Int} {n : Nat} (hn : 0 < n) (hlen : n ≤ p.length)
    (hmax : (n : Int) < intMax) (hrange : InRange p n) :
    ((∀ k, 0 < k → k < n → priceOf p k ≤ 0) → bottomUpCutRod p n = some intMax)
    ∧ ((∃ k, 0 < k ∧ k < n ∧ 0 < priceOf p k) → bottomUpCutRod p n = none) := by
  constructor
  · intro hfree
    obtain ⟨r, hrun, hall⟩ := forTo_keeps hmax allMax_zero fun j r hj h =>
      AllMax.pass h hj hlen hmax hrange fun k hk hkj => hfree k hk (by omega)
    rw [bottomUpCutRod, hrun]
    have hlast := hall n
    rw [if_pos ⟨hn, Nat.le_refl n⟩] at hlast
    exact congrArg some hlast
  · intro hcost
    classical
    -- the first piece that costs something
    obtain ⟨hk, hkn, hpos⟩ := Nat.find_spec hcost
    have hfree : ∀ i, 0 < i → i < Nat.find hcost → priceOf p i ≤ 0 := by
      intro i hi hlt
      have hnot := Nat.find_min hcost hlt
      by_contra hgt
      exact hnot ⟨hi, by omega, Int.not_le.mp hgt⟩
    generalize Nat.find hcost = k at *
    have hfault : forTo n (valuesPass p) (fun _ => 0) = none :=
      forTo_faults hkn allMax_zero
        (fun j r hj h => h.pass (by omega) hlen hmax hrange fun i hi hij => hfree i hi (by omega))
        (fun r h =>
          h.overflows hk (by omega) (by omega) hpos (fun i hi => hrange i (by omega)) hfree)
    rw [bottomUpCutRod, hfault]
    rfl

/-! ## When the three agree -/

/-- All three return the same value. -/
def CutRodsAgree (p : List Int) (n : Nat) : Prop :=
  ∃ value solutions, bottomUpCutRodIt p n = some (value, solutions)
    ∧ cutRod p n = some value ∧ bottomUpCutRod p n = some value

/-- **When the three agree**: exactly if the whole rod has the largest price there is, no
    smaller piece costs anything, and the counters do not overflow. -/
theorem cut_rods_agree_iff {p : List Int} {n : Nat} (hn : 0 < n) (hlen : n ≤ p.length)
    (hrange : InRange p n) :
    CutRodsAgree p n ↔ (n : Int) < intMax ∧ priceOf p n = intMax
      ∧ ∀ k, 0 < k → k < n → priceOf p k ≤ 0 := by
  constructor
  · rintro ⟨value, solutions, hit, hrec, hval⟩
    have hmax : (n : Int) < intMax := by
      by_contra hnot
      rw [cutRod_overflows (Int.not_lt.mp hnot)] at hrec
      exact absurd hrec.symm (Option.some_ne_none _)
    obtain ⟨hstay, hfault⟩ := bottomUpCutRod_eq hn hlen hmax hrange
    have hfree : ∀ k, 0 < k → k < n → priceOf p k ≤ 0 := by
      intro k hk hkn
      by_contra hgt
      rw [hfault ⟨k, hk, hkn, Int.not_le.mp hgt⟩] at hval
      exact absurd hval.symm (Option.some_ne_none _)
    refine ⟨hmax, ?_, hfree⟩
    rw [hstay hfree] at hval
    rw [cutRod_eq hlen hmax, if_neg (by omega), ← hval, Option.some.injEq] at hrec
    have hpos : 0 < intMax := by decide
    omega
  · rintro ⟨hmax, hprice, hfree⟩
    obtain ⟨r, s, hrun, hvalues, -⟩ := bottomUpCutRodIt_spec hlen hmax hrange
    obtain ⟨hmem, hupper⟩ := hvalues n (Nat.le_refl n)
    have hwhole : r n = intMax := by
      have hle := (hrange n (Nat.le_refl n) _ hmem).2
      have hge : priceOf p n ≤ r n := by
        refine hupper ((mem_revenues_iff hn).mpr ?_)
        refine ⟨n, hn, Nat.le_refl n, 0, ?_, (Int.add_zero _).symm⟩
        rw [Nat.sub_self]
        exact (revenues_zero p).1
      exact Int.le_antisymm hle (hprice ▸ hge)
    refine ⟨_, _, hrun, ?_, ?_⟩
    · rw [cutRod_eq hlen hmax, if_neg (by omega), hprice, hwhole]
      rfl
    · rw [hwhole]
      exact (bottomUpCutRod_eq hn hlen hmax hrange).1 hfree

theorem cut_rods_agree_dear : CutRodsAgree [intMax] 1 := by
  have hp : ∀ x ∈ [intMax], 0 ≤ x ∧ x ≤ intMax := by decide
  obtain ⟨hrange, -⟩ := sums_of_bound (n := 1) hp (by decide) (by decide)
  refine (cut_rods_agree_iff Nat.one_pos (by decide) hrange).mpr ⟨by decide, rfl, ?_⟩
  intro k hk hlt
  omega

/-- A rod of length 1 and price 1. -/
theorem cut_rods_differ :
    InRange [1] 1 ∧ bottomUpCutRodIt [1] 1 = some (1, [1]) ∧ bottomUpCutRod [1] 1 = some 2147483647
    ∧ ¬ CutRodsAgree [1] 1 := by
  have hp : ∀ x ∈ [(1 : Int)], 0 ≤ x ∧ x ≤ 1 := by decide
  have hit : bottomUpCutRodIt [1] 1 = some (1, [1]) := by decide
  have hval : bottomUpCutRod [1] 1 = some 2147483647 := by decide
  refine ⟨(sums_of_bound (n := 1) hp (by decide) (by decide)).1, hit, hval, ?_⟩
  rintro ⟨value, solutions, hit', -, hval'⟩
  rw [hit, Option.some.injEq, Prod.mk.injEq] at hit'
  rw [hval, Option.some.injEq, ← hit'.1] at hval'
  exact absurd hval' (by decide)

end CutRod
