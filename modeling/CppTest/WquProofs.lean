import CppTest.MachineProofs
import CppTest.ForestProofs
import Mathlib.Tactic.Linarith

/-! # Weighted quick union (`src/algs/algorithms4th/1.5.c`)

    The union-find of `1.5.c` grows its two arrays lazily: a call with a touch
    `p` beyond the largest id seen so far first makes room (`wqu_grow`) and turns
    the gap into singletons, and both `wqu_union` and `wqu_is_connected` do so.

    * The model: `WquS` with its arrays `ids` and `sz`, every array access checked
      and every assertion a fault.  A `cvector` is a list whose length is the
      capacity; the cells a `cvector_grow` gains hold arbitrary `junk`.
    * The refinement: `Tracks w us` — the arrays are those of a
      `Forest.WeightedForest` over `0 .. maxid` whose trees are the classes of
      the pairs `us` united so far.
    * The results: `wqu_run_connectivity` and `wqu_run_weighted`, over every
      sequence of calls. -/

namespace Wqu

open Machine Forest Relation

/-! ## The model -/

/-- `struct wqu_s`. -/
structure WquS where
  ids : List Int
  maxid : Int
  sz : List Int
  deriving Repr, DecidableEq

/-- `cvector_grow(v, n)`: capacity `n`, the old elements kept, the new cells not
    initialised. -/
def cvectorGrow (junk : Nat → Int) (v : List Int) (n : Int) : List Int :=
  v ++ (List.range' v.length (n.toNat - v.length)).map junk

/-- The `for` loop of `wqu_grow`, `k` passes from index `i` on. -/
def wquGrowLoop : Nat → Int → WquS → Option WquS
  | 0, _, w => some w
  | k + 1, i, w => do
      let ids ← setAt w.ids i i
      let sz ← setAt w.sz i 1
      wquGrowLoop k (i + 1) { w with ids := ids, sz := sz }

/-- `wqu_grow`: the new state and the return code. -/
def wquGrow (junk : Nat → Int) (w : WquS) (maxid : Int) : Option (WquS × Int) :=
  if ¬ 0 ≤ maxid then some (w, -1)
  else if (w.ids.length : Int) < maxid then do
    let w' ← wquGrowLoop (maxid - (w.maxid + 1)).toNat (w.maxid + 1)
      { w with ids := cvectorGrow junk w.ids maxid, sz := cvectorGrow junk w.sz maxid }
    some ({ w' with maxid := maxid - 1 }, 0)
  else some (w, 0)

/-- One pass of the loop of `wqu_find`. -/
def wquFindPass (w : WquS) (p : Int) : Option (Pass Int Int) := do
  let q ← getAt w.ids p
  if q = p then some (.done p) else some (.next q)

/-- `wqu_find`; the assertion on `p` faults. -/
def wquFind (fuel : Nat) (w : WquS) (p : Int) : Option Int :=
  if 0 ≤ p ∧ p ≤ w.maxid then loop (wquFindPass w) fuel p else none

/-- `wqu_init`. -/
def wquInit : WquS := { ids := [0], maxid := 0, sz := [1] }

/-- `ids[child] = root; sz[root] += sz[child]`. -/
def wquHang (w : WquS) (child root szChild szRoot : Int) : Option (WquS × Int) := do
  let ids ← setAt w.ids child root
  let sz ← setAt w.sz root (wrap32 (szRoot + szChild))
  some ({ w with ids := ids, sz := sz }, 0)

/-- `wqu_union`. -/
def wquUnion (fuel : Nat) (junk : Nat → Int) (w : WquS) (p q : Int) : Option (WquS × Int) := do
  let (w, rc) ← wquGrow junk w (wrap32 (max p q + 1))
  if rc ≠ 0 then some (w, -2)
  else
    let r ← wquFind fuel w p
    let s ← wquFind fuel w q
    if r = s then some (w, 0)
    else
      let szr ← getAt w.sz r
      let szs ← getAt w.sz s
      -- the small tree goes under the big one; a tie hangs `s` under `r`
      if szr ≥ szs then wquHang w s r szs szr
      else wquHang w r s szr szs

/-- `wqu_is_connected`; it may grow the arrays. -/
def wquIsConnected (fuel : Nat) (junk : Nat → Int) (w : WquS) (p q : Int) :
    Option (WquS × Int) := do
  let (w, rc) ← wquGrow junk w (wrap32 (max p q + 1))
  if rc ≠ 0 then some (w, 0)
  else
    let r ← wquFind fuel w p
    let s ← wquFind fuel w q
    some (w, if r = s then 1 else 0)

/-- A call of the interface. -/
inductive Op where
  | union (p q : Int)
  | isConnected (p q : Int)
  deriving Repr, DecidableEq

/-- The arguments of a call lie in `[0, INT_MAX)`. -/
def Op.InRange : Op → Prop
  | .union p q => (0 ≤ p ∧ p < intMax) ∧ (0 ≤ q ∧ q < intMax)
  | .isConnected p q => (0 ≤ p ∧ p < intMax) ∧ (0 ≤ q ∧ q < intMax)

instance (op : Op) : Decidable op.InRange := by
  cases op <;> unfold Op.InRange <;> infer_instance

def Op.isUnion : Op → Bool
  | .union _ _ => true
  | .isConnected _ _ => false

/-- One call: the new state and the returned value. -/
def call (fuel : Nat) (junk : Nat → Int) (w : WquS) : Op → Option (WquS × Int)
  | .union p q => wquUnion fuel junk w p q
  | .isConnected p q => wquIsConnected fuel junk w p q

/-- A sequence of calls, with the values they return. -/
def run (fuel : Nat) (junk : Nat → Int) : WquS → List Op → Option (WquS × List Int)
  | w, [] => some (w, [])
  | w, op :: ops => do
      let (w, r) ← call fuel junk w op
      let (w, rs) ← run fuel junk w ops
      some (w, r :: rs)

/-- The pairs united by a sequence of calls. -/
def united : List Op → List (Int × Int)
  | [] => []
  | .union p q :: ops => (p, q) :: united ops
  | .isConnected _ _ :: ops => united ops

/-- Connected by the pairs `us`: the equivalence closure. -/
def Connected (us : List (Int × Int)) : Int → Int → Prop :=
  EqvGen (fun a b => (a, b) ∈ us)

/-! ## The arrays of a forest -/

/-- The arrays hold the parent map `f` and the sizes `g` of the nodes `0 .. n-1`. -/
structure Holds (w : WquS) (n : Nat) (f g : Nat → Nat) : Prop where
  pos : 0 < n
  le : (n : Int) ≤ intMax
  maxid : w.maxid = (n : Int) - 1
  ids_len : w.ids.length = n
  sz_len : w.sz.length = n
  ids_get : ∀ i < n, w.ids[i]? = some (f i : Int)
  sz_get : ∀ i < n, w.sz[i]? = some (g i : Int)

/-- The state after uniting the pairs `us`: a weighted forest whose trees are the
    classes of the equivalence closure. -/
structure Tracks (w : WquS) (us : List (Int × Int)) (n : Nat) (f g : Nat → Nat) : Prop where
  holds : Holds w n f g
  forest : WeightedForest (Finset.range n) f g
  support : ∀ a b, (a, b) ∈ us → (0 ≤ a ∧ a < n) ∧ (0 ≤ b ∧ b < n)
  classes : ∀ x < n, ∀ y < n, (SameRoot f x y ↔ Connected us (x : Int) (y : Int))

/-! ## Growing -/

/-- A write in front of a stretch of written entries makes it longer by one. -/
theorem getElem?_set_stretch {l : List Int} {i k : Nat} (x : Nat → Int) (hi : i < l.length)
    (j : Nat) :
    (if i + 1 ≤ j ∧ j < i + 1 + k then some (x j) else (l.set i (x i))[j]?)
      = if i ≤ j ∧ j < i + (k + 1) then some (x j) else l[j]? := by
  rw [List.getElem?_set]
  by_cases hj : i = j
  · subst hj
    rw [if_neg (by omega), if_pos rfl, if_pos hi, if_pos (by omega)]
  · by_cases hin : i + 1 ≤ j ∧ j < i + 1 + k
    · rw [if_pos hin, if_pos (by omega)]
    · rw [if_neg hin, if_neg hj, if_neg (by omega)]

/-- The `for` loop writes its indices and nothing else. -/
theorem wquGrowLoop_spec (k : Nat) : ∀ (i : Nat) (w : WquS),
    i + k ≤ w.ids.length → i + k ≤ w.sz.length →
    ∃ w', wquGrowLoop k (i : Int) w = some w' ∧ w'.maxid = w.maxid ∧
      w'.ids.length = w.ids.length ∧ w'.sz.length = w.sz.length ∧
      (∀ j, w'.ids[j]? = if i ≤ j ∧ j < i + k then some (j : Int) else w.ids[j]?) ∧
      (∀ j, w'.sz[j]? = if i ≤ j ∧ j < i + k then some 1 else w.sz[j]?) := by
  induction k with
  | zero =>
      intro i w _ _
      refine ⟨w, rfl, rfl, rfl, rfl, ?_, ?_⟩
      · intro j
        rw [if_neg (by omega)]
      · intro j
        rw [if_neg (by omega)]
  | succ k ih =>
      intro i w hids hsz
      obtain ⟨w', hrun, hmax, hl1, hl2, hg1, hg2⟩ := ih (i + 1)
        { w with ids := w.ids.set i i, sz := w.sz.set i 1 }
        (by simp only [List.length_set]; omega) (by simp only [List.length_set]; omega)
      refine ⟨w', ?_, hmax, ?_, ?_, ?_, ?_⟩
      · simp only [wquGrowLoop]
        rw [setAt_natCast _ _ (by omega), setAt_natCast _ _ (by omega)]
        exact hrun
      · rw [hl1, List.length_set]
      · rw [hl2, List.length_set]
      · intro j
        rw [hg1 j]
        exact getElem?_set_stretch (fun j => (j : Int)) (by omega) j
      · intro j
        rw [hg2 j]
        exact getElem?_set_stretch (fun _ => 1) (by omega) j

theorem cvectorGrow_length (junk : Nat → Int) (v : List Int) {m : Nat} (h : v.length ≤ m) :
    (cvectorGrow junk v (m : Int)).length = m := by
  simp [cvectorGrow]
  omega

theorem cvectorGrow_getElem? (junk : Nat → Int) (v : List Int) (m : Int) {j : Nat}
    (hj : j < v.length) : (cvectorGrow junk v m)[j]? = v[j]? := by
  rw [cvectorGrow, List.getElem?_append_left hj]

/-- The parent map after growing: the new nodes are their own parents. -/
def grownIds (n : Nat) (f : Nat → Nat) (i : Nat) : Nat := if i < n then f i else i

/-- The sizes after growing: the new trees have one node. -/
def grownSz (n : Nat) (g : Nat → Nat) (i : Nat) : Nat := if i < n then g i else 1

/-- `wqu_grow` to `m` touches: it succeeds, and only adds singletons. -/
theorem wquGrow_spec (junk : Nat → Int) {w : WquS} {n : Nat} {f g : Nat → Nat}
    (h : Holds w n f g) {m : Nat} (hm : (m : Int) ≤ intMax) :
    ∃ w', wquGrow junk w (m : Int) = some (w', 0) ∧
      Holds w' (max n m) (grownIds n f) (grownSz n g) := by
  have hpos := h.pos
  have hle := h.le
  rw [wquGrow]
  rw [if_neg (by omega)]
  by_cases hlt : (w.ids.length : Int) < m
  · rw [if_pos hlt]
    rw [h.ids_len] at hlt
    have hnm : n ≤ m := by omega
    have hmax : max n m = m := by omega
    have hstart : w.maxid + 1 = (n : Int) := by rw [h.maxid]; omega
    obtain ⟨w', hrun, hmaxid, hl1, hl2, hg1, hg2⟩ := wquGrowLoop_spec (m - n) n
      { w with ids := cvectorGrow junk w.ids m, sz := cvectorGrow junk w.sz m }
      (by rw [cvectorGrow_length _ _ (by rw [h.ids_len]; exact hnm)]; omega)
      (by rw [cvectorGrow_length _ _ (by rw [h.sz_len]; exact hnm)]; omega)
    rw [hstart, show ((m : Int) - (n : Int)).toNat = m - n by omega, hrun]
    refine ⟨{ w' with maxid := (m : Int) - 1 }, rfl, ?_⟩
    rw [cvectorGrow_length _ _ (by rw [h.ids_len]; exact hnm)] at hl1
    rw [cvectorGrow_length _ _ (by rw [h.sz_len]; exact hnm)] at hl2
    rw [hmax]
    refine ⟨by omega, hm, rfl, hl1, hl2, ?_, ?_⟩
    · intro i hi
      show w'.ids[i]? = _
      rw [hg1 i]
      by_cases hin : i < n
      · rw [if_neg (by omega), grownIds, if_pos hin,
          cvectorGrow_getElem? _ _ _ (by rw [h.ids_len]; exact hin)]
        exact h.ids_get i hin
      · rw [if_pos (by omega), grownIds, if_neg hin]
    · intro i hi
      show w'.sz[i]? = _
      rw [hg2 i]
      by_cases hin : i < n
      · rw [if_neg (by omega), grownSz, if_pos hin,
          cvectorGrow_getElem? _ _ _ (by rw [h.sz_len]; exact hin)]
        exact h.sz_get i hin
      · rw [if_pos (by omega), grownSz, if_neg hin]
        rfl
  · rw [if_neg hlt]
    rw [h.ids_len] at hlt
    have hmax : max n m = n := by omega
    rw [hmax]
    refine ⟨w, rfl, h.pos, h.le, h.maxid, h.ids_len, h.sz_len, ?_, ?_⟩
    · intro i hi
      rw [grownIds, if_pos hi]
      exact h.ids_get i hi
    · intro i hi
      rw [grownSz, if_pos hi]
      exact h.sz_get i hi

/-- Growing keeps track of the united pairs. -/
theorem Tracks.grow (junk : Nat → Int) {w : WquS} {us : List (Int × Int)} {n : Nat}
    {f g : Nat → Nat} (h : Tracks w us n f g) {m : Nat} (hm : (m : Int) ≤ intMax) :
    ∃ w', wquGrow junk w (m : Int) = some (w', 0) ∧
      Tracks w' us (max n m) (grownIds n f) (grownSz n g) := by
  obtain ⟨w', hrun, hholds⟩ := wquGrow_spec junk h.holds hm
  have hold : ∀ x, x < n → grownIds n f x = f x := fun x hx => if_pos hx
  have hnew : ∀ x, ¬ x < n → grownIds n f x = x := fun x hx => if_neg hx
  have hclosed : ∀ x, x < n → f x < n := by
    intro x hx
    exact Finset.mem_range.mp (h.forest.closed x (Finset.mem_range.mpr hx))
  have hforest : WeightedForest (Finset.range (max n m)) (grownIds n f) (grownSz n g) := by
    refine h.forest.extend ?_ ?_ ?_
    · exact Finset.range_mono (Nat.le_max_left n m)
    · intro x hx
      have hx' := Finset.mem_range.mp hx
      exact ⟨hold x hx', if_pos hx'⟩
    · intro x _ hx
      have hx' : ¬ x < n := fun hlt => hx (Finset.mem_range.mpr hlt)
      exact ⟨hnew x hx', if_neg hx'⟩
  -- old nodes keep their root, which is an old node; new nodes are their own root
  have hrootOld : ∀ x, x < n → ∃ r < n, RootOf f x r ∧ RootOf (grownIds n f) x r := by
    intro x hx
    obtain ⟨r, d, hd⟩ := h.forest.rooted x (Finset.mem_range.mpr hx)
    refine ⟨r, Finset.mem_range.mp (h.forest.root_mem hd (Finset.mem_range.mpr hx)), ⟨d, hd⟩, d, ?_⟩
    exact (pathTo_congr_iff (P := fun y => y < n) hclosed hold hx).mpr hd
  have hrootNew : ∀ x, ¬ x < n → RootOf (grownIds n f) x x :=
    fun x hx => ⟨0, PathTo.root (hnew x hx)⟩
  refine ⟨w', hrun, hholds, hforest, ?_, ?_⟩
  · intro a b hab
    obtain ⟨⟨ha, ha'⟩, hb, hb'⟩ := h.support a b hab
    omega
  · intro x _ y _
    by_cases hx : x < n
    · obtain ⟨r, hr, hxr, hxr'⟩ := hrootOld x hx
      by_cases hy : y < n
      · obtain ⟨s, _, hys, hys'⟩ := hrootOld y hy
        rw [sameRoot_iff hxr' hys', ← sameRoot_iff hxr hys]
        exact h.classes x hx y hy
      · rw [sameRoot_iff hxr' (hrootNew y hy)]
        constructor
        · intro hry
          omega
        · intro hc
          rcases eqvGen_support h.support hc with heq | ⟨_, hy'⟩ <;> omega
    · by_cases hy : y < n
      · obtain ⟨s, hs, _, hys'⟩ := hrootOld y hy
        rw [sameRoot_iff (hrootNew x hx) hys']
        constructor
        · intro hxs
          omega
        · intro hc
          rcases eqvGen_support h.support hc with heq | ⟨hx', _⟩ <;> omega
      · rw [sameRoot_iff (hrootNew x hx) (hrootNew y hy)]
        constructor
        · intro hxy
          rw [hxy]
          exact EqvGen.refl _
        · intro hc
          rcases eqvGen_support h.support hc with heq | ⟨hx', _⟩ <;> omega

/-! ## Finding the root -/

/-- The loop of `wqu_find` walks the path to the root. -/
theorem wquFindPass_loop {w : WquS} {n : Nat} {f g : Nat → Nat} (h : Holds w n f g)
    (hclosed : ∀ x < n, f x < n) {x r d : Nat} (hp : PathTo f x r d) :
    x < n → ∀ fuel, d < fuel → loop (wquFindPass w) fuel (x : Int) = some (r : Int) := by
  induction hp with
  | @root r hr =>
      intro hx fuel hfuel
      refine loop_done (by omega) ?_
      simp [wquFindPass, h.ids_get r hx, hr]
  | @step x r d hne _ ih =>
      intro hx fuel hfuel
      have hne' : ¬ ((f x : Int) = (x : Int)) := by omega
      have hpass : wquFindPass w (x : Int) = some (.next (f x : Int)) := by
        simp [wquFindPass, h.ids_get x hx, hne']
      rw [loop_next (by omega) hpass]
      exact ih (hclosed x hx) _ (by omega)

/-- `wqu_find` returns the root, in at most 31 passes: a tree has fewer than
    `2 ^ 31` nodes, so its depth is below 31. -/
theorem wquFind_spec {w : WquS} {us : List (Int × Int)} {n : Nat} {f g : Nat → Nat}
    (h : Tracks w us n f g) {fuel : Nat} (hfuel : 31 ≤ fuel) {x : Nat} (hx : x < n) :
    ∃ r < n, RootOf f x r ∧ wquFind fuel w (x : Int) = some (r : Int) := by
  have hxV : x ∈ Finset.range n := Finset.mem_range.mpr hx
  obtain ⟨r, d, hd⟩ := h.forest.rooted x hxV
  have hrV := h.forest.root_mem hd hxV
  have hclosed : ∀ y < n, f y < n := fun y hy =>
    Finset.mem_range.mp (h.forest.closed y (Finset.mem_range.mpr hy))
  have hdepth : 2 ^ d < 2 ^ 31 := by
    have h1 := h.forest.depth_le x hxV r d hd
    have h2 := h.forest.size_le_card hrV hd.isRoot
    rw [Finset.card_range] at h2
    have h3 := h.holds.le
    rw [intMax] at h3
    omega
  have hd31 : d < 31 := (Nat.pow_lt_pow_iff_right (by decide)).mp hdepth
  refine ⟨r, Finset.mem_range.mp hrV, ⟨d, hd⟩, ?_⟩
  rw [wquFind]
  rw [if_pos (by rw [h.holds.maxid]; omega)]
  exact wquFindPass_loop h.holds hclosed hd hx fuel (by omega)

/-! ## Linking -/

/-- Reading the array of a point-updated map. -/
private theorem getElem?_set_update {l : List Int} {n : Nat} {f : Nat → Nat}
    (hlen : l.length = n) (hget : ∀ i < n, l[i]? = some (f i : Int)) (a b : Nat) :
    ∀ i < n, (l.set a (b : Int))[i]? = some ((Function.update f a b i : Nat) : Int) := by
  intro i hi
  rw [List.getElem?_set]
  by_cases hia : a = i
  · subst hia
    rw [if_pos rfl, if_pos (by omega), Function.update_self]
  · rw [if_neg hia, Function.update_of_ne (Ne.symm hia)]
    exact hget i hi

/-- Hanging a lighter root under a heavier one. -/
theorem wquHang_spec {w : WquS} {n : Nat} {f g : Nat → Nat} (h : Holds w n f g)
    {child root : Nat} (hchild : child < n) (hroot : root < n)
    (hsum : g root + g child ≤ n) :
    ∃ w', wquHang w (child : Int) (root : Int) (g child : Int) (g root : Int) = some (w', 0) ∧
      Holds w' n (link f child root) (Function.update g root (g root + g child)) := by
  have hle := h.le
  have hwrap : wrap32 ((g root : Int) + (g child : Int)) = ((g root + g child : Nat) : Int) := by
    rw [wrap32_eq (by omega) (by omega)]
    push_cast
    rfl
  refine ⟨{ w with ids := w.ids.set child root, sz := w.sz.set root ((g root + g child : Nat) : Int) },
    ?_, ?_⟩
  · rw [wquHang]
    rw [setAt_natCast _ _ (by rw [h.ids_len]; exact hchild),
      setAt_natCast _ _ (by rw [h.sz_len]; exact hroot), hwrap]
    rfl
  · refine ⟨h.pos, h.le, h.maxid, ?_, ?_, ?_, ?_⟩
    · exact (List.length_set ..).trans h.ids_len
    · exact (List.length_set ..).trans h.sz_len
    · exact getElem?_set_update h.ids_len h.ids_get child root
    · exact getElem?_set_update h.sz_len h.sz_get root (g root + g child)

/-- The closure after one more pair. -/
theorem connected_snoc (us : List (Int × Int)) (p q x y : Int) :
    Connected (us ++ [(p, q)]) x y ↔
      Connected us x y ∨ (Connected us x p ∧ Connected us q y) ∨
        (Connected us x q ∧ Connected us p y) := by
  have hrel : (fun a b => (a, b) ∈ us ++ [(p, q)])
      = (fun a b : Int => (a, b) ∈ us ∨ (a = p ∧ b = q)) := by
    funext a b
    simp
  show EqvGen _ x y ↔ _
  rw [hrel]
  exact eqvGen_insert _ p q x y

/-- The state after hanging `q`'s root `s` under `p`'s root `r`, or the other way
    round: the pair `(p, q)` has been united. -/
theorem Tracks.hang {w : WquS} {us : List (Int × Int)} {n : Nat} {f g : Nat → Nat}
    (h : Tracks w us n f g) {p q r s : Nat} (hp : p < n) (hq : q < n) (hr : r < n) (hs : s < n)
    (hpr : RootOf f p r) (hqs : RootOf f q s) (hrs : r ≠ s) (hle : g s ≤ g r)
    {a b : Int} (hab : (a = p ∧ b = q) ∨ (a = q ∧ b = p)) :
    ∃ w', wquHang w (s : Int) (r : Int) (g s : Int) (g r : Int) = some (w', 0) ∧
      Tracks w' (us ++ [(a, b)]) n (link f s r) (Function.update g r (g r + g s)) := by
  have hrr : f r = r := hpr.elim fun _ hd => hd.isRoot
  have hss : f s = s := hqs.elim fun _ hd => hd.isRoot
  have hforest := h.forest.link_lighter (Finset.mem_range.mpr hr) (Finset.mem_range.mpr hs)
    hrr hss hrs hle
  have hsum : g r + g s ≤ n := by
    have hroot : link f s r r = r := by rw [link, Function.update_of_ne hrs, hrr]
    have h1 := hforest.size_le_card (Finset.mem_range.mpr hr) hroot
    rw [Function.update_self, Finset.card_range] at h1
    exact h1
  obtain ⟨w', hrun, hholds⟩ := wquHang_spec h.holds hs hr hsum
  refine ⟨w', hrun, hholds, hforest, ?_, ?_⟩
  · intro c d hcd
    rcases List.mem_append.mp hcd with hcd | hcd
    · exact h.support c d hcd
    · rw [List.mem_singleton, Prod.mk.injEq] at hcd
      omega
  · intro x hx y hy
    have hrooted : ∀ z < n, ∃ t, RootOf f z t := fun z hz =>
      h.forest.rooted z (Finset.mem_range.mpr hz)
    rw [sameRoot_link hpr hqs hrs (hrooted x hx) (hrooted y hy), connected_snoc,
      h.classes x hx y hy, h.classes x hx p hp, h.classes q hq y hy, h.classes x hx q hq,
      h.classes p hp y hy]
    rcases hab with ⟨rfl, rfl⟩ | ⟨rfl, rfl⟩
    · exact Iff.rfl
    · rw [or_comm (a := Connected us (x : Int) q ∧ _)]

/-! ## The two operations -/

/-- Both operations start alike: room is made for `p` and `q`, and their roots are
    found. -/
theorem Tracks.locate (junk : Nat → Int) {w : WquS} {us : List (Int × Int)} {n : Nat}
    {f g : Nat → Nat} (h : Tracks w us n f g) {fuel : Nat} (hfuel : 31 ≤ fuel) {p q : Nat}
    (hp : (p : Int) < intMax) (hq : (q : Int) < intMax) :
    ∃ w' n' f' g' r s, wquGrow junk w (wrap32 (max (p : Int) (q : Int) + 1)) = some (w', 0) ∧
      Tracks w' us n' f' g' ∧ p < n' ∧ q < n' ∧ r < n' ∧ s < n' ∧
      RootOf f' p r ∧ RootOf f' q s ∧
      wquFind fuel w' (p : Int) = some (r : Int) ∧ wquFind fuel w' (q : Int) = some (s : Int) := by
  have hm : wrap32 (max (p : Int) (q : Int) + 1) = ((max p q + 1 : Nat) : Int) := by
    rw [wrap32_eq (by omega) (by omega)]
    push_cast
    rfl
  obtain ⟨w', hrun, htr⟩ := h.grow junk (m := max p q + 1) (by push_cast; omega)
  have hpn : p < max n (max p q + 1) := by omega
  have hqn : q < max n (max p q + 1) := by omega
  obtain ⟨r, hr, hpr, hfp⟩ := wquFind_spec htr hfuel hpn
  obtain ⟨s, hs, hqs, hfq⟩ := wquFind_spec htr hfuel hqn
  rw [hm]
  exact ⟨w', _, _, _, r, s, hrun, htr, hpn, hqn, hr, hs, hpr, hqs, hfp, hfq⟩

/-- The state is reached by uniting the pairs `us`. -/
def Reached (w : WquS) (us : List (Int × Int)) : Prop := ∃ n f g, Tracks w us n f g

theorem reached_init : Reached wquInit [] := by
  refine ⟨1, id, fun _ => 1, ⟨?_, ?_, ?_, ?_⟩⟩
  · refine ⟨Nat.one_pos, by decide, rfl, rfl, rfl, ?_, ?_⟩ <;>
    · intro i hi
      obtain rfl : i = 0 := by omega
      rfl
  · have hempty : WeightedForest (∅ : Finset Nat) id (fun _ => 1) :=
      ⟨by simp, by simp, by simp, by simp⟩
    exact hempty.extend (Finset.empty_subset _) (by simp) (fun _ _ _ => ⟨rfl, rfl⟩)
  · intro a b hab
    exact nomatch hab
  · intro x hx y hy
    obtain rfl : x = 0 := by omega
    obtain rfl : y = 0 := by omega
    have hroot : RootOf (id : Nat → Nat) 0 0 := ⟨0, PathTo.root rfl⟩
    rw [sameRoot_iff hroot hroot]
    exact ⟨fun _ => EqvGen.refl _, fun _ => rfl⟩

/-- `wqu_union(p, q)` returns 0 and unites the pair. -/
theorem wquUnion_spec (junk : Nat → Int) {w : WquS} {us : List (Int × Int)}
    (h : Reached w us) {fuel : Nat} (hfuel : 31 ≤ fuel) {p q : Int}
    (hr : (Op.union p q).InRange) :
    ∃ w', wquUnion fuel junk w p q = some (w', 0) ∧ Reached w' (us ++ [(p, q)]) := by
  obtain ⟨⟨hp0, hp⟩, hq0, hq⟩ := hr
  obtain ⟨p, rfl⟩ := Int.eq_ofNat_of_zero_le hp0
  obtain ⟨q, rfl⟩ := Int.eq_ofNat_of_zero_le hq0
  obtain ⟨n, f, g, htr⟩ := h
  obtain ⟨w', n', f', g', r, s, hgrow, htr', hpn, hqn, hrn, hsn, hpr, hqs, hfp, hfq⟩ :=
    htr.locate junk hfuel hp hq
  rw [wquUnion]
  rw [hgrow]
  simp only [Option.bind_eq_bind, Option.bind_some, ne_eq, not_true_eq_false, if_false, hfp, hfq,
    getAt_natCast, htr'.holds.sz_get r hrn, htr'.holds.sz_get s hsn, Nat.cast_inj]
  by_cases hrs : r = s
  · -- already connected: the closure does not change
    rw [if_pos hrs]
    refine ⟨w', rfl, n', f', g', htr'.holds, htr'.forest, ?_, ?_⟩
    · intro a b hab
      rcases List.mem_append.mp hab with hab | hab
      · exact htr'.support a b hab
      · rw [List.mem_singleton, Prod.mk.injEq] at hab
        omega
    · have hpq : Connected us (p : Int) (q : Int) :=
        (htr'.classes p hpn q hqn).mp ((sameRoot_iff hpr hqs).mpr hrs)
      intro x hx y hy
      rw [htr'.classes x hx y hy, connected_snoc]
      constructor
      · exact Or.inl
      · rintro (hc | ⟨h1, h2⟩ | ⟨h1, h2⟩)
        · exact hc
        · exact (h1.trans _ _ _ hpq).trans _ _ _ h2
        · exact (h1.trans _ _ _ hpq.symm).trans _ _ _ h2
  · rw [if_neg hrs]
    by_cases hsz : (g' r : Int) ≥ (g' s : Int)
    · rw [if_pos hsz]
      obtain ⟨w'', hrun, htr''⟩ := htr'.hang hpn hqn hrn hsn hpr hqs hrs (by omega)
        (Or.inl ⟨rfl, rfl⟩)
      exact ⟨w'', hrun, n', _, _, htr''⟩
    · rw [if_neg hsz]
      obtain ⟨w'', hrun, htr''⟩ := htr'.hang hqn hpn hsn hrn hqs hpr (Ne.symm hrs) (by omega)
        (Or.inr ⟨rfl, rfl⟩)
      exact ⟨w'', hrun, n', _, _, htr''⟩

/-- `wqu_is_connected(p, q)` answers for the closure and unites nothing. -/
theorem wquIsConnected_spec (junk : Nat → Int) {w : WquS} {us : List (Int × Int)}
    (h : Reached w us) {fuel : Nat} (hfuel : 31 ≤ fuel) {p q : Int}
    (hr : (Op.isConnected p q).InRange) :
    ∃ w' a, wquIsConnected fuel junk w p q = some (w', a) ∧ Reached w' us ∧
      (a = 1 ∧ Connected us p q ∨ a = 0 ∧ ¬ Connected us p q) := by
  obtain ⟨⟨hp0, hp⟩, hq0, hq⟩ := hr
  obtain ⟨p, rfl⟩ := Int.eq_ofNat_of_zero_le hp0
  obtain ⟨q, rfl⟩ := Int.eq_ofNat_of_zero_le hq0
  obtain ⟨n, f, g, htr⟩ := h
  obtain ⟨w', n', f', g', r, s, hgrow, htr', hpn, hqn, -, -, hpr, hqs, hfp, hfq⟩ :=
    htr.locate junk hfuel hp hq
  refine ⟨w', if r = s then 1 else 0, ?_, ⟨n', f', g', htr'⟩, ?_⟩
  · rw [wquIsConnected]
    rw [hgrow]
    simp only [Option.bind_eq_bind, Option.bind_some, ne_eq, not_true_eq_false, if_false, hfp, hfq,
      Nat.cast_inj]
  · have hiff := (sameRoot_iff hpr hqs).symm.trans (htr'.classes p hpn q hqn)
    by_cases hrs : r = s
    · rw [if_pos hrs]
      exact Or.inl ⟨rfl, hiff.mp hrs⟩
    · rw [if_neg hrs]
      exact Or.inr ⟨rfl, fun hc => hrs (hiff.mpr hc)⟩

/-! ## Whole runs -/

/-- What the call `op` may answer after the pairs `us`. -/
def Answers (us : List (Int × Int)) : Op → Int → Prop
  | .union _ _, a => a = 0
  | .isConnected p q, a => a = 1 ∧ Connected us p q ∨ a = 0 ∧ ¬ Connected us p q

theorem call_spec (junk : Nat → Int) {w : WquS} {us : List (Int × Int)} (h : Reached w us)
    {fuel : Nat} (hfuel : 31 ≤ fuel) {op : Op} (hr : op.InRange) :
    ∃ w' a, call fuel junk w op = some (w', a) ∧ Reached w' (us ++ united [op]) ∧
      Answers us op a := by
  cases op with
  | union p q =>
      obtain ⟨w', hrun, hw'⟩ := wquUnion_spec junk h hfuel hr
      exact ⟨w', 0, hrun, hw', rfl⟩
  | isConnected p q =>
      obtain ⟨w', a, hrun, hw', ha⟩ := wquIsConnected_spec junk h hfuel hr
      refine ⟨w', a, hrun, ?_, ha⟩
      rw [united, united, List.append_nil]
      exact hw'

theorem united_cons (op : Op) (ops : List Op) : united (op :: ops) = united [op] ++ united ops := by
  cases op <;> rfl

/-- Every call of a run returns, and answers for the pairs united before it. -/
theorem run_spec (junk : Nat → Int) {fuel : Nat} (hfuel : 31 ≤ fuel) (ops : List Op) :
    ∀ {w : WquS} {us : List (Int × Int)}, Reached w us → (∀ op ∈ ops, op.InRange) →
    ∃ w' out, run fuel junk w ops = some (w', out) ∧ Reached w' (us ++ united ops) ∧
      out.length = ops.length ∧
      ∀ k op, ops[k]? = some op → ∃ a, out[k]? = some a ∧
        Answers (us ++ united (ops.take k)) op a := by
  induction ops with
  | nil =>
      intro w us h _
      refine ⟨w, [], rfl, ?_, rfl, ?_⟩
      · rw [united, List.append_nil]
        exact h
      · intro k op hk
        simp at hk
  | cons op ops ih =>
      intro w us h hr
      obtain ⟨w₁, a, hcall, h₁, ha⟩ := call_spec junk h hfuel (hr op (by simp))
      obtain ⟨w', out, hrun, h', hlen, hans⟩ := ih h₁ (fun o ho => hr o (by simp [ho]))
      refine ⟨w', a :: out, ?_, ?_, ?_, ?_⟩
      · simp only [run, hcall, hrun, Option.bind_eq_bind, Option.bind_some]
      · rw [united_cons, ← List.append_assoc]
        exact h'
      · simp [hlen]
      · intro k o hk
        cases k with
        | zero =>
            obtain rfl : op = o := by simpa using hk
            refine ⟨a, rfl, ?_⟩
            simpa [united] using ha
        | succ k =>
            obtain ⟨b, hb, hbans⟩ := hans k o (by simpa using hk)
            refine ⟨b, by simpa using hb, ?_⟩
            rw [List.take_succ_cons, united_cons, ← List.append_assoc]
            exact hbans

/-- Queries leave no pair behind. -/
theorem united_filter_isUnion (ops : List Op) : united (ops.filter Op.isUnion) = united ops := by
  induction ops with
  | nil => rfl
  | cons op ops ih =>
      cases op with
      | union p q =>
          show (p, q) :: united (ops.filter Op.isUnion) = (p, q) :: united ops
          rw [ih]
      | isConnected p q => exact ih

/-- **DYNAMIC CONNECTIVITY.**  Whatever the calls and whatever the grown cells
    hold, every call returns (31 passes are enough for every `wqu_find`), a query
    answers 1 exactly for `p = q` or the equivalence closure of the pairs united
    before it, and dropping all queries from the history changes no later answer. -/
theorem wqu_run_connectivity (junk : Nat → Int) (fuel : Nat) (hfuel : 31 ≤ fuel)
    (ops : List Op) (hr : ∀ op ∈ ops, op.InRange) :
    ∃ w out, run fuel junk wquInit ops = some (w, out) ∧ out.length = ops.length ∧
      (∀ k p q, ops[k]? = some (.isConnected p q) → ∃ a, out[k]? = some a ∧
        (a = 0 ∨ a = 1) ∧ (a = 1 ↔ p = q ∨ Connected (united (ops.take k)) p q)) ∧
      (∃ w' out', run fuel junk wquInit (ops.filter Op.isUnion) = some (w', out') ∧
        ∀ p q, (Op.isConnected p q).InRange → ∃ a,
          (wquIsConnected fuel junk w p q).map Prod.snd = some a ∧
          (wquIsConnected fuel junk w' p q).map Prod.snd = some a) := by
  obtain ⟨w, out, hrun, hw, hlen, hans⟩ := run_spec junk hfuel ops reached_init hr
  obtain ⟨w', out', hrun', hw', -, -⟩ := run_spec junk hfuel (ops.filter Op.isUnion) reached_init
    (fun op hop => hr op (List.mem_filter.mp hop).1)
  rw [united_filter_isUnion] at hw'
  refine ⟨w, out, hrun, hlen, ?_, w', out', hrun', ?_⟩
  · intro k p q hk
    obtain ⟨a, ha, hspec⟩ := hans k _ hk
    refine ⟨a, ha, ?_⟩
    rcases hspec with ⟨rfl, hc⟩ | ⟨rfl, hc⟩
    · exact ⟨Or.inr rfl, fun _ => Or.inr hc, fun _ => rfl⟩
    · refine ⟨Or.inl rfl, fun h => absurd h (by decide), ?_⟩
      rintro (rfl | h)
      · exact absurd (EqvGen.refl p) hc
      · exact absurd h hc
  · intro p q hpq
    obtain ⟨w₁, a, hq₁, -, ha⟩ := wquIsConnected_spec junk hw hfuel hpq
    obtain ⟨w₂, b, hq₂, -, hb⟩ := wquIsConnected_spec junk hw' hfuel hpq
    have hab : a = b := by
      rcases ha with ⟨rfl, hc⟩ | ⟨rfl, hc⟩ <;> rcases hb with ⟨rfl, hc'⟩ | ⟨rfl, hc'⟩
      · rfl
      · exact absurd hc hc'
      · exact absurd hc' hc
      · rfl
    refine ⟨a, by rw [hq₁]; rfl, ?_⟩
    rw [hq₂, hab]
    rfl

/-- A run with two unions, a query in between that grows the arrays, and a query
    that joins the two pairs. -/
theorem wqu_run_connectivity_chain :
    (∀ op ∈ [Op.union 1 2, .isConnected 7 1, .union 2 5, .isConnected 1 5], op.InRange) ∧
    ∃ w out, run 31 (fun _ => -1) wquInit
        [.union 1 2, .isConnected 7 1, .union 2 5, .isConnected 1 5] = some (w, out) ∧
      ∃ a, out[3]? = some a ∧ (a = 1 ↔ (1 : Int) = 5 ∨ Connected [(1, 2), (2, 5)] 1 5) := by
  refine ⟨by decide, ?_⟩
  obtain ⟨w, out, hrun, -, hans, -⟩ := wqu_run_connectivity (fun _ => -1) 31 (Nat.le_refl 31)
    [.union 1 2, .isConnected 7 1, .union 2 5, .isConnected 1 5] (by decide)
  obtain ⟨a, ha, -, hiff⟩ := hans 3 1 5 rfl
  exact ⟨w, out, hrun, a, ha, hiff⟩

open Classical in
/-- **WEIGHTED UNION.**  In every state reached by calls in range the two arrays
    hold, on `0 .. maxid` (`n = maxid + 1` nodes), a parent map `f` and sizes `g`
    such that every node has a root, the size of a root is the number of nodes
    under it, the sizes of the roots add up to `maxid + 1`, and a node at distance
    `d` from its root `r` has `2 ^ d ≤ sz[r]`. -/
theorem wqu_run_weighted (junk : Nat → Int) (fuel : Nat) (hfuel : 31 ≤ fuel)
    (ops : List Op) (hr : ∀ op ∈ ops, op.InRange) :
    ∃ w out, run fuel junk wquInit ops = some (w, out) ∧ ∃ n f g, Holds w n f g ∧
      (∀ x < n, ∃ r d, r < n ∧ PathTo f x r d ∧ f r = r) ∧
      (∀ r < n, f r = r → g r = ((Finset.range n).filter (fun x => RootOf f x r)).card) ∧
      (∑ r ∈ (Finset.range n).filter (fun r => f r = r), g r = n) ∧
      (∀ x < n, ∀ r d, PathTo f x r d → 2 ^ d ≤ g r) := by
  obtain ⟨w, out, hrun, ⟨n, f, g, htr⟩, -, -⟩ := run_spec junk hfuel ops reached_init hr
  refine ⟨w, out, hrun, n, f, g, htr.holds, ?_, ?_, ?_, ?_⟩
  · intro x hx
    have hxV := Finset.mem_range.mpr hx
    obtain ⟨r, d, hd⟩ := htr.forest.rooted x hxV
    exact ⟨r, d, Finset.mem_range.mp (htr.forest.root_mem hd hxV), hd, hd.isRoot⟩
  · intro r hrn hroot
    exact htr.forest.size_eq r (Finset.mem_range.mpr hrn) hroot
  · have hsum := htr.forest.sum_size
    rw [Finset.card_range] at hsum
    exact hsum
  · intro x hx r d hd
    exact htr.forest.depth_le x (Finset.mem_range.mpr hx) r d hd

open Classical in
/-- The weighted forest after a run that makes a tree of three nodes. -/
theorem wqu_run_weighted_chain :
    (∀ op ∈ [Op.union 2 1, .union 5 1, .isConnected 3 0], op.InRange) ∧
    ∃ w out, run 31 (fun _ => -1) wquInit [.union 2 1, .union 5 1, .isConnected 3 0]
        = some (w, out) ∧ ∃ n f g, Holds w n f g ∧
      (∑ r ∈ (Finset.range n).filter (fun r => f r = r), g r = n) := by
  refine ⟨by decide, ?_⟩
  obtain ⟨w, out, hrun, n, f, g, hholds, -, -, hsum, -⟩ := wqu_run_weighted (fun _ => -1) 31
    (Nat.le_refl 31) [.union 2 1, .union 5 1, .isConnected 3 0] (by decide)
  exact ⟨w, out, hrun, n, f, g, hholds, hsum⟩

/-- The test `big tree / small tree` of the source: `sz[2]` is 3, then 5. -/
example : (run 31 (fun _ => 0) wquInit
    [.union 2 1, .union 5 1, .union 3 4, .isConnected 1 3, .union 5 3]).map
      (fun r => (getAt r.1.sz 2, r.2)) = some (some 5, [0, 0, 0, 0, 0]) := by decide

end Wqu
