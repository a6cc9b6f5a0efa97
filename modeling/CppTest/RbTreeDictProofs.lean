import CppTest.RbTreeInsertProofs
import Mathlib.Data.List.Dedup

/-! # The red-black tree is a dictionary

    With `node_cmp` a total preorder, what the tree holds after any sequence of
    insertions is determined by the inserted data alone:

    * `latest H ds k` — the datum with the key of `k` that was inserted last;
    * `distinctKeys H ds` — one datum per key, the last one;
    * `Dict H ds its fr` — the nodes in order are strictly increasing, hold the latest
      datum of every key, and what is freed and what is held are together what was
      inserted.  `Dict.step` shows that an insertion keeps this.

    `rbtreeSearch_spec` and `rbtreeInorderWalk_spec` say what the two read-only
    operations return on such a tree, and `rbtree_dictionary` puts the three
    together. -/

namespace RbTree

open Machine LinkedTree LTree

variable {δ : Type}

/-! ## Comparators -/

/-- `node_cmp` orders the data by key; zero means the same key. -/
structure TotalPreorder (cmp : δ → δ → Int) : Prop where
  swap : ∀ a b, cmp a b < 0 ↔ 0 < cmp b a
  trans : ∀ a b c, cmp a b ≤ 0 → cmp b c ≤ 0 → cmp a c ≤ 0

namespace TotalPreorder

variable {cmp : δ → δ → Int} (h : TotalPreorder cmp)
include h

theorem refl (a : δ) : cmp a a = 0 := by
  have := h.swap a a
  omega

theorem symm {a b : δ} (hab : cmp a b = 0) : cmp b a = 0 := by
  have h1 := h.swap a b
  have h2 := h.swap b a
  omega

theorem eq_trans {a b c : δ} (hab : cmp a b = 0) (hbc : cmp b c = 0) : cmp a c = 0 := by
  have h1 := h.trans a b c (by omega) (by omega)
  have h2 := h.trans c b a (h.symm hbc).le (h.symm hab).le
  have h3 := h.swap a c
  omega

theorem lt_trans {a b c : δ} (hab : cmp a b < 0) (hbc : cmp b c < 0) : cmp a c < 0 := by
  have h1 := h.trans a b c hab.le hbc.le
  have h2 := h.swap b c
  -- a, b and c in one class would put c below b
  have h3 : cmp a c = 0 → cmp c b ≤ 0 := fun heq => h.trans c a b (h.symm heq).le hab.le
  omega

/-- Data with the same key compare alike. -/
theorem congr_left {a b : δ} (hab : cmp a b = 0) (c : δ) : cmp a c < 0 ↔ cmp b c < 0 := by
  have key : ∀ {a b : δ}, cmp a b = 0 → cmp a c < 0 → cmp b c < 0 := by
    intro a b hab hac
    have h1 := h.trans b a c (h.symm hab).le hac.le
    have h2 : cmp b c = 0 → cmp a c = 0 := h.eq_trans hab
    omega
  exact ⟨key hab, key (h.symm hab)⟩

theorem congr_right {a b : δ} (hab : cmp a b = 0) (c : δ) : cmp c a < 0 ↔ cmp c b < 0 := by
  have h1 := h.congr_left hab c
  have key : ∀ x, cmp c x < 0 ↔ ¬ cmp x c < 0 ∧ cmp x c ≠ 0 := by
    intro x
    have := h.swap c x
    omega
  have h2 : cmp a c = 0 ↔ cmp b c = 0 := ⟨h.eq_trans (h.symm hab), h.eq_trans hab⟩
  rw [key a, key b, h1, ne_eq, h2]

end TotalPreorder

/-! ## What has been inserted -/

/-- The last datum of the list with the key of `k`. -/
def latest (H : Hooks δ) (ds : List δ) (k : δ) : Option δ :=
  ds.reverse.find? fun d => H.nodeCmp k d = 0

/-- The data of the list with each key once, the last one of it. -/
def distinctKeys (H : Hooks δ) (ds : List δ) : List δ :=
  ds.pwFilter fun d e => H.nodeCmp d e ≠ 0

theorem latest_snoc (H : Hooks δ) (ds : List δ) (x k : δ) :
    latest H (ds ++ [x]) k = if H.nodeCmp k x = 0 then some x else latest H ds k := by
  simp only [latest, List.reverse_append, List.reverse_singleton, List.singleton_append,
    List.find?_cons]
  by_cases h : H.nodeCmp k x = 0 <;> simp [h]

theorem latest_isSome (H : Hooks δ) (ds : List δ) (k : δ) :
    (∃ d, latest H ds k = some d) ↔ ∃ d ∈ ds, H.nodeCmp k d = 0 := by
  rw [← Option.isSome_iff_exists, latest, List.find?_isSome]
  simp

theorem distinctKeys_cons {H : Hooks δ} (hcmp : TotalPreorder H.nodeCmp) (a : δ) (ds : List δ) :
    distinctKeys H (a :: ds) = if ∀ b ∈ ds, H.nodeCmp a b ≠ 0 then a :: distinctKeys H ds
      else distinctKeys H ds := by
  have hiff := List.forall_mem_pwFilter (R := fun d e => H.nodeCmp d e ≠ 0) (fun {x y z} hxz => by
    by_contra hor
    push Not at hor
    exact hxz (hcmp.eq_trans hor.1 hor.2)) a ds
  by_cases hds : ∀ b ∈ ds, H.nodeCmp a b ≠ 0
  · rw [if_pos hds]
    exact List.pwFilter_cons_of_pos (hiff.mpr hds)
  · rw [if_neg hds]
    exact List.pwFilter_cons_of_neg (fun h => hds (hiff.mp h))

theorem distinctKeys_snoc {H : Hooks δ} (hcmp : TotalPreorder H.nodeCmp) (ds : List δ) (x : δ) :
    distinctKeys H (ds ++ [x])
      = (distinctKeys H ds).filter (fun d => H.nodeCmp d x ≠ 0) ++ [x] := by
  induction ds with
  | nil => rfl
  | cons a ds ih =>
      rw [List.cons_append, distinctKeys_cons hcmp, distinctKeys_cons hcmp, ih]
      by_cases hds : ∀ b ∈ ds, H.nodeCmp a b ≠ 0
      · rw [if_pos hds]
        by_cases hx : H.nodeCmp a x = 0
        · rw [if_neg (fun hall => hall x (by simp) hx), List.filter_cons_of_neg (by simp [hx])]
        · have hpos : ∀ b ∈ ds ++ [x], H.nodeCmp a b ≠ 0 := by
            intro b hb
            cases List.mem_append.mp hb with
            | inl hb => exact hds b hb
            | inr hb => rw [List.mem_singleton.mp hb]; exact hx
          rw [if_pos hpos, List.filter_cons_of_pos (by simp [hx]), List.cons_append]
      · rw [if_neg hds, if_neg (fun hall => hds fun b hb => hall b (by simp [hb]))]

/-! ## The dictionary invariant -/

/-- What the nodes in order and the freed data have to do with the inserted data. -/
structure Dict (H : Hooks δ) (ds : List δ) (its : List (Nat × δ)) (fr : List δ) : Prop where
  sorted : (its.map Prod.snd).Pairwise fun a b => H.nodeCmp a b < 0
  held : ∀ k d, (d ∈ its.map Prod.snd ∧ H.nodeCmp k d = 0) ↔ latest H ds k = some d
  keys : (its.map Prod.snd).Perm (distinctKeys H ds)
  freed : H.nodeDataFree = true → (fr ++ its.map Prod.snd).Perm ds

theorem dict_empty (H : Hooks δ) : Dict H [] [] [] where
  sorted := List.Pairwise.nil
  held := fun _ _ => ⟨(fun h => nomatch h.1), (fun h => nomatch h)⟩
  keys := List.Perm.refl _
  freed := fun _ => List.Perm.refl _

/-- On a sorted tree, the place where a search ends separates the smaller data from
    the larger. -/
theorem searched_split {H : Hooks δ} (hcmp : TotalPreorder H.nodeCmp) {data : δ} :
    ∀ (k : List (Frame (NodeVal δ))), Searched H data k →
      ((before k ++ after k).map Prod.snd).Pairwise (fun a b => H.nodeCmp a b < 0) →
      (∀ d ∈ (before k).map Prod.snd, H.nodeCmp d data < 0) ∧
      (∀ d ∈ (after k).map Prod.snd, H.nodeCmp data d < 0) := by
  intro k hs hsort
  refine hs.separates ?_ (fun d hlt => hlt) ?_ ?_ hsort
  · exact fun d hgt => (hcmp.swap _ _).mpr hgt
  · exact fun hde he => hcmp.lt_trans hde he
  · exact fun hde hd => hcmp.lt_trans hd hde

/-- Putting a datum between the smaller and the larger ones, in place of the data
    `M` with the same key (at most one). -/
theorem Dict.put {H : Hooks δ} (hcmp : TotalPreorder H.nodeCmp) {ds fr gone X M Y : List δ}
    {its its' : List (Nat × δ)} {data : δ} (h : Dict H ds its fr)
    (hits : its.map Prod.snd = X ++ M ++ Y) (hits' : its'.map Prod.snd = X ++ data :: Y)
    (hX : ∀ d ∈ X, H.nodeCmp d data < 0) (hM : ∀ d ∈ M, H.nodeCmp data d = 0)
    (hY : ∀ d ∈ Y, H.nodeCmp data d < 0) (hgone : H.nodeDataFree = true → gone = M) :
    Dict H (ds ++ [data]) its' (fr ++ gone) := by
  obtain ⟨hsort, hheld, hkeys, hfreed⟩ := h
  rw [hits] at hsort hkeys
  have hXne : ∀ d ∈ X, H.nodeCmp d data ≠ 0 := fun d hd => (hX d hd).ne
  have hYne : ∀ d ∈ Y, H.nodeCmp d data ≠ 0 := fun d hd heq => (hY d hd).ne (hcmp.symm heq)
  have hMeq : ∀ d ∈ M, H.nodeCmp d data = 0 := fun d hd => hcmp.symm (hM d hd)
  refine ⟨?_, ?_, ?_, ?_⟩
  · rw [hits']
    rw [List.append_assoc, List.pairwise_append, List.pairwise_append] at hsort
    rw [List.pairwise_append, List.pairwise_cons]
    obtain ⟨hsX, ⟨-, hsY, -⟩, hcross⟩ := hsort
    refine ⟨hsX, ⟨hY, hsY⟩, ?_⟩
    intro d hd e he
    cases List.mem_cons.mp he with
    | inl heq => rw [heq]; exact hX d hd
    | inr he => exact hcross d hd e (List.mem_append.mpr (Or.inr he))
  · intro k d
    rw [hits', latest_snoc]
    by_cases hk : H.nodeCmp k data = 0
    · -- the new datum is the only one with this key
      rw [if_pos hk, List.mem_append, List.mem_cons, Option.some.injEq]
      constructor
      · rintro ⟨hd | rfl | hd, hkd⟩
        · exact absurd (hcmp.eq_trans (hcmp.symm hkd) hk) (hXne d hd)
        · rfl
        · exact absurd (hcmp.eq_trans (hcmp.symm hkd) hk) (hYne d hd)
      · rintro rfl
        exact ⟨Or.inr (Or.inl rfl), hk⟩
    · -- another key: the datum with it is the one from before
      rw [if_neg hk, ← hheld, hits]
      simp only [List.mem_append, List.mem_cons]
      constructor
      · rintro ⟨hd | rfl | hd, hkd⟩
        · exact ⟨Or.inl (Or.inl hd), hkd⟩
        · exact absurd hkd hk
        · exact ⟨Or.inr hd, hkd⟩
      · rintro ⟨(hd | hd) | hd, hkd⟩
        · exact ⟨Or.inl hd, hkd⟩
        · exact absurd (hcmp.eq_trans hkd (hMeq d hd)) hk
        · exact ⟨Or.inr (Or.inr hd), hkd⟩
  · rw [hits', distinctKeys_snoc hcmp]
    have hfilter : (X ++ M ++ Y).filter (fun d => H.nodeCmp d data ≠ 0) = X ++ Y := by
      rw [List.filter_append, List.filter_append,
        List.filter_eq_self.mpr fun d hd => decide_eq_true (hXne d hd),
        List.filter_eq_self.mpr fun d hd => decide_eq_true (hYne d hd),
        List.filter_eq_nil_iff.mpr fun d hd => by simp [hMeq d hd], List.append_nil]
    have hperm := hkeys.filter fun d => H.nodeCmp d data ≠ 0
    rw [hfilter] at hperm
    exact List.perm_middle.trans ((hperm.cons data).trans (List.perm_append_singleton _ _).symm)
  · intro hfree
    have hperm := hfreed hfree
    rw [hits] at hperm
    rw [hgone hfree, hits']
    refine List.Perm.trans ?_ (hperm.append_right [data])
    rw [← Multiset.coe_eq_coe]
    simp only [← Multiset.coe_add, ← Multiset.cons_coe, ← Multiset.singleton_add]
    abel

/-- **An insertion keeps the dictionary.** -/
theorem Dict.step {H : Hooks δ} (hcmp : TotalPreorder H.nodeCmp) {ds fr gone : List δ}
    {its its' : List (Nat × δ)} {new : Nat} {data : δ} (h : Dict H ds its fr)
    (hs : Step H new data its its' gone) : Dict H (ds ++ [data]) its' (fr ++ gone) := by
  have hsort := h.sorted
  cases hs with
  | fresh k hk =>
      obtain ⟨hb, ha⟩ := searched_split hcmp k hk hsort
      refine h.put hcmp (M := []) ?_ ?_ hb (fun _ hd => nomatch hd) ha (fun _ => rfl)
      · simp
      · simp
  | replace xs ys a d heq =>
      rw [List.map_append, List.map_cons, List.pairwise_append, List.pairwise_cons] at hsort
      obtain ⟨-, ⟨hys, -⟩, hxs⟩ := hsort
      have heq' := hcmp.symm heq
      refine h.put hcmp (X := xs.map Prod.snd) (M := [d]) (Y := ys.map Prod.snd) ?_ ?_ ?_ ?_ ?_ ?_
      · simp
      · simp
      · intro e he
        exact (hcmp.congr_right heq' e).mp (hxs e he d (List.mem_cons_self ..))
      · intro e he
        rw [List.mem_singleton.mp he]
        exact heq
      · intro e he
        exact (hcmp.congr_left heq' e).mp (hys e he)
      · intro hfree
        rw [if_pos hfree]

/-! ## Search -/

/-- On a sorted tree the search finds the node with the key, if there is one. -/
theorem rbtreeSearch_spec {H : Hooks δ} (hcmp : TotalPreorder H.nodeCmp) {m : Mem (NodeVal δ)}
    (k : δ) : ∀ {t : LTree (NodeVal δ)} {p : Option Nat}, Reps m p t →
      ((items t).map Prod.snd).Pairwise (fun a b => H.nodeCmp a b < 0) →
      ∃ r, (∀ fuel, t.height < fuel → loop (rbtreeSearchPass H m k) fuel t.ptr = some r) ∧
        (r = none → ∀ d ∈ (items t).map Prod.snd, H.nodeCmp k d ≠ 0) ∧
        ∀ x, r = some x → ∃ c, m x = some c ∧ H.nodeCmp k c.val.data = 0 ∧
          c.val.data ∈ (items t).map Prod.snd := by
  intro t
  induction t with
  | nil =>
      intro p _ _
      refine ⟨none, ?_, fun _ _ hd => absurd hd List.not_mem_nil,
        fun x h => absurd h.symm (Option.some_ne_none x)⟩
      exact fun fuel hfuel => loop_done (by omega) rfl
  | node a l v r ihl ihr =>
      intro p hreps hsort
      obtain ⟨ha, hl, hr⟩ := hreps
      have hheight : (LTree.node a l v r).height = max l.height r.height + 1 := rfl
      simp only [items, List.map_append, List.map_cons, List.pairwise_append, List.pairwise_cons,
        List.mem_append, List.mem_cons] at hsort ⊢
      obtain ⟨hsl, ⟨hvr, hsr⟩, hlr⟩ := hsort
      rcases lt_trichotomy (H.nodeCmp k v.data) 0 with hlt | heq | hgt
      · obtain ⟨x, hrun, hnone, hsome⟩ := ihl hl hsl
        refine ⟨x, ?_, ?_, ?_⟩
        · intro fuel hfuel
          have hpass : rbtreeSearchPass H m k (some a) = some (.next l.ptr) := by
            simp [rbtreeSearchPass, ha, hlt, hlt.ne]
          exact (loop_next (by omega) hpass).trans (hrun _ (by omega))
        · rintro hx d (hd | rfl | hd)
          · exact hnone hx d hd
          · exact hlt.ne
          · exact (hcmp.lt_trans hlt (hvr d hd)).ne
        · intro y hy
          obtain ⟨c, hc, hkc, hmem⟩ := hsome y hy
          exact ⟨c, hc, hkc, Or.inl hmem⟩
      · refine ⟨some a, ?_, fun h => absurd h (Option.some_ne_none a), ?_⟩
        · intro fuel hfuel
          refine loop_done (by omega) ?_
          simp [rbtreeSearchPass, ha, heq, ptr]
        · intro x hx
          obtain rfl := Option.some.inj hx
          exact ⟨_, ha, heq, Or.inr (Or.inl rfl)⟩
      · obtain ⟨x, hrun, hnone, hsome⟩ := ihr hr hsr
        refine ⟨x, ?_, ?_, ?_⟩
        · intro fuel hfuel
          have hpass : rbtreeSearchPass H m k (some a) = some (.next r.ptr) := by
            simp [rbtreeSearchPass, ha, hgt.ne', not_lt_of_gt hgt]
          exact (loop_next (by omega) hpass).trans (hrun _ (by omega))
        · rintro hx d (hd | rfl | hd)
          · have hdk := hcmp.lt_trans (hlr d hd v.data (Or.inl rfl)) ((hcmp.swap _ _).mpr hgt)
            exact ((hcmp.swap _ _).mp hdk).ne'
          · exact hgt.ne'
          · exact hnone hx d hd
        · intro y hy
          obtain ⟨c, hc, hkc, hmem⟩ := hsome y hy
          exact ⟨c, hc, hkc, Or.inr (Or.inr hmem)⟩

/-! ## In-order walk -/

/-- The array after writing the data from index `len` on. -/
def writeFrom (nodes : Nat → Option δ) (len : Nat) : List δ → Nat → Option δ
  | [] => nodes
  | d :: ds => writeFrom (Function.update nodes len (some d)) (len + 1) ds

theorem writeFrom_append (xs ys : List δ) : ∀ (nodes : Nat → Option δ) (len : Nat),
    writeFrom nodes len (xs ++ ys) = writeFrom (writeFrom nodes len xs) (len + xs.length) ys := by
  induction xs with
  | nil => intro nodes len; rfl
  | cons x xs ih =>
      intro nodes len
      show writeFrom (Function.update nodes len (some x)) (len + 1) (xs ++ ys) = _
      rw [ih, List.length_cons, show len + (xs.length + 1) = len + 1 + xs.length by omega]
      rfl

theorem writeFrom_apply (ds : List δ) : ∀ (nodes : Nat → Option δ) (len i : Nat),
    writeFrom nodes len ds i
      = if len ≤ i ∧ i < len + ds.length then ds[i - len]? else nodes i := by
  induction ds with
  | nil =>
      intro nodes len i
      rw [if_neg (by simp only [List.length_nil]; omega)]
      rfl
  | cons d ds ih =>
      intro nodes len i
      show writeFrom (Function.update nodes len (some d)) (len + 1) ds i = _
      rw [ih, List.length_cons]
      rcases Nat.lt_trichotomy i len with hlt | heq | hgt
      · rw [if_neg (by omega), if_neg (by omega), Function.update_of_ne (by omega)]
      · rw [if_neg (by omega), if_pos (by omega), heq, Function.update_self, Nat.sub_self,
          List.getElem?_cons_zero]
      · obtain ⟨j, rfl⟩ : ∃ j, i = len + 1 + j := ⟨i - (len + 1), by omega⟩
        rw [Function.update_of_ne (by omega), Nat.add_sub_cancel_left,
          show len + 1 + j - len = j + 1 by omega, List.getElem?_cons_succ]
        by_cases hj : j < ds.length
        · rw [if_pos (by omega), if_pos (by omega)]
        · rw [if_neg (by omega), if_neg (by omega)]

/-- The walk writes the data of the tree in order. -/
theorem rbtreeInorderWalkFrom_spec {m : Mem (NodeVal δ)} : ∀ {t : LTree (NodeVal δ)}
    {p : Option Nat}, Reps m p t → ∀ (nodes : Nat → Option δ) (len fuel : Nat),
      t.height < fuel → rbtreeInorderWalkFrom fuel m t.ptr nodes len
        = some (writeFrom nodes len ((items t).map Prod.snd), len + t.size) := by
  intro t
  induction t with
  | nil =>
      intro p _ nodes len fuel hfuel
      obtain ⟨n, rfl⟩ : ∃ n, fuel = n + 1 := ⟨fuel - 1, by omega⟩
      rfl
  | node a l v r ihl ihr =>
      intro p hreps nodes len fuel hfuel
      obtain ⟨n, rfl⟩ : ∃ n, fuel = n + 1 := ⟨fuel - 1, by omega⟩
      have hheight : (LTree.node a l v r).height = max l.height r.height + 1 := rfl
      obtain ⟨ha, hl, hr⟩ := hreps
      show rbtreeInorderWalkFrom (n + 1) m (some a) nodes len = some (writeFrom nodes len
        ((items l ++ (a, v.data) :: items r).map Prod.snd), len + (l.size + 1 + r.size))
      simp only [rbtreeInorderWalkFrom, ha, Option.bind_eq_bind, Option.bind_some]
      rw [ihl hl nodes len n (by omega)]
      simp only [Option.bind_some]
      rw [ihr hr _ _ n (by omega), List.map_append, List.map_cons, writeFrom_append,
        List.length_map, length_items, Nat.add_assoc, Nat.add_assoc]
      rfl

/-! ## The dictionary -/

section Held
variable {H : Hooks δ} {ds : List δ} {tr : Rb δ} {t : LTree (NodeVal δ)}

theorem Dict.mem_iff_latest (hcmp : TotalPreorder H.nodeCmp) {its : List (Nat × δ)} {fr : List δ}
    (h : Dict H ds its fr) (d : δ) : d ∈ its.map Prod.snd ↔ latest H ds d = some d := by
  rw [← h.held d d]
  exact ⟨fun hd => ⟨hd, hcmp.refl d⟩, fun h => h.1⟩

/-- The tree is no higher than there were insertions. -/
theorem Dict.height_le (h : Dict H ds (items t) tr.freed) : t.height ≤ ds.length := by
  have hsize := t.height_le_size
  have hkeys := h.keys.length_eq
  have hsub := (List.pwFilter_sublist (R := fun d e => H.nodeCmp d e ≠ 0) ds).length_le
  rw [List.length_map, length_items] at hkeys
  unfold distinctKeys at hkeys
  omega

/-- A search finds a node exactly for the keys that were inserted, with the latest
    datum. -/
theorem Dict.search (hcmp : TotalPreorder H.nodeCmp) (hb : Balanced tr t)
    (h : Dict H ds (items t) tr.freed) (k : δ) :
    ∃ r, (∀ fuel, t.height < fuel → rbtreeSearch H fuel tr k = some r) ∧
      (r.isSome ↔ ∃ d ∈ ds, H.nodeCmp k d = 0) ∧
      ∀ x, r = some x → ∃ c, tr.mem x = some c ∧ latest H ds k = some c.val.data := by
  have hroot : tr.root = t.ptr := hb.focus.ctx
  obtain ⟨r, hsearch, hnone, hsome⟩ := rbtreeSearch_spec hcmp k hb.focus.tree h.sorted
  refine ⟨r, ?_, ?_, ?_⟩
  · intro fuel hfuel
    rw [rbtreeSearch, hroot]
    exact hsearch fuel hfuel
  · rw [← latest_isSome]
    cases r with
    | none =>
        refine ⟨(fun h => nomatch h), ?_⟩
        rintro ⟨d, hd⟩
        obtain ⟨hmem, hkd⟩ := (h.held k d).mpr hd
        exact absurd hkd (hnone rfl d hmem)
    | some x =>
        obtain ⟨c, -, hkc, hmem⟩ := hsome x rfl
        exact ⟨fun _ => ⟨_, (h.held k _).mp ⟨hmem, hkc⟩⟩, fun _ => rfl⟩
  · intro x hx
    obtain ⟨c, hc, hkc, hmem⟩ := hsome x hx
    exact ⟨c, hc, (h.held k _).mp ⟨hmem, hkc⟩⟩

/-- The walk fills the first cells of the array with the data in order, and leaves the
    others. -/
theorem Balanced.walk (hb : Balanced tr t) (nodes : Nat → Option δ) :
    ∃ nodes', (∀ fuel, t.height < fuel → rbtreeInorderWalk fuel tr nodes
        = some (nodes', ((items t).map Prod.snd).length)) ∧
      (∀ i, i < ((items t).map Prod.snd).length → nodes' i = ((items t).map Prod.snd)[i]?) ∧
      ∀ i, ((items t).map Prod.snd).length ≤ i → nodes' i = nodes i := by
  have hroot : tr.root = t.ptr := hb.focus.ctx
  have hlen : ((items t).map Prod.snd).length = t.size := by
    rw [List.length_map, length_items]
  refine ⟨writeFrom nodes 0 ((items t).map Prod.snd), ?_, ?_, ?_⟩
  · intro fuel hfuel
    rw [rbtreeInorderWalk, hroot, rbtreeInorderWalkFrom_spec hb.focus.tree nodes 0 fuel hfuel,
      Nat.zero_add, hlen]
  · intro i hi
    rw [writeFrom_apply, if_pos (by omega), Nat.sub_zero]
  · intro i hi
    rw [writeFrom_apply, if_neg (by omega)]

/-- What was freed is what was superseded, once each. -/
theorem Dict.freed_iff (hcmp : TotalPreorder H.nodeCmp) {its : List (Nat × δ)} {fr : List δ}
    (h : Dict H ds its fr) (hfree : H.nodeDataFree = true) (hnd : ds.Nodup) :
    fr.Nodup ∧ (∀ d ∈ its.map Prod.snd, d ∉ fr) ∧
      ∀ d, d ∈ fr ↔ d ∈ ds ∧ latest H ds d ≠ some d := by
  have hperm := h.freed hfree
  obtain ⟨hfr, -, hdisj⟩ := List.nodup_append.mp (hperm.nodup_iff.mpr hnd)
  refine ⟨hfr, fun d hd hd' => hdisj d hd' d hd rfl, ?_⟩
  intro d
  rw [← hperm.mem_iff, ne_eq, ← h.mem_iff_latest hcmp d, List.mem_append]
  constructor
  · exact fun hd => ⟨Or.inl hd, fun hd' => hdisj d hd d hd' rfl⟩
  · rintro ⟨hd | hd, hnot⟩
    · exact hd
    · exact absurd hd hnot

end Held

/-- **The tree after any sequence of insertions is the dictionary of what was
    inserted.**  With `ds` the inserted data and `L` what the tree holds: a search
    finds a node exactly for the keys of `ds`, and its data is the latest; the walk
    writes `L` and counts it; `L` has each key once, in increasing order and with its
    latest datum; and the data that were superseded, and no other, have been
    freed. -/
theorem rbtree_dictionary (H : Hooks δ) (hcmp : TotalPreorder H.nodeCmp)
    (calls : List (Nat × δ)) (hfresh : (calls.map Prod.fst).Nodup) :
    ∃ (tr : Rb δ) (L : List δ),
      (∀ fuel, 2 * calls.length ≤ fuel → insertAll H fuel emptyTree calls = some tr) ∧
      (∀ k, ∃ r, (∀ fuel, calls.length < fuel → rbtreeSearch H fuel tr k = some r) ∧
        (r.isSome ↔ ∃ d ∈ calls.map Prod.snd, H.nodeCmp k d = 0) ∧
        ∀ x, r = some x → ∃ c, tr.mem x = some c ∧
          latest H (calls.map Prod.snd) k = some c.val.data) ∧
      (∀ nodes, ∃ nodes',
        (∀ fuel, calls.length < fuel → rbtreeInorderWalk fuel tr nodes = some (nodes', L.length)) ∧
        (∀ i, i < L.length → nodes' i = L[i]?) ∧ ∀ i, L.length ≤ i → nodes' i = nodes i) ∧
      L.Pairwise (fun a b => H.nodeCmp a b < 0) ∧
      (∀ d, d ∈ L ↔ latest H (calls.map Prod.snd) d = some d) ∧
      L.length = (distinctKeys H (calls.map Prod.snd)).length ∧
      (H.nodeDataFree = true → (calls.map Prod.snd).Nodup →
        tr.freed.Nodup ∧ (∀ d ∈ L, d ∉ tr.freed) ∧
        ∀ d, d ∈ tr.freed ↔ d ∈ calls.map Prod.snd ∧
          latest H (calls.map Prod.snd) d ≠ some d) := by
  obtain ⟨tr, t, hrun, hb, hdict⟩ := insertAll_spec H (P := Dict H)
    (fun _ _ _ _ _ _ _ h hs => h.step hcmp hs) calls [] balanced_emptyTree (dict_empty H) hfresh
    (fun _ _ h => nomatch h)
  rw [List.nil_append] at hdict
  have hheight : t.height ≤ calls.length := by
    have hle := hdict.height_le
    rw [List.length_map] at hle
    exact hle
  refine ⟨tr, (items t).map Prod.snd, ?_, ?_, ?_, hdict.sorted, hdict.mem_iff_latest hcmp,
    hdict.keys.length_eq, hdict.freed_iff hcmp⟩
  · intro fuel hfuel
    exact hrun fuel (by rw [show (LTree.nil : LTree (NodeVal δ)).size = 0 from rfl]; omega)
  · intro k
    obtain ⟨r, hsearch, hfound⟩ := hdict.search hcmp hb k
    exact ⟨r, fun fuel hfuel => hsearch fuel (hheight.trans_lt hfuel), hfound⟩
  · intro nodes
    obtain ⟨nodes', hwalk, hcells⟩ := hb.walk nodes
    exact ⟨nodes', fun fuel hfuel => hwalk fuel (hheight.trans_lt hfuel), hcells⟩

/-- Three insertions with the last digit as the key: 21 supersedes 11, which is the
    only datum freed. -/
theorem rbtree_dictionary_digits :
    ∃ (tr : Rb Int) (L : List Int),
      (∀ fuel, 6 ≤ fuel → insertAll ⟨fun a b => a % 10 - b % 10, true⟩ fuel emptyTree
        [(1, 11), (2, 7), (3, 21)] = some tr) ∧
      (∀ nodes, ∃ nodes', (∀ fuel, 3 < fuel →
        rbtreeInorderWalk fuel tr nodes = some (nodes', L.length)) ∧
        ∀ i, i < L.length → nodes' i = L[i]?) ∧
      L.Pairwise (fun a b => a % 10 - b % 10 < 0) ∧ L.length = 2 ∧
      11 ∈ tr.freed ∧ 7 ∉ tr.freed ∧ 21 ∉ tr.freed := by
  obtain ⟨tr, L, hrun, -, hwalk, hsort, -, hlen, hfreed⟩ :=
    rbtree_dictionary (⟨fun a b => a % 10 - b % 10, true⟩ : Hooks Int)
      ⟨fun a b => by show a % 10 - b % 10 < 0 ↔ 0 < b % 10 - a % 10; omega,
        fun a b c hab hbc => by
          have h1 : a % 10 - b % 10 ≤ 0 := hab
          have h2 : b % 10 - c % 10 ≤ 0 := hbc
          show a % 10 - c % 10 ≤ 0
          omega⟩
      [(1, 11), (2, 7), (3, 21)] (by decide)
  obtain ⟨-, -, hiff⟩ := hfreed rfl (by decide)
  refine ⟨tr, L, hrun, ?_, hsort, hlen, (hiff 11).mpr (by decide), ?_, ?_⟩
  · intro nodes
    obtain ⟨nodes', hw, hin, -⟩ := hwalk nodes
    exact ⟨nodes', hw, hin⟩
  · intro h
    exact absurd ((hiff 7).mp h) (by decide)
  · intro h
    exact absurd ((hiff 21).mp h) (by decide)

end RbTree
