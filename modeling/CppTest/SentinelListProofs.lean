import CppTest.MachineProofs
import CppTest.LinkedRingProofs

/-! # The list with a sentinel (`src/algs/cti/test_cti_list.cpp`)

    The list is a ring through its member `nil_`.  Its two operations spoil the ring:

    * `list_insert` writes `nil_.next_` BEFORE it follows it to the old first node, so
      the last statement makes the new node its own predecessor;
    * `list_search` returns `&nil_` for an absent key, and `list_delete`, which looks for
      a null pointer, then deletes `nil_`.

    Only `list_delete` of a key that is in a sound ring does what it should, and no call
    makes one (`sentinel_list`). -/

namespace SentinelList

open Machine LinkedRing

variable {κ : Type} [DecidableEq κ]

/-! ## The model -/

/-- Write a member of the cell at `a`; a null or dangling pointer faults. -/
def modify (m : Mem κ) (a : Option Nat) (f : Cell κ → Cell κ) : Option (Mem κ) := do
  let a ← a
  let c ← m a
  some (Function.update m a (some (f c)))

/-- `list_with_sentinel()`, the list whose `nil_` is at the address `nil`. -/
def newList (nil : Nat) (k : κ) : Mem κ :=
  Function.update (fun _ => none) nil (some ⟨k, some nil, some nil⟩)

/-- One pass of the loop of `list_search`. -/
def listSearchPass (m : Mem κ) (nil : Nat) (k : κ) (x : Option Nat) :
    Option (Pass (Option Nat) (Option Nat)) :=
  if x = some nil then some (.done x)
  else do
    let a ← x
    let c ← m a
    if c.key = k then some (.done x) else some (.next c.next)

/-- `list_search`. -/
def listSearch (fuel : Nat) (m : Mem κ) (nil : Nat) (k : κ) : Option (Option Nat) := do
  let c ← m nil
  loop (listSearchPass m nil k) fuel c.next

/-- `list_insert`; `new` copies `node` to the address `a`. -/
def listInsert (m : Mem κ) (nil a : Nat) (node : Cell κ) : Option (Mem κ) := do
  let m := Function.update m a (some node)
  let c ← m nil
  let m ← modify m (some a) fun x => { x with next := c.next }
  let m ← modify m (some a) fun x => { x with prev := some nil }
  let m ← modify m (some nil) fun x => { x with next := some a }
  let c ← m nil
  modify m c.next fun x => { x with prev := some a }

/-- `delete x`; `nil_` did not come from `new`. -/
def deleteCell (m : Mem κ) (nil x : Nat) : Option (Mem κ) :=
  if x = nil then none else some (Function.update m x none)

/-- `list_delete`. -/
def listDelete (fuel : Nat) (m : Mem κ) (nil : Nat) (k : κ) : Option (Mem κ) := do
  match ← listSearch fuel m nil k with
  | none => some m
  | some x =>
      let c ← m x
      let m ← modify m c.prev fun y => { y with next := c.next }
      let c ← m x
      let m ← modify m c.next fun y => { y with prev := c.prev }
      deleteCell m nil x

/-- A call; an insertion comes with the address that `new` will answer. -/
inductive Call (κ : Type) where
  | insert (a : Nat) (node : Cell κ)
  | delete (k : κ)

def call (fuel : Nat) (nil : Nat) (m : Mem κ) : Call κ → Option (Mem κ)
  | .insert a node => listInsert m nil a node
  | .delete k => listDelete fuel m nil k

/-- A sequence of calls. -/
def calls (fuel : Nat) (nil : Nat) (m : Mem κ) (cs : List (Call κ)) : Option (Mem κ) :=
  cs.foldlM (call fuel nil) m

/-! ## What the calls should do -/

/-- An insertion adds one node in front; a deletion takes out the first node with the
    key, if there is one. -/
def change (es : List (Nat × κ)) : Call κ → List (Nat × κ)
  | .insert a node => (a, node.key) :: es
  | .delete k => es.eraseP fun e => e.2 = k

/-- The calls return and leave a ring with the nodes they should. -/
def Sound (m : Mem κ) (nil : Nat) (es : List (Nat × κ)) (cs : List (Call κ)) : Prop :=
  ∃ fuel m', calls fuel nil m cs = some m' ∧ Ring m' nil (cs.foldl change es)

/-- Every call is a deletion of a key that is in the list then. -/
def DeletesPresent : List (Nat × κ) → List (Call κ) → Prop
  | _, [] => True
  | _, .insert _ _ :: _ => False
  | es, .delete k :: cs => k ∈ es.map Prod.snd ∧ DeletesPresent (change es (.delete k)) cs

/-! ## Searching -/

omit [DecidableEq κ] in
theorem ring_newList (nil : Nat) (k : κ) : Ring (newList nil k) nil [] := by
  refine ⟨?_, by simp, fun e he => nomatch he⟩
  have hcell : newList nil k nil = some ⟨k, some nil, some nil⟩ := Function.update_self ..
  rw [List.map_nil, List.nil_append, List.isChain_pair]
  exact ⟨by rw [nextOf, hcell]; rfl, by rw [prevOf, hcell]; rfl⟩

/-- Where the search ends: at the first node with the key, or at the sentinel. -/
def target (nil : Nat) (k : κ) (es : List (Nat × κ)) : Nat :=
  ((es.find? fun e => e.2 = k).map Prod.fst).getD nil

/-- The search along a chain of cells that ends at the sentinel. -/
theorem search_chain {m : Mem κ} {nil : Nat} (k : κ) (es : List (Nat × κ)) :
    ∀ (x fuel : Nat), List.IsChain (Linked m) (x :: (es.map Prod.fst ++ [nil])) →
      (∀ e ∈ es, e.1 ≠ nil ∧ (m e.1).map Cell.key = some e.2) → es.length < fuel →
      loop (listSearchPass m nil k) fuel (nextOf m x) = some (some (target nil k es)) := by
  induction es with
  | nil =>
      intro x fuel hchain _ hfuel
      rw [List.map_nil, List.nil_append, List.isChain_pair] at hchain
      rw [hchain.1]
      exact loop_done hfuel (if_pos rfl)
  | cons e es ih =>
      intro x fuel hchain hes hfuel
      rw [List.map_cons, List.cons_append, List.isChain_cons_cons] at hchain
      obtain ⟨hne, hkey⟩ := hes e (List.mem_cons_self ..)
      obtain ⟨c, hc, hck⟩ := Option.map_eq_some_iff.mp hkey
      have hpass : listSearchPass m nil k (some e.1)
          = if e.2 = k then some (.done (some e.1)) else some (.next (nextOf m e.1)) := by
        rw [listSearchPass, if_neg (fun heq => hne (Option.some.inj heq))]
        simp only [hc, hck, nextOf, Option.bind_eq_bind, Option.bind_some]
      rw [hchain.1.1]
      by_cases hk : e.2 = k
      · rw [if_pos hk] at hpass
        rw [loop_done (by omega) hpass, target, List.find?_cons_of_pos (by simpa using hk)]
        rfl
      · rw [if_neg hk] at hpass
        rw [loop_next (by omega) hpass, target, List.find?_cons_of_neg (by simpa using hk)]
        rw [List.length_cons] at hfuel
        exact ih e.1 _ hchain.2 (fun d hd => hes d (List.mem_cons_of_mem _ hd)) (by omega)

theorem search_ring {m : Mem κ} {nil : Nat} {es : List (Nat × κ)} (h : Ring m nil es) (k : κ)
    {fuel : Nat} (hfuel : es.length < fuel) :
    listSearch fuel m nil k = some (some (target nil k es)) := by
  have hchain := search_chain k es nil fuel h.links
    (fun e he => ⟨h.ne_nil he, h.keys e he⟩) hfuel
  obtain ⟨n, hn⟩ := h.first
  obtain ⟨c, hc, -⟩ := hn.next_cell
  unfold listSearch
  simp only [hc, Option.bind_eq_bind, Option.bind_some]
  rw [nextOf, hc] at hchain
  exact hchain

theorem listSearch_mono {m : Mem κ} {nil : Nat} {k : κ} {fuel fuel' : Nat} {x : Option Nat}
    (hle : fuel ≤ fuel') (h : listSearch fuel m nil k = some x) :
    listSearch fuel' m nil k = some x := by
  simp only [listSearch, Option.bind_eq_bind, Option.bind_eq_some_iff] at h ⊢
  obtain ⟨c, hc, hrun⟩ := h
  exact ⟨c, hc, loop_mono (fun _ _ h => h) hle hrun⟩

/-! ## One call -/

omit [DecidableEq κ] in
theorem modify_some {m : Mem κ} {a : Nat} {c : Cell κ} (h : m a = some c) (f : Cell κ → Cell κ) :
    modify m (some a) f = some (Function.update m a (some (f c))) := by
  simp only [modify, h, Option.bind_eq_bind, Option.bind_some]

/-- The nodes before the first one with the key, that node, and those behind it. -/
theorem split_at_key {es : List (Nat × κ)} {k : κ} (h : k ∈ es.map Prod.snd) :
    ∃ es₁ a es₂, es = es₁ ++ (a, k) :: es₂ ∧ (∀ e ∈ es₁, e.2 ≠ k) := by
  induction es with
  | nil => exact nomatch h
  | cons e es ih =>
      by_cases hk : e.2 = k
      · exact ⟨[], e.1, es, by rw [← hk]; rfl, fun _ hd => nomatch hd⟩
      · have hes : k ∈ es.map Prod.snd := by
          rcases List.mem_cons.mp h with heq | hes
          · exact absurd heq.symm hk
          · exact hes
        obtain ⟨es₁, a, es₂, rfl, hbefore⟩ := ih hes
        refine ⟨e :: es₁, a, es₂, rfl, ?_⟩
        intro d hd
        rcases List.mem_cons.mp hd with rfl | hd
        · exact hk
        · exact hbefore d hd

theorem target_split {nil : Nat} {k : κ} {es₁ es₂ : List (Nat × κ)} {x : Nat}
    (h : ∀ e ∈ es₁, e.2 ≠ k) : target nil k (es₁ ++ (x, k) :: es₂) = x := by
  have hnone : es₁.find? (fun e => e.2 = k) = none := by
    simpa [List.find?_eq_none] using h
  rw [target, List.find?_append, hnone]
  simp

theorem change_split {k : κ} {es₁ es₂ : List (Nat × κ)} {x : Nat} (h : ∀ e ∈ es₁, e.2 ≠ k) :
    change (es₁ ++ (x, k) :: es₂) (.delete k) = es₁ ++ es₂ := by
  rw [change, List.eraseP_append_right _ (by simpa using h), List.eraseP_cons_of_pos (by simp)]

/-- `list_delete` of a node between `p` and `n` links these two and frees the node. -/
theorem listDelete_between {m : Mem κ} {nil x p n : Nat} {k : κ} (hp : Linked m p x)
    (hn : Linked m x n) (hpx : p ≠ x) (hnx : n ≠ x) (hxnil : x ≠ nil) :
    ∃ m', (∀ fuel, listSearch fuel m nil k = some (some x) → listDelete fuel m nil k = some m')
      ∧ Linked m' p n ∧ (∀ a, a ≠ p → a ≠ x → nextOf m' a = nextOf m a)
      ∧ (∀ a, a ≠ n → a ≠ x → prevOf m' a = prevOf m a)
      ∧ ∀ a, a ≠ x → (m' a).map Cell.key = (m a).map Cell.key := by
  obtain ⟨c, hc, hcp⟩ := hp.prev_cell
  have hcn : c.next = some n := by
    obtain ⟨c', hc', hcn⟩ := hn.next_cell
    rwa [Option.some.inj (hc.symm.trans hc')]
  obtain ⟨cp, hcp', -⟩ := hp.next_cell
  -- the two neighbours are linked, one way after the other
  obtain ⟨m₁, hm₁⟩ : ∃ m₁, m₁ = Function.update m p (some { cp with next := some n }) := ⟨_, rfl⟩
  have hx₁ : m₁ x = some c := by rw [hm₁, Function.update_of_ne hpx.symm, hc]
  obtain ⟨d, hd⟩ : ∃ d, m₁ n = some d := by
    obtain ⟨cn, hcn', -⟩ := hn.prev_cell
    rw [hm₁, Function.update_apply]
    split_ifs
    · exact ⟨_, rfl⟩
    · exact ⟨cn, hcn'⟩
  obtain ⟨m₂, hm₂⟩ : ∃ m₂, m₂ = Function.update m₁ n (some { d with prev := some p }) := ⟨_, rfl⟩
  have hnext : ∀ a, a ≠ x → nextOf (Function.update m₂ x none) a
      = if a = p then some n else nextOf m a := by
    intro a ha
    rw [nextOf_update, if_neg ha, hm₂,
      nextOf_update_same hd (d := { d with prev := some p }) rfl, hm₁, nextOf_update]
    rfl
  have hprev : ∀ a, a ≠ x → prevOf (Function.update m₂ x none) a
      = if a = n then some p else prevOf m a := by
    intro a ha
    rw [prevOf_update, if_neg ha, hm₂, prevOf_update, hm₁,
      prevOf_update_same hcp' (d := { cp with next := some n }) rfl]
    rfl
  refine ⟨Function.update m₂ x none, ?_, ⟨?_, ?_⟩, ?_, ?_, ?_⟩
  · intro fuel hsearch
    unfold listDelete
    rw [hsearch]
    simp only [hc, hcp, hcn, modify_some hcp', ← hm₁, hx₁, modify_some hd, ← hm₂, deleteCell,
      if_neg hxnil, Option.bind_eq_bind, Option.bind_some]
  · rw [hnext p hpx, if_pos rfl]
  · rw [hprev n hnx, if_pos rfl]
  · intro a hap hax
    rw [hnext a hax, if_neg hap]
  · intro a han hax
    rw [hprev a hax, if_neg han]
  · intro a hax
    rw [Function.update_of_ne hax, hm₂, key_update_same hd (d := { d with prev := some p }) rfl, hm₁,
      key_update_same hcp' (d := { cp with next := some n }) rfl]

/-- **`list_delete` of a key in a sound ring** takes out the first node with it. -/
theorem listDelete_present {m : Mem κ} {nil : Nat} {es : List (Nat × κ)} (h : Ring m nil es) {k : κ}
    (hk : k ∈ es.map Prod.snd) :
    ∃ m', Ring m' nil (change es (.delete k)) ∧
      ∀ fuel, es.length < fuel → listDelete fuel m nil k = some m' := by
  obtain ⟨es₁, x, es₂, rfl, hbefore⟩ := split_at_key hk
  have hmem : (x, k) ∈ es₁ ++ (x, k) :: es₂ := by simp
  have hself := h.not_linked_self hmem
  obtain ⟨-, p, n, -, -, -, -, hp, hn, -⟩ := h.neighbours
  have hpx : p ≠ x := fun heq => hself (heq ▸ hp)
  have hnx : n ≠ x := fun heq => hself (heq ▸ hn)
  obtain ⟨m', hrun, hpn, hnext, hprev, hkeys⟩ :=
    listDelete_between (k := k) hp hn hpx hnx (h.ne_nil hmem)
  rw [change_split hbefore]
  refine ⟨m', h.unlink hp hn hpn hnext hprev hkeys, fun fuel hfuel => hrun fuel ?_⟩
  rw [search_ring h k hfuel, target_split hbefore]

/-- For an absent key it deletes the sentinel. -/
theorem listDelete_absent {m : Mem κ} {nil : Nat} {es : List (Nat × κ)} (h : Ring m nil es) {k : κ}
    (hk : k ∉ es.map Prod.snd) (fuel : Nat) : listDelete fuel m nil k = none := by
  have htarget : target nil k es = nil := by
    have hnone : es.find? (fun e => e.2 = k) = none := by
      rw [List.find?_eq_none]
      intro e he heq
      exact hk (List.mem_map.mpr ⟨e, he, by simpa using heq⟩)
    rw [target, hnone]
    rfl
  unfold listDelete
  cases hsearch : listSearch fuel m nil k with
  | none => rfl
  | some x =>
      -- more fuel would have found the same
      have hmore := listSearch_mono (Nat.le_max_left fuel (es.length + 1)) hsearch
      rw [search_ring h k (Nat.lt_of_lt_of_le (Nat.lt_succ_self _) (Nat.le_max_right ..)),
        htarget] at hmore
      obtain rfl := Option.some.inj hmore
      simp [deleteCell]

omit [DecidableEq κ] in
/-- `list_insert` makes the new node its own predecessor. -/
theorem listInsert_prev {m m' : Mem κ} {nil a : Nat} {node : Cell κ}
    (h : listInsert m nil a node = some m') : prevOf m' a = some a := by
  simp only [listInsert, modify, Option.bind_eq_bind, Option.bind_some,
    Option.bind_eq_some_iff] at h
  obtain ⟨-, -, m₁, -, m₂, -, m₃, ⟨c₂, -, hm₃⟩, c₃, hc₃, b, hb, c₄, hc₄, hm'⟩ := h
  obtain rfl := Option.some.inj hm₃
  rw [Function.update_self] at hc₃
  obtain rfl := Option.some.inj hc₃
  obtain rfl := Option.some.inj hb
  obtain rfl := Option.some.inj hm'
  rw [prevOf_update, if_pos rfl]
  rfl

omit [DecidableEq κ] in
theorem listInsert_spoils {m m' : Mem κ} {nil a : Nat} {node : Cell κ}
    (h : listInsert m nil a node = some m') {k : κ} {es : List (Nat × κ)} :
    ¬ Ring m' nil ((a, k) :: es) := by
  intro hring
  have hlinks := hring.links
  rw [List.map_cons, List.cons_append, List.isChain_cons_cons] at hlinks
  have hself : a = nil := Option.some.inj ((listInsert_prev h).symm.trans hlinks.1.2)
  exact hring.ne_nil (List.mem_cons_self ..) hself

/-! ## Runs -/

theorem calls_cons (fuel nil : Nat) (m : Mem κ) (c : Call κ) (cs : List (Call κ)) :
    calls fuel nil m (c :: cs) = (call fuel nil m c).bind fun m => calls fuel nil m cs := rfl

theorem calls_mono {fuel fuel' nil : Nat} (hle : fuel ≤ fuel') {cs : List (Call κ)} :
    ∀ {m m' : Mem κ}, calls fuel nil m cs = some m' → calls fuel' nil m cs = some m' := by
  induction cs with
  | nil => exact fun h => h
  | cons c cs ih =>
      intro m m' h
      rw [calls_cons, Option.bind_eq_some_iff] at h ⊢
      obtain ⟨m₁, hcall, hrun⟩ := h
      refine ⟨m₁, ?_, ih hrun⟩
      cases c with
      | insert a node => exact hcall
      | delete k =>
          simp only [call, listDelete, Option.bind_eq_bind, Option.bind_eq_some_iff] at hcall ⊢
          obtain ⟨x, hsearch, hrest⟩ := hcall
          exact ⟨x, listSearch_mono hle hsearch, hrest⟩

/-- A call that should not be made leaves no ring. -/
theorem sound_singleton {m : Mem κ} {nil : Nat} {es : List (Nat × κ)} (h : Ring m nil es) {c : Call κ}
    (hs : Sound m nil es [c]) : ∃ k, c = .delete k ∧ k ∈ es.map Prod.snd := by
  obtain ⟨fuel, m', hrun, hring⟩ := hs
  rw [calls_cons, Option.bind_eq_some_iff] at hrun
  obtain ⟨m₁, hcall, hrun⟩ := hrun
  obtain rfl := Option.some.inj hrun
  cases c with
  | insert a node => exact absurd hring (listInsert_spoils hcall)
  | delete k =>
      refine ⟨k, rfl, ?_⟩
      by_contra hk
      exact nomatch (listDelete_absent h hk fuel).symm.trans hcall

/-- After a deletion that may be made, the run goes on from the smaller ring. -/
theorem sound_delete {m m₁ : Mem κ} {nil : Nat} {es : List (Nat × κ)} {k : κ}
    (hdel : ∀ fuel, es.length < fuel → listDelete fuel m nil k = some m₁) (cs : List (Call κ)) :
    Sound m nil es (.delete k :: cs) ↔ Sound m₁ nil (change es (.delete k)) cs := by
  have hbig : ∀ fuel, es.length < max fuel (es.length + 1) := fun fuel =>
    Nat.lt_of_lt_of_le (Nat.lt_succ_self _) (Nat.le_max_right ..)
  constructor
  · rintro ⟨fuel, m', hrun, hring⟩
    replace hrun := calls_mono (Nat.le_max_left fuel (es.length + 1)) hrun
    rw [calls_cons, call, hdel _ (hbig fuel)] at hrun
    exact ⟨_, m', hrun, hring⟩
  · rintro ⟨fuel, m', hrun, hring⟩
    refine ⟨max fuel (es.length + 1), m', ?_, hring⟩
    rw [calls_cons, call, hdel _ (hbig fuel)]
    exact calls_mono (Nat.le_max_left ..) hrun

/-- **SENTINEL LIST.**  From a sound ring, the list is a sound ring with the nodes it
    should have after every call of a run exactly if every call is a deletion of a key
    that is in the list.  On a new list there is no such call. -/
theorem sentinel_list {m : Mem κ} {nil : Nat} {es : List (Nat × κ)} (h : Ring m nil es)
    (cs : List (Call κ)) :
    ((∀ before, before <+: cs → Sound m nil es before) ↔ DeletesPresent es cs) ∧
    (es = [] → ((∀ before, before <+: cs → Sound m nil es before) ↔ cs = [])) := by
  have hruns : (∀ before, before <+: cs → Sound m nil es before) ↔ DeletesPresent es cs := by
    induction cs generalizing m es with
    | nil =>
        refine iff_of_true ?_ trivial
        intro before hp
        rw [List.prefix_nil.mp hp]
        exact ⟨0, m, rfl, h⟩
    | cons c cs ih =>
        constructor
        · intro hs
          obtain ⟨k, rfl, hk⟩ := sound_singleton h
            (hs [c] (List.cons_prefix_cons.mpr ⟨rfl, List.nil_prefix⟩))
          obtain ⟨m₁, h₁, hdel⟩ := listDelete_present h hk
          refine ⟨hk, (ih h₁).mp ?_⟩
          intro before hp
          exact (sound_delete hdel before).mp (hs _ (List.cons_prefix_cons.mpr ⟨rfl, hp⟩))
        · intro hd before hp
          cases c with
          | insert a node => exact absurd hd id
          | delete k =>
              obtain ⟨hk, hrest⟩ := hd
              obtain ⟨m₁, h₁, hdel⟩ := listDelete_present h hk
              cases before with
              | nil => exact ⟨0, m, rfl, h⟩
              | cons c' before =>
                  obtain ⟨rfl, hp'⟩ := List.cons_prefix_cons.mp hp
                  exact (sound_delete hdel before).mpr ((ih h₁).mpr hrest before hp')
  refine ⟨hruns, ?_⟩
  rintro rfl
  rw [hruns]
  cases cs with
  | nil => simp [DeletesPresent]
  | cons c cs => cases c <;> simp [DeletesPresent]

/-- A ring of two nodes with the keys 5 and 7. -/
def twoNodes : Mem Int := fun a =>
  match a with
  | 0 => some ⟨0, some 2, some 1⟩
  | 1 => some ⟨5, some 0, some 2⟩
  | 2 => some ⟨7, some 1, some 0⟩
  | _ => none

theorem sentinel_list_two : Ring twoNodes 0 [(1, 5), (2, 7)] ∧
    Sound twoNodes 0 [(1, 5), (2, 7)] [.delete 7, .delete 5] := by
  have hring : Ring twoNodes 0 [(1, 5), (2, 7)] := by
    refine ⟨?_, by simp, by simp [twoNodes]⟩
    simp [Linked, nextOf, prevOf, twoNodes]
  refine ⟨hring, (sentinel_list hring [.delete 7, .delete 5]).1.mpr ?_ _ (List.prefix_refl _)⟩
  simp [DeletesPresent, change, List.eraseP]

/-- On a new list, `list_insert` makes its node its own predecessor, which is no ring, and
    `list_delete` of an absent key does not return. -/
theorem sentinel_list_spoilt :
    (∃ m', listInsert (newList 0 (0 : Int)) 0 1 ⟨5, none, none⟩ = some m' ∧ prevOf m' 1 = some 1) ∧
    ¬ Sound (newList 0 (0 : Int)) 0 [] [.insert 1 ⟨5, none, none⟩] ∧
    ∀ fuel, listDelete fuel (newList 0 (0 : Int)) 0 5 = none := by
  refine ⟨⟨_, rfl, rfl⟩, ?_, fun fuel => listDelete_absent (ring_newList 0 0) (by simp) fuel⟩
  intro hs
  obtain ⟨k, hk, -⟩ := sound_singleton (ring_newList 0 0) hs
  exact nomatch hk

end SentinelList
