import CppTest.LinkedRingProofs

/-! # Linked lists that are taken apart and put together

    A loop that rearranges a linked list takes cells from the old list, one by one, and hangs
    each behind the last cell of the new one.  The cells are those of `LinkedRing`.

    * `IsList circular double m as` — the list through the addresses `as`: linear or circular,
      with or without backward links.
    * `Walk stop m p as x` — from `p` one sees the addresses `as`, and then `x`; a link to
      `stop` reads as null.  With the first address as `stop`, a circular list is a linear one.
    * `emit` hangs one more cell behind the new list, and `Building` says what the memory is
      while the new list grows: only cells of the new list differ from the old memory.

    Nothing here names a program of the repository. -/

namespace LinkedList

open LinkedRing

variable {κ : Type}

/-! ## Single members -/

/-- The members of a live cell. -/
def nextAt (m : Mem κ) (a : Nat) : Option (Option Nat) := (m a).map Cell.next

def prevAt (m : Mem κ) (a : Nat) : Option (Option Nat) := (m a).map Cell.prev

def keyAt (m : Mem κ) (a : Nat) : Option κ := (m a).map Cell.key

/-- `a->next = x`. -/
def setNext (m : Mem κ) (a : Nat) (x : Option Nat) : Option (Mem κ) := do
  let c ← m a
  some (Function.update m a (some { c with next := x }))

/-- `a->prev = x`. -/
def setPrev (m : Mem κ) (a : Nat) (x : Option Nat) : Option (Mem κ) := do
  let c ← m a
  some (Function.update m a (some { c with prev := x }))

/-- What a write to `next` does to all members. -/
structure NextSet (m m' : Mem κ) (a : Nat) (x : Option Nat) : Prop where
  next : ∀ b, nextAt m' b = if b = a then some x else nextAt m b
  prev : ∀ b, prevAt m' b = prevAt m b
  key : ∀ b, keyAt m' b = keyAt m b
  other : ∀ b, b ≠ a → m' b = m b

theorem setNext_spec {m : Mem κ} {a : Nat} {c : Cell κ} (h : m a = some c) (x : Option Nat) :
    ∃ m', setNext m a x = some m' ∧ NextSet m m' a x := by
  refine ⟨Function.update m a (some { c with next := x }), by rw [setNext, h]; rfl, ?_, ?_, ?_, ?_⟩
  · intro b
    rw [nextAt, Function.update_apply]
    split_ifs <;> rfl
  · intro b
    rw [prevAt, prevAt, Function.update_apply]
    split_ifs with hb
    · rw [hb, h]; rfl
    · rfl
  · intro b
    rw [keyAt, keyAt, Function.update_apply]
    split_ifs with hb
    · rw [hb, h]; rfl
    · rfl
  · exact fun b hb => Function.update_of_ne hb _ _

/-- What a write to `prev` does to all members. -/
structure PrevSet (m m' : Mem κ) (a : Nat) (x : Option Nat) : Prop where
  next : ∀ b, nextAt m' b = nextAt m b
  prev : ∀ b, prevAt m' b = if b = a then some x else prevAt m b
  key : ∀ b, keyAt m' b = keyAt m b
  other : ∀ b, b ≠ a → m' b = m b

theorem setPrev_spec {m : Mem κ} {a : Nat} {c : Cell κ} (h : m a = some c) (x : Option Nat) :
    ∃ m', setPrev m a x = some m' ∧ PrevSet m m' a x := by
  refine ⟨Function.update m a (some { c with prev := x }), by rw [setPrev, h]; rfl, ?_, ?_, ?_, ?_⟩
  · intro b
    rw [nextAt, nextAt, Function.update_apply]
    split_ifs with hb
    · rw [hb, h]; rfl
    · rfl
  · intro b
    rw [prevAt, Function.update_apply]
    split_ifs <;> rfl
  · intro b
    rw [keyAt, keyAt, Function.update_apply]
    split_ifs with hb
    · rw [hb, h]; rfl
    · rfl
  · exact fun b hb => Function.update_of_ne hb _ _

/-- A cell with a key is live, and has that key. -/
theorem key_of_keyAt {m m' : Mem κ} (h : ∀ a, keyAt m' a = keyAt m a) {a : Nat} {c : Cell κ}
    (hc : m a = some c) : ∃ c', m' a = some c' ∧ c'.key = c.key := by
  have hkey := h a
  rw [keyAt, keyAt, hc] at hkey
  exact Option.map_eq_some_iff.mp hkey

theorem live_of_keyAt {m m' : Mem κ} (h : ∀ a, keyAt m' a = keyAt m a) {a : Nat} {c : Cell κ}
    (hc : m a = some c) : ∃ c', m' a = some c' := by
  obtain ⟨c', hc', -⟩ := key_of_keyAt h hc
  exact ⟨c', hc'⟩

/-! ## Lists -/

/-- The list through the addresses `as`. -/
structure IsList (circular double : Bool) (m : Mem κ) (as : List Nat) : Prop where
  nodup : as.Nodup
  next : as.IsChain fun a b => nextAt m a = some (some b)
  last : ∀ a ∈ as.getLast?, nextAt m a = some (if circular then as.head? else none)
  prev : double = true → as.IsChain fun a b => prevAt m b = some (some a)
  first : double = true → ∀ a ∈ as.head?, prevAt m a = some (if circular then as.getLast? else none)

/-- `a->next`, where a link to `stop` reads as null. -/
def follow (stop : Option Nat) (m : Mem κ) (a : Nat) : Option (Option Nat) :=
  (nextAt m a).map fun x => if x = stop then none else x

/-- From `p` one sees `as`, and then `x`. -/
def Walk (stop : Option Nat) (m : Mem κ) : Option Nat → List Nat → Option Nat → Prop
  | p, [], x => p = x
  | p, a :: as, x => p = some a ∧ ∃ y, follow stop m a = some y ∧ Walk stop m y as x

theorem walk_append {stop : Option Nat} {m : Mem κ} {as bs : List Nat} : ∀ {p x : Option Nat},
    Walk stop m p (as ++ bs) x ↔ ∃ y, Walk stop m p as y ∧ Walk stop m y bs x := by
  induction as with
  | nil => exact fun {p x} => ⟨fun h => ⟨p, rfl, h⟩, fun ⟨y, hy, h⟩ => by rw [hy]; exact h⟩
  | cons a as ih =>
      intro p x
      constructor
      · rintro ⟨rfl, y, hy, h⟩
        obtain ⟨z, hz, h'⟩ := ih.mp h
        exact ⟨z, ⟨rfl, y, hy, hz⟩, h'⟩
      · rintro ⟨z, ⟨rfl, y, hy, hz⟩, h'⟩
        exact ⟨rfl, y, hy, ih.mpr ⟨z, hz, h'⟩⟩

/-- A walk to the end starts at the first cell. -/
theorem Walk.head {stop : Option Nat} {m : Mem κ} {p : Option Nat} {as : List Nat}
    (h : Walk stop m p as none) : p = as.head? := by
  cases as with
  | nil => exact h
  | cons a as => exact h.1

/-- Cells whose links lead from one to the next and then to `stop`. -/
theorem walk_of_chain {stop : Option Nat} {m : Mem κ} {as : List Nat}
    (hnext : as.IsChain fun a b => nextAt m a = some (some b))
    (hstop : ∀ b ∈ as.tail, stop ≠ some b) (hlast : ∀ a ∈ as.getLast?, nextAt m a = some stop) :
    Walk stop m as.head? as none := by
  induction as with
  | nil => exact rfl
  | cons a as ih =>
      cases as with
      | nil =>
          refine ⟨rfl, none, ?_, rfl⟩
          rw [follow, hlast a rfl, Option.map_some, if_pos rfl]
      | cons b as =>
          rw [List.isChain_cons_cons] at hnext
          have hb : stop ≠ some b := hstop b (List.mem_cons_self ..)
          refine ⟨rfl, some b, ?_,
            ih hnext.2 (fun c hc => hstop c (List.mem_cons_of_mem _ hc)) hlast⟩
          rw [follow, hnext.1, Option.map_some, if_neg (Ne.symm hb)]

/-- Where a walk over the list stops. -/
def stopOf (circular : Bool) (as : List Nat) : Option Nat := if circular then as.head? else none

theorem IsList.walk {circular double : Bool} {m : Mem κ} {as : List Nat}
    (h : IsList circular double m as) : Walk (stopOf circular as) m as.head? as none := by
  refine walk_of_chain h.next ?_ h.last
  intro b hb heq
  cases circular with
  | false => exact absurd heq.symm (Option.some_ne_none b)
  | true =>
      -- the first cell does not come again
      cases as with
      | nil => exact absurd hb List.not_mem_nil
      | cons a as =>
          obtain rfl : a = b := Option.some.inj heq
          exact (List.nodup_cons.mp h.nodup).1 hb

theorem isList_nil (circular double : Bool) (m : Mem κ) : IsList circular double m [] where
  nodup := List.nodup_nil
  next := List.isChain_nil
  last := fun a ha => absurd ha.symm (Option.some_ne_none a)
  prev := fun _ => List.isChain_nil
  first := fun _ a ha => absurd ha.symm (Option.some_ne_none a)

/-- Without its backward links. -/
theorem IsList.singly {circular double : Bool} {m : Mem κ} {as : List Nat}
    (h : IsList circular double m as) : IsList circular false m as where
  nodup := h.nodup
  next := h.next
  last := h.last
  prev := fun hd => absurd hd Bool.false_ne_true
  first := fun hd => absurd hd Bool.false_ne_true

/-- The cells of a list are live. -/
theorem IsList.live {circular double : Bool} {m : Mem κ} {as : List Nat}
    (h : IsList circular double m as) {a : Nat} (ha : a ∈ as) : ∃ c, m a = some c := by
  obtain ⟨l, r, rfl⟩ := List.append_of_mem ha
  have hwalk := h.walk
  rw [walk_append] at hwalk
  obtain ⟨y, -, -, z, hz, -⟩ := hwalk
  rw [follow] at hz
  obtain ⟨x, hx, -⟩ := Option.map_eq_some_iff.mp hz
  obtain ⟨c, hc, -⟩ := Option.map_eq_some_iff.mp hx
  exact ⟨c, hc⟩

/-! ## Putting a list together -/

/-- `tail->next = e`, or `e` is the first cell of the new list. -/
def hang (m : Mem κ) (list tail : Option Nat) (e : Nat) : Option (Mem κ × Option Nat) :=
  match tail with
  | some t => (setNext m t (some e)).map fun m => (m, list)
  | none => some (m, some e)

/-- The cell `e` behind the last cell of the new list, with `e->prev = tail` in a list with
    backward links. -/
def emit (double : Bool) (m : Mem κ) (list tail : Option Nat) (e : Nat) :
    Option (Mem κ × Option Nat) := do
  let (m, list) ← hang m list tail e
  if double then (setPrev m e tail).map fun m => (m, list) else some (m, list)

/-- Only links of the cells `as` were written, and only forward links if the list has no
    others. -/
structure Relinked (double : Bool) (m m' : Mem κ) (as : List Nat) : Prop where
  keys : ∀ a, keyAt m' a = keyAt m a
  outside : ∀ a, a ∉ as → m' a = m a
  singly : double = false → ∀ a, prevAt m' a = prevAt m a

theorem Relinked.refl (double : Bool) (m : Mem κ) (as : List Nat) : Relinked double m m as :=
  ⟨fun _ => rfl, fun _ _ => rfl, fun _ _ => rfl⟩

theorem Relinked.trans {double : Bool} {m m' m'' : Mem κ} {as bs : List Nat}
    (h : Relinked double m m' as) (h' : Relinked double m' m'' bs) (hmem : ∀ b ∈ bs, b ∈ as) :
    Relinked double m m'' as where
  keys := fun a => (h'.keys a).trans (h.keys a)
  outside := fun a ha => (h'.outside a fun hb => ha (hmem a hb)).trans (h.outside a ha)
  singly := fun hd a => (h'.singly hd a).trans (h.singly hd a)

/-- The new list has the cells `out`, and the other cells of `m` are those of `m₀`. -/
structure Building (double : Bool) (m₀ m : Mem κ) (out : List Nat) (list tail : Option Nat) :
    Prop extends Relinked double m₀ m out where
  list : list = out.head?
  tail : tail = out.getLast?
  next : out.IsChain fun a b => nextAt m a = some (some b)
  prev : double = true → out.IsChain fun a b => prevAt m b = some (some a)
  first : double = true → ∀ a ∈ out.head?, prevAt m a = some none

theorem building_nil (double : Bool) (m : Mem κ) : Building double m m [] none none where
  list := rfl
  tail := rfl
  next := List.isChain_nil
  prev := fun _ => List.isChain_nil
  first := fun _ a ha => absurd ha.symm (Option.some_ne_none a)
  outside := fun _ _ => rfl
  keys := fun _ => rfl
  singly := fun _ _ => rfl

/-- One more link behind the last cell, where the links of the cells before it stay. -/
theorem isChain_snoc {α : Type} {R R' : α → α → Prop} {l : List α} {t e : α}
    (h : (l ++ [t]).IsChain R) (hR : ∀ a ∈ l, ∀ b, R a b → R' a b) (hnew : R' t e) :
    (l ++ [t] ++ [e]).IsChain R' := by
  rw [List.isChain_append] at h
  obtain ⟨hl, -, hlt⟩ := h
  rw [List.isChain_append, List.isChain_append]
  refine ⟨⟨hl.imp_of_mem_imp fun a b ha _ => hR a ha b, List.isChain_singleton _, ?_⟩,
    List.isChain_singleton _, ?_⟩
  · intro x hx y hy
    exact hR x (List.mem_of_getLast? hx) y (hlt x hx y hy)
  · intro x hx y hy
    rw [List.getLast?_concat] at hx
    obtain rfl := Option.some.inj hx
    obtain rfl := Option.some.inj hy
    exact hnew

/-- The forward link to the new cell. -/
theorem Building.hang {double : Bool} {m₀ m : Mem κ} {out : List Nat} {list tail : Option Nat}
    (h : Building double m₀ m out list tail) (hlive : ∀ a ∈ out, ∃ c, m₀ a = some c)
    (hnodup : out.Nodup) (e : Nat) :
    ∃ m', hang m list tail e = some (m', (out ++ [e]).head?)
      ∧ ((out ++ [e]).IsChain fun a b => nextAt m' a = some (some b))
      ∧ (∀ b, prevAt m' b = prevAt m b) ∧ (∀ b, keyAt m' b = keyAt m b)
      ∧ ∀ b, b ∉ out → m' b = m b := by
  rcases List.eq_nil_or_concat' out with rfl | ⟨l, t, rfl⟩
  · obtain rfl := h.tail
    exact ⟨m, rfl, List.isChain_singleton e, fun _ => rfl, fun _ => rfl, fun _ _ => rfl⟩
  · have htail : tail = some t := by rw [h.tail, List.getLast?_concat]
    have hmem : t ∈ l ++ [t] := List.mem_append_right _ (List.mem_singleton_self t)
    obtain ⟨c₀, hc₀⟩ := hlive t hmem
    obtain ⟨c, hc⟩ := live_of_keyAt h.keys hc₀
    obtain ⟨m', hset, hm'⟩ := setNext_spec hc (some e)
    have hhead : (l ++ [t]).head? = (l ++ [t] ++ [e]).head? := by
      have hne : l ++ [t] ≠ [] := List.append_ne_nil_of_right_ne_nil _ (List.cons_ne_nil _ _)
      rw [List.head?_append_of_ne_nil _ hne]
    refine ⟨m', ?_, ?_, hm'.prev, hm'.key, fun b hb => hm'.other b fun heq => hb (heq ▸ hmem)⟩
    · rw [htail, h.list, ← hhead]
      simp only [LinkedList.hang, hset, Option.map_some]
    · refine isChain_snoc h.next ?_ ?_
      · intro a ha b hab
        have hne : a ≠ t := by
          rintro rfl
          exact (List.nodup_append.mp hnodup).2.2 a ha a (List.mem_singleton_self a) rfl
        rw [hm'.next, if_neg hne]
        exact hab
      · rw [hm'.next, if_pos rfl]

/-- The backward links, with that of the new cell. -/
theorem Building.prev_snoc {double : Bool} {m₀ m m₁ m' : Mem κ} {out : List Nat}
    {list tail : Option Nat} {e : Nat} (h : Building double m₀ m out list tail) (he : e ∉ out)
    (hm₁ : ∀ b, prevAt m₁ b = prevAt m b)
    (hm' : ∀ b, prevAt m' b = if b = e then some tail else prevAt m₁ b) (hd : double = true) :
    ((out ++ [e]).IsChain fun a b => prevAt m' b = some (some a))
      ∧ ∀ a ∈ (out ++ [e]).head?, prevAt m' a = some none := by
  have hold : ∀ b ∈ out, prevAt m' b = prevAt m b := by
    intro b hb
    have hne : b ≠ e := fun heq => he (heq ▸ hb)
    rw [hm', if_neg hne, hm₁]
  constructor
  · rw [List.isChain_append]
    refine ⟨(h.prev hd).imp_of_mem_imp fun a b _ hb hab => ?_, List.isChain_singleton _, ?_⟩
    · rw [hold b hb]
      exact hab
    · intro x hx y hy
      obtain rfl := Option.some.inj hy
      rw [hm', if_pos rfl, h.tail, hx]
  · intro a ha
    cases out with
    | nil =>
        obtain rfl := Option.some.inj ha
        rw [hm', if_pos rfl, h.tail]
        rfl
    | cons b out =>
        obtain rfl := Option.some.inj ha
        rw [hold b (List.mem_cons_self ..)]
        exact h.first hd b rfl

/-- **One more cell** of the new list. -/
theorem Building.emit {double : Bool} {m₀ m : Mem κ} {out : List Nat} {list tail : Option Nat}
    (h : Building double m₀ m out list tail) {e : Nat} (he : (out ++ [e]).Nodup)
    (hlive : ∀ a ∈ out ++ [e], ∃ c, m₀ a = some c) :
    ∃ m', emit double m list tail e = some (m', (out ++ [e]).head?)
      ∧ Building double m₀ m' (out ++ [e]) (out ++ [e]).head? (some e) := by
  have hmem : e ∈ out ++ [e] := List.mem_append_right _ (List.mem_singleton_self e)
  have hnotin : e ∉ out := fun hin =>
    (List.nodup_append.mp he).2.2 e hin e (List.mem_singleton_self e) rfl
  obtain ⟨m₁, hhang, hnext, hprev, hkey, hother⟩ :=
    h.hang (fun a ha => hlive a (List.mem_append_left _ ha)) (List.nodup_append.mp he).1 e
  have hlast : some e = (out ++ [e]).getLast? := List.getLast?_concat.symm
  cases double with
  | false =>
      refine ⟨m₁, ?_, ⟨fun a => ?_, fun a ha => ?_, fun _ a => ?_⟩, rfl, hlast, hnext,
        fun hd => absurd hd Bool.false_ne_true, fun hd => absurd hd Bool.false_ne_true⟩
      · rw [LinkedList.emit, hhang]
        rfl
      · rw [hkey, h.keys]
      · have ha' : a ∉ out := fun hin => ha (List.mem_append_left _ hin)
        rw [hother a ha', h.outside a ha']
      · rw [hprev, h.singly rfl]
  | true =>
      obtain ⟨c₀, hc₀⟩ := hlive e hmem
      obtain ⟨c, hc⟩ := live_of_keyAt (fun a => (hkey a).trans (h.keys a)) hc₀
      obtain ⟨m', hset, hm'⟩ := setPrev_spec hc tail
      obtain ⟨hchain, hfirst⟩ := h.prev_snoc hnotin hprev hm'.prev rfl
      refine ⟨m', ?_, ⟨fun a => ?_, fun a ha => ?_, fun hd => absurd hd.symm Bool.false_ne_true⟩,
        rfl, hlast, ?_, fun _ => hchain, fun _ => hfirst⟩
      · simp only [LinkedList.emit, hhang, Option.bind_eq_bind, Option.bind_some, if_true, hset,
          Option.map_some]
      · rw [hm'.key, hkey, h.keys]
      · have ha' : a ∉ out := fun hin => ha (List.mem_append_left _ hin)
        rw [hm'.other a (fun heq => ha (heq ▸ hmem)), hother a ha', h.outside a ha']
      · exact hnext.imp fun a b hab => (hm'.next a).trans hab

/-! ## The ends of the new list -/

/-- The links at the ends: `tail->next` is null, or in a circular list the first cell, whose
    `prev` is then `tail`. -/
def close (circular double : Bool) (m : Mem κ) (list tail : Option Nat) : Option (Mem κ) := do
  let t ← tail
  if circular then
    let m ← setNext m t list
    if double then
      let l ← list
      setPrev m l tail
    else some m
  else setNext m t none

/-- The forward links, with that of the last cell. -/
theorem Building.next_closed {double : Bool} {m₀ m m' : Mem κ} {out : List Nat}
    {list tail x : Option Nat} {t : Nat} (h : Building double m₀ m out list tail)
    (hnodup : out.Nodup) (ht : out.getLast? = some t)
    (hm' : ∀ b, nextAt m' b = if b = t then some x else nextAt m b) :
    (out.IsChain fun a b => nextAt m' a = some (some b))
      ∧ ∀ a ∈ out.getLast?, nextAt m' a = some x := by
  obtain ⟨l, rfl⟩ := List.getLast?_eq_some_iff.mp ht
  have hold : ∀ a ∈ l, nextAt m' a = nextAt m a := by
    intro a ha
    have hne : a ≠ t := by
      rintro rfl
      exact (List.nodup_append.mp hnodup).2.2 a ha a (List.mem_singleton_self a) rfl
    rw [hm', if_neg hne]
  constructor
  · have hchain := h.next
    rw [List.isChain_append] at hchain ⊢
    obtain ⟨hl, hone, hlt⟩ := hchain
    refine ⟨hl.imp_of_mem_imp fun a b ha _ hab => ?_, List.isChain_singleton _, ?_⟩
    · rw [hold a ha]
      exact hab
    · intro a ha b hb
      rw [hold a (List.mem_of_getLast? ha)]
      exact hlt a ha b hb
  · intro a ha
    obtain rfl := Option.some.inj (ht.symm.trans ha)
    rw [hm', if_pos rfl]

/-- The backward links, with that of the first cell. -/
theorem Building.prev_closed {m₀ m m' : Mem κ} {out : List Nat} {list tail x : Option Nat} {a : Nat}
    (h : Building true m₀ m out list tail) (hnodup : out.Nodup) (ha : out.head? = some a)
    (hm' : ∀ b, prevAt m' b = if b = a then some x else prevAt m b) :
    (out.IsChain fun a b => prevAt m' b = some (some a))
      ∧ ∀ a ∈ out.head?, prevAt m' a = some x := by
  obtain ⟨l, rfl⟩ := List.head?_eq_some_iff.mp ha
  constructor
  · refine List.IsChain.imp_of_mem_tail_imp (fun b c _ hc hbc => ?_) (h.prev rfl)
    have hne : c ≠ a := fun heq => (List.nodup_cons.mp hnodup).1 (heq ▸ hc)
    rw [hm', if_neg hne]
    exact hbc
  · intro b hb
    obtain rfl := Option.some.inj hb
    rw [hm', if_pos rfl]

/-- **The new list is a list.** -/
theorem Building.close {circular double : Bool} {m₀ m : Mem κ} {out : List Nat}
    {list tail : Option Nat} (h : Building double m₀ m out list tail) (hout : out ≠ [])
    (hnodup : out.Nodup) (hlive : ∀ a ∈ out, ∃ c, m₀ a = some c) :
    ∃ m', close circular double m list tail = some m' ∧ IsList circular double m' out
      ∧ Relinked double m₀ m' out := by
  obtain ⟨t, ht⟩ : ∃ t, out.getLast? = some t := ⟨_, List.getLast?_eq_getLast_of_ne_nil hout⟩
  obtain ⟨a, ha⟩ : ∃ a, out.head? = some a := ⟨_, List.head?_eq_some_head hout⟩
  have htmem := List.mem_of_getLast? ht
  obtain ⟨c₀, hc₀⟩ := hlive t htmem
  obtain ⟨c, hc⟩ := live_of_keyAt h.keys hc₀
  obtain ⟨m₁, hset, hm₁⟩ := setNext_spec hc (if circular then out.head? else none)
  obtain ⟨hnext, hlast⟩ := h.next_closed hnodup ht hm₁.next
  have hsame : Relinked double m₀ m₁ out := by
    refine ⟨fun b => (hm₁.key b).trans (h.keys b), fun b hb => ?_, fun hd b => ?_⟩
    · rw [hm₁.other b (fun heq => hb (heq ▸ htmem)), h.outside b hb]
    · rw [hm₁.prev, h.singly hd]
  have hprev : double = true → out.IsChain fun a b => prevAt m₁ b = some (some a) :=
    fun hd => (h.prev hd).imp fun a b hab => (hm₁.prev b).trans hab
  rw [h.tail, h.list, ht]
  cases circular with
  | false =>
      refine ⟨m₁, hset, ⟨hnodup, hnext, hlast, hprev, fun hd b hb => ?_⟩, hsame⟩
      rw [hm₁.prev]
      exact h.first hd b hb
  | true =>
      cases double with
      | false =>
          refine ⟨m₁, ?_, ⟨hnodup, hnext, hlast, hprev,
            fun hd => absurd hd Bool.false_ne_true⟩, hsame⟩
          rw [if_pos rfl] at hset
          simp [LinkedList.close, hset]
      | true =>
          have hamem := List.mem_of_head? ha
          obtain ⟨c₁, hc₁⟩ := hlive a hamem
          obtain ⟨c', hc'⟩ := live_of_keyAt hsame.keys hc₁
          obtain ⟨m', hset', hm'⟩ := setPrev_spec hc' (some t)
          have hprev' : ∀ b, prevAt m' b = if b = a then some (some t) else prevAt m b := by
            intro b
            rw [hm'.prev, hm₁.prev]
          obtain ⟨hchain, hfirst⟩ := h.prev_closed hnodup ha hprev'
          refine ⟨m', ?_, ⟨hnodup, hnext.imp fun b d hbd => (hm'.next b).trans hbd,
            fun b hb => (hm'.next b).trans (hlast b hb), fun _ => hchain, fun _ b hb => ?_⟩,
            fun b => (hm'.key b).trans (hsame.keys b), fun b hb => ?_,
            fun hd => absurd hd.symm Bool.false_ne_true⟩
          · rw [if_pos rfl, ha] at hset
            simp [LinkedList.close, ha, hset, hset']
          · rw [hfirst b hb, if_pos rfl, ht]
          · rw [hm'.other b (fun heq => hb (heq ▸ hamem)), hsame.outside b hb]

end LinkedList
