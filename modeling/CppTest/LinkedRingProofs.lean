import Mathlib.Data.List.Chain
import Mathlib.Data.List.Nodup
import Mathlib.Logic.Function.Basic

/-! # Rings of doubly linked cells

    A ring is a circular list of cells, threaded both ways through a distinguished cell,
    its SENTINEL.  `Ring m nil es` says that the memory `m` holds a ring through `nil`
    with the cells `es`, each an address and a key, in the order of the forward links.

    * `Linked m a b` — the two cells point at each other;
    * `Ring.unlink` — a cell leaves the ring when its two neighbours are linked.

    Nothing here names a program of the repository. -/

namespace LinkedRing

variable {κ : Type}

/-- A cell of a doubly linked list; a link is null or an address. -/
structure Cell (κ : Type) where
  key : κ
  prev : Option Nat
  next : Option Nat
  deriving Repr, DecidableEq

/-- The live cells. -/
abbrev Mem (κ : Type) := Nat → Option (Cell κ)

/-- The forward link of a live cell. -/
def nextOf (m : Mem κ) (a : Nat) : Option Nat := (m a).bind Cell.next

/-- The backward link of a live cell. -/
def prevOf (m : Mem κ) (a : Nat) : Option Nat := (m a).bind Cell.prev

/-- `a` is followed by `b`, and `b` preceded by `a`. -/
def Linked (m : Mem κ) (a b : Nat) : Prop := nextOf m a = some b ∧ prevOf m b = some a

theorem Linked.next_cell {m : Mem κ} {a b : Nat} (h : Linked m a b) :
    ∃ c, m a = some c ∧ c.next = some b :=
  Option.bind_eq_some_iff.mp h.1

theorem Linked.prev_cell {m : Mem κ} {a b : Nat} (h : Linked m a b) :
    ∃ c, m b = some c ∧ c.prev = some a :=
  Option.bind_eq_some_iff.mp h.2

theorem nextOf_update (m : Mem κ) (a b : Nat) (c : Option (Cell κ)) :
    nextOf (Function.update m a c) b = if b = a then c.bind Cell.next else nextOf m b := by
  show (Function.update m a c b).bind Cell.next = _
  rw [Function.update_apply]
  split_ifs <;> rfl

theorem prevOf_update (m : Mem κ) (a b : Nat) (c : Option (Cell κ)) :
    prevOf (Function.update m a c) b = if b = a then c.bind Cell.prev else prevOf m b := by
  show (Function.update m a c b).bind Cell.prev = _
  rw [Function.update_apply]
  split_ifs <;> rfl

/-- A write that leaves a member alone does so everywhere. -/
theorem key_update_same {m : Mem κ} {a : Nat} {c d : Cell κ} (hc : m a = some c)
    (hd : d.key = c.key) (b : Nat) :
    (Function.update m a (some d) b).map Cell.key = (m b).map Cell.key := by
  rw [Function.update_apply]
  split_ifs with hb
  · rw [hb, hc, Option.map_some, Option.map_some, hd]
  · rfl

theorem nextOf_update_same {m : Mem κ} {a : Nat} {c d : Cell κ} (hc : m a = some c)
    (hd : d.next = c.next) (b : Nat) : nextOf (Function.update m a (some d)) b = nextOf m b := by
  rw [nextOf_update]
  split_ifs with hb
  · rw [hb, nextOf, hc]
    exact hd
  · rfl

theorem prevOf_update_same {m : Mem κ} {a : Nat} {c d : Cell κ} (hc : m a = some c)
    (hd : d.prev = c.prev) (b : Nat) : prevOf (Function.update m a (some d)) b = prevOf m b := by
  rw [prevOf_update]
  split_ifs with hb
  · rw [hb, prevOf, hc]
    exact hd
  · rfl

/-- The ring through `nil` with the cells `es`. -/
structure Ring (m : Mem κ) (nil : Nat) (es : List (Nat × κ)) : Prop where
  links : List.IsChain (Linked m) (nil :: (es.map Prod.fst ++ [nil]))
  nodup : (nil :: es.map Prod.fst).Nodup
  keys : ∀ e ∈ es, (m e.1).map Cell.key = some e.2

/-- The sentinel is followed by some cell, perhaps itself. -/
theorem Ring.first {m : Mem κ} {nil : Nat} {es : List (Nat × κ)} (h : Ring m nil es) :
    ∃ n, Linked m nil n := by
  obtain ⟨n, l, hl⟩ := List.exists_cons_of_ne_nil (show es.map Prod.fst ++ [nil] ≠ [] by simp)
  have hlinks := h.links
  rw [hl, List.isChain_cons_cons] at hlinks
  exact ⟨n, hlinks.1⟩

theorem Ring.ne_nil {m : Mem κ} {nil : Nat} {es : List (Nat × κ)} (h : Ring m nil es) {e : Nat × κ}
    (he : e ∈ es) : e.1 ≠ nil :=
  fun heq => (List.nodup_cons.mp h.nodup).1 (heq ▸ List.mem_map_of_mem he)

/-- Links between other cells survive. -/
theorem isChain_frame {m m' : Mem κ} {l : List Nat} (h : List.IsChain (Linked m) l)
    {p x n : Nat} (hpx : Linked m p x) (hxn : Linked m x n) (hx : x ∉ l)
    (hnext : ∀ a, a ≠ p → a ≠ x → nextOf m' a = nextOf m a)
    (hprev : ∀ a, a ≠ n → a ≠ x → prevOf m' a = prevOf m a) : List.IsChain (Linked m') l := by
  refine h.imp_of_mem_imp ?_
  rintro a b ha hb ⟨hab, hba⟩
  have hax : a ≠ x := fun heq => hx (heq ▸ ha)
  have hbx : b ≠ x := fun heq => hx (heq ▸ hb)
  -- only `p` is followed by `x`, and only `n` preceded by it
  have hap : a ≠ p := by
    rintro rfl
    exact hbx (Option.some.inj (hab.symm.trans hpx.1))
  have hbn : b ≠ n := by
    rintro rfl
    exact hax (Option.some.inj (hba.symm.trans hxn.2))
  exact ⟨(hnext a hap hax).trans hab, (hprev b hbn hbx).trans hba⟩

/-- The two neighbours of a cell of the ring. -/
theorem Ring.neighbours {m : Mem κ} {nil : Nat} {es₁ es₂ : List (Nat × κ)} {e : Nat × κ}
    (h : Ring m nil (es₁ ++ e :: es₂)) :
    ∃ l₁ p n l₂, nil :: es₁.map Prod.fst = l₁ ++ [p] ∧ es₂.map Prod.fst ++ [nil] = n :: l₂ ∧
      List.IsChain (Linked m) (l₁ ++ [p]) ∧ Linked m p e.1 ∧ Linked m e.1 n ∧
      List.IsChain (Linked m) (n :: l₂) := by
  obtain ⟨l₁, p, hp⟩ : ∃ l₁ p, nil :: es₁.map Prod.fst = l₁ ++ [p] := by
    rcases List.eq_nil_or_concat (nil :: es₁.map Prod.fst) with hnil | ⟨l₁, p, hp⟩
    · exact nomatch hnil
    · exact ⟨l₁, p, hp.trans List.concat_eq_append⟩
  obtain ⟨n, l₂, hn⟩ : ∃ n l₂, es₂.map Prod.fst ++ [nil] = n :: l₂ :=
    List.exists_cons_of_ne_nil (by simp)
  have hsplit : nil :: ((es₁ ++ e :: es₂).map Prod.fst ++ [nil]) = l₁ ++ p :: e.1 :: n :: l₂ := by
    rw [List.map_append, List.map_cons, List.append_assoc, List.cons_append, hn,
      ← List.cons_append, hp, List.append_assoc]
    rfl
  have hlinks := h.links
  rw [hsplit, List.isChain_append_cons_cons, List.isChain_cons_cons] at hlinks
  exact ⟨l₁, p, n, l₂, hp, hn, hlinks.1, hlinks.2.1, hlinks.2.2.1, hlinks.2.2.2⟩

/-- A cell of the ring is not its own neighbour. -/
theorem Ring.not_linked_self {m : Mem κ} {nil : Nat} {es : List (Nat × κ)} (h : Ring m nil es)
    {e : Nat × κ} (he : e ∈ es) : ¬ Linked m e.1 e.1 := by
  intro hself
  obtain ⟨es₁, es₂, rfl⟩ := List.append_of_mem he
  obtain ⟨l₁, p, n, l₂, hl₁, -, -, hp, -⟩ := h.neighbours
  obtain rfl : e.1 = p := Option.some.inj (hself.2.symm.trans hp.2)
  have hnd := h.nodup
  rw [List.map_append, List.map_cons, ← List.cons_append, hl₁, List.nodup_append] at hnd
  exact hnd.2.2 e.1 (List.mem_append.mpr (Or.inr (List.mem_singleton_self _))) e.1
    (List.mem_cons_self ..) rfl

/-- **A cell leaves the ring** when its neighbours are linked and no other link or key
    changes. -/
theorem Ring.unlink {m m' : Mem κ} {nil : Nat} {es₁ es₂ : List (Nat × κ)} {e : Nat × κ}
    (h : Ring m nil (es₁ ++ e :: es₂)) {p n : Nat} (hp : Linked m p e.1) (hn : Linked m e.1 n)
    (hpn : Linked m' p n) (hnext : ∀ a, a ≠ p → a ≠ e.1 → nextOf m' a = nextOf m a)
    (hprev : ∀ a, a ≠ n → a ≠ e.1 → prevOf m' a = prevOf m a)
    (hkeys : ∀ a, a ≠ e.1 → (m' a).map Cell.key = (m a).map Cell.key) :
    Ring m' nil (es₁ ++ es₂) := by
  obtain ⟨l₁, p', n', l₂, hl₁, hl₂, hfront, hp', hn', hback⟩ := h.neighbours
  obtain rfl : p = p' := Option.some.inj (hp.2.symm.trans hp'.2)
  obtain rfl : n = n' := Option.some.inj (hn.1.symm.trans hn'.1)
  have hnd : (nil :: es₁.map Prod.fst ++ e.1 :: es₂.map Prod.fst).Nodup := by
    have := h.nodup
    rwa [List.map_append, List.map_cons, ← List.cons_append] at this
  rw [List.nodup_middle] at hnd
  obtain ⟨hnot, hnd'⟩ := List.nodup_cons.mp hnd
  have hmem : e.1 ≠ nil ∧ e.1 ∉ es₁.map Prod.fst ∧ e.1 ∉ es₂.map Prod.fst := by
    simpa only [List.cons_append, List.mem_cons, List.mem_append, not_or] using hnot
  refine ⟨?_, ?_, ?_⟩
  · have hsplit : nil :: ((es₁ ++ es₂).map Prod.fst ++ [nil]) = l₁ ++ p :: n :: l₂ := by
      rw [List.map_append, List.append_assoc, hl₂, ← List.cons_append, hl₁, List.append_assoc]
      rfl
    rw [hsplit, List.isChain_append_cons_cons]
    refine ⟨isChain_frame hfront hp hn ?_ hnext hprev, hpn,
      isChain_frame hback hp hn ?_ hnext hprev⟩
    · rw [← hl₁]
      simp [hmem]
    · rw [← hl₂]
      simp [hmem]
  · rw [List.map_append, ← List.cons_append]
    exact hnd'
  · intro d hd
    have hne : d.1 ≠ e.1 := by
      intro heq
      rcases List.mem_append.mp hd with hd | hd
      · exact hmem.2.1 (heq ▸ List.mem_map_of_mem hd)
      · exact hmem.2.2 (heq ▸ List.mem_map_of_mem hd)
    rw [hkeys d.1 hne]
    refine h.keys d ?_
    rcases List.mem_append.mp hd with hd | hd
    · exact List.mem_append.mpr (Or.inl hd)
    · exact List.mem_append.mpr (Or.inr (List.mem_cons_of_mem _ hd))

end LinkedRing
