import CppTest.BstProofs
import Mathlib.Data.List.Perm.Basic

/-! # The dictionary that a binary search tree is

    `bstree_insert` and `bstree_delete` in any order, and the two insertions side by
    side.

    * `Holds tr t held` — the memory of `tr` holds the search tree `t`, and its nodes
      are those of `held`.  Each call keeps it (`Holds.insert`, `Holds.delete`).
    * `bstree_dictionary`: what every run of calls leaves.
    * `bstree_insertions_agree`: `bstree_insert_recursive` walks to the same place
      but never writes `node->p`, so it leaves the state of `bstree_insert` only
      for a node that already points to its parent. -/

namespace Bst

open Machine LinkedTree LTree

/-! ## Runs -/

/-- A call.  `insert` is for the node at `a`, which its owner has just set up with
    null children, some `p` and a key. -/
inductive Op where
  | insert (a : Nat) (p : Option Nat) (key : Int)
  | delete (a : Nat)
  deriving Repr, DecidableEq

def call (fuel : Nat) (tr : Tree) : Op → Option Tree
  | .insert a p key => do
      let tr := { tr with mem := Function.update tr.mem a (some ⟨none, none, p, key⟩) }
      let (tr, _) ← bstreeInsert fuel tr (some a)
      some tr
  | .delete a => bstreeDelete fuel tr a

def run (fuel : Nat) : Tree → List Op → Option Tree
  | tr, [] => some tr
  | tr, op :: ops => do run fuel (← call fuel tr op) ops

/-- The nodes inserted and not deleted, with their keys. -/
def heldAfter (held : List (Nat × Int)) : Op → List (Nat × Int)
  | .insert a _ key => (a, key) :: held
  | .delete a => held.filter fun n => n.1 ≠ a

/-- An `insert` is for a node that is not in the tree, a `delete` for one that is. -/
def Allowed (held : List (Nat × Int)) : Op → Prop
  | .insert a _ _ => a ∉ held.map Prod.fst
  | .delete a => a ∈ held.map Prod.fst

def AllAllowed : List (Nat × Int) → List Op → Prop
  | _, [] => True
  | held, op :: ops => Allowed held op ∧ AllAllowed (heldAfter held op) ops

/-! ## One call -/

/-- The memory holds the search tree `t` of the nodes `held`. -/
structure Holds (tr : Tree) (t : LTree Int) (held : List (Nat × Int)) : Prop where
  focus : Focus tr.mem tr.root t []
  ordered : Ordered t
  nodes : t.nodes.Perm held

theorem Holds.mem_addrs {tr : Tree} {t : LTree Int} {held : List (Nat × Int)}
    (h : Holds tr t held) {a : Nat} : a ∈ t.addrs ↔ a ∈ held.map Prod.fst :=
  ((addrs_perm_nodes t).trans (h.nodes.map Prod.fst)).mem_iff

theorem Holds.height_le {tr : Tree} {t : LTree Int} {held : List (Nat × Int)}
    (h : Holds tr t held) : t.height ≤ held.length := by
  rw [← h.nodes.length_eq, length_nodes]
  exact height_le_size t

/-- A write to a cell outside the tree keeps it. -/
theorem Holds.write {tr : Tree} {t : LTree Int} {held : List (Nat × Int)} (h : Holds tr t held)
    {a : Nat} (ha : a ∉ t.addrs) (c : Cell Int) :
    Holds { tr with mem := Function.update tr.mem a (some c) } t held := by
  refine ⟨⟨h.focus.tree.frame ?_, h.focus.ctx, h.focus.nodup⟩, h.ordered, h.nodes⟩
  intro b hb
  refine Function.update_of_ne ?_ ..
  rintro rfl
  exact ha hb

theorem Holds.insert {tr : Tree} {t : LTree Int} {held : List (Nat × Int)} (h : Holds tr t held)
    {a : Nat} (ha : a ∉ held.map Prod.fst) (p : Option Nat) (key : Int) :
    ∃ tr' t', (∀ fuel, held.length < fuel → call fuel tr (.insert a p key) = some tr')
      ∧ Holds tr' t' ((a, key) :: held) := by
  have hfresh : a ∉ t.addrs := fun hm => ha (h.mem_addrs.mp hm)
  have hw := h.write hfresh ⟨none, none, p, key⟩
  obtain ⟨k, hplug, hfk, hadm, hnot, hrun⟩ :=
    bstreeInsert_spec hw.focus (Function.update_self ..) hfresh
  refine ⟨_, plug k (.node a .nil key .nil), ?_, focus_plug.mp (focus_seated hfk hnot), ?_, ?_⟩
  · intro fuel hfuel
    simp only [call, hrun fuel (lt_of_le_of_lt h.height_le hfuel), Option.bind_eq_bind,
      Option.bind_some]
  · have hord := h.ordered
    rw [← hplug] at hord
    refine (ordered_plug ..).mpr ⟨hord, ⟨?_, ?_, trivial, trivial⟩, ?_⟩
    · exact fun _ hx => nomatch hx
    · exact fun _ hx => nomatch hx
    · intro x hx
      obtain rfl : x = key := by simpa [vals] using hx
      exact hadm
  · have hnodes := h.nodes
    rw [← hplug, nodes_plug] at hnodes
    rw [nodes_plug]
    refine List.Perm.trans ?_ (hnodes.cons (a, key))
    simp only [LTree.nodes, List.nil_append, List.append_nil, List.append_assoc,
      List.singleton_append]
    exact List.perm_middle

theorem Holds.delete {tr : Tree} {t : LTree Int} {held : List (Nat × Int)} (h : Holds tr t held)
    {a : Nat} (ha : a ∈ held.map Prod.fst) :
    ∃ tr' t', (∀ fuel, held.length < fuel → call fuel tr (.delete a) = some tr')
      ∧ Holds tr' t' (held.filter fun n => n.1 ≠ a) := by
  obtain ⟨k, l, v, r, rfl⟩ := exists_plug (h.mem_addrs.mpr ha)
  obtain ⟨tr', t', hrun, hf', hnodes, hord⟩ := bstreeDelete_spec (focus_plug.mpr h.focus)
  have hheight : r.height ≤ (plug k (.node a l v r)).height := by
    have hpath := length_add_height_le k (.node a l v r)
    have hnode : (LTree.node a l v r).height = max l.height r.height + 1 := rfl
    omega
  have hsplit : (plug k (.node a l v r)).nodes.Perm ((a, v) :: (plug k t').nodes) := by
    rw [nodes_plug, nodes_plug, hnodes]
    simp only [LTree.nodes, List.append_assoc, List.cons_append]
    rw [← List.append_assoc, ← List.append_assoc]
    exact List.perm_middle
  refine ⟨tr', plug k t', ?_, focus_plug.mp hf', ?_, ?_⟩
  · intro fuel hfuel
    exact hrun fuel (hheight.trans (le_of_lt (lt_of_le_of_lt h.height_le hfuel)))
  · obtain ⟨hk, hnode, hadm⟩ := (ordered_plug ..).mp h.ordered
    refine (ordered_plug ..).mpr ⟨hk, hord hnode, fun x hx => hadm x ?_⟩
    rw [vals_eq_map_nodes, hnodes, List.map_append, ← vals_eq_map_nodes, ← vals_eq_map_nodes] at hx
    rcases List.mem_append.mp hx with hx | hx
    · simp [vals, hx]
    · simp [vals, hx]
  · -- no other node has the address that goes
    have hnd : ((plug k (.node a l v r)).nodes.map Prod.fst).Nodup :=
      (addrs_perm_nodes _).nodup_iff.mp (by simpa [ctxAddrs] using h.focus.nodup)
    rw [(hsplit.map Prod.fst).nodup_iff, List.map_cons, List.nodup_cons] at hnd
    have hkeep : (plug k t').nodes.filter (fun n => n.1 ≠ a) = (plug k t').nodes := by
      refine List.filter_eq_self.mpr ?_
      intro n hn
      have hne : n.1 ≠ a := by
        rintro rfl
        exact hnd.1 (List.mem_map.mpr ⟨n, hn, rfl⟩)
      simpa using hne
    have hperm := (hsplit.symm.trans h.nodes).filter fun n => n.1 ≠ a
    rw [List.filter_cons_of_neg (by simp), hkeep] at hperm
    exact hperm

/-! ## Every run -/

/-- A run of allowed calls keeps the search tree of the nodes held. -/
theorem Holds.run (ops : List Op) : ∀ {tr : Tree} {t : LTree Int} {held : List (Nat × Int)},
    Holds tr t held → AllAllowed held ops → ∀ fuel, held.length + ops.length < fuel →
      ∃ tr' t', run fuel tr ops = some tr' ∧ Holds tr' t' (ops.foldl heldAfter held)
        ∧ (ops.foldl heldAfter held).length < fuel := by
  induction ops with
  | nil =>
      intro tr t held h _ fuel hfuel
      exact ⟨tr, t, rfl, h, by simpa using hfuel⟩
  | cons op ops ih =>
      intro tr t held h hallowed fuel hfuel
      rw [List.length_cons] at hfuel
      obtain ⟨hop, hrest⟩ := hallowed
      have hcall : ∃ tr₁ t₁, call fuel tr op = some tr₁ ∧ Holds tr₁ t₁ (heldAfter held op)
          ∧ (heldAfter held op).length ≤ held.length + 1 := by
        cases op with
        | insert a p key =>
            obtain ⟨tr₁, t₁, hrun, h₁⟩ := h.insert hop p key
            exact ⟨tr₁, t₁, hrun fuel (by omega), h₁, le_refl _⟩
        | delete a =>
            obtain ⟨tr₁, t₁, hrun, h₁⟩ := h.delete hop
            exact ⟨tr₁, t₁, hrun fuel (by omega), h₁, (List.length_filter_le ..).trans (by omega)⟩
      obtain ⟨tr₁, t₁, hrun, h₁, hlen⟩ := hcall
      obtain ⟨tr₂, t₂, hrun₂, h₂, hlen₂⟩ := ih h₁ hrest fuel (by omega)
      refine ⟨tr₂, t₂, ?_, h₂, hlen₂⟩
      simp only [Bst.run, hrun, Option.bind_eq_bind, Option.bind_some, hrun₂]

/-- The rightmost node comes last. -/
theorem nodes_rightmost {k : List (Frame Int)} (h : ∀ f ∈ k, f.side = .right) (y : Nat) (vy : Int)
    (t : LTree Int) : (plug k (.node y t vy .nil)).nodes = (plug k t).nodes ++ [(y, vy)] := by
  have hafter : nodesAfter k = [] := by
    induction k with
    | nil => rfl
    | cons f k ih =>
        have hf := h f (List.mem_cons_self ..)
        simp only [nodesAfter, hf, List.nil_append]
        exact ih fun g hg => h g (List.mem_cons_of_mem _ hg)
  rw [nodes_plug, nodes_plug, hafter]
  simp [LTree.nodes]

theorem Holds.sorted {tr : Tree} {t : LTree Int} {held : List (Nat × Int)} (h : Holds tr t held) :
    t.nodes.Pairwise fun n n' => n.2 ≤ n'.2 := by
  have hsorted := h.ordered.sorted
  rw [vals_eq_map_nodes, List.pairwise_map] at hsorted
  exact hsorted

/-- `bstree_min` of a tree that is not empty. -/
theorem Holds.min {tr : Tree} {t : LTree Int} {held : List (Nat × Int)} (h : Holds tr t held)
    {root : Nat} (hroot : tr.root = some root) {fuel : Nat} (hfuel : held.length < fuel) :
    ∃ a key, bstreeMin fuel tr.mem root = some a ∧ (a, key) ∈ held ∧ ∀ n ∈ held, key ≤ n.2 := by
  have hptr : t.ptr = some root := h.focus.ctx.symm.trans hroot
  obtain ⟨k, y, v, u, hplug, hside, hrun⟩ := bstreeEnd_spec .left t none root h.focus.tree hptr
  have hnodes : t.nodes = (y, v) :: (plug k u).nodes := by
    rw [hplug]
    exact nodes_leftmost hside y v u
  have hsorted := h.sorted
  rw [hnodes, List.pairwise_cons] at hsorted
  have hmem : ∀ n, n ∈ held ↔ n = (y, v) ∨ n ∈ (plug k u).nodes := by
    intro n
    rw [← h.nodes.mem_iff, hnodes, List.mem_cons]
  refine ⟨y, v, hrun fuel (le_of_lt (lt_of_le_of_lt h.height_le hfuel)),
    (hmem (y, v)).mpr (Or.inl rfl), ?_⟩
  intro n hn
  rcases (hmem n).mp hn with rfl | hn
  · exact le_refl _
  · exact hsorted.1 n hn

/-- `bstree_max` of a tree that is not empty. -/
theorem Holds.max {tr : Tree} {t : LTree Int} {held : List (Nat × Int)} (h : Holds tr t held)
    {root : Nat} (hroot : tr.root = some root) {fuel : Nat} (hfuel : held.length < fuel) :
    ∃ a key, bstreeMax fuel tr.mem root = some a ∧ (a, key) ∈ held ∧ ∀ n ∈ held, n.2 ≤ key := by
  have hptr : t.ptr = some root := h.focus.ctx.symm.trans hroot
  obtain ⟨k, y, v, u, hplug, hside, hrun⟩ := bstreeEnd_spec .right t none root h.focus.tree hptr
  have hnodes : t.nodes = (plug k u).nodes ++ [(y, v)] := by
    rw [hplug]
    exact nodes_rightmost hside y v u
  have hsorted := h.sorted
  rw [hnodes, List.pairwise_append] at hsorted
  have hmem : ∀ n, n ∈ held ↔ n ∈ (plug k u).nodes ∨ n = (y, v) := by
    intro n
    rw [← h.nodes.mem_iff, hnodes, List.mem_append, List.mem_singleton]
  refine ⟨y, v, hrun fuel (le_of_lt (lt_of_le_of_lt h.height_le hfuel)),
    (hmem (y, v)).mpr (Or.inr rfl), ?_⟩
  intro n hn
  rcases (hmem n).mp hn with hn | rfl
  · exact hsorted.2.2 n hn (y, v) (List.mem_singleton.mpr rfl)
  · exact le_refl _

/-- What a caller sees of a tree of the nodes `held`: a search tree with right parent
    links, its in-order walk, searching, and the two ends. -/
structure Dictionary (fuel : Nat) (tr : Tree) (held : List (Nat × Int)) : Prop where
  tree : ∃ t, tr.root = t.ptr ∧ Reps tr.mem none t ∧ Ordered t ∧ t.addrs.Nodup ∧ t.nodes.Perm held
  walk : ∃ keys, bstreeInorderWalk fuel tr.mem tr.root = some keys ∧ keys.Pairwise (· ≤ ·)
    ∧ keys.Perm (held.map Prod.snd)
  search : ∀ key, ∃ r, bstreeSearch fuel tr.mem tr.root key = some r
    ∧ (∀ a, r = some a → (a, key) ∈ held) ∧ (r.isSome ↔ ∃ a, (a, key) ∈ held)
  ends : held ≠ [] → ∃ root, tr.root = some root
    ∧ (∃ a key, bstreeMin fuel tr.mem root = some a ∧ (a, key) ∈ held ∧ ∀ n ∈ held, key ≤ n.2)
    ∧ ∃ a key, bstreeMax fuel tr.mem root = some a ∧ (a, key) ∈ held ∧ ∀ n ∈ held, n.2 ≤ key

theorem Holds.dictionary {tr : Tree} {t : LTree Int} {held : List (Nat × Int)}
    (h : Holds tr t held) {fuel : Nat} (hfuel : held.length < fuel) : Dictionary fuel tr held := by
  have hroot : tr.root = t.ptr := h.focus.ctx
  have hheight : t.height < fuel := lt_of_le_of_lt h.height_le hfuel
  constructor
  · exact ⟨t, hroot, h.focus.tree, h.ordered, by simpa [ctxAddrs] using h.focus.nodup, h.nodes⟩
  · refine ⟨t.vals, ?_, h.ordered.sorted, ?_⟩
    · rw [hroot]
      exact bstreeInorderWalk_spec t none h.focus.tree fuel hheight
    · rw [vals_eq_map_nodes]
      exact h.nodes.map Prod.snd
  · intro key
    obtain ⟨r, hrun, hin, hout⟩ := bstreeSearch_spec key t none h.focus.tree h.ordered
    have hin' : ∀ a, r = some a → (a, key) ∈ held := fun a ha => h.nodes.mem_iff.mp (hin a ha)
    refine ⟨r, by rw [hroot]; exact hrun fuel hheight, hin', ?_⟩
    constructor
    · intro hsome
      obtain ⟨a, ha⟩ := Option.isSome_iff_exists.mp hsome
      exact ⟨a, hin' a ha⟩
    · rintro ⟨a, ha⟩
      cases r with
      | some b => rfl
      | none =>
          refine absurd ?_ (hout rfl)
          rw [vals_eq_map_nodes]
          exact List.mem_map.mpr ⟨(a, key), h.nodes.mem_iff.mpr ha, rfl⟩
  · intro hne
    cases t with
    | nil => exact absurd (List.nil_perm.mp h.nodes) hne
    | node a l v r => exact ⟨a, hroot, h.min hroot hfuel, h.max hroot hfuel⟩

/-- **The dictionary law.**  From an empty root, in whatever memory, every sequence of
    allowed insertions and deletions runs to its end and leaves the dictionary of the
    nodes inserted and not deleted. -/
theorem bstree_dictionary (mem : Mem Int) (ops : List Op) (hops : AllAllowed [] ops) (fuel : Nat)
    (hfuel : ops.length < fuel) :
    ∃ tr, run fuel ⟨none, mem⟩ ops = some tr ∧ Dictionary fuel tr (ops.foldl heldAfter []) := by
  have hempty : Holds ⟨none, mem⟩ .nil [] :=
    ⟨⟨trivial, rfl, List.nodup_nil⟩, trivial, List.Perm.refl _⟩
  obtain ⟨tr, t, hrun, h, hlen⟩ := hempty.run ops hops fuel (by simpa using hfuel)
  exact ⟨tr, hrun, h.dictionary hlen⟩

/-- Four nodes with two equal keys, and the node with two children goes. -/
theorem bstree_dictionary_four :
    ∃ tr, run 9 ⟨none, fun _ => none⟩
        [.insert 1 none 100, .insert 2 none 90, .insert 3 none 100, .insert 4 none 120, .delete 1]
          = some tr
      ∧ Dictionary 9 tr [(4, 120), (3, 100), (2, 90)] :=
  bstree_dictionary (fun _ => none)
    [.insert 1 none 100, .insert 2 none 90, .insert 3 none 100, .insert 4 none 120, .delete 1]
    (by simp [AllAllowed, Allowed, heldAfter]) 9 (by decide)

/-! ## The two insertions -/

/-- The link that a new node with this key goes into; `link` leads to the tree. -/
def seatLink (key : Int) : LTree Int → Link → Link
  | .nil, link => link
  | .node a l v r, _ =>
      if key < v then seatLink key l (.ofChild a .left) else seatLink key r (.ofChild a .right)

/-- In a tree that is not empty the link belongs to the seat, on the side that
    `bstree_insert` picks there. -/
theorem seatLink_spec {m : Mem Int} (key : Int) : ∀ (t : LTree Int) (p : Option Nat) (link : Link),
    Linked m t → t ≠ .nil → ∃ b c, seat key t p = some b ∧ b ∈ t.addrs ∧ m b = some c
      ∧ seatLink key t link = .ofChild b (if key < c.val then .left else .right) := by
  intro t
  induction t with
  | nil => exact fun _ _ _ h => absurd rfl h
  | node a l v r ihl ihr =>
      rintro p link ⟨⟨q, hcell⟩, hl, hr⟩ -
      by_cases hlt : key < v
      · rw [seat, seatLink, if_pos hlt, if_pos hlt]
        cases l with
        | nil =>
            refine ⟨a, _, rfl, List.mem_cons_self .., hcell, ?_⟩
            rw [if_pos hlt]
            rfl
        | node a' l' v' r' =>
            obtain ⟨b, c, hb, hmem, hc, hlink⟩ :=
              ihl (some a) (.ofChild a .left) hl LTree.node_ne_nil
            exact ⟨b, c, hb, List.mem_cons_of_mem _ (List.mem_append.mpr (Or.inl hmem)), hc, hlink⟩
      · rw [seat, seatLink, if_neg hlt, if_neg hlt]
        cases r with
        | nil =>
            refine ⟨a, _, rfl, List.mem_cons_self .., hcell, ?_⟩
            rw [if_neg hlt]
            rfl
        | node a' l' v' r' =>
            obtain ⟨b, c, hb, hmem, hc, hlink⟩ :=
              ihr (some a) (.ofChild a .right) hr LTree.node_ne_nil
            exact ⟨b, c, hb, List.mem_cons_of_mem _ (List.mem_append.mpr (Or.inr hmem)), hc, hlink⟩

/-- `bstree_insert_recursive` writes the link of the key's seat, and nothing else. -/
theorem bstreeInsertRecursive_spec {tr : Tree} {a : Nat} {c : Cell Int} (ha : tr.mem a = some c) :
    ∀ (t : LTree Int) (link : Link), Linked tr.mem t → link.get tr = some t.ptr →
      ∀ fuel, t.height < fuel → bstreeInsertRecursive fuel tr link (some a)
        = ((seatLink c.val t link).set tr (some a)).map fun tr => (tr, 0) := by
  intro t
  induction t with
  | nil =>
      intro link _ hget fuel hfuel
      obtain ⟨n, rfl⟩ : ∃ n, fuel = n + 1 := ⟨fuel - 1, by omega⟩
      simp only [bstreeInsertRecursive, hget, Option.bind_eq_bind, Option.bind_some, LTree.ptr,
        seatLink]
      cases link.set tr (some a) <;> rfl
  | node b l v r ihl ihr =>
      rintro link ⟨⟨q, hcell⟩, hl, hr⟩ hget fuel hfuel
      have hheight : max l.height r.height + 1 = (LTree.node b l v r).height := rfl
      obtain ⟨n, rfl⟩ : ∃ n, fuel = n + 1 := ⟨fuel - 1, by omega⟩
      have hget' : link.get tr = some (some b) := hget
      by_cases hlt : c.val < v
      · rw [seatLink, if_pos hlt, ← ihl (.ofChild b .left) hl (by simp [Link.get, hcell, Cell.child])
          n (by omega)]
        simp only [bstreeInsertRecursive, hget', Option.bind_eq_bind, Option.bind_some, ha, hcell,
          if_pos hlt]
      · rw [seatLink, if_neg hlt, ← ihr (.ofChild b .right) hr (by simp [Link.get, hcell, Cell.child])
          n (by omega)]
        simp only [bstreeInsertRecursive, hget', Option.bind_eq_bind, Option.bind_some, ha, hcell,
          if_neg hlt]

/-- `bstree_insert` writes the same link, and then `node->p`. -/
theorem bstreeInsert_link {tr : Tree} {t : LTree Int} (hroot : tr.root = t.ptr)
    (ht : Linked tr.mem t) {a : Nat} {c : Cell Int} (ha : tr.mem a = some c) (hnot : a ∉ t.addrs) :
    ∃ tr₁, (seatLink c.val t .ofRoot).set tr (some a) = some tr₁ ∧ tr₁.mem a = some c
      ∧ ∀ fuel, t.height < fuel → bstreeInsert fuel tr (some a) = some
          (⟨tr₁.root, Function.update tr₁.mem a (some { c with p := seat c.val t none })⟩, 0) := by
  have hloop := bstreeInsert_loop c.val t none ht
  cases t with
  | nil =>
      refine ⟨⟨some a, tr.mem⟩, rfl, ha, ?_⟩
      intro fuel hfuel
      have hrun : loop (bstreeInsertPass tr.mem c.val) fuel (tr.root, none) = some none := by
        rw [hroot]
        exact hloop fuel hfuel
      simp only [bstreeInsert, ha, hrun, Option.bind_eq_bind, Option.bind_some, modify_eq ha, seat]
  | node x l v r =>
      obtain ⟨b, cb, hseat, hmem, hcb, hlink⟩ :=
        seatLink_spec c.val (.node x l v r) none .ofRoot ht LTree.node_ne_nil
      have hne : a ≠ b := fun heq => hnot (heq ▸ hmem)
      obtain ⟨m, hset, -, hother⟩ :=
        modify_spec hcb fun n => n.setChild (if c.val < cb.val then .left else .right) (some a)
      have ha' : m a = some c := (hother a hne).trans ha
      refine ⟨⟨tr.root, m⟩, ?_, ha', ?_⟩
      · rw [hlink]
        simp only [Link.set, hset, Option.map_some]
      · intro fuel hfuel
        have hrun : loop (bstreeInsertPass tr.mem c.val) fuel (tr.root, none) = some (some b) := by
          rw [hroot, ← hseat]
          exact hloop fuel hfuel
        simp only [bstreeInsert, ha, hrun, Option.bind_eq_bind, Option.bind_some, hcb, hset,
          modify_eq ha', hseat]

/-- **Two insertions, one state — when.**  In a tree held by its child links and for a
    node that is not in it, both insertions return 0; they leave the SAME state exactly
    when the node's `p` already is the node it gets hung under.  For a fresh node, with
    a null `p`, this is the empty tree. -/
theorem bstree_insertions_agree {tr : Tree} {t : LTree Int} (hroot : tr.root = t.ptr)
    (ht : Linked tr.mem t) {a : Nat} {p : Option Nat} {key : Int}
    (ha : tr.mem a = some ⟨none, none, p, key⟩) (hnot : a ∉ t.addrs) (fuel : Nat)
    (hfuel : t.height < fuel) :
    ∃ tr₁ tr₂, bstreeInsert fuel tr (some a) = some (tr₁, 0)
      ∧ bstreeInsertRecursive fuel tr .ofRoot (some a) = some (tr₂, 0)
      ∧ (tr₂ = tr₁ ↔ p = seat key t none) ∧ (seat key t none = none ↔ tr.root = none) := by
  obtain ⟨tr₂, hset, hcell, hrun⟩ := bstreeInsert_link hroot ht ha hnot
  refine ⟨_, tr₂, hrun fuel hfuel, ?_, ?_, ?_⟩
  · have hget : Link.get tr .ofRoot = some t.ptr := congrArg some hroot
    rw [bstreeInsertRecursive_spec ha t .ofRoot ht hget fuel hfuel]
    show ((seatLink key t .ofRoot).set tr (some a)).map _ = _
    rw [hset]
    rfl
  · constructor
    · intro heq
      have hmem := congrArg (fun tr : Tree => tr.mem a) heq
      simp only [hcell, Function.update_self, Option.some.injEq, Cell.mk.injEq, true_and] at hmem
      exact hmem.1
    · rintro rfl
      rw [Function.update_eq_self_iff.mpr hcell.symm]
  · rw [hroot]
    cases t with
    | nil => exact Iff.rfl
    | node x l v r =>
        obtain ⟨b, -, hseat, -⟩ := seatLink_spec key (.node x l v r) none .ofRoot ht LTree.node_ne_nil
        rw [hseat]
        exact ⟨fun h => (nomatch h), fun h => nomatch h⟩

/-- Two nodes outside any tree: 1 with key 100, and 2 with key 90 and the given `p`. -/
def twoNodes (p : Option Nat) : Mem Int
  | 1 => some ⟨none, none, none, 100⟩
  | 2 => some ⟨none, none, p, 90⟩
  | _ => none

theorem bstree_insertions_agree_prepared :
    ∃ tr₁ tr₂, bstreeInsert 9 ⟨some 1, twoNodes (some 1)⟩ (some 2) = some (tr₁, 0)
      ∧ bstreeInsertRecursive 9 ⟨some 1, twoNodes (some 1)⟩ .ofRoot (some 2) = some (tr₂, 0)
      ∧ (tr₂ = tr₁ ↔ some 1 = seat 90 (.node 1 .nil 100 .nil) none)
      ∧ (seat 90 (.node 1 .nil 100 .nil) none = none ↔ some 1 = none) := by
  refine @bstree_insertions_agree ⟨some 1, twoNodes (some 1)⟩ (.node 1 .nil 100 .nil) rfl
    ⟨⟨none, rfl⟩, trivial, trivial⟩ 2 (some 1) 90 rfl ?_ 9 (by decide)
  decide

/-- A fresh node below a root: the recursive insertion leaves its `p` null, and a
    later `bstree_delete` of the node throws the whole tree away. -/
theorem bstree_insertions_differ :
    ∃ tr tr₁ tr₂, bstreeInsert 9 ⟨none, twoNodes none⟩ (some 1) = some (tr, 0)
      ∧ bstreeInsert 9 tr (some 2) = some (tr₁, 0)
      ∧ bstreeInsertRecursive 9 tr .ofRoot (some 2) = some (tr₂, 0) ∧ tr₂ ≠ tr₁
      ∧ (bstreeDelete 9 tr₁ 2).map Tree.root = some (some 1)
      ∧ (bstreeDelete 9 tr₂ 2).map Tree.root = some none := by
  refine ⟨_, _, _, rfl, rfl, rfl, ?_, by decide, by decide⟩
  intro heq
  have hp := congrArg (fun tr : Tree => (tr.mem 2).map Cell.p) heq
  exact absurd hp (by decide)

end Bst
