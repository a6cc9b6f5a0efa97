import Mathlib.Algebra.Group.Nat.Defs
import Mathlib.Data.Nat.Size
import Mathlib.Data.List.Induction
import Mathlib.Logic.Function.Basic

/-! # The radix tree (`src/algs/intro_to_algs3th/radix_tree.cpp`)

    A key is walked from its lowest bit up, and rests at the first node where the bits read so
    far are the whole key.

    * The model: the node pool with its rows, `radixTreeNodeGet`, and `radixTreeInsert`.
    * `walk` reads the tree: the node that a path of bits leads to.  Two paths never lead to
      one node, and a new node extends the walk at one path (`walk_link`).
    * The bit sets of an insertion have `sizeof(size_t)` bits, which is 8.  So a key is stored
      exactly when it is below 256 (`insert_spec`), and a sequence of insertions stores its
      keys exactly when all of them are (`radix_law_iff`). -/

namespace RadixTree

/-! ## The model -/

/-- `RTR_POOL_N`, the nodes of a row; a node takes 32 bytes. -/
abbrev RTR_POOL_N : Nat := 32 * 1024 * 1024 / 32

/-- A node's place in the pool: its row and its column. -/
abbrev Addr := Nat × Nat

/-- `struct radix_tree_node`. -/
structure Node where
  left : Option Addr
  right : Option Addr
  on : Bool
  key : Int

/-- A node of a row that `calloc` just gave. -/
def Node.zero : Node := ⟨none, none, false, 0⟩

/-- `x->right` for a set bit, else `x->left`. -/
def Node.child (x : Node) : Bool → Option Addr
  | true => x.right
  | false => x.left

/-- The same, assigned. -/
def Node.setChild (x : Node) (b : Bool) (a : Addr) : Node :=
  match b with
  | true => { x with right := some a }
  | false => { x with left := some a }

/-- `struct radix_tree_node_pool`, with the nodes of its rows. -/
structure Pool where
  i : Nat
  j : Nat
  node : Addr → Node

/-- `g_pool` when the program starts. -/
def gPool : Pool := ⟨0, 0, fun _ => Node.zero⟩

/-- `radix_tree_node_get`; `none` when it is out of memory. -/
def radixTreeNodeGet (p : Pool) : Option (Addr × Pool) :=
  if p.i = 32 then none
  else
    let p₁ : Pool := if p.i = 0 ∨ p.j = RTR_POOL_N then
        { p with i := p.i + 1, node := fun a => if a.1 = p.i then Node.zero else p.node a }
      else p
    let p₂ : Pool := if p₁.j = RTR_POOL_N then { p₁ with j := 0 } else p₁
    let ret : Addr := (p₂.i - 1, p₂.j)
    some (ret, { p₂ with
      j := p₂.j + 1
      node := Function.update p₂.node ret { p₂.node ret with on := false } })

/-- Down to the child on the side of bit `b`, which is made where there is none. -/
def descend (p : Pool) (x : Addr) (b : Bool) : Option (Addr × Pool) :=
  match (p.node x).child b with
  | some y => some (y, p)
  | none => do
      let (y, p) ← radixTreeNodeGet p
      some (y, { p with node := Function.update p.node x ((p.node x).setChild b y) })

/-- The loop of `radix_tree_insert` from bit `i` on.  Both bit sets have `sizeof(size_t)`
    bits. -/
def insertLoop (key : BitVec 64) : Nat → Nat → BitVec 8 → Addr → Pool → Option (Int × Pool)
  | 0, _, _, _, p => some (-1, p)
  | turns + 1, i, bitn, x, p => do
      let b := (key.setWidth 8).getLsbD i
      let (x, p) ← descend p x b
      let bitn := if b then bitn ||| (1#8 <<< i) else bitn &&& ~~~(1#8 <<< i)
      if bitn.setWidth 64 = key then
        let stored : Node := { p.node x with key := (bitn.toNat : Int), on := true }
        some (0, { p with node := Function.update p.node x stored })
      else insertLoop key turns (i + 1) bitn x p

/-- A tree: the pointer to its root, and the pool its nodes are in. -/
structure Tree where
  root : Option Addr
  pool : Pool

/-- The root, which is made where there is none. -/
def rootNode (t : Tree) : Option (Addr × Pool) :=
  match t.root with
  | some root => some (root, t.pool)
  | none => radixTreeNodeGet t.pool

/-- `radix_tree_insert`: what it returns, and the tree afterwards. -/
def radixTreeInsert (t : Tree) (key : BitVec 64) : Option (Int × Tree) := do
  let (root, p) ← rootNode t
  let (rc, p) ← insertLoop key 8 0 0#8 root p
  some (rc, ⟨some root, p⟩)

/-- Insertions one after the other, as in `radix_tree_sort`, with what each returned. -/
def inserts : List (BitVec 64) → Tree → Option (List Int × Tree)
  | [], t => some ([], t)
  | key :: keys, t => do
      let (rc, t) ← radixTreeInsert t key
      let (rcs, t) ← inserts keys t
      some (rc :: rcs, t)

/-- The tree a caller starts with. -/
def noTree : Tree := ⟨none, gPool⟩

/-! ## The pool -/

/-- The nodes handed out so far. -/
def Used (p : Pool) (a : Addr) : Prop := a.1 + 1 < p.i ∨ (a.1 + 1 = p.i ∧ a.2 < p.j)

/-- **A node that is handed out** was not in use, and no node changes: those that are not in
    use are all zero. -/
theorem get_spec {p p' : Pool} {a : Addr} (hfresh : ∀ b, ¬ Used p b → p.node b = Node.zero)
    (h : radixTreeNodeGet p = some (a, p')) :
    ¬ Used p a ∧ Used p' a ∧ (∀ b, Used p b → Used p' b) ∧ p'.node = p.node := by
  have hrow : (fun b : Addr => if b.1 = p.i then Node.zero else p.node b) = p.node := by
    funext b
    split
    · next hb => exact (hfresh b (by rw [Used]; omega)).symm
    · rfl
  have hret : ∀ b : Addr, ¬ Used p b →
      Function.update p.node b { p.node b with on := false } = p.node := by
    intro b hb
    rw [hfresh b hb]
    exact Function.update_eq_self_iff.mpr (hfresh b hb).symm
  rw [radixTreeNodeGet] at h
  split at h
  · exact absurd h.symm (Option.some_ne_none _)
  · by_cases hnew : p.i = 0 ∨ p.j = RTR_POOL_N
    · simp only [if_pos hnew, hrow, Option.some.injEq, Prod.mk.injEq] at h
      obtain ⟨rfl, rfl⟩ := h
      split
      all_goals
        have hfree : ∀ j, ¬ Used p (p.i, j) := fun j => by rw [Used]; omega
        refine ⟨hfree _, .inr ⟨rfl, Nat.lt_succ_self _⟩, fun b hb => ?_, hret _ (hfree _)⟩
        rw [Used] at hb ⊢
        simp only
        omega
    · have hj : p.j ≠ RTR_POOL_N := fun hj => hnew (.inr hj)
      simp only [if_neg hnew, if_neg hj, Option.some.injEq, Prod.mk.injEq] at h
      obtain ⟨rfl, rfl⟩ := h
      have hfree : ¬ Used p (p.i - 1, p.j) := by rw [Used]; simp only; omega
      refine ⟨hfree, .inr ⟨?_, Nat.lt_succ_self _⟩, fun b hb => ?_, hret _ hfree⟩
      · simp only
        omega
      · rw [Used] at hb ⊢
        simp only
        omega

/-! ## Walking the tree -/

/-- The node that a path of bits leads to. -/
def walk (node : Addr → Node) : Option Addr → List Bool → Option Addr
  | x, [] => x
  | none, _ :: _ => none
  | some x, b :: q => walk node ((node x).child b) q

theorem walk_snoc (node : Addr → Node) (q : List Bool) (b : Bool) (x : Option Addr) :
    walk node x (q ++ [b]) = (walk node x q).bind fun y => (node y).child b := by
  induction q generalizing x with
  | nil => cases x <;> rfl
  | cons c q ih =>
      cases x with
      | none => rfl
      | some x => exact ih _

/-- What hangs at no node is led to by no longer path. -/
theorem walk_snoc_none {node : Addr → Node} {x : Option Addr} {q : List Bool} (c : Bool)
    (h : walk node x q = none) : walk node x (q ++ [c]) = none := by
  rw [walk_snoc, h]
  rfl

theorem child_setChild_self (x : Node) (b : Bool) (a : Addr) :
    (x.setChild b a).child b = some a := by
  cases b <;> rfl

theorem child_setChild_ne (x : Node) {b c : Bool} (a : Addr) (h : c ≠ b) :
    (x.setChild b a).child c = x.child c := by
  cases b <;> cases c <;> first | rfl | exact absurd rfl h

/-- **A new child** is led to by one path, and no other path leads elsewhere than before; by
    induction on the path from its end. -/
theorem walk_link {node : Addr → Node} {root : Option Addr} {q : List Bool} {x y : Addr} {b : Bool}
    (hinj : ∀ r, walk node root r = some x → r = q) (hx : walk node root q = some x)
    (hnone : (node x).child b = none) (hy : node y = Node.zero) (hxy : y ≠ x) (r : List Bool) :
    walk (Function.update node x ((node x).setChild b y)) root r
      = if r = q ++ [b] then some y else walk node root r := by
  induction r using List.reverseRecOn with
  | nil =>
      rw [if_neg (by simp)]
      cases root <;> rfl
  | append_singleton r c ih =>
      rw [walk_snoc, ih]
      have hlen : r = q ++ [b] → r ++ [c] ≠ q ++ [b] := by
        intro hr hrc
        have := congrArg List.length (hr ▸ hrc)
        simp at this
      by_cases hr : r = q ++ [b]
      · -- the new node has no children yet
        rw [if_pos hr, if_neg (hlen hr), Option.bind_some, Function.update_of_ne hxy, hy, hr]
        have hqb : walk node root (q ++ [b]) = none := by rw [walk_snoc, hx]; exact hnone
        rw [walk_snoc_none c hqb]
        cases c <;> rfl
      · rw [if_neg hr, walk_snoc]
        by_cases hrq : r = q
        · subst hrq
          rw [hx, Option.bind_some, Option.bind_some, Function.update_self]
          by_cases hcb : c = b
          · subst hcb
            rw [if_pos rfl, child_setChild_self]
          · rw [if_neg (by simpa using hcb), child_setChild_ne _ _ hcb]
        · have hne : r ++ [c] ≠ q ++ [b] := fun h => hrq (List.append_inj_left' h rfl)
          rw [if_neg hne]
          cases hw : walk node root r with
          | none => rfl
          | some z =>
              have hz : z ≠ x := fun hz => hrq (hinj r (hw.trans (congrArg some hz)))
              rw [Option.bind_some, Option.bind_some, Function.update_of_ne hz]

/-- Only the links matter for the walk. -/
theorem walk_congr {node node' : Addr → Node}
    (h : ∀ x b, (node' x).child b = (node x).child b) (root : Option Addr) (r : List Bool) :
    walk node' root r = walk node root r := by
  induction r using List.reverseRecOn with
  | nil => cases root <;> rfl
  | append_singleton r c ih => simp only [walk_snoc, ih, h]

/-! ## The path of a key -/

/-- The lowest `i` bits of a key. -/
def bitsOf (key : BitVec 64) (i : Nat) : List Bool := (List.range i).map key.getLsbD

/-- The number of bits that are read before the key is complete. -/
def depth (key : BitVec 64) : Nat := max 1 key.toNat.size

/-- The bits on the way to a key's node. -/
def path (key : BitVec 64) : List Bool := bitsOf key (depth key)

theorem bitsOf_succ (key : BitVec 64) (i : Nat) :
    bitsOf key (i + 1) = bitsOf key i ++ [key.getLsbD i] := by
  rw [bitsOf, List.range_succ, List.map_append]
  rfl

theorem depth_le_iff {key : BitVec 64} {i : Nat} (hi : 1 ≤ i) :
    depth key ≤ i ↔ key.toNat < 2 ^ i := by
  rw [depth, Nat.max_le, Nat.size_le]
  exact and_iff_right hi

theorem one_le_depth (key : BitVec 64) : 1 ≤ depth key := Nat.le_max_left _ _

/-- Different keys have different paths. -/
theorem path_inj {key key' : BitVec 64} (h : path key = path key') : key = key' := by
  have hdepth : depth key = depth key' := by
    simpa [path, bitsOf] using congrArg List.length h
  have hhigh : ∀ (k : BitVec 64) i, depth k ≤ i → k.getLsbD i = false := by
    intro k i hi
    have hlt := (depth_le_iff (Nat.le_trans (one_le_depth k) hi)).mp hi
    rw [BitVec.getLsbD]
    exact Nat.testBit_lt_two_pow hlt
  ext i hi
  show key.getLsbD i = key'.getLsbD i
  by_cases hid : i < depth key
  · rw [path, path, ← hdepth] at h
    exact List.map_inj_left.mp h i (List.mem_range.mpr hid)
  · rw [hhigh key i (by omega), hhigh key' i (by omega)]

/-- What `bitn` holds: the bits that were read. -/
theorem bitn_step {key : BitVec 64} {bitn : BitVec 8} {i : Nat} (hi : i < 8)
    (h : bitn.toNat = key.toNat % 2 ^ i) :
    (if key.getLsbD i then bitn ||| (1#8 <<< i) else bitn &&& ~~~(1#8 <<< i)).toNat
      = key.toNat % 2 ^ (i + 1) := by
  have hbit : ∀ j, bitn.getLsbD j = (decide (j < i) && key.getLsbD j) := by
    intro j
    rw [BitVec.getLsbD, h, Nat.testBit_mod_two_pow, BitVec.getLsbD]
  refine Nat.eq_of_testBit_eq fun j => ?_
  rw [Nat.testBit_mod_two_pow]
  show BitVec.getLsbD _ j = (decide (j < i + 1) && key.getLsbD j)
  rcases Nat.lt_trichotomy j i with hj | rfl | hj
  · have hmask : (1#8 <<< i).getLsbD j = false := by simp [hj]
    split
    · rw [BitVec.getLsbD_or, hmask, hbit]
      simp [hj, Nat.lt_succ_of_lt hj]
    · rw [BitVec.getLsbD_and, BitVec.getLsbD_not, hmask, hbit]
      simp [hj, Nat.lt_succ_of_lt hj]
      omega
  · have hmask : (1#8 <<< j).getLsbD j = true := by simp [hi]
    split
    · next hb => rw [BitVec.getLsbD_or, hmask, hb]; simp
    · next hb =>
        rw [BitVec.getLsbD_and, BitVec.getLsbD_not, hmask]
        simp [Bool.not_eq_true _ ▸ hb]
  · have hnot : ¬ j < i + 1 := by omega
    split
    · have hmask : (1#8 <<< i).getLsbD j = false := by
        simp
        omega
      rw [BitVec.getLsbD_or, hmask, hbit]
      simp [hnot, Nat.not_lt.mpr (Nat.le_of_lt hj)]
    · rw [BitVec.getLsbD_and, hbit]
      simp [hnot, Nat.not_lt.mpr (Nat.le_of_lt hj)]

/-! ## What an insertion keeps -/

/-- The tree is in order: all of it is in use, no two paths lead to one node, and nodes that
    are not in use are zero. -/
structure Shape (t : Tree) : Prop where
  used : ∀ {q a}, walk t.pool.node t.root q = some a → Used t.pool a
  inj : ∀ {q r a}, walk t.pool.node t.root q = some a → walk t.pool.node t.root r = some a → q = r
  fresh : ∀ a, ¬ Used t.pool a → t.pool.node a = Node.zero

/-- `t'` has all paths of `t`, and what the nodes hold is the same. -/
structure Grows (t t' : Tree) : Prop where
  walk : ∀ {q a}, walk t.pool.node t.root q = some a → walk t'.pool.node t'.root q = some a
  on : ∀ a, (t'.pool.node a).on = (t.pool.node a).on
  key : ∀ a, (t'.pool.node a).key = (t.pool.node a).key

theorem Grows.refl (t : Tree) : Grows t t := ⟨id, fun _ => rfl, fun _ => rfl⟩

theorem Grows.trans {t₁ t₂ t₃ : Tree} (h₁ : Grows t₁ t₂) (h₂ : Grows t₂ t₃) : Grows t₁ t₃ :=
  ⟨fun h => h₂.walk (h₁.walk h), fun a => (h₂.on a).trans (h₁.on a),
    fun a => (h₂.key a).trans (h₁.key a)⟩

/-- The keys that were given and are stored rest at the ends of their paths, and no other node
    is on. -/
structure Contents (t : Tree) (keys : List (BitVec 64)) : Prop where
  held : ∀ k ∈ keys, k.toNat < 256 → ∃ a, walk t.pool.node t.root (path k) = some a
    ∧ (t.pool.node a).on = true ∧ (t.pool.node a).key = k.toNat
  only : ∀ a, (t.pool.node a).on = true →
    ∃ k ∈ keys, k.toNat < 256 ∧ walk t.pool.node t.root (path k) = some a

theorem Contents.grows {t t' : Tree} {keys : List (BitVec 64)} (h : Contents t keys)
    (hg : Grows t t') : Contents t' keys := by
  constructor
  · intro k hk hsmall
    obtain ⟨a, hwalk, hon, hkey⟩ := h.held k hk hsmall
    exact ⟨a, hg.walk hwalk, (hg.on a).trans hon, (hg.key a).trans hkey⟩
  · intro a hon
    obtain ⟨k, hk, hsmall, hwalk⟩ := h.only a ((hg.on a).symm.trans hon)
    exact ⟨k, hk, hsmall, hg.walk hwalk⟩

theorem rootNode_spec {t : Tree} {root : Addr} {p : Pool} (hs : Shape t)
    (h : rootNode t = some (root, p)) : Shape ⟨some root, p⟩ ∧ Grows t ⟨some root, p⟩ := by
  obtain ⟨r, pool⟩ := t
  cases r with
  | some r =>
      obtain ⟨rfl, rfl⟩ := Prod.mk.inj (Option.some.inj h)
      exact ⟨hs, Grows.refl _⟩
  | none =>
      obtain ⟨hfree, hused, hmono, hnode⟩ := get_spec hs.fresh h
      have hzero : p.node root = Node.zero := by rw [hnode]; exact hs.fresh root hfree
      -- the root is alone: every longer path leads nowhere
      have hwalk : ∀ q a, walk p.node (some root) q = some a → q = [] ∧ a = root := by
        intro q
        induction q using List.reverseRecOn with
        | nil => exact fun a ha => ⟨rfl, (Option.some.inj ha).symm⟩
        | append_singleton q c ih =>
            intro a ha
            rw [walk_snoc] at ha
            obtain ⟨y, hy, ha⟩ := Option.bind_eq_some_iff.mp ha
            rw [(ih y hy).2, hzero] at ha
            cases c <;> exact absurd ha.symm (Option.some_ne_none _)
      refine ⟨⟨fun ha => ?_, fun ha hb => ?_, fun a ha => ?_⟩, ⟨fun {q a} ha => ?_, ?_, ?_⟩⟩
      · rw [(hwalk _ _ ha).2]
        exact hused
      · rw [(hwalk _ _ ha).1, (hwalk _ _ hb).1]
      · show p.node a = Node.zero
        rw [hnode]
        exact hs.fresh a fun hu => ha (hmono a hu)
      · cases q <;> exact absurd ha.symm (Option.some_ne_none _)
      · exact fun a => by rw [hnode]
      · exact fun a => by rw [hnode]

/-- **One turn**: the path grows by one bit. -/
theorem descend_spec {root : Option Addr} {p p' : Pool} {q : List Bool} {x y : Addr} {b : Bool}
    (hs : Shape ⟨root, p⟩) (hx : walk p.node root q = some x)
    (h : descend p x b = some (y, p')) :
    Shape ⟨root, p'⟩ ∧ Grows ⟨root, p⟩ ⟨root, p'⟩ ∧ walk p'.node root (q ++ [b]) = some y := by
  rw [descend] at h
  split at h
  · next z hz =>
      obtain ⟨rfl, rfl⟩ := Prod.mk.inj (Option.some.inj h)
      refine ⟨hs, Grows.refl _, ?_⟩
      rw [walk_snoc, hx]
      exact hz
  · next hnone =>
      obtain ⟨⟨z, p₁⟩, hget, h⟩ := Option.bind_eq_some_iff.mp h
      obtain ⟨rfl, rfl⟩ := Prod.mk.inj (Option.some.inj h)
      obtain ⟨hfree, hused, hmono, hnode⟩ := get_spec hs.fresh hget
      have hzx : z ≠ x := fun hzx => hfree (hzx ▸ hs.used hx)
      have hzero : p.node z = Node.zero := hs.fresh z hfree
      have hlink := walk_link (fun r hr => hs.inj hr hx) hx hnone hzero hzx
      have hsame : ∀ a, ((Function.update p.node x ((p.node x).setChild b z)) a).on
            = (p.node a).on
          ∧ ((Function.update p.node x ((p.node x).setChild b z)) a).key = (p.node a).key := by
        intro a
        by_cases ha : a = x
        · subst ha
          rw [Function.update_self]
          cases b <;> exact ⟨rfl, rfl⟩
        · rw [Function.update_of_ne ha]
          exact ⟨rfl, rfl⟩
      have hqb : walk p.node root (q ++ [b]) = none := by rw [walk_snoc, hx]; exact hnone
      rw [hnode]
      refine ⟨⟨fun {r a} ha => ?_, fun {r r' a} ha hb => ?_, fun a ha => ?_⟩,
        ⟨fun {r a} ha => ?_, fun a => (hsame a).1, fun a => (hsame a).2⟩, ?_⟩
      · rw [hlink] at ha
        split at ha
        · exact Option.some.inj ha ▸ hused
        · exact hmono a (hs.used ha)
      · rw [hlink] at ha hb
        -- the new node was in use nowhere else
        have hnew : ∀ {r}, walk p.node root r = some z → False := fun hr => hfree (hs.used hr)
        split at ha <;> split at hb
        · next hr hr' => exact hr.trans hr'.symm
        · exact (hnew (hb.trans ha.symm)).elim
        · exact (hnew (ha.trans hb.symm)).elim
        · exact hs.inj ha hb
      · have hold : ¬ Used p a := fun hu => ha (hmono a hu)
        have hax : a ≠ x := fun hax => hold (hax ▸ hs.used hx)
        show Function.update p.node x _ a = Node.zero
        rw [Function.update_of_ne hax]
        exact hs.fresh a hold
      · show walk (Function.update p.node x _) root r = some a
        rw [hlink, if_neg]
        · exact ha
        · rintro rfl
          exact absurd (ha.symm.trans hqb) (Option.some_ne_none _)
      · rw [hlink, if_pos rfl]

/-- **A key is stored** at the end of its path; the keys that rest elsewhere stay. -/
theorem store_spec {root : Option Addr} {p : Pool} {key : BitVec 64} {x : Addr}
    {keys : List (BitVec 64)} {stored : Node} (hs : Shape ⟨root, p⟩) (hc : Contents ⟨root, p⟩ keys)
    (hx : walk p.node root (path key) = some x) (hsmall : key.toNat < 256)
    (hstored : stored = { p.node x with key := key.toNat, on := true }) :
    Shape ⟨root, { p with node := Function.update p.node x stored }⟩
      ∧ Contents ⟨root, { p with node := Function.update p.node x stored }⟩ (keys ++ [key]) := by
  have hwalk : ∀ r, walk (Function.update p.node x stored) root r = walk p.node root r := by
    refine walk_congr (fun a b => ?_) root
    by_cases ha : a = x
    · subst ha
      rw [Function.update_self, hstored]
      cases b <;> rfl
    · rw [Function.update_of_ne ha]
  refine ⟨⟨fun ha => ?_, fun ha hb => ?_, fun a ha => ?_⟩, fun k hk hk256 => ?_, fun a ha => ?_⟩
  · exact hs.used ((hwalk _).symm.trans ha)
  · exact hs.inj ((hwalk _).symm.trans ha) ((hwalk _).symm.trans hb)
  · have hax : a ≠ x := by
      rintro rfl
      exact ha (hs.used hx)
    show Function.update p.node x stored a = Node.zero
    rw [Function.update_of_ne hax]
    exact hs.fresh a ha
  · simp only [hwalk]
    -- an older key at the same node would have the same path
    have hold : k ≠ key → k ∈ keys := fun hne => by simpa [hne] using hk
    by_cases hkk : k = key
    · subst hkk
      refine ⟨x, hx, ?_⟩
      rw [Function.update_self, hstored]
      exact ⟨rfl, rfl⟩
    · obtain ⟨a, ha, hon, hkey⟩ := hc.held k (hold hkk) hk256
      have hax : a ≠ x := fun hax => hkk (path_inj (hs.inj ha (hax ▸ hx)))
      refine ⟨a, ha, ?_⟩
      rw [Function.update_of_ne hax]
      exact ⟨hon, hkey⟩
  · simp only [hwalk]
    by_cases hax : a = x
    · exact ⟨key, by simp, hsmall, hax ▸ hx⟩
    · have hon : (p.node a).on = true := by
        change (Function.update p.node x stored a).on = true at ha
        rwa [Function.update_of_ne hax] at ha
      obtain ⟨k, hk, hk256, hwalk'⟩ := hc.only a hon
      exact ⟨k, List.mem_append_left _ hk, hk256, hwalk'⟩

theorem Contents.snoc_large {t : Tree} {keys : List (BitVec 64)} {key : BitVec 64}
    (hc : Contents t keys) (hlarge : ¬ key.toNat < 256) : Contents t (keys ++ [key]) := by
  refine ⟨fun k hk hk256 => hc.held k ?_ hk256, fun a ha => ?_⟩
  · have hne : k ≠ key := fun h => hlarge (h ▸ hk256)
    simpa [hne] using hk
  · obtain ⟨k, hk, h⟩ := hc.only a ha
    exact ⟨k, List.mem_append_left _ hk, h⟩

/-- **The loop**: its bits run out, or the key is stored at its path; by induction on the
    turns that are left. -/
theorem insertLoop_spec {root : Option Addr} {key : BitVec 64} {keys : List (BitVec 64)} :
    ∀ {turns i : Nat} {bitn : BitVec 8} {x : Addr} {p p' : Pool} {rc : Int},
    Shape ⟨root, p⟩ → Contents ⟨root, p⟩ keys → i + turns = 8 →
    walk p.node root (bitsOf key i) = some x → bitn.toNat = key.toNat % 2 ^ i → i < depth key →
    insertLoop key turns i bitn x p = some (rc, p') →
    rc = (if key.toNat < 256 then 0 else -1) ∧ Shape ⟨root, p'⟩
      ∧ Contents ⟨root, p'⟩ (keys ++ [key]) := by
  intro turns
  induction turns with
  | zero =>
      intro i bitn x p p' rc hs hc hi _ _ hdeep h
      obtain ⟨rfl, rfl⟩ := Prod.mk.inj (Option.some.inj h)
      have hlarge : ¬ key.toNat < 256 := by
        intro hsmall
        have hle : depth key ≤ 8 := (depth_le_iff (by decide)).mpr hsmall
        omega
      exact ⟨(if_neg hlarge).symm, hs, hc.snoc_large hlarge⟩
  | succ turns ih =>
      intro i bitn x p p' rc hs hc hi hx hbitn hdeep h
      have hbit : (key.setWidth 8).getLsbD i = key.getLsbD i := by
        rw [BitVec.getLsbD_setWidth, decide_eq_true (by omega : i < 8), Bool.true_and]
      rw [insertLoop, hbit] at h
      obtain ⟨⟨y, p₁⟩, hdescend, h⟩ := Option.bind_eq_some_iff.mp h
      obtain ⟨hs₁, hgrows, hy⟩ := descend_spec hs hx hdescend
      have hc₁ := hc.grows hgrows
      rw [← bitsOf_succ] at hy
      have hread := bitn_step (by omega : i < 8) hbitn
      simp only at h
      generalize (if key.getLsbD i = true then bitn ||| (1#8 <<< i)
        else bitn &&& ~~~(1#8 <<< i)) = bitn' at h hread
      -- the bits read so far are the key when no more of them are left
      have hwhole : bitn'.setWidth 64 = key ↔ depth key ≤ i + 1 := by
        rw [depth_le_iff (Nat.succ_pos i), ← BitVec.toNat_inj,
          BitVec.toNat_setWidth_of_le (by decide), hread]
        exact Nat.mod_eq_iff_lt (Nat.ne_of_gt (Nat.two_pow_pos _))
      split at h
      · next hkey =>
          obtain ⟨rfl, rfl⟩ := Prod.mk.inj (Option.some.inj h)
          have hend : depth key = i + 1 := by
            have := hwhole.mp hkey
            omega
          have hsmall : key.toNat < 256 := (depth_le_iff (by decide : 1 ≤ 8)).mp (by omega)
          refine ⟨(if_pos hsmall).symm, store_spec hs₁ hc₁ ?_ hsmall ?_⟩
          · rw [path, hend]
            exact hy
          · rw [← hkey, BitVec.toNat_setWidth_of_le (by decide)]
      · next hkey =>
          have hmore : i + 1 < depth key := Nat.lt_of_not_le fun hle => hkey (hwhole.mpr hle)
          exact ih hs₁ hc₁ (by omega) hy hread hmore h

/-- **An insertion** into any tree in order. -/
theorem insert_spec {t t' : Tree} {keys : List (BitVec 64)} {key : BitVec 64} {rc : Int}
    (hs : Shape t) (hc : Contents t keys) (h : radixTreeInsert t key = some (rc, t')) :
    rc = (if key.toNat < 256 then 0 else -1) ∧ Shape t' ∧ Contents t' (keys ++ [key]) := by
  rw [radixTreeInsert] at h
  obtain ⟨⟨root, p⟩, hroot, h⟩ := Option.bind_eq_some_iff.mp h
  obtain ⟨⟨rc', p'⟩, hloop, h⟩ := Option.bind_eq_some_iff.mp h
  obtain ⟨rfl, rfl⟩ := Prod.mk.inj (Option.some.inj h)
  obtain ⟨hs₁, hgrows⟩ := rootNode_spec hs hroot
  have hbitn : (0#8).toNat = key.toNat % 2 ^ 0 := (Nat.mod_one _).symm
  exact insertLoop_spec hs₁ (hc.grows hgrows) rfl rfl hbitn (one_le_depth key) hloop

/-- **Every sequence of insertions.** -/
theorem inserts_spec {keys : List (BitVec 64)} : ∀ {before : List (BitVec 64)} {t t' : Tree}
    {rcs : List Int}, Shape t → Contents t before → inserts keys t = some (rcs, t') →
    rcs = keys.map (fun k => if k.toNat < 256 then 0 else -1) ∧ Shape t'
      ∧ Contents t' (before ++ keys) := by
  induction keys with
  | nil =>
      intro before t t' rcs hs hc h
      obtain ⟨rfl, rfl⟩ := Prod.mk.inj (Option.some.inj h)
      rw [List.append_nil]
      exact ⟨rfl, hs, hc⟩
  | cons key keys ih =>
      intro before t t' rcs hs hc h
      rw [inserts] at h
      obtain ⟨⟨rc, t₁⟩, hinsert, h⟩ := Option.bind_eq_some_iff.mp h
      obtain ⟨⟨rcs', t₂⟩, hrest, h⟩ := Option.bind_eq_some_iff.mp h
      obtain ⟨rfl, rfl⟩ := Prod.mk.inj (Option.some.inj h)
      obtain ⟨hrc, hs₁, hc₁⟩ := insert_spec hs hc hinsert
      obtain ⟨hrcs, hs₂, hc₂⟩ := ih hs₁ hc₁ hrest
      rw [List.append_assoc] at hc₂
      exact ⟨by rw [List.map_cons, ← hrc, ← hrcs], hs₂, hc₂⟩

theorem noTree_shape : Shape noTree := by
  have hnone : ∀ q, walk noTree.pool.node noTree.root q = none := by
    intro q
    cases q <;> rfl
  refine ⟨fun ha => ?_, fun ha _ => ?_, fun _ _ => rfl⟩
  all_goals
    rw [hnone] at ha
    exact absurd ha.symm (Option.some_ne_none _)

theorem noTree_contents : Contents noTree [] := by
  refine ⟨fun k hk => absurd hk List.not_mem_nil, fun a ha => ?_⟩
  exact absurd ha.symm Bool.noConfusion

/-! ## The keys of a tree -/

/-- What insertions are for: all of them return 0, and the nodes that are on hold the keys
    that were inserted, each of them once. -/
structure StoresKeys (keys : List (BitVec 64)) (rcs : List Int) (t : Tree) : Prop where
  returns : ∀ rc ∈ rcs, rc = 0
  keys : ∀ k : Int, (∃ key ∈ keys, k = key.toNat)
    ↔ ∃ a, (t.pool.node a).on = true ∧ (t.pool.node a).key = k
  once : ∀ a b, (t.pool.node a).on = true → (t.pool.node b).on = true →
    (t.pool.node a).key = (t.pool.node b).key → a = b
  reached : ∀ a, (t.pool.node a).on = true → ∃ q, walk t.pool.node t.root q = some a

theorem Contents.storesKeys {t : Tree} {keys : List (BitVec 64)} {rcs : List Int}
    (hc : Contents t keys) (hrcs : ∀ rc ∈ rcs, rc = 0) (hsmall : ∀ k ∈ keys, k.toNat < 256) :
    StoresKeys keys rcs t := by
  -- a node that is on, with its key
  have hon : ∀ {a}, (t.pool.node a).on = true → ∃ k ∈ keys,
      walk t.pool.node t.root (path k) = some a ∧ (t.pool.node a).key = k.toNat := by
    intro a ha
    obtain ⟨k, hk, hk256, hwalk⟩ := hc.only a ha
    obtain ⟨b, hb, _, hkey⟩ := hc.held k hk hk256
    obtain rfl : a = b := Option.some.inj (hwalk.symm.trans hb)
    exact ⟨k, hk, hwalk, hkey⟩
  refine ⟨hrcs, fun k => ⟨?_, ?_⟩, fun a b ha hb hab => ?_, fun a ha => ?_⟩
  · rintro ⟨key, hkey, rfl⟩
    obtain ⟨a, _, ha⟩ := hc.held key hkey (hsmall key hkey)
    exact ⟨a, ha⟩
  · rintro ⟨a, ha, rfl⟩
    obtain ⟨key, hkey, _, h⟩ := hon ha
    exact ⟨key, hkey, h⟩
  · obtain ⟨k, _, hwalk, hk⟩ := hon ha
    obtain ⟨k', _, hwalk', hk'⟩ := hon hb
    have hkk : k = k' := BitVec.eq_of_toNat_eq (Int.ofNat.inj (hk.symm.trans (hab.trans hk')))
    exact Option.some.inj (hwalk.symm.trans (hkk ▸ hwalk'))
  · obtain ⟨k, _, hwalk, _⟩ := hon ha
    exact ⟨path k, hwalk⟩

/-- **The keys are stored** exactly when all of them fit in the bit sets. -/
theorem radix_law_iff {keys : List (BitVec 64)} {rcs : List Int} {t : Tree}
    (h : inserts keys noTree = some (rcs, t)) :
    StoresKeys keys rcs t ↔ ∀ k ∈ keys, k.toNat < 256 := by
  obtain ⟨rfl, _, hc⟩ := inserts_spec noTree_shape noTree_contents h
  constructor
  · intro hstores k hk
    by_contra hlarge
    have hrc := hstores.returns (-1) (List.mem_map.mpr ⟨k, hk, if_neg hlarge⟩)
    exact absurd hrc (by decide)
  · intro hsmall
    refine hc.storesKeys (fun rc hrc => ?_) hsmall
    obtain ⟨k, hk, rfl⟩ := List.mem_map.mp hrc
    exact if_pos (hsmall k hk)

/-- The five keys of `test_radix_tree_main`. -/
theorem radix_law_test : ∃ rcs t, inserts [11#64, 2#64, 3#64, 4#64, 0#64] noTree = some (rcs, t)
    ∧ (StoresKeys [11#64, 2#64, 3#64, 4#64, 0#64] rcs t
      ↔ ∀ k ∈ [11#64, 2#64, 3#64, 4#64, 0#64], k.toNat < 256) :=
  ⟨_, _, rfl, radix_law_iff rfl⟩

/-- The key 256 is refused. -/
theorem radix_refuses_256 : ∃ rcs t, inserts [256#64] noTree = some (rcs, t)
    ∧ ¬ StoresKeys [256#64] rcs t := by
  refine ⟨_, _, rfl, fun hstores => ?_⟩
  exact absurd (hstores.returns (-1) (List.mem_singleton.mpr rfl)) (by decide)

end RadixTree
