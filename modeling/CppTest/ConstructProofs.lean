import Mathlib.Data.List.Nodup
import Mathlib.Data.List.TakeDrop
import Mathlib.Logic.Function.Basic
import CppTest.MachineProofs

/-! # A tree from its traversals (`src/algs/jzoffer/construct_btree.cpp`)

    `construct_btr_pre_in` builds the binary tree that has a given pre-order and in-order
    sequence: the first key of `pre` is the root, and its place in `in` cuts both arrays.
    The nodes come from blocks that `btrnode_get` allocates as they are used up.

    * A node that is handed out was not in use (`btrnodeGet_spec`).
    * From the traversals of a tree the tree comes out, in new nodes, and the rest of memory
      stays (`construct_builds`, `construct_round_trip`).
    * A root that is not in its part of `in` is not noticed, since `std::find` does not
      return null: the call goes on with a length of 2^64 - 1.  So the function returns `0`
      or does not return (`construct_returns`), and it rejects nothing
      (`construct_never_rejects`). -/

namespace Construct

open Machine

/-! ## The model -/

/-- A node in memory: its block and its index there. -/
abbrev Addr := Nat × Nat

structure BtrNode where
  key : Int
  left : Option Addr
  right : Option Addr
  deriving Repr, DecidableEq

/-- `1024 * 1024 / sizeof(btr_node)`: an `int`, four bytes of padding and two pointers. -/
def blockNodes : Nat := 1024 * 1024 / 24

/-- `gnodes` (the block in use), `ginodes`, the number of blocks so far, and memory.  A
    block is as `malloc` leaves it: its cells hold anything. -/
structure Pool where
  gnodes : Option Nat
  ginodes : Nat
  mallocs : Nat
  cells : Addr → BtrNode
  inBlock : ginodes < blockNodes
  known : ∀ block, gnodes = some block → block < mallocs

/-- A new block. -/
def Pool.malloc (p : Pool) : Pool :=
  { p with
    gnodes := some p.mallocs
    mallocs := p.mallocs + 1
    known := by
      rintro block h
      obtain rfl := Option.some.inj h
      exact Nat.lt_succ_self _ }

/-- `gnodes = 0; ginodes = 0`: the block in use is left behind. -/
def Pool.leave (p : Pool) : Pool :=
  { p with
    gnodes := none
    ginodes := 0
    inBlock := by decide
    known := fun _ h => nomatch h }

/-- `ginodes++`. -/
def Pool.advance (p : Pool) (h : p.ginodes ≠ blockNodes - 1) : Pool :=
  { p with
    ginodes := p.ginodes + 1
    inBlock := by
      have := p.inBlock
      omega }

/-- One pass of the loop of `btrnode_get`; a block is left behind before its last node. -/
def btrnodeGetPass (p : Pool) : Option (Pass Pool (Addr × Pool)) :=
  let (block, p) := match p.gnodes with
    | none => (p.mallocs, p.malloc)
    | some block => (block, p)
  if h : p.ginodes = blockNodes - 1 then some (.next p.leave)
  else some (.done ((block, p.ginodes), p.advance h))

def Pool.modify (p : Pool) (a : Addr) (f : BtrNode → BtrNode) : Pool :=
  { p with cells := Function.update p.cells a (f (p.cells a)) }

/-- `std::find(in, in + len, root) - in`: the end of the range if the key is not there.  A range
    that is not inside the array is undefined, and faults. -/
def find (inn : List Int) (len : Nat) (root : Int) : Option Nat :=
  if len ≤ inn.length then some ((inn.take len).idxOf root) else none

/-- A child with `n` keys: what the recursive call gives, and a null pointer if there are
    none. -/
def child (n : Nat) (p : Pool) (call : Option (Int × Option Addr × Pool)) :
    Option (Int × Option Addr × Pool) :=
  if 0 < n then call else some (0, none, p)

/-- `construct_btr_pre_in` for pointers that are not null; a pointer is the cells from it on.
    The result is the code, what `tr` refers to afterwards, and the pool.  Neither the
    result of `std::find` nor that of `btrnode_get` is ever null, so the codes -1 and -3 are
    not returned. -/
def construct : Nat → Pool → Option Addr → List Int → List Int → Nat →
    Option (Int × Option Addr × Pool)
  | 0, _, _, _, _, _ => none
  | fuel + 1, p, tr, pre, inn, len =>
      if len = 0 then some (-2, tr, p)
      else do
        let root ← pre.head?
        let leftn ← find inn len root
        let (node, p) ← loop btrnodeGetPass (fuel + 1) p
        let p := p.modify node fun n => { n with key := root }
        let (r, left, p) ← child leftn p
          (construct fuel p (p.cells node).left pre.tail inn leftn)
        let p := p.modify node fun n => { n with left := left }
        if r ≠ 0 then some (-4, some node, p)
        else do
          let rightn := (wrap64 (len - leftn - 1)).toNat
          let (r, right, p) ← child rightn p
            (construct fuel p (p.cells node).right (pre.tail.drop leftn) (inn.drop (1 + leftn))
              rightn)
          let p := p.modify node fun n => { n with right := right }
          if r ≠ 0 then some (-5, some node, p) else some (0, some node, p)

/-- `construct_btr_pre_in`; `none` is a null pointer. -/
def constructBtrPreIn (fuel : Nat) (p : Pool) (tr : Option Addr) (pre inn : Option (List Int))
    (len : Nat) : Option (Int × Option Addr × Pool) :=
  match pre, inn with
  | some pre, some inn => construct fuel p tr pre inn len
  | _, _ => some (-2, tr, p)

/-! ## Trees -/

inductive BTree where
  | nil
  | node (left : BTree) (key : Int) (right : BTree)
  deriving Repr, DecidableEq

def BTree.size : BTree → Nat
  | .nil => 0
  | .node left _ right => left.size + 1 + right.size

def BTree.preorder : BTree → List Int
  | .nil => []
  | .node left key right => key :: (left.preorder ++ right.preorder)

def BTree.inorder : BTree → List Int
  | .nil => []
  | .node left key right => left.inorder ++ key :: right.inorder

theorem BTree.length_preorder (t : BTree) : t.preorder.length = t.size := by
  induction t with
  | nil => rfl
  | node left key right ihl ihr =>
      rw [preorder, size, List.length_cons, List.length_append, ihl, ihr]
      omega

theorem BTree.length_inorder (t : BTree) : t.inorder.length = t.size := by
  induction t with
  | nil => rfl
  | node left key right ihl ihr =>
      rw [inorder, size, List.length_append, List.length_cons, ihl, ihr]
      omega

/-- The cells hold the tree, in the nodes that are listed. -/
def Reps (cells : Addr → BtrNode) : Option Addr → BTree → List Addr → Prop
  | p, .nil, as => p = none ∧ as = []
  | p, .node left key right, as => ∃ a ls rs, p = some a ∧ as = a :: (ls ++ rs)
      ∧ (cells a).key = key
      ∧ Reps cells (cells a).left left ls ∧ Reps cells (cells a).right right rs

/-- Only the cells of the tree matter. -/
theorem Reps.frame {cells cells' : Addr → BtrNode} :
    ∀ {t : BTree} {p : Option Addr} {as : List Addr}, Reps cells p t as →
      (∀ a ∈ as, cells' a = cells a) → Reps cells' p t as := by
  intro t
  induction t with
  | nil => exact fun h _ => h
  | node left key right ihl ihr =>
      rintro p as ⟨a, ls, rs, rfl, rfl, hkey, hl, hr⟩ hsame
      have ha : cells' a = cells a := hsame a List.mem_cons_self
      refine ⟨a, ls, rs, rfl, rfl, ha ▸ hkey, ?_, ?_⟩
      · rw [ha]
        exact ihl hl fun b hb => hsame b (List.mem_cons_of_mem _ (List.mem_append_left _ hb))
      · rw [ha]
        exact ihr hr fun b hb => hsame b (List.mem_cons_of_mem _ (List.mem_append_right _ hb))

/-! ## Allocation -/

/-- A node that has been handed out, or is in a block that was left behind. -/
def Pool.Used (p : Pool) (a : Addr) : Prop :=
  a.1 < p.mallocs ∧ (p.gnodes = some a.1 → a.2 < p.ginodes)

/-- The node `a` is handed out. -/
structure Got (p p' : Pool) (a : Addr) : Prop where
  fresh : ¬ p.Used a
  used : p'.Used a
  keeps : ∀ b, p.Used b → p'.Used b
  cells : p'.cells = p.cells

theorem btrnodeGetPass_done {p : Pool} (h : p.ginodes ≠ blockNodes - 1) :
    ∃ a p', btrnodeGetPass p = some (.done (a, p')) ∧ Got p p' a := by
  cases hg : p.gnodes with
  | none =>
      refine ⟨(p.mallocs, p.ginodes), p.malloc.advance h, ?_, ?_, ?_, ?_, ?_⟩
      · rw [btrnodeGetPass, hg]
        exact dif_neg h
      · exact fun hused => Nat.lt_irrefl _ hused.1
      · exact ⟨Nat.lt_succ_self _, fun _ => Nat.lt_succ_self _⟩
      · rintro b ⟨hlt, -⟩
        refine ⟨Nat.lt_succ_of_lt hlt, fun hb => ?_⟩
        exact absurd (Option.some.inj hb) (Nat.ne_of_gt hlt)
      · rfl
  | some block =>
      refine ⟨(block, p.ginodes), p.advance h, ?_, ?_, ?_, ?_, ?_⟩
      · rw [btrnodeGetPass, hg]
        exact dif_neg h
      · exact fun hused => Nat.lt_irrefl _ (hused.2 hg)
      · exact ⟨p.known block hg, fun _ => Nat.lt_succ_self _⟩
      · exact fun b hb => ⟨hb.1, fun hcur => Nat.lt_succ_of_lt (hb.2 hcur)⟩
      · rfl

/-- A block that is used up is left behind. -/
theorem btrnodeGetPass_next {p : Pool} (h : p.ginodes = blockNodes - 1) :
    ∃ p', btrnodeGetPass p = some (.next p') ∧ p'.ginodes = 0
      ∧ (∀ b, p.Used b → p'.Used b) ∧ p'.cells = p.cells := by
  cases hg : p.gnodes with
  | none =>
      refine ⟨p.malloc.leave, ?_, rfl, ?_, rfl⟩
      · rw [btrnodeGetPass, hg]
        exact dif_pos h
      · exact fun b hb => ⟨Nat.lt_succ_of_lt hb.1, fun hcur => nomatch hcur⟩
  | some block =>
      refine ⟨p.leave, ?_, rfl, ?_, rfl⟩
      · rw [btrnodeGetPass, hg]
        exact dif_pos h
      · exact fun b hb => ⟨hb.1, fun hcur => nomatch hcur⟩

/-- **`btrnode_get`** returns after at most two passes, with a node that was not in use. -/
theorem btrnodeGet_spec (p : Pool) : ∃ a p', Got p p' a ∧
    ∀ fuel, 1 < fuel → loop btrnodeGetPass fuel p = some (a, p') := by
  by_cases h : p.ginodes = blockNodes - 1
  · obtain ⟨p₁, hnext, hzero, hkeeps, hcells⟩ := btrnodeGetPass_next h
    have hfresh : p₁.ginodes ≠ blockNodes - 1 := by
      rw [hzero]
      decide
    obtain ⟨a, p', hdone, hgot⟩ := btrnodeGetPass_done hfresh
    refine ⟨a, p', ⟨fun hused => hgot.fresh (hkeeps a hused), hgot.used,
      fun b hb => hgot.keeps b (hkeeps b hb), hgot.cells.trans hcells⟩, ?_⟩
    intro fuel hfuel
    rw [loop_next (by omega) hnext, loop_done (by omega) hdone]
  · obtain ⟨a, p', hdone, hgot⟩ := btrnodeGetPass_done h
    exact ⟨a, p', hgot, fun fuel hfuel => loop_done (by omega) hdone⟩

/-- The tree is built in nodes that were not in use, and the rest of memory is unchanged. -/
structure Built (p p' : Pool) (tr : Option Addr) (t : BTree) (as : List Addr) : Prop where
  reps : Reps p'.cells tr t as
  nodup : as.Nodup
  fresh : ∀ a ∈ as, ¬ p.Used a
  used : ∀ a ∈ as, p'.Used a
  keeps : ∀ a, p.Used a → p'.Used a
  frame : ∀ a, a ∉ as → p'.cells a = p.cells a

theorem built_nil (p : Pool) : Built p p none .nil [] :=
  ⟨⟨rfl, rfl⟩, List.nodup_nil, fun _ h => absurd h List.not_mem_nil,
    fun _ h => absurd h List.not_mem_nil, fun _ h => h, fun _ _ => rfl⟩

theorem cells_modify_same (p : Pool) (a : Addr) (f : BtrNode → BtrNode) :
    (p.modify a f).cells a = f (p.cells a) := Function.update_self _ _ _

theorem cells_modify_ne (p : Pool) {a b : Addr} (h : b ≠ a) (f : BtrNode → BtrNode) :
    (p.modify a f).cells b = p.cells b := Function.update_of_ne h _ _

/-- A node with the two subtrees that are built after it. -/
theorem Got.built {p p₁ p₂ p₃ : Pool} {node : Addr} {key : Int} {lp rp : Option Addr}
    {left right : BTree} {ls rs : List Addr} (hgot : Got p p₁ node)
    (hl : Built (p₁.modify node fun n => { n with key := key }) p₂ lp left ls)
    (hr : Built (p₂.modify node fun n => { n with left := lp }) p₃ rp right rs) :
    Built p (p₃.modify node fun n => { n with right := rp }) (some node)
      (.node left key right) (node :: (ls ++ rs)) := by
  have hnode : node ∉ ls := fun h => hl.fresh node h hgot.used
  have hnode₂ : p₂.Used node := hl.keeps node hgot.used
  have hnode' : node ∉ rs := fun h => hr.fresh node h hnode₂
  have hapart : ∀ a ∈ ls, a ∉ rs := fun a ha h => hr.fresh a h (hl.used a ha)
  -- the node itself: its key, then its left and its right pointer
  have hcell : (p₃.modify node fun n => { n with right := rp }).cells node
      = { key := key, left := lp, right := rp } := by
    rw [cells_modify_same, hr.frame node hnode', cells_modify_same, hl.frame node hnode,
      cells_modify_same]
  refine ⟨⟨node, ls, rs, rfl, rfl, ?_, ?_, ?_⟩, ?_, ?_, ?_, ?_, ?_⟩
  · rw [hcell]
  · rw [hcell]
    refine hl.reps.frame fun a ha => ?_
    have hne : a ≠ node := fun h => hnode (h ▸ ha)
    rw [cells_modify_ne _ hne, hr.frame a (hapart a ha), cells_modify_ne _ hne]
  · rw [hcell]
    refine hr.reps.frame fun a ha => ?_
    have hne : a ≠ node := fun h => hnode' (h ▸ ha)
    exact cells_modify_ne _ hne _
  · refine List.nodup_cons.mpr ⟨?_, ?_⟩
    · rw [List.mem_append, not_or]
      exact ⟨hnode, hnode'⟩
    · refine List.nodup_append.mpr ⟨hl.nodup, hr.nodup, ?_⟩
      rintro a ha b hb rfl
      exact hapart a ha hb
  · intro a ha hused
    rcases List.mem_cons.mp ha with rfl | ha
    · exact hgot.fresh hused
    · rcases List.mem_append.mp ha with ha | ha
      · exact hl.fresh a ha (hgot.keeps a hused)
      · exact hr.fresh a ha (hl.keeps a (hgot.keeps a hused))
  · intro a ha
    rcases List.mem_cons.mp ha with rfl | ha
    · exact hr.keeps _ hnode₂
    · rcases List.mem_append.mp ha with ha | ha
      · exact hr.keeps a (hl.used a ha)
      · exact hr.used a ha
  · exact fun a hused => hr.keeps a (hl.keeps a (hgot.keeps a hused))
  · intro a ha
    rw [List.mem_cons, List.mem_append, not_or, not_or] at ha
    obtain ⟨hne, hls, hrs⟩ := ha
    rw [cells_modify_ne _ hne, hr.frame a hrs, cells_modify_ne _ hne, hl.frame a hls,
      cells_modify_ne _ hne, hgot.cells]

/-! ## The round trip -/

/-- The root stands behind the keys of the left subtree. -/
theorem find_inorder {left right : BTree} {key : Int} (rest : List Int)
    (hkey : key ∉ left.inorder) :
    find ((BTree.node left key right).inorder ++ rest) (BTree.node left key right).size key
      = some left.size := by
  rw [find, ← BTree.length_inorder, if_pos (by rw [List.length_append]; omega), List.take_left,
    BTree.inorder, List.idxOf_append_of_notMem hkey, List.idxOf_cons_self, BTree.length_inorder,
    Nat.add_zero]

/-- **A subtree** from its traversals, by induction on it; the arrays may go on behind them. -/
theorem construct_child : ∀ (t : BTree), t.inorder.Nodup → t.size < 2 ^ 64 →
    ∀ (fuel : Nat) (p : Pool) (tr : Option Addr) (pre inn : List Int), t.size + 1 < fuel →
    ∃ tr' p' as,
      child t.size p (construct fuel p tr (t.preorder ++ pre) (t.inorder ++ inn) t.size)
        = some (0, tr', p') ∧ Built p p' tr' t as := by
  intro t
  induction t with
  | nil => exact fun _ _ fuel p tr pre inn _ => ⟨none, p, [], rfl, built_nil p⟩
  | node left key right ihl ihr =>
      intro hnodup hsize fuel p tr pre inn hfuel
      have hpos : 0 < (BTree.node left key right).size := by
        rw [BTree.size]
        omega
      have hsum : (BTree.node left key right).size = left.size + 1 + right.size := rfl
      obtain ⟨f, rfl⟩ : ∃ f, fuel = f + 1 := ⟨fuel - 1, by omega⟩
      rw [BTree.inorder, List.nodup_append, List.nodup_cons] at hnodup
      obtain ⟨hnl, ⟨-, hnr⟩, happart⟩ := hnodup
      have hkey : key ∉ left.inorder := fun h => happart key h key List.mem_cons_self rfl
      obtain ⟨node, p₁, hgot, hget⟩ := btrnodeGet_spec p
      obtain ⟨lp, p₂, ls, hleft, hl⟩ := ihl hnl (by omega) f
        (p₁.modify node fun n => { n with key := key }) (((p₁.modify node fun n =>
          { n with key := key }).cells node).left) (right.preorder ++ pre)
        (key :: (right.inorder ++ inn)) (by omega)
      obtain ⟨rp, p₃, rs, hright, hr⟩ := ihr hnr (by omega) f
        (p₂.modify node fun n => { n with left := lp }) (((p₂.modify node fun n =>
          { n with left := lp }).cells node).right) pre inn (by omega)
      refine ⟨some node, _, _, ?_, hgot.built hl hr⟩
      have hinn : (BTree.node left key right).inorder ++ inn
          = left.inorder ++ (key :: (right.inorder ++ inn)) := by
        rw [BTree.inorder, List.append_assoc, List.cons_append]
      have hdropPre : (left.preorder ++ (right.preorder ++ pre)).drop left.size
          = right.preorder ++ pre := by
        rw [← BTree.length_preorder, List.drop_left]
      have hdropInn : (left.inorder ++ (key :: (right.inorder ++ inn))).drop (1 + left.size)
          = right.inorder ++ inn := by
        rw [Nat.add_comm, ← List.drop_drop, ← BTree.length_inorder, List.drop_left]
        rfl
      have hrightn : (wrap64 (((BTree.node left key right).size : Int) - left.size - 1)).toNat
          = right.size := by
        rw [wrap64_eq (by omega) (by omega)]
        omega
      have hfind := @find_inorder left right key inn hkey
      rw [hinn] at hfind ⊢
      rw [child, if_pos hpos, construct, if_neg (by omega)]
      simp only [BTree.preorder, List.cons_append, List.head?_cons, List.tail_cons,
        List.append_assoc, Option.bind_eq_bind, Option.bind_some, hfind, hget (f + 1) (by omega),
        hleft, hrightn, hdropPre, hdropInn, hright, ne_eq, not_true_eq_false, if_false]

/-- **Traversals determine the tree.**  From the traversals of a tree with distinct keys the
    call returns `0` and leaves the tree in `tr`, in nodes of its own. -/
theorem construct_round_trip {t : BTree} (hne : t ≠ .nil) (hnodup : t.inorder.Nodup)
    (hsize : t.size < 2 ^ 64) (p : Pool) (tr : Option Addr) :
    ∃ enough, ∀ fuel, enough < fuel → ∃ tr' p' as,
      constructBtrPreIn fuel p tr (some t.preorder) (some t.inorder) t.size = some (0, tr', p')
      ∧ Built p p' tr' t as := by
  refine ⟨t.size + 1, ?_⟩
  intro fuel hfuel
  have hpos : 0 < t.size := by
    cases t with
    | nil => exact absurd rfl hne
    | node left key right =>
        rw [BTree.size]
        omega
  obtain ⟨tr', p', as, hrun, hbuilt⟩ := construct_child t hnodup hsize fuel p tr [] [] hfuel
  rw [child, if_pos hpos, List.append_nil, List.append_nil] at hrun
  exact ⟨tr', p', as, hrun, hbuilt⟩

/-- The pool before the first call. -/
def emptyPool : Pool where
  gnodes := none
  ginodes := 0
  mallocs := 0
  cells := fun _ => ⟨0, none, none⟩
  inBlock := by decide
  known := fun _ h => nomatch h

theorem construct_round_trip_three :
    ∃ enough, ∀ fuel, enough < fuel → ∃ tr' p' as,
      constructBtrPreIn fuel emptyPool none (some [2, 1, 3]) (some [1, 2, 3]) 3
        = some (0, tr', p')
      ∧ Built emptyPool p' tr' (.node (.node .nil 1 .nil) 2 (.node .nil 3 .nil)) as :=
  construct_round_trip (t := .node (.node .nil 1 .nil) 2 (.node .nil 3 .nil))
    (fun h => nomatch h) (by decide) (by decide) emptyPool none

/-! ## Arrays that no tree has -/

/-- The first `len` cells of both arrays are the traversals of a tree. -/
def Consistent (pre inn : List Int) (len : Nat) : Prop :=
  len ≤ inn.length ∧ ∃ t : BTree, t.preorder = pre.take len ∧ t.inorder = inn.take len

theorem consistent_zero (pre inn : List Int) : Consistent pre inn 0 :=
  ⟨Nat.zero_le _, .nil, rfl, rfl⟩

theorem find_eq_some {inn : List Int} {len leftn : Nat} {root : Int}
    (h : find inn len root = some leftn) :
    len ≤ inn.length ∧ leftn = (inn.take len).idxOf root := by
  rw [find] at h
  split at h
  · next hle => exact ⟨hle, (Option.some.inj h).symm⟩
  · exact absurd h.symm (Option.some_ne_none _)

/-- A root that is found cuts the range in two. -/
theorem take_find {inn : List Int} {len leftn : Nat} {root : Int}
    (h : find inn len root = some leftn) (hlt : leftn < len) :
    inn.take len = inn.take leftn ++ root :: (inn.drop (1 + leftn)).take (len - leftn - 1) := by
  obtain ⟨hle, rfl⟩ := find_eq_some h
  generalize hk : (inn.take len).idxOf root = k at *
  have hin : k < inn.length := by omega
  have hroot : inn.get ⟨k, hin⟩ = root := by
    have hmem : (inn.take len).idxOf root < (inn.take len).length := by
      rw [hk, List.length_take]
      omega
    have hget := List.getElem_idxOf hmem
    rw [List.getElem_take] at hget
    simpa only [hk, List.get_eq_getElem] using hget
  obtain ⟨j, rfl⟩ : ∃ j, len = k + (j + 1) := ⟨len - k - 1, by omega⟩
  have hj : k + (j + 1) - k - 1 = j := by omega
  rw [hj, List.take_add, List.drop_eq_getElem_cons hin, List.take_succ_cons,
    Nat.add_comm 1 k, ← hroot]
  rfl

/-- A node over two consistent parts. -/
theorem Consistent.node {pre inn : List Int} {len leftn : Nat} {root : Int}
    (hroot : pre.head? = some root) (hfind : find inn len root = some leftn) (hlt : leftn < len)
    (hl : Consistent pre.tail inn leftn)
    (hr : Consistent (pre.tail.drop leftn) (inn.drop (1 + leftn)) (len - leftn - 1)) :
    Consistent pre inn len := by
  obtain ⟨-, l, hlpre, hlin⟩ := hl
  obtain ⟨-, r, hrpre, hrin⟩ := hr
  refine ⟨(find_eq_some hfind).1, .node l root r, ?_, ?_⟩
  · obtain ⟨rest, rfl⟩ := List.head?_eq_some_iff.mp hroot
    obtain ⟨k, rfl⟩ : ∃ k, len = leftn + k + 1 := ⟨len - leftn - 1, by omega⟩
    have hk : leftn + k + 1 - leftn - 1 = k := by omega
    rw [hk] at hrpre
    rw [BTree.preorder, hlpre, hrpre, List.tail_cons, List.take_succ_cons, List.take_add]
  · rw [BTree.inorder, hlin, hrin, take_find hfind hlt]

/-- What a call has done when it returns: both recursive calls have returned, and the code is
    0 if theirs are. -/
theorem construct_inversion {fuel : Nat} {p p' : Pool} {tr tr' : Option Addr} {pre inn : List Int}
    {len : Nat} {r : Int} (hpos : 0 < len)
    (h : construct (fuel + 1) p tr pre inn len = some (r, tr', p')) :
    ∃ root leftn p₁ a r₁ left p₂, pre.head? = some root ∧ find inn len root = some leftn
      ∧ child leftn p₁ (construct fuel p₁ a pre.tail inn leftn) = some (r₁, left, p₂)
      ∧ (r₁ = 0 → ∃ p₃ b r₂ right p₄,
          child (wrap64 (len - leftn - 1)).toNat p₃ (construct fuel p₃ b (pre.tail.drop leftn)
            (inn.drop (1 + leftn)) (wrap64 (len - leftn - 1)).toNat) = some (r₂, right, p₄)
          ∧ (r₂ = 0 → r = 0)) := by
  rw [construct, if_neg (by omega)] at h
  simp only [Option.bind_eq_bind, Option.bind_eq_some_iff] at h
  obtain ⟨root, hroot, leftn, hfind, ⟨node, p₁⟩, -, ⟨r₁, left, p₂⟩, hleft, h⟩ := h
  refine ⟨root, leftn, _, _, r₁, left, p₂, hroot, hfind, hleft, ?_⟩
  intro hr₁
  rw [if_neg (by simpa using hr₁), Option.bind_eq_some_iff] at h
  obtain ⟨⟨r₂, right, p₄⟩, hright, h⟩ := h
  refine ⟨_, _, r₂, right, p₄, hright, ?_⟩
  intro hr₂
  rw [if_neg (by simpa using hr₂), Option.some.injEq, Prod.mk.injEq] at h
  exact h.1.symm

/-- **What returns is consistent**, and the code is `0`: a root that is not found sends the
    call to the right on with a length that no array has. -/
theorem construct_returns : ∀ (fuel : Nat) (p p' : Pool) (tr tr' : Option Addr)
    (pre inn : List Int) (len : Nat) (r : Int), 4 * inn.length < 2 ^ 64 → 0 < len →
    construct fuel p tr pre inn len = some (r, tr', p') → r = 0 ∧ Consistent pre inn len := by
  intro fuel
  induction fuel with
  | zero => exact fun _ _ _ _ _ _ _ _ _ _ h => absurd h.symm (Option.some_ne_none _)
  | succ fuel ih =>
      intro p p' tr tr' pre inn len r hsize hpos h
      -- the induction hypothesis for a child, also one without keys
      have hchild : ∀ (n : Nat) (p p' : Pool) (tr tr' : Option Addr) (pre inn : List Int) (r : Int),
          4 * inn.length < 2 ^ 64 →
          child n p (construct fuel p tr pre inn n) = some (r, tr', p') →
          r = 0 ∧ Consistent pre inn n := by
        intro n p p' tr tr' pre inn r hsize h
        rw [child] at h
        split at h
        · next hn => exact ih p p' tr tr' pre inn n r hsize hn h
        · next hn =>
            obtain rfl : n = 0 := by omega
            rw [Option.some.injEq, Prod.mk.injEq] at h
            exact ⟨h.1.symm, consistent_zero pre inn⟩
      obtain ⟨root, leftn, p₁, a, r₁, left, p₂, hroot, hfind, hleft, hrest⟩ :=
        construct_inversion hpos h
      obtain ⟨hr₁, hl⟩ := hchild _ _ _ _ _ _ _ _ hsize hleft
      obtain ⟨p₃, b, r₂, right, p₄, hright, hcode⟩ := hrest hr₁
      have hdrop : (inn.drop (1 + leftn)).length ≤ inn.length := by
        rw [List.length_drop]
        omega
      obtain ⟨hr₂, hr⟩ := hchild _ _ _ _ _ _ _ _ (by omega) hright
      refine ⟨hcode hr₂, ?_⟩
      obtain ⟨hle, hidx⟩ := find_eq_some hfind
      have hbound : leftn ≤ len := by
        rw [hidx]
        exact Nat.le_trans List.idxOf_le_length (List.length_take_le _ _)
      rcases Nat.lt_or_eq_of_le hbound with hlt | heq
      · have hrightn : (wrap64 ((len : Int) - leftn - 1)).toNat = len - leftn - 1 := by
          rw [wrap64_eq (by omega) (by omega)]
          omega
        rw [hrightn] at hr
        exact Consistent.node hroot hfind hlt hl hr
      · have hrightn : (wrap64 ((len : Int) - leftn - 1)).toNat = 2 ^ 64 - 1 := by
          rw [heq, Int.sub_self]
          rfl
        rw [hrightn] at hr
        have hlong := hr.1
        omega

/-- What the function is to do with arrays that no tree has: return a code other than 0. -/
def Rejects (p : Pool) (tr : Option Addr) (pre inn : List Int) : Prop :=
  ∃ enough, ∀ fuel, enough < fuel → ∃ r tr' p',
    constructBtrPreIn fuel p tr (some pre) (some inn) inn.length = some (r, tr', p') ∧ r ≠ 0

/-- **Nothing is rejected.**  On arrays that no tree has the call does not return: it leaves
    the arrays. -/
theorem construct_never_rejects {pre inn : List Int} (hlen : pre.length = inn.length)
    (hpos : 0 < inn.length) (hsize : 4 * inn.length < 2 ^ 64)
    (hno : ¬ ∃ t : BTree, t.preorder = pre ∧ t.inorder = inn) (p : Pool) (tr : Option Addr) :
    (∀ fuel, constructBtrPreIn fuel p tr (some pre) (some inn) inn.length = none)
    ∧ ¬ Rejects p tr pre inn := by
  have hnone : ∀ fuel, constructBtrPreIn fuel p tr (some pre) (some inn) inn.length = none := by
    intro fuel
    by_contra hsome
    obtain ⟨⟨r, tr', p'⟩, hrun⟩ := Option.ne_none_iff_exists'.mp hsome
    obtain ⟨-, -, t, hpre, hin⟩ :=
      construct_returns fuel p p' tr tr' pre inn inn.length r hsize hpos hrun
    rw [List.take_length] at hin
    rw [← hlen, List.take_length] at hpre
    exact hno ⟨t, hpre, hin⟩
  refine ⟨hnone, ?_⟩
  rintro ⟨enough, hrun⟩
  obtain ⟨r, tr', p', h, -⟩ := hrun (enough + 1) (Nat.lt_succ_self _)
  rw [hnone] at h
  exact absurd h.symm (Option.some_ne_none _)

/-- Two keys that differ are no tree. -/
theorem not_tree_one_two :
    ¬ ∃ t : BTree, t.preorder = [1] ∧ t.inorder = [2] := by
  rintro ⟨t, hpre, hin⟩
  cases t with
  | nil => exact List.cons_ne_nil _ _ hpre.symm
  | node left key right =>
      rw [BTree.preorder, List.cons.injEq] at hpre
      rw [BTree.inorder, List.append_eq_singleton_iff] at hin
      obtain ⟨rfl, -⟩ := hpre
      rcases hin with ⟨-, h⟩ | ⟨-, h⟩
      · exact absurd (List.cons.inj h).1 (by decide)
      · exact List.cons_ne_nil _ _ h

theorem construct_never_rejects_pair :
    (∀ fuel, constructBtrPreIn fuel emptyPool none (some [1]) (some [2]) 1 = none)
    ∧ ¬ Rejects emptyPool none [1] [2] :=
  @construct_never_rejects [1] [2] rfl (by decide) (by decide) not_tree_one_two emptyPool none

/-- One key each, and not the same. -/
theorem construct_misses_mismatch :
    (¬ ∃ t : BTree, t.preorder = [1] ∧ t.inorder = [2]) ∧ ¬ Rejects emptyPool none [1] [2] := by
  refine ⟨not_tree_one_two, ?_⟩
  rintro ⟨enough, hrun⟩
  obtain ⟨r, tr', p', h, hr⟩ := hrun (enough + 1) (Nat.lt_succ_self _)
  exact hr (construct_returns _ _ _ _ _ _ _ _ _ (by decide) (by decide) h).1

end Construct
