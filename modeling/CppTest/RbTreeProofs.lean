import CppTest.MachineProofs
import CppTest.LinkedTreeProofs

/-! # The red-black tree (`src/algs/intro_to_algs3th/rb_tree.cpp`)

    The model of the source: a tree of cells linked by child and parent pointers,
    changed in place.  `tr.node_cmp` and `tr.node_data_free` are the `Hooks`; the
    calls of the latter are recorded.  The address `tr.node_new` returns is an
    argument of `rbtreeInsert`; a call that finds an equal key does not use it.

    A null or dangling pointer faults (`none`), and so does an exhausted fuel.  The
    two rotations of the source are mirror images of one another except for the
    link from above, which both redirect in the same order; they are one function
    of a `Side`. -/

namespace RbTree

open Machine LinkedTree

variable {δ : Type}

/-- What a `rbtree_node` holds besides its links. -/
structure NodeVal (δ : Type) where
  red : Bool
  data : δ
  deriving Repr, DecidableEq

/-- The function pointers of `rb_tree` that insertion and search use;
    `nodeDataFree` says whether that pointer is set. -/
structure Hooks (δ : Type) where
  nodeCmp : δ → δ → Int
  nodeDataFree : Bool

/-- An `rb_tree` with its memory, and the data passed to `node_data_free` so far. -/
structure Rb (δ : Type) where
  root : Option Nat
  mem : Mem (NodeVal δ)
  freed : List δ

/-- A tree without nodes. -/
def emptyTree : Rb δ := { root := none, mem := fun _ => none, freed := [] }

/-- `a->red = c`. -/
def setRed (m : Mem (NodeVal δ)) (a : Nat) (c : Bool) : Option (Mem (NodeVal δ)) :=
  modify m a fun n => { n with val := { n.val with red := c } }

/-! ## Rotations and colours -/

/-- The link from the parent `p` of `x` (or from `tr.root`) is redirected to `y`. -/
def rbtreeRelink (root : Option Nat) (m : Mem (NodeVal δ)) (p : Option Nat) (x y : Nat) :
    Option (Option Nat × Mem (NodeVal δ)) :=
  match p with
  | none => some (some y, m)
  | some p => do
      let c ← m p
      let m ← modify m p fun n =>
        n.setChild (if c.left = some x then .left else .right) (some y)
      some (root, m)

/-- `if(b) b->p = x`. -/
def setParent (m : Mem (NodeVal δ)) (b : Option Nat) (x : Nat) : Option (Mem (NodeVal δ)) :=
  match b with
  | none => some m
  | some b => modify m b fun n => { n with p := some x }

/-- The last steps of a rotation: `x` goes to side `s` of `y`, `y` takes the colour
    of `x`, and `x` becomes red. -/
def rbtreeSink (s : Side) (m : Mem (NodeVal δ)) (x y : Nat) : Option (Mem (NodeVal δ)) := do
  let m ← modify m y fun n => n.setChild s (some x)
  let m ← modify m x fun n => { n with p := some y }
  let cx ← m x
  let m ← setRed m y cx.val.red
  setRed m x true

/-- A rotation that lifts `y`, the child of `x` away from side `s`, and lets `x`
    sink to side `s`. -/
def rbtreeRotate (s : Side) (tr : Rb δ) (x : Option Nat) : Option (Rb δ × Option Nat) := do
  match x with
  | none => some (tr, none)
  | some x =>
      let cx ← tr.mem x
      match cx.child s.opp with
      | none => some (tr, some x)
      | some y =>
          let cy ← tr.mem y
          let m ← modify tr.mem x fun n => n.setChild s.opp (cy.child s)
          let m ← setParent m (cy.child s) x
          let cx ← m x
          let m ← modify m y fun n => { n with p := cx.p }
          let (root, m) ← rbtreeRelink tr.root m cx.p x y
          let m ← rbtreeSink s m x y
          some ({ tr with root := root, mem := m }, some y)

/-- `rbtree_left_rotate`. -/
def rbtreeLeftRotate (tr : Rb δ) (x : Option Nat) : Option (Rb δ × Option Nat) :=
  rbtreeRotate .left tr x

/-- `rbtree_right_rotate`. -/
def rbtreeRightRotate (tr : Rb δ) (x : Option Nat) : Option (Rb δ × Option Nat) :=
  rbtreeRotate .right tr x

/-- `rbtree_flipcolor`: the node becomes red unless it is the root. -/
def rbtreeFlipcolor (m : Mem (NodeVal δ)) (a : Nat) : Option (Mem (NodeVal δ)) := do
  let c ← m a
  let m ← setRed m a c.p.isSome
  let r ← c.right
  let m ← setRed m r false
  let l ← c.left
  setRed m l false

/-- `rbtree_is_red`; a null link is black. -/
def rbtreeIsRed (m : Mem (NodeVal δ)) : Option Nat → Option Bool
  | none => some false
  | some a => do
      let c ← m a
      some c.val.red

/-- `p->red && p->p && p->p->left == p`. -/
def redLeftChild (m : Mem (NodeVal δ)) (a : Nat) : Option Bool := do
  let c ← m a
  if c.val.red then
    match c.p with
    | none => some false
    | some q =>
        let cq ← m q
        some (cq.left == some a)
  else some false

/-! ## Insertion -/

/-- How the search for an insert position ends: at a node with an equal key, or
    below the node `y`. -/
inductive Descent where
  | found (x : Nat)
  | leaf (y : Option Nat)
  deriving Repr, DecidableEq

/-- One pass of the search loop of `rbtree_insert`; the state is `(x, y)`. -/
def rbtreeDescendPass (H : Hooks δ) (m : Mem (NodeVal δ)) (data : δ)
    (xy : Option Nat × Option Nat) :
    Option (Pass (Option Nat × Option Nat) Descent) := do
  match xy.1 with
  | none => some (.done (.leaf xy.2))
  | some x =>
      let c ← m x
      let r := H.nodeCmp data c.val.data
      if r = 0 then some (.done (.found x))
      else if r < 0 then some (.next (c.left, some x))
      else some (.next (c.right, some x))

/-- One pass of the loop that restores the colours; the state is the tree and
    `p`. -/
def rbtreeFixupPass (st : Rb δ × Option Nat) : Option (Pass (Rb δ × Option Nat) (Rb δ)) := do
  match st.2 with
  | none => some (.done st.1)
  | some p =>
      let c ← st.1.mem p
      let redL ← rbtreeIsRed st.1.mem c.left
      let redR ← rbtreeIsRed st.1.mem c.right
      let redLC ← redLeftChild st.1.mem p
      -- (1) new node is on right of a 3-node; (2) transmit red to parent
      if redL && redR then
        let m ← rbtreeFlipcolor st.1.mem p
        let c ← m p
        some (.next ({ st.1 with mem := m }, c.p))
      -- (3) new node is on left of a 3-node, change to (1)
      else if redL && redLC then
        let st ← rbtreeRightRotate st.1 c.p
        some (.next st)
      -- (4) new node is on middle of a 3-node, change to (3)
      else if redR && redLC then
        let st ← rbtreeLeftRotate st.1 (some p)
        some (.next st)
      -- new node is on right of a 2-node
      else if redR then
        let st ← rbtreeLeftRotate st.1 (some p)
        some (.next st)
      else some (.done st.1)

/-- `rbtree_insert`: the tree afterwards and the returned node.  `new` is the node
    that `tr.node_new` returns, with null links and the data. -/
def rbtreeInsert (H : Hooks δ) (fuel : Nat) (tr : Rb δ) (new : Nat) (data : δ) :
    Option (Rb δ × Nat) := do
  match tr.root with
  | none =>
      let m := Function.update tr.mem new (some ⟨none, none, none, ⟨false, data⟩⟩)
      some ({ tr with root := some new, mem := m }, new)
  | some _ =>
      match ← loop (rbtreeDescendPass H tr.mem data) fuel (tr.root, none) with
      | .found x =>
          let c ← tr.mem x
          let freed := if H.nodeDataFree then tr.freed ++ [c.val.data] else tr.freed
          let m ← modify tr.mem x fun n => { n with val := { n.val with data := data } }
          some ({ tr with mem := m, freed := freed }, x)
      | .leaf y =>
          let m := Function.update tr.mem new (some ⟨none, none, none, ⟨true, data⟩⟩)
          let y ← y
          let cy ← m y
          let m ← modify m y fun n =>
            n.setChild (if H.nodeCmp data cy.val.data < 0 then .left else .right) (some new)
          let m ← modify m new fun n => { n with p := some y }
          let tr' ← loop rbtreeFixupPass fuel ({ tr with mem := m }, some y)
          some (tr', new)

/-- A sequence of `rbtree_insert` calls: the address `node_new` would return and
    the data, call by call. -/
def insertAll (H : Hooks δ) (fuel : Nat) : Rb δ → List (Nat × δ) → Option (Rb δ)
  | tr, [] => some tr
  | tr, (new, data) :: calls => do
      let (tr, _) ← rbtreeInsert H fuel tr new data
      insertAll H fuel tr calls

/-! ## Search and walk -/

/-- One pass of the loop of `rbtree_search`. -/
def rbtreeSearchPass (H : Hooks δ) (m : Mem (NodeVal δ)) (data : δ) (x : Option Nat) :
    Option (Pass (Option Nat) (Option Nat)) := do
  match x with
  | none => some (.done none)
  | some x =>
      let c ← m x
      let r := H.nodeCmp data c.val.data
      if r = 0 then some (.done (some x))
      else if r < 0 then some (.next c.left)
      else some (.next c.right)

/-- `rbtree_search`: the node found, or null. -/
def rbtreeSearch (H : Hooks δ) (fuel : Nat) (tr : Rb δ) (data : δ) : Option (Option Nat) :=
  loop (rbtreeSearchPass H tr.mem data) fuel tr.root

/-- The recursion of `rbtree_inorder_walk` that fills `nodes` and counts in `len`;
    the fuel bounds the depth. -/
def rbtreeInorderWalkFrom : Nat → Mem (NodeVal δ) → Option Nat → (Nat → Option δ) → Nat →
    Option ((Nat → Option δ) × Nat)
  | 0, _, _, _, _ => none
  | fuel + 1, m, root, nodes, len => do
      match root with
      | none => some (nodes, len)
      | some a =>
          let c ← m a
          let (nodes, len) ← rbtreeInorderWalkFrom fuel m c.left nodes len
          rbtreeInorderWalkFrom fuel m c.right (Function.update nodes len (some c.val.data))
            (len + 1)

/-- `rbtree_inorder_walk(tr, nodes, len)`. -/
def rbtreeInorderWalk (fuel : Nat) (tr : Rb δ) (nodes : Nat → Option δ) :
    Option ((Nat → Option δ) × Nat) :=
  rbtreeInorderWalkFrom fuel tr.mem tr.root nodes 0

/-- The root after inserting seven keys in increasing order: 4, with the children 2
    and 6. -/
example : ((insertAll ⟨fun a b : Int => a - b, false⟩ 20 emptyTree
    [(1, 1), (2, 2), (3, 3), (4, 4), (5, 5), (6, 6), (7, 7)]).bind fun tr => tr.root.bind tr.mem)
    = some ⟨some 2, some 6, none, ⟨false, 4⟩⟩ := by decide

end RbTree
