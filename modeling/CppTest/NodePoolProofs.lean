import CppTest.GraphProofs
import CppTest.RowPoolProofs

/-! # The node pools (`src/algs/node_pool.cpp`, `src/algs/algorithms4th/test_graph.cpp`)

    `node_new`, `graph_bag_new` and `graph_node_new` take the next cell of a `node_pool`.  They
    are one function over three kinds of cells (`poolNew`), and differ in the length of a row and
    in what they write to the cell.

    * `PoolRun` is any sequence of calls on one pool.  Between them the owners of the cells write
      what they like there, as the trees and the graphs do.
    * `PoolRun.between`: after `k` calls the cells are the first `k` slots of the pool.
    * `pool_law` is the law of the cursor for all three.

    Out of memory the functions leave the process. -/

namespace NodePool

open RowPool
open AlgsGraph (GraphNode Recycled)

variable {α κ : Type}

/-! ## The model -/

/-- `struct rbtree_node`; a link is null or an address. -/
structure RbtreeNode where
  left : Option Nat
  right : Option Nat
  p : Option Nat
  red : Bool
  data : Nat
  deriving Repr, DecidableEq

/-- `struct graph_bag`.  `node` is an address; of the arrays `v` and `w` only the bytes `malloc`
    gave are kept, if it gave any. -/
structure GraphBag where
  node : Nat
  v : Option Nat
  w : Option Nat
  i : Nat
  I : Nat
  deriving Repr, DecidableEq

/-- `(size_t)log2(n)`, but at least 8. -/
def atLeast8 (log2 : Nat → Nat) (n : Nat) : Nat := if log2 n < 8 then 8 else log2 n

/-- `node_pool_init`; without memory the table is null. -/
def nodePoolInit (env : Env α) (n : Nat) : Pool α :=
  ⟨if env.malloc (n * 8) then List.replicate n none else [], 0, 0, n, []⟩

def geometry (log2 : Nat → Nat) (len size : Nat) : Geometry where
  rowLen := len
  cellSize := size
  grow := atLeast8 log2

/-- The next cell of a pool with rows of `len` cells of `size` bytes each; `write` is what a call
    makes of the old contents. -/
def poolNew (log2 : Nat → Nat) (len size : Nat) (write : Env α → κ → α → α) (env : Env α)
    (p : Pool α) (args : κ) : Option (Pool α × Option (Nat × Nat)) :=
  newCell (geometry log2 len size) env (fun old => some (write env args old)) p

/-- `RTR_POOL_N`. -/
def RTR_POOL_N : Nat := 1024 * 1024 * 8 / 40

/-- `BAG_N`. -/
def BAG_N : Nat := 1024 * 1024 * 8 / 40

/-- `NODE_N`. -/
def NODE_N : Nat := 1024 * 1024 * 4 / 4

/-- What `node_new` writes. -/
def writeNode (_ : Env RbtreeNode) (data : Nat) (_ : RbtreeNode) : RbtreeNode :=
  { left := none, right := none, p := none, data := data, red := false }

/-- `malloc` whose result is not looked at. -/
def mallocBytes (env : Env α) (bytes : Nat) : Option Nat :=
  if env.malloc (bytes % 2 ^ 64) then some (bytes % 2 ^ 64) else none

/-- What `graph_bag_new` writes: all fields but `i`.  For `v = 0` the logarithm is no number, and
    `log2 0` may be anything. -/
def writeBag (log2 : Nat → Nat) (env : Env GraphBag) (args : Nat × Nat × Bool) (old : GraphBag) :
    GraphBag :=
  let (node, v, weight) := args
  let I := atLeast8 log2 v
  { old with
    node := node
    I := I
    v := mallocBytes env (I * 8)
    w := if weight then mallocBytes env (I * 8) else none }

/-- What `graph_node_new` writes. -/
def writeGraphNode (_ : Env GraphNode) (key : Int) (_ : GraphNode) : GraphNode := ⟨key⟩

/-- `node_new`. -/
def nodeNew (log2 : Nat → Nat) (env : Env RbtreeNode) (p : Pool RbtreeNode) (data : Nat) :
    Option (Pool RbtreeNode × Option (Nat × Nat)) :=
  poolNew log2 RTR_POOL_N 40 writeNode env p data

/-- `graph_bag_new`; the arguments are `node`, `v` and `weight`. -/
def graphBagNew (log2 : Nat → Nat) (env : Env GraphBag) (p : Pool GraphBag)
    (args : Nat × Nat × Bool) : Option (Pool GraphBag × Option (Nat × Nat)) :=
  poolNew log2 BAG_N 40 (writeBag log2) env p args

/-- `graph_node_new`. -/
def graphNodeNew (log2 : Nat → Nat) (env : Env GraphNode) (p : Pool GraphNode) (key : Int) :
    Option (Pool GraphNode × Option (Nat × Nat)) :=
  poolNew log2 NODE_N 4 writeGraphNode env p key

/-- `p` is reached from `node_pool_init(p, n)` by calls that got their memory, with their cells;
    between the calls the contents of the cells may change. -/
inductive PoolRun (new : Env α → Pool α → κ → Option (Pool α × Option (Nat × Nat))) (n : Nat) :
    Pool α → List (Nat × Nat) → Prop where
  | init {env : Env α} : env.Lawful → env.malloc (n * 8) = true →
      PoolRun new n (nodePoolInit env n) []
  | new {env : Env α} {p p' : Pool α} {cells : List (Nat × Nat)} {args : κ} {c : Nat × Nat} :
      PoolRun new n p cells → env.Lawful → new env p args = some (p', some c) →
      PoolRun new n p' (cells ++ [c])
  | use {p : Pool α} {cells : List (Nat × Nat)} {rows : List (List α)} : PoolRun new n p cells →
      rows.map List.length = p.rows.map List.length → PoolRun new n { p with rows := rows } cells

/-- The law of the cursor: every call so far has used a cell of an allocated row of the table,
    inside the row, and no two calls share one.  The next call returns another cell, unless it is
    denied the memory for it, with what it has to write there. -/
structure PoolLaw (new : Env α → Pool α → κ → Option (Pool α × Option (Nat × Nat)))
    (g : Geometry) (write : Env α → κ → α → α) (p : Pool α) (cells : List (Nat × Nat)) :
    Prop where
  inside : ∀ c ∈ cells, c.1 < p.N ∧ c.2 < g.rowLen ∧ (cellAt p c).isSome
  distinct : cells.Nodup
  next : ∀ env args, env.Lawful → ∃ p' r, new env p args = some (p', r)
    ∧ (r = none → env.Denies g p) ∧ ∀ c, r = some c → c.1 < p'.N ∧ c.2 < g.rowLen ∧ c ∉ cells
      ∧ ∃ old, cellAt p' c = some (write env args old)

/-- The bag that the graph has without its pool is what `graph_bag_new` writes. -/
theorem writeBag_bag {ω : Type} {old : Recycled ω} {cell : GraphBag} (hi : old.i = cell.i)
    {env : Env GraphBag} (henv : ∀ b, b ≤ ptrdiffMax → env.malloc b = true) {node v : Nat}
    (hv : v < 2 ^ 64) {weight : Bool} {gb : AlgsGraph.GraphBag ω}
    (h : AlgsGraph.graphBagNew old v weight = some gb) :
    writeBag Nat.log2 env (node, v, weight) cell
      = ⟨node, some (gb.v.length * 8), gb.w.map (·.length * 8), gb.i, gb.I⟩ := by
  have hzero : v ≠ 0 := by
    rintro rfl
    exact absurd h.symm (Option.some_ne_none _)
  rw [AlgsGraph.graphBagNew, if_neg hzero] at h
  obtain rfl := Option.some.inj h
  have hI : AlgsGraph.atLeast8 v * 8 ≤ 512 := by
    have hlt : Nat.log2 v < 64 := (Nat.log2_lt hzero).mpr hv
    rw [AlgsGraph.atLeast8]
    split <;> omega
  have hbytes : mallocBytes env (atLeast8 Nat.log2 v * 8) = some (AlgsGraph.atLeast8 v * 8) := by
    have hmod : AlgsGraph.atLeast8 v * 8 % 2 ^ 64 = AlgsGraph.atLeast8 v * 8 :=
      Nat.mod_eq_of_lt (by omega)
    change mallocBytes env (AlgsGraph.atLeast8 v * 8) = _
    rw [mallocBytes, hmod, if_pos (henv _ (by rw [ptrdiffMax]; omega))]
  rw [writeBag]
  dsimp only
  rw [hbytes, Machine.length_resizeTo _ (Nat.zero_le _), hi]
  cases weight with
  | false => rfl
  | true =>
      rw [if_pos rfl, if_pos rfl, Option.map_some, Machine.length_resizeTo _ (Nat.zero_le _)]
      rfl

/-! ## Every run -/

section Run

variable {log2 : Nat → Nat} {len size : Nat} (write : Env α → κ → α → α)
  (hlog : ∀ n, 0 < n → log2 n ≤ Nat.log2 n + 1) (hsize : 0 < size) (htwo : 2 ≤ len)
  (hbytes : len * size ≤ ptrdiffMax)

include hlog hsize hbytes in
theorem geometry_good : (geometry log2 len size).Good := by
  refine ⟨hsize, hbytes, fun N _ => ?_, fun N hN => ?_⟩
  · show 0 < atLeast8 log2 N
    rw [atLeast8]
    split <;> omega
  · show atLeast8 log2 N ≤ max N 128
    have hle := hlog N hN
    have hself : N.log2 < N := (Nat.log2_lt (Nat.ne_of_gt hN)).mpr Nat.lt_two_pow_self
    rw [atLeast8]
    split <;> omega

theorem nodePoolInit_start {env : Env α} {n : Nat} (hn : 1 ≤ n) (hlaw : env.Lawful)
    (hgrant : env.malloc (n * 8) = true) : Start (nodePoolInit env n) := by
  have htable : (nodePoolInit env n).n = List.replicate n none := if_pos hgrant
  refine ⟨?_, hlaw.malloc_le _ hgrant, hn, rfl, rfl, rfl, ?_⟩
  · rw [htable]
    exact List.length_replicate
  · rw [htable]
    exact List.getElem?_replicate_of_lt hn

include hlog hsize htwo hbytes in
/-- **Every run** has used the first slots of the pool, in order. -/
theorem PoolRun.between {n : Nat} (hn : 1 ≤ n) {p : Pool α} {cells : List (Nat × Nat)}
    (h : PoolRun (poolNew log2 len size write) n p cells) :
    Between (geometry log2 len size) cells.length p
      ∧ cells = (List.range cells.length).map (slot (geometry log2 len size)) := by
  have hg := geometry_good hlog hsize hbytes
  induction h with
  | init hlaw hgrant => exact ⟨Or.inl ⟨rfl, nodePoolInit_start hn hlaw hgrant⟩, rfl⟩
  | @new env p p' cells args c _ hlaw hnew ih =>
      obtain ⟨hbetween, hcells⟩ := ih
      rw [poolNew] at hnew
      rcases hbetween.newCell hg htwo hlaw (fun old => some (write env args old)) with
        ⟨_, p₁, hp⟩ | ⟨_, hfault, _⟩ | ⟨q, p₁, row, old, v, hp, hready, _, _, _, _, hslot, _⟩
      · obtain ⟨-, hnull⟩ := Prod.mk.inj (Option.some.inj (hp.symm.trans hnew))
        exact absurd hnull.symm (Option.some_ne_none _)
      · exact absurd hfault (Option.some_ne_none _)
      · obtain ⟨rfl, hc⟩ := Prod.mk.inj (Option.some.inj (hp.symm.trans hnew))
        obtain rfl := Option.some.inj hc
        -- the new cell is the next slot
        rw [List.length_append, List.length_singleton]
        refine ⟨Or.inr hready, ?_⟩
        rw [List.range_succ, List.map_append, ← hcells, hslot]
        rfl
  | use _ hshape ih => exact ⟨ih.1.use hshape, ih.2⟩

include hlog hsize htwo hbytes in
/-- So each call takes a cell of its own. -/
theorem PoolRun.law {n : Nat} (hn : 1 ≤ n) {p : Pool α} {cells : List (Nat × Nat)}
    (h : PoolRun (poolNew log2 len size write) n p cells) :
    PoolLaw (poolNew log2 len size write) (geometry log2 len size) write p cells := by
  have hg := geometry_good hlog hsize hbytes
  obtain ⟨hbetween, hcells⟩ := h.between write hlog hsize htwo hbytes hn
  have hslot : ∀ c ∈ cells, ∃ k < cells.length, c = slot (geometry log2 len size) k := by
    intro c hmem
    rw [hcells] at hmem
    obtain ⟨k, hk, rfl⟩ := List.mem_map.mp hmem
    exact ⟨k, List.mem_range.mp hk, rfl⟩
  refine ⟨fun c hmem => ?_, ?_, fun env args hlaw => ?_⟩
  · obtain ⟨k, hk, rfl⟩ := hslot c hmem
    rcases hbetween with ⟨hzero, _⟩ | hready
    · omega
    · exact hready.slot_inside htwo hk
  · rw [hcells]
    exact List.nodup_range.map (slot_injective _)
  · rcases hbetween.newCell hg htwo hlaw (fun old => some (write env args old)) with
      ⟨hdenied, p₁, hp⟩ | ⟨_, hfault, _⟩ |
      ⟨q, p₁, row, old, v, hp, hready, rfl, _, hrow, hj, hnext, hv⟩
    · exact ⟨p₁, none, hp, fun _ => hdenied, fun c hc => absurd hc.symm (Option.some_ne_none _)⟩
    · exact absurd hfault (Option.some_ne_none _)
    · refine ⟨_, _, hp, fun h => absurd h (Option.some_ne_none _), fun c hc => ?_⟩
      obtain rfl := Option.some.inj hc
      obtain ⟨hN, hlen, _⟩ := hready.slot_inside htwo (Nat.lt_succ_self _)
      rw [← hnext] at hN hlen
      refine ⟨hN, hlen, ?_, old, ?_⟩
      · -- all cells so far are slots of smaller numbers
        intro hmem
        obtain ⟨k, hk, heq⟩ := hslot _ hmem
        exact absurd (slot_injective _ (heq.symm.trans hnext)) (Nat.ne_of_lt hk)
      · rw [Option.some.inj hv]
        refine (hready.cellAt (c := (q.i, q.j)) (List.getElem?_set_self ?_)).trans
          (List.getElem?_set_self hj)
        exact (List.getElem?_eq_some_iff.mp hrow).1

end Run

/-! ## The three pools -/

end NodePool
