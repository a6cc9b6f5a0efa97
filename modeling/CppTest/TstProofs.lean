import CppTest.TrieProofs

/-! # The ternary search tree (`src/algs/trie_st.cpp`)

    A node has a `char`, a value and three links: to the keys with a smaller `char`
    here, to those that go on behind it, and to those with a greater one.

    * `tst_node_get` takes nodes from a block of `N`, and assigns the next one to its
      parameter.  The parameter is a COPY of the caller's pointer.
    * `tst_do_put` passes a null link to it and then follows the link, which is still
      null.  So a put links no node: `tstDoPut_eq` says that it returns only where the
      nodes of the key are in the tree already.
    * From a null root no put returns (`tst_symbol_table`). -/

namespace Tst

open Machine
open Trie (strlen refuses)

/-! ## The model -/

/-- `struct tst_node`; a link is null or an address. -/
structure TstNode where
  c : Int8
  val : Int
  next : Fin 3 → Option Nat

/-- The nodes in memory, with the globals `gnodes` and `ginodes`.  Addresses count
    nodes, so `gnodes[i]` is at `gnodes + i`. -/
structure Heap where
  mem : Nat → Option TstNode
  gnodes : Option Nat
  ginodes : Nat

/-- The program as it starts. -/
def emptyHeap : Heap := ⟨fun _ => none, none, 0⟩

/-- `1024 * 1024 / sizeof(tst_node)`: one `char`, one `int` and three pointers are 32
    bytes. -/
def N : Nat := 1024 * 1024 / 32

/-- A node of a block from `calloc`: all bytes zero. -/
def zeroNode : TstNode := ⟨0, 0, fun _ => none⟩

/-- `if(!gnodes) gnodes = calloc(N, ..)`; `none` when there is no memory: the source
    leaves the process then. -/
def tstBlock (calloc : Heap → Option Nat) (s : Heap) : Option Heap :=
  match s.gnodes with
  | some _ => some s
  | none => do
      let base ← calloc s
      some { s with
        gnodes := some base
        mem := fun a => if base ≤ a ∧ a < base + N then some zeroNode else s.mem a }

/-- One pass of the loop of `tst_node_get`; a full block is given up. -/
def tstNodeGetPass (calloc : Heap → Option Nat) (s : Heap) : Option (Pass Heap (Heap × Nat)) := do
  let s ← tstBlock calloc s
  if s.ginodes = N - 1 then some (.next { s with gnodes := none, ginodes := 0 })
  else do
    let base ← s.gnodes
    some (.done ({ s with ginodes := s.ginodes + 1 }, base + s.ginodes))

/-- `tst_node_get`: the memory afterwards and the returned value.  The node found goes
    to the parameter, which the caller never sees again. -/
def tstNodeGet (calloc : Heap → Option Nat) (s : Heap) (_node : Option Nat) :
    Option (Heap × Int) := do
  let (s, _node) ← loop (tstNodeGetPass calloc) 2 s
  some (s, 0)

/-- `tr->c = c`. -/
def setC (s : Heap) (tr : Option Nat) (c : Int8) : Option Heap := do
  let a ← tr
  let n ← s.mem a
  some { s with mem := Function.update s.mem a (some { n with c := c }) }

/-- `if(!tr){ .. }` of `tst_do_put`; a returned value other than 0 is a failure. -/
def tstMake (calloc : Heap → Option Nat) (s : Heap) (tr : Option Nat) (c : Int8) :
    Option (Heap × Int) :=
  match tr with
  | some _ => some (s, 0)
  | none => do
      let (s, r) ← tstNodeGet calloc s tr
      if r ≠ 0 then some (s, -1)
      else do
        let s ← setC s tr c
        some (s, 0)

/-- The three comparisons that both recursions make: the link to follow and what is
    left of the key, or nothing at the end of the key. -/
def tstBranch (n : TstNode) (key : List Int8) (len : Nat) : Option (Fin 3 × List Int8 × Nat) :=
  if key.headD 0 < n.c then some (0, key, len)
  else if n.c < key.headD 0 then some (2, key, len)
  else if 1 < len then some (1, key.tail, len - 1)
  else none

/-- What a call leaves in the link `tr->next[i]`, which it had by reference. -/
def setNext (s : Heap) (a : Nat) (i : Fin 3) (l : Option Nat) : Option Heap := do
  let n ← s.mem a
  some { s with
    mem := Function.update s.mem a (some { n with next := Function.update n.next i l }) }

/-- `tr->val = val`. -/
def setVal (s : Heap) (a : Nat) (val : Int) : Option Heap := do
  let n ← s.mem a
  some { s with mem := Function.update s.mem a (some { n with val := val }) }

/-- `tst_do_put`: the memory and the link `tr` afterwards, and the returned value. -/
def tstDoPut (calloc : Heap → Option Nat) :
    Nat → Heap → Option Nat → List Int8 → Nat → Int → Option (Heap × Option Nat × Int)
  | 0, _, _, _, _, _ => none
  | fuel + 1, s, tr, key, len, val => do
      let (s, r) ← tstMake calloc s tr (key.headD 0)
      if r ≠ 0 then some (s, tr, -1)
      else do
        let a ← tr
        let n ← s.mem a
        match tstBranch n key len with
        | some (i, key, len) => do
            let (s, l, r) ← tstDoPut calloc fuel s (n.next i) key len val
            let s ← setNext s a i l
            some (s, tr, r)
        | none => do
            let s ← setVal s a val
            some (s, tr, 0)

/-- `tst_put`; a null `key` is `none`. -/
def tstPut (calloc : Heap → Option Nat) (fuel : Nat) (s : Heap) (tr : Option Nat)
    (key : Option (List Int8)) (val : Int) : Option (Heap × Option Nat × Int) :=
  if refuses key then some (s, tr, -1)
  else tstDoPut calloc fuel s tr (key.getD []) (strlen (key.getD [])) val

/-- `tst_do_get`: the returned value and `val` afterwards. -/
def tstDoGet (s : Heap) : Nat → Option Nat → List Int8 → Nat → Int → Option (Int × Int)
  | 0, _, _, _, _ => none
  | _ + 1, none, _, _, val => some (-1, val)
  | fuel + 1, some a, key, len, val => do
      let n ← s.mem a
      match tstBranch n key len with
      | some (i, key, len) => tstDoGet s fuel (n.next i) key len val
      | none => some (0, n.val)

/-- `tst_get`. -/
def tstGet (fuel : Nat) (s : Heap) (tr : Option Nat) (key : Option (List Int8)) (val : Int) :
    Option (Int × Int) :=
  if refuses key then some (-1, val)
  else tstDoGet s fuel tr (key.getD []) (strlen (key.getD [])) val

/-- A sequence of `tst_put` calls: the memory and the root afterwards, and what the
    calls returned. -/
def tstPuts (calloc : Heap → Option Nat) (fuel : Nat) :
    Heap → Option Nat → List (List Int8 × Int) → Option (Heap × Option Nat × List Int)
  | s, tr, [] => some (s, tr, [])
  | s, tr, (key, val) :: rest => do
      let (s, tr, r) ← tstPut calloc fuel s tr (some key) val
      let (s, tr, rs) ← tstPuts calloc fuel s tr rest
      some (s, tr, r :: rs)

/-! ## A put links no node -/

/-- The node where a key ends, if it is in the tree. -/
def tstFind (s : Heap) : Nat → Option Nat → List Int8 → Nat → Option Nat
  | 0, _, _, _ => none
  | fuel + 1, tr, key, len => do
      let a ← tr
      let n ← s.mem a
      match tstBranch n key len with
      | some (i, key, len) => tstFind s fuel (n.next i) key len
      | none => some a

/-- The pointer is as null after `tst_node_get` as before. -/
theorem tstMake_null (calloc : Heap → Option Nat) (s : Heap) (c : Int8) :
    tstMake calloc s none c = none := by
  simp only [tstMake, tstNodeGet, Option.bind_eq_bind]
  cases loop (tstNodeGetPass calloc) 2 s with
  | none => rfl
  | some r => rfl

/-- A value can be written only where a node is, and no link changes. -/
theorem setVal_links {s s' : Heap} {a : Nat} {val : Int} (h : setVal s a val = some s') {b : Nat}
    {n : TstNode} (hb : s.mem b = some n) : ∃ n', s'.mem b = some n' ∧ n'.next = n.next := by
  simp only [setVal, Option.bind_eq_bind, Option.bind_eq_some_iff] at h
  obtain ⟨m, hm, hs⟩ := h
  obtain rfl := Option.some.inj hs
  by_cases hba : b = a
  · subst hba
    obtain rfl := Option.some.inj (hb.symm.trans hm)
    exact ⟨_, Function.update_self .., rfl⟩
  · exact ⟨n, (Function.update_of_ne hba ..).trans hb, rfl⟩

/-- Storing the link that is there changes nothing. -/
theorem setNext_same {s : Heap} {a : Nat} {n : TstNode} (hn : s.mem a = some n) (i : Fin 3) :
    setNext s a i (n.next i) = some s := by
  simp only [setNext, hn, Option.bind_eq_bind, Option.bind_some, Function.update_eq_self]
  rw [← hn, Function.update_eq_self]

/-- **A put returns only where the key's nodes are in the tree**: it writes the value
    into the last of them, and leaves every link as it was. -/
theorem tstDoPut_eq (calloc : Heap → Option Nat) (val : Int) :
    ∀ (fuel : Nat) (s : Heap) (tr : Option Nat) (key : List Int8) (len : Nat),
      tstDoPut calloc fuel s tr key len val = (do
        let a ← tstFind s fuel tr key len
        let s ← setVal s a val
        some (s, tr, 0)) := by
  intro fuel
  induction fuel with
  | zero => exact fun s tr key len => rfl
  | succ fuel ih =>
      intro s tr key len
      cases tr with
      | none =>
          simp only [tstDoPut, tstMake_null, tstFind, Option.bind_eq_bind, Option.bind_none]
      | some a =>
          simp only [tstDoPut, tstMake, tstFind, Option.bind_eq_bind, Option.bind_some, ne_eq,
            not_true_eq_false, if_false]
          cases hn : s.mem a with
          | none => rfl
          | some n =>
              simp only [Option.bind_some]
              cases tstBranch n key len with
              | none => rfl
              | some x =>
                  obtain ⟨i, key', len'⟩ := x
                  simp only [ih, Option.bind_eq_bind]
                  cases hfind : tstFind s fuel (n.next i) key' len' with
                  | none => rfl
                  | some b =>
                      simp only [Option.bind_some]
                      cases hset : setVal s b val with
                      | none => rfl
                      | some s' =>
                          -- the link goes back as it came
                          obtain ⟨n', hn', hlinks⟩ := setVal_links hset hn
                          simp only [Option.bind_some]
                          rw [← hlinks, setNext_same hn']
                          rfl

/-- On a null link no put returns. -/
theorem tstDoPut_null (calloc : Heap → Option Nat) (fuel : Nat) (s : Heap) (key : List Int8)
    (len : Nat) (val : Int) : tstDoPut calloc fuel s none key len val = none := by
  rw [tstDoPut_eq]
  cases fuel <;> rfl

/-! ## The symbol table -/

/-- A non-empty C string. -/
structure Key (key : List Int8) : Prop where
  nonempty : key ≠ []
  bytes : ∀ c ∈ key, c ≠ 0

theorem Key.accepted {key : List Int8} (h : Key key) : refuses (some key) = false := by
  obtain ⟨c, rest, rfl⟩ := List.exists_cons_of_ne_nil h.nonempty
  simpa [refuses] using h.bytes c (List.mem_cons_self ..)

/-- What the puts should do: they all return 0, and a lookup of a key that was put
    returns 0 and the value of its last put. -/
def SymbolTable (calloc : Heap → Option Nat) (s : Heap) (tr : Option Nat)
    (puts : List (List Int8 × Int)) : Prop :=
  ∃ fuel s' tr', tstPuts calloc fuel s tr puts = some (s', tr', puts.map fun _ => 0) ∧
    ∀ before key v after, puts = before ++ (key, v) :: after → (∀ p ∈ after, p.1 ≠ key) →
      ∀ val, tstGet fuel s' tr' (some key) val = some (0, v)

/-- **NO PUT SUCCEEDS.**  From a null root, whatever memory holds and whatever `calloc`
    answers, the puts keep the symbol-table law exactly if there are none: the first one
    dereferences the null root. -/
theorem tst_symbol_table (calloc : Heap → Option Nat) (s : Heap) (puts : List (List Int8 × Int))
    (hkeys : ∀ p ∈ puts, Key p.1) : SymbolTable calloc s none puts ↔ puts = [] := by
  constructor
  · rintro ⟨fuel, s', tr', hrun, -⟩
    cases puts with
    | nil => rfl
    | cons p puts =>
        obtain ⟨key, v⟩ := p
        have hkey : Key key := hkeys (key, v) (List.mem_cons_self ..)
        simp only [tstPuts, tstPut, hkey.accepted, Bool.false_eq_true, if_false, tstDoPut_null,
          Option.bind_eq_bind, Option.bind_none] at hrun
        exact nomatch hrun
  · rintro rfl
    refine ⟨0, s, none, rfl, ?_⟩
    intro before key v after hsplit
    exact absurd hsplit (by simp)

/-- Without a call the law holds, with a put of `"by"` it does not. -/
theorem tst_symbol_table_by : SymbolTable (fun _ => some 0) emptyHeap none [] ∧
    ¬ SymbolTable (fun _ => some 0) emptyHeap none [([98, 121], 5)] := by
  refine ⟨(tst_symbol_table _ emptyHeap [] (by simp)).mpr rfl, ?_⟩
  rw [tst_symbol_table _ emptyHeap [([98, 121], 5)]]
  · simp
  · intro p hp
    rw [List.mem_singleton.mp hp]
    exact ⟨by simp, by simp⟩

/-- `tst_put` of `"she"` on a null root, with memory for every node, never returns. -/
theorem tst_put_faults : (∀ fuel, tstPut (fun _ => some 0) fuel emptyHeap none
      (some [115, 104, 101]) 1 = none) ∧
    ¬ SymbolTable (fun _ => some 0) emptyHeap none [([115, 104, 101], 1)] := by
  have hput : ∀ fuel, tstPut (fun _ => some 0) fuel emptyHeap none (some [115, 104, 101]) 1
      = none := fun fuel => tstDoPut_null ..
  refine ⟨hput, ?_⟩
  rintro ⟨fuel, s', tr', hrun, -⟩
  simp only [tstPuts, hput, Option.bind_eq_bind, Option.bind_none] at hrun
  exact nomatch hrun

end Tst
