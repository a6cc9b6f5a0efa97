import CppTest.MachineProofs
import Mathlib.Logic.Function.Basic
import Mathlib.Data.List.TakeWhile

/-! # The R-way trie (`src/algs/trie_st.cpp`)

    A node of the trie is a value and, once some longer key has passed through
    it, a table of `R` nodes indexed by `char`.  Nothing but a `trie_st_put` of
    EXACTLY a key reaches the node at the end of its path, so keys that share a
    path never disturb each other.

    * The model: `trieStPut`, `trieStGet` and their recursions.  `char` is
      signed, so a byte above 127 is a negative index and faults.
    * The meaning: `entry tr path` — the value at the end of a path, if the
      tables along it exist.
    * The results, over every sequence of puts: `trie_get_latest_put` for the keys that
      were put, and `trie_get_absent` for the others.  A table is as wide as the
      alphabet, so a put makes nodes beside its own path, and `trie_st_get` answers 0
      for every one of them. -/

namespace Trie

/-! ## The model -/

/-- `#define R 256`, the alphabet. -/
abbrev R : Nat := 256

/-- `struct trie_st_node`.  `next` is null, or the address of a table of `R` nodes
    that no other node shares. -/
inductive TrieStNode where
  | mk (val : Int) (next : Option (Fin R → TrieStNode))

/-- The member `val`. -/
def TrieStNode.val : TrieStNode → Int
  | .mk val _ => val

/-- The member `next`. -/
def TrieStNode.next : TrieStNode → Option (Fin R → TrieStNode)
  | .mk _ next => next

@[simp] theorem TrieStNode.next_mk (val : Int) (next : Option (Fin R → TrieStNode)) :
    (TrieStNode.mk val next).next = next := rfl

/-- The root a caller starts from, `trie_st_node tr{ 0 }`: all bytes zero. -/
def emptyRoot : TrieStNode := .mk 0 none

/-- `trie_st_node_alloc(R)`: `calloc` gives `R` nodes, all bytes zero. -/
def trieStNodeAlloc : Fin R → TrieStNode := fun _ => .mk 0 none

/-- The cell `next[c]` of a table.  `char` is signed: a negative one lies before
    the table. -/
def cellOf (c : Int8) : Option (Fin R) :=
  if 0 ≤ c.toInt then some (Fin.ofNat R c.toInt.toNat) else none

/-- `strlen`.  A C string is the list of its bytes, and the byte after them is NUL. -/
def strlen (key : List Int8) : Nat := (key.takeWhile (· ≠ 0)).length

/-- `trie_st_do_put`: the return value and the node after the call. -/
def trieStDoPut : TrieStNode → List Int8 → Nat → Int → Option (Int × TrieStNode)
  | tr, _, 0, val => some (0, .mk val tr.next)
  | tr, key, len + 1, val => do
      let next := tr.next.getD trieStNodeAlloc
      let k ← cellOf (key.headD 0)
      let (rc, child) ← trieStDoPut (next k) key.tail len val
      some (rc, .mk tr.val (some (Function.update next k child)))

/-- `trie_st_do_get`: the return value and `val` after the call. -/
def trieStDoGet : TrieStNode → List Int8 → Nat → Int → Option (Int × Int)
  | tr, _, 0, _ => some (0, tr.val)
  | tr, key, len + 1, val =>
      match tr.next with
      | none => some (-1, val)
      | some next => do
          let k ← cellOf (key.headD 0)
          trieStDoGet (next k) key.tail len val

/-- `!(key && key[0] != '\0')`, the test both entry points start with. -/
def refuses (key : Option (List Int8)) : Bool :=
  match key with
  | none => true
  | some key => key.headD 0 == 0

/-- `trie_st_put`; a null `key` is `none`. -/
def trieStPut (tr : TrieStNode) (key : Option (List Int8)) (val : Int) :
    Option (Int × TrieStNode) :=
  if refuses key then some (-1, tr)
  else trieStDoPut tr (key.getD []) (strlen (key.getD [])) val

/-- `trie_st_get`. -/
def trieStGet (tr : TrieStNode) (key : Option (List Int8)) (val : Int) : Option (Int × Int) :=
  if refuses key then some (-1, val)
  else trieStDoGet tr (key.getD []) (strlen (key.getD [])) val

/-- A sequence of `trie_st_put` calls, one after the other. -/
def trieStPuts : TrieStNode → List (List Int8 × Int) → Option TrieStNode
  | tr, [] => some tr
  | tr, (key, val) :: rest => do
      let (_, tr) ← trieStPut tr (some key) val
      trieStPuts tr rest

/-! ## Keys and paths -/

/-- A non-empty key whose bytes are in `1 .. 127`. -/
structure PlainKey (key : List Int8) : Prop where
  nonempty : key ≠ []
  bytes : ∀ c ∈ key, 1 ≤ c.toInt ∧ c.toInt ≤ 127

/-- The value at the end of a path of bytes, if the tables along it exist. -/
def entry : TrieStNode → List Int8 → Option Int
  | tr, [] => some tr.val
  | tr, c :: path => do
      let next ← tr.next
      let k ← cellOf c
      entry (next k) path

theorem cellOf_plain {c : Int8} (hc : 1 ≤ c.toInt) :
    cellOf c = some (Fin.ofNat R c.toInt.toNat) :=
  if_pos (by omega)

/-- Different bytes of `1 .. 127` have different cells. -/
theorem cellOf_injective {c d : Int8} {k : Fin R} (hc : cellOf c = some k)
    (hd : cellOf d = some k) : c = d := by
  have toInt_eq : ∀ {e : Int8}, cellOf e = some k → e.toInt = k.val := by
    intro e he
    rw [cellOf] at he
    split at he
    · have hlt : e.toInt < 128 := e.toInt_lt
      injection he with he
      rw [← he, Fin.val_ofNat, Nat.mod_eq_of_lt (by simp only [R]; omega)]
      omega
    · exact nomatch he
  exact Int8.toInt_inj.mp ((toInt_eq hc).trans (toInt_eq hd).symm)

theorem PlainKey.ne_zero {key : List Int8} (h : PlainKey key) {c : Int8} (hc : c ∈ key) :
    c ≠ 0 := by
  rintro rfl
  have := (h.bytes 0 hc).1
  simp at this

theorem PlainKey.strlen {key : List Int8} (h : PlainKey key) : strlen key = key.length := by
  rw [Trie.strlen]
  rw [List.takeWhile_eq_self_iff.mpr]
  intro c hc
  simpa using h.ne_zero hc

theorem PlainKey.accepted {key : List Int8} (h : PlainKey key) : refuses (some key) = false := by
  obtain ⟨c, rest, rfl⟩ := List.exists_cons_of_ne_nil h.nonempty
  simpa [refuses] using h.ne_zero (List.mem_cons_self ..)

/-! ## One put -/

/-- A lookup of a key whose tables all exist reads the end of its path. -/
theorem trieStDoGet_entry (path : List Int8) :
    ∀ (tr : TrieStNode) (val v : Int), entry tr path = some v →
      trieStDoGet tr path path.length val = some (0, v) := by
  induction path with
  | nil =>
      intro tr val v h
      simpa [entry, trieStDoGet] using h
  | cons c path ih =>
      intro tr val v h
      simp only [entry, Option.bind_eq_bind, Option.bind_eq_some_iff] at h
      obtain ⟨next, hnext, k, hk, hrest⟩ := h
      simp only [List.length_cons, trieStDoGet, hnext, List.headD_cons, hk, List.tail_cons,
        Option.bind_eq_bind, Option.bind_some]
      exact ih _ _ _ hrest

/-- What a put leaves: its value at the end of its own path, and every other
    entry. -/
structure Stored (tr tr' : TrieStNode) (path : List Int8) (v : Int) : Prop where
  self : entry tr' path = some v
  other : ∀ q w, q ≠ path → entry tr q = some w → entry tr' q = some w

/-- Storing below the cell `k` stores below the node. -/
theorem Stored.up {tr child : TrieStNode} {c : Int8} {k : Fin R} {path : List Int8} {v : Int}
    (hk : cellOf c = some k)
    (h : Stored (tr.next.getD trieStNodeAlloc k) child path v) :
    Stored tr (.mk tr.val (some (Function.update (tr.next.getD trieStNodeAlloc) k child)))
      (c :: path) v := by
  constructor
  · simpa [entry, hk] using h.self
  · rintro (_ | ⟨d, q⟩) w hne hq
    · exact hq
    · simp only [entry, Option.bind_eq_bind, Option.bind_eq_some_iff] at hq
      obtain ⟨next, hnext, j, hj, hrest⟩ := hq
      simp only [entry, TrieStNode.next_mk, hj, Option.bind_eq_bind, Option.bind_some]
      -- the other path leaves through the same cell, or through a cell left alone
      by_cases hjk : j = k
      · subst hjk
        rw [Function.update_self]
        refine h.other q w ?_ (by simpa [hnext] using hrest)
        rintro rfl
        exact hne (by rw [cellOf_injective hj hk])
      · rw [Function.update_of_ne hjk, hnext]
        exact hrest

theorem trieStDoPut_spec (path : List Int8) (v : Int) (hbytes : ∀ c ∈ path, 1 ≤ c.toInt) :
    ∀ tr : TrieStNode, ∃ tr', trieStDoPut tr path path.length v = some (0, tr')
      ∧ Stored tr tr' path v := by
  induction path with
  | nil =>
      intro tr
      refine ⟨.mk v tr.next, rfl, rfl, ?_⟩
      rintro (_ | ⟨d, q⟩) w hne hq
      · exact absurd rfl hne
      · exact hq
  | cons c path ih =>
      intro tr
      have hk := cellOf_plain (hbytes c (List.mem_cons_self ..))
      obtain ⟨child, hrun, hstored⟩ :=
        ih (fun d hd => hbytes d (List.mem_cons_of_mem _ hd))
          (tr.next.getD trieStNodeAlloc (Fin.ofNat R c.toInt.toNat))
      refine ⟨_, ?_, hstored.up hk⟩
      simp only [List.length_cons, trieStDoPut, List.headD_cons, hk, List.tail_cons, hrun,
        Option.bind_eq_bind, Option.bind_some]

/-- `trie_st_put` of a plain key returns 0 and stores its value. -/
theorem trieStPut_spec {key : List Int8} (h : PlainKey key) (tr : TrieStNode) (v : Int) :
    ∃ tr', trieStPut tr (some key) v = some (0, tr') ∧ Stored tr tr' key v := by
  obtain ⟨tr', hrun, hstored⟩ := trieStDoPut_spec key v (fun c hc => (h.bytes c hc).1) tr
  refine ⟨tr', ?_, hstored⟩
  simp only [trieStPut, h.accepted, Option.getD_some, h.strlen]
  exact hrun

/-- `trie_st_get` of a plain key whose path exists. -/
theorem trieStGet_entry {key : List Int8} (h : PlainKey key) {tr : TrieStNode} {v : Int}
    (he : entry tr key = some v) (val : Int) : trieStGet tr (some key) val = some (0, v) := by
  simp only [trieStGet, h.accepted, Option.getD_some, h.strlen]
  exact trieStDoGet_entry key tr val v he

/-! ## Every sequence of puts -/

/-- A run of puts ends, and keeps the entry of a key that none of them is for. -/
theorem trieStPuts_spec (puts : List (List Int8 × Int)) (hplain : ∀ p ∈ puts, PlainKey p.1) :
    ∀ tr : TrieStNode, ∃ tr', trieStPuts tr puts = some tr' ∧
      ∀ key v, (∀ p ∈ puts, p.1 ≠ key) → entry tr key = some v → entry tr' key = some v := by
  induction puts with
  | nil =>
      intro tr
      exact ⟨tr, rfl, fun _ _ _ h => h⟩
  | cons p puts ih =>
      intro tr
      obtain ⟨key, val⟩ := p
      obtain ⟨tr₁, hput, hstored⟩ := trieStPut_spec (hplain _ (List.mem_cons_self ..)) tr val
      obtain ⟨tr₂, hrun, hkept⟩ := ih (fun q hq => hplain q (List.mem_cons_of_mem _ hq)) tr₁
      refine ⟨tr₂, ?_, ?_⟩
      · simp only [trieStPuts, hput, Option.bind_eq_bind, Option.bind_some, hrun]
      · intro key' v hne he
        have hfirst : key' ≠ key := (hne _ (List.mem_cons_self ..)).symm
        exact hkept key' v (fun q hq => hne q (List.mem_cons_of_mem _ hq))
          (hstored.other key' v hfirst he)

theorem trieStPuts_append (before after : List (List Int8 × Int)) :
    ∀ tr : TrieStNode, trieStPuts tr (before ++ after)
      = (trieStPuts tr before).bind (fun tr => trieStPuts tr after) := by
  induction before with
  | nil => intro tr; rfl
  | cons p before ih =>
      intro tr
      obtain ⟨key, val⟩ := p
      simp only [List.cons_append, trieStPuts, Option.bind_eq_bind, Option.bind_assoc]
      congr 1
      funext x
      exact ih x.2

/-- **The symbol-table law.**  After any sequence of puts of plain keys on an empty
    root, a lookup of a key that was put returns 0 and the value of its LAST put:
    `before` and `after` are arbitrary, with no other put of `key` in `after`. -/
theorem trie_get_latest_put (before after : List (List Int8 × Int)) (key : List Int8) (v val : Int)
    (hplain : ∀ p ∈ before ++ (key, v) :: after, PlainKey p.1)
    (hlast : ∀ p ∈ after, p.1 ≠ key) :
    ∃ tr, trieStPuts emptyRoot (before ++ (key, v) :: after) = some tr
      ∧ trieStGet tr (some key) val = some (0, v) := by
  have hkey : PlainKey key := hplain (key, v) (by simp)
  obtain ⟨tr₁, hbefore, -⟩ :=
    trieStPuts_spec before (fun p hp => hplain p (by simp [hp])) emptyRoot
  obtain ⟨tr₂, hput, hstored⟩ := trieStPut_spec hkey tr₁ v
  obtain ⟨tr₃, hafter, hkept⟩ :=
    trieStPuts_spec after (fun p hp => hplain p (by simp [hp])) tr₂
  refine ⟨tr₃, ?_, trieStGet_entry hkey (hkept key v hlast hstored.self) val⟩
  rw [trieStPuts_append, hbefore]
  simp only [Option.bind_some, trieStPuts, hput, Option.bind_eq_bind, hafter]

/-- The bytes of `"she"`, `"shells"` and `"sea"`. -/
theorem trie_get_latest_put_she :
    ∃ tr, trieStPuts emptyRoot
        [([115, 104, 101], 1), ([115, 104, 101, 108, 108, 115], 4), ([115, 101, 97], 3)] = some tr
      ∧ trieStGet tr (some [115, 104, 101]) 0 = some (0, 1) := by
  refine trie_get_latest_put [] [([115, 104, 101, 108, 108, 115], 4), ([115, 101, 97], 3)]
    [115, 104, 101] 1 0 ?_ (by decide)
  intro p hp
  simp only [List.nil_append, List.mem_cons, List.not_mem_nil, or_false] at hp
  rcases hp with rfl | rfl | rfl <;> exact ⟨by simp, by simp⟩

/-! ## Absent keys -/

/-- A put of `key` makes the node at the end of `q`: all but the last byte of `q` is a
    proper beginning of `key`. -/
def Opens (key q : List Int8) : Prop := q.dropLast <+: key ∧ q.dropLast ≠ key

theorem not_opens_nil (q : List Int8) : ¬ Opens [] q :=
  fun h => h.2 (List.prefix_nil.mp h.1)

theorem opens_cons (c d : Int8) (path q : List Int8) :
    Opens (c :: path) (d :: q) ↔ q = [] ∨ (d = c ∧ Opens path q) := by
  rw [Opens]
  cases q with
  | nil => simp
  | cons e q =>
      rw [List.dropLast_cons_cons, List.cons_prefix_cons]
      constructor
      · rintro ⟨⟨rfl, hpre⟩, hne⟩
        exact Or.inr ⟨rfl, hpre, fun heq => hne (by rw [heq])⟩
      · rintro (hnil | ⟨rfl, hpre, hne⟩)
        · exact nomatch hnil
        · exact ⟨⟨rfl, hpre⟩, fun heq => hne (List.cons.inj heq).2⟩

theorem cellOf_nonneg {c : Int8} (hc : 0 ≤ c.toInt) : ∃ k, cellOf c = some k :=
  ⟨_, if_pos hc⟩

/-- The table below a node, an old one or one just made. -/
theorem entry_table (tr : TrieStNode) {d : Int8} {j : Fin R} (hj : cellOf d = some j)
    (q : List Int8) :
    (entry (tr.next.getD trieStNodeAlloc j) q).isSome ↔
      (entry tr (d :: q)).isSome ∨ q = [] := by
  simp only [entry, hj, Option.bind_eq_bind, Option.bind_some]
  cases tr.next with
  | none => cases q <;> simp [entry, trieStNodeAlloc]
  | some next => cases q <;> simp [entry]

/-- The nodes after a put: those from before, and those it opens. -/
theorem trieStDoPut_opens (path : List Int8) (v : Int) :
    ∀ (tr tr' : TrieStNode) (rc : Int), trieStDoPut tr path path.length v = some (rc, tr') →
      ∀ q : List Int8, (∀ c ∈ q, 0 ≤ c.toInt) →
        ((entry tr' q).isSome ↔ (entry tr q).isSome ∨ Opens path q) := by
  induction path with
  | nil =>
      intro tr tr' rc hrun q _
      simp only [List.length_nil, trieStDoPut, Option.some.injEq, Prod.mk.injEq] at hrun
      obtain ⟨-, rfl⟩ := hrun
      cases q with
      | nil => simp [entry]
      | cons d q => simp [entry, not_opens_nil]
  | cons c path ih =>
      intro tr tr' rc hrun q hq
      simp only [List.length_cons, trieStDoPut, List.headD_cons, List.tail_cons,
        Option.bind_eq_bind, Option.bind_eq_some_iff] at hrun
      obtain ⟨k, hk, ⟨rc', child⟩, hchild, hrun⟩ := hrun
      obtain ⟨-, rfl⟩ := Prod.mk.inj (Option.some.inj hrun)
      cases q with
      | nil => simp [entry]
      | cons d q =>
          obtain ⟨j, hj⟩ := cellOf_nonneg (hq d (List.mem_cons_self ..))
          have hafter : entry (.mk tr.val (some (Function.update (tr.next.getD trieStNodeAlloc) k
              child))) (d :: q)
              = entry (Function.update (tr.next.getD trieStNodeAlloc) k child j) q := by
            simp only [entry, TrieStNode.next_mk, hj, Option.bind_eq_bind, Option.bind_some]
          rw [hafter, opens_cons]
          -- through the cell of the put, or through a cell of a table it has made
          by_cases hjk : j = k
          · subst hjk
            have hdc : d = c := cellOf_injective hj hk
            rw [Function.update_self, ih _ _ _ hchild q fun e he => hq e (List.mem_cons_of_mem _ he),
              entry_table tr hj]
            simp only [hdc, true_and, or_assoc]
          · have hdc : d ≠ c := by
              rintro rfl
              exact hjk (Option.some.inj (hj.symm.trans hk))
            rw [Function.update_of_ne hjk, entry_table tr hj]
            simp only [hdc, false_and, or_false]

/-- A byte above 127 is an index before the table. -/
theorem trieStDoPut_faults (path : List Int8) (v : Int) :
    ∀ tr : TrieStNode, (∃ c ∈ path, c.toInt < 0) → trieStDoPut tr path path.length v = none := by
  induction path with
  | nil =>
      rintro tr ⟨c, hc, -⟩
      exact nomatch hc
  | cons c path ih =>
      intro tr hneg
      simp only [List.length_cons, trieStDoPut, List.headD_cons, List.tail_cons]
      by_cases hc : 0 ≤ c.toInt
      · have hrest : ∃ d ∈ path, d.toInt < 0 := by
          obtain ⟨d, hd, hlt⟩ := hneg
          rcases List.mem_cons.mp hd with rfl | hd
          · omega
          · exact ⟨d, hd, hlt⟩
        simp [cellOf, hc, ih _ hrest]
      · simp [cellOf, hc]

/-- A lookup that falls off the tables returns -1. -/
theorem trieStDoGet_absent (path : List Int8) :
    ∀ (tr : TrieStNode) (val : Int), (∀ c ∈ path, 0 ≤ c.toInt) → entry tr path = none →
      trieStDoGet tr path path.length val = some (-1, val) := by
  induction path with
  | nil =>
      intro tr val _ h
      exact nomatch h
  | cons c path ih =>
      intro tr val hpath h
      obtain ⟨k, hk⟩ := cellOf_nonneg (hpath c (List.mem_cons_self ..))
      simp only [List.length_cons, trieStDoGet, List.headD_cons, List.tail_cons]
      cases hnext : tr.next with
      | none => rfl
      | some next =>
          simp only [hk, Option.bind_eq_bind, Option.bind_some]
          refine ih _ _ (fun d hd => hpath d (List.mem_cons_of_mem _ hd)) ?_
          simpa only [entry, hnext, hk, Option.bind_eq_bind, Option.bind_some] using h

theorem strlen_cstring {key : List Int8} (h : ∀ c ∈ key, c ≠ 0) : strlen key = key.length := by
  rw [strlen]
  rw [List.takeWhile_eq_self_iff.mpr]
  intro c hc
  simpa using h c hc

/-- `trie_st_put` of any C string: refused if it is empty. -/
theorem trieStPut_cstring {key : List Int8} (h : ∀ c ∈ key, c ≠ 0) (tr : TrieStNode) (v : Int) :
    trieStPut tr (some key) v
      = if key = [] then some (-1, tr) else trieStDoPut tr key key.length v := by
  rw [trieStPut]
  cases key with
  | nil => simp [refuses]
  | cons c key =>
      have hc : c ≠ 0 := h c (List.mem_cons_self ..)
      simp [refuses, hc, strlen_cstring h]

/-- The nodes after a sequence of puts. -/
theorem trieStPuts_opens (puts : List (List Int8 × Int)) (hstr : ∀ p ∈ puts, ∀ c ∈ p.1, c ≠ 0) :
    ∀ tr tr' : TrieStNode, trieStPuts tr puts = some tr' →
      ∀ q : List Int8, (∀ c ∈ q, 0 ≤ c.toInt) →
        ((entry tr' q).isSome ↔ (entry tr q).isSome ∨ ∃ p ∈ puts, Opens p.1 q) := by
  induction puts with
  | nil =>
      intro tr tr' hrun q _
      obtain rfl := Option.some.inj hrun
      simp
  | cons p puts ih =>
      intro tr tr' hrun q hq
      obtain ⟨key, v⟩ := p
      simp only [trieStPuts, Option.bind_eq_bind, Option.bind_eq_some_iff] at hrun
      obtain ⟨⟨rc, tr₁⟩, hput, hrest⟩ := hrun
      rw [ih (fun p hp => hstr p (List.mem_cons_of_mem _ hp)) tr₁ tr' hrest q hq]
      have hfirst : (entry tr₁ q).isSome ↔ (entry tr q).isSome ∨ Opens key q := by
        rw [trieStPut_cstring (hstr (key, v) (List.mem_cons_self ..))] at hput
        split_ifs at hput with hnil
        · obtain ⟨-, rfl⟩ := Prod.mk.inj (Option.some.inj hput)
          obtain rfl : key = [] := hnil
          simp [not_opens_nil]
        · exact trieStDoPut_opens key v tr tr₁ rc hput q hq
      rw [hfirst, or_assoc]
      simp only [List.mem_cons, exists_eq_or_imp]

/-- A sequence of puts returns exactly if no key has a byte above 127. -/
theorem trieStPuts_isSome (puts : List (List Int8 × Int)) (hstr : ∀ p ∈ puts, ∀ c ∈ p.1, c ≠ 0) :
    ∀ tr : TrieStNode, (∃ tr', trieStPuts tr puts = some tr') ↔
      ∀ p ∈ puts, ∀ c ∈ p.1, 1 ≤ c.toInt := by
  induction puts with
  | nil => simp [trieStPuts]
  | cons p puts ih =>
      intro tr
      obtain ⟨key, v⟩ := p
      have hkey := hstr (key, v) (List.mem_cons_self ..)
      have ih' := ih fun p hp => hstr p (List.mem_cons_of_mem _ hp)
      rw [List.forall_mem_cons]
      by_cases hplain : ∀ c ∈ key, 1 ≤ c.toInt
      · obtain ⟨rc, tr₁, hput⟩ : ∃ rc tr₁, trieStPut tr (some key) v = some (rc, tr₁) := by
          rw [trieStPut_cstring hkey]
          split_ifs with hnil
          · exact ⟨-1, tr, rfl⟩
          · obtain ⟨tr₁, hrun, -⟩ := trieStDoPut_spec key v hplain tr
            exact ⟨0, tr₁, hrun⟩
        simp only [trieStPuts, hput, Option.bind_eq_bind, Option.bind_some]
        rw [ih' tr₁]
        exact ⟨fun h => ⟨hplain, h⟩, fun h => h.2⟩
      · -- a byte that is neither positive nor NUL is negative
        have hneg : ∃ c ∈ key, c.toInt < 0 := by
          push Not at hplain
          obtain ⟨c, hc, hlt⟩ := hplain
          refine ⟨c, hc, ?_⟩
          have hne : c.toInt ≠ 0 := fun h0 => hkey c hc (Int8.toInt_inj.mp h0)
          omega
        have hput : trieStPut tr (some key) v = none := by
          rw [trieStPut_cstring hkey, if_neg, trieStDoPut_faults key v tr hneg]
          rintro rfl
          obtain ⟨c, hc, -⟩ := hneg
          exact nomatch hc
        simp only [trieStPuts, hput, Option.bind_eq_bind, Option.bind_none]
        constructor
        · rintro ⟨tr', h⟩
          exact nomatch h
        · intro h
          exact absurd h.1 hplain

/-- **ABSENT KEYS.**  After any sequence of puts, a lookup returns -1 exactly if no key
    that was put goes on behind all but the last byte of the key looked up (and the keys
    have bytes in `1 .. 127`, so that every put returns).  A key that was never put is
    found all the same if another one does. -/
theorem trie_get_absent (puts : List (List Int8 × Int)) (key : List Int8) (val : Int)
    (hstr : ∀ p ∈ puts, ∀ c ∈ p.1, c ≠ 0) (hkey : PlainKey key) :
    (∃ tr w, trieStPuts emptyRoot puts = some tr ∧ trieStGet tr (some key) val = some (-1, w)) ↔
      (∀ p ∈ puts, ∀ c ∈ p.1, 1 ≤ c.toInt) ∧ ¬ ∃ p ∈ puts, Opens p.1 key := by
  have hbytes : ∀ c ∈ key, 0 ≤ c.toInt := fun c hc => by
    have := (hkey.bytes c hc).1
    omega
  have hempty : (entry emptyRoot key).isSome = false := by
    obtain ⟨c, rest, rfl⟩ := List.exists_cons_of_ne_nil hkey.nonempty
    rfl
  constructor
  · rintro ⟨tr, w, hrun, hget⟩
    refine ⟨(trieStPuts_isSome puts hstr emptyRoot).mp ⟨tr, hrun⟩, ?_⟩
    intro hopens
    obtain ⟨v, hv⟩ := Option.isSome_iff_exists.mp
      ((trieStPuts_opens puts hstr emptyRoot tr hrun key hbytes).mpr (Or.inr hopens))
    rw [trieStGet_entry hkey hv] at hget
    exact absurd (Prod.mk.inj (Option.some.inj hget)).1 (by decide)
  · rintro ⟨hplain, hopens⟩
    obtain ⟨tr, hrun⟩ := (trieStPuts_isSome puts hstr emptyRoot).mpr hplain
    refine ⟨tr, val, hrun, ?_⟩
    have hnone : entry tr key = none := by
      rw [← Option.not_isSome_iff_eq_none,
        trieStPuts_opens puts hstr emptyRoot tr hrun key hbytes, hempty]
      simpa using hopens
    simp only [trieStGet, hkey.accepted, Option.getD_some, hkey.strlen]
    exact trieStDoGet_absent key tr val hbytes hnone

/-- After `"she"`, the lookup of `"by"` returns -1. -/
theorem trie_get_absent_by : ∃ tr w, trieStPuts emptyRoot [([115, 104, 101], 1)] = some tr ∧
    trieStGet tr (some [98, 121]) 7 = some (-1, w) := by
  refine (trie_get_absent [([115, 104, 101], 1)] [98, 121] 7 (by simp) ⟨by simp, by simp⟩).mpr
    ⟨by simp, ?_⟩
  simp [Opens]

/-- After `"she"`, the lookup of `"sh"` returns 0, with a value nobody put. -/
theorem trie_get_absent_fails : ∃ tr, trieStPuts emptyRoot [([115, 104, 101], 1)] = some tr ∧
    PlainKey [115, 104] ∧ (∀ p ∈ [(([115, 104, 101] : List Int8), (1 : Int))], p.1 ≠ [115, 104]) ∧
    trieStGet tr (some [115, 104]) 7 = some (0, 0) :=
  ⟨_, rfl, ⟨by simp, by simp⟩, by simp, rfl⟩

end Trie
