import CppTest.RbTreeInsertProofs

/-! # Drawing a tree (`algs/intro_to_algs3th/tree_print.cpp`)

    `rbtree_draw_to_term` takes nodes from a queue and puts their children behind it.  Two
    counters say where a level ends: of the nodes in the queue, the first `curLayerCount` are of
    this level and the other `nextLayerCount` of the next one (`Level`).

    * `drawPass_level`: that is so after every pass, and what is printed is a part of the drawing.
    * `rbtreeDraw_levels`: in the end the drawing is there, a line for each level. -/

namespace RbTree

open Machine LinkedTree

variable {δ : Type}

/-! ## The model -/

/-- The variables of `rbtree_draw_to_term`, and what is printed. -/
structure Draw where
  nodes : List (Option Nat)
  curLayerCount : Int
  nextLayerCount : Int
  out : List Char

/-- A node, with its parent before or behind it; `str` is `tr.node_c_str`. -/
def nodeText (str : δ → List Char) (m : Mem (NodeVal δ)) (p : Nat) (c : Cell (NodeVal δ)) :
    Option (List Char) :=
  match c.p with
  | none => some (str c.val.data)
  | some q => do
      let parent ← m q
      if parent.left = some p then
        some (str c.val.data ++ "(".toList ++ str parent.val.data ++ ") ".toList)
      else if parent.right = some p then
        some ("(".toList ++ str parent.val.data ++ ")".toList ++ str c.val.data ++ " ".toList)
      else some (str c.val.data)

/-- `if (child){ nodes.push(child); nextLayerCount++; }`. -/
def pushChild (s : Draw) (child : Option Nat) : Option Draw :=
  match child with
  | none => some s
  | some b => do
      let nextLayerCount ← int32 (s.nextLayerCount + 1)
      some { s with nodes := s.nodes ++ [some b], nextLayerCount := nextLayerCount }

/-- One pass of `while(!nodes.empty())`. -/
def drawPass (str : δ → List Char) (m : Mem (NodeVal δ)) (s : Draw) :
    Option (Pass Draw (List Char)) :=
  match s.nodes with
  | [] => some (.done s.out)
  | p :: nodes => do
      let curLayerCount ← int32 (s.curLayerCount - 1)
      let p ← p
      let c ← m p
      let text ← nodeText str m p c
      let s ← pushChild ⟨nodes, curLayerCount, s.nextLayerCount, s.out ++ text⟩ c.left
      let s ← pushChild s c.right
      if s.curLayerCount = 0 then
        some (.next ⟨s.nodes, s.nextLayerCount, 0, s.out ++ ['\n']⟩)
      else some (.next s)

/-- `rbtree_draw_to_term`. -/
def rbtreeDrawToTerm (str : δ → List Char) (fuel : Nat) (tr : Rb δ) : Option (List Char) :=
  loop (drawPass str tr.mem) fuel ⟨[tr.root], 1, 0, []⟩

/-! ## The drawing -/

/-- A subtree, and where it hangs: the side, and the data of its parent. -/
abbrev Place (δ : Type) := Option (Side × δ) × LTree (NodeVal δ)

/-- The subtrees at a depth, from the left to the right. -/
def atDepth : Nat → Place δ → List (Place δ)
  | _, (_, .nil) => []
  | 0, (up, .node a l v r) => [(up, .node a l v r)]
  | d + 1, (_, .node _ l v r) =>
      atDepth d (some (.left, v.data), l) ++ atDepth d (some (.right, v.data), r)

def label (str : δ → List Char) : Place δ → List Char
  | (_, .nil) => []
  | (none, .node _ _ v _) => str v.data
  | (some (.left, w), .node _ _ v _) => str v.data ++ "(".toList ++ str w ++ ") ".toList
  | (some (.right, w), .node _ _ v _) =>
      "(".toList ++ str w ++ ")".toList ++ str v.data ++ " ".toList

/-- The drawing of a tree down to a depth: a line for each level. -/
def drawing (str : δ → List Char) (t : LTree (NodeVal δ)) (depth : Nat) : List Char :=
  (List.range depth).flatMap fun d => (atDepth d (none, t)).flatMap (label str) ++ ['\n']

/-! ## Levels -/

def children (x : Place δ) : List (Place δ) := atDepth 1 x

theorem atDepth_succ : ∀ (d : Nat) (x : Place δ),
    atDepth (d + 1) x = (atDepth d x).flatMap children := by
  intro d
  induction d with
  | zero =>
      rintro ⟨up, _ | ⟨a, l, v, r⟩⟩
      · rfl
      · exact (List.append_nil _).symm
  | succ d ih =>
      rintro ⟨up, _ | ⟨a, l, v, r⟩⟩
      · rfl
      · rw [atDepth, atDepth, List.flatMap_append, ih, ih]

theorem atDepth_eq_nil : ∀ {d : Nat} {x : Place δ}, atDepth d x = [] ↔ x.2.height ≤ d := by
  intro d
  induction d with
  | zero =>
      rintro ⟨up, _ | ⟨a, l, v, r⟩⟩
      · exact iff_of_true rfl (le_refl 0)
      · exact iff_of_false (List.cons_ne_nil _ _) (Nat.not_succ_le_zero _)
  | succ d ih =>
      rintro ⟨up, _ | ⟨a, l, v, r⟩⟩
      · exact iff_of_true rfl (Nat.zero_le _)
      · rw [atDepth, List.append_eq_nil_iff, ih, ih]
        show l.height ≤ d ∧ r.height ≤ d ↔ max l.height r.height + 1 ≤ d + 1
        omega

/-- The number of nodes below some places. -/
def total (xs : List (Place δ)) : Nat := (xs.map fun x => x.2.size).sum

theorem total_append (xs ys : List (Place δ)) : total (xs ++ ys) = total xs + total ys := by
  rw [total, List.map_append, List.sum_append]
  rfl

theorem total_children {up : Option (Side × δ)} {a : Nat} {l r : LTree (NodeVal δ)}
    {v : NodeVal δ} : total (children (up, .node a l v r)) + 1 = (LTree.node a l v r).size := by
  have hzero : ∀ x : Place δ, total (atDepth 0 x) = x.2.size := by
    rintro ⟨up, _ | ⟨b, l', w, r'⟩⟩
    · rfl
    · exact Nat.add_zero _
  rw [children, atDepth, total_append, hzero, hzero]
  show l.size + r.size + 1 = l.size + 1 + r.size
  omega

theorem length_le_total {xs : List (Place δ)} (h : ∀ x ∈ xs, x.2 ≠ .nil) :
    xs.length ≤ total xs := by
  induction xs with
  | nil => exact le_refl 0
  | cons x xs ih =>
      obtain ⟨hx, hxs⟩ := List.forall_mem_cons.mp h
      have hpos : 1 ≤ x.2.size := by
        revert hx
        cases x.2 with
        | nil => exact fun hx => absurd rfl hx
        | node a l v r => exact fun _ => by show 1 ≤ l.size + 1 + r.size; omega
      show xs.length + 1 ≤ x.2.size + total xs
      have := ih hxs
      omega

theorem total_flatMap_children {xs : List (Place δ)} (h : ∀ x ∈ xs, x.2 ≠ .nil) :
    total (xs.flatMap children) + xs.length = total xs := by
  induction xs with
  | nil => rfl
  | cons x xs ih =>
      obtain ⟨hx, hxs⟩ := List.forall_mem_cons.mp h
      obtain ⟨up, t⟩ := x
      cases t with
      | nil => exact absurd rfl hx
      | node a l v r =>
          have hnode := @total_children δ up a l r v
          rw [List.flatMap_cons, total_append, List.length_cons]
          show _ = (LTree.node a l v r).size + total xs
          have := ih hxs
          omega

theorem ne_nil_of_mem {y : Place δ} : ∀ {d : Nat} {x : Place δ}, y ∈ atDepth d x → y.2 ≠ .nil := by
  intro d
  induction d with
  | zero =>
      rintro ⟨up, _ | ⟨a, l, v, r⟩⟩ hy
      · exact absurd hy List.not_mem_nil
      · rw [List.mem_singleton.mp hy]
        exact LTree.node_ne_nil
  | succ d ih =>
      rintro ⟨up, _ | ⟨a, l, v, r⟩⟩ hy
      · exact absurd hy List.not_mem_nil
      · exact (List.mem_append.mp hy).elim ih ih

theorem total_atDepth_le (x : Place δ) (d : Nat) : total (atDepth d x) ≤ x.2.size := by
  induction d with
  | zero =>
      obtain ⟨up, _ | ⟨a, l, v, r⟩⟩ := x
      · exact le_refl 0
      · exact le_refl _
  | succ d ih =>
      have := total_flatMap_children fun y (hy : y ∈ atDepth d x) => ne_nil_of_mem hy
      rw [atDepth_succ]
      omega

theorem length_atDepth_le (x : Place δ) (d : Nat) : (atDepth d x).length ≤ x.2.size :=
  le_trans (length_le_total fun _ hy => ne_nil_of_mem hy) (total_atDepth_le x d)

/-! ## Places in memory -/

/-- The memory holds the subtree, below what the place says.  The parent has it on one side
    only. -/
def Shown (m : Mem (NodeVal δ)) (x : Place δ) : Prop :=
  ∃ p, Reps m p x.2 ∧ x.2.addrs.Nodup ∧
    match x.1 with
    | none => p = none
    | some (s, w) => ∃ q c, p = some q ∧ m q = some c ∧ c.val.data = w ∧ c.child s = x.2.ptr
        ∧ (s = .right → c.left ≠ x.2.ptr)

theorem nodeText_eq (str : δ → List Char) {m : Mem (NodeVal δ)} {up : Option (Side × δ)} {a : Nat}
    {l r : LTree (NodeVal δ)} {v : NodeVal δ} (h : Shown m (up, .node a l v r)) :
    ∃ c, m a = some c ∧ c.left = l.ptr ∧ c.right = r.ptr
      ∧ nodeText str m a c = some (label str (up, .node a l v r)) := by
  obtain ⟨p, ⟨hcell, -, -⟩, -, hup⟩ := h
  refine ⟨_, hcell, rfl, rfl, ?_⟩
  match up, hup with
  | none, hup =>
      obtain rfl : p = none := hup
      rfl
  | some (.left, w), hup =>
      obtain ⟨q, c, rfl, hq, rfl, hchild, -⟩ := hup
      have hleft : c.left = some a := hchild
      simp only [nodeText, hq, Option.bind_eq_bind, Option.bind_some, if_pos hleft]
      rfl
  | some (.right, w), hup =>
      obtain ⟨q, c, rfl, hq, rfl, hchild, hne⟩ := hup
      have hright : c.right = some a := hchild
      have hleft : c.left ≠ some a := hne rfl
      simp only [nodeText, hq, Option.bind_eq_bind, Option.bind_some, if_neg hleft, if_pos hright]
      rfl

theorem mem_atDepth_zero {x y : Place δ} (h : y ∈ atDepth 0 x) : y = x := by
  obtain ⟨up, _ | ⟨a, l, v, r⟩⟩ := x
  · exact absurd h List.not_mem_nil
  · exact List.mem_singleton.mp h

theorem shown_children {m : Mem (NodeVal δ)} {x y : Place δ} (h : Shown m x)
    (hy : y ∈ children x) : Shown m y := by
  obtain ⟨up, _ | ⟨a, l, v, r⟩⟩ := x
  · exact absurd hy List.not_mem_nil
  obtain ⟨p, ⟨hcell, hl, hr⟩, hnodup, -⟩ := h
  obtain ⟨-, hnodup⟩ := List.nodup_cons.mp hnodup
  obtain ⟨hndl, hndr, hdisj⟩ := List.nodup_append.mp hnodup
  have hne := ne_nil_of_mem hy
  rcases List.mem_append.mp hy with hy | hy
  · obtain rfl := mem_atDepth_zero hy
    exact ⟨some a, hl, hndl, a, _, rfl, hcell, rfl, rfl, fun h => nomatch h⟩
  · obtain rfl := mem_atDepth_zero hy
    refine ⟨some a, hr, hndr, a, _, rfl, hcell, rfl, rfl, fun _ heq => ?_⟩
    -- one address would be in both subtrees
    cases r with
    | nil => exact hne rfl
    | node b l' w r' =>
        have hb : l.ptr = some b := heq
        exact hdisj b (LTree.ptr_mem_addrs hb) b List.mem_cons_self rfl

theorem shown_atDepth {m : Mem (NodeVal δ)} {x : Place δ} (h : Shown m x) : ∀ {d : Nat} {y},
    y ∈ atDepth d x → Shown m y := by
  intro d
  induction d with
  | zero => exact fun hy => mem_atDepth_zero hy ▸ h
  | succ d ih =>
      intro y hy
      rw [atDepth_succ] at hy
      obtain ⟨z, hz, hy⟩ := List.mem_flatMap.mp hy
      exact shown_children (ih hz) hy

/-! ## One pass -/

theorem pushChild_eq {s : Draw} {up : Option (Side × δ)} {t : LTree (NodeVal δ)}
    (hlo : 0 ≤ s.nextLayerCount)
    (hhi : s.nextLayerCount + (atDepth 0 (up, t)).length ≤ intMax) :
    pushChild s t.ptr = some { s with
      nodes := s.nodes ++ (atDepth 0 (up, t)).map fun x => x.2.ptr,
      nextLayerCount := s.nextLayerCount + (atDepth 0 (up, t)).length } := by
  cases t with
  | nil =>
      show some s = _
      simp [atDepth]
  | node a l v r =>
      have hint : int32 (s.nextLayerCount + 1) = some (s.nextLayerCount + 1) :=
        int32_eq (by unfold intMin; omega) hhi
      simp only [pushChild, LTree.ptr, hint, Option.bind_eq_bind, Option.bind_some]
      rfl

/-- The state inside the level `d`, when the nodes `done` of it have been printed and the nodes
    `rest` have not. -/
structure Level (str : δ → List Char) (t : LTree (NodeVal δ)) (d : Nat) (done rest : List (Place δ))
    (s : Draw) : Prop where
  row : atDepth d (none, t) = done ++ rest
  nodes : s.nodes = (rest ++ done.flatMap children).map fun x => x.2.ptr
  cur : s.curLayerCount = rest.length
  next : s.nextLayerCount = (done.flatMap children).length
  out : s.out = drawing str t d ++ done.flatMap (label str)

/-- The counters at the end of a level. -/
theorem Level.turn {str : δ → List Char} {t : LTree (NodeVal δ)} {d : Nat} {done : List (Place δ)}
    {s : Draw} (h : Level str t d done [] s) :
    Level str t (d + 1) [] (atDepth (d + 1) (none, t))
      ⟨s.nodes, s.nextLayerCount, 0, s.out ++ ['\n']⟩ := by
  have hdone : atDepth d (none, t) = done := h.row.trans (List.append_nil _)
  have hrow : atDepth (d + 1) (none, t) = done.flatMap children := by rw [atDepth_succ, hdone]
  refine ⟨rfl, ?_, ?_, rfl, ?_⟩
  · rw [h.nodes, hrow, List.nil_append, List.flatMap_nil, List.append_nil]
  · rw [h.next, hrow]
  · rw [drawing, List.range_succ, List.flatMap_append, List.flatMap_singleton, hdone, h.out,
      List.append_assoc]
    exact (List.append_nil _).symm

/-- **One pass** prints one node, and puts its children behind the queue. -/
theorem drawPass_level {str : δ → List Char} {m : Mem (NodeVal δ)} {t : LTree (NodeVal δ)}
    (hshown : Shown m (none, t)) (hsize : (t.size : Int) ≤ intMax) {d : Nat}
    {done rest : List (Place δ)} {x : Place δ} {s : Draw} (h : Level str t d done (x :: rest) s) :
    ∃ s', Level str t d (done ++ [x]) rest s' ∧ drawPass str m s = some (.next
      (if rest = [] then ⟨s'.nodes, s'.nextLayerCount, 0, s'.out ++ ['\n']⟩ else s')) := by
  have hx : x ∈ atDepth d (none, t) := by
    rw [h.row]
    exact List.mem_append_right _ List.mem_cons_self
  have hxshown := shown_atDepth hshown hx
  have hxne := ne_nil_of_mem hx
  have hrowlen := length_atDepth_le (none, t) d
  have hnextlen := length_atDepth_le (none, t) (d + 1)
  rw [atDepth_succ, h.row, List.flatMap_append, List.flatMap_cons] at hnextlen
  rw [h.row] at hrowlen
  simp only [List.length_append, List.length_cons] at hrowlen hnextlen
  obtain ⟨up, _ | ⟨a, l, v, r⟩⟩ := x
  · exact absurd rfl hxne
  obtain ⟨c, hcell, hleft, hright, htext⟩ := nodeText_eq str hxshown
  have hkids : children (up, LTree.node a l v r) = atDepth 0 (some (.left, v.data), l)
      ++ atDepth 0 (some (.right, v.data), r) := rfl
  have hlen := congrArg List.length hkids
  rw [List.length_append] at hlen
  have hqueue : s.nodes = some a :: (rest ++ done.flatMap children).map fun x => x.2.ptr := h.nodes
  have hcur : int32 (s.curLayerCount - 1) = some (rest.length : Int) := by
    rw [h.cur, List.length_cons, Nat.cast_succ, add_sub_cancel_right]
    exact int32_eq (by unfold intMin; omega) (by omega)
  have hl := @pushChild_eq δ ⟨(rest ++ done.flatMap children).map fun x => x.2.ptr, rest.length,
    s.nextLayerCount, s.out ++ label str (up, LTree.node a l v r)⟩ (some (.left, v.data)) l
    (by rw [h.next]; omega) (by rw [h.next]; omega)
  have hr := @pushChild_eq δ ⟨(rest ++ done.flatMap children).map (fun x => x.2.ptr)
    ++ (atDepth 0 (some (.left, v.data), l)).map fun x => x.2.ptr, rest.length,
    s.nextLayerCount + (atDepth 0 (some (.left, v.data), l)).length,
    s.out ++ label str (up, LTree.node a l v r)⟩ (some (.right, v.data)) r
    (by dsimp only; rw [h.next]; omega) (by dsimp only; rw [h.next]; omega)
  refine ⟨⟨(rest ++ done.flatMap children).map (fun x => x.2.ptr)
    ++ (atDepth 0 (some (.left, v.data), l)).map (fun x => x.2.ptr)
    ++ (atDepth 0 (some (.right, v.data), r)).map fun x => x.2.ptr, rest.length,
    s.nextLayerCount + (atDepth 0 (some (.left, v.data), l)).length
    + (atDepth 0 (some (.right, v.data), r)).length,
    s.out ++ label str (up, LTree.node a l v r)⟩, ⟨?_, ?_, rfl, ?_, ?_⟩, ?_⟩
  · rw [h.row, List.append_assoc]
    rfl
  · rw [List.flatMap_append, List.flatMap_singleton, hkids]
    simp only [List.map_append, List.append_assoc]
  · dsimp only
    rw [List.flatMap_append, List.flatMap_singleton, List.length_append, h.next]
    omega
  · rw [List.flatMap_append, List.flatMap_singleton, ← List.append_assoc, ← h.out]
  · simp only [drawPass, hqueue, hcur, hcell, htext, hleft, hright, hl, hr, Option.bind_eq_bind,
      Option.bind_some, Nat.cast_eq_zero, List.length_eq_zero_iff]
    split_ifs <;> rfl

/-! ## The whole drawing -/

/-- What holds between two passes, when `n` nodes are still to be printed. -/
def Drawing (str : δ → List Char) (t : LTree (NodeVal δ)) (n : Nat) (s : Draw) : Prop :=
  (∃ d done x rest, Level str t d done (x :: rest) s
    ∧ total (x :: rest ++ done.flatMap children) = n)
  ∨ s.nodes = [] ∧ s.out = drawing str t t.height

/-- At the end of a level the next one begins, or there is none. -/
theorem Level.drawing {str : δ → List Char} {t : LTree (NodeVal δ)} {d : Nat} {s : Draw}
    (h : Level str t d [] (atDepth d (none, t)) s) (hd : d ≤ t.height) :
    Drawing str t (total (atDepth d (none, t))) s := by
  cases hrow : atDepth d (none, t) with
  | nil =>
      have hheight := atDepth_eq_nil.mp hrow
      obtain rfl : d = t.height := le_antisymm hd hheight
      refine Or.inr ⟨?_, ?_⟩
      · rw [h.nodes, hrow]
        rfl
      · rw [h.out]
        exact List.append_nil _
  | cons x rest =>
      rw [hrow] at h
      refine Or.inl ⟨d, [], x, rest, h, ?_⟩
      rw [List.flatMap_nil, List.append_nil]

/-- A pass leaves a node less to print, or there was none. -/
theorem drawPass_drawing {str : δ → List Char} {m : Mem (NodeVal δ)} {t : LTree (NodeVal δ)}
    (hshown : Shown m (none, t)) (hsize : (t.size : Int) ≤ intMax) (n : Nat) (s : Draw)
    (h : Drawing str t n s) :
    (∃ out, drawPass str m s = some (.done out) ∧ out = drawing str t t.height)
      ∨ ∃ s' n', drawPass str m s = some (.next s') ∧ n' < n ∧ Drawing str t n' s' := by
  rcases h with ⟨d, done, x, rest, hlevel, rfl⟩ | ⟨hnodes, hout⟩
  · obtain ⟨s', hlevel', hpass⟩ := drawPass_level hshown hsize hlevel
    have hx : x ∈ atDepth d (none, t) := by
      rw [hlevel.row]
      exact List.mem_append_right _ List.mem_cons_self
    have hless : total ((done ++ [x]).flatMap children) + 1
        = x.2.size + total (done.flatMap children) := by
      have hone := @total_flatMap_children δ [x] fun y hy =>
        List.mem_singleton.mp hy ▸ ne_nil_of_mem hx
      have hsingle : total [x] = x.2.size := Nat.add_zero _
      rw [List.length_singleton, hsingle] at hone
      rw [List.flatMap_append, total_append]
      omega
    refine Or.inr ⟨_, total (rest ++ (done ++ [x]).flatMap children), hpass, ?_, ?_⟩
    · rw [total_append, total_append]
      show _ < x.2.size + total rest + _
      omega
    · cases rest with
      | nil =>
          rw [if_pos rfl]
          have hd : d < t.height := by
            by_contra hle
            have hnil := atDepth_eq_nil.mpr (Nat.le_of_not_lt hle : (none, t).2.height ≤ d)
            rw [hnil] at hx
            exact absurd hx List.not_mem_nil
          have hrow : atDepth (d + 1) (none, t) = (done ++ [x]).flatMap children := by
            rw [atDepth_succ, hlevel.row]
          rw [List.nil_append, ← hrow]
          exact hlevel'.turn.drawing hd
      | cons y rest =>
          rw [if_neg (List.cons_ne_nil _ _)]
          exact Or.inl ⟨d, done ++ [x], y, rest, hlevel', rfl⟩
  · refine Or.inl ⟨s.out, ?_, hout⟩
    rw [drawPass, hnodes]

theorem rbtreeDrawToTerm_spec (str : δ → List Char) {tr : Rb δ} {t : LTree (NodeVal δ)}
    (hne : t ≠ .nil) (h : Focus tr.mem tr.root t []) (hsize : (t.size : Int) ≤ intMax) :
    ∀ fuel, t.size < fuel → rbtreeDrawToTerm str fuel tr = some (drawing str t t.height) := by
  have hshown : Shown tr.mem (none, t) := ⟨none, h.tree, by simpa [ctxAddrs] using h.nodup, rfl⟩
  have hstart : Level str t 0 [] (atDepth 0 (none, t)) ⟨[tr.root], 1, 0, []⟩ := by
    obtain _ | ⟨a, l, v, r⟩ := t
    · exact absurd rfl hne
    · have hroot : tr.root = some a := h.ctx
      exact ⟨rfl, by rw [hroot]; rfl, rfl, rfl, rfl⟩
  obtain ⟨out, rfl, hrun⟩ := loop_total (drawPass_drawing hshown hsize) _ _
    (hstart.drawing (Nat.zero_le _))
  exact fun fuel hfuel => hrun fuel (lt_of_le_of_lt (total_atDepth_le _ 0) hfuel)

/-- **`rbtree_draw_to_term`**, after any insertions but none, draws the tree: one line for each
    level, with the nodes of the level from the left to the right. -/
theorem rbtreeDraw_levels (H : Hooks δ) (str : δ → List Char) (calls : List (Nat × δ))
    (hne : calls ≠ []) (hfresh : (calls.map Prod.fst).Nodup)
    (hlen : (calls.length : Int) ≤ intMax) :
    ∃ tr t, (∀ fuel, 2 * calls.length ≤ fuel → insertAll H fuel emptyTree calls = some tr)
      ∧ tr.root = t.ptr ∧ Reps tr.mem none t
      ∧ ∀ fuel, calls.length < fuel →
        rbtreeDrawToTerm str fuel tr = some (drawing str t t.height) := by
  have hstep : ∀ (ds : List δ) (its : List (Nat × δ)) (_ : List δ) (new : Nat) (data : δ)
      (its' : List (Nat × δ)) (gone : List δ), its.length ≤ ds.length ∧ (ds ≠ [] → its ≠ []) →
      Step H new data its its' gone →
      its'.length ≤ (ds ++ [data]).length ∧ (ds ++ [data] ≠ [] → its' ≠ []) := by
    rintro ds its fr new data its' gone ⟨hlength, -⟩ hs
    have hle := hs.length_le
    refine ⟨by rw [List.length_append, List.length_singleton]; omega, fun _ => ?_⟩
    cases hs with
    | fresh k _ => exact List.append_ne_nil_of_right_ne_nil _ (List.cons_ne_nil _ _)
    | replace xs ys a d _ => exact List.append_ne_nil_of_right_ne_nil _ (List.cons_ne_nil _ _)
  obtain ⟨tr, t, hrun, hb, hlength, hitems⟩ := @insertAll_spec δ H
    (fun ds its _ => its.length ≤ ds.length ∧ (ds ≠ [] → its ≠ [])) hstep calls [] _ _
    balanced_emptyTree ⟨le_refl 0, fun h => absurd rfl h⟩ hfresh fun _ _ h => nomatch h
  rw [List.nil_append, length_items, List.length_map] at hlength
  have ht : t ≠ .nil := by
    rintro rfl
    exact hitems (by simpa using hne) rfl
  refine ⟨tr, t, fun fuel hfuel => hrun fuel ?_, hb.focus.ctx, hb.focus.tree, fun fuel hfuel => ?_⟩
  · show 2 * (0 + calls.length) ≤ fuel
    omega
  · exact rbtreeDrawToTerm_spec str ht hb.focus (by omega) fuel (by omega)

theorem rbtreeDraw_levels_three :
    ∃ tr t, (∀ fuel, 6 ≤ fuel → insertAll ⟨fun a b : Int => a - b, true⟩ fuel emptyTree
        [(1, 30), (2, 10), (3, 20)] = some tr)
      ∧ tr.root = t.ptr ∧ Reps tr.mem none t
      ∧ ∀ fuel, 3 < fuel → rbtreeDrawToTerm (fun d => (toString d).toList) fuel tr
        = some (drawing (fun d => (toString d).toList) t t.height) :=
  rbtreeDraw_levels _ _ [(1, 30), (2, 10), (3, 20)] (by decide) (by decide) (by decide)

end RbTree
