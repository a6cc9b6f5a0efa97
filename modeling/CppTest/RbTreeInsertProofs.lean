import CppTest.RbTreeBalanceProofs

/-! # Insertion into a red-black tree: the code keeps the balance

    The functions of `RbTreeProofs` work on memory; `RbTreeBalanceProofs` speaks of
    trees.  This file joins the two.  Each function has one specification, given
    where the memory holds a tree (`Focus`):

    * `rbtreeRotate_spec`, `rbtreeFlipcolor_spec` — the surgery of the fix-up;
    * `descend_spec` — the search for the insert position ends at a node with an
      equal key or at an empty place, whose context it has walked;
    * `rbtreeFixupPass_spec` — one pass of the fix-up loop stops with a balanced tree
      or passes the violation on and comes closer to the root;
    * `rbtreeInsert_spec` — an insertion keeps `Balanced`.

    `rbtree_insert_left_leaning` is the result for every sequence of insertions. -/

namespace RbTree

open Machine LinkedTree LTree

variable {δ : Type}

/-! ## Rotations -/

/-- Redirecting the link from above. -/
theorem rbtreeRelink_spec {m : Mem (NodeVal δ)} (root : Option Nat) {x : Nat} (y : Nat)
    {k : List (Frame (NodeVal δ))}
    (hk : ∀ f k', k = f :: k' →
      m f.a = some (Cell.of f.side (some x) f.sib.ptr (parentOf k') f.v) ∧ f.sib.ptr ≠ some x) :
    ∃ root' m', rbtreeRelink root m (parentOf k) x y = some (root', m') ∧
      Relinked m' root root' y k ∧ ∀ a, some a ≠ parentOf k → m' a = m a := by
  cases k with
  | nil => exact ⟨some y, m, rfl, rfl, fun _ _ => rfl⟩
  | cons f k =>
      obtain ⟨hf, hsib⟩ := hk f k rfl
      have hside : (if (Cell.of f.side (some x) f.sib.ptr (parentOf k) f.v).left = some x
          then Side.left else Side.right) = f.side := by
        cases f.side with
        | left => exact if_pos rfl
        | right => exact if_neg hsib
      obtain ⟨m', hmod, hf', hfar⟩ := modify_spec hf fun n => n.setChild f.side (some y)
      rw [Cell.of_setChild] at hf'
      refine ⟨root, m', ?_, ⟨rfl, hf'⟩, ?_⟩
      · show rbtreeRelink root m (some f.a) x y = _
        simp only [rbtreeRelink, hf, Option.bind_eq_bind, Option.bind_some, hside, hmod]
      · intro a ha
        exact hfar a (fun h => ha (congrArg some h))

/-- Redirecting the parent link of a subtree, if it is not empty. -/
theorem setParent_spec {m : Mem (NodeVal δ)} {p : Option Nat} {t : LTree (NodeVal δ)}
    (h : Reps m p t) (x : Nat) :
    ∃ m', setParent m t.ptr x = some m' ∧
      (∀ b, t.ptr = some b → m' b = (m b).map fun c => { c with p := some x }) ∧
      ∀ a, some a ≠ t.ptr → m' a = m a := by
  cases t with
  | nil => exact ⟨m, rfl, (fun _ h => nomatch h), fun _ _ => rfl⟩
  | node b l v r =>
      obtain ⟨m', hmod, hb, hfar⟩ := modify_spec h.1 fun n => { n with p := some x }
      refine ⟨m', hmod, ?_, ?_⟩
      · intro b' hb'
        obtain rfl := Option.some.inj hb'
        rw [hb, h.1]
        rfl
      · intro a ha
        exact hfar a (fun h => ha (congrArg some h))

theorem setRed_spec {m : Mem (NodeVal δ)} {s : Side} {a : Nat} {t u p : Option Nat}
    {v : NodeVal δ} (h : m a = some (Cell.of s t u p v)) (c : Bool) :
    ∃ m', setRed m a c = some m' ∧ m' a = some (Cell.of s t u p ⟨c, v.data⟩) ∧
      ∀ b, b ≠ a → m' b = m b := by
  obtain ⟨m', hmod, ha, hfar⟩ := modify_spec h fun n => { n with val := { n.val with red := c } }
  refine ⟨m', hmod, ?_, hfar⟩
  rw [ha, Cell.of_with_val, Cell.of_val]

/-- `x` becomes the child of `y`, and the colours move. -/
theorem rbtreeSink_spec {m : Mem (NodeVal δ)} {s : Side} {x y : Nat} {a b p c d q : Option Nat}
    {vx vy : NodeVal δ} (hxy : x ≠ y) (hx : m x = some (Cell.of s a b p vx))
    (hy : m y = some (Cell.of s d c q vy)) :
    ∃ m', rbtreeSink s m x y = some m' ∧
      m' x = some (Cell.of s a b (some y) ⟨true, vx.data⟩) ∧
      m' y = some (Cell.of s (some x) c q ⟨vx.red, vy.data⟩) ∧
      ∀ e, e ≠ x → e ≠ y → m' e = m e := by
  obtain ⟨m1, h1, hy1, hfar1⟩ := modify_spec hy fun n => n.setChild s (some x)
  rw [Cell.of_setChild] at hy1
  rw [← hfar1 x hxy] at hx
  obtain ⟨m2, h2, hx2, hfar2⟩ := modify_spec hx fun n => { n with p := some y }
  rw [Cell.of_with_p] at hx2
  rw [← hfar2 y hxy.symm] at hy1
  obtain ⟨m3, h3, hy3, hfar3⟩ := setRed_spec hy1 vx.red
  have hx3 := hx2
  rw [← hfar3 x hxy] at hx3
  obtain ⟨m4, h4, hx4, hfar4⟩ := setRed_spec hx3 true
  refine ⟨m4, ?_, hx4, ?_, ?_⟩
  · simp only [rbtreeSink, h1, h2, hx2, Cell.of_val, h3, h4, Option.bind_eq_bind, Option.bind_some]
  · rw [hfar4 y hxy.symm, hy3]
  · intro e hex hey
    rw [hfar4 e hex, hfar3 e hey, hfar2 e hex, hfar1 e hey]

/-- **A rotation** at the focus: `y` takes the place and the colour of `x`, and `x`
    becomes its red child on side `s`. -/
theorem rbtreeRotate_spec {s : Side} {tr : Rb δ} {x y : Nat} {A B C : LTree (NodeVal δ)}
    {vx vy : NodeVal δ} {k : List (Frame (NodeVal δ))}
    (h : Focus tr.mem tr.root (join s x A vx (join s y B vy C)) k) :
    ∃ tr', rbtreeRotate s tr (some x) = some (tr', some y) ∧ tr'.freed = tr.freed ∧
      Focus tr'.mem tr'.root
        (join s y (join s x A ⟨true, vx.data⟩ B) ⟨vx.red, vy.data⟩ C) k := by
  obtain ⟨hx, -, hY⟩ := (reps_join ..).mp h.tree
  obtain ⟨hy, hB, -⟩ := (reps_join ..).mp hY
  rw [join_ptr] at hx
  have hnd := rotate_nodup h.nodup
  obtain ⟨hxnot, hnd'⟩ := List.nodup_cons.mp hnd
  obtain ⟨hynot, -⟩ := List.nodup_cons.mp hnd'
  have hxy : x ≠ y := fun heq => hxnot (by simp [heq])
  have hxB : some x ≠ B.ptr := fun heq => hxnot (by simp [ptr_mem_addrs heq.symm])
  have hyB : some y ≠ B.ptr := fun heq => hynot (by simp [ptr_mem_addrs heq.symm])
  have hxk : some x ≠ parentOf k := fun heq => hxnot (by simp [parentOf_mem heq.symm])
  have hyk : some y ≠ parentOf k := fun heq => hynot (by simp [parentOf_mem heq.symm])
  have hBk : ∀ a ∈ B.addrs, a ∉ ctxAddrs k := by
    intro a ha
    refine h.disjoint ((join_addrs ..).mem_iff.mpr ?_)
    simp [(join_addrs s y B vy C).mem_iff, ha]
  -- x takes B over from y
  obtain ⟨m1, h1, hx1, hfar1⟩ := modify_spec hx fun n => n.setChild s.opp B.ptr
  rw [Cell.of_setChild_opp] at hx1
  have hB1 : Reps m1 (some y) B := by
    refine hB.frame fun a ha => hfar1 a ?_
    intro heq
    rw [heq] at ha
    exact hxnot (by simp [ha])
  obtain ⟨m2, h2, hb2, hfar2⟩ := setParent_spec hB1 x
  rw [← hfar2 x hxB] at hx1
  have hy2 := hy
  rw [← hfar1 y hxy.symm, ← hfar2 y hyB] at hy2
  -- y takes the place of x
  obtain ⟨m3, h3, hy3, hfar3⟩ := modify_spec hy2 fun n => { n with p := parentOf k }
  rw [Cell.of_with_p] at hy3
  have habove : ∀ f k', k = f :: k' →
      m3 f.a = some (Cell.of f.side (some x) f.sib.ptr (parentOf k') f.v) ∧
        f.sib.ptr ≠ some x := by
    rintro f k' rfl
    have hf := h.ctx.1
    rw [join_ptr] at hf
    have hfx : f.a ≠ x := fun heq => hxk (congrArg some heq.symm)
    have hfy : f.a ≠ y := fun heq => hyk (congrArg some heq.symm)
    have hfB : some f.a ≠ B.ptr :=
      fun heq => hBk f.a (ptr_mem_addrs heq.symm) (parentOf_mem rfl)
    refine ⟨?_, ?_⟩
    · rw [hfar3 f.a hfy, hfar2 f.a hfB, hfar1 f.a hfx, hf]
    · intro heq
      exact hxnot (by simp [ctxAddrs, ptr_mem_addrs heq])
  obtain ⟨root', m4, h4, hk4, hfar4⟩ := rbtreeRelink_spec tr.root y habove
  have hx4 := hx1
  rw [← hfar3 x hxy, ← hfar4 x hxk] at hx4
  rw [← hfar4 y hyk] at hy3
  obtain ⟨m5, h5, hx5, hy5, hfar5⟩ := rbtreeSink_spec hxy hx4 hy3
  refine ⟨{ tr with root := root', mem := m5 }, ?_, rfl, ?_⟩
  · simp only [rbtreeRotate, hx, hy, Cell.of_child_opp, Cell.of_child, Cell.of_p, h1, h2, hx1, h3,
      h4, h5, Option.bind_eq_bind, Option.bind_some]
  show Focus m5 root' _ k
  refine h.rotate _ _ hx5 hy5 ?_ ?_ ?_
  · intro b hb
    have hbx : b ≠ x := fun heq => hxB (by rw [hb, heq])
    have hby : b ≠ y := fun heq => hyB (by rw [hb, heq])
    have hbk : some b ≠ parentOf k := fun heq => hBk b (ptr_mem_addrs hb) (parentOf_mem heq.symm)
    rw [hfar5 b hbx hby, hfar4 b hbk, hfar3 b hby, hb2 b hb, hfar1 b hbx]
  · cases k with
    | nil => exact hk4
    | cons f k =>
        refine ⟨hk4.1, ?_⟩
        rw [hfar5 f.a (fun heq => hxk (congrArg some heq.symm))
          (fun heq => hyk (congrArg some heq.symm))]
        exact hk4.2
  · intro a hax hay haB hak
    rw [hfar5 a hax hay, hfar4 a hak, hfar3 a hay, hfar2 a haB, hfar1 a hax]

/-! ## Colours -/

/-- Painting the focused node. -/
theorem setRed_focus {m : Mem (NodeVal δ)} {root : Option Nat} {a : Nat}
    {l r : LTree (NodeVal δ)} {v : NodeVal δ} {k : List (Frame (NodeVal δ))}
    (h : Focus m root (.node a l v r) k) (c : Bool) :
    ∃ m', setRed m a c = some m' ∧ Focus m' root (.node a l ⟨c, v.data⟩ r) k := by
  obtain ⟨m', hset, ha, hfar⟩ :=
    modify_spec h.tree.1 fun n => { n with val := { n.val with red := c } }
  refine ⟨m', hset, h.setVal _ ?_ hfar⟩
  rw [ha, h.tree.1]
  rfl

/-- The flip paints both children black, and the node red unless it is the root. -/
theorem rbtreeFlipcolor_spec {m : Mem (NodeVal δ)} {root : Option Nat} {a : Nat}
    {l r : LTree (NodeVal δ)} {v : NodeVal δ} {k : List (Frame (NodeVal δ))}
    (h : Focus m root (.node a l v r) k) (hl : isRed l = true) (hr : isRed r = true) :
    ∃ m', rbtreeFlipcolor m a = some m' ∧
      Focus m' root (.node a (blacken l) ⟨(parentOf k).isSome, v.data⟩ (blacken r)) k := by
  have ha := h.tree.1
  cases l with
  | nil => exact nomatch hl
  | node al ll vl rl =>
      cases r with
      | nil => exact nomatch hr
      | node ar lr vr rr =>
          obtain ⟨m1, h1, hf1⟩ := setRed_focus h (parentOf k).isSome
          have hright := focus_fill (f := ⟨.right, a, _, .node al ll vl rl⟩).mp hf1
          obtain ⟨m2, h2, hf2⟩ := setRed_focus hright false
          have hback : Focus m2 root (.node a (.node al ll vl rl) ⟨(parentOf k).isSome, v.data⟩
              (.node ar lr ⟨false, vr.data⟩ rr)) k := focus_fill.mpr hf2
          have hleft := focus_fill (f := ⟨.left, a, _, .node ar lr ⟨false, vr.data⟩ rr⟩).mp hback
          obtain ⟨m3, h3, hf3⟩ := setRed_focus hleft false
          refine ⟨m3, ?_, focus_fill.mpr hf3⟩
          simp only [rbtreeFlipcolor, ha, h1, ptr, h2, h3, Option.bind_eq_bind, Option.bind_some]

theorem rbtreeIsRed_spec {m : Mem (NodeVal δ)} {p : Option Nat} {t : LTree (NodeVal δ)}
    (h : Reps m p t) : rbtreeIsRed m t.ptr = some (isRed t) := by
  cases t with
  | nil => rfl
  | node a l v r =>
      show rbtreeIsRed m (some a) = some v.red
      simp only [rbtreeIsRed, h.1, Option.bind_eq_bind, Option.bind_some]

/-- What the loop tests of the focused node itself: red, and in a left hole. -/
def inLeftHole : List (Frame (NodeVal δ)) → Bool
  | [] => false
  | f :: _ => f.side == .left

theorem redLeftChild_spec {m : Mem (NodeVal δ)} {root : Option Nat} {a : Nat}
    {l r : LTree (NodeVal δ)} {v : NodeVal δ} {k : List (Frame (NodeVal δ))}
    (h : Focus m root (.node a l v r) k) :
    redLeftChild m a = some (v.red && inLeftHole k) := by
  have ha := h.tree.1
  cases hred : v.red with
  | false => simp [redLeftChild, ha, hred]
  | true =>
      cases k with
      | nil => simp [redLeftChild, ha, hred, parentOf, inLeftHole]
      | cons f k =>
          have hf := h.ctx.1
          have hsib : f.sib.ptr ≠ some a := by
            intro heq
            exact h.disjoint (ptr_mem_addrs rfl) (by simp [ctxAddrs, ptr_mem_addrs heq])
          have hleft : ((Cell.of f.side (some a) f.sib.ptr (parentOf k) f.v).left == some a)
              = (f.side == .left) := by
            cases f.side with
            | left => simp [Cell.of]
            | right => simpa [Cell.of] using hsib
          show redLeftChild m a = some (true && (f.side == .left))
          rw [← hleft]
          simp [redLeftChild, ha, hred, parentOf, hf, ptr]

/-! ## What a tree holds -/

/-- The nodes in order, each with its address and data; colours and shape are
    forgotten. -/
def items : LTree (NodeVal δ) → List (Nat × δ)
  | .nil => []
  | .node a l v r => items l ++ (a, v.data) :: items r

/-- The nodes of a context that come before its hole. -/
def before : List (Frame (NodeVal δ)) → List (Nat × δ)
  | [] => []
  | f :: k => before k ++ match f.side with
      | .left => []
      | .right => items f.sib ++ [(f.a, f.v.data)]

/-- The nodes of a context that come after its hole. -/
def after : List (Frame (NodeVal δ)) → List (Nat × δ)
  | [] => []
  | f :: k => (match f.side with
      | .left => (f.a, f.v.data) :: items f.sib
      | .right => []) ++ after k

theorem items_plug (k : List (Frame (NodeVal δ))) : ∀ t : LTree (NodeVal δ),
    items (plug k t) = before k ++ items t ++ after k := by
  induction k with
  | nil =>
      intro t
      show items t = [] ++ items t ++ []
      rw [List.append_nil, List.nil_append]
  | cons f k ih =>
      intro t
      obtain ⟨side, a, v, u⟩ := f
      show items (plug k (Frame.fill ⟨side, a, v, u⟩ t)) = _
      rw [ih]
      cases side with
      | left => simp [before, after, Frame.fill, join, items]
      | right => simp [before, after, Frame.fill, join, items]

theorem items_blacken (t : LTree (NodeVal δ)) : items (blacken t) = items t := by
  cases t <;> rfl

theorem addrs_perm (t : LTree (NodeVal δ)) : t.addrs.Perm ((items t).map Prod.fst) := by
  induction t with
  | nil => exact List.Perm.refl _
  | node a l v r ihl ihr =>
      show (a :: (l.addrs ++ r.addrs)).Perm ((items l ++ (a, v.data) :: items r).map Prod.fst)
      rw [List.map_append, List.map_cons]
      exact (List.Perm.cons a (ihl.append ihr)).trans List.perm_middle.symm

/-! ## The search for the insert position -/

/-- The path to the hole went left where the data is smaller and right where it is
    larger. -/
def Searched (H : Hooks δ) (data : δ) (k : List (Frame (NodeVal δ))) : Prop :=
  ∀ f ∈ k, match f.side with
    | .left => H.nodeCmp data f.v.data < 0
    | .right => 0 < H.nodeCmp data f.v.data

theorem Searched.cons {H : Hooks δ} {data : δ} {f : Frame (NodeVal δ)}
    {k : List (Frame (NodeVal δ))} (h : Searched H data k)
    (hf : match f.side with
      | .left => H.nodeCmp data f.v.data < 0
      | .right => 0 < H.nodeCmp data f.v.data) : Searched H data (f :: k) := by
  intro g hg
  cases List.mem_cons.mp hg with
  | inl heq => rw [heq]; exact hf
  | inr hk => exact h g hk

/-- In a tree sorted by `R`, all in front of the place where a search ends is `Lo` and all behind
    it `Hi`, if the data passed on the way are and `R` carries both over. -/
theorem Searched.separates {H : Hooks δ} {data : δ} {R : δ → δ → Prop} {Lo Hi : δ → Prop}
    (hlo : ∀ d, 0 < H.nodeCmp data d → Lo d) (hhi : ∀ d, H.nodeCmp data d < 0 → Hi d)
    (hdown : ∀ {d e}, R d e → Lo e → Lo d) (hup : ∀ {d e}, R d e → Hi d → Hi e) :
    ∀ {k : List (Frame (NodeVal δ))}, Searched H data k →
      ((before k ++ after k).map Prod.snd).Pairwise R →
      (∀ d ∈ (before k).map Prod.snd, Lo d) ∧ (∀ d ∈ (after k).map Prod.snd, Hi d) := by
  intro k
  induction k with
  | nil =>
      intro _ _
      exact ⟨fun _ h => absurd h List.not_mem_nil, fun _ h => absurd h List.not_mem_nil⟩
  | cons f k ih =>
      intro hs hsort
      obtain ⟨side, a, v, u⟩ := f
      have hf := hs _ (List.mem_cons_self ..)
      have hk : Searched H data k := fun g hg => hs g (List.mem_cons_of_mem _ hg)
      cases side with
      | left =>
          have hv : Hi v.data := hhi v.data hf
          simp only [before, after, List.append_nil, List.cons_append, List.map_append,
            List.map_cons, List.pairwise_append, List.pairwise_cons, List.mem_append,
            List.mem_cons] at hsort ih ⊢
          obtain ⟨hb, ⟨hvu, -, ha, -⟩, hcross⟩ := hsort
          obtain ⟨ihb, iha⟩ := ih hk ⟨hb, ha, fun d hd e he => hcross d hd e (Or.inr (Or.inr he))⟩
          refine ⟨ihb, ?_⟩
          rintro d (rfl | hd | hd)
          · exact hv
          · exact hup (hvu d (Or.inl hd)) hv
          · exact iha d hd
      | right =>
          have hv : Lo v.data := hlo v.data hf
          simp only [before, after, List.nil_append, List.map_append, List.map_cons, List.map_nil,
            List.pairwise_append, List.mem_append, List.mem_singleton] at hsort ih ⊢
          obtain ⟨⟨hb, ⟨-, -, huv⟩, -⟩, ha, hcross⟩ := hsort
          obtain ⟨ihb, iha⟩ := ih hk ⟨hb, ha, fun d hd e he => hcross d (Or.inl hd) e he⟩
          refine ⟨?_, iha⟩
          rintro d (hd | hd | rfl)
          · exact ihb d hd
          · exact hdown (huv d hd v.data rfl) hv
          · exact hv

/-- The end of a search whose focus is `t` in `k`. -/
def landing : LTree (NodeVal δ) → List (Frame (NodeVal δ)) → Descent
  | .nil, k => .leaf (parentOf k)
  | .node a _ _ _, _ => .found a

/-- The search ends at a node with an equal key or at an empty place. -/
theorem descend_spec (H : Hooks δ) {m : Mem (NodeVal δ)} {root : Option Nat} (data : δ) :
    ∀ (t : LTree (NodeVal δ)) (k : List (Frame (NodeVal δ))), Focus m root t k →
      Searched H data k → ∃ t' k', plug k' t' = plug k t ∧ Focus m root t' k' ∧
        Searched H data k' ∧ (∀ a l v r, t' = .node a l v r → H.nodeCmp data v.data = 0) ∧
        ∀ fuel, t.height < fuel →
          loop (rbtreeDescendPass H m data) fuel (t.ptr, parentOf k) = some (landing t' k') := by
  intro t
  induction t with
  | nil =>
      intro k hf hs
      refine ⟨.nil, k, rfl, hf, hs, (fun _ _ _ _ h => nomatch h), ?_⟩
      exact fun fuel hfuel => loop_done (by omega) rfl
  | node a l v r ihl ihr =>
      intro k hf hs
      have ha := hf.tree.1
      have hheight : (LTree.node a l v r).height = max l.height r.height + 1 := rfl
      rcases lt_trichotomy (H.nodeCmp data v.data) 0 with hlt | heq | hgt
      · -- smaller: go left
        have hfl := focus_fill (f := ⟨.left, a, v, r⟩).mp hf
        obtain ⟨t', k', hplug, hf', hs', hend, hrun⟩ := ihl _ hfl (hs.cons hlt)
        refine ⟨t', k', hplug, hf', hs', hend, ?_⟩
        intro fuel hfuel
        have hpass : rbtreeDescendPass H m data (some a, parentOf k)
            = some (.next (l.ptr, some a)) := by
          simp [rbtreeDescendPass, ha, hlt, hlt.ne]
        exact (loop_next (by omega) hpass).trans (hrun _ (by omega))
      · -- equal: stop here
        refine ⟨.node a l v r, k, rfl, hf, hs, ?_, ?_⟩
        · intro a' l' v' r' h
          cases h
          exact heq
        · intro fuel hfuel
          refine loop_done (by omega) ?_
          simp [rbtreeDescendPass, ha, heq, ptr, landing]
      · -- larger: go right
        have hfr := focus_fill (f := ⟨.right, a, v, l⟩).mp hf
        obtain ⟨t', k', hplug, hf', hs', hend, hrun⟩ := ihr _ hfr (hs.cons hgt)
        refine ⟨t', k', hplug, hf', hs', hend, ?_⟩
        intro fuel hfuel
        have hpass : rbtreeDescendPass H m data (some a, parentOf k)
            = some (.next (r.ptr, some a)) := by
          simp [rbtreeDescendPass, ha, hgt.ne', not_lt_of_gt hgt]
        exact (loop_next (by omega) hpass).trans (hrun _ (by omega))

/-! ## The fix-up loop -/

/-- The memory holds the balanced tree `t`. -/
structure Balanced (tr : Rb δ) (t : LTree (NodeVal δ)) : Prop where
  focus : Focus tr.mem tr.root t []
  black : isRed t = false
  leaning : ∃ n, Leaning t n

/-- The tree is balanced, holds `its`, and `fr` has been freed so far. -/
def Settled (its : List (Nat × δ)) (fr : List δ) (tr : Rb δ) : Prop :=
  tr.freed = fr ∧ ∃ t, Balanced tr t ∧ items t = its

def rightRed : LTree (NodeVal δ) → Bool
  | .nil => false
  | .node _ _ _ r => isRed r

/-- The invariant of the fix-up loop: the tree holds `its` and its only violation is
    at `p`, or `p` is null and there is none.  A flip and a right rotation bring `p`
    closer to the root; a left rotation does not, but leaves no red child on the
    right. -/
def Fixing (its : List (Nat × δ)) (fr : List δ) (n : Nat) (st : Rb δ × Option Nat) : Prop :=
  (st.2 = none ∧ Settled its fr st.1) ∨
  (st.1.freed = fr ∧ ∃ t k, st.2 = t.ptr ∧ Focus st.1.mem st.1.root t k ∧ Hot t k ∧
    items (plug k t) = its ∧ n = 2 * k.length + if rightRed t then 1 else 0)

section Pass
variable {tr : Rb δ} {a : Nat} {l r : LTree (NodeVal δ)} {v : NodeVal δ}
  {k : List (Frame (NodeVal δ))} (hf : Focus tr.mem tr.root (.node a l v r) k)
  (hot : Hot (.node a l v r) k)

include hf in
/-- The colours the loop body looks at. -/
theorem fixup_reads : tr.mem a = some ⟨l.ptr, r.ptr, parentOf k, v⟩ ∧
    rbtreeIsRed tr.mem l.ptr = some (isRed l) ∧ rbtreeIsRed tr.mem r.ptr = some (isRed r) ∧
    redLeftChild tr.mem a = some (v.red && inLeftHole k) :=
  ⟨hf.tree.1, rbtreeIsRed_spec hf.tree.2.1, rbtreeIsRed_spec hf.tree.2.2, redLeftChild_spec hf⟩

include hf hot in
/-- Cases (1) and (2). -/
theorem fixup_flip (hl : isRed l = true) (hr : isRed r = true) :
    ∃ st' n', rbtreeFixupPass (tr, some a) = some (.next st') ∧
      n' < 2 * k.length + 1 ∧ Fixing (items (plug k (.node a l v r))) tr.freed n' st' := by
  obtain ⟨ha, hL, hR, hLC⟩ := fixup_reads hf
  obtain ⟨m', hflip, hf'⟩ := rbtreeFlipcolor_spec hf hl hr
  have hnext : rbtreeFixupPass (tr, some a) = some (.next ({ tr with mem := m' }, parentOf k)) := by
    simp only [rbtreeFixupPass, ha, hL, hR, hLC, hl, hr, hflip, hf'.tree.1, Option.bind_eq_bind,
      Option.bind_some, Bool.and_self, if_true]
  have hitems : ∀ c, items (plug k (.node a (blacken l) ⟨c, v.data⟩ (blacken r)))
      = items (plug k (.node a l v r)) := by
    intro c
    rw [items_plug, items_plug]
    simp only [items, items_blacken]
  cases k with
  | nil =>
      obtain ⟨N, hN⟩ := leaning_flip_root hot hl hr
      exact ⟨_, 0, hnext, Nat.succ_pos _, Or.inl ⟨rfl, rfl, _, ⟨hf', rfl, N, hN⟩, hitems false⟩⟩
  | cons f k =>
      refine ⟨_, _, hnext, ?_, Or.inr ⟨rfl, f.fill _, k, (join_ptr ..).symm, focus_fill.mpr hf',
        hot_flip hot hl hr, hitems true, rfl⟩⟩
      rw [List.length_cons]
      split <;> omega

include hf hot in
/-- Case (3). -/
theorem fixup_right (hl : isRed l = true) (hr : isRed r = false) (hv : v.red = true)
    (hk : inLeftHole k = true) :
    ∃ st' n', rbtreeFixupPass (tr, some a) = some (.next st') ∧
      n' < 2 * k.length ∧ Fixing (items (plug k (.node a l v r))) tr.freed n' st' := by
  obtain ⟨ha, hL, hR, hLC⟩ := fixup_reads hf
  cases k with
  | nil => exact nomatch hk
  | cons f k =>
      obtain ⟨side, g, vg, u⟩ := f
      obtain ⟨rfl, hot'⟩ := hot_rotate_right hot hv hl
      have habove : Focus tr.mem tr.root (join .right g u vg (join .right a r v l)) k :=
        focus_fill (f := ⟨.left, g, vg, u⟩).mpr hf
      obtain ⟨tr', hrot, hfreed, hf'⟩ := rbtreeRotate_spec habove
      have hrot' : rbtreeRightRotate tr (some g) = some (tr', some a) := hrot
      refine ⟨(tr', some a), 2 * k.length + 1, ?_, ?_, Or.inr ⟨hfreed, _, k, rfl, hf', hot', ?_, ?_⟩⟩
      · simp [rbtreeFixupPass, ha, hL, hR, hLC, hl, hr, hv, hk, parentOf, hrot']
      · rw [List.length_cons]
        omega
      · rw [items_plug, items_plug]
        simp [items, join, before, after]
      · rfl

include hf hot in
/-- Cases (4) and (5): whatever stands above, the loop rotates left. -/
theorem fixup_left (hl : isRed l = false) (hr : isRed r = true) :
    ∃ st' n', rbtreeFixupPass (tr, some a) = some (.next st') ∧
      n' < 2 * k.length + 1 ∧ Fixing (items (plug k (.node a l v r))) tr.freed n' st' := by
  obtain ⟨ha, hL, hR, hLC⟩ := fixup_reads hf
  cases r with
  | nil => exact nomatch hr
  | node y B vy C =>
      obtain ⟨hot', hC⟩ := hot_rotate_left hot hr hl
      obtain ⟨tr', hrot, hfreed, hf'⟩ := rbtreeRotate_spec (s := .left) hf
      have hrot' : rbtreeLeftRotate tr (some a) = some (tr', some y) := hrot
      refine ⟨(tr', some y), 2 * k.length, ?_, ?_, Or.inr ⟨hfreed, _, k, rfl, hf', hot', ?_, ?_⟩⟩
      · simp [rbtreeFixupPass, ha, hL, hR, hLC, hl, hr, hrot']
      · omega
      · rw [items_plug, items_plug]
        simp [items, join]
      · show 2 * k.length = 2 * k.length + if isRed C then 1 else 0
        rw [hC]
        rfl

include hf hot in
/-- No case applies: the loop stops, and the tree is balanced. -/
theorem fixup_stop (hr : isRed r = false) (hcool : (isRed l && (v.red && inLeftHole k)) = false) :
    rbtreeFixupPass (tr, some a) = some (.done tr) ∧
      Settled (items (plug k (.node a l v r))) tr.freed tr := by
  obtain ⟨ha, hL, hR, hLC⟩ := fixup_reads hf
  have hpass : rbtreeFixupPass (tr, some a) = some (.done tr) := by
    simp only [rbtreeFixupPass, ha, hL, hR, hLC, hr, hcool, Bool.and_false, Bool.false_and,
      Option.bind_eq_bind, Option.bind_some, Bool.false_eq_true, if_false]
  have hblack : isRed l = true → v.red = false := by
    intro hl
    rw [hl, Bool.true_and] at hcool
    cases hv : v.red with
    | false => rfl
    | true =>
        -- a red node sits in the left hole of a black one
        obtain ⟨n, -, -, hfits, -⟩ := hot
        rw [hv] at hfits hcool
        obtain ⟨_, _, _, _, rfl, -⟩ := hfits.of_red
        exact nomatch hcool
  obtain ⟨hroot, hlean⟩ := leaning_of_cool hot hr hblack
  exact ⟨hpass, rfl, _, ⟨focus_plug.mp hf, hroot, hlean⟩, rfl⟩

end Pass

/-- **One pass of the fix-up loop.** -/
theorem rbtreeFixupPass_spec (its : List (Nat × δ)) (fr : List δ) (n : Nat)
    (st : Rb δ × Option Nat) (h : Fixing its fr n st) :
    (∃ tr', rbtreeFixupPass st = some (.done tr') ∧ Settled its fr tr') ∨
    (∃ st' n', rbtreeFixupPass st = some (.next st') ∧ n' < n ∧ Fixing its fr n' st') := by
  obtain ⟨tr, p⟩ := st
  rcases h with ⟨hp, hset⟩ | ⟨hfr, t, k, hp, hf, hot, hits, hn⟩
  · obtain rfl : p = none := hp
    exact Or.inl ⟨tr, rfl, hset⟩
  · cases t with
    | nil => exact hot.elim
    | node a l v r =>
        obtain rfl : p = some a := hp
        obtain rfl : tr.freed = fr := hfr
        subst hits
        have hn' : n = 2 * k.length + if isRed r then 1 else 0 := hn
        cases hr : isRed r with
        | true =>
            rw [hr] at hn'
            obtain rfl : n = 2 * k.length + 1 := hn'
            cases hl : isRed l with
            | true => exact Or.inr (fixup_flip hf hot hl hr)
            | false => exact Or.inr (fixup_left hf hot hl hr)
        | false =>
            rw [hr] at hn'
            obtain rfl : n = 2 * k.length := hn'
            cases hcool : isRed l && (v.red && inLeftHole k) with
            | false => exact Or.inl ⟨tr, fixup_stop hf hot hr hcool⟩
            | true =>
                simp only [Bool.and_eq_true] at hcool
                exact Or.inr (fixup_right hf hot hcool.1 hr hcool.2.1 hcool.2.2)

/-! ## Insertion -/

/-- What one insertion does to the nodes in order: a new node where the search
    ended, or new data in a node with an equal key.  The last argument is the data
    freed. -/
inductive Step (H : Hooks δ) (new : Nat) (data : δ) :
    List (Nat × δ) → List (Nat × δ) → List δ → Prop where
  | fresh (k : List (Frame (NodeVal δ))) : Searched H data k →
      Step H new data (before k ++ after k) (before k ++ (new, data) :: after k) []
  | replace (xs ys : List (Nat × δ)) (a : Nat) (d : δ) : H.nodeCmp data d = 0 →
      Step H new data (xs ++ (a, d) :: ys) (xs ++ (a, data) :: ys)
        (if H.nodeDataFree then [d] else [])

theorem Leaning.setData {a : Nat} {l r : LTree (NodeVal δ)} {v : NodeVal δ} {n : Nat}
    (h : Leaning (.node a l v r) n) (data : δ) : Leaning (.node a l ⟨v.red, data⟩ r) n := by
  cases h with
  | black hl hr hrr => exact Leaning.black hl hr hrr
  | red hl hr hlr hrr => exact Leaning.red hl hr hlr hrr

/-- An equal key: the data is replaced. -/
theorem insert_replace {tr : Rb δ} {a : Nat} {l r : LTree (NodeVal δ)}
    {v : NodeVal δ} {k : List (Frame (NodeVal δ))}
    (hb : Balanced tr (plug k (.node a l v r))) (data : δ) :
    ∃ m, (modify tr.mem a fun n => { n with val := { n.val with data := data } }) = some m ∧
      Balanced { tr with mem := m } (plug k (.node a l ⟨v.red, data⟩ r)) := by
  have hf := focus_plug.mpr hb.focus
  obtain ⟨m, hmod, ha, hfar⟩ :=
    modify_spec hf.tree.1 fun n => { n with val := { n.val with data := data } }
  have hf' : Focus m tr.root (.node a l ⟨v.red, data⟩ r) k := by
    refine hf.setVal _ ?_ hfar
    rw [ha, hf.tree.1]
    rfl
  obtain ⟨N, hN⟩ := hb.leaning
  obtain ⟨n, hn, hfits⟩ := fits_of_leaning k hN hb.black
  obtain ⟨hblack, hlean⟩ := hfits.plug (t := .node a l ⟨v.red, data⟩ r) rfl (hn.setData data)
  exact ⟨m, hmod, focus_plug.mp hf', hblack, hlean⟩

/-- A new key: the node is hung in as a red leaf, and the node above may be in
    violation. -/
theorem insert_attach {H : Hooks δ} {tr : Rb δ} {f : Frame (NodeVal δ)}
    {k : List (Frame (NodeVal δ))} (hb : Balanced tr (plug (f :: k) .nil)) {new : Nat}
    (hfresh : new ∉ (plug (f :: k) .nil).addrs) {data : δ} (hs : Searched H data (f :: k)) :
    ∃ cy m1 m2, Function.update tr.mem new (some ⟨none, none, none, ⟨true, data⟩⟩) f.a = some cy ∧
      modify (Function.update tr.mem new (some ⟨none, none, none, ⟨true, data⟩⟩)) f.a (fun n =>
        n.setChild (if H.nodeCmp data cy.val.data < 0 then .left else .right) (some new)) = some m1 ∧
      modify m1 new (fun n => { n with p := some f.a }) = some m2 ∧
      Focus m2 tr.root (f.fill (.node new .nil ⟨true, data⟩ .nil)) k ∧
      Hot (f.fill (.node new .nil ⟨true, data⟩ .nil)) k := by
  have hf : Focus tr.mem tr.root .nil (f :: k) := focus_plug.mpr hb.focus
  have hnot : new ∉ ctxAddrs (f :: k) := by
    rw [(plug_addrs (f :: k) .nil).mem_iff] at hfresh
    exact hfresh
  have hne : f.a ≠ new := by
    intro heq
    rw [← heq] at hnot
    exact hnot (List.mem_cons_self ..)
  have hside : (if H.nodeCmp data f.v.data < 0 then Side.left else Side.right) = f.side := by
    have := hs f (List.mem_cons_self ..)
    cases hf : f.side with
    | left =>
        rw [hf] at this
        exact if_pos this
    | right =>
        rw [hf] at this
        exact if_neg (not_lt_of_gt this)
  have hcell := hf.ctx.1
  have hcell0 : Function.update tr.mem new (some ⟨none, none, none, ⟨true, data⟩⟩) f.a
      = some (Cell.of f.side none f.sib.ptr (parentOf k) f.v) := by
    rw [Function.update_of_ne hne]
    exact hcell
  obtain ⟨m1, h1, hf1, hfar1⟩ := modify_spec hcell0 fun n => n.setChild f.side (some new)
  rw [Cell.of_setChild] at hf1
  have hnew1 : m1 new = some ⟨none, none, none, ⟨true, data⟩⟩ := by
    rw [hfar1 new hne.symm, Function.update_self]
  obtain ⟨m2, h2, hnew2, hfar2⟩ := modify_spec hnew1 fun n => { n with p := some f.a }
  refine ⟨_, m1, m2, hcell0, ?_, h2, ?_, ?_⟩
  · rw [Cell.of_val, hside]
    exact h1
  · refine focus_fill.mpr (hf.attach hnot _ hnew2 ?_ ?_)
    · rw [hfar2 f.a hne, hf1]
    · intro b hbn hbf
      rw [hfar2 b hbn, hfar1 b hbf, Function.update_of_ne hbn]
  · obtain ⟨N, hN⟩ := hb.leaning
    obtain ⟨n, hn, hfits⟩ := fits_of_leaning (f :: k) hN hb.black
    cases hn
    exact hot_of_fits hfits (Leaning.red Leaning.nil Leaning.nil rfl rfl)

/-- **One insertion** keeps the tree balanced, and says what it did to the nodes. -/
theorem rbtreeInsert_spec (H : Hooks δ) {tr : Rb δ} {t : LTree (NodeVal δ)} (hb : Balanced tr t)
    {new : Nat} (hfresh : new ∉ t.addrs) (data : δ) :
    ∃ tr' x t' gone,
      (∀ fuel, 2 * t.height + 1 < fuel → rbtreeInsert H fuel tr new data = some (tr', x)) ∧
      Balanced tr' t' ∧ Step H new data (items t) (items t') gone ∧
      tr'.freed = tr.freed ++ gone := by
  cases t with
  | nil =>
      have hroot : tr.root = none := hb.focus.ctx
      refine ⟨⟨some new, Function.update tr.mem new (some ⟨none, none, none, ⟨false, data⟩⟩),
        tr.freed⟩, new, .node new .nil ⟨false, data⟩ .nil, [], ?_, ?_, ?_,
        (List.append_nil _).symm⟩
      · intro fuel _
        simp only [rbtreeInsert, hroot]
      · refine ⟨⟨⟨Function.update_self .., trivial, trivial⟩, rfl, ?_⟩, rfl, 1, ?_⟩
        · exact List.nodup_singleton new
        · exact Leaning.black Leaning.nil Leaning.nil rfl
      · exact Step.fresh [] (fun f hf => nomatch hf)
  | node a l v r =>
      have hroot : tr.root = some a := hb.focus.ctx
      obtain ⟨t', k, hplug, hf, hs, hend, hrun⟩ :=
        descend_spec H data _ [] hb.focus (fun f hf => nomatch hf)
      have hplug' : plug k t' = .node a l v r := hplug
      rw [← hplug'] at hb hfresh ⊢
      have hrun' : ∀ fuel, 2 * (plug k t').height + 1 < fuel →
          loop (rbtreeDescendPass H tr.mem data) fuel (some a, none) = some (landing t' k) := by
        intro fuel hfuel
        rw [hplug'] at hfuel
        exact hrun fuel (by omega)
      cases t' with
      | node x l' v' r' =>
          obtain ⟨m, hmod, hb'⟩ := insert_replace hb data
          have hx := (focus_plug.mpr hb.focus).tree.1
          refine ⟨⟨tr.root, m, if H.nodeDataFree then tr.freed ++ [v'.data] else tr.freed⟩, x,
            plug k (.node x l' ⟨v'.red, data⟩ r'), if H.nodeDataFree then [v'.data] else [],
            ?_, ⟨hb'.focus, hb'.black, hb'.leaning⟩, ?_, ?_⟩
          · intro fuel hfuel
            simp only [rbtreeInsert, hroot, hrun' fuel hfuel, landing, hx, hmod,
              Option.bind_eq_bind, Option.bind_some]
          · rw [items_plug, items_plug]
            have hstep : Step H new data _ _ _ := Step.replace (before k ++ items l')
              (items r' ++ after k) x v'.data (hend x l' v' r' rfl)
            simpa [items] using hstep
          · cases H.nodeDataFree with
            | true => rfl
            | false => exact (List.append_nil _).symm
      | nil =>
          cases k with
          | nil => exact nomatch hplug'
          | cons f k =>
              obtain ⟨cy, m1, m2, hcy, h1, h2, hf2, hot⟩ := insert_attach hb hfresh hs
              have hitems : items (plug k (f.fill (.node new .nil ⟨true, data⟩ .nil)))
                  = before (f :: k) ++ (new, data) :: after (f :: k) := by
                show items (plug (f :: k) (.node new .nil ⟨true, data⟩ .nil)) = _
                rw [items_plug, List.append_assoc]
                rfl
              obtain ⟨tr', ⟨hfreed, t', hb', hits⟩, hfix⟩ :=
                loop_total (rbtreeFixupPass_spec _ tr.freed) _ ({ tr with mem := m2 }, some f.a)
                  (Or.inr ⟨rfl, _, k, (join_ptr ..).symm, hf2, hot, hitems, rfl⟩)
              refine ⟨tr', new, t', [], ?_, hb', ?_, ?_⟩
              · intro fuel hfuel
                have hlen : (f :: k).length + 0 ≤ (plug (f :: k) .nil).height :=
                  length_add_height_le (f :: k) (.nil : LTree (NodeVal δ))
                have hfix' := hfix fuel (by
                  rw [List.length_cons] at hlen
                  split <;> omega)
                rw [hroot] at hfix'
                simp only [rbtreeInsert, hroot, hrun' fuel hfuel, landing, parentOf, hcy, h1, h2,
                  hfix', Option.bind_eq_bind, Option.bind_some]
              · rw [hits, items_plug]
                have hstep : Step H new data _ _ _ := Step.fresh (f :: k) hs
                simpa [items] using hstep
              · rw [hfreed, List.append_nil]

/-! ## Every sequence of insertions -/

theorem length_items (t : LTree (NodeVal δ)) : (items t).length = t.size := by
  induction t with
  | nil => rfl
  | node a l v r ihl ihr =>
      show (items l ++ (a, v.data) :: items r).length = l.size + 1 + r.size
      rw [List.length_append, List.length_cons, ihl, ihr]
      omega

theorem Step.length_le {H : Hooks δ} {new : Nat} {data : δ} {its its' : List (Nat × δ)}
    {gone : List δ} (h : Step H new data its its' gone) : its'.length ≤ its.length + 1 := by
  cases h with
  | fresh k _ => simp only [List.length_append, List.length_cons]; omega
  | replace xs ys a d _ => simp only [List.length_append, List.length_cons]; omega

/-- The only address an insertion can add is that of the new node. -/
theorem Step.addr_mem {H : Hooks δ} {new : Nat} {data : δ} {its its' : List (Nat × δ)}
    {gone : List δ} (h : Step H new data its its' gone) {b : Nat}
    (hb : b ∈ its'.map Prod.fst) : b = new ∨ b ∈ its.map Prod.fst := by
  cases h with
  | fresh k _ =>
      rw [List.map_append, List.map_cons, List.mem_append, List.mem_cons] at hb
      rw [List.map_append, List.mem_append]
      tauto
  | replace xs ys a d _ =>
      rw [List.map_append, List.map_cons] at hb ⊢
      exact Or.inr hb

/-- **The rule for sequences of insertions**: they all return, the tree is balanced,
    and whatever every step keeps holds at the end. -/
theorem insertAll_spec (H : Hooks δ) {P : List δ → List (Nat × δ) → List δ → Prop}
    (hstep : ∀ ds its fr new data its' gone, P ds its fr → Step H new data its its' gone →
      P (ds ++ [data]) its' (fr ++ gone)) :
    ∀ (calls : List (Nat × δ)) (ds : List δ) {tr : Rb δ} {t : LTree (NodeVal δ)},
      Balanced tr t → P ds (items t) tr.freed → (calls.map Prod.fst).Nodup →
      (∀ c ∈ calls, c.1 ∉ t.addrs) →
      ∃ tr' t', (∀ fuel, 2 * (t.size + calls.length) ≤ fuel →
        insertAll H fuel tr calls = some tr') ∧
        Balanced tr' t' ∧ P (ds ++ calls.map Prod.snd) (items t') tr'.freed := by
  intro calls
  induction calls with
  | nil =>
      intro ds tr t hb hP _ _
      refine ⟨tr, t, fun _ _ => rfl, hb, ?_⟩
      rw [List.map_nil, List.append_nil]
      exact hP
  | cons c calls ih =>
      intro ds tr t hb hP hnd hfresh
      obtain ⟨new, data⟩ := c
      rw [List.map_cons, List.nodup_cons] at hnd
      obtain ⟨tr1, x, t1, gone, hrun1, hb1, hs, hfreed⟩ :=
        rbtreeInsert_spec H hb (hfresh _ (List.mem_cons_self ..)) data
      have hP1 : P (ds ++ [data]) (items t1) tr1.freed := by
        rw [hfreed]
        exact hstep _ _ _ _ _ _ _ hP hs
      have hfresh1 : ∀ c ∈ calls, c.1 ∉ t1.addrs := by
        intro c hc hin
        rw [(addrs_perm t1).mem_iff] at hin
        rcases hs.addr_mem hin with heq | hold
        · exact hnd.1 (heq ▸ List.mem_map_of_mem hc)
        · rw [← (addrs_perm t).mem_iff] at hold
          exact hfresh c (List.mem_cons_of_mem _ hc) hold
      obtain ⟨tr', t', hrun, hb', hP'⟩ := ih _ hb1 hP1 hnd.2 hfresh1
      refine ⟨tr', t', ?_, hb', ?_⟩
      · intro fuel hfuel
        have hsize : t1.size ≤ t.size + 1 := by
          rw [← length_items, ← length_items]
          exact hs.length_le
        have hheight := t.height_le_size
        rw [List.length_cons] at hfuel
        have h1 := hrun1 fuel (by omega)
        simp only [insertAll, h1, Option.bind_eq_bind, Option.bind_some]
        exact hrun fuel (by omega)
      · rw [List.append_assoc] at hP'
        exact hP'

/-- The empty tree is balanced. -/
theorem balanced_emptyTree : Balanced (emptyTree : Rb δ) .nil :=
  ⟨⟨trivial, rfl, List.nodup_nil⟩, rfl, 0, Leaning.nil⟩

/-- **Every sequence of insertions** into an empty tree returns, each call at a fresh
    node, and leaves a left-leaning red-black tree: linked with correct parent
    pointers, black at the root, no red right child, no red node under a red one on
    the left, as many black nodes on every path, and of logarithmic height. -/
theorem rbtree_insert_left_leaning (H : Hooks δ) (calls : List (Nat × δ))
    (hfresh : (calls.map Prod.fst).Nodup) :
    ∃ tr t, (∀ fuel, 2 * calls.length ≤ fuel → insertAll H fuel emptyTree calls = some tr) ∧
      tr.root = t.ptr ∧ Reps tr.mem none t ∧ t.addrs.Nodup ∧
      isRed t = false ∧ NoRedRight t ∧ NoRedRed t ∧ (∃ n, ∀ c ∈ blackCounts t, c = n) ∧
      (t.height : ℝ) ≤ 2 * Real.logb 2 (t.size + 1) := by
  obtain ⟨tr, t, hrun, hb, -⟩ := insertAll_spec H (P := fun _ _ _ => True)
    (fun _ _ _ _ _ _ _ _ _ => trivial) calls [] balanced_emptyTree trivial hfresh
    (fun _ _ h => nomatch h)
  obtain ⟨n, hn⟩ := hb.leaning
  refine ⟨tr, t, ?_, hb.focus.ctx, hb.focus.tree, ?_, hb.black, hn.noRedRight, hn.noRedRed,
    ⟨n, hn.blackCounts_eq⟩, hn.height_le_logb hb.black⟩
  · intro fuel hfuel
    exact hrun fuel (by rw [show (LTree.nil : LTree (NodeVal δ)).size = 0 from rfl]; omega)
  · exact (List.nodup_append.mp hb.focus.nodup).1

/-- Five insertions, one of them with an equal key. -/
theorem rbtree_insert_left_leaning_five :
    ∃ tr t, (∀ fuel, 10 ≤ fuel → insertAll ⟨fun a b : Int => a - b, true⟩ fuel emptyTree
        [(1, 30), (2, 10), (3, 20), (4, 10), (5, 40)] = some tr) ∧
      tr.root = t.ptr ∧ Reps tr.mem none t ∧ t.addrs.Nodup ∧
      isRed t = false ∧ NoRedRight t ∧ NoRedRed t ∧ (∃ n, ∀ c ∈ blackCounts t, c = n) ∧
      (t.height : ℝ) ≤ 2 * Real.logb 2 (t.size + 1) :=
  rbtree_insert_left_leaning _ [(1, 30), (2, 10), (3, 20), (4, 10), (5, 40)] (by decide)

end RbTree
