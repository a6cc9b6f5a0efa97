import CppTest.MachineProofs
import CppTest.LinkedListProofs
import CppTest.RunsProofs

/-! # Bottom-up merge sort of a linked list

    The two sorts of `src/algs/merge_sort_link_list/` change the links of a list and have one
    shape: they go over the list again and again, each time merging runs of `insize` cells two by
    two into a new list.  What they do apart is how a run is found (`step`) and which of two
    cells is first (`first`).

    * `mergeLoop_spec` — the inner loop merges two runs, in the memory that `Building` describes.
    * `sweep_spec` — a go over the list computes `mergeRuns` on the addresses; the cells that are
      still to be merged have the links they had before it.
    * `sort_loop` — the passes double `insize`, so after the last the runs are the whole list. -/

namespace ListSort

open Machine LinkedRing LinkedList Runs

/-! ## The model -/

section Model

variable {κ : Type}

/-- Stepping `insize` places along from `q`: where this ends, and `psize`.  It ends early where
    the list does. -/
def stepAlong (stop : Option Nat) (m : Mem κ) : Nat → Nat → Nat → Option (Option Nat × Nat)
  | 0, q, psize => some (some q, psize)
  | i + 1, q, psize => do
      match ← follow stop m q with
      | none => some (none, psize + 1)
      | some q => stepAlong stop m i q (psize + 1)

/-- The variables of the loop that merges two runs. -/
structure Merging (κ : Type) where
  mem : Mem κ
  p : Option Nat
  psize : Nat
  q : Option Nat
  qsize : Nat
  list : Option Nat
  tail : Option Nat

/-- `e = p; p = p->next; psize--`. -/
def takeP (stop : Option Nat) (s : Merging κ) : Option (Nat × Merging κ) := do
  let e ← s.p
  let p ← follow stop s.mem e
  some (e, { s with p := p, psize := s.psize - 1 })

/-- `e = q; q = q->next; qsize--`. -/
def takeQ (stop : Option Nat) (s : Merging κ) : Option (Nat × Merging κ) := do
  let e ← s.q
  let q ← follow stop s.mem e
  some (e, { s with q := q, qsize := s.qsize - 1 })

/-- The next cell of the merge; `first` says whether `p` goes before `q`. -/
def choose (first : Mem κ → Nat → Nat → Option Bool) (stop : Option Nat) (s : Merging κ) :
    Option (Nat × Merging κ) :=
  if s.psize = 0 then takeQ stop s
  else if s.qsize = 0 ∨ s.q = none then takeP stop s
  else do
    let p ← s.p
    let q ← s.q
    if ← first s.mem p q then takeP stop s else takeQ stop s

/-- Add the next cell to the merged list. -/
def addNext (double : Bool) (e : Nat) (s : Merging κ) : Option (Merging κ) := do
  let (m, list) ← emit double s.mem s.list s.tail e
  some { s with mem := m, list := list, tail := some e }

/-- One pass of the loop that merges two runs. -/
def mergePass (first : Mem κ → Nat → Nat → Option Bool) (stop : Option Nat) (double : Bool)
    (s : Merging κ) : Option (Pass (Merging κ) (Merging κ)) :=
  if 0 < s.psize ∨ (0 < s.qsize ∧ s.q ≠ none) then do
    let (e, s) ← choose first stop s
    let s ← addNext double e s
    some (.next s)
  else some (.done s)

/-- The variables of one go over the list. -/
structure Sweep (κ : Type) where
  mem : Mem κ
  p : Option Nat
  list : Option Nat
  tail : Option Nat
  nmerges : Nat

/-- Merge two runs of `insize` cells, and go on behind them. -/
def mergeTwo (first : Mem κ → Nat → Nat → Option Bool) (fuel : Nat) (stop : Option Nat)
    (double : Bool) (insize : Nat) (s : Sweep κ) (psize : Nat) (q : Option Nat) :
    Option (Sweep κ) := do
  let t ← loop (mergePass first stop double) fuel ⟨s.mem, s.p, psize, q, insize, s.list, s.tail⟩
  some ⟨t.mem, t.q, t.list, t.tail, s.nmerges + 1⟩

/-- One pass of the loop over the list: `step` finds the end of the first run. -/
def sweepPass (first : Mem κ → Nat → Nat → Option Bool)
    (step : Mem κ → Nat → Nat → Option (Option Nat × Nat)) (fuel : Nat) (stop : Option Nat)
    (double : Bool) (insize : Nat) (s : Sweep κ) : Option (Pass (Sweep κ) (Sweep κ)) :=
  match s.p with
  | none => some (.done s)
  | some p => do
      let (q, psize) ← step s.mem insize p
      let s ← mergeTwo first fuel stop double insize s psize q
      some (.next s)

end Model

/-! ## Merging two runs -/

section Merge

variable {κ : Type} {first : Mem κ → Nat → Nat → Option Bool} {le : Nat → Nat → Bool}
  {stop : Option Nat} {double : Bool} {m₀ : Mem κ} {goal rest : List Nat}

/-- `first` is the order `le`, in all memories with these keys. -/
def Decides (first : Mem κ → Nat → Nat → Option Bool) (le : Nat → Nat → Bool) (m₀ : Mem κ)
    (as : List Nat) : Prop :=
  ∀ m, (∀ a, keyAt m a = keyAt m₀ a) → ∀ a ∈ as, ∀ b ∈ as, first m a b = some (le a b)

/-- The loop that merges the runs `ps` and `qs`, with `out` merged so far. -/
structure MergeInv (le : Nat → Nat → Bool) (stop : Option Nat) (double : Bool) (m₀ : Mem κ)
    (goal rest out ps qs : List Nat) (s : Merging κ) : Prop where
  built : Building double m₀ s.mem out s.list s.tail
  left : ∃ x, Walk stop m₀ s.p ps x
  psize : s.psize = ps.length
  right : Walk stop m₀ s.q (qs ++ rest) none
  qsize : s.qsize = qs.length ∨ qs.length ≤ s.qsize ∧ rest = []
  split : out ++ List.merge ps qs le = goal

variable (hgoal : goal.Nodup) (hlive : ∀ a ∈ goal, ∃ c, m₀ a = some c)

include hgoal hlive in
/-- Adding the first cell of what is still to be merged. -/
theorem Building.addNext {out tl : List Nat} {e : Nat} {s : Merging κ}
    (h : Building double m₀ s.mem out s.list s.tail) (hsplit : out ++ e :: tl = goal) :
    ∃ m list, ListSort.addNext double e s = some { s with mem := m, list := list, tail := some e }
      ∧ Building double m₀ m (out ++ [e]) list (some e) := by
  have hgoal' : (out ++ [e]) ++ tl = goal := by
    rw [List.append_assoc, List.singleton_append, hsplit]
  rw [← hgoal'] at hgoal hlive
  obtain ⟨m, hemit, hbuilt⟩ := h.emit (List.nodup_append.mp hgoal).1
    fun a ha => hlive a (List.mem_append_left _ ha)
  refine ⟨m, _, ?_, hbuilt⟩
  simp only [ListSort.addNext, hemit, Option.bind_eq_bind, Option.bind_some]

include hgoal in
/-- A cell that is still to be merged has its old links. -/
theorem follow_old {out tl : List Nat} {e : Nat} {s : Merging κ}
    (h : Building double m₀ s.mem out s.list s.tail) (hsplit : out ++ e :: tl = goal) :
    follow stop s.mem e = follow stop m₀ e := by
  have hout : e ∉ out := by
    rw [← hsplit] at hgoal
    exact fun hin => (List.nodup_append.mp hgoal).2.2 e hin e (List.mem_cons_self ..) rfl
  rw [follow, follow, nextAt, nextAt, h.outside e hout]

include hgoal hlive in
/-- The next cell is the first one of the left run. -/
theorem MergeInv.takeP {out ps qs : List Nat} {e : Nat} {s : Merging κ}
    (h : MergeInv le stop double m₀ goal rest out (e :: ps) qs s)
    (hmerge : List.merge (e :: ps) qs le = e :: List.merge ps qs le) :
    ∃ s', ((ListSort.takeP stop s).bind fun r => ListSort.addNext double r.1 r.2) = some s'
      ∧ MergeInv le stop double m₀ goal rest (out ++ [e]) ps qs s' := by
  obtain ⟨hbuilt, ⟨x, hp, y, hy, hwalk⟩, hpsize, hright, hqsize, hsplit⟩ := h
  rw [hmerge] at hsplit
  have hfollow : follow stop s.mem e = follow stop m₀ e := follow_old hgoal hbuilt hsplit
  obtain ⟨m, list, hadd, hbuilt'⟩ := Building.addNext (s := { s with p := y, psize := s.psize - 1 })
    hgoal hlive hbuilt hsplit
  refine ⟨⟨m, y, s.psize - 1, s.q, s.qsize, list, some e⟩, ?_,
    ⟨hbuilt', ⟨x, hwalk⟩, ?_, hright, hqsize, ?_⟩⟩
  · simp only [ListSort.takeP, hp, hfollow, hy, Option.bind_eq_bind, Option.bind_some, hadd]
  · show s.psize - 1 = ps.length
    rw [hpsize, List.length_cons, Nat.add_sub_cancel]
  · rw [List.append_assoc, List.singleton_append, hsplit]

include hgoal hlive in
/-- The next cell is the first one of the right run. -/
theorem MergeInv.takeQ {out ps qs : List Nat} {e : Nat} {s : Merging κ}
    (h : MergeInv le stop double m₀ goal rest out ps (e :: qs) s)
    (hmerge : List.merge ps (e :: qs) le = e :: List.merge ps qs le) :
    ∃ s', ((ListSort.takeQ stop s).bind fun r => ListSort.addNext double r.1 r.2) = some s'
      ∧ MergeInv le stop double m₀ goal rest (out ++ [e]) ps qs s' := by
  obtain ⟨hbuilt, hleft, hpsize, ⟨hq, y, hy, hwalk⟩, hqsize, hsplit⟩ := h
  rw [hmerge] at hsplit
  have hfollow : follow stop s.mem e = follow stop m₀ e := follow_old hgoal hbuilt hsplit
  obtain ⟨m, list, hadd, hbuilt'⟩ := Building.addNext (s := { s with q := y, qsize := s.qsize - 1 })
    hgoal hlive hbuilt hsplit
  refine ⟨⟨m, s.p, s.psize, y, s.qsize - 1, list, some e⟩, ?_,
    ⟨hbuilt', hleft, hpsize, hwalk, ?_, ?_⟩⟩
  · simp only [ListSort.takeQ, hq, hfollow, hy, Option.bind_eq_bind, Option.bind_some, hadd]
  · show s.qsize - 1 = qs.length ∨ qs.length ≤ s.qsize - 1 ∧ rest = []
    rw [List.length_cons] at hqsize
    rcases hqsize with hqsize | ⟨hqsize, hrest⟩
    · left; omega
    · right; exact ⟨by omega, hrest⟩
  · rw [List.append_assoc, List.singleton_append, hsplit]

theorem mergePass_next {s s' : Merging κ} {r : Option (Nat × Merging κ)}
    (hgo : 0 < s.psize ∨ (0 < s.qsize ∧ s.q ≠ none)) (hchoose : choose first stop s = r)
    (hrun : (r.bind fun r => ListSort.addNext double r.1 r.2) = some s') :
    mergePass first stop double s = some (.next s') := by
  obtain ⟨⟨e, s₁⟩, hr, hadd⟩ := Option.bind_eq_some_iff.mp hrun
  rw [mergePass, if_pos hgo, hchoose, hr]
  simp only [Option.bind_eq_bind, Option.bind_some]
  rw [show addNext double e s₁ = some s' from hadd]
  rfl

/-- The right run is used up: its size is, or the list is. -/
theorem MergeInv.right_nil {out ps : List Nat} {s : Merging κ}
    (h : MergeInv le stop double m₀ goal rest out ps [] s) : s.qsize = 0 ∨ s.q = none := by
  rcases h.qsize with hqsize | ⟨-, hrest⟩
  · exact Or.inl hqsize
  · have hright := h.right
    rw [hrest] at hright
    exact Or.inr hright

/-- The right run is not used up. -/
theorem MergeInv.right_cons {out ps qs : List Nat} {b : Nat} {s : Merging κ}
    (h : MergeInv le stop double m₀ goal rest out ps (b :: qs) s) :
    0 < s.qsize ∧ s.q = some b := by
  refine ⟨?_, h.right.1⟩
  rcases h.qsize with hqsize | ⟨hqsize, -⟩
  · rw [hqsize, List.length_cons]
    exact Nat.succ_pos _
  · rw [List.length_cons] at hqsize
    exact Nat.lt_of_lt_of_le (Nat.succ_pos _) hqsize

/-- **One pass** of the loop: both runs are merged, or one cell is added. -/
theorem MergeInv.pass (hgoal : goal.Nodup) (hlive : ∀ a ∈ goal, ∃ c, m₀ a = some c)
    (hfirst : Decides first le m₀ goal) {out ps qs : List Nat} {s : Merging κ}
    (h : MergeInv le stop double m₀ goal rest out ps qs s) :
    (mergePass first stop double s = some (.done s) ∧ ps = [] ∧ qs = []) ∨
    ∃ s' out' ps' qs', mergePass first stop double s = some (.next s')
      ∧ ps'.length + qs'.length < ps.length + qs.length
      ∧ MergeInv le stop double m₀ goal rest out' ps' qs' s' := by
  cases ps with
  | nil =>
      have hpsize : s.psize = 0 := h.psize
      cases qs with
      | nil =>
          left
          refine ⟨if_neg ?_, rfl, rfl⟩
          rintro (hp | ⟨hq, hne⟩)
          · omega
          · rcases h.right_nil with hzero | hnone
            · omega
            · exact hne hnone
      | cons b qs =>
          right
          obtain ⟨hqsize, hq⟩ := h.right_cons
          obtain ⟨s', hrun, hinv⟩ := h.takeQ hgoal hlive (by rw [List.nil_merge, List.nil_merge])
          refine ⟨s', out ++ [b], [], qs, mergePass_next ?_ (if_pos hpsize) hrun,
            Nat.lt_succ_self _, hinv⟩
          exact Or.inr ⟨hqsize, by rw [hq]; exact Option.some_ne_none b⟩
  | cons a ps =>
      right
      have hpsize : 0 < s.psize := by
        rw [h.psize]
        exact Nat.succ_pos _
      have hp : s.p = some a := by
        obtain ⟨x, hwalk⟩ := h.left
        exact hwalk.1
      cases qs with
      | nil =>
          obtain ⟨s', hrun, hinv⟩ := h.takeP hgoal hlive
            (by rw [List.merge_right, List.merge_right])
          refine ⟨s', out ++ [a], ps, [], mergePass_next (Or.inl hpsize) ?_ hrun,
            Nat.lt_succ_self _, hinv⟩
          rw [choose, if_neg (by omega), if_pos h.right_nil]
      | cons b qs =>
          obtain ⟨hqsize, hq⟩ := h.right_cons
          have hmem : a ∈ goal ∧ b ∈ goal := by
            rw [← h.split]
            constructor
            · exact List.mem_append_right _ (List.mem_merge.mpr (Or.inl (List.mem_cons_self ..)))
            · exact List.mem_append_right _ (List.mem_merge.mpr (Or.inr (List.mem_cons_self ..)))
          have hcmp := hfirst s.mem h.built.keys a hmem.1 b hmem.2
          have hchoose : choose first stop s
              = if le a b = true then ListSort.takeP stop s else ListSort.takeQ stop s := by
            rw [choose, if_neg (by omega), if_neg (by rw [hq]; simp; omega)]
            simp only [hp, hq, hcmp, Option.bind_eq_bind, Option.bind_some]
          -- the smaller of the two first cells, and the left one of equal ones
          cases hle : le a b with
          | true =>
              rw [hle, if_pos rfl] at hchoose
              obtain ⟨s', hrun, hinv⟩ := h.takeP hgoal hlive
                (by rw [List.cons_merge_cons, if_pos hle])
              exact ⟨s', out ++ [a], ps, b :: qs, mergePass_next (Or.inl hpsize) hchoose hrun,
                by simp, hinv⟩
          | false =>
              rw [hle, if_neg Bool.false_ne_true] at hchoose
              obtain ⟨s', hrun, hinv⟩ := h.takeQ hgoal hlive
                (by rw [List.cons_merge_cons, if_neg (by rw [hle]; exact Bool.false_ne_true)])
              exact ⟨s', out ++ [b], a :: ps, qs, mergePass_next (Or.inl hpsize) hchoose hrun,
                by simp, hinv⟩

/-- **The loop** merges the two runs. -/
theorem mergeLoop_spec (hgoal : goal.Nodup) (hlive : ∀ a ∈ goal, ∃ c, m₀ a = some c)
    (hfirst : Decides first le m₀ goal) {out ps qs : List Nat} {s : Merging κ}
    (h : MergeInv le stop double m₀ goal rest out ps qs s) :
    ∃ s', (Building double m₀ s'.mem goal s'.list s'.tail ∧ Walk stop m₀ s'.q rest none)
      ∧ ∀ fuel, ps.length + qs.length < fuel →
        loop (mergePass first stop double) fuel s = some s' := by
  refine @loop_total _ _ (mergePass first stop double)
    (fun n s => ∃ out ps qs, ps.length + qs.length = n
      ∧ MergeInv le stop double m₀ goal rest out ps qs s)
    (fun s' => Building double m₀ s'.mem goal s'.list s'.tail ∧ Walk stop m₀ s'.q rest none)
    ?_ _ s ⟨out, ps, qs, rfl, h⟩
  rintro n s ⟨out, ps, qs, rfl, h⟩
  rcases h.pass hgoal hlive hfirst with ⟨hpass, rfl, rfl⟩ | ⟨s', out', ps', qs', hpass, hlt, h'⟩
  · left
    refine ⟨s, hpass, ?_, h.right⟩
    have hsplit := h.split
    rw [List.nil_merge, List.append_nil] at hsplit
    rw [← hsplit]
    exact h.built
  · exact Or.inr ⟨s', _, hpass, hlt, out', ps', qs', rfl, h'⟩

end Merge

/-! ## One go over the list -/

section Go

variable {κ : Type} {first : Mem κ → Nat → Nat → Option Bool} {le : Nat → Nat → Bool}
  {stop : Option Nat} {double : Bool} {m₀ : Mem κ} {w : Nat}

/-- `step` goes along a run: it has `w` cells, or it is the last one. -/
def Steps (stop : Option Nat) (step : Mem κ → Nat → Nat → Option (Option Nat × Nat)) : Prop :=
  ∀ {m : Mem κ} {w a : Nat} {ps : List Nat} {y : Option Nat}, Walk stop m (some a) (a :: ps) y →
    ((a :: ps).length = w ∨ y = none ∧ (a :: ps).length ≤ w) →
    step m w a = some (y, (a :: ps).length)

/-- A walk over cells whose links are the old ones. -/
theorem walk_congr {m m' : Mem κ} {x : Option Nat} : ∀ {as : List Nat} {p : Option Nat},
    (∀ a ∈ as, m' a = m a) → Walk stop m p as x → Walk stop m' p as x := by
  intro as
  induction as with
  | nil => exact fun _ h => h
  | cons a as ih =>
      rintro p hsame ⟨hp, y, hy, hwalk⟩
      refine ⟨hp, y, ?_, ih (fun b hb => hsame b (List.mem_cons_of_mem _ hb)) hwalk⟩
      rw [← hy, follow, follow, nextAt, nextAt, hsame a (List.mem_cons_self ..)]

/-- While the list is gone over: `out` is merged, `todo` is not.  All merges but the last take
    `2 * w` cells. -/
structure SweepInv (le : Nat → Nat → Bool) (stop : Option Nat) (double : Bool) (m₀ : Mem κ)
    (w : Nat) (goal out todo : List Nat) (s : Sweep κ) : Prop where
  built : Building double m₀ s.mem out s.list s.tail
  walk : Walk stop m₀ s.p todo none
  split : out ++ mergeRuns (fun ps qs => List.merge ps qs le) w todo = goal
  nodup : (out ++ todo).Nodup
  live : ∀ a ∈ out ++ todo, ∃ c, m₀ a = some c
  full : todo ≠ [] → out.length = s.nmerges * (2 * w)
  enough : out.length ≤ s.nmerges * (2 * w)
  many : 1 < s.nmerges → 2 * w < out.length

theorem perm_merge_runs (out todo : List Nat) :
    (out ++ List.merge (todo.take w) ((todo.drop w).take w) le ++ (todo.drop w).drop w).Perm
      (out ++ todo) := by
  have hcut : todo.take w ++ (todo.drop w).take w ++ (todo.drop w).drop w = todo := by
    rw [List.append_assoc, List.take_append_drop, List.take_append_drop]
  have hmerge : (List.merge (todo.take w) ((todo.drop w).take w) le).Perm
      (todo.take w ++ (todo.drop w).take w) := List.merge_perm_append le
  calc (out ++ List.merge (todo.take w) ((todo.drop w).take w) le ++ (todo.drop w).drop w).Perm
        (out ++ (todo.take w ++ (todo.drop w).take w) ++ (todo.drop w).drop w) :=
          (hmerge.append_left out).append_right _
    _ = out ++ todo := by rw [List.append_assoc, hcut]

/-- The two runs at the front, as the loop that merges them finds them. -/
theorem SweepInv.runs {goal out todo : List Nat} {s : Sweep κ}
    (h : SweepInv le stop double m₀ w goal out todo s) :
    ∃ q, Walk stop m₀ s.p (todo.take w) q ∧ Walk stop m₀ q (todo.drop w) none
      ∧ MergeInv le stop double m₀ (out ++ List.merge (todo.take w) ((todo.drop w).take w) le)
          ((todo.drop w).drop w) out (todo.take w) ((todo.drop w).take w)
          ⟨s.mem, s.p, (todo.take w).length, q, w, s.list, s.tail⟩ := by
  have hwalk := h.walk
  rw [← List.take_append_drop w todo, walk_append] at hwalk
  obtain ⟨q, hleft, hright⟩ := hwalk
  refine ⟨q, hleft, hright, h.built, ⟨q, hleft⟩, rfl, ?_, ?_, rfl⟩
  · rw [List.take_append_drop]
    exact hright
  · show w = ((todo.drop w).take w).length ∨ ((todo.drop w).take w).length ≤ w ∧ _
    rw [List.length_take]
    by_cases hlen : w ≤ (todo.drop w).length
    · exact Or.inl (by omega)
    · exact Or.inr ⟨by omega, List.drop_of_length_le (by omega)⟩

/-- **Merging two runs** takes the go one step further. -/
theorem SweepInv.mergeTwo (hw : 0 < w) {goal out todo : List Nat} {s : Sweep κ}
    (h : SweepInv le stop double m₀ w goal out todo s) (htodo : todo ≠ [])
    (hfirst : Decides first le m₀ (out ++ todo)) :
    ∃ q s', Walk stop m₀ s.p (todo.take w) q ∧ Walk stop m₀ q (todo.drop w) none
      ∧ (∀ fuel, todo.length < fuel →
          ListSort.mergeTwo first fuel stop double w s (todo.take w).length q = some s')
      ∧ SweepInv le stop double m₀ w goal
          (out ++ List.merge (todo.take w) ((todo.drop w).take w) le)
          ((todo.drop w).drop w) s' := by
  obtain ⟨q, hleft, hright, hinv⟩ := h.runs
  have hperm : (out ++ List.merge (todo.take w) ((todo.drop w).take w) le
      ++ (todo.drop w).drop w).Perm (out ++ todo) := perm_merge_runs out todo
  have hmem : ∀ a ∈ out ++ List.merge (todo.take w) ((todo.drop w).take w) le, a ∈ out ++ todo :=
    fun a ha => hperm.mem_iff.mp (List.mem_append_left _ ha)
  have hnodup := hperm.nodup_iff.mpr h.nodup
  obtain ⟨t, ⟨hbuilt, hwalk⟩, hrun⟩ := mergeLoop_spec (List.nodup_append.mp hnodup).1
    (fun a ha => h.live a (hmem a ha))
    (fun m hm a ha b hb => hfirst m hm a (hmem a ha) b (hmem b hb)) hinv
  have hlen : (List.merge (todo.take w) ((todo.drop w).take w) le).length
      = (todo.take w).length + ((todo.drop w).take w).length := List.length_merge ..
  have hsucc : (s.nmerges + 1) * (2 * w) = s.nmerges * (2 * w) + 2 * w := Nat.succ_mul ..
  have htake : (todo.take w).length + ((todo.drop w).take w).length ≤ todo.length := by
    simp only [List.length_take, List.length_drop]
    omega
  have hpos := List.length_pos_iff.mpr htodo
  have hold := h.full htodo
  refine ⟨q, ⟨t.mem, t.q, t.list, t.tail, s.nmerges + 1⟩, hleft, hright, fun fuel hfuel => ?_,
    hbuilt, hwalk, ?_, hnodup, fun a ha => h.live a (hperm.mem_iff.mp ha), ?_, ?_, ?_⟩
  · rw [ListSort.mergeTwo, hrun fuel (by omega)]
    rfl
  · have hsplit := h.split
    rw [mergeRuns_of_ne_nil hw htodo, Nat.two_mul, ← List.drop_drop, ← List.append_assoc] at hsplit
    exact hsplit
  · intro hrest
    have hmore := List.length_pos_iff.mpr hrest
    show _ = (s.nmerges + 1) * (2 * w)
    simp only [List.length_drop] at hmore
    rw [List.length_append, hlen, hold, hsucc, List.length_take, List.length_take, List.length_drop]
    omega
  · show _ ≤ (s.nmerges + 1) * (2 * w)
    rw [List.length_append, hlen, hold, hsucc, List.length_take, List.length_take]
    omega
  · intro hmany
    have hmerges : 1 < s.nmerges + 1 := hmany
    have hone : 1 * (2 * w) ≤ s.nmerges * (2 * w) := Nat.mul_le_mul_right _ (by omega)
    rw [List.length_append, hlen, hold, List.length_take]
    omega

/-- The first run, gone along in the memory as it is now. -/
theorem SweepInv.step {step : Mem κ → Nat → Nat → Option (Option Nat × Nat)}
    (hstep : Steps stop step) {goal out todo : List Nat} {p : Nat} {q : Option Nat} {s : Sweep κ}
    (h : SweepInv le stop double m₀ w goal out todo s) (hp : s.p = some p) (htodo : todo ≠ [])
    (hw : 0 < w) (hleft : Walk stop m₀ s.p (todo.take w) q)
    (hright : Walk stop m₀ q (todo.drop w) none) :
    step s.mem w p = some (q, (todo.take w).length) := by
  -- what is not yet merged has its old links
  have hsame : ∀ a ∈ todo.take w, s.mem a = m₀ a := by
    intro a ha
    refine h.built.outside a fun hout => ?_
    exact (List.nodup_append.mp h.nodup).2.2 a hout a (List.mem_of_mem_take ha) rfl
  have hwalk := walk_congr hsame hleft
  have hlen : (todo.take w).length = w ∨ q = none ∧ (todo.take w).length ≤ w := by
    by_cases hlong : w ≤ todo.length
    · exact Or.inl (List.length_take_of_le hlong)
    · rw [List.drop_of_length_le (by omega)] at hright
      exact Or.inr ⟨hright, List.length_take_le ..⟩
  obtain ⟨a, l, hcons⟩ := List.exists_cons_of_ne_nil (mt List.take_eq_nil_iff.mp
    (not_or.mpr ⟨by omega, htodo⟩) : todo.take w ≠ [])
  rw [hcons, hp] at hwalk
  rw [hcons] at hlen ⊢
  obtain rfl : p = a := Option.some.inj hwalk.1
  exact hstep hwalk hlen

/-- One pass of the loop over the list: it is at its end, or two more runs are merged. -/
theorem SweepInv.pass {step : Mem κ → Nat → Nat → Option (Option Nat × Nat)}
    (hstep : Steps stop step) {as : List Nat} (hfirst : Decides first le m₀ as) (hw : 0 < w)
    {goal out todo : List Nat} {s : Sweep κ} (hperm : (out ++ todo).Perm as)
    (h : SweepInv le stop double m₀ w goal out todo s) :
    (∃ s', (∀ fuel, as.length < fuel →
        sweepPass first step fuel stop double w s = some (.done s'))
      ∧ Building double m₀ s'.mem goal s'.list s'.tail ∧ (s'.nmerges ≤ 1 ↔ as.length ≤ 2 * w)) ∨
    ∃ s' out' todo', (∀ fuel, as.length < fuel →
        sweepPass first step fuel stop double w s = some (.next s'))
      ∧ todo'.length < todo.length ∧ (out' ++ todo').Perm as
      ∧ SweepInv le stop double m₀ w goal out' todo' s' := by
  have hmem : ∀ a ∈ out ++ todo, a ∈ as := fun a ha => hperm.mem_iff.mp ha
  have hlen := hperm.length_eq
  rw [List.length_append] at hlen
  by_cases htodo : todo = []
  · left
    subst htodo
    have hp : s.p = none := h.walk
    have hsplit := h.split
    rw [mergeRuns_nil, List.append_nil] at hsplit
    refine ⟨s, fun fuel _ => by rw [sweepPass, hp], hsplit ▸ h.built, ?_⟩
    have henough := h.enough
    rw [List.length_nil, Nat.add_zero] at hlen
    rw [← hlen]
    constructor
    · intro hone
      exact henough.trans ((Nat.mul_le_mul_right _ hone).trans (Nat.one_mul _).le)
    · exact fun hshort => Nat.le_of_not_lt fun hmany => absurd (h.many hmany) (by omega)
  · right
    obtain ⟨q, s', hleft, hright, hmerge, h'⟩ := h.mergeTwo hw htodo
      fun m' hm' a ha b hb => hfirst m' hm' a (hmem a ha) b (hmem b hb)
    obtain ⟨p, hp⟩ : ∃ p, s.p = some p := by
      rw [h.walk.head]
      exact ⟨_, List.head?_eq_some_head htodo⟩
    have hcut := h.step hstep hp htodo hw hleft hright
    have hpos := List.length_pos_iff.mpr htodo
    refine ⟨s', _, _, fun fuel hfuel => ?_, ?_, (perm_merge_runs out todo).trans hperm, h'⟩
    · simp only [sweepPass, hp, hcut, Option.bind_eq_bind, Option.bind_some,
        hmerge fuel (by omega)]
    · simp only [List.length_drop]
      omega

/-- **One go over the list** merges its runs two by two, and what it leaves is a list again. -/
theorem sweep_spec {step : Mem κ → Nat → Nat → Option (Option Nat × Nat)} {circular : Bool}
    {as : List Nat} (hstep : Steps (stopOf circular as) step) (hfirst : Decides first le m₀ as)
    (hw : 0 < w) (hne : as ≠ []) (h : IsList circular false m₀ as) :
    ∃ s m', (s.list = (mergeRuns (fun ps qs => List.merge ps qs le) w as).head?
        ∧ (s.nmerges ≤ 1 ↔ as.length ≤ 2 * w)
        ∧ close circular double s.mem s.list s.tail = some m'
        ∧ IsList circular double m' (mergeRuns (fun ps qs => List.merge ps qs le) w as)
        ∧ Relinked double m₀ m' as)
      ∧ ∀ fuel, as.length < fuel →
        loop (sweepPass first step fuel (stopOf circular as) double w) fuel
          ⟨m₀, as.head?, none, none, 0⟩ = some s := by
  have hlive : ∀ a ∈ as, ∃ c, m₀ a = some c := fun a ha => h.live ha
  obtain ⟨s, ⟨hbuilt, hmerges⟩, hrun⟩ := @loop_total_inner _ _
    (fun fuel' => sweepPass first step fuel' (stopOf circular as) double w)
    (fun n s => ∃ out todo, todo.length = n ∧ (out ++ todo).Perm as
      ∧ SweepInv le (stopOf circular as) double m₀ w
        (mergeRuns (fun ps qs => List.merge ps qs le) w as) out todo s)
    (fun s => Building double m₀ s.mem (mergeRuns (fun ps qs => List.merge ps qs le) w as)
      s.list s.tail ∧ (s.nmerges ≤ 1 ↔ as.length ≤ 2 * w)) as.length (by
      rintro n s ⟨out, todo, rfl, hperm, hinv⟩
      rcases hinv.pass hstep hfirst hw hperm with
        hdone | ⟨s', out', todo', hpass, hlt, hperm', hinv'⟩
      · exact Or.inl hdone
      · exact Or.inr ⟨s', todo'.length, hpass, hlt, out', todo', rfl, hperm', hinv'⟩) as.length
    ⟨m₀, as.head?, none, none, 0⟩ ⟨[], as, rfl, List.Perm.refl _, building_nil double m₀, h.walk,
      List.nil_append _, h.nodup, hlive, fun _ => by simp, by simp, fun hmany => by simp at hmany⟩
  have hperm : (mergeRuns (fun ps qs => List.merge ps qs le) w as).Perm as :=
    mergeRuns_perm (fun _ _ => List.merge_perm_append le) as
  obtain ⟨m', hclose, hlist, hsame⟩ := @Building.close _ circular _ _ _ _ _ _ hbuilt
    (fun hnil => hne (List.nil_perm.mp (hnil ▸ hperm))) (hperm.nodup_iff.mpr h.nodup)
    fun a ha => hlive a (hperm.mem_iff.mp ha)
  exact ⟨s, m', ⟨hbuilt.list, hmerges, hclose, hlist,
    (Relinked.refl double m₀ as).trans hsame fun b hb => hperm.mem_iff.mp hb⟩,
    fun fuel hfuel => hrun fuel fuel hfuel hfuel⟩

end Go

/-! ## The whole sort -/

section Whole

variable {κ : Type} {first : Mem κ → Nat → Nat → Option Bool} {le : Nat → Nat → Bool}
  {step : Mem κ → Nat → Nat → Option (Option Nat × Nat)} {R : List Nat → List Nat → Prop}
  {circular double : Bool} {m₀ m : Mem κ} {as cur : List Nat} {w : Nat}

/-- Between two goes: the runs of length `w` are sorted, and more than one is left. -/
structure SortInv (R : List Nat → List Nat → Prop) (circular double : Bool) (m₀ : Mem κ)
    (as : List Nat) (m : Mem κ) (cur : List Nat) (w : Nat) : Prop where
  runs : Sortedly R w as cur
  perm : cur.Perm as
  list : IsList circular false m cur
  same : Relinked double m₀ m as
  pos : 0 < w
  size : w = 1 ∨ w < as.length

/-- What one go leaves: the list `out` in the memory `m'`, with runs of length `2 * w`. -/
structure Gone (R : List Nat → List Nat → Prop) (circular double : Bool) (m₀ : Mem κ)
    (as : List Nat) (w : Nat) (s : Sweep κ) (m' : Mem κ) (out : List Nat) : Prop where
  runs : Sortedly R (2 * w) as out
  perm : out.Perm as
  list : IsList circular double m' out
  same : Relinked double m₀ m' as
  head : s.list = out.head?
  merges : s.nmerges ≤ 1 ↔ as.length ≤ 2 * w
  close : LinkedList.close circular double s.mem s.list s.tail = some m'

theorem SortInv.go (h : SortInv R circular double m₀ as m cur w)
    (hR : Merges R fun ps qs => List.merge ps qs le) (hne : as ≠ [])
    (hstep : Steps (stopOf circular cur) step) (hfirst : Decides first le m₀ as) :
    ∃ s m' out, Gone R circular double m₀ as w s m' out ∧ ∀ fuel, as.length < fuel →
      loop (sweepPass first step fuel (stopOf circular cur) double w) fuel
        ⟨m, cur.head?, none, none, 0⟩ = some s := by
  have hcur : cur ≠ [] := fun hnil => hne (List.nil_perm.mp (hnil ▸ h.perm))
  have hfirst' : Decides first le m cur := fun m' hm' a ha b hb =>
    hfirst m' (fun c => (hm' c).trans (h.same.keys c)) a (h.perm.mem_iff.mp ha) b
      (h.perm.mem_iff.mp hb)
  obtain ⟨s, m', ⟨hhead, hmerges, hclose, hlist, hsame⟩, hrun⟩ :=
    sweep_spec hstep hfirst' h.pos hcur h.list
  rw [h.perm.length_eq] at hmerges hrun
  exact ⟨s, m', _, ⟨Sortedly.pass hR h.pos cur.length (Nat.le_refl _) h.runs,
    (mergeRuns_perm hR.perm cur).trans h.perm, hlist,
    h.same.trans hsame fun b hb => h.perm.mem_iff.mp hb, hhead, hmerges, hclose⟩, hrun⟩

/-- **The loop of the sort**, where a pass is a go over the list and the doubling of the size. -/
theorem sort_loop {pass : Nat → Mem κ × Option Nat × Nat →
      Option (Pass (Mem κ × Option Nat × Nat) (Mem κ × Option Nat))}
    (hR : Merges R fun ps qs => List.merge ps qs le) (h : IsList circular false m₀ as)
    (hpass : ∀ {m cur w}, SortInv R circular double m₀ as m cur w →
      ∃ s m' out, Gone R circular double m₀ as w s m' out
        ∧ ∀ fuel, as.length < fuel → pass fuel (m, cur.head?, w)
          = some (if as.length ≤ 2 * w then .done (m', out.head?)
            else .next (m', out.head?, 2 * w))) :
    ∃ m' out, R as out ∧ IsList circular double m' out ∧ Relinked double m₀ m' as
      ∧ ∀ fuel, as.length < fuel →
        loop (pass fuel) fuel (m₀, as.head?, 1) = some (m', out.head?) := by
  obtain ⟨⟨m', list⟩, ⟨out, hsorted, hlist, hsame, rfl⟩, hrun⟩ := @loop_total_inner _ _ pass
    (fun n s => ∃ m cur w, s = (m, cur.head?, w) ∧ as.length - w = n
      ∧ SortInv R circular double m₀ as m cur w)
    (fun r => ∃ out, R as out ∧ IsList circular double r.1 out
      ∧ Relinked double m₀ r.1 as ∧ r.2 = out.head?) as.length (by
      rintro n s ⟨m, cur, w, rfl, rfl, hinv⟩
      obtain ⟨s, m', out, hgone, hrun⟩ := hpass hinv
      have hpos := hinv.pos
      by_cases hshort : as.length ≤ 2 * w
      · -- one merge was enough
        left
        refine ⟨(m', out.head?), fun fuel hfuel => by rw [hrun fuel hfuel, if_pos hshort], out,
          ?_, hgone.list, hgone.same, rfl⟩
        exact hgone.runs.whole hR (by rw [hgone.perm.length_eq]; exact hshort)
      · right
        exact ⟨_, as.length - 2 * w, fun fuel hfuel => by rw [hrun fuel hfuel, if_neg hshort],
          by omega, m', out, 2 * w, rfl, rfl, hgone.runs, hgone.perm, hgone.list.singly,
          hgone.same, by omega, Or.inr (by omega)⟩)
    (as.length - 1) (m₀, as.head?, 1) ⟨m₀, as, 1, rfl, rfl, hR.sortedly_one as, List.Perm.refl _, h,
      Relinked.refl double m₀ as, Nat.one_pos, Or.inl rfl⟩
  exact ⟨m', out, hsorted, hlist, hsame, fun fuel hfuel => hrun fuel fuel hfuel (by omega)⟩

end Whole

end ListSort
