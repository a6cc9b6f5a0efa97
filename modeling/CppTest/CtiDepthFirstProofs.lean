import CppTest.CtiGraphProofs

/-! # Depth first: the recursion and the stack do the same

    * `depthFirstVisit_total` — a visit returns when the fuel is at least the number of
      white vertices, since every call darkens its own vertex first.
    * `Ends`, `Descends` — what is left to do for the loops of
      `depth_first_search_non_recursive` at the top of the `while` and inside the `for`,
      with one rule for each thing a pass can do.
    * `scan_descends` — the simulation: the loops do what the pending calls of the
      recursion do. -/

namespace CtiGraph

open Machine Digraph

variable {V : Type} [DecidableEq V] {G : Graph V}

/-! ## A visit returns -/

omit [DecidableEq V] in
theorem Darkens.refl (st : St V) : Darkens st st := fun _ h => h

omit [DecidableEq V] in
theorem Darkens.trans {a b c : St V} (hab : Darkens a b) (hbc : Darkens b c) : Darkens a c :=
  fun v h => hab v (hbc v h)

theorem darkens_discover (st : St V) (u : V) : Darkens st (discover st u) :=
  fun v h => ((white_discover st u v).mp h).2

theorem darkens_finish (st : St V) (u : V) : Darkens st (finish st u) :=
  fun v h => ((white_finish st u v).mp h).2

/-- A vertex that is discovered is one white vertex less. -/
theorem whites_discover {st : St V} {u : V} (hu : White st u) :
    whites G (discover st u) < whites G st :=
  whites_lt (darkens_discover st u) hu fun h => ((white_discover st u u).mp h).1 rfl

/-- `depth_first_visit` on a white vertex returns, and leaves it dark. -/
theorem depthFirstVisit_total (n : Nat) :
    ∀ (st : St V) (u : V), White st u → whites G st ≤ n →
      ∃ st', depthFirstVisit G n st u = some st' ∧ Darkens st st' ∧ ¬ White st' u := by
  induction n with
  | zero =>
      intro st u hu hn
      exact absurd (whites_discover (G := G) hu) (by omega)
  | succ n ih =>
      intro st u hu hn
      have hless := whites_discover (G := G) hu
      obtain ⟨st', hrun, hdark, -⟩ := scan_rule Darkens.refl (fun _ _ _ => Darkens.trans)
        (fun _ _ h => h) (G.adj u)
        (fun st₁ v _ h₁ hv => ih st₁ v hv ((whites_le h₁).trans (by omega)))
        (discover st u) (Darkens.refl _)
      refine ⟨finish st' u, by rw [depthFirstVisit, hrun]; rfl, ?_, ?_⟩
      · exact ((darkens_discover st u).trans hdark).trans (darkens_finish st' u)
      · exact fun h => ((white_finish st' u u).mp h).1 rfl

/-- `depth_first_search` returns. -/
theorem depthFirstSearch_total (G : Graph V) (st : St V) :
    ∃ st', depthFirstSearch G (whites G st) st = some st' := by
  obtain ⟨st', hrun, -⟩ := scan_rule Darkens.refl (fun _ _ _ => Darkens.trans) (fun _ _ h => h)
    G.vertices (fun st₁ v _ h₁ hv => depthFirstVisit_total (whites G st) st₁ v hv (whites_le h₁))
    st (Darkens.refl st)
  exact ⟨st', hrun⟩

/-! ## More fuel, and what a returning visit keeps -/

omit [DecidableEq V] in
theorem scan_mono {visit visit' : St V → V → Option (St V)}
    (hvisit : ∀ st v st', visit st v = some st' → visit' st v = some st') (l : List V) :
    ∀ st st', scan visit st l = some st' → scan visit' st l = some st' := by
  induction l with
  | nil => exact fun st st' h => h
  | cons v l ih =>
      intro st st' h
      rw [scan_cons_eq_some] at h ⊢
      rcases h with ⟨hv, st₁, hrun, h⟩ | ⟨hv, h⟩
      · exact .inl ⟨hv, st₁, hvisit st v st₁ hrun, ih st₁ st' h⟩
      · exact .inr ⟨hv, ih st st' h⟩

/-- What a visit that returns has done. -/
theorem depthFirstVisit_eq {n : Nat} {st st' : St V} {u : V}
    (h : depthFirstVisit G n st u = some st') :
    ∃ k st₁, n = k + 1 ∧ scan (depthFirstVisit G k) (discover st u) (G.adj u) = some st₁
      ∧ st' = finish st₁ u := by
  cases n with
  | zero => exact nomatch h
  | succ k =>
      obtain ⟨st₁, hrun, h⟩ := Option.bind_eq_some_iff.mp h
      exact ⟨k, st₁, rfl, hrun, (Option.some.inj h).symm⟩

theorem depthFirstVisit_mono {n : Nat} :
    ∀ {m : Nat} (st : St V) (u : V) (st' : St V), n ≤ m →
      depthFirstVisit G n st u = some st' → depthFirstVisit G m st u = some st' := by
  induction n with
  | zero => exact fun st u st' _ h => nomatch h
  | succ n ih =>
      intro m st u st' hle h
      obtain ⟨k, st₁, hn, hrun, rfl⟩ := depthFirstVisit_eq h
      obtain rfl : n = k := by omega
      obtain ⟨j, rfl⟩ : ∃ j, m = j + 1 := ⟨m - 1, by omega⟩
      have hscan := scan_mono (fun st v st' => ih st v st' (by omega : n ≤ j)) _ _ _ hrun
      rw [depthFirstVisit, hscan]
      rfl

omit [DecidableEq V] in
theorem scan_darkens {visit : St V → V → Option (St V)}
    (hvisit : ∀ st v st', visit st v = some st' → Darkens st st') (l : List V) :
    ∀ st st', scan visit st l = some st' → Darkens st st' := by
  induction l with
  | nil =>
      intro st st' h
      obtain rfl := Option.some.inj h
      exact Darkens.refl st
  | cons v l ih =>
      intro st st' h
      rcases scan_cons_eq_some.mp h with ⟨-, st₁, hrun, h⟩ | ⟨-, h⟩
      · exact (hvisit st v st₁ hrun).trans (ih st₁ st' h)
      · exact ih st st' h

theorem depthFirstVisit_darkens (n : Nat) :
    ∀ (st : St V) (u : V) (st' : St V), depthFirstVisit G n st u = some st' → Darkens st st' := by
  induction n with
  | zero => exact fun st u st' h => nomatch h
  | succ n ih =>
      intro st u st' h
      obtain ⟨k, st₁, hn, hrun, rfl⟩ := depthFirstVisit_eq h
      obtain rfl : n = k := by omega
      have hdark := scan_darkens ih _ _ _ hrun
      exact ((darkens_discover st u).trans hdark).trans (darkens_finish st₁ u)

/-! ## What is left to do on the stack -/

/-- The `while` loop with the stack `S` ends with the records `r`. -/
def Ends (G : Graph V) (S : List V) (st r : St V) : Prop :=
  ∃ n, loop (whilePass G n) n (S, st) = some r

/-- The inner loop with the stack `S` and `l` left of its enumeration ends, the top of the
    stack is finished, and the `while` loop then ends with `r`. -/
def Descends (G : Graph V) (S l : List V) (st r : St V) : Prop :=
  ∃ n t S' st', loop (innerPass G) n (S, l, st) = some (t :: S', st')
    ∧ Ends G S' (finish st' t) r

theorem whilePass_mono {n m : Nat} (hle : n ≤ m) (x : List V × St V)
    (p : Pass (List V × St V) (St V)) (h : whilePass G n x = some p) :
    whilePass G m x = some p := by
  obtain ⟨S, st⟩ := x
  cases S with
  | nil => exact h
  | cons t S =>
      obtain ⟨y, hrun, h⟩ := Option.bind_eq_some_iff.mp h
      rw [whilePass, loop_mono (fun _ _ h => h) hle hrun]
      exact h

theorem Ends.mono {S : List V} {st r : St V} {n m : Nat} (hle : n ≤ m)
    (h : loop (whilePass G n) n (S, st) = some r) : loop (whilePass G m) m (S, st) = some r :=
  loop_mono (whilePass_mono hle) hle h

theorem Ends.nil (st : St V) : Ends G [] st st := ⟨1, rfl⟩

theorem Ends.cons {S : List V} {st r : St V} {t : V} (h : Descends G (t :: S) (G.adj t) st r) :
    Ends G (t :: S) st r := by
  obtain ⟨n, t', S', st', hinner, m, hrest⟩ := h
  refine ⟨max n m + 1, ?_⟩
  have hpass : whilePass G (max n m + 1) (t :: S, st) = some (.next (S', finish st' t')) := by
    rw [whilePass, loop_mono (fun _ _ h => h) (by omega) hinner]
    rfl
  rw [loop_next (by omega) hpass]
  exact loop_mono (whilePass_mono (by omega)) (by omega) hrest

/-- The enumeration is used up. -/
theorem Descends.done {S : List V} {st r : St V} {t : V} (h : Ends G S (finish st t) r) :
    Descends G (t :: S) [] st r := ⟨1, t, S, st, rfl, h⟩

theorem Descends.pass {S S' l l' : List V} {st st' r : St V}
    (hpass : innerPass G (S, l, st) = some (.next (S', l', st')))
    (h : Descends G S' l' st' r) : Descends G S l st r := by
  obtain ⟨n, t, S₁, st₁, hrun, hrest⟩ := h
  exact ⟨n + 1, t, S₁, st₁, by rw [loop_next (by omega) hpass]; exact hrun, hrest⟩

/-- The next vertex is not white. -/
theorem Descends.skip {S l : List V} {st r : St V} {v : V} (hv : ¬ White st v)
    (h : Descends G S l st r) : Descends G S (v :: l) st r :=
  Descends.pass (by rw [innerPass, if_neg hv]) h

/-- The next vertex is white. -/
theorem Descends.push {S l : List V} {st r : St V} {v : V} (hv : White st v)
    (h : Descends G (v :: S) (G.adj v) (discover st v) r) : Descends G S (v :: l) st r :=
  Descends.pass (by rw [innerPass, if_pos hv]) h

theorem Descends.skips {S pre l : List V} {st r : St V} (hpre : ∀ v ∈ pre, ¬ White st v)
    (h : Descends G S l st r) : Descends G S (pre ++ l) st r := by
  induction pre with
  | nil => exact h
  | cons v pre ih =>
      exact Descends.skip (hpre v List.mem_cons_self)
        (ih fun w hw => hpre w (List.mem_cons_of_mem v hw))

/-! ## The simulation -/

/-- **The loops simulate the recursion.**  `u` is on top of the stack, `pre` is the part of
    its enumeration that is behind, and the recursion scans the rest `l`.  When a child `v`
    is finished, the `while` loop begins the enumeration of `u` anew; by then `pre` and `v`
    are dark, and it comes back to where the recursion goes on. -/
theorem scan_descends (n : Nat) :
    ∀ (u : V) (S pre l : List V) (st st' r : St V), G.adj u = pre ++ l →
      (∀ v ∈ pre, ¬ White st v) → scan (depthFirstVisit G n) st l = some st' →
      Ends G S (finish st' u) r → Descends G (u :: S) l st r := by
  induction n using Nat.strongRecOn with
  | ind n ih =>
      intro u S pre l
      induction l generalizing pre with
      | nil =>
          intro st st' r hadj hpre hscan hrest
          obtain rfl := Option.some.inj hscan
          exact Descends.done hrest
      | cons v l ihl =>
          intro st st' r hadj hpre hscan hrest
          have hadj' : G.adj u = (pre ++ [v]) ++ l := by simp [hadj]
          rcases scan_cons_eq_some.mp hscan with ⟨hv, st₁, hvisit, hscan⟩ | ⟨hv, hscan⟩
          · have hdark := depthFirstVisit_darkens n st v st₁ hvisit
            obtain ⟨k, st₂, rfl, hchild, rfl⟩ := depthFirstVisit_eq hvisit
            have hpre' : ∀ w ∈ pre ++ [v], ¬ White (finish st₂ v) w := by
              refine List.forall_mem_append.mpr ⟨fun w hw h => hpre w hw (hdark w h), ?_⟩
              intro w hw h
              exact ((white_finish st₂ v w).mp h).1 (List.mem_singleton.mp hw)
            have hrescan : Ends G (u :: S) (finish st₂ v) r := by
              apply Ends.cons
              rw [hadj']
              exact Descends.skips hpre' (ihl _ _ st' r hadj' hpre' hscan hrest)
            apply Descends.push hv
            exact ih k (Nat.lt_succ_self k) v (u :: S) [] (G.adj v) _ st₂ r rfl
              (fun w hw => nomatch hw) hchild hrescan
          · have hpre' : ∀ w ∈ pre ++ [v], ¬ White st w :=
              List.forall_mem_append.mpr ⟨hpre, by simpa using hv⟩
            exact Descends.skip hv (ihl _ st st' r hadj' hpre' hscan hrest)

/-- The body of the outer loop of `depth_first_search_non_recursive`. -/
theorem depthFirstVisit_ends {n : Nat} {st st' : St V} {u : V}
    (h : depthFirstVisit G n st u = some st') : Ends G [u] (discover st u) st' := by
  obtain ⟨k, st₁, rfl, hscan, rfl⟩ := depthFirstVisit_eq h
  apply Ends.cons
  exact scan_descends k u [] [] (G.adj u) _ st₁ _ rfl (fun w hw => nomatch hw) hscan (Ends.nil _)

theorem nonRecursive_mono {n m : Nat} (hle : n ≤ m) (l : List V) (st st' : St V)
    (h : scan (fun st u => loop (whilePass G n) n ([u], discover st u)) st l = some st') :
    scan (fun st u => loop (whilePass G m) m ([u], discover st u)) st l = some st' :=
  scan_mono (fun _ _ _ hrun => Ends.mono hle hrun) l st st' h

theorem scan_nonRecursive {n : Nat} (l : List V) :
    ∀ st st', scan (depthFirstVisit G n) st l = some st' →
      ∃ m, scan (fun st u => loop (whilePass G m) m ([u], discover st u)) st l = some st' := by
  induction l with
  | nil => exact fun st st' h => ⟨0, h⟩
  | cons v l ih =>
      intro st st' h
      rcases scan_cons_eq_some.mp h with ⟨hv, st₁, hrun, h⟩ | ⟨hv, h⟩
      · obtain ⟨m₁, hends⟩ := depthFirstVisit_ends hrun
        obtain ⟨m₂, hrest⟩ := ih st₁ st' h
        refine ⟨max m₁ m₂, scan_cons_eq_some.mpr (.inl ⟨hv, st₁, ?_, ?_⟩)⟩
        · exact Ends.mono (Nat.le_max_left m₁ m₂) hends
        · exact nonRecursive_mono (Nat.le_max_right m₁ m₂) l st₁ st' hrest
      · obtain ⟨m, hrest⟩ := ih st st' h
        exact ⟨m, scan_cons_eq_some.mpr (.inr ⟨hv, hrest⟩)⟩

end CtiGraph
