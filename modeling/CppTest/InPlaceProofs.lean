import CppTest.AdjacencyProofs
import Mathlib.Data.List.Perm.Basic
import Mathlib.Order.Lattice

/-! # Turning the edges of a graph round in place

    The lists of all vertices are emptied, but their cells stay, and are read while the new
    entries are written over them from the front.  The vertices are taken one after the
    other; an array that has become too small before its vertex is taken has moved, and can
    no longer be read.

    * `overlay b o` — what the cells of `o` hold once `b` has been written over them.
    * `turn` — one vertex `v`: what its cells hold are the vertices that get `v` as an entry.
    * `turns_reverse_iff` — all edges are turned round if and ONLY if no array has moved
      before it is read and what has been written over it by then is, up to the order, what
      was there.

    Nothing here names a program of the repository. -/

namespace InPlace

open Adjacency

variable {κ : Type}

/-! ## Writing over a list -/

/-- The cells of `o` with `b` written over them, from the front. -/
def overlay (b o : List κ) : List κ := (b ++ o.drop b.length).take o.length

@[simp] theorem length_overlay (b o : List κ) : (overlay b o).length = o.length := by
  rw [overlay, List.length_take, List.length_append, List.length_drop]
  omega

@[simp] theorem overlay_nil (o : List κ) : overlay [] o = o := List.take_length

theorem overlay_getElem? (b o : List κ) {j : Nat} (hj : j < o.length) :
    (overlay b o)[j]? = if j < b.length then b[j]? else o[j]? := by
  rw [overlay, List.getElem?_take_of_lt hj]
  split_ifs with hb
  · exact List.getElem?_append_left hb
  · rw [List.getElem?_append_right (by omega), List.getElem?_drop]
    congr 1
    omega

/-- More entries do not change the cells before them, nor those they do not reach. -/
theorem overlay_append_getElem? (b e o : List κ) {j : Nat} (hj : j < o.length)
    (he : j < b.length ∨ b.length + e.length ≤ j) :
    (overlay (b ++ e) o)[j]? = (overlay b o)[j]? := by
  rw [overlay_getElem? _ _ hj, overlay_getElem? _ _ hj, List.length_append]
  rcases he with hb | hle
  · rw [if_pos (by omega), if_pos hb, List.getElem?_append_left hb]
  · rw [if_neg (by omega), if_neg (by omega)]

/-- Writing the next entry. -/
theorem overlay_snoc (b o : List κ) (x : κ) :
    overlay (b ++ [x]) o = (overlay b o).set b.length x := by
  refine List.ext_getElem? fun j => ?_
  by_cases hj : j < o.length
  · rw [overlay_getElem? _ _ hj, List.getElem?_set, length_overlay, overlay_getElem? _ _ hj,
      List.length_append, List.length_singleton]
    rcases Nat.lt_trichotomy j b.length with hlt | rfl | hgt
    · rw [if_pos (by omega), if_neg (by omega), if_pos hlt, List.getElem?_append_left hlt]
    · rw [if_pos (by omega), if_pos rfl, if_pos hj, List.getElem?_concat_length]
    · rw [if_neg (by omega), if_neg (by omega), if_neg (by omega)]
  · rw [List.getElem?_eq_none (by rw [length_overlay]; omega),
      List.getElem?_eq_none (by rw [List.length_set, length_overlay]; omega)]

/-- What has been written over is a permutation of what was there exactly if the whole
    list is. -/
theorem overlay_perm_iff (b o : List κ) :
    (overlay b o).Perm o ↔ (o.take b.length).Perm (b.take o.length) := by
  by_cases hle : b.length ≤ o.length
  · have hall : overlay b o = b ++ o.drop b.length := by
      rw [overlay, List.take_of_length_le]
      rw [List.length_append, List.length_drop]
      omega
    rw [hall, List.take_of_length_le hle]
    constructor
    · intro h
      refine ((List.perm_append_right_iff (o.drop b.length)).mp ?_).symm
      rw [List.take_append_drop]
      exact h
    · intro h
      have hperm := (List.perm_append_right_iff (o.drop b.length)).mpr h.symm
      rw [List.take_append_drop] at hperm
      exact hperm
  · have hdrop : o.drop b.length = [] := List.drop_eq_nil_of_le (by omega)
    rw [overlay, hdrop, List.append_nil, List.take_of_length_le (l := o) (by omega)]
    exact List.perm_comm

/-! ## The vertices one after the other -/

variable [LinearOrder κ] {out : κ → List κ} {cap : κ → Nat}

/-- The cells of `v`, after the entries so far. -/
def reads (out cur : κ → List κ) (v : κ) : List κ := overlay (cur v) (out v)

/-- `v` becomes an entry of the vertices that its cells hold; an array that has moved can
    not be read. -/
def turn (out : κ → List κ) (cap : κ → Nat) (cur : κ → List κ) (v : κ) :
    Option (κ → List κ) :=
  if out v ≠ [] ∧ cap v ≤ (cur v).length then none
  else some fun w => cur w ++ List.replicate ((reads out cur v).count w) v

/-- A vertex that can be turned round: before it is taken, the edges from smaller vertices
    have not moved its array, and what they have written over it was there. -/
def Spared (vs : List κ) (out : κ → List κ) (cap : κ → Nat) (v : κ) : Prop :=
  out v ≠ [] → (sources (vs.filter (· < v)) out v).length < cap v ∧
    ((out v).take (sources (vs.filter (· < v)) out v).length).Perm
      ((sources (vs.filter (· < v)) out v).take (out v).length)

theorem turn_eq {cur cur' : κ → List κ} {v : κ} (h : turn out cap cur v = some cur') :
    ¬ (out v ≠ [] ∧ cap v ≤ (cur v).length) ∧
      cur' = fun w => cur w ++ List.replicate ((reads out cur v).count w) v := by
  rw [turn] at h
  split_ifs at h with hmoved
  exact ⟨hmoved, (Option.some.inj h).symm⟩

/-- The entry `v` is written for `v` only. -/
theorem turns_count {vs : List κ} {v : κ} (hv : v ∉ vs) :
    ∀ {cur fin : κ → List κ}, vs.foldlM (turn out cap) cur = some fin →
      ∀ w, (fin w).count v = (cur w).count v := by
  induction vs with
  | nil =>
      intro cur fin h w
      obtain rfl := Option.some.inj h
      rfl
  | cons u vs ih =>
      intro cur fin h w
      rw [List.foldlM_cons] at h
      obtain ⟨cur', hturn, h⟩ := Option.bind_eq_some_iff.mp h
      obtain ⟨-, rfl⟩ := turn_eq hturn
      have huv : u ≠ v := fun heq => hv (heq ▸ List.mem_cons_self)
      rw [ih (fun hmem => hv (List.mem_cons_of_mem u hmem)) h, List.count_append,
        List.count_replicate, if_neg (by simpa using huv), Nat.add_zero]

/-- Where the cells of `v` hold its list, its turn adds the sources. -/
theorem sources_snoc (pre : List κ) (out : κ → List κ) (v w : κ) {R : List κ}
    (hR : R.Perm (out v)) :
    sources pre out w ++ List.replicate (R.count w) v = sources (pre ++ [v]) out w := by
  rw [sources, sources, List.flatMap_append, hR.count_eq, List.flatMap_singleton]

/-- Of vertices in order, those below `v` are the ones before. -/
theorem filter_lt {pre post : List κ} {v : κ} (h : (pre ++ v :: post).Pairwise (· < ·)) :
    (pre ++ v :: post).filter (· < v) = pre := by
  obtain ⟨-, hpost, hcross⟩ := List.pairwise_append.mp h
  rw [List.filter_append, List.filter_eq_self.mpr, List.filter_eq_nil_iff.mpr, List.append_nil]
  · intro u hu
    rw [decide_eq_true_eq, not_lt]
    rcases List.mem_cons.mp hu with rfl | hu
    · exact le_refl u
    · exact le_of_lt ((List.pairwise_cons.mp hpost).1 u hu)
  · exact fun u hu => decide_eq_true (hcross u hu v List.mem_cons_self)

/-- The two conditions in terms of the turn itself. -/
theorem spared_iff {vs pre : List κ} {v : κ} (hsmaller : vs.filter (· < v) = pre) :
    Spared vs out cap v ↔ ¬ (out v ≠ [] ∧ cap v ≤ (sources pre out v).length) ∧
      (reads out (sources pre out) v).Perm (out v) := by
  rw [Spared, hsmaller, reads, overlay_perm_iff]
  by_cases hnil : out v = []
  · simp [hnil]
  · simp [hnil]

/-- **The rest of the turns**, where the vertices before have been turned round. -/
theorem rest_reverse_iff {vs : List κ} (hvs : vs.Pairwise (· < ·)) (post : List κ) :
    ∀ pre : List κ, vs = pre ++ post →
      ((∃ fin, post.foldlM (turn out cap) (sources pre out) = some fin ∧
          ∀ v ∈ post, ∀ w, (fin w).count v = (out v).count w) ↔
        ∀ v ∈ post, Spared vs out cap v) := by
  induction post with
  | nil =>
      intro pre _
      refine ⟨fun _ v hv => absurd hv List.not_mem_nil, fun _ => ⟨_, rfl, ?_⟩⟩
      exact fun v hv => absurd hv List.not_mem_nil
  | cons v post ih =>
      intro pre hsplit
      have hordered := hsplit ▸ hvs
      obtain ⟨-, hpost, hcross⟩ := List.pairwise_append.mp hordered
      have hsmaller : vs.filter (· < v) = pre := hsplit ▸ filter_lt hordered
      have hnext := ih (pre ++ [v]) (by rw [hsplit, List.append_assoc]; rfl)
      have hnotpre : v ∉ pre := fun hmem => lt_irrefl v (hcross v hmem v List.mem_cons_self)
      have hnotpost : v ∉ post := fun hmem => lt_irrefl v ((List.pairwise_cons.mp hpost).1 v hmem)
      have hzero : ∀ w, (sources pre out w).count v = 0 :=
        fun w => List.count_eq_zero.mpr fun hmem => hnotpre (mem_sources hmem)
      -- where the cells hold the list, the entries after the turn are again the sources
      have hcur : (reads out (sources pre out) v).Perm (out v) →
          (fun w => sources pre out w ++ List.replicate ((reads out (sources pre out) v).count w) v)
            = sources (pre ++ [v]) out :=
        fun hperm => funext fun w => sources_snoc pre out v w hperm
      rw [List.forall_mem_cons, ← hnext, spared_iff hsmaller]
      constructor
      · rintro ⟨fin, hrun, hcount⟩
        rw [List.foldlM_cons] at hrun
        obtain ⟨cur', hturn, hrun⟩ := Option.bind_eq_some_iff.mp hrun
        obtain ⟨hmoved, rfl⟩ := turn_eq hturn
        -- no later turn writes `v`, so what its cells held is counted in the end
        have hperm : (reads out (sources pre out) v).Perm (out v) := by
          rw [List.perm_iff_count]
          intro w
          have hw := hcount v List.mem_cons_self w
          rw [turns_count hnotpost hrun, List.count_append, hzero, Nat.zero_add,
            List.count_replicate_self] at hw
          exact hw
        rw [hcur hperm] at hrun
        refine ⟨⟨hmoved, hperm⟩, fin, hrun, ?_⟩
        exact fun u hu => hcount u (List.mem_cons_of_mem v hu)
      · rintro ⟨⟨hmoved, hperm⟩, fin, hrun, hcount⟩
        refine ⟨fin, ?_, List.forall_mem_cons.mpr ⟨fun w => ?_, hcount⟩⟩
        · rw [List.foldlM_cons, turn, if_neg hmoved, hcur hperm]
          exact hrun
        · rw [turns_count hnotpost hrun, ← sources_snoc pre out v w hperm, List.count_append,
            hzero, Nat.zero_add, List.count_replicate_self]
          exact hperm.count_eq w

variable (out cap) in
/-- **Reversal in place, where it works.** -/
theorem turns_reverse_iff {vs : List κ} (hvs : vs.Pairwise (· < ·)) :
    (∃ fin, vs.foldlM (turn out cap) (fun _ => []) = some fin ∧
        ∀ v ∈ vs, ∀ w, (fin w).count v = (out v).count w) ↔
      ∀ v ∈ vs, Spared vs out cap v :=
  rest_reverse_iff hvs vs [] rfl

end InPlace
