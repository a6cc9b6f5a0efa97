import CppTest.ChessProofs
import Mathlib.Data.List.Nodup

/-! # Gobang: what the search finds

    * `findFirst_spec` — from one point: the first round in which one of the four lines has
      `n` points ends the search, at the first such line.
    * `findFrom_spec` — over the board: the first point from which the search does not miss.
    * `overflow_elsewhere` — a search that stores behind the end of its array would have been
      made from an earlier point of the same line before, and that one does not miss. -/

namespace Chess

open Machine Ray

/-! ## One round over the four lines -/

/-- The first line that has `n` points after `r` rounds. -/
def leader (b : Board) (pt : ChessPt) (n r : Nat) : Option (Int × Int) :=
  directions.find? fun d => n ≤ count (Same b pt d) r

/-- The variables of the loop after `r` rounds that have not ended the search. -/
structure Searching (b : Board) (pt : ChessPt) (n r : Nat) (s : Scan) : Prop where
  x1 : s.x1 = pt.x + (r + 1 : Nat)
  x2 : s.x2 = pt.x - (r + 1 : Nat)
  y1 : s.y1 = pt.y + (r + 1 : Nat)
  y2 : s.y2 = pt.y - (r + 1 : Nat)
  lr : Follows b pt (1, 0) n r s.lr
  tb : Follows b pt (0, 1) n r s.tb
  ltrb : Follows b pt (1, 1) n r s.ltrb
  lbrt : Follows b pt (1, -1) n r s.lbrt

theorem Searching.room {b : Board} {pt : ChessPt} {n r : Nat} {s : Scan}
    (h : Searching b pt n r s) : ∀ d ∈ directions, count (Same b pt d) r < n := by
  intro d hd
  rcases mem_directions.mp hd with rfl | rfl | rfl | rfl
  · exact h.lr.room
  · exact h.tb.room
  · exact h.ltrb.room
  · exact h.lbrt.room

theorem leader_eq_none {b : Board} {pt : ChessPt} {n r : Nat} :
    leader b pt n r = none ↔ ∀ d ∈ directions, count (Same b pt d) r < n := by
  rw [leader, List.find?_eq_none]
  simp only [decide_eq_true_eq, Nat.not_le]

theorem leader_eq_some {b : Board} {pt : ChessPt} {n r : Nat} {d : Int × Int}
    (h : leader b pt n r = some d) : d ∈ directions ∧ n ≤ count (Same b pt d) r :=
  ⟨List.mem_of_find?_eq_some h, by simpa using List.find?_some h⟩

theorem Probes.of {b : Board} {pt : ChessPt} {d : Int × Int} {t x y : Int} {probe : Probe}
    (hindex : probe.index = y * b.W + x) (hx : x = pt.x + d.1 * t) (hy : y = pt.y + d.2 * t)
    (hin : probe.inside = true ↔ OnBoard b x y) : Probes b pt d t probe := by
  subst hx hy
  exact ⟨hin, hindex⟩

/-- The eight probes of a round are for the points at that distance. -/
theorem Searching.probes {b : Board} {pt : ChessPt} {n r : Nat} {s : Scan}
    (hpt : OnBoard b pt.x pt.y) (h : Searching b pt n r s) :
    (Probes b pt (1, 0) (-((r + 1 : Nat) : Int)) (s.left b pt)
      ∧ Probes b pt (1, 0) ((r + 1 : Nat) : Int) (s.right b pt))
    ∧ (Probes b pt (0, 1) (-((r + 1 : Nat) : Int)) (s.top b pt)
      ∧ Probes b pt (0, 1) ((r + 1 : Nat) : Int) (s.bottom b pt))
    ∧ (Probes b pt (1, 1) (-((r + 1 : Nat) : Int)) (s.leftTop b)
      ∧ Probes b pt (1, 1) ((r + 1 : Nat) : Int) (s.rightBottom b))
    ∧ (Probes b pt (1, -1) (-((r + 1 : Nat) : Int)) (s.leftBottom b)
      ∧ Probes b pt (1, -1) ((r + 1 : Nat) : Int) (s.rightTop b)) := by
  obtain ⟨hx1, hx2, hy1, hy2, -⟩ := h
  unfold OnBoard at hpt
  refine ⟨⟨Probes.of (x := s.x2) (y := pt.y) rfl ?_ ?_ ?_,
      Probes.of (x := s.x1) (y := pt.y) rfl ?_ ?_ ?_⟩,
    ⟨Probes.of (x := pt.x) (y := s.y2) rfl ?_ ?_ ?_,
      Probes.of (x := pt.x) (y := s.y1) rfl ?_ ?_ ?_⟩,
    ⟨Probes.of (x := s.x2) (y := s.y2) rfl ?_ ?_ ?_,
      Probes.of (x := s.x1) (y := s.y1) rfl ?_ ?_ ?_⟩,
    ⟨Probes.of (x := s.x2) (y := s.y1) rfl ?_ ?_ ?_,
      Probes.of (x := s.x1) (y := s.y2) rfl ?_ ?_ ?_⟩⟩
  all_goals
    simp only [Scan.left, Scan.right, Scan.top, Scan.bottom, Scan.leftTop, Scan.rightBottom,
      Scan.leftBottom, Scan.rightTop, OnBoard, Bool.and_eq_true, decide_eq_true_eq]
    omega

/-- A round behind all four edges: no line has a point left. -/
theorem Searching.over {b : Board} {pt : ChessPt} {n r : Nat} {s : Scan} (h : Searching b pt n r s)
    (hguard : ¬ (s.x1 < b.W ∨ s.y1 < b.H ∨ s.x2 > -1 ∨ s.y2 > -1)) (r' : Nat) :
    leader b pt n r' = none := by
  refine leader_eq_none.mpr fun d hd => ?_
  obtain ⟨hx1, hx2, hy1, hy2, -⟩ := id h
  have hout : ¬ Inside b pt d ((r + 1 : Nat) : Int) ∧ ¬ Inside b pt d (-((r + 1 : Nat) : Int)) := by
    unfold Inside OnBoard
    rcases mem_directions.mp hd with rfl | rfl | rfl | rfl <;> dsimp only <;> omega
  have hbehind : Ray.behind (Same b pt d) r' ≤ Ray.behind (Same b pt d) r :=
    reach_le_of_not (fun hsame : Same b pt d _ => hout.2 hsame.inside) r'
  have hahead : Ray.ahead (Same b pt d) r' ≤ Ray.ahead (Same b pt d) r :=
    reach_le_of_not (fun hsame : Same b pt d _ => hout.1 hsame.inside) r'
  exact Nat.lt_of_le_of_lt (Nat.add_le_add hbehind hahead) (h.room d hd)

/-- **One round.**  The search is over when the round has left the board on all sides; else
    the first line with `n` points ends it, and without one it goes on. -/
theorem findFirstPass_spec {b : Board} {pt : ChessPt} {n r : Nat} {s : Scan}
    (hpt : OnBoard b pt.x pt.y) (h : Searching b pt n r s) :
    (findFirstPass b pt n s = .error .missed ∧ ∀ r', leader b pt n r' = none)
    ∨ (r + 1 < b.W + b.H ∧ ∃ s', findFirstPass b pt n s = .ok s' ∧ Searching b pt n (r + 1) s')
    ∨ ∃ d e, leader b pt n (r + 1) = some d ∧ findFirstPass b pt n s = .error e
        ∧ Verdict b pt d n (r + 1) e := by
  obtain ⟨hx1, hx2, hy1, hy2, hlr, htb, hltrb, hlbrt⟩ := id h
  obtain ⟨hx₀, hxW, hy₀, hyH⟩ := id hpt
  by_cases hguard : s.x1 < b.W ∨ s.y1 < b.H ∨ s.x2 > -1 ∨ s.y2 > -1
  · obtain ⟨⟨hl, hr⟩, ⟨ht, hb⟩, ⟨hlt, hrb⟩, hlb, hrt⟩ := h.probes hpt
    have hslr := searchLine_spec hpt hl hr hlr
    have hstb := searchLine_spec hpt ht hb htb
    have hsltrb := searchLine_spec hpt hlt hrb hltrb
    have hslbrt := searchLine_spec hpt hlb hrt hlbrt
    refine .inr ?_
    rw [findFirstPass, if_pos hguard]
    by_cases h1 : n ≤ count (Same b pt (1, 0)) (r + 1)
    · obtain ⟨e, hrun, hv⟩ := hslr.2 h1
      refine .inr ⟨(1, 0), e, by simp [leader, directions, h1], ?_, hv⟩
      rw [hrun]
      rfl
    obtain ⟨lr, hrun1, hlr'⟩ := hslr.1 (Nat.lt_of_not_le h1)
    by_cases h2 : n ≤ count (Same b pt (0, 1)) (r + 1)
    · obtain ⟨e, hrun, hv⟩ := hstb.2 h2
      refine .inr ⟨(0, 1), e, by simp [leader, directions, h1, h2], ?_, hv⟩
      rw [hrun1, hrun]
      rfl
    obtain ⟨tb, hrun2, htb'⟩ := hstb.1 (Nat.lt_of_not_le h2)
    by_cases h3 : n ≤ count (Same b pt (1, 1)) (r + 1)
    · obtain ⟨e, hrun, hv⟩ := hsltrb.2 h3
      refine .inr ⟨(1, 1), e, by simp [leader, directions, h1, h2, h3], ?_, hv⟩
      rw [hrun1, hrun2, hrun]
      rfl
    obtain ⟨ltrb, hrun3, hltrb'⟩ := hsltrb.1 (Nat.lt_of_not_le h3)
    by_cases h4 : n ≤ count (Same b pt (1, -1)) (r + 1)
    · obtain ⟨e, hrun, hv⟩ := hslbrt.2 h4
      refine .inr ⟨(1, -1), e, by simp [leader, directions, h1, h2, h3, h4], ?_, hv⟩
      rw [hrun1, hrun2, hrun3, hrun]
      rfl
    obtain ⟨lbrt, hrun4, hlbrt'⟩ := hslbrt.1 (Nat.lt_of_not_le h4)
    refine .inl ⟨by omega, _, by rw [hrun1, hrun2, hrun3, hrun4]; rfl, ?_⟩
    exact ⟨by dsimp only; omega, by dsimp only; omega, by dsimp only; omega, by dsimp only; omega,
      hlr', htb', hltrb', hlbrt'⟩
  · exact .inl ⟨if_neg hguard, h.over hguard⟩

/-! ## The search from one point -/

/-- How a search for `n` points ends. -/
def Ends (b : Board) (pt : ChessPt) (n : Nat) (e : Exit) : Prop :=
  (e = .missed ∧ ∀ r, leader b pt n r = none)
    ∨ ∃ r d, leader b pt n r = none ∧ leader b pt n (r + 1) = some d
        ∧ Verdict b pt d n (r + 1) e

theorem searching_start {b : Board} {pt : ChessPt} {n : Nat} (hn : 1 ≤ n) :
    Searching b pt n 0 ⟨pt.x + 1, pt.x - 1, pt.y + 1, pt.y - 1, ⟨false, false, []⟩,
      ⟨false, false, []⟩, ⟨false, false, []⟩, ⟨false, false, []⟩⟩ := by
  have hfollows : ∀ d, Follows b pt d n 0 ⟨false, false, []⟩ := fun d =>
    ⟨⟨(fun h => nomatch h), fun _ => .inl rfl⟩, ⟨(fun h => nomatch h), fun _ => .inl rfl⟩,
      List.Perm.refl _, hn⟩
  exact ⟨rfl, rfl, rfl, rfl, hfollows _, hfollows _, hfollows _, hfollows _⟩

theorem findFirstStep_spec {b : Board} {pt : ChessPt} {n : Nat} (hpt : OnBoard b pt.x pt.y) :
    ∀ k s, (∃ r, Searching b pt n r s ∧ b.W + b.H ≤ r + k) →
      (∃ e, findFirstStep b pt n s = some (.done e) ∧ Ends b pt n e)
      ∨ ∃ s' k', findFirstStep b pt n s = some (.next s') ∧ k' < k
          ∧ ∃ r, Searching b pt n r s' ∧ b.W + b.H ≤ r + k' := by
  rintro k s ⟨r, hs, hk⟩
  unfold findFirstStep
  rcases findFirstPass_spec hpt hs with ⟨hpass, hnone⟩ | ⟨hr, s', hpass, hs'⟩ | ⟨d, e, hd, hpass, hv⟩
  · exact .inl ⟨.missed, by rw [hpass], .inl ⟨rfl, hnone⟩⟩
  · exact .inr ⟨s', k - 1, by rw [hpass], by omega, r + 1, hs', by omega⟩
  · exact .inl ⟨e, by rw [hpass], .inr ⟨r, d, leader_eq_none.mpr hs.room, hd, hv⟩⟩

/-- **`chess_board_find_first` returns**, as its lines say. -/
theorem findFirst_spec {b : Board} {pt : ChessPt} {n : Nat} (hpt : OnBoard b pt.x pt.y)
    (hn : 1 ≤ n) :
    ∃ e N, (∀ fuel, N ≤ fuel → chessBoardFindFirst b pt n fuel = some e) ∧ Ends b pt n e := by
  obtain ⟨e, hends, hrun⟩ := loop_total (findFirstStep_spec hpt) (b.W + b.H) _
    ⟨0, searching_start hn, by omega⟩
  exact ⟨e, b.W + b.H + 1, fun fuel hfuel => hrun fuel (by omega), hends⟩

/-! ## Points of equal `hit` on a line -/

/-- `n` consecutive points with the same `hit`, which is not 0. -/
def Run (b : Board) (n : Nat) (x y : Int) (d : Int × Int) : Prop :=
  ∃ h, h ≠ 0 ∧ ∀ i : Nat, i < n → hitAt b (x + d.1 * i) (y + d.2 * i) = some h

/-- The indices of `n` consecutive points. -/
def runPts (b : Board) (n : Nat) (x y : Int) (d : Int × Int) : List Nat :=
  (List.range n).map fun i : Nat => index b (x + d.1 * i) (y + d.2 * i)

theorem hitAt_onBoard {b : Board} {x y h : Int} (hh : hitAt b x y = some h) : OnBoard b x y := by
  by_contra hout
  rw [hitAt, if_neg hout] at hh
  exact absurd hh (Option.some_ne_none h).symm

/-- The point at `(x, y)` has these coordinates. -/
theorem OnBoard.coords {b : Board} {x y : Int} {p : ChessPt} (h : OnBoard b x y)
    (hp : b.pts[index b x y]? = some p) : p.x = x ∧ p.y = y := by
  obtain ⟨hx, hy⟩ := b.coords _ p hp
  have hW : (0 : Int) < b.W := Int.lt_of_le_of_lt h.1 h.2.1
  rw [Int.natCast_emod, h.cast_index] at hx
  rw [Int.natCast_ediv, h.cast_index] at hy
  constructor
  · rw [hx, Int.add_comm, Int.add_mul_emod_self_right, Int.emod_eq_of_lt h.1 h.2.1]
  · rw [hy, Int.add_comm, Int.add_mul_ediv_right _ _ (Int.ne_of_gt hW),
      Int.ediv_eq_zero_of_lt h.1 h.2.1, Int.zero_add]

theorem Board.hitAt_self {b : Board} {j : Nat} {p : ChessPt} (h : b.pts[j]? = some p) :
    hitAt b p.x p.y = some p.hit := by
  obtain ⟨hon, hidx⟩ := Board.point h
  obtain ⟨q, -, hq, hhit⟩ := hon.read
  rw [hidx, h] at hq
  rw [hhit, Option.some.inj hq]

theorem cell_zero (b : Board) (pt : ChessPt) (d : Int × Int) :
    cell b pt d 0 = index b pt.x pt.y := by
  rw [cell, Int.mul_zero, Int.mul_zero, Int.add_zero, Int.add_zero]

/-- The points found behind and ahead of a point have its `hit`, and so has the point. -/
theorem same_between {b : Board} {j : Nat} {pt : ChessPt} {d : Int × Int} {r : Nat} {t : Int}
    (hpt : b.pts[j]? = some pt) (hlo : -(Ray.behind (Same b pt d) r : Int) ≤ t)
    (hhi : t ≤ Ray.ahead (Same b pt d) r) : Same b pt d t := by
  rcases Int.lt_trichotomy t 0 with hneg | rfl | hpos
  · have hle : (-t).toNat ≤ Ray.behind (Same b pt d) r := by omega
    have hsame : Same b pt d (-((-t).toNat : Int)) := ok_of_le_reach (by omega) hle
    have ht : -((-t).toNat : Int) = t := by omega
    exact ht ▸ hsame
  · show hitAt b (pt.x + d.1 * 0) (pt.y + d.2 * 0) = some pt.hit
    rw [Int.mul_zero, Int.mul_zero, Int.add_zero, Int.add_zero]
    exact Board.hitAt_self hpt
  · have hle : t.toNat ≤ Ray.ahead (Same b pt d) r := by omega
    have hsame : Same b pt d (t.toNat : Int) := ok_of_le_reach (by omega) hle
    have ht : (t.toNat : Int) = t := by omega
    exact ht ▸ hsame

/-- The same line seen from its `t`-th point. -/
theorem same_shift {b : Board} {pt q : ChessPt} {d : Int × Int} {t : Int}
    (hx : q.x = pt.x + d.1 * t) (hy : q.y = pt.y + d.2 * t) (hhit : q.hit = pt.hit) (u : Int) :
    Same b q d u ↔ Same b pt d (t + u) := by
  show hitAt b (q.x + d.1 * u) (q.y + d.2 * u) = some q.hit
    ↔ hitAt b (pt.x + d.1 * (t + u)) (pt.y + d.2 * (t + u)) = some pt.hit
  rw [hx, hy, hhit, Int.mul_add, Int.mul_add, ← Int.add_assoc, ← Int.add_assoc]

/-- **What is found is a run.** -/
theorem found_run {b : Board} {j : Nat} {pt : ChessPt} {d : Int × Int} {n r : Nat}
    {pts : List Nat} (hpt : b.pts[j]? = some pt) (hhit : pt.hit ≠ 0)
    (hcount : count (Same b pt d) r = n) (hpts : pts.Perm (onLine b pt d r)) :
    ∃ x y, Run b (n + 1) x y d ∧ (j :: pts).Perm (runPts b (n + 1) x y d) := by
  have hsum : Ray.behind (Same b pt d) r + Ray.ahead (Same b pt d) r = n := hcount
  have hshift : ∀ (z e : Int) (i : Nat), z + e * -(Ray.behind (Same b pt d) r : Int) + e * (i : Int)
      = z + e * (-(Ray.behind (Same b pt d) r : Int) + (i : Int)) := by
    intro z e i
    ring
  refine ⟨pt.x + d.1 * -(Ray.behind (Same b pt d) r : Int),
    pt.y + d.2 * -(Ray.behind (Same b pt d) r : Int), ⟨pt.hit, hhit, fun i hi => ?_⟩, ?_⟩
  · rw [hshift, hshift]
    exact same_between (r := r) hpt (by omega) (by omega)
  · have hperm := segment_perm (cell b pt d) (Ray.behind (Same b pt d) r)
      (Ray.ahead (Same b pt d) r)
    rw [cell_zero, (Board.point hpt).2, hsum] at hperm
    refine (hpts.cons j).trans (hperm.trans (List.Perm.of_eq ?_))
    refine List.map_congr_left fun i _ => ?_
    rw [cell, hshift, hshift]

/-- A search from a point with `n` more of its `hit` on one side does not miss. -/
theorem not_missed {b : Board} {pt : ChessPt} {d : Int × Int} {n : Nat} (hd : d ∈ directions)
    (h : (∀ i : Nat, 1 ≤ i → i ≤ n → Same b pt d i) ∨ (∀ i : Nat, 1 ≤ i → i ≤ n → Same b pt d (-i))) :
    leader b pt n n ≠ none := by
  intro hnone
  have hlt : Ray.behind (Same b pt d) n + Ray.ahead (Same b pt d) n < n :=
    leader_eq_none.mp hnone d hd
  rcases h with h | h
  · have hfull : Ray.ahead (Same b pt d) n = n := reach_full h
    omega
  · have hfull : Ray.behind (Same b pt d) n = n := reach_full h
    omega

/-! ## The search of the board -/

/-- The search passes over the point: it is not hit, or a search from it misses. -/
def Quiet (b : Board) (n j : Nat) : Prop :=
  ∀ pt, b.pts[j]? = some pt → pt.hit ≠ 0 → ∀ r, leader b pt (n - 1) r = none

/-- How the loop over the points of `js` ends. -/
inductive Scanned (b : Board) (n : Nat) (js : List Nat) : Result → Prop where
  | quiet : (∀ j ∈ js, Quiet b n j) → Scanned b n js (.returned (-1) none b.pts)
  | stop {before after : List Nat} {j r : Nat} {pt : ChessPt} {d : Int × Int} {e : Exit}
      {res : Result} : js = before ++ j :: after → (∀ i ∈ before, Quiet b n i) →
      b.pts[j]? = some pt → pt.hit ≠ 0 → leader b pt (n - 1) r = none →
      leader b pt (n - 1) (r + 1) = some d → Verdict b pt d (n - 1) (r + 1) e →
      ((∃ pts, e = .found pts ∧ res = .returned 0 (some pts) (pts.foldl setWin (setWin b.pts j)))
        ∨ (e = .overflow ∧ res = .overflow)) → Scanned b n js res

theorem Scanned.skip {b : Board} {n j : Nat} {js : List Nat} {res : Result}
    (hj : Quiet b n j) (h : Scanned b n js res) : Scanned b n (j :: js) res := by
  cases h with
  | quiet hq => exact .quiet (List.forall_mem_cons.mpr ⟨hj, hq⟩)
  | @stop before after i r pt d e res hsplit hq hpt hhit hnone hsome hv hres =>
      have hsplit' : j :: js = (j :: before) ++ i :: after := by rw [hsplit]; rfl
      exact .stop hsplit' (List.forall_mem_cons.mpr ⟨hj, hq⟩) hpt hhit hnone hsome hv hres

/-- **The loop over the points returns.** -/
theorem findFrom_spec {b : Board} {n : Nat} (hn : 2 ≤ n) (js : List Nat)
    (hjs : ∀ j ∈ js, j < b.pts.length) :
    ∃ res N, (∀ fuel, N ≤ fuel → findFrom b n fuel js = some res) ∧ Scanned b n js res := by
  induction js with
  | nil => exact ⟨_, 0, fun fuel _ => rfl, .quiet fun j hj => absurd hj List.not_mem_nil⟩
  | cons j js ih =>
      obtain ⟨res, N, hrest, hscan⟩ := ih fun i hi => hjs i (List.mem_cons_of_mem j hi)
      obtain ⟨pt, hpt⟩ : ∃ pt, b.pts[j]? = some pt :=
        ⟨_, List.getElem?_eq_getElem (hjs j List.mem_cons_self)⟩
      have hstep := findFrom_cons n js hpt
      by_cases hhit : pt.hit = 0
      · refine ⟨res, N, fun fuel hfuel => ?_, hscan.skip fun pt' hpt' hne => ?_⟩
        · rw [hstep, if_pos hhit, hrest fuel hfuel]
        · rw [Option.some.inj (hpt'.symm.trans hpt)] at hne
          exact absurd hhit hne
      · obtain ⟨e, M, hfirst, hends⟩ := findFirst_spec (Board.point hpt).1 (by omega : 1 ≤ n - 1)
        rcases hends with ⟨rfl, hnone⟩ | ⟨r, d, hnone, hsome, hv⟩
        · refine ⟨res, max N M, fun fuel hfuel => ?_, hscan.skip fun pt' hpt' _ => ?_⟩
          · rw [hstep, if_neg hhit, hfirst fuel (by omega)]
            exact hrest fuel (by omega)
          · rw [Option.some.inj (hpt'.symm.trans hpt)]
            exact hnone
        · have hquiet : ∀ i ∈ ([] : List Nat), Quiet b n i :=
            fun i hi => absurd hi List.not_mem_nil
          rcases id hv with ⟨-, pts, rfl, -⟩ | ⟨-, rfl⟩
          · refine ⟨_, M, fun fuel hfuel => ?_,
              .stop rfl hquiet hpt hhit hnone hsome hv (.inl ⟨pts, rfl, rfl⟩)⟩
            rw [hstep, if_neg hhit, hfirst fuel hfuel]
            rfl
          · refine ⟨_, M, fun fuel hfuel => ?_,
              .stop rfl hquiet hpt hhit hnone hsome hv (.inr ⟨rfl, rfl⟩)⟩
            rw [hstep, if_neg hhit, hfirst fuel hfuel]
            rfl

/-- The two loops go through the indices in order. -/
theorem cells_eq (b : Board) : cells b = List.range (b.H * b.W) := by
  unfold cells
  induction b.H with
  | zero => rw [Nat.zero_mul]; rfl
  | succ h ih =>
      rw [List.range_succ, List.flatMap_append, ih, Nat.succ_mul, List.range_add,
        List.flatMap_singleton, List.range'_eq_map_range]

/-- What comes before `j` in the search are the smaller indices. -/
theorem cells_before {b : Board} {before after : List Nat} {i j : Nat}
    (h : cells b = before ++ j :: after) (hij : i < j) : i ∈ before := by
  rw [cells_eq] at h
  have hsorted : (before ++ j :: after).Pairwise (· < ·) := h ▸ List.pairwise_lt_range
  have hj : j < b.H * b.W := List.mem_range.mp (h ▸ List.mem_append_right _ List.mem_cons_self)
  have hi : i ∈ before ++ j :: after := h ▸ List.mem_range.mpr (by omega)
  rcases List.mem_append.mp hi with hi | hi
  · exact hi
  · rcases List.mem_cons.mp hi with rfl | hi
    · omega
    · have hlt := (List.pairwise_cons.mp (List.pairwise_append.mp hsorted).2.1).1 i hi
      omega

/-- The index of the `t`-th point of a line. -/
theorem Inside.cast_cell {b : Board} {j : Nat} {pt : ChessPt} {d : Int × Int} {t : Int}
    (hpt : b.pts[j]? = some pt) (h : Inside b pt d t) :
    ((cell b pt d t : Nat) : Int) = j + t * (d.2 * b.W + d.1) := by
  obtain ⟨hon, hidx⟩ := Board.point hpt
  have hj : (j : Int) = pt.y * b.W + pt.x := by rw [← hidx, hon.cast_index]
  have hcell : ((cell b pt d t : Nat) : Int)
      = (pt.y + d.2 * t) * b.W + (pt.x + d.1 * t) := OnBoard.cast_index h
  rw [hcell, hj]
  ring

/-- One end of a line comes earlier in the search than the point between. -/
theorem end_before {b : Board} {j k : Nat} {pt : ChessPt} {d : Int × Int}
    (hpt : b.pts[j]? = some pt) (hd : d ∈ directions) (hk : 1 ≤ k)
    (hlo : Inside b pt d (-(k : Int))) (hhi : Inside b pt d (k : Int)) :
    cell b pt d (-(k : Int)) < j ∨ cell b pt d (k : Int) < j := by
  have hk' : (0 : Int) < k := by exact_mod_cast hk
  have hx₀ := (Board.point hpt).1.1
  have hxW := (Board.point hpt).1.2.1
  have hstep : 0 < d.2 * b.W + d.1 ∨ d.2 * b.W + d.1 < 0 := by
    rcases mem_directions.mp hd with rfl | rfl | rfl | rfl
    · left; dsimp only; omega
    · left; dsimp only; omega
    · left; dsimp only; omega
    · -- the second direction of the last line leads upwards; the board has two columns
      have hcolumns := hhi.2.1
      right; dsimp only at hcolumns ⊢; omega
  rcases hstep with hpos | hneg
  · have hback := Int.mul_pos hk' hpos
    refine .inl (Int.ofNat_lt.mp ?_)
    rw [hlo.cast_cell hpt, Int.neg_mul]
    omega
  · have hback := Int.mul_neg_of_pos_of_neg hk' hneg
    refine .inr (Int.ofNat_lt.mp ?_)
    rw [hhi.cast_cell hpt]
    omega

/-- **A store behind the end is not reached.**  It needs half of `n` points on both sides of
    the point; an earlier point of the search then has enough of them on one side. -/
theorem overflow_elsewhere {b : Board} {n j r : Nat} {pt : ChessPt} {d : Int × Int}
    (hpt : b.pts[j]? = some pt) (hhit : pt.hit ≠ 0) (hd : d ∈ directions)
    (hnone : leader b pt (n - 1) r = none) (hgt : n - 1 < count (Same b pt d) (r + 1)) :
    ∃ i, i < j ∧ ¬ Quiet b n i := by
  obtain ⟨hbehind, hahead, hm⟩ := both_advance (leader_eq_none.mp hnone d hd) hgt
  have hsame : ∀ t : Int, -((r + 1 : Nat) : Int) ≤ t → t ≤ ((r + 1 : Nat) : Int) →
      Same b pt d t := fun t hlo hhi =>
    same_between (r := r + 1) hpt (by rw [hbehind]; exact hlo) (by rw [hahead]; exact hhi)
  have hloud : ∀ t : Int, (t = -((r + 1 : Nat) : Int) ∨ t = ((r + 1 : Nat) : Int)) →
      ¬ Quiet b n (cell b pt d t) := by
    intro t ht hquiet
    have hst : Same b pt d t := hsame t (by omega) (by omega)
    obtain ⟨q, -, hq, hqhit⟩ := hst.inside.read
    obtain ⟨hqx, hqy⟩ := hst.inside.coords hq
    have heq : q.hit = pt.hit := Option.some.inj (hqhit.symm.trans hst)
    refine not_missed hd ?_ (hquiet q hq (heq ▸ hhit) (n - 1))
    rcases ht with ht | ht
    · exact .inl fun i h₁ h₂ => (same_shift hqx hqy heq _).mpr (hsame _ (by omega) (by omega))
    · exact .inr fun i h₁ h₂ => (same_shift hqx hqy heq _).mpr (hsame _ (by omega) (by omega))
  have hlo := (hsame (-((r + 1 : Nat) : Int)) (by omega) (by omega)).inside
  have hhi := (hsame ((r + 1 : Nat) : Int) (by omega) (by omega)).inside
  rcases end_before hpt hd (by omega) hlo hhi with hlt | hlt
  · exact ⟨_, hlt, hloud _ (.inl rfl)⟩
  · exact ⟨_, hlt, hloud _ (.inr rfl)⟩

theorem Scanned.returned {b : Board} {n : Nat} {res : Result} (h : Scanned b n (cells b) res) :
    res ≠ .overflow := by
  cases h with
  | quiet _ => exact fun h => nomatch h
  | stop hsplit hquiet hpt hhit hnone hsome hv hres =>
      rcases hres with ⟨pts, -, rfl⟩ | ⟨rfl, rfl⟩
      · exact fun h => nomatch h
      · rcases hv with ⟨-, pts, he, -⟩ | ⟨hgt, -⟩
        · exact nomatch he
        · obtain ⟨i, hij, hloud⟩ :=
            overflow_elsewhere hpt hhit (leader_eq_some hsome).1 hnone hgt
          exact absurd (hquiet i (cells_before hsplit hij)) hloud

theorem cells_lt (b : Board) : ∀ j ∈ cells b, j < b.pts.length := by
  intro j hj
  rw [cells_eq, List.mem_range, Nat.mul_comm] at hj
  rw [b.length_eq]
  exact hj

/-- A run is met by the search at its first point, if not before. -/
theorem Run.not_quiet {b : Board} {n : Nat} {x y : Int} {d : Int × Int} (hn : 2 ≤ n)
    (h : Run b n x y d) (hd : d ∈ directions) : ∃ j ∈ cells b, ¬ Quiet b n j := by
  obtain ⟨hit, hne, hall⟩ := h
  have hfirst := hall 0 (by omega)
  rw [Int.natCast_zero, Int.mul_zero, Int.mul_zero, Int.add_zero, Int.add_zero] at hfirst
  have hon := hitAt_onBoard hfirst
  obtain ⟨p, -, hp, hhit⟩ := hon.read
  obtain ⟨hpx, hpy⟩ := hon.coords hp
  have heq : p.hit = hit := Option.some.inj (hhit.symm.trans hfirst)
  refine ⟨index b x y, ?_, fun hquiet => ?_⟩
  · rw [cells_eq, List.mem_range, Nat.mul_comm, ← b.length_eq]
    exact hon.index_lt
  · refine not_missed hd (.inl fun i _ hi => ?_) (hquiet p hp (heq ▸ hne) (n - 1))
    show hitAt b (p.x + d.1 * i) (p.y + d.2 * i) = some p.hit
    rw [hpx, hpy, heq]
    exact hall i (by omega)

theorem runPts_nodup {b : Board} {n : Nat} {x y : Int} {d : Int × Int} (h : Run b n x y d)
    (hd : d ∈ directions) : (runPts b n x y d).Nodup := by
  obtain ⟨hit, -, hall⟩ := h
  refine List.Nodup.map_on (fun i hi k hk heq => ?_) List.nodup_range
  have honi := hitAt_onBoard (hall i (List.mem_range.mp hi))
  have honk := hitAt_onBoard (hall k (List.mem_range.mp hk))
  obtain ⟨p, -, hp, -⟩ := honi.read
  obtain ⟨hxi, hyi⟩ := honi.coords hp
  obtain ⟨hxk, hyk⟩ := honk.coords (heq ▸ hp)
  rcases mem_directions.mp hd with rfl | rfl | rfl | rfl <;> dsimp only at hxi hxk hyi hyk <;> omega

theorem foldl_setWin (l : List Nat) :
    ∀ pts : List ChessPt, l.foldl setWin pts
      = pts.mapIdx fun i p => if i ∈ l then { p with win := 1 } else p := by
  induction l with
  | nil =>
      intro pts
      apply List.ext_getElem?
      intro i
      rw [List.getElem?_mapIdx]
      simp
  | cons j l ih =>
      intro pts
      rw [List.foldl_cons, ih]
      apply List.ext_getElem?
      intro i
      rw [List.getElem?_mapIdx, List.getElem?_mapIdx, setWin, List.getElem?_modify,
        Option.map_eq_map, Option.map_map]
      congr 1
      funext p
      by_cases hji : j = i
      · subst hji
        by_cases hl : j ∈ l <;> simp [hl]
      · have hij : ¬ i = j := fun h => hji h.symm
        by_cases hl : i ∈ l <;> simp [hl, hij, hji]

/-- A board of one row, with three stones of one colour. -/
def threeInRow : Board :=
  (((resetBoard 3 1 (List.replicate 3 ⟨7, 7, 7, 7⟩) rfl).place 0 1).place 1 1).place 2 1

/-- `chess_board_find_first` stores behind the end of an array exactly if `n` is even and
    the first line with `n - 1` points after `n / 2` rounds has `n` of them. -/
theorem findFirst_overflow_iff {b : Board} {n : Nat} {pt : ChessPt} (hn : 2 ≤ n)
    (hpt : OnBoard b pt.x pt.y) :
    (∃ N, ∀ fuel, N ≤ fuel → chessBoardFindFirst b pt (n - 1) fuel = some .overflow) ↔
      ∃ k d, n = 2 * k ∧ leader b pt (n - 1) k = some d ∧ count (Same b pt d) k = n := by
  obtain ⟨e, M, hrun, hends⟩ := findFirst_spec hpt (by omega : 1 ≤ n - 1)
  constructor
  · rintro ⟨N, h⟩
    have he : e = .overflow :=
      Option.some.inj ((hrun (max N M) (by omega)).symm.trans (h (max N M) (by omega)))
    subst he
    rcases hends with ⟨he, -⟩ | ⟨r, d, hnone, hsome, ⟨-, pts, he, -⟩ | ⟨hgt, -⟩⟩
    · exact nomatch he
    · exact nomatch he
    · obtain ⟨hd, -⟩ := leader_eq_some hsome
      obtain ⟨hbehind, hahead, hm⟩ := both_advance (leader_eq_none.mp hnone d hd) hgt
      refine ⟨r + 1, d, by omega, hsome, ?_⟩
      show Ray.behind (Same b pt d) (r + 1) + Ray.ahead (Same b pt d) (r + 1) = n
      omega
  · rintro ⟨k, d, hk, hlead, hcount⟩
    obtain ⟨hd, hge⟩ := leader_eq_some hlead
    rcases hends with ⟨-, hnone⟩ | ⟨r, d', hnone, hsome, hv⟩
    · rw [hnone k] at hlead
      exact nomatch hlead
    · -- the round that ends the search is round `k`, and the line is `d`
      have hrk : r < k := by
        by_contra hkr
        have hmono := count_mono (Same b pt d) (Nat.le_of_not_lt hkr)
        have hlt := leader_eq_none.mp hnone d hd
        omega
      have hle := count_le (Same b pt d') (r + 1)
      have hge' := (leader_eq_some hsome).2
      obtain rfl : r + 1 = k := by omega
      obtain rfl : d' = d := Option.some.inj (hsome.symm.trans hlead)
      rcases hv with ⟨heq, -⟩ | ⟨-, rfl⟩
      · omega
      · exact ⟨M, hrun⟩

end Chess
