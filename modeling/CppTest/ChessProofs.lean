import CppTest.MachineProofs
import CppTest.RayProofs
import Mathlib.Tactic.Linarith

/-! # Gobang: the search for a win (`src/chess/chess_core.cpp`)

    A `chess_board` is a row-major array of points; a pointer to a point is its index
    here.  `Board` carries what `chess_board_reset` sets up: the size of the array, and
    that every point holds its own coordinates.

    * `chessBoardFindFirst` follows the four lines through one point, all at once, and
      notes the points of equal `hit` in four scratch arrays of `n` pointers.  A store
      behind their end is an outcome of its own (`Exit.overflow`), and so is a read
      outside the board (`Exit.outside`).
    * `chessBoardFind` goes through the points of the board, row by row.
    * What `verbose` prints is left out, and `int` arithmetic does not wrap here.

    The second part of the file is about one round of the loop: it does to each line what
    a round of `Ray` does. -/

namespace Chess

open Machine Ray

/-! ## The board -/

/-- `chess_pt`. -/
structure ChessPt where
  x : Int
  y : Int
  hit : Int
  win : Int
  deriving Repr, DecidableEq

/-- `chess_board_reset`: the array afterwards. -/
def chessBoardReset (W H : Nat) (pts : List ChessPt) : List ChessPt :=
  (List.range H).foldl (fun pts i =>
    (List.range' (i * W) W).foldl (fun pts j =>
      pts.set j ⟨((j % W : Nat) : Int), (i : Int), 0, 0⟩) pts) pts

/-- `chess_board`, with points that carry their own coordinates. -/
structure Board where
  W : Nat
  H : Nat
  pts : List ChessPt
  length_eq : pts.length = W * H
  coords : ∀ j p, pts[j]? = some p → p.x = ((j % W : Nat) : Int) ∧ p.y = ((j / W : Nat) : Int)

theorem foldl_set_range' {α : Type} (f : Nat → α) (s k : Nat) (l : List α) (q : Nat) :
    ((List.range' s k).foldl (fun l j => l.set j (f j)) l)[q]?
      = if s ≤ q ∧ q < s + k then l[q]?.map fun _ => f q else l[q]? := by
  induction k with
  | zero => rw [if_neg (by omega)]; rfl
  | succ k ih =>
      rw [List.range'_concat, List.foldl_append, List.foldl_cons, List.foldl_nil, Nat.one_mul,
        List.getElem?_set']
      by_cases hq : s + k = q
      · rw [if_pos hq, ih, if_neg (by omega), if_pos (by omega), hq]
        rfl
      · rw [if_neg hq, ih]
        by_cases hin : s ≤ q ∧ q < s + k
        · rw [if_pos hin, if_pos (by omega)]
        · rw [if_neg hin, if_neg (by omega)]

theorem chessBoardReset_getElem? (W H : Nat) (pts : List ChessPt) (q : Nat) :
    (chessBoardReset W H pts)[q]?
      = if q < H * W then pts[q]?.map fun _ => ⟨((q % W : Nat) : Int), ((q / W : Nat) : Int), 0, 0⟩
        else pts[q]? := by
  induction H with
  | zero => rw [if_neg (by omega)]; rfl
  | succ H ih =>
      have hrow := foldl_set_range' (fun j => (⟨((j % W : Nat) : Int), (H : Int), 0, 0⟩ : ChessPt))
        (H * W) W (chessBoardReset W H pts) q
      have hlast : chessBoardReset W (H + 1) pts
          = (List.range' (H * W) W).foldl (fun pts j =>
              pts.set j ⟨((j % W : Nat) : Int), (H : Int), 0, 0⟩) (chessBoardReset W H pts) := by
        rw [chessBoardReset, List.range_succ, List.foldl_append]
        rfl
      rw [hlast, hrow, ih, Nat.succ_mul]
      by_cases hin : H * W ≤ q ∧ q < H * W + W
      · have hdiv : q / W = H := Nat.div_eq_of_lt_le hin.1 (by rw [Nat.succ_mul]; exact hin.2)
        rw [if_pos hin, if_neg (by omega), if_pos hin.2, hdiv]
      · rw [if_neg hin]
        by_cases hq : q < H * W
        · rw [if_pos hq, if_pos (by omega)]
        · rw [if_neg hq, if_neg (by omega)]

/-- `chess_board_reset` gives every point its own coordinates. -/
theorem chessBoardReset_eq {W H : Nat} {pts : List ChessPt} (hlen : pts.length = W * H) :
    chessBoardReset W H pts = (List.range (W * H)).map fun q : Nat =>
      ⟨((q % W : Nat) : Int), ((q / W : Nat) : Int), 0, 0⟩ := by
  apply List.ext_getElem?
  intro q
  rw [chessBoardReset_getElem?, List.getElem?_map, Nat.mul_comm H W, ← hlen]
  by_cases hq : q < pts.length
  · rw [if_pos hq, List.getElem?_eq_getElem hq, List.getElem?_range hq]
    rfl
  · rw [if_neg hq, List.getElem?_eq_none (by omega), List.getElem?_eq_none (by simpa using hq)]
    rfl

/-- The board after `chess_board_reset`. -/
def resetBoard (W H : Nat) (pts : List ChessPt) (hlen : pts.length = W * H) : Board where
  W := W
  H := H
  pts := chessBoardReset W H pts
  length_eq := by rw [chessBoardReset_eq hlen, List.length_map, List.length_range]
  coords j p hp := by
    rw [chessBoardReset_eq hlen, List.getElem?_map, Option.map_eq_some_iff] at hp
    obtain ⟨q, hq, rfl⟩ := hp
    obtain ⟨hlt, hget⟩ := List.getElem?_eq_some_iff.mp hq
    rw [List.getElem_range] at hget
    subst hget
    exact ⟨rfl, rfl⟩

/-- `board.pts[j].hit = hit`. -/
def Board.place (b : Board) (j : Nat) (hit : Int) : Board where
  W := b.W
  H := b.H
  pts := b.pts.modify j fun p => { p with hit := hit }
  length_eq := by rw [List.length_modify, b.length_eq]
  coords i p hp := by
    rw [List.getElem?_modify, Option.map_eq_map, Option.map_eq_some_iff] at hp
    obtain ⟨q, hq, rfl⟩ := hp
    have hcoords := b.coords i q hq
    by_cases hji : j = i
    · rw [if_pos hji]
      exact hcoords
    · rw [if_neg hji]
      exact hcoords

/-! ## The search from one point -/

/-- How `chess_board_find_first` ends: `return 0` with what `memcpy` has written to `pts`,
    `return -1`, a store outside a scratch array, or a read outside the board. -/
inductive Exit where
  | found (pts : List Nat)
  | missed
  | overflow
  | outside
  deriving Repr, DecidableEq

/-- The bounds test of a direction in one round, and the index of the point behind it. -/
structure Probe where
  inside : Bool
  index : Int

/-- What one round does in one direction: `off` is the direction's flag, `arr` the part of
    the scratch array in use. -/
def look (b : Board) (n : Nat) (hit : Int) (probe : Probe) (off : Bool) (arr : List Nat) :
    Except Exit (Bool × List Nat) :=
  if !off && probe.inside then
    match getAt b.pts probe.index with
    | none => .error .outside
    | some p =>
        if p.hit ≠ hit then .ok (true, arr)
        else if arr.length < n then .ok (off, arr ++ [probe.index.toNat])
        else .error .overflow
  else .ok (off, arr)

/-- The flags of the two directions of a line, and the part of its array in use. -/
structure Line where
  off₁ : Bool
  off₂ : Bool
  arr : List Nat

/-- What one round does on one line. -/
def searchLine (b : Board) (n : Nat) (hit : Int) (probe₁ probe₂ : Probe) (l : Line) :
    Except Exit Line :=
  if !l.off₁ || !l.off₂ then do
    let (off₁, arr) ← look b n hit probe₁ l.off₁ l.arr
    let (off₂, arr) ← look b n hit probe₂ l.off₂ arr
    if n ≤ arr.length then .error (.found (arr.take n))
    else .ok ⟨off₁, off₂, arr⟩
  else .ok l

/-- The variables of the loop. -/
structure Scan where
  x1 : Int
  x2 : Int
  y1 : Int
  y2 : Int
  lr : Line
  tb : Line
  ltrb : Line
  lbrt : Line

/-- The point to the left. -/
def Scan.left (s : Scan) (b : Board) (pt : ChessPt) : Probe :=
  ⟨s.x2 > -1, pt.y * b.W + s.x2⟩

/-- The point to the right. -/
def Scan.right (s : Scan) (b : Board) (pt : ChessPt) : Probe :=
  ⟨s.x1 < b.W, pt.y * b.W + s.x1⟩

/-- The point at the top. -/
def Scan.top (s : Scan) (b : Board) (pt : ChessPt) : Probe :=
  ⟨s.y2 > -1, s.y2 * b.W + pt.x⟩

/-- The point at the bottom. -/
def Scan.bottom (s : Scan) (b : Board) (pt : ChessPt) : Probe :=
  ⟨s.y1 < b.H, s.y1 * b.W + pt.x⟩

/-- The point at the left top. -/
def Scan.leftTop (s : Scan) (b : Board) : Probe :=
  ⟨s.x2 > -1 && s.y2 > -1, s.y2 * b.W + s.x2⟩

/-- The point at the right bottom. -/
def Scan.rightBottom (s : Scan) (b : Board) : Probe :=
  ⟨s.x1 < b.W && s.y1 < b.H, s.y1 * b.W + s.x1⟩

/-- The point at the left bottom. -/
def Scan.leftBottom (s : Scan) (b : Board) : Probe :=
  ⟨s.y1 < b.H && s.x2 > -1, s.y1 * b.W + s.x2⟩

/-- The point at the right top. -/
def Scan.rightTop (s : Scan) (b : Board) : Probe :=
  ⟨s.y2 > -1 && s.x1 < b.W, s.y2 * b.W + s.x1⟩

/-- One round of the loop of `chess_board_find_first`. -/
def findFirstPass (b : Board) (pt : ChessPt) (n : Nat) (s : Scan) : Except Exit Scan :=
  if s.x1 < b.W ∨ s.y1 < b.H ∨ s.x2 > -1 ∨ s.y2 > -1 then do
    let lr ← searchLine b n pt.hit (s.left b pt) (s.right b pt) s.lr
    let tb ← searchLine b n pt.hit (s.top b pt) (s.bottom b pt) s.tb
    let ltrb ← searchLine b n pt.hit (s.leftTop b) (s.rightBottom b) s.ltrb
    let lbrt ← searchLine b n pt.hit (s.leftBottom b) (s.rightTop b) s.lbrt
    .ok ⟨s.x1 + 1, s.x2 - 1, s.y1 + 1, s.y2 - 1, lr, tb, ltrb, lbrt⟩
  else .error .missed

/-- The round as a pass of the loop. -/
def findFirstStep (b : Board) (pt : ChessPt) (n : Nat) (s : Scan) : Option (Pass Scan Exit) :=
  match findFirstPass b pt n s with
  | .ok s => some (.next s)
  | .error e => some (.done e)

/-- `chess_board_find_first`. -/
def chessBoardFindFirst (b : Board) (pt : ChessPt) (n fuel : Nat) : Option Exit :=
  let empty : Line := ⟨false, false, []⟩
  loop (findFirstStep b pt n) fuel ⟨pt.x + 1, pt.x - 1, pt.y + 1, pt.y - 1, empty, empty, empty, empty⟩

/-! ## The search of the board -/

/-- How `chess_board_find` ends: with its return value, what it has written to `pts` and the
    points of the board afterwards, or with a store outside a scratch array. -/
inductive Result where
  | returned (value : Int) (pts : Option (List Nat)) (board : List ChessPt)
  | overflow
  deriving Repr, DecidableEq

/-- `p->win = 1`. -/
def setWin (pts : List ChessPt) (p : Nat) : List ChessPt :=
  pts.modify p fun c => { c with win := 1 }

/-- The loop over the points, from `js` on. -/
def findFrom (b : Board) (n fuel : Nat) : List Nat → Option Result
  | [] => some (.returned (-1) none b.pts)
  | j :: js => do
      let pt ← b.pts[j]?
      if pt.hit = 0 then findFrom b n fuel js
      else
        match ← chessBoardFindFirst b pt (n - 1) fuel with
        | .found pts => some (.returned 0 (some pts) (pts.foldl setWin (setWin b.pts j)))
        | .missed => findFrom b n fuel js
        | .overflow => some .overflow
        | .outside => none

theorem findFrom_cons {b : Board} {j : Nat} {pt : ChessPt} (n : Nat) (js : List Nat)
    (hpt : b.pts[j]? = some pt) (fuel : Nat) :
    findFrom b n fuel (j :: js)
      = if pt.hit = 0 then findFrom b n fuel js
        else (chessBoardFindFirst b pt (n - 1) fuel).bind fun e =>
          match e with
          | .found pts => some (.returned 0 (some pts) (pts.foldl setWin (setWin b.pts j)))
          | .missed => findFrom b n fuel js
          | .overflow => some .overflow
          | .outside => none := by
  rw [findFrom, hpt]
  rfl

/-- The indices in the order of the two loops. -/
def cells (b : Board) : List Nat := (List.range b.H).flatMap fun i => List.range' (i * b.W) b.W

/-- `chess_board_find`. -/
def chessBoardFind (b : Board) (n fuel : Nat) : Option Result := findFrom b n fuel (cells b)

/-! ## Points by their coordinates -/

/-- A point of the board. -/
def OnBoard (b : Board) (x y : Int) : Prop := 0 ≤ x ∧ x < b.W ∧ 0 ≤ y ∧ y < b.H

instance (b : Board) (x y : Int) : Decidable (OnBoard b x y) :=
  inferInstanceAs (Decidable (_ ∧ _ ∧ _ ∧ _))

/-- The index of the point `(x, y)`. -/
def index (b : Board) (x y : Int) : Nat := (y * b.W + x).toNat

/-- The `hit` of the point `(x, y)`. -/
def hitAt (b : Board) (x y : Int) : Option Int :=
  if OnBoard b x y then (getAt b.pts (y * b.W + x)).map ChessPt.hit else none

theorem OnBoard.cast_index {b : Board} {x y : Int} (h : OnBoard b x y) :
    ((index b x y : Nat) : Int) = y * b.W + x := by
  have hpos : 0 ≤ y * b.W := Int.mul_nonneg h.2.2.1 (Int.natCast_nonneg _)
  exact Int.toNat_of_nonneg (Int.add_nonneg hpos h.1)

theorem OnBoard.index_lt {b : Board} {x y : Int} (h : OnBoard b x y) :
    index b x y < b.pts.length := by
  obtain ⟨-, hxW, -, hyH⟩ := id h
  have hrow : y * b.W ≤ ((b.H : Int) - 1) * b.W :=
    Int.mul_le_mul_of_nonneg_right (by omega) (Int.natCast_nonneg _)
  have hlt : ((index b x y : Nat) : Int) < ((b.W * b.H : Nat) : Int) := by
    rw [h.cast_index]
    push_cast
    linarith
  rw [b.length_eq]
  exact_mod_cast hlt

/-- A point of the board is read where its coordinates say. -/
theorem OnBoard.read {b : Board} {x y : Int} (h : OnBoard b x y) :
    ∃ p, getAt b.pts (y * b.W + x) = some p ∧ b.pts[index b x y]? = some p
      ∧ hitAt b x y = some p.hit := by
  obtain ⟨p, hp⟩ : ∃ p, b.pts[index b x y]? = some p :=
    ⟨_, List.getElem?_eq_getElem h.index_lt⟩
  have hget : getAt b.pts (y * b.W + x) = some p := by
    rw [← h.cast_index, getAt_natCast, hp]
  exact ⟨p, hget, hp, by rw [hitAt, if_pos h, hget]; rfl⟩

/-- The coordinates of a point are those of its index. -/
theorem Board.point {b : Board} {j : Nat} {p : ChessPt} (h : b.pts[j]? = some p) :
    OnBoard b p.x p.y ∧ index b p.x p.y = j := by
  obtain ⟨hx, hy⟩ := b.coords j p h
  have hj : j < b.W * b.H := by
    rw [← b.length_eq]
    exact (List.getElem?_eq_some_iff.mp h).1
  have hW : 0 < b.W := Nat.pos_of_mul_pos_right (Nat.lt_of_le_of_lt (Nat.zero_le j) hj)
  refine ⟨⟨hx ▸ Int.natCast_nonneg _, ?_, hy ▸ Int.natCast_nonneg _, ?_⟩, ?_⟩
  · rw [hx]
    exact_mod_cast Nat.mod_lt j hW
  · rw [hy]
    exact_mod_cast Nat.div_lt_of_lt_mul hj
  · rw [index, hx, hy]
    have hsplit : j / b.W * b.W + j % b.W = j := Nat.div_add_mod' j b.W
    have hcast : ((j / b.W : Nat) : Int) * b.W + ((j % b.W : Nat) : Int) = (j : Int) := by
      exact_mod_cast hsplit
    rw [hcast, Int.toNat_natCast]

/-! ## The lines through a point -/

/-- The lines in the order of the search, by the step towards their second direction. -/
def directions : List (Int × Int) := [(1, 0), (0, 1), (1, 1), (1, -1)]

theorem mem_directions {d : Int × Int} :
    d ∈ directions ↔ d = (1, 0) ∨ d = (0, 1) ∨ d = (1, 1) ∨ d = (1, -1) := by
  simp only [directions, List.mem_cons, List.not_mem_nil, or_false]

/-- The `t`-th point from `pt` on a line is on the board. -/
def Inside (b : Board) (pt : ChessPt) (d : Int × Int) (t : Int) : Prop :=
  OnBoard b (pt.x + d.1 * t) (pt.y + d.2 * t)

/-- It is on the board and has the same `hit`. -/
def Same (b : Board) (pt : ChessPt) (d : Int × Int) (t : Int) : Prop :=
  hitAt b (pt.x + d.1 * t) (pt.y + d.2 * t) = some pt.hit

instance (b : Board) (pt : ChessPt) (d : Int × Int) : DecidablePred (Same b pt d) :=
  fun _ => inferInstanceAs (Decidable (_ = _))

/-- The index of the `t`-th point. -/
def cell (b : Board) (pt : ChessPt) (d : Int × Int) (t : Int) : Nat :=
  index b (pt.x + d.1 * t) (pt.y + d.2 * t)

theorem Same.inside {b : Board} {pt : ChessPt} {d : Int × Int} {t : Int} (h : Same b pt d t) :
    Inside b pt d t := by
  by_contra hout
  replace hout : ¬ OnBoard b (pt.x + d.1 * t) (pt.y + d.2 * t) := hout
  rw [Same, hitAt, if_neg hout] at h
  exact nomatch h

theorem between {x e W : Int} {r : Nat} (hx : 0 ≤ x ∧ x < W)
    (hnext : 0 ≤ x + e * ((r : Int) + 1) ∧ x + e * ((r : Int) + 1) < W) :
    0 ≤ x + e * (r : Int) ∧ x + e * (r : Int) < W := by
  have hr : (0 : Int) ≤ r := Int.natCast_nonneg r
  rcases Int.le_total 0 e with he | he
  · have hmul : 0 ≤ e * (r : Int) := Int.mul_nonneg he hr
    constructor <;> linarith
  · have hmul : 0 ≤ -e * (r : Int) := Int.mul_nonneg (by omega) hr
    constructor <;> linarith

/-- A line does not come back to the board. -/
theorem Inside.ahead {b : Board} {pt : ChessPt} {d : Int × Int} {r : Nat}
    (hpt : OnBoard b pt.x pt.y) (h : Inside b pt d ((r + 1 : Nat) : Int)) :
    Inside b pt d (r : Int) := by
  obtain ⟨h₁, h₂, h₃, h₄⟩ := h
  push_cast at h₁ h₂ h₃ h₄
  obtain ⟨hx₁, hx₂⟩ := between ⟨hpt.1, hpt.2.1⟩ ⟨h₁, h₂⟩
  obtain ⟨hy₁, hy₂⟩ := between hpt.2.2 ⟨h₃, h₄⟩
  exact ⟨hx₁, hx₂, hy₁, hy₂⟩

theorem Inside.neg {b : Board} {pt : ChessPt} {d : Int × Int} {t : Int} :
    Inside b pt d (-t) ↔ Inside b pt (-d.1, -d.2) t := by
  show OnBoard b (pt.x + d.1 * -t) (pt.y + d.2 * -t)
    ↔ OnBoard b (pt.x + -d.1 * t) (pt.y + -d.2 * t)
  rw [Int.mul_neg, Int.mul_neg, Int.neg_mul, Int.neg_mul]

theorem Inside.behind {b : Board} {pt : ChessPt} {d : Int × Int} {r : Nat}
    (hpt : OnBoard b pt.x pt.y) (h : Inside b pt d (-((r + 1 : Nat) : Int))) :
    Inside b pt d (-(r : Int)) :=
  Inside.neg.mpr (Inside.ahead hpt (Inside.neg.mp h))

/-! ## One round -/

/-- The flag of a direction says how far it has come: it is set once a point of another
    `hit` is met, and not at the edge of the board. -/
def Tracks (ok inside : Nat → Prop) [DecidablePred ok] (r : Nat) (off : Bool) : Prop :=
  (off = true → reach ok r < r) ∧ (off = false → reach ok r = r ∨ ¬ inside r)

/-- The probe for the `t`-th point of a line. -/
structure Probes (b : Board) (pt : ChessPt) (d : Int × Int) (t : Int) (probe : Probe) : Prop where
  inside : probe.inside = true ↔ Inside b pt d t
  index : probe.index = (pt.y + d.2 * t) * b.W + (pt.x + d.1 * t)

/-- **One direction.**  `t` are its positions; the round adds `new`, the point it finds or
    nothing, if there is room. -/
theorem look_spec {b : Board} {pt : ChessPt} {d : Int × Int} {t : Nat → Int} {r n : Nat}
    {probe : Probe} {off : Bool} {arr : List Nat} (hroom : arr.length ≤ n)
    (hprobe : Probes b pt d (t (r + 1)) probe)
    (hback : Inside b pt d (t (r + 1)) → Inside b pt d (t r))
    (htracks : Tracks (fun i => Same b pt d (t i)) (fun i => Inside b pt d (t i)) r off) :
    ∃ off' new, Tracks (fun i => Same b pt d (t i)) (fun i => Inside b pt d (t i)) (r + 1) off'
      ∧ visited (fun i => cell b pt d (t i)) (reach (fun i => Same b pt d (t i)) (r + 1))
          = visited (fun i => cell b pt d (t i)) (reach (fun i => Same b pt d (t i)) r) ++ new
      ∧ look b n pt.hit probe off arr
          = if arr.length + new.length ≤ n then .ok (off', arr ++ new) else .error .overflow := by
  have hle := reach_le (fun i => Same b pt d (t i)) r
  by_cases hopen : off = false ∧ Inside b pt d (t (r + 1))
  · obtain ⟨rfl, hin⟩ := hopen
    have hfull : reach (fun i => Same b pt d (t i)) r = r :=
      (htracks.2 rfl).resolve_right fun h => h (hback hin)
    obtain ⟨p, hget, -, hhit⟩ := hin.read
    have hlook : look b n pt.hit probe false arr
        = if p.hit ≠ pt.hit then .ok (true, arr)
          else if arr.length < n then .ok (false, arr ++ [cell b pt d (t (r + 1))])
          else .error .overflow := by
      rw [look, if_pos (by rw [hprobe.inside.mpr hin]; rfl), hprobe.index, hget]
      rfl
    rw [hlook]
    by_cases hsame : p.hit = pt.hit
    · have hok : Same b pt d (t (r + 1)) := hhit.trans (congrArg some hsame)
      have hadv : reach (fun i => Same b pt d (t i)) (r + 1) = r + 1 := reach_advance hfull hok
      refine ⟨false, [cell b pt d (t (r + 1))], ⟨(fun h => nomatch h), fun _ => .inl hadv⟩, ?_, ?_⟩
      · rw [hadv, hfull, visited_succ]
      · rw [if_neg (not_not.mpr hsame)]
        rfl
    · have hno : ¬ Same b pt d (t (r + 1)) := fun h => hsame (Option.some.inj (hhit.symm.trans h))
      have hstay : reach (fun i => Same b pt d (t i)) (r + 1) = reach (fun i => Same b pt d (t i)) r :=
        reach_stay fun _ => hno
      refine ⟨true, [], ⟨fun _ => ?_, fun h => nomatch h⟩, ?_, ?_⟩
      · rw [hstay]
        omega
      · rw [hstay, List.append_nil]
      · rw [if_pos hsame, List.length_nil, Nat.add_zero, if_pos hroom, List.append_nil]
  · have hstay : reach (fun i => Same b pt d (t i)) (r + 1) = reach (fun i => Same b pt d (t i)) r := by
      refine reach_stay fun hfull hok => hopen ⟨?_, hok.inside⟩
      by_contra hoff
      have := htracks.1 (Bool.eq_true_of_not_eq_false hoff)
      omega
    refine ⟨off, [], ⟨fun h => ?_, fun h => .inr fun hin => hopen ⟨h, hin⟩⟩, ?_, ?_⟩
    · have := htracks.1 h
      rw [hstay]
      omega
    · rw [hstay, List.append_nil]
    · rw [List.length_nil, Nat.add_zero, if_pos hroom, List.append_nil, look, if_neg]
      intro h
      obtain ⟨hoff, hin⟩ := Bool.and_eq_true_iff.mp h
      exact hopen ⟨by simpa using hoff, hprobe.inside.mp hin⟩

theorem reach_succ_length {α : Type} {ok : Nat → Prop} [DecidablePred ok] {cell : Nat → α}
    {r : Nat} {new : List α}
    (h : visited cell (reach ok (r + 1)) = visited cell (reach ok r) ++ new) : new.length ≤ 1 := by
  have hlen := congrArg List.length h
  rw [List.length_append, length_visited, length_visited] at hlen
  rcases reach_succ ok r with hs | ⟨hs, hs'⟩
  · omega
  · omega

/-- The points found on a line after `r` rounds. -/
def onLine (b : Board) (pt : ChessPt) (d : Int × Int) (r : Nat) : List Nat :=
  visited (fun i => cell b pt d (-(i : Int))) (Ray.behind (Same b pt d) r)
    ++ visited (fun i => cell b pt d (i : Int)) (Ray.ahead (Same b pt d) r)

theorem length_onLine (b : Board) (pt : ChessPt) (d : Int × Int) (r : Nat) :
    (onLine b pt d r).length = count (Same b pt d) r := by
  rw [onLine, List.length_append, length_visited, length_visited]
  rfl

/-- A line after `r` rounds that have not ended the search. -/
structure Follows (b : Board) (pt : ChessPt) (d : Int × Int) (n r : Nat) (l : Line) : Prop where
  behind : Tracks (fun i => Same b pt d (-(i : Int))) (fun i => Inside b pt d (-(i : Int))) r l.off₁
  ahead : Tracks (fun i => Same b pt d (i : Int)) (fun i => Inside b pt d (i : Int)) r l.off₂
  arr : l.arr.Perm (onLine b pt d r)
  room : count (Same b pt d) r < n

/-- How a line with `n` points or more ends the search in round `r`. -/
def Verdict (b : Board) (pt : ChessPt) (d : Int × Int) (n r : Nat) (e : Exit) : Prop :=
  (count (Same b pt d) r = n ∧ ∃ pts, e = .found pts ∧ pts.Perm (onLine b pt d r))
    ∨ (n < count (Same b pt d) r ∧ e = .overflow)

theorem Tracks.stay {ok inside : Nat → Prop} [DecidablePred ok] {r : Nat}
    (h : Tracks ok inside r true) :
    reach ok (r + 1) = reach ok r ∧ Tracks ok inside (r + 1) true := by
  have hlt := h.1 rfl
  have hstay : reach ok (r + 1) = reach ok r := reach_stay fun hfull => by omega
  exact ⟨hstay, fun _ => by omega, fun hoff => nomatch hoff⟩

/-- What a round finds in the two directions joins what the line has. -/
theorem perm_onLine_succ {b : Board} {pt : ChessPt} {d : Int × Int} {r : Nat}
    {arr new₁ new₂ : List Nat} (harr : arr.Perm (onLine b pt d r))
    (h₁ : visited (fun i => cell b pt d (-(i : Int))) (Ray.behind (Same b pt d) (r + 1))
      = visited (fun i => cell b pt d (-(i : Int))) (Ray.behind (Same b pt d) r) ++ new₁)
    (h₂ : visited (fun i => cell b pt d (i : Int)) (Ray.ahead (Same b pt d) (r + 1))
      = visited (fun i => cell b pt d (i : Int)) (Ray.ahead (Same b pt d) r) ++ new₂) :
    (arr ++ new₁ ++ new₂).Perm (onLine b pt d (r + 1)) := by
  rw [onLine, h₁, h₂, ← List.append_assoc]
  refine List.Perm.append_right new₂ ((harr.append_right new₁).trans ?_)
  rw [onLine, List.append_assoc, List.append_assoc]
  exact List.perm_append_comm.append_left _

/-- A line with both flags set stays as it is. -/
theorem Follows.stay {b : Board} {pt : ChessPt} {d : Int × Int} {n r : Nat} {l : Line}
    (hl : Follows b pt d n r l) (hoff₁ : l.off₁ = true) (hoff₂ : l.off₂ = true) :
    Follows b pt d n (r + 1) l := by
  obtain ⟨hstay₁, htr₁⟩ := Tracks.stay (hoff₁ ▸ hl.behind)
  obtain ⟨hstay₂, htr₂⟩ := Tracks.stay (hoff₂ ▸ hl.ahead)
  have hcount : count (Same b pt d) (r + 1) = count (Same b pt d) r :=
    congrArg₂ (· + ·) hstay₁ hstay₂
  have hline : onLine b pt d (r + 1) = onLine b pt d r :=
    congrArg₂ (fun m k => visited (fun i => cell b pt d (-(i : Int))) m
      ++ visited (fun i => cell b pt d (i : Int)) k) hstay₁ hstay₂
  exact ⟨hoff₁ ▸ htr₁, hoff₂ ▸ htr₂, hline ▸ hl.arr, hcount ▸ hl.room⟩

/-- A line with a flag that is not set looks at both points; its length is tested once. -/
theorem searchLine_open {b : Board} {pt : ChessPt} {d : Int × Int} {n r : Nat}
    {probe₁ probe₂ : Probe} {l : Line} (hpt : OnBoard b pt.x pt.y)
    (h₁ : Probes b pt d (-((r + 1 : Nat) : Int)) probe₁)
    (h₂ : Probes b pt d ((r + 1 : Nat) : Int) probe₂) (hl : Follows b pt d n r l)
    (hopen : (!l.off₁ || !l.off₂) = true) :
    ∃ l' : Line,
      Tracks (fun i => Same b pt d (-(i : Int))) (fun i => Inside b pt d (-(i : Int))) (r + 1) l'.off₁
      ∧ Tracks (fun i => Same b pt d (i : Int)) (fun i => Inside b pt d (i : Int)) (r + 1) l'.off₂
      ∧ l'.arr.Perm (onLine b pt d (r + 1))
      ∧ searchLine b n pt.hit probe₁ probe₂ l
          = if count (Same b pt d) (r + 1) ≤ n then
              if n ≤ count (Same b pt d) (r + 1) then .error (.found (l'.arr.take n)) else .ok l'
            else .error .overflow := by
  have hlen : l.arr.length = count (Same b pt d) r := by rw [hl.arr.length_eq, length_onLine]
  have hroom := hl.room
  have hroom₁ : l.arr.length ≤ n := by omega
  obtain ⟨off₁, new₁, htr₁, hvis₁, hlook₁⟩ :=
    look_spec (t := fun i => -(i : Int)) hroom₁ h₁ (Inside.behind hpt) hl.behind
  have hnew₁ := reach_succ_length hvis₁
  -- there was room for one more, so only the second point can be one too many
  have hroom₂ : (l.arr ++ new₁).length ≤ n := by
    rw [List.length_append]
    omega
  obtain ⟨off₂, new₂, htr₂, hvis₂, hlook₂⟩ :=
    look_spec (t := fun i => (i : Int)) hroom₂ h₂ (Inside.ahead hpt) hl.ahead
  have harr := perm_onLine_succ hl.arr hvis₁ hvis₂
  have hcount : (l.arr ++ new₁ ++ new₂).length = count (Same b pt d) (r + 1) := by
    rw [harr.length_eq, length_onLine]
  rw [if_pos (by rw [← List.length_append]; exact hroom₂)] at hlook₁
  rw [← List.length_append, hcount] at hlook₂
  refine ⟨⟨off₁, off₂, l.arr ++ new₁ ++ new₂⟩, htr₁, htr₂, harr, ?_⟩
  rw [searchLine, if_pos hopen, hlook₁]
  simp only [bind, Except.bind, hlook₂]
  by_cases hle : count (Same b pt d) (r + 1) ≤ n
  · simp only [if_pos hle, hcount]
  · simp only [if_neg hle]

/-- **One line.**  It goes on as long as it has less than `n` points. -/
theorem searchLine_spec {b : Board} {pt : ChessPt} {d : Int × Int} {n r : Nat}
    {probe₁ probe₂ : Probe} {l : Line} (hpt : OnBoard b pt.x pt.y)
    (h₁ : Probes b pt d (-((r + 1 : Nat) : Int)) probe₁)
    (h₂ : Probes b pt d ((r + 1 : Nat) : Int) probe₂) (hl : Follows b pt d n r l) :
    (count (Same b pt d) (r + 1) < n → ∃ l', searchLine b n pt.hit probe₁ probe₂ l = .ok l'
        ∧ Follows b pt d n (r + 1) l')
    ∧ (n ≤ count (Same b pt d) (r + 1) → ∃ e, searchLine b n pt.hit probe₁ probe₂ l = .error e
        ∧ Verdict b pt d n (r + 1) e) := by
  by_cases hopen : (!l.off₁ || !l.off₂) = true
  · obtain ⟨l', htr₁, htr₂, harr, hsearch⟩ := searchLine_open hpt h₁ h₂ hl hopen
    have hlen : l'.arr.length = count (Same b pt d) (r + 1) := by
      rw [harr.length_eq, length_onLine]
    rw [hsearch]
    constructor
    · intro hlt
      rw [if_pos (by omega), if_neg (by omega)]
      exact ⟨l', rfl, htr₁, htr₂, harr, hlt⟩
    · intro hge
      by_cases heq : count (Same b pt d) (r + 1) = n
      · rw [if_pos (by omega), if_pos hge, List.take_of_length_le (by omega)]
        exact ⟨_, rfl, .inl ⟨heq, _, rfl, harr⟩⟩
      · rw [if_neg (by omega)]
        exact ⟨_, rfl, .inr ⟨by omega, rfl⟩⟩
  · obtain ⟨hoff₁, hoff₂⟩ : l.off₁ = true ∧ l.off₂ = true := by simpa using hopen
    have hl' := hl.stay hoff₁ hoff₂
    exact ⟨fun _ => ⟨l, if_neg hopen, hl'⟩, fun hge => absurd hge (Nat.not_le_of_lt hl'.room)⟩

end Chess
