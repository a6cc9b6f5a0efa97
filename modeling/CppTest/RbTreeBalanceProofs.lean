import CppTest.RbTreeProofs
import Mathlib.Analysis.SpecialFunctions.Log.Base

/-! # Left-leaning balance, with one violation on its way up

    What the colours of a red-black tree of `rb_tree.cpp` satisfy, stated on trees
    and contexts and not on memory:

    * `Leaning t n` — left-leaning and of black height `n`: no red right child, no
      red node with a red left child, `n` black nodes on every path;
    * `Fits k c n` — the context `k` becomes such a tree, with a black root, when a
      subtree of colour `c` and black height `n` is put into its hole;
    * `Hot t k` — the state of the fix-up loop: the subtrees of `t` are leaning and
      the context is intact, but the colours of `t`'s children may not agree with
      that of `t`.  The four cases of the loop keep `Hot` (`hot_flip`,
      `hot_rotate_right`, `hot_rotate_left`), and where the loop stops nothing is
      wrong any more (`leaning_of_cool`);
    * `Leaning.height_le_logb` — the height bound. -/

namespace RbTree

open LinkedTree LTree

variable {δ : Type}

/-! ## Leaning trees and contexts -/

def isRed : LTree (NodeVal δ) → Bool
  | .nil => false
  | .node _ _ v _ => v.red

/-- The tree with its root painted black. -/
def blacken : LTree (NodeVal δ) → LTree (NodeVal δ)
  | .nil => .nil
  | .node a l v r => .node a l ⟨false, v.data⟩ r

/-- Left-leaning, with `n` black nodes on every path to a null link. -/
inductive Leaning : LTree (NodeVal δ) → Nat → Prop where
  | nil : Leaning .nil 0
  | black {a : Nat} {l r : LTree (NodeVal δ)} {d : δ} {n : Nat} :
      Leaning l n → Leaning r n → isRed r = false → Leaning (.node a l ⟨false, d⟩ r) (n + 1)
  | red {a : Nat} {l r : LTree (NodeVal δ)} {d : δ} {n : Nat} :
      Leaning l n → Leaning r n → isRed l = false → isRed r = false →
      Leaning (.node a l ⟨true, d⟩ r) n

/-- The hole of the context takes a subtree of colour `c` (red or not) and black
    height `n`. -/
inductive Fits : List (Frame (NodeVal δ)) → Bool → Nat → Prop where
  | root {n : Nat} : Fits [] false n
  | leftBlack {a : Nat} {d : δ} {u : LTree (NodeVal δ)} {k : List (Frame (NodeVal δ))} {c : Bool}
      {n : Nat} : Leaning u n → isRed u = false → Fits k false (n + 1) →
      Fits (⟨.left, a, ⟨false, d⟩, u⟩ :: k) c n
  | leftRed {a : Nat} {d : δ} {u : LTree (NodeVal δ)} {k : List (Frame (NodeVal δ))} {n : Nat} :
      Leaning u n → isRed u = false → Fits k true n →
      Fits (⟨.left, a, ⟨true, d⟩, u⟩ :: k) false n
  | rightBlack {a : Nat} {d : δ} {u : LTree (NodeVal δ)} {k : List (Frame (NodeVal δ))} {n : Nat} :
      Leaning u n → Fits k false (n + 1) → Fits (⟨.right, a, ⟨false, d⟩, u⟩ :: k) false n
  | rightRed {a : Nat} {d : δ} {u : LTree (NodeVal δ)} {k : List (Frame (NodeVal δ))} {n : Nat} :
      Leaning u n → isRed u = false → Fits k true n →
      Fits (⟨.right, a, ⟨true, d⟩, u⟩ :: k) false n

/-- Filling a hole that fits. -/
theorem Fits.plug {k : List (Frame (NodeVal δ))} {c : Bool} {n : Nat} (h : Fits k c n) :
    ∀ {t : LTree (NodeVal δ)}, isRed t = c → Leaning t n →
      isRed (LinkedTree.plug k t) = false ∧ ∃ N, Leaning (LinkedTree.plug k t) N := by
  induction h with
  | root =>
      intro t hc ht
      exact ⟨hc, _, ht⟩
  | leftBlack hu hur _ ih =>
      intro t _ ht
      exact ih rfl (Leaning.black ht hu hur)
  | leftRed hu hur _ ih =>
      intro t hc ht
      exact ih rfl (Leaning.red ht hu hc hur)
  | rightBlack hu _ ih =>
      intro t hc ht
      exact ih rfl (Leaning.black hu ht hc)
  | rightRed hu hur _ ih =>
      intro t hc ht
      exact ih rfl (Leaning.red hu ht hur hc)

/-- A leaning tree with a black root, opened anywhere: the subtree leans and its
    context fits. -/
theorem fits_of_leaning (k : List (Frame (NodeVal δ))) : ∀ {t : LTree (NodeVal δ)} {N : Nat},
    Leaning (LinkedTree.plug k t) N → isRed (LinkedTree.plug k t) = false →
    ∃ n, Leaning t n ∧ Fits k (isRed t) n := by
  induction k with
  | nil =>
      intro t N h hc
      have hc' : isRed t = false := hc
      rw [hc']
      exact ⟨N, h, Fits.root⟩
  | cons f k ih =>
      intro t N h hc
      obtain ⟨n, hn, hk⟩ := ih h hc
      obtain ⟨side, a, v, u⟩ := f
      cases side with
      | left =>
          have hn' : Leaning (.node a t v u) n := hn
          cases hn' with
          | black ht hu hur => exact ⟨_, ht, Fits.leftBlack hu hur hk⟩
          | red ht hu htr hur =>
              rw [htr]
              exact ⟨_, ht, Fits.leftRed hu hur hk⟩
      | right =>
          have hn' : Leaning (.node a u v t) n := hn
          cases hn' with
          | black hu ht htr =>
              rw [htr]
              exact ⟨_, ht, Fits.rightBlack hu hk⟩
          | red hu ht hur htr =>
              rw [htr]
              exact ⟨_, ht, Fits.rightRed hu hur hk⟩

/-- Only the left hole of a black node takes a red subtree. -/
theorem Fits.of_red {k : List (Frame (NodeVal δ))} {n : Nat} (h : Fits k true n) :
    ∃ a d u k', k = ⟨.left, a, ⟨false, d⟩, u⟩ :: k' ∧ Leaning u n ∧ isRed u = false ∧
      Fits k' false (n + 1) := by
  cases h with
  | leftBlack hu hur hk => exact ⟨_, _, _, _, rfl, hu, hur, hk⟩

/-- The black height of a node of colour `c` over subtrees of black height `n`. -/
def blackUp (c : Bool) (n : Nat) : Nat := if c then n else n + 1

/-! ## The state of the fix-up loop -/

/-- The subtrees of the focused node are leaning, the context fits the node, and a
    red node has at most one red child; nothing else is known about the colours of
    the two children. -/
def Hot : LTree (NodeVal δ) → List (Frame (NodeVal δ)) → Prop
  | .nil, _ => False
  | .node _ l v r, k => ∃ n, Leaning l n ∧ Leaning r n ∧ Fits k v.red (blackUp v.red n) ∧
      (v.red = true → isRed l = true → isRed r = false)

/-- A leaning subtree of any colour in a hole that was fit for some colour: the
    violation, if there is one, is at the node above. -/
theorem hot_of_fits {f : Frame (NodeVal δ)} {k : List (Frame (NodeVal δ))} {c : Bool} {n : Nat}
    (h : Fits (f :: k) c n) {t : LTree (NodeVal δ)} (ht : Leaning t n) : Hot (f.fill t) k := by
  cases h with
  | leftBlack hu hur hk => exact ⟨n, ht, hu, hk, fun h => nomatch h⟩
  | leftRed hu hur hk => exact ⟨n, ht, hu, hk, fun _ _ => hur⟩
  | rightBlack hu hk => exact ⟨n, hu, ht, hk, fun h => nomatch h⟩
  | rightRed hu hur hk =>
      refine ⟨n, hu, ht, hk, ?_⟩
      intro _ hul
      rw [hur] at hul
      exact nomatch hul

/-- A red node stays leaning when it is painted black, one higher. -/
theorem Leaning.blacken {t : LTree (NodeVal δ)} {n : Nat} (h : Leaning t n)
    (hr : isRed t = true) : Leaning (blacken t) (n + 1) := by
  cases h with
  | nil => exact nomatch hr
  | black _ _ _ => exact nomatch hr
  | red hl hr' _ hrr => exact Leaning.black hl hr' hrr

theorem isRed_blacken (t : LTree (NodeVal δ)) : isRed (RbTree.blacken t) = false := by
  cases t <;> rfl

/-- Case (1) below the root: the flip sends the violation to the parent. -/
theorem hot_flip {a : Nat} {l r : LTree (NodeVal δ)} {v : NodeVal δ} {f : Frame (NodeVal δ)}
    {k : List (Frame (NodeVal δ))} (h : Hot (.node a l v r) (f :: k))
    (hl : isRed l = true) (hr : isRed r = true) :
    Hot (f.fill (.node a (blacken l) ⟨true, v.data⟩ (blacken r))) k := by
  obtain ⟨n, hln, hrn, hk, hv⟩ := h
  have hblack : v.red = false := by
    cases hc : v.red with
    | false => rfl
    | true =>
        rw [hv hc hl] at hr
        exact nomatch hr
  rw [hblack] at hk
  exact hot_of_fits hk (Leaning.red (hln.blacken hl) (hrn.blacken hr) (isRed_blacken l)
    (isRed_blacken r))

/-- Case (1) at the root: the flip ends the loop. -/
theorem leaning_flip_root {a : Nat} {l r : LTree (NodeVal δ)} {v : NodeVal δ}
    (h : Hot (.node a l v r) []) (hl : isRed l = true) (hr : isRed r = true) :
    ∃ N, Leaning (.node a (blacken l) ⟨false, v.data⟩ (blacken r)) N := by
  obtain ⟨n, hln, hrn, -, -⟩ := h
  exact ⟨_, Leaning.black (hln.blacken hl) (hrn.blacken hr) (isRed_blacken r)⟩

/-- Case (3): two red nodes in a row on the left.  The node above is black, and the
    right rotation there makes both children red. -/
theorem hot_rotate_right {a g : Nat} {l r u : LTree (NodeVal δ)} {v vg : NodeVal δ} {side : Side}
    {k : List (Frame (NodeVal δ))} (h : Hot (.node a l v r) (⟨side, g, vg, u⟩ :: k))
    (hv : v.red = true) (hl : isRed l = true) :
    side = .left ∧ Hot (.node a l ⟨vg.red, v.data⟩ (.node g r ⟨true, vg.data⟩ u)) k := by
  obtain ⟨n, hln, hrn, hk, hone⟩ := h
  rw [hv] at hk
  obtain ⟨g', d, u', k', heq, hu, hur, hk'⟩ := hk.of_red
  obtain ⟨hf, rfl⟩ := List.cons.inj heq
  obtain ⟨rfl, rfl, rfl, rfl⟩ := Frame.mk.inj hf
  refine ⟨rfl, n, hln, ?_, ?_, fun h => nomatch h⟩
  · exact Leaning.red hrn hu (hone hv hl) hur
  · exact hk'

/-- Cases (4) and (5): a red child on the right only; the left rotation moves it to
    the left. -/
theorem hot_rotate_left {a y : Nat} {l B C : LTree (NodeVal δ)} {v vy : NodeVal δ}
    {k : List (Frame (NodeVal δ))} (h : Hot (.node a l v (.node y B vy C)) k)
    (hy : vy.red = true) (hl : isRed l = false) :
    Hot (.node y (.node a l ⟨true, v.data⟩ B) ⟨v.red, vy.data⟩ C) k ∧ isRed C = false := by
  obtain ⟨n, hln, hrn, hk, -⟩ := h
  obtain ⟨red, d⟩ := vy
  obtain rfl : red = true := hy
  cases hrn with
  | red hB hC hBr hCr =>
      exact ⟨⟨n, Leaning.red hln hB hl hBr, hC, hk, fun _ _ => hCr⟩, hCr⟩

/-- Where no case of the loop applies, the whole tree is leaning. -/
theorem leaning_of_cool {a : Nat} {l r : LTree (NodeVal δ)} {v : NodeVal δ}
    {k : List (Frame (NodeVal δ))} (h : Hot (.node a l v r) k) (hr : isRed r = false)
    (hcool : isRed l = true → v.red = false) :
    isRed (LinkedTree.plug k (.node a l v r)) = false ∧
      ∃ N, Leaning (LinkedTree.plug k (.node a l v r)) N := by
  obtain ⟨n, hln, hrn, hk, -⟩ := h
  obtain ⟨red, d⟩ := v
  refine hk.plug rfl ?_
  cases red with
  | false => exact Leaning.black hln hrn hr
  | true =>
      refine Leaning.red hln hrn ?_ hr
      cases hl : isRed l with
      | false => rfl
      | true => exact nomatch hcool hl

/-! ## The height -/

/-- A leaning tree of black height `n` is at least full up to level `n`. -/
theorem Leaning.two_pow_le_size {t : LTree (NodeVal δ)} {n : Nat} (h : Leaning t n) :
    2 ^ n ≤ t.size + 1 := by
  induction h with
  | nil => exact Nat.le_refl 1
  | @black a l r d n _ _ _ ihl ihr =>
      show 2 ^ (n + 1) ≤ l.size + 1 + r.size + 1
      rw [Nat.pow_succ]
      omega
  | @red a l r d n _ _ _ _ ihl _ =>
      show 2 ^ n ≤ l.size + 1 + r.size + 1
      omega

/-- At most every second node of a path is red. -/
theorem Leaning.height_le {t : LTree (NodeVal δ)} {n : Nat} (h : Leaning t n) :
    t.height ≤ 2 * n + if isRed t then 1 else 0 := by
  induction h with
  | nil => exact Nat.zero_le _
  | @black a l r d n _ _ _ ihl ihr =>
      show max l.height r.height + 1 ≤ 2 * (n + 1) + 0
      have hone : ∀ b : Bool, (if b then 1 else 0) ≤ 1 := by decide
      have h1 := hone (isRed l)
      have h2 := hone (isRed r)
      omega
  | @red a l r d n _ _ hl hr ihl ihr =>
      show max l.height r.height + 1 ≤ 2 * n + 1
      rw [hl] at ihl
      rw [hr] at ihr
      have h1 : l.height ≤ 2 * n := ihl
      have h2 : r.height ≤ 2 * n := ihr
      omega

/-- **The height bound** of a leaning tree with a black root. -/
theorem Leaning.height_le_logb {t : LTree (NodeVal δ)} {n : Nat} (h : Leaning t n)
    (hc : isRed t = false) : (t.height : ℝ) ≤ 2 * Real.logb 2 (t.size + 1) := by
  have hh : t.height ≤ 2 * n := by
    have := h.height_le
    rw [hc] at this
    exact this
  have hlog : (n : ℝ) ≤ Real.logb 2 (t.size + 1) := by
    rw [Real.le_logb_iff_rpow_le (by norm_num) (by positivity), Real.rpow_natCast]
    exact_mod_cast h.two_pow_le_size
  have hh' : (t.height : ℝ) ≤ 2 * n := by exact_mod_cast hh
  linarith

/-! ## Reading the properties off a leaning tree -/

/-- No node has a red right child. -/
def NoRedRight : LTree (NodeVal δ) → Prop
  | .nil => True
  | .node _ l _ r => isRed r = false ∧ NoRedRight l ∧ NoRedRight r

/-- No red node has a red left child. -/
def NoRedRed : LTree (NodeVal δ) → Prop
  | .nil => True
  | .node _ l v r => (v.red = true → isRed l = false) ∧ NoRedRed l ∧ NoRedRed r

/-- For each path from the root to a null link, the number of its black nodes. -/
def blackCounts : LTree (NodeVal δ) → List Nat
  | .nil => [0]
  | .node _ l v r => (blackCounts l ++ blackCounts r).map fun n => if v.red then n else n + 1

theorem Leaning.noRedRight {t : LTree (NodeVal δ)} {n : Nat} (h : Leaning t n) : NoRedRight t := by
  induction h with
  | nil => trivial
  | black _ _ hr ihl ihr => exact ⟨hr, ihl, ihr⟩
  | red _ _ _ hr ihl ihr => exact ⟨hr, ihl, ihr⟩

theorem Leaning.noRedRed {t : LTree (NodeVal δ)} {n : Nat} (h : Leaning t n) : NoRedRed t := by
  induction h with
  | nil => trivial
  | black _ _ _ ihl ihr => exact ⟨(fun h => nomatch h), ihl, ihr⟩
  | red _ _ hl _ ihl ihr => exact ⟨fun _ => hl, ihl, ihr⟩

theorem Leaning.blackCounts_eq {t : LTree (NodeVal δ)} {n : Nat} (h : Leaning t n) :
    ∀ c ∈ blackCounts t, c = n := by
  induction h with
  | nil => simp [blackCounts]
  | black _ _ _ ihl ihr =>
      intro c hc
      simp only [blackCounts, List.mem_map, List.mem_append] at hc
      obtain ⟨b, hb | hb, rfl⟩ := hc
      · rw [ihl b hb]
        rfl
      · rw [ihr b hb]
        rfl
  | red _ _ _ _ ihl ihr =>
      intro c hc
      simp only [blackCounts, List.mem_map, List.mem_append] at hc
      obtain ⟨b, hb | hb, rfl⟩ := hc
      · exact ihl b hb
      · exact ihr b hb

end RbTree
