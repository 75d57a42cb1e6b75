import Sapphire.Framebuffer
import Sapphire.Lib.Raster
import Mathlib.Algebra.Order.Field.Basic
import Mathlib.Algebra.Order.Ring.Abs
import Mathlib.Data.Rat.Cast.Order
import Mathlib.Tactic.Linarith

/-! `line` plots a walk of the grid.  Its error term is `dx + dy` plus `dx` for every step along `y`
and `dy`, which is negative, for every one along `x`, and the tests of it are those of
`Raster.next`. -/

namespace Sapphire

open Machine Raster

/-- The point `a` steps across and `b` steps up from `(x1, y1)`, in the directions `sx` and `sy`. -/
def plot (x1 y1 sx sy : Int) (p : Nat × Nat) : Int × Int := (x1 + sx * p.1, y1 + sy * p.2)

theorem int_eq {v : Int} (h1 : -2 ^ 31 ≤ v) (h2 : v < 2 ^ 31) : int v = some v := if_pos ⟨h1, h2⟩

section

variable {x1 y1 sx sy : Int} {D E : Nat}

/-- A coordinate between two that are far from the limits of an `int`. -/
theorem int_coordinate {x s : Int} {n a : Nat} (hs : s = 1 ∨ s = -1) (hx : |x| < 2 ^ 28)
    (hn : n < 2 ^ 29) (ha : a ≤ n) : int (x + s * a) = some (x + s * a) := by
  rw [abs_lt] at hx
  rcases hs with rfl | rfl
  · exact int_eq (by omega) (by omega)
  · exact int_eq (by omega) (by omega)

theorem plot_inj (hsx : sx = 1 ∨ sx = -1) (hsy : sy = 1 ∨ sy = -1) {p q : Nat × Nat}
    (h : plot x1 y1 sx sy p = plot x1 y1 sx sy q) : p = q := by
  simp only [plot, Prod.mk.injEq, add_right_inj] at h
  apply Prod.ext
  · rcases hsx with rfl | rfl <;> omega
  · rcases hsy with rfl | rfl <;> omega

/-- The error term at a point of the walk. -/
def errAt (D E : Nat) (p : Nat × Nat) : Int := D - E + (p.2 * D : Nat) - (p.1 * E : Nat)

section

variable (hsx : sx = 1 ∨ sx = -1) (hsy : sy = 1 ∨ sy = -1) (hx : |x1| < 2 ^ 28) (hy : |y1| < 2 ^ 28)
  (hD : D < 2 ^ 29) (hE : E < 2 ^ 29) {p : Nat × Nat} (h : Near D E p.1 p.2)
  (hleft : left D E p ≠ 0)

include hD hE h in
theorem int_errAt {v : Int} (hv : |v - errAt D E p| < 2 ^ 29) : int v = some v := by
  have hbelow := h.below
  have habove := h.above
  rw [errAt, abs_lt] at hv
  exact int_eq (by omega) (by omega)

include hsx hx hD hE h hleft in
/-- The step along `x`, which changes the error term by `dy`. -/
theorem stepIf_across :
    stepIf (2 * errAt D E p ≥ -E) (errAt D E p) (-E) (plot x1 y1 sx sy p).1 sx =
      some (errAt D E ((next D E p).1, p.2), (plot x1 y1 sx sy (next D E p)).1) := by
  have hiff : 2 * errAt D E p ≥ -E ↔ Across D E p := by
    rw [errAt, Across]
    omega
  rw [stepIf]
  by_cases hacross : Across D E p
  · have hnext : (next D E p).1 = p.1 + 1 := if_pos hacross
    have herr : errAt D E (p.1 + 1, p.2) = errAt D E p + -E := by
      simp only [errAt, Nat.succ_mul]
      omega
    have hplot : (plot x1 y1 sx sy p).1 + sx = x1 + sx * (p.1 + 1 : Nat) := by
      rw [plot]
      push_cast
      ring
    have hint := int_coordinate hsx hx hD (h.next hleft).1.col
    rw [hnext] at hint
    rw [if_pos (hiff.mpr hacross), hplot, hint, int_errAt hD hE h (by simp; omega), hnext, herr,
      plot, hnext]
    rfl
  · have hnext : (next D E p).1 = p.1 := if_neg hacross
    rw [if_neg (mt hiff.mp hacross)]
    simp only [plot, hnext]

include hsy hy hD hE h hleft in
/-- The step along `y`, which changes the error term by `dx`. -/
theorem stepIf_up :
    stepIf (2 * errAt D E p ≤ D) (errAt D E ((next D E p).1, p.2)) D (plot x1 y1 sx sy p).2 sy =
      some (errAt D E (next D E p), (plot x1 y1 sx sy (next D E p)).2) := by
  have hiff : 2 * errAt D E p ≤ D ↔ Up D E p := by
    rw [errAt, Up]
    omega
  rw [stepIf]
  by_cases hup : Up D E p
  · have hnext : (next D E p).2 = p.2 + 1 := if_pos hup
    have herr : errAt D E (next D E p) = errAt D E ((next D E p).1, p.2) + D := by
      simp only [errAt, hnext, Nat.succ_mul]
      omega
    have hplot : (plot x1 y1 sx sy p).2 + sy = y1 + sy * (p.2 + 1 : Nat) := by
      rw [plot]
      push_cast
      ring
    have hint := int_coordinate hsy hy hE (h.next hleft).1.row
    rw [hnext] at hint
    rw [if_pos (hiff.mpr hup), hplot, hint, ← herr,
      int_errAt hD hE (h.next hleft).1 (by simp), plot, hnext]
    rfl
  · have hnext : (next D E p).2 = p.2 := if_neg hup
    rw [if_neg (mt hiff.mp hup)]
    simp only [errAt, plot, hnext]

end

/-- The loop of `line` from a point of the walk on. -/
theorem lineFrom_eq (hsx : sx = 1 ∨ sx = -1) (hsy : sy = 1 ∨ sy = -1) (hx : |x1| < 2 ^ 28)
    (hy : |y1| < 2 ^ 28) (hD : D < 2 ^ 29) (hE : E < 2 ^ 29) {n fuel : Nat} {p : Nat × Nat}
    (h : Near D E p.1 p.2) (hn : left D E p = n) (hfuel : n < fuel) :
    lineFrom (x1 + sx * D) (y1 + sy * E) D (-E) sx sy fuel (plot x1 y1 sx sy p).1
      (plot x1 y1 sx sy p).2 (errAt D E p) =
        some ((walk D E n p).map (plot x1 y1 sx sy)) := by
  induction n generalizing fuel p with
  | zero =>
    obtain ⟨fuel, rfl⟩ : ∃ f, fuel = f + 1 := ⟨fuel - 1, by omega⟩
    obtain rfl := h.left_eq_zero_iff.mp hn
    rw [lineFrom, if_pos ⟨rfl, rfl⟩]
    rfl
  | succ n ih =>
    obtain ⟨fuel, rfl⟩ : ∃ f, fuel = f + 1 := ⟨fuel - 1, by omega⟩
    have hleft : left D E p ≠ 0 := by omega
    obtain ⟨hnear, hnext⟩ := h.next hleft
    have hnot : ¬ ((plot x1 y1 sx sy p).1 = x1 + sx * D ∧
        (plot x1 y1 sx sy p).2 = y1 + sy * E) := by
      rintro ⟨h1, h2⟩
      exact hleft (h.left_eq_zero_iff.mpr (plot_inj hsx hsy (Prod.ext h1 h2)))
    have hbelow := h.below
    have habove := h.above
    have he2 : int (2 * errAt D E p) = some (2 * errAt D E p) := by
      rw [errAt]
      exact int_eq (by omega) (by omega)
    have hrest := ih hnear (by omega) (Nat.lt_of_succ_lt_succ hfuel)
    rw [lineFrom, if_neg hnot, he2]
    simp only [Option.bind_eq_bind, Option.bind_some]
    rw [stepIf_across hsx hx hD hE h hleft]
    simp only [Option.bind_some]
    rw [stepIf_up hsy hy hD hE h hleft]
    simp only [Option.bind_some]
    rw [hrest]
    rfl

end

/-! ### The whole line -/

/-- The line through two points, at `x`. -/
def ideal (x1 y1 x2 y2 x : Int) : ℚ := y1 + (x - x1) * (y2 - y1) / (x2 - x1)

/-- A straight line of points: one for each step along the longer axis, from one end to the other and
between them, with steps by at most one and by one along the longer axis, and each no more than half a
step off along the shorter one. -/
structure Straight (x1 y1 x2 y2 : Int) (points : List (Int × Int)) : Prop where
  length : (points.length : Int) = max |x2 - x1| |y2 - y1| + 1
  first : points.head? = some (x1, y1)
  last : points.getLast? = some (x2, y2)
  box : ∀ p ∈ points, min x1 x2 ≤ p.1 ∧ p.1 ≤ max x1 x2 ∧ min y1 y2 ≤ p.2 ∧ p.2 ≤ max y1 y2
  steps : points.IsChain fun p q => |q.1 - p.1| ≤ 1 ∧ |q.2 - p.2| ≤ 1 ∧
    (|y2 - y1| ≤ |x2 - x1| → |q.1 - p.1| = 1) ∧ (|x2 - x1| ≤ |y2 - y1| → |q.2 - p.2| = 1)
  near : ∀ p ∈ points,
    (|y2 - y1| ≤ |x2 - x1| → |(p.2 : ℚ) - ideal x1 y1 x2 y2 p.1| ≤ 1 / 2) ∧
    (|x2 - x1| ≤ |y2 - y1| → |(p.1 : ℚ) - ideal y1 x1 y2 x2 p.2| ≤ 1 / 2)

/-- The direction of a step from `u` to `v`, and how many there are. -/
theorem eq_add_dir (u v : Int) : (if u < v then 1 else -1 : Int) * (v - u).natAbs = v - u := by
  split_ifs <;> omega

theorem dir_cases (u v : Int) : (if u < v then 1 else -1 : Int) = 1 ∨
    (if u < v then 1 else -1 : Int) = -1 := by
  split_ifs
  · exact Or.inl rfl
  · exact Or.inr rfl

/-- How far off the line a point of the walk is. -/
theorem abs_sub_ideal_le {x y s t : Int} (hs : s = 1 ∨ s = -1) (ht : t = 1 ∨ t = -1) {D E a b : Nat}
    (h : Near D E a b) (hside : E ≤ D) :
    |((y + t * b : Int) : ℚ) - ideal x y (x + s * D) (y + t * E) (x + s * a)| ≤ 1 / 2 := by
  have hbelow := h.below
  have habove := h.above
  rw [Nat.max_eq_left hside] at hbelow habove
  have hlow : (2 * (b * D) : ℚ) ≤ 2 * (a * E) + D := by exact_mod_cast hbelow
  have hhigh : (2 * (a * E) : ℚ) ≤ 2 * (b * D) + D := by exact_mod_cast habove
  rcases Nat.eq_zero_or_pos D with rfl | hpos
  · obtain rfl : E = 0 := by omega
    obtain rfl : b = 0 := by have := h.row; omega
    simp [ideal]
  · have hD : (0 : ℚ) < D := by exact_mod_cast hpos
    have hs0 : (s : ℚ) ≠ 0 := by
      rcases hs with rfl | rfl <;> norm_num
    have hideal : ideal x y (x + s * D) (y + t * E) (x + s * a) = y + t * (a * E / D) := by
      rw [ideal]
      push_cast
      rw [add_sub_cancel_left, add_sub_cancel_left, add_sub_cancel_left, mul_assoc (s : ℚ),
        mul_div_mul_left _ _ hs0]
      ring
    have hdiff : ((y + t * b : Int) : ℚ) - ideal x y (x + s * D) (y + t * E) (x + s * a) =
        t * ((b * D - a * E) / D) := by
      rw [hideal, sub_div, mul_div_cancel_right₀ _ (ne_of_gt hD)]
      push_cast
      ring
    have habs : |(t : ℚ)| = 1 := by
      rcases ht with rfl | rfl <;> norm_num
    rw [hdiff, abs_mul, habs, one_mul, abs_div, abs_of_pos hD, div_le_iff₀ hD, abs_le]
    constructor <;> linarith

theorem iabs_eq {v : Int} (h : v.natAbs < 2 ^ 29) : iabs v = some (v.natAbs : Int) := by
  rw [iabs]
  split_ifs with hneg
  · rw [int_eq (by omega) (by omega)]
    congr 1
    omega
  · congr 1
    omega

theorem natAbs_sub_lt {u v : Int} (hu : |u| < 2 ^ 28) (hv : |v| < 2 ^ 28) :
    (v - u).natAbs < 2 ^ 29 := by
  rw [abs_lt] at hu hv
  omega

theorem abs_dir {x s : Int} (hs : s = 1 ∨ s = -1) (n : Nat) : |x + s * n - x| = n := by
  rw [add_sub_cancel_left]
  rcases hs with rfl | rfl
  · simp
  · simp

/-- How far a step takes a coordinate. -/
theorem abs_plot_sub {x s : Int} (hs : s = 1 ∨ s = -1) {a b : Nat} (h : b = a ∨ b = a + 1) :
    |x + s * b - (x + s * a)| ≤ 1 ∧ (b = a + 1 → |x + s * b - (x + s * a)| = 1) := by
  rcases h with rfl | rfl
  · simp
  · rcases hs with rfl | rfl <;> simp

/-- A walk to the corner is a straight line of points. -/
theorem straight_of_reaches {x1 y1 sx sy : Int} (hsx : sx = 1 ∨ sx = -1)
    (hsy : sy = 1 ∨ sy = -1) {D E : Nat} {path : List (Nat × Nat)} (h : Reaches D E (0, 0) path) :
    Straight x1 y1 (x1 + sx * D) (y1 + sy * E) (path.map (plot x1 y1 sx sy)) where
  length := by
    rw [List.length_map, h.length, abs_dir hsx, abs_dir hsy, left]
    split_ifs <;> omega
  first := by
    rw [List.head?_map, h.first]
    simp [plot]
  last := by
    rw [List.getLast?_map, h.last]
    rfl
  box := by
    intro q hq
    obtain ⟨p, hp, rfl⟩ := List.mem_map.mp hq
    have hcol := (h.near p hp).col
    have hrow := (h.near p hp).row
    simp only [plot]
    refine ⟨?_, ?_, ?_, ?_⟩
    · rcases hsx with rfl | rfl <;> omega
    · rcases hsx with rfl | rfl <;> omega
    · rcases hsy with rfl | rfl <;> omega
    · rcases hsy with rfl | rfl <;> omega
  steps := by
    rw [List.isChain_map]
    refine h.steps.imp fun p q hstep => ?_
    rw [abs_dir hsx, abs_dir hsy, Nat.cast_le, Nat.cast_le]
    obtain ⟨hcol, hcol'⟩ := abs_plot_sub hsx hstep.col
    obtain ⟨hrow, hrow'⟩ := abs_plot_sub hsy hstep.row
    exact ⟨hcol, hrow, fun hside => hcol' (hstep.across hside), fun hside => hrow' (hstep.up hside)⟩
  near := by
    intro q hq
    obtain ⟨p, hp, rfl⟩ := List.mem_map.mp hq
    rw [abs_dir hsx, abs_dir hsy, Nat.cast_le, Nat.cast_le]
    exact ⟨abs_sub_ideal_le hsx hsy (h.near p hp), abs_sub_ideal_le hsy hsx (h.near p hp).swap⟩

section

variable {x1 y1 x2 y2 : Int} (hx1 : |x1| < 2 ^ 28) (hy1 : |y1| < 2 ^ 28) (hx2 : |x2| < 2 ^ 28)
  (hy2 : |y2| < 2 ^ 28)

include hx1 hy1 hx2 hy2 in
/-- Nothing that `line` computes before its loop overflows, and the loop plots the walk. -/
theorem linePoints_eq :
    linePoints x1 y1 x2 y2 = some ((walk (x2 - x1).natAbs (y2 - y1).natAbs
      (left (x2 - x1).natAbs (y2 - y1).natAbs (0, 0)) (0, 0)).map
        (plot x1 y1 (if x1 < x2 then 1 else -1) (if y1 < y2 then 1 else -1))) := by
  have hD := natAbs_sub_lt hx1 hx2
  have hE := natAbs_sub_lt hy1 hy2
  have hwalk := @lineFrom_eq x1 y1 _ _ _ _ (dir_cases x1 x2) (dir_cases y1 y2) hx1 hy1 hD hE _
    (2 ^ 32) _ (near_start _ _) rfl (by unfold left; split_ifs <;> omega)
  have hstart : plot x1 y1 (if x1 < x2 then 1 else -1) (if y1 < y2 then 1 else -1) (0, 0) =
      (x1, y1) := by
    simp [plot]
  have herr : errAt (x2 - x1).natAbs (y2 - y1).natAbs (0, 0) =
      (x2 - x1).natAbs + -((y2 - y1).natAbs : Int) := by
    simp [errAt, sub_eq_add_neg]
  rw [eq_add_dir, eq_add_dir, add_sub_cancel, add_sub_cancel, hstart, herr] at hwalk
  have hdx : int (x2 - x1) = some (x2 - x1) := int_eq (by omega) (by omega)
  have hdy : int (y2 - y1) = some (y2 - y1) := int_eq (by omega) (by omega)
  have hneg : int (-((y2 - y1).natAbs : Int)) = some (-((y2 - y1).natAbs : Int)) :=
    int_eq (by omega) (by omega)
  have hsum : int ((x2 - x1).natAbs + -((y2 - y1).natAbs : Int)) =
      some ((x2 - x1).natAbs + -((y2 - y1).natAbs : Int)) :=
    int_eq (by omega) (by omega)
  rw [← hwalk, linePoints]
  simp only [Option.bind_eq_bind, hdx, hdy, Option.bind_some, iabs_eq hD, iabs_eq hE, hneg, hsum]

include hx1 hy1 hx2 hy2 in
/-- `line` plots a straight line, and nothing that it computes overflows. -/
theorem line_straight : ∃ points, linePoints x1 y1 x2 y2 = some points ∧
    Straight x1 y1 x2 y2 points ∧
    ∀ fb m color, line fb m x1 y1 x2 y2 color = some (points.foldl (fun m p =>
      putpixel fb m (BitVec.ofInt 32 p.1) (BitVec.ofInt 32 p.2) color) m) := by
  have hpoints := linePoints_eq hx1 hy1 hx2 hy2
  have hstraight := @straight_of_reaches x1 y1 _ _ (dir_cases x1 x2) (dir_cases y1 y2) _ _ _
    (walk_reaches (near_start (x2 - x1).natAbs (y2 - y1).natAbs) rfl)
  rw [eq_add_dir, eq_add_dir, add_sub_cancel, add_sub_cancel] at hstraight
  exact ⟨_, hpoints, hstraight, fun fb m color => by rw [line, hpoints]; rfl⟩

end

theorem line_straight_steep : ∃ points, linePoints 3 (-2) 1 5 = some points ∧
    Straight 3 (-2) 1 5 points ∧
    ∀ fb m color, line fb m 3 (-2) 1 5 color = some (points.foldl (fun m p =>
      putpixel fb m (BitVec.ofInt 32 p.1) (BitVec.ofInt 32 p.2) color) m) :=
  line_straight (by decide) (by decide) (by decide) (by decide)

end Sapphire
