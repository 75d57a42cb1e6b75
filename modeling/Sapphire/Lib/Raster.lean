import Mathlib.Data.List.Chain
import Mathlib.Tactic.Ring

/-! Walks on a grid along a straight line, from the corner `(0, 0)` of a box to the corner `(D, E)`.
A point `(a, b)` is `Near` the line when it is no more than half a step off along the shorter side.
A step goes on along a side where that leaves it near; it always goes on along the longer side, so
the walk ends in the corner after as many steps as that side is long. -/

namespace Raster

variable {D E a b : Nat}

/-- The point is in the box, and `b` differs from `a * E / D` by at most a half when `D` is the longer
side, and `a` from `b * D / E` when `E` is. -/
structure Near (D E a b : Nat) : Prop where
  col : a ≤ D
  row : b ≤ E
  below : 2 * (b * D) ≤ 2 * (a * E) + max D E
  above : 2 * (a * E) ≤ 2 * (b * D) + max D E

/-- A step goes on along the first side. -/
abbrev Across (D E : Nat) (p : Nat × Nat) : Prop := 2 * (p.1 * E) + E ≤ 2 * (p.2 * D) + 2 * D

/-- A step goes on along the second side. -/
abbrev Up (D E : Nat) (p : Nat × Nat) : Prop := 2 * (p.2 * D) + D ≤ 2 * (p.1 * E) + 2 * E

def next (D E : Nat) (p : Nat × Nat) : Nat × Nat :=
  (if Across D E p then p.1 + 1 else p.1, if Up D E p then p.2 + 1 else p.2)

/-- The number of steps to the corner. -/
def left (D E : Nat) (p : Nat × Nat) : Nat := if E ≤ D then D - p.1 else E - p.2

/-- The points of `n` steps. -/
def walk (D E : Nat) : Nat → Nat × Nat → List (Nat × Nat)
  | 0, p => [p]
  | n + 1, p => p :: walk D E n (next D E p)

theorem near_start (D E : Nat) : Near D E (0, 0).1 (0, 0).2 :=
  ⟨Nat.zero_le _, Nat.zero_le _, by omega, by omega⟩

theorem mul_add_le {i n : Nat} (h : i < n) (k : Nat) : i * k + k ≤ n * k := by
  have := Nat.mul_le_mul_right k h
  rwa [Nat.succ_mul] at this

/-- On the longer side, a point near the line is not past the end of the shorter one. -/
theorem le_of_near_side (hD : 0 < D) (hcol : a ≤ D)
    (hbelow : 2 * (b * D) ≤ 2 * (a * E) + D) : b ≤ E := by
  by_contra hlt
  have h1 := mul_add_le (Nat.lt_of_not_le hlt) D
  have h2 := Nat.mul_le_mul_right E hcol
  rw [Nat.mul_comm E D] at h1
  omega

/-- In the last column of the longer side, a point near the line is in the corner. -/
theorem le_of_near_end (hside : E ≤ D) (habove : 2 * (D * E) ≤ 2 * (b * D) + D) : E ≤ b := by
  by_contra hlt
  have h1 := mul_add_le (Nat.lt_of_not_le hlt) D
  rw [Nat.mul_comm E D] at h1
  omega

namespace Near

variable {p : Nat × Nat}

theorem swap (h : Near D E a b) : Near E D b a :=
  ⟨h.row, h.col, by rw [Nat.max_comm]; exact h.above, by rw [Nat.max_comm]; exact h.below⟩

/-- The walk has no steps left in the corner only. -/
theorem left_eq_zero_iff (h : Near D E p.1 p.2) : left D E p = 0 ↔ p = (D, E) := by
  obtain ⟨a, b⟩ := p
  have hcol : a ≤ D := h.col
  have hrow : b ≤ E := h.row
  simp only [left, Prod.mk.injEq]
  refine ⟨fun hleft => ?_, ?_⟩
  · split_ifs at hleft with hside
    · obtain rfl : a = D := by omega
      have habove : 2 * (a * E) ≤ 2 * (b * a) + max a E := h.above
      rw [Nat.max_eq_left hside] at habove
      exact ⟨rfl, le_antisymm hrow (le_of_near_end hside habove)⟩
    · obtain rfl : b = E := by omega
      have hbelow : 2 * (b * D) ≤ 2 * (a * b) + max D b := h.below
      rw [Nat.max_eq_right (by omega)] at hbelow
      exact ⟨le_antisymm hcol (le_of_near_end (by omega) hbelow), rfl⟩
  · rintro ⟨rfl, rfl⟩
    split_ifs <;> omega

/-- A step goes on along the longer side. -/
theorem across (h : Near D E p.1 p.2) (hside : E ≤ D) : Across D E p := by
  have := h.above
  rw [Nat.max_eq_left hside] at this
  unfold Across
  omega

theorem up (h : Near D E p.1 p.2) (hside : D ≤ E) : Up D E p := by
  have := h.below
  rw [Nat.max_eq_right hside] at this
  unfold Up
  omega

/-- A step along the longer side stays near the line. -/
theorem next_longer (h : Near D E a b) (hside : E ≤ D) (ha : a < D) :
    Near D E (a + 1) (if Up D E (a, b) then b + 1 else b) := by
  have hbelow := h.below
  have habove := h.above
  rw [Nat.max_eq_left hside] at hbelow habove
  have hcol : (a + 1) * E = a * E + E := Nat.succ_mul a E
  have hrow : (if Up D E (a, b) then b + 1 else b) * D =
      if Up D E (a, b) then b * D + D else b * D := by
    split_ifs
    · exact Nat.succ_mul b D
    · rfl
  have hbelow' : 2 * ((if Up D E (a, b) then b + 1 else b) * D) ≤ 2 * ((a + 1) * E) + D := by
    rw [hcol, hrow]
    split_ifs <;> simp only [Up] at * <;> omega
  refine ⟨ha, le_of_near_side (by omega) ha hbelow', ?_, ?_⟩ <;> rw [Nat.max_eq_left hside]
  · exact hbelow'
  · rw [hcol, hrow]
    split_ifs <;> simp only [Up] at * <;> omega

/-- A step from any point but the corner leads to a point near the line, one step closer to the
corner. -/
theorem next (h : Near D E p.1 p.2) (hleft : left D E p ≠ 0) :
    Near D E (next D E p).1 (next D E p).2 ∧ left D E (next D E p) + 1 = left D E p := by
  obtain ⟨a, b⟩ := p
  unfold left at hleft ⊢
  rcases Nat.lt_or_ge D E with hside | hside
  · rw [if_neg (Nat.not_le_of_lt hside)] at hleft
    simp only [if_neg (Nat.not_le_of_lt hside)]
    -- with the sides exchanged, `Across` is `Up`
    have hnear := (next_longer h.swap (Nat.le_of_lt hside) (by omega)).swap
    rw [Raster.next, if_pos (h.up (Nat.le_of_lt hside))]
    exact ⟨hnear, by omega⟩
  · rw [if_pos hside] at hleft
    simp only [if_pos hside]
    have hnear := next_longer h hside (by omega)
    rw [Raster.next, if_pos (h.across hside)]
    exact ⟨hnear, by omega⟩

end Near

/-! ### Whole walks -/

/-- A step by at most one along each side, and by one along the longer one. -/
structure Step (D E : Nat) (p q : Nat × Nat) : Prop where
  col : q.1 = p.1 ∨ q.1 = p.1 + 1
  row : q.2 = p.2 ∨ q.2 = p.2 + 1
  across : E ≤ D → q.1 = p.1 + 1
  up : D ≤ E → q.2 = p.2 + 1

theorem Near.step {p : Nat × Nat} (h : Near D E p.1 p.2) : Step D E p (Raster.next D E p) where
  col := by
    unfold Raster.next
    split_ifs <;> simp
  row := by
    unfold Raster.next
    split_ifs <;> simp
  across hside := if_pos (h.across hside)
  up hside := if_pos (h.up hside)

/-- The walk from a point near the line to the corner. -/
structure Reaches (D E : Nat) (p : Nat × Nat) (path : List (Nat × Nat)) : Prop where
  length : path.length = left D E p + 1
  first : path.head? = some p
  last : path.getLast? = some (D, E)
  near : ∀ q ∈ path, Near D E q.1 q.2
  steps : path.IsChain (Step D E)

theorem walk_reaches {n : Nat} {p : Nat × Nat} (h : Near D E p.1 p.2) (hn : left D E p = n) :
    Reaches D E p (walk D E n p) := by
  induction n generalizing p with
  | zero =>
    have hend := h.left_eq_zero_iff.mp hn
    refine ⟨by rw [hn]; rfl, rfl, by rw [walk, hend]; rfl, ?_, List.isChain_singleton _⟩
    rintro q hq
    rwa [List.mem_singleton.mp hq]
  | succ n ih =>
    obtain ⟨hnear, hleft⟩ := h.next (by omega)
    have hrest := ih hnear (by omega)
    rw [walk]
    refine ⟨?_, rfl, ?_, ?_, ?_⟩
    · rw [List.length_cons, hrest.length]
      omega
    · rw [List.getLast?_cons, hrest.last]
      rfl
    · rintro q hq
      rcases List.mem_cons.mp hq with rfl | hq
      · exact h
      · exact hrest.near q hq
    · refine List.isChain_cons.mpr ⟨fun q hq => ?_, hrest.steps⟩
      rw [hrest.first, Option.mem_some_iff] at hq
      rw [← hq]
      exact h.step

/-! ### Rounding -/

/-- The quotient rounded, a half upwards. -/
def divRound (a n : Nat) : Nat := (2 * a + n) / (2 * n)

theorem divRound_eq_iff {n : Nat} (hn : 0 < n) (a q : Nat) :
    divRound a n = q ↔ 2 * (q * n) ≤ 2 * a + n ∧ 2 * a + n < 2 * (q * n) + 2 * n := by
  rw [divRound, Nat.div_eq_iff (by omega)]
  have hmul : q * (2 * n) = 2 * (q * n) := by ring
  rw [hmul]
  omega

/-- The point of the line after `n` steps along the longer side; along the other one it is rounded, a
half away from the start. -/
def rounded (D E n : Nat) : Nat × Nat :=
  if E ≤ D then (n, divRound (n * E) D) else (divRound (n * D) E, n)

/-- A step along the longer side goes on along the other one where the rounded place does. -/
theorem divRound_next (hside : E ≤ D) (hD : 0 < D) (n : Nat) :
    divRound ((n + 1) * E) D =
      if 2 * (divRound (n * E) D * D) + D ≤ 2 * (n * E) + 2 * E then divRound (n * E) D + 1
      else divRound (n * E) D := by
  obtain ⟨hlow, hhigh⟩ := (divRound_eq_iff hD (n * E) _).mp rfl
  have hsucc : (n + 1) * E = n * E + E := Nat.succ_mul n E
  have hup : (divRound (n * E) D + 1) * D = divRound (n * E) D * D + D := Nat.succ_mul _ D
  rw [divRound_eq_iff hD, hsucc]
  split_ifs with h
  · rw [hup]
    omega
  · omega

theorem rounded_next {n : Nat} (hn : n < max D E) :
    next D E (rounded D E n) = rounded D E (n + 1) := by
  rw [rounded, rounded]
  rcases Nat.lt_or_ge D E with hside | hside
  · have hE : 0 < E := by omega
    obtain ⟨hlow, hhigh⟩ := (divRound_eq_iff hE (n * D) _).mp rfl
    have hup : Up D E (divRound (n * D) E, n) := by
      change 2 * (n * D) + D ≤ 2 * (divRound (n * D) E * E) + 2 * E
      omega
    rw [if_neg (Nat.not_le_of_lt hside), if_neg (Nat.not_le_of_lt hside),
      divRound_next (Nat.le_of_lt hside) hE, next, if_pos hup]
  · have hD : 0 < D := by omega
    obtain ⟨hlow, hhigh⟩ := (divRound_eq_iff hD (n * E) _).mp rfl
    have hacross : Across D E (n, divRound (n * E) D) := by
      change 2 * (n * E) + E ≤ 2 * (divRound (n * E) D * D) + 2 * D
      omega
    rw [if_pos hside, if_pos hside, divRound_next hside hD, next, if_pos hacross]

/-- The walk is the line rounded to the grid. -/
theorem walk_eq_rounded (k : Nat) {n : Nat} (h : n + k ≤ max D E) :
    walk D E k (rounded D E n) = (List.range' n (k + 1)).map (rounded D E) := by
  induction k generalizing n with
  | zero => rfl
  | succ k ih =>
    rw [walk, rounded_next (by omega), ih (by omega)]
    rfl

theorem walk_start (D E : Nat) :
    walk D E (left D E (0, 0)) (0, 0) = (List.range (max D E + 1)).map (rounded D E) := by
  have hleft : left D E (0, 0) = max D E := by
    unfold left
    split_ifs <;> omega
  have hround : ∀ n, divRound 0 n = 0 := fun n => Nat.div_eq_zero_iff.mpr (by omega)
  have hzero : rounded D E 0 = (0, 0) := by
    rw [rounded, Nat.zero_mul, Nat.zero_mul, hround, hround, ite_self]
  rw [hleft, ← hzero, walk_eq_rounded _ (Nat.zero_add _).le, List.range_eq_range']

end Raster
