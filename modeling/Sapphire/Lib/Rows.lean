import Mathlib.Order.Bounds.Basic

/-! Rows of free places.  A search passes over the places in order and counts the free ones since the
last one that is in use.  `SearchAt` says what it knows at a place; a search that stops when it has
counted enough stops at the end of the first row that is long enough. -/

namespace Rows

variable {used : Nat → Bool} {total n i c : Nat}

/-- There are `n` free places in a row among the first `total`, the first of them `start`. -/
def FreeRow (used : Nat → Bool) (total n start : Nat) : Prop :=
  start + n ≤ total ∧ ∀ k < n, used (start + k) = false

/-- The search at place `i`: the `c` places before it are the longest free row that ends there,
shorter than the one that is looked for, and no such row ends before. -/
structure SearchAt (used : Nat → Bool) (n i c : Nat) : Prop where
  count : c ≤ i
  short : n ≠ 0 → c < n
  row : ∀ j, i - c ≤ j → j < i → used j = false
  longest : c = i ∨ used (i - c - 1) = true
  none : n ≠ 0 → ∀ s, ¬ FreeRow used i n s

namespace SearchAt

theorem zero (used : Nat → Bool) (n : Nat) : SearchAt used n 0 0 := by
  refine ⟨le_refl _, fun h0 => ?_, fun j h1 h2 => ?_, Or.inl rfl, fun h0 s hs => ?_⟩
  · omega
  · omega
  · have := hs.1
    omega

theorem row_succ (h : SearchAt used n i c) (hfree : used i = false) (j : Nat)
    (h1 : i - c ≤ j) (h2 : j < i + 1) : used j = false := by
  by_cases hji : j = i
  · rw [hji]
    exact hfree
  · exact h.row j h1 (by omega)

/-- A row that ends with place `i` starts after every place in use before it. -/
theorem start_of_used (h : SearchAt used n i c) (hn : n ≠ 0) {s j : Nat}
    (hrow : FreeRow used (i + 1) n s) (hj : j ≤ i) (hused : used j = true) : j < s := by
  rcases Nat.lt_or_ge (s + n) (i + 1) with hbefore | hend
  · exact absurd ⟨by omega, hrow.2⟩ (h.none hn s)
  · by_contra hle
    have hin := hrow.2 (j - s) (by have := hrow.1; omega)
    rw [show s + (j - s) = j by omega, hused] at hin
    cases hin

/-- Past a free place that does not complete the row. -/
theorem past_free (h : SearchAt used n i c) (hfree : used i = false) (hshort : n ≠ 0 → c + 1 < n) :
    SearchAt used n (i + 1) (c + 1) := by
  have hc := h.count
  refine ⟨by omega, hshort, fun j h1 h2 => h.row_succ hfree j (by omega) h2, ?_,
    fun h0 s hrow => ?_⟩
  · rcases h.longest with hl | hl
    · exact Or.inl (by omega)
    · exact Or.inr (by rwa [show i + 1 - (c + 1) - 1 = i - c - 1 by omega])
  · have hlt := hshort h0
    have hfits := hrow.1
    rcases h.longest with hl | hl
    · omega
    · have := h.start_of_used h0 hrow (by omega) hl
      omega

/-- Past a place in use. -/
theorem past_used (h : SearchAt used n i c) (hused : used i = true) : SearchAt used n (i + 1) 0 := by
  refine ⟨by omega, fun h0 => by omega, fun j h1 h2 => by omega, Or.inr hused, fun h0 s hrow => ?_⟩
  have hfits := hrow.1
  have := h.start_of_used h0 hrow (le_refl i) hused
  omega

/-- A free place that completes the row: it is the first of its length. -/
theorem found (h : SearchAt used n i c) (hfree : used i = false) (hn : c + 1 = n)
    (hi : i < total) : IsLeast {s | FreeRow used total n s} (i - c) := by
  have hc := h.count
  refine ⟨⟨by omega, fun k hk => h.row_succ hfree _ (by omega) (by omega)⟩, fun s hrow => ?_⟩
  -- a row that starts before this one ends before place `i`
  by_contra hlt
  exact h.none (by omega) s ⟨by omega, hrow.2⟩

end SearchAt

end Rows
