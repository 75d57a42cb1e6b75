import Sapphire.Lib.Segments

/-! Gaps between intervals.  A `Gap` of a region is a stretch that no interval overlaps and that
reaches from the end of one, or of the region, to the start of another.  In a list of segments
without adjacent free ones the gaps between the segments in use are the free segments, so first fit
over the list is first fit over the gaps. -/

namespace Segments

/-- The `len` bytes from `g` on are a gap of the region from `lo` to `hi` between the intervals of
`ext`, each from its first component to its second. -/
structure Gap (lo hi : Nat) (ext : Set (Nat × Nat)) (g len : Nat) : Prop where
  pos : 0 < len
  above : lo ≤ g
  below : g + len ≤ hi
  apart : ∀ e ∈ ext, e.2 ≤ g ∨ g + len ≤ e.1
  left : g = lo ∨ ∃ e ∈ ext, e.2 = g
  right : g + len = hi ∨ ∃ e ∈ ext, e.1 = g + len

variable {h : Nat}

/-- The bytes of the segments in use, headers included. -/
def extents (h a : Nat) (segs : List Seg) : Set (Nat × Nat) :=
  {e | ∃ x ∈ used h a segs, e = (x.1, x.1 + h + x.2.size)}

/-! ### Neighbours -/

theorem place_covers {a b : Nat} {segs : List Seg} (hlo : a ≤ b) (hhi : b < a + extent h segs) :
    ∃ x ∈ place h a segs, x.1 ≤ b ∧ b < x.1 + h + x.2.size := by
  induction segs generalizing a with
  | nil =>
    simp only [extent] at hhi
    omega
  | cons s rest ih =>
    simp only [extent] at hhi
    by_cases hb : b < a + h + s.size
    · exact ⟨(a, s), by simp [place], hlo, hb⟩
    · obtain ⟨x, hx, hbx⟩ := ih (a := a + h + s.size) (by omega) (by omega)
      exact ⟨x, List.mem_cons_of_mem _ hx, hbx⟩

/-- A free segment is last or a segment in use starts where it ends. -/
theorem place_next {a : Nat} {segs : List Seg} (hapart : Apart segs) {x : Nat × Seg}
    (hx : x ∈ place h a segs) (hfree : x.2.free = true) :
    x.1 + h + x.2.size = a + extent h segs ∨
      ∃ y ∈ used h a segs, y.1 = x.1 + h + x.2.size := by
  induction segs generalizing a with
  | nil => simp [place] at hx
  | cons s rest ih =>
    obtain ⟨hnext, htail⟩ := List.isChain_cons.mp hapart
    simp only [place, List.mem_cons] at hx
    simp only [extent]
    rcases hx with rfl | hx
    · cases rest with
      | nil => exact Or.inl (by simp only [extent]; omega)
      | cons t rest =>
        have ht : t.free = false := by
          have hst := hnext t (by simp)
          simp only [show s.free = true from hfree, true_and] at hst
          simpa using hst
        exact Or.inr ⟨(a + h + s.size, t), mem_used.mpr ⟨by simp [place], ht⟩, rfl⟩
    · rcases ih htail hx with heq | ⟨y, hy, hyx⟩
      · exact Or.inl (by omega)
      · obtain ⟨hyp, hyf⟩ := mem_used.mp hy
        exact Or.inr ⟨y, mem_used.mpr ⟨List.mem_cons_of_mem _ hyp, hyf⟩, hyx⟩

/-- A free segment is first or a segment in use ends where it starts. -/
theorem place_prev (hpos : 0 < h) {a : Nat} {segs : List Seg} (hapart : Apart segs) {x : Nat × Seg}
    (hx : x ∈ place h a segs) (hfree : x.2.free = true) :
    x.1 = a ∨ ∃ y ∈ used h a segs, y.1 + h + y.2.size = x.1 := by
  induction segs generalizing a with
  | nil => simp [place] at hx
  | cons s rest ih =>
    obtain ⟨hnext, htail⟩ := List.isChain_cons.mp hapart
    simp only [place, List.mem_cons] at hx
    rcases hx with rfl | hx
    · exact Or.inl rfl
    · rcases ih htail hx with heq | ⟨y, hy, hyx⟩
      · cases rest with
        | nil => simp [place] at hx
        | cons t rest =>
          -- the free segment at the start of the rest is its first one
          have hxt : x = (a + h + s.size, t) := by
            simp only [place, List.mem_cons] at hx
            rcases hx with rfl | hx
            · rfl
            · have hle := (place_bounds hx).1
              omega
          have hs : s.free = false := by
            have hst := hnext t (by simp)
            rw [hxt] at hfree
            simp only [show t.free = true from hfree, and_true] at hst
            simpa using hst
          exact Or.inr ⟨(a, s), mem_used.mpr ⟨by simp [place], hs⟩, heq.symm⟩
      · obtain ⟨hyp, hyf⟩ := mem_used.mp hy
        exact Or.inr ⟨y, mem_used.mpr ⟨List.mem_cons_of_mem _ hyp, hyf⟩, hyx⟩

/-! ### Gaps -/

theorem gap_of_free (hpos : 0 < h) {a : Nat} {segs : List Seg} (hapart : Apart segs)
    {x : Nat × Seg} (hx : x ∈ place h a segs) (hfree : x.2.free = true) :
    Gap a (a + extent h segs) (extents h a segs) x.1 (h + x.2.size) := by
  have hb := place_bounds hx
  refine ⟨by omega, hb.1, by omega, ?_, ?_, ?_⟩
  · rintro e ⟨y, hy, rfl⟩
    obtain ⟨hyp, hyf⟩ := mem_used.mp hy
    simp only
    rcases place_disjoint hx hyp with rfl | hd | hd
    · simp [hfree] at hyf
    · omega
    · omega
  · rcases place_prev hpos hapart hx hfree with heq | ⟨y, hy, hyx⟩
    · exact Or.inl heq
    · exact Or.inr ⟨_, ⟨y, hy, rfl⟩, hyx⟩
  · rcases place_next hapart hx hfree with heq | ⟨y, hy, hyx⟩
    · exact Or.inl (by omega)
    · exact Or.inr ⟨_, ⟨y, hy, rfl⟩, by simp only; omega⟩

/-- The gaps between the segments in use are the free segments. -/
theorem gap_iff_free (hpos : 0 < h) {a g len : Nat} {segs : List Seg} (hapart : Apart segs) :
    Gap a (a + extent h segs) (extents h a segs) g len ↔
      ∃ t, (g, t) ∈ place h a segs ∧ t.free = true ∧ len = h + t.size := by
  constructor
  · intro hgap
    obtain ⟨hlen, hlo, hhi, hout, hleft, hright⟩ := hgap
    have hused : ∀ y ∈ used h a segs, y.1 + h + y.2.size ≤ g ∨ g + len ≤ y.1 :=
      fun y hy => hout _ ⟨y, hy, rfl⟩
    obtain ⟨x, hx, hxg, hgx⟩ := place_covers hlo (by omega : g < a + extent h segs)
    have hfree : x.2.free = true := by
      by_contra hf
      have := hused x (mem_used.mpr ⟨hx, by simpa using hf⟩)
      omega
    -- a segment in use lies outside of `x`, so neither end of the gap is inside of it
    have houter : ∀ y ∈ used h a segs, y.1 + h + y.2.size ≤ x.1 ∨ x.1 + h + x.2.size ≤ y.1 := by
      intro y hy
      obtain ⟨hyp, hyf⟩ := mem_used.mp hy
      rcases place_disjoint hyp hx with rfl | hd | hd
      · simp [hfree] at hyf
      · exact Or.inl hd
      · exact Or.inr hd
    have hstart : x.1 = g := by
      rcases hleft with rfl | ⟨_, ⟨y, hy, rfl⟩, hyg⟩
      · exact le_antisymm hxg (place_bounds hx).1
      · have := houter y hy
        simp only at hyg
        omega
    have hend : g + len = x.1 + h + x.2.size := by
      apply le_antisymm
      · rcases place_next hapart hx hfree with heq | ⟨y, hy, hyx⟩
        · omega
        · have := hused y hy
          omega
      · rcases hright with heq | ⟨_, ⟨y, hy, rfl⟩, hyg⟩
        · have := (place_bounds hx).2
          omega
        · have := houter y hy
          simp only at hyg
          omega
    obtain ⟨b, t⟩ := x
    simp only at hstart hend
    subst hstart
    exact ⟨t, hx, hfree, by omega⟩
  · rintro ⟨t, hx, hfree, rfl⟩
    exact gap_of_free hpos hapart hx hfree

/-! ### First fit -/

variable {slack n : Nat}

theorem firstFit_eq_none {a : Nat} {l : List Seg} :
    firstFit h slack n a l = none ↔ ∀ x ∈ place h a l, x.2.free = true → x.2.size < n := by
  induction l generalizing a with
  | nil => simp [firstFit, place]
  | cons s rest ih =>
    simp only [firstFit, place, List.forall_mem_cons]
    split
    · rename_i hskip
      rw [Option.map_eq_none_iff, ih]
      refine ⟨fun hrest => ⟨fun hs => ?_, hrest⟩, fun hall => hall.2⟩
      simpa [hs] using hskip
    · rename_i hfit
      simp only [Bool.or_eq_true, Bool.not_eq_true', decide_eq_true_eq, not_or,
        Bool.not_eq_false] at hfit
      refine iff_of_false (by split <;> simp) fun hall => hfit.2 (hall.1 hfit.1)

/-- First fit takes the large enough free segment with the lowest address. -/
theorem firstFit_least {a : Nat} {l : List Seg} {r : Nat × List Seg}
    (hr : firstFit h slack n a l = some r) {x : Nat × Seg} (hx : x ∈ place h a l)
    (hfree : x.2.free = true) (hn : n ≤ x.2.size) : r.1 ≤ x.1 := by
  induction l generalizing a r with
  | nil => cases hr
  | cons s rest ih =>
    have hlow := (place_bounds hx).1
    obtain ⟨hskip, r', hr', rfl⟩ | ⟨-, -, rfl⟩ | ⟨-, -, -, rfl⟩ := firstFit_cons hr
    · simp only [place, List.mem_cons] at hx
      rcases hx with rfl | hx
      · exact absurd (hskip hfree) (Nat.not_lt.mpr hn)
      · have hle : r'.1 ≤ x.1 := ih hr' hx
        exact hle
    · exact hlow
    · exact hlow

end Segments
