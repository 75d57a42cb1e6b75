import Mathlib.Algebra.Ring.Nat
import Mathlib.Data.List.Chain
import Mathlib.Data.List.Perm.Basic
import Mathlib.Tactic.SplitIfs

/-! Block lists of a first-fit allocator.  A list of segments, each a header of `h` bytes and a
usable area, is laid out from an address on without gaps.  `firstFit` takes the first free segment
that is large enough and splits it when the rest is worth a header, `freeAt` marks the segment at an
address free, and `coalesce` joins every run of adjacent free segments.  `coalesce` after `freeAt`
gives the same list whether or not the list was coalesced before, so frees commute. -/

namespace Segments

/-- A block: the size of its usable area and whether it is free. -/
structure Seg where
  size : Nat
  free : Bool
  deriving DecidableEq, Repr

variable (h : Nat)

/-- The bytes of a list of segments, headers included. -/
def extent : List Seg → Nat
  | [] => 0
  | s :: rest => h + s.size + extent rest

/-- The segments with their addresses, the first at `a`. -/
def place : Nat → List Seg → List (Nat × Seg)
  | _, [] => []
  | a, s :: rest => (a, s) :: place (a + h + s.size) rest

/-- The segments in use, with their addresses. -/
def used (a : Nat) (segs : List Seg) : List (Nat × Seg) :=
  (place h a segs).filter fun x => !x.2.free

/-- No two adjacent segments are free. -/
def Apart (segs : List Seg) : Prop := segs.IsChain fun s t => ¬(s.free = true ∧ t.free = true)

/-- The last segment is not empty. -/
def LastPos (segs : List Seg) : Prop := ∀ s ∈ segs.getLast?, 0 < s.size

/-- `s` before a list, joined with its first segment when both are free. -/
def glue (s : Seg) : List Seg → List Seg
  | [] => [s]
  | t :: rest =>
    if s.free && t.free then ⟨s.size + h + t.size, true⟩ :: rest else s :: t :: rest

/-- Every run of free segments as one segment. -/
def coalesce : List Seg → List Seg
  | [] => []
  | s :: rest => glue h s (coalesce rest)

/-- `s` with the free segments that follow it joined to it if it is free, and the rest. -/
def absorb (s : Seg) : List Seg → Seg × List Seg
  | [] => (s, [])
  | t :: rest =>
    if s.free && t.free then absorb ⟨s.size + h + t.size, true⟩ rest else (s, t :: rest)

/-- A segment at address `a` after the one at `b` is marked free. -/
def markFree (b a : Nat) (s : Seg) : Seg := if a = b then { s with free := true } else s

/-- The segment at address `b` marked free, the first segment being at `a`. -/
def freeAt (b : Nat) : Nat → List Seg → List Seg
  | _, [] => []
  | a, s :: rest => markFree b a s :: freeAt b (a + h + s.size) rest

/-- The first free segment of at least `n` bytes, put to use: split when at least `slack` bytes
would be left after a header.  The result is its address and the new list. -/
def firstFit (slack n : Nat) : Nat → List Seg → Option (Nat × List Seg)
  | _, [] => none
  | a, s :: rest =>
    if !s.free || s.size < n then
      (firstFit slack n (a + h + s.size) rest).map fun r => (r.1, s :: r.2)
    else if n + h + slack ≤ s.size then
      some (a, ⟨n, false⟩ :: ⟨s.size - n - h, true⟩ :: rest)
    else some (a, ⟨s.size, false⟩ :: rest)

variable {h}

/-! ### Placement -/

theorem extent_cons (h : Nat) (s : Seg) (rest : List Seg) :
    extent h (s :: rest) = h + s.size + extent h rest :=
  rfl

theorem place_cons (h a : Nat) (s : Seg) (rest : List Seg) :
    place h a (s :: rest) = (a, s) :: place h (a + h + s.size) rest :=
  rfl

theorem place_bounds {a : Nat} {segs : List Seg} {x : Nat × Seg} (hx : x ∈ place h a segs) :
    a ≤ x.1 ∧ x.1 + h + x.2.size ≤ a + extent h segs := by
  induction segs generalizing a with
  | nil => cases hx
  | cons s rest ih =>
    simp only [place_cons, List.mem_cons] at hx
    simp only [extent_cons]
    rcases hx with rfl | hx
    · simp only
      omega
    · have := ih hx
      omega

theorem mul_length_le_extent (h : Nat) (segs : List Seg) :
    h * segs.length ≤ extent h segs := by
  induction segs with
  | nil => simp
  | cons s rest ih =>
    rw [List.length_cons, Nat.mul_succ, extent_cons]
    omega

/-- Each segment ends where a later one starts, or before. -/
theorem place_pairwise (h a : Nat) (segs : List Seg) :
    (place h a segs).Pairwise fun x y => x.1 + h + x.2.size ≤ y.1 := by
  induction segs generalizing a with
  | nil => exact .nil
  | cons s rest ih =>
    refine List.pairwise_cons.mpr ⟨fun y hy => ?_, ih _⟩
    exact (place_bounds hy).1

/-- Two segments of a list are the same or one ends before the other starts. -/
theorem place_disjoint {a : Nat} {segs : List Seg} {x y : Nat × Seg} (hx : x ∈ place h a segs)
    (hy : y ∈ place h a segs) :
    x = y ∨ x.1 + h + x.2.size ≤ y.1 ∨ y.1 + h + y.2.size ≤ x.1 := by
  induction segs generalizing a with
  | nil => cases hx
  | cons s rest ih =>
    simp only [place_cons, List.mem_cons] at hx hy
    rcases hx with rfl | hx <;> rcases hy with rfl | hy
    · exact Or.inl rfl
    · exact Or.inr (Or.inl (place_bounds hy).1)
    · exact Or.inr (Or.inr (place_bounds hx).1)
    · exact ih hx hy

theorem mem_used {a : Nat} {segs : List Seg} {x : Nat × Seg} :
    x ∈ used h a segs ↔ x ∈ place h a segs ∧ x.2.free = false := by
  simp [used]

theorem used_cons (a : Nat) (s : Seg) (rest : List Seg) :
    used h a (s :: rest) =
      if s.free then used h (a + h + s.size) rest
      else (a, s) :: used h (a + h + s.size) rest := by
  cases hs : s.free <;> simp [used, place_cons, hs]

/-- Segments in use have different addresses when headers are not empty. -/
theorem used_nodup (hpos : 0 < h) (a : Nat) (segs : List Seg) :
    ((used h a segs).map Prod.fst).Nodup := by
  have hpair : ((used h a segs).map Prod.fst).Pairwise (· < ·) := by
    rw [List.pairwise_map]
    exact ((place_pairwise h a segs).filter _).imp fun hle => by omega
  exact hpair.imp fun hlt => Nat.ne_of_lt hlt

theorem LastPos.tail {s t : Seg} {rest : List Seg} (hl : LastPos (s :: t :: rest)) :
    LastPos (t :: rest) := by
  intro u hu
  exact hl u (by rwa [List.getLast?_cons_cons])

theorem LastPos.cons {s : Seg} {rest : List Seg} (hne : rest ≠ []) (hl : LastPos rest) :
    LastPos (s :: rest) := by
  cases rest with
  | nil => exact absurd rfl hne
  | cons t rest =>
    intro u hu
    exact hl u (by rwa [List.getLast?_cons_cons] at hu)

/-- The usable area of every segment starts before the end when that of the last is not empty. -/
theorem LastPos.payload_lt (hpos : 0 < h) {a : Nat} {segs : List Seg} (hl : LastPos segs)
    {x : Nat × Seg} (hx : x ∈ place h a segs) : x.1 + h < a + extent h segs := by
  induction segs generalizing a with
  | nil => cases hx
  | cons s rest ih =>
    rw [extent_cons]
    simp only [place_cons, List.mem_cons] at hx
    cases rest with
    | nil =>
      have hs := hl s (by simp)
      rcases hx with rfl | hx
      · simp only
        omega
      · cases hx
    | cons t rest =>
      rcases hx with rfl | hx
      · simp only [extent_cons]
        omega
      · have := ih hl.tail hx
        omega

/-! ### Coalescing -/

@[simp] theorem glue_ne_nil (s : Seg) (l : List Seg) : glue h s l ≠ [] := by
  cases l with
  | nil => simp [glue]
  | cons t rest =>
    simp only [glue]
    split <;> simp

theorem coalesce_ne_nil {l : List Seg} (hl : l ≠ []) : coalesce h l ≠ [] := by
  cases l with
  | nil => exact absurd rfl hl
  | cons s rest => exact glue_ne_nil s _

theorem glue_of_free {s t : Seg} (hs : s.free = true) (ht : t.free = true) (l : List Seg) :
    glue h s (t :: l) = ⟨s.size + h + t.size, true⟩ :: l := by
  simp [glue, hs, ht]

theorem glue_of_not_free {s t : Seg} (hst : ¬(s.free = true ∧ t.free = true)) (l : List Seg) :
    glue h s (t :: l) = s :: t :: l := by
  simp only [glue, Bool.and_eq_true, hst, if_false]

/-- Joining two free segments first changes nothing. -/
theorem glue_glue {s t : Seg} (hs : s.free = true) (ht : t.free = true) (l : List Seg) :
    glue h s (glue h t l) = glue h ⟨s.size + h + t.size, true⟩ l := by
  cases l with
  | nil => simp [glue, hs, ht]
  | cons u rest =>
    cases hu : u.free <;> simp [glue, hs, ht, hu]
    omega

theorem extent_glue (s : Seg) (l : List Seg) : extent h (glue h s l) = h + s.size + extent h l := by
  cases l with
  | nil => rfl
  | cons t rest =>
    simp only [glue]
    split <;> simp only [extent_cons]
    omega

theorem extent_coalesce (l : List Seg) : extent h (coalesce h l) = extent h l := by
  induction l with
  | nil => rfl
  | cons s rest ih => rw [coalesce, extent_glue, ih, extent_cons]

theorem used_glue (a : Nat) (s : Seg) (l : List Seg) :
    used h a (glue h s l) = used h a (s :: l) := by
  cases l with
  | nil => rfl
  | cons t rest =>
    simp only [glue]
    split
    · rename_i hfree
      simp only [Bool.and_eq_true] at hfree
      simp only [used_cons, hfree.1, hfree.2, if_true]
      congr 1
      omega
    · rfl

/-- The segments in use do not change when free ones are joined. -/
theorem used_coalesce (a : Nat) (l : List Seg) : used h a (coalesce h l) = used h a l := by
  induction l generalizing a with
  | nil => rfl
  | cons s rest ih => rw [coalesce, used_glue, used_cons, used_cons, ih]

theorem apart_glue {s : Seg} {l : List Seg} (hl : Apart l) : Apart (glue h s l) := by
  cases l with
  | nil => exact List.isChain_singleton s
  | cons t rest =>
    simp only [glue]
    split
    · rename_i hfree
      simp only [Bool.and_eq_true] at hfree
      cases rest with
      | nil => exact List.isChain_singleton _
      | cons u rest =>
        obtain ⟨htu, hrest⟩ := List.isChain_cons_cons.mp hl
        exact List.isChain_cons_cons.mpr ⟨fun hu => htu ⟨hfree.2, hu.2⟩, hrest⟩
    · rename_i hfree
      refine List.isChain_cons_cons.mpr ⟨fun hst => hfree ?_, hl⟩
      simp [hst.1, hst.2]

theorem apart_coalesce (l : List Seg) : Apart (coalesce h l) := by
  induction l with
  | nil => exact List.isChain_nil
  | cons s rest ih => exact apart_glue ih

/-- A list without adjacent free segments stays as it is. -/
theorem coalesce_of_apart {l : List Seg} (hl : Apart l) : coalesce h l = l := by
  induction l with
  | nil => rfl
  | cons s rest ih =>
    cases rest with
    | nil => rfl
    | cons t rest =>
      obtain ⟨hst, hrest⟩ := List.isChain_cons_cons.mp hl
      have hnot : (s.free && t.free) = false := by
        cases hs : s.free <;> cases ht : t.free <;> simp_all
      rw [coalesce, ih hrest]
      simp [glue, hnot]

theorem lastPos_glue {s : Seg} {l : List Seg} (hl : LastPos (s :: l)) : LastPos (glue h s l) := by
  cases l with
  | nil => exact hl
  | cons t rest =>
    simp only [glue]
    split
    · cases rest with
      | nil =>
        have ht := hl t (by simp)
        simp only [LastPos, List.getLast?_singleton, Option.mem_some_iff, forall_eq']
        omega
      | cons u rest => exact hl.tail.tail.cons (by simp)
    · exact hl

theorem lastPos_coalesce {l : List Seg} (hl : LastPos l) : LastPos (coalesce h l) := by
  induction l with
  | nil => exact hl
  | cons s rest ih =>
    cases rest with
    | nil => exact hl
    | cons t rest => exact lastPos_glue ((ih hl.tail).cons (coalesce_ne_nil (by simp)))

/-- With nothing in use, everything is one free segment. -/
theorem coalesce_of_used_nil {a : Nat} {l : List Seg} (hne : l ≠ []) (hl : used h a l = []) :
    coalesce h l = [⟨extent h l - h, true⟩] := by
  induction l generalizing a with
  | nil => exact absurd rfl hne
  | cons s rest ih =>
    rw [used_cons] at hl
    cases hs : s.free
    · simp [hs] at hl
    · simp only [hs, if_true] at hl
      cases rest with
      | nil =>
        simp only [coalesce, glue, extent]
        rw [Nat.add_zero, Nat.add_sub_cancel_left, ← hs]
      | cons t rest =>
        rw [coalesce, ih (by simp) hl]
        simp only [glue, hs, Bool.and_self, if_true, extent_cons, List.cons.injEq, Seg.mk.injEq,
          and_true]
        omega

/-- The first segment that `coalesce` gives is free exactly when the list's first is. -/
theorem glue_head_free {s t : Seg} {l rest : List Seg} (hg : glue h s l = t :: rest) :
    t.free = s.free := by
  cases l with
  | nil =>
    simp only [glue, List.cons.injEq] at hg
    rw [← hg.1]
  | cons u rest' =>
    simp only [glue] at hg
    split at hg
    · rename_i hfree
      simp only [Bool.and_eq_true] at hfree
      simp only [List.cons.injEq] at hg
      rw [← hg.1, hfree.1]
    · simp only [List.cons.injEq] at hg
      rw [← hg.1]

/-- Absorbing into the first segment and going on with the rest coalesces the list. -/
theorem coalesce_cons (s : Seg) (l : List Seg) :
    coalesce h (s :: l) = (absorb h s l).1 :: coalesce h (absorb h s l).2 := by
  induction l generalizing s with
  | nil => rfl
  | cons t rest ih =>
    simp only [absorb]
    split
    · rename_i hfree
      simp only [Bool.and_eq_true] at hfree
      rw [← ih, coalesce, coalesce, glue_glue hfree.1 hfree.2, coalesce]
    · rename_i hfree
      rw [coalesce]
      cases hc : coalesce h (t :: rest) with
      | nil => exact absurd hc (coalesce_ne_nil (by simp))
      | cons u rest' =>
        have hu : u.free = t.free := glue_head_free hc
        simp [glue, hu, hfree]

/-- What is left after absorbing was there before, at the same addresses. -/
theorem place_absorb {a : Nat} {s : Seg} {l : List Seg} {x : Nat × Seg}
    (hx : x ∈ place h (a + h + (absorb h s l).1.size) (absorb h s l).2) :
    x ∈ place h (a + h + s.size) l := by
  induction l generalizing s with
  | nil => cases hx
  | cons t rest ih =>
    simp only [absorb] at hx
    split at hx
    · have := ih hx
      rw [show a + h + (s.size + h + t.size) = a + h + s.size + h + t.size by omega] at this
      exact List.mem_cons_of_mem _ this
    · exact hx

theorem absorb_length (s : Seg) (l : List Seg) : (absorb h s l).2.length ≤ l.length := by
  induction l generalizing s with
  | nil => simp [absorb]
  | cons t rest ih =>
    simp only [absorb]
    split
    · exact (ih _).trans (by simp)
    · simp

/-! ### Freeing -/

@[simp] theorem markFree_size (b a : Nat) (s : Seg) : (markFree b a s).size = s.size := by
  unfold markFree
  split <;> rfl

theorem markFree_of_free (b a : Nat) {s : Seg} (hs : s.free = true) : markFree b a s = s := by
  obtain ⟨n, f⟩ := s
  subst hs
  unfold markFree
  split <;> rfl

theorem markFree_comm (b c a : Nat) (s : Seg) :
    markFree b a (markFree c a s) = markFree c a (markFree b a s) := by
  unfold markFree
  split_ifs <;> rfl

theorem freeAt_cons (h b a : Nat) (s : Seg) (rest : List Seg) :
    freeAt h b a (s :: rest) = markFree b a s :: freeAt h b (a + h + s.size) rest :=
  rfl

theorem extent_freeAt (b a : Nat) (l : List Seg) : extent h (freeAt h b a l) = extent h l := by
  induction l generalizing a with
  | nil => rfl
  | cons s rest ih => simp [freeAt_cons, extent_cons, ih]

theorem freeAt_of_lt {b a : Nat} {l : List Seg} (hb : b < a) : freeAt h b a l = l := by
  induction l generalizing a with
  | nil => rfl
  | cons s rest ih =>
    rw [freeAt_cons, markFree, if_neg (by omega), ih (by omega)]

theorem freeAt_length (b a : Nat) (l : List Seg) : (freeAt h b a l).length = l.length := by
  induction l generalizing a with
  | nil => rfl
  | cons s rest ih => simp [freeAt_cons, ih]

/-- A free moves no segment. -/
theorem place_freeAt_fst (b a : Nat) (l : List Seg) :
    (place h a (freeAt h b a l)).map Prod.fst = (place h a l).map Prod.fst := by
  induction l generalizing a with
  | nil => rfl
  | cons s rest ih => simp [freeAt_cons, place_cons, ih]

theorem freeAt_ne_nil {b a : Nat} {l : List Seg} (hl : l ≠ []) : freeAt h b a l ≠ [] := by
  cases l with
  | nil => exact absurd rfl hl
  | cons s rest => simp [freeAt_cons]

theorem lastPos_freeAt {b a : Nat} {l : List Seg} (hl : LastPos l) :
    LastPos (freeAt h b a l) := by
  induction l generalizing a with
  | nil => exact hl
  | cons s rest ih =>
    cases rest with
    | nil =>
      simp only [freeAt, LastPos, List.getLast?_singleton, Option.mem_some_iff, forall_eq',
        markFree_size]
      exact hl s (by simp)
    | cons t rest => exact (ih hl.tail).cons (freeAt_ne_nil (by simp))

/-- A free takes the segment at its address, and no other, out of use. -/
theorem used_freeAt (b a : Nat) (l : List Seg) :
    used h a (freeAt h b a l) = (used h a l).filter fun x => x.1 ≠ b := by
  induction l generalizing a with
  | nil => rfl
  | cons s rest ih =>
    rw [freeAt_cons, used_cons, used_cons, markFree_size, ih]
    by_cases hab : a = b
    · cases s.free <;> simp [markFree, hab]
    · cases hs : s.free <;> simp [markFree, hab, hs]

theorem freeAt_comm (b c a : Nat) (l : List Seg) :
    freeAt h b a (freeAt h c a l) = freeAt h c a (freeAt h b a l) := by
  induction l generalizing a with
  | nil => rfl
  | cons s rest ih => simp [freeAt_cons, markFree_comm b c, ih]

/-- Coalescing before a free makes no difference to the list coalesced after it. -/
theorem coalesce_freeAt_coalesce (b a : Nat) (l : List Seg) :
    coalesce h (freeAt h b a (coalesce h l)) = coalesce h (freeAt h b a l) := by
  induction l generalizing a with
  | nil => rfl
  | cons s rest ih =>
    rw [freeAt_cons, coalesce, coalesce, ← ih]
    cases hc : coalesce h rest with
    | nil => rfl
    | cons t rest' =>
      by_cases hfree : s.free = true ∧ t.free = true
      · rw [glue_of_free hfree.1 hfree.2, freeAt_cons, freeAt_cons, coalesce, coalesce,
          markFree_of_free b _ hfree.1, markFree_of_free b _ hfree.2, markFree_of_free b _ rfl,
          glue_glue hfree.1 hfree.2]
        rw [show a + h + (s.size + h + t.size) = a + h + s.size + h + t.size by omega]
      · rw [glue_of_not_free hfree, freeAt_cons, coalesce]

/-- The segments at several addresses marked free. -/
def freeAll (h a : Nat) (bs : List Nat) (l : List Seg) : List Seg :=
  bs.foldl (fun l b => freeAt h b a l) l

theorem coalesce_freeAll_coalesce (a : Nat) (bs : List Nat) (l : List Seg) :
    coalesce h (freeAll h a bs (coalesce h l)) = coalesce h (freeAll h a bs l) := by
  induction bs generalizing l with
  | nil => exact coalesce_of_apart (apart_coalesce l)
  | cons b bs ih =>
    simp only [freeAll, List.foldl_cons] at ih ⊢
    rw [← ih, coalesce_freeAt_coalesce, ih]

theorem freeAll_perm {a : Nat} {bs cs : List Nat} (hperm : bs.Perm cs) (l : List Seg) :
    freeAll h a bs l = freeAll h a cs l :=
  hperm.foldl_eq' (fun b _ c _ l => freeAt_comm c b a l) l

/-! ### Headers inside free segments -/

/-- The header at `b` is that of a free segment, or in the usable area of one. -/
def InFree (h a b : Nat) (l : List Seg) : Prop :=
  ∃ y ∈ place h a l, y.2.free = true ∧ (y.1 = b ∨ y.1 + h ≤ b ∧ b ≤ y.1 + y.2.size)

theorem inFree_cons {a b : Nat} {s : Seg} {l : List Seg} : InFree h a b (s :: l) ↔
    s.free = true ∧ (a = b ∨ a + h ≤ b ∧ b ≤ a + s.size) ∨ InFree h (a + h + s.size) b l := by
  simp [InFree, place_cons]

theorem inFree_glue {a b : Nat} {s : Seg} {l : List Seg} (hb : InFree h a b (s :: l)) :
    InFree h a b (glue h s l) := by
  cases l with
  | nil => exact hb
  | cons t rest =>
    simp only [glue]
    split
    · -- the header of the second segment is now in the usable area of the first
      rw [inFree_cons, inFree_cons] at hb
      rw [inFree_cons, show a + h + (s.size + h + t.size) = a + h + s.size + h + t.size by omega]
      rcases hb with ⟨-, hb⟩ | ⟨-, hb⟩ | hb
      · exact Or.inl ⟨rfl, by simp only; omega⟩
      · exact Or.inl ⟨rfl, by simp only; omega⟩
      · exact Or.inr hb
    · exact hb

theorem inFree_coalesce {a b : Nat} {l : List Seg} (hb : InFree h a b l) :
    InFree h a b (coalesce h l) := by
  induction l generalizing a with
  | nil => exact hb
  | cons s rest ih =>
    refine inFree_glue (inFree_cons.mpr ?_)
    rcases inFree_cons.mp hb with hb | hb
    · exact Or.inl hb
    · exact Or.inr (ih hb)

theorem inFree_freeAt {a b : Nat} {l : List Seg} (c : Nat) (hb : InFree h a b l) :
    InFree h a b (freeAt h c a l) := by
  induction l generalizing a with
  | nil => exact hb
  | cons s rest ih =>
    rw [freeAt_cons, inFree_cons, markFree_size]
    rcases inFree_cons.mp hb with ⟨hfree, hb⟩ | hb
    · exact Or.inl ⟨by rw [markFree_of_free c a hfree, hfree], hb⟩
    · exact Or.inr (ih hb)

/-- The header of a segment that is freed. -/
theorem inFree_freeAt_self {a b : Nat} {l : List Seg} (hb : b ∈ (place h a l).map Prod.fst) :
    InFree h a b (freeAt h b a l) := by
  induction l generalizing a with
  | nil => cases hb
  | cons s rest ih =>
    rw [freeAt_cons, inFree_cons, markFree_size]
    rcases List.mem_cons.mp hb with rfl | hb
    · exact Or.inl ⟨by simp [markFree], Or.inl rfl⟩
    · exact Or.inr (ih hb)

theorem place_glue_fst {a b : Nat} {s : Seg} {l : List Seg}
    (hb : b ∈ (place h a (glue h s l)).map Prod.fst) : b ∈ (place h a (s :: l)).map Prod.fst := by
  cases l with
  | nil => exact hb
  | cons t rest =>
    simp only [glue] at hb
    split at hb
    · simp only [place_cons, List.map_cons, List.mem_cons] at hb ⊢
      rw [show a + h + (s.size + h + t.size) = a + h + s.size + h + t.size by omega] at hb
      exact hb.imp_right Or.inr
    · exact hb

/-- Joining free segments adds no header. -/
theorem place_coalesce_fst {a b : Nat} {l : List Seg}
    (hb : b ∈ (place h a (coalesce h l)).map Prod.fst) : b ∈ (place h a l).map Prod.fst := by
  induction l generalizing a with
  | nil => exact hb
  | cons s rest ih =>
    have hglue := place_glue_fst hb
    simp only [place_cons, List.map_cons, List.mem_cons] at hglue ⊢
    exact hglue.imp_right ih

/-! ### First fit -/

variable {slack n : Nat}

/-- What first fit does with the segment at the front: it skips it, splits it or takes it whole. -/
theorem firstFit_cons {a : Nat} {s : Seg} {rest : List Seg} {r : Nat × List Seg}
    (hr : firstFit h slack n a (s :: rest) = some r) :
    ((s.free = true → s.size < n) ∧
      ∃ r', firstFit h slack n (a + h + s.size) rest = some r' ∧ r = (r'.1, s :: r'.2)) ∨
    (s.free = true ∧ n + h + slack ≤ s.size ∧
      r = (a, ⟨n, false⟩ :: ⟨s.size - n - h, true⟩ :: rest)) ∨
    (s.free = true ∧ n ≤ s.size ∧ s.size < n + h + slack ∧ r = (a, ⟨s.size, false⟩ :: rest)) := by
  rw [firstFit] at hr
  split at hr
  · rename_i hskip
    obtain ⟨r', hr', rfl⟩ := Option.map_eq_some_iff.mp hr
    refine Or.inl ⟨fun hs => ?_, r', hr', rfl⟩
    simpa [hs] using hskip
  · rename_i hfit
    simp only [Bool.or_eq_true, Bool.not_eq_true', decide_eq_true_eq, not_or,
      Bool.not_eq_false] at hfit
    refine Or.inr ?_
    split at hr <;> cases hr
    · rename_i hsplit
      exact Or.inl ⟨hfit.1, hsplit, rfl⟩
    · exact Or.inr ⟨hfit.1, by omega, by omega, rfl⟩

theorem extent_firstFit {a : Nat} {l : List Seg} {r : Nat × List Seg}
    (hr : firstFit h slack n a l = some r) : extent h r.2 = extent h l := by
  induction l generalizing a r with
  | nil => cases hr
  | cons s rest ih =>
    obtain ⟨-, r', hr', rfl⟩ | ⟨-, hsplit, rfl⟩ | ⟨-, -, -, rfl⟩ := firstFit_cons hr
    · simp only [extent_cons, ih hr']
    · simp only [extent_cons]
      omega
    · simp only [extent_cons]

theorem firstFit_ne_nil {a : Nat} {l : List Seg} {r : Nat × List Seg}
    (hr : firstFit h slack n a l = some r) : r.2 ≠ [] := by
  cases l with
  | nil => cases hr
  | cons s rest =>
    obtain ⟨-, r', -, rfl⟩ | ⟨-, -, rfl⟩ | ⟨-, -, -, rfl⟩ := firstFit_cons hr
    · exact List.cons_ne_nil _ _
    · exact List.cons_ne_nil _ _
    · exact List.cons_ne_nil _ _

theorem lastPos_firstFit (hslack : 0 < slack) {a : Nat} {l : List Seg} {r : Nat × List Seg}
    (hl : LastPos l) (hr : firstFit h slack n a l = some r) : LastPos r.2 := by
  induction l generalizing a r with
  | nil => cases hr
  | cons s rest ih =>
    obtain ⟨-, r', hr', rfl⟩ | ⟨-, hsplit, rfl⟩ | ⟨-, -, -, rfl⟩ := firstFit_cons hr
    · cases rest with
      | nil => cases hr'
      | cons t rest => exact (ih hl.tail hr').cons (firstFit_ne_nil hr')
    · cases rest with
      | nil =>
        simp only [LastPos, List.getLast?_cons_cons, List.getLast?_singleton,
          Option.mem_some_iff, forall_eq']
        omega
      | cons t rest => exact (hl.tail.cons (by simp)).cons (by simp)
    · cases rest with
      | nil =>
        simp only [LastPos, List.getLast?_singleton, Option.mem_some_iff, forall_eq']
        exact hl s (by simp)
      | cons t rest => exact hl.tail.cons (by simp)

/-- First fit puts one new segment in use, between `n` and `n + h + slack - 1` bytes large. -/
theorem used_firstFit {a : Nat} {l : List Seg} {r : Nat × List Seg}
    (hr : firstFit h slack n a l = some r) :
    ∃ c, n ≤ c ∧ (c = n ∨ c < n + h + slack) ∧
      (used h a r.2).Perm ((r.1, ⟨c, false⟩) :: used h a l) := by
  induction l generalizing a r with
  | nil => cases hr
  | cons s rest ih =>
    obtain ⟨-, r', hr', rfl⟩ | ⟨hfree, hsplit, rfl⟩ | ⟨hfree, hn, hlt, rfl⟩ := firstFit_cons hr
    · obtain ⟨c, hc, hc', hperm⟩ := ih hr'
      refine ⟨c, hc, hc', ?_⟩
      simp only [used_cons]
      split
      · exact hperm
      · exact (hperm.cons _).trans (List.Perm.swap _ _ _)
    · refine ⟨n, le_refl _, Or.inl rfl, ?_⟩
      simp only [used_cons, hfree, if_true, Bool.false_eq_true, if_false]
      rw [show a + h + n + h + (s.size - n - h) = a + h + s.size by omega]
    · refine ⟨s.size, hn, Or.inr hlt, ?_⟩
      simp only [used_cons, hfree, if_true, Bool.false_eq_true, if_false]
      exact List.Perm.refl _

/-- First fit changes only bytes of the free segment that it takes. -/
theorem firstFit_mem {a : Nat} {l : List Seg} {r : Nat × List Seg}
    (hr : firstFit h slack n a l = some r) :
    ∃ s, (r.1, s) ∈ place h a l ∧ s.free = true ∧ n ≤ s.size := by
  induction l generalizing a r with
  | nil => cases hr
  | cons s rest ih =>
    obtain ⟨-, r', hr', rfl⟩ | ⟨hfree, hsplit, rfl⟩ | ⟨hfree, hn, -, rfl⟩ := firstFit_cons hr
    · obtain ⟨t, ht, hfree, hn⟩ := ih hr'
      exact ⟨t, List.mem_cons_of_mem _ ht, hfree, hn⟩
    · exact ⟨s, List.mem_cons_self, hfree, by omega⟩
    · exact ⟨s, List.mem_cons_self, hfree, hn⟩

/-- First fit adds a header only where it splits the first free segment that is large enough. -/
theorem place_firstFit_fst {a b : Nat} {l : List Seg} {r : Nat × List Seg}
    (hr : firstFit h slack n a l = some r) (hb : b ∈ (place h a r.2).map Prod.fst) :
    b ∈ (place h a l).map Prod.fst ∨ b = r.1 + h + n ∧ ∃ s,
      (place h a l).find? (fun x => x.2.free && decide (n ≤ x.2.size)) = some (r.1, s) ∧
        n + h + slack ≤ s.size := by
  induction l generalizing a r with
  | nil => cases hr
  | cons s rest ih =>
    rw [place_cons, List.map_cons, List.mem_cons]
    obtain ⟨hskip, r', hr', rfl⟩ | ⟨hfree, hsplit, rfl⟩ | ⟨-, -, -, rfl⟩ := firstFit_cons hr
    · have hnot : (s.free && decide (n ≤ s.size)) = false := by
        cases hfree : s.free with
        | false => rfl
        | true => exact decide_eq_false (Nat.not_le_of_lt (hskip hfree))
      rw [place_cons, List.map_cons, List.mem_cons] at hb
      rw [List.find?_cons_of_neg (by simp [hnot])]
      rcases hb with hb | hb
      · exact Or.inl (Or.inl hb)
      · exact (ih hr' hb).imp_left Or.inr
    · have hfound : (s.free && decide (n ≤ s.size)) = true := by
        simp only [Bool.and_eq_true, decide_eq_true_eq]
        exact ⟨hfree, by omega⟩
      rw [List.find?_cons_of_pos (by exact hfound)]
      simp only [place_cons, List.map_cons, List.mem_cons] at hb
      rw [show a + h + n + h + (s.size - n - h) = a + h + s.size by omega] at hb
      rcases hb with hb | hb | hb
      · exact Or.inl (Or.inl hb)
      · exact Or.inr ⟨hb, s, rfl, hsplit⟩
      · exact Or.inl (Or.inr hb)
    · rw [place_cons, List.map_cons, List.mem_cons] at hb
      exact Or.inl hb

/-- A free segment at the front after first fit was at the front before it. -/
theorem firstFit_head_free {a : Nat} {l : List Seg} {r : Nat × List Seg}
    (hr : firstFit h slack n a l = some r) {t : Seg} (ht : t ∈ r.2.head?)
    (hfree : t.free = true) : t ∈ l.head? := by
  cases l with
  | nil => cases hr
  | cons s rest =>
    obtain ⟨-, r', -, rfl⟩ | ⟨-, -, rfl⟩ | ⟨-, -, -, rfl⟩ := firstFit_cons hr
    · exact ht
    · simp only [List.head?_cons, Option.mem_some_iff] at ht
      simp [← ht] at hfree
    · simp only [List.head?_cons, Option.mem_some_iff] at ht
      simp [← ht] at hfree

theorem apart_firstFit {a : Nat} {l : List Seg} {r : Nat × List Seg} (hl : Apart l)
    (hr : firstFit h slack n a l = some r) : Apart r.2 := by
  induction l generalizing a r with
  | nil => cases hr
  | cons s rest ih =>
    obtain ⟨hnext, htail⟩ := List.isChain_cons.mp hl
    obtain ⟨-, r', hr', rfl⟩ | ⟨hfree, -, rfl⟩ | ⟨-, -, -, rfl⟩ := firstFit_cons hr
    · refine List.isChain_cons.mpr ⟨fun t ht hst => ?_, ih htail hr'⟩
      exact hnext t (firstFit_head_free hr' ht hst.2) hst
    · refine List.isChain_cons_cons.mpr ⟨by simp, ?_⟩
      exact List.isChain_cons.mpr ⟨fun t ht hst => hnext t ht ⟨hfree, hst.2⟩, htail⟩
    · exact List.isChain_cons.mpr ⟨by simp, htail⟩

/-- Freeing what first fit took gives the list back. -/
theorem coalesce_freeAt_firstFit (hpos : 0 < h) {a : Nat} {l : List Seg} {r : Nat × List Seg}
    (hl : Apart l) (hr : firstFit h slack n a l = some r) :
    coalesce h (freeAt h r.1 a r.2) = l := by
  induction l generalizing a r with
  | nil => cases hr
  | cons s rest ih =>
    have htail : Apart rest := (List.isChain_cons.mp hl).2
    have hjoin : glue h s rest = s :: rest := by
      have := coalesce_of_apart (h := h) hl
      rwa [coalesce, coalesce_of_apart htail] at this
    obtain ⟨k, f⟩ := s
    obtain ⟨-, r', hr', rfl⟩ | ⟨rfl, hsplit, rfl⟩ | ⟨rfl, -, -, rfl⟩ := firstFit_cons hr
    · have hlow : a + h + k ≤ r'.1 := by
        obtain ⟨t, ht, -⟩ := firstFit_mem hr'
        exact (place_bounds ht).1
      rw [freeAt_cons, markFree, if_neg (by simp only; omega), coalesce, ih htail hr', hjoin]
    · have hsum : n + h + (k - n - h) = k := by
        simp only at hsplit
        omega
      simp only [freeAt_cons, markFree, if_true]
      rw [freeAt_of_lt (by omega), if_neg (by omega), coalesce, coalesce, coalesce_of_apart htail,
        glue_glue rfl rfl]
      simp only [hsum]
      exact hjoin
    · simp only [freeAt_cons, markFree, if_true]
      rw [freeAt_of_lt (by omega), coalesce, coalesce_of_apart htail]
      exact hjoin

end Segments
