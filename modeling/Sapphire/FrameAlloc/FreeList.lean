import Sapphire.FrameAlloc.Scan
import Sapphire.Paging.Tables

/-! The free frames that `alloc_frame` looks at, in order.  A call takes the first of them and leaves
the rest; where there is none it returns 0. -/

namespace Sapphire

open Machine

/-- The address of frame `f`. -/
def frameAddr (f : Nat) : BitVec 32 := BitVec.ofNat 32 (4096 * f)

theorem toNat_frameAddr {f : Nat} (hf : f < 2 ^ 20) : (frameAddr f).toNat = 4096 * f :=
  toNat_mul_pageSize hf

theorem page_frameAddr {f : Nat} (hf : f < 2 ^ 20) : (frameAddr f).toNat / 4096 = f :=
  page_mul_pageSize hf

theorem frameAddr_inj {f g : Nat} (hf : f < 2 ^ 20) (hg : g < 2 ^ 20) :
    frameAddr f = frameAddr g ↔ f = g := by
  constructor
  · intro h
    have := congrArg BitVec.toNat h
    rw [toNat_frameAddr hf, toNat_frameAddr hg] at this
    omega
  · rintro rfl
    rfl

theorem frameAddr_aligned (f : Nat) : (frameAddr f).toNat % 4096 = 0 := by
  rw [frameAddr, BitVec.toNat_ofNat]
  omega

namespace FrameAllocator

variable {fa : FrameAllocator} {m m' : Mem}

def freeFrames (fa : FrameAllocator) (m : Mem) : List Nat :=
  (List.range fa.scanned).filter fun f => !fa.used m f

theorem mem_freeFrames {f : Nat} :
    f ∈ fa.freeFrames m ↔ f < fa.scanned ∧ fa.used m f = false := by
  simp [freeFrames]

theorem freeFrames_congr (h : ∀ f < fa.scanned, fa.used m' f = fa.used m f) :
    fa.freeFrames m' = fa.freeFrames m := by
  apply List.filter_congr
  intro f hf
  rw [h f (List.mem_range.mp hf)]

/-- The first bits of a search that finds `f` are set, whatever the bits from `f` on are. -/
theorem LowestFree.filter_range {f : Nat} (h : fa.LowestFree m f) {p : Nat → Bool}
    (hp : ∀ g < f, p g = false) :
    (List.range fa.scanned).filter p =
      (f :: List.range' (f + 1) (fa.scanned - (f + 1))).filter p := by
  have hf := h.scanned
  have hsplit : List.range fa.scanned =
      List.range f ++ f :: List.range' (f + 1) (fa.scanned - (f + 1)) := by
    have := @List.range'_append 0 f (fa.scanned - f) 1
    rw [show 0 + 1 * f = f by omega, show f + (fa.scanned - f) = fa.scanned by omega] at this
    rw [List.range_eq_range', List.range_eq_range', ← List.range'_succ, ← this,
      show fa.scanned - (f + 1) + 1 = fa.scanned - f by omega]
  have hbelow : (List.range f).filter p = [] := by
    rw [List.filter_eq_nil_iff]
    intro g hg
    simp [hp g (List.mem_range.mp hg)]
  rw [hsplit, List.filter_append, hbelow, List.nil_append]

theorem LowestFree.freeFrames_eq {f : Nat} (h : fa.LowestFree m f) :
    fa.freeFrames m = f :: (List.range' (f + 1) (fa.scanned - (f + 1))).filter
      fun g => !fa.used m g := by
  rw [freeFrames, h.filter_range fun g hg => by rw [h.lowest g hg]; rfl, List.filter_cons, h.free]
  rfl

theorem freeFrames_eq_nil (h : ∀ f < fa.scanned, fa.used m f = true) : fa.freeFrames m = [] := by
  rw [freeFrames, List.filter_eq_nil_iff]
  intro f hf
  simp [h f (List.mem_range.mp hf)]

/-- A call takes the first free frame and leaves the others. -/
theorem allocFrame_freeFrames (hsize : fa.bitmapSize.toNat ≤ 2 ^ 17) :
    (fa.allocFrame m).2 = frameAddr ((fa.freeFrames m).headD 0) ∧
      fa.freeFrames (fa.allocFrame m).1 = (fa.freeFrames m).tail := by
  have hscanned := fa.scanned_le
  rcases fa.allocFrame_cases m hsize with ⟨hfull, hr⟩ | ⟨f, hlow, hr⟩
  · rw [hr, freeFrames_eq_nil hfull]
    exact ⟨rfl, rfl⟩
  · have hf := hlow.scanned
    have hused : ∀ g < fa.scanned, fa.used (fa.allocFrame m).1 g =
        (fa.used m g || decide (g = f)) := by
      intro g hg
      rw [hr]
      exact used_setBit (by omega) (by omega)
    refine ⟨by rw [hr, hlow.freeFrames_eq, List.headD_cons, frameAddr, Nat.mul_comm], ?_⟩
    rw [hlow.freeFrames_eq, List.tail_cons, freeFrames, hlow.filter_range fun g hg => by
      rw [hused g (by omega), hlow.lowest g hg]; rfl]
    rw [List.filter_cons, hused f hf, decide_eq_true rfl, Bool.or_true, Bool.not_true,
      if_neg Bool.false_ne_true]
    apply List.filter_congr
    intro g hg
    rw [List.mem_range'_1] at hg
    rw [hused g (by omega), decide_eq_false (by omega), Bool.or_false]

theorem used_allocFrame (hsize : fa.bitmapSize.toNat ≤ 2 ^ 17) {g : Nat} (hg : g < 2 ^ 20) :
    fa.used (fa.allocFrame m).1 g =
      (fa.used m g || decide (g ∈ (fa.freeFrames m).take 1)) := by
  have hscanned := fa.scanned_le
  rcases fa.allocFrame_cases m hsize with ⟨hfull, hr⟩ | ⟨f, hlow, hr⟩
  · simp [hr, freeFrames_eq_nil hfull]
  · have hf := hlow.scanned
    rw [hr, used_setBit (by omega) hg, hlow.freeFrames_eq]
    simp

/-- `n` calls return the first `n` free frames, and 0 once there are no more. -/
theorem takeFrames_freeFrames (hsize : fa.bitmapSize.toNat ≤ 2 ^ 17) (m : Mem) (n : Nat) :
    (fa.takeFrames m n).2 =
        (List.range n).map (fun i => frameAddr ((fa.freeFrames m).getD i 0)) ∧
      fa.freeFrames (fa.takeFrames m n).1 = (fa.freeFrames m).drop n := by
  induction n with
  | zero => exact ⟨rfl, rfl⟩
  | succ n ih =>
    obtain ⟨hframes, hfree⟩ := ih
    obtain ⟨hnext, hrest⟩ := allocFrame_freeFrames (m := (fa.takeFrames m n).1) hsize
    rw [hfree] at hnext hrest
    refine ⟨?_, ?_⟩
    · rw [takeFrames, List.range_succ, List.map_append, ← hframes]
      simp only [hnext, List.map_cons, List.map_nil, List.headD_eq_head?_getD, List.head?_drop,
        List.getD_eq_getElem?_getD]
    · rw [takeFrames]
      simp only [hrest, List.tail_drop]

theorem used_takeFrames (hsize : fa.bitmapSize.toNat ≤ 2 ^ 17) (m : Mem) (n : Nat) {g : Nat}
    (hg : g < 2 ^ 20) :
    fa.used (fa.takeFrames m n).1 g =
      (fa.used m g || decide (g ∈ (fa.freeFrames m).take n)) := by
  induction n with
  | zero => simp [takeFrames]
  | succ n ih =>
    rw [takeFrames]
    simp only
    rw [used_allocFrame hsize hg, ih, (takeFrames_freeFrames hsize m n).2, List.take_add,
      Bool.or_assoc]
    simp only [List.mem_append, Bool.decide_or]

theorem takeFrames_changesOnly (hsize : fa.bitmapSize.toNat ≤ 2 ^ 17) (m : Mem) (n : Nat) :
    ChangesOnly (span fa.bitmap fa.bitmapSize.toNat) m (fa.takeFrames m n).1 := by
  induction n with
  | zero => exact ChangesOnly.refl _ _
  | succ n ih => exact ih.trans (changesOnly_allocFrame hsize)

/-! ### The memory of the bitmap -/

/-- The memory that holds the bits of the bitmap and of the reserved frames. -/
def bits (fa : FrameAllocator) : Set (BitVec 32) := span fa.bitmap (max 256 fa.bitmapSize.toNat)

/-- The number of frames whose bits lie in `bits`. -/
def tracked (fa : FrameAllocator) : Nat := 8 * max 256 fa.bitmapSize.toNat

theorem scanned_le_tracked (fa : FrameAllocator) : fa.scanned ≤ fa.tracked := by
  have := fa.scanned_le
  unfold tracked
  omega

theorem span_subset_bits (fa : FrameAllocator) :
    span fa.bitmap fa.bitmapSize.toNat ⊆ fa.bits := span_mono (le_max_right _ _)

theorem used_of_changesOnly {S : Set (BitVec 32)} (hc : ChangesOnly S m m')
    (hd : Disjoint fa.bits S) {f : Nat} (hf : f < fa.tracked) : fa.used m' f = fa.used m f := by
  apply testBit_of_changesOnly hc
  apply Set.disjoint_left.mp hd
  unfold tracked at hf
  simp only [bits, mem_span]
  bv_omega

end FrameAllocator

end Sapphire
