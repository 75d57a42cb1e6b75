import Sapphire.FrameAlloc.Scan
import Sapphire.Lib.Table
import Sapphire.MemoryMap.Usable

/-! The bitmap that `init` leaves, bit by bit: the reserved frames are in use, the other frames of
the pages that the memory map covers are free, and the other bits of the bitmap are set. -/

namespace Sapphire

open Machine

namespace FrameAllocator

variable {fa : FrameAllocator} {m : Mem}

/-- `mark` writes the bits of the frames of its rounded range. -/
theorem mark_spec (fa : FrameAllocator) (m : Mem) (start stop : BitVec 32) (free : Bool) :
    ChangesOnly (span fa.bitmap (2 ^ 17)) m (fa.mark m start stop free) ∧
    ∀ g < 2 ^ 20, fa.used (fa.mark m start stop free) g =
      if start.toNat / 4096 ≤ g ∧ g < endPage stop then !free else fa.used m g := by
  have hstop := endPage_lt stop
  have heq := forUp_eq_foldl pageSize
    (fun m addr => if free then fa.markFree m addr else fa.markUsed m addr) m
    (by decide) (pageDown_toNat start) (pageUp_toNat stop)
  obtain ⟨hc, hget⟩ := foldl_range'_update fa.used
    (f := fun m p => if free then fa.markFree m (BitVec.ofNat 32 (4096 * p))
      else fa.markUsed m (BitVec.ofNat 32 (4096 * p)))
    (v := fun _ => !free) (a := start.toNat / 4096) (n := endPage stop - start.toNat / 4096)
    (N := 2 ^ 20) (s := m)
    (fun _ t => ChangesOnly (span fa.bitmap (2 ^ 17)) m t) (ChangesOnly.refl _ _) (by
      intro p _ hp t hc
      have hnum : getFrameNumber (BitVec.ofNat 32 (4096 * p)) = BitVec.ofNat 32 p := by
        apply BitVec.eq_of_toNat_eq
        rw [toNat_getFrameNumber, toNat_mul_pageSize (by omega), BitVec.toNat_ofNat]
        omega
      have hword : span (bitWord fa.bitmap (BitVec.ofNat 32 p)) 4 ⊆ span fa.bitmap (2 ^ 17) := by
        rw [bitWord_eq]
        exact span_subset (by bv_omega)
      have hp' : (BitVec.ofNat 32 p).toNat = p := by
        rw [BitVec.toNat_ofNat, Nat.mod_eq_of_lt (by omega)]
      cases free with
      | false =>
        simp only [Bool.false_eq_true, if_false, markUsed, hnum, used]
        refine ⟨hc.trans ((changesOnly_setBit _ _ _).mono hword), fun q hq => ?_⟩
        rw [testBit_setBit _ _ _ (by omega), hp']
        by_cases hqp : q = p <;> simp [hqp]
      | true =>
        simp only [if_true, markFree, hnum, used]
        refine ⟨hc.trans ((changesOnly_clearBit _ _ _).mono hword), fun q hq => ?_⟩
        rw [testBit_clearBit _ _ _ (by omega), hp']
        by_cases hqp : q = p <;> simp [hqp])
  rw [mark, heq]
  refine ⟨hc, fun q hq => (hget q hq).trans ?_⟩
  congr 1
  simp only [eq_iff_iff]
  omega

/-! ### The size of the bitmap -/

/-- The loop of step 1 of `init` ends at the highest of where it starts and the ends of the usable
entries. -/
theorem foldl_highest_le_iff (entries : List E820Entry) (highest : BitVec 32) {b : Nat} :
    (entries.foldl (fun highest entry => if entry.type ≠ 1 then highest
      else if clamp (entry.base + entry.length) > highest then clamp (entry.base + entry.length)
      else highest) highest).toNat ≤ b ↔
    highest.toNat ≤ b ∧ ∀ e ∈ entries, e.type = 1 → (clamp32 (e.base + e.length)).toNat ≤ b := by
  induction entries generalizing highest with
  | nil => simp
  | cons entry entries ih =>
    rw [List.foldl_cons, ih, List.forall_mem_cons]
    by_cases htype : entry.type = 1
    · have hmax : (if clamp (entry.base + entry.length) > highest then
          clamp (entry.base + entry.length) else highest).toNat ≤ b ↔
          highest.toNat ≤ b ∧ (clamp32 (entry.base + entry.length)).toNat ≤ b := by
        rw [clamp]
        split <;> bv_omega
      rw [if_neg (by simpa using htype), hmax]
      simp only [htype, true_imp_iff]
      exact and_assoc
    · rw [if_pos htype]
      simp only [htype, false_imp_iff, true_and]

theorem highestAddr_le_iff {mmap : MemoryMap} {b : Nat} :
    (highestAddr mmap).toNat ≤ b ↔
      ∀ e ∈ mmap.entries, e.type = 1 → (clamp32 (e.base + e.length)).toNat ≤ b :=
  (foldl_highest_le_iff mmap.entries 0).trans (and_iff_right (Nat.zero_le b))

theorem clamp_le_highestAddr {mmap : MemoryMap} {e : E820Entry} (he : e ∈ mmap.entries)
    (htype : e.type = 1) : (clamp32 (e.base + e.length)).toNat ≤ (highestAddr mmap).toNat :=
  highestAddr_le_iff.mp le_rfl e he htype

theorem toNat_totalFrames (m : Mem) (mmap : MemoryMap) :
    (init m mmap).1.totalFrames.toNat = (highestAddr mmap).toNat / 4096 :=
  BitVec.toNat_udiv

theorem toNat_bitmapSize (m : Mem) (mmap : MemoryMap) :
    (init m mmap).1.bitmapSize.toNat = ((highestAddr mmap).toNat / 4096 + 7) / 8 := by
  have hhighest := (highestAddr mmap).isLt
  have hsize : (init m mmap).1.bitmapSize = ((init m mmap).1.totalFrames + 7) / 8 := rfl
  rw [hsize, BitVec.toNat_udiv, BitVec.toNat_add, toNat_totalFrames, Nat.mod_eq_of_lt]
  · rfl
  · show (highestAddr mmap).toNat / 4096 + 7 < 2 ^ 32
    omega

theorem bitmapSize_le (m : Mem) (mmap : MemoryMap) :
    (init m mmap).1.bitmapSize.toNat ≤ 2 ^ 17 := by
  have hhighest := (highestAddr mmap).isLt
  rw [toNat_bitmapSize]
  omega

/-- The number of reserved frames: those of the first megabyte, the page tables and the bitmap. -/
def reserved (fa : FrameAllocator) : Nat := (0x500000 + fa.bitmapSize.toNat + 4095) / 4096

theorem lt_reserved_iff {fa : FrameAllocator} {f : Nat} :
    f < fa.reserved ↔ 4096 * f < 0x500000 + fa.bitmapSize.toNat := by
  unfold reserved
  omega

theorem endPage_bitmap {fa : FrameAllocator} (hsize : fa.bitmapSize.toNat ≤ 2 ^ 17) :
    endPage (bitmapBase + fa.bitmapSize) = fa.reserved := by
  have hsum : (bitmapBase + fa.bitmapSize).toNat = 0x500000 + fa.bitmapSize.toNat := by bv_omega
  rw [endPage, hsum, reserved, if_pos (by omega)]

/-! ### The bits after `init` -/

/-- Step 6 of `init`. -/
theorem used_reserve (fa : FrameAllocator) (m : Mem) (hsize : fa.bitmapSize.toNat ≤ 2 ^ 17)
    {g : Nat} (hg : g < 2 ^ 20) :
    fa.used (fa.markRangeUsed (fa.markRangeUsed (fa.markRangeUsed m biosBase pageBase) pageBase
      bitmapBase) bitmapBase (bitmapBase + fa.bitmapSize)) g =
      (decide (g < fa.reserved) || fa.used m g) := by
  have hend := endPage_bitmap hsize
  have hres : 0x500 ≤ fa.reserved := by
    unfold reserved
    omega
  rw [markRangeUsed, (fa.mark_spec _ _ _ false).2 g hg, markRangeUsed,
    (fa.mark_spec _ _ _ false).2 g hg, markRangeUsed, (fa.mark_spec _ _ _ false).2 g hg, hend,
    show endPage pageBase = 0x100 from rfl, show endPage bitmapBase = 0x500 from rfl,
    show biosBase.toNat / 4096 = 0 from rfl, show pageBase.toNat / 4096 = 0x100 from rfl,
    show bitmapBase.toNat / 4096 = 0x500 from rfl]
  by_cases h : g < fa.reserved
  · rw [decide_eq_true h, Bool.true_or, Bool.not_false]
    split_ifs <;> first | rfl | omega
  · rw [if_neg (by omega), if_neg (by omega), if_neg (by omega)]
    simp [h]

/-- Step 4 of `init` sets every bit of the bitmap. -/
theorem fill_spec (fa : FrameAllocator) (m : Mem) (hsize : fa.bitmapSize.toNat ≤ 2 ^ 17) :
    let filled := (List.range fa.bitmapSize.toNat).foldl
      (fun m i => m.store8 (fa.bitmap + BitVec.ofNat 32 i) 0xFF) m
    ChangesOnly (span fa.bitmap (2 ^ 17)) m filled ∧
    ∀ g < 2 ^ 20, fa.used filled g = (decide (g < 8 * fa.bitmapSize.toNat) || fa.used m g) := by
  intro filled
  have hfill : ∀ x, filled x = if (x - fa.bitmap).toNat < fa.bitmapSize.toNat then 0xFF else m x :=
    fun x => foldl_store8 (by omega) m fa.bitmap 0xFF x
  refine ⟨fun x hx => ?_, fun g hg => ?_⟩
  · rw [hfill x, if_neg]
    intro hlt
    exact hx (Nat.lt_of_lt_of_le hlt hsize)
  · have hoff : (fa.bitmap + BitVec.ofNat 32 (g / 8) - fa.bitmap).toNat = g / 8 := by bv_omega
    rw [used, testBit, hfill, hoff]
    by_cases hlt : g < 8 * fa.bitmapSize.toNat
    · rw [if_pos (by omega), show (0xFF : BitVec 8) = BitVec.allOnes 8 from rfl,
        BitVec.getLsbD_allOnes]
      simp [hlt, Nat.mod_lt]
    · rw [if_neg (by omega)]
      simp only [hlt, decide_false, Bool.false_or]
      rfl

/-- Step 5 of `init` clears the bits of the covered pages. -/
theorem free_spec (fa : FrameAllocator) (m : Mem) (mmap : MemoryMap) :
    let freed := mmap.entries.foldl (fun m (e : E820Entry) => if e.type ≠ 1 then m
      else fa.markRangeFree m (e.base.setWidth 32) (clamp (e.base + e.length))) m
    ChangesOnly (span fa.bitmap (2 ^ 17)) m freed ∧
    ∀ g < 2 ^ 20, fa.used freed g = (!decide (mmap.Covered g) && fa.used m g) := by
  obtain ⟨hc, hfree⟩ := foldl_update fa.used (N := 2 ^ 20)
    (f := fun m (e : E820Entry) => if e.type ≠ 1 then m
      else fa.markRangeFree m (e.base.setWidth 32) (clamp (e.base + e.length)))
    (c := fun e q => e.Covers q) (v := fun _ => false) (s := m)
    (fun t => ChangesOnly (span fa.bitmap (2 ^ 17)) m t) (ChangesOnly.refl _ _) (by
      intro e t hc
      by_cases htype : e.type = 1
      · obtain ⟨hmarkc, hmark⟩ := fa.mark_spec t (e.base.setWidth 32)
          (clamp32 (e.base + e.length)) true
        rw [if_neg (by simpa using htype)]
        refine ⟨hc.trans hmarkc, fun q hq => (hmark q hq).trans ?_⟩
        simp only [E820Entry.Covers, htype, true_and, Bool.not_true]
      · rw [if_pos htype]
        refine ⟨hc, fun q _ => ?_⟩
        rw [if_neg fun hcov => htype hcov.1]) mmap.entries
  refine ⟨hc, fun g hg => (hfree g hg).trans ?_⟩
  by_cases hcov : ∃ e ∈ mmap.entries, e.Covers g
  · rw [if_pos hcov, show decide (mmap.Covered g) = true from decide_eq_true hcov]
    rfl
  · rw [if_neg hcov, show decide (mmap.Covered g) = false from decide_eq_false hcov]
    rfl

theorem init_spec (m : Mem) (mmap : MemoryMap) :
    ChangesOnly (span bitmapBase (2 ^ 17)) m (init m mmap).2 ∧
    ∀ g < 2 ^ 20, (init m mmap).1.used (init m mmap).2 g =
      (decide (g < (init m mmap).1.reserved) || (!decide (mmap.Covered g) &&
        (decide (g < 8 * (init m mmap).1.bitmapSize.toNat) || testBit m bitmapBase g))) := by
  have hsize := bitmapSize_le m mmap
  set fa := (init m mmap).1 with hfa
  obtain ⟨hfillc, hfill⟩ := fa.fill_spec m hsize
  obtain ⟨hfreec, hfree⟩ := fa.free_spec ((List.range fa.bitmapSize.toNat).foldl
    (fun m i => m.store8 (fa.bitmap + BitVec.ofNat 32 i) 0xFF) m) mmap
  refine ⟨?_, fun g hg => ?_⟩
  · exact (hfillc.trans hfreec).trans ((fa.mark_spec _ _ _ _).1.trans
      ((fa.mark_spec _ _ _ _).1.trans (fa.mark_spec _ _ _ _).1))
  · refine (used_reserve fa _ hsize hg).trans ?_
    congr 1
    refine (hfree g hg).trans ?_
    rw [hfill g hg]
    rfl

/-- Among the frames with a bit in the bitmap, the free ones are the covered pages that are not
reserved. -/
theorem used_init_eq_false_iff (m : Mem) (mmap : MemoryMap) {g : Nat}
    (hg : g < 8 * (init m mmap).1.bitmapSize.toNat) :
    (init m mmap).1.used (init m mmap).2 g = false ↔
      (init m mmap).1.reserved ≤ g ∧ mmap.Covered g := by
  have hsize := bitmapSize_le m mmap
  rw [(init_spec m mmap).2 g (by omega)]
  simp [hg]

/-- Those that `alloc_frame` looks at are among them. -/
theorem init_used (m : Mem) (mmap : MemoryMap) {g : Nat} (hg : g < (init m mmap).1.scanned) :
    (init m mmap).1.used (init m mmap).2 g = false ↔
      (init m mmap).1.reserved ≤ g ∧ mmap.Covered g :=
  used_init_eq_false_iff m mmap (lt_of_lt_of_le hg (init m mmap).1.scanned_le)

end FrameAllocator

end Sapphire
