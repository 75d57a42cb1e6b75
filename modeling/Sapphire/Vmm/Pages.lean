import Sapphire.FrameAlloc.FreeList
import Sapphire.Lib.Rows
import Sapphire.Vmm

/-! What the functions of the virtual memory manager do to the three structures they keep: its own
bitmap, the frame bitmap and the page tables.  `Laid` says that these and the page directory do not
overlap; each function then changes the structure it works on and leaves the others alone. -/

namespace Sapphire

open Machine Rows

namespace VMM

/-- Page `i` of the region is marked as in use. -/
def used (vmm : VMM) (m : Mem) (i : Nat) : Bool := testBit m vmm.bitmap i

/-- The memory that holds the bits of the region's pages. -/
def pageBits (vmm : VMM) : Set (BitVec 32) := span vmm.bitmap 0x4000

structure Laid (vmm : VMM) : Prop where
  regionStart : vmm.regionStart = vmmRegionStart
  totalPages : vmm.totalPages = vmmTotalPages
  size : vmm.fa.bitmapSize.toNat ≤ 2 ^ 17
  directory_frames : Disjoint (span vmm.pd.entries 4096) vmm.fa.bits
  directory_pages : Disjoint (span vmm.pd.entries 4096) vmm.pageBits
  tables_frames : Disjoint (span pageTablesBase 0x400000) vmm.fa.bits
  tables_pages : Disjoint (span pageTablesBase 0x400000) vmm.pageBits
  frames_pages : Disjoint vmm.fa.bits vmm.pageBits

variable {vmm : VMM} {m m' : Mem}

/-! ### What does not change -/

theorem used_of_changesOnly {S : Set (BitVec 32)} (hc : ChangesOnly S m m')
    (hd : Disjoint vmm.pageBits S) {i : Nat} (hi : i < 131072) : vmm.used m' i = vmm.used m i := by
  apply testBit_of_changesOnly hc
  apply Set.disjoint_left.mp hd
  simp only [pageBits, mem_span]
  bv_omega

namespace Laid

theorem scanned_le (h : vmm.Laid) : vmm.fa.scanned ≤ 2 ^ 20 := by
  have h1 := vmm.fa.scanned_le
  have h2 := h.size
  omega

theorem tracked_le (h : vmm.Laid) : vmm.fa.tracked ≤ 2 ^ 20 := by
  have := h.size
  unfold FrameAllocator.tracked
  omega

/-- `alloc_frame` changes the bits of the frames. -/
theorem changesOnly_allocFrame (h : vmm.Laid) (m : Mem) :
    ChangesOnly vmm.fa.bits m (vmm.fa.allocFrame m).1 :=
  (FrameAllocator.changesOnly_allocFrame h.size).mono vmm.fa.span_subset_bits

/-- `free_frame` of a frame that `alloc_frame` can return, or of frame 0, does too. -/
theorem changesOnly_freeFrame (h : vmm.Laid) (m : Mem) {f : Nat}
    (hf : f < vmm.fa.scanned ∨ f = 0) :
    ChangesOnly vmm.fa.bits m (vmm.fa.freeFrame m (frameAddr f)) := by
  have hscanned := h.scanned_le
  have hsize := h.size
  have hnum : FrameAllocator.getFrameNumber (frameAddr f) = BitVec.ofNat 32 f := by
    apply BitVec.eq_of_toNat_eq
    rw [FrameAllocator.toNat_getFrameNumber, toNat_frameAddr (by omega), BitVec.toNat_ofNat]
    omega
  rw [FrameAllocator.freeFrame, FrameAllocator.markFree, hnum]
  refine (changesOnly_clearBit _ _ _).mono ?_
  unfold FrameAllocator.scanned at hf
  rw [bitWord_eq, FrameAllocator.bits]
  exact span_subset (by bv_omega)

end Laid

/-! ### The search for free pages -/

/-- There are `n` free pages in a row, the first of them `start`. -/
def FreeRange (vmm : VMM) (m : Mem) (n start : Nat) : Prop :=
  start + n ≤ 131072 ∧ ∀ k < n, vmm.used m (start + k) = false

/-- A search for as many pages as a free range has does not fail. -/
theorem FreeRange.not_none {numPages : BitVec 32} {start : Nat}
    (hrange : vmm.FreeRange m numPages.toNat start) (hne : numPages ≠ 0) :
    ¬ (numPages = 0 ∨ ∀ s, ¬ vmm.FreeRange m numPages.toNat s) := by
  rintro (hzero | hnone)
  · exact hne hzero
  · exact hnone start hrange

/-- The first of the free ranges of `n` pages starts at `start`. -/
structure Leftmost (vmm : VMM) (m : Mem) (n start : Nat) : Prop where
  range : vmm.FreeRange m n start
  least : ∀ s, vmm.FreeRange m n s → start ≤ s

theorem Leftmost.unique {n s t : Nat} (hs : vmm.Leftmost m n s) (ht : vmm.Leftmost m n t) :
    s = t :=
  le_antisymm (hs.least t ht.range) (ht.least s hs.range)

/-- The search over `total` pages ends with the first page of the first row of free pages that is
long enough, or there is none. -/
theorem findFreeFrom_cases {numPages : BitVec 32} {total k i c : Nat} {startIndex : BitVec 32}
    (hk : i + k = total) (htotal : total < 2 ^ 32)
    (hs : SearchAt (vmm.used m) numPages.toNat i c)
    (hstart : c ≠ 0 → startIndex = BitVec.ofNat 32 (i - c)) :
    ((numPages.toNat = 0 ∨ ∀ s, ¬ FreeRow (vmm.used m) total numPages.toNat s) ∧
      vmm.findFreeFrom m numPages k (BitVec.ofNat 32 i) (BitVec.ofNat 32 c) startIndex =
        0xFFFFFFFF) ∨
    ∃ s, numPages.toNat ≠ 0 ∧ IsLeast {s | FreeRow (vmm.used m) total numPages.toNat s} s ∧
      vmm.findFreeFrom m numPages k (BitVec.ofNat 32 i) (BitVec.ofNat 32 c) startIndex =
        BitVec.ofNat 32 s := by
  induction k generalizing i c startIndex with
  | zero =>
    refine Or.inl ⟨?_, rfl⟩
    rw [Nat.add_zero] at hk
    rw [← hk]
    exact or_iff_not_imp_left.mpr hs.none
  | succ k ih =>
    have hc := hs.count
    have hi : (BitVec.ofNat 32 i).toNat = i := by
      rw [BitVec.toNat_ofNat, Nat.mod_eq_of_lt (by omega)]
    have hnext : BitVec.ofNat 32 i + 1 = BitVec.ofNat 32 (i + 1) := by bv_omega
    have hcount : BitVec.ofNat 32 c + 1 = BitVec.ofNat 32 (c + 1) := by bv_omega
    have hmask := mask_eq_zero_iff m vmm.bitmap (BitVec.ofNat 32 i)
    rw [bitWord, hi] at hmask
    rw [findFreeFrom]
    simp only [ne_eq, not_not, hmask, hnext, hcount]
    by_cases hfree : testBit m vmm.bitmap i = false
    · rw [if_pos hfree]
      have hstart' : (if BitVec.ofNat 32 c = 0 then BitVec.ofNat 32 i else startIndex) =
          BitVec.ofNat 32 (i - c) := by
        by_cases hc0 : c = 0
        · simp [hc0]
        · rw [if_neg (by bv_omega), hstart hc0]
      by_cases hfound : BitVec.ofNat 32 (c + 1) = numPages
      · rw [if_pos hfound, hstart']
        have hn : c + 1 = numPages.toNat := by
          rw [← hfound, BitVec.toNat_ofNat, Nat.mod_eq_of_lt (by omega)]
        exact Or.inr ⟨i - c, by omega, hs.found hfree hn (by omega), rfl⟩
      · rw [if_neg hfound, hstart']
        have hshort : numPages.toNat ≠ 0 → c + 1 < numPages.toNat := by
          intro h0
          have := hs.short h0
          bv_omega
        exact ih (by omega) (hs.past_free hfree hshort) fun _ => by congr 1; omega
    · rw [if_neg hfree]
      exact ih (c := 0) (by omega) (hs.past_used (by simpa [used] using hfree)) fun h0 =>
        absurd rfl h0

theorem findFreeRange_cases (h : vmm.Laid) (m : Mem) (numPages : BitVec 32) :
    ((numPages = 0 ∨ ∀ s, ¬ vmm.FreeRange m numPages.toNat s) ∧
      vmm.findFreeRange m numPages = 0xFFFFFFFF) ∨
    ∃ s, numPages ≠ 0 ∧ vmm.Leftmost m numPages.toNat s ∧
      vmm.findFreeRange m numPages = BitVec.ofNat 32 s := by
  have htotal : vmm.totalPages.toNat = 131072 := by
    rw [h.totalPages]
    rfl
  have hzero : numPages.toNat = 0 ↔ numPages = 0 := BitVec.toNat_inj (y := 0)
  rw [findFreeRange, htotal]
  rcases findFreeFrom_cases (Nat.zero_add 131072) (by decide)
    (SearchAt.zero (vmm.used m) numPages.toNat) (fun h0 => absurd rfl h0) with
    ⟨hnone, hfind⟩ | ⟨s, hne, hleast, hfind⟩
  · exact Or.inl ⟨hnone.imp_left hzero.mp, hfind⟩
  · exact Or.inr ⟨s, mt hzero.mpr hne, ⟨hleast.1, fun t ht => hleast.2 ht⟩, hfind⟩

/-- Whatever the bitmap holds and however many pages there are, `find_free_range` returns the first
page of the first row of as many free pages, and `0xFFFFFFFF` exactly when there is none. -/
theorem find_free_range_leftmost (vmm : VMM) (m : Mem) {numPages : BitVec 32}
    (hn : 1 ≤ numPages.toNat) :
    (∀ s, FreeRow (vmm.used m) vmm.totalPages.toNat numPages.toNat s →
      IsLeast {s | FreeRow (vmm.used m) vmm.totalPages.toNat numPages.toNat s}
        (vmm.findFreeRange m numPages).toNat) ∧
    (vmm.findFreeRange m numPages = 0xFFFFFFFF ↔
      ¬ ∃ s, FreeRow (vmm.used m) vmm.totalPages.toNat numPages.toNat s) := by
  rcases findFreeFrom_cases (Nat.zero_add vmm.totalPages.toNat) (BitVec.isLt _)
    (SearchAt.zero (vmm.used m) numPages.toNat) (fun h0 => absurd rfl h0) with
    ⟨hnone, hfind⟩ | ⟨s, hne, hleast, hfind⟩
  · have hnone := hnone.resolve_left (by omega)
    exact ⟨fun s hs => absurd hs (hnone s), fun _ ⟨s, hs⟩ => hnone s hs, fun _ => hfind⟩
  · have hfits := hleast.1.1
    have hlast := vmm.totalPages.isLt
    have hs : (vmm.findFreeRange m numPages).toNat = s := by
      rw [findFreeRange]
      refine (congrArg BitVec.toNat hfind).trans ?_
      rw [BitVec.toNat_ofNat, Nat.mod_eq_of_lt (by omega)]
    refine ⟨fun _ _ => hs.symm ▸ hleast, fun hfail => ?_, fun hnone => absurd ⟨s, hleast.1⟩ hnone⟩
    -- a row of one page or more starts before the last index
    rw [hfail] at hs
    have : (0xFFFFFFFF : BitVec 32).toNat = 0xFFFFFFFF := rfl
    omega

/-- With pages 0, 1 and 3 of 40 in use, 34 pages are found from page 4 on, in two words. -/
theorem find_free_range_leftmost_twoWords :
    let vmm : VMM := ⟨0x1000, vmmRegionStart, 40, ⟨0x500000, 0, 0⟩, ⟨0x9C000⟩⟩
    let m : Mem := fun x => if x = 0x1000 then 0b1011 else 0
    vmm.findFreeRange m 34 = 4 ∧ IsLeast {s | FreeRow (vmm.used m) 40 34 s} 4 := by
  intro vmm m
  have hfind : vmm.findFreeRange m 34 = 4 := by decide +kernel
  have hleast := (@find_free_range_leftmost vmm m 34 (by decide)).1 4
    ⟨by decide, by decide +kernel⟩
  rw [hfind] at hleast
  exact ⟨hfind, hleast⟩

/-! ### Marking pages -/

theorem bitWord_pageBits {i : BitVec 32} (hi : i.toNat < 131072) :
    span (bitWord vmm.bitmap i) 4 ⊆ vmm.pageBits := by
  rw [bitWord_eq, pageBits]
  exact span_subset (by bv_omega)

/-- A loop over pages of the region is a fold. -/
theorem whileLoop_pages {σ : Type} {pageIndex count : BitVec 32}
    (hbound : ∀ j, pageIndex.toNat ≤ j → j < pageIndex.toNat + count.toNat → j < 131072)
    (f : σ → BitVec 32 → σ) (s : σ) :
    (whileLoop (fun st : BitVec 32 × σ => st.1 < pageIndex + count)
      (fun st => (st.1 + 1, f st.2 st.1)) (2 ^ 32) (pageIndex, s)).2 =
    (List.range' pageIndex.toNat count.toNat).foldl (fun t p => f t (BitVec.ofNat 32 p)) s := by
  have hsum : (pageIndex + count).toNat = pageIndex.toNat + count.toNat := by
    rcases Nat.eq_zero_or_pos count.toNat with h0 | hpos
    · bv_omega
    · have := hbound (pageIndex.toNat + count.toNat - 1) (by omega) (by omega)
      bv_omega
  have heq := whileLoop_eq_foldl 1 pageIndex (a := pageIndex.toNat)
    (b := pageIndex.toNat + count.toNat)
    (c := fun st : BitVec 32 × σ => st.1 < pageIndex + count) f s (fun _ _ => rfl)
    (by decide) (by simp) (by rw [hsum]; simp)
  rw [heq, Nat.add_sub_cancel_left]
  simp

/-- The loop of `mark_used` and `mark_free`, by what one round does. -/
theorem markPages_spec {write : Mem → BitVec 32 → Mem} {v : Bool} {pageIndex count : BitVec 32}
    (hwrite : ∀ t i, i.toNat < 131072 → ChangesOnly vmm.pageBits t (write t i) ∧
      ∀ j < 131072, vmm.used (write t i) j = if j = i.toNat then v else vmm.used t j)
    (hbound : ∀ j, pageIndex.toNat ≤ j → j < pageIndex.toNat + count.toNat → j < 131072) :
    ChangesOnly vmm.pageBits m (markPages write m pageIndex count) ∧
    ∀ j < 131072, vmm.used (markPages write m pageIndex count) j =
      if pageIndex.toNat ≤ j ∧ j < pageIndex.toNat + count.toNat then v else vmm.used m j := by
  rw [markPages, whileLoop_pages hbound]
  apply foldl_range'_update vmm.used (fun _ t => ChangesOnly vmm.pageBits m t) (ChangesOnly.refl _ _)
  intro p h1 h2 t hc
  have hp := hbound p h1 h2
  have hp' : (BitVec.ofNat 32 p).toNat = p := by
    rw [BitVec.toNat_ofNat, Nat.mod_eq_of_lt (by omega)]
  obtain ⟨hc', hused⟩ := hwrite t (BitVec.ofNat 32 p) (by omega)
  rw [hp'] at hused
  exact ⟨hc.trans hc', hused⟩

theorem markUsed_spec (vmm : VMM) (m : Mem) {pageIndex count : BitVec 32}
    (hbound : ∀ j, pageIndex.toNat ≤ j → j < pageIndex.toNat + count.toNat → j < 131072) :
    ChangesOnly vmm.pageBits m (vmm.markUsed m pageIndex count) ∧
    ∀ j < 131072, vmm.used (vmm.markUsed m pageIndex count) j =
      if pageIndex.toNat ≤ j ∧ j < pageIndex.toNat + count.toNat then true
      else vmm.used m j := by
  refine markPages_spec (fun t i hi => ⟨?_, fun j hj => ?_⟩) hbound
  · exact (changesOnly_setBit _ _ _).mono (bitWord_pageBits hi)
  · rw [used, testBit_setBit _ _ _ (by omega), used]
    by_cases h : j = i.toNat <;> simp [h]

theorem markFree_spec (vmm : VMM) (m : Mem) {pageIndex count : BitVec 32}
    (hbound : ∀ j, pageIndex.toNat ≤ j → j < pageIndex.toNat + count.toNat → j < 131072) :
    ChangesOnly vmm.pageBits m (vmm.markFree m pageIndex count) ∧
    ∀ j < 131072, vmm.used (vmm.markFree m pageIndex count) j =
      if pageIndex.toNat ≤ j ∧ j < pageIndex.toNat + count.toNat then false
      else vmm.used m j := by
  refine markPages_spec (fun t i hi => ⟨?_, fun j hj => ?_⟩) hbound
  · exact (changesOnly_clearBit _ _ _).mono (bitWord_pageBits hi)
  · rw [used, testBit_clearBit _ _ _ (by omega), used]
    by_cases h : j = i.toNat <;> simp [h]

/-! ### Mapping frames -/

/-- One page mapped to the frame at `phys`. -/
theorem mapRange_page (hw : vmm.pd.Wired m) {virt phys : BitVec 32} {p : Nat}
    (hvirt : virt.toNat / 4096 = p) (hp : p + 1 < 2 ^ 20) (hphys : phys.toNat % 4096 = 0) :
    vmm.pd.Wired (vmm.pd.mapRange m virt phys pageSize) ∧
    ChangesOnly (span pageTablesBase 0x400000) m (vmm.pd.mapRange m virt phys pageSize) ∧
    ∀ q < 2 ^ 20, vmm.pd.pte (vmm.pd.mapRange m virt phys pageSize) q =
      if q = p then mapped phys else vmm.pd.pte m q := by
  have hsets := PageDirectory.mapRange_sets hw virt phys pageSize
  have hend : PageDirectory.rangeEnd virt pageSize = p + 1 := by
    rw [PageDirectory.rangeEnd, hvirt, show endPage pageSize = 1 from rfl, Nat.mod_eq_of_lt hp]
  have hdown : pageDown phys = phys := by
    apply BitVec.eq_of_toNat_eq
    rw [pageDown_toNat]
    omega
  refine ⟨hsets.wired, hsets.changes, fun q hq => ?_⟩
  rw [hsets.pte q hq, hend, hvirt, hdown]
  by_cases h : q = p
  · rw [if_pos (by omega), if_pos h, h]
    simp
  · rw [if_neg (by omega), if_neg h]

theorem unmapRange_page (hw : vmm.pd.Wired m) {virt : BitVec 32} {p : Nat}
    (hvirt : virt.toNat / 4096 = p) (hp : p + 1 < 2 ^ 20) :
    vmm.pd.Wired (vmm.pd.unmapRange m virt pageSize) ∧
    ChangesOnly (span pageTablesBase 0x400000) m (vmm.pd.unmapRange m virt pageSize) ∧
    ∀ q < 2 ^ 20, vmm.pd.pte (vmm.pd.unmapRange m virt pageSize) q =
      if q = p then 0 else vmm.pd.pte m q := by
  have hsets := PageDirectory.unmapRange_sets hw virt pageSize
  have hend : PageDirectory.rangeEnd virt pageSize = p + 1 := by
    rw [PageDirectory.rangeEnd, hvirt, show endPage pageSize = 1 from rfl, Nat.mod_eq_of_lt hp]
  refine ⟨hsets.wired, hsets.changes, fun q hq => ?_⟩
  rw [hsets.pte q hq, hend, hvirt]
  congr 1
  simp only [eq_iff_iff]
  omega

/-- `m'` is `m` with the pages from `s` on, `n` of them, mapped to the first `n` free frames, and to
frame 0 where there are no more. -/
structure Backs (vmm : VMM) (m m' : Mem) (s n : Nat) : Prop where
  wired : vmm.pd.Wired m'
  free : vmm.fa.freeFrames m' = (vmm.fa.freeFrames m).drop n
  frames : ∀ f < vmm.fa.tracked, vmm.fa.used m' f =
    (vmm.fa.used m f || decide (f ∈ (vmm.fa.freeFrames m).take n))
  pte : ∀ p < 2 ^ 20, vmm.pd.pte m' p = if 0xD0000 + s ≤ p ∧ p < 0xD0000 + s + n then
    mapped (frameAddr ((vmm.fa.freeFrames m).getD (p - (0xD0000 + s)) 0)) else vmm.pd.pte m p

/-- The loop of `alloc_pages`. -/
theorem mapFrames_spec (h : vmm.Laid) (hw : vmm.pd.Wired m) {s n : Nat} (hn : s + n ≤ 131072) :
    let r := vmm.mapFrames m (vmmRegionStart + BitVec.ofNat 32 s * pageSize) n
    r.2 = (List.range n).map (fun i => frameAddr ((vmm.fa.freeFrames m).getD i 0)) ∧
    vmm.Backs m r.1 s n ∧ ∀ j < 131072, vmm.used r.1 j = vmm.used m j := by
  induction n with
  | zero =>
    refine ⟨rfl, ⟨hw, rfl, fun f _ => by simp [mapFrames], fun p _ => ?_⟩, fun j _ => rfl⟩
    rw [if_neg (by omega)]
    rfl
  | succ n ih =>
    obtain ⟨hlog, hbacks, hpages⟩ := ih (by omega)
    set r := vmm.mapFrames m (vmmRegionStart + BitVec.ofNat 32 s * pageSize) n
    set virt := vmmRegionStart + BitVec.ofNat 32 s * pageSize + BitVec.ofNat 32 n * pageSize
      with hvirt
    have hpage : virt.toNat / 4096 = 0xD0000 + s + n := by bv_omega
    obtain ⟨hframe, hfree⟩ := FrameAllocator.allocFrame_freeFrames (m := r.1) h.size
    have hallocc := h.changesOnly_allocFrame r.1
    have halloc := hbacks.wired.of_changesOnly hallocc h.directory_frames
    obtain ⟨hwired, hmapc, hpte⟩ := mapRange_page halloc hpage (by omega)
      (vmm.fa.allocFrame_aligned r.1)
    have hmapu : ∀ f < vmm.fa.tracked, vmm.fa.used (vmm.pd.mapRange (vmm.fa.allocFrame r.1).1 virt
        (vmm.fa.allocFrame r.1).2 pageSize) f = vmm.fa.used (vmm.fa.allocFrame r.1).1 f :=
      fun f hf => FrameAllocator.used_of_changesOnly hmapc h.tables_frames.symm hf
    have htracked := h.tracked_le
    have hscanned := vmm.fa.scanned_le_tracked
    have hsucc : vmm.mapFrames m (vmmRegionStart + BitVec.ofNat 32 s * pageSize) (n + 1) =
        (vmm.pd.mapRange (vmm.fa.allocFrame r.1).1 virt (vmm.fa.allocFrame r.1).2 pageSize,
          r.2 ++ [(vmm.fa.allocFrame r.1).2]) := rfl
    rw [hsucc]
    dsimp only
    refine ⟨?_, ⟨hwired, ?_, fun f hf => ?_, fun p hp => ?_⟩, fun j hj => ?_⟩
    · rw [List.range_succ, List.map_append, ← hlog, List.map_singleton]
      simp only [hframe, hbacks.free, List.headD_eq_head?_getD, List.head?_drop,
        List.getD_eq_getElem?_getD]
    · refine (FrameAllocator.freeFrames_congr fun f hf => hmapu f (by omega)).trans ?_
      rw [hfree, hbacks.free, List.tail_drop]
    · refine (hmapu f hf).trans ?_
      rw [FrameAllocator.used_allocFrame h.size (by omega), hbacks.frames f hf, hbacks.free,
        List.take_add, Bool.or_assoc]
      simp only [List.mem_append, Bool.decide_or]
    · refine (hpte p hp).trans ?_
      rw [hbacks.wired.pte_of_changesOnly hallocc h.directory_frames h.tables_frames hp,
        hbacks.pte p hp, hframe, hbacks.free]
      by_cases hp' : p = 0xD0000 + s + n
      · rw [if_pos hp', if_pos (by omega), hp', Nat.add_sub_cancel_left,
          List.headD_eq_head?_getD, List.head?_drop, List.getD_eq_getElem?_getD]
      · rw [if_neg hp']
        congr 1
        simp only [eq_iff_iff]
        omega
    · refine (used_of_changesOnly hmapc h.tables_pages.symm hj).trans ?_
      rw [used_of_changesOnly hallocc h.frames_pages.symm hj, hpages j hj]

/-- `alloc_pages` finds no free range, or takes the first, maps its pages and marks them. -/
theorem allocPages_cases (h : vmm.Laid) (hw : vmm.pd.Wired m) (numPages : BitVec 32) :
    ((numPages = 0 ∨ ∀ s, ¬ vmm.FreeRange m numPages.toNat s) ∧
      vmm.allocPages m numPages = (m, 0)) ∨
    ∃ s, 0 < numPages.toNat ∧ vmm.Leftmost m numPages.toNat s ∧
      (vmm.allocPages m numPages).2 = frameAddr (0xD0000 + s) ∧
      vmm.framesTaken m numPages = (List.range numPages.toNat).map
        (fun i => frameAddr ((vmm.fa.freeFrames m).getD i 0)) ∧
      vmm.Backs m (vmm.allocPages m numPages).1 s numPages.toNat ∧
      ∀ j < 131072, vmm.used (vmm.allocPages m numPages).1 j =
        if s ≤ j ∧ j < s + numPages.toNat then true else vmm.used m j := by
  rcases findFreeRange_cases h m numPages with ⟨hnone, hfind⟩ | ⟨s, hne, hleft, hfind⟩
  · refine Or.inl ⟨hnone, ?_⟩
    rw [allocPages, hfind]
    rfl
  · have hs := hleft.range.1
    have hpos : 0 < numPages.toNat := by bv_omega
    have hidx : (BitVec.ofNat 32 s).toNat = s := by
      rw [BitVec.toNat_ofNat, Nat.mod_eq_of_lt (by omega)]
    have hfound : BitVec.ofNat 32 s ≠ 0xFFFFFFFF#32 := by bv_omega
    obtain ⟨hlog, hbacks, hpages⟩ := mapFrames_spec h hw hs
    have hbound : ∀ j, (BitVec.ofNat 32 s).toNat ≤ j →
        j < (BitVec.ofNat 32 s).toNat + numPages.toNat → j < 131072 := by
      rw [hidx]
      omega
    obtain ⟨hmarkc, hmark⟩ := vmm.markUsed_spec
      (vmm.mapFrames m (vmmRegionStart + BitVec.ofNat 32 s * pageSize) numPages.toNat).1 hbound
    have halloc : vmm.allocPages m numPages = (vmm.markUsed (vmm.mapFrames m
        (vmmRegionStart + BitVec.ofNat 32 s * pageSize) numPages.toNat).1 (BitVec.ofNat 32 s)
        numPages, vmmRegionStart + BitVec.ofNat 32 s * pageSize) := by
      simp only [allocPages, hfind, hfound, if_false, h.regionStart]
    have hscanned := vmm.fa.scanned_le_tracked
    refine Or.inr ⟨s, hpos, hleft, ?_, ?_, ?_, ?_⟩
    · rw [halloc, frameAddr]
      bv_omega
    · simp only [framesTaken, hfind, hfound, if_false, h.regionStart]
      exact hlog
    · rw [halloc]
      dsimp only
      have hframes := fun f (hf : f < vmm.fa.tracked) =>
        FrameAllocator.used_of_changesOnly hmarkc h.frames_pages hf
      refine ⟨hbacks.wired.of_changesOnly hmarkc h.directory_pages, ?_, fun f hf => ?_,
        fun p hp => ?_⟩
      · rw [FrameAllocator.freeFrames_congr fun f hf => hframes f (by omega), hbacks.free]
      · rw [hframes f hf, hbacks.frames f hf]
      · rw [hbacks.wired.pte_of_changesOnly hmarkc h.directory_pages h.tables_pages hp,
          hbacks.pte p hp]
    · intro j hj
      rw [halloc]
      dsimp only
      rw [hmark j hj, hidx, hpages j hj]

/-! ### Freeing pages -/

/-- One round of the loop of `free_pages`, on a page that is mapped to frame `f`. -/
theorem unmapPage_spec (h : vmm.Laid) (hw : vmm.pd.Wired m) {virt : BitVec 32} {p f : Nat}
    (hvirt : virt.toNat / 4096 = p) (hp : p + 1 < 2 ^ 20)
    (hpte : vmm.pd.pte m p = mapped (frameAddr f)) (hf : f < vmm.fa.scanned ∨ f = 0) :
    vmm.pd.Wired (vmm.unmapPage m virt) ∧
    (∀ g < vmm.fa.tracked, vmm.fa.used (vmm.unmapPage m virt) g =
      (vmm.fa.used m g && !decide (g = f))) ∧
    (∀ j < 131072, vmm.used (vmm.unmapPage m virt) j = vmm.used m j) ∧
    ∀ q < 2 ^ 20, vmm.pd.pte (vmm.unmapPage m virt) q =
      if q = p then 0 else vmm.pd.pte m q := by
  have hscanned := h.scanned_le
  have htracked := h.tracked_le
  obtain ⟨hwired, hunmapc, hunmap⟩ := unmapRange_page hw hvirt hp
  have hload : m.load32 (vmm.pd.pteAddr m virt) = mapped (frameAddr f) := by
    rw [hw.pteAddr_eq, hvirt, ← hw.pte_eq (by omega), hpte]
  have hphys : mapped (frameAddr f) &&& ~~~0xFFF#32 = frameAddr f :=
    pageDown_mapped (frameAddr_aligned f)
  have heq : vmm.unmapPage m virt =
      vmm.fa.freeFrame (vmm.pd.unmapRange m virt pageSize) (frameAddr f) := by
    rw [unmapPage, hload, hphys]
  have hfreec := h.changesOnly_freeFrame (vmm.pd.unmapRange m virt pageSize) hf
  rw [heq]
  refine ⟨hwired.of_changesOnly hfreec h.directory_frames, fun g hg => ?_, fun j hj => ?_,
    fun q hq => ?_⟩
  · rw [FrameAllocator.used_freeFrame _ (by omega), page_frameAddr (by omega),
      FrameAllocator.used_of_changesOnly hunmapc h.tables_frames.symm hg]
  · rw [used_of_changesOnly hfreec h.frames_pages.symm hj,
      used_of_changesOnly hunmapc h.tables_pages.symm hj]
  · rw [hwired.pte_of_changesOnly hfreec h.directory_frames h.tables_frames hq, hunmap q hq]

/-- The page `k` pages after one of the region. -/
theorem page_add {addr : BitVec 32} {s k : Nat} (haddr : addr.toNat / 4096 = 0xD0000 + s)
    (hk : s + k ≤ 131072) :
    (addr + BitVec.ofNat 32 k * pageSize).toNat / 4096 = 0xD0000 + s + k := by
  bv_omega

/-- `m'` is `m` with the pages from `s` on, `n` of them, unmapped, and the frames that they were
mapped to, which `frame` names, free. -/
structure Releases (vmm : VMM) (m m' : Mem) (s n : Nat) (frame : Nat → Nat) : Prop where
  wired : vmm.pd.Wired m'
  frames : ∀ f < vmm.fa.tracked, vmm.fa.used m' f =
    (vmm.fa.used m f && !decide (∃ k < n, frame k = f))
  pte : ∀ p < 2 ^ 20, vmm.pd.pte m' p =
    if 0xD0000 + s ≤ p ∧ p < 0xD0000 + s + n then 0 else vmm.pd.pte m p

theorem unmapPages_spec (h : vmm.Laid) (hw : vmm.pd.Wired m) {addr : BitVec 32} {s n : Nat}
    {frame : Nat → Nat} (haddr : addr.toNat / 4096 = 0xD0000 + s) (hn : s + n ≤ 131072)
    (hframe : ∀ k < n, vmm.pd.pte m (0xD0000 + s + k) = mapped (frameAddr (frame k)) ∧
      (frame k < vmm.fa.scanned ∨ frame k = 0)) :
    let m' := (List.range n).foldl (fun m i =>
      vmm.unmapPage m (addr + BitVec.ofNat 32 i * pageSize)) m
    vmm.Releases m m' s n frame ∧ ∀ j < 131072, vmm.used m' j = vmm.used m j := by
  apply foldl_range_induct (fun i t => vmm.Releases m t s i frame ∧
    ∀ j < 131072, vmm.used t j = vmm.used m j)
  · refine ⟨⟨hw, fun f _ => by simp, fun p _ => ?_⟩, fun j _ => rfl⟩
    rw [if_neg (by omega)]
  · rintro i hi t ⟨hrel, hpages⟩
    obtain ⟨hpte, hf⟩ := hframe i hi
    obtain ⟨hwired, hframes, hpages', hunmap⟩ := unmapPage_spec h hrel.wired
      (page_add haddr (k := i) (by omega)) (by omega)
      (f := frame i) (by rw [hrel.pte _ (by omega), if_neg (by omega), hpte]) hf
    refine ⟨⟨hwired, fun f hf => ?_, fun p hp => ?_⟩, fun j hj => ?_⟩
    · rw [hframes f hf, hrel.frames f hf, Bool.and_assoc]
      congr 1
      rw [← Bool.not_or, ← Bool.decide_or]
      congr 2
      rw [Nat.exists_lt_succ_right, eq_comm (a := f)]
    · rw [hunmap p hp, hrel.pte p hp]
      split_ifs <;> first | rfl | omega
    · rw [hpages' j hj, hpages j hj]

theorem freePages_zero (vmm : VMM) (m : Mem) (addr : BitVec 32) :
    vmm.freePages m addr 0 = m := by
  have hbound : ∀ j, ((addr - vmm.regionStart) / pageSize).toNat ≤ j →
      j < ((addr - vmm.regionStart) / pageSize).toNat + (0 : BitVec 32).toNat → j < 131072 :=
    fun j h1 h2 => absurd h1 (Nat.not_le_of_lt h2)
  exact whileLoop_pages hbound (fun m i => clearBit m vmm.bitmap i) m

/-- `free_pages` unmaps its pages, frees their frames and clears their bits. -/
theorem freePages_spec (h : vmm.Laid) (hw : vmm.pd.Wired m) {addr numPages : BitVec 32} {s : Nat}
    {frame : Nat → Nat} (haddr : addr.toNat / 4096 = 0xD0000 + s)
    (hn : s + numPages.toNat ≤ 131072)
    (hframe : ∀ k < numPages.toNat,
      vmm.pd.pte m (0xD0000 + s + k) = mapped (frameAddr (frame k)) ∧
      (frame k < vmm.fa.scanned ∨ frame k = 0)) :
    vmm.Releases m (vmm.freePages m addr numPages) s numPages.toNat frame ∧
    ∀ j < 131072, vmm.used (vmm.freePages m addr numPages) j =
      if s ≤ j ∧ j < s + numPages.toNat then false else vmm.used m j := by
  obtain ⟨hrel, hpages⟩ := unmapPages_spec h hw haddr hn hframe
  have hidx : ((addr - vmm.regionStart) / pageSize).toNat = s := by
    rw [h.regionStart, BitVec.toNat_udiv, show pageSize.toNat = 4096 from rfl]
    bv_omega
  have hbound : ∀ j, ((addr - vmm.regionStart) / pageSize).toNat ≤ j →
      j < ((addr - vmm.regionStart) / pageSize).toNat + numPages.toNat → j < 131072 := by
    rw [hidx]
    omega
  obtain ⟨hmarkc, hmark⟩ := vmm.markFree_spec ((List.range numPages.toNat).foldl
    (fun m i => vmm.unmapPage m (addr + BitVec.ofNat 32 i * pageSize)) m) hbound
  refine ⟨⟨hrel.wired.of_changesOnly hmarkc h.directory_pages, fun f hf => ?_, fun p hp => ?_⟩,
    fun j hj => ?_⟩
  · rw [← hrel.frames f hf]
    exact FrameAllocator.used_of_changesOnly hmarkc h.frames_pages hf
  · rw [← hrel.pte p hp]
    exact hrel.wired.pte_of_changesOnly hmarkc h.directory_pages h.tables_pages hp
  · rw [freePages, hmark j hj, hidx, hpages j hj]

end VMM

end Sapphire
