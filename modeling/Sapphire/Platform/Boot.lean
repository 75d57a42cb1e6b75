import Sapphire.FrameAlloc.Ram
import Sapphire.Heap.Blocks
import Sapphire.Platform
import Sapphire.Vmm.Pages
import Mathlib.Data.List.GetD

/-! The state that `platform_init` leaves.  The heap and the bitmap of the virtual memory manager lie
in frames that `alloc_frame` returned, or at 0 where it returned none; either way they are apart
from the page directory, the page tables and the frame bitmap, which the later steps of the boot
therefore leave as `FrameAllocator::init` made them, less the frames that they take. -/

namespace Sapphire

open Machine

namespace FrameAllocator

variable {fa : FrameAllocator} {m m' : Mem}

theorem takeFrames_headD (hsize : fa.bitmapSize.toNat ≤ 2 ^ 17) (m : Mem) {n : Nat} (hn : 0 < n) :
    (fa.takeFrames m n).2.headD 0 = frameAddr ((fa.freeFrames m).getD 0 0) := by
  obtain ⟨n, rfl⟩ : ∃ k, n = k + 1 := ⟨n - 1, by omega⟩
  rw [(takeFrames_freeFrames hsize m _).1, List.range_succ_eq_map, List.map_cons, List.headD_cons]

theorem takeFrames_getLastD (hsize : fa.bitmapSize.toNat ≤ 2 ^ 17) (m : Mem) (n : Nat) :
    (fa.takeFrames m (n + 1)).2.getLastD 0 = frameAddr ((fa.freeFrames m).getD n 0) := by
  rw [(takeFrames_freeFrames hsize m _).1, List.range_succ, List.map_append, List.map_singleton,
    List.getLastD_concat]

/-- The bitmap is where `init` puts it. -/
structure Placed (fa : FrameAllocator) : Prop where
  bitmap : fa.bitmap = bitmapBase
  size : fa.bitmapSize.toNat ≤ 2 ^ 17

/-- An address that `alloc_frame` may return. -/
def Spare (fa : FrameAllocator) (x : BitVec 32) : Prop :=
  x = 0 ∨ ∃ f, fa.reserved ≤ f ∧ f < fa.scanned ∧ x = frameAddr f

theorem Placed.directory_bits (h : fa.Placed) : Disjoint (span pgDir 4096) fa.bits := by
  have hsize := h.size
  rw [bits, h.bitmap]
  exact disjoint_span (by decide) (by bv_omega) (by bv_omega)

theorem Placed.tables_bits (h : fa.Placed) :
    Disjoint (span pageTablesBase 0x400000) fa.bits := by
  have hsize := h.size
  rw [bits, h.bitmap]
  exact disjoint_span (by decide) (by bv_omega) (by bv_omega)

/-- Four pages from a spare address on do not meet the page directory, the page tables and the
bitmap, even where they pass the end of the address space. -/
theorem Spare.apart (h : fa.Placed) {x : BitVec 32} (hx : fa.Spare x) :
    Disjoint (span pgDir 4096) (span x 0x4000) ∧
    Disjoint (span pageTablesBase 0x400000) (span x 0x4000) ∧
    Disjoint fa.bits (span x 0x4000) := by
  have hsize := h.size
  rcases hx with rfl | ⟨f, hres, hf, rfl⟩
  · rw [bits, h.bitmap]
    refine ⟨?_, ?_, ?_⟩ <;> exact disjoint_span (by bv_omega) (by bv_omega) (by bv_omega)
  · have hscanned := fa.scanned_le
    have haddr := toNat_frameAddr (f := f) (by omega)
    have hlow : 0x501000 ≤ 4096 * f ∧ 0x500000 + fa.bitmapSize.toNat ≤ 4096 * f := by
      unfold scanned at hf
      unfold reserved at hres
      omega
    rw [bits, h.bitmap]
    simp only [Set.disjoint_left, mem_span]
    refine ⟨fun y h1 h2 => ?_, fun y h1 h2 => ?_, fun y h1 h2 => ?_⟩ <;> bv_omega

/-- `m'` is `m` with the first `n` free frames taken and the pages from `lo` on below `hi` mapped to
themselves. -/
structure Takes (fa : FrameAllocator) (pd : PageDirectory) (m m' : Mem) (n lo hi : Nat) : Prop where
  wired : pd.Wired m'
  free : fa.freeFrames m' = (fa.freeFrames m).drop n
  used : ∀ f < fa.tracked, fa.used m' f =
    (fa.used m f || decide (f ∈ (fa.freeFrames m).take n))
  pte : ∀ p < 2 ^ 20, pd.pte m' p =
    if lo ≤ p ∧ p < hi then mapped (BitVec.ofNat 32 (4096 * p)) else pd.pte m p

/-- What `Heap::init` and `VMM::init` both do: they take frames, map them to themselves and write to
the pages from the first one on. -/
theorem takes_of_changesOnly (h : fa.Placed) {pd : PageDirectory} (hdir : pd.entries = pgDir)
    (hw : pd.Wired m) {n : Nat} {start stop x : BitVec 32} (hx : fa.Spare x)
    (hc : ChangesOnly (span x 0x4000) (pd.identityMapRange (fa.takeFrames m n).1 start stop) m') :
    fa.Takes pd m m' n (start.toNat / 4096) (endPage stop) := by
  obtain ⟨hxdir, hxtables, hxbits⟩ := hx.apart h
  have hdirbits := h.directory_bits
  rw [← hdir] at hxdir hdirbits
  have htakec := (takeFrames_changesOnly h.size m n).mono fa.span_subset_bits
  have htakew := hw.of_changesOnly htakec hdirbits
  have hsets := PageDirectory.identityMapRange_sets htakew start stop
  have hscanned := fa.scanned_le_tracked
  have hused : ∀ f < fa.tracked, fa.used m' f =
      (fa.used m f || decide (f ∈ (fa.freeFrames m).take n)) := by
    intro f hf
    have htracked : f < 2 ^ 20 := by
      have := h.size
      unfold tracked at hf
      omega
    rw [used_of_changesOnly hc hxbits hf, used_of_changesOnly hsets.changes h.tables_bits.symm hf,
      used_takeFrames h.size m n htracked]
  refine ⟨hsets.wired.of_changesOnly hc hxdir, ?_, hused, fun p hp => ?_⟩
  · rw [← (takeFrames_freeFrames h.size m n).2]
    apply freeFrames_congr
    intro f hf
    rw [used_of_changesOnly hc hxbits (by omega),
      used_of_changesOnly hsets.changes h.tables_bits.symm (by omega)]
  · rw [hsets.wired.pte_of_changesOnly hc hxdir hxtables hp, hsets.pte p hp,
      hw.pte_of_changesOnly htakec hdirbits h.tables_bits hp]

end FrameAllocator

namespace Heap

open BlockHeader

variable {fa : FrameAllocator} {pd : PageDirectory} {m : Mem}

theorem changesOnly_header (m : Mem) (b size next : BitVec 32) (free : Bool) :
    ChangesOnly (span b 12) m (setNext (setFree (setSize m b size) b free) b next) := by
  have h1 := (Mem.changesOnly_store32 m b size).mono (span_mono (show 4 ≤ 12 by decide))
  have h2 := (Mem.changesOnly_store8 (setSize m b size) (b + 4) (if free then 1 else 0)).mono
    (span_subset (k := 12) (b := b) (by bv_omega))
  have h3 := (Mem.changesOnly_store32 (setFree (setSize m b size) b free) (b + 8) next).mono
    (span_subset (k := 12) (b := b) (by bv_omega))
  exact (h1.trans h2).trans h3

/-- `init` on 16 pages runs from the first to the last of the frames that it is given. -/
theorem init_fields (m : Mem) (pd : PageDirectory) (hsize : fa.bitmapSize.toNat ≤ 2 ^ 17) :
    (init fa pd m 16).1 = ⟨frameAddr ((fa.freeFrames m).getD 0 0),
      frameAddr ((fa.freeFrames m).getD 15 0) + pageSize -
        frameAddr ((fa.freeFrames m).getD 0 0)⟩ := by
  simp only [init, init_loop, show (16 : BitVec 32).toNat = 16 from rfl]
  rw [FrameAllocator.takeFrames_headD hsize m (by decide),
    FrameAllocator.takeFrames_getLastD hsize m 15]

theorem init_takes (h : fa.Placed) (hdir : pd.entries = pgDir) (hw : pd.Wired m)
    (hspare : fa.Spare (frameAddr ((fa.freeFrames m).getD 0 0))) :
    fa.Takes pd m (init fa pd m 16).2 16
      ((frameAddr ((fa.freeFrames m).getD 0 0)).toNat / 4096)
      (endPage (frameAddr ((fa.freeFrames m).getD 15 0) + pageSize)) := by
  refine FrameAllocator.takes_of_changesOnly h hdir hw (x := frameAddr ((fa.freeFrames m).getD 0 0))
    hspare ?_
  simp only [init, init_loop, show (16 : BitVec 32).toNat = 16 from rfl]
  rw [FrameAllocator.takeFrames_headD h.size m (by decide),
    FrameAllocator.takeFrames_getLastD h.size m 15]
  exact (changesOnly_header _ _ _ _ _).mono (span_mono (by decide))

end Heap

namespace VMM

variable {fa : FrameAllocator} {pd : PageDirectory} {m : Mem}

/-- The loop of `init` keeps the first of the frames. -/
theorem init_loop (fa : FrameAllocator) (m : Mem) (n : Nat) :
    (List.range n).foldl (fun (st : Mem × BitVec 32) i =>
      let f := fa.allocFrame st.1
      (f.1, if i = 0 then f.2 else st.2)) (m, 0) =
    ((fa.takeFrames m n).1, (fa.takeFrames m n).2.headD 0) := by
  induction n with
  | zero => rfl
  | succ n ih =>
    rw [List.range_succ, List.foldl_append, ih]
    cases n with
    | zero => rfl
    | succ n =>
      simp only [FrameAllocator.takeFrames, List.foldl_cons, List.foldl_nil, Nat.succ_ne_zero,
        if_false]
      cases (fa.takeFrames m n).2 <;> rfl

/-- `init` takes four frames and clears the four pages from the first one on. -/
theorem init_eq (m : Mem) (pd : PageDirectory) (hsize : fa.bitmapSize.toNat ≤ 2 ^ 17) :
    init m fa pd = (⟨frameAddr ((fa.freeFrames m).getD 0 0), vmmRegionStart, vmmTotalPages, fa, pd⟩,
      zeroMemory (pd.identityMapRange (fa.takeFrames m 4).1 (frameAddr ((fa.freeFrames m).getD 0 0))
        (frameAddr ((fa.freeFrames m).getD 0 0) + 0x4000)) (frameAddr ((fa.freeFrames m).getD 0 0))
        0x4000) := by
  rw [← FrameAllocator.takeFrames_headD hsize m (n := 4) (by decide)]
  simp only [init, init_loop,
    show ((vmmTotalPages / 8 + pageSize - 1) / pageSize).toNat = 4 from rfl]
  rfl

theorem init_takes (h : fa.Placed) (hdir : pd.entries = pgDir) (hw : pd.Wired m)
    (hspare : fa.Spare (frameAddr ((fa.freeFrames m).getD 0 0))) :
    fa.Takes pd m (init m fa pd).2 4
      ((frameAddr ((fa.freeFrames m).getD 0 0)).toNat / 4096)
      (endPage (frameAddr ((fa.freeFrames m).getD 0 0) + 0x4000)) := by
  refine FrameAllocator.takes_of_changesOnly h hdir hw hspare ?_
  rw [init_eq m pd h.size]
  intro x hx
  dsimp only
  rw [zeroMemory_apply]
  exact if_neg hx

/-- The bits of the region's pages are clear after `init`. -/
theorem init_used (m : Mem) (pd : PageDirectory) (hsize : fa.bitmapSize.toNat ≤ 2 ^ 17) {i : Nat}
    (hi : i < 131072) :
    (init m fa pd).1.used (init m fa pd).2 i = false := by
  rw [used, testBit, init_eq m pd hsize]
  simp only
  rw [zeroMemory_apply, if_pos (by bv_omega)]
  exact BitVec.getLsbD_zero

end VMM

/-! ### The stages of the boot -/

/-- The pages that can be allocated after `FrameAllocator::init`, in order. -/
def MemoryMap.allocatable (mmap : MemoryMap) : List Nat :=
  (List.range (32 * (((FrameAllocator.highestAddr mmap).toNat / 4096 + 7) / 8 / 4))).filter
    fun p => mmap.reservedEnd ≤ 4096 * p ∧ mmap.Covered p

theorem FrameAllocator.init_freeFrames (m : Mem) (mmap : MemoryMap) :
    (init m mmap).1.freeFrames (init m mmap).2 = mmap.allocatable := by
  have hscanned : (init m mmap).1.scanned =
      32 * (((highestAddr mmap).toNat / 4096 + 7) / 8 / 4) := by
    rw [scanned, toNat_bitmapSize]
  rw [freeFrames, MemoryMap.allocatable, ← hscanned]
  apply List.filter_congr
  intro f hf
  have hused := init_used m mmap (List.mem_range.mp hf)
  have hres : (init m mmap).1.reserved ≤ f ↔ mmap.reservedEnd ≤ 4096 * f := by
    rw [reserved, MemoryMap.reservedEnd, toNat_bitmapSize]
    omega
  rw [hres] at hused
  by_cases h : mmap.reservedEnd ≤ 4096 * f ∧ mmap.Covered f
  · rw [hused.mpr h]
    simp [h]
  · have := mt hused.mp h
    simp only [Bool.not_eq_false] at this
    rw [this]
    simp [h]

section

variable (m : Mem) (mmap : MemoryMap) (framebuffer size : BitVec 32)

/-- Before paging is turned on the directory is wired, and the entry of page `p` is that of the last
of the mappings that reaches it. -/
theorem bootMappings_spec : (bootMappings m mmap framebuffer size).1.Wired
      (bootMappings m mmap framebuffer size).2 ∧
    ∀ p < 2 ^ 20,
    (bootMappings m mmap framebuffer size).1.pte (bootMappings m mmap framebuffer size).2 p =
      if mmap.Covered p ∨ p < 0x500 ∨
        framebuffer.toNat / 4096 ≤ p ∧ p < endPage (framebuffer + size) then
          mapped (BitVec.ofNat 32 (4096 * p))
      else if 0xC0000 ≤ p ∧ p < 0xC0400 then mapped (BitVec.ofNat 32 (4096 * (p - 0xC0000)))
      else 0 := by
  have h0 := PageDirectory.init_wired m pgDir
    (disjoint_span (by decide) (by decide) (by decide))
  have h1 := PageDirectory.mapRange_sets h0.1 kernelVma 0x00000000 0x00400000
  have h2 := PageDirectory.identityMapRange_sets h1.wired 0x00000000 0x00100000
  have h3 := PageDirectory.identityMapRange_sets h2.wired pageTablesBase
    (pageTablesBase + pageSize * pageTableCount)
  have h4 := PageDirectory.identityMapRange_sets h3.wired framebuffer (framebuffer + size)
  obtain ⟨⟨hw, -⟩, husable⟩ := mmap.identityMapUsable_spec h4.wired
  refine ⟨hw, fun p hp => ?_⟩
  have h5 := husable p hp
  rw [h4.pte p hp, h3.pte p hp, h2.pte p hp, h1.pte p hp, h0.2 p hp] at h5
  rw [show PageDirectory.rangeEnd kernelVma 0x00400000 = 0xC0400 from rfl,
    show kernelVma.toNat / 4096 = 0xC0000 from rfl,
    show pageTablesBase.toNat / 4096 = 0x100 from rfl,
    show endPage (pageTablesBase + pageSize * pageTableCount) = 0x500 from rfl,
    show endPage 0x00100000 = 0x100 from rfl, show (0x00000000 : BitVec 32).toNat / 4096 = 0 from rfl,
    show pageDown 0x00000000 = 0#32 from rfl, BitVec.zero_add] at h5
  refine h5.trans ?_
  by_cases hcov : mmap.Covered p
  · rw [if_pos hcov, if_pos (Or.inl hcov)]
  · rw [if_neg hcov]
    by_cases hfb : framebuffer.toNat / 4096 ≤ p ∧ p < endPage (framebuffer + size)
    · rw [if_pos hfb, if_pos (Or.inr (Or.inr hfb))]
    · rw [if_neg hfb]
      by_cases hlow : p < 0x500
      · rw [if_pos (Or.inr (Or.inl hlow))]
        by_cases htables : 0x100 ≤ p ∧ p < 0x500
        · rw [if_pos htables]
        · rw [if_neg htables, if_pos (by omega)]
      · have hnone : ¬ (mmap.Covered p ∨ p < 0x500 ∨
            framebuffer.toNat / 4096 ≤ p ∧ p < endPage (framebuffer + size)) :=
          not_or.mpr ⟨hcov, not_or.mpr ⟨hlow, hfb⟩⟩
        rw [if_neg hnone, if_neg (by omega), if_neg (by omega)]

/-- The memory after `FrameAllocator::init`. -/
def framesReady : Mem :=
  (FrameAllocator.init (bootMappings m mmap framebuffer size).2 mmap).2

/-- The memory after `Heap::init`. -/
def heapReady : Mem :=
  (Heap.init (platformInit m mmap framebuffer size).fa (platformInit m mmap framebuffer size).pd
    (framesReady m mmap framebuffer size) 16).2

theorem platformInit_placed : (platformInit m mmap framebuffer size).fa.Placed :=
  ⟨rfl, FrameAllocator.bitmapSize_le (bootMappings m mmap framebuffer size).2 mmap⟩

theorem framesReady_wired : (platformInit m mmap framebuffer size).pd.Wired
    (framesReady m mmap framebuffer size) :=
  (bootMappings_spec m mmap framebuffer size).1.of_changesOnly
    (FrameAllocator.init_spec _ mmap).1
    (disjoint_span (a := pgDir) (by decide) (by decide) (by decide))

/-- `FrameAllocator::init` leaves the page tables alone. -/
theorem framesReady_pte {p : Nat} (hp : p < 2 ^ 20) :
    (platformInit m mmap framebuffer size).pd.pte (framesReady m mmap framebuffer size) p =
      (bootMappings m mmap framebuffer size).1.pte (bootMappings m mmap framebuffer size).2 p :=
  (bootMappings_spec m mmap framebuffer size).1.pte_of_changesOnly
    (FrameAllocator.init_spec _ mmap).1
    (disjoint_span (a := pgDir) (by decide) (by decide) (by decide))
    (disjoint_span (by decide) (by decide) (by decide)) hp

theorem framesReady_freeFrames : (platformInit m mmap framebuffer size).fa.freeFrames
    (framesReady m mmap framebuffer size) = mmap.allocatable :=
  FrameAllocator.init_freeFrames _ mmap

/-- The frames that can be allocated are not reserved. -/
theorem spare_getD (i : Nat) : (platformInit m mmap framebuffer size).fa.Spare
    (frameAddr (mmap.allocatable.getD i 0)) := by
  rw [← framesReady_freeFrames m mmap framebuffer size]
  set frames := (platformInit m mmap framebuffer size).fa.freeFrames
    (framesReady m mmap framebuffer size)
  by_cases hi : i < frames.length
  · have hmem : frames.getD i 0 ∈ frames := by
      rw [List.getD_eq_getElem _ _ hi]
      exact List.getElem_mem hi
    obtain ⟨hscanned, hfree⟩ := FrameAllocator.mem_freeFrames.mp hmem
    exact Or.inr ⟨_, ((FrameAllocator.init_used _ mmap hscanned).mp hfree).1, hscanned, rfl⟩
  · rw [List.getD_eq_default _ _ (by omega)]
    exact Or.inl rfl

/-- `Heap::init` takes the first 16 frames. -/
theorem heapReady_takes : (platformInit m mmap framebuffer size).fa.Takes
    (platformInit m mmap framebuffer size).pd (framesReady m mmap framebuffer size)
    (heapReady m mmap framebuffer size) 16
    ((frameAddr (mmap.allocatable.getD 0 0)).toNat / 4096)
    (endPage (frameAddr (mmap.allocatable.getD 15 0) + pageSize)) := by
  have h := Heap.init_takes (platformInit_placed m mmap framebuffer size) rfl
    (framesReady_wired m mmap framebuffer size)
  rw [framesReady_freeFrames] at h
  exact h (spare_getD m mmap framebuffer size 0)

theorem heapReady_freeFrames : (platformInit m mmap framebuffer size).fa.freeFrames
    (heapReady m mmap framebuffer size) = mmap.allocatable.drop 16 := by
  rw [(heapReady_takes m mmap framebuffer size).free, framesReady_freeFrames]

theorem platformInit_eq_init : ((platformInit m mmap framebuffer size).vmm,
    (platformInit m mmap framebuffer size).mem) =
    VMM.init (heapReady m mmap framebuffer size) (platformInit m mmap framebuffer size).fa
      (platformInit m mmap framebuffer size).pd := by
  simp only [platformInit, heapReady, framesReady]

/-- `VMM::init` takes the next four. -/
theorem platformInit_takes : (platformInit m mmap framebuffer size).fa.Takes
    (platformInit m mmap framebuffer size).pd (heapReady m mmap framebuffer size)
    (platformInit m mmap framebuffer size).mem 4
    ((frameAddr (mmap.allocatable.getD 16 0)).toNat / 4096)
    (endPage (frameAddr (mmap.allocatable.getD 16 0) + 0x4000)) := by
  have hdir : (platformInit m mmap framebuffer size).pd.entries = pgDir := rfl
  have h := VMM.init_takes (platformInit_placed m mmap framebuffer size) hdir
    (heapReady_takes m mmap framebuffer size).wired
  rw [← platformInit_eq_init] at h
  rw [heapReady_freeFrames, List.getD_eq_getElem?_getD, List.getElem?_drop,
    ← List.getD_eq_getElem?_getD] at h
  dsimp only at h
  exact h (spare_getD m mmap framebuffer size 16)

theorem platformInit_vmm : (platformInit m mmap framebuffer size).vmm =
    ⟨frameAddr (mmap.allocatable.getD 16 0), vmmRegionStart, vmmTotalPages,
      (platformInit m mmap framebuffer size).fa, (platformInit m mmap framebuffer size).pd⟩ := by
  have h := VMM.init_eq (heapReady m mmap framebuffer size)
    (platformInit m mmap framebuffer size).pd (platformInit_placed m mmap framebuffer size).size
  rw [← platformInit_eq_init] at h
  rw [heapReady_freeFrames, List.getD_eq_getElem?_getD, List.getElem?_drop,
    ← List.getD_eq_getElem?_getD] at h
  exact congrArg Prod.fst h

/-- The structures of the virtual memory manager do not overlap. -/
theorem platformInit_laid : (platformInit m mmap framebuffer size).vmm.Laid := by
  have hplaced := platformInit_placed m mmap framebuffer size
  obtain ⟨hdir, htables, hbits⟩ := (spare_getD m mmap framebuffer size 16).apart hplaced
  rw [platformInit_vmm]
  exact ⟨rfl, rfl, hplaced.size, hplaced.directory_bits, hdir, hplaced.tables_bits, htables, hbits⟩

end

end Sapphire
