import Sapphire.FrameAlloc.Ram

/-! What `init` and the allocator owe to the memory map.  `init` clears exactly the bits of the usable
pages above the reserved memory; its result, and that of `identity_map_usable`, depend on which
entries the map has and not on their order; and `alloc_frame` fails with a frame left where the last
bits of the bitmap do not fill a word. -/

namespace Sapphire

open Machine FrameAllocator

/-! ### The bits that are clear -/

/-- The pages that the kernel takes an entry to have, where the entry ends at most at
`0xFFFFF000`. -/
theorem E820Entry.covers_iff {e : E820Entry} {p : Nat}
    (hend : e.type = 1 → e.base.toNat + e.length.toNat ≤ 0xFFFFF000) :
    e.Covers p ↔ e.type = 1 ∧ e.base.toNat / 4096 ≤ p ∧
      p < (e.base.toNat + e.length.toNat + 4095) / 4096 := by
  refine and_congr_right fun htype => ?_
  have hle := hend htype
  have hbase : (e.base.setWidth 32).toNat = e.base.toNat := by
    rw [BitVec.toNat_setWidth, Nat.mod_eq_of_lt (by omega)]
  have hstop : endPage (clamp32 (e.base + e.length)) =
      (e.base.toNat + e.length.toNat + 4095) / 4096 := by
    rw [endPage, toNat_clamp32, BitVec.toNat_add, Nat.mod_eq_of_lt (by omega),
      Nat.min_eq_left (by omega), if_pos hle]
  rw [hbase, hstop]

/-- Where every usable entry ends at most at `0xFFFFF000`, `init` leaves exactly the bits clear of the
pages that a usable entry has a part of and that lie above the bitmap, rounded up to a page. -/
theorem init_exact (m : Mem) (mmap : MemoryMap)
    (hend : ∀ e ∈ mmap.entries, e.type = 1 → e.base.toNat + e.length.toNat ≤ 0xFFFFF000) {f : Nat}
    (hf : f < (init m mmap).1.totalFrames.toNat) :
    (init m mmap).1.used (init m mmap).2 f = false ↔
      (∃ e ∈ mmap.entries, e.type = 1 ∧ e.base.toNat / 4096 ≤ f ∧
        f < (e.base.toNat + e.length.toNat + 4095) / 4096) ∧
      4096 * ((0x500000 + (init m mmap).1.bitmapSize.toNat + 4095) / 4096) ≤ 4096 * f := by
  have hbit : f < 8 * (init m mmap).1.bitmapSize.toNat := by
    rw [toNat_totalFrames] at hf
    rw [toNat_bitmapSize]
    omega
  have hcov : mmap.Covered f ↔ ∃ e ∈ mmap.entries, e.type = 1 ∧ e.base.toNat / 4096 ≤ f ∧
      f < (e.base.toNat + e.length.toNat + 4095) / 4096 :=
    exists_congr fun e => and_congr_right fun he => E820Entry.covers_iff (hend e he)
  have hres : (init m mmap).1.reserved ≤ f ↔
      4096 * ((0x500000 + (init m mmap).1.bitmapSize.toNat + 4095) / 4096) ≤ 4096 * f := by
    rw [reserved]
    omega
  rw [used_init_eq_false_iff m mmap hbit, hcov, hres]
  exact and_comm

theorem init_exact_sixMegabytes :
    0x5FF < (init (fun _ => 0) sixMegabytes).1.totalFrames.toNat ∧
      (init (fun _ => 0) sixMegabytes).1.used (init (fun _ => 0) sixMegabytes).2 0x5FF = false := by
  have htotal : 0x5FF < (init (fun _ => 0) sixMegabytes).1.totalFrames.toNat := by
    rw [toNat_totalFrames, highestAddr_sixMegabytes]
    decide
  refine ⟨htotal, (init_exact _ _ (by decide) htotal).mpr ⟨by decide, ?_⟩⟩
  rw [toNat_bitmapSize, highestAddr_sixMegabytes]
  decide

/-! ### The order of the entries -/

theorem MemoryMap.covered_congr {mmap mmap' : MemoryMap}
    (hsame : ∀ e, e ∈ mmap.entries ↔ e ∈ mmap'.entries) (p : Nat) :
    mmap.Covered p ↔ mmap'.Covered p :=
  exists_congr fun e => and_congr_left' (hsame e)

theorem highestAddr_congr {mmap mmap' : MemoryMap}
    (hsame : ∀ e, e ∈ mmap.entries ↔ e ∈ mmap'.entries) : highestAddr mmap = highestAddr mmap' := by
  apply BitVec.eq_of_toNat_eq
  apply Nat.le_antisymm
  · exact highestAddr_le_iff.mpr fun e he htype => clamp_le_highestAddr ((hsame e).mp he) htype
  · exact highestAddr_le_iff.mpr fun e he htype => clamp_le_highestAddr ((hsame e).mpr he) htype

/-- `init` makes the same allocator and the same memory of two maps with the same entries. -/
theorem init_congr {mmap mmap' : MemoryMap} (hsame : ∀ e, e ∈ mmap.entries ↔ e ∈ mmap'.entries)
    (m : Mem) : init m mmap = init m mmap' := by
  have hfa : (init m mmap).1 = (init m mmap').1 := by
    simp only [init, highestAddr_congr hsame]
  obtain ⟨hc, hbits⟩ := init_spec m mmap
  obtain ⟨hc', hbits'⟩ := init_spec m mmap'
  refine Prod.ext hfa (eq_of_testBit hc hc' fun g hg => ?_)
  have h := hbits g (by omega)
  have h' := hbits' g (by omega)
  rw [decide_eq_decide.mpr (MemoryMap.covered_congr hsame g), hfa, ← h'] at h
  exact h

/-- Neither the order of the entries of a memory map nor their repetition matters to the frame
allocator and to the page tables. -/
theorem memory_map_order {mmap mmap' : MemoryMap}
    (hsame : ∀ e, e ∈ mmap.entries ↔ e ∈ mmap'.entries) (m : Mem) :
    init m mmap = init m mmap' ∧ ∀ pd : PageDirectory, pd.Wired m →
      mmap.identityMapUsable pd m = mmap'.identityMapUsable pd m := by
  refine ⟨init_congr hsame m, fun pd hw => ?_⟩
  obtain ⟨⟨hw1, hc1⟩, hpte1⟩ := mmap.identityMapUsable_spec hw
  obtain ⟨⟨hw2, hc2⟩, hpte2⟩ := mmap'.identityMapUsable_spec hw
  refine eq_of_load32_slot (n := 2 ^ 20) hc1 hc2 fun p hp => ?_
  rw [← hw1.pte_eq hp, ← hw2.pte_eq hp, hpte1 p hp, hpte2 p hp]
  exact if_congr (MemoryMap.covered_congr hsame p) rfl rfl

/-- A usable entry, a reserved one inside it and one that wraps, in two orders and with the first
twice. -/
theorem memory_map_order_overlapping :
    let a : E820Entry := ⟨0x100800, 0x700000, 1⟩
    let b : E820Entry := ⟨0x300000, 0x1000, 2⟩
    let c : E820Entry := ⟨0xFFFFFFFFFFFFF000, 0x602000, 1⟩
    let dir := PageDirectory.init (fun _ => 0) 0x9C000
    init dir.2 ⟨[a, b, c]⟩ = init dir.2 ⟨[c, a, b, a]⟩ ∧
      MemoryMap.identityMapUsable ⟨[a, b, c]⟩ dir.1 dir.2 =
        MemoryMap.identityMapUsable ⟨[c, a, b, a]⟩ dir.1 dir.2 := by
  intro a b c dir
  have hsame : ∀ e, e ∈ (⟨[a, b, c]⟩ : MemoryMap).entries ↔
      e ∈ (⟨[c, a, b, a]⟩ : MemoryMap).entries := by
    intro e
    simp only [List.mem_cons, List.not_mem_nil, or_false]
    tauto
  obtain ⟨hinit, hpages⟩ := memory_map_order hsame dir.2
  exact ⟨hinit, hpages dir.1 wired_bootDirectory⟩

/-! ### Frames that are never found -/

/-- Frame `f` has its bit after the last whole word of the bitmap. -/
def MemoryMap.InTail (mmap : MemoryMap) (f : Nat) : Prop :=
  (highestAddr mmap).toNat / 4096 % 32 < 25 ∧ 32 * ((highestAddr mmap).toNat / 4096 / 32) ≤ f ∧
    f < (highestAddr mmap).toNat / 4096

theorem MemoryMap.inTail_iff (m : Mem) (mmap : MemoryMap) {f : Nat} :
    mmap.InTail f ↔
      (init m mmap).1.scanned ≤ f ∧ f < (init m mmap).1.totalFrames.toNat := by
  rw [InTail, scanned, toNat_bitmapSize, toNat_totalFrames]
  omega

/-- A frame that `alloc_frame` does not look at keeps the bit that `init` left. -/
theorem FrameAllocator.Reaches.used_of_scanned_le {m : Mem} {mmap : MemoryMap} {s : FrameState}
    (h : Reaches m mmap s) {f : Nat} (hf : (init m mmap).1.scanned ≤ f) (hlt : f < 2 ^ 20) :
    (init m mmap).1.used s.mem f = (init m mmap).1.used (init m mmap).2 f := by
  have hscanned := (init m mmap).1.scanned_le
  have hsize := bitmapSize_le m mmap
  have hnot : frameAddr f ∉ s.held := by
    intro hmem
    obtain ⟨g, hg, heq, -⟩ := h.holding.held _ hmem
    have hfg : f = g := (frameAddr_inj hlt (by omega)).mp heq
    omega
  rw [h.holding.bits f hlt, decide_eq_false hnot, Bool.or_false]

/-- After enough calls of `alloc_frame` it returns 0. -/
theorem exists_reaches_exhausted (m : Mem) (mmap : MemoryMap) :
    ∃ s, Reaches m mmap s ∧ ((init m mmap).1.allocFrame s.mem).2 = 0 := by
  have hstart : Reaches m mmap (start m mmap) := .refl
  obtain ⟨s, hs, hfree⟩ := hstart.drop ((init m mmap).1.freeFrames (start m mmap).mem).length
  refine ⟨s, hs, ?_⟩
  rw [(allocFrame_freeFrames (bitmapSize_le m mmap)).1, hfree, List.drop_length]
  rfl

/-- In every run `alloc_frame` returns 0 only where all frames are in use, exactly when no usable
frame above the reserved memory has its bit after the last whole word of the bitmap. -/
theorem alloc_frame_exhausted_iff (m : Mem) (mmap : MemoryMap) :
    (∀ s, Reaches m mmap s → ((init m mmap).1.allocFrame s.mem).2 = 0 →
      ∀ f < (init m mmap).1.totalFrames.toNat, (init m mmap).1.used s.mem f = true) ↔
    ∀ f, mmap.InTail f → mmap.Covered f → 4096 * f < mmap.reservedEnd := by
  have hhighest := (highestAddr mmap).isLt
  have htotal := toNat_totalFrames m mmap
  have hbits : (init m mmap).1.totalFrames.toNat ≤ 8 * (init m mmap).1.bitmapSize.toNat := by
    rw [htotal, toNat_bitmapSize]
    omega
  have hres : ∀ f, (init m mmap).1.reserved ≤ f ↔ ¬ 4096 * f < mmap.reservedEnd := by
    intro f
    rw [MemoryMap.reservedEnd, ← toNat_bitmapSize m mmap, ← lt_reserved_iff, Nat.not_lt]
  constructor
  · intro h f htail hcov
    obtain ⟨hscan, hf⟩ := (mmap.inTail_iff m).mp htail
    obtain ⟨s, hs, hzero⟩ := exists_reaches_exhausted m mmap
    have hused := h s hs hzero f hf
    rw [hs.used_of_scanned_le hscan (by omega)] at hused
    by_contra hnot
    have hfree := (used_init_eq_false_iff m mmap (by omega)).mpr ⟨(hres f).mpr hnot, hcov⟩
    rw [hfree] at hused
    cases hused
  · intro h s hs hzero f hf
    rcases Nat.lt_or_ge f (init m mmap).1.scanned with hlt | hscan
    · by_contra hfree
      rw [Bool.not_eq_true] at hfree
      exact allocFrame_ne_zero (bitmapSize_le m mmap) (hs.holding.zero (init_zero m mmap)) hlt hfree
        hzero
    · rw [hs.used_of_scanned_le hscan (by omega)]
      by_contra hfree
      rw [Bool.not_eq_true, used_init_eq_false_iff m mmap (by omega), hres] at hfree
      exact hfree.1 (h f ((mmap.inTail_iff m).mpr ⟨hscan, hf⟩) hfree.2)

/-- A map of 6 MiB and eight pages from 0 on. -/
def eightPagesMore : MemoryMap := ⟨[⟨0, 0x608000, 1⟩]⟩

/-- The last eight frames of 6 MiB and eight pages are never found. -/
theorem alloc_frame_exhausted_eightPagesMore :
    ¬ ∀ s, Reaches (fun _ => 0) eightPagesMore s →
      ((init (fun _ => 0) eightPagesMore).1.allocFrame s.mem).2 = 0 →
      ∀ f < (init (fun _ => 0) eightPagesMore).1.totalFrames.toNat,
        (init (fun _ => 0) eightPagesMore).1.used s.mem f = true := by
  have hhighest : highestAddr eightPagesMore = 0x608000 := by decide
  intro h
  obtain ⟨s, hs, hzero⟩ := exists_reaches_exhausted (fun _ => 0) eightPagesMore
  have htotal : 0x600 < (init (fun _ => 0) eightPagesMore).1.totalFrames.toNat := by
    rw [toNat_totalFrames, hhighest]
    decide
  have hused := h s hs hzero 0x600 htotal
  have hscanned : (init (fun _ => 0) eightPagesMore).1.scanned ≤ 0x600 := by
    rw [scanned, toNat_bitmapSize, hhighest]
    decide
  have hfree : (init (fun _ => 0) eightPagesMore).1.used
      (init (fun _ => 0) eightPagesMore).2 0x600 = false := by
    rw [used_init_eq_false_iff _ _ (by rw [toNat_bitmapSize, hhighest]; decide), reserved,
      toNat_bitmapSize, hhighest]
    decide
  rw [hs.used_of_scanned_le hscanned (by decide), hfree] at hused
  cases hused

end Sapphire
