import Sapphire.Heap.Fit
import Sapphire.Platform.Owned

/-! `kmalloc` and `kfree` after `platform_init`.  They work on a static `Heap` of their own, while
`platform_init` initialises another one, so `kmalloc` returns null for every size.  The heap that
`platform_init` initialises would serve every size that fits into it. -/

namespace Sapphire

open Machine Segments

/-- A call of `alloc` for `n` bytes returns a pointer to `n` bytes of the region of `heap`, and after
`free` of it a call for as many bytes succeeds again. -/
def Serves (alloc : Mem → BitVec 32 → Option (Mem × BitVec 32))
    (free : Mem → BitVec 32 → Option Mem) (heap : Heap) (m : Mem) (n : BitVec 32) : Prop :=
  ∃ m1 p m2 m3 q, alloc m n = some (m1, p) ∧ p ≠ 0 ∧ heap.head.toNat ≤ p.toNat ∧
    p.toNat + n.toNat ≤ heap.head.toNat + heap.totalSize.toNat ∧
    free m1 p = some m2 ∧ alloc m2 n = some (m3, q) ∧ q ≠ 0

/-- The 16 frames with the lowest numbers that can be allocated are consecutive. -/
def MemoryMap.LowestConsecutive (mmap : MemoryMap) : Prop :=
  ∃ f, mmap.allocatable.take 16 = List.range' f 16

/-! ### The wrappers -/

theorem kmalloc_eq (m : Mem) (n : BitVec 32) : kmalloc m n = some (m, 0) := by
  have hwalk : ∀ fuel, fuel ≠ 0 → Heap.allocWalk .wrapping n fuel 0 m = some (m, 0) := by
    intro fuel hfuel
    obtain ⟨fuel, rfl⟩ := Nat.exists_eq_succ_of_ne_zero hfuel
    simp [Heap.allocWalk]
  exact hwalk (2 ^ 32) (by decide)

theorem not_serves_kmalloc (heap : Heap) (m : Mem) (n : BitVec 32) :
    ¬ Serves kmalloc kfree heap m n := by
  rintro ⟨m1, p, m2, m3, q, halloc, hne, -⟩
  rw [kmalloc_eq] at halloc
  cases halloc
  exact hne rfl

/-- Whatever the memory map, the framebuffer, the memory and the size are, `kmalloc` returns null and
does not serve the request. -/
theorem kmalloc_never_serves (m : Mem) (mmap : MemoryMap) (framebuffer size : BitVec 32) (m' : Mem)
    (n : BitVec 32) : kmalloc m' n = some (m', 0) ∧
      ¬ Serves kmalloc kfree (platformInit m mmap framebuffer size).heap m' n :=
  ⟨kmalloc_eq m' n, not_serves_kmalloc _ m' n⟩

/-- With 6 MiB of memory the lowest frames are consecutive, and `kmalloc(100)` fails. -/
theorem kmalloc_serves_sixMegabytes :
    ¬ ∀ (m : Mem) (mmap : MemoryMap) (framebuffer size n : BitVec 32), mmap.LowestConsecutive →
      n.toNat ≤ 16 * 4096 - 12 →
      Serves kmalloc kfree (platformInit m mmap framebuffer size).heap
        (platformInit m mmap framebuffer size).mem n := by
  intro h
  have hcons : sixMegabytes.LowestConsecutive := by
    refine ⟨0x501, ?_⟩
    rw [allocatable_sixMegabytes]
    decide +kernel
  exact not_serves_kmalloc _ _ 100 (h (fun _ => 0) sixMegabytes 0 0 100 hcons (by decide))

/-! ### The heap of the boot -/

/-- A heap of one free block of at least `n` bytes serves a request for them. -/
theorem Holds.serves {heap : Heap} {k : Nat} {m : Mem} {live : List (BitVec 32 × BitVec 32)}
    (h : Holds heap [⟨k, true⟩] ⟨m, live⟩) {n : BitVec 32} (hn : n.toNat ≤ k) :
    Serves heap.alloc heap.free heap m n := by
  have hroom : ∀ {t : HeapState}, Holds heap [⟨k, true⟩] t →
      ∃ g len, heap.Gap t g len ∧ n.toNat + 12 ≤ len :=
    fun ht => ⟨heap.head.toNat, 12 + k, ht.gap_iff.mpr ⟨⟨k, true⟩, by simp [place], rfl, rfl⟩,
      by omega⟩
  obtain ⟨m1, p, halloc, hfit⟩ := h.alloc_firstFit n
  have hp : p ≠ 0 := fun hzero => hfit.null.mp hzero (hroom h)
  obtain ⟨g, len, hgap, hlen, haddr, -⟩ := hfit.lowest hp
  obtain ⟨m2, hfreed, h2⟩ := h.free_alloc halloc hp (ChangesOnly.refl _ _)
  obtain ⟨m3, q, hagain, hfit2⟩ := h2.alloc_firstFit n
  have hq : q ≠ 0 := fun hzero => hfit2.null.mp hzero (hroom h2)
  have hlo := hgap.above
  have hhi := hgap.below
  exact ⟨m1, p, m2, m3, q, halloc, hp, by omega, by omega, hfreed, hagain, hq⟩

section

variable (m : Mem) {mmap : MemoryMap} (framebuffer size : BitVec 32)

theorem MemoryMap.LowestConsecutive.getD (h : mmap.LowestConsecutive) :
    16 ≤ mmap.allocatable.length ∧
      ∀ i < 16, mmap.allocatable.getD i 0 = mmap.allocatable.getD 0 0 + i := by
  obtain ⟨f, hf⟩ := h
  have hlength := congrArg List.length hf
  rw [List.length_take, List.length_range'] at hlength
  have hget : ∀ i < 16, mmap.allocatable.getD i 0 = f + i := by
    intro i hi
    have := congrArg (fun l => l.getD i 0) hf
    simp only [List.getD_eq_getElem?_getD, List.getElem?_take] at this ⊢
    simpa [hi] using this
  refine ⟨by omega, fun i hi => ?_⟩
  rw [hget i hi, hget 0 (by omega), Nat.add_zero]

/-- `Heap::init` gets contiguous frames. -/
theorem heap_contiguous (hcons : mmap.LowestConsecutive) :
    Heap.Contiguous (platformInit m mmap framebuffer size).fa (framesReady m mmap framebuffer size)
      16 (frameAddr (mmap.allocatable.getD 0 0)) := by
  obtain ⟨hlength, hget⟩ := hcons.getD
  have hfirst := mmap.getD_allocatable (i := 0) (by omega)
  have hlast := mmap.getD_allocatable (i := 15) (by omega)
  rw [hget 15 (by omega)] at hlast
  have haddr := toNat_frameAddr (f := mmap.allocatable.getD 0 0) (by omega)
  refine ⟨by decide, ?_, ?_, ?_⟩
  · have hframes := heapFrames_eq m mmap framebuffer size
    rw [heapFrames] at hframes
    refine hframes.trans (List.map_congr_left fun i hi => ?_)
    have hi16 : i < 16 := List.mem_range.mp hi
    rw [hget i hi16, frameAddr, frameAddr]
    bv_omega
  · bv_omega
  · rw [haddr, show (16 : BitVec 32).toNat = 16 from rfl]
    omega

/-- `VMM::init` writes to the frame bitmap, the page tables and its own bitmap. -/
theorem platformInit_changesOnly (mmap : MemoryMap) :
    ChangesOnly ((platformInit m mmap framebuffer size).fa.bits ∪ span pageTablesBase 0x400000 ∪
      span (frameAddr (mmap.allocatable.getD 16 0)) 0x4000)
      (heapReady m mmap framebuffer size) (platformInit m mmap framebuffer size).mem := by
  have hplaced := platformInit_placed m mmap framebuffer size
  have htake := (FrameAllocator.takeFrames_changesOnly hplaced.size
    (heapReady m mmap framebuffer size) 4).mono (FrameAllocator.span_subset_bits _)
  have hwired := (heapReady_takes m mmap framebuffer size).wired.of_changesOnly htake
    hplaced.directory_bits
  have hmem := congrArg Prod.snd ((platformInit_eq_init m mmap framebuffer size).trans
    (VMM.init_eq (heapReady m mmap framebuffer size) (platformInit m mmap framebuffer size).pd
      hplaced.size))
  rw [heapReady_freeFrames, List.getD_eq_getElem?_getD, List.getElem?_drop,
    ← List.getD_eq_getElem?_getD] at hmem
  simp only [Nat.add_zero] at hmem
  intro x hx
  simp only [Set.mem_union, not_or] at hx
  rw [hmem, zeroMemory_apply]
  refine (if_neg hx.2).trans ?_
  rw [(PageDirectory.identityMapRange_sets hwired _ _).changes x hx.1.2, htake x hx.1.1]

/-- The header of the heap's block is none of these. -/
theorem mem_heap_header (hcons : mmap.LowestConsecutive) {x : BitVec 32}
    (hlo : 4096 * mmap.allocatable.getD 0 0 ≤ x.toNat)
    (hhi : x.toNat < 4096 * mmap.allocatable.getD 0 0 + 12) :
    (platformInit m mmap framebuffer size).mem x = heapReady m mmap framebuffer size x := by
  obtain ⟨hlength, hget⟩ := hcons.getD
  have hfirst := mmap.getD_allocatable (i := 0) (by omega)
  have haddr := toNat_frameAddr (f := mmap.allocatable.getD 0 0) (by omega)
  have hx : x ∈ span (frameAddr (mmap.allocatable.getD 0 0)) 0x4000 := by
    simp only [mem_span]
    bv_omega
  obtain ⟨-, htables, hbits⟩ := (spare_getD m mmap framebuffer size 0).apart
    (platformInit_placed m mmap framebuffer size)
  refine platformInit_changesOnly m framebuffer size mmap x ?_
  rintro ((h | h) | h)
  · exact Set.disjoint_left.mp hbits h hx
  · exact Set.disjoint_left.mp htables h hx
  · -- the bitmap of the region lies in later frames, or at 0
    have hlater : mmap.allocatable.getD 16 0 = 0 ∨
        mmap.allocatable.getD 0 0 + 16 ≤ mmap.allocatable.getD 16 0 ∧
          mmap.allocatable.getD 16 0 < 2 ^ 20 := by
      rcases Nat.lt_or_ge 16 mmap.allocatable.length with hlt | hge
      · exact Or.inr ⟨getD_add_le mmap.allocatable_sorted (i := 0) (by omega),
          (mmap.getD_allocatable hlt).2⟩
      · exact Or.inl (List.getD_eq_default _ _ hge)
    simp only [mem_span, frameAddr] at h
    bv_omega

/-- The heap that `platform_init` initialises serves every request that fits into it. -/
theorem platform_heap_serves (hcons : mmap.LowestConsecutive) {n : BitVec 32}
    (hn : n.toNat ≤ 16 * 4096 - 12) :
    Serves (platformInit m mmap framebuffer size).heap.alloc
      (platformInit m mmap framebuffer size).heap.free (platformInit m mmap framebuffer size).heap
      (platformInit m mmap framebuffer size).mem n := by
  have hinit := Heap.init_holds (platformInit m mmap framebuffer size).pd
    (heap_contiguous m framebuffer size hcons)
  have hheap : (Heap.init (platformInit m mmap framebuffer size).fa
      (platformInit m mmap framebuffer size).pd (framesReady m mmap framebuffer size) 16).1 =
      (platformInit m mmap framebuffer size).heap := by
    simp only [platformInit, framesReady]
  rw [hheap] at hinit
  have hfirst := mmap.getD_allocatable (i := 0) (by have := hcons.getD.1; omega)
  have haddr := toNat_frameAddr (f := mmap.allocatable.getD 0 0) (by omega)
  have hhead : (platformInit m mmap framebuffer size).heap.head.toNat =
      4096 * mmap.allocatable.getD 0 0 := by
    rw [platformInit_heap, haddr]
  have hheader : ∀ x ∈ headers (platformInit m mmap framebuffer size).heap.head.toNat
      [⟨4096 * (16 : BitVec 32).toNat - 12, true⟩],
      (platformInit m mmap framebuffer size).mem x = heapReady m mmap framebuffer size x := by
    rintro x ⟨y, hy, hlo, hhi⟩
    simp only [place, List.mem_singleton] at hy
    subst hy
    simp only [hhead] at hlo hhi
    exact mem_heap_header m framebuffer size hcons hlo hhi
  exact (hinit.congr hheader).serves (hn.trans (by decide))

end

end Sapphire
