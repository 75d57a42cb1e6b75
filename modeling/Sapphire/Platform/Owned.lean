import Sapphire.Platform.Boot

/-! Whether the heap and the bitmap of the virtual memory manager lie in frames that they were
given.  Both subsystems take a number of frames and use the pages from the first one on, so it
depends on the frames being consecutive. -/

namespace Sapphire

open Machine

/-! ### Increasing lists of frames -/

theorem MemoryMap.allocatable_sorted (mmap : MemoryMap) : mmap.allocatable.Pairwise (· < ·) :=
  List.Pairwise.filter _ List.pairwise_lt_range

theorem MemoryMap.allocatable_lt (mmap : MemoryMap) {p : Nat} (hp : p ∈ mmap.allocatable) :
    0x500 ≤ p ∧ p < 2 ^ 20 := by
  have hhighest := (FrameAllocator.highestAddr mmap).isLt
  obtain ⟨hrange, hfilter⟩ := List.mem_filter.mp hp
  have hscanned := List.mem_range.mp hrange
  have hres := (of_decide_eq_true hfilter).1
  unfold reservedEnd at hres
  omega

/-- An increasing list grows at least as fast as its index. -/
theorem getD_add_le {l : List Nat} (h : l.Pairwise (· < ·)) {i k : Nat} (hk : i + k < l.length) :
    l.getD i 0 + k ≤ l.getD (i + k) 0 := by
  induction k with
  | zero => simp
  | succ k ih =>
    have hstep : l.getD (i + k) 0 < l.getD (i + (k + 1)) 0 := by
      rw [List.getD_eq_getElem _ _ (by omega), List.getD_eq_getElem _ _ hk]
      exact List.pairwise_iff_getElem.mp h _ _ _ _ (by omega)
    have := ih (by omega)
    omega

/-- Where its growth over `n` places is the least, the elements are consecutive. -/
theorem getD_consecutive {l : List Nat} (h : l.Pairwise (· < ·)) {i n k : Nat}
    (hn : i + n < l.length) (hcons : l.getD (i + n) 0 = l.getD i 0 + n) (hk : k ≤ n) :
    l.getD (i + k) 0 = l.getD i 0 + k := by
  have h1 := getD_add_le h (i := i) (k := k) (by omega)
  have h2 := getD_add_le h (i := i + k) (k := n - k) (by omega)
  rw [show i + k + (n - k) = i + n by omega] at h2
  omega

/-- An increasing list that holds the `n` numbers after its element `i` among its next `n` has them
in order. -/
theorem getD_consecutive_of_mem {l : List Nat} (h : l.Pairwise (· < ·)) {i n : Nat}
    (hn : i + n < l.length) (hmem : ∀ j ≤ n, ∃ k ≤ n, l.getD i 0 + j = l.getD (i + k) 0) :
    ∀ j ≤ n, l.getD (i + j) 0 = l.getD i 0 + j := by
  intro j hj
  induction j with
  | zero => simp
  | succ j ih =>
    obtain ⟨k, hk, heq⟩ := hmem (j + 1) hj
    have hprev := ih (by omega)
    have hge := getD_add_le h (i := i) (k := j + 1) (by omega)
    -- the place of the number is after `j`, and it is not after `j + 1`
    rcases Nat.lt_or_ge j k with hjk | hkj
    · have hle := getD_add_le h (i := i + (j + 1)) (k := k - (j + 1)) (by omega)
      rw [show i + (j + 1) + (k - (j + 1)) = i + k by omega] at hle
      omega
    · have hle := getD_add_le h (i := i + k) (k := j - k) (by omega)
      rw [show i + k + (j - k) = i + j by omega] at hle
      omega

/-- The page of an address in `n` pages from frame `f` on. -/
theorem pageDown_of_mem_span {x : BitVec 32} {f n : Nat} (hf : f + n ≤ 2 ^ 20)
    (hx : x ∈ span (frameAddr f) (4096 * n)) : ∃ k < n, pageDown x = frameAddr (f + k) := by
  rcases Nat.eq_zero_or_pos n with h0 | hpos
  · subst h0
    exact absurd hx (Nat.not_lt_zero _)
  · have haddr := toNat_frameAddr (f := f) (by omega)
    rw [mem_span_iff (by rw [haddr]; omega), haddr] at hx
    refine ⟨x.toNat / 4096 - f, by omega, ?_⟩
    apply BitVec.eq_of_toNat_eq
    rw [pageDown_toNat, toNat_frameAddr (by omega)]
    omega

section

variable (m : Mem) (mmap : MemoryMap) (framebuffer size : BitVec 32)

/-- What `alloc_frame` returned to `Heap::init`. -/
def heapFrames : List (BitVec 32) :=
  ((platformInit m mmap framebuffer size).fa.takeFrames
    (framesReady m mmap framebuffer size) 16).2

/-- What `alloc_frame` returned to `VMM::init`. -/
def vmmFrames : List (BitVec 32) :=
  ((platformInit m mmap framebuffer size).fa.takeFrames (heapReady m mmap framebuffer size) 4).2

theorem heapFrames_eq : heapFrames m mmap framebuffer size =
    (List.range 16).map fun i => frameAddr (mmap.allocatable.getD i 0) := by
  rw [heapFrames, (FrameAllocator.takeFrames_freeFrames
    (platformInit_placed m mmap framebuffer size).size _ _).1, framesReady_freeFrames]

theorem vmmFrames_eq : vmmFrames m mmap framebuffer size =
    (List.range 4).map fun i => frameAddr (mmap.allocatable.getD (16 + i) 0) := by
  rw [vmmFrames, (FrameAllocator.takeFrames_freeFrames
    (platformInit_placed m mmap framebuffer size).size _ _).1, heapReady_freeFrames]
  simp only [List.getD_eq_getElem?_getD, List.getElem?_drop]

theorem platformInit_heap : (platformInit m mmap framebuffer size).heap =
    ⟨frameAddr (mmap.allocatable.getD 0 0), frameAddr (mmap.allocatable.getD 15 0) + pageSize -
      frameAddr (mmap.allocatable.getD 0 0)⟩ := by
  have h := Heap.init_fields (framesReady m mmap framebuffer size)
    (platformInit m mmap framebuffer size).pd (platformInit_placed m mmap framebuffer size).size
  rw [framesReady_freeFrames] at h
  rw [← h]
  simp only [platformInit, framesReady]

end

variable {mmap : MemoryMap}

theorem MemoryMap.getD_allocatable (mmap : MemoryMap) {i : Nat}
    (hi : i < mmap.allocatable.length) :
    0x500 ≤ mmap.allocatable.getD i 0 ∧ mmap.allocatable.getD i 0 < 2 ^ 20 := by
  apply mmap.allocatable_lt
  rw [List.getD_eq_getElem _ _ hi]
  exact List.getElem_mem hi

/-- The pages from a frame on are among the next `n + 1` frames where these are consecutive. -/
theorem pages_owned {i n : Nat} (hn : i + n < mmap.allocatable.length)
    (hcons : mmap.allocatable.getD (i + n) 0 = mmap.allocatable.getD i 0 + n) {x : BitVec 32}
    (hx : x ∈ span (frameAddr (mmap.allocatable.getD i 0)) (4096 * (n + 1))) :
    pageDown x ∈ (List.range (n + 1)).map fun k => frameAddr (mmap.allocatable.getD (i + k) 0) := by
  have hlast := mmap.getD_allocatable hn
  obtain ⟨k, hk, hpage⟩ := pageDown_of_mem_span (by omega) hx
  rw [List.mem_map]
  refine ⟨k, List.mem_range.mpr hk, ?_⟩
  rw [hpage, getD_consecutive mmap.allocatable_sorted hn hcons (by omega)]

/-- The pages from a frame on are among the next `n + 1` frames only where these are
consecutive. -/
theorem consecutive_of_owned {i n : Nat} (hn : i + n < mmap.allocatable.length)
    (howned : ∀ x ∈ span (frameAddr (mmap.allocatable.getD i 0)) (4096 * (n + 1)), pageDown x ∈
      (List.range (n + 1)).map fun k => frameAddr (mmap.allocatable.getD (i + k) 0)) :
    mmap.allocatable.getD (i + n) 0 = mmap.allocatable.getD i 0 + n := by
  have hlast := mmap.getD_allocatable hn
  have hgrow := getD_add_le mmap.allocatable_sorted hn
  refine getD_consecutive_of_mem mmap.allocatable_sorted hn (fun j hj => ?_) n (le_refl n)
  have haddr := toNat_frameAddr (f := mmap.allocatable.getD i 0 + j) (by omega)
  have hbase := toNat_frameAddr (f := mmap.allocatable.getD i 0) (by omega)
  have hdown : pageDown (frameAddr (mmap.allocatable.getD i 0 + j)) =
      frameAddr (mmap.allocatable.getD i 0 + j) := by
    apply BitVec.eq_of_toNat_eq
    rw [pageDown_toNat, haddr]
    omega
  have hmem := howned (frameAddr (mmap.allocatable.getD i 0 + j))
    (by rw [mem_span_iff (by omega)]; omega)
  obtain ⟨k, hk, heq⟩ := List.mem_map.mp hmem
  have hkn := List.mem_range.mp hk
  rw [hdown] at heq
  exact ⟨k, by omega, ((frameAddr_inj (mmap.getD_allocatable (by omega)).2 (by omega)).mp heq).symm⟩

/-- After a boot with at least 20 frames, the heap has its 16 pages, the pages of the heap and of
the bitmap of the virtual memory manager are frames that these were given, and the two are apart,
exactly when the 16 lowest frames that can be allocated are consecutive and the next four are. -/
theorem subsystems_own_frames_iff (m : Mem) (mmap : MemoryMap) (framebuffer size : BitVec 32)
    (hlen : 20 ≤ mmap.allocatable.length) :
    let b := platformInit m mmap framebuffer size
    (b.heap.totalSize = 16 * pageSize ∧
      (∀ x ∈ span b.heap.head b.heap.totalSize.toNat,
        pageDown x ∈ heapFrames m mmap framebuffer size) ∧
      (∀ x ∈ span b.vmm.bitmap 0x4000, pageDown x ∈ vmmFrames m mmap framebuffer size) ∧
      Disjoint (span b.heap.head b.heap.totalSize.toNat) (span b.vmm.bitmap 0x4000)) ↔
    mmap.allocatable.getD 15 0 = mmap.allocatable.getD 0 0 + 15 ∧
      mmap.allocatable.getD 19 0 = mmap.allocatable.getD 16 0 + 3 := by
  have h0 := mmap.getD_allocatable (i := 0) (by omega)
  have h15 := mmap.getD_allocatable (i := 15) (by omega)
  have h16 := mmap.getD_allocatable (i := 16) (by omega)
  have h19 := mmap.getD_allocatable (i := 19) (by omega)
  have hgrow : mmap.allocatable.getD 0 0 + 15 ≤ mmap.allocatable.getD 15 0 :=
    getD_add_le mmap.allocatable_sorted (i := 0) (k := 15) (by omega)
  have hnext : mmap.allocatable.getD 15 0 + 1 ≤ mmap.allocatable.getD 16 0 :=
    getD_add_le mmap.allocatable_sorted (i := 15) (k := 1) (by omega)
  have ha0 := toNat_frameAddr h0.2
  have ha15 := toNat_frameAddr h15.2
  have ha16 := toNat_frameAddr h16.2
  have htotal : frameAddr (mmap.allocatable.getD 15 0) + pageSize -
      frameAddr (mmap.allocatable.getD 0 0) = 16 * pageSize ↔
      mmap.allocatable.getD 15 0 = mmap.allocatable.getD 0 0 + 15 := by
    constructor <;> intro h <;> bv_omega
  simp only [platformInit_heap, platformInit_vmm, heapFrames_eq, vmmFrames_eq, htotal]
  constructor
  · rintro ⟨hheap, -, hvmm, -⟩
    exact ⟨hheap, consecutive_of_owned (i := 16) (n := 3) (by omega) hvmm⟩
  · rintro ⟨hheap, hvmm⟩
    rw [htotal.mpr hheap, show (16 * pageSize).toNat = 4096 * 16 from rfl]
    refine ⟨hheap, fun x hx => ?_, fun x hx => ?_, ?_⟩
    · simpa using pages_owned (i := 0) (n := 15) (by omega) (by simpa using hheap) hx
    · exact pages_owned (i := 16) (n := 3) (by omega) hvmm hx
    · exact disjoint_span (by omega) (by omega) (by omega)

theorem allocatable_sixMegabytes : sixMegabytes.allocatable = List.range' 0x501 255 := by
  decide +kernel

theorem length_allocatable_sixMegabytes : 20 ≤ sixMegabytes.allocatable.length := by
  rw [allocatable_sixMegabytes, List.length_range']
  omega

/-- The frames of the bitmap of the virtual memory manager follow each other. -/
theorem bitmapFrames_sixMegabytes :
    sixMegabytes.allocatable.getD 19 0 = sixMegabytes.allocatable.getD 16 0 + 3 := by
  rw [allocatable_sixMegabytes]
  rfl

theorem subsystems_own_frames_sixMegabytes :
    let b := platformInit (fun _ => 0) sixMegabytes 0 0
    20 ≤ sixMegabytes.allocatable.length ∧ b.heap.totalSize = 16 * pageSize ∧
      (∀ x ∈ span b.heap.head b.heap.totalSize.toNat,
        pageDown x ∈ heapFrames (fun _ => 0) sixMegabytes 0 0) ∧
      (∀ x ∈ span b.vmm.bitmap 0x4000, pageDown x ∈ vmmFrames (fun _ => 0) sixMegabytes 0 0) ∧
      Disjoint (span b.heap.head b.heap.totalSize.toNat) (span b.vmm.bitmap 0x4000) := by
  have hlen := length_allocatable_sixMegabytes
  refine ⟨hlen, (subsystems_own_frames_iff (fun _ => 0) sixMegabytes 0 0 hlen).mpr ?_⟩
  rw [allocatable_sixMegabytes]
  decide

/-- Memory up to `0x508000`, and from 6 to 8 MiB. -/
def memoryHole : MemoryMap := ⟨[⟨0, 0x508000, 1⟩, ⟨0x600000, 0x200000, 1⟩]⟩

theorem allocatable_memoryHole :
    memoryHole.allocatable = List.range' 0x501 7 ++ List.range' 0x600 0x200 := by
  decide +kernel

/-- The heap of a machine with a hole in its memory runs across the hole. -/
theorem subsystems_own_frames_memoryHole :
    let b := platformInit (fun _ => 0) memoryHole 0 0
    20 ≤ memoryHole.allocatable.length ∧ ¬ (b.heap.totalSize = 16 * pageSize ∧
      (∀ x ∈ span b.heap.head b.heap.totalSize.toNat,
        pageDown x ∈ heapFrames (fun _ => 0) memoryHole 0 0) ∧
      (∀ x ∈ span b.vmm.bitmap 0x4000, pageDown x ∈ vmmFrames (fun _ => 0) memoryHole 0 0) ∧
      Disjoint (span b.heap.head b.heap.totalSize.toNat) (span b.vmm.bitmap 0x4000)) := by
  intro b
  refine ⟨by simp [allocatable_memoryHole], ?_⟩
  rintro ⟨htotal, -⟩
  have hheap := platformInit_heap (fun _ => 0) memoryHole 0 0
  rw [allocatable_memoryHole] at hheap
  have hsize : b.heap.totalSize = frameAddr 0x608 + pageSize - frameAddr 0x501 :=
    congrArg Heap.totalSize hheap
  rw [hsize] at htotal
  revert htotal
  decide

end Sapphire
