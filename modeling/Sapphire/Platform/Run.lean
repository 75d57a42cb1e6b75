import Sapphire.Platform.Owned
import Sapphire.Vmm.Tlb

/-! Runs of `alloc_pages` and `free_pages` of the virtual memory manager after `init_vmm`, with the
frame allocator and the page directory that it was given, for every memory map and framebuffer. -/

namespace Sapphire

open Machine

section

variable (m : Mem) (mmap : MemoryMap) (framebuffer size : BitVec 32)

/-- The state after `init_vmm`, without live allocations. -/
def booted : VmmState := ⟨(platformInit m mmap framebuffer size).mem, []⟩

@[simp] theorem booted_mem : (booted m mmap framebuffer size).mem =
    (platformInit m mmap framebuffer size).mem := by
  rw [booted]

theorem platformInit_used {i : Nat} (hi : i < 131072) :
    (platformInit m mmap framebuffer size).vmm.used (platformInit m mmap framebuffer size).mem i =
      false := by
  have h := VMM.init_used (heapReady m mmap framebuffer size)
    (platformInit m mmap framebuffer size).pd (platformInit_placed m mmap framebuffer size).size hi
  rw [← platformInit_eq_init] at h
  dsimp only at h
  exact h

theorem platformInit_vmm_pd : (platformInit m mmap framebuffer size).vmm.pd =
    (platformInit m mmap framebuffer size).pd := by
  rw [platformInit_vmm]

theorem platformInit_vmm_fa : (platformInit m mmap framebuffer size).vmm.fa =
    (platformInit m mmap framebuffer size).fa := by
  rw [platformInit_vmm]

theorem booted_tracks :
    (platformInit m mmap framebuffer size).vmm.Tracks (booted m mmap framebuffer size) := by
  refine ⟨?_, List.nodup_nil, fun i hi => absurd hi List.not_mem_nil, fun i hi => ?_,
    fun i hi => absurd hi List.not_mem_nil⟩
  · rw [platformInit_vmm_pd, booted_mem]
    exact (platformInit_takes m mmap framebuffer size).wired
  · rw [booted_mem, platformInit_used m mmap framebuffer size hi]
    rfl

theorem booted_freeFrames : (platformInit m mmap framebuffer size).vmm.fa.freeFrames
    (booted m mmap framebuffer size).mem = mmap.allocatable.drop 20 := by
  rw [platformInit_vmm_fa, booted_mem, (platformInit_takes m mmap framebuffer size).free,
    heapReady_freeFrames, List.drop_drop]

theorem booted_consistent
    (habsent : ∀ i < 131072, present ((platformInit m mmap framebuffer size).vmm.pd.pte
      (platformInit m mmap framebuffer size).mem (0xD0000 + i)) = false) :
    (platformInit m mmap framebuffer size).vmm.Consistent
      (platformInit m mmap framebuffer size).mem (booted m mmap framebuffer size) := by
  refine ⟨booted_tracks m mmap framebuffer size, fun i hi _ => ?_,
    fun i hi => absurd hi List.not_mem_nil, fun i hi => absurd hi List.not_mem_nil,
    fun f _ => ?_, fun p _ _ => ?_⟩
  · rw [booted_mem]
    exact habsent i hi
  · simp [booted, VmmState.pages]
  · rw [booted_mem]

theorem booted_reserves :
    (platformInit m mmap framebuffer size).vmm.Reserves (booted m mmap framebuffer size) := by
  refine ⟨booted_tracks m mmap framebuffer size, fun f hf => ?_,
    fun i hi => absurd hi List.not_mem_nil⟩
  rw [platformInit_vmm_fa] at hf ⊢
  have hplaced := platformInit_placed m mmap framebuffer size
  have htracked := FrameAllocator.reserved_le_tracked hplaced.size
  have hready : (platformInit m mmap framebuffer size).fa.used
      (framesReady m mmap framebuffer size) f = true := by
    refine FrameAllocator.init_reserved _ mmap ?_ hf
    have hsize := hplaced.size
    unfold FrameAllocator.reserved at hf
    omega
  rw [booted_mem, (platformInit_takes m mmap framebuffer size).used f (by omega),
    (heapReady_takes m mmap framebuffer size).used f (by omega), hready]
  rfl

end

open VmmState

/-- The three structures of the virtual memory manager stay in step.  Where no page of the region
is mapped after `init_vmm` and `alloc_frame` does not return 0, in every state of a run a page is
marked, mapped, and in exactly one live allocation, all or none of these; the mapped frames are
distinct and were free after it; the frames in use are those that were then and the mapped ones;
and no other page table entry and no directory entry has changed. -/
theorem vmm_consistent (m : Mem) (mmap : MemoryMap) (framebuffer size : BitVec 32) {s : VmmState}
    (habsent : ∀ i < 131072, present ((platformInit m mmap framebuffer size).vmm.pd.pte
      (platformInit m mmap framebuffer size).mem (0xD0000 + i)) = false)
    (hrun : Runs (platformInit m mmap framebuffer size).vmm
      (platformInit m mmap framebuffer size).vmm.NoZero (booted m mmap framebuffer size) s) :
    let b := platformInit m mmap framebuffer size
    let entry := fun i => b.vmm.pd.pte s.mem (0xD0000 + i)
    (∀ i < 131072, (b.vmm.used s.mem i = true ↔ present (entry i) = true) ∧
      (present (entry i) = true ↔ s.live.countP (fun A => i ∈ A) = 1)) ∧
    (∀ i < 131072, ∀ j < 131072, present (entry i) = true → present (entry j) = true →
      pageDown (entry i) = pageDown (entry j) → i = j) ∧
    (∀ i < 131072, present (entry i) = true →
      b.vmm.fa.used b.mem ((pageDown (entry i)).toNat / 4096) = false) ∧
    (∀ f < 8 * b.vmm.fa.bitmapSize.toNat, b.vmm.fa.used s.mem f = true ↔
      b.vmm.fa.used b.mem f = true ∨
        ∃ i < 131072, present (entry i) = true ∧ pageDown (entry i) = frameAddr f) ∧
    (∀ p < 2 ^ 20, ¬ (0xD0000 ≤ p ∧ p < 0xF0000) → b.vmm.pd.pte s.mem p = b.vmm.pd.pte b.mem p) ∧
    ∀ i < 1024, s.mem.load32 (slot b.vmm.pd.entries i) =
      b.mem.load32 (slot b.vmm.pd.entries i) := by
  intro b entry
  have hl := platformInit_laid m mmap framebuffer size
  have hb := booted_tracks m mmap framebuffer size
  have hc := (booted_consistent m mmap framebuffer size habsent).run hl hrun
  have ht := hc.tracks
  have hscanned := hl.scanned_le
  have hpresent : ∀ i < 131072, present (entry i) = true ↔ i ∈ s.pages := fun i hi =>
    hc.present_iff hi
  refine ⟨fun i hi => ⟨?_, ?_⟩, fun i hi j hj h1 h2 heq => ?_, fun i hi h => ?_, fun f hf => ?_,
    hc.outside, fun i hi => ?_⟩
  · rw [ht.bits i hi, decide_eq_true_eq, hpresent i hi]
  · rw [hpresent i hi, countP_eq_one_iff ht.nodup]
    rfl
  · rw [hpresent i hi] at h1
    rw [hpresent j hj] at h2
    have hlt : b.vmm.frameOf s.mem j < 2 ^ 20 := lt_of_lt_of_le (hc.fresh j h2).1 hscanned
    have hj' : pageDown (entry j) = frameAddr (b.vmm.frameOf s.mem j) :=
      (hc.pageDown_pte_eq_iff hl h2 hlt).mpr rfl
    rw [hj'] at heq
    exact hc.distinct i h1 j h2 ((hc.pageDown_pte_eq_iff hl h1 hlt).mp heq)
  · exact (hc.fresh i ((hpresent i hi).mp h)).2
  · have htracked : f < b.vmm.fa.tracked := by
      unfold FrameAllocator.tracked
      omega
    have hf20 : f < 2 ^ 20 := lt_of_lt_of_le htracked hl.tracked_le
    rw [hc.frames f htracked, Bool.or_eq_true, decide_eq_true_eq]
    refine or_congr_right ⟨?_, ?_⟩
    · rintro ⟨i, hi, heq⟩
      have hi' := ht.bound i hi
      exact ⟨i, hi', (hpresent i hi').mpr hi, (hc.pageDown_pte_eq_iff hl hi hf20).mpr heq⟩
    · rintro ⟨i, hi, hp, heq⟩
      have hmem := (hpresent i hi).mp hp
      exact ⟨i, hmem, (hc.pageDown_pte_eq_iff hl hmem hf20).mp heq⟩
  · have hbw := hb.wired
    rw [booted_mem] at hbw
    rw [ht.wired.entry i hi, hbw.entry i hi]

theorem freeRange_booted (m : Mem) (mmap : MemoryMap) (framebuffer size : BitVec 32) {n : Nat}
    (hn : n ≤ 131072) :
    (platformInit m mmap framebuffer size).vmm.FreeRange (booted m mmap framebuffer size).mem n
      0 := by
  refine ⟨by omega, fun k hk => ?_⟩
  rw [booted_mem]
  exact platformInit_used m mmap framebuffer size (by omega)

theorem freeFrames_sixMegabytes (m : Mem) (framebuffer size : BitVec 32) :
    (platformInit m sixMegabytes framebuffer size).vmm.fa.freeFrames
      (booted m sixMegabytes framebuffer size).mem = List.range' 0x515 235 := by
  rw [booted_freeFrames, allocatable_sixMegabytes]
  decide +kernel

/-- With 6 MiB of memory and no framebuffer, the boot leaves the entries of the region zero. -/
theorem pte_sixMegabytes {i : Nat} (hi : i < 131072) :
    (platformInit (fun _ => 0) sixMegabytes 0 0).vmm.pd.pte
      (platformInit (fun _ => 0) sixMegabytes 0 0).mem (0xD0000 + i) = 0 := by
  have hvmm := (platformInit_takes (fun _ => 0) sixMegabytes 0 0).pte (0xD0000 + i) (by omega)
  have hheap := (heapReady_takes (fun _ => 0) sixMegabytes 0 0).pte (0xD0000 + i) (by omega)
  rw [allocatable_sixMegabytes] at hvmm hheap
  have hvmmEnd : endPage (frameAddr ((List.range' 0x501 255).getD 16 0) + 0x4000) = 0x515 := by
    decide
  have hheapEnd : endPage (frameAddr ((List.range' 0x501 255).getD 15 0) + pageSize) = 0x511 := by
    decide
  have hframes := framesReady_pte (fun _ => 0) sixMegabytes 0 0 (p := 0xD0000 + i) (by omega)
  have hboot := (bootMappings_spec (fun _ => 0) sixMegabytes 0 0).2 (0xD0000 + i) (by omega)
  rw [hvmmEnd, if_neg (by omega)] at hvmm
  rw [hheapEnd, if_neg (by omega)] at hheap
  have hcov : ¬ sixMegabytes.Covered (0xD0000 + i) := by
    rw [covered_sixMegabytes]
    omega
  rw [show endPage (0 + 0) = 0 from rfl, if_neg (not_or.mpr ⟨hcov, by omega⟩),
    if_neg (by omega)] at hboot
  rw [platformInit_vmm_pd, hvmm, hheap]
  exact hframes.trans hboot

theorem absent_sixMegabytes {i : Nat} (hi : i < 131072) :
    present ((platformInit (fun _ => 0) sixMegabytes 0 0).vmm.pd.pte
      (platformInit (fun _ => 0) sixMegabytes 0 0).mem (0xD0000 + i)) = false := by
  rw [pte_sixMegabytes hi]
  rfl

/-- Two pages allocated after a boot with 6 MiB of memory. -/
theorem vmm_consistent_sixMegabytes :
    let vmm := (platformInit (fun _ => 0) sixMegabytes 0 0).vmm
    ∃ s, Runs vmm vmm.NoZero (booted (fun _ => 0) sixMegabytes 0 0) s ∧ s.live ≠ [] ∧
      ∀ i < 131072, (vmm.used s.mem i = true ↔
        present (vmm.pd.pte s.mem (0xD0000 + i)) = true) := by
  intro vmm
  have hl := platformInit_laid (fun _ => 0) sixMegabytes 0 0
  have hb := booted_tracks (fun _ => 0) sixMegabytes 0 0
  rcases VMM.apply_alloc_cases hl hb.wired 2 with
    ⟨hnone, -⟩ | ⟨start, -, -, hlive, hlog, -, -⟩
  · exact absurd hnone ((freeRange_booted _ _ _ _ (by decide)).not_none (by decide))
  · have hstart : Runs vmm vmm.NoZero (booted (fun _ => 0) sixMegabytes 0 0)
        (booted (fun _ => 0) sixMegabytes 0 0) := .refl
    have hok : vmm.NoZero (booted (fun _ => 0) sixMegabytes 0 0) (.alloc 2) := by
      rw [VMM.NoZero, hlog, freeFrames_sixMegabytes]
      decide
    have hlegal : (booted (fun _ => 0) sixMegabytes 0 0).Legal (.alloc 2) := trivial
    have hrun := hstart.step hlegal hok
    refine ⟨_, hrun, by rw [hlive]; exact List.cons_ne_nil _ _, fun i hi => ?_⟩
    exact ((vmm_consistent (fun _ => 0) sixMegabytes 0 0 (fun i hi => absent_sixMegabytes hi)
      hrun).1 i hi).1

/-- What `alloc_pages` should do where it has too few frames: return null and leave its bitmap, the
frame bitmap and the page tables as they were. -/
structure FailsCleanly (vmm : VMM) (m : Mem) (numPages : BitVec 32) : Prop where
  null : (vmm.allocPages m numPages).2 = 0
  pages : ∀ i < 131072, vmm.used (vmm.allocPages m numPages).1 i = vmm.used m i
  frames : ∀ f < 8 * vmm.fa.bitmapSize.toNat,
    vmm.fa.used (vmm.allocPages m numPages).1 f = vmm.fa.used m f
  tables : ∀ p < 2 ^ 20, vmm.pd.pte (vmm.allocPages m numPages).1 p = vmm.pd.pte m p

/-- In no state of any run does `alloc_pages` fail cleanly where there are enough free pages but too
few free frames: it returns a pointer, and one of the pages that it marks is mapped to frame 0. -/
theorem alloc_pages_never_fails_cleanly (m : Mem) (mmap : MemoryMap) (framebuffer size : BitVec 32)
    {s : VmmState}
    (hrun : Runs (platformInit m mmap framebuffer size).vmm (fun _ _ => True)
      (booted m mmap framebuffer size) s) {numPages : BitVec 32} {start : Nat}
    (hrange : (platformInit m mmap framebuffer size).vmm.FreeRange s.mem numPages.toNat start)
    (hfew : ((platformInit m mmap framebuffer size).vmm.fa.freeFrames s.mem).length <
      numPages.toNat) :
    let vmm := (platformInit m mmap framebuffer size).vmm
    let r := vmm.allocPages s.mem numPages
    ¬ FailsCleanly vmm s.mem numPages ∧ r.2 ≠ 0 ∧ ∃ i < 131072, vmm.used s.mem i = false ∧
      vmm.used r.1 i = true ∧ present (vmm.pd.pte r.1 (0xD0000 + i)) = true ∧
      pageDown (vmm.pd.pte r.1 (0xD0000 + i)) = 0 := by
  intro vmm r
  have hl := platformInit_laid m mmap framebuffer size
  have ht := (booted_tracks m mmap framebuffer size).run hl hrun
  obtain ⟨hne, i, hi, hbefore, hafter, hpte⟩ := VMM.allocPages_exhausted hl ht.wired hrange hfew
  refine ⟨fun hclean => hne hclean.null, hne, i, hi, hbefore, hafter, ?_⟩
  rw [hpte]
  exact ⟨present_mapped 0, pageDown_mapped rfl⟩

theorem length_freeFrames_sixMegabytes :
    ((platformInit (fun _ => 0) sixMegabytes 0 0).vmm.fa.freeFrames
      (booted (fun _ => 0) sixMegabytes 0 0).mem).length < (300 : BitVec 32).toNat := by
  rw [freeFrames_sixMegabytes, List.length_range']
  decide

theorem alloc_pages_never_fails_cleanly_sixMegabytes :
    let vmm := (platformInit (fun _ => 0) sixMegabytes 0 0).vmm
    let r := vmm.allocPages (booted (fun _ => 0) sixMegabytes 0 0).mem 300
    r.2 ≠ 0 ∧ ∃ i < 131072, pageDown (vmm.pd.pte r.1 (0xD0000 + i)) = 0 := by
  obtain ⟨-, hne, i, hi, -, -, -, hzero⟩ := alloc_pages_never_fails_cleanly (fun _ => 0)
    sixMegabytes 0 0 .refl (freeRange_booted _ _ _ _ (by decide)) length_freeFrames_sixMegabytes
  exact ⟨hne, i, hi, hzero⟩

/-- With 6 MiB of memory, 300 pages can be allocated after `init_vmm`, though there are only 235
frames. -/
theorem fails_cleanly_sixMegabytes :
    let vmm := (platformInit (fun _ => 0) sixMegabytes 0 0).vmm
    let m := (booted (fun _ => 0) sixMegabytes 0 0).mem
    vmm.FreeRange m (300 : BitVec 32).toNat 0 ∧
      (vmm.fa.freeFrames m).length < (300 : BitVec 32).toNat ∧ ¬ FailsCleanly vmm m 300 := by
  intro vmm m
  have hrange := freeRange_booted (fun _ => 0) sixMegabytes 0 0 (n := (300 : BitVec 32).toNat)
    (by decide)
  refine ⟨hrange, length_freeFrames_sixMegabytes, fun hclean => ?_⟩
  exact (VMM.allocPages_exhausted (platformInit_laid _ _ _ _) (booted_tracks _ _ _ _).wired hrange
    length_freeFrames_sixMegabytes).1 hclean.null

/-! ### Cached translations -/

/-- The processor after `init_vmm`, without live allocations. -/
def bootedKernel (m : Mem) (mmap : MemoryMap) (framebuffer size : BitVec 32)
    (tlb : Nat → Option (BitVec 32)) : Kernel :=
  ⟨⟨(platformInit m mmap framebuffer size).mem, tlb⟩, [], []⟩

theorem bootedKernel_vmmState (m : Mem) (mmap : MemoryMap) (framebuffer size : BitVec 32)
    (tlb : Nat → Option (BitVec 32)) : (bootedKernel m mmap framebuffer size tlb).vmmState =
      booted m mmap framebuffer size := by
  rw [bootedKernel, booted, Kernel.vmmState]

theorem bootedKernel_sound (m : Mem) (mmap : MemoryMap) (framebuffer size : BitVec 32)
    (tlb : Nat → Option (BitVec 32))
    (habsent : ∀ i < 131072, present ((platformInit m mmap framebuffer size).vmm.pd.pte
      (platformInit m mmap framebuffer size).mem (0xD0000 + i)) = false)
    (htlb : ∀ i < 131072, tlb (0xD0000 + i) = none) :
    (bootedKernel m mmap framebuffer size tlb).Sound (platformInit m mmap framebuffer size).vmm
      (platformInit m mmap framebuffer size).mem := by
  have hc := booted_consistent m mmap framebuffer size habsent
  rw [booted] at hc
  rw [bootedKernel]
  exact Kernel.sound_of_idle hc (VMM.covered_of_absent habsent htlb)

/-- Where no page of the region is mapped or cached after `init_vmm` and `alloc_frame` does not return
0, whatever present entries the processor caches between the steps of the calls: in every state no
cached translation of a page of the region names a free frame, and between the calls each of them is
the current entry of its page. -/
theorem no_stale_translation (m : Mem) (mmap : MemoryMap) (framebuffer size : BitVec 32)
    (tlb : Nat → Option (BitVec 32)) {k : Kernel}
    (habsent : ∀ i < 131072, present ((platformInit m mmap framebuffer size).vmm.pd.pte
      (platformInit m mmap framebuffer size).mem (0xD0000 + i)) = false)
    (htlb : ∀ i < 131072, tlb (0xD0000 + i) = none)
    (hrun : Kernel.Runs (platformInit m mmap framebuffer size).vmm
      (bootedKernel m mmap framebuffer size tlb) k) :
    let vmm := (platformInit m mmap framebuffer size).vmm
    (∀ i < 131072, ∀ e ∈ k.mmu.tlb (0xD0000 + i),
      vmm.fa.used k.mmu.mem ((pageDown e).toNat / 4096) = true) ∧
    (k.todo = [] → ∀ i < 131072, ∀ e ∈ k.mmu.tlb (0xD0000 + i),
      e = vmm.pd.pte k.mmu.mem (0xD0000 + i)) := by
  intro vmm
  have hsound := (bootedKernel_sound m mmap framebuffer size tlb habsent htlb).run
    (platformInit_laid m mmap framebuffer size) hrun
  refine ⟨hsound.safe_now, fun hidle i hi e he => ?_⟩
  exact ((hsound.idle hidle).2.current _ (show 0xD0000 + i ∈ VMM.region from ⟨by omega, by omega⟩)
    e he).1

/-- Two pages allocated after a boot with 6 MiB of memory, and the first of them cached. -/
theorem no_stale_translation_sixMegabytes :
    let vmm := (platformInit (fun _ => 0) sixMegabytes 0 0).vmm
    ∃ k, Kernel.Runs vmm (bootedKernel (fun _ => 0) sixMegabytes 0 0 fun _ => none) k ∧
      k.todo = [] ∧ ∃ i < 131072, ∃ e ∈ k.mmu.tlb (0xD0000 + i),
        vmm.fa.used k.mmu.mem ((pageDown e).toNat / 4096) = true ∧
        e = vmm.pd.pte k.mmu.mem (0xD0000 + i) := by
  intro vmm
  have hl := platformInit_laid (fun _ => 0) sixMegabytes 0 0
  have habsent := fun i hi => absent_sixMegabytes (i := i) hi
  have hsound := bootedKernel_sound (fun _ => 0) sixMegabytes 0 0 (fun _ => none) habsent
    fun _ _ => rfl
  rcases VMM.apply_alloc_cases hl (booted_tracks (fun _ => 0) sixMegabytes 0 0).wired 2 with
    ⟨hnone, -⟩ | ⟨start, -, hrange, hlive, hlog, -, -⟩
  · exact absurd hnone ((freeRange_booted _ _ _ _ (by decide)).not_none (by decide))
  · have hlt : start < 131072 := by
      have hend : start + 2 ≤ 131072 := hrange.1
      omega
    have hpages := (mem_pages_cons hlive).mpr (Or.inl ⟨le_refl start,
      Nat.lt_add_of_pos_right (show 0 < (2 : BitVec 32).toNat by decide)⟩)
    have hok : vmm.NoZero (booted (fun _ => 0) sixMegabytes 0 0) (.alloc 2) := by
      rw [VMM.NoZero, hlog, freeFrames_sixMegabytes]
      decide
    rw [← bootedKernel_vmmState _ _ _ _ fun _ => none] at hpages hok
    have hlegal : (bootedKernel (fun _ => 0) sixMegabytes 0 0 fun _ => none).vmmState.Legal
      (.alloc 2) := trivial
    obtain ⟨k, hrun, hidle, hcached⟩ := hsound.runs_cached hl rfl hlegal hok hlt hpages
    obtain ⟨hused, hcurrent⟩ := no_stale_translation (fun _ => 0) sixMegabytes 0 0 (fun _ => none)
      habsent (fun _ _ => rfl) hrun
    exact ⟨k, hrun, hidle, start, hlt, _, hcached, hused start hlt _ hcached,
      hcurrent hidle start hlt _ hcached⟩

end Sapphire
