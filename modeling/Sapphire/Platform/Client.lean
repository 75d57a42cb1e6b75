import Sapphire.Platform.Run
import Sapphire.Vmm.Client

/-! The memory that `alloc_pages` gives out after `init_vmm`.  Where the bitmap of the virtual memory
manager lies in its own frames, the frames that are left are apart from all that the kernel keeps
in memory, and a client's bytes are its own. -/

namespace Sapphire

open Machine

section

variable (m : Mem) (mmap : MemoryMap) (framebuffer size : BitVec 32)

/-- The state after `init_vmm`, in which no client has stored anything. -/
def bootedClient : ClientState := ⟨booted m mmap framebuffer size, fun _ => none⟩

/-- The frames that are free after `init_vmm`. -/
theorem free_after_boot {f : Nat}
    (hf : f < (platformInit m mmap framebuffer size).vmm.fa.scanned)
    (hfree : (platformInit m mmap framebuffer size).vmm.fa.used
      (platformInit m mmap framebuffer size).mem f = false) :
    ∃ i, 20 ≤ i ∧ i < mmap.allocatable.length ∧ mmap.allocatable.getD i 0 = f := by
  have hmem := FrameAllocator.mem_freeFrames.mpr ⟨hf, hfree⟩
  rw [← booted_mem, booted_freeFrames, List.mem_drop_iff_getElem] at hmem
  obtain ⟨i, hi, rfl⟩ := hmem
  exact ⟨20 + i, by omega, by omega, List.getD_eq_getElem _ _ (by omega)⟩

/-- They are apart from what the kernel keeps in memory. -/
theorem platformInit_apart {mmap : MemoryMap} (hlen : 20 ≤ mmap.allocatable.length)
    (hcons : mmap.allocatable.getD 19 0 = mmap.allocatable.getD 16 0 + 3) :
    (platformInit m mmap framebuffer size).vmm.Apart (platformInit m mmap framebuffer size).mem := by
  intro f hf hfree
  obtain ⟨i, hi, hlt, rfl⟩ := free_after_boot m mmap framebuffer size hf hfree
  obtain ⟨hdir, htables, hbits⟩ := (spare_getD m mmap framebuffer size i).apart
    (platformInit_placed m mmap framebuffer size)
  have hpage : span (frameAddr (mmap.allocatable.getD i 0)) 4096 ⊆
      span (frameAddr (mmap.allocatable.getD i 0)) 0x4000 := span_mono (by decide)
  have hlater := getD_add_le mmap.allocatable_sorted (i := 19) (k := i - 19) (by omega)
  rw [show 19 + (i - 19) = i by omega] at hlater
  have h16 := (mmap.getD_allocatable (i := 16) (by omega)).2
  have hi20 := (mmap.getD_allocatable hlt).2
  have ha16 := toNat_frameAddr h16
  have hai := toNat_frameAddr hi20
  have hpageBits : Disjoint (span (frameAddr (mmap.allocatable.getD 16 0)) 0x4000)
      (span (frameAddr (mmap.allocatable.getD i 0)) 4096) :=
    disjoint_span (by omega) (by omega) (by omega)
  rw [VMM.own, VMM.pageBits, platformInit_vmm]
  simp only [Set.disjoint_union_left]
  exact ⟨⟨⟨htables.mono_right hpage, hbits.mono_right hpage⟩, hpageBits⟩, hdir.mono_right hpage⟩

/-- Where there are enough frames, the bitmap of the virtual memory manager lies in its own ones and
no page of the region is mapped after `init_vmm`, in every run of `alloc_pages` that gets all its
frames, `free_pages` of live pages and stores to live pages: an address holds the byte last stored
there since its page was allocated, no two addresses of live pages share a byte, and no byte of a
frame that was in use after `init_vmm` has changed, apart from the page tables and the two
bitmaps. -/
theorem client_memory_private {mmap : MemoryMap} (hlen : 20 ≤ mmap.allocatable.length)
    (hcons : mmap.allocatable.getD 19 0 = mmap.allocatable.getD 16 0 + 3)
    (habsent : ∀ i < 131072, present ((platformInit m mmap framebuffer size).vmm.pd.pte
      (platformInit m mmap framebuffer size).mem (0xD0000 + i)) = false)
    {s : ClientState} (hrun : ClientState.Runs (platformInit m mmap framebuffer size).vmm
      (bootedClient m mmap framebuffer size) s) :
    let b := platformInit m mmap framebuffer size
    (∀ x v, s.content x = some v → ∃ phys, b.vmm.pd.walk s.mem x = some phys ∧ s.mem phys = v) ∧
    (∀ x y, s.Live x → s.Live y → b.vmm.pd.walk s.mem x = b.vmm.pd.walk s.mem y → x = y) ∧
    ∀ x, b.vmm.fa.scanned ≤ x.toNat / 4096 ∨ b.vmm.fa.used b.mem (x.toNat / 4096) = true →
      x ∉ span pageTablesBase 0x400000 → x ∉ b.vmm.fa.bits → x ∉ span b.vmm.bitmap 0x4000 →
      s.mem x = b.mem x := by
  intro b
  have hl := platformInit_laid m mmap framebuffer size
  have hstart : b.vmm.Private b.mem (bootedClient m mmap framebuffer size) := by
    refine ⟨booted_consistent m mmap framebuffer size habsent, fun x v hx => ?_, fun x _ _ => ?_⟩
    · cases hx
    · exact congrFun (booted_mem m mmap framebuffer size) x
  have hp := hstart.run hl (platformInit_apart m framebuffer size hlen hcons) hrun
  have hc := hp.consistent
  refine ⟨fun x v hx => ?_, ?_, fun x hkept htables hbits hpages => hp.kernel x ?_ ?_⟩
  · obtain ⟨i, hi, hv, hbyte⟩ := hp.content x v hx
    exact ⟨_, hc.walk_eq hl hi hv, hbyte⟩
  · rintro x y ⟨i, hi, hxi⟩ ⟨j, hj, hyj⟩ heq
    rw [hc.walk_eq hl hi hxi, hc.walk_eq hl hj hyj, Option.some_inj] at heq
    exact hc.physical_inj hl hi hj hxi hyj heq
  · intro f hf hfree hx
    have hscanned := hl.scanned_le
    have haddr := toNat_frameAddr (f := f) (by omega)
    rw [mem_span_iff (by omega), haddr] at hx
    have hpage : x.toNat / 4096 = f := by omega
    rw [hpage, hfree] at hkept
    rcases hkept with hge | hused
    · exact absurd hf (Nat.not_lt.mpr hge)
    · cases hused
  · rintro ((hx | hx) | hx)
    · exact htables hx
    · exact hbits hx
    · exact hpages hx

end

/-- A byte stored in the first of two pages allocated after a boot with 6 MiB of memory. -/
theorem client_memory_private_sixMegabytes :
    let vmm := (platformInit (fun _ => 0) sixMegabytes 0 0).vmm
    ∃ s x, ClientState.Runs vmm (bootedClient (fun _ => 0) sixMegabytes 0 0) s ∧
      s.content x = some 0x5A ∧ ∃ phys, vmm.pd.walk s.mem x = some phys ∧ s.mem phys = 0x5A := by
  intro vmm
  have hl := platformInit_laid (fun _ => 0) sixMegabytes 0 0
  have hb := booted_tracks (fun _ => 0) sixMegabytes 0 0
  have habsent := fun i hi => absent_sixMegabytes (i := i) hi
  have hc := booted_consistent (fun _ => 0) sixMegabytes 0 0 habsent
  rcases VMM.apply_alloc_cases hl hb.wired 2 with
    ⟨hnone, -⟩ | ⟨start, -, hrange, hlive, hlog, -, -⟩
  · exact absurd hnone ((freeRange_booted _ _ _ _ (by decide)).not_none (by decide))
  have hok : vmm.NoZero (booted (fun _ => 0) sixMegabytes 0 0) (.alloc 2) := by
    rw [VMM.NoZero, hlog, freeFrames_sixMegabytes]
    decide
  have hend : start + 2 ≤ 131072 := hrange.1
  have hv := page_frameAddr (f := 0xD0000 + start) (by omega)
  have hmem := (VmmState.mem_pages_cons hlive).mpr (Or.inl ⟨le_refl start,
    Nat.lt_add_of_pos_right (show 0 < (2 : BitVec 32).toNat by decide)⟩)
  set s1 := (bootedClient (fun _ => 0) sixMegabytes 0 0).apply vmm (.call (.alloc 2)) with hs1
  set s2 := s1.apply vmm (.store (frameAddr (0xD0000 + start)) 0x5A) with hs2
  have hrun : ClientState.Runs vmm (bootedClient (fun _ => 0) sixMegabytes 0 0) s2 :=
    (Relation.ReflTransGen.single ⟨.call (.alloc 2), ⟨trivial, hok⟩, hs1⟩).tail
      ⟨.store (frameAddr (0xD0000 + start)) 0x5A, ⟨start, hmem, hv⟩, hs2⟩
  have hcontent : s2.content (frameAddr (0xD0000 + start)) = some 0x5A := by
    have hlegal : (booted (fun _ => 0) sixMegabytes 0 0).Legal (.alloc 2) := trivial
    have hwalk : vmm.pd.walk s1.mem (frameAddr (0xD0000 + start)) = some _ :=
      (hc.step hl hlegal hok).walk_eq hl hmem hv
    rw [hs2, ClientState.apply, hwalk]
    exact if_pos rfl
  exact ⟨s2, _, hrun, hcontent, (client_memory_private (fun _ => 0) 0 0
    length_allocatable_sixMegabytes bitmapFrames_sixMegabytes habsent hrun).1 _ _ hcontent⟩

end Sapphire
