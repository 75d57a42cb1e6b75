import Sapphire.Paging.Bootstrap
import Sapphire.Platform.Mappings

/-! `platform_init` builds the kernel's page tables while the processor runs on the bootstrap
directory, and then turns them on.  The stores go through the bootstrap directory's own map, so they
have to miss it and the kernel, and the instructions after each control register write are fetched
through the new tables. -/

namespace Sapphire

open Machine

/-- `init` stores in the directory and the page tables. -/
theorem PageDirectory.init_changesOnly (m : Mem) (dirAddr : BitVec 32) :
    ChangesOnly (span dirAddr 4096 ∪ span pageTablesBase 0x400000) m (init m dirAddr).2 := by
  set S := span dirAddr 4096 ∪ span pageTablesBase 0x400000
  have hdir : ChangesOnly S m (zeroMemory m dirAddr pageSize) := fun x hx => by
    rw [zeroMemory_apply]
    exact if_neg fun h => hx (Or.inl h)
  have htables : ChangesOnly S (zeroMemory m dirAddr pageSize) (zeroMemory
      (zeroMemory m dirAddr pageSize) pageTablesBase (pageTableCount * pageSize)) := fun x hx => by
    rw [zeroMemory_apply]
    exact if_neg fun h => hx (Or.inr h)
  refine (hdir.trans htables).trans ?_
  simp only [init]
  apply foldl_range_induct (fun _ t => ChangesOnly S (zeroMemory (zeroMemory m dirAddr pageSize)
    pageTablesBase (pageTableCount * pageSize)) t) (ChangesOnly.refl _ _)
  intro i hi t hc
  refine hc.trans ((Mem.changesOnly_store32 t (slot dirAddr i) _).mono fun x hx => Or.inl ?_)
  exact slot_subset (n := 1024) (by simpa using hi) (by decide) hx

section

variable (m : Mem) (mmap : MemoryMap) (framebuffer size : BitVec 32)

/-- So does all of the mapping before paging is handed over. -/
theorem bootMappings_changesOnly : ChangesOnly (span pgDir 4096 ∪ span pageTablesBase 0x400000) m
    (bootMappings m mmap framebuffer size).2 := by
  have h0 := PageDirectory.init_wired m pgDir (disjoint_span (by decide) (by decide) (by decide))
  have h1 := PageDirectory.mapRange_sets h0.1 kernelVma 0x00000000 0x00400000
  have h2 := PageDirectory.identityMapRange_sets h1.wired 0x00000000 0x00100000
  have h3 := PageDirectory.identityMapRange_sets h2.wired pageTablesBase
    (pageTablesBase + pageSize * pageTableCount)
  have h4 := PageDirectory.identityMapRange_sets h3.wired framebuffer (framebuffer + size)
  have h5 := (mmap.identityMapUsable_spec h4.wired).1.2
  exact (PageDirectory.init_changesOnly m pgDir).trans
    (((((h1.changes.trans h2.changes).trans h3.changes).trans h4.changes).trans h5).mono
      fun _ hx => Or.inr hx)

end

/-- Whatever the memory, the memory map and the framebuffer are, the first 8 MiB stay mapped to
themselves and the kernel's window to them from `bootstrap_paging` to the end of the mapping steps;
these store only in the new directory and its page tables, where addresses and physical addresses
are the same; and in each of the three states of `enable` the first 5 MiB are mapped to themselves,
and an address of the kernel's 4 MiB keeps its translation exactly when neither the usable memory nor
the framebuffer takes its page. -/
theorem paging_handover (c : PagingUnit) (mmap : MemoryMap) (framebuffer size : BitVec 32) :
    let c1 := bootstrapPaging c
    let b := bootMappings c1.mem mmap framebuffer size
    let c2 := { c1 with mem := b.2 }
    (∀ virt, c1.translate virt = Bootstrapped.map virt ∧ c2.translate virt = Bootstrapped.map virt) ∧
    (∀ x, b.2 x ≠ c1.mem x → c1.translate x = some x ∧
      (x ∈ span pgDir 4096 ∨ x ∈ span pageTablesBase 0x400000)) ∧
    (∀ c' ∈ b.1.enableStates c2, (∀ virt, c'.translate virt = b.1.walk b.2 virt) ∧
      ∀ virt : BitVec 32, virt.toNat < 0x500000 → c'.translate virt = some virt) ∧
    ∀ virt : BitVec 32, 0xC0000000 ≤ virt.toNat → virt.toNat < 0xC0400000 →
      ((∀ c' ∈ b.1.enableStates c2, c'.translate virt = some (virt - 0xC0000000)) ↔
        ¬ SelfMapped mmap framebuffer size (virt.toNat / 4096)) := by
  intro c1 b c2
  have h1 := bootstrapPaging_bootstrapped c
  have hchanges := bootMappings_changesOnly c1.mem mmap framebuffer size
  have h2 : Bootstrapped c2 := h1.of_changesOnly hchanges (Set.disjoint_union_right.mpr
    ⟨disjoint_span (by decide) (by decide) (by decide),
      disjoint_span (by decide) (by decide) (by decide)⟩)
  have hw := (bootMappings_spec c1.mem mmap framebuffer size).1
  have haligned : b.1.entries &&& ~~~0xFFF#32 = b.1.entries := by
    rw [show b.1.entries = pgDir from rfl]
    decide
  have hstates : ∀ c' ∈ b.1.enableStates c2, ∀ virt, c'.translate virt = b.1.walk b.2 virt := by
    intro c' hc' virt
    simp only [PageDirectory.enableStates, List.mem_cons, List.not_mem_nil, or_false] at hc'
    have hpg := or_and_ne_zero c2.cr0 (b := cr0Pg) (by decide)
    rcases hc' with rfl | rfl | rfl
    · exact hw.translate_eq (c := b.1.writeCr3 c2) h2.pg rfl haligned virt
    · exact hw.translate_eq (c := PageDirectory.writeCr0 (b.1.writeCr3 c2)) hpg rfl haligned virt
    · exact hw.translate_eq (c := b.1.enable c2) hpg rfl haligned virt
  have hframe := fun virt : BitVec 32 => bootMappings_frame c1.mem mmap framebuffer size
    (p := virt.toNat / 4096) (by have := virt.isLt; omega)
  refine ⟨fun virt => ⟨h1.translate_eq virt, h2.translate_eq virt⟩, fun x hx => ?_,
    fun c' hc' => ⟨hstates c' hc', fun virt hlt => ?_⟩, fun virt hlo hhi => ?_⟩
  · have hin : x ∈ span pgDir 4096 ∪ span pageTablesBase 0x400000 := by
      by_contra hout
      exact hx (hchanges x hout)
    refine ⟨?_, hin⟩
    rw [h1.translate_eq, Bootstrapped.map, if_pos]
    rcases hin with hin | hin
    · rw [mem_span_iff (by decide)] at hin
      simp at hin
      omega
    · rw [mem_span_iff (by decide)] at hin
      simp at hin
      omega
  · rw [hstates c' hc']
    have hself := hframe virt
    rw [if_pos (Or.inr (by omega))] at hself
    exact hw.walk_self hself
  · constructor
    · intro hkept hself
      have hlast := hkept (b.1.enable c2) (by simp [PageDirectory.enableStates])
      have hmap := hframe virt
      rw [if_pos (Or.inl hself)] at hmap
      rw [hstates _ (by simp [PageDirectory.enableStates]), hw.walk_self hmap,
        Option.some_inj] at hlast
      bv_omega
    · intro hclear c' hc'
      have hmap := hframe virt
      rw [if_neg (not_or.mpr ⟨hclear, by omega⟩), if_pos (by omega)] at hmap
      rw [hstates c' hc', hw.walk_eq, hmap, Option.map_some, Option.some_inj]
      bv_omega

/-! ### After the handover -/

/-- The memory that the memory subsystems read and write through physical addresses: the page
directory and the page tables in the first 5 MiB, the bitmaps and the heap. -/
def Platform.Uses (b : Platform) (x : BitVec 32) : Prop :=
  x.toNat < 0x500000 ∨ x ∈ span b.fa.bitmap b.fa.bitmapSize.toNat ∨
    x ∈ span b.heap.head b.heap.totalSize.toNat ∨ x ∈ span b.vmm.bitmap 0x4000

theorem MemoryMap.Covered.lt_last {mmap : MemoryMap} {p : Nat} (h : mmap.Covered p) :
    p < 0xFFFFF := by
  obtain ⟨e, -, -, -, hlast⟩ := h
  rw [endPage] at hlast
  split at hlast <;> omega

theorem MemoryMap.getD_allocatable_lt_last {mmap : MemoryMap} {i : Nat}
    (hi : i < mmap.allocatable.length) : mmap.allocatable.getD i 0 < 0xFFFFF := by
  have hmem := List.getElem_mem hi
  rw [List.getD_eq_getElem _ _ hi]
  exact (of_decide_eq_true (List.mem_filter.mp hmem).2).2.lt_last

theorem MemoryMap.reservedEnd_le {mmap : MemoryMap} {i : Nat} (hi : i < mmap.allocatable.length) :
    mmap.reservedEnd ≤ 4096 * mmap.allocatable.getD i 0 := by
  have hmem := List.getElem_mem hi
  rw [List.getD_eq_getElem _ _ hi]
  exact (of_decide_eq_true (List.mem_filter.mp hmem).2).1

section

variable (l : Locals) (m : Mem) {mmap : MemoryMap} (framebuffer size : BitVec 32)

/-- Where the boot leaves the region unmapped, a page that it maps to itself stays so in every
run. -/
theorem run_walk_self
    (habsent : ∀ i < 131072, present ((platformInit m mmap framebuffer size).vmm.pd.pte
      (platformInit m mmap framebuffer size).mem (0xD0000 + i)) = false)
    {ok : VmmState → VmmOp → Prop} {s : VmmState}
    (hrun : AliveRuns l m mmap framebuffer size ok (vmmReady l m mmap framebuffer size) s)
    {x : BitVec 32}
    (hself : mmap.InitMaps (x.toNat / 4096) ∨ SelfMapped mmap framebuffer size (x.toNat / 4096) ∨
      x.toNat / 4096 < 0x500) :
    (platformInit m mmap framebuffer size).vmm.pd.walk s.mem x = some x := by
  have hp : x.toNat / 4096 < 2 ^ 20 := by
    have := x.isLt
    omega
  have hpte := platformInit_pte m mmap framebuffer size hp
  have hspec := (bootMappings_spec m mmap framebuffer size).2 _ hp
  have hmapped : (platformInit m mmap framebuffer size).pd.pte
      (platformInit m mmap framebuffer size).mem (x.toNat / 4096) =
        mapped (BitVec.ofNat 32 (4096 * (x.toNat / 4096))) := by
    rw [hpte]
    split
    · rfl
    · rename_i hnot
      rcases hself.resolve_left hnot with (hcov | hfb) | hlow
      · rw [hspec, if_pos (Or.inl hcov)]
      · rw [hspec, if_pos (Or.inr (Or.inr hfb))]
      · rw [hspec, if_pos (Or.inr (Or.inl hlow))]
  have hout : ¬ (0xD0000 ≤ x.toNat / 4096 ∧ x.toNat / 4096 < 0xF0000) := by
    rintro ⟨h1, h2⟩
    have hnone := habsent (x.toNat / 4096 - 0xD0000) (by omega)
    rw [platformInit_vmm_pd, show 0xD0000 + (x.toNat / 4096 - 0xD0000) = x.toNat / 4096 by omega,
      hmapped, present_mapped] at hnone
    cases hnone
  have hkept := aliveRuns_pte_outside l m mmap framebuffer size hrun hp hout
  rw [platformInit_vmm_pd, hmapped] at hkept
  have hw := (aliveRuns_tracks l m mmap framebuffer size hrun).wired
  rw [platformInit_vmm_pd] at hw ⊢
  exact hw.walk_self (PageDirectory.frame_of_mapped hp hkept)

/-- The pages of the heap and of the bitmap of the region are among those that their `init` maps. -/
theorem initMaps_of_uses (hlen : 20 ≤ mmap.allocatable.length) {x : BitVec 32}
    (hx : x ∈ span (platformInit m mmap framebuffer size).heap.head
        (platformInit m mmap framebuffer size).heap.totalSize.toNat ∨
      x ∈ span (platformInit m mmap framebuffer size).vmm.bitmap 0x4000) :
    mmap.InitMaps (x.toNat / 4096) := by
  have h15 := mmap.getD_allocatable_lt_last (i := 15) (by omega)
  have h19 := mmap.getD_allocatable_lt_last (i := 19) (by omega)
  have hheap : mmap.allocatable.getD 0 0 + 15 ≤ mmap.allocatable.getD 15 0 :=
    getD_add_le mmap.allocatable_sorted (i := 0) (k := 15) (by omega)
  have hvmm : mmap.allocatable.getD 16 0 + 3 ≤ mmap.allocatable.getD 19 0 :=
    getD_add_le mmap.allocatable_sorted (i := 16) (k := 3) (by omega)
  have ha0 := toNat_frameAddr (f := mmap.allocatable.getD 0 0) (by omega)
  have ha15 := toNat_frameAddr (f := mmap.allocatable.getD 15 0) (by omega)
  have ha16 := toNat_frameAddr (f := mmap.allocatable.getD 16 0) (by omega)
  rcases hx with hx | hx
  · rw [platformInit_heap] at hx
    dsimp only at hx
    have hend : (frameAddr (mmap.allocatable.getD 15 0) + pageSize).toNat =
        4096 * mmap.allocatable.getD 15 0 + 4096 := by bv_omega
    refine Or.inl ⟨?_, ?_⟩
    · rw [mem_span] at hx
      bv_omega
    · rw [endPage, if_pos (by omega), hend]
      rw [mem_span] at hx
      bv_omega
  · rw [platformInit_vmm] at hx
    dsimp only at hx
    have hend : (frameAddr (mmap.allocatable.getD 16 0) + 0x4000).toNat =
        4096 * mmap.allocatable.getD 16 0 + 0x4000 := by bv_omega
    rw [mem_span_iff (by omega), ha16] at hx
    refine Or.inr ⟨by omega, ?_⟩
    rw [endPage, if_pos (by omega), hend]
    omega

/-- With 20 frames that can be allocated, and where the boot maps no page of the region of the virtual
memory manager, what the memory subsystems read and write is at its own physical address in every
state of every run of `kmalloc_pages` and `kfree_pages` that find the locals of `platform_init`
alive, exactly when the usable memory or the framebuffer covers the frame bitmap at `0x500000`. -/
theorem subsystems_reachable_iff (hlen : 20 ≤ mmap.allocatable.length)
    (habsent : ∀ i < 131072, present ((platformInit m mmap framebuffer size).vmm.pd.pte
      (platformInit m mmap framebuffer size).mem (0xD0000 + i)) = false) :
    let b := platformInit m mmap framebuffer size
    (∀ s, AliveRuns l m mmap framebuffer size (fun _ _ => True)
        (vmmReady l m mmap framebuffer size) s →
      ∀ x, b.Uses x → b.vmm.pd.walk s.mem x = some x) ↔
    ∀ p, 0x500 ≤ p → p < b.fa.reserved → SelfMapped mmap framebuffer size p := by
  intro b
  have hplaced := platformInit_placed m mmap framebuffer size
  have hbitmap : b.fa.bitmap.toNat = 0x500000 := congrArg BitVec.toNat hplaced.bitmap
  have hsize : b.fa.bitmapSize.toNat ≤ 2 ^ 17 := hplaced.size
  have hres : ∀ p, p < b.fa.reserved ↔ 4096 * p < 0x500000 + b.fa.bitmapSize.toNat := fun p =>
    FrameAllocator.lt_reserved_iff
  constructor
  · intro hall p hlo hhi
    have hlt := (hres p).mp hhi
    have haddr := toNat_frameAddr (f := p) (by omega)
    have hpage := page_frameAddr (f := p) (by omega)
    have hwalk := hall _ .refl (frameAddr p) (Or.inr (Or.inl (by
      rw [mem_span_iff (by omega)]
      omega)))
    have hw := (vmmReady_tracks l m mmap framebuffer size).wired
    rw [platformInit_vmm_pd] at hw
    rw [platformInit_vmm_pd, hw.walk_eq, hpage, Option.map_eq_some_iff] at hwalk
    obtain ⟨f, hf, -⟩ := hwalk
    by_contra hnot
    have hframe := bootMappings_frame m mmap framebuffer size (p := p) (by omega)
    rw [if_neg (not_or.mpr ⟨hnot, by omega⟩), if_neg (by omega)] at hframe
    have hinit : ¬ mmap.InitMaps p := by
      -- the frames that can be allocated come after the bitmap
      have h0 := mmap.reservedEnd_le (i := 0) (by omega)
      have h16 := mmap.reservedEnd_le (i := 16) (by omega)
      have hend : mmap.reservedEnd = 0x500000 + b.fa.bitmapSize.toNat := by
        have hbytes := FrameAllocator.toNat_bitmapSize
          (bootMappings m mmap framebuffer size).2 mmap
        rw [MemoryMap.reservedEnd, ← hbytes]
        rfl
      rintro (⟨h, -⟩ | ⟨h, -⟩) <;> omega
    have hpte := vmmReady_pte l m mmap framebuffer size (p := p) (by omega)
    rw [platformInit_vmm_pd, platformInit_pte m mmap framebuffer size (by omega), if_neg hinit]
      at hpte
    have hnone : (bootMappings m mmap framebuffer size).1.frame _ p = _ :=
      PageDirectory.frame_congr hpte
    rw [hframe] at hnone
    exact absurd (hf.symm.trans hnone) (by simp)
  · intro hcovered s hrun x hx
    refine run_walk_self l m framebuffer size habsent hrun ?_
    rcases hx with hlow | hbits | hrest
    · exact Or.inr (Or.inr (by omega))
    · rw [mem_span_iff (by omega)] at hbits
      exact Or.inr (Or.inl (hcovered _ (by omega) ((hres _).mpr (by omega))))
    · exact Or.inl (initMaps_of_uses m framebuffer size hlen hrest)

end

/-- With 6 MiB of memory the bitmap is covered, and everything is in reach after the test. -/
theorem subsystems_reachable_sixMegabytes :
    let b := platformInit (fun _ => 0) sixMegabytes 0 0
    ∀ x, b.Uses x → b.vmm.pd.walk
      (tested stackLocals (fun _ => 0) sixMegabytes 0 0).mem x = some x := by
  intro b
  have hrun := (tested_sixMegabytes stackLocals (fun _ => 0) 0 0).1
  refine (subsystems_reachable_iff stackLocals (fun _ => 0) 0 0 length_allocatable_sixMegabytes
    fun i hi => absent_sixMegabytes hi).mpr (fun p _ hp => Or.inl ?_) _
    (hrun.mono fun _ _ _ => trivial)
  have hres : b.fa.reserved = 0x501 := reserved_sixMegabytes
    (bootMappings (fun _ => 0) sixMegabytes 0 0).2
  rw [hres] at hp
  rw [covered_sixMegabytes]
  omega

end Sapphire
