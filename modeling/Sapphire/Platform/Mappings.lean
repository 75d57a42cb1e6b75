import Sapphire.Paging.Walk
import Sapphire.Platform.Locals

/-! What the processor finds in the page tables that the boot turns on, and whether later mappings
change it.  A mapping replaces an earlier one of the same page, so the framebuffer and the usable
memory take pages of the kernel's window where they reach into it, and the virtual memory manager
takes every page of its region. -/

namespace Sapphire

open Machine PageDirectory

section

variable (m : Mem) (mmap : MemoryMap) (framebuffer size : BitVec 32)

/-- Page `p` is one that the boot maps to itself for the usable memory or the framebuffer. -/
def SelfMapped (p : Nat) : Prop :=
  mmap.Covered p ∨ framebuffer.toNat / 4096 ≤ p ∧ p < endPage (framebuffer + size)

instance (p : Nat) : Decidable (SelfMapped mmap framebuffer size p) :=
  inferInstanceAs (Decidable (_ ∨ _))

/-- The frame of a page before paging is turned on. -/
theorem bootMappings_frame {p : Nat} (hp : p < 2 ^ 20) :
    (bootMappings m mmap framebuffer size).1.frame (bootMappings m mmap framebuffer size).2 p =
      if SelfMapped mmap framebuffer size p ∨ p < 0x500 then some p
      else if 0xC0000 ≤ p ∧ p < 0xC0400 then some (p - 0xC0000) else none := by
  have hpte := (bootMappings_spec m mmap framebuffer size).2 p hp
  have hiff : (mmap.Covered p ∨ p < 0x500 ∨
      framebuffer.toNat / 4096 ≤ p ∧ p < endPage (framebuffer + size)) ↔
      (SelfMapped mmap framebuffer size p ∨ p < 0x500) := by
    rw [SelfMapped]
    tauto
  rw [if_congr hiff rfl rfl] at hpte
  by_cases hself : SelfMapped mmap framebuffer size p ∨ p < 0x500
  · rw [if_pos hself] at hpte ⊢
    exact frame_of_mapped hp hpte
  · rw [if_neg hself] at hpte ⊢
    by_cases hwindow : 0xC0000 ≤ p ∧ p < 0xC0400
    · rw [if_pos hwindow] at hpte ⊢
      exact frame_of_mapped (by omega) hpte
    · rw [if_neg hwindow] at hpte ⊢
      exact frame_of_zero hpte

end

/-! ### The kernel's window -/

/-- The kernel's window is mapped to the first 4 MiB, and the first 5 MiB to themselves. -/
structure KernelMapped (pd : PageDirectory) (m : Mem) : Prop where
  window : ∀ virt : BitVec 32, 0xC0000000 ≤ virt.toNat → virt.toNat < 0xC0400000 →
    pd.walk m virt = some (virt - 0xC0000000)
  low : ∀ virt : BitVec 32, virt.toNat < 0x500000 → pd.walk m virt = some virt

section

variable (m : Mem) (mmap : MemoryMap) (framebuffer size : BitVec 32)

/-- A page of the window that is mapped to itself is not mapped as the kernel needs it. -/
theorem not_selfMapped_of_kernelMapped
    (h : KernelMapped (bootMappings m mmap framebuffer size).1
      (bootMappings m mmap framebuffer size).2) {p : Nat} (h1 : 0xC0000 ≤ p) (h2 : p < 0xC0400) :
    ¬ SelfMapped mmap framebuffer size p := by
  intro hself
  have hw := (bootMappings_spec m mmap framebuffer size).1
  have hnum := toNat_mul_pageSize (p := p) (by omega)
  have hpage := page_mul_pageSize (p := p) (by omega)
  have hframe := bootMappings_frame m mmap framebuffer size (p := p) (by omega)
  rw [if_pos (Or.inl hself)] at hframe
  have hwalk := h.window (BitVec.ofNat 32 (4096 * p)) (by omega) (by omega)
  rw [hw.walk_self (by rw [hpage]; exact hframe), Option.some_inj] at hwalk
  bv_omega

end

/-- The page tables that the boot turns on map the kernel exactly when neither the usable memory nor
the framebuffer, rounded to pages, reaches into the kernel's window. -/
theorem kernelMapped_iff (m : Mem) (mmap : MemoryMap) (framebuffer size : BitVec 32) :
    KernelMapped (bootMappings m mmap framebuffer size).1
      (bootMappings m mmap framebuffer size).2 ↔
    ∀ p, 0xC0000 ≤ p → p < 0xC0400 → ¬ SelfMapped mmap framebuffer size p := by
  have hw := (bootMappings_spec m mmap framebuffer size).1
  constructor
  · intro h p h1 h2
    exact not_selfMapped_of_kernelMapped m mmap framebuffer size h h1 h2
  · intro hclear
    refine ⟨fun virt h1 h2 => ?_, fun virt hlt => ?_⟩
    · have hframe := bootMappings_frame m mmap framebuffer size (p := virt.toNat / 4096) (by omega)
      rw [if_neg (not_or.mpr ⟨hclear _ (by omega) (by omega), by omega⟩), if_pos (by omega)]
        at hframe
      rw [hw.walk_eq, hframe, Option.map_some, Option.some_inj]
      bv_omega
    · have hframe := bootMappings_frame m mmap framebuffer size (p := virt.toNat / 4096) (by omega)
      rw [if_pos (Or.inr (by omega))] at hframe
      exact hw.walk_self hframe

/-- Memory from 1 MiB to 3.25 GiB. -/
def threeGigabytes : MemoryMap := ⟨[⟨0x100000, 0xCFF00000, 1⟩]⟩

/-- With 3.25 GiB of memory the kernel's pages are mapped to memory that does not hold them. -/
theorem kernelMapped_threeGigabytes :
    ¬ KernelMapped (bootMappings (fun _ => 0) threeGigabytes 0xFD000000 0x300000).1
      (bootMappings (fun _ => 0) threeGigabytes 0xFD000000 0x300000).2 := by
  intro h
  refine not_selfMapped_of_kernelMapped _ _ _ _ h (p := 0xC0000) (by decide) (by decide) ?_
  decide

/-! ### Mappings after `init_vmm` -/

/-- Page `p` is one that `Heap::init` or `VMM::init` maps to itself. -/
def MemoryMap.InitMaps (mmap : MemoryMap) (p : Nat) : Prop :=
  mmap.allocatable.getD 0 0 ≤ p ∧ p < endPage (frameAddr (mmap.allocatable.getD 15 0) + pageSize) ∨
    mmap.allocatable.getD 16 0 ≤ p ∧ p < endPage (frameAddr (mmap.allocatable.getD 16 0) + 0x4000)

instance (mmap : MemoryMap) (p : Nat) : Decidable (mmap.InitMaps p) :=
  inferInstanceAs (Decidable (_ ∨ _))

theorem MemoryMap.toNat_getD_allocatable (mmap : MemoryMap) (i : Nat) :
    (frameAddr (mmap.allocatable.getD i 0)).toNat / 4096 = mmap.allocatable.getD i 0 := by
  refine page_frameAddr ?_
  by_cases hi : i < mmap.allocatable.length
  · exact (mmap.getD_allocatable hi).2
  · rw [List.getD_eq_default _ _ (by omega)]
    decide

section

variable (m : Mem) (mmap : MemoryMap) (framebuffer size : BitVec 32)

/-- A page after `init_vmm` is mapped as it was when paging was turned on, or to itself. -/
theorem platformInit_pte {p : Nat} (hp : p < 2 ^ 20) :
    (platformInit m mmap framebuffer size).pd.pte (platformInit m mmap framebuffer size).mem p =
      if mmap.InitMaps p then mapped (BitVec.ofNat 32 (4096 * p))
      else (bootMappings m mmap framebuffer size).1.pte
        (bootMappings m mmap framebuffer size).2 p := by
  have hvmm := (platformInit_takes m mmap framebuffer size).pte p hp
  have hheap := (heapReady_takes m mmap framebuffer size).pte p hp
  rw [mmap.toNat_getD_allocatable, framesReady_pte m mmap framebuffer size hp] at hheap
  rw [mmap.toNat_getD_allocatable, hheap] at hvmm
  rw [hvmm]
  by_cases hbitmap : mmap.allocatable.getD 16 0 ≤ p ∧
      p < endPage (frameAddr (mmap.allocatable.getD 16 0) + 0x4000)
  · have hmaps : mmap.InitMaps p := Or.inr hbitmap
    rw [if_pos hbitmap, if_pos hmaps]
  · rw [if_neg hbitmap]
    refine if_congr ?_ rfl rfl
    rw [MemoryMap.InitMaps, or_iff_left hbitmap]

/-- The addresses that were mapped when paging was turned on translate as they did then. -/
def KeepsMappings (m' : Mem) : Prop :=
  ∀ virt phys, (bootMappings m mmap framebuffer size).1.walk
      (bootMappings m mmap framebuffer size).2 virt = some phys →
    (bootMappings m mmap framebuffer size).1.walk m' virt = some phys

/-- They do where their pages keep their frames. -/
theorem keepsMappings_iff {m' : Mem} (hw : (bootMappings m mmap framebuffer size).1.Wired m') :
    KeepsMappings m mmap framebuffer size m' ↔ ∀ p < 2 ^ 20, ∀ f,
      (bootMappings m mmap framebuffer size).1.frame (bootMappings m mmap framebuffer size).2 p =
        some f → (bootMappings m mmap framebuffer size).1.frame m' p = some f := by
  have hw0 := (bootMappings_spec m mmap framebuffer size).1
  constructor
  · intro h p hp f hf
    have hnum := toNat_mul_pageSize hp
    have hpage := page_mul_pageSize hp
    have hoffset : (BitVec.ofNat 32 (4096 * p)).toNat % 4096 = 0 := by
      rw [hnum, Nat.mul_mod_right]
    have hwalk := h (BitVec.ofNat 32 (4096 * p)) (BitVec.ofNat 32 (4096 * f))
    rw [hw0.walk_eq, hw.walk_eq, hpage, hoffset, hf] at hwalk
    obtain ⟨g, hg, heq⟩ := Option.map_eq_some_iff.mp (hwalk rfl)
    have hflt := toNat_mul_pageSize (frame_lt hf)
    have hglt := toNat_mul_pageSize (frame_lt hg)
    have hnat := congrArg BitVec.toNat heq
    rw [Nat.add_zero, hflt, hglt] at hnat
    rw [hg, show g = f by omega]
  · intro h virt phys hwalk
    have hv := virt.isLt
    rw [hw0.walk_eq, Option.map_eq_some_iff] at hwalk
    obtain ⟨f, hf, rfl⟩ := hwalk
    rw [hw.walk_eq, h _ (by omega) f hf, Option.map_some]

/-- A page that the boot maps to itself is not mapped so where its entry is another. -/
theorem not_keepsMappings {s : VmmState}
    (ht : (platformInit m mmap framebuffer size).vmm.Tracks s) {p : Nat} (hp : p < 2 ^ 20)
    (hself : SelfMapped mmap framebuffer size p)
    (hlost : (bootMappings m mmap framebuffer size).1.frame s.mem p ≠ some p) :
    ¬ KeepsMappings m mmap framebuffer size s.mem := by
  intro hkeeps
  have hw := ht.wired
  rw [platformInit_vmm_pd] at hw
  have hframe := bootMappings_frame m mmap framebuffer size hp
  rw [if_pos (Or.inl hself)] at hframe
  exact hlost ((keepsMappings_iff m mmap framebuffer size hw).mp hkeeps p hp p hframe)

end

section

variable (l : Locals) (m : Mem) (mmap : MemoryMap) (framebuffer size : BitVec 32)

/-- Allocating all of the region and freeing it again unmaps all of it. -/
theorem region_unmapped : ∃ s, AliveRuns l m mmap framebuffer size VMM.FreesWhole
      (vmmReady l m mmap framebuffer size) s ∧
    ∀ p, 0xD0000 ≤ p → p < 0xF0000 →
      (platformInit m mmap framebuffer size).vmm.pd.pte s.mem p = 0 := by
  set vmm := (platformInit m mmap framebuffer size).vmm
  have hl : vmm.Laid := platformInit_laid m mmap framebuffer size
  have ht := vmmReady_tracks l m mmap framebuffer size
  have hcount : (131072 : BitVec 32).toNat = 131072 := rfl
  have hall : vmm.Leftmost (vmmReady l m mmap framebuffer size).mem (131072 : BitVec 32).toNat 0 :=
    ht.leftmost (by omega) (by omega) (fun i _ _ => List.not_mem_nil) (fun i hi => by omega)
  obtain ⟨hlive, -⟩ := VMM.apply_alloc_of_leftmost hl ht.wired (by decide) hall
  obtain ⟨hlegal, hwhole⟩ := VMM.free_fresh hlive (by omega) (by omega)
  have hstart : VmmState.Runs vmm VMM.FreesWhole (vmmReady l m mmap framebuffer size)
      (vmmReady l m mmap framebuffer size) := .refl
  have hfirst : (vmmReady l m mmap framebuffer size).Legal (.alloc 131072) := trivial
  have hcalls := (hstart.step hfirst trivial).step hlegal hwhole
  refine ⟨_, (KernelVmm.runs_of_calls hl (objects_apart_own l m mmap framebuffer size) ht
    (vmmReady_pointsTo l m mmap framebuffer size) hcalls).1, fun p h1 h2 => ?_⟩
  rcases VMM.apply_free_cases hl (ht.alloc hl 131072) hlegal with
    ⟨h0, -⟩ | ⟨first, -, hend, -, -, hrel, -⟩
  · omega
  · rw [hrel.pte p (by omega), if_pos (by omega)]

/-- A run keeps the mappings only if the boot maps no page of the region. -/
theorem not_selfMapped_of_keepsMappings
    (h : ∀ s, AliveRuns l m mmap framebuffer size VMM.FreesWhole
      (vmmReady l m mmap framebuffer size) s → KeepsMappings m mmap framebuffer size s.mem)
    {p : Nat} (h1 : 0xD0000 ≤ p) (h2 : p < 0xF0000) : ¬ SelfMapped mmap framebuffer size p := by
  intro hself
  obtain ⟨s, hrun, hzero⟩ := region_unmapped l m mmap framebuffer size
  have hpte := hzero p h1 h2
  rw [platformInit_vmm_pd] at hpte
  have hnone : (bootMappings m mmap framebuffer size).1.frame s.mem p = none := frame_of_zero hpte
  refine not_keepsMappings m mmap framebuffer size (aliveRuns_tracks l m mmap framebuffer size hrun)
    (by omega) hself ?_ (h s hrun)
  rw [hnone]
  exact Option.some_ne_none p |>.symm

/-- Nor do `Heap::init` and `VMM::init` then map a page of the kernel's window. -/
theorem not_initMaps_of_keepsMappings
    (h : KeepsMappings m mmap framebuffer size (vmmReady l m mmap framebuffer size).mem)
    {p : Nat} (h1 : 0xC0000 ≤ p) (h2 : p < 0xC0400) (hself : ¬ SelfMapped mmap framebuffer size p) :
    ¬ mmap.InitMaps p := by
  intro hmaps
  have hw := (vmmReady_tracks l m mmap framebuffer size).wired
  have hpte := vmmReady_pte l m mmap framebuffer size (p := p) (by omega)
  rw [platformInit_vmm_pd] at hw hpte
  rw [platformInit_pte m mmap framebuffer size (by omega), if_pos hmaps] at hpte
  have hframe := bootMappings_frame m mmap framebuffer size (p := p) (by omega)
  rw [if_neg (not_or.mpr ⟨hself, by omega⟩), if_pos ⟨h1, h2⟩] at hframe
  have hkept := (keepsMappings_iff m mmap framebuffer size hw).mp h p (by omega) _ hframe
  have hnew : (bootMappings m mmap framebuffer size).1.frame
      (vmmReady l m mmap framebuffer size).mem p = some p := frame_of_mapped (by omega) hpte
  rw [hnew, Option.some_inj] at hkept
  omega

/-- Every run keeps the mappings that the two conditions leave alone. -/
theorem keepsMappings_of_runs {ok : VmmState → VmmOp → Prop}
    (hregion : ∀ p, 0xD0000 ≤ p → p < 0xF0000 → ¬ SelfMapped mmap framebuffer size p)
    (hwindow : ∀ p, 0xC0000 ≤ p → p < 0xC0400 → ¬ SelfMapped mmap framebuffer size p →
      ¬ mmap.InitMaps p) {s : VmmState}
    (hrun : AliveRuns l m mmap framebuffer size ok (vmmReady l m mmap framebuffer size) s) :
    KeepsMappings m mmap framebuffer size s.mem := by
  have hw := (aliveRuns_tracks l m mmap framebuffer size hrun).wired
  rw [platformInit_vmm_pd] at hw
  refine (keepsMappings_iff m mmap framebuffer size hw).mpr fun p hp f hf => ?_
  have hframe := bootMappings_frame m mmap framebuffer size hp
  have hout : ¬ (0xD0000 ≤ p ∧ p < 0xF0000) := by
    rintro ⟨h1, h2⟩
    rw [if_neg (not_or.mpr ⟨hregion p h1 h2, by omega⟩), if_neg (by omega), hf] at hframe
    cases hframe
  have hkept := aliveRuns_pte_outside l m mmap framebuffer size hrun hp hout
  rw [platformInit_vmm_pd, platformInit_pte m mmap framebuffer size hp] at hkept
  by_cases hmaps : mmap.InitMaps p
  · rw [if_pos hmaps] at hkept
    have hnew : (bootMappings m mmap framebuffer size).1.frame s.mem p = some p :=
      frame_of_mapped hp hkept
    have hself : SelfMapped mmap framebuffer size p ∨ p < 0x500 := by
      by_contra hnot
      rw [if_neg hnot] at hframe
      by_cases hin : 0xC0000 ≤ p ∧ p < 0xC0400
      · exact hwindow p hin.1 hin.2 (fun hs => hnot (Or.inl hs)) hmaps
      · rw [if_neg hin, hf] at hframe
        cases hframe
    rw [if_pos hself, hf] at hframe
    rw [hnew, hframe]
  · rw [if_neg hmaps] at hkept
    have hold : (bootMappings m mmap framebuffer size).1.frame s.mem p =
        (bootMappings m mmap framebuffer size).1.frame
          (bootMappings m mmap framebuffer size).2 p := frame_congr hkept
    rw [hold, hf]

end

/-- In every run of `kmalloc_pages` and of `kfree_pages` on live allocations, as long as the locals of
`platform_init` are alive, the addresses that were mapped when paging was turned on keep their
translations, exactly when neither the usable memory nor the framebuffer reaches into the region of
the virtual memory manager, and the frames that the heap and its bitmap span do not reach into the
kernel's window. -/
theorem boot_mappings_kept_iff (l : Locals) (m : Mem) (mmap : MemoryMap)
    (framebuffer size : BitVec 32) :
    (∀ s, AliveRuns l m mmap framebuffer size VMM.FreesWhole
      (vmmReady l m mmap framebuffer size) s → KeepsMappings m mmap framebuffer size s.mem) ↔
    (∀ p, 0xD0000 ≤ p → p < 0xF0000 → ¬ SelfMapped mmap framebuffer size p) ∧
      ∀ p, 0xC0000 ≤ p → p < 0xC0400 → ¬ SelfMapped mmap framebuffer size p →
        ¬ mmap.InitMaps p := by
  constructor
  · intro h
    have hready := h _ .refl
    exact ⟨fun p h1 h2 => not_selfMapped_of_keepsMappings l m mmap framebuffer size h h1 h2,
      fun p h1 h2 hself =>
        not_initMaps_of_keepsMappings l m mmap framebuffer size hready h1 h2 hself⟩
  · rintro ⟨hregion, hwindow⟩ s hrun
    exact keepsMappings_of_runs l m mmap framebuffer size hregion hwindow hrun

/-- With a framebuffer at `0xE0000000`, allocating 65536 pages after the test takes its first
page. -/
theorem boot_mappings_framebuffer :
    ¬ ∀ s, AliveRuns stackLocals (fun _ => 0) sixMegabytes 0xE0000000 0x300000 VMM.FreesWhole
        (tested stackLocals (fun _ => 0) sixMegabytes 0xE0000000 0x300000) s →
      KeepsMappings (fun _ => 0) sixMegabytes 0xE0000000 0x300000 s.mem := by
  intro h
  set vmm := (platformInit (fun _ => 0) sixMegabytes 0xE0000000 0x300000).vmm
  have hl : vmm.Laid := platformInit_laid (fun _ => 0) sixMegabytes 0xE0000000 0x300000
  have hd := objects_apart_own stackLocals (fun _ => 0) sixMegabytes 0xE0000000 0x300000
  obtain ⟨hrun, halive, hpages⟩ :=
    tested_sixMegabytes stackLocals (fun _ => 0) 0xE0000000 0x300000
  have ht := aliveRuns_tracks stackLocals (fun _ => 0) sixMegabytes 0xE0000000 0x300000 hrun
  set s := tested stackLocals (fun _ => 0) sixMegabytes 0xE0000000 0x300000
  have hcount : (65536 : BitVec 32).toNat = 65536 := rfl
  have hleft : vmm.Leftmost s.mem (65536 : BitVec 32).toNat 5 :=
    ht.leftmost (by omega) (by omega) (fun i h1 _ => by simp [hpages]; omega)
      (fun i hi => (hpages i).mpr hi)
  obtain ⟨⟨ht', -⟩, -, hb⟩ :=
    KernelVmm.Sound.call_alloc hl hd ⟨ht, halive⟩ (by decide) hleft
  have hlegal : s.Legal (.alloc 65536) := trivial
  refine not_keepsMappings (fun _ => 0) sixMegabytes 0xE0000000 0x300000 ht' (p := 0xE0000)
    (by decide) (by decide) ?_ (h _ (.single (.call hlegal ⟨halive, trivial⟩)))
  -- the page is the 65532nd, and its new frame is one of the first 1536
  have hpte := hb.pte_new (k := 65531) (by omega) (by omega)
  have hscanned : vmm.fa.scanned = 1536 := scanned_sixMegabytes
    (bootMappings (fun _ => 0) sixMegabytes 0xE0000000 0x300000).2
  have hlow : (vmm.fa.freeFrames s.mem).getD 65531 0 < 1536 := by
    rcases VMM.getD_freeFrames vmm.fa s.mem 65531 with ⟨-, hlt, -⟩ | hzero <;> omega
  have hframe := frame_of_mapped (by omega) hpte
  rw [platformInit_vmm_pd] at hframe
  intro hself
  have hsame := Option.some_inj.mp (hframe.symm.trans hself)
  omega

end Sapphire
