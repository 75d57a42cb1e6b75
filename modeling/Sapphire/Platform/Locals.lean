import Sapphire.Platform.Client
import Sapphire.Vmm.Pointers
import Sapphire.Vmm.Reuse

/-! `kernel_vmm` after `init_vmm`, whose pointers are to locals of `platform_init`.  What the rest of
`platform_init` and the kernel does are the steps of a run: calls of `kmalloc_pages` and
`kfree_pages`, those of the test in `platform_init` among them, and all other stores.  The locals can
be overwritten from the return of `platform_init` on, when `kmain` has its frame in their place. -/

namespace Sapphire

open Machine

/-- Where `platform_init` has `frame_alloc` and `pd`: on the stack, below its argument and its return
address, of which `stage2.asm` has the first byte at `0x8FFF8`. -/
structure Locals where
  frameAlloc : BitVec 32
  pd : BitVec 32
  frameAlloc_low : 0x4000 ≤ frameAlloc.toNat
  frameAlloc_high : frameAlloc.toNat + 12 ≤ 0x8FFF8
  pd_low : 0x4000 ≤ pd.toNat
  pd_high : pd.toNat + 4 ≤ 0x8FFF8
  apart : frameAlloc.toNat + 12 ≤ pd.toNat ∨ pd.toNat + 4 ≤ frameAlloc.toNat

namespace Locals

variable (l : Locals)

def objects : Set (BitVec 32) := span l.frameAlloc 12 ∪ span l.pd 4

/-- The locals with their values. -/
def store (m : Mem) (fa : FrameAllocator) (pd : PageDirectory) : Mem :=
  (((m.store32 l.frameAlloc fa.bitmap).store32 (l.frameAlloc + 4) fa.totalFrames).store32
    (l.frameAlloc + 8) fa.bitmapSize).store32 l.pd pd.entries

theorem changesOnly_store (m : Mem) (fa : FrameAllocator) (pd : PageDirectory) :
    ChangesOnly l.objects m (l.store m fa pd) := by
  have hfour : (4 : BitVec 32).toNat = 4 := rfl
  have height : (8 : BitVec 32).toNat = 8 := rfl
  have hword : ∀ (m : Mem) (i v : BitVec 32), i.toNat + 4 ≤ 12 →
      ChangesOnly l.objects m (m.store32 (l.frameAlloc + i) v) := fun m i v hi =>
    (Mem.changesOnly_store32 _ _ _).mono
      ((span_subset (by bv_omega)).trans Set.subset_union_left)
  have hfirst : ChangesOnly l.objects m (m.store32 l.frameAlloc fa.bitmap) :=
    (Mem.changesOnly_store32 _ _ _).mono ((span_mono (by omega)).trans Set.subset_union_left)
  exact ((hfirst.trans (hword _ 4 _ (by omega))).trans (hword _ 8 _ (by omega))).trans
    ((Mem.changesOnly_store32 _ _ _).mono Set.subset_union_right)

theorem load_store (m : Mem) (fa : FrameAllocator) (pd : PageDirectory) :
    FrameAllocator.load (l.store m fa pd) l.frameAlloc = fa ∧
      PageDirectory.load (l.store m fa pd) l.pd = pd := by
  have hlow := l.frameAlloc_high
  have hpd := l.pd_high
  have hapart := l.apart
  have hzero : (0 : BitVec 32).toNat = 0 := rfl
  have hfour : (4 : BitVec 32).toNat = 4 := rfl
  have height : (8 : BitVec 32).toNat = 8 := rfl
  have hword : ∀ i j : BitVec 32, i.toNat + 4 ≤ 12 → j.toNat + 4 ≤ 12 →
      i.toNat + 4 ≤ j.toNat ∨ j.toNat + 4 ≤ i.toNat →
      Disjoint (span (l.frameAlloc + i) 4) (span (l.frameAlloc + j) 4) := fun i j hi hj hij =>
    disjoint_span (by bv_omega) (by bv_omega) (by bv_omega)
  have hdir : ∀ i : BitVec 32, i.toNat + 4 ≤ 12 →
      Disjoint (span (l.frameAlloc + i) 4) (span l.pd 4) := fun i hi =>
    disjoint_span (by bv_omega) (by bv_omega) (by bv_omega)
  have h0 := hword 0 4 (by omega) (by omega) (by omega)
  have h0' := hword 0 8 (by omega) (by omega) (by omega)
  have hdir0 := hdir 0 (by omega)
  rw [show l.frameAlloc + 0 = l.frameAlloc from BitVec.add_zero _] at h0 h0' hdir0
  rw [FrameAllocator.load, PageDirectory.load, store]
  rw [Mem.load32_store32_of_disjoint hdir0, Mem.load32_store32_of_disjoint h0',
    Mem.load32_store32_of_disjoint h0, Mem.load32_store32_self,
    Mem.load32_store32_of_disjoint (hdir 4 (by omega)),
    Mem.load32_store32_of_disjoint (hword 4 8 (by omega) (by omega) (by omega)),
    Mem.load32_store32_self, Mem.load32_store32_of_disjoint (hdir 8 (by omega)),
    Mem.load32_store32_self, Mem.load32_store32_self]
  exact ⟨rfl, rfl⟩

end Locals

section

variable (l : Locals) (m : Mem) (mmap : MemoryMap) (framebuffer size : BitVec 32)

/-- `kernel_vmm` after `init_vmm`. -/
def kernelVmm : KernelVmm :=
  (platformInit m mmap framebuffer size).vmm.pointing l.frameAlloc l.pd

/-- The state after `init_vmm`, with the locals in memory and no live allocations. -/
def vmmReady : VmmState :=
  ⟨l.store (platformInit m mmap framebuffer size).mem (platformInit m mmap framebuffer size).fa
    (platformInit m mmap framebuffer size).pd, []⟩

/-- The locals are apart from the structures of the virtual memory manager. -/
theorem objects_apart : Disjoint (KernelVmm.structures (platformInit m mmap framebuffer size).vmm)
    (kernelVmm l m mmap framebuffer size).objects := by
  have hplaced := platformInit_placed m mmap framebuffer size
  have hsize := hplaced.size
  have hfa := l.frameAlloc_high
  have hfa' := l.frameAlloc_low
  have hpd := l.pd_high
  have hpd' := l.pd_low
  have hspare : ∀ (a : BitVec 32) (n : Nat), 0x4000 ≤ a.toNat → a.toNat + n ≤ 0x8FFF8 →
      Disjoint (KernelVmm.structures (platformInit m mmap framebuffer size).vmm) (span a n) := by
    intro a n hlow hhigh
    rw [KernelVmm.structures, VMM.own, VMM.pageBits, platformInit_vmm, FrameAllocator.bits,
      hplaced.bitmap]
    dsimp only
    simp only [Set.disjoint_union_left]
    refine ⟨⟨⟨disjoint_span (by decide) (by omega) (by bv_omega),
      disjoint_span (by bv_omega) (by omega) (by bv_omega)⟩, ?_⟩,
      disjoint_span (a := pgDir) (by decide) (by omega) (by bv_omega)⟩
    rw [Set.disjoint_left]
    intro y hy hin
    rw [mem_span_iff (by omega)] at hin
    rw [mem_span] at hy
    rcases spare_getD m mmap framebuffer size 16 with hzero | ⟨f, hres, hf, hframe⟩
    · rw [hzero] at hy
      bv_omega
    · -- the four pages may pass the end of the address space
      have hscanned := (platformInit m mmap framebuffer size).fa.scanned_le
      have haddr := toNat_frameAddr (f := f) (by omega)
      rw [hframe] at hy
      unfold FrameAllocator.reserved at hres
      bv_omega
  exact Set.disjoint_union_right.mpr ⟨hspare _ _ hfa' hfa, hspare _ _ hpd' hpd⟩

theorem vmmReady_changesOnly : ChangesOnly (kernelVmm l m mmap framebuffer size).objects
    (booted m mmap framebuffer size).mem (vmmReady l m mmap framebuffer size).mem := by
  rw [booted_mem]
  exact l.changesOnly_store _ _ _

theorem vmmReady_pointsTo : (kernelVmm l m mmap framebuffer size).PointsTo
    (vmmReady l m mmap framebuffer size).mem (platformInit m mmap framebuffer size).vmm := by
  obtain ⟨hfa, hpd⟩ := l.load_store (platformInit m mmap framebuffer size).mem
    (platformInit m mmap framebuffer size).fa (platformInit m mmap framebuffer size).pd
  have hvmm := platformInit_vmm_fa m mmap framebuffer size
  have hvmm' := platformInit_vmm_pd m mmap framebuffer size
  rw [KernelVmm.PointsTo, KernelVmm.deref, kernelVmm, VMM.pointing, vmmReady]
  dsimp only
  rw [hfa, hpd, ← hvmm, ← hvmm']

theorem vmmReady_tracks : (platformInit m mmap framebuffer size).vmm.Tracks
    (vmmReady l m mmap framebuffer size) :=
  (booted_tracks m mmap framebuffer size).of_changesOnly
    (vmmReady_changesOnly l m mmap framebuffer size) (objects_apart l m mmap framebuffer size)

theorem vmmReady_reserves : (platformInit m mmap framebuffer size).vmm.Reserves
    (vmmReady l m mmap framebuffer size) :=
  (booted_reserves m mmap framebuffer size).of_changesOnly
    (platformInit_laid m mmap framebuffer size)
    (vmmReady_changesOnly l m mmap framebuffer size) (objects_apart l m mmap framebuffer size)

theorem vmmReady_pte {p : Nat} (hp : p < 2 ^ 20) :
    (platformInit m mmap framebuffer size).vmm.pd.pte (vmmReady l m mmap framebuffer size).mem p =
      (platformInit m mmap framebuffer size).vmm.pd.pte
        (platformInit m mmap framebuffer size).mem p := by
  rw [← booted_mem]
  exact (booted_tracks m mmap framebuffer size).pte_of_changesOnly
    (vmmReady_changesOnly l m mmap framebuffer size) (objects_apart l m mmap framebuffer size) hp

theorem objects_apart_own : Disjoint (kernelVmm l m mmap framebuffer size).objects
    (platformInit m mmap framebuffer size).vmm.own :=
  (objects_apart l m mmap framebuffer size).symm.mono_right Set.subset_union_left

/-- Runs after `init_vmm` whose calls find the locals alive and meet `ok`. -/
def AliveRuns (ok : VmmState → VmmOp → Prop) : VmmState → VmmState → Prop :=
  (kernelVmm l m mmap framebuffer size).Runs (platformInit m mmap framebuffer size).vmm
    ((kernelVmm l m mmap framebuffer size).Alive (platformInit m mmap framebuffer size).vmm ok)

theorem aliveRuns_tracks {ok : VmmState → VmmOp → Prop} {s : VmmState}
    (hrun : AliveRuns l m mmap framebuffer size ok (vmmReady l m mmap framebuffer size) s) :
    (platformInit m mmap framebuffer size).vmm.Tracks s :=
  KernelVmm.Runs.tracks (platformInit_laid m mmap framebuffer size)
    (objects_apart_own l m mmap framebuffer size) (vmmReady_tracks l m mmap framebuffer size) hrun

/-- No step of such a run changes an entry outside the region. -/
theorem aliveRuns_pte_outside {ok : VmmState → VmmOp → Prop} {s : VmmState}
    (hrun : AliveRuns l m mmap framebuffer size ok (vmmReady l m mmap framebuffer size) s) {p : Nat}
    (hp : p < 2 ^ 20) (hout : ¬ (0xD0000 ≤ p ∧ p < 0xF0000)) :
    (platformInit m mmap framebuffer size).vmm.pd.pte s.mem p =
      (platformInit m mmap framebuffer size).vmm.pd.pte
        (platformInit m mmap framebuffer size).mem p := by
  rw [KernelVmm.Runs.pte_outside (platformInit_laid m mmap framebuffer size)
    (objects_apart_own l m mmap framebuffer size) (vmmReady_tracks l m mmap framebuffer size) hrun
    hp hout, vmmReady_pte l m mmap framebuffer size hp]

end

/-! ### The test -/

namespace KernelVmm

/-- What `platform_init` does with the virtual memory manager after `init_vmm`, without what it
prints. -/
def test (k : KernelVmm) (s : VmmState) : VmmState :=
  let p1 := (k.allocPages s.mem 1).2
  let s := (s.call k (.alloc 1)).call k (.alloc 4)
  -- the word goes where the page tables have the page
  let s := { s with mem := match (⟨pgDir⟩ : PageDirectory).walk s.mem p1 with
    | some phys => s.mem.store32 phys 0xCAFEBABE
    | none => s.mem }
  (s.call k (.free p1 1)).call k (.alloc 1)

variable {k : KernelVmm} {vmm : VMM} {s : VmmState}

/-- The bitmap and the page tables are those of the live allocations, and the objects are alive. -/
structure Sound (k : KernelVmm) (vmm : VMM) (s : VmmState) : Prop where
  tracks : vmm.Tracks s
  alive : k.PointsTo s.mem vmm

namespace Sound

theorem call (hl : vmm.Laid) (hd : Disjoint k.objects vmm.own) (h : Sound k vmm s) {op : VmmOp}
    (hlegal : s.Legal op) : s.call k op = s.apply vmm op ∧ Sound k vmm (s.call k op) := by
  have heq := call_eq hl h.tracks hd h.alive hlegal
  rw [heq]
  exact ⟨rfl, h.tracks.step hl hlegal, h.alive.of_changesOnly (h.tracks.changesOnly hl hlegal) hd⟩

/-- A call of `alloc_pages`, where the first free range is known. -/
theorem call_alloc (hl : vmm.Laid) (hd : Disjoint k.objects vmm.own) (h : Sound k vmm s)
    {numPages : BitVec 32} (hne : numPages ≠ 0) {start : Nat}
    (hleft : vmm.Leftmost s.mem numPages.toNat start) :
    Sound k vmm (s.call k (.alloc numPages)) ∧
      (s.call k (.alloc numPages)).live = List.range' start numPages.toNat :: s.live ∧
      vmm.Backs s.mem (s.call k (.alloc numPages)).mem start numPages.toNat := by
  have hlegal : s.Legal (.alloc numPages) := trivial
  obtain ⟨heq, hsound⟩ := h.call hl hd hlegal
  refine ⟨hsound, ?_⟩
  rw [heq]
  exact VMM.apply_alloc_of_leftmost hl h.tracks.wired hne hleft

/-- The free of an allocation of one page, mapped to another frame than 0. -/
theorem call_free_page (hl : vmm.Laid) (hd : Disjoint k.objects vmm.own) (h : Sound k vmm s)
    {i f : Nat} (hlive : List.range' i 1 ∈ s.live)
    (hpte : vmm.pd.pte s.mem (0xD0000 + i) = mapped (frameAddr f)) (hne : f ≠ 0)
    (hf : f < 2 ^ 20) :
    s.Legal (.free (frameAddr (0xD0000 + i)) 1) ∧
      VMM.FreesWhole s (.free (frameAddr (0xD0000 + i)) 1) ∧
      vmm.KeepsZero s (.free (frameAddr (0xD0000 + i)) 1) ∧
      ∀ j, j ∈ (s.call k (.free (frameAddr (0xD0000 + i)) 1)).pages ↔ j ∈ s.pages ∧ j ≠ i := by
  have hmem : i ∈ s.pages :=
    List.mem_flatten.mpr ⟨_, hlive, List.mem_range'_1.mpr ⟨le_rfl, Nat.lt_succ_self i⟩⟩
  have hi := h.tracks.bound i hmem
  obtain ⟨hptr, haddr⟩ := VMM.frameAddr_region i (by omega)
  have hone : ∀ j < (1 : BitVec 32).toNat,
      (frameAddr (0xD0000 + i) + BitVec.ofNat 32 j * pageSize).toNat / 4096 = 0xD0000 + i := by
    intro j hj
    obtain rfl : j = 0 := Nat.lt_one_iff.mp hj
    exact VMM.page_add haddr (by omega)
  have hlegal : s.Legal (.free (frameAddr (0xD0000 + i)) 1) := fun j hj => ⟨i, hmem, hone j hj⟩
  refine ⟨hlegal, ⟨hptr, i, rfl, hlive⟩, fun j hj => ?_, fun j => ?_⟩
  · rw [hone j hj, hpte, pageDown_mapped (frameAddr_aligned f)]
    exact fun h0 => hne ((frameAddr_inj (g := 0) hf (by decide)).mp h0)
  · rw [(h.call hl hd hlegal).1]
    rcases VMM.apply_free_cases hl h.tracks hlegal with ⟨h0, -⟩ | ⟨start, hstart, -, -, hrest, -⟩
    · exact absurd h0 one_ne_zero
    · obtain rfl : start = i := by omega
      have hlast : (1 : BitVec 32).toNat = 1 := rfl
      rw [VmmState.mem_pages_filter hrest, hlast]
      exact and_congr_right fun _ => by omega

end Sound

/-- The test with no live allocations: its calls are legal, free a whole allocation and no page that
is mapped to frame 0, and leave the first five pages live. -/
theorem test_spec (hl : vmm.Laid) (hd : Disjoint k.objects vmm.own) (hdir : vmm.pd = ⟨pgDir⟩)
    (h : Sound k vmm s) (hlive : s.live = [])
    (hframe : (vmm.fa.freeFrames s.mem).getD 0 0 ≠ 0)
    (hword : Disjoint (structures vmm ∪ k.objects)
      (span (frameAddr ((vmm.fa.freeFrames s.mem).getD 0 0)) 4)) :
    k.Runs vmm (k.Alive vmm fun s op => VMM.FreesWhole s op ∧ vmm.KeepsZero s op) s (k.test s) ∧
      k.PointsTo (k.test s).mem vmm ∧ ∀ i, i ∈ (k.test s).pages ↔ i < 5 := by
  obtain ⟨hword, hobjects⟩ := Set.disjoint_union_left.mp hword
  have hone : (1 : BitVec 32).toNat = 1 := rfl
  have hfour : (4 : BitVec 32).toNat = 4 := rfl
  have hne : (1 : BitVec 32) ≠ 0 := by decide
  have hpages : s.pages = [] := by rw [VmmState.pages, hlive, List.flatten_nil]
  -- the first page
  have hleft1 : vmm.Leftmost s.mem (1 : BitVec 32).toNat 0 :=
    h.tracks.leftmost one_pos (by omega) (fun i _ _ => by simp [hpages]) (fun i hi => by omega)
  obtain ⟨h1, hlive1, hb1⟩ := h.call_alloc hl hd hne hleft1
  have hptr : (k.allocPages s.mem 1).2 = frameAddr 0xD0000 := by
    rw [allocPages_eq hl h.tracks.wired hd h.alive]
    exact VMM.allocPages_of_leftmost hl h.tracks.wired hne hleft1
  set s1 := s.call k (.alloc 1) with hs1
  have hpages1 := fun i => VmmState.mem_pages_cons hlive1 (i := i)
  simp only [hpages, hone, List.not_mem_nil, or_false] at hpages1
  -- four more
  have hleft2 : vmm.Leftmost s1.mem (4 : BitVec 32).toNat 1 :=
    h1.tracks.leftmost (Nat.succ_pos 3) (by omega) (fun i h1 h2 => by rw [hpages1]; omega)
      (fun i hi => by rw [hpages1]; omega)
  obtain ⟨h2, hlive2, hb2⟩ := h1.call_alloc hl hd (by decide) hleft2
  set s2 := s1.call k (.alloc 4) with hs2
  have hpages2 := fun i => VmmState.mem_pages_cons hlive2 (i := i)
  simp only [hpages1, hfour] at hpages2
  -- the word, in the frame of the first page
  set f := (vmm.fa.freeFrames s.mem).getD 0 0 with hf
  have hpte : vmm.pd.pte s2.mem 0xD0000 = mapped (frameAddr f) := by
    have hnew := hb1.pte_new (k := 0) (by omega) (by omega)
    rw [hb2.pte_old (i := 0) (by omega) (by omega)]
    exact hnew
  have hf20 : f < 2 ^ 20 := by
    have hscanned := hl.scanned_le
    rcases VMM.getD_freeFrames vmm.fa s.mem 0 with ⟨-, hlt, -⟩ | hzero
    · omega
    · exact absurd hzero hframe
  have hwalk : (⟨pgDir⟩ : PageDirectory).walk s2.mem (frameAddr 0xD0000) = some (frameAddr f) := by
    have hpage : (frameAddr 0xD0000).toNat / 4096 = 0xD0000 := page_frameAddr (by omega)
    rw [← hdir, h2.tracks.wired.walk_eq, hpage, PageDirectory.frame_of_mapped hf20 hpte]
    rfl
  set s3 : VmmState := ⟨s2.mem.store32 (frameAddr f) 0xCAFEBABE, s2.live⟩ with hs3
  have hstore : ChangesOnly (span (frameAddr f) 4) s2.mem s3.mem := Mem.changesOnly_store32 _ _ _
  have hother : ChangesOnly (structures vmm)ᶜ s2.mem s3.mem :=
    hstore.mono (Set.disjoint_left.mp hword.symm)
  have h3 : Sound k vmm s3 :=
    ⟨h2.tracks.of_changesOnly hstore hword, h2.alive.of_changesOnly hstore hobjects⟩
  have hpte3 : vmm.pd.pte s3.mem (0xD0000 + 0) = mapped (frameAddr f) :=
    (h2.tracks.pte_of_changesOnly hstore hword (by omega)).trans hpte
  -- the first page again
  obtain ⟨hlegal, hwhole, hkeeps, hpages4⟩ := h3.call_free_page hl hd (i := 0)
    (by rw [show s3.live = s2.live from rfl, hlive2, hlive1]; simp) hpte3 hframe hf20
  have h4 := (h3.call hl hd hlegal).2
  set s4 := s3.call k (.free (frameAddr 0xD0000) 1) with hs4
  have hfive : ∀ i, i ∈ s4.pages ↔ 1 ≤ i ∧ i < 5 := fun i => by
    rw [hpages4, show s3.pages = s2.pages from rfl, hpages2]
    omega
  have hleft5 : vmm.Leftmost s4.mem (1 : BitVec 32).toNat 0 :=
    h4.tracks.leftmost one_pos (by omega) (fun i _ h2 => by rw [hfive]; omega)
      (fun i hi => by omega)
  obtain ⟨h5, hlive5, -⟩ := h4.call_alloc hl hd hne hleft5
  have htest : k.test s = s4.call k (.alloc 1) := by
    simp only [test, hptr, ← hs1, ← hs2, hwalk, ← hs3, ← hs4]
  rw [htest]
  refine ⟨?_, h5.alive, fun i => ?_⟩
  · have hrun1 : k.Runs vmm (k.Alive vmm fun s op => VMM.FreesWhole s op ∧ vmm.KeepsZero s op)
        s s1 := .single (.call trivial ⟨h.alive, trivial, trivial⟩)
    have hlegal2 : s1.Legal (.alloc 4) := trivial
    have hrun3 := (hrun1.tail (.call hlegal2 ⟨h1.alive, trivial, trivial⟩)).tail (.other hother)
    exact (hrun3.tail (.call hlegal ⟨h3.alive, hwhole, hkeeps⟩)).tail
      (.call trivial ⟨h4.alive, trivial, trivial⟩)
  · rw [VmmState.mem_pages_cons hlive5, hfive]
    omega

end KernelVmm

section

variable (l : Locals) (m : Mem) (mmap : MemoryMap) (framebuffer size : BitVec 32)

/-- The state after the test, at the end of what `platform_init` does with memory. -/
def tested : VmmState :=
  (kernelVmm l m mmap framebuffer size).test (vmmReady l m mmap framebuffer size)

/-- With 6 MiB of memory the test frees whole allocations and never a page that is mapped to frame
0, and leaves the locals alive and the first five pages live. -/
theorem tested_sixMegabytes :
    AliveRuns l m sixMegabytes framebuffer size
      (fun s op => VMM.FreesWhole s op ∧
        (platformInit m sixMegabytes framebuffer size).vmm.KeepsZero s op)
      (vmmReady l m sixMegabytes framebuffer size) (tested l m sixMegabytes framebuffer size) ∧
    (kernelVmm l m sixMegabytes framebuffer size).PointsTo
      (tested l m sixMegabytes framebuffer size).mem
      (platformInit m sixMegabytes framebuffer size).vmm ∧
    ∀ i, i ∈ (tested l m sixMegabytes framebuffer size).pages ↔ i < 5 := by
  have hl := platformInit_laid m sixMegabytes framebuffer size
  have hfree : (platformInit m sixMegabytes framebuffer size).vmm.fa.freeFrames
      (vmmReady l m sixMegabytes framebuffer size).mem = List.range' 0x515 235 := by
    have hscanned := (platformInit m sixMegabytes framebuffer size).vmm.fa.scanned_le_tracked
    rw [← freeFrames_sixMegabytes m framebuffer size]
    exact FrameAllocator.freeFrames_congr fun f hf => VMM.frames_of_changesOnly
      (vmmReady_changesOnly l m sixMegabytes framebuffer size)
      (objects_apart l m sixMegabytes framebuffer size) (by omega)
  have hfirst : ((platformInit m sixMegabytes framebuffer size).vmm.fa.freeFrames
      (vmmReady l m sixMegabytes framebuffer size).mem).getD 0 0 = 0x515 := by
    rw [hfree]
    rfl
  refine KernelVmm.test_spec hl (objects_apart_own l m sixMegabytes framebuffer size)
    (platformInit_vmm_pd m sixMegabytes framebuffer size)
    ⟨vmmReady_tracks l m sixMegabytes framebuffer size,
      vmmReady_pointsTo l m sixMegabytes framebuffer size⟩ rfl (by omega) ?_
  rw [hfirst, Set.disjoint_union_left]
  constructor
  · have hmem : 0x515 ∈ (platformInit m sixMegabytes framebuffer size).vmm.fa.freeFrames
        (booted m sixMegabytes framebuffer size).mem := by
      rw [freeFrames_sixMegabytes m framebuffer size, List.mem_range'_1]
      decide
    obtain ⟨hlt, hunused⟩ := FrameAllocator.mem_freeFrames.mp hmem
    rw [booted_mem] at hunused
    exact (platformInit_apart m framebuffer size length_allocatable_sixMegabytes
      bitmapFrames_sixMegabytes 0x515 hlt hunused).mono_right (span_mono (by omega))
  · have hfa := l.frameAlloc_high
    have hpd := l.pd_high
    have haddr : (frameAddr 0x515).toNat = 0x515000 := by decide
    exact Set.disjoint_union_left.mpr
      ⟨(disjoint_span (a := l.frameAlloc) (by omega) (by omega) (by omega)),
        (disjoint_span (a := l.pd) (by omega) (by omega) (by omega))⟩

end

/-- With 6 MiB of memory there are never more than 255 free frames. -/
theorem length_freeFrames_lt {m : Mem} {framebuffer size : BitVec 32} {s : VmmState}
    (hr : (platformInit m sixMegabytes framebuffer size).vmm.Reserves s) :
    ((platformInit m sixMegabytes framebuffer size).vmm.fa.freeFrames s.mem).length < 300 := by
  set fa := (platformInit m sixMegabytes framebuffer size).vmm.fa
  have hscanned : fa.scanned = 1536 :=
    scanned_sixMegabytes (bootMappings m sixMegabytes framebuffer size).2
  have hreserved : fa.reserved = 0x501 :=
    reserved_sixMegabytes (bootMappings m sixMegabytes framebuffer size).2
  have hsub : fa.freeFrames s.mem ⊆ List.range' 0x501 255 := fun f hf => by
    obtain ⟨hlt, hunused⟩ := FrameAllocator.mem_freeFrames.mp hf
    rw [List.mem_range'_1]
    refine ⟨?_, by omega⟩
    by_contra hlow
    rw [hr.reserved f (show f < fa.reserved by omega)] at hunused
    cases hunused
  have hle := ((fa.freeFrames_nodup s.mem).subperm hsub).length_le
  rw [List.length_range'] at hle
  omega

/-- Two locals on the stack. -/
def stackLocals : Locals where
  frameAlloc := 0x8FF00
  pd := 0x8FF10
  frameAlloc_low := by simp
  frameAlloc_high := by simp
  pd_low := by simp
  pd_high := by simp
  apart := by decide

/-! ### Reserved frames -/

/-- Reserved frames stay reserved in every run whose calls find the locals of `platform_init` alive
and free no page that is mapped to frame 0: the frames below `0x500000 + bitmap_size` are in use in
every state, so that `alloc_frame` returns 0 only where all frames that it looks at are in use.  A
call that does free such a page makes frame 0 free. -/
theorem reserved_frames_kept (l : Locals) (m : Mem) (mmap : MemoryMap) (framebuffer size : BitVec 32)
    {s : VmmState} (hrun : AliveRuns l m mmap framebuffer size
      (platformInit m mmap framebuffer size).vmm.KeepsZero (vmmReady l m mmap framebuffer size) s) :
    let k := kernelVmm l m mmap framebuffer size
    let vmm := (platformInit m mmap framebuffer size).vmm
    (∀ f, 4096 * f < 0x500000 + vmm.fa.bitmapSize.toNat → vmm.fa.used s.mem f = true) ∧
    ((vmm.fa.allocFrame s.mem).2 = 0 → ∀ f < vmm.fa.scanned, vmm.fa.used s.mem f = true) ∧
    ∀ addr numPages, s.Legal (.free addr numPages) → k.PointsTo s.mem vmm →
      ¬ vmm.KeepsZero s (.free addr numPages) →
        vmm.fa.used (s.call k (.free addr numPages)).mem 0 = false := by
  intro k vmm
  have hl := platformInit_laid m mmap framebuffer size
  have hd := objects_apart_own l m mmap framebuffer size
  have hr := KernelVmm.Runs.reserves hl hd (vmmReady_reserves l m mmap framebuffer size) hrun
  have hzero : vmm.fa.used s.mem 0 = true :=
    hr.reserved 0 (FrameAllocator.lt_reserved_iff.mpr (by omega))
  refine ⟨fun f hf => hr.reserved f (FrameAllocator.lt_reserved_iff.mpr hf), fun h0 => ?_,
    fun addr numPages hlegal halive hnot => ?_⟩
  · rcases FrameAllocator.allocFrame_spec hl.size hzero with ⟨hfull, -⟩ | ⟨f, -, -, hne, hframe⟩
    · exact hfull
    · rw [hframe] at h0
      exact absurd h0 hne
  · rw [KernelVmm.call_eq hl hr.tracks hd halive hlegal]
    exact (hr.free hl hlegal).2 hnot

theorem reserved_frames_kept_sixMegabytes :
    let vmm := (platformInit (fun _ => 0) sixMegabytes 0 0).vmm
    let k := kernelVmm stackLocals (fun _ => 0) sixMegabytes 0 0
    let s := (tested stackLocals (fun _ => 0) sixMegabytes 0 0).call k (.alloc 300)
    vmm.fa.used s.mem 0 = true ∧ vmm.fa.used s.mem 0x4FF = true := by
  intro vmm k s
  obtain ⟨hrun, halive, -⟩ := tested_sixMegabytes stackLocals (fun _ => 0) 0 0
  have hlegal : (tested stackLocals (fun _ => 0) sixMegabytes 0 0).Legal (.alloc 300) := trivial
  have hkept := (reserved_frames_kept stackLocals (fun _ => 0) sixMegabytes 0 0
    ((hrun.mono fun _ _ h => h.2).tail (.call hlegal ⟨halive, trivial⟩))).1
  exact ⟨hkept 0 (by omega), hkept 0x4FF (by omega)⟩

/-- With 6 MiB of memory, allocating 300 pages after the test and freeing them makes frame 0 free,
with the locals still alive. -/
theorem reserved_frames_sixMegabytes :
    let vmm := (platformInit (fun _ => 0) sixMegabytes 0 0).vmm
    ¬ ∀ s, AliveRuns stackLocals (fun _ => 0) sixMegabytes 0 0 VMM.FreesWhole
        (tested stackLocals (fun _ => 0) sixMegabytes 0 0) s →
      ∀ f, 4096 * f < 0x500000 + vmm.fa.bitmapSize.toNat → vmm.fa.used s.mem f = true := by
  intro vmm hkept
  have hl : vmm.Laid := platformInit_laid (fun _ => 0) sixMegabytes 0 0
  have hd := objects_apart_own stackLocals (fun _ => 0) sixMegabytes 0 0
  obtain ⟨hrun, halive, hpages⟩ := tested_sixMegabytes stackLocals (fun _ => 0) 0 0
  set s := tested stackLocals (fun _ => 0) sixMegabytes 0 0 with hs
  have hr : vmm.Reserves s := KernelVmm.Runs.reserves hl hd
    (vmmReady_reserves stackLocals (fun _ => 0) sixMegabytes 0 0) (hrun.mono fun _ _ h => h.2)
  have hcount : (300 : BitVec 32).toNat = 300 := rfl
  have hrange : vmm.FreeRange s.mem (300 : BitVec 32).toNat 5 :=
    (hr.tracks.leftmost (by omega) (by omega) (fun i h1 _ => by simp [hpages]; omega)
      (fun i hi => (hpages i).mpr hi)).range
  obtain ⟨addr, hlegal, hwhole, hfree⟩ :=
    hr.free_exhausted hl hrange (length_freeFrames_lt hr)
  have hstart : VmmState.Runs vmm VMM.FreesWhole s s := .refl
  have hfirst : s.Legal (.alloc 300) := trivial
  have hcalls := (hstart.step hfirst trivial).step hlegal hwhole
  have hend := hkept _ (KernelVmm.runs_of_calls hl hd hr.tracks halive hcalls).1 0 (by omega)
  rw [hfree] at hend
  cases hend

/-- The locals have to be alive: in every state of such a run with a live page, freeing it frees a
reserved frame if some other word is in the place of the address of the frame bitmap. -/
theorem reserved_frames_overwritten (l : Locals) (m : Mem) (mmap : MemoryMap)
    (framebuffer size : BitVec 32) {ok : VmmState → VmmOp → Prop} {s : VmmState}
    (hrun : AliveRuns l m mmap framebuffer size ok (vmmReady l m mmap framebuffer size) s)
    (halive : (kernelVmm l m mmap framebuffer size).PointsTo s.mem
      (platformInit m mmap framebuffer size).vmm)
    {addr : BitVec 32} (hlegal : s.Legal (.free addr 1)) :
    let k := kernelVmm l m mmap framebuffer size
    let vmm := (platformInit m mmap framebuffer size).vmm
    ∃ word f, f < vmm.fa.reserved ∧ vmm.fa.used
      (k.freePages (s.mem.store32 l.frameAlloc word) addr 1) f = false := by
  intro k vmm
  have hl : vmm.Laid := platformInit_laid m mmap framebuffer size
  have ht : vmm.Tracks s := aliveRuns_tracks l m mmap framebuffer size hrun
  have happart : Disjoint (KernelVmm.structures vmm) (span l.frameAlloc 4) :=
    (objects_apart l m mmap framebuffer size).mono_right
      ((span_mono (by omega)).trans Set.subset_union_left)
  obtain ⟨start, haddr, hend, hlive, -⟩ := VMM.legal_free_cases ht hlegal one_ne_zero
  have hone : (1 : BitVec 32).toNat = 1 := rfl
  obtain ⟨hpte, hlow⟩ := ht.frame _ (hlive 0 one_pos)
  rw [Nat.add_zero] at hpte hlow
  set f := vmm.frameOf s.mem start
  have hscanned := hl.scanned_le
  have hf : f < 2 ^ 20 := by omega
  have hres : f % 8 < vmm.fa.reserved := FrameAllocator.lt_reserved_iff.mpr (by omega)
  refine ⟨vmm.fa.bitmap - BitVec.ofNat 32 (f / 8), f % 8, hres, ?_⟩
  set word := vmm.fa.bitmap - BitVec.ofNat 32 (f / 8) with hword
  set m1 := s.mem.store32 l.frameAlloc word with hm1
  have hstore : ChangesOnly (span l.frameAlloc 4) s.mem m1 := Mem.changesOnly_store32 _ _ _
  have hw1 := (ht.of_changesOnly hstore happart).wired
  -- the page directory is alive, and the free finds the frame
  have hpd : PageDirectory.load m1 k.pd = vmm.pd := by
    have hsame : m1.load32 k.pd = s.mem.load32 k.pd := by
      refine Mem.load32_of_changesOnly hstore ?_
      have hfa := l.frameAlloc_high
      have hpd := l.pd_high
      have hor := l.apart
      exact disjoint_span (a := l.pd) (by omega) (by omega) (by omega)
    rw [PageDirectory.load, hsame]
    exact halive.pd
  have hload : m1.load32 (vmm.pd.pteAddr m1 addr) = mapped (frameAddr f) := by
    rw [hw1.pteAddr_eq, haddr, ← hw1.pte_eq (by omega),
      ht.pte_of_changesOnly hstore happart (by omega), hpte]
  have hphys : mapped (frameAddr f) &&& ~~~0xFFF#32 = frameAddr f :=
    pageDown_mapped (frameAddr_aligned f)
  obtain ⟨-, hunmapped, -⟩ := VMM.unmapRange_page hw1 haddr (by omega)
  set m2 := vmm.pd.unmapRange m1 addr pageSize with hm2
  have hbitmap : m2.load32 l.frameAlloc = word := by
    rw [Mem.load32_of_changesOnly hunmapped
      (happart.symm.mono_right (vmm.tables_subset_own.trans Set.subset_union_left)), hm1,
      Mem.load32_store32_self]
  -- the bit that it clears is that of a frame at the other end of the memory
  set m3 := (FrameAllocator.load m2 l.frameAlloc).freeFrame m2 (frameAddr f) with hm3
  have hcleared : vmm.fa.used m3 (f % 8) = false := by
    have hbit : (FrameAllocator.load m2 l.frameAlloc).used m3 f = _ :=
      FrameAllocator.used_freeFrame (frameAddr f) hf
    rw [page_frameAddr hf, decide_eq_true rfl, Bool.not_true, Bool.and_false, FrameAllocator.used,
      FrameAllocator.load, hbitmap, hword, testBit_shifted] at hbit
    exact hbit
  have hround : k.unmapPage m1 addr = m3 := by
    rw [KernelVmm.unmapPage, hpd, hload, hphys]
    rfl
  have hidx : ((addr - k.regionStart) / pageSize).toNat = start := by
    rw [show k.regionStart = vmm.regionStart from rfl, hl.regionStart, BitVec.toNat_udiv,
      show pageSize.toNat = 4096 from rfl]
    bv_omega
  have hbound : ∀ j, ((addr - k.regionStart) / pageSize).toNat ≤ j →
      j < ((addr - k.regionStart) / pageSize).toNat + (1 : BitVec 32).toNat → j < 131072 := by
    omega
  obtain ⟨hmarked, -⟩ := (k.deref m3).markFree_spec m3 hbound
  have hfree : k.freePages m1 addr 1 =
      (k.deref m3).markFree m3 ((addr - k.regionStart) / pageSize) 1 := by
    rw [KernelVmm.freePages, hone]
    simp [hround]
  rw [hfree]
  have htracked := FrameAllocator.reserved_le_tracked hl.size
  rw [FrameAllocator.used_of_changesOnly hmarked hl.frames_pages (by omega)]
  exact hcleared

end Sapphire
