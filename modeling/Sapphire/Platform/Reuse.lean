import Sapphire.Platform.Run
import Sapphire.Vmm.Reuse

/-! `kmalloc_pages` and `kfree_pages` against each other, in every state that a run reaches after
`init_vmm`, for every memory map and framebuffer. -/

namespace Sapphire

open Machine VmmState

section

variable (m : Mem) (mmap : MemoryMap) (framebuffer size : BitVec 32) {s : VmmState}

/-- In every state of a run in which the entries of the unused pages of the region are zero, and with
enough free frames, freeing the pages that `alloc_pages` returned restores the bitmap of the region,
the bitmap of the frames and the page tables. -/
theorem vmm_free_undoes_alloc
    (hrun : Runs (platformInit m mmap framebuffer size).vmm (fun _ _ => True)
      (booted m mmap framebuffer size) s)
    (hblank : (platformInit m mmap framebuffer size).vmm.Blank s.mem) {numPages : BitVec 32}
    (henough : numPages.toNat ≤
      ((platformInit m mmap framebuffer size).vmm.fa.freeFrames s.mem).length)
    (hne : ((platformInit m mmap framebuffer size).vmm.allocPages s.mem numPages).2 ≠ 0) :
    let vmm := (platformInit m mmap framebuffer size).vmm
    let r := vmm.allocPages s.mem numPages
    vmm.Restores s.mem (vmm.freePages r.1 r.2 numPages) := by
  intro vmm r
  have hl := platformInit_laid m mmap framebuffer size
  have ht := (booted_tracks m mmap framebuffer size).run hl hrun
  exact VMM.freePages_allocPages hl ht.wired hblank henough hne

/-- The entries of unused pages are zero in every state of a run if they are after `init_vmm`. -/
theorem blank_of_run
    (hboot : ∀ i < 131072, (platformInit m mmap framebuffer size).vmm.pd.pte
      (platformInit m mmap framebuffer size).mem (0xD0000 + i) = 0)
    (hrun : Runs (platformInit m mmap framebuffer size).vmm (fun _ _ => True)
      (booted m mmap framebuffer size) s) :
    (platformInit m mmap framebuffer size).vmm.Blank s.mem := by
  refine (booted_tracks m mmap framebuffer size).run_blank
    (platformInit_laid m mmap framebuffer size) (fun i hi _ => ?_) hrun
  rw [booted_mem]
  exact hboot i hi

/-- In every state of a run, whatever is allocated between an allocation and its free, the next
allocation of as many pages returns the same address. -/
theorem vmm_reuses_range
    (hrun : Runs (platformInit m mmap framebuffer size).vmm (fun _ _ => True)
      (booted m mmap framebuffer size) s) {numPages : BitVec 32}
    (hne : ((platformInit m mmap framebuffer size).vmm.allocPages s.mem numPages).2 ≠ 0)
    (sizes : List (BitVec 32)) :
    let vmm := (platformInit m mmap framebuffer size).vmm
    let p := (vmm.allocPages s.mem numPages).2
    let t := (s.apply vmm (.alloc numPages)).allocAll vmm sizes
    (vmm.allocPages (vmm.freePages t.mem p numPages) numPages).2 = p := by
  intro vmm p t
  have hl := platformInit_laid m mmap framebuffer size
  have ht := (booted_tracks m mmap framebuffer size).run hl hrun
  exact ht.reuse hl hne sizes

/-- After `init_vmm`, two pages can be allocated, and three more after them. -/
theorem exists_run_two : ∃ s, Runs (platformInit m mmap framebuffer size).vmm (fun _ _ => True)
      (booted m mmap framebuffer size) s ∧ s.live ≠ [] ∧
    (platformInit m mmap framebuffer size).vmm.fa.freeFrames s.mem = mmap.allocatable.drop 22 ∧
    ((platformInit m mmap framebuffer size).vmm.allocPages s.mem 3).2 ≠ 0 := by
  have hl := platformInit_laid m mmap framebuffer size
  have hb := booted_tracks m mmap framebuffer size
  have hfirst := freeRange_booted m mmap framebuffer size (n := (2 : BitVec 32).toNat) (by decide)
  have hrun : Runs (platformInit m mmap framebuffer size).vmm (fun _ _ => True)
      (booted m mmap framebuffer size)
      ((booted m mmap framebuffer size).apply (platformInit m mmap framebuffer size).vmm
        (.alloc 2)) :=
    .single ⟨.alloc 2, trivial, trivial, rfl⟩
  have hs := hb.run hl hrun
  rcases VMM.apply_alloc_cases hl hb.wired 2 with
    ⟨hnone, -⟩ | ⟨start, -, hrange, hlive, -, hbacks, hbits⟩
  · exact absurd hnone (hfirst.not_none (by decide))
  refine ⟨_, hrun, by rw [hlive]; exact List.cons_ne_nil _ _, ?_, ?_⟩
  · rw [hbacks.free, booted_freeFrames, List.drop_drop]
    rfl
  · have hfree : ∀ t, t + 3 ≤ start ∨ start + 2 ≤ t → t + 3 ≤ 131072 →
        (platformInit m mmap framebuffer size).vmm.FreeRange
          ((booted m mmap framebuffer size).apply (platformInit m mmap framebuffer size).vmm
            (.alloc 2)).mem (3 : BitVec 32).toNat t := by
      intro t hout ht
      refine ⟨ht, fun k hk => ?_⟩
      have hk3 : k < 3 := hk
      rw [hbits _ (by omega), show (2 : BitVec 32).toNat = 2 from rfl, if_neg (by omega), booted_mem]
      exact platformInit_used m mmap framebuffer size (by omega)
    -- the three pages before the two, or the three after them
    rcases Nat.lt_or_ge start 3 with hlt | hge
    · exact VMM.allocPages_ne_zero hl hs.wired (by decide) (hfree (start + 2) (by omega) (by omega))
    · exact VMM.allocPages_ne_zero hl hs.wired (by decide) (hfree 0 (by omega) (by omega))

end

/-- Three pages allocated and freed again, with two live. -/
theorem vmm_free_undoes_alloc_sixMegabytes :
    let vmm := (platformInit (fun _ => 0) sixMegabytes 0 0).vmm
    ∃ s, Runs vmm (fun _ _ => True) (booted (fun _ => 0) sixMegabytes 0 0) s ∧ s.live ≠ [] ∧
      (vmm.allocPages s.mem 3).2 ≠ 0 ∧
      vmm.Restores s.mem (vmm.freePages (vmm.allocPages s.mem 3).1 (vmm.allocPages s.mem 3).2 3) := by
  intro vmm
  obtain ⟨s, hrun, hlive, hframes, hne⟩ := exists_run_two (fun _ => 0) sixMegabytes 0 0
  have hblank := blank_of_run (fun _ => 0) sixMegabytes 0 0 (fun i hi => pte_sixMegabytes hi) hrun
  have henough : (3 : BitVec 32).toNat ≤ (vmm.fa.freeFrames s.mem).length := by
    rw [hframes, allocatable_sixMegabytes, List.length_drop, List.length_range']
    decide
  exact ⟨s, hrun, hlive, hne,
    vmm_free_undoes_alloc (fun _ => 0) sixMegabytes 0 0 hrun hblank henough hne⟩

/-- Three pages freed after two more allocations, and found again. -/
theorem vmm_reuses_range_sixMegabytes :
    let vmm := (platformInit (fun _ => 0) sixMegabytes 0 0).vmm
    ∃ s, Runs vmm (fun _ _ => True) (booted (fun _ => 0) sixMegabytes 0 0) s ∧ s.live ≠ [] ∧
      (vmm.allocPages s.mem 3).2 ≠ 0 ∧
      (vmm.allocPages (vmm.freePages ((s.apply vmm (.alloc 3)).allocAll vmm [5, 1]).mem
        (vmm.allocPages s.mem 3).2 3) 3).2 = (vmm.allocPages s.mem 3).2 := by
  intro vmm
  obtain ⟨s, hrun, hlive, -, hne⟩ := exists_run_two (fun _ => 0) sixMegabytes 0 0
  exact ⟨s, hrun, hlive, hne, vmm_reuses_range (fun _ => 0) sixMegabytes 0 0 hrun hne [5, 1]⟩

end Sapphire
