import Sapphire.Platform.Boot
import Sapphire.Vmm.Run

/-! The frames behind the pages of the virtual memory manager, over runs from a first memory on.  As
long as `alloc_frame` does not return 0, the mapped frames are the ones taken since then, each mapped
once.  Where it does, `alloc_pages` maps a page to frame 0 all the same, and freeing that page frees
frame 0. -/

namespace Sapphire

open Machine

namespace FrameAllocator

variable {fa : FrameAllocator} {m : Mem}

theorem freeFrames_nodup (fa : FrameAllocator) (m : Mem) : (fa.freeFrames m).Nodup :=
  List.nodup_range.filter _

theorem reserved_le_tracked (hsize : fa.bitmapSize.toNat ≤ 2 ^ 17) :
    fa.reserved ≤ fa.tracked := by
  unfold reserved tracked
  omega

end FrameAllocator

namespace VMM

variable {vmm : VMM} {m0 : Mem} {s : VmmState}

/-! ### Without exhaustion -/

/-- No call of `alloc_frame` that `op` makes returns 0. -/
def NoZero (vmm : VMM) (s : VmmState) : VmmOp → Prop
  | .alloc numPages => (0 : BitVec 32) ∉ vmm.framesTaken s.mem numPages
  | .free _ _ => True

/-- The live pages are the mapped ones of the region, each with a frame of its own that was free in
`m0`, and the frames in use are those of `m0` and these. -/
structure Consistent (vmm : VMM) (m0 : Mem) (s : VmmState) : Prop where
  tracks : vmm.Tracks s
  absent : ∀ i < 131072, i ∉ s.pages → present (vmm.pd.pte s.mem (0xD0000 + i)) = false
  fresh : ∀ i ∈ s.pages, vmm.frameOf s.mem i < vmm.fa.scanned ∧
    vmm.fa.used m0 (vmm.frameOf s.mem i) = false
  distinct : ∀ i ∈ s.pages, ∀ j ∈ s.pages, vmm.frameOf s.mem i = vmm.frameOf s.mem j → i = j
  frames : ∀ f < vmm.fa.tracked, vmm.fa.used s.mem f =
    (vmm.fa.used m0 f || decide (∃ i ∈ s.pages, vmm.frameOf s.mem i = f))
  outside : ∀ p < 2 ^ 20, ¬ (0xD0000 ≤ p ∧ p < 0xF0000) → vmm.pd.pte s.mem p = vmm.pd.pte m0 p

/-- The pages of the region that are present are the live ones. -/
theorem Consistent.present_iff (hc : vmm.Consistent m0 s) {i : Nat} (hi : i < 131072) :
    present (vmm.pd.pte s.mem (0xD0000 + i)) = true ↔ i ∈ s.pages := by
  refine ⟨fun h => ?_, fun hmem => ?_⟩
  · by_contra hnot
    rw [hc.absent i hi hnot] at h
    cases h
  · rw [(hc.tracks.frame i hmem).1]
    exact present_mapped _

/-- The frame that a live page is mapped to, by its address. -/
theorem Consistent.pageDown_pte_eq_iff (h : vmm.Laid) (hc : vmm.Consistent m0 s) {i f : Nat}
    (hi : i ∈ s.pages) (hf : f < 2 ^ 20) :
    pageDown (vmm.pd.pte s.mem (0xD0000 + i)) = frameAddr f ↔ vmm.frameOf s.mem i = f := by
  have hscanned := h.scanned_le
  have hlt := (hc.fresh i hi).1
  rw [(hc.tracks.frame i hi).1, pageDown_mapped (frameAddr_aligned _),
    frameAddr_inj (by omega) hf]

/-- Where no call of `alloc_frame` returns 0, the free frames suffice. -/
theorem length_of_noZero {m : Mem} {n : Nat}
    (h : (0 : BitVec 32) ∉ (List.range n).map
      fun i => frameAddr ((vmm.fa.freeFrames m).getD i 0)) :
    n ≤ (vmm.fa.freeFrames m).length := by
  by_contra hlt
  apply h
  rw [List.mem_map]
  refine ⟨(vmm.fa.freeFrames m).length, List.mem_range.mpr (by omega), ?_⟩
  rw [List.getD_eq_default _ _ (le_refl _)]
  rfl

theorem mem_take_iff {l : List Nat} {n f : Nat} (hn : n ≤ l.length) :
    f ∈ l.take n ↔ ∃ k < n, l.getD k 0 = f := by
  rw [List.mem_take_iff_getElem]
  constructor
  · rintro ⟨k, hk, rfl⟩
    exact ⟨k, by omega, List.getD_eq_getElem _ _ _⟩
  · rintro ⟨k, hk, rfl⟩
    exact ⟨k, by omega, (List.getD_eq_getElem _ _ (by omega)).symm⟩

/-- A free frame was free in `m0`, and no live page has it. -/
theorem Consistent.free_frame (hc : vmm.Consistent m0 s) {f : Nat}
    (hf : f ∈ vmm.fa.freeFrames s.mem) : f < vmm.fa.scanned ∧ vmm.fa.used m0 f = false ∧
      ∀ i ∈ s.pages, vmm.frameOf s.mem i ≠ f := by
  have hscanned := vmm.fa.scanned_le_tracked
  obtain ⟨hlt, hunused⟩ := FrameAllocator.mem_freeFrames.mp hf
  have hbit := hc.frames f (by omega)
  rw [hunused] at hbit
  obtain ⟨h1, h2⟩ := Bool.or_eq_false_iff.mp hbit.symm
  exact ⟨hlt, h1, fun i hi heq => of_decide_eq_false h2 ⟨i, hi, heq⟩⟩

theorem Consistent.alloc (h : vmm.Laid) (hc : vmm.Consistent m0 s) {numPages : BitVec 32}
    (hok : vmm.NoZero s (.alloc numPages)) :
    vmm.Consistent m0 (s.apply vmm (.alloc numPages)) := by
  have ht := hc.tracks
  have htracks := ht.alloc h numPages
  rcases apply_alloc_cases h ht.wired numPages with ⟨-, heq⟩ |
    ⟨start, -, hrange, hlive, hlog, hb, -⟩
  · rw [heq]
    exact hc
  rw [NoZero, hlog] at hok
  set s' := s.apply vmm (.alloc numPages)
  set frames := vmm.fa.freeFrames s.mem with hframes
  set n := numPages.toNat
  have hn := hrange.1
  have henough : n ≤ frames.length := length_of_noZero hok
  have hmem : ∀ i, i ∈ s'.pages ↔ (∃ k < n, i = start + k) ∨ i ∈ s.pages := by
    intro i
    rw [VmmState.mem_pages_cons hlive]
    refine or_congr_left ⟨fun hi => ⟨i - start, by omega, by omega⟩, ?_⟩
    rintro ⟨k, hk, rfl⟩
    omega
  have hnew : ∀ k < n, vmm.frameOf s'.mem (start + k) = frames.getD k 0 :=
    fun k hk => hb.frameOf_new h hn hk
  have hold : ∀ i ∈ s.pages, vmm.frameOf s'.mem i = vmm.frameOf s.mem i := fun i hi =>
    frameOf_congr (hb.pte_old (ht.bound i hi) (ht.not_mem_range hrange hi))
  have hfree : ∀ k < n, frames.getD k 0 < vmm.fa.scanned ∧
      vmm.fa.used m0 (frames.getD k 0) = false ∧
      ∀ i ∈ s.pages, vmm.frameOf s.mem i ≠ frames.getD k 0 := by
    intro k hk
    apply hc.free_frame
    rw [List.getD_eq_getElem _ _ (by omega)]
    exact List.getElem_mem _
  refine ⟨htracks, fun i hi hnot => ?_, fun i hi => ?_, fun i hi j hj heq => ?_, fun f hf => ?_,
    fun p hp hout => ?_⟩
  · rw [hmem, not_or] at hnot
    rw [hb.pte_old hi fun hin => hnot.1 ⟨i - start, by omega, by omega⟩]
    exact hc.absent i hi hnot.2
  · rcases (hmem i).mp hi with ⟨k, hk, rfl⟩ | hi
    · rw [hnew k hk]
      exact ⟨(hfree k hk).1, (hfree k hk).2.1⟩
    · rw [hold i hi]
      exact hc.fresh i hi
  · rcases (hmem i).mp hi with ⟨k, hk, rfl⟩ | hi
    · rcases (hmem j).mp hj with ⟨l, hl, rfl⟩ | hj
      · rw [hnew k hk, hnew l hl, List.getD_eq_getElem _ _ (by omega),
          List.getD_eq_getElem _ _ (by omega)] at heq
        have := (vmm.fa.freeFrames_nodup s.mem).getElem_inj_iff.mp heq
        omega
      · rw [hnew k hk, hold j hj] at heq
        exact absurd heq.symm ((hfree k hk).2.2 j hj)
    · rcases (hmem j).mp hj with ⟨l, hl, rfl⟩ | hj
      · rw [hnew l hl, hold i hi] at heq
        exact absurd heq ((hfree l hl).2.2 i hi)
      · rw [hold i hi, hold j hj] at heq
        exact hc.distinct i hi j hj heq
  · rw [hb.frames f hf, hc.frames f hf, Bool.or_assoc, ← Bool.decide_or]
    congr 1
    rw [decide_eq_decide, mem_take_iff henough]
    constructor
    · rintro (⟨i, hi, rfl⟩ | ⟨k, hk, rfl⟩)
      · exact ⟨i, (hmem i).mpr (Or.inr hi), hold i hi⟩
      · exact ⟨start + k, (hmem _).mpr (Or.inl ⟨k, hk, rfl⟩), hnew k hk⟩
    · rintro ⟨i, hi, rfl⟩
      rcases (hmem i).mp hi with ⟨k, hk, rfl⟩ | hi
      · exact Or.inr ⟨k, hk, (hnew k hk).symm⟩
      · exact Or.inl ⟨i, hi, (hold i hi).symm⟩
  · have hlegal : s.Legal (.alloc numPages) := trivial
    exact (ht.pte_outside h hlegal hp hout).trans (hc.outside p hp hout)

theorem Consistent.free (h : vmm.Laid) (hc : vmm.Consistent m0 s) {addr numPages : BitVec 32}
    (hlegal : s.Legal (.free addr numPages)) :
    vmm.Consistent m0 (s.apply vmm (.free addr numPages)) := by
  have ht := hc.tracks
  have htracks := ht.free h hlegal
  rcases apply_free_cases h ht hlegal with ⟨-, heq⟩ | ⟨start, -, hend, hlive, hpages, hrel, -⟩
  · rw [heq]
    exact hc
  set s' := s.apply vmm (.free addr numPages)
  set n := numPages.toNat
  have hmem := fun i => VmmState.mem_pages_filter hpages (i := i)
  have hold : ∀ i ∈ s'.pages, vmm.frameOf s'.mem i = vmm.frameOf s.mem i := fun i hi =>
    frameOf_congr (hrel.pte_old (ht.bound i ((hmem i).mp hi).1) ((hmem i).mp hi).2)
  refine ⟨htracks, fun i hi hnot => ?_, fun i hi => ?_, fun i hi j hj heq => ?_, fun f hf => ?_,
    fun p hp hout => ?_⟩
  · rw [hrel.pte _ (by omega)]
    by_cases hin : start ≤ i ∧ i < start + n
    · rw [if_pos (by omega)]
      rfl
    · rw [if_neg (by omega)]
      exact hc.absent i hi fun hi' => hnot ((hmem i).mpr ⟨hi', hin⟩)
  · rw [hold i hi]
    exact hc.fresh i ((hmem i).mp hi).1
  · rw [hold i hi, hold j hj] at heq
    exact hc.distinct i ((hmem i).mp hi).1 j ((hmem j).mp hj).1 heq
  · rw [hrel.frames f hf, hc.frames f hf]
    by_cases hfreed : ∃ k < n, vmm.frameOf s.mem (start + k) = f
    · -- the frame was not in use in `m0`, and no other page has it
      have hfreed' := hfreed
      obtain ⟨k, hk, hfk⟩ := hfreed'
      have hunused := (hc.fresh _ (hlive k hk)).2
      have hnone : ¬ ∃ i ∈ s'.pages, vmm.frameOf s'.mem i = f := by
        rintro ⟨i, hi, heq⟩
        rw [hold i hi, ← hfk] at heq
        have := hc.distinct i ((hmem i).mp hi).1 _ (hlive k hk) heq
        exact ((hmem i).mp hi).2 (by omega)
      rw [hfk] at hunused
      rw [hunused, decide_eq_false hnone, decide_eq_true hfreed, Bool.not_true, Bool.and_false]
      rfl
    · have hsame : (∃ i ∈ s.pages, vmm.frameOf s.mem i = f) ↔
          ∃ i ∈ s'.pages, vmm.frameOf s'.mem i = f := by
        constructor
        · rintro ⟨i, hi, heq⟩
          have hi' : i ∈ s'.pages := by
            refine (hmem i).mpr ⟨hi, fun hin => hfreed ⟨i - start, by omega, ?_⟩⟩
            rwa [show start + (i - start) = i by omega]
          exact ⟨i, hi', by rwa [hold i hi']⟩
        · rintro ⟨i, hi, heq⟩
          exact ⟨i, ((hmem i).mp hi).1, by rwa [← hold i hi]⟩
      rw [decide_eq_false hfreed, Bool.not_false, Bool.and_true, decide_eq_decide.mpr hsame]
  · exact (ht.pte_outside h hlegal hp hout).trans (hc.outside p hp hout)

theorem Consistent.run (h : vmm.Laid) {s' : VmmState} (hc : vmm.Consistent m0 s)
    (hrun : VmmState.Runs vmm vmm.NoZero s s') : vmm.Consistent m0 s' := by
  refine hrun.induct (fun t op hinv hlegal hok => ?_) hc
  cases op with
  | alloc numPages => exact hinv.alloc h hok
  | free addr numPages => exact hinv.free h hlegal

/-! ### With exhaustion -/

/-- Where there are free pages but not enough frames, `alloc_pages` succeeds all the same, and maps
the last of the pages to frame 0. -/
theorem allocPages_exhausted (h : vmm.Laid) {m : Mem} (hw : vmm.pd.Wired m)
    {numPages : BitVec 32} {start : Nat} (hrange : vmm.FreeRange m numPages.toNat start)
    (hfew : (vmm.fa.freeFrames m).length < numPages.toNat) :
    (vmm.allocPages m numPages).2 ≠ 0 ∧ ∃ i < 131072, vmm.used m i = false ∧
      vmm.used (vmm.allocPages m numPages).1 i = true ∧
      vmm.pd.pte (vmm.allocPages m numPages).1 (0xD0000 + i) = mapped 0 := by
  rcases allocPages_cases h hw numPages with
    ⟨hnone, -⟩ | ⟨first, hpos, ⟨hfirst, -⟩, haddr, -, hb, hbits⟩
  · exact absurd hnone (hrange.not_none (by bv_omega))
  · have hn := hfirst.1
    refine ⟨?_, first + (numPages.toNat - 1), by omega, hfirst.2 _ (by omega), ?_, ?_⟩
    · rw [haddr, frameAddr]
      bv_omega
    · rw [hbits _ (by omega), if_pos (by omega)]
    · rw [hb.pte_new hn (by omega), List.getD_eq_default _ _ (by omega)]
      rfl

/-- `op` frees no page that is mapped to frame 0. -/
def KeepsZero (vmm : VMM) (s : VmmState) : VmmOp → Prop
  | .alloc _ => True
  | .free addr numPages => ∀ k < numPages.toNat,
      pageDown (vmm.pd.pte s.mem ((addr + BitVec.ofNat 32 k * pageSize).toNat / 4096)) ≠ 0

/-- The reserved frames are in use, and no live page is mapped to one of them but 0. -/
structure Reserves (vmm : VMM) (s : VmmState) : Prop where
  tracks : vmm.Tracks s
  reserved : ∀ f < vmm.fa.reserved, vmm.fa.used s.mem f = true
  pages : ∀ i ∈ s.pages, vmm.frameOf s.mem i = 0 ∨ vmm.fa.reserved ≤ vmm.frameOf s.mem i

theorem Reserves.alloc (h : vmm.Laid) (hr : vmm.Reserves s) (numPages : BitVec 32) :
    vmm.Reserves (s.apply vmm (.alloc numPages)) := by
  have ht := hr.tracks
  have htracks := ht.alloc h numPages
  have htracked := vmm.fa.reserved_le_tracked h.size
  rcases apply_alloc_cases h ht.wired numPages with ⟨-, heq⟩ | ⟨start, -, hrange, hlive, -, hb, -⟩
  · rw [heq]
    exact hr
  refine ⟨htracks, fun f hf => ?_, fun i hi => ?_⟩
  · rw [hb.frames f (by omega), hr.reserved f hf, Bool.true_or]
  · rw [VmmState.mem_pages_cons hlive] at hi
    rcases hi with hi | hi
    · obtain ⟨k, rfl⟩ : ∃ k, i = start + k := ⟨i - start, by omega⟩
      rw [hb.frameOf_new h hrange.1 (by omega)]
      rcases getD_freeFrames vmm.fa s.mem k with ⟨-, -, hfree⟩ | hzero
      · refine Or.inr (Nat.le_of_not_lt fun hlt => ?_)
        rw [hr.reserved _ hlt] at hfree
        cases hfree
      · exact Or.inl hzero
    · rw [frameOf_congr (hb.pte_old (ht.bound i hi) (ht.not_mem_range hrange hi))]
      exact hr.pages i hi

/-- `free_pages` frees the frames of its pages, frame 0 with them if a page is mapped to it. -/
theorem Reserves.free (h : vmm.Laid) (hr : vmm.Reserves s) {addr numPages : BitVec 32}
    (hlegal : s.Legal (.free addr numPages)) :
    (vmm.KeepsZero s (.free addr numPages) → vmm.Reserves (s.apply vmm (.free addr numPages))) ∧
    (¬ vmm.KeepsZero s (.free addr numPages) →
      vmm.fa.used (s.apply vmm (.free addr numPages)).mem 0 = false) := by
  have ht := hr.tracks
  have hscanned := h.scanned_le
  have htracked := vmm.fa.reserved_le_tracked h.size
  rcases apply_free_cases h ht hlegal with ⟨hzero, heq⟩ |
    ⟨start, haddr, hend, hlive, hpages, hrel, -⟩
  · rw [heq]
    exact ⟨fun _ => hr, fun hnot => absurd (fun k hk => by omega) hnot⟩
  have hkeeps : vmm.KeepsZero s (.free addr numPages) ↔
      ∀ k < numPages.toNat, vmm.frameOf s.mem (start + k) ≠ 0 := by
    refine forall₂_congr fun k hk => not_congr ?_
    obtain ⟨hpte, hlt⟩ := ht.frame _ (hlive k hk)
    rw [page_add haddr (by omega), Nat.add_assoc, hpte, pageDown_mapped (frameAddr_aligned _)]
    exact frameAddr_inj (f := vmm.frameOf s.mem (start + k)) (g := 0) (by omega) (by decide)
  constructor
  · intro hkeep
    refine ⟨ht.free h hlegal, fun f hf => ?_, fun i hi => ?_⟩
    · have hnot : ¬ ∃ k < numPages.toNat, vmm.frameOf s.mem (start + k) = f := by
        rintro ⟨k, hk, rfl⟩
        have hne := hkeeps.mp hkeep k hk
        rcases hr.pages _ (hlive k hk) with h0 | hge <;> omega
      rw [hrel.frames f (by omega), hr.reserved f hf, decide_eq_false hnot]
      rfl
    · rw [VmmState.mem_pages_filter hpages] at hi
      rw [frameOf_congr (hrel.pte_old (ht.bound i hi.1) hi.2)]
      exact hr.pages i hi.1
  · intro hnot
    have hfreed : ∃ k < numPages.toNat, vmm.frameOf s.mem (start + k) = 0 := by
      by_contra hnone
      refine hnot (hkeeps.mpr fun k hk h0 => hnone ⟨k, hk, h0⟩)
    have hlow : 0 < vmm.fa.reserved := FrameAllocator.lt_reserved_iff.mpr (by omega)
    rw [hrel.frames 0 (by omega), decide_eq_true hfreed, Bool.not_true, Bool.and_false]

/-- `op` frees a whole live allocation, by its pointer and its number of pages. -/
def FreesWhole (s : VmmState) : VmmOp → Prop
  | .alloc _ => True
  | .free addr numPages => addr ≠ 0 ∧ ∃ start, addr = frameAddr (0xD0000 + start) ∧
      List.range' start numPages.toNat ∈ s.live

/-- The call that frees the allocation just made. -/
theorem free_fresh {s1 : VmmState} {start : Nat} {numPages : BitVec 32}
    (hlive : s1.live = List.range' start numPages.toNat :: s.live) (hpos : 0 < numPages.toNat)
    (hn : start + numPages.toNat ≤ 131072) :
    s1.Legal (.free (frameAddr (0xD0000 + start)) numPages) ∧
      FreesWhole s1 (.free (frameAddr (0xD0000 + start)) numPages) := by
  have haddr := page_frameAddr (f := 0xD0000 + start) (by omega)
  refine ⟨fun k hk => ⟨start + k, ?_, by rw [page_add haddr (by omega), Nat.add_assoc]⟩,
    ?_, start, rfl, ?_⟩
  · rw [VmmState.mem_pages_cons hlive]
    exact Or.inl (by omega)
  · unfold frameAddr
    bv_omega
  · rw [hlive]
    exact List.mem_cons_self

/-- An allocation that ran out of frames frees frame 0 when it is freed. -/
theorem Reserves.free_exhausted (h : vmm.Laid) (hr : vmm.Reserves s) {numPages : BitVec 32}
    {first : Nat} (hrange : vmm.FreeRange s.mem numPages.toNat first)
    (hfew : (vmm.fa.freeFrames s.mem).length < numPages.toNat) :
    let s1 := s.apply vmm (.alloc numPages)
    ∃ addr, s1.Legal (.free addr numPages) ∧ FreesWhole s1 (.free addr numPages) ∧
      vmm.fa.used (s1.apply vmm (.free addr numPages)).mem 0 = false := by
  intro s1
  rcases apply_alloc_cases h hr.tracks.wired numPages with ⟨hnone, -⟩ |
    ⟨start, hpos, hfree, hlive, -, hb, -⟩
  · exact absurd hnone (hrange.not_none (by bv_omega))
  have hn := hfree.1
  have haddr := page_frameAddr (f := 0xD0000 + start) (by omega)
  obtain ⟨hlegal, hwhole⟩ := free_fresh hlive hpos hn
  refine ⟨frameAddr (0xD0000 + start), hlegal, hwhole, ?_⟩
  refine ((hr.alloc h numPages).free h hlegal).2 fun hkeep => ?_
  -- the last of the pages is mapped to frame 0
  refine hkeep (numPages.toNat - 1) (by omega) ?_
  rw [page_add haddr (by omega), Nat.add_assoc, hb.pte_new hn (by omega),
    List.getD_eq_default _ _ (by omega)]
  exact pageDown_mapped rfl

end VMM

end Sapphire
