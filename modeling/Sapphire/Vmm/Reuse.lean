import Sapphire.Vmm.Frames

/-! Freeing what was just allocated, and allocating again what was freed.  `free_pages` of the pages
that `alloc_pages` returned puts the two bitmaps and the page tables back as they were, and, however
many allocations were made in between, the next `alloc_pages` of as many pages finds the same ones
again. -/

namespace Sapphire

open Machine

namespace VMM

variable {vmm : VMM} {m m' : Mem} {s : VmmState}

/-- The bitmap of the region, that of the frames and the page tables are the same in `m'` as in
`m`. -/
structure Restores (vmm : VMM) (m m' : Mem) : Prop where
  pages : ∀ i < 131072, vmm.used m' i = vmm.used m i
  frames : ∀ f < 8 * vmm.fa.bitmapSize.toNat, vmm.fa.used m' f = vmm.fa.used m f
  tables : ∀ p < 2 ^ 20, vmm.pd.pte m' p = vmm.pd.pte m p

/-- The entries of the pages of the region that are not in use are zero. -/
def Blank (vmm : VMM) (m : Mem) : Prop :=
  ∀ i < 131072, vmm.used m i = false → vmm.pd.pte m (0xD0000 + i) = 0

/-- The pointer of a free range. -/
theorem frameAddr_region (start : Nat) (hs : start ≤ 131072) :
    frameAddr (0xD0000 + start) ≠ 0 ∧
      (frameAddr (0xD0000 + start)).toNat / 4096 = 0xD0000 + start := by
  unfold frameAddr
  constructor <;> bv_omega

/-! ### Undoing an allocation -/

/-- The frames that `alloc_pages` takes are the ones that `free_pages` gives back. -/
theorem used_take_not {n : Nat} (henough : n ≤ (vmm.fa.freeFrames m).length) {f : Nat} :
    ((vmm.fa.used m f || decide (f ∈ (vmm.fa.freeFrames m).take n)) &&
      !decide (∃ k < n, (vmm.fa.freeFrames m).getD k 0 = f)) = vmm.fa.used m f := by
  simp only [← mem_take_iff henough]
  by_cases hf : f ∈ (vmm.fa.freeFrames m).take n
  · have hfree := (FrameAllocator.mem_freeFrames.mp (List.mem_of_mem_take hf)).2
    simp [hf, hfree]
  · simp [hf]

theorem freePages_allocPages (h : vmm.Laid) (hw : vmm.pd.Wired m) (hblank : vmm.Blank m)
    {numPages : BitVec 32} (henough : numPages.toNat ≤ (vmm.fa.freeFrames m).length)
    (hne : (vmm.allocPages m numPages).2 ≠ 0) :
    vmm.Restores m
      (vmm.freePages (vmm.allocPages m numPages).1 (vmm.allocPages m numPages).2 numPages) := by
  rcases allocPages_cases h hw numPages with
    ⟨-, hnull⟩ | ⟨start, hpos, ⟨hrange, -⟩, haddr, -, hb, hbits⟩
  · rw [hnull] at hne
    exact absurd rfl hne
  have hn := hrange.1
  have hframe : ∀ k < numPages.toNat,
      vmm.pd.pte (vmm.allocPages m numPages).1 (0xD0000 + start + k) =
        mapped (frameAddr ((vmm.fa.freeFrames m).getD k 0)) ∧
      ((vmm.fa.freeFrames m).getD k 0 < vmm.fa.scanned ∨ (vmm.fa.freeFrames m).getD k 0 = 0) := by
    intro k hk
    rw [Nat.add_assoc]
    refine ⟨hb.pte_new hn hk, ?_⟩
    rcases getD_freeFrames vmm.fa m k with ⟨-, hlt, -⟩ | hzero
    · exact Or.inl hlt
    · exact Or.inr hzero
  rw [haddr]
  obtain ⟨hrel, hfreed⟩ := freePages_spec h hb.wired
    (frameAddr_region start (by omega)).2 hn hframe
  refine ⟨fun i hi => ?_, fun f hf => ?_, fun p hp => ?_⟩
  · rw [hfreed i hi, hbits i hi]
    split_ifs with hin
    · have hfree := hrange.2 (i - start) (by omega)
      rwa [show start + (i - start) = i by omega, eq_comm] at hfree
    · rfl
  · have htracked : f < vmm.fa.tracked := by
      unfold FrameAllocator.tracked
      omega
    rw [hrel.frames f htracked, hb.frames f htracked, used_take_not henough]
  · rw [hrel.pte p hp, hb.pte p hp]
    split_ifs with hin
    · obtain ⟨k, rfl⟩ : ∃ k, p = 0xD0000 + (start + k) := ⟨p - 0xD0000 - start, by omega⟩
      exact (hblank _ (by omega) (hrange.2 k (by omega))).symm
    · rfl

/-- Every call keeps the entries of unused pages zero. -/
theorem Tracks.blank (h : vmm.Laid) (ht : vmm.Tracks s) (hblank : vmm.Blank s.mem) {op : VmmOp}
    (hlegal : s.Legal op) : vmm.Blank (s.apply vmm op).mem := by
  intro i hi hfree
  cases op with
  | alloc numPages =>
    rcases apply_alloc_cases h ht.wired numPages with ⟨-, heq⟩ | ⟨start, -, -, -, -, hb, hbits⟩
    · rw [heq] at hfree ⊢
      exact hblank i hi hfree
    · rw [hbits i hi] at hfree
      split_ifs at hfree with hin
      rw [hb.pte_old hi hin]
      exact hblank i hi hfree
  | free addr numPages =>
    rcases apply_free_cases h ht hlegal with ⟨-, heq⟩ | ⟨start, -, hend, -, -, hrel, hbits⟩
    · rw [heq] at hfree ⊢
      exact hblank i hi hfree
    · rw [hbits i hi] at hfree
      split_ifs at hfree with hin
      · rw [hrel.pte _ (by omega), if_pos (by omega)]
      · rw [hrel.pte_old hi hin]
        exact hblank i hi hfree

theorem Tracks.run_blank (h : vmm.Laid) {ok : VmmState → VmmOp → Prop} {s' : VmmState}
    (ht : vmm.Tracks s) (hblank : vmm.Blank s.mem) (hrun : VmmState.Runs vmm ok s s') :
    vmm.Blank s'.mem := by
  have hinv : vmm.Tracks s' ∧ vmm.Blank s'.mem :=
    hrun.induct (P := fun t => vmm.Tracks t ∧ vmm.Blank t.mem)
      (fun _ _ hinv hlegal _ => ⟨hinv.1.step h hlegal, hinv.1.blank h hinv.2 hlegal⟩) ⟨ht, hblank⟩
  exact hinv.2

/-! ### Reusing a range -/

/-- `alloc_pages` does not fail where there is a free range. -/
theorem allocPages_ne_zero (h : vmm.Laid) (hw : vmm.pd.Wired m) {numPages : BitVec 32}
    (hne : numPages ≠ 0) {start : Nat} (hrange : vmm.FreeRange m numPages.toNat start) :
    (vmm.allocPages m numPages).2 ≠ 0 := by
  rcases allocPages_cases h hw numPages with ⟨hnone, -⟩ | ⟨t, -, hleft, haddr, -⟩
  · exact absurd hnone (hrange.not_none hne)
  · have hn := hleft.range.1
    rw [haddr]
    exact (frameAddr_region t (by omega)).1

theorem allocPages_of_leftmost (h : vmm.Laid) (hw : vmm.pd.Wired m) {numPages : BitVec 32}
    (hne : numPages ≠ 0) {start : Nat} (hleft : vmm.Leftmost m numPages.toNat start) :
    (vmm.allocPages m numPages).2 = frameAddr (0xD0000 + start) := by
  rcases allocPages_cases h hw numPages with ⟨hnone, -⟩ | ⟨t, -, ht, haddr, -⟩
  · exact absurd hnone (hleft.range.not_none hne)
  · rw [haddr, ht.unique hleft]

/-- An allocation takes the first free range. -/
theorem apply_alloc_of_leftmost (h : vmm.Laid) (hw : vmm.pd.Wired s.mem) {numPages : BitVec 32}
    (hne : numPages ≠ 0) {start : Nat} (hleft : vmm.Leftmost s.mem numPages.toNat start) :
    (s.apply vmm (.alloc numPages)).live = List.range' start numPages.toNat :: s.live ∧
      vmm.Backs s.mem (s.apply vmm (.alloc numPages)).mem start numPages.toNat := by
  have hn := hleft.range.1
  have hptr := frameAddr_region start (by omega)
  have hidx : ((frameAddr (0xD0000 + start) - vmm.regionStart) / pageSize).toNat = start := by
    rw [h.regionStart, BitVec.toNat_udiv, frameAddr, show pageSize.toNat = 4096 from rfl]
    bv_omega
  rcases allocPages_cases h hw numPages with ⟨hnone, -⟩ | ⟨t, -, ht, haddr, -, hb, -⟩
  · exact absurd hnone (hleft.range.not_none hne)
  · obtain rfl := ht.unique hleft
    refine ⟨?_, hb⟩
    rw [VmmState.apply]
    dsimp only
    rw [haddr, if_neg hptr.1, hidx]

/-- Where the pages before `start` are live and those of a range from `start` on are not, that range
is the first free one. -/
theorem Tracks.leftmost (ht : vmm.Tracks s) {start n : Nat} (hpos : 0 < n)
    (hn : start + n ≤ 131072) (hfree : ∀ i, start ≤ i → i < start + n → i ∉ s.pages)
    (hlive : ∀ i < start, i ∈ s.pages) : vmm.Leftmost s.mem n start := by
  refine ⟨⟨hn, fun k hk => ?_⟩, fun t hrange => ?_⟩
  · rw [ht.bits _ (by omega), decide_eq_false (hfree _ (by omega) (by omega))]
  · by_contra hlt
    exact ht.not_mem_range hrange (hlive t (by omega)) ⟨le_refl t, by omega⟩

/-- The first free range is that again when it is free after its pages were in use and nothing that
was in use before was freed. -/
theorem Leftmost.again {n start : Nat} (hleft : vmm.Leftmost m n start)
    (hfree : ∀ k < n, vmm.used m' (start + k) = false)
    (hkept : ∀ i < 131072, vmm.used m i = true → vmm.used m' i = true) :
    vmm.Leftmost m' n start := by
  refine ⟨⟨hleft.range.1, hfree⟩, fun t ht => hleft.least t ⟨ht.1, fun k hk => ?_⟩⟩
  have hend := ht.1
  by_contra hused
  have := hkept (t + k) (by omega) (by simpa using hused)
  rw [ht.2 k hk] at this
  cases this

end VMM

/-- Further calls of `alloc_pages`, in order. -/
def VmmState.allocAll (vmm : VMM) (s : VmmState) (sizes : List (BitVec 32)) : VmmState :=
  sizes.foldl (fun s numPages => s.apply vmm (.alloc numPages)) s

namespace VMM

variable {vmm : VMM} {s : VmmState}

/-- Allocations free no page. -/
theorem Tracks.used_alloc (h : vmm.Laid) (ht : vmm.Tracks s) (numPages : BitVec 32) {i : Nat}
    (hi : i < 131072) (hused : vmm.used s.mem i = true) :
    vmm.used (s.apply vmm (.alloc numPages)).mem i = true := by
  rcases apply_alloc_cases h ht.wired numPages with ⟨-, heq⟩ | ⟨start, -, -, -, -, -, hbits⟩
  · rwa [heq]
  · rw [hbits i hi, hused, ite_self]

theorem Tracks.allocAll (h : vmm.Laid) (ht : vmm.Tracks s) (sizes : List (BitVec 32)) :
    vmm.Tracks (s.allocAll vmm sizes) ∧ ∀ i < 131072, vmm.used s.mem i = true →
      vmm.used (s.allocAll vmm sizes).mem i = true := by
  induction sizes generalizing s with
  | nil => exact ⟨ht, fun i _ hused => hused⟩
  | cons numPages sizes ih =>
    obtain ⟨ht', hkept⟩ := ih (ht.alloc h numPages)
    exact ⟨ht', fun i hi hused => hkept i hi (ht.used_alloc h numPages hi hused)⟩

/-- After an allocation, any more of them and the free of the first, the same number of pages is
found at the same address. -/
theorem Tracks.reuse (h : vmm.Laid) (ht : vmm.Tracks s) {numPages : BitVec 32}
    (hne : (vmm.allocPages s.mem numPages).2 ≠ 0) (sizes : List (BitVec 32)) :
    (vmm.allocPages (vmm.freePages ((s.apply vmm (.alloc numPages)).allocAll vmm sizes).mem
      (vmm.allocPages s.mem numPages).2 numPages) numPages).2 =
      (vmm.allocPages s.mem numPages).2 := by
  rcases allocPages_cases h ht.wired numPages with
    ⟨-, hnull⟩ | ⟨start, hpos, hleft, haddr, -, -, hbits⟩
  · rw [hnull] at hne
    exact absurd rfl hne
  have hn := hleft.range.1
  obtain ⟨ht', hkept⟩ := (ht.alloc h numPages).allocAll h sizes
  set t := (s.apply vmm (.alloc numPages)).allocAll vmm sizes
  have hnew : ∀ k < numPages.toNat, start + k ∈ t.pages := by
    intro k hk
    have hused : vmm.used t.mem (start + k) = true := by
      refine hkept _ (by omega) ((hbits _ (by omega)).trans ?_)
      rw [if_pos (by omega)]
    rwa [ht'.bits _ (by omega), decide_eq_true_eq] at hused
  obtain ⟨hrel, hfreed⟩ := freePages_spec h ht'.wired
    (frameAddr_region start (by omega)).2 hn fun k hk => by
      have := ht'.frame _ (hnew k hk)
      rwa [← Nat.add_assoc] at this
  rw [haddr]
  refine allocPages_of_leftmost h hrel.wired (by bv_omega) (hleft.again (fun k hk => ?_) ?_)
  · rw [hfreed _ (by omega), if_pos (by omega)]
  · intro i hi hused
    -- a page in use before the first allocation is not one of its pages
    have hout : ¬ (start ≤ i ∧ i < start + numPages.toNat) := by
      rintro ⟨h1, h2⟩
      have hfree := hleft.range.2 (i - start) (by omega)
      rw [show start + (i - start) = i by omega, hused] at hfree
      cases hfree
    rw [hfreed i hi, if_neg hout]
    exact hkept i hi (ht.used_alloc h numPages hi hused)

end VMM

end Sapphire
