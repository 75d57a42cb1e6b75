import Sapphire.FrameAlloc.Run
import Sapphire.Paging.Walk

/-! Which frames `alloc_frame` can hand out, and how they relate to the memory that the map really
describes.  The entries' ranges are rounded outwards to pages, so a frame may lie partly outside the
usable memory, and an end above `0xFFFFF000` rounds up to 0, so that an entry may be dropped. -/

namespace Sapphire

open Machine FrameAllocator

namespace FrameAllocator

variable {fa : FrameAllocator} {m : Mem} {mmap : MemoryMap}

/-- Some run after `init` has a call of `alloc_frame` that returns frame `f`. -/
def Returns (m : Mem) (mmap : MemoryMap) (f : Nat) : Prop :=
  ∃ s, Reaches m mmap s ∧ ((init m mmap).1.allocFrame s.mem).2 ≠ 0 ∧
    ((init m mmap).1.allocFrame s.mem).2.toNat / 4096 = f

/-- `k` calls of `alloc_frame` take the first `k` free frames. -/
theorem Reaches.drop {s : FrameState} (h : Reaches m mmap s) (k : Nat) :
    ∃ s', Reaches m mmap s' ∧ (init m mmap).1.freeFrames s'.mem =
      ((init m mmap).1.freeFrames s.mem).drop k := by
  induction k with
  | zero => exact ⟨s, h, rfl⟩
  | succ k ih =>
    obtain ⟨s', hs', hfree⟩ := ih
    refine ⟨_, hs'.tail (FrameStep.alloc s'), ?_⟩
    rw [(allocFrame_freeFrames (bitmapSize_le m mmap)).2, hfree, List.tail_drop]

/-- The frames that can be returned are those that are covered, not reserved and looked at. -/
theorem returns_iff (m : Mem) (mmap : MemoryMap) (f : Nat) :
    Returns m mmap f ↔
      f < (init m mmap).1.scanned ∧ (init m mmap).1.reserved ≤ f ∧ mmap.Covered f := by
  have hsize := bitmapSize_le m mmap
  constructor
  · rintro ⟨s, hs, hne, rfl⟩
    rcases allocFrame_spec hsize (hs.holding.zero (init_zero m mmap)) with
      ⟨-, hr⟩ | ⟨g, hlow, hg, -, hr⟩
    · rw [hr] at hne
      exact absurd rfl hne
    · rw [hr, page_frameAddr hg]
      have hfree := ((hs.holding.free_iff hg).mp hlow.free).1
      exact ⟨hlow.scanned, (init_used m mmap hlow.scanned).mp hfree⟩
  · rintro ⟨hf, hok⟩
    have hscanned := (init m mmap).1.scanned_le
    have hmem := mem_freeFrames.mpr ⟨hf, (init_used m mmap hf).mpr hok⟩
    obtain ⟨k, hk, hget⟩ := List.getElem_of_mem hmem
    obtain ⟨s, hs, hfree⟩ := Reaches.drop (s := start m mmap) .refl k
    -- `f` is the first free frame of the state after `k` calls
    have haddr : ((init m mmap).1.allocFrame s.mem).2 = frameAddr f := by
      rw [(allocFrame_freeFrames hsize).1, hfree, start, List.drop_eq_getElem_cons hk,
        List.headD_cons, hget]
    refine ⟨s, hs, ?_, ?_⟩
    · rw [haddr]
      intro h0
      have hzero : f = 0 := (frameAddr_inj (by omega) (by decide)).mp h0
      have hres : 0 < (init m mmap).1.reserved := lt_reserved_iff.mpr (by omega)
      omega
    · rw [haddr, page_frameAddr (by omega)]

end FrameAllocator

/-! ### Frames outside the usable memory -/

namespace MemoryMap

/-- Every byte of page `p` is in some usable entry. -/
def InRam (mmap : MemoryMap) (p : Nat) : Prop :=
  ∀ a, 4096 * p ≤ a → a < 4096 * p + 4096 → ∃ e ∈ mmap.entries, e.type = 1 ∧ e.Spans a

/-- No byte of page `p` is in an entry of another type. -/
def Clear (mmap : MemoryMap) (p : Nat) : Prop :=
  ∀ e ∈ mmap.entries, e.type ≠ 1 → ∀ a, 4096 * p ≤ a → a < 4096 * p + 4096 → ¬ e.Spans a

/-- The end of the reserved memory, from the highest end of a usable entry. -/
def reservedEnd (mmap : MemoryMap) : Nat := 0x500000 + ((highestAddr mmap).toNat / 4096 + 7) / 8

/-- Page `p` is above the reserved memory and has its bit in a whole word of the bitmap. -/
def Allocatable (mmap : MemoryMap) (p : Nat) : Prop :=
  mmap.reservedEnd ≤ 4096 * p ∧ p < 32 * (((highestAddr mmap).toNat / 4096 + 7) / 8 / 4)

/-- Rounding the entries outwards to pages adds no page that it should not: the other usable entries
fill a page that it adds to one, no entry of another type reaches into the rounded pages, and the
page of the highest end, of which only a part is below that end, is not taken where its bit is in a
whole word. -/
structure RoundsIntoRam (mmap : MemoryMap) : Prop where
  ram : ∀ e ∈ mmap.entries, ∀ p, e.Covers p → mmap.Allocatable p → ¬ e.SpansPage p → mmap.InRam p
  clear : ∀ e ∈ mmap.entries, ∀ o ∈ mmap.entries, o.type ≠ 1 → ∀ p, e.Covers p →
    mmap.Allocatable p → ¬ o.Meets p
  top : 25 ≤ (highestAddr mmap).toNat / 4096 % 32 →
    mmap.reservedEnd ≤ 4096 * ((highestAddr mmap).toNat / 4096) →
    ¬ mmap.Covered ((highestAddr mmap).toNat / 4096)

theorem allocatable_top (mmap : MemoryMap) :
    mmap.Allocatable ((highestAddr mmap).toNat / 4096) ↔
      mmap.reservedEnd ≤ 4096 * ((highestAddr mmap).toNat / 4096) ∧
      25 ≤ (highestAddr mmap).toNat / 4096 % 32 := by
  rw [Allocatable]
  omega

/-- The covered pages are those up to the one of the highest end. -/
theorem Covered.le_top {mmap : MemoryMap} {p : Nat} (h : mmap.Covered p) :
    p ≤ (highestAddr mmap).toNat / 4096 := by
  obtain ⟨e, he, htype, -, hlast⟩ := h
  have hle := clamp_le_highestAddr he htype
  rw [endPage] at hlast
  split at hlast <;> omega

theorem clear_iff {mmap : MemoryMap} {p : Nat} :
    mmap.Clear p ↔ ∀ o ∈ mmap.entries, o.type ≠ 1 → ¬ o.Meets p := by
  refine forall₃_congr fun o _ _ => ⟨fun h hmeets => ?_, fun h a h1 h2 hspans => h ?_⟩
  · rw [E820Entry.Meets] at hmeets
    refine h (max o.base.toNat (4096 * p)) ?_ ?_ ⟨?_, ?_⟩ <;> omega
  · obtain ⟨h3, h4⟩ := hspans
    rw [E820Entry.Meets]
    omega

end MemoryMap

theorem E820Entry.SpansPage.inRam {mmap : MemoryMap} {e : E820Entry} {p : Nat}
    (h : e.SpansPage p) (he : e ∈ mmap.entries) (htype : e.type = 1) : mmap.InRam p := by
  intro a h1 h2
  exact ⟨e, he, htype, Nat.le_trans h.1 h1, Nat.lt_of_lt_of_le h2 h.2⟩

theorem returns_iff_allocatable (m : Mem) (mmap : MemoryMap) (f : Nat) :
    Returns m mmap f ↔ mmap.Allocatable f ∧ mmap.Covered f := by
  rw [returns_iff, MemoryMap.Allocatable, MemoryMap.reservedEnd, reserved, scanned,
    toNat_bitmapSize]
  constructor
  · rintro ⟨h1, h2, h3⟩
    exact ⟨⟨by omega, h1⟩, h3⟩
  · rintro ⟨⟨h1, h2⟩, h3⟩
    exact ⟨h2, by omega, h3⟩

/-- Only usable memory is allocated exactly when rounding the entries adds no other page. -/
theorem frames_in_ram_iff (m : Mem) (mmap : MemoryMap) :
    (∀ f, Returns m mmap f → mmap.InRam f ∧ mmap.Clear f ∧
      f < (init m mmap).1.totalFrames.toNat) ↔ mmap.RoundsIntoRam := by
  simp only [returns_iff_allocatable, toNat_totalFrames]
  constructor
  · intro h
    refine ⟨fun e he p hcov halloc _ => (h p ⟨halloc, e, he, hcov⟩).1,
      fun e he o ho htype p hcov halloc => ?_, fun hbit hres hcov => ?_⟩
    · exact MemoryMap.clear_iff.mp (h p ⟨halloc, e, he, hcov⟩).2.1 o ho htype
    · have hlt := (h _ ⟨mmap.allocatable_top.mpr ⟨hres, hbit⟩, hcov⟩).2.2
      omega
  · rintro h f ⟨halloc, hcov⟩
    have hle := hcov.le_top
    obtain ⟨e, he, hcove⟩ := hcov
    refine ⟨?_, ?_, ?_⟩
    · by_cases hpage : e.SpansPage f
      · exact hpage.inRam he hcove.1
      · exact h.ram e he f hcove halloc hpage
    · rw [MemoryMap.clear_iff]
      exact fun o ho htype => h.clear e he o ho htype f hcove halloc
    · -- the one covered page that is not below the top one is the top one
      by_contra hnot
      obtain rfl : f = (highestAddr mmap).toNat / 4096 := by omega
      obtain ⟨hres, hbit⟩ := mmap.allocatable_top.mp halloc
      exact h.top hbit hres ⟨e, he, hcove⟩

/-- Usable memory up to the middle of a page, and reserved memory in the rest of it. -/
def sharedPage : MemoryMap := ⟨[⟨0x100000, 0x6FF800, 1⟩, ⟨0x7FF800, 0x800, 2⟩]⟩

/-- The page that the two entries of `sharedPage` share can be allocated. -/
theorem frames_in_ram_sharedPage : ¬ ∀ f, Returns (fun _ => 0) sharedPage f →
    sharedPage.InRam f ∧ sharedPage.Clear f ∧
      f < (init (fun _ => 0) sharedPage).1.totalFrames.toNat := by
  intro h
  have hhighest : highestAddr sharedPage = 0x7FF800 := by decide
  have hreturns : Returns (fun _ => 0) sharedPage 0x7FF := by
    rw [returns_iff_allocatable, MemoryMap.Allocatable, MemoryMap.reservedEnd, hhighest]
    decide
  obtain ⟨-, hclear, -⟩ := h _ hreturns
  refine hclear ⟨0x7FF800, 0x800, 2⟩ ?_ (by decide) 0x7FF800 (by decide) (by decide) (by decide)
  exact List.mem_cons_of_mem _ (List.mem_singleton_self _)

/-! ### Frames at their own addresses -/

/-- The page directory that `init` makes at `0x9C000` in empty memory. -/
theorem wired_bootDirectory : (PageDirectory.init (fun _ => 0) 0x9C000).1.Wired
    (PageDirectory.init (fun _ => 0) 0x9C000).2 :=
  (PageDirectory.init_wired _ _ (disjoint_span (by decide) (by decide) (by decide))).1

/-- `identity_map_usable` has mapped every frame that `alloc_frame` can return to itself, present and
writable, so that the processor finds its bytes at their physical addresses. -/
theorem returned_frames_reachable (m₀ : Mem) (mmap : MemoryMap) {pd : PageDirectory} {m : Mem}
    (h : pd.Wired m) {f : Nat} (hf : Returns m₀ mmap f) :
    let m' := mmap.identityMapUsable pd m
    pd.pte m' f = frameAddr f ||| pgPresent ||| pgWrite ∧
      ∀ x : BitVec 32, x.toNat / 4096 = f → pd.walk m' x = some x := by
  intro m'
  obtain ⟨⟨-, hscan⟩, hcov⟩ := (returns_iff_allocatable m₀ mmap f).mp hf
  have hhighest := (highestAddr mmap).isLt
  have hf : f < 2 ^ 20 := by omega
  obtain ⟨⟨hw, -⟩, hpte⟩ := mmap.identityMapUsable_spec h
  have hentry := (hpte f hf).trans (if_pos hcov)
  refine ⟨hentry, ?_⟩
  rintro x rfl
  exact hw.walk_self (PageDirectory.frame_of_mapped hf hentry)

theorem returned_frames_reachable_sixMegabytes :
    let pd := (PageDirectory.init (fun _ => 0) 0x9C000).1
    let m' := sixMegabytes.identityMapUsable pd (PageDirectory.init (fun _ => 0) 0x9C000).2
    Returns (fun _ => 0) sixMegabytes 0x5FF ∧
      pd.pte m' 0x5FF = frameAddr 0x5FF ||| pgPresent ||| pgWrite ∧
      pd.walk m' 0x5FFABC = some 0x5FFABC := by
  have hreturns : Returns (fun _ => 0) sixMegabytes 0x5FF := by
    rw [returns_iff_allocatable, MemoryMap.Allocatable, MemoryMap.reservedEnd,
      highestAddr_sixMegabytes]
    decide
  have h := returned_frames_reachable (fun _ => 0) sixMegabytes wired_bootDirectory hreturns
  exact ⟨hreturns, h.1, h.2 _ (by decide)⟩

/-! ### Usable memory that is dropped -/

/-- Page `p` is mapped to itself. -/
def PageDirectory.IdentityMapped (pd : PageDirectory) (m : Mem) (p : Nat) : Prop :=
  present (pd.pte m p) = true ∧ pageDown (pd.pte m p) = BitVec.ofNat 32 (4096 * p)

theorem identityMapped_iff (mmap : MemoryMap) {pd : PageDirectory} {m : Mem} (h : pd.Wired m)
    {p : Nat} (hp : p < 2 ^ 20) :
    pd.IdentityMapped (mmap.identityMapUsable pd m) p ↔
      mmap.Covered p ∨ pd.IdentityMapped m p := by
  rw [PageDirectory.IdentityMapped, (mmap.identityMapUsable_spec h).2 p hp]
  by_cases hcov : mmap.Covered p
  · have haddr : (BitVec.ofNat 32 (4096 * p)).toNat % 4096 = 0 := by
      rw [toNat_mul_pageSize hp]
      omega
    simp [hcov, pageDown_mapped haddr]
  · simp [hcov, PageDirectory.IdentityMapped]

/-- A page above the reserved memory is marked free, whatever the memory held, when it is
covered. -/
theorem init_free_iff (mmap : MemoryMap) {p : Nat} (hp : p < 2 ^ 20) :
    (∀ m, 0x500000 + (init m mmap).1.bitmapSize.toNat ≤ 4096 * p →
      (init m mmap).1.used (init m mmap).2 p = false) ↔
    mmap.Covered p ∨ 4096 * p < mmap.reservedEnd := by
  have hend : ∀ m, 0x500000 + (init m mmap).1.bitmapSize.toNat = mmap.reservedEnd := by
    intro m
    rw [toNat_bitmapSize, MemoryMap.reservedEnd]
  constructor
  · intro h
    by_contra hnot
    obtain ⟨hcov, hres⟩ := not_or.mp hnot
    have hfree := h (fun _ => 0xFF) (by rw [hend]; omega)
    have hbit : testBit (fun _ => 0xFF) bitmapBase p = true := by
      rw [testBit, show (0xFF : BitVec 8) = BitVec.allOnes 8 from rfl, BitVec.getLsbD_allOnes]
      simp [Nat.mod_lt]
    rw [(init_spec _ mmap).2 p hp, hbit] at hfree
    simp [hcov] at hfree
  · rintro hcov m hres
    have hnot : ¬ p < (init m mmap).1.reserved := by
      rw [lt_reserved_iff]
      omega
    rcases hcov with hcov | hlt
    · rw [(init_spec m mmap).2 p hp]
      simp [hcov, hnot]
    · rw [hend] at hres
      omega

/-- Every whole page below 4 GiB of a usable entry is mapped to itself by `identity_map_usable`, and
marked free by `FrameAllocator::init` unless it is reserved, exactly when the pages of the entries
that end above `0xFFFFF000` are saved: by another entry that covers them, or, below the end of the
reserved memory, by a mapping that was there before. -/
theorem usable_kept_iff (mmap : MemoryMap) {pd : PageDirectory} {m : Mem} (h : pd.Wired m) :
    (∀ p < 2 ^ 20, (∃ e ∈ mmap.entries, e.type = 1 ∧ e.SpansPage p) →
      pd.IdentityMapped (mmap.identityMapUsable pd m) p ∧
      ∀ m', 0x500000 + (init m' mmap).1.bitmapSize.toNat ≤ 4096 * p →
        (init m' mmap).1.used (init m' mmap).2 p = false) ↔
    ∀ e ∈ mmap.entries, e.type = 1 → 0xFFFFF000 < e.base.toNat + e.length.toNat →
      ∀ p < 2 ^ 20, e.SpansPage p →
        (∃ o ∈ mmap.entries, o ≠ e ∧ o.Covers p) ∨
          4096 * p < mmap.reservedEnd ∧ pd.IdentityMapped m p := by
  constructor
  · intro hkept e he htype hend p hp hpage
    have hother : mmap.Covered p → ∃ o ∈ mmap.entries, o ≠ e ∧ o.Covers p := by
      rintro ⟨o, ho, hcov⟩
      refine ⟨o, ho, ?_, hcov⟩
      rintro rfl
      exact E820Entry.not_covers_of_spansPage hpage hend hp hcov
    obtain ⟨hmapped, hfree⟩ := hkept p hp ⟨e, he, htype, hpage⟩
    rw [identityMapped_iff mmap h hp] at hmapped
    rw [init_free_iff mmap hp] at hfree
    rcases hmapped with hcov | hold
    · exact Or.inl (hother hcov)
    · rcases hfree with hcov | hlt
      · exact Or.inl (hother hcov)
      · exact Or.inr ⟨hlt, hold⟩
  · rintro hsaved p hp ⟨e, he, htype, hpage⟩
    rw [identityMapped_iff mmap h hp, init_free_iff mmap hp]
    by_cases hend : 0xFFFFF000 < e.base.toNat + e.length.toNat
    · rcases hsaved e he htype hend p hp hpage with ⟨o, ho, -, hcovo⟩ | ⟨hlt, hold⟩
      · have hcov : mmap.Covered p := ⟨o, ho, hcovo⟩
        exact ⟨Or.inl hcov, Or.inl hcov⟩
      · exact ⟨Or.inr hold, Or.inr hlt⟩
    · have hcov : mmap.Covered p := ⟨e, he, E820Entry.covers_of_spansPage htype hpage (by omega)⟩
      exact ⟨Or.inl hcov, Or.inl hcov⟩

/-- Memory from 6 MiB to 4 GiB. -/
def upToTop : MemoryMap := ⟨[⟨0x600000, 0xFFA00000, 1⟩]⟩

theorem usable_kept_sixMegabytes :
    (∃ e ∈ sixMegabytes.entries, e.type = 1 ∧ e.SpansPage 0x5FF) ∧
    ∀ p < 2 ^ 20, (∃ e ∈ sixMegabytes.entries, e.type = 1 ∧ e.SpansPage p) →
      (PageDirectory.init (fun _ => 0) 0x9C000).1.IdentityMapped
        (sixMegabytes.identityMapUsable (PageDirectory.init (fun _ => 0) 0x9C000).1
          (PageDirectory.init (fun _ => 0) 0x9C000).2) p ∧
      ∀ m', 0x500000 + (init m' sixMegabytes).1.bitmapSize.toNat ≤ 4096 * p →
        (init m' sixMegabytes).1.used (init m' sixMegabytes).2 p = false := by
  refine ⟨⟨_, List.mem_singleton_self _, rfl, by constructor <;> decide⟩, ?_⟩
  rw [usable_kept_iff sixMegabytes wired_bootDirectory]
  intro e he _ hend
  obtain rfl := List.mem_singleton.mp he
  exact absurd hend (by decide)

/-- All of the memory of `upToTop` is dropped, here its first page. -/
theorem usable_kept_upToTop : ¬ ∀ p < 2 ^ 20,
    (∃ e ∈ upToTop.entries, e.type = 1 ∧ e.SpansPage p) →
      (PageDirectory.init (fun _ => 0) 0x9C000).1.IdentityMapped
        (upToTop.identityMapUsable (PageDirectory.init (fun _ => 0) 0x9C000).1
          (PageDirectory.init (fun _ => 0) 0x9C000).2) p ∧
      ∀ m', 0x500000 + (init m' upToTop).1.bitmapSize.toNat ≤ 4096 * p →
        (init m' upToTop).1.used (init m' upToTop).2 p = false := by
  intro h
  obtain ⟨-, hfree⟩ := h 0x600 (by decide)
    ⟨_, List.mem_singleton_self _, rfl, by constructor <;> decide⟩
  have hhighest : highestAddr upToTop = 0xFFFFFFFF := by decide
  rw [init_free_iff upToTop (by decide), MemoryMap.reservedEnd, hhighest] at hfree
  revert hfree
  decide

end Sapphire
