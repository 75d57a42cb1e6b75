import Sapphire.FrameAlloc.Ram

/-! The frame numbers that `init` passes to `mark_free` and `mark_used`.  The functions behind it are
given again over a memory that keeps a record of these calls.  The frames are those of the covered
pages and the reserved ones, and `init` marks the latter whatever the size of the bitmap is. -/

namespace Sapphire

open Machine FrameAllocator

/-- A memory and the frame numbers that have been marked, in order. -/
structure Marking where
  mem : Mem
  frames : List (BitVec 32)

namespace Marking

def markUsed (fa : FrameAllocator) (t : Marking) (addr : BitVec 32) : Marking :=
  ⟨fa.markUsed t.mem addr, t.frames ++ [getFrameNumber addr]⟩

def markFree (fa : FrameAllocator) (t : Marking) (addr : BitVec 32) : Marking :=
  ⟨fa.markFree t.mem addr, t.frames ++ [getFrameNumber addr]⟩

def mark (fa : FrameAllocator) (t : Marking) (start stop : BitVec 32) (free : Bool) : Marking :=
  let start := pageDown start
  let stop := pageUp stop
  forUp pageSize start stop
    (fun t addr => if free then markFree fa t addr else markUsed fa t addr) t

def markRangeUsed (fa : FrameAllocator) (t : Marking) (start stop : BitVec 32) : Marking :=
  mark fa t start stop false

def markRangeFree (fa : FrameAllocator) (t : Marking) (start stop : BitVec 32) : Marking :=
  mark fa t start stop true

/-- Steps 4 to 6 of `init`, for the allocator that steps 1 to 3 make. -/
def init (m : Mem) (mmap : MemoryMap) : Marking :=
  let fa := (FrameAllocator.init m mmap).1
  let m := (List.range fa.bitmapSize.toNat).foldl
    (fun m i => m.store8 (fa.bitmap + BitVec.ofNat 32 i) 0xFF) m
  let t := mmap.entries.foldl (fun t (entry : E820Entry) =>
    if entry.type ≠ 1 then t
    else markRangeFree fa t (entry.base.setWidth 32) (clamp (entry.base + entry.length))) ⟨m, []⟩
  let t := markRangeUsed fa t biosBase pageBase
  let t := markRangeUsed fa t pageBase bitmapBase
  markRangeUsed fa t bitmapBase (bitmapBase + fa.bitmapSize)

/-! ### The memory -/

theorem mem_mark (fa : FrameAllocator) (t : Marking) (start stop : BitVec 32) (free : Bool) :
    (mark fa t start stop free).mem = fa.mark t.mem start stop free := by
  rw [mark, FrameAllocator.mark]
  apply forUp_map Marking.mem
  intro t addr
  cases free <;> rfl

theorem mem_entries (fa : FrameAllocator) (entries : List E820Entry) (t : Marking) :
    (entries.foldl (fun t (entry : E820Entry) => if entry.type ≠ 1 then t
      else markRangeFree fa t (entry.base.setWidth 32) (clamp (entry.base + entry.length))) t).mem =
    entries.foldl (fun m (entry : E820Entry) => if entry.type ≠ 1 then m
      else fa.markRangeFree m (entry.base.setWidth 32) (clamp (entry.base + entry.length))) t.mem := by
  induction entries generalizing t with
  | nil => rfl
  | cons entry entries ih =>
    rw [List.foldl_cons, List.foldl_cons, ih]
    by_cases htype : entry.type = 1
    · rw [if_neg (by simpa using htype), if_neg (by simpa using htype), markRangeFree, mem_mark]
      rfl
    · rw [if_pos htype, if_pos htype]

/-- The marks lead to the memory that `init` leaves. -/
theorem mem_init (m : Mem) (mmap : MemoryMap) :
    (init m mmap).mem = (FrameAllocator.init m mmap).2 := by
  simp only [init, markRangeUsed, mem_mark, mem_entries]
  rfl

/-! ### The frames -/

theorem mem_frames_mark (fa : FrameAllocator) (t : Marking) (start stop : BitVec 32) (free : Bool)
    {f : BitVec 32} : f ∈ (mark fa t start stop free).frames ↔
      f ∈ t.frames ∨ start.toNat / 4096 ≤ f.toNat ∧ f.toNat < endPage stop := by
  have hstop := endPage_lt stop
  have heq := forUp_eq_foldl pageSize
    (fun t addr => if free then markFree fa t addr else markUsed fa t addr) t
    (by decide) (pageDown_toNat start) (pageUp_toNat stop)
  rw [show pageSize.toNat = 4096 from rfl] at heq
  have hframes : ∀ (l : List Nat) (t : Marking),
      (l.foldl (fun t p => if free then markFree fa t (BitVec.ofNat 32 (4096 * p))
        else markUsed fa t (BitVec.ofNat 32 (4096 * p))) t).frames =
      t.frames ++ l.map fun p => getFrameNumber (BitVec.ofNat 32 (4096 * p)) := by
    intro l
    induction l with
    | nil => simp
    | cons p l ih =>
      intro t
      rw [List.foldl_cons, ih, List.map_cons]
      cases free <;> simp [markFree, markUsed]
  rw [mark, heq, hframes, List.mem_append]
  refine or_congr_right ?_
  rw [List.mem_map]
  constructor
  · rintro ⟨p, hp, rfl⟩
    rw [List.mem_range'_1] at hp
    rw [toNat_getFrameNumber, page_mul_pageSize (by omega)]
    omega
  · rintro ⟨h1, h2⟩
    refine ⟨f.toNat, List.mem_range'_1.mpr (by omega), ?_⟩
    apply BitVec.eq_of_toNat_eq
    rw [toNat_getFrameNumber, page_mul_pageSize (by omega)]

theorem mem_frames_entries (fa : FrameAllocator) (entries : List E820Entry) (t : Marking)
    {f : BitVec 32} :
    f ∈ (entries.foldl (fun t (entry : E820Entry) => if entry.type ≠ 1 then t
      else markRangeFree fa t (entry.base.setWidth 32) (clamp (entry.base + entry.length)))
        t).frames ↔ f ∈ t.frames ∨ ∃ e ∈ entries, e.Covers f.toNat := by
  induction entries generalizing t with
  | nil => simp
  | cons entry entries ih =>
    rw [List.foldl_cons, ih, List.exists_mem_cons_iff, ← or_assoc]
    refine or_congr_left ?_
    by_cases htype : entry.type = 1
    · rw [if_neg (by simpa using htype), markRangeFree, mem_frames_mark, E820Entry.Covers]
      simp only [htype, true_and]
      rfl
    · rw [if_pos htype, E820Entry.Covers]
      simp only [htype, false_and, or_false]

/-- The frames that `init` marks are the covered and the reserved ones. -/
theorem mem_frames_init (m : Mem) (mmap : MemoryMap) {f : BitVec 32} :
    f ∈ (init m mmap).frames ↔
      mmap.Covered f.toNat ∨ f.toNat < (FrameAllocator.init m mmap).1.reserved := by
  have hsize := bitmapSize_le m mmap
  have hend : endPage (bitmapBase + (FrameAllocator.init m mmap).1.bitmapSize) =
      (FrameAllocator.init m mmap).1.reserved := endPage_bitmap hsize
  have hres : 0x500 ≤ (FrameAllocator.init m mmap).1.reserved := by
    unfold reserved
    omega
  simp only [init, markRangeUsed, mem_frames_mark, mem_frames_entries, hend, List.not_mem_nil,
    false_or]
  rw [show endPage pageBase = 0x100 from rfl, show endPage bitmapBase = 0x500 from rfl,
    show biosBase.toNat / 4096 = 0 from rfl, show pageBase.toNat / 4096 = 0x100 from rfl,
    show bitmapBase.toNat / 4096 = 0x500 from rfl, or_assoc, or_assoc]
  refine or_congr_right ?_
  omega

end Marking

/-- Every frame that `init` marks has its bit in the bitmap, and nothing outside the bitmap
changes. -/
structure StaysInside (m : Mem) (mmap : MemoryMap) : Prop where
  frames : ∀ f ∈ (Marking.init m mmap).frames,
    f.toNat < 8 * (FrameAllocator.init m mmap).1.bitmapSize.toNat
  memory : ChangesOnly (span bitmapBase (FrameAllocator.init m mmap).1.bitmapSize.toNat) m
    (FrameAllocator.init m mmap).2

/-- The marked frames by their numbers. -/
theorem frames_inside_iff (m : Mem) (mmap : MemoryMap) {n : Nat} :
    (∀ f ∈ (Marking.init m mmap).frames, f.toNat < n) ↔
      (∀ p, mmap.Covered p → p < n) ∧ (FrameAllocator.init m mmap).1.reserved ≤ n := by
  have hsize := bitmapSize_le m mmap
  have hhighest := (highestAddr mmap).isLt
  have hres : 0 < (FrameAllocator.init m mmap).1.reserved ∧
      (FrameAllocator.init m mmap).1.reserved < 2 ^ 20 := by
    unfold reserved
    omega
  simp only [Marking.mem_frames_init]
  constructor
  · intro h
    refine ⟨fun p hcov => ?_, ?_⟩
    · have hp := hcov.le_top
      have hnum : (BitVec.ofNat 32 p).toNat = p := by
        rw [BitVec.toNat_ofNat, Nat.mod_eq_of_lt (by omega)]
      have hlt := h (BitVec.ofNat 32 p) (Or.inl (by rwa [hnum]))
      rwa [hnum] at hlt
    · have hnum : (BitVec.ofNat 32 ((FrameAllocator.init m mmap).1.reserved - 1)).toNat =
          (FrameAllocator.init m mmap).1.reserved - 1 := by
        rw [BitVec.toNat_ofNat, Nat.mod_eq_of_lt (by omega)]
      have hlt := h (BitVec.ofNat 32 ((FrameAllocator.init m mmap).1.reserved - 1))
        (Or.inr (by omega))
      omega
  · rintro ⟨hcovered, hreserved⟩ f (hcov | hlt)
    · exact hcovered _ hcov
    · omega

/-- Where the marked frames have their bits in the bitmap, the rest of the memory keeps its
bits. -/
theorem changesOnly_of_frames_inside {m : Mem} {mmap : MemoryMap}
    (h : ∀ f ∈ (Marking.init m mmap).frames,
      f.toNat < 8 * (FrameAllocator.init m mmap).1.bitmapSize.toNat) :
    ChangesOnly (span bitmapBase (FrameAllocator.init m mmap).1.bitmapSize.toNat) m
      (FrameAllocator.init m mmap).2 := by
  obtain ⟨hcovered, hreserved⟩ := (frames_inside_iff m mmap).mp h
  obtain ⟨hc, hbits⟩ := init_spec m mmap
  intro x hx
  by_cases hin : x ∈ span bitmapBase (2 ^ 17)
  · rw [mem_span] at hx hin
    apply BitVec.eq_of_getLsbD_eq
    intro k hk
    set g := 8 * (x - bitmapBase).toNat + k with hg
    have hbyte : bitmapBase + BitVec.ofNat 32 (g / 8) = x := by bv_omega
    have hcov : ¬ mmap.Covered g := fun hcov => by
      have := hcovered g hcov
      omega
    have hbit : (FrameAllocator.init m mmap).1.used (FrameAllocator.init m mmap).2 g =
        testBit m bitmapBase g := by
      rw [hbits g (by omega), decide_eq_false hcov, decide_eq_false (by omega),
        decide_eq_false (by omega)]
      rfl
    rw [testBit, hbyte, show g % 8 = k by omega] at hbit
    rw [← hbit, used, testBit, show (FrameAllocator.init m mmap).1.bitmap = bitmapBase from rfl,
      hbyte, show g % 8 = k by omega]
  · exact hc x hin

/-- `init` stays inside its bitmap exactly when the highest end of a usable entry is at least
`0x501000` and, where as many whole pages as fill the bitmap's bytes lie below that end, no usable
entry reaches the page after them. -/
theorem init_stays_inside_iff (m : Mem) (mmap : MemoryMap) :
    StaysInside m mmap ↔ 0x501000 ≤ (highestAddr mmap).toNat ∧
      ((highestAddr mmap).toNat / 4096 % 8 = 0 →
        ¬ mmap.Covered ((highestAddr mmap).toNat / 4096)) := by
  have hhighest := (highestAddr mmap).isLt
  have hiff : (∀ f ∈ (Marking.init m mmap).frames,
      f.toNat < 8 * (FrameAllocator.init m mmap).1.bitmapSize.toNat) ↔
      0x501000 ≤ (highestAddr mmap).toNat ∧ ((highestAddr mmap).toNat / 4096 % 8 = 0 →
        ¬ mmap.Covered ((highestAddr mmap).toNat / 4096)) := by
    rw [frames_inside_iff, reserved, toNat_bitmapSize]
    constructor
    · rintro ⟨hcovered, hreserved⟩
      refine ⟨by omega, fun hmod hcov => ?_⟩
      have := hcovered _ hcov
      omega
    · rintro ⟨hlow, htop⟩
      refine ⟨fun p hcov => ?_, by omega⟩
      have hle := hcov.le_top
      by_cases hmod : (highestAddr mmap).toNat / 4096 % 8 = 0
      · have hne : p ≠ (highestAddr mmap).toNat / 4096 := by
          rintro rfl
          exact htop hmod hcov
        omega
      · omega
  rw [← hiff]
  exact ⟨fun h => h.frames, fun h => ⟨h, changesOnly_of_frames_inside h⟩⟩

/-- Without a usable entry the bitmap is empty, and `init` marks the reserved frames all the
same. -/
theorem init_stays_inside_noEntries : ¬ StaysInside (fun _ => 0) ⟨[]⟩ := by
  intro h
  have hmark : (0 : BitVec 32) ∈ (Marking.init (fun _ => 0) ⟨[]⟩).frames := by
    rw [Marking.mem_frames_init, reserved, toNat_bitmapSize]
    decide
  have hlt := h.frames 0 hmark
  rw [toNat_bitmapSize] at hlt
  revert hlt
  decide

end Sapphire
