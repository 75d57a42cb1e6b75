import Sapphire.FrameAlloc.FreeList
import Sapphire.FrameAlloc.Init
import Mathlib.Data.List.Nodup
import Mathlib.Logic.Relation

/-! Runs of the frame allocator: calls of `alloc_frame`, and calls of `free_frame` with an address
that was returned and is still held.  `Holding fa m0 s` says that the bitmap of a state is the one
of `m0` with the frames of the held addresses set; every step keeps it. -/

namespace Sapphire

open Machine FrameAllocator

/-- The memory and the addresses that callers hold. -/
structure FrameState where
  mem : Mem
  held : List (BitVec 32)

inductive FrameStep (fa : FrameAllocator) : FrameState → FrameState → Prop
  | alloc (s : FrameState) :
      FrameStep fa s ⟨(fa.allocFrame s.mem).1, if (fa.allocFrame s.mem).2 = 0 then s.held
        else (fa.allocFrame s.mem).2 :: s.held⟩
  | free {s : FrameState} {a : BitVec 32} (ha : a ∈ s.held) :
      FrameStep fa s ⟨fa.freeFrame s.mem a, s.held.erase a⟩

/-- The state that `init` leaves. -/
def FrameAllocator.start (m : Mem) (mmap : MemoryMap) : FrameState := ⟨(init m mmap).2, []⟩

def FrameAllocator.Reaches (m : Mem) (mmap : MemoryMap) (s : FrameState) : Prop :=
  Relation.ReflTransGen (FrameStep (init m mmap).1) (start m mmap) s

namespace FrameAllocator

variable {fa : FrameAllocator} {m m0 : Mem} {s s' : FrameState}

/-- `alloc_frame` by the frame it takes, where frame 0 is in use. -/
theorem allocFrame_spec (hsize : fa.bitmapSize.toNat ≤ 2 ^ 17) (hzero : fa.used m 0 = true) :
    ((∀ f < fa.scanned, fa.used m f = true) ∧ fa.allocFrame m = (m, 0)) ∨
    ∃ f, fa.LowestFree m f ∧ f < 2 ^ 20 ∧ frameAddr f ≠ 0 ∧
      fa.allocFrame m = (setBit m fa.bitmap (BitVec.ofNat 32 f), frameAddr f) := by
  have hscanned := fa.scanned_le
  rcases fa.allocFrame_cases m hsize with hnone | ⟨f, hlow, hr⟩
  · exact Or.inl hnone
  · have hf : f < 2 ^ 20 := by
      have := hlow.scanned
      omega
    refine Or.inr ⟨f, hlow, hf, fun h => ?_, ?_⟩
    · have h0 : f = 0 := (frameAddr_inj hf (by decide)).mp h
      have hfree := hlow.free
      rw [h0, hzero] at hfree
      cases hfree
    · rw [hr, frameAddr, Nat.mul_comm]

theorem allocFrame_ne_zero (hsize : fa.bitmapSize.toNat ≤ 2 ^ 17) (hzero : fa.used m 0 = true)
    {f : Nat} (hf : f < fa.scanned) (hfree : fa.used m f = false) : (fa.allocFrame m).2 ≠ 0 := by
  rcases allocFrame_spec hsize hzero with ⟨hfull, -⟩ | ⟨g, -, -, hne, hr⟩
  · rw [hfull f hf] at hfree
    cases hfree
  · rw [hr]
    exact hne

/-- The bitmap is the one of `m0` with the frames of the held addresses set. -/
structure Holding (fa : FrameAllocator) (m0 : Mem) (s : FrameState) : Prop where
  bits : ∀ f < 2 ^ 20, fa.used s.mem f = (fa.used m0 f || decide (frameAddr f ∈ s.held))
  held : ∀ a ∈ s.held, ∃ f < fa.scanned, a = frameAddr f ∧ fa.used m0 f = false
  nodup : s.held.Nodup

namespace Holding

theorem zero (h : Holding fa m0 s) (hzero : fa.used m0 0 = true) : fa.used s.mem 0 = true := by
  rw [h.bits 0 (by decide), hzero, Bool.true_or]

/-- A free frame was free in `m0` and is not held. -/
theorem free_iff (h : Holding fa m0 s) {f : Nat} (hf : f < 2 ^ 20) :
    fa.used s.mem f = false ↔ fa.used m0 f = false ∧ frameAddr f ∉ s.held := by
  simp [h.bits f hf]

theorem step (hsize : fa.bitmapSize.toNat ≤ 2 ^ 17) (hzero : fa.used m0 0 = true)
    (h : Holding fa m0 s) (hstep : FrameStep fa s s') : Holding fa m0 s' := by
  have hscanned := fa.scanned_le
  cases hstep with
  | alloc =>
    rcases allocFrame_spec hsize (h.zero hzero) with ⟨-, hr⟩ | ⟨f, hlow, hf, hne, hr⟩
    · simp only [hr, if_true]
      exact h
    · obtain ⟨hfree, hnot⟩ := (h.free_iff hf).mp hlow.free
      simp only [hr, hne, if_false]
      refine ⟨fun g hg => ?_, fun a ha => ?_, List.nodup_cons.mpr ⟨hnot, h.nodup⟩⟩
      · simp only [used_setBit hf hg, h.bits g hg, List.mem_cons, frameAddr_inj hg hf,
          Bool.decide_or]
        rw [Bool.or_assoc, Bool.or_comm (decide (frameAddr g ∈ s.held))]
      · rcases List.mem_cons.mp ha with rfl | ha
        · exact ⟨f, hlow.scanned, rfl, hfree⟩
        · exact h.held a ha
  | free ha =>
    obtain ⟨f, hf, rfl, hfree⟩ := h.held _ ha
    have hf20 : f < 2 ^ 20 := by omega
    have hnum := page_frameAddr hf20
    refine ⟨fun g hg => ?_, fun a ha' => ?_, h.nodup.erase _⟩
    · simp only [used_freeFrame _ hg, h.bits g hg, hnum, h.nodup.mem_erase_iff, ne_eq,
        frameAddr_inj hg hf20]
      by_cases hgf : g = f
      · simp [hgf, hfree]
      · simp [hgf]
    · exact h.held a (List.mem_of_mem_erase ha')

theorem run (hsize : fa.bitmapSize.toNat ≤ 2 ^ 17) (hzero : fa.used m0 0 = true)
    (h : Holding fa m0 s) (hrun : Relation.ReflTransGen (FrameStep fa) s s') :
    Holding fa m0 s' := by
  induction hrun with
  | refl => exact h
  | tail _ hstep ih => exact ih.step hsize hzero hstep

end Holding

/-! ### From `init` on -/

theorem init_reserved (m : Mem) (mmap : MemoryMap) {f : Nat} (hf : f < 2 ^ 20)
    (hres : f < (init m mmap).1.reserved) : (init m mmap).1.used (init m mmap).2 f = true := by
  rw [(init_spec m mmap).2 f hf, decide_eq_true hres, Bool.true_or]

theorem init_zero (m : Mem) (mmap : MemoryMap) : (init m mmap).1.used (init m mmap).2 0 = true :=
  init_reserved m mmap (by decide) (lt_reserved_iff.mpr (by omega))

theorem Reaches.holding {mmap : MemoryMap} (h : Reaches m mmap s) :
    Holding (init m mmap).1 (init m mmap).2 s := by
  refine Holding.run (bitmapSize_le m mmap) (init_zero m mmap) ⟨?_, ?_, ?_⟩ h
  · simp [start]
  · simp [start]
  · exact List.nodup_nil

/-- `alloc_frame` changes the one bit of the frame it takes. -/
theorem changed_setBit_iff (m : Mem) (base : BitVec 32) {f k : Nat} (hf : f < 2 ^ 20) (hk : k < 8)
    (x : BitVec 32) (hclear : testBit m base f = false) :
    (setBit m base (BitVec.ofNat 32 f) x).getLsbD k ≠ (m x).getLsbD k ↔
      x = base + BitVec.ofNat 32 (f / 8) ∧ k = f % 8 := by
  have hx : base + BitVec.ofNat 32 ((8 * (x - base).toNat + k) / 8) = x := by bv_omega
  have hbit := testBit_setBit m base (BitVec.ofNat 32 f) (j := 8 * (x - base).toNat + k)
    (by have := (x - base).isLt; omega)
  simp only [testBit, hx, show (8 * (x - base).toNat + k) % 8 = k by omega] at hbit
  rw [hbit, BitVec.toNat_ofNat, Nat.mod_eq_of_lt (by omega)]
  by_cases h : 8 * (x - base).toNat + k = f
  · have hxf : x = base + BitVec.ofNat 32 (f / 8) := by bv_omega
    have hkf : k = f % 8 := by omega
    rw [testBit, ← hxf, ← hkf] at hclear
    rw [decide_eq_true h, hclear, ← hxf, ← hkf]
    simp
  · simp only [h, decide_false, Bool.or_false, ne_eq, not_true, false_iff, not_and]
    intro hxf hkf
    apply h
    bv_omega

end FrameAllocator

open FrameAllocator in
/-- No frame is handed out twice: in every state of a run, an address that `alloc_frame` returns is
aligned, held by nobody, above the reserved memory and that of the lowest free frame, and its bit is
the one bit of the memory that the call changes. -/
theorem frames_exclusive (m : Mem) (mmap : MemoryMap) {s : FrameState} (h : Reaches m mmap s) :
    let fa := (init m mmap).1
    let r := fa.allocFrame s.mem
    (r.2 ≠ 0 → r.2.toNat % 4096 = 0 ∧ r.2 ∉ s.held ∧
      0x500000 + fa.bitmapSize.toNat ≤ r.2.toNat ∧ fa.LowestFree s.mem (r.2.toNat / 4096) ∧
      ∀ x k, k < 8 → ((r.1 x).getLsbD k ≠ (s.mem x).getLsbD k ↔
        x = fa.bitmap + BitVec.ofNat 32 (r.2.toNat / 4096 / 8) ∧ k = r.2.toNat / 4096 % 8)) ∧
    (r.2 = 0 → r.1 = s.mem) := by
  intro fa r
  have hh := h.holding
  rcases allocFrame_spec (bitmapSize_le m mmap) (hh.zero (init_zero m mmap)) with
    ⟨-, hr⟩ | ⟨f, hlow, hf, hne, hr⟩
  · exact ⟨fun hr0 => absurd (congrArg Prod.snd hr) hr0, fun _ => congrArg Prod.fst hr⟩
  · have hr2 : r.2 = frameAddr f := congrArg Prod.snd hr
    have hr1 : r.1 = setBit s.mem fa.bitmap (BitVec.ofNat 32 f) := congrArg Prod.fst hr
    have hnum := page_frameAddr hf
    obtain ⟨hfree, hnot⟩ := (hh.free_iff hf).mp hlow.free
    have hres : fa.reserved ≤ f := ((init_used m mmap hlow.scanned).mp hfree).1
    rw [hr1, hr2, hnum]
    refine ⟨fun _ => ⟨?_, hnot, ?_, hlow, fun x k hk => ?_⟩, fun h0 => absurd h0 hne⟩
    · rw [toNat_frameAddr hf]
      omega
    · rw [toNat_frameAddr hf]
      exact Nat.le_of_not_lt fun hlt => absurd (lt_reserved_iff.mpr hlt) (Nat.not_lt.mpr hres)
    · exact changed_setBit_iff s.mem fa.bitmap hf hk x hlow.free

/-- A map of 6 MiB of memory from 0 on. -/
def sixMegabytes : MemoryMap := ⟨[⟨0, 0x600000, 1⟩]⟩

theorem highestAddr_sixMegabytes : highestAddr sixMegabytes = 0x600000 := by decide

theorem scanned_sixMegabytes (m : Mem) : (init m sixMegabytes).1.scanned = 1536 := by
  rw [scanned, toNat_bitmapSize, highestAddr_sixMegabytes]
  rfl

theorem reserved_sixMegabytes (m : Mem) : (init m sixMegabytes).1.reserved = 0x501 := by
  rw [reserved, toNat_bitmapSize, highestAddr_sixMegabytes]
  rfl

theorem covered_sixMegabytes (f : Nat) : sixMegabytes.Covered f ↔ f < 1536 := by
  have hend : endPage (clamp32 0x600000#64) = 1536 := by decide
  simp [MemoryMap.Covered, sixMegabytes, E820Entry.Covers, hend]

theorem frames_exclusive_sixMegabytes :
    let fa := (init (fun _ => 0) sixMegabytes).1
    let s := start (fun _ => 0) sixMegabytes
    let r := fa.allocFrame s.mem
    r.2 ≠ 0 ∧ r.2.toNat % 4096 = 0 ∧ 0x500000 + fa.bitmapSize.toNat ≤ r.2.toNat ∧
      fa.LowestFree s.mem (r.2.toNat / 4096) := by
  have hfree : (init (fun _ => 0) sixMegabytes).1.used (start (fun _ => 0) sixMegabytes).mem
      0x501 = false := by
    rw [start, init_used _ _ (by rw [scanned_sixMegabytes]; decide), reserved_sixMegabytes,
      covered_sixMegabytes]
    decide
  have hne := allocFrame_ne_zero (bitmapSize_le _ _) (init_zero (fun _ => 0) sixMegabytes)
    (by rw [scanned_sixMegabytes]; decide) hfree
  obtain ⟨h1, -, h2, h3, -⟩ := (frames_exclusive (fun _ => 0) sixMegabytes .refl).1 hne
  exact ⟨hne, h1, h2, h3⟩

end Sapphire
