import Sapphire.FrameAlloc

/-! What `alloc_frame` and `free_frame` do to the bitmap.  `alloc_frame` looks at the first
`scanned` frames, takes the lowest one that is free and sets its bit, or returns 0 and changes
nothing when all of them are in use. -/

namespace Sapphire

open Machine

namespace FrameAllocator

/-- Frame `f` is marked as in use. -/
def used (fa : FrameAllocator) (m : Mem) (f : Nat) : Bool := testBit m fa.bitmap f

/-- The number of frames whose bits `alloc_frame` looks at: those of whole words of the bitmap. -/
def scanned (fa : FrameAllocator) : Nat := 32 * (fa.bitmapSize.toNat / 4)

/-- `f` is the lowest free frame that `alloc_frame` looks at. -/
structure LowestFree (fa : FrameAllocator) (m : Mem) (f : Nat) : Prop where
  scanned : f < fa.scanned
  free : fa.used m f = false
  lowest : ∀ g < f, fa.used m g = true

theorem mask_beq_zero (w : BitVec 32) {j : Nat} (hj : j < 32) :
    (w &&& (1#32 <<< j) == 0) = !w.getLsbD j := by
  have hmask : ∀ k < 32, (w &&& (1#32 <<< j)).getLsbD k = (w.getLsbD k && decide (k = j)) := by
    intro k hk
    rw [BitVec.getLsbD_and, BitVec.getLsbD_shiftLeft, BitVec.getLsbD_one]
    by_cases hkj : k = j
    · simp [hkj, hj]
    · simp [hkj]
      omega
  cases hw : w.getLsbD j
  · simp only [Bool.not_false, beq_iff_eq]
    apply BitVec.eq_of_getLsbD_eq
    intro k hk
    rw [hmask k hk]
    by_cases hkj : k = j
    · simp [hkj, hw]
    · simp [hkj]
  · simp only [Bool.not_true, beq_eq_false_iff_ne]
    intro hzero
    have := hmask j hj
    rw [hzero, hw] at this
    simp at this

theorem findClear_none {w : BitVec 32} (h : findClear w = none) {j : Nat} (hj : j < 32) :
    w.getLsbD j = true := by
  have := List.find?_eq_none.mp h j (by simpa using hj)
  rw [mask_beq_zero w hj] at this
  simpa using this

theorem findClear_some {w : BitVec 32} {j : Nat} (h : findClear w = some j) :
    j < 32 ∧ w.getLsbD j = false ∧ ∀ k < j, w.getLsbD k = true := by
  obtain ⟨hclear, hmem, hbefore⟩ := List.find?_range_eq_some.mp h
  have hj : j < 32 := by simpa using hmem
  rw [mask_beq_zero w hj] at hclear
  refine ⟨hj, by simpa using hclear, fun k hk => ?_⟩
  have := hbefore k hk
  rw [mask_beq_zero w (by omega)] at this
  simpa using this

/-- The result `r` of a search of the frames from `lo` on below `hi`. -/
def Found (fa : FrameAllocator) (m : Mem) (lo hi : Nat) (r : Mem × BitVec 32) : Prop :=
  ((∀ f, lo ≤ f → f < hi → fa.used m f = true) ∧ r = (m, 0)) ∨
  ∃ f, lo ≤ f ∧ f < hi ∧ fa.used m f = false ∧ (∀ g, lo ≤ g → g < f → fa.used m g = true) ∧
    r = (setBit m fa.bitmap (BitVec.ofNat 32 f), BitVec.ofNat 32 (f * 4096))

theorem Found.skip {fa : FrameAllocator} {m : Mem} {lo mid hi : Nat} {r : Mem × BitVec 32}
    (hmid : lo ≤ mid) (hfull : ∀ f, lo ≤ f → f < mid → fa.used m f = true)
    (h : fa.Found m mid hi r) : fa.Found m lo hi r := by
  rcases h with ⟨hall, hr⟩ | ⟨f, h1, h2, hfree, hlow, hr⟩
  · refine Or.inl ⟨fun f h1 h2 => ?_, hr⟩
    by_cases hf : f < mid
    · exact hfull f h1 hf
    · exact hall f (by omega) h2
  · refine Or.inr ⟨f, by omega, h2, hfree, fun g h3 h4 => ?_, hr⟩
    by_cases hg : g < mid
    · exact hfull g h3 hg
    · exact hlow g (by omega) h4

/-- The search of `alloc_frame` from word `i` on. -/
theorem allocFrom_found (fa : FrameAllocator) (m : Mem) {n i : Nat} (hn : i + n ≤ 2 ^ 15) :
    fa.Found m (32 * i) (32 * (i + n)) (fa.allocFrom m n i) := by
  induction n generalizing i with
  | zero => exact Or.inl ⟨fun f h1 h2 => by omega, rfl⟩
  | succ n ih =>
    have hw : (BitVec.ofNat 32 i).toNat = i := by
      rw [BitVec.toNat_ofNat, Nat.mod_eq_of_lt (by omega)]
    have hbit : ∀ k < 32, (m.load32 (fa.bitmap + 4 * BitVec.ofNat 32 i)).getLsbD k =
        fa.used m (32 * i + k) := by
      intro k hk
      rw [getLsbD_load32_bitmap m fa.bitmap _ hk, hw]
      rfl
    -- a word without a clear bit is passed over, whichever test finds that out
    have hskip : (∀ k < 32, (m.load32 (fa.bitmap + 4 * BitVec.ofNat 32 i)).getLsbD k = true) →
        fa.Found m (32 * i) (32 * (i + (n + 1))) (fa.allocFrom m n (i + 1)) := by
      intro hfull
      have hrest := ih (i := i + 1) (by omega)
      rw [show i + 1 + n = i + (n + 1) by omega] at hrest
      refine hrest.skip (by omega) fun f h1 h2 => ?_
      have := hfull (f - 32 * i) (by omega)
      rwa [hbit _ (by omega), show 32 * i + (f - 32 * i) = f by omega] at this
    rw [allocFrom]
    by_cases hones : m.load32 (fa.bitmap + 4 * BitVec.ofNat 32 i) = 0xFFFFFFFF#32
    · simp only [hones, if_true]
      refine hskip fun k hk => ?_
      have hbits : (0xFFFFFFFF#32).getLsbD k = (BitVec.allOnes 32).getLsbD k := rfl
      rw [hones, hbits, BitVec.getLsbD_allOnes]
      exact decide_eq_true hk
    · simp only [hones, if_false]
      cases hfind : findClear (m.load32 (fa.bitmap + 4 * BitVec.ofNat 32 i)) with
      | none => exact hskip fun k hk => findClear_none hfind hk
      | some j =>
        obtain ⟨hj, hclear, hbefore⟩ := findClear_some hfind
        rw [hbit j hj] at hclear
        refine Or.inr ⟨32 * i + j, by omega, by omega, hclear, fun g h1 h2 => ?_, ?_⟩
        · have := hbefore (g - 32 * i) (by omega)
          rwa [hbit _ (by omega), show 32 * i + (g - 32 * i) = g by omega] at this
        · have hf : (BitVec.ofNat 32 (32 * i + j)).toNat = 32 * i + j := by
            rw [BitVec.toNat_ofNat, Nat.mod_eq_of_lt (by omega)]
          have hdiv : BitVec.ofNat 32 (32 * i + j) / 32 = BitVec.ofNat 32 i := by
            apply BitVec.eq_of_toNat_eq
            rw [BitVec.toNat_udiv, hf, hw, show (32 : BitVec 32).toNat = 32 from rfl]
            omega
          have hmod : (BitVec.ofNat 32 (32 * i + j) % 32).toNat = j := by
            rw [BitVec.toNat_umod, hf, show (32 : BitVec 32).toNat = 32 from rfl]
            omega
          refine Prod.ext ?_ ?_
          · simp only [setBit, bitWord, hdiv, BitVec.shiftLeft_eq', hmod]
          · simp only
            bv_omega

theorem allocFrame_found (fa : FrameAllocator) (m : Mem) (hsize : fa.bitmapSize.toNat ≤ 2 ^ 17) :
    fa.Found m 0 fa.scanned (fa.allocFrame m) := by
  have hcount : (fa.bitmapSize / 4).toNat = fa.bitmapSize.toNat / 4 := by
    rw [BitVec.toNat_udiv]
    rfl
  have h := fa.allocFrom_found m (n := (fa.bitmapSize / 4).toNat) (i := 0) (by omega)
  rwa [hcount, Nat.mul_zero, Nat.zero_add, ← hcount] at h

/-- `alloc_frame` finds nothing, or takes the lowest free frame. -/
theorem allocFrame_cases (fa : FrameAllocator) (m : Mem) (hsize : fa.bitmapSize.toNat ≤ 2 ^ 17) :
    ((∀ f < fa.scanned, fa.used m f = true) ∧ fa.allocFrame m = (m, 0)) ∨
    ∃ f, fa.LowestFree m f ∧
      fa.allocFrame m = (setBit m fa.bitmap (BitVec.ofNat 32 f), BitVec.ofNat 32 (f * 4096)) := by
  rcases fa.allocFrame_found m hsize with ⟨hall, hr⟩ | ⟨f, -, h2, hfree, hlow, hr⟩
  · exact Or.inl ⟨fun f hf => hall f (Nat.zero_le _) hf, hr⟩
  · exact Or.inr ⟨f, ⟨h2, hfree, fun g hg => hlow g (Nat.zero_le _) hg⟩, hr⟩

/-- Every address that `alloc_frame` returns is a multiple of the page size. -/
theorem allocFrame_aligned (fa : FrameAllocator) (m : Mem) :
    (fa.allocFrame m).2.toNat % 4096 = 0 := by
  have h : ∀ n i, (fa.allocFrom m n i).2.toNat % 4096 = 0 := by
    intro n
    induction n with
    | zero => exact fun _ => rfl
    | succ n ih =>
      intro i
      rw [allocFrom]
      split
      · exact ih _
      · split
        · simp only [BitVec.toNat_mul, show pageSize.toNat = 4096 from rfl]
          omega
        · exact ih _
  exact h _ _

theorem takeFrames_aligned {fa : FrameAllocator} {m : Mem} {n : Nat} {x : BitVec 32}
    (hx : x ∈ (fa.takeFrames m n).2) : x.toNat % 4096 = 0 := by
  induction n with
  | zero => simp [takeFrames] at hx
  | succ n ih =>
    simp only [takeFrames, List.mem_append, List.mem_singleton] at hx
    rcases hx with hx | rfl
    · exact ih hx
    · exact fa.allocFrame_aligned _

/-! ### The bits after a call -/

variable {fa : FrameAllocator} {m : Mem}

theorem scanned_le (fa : FrameAllocator) : fa.scanned ≤ 8 * fa.bitmapSize.toNat := by
  unfold scanned
  omega

/-- The words of the bitmap that `alloc_frame` looks at lie inside it. -/
theorem bitWord_subset {f : Nat} (hf : f < fa.scanned) (hsize : fa.bitmapSize.toNat ≤ 2 ^ 17) :
    span (bitWord fa.bitmap (BitVec.ofNat 32 f)) 4 ⊆ span fa.bitmap fa.bitmapSize.toNat := by
  unfold scanned at hf
  rw [bitWord_eq]
  exact span_subset (by bv_omega)

theorem used_setBit {f g : Nat} (hf : f < 2 ^ 20) (hg : g < 2 ^ 20) :
    fa.used (setBit m fa.bitmap (BitVec.ofNat 32 f)) g = (fa.used m g || decide (g = f)) := by
  rw [used, testBit_setBit m fa.bitmap _ (by omega), BitVec.toNat_ofNat,
    Nat.mod_eq_of_lt (by omega), used]

theorem toNat_getFrameNumber (addr : BitVec 32) : (getFrameNumber addr).toNat = addr.toNat / 4096 :=
  BitVec.toNat_udiv

/-- `free_frame` clears the bit of its frame and no other. -/
theorem used_freeFrame (addr : BitVec 32) {g : Nat} (hg : g < 2 ^ 20) :
    fa.used (fa.freeFrame m addr) g = (fa.used m g && !decide (g = addr.toNat / 4096)) := by
  rw [used, freeFrame, markFree, testBit_clearBit m fa.bitmap _ (by omega), toNat_getFrameNumber,
    used]

theorem changesOnly_allocFrame (hsize : fa.bitmapSize.toNat ≤ 2 ^ 17) :
    ChangesOnly (span fa.bitmap fa.bitmapSize.toNat) m (fa.allocFrame m).1 := by
  rcases fa.allocFrame_cases m hsize with ⟨-, hr⟩ | ⟨f, hlow, hr⟩
  · rw [hr]
    exact ChangesOnly.refl _ _
  · rw [hr]
    exact (changesOnly_setBit _ _ _).mono (bitWord_subset hlow.scanned hsize)

end FrameAllocator

end Sapphire
