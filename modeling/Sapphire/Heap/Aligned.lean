import Sapphire.Heap.Again

/-! Alignment.  `alloc` puts a new header right after the bytes that it was asked for, so headers stay
at multiples of 4 as long as every block that is split is split after a multiple of 4 bytes. -/

namespace Sapphire

open Machine Segments BlockHeader

/-- `alloc(n)` splits the block that it takes, the first free one that is large enough. -/
def Heap.Splits (heap : Heap) (m : Mem) (n : BitVec 32) : Prop :=
  ∃ bs b, heap.blockList m = some bs ∧
    bs.find? (fun b => b.free && decide (n ≤ b.size)) = some b ∧ n.toNat + 12 + 16 ≤ b.size.toNat

/-- A step in which `alloc` splits a block after a multiple of 4 bytes only. -/
inductive RoundedStep (heap : Heap) : HeapState → HeapState → Prop
  | alloc {s : HeapState} {n p : BitVec 32} {m : Mem} (hn : heap.Splits s.mem n → 4 ∣ n.toNat)
      (h : heap.alloc s.mem n = some (m, p)) :
      RoundedStep heap s ⟨m, if p = 0 then s.live else (p, n) :: s.live⟩
  | other {s s' : HeapState} (h : FreeStep heap s s') : RoundedStep heap s s'

/-- The block that `alloc` looks for, among the segments and in memory. -/
theorem blocksOf_find {n : BitVec 32} {a : Nat} {segs : List Seg} {x : Nat × Seg}
    (hend : a + extent 12 segs ≤ 2 ^ 32)
    (hx : (place 12 a segs).find? (fun x => x.2.free && decide (n.toNat ≤ x.2.size)) = some x) :
    ∃ b, (blocksOf a segs).find? (fun b => b.free && decide (n ≤ b.size)) = some b ∧
      b.size.toNat = x.2.size := by
  induction segs generalizing a with
  | nil => simp [place] at hx
  | cons s rest ih =>
    simp only [extent] at hend
    have hsize : (BitVec.ofNat 32 s.size).toNat = s.size := by
      rw [BitVec.toNat_ofNat, Nat.mod_eq_of_lt (by omega)]
    have hsame : (s.free && decide (n ≤ BitVec.ofNat 32 s.size)) =
        (s.free && decide (n.toNat ≤ s.size)) := by
      simp only [BitVec.le_def, hsize]
    cases hfit : s.free && decide (n.toNat ≤ s.size) with
    | true =>
      rw [place, List.find?_cons_of_pos (by exact hfit)] at hx
      cases hx
      exact ⟨_, List.find?_cons_of_pos (by rw [hsame]; exact hfit), hsize⟩
    | false =>
      rw [place, List.find?_cons_of_neg (by simp [hfit])] at hx
      obtain ⟨b, hb, hsizeb⟩ := ih (by omega) hx
      exact ⟨b, by rw [blocksOf, List.find?_cons_of_neg (by simp [hsame, hfit]), hb], hsizeb⟩

/-- The headers are at multiples of 4. -/
structure Aligned (heap : Heap) (segs : List Seg) (s : HeapState) : Prop where
  holds : Holds heap segs s
  header : ∀ b ∈ (place 12 heap.head.toNat segs).map Prod.fst, 4 ∣ b

namespace Aligned

variable {heap : Heap} {segs : List Seg} {s : HeapState}

theorem free (h : Aligned heap segs s) (c : Nat) :
    ∀ b ∈ (place 12 heap.head.toNat (coalesce 12 (freeAt 12 c heap.head.toNat segs))).map Prod.fst,
      4 ∣ b := by
  intro b hb
  have hmem := place_coalesce_fst hb
  rw [place_freeAt_fst] at hmem
  exact h.header b hmem

theorem alloc (h : Aligned heap segs s) {n : BitVec 32} {r : Nat × List Seg}
    (hn : heap.Splits s.mem n → 4 ∣ n.toNat)
    (hr : firstFit 12 16 n.toNat heap.head.toNat segs = some r) :
    ∀ b ∈ (place 12 heap.head.toNat r.2).map Prod.fst, 4 ∣ b := by
  intro b hb
  rcases place_firstFit_fst hr hb with hold | ⟨rfl, t, hfind, hsplit⟩
  · exact h.header b hold
  · obtain ⟨c, hc, hsize⟩ := blocksOf_find (by rw [h.holds.extent]; exact h.holds.fits) hfind
    have hdvd := hn ⟨_, c, h.holds.blockList, hc, by rw [hsize]; exact hsplit⟩
    have hstart := h.header r.1 (List.mem_map_of_mem (List.mem_of_find?_eq_some hfind))
    omega

/-- Every step keeps the headers aligned when the blocks that are split are split after multiples
of 4 bytes. -/
theorem step (h : Aligned heap segs s) {s' : HeapState} (hstep : RoundedStep heap s s') :
    ∃ segs', Aligned heap segs' s' := by
  cases hstep with
  | @alloc n p m hn hrun =>
    rcases h.holds.alloc_inv hrun with ⟨rfl, rfl⟩ | ⟨r, hr, rfl, hne, hchain, -⟩
    · exact ⟨segs, h⟩
    · rw [if_neg hne]
      exact ⟨r.2, h.holds.alloc_some hr hchain, h.alloc hn hr⟩
  | other hother =>
    cases hother with
    | @free p m hp hrun =>
      rcases h.holds.free_inv hp hrun with ⟨rfl, rfl⟩ | ⟨x, hx, rfl, hchain, -⟩
      · rw [h.holds.free_null]
        exact ⟨segs, h⟩
      · exact ⟨_, h.holds.free_used hx hchain, h.free x.1⟩
    | write v hp hx => exact ⟨segs, h.holds.write_live v hp hx, h.header⟩

theorem run (h : Aligned heap segs s) {s' : HeapState}
    (hrun : Relation.ReflTransGen (RoundedStep heap) s s') : ∃ segs', Aligned heap segs' s' := by
  induction hrun with
  | refl => exact ⟨segs, h⟩
  | tail _ hstep ih =>
    obtain ⟨segs', h'⟩ := ih
    exact h'.step hstep

theorem blocks (h : Aligned heap segs s) {b : Block} (hb : b ∈ blocksOf heap.head.toNat segs) :
    4 ∣ b.addr.toNat := by
  have haddr := List.mem_map_of_mem (f := Block.addr) hb
  rw [blocksOf_addr, List.mem_map] at haddr
  obtain ⟨x, hx, hxb⟩ := haddr
  have hdvd := h.header x.1 (List.mem_map_of_mem hx)
  rw [← hxb, BitVec.toNat_ofNat]
  omega

/-- A pointer to the usable area of a block. -/
theorem payload (h : Aligned heap segs s) {x : Nat × Seg}
    (hx : x ∈ place 12 heap.head.toNat segs) : 4 ∣ (Sapphire.payload x).toNat := by
  have hdvd := h.header x.1 (List.mem_map_of_mem hx)
  rw [h.holds.payload_toNat hx]
  omega

theorem pointer (h : Aligned heap segs s) {n p : BitVec 32} {m' : Mem}
    (hrun : heap.alloc s.mem n = some (m', p)) : 4 ∣ p.toNat := by
  rcases h.holds.alloc_inv hrun with ⟨rfl, -⟩ | ⟨r, -, rfl, -, -, t, ht, -⟩
  · exact Nat.dvd_zero 4
  · exact h.payload ht

end Aligned

section

variable {fa : FrameAllocator} {pd : PageDirectory} {m : Mem} {numPages start : BitVec 32}
  {s : HeapState}

/-- In every state that is reached by splitting blocks after multiples of 4 bytes only, every header of
the block list is at a multiple of 4, and so is every pointer that `alloc` returns or has returned. -/
theorem heap_aligned (hinit : Heap.Contiguous fa m numPages start)
    (hrun : Relation.ReflTransGen (RoundedStep (Heap.init fa pd m numPages).1)
      ⟨(Heap.init fa pd m numPages).2, []⟩ s) :
    (∃ bs, (Heap.init fa pd m numPages).1.blockList s.mem = some bs ∧
      ∀ b ∈ bs, 4 ∣ b.addr.toNat) ∧
    (∀ l ∈ s.live, 4 ∣ l.1.toNat) ∧
    ∀ n m' p, (Heap.init fa pd m numPages).1.alloc s.mem n = some (m', p) → 4 ∣ p.toNat := by
  have hstart : Aligned (Heap.init fa pd m numPages).1 [⟨4096 * numPages.toNat - 12, true⟩]
      ⟨(Heap.init fa pd m numPages).2, []⟩ := by
    refine ⟨Heap.init_holds pd hinit, fun b hb => ?_⟩
    have hmod := hinit.start_mod
    simp only [place, List.map_cons, List.map_nil, List.mem_singleton] at hb
    rw [hb, hinit.head_eq]
    omega
  obtain ⟨segs, h⟩ := hstart.run hrun
  refine ⟨⟨_, h.holds.blockList, fun b hb => h.blocks hb⟩, fun l hl => ?_,
    fun n m' p halloc => h.pointer halloc⟩
  obtain ⟨x, hx, hpx⟩ := h.holds.live_used.mp (List.mem_map_of_mem hl)
  rw [← hpx]
  exact h.payload (mem_used.mp hx).1

end

/-- The first allocation on the heap of two frames, when it is not too large to split the block. -/
theorem small_alloc {n : BitVec 32} (hn : n.toNat ≤ 8152) :
    ∃ m', (Heap.init smallFa ⟨0x9C000⟩ smallMem 2).1.alloc
        (Heap.init smallFa ⟨0x9C000⟩ smallMem 2).2 n = some (m', 0x100C) ∧
      Holds (Heap.init smallFa ⟨0x9C000⟩ smallMem 2).1
        [⟨n.toNat, false⟩, ⟨8180 - n.toNat - 12, true⟩] ⟨m', [(0x100C, n)]⟩ := by
  have hhead : (Heap.init smallFa ⟨0x9C000⟩ smallMem 2).1.head.toNat = 0x1000 := by
    rw [small_contiguous.head_eq]
    rfl
  have h := Heap.init_holds ⟨0x9C000⟩ small_contiguous
  have hfit : firstFit 12 16 n.toNat (Heap.init smallFa ⟨0x9C000⟩ smallMem 2).1.head.toNat
      [⟨4096 * (2 : BitVec 32).toNat - 12, true⟩] =
        some (0x1000, [⟨n.toNat, false⟩, ⟨8180 - n.toNat - 12, true⟩]) := by
    rw [hhead, firstFit, if_neg (by simp; omega), if_pos (by simp; omega)]
    rfl
  rcases h.alloc_spec Arith.exact_wrapping n with ⟨hnone, -⟩ | ⟨r, m1, hr, hrun, hchain, -⟩
  · rw [hfit] at hnone
    cases hnone
  · rw [hfit] at hr
    cases hr
    exact ⟨m1, hrun, h.alloc_some hfit hchain⟩

theorem heap_aligned_small : ∃ s : HeapState, s.live = [(0x100C, 100)] ∧
    ∃ bs, (Heap.init smallFa ⟨0x9C000⟩ smallMem 2).1.blockList s.mem = some bs ∧
      ∀ b ∈ bs, 4 ∣ b.addr.toNat := by
  obtain ⟨m1, hrun, -⟩ := @small_alloc 100 (by decide)
  have hstep := @RoundedStep.alloc (Heap.init smallFa ⟨0x9C000⟩ smallMem 2).1
    ⟨(Heap.init smallFa ⟨0x9C000⟩ smallMem 2).2, []⟩ 100 0x100C m1 (fun _ => by decide) hrun
  exact ⟨_, rfl, (heap_aligned small_contiguous (.single hstep)).1⟩

/-- After an allocation of one byte there is a header at `0x100D`, and the next pointer is
`0x1019`. -/
theorem heap_aligned_oneByte : Heap.Contiguous smallFa smallMem 2 0x1000 ∧
    ∃ s bs m p, Heap.Reaches smallFa ⟨0x9C000⟩ smallMem 2 s ∧
      (Heap.init smallFa ⟨0x9C000⟩ smallMem 2).1.blockList s.mem = some bs ∧
      (∃ b ∈ bs, ¬ 4 ∣ b.addr.toNat) ∧
      (Heap.init smallFa ⟨0x9C000⟩ smallMem 2).1.alloc s.mem 1 = some (m, p) ∧ ¬ 4 ∣ p.toNat := by
  have hhead : (Heap.init smallFa ⟨0x9C000⟩ smallMem 2).1.head.toNat = 0x1000 := by
    rw [small_contiguous.head_eq]
    rfl
  obtain ⟨m1, hrun, h⟩ := @small_alloc 1 (by decide)
  rcases h.alloc_spec Arith.exact_wrapping 1 with ⟨hnone, -⟩ | ⟨r, m2, hr, hrun2, -⟩
  · rw [hhead] at hnone
    simp [firstFit] at hnone
  · rw [hhead] at hr
    simp [firstFit] at hr
    subst hr
    have hreach : Heap.Reaches smallFa ⟨0x9C000⟩ smallMem 2 ⟨m1, [(0x100C, 1)]⟩ :=
      .single (@HeapStep.alloc _ ⟨_, []⟩ 1 0x100C m1 hrun)
    refine ⟨small_contiguous, _, _, m2, _, hreach, h.blockList, ?_, hrun2, by decide⟩
    rw [hhead]
    exact ⟨_, List.mem_cons_of_mem _ List.mem_cons_self, by decide⟩

end Sapphire
