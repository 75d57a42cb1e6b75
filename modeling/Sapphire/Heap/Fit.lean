import Sapphire.Heap.Blocks
import Sapphire.Lib.Gaps

/-! `Heap::alloc` as first fit over the gaps between live allocations, and `Heap::free` as its
inverse.  The extent of a live allocation is its header and its capacity, the size that the header
holds. -/

namespace Sapphire

open Machine Segments BlockHeader

namespace Heap

/-- The size of the block of a pointer that `alloc` returned. -/
def capacity (m : Mem) (p : BitVec 32) : Nat := (size m (p - BlockHeader.bytes)).toNat

/-- The extents of the live allocations: from the header to the end of the capacity. -/
def extents (s : HeapState) : Set (Nat × Nat) :=
  {e | ∃ l ∈ s.live, e = (l.1.toNat - 12, l.1.toNat + capacity s.mem l.1)}

/-- A gap of the heap's region between the extents. -/
abbrev Gap (heap : Heap) (s : HeapState) (g len : Nat) : Prop :=
  Segments.Gap heap.head.toNat (heap.head.toNat + heap.totalSize.toNat) (extents s) g len

/-- What `alloc(n)` does from the state `s` when it leaves the memory `m'` and returns `p`: null and
nothing else when no gap holds `n` bytes and a header, and otherwise an allocation at the start of
the lowest gap that does. -/
structure FirstFit (heap : Heap) (s : HeapState) (n : BitVec 32) (m' : Mem) (p : BitVec 32) :
    Prop where
  null : p = 0 ↔ ¬∃ g len, heap.Gap s g len ∧ n.toNat + 12 ≤ len
  unchanged : p = 0 → m' = s.mem
  lowest : p ≠ 0 → ∃ g len, heap.Gap s g len ∧ n.toNat + 12 ≤ len ∧ p.toNat = g + 12 ∧
    ∀ g' len', heap.Gap s g' len' → n.toNat + 12 ≤ len' → g ≤ g'
  capacity : p ≠ 0 → n.toNat ≤ capacity m' p ∧ capacity m' p ≤ n.toNat + 27
  others : ∀ l ∈ s.live, Heap.capacity m' l.1 = Heap.capacity s.mem l.1

end Heap

theorem Chain.header {m : Mem} {a : Nat} {segs : List Seg} (h : Chain m a segs) {x : Nat × Seg}
    (hx : x ∈ place 12 a segs) : size m (BitVec.ofNat 32 x.1) = BitVec.ofNat 32 x.2.size := by
  induction segs generalizing a with
  | nil => simp [place] at hx
  | cons s rest ih =>
    obtain ⟨hat, hrest⟩ := h
    simp only [place, List.mem_cons] at hx
    rcases hx with rfl | hx
    · exact hat.size
    · exact ih hrest hx

namespace Holds

variable {heap : Heap} {segs : List Seg} {s : HeapState}

theorem capacity_payload (h : Holds heap segs s) {x : Nat × Seg}
    (hx : x ∈ place 12 heap.head.toNat segs) : Heap.capacity s.mem (payload x) = x.2.size := by
  have hb := h.bounds hx
  have hfit := h.fits
  have hheader : payload x - BlockHeader.bytes = BitVec.ofNat 32 x.1 := by
    have := h.payload_toNat hx
    bv_omega
  rw [Heap.capacity, hheader, h.chain.header hx, BitVec.toNat_ofNat, Nat.mod_eq_of_lt (by omega)]

/-- The extents of the live allocations are those of the blocks in use. -/
theorem extents_eq (h : Holds heap segs s) :
    Heap.extents s = Segments.extents 12 heap.head.toNat segs := by
  have hext : ∀ x ∈ used 12 heap.head.toNat segs,
      ((payload x).toNat - 12, (payload x).toNat + Heap.capacity s.mem (payload x)) =
        (x.1, x.1 + 12 + x.2.size) := by
    intro x hx
    have hplace := (mem_used.mp hx).1
    rw [h.payload_toNat hplace, h.capacity_payload hplace, Nat.add_sub_cancel]
  ext e
  constructor
  · rintro ⟨l, hl, rfl⟩
    obtain ⟨x, hx, hpay⟩ := h.live_used.mp (List.mem_map_of_mem hl)
    exact ⟨x, hx, by rw [← hpay, hext x hx]⟩
  · rintro ⟨x, hx, rfl⟩
    obtain ⟨l, hl, hpay⟩ := List.mem_map.mp (h.live_used.mpr ⟨x, hx, rfl⟩)
    exact ⟨l, hl, by rw [hpay, hext x hx]⟩

/-- The gaps of the heap are its free blocks. -/
theorem gap_iff (h : Holds heap segs s) {g len : Nat} :
    heap.Gap s g len ↔
      ∃ t, (g, t) ∈ place 12 heap.head.toNat segs ∧ t.free = true ∧ len = 12 + t.size := by
  rw [Heap.Gap, h.extents_eq, ← h.extent]
  exact gap_iff_free (by decide) h.apart

theorem firstFit_none_iff (h : Holds heap segs s) {n : Nat} :
    firstFit 12 16 n heap.head.toNat segs = none ↔ ¬∃ g len, heap.Gap s g len ∧ n + 12 ≤ len := by
  rw [firstFit_eq_none]
  constructor
  · rintro hall ⟨g, len, hgap, hn⟩
    obtain ⟨t, ht, hfree, rfl⟩ := h.gap_iff.mp hgap
    have := hall _ ht hfree
    simp only at this
    omega
  · intro hnone x hx hfree
    by_contra hn
    exact hnone ⟨x.1, 12 + x.2.size, h.gap_iff.mpr ⟨x.2, hx, hfree, rfl⟩, by omega⟩

/-- First fit over the blocks is first fit over the gaps. -/
theorem firstFit_some (h : Holds heap segs s) {n : BitVec 32} {r : Nat × List Seg} {m' : Mem}
    (hr : firstFit 12 16 n.toNat heap.head.toNat segs = some r)
    (hchain : Chain m' heap.head.toNat r.2) :
    heap.FirstFit s n m' (BitVec.ofNat 32 (r.1 + 12)) := by
  have h' := h.alloc_some hr hchain
  obtain ⟨t, ht, hfree, hn⟩ := firstFit_mem hr
  obtain ⟨c, hc, hc', hperm⟩ := used_firstFit hr
  have hnew : (r.1, ⟨c, false⟩) ∈ place 12 heap.head.toNat r.2 :=
    (mem_used.mp (hperm.symm.subset List.mem_cons_self)).1
  have hne : BitVec.ofNat 32 (r.1 + 12) ≠ 0 := h.payload_ne_zero ht
  have hcap := h'.capacity_payload hnew
  rw [payload] at hcap
  have hgap : heap.Gap s r.1 (12 + t.size) := h.gap_iff.mpr ⟨t, ht, hfree, rfl⟩
  have hval : (BitVec.ofNat 32 (r.1 + 12)).toNat = r.1 + 12 := h.payload_toNat ht
  exact {
    null := iff_of_false hne fun hnone => hnone ⟨_, _, hgap, by omega⟩
    unchanged := fun hzero => absurd hzero hne
    lowest := fun _ => by
      refine ⟨r.1, _, hgap, by omega, hval, fun g len hg hlen => ?_⟩
      obtain ⟨u, hu, hufree, rfl⟩ := h.gap_iff.mp hg
      exact firstFit_least hr hu hufree (by simp only; omega)
    capacity := fun _ => by
      rw [hcap]
      exact ⟨hc, by simp only; omega⟩
    others := fun l hl => by
      obtain ⟨x, hx, hpay⟩ := h.live_used.mp (List.mem_map_of_mem hl)
      have hx' : x ∈ used 12 heap.head.toNat r.2 := hperm.symm.subset (List.mem_cons_of_mem _ hx)
      rw [← hpay, h.capacity_payload (mem_used.mp hx).1]
      exact h'.capacity_payload (mem_used.mp hx').1 }

theorem alloc_firstFit (h : Holds heap segs s) (n : BitVec 32) :
    ∃ m' p, heap.alloc s.mem n = some (m', p) ∧ heap.FirstFit s n m' p := by
  rcases h.alloc_spec Arith.exact_wrapping n with ⟨hnone, hrun⟩ | ⟨r, m', hr, hrun, hchain, -⟩
  · refine ⟨s.mem, 0, hrun, iff_of_true rfl (h.firstFit_none_iff.mp hnone), fun _ => rfl,
      fun hne => absurd rfl hne, fun hne => absurd rfl hne, fun l _ => rfl⟩
  · exact ⟨m', _, hrun, h.firstFit_some hr hchain⟩

/-- `free` of a pointer that `alloc` has just returned, with writes only into the area asked for in
between, gives the segments back. -/
theorem free_alloc (h : Holds heap segs s) {n p : BitVec 32} {m1 m2 : Mem}
    (halloc : heap.alloc s.mem n = some (m1, p)) (hp : p ≠ 0)
    (hwrites : ChangesOnly (span p n.toNat) m1 m2) :
    ∃ m3, heap.free m2 p = some m3 ∧ Holds heap segs ⟨m3, s.live⟩ := by
  rcases h.alloc_inv halloc with ⟨hzero, -⟩ | ⟨r, hr, rfl, -, hchain, -⟩
  · exact absurd hzero hp
  · have h2 := (h.alloc_some hr hchain).writes_live List.mem_cons_self hwrites
    obtain ⟨c, -, -, hperm⟩ := used_firstFit hr
    have hx : (r.1, ⟨c, false⟩) ∈ used 12 heap.head.toNat r.2 :=
      hperm.symm.subset List.mem_cons_self
    obtain ⟨m3, hfree, hchain3, -⟩ := h2.free_spec Arith.exact_wrapping hx
    have h3 := h2.free_used hx hchain3
    rw [coalesce_freeAt_firstFit (by decide) h.apart hr, payload] at h3
    -- the pointer is the only one that goes
    have hlive : (((BitVec.ofNat 32 (r.1 + 12), n) :: s.live).filter
        fun l => l.1 ≠ BitVec.ofNat 32 (r.1 + 12)) = s.live := by
      obtain ⟨hnot, -⟩ := List.nodup_cons.mp h2.live_nodup
      rw [List.filter_cons_of_neg (by simp), List.filter_eq_self]
      refine fun l hl => decide_eq_true fun heq => hnot ?_
      exact List.mem_map.mpr ⟨l, hl, heq⟩
    rw [hlive] at h3
    exact ⟨m3, hfree, h3⟩

end Holds

/-! ### Runs from `init` -/

section Reachable

variable {fa : FrameAllocator} {pd : PageDirectory} {m : Mem} {numPages start : BitVec 32}
  {s : HeapState}

/-- In every state that a run reaches, `alloc` is first fit over the gaps between the extents of the
live allocations. -/
theorem heap_alloc_first_fit (hinit : Heap.Contiguous fa m numPages start)
    (hrun : Heap.Reaches fa pd m numPages s) (n : BitVec 32) :
    ∃ m' p, (Heap.init fa pd m numPages).1.alloc s.mem n = some (m', p) ∧
      (Heap.init fa pd m numPages).1.FirstFit s n m' p := by
  obtain ⟨segs, h⟩ := hrun.holds hinit
  exact h.alloc_firstFit n

theorem heap_alloc_first_fit_small : ∃ s : HeapState, s.live = [(0x107C, 50), (0x100C, 100)] ∧
    ∃ m' p, (Heap.init smallFa ⟨0x9C000⟩ smallMem 2).1.alloc s.mem 200 = some (m', p) ∧
      (Heap.init smallFa ⟨0x9C000⟩ smallMem 2).1.FirstFit s 200 m' p := by
  obtain ⟨s, hrun, hlive⟩ := small_reaches
  exact ⟨s, hlive, heap_alloc_first_fit small_contiguous hrun 200⟩

/-- In every state that a run reaches, `free` of what `alloc` returns, with writes only into the area
asked for in between, restores the block list. -/
theorem heap_free_undoes_alloc (hinit : Heap.Contiguous fa m numPages start)
    (hrun : Heap.Reaches fa pd m numPages s) {n p : BitVec 32} {m1 m2 : Mem}
    (halloc : (Heap.init fa pd m numPages).1.alloc s.mem n = some (m1, p)) (hp : p ≠ 0)
    (hwrites : ChangesOnly (span p n.toNat) m1 m2) :
    ∃ m3 bs, (Heap.init fa pd m numPages).1.free m2 p = some m3 ∧
      (Heap.init fa pd m numPages).1.blockList s.mem = some bs ∧
      (Heap.init fa pd m numPages).1.blockList m3 = some bs := by
  obtain ⟨segs, h⟩ := hrun.holds hinit
  obtain ⟨m3, hfree, h3⟩ := h.free_alloc halloc hp hwrites
  exact ⟨m3, _, hfree, h.blockList, h3.blockList⟩

theorem heap_free_undoes_alloc_small : ∃ m1 m3 bs,
    (Heap.init smallFa ⟨0x9C000⟩ smallMem 2).1.alloc
      (Heap.init smallFa ⟨0x9C000⟩ smallMem 2).2 100 = some (m1, 0x100C) ∧
    (Heap.init smallFa ⟨0x9C000⟩ smallMem 2).1.free (m1.store8 0x100C 7) 0x100C = some m3 ∧
    (Heap.init smallFa ⟨0x9C000⟩ smallMem 2).1.blockList
      (Heap.init smallFa ⟨0x9C000⟩ smallMem 2).2 = some bs ∧
    (Heap.init smallFa ⟨0x9C000⟩ smallMem 2).1.blockList m3 = some bs := by
  have hhead : (Heap.init smallFa ⟨0x9C000⟩ smallMem 2).1.head = 0x1000 := by decide +kernel
  have h := Heap.init_holds ⟨0x9C000⟩ small_contiguous
  rcases h.alloc_spec Arith.exact_wrapping 100 with ⟨hnone, -⟩ | ⟨r, m1, hr, hrun, -⟩
  · rw [hhead] at hnone
    simp [firstFit] at hnone
  rw [hhead] at hr
  simp [firstFit] at hr
  subst hr
  have hwrite : ChangesOnly (span 0x100C (100 : BitVec 32).toNat) m1 (m1.store8 0x100C 7) :=
    (Mem.changesOnly_store8 _ _ _).mono (span_mono (by decide))
  have hinit : Heap.Reaches smallFa ⟨0x9C000⟩ smallMem 2
      ⟨(Heap.init smallFa ⟨0x9C000⟩ smallMem 2).2, []⟩ := .refl
  obtain ⟨m3, bs, hfree, hbefore, hafter⟩ :=
    heap_free_undoes_alloc small_contiguous hinit hrun (by decide) hwrite
  exact ⟨m1, m3, bs, hrun, hfree, hbefore, hafter⟩

end Reachable

end Sapphire
