import Sapphire.FrameAlloc.Scan
import Sapphire.Heap.Run

/-! The heap over whole runs, from `Heap::init` on contiguous frames: its block list tiles the region
and no arithmetic wraps, live areas are apart from each other and from every header and keep their
bytes, and frees give the same list in every order. -/

namespace Sapphire

open Machine Segments BlockHeader

/-- A block of the heap's list. -/
structure Block where
  addr : BitVec 32
  size : BitVec 32
  free : Bool
  next : BitVec 32
  deriving DecidableEq

namespace Heap

/-- The blocks from `b` on, by following `next` until null. -/
def blocksFrom (m : Mem) : Nat → BitVec 32 → Option (List Block)
  | 0, _ => none
  | fuel + 1, b =>
    if b = 0 then some []
    else (blocksFrom m fuel (next m b)).map
      (⟨b, size m b, BlockHeader.free m b, next m b⟩ :: ·)

/-- The list reached from `head`; `none` if it has no end. -/
def blockList (heap : Heap) (m : Mem) : Option (List Block) := blocksFrom m (2 ^ 32) heap.head

/-- `init` gets `numPages` contiguous frames from `start` on, inside the address space. -/
structure Contiguous (fa : FrameAllocator) (m : Mem) (numPages start : BitVec 32) : Prop where
  pos : numPages ≠ 0
  frames : (fa.takeFrames m numPages.toNat).2 =
    (List.range numPages.toNat).map fun i => start + BitVec.ofNat 32 i * pageSize
  nonzero : start ≠ 0
  fits : start.toNat + 4096 * numPages.toNat ≤ 2 ^ 32

/-- The loop of `init` keeps the first and the last of the frames. -/
theorem init_loop (fa : FrameAllocator) (m : Mem) (n : Nat) :
    (List.range n).foldl (fun (st : Mem × BitVec 32 × BitVec 32) i =>
      let f := fa.allocFrame st.1
      (f.1, if i = 0 then f.2 else st.2.1, f.2)) (m, 0, 0) =
    ((fa.takeFrames m n).1, (fa.takeFrames m n).2.headD 0, (fa.takeFrames m n).2.getLastD 0) := by
  induction n with
  | zero => rfl
  | succ n ih =>
    rw [List.range_succ, List.foldl_append, ih]
    cases n with
    | zero => rfl
    | succ n =>
      simp only [FrameAllocator.takeFrames, List.foldl_cons, List.foldl_nil, Nat.succ_ne_zero,
        if_false, List.getLastD_concat]
      cases (fa.takeFrames m n).2 <;> rfl

variable {fa : FrameAllocator} {pd : PageDirectory} {m : Mem} {numPages start : BitVec 32}

theorem Contiguous.start_mod (h : Contiguous fa m numPages start) : start.toNat % 4096 = 0 := by
  obtain ⟨n, hn⟩ : ∃ n, numPages.toNat = n + 1 := by
    refine ⟨numPages.toNat - 1, ?_⟩
    have := h.pos
    bv_omega
  have hframes := h.frames
  rw [hn, List.range_succ_eq_map, List.map_cons, BitVec.zero_mul, BitVec.add_zero] at hframes
  have hmem : start ∈ (fa.takeFrames m (n + 1)).2 := by
    rw [hframes]
    exact List.mem_cons_self
  exact FrameAllocator.takeFrames_aligned hmem

theorem Contiguous.start_ge (h : Contiguous fa m numPages start) : 4096 ≤ start.toNat := by
  have hmod := h.start_mod
  have := h.nonzero
  bv_omega

theorem Contiguous.headD_eq (h : Contiguous fa m numPages start) :
    (fa.takeFrames m numPages.toNat).2.headD 0 = start := by
  obtain ⟨n, hn⟩ : ∃ n, numPages.toNat = n + 1 := by
    refine ⟨numPages.toNat - 1, ?_⟩
    have := h.pos
    bv_omega
  rw [h.frames, hn, List.range_succ_eq_map]
  simp

theorem Contiguous.head_eq (h : Contiguous fa m numPages start) :
    (init fa pd m numPages).1.head = start := by
  simp only [init, init_loop, h.headD_eq]

/-- `init` on contiguous frames leaves one free block that fills them. -/
theorem init_holds (pd : PageDirectory) (h : Contiguous fa m numPages start) :
    Holds (init fa pd m numPages).1 [⟨4096 * numPages.toNat - 12, true⟩]
      ⟨(init fa pd m numPages).2, []⟩ := by
  have hlow := h.start_ge
  have hfits := h.fits
  have hpos : 0 < numPages.toNat := by
    have := h.pos
    bv_omega
  have hfirst := h.headD_eq
  have hlast : (fa.takeFrames m numPages.toNat).2.getLastD 0 =
      start + BitVec.ofNat 32 (numPages.toNat - 1) * pageSize := by
    obtain ⟨n, hn⟩ : ∃ n, numPages.toNat = n + 1 := ⟨numPages.toNat - 1, by omega⟩
    rw [h.frames, hn, List.range_succ, List.map_append]
    simp
  have htotal : start + BitVec.ofNat 32 (numPages.toNat - 1) * pageSize + pageSize - start =
      BitVec.ofNat 32 (4096 * numPages.toNat) := by bv_omega
  have hhead : (init fa pd m numPages).1.head = start := h.head_eq
  have hsize : (init fa pd m numPages).1.totalSize = BitVec.ofNat 32 (4096 * numPages.toNat) := by
    simp only [init, init_loop, hfirst, hlast, htotal]
  have hsize' : (init fa pd m numPages).1.totalSize.toNat = 4096 * numPages.toNat := by
    rw [hsize, BitVec.toNat_ofNat, Nat.mod_eq_of_lt (by omega)]
  refine ⟨by rw [hhead]; omega, by rw [hhead, hsize']; exact hfits, by simp, ?_, ⟨?_, trivial⟩,
    List.isChain_singleton _, ?_, List.Perm.refl _, by simp⟩
  · rw [hsize']
    simp only [extent]
    omega
  · have hstart : BitVec.ofNat 32 (init fa pd m numPages).1.head.toNat = start := by
      rw [hhead, BitVec.ofNat_toNat, BitVec.setWidth_eq]
    have hval : BitVec.ofNat 32 (4096 * numPages.toNat) - BlockHeader.bytes =
        BitVec.ofNat 32 (4096 * numPages.toNat - 12) := by bv_omega
    refine ⟨?_, ?_, ?_⟩ <;> rw [hstart] <;>
      simp only [init, init_loop, hfirst, hlast, htotal, hval, size_setNext, size_setFree,
        size_setSize, free_setNext, free_setFree, next_setNext, link_nil]
  · intro s hs
    simp only [List.getLast?_singleton, Option.mem_some_iff] at hs
    subst hs
    simp only
    omega

end Heap

/-! ### The block list -/

/-- The blocks that a list of segments from `a` on is in memory. -/
def blocksOf : Nat → List Seg → List Block
  | _, [] => []
  | a, s :: rest =>
    ⟨BitVec.ofNat 32 a, BitVec.ofNat 32 s.size, s.free, link (a + 12 + s.size) rest⟩ ::
      blocksOf (a + 12 + s.size) rest

theorem blocksFrom_chain {m : Mem} {a fuel : Nat} {segs : List Seg} (h : Chain m a segs)
    (hlow : 0 < a) (hend : a + extent 12 segs ≤ 2 ^ 32) (hfuel : segs.length < fuel) :
    Heap.blocksFrom m fuel (link a segs) = some (blocksOf a segs) := by
  induction segs generalizing a fuel with
  | nil =>
    obtain ⟨fuel, rfl⟩ : ∃ f, fuel = f + 1 := ⟨fuel - 1, by simp at hfuel; omega⟩
    rfl
  | cons s rest ih =>
    obtain ⟨fuel, rfl⟩ : ∃ f, fuel = f + 1 := ⟨fuel - 1, by simp at hfuel; omega⟩
    obtain ⟨hat, hrest⟩ := h
    simp only [extent] at hend
    simp only [List.length_cons] at hfuel
    have hne : BitVec.ofNat 32 a ≠ 0 := by bv_omega
    simp only [Heap.blocksFrom, link_cons, hne, if_false, hat.next, hat.size, hat.free]
    rw [ih hrest (by omega) (by omega) (by omega)]
    rfl

theorem Holds.blockList {heap : Heap} {segs : List Seg} {s : HeapState} (h : Holds heap segs s) :
    heap.blockList s.mem = some (blocksOf heap.head.toNat segs) := by
  have hlow := h.low
  have := blocksFrom_chain h.chain (by omega) (by rw [h.extent]; exact h.fits)
    h.length_lt
  rwa [h.link_head] at this

/-- The blocks tile the region of the heap exactly, in order, and no two neighbours are free. -/
structure Tiles (heap : Heap) (bs : List Block) : Prop where
  first : bs.head?.map Block.addr = some heap.head
  acyclic : (bs.map Block.addr).Nodup
  linked : bs.IsChain fun b c =>
    b.next = c.addr ∧ b.next.toNat = b.addr.toNat + 12 + b.size.toNat
  last : ∀ b ∈ bs.getLast?, b.next = 0 ∧
    b.addr.toNat + 12 + b.size.toNat = heap.head.toNat + heap.totalSize.toNat
  sum : (bs.map fun b => 12 + b.size.toNat).sum = heap.totalSize.toNat
  coalesced : bs.IsChain fun b c => ¬(b.free = true ∧ c.free = true)

/-- `alloc` of any size and `free` of null or a live pointer return, and none of their 32-bit
additions and subtractions wraps. -/
structure NoWrap (heap : Heap) (s : HeapState) : Prop where
  alloc : ∀ n, ∃ r, heap.alloc s.mem n = some r ∧ heap.allocWith .checked s.mem n = some r
  free : ∀ p, p = 0 ∨ p ∈ s.live.map Prod.fst →
    ∃ m, heap.free s.mem p = some m ∧ heap.freeWith .checked s.mem p = some m

theorem blocksOf_linked {a : Nat} {segs : List Seg} (hend : a + extent 12 segs ≤ 2 ^ 32) :
    (blocksOf a segs).IsChain fun b c =>
      b.next = c.addr ∧ b.next.toNat = b.addr.toNat + 12 + b.size.toNat := by
  induction segs generalizing a with
  | nil => exact List.isChain_nil
  | cons s rest ih =>
    cases rest with
    | nil => exact List.isChain_singleton _
    | cons t rest =>
      simp only [extent] at hend ih
      refine List.isChain_cons_cons.mpr ⟨⟨rfl, ?_⟩, ih (by omega)⟩
      simp only [link_cons]
      bv_omega

theorem blocksOf_last {a : Nat} {segs : List Seg} (hend : a + extent 12 segs ≤ 2 ^ 32)
    {b : Block} (hb : b ∈ (blocksOf a segs).getLast?) :
    b.next = 0 ∧ b.addr.toNat + 12 + b.size.toNat = a + extent 12 segs := by
  induction segs generalizing a with
  | nil => simp [blocksOf] at hb
  | cons s rest ih =>
    cases rest with
    | nil =>
      simp only [blocksOf, List.getLast?_singleton, Option.mem_some_iff] at hb
      subst hb
      simp only [extent] at hend ⊢
      refine ⟨rfl, ?_⟩
      bv_omega
    | cons t rest =>
      simp only [blocksOf, List.getLast?_cons_cons] at hb
      simp only [extent] at hend ih ⊢
      have := ih (a := a + 12 + s.size) (by omega) hb
      exact ⟨this.1, by omega⟩

theorem blocksOf_sum {a : Nat} {segs : List Seg} (hend : a + extent 12 segs ≤ 2 ^ 32) :
    ((blocksOf a segs).map fun b => 12 + b.size.toNat).sum = extent 12 segs := by
  induction segs generalizing a with
  | nil => rfl
  | cons s rest ih =>
    simp only [extent] at hend ⊢
    simp only [blocksOf, List.map_cons, List.sum_cons]
    rw [ih (by omega), BitVec.toNat_ofNat, Nat.mod_eq_of_lt (by omega)]

theorem blocksOf_addr (a : Nat) (segs : List Seg) :
    (blocksOf a segs).map Block.addr = (place 12 a segs).map fun x => BitVec.ofNat 32 x.1 := by
  induction segs generalizing a with
  | nil => rfl
  | cons s rest ih => simp [blocksOf, place, ih]

theorem blocksOf_nodup {a : Nat} {segs : List Seg} (hend : a + extent 12 segs ≤ 2 ^ 32) :
    ((blocksOf a segs).map Block.addr).Nodup := by
  rw [blocksOf_addr, List.Nodup, List.pairwise_map]
  refine (place_pairwise 12 a segs).imp_of_mem fun {x y} hx hy hle heq => ?_
  have h1 := place_bounds hx
  have h2 := place_bounds hy
  have h3 := congrArg BitVec.toNat heq
  simp only [BitVec.toNat_ofNat] at h3
  omega

theorem blocksOf_apart {a : Nat} {segs : List Seg} (h : Apart segs) :
    (blocksOf a segs).IsChain fun b c => ¬(b.free = true ∧ c.free = true) := by
  induction segs generalizing a with
  | nil => exact List.isChain_nil
  | cons s rest ih =>
    cases rest with
    | nil => exact List.isChain_singleton _
    | cons t rest =>
      obtain ⟨hst, hrest⟩ := List.isChain_cons_cons.mp h
      exact List.isChain_cons_cons.mpr ⟨hst, ih hrest⟩

namespace Holds

variable {heap : Heap} {segs : List Seg} {s : HeapState}

theorem tiles (h : Holds heap segs s) : Tiles heap (blocksOf heap.head.toNat segs) := by
  have hend : heap.head.toNat + Segments.extent 12 segs ≤ 2 ^ 32 := by
    rw [h.extent]
    exact h.fits
  refine ⟨?_, blocksOf_nodup hend, blocksOf_linked hend, fun b hb => ?_, ?_, blocksOf_apart h.apart⟩
  · cases hsegs : segs with
    | nil => exact absurd hsegs h.nonempty
    | cons t rest => simp [blocksOf]
  · have := blocksOf_last hend hb
    rwa [h.extent] at this
  · rw [blocksOf_sum hend, h.extent]

theorem noWrap (h : Holds heap segs s) : NoWrap heap s := by
  refine ⟨fun n => ?_, fun p hp => ?_⟩
  · rcases h.alloc_spec Arith.exact_checked n with ⟨-, hrun⟩ | ⟨r, m', -, hrun, -⟩
    · exact ⟨_, Heap.allocWalk_of_checked hrun, hrun⟩
    · exact ⟨_, Heap.allocWalk_of_checked hrun, hrun⟩
  · rcases hp with rfl | hp
    · exact ⟨s.mem, by simp [Heap.free, Heap.freeWith], by simp [Heap.freeWith]⟩
    · obtain ⟨x, hx, rfl⟩ := h.live_used.mp hp
      obtain ⟨m', hrun, -⟩ := h.free_spec Arith.exact_checked hx
      exact ⟨m', Heap.freeWith_of_checked hrun, hrun⟩

end Holds

/-! ### Isolation -/

/-- The areas that clients asked for are apart from each other and from the headers of the blocks,
inside the heap's region, and neither `alloc` nor `free` changes a byte of one that stays live. -/
structure Isolated (heap : Heap) (bs : List Block) (s : HeapState) : Prop where
  disjoint : s.live.Pairwise fun k l => Disjoint (span k.1 k.2.toNat) (span l.1 l.2.toNat)
  inside : ∀ l ∈ s.live, heap.head.toNat ≤ l.1.toNat ∧
    l.1.toNat + l.2.toNat ≤ heap.head.toNat + heap.totalSize.toNat
  headers : ∀ l ∈ s.live, ∀ b ∈ bs, Disjoint (span l.1 l.2.toNat) (span b.addr 12)
  alloc : ∀ n m' p, heap.alloc s.mem n = some (m', p) →
    ∀ l ∈ s.live, ∀ x ∈ span l.1 l.2.toNat, m' x = s.mem x
  free : ∀ p m', p = 0 ∨ p ∈ s.live.map Prod.fst → heap.free s.mem p = some m' →
    ∀ l ∈ s.live, l.1 ≠ p → ∀ x ∈ span l.1 l.2.toNat, m' x = s.mem x

namespace Holds

variable {heap : Heap} {segs : List Seg} {s : HeapState}

theorem live_nodup (h : Holds heap segs s) : (s.live.map Prod.fst).Nodup := by
  rw [h.live.nodup_iff, List.Nodup, List.pairwise_map]
  have hpair := used_nodup (h := 12) (by decide) heap.head.toNat segs
  rw [List.Nodup, List.pairwise_map] at hpair
  refine hpair.imp_of_mem fun {x y} hx hy hne heq => hne ?_
  exact (h.payload_inj (mem_used.mp hx).1 (mem_used.mp hy).1).mp heq

/-- Two areas of different live pointers do not overlap. -/
theorem live_disjoint (h : Holds heap segs s) {k l : BitVec 32 × BitVec 32} (hk : k ∈ s.live)
    (hl : l ∈ s.live) (hne : k.1 ≠ l.1) :
    Disjoint (span k.1 k.2.toNat) (span l.1 l.2.toNat) := by
  obtain ⟨x, hx, hpx, hrx⟩ := h.room k hk
  obtain ⟨z, hz, hpz, hrz⟩ := h.room l hl
  have hx' := (mem_used.mp hx).1
  have hz' := (mem_used.mp hz).1
  rw [← hpx, ← hpz] at hne
  rw [← hpx, ← hpz, Set.disjoint_left]
  intro y hyx hyz
  rw [h.mem_area hx' hrx] at hyx
  rw [h.mem_area hz' hrz] at hyz
  rcases place_disjoint hx' hz' with rfl | hd | hd
  · exact hne rfl
  · omega
  · omega

theorem live_inside (h : Holds heap segs s) {l : BitVec 32 × BitVec 32} (hl : l ∈ s.live) :
    heap.head.toNat ≤ l.1.toNat ∧
      l.1.toNat + l.2.toNat ≤ heap.head.toNat + heap.totalSize.toNat := by
  obtain ⟨x, hx, hpx, hrx⟩ := h.room l hl
  have hb := h.bounds (mem_used.mp hx).1
  have hv := h.payload_toNat (mem_used.mp hx).1
  rw [hpx] at hv
  omega

theorem live_not_header (h : Holds heap segs s) {l : BitVec 32 × BitVec 32} (hl : l ∈ s.live)
    {y : BitVec 32} (hy : y ∈ span l.1 l.2.toNat) : y ∉ headers heap.head.toNat segs := by
  obtain ⟨x, hx, hpx, hrx⟩ := h.room l hl
  rw [← hpx] at hy
  exact h.area_not_header (mem_used.mp hx).1 hrx hy

theorem live_disjoint_block (h : Holds heap segs s) {l : BitVec 32 × BitVec 32} (hl : l ∈ s.live)
    {b : Block} (hb : b ∈ blocksOf heap.head.toNat segs) :
    Disjoint (span l.1 l.2.toNat) (span b.addr 12) := by
  rw [Set.disjoint_left]
  intro y hy hyb
  refine h.live_not_header hl hy ?_
  have hb' := List.mem_map_of_mem (f := Block.addr) hb
  rw [blocksOf_addr, List.mem_map] at hb'
  obtain ⟨z, hz, hzb⟩ := hb'
  have hbz := h.bounds hz
  rw [← hzb, mem_span_ofNat (by omega) (by omega)] at hyb
  exact ⟨z, hz, hyb⟩

/-- `alloc` writes only into the free block that it takes. -/
theorem alloc_keeps (h : Holds heap segs s) {n p : BitVec 32} {m' : Mem}
    (hrun : heap.alloc s.mem n = some (m', p)) {l : BitVec 32 × BitVec 32} (hl : l ∈ s.live)
    {y : BitVec 32} (hy : y ∈ span l.1 l.2.toNat) : m' y = s.mem y := by
  obtain ⟨x, hx, hpx, hrx⟩ := h.room l hl
  have hx' := mem_used.mp hx
  rcases h.alloc_inv hrun with ⟨-, rfl⟩ | ⟨r, -, -, -, -, t, ht, hfree, hc⟩
  · rfl
  · refine hc y fun hyt => ?_
    have hbt := h.bounds ht
    have hfit := h.fits
    dsimp only at hbt
    rw [mem_span_ofNat (by omega) (by omega)] at hyt
    rw [← hpx, h.mem_area hx'.1 hrx] at hy
    rcases place_disjoint hx'.1 ht with rfl | hd | hd
    · simp [hfree] at hx'
    · dsimp only at hd
      omega
    · dsimp only at hd
      omega

/-- `free` writes only headers. -/
theorem free_keeps (h : Holds heap segs s) {p : BitVec 32} {m' : Mem}
    (hp : p = 0 ∨ p ∈ s.live.map Prod.fst) (hrun : heap.free s.mem p = some m')
    {l : BitVec 32 × BitVec 32} (hl : l ∈ s.live) {y : BitVec 32} (hy : y ∈ span l.1 l.2.toNat) :
    m' y = s.mem y := by
  rcases h.free_inv hp hrun with ⟨-, rfl⟩ | ⟨x, hx, -, -, hc⟩
  · rfl
  · exact h.free_changes (mem_used.mp hx).1 hc y (h.live_not_header hl hy)

theorem isolated (h : Holds heap segs s) :
    Isolated heap (blocksOf heap.head.toNat segs) s := by
  have hnodup := h.live_nodup
  rw [List.Nodup, List.pairwise_map] at hnodup
  exact {
    disjoint := hnodup.imp_of_mem fun hk hl hne => h.live_disjoint hk hl hne
    inside := fun l hl => h.live_inside hl
    headers := fun l hl b hb => h.live_disjoint_block hl hb
    alloc := fun n m' p hrun l hl x hx => h.alloc_keeps hrun hl hx
    free := fun p m' hp hrun l hl _ x hx => h.free_keeps hp hrun hl hx }

end Holds

/-! ### Frees in any order -/

/-- Frees of several pointers, in order. -/
def Heap.freeAll (heap : Heap) (m : Mem) (ps : List (BitVec 32)) : Option Mem :=
  ps.foldlM heap.free m

namespace Holds

variable {heap : Heap} {segs : List Seg} {s : HeapState}

/-- Frees of distinct live pointers mark their blocks free and coalesce. -/
theorem freeAll_spec (h : Holds heap segs s) {ps : List (BitVec 32)} (hnodup : ps.Nodup)
    (hlive : ∀ p ∈ ps, p ∈ s.live.map Prod.fst) :
    ∃ m', heap.freeAll s.mem ps = some m' ∧
      Holds heap (coalesce 12 (freeAll 12 heap.head.toNat (ps.map fun p => p.toNat - 12) segs))
        ⟨m', s.live.filter fun l => l.1 ∉ ps⟩ := by
  induction ps generalizing segs s with
  | nil =>
    refine ⟨s.mem, rfl, ?_⟩
    rw [List.map_nil, freeAll, List.foldl_nil, coalesce_of_apart h.apart]
    simpa using h
  | cons p ps ih =>
    obtain ⟨hp, hnodup'⟩ := List.nodup_cons.mp hnodup
    obtain ⟨x, hx, rfl⟩ := h.live_used.mp (hlive p List.mem_cons_self)
    obtain ⟨m1, hrun, hchain, -⟩ := h.free_spec Arith.exact_wrapping hx
    have h1 := h.free_used hx hchain
    obtain ⟨m', hrun', h'⟩ := ih h1 hnodup' fun q hq => by
      have hq' := hlive q (List.mem_cons_of_mem _ hq)
      obtain ⟨l, hl, rfl⟩ := List.mem_map.mp hq'
      refine List.mem_map_of_mem (List.mem_filter.mpr ⟨hl, ?_⟩)
      simp only [decide_eq_true_eq]
      rintro heq
      exact hp (heq ▸ hq)
    refine ⟨m', ?_, ?_⟩
    · rw [Heap.freeAll, List.foldlM_cons]
      rw [show Heap.freeWith .wrapping heap s.mem _ = heap.free s.mem _ from rfl] at hrun
      rw [hrun]
      exact hrun'
    · have hval : (payload x).toNat - 12 = x.1 := by
        rw [h.payload_toNat (mem_used.mp hx).1]
        omega
      rw [coalesce_freeAll_coalesce] at h'
      simp only [List.map_cons, freeAll, List.foldl_cons, hval] at h' ⊢
      rw [List.filter_filter] at h'
      have hfilter : (s.live.filter fun l => l.1 ∉ payload x :: ps) =
          s.live.filter fun l => decide (l.1 ∉ ps) && decide (l.1 ≠ payload x) := by
        refine List.filter_congr fun l _ => ?_
        simp [and_comm]
      rw [hfilter]
      exact h'

/-- With no live allocation left the heap is one free block. -/
theorem all_free (h : Holds heap segs s) (hlive : s.live = []) :
    blocksOf heap.head.toNat segs = [⟨heap.head, heap.totalSize - 12, true, 0⟩] := by
  have hused : used 12 heap.head.toNat segs = [] := by
    have := h.live
    rw [hlive, List.map_nil, List.nil_perm, List.map_eq_nil_iff] at this
    exact this
  have hsegs := coalesce_of_used_nil h.nonempty hused
  have hpos := mul_length_le_extent 12 segs
  have hlen := List.length_pos_iff.mpr h.nonempty
  rw [coalesce_of_apart h.apart, h.extent] at hsegs
  rw [h.extent] at hpos
  rw [hsegs]
  simp only [blocksOf, link_nil, BitVec.ofNat_toNat, BitVec.setWidth_eq, List.cons.injEq,
    Block.mk.injEq, and_true, true_and]
  bv_omega

end Holds

/-! ### Runs from `init` -/

/-- The states that runs reach from `init`. -/
def Heap.Reaches (fa : FrameAllocator) (pd : PageDirectory) (m : Mem) (numPages : BitVec 32)
    (s : HeapState) : Prop :=
  Relation.ReflTransGen (HeapStep (Heap.init fa pd m numPages).1)
    ⟨(Heap.init fa pd m numPages).2, []⟩ s

/-- An allocator of 32 frames, and a memory in which only frame 0 is in use. -/
def smallFa : FrameAllocator := ⟨0x500000, 32, 4⟩

def smallMem : Mem := fun x => if x = 0x500000 then 1 else 0

theorem small_contiguous : Heap.Contiguous smallFa smallMem 2 0x1000 where
  pos := by decide
  frames := by decide +kernel
  nonzero := by decide
  fits := by decide

/-- Two allocations on the heap of two frames. -/
theorem small_reaches : ∃ s, Heap.Reaches smallFa ⟨0x9C000⟩ smallMem 2 s ∧
    s.live = [(0x107C, 50), (0x100C, 100)] := by
  have hhead : (Heap.init smallFa ⟨0x9C000⟩ smallMem 2).1.head = 0x1000 := by decide +kernel
  have h := Heap.init_holds ⟨0x9C000⟩ small_contiguous
  rcases h.alloc_spec Arith.exact_wrapping 100 with ⟨hnone, -⟩ | ⟨r, m1, hr, hrun, hchain, -⟩
  · rw [hhead] at hnone
    simp [firstFit] at hnone
  have h1 := h.alloc_some hr hchain
  rcases h1.alloc_spec Arith.exact_wrapping 50 with ⟨hnone, -⟩ | ⟨r2, m2, hr2, hrun2, -⟩
  · rw [hhead] at hr hnone
    simp [firstFit] at hr
    subst hr
    simp [firstFit] at hnone
  rw [hhead] at hr hr2
  simp [firstFit] at hr
  subst hr
  simp [firstFit] at hr2
  subst hr2
  exact ⟨_, (Relation.ReflTransGen.single (HeapStep.alloc hrun)).tail (HeapStep.alloc hrun2), rfl⟩

section Reachable

variable {fa : FrameAllocator} {pd : PageDirectory} {m : Mem} {numPages start : BitVec 32}
  {s : HeapState}

theorem Heap.Reaches.holds (hinit : Heap.Contiguous fa m numPages start)
    (hrun : Heap.Reaches fa pd m numPages s) :
    ∃ segs, Holds (Heap.init fa pd m numPages).1 segs s :=
  (Heap.init_holds pd hinit).run hrun

/-- In every state that a run reaches, the list from `head` tiles the region and nothing wraps. -/
theorem heap_tiles_region (hinit : Heap.Contiguous fa m numPages start)
    (hrun : Heap.Reaches fa pd m numPages s) :
    ∃ bs, (Heap.init fa pd m numPages).1.blockList s.mem = some bs ∧
      Tiles (Heap.init fa pd m numPages).1 bs ∧ NoWrap (Heap.init fa pd m numPages).1 s := by
  obtain ⟨segs, h⟩ := hrun.holds hinit
  exact ⟨_, h.blockList, h.tiles, h.noWrap⟩

theorem heap_tiles_region_small : ∃ s : HeapState, s.live = [(0x107C, 50), (0x100C, 100)] ∧
    ∃ bs, (Heap.init smallFa ⟨0x9C000⟩ smallMem 2).1.blockList s.mem = some bs ∧
      Tiles (Heap.init smallFa ⟨0x9C000⟩ smallMem 2).1 bs ∧
      NoWrap (Heap.init smallFa ⟨0x9C000⟩ smallMem 2).1 s := by
  obtain ⟨s, hrun, hlive⟩ := small_reaches
  exact ⟨s, hlive, heap_tiles_region small_contiguous hrun⟩

/-- In every state that a run reaches, live areas are isolated. -/
theorem heap_isolates_payloads (hinit : Heap.Contiguous fa m numPages start)
    (hrun : Heap.Reaches fa pd m numPages s) :
    ∃ bs, (Heap.init fa pd m numPages).1.blockList s.mem = some bs ∧
      Isolated (Heap.init fa pd m numPages).1 bs s := by
  obtain ⟨segs, h⟩ := hrun.holds hinit
  exact ⟨_, h.blockList, h.isolated⟩

theorem heap_isolates_payloads_small : ∃ s : HeapState, s.live = [(0x107C, 50), (0x100C, 100)] ∧
    ∃ bs, (Heap.init smallFa ⟨0x9C000⟩ smallMem 2).1.blockList s.mem = some bs ∧
      Isolated (Heap.init smallFa ⟨0x9C000⟩ smallMem 2).1 bs s := by
  obtain ⟨s, hrun, hlive⟩ := small_reaches
  exact ⟨s, hlive, heap_isolates_payloads small_contiguous hrun⟩

/-- In every state that a run reaches, frees of distinct live pointers give the same block list in
every order, and the initial one when they are all of them. -/
theorem heap_frees_commute (hinit : Heap.Contiguous fa m numPages start)
    (hrun : Heap.Reaches fa pd m numPages s) {ps qs : List (BitVec 32)} (hnodup : ps.Nodup)
    (hlive : ∀ p ∈ ps, p ∈ s.live.map Prod.fst) (hperm : ps.Perm qs) :
    let heap := (Heap.init fa pd m numPages).1
    ∃ m1 m2 bs, heap.freeAll s.mem ps = some m1 ∧ heap.freeAll s.mem qs = some m2 ∧
      heap.blockList m1 = some bs ∧ heap.blockList m2 = some bs ∧
      ((∀ p ∈ s.live.map Prod.fst, p ∈ ps) → bs = [⟨heap.head, heap.totalSize - 12, true, 0⟩]) := by
  intro heap
  obtain ⟨segs, h⟩ := hrun.holds hinit
  obtain ⟨m1, hrun1, h1⟩ := h.freeAll_spec hnodup hlive
  obtain ⟨m2, hrun2, h2⟩ := h.freeAll_spec (hperm.nodup_iff.mp hnodup)
    fun p hp => hlive p (hperm.mem_iff.mpr hp)
  rw [freeAll_perm (hperm.map fun p => p.toNat - 12)] at h1
  refine ⟨m1, m2, _, hrun1, hrun2, h1.blockList, h2.blockList, fun hall => h1.all_free ?_⟩
  refine List.filter_eq_nil_iff.mpr fun l hl => ?_
  simpa using hall l.1 (List.mem_map_of_mem hl)

theorem heap_frees_commute_small : ∃ s : HeapState, s.live = [(0x107C, 50), (0x100C, 100)] ∧
    ∃ m1 m2 bs, (Heap.init smallFa ⟨0x9C000⟩ smallMem 2).1.freeAll s.mem [0x100C, 0x107C] = some m1 ∧
      (Heap.init smallFa ⟨0x9C000⟩ smallMem 2).1.freeAll s.mem [0x107C, 0x100C] = some m2 ∧
      (Heap.init smallFa ⟨0x9C000⟩ smallMem 2).1.blockList m1 = some bs ∧
      (Heap.init smallFa ⟨0x9C000⟩ smallMem 2).1.blockList m2 = some bs := by
  obtain ⟨s, hrun, hlive⟩ := small_reaches
  have hnodup : ([0x100C, 0x107C] : List (BitVec 32)).Nodup := by decide
  obtain ⟨m1, m2, bs, h1, h2, h3, h4, -⟩ := heap_frees_commute small_contiguous hrun hnodup
    (by simp [hlive]) (List.Perm.swap _ _ _)
  exact ⟨s, hlive, m1, m2, bs, h1, h2, h3, h4⟩

end Reachable

end Sapphire
