import Sapphire.Heap.Represent
import Mathlib.Logic.Relation

/-! Runs of the heap: calls of `alloc` with any size, calls of `free` with null or a live pointer, and
writes by the clients inside the areas that they asked for.  `Holds heap segs s` relates a state to
the list of segments that its memory represents; every step keeps it. -/

namespace Sapphire

open Machine Segments BlockHeader

/-- The memory and the live allocations, each with its pointer and the size that was asked for. -/
structure HeapState where
  mem : Mem
  live : List (BitVec 32 × BitVec 32)

inductive HeapStep (heap : Heap) : HeapState → HeapState → Prop
  | alloc {s : HeapState} {n p : BitVec 32} {m : Mem} (h : heap.alloc s.mem n = some (m, p)) :
      HeapStep heap s ⟨m, if p = 0 then s.live else (p, n) :: s.live⟩
  | free {s : HeapState} {p : BitVec 32} {m : Mem} (hp : p = 0 ∨ p ∈ s.live.map Prod.fst)
      (h : heap.free s.mem p = some m) : HeapStep heap s ⟨m, s.live.filter fun l => l.1 ≠ p⟩
  | write {s : HeapState} {p n x : BitVec 32} (v : BitVec 8) (hp : (p, n) ∈ s.live)
      (hx : x ∈ span p n.toNat) : HeapStep heap s ⟨s.mem.store8 x v, s.live⟩

/-- The pointer to the usable area of the block at `x.1`. -/
def payload (x : Nat × Seg) : BitVec 32 := BitVec.ofNat 32 (x.1 + 12)

/-- The state represents the segments: the headers in memory are theirs, they fill the heap's region
exactly and are coalesced, and those in use are the live allocations. -/
structure Holds (heap : Heap) (segs : List Seg) (s : HeapState) : Prop where
  low : 16 < heap.head.toNat
  fits : heap.head.toNat + heap.totalSize.toNat ≤ 2 ^ 32
  nonempty : segs ≠ []
  extent : extent 12 segs = heap.totalSize.toNat
  chain : Chain s.mem heap.head.toNat segs
  apart : Apart segs
  last : LastPos segs
  live : (s.live.map Prod.fst).Perm ((used 12 heap.head.toNat segs).map payload)
  room : ∀ l ∈ s.live, ∃ x ∈ used 12 heap.head.toNat segs, payload x = l.1 ∧ l.2.toNat ≤ x.2.size

namespace Holds

variable {heap : Heap} {segs : List Seg} {s : HeapState}

theorem link_head (h : Holds heap segs s) : link heap.head.toNat segs = heap.head := by
  simp [link, h.nonempty]

theorem length_lt (h : Holds heap segs s) : segs.length < 2 ^ 32 := by
  have h1 := mul_length_le_extent 12 segs
  have h2 := h.extent
  have h3 := h.fits
  have h4 := h.low
  omega

theorem bounds (h : Holds heap segs s) {x : Nat × Seg} (hx : x ∈ place 12 heap.head.toNat segs) :
    heap.head.toNat ≤ x.1 ∧ x.1 + 12 < 2 ^ 32 ∧
      x.1 + 12 + x.2.size ≤ heap.head.toNat + heap.totalSize.toNat := by
  have h1 := place_bounds hx
  have h2 := h.last.payload_lt (by decide) hx
  have h3 := h.fits
  rw [h.extent] at h1 h2
  omega

theorem payload_toNat (h : Holds heap segs s) {x : Nat × Seg}
    (hx : x ∈ place 12 heap.head.toNat segs) : (payload x).toNat = x.1 + 12 := by
  have := h.bounds hx
  rw [payload, BitVec.toNat_ofNat, Nat.mod_eq_of_lt this.2.1]

theorem payload_inj (h : Holds heap segs s) {x y : Nat × Seg}
    (hx : x ∈ place 12 heap.head.toNat segs) (hy : y ∈ place 12 heap.head.toNat segs) :
    payload x = payload y ↔ x.1 = y.1 := by
  rw [← BitVec.toNat_inj, h.payload_toNat hx, h.payload_toNat hy]
  omega

theorem payload_ne_zero (h : Holds heap segs s) {x : Nat × Seg}
    (hx : x ∈ place 12 heap.head.toNat segs) : payload x ≠ 0 := by
  intro hzero
  have := h.payload_toNat hx
  rw [hzero] at this
  simp at this

/-- A live pointer is that of a block in use. -/
theorem live_used (h : Holds heap segs s) {p : BitVec 32} :
    p ∈ s.live.map Prod.fst ↔ ∃ x ∈ used 12 heap.head.toNat segs, payload x = p := by
  rw [h.live.mem_iff, List.mem_map]

/-- The area that a client asked for, by the values of its addresses. -/
theorem mem_area (h : Holds heap segs s) {x : Nat × Seg} {n : Nat} {y : BitVec 32}
    (hx : x ∈ place 12 heap.head.toNat segs) (hn : n ≤ x.2.size) :
    y ∈ span (payload x) n ↔ x.1 + 12 ≤ y.toNat ∧ y.toNat < x.1 + 12 + n := by
  have h1 := h.bounds hx
  have h2 := h.payload_toNat hx
  have h3 := h.fits
  rw [mem_span_iff (by omega), h2]

/-- A usable area overlaps no header. -/
theorem area_not_header (h : Holds heap segs s) {x : Nat × Seg} {n : Nat} {y : BitVec 32}
    (hx : x ∈ place 12 heap.head.toNat segs) (hn : n ≤ x.2.size) (hy : y ∈ span (payload x) n) :
    y ∉ headers heap.head.toNat segs := by
  rintro ⟨z, hz, hlo, hhi⟩
  rw [h.mem_area hx hn] at hy
  rcases place_disjoint hx hz with rfl | hd | hd <;> omega

/-! ### Steps -/

/-- What `alloc` does: nothing when no free segment is large enough, and otherwise first fit, with
changes only inside the free segment that it takes. -/
theorem alloc_spec {ar : Arith} (har : ar.Exact) (h : Holds heap segs s) (n : BitVec 32) :
    (firstFit 12 16 n.toNat heap.head.toNat segs = none ∧
      Heap.allocWith ar heap s.mem n = some (s.mem, 0)) ∨
    ∃ r m', firstFit 12 16 n.toNat heap.head.toNat segs = some r ∧
      Heap.allocWith ar heap s.mem n = some (m', BitVec.ofNat 32 (r.1 + 12)) ∧
      Chain m' heap.head.toNat r.2 ∧
      ∃ t, (r.1, t) ∈ place 12 heap.head.toNat segs ∧ t.free = true ∧
        ChangesOnly (span (BitVec.ofNat 32 r.1) (12 + t.size)) s.mem m' := by
  have hfit := h.fits
  have hspec := allocWalk_spec (n := n) har h.chain h.last h.low
    (by rw [h.extent]; exact hfit) h.length_lt
  rw [h.link_head] at hspec
  cases hr : firstFit 12 16 n.toNat heap.head.toNat segs with
  | none => exact Or.inl ⟨rfl, hspec.1 hr⟩
  | some r =>
    obtain ⟨m', hrun, hchain, t, ht⟩ := hspec.2 r hr
    exact Or.inr ⟨r, m', rfl, hrun, hchain, t, ht⟩

/-- What `free` does with the pointer of a block in use: it marks the block free and coalesces, which
changes only sizes and links. -/
theorem free_spec {ar : Arith} (har : ar.Exact) (h : Holds heap segs s) {x : Nat × Seg}
    (hx : x ∈ used 12 heap.head.toNat segs) :
    ∃ m', Heap.freeWith ar heap s.mem (payload x) = some m' ∧
      Chain m' heap.head.toNat (coalesce 12 (freeAt 12 x.1 heap.head.toNat segs)) ∧
      ChangesOnly (links heap.head.toNat segs) (setFree s.mem (BitVec.ofNat 32 x.1) true) m' := by
  have hplace := (mem_used.mp hx).1
  have hb := h.bounds hplace
  have hlow := h.low
  have hfit := h.fits
  have hsub : ar.sub (payload x) BlockHeader.bytes = some (BitVec.ofNat 32 x.1) := by
    have hval := h.payload_toNat hplace
    exact har.sub_eq (by rw [hval]; bv_omega)
  have hchain := h.chain.setFree (List.mem_map_of_mem hplace) (by rw [h.extent]; exact hfit)
  have hlength : (freeAt 12 x.1 heap.head.toNat segs).length < 2 ^ 32 := by
    rw [freeAt_length]
    exact h.length_lt
  obtain ⟨m', hrun, hchain', hc⟩ := mergeWalk_spec har hchain (by omega)
    (by rw [extent_freeAt, h.extent]; exact hfit) hlength
  have hlink : link heap.head.toNat (freeAt 12 x.1 heap.head.toNat segs) = heap.head := by
    simp [link, freeAt_ne_nil h.nonempty]
  rw [hlink] at hrun
  rw [links_freeAt] at hc
  refine ⟨m', ?_, hchain', hc⟩
  simp only [Heap.freeWith, h.payload_ne_zero hplace, if_false, hsub, Option.bind_eq_bind,
    Option.bind_some]
  exact hrun

/-- What a call of `alloc` that returns has done. -/
theorem alloc_inv (h : Holds heap segs s) {n p : BitVec 32} {m' : Mem}
    (hrun : heap.alloc s.mem n = some (m', p)) : (p = 0 ∧ m' = s.mem) ∨
    ∃ r, firstFit 12 16 n.toNat heap.head.toNat segs = some r ∧ p = BitVec.ofNat 32 (r.1 + 12) ∧
      p ≠ 0 ∧ Chain m' heap.head.toNat r.2 ∧
      ∃ t, (r.1, t) ∈ place 12 heap.head.toNat segs ∧ t.free = true ∧
        ChangesOnly (span (BitVec.ofNat 32 r.1) (12 + t.size)) s.mem m' := by
  rw [Heap.alloc] at hrun
  rcases h.alloc_spec Arith.exact_wrapping n with ⟨-, hnone⟩ | ⟨r, m1, hr, hsome, hchain, t, ht, hc⟩
  · rw [hrun] at hnone
    cases hnone
    exact Or.inl ⟨rfl, rfl⟩
  · rw [hrun] at hsome
    cases hsome
    exact Or.inr ⟨r, hr, rfl, h.payload_ne_zero ht, hchain, t, ht, hc⟩

/-- It changes only headers. -/
theorem free_changes (h : Holds heap segs s) {x : Nat × Seg} {m' : Mem}
    (hx : x ∈ place 12 heap.head.toNat segs)
    (hc : ChangesOnly (links heap.head.toNat segs) (setFree s.mem (BitVec.ofNat 32 x.1) true) m') :
    ChangesOnly (headers heap.head.toNat segs) s.mem m' := by
  have hb := h.bounds hx
  refine (setFree_header.mono fun y hy => ?_).trans (hc.mono (links_subset _ _))
  rw [mem_span_ofNat (by omega) (by omega)] at hy
  exact ⟨x, hx, hy⟩

/-- What a call of `free` with null or a live pointer has done. -/
theorem free_inv (h : Holds heap segs s) {p : BitVec 32} {m' : Mem}
    (hp : p = 0 ∨ p ∈ s.live.map Prod.fst) (hrun : heap.free s.mem p = some m') :
    (p = 0 ∧ m' = s.mem) ∨
    ∃ x ∈ used 12 heap.head.toNat segs, payload x = p ∧
      Chain m' heap.head.toNat (coalesce 12 (freeAt 12 x.1 heap.head.toNat segs)) ∧
      ChangesOnly (links heap.head.toNat segs) (setFree s.mem (BitVec.ofNat 32 x.1) true) m' := by
  rw [Heap.free] at hrun
  rcases hp with rfl | hp
  · simp only [Heap.freeWith, if_true, Option.some.injEq] at hrun
    exact Or.inl ⟨rfl, hrun.symm⟩
  · obtain ⟨x, hx, rfl⟩ := h.live_used.mp hp
    obtain ⟨m1, hrun', hchain, hc⟩ := h.free_spec Arith.exact_wrapping hx
    rw [hrun] at hrun'
    cases hrun'
    exact Or.inr ⟨x, hx, rfl, hchain, hc⟩

theorem alloc_some (h : Holds heap segs s) {n : BitVec 32} {r : Nat × List Seg} {m' : Mem}
    (hr : firstFit 12 16 n.toNat heap.head.toNat segs = some r)
    (hchain : Chain m' heap.head.toNat r.2) :
    Holds heap r.2 ⟨m', (BitVec.ofNat 32 (r.1 + 12), n) :: s.live⟩ := by
  obtain ⟨c, hc, -, hperm⟩ := used_firstFit hr
  refine ⟨h.low, h.fits, firstFit_ne_nil hr, by rw [extent_firstFit hr, h.extent], hchain,
    apart_firstFit h.apart hr, lastPos_firstFit (by decide) h.last hr, ?_, ?_⟩
  · exact (h.live.cons _).trans (hperm.symm.map payload)
  · intro l hl
    rcases List.mem_cons.mp hl with rfl | hl
    · exact ⟨(r.1, ⟨c, false⟩), hperm.symm.subset (by simp), rfl, hc⟩
    · obtain ⟨x, hx, hpay, hroom⟩ := h.room l hl
      exact ⟨x, hperm.symm.subset (List.mem_cons_of_mem _ hx), hpay, hroom⟩

theorem free_used (h : Holds heap segs s) {x : Nat × Seg} {m' : Mem}
    (hx : x ∈ used 12 heap.head.toNat segs)
    (hchain : Chain m' heap.head.toNat (coalesce 12 (freeAt 12 x.1 heap.head.toNat segs))) :
    Holds heap (coalesce 12 (freeAt 12 x.1 heap.head.toNat segs))
      ⟨m', s.live.filter fun l => l.1 ≠ payload x⟩ := by
  have hxp := (mem_used.mp hx).1
  have hused : used 12 heap.head.toNat (coalesce 12 (freeAt 12 x.1 heap.head.toNat segs)) =
      (used 12 heap.head.toNat segs).filter fun y => y.1 ≠ x.1 := by
    rw [used_coalesce, used_freeAt]
  refine ⟨h.low, h.fits, coalesce_ne_nil (freeAt_ne_nil h.nonempty),
    by rw [extent_coalesce, extent_freeAt, h.extent], hchain, apart_coalesce _,
    lastPos_coalesce (lastPos_freeAt h.last), ?_, ?_⟩
  · have hfilter := h.live.filter fun q => q ≠ payload x
    rw [List.filter_map, List.filter_map] at hfilter
    have hsame : (used 12 heap.head.toNat segs).filter (fun y => y.1 ≠ x.1) =
        (used 12 heap.head.toNat segs).filter ((fun q => decide (q ≠ payload x)) ∘ payload) := by
      refine List.filter_congr fun y hy => ?_
      simp only [Function.comp_apply, ne_eq, h.payload_inj (mem_used.mp hy).1 hxp]
    rw [hused, hsame]
    exact hfilter
  · intro l hl
    obtain ⟨hl, hne⟩ := List.mem_filter.mp hl
    obtain ⟨y, hy, hpay, hroom⟩ := h.room l hl
    refine ⟨y, ?_, hpay, hroom⟩
    rw [hused]
    refine List.mem_filter.mpr ⟨hy, ?_⟩
    simp only [decide_eq_true_eq, ← hpay, ne_eq, h.payload_inj (mem_used.mp hy).1 hxp] at hne ⊢
    exact hne

theorem free_null (h : Holds heap segs s) : (s.live.filter fun l => l.1 ≠ 0) = s.live := by
  refine List.filter_eq_self.mpr fun l hl => ?_
  obtain ⟨x, hx, hpay⟩ := h.live_used.mp (List.mem_map_of_mem hl)
  rw [← hpay]
  exact decide_eq_true (h.payload_ne_zero (mem_used.mp hx).1)

/-- A state represents the same segments when no byte of a header has changed. -/
theorem congr (h : Holds heap segs s) {m' : Mem}
    (hm : ∀ x ∈ headers heap.head.toNat segs, m' x = s.mem x) : Holds heap segs ⟨m', s.live⟩ :=
  ⟨h.low, h.fits, h.nonempty, h.extent, h.chain.congr (by rw [h.extent]; exact h.fits) hm, h.apart,
    h.last, h.live, h.room⟩

/-- Writes into an area that a client asked for change no header. -/
theorem writes_live (h : Holds heap segs s) {p n : BitVec 32} {m' : Mem} (hp : (p, n) ∈ s.live)
    (hc : ChangesOnly (span p n.toNat) s.mem m') : Holds heap segs ⟨m', s.live⟩ := by
  obtain ⟨y, hy, hpay, hroom⟩ := h.room _ hp
  subst hpay
  refine h.congr fun z hz => hc z fun hzp => ?_
  exact h.area_not_header (mem_used.mp hy).1 hroom hzp hz

theorem write_live (h : Holds heap segs s) {p n x : BitVec 32} (v : BitVec 8)
    (hp : (p, n) ∈ s.live) (hx : x ∈ span p n.toNat) :
    Holds heap segs ⟨s.mem.store8 x v, s.live⟩ := by
  refine h.writes_live hp ((Mem.changesOnly_store8 _ _ _).mono fun z hz => ?_)
  have hzx : z = x := by
    simp only [mem_span] at hz
    bv_omega
  rwa [hzx]

/-- Every step keeps a state that represents a list of segments. -/
theorem step (h : Holds heap segs s) {s' : HeapState} (hstep : HeapStep heap s s') :
    ∃ segs', Holds heap segs' s' := by
  cases hstep with
  | @alloc n p m hrun =>
    rcases h.alloc_inv hrun with ⟨rfl, rfl⟩ | ⟨r, hr, rfl, hne, hchain, -⟩
    · exact ⟨segs, h⟩
    · rw [if_neg hne]
      exact ⟨r.2, h.alloc_some hr hchain⟩
  | @free p m hp hrun =>
    rcases h.free_inv hp hrun with ⟨rfl, rfl⟩ | ⟨x, hx, rfl, hchain, -⟩
    · rw [h.free_null]
      exact ⟨segs, h⟩
    · exact ⟨_, h.free_used hx hchain⟩
  | write v hp hx => exact ⟨segs, h.write_live v hp hx⟩

theorem run (h : Holds heap segs s) {s' : HeapState}
    (hrun : Relation.ReflTransGen (HeapStep heap) s s') : ∃ segs', Holds heap segs' s' := by
  induction hrun with
  | refl => exact ⟨segs, h⟩
  | tail _ hstep ih =>
    obtain ⟨segs', h'⟩ := ih
    exact h'.step hstep

end Holds

end Sapphire
