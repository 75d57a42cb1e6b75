import Sapphire.Heap.Blocks

/-! Freeing a pointer again.  The header of a freed block stays in memory with its flag set, as the
header of a free block or inside the usable area of one that has absorbed it, until `alloc` takes the
memory.  A second `free` therefore stores what is there already, and finds nothing to coalesce. -/

namespace Sapphire

open Machine Segments BlockHeader

/-- A step without `alloc`: a free of null or a live pointer, or a write by a client. -/
inductive FreeStep (heap : Heap) : HeapState → HeapState → Prop
  | free {s : HeapState} {p : BitVec 32} {m : Mem} (hp : p = 0 ∨ p ∈ s.live.map Prod.fst)
      (h : heap.free s.mem p = some m) : FreeStep heap s ⟨m, s.live.filter fun l => l.1 ≠ p⟩
  | write {s : HeapState} {p n x : BitVec 32} (v : BitVec 8) (hp : (p, n) ∈ s.live)
      (hx : x ∈ span p n.toNat) : FreeStep heap s ⟨s.mem.store8 x v, s.live⟩

section

variable {ar : Arith} {m : Mem}

/-- The inner loop of `free` does nothing in a list that is coalesced. -/
theorem mergeNext_apart {a fuel : Nat} {s : Seg} {rest : List Seg} (hchain : Chain m a (s :: rest))
    (hapart : Apart (s :: rest)) :
    Heap.mergeNext ar (fuel + 1) (BitVec.ofNat 32 a) m = some m := by
  rw [Heap.mergeNext]
  refine if_neg ?_
  simp only [hchain.1.free, hchain.1.next, Bool.and_eq_true, decide_eq_true_eq]
  rintro ⟨⟨hs, hne⟩, hnext⟩
  cases rest with
  | nil => exact hne rfl
  | cons t rest =>
    rw [link_cons, hchain.2.1.free] at hnext
    exact (List.isChain_cons_cons.mp hapart).1 ⟨hs, hnext⟩

theorem mergeWalk_apart {a fuel : Nat} {segs : List Seg} (hchain : Chain m a segs)
    (hapart : Apart segs) (hlow : 0 < a) (hend : a + extent 12 segs ≤ 2 ^ 32)
    (hfuel : segs.length < fuel) : Heap.mergeWalk ar fuel (link a segs) m = some m := by
  induction segs generalizing a fuel with
  | nil =>
    obtain ⟨fuel, rfl⟩ : ∃ f, fuel = f + 1 := ⟨fuel - 1, by simp at hfuel; omega⟩
    rfl
  | cons s rest ih =>
    obtain ⟨fuel, rfl⟩ : ∃ f, fuel = f + 1 := ⟨fuel - 1, by simp at hfuel; omega⟩
    simp only [extent] at hend
    simp only [List.length_cons] at hfuel
    have hne : BitVec.ofNat 32 a ≠ 0 := by bv_omega
    have hinner : Heap.mergeNext ar (2 ^ 32) (BitVec.ofNat 32 a) m = some m :=
      mergeNext_apart hchain hapart
    simp only [Heap.mergeWalk, link_cons, hne, if_false, hinner, Option.bind_eq_bind,
      Option.bind_some, hchain.1.next]
    exact ih hchain.2 (List.isChain_cons.mp hapart).2 (by omega) (by omega) (by omega)

end

/-- The header at `b` is one that was freed: its flag is still set, and it is that of a free block or
inside one. -/
structure Released (heap : Heap) (b : Nat) (segs : List Seg) (s : HeapState) : Prop where
  holds : Holds heap segs s
  fits : b + 12 < 2 ^ 32
  inFree : InFree 12 heap.head.toNat b segs
  flag : s.mem (BitVec.ofNat 32 (b + 4)) = 1

section

variable {heap : Heap} {segs : List Seg} {s : HeapState} {b : Nat}

/-- Coalescing does not write the flag of a header, nor anything inside a usable area. -/
theorem Holds.flag_not_mem_links (h : Holds heap segs s) {z : Nat × Seg}
    (hz : z ∈ place 12 heap.head.toNat segs)
    (hb : z.1 = b ∨ z.1 + 12 ≤ b ∧ b ≤ z.1 + z.2.size) :
    BitVec.ofNat 32 (b + 4) ∉ links heap.head.toNat segs := by
  have hbounds := h.bounds hz
  have hfits := h.fits
  have haddr : (BitVec.ofNat 32 (b + 4)).toNat = b + 4 := by
    rw [BitVec.toNat_ofNat, Nat.mod_eq_of_lt (by omega)]
  rintro ⟨y, hy, hflag⟩
  rw [haddr] at hflag
  rcases place_disjoint hy hz with rfl | hd | hd <;> omega

/-- After a free the flag is set of the header that was freed, and of every header that had it
set. -/
theorem Holds.free_flag (h : Holds heap segs s) {x z : Nat × Seg} {m' : Mem}
    (hc : ChangesOnly (links heap.head.toNat segs) (setFree s.mem (BitVec.ofNat 32 x.1) true) m')
    (hz : z ∈ place 12 heap.head.toNat segs)
    (hb : z.1 = b ∨ z.1 + 12 ≤ b ∧ b ≤ z.1 + z.2.size)
    (hflag : b = x.1 ∨ s.mem (BitVec.ofNat 32 (b + 4)) = 1) :
    m' (BitVec.ofNat 32 (b + 4)) = 1 := by
  rw [hc _ (h.flag_not_mem_links hz hb), BlockHeader.setFree, Mem.store8]
  by_cases haddr : BitVec.ofNat 32 (b + 4) = BitVec.ofNat 32 x.1 + 4
  · exact if_pos haddr
  · rw [if_neg haddr]
    rcases hflag with rfl | hflag
    · exact absurd (BitVec.ofNat_add _ _) haddr
    · exact hflag

/-- A free leaves a released header. -/
theorem Holds.free_released (h : Holds heap segs s) {x : Nat × Seg} {m' : Mem}
    (hx : x ∈ used 12 heap.head.toNat segs)
    (hchain : Chain m' heap.head.toNat (coalesce 12 (freeAt 12 x.1 heap.head.toNat segs)))
    (hc : ChangesOnly (links heap.head.toNat segs) (setFree s.mem (BitVec.ofNat 32 x.1) true) m') :
    Released heap x.1 (coalesce 12 (freeAt 12 x.1 heap.head.toNat segs))
      ⟨m', s.live.filter fun l => l.1 ≠ payload x⟩ := by
  have hplace := (mem_used.mp hx).1
  exact ⟨h.free_used hx hchain, (h.bounds hplace).2.1,
    inFree_coalesce (inFree_freeAt_self (List.mem_map_of_mem hplace)),
    h.free_flag hc hplace (Or.inl rfl) (Or.inl rfl)⟩

namespace Released

/-- A released header is outside every area of a client. -/
theorem not_mem_area (h : Released heap b segs s) {p n : BitVec 32} (hp : (p, n) ∈ s.live) :
    BitVec.ofNat 32 (b + 4) ∉ span p n.toNat := by
  obtain ⟨z, hz, hzfree, hzb⟩ := h.inFree
  obtain ⟨x, hx, hpx, hroom⟩ := h.holds.room _ hp
  obtain ⟨hxp, hxused⟩ := mem_used.mp hx
  have hbounds := h.holds.bounds hz
  have hfits := h.holds.fits
  have haddr : (BitVec.ofNat 32 (b + 4)).toNat = b + 4 := by
    rw [BitVec.toNat_ofNat, Nat.mod_eq_of_lt (by omega)]
  simp only at hpx hroom
  rw [← hpx, h.holds.mem_area hxp hroom, haddr]
  rcases place_disjoint hxp hz with rfl | hd | hd
  · rw [hxused] at hzfree
    cases hzfree
  · omega
  · omega

theorem step (h : Released heap b segs s) {s' : HeapState} (hstep : FreeStep heap s s') :
    ∃ segs', Released heap b segs' s' := by
  cases hstep with
  | @free p m hp hrun =>
    rcases h.holds.free_inv hp hrun with ⟨rfl, rfl⟩ | ⟨x, hx, rfl, hchain, hc⟩
    · rw [h.holds.free_null]
      exact ⟨segs, h⟩
    · obtain ⟨z, hz, -, hzb⟩ := h.inFree
      exact ⟨_, h.holds.free_used hx hchain, h.fits, inFree_coalesce (inFree_freeAt x.1 h.inFree),
        h.holds.free_flag hc hz hzb (Or.inr h.flag)⟩
  | write v hp hx =>
    refine ⟨segs, h.holds.write_live v hp hx, h.fits, h.inFree, Eq.trans (if_neg ?_) h.flag⟩
    rintro rfl
    exact h.not_mem_area hp hx

theorem run (h : Released heap b segs s) {s' : HeapState}
    (hrun : Relation.ReflTransGen (FreeStep heap) s s') : ∃ segs', Released heap b segs' s' := by
  induction hrun with
  | refl => exact ⟨segs, h⟩
  | tail _ hstep ih =>
    obtain ⟨segs', h'⟩ := ih
    exact h'.step hstep

/-- A free through a released header changes nothing. -/
theorem free_eq (h : Released heap b segs s) :
    heap.free s.mem (BitVec.ofNat 32 (b + 12)) = some s.mem := by
  have hroom := h.fits
  have hfits := h.holds.fits
  have hlow := h.holds.low
  have hne : BitVec.ofNat 32 (b + 12) ≠ 0 := by bv_omega
  have hblock : Arith.wrapping.sub (BitVec.ofNat 32 (b + 12)) BlockHeader.bytes =
      some (BitVec.ofNat 32 b) := Arith.exact_wrapping.sub_eq (by bv_omega)
  have hmark : setFree s.mem (BitVec.ofNat 32 b) true = s.mem := by
    funext x
    rw [BlockHeader.setFree, Mem.store8]
    by_cases hx : x = BitVec.ofNat 32 b + 4
    · have hflag := h.flag
      rw [BitVec.ofNat_add] at hflag
      rw [if_pos hx, hx]
      exact hflag.symm
    · exact if_neg hx
  have hwalk := @mergeWalk_apart Arith.wrapping _ _ (2 ^ 32) _ h.holds.chain h.holds.apart (by omega)
    (by rw [h.holds.extent]; exact hfits) h.holds.length_lt
  rw [h.holds.link_head] at hwalk
  simp only [Heap.free, Heap.freeWith, hne, if_false, hblock, Option.bind_eq_bind, Option.bind_some,
    hmark]
  exact hwalk

end Released

end

section

variable {fa : FrameAllocator} {pd : PageDirectory} {m : Mem} {numPages start : BitVec 32}
  {s : HeapState}

/-- In every state that a run reaches, a live pointer that is freed can be freed again, whatever frees
of live pointers and writes by clients come between: the second free changes no byte. -/
theorem heap_free_again (hinit : Heap.Contiguous fa m numPages start)
    (hrun : Heap.Reaches fa pd m numPages s) {p : BitVec 32} (hp : p ∈ s.live.map Prod.fst) :
    let heap := (Heap.init fa pd m numPages).1
    ∃ m1, heap.free s.mem p = some m1 ∧
      ∀ s', Relation.ReflTransGen (FreeStep heap) ⟨m1, s.live.filter fun l => l.1 ≠ p⟩ s' →
        heap.free s'.mem p = some s'.mem := by
  intro heap
  obtain ⟨segs, h⟩ := hrun.holds hinit
  obtain ⟨x, hx, rfl⟩ := h.live_used.mp hp
  obtain ⟨m1, hfree, hchain, hc⟩ := h.free_spec Arith.exact_wrapping hx
  refine ⟨m1, hfree, fun s' hrun' => ?_⟩
  obtain ⟨segs', h'⟩ := (h.free_released hx hchain hc).run hrun'
  exact h'.free_eq

/-- The second of two neighbours, freed again after the first has absorbed it. -/
theorem heap_free_again_absorbed : ∃ s m1 s',
    Heap.Reaches smallFa ⟨0x9C000⟩ smallMem 2 s ∧ s.live = [(0x107C, 50), (0x100C, 100)] ∧
    (Heap.init smallFa ⟨0x9C000⟩ smallMem 2).1.free s.mem 0x107C = some m1 ∧
    FreeStep (Heap.init smallFa ⟨0x9C000⟩ smallMem 2).1 ⟨m1, [(0x100C, 100)]⟩ s' ∧
    (Heap.init smallFa ⟨0x9C000⟩ smallMem 2).1.free s'.mem 0x107C = some s'.mem := by
  obtain ⟨s, hrun, hlive⟩ := small_reaches
  obtain ⟨m1, hfree, hagain⟩ := heap_free_again small_contiguous hrun
    (show 0x107C ∈ s.live.map Prod.fst by rw [hlive]; decide)
  rw [hlive] at hagain
  have hstep : HeapStep (Heap.init smallFa ⟨0x9C000⟩ smallMem 2).1 s ⟨m1, [(0x100C, 100)]⟩ := by
    have := HeapStep.free (Or.inr (show 0x107C ∈ s.live.map Prod.fst by rw [hlive]; decide)) hfree
    rwa [hlive] at this
  obtain ⟨segs, h⟩ := Heap.Reaches.holds small_contiguous (hrun.tail hstep)
  obtain ⟨m2, hfree2, -⟩ := h.noWrap.free 0x100C (Or.inr List.mem_cons_self)
  have hnext := FreeStep.free (Or.inr List.mem_cons_self) hfree2
  exact ⟨s, m1, _, hrun, hlive, hfree, hnext, hagain _ (.single hnext)⟩

end

end Sapphire
