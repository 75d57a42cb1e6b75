import Sapphire.Paging.Tables

/-! The processor's two-level walk over a page directory, and what it computes: a flat partial map of
pages to frames.  `PagingOp` is a call of one of the three functions that change the page tables;
`FlatMap.apply` says what the call does to the flat map, and `Refines` relates the memory to the
map.  Every call keeps it. -/

namespace Sapphire

open Machine

namespace PageDirectory

/-- The physical address that the processor finds for `virt`, if both entries are present. -/
def walk (pd : PageDirectory) (m : Mem) (virt : BitVec 32) : Option (BitVec 32) :=
  let pdeIdx := virt >>> 22
  let pteIdx := (virt >>> 12) &&& 0x3FF#32
  let pde := m.load32 (pd.entries + 4 * pdeIdx)
  if present pde then
    let pte := m.load32 (pageDown pde + 4 * pteIdx)
    if present pte then some (pageDown pte + (virt &&& 0xFFF#32)) else none
  else none

/-- The frame of page `p`, if its entry is present. -/
def frame (pd : PageDirectory) (m : Mem) (p : Nat) : Option Nat :=
  if present (pd.pte m p) then some ((pageDown (pd.pte m p)).toNat / 4096) else none

variable {pd : PageDirectory} {m m' : Mem}

theorem frame_of_mapped {p f : Nat} (hf : f < 2 ^ 20)
    (h : pd.pte m p = mapped (BitVec.ofNat 32 (4096 * f))) : pd.frame m p = some f := by
  have hnum := toNat_mul_pageSize hf
  rw [frame, h, if_pos (present_mapped _), pageDown_mapped (by omega), page_mul_pageSize hf]

theorem frame_of_zero {p : Nat} (h : pd.pte m p = 0) : pd.frame m p = none := by
  rw [frame, h]
  rfl

theorem frame_lt {p f : Nat} (h : pd.frame m p = some f) : f < 2 ^ 20 := by
  rw [frame] at h
  split at h
  · rw [Option.some_inj] at h
    have := (pageDown (pd.pte m p)).isLt
    omega
  · cases h

theorem frame_congr {p : Nat} (h : pd.pte m' p = pd.pte m p) : pd.frame m' p = pd.frame m p := by
  rw [frame, h, frame]

/-- On a wired directory the walk goes through the entry of the address's page. -/
theorem Wired.walk_eq (h : pd.Wired m) (virt : BitVec 32) :
    pd.walk m virt = (pd.frame m (virt.toNat / 4096)).map
      fun f => BitVec.ofNat 32 (4096 * f + virt.toNat % 4096) := by
  have hv := virt.isLt
  have hpde := pdeIdx_eq virt
  set pde := m.load32 (slot pd.entries (virt.toNat / 2 ^ 22)) with hword
  have hpresent : present pde = true := by
    rw [hword, h.entry _ (by omega)]
    exact present_mapped _
  have haddr : pd.pteAddr m virt = pd.pteAddr m (BitVec.ofNat 32 (4096 * (virt.toNat / 4096))) := by
    rw [h.pteAddr_eq, h.pteAddr_eq, page_mul_pageSize (by omega)]
  set pteIdx := (virt >>> 12) &&& 0x3FF#32 with hidx
  have hpte : m.load32 (pageDown pde + 4 * pteIdx) = pd.pte m (virt.toNat / 4096) := by
    rw [pte, ← haddr, pteAddr, hpde]
    rfl
  have hoffset : (virt &&& 0xFFF#32).toNat = virt.toNat % 4096 := by
    rw [BitVec.toNat_and]
    exact Nat.and_two_pow_sub_one_eq_mod _ 12
  rw [slot, ← hpde] at hword
  simp only [walk, ← hword, hpresent, if_true, ← hidx, hpte, frame]
  split
  · rw [Option.map_some, Option.some_inj]
    have hdown := pageDown_toNat (pd.pte m (virt.toNat / 4096))
    apply BitVec.eq_of_toNat_eq
    rw [BitVec.toNat_add, hoffset, BitVec.toNat_ofNat, hdown]
    omega
  · rfl

/-- An address in a page that is mapped to itself translates to itself. -/
theorem Wired.walk_self (h : pd.Wired m) {virt : BitVec 32}
    (hf : pd.frame m (virt.toNat / 4096) = some (virt.toNat / 4096)) :
    pd.walk m virt = some virt := by
  rw [h.walk_eq, hf, Option.map_some, Nat.div_add_mod, BitVec.ofNat_toNat, BitVec.setWidth_eq]

end PageDirectory

/-! ### The flat map -/

/-- A partial map of pages to frames. -/
abbrev FlatMap := Nat → Option Nat

/-- The number of pages that `size` bytes from a page boundary on touch. -/
def pageCount (size : BitVec 32) : Nat := (size.toNat + 4095) / 4096

inductive PagingOp
  | identityMapRange (start stop : BitVec 32)
  | mapRange (virtStart physStart size : BitVec 32)
  | unmapRange (virtStart size : BitVec 32)

namespace PagingOp

def apply (pd : PageDirectory) (m : Mem) : PagingOp → Mem
  | identityMapRange start stop => pd.identityMapRange m start stop
  | mapRange virtStart physStart size => pd.mapRange m virtStart physStart size
  | unmapRange virtStart size => pd.unmapRange m virtStart size

/-- The range of the call, rounded to pages, ends at most at `0xFFFFF000`. -/
def InRange : PagingOp → Prop
  | identityMapRange _ stop => pageCount stop ≤ 0xFFFFF
  | mapRange virtStart _ size => virtStart.toNat / 4096 + pageCount size ≤ 0xFFFFF
  | unmapRange virtStart size => virtStart.toNat / 4096 + pageCount size ≤ 0xFFFFF

end PagingOp

/-- What a call does to the flat map. -/
def FlatMap.apply (T : FlatMap) : PagingOp → FlatMap
  | .identityMapRange start stop => fun k =>
      if start.toNat / 4096 ≤ k ∧ k < pageCount stop then some k else T k
  | .mapRange virtStart physStart size => fun k =>
      if virtStart.toNat / 4096 ≤ k ∧ k < virtStart.toNat / 4096 + pageCount size then
        some ((physStart.toNat / 4096 + (k - virtStart.toNat / 4096)) % 2 ^ 20)
      else T k
  | .unmapRange virtStart size => fun k =>
      if virtStart.toNat / 4096 ≤ k ∧ k < virtStart.toNat / 4096 + pageCount size then none else T k

namespace PageDirectory

variable {pd : PageDirectory} {m m' : Mem} {T : FlatMap}

/-- The page tables in memory are those of the flat map. -/
structure Refines (pd : PageDirectory) (m : Mem) (T : FlatMap) : Prop where
  wired : pd.Wired m
  frame : ∀ k < 2 ^ 20, pd.frame m k = T k

/-- A call that sets the entries of the pages from `lo` on below `hi` sets these pages of the
map. -/
theorem Refines.sets {lo hi : Nat} {v : Nat → BitVec 32} {g : Nat → Option Nat}
    (h : pd.Refines m T) (hs : pd.Sets m m' lo hi v)
    (hv : ∀ k < 2 ^ 20, lo ≤ k → k < hi → pd.pte m' k = v k → pd.frame m' k = g k) :
    pd.Refines m' fun k => if lo ≤ k ∧ k < hi then g k else T k := by
  refine ⟨hs.wired, fun k hk => ?_⟩
  have hpte := hs.pte k hk
  by_cases hin : lo ≤ k ∧ k < hi
  · rw [if_pos hin] at hpte ⊢
    exact hv k hk hin.1 hin.2 hpte
  · rw [if_neg hin] at hpte ⊢
    rw [frame_congr hpte, h.frame k hk]

theorem endPage_eq_pageCount {size : BitVec 32} (h : pageCount size ≤ 0xFFFFF) :
    endPage size = pageCount size := by
  unfold pageCount at h
  rw [endPage, if_pos (by omega), pageCount]

theorem rangeEnd_eq {virt size : BitVec 32} (h : virt.toNat / 4096 + pageCount size ≤ 0xFFFFF) :
    rangeEnd virt size = virt.toNat / 4096 + pageCount size := by
  rw [rangeEnd, endPage_eq_pageCount (by omega), Nat.mod_eq_of_lt (by omega)]

/-- A call whose range is in range does to the page tables what it does to the flat map. -/
theorem Refines.apply (h : pd.Refines m T) {op : PagingOp} (hop : op.InRange) :
    pd.Refines (op.apply pd m) (T.apply op) := by
  cases op with
  | identityMapRange start stop =>
    have hs := identityMapRange_sets h.wired start stop
    rw [endPage_eq_pageCount hop] at hs
    exact h.sets hs fun k hk _ _ hpte => frame_of_mapped hk hpte
  | mapRange virtStart physStart size =>
    have hs := mapRange_sets h.wired virtStart physStart size
    rw [rangeEnd_eq hop] at hs
    refine h.sets hs fun k _ _ _ hpte => frame_of_mapped (Nat.mod_lt _ (by decide)) ?_
    rw [hpte]
    congr 1
    apply BitVec.eq_of_toNat_eq
    rw [BitVec.toNat_add, pageDown_toNat, BitVec.toNat_ofNat, BitVec.toNat_ofNat]
    omega
  | unmapRange virtStart size =>
    have hs := unmapRange_sets h.wired virtStart size
    rw [rangeEnd_eq hop] at hs
    exact h.sets hs fun k _ _ _ hpte => frame_of_zero hpte

theorem Refines.run (h : pd.Refines m T) {ops : List PagingOp} (hops : ∀ op ∈ ops, op.InRange) :
    pd.Refines (ops.foldl (PagingOp.apply pd) m) (ops.foldl FlatMap.apply T) :=
  List.foldl_rel h fun op hop _ _ hr => hr.apply (hops op hop)

/-- After `init` every page is unmapped. -/
theorem init_refines (m : Mem) (dirAddr : BitVec 32)
    (hapart : Disjoint (span dirAddr 4096) (span pageTablesBase 0x400000)) :
    (init m dirAddr).1.Refines (init m dirAddr).2 fun _ => none := by
  obtain ⟨hw, hzero⟩ := init_wired m dirAddr hapart
  exact ⟨hw, fun k hk => frame_of_zero (hzero k hk)⟩

/-- Whatever calls in range follow `init`, the walk finds the frame that the flat map has for the
address's page, and the directory's entries stay as `init` leaves them. -/
theorem walk_eq_flatMap (m : Mem) (dirAddr : BitVec 32)
    (hapart : Disjoint (span dirAddr 4096) (span pageTablesBase 0x400000))
    (ops : List PagingOp) (hops : ∀ op ∈ ops, op.InRange) :
    let pd := (init m dirAddr).1
    let m0 := (init m dirAddr).2
    let m' := ops.foldl (PagingOp.apply pd) m0
    let T := ops.foldl FlatMap.apply fun _ => none
    (∀ virt, pd.walk m' virt = (T (virt.toNat / 4096)).map fun f =>
      BitVec.ofNat 32 (4096 * f + virt.toNat % 4096)) ∧
      ∀ i < 1024, m'.load32 (slot dirAddr i) = m0.load32 (slot dirAddr i) := by
  intro pd m0 m' T
  have h0 := init_refines m dirAddr hapart
  have h := h0.run hops
  refine ⟨fun virt => ?_, fun i hi => ?_⟩
  · have hv := virt.isLt
    rw [h.wired.walk_eq, h.frame _ (by omega)]
  · exact (h.wired.entry i hi).trans (h0.wired.entry i hi).symm

/-- The kernel's window with a page of it given up again. -/
theorem walk_eq_flatMap_kernelWindow :
    let ops := [PagingOp.mapRange 0xC0000000 0 0x400000, .unmapRange 0xC0001FFF 1,
      .identityMapRange 0 0x100000]
    let pd := (init (fun _ => 0xFF) 0x9C000).1
    let m' := ops.foldl (PagingOp.apply pd) (init (fun _ => 0xFF) 0x9C000).2
    (∀ op ∈ ops, op.InRange) ∧ pd.walk m' 0xC0002345 = some 0x2345 ∧
      pd.walk m' 0xC0001000 = none ∧ pd.walk m' 0xFFFFF = some 0xFFFFF := by
  have hops : ∀ op ∈ [PagingOp.mapRange 0xC0000000 0 0x400000, .unmapRange 0xC0001FFF 1,
      .identityMapRange 0 0x100000], op.InRange := by
    simp [PagingOp.InRange, pageCount]
  have h := (walk_eq_flatMap (fun _ => 0xFF) 0x9C000
    (disjoint_span (by decide) (by decide) (by decide)) _ hops).1
  exact ⟨hops, h _, h _, h _⟩

end PageDirectory

end Sapphire
