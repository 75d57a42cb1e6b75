import Sapphire.Vmm.Client

/-! `kernel_vmm` with its pointers.  As long as the frame allocator and the page directory that they
point to are what they were, the calls of it do what those of `VMM` do.  Between the calls anything
else may be stored outside the structures of the virtual memory manager, also over the two objects:
a run says for every call what it needs of them. -/

namespace Sapphire

open Machine

namespace KernelVmm

/-- The memory of the two objects that the pointers point to. -/
def objects (k : KernelVmm) : Set (BitVec 32) := span k.fa 12 ∪ span k.pd 4

/-- In `m` the pointers of `k` point to the frame allocator and the page directory of `vmm`. -/
def PointsTo (k : KernelVmm) (m : Mem) (vmm : VMM) : Prop := k.deref m = vmm

variable {k : KernelVmm} {vmm : VMM} {m m' : Mem}

theorem PointsTo.fa (h : k.PointsTo m vmm) : FrameAllocator.load m k.fa = vmm.fa := by
  rw [← h, deref]

theorem PointsTo.pd (h : k.PointsTo m vmm) : PageDirectory.load m k.pd = vmm.pd := by
  rw [← h, deref]

theorem PointsTo.regionStart (h : k.PointsTo m vmm) : k.regionStart = vmm.regionStart := by
  rw [← h, deref]

/-- The objects do not notice a change outside of them. -/
theorem PointsTo.of_changesOnly {S : Set (BitVec 32)} (h : k.PointsTo m vmm)
    (hm : ChangesOnly S m m') (hd : Disjoint k.objects S) : k.PointsTo m' vmm := by
  obtain ⟨hfa, hpd⟩ := Set.disjoint_union_left.mp hd
  have hword : ∀ i : BitVec 32, i.toNat + 4 ≤ 12 →
      m'.load32 (k.fa + i) = m.load32 (k.fa + i) := fun i hi =>
    Mem.load32_of_changesOnly hm (hfa.mono_left (span_subset (by bv_omega)))
  have hfirst : m'.load32 k.fa = m.load32 k.fa :=
    Mem.load32_of_changesOnly hm (hfa.mono_left (span_mono (by decide)))
  rw [PointsTo, ← h, deref, deref, FrameAllocator.load, FrameAllocator.load, PageDirectory.load,
    PageDirectory.load, hfirst, hword 4 (by decide), hword 8 (by decide),
    Mem.load32_of_changesOnly hm hpd]

end KernelVmm

/-! ### Calls -/

namespace KernelVmm

variable {k : KernelVmm} {vmm : VMM} {m : Mem}

theorem mapFrames_eq (hl : vmm.Laid) (hw : vmm.pd.Wired m) (hd : Disjoint k.objects vmm.own)
    (hp : k.PointsTo m vmm) {start n : Nat} (hn : start + n ≤ 131072) :
    k.mapFrames m (vmmRegionStart + BitVec.ofNat 32 start * pageSize) n =
      (vmm.mapFrames m (vmmRegionStart + BitVec.ofNat 32 start * pageSize) n).1 := by
  induction n with
  | zero => rfl
  | succ n ih =>
    have hbefore := VMM.changesOnly_mapFrames hl hw (s := start) (n := n) (by omega)
    have hrounds := hp.of_changesOnly hbefore hd
    have htaken := hrounds.of_changesOnly
      ((hl.changesOnly_allocFrame _).mono vmm.frameBits_subset_own) hd
    simp only [mapFrames, VMM.mapFrames, ih (by omega), hrounds.fa, htaken.pd]

theorem allocPages_eq (hl : vmm.Laid) (hw : vmm.pd.Wired m) (hd : Disjoint k.objects vmm.own)
    (hp : k.PointsTo m vmm) (numPages : BitVec 32) :
    k.allocPages m numPages = vmm.allocPages m numPages := by
  have hfind : (k.deref m).findFreeRange m numPages = vmm.findFreeRange m numPages := by rw [hp]
  rcases VMM.findFreeRange_cases hl m numPages with ⟨-, hnone⟩ | ⟨start, -, hleft, hsome⟩
  · have hnull : (0xFFFFFFFF : BitVec 32) = 0xFFFFFFFF#32 := rfl
    rw [allocPages, VMM.allocPages, hfind, hnone, if_pos hnull, if_pos hnull]
  · have hn := hleft.range.1
    have hloop := mapFrames_eq hl hw hd hp hn
    have hafter : k.PointsTo (k.mapFrames m (vmmRegionStart + BitVec.ofNat 32 start * pageSize)
        numPages.toNat) vmm :=
      hloop ▸ hp.of_changesOnly (VMM.changesOnly_mapFrames hl hw hn) hd
    have hfound : BitVec.ofNat 32 start ≠ 0xFFFFFFFF#32 := by bv_omega
    simp only [allocPages, VMM.allocPages, hfind, hsome, hfound, if_false, hp.regionStart,
      hl.regionStart]
    rw [hafter, hloop]

theorem unmapPage_eq (hw : vmm.pd.Wired m) (hd : Disjoint k.objects vmm.own)
    (hp : k.PointsTo m vmm) {virt : BitVec 32} {p : Nat} (hvirt : virt.toNat / 4096 = p)
    (hpage : p + 1 < 2 ^ 20) : k.unmapPage m virt = vmm.unmapPage m virt := by
  have hunmapped := hp.of_changesOnly
    ((VMM.unmapRange_page hw hvirt hpage).2.1.mono vmm.tables_subset_own) hd
  rw [unmapPage, VMM.unmapPage, hp.pd, hunmapped.fa]

theorem unmapPages_eq (hl : vmm.Laid) (hw : vmm.pd.Wired m) (hd : Disjoint k.objects vmm.own)
    (hp : k.PointsTo m vmm) {addr : BitVec 32} {s n : Nat} (frame : Nat → Nat)
    (haddr : addr.toNat / 4096 = 0xD0000 + s) (hn : s + n ≤ 131072)
    (hframe : ∀ k < n, vmm.pd.pte m (0xD0000 + s + k) = mapped (frameAddr (frame k)) ∧
      (frame k < vmm.fa.scanned ∨ frame k = 0)) :
    (List.range n).foldl (fun m i => k.unmapPage m (addr + BitVec.ofNat 32 i * pageSize)) m =
      (List.range n).foldl (fun m i => vmm.unmapPage m (addr + BitVec.ofNat 32 i * pageSize)) m := by
  induction n with
  | zero => rw [List.range_zero, List.foldl_nil, List.foldl_nil]
  | succ n ih =>
    have hframe' := fun i (hi : i < n) => hframe i (by omega)
    have hbefore := hp.of_changesOnly
      (VMM.changesOnly_unmapPages hl hw frame haddr (n := n) (by omega) hframe') hd
    have hwired := (VMM.unmapPages_spec hl hw haddr (n := n) (by omega) hframe').1.wired
    simp only [List.range_succ, List.foldl_append, List.foldl_cons, List.foldl_nil,
      ih (by omega) hframe']
    exact unmapPage_eq hwired hd hbefore (VMM.page_add haddr (k := n) (by omega)) (by omega)

end KernelVmm

/-- A call with the pointers of `k`, and the pages that are live after it. -/
def VmmState.call (k : KernelVmm) (s : VmmState) : VmmOp → VmmState
  | .alloc numPages =>
    let r := k.allocPages s.mem numPages
    ⟨r.1, if r.2 = 0 then s.live
      else List.range' ((r.2 - k.regionStart) / pageSize).toNat numPages.toNat :: s.live⟩
  | .free addr numPages =>
    ⟨k.freePages s.mem addr numPages,
      s.live.map fun A => A.filter fun i => ¬ Freed addr numPages i⟩

namespace KernelVmm

variable {k : KernelVmm} {vmm : VMM} {s s' : VmmState}

/-- A legal call does what it does without pointers. -/
theorem call_eq (hl : vmm.Laid) (ht : vmm.Tracks s) (hd : Disjoint k.objects vmm.own)
    (hp : k.PointsTo s.mem vmm) {op : VmmOp} (hlegal : s.Legal op) :
    s.call k op = s.apply vmm op := by
  cases op with
  | alloc numPages =>
    simp only [VmmState.call, VmmState.apply, allocPages_eq hl ht.wired hd hp, hp.regionStart]
  | free addr numPages =>
    simp only [VmmState.call, VmmState.apply, VmmState.mk.injEq, and_true]
    by_cases hne : numPages.toNat = 0
    · rw [freePages, VMM.freePages, hne, hp.regionStart]
      simp only [List.range_zero, List.foldl_nil]
      rw [hp]
    · obtain ⟨start, haddr, hend, hlive, -⟩ := VMM.legal_free_cases ht hlegal hne
      have hframe : ∀ i < numPages.toNat, vmm.pd.pte s.mem (0xD0000 + start + i) =
          mapped (frameAddr (vmm.frameOf s.mem (start + i))) ∧
            (vmm.frameOf s.mem (start + i) < vmm.fa.scanned ∨
              vmm.frameOf s.mem (start + i) = 0) := fun i hi => by
        have := ht.frame _ (hlive i hi)
        rwa [← Nat.add_assoc] at this
      have hloop := unmapPages_eq hl ht.wired hd hp _ haddr hend hframe
      have hafter := hp.of_changesOnly
        (VMM.changesOnly_unmapPages hl ht.wired _ haddr hend hframe) hd
      rw [freePages, VMM.freePages, hloop, hp.regionStart, hafter]

/-! ### Runs -/

/-- The memory of the virtual memory manager, with its page directory. -/
def structures (vmm : VMM) : Set (BitVec 32) := vmm.own ∪ span vmm.pd.entries 4096

/-- A legal call for which `ok` holds, or stores of anything else in the kernel: also those that a
function makes to its frame on the stack, where the objects of `k` may have been. -/
inductive Step (k : KernelVmm) (vmm : VMM) (ok : VmmState → VmmOp → Prop) :
    VmmState → VmmState → Prop
  | call {s : VmmState} {op : VmmOp} (hlegal : s.Legal op) (hok : ok s op) :
      Step k vmm ok s (s.call k op)
  | other {s : VmmState} {m : Mem} (h : ChangesOnly (structures vmm)ᶜ s.mem m) :
      Step k vmm ok s ⟨m, s.live⟩

def Runs (k : KernelVmm) (vmm : VMM) (ok : VmmState → VmmOp → Prop) :
    VmmState → VmmState → Prop :=
  Relation.ReflTransGen (Step k vmm ok)

/-- At the call the objects are still what they were, and `ok` holds. -/
def Alive (k : KernelVmm) (vmm : VMM) (ok : VmmState → VmmOp → Prop) (s : VmmState) (op : VmmOp) :
    Prop := k.PointsTo s.mem vmm ∧ ok s op

variable {ok : VmmState → VmmOp → Prop}

theorem Runs.mono {ok' : VmmState → VmmOp → Prop} (h : ∀ s op, ok s op → ok' s op)
    (hrun : Runs k vmm (k.Alive vmm ok) s s') : Runs k vmm (k.Alive vmm ok') s s' := by
  refine Relation.ReflTransGen.mono (fun _ _ hstep => ?_) _ _ hrun
  cases hstep with
  | call hlegal hok => exact .call hlegal ⟨hok.1, h _ _ hok.2⟩
  | other hm => exact .other hm

/-- An invariant that the calls keep where the objects live, and that does not look outside the
structures, holds in every state of a run whose calls find the objects alive. -/
theorem Runs.induct {P : VmmState → Prop} (hl : vmm.Laid) (hd : Disjoint k.objects vmm.own)
    (htracks : ∀ s, P s → vmm.Tracks s)
    (hcall : ∀ s op, P s → s.Legal op → ok s op → P (s.apply vmm op))
    (hother : ∀ s m, P s → ChangesOnly (structures vmm)ᶜ s.mem m → P ⟨m, s.live⟩)
    (hs : P s) (hrun : Runs k vmm (k.Alive vmm ok) s s') : P s' := by
  induction hrun with
  | refl => exact hs
  | tail _ hlast ih =>
    cases hlast with
    | call hlegal hok =>
      rw [call_eq hl (htracks _ ih) hd hok.1 hlegal]
      exact hcall _ _ ih hlegal hok.2
    | other hm => exact hother _ _ ih hm

theorem disjoint_structures (vmm : VMM) :
    Disjoint (vmm.own ∪ span vmm.pd.entries 4096) (structures vmm)ᶜ :=
  disjoint_compl_right

theorem Runs.tracks (hl : vmm.Laid) (hd : Disjoint k.objects vmm.own) (ht : vmm.Tracks s)
    (hrun : Runs k vmm (k.Alive vmm ok) s s') : vmm.Tracks s' :=
  hrun.induct hl hd (fun _ h => h) (fun _ _ h hlegal _ => h.step hl hlegal)
    (fun _ _ h hm => h.of_changesOnly hm (disjoint_structures vmm)) ht

/-- No step changes an entry outside the region. -/
theorem Runs.pte_outside (hl : vmm.Laid) (hd : Disjoint k.objects vmm.own) (ht : vmm.Tracks s)
    (hrun : Runs k vmm (k.Alive vmm ok) s s') {p : Nat} (hp : p < 2 ^ 20)
    (hout : ¬ (0xD0000 ≤ p ∧ p < 0xF0000)) : vmm.pd.pte s'.mem p = vmm.pd.pte s.mem p := by
  refine (hrun.induct (P := fun t => vmm.Tracks t ∧ vmm.pd.pte t.mem p = vmm.pd.pte s.mem p) hl hd
    (fun _ h => h.1) (fun t op h hlegal _ => ⟨h.1.step hl hlegal, ?_⟩)
    (fun t m h hm => ⟨h.1.of_changesOnly hm (disjoint_structures vmm), ?_⟩) ⟨ht, rfl⟩).2
  · rw [h.1.pte_outside hl hlegal hp hout, h.2]
  · rw [h.1.pte_of_changesOnly hm (disjoint_structures vmm) hp, h.2]

theorem Runs.reserves (hl : vmm.Laid) (hd : Disjoint k.objects vmm.own) (hr : vmm.Reserves s)
    (hrun : Runs k vmm (k.Alive vmm vmm.KeepsZero) s s') : vmm.Reserves s' := by
  refine hrun.induct hl hd (fun _ h => h.tracks) (fun t op h hlegal hok => ?_)
    (fun _ _ h hm => h.of_changesOnly hl hm (disjoint_structures vmm)) hr
  cases op with
  | alloc numPages => exact h.alloc hl numPages
  | free addr numPages => exact (h.free hl hlegal).1 hok

/-- A run of calls alone leaves the objects alive. -/
theorem runs_of_calls (hl : vmm.Laid) (hd : Disjoint k.objects vmm.own) (ht : vmm.Tracks s)
    (hp : k.PointsTo s.mem vmm) (hrun : VmmState.Runs vmm ok s s') :
    Runs k vmm (k.Alive vmm ok) s s' ∧ vmm.Tracks s' ∧ k.PointsTo s'.mem vmm := by
  refine hrun.induct (P := fun t => Runs k vmm (k.Alive vmm ok) s t ∧ vmm.Tracks t ∧
    k.PointsTo t.mem vmm) (fun t op h hlegal hok => ?_) ⟨.refl, ht, hp⟩
  obtain ⟨hruns, htracks, halive⟩ := h
  refine ⟨?_, htracks.step hl hlegal,
    halive.of_changesOnly (htracks.changesOnly hl hlegal) hd⟩
  rw [← call_eq hl htracks hd halive hlegal]
  exact hruns.tail (.call hlegal ⟨halive, hok⟩)

end KernelVmm

end Sapphire
