import Sapphire.Paging.Walk
import Sapphire.Vmm.Frames

/-! Programs that use the pages of the virtual memory manager.  Between the calls of `alloc_pages` and
`free_pages` a client stores bytes at addresses of live pages, and the processor finds the physical
address of each through the page tables, which lie in the same memory.  What the clients should see
is a memory of their own: `content` is the byte last stored at each address since its page was
allocated. -/

namespace Sapphire

open Machine

namespace VMM

variable {vmm : VMM} {m m0 : Mem}

/-! ### The bytes that a call changes -/

/-- The memory of the virtual memory manager: the page tables and the two bitmaps. -/
def own (vmm : VMM) : Set (BitVec 32) :=
  span pageTablesBase 0x400000 ∪ vmm.fa.bits ∪ vmm.pageBits

theorem tables_subset_own (vmm : VMM) : span pageTablesBase 0x400000 ⊆ vmm.own :=
  fun _ hx => Or.inl (Or.inl hx)

theorem frameBits_subset_own (vmm : VMM) : vmm.fa.bits ⊆ vmm.own := fun _ hx => Or.inl (Or.inr hx)

theorem pageBits_subset_own (vmm : VMM) : vmm.pageBits ⊆ vmm.own := fun _ hx => Or.inr hx

theorem changesOnly_mapFrames (h : vmm.Laid) (hw : vmm.pd.Wired m) {s n : Nat}
    (hn : s + n ≤ 131072) :
    ChangesOnly vmm.own m
      (vmm.mapFrames m (vmmRegionStart + BitVec.ofNat 32 s * pageSize) n).1 := by
  induction n with
  | zero => exact ChangesOnly.refl _ _
  | succ n ih =>
    have hbacks := (mapFrames_spec h hw (s := s) (n := n) (by omega)).2.1
    set r := vmm.mapFrames m (vmmRegionStart + BitVec.ofNat 32 s * pageSize) n
    have halloc := h.changesOnly_allocFrame r.1
    set virt := vmmRegionStart + BitVec.ofNat 32 s * pageSize + BitVec.ofNat 32 n * pageSize
      with hvirt
    have hpage : virt.toNat / 4096 = 0xD0000 + s + n := by bv_omega
    have hsucc : vmm.mapFrames m (vmmRegionStart + BitVec.ofNat 32 s * pageSize) (n + 1) =
        (vmm.pd.mapRange (vmm.fa.allocFrame r.1).1 virt (vmm.fa.allocFrame r.1).2 pageSize,
          r.2 ++ [(vmm.fa.allocFrame r.1).2]) := rfl
    obtain ⟨-, hmap, -⟩ := mapRange_page (hbacks.wired.of_changesOnly halloc h.directory_frames)
      hpage (by omega) (vmm.fa.allocFrame_aligned r.1)
    rw [hsucc]
    dsimp only
    exact ((ih (by omega)).trans (halloc.mono vmm.frameBits_subset_own)).trans
      (hmap.mono vmm.tables_subset_own)

theorem changesOnly_allocPages (h : vmm.Laid) (hw : vmm.pd.Wired m) (numPages : BitVec 32) :
    ChangesOnly vmm.own m (vmm.allocPages m numPages).1 := by
  rcases findFreeRange_cases h m numPages with ⟨-, hfind⟩ | ⟨s, -, hleft, hfind⟩
  · rw [allocPages, hfind]
    exact ChangesOnly.refl _ _
  · have hs := hleft.range.1
    have hfound : BitVec.ofNat 32 s ≠ 0xFFFFFFFF#32 := by bv_omega
    have hbound : ∀ j, (BitVec.ofNat 32 s).toNat ≤ j →
        j < (BitVec.ofNat 32 s).toNat + numPages.toNat → j < 131072 := by
      rw [BitVec.toNat_ofNat, Nat.mod_eq_of_lt (by omega)]
      omega
    simp only [allocPages, hfind, hfound, if_false, h.regionStart]
    exact (changesOnly_mapFrames h hw hs).trans
      ((vmm.markUsed_spec _ hbound).1.mono vmm.pageBits_subset_own)

theorem changesOnly_unmapPage (h : vmm.Laid) (hw : vmm.pd.Wired m) {virt : BitVec 32} {p f : Nat}
    (hvirt : virt.toNat / 4096 = p) (hp : p + 1 < 2 ^ 20)
    (hpte : vmm.pd.pte m p = mapped (frameAddr f)) (hf : f < vmm.fa.scanned ∨ f = 0) :
    ChangesOnly vmm.own m (vmm.unmapPage m virt) := by
  have hload : m.load32 (vmm.pd.pteAddr m virt) = mapped (frameAddr f) := by
    rw [hw.pteAddr_eq, hvirt, ← hw.pte_eq (by omega), hpte]
  have hphys : mapped (frameAddr f) &&& ~~~0xFFF#32 = frameAddr f :=
    pageDown_mapped (frameAddr_aligned f)
  rw [unmapPage, hload, hphys]
  exact ((unmapRange_page hw hvirt hp).2.1.mono vmm.tables_subset_own).trans
    ((h.changesOnly_freeFrame _ hf).mono vmm.frameBits_subset_own)

theorem changesOnly_unmapPages (h : vmm.Laid) (hw : vmm.pd.Wired m) {addr : BitVec 32} {s n : Nat}
    (frame : Nat → Nat) (haddr : addr.toNat / 4096 = 0xD0000 + s) (hn : s + n ≤ 131072)
    (hframe : ∀ k < n, vmm.pd.pte m (0xD0000 + s + k) = mapped (frameAddr (frame k)) ∧
      (frame k < vmm.fa.scanned ∨ frame k = 0)) :
    ChangesOnly vmm.own m ((List.range n).foldl (fun m i =>
      vmm.unmapPage m (addr + BitVec.ofNat 32 i * pageSize)) m) := by
  induction n with
  | zero => exact ChangesOnly.refl _ _
  | succ n ih =>
    obtain ⟨hrel, -⟩ := unmapPages_spec h hw haddr (n := n) (by omega)
      fun k hk => hframe k (by omega)
    obtain ⟨hpte, hf⟩ := hframe n (by omega)
    rw [List.range_succ, List.foldl_append, List.foldl_cons, List.foldl_nil]
    refine (ih (by omega) fun k hk => hframe k (by omega)).trans (changesOnly_unmapPage h hrel.wired
      (page_add haddr (k := n) (by omega)) (by omega) (f := frame n) ?_ hf)
    rw [hrel.pte _ (by omega), if_neg (by omega), hpte]

theorem changesOnly_freePages (h : vmm.Laid) (hw : vmm.pd.Wired m) {addr numPages : BitVec 32}
    {s : Nat} (frame : Nat → Nat) (haddr : addr.toNat / 4096 = 0xD0000 + s)
    (hn : s + numPages.toNat ≤ 131072)
    (hframe : ∀ k < numPages.toNat,
      vmm.pd.pte m (0xD0000 + s + k) = mapped (frameAddr (frame k)) ∧
      (frame k < vmm.fa.scanned ∨ frame k = 0)) :
    ChangesOnly vmm.own m (vmm.freePages m addr numPages) := by
  have hidx : ((addr - vmm.regionStart) / pageSize).toNat = s := by
    rw [h.regionStart, BitVec.toNat_udiv, show pageSize.toNat = 4096 from rfl]
    bv_omega
  refine (changesOnly_unmapPages h hw frame haddr hn hframe).trans
    ((vmm.markFree_spec _ ?_).1.mono vmm.pageBits_subset_own)
  rw [hidx]
  omega

/-- A legal call changes the page tables and the bitmaps. -/
theorem Tracks.changesOnly {s : VmmState} (h : vmm.Laid) (ht : vmm.Tracks s) {op : VmmOp}
    (hlegal : s.Legal op) : ChangesOnly vmm.own s.mem (s.apply vmm op).mem := by
  cases op with
  | alloc numPages => exact changesOnly_allocPages h ht.wired numPages
  | free addr numPages =>
    by_cases hne : numPages.toNat = 0
    · rw [VmmState.apply, BitVec.eq_of_toNat_eq (x := numPages) (y := 0) hne, freePages_zero]
      exact ChangesOnly.refl _ _
    · obtain ⟨start, haddr, hend, hlive, -⟩ := legal_free_cases ht hlegal hne
      refine changesOnly_freePages h ht.wired (fun k => vmm.frameOf s.mem (start + k)) haddr hend
        fun k hk => ?_
      have := ht.frame _ (hlive k hk)
      rwa [← Nat.add_assoc] at this

end VMM

/-! ### Clients -/

/-- What the clients have stored at the addresses of the region, where they have. -/
abbrev Content := BitVec 32 → Option (BitVec 8)

inductive ClientOp
  | call (op : VmmOp)
  | store (virt : BitVec 32) (v : BitVec 8)

structure ClientState extends VmmState where
  content : Content

/-- The address `virt` lies in a live page. -/
def VmmState.Live (s : VmmState) (virt : BitVec 32) : Prop :=
  ∃ i ∈ s.pages, virt.toNat / 4096 = 0xD0000 + i

/-- What a step leaves of the bytes that the clients know: a free page has none. -/
def Content.apply (c : Content) : ClientOp → Content
  | .call (.alloc _) => c
  | .call (.free addr numPages) => fun x =>
      if Freed addr numPages (x.toNat / 4096 - 0xD0000) then none else c x
  | .store virt v => fun x => if x = virt then some v else c x

namespace ClientState

/-- Calls free only live pages and do not run out of frames; stores go to live pages. -/
def Legal (vmm : VMM) (s : ClientState) : ClientOp → Prop
  | .call op => s.toVmmState.Legal op ∧ vmm.NoZero s.toVmmState op
  | .store virt _ => s.Live virt

/-- The processor translates the address of a store with the page tables as they are. -/
def apply (vmm : VMM) (s : ClientState) : ClientOp → ClientState
  | .call op => ⟨s.toVmmState.apply vmm op, s.content.apply (.call op)⟩
  | .store virt v => match vmm.pd.walk s.mem virt with
    | some phys => ⟨⟨s.mem.store8 phys v, s.live⟩, s.content.apply (.store virt v)⟩
    | none => s

def Runs (vmm : VMM) : ClientState → ClientState → Prop :=
  Relation.ReflTransGen fun s s' => ∃ op, s.Legal vmm op ∧ s' = s.apply vmm op

end ClientState

namespace VMM

variable {vmm : VMM} {m0 : Mem} {s : VmmState}

/-- The frames that are free in `m0` hold none of the structures that translation and the calls
read. -/
def Apart (vmm : VMM) (m0 : Mem) : Prop := ∀ f < vmm.fa.scanned, vmm.fa.used m0 f = false →
  Disjoint (vmm.own ∪ span vmm.pd.entries 4096) (span (frameAddr f) 4096)

/-- The physical address behind `virt`, an address in page `i` of the region. -/
def physical (vmm : VMM) (m : Mem) (i : Nat) (virt : BitVec 32) : BitVec 32 :=
  BitVec.ofNat 32 (4096 * vmm.frameOf m i + virt.toNat % 4096)

theorem Consistent.walk_eq (h : vmm.Laid) (hc : vmm.Consistent m0 s) {i : Nat} (hi : i ∈ s.pages)
    {virt : BitVec 32} (hv : virt.toNat / 4096 = 0xD0000 + i) :
    vmm.pd.walk s.mem virt = some (vmm.physical s.mem i virt) := by
  have hlt := (hc.fresh i hi).1
  have hscanned := h.scanned_le
  rw [hc.tracks.wired.walk_eq, hv, PageDirectory.frame_of_mapped (f := vmm.frameOf s.mem i)
    (by omega) (hc.tracks.frame i hi).1, Option.map_some, physical]

theorem Consistent.toNat_physical (h : vmm.Laid) (hc : vmm.Consistent m0 s) {i : Nat}
    (hi : i ∈ s.pages) (virt : BitVec 32) :
    (vmm.physical s.mem i virt).toNat = 4096 * vmm.frameOf s.mem i + virt.toNat % 4096 := by
  have hlt := (hc.fresh i hi).1
  have hscanned := h.scanned_le
  rw [physical, BitVec.toNat_ofNat]
  exact Nat.mod_eq_of_lt (by omega)

theorem Consistent.physical_mem (h : vmm.Laid) (hc : vmm.Consistent m0 s) {i : Nat}
    (hi : i ∈ s.pages) (virt : BitVec 32) :
    vmm.physical s.mem i virt ∈ span (frameAddr (vmm.frameOf s.mem i)) 4096 := by
  have hlt := (hc.fresh i hi).1
  have hscanned := h.scanned_le
  have haddr := toNat_frameAddr (f := vmm.frameOf s.mem i) (by omega)
  rw [mem_span_iff (by omega), haddr, hc.toNat_physical h hi]
  omega

/-- Different addresses of live pages have different bytes behind them. -/
theorem Consistent.physical_inj (h : vmm.Laid) (hc : vmm.Consistent m0 s) {i j : Nat}
    (hi : i ∈ s.pages) (hj : j ∈ s.pages) {virt virt' : BitVec 32}
    (hv : virt.toNat / 4096 = 0xD0000 + i) (hv' : virt'.toNat / 4096 = 0xD0000 + j)
    (heq : vmm.physical s.mem i virt = vmm.physical s.mem j virt') : virt = virt' := by
  have hnum := congrArg BitVec.toNat heq
  rw [hc.toNat_physical h hi, hc.toNat_physical h hj] at hnum
  have hij := hc.distinct i hi j hj (by omega)
  exact BitVec.eq_of_toNat_eq (by omega)

/-- The virtual memory manager does not notice a change outside its structures. -/
theorem Tracks.pte_of_changesOnly (ht : vmm.Tracks s) {S : Set (BitVec 32)} {m' : Mem}
    (hm : ChangesOnly S s.mem m') (hd : Disjoint (vmm.own ∪ span vmm.pd.entries 4096) S) {p : Nat}
    (hp : p < 2 ^ 20) : vmm.pd.pte m' p = vmm.pd.pte s.mem p := by
  obtain ⟨hown, hdir⟩ := Set.disjoint_union_left.mp hd
  exact ht.wired.pte_of_changesOnly hm hdir (hown.mono_left vmm.tables_subset_own) hp

theorem Tracks.frameOf_of_changesOnly (ht : vmm.Tracks s) {S : Set (BitVec 32)} {m' : Mem}
    (hm : ChangesOnly S s.mem m') (hd : Disjoint (vmm.own ∪ span vmm.pd.entries 4096) S) {i : Nat}
    (hi : i ∈ s.pages) : vmm.frameOf m' i = vmm.frameOf s.mem i :=
  frameOf_congr (ht.pte_of_changesOnly hm hd (by have := ht.bound i hi; omega))

theorem frames_of_changesOnly {S : Set (BitVec 32)} {m' : Mem} (hm : ChangesOnly S m m')
    (hd : Disjoint (vmm.own ∪ span vmm.pd.entries 4096) S) {f : Nat} (hf : f < vmm.fa.tracked) :
    vmm.fa.used m' f = vmm.fa.used m f :=
  FrameAllocator.used_of_changesOnly hm
    ((Set.disjoint_union_left.mp hd).1.mono_left vmm.frameBits_subset_own) hf

theorem Tracks.of_changesOnly (ht : vmm.Tracks s) {S : Set (BitVec 32)} {m' : Mem}
    (hm : ChangesOnly S s.mem m') (hd : Disjoint (vmm.own ∪ span vmm.pd.entries 4096) S) :
    vmm.Tracks ⟨m', s.live⟩ := by
  obtain ⟨hown, hdir⟩ := Set.disjoint_union_left.mp hd
  refine ⟨ht.wired.of_changesOnly hm hdir, ht.nodup, ht.bound, fun i hi => ?_, fun i hi => ?_⟩
  · exact (used_of_changesOnly hm (hown.mono_left vmm.pageBits_subset_own) hi).trans (ht.bits i hi)
  · rw [ht.frameOf_of_changesOnly hm hd hi,
      ht.pte_of_changesOnly hm hd (by have := ht.bound i hi; omega)]
    exact ht.frame i hi

theorem Reserves.of_changesOnly (h : vmm.Laid) (hr : vmm.Reserves s) {S : Set (BitVec 32)}
    {m' : Mem} (hm : ChangesOnly S s.mem m')
    (hd : Disjoint (vmm.own ∪ span vmm.pd.entries 4096) S) : vmm.Reserves ⟨m', s.live⟩ := by
  have htracked := vmm.fa.reserved_le_tracked h.size
  refine ⟨hr.tracks.of_changesOnly hm hd, fun f hf => ?_, fun i hi => ?_⟩
  · exact (frames_of_changesOnly hm hd (by omega)).trans (hr.reserved f hf)
  · rw [hr.tracks.frameOf_of_changesOnly hm hd hi]
    exact hr.pages i hi

theorem Consistent.of_changesOnly (hc : vmm.Consistent m0 s)
    {S : Set (BitVec 32)} {m' : Mem} (hm : ChangesOnly S s.mem m')
    (hd : Disjoint (vmm.own ∪ span vmm.pd.entries 4096) S) :
    vmm.Consistent m0 ⟨m', s.live⟩ ∧ ∀ i ∈ s.pages, vmm.frameOf m' i = vmm.frameOf s.mem i := by
  have ht := hc.tracks
  have hpte : ∀ p < 2 ^ 20, vmm.pd.pte m' p = vmm.pd.pte s.mem p := fun p hp =>
    ht.pte_of_changesOnly hm hd hp
  have hframe : ∀ i ∈ s.pages, vmm.frameOf m' i = vmm.frameOf s.mem i := fun i hi =>
    ht.frameOf_of_changesOnly hm hd hi
  refine ⟨⟨ht.of_changesOnly hm hd, fun i hi hnot => ?_, fun i hi => ?_, fun i hi j hj heq => ?_,
    fun f hf => ?_, fun p hp hout => ?_⟩, hframe⟩
  · rw [hpte _ (by omega)]
    exact hc.absent i hi hnot
  · rw [hframe i hi]
    exact hc.fresh i hi
  · rw [hframe i hi, hframe j hj] at heq
    exact hc.distinct i hi j hj heq
  · rw [frames_of_changesOnly hm hd hf, hc.frames f hf]
    congr 1
    rw [decide_eq_decide]
    exact exists_congr fun i => and_congr_right fun hi => by rw [hframe i hi]
  · rw [hpte p hp]
    exact hc.outside p hp hout

/-! ### Whole runs -/

/-- What the clients have stored is behind the addresses where they stored it, and memory outside
the structures of the virtual memory manager that was not free in `m0` is as it was. -/
structure Private (vmm : VMM) (m0 : Mem) (s : ClientState) : Prop where
  consistent : vmm.Consistent m0 s.toVmmState
  content : ∀ x v, s.content x = some v → ∃ i ∈ s.pages, x.toNat / 4096 = 0xD0000 + i ∧
    s.mem (vmm.physical s.mem i x) = v
  kernel : ∀ x, (∀ f < vmm.fa.scanned, vmm.fa.used m0 f = false → x ∉ span (frameAddr f) 4096) →
    x ∉ vmm.own → s.mem x = m0 x

theorem Consistent.step (h : vmm.Laid) (hc : vmm.Consistent m0 s) {op : VmmOp}
    (hlegal : s.Legal op) (hok : vmm.NoZero s op) : vmm.Consistent m0 (s.apply vmm op) := by
  cases op with
  | alloc numPages => exact hc.alloc h hok
  | free addr numPages => exact hc.free h hlegal

/-- The bytes behind a live page are not changed by a call. -/
theorem Consistent.call_physical (h : vmm.Laid) (ha : vmm.Apart m0) (hc : vmm.Consistent m0 s)
    {op : VmmOp} (hlegal : s.Legal op) {i : Nat} (hi : i ∈ s.pages) (virt : BitVec 32) :
    (s.apply vmm op).mem (vmm.physical s.mem i virt) = s.mem (vmm.physical s.mem i virt) := by
  obtain ⟨hlt, hfree⟩ := hc.fresh i hi
  refine hc.tracks.changesOnly h hlegal _ fun hown => ?_
  exact Set.disjoint_left.mp (ha _ hlt hfree) (Or.inl hown) (hc.physical_mem h hi virt)

theorem mem_pages_free (s : VmmState) (vmm : VMM) (addr numPages : BitVec 32) {i : Nat} :
    i ∈ (s.apply vmm (.free addr numPages)).pages ↔
      i ∈ s.pages ∧ ¬ Freed addr numPages i := by
  rw [VmmState.pages, VmmState.apply, ← List.filter_flatten, List.mem_filter, decide_eq_true_eq,
    VmmState.pages]

/-- A page that is live before and after a call keeps its frame. -/
theorem Tracks.frameOf_kept (h : vmm.Laid) (ht : vmm.Tracks s) {op : VmmOp} (hlegal : s.Legal op)
    {i : Nat} (hi : i ∈ s.pages) (hi' : i ∈ (s.apply vmm op).pages) :
    vmm.frameOf (s.apply vmm op).mem i = vmm.frameOf s.mem i := by
  cases op with
  | alloc numPages =>
    rcases apply_alloc_cases h ht.wired numPages with ⟨-, heq⟩ | ⟨start, -, hrange, -, -, hb, -⟩
    · rw [heq]
    · exact frameOf_congr (hb.pte_old (ht.bound i hi) (ht.not_mem_range hrange hi))
  | free addr numPages =>
    rcases apply_free_cases h ht hlegal with ⟨-, heq⟩ | ⟨start, -, -, -, hpages, hrel, -⟩
    · rw [heq]
    · rw [VmmState.mem_pages_filter hpages] at hi'
      exact frameOf_congr (hrel.pte_old (ht.bound i hi) hi'.2)

/-- What is known of a byte after a call was known before, and its page stays live. -/
theorem content_call (h : vmm.Laid) (ht : vmm.Tracks s) {c : Content} {op : VmmOp} {x : BitVec 32}
    {v : BitVec 8} (hx : c.apply (.call op) x = some v) :
    c x = some v ∧ ∀ i ∈ s.pages, x.toNat / 4096 = 0xD0000 + i → i ∈ (s.apply vmm op).pages := by
  cases op with
  | alloc numPages =>
    refine ⟨hx, fun i hi _ => ?_⟩
    rcases apply_alloc_cases h ht.wired numPages with ⟨-, heq⟩ | ⟨start, -, -, hlive, -⟩
    · rw [heq]
      exact hi
    · exact (VmmState.mem_pages_cons hlive).mpr (Or.inr hi)
  | free addr numPages =>
    simp only [Content.apply] at hx
    split at hx
    · cases hx
    · rename_i hnot
      refine ⟨hx, fun i hi hv => (mem_pages_free s vmm addr numPages).mpr ⟨hi, ?_⟩⟩
      rwa [hv, Nat.add_sub_cancel_left] at hnot

theorem Private.call (h : vmm.Laid) (ha : vmm.Apart m0) {s : ClientState}
    (hp : vmm.Private m0 s) {op : VmmOp} (hlegal : s.Legal vmm (.call op)) :
    vmm.Private m0 (s.apply vmm (.call op)) := by
  obtain ⟨hfrees, hok⟩ := hlegal
  have hc := hp.consistent
  have ht := hc.tracks
  refine ⟨hc.step h hfrees hok, fun x v hx => ?_, fun x hfree hown => ?_⟩
  · obtain ⟨hbefore, hkept⟩ := content_call h ht hx
    obtain ⟨i, hi, hv, hbyte⟩ := hp.content x v hbefore
    have hi' := hkept i hi hv
    refine ⟨i, hi', hv, ?_⟩
    have hphys : vmm.physical (s.toVmmState.apply vmm op).mem i x = vmm.physical s.mem i x := by
      rw [physical, ht.frameOf_kept h hfrees hi hi', physical]
    rw [ClientState.apply]
    exact (congrArg _ hphys).trans ((hc.call_physical h ha hfrees hi x).trans hbyte)
  · exact (ht.changesOnly h hfrees x hown).trans (hp.kernel x hfree hown)

theorem Private.store (h : vmm.Laid) (ha : vmm.Apart m0) {s : ClientState}
    (hp : vmm.Private m0 s) {virt : BitVec 32} {v : BitVec 8}
    (hlegal : s.Legal vmm (.store virt v)) : vmm.Private m0 (s.apply vmm (.store virt v)) := by
  obtain ⟨i, hi, hv⟩ := hlegal
  have hc := hp.consistent
  obtain ⟨hlt, hfree⟩ := hc.fresh i hi
  have hinside := hc.physical_mem h hi virt
  have hchange := Mem.changesOnly_store8 s.mem (vmm.physical s.mem i virt) v
  have hsub : span (vmm.physical s.mem i virt) 1 ⊆ span (frameAddr (vmm.frameOf s.mem i)) 4096 := by
    intro y hy
    rw [mem_span] at hy
    rwa [show y = vmm.physical s.mem i virt by bv_omega]
  have happly : s.apply vmm (.store virt v) =
      ⟨⟨s.mem.store8 (vmm.physical s.mem i virt) v, s.live⟩, s.content.apply (.store virt v)⟩ := by
    rw [ClientState.apply, hc.walk_eq h hi hv]
  obtain ⟨hc', hframe⟩ := hc.of_changesOnly (hchange.mono hsub) (ha _ hlt hfree)
  have hphys : ∀ j ∈ s.pages, ∀ x, vmm.physical (s.mem.store8 (vmm.physical s.mem i virt) v) j x =
      vmm.physical s.mem j x := by
    intro j hj x
    rw [physical, hframe j hj, physical]
  rw [happly]
  refine ⟨hc', fun x w hx => ?_, fun x hout hown => ?_⟩
  · simp only [Content.apply] at hx
    by_cases hsame : x = virt
    · rw [if_pos hsame, Option.some_inj] at hx
      subst hsame hx
      refine ⟨i, hi, hv, ?_⟩
      rw [hphys i hi]
      exact Mem.store8_self _ _ _
    · rw [if_neg hsame] at hx
      obtain ⟨j, hj, hjv, hbyte⟩ := hp.content x w hx
      refine ⟨j, hj, hjv, ?_⟩
      rw [hphys j hj]
      refine (if_neg fun heq => hsame ?_).trans hbyte
      exact hc.physical_inj h hj hi hjv hv heq
  · refine (hchange x fun hin => hout _ hlt hfree (hsub hin)).trans (hp.kernel x hout hown)

theorem Private.run (h : vmm.Laid) (ha : vmm.Apart m0) {s s' : ClientState}
    (hp : vmm.Private m0 s) (hrun : ClientState.Runs vmm s s') : vmm.Private m0 s' := by
  induction hrun with
  | refl => exact hp
  | tail _ hlast ih =>
    obtain ⟨op, hlegal, rfl⟩ := hlast
    cases op with
    | call op => exact ih.call h ha hlegal
    | store virt v => exact ih.store h ha hlegal

end VMM

end Sapphire
