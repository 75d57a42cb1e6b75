import Sapphire.Lib.Interleave
import Sapphire.Lib.Tlb
import Sapphire.Micro
import Sapphire.Vmm.Frames

/-! The translations that a processor has cached, over runs of the virtual memory manager.  Between
any two steps the processor may cache any present entry, and only a write of `CR3` makes it forget
them.  `map_range` does without one because the entries that it sets were not present; `free_pages`
clears an entry, empties the cache and frees the frame, in this order. -/

namespace Sapphire

open Machine

namespace Traced

variable {t : Traced}

/-! ### The memory of the steps -/

theorem mem_allocFrom (fa : FrameAllocator) (t : Traced) (n i : Nat) :
    ((allocFrom fa t n i).1.mem, (allocFrom fa t n i).2) = fa.allocFrom t.mem n i := by
  induction n generalizing i with
  | zero => rfl
  | succ n ih =>
    simp only [allocFrom, FrameAllocator.allocFrom]
    split
    · exact ih (i + 1)
    · cases FrameAllocator.findClear (t.mem.load32 (fa.bitmap + 4 * BitVec.ofNat 32 i)) with
      | none => exact ih (i + 1)
      | some j => rfl

theorem mem_allocFrame (fa : FrameAllocator) (t : Traced) :
    (allocFrame fa t).1.mem = (fa.allocFrame t.mem).1 ∧
      (allocFrame fa t).2 = (fa.allocFrame t.mem).2 :=
  Prod.mk.inj (mem_allocFrom fa t _ 0)

theorem mem_mapRange (pd : PageDirectory) (t : Traced) (virt phys size : BitVec 32) :
    (mapRange pd t virt phys size).mem = pd.mapRange t.mem virt phys size := by
  simp only [mapRange, PageDirectory.mapRange]
  generalize 2 ^ 32 = fuel
  refine congrArg (·.2.2) (whileLoop_map
    (fun st : BitVec 32 × BitVec 32 × Traced => (st.1, st.2.1, st.2.2.mem)) ?_ ?_ fuel
    (pageDown virt, pageDown phys, t)) <;> exact fun _ => rfl

theorem mem_unmapRange (pd : PageDirectory) (t : Traced) (virt size : BitVec 32) :
    (unmapRange pd t virt size).mem = pd.unmapRange t.mem virt size := by
  simp only [unmapRange, PageDirectory.unmapRange, writeCr3]
  generalize 2 ^ 32 = fuel
  refine congrArg (·.2) (whileLoop_map (fun st : BitVec 32 × Traced => (st.1, st.2.mem)) ?_ ?_ fuel
    (pageDown virt, t)) <;> exact fun _ => rfl

theorem mem_markPages {write : Traced → BitVec 32 → Traced} {write' : Mem → BitVec 32 → Mem}
    (hwrite : ∀ t i, (write t i).mem = write' t.mem i) (t : Traced) (pageIndex count : BitVec 32) :
    (markPages write t pageIndex count).mem = VMM.markPages write' t.mem pageIndex count := by
  simp only [markPages, VMM.markPages]
  generalize 2 ^ 32 = fuel
  refine congrArg (·.2) (whileLoop_map (fun st : BitVec 32 × Traced => (st.1, st.2.mem)) ?_ ?_ fuel
    (pageIndex, t))
  · exact fun _ => rfl
  · exact fun st => Prod.ext rfl (hwrite st.2 st.1).symm

theorem mem_markUsed (vmm : VMM) (t : Traced) (pageIndex count : BitVec 32) :
    (markUsed vmm t pageIndex count).mem = vmm.markUsed t.mem pageIndex count := by
  rw [markUsed, VMM.markUsed]
  apply mem_markPages
  exact fun _ _ => rfl

theorem mem_markFree (vmm : VMM) (t : Traced) (pageIndex count : BitVec 32) :
    (markFree vmm t pageIndex count).mem = vmm.markFree t.mem pageIndex count := by
  rw [markFree, VMM.markFree]
  apply mem_markPages
  exact fun _ _ => rfl

theorem mem_mapFrames (vmm : VMM) (t : Traced) (virtAddr : BitVec 32) (n : Nat) :
    (mapFrames vmm t virtAddr n).mem = (vmm.mapFrames t.mem virtAddr n).1 := by
  induction n with
  | zero => rfl
  | succ n ih =>
    obtain ⟨hmem, hframe⟩ := mem_allocFrame vmm.fa (mapFrames vmm t virtAddr n)
    rw [mapFrames, VMM.mapFrames, mem_mapRange, hmem, hframe, ih]

theorem mem_unmapPage (vmm : VMM) (t : Traced) (virtAddr : BitVec 32) :
    (unmapPage vmm t virtAddr).mem = vmm.unmapPage t.mem virtAddr := by
  have hmem := mem_unmapRange vmm.pd t virtAddr pageSize
  rw [unmapPage, VMM.unmapPage, ← hmem]
  rfl

theorem mem_unmapPages (vmm : VMM) (t : Traced) (addr : BitVec 32) (n : Nat) :
    ((List.range n).foldl (fun t i =>
      unmapPage vmm t (addr + BitVec.ofNat 32 i * pageSize)) t).mem =
    (List.range n).foldl (fun m i =>
      vmm.unmapPage m (addr + BitVec.ofNat 32 i * pageSize)) t.mem := by
  induction n with
  | zero => rfl
  | succ n ih =>
    rw [List.range_succ, List.foldl_append, List.foldl_append, List.foldl_cons, List.foldl_nil,
      List.foldl_cons, List.foldl_nil, mem_unmapPage, ih]

/-- The steps of `alloc_pages` lead to the memory that it leaves. -/
theorem mem_allocPages (vmm : VMM) (t : Traced) (numPages : BitVec 32) :
    (allocPages vmm t numPages).1.mem = (vmm.allocPages t.mem numPages).1 := by
  simp only [allocPages, VMM.allocPages]
  split
  · rfl
  · rw [mem_markUsed, mem_mapFrames]

/-- And so do those of `free_pages`. -/
theorem mem_freePages (vmm : VMM) (t : Traced) (addr numPages : BitVec 32) :
    (freePages vmm t addr numPages).mem = vmm.freePages t.mem addr numPages := by
  rw [freePages, VMM.freePages, mem_markFree, mem_unmapPages]

/-! ### The steps -/

/-- `alloc_frame` stores at most once. -/
theorem allocFrame_steps (fa : FrameAllocator) (t : Traced) :
    (allocFrame fa t).1 = t ∨ ∃ a v, (allocFrame fa t).1 = t.store a v := by
  have hfrom : ∀ n i, (allocFrom fa t n i).1 = t ∨ ∃ a v, (allocFrom fa t n i).1 = t.store a v := by
    intro n
    induction n with
    | zero => exact fun _ => Or.inl rfl
    | succ n ih =>
      intro i
      simp only [allocFrom]
      split
      · exact ih (i + 1)
      · cases FrameAllocator.findClear (t.mem.load32 (fa.bitmap + 4 * BitVec.ofNat 32 i)) with
        | none => exact ih (i + 1)
        | some j => exact Or.inr ⟨_, _, rfl⟩
  exact hfrom _ 0

/-- A loop over the pages of a range of one page has one round. -/
theorem whileLoop_page {σ : Type} {virt : BitVec 32} (hvirt : virt.toNat / 4096 + 1 < 2 ^ 20)
    (f : BitVec 32 × σ → σ) (s : σ) :
    whileLoop (fun st : BitVec 32 × σ => st.1 < pageDown virt + pageUp pageSize)
      (fun st => (st.1 + pageSize, f st)) (2 ^ 32) (pageDown virt, s) =
        (pageDown virt + pageSize, f (pageDown virt, s)) := by
  have hdown := pageDown_toNat virt
  have hup : pageUp pageSize = pageSize := by decide
  rw [hup]
  apply whileLoop_eq_iterate (n := 1) (by decide)
  · intro k hk
    rw [Nat.lt_one_iff.mp hk]
    exact decide_eq_true (show pageDown virt < pageDown virt + pageSize by bv_omega)
  · exact decide_eq_false (BitVec.lt_irrefl (pageDown virt + pageSize))

/-- `map_range` of one page stores its entry. -/
theorem mapRange_steps (pd : PageDirectory) (t : Traced) (virt phys : BitVec 32)
    (hvirt : virt.toNat / 4096 + 1 < 2 ^ 20) :
    ∃ a v, mapRange pd t virt phys pageSize = t.store a v := by
  simp only [mapRange, whileLoop_page hvirt]
  exact ⟨_, _, rfl⟩

/-- `unmap_range` of one page clears its entry and empties the cache. -/
theorem unmapRange_steps (pd : PageDirectory) (t : Traced) (virt : BitVec 32)
    (hvirt : virt.toNat / 4096 + 1 < 2 ^ 20) :
    ∃ a v, unmapRange pd t virt pageSize = (t.store a v).writeCr3 := by
  simp only [unmapRange, whileLoop_page hvirt]
  exact ⟨_, _, rfl⟩

end Traced

/-! ### The processor -/

/-- The memory, and the entry that the processor has cached for each page. -/
structure Mmu where
  mem : Mem
  tlb : Nat → Option (BitVec 32)

def Micro.act : Micro → Mmu → Mmu
  | .store addr value, c => { c with mem := c.mem.store32 addr value }
  | .writeCr3, c => { c with tlb := fun _ => none }

/-- The processor caches the entry of a page, which must be present. -/
inductive Fill (pd : PageDirectory) : Mmu → Mmu → Prop
  | page (c : Mmu) {p : Nat} (hp : p < 2 ^ 20) (hpresent : present (pd.pte c.mem p) = true) :
      Fill pd c { c with tlb := Function.update c.tlb p (some (pd.pte c.mem p)) }

namespace VMM

/-- The pages of the region. -/
def region : Set Nat := {p | 0xD0000 ≤ p ∧ p < 0xF0000}

theorem succ_lt_of_mem_region {p : Nat} (hp : p ∈ region) : p + 1 < 2 ^ 20 := by
  have hlt : p < 0xF0000 := hp.2
  omega

theorem lt_of_mem_region {p : Nat} (hp : p ∈ region) : p < 2 ^ 20 :=
  Nat.lt_of_succ_lt (succ_lt_of_mem_region hp)

/-- No cached translation of a page of the region leads to a free frame. -/
def NoStale (vmm : VMM) (c : Mmu) : Prop := ∀ i < 131072, ∀ e ∈ c.tlb (0xD0000 + i),
  vmm.fa.used c.mem ((pageDown e).toNat / 4096) = true

/-- The entry names a frame in use that `alloc_frame` may have returned. -/
structure InUse (vmm : VMM) (m : Mem) (entry : BitVec 32) : Prop where
  scanned : (pageDown entry).toNat / 4096 < vmm.fa.scanned
  used : vmm.fa.used m ((pageDown entry).toNat / 4096) = true

/-- The cached entries of the region are current, and the present ones name frames in use. -/
def Covered (vmm : VMM) (m : Mem) (tlb : Nat → Option (BitVec 32)) : Prop :=
  Covers present region (vmm.pd.pte m) (vmm.InUse m) tlb

/-- Where no page of the region is mapped or cached. -/
theorem covered_of_absent {vmm : VMM} {m : Mem} {tlb : Nat → Option (BitVec 32)}
    (habsent : ∀ i < 131072, present (vmm.pd.pte m (0xD0000 + i)) = false)
    (htlb : ∀ i < 131072, tlb (0xD0000 + i) = none) : vmm.Covered m tlb := by
  have hpage : ∀ p ∈ region, ∃ i < 131072, p = 0xD0000 + i := by
    intro p hp
    have hlow : 0xD0000 ≤ p := hp.1
    have hhigh : p < 0xF0000 := hp.2
    exact ⟨p - 0xD0000, by omega, by omega⟩
  refine ⟨fun p hp e he => ?_, fun p hp hpresent => ?_⟩
  · obtain ⟨i, hi, rfl⟩ := hpage p hp
    rw [htlb i hi] at he
    cases he
  · obtain ⟨i, hi, rfl⟩ := hpage p hp
    rw [habsent i hi] at hpresent
    cases hpresent

/-- The processor keeps `P` of its cache, and it is enough for `NoStale`. -/
def Keeps (vmm : VMM) (m : Mem) (P : (Nat → Option (BitVec 32)) → Prop) : Prop :=
  Stable (Fill vmm.pd) vmm.NoStale fun c => c.mem = m ∧ P c.tlb

variable {vmm : VMM} {m m' : Mem} {tlb : Nat → Option (BitVec 32)}

theorem keeps_covered (vmm : VMM) (m : Mem) : vmm.Keeps m (vmm.Covered m) := by
  refine ⟨fun c c' h hfill => ?_, fun c h i hi e he => ?_⟩
  · obtain ⟨rfl, hcovered⟩ := h
    cases hfill with
    | page hp hpresent => exact ⟨rfl, hcovered.fill hpresent⟩
  · obtain ⟨rfl, hcovered⟩ := h
    exact (hcovered.cached (show 0xD0000 + i ∈ region from ⟨by omega, by omega⟩) he).used

theorem keeps_stale (vmm : VMM) (m : Mem) (p : Nat) (e : BitVec 32) :
    vmm.Keeps m (Stale present region (vmm.pd.pte m) (vmm.InUse m) p e) := by
  refine ⟨fun c c' h hfill => ?_, fun c h i hi e he => ?_⟩
  · obtain ⟨rfl, hstale⟩ := h
    cases hfill with
    | page hp hpresent => exact ⟨rfl, hstale.fill hpresent⟩
  · obtain ⟨rfl, hstale⟩ := h
    exact (hstale.cached (show 0xD0000 + i ∈ region from ⟨by omega, by omega⟩) he).used

/-- However the processor fills its cache while the steps of `t` run from `c` on, no translation is
stale, and at the end `P` holds of the cache. -/
structure Leads (vmm : VMM) (c : Mmu) (t : Traced) (P : (Nat → Option (BitVec 32)) → Prop) :
    Prop where
  run : Guarantees Micro.act (Fill vmm.pd) vmm.NoStale (fun d => d.mem = t.mem ∧ P d.tlb) t.steps c

variable {c : Mmu} {t : Traced} {P Q : (Nat → Option (BitVec 32)) → Prop}

theorem Leads.store {addr value : BitVec 32} (hQ : vmm.Keeps (t.store addr value).mem Q)
    (h : vmm.Leads c t P) (hPQ : ∀ tlb, P tlb → Q tlb) : vmm.Leads c (t.store addr value) Q := by
  refine ⟨Guarantees.snoc hQ h.run fun d hd => ?_⟩
  obtain ⟨hmem, hP⟩ := hd
  exact ⟨congrArg (·.store32 addr value) hmem, hPQ d.tlb hP⟩

theorem Leads.writeCr3 (hQ : vmm.Keeps t.mem Q) (h : vmm.Leads c t P)
    (hPQ : ∀ tlb, P tlb → Q fun _ => none) : vmm.Leads c t.writeCr3 Q := by
  refine ⟨Guarantees.snoc hQ h.run fun d hd => ?_⟩
  obtain ⟨hmem, hP⟩ := hd
  exact ⟨hmem, hPQ d.tlb hP⟩

/-- A change outside the directory and the page tables that frees no frame. -/
theorem Covered.of_changesOnly {S : Set (BitVec 32)} (h : vmm.Covered m tlb)
    (hw : vmm.pd.Wired m) (hc : ChangesOnly S m m') (hd : Disjoint (span vmm.pd.entries 4096) S)
    (ht : Disjoint (span pageTablesBase 0x400000) S)
    (hused : ∀ f < vmm.fa.scanned, vmm.fa.used m f = true → vmm.fa.used m' f = true) :
    vmm.Covered m' tlb := by
  refine Covers.allow h (fun q hq => hw.pte_of_changesOnly hc hd ht (lt_of_mem_region hq)) ?_
  intro q _ _ hin
  exact ⟨hin.scanned, hused _ hin.scanned hin.used⟩

/-! ### The functions, on one page -/

theorem Leads.allocFrame (hl : vmm.Laid) (hw : vmm.pd.Wired t.mem)
    (h : vmm.Leads c t (vmm.Covered t.mem)) : vmm.Leads c (Traced.allocFrame vmm.fa t).1
      (vmm.Covered (Traced.allocFrame vmm.fa t).1.mem) := by
  have hscanned := hl.scanned_le
  have hmem := (Traced.mem_allocFrame vmm.fa t).1
  rcases Traced.allocFrame_steps vmm.fa t with heq | ⟨addr, value, heq⟩
  · rw [heq]
    exact h
  · rw [heq] at hmem ⊢
    refine h.store (vmm.keeps_covered _) fun tlb hcovered => ?_
    rw [hmem]
    refine hcovered.of_changesOnly hw (hl.changesOnly_allocFrame t.mem) hl.directory_frames
      hl.tables_frames fun f hf hused => ?_
    rw [FrameAllocator.used_allocFrame hl.size (by omega), hused, Bool.true_or]

/-- The entry that `map_range` sets was not present. -/
theorem Leads.mapRange (hl : vmm.Laid) (hw : vmm.pd.Wired t.mem) {virt : BitVec 32} {p f : Nat}
    (hvirt : virt.toNat / 4096 = p) (hp : p ∈ region)
    (habsent : present (vmm.pd.pte t.mem p) = false) (hf : f < vmm.fa.scanned)
    (hused : vmm.fa.used t.mem f = true) (h : vmm.Leads c t (vmm.Covered t.mem)) :
    vmm.Leads c (Traced.mapRange vmm.pd t virt (frameAddr f) pageSize)
      (vmm.Covered (Traced.mapRange vmm.pd t virt (frameAddr f) pageSize).mem) := by
  have hlt := succ_lt_of_mem_region hp
  have hscanned := hl.scanned_le
  have htracked := vmm.fa.scanned_le_tracked
  have hmem := Traced.mem_mapRange vmm.pd t virt (frameAddr f) pageSize
  obtain ⟨-, hchanges, hpte⟩ := mapRange_page hw hvirt hlt (frameAddr_aligned f)
  obtain ⟨addr, value, heq⟩ := Traced.mapRange_steps vmm.pd t virt (frameAddr f) (by rwa [hvirt])
  rw [heq] at hmem ⊢
  refine h.store (vmm.keeps_covered _) fun tlb hcovered => ?_
  rw [hmem]
  have hframe : (pageDown (mapped (frameAddr f))).toNat / 4096 = f := by
    rw [pageDown_mapped (frameAddr_aligned f), page_frameAddr (by omega)]
  have hinUse : vmm.InUse t.mem (mapped (frameAddr f)) := by
    refine ⟨?_, ?_⟩ <;> rw [hframe]
    · exact hf
    · exact hused
  have hnew : Covers present region (vmm.pd.pte (vmm.pd.mapRange t.mem virt (frameAddr f) pageSize))
      (vmm.InUse t.mem) tlb :=
    Covers.map hcovered hp habsent ((hpte p (by omega)).trans (if_pos rfl))
      (fun q hq hqp => (hpte q (lt_of_mem_region hq)).trans (if_neg hqp)) hinUse
  refine hnew.allow (fun _ _ => rfl) fun q _ _ hin => ⟨hin.scanned, ?_⟩
  rw [FrameAllocator.used_of_changesOnly hchanges hl.tables_frames.symm
    (lt_of_lt_of_le hin.scanned htracked)]
  exact hin.used

/-- The cache may hold the entry that `unmap_range` clears until the write of `CR3`. -/
theorem Leads.unmapRange (hl : vmm.Laid) (hw : vmm.pd.Wired t.mem) {virt : BitVec 32} {p : Nat}
    (hvirt : virt.toNat / 4096 = p) (hp : p ∈ region)
    (hpresent : present (vmm.pd.pte t.mem p) = true) (h : vmm.Leads c t (vmm.Covered t.mem)) :
    vmm.Leads c (Traced.unmapRange vmm.pd t virt pageSize)
      (vmm.Covered (Traced.unmapRange vmm.pd t virt pageSize).mem) := by
  have hlt := succ_lt_of_mem_region hp
  have htracked := vmm.fa.scanned_le_tracked
  have hmem := Traced.mem_unmapRange vmm.pd t virt pageSize
  obtain ⟨-, hchanges, hpte⟩ := unmapRange_page hw hvirt hlt
  obtain ⟨addr, value, heq⟩ := Traced.unmapRange_steps vmm.pd t virt (by rwa [hvirt])
  rw [heq] at hmem ⊢
  have hstore : (t.store addr value).mem = vmm.pd.unmapRange t.mem virt pageSize := hmem
  have hstale := h.store (vmm.keeps_stale (t.store addr value).mem p (vmm.pd.pte t.mem p))
    fun tlb hcovered => by
      rw [hstore]
      have hallow : Covers present region (vmm.pd.pte t.mem)
          (vmm.InUse (vmm.pd.unmapRange t.mem virt pageSize)) tlb := by
        refine Covers.allow hcovered (fun _ _ => rfl) fun q _ _ hin => ⟨hin.scanned, ?_⟩
        rw [FrameAllocator.used_of_changesOnly hchanges hl.tables_frames.symm
          (lt_of_lt_of_le hin.scanned htracked)]
        exact hin.used
      refine hallow.unmap hp hpresent ?_ fun q hq hqp =>
        (hpte q (lt_of_mem_region hq)).trans (if_neg hqp)
      rw [hpte p (by omega), if_pos rfl]
      rfl
  exact hstale.writeCr3 (vmm.keeps_covered _) fun tlb hold => hold.flush

/-- A frame that no page of the region has may be freed. -/
theorem Leads.freeFrame (hl : vmm.Laid) (hw : vmm.pd.Wired t.mem) {f : Nat}
    (hf : f < vmm.fa.scanned) (hfree : ∀ q ∈ region, present (vmm.pd.pte t.mem q) = true →
      (pageDown (vmm.pd.pte t.mem q)).toNat / 4096 ≠ f) (h : vmm.Leads c t (vmm.Covered t.mem)) :
    vmm.Leads c (Traced.freeFrame vmm.fa t (frameAddr f))
      (vmm.Covered (Traced.freeFrame vmm.fa t (frameAddr f)).mem) := by
  have hscanned := hl.scanned_le
  refine Leads.store (vmm.keeps_covered _) h fun tlb hcovered => ?_
  refine Covers.allow hcovered (fun q hq => hw.pte_of_changesOnly
    (hl.changesOnly_freeFrame t.mem (Or.inl hf)) hl.directory_frames hl.tables_frames
    (lt_of_mem_region hq)) fun q hq hpresent hin => ⟨hin.scanned, ?_⟩
  have hbit : vmm.fa.used (vmm.fa.freeFrame t.mem (frameAddr f)) _ = _ :=
    FrameAllocator.used_freeFrame (frameAddr f) (lt_of_lt_of_le hin.scanned hscanned)
  rw [page_frameAddr (by omega), hin.used,
    decide_eq_false (hfree q hq hpresent)] at hbit
  exact hbit

/-- Marking pages stores to the bitmap of the region only. -/
theorem Leads.markPages (hl : vmm.Laid) {write : Traced → BitVec 32 → Traced}
    (hwrite : ∀ t i, ∃ v, write t i = t.store (bitWord vmm.bitmap i) v)
    {pageIndex count : BitVec 32}
    (hbound : ∀ j, pageIndex.toNat ≤ j → j < pageIndex.toNat + count.toNat → j < 131072)
    (hw : vmm.pd.Wired t.mem) (h : vmm.Leads c t (vmm.Covered t.mem)) :
    vmm.Leads c (Traced.markPages write t pageIndex count)
      (vmm.Covered (Traced.markPages write t pageIndex count).mem) := by
  rw [Traced.markPages, whileLoop_pages hbound]
  have hfold := List.foldlRecOn (List.range' pageIndex.toNat count.toNat)
    (fun t p => write t (BitVec.ofNat 32 p))
    (motive := fun t => vmm.pd.Wired t.mem ∧ vmm.Leads c t (vmm.Covered t.mem)) ⟨hw, h⟩ ?_
  · exact hfold.2
  · rintro t ⟨hw, h⟩ p hp
    rw [List.mem_range'_1] at hp
    have hlt := hbound p hp.1 hp.2
    obtain ⟨v, heq⟩ := hwrite t (BitVec.ofNat 32 p)
    rw [heq]
    have hchanges : ChangesOnly vmm.pageBits t.mem
        (t.store (bitWord vmm.bitmap (BitVec.ofNat 32 p)) v).mem :=
      (Mem.changesOnly_store32 _ _ _).mono (bitWord_pageBits (by
        rw [BitVec.toNat_ofNat, Nat.mod_eq_of_lt (by omega)]
        exact hlt))
    refine ⟨hw.of_changesOnly hchanges hl.directory_pages,
      h.store (vmm.keeps_covered _) fun tlb hcovered => ?_⟩
    refine hcovered.of_changesOnly hw hchanges hl.directory_pages hl.tables_pages ?_
    intro f hf hused
    rw [FrameAllocator.used_of_changesOnly hchanges hl.frames_pages
      (lt_of_lt_of_le hf vmm.fa.scanned_le_tracked)]
    exact hused

/-! ### The calls -/

variable {m0 : Mem} {s : VmmState}

/-- The loop of `alloc_pages`. -/
theorem Leads.mapFrames (hl : vmm.Laid) (hc : vmm.Consistent m0 s) {start n k : Nat}
    (hrange : vmm.FreeRange s.mem k start) (henough : k ≤ (vmm.fa.freeFrames s.mem).length)
    (hn : n ≤ k) (ht : t.mem = s.mem) (h : vmm.Leads c t (vmm.Covered t.mem)) :
    vmm.Leads c (Traced.mapFrames vmm t (vmmRegionStart + BitVec.ofNat 32 start * pageSize) n)
      (vmm.Covered
        (Traced.mapFrames vmm t (vmmRegionStart + BitVec.ofNat 32 start * pageSize) n).mem) := by
  have hk := hrange.1
  induction n with
  | zero => exact h
  | succ n ih =>
    have hscanned := hl.scanned_le
    have hmem := Traced.mem_mapFrames vmm t (vmmRegionStart + BitVec.ofNat 32 start * pageSize) n
    obtain ⟨-, hbacks, -⟩ := mapFrames_spec hl hc.tracks.wired (show start + n ≤ 131072 by omega)
    rw [ht] at hmem
    rw [← hmem] at hbacks
    rw [Traced.mapFrames]
    set t1 := Traced.mapFrames vmm t (vmmRegionStart + BitVec.ofNat 32 start * pageSize) n
    obtain ⟨hframemem, hframe⟩ := Traced.mem_allocFrame vmm.fa t1
    have hchanges := hl.changesOnly_allocFrame t1.mem
    rw [← hframemem] at hchanges
    -- the frame that is taken, in use after that
    obtain ⟨f, rest, hfree⟩ : ∃ f rest, vmm.fa.freeFrames t1.mem = f :: rest := by
      refine List.exists_cons_of_ne_nil (List.ne_nil_of_length_pos ?_)
      rw [hbacks.free, List.length_drop]
      omega
    have hf : f < vmm.fa.scanned :=
      (FrameAllocator.mem_freeFrames.mp (by rw [hfree]; exact List.mem_cons_self)).1
    rw [(FrameAllocator.allocFrame_freeFrames hl.size).1, hfree, List.headD_cons] at hframe
    have hused : vmm.fa.used (Traced.allocFrame vmm.fa t1).1.mem f = true := by
      rw [hframemem, FrameAllocator.used_allocFrame hl.size (by omega), hfree]
      simp
    -- the page that is mapped, not present before
    have hpage : (vmmRegionStart + BitVec.ofNat 32 start * pageSize +
        BitVec.ofNat 32 n * pageSize).toNat / 4096 = 0xD0000 + (start + n) := by bv_omega
    have habsent : present (vmm.pd.pte (Traced.allocFrame vmm.fa t1).1.mem
        (0xD0000 + (start + n))) = false := by
      rw [hbacks.wired.pte_of_changesOnly hchanges hl.directory_frames hl.tables_frames (by omega),
        hbacks.pte_old (by omega) (by omega)]
      refine hc.absent _ (by omega) fun hlive => ?_
      exact hc.tracks.not_mem_range hrange hlive (by omega)
    rw [hframe]
    exact Leads.mapRange hl (hbacks.wired.of_changesOnly hchanges hl.directory_frames) hpage
      (show 0xD0000 + (start + n) ∈ region from ⟨by omega, by omega⟩) habsent hf hused
      (Leads.allocFrame hl hbacks.wired (ih (by omega)))

theorem Leads.allocPages (hl : vmm.Laid) (hc : vmm.Consistent m0 s) {numPages : BitVec 32}
    (hok : vmm.NoZero s (.alloc numPages)) (ht : t.mem = s.mem)
    (h : vmm.Leads c t (vmm.Covered t.mem)) : vmm.Leads c (Traced.allocPages vmm t numPages).1
      (vmm.Covered (Traced.allocPages vmm t numPages).1.mem) := by
  rcases findFreeRange_cases hl s.mem numPages with ⟨-, hfind⟩ | ⟨start, -, ⟨hrange, -⟩, hfind⟩
  · simp only [Traced.allocPages, ht, hfind]
    exact h
  · have hstart := hrange.1
    have hfound : BitVec.ofNat 32 start ≠ 0xFFFFFFFF#32 := by bv_omega
    obtain ⟨hlog, hbacks, -⟩ := mapFrames_spec hl hc.tracks.wired hstart
    have henough : numPages.toNat ≤ (vmm.fa.freeFrames s.mem).length := by
      simp only [NoZero, framesTaken, hfind, hfound, if_false, hl.regionStart] at hok
      rw [hlog] at hok
      exact length_of_noZero hok
    have hmap := h.mapFrames hl hc hrange henough (le_refl _) ht
    have hmem := Traced.mem_mapFrames vmm t (vmmRegionStart + BitVec.ofNat 32 start * pageSize)
      numPages.toNat
    rw [ht] at hmem
    rw [← hmem] at hbacks
    simp only [Traced.allocPages, ht, hfind, hfound, if_false, hl.regionStart]
    refine hmap.markPages hl (fun _ _ => ⟨_, rfl⟩) (fun j h1 h2 => ?_) hbacks.wired
    rw [BitVec.toNat_ofNat, Nat.mod_eq_of_lt (by omega)] at h2
    omega

/-- One round of the loop of `free_pages`, on a page whose frame no other page has. -/
theorem Leads.unmapPage (hl : vmm.Laid) (hw : vmm.pd.Wired t.mem) {virt : BitVec 32} {p f : Nat}
    (hvirt : virt.toNat / 4096 = p) (hp : p ∈ region) (hf : f < vmm.fa.scanned)
    (hpte : vmm.pd.pte t.mem p = mapped (frameAddr f))
    (hother : ∀ q ∈ region, q ≠ p → present (vmm.pd.pte t.mem q) = true →
      (pageDown (vmm.pd.pte t.mem q)).toNat / 4096 ≠ f) (h : vmm.Leads c t (vmm.Covered t.mem)) :
    vmm.Leads c (Traced.unmapPage vmm t virt) (vmm.Covered (Traced.unmapPage vmm t virt).mem) := by
  have hmem := Traced.mem_unmapRange vmm.pd t virt pageSize
  obtain ⟨hwired, -, hunmap⟩ := unmapRange_page hw hvirt (succ_lt_of_mem_region hp)
  rw [← hmem] at hwired hunmap
  have hphys : t.mem.load32 (vmm.pd.pteAddr t.mem virt) &&& ~~~0xFFF#32 = frameAddr f := by
    rw [hw.pteAddr_eq, hvirt, ← hw.pte_eq (lt_of_mem_region hp), hpte]
    exact pageDown_mapped (frameAddr_aligned f)
  rw [Traced.unmapPage, hphys]
  refine (h.unmapRange hl hw hvirt hp (by rw [hpte]; exact present_mapped _)).freeFrame hl hwired hf
    fun q hq hpresent => ?_
  rw [hunmap q (lt_of_mem_region hq)] at hpresent ⊢
  by_cases hqp : q = p
  · rw [if_pos hqp] at hpresent
    cases hpresent
  · rw [if_neg hqp] at hpresent ⊢
    exact hother q hq hqp hpresent

/-- The loop of `free_pages`. -/
theorem Leads.unmapPages (hl : vmm.Laid) (hc : vmm.Consistent m0 s) {addr : BitVec 32}
    {start n k : Nat} (haddr : addr.toNat / 4096 = 0xD0000 + start) (hk : start + k ≤ 131072)
    (hlive : ∀ i < k, start + i ∈ s.pages) (hn : n ≤ k) (ht : t.mem = s.mem)
    (h : vmm.Leads c t (vmm.Covered t.mem)) :
    let t' := (List.range n).foldl (fun t i =>
      Traced.unmapPage vmm t (addr + BitVec.ofNat 32 i * pageSize)) t
    vmm.pd.Wired t'.mem ∧ vmm.Leads c t' (vmm.Covered t'.mem) := by
  have hframe : ∀ i < k, vmm.pd.pte s.mem (0xD0000 + start + i) =
      mapped (frameAddr (vmm.frameOf s.mem (start + i))) ∧
      (vmm.frameOf s.mem (start + i) < vmm.fa.scanned ∨ vmm.frameOf s.mem (start + i) = 0) := by
    intro i hi
    rw [Nat.add_assoc]
    exact hc.tracks.frame _ (hlive i hi)
  have hreleases : ∀ n ≤ k, vmm.Releases s.mem ((List.range n).foldl (fun t i =>
      Traced.unmapPage vmm t (addr + BitVec.ofNat 32 i * pageSize)) t).mem start n
      (fun i => vmm.frameOf s.mem (start + i)) := by
    intro n hn
    rw [Traced.mem_unmapPages, ht]
    exact (unmapPages_spec hl hc.tracks.wired haddr (by omega)
      fun i hi => hframe i (by omega)).1
  intro t'
  refine ⟨(hreleases n hn).wired, ?_⟩
  induction n with
  | zero => exact h
  | succ n ih =>
    have hrel := hreleases n (by omega)
    have hpage := hlive n (by omega)
    have hbound := hc.tracks.bound _ hpage
    simp only [t', List.range_succ, List.foldl_append, List.foldl_cons, List.foldl_nil]
    refine (ih (by omega)).unmapPage hl hrel.wired (page_add haddr (by omega))
      (show 0xD0000 + start + n ∈ region from ⟨by omega, by omega⟩) (hc.fresh _ hpage).1 ?_ ?_
    · rw [hrel.pte _ (by omega), if_neg (by omega)]
      exact (hframe n (by omega)).1
    · -- another page that is still present is live, and has another frame
      intro q hq hqp hpresent
      obtain ⟨i, rfl⟩ : ∃ i, q = 0xD0000 + i := ⟨q - 0xD0000, by have := hq.1; omega⟩
      have hi : i < 131072 := by
        have hlt : 0xD0000 + i < 0xF0000 := hq.2
        omega
      rw [hrel.pte _ (by omega)] at hpresent ⊢
      by_cases hin : 0xD0000 + start ≤ 0xD0000 + i ∧ 0xD0000 + i < 0xD0000 + start + n
      · rw [if_pos hin] at hpresent
        cases hpresent
      · rw [if_neg hin] at hpresent ⊢
        intro heq
        have := hc.distinct i ((hc.present_iff hi).mp hpresent) _ hpage heq
        omega

theorem Leads.freePages (hl : vmm.Laid) (hc : vmm.Consistent m0 s) {addr numPages : BitVec 32}
    (hlegal : s.Legal (.free addr numPages)) (ht : t.mem = s.mem)
    (h : vmm.Leads c t (vmm.Covered t.mem)) : vmm.Leads c (Traced.freePages vmm t addr numPages)
      (vmm.Covered (Traced.freePages vmm t addr numPages).mem) := by
  rw [Traced.freePages, Traced.markFree]
  by_cases hne : numPages.toNat = 0
  · have hw : vmm.pd.Wired t.mem := by
      rw [ht]
      exact hc.tracks.wired
    rw [hne]
    exact h.markPages hl (fun _ _ => ⟨_, rfl⟩) (fun j h1 h2 => by omega) hw
  · obtain ⟨start, haddr, hend, hlive, -⟩ := legal_free_cases hc.tracks hlegal hne
    obtain ⟨hwired, hleads⟩ := h.unmapPages hl hc haddr hend hlive (le_refl _) ht
    refine hleads.markPages hl (fun _ _ => ⟨_, rfl⟩) (fun j h1 h2 => ?_) hwired
    have hidx : ((addr - vmm.regionStart) / pageSize).toNat = start := by
      rw [hl.regionStart, BitVec.toNat_udiv, show pageSize.toNat = 4096 from rfl]
      bv_omega
    omega

end VMM

/-! ### Every run -/

/-- The processor in the course of a run, with the live allocations and the steps of the current call
that are still to come. -/
structure Kernel where
  mmu : Mmu
  live : List (List Nat)
  todo : List Micro

namespace Kernel

def vmmState (k : Kernel) : VmmState := ⟨k.mmu.mem, k.live⟩

end Kernel

/-- The steps of a call. -/
def VmmOp.steps (vmm : VMM) (m : Mem) : VmmOp → List Micro
  | .alloc numPages => (Traced.allocPages vmm ⟨m, []⟩ numPages).1.steps
  | .free addr numPages => (Traced.freePages vmm ⟨m, []⟩ addr numPages).steps

/-- The processor caches an entry, makes the next step of the call, or begins a call when the one
before has ended. -/
inductive KernelStep (vmm : VMM) : Kernel → Kernel → Prop
  | fill {k : Kernel} {c : Mmu} (hfill : Fill vmm.pd k.mmu c) : KernelStep vmm k { k with mmu := c }
  | micro {k : Kernel} {a : Micro} {rest : List Micro} (htodo : k.todo = a :: rest) :
      KernelStep vmm k { k with mmu := a.act k.mmu, todo := rest }
  | call {k : Kernel} {op : VmmOp} (hidle : k.todo = []) (hlegal : k.vmmState.Legal op)
      (hok : vmm.NoZero k.vmmState op) :
      KernelStep vmm k { k with
        live := (k.vmmState.apply vmm op).live
        todo := op.steps vmm k.mmu.mem }

namespace Kernel

def Runs (vmm : VMM) : Kernel → Kernel → Prop := Relation.ReflTransGen (KernelStep vmm)

/-- Whatever the processor caches in the rest of the call, no translation is stale, and at the end
the virtual memory manager is consistent and its cached translations are current. -/
def Sound (vmm : VMM) (m0 : Mem) (k : Kernel) : Prop :=
  Guarantees Micro.act (Fill vmm.pd) vmm.NoStale
    (fun c => vmm.Consistent m0 ⟨c.mem, k.live⟩ ∧ vmm.Covered c.mem c.tlb) k.todo k.mmu

variable {vmm : VMM} {m0 : Mem} {k k' : Kernel}

theorem sound_of_idle {m : Mem} {tlb : Nat → Option (BitVec 32)} {live : List (List Nat)}
    (hc : vmm.Consistent m0 ⟨m, live⟩) (hcovered : vmm.Covered m tlb) :
    Sound vmm m0 ⟨⟨m, tlb⟩, live, []⟩ := by
  refine (Guarantees.nil (vmm.keeps_covered m) ⟨rfl, hcovered⟩).mono fun c hend => ?_
  obtain ⟨hmem, hend⟩ := hend
  rw [hmem]
  exact ⟨hc, hend⟩

theorem Sound.idle (h : k.Sound vmm m0) (hidle : k.todo = []) :
    vmm.Consistent m0 k.vmmState ∧ vmm.Covered k.mmu.mem k.mmu.tlb := by
  rw [Sound, hidle] at h
  exact h.post_now

theorem Sound.call (hl : vmm.Laid) (h : k.Sound vmm m0) (hidle : k.todo = []) {op : VmmOp}
    (hlegal : k.vmmState.Legal op) (hok : vmm.NoZero k.vmmState op) :
    Sound vmm m0 { k with
      live := (k.vmmState.apply vmm op).live
      todo := op.steps vmm k.mmu.mem } := by
  obtain ⟨hc, hcovered⟩ := h.idle hidle
  have hstart : vmm.Leads k.mmu ⟨k.mmu.mem, []⟩ (vmm.Covered k.mmu.mem) :=
    ⟨Guarantees.nil (vmm.keeps_covered _) ⟨rfl, hcovered⟩⟩
  cases op with
  | alloc numPages =>
    have hleads := hstart.allocPages hl hc hok rfl
    refine hleads.run.mono fun c hend => ?_
    obtain ⟨hmem, hend⟩ := hend
    rw [Traced.mem_allocPages] at hmem
    refine ⟨?_, ?_⟩
    · rw [hmem]
      exact hc.alloc hl hok
    · rw [hmem, ← Traced.mem_allocPages]
      exact hend
  | free addr numPages =>
    have hleads := hstart.freePages hl hc hlegal rfl
    refine hleads.run.mono fun c hend => ?_
    obtain ⟨hmem, hend⟩ := hend
    rw [Traced.mem_freePages] at hmem
    refine ⟨?_, ?_⟩
    · rw [hmem]
      exact hc.free hl hlegal
    · rw [hmem, ← Traced.mem_freePages]
      exact hend

theorem Sound.step (hl : vmm.Laid) (h : k.Sound vmm m0) (hstep : KernelStep vmm k k') :
    k'.Sound vmm m0 := by
  cases hstep with
  | fill hfill => exact h.env_step hfill
  | micro htodo =>
    rw [Sound, htodo] at h
    exact h.act_step
  | call hidle hlegal hok => exact h.call hl hidle hlegal hok

/-- The processor may make all the steps of a call. -/
theorem runs_todo (vmm : VMM) (c : Mmu) (live : List (List Nat)) (todo : List Micro) :
    ∃ c', Runs vmm ⟨c, live, todo⟩ ⟨c', live, []⟩ := by
  induction todo generalizing c with
  | nil => exact ⟨c, .refl⟩
  | cons a todo ih =>
    obtain ⟨c', hrun⟩ := ih (a.act c)
    exact ⟨c', hrun.head (KernelStep.micro rfl)⟩

theorem Sound.run (hl : vmm.Laid) (h : k.Sound vmm m0) (hrun : Runs vmm k k') :
    k'.Sound vmm m0 := by
  induction hrun with
  | refl => exact h
  | tail _ hlast ih => exact ih.step hl hlast

/-- After a call the processor may have the entry of any live page in its cache. -/
theorem Sound.runs_cached (hl : vmm.Laid) (h : k.Sound vmm m0) (hidle : k.todo = []) {op : VmmOp}
    (hlegal : k.vmmState.Legal op) (hok : vmm.NoZero k.vmmState op) {i : Nat} (hi : i < 131072)
    (hlive : i ∈ (k.vmmState.apply vmm op).pages) :
    ∃ k', Runs vmm k k' ∧ k'.todo = [] ∧
      k'.mmu.tlb (0xD0000 + i) = some (vmm.pd.pte k'.mmu.mem (0xD0000 + i)) := by
  have hstart : Runs vmm k k := .refl
  have hcall := hstart.tail (KernelStep.call hidle hlegal hok)
  obtain ⟨c, hsteps⟩ := runs_todo vmm k.mmu (k.vmmState.apply vmm op).live
    (op.steps vmm k.mmu.mem)
  have hdone := hcall.trans hsteps
  have hpresent : present (vmm.pd.pte c.mem (0xD0000 + i)) = true :=
    (((h.run hl hdone).idle rfl).1.present_iff hi).mpr hlive
  exact ⟨_, hdone.tail (KernelStep.fill (Fill.page _ (by omega) hpresent)), rfl,
    Function.update_self _ _ _⟩

end Kernel

end Sapphire
