import Sapphire.Lib.Table
import Sapphire.Paging

/-! What the page directory functions do to the page tables.  `Wired` says that the directory in
memory is as `init` leaves it, entry `i` naming the page table at `pageTablesBase + i * pageSize`;
the entry of page `p` is then the word at `pageTablesBase + 4 * p`, and every function of the page
directory is a loop of stores to these words. -/

namespace Sapphire

open Machine

/-! ### Rounding to pages -/

theorem pageDown_toNat (a : BitVec 32) : (pageDown a).toNat = 4096 * (a.toNat / 4096) := by
  have hshift : pageDown a = (a >>> 12) <<< 12 := by
    apply BitVec.eq_of_getLsbD_eq
    intro k hk
    have hmask : (~~~0xFFF#32).getLsbD k = decide (12 ≤ k) := by
      have hones : (0xFFF#32).getLsbD k = decide (k < 12) := by
        rw [show 0xFFF#32 = (BitVec.allOnes 12).setWidth 32 from rfl, BitVec.getLsbD_setWidth,
          BitVec.getLsbD_allOnes]
        simp [hk]
      rw [BitVec.getLsbD_not, hones]
      by_cases h : k < 12
      · simp [h, hk]
      · simp [h, hk, Nat.le_of_not_lt h]
    rw [pageDown, BitVec.getLsbD_and, hmask, BitVec.getLsbD_shiftLeft, BitVec.getLsbD_ushiftRight]
    by_cases h : k < 12
    · simp [h]
    · simp [hk, h, show 12 + (k - 12) = k by omega, show 12 ≤ k by omega]
  have ha := a.isLt
  rw [hshift, BitVec.toNat_shiftLeft, BitVec.toNat_ushiftRight, Nat.shiftRight_eq_div_pow,
    Nat.shiftLeft_eq, Nat.mod_eq_of_lt (by omega)]
  omega

/-- The number of the page that starts at `addr` rounded up to a page, 0 when rounding wraps. -/
def endPage (addr : BitVec 32) : Nat :=
  if addr.toNat ≤ 0xFFFFF000 then (addr.toNat + 4095) / 4096 else 0

theorem pageUp_toNat (a : BitVec 32) : (pageUp a).toNat = 4096 * endPage a := by
  have ha := a.isLt
  rw [pageUp, pageDown_toNat, BitVec.toNat_add, show (0xFFF#32).toNat = 4095 from rfl, endPage]
  split
  · rw [Nat.mod_eq_of_lt (by omega)]
  · omega

theorem endPage_lt (a : BitVec 32) : endPage a < 2 ^ 20 := by
  unfold endPage
  split <;> omega

theorem toNat_mul_pageSize {p : Nat} (hp : p < 2 ^ 20) :
    (BitVec.ofNat 32 (4096 * p)).toNat = 4096 * p := by
  rw [BitVec.toNat_ofNat, Nat.mod_eq_of_lt (by omega)]

theorem page_mul_pageSize {p : Nat} (hp : p < 2 ^ 20) :
    (BitVec.ofNat 32 (4096 * p)).toNat / 4096 = p := by
  rw [toNat_mul_pageSize hp, Nat.mul_div_cancel_left _ (by decide)]

theorem zeroMemory_apply (m : Mem) (dest size x : BitVec 32) :
    zeroMemory m dest size x = if (x - dest).toNat < size.toNat then 0 else m x :=
  foldl_store8 size.isLt.le m dest 0 x

/-! ### Page table entries -/

/-- An entry that maps its page to the frame at `addr`, present and writable. -/
def mapped (addr : BitVec 32) : BitVec 32 := addr ||| pgPresent ||| pgWrite

/-- The present bit of an entry. -/
def present (entry : BitVec 32) : Bool := entry &&& pgPresent != 0

theorem pageDown_mapped {a : BitVec 32} (h : a.toNat % 4096 = 0) :
    pageDown (mapped a) = a := by
  have hdiv : (mapped a).toNat / 4096 = a.toNat / 4096 := by
    rw [mapped, BitVec.toNat_or, BitVec.toNat_or, show 4096 = 2 ^ 12 from rfl,
      Nat.or_div_two_pow, Nat.or_div_two_pow]
    simp [pgPresent, pgWrite]
  apply BitVec.eq_of_toNat_eq
  rw [pageDown_toNat, hdiv]
  omega

@[simp] theorem present_mapped (addr : BitVec 32) : present (mapped addr) = true := by
  rw [present, bne_iff_ne, mapped]
  intro h
  have hbit := congrArg (fun w => w.getLsbD 0) h
  simp [pgPresent, pgWrite] at hbit

namespace PageDirectory

/-- The directory is as `init` leaves it: apart from the page tables, with every entry naming its
own page table. -/
structure Wired (pd : PageDirectory) (m : Mem) : Prop where
  apart : Disjoint (span pd.entries 4096) (span pageTablesBase 0x400000)
  entry : ∀ i < 1024, m.load32 (slot pd.entries i) =
    mapped (pageTablesBase + BitVec.ofNat 32 i * pageSize)

/-- The entry of page `p`, found through the directory. -/
def pte (pd : PageDirectory) (m : Mem) (p : Nat) : BitVec 32 :=
  m.load32 (pd.pteAddr m (BitVec.ofNat 32 (4096 * p)))

variable {pd : PageDirectory} {m m' : Mem}

theorem pdeIdx_eq (virt : BitVec 32) : virt >>> 22 = BitVec.ofNat 32 (virt.toNat / 2 ^ 22) := by
  have hv := virt.isLt
  apply BitVec.eq_of_toNat_eq
  rw [BitVec.toNat_ushiftRight, Nat.shiftRight_eq_div_pow, BitVec.toNat_ofNat,
    Nat.mod_eq_of_lt (by omega)]

theorem Wired.pteAddr_eq (h : pd.Wired m) (virt : BitVec 32) :
    pd.pteAddr m virt = slot pageTablesBase (virt.toNat / 4096) := by
  have hv := virt.isLt
  have hpde := pdeIdx_eq virt
  have hpte : ((virt >>> 12) &&& 0x3FF#32).toNat = virt.toNat / 4096 % 1024 := by
    rw [BitVec.toNat_and, BitVec.toNat_ushiftRight, Nat.shiftRight_eq_div_pow]
    exact Nat.and_two_pow_sub_one_eq_mod _ 10
  have hword := h.entry (virt.toNat / 2 ^ 22) (by omega)
  have htable := pageDown_mapped (a := pageTablesBase +
    BitVec.ofNat 32 (virt.toNat / 2 ^ 22) * pageSize) (by bv_omega)
  rw [slot] at hword
  rw [pageDown] at htable
  simp only [pteAddr, hpde, hword, htable]
  rw [slot]
  bv_omega

theorem Wired.pte_eq (h : pd.Wired m) {p : Nat} (hp : p < 2 ^ 20) :
    pd.pte m p = m.load32 (slot pageTablesBase p) := by
  rw [pte, h.pteAddr_eq, page_mul_pageSize hp]

theorem slot_pageTables {p : Nat} (hp : p < 2 ^ 20) :
    span (slot pageTablesBase p) 4 ⊆ span pageTablesBase 0x400000 :=
  slot_subset hp (by decide)

/-- The directory does not notice a change outside it. -/
theorem Wired.of_changesOnly {S : Set (BitVec 32)} (h : pd.Wired m) (hc : ChangesOnly S m m')
    (hd : Disjoint (span pd.entries 4096) S) : pd.Wired m' := by
  refine ⟨h.apart, fun i hi => ?_⟩
  rw [Mem.load32_of_changesOnly hc, h.entry i hi]
  exact hd.mono_left (slot_subset hi (by decide))

/-- Nor do the entries notice a change outside the directory and the page tables. -/
theorem Wired.pte_of_changesOnly {S : Set (BitVec 32)} (h : pd.Wired m)
    (hc : ChangesOnly S m m') (hd : Disjoint (span pd.entries 4096) S)
    (ht : Disjoint (span pageTablesBase 0x400000) S) {p : Nat} (hp : p < 2 ^ 20) :
    pd.pte m' p = pd.pte m p := by
  rw [(h.of_changesOnly hc hd).pte_eq hp, h.pte_eq hp, Mem.load32_of_changesOnly hc]
  exact ht.mono_left (slot_pageTables hp)

/-- `m'` is `m` with the entry of every page `p` from `lo` on below `hi` set to `v p`. -/
structure Sets (pd : PageDirectory) (m m' : Mem) (lo hi : Nat) (v : Nat → BitVec 32) : Prop where
  wired : pd.Wired m'
  changes : ChangesOnly (span pageTablesBase 0x400000) m m'
  pte : ∀ q < 2 ^ 20, pd.pte m' q = if lo ≤ q ∧ q < hi then v q else pd.pte m q

theorem Wired.store_pte (h : pd.Wired m) {p : Nat} (hp : p < 2 ^ 20) (e : BitVec 32) :
    let m' := m.store32 (pd.pteAddr m (BitVec.ofNat 32 (4096 * p))) e
    pd.Wired m' ∧ ChangesOnly (span pageTablesBase 0x400000) m m' ∧
      ∀ q < 2 ^ 20, pd.pte m' q = if q = p then e else pd.pte m q := by
  have haddr : pd.pteAddr m (BitVec.ofNat 32 (4096 * p)) = slot pageTablesBase p := by
    rw [h.pteAddr_eq, page_mul_pageSize hp]
  have hc := (Mem.changesOnly_store32 m (slot pageTablesBase p) e).mono (slot_pageTables hp)
  have hw := h.of_changesOnly hc h.apart
  rw [haddr]
  refine ⟨hw, hc, fun q hq => ?_⟩
  rw [hw.pte_eq hq, h.pte_eq hq, load32_store32_slot _ _ _ (by omega) (by omega)]

/-- A loop that stores an entry for each of its pages.  Its state carries the memory and, for
`map_range`, the next physical address, of which `P` says what it is. -/
theorem Wired.foldl_pte {τ : Type} (mem : τ → Mem) {f : τ → Nat → τ} {v : Nat → BitVec 32}
    {s : τ} (h : pd.Wired (mem s)) {a n : Nat} (hn : a + n ≤ 2 ^ 20) (P : Nat → τ → Prop)
    (h0 : P a s)
    (hstep : ∀ p t, P p t → P (p + 1) (f t p) ∧ mem (f t p) =
      (mem t).store32 (pd.pteAddr (mem t) (BitVec.ofNat 32 (4096 * p))) (v p)) :
    pd.Sets (mem s) (mem ((List.range' a n).foldl f s)) a (a + n) v := by
  obtain ⟨⟨-, hw, hc⟩, hget⟩ := foldl_range'_update (fun t => pd.pte (mem t)) (f := f)
    (v := v) (a := a) (n := n) (N := 2 ^ 20) (s := s)
    (fun p t => P p t ∧ pd.Wired (mem t) ∧
      ChangesOnly (span pageTablesBase 0x400000) (mem s) (mem t))
    ⟨h0, h, ChangesOnly.refl _ _⟩ (by
      rintro p - hp t ⟨hP, hw, hc⟩
      obtain ⟨hP', hmem⟩ := hstep p t hP
      obtain ⟨hw', hc', hpte⟩ := hw.store_pte (p := p) (by omega) (v p)
      rw [← hmem] at hw' hc' hpte
      exact ⟨⟨hP', hw', hc.trans hc'⟩, hpte⟩)
  exact ⟨hw, hc, hget⟩

theorem identityMapRange_sets (h : pd.Wired m) (start stop : BitVec 32) :
    pd.Sets m (pd.identityMapRange m start stop) (start.toNat / 4096) (endPage stop)
      (fun p => mapped (BitVec.ofNat 32 (4096 * p))) := by
  have hstop := endPage_lt stop
  have hsets := Wired.foldl_pte id h (a := start.toNat / 4096)
    (n := endPage stop - start.toNat / 4096)
    (f := fun m p => m.store32 (pd.pteAddr m (BitVec.ofNat 32 (4096 * p)))
      (mapped (BitVec.ofNat 32 (4096 * p))))
    (v := fun p => mapped (BitVec.ofNat 32 (4096 * p)))
    (by have := start.isLt; omega) (fun _ _ => True) trivial fun p t _ => ⟨trivial, rfl⟩
  have heq := forUp_eq_foldl pageSize
    (fun m addr => m.store32 (pd.pteAddr m addr) (addr ||| pgPresent ||| pgWrite)) m
    (by decide) (pageDown_toNat start) (pageUp_toNat stop)
  rw [identityMapRange, heq]
  refine ⟨hsets.wired, hsets.changes, fun q hq => (hsets.pte q hq).trans ?_⟩
  congr 1
  simp only [eq_iff_iff]
  omega

/-- The page after the last one of `size` bytes from `virt` on; 0 or a page before `virt`, and so
no page at all, where the end passes the address space. -/
def rangeEnd (virt size : BitVec 32) : Nat := (virt.toNat / 4096 + endPage size) % 2 ^ 20

theorem toNat_rangeEnd (virt size : BitVec 32) :
    (pageDown virt + pageUp size).toNat = 4096 * rangeEnd virt size := by
  rw [BitVec.toNat_add, pageDown_toNat, pageUp_toNat, rangeEnd]
  omega

theorem rangeEnd_lt (virt size : BitVec 32) : rangeEnd virt size < 2 ^ 20 :=
  Nat.mod_lt _ (by decide)

theorem mapRange_sets (h : pd.Wired m) (virtStart physStart size : BitVec 32) :
    pd.Sets m (pd.mapRange m virtStart physStart size) (virtStart.toNat / 4096)
      (rangeEnd virtStart size) (fun p => mapped (pageDown physStart +
        BitVec.ofNat 32 (4096 * (p - virtStart.toNat / 4096)))) := by
  have hend := rangeEnd_lt virtStart size
  have hsets := Wired.foldl_pte Prod.snd (s := (pageDown physStart, m)) h
    (a := virtStart.toNat / 4096) (n := rangeEnd virtStart size - virtStart.toNat / 4096)
    (f := fun st p => (st.1 + pageSize, st.2.store32 (pd.pteAddr st.2 (BitVec.ofNat 32 (4096 * p)))
      (mapped st.1)))
    (v := fun p => mapped (pageDown physStart +
      BitVec.ofNat 32 (4096 * (p - virtStart.toNat / 4096))))
    (by have := virtStart.isLt; omega)
    -- the physical address is as many pages on as the virtual one
    (fun p st => virtStart.toNat / 4096 ≤ p ∧
      st.1 = pageDown physStart + BitVec.ofNat 32 (4096 * (p - virtStart.toNat / 4096)))
    ⟨le_refl _, by simp⟩ (by
      rintro p ⟨phys, t⟩ ⟨hp, hphys⟩
      simp only at hphys
      subst hphys
      refine ⟨⟨by omega, ?_⟩, rfl⟩
      simp only
      bv_omega)
  have heq := whileLoop_eq_foldl pageSize (pageDown virtStart)
    (c := fun st : BitVec 32 × BitVec 32 × Mem => st.1 < pageDown virtStart + pageUp size)
    (fun st addr => (st.1 + pageSize, st.2.store32 (pd.pteAddr st.2 addr)
      (st.1 ||| pgPresent ||| pgWrite))) (pageDown physStart, m) (fun _ _ => rfl)
    (by decide) (pageDown_toNat virtStart) (toNat_rangeEnd virtStart size)
  have hmem : pd.mapRange m virtStart physStart size = _ := congrArg Prod.snd heq
  rw [hmem]
  refine ⟨hsets.wired, hsets.changes, fun q hq => (hsets.pte q hq).trans ?_⟩
  congr 1
  simp only [eq_iff_iff]
  omega

theorem unmapRange_sets (h : pd.Wired m) (virtStart size : BitVec 32) :
    pd.Sets m (pd.unmapRange m virtStart size) (virtStart.toNat / 4096)
      (rangeEnd virtStart size) (fun _ => 0) := by
  have hend := rangeEnd_lt virtStart size
  have hsets := Wired.foldl_pte id h (a := virtStart.toNat / 4096)
    (n := rangeEnd virtStart size - virtStart.toNat / 4096)
    (f := fun m p => m.store32 (pd.pteAddr m (BitVec.ofNat 32 (4096 * p))) pgNotPresent)
    (v := fun _ => 0)
    (by have := virtStart.isLt; omega) (fun _ _ => True) trivial fun p t _ => ⟨trivial, rfl⟩
  have heq := whileLoop_eq_foldl pageSize (pageDown virtStart)
    (c := fun st : BitVec 32 × Mem => st.1 < pageDown virtStart + pageUp size)
    (fun m addr => m.store32 (pd.pteAddr m addr) pgNotPresent) m (fun _ _ => rfl)
    (by decide) (pageDown_toNat virtStart) (toNat_rangeEnd virtStart size)
  rw [show pd.unmapRange m virtStart size = _ from heq]
  refine ⟨hsets.wired, hsets.changes, fun q hq => (hsets.pte q hq).trans ?_⟩
  congr 1
  simp only [eq_iff_iff]
  omega

/-- `init` wires the directory and leaves every entry not present. -/
theorem init_wired (m : Mem) (dirAddr : BitVec 32)
    (hapart : Disjoint (span dirAddr 4096) (span pageTablesBase 0x400000)) :
    (init m dirAddr).1.Wired (init m dirAddr).2 ∧
      ∀ p < 2 ^ 20, (init m dirAddr).1.pte (init m dirAddr).2 p = 0 := by
  set tables := zeroMemory (zeroMemory m dirAddr pageSize) pageTablesBase
    (pageTableCount * pageSize) with htables
  obtain ⟨hc, hentry⟩ := foldl_range'_update
    (fun m i => m.load32 (slot dirAddr i))
    (f := fun m i => m.store32 (slot dirAddr i)
      (mapped (pageTablesBase + BitVec.ofNat 32 i * pageSize)))
    (v := fun i => mapped (pageTablesBase + BitVec.ofNat 32 i * pageSize))
    (a := 0) (n := 1024) (N := 1024) (s := tables)
    (fun _ t => ChangesOnly (span dirAddr 4096) tables t) (ChangesOnly.refl _ _) (by
      intro i _ hi t hc
      refine ⟨hc.trans ((Mem.changesOnly_store32 _ _ _).mono (slot_subset (by omega) (by decide))),
        fun q hq => ?_⟩
      exact load32_store32_slot _ _ _ (by omega) (by omega))
  rw [← List.range_eq_range'] at hc hentry
  have hmem : (init m dirAddr).2 = (List.range 1024).foldl (fun m i => m.store32 (slot dirAddr i)
      (mapped (pageTablesBase + BitVec.ofNat 32 i * pageSize))) tables := by
    simp only [init, show pageTableCount.toNat = 1024 from rfl, ← htables, slot, mapped]
  have hw : (init m dirAddr).1.Wired (init m dirAddr).2 := by
    refine ⟨hapart, fun i hi => ?_⟩
    rw [hmem]
    exact (hentry i hi).trans (if_pos (by omega))
  refine ⟨hw, fun p hp => ?_⟩
  rw [hw.pte_eq hp]
  apply load32_zero
  intro x hx
  have hx' := slot_pageTables hp hx
  have hzero : tables x = 0 := by
    rw [htables, zeroMemory_apply]
    exact if_pos hx'
  rw [hmem, hc x (Set.disjoint_right.mp hapart hx'), hzero]

end PageDirectory

end Sapphire
