import Sapphire.Lib.PagingUnit
import Sapphire.Paging.Walk

/-! From the boot loader's page directory to the kernel's.  `bootstrap_paging` of `bootstrap.cpp` maps
8 MiB twice with pages of 4 MiB; `enable` of `paging.cpp` then replaces this directory by one with
page tables, in three writes to control registers.  Between and after these the processor fetches
the instructions of `enable` itself through whatever is in force. -/

namespace Sapphire

open Machine

/-- `PG_DIR` of `bootstrap.cpp` -/
abbrev bootstrapPgDir : BitVec 32 := 0x9A000

/-- `PSE_4MB_PAGE`: present, writable, 4 MiB. -/
abbrev pse4mbPage : BitVec 32 := 0x83

/-- Paging is off on entry to `bootstrap_paging`, so the addresses that it stores at are physical. -/
def bootstrapPaging (c : PagingUnit) : PagingUnit :=
  let pd := bootstrapPgDir
  -- step 1
  let m := (List.range 1024).foldl (fun m i => m.store32 (slot pd i) 0) c.mem
  -- step 2
  let cr4 := c.cr4 ||| 0x10
  -- steps 3 and 4
  let m := m.store32 (slot pd 0) (0x00000000 ||| pse4mbPage)
  let m := m.store32 (slot pd 1) (0x00400000 ||| pse4mbPage)
  let m := m.store32 (slot pd 768) (0x00000000 ||| pse4mbPage)
  let m := m.store32 (slot pd 769) (0x00400000 ||| pse4mbPage)
  -- steps 5 and 6
  ⟨c.cr0 ||| 0x80000000, bootstrapPgDir, cr4, m⟩

namespace PageDirectory

/-! The writes of `enable`, in order. -/

def writeCr3 (pd : PageDirectory) (c : PagingUnit) : PagingUnit := { c with cr3 := pd.entries }

def writeCr0 (c : PagingUnit) : PagingUnit := { c with cr0 := c.cr0 ||| 0x80000000 }

def writeCr4 (c : PagingUnit) : PagingUnit := { c with cr4 := c.cr4 &&& ~~~0x10#32 }

def enable (pd : PageDirectory) (c : PagingUnit) : PagingUnit := writeCr4 (writeCr0 (pd.writeCr3 c))

/-- The processor after each of the writes. -/
def enableStates (pd : PageDirectory) (c : PagingUnit) : List PagingUnit :=
  [pd.writeCr3 c, writeCr0 (pd.writeCr3 c), pd.enable c]

end PageDirectory

/-! ### The bootstrap directory -/

/-- Entry `i` of the bootstrap directory. -/
def bootstrapEntry (i : Nat) : BitVec 32 :=
  if i = 0 ∨ i = 768 then pse4mbPage
  else if i = 1 ∨ i = 769 then 0x00400000 ||| pse4mbPage else 0

/-- The processor runs on the bootstrap directory. -/
structure Bootstrapped (c : PagingUnit) : Prop where
  pg : c.cr0 &&& cr0Pg ≠ 0
  pse : c.cr4 &&& cr4Pse ≠ 0
  cr3 : c.cr3 = bootstrapPgDir
  entry : ∀ i < 1024, c.mem.load32 (slot bootstrapPgDir i) = bootstrapEntry i

theorem or_and_ne_zero (x : BitVec 32) {b : BitVec 32} (hb : b ≠ 0) : (x ||| b) &&& b ≠ 0 := by
  have habs : (x ||| b) &&& b = b := by
    apply BitVec.eq_of_getLsbD_eq
    intro i _
    simp only [BitVec.getLsbD_and, BitVec.getLsbD_or]
    cases x.getLsbD i <;> cases b.getLsbD i <;> rfl
  rwa [habs]

theorem bootstrapPaging_bootstrapped (c : PagingUnit) : Bootstrapped (bootstrapPaging c) := by
  refine ⟨or_and_ne_zero _ (by decide), or_and_ne_zero _ (by decide), rfl, fun i hi => ?_⟩
  have hzero : ((List.range 1024).foldl (fun m i => m.store32 (slot bootstrapPgDir i) 0)
      c.mem).load32 (slot bootstrapPgDir i) = 0 := by
    obtain ⟨-, hget⟩ := foldl_range'_update (fun m i => m.load32 (slot bootstrapPgDir i))
      (f := fun m i => m.store32 (slot bootstrapPgDir i) 0) (v := fun _ => 0) (a := 0) (n := 1024)
      (N := 1024) (s := c.mem) (fun _ _ => True) trivial fun p _ hp t _ =>
        ⟨trivial, fun q hq => load32_store32_slot _ _ _ (by omega) (by omega)⟩
    rw [List.range_eq_range', hget i hi, if_pos (by omega)]
  simp only [bootstrapPaging]
  rw [load32_store32_slot _ _ _ (by decide) (by omega),
    load32_store32_slot _ _ _ (by decide) (by omega),
    load32_store32_slot _ _ _ (by decide) (by omega),
    load32_store32_slot _ _ _ (by decide) (by omega), hzero, bootstrapEntry]
  split_ifs <;> first | rfl | omega

namespace Bootstrapped

variable {c : PagingUnit}

/-- What the bootstrap directory maps: 8 MiB to themselves, and the kernel's window to them. -/
def map (virt : BitVec 32) : Option (BitVec 32) :=
  if virt.toNat < 0x800000 then some virt
  else if 0xC0000000 ≤ virt.toNat ∧ virt.toNat < 0xC0800000 then some (virt - 0xC0000000)
  else none

theorem pde_eq (h : Bootstrapped c) (virt : BitVec 32) :
    c.pde virt = bootstrapEntry (virt.toNat / 2 ^ 22) := by
  have hv := virt.isLt
  have hslot := h.entry (virt.toNat / 2 ^ 22) (by omega)
  rw [slot, ← PageDirectory.pdeIdx_eq] at hslot
  rw [PagingUnit.pde, h.cr3]
  exact hslot

theorem toNat_offset (virt : BitVec 32) :
    (virt &&& 0x3FFFFF#32).toNat = virt.toNat % 2 ^ 22 := by
  rw [BitVec.toNat_and]
  exact Nat.and_two_pow_sub_one_eq_mod _ 22

theorem translate_eq (h : Bootstrapped c) (virt : BitVec 32) : c.translate virt = map virt := by
  have hv := virt.isLt
  have hpde := h.pde_eq virt
  have hoffset := toNat_offset virt
  rw [bootstrapEntry] at hpde
  by_cases h0 : virt.toNat / 2 ^ 22 = 0 ∨ virt.toNat / 2 ^ 22 = 768
  · rw [if_pos h0] at hpde
    rw [PagingUnit.translate_large h.pg h.pse (by rw [hpde]; decide) (by rw [hpde]; decide), hpde,
      map, show pse4mbPage &&& 0xFFC00000#32 = 0 from rfl]
    split_ifs <;> first | omega | (rw [Option.some_inj]; bv_omega)
  · rw [if_neg h0] at hpde
    by_cases h1 : virt.toNat / 2 ^ 22 = 1 ∨ virt.toNat / 2 ^ 22 = 769
    · rw [if_pos h1] at hpde
      rw [PagingUnit.translate_large h.pg h.pse (by rw [hpde]; decide) (by rw [hpde]; decide), hpde,
        map, show (0x00400000 ||| pse4mbPage) &&& 0xFFC00000#32 = 0x00400000#32 from rfl]
      split_ifs <;> first | omega | (rw [Option.some_inj]; bv_omega)
    · rw [if_neg h1] at hpde
      rw [PagingUnit.translate_absent h.pg (by rw [hpde]; decide), map]
      split_ifs <;> first | omega | rfl

/-- Changes outside the directory leave the processor on it. -/
theorem of_changesOnly (h : Bootstrapped c) {S : Set (BitVec 32)} {m : Mem}
    (hc : ChangesOnly S c.mem m) (hd : Disjoint (span bootstrapPgDir 4096) S) :
    Bootstrapped { c with mem := m } := by
  refine ⟨h.pg, h.pse, h.cr3, fun i hi => ?_⟩
  rw [Mem.load32_of_changesOnly hc, h.entry i hi]
  exact hd.mono_left (slot_subset hi (by decide))

end Bootstrapped

/-! ### The kernel's directory -/

/-- The entry of an aligned address does not map 4 MiB. -/
theorem mapped_and_ps {a : BitVec 32} (h : a.toNat % 4096 = 0) : mapped a &&& 0x80 = 0 := by
  have hlow : a.getLsbD 7 = false := by
    rw [BitVec.getLsbD, Nat.testBit_eq_decide_div_mod_eq, decide_eq_false_iff_not]
    omega
  apply BitVec.eq_of_getLsbD_eq
  intro i hi
  have hmask : (0x80 : BitVec 32).getLsbD i = decide (i = 7) := by
    rw [show (0x80 : BitVec 32) = BitVec.twoPow 32 7 from rfl, BitVec.getLsbD_twoPow]
    simp [eq_comm]
  rw [BitVec.getLsbD_and, hmask]
  by_cases h7 : i = 7
  · subst h7
    rw [mapped, BitVec.getLsbD_or, BitVec.getLsbD_or, hlow]
    rfl
  · simp [h7]

/-- On a wired directory the processor finds what `walk` does, whether 4 MiB pages are enabled or
not. -/
theorem PageDirectory.Wired.translate_eq {pd : PageDirectory} {c : PagingUnit} (h : pd.Wired c.mem)
    (hpg : c.cr0 &&& cr0Pg ≠ 0) (hcr3 : c.cr3 = pd.entries)
    (haligned : pd.entries &&& ~~~0xFFF#32 = pd.entries) (virt : BitVec 32) :
    c.translate virt = pd.walk c.mem virt := by
  have hv := virt.isLt
  have hbase : (pageTablesBase + BitVec.ofNat 32 (virt.toNat / 2 ^ 22) * pageSize).toNat % 4096 =
      0 := by
    bv_omega
  have hpde : c.pde virt =
      mapped (pageTablesBase + BitVec.ofNat 32 (virt.toNat / 2 ^ 22) * pageSize) := by
    rw [PagingUnit.pde, hcr3, haligned, pdeIdx_eq]
    exact h.entry _ (by omega)
  have hpresent : present (c.pde virt) = true := hpde ▸ present_mapped _
  have hsmall : c.pde virt &&& 0x80 = 0 := hpde ▸ mapped_and_ps hbase
  have hword : c.mem.load32 (pd.entries + 4#32 * (virt >>> 22)) = c.pde virt := by
    rw [PagingUnit.pde, hcr3, haligned]
  have hwalk : pd.walk c.mem virt =
      if present (c.pde virt) then
        if present (c.tableEntry (pageDown (c.pde virt)) virt) then
          some (pageDown (c.tableEntry (pageDown (c.pde virt)) virt) + (virt &&& 0xFFF#32))
        else none
      else none := by
    rw [← hword]
    rfl
  rw [hwalk, if_pos hpresent, PagingUnit.translate_small hpg (bne_iff_ne.mp hpresent) hsmall]
  simp only [present, bne_iff_ne, ne_eq, ite_not, pageDown]

end Sapphire
