import Sapphire.Lib.Table

/-! The paging unit of a 32-bit x86 processor, as far as three control registers drive it: bit 31 of
CR0 turns paging on, CR3 names the page directory, and bit 4 of CR4 lets an entry of the directory
map 4 MiB by itself.  The bits that the processor sets in entries it uses, and protection, are left
out. -/

namespace Machine

structure PagingUnit where
  cr0 : BitVec 32
  cr3 : BitVec 32
  cr4 : BitVec 32
  mem : Mem

/-- CR0.PG -/
abbrev cr0Pg : BitVec 32 := 0x80000000

/-- CR4.PSE -/
abbrev cr4Pse : BitVec 32 := 0x10

namespace PagingUnit

/-- The entry of the page directory for `virt`. -/
def pde (c : PagingUnit) (virt : BitVec 32) : BitVec 32 :=
  c.mem.load32 ((c.cr3 &&& ~~~0xFFF#32) + 4#32 * (virt >>> 22))

/-- The entry of the page table at `table` for `virt`. -/
def tableEntry (c : PagingUnit) (table virt : BitVec 32) : BitVec 32 :=
  c.mem.load32 (table + 4#32 * ((virt >>> 12) &&& 0x3FF#32))

/-- The physical address of `virt`, if the entries are present. -/
def translate (c : PagingUnit) (virt : BitVec 32) : Option (BitVec 32) :=
  if c.cr0 &&& cr0Pg = 0 then some virt
  else if c.pde virt &&& 1 = 0 then none
  else if c.pde virt &&& 0x80 ≠ 0 ∧ c.cr4 &&& cr4Pse ≠ 0 then
    some ((c.pde virt &&& 0xFFC00000#32) + (virt &&& 0x3FFFFF#32))
  else
    let pte := c.tableEntry (c.pde virt &&& ~~~0xFFF#32) virt
    if pte &&& 1 = 0 then none else some ((pte &&& ~~~0xFFF#32) + (virt &&& 0xFFF#32))

variable {c c' : PagingUnit} {virt : BitVec 32}

theorem translate_absent (hpg : c.cr0 &&& cr0Pg ≠ 0) (h : c.pde virt &&& 1 = 0) :
    c.translate virt = none := by
  rw [translate, if_neg hpg, if_pos h]

/-- An address in a page of 4 MiB. -/
theorem translate_large (hpg : c.cr0 &&& cr0Pg ≠ 0) (hpse : c.cr4 &&& cr4Pse ≠ 0)
    (h : c.pde virt &&& 1 ≠ 0) (hlarge : c.pde virt &&& 0x80 ≠ 0) :
    c.translate virt = some ((c.pde virt &&& 0xFFC00000#32) + (virt &&& 0x3FFFFF#32)) := by
  rw [translate, if_neg hpg, if_neg h, if_pos ⟨hlarge, hpse⟩]

/-- An address whose directory entry names a page table, whatever CR4 holds. -/
theorem translate_small (hpg : c.cr0 &&& cr0Pg ≠ 0) (h : c.pde virt &&& 1 ≠ 0)
    (hsmall : c.pde virt &&& 0x80 = 0) :
    c.translate virt =
      if c.tableEntry (c.pde virt &&& ~~~0xFFF#32) virt &&& 1 = 0 then none
      else some ((c.tableEntry (c.pde virt &&& ~~~0xFFF#32) virt &&& ~~~0xFFF#32) +
        (virt &&& 0xFFF#32)) := by
  rw [translate, if_neg hpg, if_neg h, if_neg fun hand => hand.1 hsmall]

end PagingUnit

end Machine
