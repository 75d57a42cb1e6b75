import Sapphire.Lib.Loop
import Sapphire.Lib.Memory

/-! The page directory of `paging.hpp` and `paging.cpp`: a page directory whose 1024 entries point
at 1024 page tables, at fixed addresses from `pageTablesBase` on.  Each function reads the table's
address from the directory in memory and stores page table entries through it.  The control register
writes of `enable` and of `unmapRange` change no memory and are left out. -/

namespace Sapphire

open Machine

abbrev pageSize : BitVec 32 := 0x1000
abbrev pageTableCount : BitVec 32 := 1024
abbrev pageTablesBase : BitVec 32 := 0x100000

abbrev pgNotPresent : BitVec 32 := 0x00
abbrev pgPresent : BitVec 32 := 0x01
abbrev pgWrite : BitVec 32 := 0x02

/-- `addr & ~0xFFF` -/
def pageDown (addr : BitVec 32) : BitVec 32 := addr &&& ~~~0xFFF#32

/-- `(addr + 0xFFF) & ~0xFFF`, which wraps to 0 above `0xFFFFF000`. -/
def pageUp (addr : BitVec 32) : BitVec 32 := pageDown (addr + 0xFFF#32)

/-- `size` zero bytes from `dest` on. -/
def zeroMemory (m : Mem) (dest size : BitVec 32) : Mem :=
  (List.range size.toNat).foldl (fun m i => m.store8 (dest + BitVec.ofNat 32 i) 0) m

structure PageDirectory where
  entries : BitVec 32

namespace PageDirectory

/-- The address of `page_table[pte_idx]` for the address `virt`, in the page table that the
directory entry `entries[pde_idx]` names. -/
def pteAddr (pd : PageDirectory) (m : Mem) (virt : BitVec 32) : BitVec 32 :=
  let pdeIdx := virt >>> 22
  let pteIdx := (virt >>> 12) &&& 0x3FF#32
  let pageTable := m.load32 (pd.entries + 4 * pdeIdx) &&& ~~~0xFFF#32
  pageTable + 4 * pteIdx

def init (m : Mem) (dirAddr : BitVec 32) : PageDirectory × Mem :=
  let pd : PageDirectory := ⟨dirAddr⟩
  let m := zeroMemory m pd.entries pageSize
  let m := zeroMemory m pageTablesBase (pageTableCount * pageSize)
  let m := (List.range pageTableCount.toNat).foldl (fun m i =>
    let ptAddr := pageTablesBase + BitVec.ofNat 32 i * pageSize
    m.store32 (pd.entries + 4 * BitVec.ofNat 32 i) (ptAddr ||| pgPresent ||| pgWrite)) m
  (pd, m)

def identityMapRange (pd : PageDirectory) (m : Mem) (start stop : BitVec 32) : Mem :=
  let start := pageDown start
  let stop := pageUp stop
  forUp pageSize start stop
    (fun m addr => m.store32 (pd.pteAddr m addr) (addr ||| pgPresent ||| pgWrite)) m

def mapRange (pd : PageDirectory) (m : Mem) (virtStart physStart size : BitVec 32) : Mem :=
  let virtStart := pageDown virtStart
  let physStart := pageDown physStart
  let size := pageUp size
  let virtEnd := virtStart + size
  -- the loop's variables are `virt_start`, `phys_start` and the memory
  (whileLoop (fun st : BitVec 32 × BitVec 32 × Mem => st.1 < virtEnd)
    (fun st => (st.1 + pageSize, st.2.1 + pageSize,
      st.2.2.store32 (pd.pteAddr st.2.2 st.1) (st.2.1 ||| pgPresent ||| pgWrite)))
    (2 ^ 32) (virtStart, physStart, m)).2.2

def unmapRange (pd : PageDirectory) (m : Mem) (virtStart size : BitVec 32) : Mem :=
  let virtStart := pageDown virtStart
  let size := pageUp size
  let virtEnd := virtStart + size
  (whileLoop (fun st : BitVec 32 × Mem => st.1 < virtEnd)
    (fun st => (st.1 + pageSize, st.2.store32 (pd.pteAddr st.2 st.1) pgNotPresent))
    (2 ^ 32) (virtStart, m)).2

end PageDirectory

end Sapphire
