import Sapphire.Paging

/-! The E820 memory map of `boot_info.hpp`, `memory_map.hpp` and `memory_map.cpp`.  The entries that
the BIOS filled in and their count are a list. -/

namespace Sapphire

open Machine

abbrev biosBase : BitVec 32 := 0x000000
abbrev pageBase : BitVec 32 := 0x100000
abbrev bitmapBase : BitVec 32 := 0x500000
abbrev kernelVma : BitVec 32 := 0xC0000000
abbrev highestUsableAddr : BitVec 32 := 0xFFFFFFFF

abbrev e820TypeUsable : BitVec 32 := 1

structure E820Entry where
  base : BitVec 64
  length : BitVec 64
  type : BitVec 32
  deriving DecidableEq, Repr

/-- A 64-bit address cut to the 32-bit address space. -/
def clamp32 (addr : BitVec 64) : BitVec 32 :=
  if addr > highestUsableAddr.setWidth 64 then highestUsableAddr else addr.setWidth 32

structure MemoryMap where
  entries : List E820Entry

namespace MemoryMap

def clamp (addr : BitVec 64) : BitVec 32 := clamp32 addr

def identityMapUsable (mmap : MemoryMap) (pd : PageDirectory) (m : Mem) : Mem :=
  mmap.entries.foldl (fun m entry =>
    if entry.type ≠ e820TypeUsable then m
    else
      -- the base is cut to its low 32 bits, the end clamped
      let base := entry.base.setWidth 32
      let end64 := entry.base + entry.length
      pd.identityMapRange m base (clamp end64)) m

end MemoryMap

end Sapphire
