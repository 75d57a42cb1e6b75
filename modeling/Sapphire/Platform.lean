import Sapphire.Heap
import Sapphire.Stage2
import Sapphire.Vmm

/-! The memory subsystems as `platform_init` of `platform.cpp` brings them up, through
`init_vmm`.  The memory map and the framebuffer's base and size are what the boot loader passes on,
and the page directory is where `stage2.asm` puts it.  Printing and the control registers are left
out.  After `init_vmm` there come a test of the virtual memory manager, which `KernelVmm.test` has,
and what does not concern the memory.  The memory is the physical one throughout: the boot
maps the addresses that these functions use to themselves, and page faults are not modelled. -/

namespace Sapphire

open Machine

structure Platform where
  pd : PageDirectory
  fa : FrameAllocator
  heap : Heap
  vmm : VMM
  mem : Mem

/-- The page tables that `enable` turns on. -/
def bootMappings (m : Mem) (mmap : MemoryMap) (framebuffer size : BitVec 32) :
    PageDirectory × Mem :=
  let dir := PageDirectory.init m pgDir
  let pd := dir.1
  let m := pd.mapRange dir.2 kernelVma 0x00000000 0x00400000
  let m := pd.identityMapRange m 0x00000000 0x00100000
  let m := pd.identityMapRange m pageTablesBase (pageTablesBase + pageSize * pageTableCount)
  let m := pd.identityMapRange m framebuffer (framebuffer + size)
  let m := mmap.identityMapUsable pd m
  (pd, m)

/-- `platform_init` up to and with `init_vmm`. -/
def platformInit (m : Mem) (mmap : MemoryMap) (framebuffer size : BitVec 32) : Platform :=
  let mappings := bootMappings m mmap framebuffer size
  let pd := mappings.1
  let frameAlloc := FrameAllocator.init mappings.2 mmap
  let fa := frameAlloc.1
  let heap := Heap.init fa pd frameAlloc.2 16
  let vmm := VMM.init heap.2 fa pd
  ⟨pd, fa, heap.1, vmm.1, vmm.2⟩

end Sapphire
