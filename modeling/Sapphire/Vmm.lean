import Sapphire.FrameAlloc

/-! The virtual memory manager of `vmm.hpp` and `vmm.cpp`: a bitmap with one bit for each page of a
region of the address space, whose pages are backed by frames on demand.  A null pointer is 0.

`VMM` has the frame allocator and the page directory in the place of its pointers to them.  That is
right for as long as these two objects live, neither of which changes after its `init`.  `KernelVmm`
has the pointers: those of `kernel_vmm` are to locals of `platform_init`, whose place on the stack is
used again when it has returned. -/

namespace Sapphire

open Machine

abbrev vmmRegionStart : BitVec 32 := 0xD0000000
abbrev vmmRegionSize : BitVec 32 := 0x20000000
abbrev vmmTotalPages : BitVec 32 := vmmRegionSize / pageSize

structure VMM where
  bitmap : BitVec 32
  regionStart : BitVec 32
  totalPages : BitVec 32
  fa : FrameAllocator
  pd : PageDirectory

namespace VMM

def init (m : Mem) (fa : FrameAllocator) (pd : PageDirectory) : VMM × Mem :=
  let regionStart := vmmRegionStart
  let totalPages := vmmTotalPages
  let bitmapBytes := totalPages / 8
  let bitmapPages := (bitmapBytes + pageSize - 1) / pageSize
  -- the loop's variables are the memory and `bitmap_start`
  let st := (List.range bitmapPages.toNat).foldl (fun (st : Mem × BitVec 32) i =>
    let f := fa.allocFrame st.1
    (f.1, if i = 0 then f.2 else st.2)) (m, 0)
  let m := st.1
  let bitmapStart := st.2
  let m := pd.identityMapRange m bitmapStart (bitmapStart + bitmapPages * pageSize)
  let m := zeroMemory m bitmapStart bitmapBytes
  (⟨bitmapStart, regionStart, totalPages, fa, pd⟩, m)

/-- The search of `find_free_range` from page `i` on, with `n` pages left. -/
def findFreeFrom (vmm : VMM) (m : Mem) (numPages : BitVec 32) :
    Nat → BitVec 32 → BitVec 32 → BitVec 32 → BitVec 32
  | 0, _, _, _ => 0xFFFFFFFF
  | n + 1, i, count, startIndex =>
    let used := m.load32 (vmm.bitmap + 4 * (i / 32)) &&& (1#32 <<< (i % 32)) ≠ 0
    if ¬ used then
      let startIndex := if count = 0 then i else startIndex
      let count := count + 1
      if count = numPages then startIndex
      else vmm.findFreeFrom m numPages n (i + 1) count startIndex
    else vmm.findFreeFrom m numPages n (i + 1) 0 startIndex

def findFreeRange (vmm : VMM) (m : Mem) (numPages : BitVec 32) : BitVec 32 :=
  vmm.findFreeFrom m numPages vmm.totalPages.toNat 0 0 0

/-- `for (i = pageIndex; i < pageIndex + count; i++) m = write m i` -/
def markPages (write : Mem → BitVec 32 → Mem) (m : Mem) (pageIndex count : BitVec 32) : Mem :=
  (whileLoop (fun st : BitVec 32 × Mem => st.1 < pageIndex + count)
    (fun st => (st.1 + 1, write st.2 st.1)) (2 ^ 32) (pageIndex, m)).2

def markUsed (vmm : VMM) (m : Mem) (pageIndex count : BitVec 32) : Mem :=
  markPages (fun m i => setBit m vmm.bitmap i) m pageIndex count

def markFree (vmm : VMM) (m : Mem) (pageIndex count : BitVec 32) : Mem :=
  markPages (fun m i => clearBit m vmm.bitmap i) m pageIndex count

/-- The first `n` rounds of the loop of `alloc_pages`: the memory after them and what `alloc_frame`
returned, in order. -/
def mapFrames (vmm : VMM) (m : Mem) (virtAddr : BitVec 32) : Nat → Mem × List (BitVec 32)
  | 0 => (m, [])
  | i + 1 =>
    let r := vmm.mapFrames m virtAddr i
    let frame := vmm.fa.allocFrame r.1
    (vmm.pd.mapRange frame.1 (virtAddr + BitVec.ofNat 32 i * pageSize) frame.2 pageSize,
      r.2 ++ [frame.2])

def allocPages (vmm : VMM) (m : Mem) (numPages : BitVec 32) : Mem × BitVec 32 :=
  let startIdx := vmm.findFreeRange m numPages
  if startIdx = 0xFFFFFFFF#32 then (m, 0)
  else
    let virtAddr := vmm.regionStart + startIdx * pageSize
    let m := (vmm.mapFrames m virtAddr numPages.toNat).1
    (vmm.markUsed m startIdx numPages, virtAddr)

/-- What the calls of `alloc_frame` that `alloc_pages` makes return, in order. -/
def framesTaken (vmm : VMM) (m : Mem) (numPages : BitVec 32) : List (BitVec 32) :=
  let startIdx := vmm.findFreeRange m numPages
  if startIdx = 0xFFFFFFFF#32 then []
  else (vmm.mapFrames m (vmm.regionStart + startIdx * pageSize) numPages.toNat).2

/-- One round of the loop of `free_pages`. -/
def unmapPage (vmm : VMM) (m : Mem) (virtAddr : BitVec 32) : Mem :=
  let physAddr := m.load32 (vmm.pd.pteAddr m virtAddr) &&& ~~~0xFFF#32
  let m := vmm.pd.unmapRange m virtAddr pageSize
  vmm.fa.freeFrame m physAddr

def freePages (vmm : VMM) (m : Mem) (addr numPages : BitVec 32) : Mem :=
  let pageIdx := (addr - vmm.regionStart) / pageSize
  let m := (List.range numPages.toNat).foldl (fun m i =>
    vmm.unmapPage m (addr + BitVec.ofNat 32 i * pageSize)) m
  vmm.markFree m pageIdx numPages

end VMM

/-! ### With pointers -/

/-- The frame allocator at an address. -/
def FrameAllocator.load (m : Mem) (addr : BitVec 32) : FrameAllocator :=
  ⟨m.load32 addr, m.load32 (addr + 4), m.load32 (addr + 8)⟩

/-- The page directory at an address. -/
def PageDirectory.load (m : Mem) (addr : BitVec 32) : PageDirectory := ⟨m.load32 addr⟩

/-- A `VMM` as it is in memory. -/
structure KernelVmm where
  bitmap : BitVec 32
  regionStart : BitVec 32
  totalPages : BitVec 32
  fa : BitVec 32
  pd : BitVec 32

/-- What `init` leaves of a `VMM` whose objects are at `fa` and `pd`. -/
def VMM.pointing (vmm : VMM) (fa pd : BitVec 32) : KernelVmm :=
  ⟨vmm.bitmap, vmm.regionStart, vmm.totalPages, fa, pd⟩

namespace KernelVmm

/-- With what its pointers point to in `m`. -/
def deref (vmm : KernelVmm) (m : Mem) : VMM :=
  ⟨vmm.bitmap, vmm.regionStart, vmm.totalPages, .load m vmm.fa, .load m vmm.pd⟩

/-- The first `n` rounds of the loop of `alloc_pages`.  An object is read when a function of it is
called. -/
def mapFrames (vmm : KernelVmm) (m : Mem) (virtAddr : BitVec 32) : Nat → Mem
  | 0 => m
  | i + 1 =>
    let m := vmm.mapFrames m virtAddr i
    let frame := (FrameAllocator.load m vmm.fa).allocFrame m
    (PageDirectory.load frame.1 vmm.pd).mapRange frame.1 (virtAddr + BitVec.ofNat 32 i * pageSize)
      frame.2 pageSize

def allocPages (vmm : KernelVmm) (m : Mem) (numPages : BitVec 32) : Mem × BitVec 32 :=
  let startIdx := (vmm.deref m).findFreeRange m numPages
  if startIdx = 0xFFFFFFFF#32 then (m, 0)
  else
    let virtAddr := vmm.regionStart + startIdx * pageSize
    let m := vmm.mapFrames m virtAddr numPages.toNat
    ((vmm.deref m).markUsed m startIdx numPages, virtAddr)

/-- One round of the loop of `free_pages`. -/
def unmapPage (vmm : KernelVmm) (m : Mem) (virtAddr : BitVec 32) : Mem :=
  let pd := PageDirectory.load m vmm.pd
  let physAddr := m.load32 (pd.pteAddr m virtAddr) &&& ~~~0xFFF#32
  let m := pd.unmapRange m virtAddr pageSize
  (FrameAllocator.load m vmm.fa).freeFrame m physAddr

def freePages (vmm : KernelVmm) (m : Mem) (addr numPages : BitVec 32) : Mem :=
  let pageIdx := (addr - vmm.regionStart) / pageSize
  let m := (List.range numPages.toNat).foldl (fun m i =>
    vmm.unmapPage m (addr + BitVec.ofNat 32 i * pageSize)) m
  (vmm.deref m).markFree m pageIdx numPages

end KernelVmm

end Sapphire
