import Sapphire.Vmm

/-! The functions behind `alloc_pages` and `free_pages` by their single stores and their writes of
`CR3`, in order.  Each is the function of the same name over a memory that keeps a record of these
steps. -/

namespace Sapphire

open Machine

/-- A store of a word, or `_write_cr3((uint32_t)entries)`. -/
inductive Micro
  | store (addr value : BitVec 32)
  | writeCr3

/-- A memory and the steps that led to it. -/
structure Traced where
  mem : Mem
  steps : List Micro

namespace Traced

def store (t : Traced) (addr value : BitVec 32) : Traced :=
  ⟨t.mem.store32 addr value, t.steps ++ [.store addr value]⟩

def writeCr3 (t : Traced) : Traced := ⟨t.mem, t.steps ++ [.writeCr3]⟩

def setBit (t : Traced) (base i : BitVec 32) : Traced :=
  t.store (bitWord base i) (t.mem.load32 (bitWord base i) ||| (1#32 <<< (i % 32)))

def clearBit (t : Traced) (base i : BitVec 32) : Traced :=
  t.store (bitWord base i) (t.mem.load32 (bitWord base i) &&& ~~~(1#32 <<< (i % 32)))

/-! ### The frame allocator -/

def allocFrom (fa : FrameAllocator) (t : Traced) : Nat → Nat → Traced × BitVec 32
  | 0, _ => (t, 0)
  | n + 1, i =>
    let addr := fa.bitmap + 4 * BitVec.ofNat 32 i
    let word := t.mem.load32 addr
    if word = 0xFFFFFFFF#32 then allocFrom fa t n (i + 1)
    else match FrameAllocator.findClear word with
      | some j => (t.store addr (word ||| (1#32 <<< j)),
          (BitVec.ofNat 32 i * 32 + BitVec.ofNat 32 j) * pageSize)
      | none => allocFrom fa t n (i + 1)

def allocFrame (fa : FrameAllocator) (t : Traced) : Traced × BitVec 32 :=
  allocFrom fa t (fa.bitmapSize / 4).toNat 0

def freeFrame (fa : FrameAllocator) (t : Traced) (addr : BitVec 32) : Traced :=
  t.clearBit fa.bitmap (FrameAllocator.getFrameNumber addr)

/-! ### The page tables -/

/-- `map_range` leaves the translations that the processor has cached. -/
def mapRange (pd : PageDirectory) (t : Traced) (virtStart physStart size : BitVec 32) : Traced :=
  let virtStart := pageDown virtStart
  let physStart := pageDown physStart
  let size := pageUp size
  let virtEnd := virtStart + size
  (whileLoop (fun st : BitVec 32 × BitVec 32 × Traced => st.1 < virtEnd)
    (fun st => (st.1 + pageSize, st.2.1 + pageSize,
      st.2.2.store (pd.pteAddr st.2.2.mem st.1) (st.2.1 ||| pgPresent ||| pgWrite)))
    (2 ^ 32) (virtStart, physStart, t)).2.2

/-- `unmap_range` empties the cache when it has cleared the entries. -/
def unmapRange (pd : PageDirectory) (t : Traced) (virtStart size : BitVec 32) : Traced :=
  let virtStart := pageDown virtStart
  let size := pageUp size
  let virtEnd := virtStart + size
  let t := (whileLoop (fun st : BitVec 32 × Traced => st.1 < virtEnd)
    (fun st => (st.1 + pageSize, st.2.store (pd.pteAddr st.2.mem st.1) pgNotPresent))
    (2 ^ 32) (virtStart, t)).2
  t.writeCr3

/-! ### The virtual memory manager -/

def markPages (write : Traced → BitVec 32 → Traced) (t : Traced) (pageIndex count : BitVec 32) :
    Traced :=
  (whileLoop (fun st : BitVec 32 × Traced => st.1 < pageIndex + count)
    (fun st => (st.1 + 1, write st.2 st.1)) (2 ^ 32) (pageIndex, t)).2

def markUsed (vmm : VMM) (t : Traced) (pageIndex count : BitVec 32) : Traced :=
  markPages (fun t i => t.setBit vmm.bitmap i) t pageIndex count

def markFree (vmm : VMM) (t : Traced) (pageIndex count : BitVec 32) : Traced :=
  markPages (fun t i => t.clearBit vmm.bitmap i) t pageIndex count

def mapFrames (vmm : VMM) (t : Traced) (virtAddr : BitVec 32) : Nat → Traced
  | 0 => t
  | i + 1 =>
    let frame := allocFrame vmm.fa (mapFrames vmm t virtAddr i)
    mapRange vmm.pd frame.1 (virtAddr + BitVec.ofNat 32 i * pageSize) frame.2 pageSize

def allocPages (vmm : VMM) (t : Traced) (numPages : BitVec 32) : Traced × BitVec 32 :=
  let startIdx := vmm.findFreeRange t.mem numPages
  if startIdx = 0xFFFFFFFF#32 then (t, 0)
  else
    let virtAddr := vmm.regionStart + startIdx * pageSize
    let t := mapFrames vmm t virtAddr numPages.toNat
    (markUsed vmm t startIdx numPages, virtAddr)

def unmapPage (vmm : VMM) (t : Traced) (virtAddr : BitVec 32) : Traced :=
  let physAddr := t.mem.load32 (vmm.pd.pteAddr t.mem virtAddr) &&& ~~~0xFFF#32
  let t := unmapRange vmm.pd t virtAddr pageSize
  freeFrame vmm.fa t physAddr

def freePages (vmm : VMM) (t : Traced) (addr numPages : BitVec 32) : Traced :=
  let pageIdx := (addr - vmm.regionStart) / pageSize
  let t := (List.range numPages.toNat).foldl (fun t i =>
    unmapPage vmm t (addr + BitVec.ofNat 32 i * pageSize)) t
  markFree vmm t pageIdx numPages

end Traced

end Sapphire
