import Sapphire.FrameAlloc

/-! The kernel heap of `heap.hpp` and `heap.cpp`: a list of blocks, each a 12-byte header in the
memory that it manages, followed by its usable area.  `alloc` and `free` are given over an `Arith`,
the 32-bit additions and subtractions that they make: `Arith.wrapping` is the machine's, and
`Arith.checked` fails where the machine's would wrap.  A walk that does not reach the end of the
list within `2^32` blocks, the number of addresses, has no result. -/

namespace Sapphire

open Machine

/-- Additions and subtractions of 32-bit words, possibly failing. -/
structure Arith where
  add : BitVec 32 → BitVec 32 → Option (BitVec 32)
  sub : BitVec 32 → BitVec 32 → Option (BitVec 32)

/-- Arithmetic modulo `2^32`. -/
def Arith.wrapping : Arith where
  add a b := some (a + b)
  sub a b := some (a - b)

/-- Arithmetic that fails where it would wrap. -/
def Arith.checked : Arith where
  add a b := if a.toNat + b.toNat < 2 ^ 32 then some (a + b) else none
  sub a b := if b.toNat ≤ a.toNat then some (a - b) else none

/-! A `BlockHeader` at `b` is its `size` at `b`, its `free` flag at `b + 4` and its `next` pointer at
`b + 8`. -/

namespace BlockHeader

/-- `sizeof(BlockHeader)` -/
abbrev bytes : BitVec 32 := 12

def size (m : Mem) (b : BitVec 32) : BitVec 32 := m.load32 b

def free (m : Mem) (b : BitVec 32) : Bool := m (b + 4) ≠ 0

def next (m : Mem) (b : BitVec 32) : BitVec 32 := m.load32 (b + 8)

def setSize (m : Mem) (b size : BitVec 32) : Mem := m.store32 b size

def setFree (m : Mem) (b : BitVec 32) (free : Bool) : Mem :=
  m.store8 (b + 4) (if free then 1 else 0)

def setNext (m : Mem) (b next : BitVec 32) : Mem := m.store32 (b + 8) next

end BlockHeader

abbrev minSplit : BitVec 32 := 16

structure Heap where
  head : BitVec 32
  totalSize : BitVec 32

namespace Heap

open BlockHeader

def init (fa : FrameAllocator) (pd : PageDirectory) (m : Mem) (numPages : BitVec 32) :
    Heap × Mem :=
  -- the loop's variables are the memory, `heap_start` and `heap_end`
  let st := (List.range numPages.toNat).foldl (fun (st : Mem × BitVec 32 × BitVec 32) i =>
    let f := fa.allocFrame st.1
    (f.1, if i = 0 then f.2 else st.2.1, f.2)) (m, 0, 0)
  let m := st.1
  let heapStart := st.2.1
  let heapEnd := st.2.2
  let m := pd.identityMapRange m heapStart (heapEnd + pageSize)
  let totalSize := (heapEnd + pageSize) - heapStart
  let head := heapStart
  let m := setSize m head (totalSize - bytes)
  let m := setFree m head true
  let m := setNext m head 0
  (⟨head, totalSize⟩, m)

/-- The walk of `alloc` from `block` on. -/
def allocWalk (ar : Arith) (n : BitVec 32) : Nat → BitVec 32 → Mem → Option (Mem × BitVec 32)
  | 0, _, _ => none
  | fuel + 1, block, m =>
    if block = 0 then some (m, 0)
    else if !free m block || size m block < n then allocWalk ar n fuel (next m block) m
    else do
      let need ← ar.add (← ar.add n bytes) minSplit
      if size m block ≥ need then
        let newBlock ← ar.add (← ar.add block bytes) n
        let m := setFree m newBlock true
        let m := setNext m newBlock (next m block)
        let m := setSize m newBlock (← ar.sub (← ar.sub (size m block) n) bytes)
        let m := setSize m block n
        let m := setFree m block false
        let m := setNext m block newBlock
        some (m, ← ar.add block bytes)
      else
        let m := setFree m block false
        some (m, ← ar.add block bytes)

/-- `alloc` over the arithmetic `ar`. -/
def allocWith (ar : Arith) (heap : Heap) (m : Mem) (n : BitVec 32) : Option (Mem × BitVec 32) :=
  allocWalk ar n (2 ^ 32) heap.head m

/-- The memory after `alloc(n)` and the pointer that it returns. -/
def alloc (heap : Heap) (m : Mem) (n : BitVec 32) : Option (Mem × BitVec 32) :=
  allocWith .wrapping heap m n

/-- The inner loop of `free`: `current` takes in the free blocks that follow it. -/
def mergeNext (ar : Arith) : Nat → BitVec 32 → Mem → Option Mem
  | 0, _, _ => none
  | fuel + 1, current, m =>
    if free m current && next m current ≠ 0 && free m (next m current) then do
      let m := setSize m current (← ar.add (size m current)
        (← ar.add bytes (size m (next m current))))
      let m := setNext m current (next m (next m current))
      mergeNext ar fuel current m
    else some m

/-- The outer loop of `free` from `current` on. -/
def mergeWalk (ar : Arith) : Nat → BitVec 32 → Mem → Option Mem
  | 0, _, _ => none
  | fuel + 1, current, m =>
    if current = 0 then some m
    else do
      let m ← mergeNext ar (2 ^ 32) current m
      mergeWalk ar fuel (next m current) m

/-- `free` over the arithmetic `ar`. -/
def freeWith (ar : Arith) (heap : Heap) (m : Mem) (ptr : BitVec 32) : Option Mem :=
  if ptr = 0 then some m
  else do
    let block ← ar.sub ptr bytes
    let m := setFree m block true
    mergeWalk ar (2 ^ 32) heap.head m

/-- The memory after `free(ptr)`. -/
def free (heap : Heap) (m : Mem) (ptr : BitVec 32) : Option Mem := freeWith .wrapping heap m ptr

end Heap

/-- The static object of the global wrappers.  It is zero from the start, and nothing in the kernel
calls its `init` or assigns its fields. -/
def kernelHeap : Heap := ⟨0, 0⟩

def kmalloc (m : Mem) (size : BitVec 32) : Option (Mem × BitVec 32) := kernelHeap.alloc m size

def kfree (m : Mem) (ptr : BitVec 32) : Option Mem := kernelHeap.free m ptr

end Sapphire
