import Sapphire.Lib.Bitmap
import Sapphire.MemoryMap

/-! The physical frame allocator of `frame_alloc.hpp` and `frame_alloc.cpp`: one bit for each 4 KiB
frame, set when the frame is in use, in a bitmap at `bitmapBase`. -/

namespace Sapphire

open Machine

structure FrameAllocator where
  bitmap : BitVec 32
  totalFrames : BitVec 32
  bitmapSize : BitVec 32

namespace FrameAllocator

def clamp (addr : BitVec 64) : BitVec 32 := clamp32 addr

def getFrameNumber (addr : BitVec 32) : BitVec 32 := addr / pageSize

def markUsed (fa : FrameAllocator) (m : Mem) (addr : BitVec 32) : Mem :=
  setBit m fa.bitmap (getFrameNumber addr)

def markFree (fa : FrameAllocator) (m : Mem) (addr : BitVec 32) : Mem :=
  clearBit m fa.bitmap (getFrameNumber addr)

def mark (fa : FrameAllocator) (m : Mem) (start stop : BitVec 32) (free : Bool) : Mem :=
  let start := pageDown start
  let stop := pageUp stop
  forUp pageSize start stop
    (fun m addr => if free then fa.markFree m addr else fa.markUsed m addr) m

def markRangeUsed (fa : FrameAllocator) (m : Mem) (start stop : BitVec 32) : Mem :=
  fa.mark m start stop false

def markRangeFree (fa : FrameAllocator) (m : Mem) (start stop : BitVec 32) : Mem :=
  fa.mark m start stop true

/-- Step 1 of `init`: the highest clamped end of a usable entry. -/
def highestAddr (mmap : MemoryMap) : BitVec 32 :=
  mmap.entries.foldl (fun highest entry =>
    if entry.type ≠ 1 then highest
    else
      let end64 := entry.base + entry.length
      let end32 := clamp end64
      if end32 > highest then end32 else highest) 0

def init (m : Mem) (mmap : MemoryMap) : FrameAllocator × Mem :=
  -- steps 1 to 3
  let totalFrames := highestAddr mmap / pageSize
  let bitmapSize := (totalFrames + 7) / 8
  let fa : FrameAllocator := ⟨bitmapBase, totalFrames, bitmapSize⟩
  -- step 4: every byte of the bitmap is 0xFF
  let m := (List.range bitmapSize.toNat).foldl
    (fun m i => m.store8 (fa.bitmap + BitVec.ofNat 32 i) 0xFF) m
  -- step 5: the frames of the usable entries are free; the base is cut to its low 32 bits
  let m := mmap.entries.foldl (fun m entry =>
    if entry.type ≠ 1 then m
    else fa.markRangeFree m (entry.base.setWidth 32) (clamp (entry.base + entry.length))) m
  -- step 6: the first megabyte, the page tables and the bitmap are in use
  let m := fa.markRangeUsed m biosBase pageBase
  let m := fa.markRangeUsed m pageBase bitmapBase
  let m := fa.markRangeUsed m bitmapBase (bitmapBase + bitmapSize)
  (fa, m)

/-- The first `j < 32` with `(word & (1 << j)) == 0`. -/
def findClear (word : BitVec 32) : Option Nat :=
  (List.range 32).find? fun j => word &&& (1#32 <<< j) == 0

/-- The search of `alloc_frame` from word `i` on, with `n` words left. -/
def allocFrom (fa : FrameAllocator) (m : Mem) : Nat → Nat → Mem × BitVec 32
  | 0, _ => (m, 0)
  | n + 1, i =>
    let addr := fa.bitmap + 4 * BitVec.ofNat 32 i
    let word := m.load32 addr
    if word = 0xFFFFFFFF#32 then fa.allocFrom m n (i + 1)
    else match findClear word with
      | some j => (m.store32 addr (word ||| (1#32 <<< j)),
          (BitVec.ofNat 32 i * 32 + BitVec.ofNat 32 j) * pageSize)
      | none => fa.allocFrom m n (i + 1)

/-- The lowest free frame of the words that are scanned, now in use; 0 when there is none. -/
def allocFrame (fa : FrameAllocator) (m : Mem) : Mem × BitVec 32 :=
  fa.allocFrom m (fa.bitmapSize / 4).toNat 0

/-- `n` calls of `alloc_frame`: the memory after them and what they returned, in order. -/
def takeFrames (fa : FrameAllocator) (m : Mem) : Nat → Mem × List (BitVec 32)
  | 0 => (m, [])
  | n + 1 =>
    let r := fa.takeFrames m n
    let f := fa.allocFrame r.1
    (f.1, r.2 ++ [f.2])

def freeFrame (fa : FrameAllocator) (m : Mem) (addr : BitVec 32) : Mem := fa.markFree m addr

end FrameAllocator

end Sapphire
