import Sapphire.Lib.Bytes

/-! The part of `boot/stage2.asm` that asks the BIOS for the memory map.  It runs in real mode with
`DS = ES = 0`, so its memory is the first 64 KiB.  The label `e820_map` is a parameter, and
`boot_info` follows its 128 bytes. -/

namespace Sapphire

open Machine

/-- `PG_DIR` of `stage2.asm` -/
abbrev pgDir : BitVec 32 := 0x9C000

/-- The memory that a 16-bit offset reaches. -/
abbrev Segment := BitVec 16 → BitVec 8

namespace Stage2

def smap : BitVec 32 := 0x534D4150

/-- What `int 0x15` with function `0xE820` leaves in the carry flag and the registers, and the bytes
that it writes at `ES:DI`.  It keeps `DI` and `BP`. -/
structure Reply where
  carry : Bool
  eax : BitVec 32
  ebx : BitVec 32
  ecx : BitVec 32
  entry : List (BitVec 8)
  length_entry : entry.length ≤ 20

structure State where
  mem : Segment
  di : BitVec 16
  bp : BitVec 16

def int15 (s : State) (r : Reply) : State := { s with mem := writeBytes s.mem s.di r.entry }

/-- The loop, and the replies that it leaves.  There is no result when it asks for one more. -/
def nextE820Entry : List Reply → State → Option (State × List Reply)
  | [], _ => none
  | r :: rest, s =>
    let s := int15 s r
    if r.carry then some (s, rest)
    else if r.eax ≠ smap then some (s, rest)
    else
      let s := if r.ecx = 0 then s else { s with bp := s.bp + 1, di := s.di + 20 }
      if r.ebx = 0 then some (s, rest)
      else if s.bp.slt 64 then nextE820Entry rest s
      else some (s, rest)

def bootInfo (e820Map : BitVec 16) : BitVec 16 := e820Map + 128

/-- The fields of `boot_info` as they are assembled. -/
def bootInfoData (e820Map : BitVec 16) : List (BitVec 8) :=
  littleEndian 4 e820Map.toNat ++ littleEndian 4 0 ++ littleEndian 4 pgDir.toNat

/-- The memory with the data of `e820_map` and `boot_info` loaded. -/
def load (m : Segment) (e820Map : BitVec 16) : Segment :=
  writeBytes m e820Map (List.replicate 128 0 ++ bootInfoData e820Map)

/-- `mov [boot_info.e820_entry_count], bp`. -/
def mmDone (e820Map : BitVec 16) (s : State) : Segment :=
  writeBytes s.mem (bootInfo e820Map + 4) (littleEndian 2 s.bp.toNat)

/-- The memory after the count has been stored, and the replies that are left. -/
def generateMemoryMap (m : Segment) (e820Map : BitVec 16) (replies : List Reply) :
    Option (Segment × List Reply) :=
  (nextE820Entry replies ⟨load m e820Map, e820Map, 0⟩).map fun r => (mmDone e820Map r.1, r.2)

end Stage2

end Sapphire
