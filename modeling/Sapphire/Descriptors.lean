import Mathlib.Data.BitVec
import Mathlib.Data.List.Basic

/-! The tables of `gdt.hpp`, `gdt.cpp`, `idt.hpp` and `idt.cpp`, as the functions fill them.  A
packed structure of eight bytes is the little-endian word of its fields, the first one in the low
bits.  `idt::init` also calls `pic_remap`, which has a model of its own, and loads the table. -/

namespace Sapphire

/-! ### Segments -/

abbrev gdtAccessCodeReadable : BitVec 8 := 0x02
abbrev gdtAccessDataWriteable : BitVec 8 := 0x02
abbrev gdtAccessDataSegment : BitVec 8 := 0x10
abbrev gdtAccessCodeSegment : BitVec 8 := 0x18
abbrev gdtAccessRing0 : BitVec 8 := 0x00
abbrev gdtAccessPresent : BitVec 8 := 0x80
abbrev gdtFlag32bit : BitVec 8 := 0x40
abbrev gdtFlagGranularity4k : BitVec 8 := 0x80

abbrev gdtCodeSegment : BitVec 16 := 0x08
abbrev gdtDataSegment : BitVec 16 := 0x10

structure GDTEntry where
  limitLow : BitVec 16
  baseLow : BitVec 16
  baseMiddle : BitVec 8
  access : BitVec 8
  granularity : BitVec 8
  baseHigh : BitVec 8
  deriving DecidableEq

def GDTEntry.packed (e : GDTEntry) : BitVec 64 :=
  e.baseHigh ++ e.granularity ++ e.access ++ e.baseMiddle ++ e.baseLow ++ e.limitLow

/-- `GDT_ENTRY` -/
def gdtEntry (base limit : BitVec 32) (access flags : BitVec 8) : GDTEntry where
  limitLow := (limit &&& 0xFFFF).setWidth 16
  baseLow := (base &&& 0xFFFF).setWidth 16
  baseMiddle := (base >>> 16 &&& 0xFF).setWidth 8
  access := access
  granularity := (limit >>> 16 &&& 0x0F).setWidth 8 ||| (flags &&& 0xF0)
  baseHigh := (base >>> 24 &&& 0xFF).setWidth 8

/-- `g_GDT` -/
def gGDT : List GDTEntry := [
  gdtEntry 0 0 0 0,
  gdtEntry 0x00000000 0xFFFFFFFF
    (gdtAccessPresent ||| gdtAccessRing0 ||| gdtAccessCodeSegment ||| gdtAccessCodeReadable)
    (gdtFlag32bit ||| gdtFlagGranularity4k),
  gdtEntry 0x00000000 0xFFFFFFFF
    (gdtAccessPresent ||| gdtAccessRing0 ||| gdtAccessDataSegment ||| gdtAccessDataWriteable)
    (gdtFlag32bit ||| gdtFlagGranularity4k)]

/-- The limit of `g_GDTDescriptor`. -/
def gdtLimit : BitVec 16 := BitVec.ofNat 16 (8 * gGDT.length - 1)

/-- The descriptors at `gdt` in `stage2.asm`. -/
def bootstrapGDT : List GDTEntry := [
  ⟨0, 0, 0, 0, 0, 0⟩,
  ⟨0xFFFF, 0x0000, 0x00, 0b10011010, 0b11001111, 0x00⟩,
  ⟨0xFFFF, 0x0000, 0x00, 0b10010010, 0b11001111, 0x00⟩]

/-! ### Gates and handlers -/

abbrev idtMaxEntries : Nat := 256
abbrev idtFlagGateInterrupt : BitVec 8 := 0x8E

structure IDTEntry where
  offsetLow : BitVec 16
  selector : BitVec 16
  reserved : BitVec 8
  flags : BitVec 8
  offsetHigh : BitVec 16
  deriving DecidableEq

def IDTEntry.packed (e : IDTEntry) : BitVec 64 :=
  e.offsetHigh ++ e.flags ++ e.reserved ++ e.selector ++ e.offsetLow

structure IDTDescriptor where
  limit : BitVec 16
  base : BitVec 32

/-- The functions that are handlers in the kernel. -/
inductive Handler
  | default
  | defaultException
  | defaultIrq
  | keyboardIrq
  | syscall
  deriving DecidableEq

/-- `fill` of `fill.hpp` -/
def fill {α : Type*} (arr : Nat → α) (val : α) (start stop : Nat) : Nat → α :=
  (List.range' start (stop - start)).foldl (fun arr i => Function.update arr i val) arr

/-- The globals of `idt.cpp`. -/
structure Idt where
  gIDT : Nat → IDTEntry
  gIDTDescriptor : IDTDescriptor
  handlers : Nat → Handler

namespace Idt

def setEntry (s : Idt) (index : BitVec 8) (handler : BitVec 32) (flags : BitVec 8) : Idt :=
  { s with gIDT := Function.update s.gIDT index.toNat {
      offsetLow := (handler &&& 0xFFFF).setWidth 16
      selector := gdtCodeSegment
      reserved := 0
      flags := flags
      offsetHigh := (handler >>> 16 &&& 0xFFFF).setWidth 16 } }

/-- Of `idt::init` what it does to the globals; the addresses are those of the table and of the
stubs. -/
def init (gIdt : BitVec 32) (isr irqp : Nat → BitVec 32) (isr128 : BitVec 32) (s : Idt) : Idt :=
  let s := { s with gIDTDescriptor := ⟨BitVec.ofNat 16 (8 * idtMaxEntries - 1), gIdt⟩ }
  let handlers := fill s.handlers .default 0 256
  let handlers := fill handlers .defaultException 0 32
  let handlers := fill handlers .defaultIrq 32 48
  let s := { s with handlers := handlers }
  let s := (List.range 32).foldl
    (fun s i => s.setEntry (BitVec.ofNat 8 i) (isr i) idtFlagGateInterrupt) s
  let s := (List.range' 32 16).foldl
    (fun s i => s.setEntry (BitVec.ofNat 8 i) (irqp (i - 32)) idtFlagGateInterrupt) s
  s.setEntry 128 isr128 idtFlagGateInterrupt

/-- `interrupts::register_handler` -/
def registerHandler (s : Idt) (intno : BitVec 8) (handler : Handler) : Idt :=
  { s with handlers := Function.update s.handlers intno.toNat handler }

end Idt

end Sapphire
