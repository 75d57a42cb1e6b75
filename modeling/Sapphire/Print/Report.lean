import Sapphire.Interrupt.Frame
import Sapphire.MemoryMap
import Sapphire.Print.Pieces

/-! What the kernel reports: `default_exception_handler` of `idt.cpp`, from which no exception
returns, and `MemoryMap::print` of `memory_map.cpp`. -/

namespace Sapphire

open Machine

def exceptionNames : List String :=
  ["Division by Zero", "Debug", "Non-Maskable Interrupt", "Breakpoint", "Overflow",
    "Bound Range Exceeded", "Invalid Opcode", "Device Not Available", "Double Fault",
    "Coprocessor Segment", "Invalid TSS", "Segment Not Present", "Stack-Segment Fault",
    "General Protection Fault", "Page Fault", "Reserved", "x87 FP Exception", "Alignment Check",
    "Machine Check", "SIMD FP Exception", "Virtualization Exception", "Control Protection",
    "Reserved", "Reserved", "Reserved", "Reserved", "Reserved", "Reserved", "Hypervisor Injection",
    "VMM Communication", "Security Exception", "Reserved"]

/-- `default_exception_handler` before its endless loop; a number without a name is read past the
end of the table. -/
def defaultExceptionHandler (m : Mem) (frame : BitVec 32) (con : Console) :
    Except PrintFault Console :=
  let regs := InterruptFrame.load m frame
  match exceptionNames[regs.interruptNumber.toNat]? with
  | none => .error .overread
  | some name => do
    let con ← kprintf con (.ofString "Exception %d: %s\n")
      [.int regs.interruptNumber, .str (some (.ofString name))]
    let con ← kprintf con (.ofString "Error code: 0x%x\n") [.int regs.errorCode]
    kprintf con (.ofString "EIP: 0x%x\n") [.int regs.eip]

/-- `MemoryMap::print` -/
def MemoryMap.print (mmap : MemoryMap) (con : Console) : Except PrintFault Console := do
  let con ← kprintf con (.ofString "Memory map entry count: %d\n")
    [.int (BitVec.ofNat 32 mmap.entries.length)]
  mmap.entries.zipIdx.foldlM (fun con e =>
    kprintf con (.ofString "Entry %d: Base=0x%x, Length=0x%x, Type=%d\n")
      [.int (BitVec.ofNat 32 e.2 + 1), .int (e.1.base.setWidth 32), .int (e.1.length.setWidth 32),
        .int e.1.type]) con

/-! ### The texts -/

def exceptionLine (number : BitVec 32) (name : String) : List Piece :=
  [.lit "Exception ", .dec number, .lit ": ", .str (.ofString name), .lit "\n"]

/-- The report of an exception. -/
def exceptionReport (number : BitVec 32) (name : String) (errorCode eip : BitVec 32) : List Piece :=
  exceptionLine number name ++ ([.lit "Error code: 0x", .hex errorCode, .lit "\n"] ++
    [.lit "EIP: 0x", .hex eip, .lit "\n"])

def entryLine (number : BitVec 32) (e : E820Entry) : List Piece :=
  [.lit "Entry ", .dec number, .lit ": Base=0x", .hex (e.base.setWidth 32), .lit ", Length=0x",
    .hex (e.length.setWidth 32), .lit ", Type=", .dec e.type, .lit "\n"]

/-- A line for the count and one for each entry, of whose addresses it has the low 32 bits. -/
def mapReport (mmap : MemoryMap) : List Piece :=
  [.lit "Memory map entry count: ", .dec (BitVec.ofNat 32 mmap.entries.length), .lit "\n"] ++
    mmap.entries.zipIdx.flatMap fun e => entryLine (BitVec.ofNat 32 e.2 + 1) e.1

theorem exceptionNames_flat : ∀ name ∈ exceptionNames, ∀ b ∈ charBytes name, breaks b = false := by
  rw [exceptionNames]
  repeat refine List.forall_mem_cons.mpr ⟨forall_charBytes (by decide), ?_⟩
  exact fun _ h => absurd h List.not_mem_nil

theorem exceptionLine_prints {con : Console} (hcol : 0 ≤ con.cursorCol) (number : BitVec 32)
    {name : String} (hname : name ∈ exceptionNames) :
    Prints con (exceptionLine number name) (kprintf con (.ofString "Exception %d: %s\n")
      [.int number, .str (some (.ofString name))]) := by
  refine kprintf_prints rfl rfl ?_ hcol
  have hflat : ∀ b ∈ (CString.ofString name).bytes, breaks b = false := fun b hb =>
    exceptionNames_flat name hname b (ofString_subset name hb)
  simp only [exceptionLine, List.forall_mem_cons, Piece.Simple, true_and]
  exact ⟨forall_charBytes (by decide), forall_charBytes (by decide), hflat,
    forall_charBytes (by decide), fun _ h => absurd h List.not_mem_nil⟩

/-- A line with one number in it. -/
theorem hexLine_prints {con : Console} (hcol : 0 ≤ con.cursorCol) (val : BitVec 32)
    {format : CString} {text : String}
    (hformat : format.bytes = [Piece.lit text, .hex val, .lit "\n"].flatMap Piece.format)
    (htext : ∀ b ∈ charBytes text, b ≠ percent) :
    Prints con [.lit text, .hex val, .lit "\n"] (kprintf con format [.int val]) := by
  refine kprintf_prints hformat rfl ?_ hcol
  simp only [List.forall_mem_cons, Piece.Simple, true_and]
  exact ⟨htext, forall_charBytes (by decide), fun _ h => absurd h List.not_mem_nil⟩

/-- The handler of an exception is called with a frame from which it reports the number, the error
code that the processor pushed, or 0, and the EIP that it pushed: for a fault that of the instruction
that raised it, for a trap that of the next one. -/
theorem exception_report {σ : Type*} (c : Cpu σ) (next : BitVec 32) {vector : Nat}
    (hv : vector < 32) (errorCode : BitVec 32) {con : Console} (hcol : 0 ≤ con.cursorCol) :
    ∃ name, exceptionNames[vector]? = some name ∧
      Prints con (exceptionReport (BitVec.ofNat 32 vector) name
        (if Cpu.hasErrorCode vector then errorCode else 0) c.eip)
        (defaultExceptionHandler (handlerEntry c next vector errorCode).mem (c.esp - 52) con) := by
  have hlt : vector < exceptionNames.length := hv
  have hname := List.getElem?_eq_getElem hlt
  refine ⟨_, hname, ?_⟩
  have hnumber : (BitVec.ofNat 32 vector).toNat = vector := by
    rw [BitVec.toNat_ofNat, Nat.mod_eq_of_lt (by omega)]
  rw [defaultExceptionHandler, load_handlerEntry]
  dsimp only
  rw [hnumber, hname]
  dsimp only
  exact (exceptionLine_prints hcol _ (List.getElem_mem hlt)).bind hcol fun _ hcol1 =>
    (hexLine_prints hcol1 _ rfl (forall_charBytes (by decide))).bind hcol1 fun _ hcol2 =>
      hexLine_prints hcol2 _ rfl (forall_charBytes (by decide))

/-- A page fault. -/
theorem exception_report_pageFault :
    let c : Cpu Unit := { mem := fun _ => 0, esp := 0xC0110000, eax := 0, ebx := 0, ecx := 0, edx := 0
                          esi := 0, edi := 0, ebp := 0, eip := 0xC0101234, cs := 8, eflags := 0x202
                          dev := () }
    Prints ⟨0, 0, []⟩ (exceptionReport 14 "Page Fault" 2 0xC0101234) (defaultExceptionHandler
      (handlerEntry c 0xC0100200 14 2).mem (c.esp - 52) ⟨0, 0, []⟩) := by
  intro c
  obtain ⟨name, hname, hprints⟩ :=
    exception_report c 0xC0100200 (by decide : 14 < 32) 2 (le_refl (⟨0, 0, []⟩ : Console).cursorCol)
  obtain rfl : "Page Fault" = name := Option.some.inj hname
  have hcode : Cpu.hasErrorCode 14 = true := by decide
  rw [if_pos hcode] at hprints
  exact hprints

theorem entryLine_prints {con : Console} (hcol : 0 ≤ con.cursorCol) (number : BitVec 32)
    (e : E820Entry) :
    Prints con (entryLine number e)
      (kprintf con (.ofString "Entry %d: Base=0x%x, Length=0x%x, Type=%d\n")
        [.int number, .int (e.base.setWidth 32), .int (e.length.setWidth 32), .int e.type]) := by
  refine kprintf_prints rfl rfl ?_ hcol
  simp only [entryLine, List.forall_mem_cons, Piece.Simple, true_and]
  exact ⟨forall_charBytes (by decide), forall_charBytes (by decide), forall_charBytes (by decide),
    forall_charBytes (by decide), forall_charBytes (by decide),
    fun _ h => absurd h List.not_mem_nil⟩

/-- The memory map is printed entry by entry, with its entries numbered from 1. -/
theorem memory_map_report (mmap : MemoryMap) {con : Console} (hcol : 0 ≤ con.cursorCol) :
    Prints con (mapReport mmap) (mmap.print con) := by
  refine Prints.bind (kprintf_prints rfl rfl ?_ hcol) hcol fun _ hcol1 =>
    prints_foldlM (fun e _ _ hcol2 => entryLine_prints hcol2 _ e.1) hcol1
  simp only [List.forall_mem_cons, Piece.Simple, true_and]
  exact ⟨forall_charBytes (by decide), forall_charBytes (by decide),
    fun _ h => absurd h List.not_mem_nil⟩

/-- The BIOS data area and a gigabyte of memory from 4 GiB on. -/
theorem memory_map_report_twoEntries :
    let mmap : MemoryMap := ⟨[⟨0, 0x9FC00, 1⟩, ⟨0x100000000, 0x40000000, 1⟩]⟩
    Prints ⟨0, 0, []⟩
      ([.lit "Memory map entry count: ", .dec 2, .lit "\n"] ++
        (entryLine 1 ⟨0, 0x9FC00, 1⟩ ++ entryLine 2 ⟨0x100000000, 0x40000000, 1⟩))
      (mmap.print ⟨0, 0, []⟩) :=
  memory_map_report ⟨[⟨0, 0x9FC00, 1⟩, ⟨0x100000000, 0x40000000, 1⟩]⟩ (le_refl 0)

end Sapphire
