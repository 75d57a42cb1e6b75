import Sapphire.Lib.Stack

/-! Interrupts and system calls, of `idt.asm`, `idt.hpp`, `idt.cpp`, `syscall.asm` and `syscall.cpp`.
The processor is its general registers, a stack in the memory, and the devices, whose state is of
any type.  The stubs are lists of instructions; the C++ functions that they call take the address of
an `InterruptFrame` and change the memory and the devices, and `Compiled` says what their machine
code does in terms of that.  All code runs in ring 0, so an interrupt switches no stack. -/

namespace Sapphire

open Machine

/-- The processor, the memory and the devices.  Between instructions `eip` is where execution goes
on. -/
structure Cpu (σ : Type*) extends Stack where
  eax : BitVec 32
  ebx : BitVec 32
  ecx : BitVec 32
  edx : BitVec 32
  esi : BitVec 32
  edi : BitVec 32
  ebp : BitVec 32
  eip : BitVec 32
  cs : BitVec 32
  eflags : BitVec 32
  dev : σ

structure InterruptFrame where
  edi : BitVec 32
  esi : BitVec 32
  ebp : BitVec 32
  espDummy : BitVec 32
  ebx : BitVec 32
  edx : BitVec 32
  ecx : BitVec 32
  eax : BitVec 32
  interruptNumber : BitVec 32
  errorCode : BitVec 32
  eip : BitVec 32
  cs : BitVec 32
  eflags : BitVec 32
  deriving DecidableEq

namespace InterruptFrame

/-- The packed frame at `frame`. -/
def load (m : Mem) (frame : BitVec 32) : InterruptFrame :=
  let field := fun k => m.load32 (slot frame k)
  ⟨field 0, field 1, field 2, field 3, field 4, field 5, field 6, field 7, field 8, field 9,
    field 10, field 11, field 12⟩

def setEax (m : Mem) (frame eax : BitVec 32) : Mem := m.store32 (slot frame 7) eax

end InterruptFrame

/-! ### The processor -/

/-- The instructions of the stubs and of `send_syscall`, with operands as they occur there.  A call
and an interrupt carry the address of the next instruction. -/
inductive Instr
  | push (v : BitVec 32)
  | pushEbx
  | pushEsp
  | popEbx
  | pusha
  | popa
  | addEsp (v : BitVec 32)
  | movEax (offset : BitVec 32)
  | movEbx (offset : BitVec 32)
  | call (next : BitVec 32)
  | int (vector : Nat) (next : BitVec 32)
  | iret
  | ret
  deriving DecidableEq

namespace Cpu

variable {σ : Type*}

def push (c : Cpu σ) (v : BitVec 32) : Cpu σ := { c with toStack := c.toStack.push v }

/-- The processor pushes an error code for these vectors only. -/
def hasErrorCode (vector : Nat) : Bool := vector ∈ [8, 10, 11, 12, 13, 14, 17, 21, 29, 30]

/-- An interrupt through an interrupt gate: what the processor pushes, the code segment of the gate,
and the flags it clears. -/
def raise (c : Cpu σ) (vector : Nat) (errorCode : BitVec 32) : Cpu σ :=
  { c with
    toStack := c.toStack.pushAll
      ([c.eflags, c.cs, c.eip] ++ if hasErrorCode vector then [errorCode] else [])
    cs := 0x08
    eflags := c.eflags &&& ~~~0x34300#32 }

/-- One instruction, where `callee` is the function that is called and `trap` what an interrupt
does. -/
def exec (callee : Cpu σ → Cpu σ) (trap : Nat → Cpu σ → Cpu σ) (c : Cpu σ) : Instr → Cpu σ
  | .push v => c.push v
  | .pushEbx => c.push c.ebx
  | .pushEsp => c.push c.esp
  | .popEbx => { c with ebx := c.word 0, esp := c.esp + 4 }
  | .pusha => { c with
      toStack := c.toStack.pushAll [c.eax, c.ecx, c.edx, c.ebx, c.esp, c.ebp, c.esi, c.edi] }
  -- the word of `esp` is skipped
  | .popa => { c with
      edi := c.word 0, esi := c.word 1, ebp := c.word 2, ebx := c.word 4, edx := c.word 5
      ecx := c.word 6, eax := c.word 7, esp := c.esp + 32 }
  | .addEsp v => { c with esp := c.esp + v }
  | .movEax offset => { c with eax := c.mem.load32 (c.esp + offset) }
  | .movEbx offset => { c with ebx := c.mem.load32 (c.esp + offset) }
  | .call next => callee (c.push next)
  | .int vector next => trap vector { c with eip := next }
  | .iret => { c with
      eip := c.word 0, cs := c.word 1, eflags := c.word 2, esp := c.esp + 12 }
  | .ret => { c with eip := c.word 0, esp := c.esp + 4 }

def run (callee : Cpu σ → Cpu σ) (trap : Nat → Cpu σ → Cpu σ) (c : Cpu σ) (code : List Instr) :
    Cpu σ :=
  code.foldl (exec callee trap) c

end Cpu

/-! ### The stubs -/

/-- `isr_common`, with the address to which `isr_handler` returns. -/
def isrCommon (next : BitVec 32) : List Instr :=
  [.pusha, .pushEsp, .call next, .addEsp 4, .popa, .addEsp 8, .iret]

/-- `ISR_NO_ERR`, before its jump to `isr_common`. -/
def isrNoErr (n : Nat) : List Instr := [.push 0, .push (BitVec.ofNat 32 n)]

/-- `ISR_HAS_ERR`, before its jump to `isr_common`. -/
def isrHasErr (n : Nat) : List Instr := [.push (BitVec.ofNat 32 n)]

/-- `IRQ`, before its jump to `isr_common`. -/
def irqStub (n : Nat) : List Instr := [.push 0, .push (BitVec.ofNat 32 n)]

/-- `isr0` to `isr31` -/
def isr : Nat → List Instr
  | 8 => isrHasErr 8
  | 10 => isrHasErr 10
  | 11 => isrHasErr 11
  | 12 => isrHasErr 12
  | 13 => isrHasErr 13
  | 14 => isrHasErr 14
  | 17 => isrHasErr 17
  | 21 => isrHasErr 21
  | 29 => isrHasErr 29
  | 30 => isrHasErr 30
  | n => isrNoErr n

/-- `irq0` to `irq15` -/
def irq (n : Nat) : List Instr := irqStub (n + 32)

def isr128 : List Instr := [.push 0, .push 128]

/-- The stub that `idt::init` enters for a vector, before its jump to `isr_common`. -/
def stub (vector : Nat) : Option (List Instr) :=
  if vector < 32 then some (isr vector)
  else if vector < 48 then some (irq (vector - 32))
  else if vector = 128 then some isr128
  else none

/-- An interrupt up to the return from its stub, if it has one. -/
def interrupt {σ : Type*} (isrHandler : Cpu σ → Cpu σ) (next : BitVec 32) (vector : Nat)
    (errorCode : BitVec 32) (c : Cpu σ) : Option (Cpu σ) :=
  (stub vector).map fun entry =>
    (c.raise vector errorCode).run isrHandler (fun _ c => c) (entry ++ isrCommon next)

/-! ### The handlers -/

section

variable {σ : Type*}

/-- `isr_t`: a C++ function of a frame, by what it does to the memory and the devices. -/
abbrev Isr (σ : Type*) := BitVec 32 → Mem × σ → Mem × σ

def isrHandler (handlers : BitVec 32 → Option (Isr σ)) (picSendEoi : BitVec 32 → σ → σ) : Isr σ :=
  fun frame st =>
    let intno := (InterruptFrame.load st.1 frame).interruptNumber
    let st := match handlers intno with
      | some handler => handler frame st
      | none => st
    if 32 ≤ intno ∧ intno < 48 then (st.1, picSendEoi (intno - 32) st.2) else st

/-- `syscall_imp` -/
abbrev SyscallImp (σ : Type*) := BitVec 32 → Mem × σ → (Mem × σ) × BitVec 32

def sysDefault : SyscallImp σ := fun _ st => (st, -1)

/-- `syscall_table` after `syscalls::init` -/
def syscallTable (sysRead sysWrite : SyscallImp σ) (number : BitVec 32) : SyscallImp σ :=
  if number = 0 then sysRead else if number = 1 then sysWrite else sysDefault

def syscallHandler (table : BitVec 32 → SyscallImp σ) : Isr σ := fun frame st =>
  let regs := InterruptFrame.load st.1 frame
  let syscallNumber := regs.eax &&& 0xFF
  let r := table syscallNumber regs.ebx st
  (InterruptFrame.setEax r.1.1 frame r.2, r.1.2)

/-- Machine code of a function of a frame, entered by a call with the frame's address on the stack
and the frame right above it: it returns, and does to the memory and the devices what the function
does, except that it uses `depth` bytes of stack below the frame. -/
structure Compiled (f : Isr σ) where
  run : Cpu σ → Cpu σ
  depth : Nat
  depth_le : depth ≤ 2 ^ 31
  esp : ∀ c, c.word 1 = c.esp + 8 → (run c).esp = c.esp + 4
  eip : ∀ c, c.word 1 = c.esp + 8 → (run c).eip = c.word 0
  mem : ∀ c, c.word 1 = c.esp + 8 → ChangesOnly (span (c.esp + 8 - BitVec.ofNat 32 depth) depth)
    (f (c.esp + 8) (c.mem, c.dev)).1 (run c).mem
  dev : ∀ c, c.word 1 = c.esp + 8 → (run c).dev = (f (c.esp + 8) (c.mem, c.dev)).2

/-! ### `send_syscall` -/

/-- `send_syscall`, with the address after `int 0x80`. -/
def sendSyscallCode (next : BitVec 32) : List Instr :=
  [.pushEbx, .movEax 8, .movEbx 12, .int 0x80 next, .popEbx, .ret]

/-- A call of `send_syscall` that returns to `back`, up to the return; `afterCall` and `afterInt`
are the addresses after the call in `isr_common` and after `int 0x80`. -/
def sendSyscall (isrHandler : Cpu σ → Cpu σ) (back afterCall afterInt : BitVec 32) (c : Cpu σ) :
    Cpu σ :=
  (c.push back).run id (fun vector c => (interrupt isrHandler afterCall vector 0 c).getD c)
    (sendSyscallCode afterInt)

end

end Sapphire
