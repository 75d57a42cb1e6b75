import Sapphire.Framebuffer
import Sapphire.Print.Pieces
import Sapphire.Syscall.Unknown

/-! `kmain` of `kernel/main.cpp`, a statement at a time.  The pixels that `kprintf` draws are left out
of the memory, and a system call is the function of the table for its number.  The locals of `kmain`
are in memory as far as their addresses are taken. -/

namespace Sapphire

open Machine

/-- `COLOR_RED` -/
abbrev colorRed : BitVec 32 := 0xAA0000

/-- Where `kmain` has its string, the arguments of its system calls, and its buffer. -/
structure KmainFrame where
  bufWa : BitVec 32
  wa : BitVec 32
  bufRa : BitVec 32
  ra : BitVec 32

namespace KmainFrame

def reads (l : KmainFrame) : ReadLocals := ⟨l.bufRa, l.ra, 4⟩

/-- The fields of `wa` are set. -/
def setWa (l : KmainFrame) (m : Mem) : Mem :=
  ((m.store32 l.wa 4).store32 (l.wa + 4) 0).store32 (l.wa + 8) l.bufWa

end KmainFrame

/-- The next statement, with the locals of which no address is taken. -/
inductive KmainPc
  | hello
  | drawLine
  | initKeyboard
  | ready
  | write
  | written (res : BitVec 32)
  | loop (total : BitVec 32)
  | result
  | done
  deriving DecidableEq

/-- The keyboard has its handler. -/
def KmainPc.listens : KmainPc → Bool
  | .hello | .drawLine | .initKeyboard => false
  | _ => true

structure Kmain where
  pc : KmainPc
  mem : Mem
  dev : Devices
  /-- What was typed since the keyboard has its handler. -/
  typed : List (BitVec 8)

inductive KmainFault where
  | print (fault : PrintFault)
  | overflow

namespace Kmain

/-- A call of `kprintf`, and the statement after it. -/
def print (s : Kmain) (format : String) (args : List VaArg) (next : KmainPc) :
    Except KmainFault Kmain :=
  match kprintf s.dev.con (.ofString format) args with
  | .ok con => .ok { s with pc := next, dev := { s.dev with con } }
  | .error fault => .error (.print fault)

/-- A statement of `kmain`, or a round of its loop. -/
def step (fb : FramebufferInfo) (l : KmainFrame) (s : Kmain) : Except KmainFault Kmain :=
  match s.pc with
  | .hello =>
    s.print "\n\nHello, World! This is a test of the kernel's main function." [] .drawLine
  | .drawLine =>
    match line fb s.mem 10 10 100 100 colorRed with
    | some m => .ok { s with pc := .initKeyboard, mem := m }
    | none => .error .overflow
  | .initKeyboard => .ok { s with pc := .ready, dev := { s.dev with kb := s.dev.kb.init } }
  | .ready => s.print "\n[keyboard]: Keyboard driver is ready\n" [] .write
  | .write =>
    let r := syscallTable sysReadImp sysWriteImp 1 l.wa (l.setWa s.mem, s.dev)
    .ok { s with pc := .written r.2, mem := r.1.1, dev := r.1.2 }
  | .written res =>
    { s with mem := l.reads.enter s.mem }.print " <-- %d characters written from syscall.\n"
      [.int res] (.loop 0)
  | .loop total =>
    if total < 4 then
      let r := l.reads.round s.dev.kb s.mem total
      .ok { s with pc := .loop r.2.2, mem := r.2.1, dev := { s.dev with kb := r.1 } }
    else s.print "\n%d characters read from syscall.\n" [.int total] .result
  | .result =>
    s.print "%s --> read from syscall" [.str (some (.ofBytes (bytesAt s.mem l.bufRa 5)))] .done
  | .done => .ok s

end Kmain

/-- A statement, or a key: its interrupt changes the keyboard only, which only the system calls read,
with interrupts off, so it is enough that keys come between statements. -/
inductive KmainEvent (fb : FramebufferInfo) (l : KmainFrame) : Kmain → Kmain → Prop
  | step {s s' : Kmain} (h : s.step fb l = .ok s') : KmainEvent fb l s s'
  | key {s : Kmain} (scancode : BitVec 8) (h : s.pc.listens = true) :
      KmainEvent fb l s { s with
        dev := { s.dev with kb := s.dev.kb.handleInterrupt scancode }
        typed := s.typed ++ (s.dev.kb.enqueued scancode).toList }

namespace Kmain

/-- How many characters have been read. -/
def taken (s : Kmain) : Nat :=
  match s.pc with
  | .loop total => total.toNat
  | .result | .done => 4
  | _ => 0

/-- Runs that leave at most 256 characters unread in every state. -/
def Runs (fb : FramebufferInfo) (l : KmainFrame) : Kmain → Kmain → Prop :=
  Relation.ReflTransGen fun s s' => KmainEvent fb l s s' ∧ s'.typed.length ≤ s'.taken + 256

end Kmain

end Sapphire
