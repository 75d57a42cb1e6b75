import Sapphire.Keyboard
import Sapphire.Paging

/-! The `read` system call of `read.hpp` and `read.cpp`, and the loop of `kmain` in `kernel/main.cpp`
that repeats it until it has what it wants.  The keyboard is an object of its own, apart from the
memory that holds the caller's arguments and buffer.  The file descriptor is read by nobody. -/

namespace Sapphire

open Machine

namespace ReadArguments

def count (m : Mem) (args : BitVec 32) : BitVec 32 := m.load32 args

def setCount (m : Mem) (args count : BitVec 32) : Mem := m.store32 args count

def setFd (m : Mem) (args fd : BitVec 32) : Mem := m.store32 (args + 4) fd

def buf (m : Mem) (args : BitVec 32) : BitVec 32 := m.load32 (args + 8)

def setBuf (m : Mem) (args buf : BitVec 32) : Mem := m.store32 (args + 8) buf

end ReadArguments

/-- The loop of `sys_read` after `charsProcessed` characters, with at most `fuel` rounds: the
keyboard, the memory and the result.  Every round reads `args->count` and `args->buf` again. -/
def sysReadLoop (args : BitVec 32) :
    Nat → BitVec 32 → Keyboard → Mem → Keyboard × Mem × BitVec 32
  | 0, charsProcessed, kb, m => (kb, m, charsProcessed)
  | fuel + 1, charsProcessed, kb, m =>
    if charsProcessed < ReadArguments.count m args then
      if ¬ kb.hasInput then (kb, m, charsProcessed)
      else
        let c := kb.readChar
        sysReadLoop args fuel (charsProcessed + 1) c.2
          (m.store8 (ReadArguments.buf m args + charsProcessed) c.1)
    else (kb, m, charsProcessed)

def sysRead (kb : Keyboard) (m : Mem) (arg1 : BitVec 32) : Keyboard × Mem × BitVec 32 :=
  sysReadLoop arg1 (2 ^ 32) 0 kb m

/-! ### The loop of `kmain` -/

/-- The locals of `kmain` that the loop uses: where `buf_ra` and `ra` are, and `wanted`, which is 4
there, one less than the size of `buf_ra`. -/
structure ReadLocals where
  bufRa : BitVec 32
  ra : BitVec 32
  wanted : BitVec 32

namespace ReadLocals

/-- `buf_ra` is cleared and `ra.fd` set before the loop. -/
def enter (l : ReadLocals) (m : Mem) : Mem :=
  ReadArguments.setFd (zeroMemory m l.bufRa (l.wanted + 1)) l.ra 1

/-- One round, with `total` characters so far. -/
def round (l : ReadLocals) (kb : Keyboard) (m : Mem) (total : BitVec 32) :
    Keyboard × Mem × BitVec 32 :=
  let m := ReadArguments.setBuf m l.ra (l.bufRa + total)
  let m := ReadArguments.setCount m l.ra (l.wanted - total)
  let r := sysRead kb m l.ra
  (r.1, r.2.1, total + r.2.2)

end ReadLocals

end Sapphire
