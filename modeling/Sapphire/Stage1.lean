import Sapphire.Lib.RealMode
import Mathlib.Data.Nat.Count

/-! `disk_read` of `boot/util.asm`, with which `boot/stage1.asm` loads what follows the boot sector.
Blocks that have no label in the source are named after what they do, and a block that another one
falls into is the target of a jump.  The BIOS is the contents of the drives and its replies to the
calls of each kind, in their order.  The boot sector is at `0x7C00`, and the stack of stage 1 ends
there. -/

namespace Sapphire

open Machine RealMode

namespace Stage1

abbrev sectorsPerTrack : BitVec 16 := 18
abbrev numHeads : BitVec 16 := 2
abbrev sectorsToRead : BitVec 16 := 1024
abbrev maxRetries : BitVec 16 := 3

/-! ### The BIOS -/

/-- What a call leaves: the carry flag, `AX`, and the bytes that were pushed below the top of the
stack, at most `depth` of them.  It keeps the other registers. -/
structure Reply (depth : Nat) where
  carry : Bool
  ax : BitVec 16
  below : List (BitVec 8)
  length_below : below.length ≤ depth

structure Bios where
  depth : Nat
  -- the stack that is left when `disk_read` makes a call
  depth_le : depth ≤ 0x7BE6
  sector : BitVec 8 → Nat → List (BitVec 8)
  length_sector : ∀ drive lba, (sector drive lba).length = 512
  read : Nat → Reply depth
  reset : Nat → Reply depth
  teletype : Nat → Reply depth

/-- The numbers of calls so far. -/
structure Calls where
  reads : Nat
  resets : Nat
  teletypes : Nat

def Reply.apply {depth : Nat} (r : Reply depth) (s : State Calls) : State Calls :=
  { s with
    ax := r.ax
    cf := r.carry
    mem := writeBytes s.mem (addr s.sp - BitVec.ofNat 32 r.below.length) r.below }

/-- The sector that `CH`, `CL` and `DH` address on a disk of two heads and 18 sectors a track.  The
upper bits of `CL` belong to the cylinder. -/
def lba (ch cl dh : BitVec 8) : Nat :=
  ((cl.toNat / 64 * 256 + ch.toNat) * 2 + dh.toNat) * 18 + (cl.toNat % 64 - 1)

/-- `int 0x13`: function 2 for one sector, and otherwise the reset. -/
def int13 (bios : Bios) (s : State Calls) : State Calls :=
  if s.get8 .ah = 2 ∧ s.get8 .al = 1 then
    let r := bios.read s.dev.reads
    let s' := { r.apply s with dev := { s.dev with reads := s.dev.reads + 1 } }
    if r.carry then s'
    else { s' with
      mem := writeBytes s'.mem (linear s.es s.bx)
        (bios.sector (s.get8 .dl) (lba (s.get8 .ch) (s.get8 .cl) (s.get8 .dh))) }
  else
    { (bios.reset s.dev.resets).apply s with dev := { s.dev with resets := s.dev.resets + 1 } }

/-- `int 0x10`, which prints a character. -/
def int10 (bios : Bios) (s : State Calls) : State Calls :=
  { (bios.teletype s.dev.teletypes).apply s with
    dev := { s.dev with teletypes := s.dev.teletypes + 1 } }

def service (bios : Bios) (vector : BitVec 8) (s : State Calls) : State Calls :=
  if vector = 0x13 then int13 bios s else int10 bios s

/-! ### The code -/

/-- Where the data of `disk_read` are in the boot sector: `.cylinder`, followed by `.head` and
`.sector`, and behind them `.err_msg`. -/
structure Layout where
  cylinder : BitVec 16
  errMsg : BitVec 16
  cylinder_ge : 0x7C00 ≤ cylinder.toNat
  errMsg_ge : cylinder.toNat + 3 ≤ errMsg.toNat
  errMsg_le : errMsg.toNat + 18 ≤ 0x7E00

def Layout.head (L : Layout) : BitVec 16 := L.cylinder + 1

def Layout.sector (L : Layout) : BitVec 16 := L.cylinder + 2

/-- The bytes of `.err_msg`. -/
def message : List (BitVec 8) :=
  "DISK READ ERROR".toList.map (fun c => BitVec.ofNat 8 c.toNat) ++ [13, 10, 0]

inductive Label
  | diskRead | loop | convert | retry | readFailed | reset | readOk | done | fail | print | teletype
  | halt

def code (L : Layout) : Label → CodeBlock Label
  | .diskRead =>
    ⟨[.pusha, .mov .ax .bx, .shr .ax 4, .mov .cx .es, .add .ax .cx, .mov .es .ax, .xor .bx .bx,
      .push .bp, .mov .bp .sp, .xor8 .dh .dh, .push .dx, .pushImm sectorsToRead, .pushImm 1],
      .jmp .loop⟩
  | .loop => ⟨[.cmpLocal 4 0], .jz .done .convert⟩
  | .convert =>
    ⟨[.movLocal .ax 6, .xor .dx .dx, .movImm .cx sectorsPerTrack, .div .cx, .inc8 .dl,
      .store8 L.sector .dl, .xor .dx .dx, .movImm .cx numHeads, .div .cx,
      .store8 L.cylinder .al, .store8 L.head .dl, .movImm .di maxRetries], .jmp .retry⟩
  | .retry =>
    ⟨[.movImm8 .ah 0x02, .movImm8 .al 1, .load8 .ch L.cylinder, .load8 .cl L.sector,
      .load8 .dh L.head, .movLocal8 .dl 2, .int 0x13], .jnc .readOk .readFailed⟩
  | .readFailed => ⟨[.dec .di], .jz .fail .reset⟩
  | .reset => ⟨[.xor8 .ah .ah, .movLocal8 .dl 2, .int 0x13], .jmp .retry⟩
  | .readOk =>
    ⟨[.incLocal 6, .decLocal 4, .mov .ax .es, .addImm .ax 32, .mov .es .ax], .jmp .loop⟩
  | .done => ⟨[.mov .sp .bp, .pop .bp, .popa], .ret⟩
  | .fail => ⟨[.movImm .si L.errMsg], .jmp .print⟩
  | .print => ⟨[.lodsb, .or8 .al .al], .jz .halt .teletype⟩
  | .teletype => ⟨[.movImm8 .ah 0x0E, .int 0x10], .jmp .print⟩
  | .halt => ⟨[.cli, .hlt], .jmp .halt⟩

/-- `call disk_read`, with the address after it. -/
def callDiskRead (s : State Calls) (back : BitVec 16) : Config Label Calls :=
  .block .diskRead (s.push back)

/-- Stage 1 at the call: `ES:BX` is where to load to, the stack is empty, and nothing has been read
yet.  The message is in the boot sector. -/
structure AtCall (L : Layout) (s : State Calls) : Prop where
  es : s.es = 0
  bx : s.bx = 0x7E00
  sp : s.sp = 0x7C00
  reads : s.dev.reads = 0
  message : bytesAt s.mem (addr L.errMsg) 18 = message

/-- A sector that is among the first 1024 to be read fails three times in a row: so many have been
read before the first of the three reads. -/
def GivesUp (bios : Bios) : Prop :=
  ∃ n, Nat.count (fun i => (bios.read i).carry = false) n < 1024 ∧
    ∀ i < 3, (bios.read (n + i)).carry = true

/-- What `disk_read` may change: its stack, its scratch bytes and the memory that it loads to. -/
def touched (bios : Bios) (L : Layout) : Set (BitVec 32) :=
  {x | 0x7BE6 - bios.depth ≤ x.toNat ∧ x.toNat < 0x7C00 ∨
    L.cylinder.toNat ≤ x.toNat ∧ x.toNat < L.cylinder.toNat + 3 ∨
    0x7E00 ≤ x.toNat ∧ x.toNat < 0x87E00}

end Stage1

end Sapphire
