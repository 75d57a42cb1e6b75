import Sapphire.Lib.Pic8259

/-! The two interrupt controllers as the machine wires them, and `pic_remap` and `pic_send_eoi` of
`pic.cpp`.  The functions are lists of writes to ports, since lines may change between them. -/

namespace Sapphire

open Machine

abbrev pic1Command : BitVec 16 := 0x20
abbrev pic1Data : BitVec 16 := 0x21
abbrev pic2Command : BitVec 16 := 0xA0
abbrev pic2Data : BitVec 16 := 0xA1

abbrev icw1Init : BitVec 8 := 0x10
abbrev icw1Icw4 : BitVec 8 := 0x01
abbrev icw4_8086 : BitVec 8 := 0x01
abbrev picEoi : BitVec 8 := 0x20

/-- A line of a device; line 2 is the slave's. -/
abbrev Line := { n : Fin 16 // n ≠ 2 }

/-- Lines 0 to 7 are at the master. -/
def Line.atMaster (l : Line) : Bool := l.1.val < 8

/-- The input of the controller that the line is at. -/
def Line.input (l : Line) : Nat := l.1.val % 8

structure Pics where
  master : Pic
  slave : Pic

namespace Pics

/-- A change of the slave; an edge of its output is one at the master's input 2. -/
def setSlave (p : Pics) (slave : Pic) : Pics where
  master := if slave.int = p.slave.int then p.master else p.master.edge 2 slave.int
  slave := slave

/-- A line of a device goes up or down. -/
def edge (p : Pics) (l : Line) (up : Bool) : Pics :=
  if l.atMaster then { p with master := p.master.edge l.input up }
  else p.setSlave (p.slave.edge l.input up)

def outb (p : Pics) (port : BitVec 16) (value : BitVec 8) : Pics :=
  if port = pic1Command then { p with master := p.master.command value }
  else if port = pic1Data then { p with master := p.master.data value }
  else if port = pic2Command then p.setSlave (p.slave.command value)
  else if port = pic2Data then p.setSlave (p.slave.data value)
  else p

/-- The data ports read the masks; no other port is read, and it would read as open. -/
def inb (p : Pics) (port : BitVec 16) : BitVec 8 :=
  if port = pic1Data then p.master.imr else if port = pic2Data then p.slave.imr else 0xFF

end Pics

/-- `io_wait` after an `outb` -/
def ioWait (port : BitVec 16) (value : BitVec 8) : List (BitVec 16 × BitVec 8) :=
  [(port, value), (0x80, 0)]

/-- The writes of `pic_remap`, with the masks that it has read. -/
def picRemap (offset1 offset2 mask1 mask2 : BitVec 8) : List (BitVec 16 × BitVec 8) :=
  ioWait pic2Command (icw1Init ||| icw1Icw4) ++ ioWait pic1Command (icw1Init ||| icw1Icw4) ++
  ioWait pic1Data offset1 ++ ioWait pic2Data offset2 ++
  ioWait pic1Data 0x04 ++ ioWait pic2Data 0x02 ++
  ioWait pic1Data icw4_8086 ++ ioWait pic2Data icw4_8086 ++
  ioWait pic1Data mask1 ++ ioWait pic2Data mask2

/-- The writes of `pic_send_eoi`. -/
def picSendEoi (irq : BitVec 8) : List (BitVec 16 × BitVec 8) :=
  if 8 ≤ irq then [(pic2Command, picEoi), (pic1Command, picEoi)] else [(pic1Command, picEoi)]

/-! ### Lines and outputs -/

variable {p : Pics} {l : Line}

theorem Line.input_lt (l : Line) : l.input < 8 := Nat.mod_lt _ (by decide)

/-- No device is at the master's input 2. -/
theorem Line.input_ne (l : Line) (h : l.atMaster = true) : l.input ≠ 2 := by
  have hlt : l.1.val < 8 := of_decide_eq_true h
  intro hinput
  rw [input, Nat.mod_eq_of_lt hlt] at hinput
  exact l.2 (Fin.ext hinput)

namespace Pics

theorem edge_of_master (h : l.atMaster = true) (up : Bool) :
    p.edge l up = { p with master := p.master.edge l.input up } := if_pos h

theorem edge_of_slave (h : l.atMaster = false) (up : Bool) :
    p.edge l up = p.setSlave (p.slave.edge l.input up) := if_neg (by rw [h]; decide)

/-- A change of the slave that its output does not show. -/
theorem setSlave_of_int {slave : Pic} (h : slave.int = p.slave.int) :
    p.setSlave slave = { p with slave := slave } := by
  rw [setSlave, if_pos h]

/-- Of the master a change of the slave concerns the requests at most. -/
theorem setSlave_master (p : Pics) (slave : Pic) :
    (p.setSlave slave).master = { p.master with irr := (p.setSlave slave).master.irr } := by
  rw [setSlave]
  split_ifs <;> rfl

/-- Edges concern the requests only. -/
theorem edge_registers (p : Pics) (l : Line) (up : Bool) :
    (p.edge l up).master = { p.master with irr := (p.edge l up).master.irr } ∧
      (p.edge l up).slave = { p.slave with irr := (p.edge l up).slave.irr } := by
  rcases hl : l.atMaster with _ | _
  · rw [edge_of_slave hl]
    exact ⟨setSlave_master _ _, rfl⟩
  · rw [edge_of_master hl]
    exact ⟨rfl, rfl⟩

/-- The device's request is latched. -/
def requested (p : Pics) (l : Line) : Bool :=
  if l.atMaster then p.master.irr.getLsbD l.input else p.slave.irr.getLsbD l.input

end Pics

end Sapphire
