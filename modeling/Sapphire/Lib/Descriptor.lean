import Sapphire.Lib.Memory

/-! Descriptor tables of a 32-bit processor.  `interruptEntry` is how an interrupt finds its code:
through a gate of the one table and the code segment that the gate selects in the other.  All of it
is for code that runs in ring 0. -/

namespace Machine

namespace Mem

def load16 (m : Mem) (a : BitVec 32) : BitVec 16 := m (a + 1) ++ m a

def load64 (m : Mem) (a : BitVec 32) : BitVec 64 := m.load32 (a + 4) ++ m.load32 a

end Mem

/-- The operand of `lgdt` and `lidt`. -/
structure TableRegister where
  base : BitVec 32
  limit : BitVec 16
  deriving DecidableEq

namespace TableRegister

def load (m : Mem) (a : BitVec 32) : TableRegister := ⟨m.load32 (a + 2), m.load16 a⟩

/-- Descriptor `i`, unless it is beyond the limit. -/
def entry (t : TableRegister) (m : Mem) (i : Nat) : Option (BitVec 64) :=
  if 8 * i + 7 ≤ t.limit.toNat then some (m.load64 (t.base + BitVec.ofNat 32 (8 * i))) else none

end TableRegister

structure SegmentDescriptor where
  base : BitVec 32
  limit : BitVec 20
  access : BitVec 8
  flags : BitVec 4
  deriving DecidableEq

namespace SegmentDescriptor

def decode (d : BitVec 64) : SegmentDescriptor where
  base := d.extractLsb' 56 8 ++ d.extractLsb' 32 8 ++ d.extractLsb' 16 16
  limit := d.extractLsb' 48 4 ++ d.extractLsb' 0 16
  access := d.extractLsb' 40 8
  flags := d.extractLsb' 52 4

/-- The last offset in the segment: the limit counts bytes or pages. -/
def lastOffset (s : SegmentDescriptor) : BitVec 32 :=
  if s.flags.getLsbD 3 then s.limit ++ 0xFFF#12 else s.limit.setWidth 32

/-- Present 32-bit code of ring 0. -/
def isCode (s : SegmentDescriptor) : Bool :=
  s.access.getLsbD 7 && s.access.extractLsb' 5 2 = 0 && s.access.getLsbD 4 && s.access.getLsbD 3 &&
    s.flags.getLsbD 2 && !s.flags.getLsbD 1

end SegmentDescriptor

structure Gate where
  offset : BitVec 32
  selector : BitVec 16
  access : BitVec 8
  deriving DecidableEq

namespace Gate

def decode (d : BitVec 64) : Gate where
  offset := d.extractLsb' 48 16 ++ d.extractLsb' 0 16
  selector := d.extractLsb' 16 16
  access := d.extractLsb' 40 8

/-- A present 32-bit interrupt gate. -/
def isInterrupt (g : Gate) : Bool := g.access.getLsbD 7 && g.access.extractLsb' 0 5 = 14

end Gate

/-- The segment that a selector means in the global table; there is none for the null selector. -/
def loadSegment (m : Mem) (gdtr : TableRegister) (selector : BitVec 16) : Option SegmentDescriptor :=
  if selector.getLsbD 2 || selector >>> 3 = 0 then none
  else (gdtr.entry m (selector >>> 3).toNat).map SegmentDescriptor.decode

/-- The code segment and the linear address with which an interrupt goes on, unless it is a fault. -/
def interruptEntry (m : Mem) (gdtr idtr : TableRegister) (vector : Nat) :
    Option (BitVec 16 × BitVec 32) := do
  let gate := Gate.decode (← idtr.entry m vector)
  if gate.isInterrupt then
    let code ← loadSegment m gdtr gate.selector
    if code.isCode ∧ gate.offset ≤ code.lastOffset then some (gate.selector, code.base + gate.offset)
    else none
  else none

/-- A descriptor by its bytes. -/
theorem Mem.load64_eq {m : Mem} {a : BitVec 32} {d : BitVec 64}
    (h : ∀ k < 8, m (a + BitVec.ofNat 32 k) = d.extractLsb' (8 * k) 8) : m.load64 a = d := by
  have hword : ∀ j < 2, m.load32 (a + BitVec.ofNat 32 (4 * j)) = d.extractLsb' (32 * j) 32 := by
    intro j hj
    apply BitVec.eq_of_getLsbD_eq
    intro i hi
    rw [getLsbD_load32 _ _ hi, BitVec.add_assoc, ← BitVec.ofNat_add, h _ (by omega),
      BitVec.getLsbD_extractLsb', BitVec.getLsbD_extractLsb', decide_eq_true hi,
      decide_eq_true (Nat.mod_lt i (by decide))]
    congr 2
    omega
  have hlow := hword 0 (by decide)
  have hhigh := hword 1 (by decide)
  rw [BitVec.add_zero] at hlow
  rw [load64, hlow]
  exact (congrArg₂ _ hhigh rfl).trans BitVec.extractLsb'_append_extractLsb'

/-! ### Fields -/

/-- A field behind the low part of a word. -/
theorem extractLsb'_append_add {v w start len : Nat} (x : BitVec v) (y : BitVec w) :
    (x ++ y).extractLsb' (w + start) len = x.extractLsb' start len := by
  rw [BitVec.extractLsb'_append_eq_of_le (Nat.le_add_right w start), Nat.add_sub_cancel_left]

/-- A segment descriptor by its bytes and words. -/
theorem decode_segment_append (baseHigh flags access baseMiddle : BitVec 8)
    (baseLow limitLow : BitVec 16) :
    SegmentDescriptor.decode (baseHigh ++ flags ++ access ++ baseMiddle ++ baseLow ++ limitLow) =
      ⟨baseHigh ++ baseMiddle ++ baseLow, flags.extractLsb' 0 4 ++ limitLow, access,
        flags.extractLsb' 4 4⟩ := by
  have h0 : (baseHigh ++ flags ++ access ++ baseMiddle ++ baseLow ++ limitLow).extractLsb' 0 16 =
      limitLow := BitVec.extractLsb'_append_eq_right
  have h16 : (baseHigh ++ flags ++ access ++ baseMiddle ++ baseLow ++ limitLow).extractLsb'
      (16 + 0) 16 = baseLow := by
    rw [extractLsb'_append_add, BitVec.extractLsb'_append_eq_right]
  have h32 : (baseHigh ++ flags ++ access ++ baseMiddle ++ baseLow ++ limitLow).extractLsb'
      (16 + (16 + 0)) 8 = baseMiddle := by
    rw [extractLsb'_append_add, extractLsb'_append_add, BitVec.extractLsb'_append_eq_right]
  have h40 : (baseHigh ++ flags ++ access ++ baseMiddle ++ baseLow ++ limitLow).extractLsb'
      (16 + (16 + (8 + 0))) 8 = access := by
    rw [extractLsb'_append_add, extractLsb'_append_add, extractLsb'_append_add,
      BitVec.extractLsb'_append_eq_right]
  have h48 : (baseHigh ++ flags ++ access ++ baseMiddle ++ baseLow ++ limitLow).extractLsb'
      (16 + (16 + (8 + (8 + 0)))) 4 = flags.extractLsb' 0 4 := by
    rw [extractLsb'_append_add, extractLsb'_append_add, extractLsb'_append_add,
      extractLsb'_append_add, BitVec.extractLsb'_append_eq_of_add_le (by decide)]
  have h52 : (baseHigh ++ flags ++ access ++ baseMiddle ++ baseLow ++ limitLow).extractLsb'
      (16 + (16 + (8 + (8 + 4)))) 4 = flags.extractLsb' 4 4 := by
    rw [extractLsb'_append_add, extractLsb'_append_add, extractLsb'_append_add,
      extractLsb'_append_add, BitVec.extractLsb'_append_eq_of_add_le (by decide)]
  have h56 : (baseHigh ++ flags ++ access ++ baseMiddle ++ baseLow ++ limitLow).extractLsb'
      (16 + (16 + (8 + (8 + 8)))) 8 = baseHigh := by
    rw [extractLsb'_append_add, extractLsb'_append_add, extractLsb'_append_add,
      extractLsb'_append_add, BitVec.extractLsb'_append_eq_left]
  rw [SegmentDescriptor.decode, SegmentDescriptor.mk.injEq]
  exact ⟨congrArg₂ _ (congrArg₂ _ h56 h32) h16, congrArg₂ _ h48 h0, h40, h52⟩

/-- A gate by its words and bytes. -/
theorem decode_gate_append (offsetHigh : BitVec 16) (access reserved : BitVec 8)
    (selector offsetLow : BitVec 16) :
    Gate.decode (offsetHigh ++ access ++ reserved ++ selector ++ offsetLow) =
      ⟨offsetHigh ++ offsetLow, selector, access⟩ := by
  have h0 : (offsetHigh ++ access ++ reserved ++ selector ++ offsetLow).extractLsb' 0 16 =
      offsetLow := BitVec.extractLsb'_append_eq_right
  have h16 : (offsetHigh ++ access ++ reserved ++ selector ++ offsetLow).extractLsb' (16 + 0) 16 =
      selector := by
    rw [extractLsb'_append_add, BitVec.extractLsb'_append_eq_right]
  have h40 : (offsetHigh ++ access ++ reserved ++ selector ++ offsetLow).extractLsb'
      (16 + (16 + (8 + 0))) 8 = access := by
    rw [extractLsb'_append_add, extractLsb'_append_add, extractLsb'_append_add,
      BitVec.extractLsb'_append_eq_right]
  have h48 : (offsetHigh ++ access ++ reserved ++ selector ++ offsetLow).extractLsb'
      (16 + (16 + (8 + 8))) 16 = offsetHigh := by
    rw [extractLsb'_append_add, extractLsb'_append_add, extractLsb'_append_add,
      BitVec.extractLsb'_append_eq_left]
  rw [Gate.decode, Gate.mk.injEq]
  exact ⟨congrArg₂ _ h48 h0, h16, h40⟩

/-- An interrupt through an interrupt gate to a code segment. -/
theorem interruptEntry_eq {m : Mem} {gdtr idtr : TableRegister} {vector : Nat} {d : BitVec 64}
    {gate : Gate} {code : SegmentDescriptor} (hentry : idtr.entry m vector = some d)
    (hgate : Gate.decode d = gate) (hkind : gate.isInterrupt = true)
    (hsegment : loadSegment m gdtr gate.selector = some code) (hcode : code.isCode = true)
    (hlimit : gate.offset ≤ code.lastOffset) :
    interruptEntry m gdtr idtr vector = some (gate.selector, code.base + gate.offset) := by
  subst hgate
  simp only [interruptEntry, hentry, Option.bind_eq_bind, Option.bind_some, hkind, if_true,
    hsegment, hcode, true_and, if_pos hlimit]

end Machine
