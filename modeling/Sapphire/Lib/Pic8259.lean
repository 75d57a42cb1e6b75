import Mathlib.Algebra.Order.Ring.Nat
import Mathlib.Data.BitVec
import Mathlib.Data.List.Basic

/-! The 8259A interrupt controller, in the mode that an initialisation without further options sets:
requests by edges, vectors for an 8086, fully nested, the lines prioritised from 0 on.  A request is
latched until it is acknowledged or its line drops; an acknowledged line is in service until the end
of the interrupt, and holds back the requests of its own and of lower priority.  An acknowledgement
that finds no request any more is answered with line 7, which is then not in service. -/

namespace Machine

/-- What the controller takes the next byte at its data port for. -/
inductive Icw
  | icw2
  | icw3
  | icw4
  | ocw1
  deriving DecidableEq, Repr

structure Pic where
  irr : BitVec 8
  isr : BitVec 8
  imr : BitVec 8
  icw1 : BitVec 8
  /-- The offset of the vectors. -/
  icw2 : BitVec 8
  /-- The lines at which there are other controllers, or the line at which this one is. -/
  icw3 : BitVec 8
  icw4 : BitVec 8
  next : Icw
  deriving DecidableEq, Repr

/-- The line of the highest priority in a set of lines. -/
def highest (lines : BitVec 8) : Option Nat := (List.range 8).find? fun n => lines.getLsbD n

/-- The set of one line. -/
def lineBit (n : Nat) : BitVec 8 := BitVec.twoPow 8 n

namespace Pic

/-- The line whose request is to be served: the highest unmasked one, unless that or a higher one is
in service. -/
def pending (p : Pic) : Option Nat :=
  (highest (p.irr &&& ~~~p.imr)).filter fun n => (List.range (n + 1)).all fun k => !p.isr.getLsbD k

/-- The output to the processor or to the other controller. -/
def int (p : Pic) : Bool := p.pending.isSome

/-- Input `n` goes up, which is a request, or down, which ends one. -/
def edge (p : Pic) (n : Nat) (up : Bool) : Pic :=
  { p with irr := if up then p.irr ||| lineBit n else p.irr &&& ~~~lineBit n }

/-- The line that the controller answers an acknowledgement with, and its state after it. -/
def acknowledge (p : Pic) : Nat × Pic :=
  match p.pending with
  | some n => (n, { p with isr := p.isr ||| lineBit n, irr := p.irr &&& ~~~lineBit n })
  | none => (7, p)

def vector (p : Pic) (n : Nat) : BitVec 8 := (p.icw2 &&& 0xF8#8) + BitVec.ofNat 8 n

/-- The end of the interrupt of the highest priority. -/
def endOfInterrupt (p : Pic) : Pic :=
  match highest p.isr with
  | some n => { p with isr := p.isr &&& ~~~lineBit n }
  | none => p

/-- A byte at the command port: ICW1, or a command.  Of the commands only the ends of interrupts
change what is modelled. -/
def command (p : Pic) (v : BitVec 8) : Pic :=
  if v.getLsbD 4 then
    { p with irr := 0, isr := 0, imr := 0, icw1 := v, icw4 := 0, next := .icw2 }
  else if v.getLsbD 3 then p
  else if v >>> 5 = 1 then p.endOfInterrupt
  else if v >>> 5 = 3 then { p with isr := p.isr &&& ~~~lineBit (v &&& 7).toNat }
  else p

/-- What follows ICW3: bit 0 of ICW1 announces an ICW4. -/
def afterIcw3 (p : Pic) : Icw := if p.icw1.getLsbD 0 then .icw4 else .ocw1

/-- A byte at the data port.  There is an ICW3 unless bit 1 of ICW1 says that there is no other
controller. -/
def data (p : Pic) (v : BitVec 8) : Pic :=
  match p.next with
  | .icw2 => { p with icw2 := v, next := if p.icw1.getLsbD 1 then p.afterIcw3 else .icw3 }
  | .icw3 => { p with icw3 := v, next := p.afterIcw3 }
  | .icw4 => { p with icw4 := v, next := .ocw1 }
  | .ocw1 => { p with imr := v }

end Pic

/-! ### Sets of lines -/

theorem getLsbD_lineBit {n k : Nat} (hk : k < 8) : (lineBit n).getLsbD k = decide (n = k) := by
  rw [lineBit, BitVec.getLsbD_twoPow]
  by_cases hn : n = k
  · simp [hn, hk]
  · simp [hn]

theorem getLsbD_or_lineBit (w : BitVec 8) {n k : Nat} (hk : k < 8) :
    (w ||| lineBit n).getLsbD k = (w.getLsbD k || decide (n = k)) := by
  rw [BitVec.getLsbD_or, getLsbD_lineBit hk]

theorem getLsbD_and_not (w v : BitVec 8) {k : Nat} (hk : k < 8) :
    (w &&& ~~~v).getLsbD k = (w.getLsbD k && !v.getLsbD k) := by
  rw [BitVec.getLsbD_and, BitVec.getLsbD_not, decide_eq_true hk, Bool.true_and]

theorem highest_eq_some_iff {w : BitVec 8} {n : Nat} :
    highest w = some n ↔ n < 8 ∧ w.getLsbD n = true ∧ ∀ k < n, w.getLsbD k = false := by
  rw [highest, List.find?_range_eq_some]
  simp only [Bool.not_eq_true', List.mem_range]
  tauto

theorem highest_eq_none {w : BitVec 8} (h : highest w = none) {k : Nat} (hk : k < 8) :
    w.getLsbD k = false := by
  rw [highest, List.find?_range_eq_none] at h
  exact Bool.not_eq_true' _ ▸ h k hk

theorem highest_zero : highest 0 = none := rfl

theorem highest_lineBit {n : Nat} (hn : n < 8) : highest (lineBit n) = some n := by
  rw [highest_eq_some_iff]
  refine ⟨hn, ?_, fun k hk => ?_⟩
  · rw [getLsbD_lineBit hn, decide_eq_true rfl]
  · rw [getLsbD_lineBit (by omega)]
    exact decide_eq_false (by omega)

namespace Pic

variable {p : Pic}

/-! ### Edges and bytes -/

/-- An edge decides about its own line and leaves the others. -/
theorem getLsbD_edge (p : Pic) (n : Nat) (up : Bool) {k : Nat} (hk : k < 8) :
    (p.edge n up).irr.getLsbD k = if n = k then up else p.irr.getLsbD k := by
  by_cases hn : n = k
  · cases up
    · simp [edge, getLsbD_and_not _ _ hk, getLsbD_lineBit hk, hn]
    · simp [edge, getLsbD_or_lineBit _ hk, hn]
  · cases up
    · simp [edge, getLsbD_and_not _ _ hk, getLsbD_lineBit hk, hn]
    · simp [edge, getLsbD_or_lineBit _ hk, hn]

/-- Without a request there is no output. -/
theorem int_of_irr (h : p.irr = 0) : p.int = false := by
  have hnone : (0 : BitVec 8) &&& ~~~p.imr = 0 := BitVec.zero_and
  rw [int, pending, h, hnone, highest_zero]
  rfl

/-- A byte at the data port does not concern the requests. -/
theorem data_irr (p : Pic) (irr v : BitVec 8) :
    data { p with irr := irr } v = { p.data v with irr := irr } := by
  rcases p with ⟨irr', isr, imr, icw1, icw2, icw3, icw4, next⟩
  cases next <;> rfl

/-! ### Serving one request at a time -/

/-- The line is requested and not masked. -/
def wants (p : Pic) (n : Nat) : Bool := p.irr.getLsbD n && !p.imr.getLsbD n

/-- With nothing in service the pending line is the highest that is wanted. -/
theorem pending_eq (h : p.isr = 0) : p.pending = highest (p.irr &&& ~~~p.imr) := by
  have hall : ∀ n, (List.range (n + 1)).all (fun k => !p.isr.getLsbD k) = true := by
    intro n
    rw [List.all_eq_true]
    intro k _
    rw [h]
    exact congrArg not BitVec.getLsbD_zero
  rw [pending]
  rcases highest (p.irr &&& ~~~p.imr) with _ | n
  · rfl
  · rw [Option.filter_some, if_pos (hall n)]

theorem int_of_wants (h : p.isr = 0) {n : Nat} (hn : n < 8) (hw : p.wants n = true) :
    p.int = true := by
  rw [int, pending_eq h, Option.isSome_iff_ne_none]
  intro hnone
  have hbit := highest_eq_none hnone hn
  rw [getLsbD_and_not _ _ hn] at hbit
  exact absurd (hw.symm.trans hbit) (by decide)

/-- The controller serves the wanted line of the highest priority, or answers 7. -/
theorem acknowledge_cases (h : p.isr = 0) :
    (∃ n < 8, p.wants n = true ∧ (∀ k < n, p.wants k = false) ∧
      p.acknowledge = (n, { p with isr := lineBit n, irr := p.irr &&& ~~~lineBit n })) ∨
    (∀ k < 8, p.wants k = false) ∧ p.acknowledge = (7, p) := by
  rcases hpending : highest (p.irr &&& ~~~p.imr) with _ | n
  · refine Or.inr ⟨fun k hk => ?_, ?_⟩
    · rw [wants, ← getLsbD_and_not _ _ hk]
      exact highest_eq_none hpending hk
    · rw [acknowledge, pending_eq h, hpending]
  · obtain ⟨hn, hbit, hless⟩ := highest_eq_some_iff.mp hpending
    refine Or.inl ⟨n, hn, ?_, fun k hk => ?_, ?_⟩
    · rw [wants, ← getLsbD_and_not _ _ hn, hbit]
    · rw [wants, ← getLsbD_and_not _ _ (by omega), hless k hk]
    · have hor : (0 : BitVec 8) ||| lineBit n = lineBit n := BitVec.zero_or
      rw [acknowledge, pending_eq h, hpending, h]
      dsimp only
      rw [hor]

/-- With nothing in service there is an output only for what is wanted. -/
theorem int_of_not_wants (h : p.isr = 0) (hw : ∀ k < 8, p.wants k = false) : p.int = false := by
  rw [int, pending_eq h]
  rcases hhighest : highest (p.irr &&& ~~~p.imr) with _ | n
  · rfl
  · obtain ⟨hn, hbit, -⟩ := highest_eq_some_iff.mp hhighest
    rw [getLsbD_and_not _ _ hn] at hbit
    exact absurd (hbit.symm.trans (hw n hn)) (by decide)

/-- The line that is served holds back what was wanted with it. -/
theorem int_served {n : Nat} (hn : n < 8) (hfirst : ∀ k < n, p.wants k = false) :
    int { p with isr := lineBit n, irr := p.irr &&& ~~~lineBit n } = false := by
  rw [int, pending]
  dsimp only
  rcases hhighest : highest (p.irr &&& ~~~lineBit n &&& ~~~p.imr) with _ | m
  · rfl
  · obtain ⟨hm, hbit, -⟩ := highest_eq_some_iff.mp hhighest
    rw [getLsbD_and_not _ _ hm, getLsbD_and_not _ _ hm, getLsbD_lineBit hm] at hbit
    have hle : n ≤ m := by
      by_contra hlt
      have hwants := hfirst m (by omega)
      rw [wants] at hwants
      revert hbit hwants
      cases p.irr.getLsbD m <;> cases p.imr.getLsbD m <;> simp
    have hblocked : ¬ ((List.range (m + 1)).all fun k => !(lineBit n).getLsbD k) = true := by
      rw [List.all_eq_true]
      intro hall
      have hnot := hall n (List.mem_range.mpr (by omega))
      rw [getLsbD_lineBit hn, decide_eq_true rfl] at hnot
      exact Bool.noConfusion hnot
    rw [Option.filter_some, if_neg hblocked]
    rfl

/-- The end of interrupt that names no line. -/
theorem command_eoi (p : Pic) : p.command 0x20 = p.endOfInterrupt := by
  simp [command]

theorem endOfInterrupt_zero (h : p.isr = 0) : p.endOfInterrupt = p := by
  rw [endOfInterrupt, h, highest_zero]

theorem endOfInterrupt_lineBit {n : Nat} (hn : n < 8) (h : p.isr = lineBit n) :
    p.endOfInterrupt = { p with isr := 0 } := by
  have hclear : lineBit n &&& ~~~lineBit n = 0 := BitVec.and_not_self _
  rw [endOfInterrupt, h, highest_lineBit hn]
  dsimp only
  rw [hclear]

end Pic

end Machine
