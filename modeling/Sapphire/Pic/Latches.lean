import Sapphire.Interrupt
import Sapphire.Lib.Trace
import Sapphire.Pic.Remap

/-! What the interrupt controllers and their driver are for: every line of a device has a latch for
its request, and one request is served at a time, the first by priority when the processor asks for
it.  Where that is one of the slave, the slave is asked next, and chooses among its own lines again.
`Latches` says that, and the machine with its two
controllers, the interrupt acknowledgements of the processor, the dispatch of `isr_handler` and the
end of the interrupt by `pic_send_eoi` refines it, whatever the devices and the handlers do. -/

namespace Sapphire

open Machine

/-- What is seen of the interrupts: an edge at a line, a vector that is handed to the handlers, and
the return from the interrupt. -/
inductive IrqEvent
  | edge (l : Line) (up : Bool)
  | serve (vector : BitVec 8)
  | done

/-! ### The purpose -/

/-- The lines of the slave come between the master's lines 1 and 3. -/
def Line.rank (l : Line) : Nat := if l.atMaster then 16 * l.input else 32 + l.input

def Line.vector (l : Line) : BitVec 8 := BitVec.ofNat 8 (32 + l.1.val)

/-- Waiting for a request, asking the slave for its line, or serving a line. -/
inductive LatchPhase
  | idle
  | asking
  | serving
  deriving DecidableEq

structure Latches where
  requested : Line → Bool
  phase : LatchPhase

/-- The unmasked request at `l` comes before the other ones of the lines in `S`. -/
structure Latches.First (s : Latches) (masked : Line → Bool) (S : Set Line) (l : Line) : Prop where
  mem : l ∈ S
  requested : s.requested l = true
  unmasked : masked l = false
  first : ∀ k ∈ S, s.requested k = true → masked k = false → l.rank ≤ k.rank

def slaveLines : Set Line := {l | l.atMaster = false}

inductive LatchStep (masked : Line → Bool) : Latches → List IrqEvent → Latches → Prop
  | edge (s : Latches) (l : Line) (up : Bool) :
      LatchStep masked s [.edge l up] { s with requested := Function.update s.requested l up }
  /-- A line of the master is served, which is the first of all; the request is taken back. -/
  | serve {s : Latches} {l : Line} (hidle : s.phase = .idle) (hmaster : l.atMaster = true)
      (hfirst : s.First masked Set.univ l) :
      LatchStep masked s [.serve l.vector]
        { requested := Function.update s.requested l false, phase := .serving }
  /-- The first of all is a line of the slave, which is asked for its line. -/
  | ask {s : Latches} {l : Line} (hidle : s.phase = .idle) (hslave : l ∈ slaveLines)
      (hfirst : s.First masked Set.univ l) :
      LatchStep masked s [] { s with phase := .asking }
  /-- The slave serves the line that is its first by then. -/
  | answer {s : Latches} {l : Line} (hasking : s.phase = .asking)
      (hfirst : s.First masked slaveLines l) :
      LatchStep masked s [.serve l.vector]
        { requested := Function.update s.requested l false, phase := .serving }
  /-- The processor asks for a request that is no longer there. -/
  | spurious {s : Latches} (hidle : s.phase = .idle)
      (hnone : ∀ k, s.requested k = true → masked k = true) :
      LatchStep masked s [.serve 39] { s with phase := .serving }
  /-- The slave is asked for one. -/
  | slaveSpurious {s : Latches} (hasking : s.phase = .asking)
      (hnone : ∀ k ∈ slaveLines, s.requested k = true → masked k = true) :
      LatchStep masked s [.serve 47] { s with phase := .serving }
  | done {s : Latches} (hserving : s.phase = .serving) :
      LatchStep masked s [.done] { s with phase := .idle }

/-! ### The machine -/

/-- What the devices do, with the edges that they make, what the kernel does outside of interrupts,
and the handlers. -/
structure IrqDevices (σ : Type*) where
  device : σ → List (Line × Bool) → σ → Prop
  program : σ → List (Line × Bool) → σ → Prop
  handler : BitVec 8 → σ → List (Line × Bool) × σ

/-- Where the processor is: between instructions of the kernel, before the first acknowledgement,
before the second one, which the slave at a line of the master is to answer, before the call of the
handler, or before the writes that are left of the end of the interrupt. -/
inductive IrqPhase
  | running
  | accepted
  | cascaded (line : Nat)
  | entered (vector : BitVec 8)
  | ending (writes : List (BitVec 16 × BitVec 8))
  deriving DecidableEq

structure IrqState (σ : Type*) where
  pics : Pics
  phase : IrqPhase
  dev : σ

/-- The writes of `isr_handler` after the handler. -/
def endWrites (vector : BitVec 8) : List (BitVec 16 × BitVec 8) :=
  if 32 ≤ vector ∧ vector < 48 then picSendEoi (vector - 32) else []

def Pics.edges (p : Pics) (es : List (Line × Bool)) : Pics :=
  es.foldl (fun p e => p.edge e.1 e.2) p

/-- The lines with a slave, by ICW3 of the master. -/
def Pics.hasSlave (p : Pics) (n : Nat) : Bool := p.master.icw3.getLsbD n

/-- The line that the slave takes itself to be at, by its ICW3. -/
def Pics.slaveId (p : Pics) : Nat := (p.slave.icw3 &&& 7).toNat

inductive IrqStep {σ : Type*} (D : IrqDevices σ) : IrqState σ → List IrqEvent → IrqState σ → Prop
  | device {s : IrqState σ} {es : List (Line × Bool)} {d : σ} (h : D.device s.dev es d) :
      IrqStep D s (es.map fun e => .edge e.1 e.2) { s with pics := s.pics.edges es, dev := d }
  | program {s : IrqState σ} {es : List (Line × Bool)} {d : σ} (hphase : s.phase = .running)
      (h : D.program s.dev es d) :
      IrqStep D s (es.map fun e => .edge e.1 e.2) { s with pics := s.pics.edges es, dev := d }
  | accept {s : IrqState σ} (hphase : s.phase = .running) (hint : s.pics.master.int = true) :
      IrqStep D s [] { s with phase := .accepted }
  | master {s : IrqState σ} (hphase : s.phase = .accepted)
      (hslave : s.pics.hasSlave s.pics.master.acknowledge.1 = false) :
      IrqStep D s [.serve (s.pics.master.vector s.pics.master.acknowledge.1)] { s with
        pics := { s.pics with master := s.pics.master.acknowledge.2 }
        phase := .entered (s.pics.master.vector s.pics.master.acknowledge.1) }
  | cascade {s : IrqState σ} (hphase : s.phase = .accepted)
      (hslave : s.pics.hasSlave s.pics.master.acknowledge.1 = true) :
      IrqStep D s [] { s with
        pics := { s.pics with master := s.pics.master.acknowledge.2 }
        phase := .cascaded s.pics.master.acknowledge.1 }
  | slave {s : IrqState σ} {line : Nat} (hphase : s.phase = .cascaded line)
      (hid : s.pics.slaveId = line) :
      IrqStep D s [.serve (s.pics.slave.vector s.pics.slave.acknowledge.1)] { s with
        pics := s.pics.setSlave s.pics.slave.acknowledge.2
        phase := .entered (s.pics.slave.vector s.pics.slave.acknowledge.1) }
  /-- No controller answers, and the vector is read from an open bus. -/
  | unanswered {s : IrqState σ} {line : Nat} (hphase : s.phase = .cascaded line)
      (hid : s.pics.slaveId ≠ line) :
      IrqStep D s [.serve 0xFF] { s with phase := .entered 0xFF }
  | handle {s : IrqState σ} {vector : BitVec 8} (hphase : s.phase = .entered vector) :
      IrqStep D s ((D.handler vector s.dev).1.map fun e => .edge e.1 e.2) { s with
        pics := s.pics.edges (D.handler vector s.dev).1
        phase := .ending (endWrites vector)
        dev := (D.handler vector s.dev).2 }
  | write {s : IrqState σ} {w : BitVec 16 × BitVec 8} {writes : List (BitVec 16 × BitVec 8)}
      (hphase : s.phase = .ending (w :: writes)) :
      IrqStep D s [] { s with pics := s.pics.outb w.1 w.2, phase := .ending writes }
  | iret {s : IrqState σ} (hphase : s.phase = .ending []) :
      IrqStep D s [.done] { s with phase := .running }

/-! ### The steps of `isr_handler` -/

section

variable {σ : Type*} (D : IrqDevices σ)

/-- The handlers as functions of a frame, which they do not look at. -/
def isrHandlers (intno : BitVec 32) : Option (Isr (Pics × σ)) :=
  some fun _ st =>
    let r := D.handler (intno.setWidth 8) st.2.2
    (st.1, st.2.1.edges r.1, r.2)

/-- `pic_send_eoi` without an edge between its writes. -/
def sendEoi (irq : BitVec 32) (st : Pics × σ) : Pics × σ :=
  ((picSendEoi (irq.setWidth 8)).foldl (fun p w => p.outb w.1 w.2) st.1, st.2)

theorem run_writes (writes : List (BitVec 16 × BitVec 8)) (p : Pics) (d : σ) :
    Run (IrqStep D) ⟨p, .ending writes, d⟩ []
      ⟨writes.foldl (fun p w => p.outb w.1 w.2) p, .ending [], d⟩ := by
  induction writes generalizing p with
  | nil => exact Run.refl _
  | cons w writes ih =>
    have hstep : IrqStep D ⟨p, .ending (w :: writes), d⟩ [] ⟨p.outb w.1 w.2, .ending writes, d⟩ :=
      .write rfl
    exact (Run.single hstep).trans (ih (p.outb w.1 w.2))

/-- The steps between the acknowledgement and the return do what `isr_handler` does for the frame of
the vector. -/
theorem run_isrHandler {m : Mem} {frame : BitVec 32} {vector : BitVec 8}
    (hframe : (InterruptFrame.load m frame).interruptNumber = vector.setWidth 32) (p : Pics) (d : σ) :
    let st := isrHandler (isrHandlers D) sendEoi frame (m, p, d)
    Run (IrqStep D) ⟨p, .entered vector, d⟩ ((D.handler vector d).1.map fun e => .edge e.1 e.2)
      ⟨st.2.1, .ending [], st.2.2⟩ := by
  have hcalled : IrqStep D ⟨p, .entered vector, d⟩ _ ⟨p.edges (D.handler vector d).1,
      .ending (endWrites vector), (D.handler vector d).2⟩ := .handle rfl
  have hwritten := (Run.single hcalled).trans (run_writes D (endWrites vector) _ _)
  rw [List.append_nil] at hwritten
  have hvector : (vector.setWidth 32).setWidth 8 = vector := by bv_omega
  have hrange : (32 : BitVec 32) ≤ vector.setWidth 32 ∧ vector.setWidth 32 < (48 : BitVec 32) ↔
      32 ≤ vector ∧ vector < 48 := by bv_omega
  have hirq : (vector.setWidth 32 - (32 : BitVec 32)).setWidth 8 = vector - 32 := by bv_omega
  rw [isrHandler, hframe, isrHandlers]
  dsimp only
  rw [hvector]
  by_cases h : 32 ≤ vector ∧ vector < 48
  · rw [endWrites, if_pos h] at hwritten
    rw [if_pos (hrange.mpr h), sendEoi, hirq]
    exact hwritten
  · rw [endWrites, if_neg h] at hwritten
    rw [if_neg (mt hrange.mp h)]
    exact hwritten

end

/-! ### Requests and edges -/

/-- A line of the master, and one of the slave, by its input. -/
theorem Line.exists_master {n : Nat} (hn : n < 8) (h2 : n ≠ 2) :
    ∃ l : Line, l.atMaster = true ∧ l.input = n ∧ l.vector = 32 + BitVec.ofNat 8 n := by
  have hne : (⟨n, by omega⟩ : Fin 16) ≠ 2 := fun h => h2 (congrArg Fin.val h)
  refine ⟨⟨⟨n, by omega⟩, hne⟩, decide_eq_true hn, Nat.mod_eq_of_lt hn, ?_⟩
  exact BitVec.ofNat_add 32 n

theorem Line.exists_slave {n : Nat} (hn : n < 8) :
    ∃ l : Line, l.atMaster = false ∧ l.input = n ∧ l.vector = 40 + BitVec.ofNat 8 n := by
  have hne : (⟨8 + n, by omega⟩ : Fin 16) ≠ 2 := fun h => by
    have := congrArg Fin.val h
    change 8 + n = 2 at this
    omega
  refine ⟨⟨⟨8 + n, by omega⟩, hne⟩, decide_eq_false (by dsimp only; omega), ?_, ?_⟩
  · rw [Line.input]
    dsimp only
    omega
  · rw [Line.vector]
    dsimp only
    rw [← Nat.add_assoc]
    exact BitVec.ofNat_add 40 n

theorem Line.ext_input {k l : Line} (hat : k.atMaster = l.atMaster) (hinput : k.input = l.input) :
    k = l := by
  have hlt : k.1.val < 8 ↔ l.1.val < 8 := by
    rw [← decide_eq_decide]
    exact hat
  have hk := k.1.isLt
  have hl := l.1.isLt
  rw [Line.input, Line.input] at hinput
  exact Subtype.ext (Fin.ext (by omega))

namespace Pics

variable {p : Pics} {l : Line}

theorem requested_of_master (h : l.atMaster = true) :
    p.requested l = p.master.irr.getLsbD l.input := if_pos h

theorem requested_of_slave (h : l.atMaster = false) :
    p.requested l = p.slave.irr.getLsbD l.input := if_neg (by rw [h]; decide)

theorem setSlave_irr (p : Pics) (slave : Pic) {k : Nat} (hk : k < 8) :
    (p.setSlave slave).master.irr.getLsbD k =
      if k = 2 ∧ slave.int ≠ p.slave.int then slave.int else p.master.irr.getLsbD k := by
  rw [setSlave]
  dsimp only
  by_cases hint : slave.int = p.slave.int
  · simp [hint]
  · rw [if_neg hint, Pic.getLsbD_edge _ _ _ hk]
    simp [hint, eq_comm]

/-- The slave's requests are its own, and the master's lines do not see them. -/
theorem requested_setSlave (p : Pics) (slave : Pic) (l : Line) :
    (p.setSlave slave).requested l = (⟨p.master, slave⟩ : Pics).requested l := by
  rcases hl : l.atMaster with _ | _
  · rw [requested_of_slave hl, requested_of_slave hl]
    rfl
  · have hne : ¬(l.input = 2 ∧ slave.int ≠ p.slave.int) := fun h => l.input_ne hl h.1
    rw [requested_of_master hl, requested_of_master hl, setSlave_irr p slave l.input_lt, if_neg hne]

theorem requested_edge (p : Pics) (l : Line) (up : Bool) :
    (p.edge l up).requested = Function.update p.requested l up := by
  funext k
  rcases hl : l.atMaster with _ | _
  · rw [edge_of_slave hl, requested_setSlave]
    rcases hk : k.atMaster with _ | _
    · rw [requested_of_slave hk]
      dsimp only
      rw [Pic.getLsbD_edge _ _ _ k.input_lt, Function.update_apply, requested_of_slave hk]
      have hiff : l.input = k.input ↔ k = l :=
        ⟨fun h => Line.ext_input (hk.trans hl.symm) h.symm, fun h => by rw [h]⟩
      simp only [hiff]
    · have hne : k ≠ l := fun h => by rw [h, hl] at hk; exact Bool.noConfusion hk
      rw [Function.update_of_ne hne, requested_of_master hk, requested_of_master hk]
  · rw [edge_of_master hl]
    rcases hk : k.atMaster with _ | _
    · have hne : k ≠ l := fun h => by rw [h, hl] at hk; exact Bool.noConfusion hk
      rw [Function.update_of_ne hne, requested_of_slave hk, requested_of_slave hk]
    · rw [requested_of_master hk]
      dsimp only
      rw [Pic.getLsbD_edge _ _ _ k.input_lt, Function.update_apply, requested_of_master hk]
      have hiff : l.input = k.input ↔ k = l :=
        ⟨fun h => Line.ext_input (hk.trans hl.symm) h.symm, fun h => by rw [h]⟩
      simp only [hiff]

end Pics

end Sapphire
