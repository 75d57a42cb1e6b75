import Sapphire.Pic.Latches

/-! The interrupts of the machine refine `Latches`.  What the controllers have in service is known in
every phase of an interrupt: nothing while the kernel runs, and what is left of the end of the
interrupt clears what is in service, also where an acknowledgement found no request. -/

namespace Sapphire

open Machine

/-- The controller has at most one line in service. -/
def AtMostOne (isr : BitVec 8) : Prop := isr = 0 ∨ ∃ n < 8, isr = lineBit n

theorem AtMostOne.endOfInterrupt {p : Pic} (h : AtMostOne p.isr) :
    p.endOfInterrupt = { p with isr := 0 } := by
  rcases h with h | ⟨n, hn, h⟩
  · rw [Pic.endOfInterrupt_zero h, ← h]
  · exact Pic.endOfInterrupt_lineBit hn h

/-- A request is held back by its own mask or by that of the slave's line. -/
def masked (mask1 mask2 : BitVec 8) (l : Line) : Bool :=
  if l.atMaster then mask1.getLsbD l.input else mask2.getLsbD l.input || mask1.getLsbD 2

/-- What the controllers have in service, and whether the master has seen the last edge of the
slave's output. -/
inductive Phased (p : Pics) : IrqPhase → Prop
  | running (h : p.Idle) : Phased p .running
  | accepted (h : p.Idle) : Phased p .accepted
  /-- The output of the slave may have been up since before the acknowledgement. -/
  | cascaded (hmaster : p.master.isr = lineBit 2) (hslave : p.slave.isr = 0)
      (hedge : p.master.irr.getLsbD 2 = true → p.slave.int = true)
      (hmask : p.master.imr.getLsbD 2 = false) : Phased p (.cascaded 2)
  | entered {vector : BitVec 8} (hlow : 32 ≤ vector) (hhigh : vector < 48)
      (hmaster : AtMostOne p.master.isr) (hslave : AtMostOne p.slave.isr)
      (honly : vector < 40 → p.slave.isr = 0)
      (hedge : p.master.irr.getLsbD 2 = p.slave.int) : Phased p (.entered vector)
  | both (hmaster : AtMostOne p.master.isr) (hslave : AtMostOne p.slave.isr)
      (hedge : p.master.irr.getLsbD 2 = p.slave.int) :
      Phased p (.ending [(pic2Command, picEoi), (pic1Command, picEoi)])
  | one (hmaster : AtMostOne p.master.isr) (hslave : p.slave.isr = 0)
      (hedge : p.master.irr.getLsbD 2 = p.slave.int) : Phased p (.ending [(pic1Command, picEoi)])
  | ended (h : p.Idle) : Phased p (.ending [])

theorem Phased.idle {p : Pics} (h : Phased p .accepted) : p.Idle := by
  cases h with
  | accepted hidle => exact hidle

namespace IrqPhase

/-- A line is served from the vector that is handed over to the return. -/
def latch : IrqPhase → LatchPhase
  | running => .idle
  | accepted => .idle
  | cascaded _ => .asking
  | entered _ => .serving
  | ending _ => .serving

end IrqPhase

variable {p : Pics} {mask1 mask2 : BitVec 8} {l : Line} {phase : IrqPhase}

namespace Pics

/-- `p'` differs from `p` in requests only, and the master has seen the edge of the slave's output
between the two. -/
structure Edged (p p' : Pics) : Prop where
  master : p'.master = { p.master with irr := p'.master.irr }
  slave : p'.slave = { p.slave with irr := p'.slave.irr }
  cascade : p'.master.irr.getLsbD 2 =
    if p'.slave.int ≠ p.slave.int then p'.slave.int else p.master.irr.getLsbD 2

theorem edged (p : Pics) (l : Line) (up : Bool) : Edged p (p.edge l up) := by
  refine ⟨(p.edge_registers l up).1, (p.edge_registers l up).2, ?_⟩
  rcases hl : l.atMaster with _ | _
  · rw [edge_of_slave hl, setSlave_irr _ _ (by decide)]
    simp only [true_and]
    rfl
  · rw [edge_of_master hl]
    dsimp only
    rw [Pic.getLsbD_edge _ _ _ (by decide), if_neg (l.input_ne hl), if_neg (fun h => h rfl)]

namespace Edged

variable {p' : Pics} (h : Edged p p')

include h

theorem cascade_eq (hedge : p.master.irr.getLsbD 2 = p.slave.int) :
    p'.master.irr.getLsbD 2 = p'.slave.int := by
  rw [h.cascade]
  split_ifs with hint
  · rfl
  · rw [hedge, not_not.mp hint]

theorem cascade_imp (hedge : p.master.irr.getLsbD 2 = true → p.slave.int = true) :
    p'.master.irr.getLsbD 2 = true → p'.slave.int = true := by
  rw [h.cascade]
  split_ifs with hint
  · exact id
  · rw [not_not.mp hint]
    exact hedge

theorem masterIsr : p'.master.isr = p.master.isr := by rw [h.master]

theorem slaveIsr : p'.slave.isr = p.slave.isr := by rw [h.slave]

theorem idle (hidle : p.Idle) : p'.Idle :=
  ⟨h.masterIsr.trans hidle.master, h.slaveIsr.trans hidle.slave, h.cascade_eq hidle.cascade⟩

theorem phased (hphased : Phased p phase) : Phased p' phase := by
  cases hphased with
  | running hidle => exact .running (h.idle hidle)
  | accepted hidle => exact .accepted (h.idle hidle)
  | cascaded hmaster hslave hedge hmask =>
    have himr : p'.master.imr = p.master.imr := by rw [h.master]
    exact .cascaded (h.masterIsr.trans hmaster) (h.slaveIsr.trans hslave) (h.cascade_imp hedge)
      (himr ▸ hmask)
  | entered hlow hhigh hmaster hslave honly hedge =>
    exact .entered hlow hhigh (h.masterIsr ▸ hmaster) (h.slaveIsr ▸ hslave)
      (fun hv => h.slaveIsr.trans (honly hv)) (h.cascade_eq hedge)
  | both hmaster hslave hedge =>
    exact .both (h.masterIsr ▸ hmaster) (h.slaveIsr ▸ hslave) (h.cascade_eq hedge)
  | one hmaster hslave hedge =>
    exact .one (h.masterIsr ▸ hmaster) (h.slaveIsr.trans hslave) (h.cascade_eq hedge)
  | ended hidle => exact .ended (h.idle hidle)

end Edged

/-- Requests and what is in service do not matter for `Ready`. -/
theorem Ready.congr (h : p.Ready mask1 mask2) {p' : Pics}
    (hmaster : p'.master = { p.master with irr := p'.master.irr, isr := p'.master.isr })
    (hslave : p'.slave = { p.slave with irr := p'.slave.irr, isr := p'.slave.isr }) :
    p'.Ready mask1 mask2 := by
  constructor
  · rw [hmaster, h.master]
  · rw [hslave, h.slave]

theorem Ready.edge (h : p.Ready mask1 mask2) (up : Bool) : (p.edge l up).Ready mask1 mask2 := by
  refine h.congr ?_ ?_
  · rw [(p.edge_registers l up).1]
  · rw [(p.edge_registers l up).2]

/-! ### Which requests are served -/

theorem Ready.wants_master (h : p.Ready mask1 mask2) (hl : l.atMaster = true) :
    p.master.wants l.input = (p.requested l && !masked mask1 mask2 l) := by
  have himr : p.master.imr = mask1 := by rw [h.master]
  rw [Pic.wants, himr, requested_of_master hl, masked, hl, if_pos rfl]

theorem Ready.wants_slave (h : p.Ready mask1 mask2) (hl : l.atMaster = false) :
    (p.slave.wants l.input && !mask1.getLsbD 2) = (p.requested l && !masked mask1 mask2 l) := by
  have himr : p.slave.imr = mask2 := by rw [h.slave]
  rw [Pic.wants, himr, requested_of_slave hl, masked, hl, if_neg (by decide), Bool.not_or,
    Bool.and_assoc]

/-- An unmasked request of the slave is one of the master's input 2. -/
theorem Ready.wants_cascade (h : p.Ready mask1 mask2) (hslave : p.slave.isr = 0)
    (hedge : p.master.irr.getLsbD 2 = p.slave.int) (hl : l.atMaster = false)
    (hrequested : p.requested l = true) (hmask : masked mask1 mask2 l = false) :
    p.master.wants 2 = true := by
  have hwants := h.wants_slave hl
  rw [hrequested, hmask, Bool.not_false, Bool.and_true, Bool.and_eq_true] at hwants
  have himr : p.master.imr = mask1 := by rw [h.master]
  rw [Pic.wants, hedge, Pic.int_of_wants hslave l.input_lt hwants.1, himr, hwants.2]
  rfl

/-- With nothing in service an unmasked request interrupts the processor. -/
theorem Ready.int (h : p.Ready mask1 mask2) (hidle : p.Idle) (hrequested : p.requested l = true)
    (hmask : masked mask1 mask2 l = false) : p.master.int = true := by
  rcases hl : l.atMaster with _ | _
  · exact Pic.int_of_wants hidle.master (by decide)
      (h.wants_cascade hidle.slave hidle.cascade hl hrequested hmask)
  · refine Pic.int_of_wants hidle.master l.input_lt ?_
    rw [h.wants_master hl, hrequested, hmask]
    rfl

end Pics

/-! ### The refinement -/

theorem Line.rank_le {k l : Line} (hat : k.atMaster = l.atMaster) (h : l.input ≤ k.input) :
    l.rank ≤ k.rank := by
  rw [Line.rank, Line.rank, hat]
  split_ifs <;> omega

/-- The slave comes before what is behind the master's input 2. -/
theorem Line.rank_master_le {k l : Line} (hl : l.atMaster = true) (hk : k.atMaster = false)
    (h : l.input < 2) : l.rank ≤ k.rank := by
  rw [Line.rank, Line.rank, hl, hk, if_pos rfl, if_neg (by decide)]
  omega

theorem Line.rank_slave_le {k l : Line} (hl : l.atMaster = false) (hk : k.atMaster = true)
    (h : 2 < k.input) : l.rank ≤ k.rank := by
  have hlt := l.input_lt
  rw [Line.rank, Line.rank, hl, hk, if_pos rfl, if_neg (by decide)]
  omega

theorem vector_master {n : Nat} (h : p.Ready mask1 mask2) :
    p.master.vector n = 32 + BitVec.ofNat 8 n := by
  have hicw : p.master.icw2 &&& 0xF8#8 = 32 := by
    rw [h.master]
    exact (by decide : (32 : BitVec 8) &&& 0xF8#8 = 32)
  rw [Pic.vector, hicw]

theorem vector_slave {n : Nat} (h : p.Ready mask1 mask2) :
    p.slave.vector n = 40 + BitVec.ofNat 8 n := by
  have hicw : p.slave.icw2 &&& 0xF8#8 = 40 := by
    rw [h.slave]
    exact (by decide : (40 : BitVec 8) &&& 0xF8#8 = 40)
  rw [Pic.vector, hicw]

/-- Only at line 2 is there a slave. -/
theorem hasSlave_iff (h : p.Ready mask1 mask2) {n : Nat} (hn : n < 8) :
    p.hasSlave n = true ↔ n = 2 := by
  have hicw : p.master.icw3 = lineBit 2 := by
    rw [h.master]
    rfl
  rw [Pics.hasSlave, hicw, getLsbD_lineBit hn, decide_eq_true_eq, eq_comm]

theorem slaveId_eq (h : p.Ready mask1 mask2) : p.slaveId = 2 := by
  rw [Pics.slaveId, h.slave]
  exact (by decide : ((0x02 : BitVec 8) &&& 7).toNat = 2)

/-- The requests after a line of the master was served. -/
theorem requested_serve_master (hl : l.atMaster = true) (isr : BitVec 8) :
    Pics.requested { p with master := { p.master with
        isr := isr, irr := p.master.irr &&& ~~~lineBit l.input } } =
      Function.update p.requested l false := by
  rw [← p.requested_edge l false, Pics.edge_of_master hl]
  rfl

theorem requested_serve_slave (hl : l.atMaster = false) (isr : BitVec 8) :
    (p.setSlave { p.slave with
        isr := isr, irr := p.slave.irr &&& ~~~lineBit l.input }).requested =
      Function.update p.requested l false := by
  rw [← p.requested_edge l false, Pics.edge_of_slave hl]
  funext k
  rw [Pics.requested_setSlave, Pics.requested_setSlave]
  rfl

/-- Of a change of the slave the master sees an edge. -/
theorem Pics.setSlave_edge (hedge : p.master.irr.getLsbD 2 = p.slave.int) (slave : Pic) :
    (p.setSlave slave).master.irr.getLsbD 2 = (p.setSlave slave).slave.int := by
  rw [setSlave_irr _ _ (by decide), hedge]
  change (if 2 = 2 ∧ slave.int ≠ p.slave.int then slave.int else p.slave.int) = slave.int
  by_cases hint : slave.int = p.slave.int
  · rw [if_neg (fun h => h.2 hint), hint]
  · rw [if_pos ⟨rfl, hint⟩]

/-- The output of the slave that goes down, or is down. -/
theorem Pics.setSlave_edge_of_int (hedge : p.master.irr.getLsbD 2 = true → p.slave.int = true)
    {slave : Pic} (hint : slave.int = false) :
    (p.setSlave slave).master.irr.getLsbD 2 = (p.setSlave slave).slave.int := by
  rw [setSlave_irr _ _ (by decide)]
  change (if 2 = 2 ∧ slave.int ≠ p.slave.int then slave.int else p.master.irr.getLsbD 2) = slave.int
  by_cases hsame : slave.int = p.slave.int
  · rw [if_neg (fun h => h.2 hsame), hint]
    rw [hint] at hsame
    rcases hirr : p.master.irr.getLsbD 2 with _ | _
    · rfl
    · exact absurd (hsame.trans (hedge hirr)) (by decide)
  · rw [if_pos ⟨rfl, hsame⟩]

/-- The state of the machine, and what it stands for. -/
structure Implements {σ : Type*} (mask1 mask2 : BitVec 8) (s : IrqState σ) (a : Latches) :
    Prop where
  ready : s.pics.Ready mask1 mask2
  phased : Phased s.pics s.phase
  requested : a.requested = s.pics.requested
  phase : a.phase = s.phase.latch

/-- Edges are the same for the latches. -/
theorem implements_edges {σ : Type*} {s : IrqState σ} {a : Latches}
    (h : Implements mask1 mask2 s a) (es : List (Line × Bool)) (d : σ) :
    ∃ b, Run (LatchStep (masked mask1 mask2)) a (es.map fun e => .edge e.1 e.2) b ∧
      Implements mask1 mask2 { s with pics := s.pics.edges es, dev := d } b := by
  induction es generalizing s a with
  | nil => exact ⟨a, Run.refl a, h.ready, h.phased, h.requested, h.phase⟩
  | cons e es ih =>
    have hedge : Implements mask1 mask2 { s with pics := s.pics.edge e.1 e.2 }
        { a with requested := Function.update a.requested e.1 e.2 } :=
      ⟨h.ready.edge e.2, (s.pics.edged e.1 e.2).phased h.phased,
        by rw [Pics.requested_edge, h.requested], h.phase⟩
    obtain ⟨b, hrun, hb⟩ := ih hedge
    exact ⟨b, (Run.single (.edge a e.1 e.2)).trans hrun, hb⟩

section

variable {σ : Type*} {s : IrqState σ} {a : Latches} (h : Implements mask1 mask2 s a)

include h

/-- A line of the master that is served comes before all other requests. -/
theorem first_of_master (hidle : s.pics.Idle) (hl : l.atMaster = true)
    (hfirst : ∀ k < l.input, s.pics.master.wants k = false) {k : Line}
    (hk : a.requested k = true) (hmask : masked mask1 mask2 k = false) : l.rank ≤ k.rank := by
  rw [h.requested] at hk
  have hle : ∀ n, s.pics.master.wants n = true → l.input ≤ n := by
    intro n hwants
    by_contra hlt
    exact absurd (hwants.symm.trans (hfirst n (by omega))) (by decide)
  rcases hkat : k.atMaster with _ | _
  · -- a request of the slave is one at the master's input 2
    have h2 := hle 2 (h.ready.wants_cascade hidle.slave hidle.cascade hkat hk hmask)
    have hne := l.input_ne hl
    exact Line.rank_master_le hl hkat (by omega)
  · refine Line.rank_le (hkat.trans hl.symm) (hle _ ?_)
    rw [h.ready.wants_master hkat, hk, hmask]
    rfl

/-- A line of the slave with no wanted one before it comes before the slave's other requests. -/
theorem first_of_slave {n : Nat} (hfirst : ∀ k < n, s.pics.slave.wants k = false) {k : Line}
    (hkat : k.atMaster = false) (hk : a.requested k = true)
    (hmask : masked mask1 mask2 k = false) : n ≤ k.input := by
  by_contra hlt
  have hwants := h.ready.wants_slave hkat
  rw [hfirst _ (by omega), ← h.requested, hk, hmask] at hwants
  exact Bool.noConfusion hwants

/-- Where the master chooses its input 2, the first of all requests is one of the slave. -/
theorem exists_first_of_slave (hidle : s.pics.Idle) (hwants : s.pics.master.wants 2 = true)
    (hfirst : ∀ k < 2, s.pics.master.wants k = false) :
    ∃ l ∈ slaveLines, a.First (masked mask1 mask2) Set.univ l := by
  rw [Pic.wants, Bool.and_eq_true, Bool.not_eq_true'] at hwants
  have himr : s.pics.master.imr = mask1 := by rw [h.ready.master]
  have hmask1 : mask1.getLsbD 2 = false := himr ▸ hwants.2
  have hint : s.pics.slave.int = true := hidle.cascade ▸ hwants.1
  rcases Pic.acknowledge_cases hidle.slave with ⟨n, hn, hwanted, hless, -⟩ | ⟨hnone, -⟩
  · obtain ⟨l, hl, rfl, -⟩ := Line.exists_slave hn
    have hserved := h.ready.wants_slave hl
    rw [hwanted, hmask1, ← h.requested, Bool.not_false, Bool.and_true, eq_comm,
      Bool.and_eq_true, Bool.not_eq_true'] at hserved
    refine ⟨l, hl, Set.mem_univ l, hserved.1, hserved.2, fun k _ hk hmask => ?_⟩
    rcases hkat : k.atMaster with _ | _
    · exact Line.rank_le (hkat.trans hl.symm)
        (first_of_slave h hless hkat hk hmask)
    · have hkwants := h.ready.wants_master hkat
      rw [← h.requested, hk, hmask] at hkwants
      have hne := k.input_ne hkat
      refine Line.rank_slave_le hl hkat ?_
      by_contra hlt
      exact absurd (hkwants.symm.trans (hfirst _ (by omega))) (by decide)
  · rw [Pic.int_of_not_wants hidle.slave hnone] at hint
    exact Bool.noConfusion hint

/-- The master serves a line of its own, or finds none. -/
theorem implements_master (hphase : s.phase = .accepted)
    (hslave : s.pics.hasSlave s.pics.master.acknowledge.1 = false) :
    ∃ b, LatchStep (masked mask1 mask2) a
        [.serve (s.pics.master.vector s.pics.master.acknowledge.1)] b ∧
      Implements mask1 mask2 { s with
        pics := { s.pics with master := s.pics.master.acknowledge.2 }
        phase := .entered (s.pics.master.vector s.pics.master.acknowledge.1) } b := by
  have hlatch : a.phase = .idle := by rw [h.phase, hphase]; rfl
  have hphased := h.phased
  rw [hphase] at hphased
  have hidle := hphased.idle
  rw [vector_master h.ready]
  rcases Pic.acknowledge_cases hidle.master with ⟨n, hn, hwants, hfirst, heq⟩ | ⟨hnone, heq⟩
  · rw [heq] at hslave ⊢
    have hn2 : n ≠ 2 := fun h2 => by
      rw [(hasSlave_iff h.ready hn).mpr h2] at hslave
      exact Bool.noConfusion hslave
    obtain ⟨l, hl, rfl, hvector⟩ := Line.exists_master hn hn2
    rw [h.ready.wants_master hl, ← h.requested, Bool.and_eq_true, Bool.not_eq_true'] at hwants
    dsimp only
    rw [← hvector]
    refine ⟨⟨Function.update a.requested l false, .serving⟩, ?_, ?_, ?_, ?_, rfl⟩
    · exact .serve hlatch hl ⟨Set.mem_univ l, hwants.1, hwants.2,
        fun k _ hk hmask => first_of_master h hidle hl hfirst hk hmask⟩
    · exact h.ready.congr rfl rfl
    · have hirr : (s.pics.master.irr &&& ~~~lineBit l.input).getLsbD 2 =
          s.pics.master.irr.getLsbD 2 := by
        rw [getLsbD_and_not _ _ (by decide), getLsbD_lineBit (by decide), decide_eq_false hn2,
          Bool.not_false, Bool.and_true]
      rw [hvector]
      refine .entered (by bv_omega) (by bv_omega) (Or.inr ⟨_, hn, rfl⟩) (Or.inl hidle.slave)
        (fun _ => hidle.slave) ?_
      exact hirr.trans hidle.cascade
    · rw [h.requested]
      exact (requested_serve_master hl _).symm
  · rw [heq] at hslave ⊢
    have hvector : (32 : BitVec 8) + BitVec.ofNat 8 7 = 39 := by decide
    dsimp only
    rw [hvector]
    refine ⟨⟨a.requested, .serving⟩, .spurious hlatch fun k hk => ?_, ?_, ?_, ?_, rfl⟩
    · by_contra hmask
      rw [Bool.not_eq_true] at hmask
      rw [h.requested] at hk
      rcases hkat : k.atMaster with _ | _
      · have h2 := h.ready.wants_cascade hidle.slave hidle.cascade hkat hk hmask
        exact absurd (h2.symm.trans (hnone 2 (by decide))) (by decide)
      · have hwants := h.ready.wants_master hkat
        rw [hk, hmask, hnone _ k.input_lt] at hwants
        exact Bool.noConfusion hwants
    · exact h.ready
    · exact .entered (by decide) (by decide) (Or.inl hidle.master) (Or.inl hidle.slave)
        (fun _ => hidle.slave) hidle.cascade
    · exact h.requested

/-- The master leaves the vector to the slave, which has the first of all requests. -/
theorem implements_cascade (hphase : s.phase = .accepted)
    (hslave : s.pics.hasSlave s.pics.master.acknowledge.1 = true) :
    ∃ b, LatchStep (masked mask1 mask2) a [] b ∧ Implements mask1 mask2 { s with
      pics := { s.pics with master := s.pics.master.acknowledge.2 }
      phase := .cascaded s.pics.master.acknowledge.1 } b := by
  have hlatch : a.phase = .idle := by rw [h.phase, hphase]; rfl
  have hphased := h.phased
  rw [hphase] at hphased
  have hidle := hphased.idle
  rcases Pic.acknowledge_cases hidle.master with ⟨n, hn, hwants, hfirst, heq⟩ | ⟨-, heq⟩
  · rw [heq] at hslave ⊢
    obtain rfl := (hasSlave_iff h.ready hn).mp hslave
    obtain ⟨l, hl, hmin⟩ := exists_first_of_slave h hidle hwants hfirst
    rw [Pic.wants, Bool.and_eq_true, Bool.not_eq_true'] at hwants
    refine ⟨⟨a.requested, .asking⟩, .ask hlatch hl hmin, h.ready.congr rfl rfl,
      .cascaded rfl hidle.slave (fun hirr => ?_) hwants.2, ?_, rfl⟩
    · dsimp only at hirr
      rw [getLsbD_and_not _ _ (by decide), getLsbD_lineBit (by decide), decide_eq_true rfl,
        Bool.not_true, Bool.and_false] at hirr
      exact Bool.noConfusion hirr
    · dsimp only
      rw [h.requested]
      funext k
      rcases hk : k.atMaster with _ | _
      · rw [Pics.requested_of_slave hk, Pics.requested_of_slave hk]
      · rw [Pics.requested_of_master hk, Pics.requested_of_master hk]
        dsimp only
        rw [getLsbD_and_not _ _ k.input_lt, getLsbD_lineBit k.input_lt,
          decide_eq_false (Ne.symm (k.input_ne hk)), Bool.not_false, Bool.and_true]
  · rw [heq] at hslave
    have h2 : 7 = 2 := (hasSlave_iff h.ready (by decide)).mp hslave
    exact absurd h2 (by decide)

/-- The slave serves a line, or finds none. -/
theorem implements_slave {line : Nat} (hphase : s.phase = .cascaded line) :
    ∃ b, LatchStep (masked mask1 mask2) a
        [.serve (s.pics.slave.vector s.pics.slave.acknowledge.1)] b ∧
      Implements mask1 mask2 { s with
        pics := s.pics.setSlave s.pics.slave.acknowledge.2
        phase := .entered (s.pics.slave.vector s.pics.slave.acknowledge.1) } b := by
  have hlatch : a.phase = .asking := by rw [h.phase, hphase]; rfl
  have hphased := h.phased
  rw [hphase] at hphased
  cases hphased with
  | cascaded hmaster hisr hedge hmask =>
    have hmask1 : mask1.getLsbD 2 = false := by
      rw [← hmask, h.ready.master]
    have hmasterIsr : ∀ slave, (s.pics.setSlave slave).master.isr = lineBit 2 := fun slave => by
      rw [Pics.setSlave_master]
      exact hmaster
    rw [vector_slave h.ready]
    rcases Pic.acknowledge_cases hisr with ⟨n, hn, hwants, hfirst, heq⟩ | ⟨hnone, heq⟩
    · rw [heq]
      obtain ⟨l, hl, rfl, hvector⟩ := Line.exists_slave hn
      have hserved := h.ready.wants_slave hl
      rw [hwants, hmask1, ← h.requested, Bool.not_false, Bool.and_true, eq_comm,
        Bool.and_eq_true, Bool.not_eq_true'] at hserved
      dsimp only
      rw [← hvector]
      refine ⟨⟨Function.update a.requested l false, .serving⟩, ?_, ?_, ?_, ?_, rfl⟩
      · refine .answer hlatch ⟨hl, hserved.1, hserved.2, fun k hkat hk hkmask => ?_⟩
        have hkat : k.atMaster = false := hkat
        exact Line.rank_le (hkat.trans hl.symm) (first_of_slave h hfirst hkat hk hkmask)
      · refine h.ready.congr ?_ rfl
        rw [Pics.setSlave_master]
      · rw [hvector]
        refine .entered (by bv_omega) (by bv_omega) (Or.inr ⟨2, by decide, hmasterIsr _⟩)
          (Or.inr ⟨_, hn, rfl⟩) (fun hlow => ?_) ?_
        · exact absurd hlow (by bv_omega)
        · exact Pics.setSlave_edge_of_int hedge (Pic.int_served hn hfirst)
      · rw [h.requested]
        exact (requested_serve_slave hl _).symm
    · rw [heq]
      have hvector : (40 : BitVec 8) + BitVec.ofNat 8 7 = 47 := by decide
      have hint := Pic.int_of_not_wants hisr hnone
      dsimp only
      rw [hvector]
      refine ⟨⟨a.requested, .serving⟩, .slaveSpurious hlatch fun k hkat hk => ?_, ?_, ?_, ?_, rfl⟩
      · have hkat : k.atMaster = false := hkat
        by_contra hkmask
        rw [Bool.not_eq_true] at hkmask
        have hkwants := h.ready.wants_slave hkat
        rw [hnone _ k.input_lt, ← h.requested, hk, hkmask] at hkwants
        exact Bool.noConfusion hkwants
      · exact h.ready.congr (by rw [Pics.setSlave_master]) rfl
      · exact .entered (by decide) (by decide) (Or.inr ⟨2, by decide, hmasterIsr _⟩) (Or.inl hisr)
          (fun _ => hisr) (Pics.setSlave_edge_of_int hedge hint)
      · rw [h.requested]
        exact (funext fun k => Pics.requested_setSlave s.pics s.pics.slave k).symm

/-- `pic_send_eoi` is told a line of the controller that is in service. -/
theorem implements_handle {vector : BitVec 8} (hphase : s.phase = .entered vector)
    (es : List (Line × Bool)) (d : σ) :
    ∃ b, Run (LatchStep (masked mask1 mask2)) a (es.map fun e => .edge e.1 e.2) b ∧
      Implements mask1 mask2 ⟨s.pics.edges es, .ending (endWrites vector), d⟩ b := by
  have hphased := h.phased
  rw [hphase] at hphased
  have hending : Implements mask1 mask2 { s with phase := .ending (endWrites vector) } a := by
    refine ⟨h.ready, ?_, h.requested, by rw [h.phase, hphase]; rfl⟩
    cases hphased with
    | entered hlow hhigh hmaster hslave honly hedge =>
      dsimp only
      rw [endWrites, if_pos ⟨hlow, hhigh⟩, picSendEoi]
      split_ifs with h8
      · exact .both hmaster hslave hedge
      · exact .one hmaster (honly (by bv_omega)) hedge
  exact implements_edges hending es d

/-- Each write of the end of an interrupt clears what one controller has in service. -/
theorem implements_write {w : BitVec 16 × BitVec 8} {writes : List (BitVec 16 × BitVec 8)}
    (hphase : s.phase = .ending (w :: writes)) :
    Implements mask1 mask2 { s with pics := s.pics.outb w.1 w.2, phase := .ending writes } a := by
  have hlatch : a.phase = .serving := by rw [h.phase, hphase]; rfl
  have hphased := h.phased
  rw [hphase] at hphased
  cases hphased with
  | both hmaster hslave hedge =>
    have hout : s.pics.outb pic2Command picEoi = s.pics.setSlave { s.pics.slave with isr := 0 } := by
      rw [Pics.outb_pic2Command, Pic.command_eoi, hslave.endOfInterrupt]
    dsimp only
    rw [hout]
    refine ⟨h.ready.congr (by rw [Pics.setSlave_master]) rfl, .one ?_ rfl ?_, ?_, hlatch⟩
    · rw [Pics.setSlave_master]
      exact hmaster
    · exact Pics.setSlave_edge hedge _
    · rw [h.requested]
      funext k
      rw [Pics.requested_setSlave]
      rfl
  | one hmaster hslave hedge =>
    have hout : s.pics.outb pic1Command picEoi =
        { s.pics with master := { s.pics.master with isr := 0 } } := by
      rw [Pics.outb_pic1Command, Pic.command_eoi, hmaster.endOfInterrupt]
    dsimp only
    rw [hout]
    exact ⟨h.ready.congr rfl rfl, .ended ⟨rfl, hslave, hedge⟩, h.requested, hlatch⟩

theorem implements_iret (hphase : s.phase = .ending []) :
    ∃ b, Run (LatchStep (masked mask1 mask2)) a [.done] b ∧
      Implements mask1 mask2 { s with phase := .running } b := by
  have hlatch : a.phase = .serving := by rw [h.phase, hphase]; rfl
  have hphased := h.phased
  rw [hphase] at hphased
  cases hphased with
  | ended hidle =>
    exact ⟨_, Run.single (.done hlatch), h.ready, .running hidle, h.requested, rfl⟩

/-- Every step of the machine is one of the latches, or none. -/
theorem implements_step {D : IrqDevices σ} {es : List IrqEvent} {s' : IrqState σ}
    (hstep : IrqStep D s es s') :
    ∃ b, Run (LatchStep (masked mask1 mask2)) a es b ∧ Implements mask1 mask2 s' b := by
  cases hstep with
  | device _ => exact implements_edges h _ _
  | program _ _ => exact implements_edges h _ _
  | accept hphase _ =>
    have hlatch : a.phase = .idle := by rw [h.phase, hphase]; rfl
    have hphased := h.phased
    rw [hphase] at hphased
    cases hphased with
    | running hidle => exact ⟨a, Run.refl a, h.ready, .accepted hidle, h.requested, hlatch⟩
  | master hphase hslave =>
    obtain ⟨b, hstep, hb⟩ := implements_master h hphase hslave
    exact ⟨b, Run.single hstep, hb⟩
  | cascade hphase hslave =>
    obtain ⟨b, hstep, hb⟩ := implements_cascade h hphase hslave
    exact ⟨b, Run.single hstep, hb⟩
  | slave hphase _ =>
    obtain ⟨b, hstep, hb⟩ := implements_slave h hphase
    exact ⟨b, Run.single hstep, hb⟩
  | unanswered hphase hid =>
    have hphased := h.phased
    rw [hphase] at hphased
    cases hphased with
    | cascaded _ _ _ _ => exact absurd (slaveId_eq h.ready) hid
  | handle hphase => exact implements_handle h hphase _ _
  | write hphase => exact ⟨a, Run.refl a, implements_write h hphase⟩
  | iret hphase => exact implements_iret h hphase

end

/-- What holds of the interrupts whenever the kernel runs: nothing is in service, the masks are the
ones from before, and an unmasked request interrupts. -/
structure Attentive (mask1 mask2 : BitVec 8) (p : Pics) : Prop where
  masks : p.master.imr = mask1 ∧ p.slave.imr = mask2
  service : p.master.isr = 0 ∧ p.slave.isr = 0
  requests : ∀ l, p.requested l = true → masked mask1 mask2 l = false → p.master.int = true

theorem Implements.attentive {σ : Type*} {s : IrqState σ} {a : Latches}
    (h : Implements mask1 mask2 s a) (hphase : s.phase = .running) :
    Attentive mask1 mask2 s.pics := by
  have hphased := h.phased
  rw [hphase] at hphased
  cases hphased with
  | running hidle =>
    refine ⟨⟨?_, ?_⟩, ⟨hidle.master, hidle.slave⟩, fun _ => h.ready.int hidle⟩
    · rw [h.ready.master]
    · rw [h.ready.slave]

/-- Whatever state the controllers were in, however edges at the master's lines fall between the
writes of `pic_remap`, and whatever the devices and the handlers do from then on: the interrupts are
those of the latches.  A request is taken back only by its line or by the call of its own handler,
one at a time: the first by priority of all that are unmasked when the processor asks, or, where that
is one of the slave, the first of the slave's when the slave answers.  Whenever the kernel runs,
nothing is left in service and an unmasked request interrupts it. -/
theorem interrupts_refine_latches {σ : Type*} (D : IrqDevices σ) (before : Pics) :
    Guarantees (fun w p => p.outb w.1 w.2) MasterEdge (fun _ => True)
      (fun p => ∀ d es s, Run (IrqStep D) ⟨p, .running, d⟩ es s →
        Run (LatchStep (masked (before.inb pic1Data) (before.inb pic2Data)))
          ⟨p.requested, .idle⟩ es ⟨s.pics.requested, s.phase.latch⟩ ∧
        (s.phase = .running → Attentive (before.inb pic1Data) (before.inb pic2Data) s.pics))
      (picRemap 32 40 (before.inb pic1Data) (before.inb pic2Data)) before := by
  refine (picRemap_ready before _ _).mono fun p hp d es s hrun => ?_
  have hstart : Implements (before.inb pic1Data) (before.inb pic2Data) (⟨p, .running, d⟩ : IrqState σ)
      ⟨p.requested, .idle⟩ := ⟨hp.1, .running hp.2, rfl, rfl⟩
  obtain ⟨b, hlatches, hb⟩ :=
    Run.simulates (R := Implements (before.inb pic1Data) (before.inb pic2Data))
      (fun h hstep => implements_step h hstep) hrun hstart
  obtain ⟨requested, phase⟩ := b
  obtain rfl : requested = s.pics.requested := hb.requested
  obtain rfl : phase = s.phase.latch := hb.phase
  exact ⟨hlatches, hb.attentive⟩

end Sapphire
