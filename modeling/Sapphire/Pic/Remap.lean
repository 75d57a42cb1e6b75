import Sapphire.Pic
import Sapphire.Lib.Interleave

/-! What `pic_remap` leaves, whatever the controllers were doing and however edges at the master's
lines fall between its writes.  An edge of a slave's line between the two ICW1 would be lost with
the request that it makes: the slave's output would be up already when the master starts to look for
edges. -/

namespace Sapphire

open Machine

/-- Initialised by `pic_remap(32, 40)`, with what was restored as masks. -/
structure Pics.Ready (mask1 mask2 : BitVec 8) (p : Pics) : Prop where
  master : p.master = ⟨p.master.irr, p.master.isr, mask1, 0x11, 32, 0x04, 0x01, .ocw1⟩
  slave : p.slave = ⟨p.slave.irr, p.slave.isr, mask2, 0x11, 40, 0x02, 0x01, .ocw1⟩

/-- Nothing is in service, and the master has seen the last edge of the slave's output. -/
structure Pics.Idle (p : Pics) : Prop where
  master : p.master.isr = 0
  slave : p.slave.isr = 0
  cascade : p.master.irr.getLsbD 2 = p.slave.int

/-- The changes of lines that may come during `pic_remap`: no slave's line goes up. -/
def MasterEdge (p p' : Pics) : Prop :=
  ∃ l up, (l.atMaster = false → up = false) ∧ p' = p.edge l up

namespace Pics

variable {p : Pics} {pm ps : Pic}

/-- The controllers are as `pm` and `ps`, except for requests at the master's own lines. -/
structure Quiet (pm ps : Pic) (p : Pics) : Prop where
  master : p.master = { pm with irr := p.master.irr }
  slave : p.slave = { ps with irr := 0 }
  cascade : p.master.irr.getLsbD 2 = false

theorem outb_pic1Command (p : Pics) (v : BitVec 8) :
    p.outb pic1Command v = { p with master := p.master.command v } := rfl

theorem outb_pic2Command (p : Pics) (v : BitVec 8) :
    p.outb pic2Command v = p.setSlave (p.slave.command v) := rfl

theorem outb_pic1Data (p : Pics) (v : BitVec 8) :
    p.outb pic1Data v = { p with master := p.master.data v } := rfl

theorem outb_pic2Data (p : Pics) (v : BitVec 8) :
    p.outb pic2Data v = p.setSlave (p.slave.data v) := rfl

namespace Quiet

theorem slave_int (h : Quiet pm ps p) : p.slave.int = false :=
  Pic.int_of_irr (by rw [h.slave])

/-- A slave without requests keeps none. -/
theorem edge_slave (h : p.slave.irr = 0) {p' : Pics} (hedge : MasterEdge p p') :
    p'.slave = p.slave := by
  obtain ⟨l, up, hup, rfl⟩ := hedge
  rcases hl : l.atMaster with _ | _
  · have hclear : (0 : BitVec 8) &&& ~~~lineBit l.input = 0 := BitVec.zero_and
    rw [hup hl, edge_of_slave hl]
    simp only [setSlave, Pic.edge, Bool.false_eq_true, if_false, h, hclear]
    rw [← h]
  · rw [edge_of_master hl]

theorem edge (h : Quiet pm ps p) {p' : Pics} (hedge : MasterEdge p p') : Quiet pm ps p' := by
  obtain ⟨l, up, hup, rfl⟩ := hedge
  have hslave := edge_slave (by rw [h.slave]) ⟨l, up, hup, rfl⟩
  refine ⟨?_, hslave.trans h.slave, ?_⟩
  · rw [(edge_registers p l up).1, h.master]
  · rcases hl : l.atMaster with _ | _
    · rw [edge_of_slave hl] at hslave ⊢
      have hint : (p.slave.edge l.input up).int = p.slave.int := congrArg Pic.int hslave
      rw [setSlave_of_int hint]
      exact h.cascade
    · rw [edge_of_master hl]
      dsimp only
      rw [Pic.getLsbD_edge _ _ _ (by decide), if_neg (l.input_ne hl)]
      exact h.cascade

theorem stable (pm ps : Pic) : Stable MasterEdge (fun _ => True) (Quiet pm ps) :=
  ⟨fun _ _ h hedge => h.edge hedge, fun _ _ => trivial⟩

theorem masterData (h : Quiet pm ps p) (v : BitVec 8) :
    Quiet (pm.data v) ps (p.outb pic1Data v) := by
  have hdata : p.master.data v = { pm.data v with irr := p.master.irr } := by
    rw [h.master, Pic.data_irr]
  have hirr : (p.master.data v).irr = p.master.irr := by rw [hdata]
  rw [outb_pic1Data]
  refine ⟨?_, h.slave, ?_⟩
  · dsimp only
    rw [hirr, hdata]
  · dsimp only
    rw [hirr]
    exact h.cascade

theorem slaveData (h : Quiet pm ps p) (v : BitVec 8) :
    Quiet pm (ps.data v) (p.outb pic2Data v) := by
  have hdata : p.slave.data v = { ps.data v with irr := 0 } := by rw [h.slave, Pic.data_irr]
  have hint : (p.slave.data v).int = p.slave.int := by
    rw [h.slave_int]
    exact Pic.int_of_irr (by rw [hdata])
  rw [outb_pic2Data, setSlave_of_int hint]
  exact ⟨h.master, hdata, h.cascade⟩

end Quiet

end Pics

/-! ### The writes one after another -/

/-- A controller that has got ICW1. -/
def initialising (icw2 icw3 : BitVec 8) : Pic := ⟨0, 0, 0, 0x11, icw2, icw3, 0, .icw2⟩

/-- The controllers, by what is not yet overwritten of them, before ICW1 and between the two. -/
structure Pics.Before (m s : Pic) (p : Pics) : Prop where
  master : p.master.icw2 = m.icw2 ∧ p.master.icw3 = m.icw3
  slave : p.slave.icw2 = s.icw2 ∧ p.slave.icw3 = s.icw3

structure Pics.Between (m s : Pic) (p : Pics) : Prop where
  master : p.master.icw2 = m.icw2 ∧ p.master.icw3 = m.icw3
  slave : p.slave = initialising s.icw2 s.icw3

/-- The four bytes that follow. -/
theorem initialising_data (icw2 icw3 offset lines mask : BitVec 8) :
    ((((initialising icw2 icw3).data offset).data lines).data icw4_8086).data mask =
      ⟨0, 0, mask, 0x11, offset, lines, 0x01, .ocw1⟩ := by
  simp [initialising, Pic.data, Pic.afterIcw3]

section

variable (m s : Pic) {p p' : Pics}

theorem command_icw1 (pic : Pic) :
    pic.command (icw1Init ||| icw1Icw4) = initialising pic.icw2 pic.icw3 := rfl

theorem Pics.Before.stable : Stable MasterEdge (fun _ => True) (Pics.Before m s) where
  env := by
    rintro p _ h ⟨l, up, -, rfl⟩
    have hregs := p.edge_registers l up
    exact ⟨by rw [hregs.1]; exact h.master, by rw [hregs.2]; exact h.slave⟩
  safe _ _ := trivial

theorem Pics.Between.stable : Stable MasterEdge (fun _ => True) (Pics.Between m s) where
  env := by
    rintro p _ h ⟨l, up, hup, rfl⟩
    have hslave := Pics.Quiet.edge_slave (p := p) (by rw [h.slave]; rfl) ⟨l, up, hup, rfl⟩
    exact ⟨by rw [(p.edge_registers l up).1]; exact h.master, hslave.trans h.slave⟩
  safe _ _ := trivial

theorem Pics.Before.slaveIcw1 (h : Pics.Before m s p) :
    Pics.Between m s (p.outb pic2Command (icw1Init ||| icw1Icw4)) := by
  rw [Pics.outb_pic2Command, command_icw1]
  refine ⟨?_, ?_⟩
  · rw [Pics.setSlave_master]
    exact h.master
  · rw [← h.slave.1, ← h.slave.2]
    rfl

theorem Pics.Between.masterIcw1 (h : Pics.Between m s p) :
    Pics.Quiet (initialising m.icw2 m.icw3) (initialising s.icw2 s.icw3)
      (p.outb pic1Command (icw1Init ||| icw1Icw4)) := by
  rw [Pics.outb_pic1Command, command_icw1, h.master.1, h.master.2]
  exact ⟨rfl, h.slave, BitVec.getLsbD_zero⟩

end

/-- A byte that is written and waited for. -/
theorem guarantees_ioWait {P Q : Pics → Prop} {todo : List (BitVec 16 × BitVec 8)} {p : Pics}
    (hQ : Stable MasterEdge (fun _ => True) Q) {port : BitVec 16} {v : BitVec 8}
    (h : Guarantees (fun w p => p.outb w.1 w.2) MasterEdge (fun _ => True) P todo p)
    (hstep : ∀ p, P p → Q (p.outb port v)) :
    Guarantees (fun w p => p.outb w.1 w.2) MasterEdge (fun _ => True) Q
      (todo ++ ioWait port v) p := by
  have hwritten := h.snoc hQ (a := (port, v)) hstep
  have hwaited := hwritten.snoc hQ (a := (0x80, 0)) fun p hp => hp
  rw [List.append_assoc] at hwaited
  exact hwaited

/-- The controllers that `Quiet` describes at the end. -/
theorem Pics.Quiet.ready {mask1 mask2 : BitVec 8} {p : Pics}
    (h : Pics.Quiet ⟨0, 0, mask1, 0x11, 32, 0x04, 0x01, .ocw1⟩
      ⟨0, 0, mask2, 0x11, 40, 0x02, 0x01, .ocw1⟩ p) : p.Ready mask1 mask2 ∧ p.Idle := by
  have hmaster := h.master
  have hslave := h.slave
  refine ⟨⟨?_, ?_⟩, ?_, ?_, ?_⟩
  · rw [hmaster]
  · rw [hslave]
  · rw [hmaster]
  · rw [hslave]
  · rw [h.cascade, h.slave_int]

/-- After `pic_remap` the controllers are initialised, with the masks restored and nothing in
service. -/
theorem picRemap_ready (before : Pics) (mask1 mask2 : BitVec 8) :
    Guarantees (fun w p => p.outb w.1 w.2) MasterEdge (fun _ => True)
      (fun p => p.Ready mask1 mask2 ∧ p.Idle) (picRemap 32 40 mask1 mask2) before := by
  have h0 : Guarantees (fun (w : BitVec 16 × BitVec 8) (p : Pics) => p.outb w.1 w.2) MasterEdge
      (fun _ => True) (Pics.Before before.master before.slave) [] before :=
    Guarantees.nil (Pics.Before.stable _ _) ⟨⟨rfl, rfl⟩, rfl, rfl⟩
  have h1 := guarantees_ioWait (Pics.Between.stable _ _) h0 fun _ => Pics.Before.slaveIcw1 _ _
  have h2 := guarantees_ioWait (Pics.Quiet.stable _ _) h1 fun _ => Pics.Between.masterIcw1 _ _
  have h3 := guarantees_ioWait (Pics.Quiet.stable _ _) h2 fun _ h => h.masterData 32
  have h4 := guarantees_ioWait (Pics.Quiet.stable _ _) h3 fun _ h => h.slaveData 40
  have h5 := guarantees_ioWait (Pics.Quiet.stable _ _) h4 fun _ h => h.masterData 0x04
  have h6 := guarantees_ioWait (Pics.Quiet.stable _ _) h5 fun _ h => h.slaveData 0x02
  have h7 := guarantees_ioWait (Pics.Quiet.stable _ _) h6 fun _ h => h.masterData icw4_8086
  have h8 := guarantees_ioWait (Pics.Quiet.stable _ _) h7 fun _ h => h.slaveData icw4_8086
  have h9 := guarantees_ioWait (Pics.Quiet.stable _ _) h8 fun _ h => h.masterData mask1
  have h10 := guarantees_ioWait (Pics.Quiet.stable _ _) h9 fun _ h => h.slaveData mask2
  refine h10.mono fun p h => Pics.Quiet.ready ?_
  rw [initialising_data, initialising_data] at h
  exact h

end Sapphire
