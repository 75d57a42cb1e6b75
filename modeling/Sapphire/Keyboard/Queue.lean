import Sapphire.Keyboard
import Sapphire.Lib.Ring
import Mathlib.Logic.Relation

/-! The ring buffer of the keyboard as a queue.  `Holds` relates the driver to everything that was
typed and to how much of it was taken; it needs no bound on what waits in between, and the positions
may wrap.  `ReaderStep` splits `read_char` into its steps, with the interrupt handler between any two
of them. -/

namespace Sapphire

namespace Keyboard

variable {kb : Keyboard} {typed : List (BitVec 8)} {taken : Nat}

/-- The handler leaves the buffer and the positions alone, or adds one character, which is
not 0. -/
theorem handleInterrupt_cases (kb : Keyboard) (scancode : BitVec 8) :
    (kb.enqueued scancode = none ∧ (kb.handleInterrupt scancode).buffer = kb.buffer ∧
      (kb.handleInterrupt scancode).readPos = kb.readPos ∧
      (kb.handleInterrupt scancode).writePos = kb.writePos) ∨
    ∃ c, c ≠ 0 ∧ kb.enqueued scancode = some c ∧
      kb.handleInterrupt scancode = { kb with
        buffer := Function.update kb.buffer (bufferIndex kb.writePos) c
        writePos := kb.writePos + 1 } := by
  have hcases : ((kb.handleInterrupt scancode).buffer = kb.buffer ∧
      (kb.handleInterrupt scancode).readPos = kb.readPos ∧
      (kb.handleInterrupt scancode).writePos = kb.writePos) ∨
      ∃ c, c ≠ 0 ∧ kb.handleInterrupt scancode = { kb with
        buffer := Function.update kb.buffer (bufferIndex kb.writePos) c
        writePos := kb.writePos + 1 } := by
    unfold handleInterrupt
    dsimp only
    split_ifs <;> first | exact Or.inl ⟨rfl, rfl, rfl⟩ | exact Or.inr ⟨_, ‹_›, rfl⟩
  rcases hcases with hsame | ⟨c, hc, heq⟩
  · refine Or.inl ⟨?_, hsame⟩
    simp only [enqueued, hsame.2.2, if_true]
  · refine Or.inr ⟨c, hc, ?_, heq⟩
    have hne : kb.writePos + 1 ≠ kb.writePos := by bv_omega
    simp only [enqueued, heq, if_neg hne, Function.update_self]

theorem readChar_of_input (h : kb.hasInput = true) : kb.readChar =
    (kb.buffer (bufferIndex kb.readPos), { kb with readPos := kb.readPos + 1 }) :=
  if_neg (of_decide_eq_true h)

theorem readChar_of_empty (h : ¬ kb.hasInput = true) : kb.readChar = (0, kb) := by
  rw [hasInput, decide_eq_true_eq, not_not] at h
  exact if_pos h

/-- The driver after `typed` was put in the buffer and the first `taken` characters taken out. -/
structure Holds (kb : Keyboard) (typed : List (BitVec 8)) (taken : Nat) : Prop where
  readPos : kb.readPos = BitVec.ofNat 32 taken
  writePos : kb.writePos = BitVec.ofNat 32 typed.length
  taken_le : taken ≤ typed.length
  slots : Ring.Keeps kb.buffer typed
  nonzero : ∀ c ∈ typed, c ≠ 0

/-- A position is reduced to the slot of its item, also after it has wrapped. -/
theorem bufferIndex_ofNat (k : Nat) : bufferIndex (BitVec.ofNat 32 k) = Fin.ofNat 256 k := by
  rw [bufferIndex, Ring.ofNat_eq_iff, BitVec.toNat_ofNat]
  exact Nat.mod_mod_of_dvd k (by decide)

theorem Holds.init (kb : Keyboard) : Holds kb.init [] 0 :=
  ⟨rfl, rfl, le_refl _, Ring.Keeps.nil _, fun _ hc => absurd hc List.not_mem_nil⟩

theorem Holds.interrupt (h : Holds kb typed taken) (scancode : BitVec 8) :
    Holds (kb.handleInterrupt scancode) (typed ++ (kb.enqueued scancode).toList) taken := by
  rcases handleInterrupt_cases kb scancode with ⟨hnone, hbuffer, hread, hwrite⟩ | ⟨c, hc, hsome, heq⟩
  · rw [hnone, Option.toList_none, List.append_nil]
    exact ⟨hread.trans h.readPos, hwrite.trans h.writePos, h.taken_le, hbuffer ▸ h.slots, h.nonzero⟩
  · rw [hsome, heq, Option.toList_some]
    have htaken := h.taken_le
    refine ⟨h.readPos, ?_, ?_, ?_, fun d hd => ?_⟩
    · rw [List.length_append, List.length_singleton, BitVec.ofNat_add, ← h.writePos]
      rfl
    · rw [List.length_append]
      omega
    · dsimp only
      rw [h.writePos, bufferIndex_ofNat]
      exact h.slots.push c
    · rcases List.mem_append.mp hd with hd | hd
      · exact h.nonzero d hd
      · rw [List.mem_singleton.mp hd]
        exact hc

/-- There is input unless the number of unread characters is a multiple of `2^32`. -/
theorem Holds.hasInput_iff (h : Holds kb typed taken) :
    kb.hasInput = true ↔ (typed.length - taken) % 2 ^ 32 ≠ 0 := by
  have htaken := h.taken_le
  rw [hasInput, decide_eq_true_eq, h.readPos, h.writePos, Ne, not_iff_not, ← BitVec.toNat_inj,
    BitVec.toNat_ofNat, BitVec.toNat_ofNat]
  omega

/-- The character in the slot of the next item. -/
theorem Holds.char (h : Holds kb typed taken) (hlt : taken < typed.length) :
    typed[Ring.newest 256 typed.length taken]? = some (kb.buffer (bufferIndex kb.readPos)) := by
  rw [h.readPos, bufferIndex_ofNat]
  exact h.slots.get hlt

theorem Holds.advance (h : Holds kb typed taken) (hlt : taken < typed.length) :
    Holds { kb with readPos := kb.readPos + 1 } typed (taken + 1) := by
  refine ⟨?_, h.writePos, hlt, h.slots, h.nonzero⟩
  dsimp only
  rw [h.readPos, BitVec.ofNat_add]
  rfl

/-! With at most 256 characters unread. -/

theorem Holds.hasInput_eq (h : Holds kb typed taken) (hfew : typed.length ≤ taken + 256) :
    kb.hasInput = true ↔ taken < typed.length := by
  have htaken := h.taken_le
  rw [h.hasInput_iff]
  omega

theorem Holds.char_eq (h : Holds kb typed taken) (hlt : taken < typed.length)
    (hfew : typed.length ≤ taken + 256) :
    typed[taken]? = some (kb.buffer (bufferIndex kb.readPos)) := by
  rw [← h.char hlt, Ring.newest, Nat.div_eq_of_lt (by omega), Nat.mul_zero, Nat.add_zero]

end Keyboard

/-! ### Interrupts during a read -/

/-- Where `read_char` is: before its comparison, before its load, or before its increment, with the
character that it has loaded. -/
inductive ReadPc
  | idle
  | compared
  | loaded (c : BitVec 8)

/-- The driver and where `read_char` is, with what the handler has put in the buffer, what
`read_char` has returned and how often it has incremented `read_pos`. -/
structure Reader where
  kb : Keyboard
  pc : ReadPc
  typed : List (BitVec 8)
  returned : List (BitVec 8)
  taken : Nat

namespace Reader

def start (kb : Keyboard) : Reader := ⟨kb.init, .idle, [], [], 0⟩

/-- The characters in the buffer for which `read_pos` has not been incremented. -/
def unread (s : Reader) : Nat := s.typed.length - s.taken

end Reader

inductive ReaderStep : Reader → Reader → Prop
  | interrupt (s : Reader) (scancode : BitVec 8) :
      ReaderStep s { s with
        kb := s.kb.handleInterrupt scancode
        typed := s.typed ++ (s.kb.enqueued scancode).toList }
  | empty {s : Reader} (hpc : s.pc = .idle) (heq : s.kb.readPos = s.kb.writePos) :
      ReaderStep s { s with returned := s.returned ++ [0] }
  | compare {s : Reader} (hpc : s.pc = .idle) (hne : s.kb.readPos ≠ s.kb.writePos) :
      ReaderStep s { s with pc := .compared }
  | load {s : Reader} (hpc : s.pc = .compared) :
      ReaderStep s { s with pc := .loaded (s.kb.buffer (Keyboard.bufferIndex s.kb.readPos)) }
  | increment {s : Reader} {c : BitVec 8} (hpc : s.pc = .loaded c) :
      ReaderStep s { s with
        kb := { s.kb with readPos := s.kb.readPos + 1 }
        pc := .idle
        returned := s.returned ++ [c]
        taken := s.taken + 1 }

namespace Reader

open Keyboard

/-- Runs that leave at most 256 characters unread in every state. -/
def Runs : Reader → Reader → Prop :=
  Relation.ReflTransGen fun s s' => ReaderStep s s' ∧ s'.unread ≤ 256

/-- What has been returned is what has been taken, and the character that a read has loaded is the
next one. -/
structure Queues (s : Reader) : Prop where
  holds : Keyboard.Holds s.kb s.typed s.taken
  few : s.typed.length ≤ s.taken + 256
  returned : s.returned.filter (· ≠ 0) = s.typed.take s.taken
  waiting : s.pc ≠ .idle → s.taken < s.typed.length
  next : ∀ c, s.pc = .loaded c → s.typed[s.taken]? = some c

theorem Queues.start (kb : Keyboard) : (start kb).Queues :=
  ⟨Keyboard.Holds.init kb, Nat.zero_le _, rfl, fun h => absurd rfl h, fun _ h => by cases h⟩

theorem Queues.interrupt {s : Reader} (h : s.Queues) (scancode : BitVec 8)
    (hfew : (s.typed ++ (s.kb.enqueued scancode).toList).length ≤ s.taken + 256) :
    Queues { s with
      kb := s.kb.handleInterrupt scancode
      typed := s.typed ++ (s.kb.enqueued scancode).toList } := by
  refine ⟨h.holds.interrupt scancode, hfew, ?_, fun hpc => ?_, fun c hpc => ?_⟩
  · dsimp only
    rw [h.returned, List.take_append_of_le_length h.holds.taken_le]
  · have hlt := h.waiting hpc
    dsimp only
    rw [List.length_append]
    omega
  · have hlt := h.waiting (by rw [hpc]; simp)
    rw [List.getElem?_append_left hlt]
    exact h.next c hpc

theorem Queues.increment {s : Reader} (h : s.Queues) {c : BitVec 8} (hpc : s.pc = .loaded c) :
    Queues { s with
      kb := { s.kb with readPos := s.kb.readPos + 1 }
      pc := .idle
      returned := s.returned ++ [c]
      taken := s.taken + 1 } := by
  have hlt := h.waiting (by rw [hpc]; simp)
  have hnext := h.next c hpc
  have hne : c ≠ 0 := h.holds.nonzero c (List.mem_of_getElem? hnext)
  have hfew := h.few
  refine ⟨h.holds.advance hlt, by dsimp only; omega, ?_, fun hidle => absurd rfl hidle,
    fun d hd => by cases hd⟩
  dsimp only
  rw [List.filter_append, h.returned, List.take_add_one, hnext,
    List.filter_cons_of_pos (by simpa using hne)]
  rfl

theorem Queues.step {s s' : Reader} (h : s.Queues) (hstep : ReaderStep s s')
    (hfew : s'.unread ≤ 256) : s'.Queues := by
  cases hstep with
  | interrupt scancode =>
    refine h.interrupt scancode ?_
    have htaken := h.holds.taken_le
    unfold unread at hfew
    dsimp only at hfew
    omega
  | empty hpc heq =>
    refine ⟨h.holds, h.few, ?_, h.waiting, h.next⟩
    dsimp only
    rw [List.filter_append, h.returned]
    simp
  | compare hpc hne =>
    have hinput : s.kb.hasInput = true := decide_eq_true hne
    refine ⟨h.holds, h.few, h.returned, fun _ => (h.holds.hasInput_eq h.few).mp hinput,
      fun c hc => by cases hc⟩
  | load hpc =>
    have hlt := h.waiting (by rw [hpc]; simp)
    refine ⟨h.holds, h.few, h.returned, fun _ => hlt, fun c hc => ?_⟩
    cases hc
    exact h.holds.char_eq hlt h.few
  | increment hpc => exact h.increment hpc

theorem Queues.run {s s' : Reader} (h : s.Queues) (hrun : Runs s s') : s'.Queues := by
  induction hrun with
  | refl => exact h
  | tail _ hlast ih => exact ih.step hlast.1 hlast.2

/-- Without interrupts the steps of `read_char` are `read_char`. -/
theorem readChar_steps {s : Reader} (hpc : s.pc = .idle) :
    Relation.ReflTransGen ReaderStep s { s with
      kb := s.kb.readChar.2
      returned := s.returned ++ [s.kb.readChar.1]
      taken := s.taken + if s.kb.hasInput then 1 else 0 } := by
  by_cases heq : s.kb.readPos = s.kb.writePos
  · have hstep := ReaderStep.empty hpc heq
    refine .single ?_
    simpa [readChar, hasInput, heq] using hstep
  · have hstep := ((Relation.ReflTransGen.single (ReaderStep.compare hpc heq)).tail
      (ReaderStep.load rfl)).tail (ReaderStep.increment rfl)
    rw [← hpc] at hstep
    simpa [readChar, hasInput, heq] using hstep

end Reader

/-- However the interrupts fall between the steps of `read_char`, while at most 256 characters are
unread, the characters that it has returned are the first ones that the handler has put in the
buffer, in order, and `has_input` tells whether there are more.  The positions may wrap. -/
theorem keyboard_fifo (kb : Keyboard) {s : Reader} (hrun : Reader.Runs (Reader.start kb) s) :
    s.returned.filter (· ≠ 0) = s.typed.take s.taken ∧ s.taken ≤ s.typed.length ∧
      (s.kb.hasInput = true ↔ 0 < s.unread) := by
  have h := (Reader.Queues.start kb).run hrun
  refine ⟨h.returned, h.holds.taken_le, ?_⟩
  rw [h.holds.hasInput_eq h.few, Reader.unread]
  omega

/-- An `a` that is read while an `s` is typed. -/
theorem keyboard_fifo_interrupted :
    ∃ s, Reader.Runs (Reader.start ⟨fun _ => 0, 7, 5, true, true⟩) s ∧ s.typed = [0x61, 0x73] ∧
      s.returned.filter (· ≠ 0) = [0x61] ∧ s.kb.hasInput = true := by
  have h0 : Reader.Runs (Reader.start ⟨fun _ => 0, 7, 5, true, true⟩) _ := .refl
  have h1 := h0.tail ⟨ReaderStep.interrupt _ 0x1E, by decide⟩
  have h2 := h1.tail ⟨ReaderStep.compare rfl (by decide), by decide⟩
  have h3 := h2.tail ⟨ReaderStep.interrupt _ 0x1F, by decide⟩
  have h4 := h3.tail ⟨ReaderStep.load rfl, by decide⟩
  have h5 := h4.tail ⟨ReaderStep.increment rfl, by decide⟩
  obtain ⟨hreturned, -, hinput⟩ := keyboard_fifo _ h5
  exact ⟨_, h5, by decide, hreturned, hinput.mpr (by decide)⟩

end Sapphire
