import Sapphire.Interrupt.Entry
import Sapphire.Keyboard.Queue
import Sapphire.Keyboard.Shift
import Sapphire.Pic.Service

/-! From the keys to `read_char`: the keyboard sends its codes one at a time to the output buffer of
its controller, which then asks for interrupt 1 and sends no more until the buffer is read; the
handler that `init_keyboard` registers reads it.  Before that the default handler answers, which does
not read, and a code that it answers for stays in the buffer. -/

namespace Sapphire

open Machine

theorem one_lt_lines : 1 < 16 := by decide

theorem one_ne_cascade : (⟨1, one_lt_lines⟩ : Fin 16) ≠ 2 := by decide

/-- The line of the keyboard. -/
def keyboardLine : Line := ⟨⟨1, one_lt_lines⟩, one_ne_cascade⟩

/-- The keyboard, its controller and the driver, with all that was typed, handled and read. -/
structure Input where
  typed : List (BitVec 8)
  /-- Codes that the keyboard has not sent yet. -/
  waiting : List (BitVec 8)
  /-- What the data port reads, and whether it is new. -/
  data : BitVec 8
  full : Bool
  handlers : Nat → Handler
  kb : Keyboard
  handled : List (BitVec 8)
  returned : List (BitVec 8)

namespace Input

/-- `keyboard_irq_handler`; reading the data port takes the request back. -/
def keyboardIrqHandler (d : Input) : List (Line × Bool) × Input :=
  (if d.full then [(keyboardLine, false)] else [],
    { d with
      full := false
      kb := d.kb.handleInterrupt d.data
      handled := d.handled ++ [d.data] })

/-- The handler of a vector of the controllers: `default_irq_handler` does nothing. -/
def call (vector : BitVec 8) (d : Input) : List (Line × Bool) × Input :=
  match d.handlers vector.toNat with
  | .keyboardIrq => d.keyboardIrqHandler
  | _ => ([], d)

/-- `keyboard::init_keyboard` -/
def initKeyboard (d : Input) : Input :=
  { d with kb := d.kb.init, handlers := Function.update d.handlers 33 .keyboardIrq }

/-- `keyboard::read_char`, under `sys_read`, which no interrupt interrupts. -/
def readChar (d : Input) : Input :=
  { d with
    kb := d.kb.readChar.2
    returned := d.returned ++ if d.kb.hasInput then [d.kb.readChar.1] else [] }

/-- The code that has been sent and not been read. -/
def buffered (d : Input) : List (BitVec 8) := if d.full then [d.data] else []

/-- How many characters the driver holds. -/
def unread (d : Input) : Nat := (d.kb.writePos - d.kb.readPos).toNat

end Input

inductive InputDevice : Input → List (Line × Bool) → Input → Prop
  | press (d : Input) (code : BitVec 8) :
      InputDevice d [] { d with typed := d.typed ++ [code], waiting := d.waiting ++ [code] }
  | send {d : Input} {code : BitVec 8} {rest : List (BitVec 8)} (hwaiting : d.waiting = code :: rest)
      (hfull : d.full = false) :
      InputDevice d [(keyboardLine, true)] { d with waiting := rest, data := code, full := true }
  /-- Anything at the other lines. -/
  | other (d : Input) (es : List (Line × Bool)) (hes : ∀ e ∈ es, e.1 ≠ keyboardLine) :
      InputDevice d es d

/-- Outside of interrupts the kernel reads, once there is a driver. -/
inductive InputProgram : Input → List (Line × Bool) → Input → Prop
  | read {d : Input} (h : d.handlers 33 = .keyboardIrq) : InputProgram d [] d.readChar

/-- The machine as the keyboard sees it. -/
def inputDevices : IrqDevices Input := ⟨InputDevice, InputProgram, Input.call⟩

/-! ### What concerns the keyboard -/

/-- Whether the keyboard's request is latched, whether its handler is about to be called, and the
keyboard. -/
structure KeyView where
  latched : Bool
  called : Bool
  input : Input

def IrqPhase.isKeyboard : IrqPhase → Bool
  | .entered vector => vector = 33
  | _ => false

def IrqState.keyView (s : IrqState Input) : KeyView :=
  ⟨s.pics.requested keyboardLine, s.phase.isKeyboard, s.dev⟩

/-- What a step may be for the keyboard, with and without its handler. -/
inductive KeyStep (registered : Bool) : KeyView → KeyView → Prop
  | same (v : KeyView) : KeyStep registered v v
  | press (v : KeyView) (code : BitVec 8) : KeyStep registered v { v with
      input := { v.input with
        typed := v.input.typed ++ [code], waiting := v.input.waiting ++ [code] } }
  | send {v : KeyView} {code : BitVec 8} {rest : List (BitVec 8)}
      (hwaiting : v.input.waiting = code :: rest) (hfull : v.input.full = false) :
      KeyStep registered v { v with
        latched := true
        input := { v.input with waiting := rest, data := code, full := true } }
  | read (v : KeyView) (h : registered = true) :
      KeyStep registered v { v with input := v.input.readChar }
  | serve {v : KeyView} (hlatched : v.latched = true) (hcalled : v.called = false) :
      KeyStep registered v { v with latched := false, called := true }
  | handle {v : KeyView} (h : registered = true) (hcalled : v.called = true) :
      KeyStep registered v
        ⟨if v.input.full then false else v.latched, false, v.input.keyboardIrqHandler.2⟩
  /-- The default handler leaves the code where it is. -/
  | ignore {v : KeyView} (h : registered = false) (hcalled : v.called = true) :
      KeyStep registered v { v with called := false }

/-- The driver's handler is registered for its own vector, or not at all. -/
def HandledBy (registered : Bool) (handlers : Nat → Handler) : Prop :=
  ∀ i < idtMaxEntries, handlers i = .keyboardIrq ↔ registered = true ∧ i = 33

theorem vector_eq_keyboard {l : Line} (h : l.vector = 33) : l = keyboardLine := by
  have hlt := l.1.isLt
  have hval : (32 + l.1.val) % 256 = 33 := congrArg BitVec.toNat h
  exact Subtype.ext (Fin.ext (by
    change l.1.val = 1
    omega))

theorem requested_edges_of_ne {l : Line} (es : List (Line × Bool)) (h : ∀ e ∈ es, e.1 ≠ l)
    (p : Pics) : (p.edges es).requested l = p.requested l := by
  induction es generalizing p with
  | nil => rfl
  | cons e es ih =>
    rw [Pics.edges, List.foldl_cons, ← Pics.edges,
      ih (fun e he => h e (List.mem_cons_of_mem _ he)), Pics.requested_edge,
      Function.update_of_ne (Ne.symm (h e List.mem_cons_self))]

theorem requested_edges_self (p : Pics) (l : Line) (up : Bool) :
    (p.edges [(l, up)]).requested l = up := by
  rw [Pics.edges, List.foldl_cons, List.foldl_nil, Pics.requested_edge, Function.update_self]

/-- What is served is a request, or the lowest line of a controller without one. -/
theorem served_cases {masked : Line → Bool} {a b : Latches} {vector : BitVec 8}
    (h : LatchStep masked a [.serve vector] b) :
    (∃ l, vector = l.vector ∧ a.requested l = true ∧
      b.requested = Function.update a.requested l false) ∨
    vector ≠ 33 ∧ b.requested = a.requested := by
  cases h with
  | serve _ _ hfirst => exact Or.inl ⟨_, rfl, hfirst.requested, rfl⟩
  | answer _ hfirst => exact Or.inl ⟨_, rfl, hfirst.requested, rfl⟩
  | spurious _ _ => exact Or.inr ⟨by decide, rfl⟩
  | slaveSpurious _ _ => exact Or.inr ⟨by decide, rfl⟩

section

variable {mask1 mask2 : BitVec 8} {s s' : IrqState Input} {a b : Latches} {registered : Bool}

/-- The keyboard's handler is about to be called after its request was served only. -/
theorem keyView_served (h : Implements mask1 mask2 s a) {vector : BitVec 8}
    (hphase : s.phase.isKeyboard = false)
    (hserved : LatchStep (masked mask1 mask2) a [.serve vector] b)
    (hb : Implements mask1 mask2 s' b) (hphase' : s'.phase = .entered vector)
    (hdev : s'.dev = s.dev) : KeyStep registered s.keyView s'.keyView := by
  have hcalled : s'.phase.isKeyboard = decide (vector = 33) := by
    rw [hphase']
    rfl
  rw [IrqState.keyView, IrqState.keyView, hdev, ← h.requested, ← hb.requested, hphase, hcalled]
  rcases served_cases hserved with ⟨l, rfl, hlatched, hrequested⟩ | ⟨hvector, hrequested⟩
  · rw [hrequested]
    by_cases hl : l = keyboardLine
    · subst hl
      rw [Function.update_self]
      exact .serve hlatched rfl
    · rw [Function.update_of_ne (Ne.symm hl), decide_eq_false fun hv => hl (vector_eq_keyboard hv)]
      exact .same _
  · rw [hrequested, decide_eq_false hvector]
    exact .same _

theorem keyView_handle {vector : BitVec 8} (hphase : s.phase = .entered vector)
    (hhandlers : HandledBy registered s.dev.handlers) :
    KeyStep registered s.keyView (IrqState.keyView ⟨s.pics.edges (s.dev.call vector).1,
      .ending (endWrites vector), (s.dev.call vector).2⟩) := by
  have hvector : (IrqPhase.entered vector).isKeyboard = decide (vector = 33) := rfl
  by_cases hcall : s.dev.handlers vector.toNat = .keyboardIrq
  · obtain ⟨hregistered, hindex⟩ := (hhandlers _ vector.isLt).mp hcall
    have hlatched : (s.pics.edges s.dev.keyboardIrqHandler.1).requested keyboardLine =
        if s.dev.full then false else s.pics.requested keyboardLine := by
      rw [Input.keyboardIrqHandler]
      cases s.dev.full with
      | false => rfl
      | true => exact requested_edges_self s.pics keyboardLine false
    rw [Input.call, hcall, IrqState.keyView, IrqState.keyView, hphase, hvector,
      decide_eq_true (BitVec.eq_of_toNat_eq hindex : vector = 33)]
    dsimp only
    rw [hlatched]
    exact .handle hregistered rfl
  · have hdefault : s.dev.call vector = ([], s.dev) := by
      rw [Input.call]
      split
      · exact absurd ‹_› hcall
      · rfl
    rw [hdefault, IrqState.keyView, IrqState.keyView, hphase, hvector]
    by_cases h33 : vector = 33
    · -- the keyboard's vector without its handler
      have hregistered : registered = false := by
        cases registered with
        | false => rfl
        | true => exact absurd ((hhandlers _ vector.isLt).mpr ⟨rfl, congrArg BitVec.toNat h33⟩) hcall
      rw [decide_eq_true h33]
      exact .ignore hregistered rfl
    · rw [decide_eq_false h33]
      exact .same _

/-- The steps of the machine, as the keyboard sees them. -/
theorem keyView_step (h : Implements mask1 mask2 s a)
    (hhandlers : HandledBy registered s.dev.handlers) {es : List IrqEvent}
    (hstep : IrqStep inputDevices s es s') : KeyStep registered s.keyView s'.keyView := by
  cases hstep with
  | device hdevice =>
    cases hdevice with
    | press code => exact .press _ code
    | send hwaiting hfull =>
      have hlatched := requested_edges_self s.pics keyboardLine true
      rw [IrqState.keyView, IrqState.keyView]
      dsimp only
      rw [hlatched]
      exact .send hwaiting hfull
    | other _ hes =>
      rw [IrqState.keyView, IrqState.keyView]
      dsimp only
      rw [requested_edges_of_ne _ hes]
      exact .same _
  | program hphase hprogram =>
    cases hprogram with
    | read h33 => exact .read _ ((hhandlers 33 (by decide)).mp h33).1
  | accept hphase hint =>
    rw [IrqState.keyView, hphase]
    exact .same _
  | master hphase hslave =>
    obtain ⟨b, hserved, hb⟩ := implements_master h hphase hslave
    exact keyView_served h (by rw [hphase]; rfl) hserved hb rfl rfl
  | cascade hphase hslave =>
    obtain ⟨b, hasked, hb⟩ := implements_cascade h hphase hslave
    have hsame : b.requested = a.requested := by
      cases hasked
      rfl
    rw [IrqState.keyView, IrqState.keyView, ← h.requested, ← hb.requested, hsame, hphase]
    exact .same _
  | slave hphase hid =>
    obtain ⟨b, hserved, hb⟩ := implements_slave h hphase
    exact keyView_served h (by rw [hphase]; rfl) hserved hb rfl rfl
  | unanswered hphase hid =>
    rw [IrqState.keyView, hphase]
    exact .same _
  | handle hphase => exact keyView_handle hphase hhandlers
  | write hphase =>
    have hb := implements_write h hphase
    rw [IrqState.keyView, IrqState.keyView, ← h.requested, ← hb.requested, hphase]
    exact .same _
  | iret hphase =>
    rw [IrqState.keyView, hphase]
    exact .same _

end

/-! ### Characters -/

namespace Keyboard

/-- The characters that the driver puts in its buffer for codes. -/
def translate : Keyboard → List (BitVec 8) → List (BitVec 8)
  | _, [] => []
  | kb, code :: codes => (kb.enqueued code).toList ++ translate (kb.handleInterrupt code) codes

theorem translate_append (kb : Keyboard) (xs ys : List (BitVec 8)) :
    translate kb (xs ++ ys) = translate kb xs ++ translate (xs.foldl handleInterrupt kb) ys := by
  induction xs generalizing kb with
  | nil => rfl
  | cons code xs ih =>
    rw [List.cons_append, translate, ih, ← List.append_assoc]
    rfl

/-- The character depends on the shift flag and the code. -/
theorem enqueued_congr {kb kb' : Keyboard} (h : kb.shiftHeld = kb'.shiftHeld) (code : BitVec 8) :
    kb.enqueued code = kb'.enqueued code := by
  have hne : ∀ pos : BitVec 32, pos + 1 ≠ pos := fun pos => by bv_omega
  by_cases h1 : code = scLshiftPress ∨ code = scRshiftPress
  · simp only [enqueued, handleInterrupt, if_pos h1, if_true]
  by_cases h2 : code = scLshiftRelease ∨ code = scRshiftRelease
  · simp only [enqueued, handleInterrupt, if_neg h1, if_pos h2, if_true]
  by_cases h3 : code = scCtrlPress
  · simp only [enqueued, handleInterrupt, if_neg h1, if_neg h2, if_pos h3, if_true]
  by_cases h4 : code = scCtrlRelease
  · simp only [enqueued, handleInterrupt, if_neg h1, if_neg h2, if_neg h3, if_pos h4, if_true]
  by_cases h5 : code &&& kbReleased ≠ 0
  · simp only [enqueued, handleInterrupt, if_neg h1, if_neg h2, if_neg h3, if_neg h4, if_pos h5,
      if_true]
  simp only [enqueued, handleInterrupt, if_neg h1, if_neg h2, if_neg h3, if_neg h4, if_neg h5, h]
  by_cases h6 : (if kb'.shiftHeld then lookup scancodeToAsciiShift code
      else lookup scancodeToAscii code) ≠ 0
  · simp only [if_pos h6, if_neg (hne _), Function.update_self]
  · simp only [if_neg h6, if_true]

end Keyboard

/-! ### Before the registration -/

/-- Nothing has been read, and a request is for a code in the buffer. -/
structure Untouched (v : KeyView) : Prop where
  handled : v.input.handled = []
  returned : v.input.returned = []
  order : v.input.typed = v.input.buffered ++ v.input.waiting
  asked : (v.latched || v.called) = true → v.input.full = true

theorem Untouched.step {v v' : KeyView} (h : Untouched v) (hstep : KeyStep false v v') :
    Untouched v' := by
  cases hstep with
  | same => exact h
  | press code =>
    refine ⟨h.handled, h.returned, ?_, h.asked⟩
    dsimp only
    rw [h.order, List.append_assoc]
    rfl
  | send hwaiting hfull =>
    refine ⟨h.handled, h.returned, ?_, fun _ => rfl⟩
    have hbuffered : v.input.buffered = [] := by rw [Input.buffered, hfull]; rfl
    dsimp only
    rw [h.order, hbuffered, hwaiting]
    rfl
  | read hregistered => cases hregistered
  | serve hlatched hcalled =>
    exact ⟨h.handled, h.returned, h.order, fun _ => h.asked (by rw [hlatched, Bool.true_or])⟩
  | handle hregistered hcalled => cases hregistered
  | ignore _ hcalled =>
    exact ⟨h.handled, h.returned, h.order, fun _ => h.asked (by rw [hcalled, Bool.or_true])⟩

/-- A code whose request is gone. -/
structure Stuck (v : KeyView) : Prop where
  full : v.input.full = true
  latched : v.latched = false
  called : v.called = false
  handled : v.input.handled = []

theorem Stuck.step {v v' : KeyView} (h : Stuck v) (hstep : KeyStep true v v') : Stuck v' := by
  cases hstep with
  | same => exact h
  | press code => exact ⟨h.full, h.latched, h.called, h.handled⟩
  | send hwaiting hfull => exact Bool.noConfusion (hfull.symm.trans h.full)
  | read => exact ⟨h.full, h.latched, h.called, h.handled⟩
  | serve hlatched hcalled => exact Bool.noConfusion (hlatched.symm.trans h.latched)
  | handle _ hcalled => exact Bool.noConfusion (hcalled.symm.trans h.called)
  | ignore hregistered _ => cases hregistered

/-! ### After the registration -/

/-- Every code is where it belongs, and one in the buffer has its request latched or its handler
called. -/
structure Flows (v : KeyView) : Prop where
  order : v.input.typed = v.input.handled ++ (v.input.buffered ++ v.input.waiting)
  full : v.input.full = (v.latched || v.called)
  once : (v.latched && v.called) = false

theorem Flows.step {v v' : KeyView} (h : Flows v) (hstep : KeyStep true v v') : Flows v' := by
  cases hstep with
  | same => exact h
  | press code =>
    refine ⟨?_, h.full, h.once⟩
    dsimp only
    rw [h.order, List.append_assoc, List.append_assoc]
    rfl
  | send hwaiting hfull =>
    have hnone := h.full
    rw [hfull, eq_comm, Bool.or_eq_false_iff] at hnone
    have hbuffered : v.input.buffered = [] := by rw [Input.buffered, hfull]; rfl
    refine ⟨?_, rfl, ?_⟩
    · dsimp only
      rw [h.order, hbuffered, hwaiting]
      rfl
    · dsimp only
      rw [hnone.2]
      rfl
  | read => exact ⟨h.order, h.full, h.once⟩
  | serve hlatched hcalled =>
    have hfull := h.full
    rw [hlatched, hcalled, Bool.or_false] at hfull
    exact ⟨h.order, hfull, rfl⟩
  | handle _ hcalled =>
    have hfull : v.input.full = true := by rw [h.full, hcalled, Bool.or_true]
    have hbuffered : v.input.buffered = [v.input.data] := by rw [Input.buffered, hfull]; rfl
    refine ⟨?_, ?_, ?_⟩
    · rw [Input.keyboardIrqHandler]
      dsimp only
      rw [h.order, hbuffered, List.append_assoc]
      rfl
    · rw [hfull]
      rfl
    · rw [hfull]
      rfl
  | ignore hregistered _ => cases hregistered

/-- All that was read are the first characters of the codes that were handled. -/
structure Returns (kb : Keyboard) (v : KeyView) : Prop where
  shift : v.input.kb.shiftHeld = (v.input.handled.foldl Keyboard.handleInterrupt kb).shiftHeld
  holds : v.input.kb.Holds (kb.translate v.input.handled) v.input.returned.length
  returned : v.input.returned <+: kb.translate v.input.handled
  few : (kb.translate v.input.handled).length ≤ v.input.returned.length + 256

theorem Input.unread_eq {d : Input} {typed : List (BitVec 8)} {taken : Nat}
    (h : d.kb.Holds typed taken) (hfew : typed.length ≤ taken + 257) :
    d.unread = typed.length - taken := by
  have htaken := h.taken_le
  rw [Input.unread, h.readPos, h.writePos]
  bv_omega

namespace Returns

variable {kb : Keyboard} {v : KeyView} (h : Returns kb v)

include h

theorem read : Returns kb { v with input := v.input.readChar } := by
  by_cases hinput : v.input.kb.hasInput = true
  · have hlt := (h.holds.hasInput_eq h.few).mp hinput
    have hchar := h.holds.char_eq hlt h.few
    have hfew := h.few
    rw [Input.readChar, Keyboard.readChar_of_input hinput, if_pos hinput]
    refine ⟨h.shift, ?_, ?_, ?_⟩
    · dsimp only
      rw [List.length_append]
      exact h.holds.advance hlt
    · dsimp only
      rw [List.prefix_iff_eq_take, List.length_append, List.length_singleton, List.take_add_one,
        hchar, ← List.prefix_iff_eq_take.mp h.returned]
      rfl
    · dsimp only
      rw [List.length_append]
      omega
  · rw [Input.readChar, Keyboard.readChar_of_empty hinput, if_neg hinput, List.append_nil]
    exact h

theorem handle (hfew : v.input.keyboardIrqHandler.2.unread ≤ 256) :
    Returns kb ⟨if v.input.full then false else v.latched, false, v.input.keyboardIrqHandler.2⟩ := by
  have hchars : kb.translate (v.input.handled ++ [v.input.data]) =
      kb.translate v.input.handled ++ (v.input.kb.enqueued v.input.data).toList := by
    rw [Keyboard.translate_append, Keyboard.enqueued_congr h.shift]
    exact congrArg _ (List.append_nil _)
  have hholds := h.holds.interrupt v.input.data
  rw [← hchars] at hholds
  have hlast : (v.input.kb.enqueued v.input.data).toList.length ≤ 1 := by
    cases v.input.kb.enqueued v.input.data <;> simp
  have hlength := congrArg List.length hchars
  rw [List.length_append] at hlength
  have hbefore := h.few
  rw [Input.unread_eq hholds (by omega)] at hfew
  refine ⟨?_, hholds, ?_, Nat.sub_le_iff_le_add'.mp hfew⟩
  · rw [Input.keyboardIrqHandler]
    dsimp only
    rw [List.foldl_append, List.foldl_cons, List.foldl_nil, Keyboard.shiftHeld_handleInterrupt,
      Keyboard.shiftHeld_handleInterrupt, h.shift]
  · exact h.returned.trans (hchars ▸ List.prefix_append _ _)

theorem step {v' : KeyView} (hstep : KeyStep true v v') (hfew : v'.input.unread ≤ 256) :
    Returns kb v' := by
  cases hstep with
  | same => exact h
  | press code => exact ⟨h.shift, h.holds, h.returned, h.few⟩
  | send => exact ⟨h.shift, h.holds, h.returned, h.few⟩
  | read => exact h.read
  | serve => exact ⟨h.shift, h.holds, h.returned, h.few⟩
  | handle => exact h.handle hfew
  | ignore hregistered _ => cases hregistered

end Returns

/-! ### Whole runs -/

theorem handlers_keyStep {registered : Bool} {v v' : KeyView} (h : KeyStep registered v v') :
    v'.input.handlers = v.input.handlers := by
  cases h <;> rfl

/-- What the machine keeps, and what it keeps for the keyboard. -/
structure Holding (mask1 mask2 : BitVec 8) (registered : Bool) (P : KeyView → Prop)
    (s : IrqState Input) : Prop where
  implements : ∃ a, Implements mask1 mask2 s a
  handlers : HandledBy registered s.dev.handlers
  keyboard : P s.keyView

theorem Holding.step {mask1 mask2 : BitVec 8} {registered : Bool} {P : KeyView → Prop}
    {s s' : IrqState Input} {es : List IrqEvent} (h : Holding mask1 mask2 registered P s)
    (hP : ∀ v, P s.keyView → KeyStep registered s.keyView v → v = s'.keyView → P v)
    (hstep : IrqStep inputDevices s es s') : Holding mask1 mask2 registered P s' := by
  obtain ⟨a, ha⟩ := h.implements
  obtain ⟨b, -, hb⟩ := implements_step ha hstep
  have hkey := keyView_step ha h.handlers hstep
  refine ⟨⟨b, hb⟩, ?_, hP _ h.keyboard hkey rfl⟩
  have hsame : s'.dev.handlers = s.dev.handlers := handlers_keyStep hkey
  rw [hsame]
  exact h.handlers

/-- A step after which the driver holds at most 256 characters. -/
def FewStep (s : IrqState Input) (es : List IrqEvent) (s' : IrqState Input) : Prop :=
  IrqStep inputDevices s es s' ∧ s'.dev.unread ≤ 256

/-- The kernel registers the handler. -/
def IrqState.initKeyboard (s : IrqState Input) : IrqState Input :=
  { s with dev := s.dev.initKeyboard }

/-- Every code that was typed is handled, in the buffer of the controller or waiting, in the order
of typing; and a code in the buffer interrupts the kernel. -/
structure InStep (mask1 mask2 : BitVec 8) (t : IrqState Input) : Prop where
  order : t.dev.typed = t.dev.handled ++ (t.dev.buffered ++ t.dev.waiting)
  attentive : t.phase = .running → t.dev.full = true → masked mask1 mask2 keyboardLine = false →
    t.pics.master.int = true

theorem Flows.inStep {mask1 mask2 : BitVec 8} {t : IrqState Input} {a : Latches}
    (h : Flows t.keyView) (ha : Implements mask1 mask2 t a) : InStep mask1 mask2 t := by
  refine ⟨h.order, fun hphase hfull hmask => ?_⟩
  have hlatched : t.dev.full = (t.pics.requested keyboardLine || t.phase.isKeyboard) := h.full
  rw [hphase, hfull] at hlatched
  refine (ha.attentive hphase).requests keyboardLine ?_ hmask
  exact (Bool.or_false _).symm.trans hlatched.symm

/-- The code in the controller's buffer, if there is one, has its request still. -/
def IrqState.Fresh (s : IrqState Input) : Prop :=
  s.dev.full = true → s.pics.requested keyboardLine = true

theorem handledBy_init {gIdt isr128 : BitVec 32} {isr irqp : Nat → BitVec 32} (idt : Idt) :
    HandledBy false (idt.init gIdt isr irqp isr128).handlers := by
  intro i hi
  rw [Idt.globals_init.2 i hi]
  split_ifs <;> simp

theorem handledBy_initKeyboard {d : Input} (h : HandledBy false d.handlers) :
    HandledBy true d.initKeyboard.handlers := by
  intro i hi
  rw [Input.initKeyboard]
  dsimp only
  rw [Function.update_apply]
  by_cases h33 : i = 33
  · simp [h33]
  · rw [if_neg h33, h i hi]
    simp [h33]

section

variable {mask1 mask2 : BitVec 8} {s t : IrqState Input} {es : List IrqEvent}
  (h : Holding mask1 mask2 false Untouched s)

include h

theorem holding_initKeyboard {P : KeyView → Prop} (hP : P s.initKeyboard.keyView) :
    Holding mask1 mask2 true P s.initKeyboard := by
  obtain ⟨a, ha⟩ := h.implements
  exact ⟨⟨a, ha.ready, ha.phased, ha.requested, ha.phase⟩, handledBy_initKeyboard h.handlers, hP⟩

variable (hphase : s.phase = .running)

include hphase

theorem flows_of_fresh (hfresh : s.Fresh) : Flows s.initKeyboard.keyView := by
  have huntouched := h.keyboard
  have hcalled : s.phase.isKeyboard = false := by rw [hphase]; rfl
  refine ⟨?_, ?_, ?_⟩ <;>
    dsimp only [IrqState.keyView, IrqState.initKeyboard, Input.initKeyboard, Input.buffered]
  · have hhandled : s.dev.handled = [] := huntouched.handled
    rw [hhandled]
    exact huntouched.order
  · rw [hcalled, Bool.or_false, Bool.eq_iff_iff]
    exact ⟨hfresh, fun hlatched => huntouched.asked (Bool.or_eq_true_iff.mpr (Or.inl hlatched))⟩
  · rw [hcalled, Bool.and_false]

/-- From a fresh registration on, whatever is typed and read. -/
theorem inStep_of_fresh (hfresh : s.Fresh) (hrun : Run (IrqStep inputDevices) s.initKeyboard es t) :
    InStep mask1 mask2 t := by
  obtain ⟨⟨a, ha⟩, -, hflows⟩ := Run.invariant (P := Holding mask1 mask2 true Flows)
    (fun hs hstep => hs.step (fun v hflows hkey _ => hflows.step hkey) hstep) hrun
    (holding_initKeyboard h (flows_of_fresh h hphase hfresh))
  exact hflows.inStep ha

/-- And as long as few characters wait. -/
theorem returned_of_fresh (hfresh : s.Fresh) (hrun : Run FewStep s.initKeyboard es t) :
    t.dev.returned <+: s.dev.kb.init.translate t.dev.typed := by
  have hhandled : s.dev.handled = [] := h.keyboard.handled
  have hreturned : s.dev.returned = [] := h.keyboard.returned
  have hstart : Returns s.dev.kb.init s.initKeyboard.keyView := by
    refine ⟨?_, ?_, ?_, ?_⟩ <;>
      dsimp only [IrqState.keyView, IrqState.initKeyboard, Input.initKeyboard]
    · rw [hhandled]
      rfl
    · rw [hhandled, hreturned]
      exact Keyboard.Holds.init s.dev.kb
    · rw [hreturned]
      exact List.nil_prefix
    · rw [hhandled]
      exact Nat.zero_le _
  obtain ⟨-, -, hflows, hreads⟩ := Run.invariant
    (P := Holding mask1 mask2 true fun v => Flows v ∧ Returns s.dev.kb.init v)
    (fun hs hstep => hs.step (fun v hv hkey heq => ⟨hv.1.step hkey,
      hv.2.step hkey (heq ▸ hstep.2)⟩) hstep.1) hrun
    (holding_initKeyboard h ⟨flows_of_fresh h hphase hfresh, hstart⟩)
  have horder : t.dev.typed = t.dev.handled ++ (t.dev.buffered ++ t.dev.waiting) := hflows.order
  rw [horder, Keyboard.translate_append]
  exact hreads.returned.trans (List.prefix_append _ _)

/-- From a registration on that came too late. -/
theorem stuck_of_not_fresh (hfresh : ¬ s.Fresh)
    (hrun : Run (IrqStep inputDevices) s.initKeyboard es t) :
    t.dev.full = true ∧ t.dev.handled = [] := by
  have hcalled : s.phase.isKeyboard = false := by rw [hphase]; rfl
  obtain ⟨hfull, hlatched⟩ := Classical.not_imp.mp hfresh
  have hstart : Stuck s.initKeyboard.keyView :=
    ⟨hfull, Bool.eq_false_iff.mpr hlatched, hcalled, h.keyboard.handled⟩
  have hstuck := (Run.invariant (P := Holding mask1 mask2 true Stuck)
    (fun hs hstep => hs.step (fun v hstuck hkey _ => hstuck.step hkey) hstep) hrun
    (holding_initKeyboard h hstart)).keyboard
  exact ⟨hstuck.full, hstuck.handled⟩

end

/-- From `pic_remap` to `read_char`, in every interleaving of the keyboard, the other devices, the
interrupts and the kernel.  `init_keyboard` registers the handler some time after interrupts are
enabled.  If the code that is in the controller's buffer then, if any, has its request still, no
code is lost, doubled or held up, and while at most 256 characters wait, what is read is what was
typed.  Otherwise the default handler has answered for the code, and no code is ever handled. -/
theorem keyboard_end_to_end (before : Pics) (idt : Idt) (gIdt isr128 : BitVec 32)
    (isr irqp : Nat → BitVec 32) :
    Guarantees (fun w p => p.outb w.1 w.2) MasterEdge (fun _ => True)
      (fun p => ∀ d : Input, d.handlers = (idt.init gIdt isr irqp isr128).handlers →
        Untouched ⟨p.requested keyboardLine, false, d⟩ →
        ∀ es s, Run (IrqStep inputDevices) ⟨p, .running, d⟩ es s → s.phase = .running →
        (s.Fresh → (∀ fs t, Run (IrqStep inputDevices) s.initKeyboard fs t →
            InStep (before.inb pic1Data) (before.inb pic2Data) t) ∧
          ∀ fs t, Run FewStep s.initKeyboard fs t →
            t.dev.returned <+: s.dev.kb.init.translate t.dev.typed) ∧
        (¬ s.Fresh → ∀ fs t, Run (IrqStep inputDevices) s.initKeyboard fs t →
          t.dev.full = true ∧ t.dev.handled = []))
      (picRemap 32 40 (before.inb pic1Data) (before.inb pic2Data)) before := by
  refine (picRemap_ready before _ _).mono fun p hp d hhandlers huntouched es s hrun hphase => ?_
  have hstart : Holding (before.inb pic1Data) (before.inb pic2Data) false Untouched
      (⟨p, .running, d⟩ : IrqState Input) :=
    ⟨⟨⟨p.requested, .idle⟩, hp.1, .running hp.2, rfl, rfl⟩, hhandlers ▸ handledBy_init idt,
      huntouched⟩
  have hs := Run.invariant (P := Holding (before.inb pic1Data) (before.inb pic2Data) false Untouched)
    (fun hs hstep => hs.step (fun v huntouched hkey _ => huntouched.step hkey) hstep) hrun hstart
  exact ⟨fun hfresh => ⟨fun fs t => inStep_of_fresh hs hphase hfresh,
      fun fs t => returned_of_fresh hs hphase hfresh⟩,
    fun hfresh fs t => stuck_of_not_fresh hs hphase hfresh⟩

/-- Two controllers before `pic_remap`, with nothing masked. -/
def resetPics : Pics := ⟨⟨0, 0, 0, 0, 0, 0, 0, .ocw1⟩, ⟨0, 0, 0, 0, 0, 0, 0, .ocw1⟩⟩

/-- The tables before `idt::init`. -/
def zeroIdt : Idt := ⟨fun _ => ⟨0, 0, 0, 0, 0⟩, ⟨0, 0⟩, fun _ => .default⟩

def initHandlers : Nat → Handler := (zeroIdt.init 0 (fun _ => 0) (fun _ => 0) 0).handlers

/-- The kernel before the registration, with interrupts enabled and nothing typed. -/
def waitingKernel : IrqState Input :=
  ⟨⟨⟨0, 0, 0, 0x11, 32, 0x04, 0x01, .ocw1⟩, ⟨0, 0, 0, 0x11, 40, 0x02, 0x01, .ocw1⟩⟩, .running,
    ⟨[], [], 0, false, initHandlers, ⟨fun _ => 0, 0, 0, false, false⟩, [], []⟩⟩

/-- A key that is pressed before the registration, and is answered for by the default handler. -/
theorem waitingKernel_late :
    ∃ es s, Run (IrqStep inputDevices) waitingKernel es s ∧ s.phase = .running ∧ ¬ s.Fresh := by
  have hpress := Run.single (IrqStep.device (D := inputDevices) (s := waitingKernel) (.press _ 0x1E))
  have hsend := hpress.tail (.device (.send rfl rfl))
  have haccept := hsend.tail (.accept rfl (by decide))
  have hserve := haccept.tail (.master rfl (by decide))
  have hhandle := hserve.tail (.handle rfl)
  have hwrite := hhandle.tail (@IrqStep.write _ _ _ (pic1Command, picEoi) [] (by decide))
  exact ⟨_, _, hwrite.tail (.iret rfl), rfl, by unfold IrqState.Fresh; decide⟩

/-- A key that is pressed after it, and read. -/
theorem waitingKernel_read :
    ∃ fs t, Run FewStep waitingKernel.initKeyboard fs t ∧ t.dev.typed = [0x1E] ∧
      t.dev.returned = [0x61] := by
  have hnone : (0 : BitVec 32).toNat ≤ 256 := Nat.zero_le 256
  have hone : (1 : BitVec 32).toNat ≤ 256 := Nat.le_add_left 1 255
  have hpress : Run FewStep waitingKernel.initKeyboard _ _ :=
    Run.single ⟨.device (.press _ 0x1E), hnone⟩
  have hsend := hpress.tail ⟨.device (.send rfl rfl), hnone⟩
  have haccept := hsend.tail ⟨.accept rfl (by decide), hnone⟩
  have hserve := haccept.tail ⟨.master rfl (by decide), hnone⟩
  have hhandle := hserve.tail ⟨.handle rfl, hone⟩
  have hwrite := hhandle.tail ⟨@IrqStep.write _ _ _ (pic1Command, picEoi) [] (by decide), hone⟩
  have hiret := hwrite.tail ⟨.iret rfl, hone⟩
  have hread := hiret.tail ⟨.program rfl (.read rfl), hnone⟩
  exact ⟨_, _, hread, rfl, by decide⟩

/-- A kernel that registers the handler before the key is pressed reads it, and one that registers
it afterwards never handles a code. -/
theorem keyboard_end_to_end_waitingKernel :
    (∃ fs t, Run FewStep waitingKernel.initKeyboard fs t ∧ t.dev.returned = [0x61] ∧
      t.dev.returned <+: waitingKernel.dev.kb.init.translate t.dev.typed) ∧
    ∃ es s, Run (IrqStep inputDevices) waitingKernel es s ∧
      ∀ fs t, Run (IrqStep inputDevices) s.initKeyboard fs t →
        t.dev.full = true ∧ t.dev.handled = [] := by
  have hremapped : (picRemap 32 40 (resetPics.inb pic1Data) (resetPics.inb pic2Data)).foldl
      (fun p w => p.outb w.1 w.2) resetPics = waitingKernel.pics := rfl
  have huntouched : Untouched ⟨waitingKernel.pics.requested keyboardLine, false, waitingKernel.dev⟩ :=
    ⟨rfl, rfl, rfl, by decide⟩
  have hhandlers : waitingKernel.dev.handlers = initHandlers := by rw [waitingKernel]
  rw [initHandlers] at hhandlers
  have hend := (keyboard_end_to_end resetPics zeroIdt 0 0 (fun _ => 0) fun _ => 0).post_foldl
  rw [hremapped] at hend
  have hruns := hend waitingKernel.dev hhandlers huntouched
  obtain ⟨fs, t, hread, -, hreturned⟩ := waitingKernel_read
  obtain ⟨es, s, hpressed, hphase, hlate⟩ := waitingKernel_late
  have hfresh : waitingKernel.Fresh := fun hfull => absurd hfull (by decide)
  have hstart := (hruns [] waitingKernel (.refl _) rfl).1 hfresh
  have hstuck := (hruns es s hpressed hphase).2 hlate
  exact ⟨⟨fs, t, hread, hreturned, hstart.2 fs t hread⟩, es, s, hpressed, hstuck⟩

end Sapphire
