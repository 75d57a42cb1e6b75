import Sapphire.Lib.Trace
import Sapphire.Syscall.Unknown

/-! What a program has of the kernel: interrupts that it does not notice, and a terminal, from which
`read` takes the next characters that were typed, and on which `write` prints.  Interrupts and calls
go through the stubs and `isr_handler`; what is not the keyboard or the console is a state of any
type. -/

namespace Sapphire

open Machine

/-! ### The terminal -/

/-- What was typed and is not read, and all that was written. -/
structure Tty where
  unread : List (BitVec 8)
  written : List (BitVec 8)

inductive TtyRequest
  | read (count : Nat)
  | write (text : List (BitVec 8))
  | unknown

/-- The result of a call, and the characters that it leaves in the buffer. -/
structure TtyReply where
  result : BitVec 32
  data : List (BitVec 8)

inductive TtyEvent
  | typed (chars : List (BitVec 8))
  | call (request : TtyRequest) (reply : TtyReply)

namespace TtyEvent

def typedChars : TtyEvent → List (BitVec 8)
  | .typed chars => chars
  | .call _ _ => []

def readChars : TtyEvent → List (BitVec 8)
  | .typed _ => []
  | .call _ reply => reply.data

def writtenChars : TtyEvent → List (BitVec 8)
  | .call (.write text) _ => text
  | _ => []

end TtyEvent

namespace Tty

/-- No request waits. -/
def serve (t : Tty) : TtyRequest → TtyReply × Tty
  | .read count => (⟨BitVec.ofNat 32 (t.unread.take count).length, t.unread.take count⟩,
      { t with unread := t.unread.drop count })
  | .write text => (⟨BitVec.ofNat 32 text.length, []⟩, { t with written := t.written ++ text })
  | .unknown => (⟨-1, []⟩, t)

end Tty

inductive TtyStep : Tty → List TtyEvent → Tty → Prop
  | type (t : Tty) (chars : List (BitVec 8)) :
      TtyStep t [.typed chars] { t with unread := t.unread ++ chars }
  | call (t : Tty) (request : TtyRequest) :
      TtyStep t [.call request (t.serve request).1] (t.serve request).2

theorem TtyStep.streams {t u : Tty} {es : List TtyEvent} (h : TtyStep t es u) :
    es.flatMap TtyEvent.readChars ++ u.unread = t.unread ++ es.flatMap TtyEvent.typedChars ∧
      u.written = t.written ++ es.flatMap TtyEvent.writtenChars := by
  cases h with
  | type chars => simp [TtyEvent.readChars, TtyEvent.typedChars, TtyEvent.writtenChars]
  | call request =>
    cases request <;>
      simp [Tty.serve, TtyEvent.readChars, TtyEvent.typedChars, TtyEvent.writtenChars]

/-- Everything that was typed was read or is unread, in order. -/
theorem Tty.streams {t u : Tty} {es : List TtyEvent} (h : Run TtyStep t es u) :
    es.flatMap TtyEvent.readChars ++ u.unread = t.unread ++ es.flatMap TtyEvent.typedChars ∧
      u.written = t.written ++ es.flatMap TtyEvent.writtenChars := by
  induction h with
  | refl => exact ⟨(List.append_nil _).symm, (List.append_nil _).symm⟩
  | tail _ hlast ih =>
    obtain ⟨hread, hwritten⟩ := hlast.streams
    rw [List.flatMap_append, List.flatMap_append, List.flatMap_append, List.append_assoc, hread,
      ← List.append_assoc, ih.1, List.append_assoc, hwritten, ih.2, List.append_assoc]
    exact ⟨rfl, rfl⟩

/-! ### The kernel -/

section

variable {σ κ : Type*} (inb : κ → BitVec 8 × κ) (picSendEoi : BitVec 32 → κ → κ)

/-- `keyboard_irq_handler`, which reads the data port. -/
def keyboardIrq : Isr (Devices × κ) := fun _ st =>
  let scancode := inb st.2.2
  (st.1, { st.2.1 with kb := st.2.1.kb.handleInterrupt scancode.1 }, scancode.2)

/-- `default_irq_handler` -/
def defaultIrq : Isr σ := fun _ st => st

/-- The call leaves the other devices alone. -/
def SyscallImp.beside (imp : SyscallImp σ) : SyscallImp (σ × κ) := fun arg1 st =>
  let r := imp arg1 (st.1, st.2.1)
  ((r.1.1, r.1.2, st.2.2), r.2)

def kernelTable (number : BitVec 32) : SyscallImp (Devices × κ) :=
  (syscallTable sysReadImp sysWriteImp number).beside

/-- The handlers of interrupts that return, after `syscalls::init` and `init_keyboard`. -/
def kernelHandlers (intno : BitVec 32) : Option (Isr (Devices × κ)) :=
  if intno = 33 then some (keyboardIrq inb)
  else if intno = 128 then some (syscallHandler kernelTable)
  else if 32 ≤ intno ∧ intno < 48 then some defaultIrq
  else none

def kernelIsr : Isr (Devices × κ) :=
  isrHandler (kernelHandlers inb) fun irq d => (d.1, picSendEoi irq d.2)

/-- What a call of `syscall` asks for, with the number and the argument on the stack. -/
def asked (c : Cpu σ) : TtyRequest :=
  let number := c.word 0 &&& 0xFF
  let args := c.word 1
  if number = 0 then .read (ReadArguments.count c.mem args).toNat
  else if number = 1 then
    .write (bytesAt c.mem (WriteArguments.buf c.mem args) (WriteArguments.count c.mem args).toNat)
  else .unknown

/-- What the state after a call has for the caller. -/
def answer (c c' : Cpu σ) : TtyReply :=
  ⟨c'.eax, if c.word 0 &&& 0xFF = 0 then
    bytesAt c'.mem (ReadArguments.buf c.mem (c.word 1)) c'.eax.toNat else []⟩

/-- The stack of calls and interrupts, of which `depth` bytes are below their frame. -/
def kernelStack (depth : Nat) (c : Cpu σ) : Set (BitVec 32) :=
  span (c.esp - 68 - BitVec.ofNat 32 depth) (depth + 68)

/-- What a caller of `read` or `write` has to see to: the arguments and the buffer are not below its
stack, and `read` does not read over its arguments. -/
structure Callable (depth : Nat) (c : Cpu σ) : Prop where
  args : Disjoint (span (c.word 1) 12) (kernelStack depth c)
  buf : Disjoint (span (ReadArguments.buf c.mem (c.word 1))
    (ReadArguments.count c.mem (c.word 1)).toNat) (kernelStack depth c)
  read : c.word 0 &&& 0xFF = 0 → Disjoint (span (c.word 1) 12)
    (span (ReadArguments.buf c.mem (c.word 1)) (ReadArguments.count c.mem (c.word 1)).toNat)

variable {inb picSendEoi}

/-- What the program and the devices do, and what they have the kernel do. -/
inductive ServiceStep (code : Compiled (kernelIsr inb picSendEoi)) :
    Cpu (Devices × κ) → List TtyEvent → Cpu (Devices × κ) → Prop
  | program {c c' : Cpu (Devices × κ)} (h : c'.dev.1 = c.dev.1) : ServiceStep code c [] c'
  | irq {c c' : Cpu (Devices × κ)} {vector : Nat} {next : BitVec 32} (hlow : 32 ≤ vector)
      (hhigh : vector < 48) (h : interrupt code.run next vector 0 c = some c') :
      ServiceStep code c (if vector = 33 then
        [.typed (c.dev.1.kb.enqueued (inb c.dev.2).1).toList] else []) c'
  | call {c : Cpu (Devices × κ)} (back afterCall afterInt : BitVec 32)
      (h : asked c = .unknown ∨ Callable code.depth c) :
      ServiceStep code c [.call (asked c) (answer c
        (sendSyscall code.run back afterCall afterInt c))]
        (sendSyscall code.run back afterCall afterInt c)

/-- Runs that leave at most 256 characters unread in every state. -/
def ServiceRun (code : Compiled (kernelIsr inb picSendEoi)) :
    Cpu (Devices × κ) → List TtyEvent → Cpu (Devices × κ) → Prop :=
  Run fun c es c' => ServiceStep code c es c' ∧
    (c'.dev.1.kb.writePos - c'.dev.1.kb.readPos).toNat ≤ 256

/-- The devices are those of the terminal, where the console was `con` at the start. -/
structure ActsAs (con : Console) (d : Devices) (t : Tty) : Prop where
  keys : ∃ typed taken, Keyboard.Holds d.kb typed taken ∧ typed.drop taken = t.unread
  few : t.unread.length ≤ 256
  console : d.con = t.written.foldl kputc con

/-- A program goes on as it was, but for the memory below its stack. -/
structure Unnoticed (depth : Nat) (c c' : Cpu σ) : Prop where
  same : c' = { c with mem := c'.mem, dev := c'.dev }
  mem : ChangesOnly (kernelStack depth c) c.mem c'.mem

/-- What a caller keeps: its registers and its memory, but for what it has read. -/
structure ReturnsTo (depth : Nat) (back : BitVec 32) (c c' : Cpu σ) : Prop where
  ebx : c'.ebx = c.ebx
  esi : c'.esi = c.esi
  edi : c'.edi = c.edi
  ebp : c'.ebp = c.ebp
  esp : c'.esp = c.esp
  eip : c'.eip = back
  mem : ChangesOnly (kernelStack depth c ∪
    span (ReadArguments.buf c.mem (c.word 1)) (answer c c').data.length) c.mem c'.mem

/-! ### Calls -/

variable {code : Compiled (kernelIsr inb picSendEoi)} {con : Console} {t : Tty}
  {c : Cpu (Devices × κ)} {m : Mem}

/-- What the entry of the table for a call does, on the memory `m` with what the call has pushed. -/
structure Answers (con : Console) (t : Tty) (c : Cpu (Devices × κ)) (m : Mem)
    (r : (Mem × Devices × κ) × BitVec 32) : Prop where
  result : r.2 = (t.serve (asked c)).1.result
  length : (t.serve (asked c)).1.data.length = if c.word 0 &&& 0xFF = 0 then r.2.toNat else 0
  data : bytesAt r.1.1 (ReadArguments.buf c.mem (c.word 1)) (t.serve (asked c)).1.data.length =
    (t.serve (asked c)).1.data
  mem : ChangesOnly (span (ReadArguments.buf c.mem (c.word 1)) (t.serve (asked c)).1.data.length) m
    r.1.1
  dev : ActsAs con r.1.2.1 (t.serve (asked c)).2

theorem pushed_subset (depth : Nat) (hdepth : depth ≤ 2 ^ 31) (c : Cpu σ) :
    span (c.esp - 68) 68 ⊆ kernelStack depth c :=
  span_subset (by bv_omega)

/-- The arguments are not on the stack. -/
theorem Callable.arguments {depth : Nat} (hdepth : depth ≤ 2 ^ 31) (h : Callable depth c)
    (hm : ChangesOnly (span (c.esp - 68) 68) c.mem m) :
    ReadArguments.count m (c.word 1) = ReadArguments.count c.mem (c.word 1) ∧
      ReadArguments.buf m (c.word 1) = ReadArguments.buf c.mem (c.word 1) :=
  readArguments_of_changesOnly (h.args.mono_right (pushed_subset depth hdepth c)) hm

theorem answers_read {depth : Nat} (hdepth : depth ≤ 2 ^ 31) (h : ActsAs con c.dev.1 t)
    (hc : Callable depth c) (hm : ChangesOnly (span (c.esp - 68) 68) c.mem m)
    (hread : c.word 0 &&& 0xFF = 0) :
    Answers con t c m (kernelTable (c.word 0 &&& 0xFF) (c.word 1) (m, c.dev)) := by
  obtain ⟨hcount, hbuf⟩ := hc.arguments hdepth hm
  obtain ⟨typed, taken, hholds, hunread⟩ := h.keys
  have htaken := hholds.taken_le
  have hlength : t.unread.length = typed.length - taken := by rw [← hunread, List.length_drop]
  have hfew : typed.length ≤ taken + 256 := by
    have := h.few
    omega
  have hsep := hc.read hread
  rw [← hcount, ← hbuf] at hsep
  obtain ⟨hresult, hholds', hdelivers⟩ := sysRead_spec hsep hholds hfew
  rw [hcount, ← hlength] at hresult hholds' hdelivers
  rw [hbuf] at hdelivers
  have htable : kernelTable (c.word 0 &&& 0xFF) (c.word 1) (m, c.dev) =
      (((sysRead c.dev.1.kb m (c.word 1)).2.1,
        { c.dev.1 with kb := (sysRead c.dev.1.kb m (c.word 1)).1 }, c.dev.2),
        (sysRead c.dev.1.kb m (c.word 1)).2.2) := by
    rw [kernelTable, syscallTable, if_pos hread]
    rfl
  have hasked : asked c = .read (ReadArguments.count c.mem (c.word 1)).toNat := if_pos hread
  set count := (ReadArguments.count c.mem (c.word 1)).toNat
  have htake : (t.unread.take count).length = min count t.unread.length := List.length_take
  rw [htable]
  refine ⟨?_, ?_, ?_, ?_, ?_⟩ <;> rw [hasked, Tty.serve] <;> dsimp only
  · rw [htake, ← hresult, BitVec.ofNat_toNat, BitVec.setWidth_eq]
  · rw [if_pos hread, hresult, htake]
  · rw [htake, hdelivers.bytes, hunread, ← List.take_eq_take_min]
  · rw [htake]
    exact hdelivers.changes
  · refine ⟨⟨typed, _, hholds', ?_⟩, ?_, h.console⟩
    · rw [← List.drop_drop, hunread, ← List.drop_eq_drop_min]
    · have := h.few
      rw [List.length_drop]
      omega

theorem answers_write {depth : Nat} (hdepth : depth ≤ 2 ^ 31) (h : ActsAs con c.dev.1 t)
    (hc : Callable depth c) (hm : ChangesOnly (span (c.esp - 68) 68) c.mem m)
    (hread : c.word 0 &&& 0xFF ≠ 0) (hwrite : c.word 0 &&& 0xFF = 1) :
    Answers con t c m (kernelTable (c.word 0 &&& 0xFF) (c.word 1) (m, c.dev)) := by
  obtain ⟨hcount, hbuf⟩ := hc.arguments hdepth hm
  -- what is printed is not on the stack either
  have htext : bytesAt m (ReadArguments.buf c.mem (c.word 1))
      (ReadArguments.count c.mem (c.word 1)).toNat = bytesAt c.mem
        (ReadArguments.buf c.mem (c.word 1)) (ReadArguments.count c.mem (c.word 1)).toNat :=
    Mem.bytesAt_of_changesOnly hm (Nat.le_of_lt (BitVec.isLt _))
      (hc.buf.mono_right (pushed_subset depth hdepth c))
  have hprinted : sysWrite c.dev.1.con m (c.word 1) = ((bytesAt c.mem
      (ReadArguments.buf c.mem (c.word 1)) (ReadArguments.count c.mem (c.word 1)).toNat).foldl
        kputc c.dev.1.con, ReadArguments.count c.mem (c.word 1)) := by
    rw [sysWrite_eq, ← htext, ← hcount, ← hbuf]
    rfl
  have htable : kernelTable (c.word 0 &&& 0xFF) (c.word 1) (m, c.dev) =
      ((m, { c.dev.1 with con := (sysWrite c.dev.1.con m (c.word 1)).1 }, c.dev.2),
        (sysWrite c.dev.1.con m (c.word 1)).2) := by
    rw [kernelTable, syscallTable, if_neg hread, if_pos hwrite]
    rfl
  have hasked : asked c = .write (bytesAt c.mem (ReadArguments.buf c.mem (c.word 1))
      (ReadArguments.count c.mem (c.word 1)).toNat) := by
    rw [asked, if_neg hread, if_pos hwrite]
    rfl
  rw [htable, hprinted]
  refine ⟨?_, ?_, ?_, ?_, ?_⟩ <;> rw [hasked, Tty.serve] <;> dsimp only
  · rw [length_bytesAt, BitVec.ofNat_toNat, BitVec.setWidth_eq]
  · rw [if_neg hread, List.length_nil]
  · rfl
  · exact ChangesOnly.refl _ _
  · refine ⟨h.keys, h.few, ?_⟩
    rw [h.console, List.foldl_append]

theorem answers_unknown (h : ActsAs con c.dev.1 t) (hread : c.word 0 &&& 0xFF ≠ 0)
    (hwrite : c.word 0 &&& 0xFF ≠ 1) (m : Mem) :
    Answers con t c m (kernelTable (c.word 0 &&& 0xFF) (c.word 1) (m, c.dev)) := by
  have htable : kernelTable (c.word 0 &&& 0xFF) (c.word 1) (m, c.dev) = ((m, c.dev), -1) := by
    rw [kernelTable, syscallTable, if_neg hread, if_neg hwrite]
    rfl
  have hasked : asked c = .unknown := by rw [asked, if_neg hread, if_neg hwrite]
  rw [htable]
  refine ⟨?_, ?_, ?_, ?_, ?_⟩ <;> rw [hasked, Tty.serve]
  · exact (if_neg hread).symm
  · rfl
  · exact ChangesOnly.refl _ _
  · exact h

theorem asked_unknown_iff : asked c = .unknown ↔ UnknownByte (c.word 0) := by
  rw [asked]
  by_cases hread : c.word 0 &&& 0xFF = 0
  · rw [if_pos hread]
    exact ⟨nofun, fun h => absurd hread h.1⟩
  rw [if_neg hread]
  by_cases hwrite : c.word 0 &&& 0xFF = 1
  · rw [if_pos hwrite]
    exact ⟨nofun, fun h => absurd hwrite h.2⟩
  · rw [if_neg hwrite]
    exact ⟨fun _ => ⟨hread, hwrite⟩, fun _ => rfl⟩

theorem answers {depth : Nat} (hdepth : depth ≤ 2 ^ 31) (h : ActsAs con c.dev.1 t)
    (hc : asked c = .unknown ∨ Callable depth c)
    (hm : ChangesOnly (span (c.esp - 68) 68) c.mem m) :
    Answers con t c m (kernelTable (c.word 0 &&& 0xFF) (c.word 1) (m, c.dev)) := by
  rw [asked_unknown_iff] at hc
  by_cases hread : c.word 0 &&& 0xFF = 0
  · exact answers_read hdepth h (hc.resolve_left fun hu => hu.1 hread) hm hread
  by_cases hwrite : c.word 0 &&& 0xFF = 1
  · exact answers_write hdepth h (hc.resolve_left fun hu => hu.2 hwrite) hm hread hwrite
  · exact answers_unknown h hread hwrite m

/-- What is read is not left on the stack. -/
theorem data_apart {depth : Nat} {r : (Mem × Devices × κ) × BitVec 32} (h : Answers con t c m r)
    (hc : asked c = .unknown ∨ Callable depth c) :
    Disjoint (span (ReadArguments.buf c.mem (c.word 1)) (t.serve (asked c)).1.data.length)
      (kernelStack depth c) := by
  by_cases hread : c.word 0 &&& 0xFF = 0
  · have hcallable := hc.resolve_left fun hu => (asked_unknown_iff.mp hu).1 hread
    have hasked : asked c = .read (ReadArguments.count c.mem (c.word 1)).toNat := if_pos hread
    refine hcallable.buf.mono_left (span_mono ?_)
    rw [hasked]
    exact List.length_take_le _ _
  · rw [h.length, if_neg hread]
    exact Set.disjoint_left.mpr fun x hx => absurd (mem_span.mp hx) (Nat.not_lt_zero _)

theorem ActsAs.call (h : ActsAs con c.dev.1 t) (hc : asked c = .unknown ∨ Callable code.depth c)
    (back afterCall afterInt : BitVec 32) :
    let c' := sendSyscall code.run back afterCall afterInt c
    answer c c' = (t.serve (asked c)).1 ∧ ActsAs con c'.dev.1 (t.serve (asked c)).2 ∧
      ReturnsTo code.depth back c c' := by
  intro c'
  have hdepth := code.depth_le
  have hkeeps : ∀ m, ChangesOnly (span (c.esp - 68) 68) c.mem m →
      ChangesOnly (span (c.esp - 60) 60)ᶜ m
        (kernelTable (c.word 0 &&& 0xFF) (c.word 1) (m, c.dev)).1.1 := by
    intro m hm
    have hanswers := answers hdepth h hc hm
    refine hanswers.mem.mono (Set.subset_compl_iff_disjoint_right.mpr ?_)
    refine (data_apart hanswers hc).mono_right (span_subset ?_)
    bv_omega
  obtain ⟨m, hm, heax, hebx, hesi, hedi, hebp, hesp, heip, hdev, hmem⟩ :=
    sendSyscall_spec kernelTable (kernelHandlers inb) (fun irq d => (d.1, picSendEoi irq d.2)) rfl
      code back afterCall afterInt c hkeeps
  have hanswers := answers hdepth h hc hm
  have hapart := data_apart hanswers hc
  set r := kernelTable (c.word 0 &&& 0xFF) (c.word 1) (m, c.dev)
  have hafter : ChangesOnly (kernelStack code.depth c) r.1.1 c'.mem :=
    hmem.mono (span_subset (by bv_omega))
  have hlt : (t.serve (asked c)).1.data.length ≤ 2 ^ 32 := by
    rw [hanswers.length]
    have := r.2.isLt
    split_ifs <;> omega
  have hdata : bytesAt c'.mem (ReadArguments.buf c.mem (c.word 1))
      (t.serve (asked c)).1.data.length = (t.serve (asked c)).1.data :=
    (Mem.bytesAt_of_changesOnly hafter hlt hapart).trans hanswers.data
  have hanswer : answer c c' = (t.serve (asked c)).1 := by
    rw [answer, heax]
    have hlength := hanswers.length
    by_cases hread : c.word 0 &&& 0xFF = 0
    · rw [if_pos hread] at hlength ⊢
      rw [← hlength, hdata, hanswers.result]
    · rw [if_neg hread] at hlength ⊢
      rw [hanswers.result, ← List.eq_nil_of_length_eq_zero hlength]
  refine ⟨hanswer, ?_, hebx, hesi, hedi, hebp, hesp, heip, ?_⟩
  · rw [hdev]
    exact hanswers.dev
  · rw [hanswer]
    refine ((hm.mono (pushed_subset _ hdepth c)).mono Set.subset_union_left).trans ?_
    exact (hanswers.mem.mono Set.subset_union_right).trans (hafter.mono Set.subset_union_left)

/-! ### Interrupts -/

/-- What the keyboard and the console are after an interrupt of the controllers. -/
def afterIrq (inb : κ → BitVec 8 × κ) (vector : Nat) (d : Devices × κ) : Devices :=
  if vector = 33 then { d.1 with kb := d.1.kb.handleInterrupt (inb d.2).1 } else d.1

theorem kernelIsr_irq {vector : Nat} (hlow : 32 ≤ vector) (hhigh : vector < 48)
    {frame : BitVec 32} {d : Devices × κ}
    (hvector : (InterruptFrame.load m frame).interruptNumber = BitVec.ofNat 32 vector) :
    ∃ k, kernelIsr inb picSendEoi frame (m, d) = (m, afterIrq inb vector d, k) := by
  have hirq : (32 : BitVec 32) ≤ BitVec.ofNat 32 vector ∧ BitVec.ofNat 32 vector < 48 := by
    constructor <;> bv_omega
  rw [kernelIsr, isrHandler, afterIrq]
  dsimp only
  rw [hvector, if_pos hirq, kernelHandlers]
  by_cases hkey : vector = 33
  · subst hkey
    rw [if_pos rfl]
    exact ⟨_, rfl⟩
  · rw [if_neg hkey, if_neg (by bv_omega), if_neg (by bv_omega), if_pos hirq]
    exact ⟨_, rfl⟩

theorem interrupt_unnoticed (code : Compiled (kernelIsr inb picSendEoi)) (c : Cpu (Devices × κ))
    {vector : Nat} (hlow : 32 ≤ vector) (hhigh : vector < 48) (next : BitVec 32) :
    ∃ c', interrupt code.run next vector 0 c = some c' ∧ Unnoticed code.depth c c' ∧
      c'.dev.1 = afterIrq inb vector c.dev := by
  have hload := load_handlerEntry c next vector 0
  obtain ⟨k, hisr⟩ : ∃ k, kernelIsr inb picSendEoi (c.esp - 52)
      ((handlerEntry c next vector 0).mem, c.dev) =
        ((handlerEntry c next vector 0).mem, afterIrq inb vector c.dev, k) :=
    kernelIsr_irq hlow hhigh (congrArg InterruptFrame.interruptNumber hload)
  have hpushed := changesOnly_handlerEntry c next vector 0
  set entry := handlerEntry c next vector 0
  obtain ⟨m', hinterrupt, hscratch⟩ := interrupt_spec code c next (Or.inl hhigh) 0 (by
    rw [hisr]
    exact ChangesOnly.refl _ _)
  rw [hisr] at hinterrupt hscratch
  dsimp only at hinterrupt hscratch
  rw [hload] at hinterrupt
  have hdepth := code.depth_le
  refine ⟨_, hinterrupt, ⟨rfl, (hpushed.mono (span_subset ?_)).trans (hscratch.mono (span_subset ?_))⟩,
    rfl⟩ <;> bv_omega

/-! ### Runs -/

/-- With at most 256 characters unread, the positions tell how many they are. -/
theorem ActsAs.unread (h : ActsAs con c.dev.1 t) :
    (c.dev.1.kb.writePos - c.dev.1.kb.readPos).toNat = t.unread.length := by
  obtain ⟨typed, taken, hholds, hunread⟩ := h.keys
  have htaken := hholds.taken_le
  have hfew := h.few
  rw [← hunread, List.length_drop] at hfew ⊢
  rw [hholds.readPos, hholds.writePos]
  bv_omega

theorem ActsAs.key (h : ActsAs con c.dev.1 t) {vector : Nat} {d : Devices}
    (hd : d = afterIrq inb vector c.dev) (hfew : (d.kb.writePos - d.kb.readPos).toNat ≤ 256) :
    ∃ u, Run TtyStep t (if vector = 33 then
      [.typed (c.dev.1.kb.enqueued (inb c.dev.2).1).toList] else []) u ∧ ActsAs con d u := by
  rw [afterIrq] at hd
  by_cases hkey : vector = 33
  · rw [if_pos hkey] at hd ⊢
    refine ⟨_, .single (.type t _), ?_⟩
    obtain ⟨typed, taken, hholds, hunread⟩ := h.keys
    have htaken := hholds.taken_le
    have hholds' := hholds.interrupt (inb c.dev.2).1
    have hchars : (typed ++ (c.dev.1.kb.enqueued (inb c.dev.2).1).toList).drop taken =
        t.unread ++ (c.dev.1.kb.enqueued (inb c.dev.2).1).toList := by
      rw [List.drop_append_of_le_length htaken, hunread]
    subst hd
    refine ⟨⟨_, taken, hholds', hchars⟩, ?_, h.console⟩
    -- at most one character more
    have hone : (c.dev.1.kb.enqueued (inb c.dev.2).1).toList.length ≤ 1 := by
      cases c.dev.1.kb.enqueued (inb c.dev.2).1 <;> simp
    have hold := h.few
    have hlength : t.unread.length = typed.length - taken := by rw [← hunread, List.length_drop]
    rw [hholds'.readPos, hholds'.writePos, List.length_append] at hfew
    rw [List.length_append]
    bv_omega
  · rw [if_neg hkey] at hd ⊢
    exact ⟨t, .refl t, hd ▸ h⟩

theorem ActsAs.step {es : List TtyEvent} {c' : Cpu (Devices × κ)} (h : ActsAs con c.dev.1 t)
    (hstep : ServiceStep code c es c')
    (hfew : (c'.dev.1.kb.writePos - c'.dev.1.kb.readPos).toNat ≤ 256) :
    ∃ u, Run TtyStep t es u ∧ ActsAs con c'.dev.1 u := by
  cases hstep with
  | program hdev => exact ⟨t, .refl t, hdev ▸ h⟩
  | irq hlow hhigh hinterrupt =>
    obtain ⟨c1, hc1, -, hdev⟩ := interrupt_unnoticed code c hlow hhigh _
    obtain rfl := Option.some.inj (hc1.symm.trans hinterrupt)
    exact h.key hdev hfew
  | call back afterCall afterInt hc =>
    obtain ⟨hanswer, hacts, -⟩ := h.call hc back afterCall afterInt
    rw [hanswer]
    exact ⟨_, .single (.call t _), hacts⟩

end

/-- In every run of programs, devices, interrupts and system calls, a program does not notice the
interrupts and has a terminal in the calls: these keep its registers and its memory, `read` takes the
next characters that were typed, and what was written has been printed. -/
theorem kernel_serves_tty {κ : Type*} {inb : κ → BitVec 8 × κ} {picSendEoi : BitVec 32 → κ → κ}
    (code : Compiled (kernelIsr inb picSendEoi)) :
    (∀ c vector next, 32 ≤ vector → vector < 48 →
      ∃ c', interrupt code.run next vector 0 c = some c' ∧ Unnoticed code.depth c c') ∧
    ∀ start es c, ServiceRun code start es c → (∃ kb : Keyboard, start.dev.1.kb = kb.init) →
      (∀ back afterCall afterInt, asked c = .unknown ∨ Callable code.depth c →
        ReturnsTo code.depth back c (sendSyscall code.run back afterCall afterInt c)) ∧
      ∃ t, Run TtyStep ⟨[], []⟩ es t ∧ ActsAs start.dev.1.con c.dev.1 t ∧
        es.flatMap TtyEvent.readChars ++ t.unread = es.flatMap TtyEvent.typedChars ∧
        es.flatMap TtyEvent.writtenChars = t.written := by
  refine ⟨fun c vector next hlow hhigh => ?_, ?_⟩
  · obtain ⟨c', hinterrupt, hunnoticed, -⟩ := interrupt_unnoticed code c hlow hhigh next
    exact ⟨c', hinterrupt, hunnoticed⟩
  rintro start es c hrun ⟨kb, hkb⟩
  have hstart : ActsAs start.dev.1.con start.dev.1 ⟨[], []⟩ :=
    ⟨⟨[], 0, hkb ▸ Keyboard.Holds.init kb, rfl⟩, Nat.zero_le _, rfl⟩
  obtain ⟨t, ht, hacts⟩ := hrun.simulates (R := fun c t => ActsAs start.dev.1.con c.dev.1 t)
    (fun h hstep => h.step hstep.1 hstep.2) hstart
  obtain ⟨hread, hwritten⟩ := Tty.streams ht
  exact ⟨fun back afterCall afterInt hc => (hacts.call hc back afterCall afterInt).2.2,
    t, ht, hacts, hread, hwritten.symm⟩

/-- A program before a call of `read` for four characters. -/
def readingProgram : Cpu (Devices × Unit) :=
  ⟨⟨0x1000, ((Mem.store32 (fun _ => 0) 0x1004 0x8000).store32 0x8000 4).store32 0x8008 0x9000⟩,
    0, 0, 0, 0, 0, 0, 0, 0x400, 0x08, 0x202, ⟨⟨⟨fun _ => 0, 0, 0, false, false⟩, ⟨0, 0, []⟩⟩, ()⟩⟩

theorem readingProgram_words {m : Mem}
    (hm : ChangesOnly (span (0x1000 - 68) 68) readingProgram.mem m) :
    m.load32 0x1000 = 0 ∧ m.load32 0x1004 = 0x8000 ∧ m.load32 0x8000 = 4 ∧
      m.load32 0x8008 = 0x9000 := by
  refine ⟨?_, ?_, ?_, ?_⟩ <;>
    refine (Mem.load32_of_changesOnly hm (disjoint_span (by decide) (by decide) (by decide))).trans ?_ <;>
    decide +kernel

/-- A key is pressed before the call. -/
theorem kernel_serves_tty_key :
    let code : Compiled (kernelIsr (fun _ : Unit => (0x23, ())) fun _ k => k) := .direct _
    ∃ c, ServiceRun code readingProgram [.typed [104]] c ∧ asked c = .read 4 ∧
      ReturnsTo 0 0x500 c (sendSyscall code.run 0x500 0x300 0x600 c) := by
  intro code
  obtain ⟨-, hruns⟩ := kernel_serves_tty code
  obtain ⟨c, hinterrupt, hunnoticed, hdev⟩ :=
    interrupt_unnoticed code readingProgram (by decide : 32 ≤ 33) (by decide) 0x300
  have hesp : c.esp = 0x1000 := congrArg (fun c : Cpu _ => c.esp) hunnoticed.same
  obtain ⟨hnumber, hargs, hcount, hbuf⟩ := readingProgram_words hunnoticed.mem
  have hword0 : c.word 0 = 0 := by rw [Stack.word, hesp]; exact hnumber
  have hword1 : c.word 1 = 0x8000 := by rw [Stack.word, hesp]; exact hargs
  have hasked : asked c = .read 4 := by
    rw [asked, hword0, hword1, ReadArguments.count, hcount]
    rfl
  have hread : ReadArguments.count c.mem (c.word 1) = 4 := by rw [hword1]; exact hcount
  have hinto : ReadArguments.buf c.mem (c.word 1) = 0x9000 := by rw [hword1]; exact hbuf
  have hstack : kernelStack 0 c = span (0x1000 - 68) 68 := by rw [kernelStack, hesp]; rfl
  have hcallable : Callable 0 c := by
    refine ⟨?_, ?_, fun _ => ?_⟩
    · rw [hword1, hstack]
      exact disjoint_span (by decide) (by decide) (by decide)
    · rw [hread, hinto, hstack]
      exact disjoint_span (by decide) (by decide) (by decide)
    · rw [hread, hinto, hword1]
      exact disjoint_span (by decide) (by decide) (by decide)
  have hrun : ServiceRun code readingProgram [.typed [104]] c := by
    refine .single ⟨.irq (by decide : 32 ≤ 33) (by decide) hinterrupt, ?_⟩
    rw [hdev]
    decide +kernel
  exact ⟨c, hrun, hasked, (hruns _ _ c hrun ⟨readingProgram.dev.1.kb, rfl⟩).1 0x500 0x300 0x600 (.inr hcallable)⟩

end Sapphire
