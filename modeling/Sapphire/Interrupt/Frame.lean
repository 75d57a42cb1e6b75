import Sapphire.Interrupt

/-! What the stubs do: the frame that `isr_handler` is given, the state in which the interrupted code
goes on, and what `send_syscall` returns. -/

namespace Sapphire

open Machine

variable {σ : Type*}

/-- A stub pushes a zero where the processor has pushed no error code, and the vector. -/
theorem stub_eq {vector : Nat} (hv : vector < 48 ∨ vector = 128) :
    stub vector = some (if Cpu.hasErrorCode vector then [.push (BitVec.ofNat 32 vector)]
      else [.push 0, .push (BitVec.ofNat 32 vector)]) := by
  rcases hv with hlt | rfl
  · revert vector
    decide
  · decide

/-- The state in which the stub of `vector` enters `isr_handler`. -/
def handlerEntry (c : Cpu σ) (next : BitVec 32) (vector : Nat) (errorCode : BitVec 32) : Cpu σ :=
  { c.raise vector errorCode with
    toStack := c.toStack.pushAll [c.eflags, c.cs, c.eip,
      if Cpu.hasErrorCode vector then errorCode else 0, BitVec.ofNat 32 vector, c.eax, c.ecx, c.edx,
      c.ebx, c.esp - 20, c.ebp, c.esi, c.edi, c.esp - 52, next] }

/-- The rest of `isr_common`, after `isr_handler` has returned. -/
def leaveStub (c : Cpu σ) : Cpu σ := c.run id (fun _ c => c) [.addEsp 4, .popa, .addEsp 8, .iret]

theorem interrupt_eq (callee : Cpu σ → Cpu σ) (c : Cpu σ) (next : BitVec 32) {vector : Nat}
    (hv : vector < 48 ∨ vector = 128) (errorCode : BitVec 32) :
    interrupt callee next vector errorCode c =
      some (leaveStub (callee (handlerEntry c next vector errorCode))) := by
  rw [interrupt, stub_eq hv, Option.map_some, Option.some_inj, Cpu.run, List.foldl_append]
  -- the words of the processor and of the stub
  set pushed := c.toStack.pushAll [c.eflags, c.cs, c.eip,
    if Cpu.hasErrorCode vector then errorCode else 0, BitVec.ofNat 32 vector] with hpushed
  have hentry : (if Cpu.hasErrorCode vector then [Instr.push (BitVec.ofNat 32 vector)]
      else [.push 0, .push (BitVec.ofNat 32 vector)]).foldl (Cpu.exec callee fun _ c => c)
      (c.raise vector errorCode) = { c.raise vector errorCode with toStack := pushed } := by
    rw [hpushed]
    by_cases herr : Cpu.hasErrorCode vector
    · simp only [herr, if_true, Cpu.raise]
      rfl
    · simp only [herr, Cpu.raise]
      rfl
  have hesp : pushed.esp = c.esp - 20 := Stack.esp_pushAll _ _
  rw [hentry]
  have hall : (pushed.pushAll [c.eax, c.ecx, c.edx, c.ebx, pushed.esp, c.ebp, c.esi, c.edi]).esp =
      c.esp - 52 := by
    rw [Stack.esp_pushAll, hesp]
    simp only [List.length_cons, List.length_nil]
    bv_omega
  simp only [isrCommon, List.foldl_cons, List.foldl_nil, Cpu.exec, Cpu.push, Cpu.raise]
  rw [hall, hesp]
  rfl

/-! ### The frame -/

section

variable (c : Cpu σ) (next : BitVec 32) (vector : Nat) (errorCode : BitVec 32)

theorem esp_handlerEntry : (handlerEntry c next vector errorCode).esp = c.esp - 60 :=
  Stack.esp_pushAll _ _

theorem dev_handlerEntry : (handlerEntry c next vector errorCode).dev = c.dev := by
  simp only [handlerEntry, Cpu.raise]

/-- The words on the stack in `isr_handler`, from the top. -/
theorem word_handlerEntry {k : Nat} {v : BitVec 32} (hk : k < 15)
    (hv : [next, c.esp - 52, c.edi, c.esi, c.ebp, c.esp - 20, c.ebx, c.edx, c.ecx, c.eax,
      BitVec.ofNat 32 vector, if Cpu.hasErrorCode vector then errorCode else 0, c.eip, c.cs,
      c.eflags][k]? = some v) : (handlerEntry c next vector errorCode).word k = v := by
  have hword := Stack.word_pushAll c.toStack [c.eflags, c.cs, c.eip,
      if Cpu.hasErrorCode vector then errorCode else 0, BitVec.ofNat 32 vector, c.eax, c.ecx, c.edx,
      c.ebx, c.esp - 20, c.ebp, c.esi, c.edi, c.esp - 52, next] (by simp) hk
  exact Option.some_inj.mp (hword.symm.trans hv)

/-- `isr_handler` is given a frame with the vector, the error code, and the registers at the
interrupt. -/
theorem load_handlerEntry :
    InterruptFrame.load (handlerEntry c next vector errorCode).mem (c.esp - 52) =
      ⟨c.edi, c.esi, c.ebp, c.esp - 20, c.ebx, c.edx, c.ecx, c.eax, BitVec.ofNat 32 vector,
        if Cpu.hasErrorCode vector then errorCode else 0, c.eip, c.cs, c.eflags⟩ := by
  have hfield : ∀ k v, k + 2 < 15 → [next, c.esp - 52, c.edi, c.esi, c.ebp, c.esp - 20, c.ebx,
      c.edx, c.ecx, c.eax, BitVec.ofNat 32 vector, if Cpu.hasErrorCode vector then errorCode else 0,
      c.eip, c.cs, c.eflags][k + 2]? = some v →
      (handlerEntry c next vector errorCode).mem.load32 (slot (c.esp - 52) k) = v := by
    intro k v hk hv
    have hframe : c.esp - 52 = (handlerEntry c next vector errorCode).esp +
        BitVec.ofNat 32 (4 * 2) := by
      rw [esp_handlerEntry]
      bv_omega
    rw [hframe, slot_add, Nat.add_comm 2 k]
    exact word_handlerEntry c next vector errorCode hk hv
  rw [InterruptFrame.load]
  congr 1 <;> exact hfield _ _ (by decide) rfl

end

namespace InterruptFrame

variable {m m' : Mem} {frame : BitVec 32} {S : Set (BitVec 32)}

theorem load_of_changesOnly (hc : ChangesOnly S m m') (hd : Disjoint (span frame 52) S) :
    load m' frame = load m frame := by
  have hfield : ∀ k < 13, m'.load32 (slot frame k) = m.load32 (slot frame k) := fun k hk =>
    Mem.load32_of_changesOnly hc (hd.mono_left (slot_subset hk (by decide)))
  simp (disch := decide) only [load, hfield]

/-- The fields above the registers. -/
theorem load_saved_of_changesOnly (frame : BitVec 32) (hc : ChangesOnly S m m')
    (hd : Disjoint (span (frame + 32) 20) S) : (load m' frame).eip = (load m frame).eip ∧
      (load m' frame).cs = (load m frame).cs ∧ (load m' frame).eflags = (load m frame).eflags := by
  have hfield : ∀ k < 5, m'.load32 (slot frame (8 + k)) = m.load32 (slot frame (8 + k)) := by
    intro k hk
    rw [← slot_add frame 8 k]
    exact Mem.load32_of_changesOnly hc (hd.mono_left (slot_subset hk (by decide)))
  exact ⟨hfield 2 (by decide), hfield 3 (by decide), hfield 4 (by decide)⟩

theorem load_setEax (m : Mem) (frame v : BitVec 32) :
    load (setEax m frame v) frame = { load m frame with eax := v } := by
  have hother : ∀ k < 13, k ≠ 7 →
      (setEax m frame v).load32 (slot frame k) = m.load32 (slot frame k) := by
    intro k hk hne
    rw [setEax, load32_store32_slot m frame v (by decide) (by omega), if_neg hne]
  have heax : (setEax m frame v).load32 (slot frame 7) = v := Mem.load32_store32_self _ _ _
  simp (disch := decide) only [load, hother, heax]

end InterruptFrame

/-- What the end of the stub restores is what the frame holds. -/
theorem leaveStub_eq (c : Cpu σ) :
    let regs := InterruptFrame.load c.mem (c.esp + 4)
    leaveStub c = { c with
      edi := regs.edi, esi := regs.esi, ebp := regs.ebp, ebx := regs.ebx, edx := regs.edx
      ecx := regs.ecx, eax := regs.eax, eip := regs.eip, cs := regs.cs, eflags := regs.eflags
      esp := c.esp + 56 } := by
  intro regs
  have hslot : ∀ k, slot (c.esp + 4 + 32 + 8) k = slot (c.esp + 4) (10 + k) := by
    intro k
    rw [← slot_add, BitVec.add_assoc (c.esp + 4)]
    rfl
  have hesp : c.esp + 4 + 32 + 8 + 12 = c.esp + 56 := by bv_omega
  simp only [leaveStub, Cpu.run, List.foldl_cons, List.foldl_nil, Cpu.exec, Stack.word, hslot, hesp]
  rfl

/-! ### Whole interrupts -/

section

variable {f : Isr σ}

/-- The frame as machine code of `f` leaves it is the one that `f` leaves. -/
theorem Compiled.load_run (code : Compiled f) (c : Cpu σ) (next : BitVec 32) (vector : Nat)
    (errorCode : BitVec 32) :
    let entry := handlerEntry c next vector errorCode
    (code.run entry).esp = c.esp - 56 ∧ (code.run entry).dev = (f (c.esp - 52) (entry.mem, c.dev)).2 ∧
      ChangesOnly (span (c.esp - 52 - BitVec.ofNat 32 code.depth) code.depth)
        (f (c.esp - 52) (entry.mem, c.dev)).1 (code.run entry).mem := by
  intro entry
  have hesp : entry.esp = c.esp - 60 := esp_handlerEntry c next vector errorCode
  have hframe : entry.esp + 8 = c.esp - 52 := by
    rw [hesp]
    bv_omega
  have harg : entry.word 1 = entry.esp + 8 := by
    rw [hframe]
    exact word_handlerEntry c next vector errorCode (by decide) rfl
  have hrun := code.esp entry harg
  have hmem := code.mem entry harg
  have hdev := code.dev entry harg
  rw [hframe, dev_handlerEntry] at hmem hdev
  refine ⟨?_, hdev, hmem⟩
  rw [hrun, hesp]
  bv_omega

/-- The state after an interrupt whose handler leaves the words above the registers alone. -/
theorem interrupt_spec (code : Compiled f) (c : Cpu σ) (next : BitVec 32) {vector : Nat}
    (hv : vector < 48 ∨ vector = 128) (errorCode : BitVec 32)
    (hkeeps : ChangesOnly (span (c.esp - 20) 20)ᶜ (handlerEntry c next vector errorCode).mem
      (f (c.esp - 52) ((handlerEntry c next vector errorCode).mem, c.dev)).1) :
    let after := f (c.esp - 52) ((handlerEntry c next vector errorCode).mem, c.dev)
    let left := InterruptFrame.load after.1 (c.esp - 52)
    ∃ m', interrupt code.run next vector errorCode c = some
        ⟨⟨c.esp, m'⟩, left.eax, left.ebx, left.ecx, left.edx, left.esi, left.edi, left.ebp, c.eip,
          c.cs, c.eflags, after.2⟩ ∧
      ChangesOnly (span (c.esp - 52 - BitVec.ofNat 32 code.depth) code.depth) after.1 m' := by
  intro after left
  obtain ⟨hesp, hdev, hmem⟩ := code.load_run c next vector errorCode
  set entry := handlerEntry c next vector errorCode with hentry
  have hdepth := code.depth_le
  refine ⟨(code.run entry).mem, ?_, hmem⟩
  have hframe : (code.run entry).esp + 4 = c.esp - 52 := by
    rw [hesp]
    bv_omega
  have hscratch : Disjoint (span (c.esp - 52) 52)
      (span (c.esp - 52 - BitVec.ofNat 32 code.depth) code.depth) := by
    refine Set.disjoint_left.mpr fun x h1 h2 => ?_
    rw [mem_span] at h1 h2
    bv_omega
  have hleft : InterruptFrame.load (code.run entry).mem ((code.run entry).esp + 4) = left := by
    rw [hframe]
    exact InterruptFrame.load_of_changesOnly hmem hscratch
  have hsaved := InterruptFrame.load_saved_of_changesOnly (c.esp - 52) hkeeps (by
    rw [show c.esp - 52 + 32 = c.esp - 20 by bv_omega]
    exact disjoint_compl_right)
  rw [hentry, load_handlerEntry] at hsaved
  obtain ⟨heip, hcs, hflags⟩ := hsaved
  have hback : (code.run entry).esp + 56 = c.esp := by
    rw [hesp]
    bv_omega
  rw [interrupt_eq _ _ _ hv, leaveStub_eq, hleft, hback, Option.some_inj,
    show left.eip = c.eip from heip, show left.cs = c.cs from hcs,
    show left.eflags = c.eflags from hflags, hdev]

/-- Entering `isr_handler` changes only the 60 bytes that are pushed. -/
theorem changesOnly_handlerEntry (c : Cpu σ) (next : BitVec 32) (vector : Nat)
    (errorCode : BitVec 32) :
    ChangesOnly (span (c.esp - 60) 60) c.mem (handlerEntry c next vector errorCode).mem := by
  have h := Stack.changesOnly_pushAll c.toStack [c.eflags, c.cs, c.eip,
    if Cpu.hasErrorCode vector then errorCode else 0, BitVec.ofNat 32 vector, c.eax, c.ecx, c.edx,
    c.ebx, c.esp - 20, c.ebp, c.esi, c.edi, c.esp - 52, next] (by simp)
  rw [show (c.toStack.pushAll _).esp = c.esp - 60 from Stack.esp_pushAll _ _] at h
  exact h

end

/-! ### System calls -/

section

variable (table : BitVec 32 → SyscallImp σ) (handlers : BitVec 32 → Option (Isr σ))
  (picSendEoi : BitVec 32 → σ → σ)

/-- What `isr_handler` does for vector 128. -/
theorem isrHandler_syscall (htable : handlers 128 = some (syscallHandler table)) {m : Mem} {d : σ}
    {frame : BitVec 32} (hvector : (InterruptFrame.load m frame).interruptNumber = 128) :
    isrHandler handlers picSendEoi frame (m, d) = syscallHandler table frame (m, d) := by
  simp only [isrHandler, hvector, htable]
  rfl

/-- The state of the processor at `int 0x80` in `send_syscall`. -/
def atInt (back afterInt : BitVec 32) (c : Cpu σ) : Cpu σ :=
  { c with
    toStack := (c.toStack.push back).push c.ebx
    eax := c.word 0, ebx := c.word 1, eip := afterInt }

theorem sendSyscall_eq (callee : Cpu σ → Cpu σ) (back afterCall afterInt : BitVec 32) {c c' : Cpu σ}
    (h : interrupt callee afterCall 128 0 (atInt back afterInt c) = some c') :
    sendSyscall callee back afterCall afterInt c =
      { c' with ebx := c'.word 0, eip := c'.word 1, esp := c'.esp + 8 } := by
  set s := (c.toStack.push back).push c.ebx with hs
  have h0 : s.mem.load32 (s.esp + 8) = c.word 0 := by
    have hword : s.word 2 = c.word 0 := by
      rw [hs, Stack.word_push_succ _ _ (by decide), Stack.word_push_succ _ _ (by decide)]
    exact hword
  have h1 : s.mem.load32 (s.esp + 12) = c.word 1 := by
    have hword : s.word 3 = c.word 1 := by
      rw [hs, Stack.word_push_succ _ _ (by decide), Stack.word_push_succ _ _ (by decide)]
    exact hword
  have hret : c'.mem.load32 (slot (c'.esp + 4) 0) = c'.word 1 :=
    congrArg c'.mem.load32 (slot_add c'.esp 1 0)
  have hesp : c'.esp + 4 + 4 = c'.esp + 8 := by bv_omega
  rw [atInt, ← hs] at h
  simp only [sendSyscall, Cpu.run, sendSyscallCode, List.foldl_cons, List.foldl_nil, Cpu.exec,
    Cpu.push, ← hs, h0, h1, h, Option.getD_some]
  simp only [Stack.word, hret, hesp]

/-- A call of `send_syscall` with the number and the argument on the stack returns what the entry of
the table returns for them, where this leaves the 60 bytes of the stack alone that the call and the
interrupt use above the stack of `isr_handler`.  After the entry, only the frame and what is below it
changes. -/
theorem sendSyscall_spec (htable : handlers 128 = some (syscallHandler table))
    (code : Compiled (isrHandler handlers picSendEoi)) (back afterCall afterInt : BitVec 32)
    (c : Cpu σ)
    (hkeeps : ∀ m, ChangesOnly (span (c.esp - 68) 68) c.mem m →
      ChangesOnly (span (c.esp - 60) 60)ᶜ m (table (c.word 0 &&& 0xFF) (c.word 1) (m, c.dev)).1.1) :
    let c' := sendSyscall code.run back afterCall afterInt c
    ∃ m, ChangesOnly (span (c.esp - 68) 68) c.mem m ∧
      let r := table (c.word 0 &&& 0xFF) (c.word 1) (m, c.dev)
      c'.eax = r.2 ∧ c'.ebx = c.ebx ∧ c'.esi = c.esi ∧ c'.edi = c.edi ∧ c'.ebp = c.ebp ∧
        c'.esp = c.esp ∧ c'.eip = back ∧ c'.dev = r.1.2 ∧
        ChangesOnly (span (c.esp - 60 - BitVec.ofNat 32 code.depth) (code.depth + 60)) r.1.1
          c'.mem := by
  intro c'
  set s := atInt back afterInt c with hs
  have hesp : s.esp = c.esp - 8 := by
    rw [hs, atInt, Stack.push, Stack.push]
    bv_omega
  have hframe : s.esp - 52 = c.esp - 60 := by
    rw [hesp]
    bv_omega
  set m := (handlerEntry s afterCall 128 0).mem with hm
  have hm1 : ChangesOnly (span (c.esp - 8) 8) c.mem s.mem := by
    have h := Stack.changesOnly_pushAll c.toStack [back, c.ebx] (by simp)
    rw [show (c.toStack.pushAll [back, c.ebx]).esp = c.esp - 8 from Stack.esp_pushAll _ _] at h
    exact h
  have hm2 : ChangesOnly (span (c.esp - 68) 60) s.mem m := by
    have h := changesOnly_handlerEntry s afterCall 128 0
    rw [show s.esp - 60 = c.esp - 68 by rw [hesp]; bv_omega] at h
    exact h
  have hpushed : ChangesOnly (span (c.esp - 68) 68) c.mem m :=
    (hm1.mono (span_subset (by bv_omega))).trans (hm2.mono (span_mono (by decide)))
  refine ⟨m, hpushed, ?_⟩
  set r := table (c.word 0 &&& 0xFF) (c.word 1) (m, c.dev) with hr
  have hload := load_handlerEntry s afterCall 128 0
  rw [hframe] at hload
  have hafter : isrHandler handlers picSendEoi (c.esp - 60) (m, c.dev) =
      (InterruptFrame.setEax r.1.1 (c.esp - 60) r.2, r.1.2) := by
    rw [isrHandler_syscall table handlers picSendEoi htable (by rw [hm, hload]; rfl),
      syscallHandler]
    simp only [hm, hload]
    rfl
  have hr1 := hkeeps m hpushed
  -- the frame is the one that was pushed, with the result in `eax`
  have hleft : InterruptFrame.load (InterruptFrame.setEax r.1.1 (c.esp - 60) r.2) (c.esp - 60) =
      { InterruptFrame.load m (c.esp - 60) with eax := r.2 } := by
    rw [InterruptFrame.load_setEax, InterruptFrame.load_of_changesOnly hr1]
    exact disjoint_compl_right.mono_left (span_mono (by decide))
  have heax : ChangesOnly (span (c.esp - 32) 4) r.1.1
      (InterruptFrame.setEax r.1.1 (c.esp - 60) r.2) := by
    rw [InterruptFrame.setEax, show slot (c.esp - 60) 7 = c.esp - 32 by rw [slot]; bv_omega]
    exact Mem.changesOnly_store32 _ _ _
  have hkept : ∀ (a : BitVec 32) n, (a - (c.esp - 28)).toNat + n ≤ 28 →
      ChangesOnly (span a n)ᶜ m (InterruptFrame.setEax r.1.1 (c.esp - 60) r.2) := by
    intro a n ha
    refine (hr1.mono (Set.compl_subset_compl.mpr (span_subset (by bv_omega)))).trans
      (heax.mono (Set.subset_compl_iff_disjoint_right.mpr (Set.disjoint_left.mpr fun x h1 h2 => ?_)))
    rw [mem_span] at h1 h2
    bv_omega
  obtain ⟨m', hint, hscratch⟩ := interrupt_spec code s afterCall
    (show 128 < 48 ∨ 128 = 128 from Or.inr rfl) 0 (by
    rw [hframe]
    rw [show isrHandler handlers picSendEoi (c.esp - 60)
      ((handlerEntry s afterCall 128 0).mem, s.dev) = _ from hafter]
    exact hkept _ _ (by rw [hesp]; bv_omega))
  rw [hframe] at hint hscratch
  rw [show isrHandler handlers picSendEoi (c.esp - 60)
    ((handlerEntry s afterCall 128 0).mem, s.dev) = _ from hafter] at hint hscratch
  -- the two words above the frame are those that the call and `push ebx` stored
  have hdepth := code.depth_le
  have hstack : ChangesOnly (span (c.esp - 8) 8)ᶜ s.mem m' := by
    refine (hm2.mono ?_).trans ((hkept _ _ (by bv_omega)).trans (hscratch.mono ?_)) <;>
    · refine Set.subset_compl_iff_disjoint_right.mpr (Set.disjoint_left.mpr fun x h1 h2 => ?_)
      rw [mem_span] at h1 h2
      bv_omega
  have hword : ∀ k < 2, m'.load32 (slot s.esp k) = s.word k := by
    intro k hk
    refine Mem.load32_of_changesOnly hstack ?_
    rw [hesp]
    exact disjoint_compl_right.mono_left (slot_subset hk (by decide))
  have hfinal := sendSyscall_eq code.run back afterCall afterInt hint
  have hebx : s.word 0 = c.ebx := Stack.word_push_zero _ _
  have hback : s.word 1 = back :=
    (Stack.word_push_succ _ _ (by decide)).trans (Stack.word_push_zero _ _)
  rw [show c' = _ from hfinal, hleft, hload]
  refine ⟨rfl, (hword 0 (by decide)).trans hebx, rfl, rfl, rfl, ?_, (hword 1 (by decide)).trans hback,
    rfl, (heax.mono (span_subset ?_)).trans (hscratch.mono (span_mono (by omega)))⟩
  · dsimp only
    rw [hesp]
    bv_omega
  · bv_omega

end

/-- Interrupts and system calls keep their conventions.  For a vector with a stub, `isr_handler` is
given the frame of the interrupt, and where the handler leaves the fields above the registers alone,
the interrupted code goes on at its `eip` with its flags and its stack, and with the registers that
the handler left in the frame.  And `send_syscall` returns what the entry of `syscall_table` for the
low byte of the number returns for the argument, and keeps the registers that its caller relies on;
the entry is called on the memory of the caller but for 68 bytes of stack. -/
theorem interrupt_abi {σ : Type*} :
    (∀ (c : Cpu σ) (next : BitVec 32) (vector : Nat) (errorCode : BitVec 32) (f : Isr σ)
        (code : Compiled f), (vector < 48 ∨ vector = 128) →
      let entry := handlerEntry c next vector errorCode
      let frame := c.esp - 52
      let left := InterruptFrame.load (f frame (entry.mem, c.dev)).1 frame
      entry.word 1 = frame ∧
      InterruptFrame.load entry.mem frame =
        ⟨c.edi, c.esi, c.ebp, c.esp - 20, c.ebx, c.edx, c.ecx, c.eax, BitVec.ofNat 32 vector,
          if Cpu.hasErrorCode vector then errorCode else 0, c.eip, c.cs, c.eflags⟩ ∧
      interrupt code.run next vector errorCode c = some (leaveStub (code.run entry)) ∧
      (ChangesOnly (span (c.esp - 20) 20)ᶜ entry.mem (f frame (entry.mem, c.dev)).1 →
        let c' := leaveStub (code.run entry)
        c'.esp = c.esp ∧ c'.eip = c.eip ∧ c'.cs = c.cs ∧ c'.eflags = c.eflags ∧
          c'.eax = left.eax ∧ c'.ebx = left.ebx ∧ c'.ecx = left.ecx ∧ c'.edx = left.edx ∧
          c'.esi = left.esi ∧ c'.edi = left.edi ∧ c'.ebp = left.ebp)) ∧
    ∀ (table : BitVec 32 → SyscallImp σ) (handlers : BitVec 32 → Option (Isr σ))
        (picSendEoi : BitVec 32 → σ → σ) (code : Compiled (isrHandler handlers picSendEoi))
        (back afterCall afterInt number arg1 : BitVec 32) (c : Cpu σ),
      handlers 128 = some (syscallHandler table) → c.word 0 = number → c.word 1 = arg1 →
      (∀ m, ChangesOnly (span (c.esp - 68) 68) c.mem m → ChangesOnly (span (c.esp - 60) 60)ᶜ m
        (table (number &&& 0xFF) arg1 (m, c.dev)).1.1) →
      let c' := sendSyscall code.run back afterCall afterInt c
      ∃ m, ChangesOnly (span (c.esp - 68) 68) c.mem m ∧
        let r := table (number &&& 0xFF) arg1 (m, c.dev)
        c'.eax = r.2 ∧ c'.ebx = c.ebx ∧ c'.esi = c.esi ∧ c'.edi = c.edi ∧ c'.ebp = c.ebp ∧
          c'.esp = c.esp ∧ c'.eip = back ∧ c'.dev = r.1.2 := by
  refine ⟨fun c next vector errorCode f code hv => ?_, ?_⟩
  · intro entry frame left
    have heq := interrupt_eq code.run c next hv errorCode
    refine ⟨word_handlerEntry c next vector errorCode (by decide) rfl,
      load_handlerEntry c next vector errorCode, heq, fun hkeeps => ?_⟩
    intro c'
    obtain ⟨m', hafter, -⟩ := interrupt_spec code c next hv errorCode hkeeps
    rw [heq, Option.some_inj] at hafter
    rw [show c' = _ from hafter]
    exact ⟨rfl, rfl, rfl, rfl, rfl, rfl, rfl, rfl, rfl, rfl, rfl⟩
  · rintro table handlers picSendEoi code back afterCall afterInt number arg1 c htable rfl rfl hkeeps
    obtain ⟨m, hm, heax, hebx, hesi, hedi, hebp, hesp, heip, hdev, -⟩ :=
      sendSyscall_spec table handlers picSendEoi htable code back afterCall afterInt c hkeeps
    exact ⟨m, hm, heax, hebx, hesi, hedi, hebp, hesp, heip, hdev⟩

/-- Machine code that does what the function does and uses no stack. -/
def Compiled.direct (f : Isr σ) : Compiled f where
  run c := { c with
    eip := c.word 0, esp := c.esp + 4, mem := (f (c.esp + 8) (c.mem, c.dev)).1
    dev := (f (c.esp + 8) (c.mem, c.dev)).2 }
  depth := 0
  depth_le := by decide
  esp _ _ := rfl
  eip _ _ := rfl
  mem _ _ := ChangesOnly.refl _ _
  dev _ _ := rfl

/-- A page fault whose handler sets `ecx`, and a system call with an unknown number. -/
theorem interrupt_abi_pageFault :
    let c : Cpu Unit := ⟨⟨0x1000, (Mem.store32 (fun _ => 0) 0x1000 0x102).store32 0x1004 5⟩,
      1, 2, 3, 4, 5, 6, 7, 0x400, 0x08, 0x202, ()⟩
    let setEcx : Isr Unit := fun frame st => (st.1.store32 (slot frame 6) 9, st.2)
    let handlers : BitVec 32 → Option (Isr Unit) := fun n =>
      if n = 128 then some (syscallHandler (syscallTable sysDefault sysDefault)) else none
    (∃ c', interrupt (Compiled.direct setEcx).run 0x300 14 0xE c = some c' ∧ c'.eip = 0x400 ∧
      c'.esp = 0x1000 ∧ c'.ecx = 9) ∧
    (sendSyscall (Compiled.direct (isrHandler handlers fun _ d => d)).run 0x500 0x300 0x600 c).eax =
      -1 := by
  intro c setEcx handlers
  obtain ⟨hinterrupt, hsyscall⟩ := interrupt_abi (σ := Unit)
  constructor
  · obtain ⟨-, -, heq, hleave⟩ := hinterrupt c 0x300 14 0xE setEcx (Compiled.direct setEcx)
      (by decide)
    obtain ⟨hesp, heip, -, -, -, -, hecx, -⟩ := hleave (by
      refine (Mem.changesOnly_store32 _ _ _).mono fun x h1 h2 => ?_
      rw [mem_span] at h1 h2
      rw [slot] at h1
      bv_omega)
    exact ⟨_, heq, heip, hesp, hecx.trans (Mem.load32_store32_self _ _ _)⟩
  · obtain ⟨m, -, heax, -⟩ := hsyscall (syscallTable sysDefault sysDefault) handlers (fun _ d => d)
      (Compiled.direct _) 0x500 0x300 0x600 0x102 5 c rfl (by decide +kernel) (by decide +kernel)
      fun m _ => ChangesOnly.refl _ _
    exact heax

end Sapphire
