import Sapphire.Interrupt.Frame
import Sapphire.Print.Cursor
import Sapphire.Syscall.Read

/-! System calls with a number that is not in the table.  `syscall` is `send_syscall`, and the
dispatcher of `syscall.cpp` looks at the low byte of the number only, so a number is rejected exactly
when its low byte is that of no system call. -/

namespace Sapphire

open Machine

/-- The devices that system calls use. -/
structure Devices where
  kb : Keyboard
  con : Console

def sysReadImp : SyscallImp Devices := fun arg1 st =>
  let r := sysRead st.2.kb st.1 arg1
  ((r.2.1, { st.2 with kb := r.1 }), r.2.2)

def sysWriteImp : SyscallImp Devices := fun arg1 st =>
  let r := sysWrite st.2.con st.1 arg1
  ((st.1, { st.2 with con := r.1 }), r.2)

/-- `syscall_handler`, with the table as `syscalls::init` leaves it. -/
def kernelSyscalls : Isr Devices := syscallHandler (syscallTable sysReadImp sysWriteImp)

/-- The call returns `-1`, and leaves the devices as they were, and the memory but for the stack that
it uses, of which `depth` bytes are below the frame of the interrupt. -/
structure Rejected (depth : Nat) (c c' : Cpu Devices) : Prop where
  eax : c'.eax = 0xFFFFFFFF
  dev : c'.dev = c.dev
  mem : ChangesOnly (span (c.esp - 68 - BitVec.ofNat 32 depth) (depth + 68)) c.mem c'.mem

/-- System calls with the number are rejected without effect: of the memory, the dispatcher changes
`eax` in its frame, and a call of `syscall` with any argument from any state of the kernel is
`Rejected`. -/
structure Rejects (number : BitVec 32) : Prop where
  frame : ∀ frame st, (InterruptFrame.load st.1 frame).eax = number →
    kernelSyscalls frame st = (InterruptFrame.setEax st.1 frame 0xFFFFFFFF, st.2)
  call : ∀ (handlers : BitVec 32 → Option (Isr Devices)) (picSendEoi : BitVec 32 → Devices → Devices)
    (code : Compiled (isrHandler handlers picSendEoi)) (back afterCall afterInt arg1 : BitVec 32)
    (c : Cpu Devices), handlers 128 = some kernelSyscalls → c.word 0 = number → c.word 1 = arg1 →
    Rejected code.depth c (sendSyscall code.run back afterCall afterInt c)

/-- The low byte is that of no system call. -/
def UnknownByte (number : BitVec 32) : Prop := number &&& 0xFF ≠ 0 ∧ number &&& 0xFF ≠ 1

theorem UnknownByte.table {number : BitVec 32} (h : UnknownByte number) :
    syscallTable sysReadImp sysWriteImp (number &&& 0xFF) = sysDefault := by
  rw [syscallTable, if_neg h.1, if_neg h.2]

theorem UnknownByte.rejects {number : BitVec 32} (h : UnknownByte number) : Rejects number where
  frame := by
    intro frame st hnumber
    simp only [kernelSyscalls, syscallHandler, hnumber, h.table]
    rfl
  call := by
    rintro handlers picSendEoi code back afterCall afterInt arg1 c hhandlers rfl rfl
    have hspec := sendSyscall_spec (syscallTable sysReadImp sysWriteImp) handlers picSendEoi
      hhandlers code back afterCall afterInt c fun m _ => by
        rw [h.table]
        exact ChangesOnly.refl _ _
    rw [h.table] at hspec
    obtain ⟨m, hm, heax, -, -, -, -, -, -, hdev, hmem⟩ := hspec
    have hdepth := code.depth_le
    refine ⟨heax, hdev, (hm.mono (span_subset ?_)).trans (hmem.mono (span_subset ?_))⟩
    · bv_omega
    · bv_omega

/-! ### Numbers with the low byte of a system call -/

/-- A request for no characters reads and prints nothing. -/
theorem sysReadImp_none {m : Mem} {arg1 : BitVec 32} (h : m.load32 arg1 = 0) (d : Devices) :
    sysReadImp arg1 (m, d) = ((m, d), 0) := by
  have hread : sysRead d.kb m arg1 = (d.kb, m, 0) := by
    show sysReadLoop arg1 (2 ^ 32 - 1 + 1) 0 d.kb m = _
    refine sysReadLoop_done fun hlt => ?_
    rw [ReadArguments.count, h] at hlt
    exact BitVec.lt_irrefl _ hlt.1
  simp only [sysReadImp, hread]

theorem sysWriteImp_none {m : Mem} {arg1 : BitVec 32} (h : m.load32 arg1 = 0) (d : Devices) :
    sysWriteImp arg1 (m, d) = ((m, d), 0) := by
  have hwrite : sysWrite d.con m arg1 = (d.con, 0) := by
    rw [sysWrite_eq, WriteArguments.count, h]
    rfl
  simp only [sysWriteImp, hwrite]

theorem table_none {number : BitVec 32} (hnumber : ¬ UnknownByte number) {m : Mem} {arg1 : BitVec 32}
    (h : m.load32 arg1 = 0) (d : Devices) :
    syscallTable sysReadImp sysWriteImp (number &&& 0xFF) arg1 (m, d) = ((m, d), 0) := by
  rw [UnknownByte, not_and_or, not_not, not_not] at hnumber
  rw [syscallTable]
  rcases hnumber with hread | hwrite
  · rw [if_pos hread, sysReadImp_none h]
  · rw [if_neg (by rw [hwrite]; decide), if_pos hwrite, sysWriteImp_none h]

/-- A call from a stack with the number and the address of such a request. -/
def noneRequest (number : BitVec 32) : Cpu Devices :=
  ⟨⟨0x1000, (Mem.store32 (fun _ => 0) 0x1000 number).store32 0x1004 0x8000⟩, 0, 0, 0, 0, 0, 0, 0, 0,
    0x08, 0x202, ⟨⟨fun _ => 0, 0, 0, false, false⟩, ⟨0, 0, []⟩⟩⟩

theorem word_noneRequest (number : BitVec 32) : (noneRequest number).word 0 = number ∧
    (noneRequest number).word 1 = 0x8000 := by
  refine ⟨?_, Mem.load32_store32_self _ _ _⟩
  have hapart : Disjoint (span 0x1000 4) (span 0x1004 4) :=
    disjoint_span (by decide) (by decide) (by decide)
  exact (Mem.load32_store32_of_disjoint hapart).trans (Mem.load32_store32_self _ _ _)

/-- The request is still there when the call has pushed what it pushes. -/
theorem load_noneRequest {number : BitVec 32} {m : Mem}
    (hm : ChangesOnly (span (0x1000 - 68) 68) (noneRequest number).mem m) :
    m.load32 0x8000 = 0 := by
  have hstack : ChangesOnly (span 0x1000 8) (fun _ => 0) (noneRequest number).mem :=
    ((Mem.changesOnly_store32 _ _ _).mono (span_mono (by decide))).trans
      ((Mem.changesOnly_store32 _ _ _).mono (span_subset (by decide)))
  rw [Mem.load32_of_changesOnly hm (disjoint_span (by decide) (by decide) (by decide)),
    Mem.load32_of_changesOnly hstack (disjoint_span (by decide) (by decide) (by decide))]
  rfl

/-- The call of `read` or `write` for no characters returns 0. -/
theorem not_rejects {number : BitVec 32} (hnumber : ¬ UnknownByte number) : ¬ Rejects number := by
  intro hrejects
  let handlers : BitVec 32 → Option (Isr Devices) := fun n =>
    if n = 128 then some kernelSyscalls else none
  let code : Compiled (isrHandler handlers fun _ d => d) := .direct _
  obtain ⟨hword0, hword1⟩ := word_noneRequest number
  have hnone : ∀ m, ChangesOnly (span (0x1000 - 68) 68) (noneRequest number).mem m →
      syscallTable sysReadImp sysWriteImp ((noneRequest number).word 0 &&& 0xFF)
        ((noneRequest number).word 1) (m, (noneRequest number).dev) =
          ((m, (noneRequest number).dev), 0) := by
    intro m hm
    rw [hword0, hword1]
    exact table_none hnumber (load_noneRequest hm) _
  obtain ⟨m, hm, heax, -⟩ := sendSyscall_spec (syscallTable sysReadImp sysWriteImp) handlers
    (fun _ d => d) rfl code 0 0 0 (noneRequest number) fun m hm => by
      rw [hnone m hm]
      exact ChangesOnly.refl _ _
  rw [hnone m hm] at heax
  have hcall := hrejects.call handlers (fun _ d => d) code 0 0 0 0x8000 (noneRequest number) rfl
    hword0 hword1
  have hzero : (0 : BitVec 32) = 0xFFFFFFFF := heax.symm.trans hcall.eax
  exact absurd hzero (by decide)

/-- Calls with a number are rejected without effect exactly when its low byte is that of no system
call. -/
theorem unknown_syscall_rejected_iff (number : BitVec 32) :
    Rejects number ↔ number &&& 0xFF ≠ 0 ∧ number &&& 0xFF ≠ 1 := by
  refine ⟨fun h => ?_, fun h => UnknownByte.rejects h⟩
  by_contra hnumber
  exact not_rejects hnumber h

/-- The number `0x100` is taken for that of `read`. -/
theorem unknown_syscall_rejected_aliasOfRead :
    ¬ ∀ number : BitVec 32, number ≠ 0 → number ≠ 1 → Rejects number := by
  intro h
  exact not_rejects (fun hunknown => hunknown.1 rfl) (h 0x100 (by decide) (by decide))

end Sapphire
