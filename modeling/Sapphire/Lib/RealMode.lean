import Sapphire.Lib.Memory
import Mathlib.Logic.Function.Iterate

/-! A processor in real mode, with the instructions that boot code uses.  Its data and stack segments
are at 0, so an offset into them is an address; `es` is only moved, and used by services.  Code is
basic blocks: a straight list of instructions and the jump that ends it.  An `int` runs a service,
which is a parameter and may change the state in any way.  A division whose quotient does not fit is a
fault, and `lodsb` goes up. -/

namespace RealMode

open Machine

inductive Reg
  | ax | bx | cx | dx | si | di | bp | sp | es

inductive Half
  | al | ah | cl | ch | dl | dh

/-- The registers, the flags that jumps test, the memory and the devices. -/
structure State (σ : Type*) where
  ax : BitVec 16
  bx : BitVec 16
  cx : BitVec 16
  dx : BitVec 16
  si : BitVec 16
  di : BitVec 16
  bp : BitVec 16
  sp : BitVec 16
  es : BitVec 16
  zf : Bool
  cf : Bool
  iflag : Bool
  mem : Mem
  dev : σ

/-- Operands are as they occur: `mov ax, [bp - 6]` is `movLocal .ax 6`. -/
inductive Insn
  | mov (d s : Reg)
  | movImm (d : Reg) (v : BitVec 16)
  | movImm8 (d : Half) (v : BitVec 8)
  | movLocal (d : Reg) (off : BitVec 16)
  | movLocal8 (d : Half) (off : BitVec 16)
  | load8 (d : Half) (addr : BitVec 16)
  | store8 (addr : BitVec 16) (s : Half)
  | shr (d : Reg) (k : Nat)
  | add (d s : Reg)
  | addImm (d : Reg) (v : BitVec 16)
  | xor (d s : Reg)
  | xor8 (d s : Half)
  | or8 (d s : Half)
  | div (s : Reg)
  | inc8 (d : Half)
  | dec (d : Reg)
  | incLocal (off : BitVec 16)
  | decLocal (off : BitVec 16)
  | cmpLocal (off v : BitVec 16)
  | push (s : Reg)
  | pushImm (v : BitVec 16)
  | pop (d : Reg)
  | pusha
  | popa
  | lodsb
  | cli
  | hlt
  | int (vector : BitVec 8)

/-! ### Memory -/

/-- The address of an offset into the data or the stack segment. -/
def addr (off : BitVec 16) : BitVec 32 := off.setWidth 32

/-- The address `seg:off`. -/
def linear (seg off : BitVec 16) : BitVec 32 := seg.setWidth 32 * 16 + off.setWidth 32

def word (m : Mem) (off : BitVec 16) : BitVec 16 := m (addr (off + 1)) ++ m (addr off)

def setWord (m : Mem) (off v : BitVec 16) : Mem :=
  (m.store8 (addr off) (v.setWidth 8)).store8 (addr (off + 1)) (v.extractLsb' 8 8)

theorem toNat_addr (off : BitVec 16) : (addr off).toNat = off.toNat := by
  rw [addr, BitVec.toNat_setWidth, Nat.mod_eq_of_lt (by omega)]

theorem addr_inj {a b : BitVec 16} : addr a = addr b ↔ a = b := by
  rw [← BitVec.toNat_inj, toNat_addr, toNat_addr, BitVec.toNat_inj]

theorem word_setWord_self (m : Mem) (a v : BitVec 16) : word (setWord m a v) a = v := by
  have hne : addr a ≠ addr (a + 1) := by
    rw [ne_eq, addr_inj]
    bv_omega
  rw [word, setWord, Mem.store8_self]
  simp only [Mem.store8, hne, if_false, if_true]
  apply BitVec.eq_of_toNat_eq
  rw [BitVec.toNat_append, BitVec.toNat_setWidth, BitVec.extractLsb'_toNat,
    Nat.shiftRight_eq_div_pow, Nat.shiftLeft_eq, Nat.mul_comm,
    ← Nat.two_pow_add_eq_or_of_lt (by omega)]
  omega

theorem word_setWord_ne (m : Mem) {a b : BitVec 16} (v : BitVec 16)
    (h : a ≠ b ∧ a + 1 ≠ b ∧ a ≠ b + 1) : word (setWord m b v) a = word m a := by
  obtain ⟨h1, h2, h3⟩ := h
  have h4 : a + 1 ≠ b + 1 := by bv_omega
  simp only [word, setWord, Mem.store8, addr_inj, h1, h2, h3, h4, if_false]

theorem changesOnly_setWord (m : Mem) (a v : BitVec 16) :
    ChangesOnly {x | x = addr a ∨ x = addr (a + 1)} m (setWord m a v) := by
  intro x hx
  simp only [Set.mem_ofPred_eq, not_or] at hx
  simp only [setWord, Mem.store8, hx.1, hx.2, if_false]

theorem word_of_changesOnly {S : Set (BitVec 32)} {m m' : Mem} (h : ChangesOnly S m m')
    {a : BitVec 16} (h1 : addr a ∉ S) (h2 : addr (a + 1) ∉ S) : word m' a = word m a := by
  rw [word, word, h _ h1, h _ h2]

/-! ### Instructions -/

namespace State

variable {σ : Type*}

def get (s : State σ) : Reg → BitVec 16
  | .ax => s.ax
  | .bx => s.bx
  | .cx => s.cx
  | .dx => s.dx
  | .si => s.si
  | .di => s.di
  | .bp => s.bp
  | .sp => s.sp
  | .es => s.es

def set (s : State σ) (r : Reg) (v : BitVec 16) : State σ :=
  match r with
  | .ax => { s with ax := v }
  | .bx => { s with bx := v }
  | .cx => { s with cx := v }
  | .dx => { s with dx := v }
  | .si => { s with si := v }
  | .di => { s with di := v }
  | .bp => { s with bp := v }
  | .sp => { s with sp := v }
  | .es => { s with es := v }

def low (v : BitVec 16) : BitVec 8 := v.setWidth 8

def high (v : BitVec 16) : BitVec 8 := v.extractLsb' 8 8

@[simp] theorem low_append (a b : BitVec 8) : low (a ++ b) = b := by
  apply BitVec.eq_of_toNat_eq
  rw [low, BitVec.toNat_setWidth, BitVec.toNat_append, Nat.shiftLeft_eq, Nat.mul_comm,
    ← Nat.two_pow_add_eq_or_of_lt b.isLt]
  omega

@[simp] theorem high_append (a b : BitVec 8) : high (a ++ b) = a := by
  apply BitVec.eq_of_toNat_eq
  rw [high, BitVec.extractLsb'_toNat, BitVec.toNat_append, Nat.shiftLeft_eq, Nat.mul_comm,
    ← Nat.two_pow_add_eq_or_of_lt b.isLt, Nat.shiftRight_eq_div_pow]
  omega

theorem low_ofNat (n : Nat) : low (BitVec.ofNat 16 n) = BitVec.ofNat 8 n := by
  rw [low]
  bv_omega

def get8 (s : State σ) : Half → BitVec 8
  | .al => low s.ax
  | .ah => high s.ax
  | .cl => low s.cx
  | .ch => high s.cx
  | .dl => low s.dx
  | .dh => high s.dx

def set8 (s : State σ) (h : Half) (v : BitVec 8) : State σ :=
  match h with
  | .al => { s with ax := high s.ax ++ v }
  | .ah => { s with ax := v ++ low s.ax }
  | .cl => { s with cx := high s.cx ++ v }
  | .ch => { s with cx := v ++ low s.cx }
  | .dl => { s with dx := high s.dx ++ v }
  | .dh => { s with dx := v ++ low s.dx }

def push (s : State σ) (v : BitVec 16) : State σ :=
  { s with sp := s.sp - 2, mem := setWord s.mem (s.sp - 2) v }

def pushAll (s : State σ) (vs : List (BitVec 16)) : State σ := vs.foldl push s

/-- The word `k` places below the top of the stack. -/
def stackWord (s : State σ) (k : Nat) : BitVec 16 := word s.mem (s.sp + BitVec.ofNat 16 (2 * k))

/-- The word at `bp - off` set to `v`. -/
def setLocal (s : State σ) (off v : BitVec 16) : State σ :=
  { s with mem := setWord s.mem (s.bp - off) v, zf := v == 0 }

def setFlags (s : State σ) (zf cf : Bool) : State σ := { s with zf := zf, cf := cf }

theorem pushAll_append (s : State σ) (vs ws : List (BitVec 16)) :
    s.pushAll (vs ++ ws) = (s.pushAll vs).pushAll ws :=
  List.foldl_append

theorem pushAll_concat (s : State σ) (vs : List (BitVec 16)) (v : BitVec 16) :
    s.pushAll (vs ++ [v]) = (s.pushAll vs).push v :=
  pushAll_append s vs [v]

/-- Pushing changes the stack pointer and the memory only, and uses nothing else. -/
theorem pushAll_eq {s t : State σ} (hsp : t.sp = s.sp) (hmem : t.mem = s.mem)
    (vs : List (BitVec 16)) :
    t.pushAll vs = { t with sp := (s.pushAll vs).sp, mem := (s.pushAll vs).mem } := by
  induction vs using List.reverseRecOn with
  | nil =>
    obtain ⟨⟩ := t
    simp only [pushAll, List.foldl_nil] at hsp hmem ⊢
    rw [hsp, hmem]
  | append_singleton vs v ih =>
    rw [pushAll_concat, pushAll_concat, ih]
    rfl

theorem sp_pushAll (s : State σ) (vs : List (BitVec 16)) :
    (s.pushAll vs).sp = s.sp - BitVec.ofNat 16 (2 * vs.length) := by
  induction vs using List.reverseRecOn with
  | nil => simp [pushAll]
  | append_singleton vs v ih =>
    rw [pushAll_concat, push, ih, List.length_append, List.length_singleton, Nat.mul_add,
      BitVec.ofNat_add]
    bv_omega

theorem stackWord_push_zero (s : State σ) (v : BitVec 16) : (s.push v).stackWord 0 = v := by
  rw [stackWord, push, Nat.mul_zero, BitVec.add_zero]
  exact word_setWord_self _ _ _

/-- The words below one that is pushed. -/
theorem stackWord_push_succ (s : State σ) (v : BitVec 16) {k : Nat} (hk : k + 1 < 2 ^ 15) :
    (s.push v).stackWord (k + 1) = s.stackWord k := by
  have haddr : s.sp - 2 + BitVec.ofNat 16 (2 * (k + 1)) = s.sp + BitVec.ofNat 16 (2 * k) := by
    rw [Nat.mul_add, BitVec.ofNat_add]
    bv_omega
  rw [stackWord, push]
  simp only
  rw [haddr, word_setWord_ne, stackWord]
  refine ⟨?_, ?_, ?_⟩ <;> bv_omega

/-- The words of a list that was pushed, the last one on top. -/
theorem stackWord_pushAll (s : State σ) {vs : List (BitVec 16)} (hlen : vs.length < 2 ^ 15) {k : Nat}
    (hk : k < vs.length) : vs.reverse[k]? = some ((s.pushAll vs).stackWord k) := by
  induction vs using List.reverseRecOn generalizing k with
  | nil => exact absurd hk (Nat.not_lt_zero k)
  | append_singleton vs v ih =>
    rw [List.length_append, List.length_singleton] at hlen hk
    rw [pushAll_concat, List.reverse_append, List.reverse_singleton, List.singleton_append]
    cases k with
    | zero => rw [stackWord_push_zero, List.getElem?_cons_zero]
    | succ k =>
      rw [List.getElem?_cons_succ, stackWord_push_succ _ _ (by omega)]
      exact ih (by omega) (by omega)

theorem changesOnly_pushAll (s : State σ) {vs : List (BitVec 16)}
    (hroom : 2 * vs.length ≤ s.sp.toNat) :
    ChangesOnly {x | s.sp.toNat - 2 * vs.length ≤ x.toNat ∧ x.toNat < s.sp.toNat} s.mem
      (s.pushAll vs).mem := by
  induction vs using List.reverseRecOn with
  | nil => exact ChangesOnly.refl _ _
  | append_singleton vs v ih =>
    rw [List.length_append, List.length_singleton] at hroom ⊢
    rw [pushAll_concat, push]
    refine ((ih (by omega)).mono fun x hx => ?_).trans
      ((changesOnly_setWord _ _ _).mono fun x hx => ?_)
    · simp only [Set.mem_ofPred_eq] at hx ⊢
      omega
    · simp only [Set.mem_ofPred_eq, sp_pushAll, ← BitVec.toNat_inj, toNat_addr] at hx ⊢
      bv_omega

end State

open State

variable {σ Λ : Type*}

/-- One instruction; none at a fault. -/
def exec (service : BitVec 8 → State σ → State σ) (st : State σ) : Insn → Option (State σ)
  | .mov d s => some (st.set d (st.get s))
  | .movImm d v => some (st.set d v)
  | .movImm8 d v => some (st.set8 d v)
  | .movLocal d off => some (st.set d (word st.mem (st.bp - off)))
  | .movLocal8 d off => some (st.set8 d (st.mem (RealMode.addr (st.bp - off))))
  | .load8 d a => some (st.set8 d (st.mem (RealMode.addr a)))
  | .store8 a s => some { st with mem := st.mem.store8 (RealMode.addr a) (st.get8 s) }
  | .shr d k =>
    let v := st.get d
    some ((st.set d (v >>> k)).setFlags (v >>> k == 0) (v.getLsbD (k - 1)))
  | .add d s =>
    let v := st.get d + st.get s
    some ((st.set d v).setFlags (v == 0) (v < st.get d))
  | .addImm d n =>
    let v := st.get d + n
    some ((st.set d v).setFlags (v == 0) (v < st.get d))
  | .xor d s =>
    let v := st.get d ^^^ st.get s
    some ((st.set d v).setFlags (v == 0) false)
  | .xor8 d s =>
    let v := st.get8 d ^^^ st.get8 s
    some ((st.set8 d v).setFlags (v == 0) false)
  | .or8 d s =>
    let v := st.get8 d ||| st.get8 s
    some ((st.set8 d v).setFlags (v == 0) false)
  | .div s =>
    let dividend := (st.dx ++ st.ax).toNat
    let divisor := (st.get s).toNat
    if divisor = 0 ∨ dividend / divisor ≥ 2 ^ 16 then none
    else some { st with
      ax := BitVec.ofNat 16 (dividend / divisor), dx := BitVec.ofNat 16 (dividend % divisor) }
  | .inc8 d => some { st.set8 d (st.get8 d + 1) with zf := st.get8 d + 1 == 0 }
  | .dec d => some { st.set d (st.get d - 1) with zf := st.get d - 1 == 0 }
  | .incLocal off => some (st.setLocal off (word st.mem (st.bp - off) + 1))
  | .decLocal off => some (st.setLocal off (word st.mem (st.bp - off) - 1))
  | .cmpLocal off v =>
    let w := word st.mem (st.bp - off)
    some (st.setFlags (w == v) (w < v))
  | .push s => some (st.push (st.get s))
  | .pushImm v => some (st.push v)
  | .pop d => some ({ st with sp := st.sp + 2 }.set d (st.stackWord 0))
  | .pusha => some (st.pushAll [st.ax, st.cx, st.dx, st.bx, st.sp, st.bp, st.si, st.di])
  -- the word of `sp` is skipped
  | .popa => some { st with
      di := st.stackWord 0, si := st.stackWord 1, bp := st.stackWord 2, bx := st.stackWord 4
      dx := st.stackWord 5, cx := st.stackWord 6, ax := st.stackWord 7, sp := st.sp + 16 }
  | .lodsb => some { st.set8 .al (st.mem (RealMode.addr st.si)) with si := st.si + 1 }
  | .cli => some { st with iflag := false }
  -- what wakes the processor again is not modelled: it goes on
  | .hlt => some st
  | .int vector => some (service vector st)

/-- A division of a word that is extended by zeros. -/
theorem exec_div {service : BitVec 8 → State σ → State σ} {s : State σ} {r : Reg} {v : BitVec 16}
    (hdx : s.dx = 0) (hr : s.get r = v) (hv : v ≠ 0) : exec service s (.div r) = some { s with
      ax := BitVec.ofNat 16 (s.ax.toNat / v.toNat)
      dx := BitVec.ofNat 16 (s.ax.toNat % v.toNat) } := by
  have hdividend : (s.dx ++ s.ax).toNat = s.ax.toNat := by
    rw [hdx, BitVec.toNat_append]
    simp
  have hpos : v.toNat ≠ 0 := fun hzero => hv (BitVec.eq_of_toNat_eq hzero)
  have hfit : ¬ (v.toNat = 0 ∨ s.ax.toNat / v.toNat ≥ 2 ^ 16) := by
    have hle := Nat.div_le_self s.ax.toNat v.toNat
    omega
  simp only [exec, hr, hdividend, if_neg hfit]

def run (service : BitVec 8 → State σ → State σ) (st : State σ) (code : List Insn) :
    Option (State σ) :=
  code.foldlM (exec service) st

theorem run_cons {service : BitVec 8 → State σ → State σ} {s s' : State σ} {i : Insn}
    (h : exec service s i = some s') (rest : List Insn) :
    run service s (i :: rest) = run service s' rest :=
  congrArg (Option.bind · _) h

theorem run_append {service : BitVec 8 → State σ → State σ} {s s' : State σ} {before : List Insn}
    (h : run service s before = some s') (after : List Insn) :
    run service s (before ++ after) = run service s' after := by
  rw [run, List.foldlM_append]
  exact congrArg (Option.bind · _) h

/-! ### Blocks -/

/-- How a block ends.  A conditional jump names the block after it. -/
inductive Exit (Λ : Type*)
  | jmp (l : Λ)
  | jz (l next : Λ)
  | jnc (l next : Λ)
  | ret

structure CodeBlock (Λ : Type*) where
  body : List Insn
  exit : Exit Λ

/-- Before a block, or after the return. -/
inductive Config (Λ σ : Type*)
  | block (l : Λ) (s : State σ)
  | returned (ip : BitVec 16) (s : State σ)
  | fault

def leave (s : State σ) : Exit Λ → Config Λ σ
  | .jmp l => .block l s
  | .jz l next => .block (if s.zf then l else next) s
  | .jnc l next => .block (if s.cf then next else l) s
  | .ret => .returned (s.stackWord 0) { s with sp := s.sp + 2 }

theorem leave_jz {s : State σ} (h : s.zf = true) (l next : Λ) :
    leave s (.jz l next) = .block l s := by
  rw [leave, if_pos h]

theorem leave_jz_next {s : State σ} (h : s.zf = false) (l next : Λ) :
    leave s (.jz l next) = .block next s := by
  rw [leave, if_neg (by simp [h])]

theorem leave_jnc {s : State σ} (h : s.cf = false) (l next : Λ) :
    leave s (.jnc l next) = .block l s := by
  rw [leave, if_neg (by simp [h])]

theorem leave_jnc_next {s : State σ} (h : s.cf = true) (l next : Λ) :
    leave s (.jnc l next) = .block next s := by
  rw [leave, if_pos h]

/-- One block. -/
def step (service : BitVec 8 → State σ → State σ) (code : Λ → CodeBlock Λ) : Config Λ σ → Config Λ σ
  | .block l s =>
    match run service s (code l).body with
    | some s' => leave s' (code l).exit
    | none => .fault
  | .returned ip s => .returned ip s
  | .fault => .fault

section

variable {service : BitVec 8 → State σ → State σ} {code : Λ → CodeBlock Λ} {c c' c'' : Config Λ σ}

def Reaches (service : BitVec 8 → State σ → State σ) (code : Λ → CodeBlock Λ) (c c' : Config Λ σ) :
    Prop :=
  ∃ n, (step service code)^[n] c = c'

theorem Reaches.refl (c : Config Λ σ) : Reaches service code c c := ⟨0, rfl⟩

theorem Reaches.trans (h : Reaches service code c c') (h' : Reaches service code c' c'') :
    Reaches service code c c'' := by
  obtain ⟨n, rfl⟩ := h
  obtain ⟨k, rfl⟩ := h'
  exact ⟨k + n, Function.iterate_add_apply _ _ _ _⟩

/-- A block that is run to its end. -/
theorem Reaches.block {l : Λ} {s s' : State σ} (hrun : run service s (code l).body = some s')
    (hexit : leave s' (code l).exit = c) : Reaches service code (.block l s) c := by
  refine ⟨1, ?_⟩
  simp only [Function.iterate_one, step, hrun, hexit]

theorem iterate_returned (n : Nat) (ip : BitVec 16) (s : State σ) :
    (step service code)^[n] (.returned ip s) = .returned ip s :=
  Function.iterate_fixed rfl n

/-- A run that gets where no run returns from has not returned before either. -/
theorem Reaches.not_returned {P : Config Λ σ → Prop} (h : Reaches service code c c') (hc : P c')
    (hstep : ∀ c, P c → P (step service code c)) (hnot : ∀ ip s, ¬ P (.returned ip s)) (n : Nat)
    (ip : BitVec 16) (s : State σ) : (step service code)^[n] c ≠ .returned ip s := by
  obtain ⟨N, rfl⟩ := h
  intro hret
  rcases Nat.le_total n N with hle | hle
  · obtain ⟨k, rfl⟩ := Nat.exists_eq_add_of_le' hle
    rw [Function.iterate_add_apply, hret, iterate_returned] at hc
    exact hnot ip s hc
  · obtain ⟨k, rfl⟩ := Nat.exists_eq_add_of_le' hle
    have hlater : P ((step service code)^[k] ((step service code)^[N] c)) :=
      Function.Iterate.rec P hc hstep k
    rw [← Function.iterate_add_apply, hret] at hlater
    exact hnot ip s hlater

end

end RealMode
