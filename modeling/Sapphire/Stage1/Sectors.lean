import Sapphire.Stage1

/-! The loop of `disk_read`.  `AtLoop k n` is the state in which `k` sectors have been loaded by `n`
reads; each round of the loop reads one more, or three reads in a row have failed. -/

namespace Sapphire

open Machine RealMode

namespace Stage1

variable {bios : Bios} {L : Layout} {m1 : Mem} {drive : BitVec 8} {k n : Nat} {st st' : State Calls}

/-! ### Bytes that change -/

/-- What changes while sector `k` is read: the stack below the frame, the scratch bytes and what has
not been loaded yet. -/
def reading (bios : Bios) (L : Layout) (k : Nat) : Set (BitVec 32) :=
  {x | 0x7BE6 - bios.depth ≤ x.toNat ∧ x.toNat < 0x7BE6 ∨
    L.cylinder.toNat ≤ x.toNat ∧ x.toNat < L.cylinder.toNat + 3 ∨
    0x7E00 + 512 * k ≤ x.toNat ∧ x.toNat < 0x7E00 + 512 * (k + 1)}

/-- What changes after the frame has been set up. -/
def work (bios : Bios) (L : Layout) : Set (BitVec 32) :=
  {x | 0x7BE6 - bios.depth ≤ x.toNat ∧ x.toNat < 0x7BEA ∨
    L.cylinder.toNat ≤ x.toNat ∧ x.toNat < L.cylinder.toNat + 3 ∨
    0x7E00 ≤ x.toNat ∧ x.toNat < 0x87E00}

theorem reading_subset (hk : k < 1024) : reading bios L k ⊆ work bios L := by
  intro x hx
  simp only [reading, work, Set.mem_ofPred_eq] at hx ⊢
  omega

/-- The address of sector `k`. -/
def buffer (k : Nat) : BitVec 32 := 0x7E00 + BitVec.ofNat 32 (512 * k)

theorem toNat_buffer (hk : k ≤ 1024) {j : Nat} (hj : j < 512) :
    (buffer k + BitVec.ofNat 32 j).toNat = 0x7E00 + 512 * k + j := by
  rw [buffer]
  bv_omega

/-! ### The states -/

/-- The frame, with `k` sectors loaded by `n` reads, where `m1` is the memory when the frame had been
set up. -/
structure AtLoop (bios : Bios) (L : Layout) (m1 : Mem) (drive : BitVec 8) (k n : Nat)
    (st : State Calls) : Prop where
  bp : st.bp = 0x7BEC
  sp : st.sp = 0x7BE6
  es : st.es = BitVec.ofNat 16 (0x7E0 + 32 * k)
  bx : st.bx = 0
  reads : st.dev.reads = n
  number : st.mem (addr 0x7BEA) = drive
  remaining : word st.mem 0x7BE8 = BitVec.ofNat 16 (1024 - k)
  lba : word st.mem 0x7BE6 = BitVec.ofNat 16 (k + 1)
  changes : ChangesOnly (work bios L) m1 st.mem
  data : ∀ i < k, bytesAt st.mem (buffer i) 512 = bios.sector drive (i + 1)

/-- The registers and the frame are kept. -/
structure Keeps (st st' : State Calls) : Prop where
  bp : st'.bp = st.bp
  sp : st'.sp = st.sp
  es : st'.es = st.es
  bx : st'.bx = st.bx

theorem Keeps.trans {st'' : State Calls} (h : Keeps st st') (h' : Keeps st' st'') : Keeps st st'' :=
  ⟨h'.bp.trans h.bp, h'.sp.trans h.sp, h'.es.trans h.es, h'.bx.trans h.bx⟩

/-- A state in which more has been read of sector `k`. -/
theorem AtLoop.keeps (h : AtLoop bios L m1 drive k n st) (hk : k < 1024) (hregs : Keeps st st')
    {n' : Nat} (hreads : st'.dev.reads = n')
    (hmem : ChangesOnly (reading bios L k) st.mem st'.mem) : AtLoop bios L m1 drive k n' st' := by
  have hlow := L.cylinder_ge
  have hhigh := L.errMsg_le
  have hmsg := L.errMsg_ge
  have hframe : ∀ x : BitVec 32, 0x7BE6 ≤ x.toNat → x.toNat < 0x7BEC → x ∉ reading bios L k := by
    intro x h1 h2 hx
    simp only [reading, Set.mem_ofPred_eq] at hx
    omega
  refine ⟨hregs.bp.trans h.bp, hregs.sp.trans h.sp, hregs.es.trans h.es, hregs.bx.trans h.bx,
    hreads, ?_, ?_, ?_, h.changes.trans (hmem.mono (reading_subset hk)), fun i hi => ?_⟩
  · rw [hmem _ (hframe _ (by decide) (by decide)), h.number]
  · rw [word_of_changesOnly hmem (hframe _ (by decide) (by decide))
      (hframe _ (by decide) (by decide)), h.remaining]
  · rw [word_of_changesOnly hmem (hframe _ (by decide) (by decide))
      (hframe _ (by decide) (by decide)), h.lba]
  · rw [← h.data i hi]
    refine bytesAt_congr fun j hj => hmem _ ?_
    have haddr := toNat_buffer (k := i) (by omega) hj
    simp only [reading, Set.mem_ofPred_eq, haddr]
    omega

/-! ### The blocks -/

theorem loop_more (h : AtLoop bios L m1 drive k n st) (hk : k < 1024) :
    ∃ st', Reaches (service bios) (code L) (.block .loop st) (.block .convert st') ∧
      AtLoop bios L m1 drive k n st' := by
  have hzf : (word st.mem (st.bp - 4) == 0) = false := by
    rw [h.bp, show (0x7BEC : BitVec 16) - 4 = 0x7BE8 from rfl, h.remaining, beq_eq_false_iff_ne]
    bv_omega
  refine ⟨_, Reaches.block rfl (leave_jz_next hzf _ _), ?_⟩
  refine h.keeps hk ?_ ?_ ?_
  · exact ⟨rfl, rfl, rfl, rfl⟩
  · exact h.reads
  · exact ChangesOnly.refl _ _

theorem loop_done (h : AtLoop bios L m1 drive 1024 n st) :
    ∃ st', Reaches (service bios) (code L) (.block .loop st) (.block .done st') ∧
      st'.bp = st.bp ∧ st'.mem = st.mem := by
  have hzf : (word st.mem (st.bp - 4) == 0) = true := by
    rw [h.bp, show (0x7BEC : BitVec 16) - 4 = 0x7BE8 from rfl, h.remaining]
    rfl
  exact ⟨_, Reaches.block rfl (leave_jz hzf _ _), rfl, rfl⟩

/-- The state before a read of sector `k`, with `d` of its reads left. -/
structure AtRetry (bios : Bios) (L : Layout) (m1 : Mem) (drive : BitVec 8) (k n d : Nat)
    (st : State Calls) : Prop extends AtLoop bios L m1 drive k n st where
  di : st.di = BitVec.ofNat 16 d
  cylinder : st.mem (addr L.cylinder) = BitVec.ofNat 8 ((k + 1) / 36)
  head : st.mem (addr L.head) = BitVec.ofNat 8 ((k + 1) / 18 % 2)
  sector : st.mem (addr L.sector) = BitVec.ofNat 8 ((k + 1) % 18 + 1)

/-- The conversion of sector number `a`, without a fault. -/
theorem run_convert {a : Nat} (ha : a ≤ 1024)
    (hword : word st.mem (st.bp - 6) = BitVec.ofNat 16 a) :
    ∃ st', run (service bios) st (code L .convert).body = some st' ∧ Keeps st st' ∧
      st'.dev = st.dev ∧ st'.di = 3 ∧
      st'.mem = ((st.mem.store8 (addr L.sector) (BitVec.ofNat 8 (a % 18 + 1))).store8
        (addr L.cylinder) (BitVec.ofNat 8 (a / 36))).store8 (addr L.head)
          (BitVec.ofNat 8 (a / 18 % 2)) := by
  have hword' : (word st.mem (st.bp - 6)).toNat = a := by
    rw [hword, BitVec.toNat_ofNat, Nat.mod_eq_of_lt (by omega)]
  -- up to the first division, from there to the second, and what is left
  obtain ⟨s1, hrun1, hax1, hdx1, hcx1, hkeeps1, hdev1, hmem1⟩ : ∃ s1, run (service bios) st
      [.movLocal .ax 6, .xor .dx .dx, .movImm .cx sectorsPerTrack] = some s1 ∧
        s1.ax = word st.mem (st.bp - 6) ∧ s1.dx = 0 ∧ s1.get .cx = sectorsPerTrack ∧ Keeps st s1 ∧
        s1.dev = st.dev ∧ s1.mem = st.mem :=
    ⟨_, rfl, rfl, BitVec.xor_self, rfl, ⟨rfl, rfl, rfl, rfl⟩, rfl, rfl⟩
  have hdiv1 : exec (service bios) s1 (.div .cx) = some _ := exec_div hdx1 hcx1 (by decide)
  rw [hax1, hword', show sectorsPerTrack.toNat = 18 from rfl] at hdiv1
  obtain ⟨s2, hrun2, hax2, hdx2, hcx2, hkeeps2, hdev2, hmem2⟩ : ∃ s2, run (service bios) s1
      [.div .cx, .inc8 .dl, .store8 L.sector .dl, .xor .dx .dx, .movImm .cx numHeads] = some s2 ∧
        s2.ax = BitVec.ofNat 16 (a / 18) ∧ s2.dx = 0 ∧ s2.get .cx = numHeads ∧ Keeps s1 s2 ∧
        s2.dev = s1.dev ∧ s2.mem = s1.mem.store8 (addr L.sector) (BitVec.ofNat 8 (a % 18 + 1)) := by
    rw [run_cons hdiv1]
    refine ⟨_, rfl, rfl, BitVec.xor_self, rfl, ⟨rfl, rfl, rfl, rfl⟩, rfl, ?_⟩
    refine congrArg (s1.mem.store8 _) ((State.low_append _ _).trans ?_)
    rw [State.get8, State.low_ofNat, BitVec.ofNat_add]
    rfl
  have hdiv2 : exec (service bios) s2 (.div .cx) = some _ := exec_div hdx2 hcx2 (by decide)
  rw [hax2, BitVec.toNat_ofNat, Nat.mod_eq_of_lt (by omega), show numHeads.toNat = 2 from rfl,
    Nat.div_div_eq_div_mul, show 18 * 2 = 36 from rfl] at hdiv2
  obtain ⟨s3, hrun3, hkeeps3, hdev3, hdi3, hmem3⟩ : ∃ s3, run (service bios) s2
      [.div .cx, .store8 L.cylinder .al, .store8 L.head .dl, .movImm .di maxRetries] = some s3 ∧
        Keeps s2 s3 ∧ s3.dev = s2.dev ∧ s3.di = 3 ∧
        s3.mem = (s2.mem.store8 (addr L.cylinder) (BitVec.ofNat 8 (a / 36))).store8 (addr L.head)
          (BitVec.ofNat 8 (a / 18 % 2)) := by
    rw [run_cons hdiv2]
    refine ⟨_, rfl, ⟨rfl, rfl, rfl, rfl⟩, rfl, rfl, ?_⟩
    rw [← State.low_ofNat, ← State.low_ofNat]
    rfl
  refine ⟨s3, ?_, ?_, ?_, hdi3, ?_⟩
  · exact (run_append hrun1 _).trans ((run_append hrun2 _).trans hrun3)
  · exact (hkeeps1.trans hkeeps2).trans hkeeps3
  · rw [hdev3, hdev2, hdev1]
  · rw [hmem3, hmem2, hmem1]

theorem toNat_scratch (L : Layout) : (addr L.cylinder).toNat = L.cylinder.toNat ∧
    (addr L.head).toNat = L.cylinder.toNat + 1 ∧ (addr L.sector).toNat = L.cylinder.toNat + 2 := by
  have h1 := L.errMsg_ge
  have h2 := L.errMsg_le
  refine ⟨toNat_addr _, ?_, ?_⟩
  · rw [toNat_addr, Layout.head]
    bv_omega
  · rw [toNat_addr, Layout.sector]
    bv_omega

theorem convert_retry (h : AtLoop bios L m1 drive k n st) (hk : k < 1024) :
    ∃ st', Reaches (service bios) (code L) (.block .convert st) (.block .retry st') ∧
      AtRetry bios L m1 drive k n 3 st' := by
  have hword : word st.mem (st.bp - 6) = BitVec.ofNat 16 (k + 1) := by
    rw [h.bp]
    exact h.lba
  obtain ⟨st', hrun, hregs, hdev, hdi, hmem⟩ := @run_convert bios L st _ hk hword
  obtain ⟨hcyl, hhead, hsec⟩ := toNat_scratch L
  have hne : addr L.cylinder ≠ addr L.head ∧ addr L.sector ≠ addr L.head ∧
      addr L.sector ≠ addr L.cylinder := by
    simp only [ne_eq, ← BitVec.toNat_inj, hcyl, hhead, hsec]
    omega
  have hchanges : ChangesOnly (reading bios L k) st.mem st'.mem := by
    intro x hx
    simp only [reading, Set.mem_ofPred_eq] at hx
    simp only [hmem, Mem.store8, ← BitVec.toNat_inj, hcyl, hhead, hsec]
    rw [if_neg (by omega), if_neg (by omega), if_neg (by omega)]
  refine ⟨st', Reaches.block hrun rfl, h.keeps hk hregs (by rw [hdev, h.reads]) hchanges, hdi,
    ?_, ?_, ?_⟩
  · rw [hmem, Mem.store8, if_neg hne.1, Mem.store8_self]
  · rw [hmem, Mem.store8_self]
  · rw [hmem, Mem.store8, if_neg hne.2.1, Mem.store8, if_neg hne.2.2, Mem.store8_self]

/-! ### The reads of one sector -/

/-- The stack below the frame. -/
def stackBelow (bios : Bios) : Set (BitVec 32) :=
  {x | 0x7BE6 - bios.depth ≤ x.toNat ∧ x.toNat < 0x7BE6}

theorem changesOnly_apply (r : Reply bios.depth) (hsp : st.sp = 0x7BE6) :
    ChangesOnly (stackBelow bios) st.mem (r.apply st).mem := by
  have hdepth := bios.depth_le
  have hlen := r.length_below
  refine (Mem.changesOnly_writeBytes _ _ _).mono fun x hx => ?_
  have haddr : (addr st.sp - BitVec.ofNat 32 r.below.length).toNat = 0x7BE6 - r.below.length := by
    rw [hsp]
    have : (addr 0x7BE6).toNat = 0x7BE6 := rfl
    bv_omega
  rw [mem_span_iff (by omega), haddr] at hx
  simp only [stackBelow, Set.mem_ofPred_eq]
  omega

/-- A state in which nothing but the stack below the frame has changed. -/
theorem AtRetry.keeps {d d' n' : Nat} (h : AtRetry bios L m1 drive k n d st) (hk : k < 1024)
    (hregs : Keeps st st') (hreads : st'.dev.reads = n') (hdi : st'.di = BitVec.ofNat 16 d')
    (hmem : ChangesOnly (stackBelow bios) st.mem st'.mem) :
    AtRetry bios L m1 drive k n' d' st' := by
  have hlow := L.cylinder_ge
  obtain ⟨hcyl, hhead, hsec⟩ := toNat_scratch L
  have hscratch : ∀ x : BitVec 32, L.cylinder.toNat ≤ x.toNat → x ∉ stackBelow bios := by
    intro x h1 hx
    simp only [stackBelow, Set.mem_ofPred_eq] at hx
    omega
  have hloop := h.toAtLoop.keeps hk hregs hreads (hmem.mono fun x hx => Or.inl hx)
  refine ⟨hloop, hdi, ?_, ?_, ?_⟩
  · rw [hmem _ (hscratch _ (by omega)), h.cylinder]
  · rw [hmem _ (hscratch _ (by omega)), h.head]
  · rw [hmem _ (hscratch _ (by omega)), h.sector]

/-- The registers when the BIOS is asked for a sector. -/
theorem run_retry (st : State Calls) : ∃ s, run (service bios) st (code L .retry).body =
      some (int13 bios s) ∧ Keeps st s ∧ s.di = st.di ∧ s.dev = st.dev ∧ s.mem = st.mem ∧
      s.get8 .ah = 2 ∧ s.get8 .al = 1 ∧ s.get8 .ch = st.mem (addr L.cylinder) ∧
      s.get8 .cl = st.mem (addr L.sector) ∧ s.get8 .dh = st.mem (addr L.head) ∧
      s.get8 .dl = st.mem (addr (st.bp - 2)) := by
  refine ⟨_, rfl, ⟨rfl, rfl, rfl, rfl⟩, rfl, rfl, rfl, ?_⟩
  simp only [State.get8, State.set8, State.low_append, State.high_append, and_self]

theorem int13_carry {s : State Calls} (hah : s.get8 .ah = 2) (hal : s.get8 .al = 1)
    (hcarry : (bios.read s.dev.reads).carry = true) :
    int13 bios s = { (bios.read s.dev.reads).apply s with
      dev := { s.dev with reads := s.dev.reads + 1 } } := by
  rw [int13, if_pos ⟨hah, hal⟩]
  exact if_pos hcarry

theorem int13_read {s : State Calls} (hah : s.get8 .ah = 2) (hal : s.get8 .al = 1)
    (hcarry : (bios.read s.dev.reads).carry = false) :
    int13 bios s = { (bios.read s.dev.reads).apply s with
      dev := { s.dev with reads := s.dev.reads + 1 }
      mem := writeBytes ((bios.read s.dev.reads).apply s).mem (linear s.es s.bx)
        (bios.sector (s.get8 .dl) (lba (s.get8 .ch) (s.get8 .cl) (s.get8 .dh))) } := by
  rw [int13, if_pos ⟨hah, hal⟩]
  exact if_neg (by simp [hcarry])

theorem retry_fails {d : Nat} (h : AtRetry bios L m1 drive k n d st) (hk : k < 1024)
    (hcarry : (bios.read n).carry = true) :
    ∃ st', Reaches (service bios) (code L) (.block .retry st) (.block .readFailed st') ∧
      AtRetry bios L m1 drive k (n + 1) d st' := by
  obtain ⟨s, hrun, hregs, hdi, hdev, hmem, hah, hal, -⟩ := @run_retry bios L st
  have hreads : s.dev.reads = n := by rw [hdev, h.reads]
  rw [← hreads] at hcarry
  rw [int13_carry hah hal hcarry] at hrun
  refine ⟨_, Reaches.block hrun (leave_jnc_next hcarry _ _), h.keeps hk ?_ ?_ ?_ ?_⟩
  · exact ⟨hregs.bp, hregs.sp, hregs.es, hregs.bx⟩
  · exact congrArg (· + 1) hreads
  · exact hdi.trans h.di
  · rw [← hmem]
    exact changesOnly_apply _ (hregs.sp.trans h.sp)

/-- Sector `k + 1` as it is addressed. -/
theorem lba_eq (hk : k < 1024) :
    lba (BitVec.ofNat 8 ((k + 1) / 36)) (BitVec.ofNat 8 ((k + 1) % 18 + 1))
      (BitVec.ofNat 8 ((k + 1) / 18 % 2)) = k + 1 := by
  simp only [lba, BitVec.toNat_ofNat]
  omega

theorem linear_eq (hk : k < 1024) : linear (BitVec.ofNat 16 (0x7E0 + 32 * k)) 0 = buffer k := by
  rw [linear, buffer]
  bv_omega

/-- A read that succeeds loads sector `k`. -/
theorem retry_reads {d : Nat} (h : AtRetry bios L m1 drive k n d st) (hk : k < 1024)
    (hcarry : (bios.read n).carry = false) :
    ∃ st', Reaches (service bios) (code L) (.block .retry st) (.block .readOk st') ∧
      AtLoop bios L m1 drive k (n + 1) st' ∧
      bytesAt st'.mem (buffer k) 512 = bios.sector drive (k + 1) := by
  obtain ⟨s, hrun, hregs, -, hdev, hmem, hah, hal, hch, hcl, hdh, hdl⟩ := @run_retry bios L st
  have hreads : s.dev.reads = n := by rw [hdev, h.reads]
  have hlength := bios.length_sector drive (k + 1)
  have hnumber : s.get8 .dl = drive := by
    rw [hdl, h.bp]
    exact h.number
  have hlba : lba (s.get8 .ch) (s.get8 .cl) (s.get8 .dh) = k + 1 := by
    rw [hch, hcl, hdh, h.cylinder, h.sector, h.head, lba_eq hk]
  have hbuffer : linear s.es s.bx = buffer k := by
    rw [hregs.es, hregs.bx, h.es, h.bx, linear_eq hk]
  rw [← hreads] at hcarry
  rw [int13_read hah hal hcarry, hnumber, hlba, hbuffer] at hrun
  refine ⟨_, Reaches.block hrun (leave_jnc hcarry _ _), h.toAtLoop.keeps hk ?_ ?_ ?_, ?_⟩
  · exact ⟨hregs.bp, hregs.sp, hregs.es, hregs.bx⟩
  · exact congrArg (· + 1) hreads
  · rw [← hmem]
    refine ((changesOnly_apply _ (hregs.sp.trans h.sp)).mono fun x hx => Or.inl hx).trans
      ((Mem.changesOnly_writeBytes _ _ _).mono fun x hx => Or.inr (Or.inr ?_))
    have haddr := @toNat_buffer k (by omega) 0 (by decide)
    rw [BitVec.add_zero] at haddr
    rw [hlength, mem_span_iff (by omega)] at hx
    omega
  · have hdata := bytesAt_writeBytes ((bios.read s.dev.reads).apply s).mem (buffer k)
      (show (bios.sector drive (k + 1)).length ≤ 2 ^ 32 by omega)
    rwa [hlength] at hdata

theorem readFailed_last (h : AtRetry bios L m1 drive k n 1 st) (hk : k < 1024) :
    ∃ st', Reaches (service bios) (code L) (.block .readFailed st) (.block .fail st') ∧
      AtLoop bios L m1 drive k n st' := by
  have hzf : (st.di - 1 == 0) = true := by
    rw [h.di]
    rfl
  refine ⟨_, Reaches.block rfl (leave_jz hzf _ _), h.toAtLoop.keeps hk ?_ ?_ ?_⟩
  · exact ⟨rfl, rfl, rfl, rfl⟩
  · exact h.reads
  · exact ChangesOnly.refl _ _

theorem readFailed_more {d : Nat} (h : AtRetry bios L m1 drive k n (d + 2) st) (hk : k < 1024)
    (hd : d + 2 ≤ 3) :
    ∃ st', Reaches (service bios) (code L) (.block .readFailed st) (.block .reset st') ∧
      AtRetry bios L m1 drive k n (d + 1) st' := by
  have hdi : st.di - 1 = BitVec.ofNat 16 (d + 1) := by
    rw [h.di]
    bv_omega
  have hzf : (st.di - 1 == 0) = false := by
    rw [hdi, beq_eq_false_iff_ne]
    bv_omega
  refine ⟨_, Reaches.block rfl (leave_jz_next hzf _ _), h.keeps hk ?_ ?_ ?_ ?_⟩
  · exact ⟨rfl, rfl, rfl, rfl⟩
  · exact h.reads
  · exact hdi
  · exact ChangesOnly.refl _ _

theorem run_reset (st : State Calls) : ∃ s, run (service bios) st (code L .reset).body =
      some (int13 bios s) ∧ Keeps st s ∧ s.di = st.di ∧ s.dev = st.dev ∧ s.mem = st.mem ∧
      s.get8 .ah = 0 := by
  refine ⟨_, rfl, ⟨rfl, rfl, rfl, rfl⟩, rfl, rfl, rfl, ?_⟩
  simp only [State.get8, State.set8, State.setFlags, State.high_append, BitVec.xor_self]
  rfl

/-- The disk is reset, whatever the reply to that. -/
theorem reset_retry {d : Nat} (h : AtRetry bios L m1 drive k n d st) (hk : k < 1024) :
    ∃ st', Reaches (service bios) (code L) (.block .reset st) (.block .retry st') ∧
      AtRetry bios L m1 drive k n d st' := by
  obtain ⟨s, hrun, hregs, hdi, hdev, hmem, hah⟩ := @run_reset bios L st
  have hreset : int13 bios s = { (bios.reset s.dev.resets).apply s with
      dev := { s.dev with resets := s.dev.resets + 1 } } := by
    rw [int13]
    refine if_neg fun hread => ?_
    rw [hah] at hread
    exact absurd hread.1 (by decide)
  rw [hreset] at hrun
  refine ⟨_, Reaches.block hrun rfl, h.keeps hk ?_ ?_ ?_ ?_⟩
  · exact ⟨hregs.bp, hregs.sp, hregs.es, hregs.bx⟩
  · exact (congrArg Calls.reads hdev).trans h.reads
  · exact hdi.trans h.di
  · rw [← hmem]
    exact changesOnly_apply _ (hregs.sp.trans h.sp)

/-- The counters after a sector has been loaded. -/
def advance (m : Mem) (k : Nat) : Mem :=
  setWord (setWord m 0x7BE6 (BitVec.ofNat 16 (k + 1) + 1)) 0x7BE8 (BitVec.ofNat 16 (1024 - k) - 1)

theorem changesOnly_advance (m : Mem) (k : Nat) :
    ChangesOnly {x | 0x7BE6 ≤ x.toNat ∧ x.toNat < 0x7BEA} m (advance m k) := by
  refine ((changesOnly_setWord _ _ _).mono fun x hx => ?_).trans
    ((changesOnly_setWord _ _ _).mono fun x hx => ?_)
  · rcases hx with rfl | rfl <;> decide
  · rcases hx with rfl | rfl <;> decide

theorem run_readOk (h : AtLoop bios L m1 drive k n st) : ∃ st', run (service bios) st
      (code L .readOk).body = some st' ∧ st'.bp = st.bp ∧ st'.sp = st.sp ∧ st'.es = st.es + 32 ∧
      st'.bx = st.bx ∧ st'.dev = st.dev ∧ st'.mem = advance st.mem k := by
  refine ⟨_, rfl, rfl, rfl, rfl, rfl, rfl, ?_⟩
  show setWord (setWord st.mem (st.bp - 6) (word st.mem (st.bp - 6) + 1)) (st.bp - 4)
    (word (setWord st.mem (st.bp - 6) (word st.mem (st.bp - 6) + 1)) (st.bp - 4) - 1) = _
  rw [h.bp, show (0x7BEC : BitVec 16) - 6 = 0x7BE6 from rfl,
    show (0x7BEC : BitVec 16) - 4 = 0x7BE8 from rfl, word_setWord_ne _ _ (by decide), h.lba,
    h.remaining, advance]

theorem readOk_loop (h : AtLoop bios L m1 drive k n st) (hk : k < 1024)
    (hdata : bytesAt st.mem (buffer k) 512 = bios.sector drive (k + 1)) :
    ∃ st', Reaches (service bios) (code L) (.block .readOk st) (.block .loop st') ∧
      AtLoop bios L m1 drive (k + 1) n st' := by
  obtain ⟨st', hrun, hbp, hsp, hes, hbx, hdev, hmem⟩ := run_readOk h
  have hchanges := changesOnly_advance st.mem k
  rw [← hmem] at hchanges
  refine ⟨st', Reaches.block hrun rfl, hbp.trans h.bp, hsp.trans h.sp, ?_, hbx.trans h.bx,
    (congrArg Calls.reads hdev).trans h.reads, ?_, ?_, ?_, ?_, fun i hi => ?_⟩
  · rw [hes, h.es]
    bv_omega
  · rw [hchanges _ (by decide), h.number]
  · rw [hmem, advance, word_setWord_self]
    bv_omega
  · rw [hmem, advance, word_setWord_ne _ _ (by decide), word_setWord_self]
    bv_omega
  · refine h.changes.trans (hchanges.mono fun x hx => Or.inl ?_)
    simp only [Set.mem_ofPred_eq] at hx
    omega
  · have hkept : bytesAt st'.mem (buffer i) 512 = bytesAt st.mem (buffer i) 512 := by
      refine bytesAt_congr fun j hj => hchanges _ ?_
      have haddr := @toNat_buffer i (by omega) j hj
      simp only [Set.mem_ofPred_eq, haddr]
      omega
    rw [hkept]
    rcases Nat.lt_succ_iff_lt_or_eq.mp hi with hlt | rfl
    · exact h.data i hlt
    · exact hdata

theorem retry_once {d : Nat} (h : AtRetry bios L m1 drive k n d st) (hk : k < 1024) :
    ((bios.read n).carry = false ∧
      ∃ st', Reaches (service bios) (code L) (.block .retry st) (.block .loop st') ∧
        AtLoop bios L m1 drive (k + 1) (n + 1) st') ∨
    (bios.read n).carry = true ∧
      ∃ st', Reaches (service bios) (code L) (.block .retry st) (.block .readFailed st') ∧
        AtRetry bios L m1 drive k (n + 1) d st' := by
  cases hcarry : (bios.read n).carry with
  | false =>
    obtain ⟨st1, hreach1, h1, hdata⟩ := retry_reads h hk hcarry
    obtain ⟨st2, hreach2, h2⟩ := readOk_loop h1 hk hdata
    exact Or.inl ⟨rfl, st2, hreach1.trans hreach2, h2⟩
  | true => exact Or.inr ⟨rfl, retry_fails h hk hcarry⟩

/-- The reads of a sector with `d + 1` of them left: one of them succeeds and the sector is loaded, or
all of them fail. -/
theorem retry_loop {d : Nat} (hd : d < 3) (h : AtRetry bios L m1 drive k n (d + 1) st)
    (hk : k < 1024) :
    (∃ j ≤ d, (∀ i < j, (bios.read (n + i)).carry = true) ∧ (bios.read (n + j)).carry = false ∧
      ∃ st', Reaches (service bios) (code L) (.block .retry st) (.block .loop st') ∧
        AtLoop bios L m1 drive (k + 1) (n + (j + 1)) st') ∨
    (∀ i ≤ d, (bios.read (n + i)).carry = true) ∧
      ∃ st', Reaches (service bios) (code L) (.block .retry st) (.block .fail st') ∧
        AtLoop bios L m1 drive k (n + (d + 1)) st' := by
  induction d generalizing n st with
  | zero =>
    rcases retry_once h hk with ⟨hread, st1, hreach, h1⟩ | ⟨hfail, st1, hreach1, h1⟩
    · exact Or.inl ⟨0, le_refl 0, fun i hi => absurd hi (Nat.not_lt_zero i), hread, st1, hreach, h1⟩
    · obtain ⟨st2, hreach2, h2⟩ := readFailed_last h1 hk
      refine Or.inr ⟨fun i hi => ?_, st2, hreach1.trans hreach2, h2⟩
      rwa [Nat.le_zero.mp hi]
  | succ d ih =>
    rcases retry_once h hk with ⟨hread, st1, hreach, h1⟩ | ⟨hfail, st1, hreach1, h1⟩
    · exact Or.inl ⟨0, Nat.zero_le _, fun i hi => absurd hi (Nat.not_lt_zero i), hread, st1, hreach,
        h1⟩
    · obtain ⟨st2, hreach2, h2⟩ := readFailed_more h1 hk (by omega)
      obtain ⟨st3, hreach3, h3⟩ := reset_retry h2 hk
      have hreach := (hreach1.trans hreach2).trans hreach3
      have hnext : ∀ j, n + 1 + j = n + (j + 1) := fun j => by omega
      rcases ih (by omega) h3 with
        ⟨j, hj, hfails, hread, st4, hreach4, h4⟩ | ⟨hfails, st4, hreach4, h4⟩
      · refine Or.inl ⟨j + 1, by omega, fun i hi => ?_, ?_, st4, hreach.trans hreach4, ?_⟩
        · cases i with
          | zero => exact hfail
          | succ i =>
            rw [← hnext]
            exact hfails i (by omega)
        · rwa [hnext] at hread
        · rwa [hnext] at h4
      · refine Or.inr ⟨fun i hi => ?_, st4, hreach.trans hreach4, ?_⟩
        · cases i with
          | zero => exact hfail
          | succ i =>
            rw [← hnext]
            exact hfails i (by omega)
        · rwa [hnext] at h4

/-! ### All sectors -/

/-- Reads that fail do not count. -/
theorem count_add_fails {j : Nat} (hfails : ∀ i < j, (bios.read (n + i)).carry = true) :
    Nat.count (fun i => (bios.read i).carry = false) (n + j) =
      Nat.count (fun i => (bios.read i).carry = false) n := by
  induction j with
  | zero => rfl
  | succ j ih =>
    rw [← Nat.add_assoc, Nat.count_succ, ih fun i hi => hfails i (by omega), if_neg, Nat.add_zero]
    rw [hfails j (by omega)]
    decide

/-- The loop from sector `k` on, after `n` reads of which `k` have succeeded and no three in a row have
failed: all sectors are loaded, or one of them fails three times. -/
theorem loop_run (hk : k ≤ 1024) (h : AtLoop bios L m1 drive k n st)
    (hcount : Nat.count (fun i => (bios.read i).carry = false) n = k)
    (hreads : ∀ j < n, ∃ i < 3, (bios.read (j + i)).carry = false) :
    (¬ GivesUp bios ∧ ∃ n' st',
      Reaches (service bios) (code L) (.block .loop st) (.block .loop st') ∧
        AtLoop bios L m1 drive 1024 n' st') ∨
    GivesUp bios ∧ ∃ k' n' st',
      Reaches (service bios) (code L) (.block .loop st) (.block .fail st') ∧
        AtLoop bios L m1 drive k' n' st' := by
  induction hr : 1024 - k generalizing k n st with
  | zero =>
    obtain rfl : k = 1024 := by omega
    refine Or.inl ⟨?_, n, st, Reaches.refl _, h⟩
    rintro ⟨j, hj, hfails⟩
    -- with fewer than 1024 sectors read, `j` is one of the reads that were made
    have hlt : j < n := by
      by_contra hle
      have := Nat.count_monotone (fun i => (bios.read i).carry = false) (Nat.le_of_not_lt hle)
      omega
    obtain ⟨i, hi, hread⟩ := hreads j hlt
    rw [hfails i hi] at hread
    cases hread
  | succ r ih =>
    obtain ⟨st1, hreach1, h1⟩ := loop_more h (by omega)
    obtain ⟨st2, hreach2, h2⟩ := convert_retry h1 (by omega)
    have hreach := hreach1.trans hreach2
    rcases retry_loop (by decide) h2 (by omega) with
      ⟨j, hj, hfails, hread, st3, hreach3, h3⟩ | ⟨hfails, st3, hreach3, h3⟩
    · have hcount' : Nat.count (fun i => (bios.read i).carry = false) (n + (j + 1)) = k + 1 := by
        rw [← Nat.add_assoc, Nat.count_succ, count_add_fails hfails, if_pos hread, hcount]
      have hreads' : ∀ i < n + (j + 1), ∃ d < 3, (bios.read (i + d)).carry = false := by
        intro i hi
        rcases Nat.lt_or_ge i n with hlt | hge
        · exact hreads i hlt
        · refine ⟨n + j - i, by omega, ?_⟩
          rwa [show i + (n + j - i) = n + j by omega]
      rcases ih (by omega) h3 hcount' hreads' (by omega) with
        ⟨hnot, n', st4, hreach4, h4⟩ | ⟨hgives, k', n', st4, hreach4, h4⟩
      · exact Or.inl ⟨hnot, n', st4, (hreach.trans hreach3).trans hreach4, h4⟩
      · exact Or.inr ⟨hgives, k', n', st4, (hreach.trans hreach3).trans hreach4, h4⟩
    · refine Or.inr ⟨⟨n, by omega, fun i hi => hfails i (by omega)⟩, k, _, st3,
        hreach.trans hreach3, h3⟩

end Stage1

end Sapphire
