import Sapphire.Stage1.Sectors

/-! The whole call of `disk_read`: it sets up its frame, runs the loop, and either restores the
registers and returns or prints its message and stays in `.halt`. -/

namespace Sapphire

open Machine RealMode

namespace Stage1

variable {bios : Bios} {L : Layout} {drive : BitVec 8} {k n : Nat} {st : State Calls}

/-! ### The frame -/

/-- What is on the stack after `pusha`, from the return address on. -/
def saved (s : State Calls) (back : BitVec 16) : List (BitVec 16) :=
  [back, s.ax, s.cx, s.dx, s.bx, s.sp - 2, s.bp, s.si, s.di]

/-- What is on the stack in the loop. -/
def frame (s : State Calls) (back : BitVec 16) : List (BitVec 16) :=
  saved s back ++ [s.bp, (s.get8 .dh ^^^ s.get8 .dh) ++ s.get8 .dl, sectorsToRead, 1]

variable {s s' : State Calls} {back : BitVec 16}

theorem length_frame (s : State Calls) (back : BitVec 16) : (frame s back).length = 13 := rfl

theorem run_pusha (s : State Calls) (back : BitVec 16) :
    run (service bios) (s.push back) [.pusha] = some (s.pushAll (saved s back)) := by
  rw [show saved s back = [back] ++ [s.ax, s.cx, s.dx, s.bx, s.sp - 2, s.bp, s.si, s.di] from rfl,
    State.pushAll_append]
  rfl

theorem run_diskRead (s : State Calls) (back : BitVec 16) :
    ∃ st', run (service bios) (s.push back) (code L .diskRead).body = some st' ∧
      st'.mem = (s.pushAll (frame s back)).mem ∧ st'.sp = (s.pushAll (frame s back)).sp ∧
      st'.bp = (s.pushAll (saved s back)).sp - 2 ∧ st'.es = s.bx >>> 4 + s.es ∧
      st'.bx = 0 ∧ st'.dev = s.dev := by
  have hrun1 := @run_pusha bios s back
  rw [@State.pushAll_eq Calls s s rfl rfl] at hrun1
  obtain ⟨s2, hrun2, hmem2, hsp2, hbp2, hdx2, hes2, hbx2, hdev2⟩ : ∃ s2, run (service bios)
      { s with sp := (s.pushAll (saved s back)).sp, mem := (s.pushAll (saved s back)).mem }
      [.mov .ax .bx, .shr .ax 4, .mov .cx .es, .add .ax .cx, .mov .es .ax, .xor .bx .bx] = some s2 ∧
        s2.mem = (s.pushAll (saved s back)).mem ∧ s2.sp = (s.pushAll (saved s back)).sp ∧
        s2.bp = s.bp ∧ s2.dx = s.dx ∧ s2.es = s.bx >>> 4 + s.es ∧ s2.bx = 0 ∧ s2.dev = s.dev :=
    ⟨_, rfl, rfl, rfl, rfl, rfl, rfl, BitVec.xor_self, rfl⟩
  obtain ⟨s3, hrun3, hmem3, hsp3, hbp3, hdx3, hes3, hbx3, hdev3⟩ : ∃ s3, run (service bios) s2
      [.push .bp, .mov .bp .sp, .xor8 .dh .dh] = some s3 ∧ s3.mem = (s2.pushAll [s2.bp]).mem ∧
        s3.sp = (s2.pushAll [s2.bp]).sp ∧ s3.bp = s2.sp - 2 ∧
        s3.dx = (s2.get8 .dh ^^^ s2.get8 .dh) ++ s2.get8 .dl ∧ s3.es = s2.es ∧ s3.bx = s2.bx ∧
        s3.dev = s2.dev :=
    ⟨_, rfl, rfl, rfl, rfl, rfl, rfl, rfl, rfl⟩
  have hrun4 : run (service bios) s3 [.push .dx, .pushImm sectorsToRead, .pushImm 1] =
      some (s3.pushAll [s3.dx, sectorsToRead, 1]) := rfl
  have hdx : s3.dx = (s.get8 .dh ^^^ s.get8 .dh) ++ s.get8 .dl := by
    simp only [hdx3, State.get8, hdx2]
  have hframe : saved s back ++ [s.bp] ++ [s3.dx, sectorsToRead, 1] = frame s back := by
    rw [hdx]
    rfl
  -- nothing but the pushes has changed the stack
  have hpush : s3.pushAll [s3.dx, sectorsToRead, 1] = { s3 with
      sp := (s.pushAll (frame s back)).sp, mem := (s.pushAll (frame s back)).mem } := by
    rw [← hframe, State.pushAll_append, State.pushAll_append]
    rw [hbp2, State.pushAll_eq hsp2 hmem2] at hmem3 hsp3
    exact State.pushAll_eq hsp3 hmem3 _
  rw [hpush] at hrun4
  have hrun34 := (run_append hrun3 _).trans hrun4
  refine ⟨_, (run_append hrun1 _).trans ((run_append hrun2 _).trans hrun34), rfl, rfl, ?_,
    hes3.trans hes2, hbx3.trans hbx2, hdev3.trans hdev2⟩
  exact hbp3.trans (congrArg (· - 2) hsp2)

theorem sp_frame (h : AtCall L s) : (s.pushAll (frame s back)).sp = 0x7BE6 := by
  rw [State.sp_pushAll, h.sp, length_frame]
  rfl

/-- The words of the frame, by their offsets. -/
theorem word_frame {i : Nat} (h : AtCall L s) (hi : i < 13) :
    (frame s back).reverse[i]? =
      some (word (s.pushAll (frame s back)).mem (0x7BE6 + BitVec.ofNat 16 (2 * i))) := by
  rw [← sp_frame h]
  exact s.stackWord_pushAll (by rw [length_frame]; decide) hi

theorem changesOnly_frame (h : AtCall L s) :
    ChangesOnly {x | 0x7BE6 ≤ x.toNat ∧ x.toNat < 0x7C00} s.mem (s.pushAll (frame s back)).mem := by
  have hchanges := s.changesOnly_pushAll (show 2 * (frame s back).length ≤ s.sp.toNat by
    rw [h.sp, length_frame]
    decide)
  rwa [h.sp] at hchanges

/-- The frame is set up. -/
theorem diskRead_loop (h : AtCall L s) (back : BitVec 16) :
    ∃ st', Reaches (service bios) (code L) (callDiskRead s back) (.block .loop st') ∧
      AtLoop bios L (s.pushAll (frame s back)).mem (s.get8 .dl) 0 0 st' := by
  obtain ⟨st', hrun, hmem, hsp, hbp, hes, hbx, hdev⟩ := @run_diskRead bios L s back
  have hnumber : some ((s.get8 .dh ^^^ s.get8 .dh) ++ s.get8 .dl) = some (word st'.mem 0x7BEA) := by
    rw [hmem]
    exact @word_frame L s back 2 h (by decide)
  refine ⟨st', Reaches.block hrun rfl, ?_, hsp.trans (sp_frame h), ?_, hbx,
    (congrArg Calls.reads hdev).trans h.reads, ?_, ?_, ?_, ?_, fun i hi => absurd hi (by omega)⟩
  · rw [hbp, State.sp_pushAll, h.sp, show (saved s back).length = 9 from rfl]
    rfl
  · rw [hes, h.bx, h.es]
    rfl
  · have hlow := congrArg State.low (Option.some_inj.mp hnumber)
    rw [State.low_append, word, State.low_append] at hlow
    exact hlow.symm
  · have hword := @word_frame L s back 1 h (by decide)
    rw [hmem]
    exact (Option.some_inj.mp hword).symm
  · have hword := @word_frame L s back 0 h (by decide)
    rw [hmem]
    exact (Option.some_inj.mp hword).symm
  · rw [hmem]
    exact ChangesOnly.refl _ _

/-! ### The return -/

/-- The general registers are the same. -/
structure Restored (s s' : State Calls) : Prop where
  ax : s'.ax = s.ax
  bx : s'.bx = s.bx
  cx : s'.cx = s.cx
  dx : s'.dx = s.dx
  si : s'.si = s.si
  di : s'.di = s.di
  bp : s'.bp = s.bp
  sp : s'.sp = s.sp

/-- The words of the frame that are popped, after the loop. -/
theorem word_saved (h : AtCall L s) {m : Mem} {i : Nat}
    (hchanges : ChangesOnly (work bios L) (s.pushAll (frame s back)).mem m) (hlow : 3 ≤ i)
    (hi : i < 13) :
    (frame s back).reverse[i]? = some (word m (0x7BE6 + BitVec.ofNat 16 (2 * i))) := by
  have hcyl := L.cylinder_ge
  have hoff : ∀ j < 2,
      addr (0x7BE6 + BitVec.ofNat 16 (2 * i) + BitVec.ofNat 16 j) ∉ work bios L := by
    intro j hj hx
    have haddr : (addr (0x7BE6 + BitVec.ofNat 16 (2 * i) + BitVec.ofNat 16 j)).toNat =
        0x7BE6 + 2 * i + j := by
      rw [toNat_addr]
      bv_omega
    simp only [work, Set.mem_ofPred_eq, haddr] at hx
    omega
  have hzero := hoff 0 (by decide)
  rw [BitVec.add_zero] at hzero
  rw [word_frame h hi, word_of_changesOnly hchanges hzero (hoff 1 (by decide))]

theorem done_returned (h : AtCall L s) (hbp : st.bp = 0x7BEC)
    (hchanges : ChangesOnly (work bios L) (s.pushAll (frame s back)).mem st.mem) :
    ∃ st', Reaches (service bios) (code L) (.block .done st) (.returned back st') ∧
      st'.mem = st.mem ∧ Restored s st' := by
  obtain ⟨s1, hrun, hmem, hsp, hbp1, hdi, hsi, hbx, hdx, hcx, hax⟩ : ∃ s1, run (service bios) st
      (code L .done).body = some s1 ∧ s1.mem = st.mem ∧ s1.sp = st.bp + 2 + 16 ∧
        s1.bp = word st.mem (st.bp + 2 + BitVec.ofNat 16 (2 * 2)) ∧
        s1.di = word st.mem (st.bp + 2 + BitVec.ofNat 16 (2 * 0)) ∧
        s1.si = word st.mem (st.bp + 2 + BitVec.ofNat 16 (2 * 1)) ∧
        s1.bx = word st.mem (st.bp + 2 + BitVec.ofNat 16 (2 * 4)) ∧
        s1.dx = word st.mem (st.bp + 2 + BitVec.ofNat 16 (2 * 5)) ∧
        s1.cx = word st.mem (st.bp + 2 + BitVec.ofNat 16 (2 * 6)) ∧
        s1.ax = word st.mem (st.bp + 2 + BitVec.ofNat 16 (2 * 7)) :=
    ⟨_, rfl, rfl, rfl, rfl, rfl, rfl, rfl, rfl, rfl, rfl⟩
  rw [hbp] at hsp hbp1 hdi hsi hbx hdx hcx hax
  have hword : ∀ i < 13, 3 ≤ i → (frame s back).reverse[i]? =
      some (word st.mem (0x7BE6 + BitVec.ofNat 16 (2 * i))) :=
    fun i hi hlow => word_saved h hchanges hlow hi
  refine ⟨{ s1 with sp := s1.sp + 2 }, Reaches.block hrun ?_, hmem, ?_⟩
  · have hback : s1.stackWord 0 = back := by
      rw [State.stackWord, hmem, hsp]
      exact (Option.some_inj.mp (hword 12 (by decide) (by decide))).symm
    exact congrArg (Config.returned · _) hback
  · exact {
      ax := hax.trans (Option.some_inj.mp (hword 11 (by decide) (by decide))).symm
      bx := hbx.trans (Option.some_inj.mp (hword 8 (by decide) (by decide))).symm
      cx := hcx.trans (Option.some_inj.mp (hword 10 (by decide) (by decide))).symm
      dx := hdx.trans (Option.some_inj.mp (hword 9 (by decide) (by decide))).symm
      si := hsi.trans (Option.some_inj.mp (hword 5 (by decide) (by decide))).symm
      di := hdi.trans (Option.some_inj.mp (hword 4 (by decide) (by decide))).symm
      bp := hbp1.trans (Option.some_inj.mp (hword 6 (by decide) (by decide))).symm
      sp := by
        show s1.sp + 2 = s.sp
        rw [hsp, h.sp]
        rfl }

/-! ### The error path -/

/-- `i` characters of the message have been printed. -/
structure AtPrint (L : Layout) (i : Nat) (st : State Calls) : Prop where
  sp : st.sp = 0x7BE6
  si : st.si = L.errMsg + BitVec.ofNat 16 i
  message : bytesAt st.mem (addr L.errMsg) 18 = message

/-- The address of a byte of the message. -/
theorem addr_errMsg (L : Layout) {i : Nat} (hi : i < 18) :
    addr (L.errMsg + BitVec.ofNat 16 i) = addr L.errMsg + BitVec.ofNat 32 i := by
  have hhigh := L.errMsg_le
  apply BitVec.eq_of_toNat_eq
  rw [toNat_addr, BitVec.toNat_add, BitVec.toNat_add, toNat_addr, BitVec.toNat_ofNat,
    BitVec.toNat_ofNat]
  omega

theorem message_congr {m m' : Mem} {S : Set (BitVec 32)}
    (hm : bytesAt m (addr L.errMsg) 18 = message) (hchanges : ChangesOnly S m m')
    (hS : ∀ x : BitVec 32, L.errMsg.toNat ≤ x.toNat → x.toNat < 0x7E00 → x ∉ S) :
    bytesAt m' (addr L.errMsg) 18 = message := by
  have hhigh := L.errMsg_le
  rw [← hm]
  refine bytesAt_congr fun j hj => hchanges _ ?_
  rw [← addr_errMsg L hj]
  refine hS _ ?_ ?_ <;> rw [toNat_addr] <;> bv_omega

theorem AtPrint.byte {i : Nat} (h : AtPrint L i st) (hi : i < 18) :
    Stage1.message[i]? = some (st.mem (addr st.si)) := by
  rw [h.si, addr_errMsg L hi]
  exact (bytesAt_eq_iff (by decide)).mp h.message i hi

theorem run_print (st : State Calls) : ∃ s1, run (service bios) st (code L .print).body = some s1 ∧
      s1.sp = st.sp ∧ s1.si = st.si + 1 ∧ s1.mem = st.mem ∧ s1.zf = (st.mem (addr st.si) == 0) := by
  refine ⟨_, rfl, rfl, rfl, rfl, ?_⟩
  simp [State.get8, State.set8, State.setFlags]

/-- Another character is printed. -/
theorem print_more {i : Nat} (h : AtPrint L i st) (hi : i < 17) :
    ∃ st', Reaches (service bios) (code L) (.block .print st) (.block .print st') ∧
      AtPrint L (i + 1) st' := by
  have hlow := L.cylinder_ge
  have hmsg := L.errMsg_ge
  obtain ⟨s1, hrun1, hsp1, hsi1, hmem1, hzf1⟩ := @run_print bios L st
  obtain ⟨s2, hrun2, hsp2, hsi2, hmem2⟩ : ∃ s2, run (service bios) s1 (code L .teletype).body =
      some (int10 bios s2) ∧ s2.sp = s1.sp ∧ s2.si = s1.si ∧ s2.mem = s1.mem :=
    ⟨_, rfl, rfl, rfl, rfl⟩
  have hbyte : ∀ b, Stage1.message[i]? = some b → b ≠ 0 := by
    intro b hb
    have hall : ∀ i < 17, Stage1.message[i]? ≠ some 0 := by decide
    rintro rfl
    exact hall i hi hb
  have hnext : s1.zf = false := by
    rw [hzf1, beq_eq_false_iff_ne]
    exact hbyte _ (h.byte (by omega))
  have hsp : s2.sp = 0x7BE6 := hsp2.trans (hsp1.trans h.sp)
  have hreach := Reaches.block hrun1 (leave_jz_next hnext _ _)
  refine ⟨_, hreach.trans (Reaches.block hrun2 rfl), ?_, ?_, ?_⟩
  · exact hsp
  · refine (hsi2.trans hsi1).trans ?_
    rw [h.si, BitVec.ofNat_add, ← BitVec.add_assoc]
    rfl
  · have hchanges := changesOnly_apply (bios.teletype s2.dev.teletypes) hsp
    rw [hmem2, hmem1] at hchanges
    refine message_congr h.message hchanges fun x h1 h2 hx => ?_
    simp only [stackBelow, Set.mem_ofPred_eq] at hx
    omega

theorem print_halt {i : Nat} (h : AtPrint L i st) (hi : i ≤ 17) :
    ∃ st', Reaches (service bios) (code L) (.block .print st) (.block .halt st') := by
  induction hr : 17 - i generalizing i st with
  | zero =>
    obtain rfl : i = 17 := by omega
    obtain ⟨s1, hrun, -, -, -, hzf⟩ := @run_print bios L st
    have hend : s1.zf = true := by
      rw [hzf, ← Option.some_inj.mp (h.byte (by decide))]
      rfl
    exact ⟨s1, Reaches.block hrun (leave_jz hend _ _)⟩
  | succ r ih =>
    obtain ⟨st1, hreach1, h1⟩ := print_more h (by omega)
    obtain ⟨st2, hreach2⟩ := ih h1 (by omega) (by omega)
    exact ⟨st2, hreach1.trans hreach2⟩

theorem fail_halt (h : AtCall L s)
    (hloop : AtLoop bios L (s.pushAll (frame s back)).mem drive k n st) :
    ∃ st', Reaches (service bios) (code L) (.block .fail st) (.block .halt st') := by
  have hlow := L.cylinder_ge
  have hmsg := L.errMsg_ge
  have hmessage : bytesAt st.mem (addr L.errMsg) 18 = message := by
    have hframe := @changesOnly_frame L s back h
    refine message_congr (message_congr h.message hframe ?_) hloop.changes ?_
    · intro x h1 h2 hx
      simp only [Set.mem_ofPred_eq] at hx
      omega
    · intro x h1 h2 hx
      simp only [work, Set.mem_ofPred_eq] at hx
      omega
  obtain ⟨s1, hrun, hsp, hsi, hmem⟩ : ∃ s1, run (service bios) st (code L .fail).body = some s1 ∧
      s1.sp = st.sp ∧ s1.si = L.errMsg ∧ s1.mem = st.mem := ⟨_, rfl, rfl, rfl, rfl⟩
  have hprint : AtPrint L 0 s1 := by
    refine ⟨hsp.trans hloop.sp, ?_, by rw [hmem]; exact hmessage⟩
    rw [hsi, BitVec.add_zero]
  obtain ⟨st', hreach⟩ := print_halt hprint (by decide)
  exact ⟨st', (Reaches.block hrun rfl).trans hreach⟩

/-- In the loop that ends the error path. -/
def Halted (c : Config Label Calls) : Prop := ∃ st, c = .block .halt st

theorem Halted.step {c : Config Label Calls} (hc : Halted c) :
    Halted (RealMode.step (service bios) (code L) c) := by
  obtain ⟨st, rfl⟩ := hc
  exact ⟨_, rfl⟩

theorem not_halted_returned (ip : BitVec 16) (s : State Calls) : ¬ Halted (.returned ip s) := by
  rintro ⟨st, hst⟩
  cases hst

/-! ### The whole call -/

theorem work_subset (bios : Bios) (L : Layout) : work bios L ⊆ touched bios L := by
  intro x hx
  simp only [work, touched, Set.mem_ofPred_eq] at hx ⊢
  omega

/-- `disk_read` as stage 1 calls it.  When no sector fails three times in a row it returns with the
1024 sectors from the second on in memory, with the general registers as they were, and has changed
nothing else but its stack and its scratch bytes.  Otherwise it gets to `.halt`, where it stays, and
does not return. -/
theorem diskRead_spec (bios : Bios) {L : Layout} {s : State Calls} (h : AtCall L s)
    (back : BitVec 16) :
    (¬ GivesUp bios → ∃ s',
      Reaches (service bios) (code L) (callDiskRead s back) (.returned back s') ∧
      (∀ k < 1024, bytesAt s'.mem (0x7E00 + BitVec.ofNat 32 (512 * k)) 512 =
        bios.sector (s.get8 .dl) (k + 1)) ∧
      ChangesOnly (touched bios L) s.mem s'.mem ∧ Restored s s') ∧
    (GivesUp bios →
      (∃ n, ∀ i, Halted ((step (service bios) (code L))^[n + i] (callDiskRead s back))) ∧
      ∀ n ip s', (step (service bios) (code L))^[n] (callDiskRead s back) ≠ .returned ip s') := by
  obtain ⟨st, hstart, hloop⟩ := @diskRead_loop bios L s h back
  have hrun := loop_run (Nat.zero_le _) hloop (Nat.count_zero _) fun j hj => absurd hj (by omega)
  refine ⟨fun hnot => ?_, fun hgives => ?_⟩
  · obtain ⟨-, n, st1, hreach1, h1⟩ := hrun.resolve_right fun hr => hnot hr.1
    obtain ⟨st2, hreach2, hbp, hmem⟩ := loop_done h1
    rw [h1.bp] at hbp
    have hchanges := h1.changes
    rw [← hmem] at hchanges
    obtain ⟨s', hreach3, hmem', hregs⟩ := done_returned h hbp hchanges
    rw [hmem] at hmem'
    refine ⟨s', ((hstart.trans hreach1).trans hreach2).trans hreach3, fun k hk => ?_, ?_, hregs⟩
    · rw [hmem']
      exact h1.data k hk
    · rw [hmem']
      refine ((changesOnly_frame h).mono fun x hx => Or.inl ?_).trans
        (h1.changes.mono (work_subset bios L))
      simp only [Set.mem_ofPred_eq] at hx
      omega
  · obtain ⟨-, k, n, st1, hreach1, h1⟩ := hrun.resolve_left fun hl => hl.1 hgives
    obtain ⟨st2, hreach2⟩ := fail_halt h h1
    have hreach := (hstart.trans hreach1).trans hreach2
    have hhalted : Halted (.block .halt st2) := ⟨st2, rfl⟩
    refine ⟨?_, hreach.not_returned hhalted (fun c hc => hc.step) not_halted_returned⟩
    obtain ⟨n, hn⟩ := hreach
    refine ⟨n, fun i => ?_⟩
    rw [Nat.add_comm, Function.iterate_add_apply, hn]
    exact Function.Iterate.rec Halted hhalted (fun c hc => hc.step) i

/-- A BIOS whose sectors hold their numbers, and whose reads fail where `fails` says so. -/
def numbered (fails : Nat → Bool) : Bios where
  depth := 6
  depth_le := by decide
  sector _ lba := List.replicate 512 (BitVec.ofNat 8 lba)
  length_sector _ _ := List.length_replicate
  read i := ⟨fails i, 0x0900, [0, 0, 0, 0, 0, 0], le_refl 6⟩
  reset _ := ⟨false, 0, [], Nat.zero_le 6⟩
  teletype _ := ⟨false, 0, [], Nat.zero_le 6⟩

/-- The boot sector as it is assembled. -/
def bootSector : Layout := ⟨0x7CB6, 0x7CCB, by decide, by decide, by decide⟩

/-- The call, with `0x80` as the boot drive. -/
def bootState : State Calls where
  ax := 0
  bx := 0x7E00
  cx := 0
  dx := 0x80
  si := 0
  di := 0
  bp := 0
  sp := 0x7C00
  es := 0
  zf := true
  cf := false
  iflag := true
  mem := writeBytes (fun _ => 0) (addr bootSector.errMsg) message
  dev := ⟨0, 0, 0⟩

theorem bootState_atCall : AtCall bootSector bootState :=
  ⟨rfl, rfl, rfl, rfl, bytesAt_writeBytes _ _ (by decide)⟩

/-- Two failures, and a drive that never answers. -/
theorem diskRead_spec_boot :
    (∃ s', Reaches (service (numbered (· < 2))) (code bootSector) (callDiskRead bootState 0x7CF3)
        (.returned 0x7CF3 s') ∧
      bytesAt s'.mem 0x7E00 512 = List.replicate 512 1 ∧ s'.dx = 0x80) ∧
    ∀ n ip s', (step (service (numbered fun _ => true)) (code bootSector))^[n]
      (callDiskRead bootState 0x7CF3) ≠ .returned ip s' := by
  have hnot : ¬ GivesUp (numbered (· < 2)) := by
    rintro ⟨n, -, hfails⟩
    have hlt : decide (n + 2 < 2) = true := hfails 2 (by decide)
    rw [decide_eq_true_eq] at hlt
    omega
  have hgives : GivesUp (numbered fun _ => true) := ⟨0, by decide, fun _ _ => rfl⟩
  obtain ⟨s', hreach, hdata, -, hregs⟩ :=
    (diskRead_spec (numbered (· < 2)) bootState_atCall 0x7CF3).1 hnot
  refine ⟨⟨s', hreach, hdata 0 (by decide), hregs.dx⟩, ?_⟩
  exact ((diskRead_spec (numbered fun _ => true) bootState_atCall 0x7CF3).2 hgives).2

end Stage1

end Sapphire
