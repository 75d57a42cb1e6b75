import Sapphire.Kmain
import Sapphire.Lib.Trace
import Sapphire.Screen.Line

/-! What `kmain` prints, whenever keys are pressed: its lines, among them the string of its system
call and the two counts, and last the first four characters that were typed. -/

namespace Sapphire

open Machine FramebufferInfo

def helloLine : List Piece :=
  [.lit "\n\nHello, World! This is a test of the kernel's main function."]

def readyLine : List Piece := [.lit "\n[keyboard]: Keyboard driver is ready\n"]

def testText : List Piece := [.lit "TEST"]

def writtenLine : List Piece := [.lit " <-- ", .dec 4, .lit " characters written from syscall.\n"]

def readLine : List Piece := [.lit "\n", .dec 4, .lit " characters read from syscall.\n"]

/-- A line that is its format. -/
theorem literalLine_prints {con : Console} (hcol : 0 ≤ con.cursorCol) {format : CString}
    {text : String} (hformat : format.bytes = [Piece.lit text].flatMap Piece.format)
    (htext : ∀ b ∈ charBytes text, b ≠ percent) :
    Prints con [.lit text] (kprintf con format []) := by
  refine kprintf_prints hformat rfl ?_ hcol
  simp only [List.forall_mem_cons, Piece.Simple]
  exact ⟨htext, fun _ h => absurd h List.not_mem_nil⟩

/-- A line with a count in it. -/
theorem countLine_prints {con : Console} (hcol : 0 ≤ con.cursorCol) (val : BitVec 32)
    {format : CString} {text text' : String}
    (hformat : format.bytes = [Piece.lit text, .dec val, .lit text'].flatMap Piece.format)
    (htext : ∀ b ∈ charBytes text, b ≠ percent) (htext' : ∀ b ∈ charBytes text', b ≠ percent) :
    Prints con [.lit text, .dec val, .lit text'] (kprintf con format [.int val]) := by
  refine kprintf_prints hformat rfl ?_ hcol
  simp only [List.forall_mem_cons, Piece.Simple, true_and]
  exact ⟨htext, htext', fun _ h => absurd h List.not_mem_nil⟩

theorem helloLine_prints {con : Console} (hcol : 0 ≤ con.cursorCol) :
    Prints con helloLine (kprintf con
      (.ofString "\n\nHello, World! This is a test of the kernel's main function.") []) :=
  literalLine_prints hcol rfl (forall_charBytes (by decide))

theorem readyLine_prints {con : Console} (hcol : 0 ≤ con.cursorCol) :
    Prints con readyLine
      (kprintf con (.ofString "\n[keyboard]: Keyboard driver is ready\n") []) :=
  literalLine_prints hcol rfl (forall_charBytes (by decide))

theorem writtenLine_prints {con : Console} (hcol : 0 ≤ con.cursorCol) :
    Prints con writtenLine
      (kprintf con (.ofString " <-- %d characters written from syscall.\n") [.int 4]) :=
  countLine_prints hcol 4 rfl (forall_charBytes (by decide)) (forall_charBytes (by decide))

theorem readLine_prints {con : Console} (hcol : 0 ≤ con.cursorCol) :
    Prints con readLine
      (kprintf con (.ofString "\n%d characters read from syscall.\n") [.int 4]) :=
  countLine_prints hcol 4 rfl (forall_charBytes (by decide)) (forall_charBytes (by decide))

/-- What is printed before a statement. -/
def KmainPc.before : KmainPc → List Piece
  | .hello => []
  | .drawLine | .initKeyboard | .ready => helloLine
  | .write => helloLine ++ readyLine
  | .written _ => helloLine ++ readyLine ++ testText
  | .loop _ => helloLine ++ readyLine ++ testText ++ writtenLine
  | .result | .done => helloLine ++ readyLine ++ testText ++ writtenLine ++ readLine

/-- The framebuffer, the string, and the arguments and the buffers of the system calls are apart. -/
structure KmainFrame.Apart (l : KmainFrame) (fb : FramebufferInfo) : Prop where
  pixels : Disjoint (span l.bufWa 4) fb.pixels
  write : Disjoint (span l.bufWa 4) (span l.wa 12)
  read : Disjoint (span l.ra 12) (span l.bufRa 5)

/-- The string of `kmain` is in memory. -/
def KmainFrame.Text (l : KmainFrame) (m : Mem) : Prop := bytesAt m l.bufWa 4 = charBytes "TEST"

/-! ### Statements -/

namespace Kmain

variable {vbe : VbeModeInfo} {l : KmainFrame} {con0 : Console} {s : Kmain}

/-- A statement that prints. -/
theorem print_ok (hcol : 0 ≤ con0.cursorCol) {p q : List Piece}
    (hp : Prints con0 p (.ok s.dev.con)) {format : String} {args : List VaArg} (next : KmainPc)
    (hq : 0 ≤ s.dev.con.cursorCol → Prints s.dev.con q (kprintf s.dev.con (.ofString format) args)) :
    ∃ con, s.print format args next = .ok { s with pc := next, dev := { s.dev with con } } ∧
      Prints con0 (p ++ q) (.ok con) := by
  have hprints := hq (hp.cursorCol_nonneg hcol)
  obtain ⟨text, hreads, hok⟩ := id hprints
  refine ⟨text.foldl kputc s.dev.con, ?_, hp.append (hok ▸ hprints)⟩
  rw [print, hok]

/-- The arguments of `write`, and that setting them changes nothing else. -/
theorem setWa_arguments (l : KmainFrame) (m : Mem) :
    WriteArguments.count (l.setWa m) l.wa = 4 ∧ WriteArguments.buf (l.setWa m) l.wa = l.bufWa ∧
      ChangesOnly (span l.wa 12) m (l.setWa m) := by
  have hapart : ∀ k : BitVec 32, k = 4 ∨ k = 8 → Disjoint (span l.wa 4) (span (l.wa + k) 4) := by
    intro k hk
    refine Set.disjoint_left.mpr fun x h1 h2 => ?_
    rw [mem_span] at h1 h2
    rcases hk with rfl | rfl <;> bv_omega
  refine ⟨?_, Mem.load32_store32_self _ _ _, ?_⟩
  · exact (Mem.load32_store32_of_disjoint (hapart 8 (.inr rfl))).trans
      ((Mem.load32_store32_of_disjoint (hapart 4 (.inl rfl))).trans
        (Mem.load32_store32_self _ _ _))
  · refine ((Mem.changesOnly_store32 _ _ _).mono (span_mono (by decide))).trans
      (((Mem.changesOnly_store32 _ _ _).mono (span_subset ?_)).trans
        ((Mem.changesOnly_store32 _ _ _).mono (span_subset ?_))) <;> bv_omega

/-- The system call prints the string. -/
theorem write_ok (hl : Disjoint (span l.bufWa 4) (span l.wa 12)) {m : Mem} (htext : l.Text m)
    (d : Devices) :
    ∃ con, syscallTable sysReadImp sysWriteImp 1 l.wa (l.setWa m, d) =
        ((l.setWa m, { d with con }), 4) ∧ Prints d.con testText (.ok con) := by
  obtain ⟨hcount, hbuf, hchanges⟩ := setWa_arguments l m
  have hbytes : bytesAt (l.setWa m) l.bufWa 4 = charBytes "TEST" :=
    (Mem.bytesAt_of_changesOnly hchanges (by decide) hl).trans htext
  have hwrite : sysWrite d.con (l.setWa m) l.wa = ((charBytes "TEST").foldl kputc d.con, 4) := by
    rw [sysWrite_eq, hcount, hbuf, ← hbytes]
    rfl
  refine ⟨(charBytes "TEST").foldl kputc d.con, ?_, charBytes "TEST",
    ⟨[charBytes "TEST"], .cons rfl .nil, List.append_nil _⟩, rfl⟩
  show sysWriteImp l.wa (l.setWa m, d) = _
  rw [sysWriteImp, hwrite]

/-- The last statement prints the string as `kprint` does. -/
theorem result_ok (con : Console) (str : CString) :
    kprintf con (.ofString "%s --> read from syscall") [.str (some str)] =
      .ok ((charBytes " --> read from syscall").foldl kputc (kprint con str)) := by
  have hliteral : ∀ b ∈ charBytes " --> read from syscall", b ≠ percent :=
    forall_charBytes (by decide)
  have hcalls : kprintfCalls (CString.ofString "%s --> read from syscall").bytes
      [.str (some str)] = .ok (.kprint str :: (charBytes " --> read from syscall").map .kputc) := by
    have happend := @kprintfCalls_append [percent, BitVec.ofNat 8 's'.toNat] rfl
      [.str (some str)] rfl (charBytes " --> read from syscall") []
    rw [kprintfCalls_literal (fun hb => hliteral _ hb rfl)] at happend
    exact happend
  rw [kprintf_eq, hcalls]
  simp only [Except.map, List.foldl_cons, List.foldl_map]
  rfl

/-- The total after a round. -/
theorem round_total {r : ReadLocals} {c : Collector}
    (hd : Disjoint (span r.ra 12) (span r.bufRa (r.wanted.toNat + 1))) (h : c.Collects r)
    (hmore : c.total < r.wanted) :
    (r.round c.kb c.mem c.total).2.2.toNat = min r.wanted.toNat c.typed.length := by
  have hlt : c.total.toNat < r.wanted.toNat := hmore
  have hwanted := r.wanted.isLt
  have htaken := h.holds.taken_le
  obtain ⟨hcount, hbuf, -⟩ := Collector.round_arguments r c.mem c.total
  set m' := ReadArguments.setCount (ReadArguments.setBuf c.mem r.ra (r.bufRa + c.total)) r.ra
    (r.wanted - c.total)
  have hasked : (r.wanted - c.total).toNat = r.wanted.toNat - c.total.toNat := by bv_omega
  obtain ⟨hresult, -⟩ := sysRead_spec (show Disjoint (span r.ra 12)
      (span (ReadArguments.buf m' r.ra) (ReadArguments.count m' r.ra).toNat) by
    rw [hcount, hbuf, hasked]
    exact hd.mono_right (span_subset (by bv_omega))) h.holds h.few
  rw [hcount, hasked] at hresult
  have hround : (r.round c.kb c.mem c.total).2.2 = c.total + (sysRead c.kb m' r.ra).2.2 := rfl
  rw [hround, BitVec.toNat_add, hresult, Nat.mod_eq_of_lt (by omega)]
  omega

/-- The loop starts with an empty buffer. -/
theorem collects_enter (hl : Disjoint (span l.ra 12) (span l.bufRa 5)) {kb : Keyboard}
    {typed : List (BitVec 8)} (h : kb.Holds typed 0) (hfew : typed.length ≤ 256) (m : Mem) :
    Collector.Collects l.reads ⟨kb, l.reads.enter m, typed, 0⟩ := by
  have hbytes := (Collector.Collects.start (l := l.reads) hl kb m).bytes
  refine ⟨h, by simpa using hfew, Nat.zero_le _, hbytes⟩

theorem collects_round (hl : Disjoint (span l.ra 12) (span l.bufRa 5)) {kb : Keyboard} {m : Mem}
    {typed : List (BitVec 8)} {total : BitVec 32}
    (h : Collector.Collects l.reads ⟨kb, m, typed, total⟩) (hmore : total < 4) :
    Collector.Collects l.reads ⟨(l.reads.round kb m total).1, (l.reads.round kb m total).2.1, typed,
      (l.reads.round kb m total).2.2⟩ :=
  Collector.Collects.round (l := l.reads) (s := ⟨kb, m, typed, total⟩) hl h hmore

/-- After the loop the buffer has four characters and a NUL. -/
theorem collects_exit {kb : Keyboard} {m : Mem} {typed : List (BitVec 8)}
    (h : Collector.Collects l.reads ⟨kb, m, typed, 4⟩) :
    4 ≤ typed.length ∧ (CString.ofBytes (bytesAt m l.bufRa 5)).bytes = typed.take 4 := by
  have hfour : 4 ≤ typed.length := h.holds.taken_le
  have hbytes : bytesAt m l.bufRa 5 = typed.take 4 ++ [0] := h.bytes
  refine ⟨hfour, ?_⟩
  have hnonzero : ∀ c ∈ typed.take 4, decide (c ≠ 0) = true := fun c hc =>
    decide_eq_true (h.holds.nonzero c (List.mem_of_mem_take hc))
  calc (bytesAt m l.bufRa 5).takeWhile (· ≠ 0)
      = (typed.take 4 ++ [0]).takeWhile (· ≠ 0) := by rw [hbytes]
    _ = typed.take 4 := by
      rw [List.takeWhile_append_of_pos hnonzero]
      exact List.append_nil _

/-! ### Runs -/

/-- The last statement has printed the first four characters. -/
def Finished (con0 : Console) (s : Kmain) : Prop :=
  4 ≤ s.typed.length ∧ ∃ con str, Prints con0 KmainPc.done.before (.ok con) ∧
    str.bytes = s.typed.take 4 ∧
    s.dev.con = (charBytes " --> read from syscall").foldl kputc (kprint con str)

/-- What has been printed. -/
def Printed (con0 : Console) (s : Kmain) : Prop :=
  match s.pc with
  | .done => s.Finished con0
  | pc => Prints con0 pc.before (.ok s.dev.con)

/-- What the statements that are left rely on. -/
def Ready (l : KmainFrame) (s : Kmain) : Prop :=
  match s.pc with
  | .hello | .drawLine | .initKeyboard => l.Text s.mem ∧ s.typed = []
  | .ready | .write => l.Text s.mem ∧ Keyboard.Holds s.dev.kb s.typed 0
  | .written res => res = 4 ∧ Keyboard.Holds s.dev.kb s.typed 0
  | .loop total => Collector.Collects l.reads ⟨s.dev.kb, s.mem, s.typed, total⟩
  | .result => 4 ≤ s.typed.length ∧
      (CString.ofBytes (bytesAt s.mem l.bufRa 5)).bytes = s.typed.take 4
  | .done => True

structure Inv (con0 : Console) (l : KmainFrame) (s : Kmain) : Prop where
  printed : s.Printed con0
  few : s.typed.length ≤ s.taken + 256
  ready : s.Ready l

/-- A key changes nothing that was printed, nor the characters before it. -/
theorem Inv.key (h : s.Inv con0 l) (hlistens : s.pc.listens = true) (scancode : BitVec 8)
    (hfew : (s.typed ++ (s.dev.kb.enqueued scancode).toList).length ≤ s.taken + 256) :
    Inv con0 l { s with
      dev := { s.dev with kb := s.dev.kb.handleInterrupt scancode }
      typed := s.typed ++ (s.dev.kb.enqueued scancode).toList } := by
  obtain ⟨pc, m, d, typed⟩ := s
  obtain ⟨hprinted, -, hready⟩ := h
  cases pc with
  | hello => exact absurd hlistens Bool.false_ne_true
  | drawLine => exact absurd hlistens Bool.false_ne_true
  | initKeyboard => exact absurd hlistens Bool.false_ne_true
  | ready => exact ⟨hprinted, hfew, hready.1, hready.2.interrupt scancode⟩
  | write => exact ⟨hprinted, hfew, hready.1, hready.2.interrupt scancode⟩
  | written res => exact ⟨hprinted, hfew, hready.1, hready.2.interrupt scancode⟩
  | loop total =>
    refine ⟨hprinted, hfew, hready.holds.interrupt scancode, hfew, hready.total_le, ?_⟩
    dsimp only
    rw [List.take_append_of_le_length hready.holds.taken_le]
    exact hready.bytes
  | result =>
    obtain ⟨hfour, hbytes⟩ := hready
    refine ⟨hprinted, hfew, hfour.trans (List.length_append ▸ Nat.le_add_right _ _), ?_⟩
    dsimp only
    rw [List.take_append_of_le_length hfour]
    exact hbytes
  | done =>
    obtain ⟨hfour, con, str, hreport, hstr, hcon⟩ := hprinted
    refine ⟨⟨hfour.trans (List.length_append ▸ Nat.le_add_right _ _), con, str, hreport, ?_, hcon⟩,
      hfew, trivial⟩
    dsimp only
    rw [List.take_append_of_le_length hfour]
    exact hstr

/-- The line of `kmain` is drawn, and the string stays. -/
theorem drawLine_ok (hvbe : vbe.Fits) (hl : Disjoint (span l.bufWa 4) (getFramebufferInfo vbe).pixels)
    {m : Mem} (htext : l.Text m) :
    ∃ m', line (getFramebufferInfo vbe) m 10 10 100 100 colorRed = some m' ∧ l.Text m' := by
  have hpoints := @linePoints_rounded 10 10 100 100 (by decide) (by decide) (by decide) (by decide)
  have hdraws := putpixels_draw hvbe
    (@isInt_roundedLine 10 10 100 100 (by decide) (by decide) (by decide) (by decide)) m colorRed
  refine ⟨_, by rw [line, hpoints]; rfl, ?_⟩
  exact (Mem.bytesAt_of_changesOnly hdraws.changes (by decide) hl).trans htext

/-- `kmain` has ended, or it has read what was typed and waits. -/
def Settled (s : Kmain) : Prop :=
  s.pc = if 4 ≤ s.typed.length then .done else .loop (BitVec.ofNat 32 s.typed.length)

/-- A bound on the statements until it is settled. -/
def left (s : Kmain) : Nat :=
  match s.pc with
  | .hello => 9
  | .drawLine => 8
  | .initKeyboard => 7
  | .ready => 6
  | .write => 5
  | .written _ => 4
  | .loop total => if total.toNat < min 4 s.typed.length then 3 else 2
  | .result => 1
  | .done => 0

/-- What a statement leaves. -/
structure Next (con0 : Console) (l : KmainFrame) (s s' : Kmain) : Prop where
  inv : s'.Inv con0 l
  typed : s'.typed = s.typed
  left : s.Settled ∨ s'.left < s.left

/-- A round of the loop, and the line after it. -/
theorem Inv.loop (fb : FramebufferInfo) (hl : Disjoint (span l.ra 12) (span l.bufRa 5))
    (hcol : 0 ≤ con0.cursorCol) {total : BitVec 32} {m : Mem} {d : Devices} {typed : List (BitVec 8)}
    (h : Inv con0 l ⟨.loop total, m, d, typed⟩) :
    ∃ s', Kmain.step fb l ⟨.loop total, m, d, typed⟩ = .ok s' ∧
      Next con0 l ⟨.loop total, m, d, typed⟩ s' := by
  obtain ⟨hprinted, hfew, hready⟩ := h
  have htaken : total.toNat ≤ typed.length := hready.holds.taken_le
  by_cases hmore : total < 4
  · have hround := collects_round hl hready hmore
    have htotal : (l.reads.round d.kb m total).2.2.toNat = min 4 typed.length :=
      round_total (r := l.reads) (c := ⟨d.kb, m, typed, total⟩) hl hready hmore
    refine ⟨⟨.loop (l.reads.round d.kb m total).2.2, (l.reads.round d.kb m total).2.1,
      { d with kb := (l.reads.round d.kb m total).1 }, typed⟩, ?_, ⟨hprinted, hround.few, hround⟩,
      rfl, ?_⟩
    · rw [Kmain.step]
      dsimp only
      rw [if_pos hmore]
    · rw [Settled, Kmain.left, Kmain.left]
      dsimp only
      rw [htotal, if_neg (lt_irrefl _)]
      by_cases hunread : total.toNat < min 4 typed.length
      · exact .inr (by rw [if_pos hunread]; decide)
      · have hlt : total.toNat < 4 := hmore
        have hall : total.toNat = typed.length := by omega
        refine .inl ?_
        rw [if_neg (by omega), ← hall, BitVec.ofNat_toNat, BitVec.setWidth_eq]
  · have htotal : total = 4 := by
      have hle : total.toNat ≤ 4 := hready.total_le
      bv_omega
    subst htotal
    obtain ⟨con, hok, hprints⟩ := print_ok (s := ⟨.loop 4, m, d, typed⟩) hcol hprinted .result
      readLine_prints
    refine ⟨⟨.result, m, { d with con }, typed⟩, ?_, ⟨hprints, hfew, collects_exit hready⟩, rfl,
      .inr ?_⟩
    · rw [Kmain.step]
      dsimp only
      rw [if_neg hmore]
      exact hok
    · rw [Kmain.left, Kmain.left]
      dsimp only
      split_ifs <;> decide

/-- No statement fails, and each leaves what the next one relies on. -/
theorem Inv.step (hvbe : vbe.Fits) (hl : l.Apart (getFramebufferInfo vbe))
    (hcol : 0 ≤ con0.cursorCol) (h : s.Inv con0 l) :
    ∃ s', s.step (getFramebufferInfo vbe) l = .ok s' ∧ Next con0 l s s' := by
  obtain ⟨pc, m, d, typed⟩ := s
  obtain ⟨hprinted, hfew, hready⟩ := id h
  cases pc with
  | hello =>
    obtain ⟨con, hok, hprints⟩ := print_ok (s := ⟨.hello, m, d, typed⟩) hcol hprinted .drawLine
      helloLine_prints
    exact ⟨_, hok, ⟨hprints, hfew, hready⟩, rfl, .inr (Nat.lt_add_one 8)⟩
  | drawLine =>
    obtain ⟨m', hline, htext⟩ := drawLine_ok hvbe hl.pixels hready.1
    refine ⟨⟨.initKeyboard, m', d, typed⟩, ?_, ⟨hprinted, hfew, htext, hready.2⟩, rfl,
      .inr (Nat.lt_add_one 7)⟩
    rw [Kmain.step]
    dsimp only
    rw [hline]
  | initKeyboard =>
    obtain ⟨htext, rfl⟩ : l.Text m ∧ typed = [] := hready
    exact ⟨_, rfl, ⟨hprinted, hfew, htext, .init _⟩, rfl, .inr (Nat.lt_add_one 6)⟩
  | ready =>
    obtain ⟨con, hok, hprints⟩ := print_ok (s := ⟨.ready, m, d, typed⟩) hcol hprinted .write
      readyLine_prints
    exact ⟨_, hok, ⟨hprints, hfew, hready⟩, rfl, .inr (Nat.lt_add_one 5)⟩
  | write =>
    obtain ⟨con, hwrite, hprints⟩ := write_ok hl.write hready.1 d
    refine ⟨⟨.written 4, l.setWa m, { d with con }, typed⟩, ?_,
      ⟨Prints.append hprinted hprints, hfew, rfl, hready.2⟩, rfl, .inr (Nat.lt_add_one 4)⟩
    rw [Kmain.step]
    dsimp only
    rw [hwrite]
  | written res =>
    obtain ⟨rfl, hholds⟩ : res = 4 ∧ d.kb.Holds typed 0 := hready
    obtain ⟨con, hok, hprints⟩ := print_ok (s := ⟨.written 4, l.reads.enter m, d, typed⟩) hcol
      hprinted (.loop 0) writtenLine_prints
    refine ⟨_, hok, ⟨hprints, hfew, collects_enter hl.read hholds hfew m⟩, rfl, .inr ?_⟩
    rw [Kmain.left, Kmain.left]
    dsimp only
    split_ifs <;> decide
  | loop total => exact h.loop _ hl.read hcol
  | result =>
    obtain ⟨hfour, hstr⟩ := hready
    refine ⟨⟨.done, m, ⟨d.kb, (charBytes " --> read from syscall").foldl kputc
      (kprint d.con (.ofBytes (bytesAt m l.bufRa 5)))⟩, typed⟩, ?_,
      ⟨⟨hfour, _, _, hprinted, hstr, rfl⟩, hfew, trivial⟩, rfl, .inr (Nat.lt_add_one 0)⟩
    rw [Kmain.step]
    dsimp only
    rw [Kmain.print, result_ok]
  | done => exact ⟨_, rfl, h, rfl, .inl (by rw [Settled, if_pos hprinted.1])⟩

theorem Inv.run (hvbe : vbe.Fits) (hl : l.Apart (getFramebufferInfo vbe))
    (hcol : 0 ≤ con0.cursorCol) (h : s.Inv con0 l) {s' : Kmain}
    (hrun : Runs (getFramebufferInfo vbe) l s s') : s'.Inv con0 l := by
  induction hrun with
  | refl => exact h
  | tail _ hlast ih =>
    obtain ⟨hevent, hfew⟩ := hlast
    cases hevent with
    | step hstep =>
      obtain ⟨s', hok, hnext⟩ := ih.step hvbe hl hcol
      rw [hstep, Except.ok.injEq] at hok
      exact hok ▸ hnext.inv
    | key scancode hlistens => exact ih.key hlistens scancode hfew

/-- Without another key the program gets settled. -/
theorem Inv.settles (hvbe : vbe.Fits) (hl : l.Apart (getFramebufferInfo vbe))
    (hcol : 0 ≤ con0.cursorCol) (h : s.Inv con0 l) : ∃ s',
      Relation.ReflTransGen (fun s s' => s.step (getFramebufferInfo vbe) l = .ok s') s s' ∧
        (s'.Inv con0 l ∧ s'.typed = s.typed) ∧ s'.Settled := by
  refine exists_reaches Kmain.left (fun t ht => ?_) ⟨h, rfl⟩
  obtain ⟨t', hok, hinv, htyped, hsettled | hlt⟩ := ht.1.step hvbe hl hcol
  · exact .inl hsettled
  · exact .inr ⟨t', hok, ⟨hinv, htyped.trans ht.2⟩, hlt⟩

end Kmain

/-- Whenever keys are pressed while `kmain` runs, as long as at most 256 characters are unread, no
statement fails and its lines are printed one after another, with 4 as both counts; at the end the
last line has the first four characters that were typed.  From every state it gets there without
another key if four characters were typed, and else it waits in its loop with those that were. -/
theorem kmain_output {vbe : VbeModeInfo} (hvbe : vbe.Fits) {l : KmainFrame}
    (hl : l.Apart (getFramebufferInfo vbe)) {m : Mem} (htext : l.Text m) (kb : Keyboard)
    {con : Console} (hcol : 0 ≤ con.cursorCol) {s : Kmain}
    (hrun : Kmain.Runs (getFramebufferInfo vbe) l ⟨.hello, m, ⟨kb, con⟩, []⟩ s) :
    (∃ s', s.step (getFramebufferInfo vbe) l = .ok s') ∧ s.Printed con ∧ ∃ s',
      Relation.ReflTransGen (fun s s' => s.step (getFramebufferInfo vbe) l = .ok s') s s' ∧
        s'.typed = s.typed ∧ s'.Settled ∧ s'.Printed con := by
  have hstart : Kmain.Inv con l ⟨.hello, m, ⟨kb, con⟩, []⟩ :=
    ⟨⟨[], ⟨[], .nil, rfl⟩, rfl⟩, Nat.zero_le _, htext, rfl⟩
  have h := hstart.run hvbe hl hcol hrun
  obtain ⟨s', hok, -⟩ := h.step hvbe hl hcol
  obtain ⟨t, hsteps, ⟨ht, htyped⟩, hsettled⟩ := h.settles hvbe hl hcol
  exact ⟨⟨s', hok⟩, h.printed, t, hsteps, htyped, hsettled, ht.printed⟩

/-! ### Four keys -/

namespace Kmain

variable {fb : FramebufferInfo} {l : KmainFrame} {s s' : Kmain}

theorem print_typed {format : String} {args : List VaArg} {next : KmainPc}
    (h : s.print format args next = .ok s') : s'.typed = s.typed := by
  rw [print] at h
  split at h
  · cases h
    rfl
  · cases h

/-- A statement is not a key. -/
theorem step_typed (h : s.step fb l = .ok s') : s'.typed = s.typed := by
  rw [step] at h
  split at h
  · exact print_typed h
  · split at h
    · cases h
      rfl
    · cases h
  · cases h
    rfl
  · exact print_typed h
  · cases h
    rfl
  · exact (print_typed h :)
  · split at h
    · cases h
      rfl
    · exact print_typed h
  · exact print_typed h
  · cases h
    rfl

/-- Statements alone make up a run, if few characters were typed before. -/
theorem runs_of_steps (h : Relation.ReflTransGen (fun s s' => s.step fb l = .ok s') s s')
    (hfew : s.typed.length ≤ 256) : Runs fb l s s' ∧ s'.typed = s.typed := by
  induction h with
  | refl => exact ⟨.refl, rfl⟩
  | tail _ hlast ih =>
    have htyped := (step_typed hlast).trans ih.2
    exact ⟨ih.1.tail ⟨.step hlast, by rw [htyped]; omega⟩, htyped⟩

/-- The key of a letter, with or without shift. -/
theorem length_enqueued_letter (kb : Keyboard) : (kb.enqueued 0x1E).toList.length = 1 := by
  have hne : kb.writePos + 1 ≠ kb.writePos := by bv_omega
  rcases hshift : kb.shiftHeld with _ | _ <;>
    simp [Keyboard.enqueued, Keyboard.handleInterrupt, hshift, lookup, scancodeToAscii,
      scancodeToAsciiShift]

/-- Letters that are typed in the loop. -/
theorem runs_letters (hloop : s.pc = .loop 0) (n : Nat) (hfew : s.typed.length + n ≤ 256) :
    ∃ t, Runs fb l s t ∧ t.pc = .loop 0 ∧ t.typed.length = s.typed.length + n := by
  induction n with
  | zero => exact ⟨s, .refl, hloop, rfl⟩
  | succ n ih =>
    obtain ⟨t, hrun, hpc, hlength⟩ := ih (by omega)
    have hnext : (t.typed ++ (t.dev.kb.enqueued 0x1E).toList).length = s.typed.length + (n + 1) := by
      rw [List.length_append, length_enqueued_letter, hlength, Nat.add_assoc]
    refine ⟨_, hrun.tail ⟨.key 0x1E (by rw [hpc]; rfl), ?_⟩, hpc, hnext⟩
    dsimp only
    omega

end Kmain

/-- A string and the buffers below the framebuffer: once `kmain` waits, four letters are typed, and
it gets to its end. -/
theorem kmain_output_800x600 :
    let fb := getFramebufferInfo ⟨2400, 800, 600, 24, 0xFD000000⟩
    let m : Mem := Mem.store32 (fun _ => 0) 0x5000 0x54534554
    let start : Kmain := ⟨.hello, m, ⟨⟨fun _ => 0, 0, 0, false, false⟩, ⟨0, 0, []⟩⟩, []⟩
    ∃ s, Kmain.Runs fb ⟨0x5000, 0x6000, 0x7000, 0x8000⟩ start s ∧ s.typed.length = 4 ∧
      s.Printed start.dev.con ∧ ∃ s', Relation.ReflTransGen
        (fun s s' => s.step fb ⟨0x5000, 0x6000, 0x7000, 0x8000⟩ = .ok s') s s' ∧ s'.pc = .done := by
  intro fb m start
  have hapart : KmainFrame.Apart ⟨0x5000, 0x6000, 0x7000, 0x8000⟩ fb := by
    refine ⟨?_, disjoint_span (by decide) (by decide) (by decide),
      disjoint_span (by decide) (by decide) (by decide)⟩
    rw [Set.disjoint_left]
    intro a ha hpixel
    have hlow := (pixels_inside fits_800x600 hpixel).1
    rw [mem_span] at ha
    bv_omega
  have htext : KmainFrame.Text ⟨0x5000, 0x6000, 0x7000, 0x8000⟩ m := by
    rw [KmainFrame.Text]
    decide +kernel
  have hcol : 0 ≤ start.dev.con.cursorCol := le_rfl
  obtain ⟨-, -, waiting, hsteps, htyped, hsettled, -⟩ :=
    kmain_output fits_800x600 hapart htext start.dev.kb hcol .refl
  rw [Kmain.Settled, htyped] at hsettled
  have hruns := (Kmain.runs_of_steps hsteps (Nat.zero_le _)).1
  obtain ⟨s, hletters, -, hfour⟩ := Kmain.runs_letters hsettled 4 (by
    rw [htyped]
    decide)
  rw [htyped] at hfour
  obtain ⟨-, hprinted, s', hend, htyped', hsettled', -⟩ :=
    kmain_output fits_800x600 hapart htext start.dev.kb hcol (hruns.trans hletters)
  rw [Kmain.Settled, htyped', hfour] at hsettled'
  exact ⟨s, hruns.trans hletters, hfour, hprinted, s', hend, hsettled'⟩

end Sapphire
