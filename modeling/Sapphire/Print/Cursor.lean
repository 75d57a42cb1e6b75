import Sapphire.Lib.Bytes
import Sapphire.Print.Format

/-! Where text is drawn against where the cursor goes.  `draw_string` goes back to the column that it
started from at a line break, while the cursor of `kprint` goes to column 0.  `kprint` of a string
therefore draws what `kputc` of its characters draws exactly where the two columns make no difference
to any line but the first. -/

namespace Sapphire

open Machine

/-! ### Lines -/

/-- The bytes at which a line ends. -/
def breaks (b : BitVec 8) : Bool := b = newline || b = carriageReturn

/-- The stretches of a text between its line breaks. -/
def lines (text : List (BitVec 8)) : List (List (BitVec 8)) := text.splitOnP breaks

theorem lines_nil : lines [] = [[]] := List.splitOnP_nil

theorem lines_cons_of_breaks {b : BitVec 8} (hb : breaks b = true) (text : List (BitVec 8)) :
    lines (b :: text) = [] :: lines text := by
  rw [lines, List.splitOnP_cons_eq_if_modifyHead, if_pos hb, lines]

theorem lines_cons {b : BitVec 8} (hb : breaks b = false) (text : List (BitVec 8)) :
    lines (b :: text) = (b :: (lines text).headD []) :: (lines text).tail := by
  rw [lines, List.splitOnP_cons_eq_if_modifyHead, if_neg (by simp [hb]), ← lines]
  cases h : lines text with
  | nil => exact absurd h (List.splitOnP_ne_nil _ _)
  | cons line rest => rfl

theorem forall_mem_lines {P : List (BitVec 8) → Prop} (text : List (BitVec 8)) :
    (∀ line ∈ lines text, P line) ↔
      P ((lines text).headD []) ∧ ∀ line ∈ (lines text).tail, P line := by
  cases h : lines text with
  | nil => exact absurd h (List.splitOnP_ne_nil _ _)
  | cons line rest => simp

/-- A line is drawn at the same places from columns `x` and `y`: they are the same column, or it draws
nothing, or it starts with a backspace that leads to column 0 from both. -/
def SameFrom (x y : Int) (line : List (BitVec 8)) : Prop :=
  x = y ∨ (∀ b ∈ line, b = tab) ∨ (line.head? = some backspace ∧ x ≤ 1 ∧ y ≤ 1)

instance (x y : Int) (line : List (BitVec 8)) : Decidable (SameFrom x y line) :=
  inferInstanceAs (Decidable (_ ∨ _ ∨ _))

/-! ### The pen -/

/-- The column and row after a character that is drawn at `cursor`, with line breaks back to column
`base`. -/
def penStep (base : Int) (cursor : Int × Int) (b : BitVec 8) : Int × Int :=
  if b = newline then (base, cursor.2 + 1)
  else if b = carriageReturn then (base, cursor.2)
  else if b = tab then (cursor.1 + 4, cursor.2)
  else if b = backspace then (if cursor.1 ≤ 0 then 0 else cursor.1 - 1, cursor.2)
  else (cursor.1 + 1, cursor.2)

/-- The cursor moves like a pen that goes back to column 0. -/
theorem advance_eq_penStep : advance = penStep 0 := rfl

/-- A character that is drawn where the pen is. -/
structure Plain (b : BitVec 8) : Prop where
  newline : b ≠ newline
  carriageReturn : b ≠ carriageReturn
  backspace : b ≠ backspace
  tab : b ≠ tab

theorem byte_cases (b : BitVec 8) :
    b = newline ∨ b = carriageReturn ∨ b = backspace ∨ b = tab ∨ Plain b := by
  by_cases h1 : b = newline
  · exact Or.inl h1
  by_cases h2 : b = carriageReturn
  · exact Or.inr (Or.inl h2)
  by_cases h3 : b = backspace
  · exact Or.inr (Or.inr (Or.inl h3))
  by_cases h4 : b = tab
  · exact Or.inr (Or.inr (Or.inr (Or.inl h4)))
  · exact Or.inr (Or.inr (Or.inr (Or.inr ⟨h1, h2, h3, h4⟩)))

theorem Plain.breaks {b : BitVec 8} (h : Plain b) : breaks b = false :=
  Bool.or_eq_false_iff.mpr ⟨decide_eq_false h.newline, decide_eq_false h.carriageReturn⟩

section

variable (fg bg : BitVec 32) (base x row : Int) (text : List (BitVec 8))

theorem drawFrom_newline : drawFrom fg bg base (newline :: text) x (row * 16) =
    drawFrom fg bg base text base ((row + 1) * 16) := by
  rw [drawFrom, if_pos rfl, Int.add_mul, Int.one_mul]

theorem drawFrom_carriageReturn : drawFrom fg bg base (carriageReturn :: text) x row =
    drawFrom fg bg base text base row := by
  rw [drawFrom, if_neg (by decide), if_pos rfl]

theorem drawFrom_backspace : drawFrom fg bg base (backspace :: text) (x * 9) row =
    ⟨0x20, (if x ≤ 0 then 0 else x - 1) * 9, row, fg, bg⟩ ::
      drawFrom fg bg base text ((if x ≤ 0 then 0 else x - 1) * 9) row := by
  have hpos : (if x * 9 ≤ 0 then 0 else x * 9 - 9) = (if x ≤ 0 then 0 else x - 1) * 9 := by
    split_ifs <;> omega
  rw [drawFrom, if_neg (by decide), if_neg (by decide), if_pos rfl]
  simp only [hpos]

theorem drawFrom_tab : drawFrom fg bg base (tab :: text) (x * 9) row =
    drawFrom fg bg base text ((x + 4) * 9) row := by
  rw [drawFrom, if_neg (by decide), if_neg (by decide), if_neg (by decide), if_pos rfl]
  congr 1
  omega

theorem drawFrom_plain {b : BitVec 8} (hb : Plain b) :
    drawFrom fg bg base (b :: text) (x * 9) row =
      ⟨if 32 ≤ b ∧ b ≤ 254 then b else questionMark, x * 9, row, fg, bg⟩ ::
        drawFrom fg bg base text ((x + 1) * 9) row := by
  rw [drawFrom, if_neg hb.newline, if_neg hb.carriageReturn, if_neg hb.backspace, if_neg hb.tab]
  congr 2
  omega

/-- The pen draws one character and goes on from where that leaves it. -/
theorem drawFrom_cons (b : BitVec 8) :
    drawFrom fg bg (base * 9) (b :: text) (x * 9) (row * 16) =
      drawFrom fg bg 0 [b] (x * 9) (row * 16) ++
        drawFrom fg bg (base * 9) text ((penStep base (x, row) b).1 * 9)
          ((penStep base (x, row) b).2 * 16) := by
  rcases byte_cases b with rfl | rfl | rfl | rfl | hb
  · rw [drawFrom_newline, drawFrom_newline]
    rfl
  · rw [drawFrom_carriageReturn, drawFrom_carriageReturn]
    rfl
  · rw [drawFrom_backspace, drawFrom_backspace]
    rfl
  · rw [drawFrom_tab, drawFrom_tab]
    rfl
  · rw [drawFrom_plain _ _ _ _ _ _ hb, drawFrom_plain _ _ _ _ _ _ hb]
    simp only [penStep, hb.newline, hb.carriageReturn, hb.backspace, hb.tab, if_false]
    rfl

theorem drawFrom_append (rest : List (BitVec 8)) :
    drawFrom fg bg (base * 9) (text ++ rest) (x * 9) (row * 16) =
      drawFrom fg bg (base * 9) text (x * 9) (row * 16) ++
        drawFrom fg bg (base * 9) rest ((text.foldl (penStep base) (x, row)).1 * 9)
          ((text.foldl (penStep base) (x, row)).2 * 16) := by
  induction text generalizing x row with
  | nil => rfl
  | cons b text ih =>
    rw [List.cons_append, drawFrom_cons, ih, drawFrom_cons, List.append_assoc, List.foldl_cons]

end

theorem penStep_nonneg {base : Int} (hbase : 0 ≤ base) {cursor : Int × Int} (hcol : 0 ≤ cursor.1)
    (b : BitVec 8) : 0 ≤ (penStep base cursor b).1 := by
  unfold penStep
  split_ifs <;> simp only <;> omega

theorem foldl_penStep_nonneg {base : Int} (hbase : 0 ≤ base) {cursor : Int × Int}
    (hcol : 0 ≤ cursor.1) (text : List (BitVec 8)) :
    0 ≤ (text.foldl (penStep base) cursor).1 := by
  induction text generalizing cursor with
  | nil => exact hcol
  | cons b text ih => exact ih (penStep_nonneg hbase hcol b)

/-- The column of a pen that starts at column `start` and goes back to `base` at line breaks, after a
text. -/
def column (base start : Int) (text : List (BitVec 8)) : Int :=
  (text.foldl (penStep base) (start, 0)).1

theorem column_nonneg {base start : Int} (hbase : 0 ≤ base) (hstart : 0 ≤ start)
    (text : List (BitVec 8)) : 0 ≤ column base start text :=
  foldl_penStep_nonneg hbase hstart text

/-- The column does not depend on the rows. -/
theorem foldl_penStep_col (base start row row' : Int) (text : List (BitVec 8)) :
    (text.foldl (penStep base) (start, row)).1 = (text.foldl (penStep base) (start, row')).1 := by
  induction text generalizing start row row' with
  | nil => rfl
  | cons b text ih =>
    have hcol : (penStep base (start, row) b).1 = (penStep base (start, row') b).1 := by
      unfold penStep
      split_ifs <;> rfl
    rw [List.foldl_cons, List.foldl_cons, ← Prod.mk.eta (p := penStep base (start, row) b), hcol]
    exact ih _ _ _

/-- The row does not depend on the columns. -/
theorem foldl_penStep_row (base base' : Int) {cursor cursor' : Int × Int}
    (hrow : cursor.2 = cursor'.2) (text : List (BitVec 8)) :
    (text.foldl (penStep base) cursor).2 = (text.foldl (penStep base') cursor').2 := by
  induction text generalizing cursor cursor' with
  | nil => exact hrow
  | cons b text ih =>
    refine ih ?_
    unfold penStep
    split_ifs <;> simp only [hrow]

/-! ### Two pens on one text -/

theorem sameFrom_backspace {x y : Int} (hx : 0 ≤ x) (hy : 0 ≤ y) (line : List (BitVec 8)) :
    SameFrom x y (backspace :: line) ↔
      (if x ≤ 0 then 0 else x - 1) = if y ≤ 0 then 0 else y - 1 := by
  have hnot : ¬ ∀ b ∈ backspace :: line, b = tab :=
    fun hall => absurd (hall _ List.mem_cons_self) (by decide)
  simp only [SameFrom, hnot, false_or, List.head?_cons, true_and]
  split_ifs <;> omega

theorem sameFrom_tab {x y : Int} (hx : 0 ≤ x) (line : List (BitVec 8)) :
    SameFrom x y (tab :: line) ↔ SameFrom (x + 4) (y + 4) line := by
  have hhead : (tab :: line).head? ≠ some backspace := by
    simp only [List.head?_cons]
    decide
  simp only [SameFrom, List.forall_mem_cons, true_and, hhead, false_and, or_false]
  have hclamp : ¬ (x + 4 ≤ 1 ∧ y + 4 ≤ 1) := by omega
  simp only [hclamp, and_false, or_false, Int.add_left_inj]

theorem sameFrom_plain {x y : Int} {b : BitVec 8} (hb : Plain b) (line : List (BitVec 8)) :
    SameFrom x y (b :: line) ↔ x = y := by
  have hnot : ¬ ∀ c ∈ b :: line, c = tab := fun hall => hb.tab (hall b List.mem_cons_self)
  have hhead : (b :: line).head? ≠ some backspace := by
    simp only [List.head?_cons, ne_eq, Option.some.injEq]
    exact hb.backspace
  simp only [SameFrom, hnot, hhead, false_and, or_false]

theorem drawChar_eq_iff {c : BitVec 8} {x y row : Int} {fg bg : BitVec 32} :
    (⟨c, x * 9, row, fg, bg⟩ : DrawChar) = ⟨c, y * 9, row, fg, bg⟩ ↔ x = y := by
  rw [DrawChar.mk.injEq]
  refine ⟨fun h => Int.eq_of_mul_eq_mul_right (by decide) h.2.1, fun h => ?_⟩
  rw [h]
  exact ⟨rfl, rfl, rfl, rfl, rfl⟩

/-- Two pens draw the same exactly when each line is drawn at the same places: the first from where
the pens are, the others from where line breaks lead. -/
theorem drawFrom_eq_iff (fg bg : BitVec 32) {base base' : Int} (hbase : 0 ≤ base)
    (hbase' : 0 ≤ base') (text : List (BitVec 8)) {x x' : Int} (hx : 0 ≤ x) (hx' : 0 ≤ x')
    (row : Int) :
    drawFrom fg bg (base * 9) text (x * 9) (row * 16) =
        drawFrom fg bg (base' * 9) text (x' * 9) (row * 16) ↔
      SameFrom x x' ((lines text).headD []) ∧
        ∀ line ∈ (lines text).tail, SameFrom base base' line := by
  induction text generalizing x x' row with
  | nil => simp [lines_nil, drawFrom, SameFrom]
  | cons b text ih =>
    rcases byte_cases b with rfl | rfl | rfl | rfl | hb
    · rw [drawFrom_newline, drawFrom_newline, ih hbase hbase', lines_cons_of_breaks rfl,
        List.tail_cons, forall_mem_lines]
      simp [SameFrom]
    · rw [drawFrom_carriageReturn, drawFrom_carriageReturn, ih hbase hbase',
        lines_cons_of_breaks rfl, List.tail_cons, forall_mem_lines]
      simp [SameFrom]
    · rw [drawFrom_backspace, drawFrom_backspace, lines_cons rfl, List.headD_cons, List.tail_cons,
        sameFrom_backspace hx hx', List.cons.injEq, drawChar_eq_iff,
        ih (by split_ifs <;> omega) (by split_ifs <;> omega)]
      exact ⟨fun h => ⟨h.1, h.2.2⟩, fun h => ⟨h.1, Or.inl h.1, h.2⟩⟩
    · rw [drawFrom_tab, drawFrom_tab, lines_cons rfl, List.headD_cons, List.tail_cons,
        sameFrom_tab hx, ih (by omega) (by omega)]
    · rw [drawFrom_plain _ _ _ _ _ _ hb, drawFrom_plain _ _ _ _ _ _ hb, lines_cons hb.breaks,
        List.headD_cons, List.tail_cons, sameFrom_plain hb, List.cons.injEq, drawChar_eq_iff,
        ih (by omega) (by omega)]
      exact ⟨fun h => ⟨h.1, h.2.2⟩, fun h => ⟨h.1, Or.inl (by rw [h.1]), h.2⟩⟩

/-! ### Strings and their characters -/

theorem CString.append_bytes (s t : CString) : (s ++ t).bytes = s.bytes ++ t.bytes := rfl

theorem ofBytes_char {b : BitVec 8} (hb : b ≠ 0) : (CString.ofBytes [b, 0]).bytes = [b] := by
  have hone : [b, 0].takeWhile (fun c => decide (c ≠ 0)) = [b] := by
    rw [List.takeWhile_cons_of_pos (by simpa using hb), List.takeWhile_cons_of_neg (by simp)]
  exact hone

theorem kprint_eq (con : Console) (s : CString) : kprint con s =
    ⟨(s.bytes.foldl advance (con.cursorCol, con.cursorRow)).1,
      (s.bytes.foldl advance (con.cursorCol, con.cursorRow)).2, con.drawn ++
        drawFrom colorWhite colorBlack (con.cursorCol * 9) s.bytes (con.cursorCol * 9)
          (con.cursorRow * 16)⟩ := rfl

theorem kputc_eq (con : Console) {b : BitVec 8} (hb : b ≠ 0) : kputc con b =
    ⟨(advance (con.cursorCol, con.cursorRow) b).1, (advance (con.cursorCol, con.cursorRow) b).2,
      con.drawn ++ drawFrom colorWhite colorBlack 0 [b] (con.cursorCol * 9)
        (con.cursorRow * 16)⟩ := by
  rw [kputc, kprint_eq, ofBytes_char hb, List.foldl_cons, List.foldl_nil, drawFrom_cons]
  simp only [drawFrom, List.append_nil]

/-- The characters of a text, printed one by one, are drawn by a pen that goes back to column 0. -/
theorem foldl_kputc {text : List (BitVec 8)} (hne : ∀ b ∈ text, b ≠ 0) (con : Console) :
    text.foldl kputc con =
      ⟨(text.foldl advance (con.cursorCol, con.cursorRow)).1,
        (text.foldl advance (con.cursorCol, con.cursorRow)).2, con.drawn ++
          drawFrom colorWhite colorBlack 0 text (con.cursorCol * 9) (con.cursorRow * 16)⟩ := by
  induction text generalizing con with
  | nil => simp [drawFrom]
  | cons b text ih =>
    obtain ⟨hb, htext⟩ := List.forall_mem_cons.mp hne
    have hcons := drawFrom_cons colorWhite colorBlack 0 con.cursorCol con.cursorRow text b
    rw [Int.zero_mul] at hcons
    rw [List.foldl_cons, ih htext, kputc_eq con hb, hcons, List.foldl_cons, List.append_assoc,
      advance_eq_penStep]

/-- Printing a string draws what printing its characters draws where the lines after the first are
drawn at the same places from the cursor's column and from column 0. -/
theorem kprint_eq_foldl_kputc_iff {con : Console} (hcol : 0 ≤ con.cursorCol) (s : CString) :
    kprint con s = s.bytes.foldl kputc con ↔
      ∀ line ∈ (lines s.bytes).tail, SameFrom con.cursorCol 0 line := by
  have hpens := drawFrom_eq_iff colorWhite colorBlack hcol (le_refl 0) s.bytes hcol hcol
    con.cursorRow
  rw [Int.zero_mul] at hpens
  rw [kprint_eq, foldl_kputc s.nonzero, Console.mk.injEq, List.append_right_inj]
  simp only [true_and]
  rw [hpens]
  exact ⟨fun h => h.2, fun h => ⟨Or.inl rfl, h⟩⟩

/-- The lines of `b` are drawn at the same places when it is printed after `a` in a call of its own as
when it is printed in one call with `a`, from column `col` on: the first line from the columns of the
cursor and of the pen after `a`, and the others from the columns that the two calls started at. -/
def SplitsAlike (col : Int) (a b : List (BitVec 8)) : Prop :=
  SameFrom (column col col a) (column 0 col a) ((lines b).headD []) ∧
    ∀ line ∈ (lines b).tail, SameFrom col (column 0 col a) line

theorem kprint_append_iff {con : Console} (hcol : 0 ≤ con.cursorCol) (a b : CString) :
    kprint con (a ++ b) = kprint (kprint con a) b ↔
      SplitsAlike con.cursorCol a.bytes b.bytes := by
  obtain ⟨col, row, drawn⟩ := con
  replace hcol : 0 ≤ col := hcol
  -- after `a` the cursor and the pen are in the same row
  obtain ⟨row', hcursor⟩ : ∃ row', a.bytes.foldl advance (col, row) = (column 0 col a.bytes, row') :=
    ⟨(a.bytes.foldl advance (col, row)).2, Prod.ext (foldl_penStep_col 0 col row 0 a.bytes) rfl⟩
  have hpen : a.bytes.foldl (penStep col) (col, row) = (column col col a.bytes, row') := by
    refine Prod.ext (foldl_penStep_col col col row 0 a.bytes) ?_
    rw [foldl_penStep_row col 0 rfl a.bytes, ← advance_eq_penStep, hcursor]
  have happend := drawFrom_append colorWhite colorBlack col col row a.bytes b.bytes
  rw [hpen] at happend
  simp only [kprint_eq, CString.append_bytes, List.foldl_append, Console.mk.injEq, hcursor, true_and,
    happend, List.append_assoc, List.append_right_inj]
  exact drawFrom_eq_iff colorWhite colorBlack hcol (column_nonneg (le_refl 0) hcol a.bytes)
    b.bytes (column_nonneg hcol hcol a.bytes) (column_nonneg (le_refl 0) hcol a.bytes) row'

/-! ### The callers -/

theorem kprintfCalls_literal {format : List (BitVec 8)} (hformat : percent ∉ format)
    (args : List VaArg) : kprintfCalls format args = .ok (format.map .kputc) := by
  induction format with
  | nil => rfl
  | cons b format ih =>
    rw [List.mem_cons, not_or] at hformat
    rw [kprintfCalls_cons (Ne.symm hformat.1), ih hformat.2]
    rfl

/-- `kprintf` of a format without `%` prints its characters. -/
theorem kprintf_literal {s : CString} (hs : percent ∉ s.bytes) (con : Console)
    (args : List VaArg) : kprintf con s args = .ok (s.bytes.foldl kputc con) := by
  rw [kprintf_eq, kprintfCalls_literal hs]
  simp only [Except.map, List.foldl_map]
  rfl

theorem kprintf_string (con : Console) (s : CString) :
    kprintf con (.ofChars ['%', 's']) [.str (some s)] = .ok (kprint con s) := rfl

/-- The loop of `sys_write` after `k` characters, with `left` of them left. -/
theorem sysWriteLoop_eq (m : Mem) (args : BitVec 32) {k left fuel : Nat}
    (hk : k + left = (WriteArguments.count m args).toNat) (hfuel : left ≤ fuel) (con : Console) :
    sysWriteLoop m args fuel (BitVec.ofNat 32 k) con =
      ((bytesAt m (WriteArguments.buf m args + BitVec.ofNat 32 k) left).foldl kputc con,
        WriteArguments.count m args) := by
  induction left generalizing k fuel con with
  | zero =>
    have hdone : BitVec.ofNat 32 k = WriteArguments.count m args := by bv_omega
    cases fuel with
    | zero =>
      rw [sysWriteLoop, hdone]
      rfl
    | succ fuel =>
      rw [sysWriteLoop, hdone, if_neg (BitVec.lt_irrefl _)]
      rfl
  | succ left ih =>
    obtain ⟨fuel, rfl⟩ : ∃ f, fuel = f + 1 := ⟨fuel - 1, by omega⟩
    have hlt : BitVec.ofNat 32 k < WriteArguments.count m args := by bv_omega
    have hnext : BitVec.ofNat 32 k + 1 = BitVec.ofNat 32 (k + 1) := by bv_omega
    rw [sysWriteLoop, if_pos hlt]
    simp only
    rw [hnext, ih (by omega) (by omega), Nat.add_comm left 1, bytesAt_add, bytesAt_one,
      List.foldl_append, BitVec.add_assoc, ← BitVec.ofNat_add, List.foldl_cons, List.foldl_nil]

/-- `sys_write` prints the characters of the buffer. -/
theorem sysWrite_eq (con : Console) (m : Mem) (args : BitVec 32) : sysWrite con m args =
    ((bytesAt m (WriteArguments.buf m args) (WriteArguments.count m args).toNat).foldl kputc con,
      WriteArguments.count m args) := by
  have hloop := sysWriteLoop_eq m args (Nat.zero_add _) (Nat.le_of_lt (BitVec.isLt _)) con
  rw [BitVec.add_zero] at hloop
  exact hloop

/-- A string is printed alike by all of the ways to print it: `kprint`, `kputc` of its characters,
`kprintf` with it as the format or as the argument of `%s`, and `sys_write`. -/
structure RendersAlike (con : Console) (s : CString) : Prop where
  chars : s.bytes.foldl kputc con = kprint con s
  literal : percent ∉ s.bytes → kprintf con s [] = .ok (kprint con s)
  string : kprintf con (.ofChars ['%', 's']) [.str (some s)] = .ok (kprint con s)
  write : ∀ m args, (WriteArguments.count m args).toNat = s.bytes.length →
    bytesAt m (WriteArguments.buf m args) s.bytes.length = s.bytes →
    sysWrite con m args = (kprint con s, WriteArguments.count m args)

theorem rendersAlike_iff (con : Console) (s : CString) :
    RendersAlike con s ↔ kprint con s = s.bytes.foldl kputc con := by
  refine ⟨fun h => h.chars.symm, fun h => ⟨h.symm, fun hs => ?_, kprintf_string con s, ?_⟩⟩
  · rw [kprintf_literal hs, h]
  · intro m args hcount hbuf
    rw [sysWrite_eq, hcount, hbuf, h]

/-- A string is printed alike in every way exactly when each of its lines after the first is drawn at
the same places from the cursor's column and from column 0, and it is printed in one call as in two
exactly when the lines of its second part are. -/
theorem kprint_renders_alike_iff {con : Console} (hcol : 0 ≤ con.cursorCol) (s : CString) :
    (RendersAlike con s ↔ ∀ line ∈ (lines s.bytes).tail, SameFrom con.cursorCol 0 line) ∧
    ∀ a b : CString, a ++ b = s →
      (kprint con s = kprint (kprint con a) b ↔ SplitsAlike con.cursorCol a.bytes b.bytes) := by
  refine ⟨?_, ?_⟩
  · rw [rendersAlike_iff, kprint_eq_foldl_kputc_iff hcol]
  · rintro a b rfl
    exact kprint_append_iff hcol a b

/-- After `hello` the cursor is in column 5.  There a line break at the end of a string does no harm,
and one before a character does. -/
theorem kprint_renders_alike_hello :
    let con := kprint ⟨0, 0, []⟩ (.ofChars ['h', 'e', 'l', 'l', 'o'])
    con.cursorCol = 5 ∧ RendersAlike con (.ofChars ['!', '\n']) ∧
      ¬ RendersAlike con (.ofChars ['\n', 'b']) := by
  intro con
  have hcol : 0 ≤ con.cursorCol := by decide
  have hlast := (kprint_renders_alike_iff hcol (.ofChars ['!', '\n'])).1
  have hfirst := (kprint_renders_alike_iff hcol (.ofChars ['\n', 'b'])).1
  exact ⟨by decide, hlast.mpr (by decide), fun h => absurd (hfirst.mp h) (by decide)⟩

/-- A character after a line break after `hello`: `kprint` draws it in column 5, and `kputc` in
column 0. -/
theorem kprint_alike_secondLine :
    ¬ ∀ con : Console, 0 ≤ con.cursorCol → 0 ≤ con.cursorRow → ∀ s : CString, RendersAlike con s ∧
      ∀ a b : CString, a ++ b = s → kprint con s = kprint (kprint con a) b := by
  intro h
  have hchars := (h (kprint ⟨0, 0, []⟩ (.ofChars ['h', 'e', 'l', 'l', 'o'])) (by decide) (by decide)
    (.ofChars ['\n', 'b'])).1.chars
  exact absurd hchars (by decide)

end Sapphire
