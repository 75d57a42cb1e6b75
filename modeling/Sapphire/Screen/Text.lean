import Sapphire.Print.Cursor
import Sapphire.Screen.Glyphs

/-! The text screen that `kprint` and the functions over it make of the framebuffer: a grid of cells,
nine pixels wide and sixteen high, each of which shows the character that was written there last.
There is no scrolling, and what is written beside the screen leaves no trace on it. -/

namespace Sapphire

open Machine Picture FramebufferInfo

/-- The characters that stand in the cells of a text screen, and the cursor. -/
structure Terminal where
  cells : Picture (Int × Int) (BitVec 8)
  col : Int
  row : Int

/-- The mark that a pen leaves for a character, if any: a backspace blanks the cell it goes back to,
and what is not a character is shown as one. -/
def mark (base : Int) (pen : Int × Int) (b : BitVec 8) : Picture (Int × Int) (BitVec 8) :=
  if b = newline ∨ b = carriageReturn ∨ b = tab then blank
  else if b = backspace then dot (penStep base pen b) 0x20
  else dot pen (if 32 ≤ b ∧ b ≤ 254 then b else questionMark)

/-- The marks of a pen for a text, the later ones over the earlier ones. -/
def marks (base : Int) : Int × Int → List (BitVec 8) → Picture (Int × Int) (BitVec 8)
  | _, [] => blank
  | pen, b :: text => (marks base (penStep base pen b) text).atop (mark base pen b)

namespace Terminal

/-- A text from the cursor on, whose lines start in the column of the cursor. -/
def print (t : Terminal) (text : List (BitVec 8)) : Terminal :=
  let cursor := text.foldl advance (t.col, t.row)
  ⟨(marks t.col (t.col, t.row) text).atop t.cells, cursor.1, cursor.2⟩

/-- A character by itself; the NUL is none. -/
def type (t : Terminal) (b : BitVec 8) : Terminal := t.print (CString.ofBytes [b, 0]).bytes

def call (t : Terminal) : PrintCall → Terminal
  | .kprint str => t.print str.bytes
  | .kputc c => t.type c

def apply (t : Terminal) : PrintOp → Except PrintFault Terminal
  | .kprint str => .ok (t.print str.bytes)
  | .kprintAt str col row => .ok (print { t with col := col, row := row } str.bytes)
  | .kputc c => .ok (t.type c)
  | .kprintf format args => (kprintfCalls format.bytes args).map fun calls => calls.foldl call t
  | .sysWrite m args =>
    .ok ((bytesAt m (WriteArguments.buf m args) (WriteArguments.count m args).toNat).foldl type t)

/-- What the pixels of the terminal show: white characters on black in the cells that have one, and
nothing in the column of pixels between two cells. -/
def image (font : Font) (cells : Picture (Int × Int) (BitVec 8)) :
    Picture (Int × Int) (BitVec 32) := fun p =>
  if p.1 % 9 < 8 then (cells (p.1 / 9, p.2 / 16)).map fun c =>
    if (font.row c (@Fin.ofNat _ charHeight_neZero (p.2 % 16).toNat)).getMsbD (p.1 % 9).toNat
    then colorWhite else colorBlack
  else none

end Terminal

/-! ### The calls of `draw_char` -/

/-- A character in its cell, white on black. -/
structure DrawChar.InCell (d : DrawChar) (cell : Int × Int) : Prop where
  x : d.x = cell.1 * 9
  y : d.y = cell.2 * 16
  fgcolor : d.fgcolor = colorWhite
  bgcolor : d.bgcolor = colorBlack

/-- `drawn` are characters in cells, and `cells` what they leave there. -/
inductive Leaves : List DrawChar → Picture (Int × Int) (BitVec 8) → Prop
  | nil : Leaves [] blank
  | concat {drawn : List DrawChar} {cells : Picture (Int × Int) (BitVec 8)} {d : DrawChar}
      {cell : Int × Int} (h : Leaves drawn cells) (hd : d.InCell cell) :
      Leaves (drawn ++ [d]) ((dot cell d.chr).atop cells)

section

variable (base : Int) (pen : Int × Int) {b : BitVec 8}

theorem mark_eq_blank (hb : b = newline ∨ b = carriageReturn ∨ b = tab) : mark base pen b = blank :=
  if_pos hb

theorem mark_backspace : mark base pen backspace = dot (penStep base pen backspace) 0x20 := by
  rw [mark, if_neg (by decide), if_pos rfl]

theorem mark_plain (hb : Plain b) :
    mark base pen b = dot pen (if 32 ≤ b ∧ b ≤ 254 then b else questionMark) := by
  simp only [mark, hb.newline, hb.carriageReturn, hb.tab, hb.backspace, or_self, if_false]

end

/-- One character. -/
theorem Leaves.drawn_single {drawn : List DrawChar} {cells : Picture (Int × Int) (BitVec 8)}
    (h : Leaves drawn cells) (base x row : Int) (b : BitVec 8) :
    Leaves (drawn ++ drawFrom colorWhite colorBlack 0 [b] (x * 9) (row * 16))
      ((mark base (x, row) b).atop cells) := by
  rcases byte_cases b with rfl | rfl | rfl | rfl | hb
  · rw [drawFrom_newline, drawFrom, List.append_nil, mark_eq_blank _ _ (.inl rfl), blank_atop]
    exact h
  · rw [drawFrom_carriageReturn, drawFrom, List.append_nil, mark_eq_blank _ _ (.inr (.inl rfl)),
      blank_atop]
    exact h
  · rw [drawFrom_backspace, drawFrom, mark_backspace]
    exact h.concat ⟨rfl, rfl, rfl, rfl⟩
  · rw [drawFrom_tab, drawFrom, List.append_nil, mark_eq_blank _ _ (.inr (.inr rfl)), blank_atop]
    exact h
  · rw [drawFrom_plain _ _ _ _ _ _ hb, drawFrom, mark_plain _ _ hb]
    have hcell : DrawChar.InCell ⟨if 32 ≤ b ∧ b ≤ 254 then b else questionMark, x * 9, row * 16,
        colorWhite, colorBlack⟩ (x, row) := ⟨rfl, rfl, rfl, rfl⟩
    exact h.concat hcell

/-- The pen of `draw_string` marks the cells. -/
theorem Leaves.drawn {drawn : List DrawChar} {cells : Picture (Int × Int) (BitVec 8)}
    (h : Leaves drawn cells) (base x row : Int) (text : List (BitVec 8)) :
    Leaves (drawn ++ drawFrom colorWhite colorBlack (base * 9) text (x * 9) (row * 16))
      ((marks base (x, row) text).atop cells) := by
  induction text generalizing drawn cells x row with
  | nil =>
    rw [drawFrom, List.append_nil, marks, blank_atop]
    exact h
  | cons b text ih =>
    rw [drawFrom_cons, ← List.append_assoc, marks, atop_assoc]
    exact ih (h.drawn_single base x row b) _ _

/-! ### Runs -/

/-- The terminal has the marks of what was drawn, and the cursor. -/
structure Console.Shows (con : Console) (t : Terminal) : Prop where
  leaves : Leaves con.drawn t.cells
  col : t.col = con.cursorCol
  row : t.row = con.cursorRow

namespace Console.Shows

variable {con con' : Console} {t : Terminal}

theorem print (h : con.Shows t) (s : CString) : (kprint con s).Shows (t.print s.bytes) := by
  obtain ⟨cells, col, row⟩ := t
  obtain ⟨hleaves, rfl, rfl⟩ := h
  rw [kprint_eq]
  exact ⟨hleaves.drawn _ _ _ _, rfl, rfl⟩

theorem type (h : con.Shows t) (b : BitVec 8) : (kputc con b).Shows (t.type b) := h.print _

theorem calls (h : con.Shows t) (calls : List PrintCall) :
    (calls.foldl PrintCall.run con).Shows (calls.foldl Terminal.call t) := by
  induction calls generalizing con t with
  | nil => exact h
  | cons call calls ih =>
    cases call with
    | kprint str => exact ih (h.print str)
    | kputc c => exact ih (h.type c)

theorem chars (h : con.Shows t) (text : List (BitVec 8)) :
    (text.foldl kputc con).Shows (text.foldl Terminal.type t) := by
  induction text generalizing con t with
  | nil => exact h
  | cons b text ih => exact ih (h.type b)

/-- One call. -/
theorem op (h : con.Shows t) {op : PrintOp} (hrun : op.run con = .ok con') :
    ∃ t', t.apply op = .ok t' ∧ con'.Shows t' := by
  cases op with
  | kprint str =>
    obtain rfl := Except.ok.inj hrun
    exact ⟨_, rfl, h.print str⟩
  | kprintAt str col row =>
    obtain rfl := Except.ok.inj hrun
    have hmoved : ({ con with cursorCol := col, cursorRow := row } : Console).Shows
        { t with col := col, row := row } := ⟨h.leaves, rfl, rfl⟩
    exact ⟨_, rfl, hmoved.print str⟩
  | kputc c =>
    obtain rfl := Except.ok.inj hrun
    exact ⟨_, rfl, h.type c⟩
  | kprintf format args =>
    rw [PrintOp.run, kprintf_eq] at hrun
    rw [Terminal.apply]
    cases hcalls : kprintfCalls format.bytes args with
    | error e =>
      rw [hcalls] at hrun
      cases hrun
    | ok calls =>
      rw [hcalls] at hrun
      obtain rfl := Except.ok.inj hrun
      exact ⟨_, rfl, h.calls calls⟩
  | sysWrite m args =>
    obtain rfl := Except.ok.inj hrun
    rw [sysWrite_eq]
    exact ⟨_, rfl, h.chars _⟩

/-- A whole run. -/
theorem run (h : con.Shows t) {ops : List PrintOp} (hrun : ops.foldlM PrintOp.run con = .ok con') :
    ∃ t', ops.foldlM Terminal.apply t = .ok t' ∧ con'.Shows t' := by
  induction ops generalizing con t with
  | nil =>
    obtain rfl := Except.ok.inj hrun
    exact ⟨t, rfl, h⟩
  | cons op ops ih =>
    rw [List.foldlM_cons] at hrun ⊢
    cases hop : op.run con with
    | error e =>
      rw [hop] at hrun
      cases hrun
    | ok con1 =>
      rw [hop] at hrun
      obtain ⟨t1, ht1, h1⟩ := h.op hop
      rw [ht1]
      exact ih h1 hrun

end Console.Shows

/-! ### The pixels -/

theorem image_blank (font : Font) : Terminal.image font blank = blank :=
  funext fun p => by
    rw [Terminal.image]
    split_ifs <;> rfl

/-- A character that is drawn in a cell. -/
theorem image_atop (font : Font) {d : DrawChar} {cell : Int × Int} (hd : d.InCell cell)
    (cells : Picture (Int × Int) (BitVec 8)) :
    Terminal.image font ((dot cell d.chr).atop cells) =
      (font.glyph d).atop (Terminal.image font cells) := by
  obtain ⟨hx, hy, hfg, hbg⟩ := hd
  funext p
  rw [Terminal.image, dot_atop, atop, Font.glyph, region, Terminal.image]
  by_cases hcol : p.1 % 9 < 8
  · rw [if_pos hcol, if_pos hcol]
    by_cases hcell : (p.1 / 9, p.2 / 16) = cell
    · have h1 : p.1 / 9 = cell.1 := congrArg Prod.fst hcell
      have h2 : p.2 / 16 = cell.2 := congrArg Prod.snd hcell
      have hdx : p.1 - d.x = p.1 % 9 := by omega
      have hdy : p.2 - d.y = p.2 % 16 := by omega
      rw [if_pos hcell, if_pos (by omega), Font.ink, hdx, hdy, hfg, hbg]
      rfl
    · rw [if_neg hcell, if_neg, Option.none_or]
      rw [Prod.ext_iff] at hcell
      dsimp only at hcell
      omega
  · rw [if_neg hcol, if_neg hcol, if_neg (by omega), Option.none_or]

theorem drawChars_concat (font : Font) (fb : FramebufferInfo) (m : Mem) (drawn : List DrawChar)
    (d : DrawChar) :
    drawChars font fb m (drawn ++ [d]) = drawChar font fb (drawChars font fb m drawn) d := by
  rw [drawChars, List.foldl_append, List.foldl_cons, List.foldl_nil, drawChars]

theorem drawChars_draws {vbe : VbeModeInfo} (h : vbe.Fits) (font : Font) (m : Mem)
    {drawn : List DrawChar} {cells : Picture (Int × Int) (BitVec 8)} (hleaves : Leaves drawn cells)
    (hfits : ∀ d ∈ drawn, d.Fits) :
    (getFramebufferInfo vbe).Draws (Terminal.image font cells) m
      (drawChars font (getFramebufferInfo vbe) m drawn) := by
  induction hleaves with
  | nil =>
    rw [image_blank]
    exact .blank m
  | concat hleaves hd ih =>
    rw [List.forall_mem_append] at hfits
    rw [image_atop font hd, drawChars_concat]
    exact (ih hfits.1).trans (drawChar_draws h font (hfits.2 _ (List.mem_singleton_self _)) _)

/-- Whatever is printed, by whatever calls, the framebuffer shows the characters of the terminal on
which it is typed: each cell the one that was written there last, and the rest of the screen and of
the memory as it was. -/
theorem text_screen {vbe : VbeModeInfo} (h : vbe.Fits) (font : Font) (m : Mem) {col row : Int}
    {ops : List PrintOp} {con : Console} (hrun : ops.foldlM PrintOp.run ⟨col, row, []⟩ = .ok con)
    (hfits : ∀ d ∈ con.drawn, d.Fits) :
    ∃ t, ops.foldlM Terminal.apply ⟨blank, col, row⟩ = .ok t ∧
      t.col = con.cursorCol ∧ t.row = con.cursorRow ∧
      (getFramebufferInfo vbe).Draws (Terminal.image font t.cells) m
        (drawChars font (getFramebufferInfo vbe) m con.drawn) := by
  have hstart : (⟨col, row, []⟩ : Console).Shows ⟨blank, col, row⟩ := ⟨.nil, rfl, rfl⟩
  obtain ⟨t, ht, hshows⟩ := hstart.run hrun
  exact ⟨t, ht, hshows.col, hshows.row, drawChars_draws h font m hshows.leaves hfits⟩

/-- Two lines on the screen of the mode that the boot loader sets. -/
theorem text_screen_800x600 :
    let con := kputc (kputc (kprint ⟨0, 0, []⟩ (.ofChars ['H', 'i'])) newline) 0x21
    ∀ (font : Font) (m : Mem), ∃ t : Terminal, (t.cells (0, 0) = some 0x48 ∧ t.cells (1, 0) = some 0x69 ∧
        t.cells (0, 1) = some 0x21 ∧ t.cells (2, 0) = none) ∧
      (getFramebufferInfo ⟨2400, 800, 600, 24, 0xFD000000⟩).Draws (Terminal.image font t.cells) m
        (drawChars font (getFramebufferInfo ⟨2400, 800, 600, 24, 0xFD000000⟩) m con.drawn) := by
  intro con font m
  have hrun : [.kprint (.ofChars ['H', 'i']), .kputc newline, .kputc 0x21].foldlM PrintOp.run
      ⟨0, 0, []⟩ = .ok con := rfl
  obtain ⟨t, ht, -, -, hdraws⟩ := text_screen fits_800x600 font m hrun (by decide)
  obtain rfl := Except.ok.inj ht
  exact ⟨_, by decide, hdraws⟩

end Sapphire
