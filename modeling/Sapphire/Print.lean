import Sapphire.Lib.Memory
import Mathlib.Data.List.TakeWhile

/-! Text output: `draw_string` and `draw_string_at` of `primitives/string.cpp`, `kprint`, `kputc` and
`kprintf` of `kprint.cpp`, and the `write` system call of `write.cpp`.  What a call puts on the screen
is the list of the calls of `draw_char` that it makes.  An `int` is an integer: pixel positions that
do not fit into 32 bits are not modelled.  A string is a list of bytes that ends where its NUL would
be, and the pointers to strings are never null, except among the arguments of `kprintf`. -/

namespace Sapphire

open Machine

/-- A NUL-terminated string: the bytes before the NUL. -/
structure CString where
  bytes : List (BitVec 8)
  nonzero : ∀ b ∈ bytes, b ≠ 0

namespace CString

/-- The string at the start of an array of bytes. -/
def ofBytes (bytes : List (BitVec 8)) : CString where
  bytes := bytes.takeWhile (· ≠ 0)
  nonzero b hb := by simpa using List.mem_takeWhile_imp hb

/-- A string literal. -/
def ofChars (chars : List Char) : CString := ofBytes (chars.map fun c => BitVec.ofNat 8 c.toNat)

instance : Append CString where
  append s t := ⟨s.bytes ++ t.bytes, fun b hb => (List.mem_append.mp hb).elim (s.nonzero b)
    (t.nonzero b)⟩

/-- `str[i]`, which is the NUL at the end and has no value after it. -/
def read (str : CString) (i : Nat) : Option (BitVec 8) := (str.bytes ++ [0])[i]?

end CString

abbrev backspace : BitVec 8 := 0x08
abbrev tab : BitVec 8 := 0x09
abbrev newline : BitVec 8 := 0x0A
abbrev carriageReturn : BitVec 8 := 0x0D
abbrev percent : BitVec 8 := 0x25
abbrev questionMark : BitVec 8 := 0x3F

abbrev colorWhite : BitVec 32 := 0xFFFFFF
abbrev colorBlack : BitVec 32 := 0

/-- A call of `draw_char`. -/
structure DrawChar where
  chr : BitVec 8
  x : Int
  y : Int
  fgcolor : BitVec 32
  bgcolor : BitVec 32
  deriving DecidableEq

/-- The loop of `draw_string` from a byte on, with the variables `pos` and `pos_y`. -/
def drawFrom (fgcolor bgcolor : BitVec 32) (startX : Int) :
    List (BitVec 8) → Int → Int → List DrawChar
  | [], _, _ => []
  | b :: text, pos, posY =>
    if b = newline then drawFrom fgcolor bgcolor startX text startX (posY + 16)
    else if b = carriageReturn then drawFrom fgcolor bgcolor startX text startX posY
    else if b = backspace then
      let pos := if pos ≤ 0 then 0 else pos - 9
      ⟨0x20, pos, posY, fgcolor, bgcolor⟩ :: drawFrom fgcolor bgcolor startX text pos posY
    else if b = tab then drawFrom fgcolor bgcolor startX text (pos + 9 * 4) posY
    else
      ⟨if 32 ≤ b ∧ b ≤ 254 then b else questionMark, pos, posY, fgcolor, bgcolor⟩ ::
        drawFrom fgcolor bgcolor startX text (pos + 9) posY

def drawString (text : CString) (fgcolor bgcolor : BitVec 32) (startX y : Int) : List DrawChar :=
  drawFrom fgcolor bgcolor startX text.bytes startX y

def drawStringAt (text : CString) (fgcolor bgcolor : BitVec 32) (col row : Int) : List DrawChar :=
  let x := col * 9
  let y := row * 16
  drawString text fgcolor bgcolor x y

/-- The cursor of `kprint.cpp`, and the calls of `draw_char` so far. -/
structure Console where
  cursorCol : Int
  cursorRow : Int
  drawn : List DrawChar
  deriving DecidableEq

/-- One round of the loop of `kprint` that moves the cursor, given as column and row. -/
def advance (cursor : Int × Int) (b : BitVec 8) : Int × Int :=
  if b = newline then (0, cursor.2 + 1)
  else if b = carriageReturn then (0, cursor.2)
  else if b = tab then (cursor.1 + 4, cursor.2)
  else if b = backspace then (if cursor.1 ≤ 0 then 0 else cursor.1 - 1, cursor.2)
  else (cursor.1 + 1, cursor.2)

def kprint (con : Console) (str : CString) : Console :=
  let drawn := drawStringAt str colorWhite colorBlack con.cursorCol con.cursorRow
  let cursor := str.bytes.foldl advance (con.cursorCol, con.cursorRow)
  ⟨cursor.1, cursor.2, con.drawn ++ drawn⟩

def kprintAt (con : Console) (str : CString) (col row : Int) : Console :=
  kprint { con with cursorCol := col, cursorRow := row } str

def kputc (con : Console) (c : BitVec 8) : Console := kprint con (.ofBytes [c, 0])

/-! ### Formatted output -/

/-- `representation`, with its NUL. -/
def representation : List (BitVec 8) :=
  ['0', '1', '2', '3', '4', '5', '6', '7', '8', '9', 'A', 'B', 'C', 'D', 'E', 'F', '\x00'].map
    fun c => BitVec.ofNat 8 c.toNat

/-- The loop of `convert` with `ptr` at the given index of the buffer and the bytes before the NUL
from there on.  It has no value where it would write before the buffer. -/
def convertFrom (base : BitVec 32) : Nat → BitVec 32 → List (BitVec 8) → Option (List (BitVec 8))
  | 0, _, _ => none
  | ptr + 1, num, digits => do
    let digit ← representation[(num % base).toNat]?
    let num := num / base
    if num ≠ 0 then convertFrom base ptr num (digit :: digits) else some (digit :: digits)

def convert (num base : BitVec 32) : Option CString :=
  (convertFrom base 49 num []).map .ofBytes

/-- An argument after the format: an `int` or `unsigned int`, or a pointer to a string or null. -/
inductive VaArg where
  | int (val : BitVec 32)
  | str (s : Option CString)

/-- What `kprintf` could do wrong: read the format past its NUL, take an argument that is not there
or of another type, or write outside the buffer of `convert`. -/
inductive PrintFault where
  | overread
  | vaArg
  | buffer
  deriving DecidableEq

/-- `va_arg(arg, int)`, and the arguments left. -/
def vaInt : List VaArg → Except PrintFault (BitVec 32 × List VaArg)
  | .int val :: args => .ok (val, args)
  | _ => .error .vaArg

/-- `va_arg(arg, const char *)`, and the arguments left. -/
def vaStr : List VaArg → Except PrintFault (Option CString × List VaArg)
  | .str s :: args => .ok (s, args)
  | _ => .error .vaArg

/-- `kprint(convert(val, base))` -/
def kprintNum (con : Console) (val base : BitVec 32) : Except PrintFault Console :=
  match convert val base with
  | some str => .ok (kprint con str)
  | none => .error .buffer

/-- The `switch` of `kprintf` for the byte after a `%`. -/
def kprintfSpec (con : Console) (args : List VaArg) (b : BitVec 8) :
    Except PrintFault (Console × List VaArg) :=
  if b = BitVec.ofNat 8 'c'.toNat then do
    let (c, args) ← vaInt args
    .ok (kputc con (c.setWidth 8), args)
  else if b = BitVec.ofNat 8 'd'.toNat then do
    let (val, args) ← vaInt args
    let con := if val.toInt < 0 then kputc con (BitVec.ofNat 8 '-'.toNat) else con
    let val := if val.toInt < 0 then -val else val
    .ok (← kprintNum con val 10, args)
  else if b = BitVec.ofNat 8 'u'.toNat then do
    let (val, args) ← vaInt args
    .ok (← kprintNum con val 10, args)
  else if b = BitVec.ofNat 8 'o'.toNat then do
    let (val, args) ← vaInt args
    .ok (← kprintNum con val 8, args)
  else if b = BitVec.ofNat 8 's'.toNat then do
    let (s, args) ← vaStr args
    .ok (kprint con (s.getD (.ofChars ['(', 'n', 'u', 'l', 'l', ')'])), args)
  else if b = BitVec.ofNat 8 'x'.toNat then do
    let (val, args) ← vaInt args
    .ok (← kprintNum con val 16, args)
  else if b = percent then .ok (kputc con percent, args)
  else .ok (kputc (kputc con percent) b, args)

/-- The loop of `kprintf` with `p` at index `i` of the format, for at most `fuel` rounds. -/
def kprintfFrom (format : CString) :
    Nat → Nat → Console → List VaArg → Except PrintFault Console
  | 0, _, _, _ => .error .overread
  | fuel + 1, i, con, args =>
    match format.read i with
    | none => .error .overread
    | some b =>
      if b = 0 then .ok con
      else if b ≠ percent then kprintfFrom format fuel (i + 1) (kputc con b) args
      else
        match format.read (i + 1) with
        | none => .error .overread
        | some b =>
          if b = 0 then .ok con
          else do
            let (con, args) ← kprintfSpec con args b
            kprintfFrom format fuel (i + 2) con args

/-- Each round moves `p` on, so one more round than there are bytes is enough. -/
def kprintf (con : Console) (format : CString) (args : List VaArg) : Except PrintFault Console :=
  kprintfFrom format (format.bytes.length + 1) 0 con args

/-! ### The `write` system call -/

namespace WriteArguments

def count (m : Mem) (args : BitVec 32) : BitVec 32 := m.load32 args

def buf (m : Mem) (args : BitVec 32) : BitVec 32 := m.load32 (args + 8)

end WriteArguments

/-- The loop of `sys_write` after `charsProcessed` characters, with at most `fuel` rounds: the
console and the result.  The memory is that of the caller, which printing does not change. -/
def sysWriteLoop (m : Mem) (args : BitVec 32) :
    Nat → BitVec 32 → Console → Console × BitVec 32
  | 0, charsProcessed, con => (con, charsProcessed)
  | fuel + 1, charsProcessed, con =>
    if charsProcessed < WriteArguments.count m args then
      let c := m (WriteArguments.buf m args + charsProcessed)
      sysWriteLoop m args fuel (charsProcessed + 1) (kputc con c)
    else (con, charsProcessed)

def sysWrite (con : Console) (m : Mem) (arg1 : BitVec 32) : Console × BitVec 32 :=
  sysWriteLoop m arg1 (2 ^ 32) 0 con

end Sapphire
