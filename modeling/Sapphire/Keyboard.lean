import Mathlib.Algebra.Ring.Nat
import Mathlib.Data.Fin.Basic
import Mathlib.Logic.Function.Basic

/-! The keyboard driver of `keyboard.hpp` and `keyboard.cpp`: the interrupt handler translates a
scancode and puts the character in a ring buffer, from which `read_char` takes it.  Both positions
count on and are reduced only where they index the buffer.  The scancode that the handler reads from
the data port is its argument; a `char` is a byte. -/

namespace Sapphire

abbrev kbReleased : BitVec 8 := 0x80
abbrev kbBufferSize : Nat := 256

/-- `scancode_to_ascii`: the backspace, the quote, the backquote and the backslash by their codes. -/
def scancodeToAscii : List Char := [
  '\x00', '\x1b', '1', '2', '3', '4', '5', '6', '7', '8', '9', '0', '-', '=', '\x08',
  '\t', 'q', 'w', 'e', 'r', 't', 'y', 'u', 'i', 'o', 'p', '[', ']', '\n',
  '\x00', 'a', 's', 'd', 'f', 'g', 'h', 'j', 'k', 'l', ';', '\x27', '\x60',
  '\x00', '\x5c', 'z', 'x', 'c', 'v', 'b', 'n', 'm', ',', '.', '/', '\x00',
  '*', '\x00', ' '] ++ List.replicate 70 '\x00'

/-- `scancode_to_ascii_shift`: the braces and the double quote by their codes. -/
def scancodeToAsciiShift : List Char := [
  '\x00', '\x1b', '!', '@', '#', '$', '%', '^', '&', '*', '(', ')', '_', '+', '\x08',
  '\t', 'Q', 'W', 'E', 'R', 'T', 'Y', 'U', 'I', 'O', 'P', '\x7b', '\x7d', '\n',
  '\x00', 'A', 'S', 'D', 'F', 'G', 'H', 'J', 'K', 'L', ':', '\x22', '~',
  '\x00', '|', 'Z', 'X', 'C', 'V', 'B', 'N', 'M', '<', '>', '?', '\x00',
  '*', '\x00', ' '] ++ List.replicate 70 '\x00'

/-- The entry of a table of 128 for a scancode below 128. -/
def lookup (table : List Char) (scancode : BitVec 8) : BitVec 8 :=
  BitVec.ofNat 8 (table.getD scancode.toNat '\x00').toNat

abbrev scLshiftPress : BitVec 8 := 0x2A
abbrev scRshiftPress : BitVec 8 := 0x36
abbrev scLshiftRelease : BitVec 8 := 0xAA
abbrev scRshiftRelease : BitVec 8 := 0xB6
abbrev scCtrlPress : BitVec 8 := 0x1D
abbrev scCtrlRelease : BitVec 8 := 0x9D

structure Keyboard where
  buffer : Fin kbBufferSize → BitVec 8
  readPos : BitVec 32
  writePos : BitVec 32
  shiftHeld : Bool
  ctrlHeld : Bool

namespace Keyboard

/-- `pos % KB_BUFFER_SIZE` -/
def bufferIndex (pos : BitVec 32) : Fin kbBufferSize := Fin.ofNat kbBufferSize pos.toNat

/-- The buffer is left as it is. -/
def init (kb : Keyboard) : Keyboard :=
  { kb with readPos := 0, writePos := 0, shiftHeld := false, ctrlHeld := false }

def handleInterrupt (kb : Keyboard) (scancode : BitVec 8) : Keyboard :=
  if scancode = scLshiftPress ∨ scancode = scRshiftPress then { kb with shiftHeld := true }
  else if scancode = scLshiftRelease ∨ scancode = scRshiftRelease then
    { kb with shiftHeld := false }
  else if scancode = scCtrlPress then { kb with ctrlHeld := true }
  else if scancode = scCtrlRelease then { kb with ctrlHeld := false }
  else if scancode &&& kbReleased ≠ 0 then kb
  else
    let c := if kb.shiftHeld then lookup scancodeToAsciiShift scancode
      else lookup scancodeToAscii scancode
    if c ≠ 0 then
      { kb with
        buffer := Function.update kb.buffer (bufferIndex kb.writePos) c
        writePos := kb.writePos + 1 }
    else kb

/-- The character, 0 where the buffer is empty. -/
def readChar (kb : Keyboard) : BitVec 8 × Keyboard :=
  if kb.readPos = kb.writePos then (0, kb)
  else (kb.buffer (bufferIndex kb.readPos), { kb with readPos := kb.readPos + 1 })

def hasInput (kb : Keyboard) : Bool := kb.readPos ≠ kb.writePos

/-- The character that the handler puts in the buffer for a scancode, if it does. -/
def enqueued (kb : Keyboard) (scancode : BitVec 8) : Option (BitVec 8) :=
  let kb' := kb.handleInterrupt scancode
  if kb'.writePos = kb.writePos then none else some (kb'.buffer (bufferIndex kb.writePos))

end Keyboard

end Sapphire
