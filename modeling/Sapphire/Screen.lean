import Sapphire.Framebuffer
import Sapphire.Print

/-! Text on the framebuffer: `draw_char` of `primitives/char.cpp`, the calls of it that the functions
of `kprint.cpp` make, and `kprint_at`.  The table `IBM_VGA_8X16` is a parameter. -/

namespace Sapphire

open Machine

/-- `IBM_VGA_8X16`: sixteen rows for each character, the leftmost pixel in the high bit. -/
abbrev Font := Fin 4096 → BitVec 8

abbrev charWidth : Nat := 8
abbrev charHeight : Nat := 16

theorem charHeight_neZero : NeZero charHeight := ⟨Nat.succ_ne_zero 15⟩

/-- `char_data[cy]` -/
def Font.row (font : Font) (chr : BitVec 8) (cy : Fin charHeight) : BitVec 8 :=
  font ⟨chr.toNat * 16 + cy, by have hcy : cy.val < 16 := cy.isLt; omega⟩

def drawChar (font : Font) (fb : FramebufferInfo) (m : Mem) (d : DrawChar) : Mem :=
  (List.finRange charHeight).foldl (fun m cy =>
    let row := font.row d.chr cy
    (List.range charWidth).foldl (fun m (cx : Nat) =>
      let color := if row &&& (1 <<< (charWidth - 1 - cx)) ≠ 0 then d.fgcolor else d.bgcolor
      putpixel fb m (BitVec.ofInt 32 (d.x + cx)) (BitVec.ofInt 32 (d.y + (cy : Nat))) color) m) m

def drawChars (font : Font) (fb : FramebufferInfo) (m : Mem) (drawn : List DrawChar) : Mem :=
  drawn.foldl (drawChar font fb) m

/-- The calls that print. -/
inductive PrintOp where
  | kprint (str : CString)
  | kprintAt (str : CString) (col row : Int)
  | kputc (c : BitVec 8)
  | kprintf (format : CString) (args : List VaArg)
  | sysWrite (m : Mem) (args : BitVec 32)

def PrintOp.run (con : Console) : PrintOp → Except PrintFault Console
  | .kprint str => .ok (Sapphire.kprint con str)
  | .kprintAt str col row => .ok (Sapphire.kprintAt con str col row)
  | .kputc c => .ok (Sapphire.kputc con c)
  | .kprintf format args => Sapphire.kprintf con format args
  | .sysWrite m args => .ok (Sapphire.sysWrite con m args).1

end Sapphire
