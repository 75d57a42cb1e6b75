import Sapphire.Lib.Memory

/-! Drawing to the framebuffer: `get_framebuffer_info` of `arch/x86/fb/fb.cpp`, `putpixel` of
`driver/fb/fb.cpp` and `line` of `primitives/line.cpp`.  The VBE block is its fields that these read.
What `putpixel` stores is a list of addresses and bytes, in order.  An `int` of `putpixel` is a 32-bit
word with a sign; `line` computes with integers and has no result where one of them does not fit into
an `int`. -/

namespace Sapphire

open Machine

structure VbeModeInfo where
  pitch : BitVec 16
  width : BitVec 16
  height : BitVec 16
  bpp : BitVec 8
  framebuffer : BitVec 32

structure FramebufferInfo where
  pitch : BitVec 16
  width : BitVec 16
  height : BitVec 16
  bpp : BitVec 8
  size : BitVec 32
  framebuffer : BitVec 32

def getFramebufferInfo (vbe : VbeModeInfo) : FramebufferInfo where
  width := vbe.width
  height := vbe.height
  pitch := vbe.pitch
  bpp := vbe.bpp
  framebuffer := vbe.framebuffer
  size := vbe.pitch.setWidth 32 * vbe.height.setWidth 32 * (vbe.bpp.setWidth 32 / 8)

namespace FramebufferInfo

/-- The bytes of a color, in the order in which they are stored. -/
def colorBytes (fb : FramebufferInfo) (color : BitVec 32) : List (BitVec 8) :=
  if fb.bpp = 32 then
    [(color >>> 0).setWidth 8, (color >>> 8).setWidth 8, (color >>> 16).setWidth 8,
      (color >>> 24).setWidth 8]
  else if fb.bpp = 24 then
    [(color >>> 0).setWidth 8, (color >>> 8).setWidth 8, (color >>> 16).setWidth 8]
  else if fb.bpp = 16 then
    let pixelColor : BitVec 16 := ((((color >>> 16) &&& 0xFF) >>> 3) <<< 11 |||
      (((color >>> 8) &&& 0xFF) >>> 2) <<< 5 ||| (((color >>> 0) &&& 0xFF) >>> 3)).setWidth 16
    [pixelColor.setWidth 8, (pixelColor >>> 8).setWidth 8]
  else []

/-- `fb_offset` -/
def offset (fb : FramebufferInfo) (x y : BitVec 32) : BitVec 32 :=
  y * fb.pitch.setWidth 32 + x * (fb.bpp.setWidth 32 / 8)

/-- The stores of `putpixel(x, y, color)`. -/
def stores (fb : FramebufferInfo) (x y color : BitVec 32) : List (BitVec 32 × BitVec 8) :=
  if x.toInt < 0 ∨ y.toInt < 0 ∨ x.toInt ≥ fb.width.toNat ∨ y.toInt ≥ fb.height.toNat then []
  else (fb.colorBytes color).zipIdx.map fun b =>
    (fb.framebuffer + (fb.offset x y + BitVec.ofNat 32 b.2), b.1)

end FramebufferInfo

def putpixel (fb : FramebufferInfo) (m : Mem) (x y color : BitVec 32) : Mem :=
  (fb.stores x y color).foldl (fun m s => m.store8 s.1 s.2) m

/-! ### Lines -/

/-- An integer that is the value of an `int`. -/
def int (v : Int) : Option Int := if -2 ^ 31 ≤ v ∧ v < 2 ^ 31 then some v else none

def iabs (x : Int) : Option Int := if x < 0 then int (-x) else some x

/-- `if (cond) { err += d; v += s; }` -/
def stepIf (cond : Prop) [Decidable cond] (err d v s : Int) : Option (Int × Int) :=
  if cond then do some (← int (err + d), ← int (v + s)) else some (err, v)

/-- The loop of `line` for at most `fuel` rounds: the points that it plots. -/
def lineFrom (x2 y2 dx dy sx sy : Int) : Nat → Int → Int → Int → Option (List (Int × Int))
  | 0, _, _, _ => none
  | fuel + 1, x1, y1, err =>
    if x1 = x2 ∧ y1 = y2 then some [(x1, y1)]
    else do
      let e2 ← int (2 * err)
      let (errX, x) ← stepIf (e2 ≥ dy) err dy x1 sx
      let (errY, y) ← stepIf (e2 ≤ dx) errX dx y1 sy
      let points ← lineFrom x2 y2 dx dy sx sy fuel x y errY
      some ((x1, y1) :: points)

/-- The points that `line` plots, in order. -/
def linePoints (x1 y1 x2 y2 : Int) : Option (List (Int × Int)) := do
  let dx ← iabs (← int (x2 - x1))
  let sx := if x1 < x2 then 1 else -1
  let dy ← int (-(← iabs (← int (y2 - y1))))
  let sy := if y1 < y2 then 1 else -1
  let err ← int (dx + dy)
  lineFrom x2 y2 dx dy sx sy (2 ^ 32) x1 y1 err

def line (fb : FramebufferInfo) (m : Mem) (x1 y1 x2 y2 : Int) (color : BitVec 32) : Option Mem :=
  (linePoints x1 y1 x2 y2).map fun points => points.foldl (fun m p =>
    putpixel fb m (BitVec.ofInt 32 p.1) (BitVec.ofInt 32 p.2) color) m

end Sapphire
