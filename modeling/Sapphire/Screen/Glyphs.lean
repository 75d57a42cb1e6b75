import Sapphire.Framebuffer.Pixels
import Sapphire.Lib.Loop
import Sapphire.Lib.Picture
import Sapphire.Screen

/-! What the framebuffer shows.  A call of `putpixel` paints one place of it, and the loops of
`draw_char` a rectangle of eight by sixteen.  Nothing outside the pixels changes, the bytes between
the rows included. -/

namespace Sapphire

open Machine Picture FramebufferInfo

namespace FramebufferInfo

/-- The places on the screen. -/
def screen (fb : FramebufferInfo) : Set (Int × Int) :=
  {p | 0 ≤ p.1 ∧ p.1 < fb.width.toNat ∧ 0 ≤ p.2 ∧ p.2 < fb.height.toNat}

/-- The address of a pixel. -/
def pixel (fb : FramebufferInfo) (p : Int × Int) : BitVec 32 :=
  fb.framebuffer + fb.offset (BitVec.ofInt 32 p.1) (BitVec.ofInt 32 p.2)

/-- The bytes of a pixel. -/
def shows (fb : FramebufferInfo) (m : Mem) (p : Int × Int) : List (BitVec 8) :=
  bytesAt m (fb.pixel p) (fb.bpp.toNat / 8)

/-- The bytes of all pixels. -/
def pixels (fb : FramebufferInfo) : Set (BitVec 32) :=
  {a | ∃ p ∈ fb.screen, ∃ i < fb.bpp.toNat / 8, a = fb.pixel p + BitVec.ofNat 32 i}

/-- From `m` to `m'` a picture has been painted, and nothing else has changed. -/
structure Draws (fb : FramebufferInfo) (picture : Picture (Int × Int) (BitVec 32)) (m m' : Mem) :
    Prop where
  paints : Paints fb.screen fb.shows fb.colorBytes picture m m'
  changes : ChangesOnly fb.pixels m m'

variable {fb : FramebufferInfo} {p q : Picture (Int × Int) (BitVec 32)} {m m' m'' : Mem}

theorem Draws.blank (m : Mem) : fb.Draws .blank m m := ⟨.blank m, .refl _ m⟩

theorem Draws.trans (h1 : fb.Draws p m m') (h2 : fb.Draws q m' m'') : fb.Draws (q.atop p) m m'' :=
  ⟨h1.paints.trans h2.paints, h1.changes.trans h2.changes⟩

/-- One part after another of one painting. -/
theorem Draws.region {R S T : Int × Int → Prop} [DecidablePred R] [DecidablePred S]
    [DecidablePred T] {c : Int × Int → BitVec 32} (h1 : fb.Draws (.region R c) m m')
    (h2 : fb.Draws (.region S c) m' m'') (hT : ∀ j, T j ↔ S j ∨ R j) :
    fb.Draws (.region T c) m m'' :=
  region_atop_region hT ▸ h1.trans h2

end FramebufferInfo

/-! ### One pixel -/

/-- The value of an `int`. -/
def IsInt (v : Int) : Prop := -2 ^ 31 ≤ v ∧ v < 2 ^ 31

instance (v : Int) : Decidable (IsInt v) := inferInstanceAs (Decidable (_ ∧ _))

theorem toInt_ofInt {v : Int} (h : IsInt v) : (BitVec.ofInt 32 v).toInt = v := by
  rw [BitVec.toInt_ofInt]
  obtain ⟨h1, h2⟩ := h
  exact Int.bmod_eq_of_le (by omega) (by omega)

theorem inRange_iff {fb : FramebufferInfo} {x y : Int} (hx : IsInt x) (hy : IsInt y) :
    fb.InRange (BitVec.ofInt 32 x) (BitVec.ofInt 32 y) ↔ (x, y) ∈ fb.screen := by
  rw [InRange, toInt_ofInt hx, toInt_ofInt hy]
  rfl

theorem isInt_of_screen {fb : FramebufferInfo} {p : Int × Int} (h : p ∈ fb.screen) :
    IsInt p.1 ∧ IsInt p.2 := by
  obtain ⟨h1, h2, h3, h4⟩ := h
  have hw := fb.width.isLt
  have hh := fb.height.isLt
  exact ⟨⟨by omega, by omega⟩, by omega, by omega⟩

section

variable {vbe : VbeModeInfo} (h : vbe.Fits)

include h in
/-- Every byte of a pixel on the screen is stored to. -/
theorem exists_store {x y : BitVec 32} (hin : (getFramebufferInfo vbe).InRange x y)
    (color : BitVec 32) {i : Nat} (hi : i < vbe.bpp.toNat / 8) :
    ∃ s ∈ (getFramebufferInfo vbe).stores x y color,
      s.1 = vbe.framebuffer + (getFramebufferInfo vbe).offset x y + BitVec.ofNat 32 i := by
  rw [← length_colorBytes h color] at hi
  rw [stores_of_inRange hin]
  exact ⟨_, List.mem_map_of_mem
    (List.mk_mem_zipIdx_iff_getElem?.mpr (List.getElem?_eq_getElem hi)), rfl⟩

include h in
/-- The pixels are in the framebuffer. -/
theorem pixels_inside {a : BitVec 32} (ha : a ∈ (getFramebufferInfo vbe).pixels) :
    vbe.framebuffer.toNat ≤ a.toNat ∧
      a.toNat < vbe.framebuffer.toNat + vbe.pitch.toNat * vbe.height.toNat := by
  obtain ⟨p, hp, i, hi, rfl⟩ := ha
  obtain ⟨hx, hy⟩ := isInt_of_screen hp
  obtain ⟨s, hs, haddr⟩ := exists_store h ((inRange_iff hx hy).mpr hp) 0 hi
  exact haddr ▸ stores_inside h hs

include h in
/-- `putpixel` paints its pixel, where it is on the screen. -/
theorem putpixel_draws {x y : Int} (hx : IsInt x) (hy : IsInt y) (m : Mem) (color : BitVec 32) :
    (getFramebufferInfo vbe).Draws (dot (x, y) color) m
      (putpixel (getFramebufferInfo vbe) m (BitVec.ofInt 32 x) (BitVec.ofInt 32 y) color) := by
  set fb := getFramebufferInfo vbe
  have hchanges := putpixel_changesOnly fb m (BitVec.ofInt 32 x) (BitVec.ofInt 32 y) color
  refine ⟨fun p hp => ?_, hchanges.mono ?_⟩
  · obtain ⟨hp1, hp2⟩ := isInt_of_screen hp
    rw [dot, region]
    by_cases hpxy : p = (x, y)
    · subst hpxy
      rw [if_pos rfl]
      exact bytesAt_putpixel h ((inRange_iff hx hy).mpr hp) m
    · -- the bytes of another pixel
      rw [if_neg hpxy]
      refine bytesAt_congr fun i hi => hchanges _ ?_
      rintro ⟨s, hs, heq⟩
      obtain ⟨s', hs', haddr⟩ := exists_store h ((inRange_iff hp1 hp2).mpr hp) color hi
      obtain ⟨hxx, hyy⟩ := stores_apart h hs hs' (heq.trans haddr.symm)
      have hpx := congrArg BitVec.toInt hxx
      have hpy := congrArg BitVec.toInt hyy
      rw [toInt_ofInt hx, toInt_ofInt hp1] at hpx
      rw [toInt_ofInt hy, toInt_ofInt hp2] at hpy
      exact hpxy (Prod.ext hpx.symm hpy.symm)
  · rintro a ⟨s, hs, rfl⟩
    obtain ⟨hin, i, hi, hs⟩ := mem_stores h hs
    exact ⟨(x, y), (inRange_iff hx hy).mp hin, i, hi, hs⟩

end

/-! ### One character -/

/-- All pixels of the character have positions that are `int`s. -/
structure DrawChar.Fits (d : DrawChar) : Prop where
  left : IsInt d.x
  right : IsInt (d.x + 7)
  top : IsInt d.y
  bottom : IsInt (d.y + 15)

instance (d : DrawChar) : Decidable d.Fits :=
  decidable_of_iff (IsInt d.x ∧ IsInt (d.x + 7) ∧ IsInt d.y ∧ IsInt (d.y + 15))
    ⟨fun h => ⟨h.1, h.2.1, h.2.2.1, h.2.2.2⟩, fun h => ⟨h.left, h.right, h.top, h.bottom⟩⟩

/-- The color of a place in the cell of a character. -/
def Font.ink (font : Font) (d : DrawChar) (p : Int × Int) : BitVec 32 :=
  if (font.row d.chr (@Fin.ofNat _ charHeight_neZero (p.2 - d.y).toNat)).getMsbD (p.1 - d.x).toNat
  then d.fgcolor else d.bgcolor

/-- A character in its cell of eight by sixteen pixels. -/
def Font.glyph (font : Font) (d : DrawChar) : Picture (Int × Int) (BitVec 32) :=
  region (fun p => (d.y ≤ p.2 ∧ p.2 < d.y + 16) ∧ d.x ≤ p.1 ∧ p.1 < d.x + 8) (font.ink d)

theorem and_shiftLeft_ne_zero (row : BitVec 8) {k : Nat} (hk : k < 8) :
    row &&& (1 <<< k) ≠ 0 ↔ row.getLsbD k = true := by
  change row &&& (1#8 <<< k) ≠ 0#8 ↔ _
  rw [← BitVec.twoPow_eq, BitVec.and_twoPow]
  cases row.getLsbD k with
  | false => simp
  | true =>
    rw [if_pos rfl]
    refine iff_of_true (fun hzero => ?_) rfl
    have hbit := congrArg (fun w => w.getLsbD k) hzero
    simp [hk] at hbit

/-- The bits of a row from the left. -/
theorem ink_eq (font : Font) (d : DrawChar) (cy : Fin charHeight) {cx : Nat} (hcx : cx < 8) :
    font.ink d (d.x + cx, d.y + (cy : Nat)) =
      if font.row d.chr cy &&& (1 <<< (charWidth - 1 - cx)) ≠ 0 then d.fgcolor else d.bgcolor := by
  have hrow : Fin.ofNat charHeight (d.y + (cy : Nat) - d.y).toNat = cy := by
    rw [add_sub_cancel_left, Int.toNat_natCast]
    exact Fin.ofNat_val_eq_self cy
  have hbit := and_shiftLeft_ne_zero (font.row d.chr cy)
    (show 8 - 1 - cx < 8 by omega)
  rw [Font.ink, hrow, add_sub_cancel_left, Int.toNat_natCast, BitVec.getMsbD, decide_eq_true hcx,
    Bool.true_and]
  by_cases hset : (font.row d.chr cy).getLsbD (8 - 1 - cx) = true
  · rw [if_pos hset, if_pos (hbit.mpr hset)]
  · rw [if_neg hset, if_neg (mt hbit.mp hset)]

section

variable {vbe : VbeModeInfo} (h : vbe.Fits) (font : Font) {d : DrawChar} (hd : d.Fits)

include h hd in
/-- One row of a character. -/
theorem row_draws (m : Mem) (cy : Fin charHeight) :
    (getFramebufferInfo vbe).Draws
      (region (fun p => p.2 = d.y + (cy : Nat) ∧ d.x ≤ p.1 ∧ p.1 < d.x + 8) (font.ink d)) m
      ((List.range charWidth).foldl (fun m (cx : Nat) =>
        putpixel (getFramebufferInfo vbe) m (BitVec.ofInt 32 (d.x + cx))
          (BitVec.ofInt 32 (d.y + (cy : Nat)))
          (if font.row d.chr cy &&& (1 <<< (charWidth - 1 - cx)) ≠ 0 then d.fgcolor
            else d.bgcolor)) m) := by
  obtain ⟨⟨hx1, -⟩, ⟨-, hx2⟩, ⟨hy1, -⟩, -, hy2⟩ := hd
  have hcy : cy.val < 16 := cy.isLt
  refine foldl_range_induct (fun n t => (getFramebufferInfo vbe).Draws
    (region (fun p => p.2 = d.y + (cy : Nat) ∧ d.x ≤ p.1 ∧ p.1 < d.x + (n : Nat)) (font.ink d)) m t)
    ?_ fun cx hcx t ht => ?_
  · rw [region_empty fun p => by omega]
    exact .blank m
  · have hlt : cx < 8 := hcx
    have hpixel := putpixel_draws h (x := d.x + cx) (y := d.y + (cy : Nat)) ⟨by omega, by omega⟩
      ⟨by omega, by omega⟩ t (font.ink d (d.x + cx, d.y + (cy : Nat)))
    rw [dot_eq_region] at hpixel
    rw [← ink_eq font d cy hcx]
    refine ht.region hpixel fun p => ?_
    rw [Prod.ext_iff]
    omega

include h hd in
/-- `draw_char` paints its character, where it is on the screen. -/
theorem drawChar_draws (m : Mem) :
    (getFramebufferInfo vbe).Draws (font.glyph d) m
      (drawChar font (getFramebufferInfo vbe) m d) := by
  refine foldl_finRange_induct (fun n t => (getFramebufferInfo vbe).Draws
    (region (fun p => (d.y ≤ p.2 ∧ p.2 < d.y + (n : Nat)) ∧ d.x ≤ p.1 ∧ p.1 < d.x + 8)
      (font.ink d)) m t) ?_ fun cy t ht => ?_
  · rw [region_empty fun p => by omega]
    exact .blank m
  · exact ht.region (row_draws h font hd t cy) fun p => by omega

end

end Sapphire
