import Sapphire.Framebuffer.Line
import Sapphire.Screen.Glyphs

/-! What `line` paints: the straight line between its ends, rounded to pixels, and nothing else. -/

namespace Sapphire

open Machine Picture Raster FramebufferInfo

/-- A point for each step along the longer side of the line; along the other side it is rounded, a
half away from the first end. -/
def roundedLine (x1 y1 x2 y2 : Int) : List (Int × Int) :=
  (List.range (max (x2 - x1).natAbs (y2 - y1).natAbs + 1)).map fun n =>
    plot x1 y1 (if x1 < x2 then 1 else -1) (if y1 < y2 then 1 else -1)
      (rounded (x2 - x1).natAbs (y2 - y1).natAbs n)

section

variable {x1 y1 x2 y2 : Int} (hx1 : |x1| < 2 ^ 28) (hy1 : |y1| < 2 ^ 28) (hx2 : |x2| < 2 ^ 28)
  (hy2 : |y2| < 2 ^ 28)

include hx1 hy1 hx2 hy2 in
theorem linePoints_rounded : linePoints x1 y1 x2 y2 = some (roundedLine x1 y1 x2 y2) := by
  rw [linePoints_eq hx1 hy1 hx2 hy2, walk_start, List.map_map]
  rfl

include hx1 hy1 hx2 hy2 in
theorem isInt_roundedLine : ∀ p ∈ roundedLine x1 y1 x2 y2, IsInt p.1 ∧ IsInt p.2 := by
  intro p hp
  obtain ⟨n, hn, rfl⟩ := List.mem_map.mp hp
  have hnear := (walk_reaches (near_start (x2 - x1).natAbs (y2 - y1).natAbs) rfl).near _
    (walk_start _ _ ▸ List.mem_map_of_mem hn)
  have hcol := hnear.col
  have hrow := hnear.row
  rw [abs_lt] at hx1 hy1 hx2 hy2
  simp only [plot, IsInt]
  split_ifs <;> omega

end

/-- Pixels of one color. -/
theorem putpixels_draw {vbe : VbeModeInfo} (h : vbe.Fits) {points : List (Int × Int)}
    (hpoints : ∀ p ∈ points, IsInt p.1 ∧ IsInt p.2) (m : Mem) (color : BitVec 32) :
    (getFramebufferInfo vbe).Draws (region (fun p => p ∈ points) fun _ => color) m
      (points.foldl (fun m p => putpixel (getFramebufferInfo vbe) m (BitVec.ofInt 32 p.1)
        (BitVec.ofInt 32 p.2) color) m) := by
  induction points using List.reverseRecOn with
  | nil =>
    rw [region_empty fun p => List.not_mem_nil]
    exact .blank m
  | append_singleton points p ih =>
    rw [List.forall_mem_append] at hpoints
    obtain ⟨hx, hy⟩ := hpoints.2 p (List.mem_singleton.mpr rfl)
    rw [List.foldl_append]
    refine (ih hpoints.1).region (putpixel_draws h hx hy _ color) fun q => ?_
    rw [List.mem_append, List.mem_singleton, or_comm]

/-- `line` paints the rounded line, as far as it is on the screen. -/
theorem line_paints {vbe : VbeModeInfo} (h : vbe.Fits) {x1 y1 x2 y2 : Int} (hx1 : |x1| < 2 ^ 28)
    (hy1 : |y1| < 2 ^ 28) (hx2 : |x2| < 2 ^ 28) (hy2 : |y2| < 2 ^ 28) (m : Mem)
    (color : BitVec 32) : ∃ m', line (getFramebufferInfo vbe) m x1 y1 x2 y2 color = some m' ∧
      (getFramebufferInfo vbe).Draws
        (region (fun p => p ∈ roundedLine x1 y1 x2 y2) fun _ => color) m m' := by
  refine ⟨_, ?_, putpixels_draw h (isInt_roundedLine hx1 hy1 hx2 hy2) m color⟩
  rw [line, linePoints_rounded hx1 hy1 hx2 hy2]
  rfl

/-- A line of eight points in the mode that the boot loader sets. -/
theorem line_paints_800x600 :
    let fb := getFramebufferInfo ⟨2400, 800, 600, 24, 0xFD000000⟩
    let points := [(10, 10), (11, 10), (12, 11), (13, 11), (14, 12), (15, 12), (16, 13), (17, 13)]
    ∀ m, ∃ m', line fb m 10 10 17 13 0xAA0000 = some m' ∧
      fb.Draws (region (fun p => p ∈ points) fun _ => 0xAA0000) m m' := by
  intro fb points m
  have hpoints : roundedLine 10 10 17 13 = points := by decide
  have h10 : |(10 : Int)| < 2 ^ 28 := by decide
  have h17 : |(17 : Int)| < 2 ^ 28 := by decide
  have h13 : |(13 : Int)| < 2 ^ 28 := by decide
  obtain ⟨m', hline, hdraws⟩ := line_paints fits_800x600 h10 h10 h17 h13 m 0xAA0000
  rw [hpoints] at hdraws
  exact ⟨m', hline, hdraws⟩

end Sapphire
