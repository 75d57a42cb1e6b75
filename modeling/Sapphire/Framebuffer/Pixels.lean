import Sapphire.Framebuffer
import Sapphire.Platform.Boot
import Mathlib.Data.Nat.Digits.Defs

/-! Where `putpixel` stores.  The rows of the framebuffer are `pitch` bytes and the pixels of a row
`bpp / 8` bytes, and the pixels fit into their row; so the bytes of a pixel are in the row of its `y`,
apart from those of every other pixel.  The size that `get_framebuffer_info` computes is `bpp / 8`
times that of the rows, and what `platform_init` maps is therefore more than they need. -/

namespace Sapphire

open Machine

/-- A mode whose pixels fit into their rows, and whose framebuffer, as large as
`get_framebuffer_info` takes it to be, fits into an `int` and ends below the last page. -/
structure VbeModeInfo.Fits (vbe : VbeModeInfo) : Prop where
  bpp : vbe.bpp = 16 ∨ vbe.bpp = 24 ∨ vbe.bpp = 32
  row : vbe.width.toNat * (vbe.bpp.toNat / 8) ≤ vbe.pitch.toNat
  size : vbe.pitch.toNat * vbe.height.toNat * (vbe.bpp.toNat / 8) < 2 ^ 31
  stop : vbe.framebuffer.toNat + (getFramebufferInfo vbe).size.toNat ≤ 0xFFFFF000

/-- The mode that the boot loader sets. -/
theorem fits_800x600 : VbeModeInfo.Fits ⟨2400, 800, 600, 24, 0xFD000000⟩ :=
  ⟨by decide, by decide, by decide, by decide⟩

namespace FramebufferInfo

variable {vbe : VbeModeInfo} {x y x' y' color color' : BitVec 32}

/-- A pixel of the screen. -/
def InRange (fb : FramebufferInfo) (x y : BitVec 32) : Prop :=
  0 ≤ x.toInt ∧ x.toInt < fb.width.toNat ∧ 0 ≤ y.toInt ∧ y.toInt < fb.height.toNat

theorem InRange.toNat {fb : FramebufferInfo} (h : fb.InRange x y) :
    x.toNat < fb.width.toNat ∧ y.toNat < fb.height.toNat := by
  obtain ⟨hx, hxlt, hy, hylt⟩ := h
  rw [BitVec.toInt_eq_toNat_cond] at hx hxlt hy hylt
  omega

theorem stores_of_not_inRange {fb : FramebufferInfo} (h : ¬ fb.InRange x y) :
    fb.stores x y color = [] := by
  refine if_pos ?_
  unfold InRange at h
  omega

theorem stores_of_inRange {fb : FramebufferInfo} (h : fb.InRange x y) :
    fb.stores x y color = (fb.colorBytes color).zipIdx.map fun b =>
      (fb.framebuffer + fb.offset x y + BitVec.ofNat 32 b.2, b.1) := by
  unfold InRange at h
  simp only [stores, BitVec.add_assoc]
  exact if_neg (by omega)

theorem length_colorBytes (h : vbe.Fits) (color : BitVec 32) :
    ((getFramebufferInfo vbe).colorBytes color).length = vbe.bpp.toNat / 8 := by
  rcases h.bpp with hbpp | hbpp | hbpp <;> simp [colorBytes, getFramebufferInfo, hbpp]

/-- A store of a pixel is to one of its bytes. -/
theorem mem_stores (h : vbe.Fits) {s : BitVec 32 × BitVec 8}
    (hs : s ∈ (getFramebufferInfo vbe).stores x y color) :
    (getFramebufferInfo vbe).InRange x y ∧ ∃ i < vbe.bpp.toNat / 8,
      s.1 = vbe.framebuffer + (getFramebufferInfo vbe).offset x y + BitVec.ofNat 32 i := by
  by_cases hin : (getFramebufferInfo vbe).InRange x y
  · rw [stores_of_inRange hin, List.mem_map] at hs
    obtain ⟨b, hb, rfl⟩ := hs
    have hlt := List.snd_lt_of_mem_zipIdx hb
    rw [length_colorBytes h] at hlt
    exact ⟨hin, b.2, by omega, rfl⟩
  · rw [stores_of_not_inRange hin] at hs
    cases hs

/-- The bytes of a pixel end with its row, and the rows with the framebuffer. -/
theorem pixel_le (h : vbe.Fits) (hin : (getFramebufferInfo vbe).InRange x y) :
    x.toNat * (vbe.bpp.toNat / 8) + vbe.bpp.toNat / 8 ≤ vbe.pitch.toNat ∧
    y.toNat * vbe.pitch.toNat + vbe.pitch.toNat ≤ vbe.pitch.toNat * vbe.height.toNat := by
  obtain ⟨hx, hy⟩ := hin.toNat
  refine ⟨?_, ?_⟩
  · calc x.toNat * (vbe.bpp.toNat / 8) + vbe.bpp.toNat / 8
        = (x.toNat + 1) * (vbe.bpp.toNat / 8) := (Nat.succ_mul _ _).symm
      _ ≤ vbe.width.toNat * (vbe.bpp.toNat / 8) := Nat.mul_le_mul_right _ hx
      _ ≤ vbe.pitch.toNat := h.row
  · calc y.toNat * vbe.pitch.toNat + vbe.pitch.toNat
        = (y.toNat + 1) * vbe.pitch.toNat := (Nat.succ_mul _ _).symm
      _ ≤ vbe.height.toNat * vbe.pitch.toNat := Nat.mul_le_mul_right _ hy
      _ = vbe.pitch.toNat * vbe.height.toNat := Nat.mul_comm _ _

/-- The bytes of a pixel, as the code computes their number. -/
theorem toNat_pixelBytes (bpp : BitVec 8) : (bpp.setWidth 32 / 8).toNat = bpp.toNat / 8 := by
  rw [BitVec.toNat_udiv, BitVec.toNat_setWidth, Nat.mod_eq_of_lt (by omega)]
  rfl

theorem rows_le (h : vbe.Fits) : vbe.pitch.toNat * vbe.height.toNat ≤
    vbe.pitch.toNat * vbe.height.toNat * (vbe.bpp.toNat / 8) := by
  refine Nat.le_mul_of_pos_right _ ?_
  rcases h.bpp with hbpp | hbpp | hbpp <;> rw [hbpp] <;> decide

/-- The `int` of `size` does not overflow. -/
theorem toNat_size (h : vbe.Fits) : (getFramebufferInfo vbe).size.toNat =
    vbe.pitch.toNat * vbe.height.toNat * (vbe.bpp.toNat / 8) := by
  have hsize := h.size
  have hrows := rows_le h
  rw [getFramebufferInfo, BitVec.toNat_mul, BitVec.toNat_mul, toNat_pixelBytes,
    BitVec.toNat_setWidth, BitVec.toNat_setWidth,
    Nat.mod_eq_of_lt (show vbe.pitch.toNat < 2 ^ 32 by omega),
    Nat.mod_eq_of_lt (show vbe.height.toNat < 2 ^ 32 by omega),
    Nat.mod_eq_of_lt (show vbe.pitch.toNat * vbe.height.toNat < 2 ^ 32 by omega),
    Nat.mod_eq_of_lt (by omega)]

/-- The `int` of `fb_offset` does not overflow. -/
theorem toNat_offset (h : vbe.Fits) (hin : (getFramebufferInfo vbe).InRange x y) :
    ((getFramebufferInfo vbe).offset x y).toNat =
      y.toNat * vbe.pitch.toNat + x.toNat * (vbe.bpp.toNat / 8) := by
  obtain ⟨hrow, hrows⟩ := pixel_le h hin
  have hsize := h.size
  have hle := rows_le h
  rw [offset, getFramebufferInfo, BitVec.toNat_add, BitVec.toNat_mul, BitVec.toNat_mul,
    toNat_pixelBytes, BitVec.toNat_setWidth,
    Nat.mod_eq_of_lt (show vbe.pitch.toNat < 2 ^ 32 by omega),
    Nat.mod_eq_of_lt (show y.toNat * vbe.pitch.toNat < 2 ^ 32 by omega),
    Nat.mod_eq_of_lt (show x.toNat * (vbe.bpp.toNat / 8) < 2 ^ 32 by omega),
    Nat.mod_eq_of_lt (by omega)]

/-- The address of a byte of a pixel. -/
theorem toNat_pixel (h : vbe.Fits) (hin : (getFramebufferInfo vbe).InRange x y) {i : Nat}
    (hi : i < vbe.bpp.toNat / 8) :
    (vbe.framebuffer + (getFramebufferInfo vbe).offset x y + BitVec.ofNat 32 i).toNat =
      vbe.framebuffer.toNat +
        (y.toNat * vbe.pitch.toNat + (x.toNat * (vbe.bpp.toNat / 8) + i)) := by
  obtain ⟨hrow, hrows⟩ := pixel_le h hin
  have hstop := h.stop
  have hle := rows_le h
  rw [toNat_size h] at hstop
  rw [BitVec.toNat_add, BitVec.toNat_add, toNat_offset h hin, BitVec.toNat_ofNat]
  omega

/-- The bytes of a pixel are in the framebuffer. -/
theorem stores_inside (h : vbe.Fits) {s : BitVec 32 × BitVec 8}
    (hs : s ∈ (getFramebufferInfo vbe).stores x y color) :
    vbe.framebuffer.toNat ≤ s.1.toNat ∧
      s.1.toNat < vbe.framebuffer.toNat + vbe.pitch.toNat * vbe.height.toNat := by
  obtain ⟨hin, i, hi, hs⟩ := mem_stores h hs
  obtain ⟨hrow, hrows⟩ := pixel_le h hin
  rw [hs, toNat_pixel h hin hi]
  omega

/-- Two numbers of rows and rests below a row are the same only in both. -/
theorem eq_of_rows {p a b r t : Nat} (hr : r < p) (ht : t < p) (h : a * p + r = b * p + t) :
    a = b ∧ r = t := by
  have hdiv := congrArg (· / p) h
  simp only [Nat.mul_comm _ p, Nat.mul_add_div (Nat.zero_lt_of_lt hr), Nat.div_eq_of_lt hr,
    Nat.div_eq_of_lt ht, Nat.add_zero] at hdiv
  subst hdiv
  exact ⟨rfl, Nat.add_left_cancel h⟩

/-- No byte is stored for two pixels. -/
theorem stores_apart (h : vbe.Fits) {s s' : BitVec 32 × BitVec 8}
    (hs : s ∈ (getFramebufferInfo vbe).stores x y color)
    (hs' : s' ∈ (getFramebufferInfo vbe).stores x' y' color') (heq : s.1 = s'.1) :
    x = x' ∧ y = y' := by
  obtain ⟨hin, i, hi, hs⟩ := mem_stores h hs
  obtain ⟨hin', i', hi', hs'⟩ := mem_stores h hs'
  obtain ⟨hrow, -⟩ := pixel_le h hin
  obtain ⟨hrow', -⟩ := pixel_le h hin'
  have haddr := congrArg BitVec.toNat heq
  rw [hs, hs', toNat_pixel h hin hi, toNat_pixel h hin' hi', Nat.add_right_inj] at haddr
  obtain ⟨hy, hpixel⟩ := eq_of_rows (by omega) (by omega) haddr
  obtain ⟨hx, -⟩ := eq_of_rows hi hi' hpixel
  exact ⟨BitVec.eq_of_toNat_eq hx, BitVec.eq_of_toNat_eq hy⟩

/-! ### The mapping of the framebuffer -/

/-- The pages of the rows are among those of the range that `platform_init` maps. -/
theorem page_lt_endPage (h : vbe.Fits) {a : BitVec 32}
    (ha : a.toNat < vbe.framebuffer.toNat + vbe.pitch.toNat * vbe.height.toNat) :
    a.toNat / 4096 < endPage (vbe.framebuffer + (getFramebufferInfo vbe).size) := by
  have hstop := h.stop
  have hle := rows_le h
  rw [← toNat_size h] at hle
  have hsum : (vbe.framebuffer + (getFramebufferInfo vbe).size).toNat =
      vbe.framebuffer.toNat + (getFramebufferInfo vbe).size.toNat := by
    rw [BitVec.toNat_add, Nat.mod_eq_of_lt (by omega)]
  rw [PageDirectory.endPage_eq_pageCount (by unfold pageCount; omega), pageCount, hsum]
  omega

/-- An address of the framebuffer is mapped to itself by `identity_map_range`. -/
theorem walk_identityMapRange (h : vbe.Fits) {pd : PageDirectory} {m : Mem} (hw : pd.Wired m)
    {a : BitVec 32} (hlow : vbe.framebuffer.toNat ≤ a.toNat)
    (ha : a.toNat < vbe.framebuffer.toNat + vbe.pitch.toNat * vbe.height.toNat) :
    pd.walk (pd.identityMapRange m vbe.framebuffer
      (vbe.framebuffer + (getFramebufferInfo vbe).size)) a = some a := by
  have hsets := PageDirectory.identityMapRange_sets hw vbe.framebuffer
    (vbe.framebuffer + (getFramebufferInfo vbe).size)
  have hp : a.toNat / 4096 < 2 ^ 20 := by omega
  refine hsets.wired.walk_self (PageDirectory.frame_of_mapped hp ?_)
  rw [hsets.pte _ hp, if_pos ⟨Nat.div_le_div_right hlow, page_lt_endPage h ha⟩]

/-- What the boot maps after the framebuffer leaves that as it is. -/
theorem walk_bootMappings (h : vbe.Fits) (m : Mem) (mmap : MemoryMap) {a : BitVec 32}
    (hlow : vbe.framebuffer.toNat ≤ a.toNat)
    (ha : a.toNat < vbe.framebuffer.toNat + vbe.pitch.toNat * vbe.height.toNat) :
    (bootMappings m mmap vbe.framebuffer (getFramebufferInfo vbe).size).1.walk
      (bootMappings m mmap vbe.framebuffer (getFramebufferInfo vbe).size).2 a = some a := by
  obtain ⟨hw, hpte⟩ := bootMappings_spec m mmap vbe.framebuffer (getFramebufferInfo vbe).size
  have hp : a.toNat / 4096 < 2 ^ 20 := by omega
  refine hw.walk_self (PageDirectory.frame_of_mapped hp ?_)
  rw [hpte _ hp, if_pos (Or.inr (Or.inr ⟨Nat.div_le_div_right hlow, page_lt_endPage h ha⟩))]

/-! ### The bytes of a pixel -/

theorem ofDigits_colorBytes (hbpp : vbe.bpp = 24 ∨ vbe.bpp = 32) (color : BitVec 32) :
    Nat.ofDigits 256 (((getFramebufferInfo vbe).colorBytes color).map BitVec.toNat) =
      color.toNat % 2 ^ vbe.bpp.toNat := by
  have hcolor := color.isLt
  rcases hbpp with hbpp | hbpp
  · simp [colorBytes, getFramebufferInfo, hbpp, Nat.ofDigits, Nat.shiftRight_eq_div_pow]
    omega
  · simp [colorBytes, getFramebufferInfo, hbpp, Nat.ofDigits, Nat.shiftRight_eq_div_pow]
    omega

end FramebufferInfo

open FramebufferInfo

variable {vbe : VbeModeInfo} {x y color : BitVec 32}

theorem putpixel_changesOnly (fb : FramebufferInfo) (m : Mem) (x y color : BitVec 32) :
    ChangesOnly {a | ∃ s ∈ fb.stores x y color, s.1 = a} m (putpixel fb m x y color) := by
  refine List.foldlRecOn _ _ (ChangesOnly.refl _ m) fun m' ih s hs => ih.trans ?_
  refine (Mem.changesOnly_store8 m' s.1 s.2).mono fun a ha => ⟨s, hs, ?_⟩
  rw [mem_span] at ha
  bv_omega

theorem bytesAt_putpixel (h : vbe.Fits) (hin : (getFramebufferInfo vbe).InRange x y) (m : Mem) :
    bytesAt (putpixel (getFramebufferInfo vbe) m x y color)
      (vbe.framebuffer + (getFramebufferInfo vbe).offset x y) (vbe.bpp.toNat / 8) =
        (getFramebufferInfo vbe).colorBytes color := by
  have hlen := length_colorBytes h color
  rw [putpixel, stores_of_inRange hin, List.foldl_map, ← hlen]
  exact Mem.bytesAt_foldl_store8 m _ (by omega)

/-- Where `putpixel` stores, and what.  It stores into the rows of the framebuffer only, whose pages
`platform_init` has mapped to themselves, nothing for what is not a pixel of the screen, and
never to the bytes of another pixel. -/
theorem putpixel_stores (h : vbe.Fits) :
    let fb := getFramebufferInfo vbe
    (∀ m x y color, ChangesOnly {a | ∃ s ∈ fb.stores x y color, s.1 = a} m
      (putpixel fb m x y color)) ∧
    (∀ x y color, ∀ s ∈ fb.stores x y color,
      (fb.framebuffer.toNat ≤ s.1.toNat ∧
        s.1.toNat < fb.framebuffer.toNat + fb.pitch.toNat * fb.height.toNat) ∧
      (∀ pd m, PageDirectory.Wired pd m →
        pd.walk (pd.identityMapRange m fb.framebuffer (fb.framebuffer + fb.size)) s.1 = some s.1) ∧
      ∀ m mmap, (bootMappings m mmap fb.framebuffer fb.size).1.walk
        (bootMappings m mmap fb.framebuffer fb.size).2 s.1 = some s.1) ∧
    (∀ m x y color, ¬ fb.InRange x y →
      fb.stores x y color = [] ∧ putpixel fb m x y color = m) ∧
    (∀ x y color x' y' color', (x, y) ≠ (x', y') →
      ∀ s ∈ fb.stores x y color, ∀ s' ∈ fb.stores x' y' color', s.1 ≠ s'.1) ∧
    ((fb.bpp = 24 ∨ fb.bpp = 32) → ∀ m x y color, fb.InRange x y →
      Nat.ofDigits 256 ((bytesAt (putpixel fb m x y color) (fb.framebuffer + fb.offset x y)
        (fb.bpp.toNat / 8)).map BitVec.toNat) = color.toNat % 2 ^ fb.bpp.toNat) := by
  intro fb
  refine ⟨putpixel_changesOnly fb, fun x y color s hs => ?_, fun m x y color hout => ?_,
    fun x y color x' y' color' hne s hs s' hs' heq => ?_, fun hbpp m x y color hin => ?_⟩
  · have hinside := stores_inside h hs
    exact ⟨hinside, fun pd m hw => walk_identityMapRange h hw hinside.1 hinside.2,
      fun m mmap => walk_bootMappings h m mmap hinside.1 hinside.2⟩
  · have hnone : fb.stores x y color = [] := stores_of_not_inRange hout
    exact ⟨hnone, by rw [putpixel, hnone]; rfl⟩
  · obtain ⟨rfl, rfl⟩ := stores_apart h hs hs' heq
    exact hne rfl
  · have hbytes := ofDigits_colorBytes hbpp color
    rwa [← bytesAt_putpixel h hin m] at hbytes

/-- The last pixel of the mode that the boot loader sets. -/
theorem putpixel_stores_800x600 :
    let fb := getFramebufferInfo ⟨2400, 800, 600, 24, 0xFD000000⟩
    fb.stores 799 599 0x112233 = [(0xFD15F8FD, 0x33), (0xFD15F8FE, 0x22), (0xFD15F8FF, 0x11)] ∧
    ∀ m mmap, (bootMappings m mmap fb.framebuffer fb.size).1.walk
        (bootMappings m mmap fb.framebuffer fb.size).2 0xFD15F8FF = some 0xFD15F8FF := by
  intro fb
  have hstores : fb.stores 799 599 0x112233 =
      [(0xFD15F8FD, 0x33), (0xFD15F8FE, 0x22), (0xFD15F8FF, 0x11)] := by decide
  have hmem : (0xFD15F8FF, 0x11) ∈ fb.stores 799 599 0x112233 := by
    rw [hstores]
    decide
  exact ⟨hstores, ((putpixel_stores fits_800x600).2.1 799 599 0x112233 _ hmem).2.2⟩

end Sapphire
