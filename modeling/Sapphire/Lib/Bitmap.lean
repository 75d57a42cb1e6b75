import Sapphire.Lib.Memory

/-! Bitmaps in memory: bit `i` of the bitmap at `base` is bit `i % 8` of the byte at `base + i / 8`.
Programs read and write a bitmap in 32-bit words, `setBit` and `clearBit`, which change the one bit
they name, and test a bit by masking its word.  -/

namespace Machine

/-- Bit `i` of the bitmap at `base`. -/
def testBit (m : Mem) (base : BitVec 32) (i : Nat) : Bool :=
  (m (base + BitVec.ofNat 32 (i / 8))).getLsbD (i % 8)

/-- The address of the word that holds bit `i`. -/
def bitWord (base i : BitVec 32) : BitVec 32 := base + 4 * (i / 32)

/-- `base[i / 32] |= 1 << (i % 32)` -/
def setBit (m : Mem) (base i : BitVec 32) : Mem :=
  m.store32 (bitWord base i) (m.load32 (bitWord base i) ||| (1#32 <<< (i % 32)))

/-- `base[i / 32] &= ~(1 << (i % 32))` -/
def clearBit (m : Mem) (base i : BitVec 32) : Mem :=
  m.store32 (bitWord base i) (m.load32 (bitWord base i) &&& ~~~(1#32 <<< (i % 32)))

variable (m : Mem) (base i : BitVec 32)

theorem bitWord_eq : bitWord base i = base + BitVec.ofNat 32 (4 * (i.toNat / 32)) := by
  have hi : (i / 32).toNat = i.toNat / 32 := by simp
  rw [bitWord, ← hi]
  bv_omega

/-- Bit `k` of word `w` of the bitmap. -/
theorem getLsbD_load32_bitmap (w : BitVec 32) {k : Nat} (hk : k < 32) :
    (m.load32 (base + 4 * w)).getLsbD k = testBit m base (32 * w.toNat + k) := by
  have haddr : base + 4 * w + BitVec.ofNat 32 (k / 8) =
      base + BitVec.ofNat 32 ((32 * w.toNat + k) / 8) := by bv_omega
  rw [Mem.getLsbD_load32 _ _ hk, haddr, testBit, show (32 * w.toNat + k) % 8 = k % 8 by omega]

theorem getLsbD_load32_bitWord {k : Nat} (hk : k < 32) :
    (m.load32 (bitWord base i)).getLsbD k = testBit m base (32 * (i.toNat / 32) + k) := by
  rw [bitWord, getLsbD_load32_bitmap m base _ hk]
  simp

theorem getLsbD_mask {k : Nat} (_hk : k < 32) :
    (1#32 <<< (i % 32)).getLsbD k = decide (k = i.toNat % 32) := by
  have hi : (i % 32).toNat = i.toNat % 32 := by simp
  rw [BitVec.shiftLeft_eq', BitVec.getLsbD_shiftLeft, BitVec.getLsbD_one, hi]
  by_cases h : k = i.toNat % 32
  · simp [h, Nat.mod_lt]
  · simp [h]
    omega

/-- Masking the word of bit `i` tests it. -/
theorem mask_eq_zero_iff :
    m.load32 (bitWord base i) &&& (1#32 <<< (i % 32)) = 0 ↔ testBit m base i.toNat = false := by
  have hi : 32 * (i.toNat / 32) + i.toNat % 32 = i.toNat := by omega
  have hlt : i.toNat % 32 < 32 := Nat.mod_lt _ (by decide)
  have hbit : ∀ k < 32, (m.load32 (bitWord base i) &&& (1#32 <<< (i % 32))).getLsbD k =
      (testBit m base (32 * (i.toNat / 32) + k) && decide (k = i.toNat % 32)) := by
    intro k hk
    rw [BitVec.getLsbD_and, getLsbD_load32_bitWord m base i hk, getLsbD_mask i hk]
  constructor
  · intro hzero
    have h := hbit _ hlt
    rw [hzero, hi] at h
    simpa using h.symm
  · intro hclear
    apply BitVec.eq_of_getLsbD_eq
    intro k hk
    rw [hbit k hk]
    by_cases hki : k = i.toNat % 32
    · subst hki
      simp [hi, hclear]
    · simp [hki]

/-- A bitmap that starts as many bytes too low as the byte of bit `j` is high has the bits of that
byte in its first one. -/
theorem testBit_shifted (j : Nat) :
    testBit m (base - BitVec.ofNat 32 (j / 8)) j = testBit m base (j % 8) := by
  have hlow : j % 8 / 8 = 0 := Nat.div_eq_of_lt (Nat.mod_lt j (by omega))
  rw [testBit, testBit, hlow, Nat.mod_mod, BitVec.sub_add_cancel, BitVec.add_zero]

/-! ### Writing a bit -/

/-- A word stored over the word of bit `i` replaces the bits of that word. -/
theorem testBit_store32_bitWord (v : BitVec 32) {j : Nat} (hj : j < 2 ^ 35) :
    testBit (m.store32 (bitWord base i) v) base j =
      if j / 32 = i.toNat / 32 then v.getLsbD (j % 32) else testBit m base j := by
  have hoff : (base + BitVec.ofNat 32 (j / 8) - bitWord base i).toNat < 4 ↔
      j / 32 = i.toNat / 32 := by
    rw [bitWord_eq]
    bv_omega
  simp only [testBit, Mem.store32, hoff]
  by_cases h : j / 32 = i.toNat / 32
  · have hbyte : (base + BitVec.ofNat 32 (j / 8) - bitWord base i).toNat = j % 32 / 8 := by
      rw [bitWord_eq]
      bv_omega
    rw [if_pos h, if_pos h, hbyte, BitVec.getLsbD_extractLsb']
    rw [show 8 * (j % 32 / 8) + j % 8 = j % 32 by omega]
    simp [Nat.mod_lt]
  · rw [if_neg h, if_neg h]

theorem testBit_setBit {j : Nat} (hj : j < 2 ^ 35) :
    testBit (setBit m base i) base j = (testBit m base j || decide (j = i.toNat)) := by
  rw [setBit, testBit_store32_bitWord m base i _ hj]
  by_cases h : j / 32 = i.toNat / 32
  · rw [if_pos h, BitVec.getLsbD_or, getLsbD_load32_bitWord m base i (Nat.mod_lt _ (by decide)),
      getLsbD_mask i (Nat.mod_lt _ (by decide)), ← h, show 32 * (j / 32) + j % 32 = j by omega]
    congr 2
    simp only [eq_iff_iff]
    omega
  · have hne : j ≠ i.toNat := by
      rintro rfl
      exact h rfl
    simp [h, hne]

theorem testBit_clearBit {j : Nat} (hj : j < 2 ^ 35) :
    testBit (clearBit m base i) base j = (testBit m base j && !decide (j = i.toNat)) := by
  rw [clearBit, testBit_store32_bitWord m base i _ hj]
  by_cases h : j / 32 = i.toNat / 32
  · have hlt : j % 32 < 32 := Nat.mod_lt _ (by decide)
    rw [if_pos h, BitVec.getLsbD_and, getLsbD_load32_bitWord m base i hlt, BitVec.getLsbD_not,
      getLsbD_mask i hlt, ← h, show 32 * (j / 32) + j % 32 = j by omega]
    simp only [hlt, decide_true, Bool.true_and]
    congr 3
    simp only [eq_iff_iff]
    omega
  · have hne : j ≠ i.toNat := by
      rintro rfl
      exact h rfl
    simp [h, hne]

theorem changesOnly_setBit : ChangesOnly (span (bitWord base i) 4) m (setBit m base i) :=
  Mem.changesOnly_store32 _ _ _

theorem changesOnly_clearBit : ChangesOnly (span (bitWord base i) 4) m (clearBit m base i) :=
  Mem.changesOnly_store32 _ _ _

/-- A bitmap keeps the bits whose bytes do not change. -/
theorem testBit_of_changesOnly {m m' : Mem} {S : Set (BitVec 32)} (h : ChangesOnly S m m')
    {base : BitVec 32} {j : Nat} (hj : base + BitVec.ofNat 32 (j / 8) ∉ S) :
    testBit m' base j = testBit m base j := by
  rw [testBit, h _ hj, testBit]

/-- Two memories that differ from a third in a bitmap of `n` bytes only, by their bits. -/
theorem eq_of_testBit {m m1 m2 : Mem} {base : BitVec 32} {n : Nat}
    (h1 : ChangesOnly (span base n) m m1) (h2 : ChangesOnly (span base n) m m2)
    (hbits : ∀ j < 8 * n, testBit m1 base j = testBit m2 base j) : m1 = m2 := by
  funext x
  by_cases hx : x ∈ span base n
  · apply BitVec.eq_of_getLsbD_eq
    intro k hk
    rw [mem_span] at hx
    have hbyte : base + BitVec.ofNat 32 ((8 * (x - base).toNat + k) / 8) = x := by bv_omega
    have hbit := hbits (8 * (x - base).toNat + k) (by omega)
    rwa [testBit, testBit, hbyte, show (8 * (x - base).toNat + k) % 8 = k by omega] at hbit
  · rw [h1 x hx, h2 x hx]

end Machine
