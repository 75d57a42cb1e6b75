import Sapphire.Lib.Loop
import Sapphire.Lib.Memory

/-! Loops of stores: filling a span of memory with one byte, and tables of 32-bit words, where
`slot base p` is the address of word `p` of the table at `base`. -/

namespace Machine

/-- `n` bytes `v` stored from `a` on. -/
theorem foldl_store8 {n : Nat} (hn : n ≤ 2 ^ 32) (m : Mem) (a : BitVec 32) (v : BitVec 8)
    (x : BitVec 32) :
    (List.range n).foldl (fun m i => m.store8 (a + BitVec.ofNat 32 i) v) m x =
      if (x - a).toNat < n then v else m x := by
  revert x
  apply foldl_range_induct (fun i (t : Mem) => ∀ x, t x = if (x - a).toNat < i then v else m x)
  · intro x
    rw [if_neg (by omega)]
  · intro i hi t ht x
    have hx : x = a + BitVec.ofNat 32 i ↔ (x - a).toNat = i := by
      constructor
      · rintro rfl
        bv_omega
      · intro h
        bv_omega
    rw [Mem.store8, ht x]
    by_cases h : (x - a).toNat = i
    · rw [if_pos (hx.mpr h), if_pos (by omega)]
    · rw [if_neg fun hxa => h (hx.mp hxa)]
      congr 1
      simp only [eq_iff_iff]
      omega

/-- The address of word `p` of the table at `base`. -/
def slot (base : BitVec 32) (p : Nat) : BitVec 32 := base + 4 * BitVec.ofNat 32 p

/-- The words of a table that starts later. -/
theorem slot_add (base : BitVec 32) (j k : Nat) :
    slot (base + BitVec.ofNat 32 (4 * j)) k = slot base (j + k) := by
  rw [slot, slot, BitVec.ofNat_add]
  bv_omega

theorem slot_subset {base : BitVec 32} {p n : Nat} (hp : p < n) (hn : n ≤ 2 ^ 30) :
    span (slot base p) 4 ⊆ span base (4 * n) := by
  unfold slot
  exact span_subset (by bv_omega)

theorem load32_store32_slot (m : Mem) (base v : BitVec 32) {p q : Nat} (hp : p < 2 ^ 30)
    (hq : q < 2 ^ 30) :
    (m.store32 (slot base p) v).load32 (slot base q) =
      if q = p then v else m.load32 (slot base q) := by
  by_cases hpq : q = p
  · subst hpq
    simp
  · rw [if_neg hpq]
    apply Mem.load32_store32_of_disjoint
    rw [Set.disjoint_left]
    intro x hx1 hx2
    simp only [slot, mem_span] at hx1 hx2
    bv_omega

/-- Two memories that differ from a third in a table of `n` words only, by their words. -/
theorem eq_of_load32_slot {m m1 m2 : Mem} {base : BitVec 32} {n : Nat}
    (h1 : ChangesOnly (span base (4 * n)) m m1) (h2 : ChangesOnly (span base (4 * n)) m m2)
    (hwords : ∀ p < n, m1.load32 (slot base p) = m2.load32 (slot base p)) : m1 = m2 := by
  funext x
  by_cases hx : x ∈ span base (4 * n)
  · apply BitVec.eq_of_getLsbD_eq
    intro k hk
    rw [mem_span] at hx
    set p := (x - base).toNat / 4 with hp
    set i := 8 * ((x - base).toNat % 4) + k with hi
    have hbyte : slot base p + BitVec.ofNat 32 (i / 8) = x := by
      rw [slot]
      bv_omega
    have hbit := congrArg (fun w => w.getLsbD i) (hwords p (by omega))
    rwa [Mem.getLsbD_load32 _ _ (by omega), Mem.getLsbD_load32 _ _ (by omega), hbyte,
      show i % 8 = k by omega] at hbit
  · rw [h1 x hx, h2 x hx]

/-- Words of bytes that are all zero. -/
theorem load32_zero {m : Mem} {a : BitVec 32} (h : ∀ x ∈ span a 4, m x = 0) : m.load32 a = 0 := by
  apply BitVec.eq_of_getLsbD_eq
  intro k hk
  rw [Mem.getLsbD_load32 _ _ hk, h]
  · simp
  · simp only [mem_span]
    bv_omega

end Machine
