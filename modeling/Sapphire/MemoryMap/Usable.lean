import Sapphire.MemoryMap
import Sapphire.Paging.Tables

/-! The pages of a memory map.  The kernel takes an entry's pages to be those from its base, cut to
32 bits and rounded down, on to its end, clamped to 32 bits and rounded up: `Covers`.  What the
entry really holds are the addresses from `base` on below `base + length`: `Spans`.  The two differ
at both ends. -/

namespace Sapphire

open Machine

namespace E820Entry

/-- Page `p` is one of the pages the kernel takes a usable entry to have. -/
def Covers (e : E820Entry) (p : Nat) : Prop :=
  e.type = 1 ∧ (e.base.setWidth 32).toNat / 4096 ≤ p ∧ p < endPage (clamp32 (e.base + e.length))

instance (e : E820Entry) (p : Nat) : Decidable (e.Covers p) :=
  inferInstanceAs (Decidable (_ ∧ _ ∧ _))

/-- The entry holds the address `a`. -/
def Spans (e : E820Entry) (a : Nat) : Prop :=
  e.base.toNat ≤ a ∧ a < e.base.toNat + e.length.toNat

instance (e : E820Entry) (a : Nat) : Decidable (e.Spans a) := inferInstanceAs (Decidable (_ ∧ _))

/-- The entry holds all of page `p`. -/
def SpansPage (e : E820Entry) (p : Nat) : Prop :=
  e.base.toNat ≤ 4096 * p ∧ 4096 * p + 4096 ≤ e.base.toNat + e.length.toNat

/-- The entry holds a byte of page `p`. -/
def Meets (e : E820Entry) (p : Nat) : Prop :=
  max e.base.toNat (4096 * p) < min (e.base.toNat + e.length.toNat) (4096 * p + 4096)

theorem toNat_clamp32 (a : BitVec 64) : (clamp32 a).toNat = min a.toNat 0xFFFFFFFF := by
  unfold clamp32
  split
  · bv_omega
  · rw [BitVec.toNat_setWidth]
    bv_omega

/-- The pages of an entry that ends at most at `0xFFFFF000` are covered. -/
theorem covers_of_spansPage {e : E820Entry} {p : Nat} (htype : e.type = 1) (h : e.SpansPage p)
    (hend : e.base.toNat + e.length.toNat ≤ 0xFFFFF000) : e.Covers p := by
  obtain ⟨h1, h2⟩ := h
  have hsum : (e.base + e.length).toNat = e.base.toNat + e.length.toNat := by
    rw [BitVec.toNat_add, Nat.mod_eq_of_lt (by omega)]
  refine ⟨htype, ?_, ?_⟩
  · rw [BitVec.toNat_setWidth]
    omega
  · rw [endPage, toNat_clamp32, hsum]
    split <;> omega

/-- An entry that ends above `0xFFFFF000` covers none of the pages that it holds: the end is
clamped and rounded up to 0, or its 64-bit sum is below the base. -/
theorem not_covers_of_spansPage {e : E820Entry} {p : Nat} (h : e.SpansPage p)
    (hend : 0xFFFFF000 < e.base.toNat + e.length.toNat) (hp : p < 2 ^ 20) : ¬ e.Covers p := by
  rintro ⟨-, -, hlast⟩
  obtain ⟨h1, -⟩ := h
  have hbase := e.base.isLt
  have hlength := e.length.isLt
  rw [endPage, toNat_clamp32, BitVec.toNat_add] at hlast
  split at hlast
  · by_cases hwrap : e.base.toNat + e.length.toNat < 2 ^ 64
    · rw [Nat.mod_eq_of_lt hwrap] at hlast
      omega
    · rw [Nat.mod_eq_sub_mod (by omega), Nat.mod_eq_of_lt (by omega)] at hlast
      omega
  · omega

end E820Entry

namespace MemoryMap

/-- Page `p` is one of the pages the kernel takes the map's usable entries to have. -/
def Covered (mmap : MemoryMap) (p : Nat) : Prop := ∃ e ∈ mmap.entries, e.Covers p

instance (mmap : MemoryMap) (p : Nat) : Decidable (mmap.Covered p) :=
  inferInstanceAs (Decidable (∃ e ∈ _, _))

/-- `identity_map_usable` maps the covered pages to themselves and changes no other entry. -/
theorem identityMapUsable_spec (mmap : MemoryMap) {pd : PageDirectory} {m : Mem}
    (h : pd.Wired m) :
    (pd.Wired (mmap.identityMapUsable pd m) ∧
      ChangesOnly (span pageTablesBase 0x400000) m (mmap.identityMapUsable pd m)) ∧
    ∀ p < 2 ^ 20, pd.pte (mmap.identityMapUsable pd m) p =
      if mmap.Covered p then mapped (BitVec.ofNat 32 (4096 * p)) else pd.pte m p := by
  apply foldl_update pd.pte (fun t => pd.Wired t ∧ ChangesOnly (span pageTablesBase 0x400000) m t)
    ⟨h, ChangesOnly.refl _ _⟩
  rintro e t ⟨hw, hc⟩
  by_cases htype : e.type = 1
  · have hsets := PageDirectory.identityMapRange_sets hw (e.base.setWidth 32)
      (clamp32 (e.base + e.length))
    rw [if_neg (by simpa using htype)]
    refine ⟨⟨hsets.wired, hc.trans hsets.changes⟩, fun q hq => (hsets.pte q hq).trans ?_⟩
    congr 1
    simp only [E820Entry.Covers, htype, true_and]
  · rw [if_pos htype]
    refine ⟨⟨hw, hc⟩, fun q _ => ?_⟩
    rw [if_neg fun hcov => htype hcov.1]

end MemoryMap

end Sapphire
