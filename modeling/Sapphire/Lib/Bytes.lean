import Mathlib.Algebra.Ring.Nat
import Mathlib.Data.BitVec
import Mathlib.Data.List.Basic

/-! Strings of bytes in a memory whose addresses have any width and wrap. -/

namespace Machine

variable {w : Nat} {m m' : BitVec w → BitVec 8} {a : BitVec w}

/-- The `n` bytes from `a` on. -/
def bytesAt (m : BitVec w → BitVec 8) (a : BitVec w) (n : Nat) : List (BitVec 8) :=
  (List.range n).map fun i => m (a + BitVec.ofNat w i)

@[simp] theorem length_bytesAt (m : BitVec w → BitVec 8) (a : BitVec w) (n : Nat) :
    (bytesAt m a n).length = n := by
  rw [bytesAt, List.length_map, List.length_range]

theorem bytesAt_succ (m : BitVec w → BitVec 8) (a : BitVec w) (n : Nat) :
    bytesAt m a (n + 1) = bytesAt m a n ++ [m (a + BitVec.ofNat w n)] := by
  rw [bytesAt, List.range_succ, List.map_append, bytesAt, List.map_singleton]

theorem bytesAt_add (m : BitVec w → BitVec 8) (a : BitVec w) (n k : Nat) :
    bytesAt m a (n + k) = bytesAt m a n ++ bytesAt m (a + BitVec.ofNat w n) k := by
  induction k with
  | zero => rw [Nat.add_zero, bytesAt, bytesAt, List.range_zero, List.map_nil, List.append_nil]
  | succ k ih =>
    rw [← Nat.add_assoc, bytesAt_succ, ih, bytesAt_succ, List.append_assoc, BitVec.ofNat_add,
      BitVec.add_assoc]

theorem bytesAt_one (m : BitVec w → BitVec 8) (a : BitVec w) : bytesAt m a 1 = [m a] := by
  rw [bytesAt_succ, BitVec.add_zero]
  rfl

theorem bytesAt_congr {n : Nat}
    (h : ∀ i < n, m' (a + BitVec.ofNat w i) = m (a + BitVec.ofNat w i)) :
    bytesAt m' a n = bytesAt m a n :=
  List.map_congr_left fun i hi => h i (List.mem_range.mp hi)

/-- Two strings of a length, byte by byte. -/
theorem bytesAt_eq_iff {n : Nat} {l : List (BitVec 8)} (hl : l.length = n) :
    bytesAt m a n = l ↔ ∀ i < n, l[i]? = some (m (a + BitVec.ofNat w i)) := by
  have hget : ∀ i < n, (bytesAt m a n)[i]? = some (m (a + BitVec.ofNat w i)) := by
    intro i hi
    rw [bytesAt, List.getElem?_map, List.getElem?_range hi, Option.map_some]
  constructor
  · rintro rfl i hi
    exact hget i hi
  · intro h
    apply List.ext_getElem?
    intro i
    by_cases hi : i < n
    · rw [hget i hi, h i hi]
    · rw [List.getElem?_eq_none (by rw [length_bytesAt]; omega), List.getElem?_eq_none (by omega)]

/-- `data` written from `a` on. -/
def writeBytes (m : BitVec w → BitVec 8) (a : BitVec w) (data : List (BitVec 8)) :
    BitVec w → BitVec 8 :=
  fun x => (data[(x - a).toNat]?).getD (m x)

/-- By the distances of the data and of the byte from an address. -/
theorem writeBytes_apply (m : BitVec w → BitVec 8) (a : BitVec w) {data : List (BitVec 8)}
    {d k : Nat} (hd : d + data.length ≤ 2 ^ w) (hk : k < 2 ^ w) :
    writeBytes m (a + BitVec.ofNat w d) data (a + BitVec.ofNat w k) =
      if d ≤ k then (data[k - d]?).getD (m (a + BitVec.ofNat w k))
      else m (a + BitVec.ofNat w k) := by
  rcases List.eq_nil_or_concat data with rfl | ⟨rest, last, rfl⟩
  · simp [writeBytes]
  · have hlt : d < 2 ^ w := by
      rw [List.length_concat] at hd
      omega
    have hdist : (a + BitVec.ofNat w k - (a + BitVec.ofNat w d)).toNat = (2 ^ w - d + k) % 2 ^ w := by
      rw [add_sub_add_left_eq_sub, BitVec.toNat_sub, BitVec.toNat_ofNat, BitVec.toNat_ofNat,
        Nat.mod_eq_of_lt hlt, Nat.mod_eq_of_lt hk]
    rw [writeBytes, hdist]
    by_cases hdk : d ≤ k
    · rw [if_pos hdk, show 2 ^ w - d + k = 2 ^ w + (k - d) by omega, Nat.add_mod_left,
        Nat.mod_eq_of_lt (by omega)]
    · -- the byte is before the data
      rw [if_neg hdk, Nat.mod_eq_of_lt (by omega), List.getElem?_eq_none (by omega),
        Option.getD_none]

theorem bytesAt_writeBytes (m : BitVec w → BitVec 8) (a : BitVec w) {data : List (BitVec 8)}
    (hlen : data.length ≤ 2 ^ w) : bytesAt (writeBytes m a data) a data.length = data := by
  rw [bytesAt_eq_iff rfl]
  intro i hi
  have hdist : (a + BitVec.ofNat w i - a).toNat = i := by
    rw [add_sub_cancel_left, BitVec.toNat_ofNat, Nat.mod_eq_of_lt (by omega)]
  rw [writeBytes, hdist, List.getElem?_eq_getElem hi, Option.getD_some]

/-- The number `v` in `n` bytes, the low one first. -/
def littleEndian (n v : Nat) : List (BitVec 8) :=
  (List.range n).map fun i => BitVec.ofNat 8 (v / 256 ^ i)

@[simp] theorem length_littleEndian (n v : Nat) : (littleEndian n v).length = n := by
  rw [littleEndian, List.length_map, List.length_range]

theorem getElem?_littleEndian {n i : Nat} (hi : i < n) (v : Nat) :
    (littleEndian n v)[i]? = some (BitVec.ofNat 8 (v / 256 ^ i)) := by
  rw [littleEndian, List.getElem?_map, List.getElem?_range hi, Option.map_some]

end Machine
