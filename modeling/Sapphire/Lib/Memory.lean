import Sapphire.Lib.Bytes
import Mathlib.Data.Set.BooleanAlgebra
import Mathlib.Order.CompletePartialOrder

/-! A byte memory with 32-bit addresses and little-endian 32-bit words.  Addresses wrap: the word at
`a` is the bytes `a` to `a + 3` modulo `2^32`, and `span a n` is the set of `n` addresses from `a`
on, around the end of the address space when it is reached.  `ChangesOnly S m m'` says that nothing
outside `S` differs between two memories. -/

namespace Machine

/-- A byte memory with 32-bit addresses. -/
abbrev Mem := BitVec 32 → BitVec 8

/-- The `n` addresses from `a` on. -/
def span (a : BitVec 32) (n : Nat) : Set (BitVec 32) := {x | (x - a).toNat < n}

@[simp] theorem mem_span {a x : BitVec 32} {n : Nat} : x ∈ span a n ↔ (x - a).toNat < n := Iff.rfl

/-- A span that does not pass the end of the address space, by the values of its addresses. -/
theorem mem_span_iff {a x : BitVec 32} {n : Nat} (h : a.toNat + n ≤ 2 ^ 32) :
    x ∈ span a n ↔ a.toNat ≤ x.toNat ∧ x.toNat < a.toNat + n := by
  simp only [mem_span]
  bv_omega

theorem span_mono {a : BitVec 32} {n k : Nat} (h : n ≤ k) : span a n ⊆ span a k :=
  fun _ hx => Nat.lt_of_lt_of_le hx h

/-- Two spans that do not pass the end of the address space, one before the other. -/
theorem disjoint_span {a b : BitVec 32} {n k : Nat} (ha : a.toNat + n ≤ 2 ^ 32)
    (hb : b.toNat + k ≤ 2 ^ 32) (h : a.toNat + n ≤ b.toNat ∨ b.toNat + k ≤ a.toNat) :
    Disjoint (span a n) (span b k) := by
  rw [Set.disjoint_left]
  intro x hxa hxb
  rw [mem_span_iff ha] at hxa
  rw [mem_span_iff hb] at hxb
  omega

/-- A span inside a span. -/
theorem span_subset {a b : BitVec 32} {n k : Nat} (h : (a - b).toNat + n ≤ k) :
    span a n ⊆ span b k := by
  intro x hx
  simp only [mem_span] at hx ⊢
  bv_omega

/-- Every byte outside `S` is the same in `m'` as in `m`. -/
def ChangesOnly (S : Set (BitVec 32)) (m m' : Mem) : Prop := ∀ x, x ∉ S → m' x = m x

namespace ChangesOnly

variable {S T : Set (BitVec 32)} {m m' m'' : Mem}

theorem refl (S : Set (BitVec 32)) (m : Mem) : ChangesOnly S m m := fun _ _ => rfl

theorem trans (h1 : ChangesOnly S m m') (h2 : ChangesOnly S m' m'') : ChangesOnly S m m'' :=
  fun x hx => (h2 x hx).trans (h1 x hx)

theorem mono (h : ChangesOnly S m m') (hST : S ⊆ T) : ChangesOnly T m m' :=
  fun x hx => h x fun hS => hx (hST hS)

end ChangesOnly

namespace Mem

/-- The byte `v` stored at `a`. -/
def store8 (m : Mem) (a : BitVec 32) (v : BitVec 8) : Mem := fun x => if x = a then v else m x

/-- The little-endian word at `a`. -/
def load32 (m : Mem) (a : BitVec 32) : BitVec 32 := m (a + 3) ++ m (a + 2) ++ m (a + 1) ++ m a

/-- The word `v` stored at `a`, little-endian. -/
def store32 (m : Mem) (a v : BitVec 32) : Mem := fun x =>
  if (x - a).toNat < 4 then v.extractLsb' (8 * (x - a).toNat) 8 else m x

variable {m m' : Mem} {a b v : BitVec 32}

/-- Bit `k` of a word is bit `k % 8` of its byte `k / 8`. -/
theorem getLsbD_load32 (m : Mem) (a : BitVec 32) {k : Nat} (hk : k < 32) :
    (m.load32 a).getLsbD k = (m (a + BitVec.ofNat 32 (k / 8))).getLsbD (k % 8) := by
  simp only [load32, BitVec.getLsbD_append]
  have hcases : k / 8 = 0 ∨ k / 8 = 1 ∨ k / 8 = 2 ∨ k / 8 = 3 := by omega
  rcases hcases with h | h | h | h
  · rw [if_pos (by omega), h, show k % 8 = k by omega]
    simp
  · rw [if_neg (by omega), if_pos (by omega), h, show k % 8 = k - 8 by omega]
    rfl
  · rw [if_neg (by omega), if_neg (by omega), if_pos (by omega), h,
      show k % 8 = k - 8 - 8 by omega]
    rfl
  · rw [if_neg (by omega), if_neg (by omega), if_neg (by omega), h,
      show k % 8 = k - 8 - 8 - 8 by omega]
    rfl

theorem changesOnly_store8 (m : Mem) (a : BitVec 32) (v : BitVec 8) :
    ChangesOnly (span a 1) m (m.store8 a v) := by
  intro x hx
  have hne : x ≠ a := by
    rintro rfl
    simp at hx
  simp [store8, hne]

theorem changesOnly_store32 (m : Mem) (a v : BitVec 32) :
    ChangesOnly (span a 4) m (m.store32 a v) := by
  intro x hx
  exact if_neg hx

@[simp] theorem store8_self (m : Mem) (a : BitVec 32) (v : BitVec 8) : m.store8 a v a = v := by
  simp [store8]

@[simp] theorem load32_store32_self (m : Mem) (a v : BitVec 32) :
    (m.store32 a v).load32 a = v := by
  apply BitVec.eq_of_getLsbD_eq
  intro k hk
  have hoff : (a + BitVec.ofNat 32 (k / 8) - a).toNat = k / 8 := by bv_omega
  rw [getLsbD_load32 _ _ hk, store32]
  simp only [hoff, show k / 8 < 4 by omega, if_true, BitVec.getLsbD_extractLsb']
  rw [show 8 * (k / 8) + k % 8 = k by omega]
  simp [Nat.mod_lt]

/-- A word is determined by its four bytes. -/
theorem load32_congr (h : ∀ x ∈ span a 4, m' x = m x) : m'.load32 a = m.load32 a := by
  have h0 := h a (by simp)
  have h1 := h (a + 1) (by simp only [mem_span]; bv_omega)
  have h2 := h (a + 2) (by simp only [mem_span]; bv_omega)
  have h3 := h (a + 3) (by simp only [mem_span]; bv_omega)
  simp only [load32, h0, h1, h2, h3]

/-- A word outside what changed. -/
theorem load32_of_changesOnly {S : Set (BitVec 32)} (h : ChangesOnly S m m')
    (hd : Disjoint (span a 4) S) : m'.load32 a = m.load32 a :=
  load32_congr fun x hx => h x (Set.disjoint_left.mp hd hx)

theorem load32_store32_of_disjoint (hd : Disjoint (span a 4) (span b 4)) :
    (m.store32 b v).load32 a = m.load32 a :=
  load32_of_changesOnly (changesOnly_store32 m b v) hd

/-! ### Strings of bytes -/

theorem changesOnly_writeBytes (m : Mem) (a : BitVec 32) (data : List (BitVec 8)) :
    ChangesOnly (span a data.length) m (writeBytes m a data) := by
  intro x hx
  rw [mem_span, Nat.not_lt] at hx
  rw [writeBytes, List.getElem?_eq_none hx, Option.getD_none]

/-- Bytes outside what changed. -/
theorem bytesAt_of_changesOnly {S : Set (BitVec 32)} {n : Nat} (h : ChangesOnly S m m')
    (hn : n ≤ 2 ^ 32) (hd : Disjoint (span a n) S) : bytesAt m' a n = bytesAt m a n := by
  refine bytesAt_congr fun i hi => h _ (Set.disjoint_left.mp hd ?_)
  rw [mem_span]
  bv_omega

/-- A string in three parts of which the second has changed. -/
theorem bytesAt_replace {S : Set (BitVec 32)} {n k j : Nat} (hn : n + k + j ≤ 2 ^ 32)
    (h : ChangesOnly (span (a + BitVec.ofNat 32 n) k ∪ S) m m')
    (hd : Disjoint (span a (n + k + j)) S) :
    bytesAt m' a (n + k + j) = bytesAt m a n ++ bytesAt m' (a + BitVec.ofNat 32 n) k ++
      bytesAt m (a + BitVec.ofNat 32 (n + k)) j := by
  rw [bytesAt_add, bytesAt_add]
  congr 1
  · congr 1
    refine bytesAt_of_changesOnly h (by omega) (Set.disjoint_union_right.mpr
      ⟨Set.disjoint_left.mpr fun x h1 h2 => ?_, hd.mono_left (span_mono (by omega))⟩)
    rw [mem_span] at h1 h2
    bv_omega
  · refine bytesAt_of_changesOnly h (by omega) (Set.disjoint_union_right.mpr
      ⟨Set.disjoint_left.mpr fun x h1 h2 => ?_, hd.mono_left (span_subset ?_)⟩)
    · rw [mem_span] at h1 h2
      bv_omega
    · bv_omega

/-- A byte stored after `n` others. -/
theorem bytesAt_store8_succ (m : Mem) (a : BitVec 32) (v : BitVec 8) {n : Nat} (hn : n < 2 ^ 32) :
    bytesAt (m.store8 (a + BitVec.ofNat 32 n) v) a (n + 1) = bytesAt m a n ++ [v] := by
  rw [bytesAt_succ, store8_self]
  congr 1
  refine bytesAt_congr fun i hi => if_neg fun h => ?_
  bv_omega

/-- A string stored byte by byte. -/
theorem bytesAt_foldl_store8 (m : Mem) (a : BitVec 32) {l : List (BitVec 8)}
    (hl : l.length ≤ 2 ^ 32) :
    bytesAt (l.zipIdx.foldl (fun (m : Mem) b => m.store8 (a + BitVec.ofNat 32 b.2) b.1) m) a
      l.length = l := by
  induction l using List.reverseRecOn with
  | nil => rfl
  | append_singleton l v ih =>
    rw [List.length_append, List.length_singleton] at hl ⊢
    rw [List.zipIdx_append, List.foldl_append, List.zipIdx_singleton, List.foldl_cons,
      List.foldl_nil, Nat.zero_add, bytesAt_store8_succ _ _ _ (by omega), ih (by omega)]

end Mem

end Machine
