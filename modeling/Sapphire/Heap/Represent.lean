import Sapphire.Heap
import Sapphire.Lib.Segments

/-! The heap's memory represents a list of segments.  `Chain m a segs` says that the headers in `m`
from address `a` on are those of `segs`, laid out without gaps and linked in order.  `alloc` then
computes `Segments.firstFit`, and `free` computes `Segments.freeAt` followed by
`Segments.coalesce`. -/

namespace Sapphire

open Machine Segments

/-- Arithmetic that is exact where nothing wraps. -/
structure Arith.Exact (ar : Arith) : Prop where
  add : ∀ a b : BitVec 32, a.toNat + b.toNat < 2 ^ 32 → ar.add a b = some (a + b)
  sub : ∀ a b : BitVec 32, b.toNat ≤ a.toNat → ar.sub a b = some (a - b)

theorem Arith.exact_wrapping : Arith.wrapping.Exact := ⟨fun _ _ _ => rfl, fun _ _ _ => rfl⟩

theorem Arith.Exact.add_eq {ar : Arith} (har : ar.Exact) {x y z : BitVec 32}
    (h : x.toNat + y.toNat = z.toNat) : ar.add x y = some z := by
  rw [har.add x y (by rw [h]; exact z.isLt)]
  congr 1
  bv_omega

theorem Arith.Exact.sub_eq {ar : Arith} (har : ar.Exact) {x y z : BitVec 32}
    (h : x.toNat = y.toNat + z.toNat) : ar.sub x y = some z := by
  rw [har.sub x y (by omega)]
  congr 1
  bv_omega

theorem Arith.exact_checked : Arith.checked.Exact :=
  ⟨fun _ _ h => if_pos h, fun _ _ h => if_pos h⟩

/-! A call that returns without wrapping returns the same with the machine's arithmetic. -/

theorem Arith.checked_add {a b c : BitVec 32} (h : Arith.checked.add a b = some c) :
    Arith.wrapping.add a b = some c := by
  simp only [Arith.checked, Option.ite_none_right_eq_some] at h
  exact h.2

theorem Arith.checked_sub {a b c : BitVec 32} (h : Arith.checked.sub a b = some c) :
    Arith.wrapping.sub a b = some c := by
  simp only [Arith.checked, Option.ite_none_right_eq_some] at h
  exact h.2

namespace Heap

theorem allocWalk_of_checked {n b : BitVec 32} {fuel : Nat} {m : Mem} {r : Mem × BitVec 32}
    (h : allocWalk .checked n fuel b m = some r) : allocWalk .wrapping n fuel b m = some r := by
  induction fuel generalizing b with
  | zero => simp [allocWalk] at h
  | succ fuel ih =>
    rw [allocWalk] at h ⊢
    split_ifs at h ⊢
    · exact h
    · exact ih h
    · simp only [Option.bind_eq_bind, Option.bind_eq_some_iff] at h ⊢
      obtain ⟨n1, h1, n2, h2, h⟩ := h
      refine ⟨n1, Arith.checked_add h1, n2, Arith.checked_add h2, ?_⟩
      split_ifs at h ⊢
      · simp only [Option.bind_eq_some_iff] at h ⊢
        obtain ⟨b1, h3, b2, h4, s1, h5, s2, h6, p, h7, h⟩ := h
        exact ⟨b1, Arith.checked_add h3, b2, Arith.checked_add h4, s1, Arith.checked_sub h5, s2,
          Arith.checked_sub h6, p, Arith.checked_add h7, h⟩
      · simp only [Option.bind_eq_some_iff] at h ⊢
        obtain ⟨p, h3, h⟩ := h
        exact ⟨p, Arith.checked_add h3, h⟩

theorem mergeNext_of_checked {b : BitVec 32} {fuel : Nat} {m m' : Mem}
    (h : mergeNext .checked fuel b m = some m') : mergeNext .wrapping fuel b m = some m' := by
  induction fuel generalizing m with
  | zero => simp [mergeNext] at h
  | succ fuel ih =>
    rw [mergeNext] at h ⊢
    split_ifs at h ⊢
    · simp only [Option.bind_eq_bind, Option.bind_eq_some_iff] at h ⊢
      obtain ⟨s1, h1, s2, h2, h⟩ := h
      exact ⟨s1, Arith.checked_add h1, s2, Arith.checked_add h2, ih h⟩
    · exact h

theorem mergeWalk_of_checked {b : BitVec 32} {fuel : Nat} {m m' : Mem}
    (h : mergeWalk .checked fuel b m = some m') : mergeWalk .wrapping fuel b m = some m' := by
  induction fuel generalizing b m with
  | zero => simp [mergeWalk] at h
  | succ fuel ih =>
    rw [mergeWalk] at h ⊢
    split_ifs at h ⊢
    · exact h
    · simp only [Option.bind_eq_bind, Option.bind_eq_some_iff] at h ⊢
      obtain ⟨m1, h1, h⟩ := h
      exact ⟨m1, mergeNext_of_checked h1, ih h⟩

theorem freeWith_of_checked {heap : Heap} {p : BitVec 32} {m m' : Mem}
    (h : freeWith .checked heap m p = some m') : heap.free m p = some m' := by
  rw [free, freeWith]
  rw [freeWith] at h
  split_ifs at h ⊢
  · exact h
  · simp only [Option.bind_eq_bind, Option.bind_eq_some_iff] at h ⊢
    obtain ⟨b, h1, h⟩ := h
    exact ⟨b, Arith.checked_sub h1, mergeWalk_of_checked h⟩

end Heap

namespace BlockHeader

/-! ### Fields of a header -/

variable {m m' : Mem} {b c v : BitVec 32} {f : Bool}

@[simp] theorem size_setSize : size (setSize m b v) b = v := by simp [size, setSize]

@[simp] theorem next_setNext : next (setNext m b v) b = v := by simp [next, setNext]

@[simp] theorem free_setFree : free (setFree m b f) b = f := by
  cases f <;> simp [free, setFree]

theorem changesOnly_setSize : ChangesOnly (span b 4) m (setSize m b v) :=
  Mem.changesOnly_store32 _ _ _

theorem changesOnly_setFree : ChangesOnly (span (b + 4) 1) m (setFree m b f) :=
  Mem.changesOnly_store8 _ _ _

theorem changesOnly_setNext : ChangesOnly (span (b + 8) 4) m (setNext m b v) :=
  Mem.changesOnly_store32 _ _ _

theorem setSize_header : ChangesOnly (span b 12) m (setSize m b v) :=
  changesOnly_setSize.mono (span_mono (by decide))

theorem setFree_header : ChangesOnly (span b 12) m (setFree m b f) :=
  changesOnly_setFree.mono (span_subset (by bv_omega))

theorem setNext_header : ChangesOnly (span b 12) m (setNext m b v) :=
  changesOnly_setNext.mono (span_subset (by bv_omega))

theorem size_congr {S : Set (BitVec 32)} (h : ChangesOnly S m m') (hd : Disjoint (span b 4) S) :
    size m' b = size m b :=
  Mem.load32_of_changesOnly h hd

theorem free_congr {S : Set (BitVec 32)} (h : ChangesOnly S m m') (hd : b + 4 ∉ S) :
    free m' b = free m b := by
  rw [free, free, h _ hd]

theorem next_congr {S : Set (BitVec 32)} (h : ChangesOnly S m m')
    (hd : Disjoint (span (b + 8) 4) S) : next m' b = next m b :=
  Mem.load32_of_changesOnly h hd

@[simp] theorem size_setFree : size (setFree m b f) b = size m b :=
  size_congr changesOnly_setFree (Set.disjoint_left.mpr fun x hx hx' => by
    simp only [mem_span] at hx hx'
    bv_omega)

@[simp] theorem size_setNext : size (setNext m b v) b = size m b :=
  size_congr changesOnly_setNext (Set.disjoint_left.mpr fun x hx hx' => by
    simp only [mem_span] at hx hx'
    bv_omega)

@[simp] theorem free_setSize : free (setSize m b v) b = free m b :=
  free_congr changesOnly_setSize (by simp only [mem_span]; bv_omega)

@[simp] theorem free_setNext : free (setNext m b v) b = free m b :=
  free_congr changesOnly_setNext (by simp only [mem_span]; bv_omega)

@[simp] theorem next_setSize : next (setSize m b v) b = next m b :=
  next_congr changesOnly_setSize (Set.disjoint_left.mpr fun x hx hx' => by
    simp only [mem_span] at hx hx'
    bv_omega)

@[simp] theorem next_setFree : next (setFree m b f) b = next m b :=
  next_congr changesOnly_setFree (Set.disjoint_left.mpr fun x hx hx' => by
    simp only [mem_span] at hx hx'
    bv_omega)

end BlockHeader

/-! ### Chains -/

open BlockHeader

/-- The address of the rest of a list from `a` on, as a pointer: null when it is empty. -/
def link (a : Nat) (rest : List Seg) : BitVec 32 := if rest = [] then 0 else BitVec.ofNat 32 a

@[simp] theorem link_nil (a : Nat) : link a [] = 0 := rfl

@[simp] theorem link_cons (a : Nat) (s : Seg) (rest : List Seg) :
    link a (s :: rest) = BitVec.ofNat 32 a := rfl

/-- The header at `a` is that of `s`, with `next` as its link. -/
structure HeaderAt (m : Mem) (a : Nat) (s : Seg) (nx : BitVec 32) : Prop where
  size : size m (BitVec.ofNat 32 a) = BitVec.ofNat 32 s.size
  free : free m (BitVec.ofNat 32 a) = s.free
  next : next m (BitVec.ofNat 32 a) = nx

/-- The headers from `a` on are those of the segments, each linked to the one after it. -/
def Chain (m : Mem) : Nat → List Seg → Prop
  | _, [] => True
  | a, s :: rest =>
    HeaderAt m a s (link (a + 12 + s.size) rest) ∧ Chain m (a + 12 + s.size) rest

/-- The bytes of the headers of the segments from `a` on. -/
def headers (a : Nat) (segs : List Seg) : Set (BitVec 32) :=
  {x | ∃ y ∈ place 12 a segs, y.1 ≤ x.toNat ∧ x.toNat < y.1 + 12}

/-- The bytes of them that hold sizes and links, which coalescing writes. -/
def links (a : Nat) (segs : List Seg) : Set (BitVec 32) :=
  {x | ∃ y ∈ place 12 a segs,
    y.1 ≤ x.toNat ∧ x.toNat < y.1 + 4 ∨ y.1 + 8 ≤ x.toNat ∧ x.toNat < y.1 + 12}

theorem links_subset (a : Nat) (segs : List Seg) : links a segs ⊆ headers a segs := by
  rintro x ⟨y, hy, hx⟩
  exact ⟨y, hy, by omega⟩

theorem mem_span_ofNat {a n : Nat} {x : BitVec 32} (ha : a < 2 ^ 32) (h : a + n ≤ 2 ^ 32) :
    x ∈ span (BitVec.ofNat 32 a) n ↔ a ≤ x.toNat ∧ x.toNat < a + n := by
  have hv : (BitVec.ofNat 32 a).toNat = a := by rw [BitVec.toNat_ofNat, Nat.mod_eq_of_lt ha]
  rw [mem_span_iff (by omega), hv]

theorem HeaderAt.congr {m m' : Mem} {a : Nat} {s : Seg} {nx : BitVec 32}
    (hat : HeaderAt m a s nx) (ha : a + 12 ≤ 2 ^ 32)
    (h : ∀ x : BitVec 32, a ≤ x.toNat → x.toNat < a + 12 → m' x = m x) : HeaderAt m' a s nx := by
  have hc : ChangesOnly {x | ¬(a ≤ x.toNat ∧ x.toNat < a + 12)} m m' := fun x hx => by
    have hx' : a ≤ x.toNat ∧ x.toNat < a + 12 := not_not.mp hx
    exact h x hx'.1 hx'.2
  refine ⟨?_, ?_, ?_⟩
  · rw [size_congr hc, hat.size]
    rw [Set.disjoint_left]
    simp only [mem_span, Set.mem_ofPred_eq, not_not]
    intro x hx
    bv_omega
  · rw [free_congr hc, hat.free]
    simp only [Set.mem_ofPred_eq, not_not]
    bv_omega
  · rw [next_congr hc, hat.next]
    rw [Set.disjoint_left]
    simp only [mem_span, Set.mem_ofPred_eq, not_not]
    intro x hx
    bv_omega

theorem headers_cons (a : Nat) (s : Seg) (rest : List Seg) :
    headers (a + 12 + s.size) rest ⊆ headers a (s :: rest) := by
  rintro x ⟨y, hy, hx⟩
  exact ⟨y, List.mem_cons_of_mem _ hy, hx⟩

/-- A chain depends only on the bytes of its headers. -/
theorem Chain.congr {m m' : Mem} {a : Nat} {segs : List Seg} (hchain : Chain m a segs)
    (hend : a + extent 12 segs ≤ 2 ^ 32) (h : ∀ x ∈ headers a segs, m' x = m x) :
    Chain m' a segs := by
  induction segs generalizing a with
  | nil => trivial
  | cons s rest ih =>
    obtain ⟨hhead, hrest⟩ := hchain
    simp only [extent] at hend
    refine ⟨hhead.congr (by omega) fun x hlo hhi => ?_, ih hrest (by omega) fun x hx => ?_⟩
    · exact h x ⟨(a, s), by simp [place], hlo, hhi⟩
    · exact h x (headers_cons a s rest hx)

/-- Bytes before a list are in none of its headers. -/
theorem not_mem_headers_of_lt {a : Nat} {segs : List Seg} {x : BitVec 32} (hx : x.toNat < a) :
    x ∉ headers a segs := by
  rintro ⟨y, hy, hlo, -⟩
  have := (place_bounds hy).1
  omega

/-- What changes only the header at `a` leaves a header that does not overlap it. -/
theorem HeaderAt.frame {m m' : Mem} {a b : Nat} {s : Seg} {nx : BitVec 32}
    (hat : HeaderAt m b s nx) (hc : ChangesOnly (span (BitVec.ofNat 32 a) 12) m m')
    (ha : a + 12 ≤ 2 ^ 32) (hb : b + 12 ≤ 2 ^ 32) (hab : a + 12 ≤ b ∨ b + 12 ≤ a) :
    HeaderAt m' b s nx := by
  refine hat.congr hb fun x hlo hhi => hc x fun hx => ?_
  rw [mem_span_ofNat (by omega) ha] at hx
  omega

/-- What changes only bytes before a chain leaves it. -/
theorem Chain.frame {m m' : Mem} {a b k : Nat} {segs : List Seg} (hchain : Chain m b segs)
    (hc : ChangesOnly (span (BitVec.ofNat 32 a) k) m m') (hk : a + k ≤ b)
    (hend : b + extent 12 segs ≤ 2 ^ 32) (ha : a < 2 ^ 32) : Chain m' b segs := by
  refine hchain.congr hend fun x hx => hc x fun hspan => ?_
  rw [mem_span_ofNat ha (by omega)] at hspan
  exact not_mem_headers_of_lt (by omega) hx

/-! ### `alloc` -/

section Alloc

variable {ar : Arith} {m : Mem} {n : BitVec 32}

theorem headerAt_setFree {a : Nat} {s : Seg} {nx : BitVec 32} (f : Bool) (h : HeaderAt m a s nx) :
    HeaderAt (setFree m (BitVec.ofNat 32 a) f) a ⟨s.size, f⟩ nx :=
  ⟨by rw [size_setFree, h.size], by rw [free_setFree], by rw [next_setFree, h.next]⟩

/-- The stores of `alloc` when it splits the block at `a`, with the new block at `c`. -/
def splitBlock (m : Mem) (a c : BitVec 32) (n left : BitVec 32) : Mem :=
  let m := setFree m c true
  let m := setNext m c (next m a)
  let m := setSize m c left
  let m := setSize m a n
  let m := setFree m a false
  setNext m a c

theorem splitBlock_spec {a : Nat} {s : Seg} {nx left : BitVec 32} (hat : HeaderAt m a s nx)
    (hend : a + 12 + s.size ≤ 2 ^ 32) (hfit : n.toNat + 28 ≤ s.size)
    (hleft : left = BitVec.ofNat 32 (s.size - n.toNat - 12)) :
    let c := a + 12 + n.toNat
    let m' := splitBlock m (BitVec.ofNat 32 a) (BitVec.ofNat 32 c) n left
    HeaderAt m' a ⟨n.toNat, false⟩ (BitVec.ofNat 32 c) ∧
      HeaderAt m' c ⟨s.size - n.toNat - 12, true⟩ nx ∧
      ChangesOnly (span (BitVec.ofNat 32 a) (12 + s.size)) m m' := by
  intro c m'
  have hc : c = a + 12 + n.toNat := rfl
  -- the first three stores write the header at `c`, the last three that at `a`
  set m1 := setFree m (BitVec.ofNat 32 c) true with hm1
  set m2 := setNext m1 (BitVec.ofNat 32 c) (next m1 (BitVec.ofNat 32 a)) with hm2
  set m3 := setSize m2 (BitVec.ofNat 32 c) left with hm3
  have h1 : ChangesOnly (span (BitVec.ofNat 32 c) 12) m m1 := setFree_header
  have h3 : ChangesOnly (span (BitVec.ofNat 32 c) 12) m m3 :=
    (h1.trans setNext_header).trans setSize_header
  have h6 : ChangesOnly (span (BitVec.ofNat 32 a) 12) m3 m' :=
    (setSize_header.trans setFree_header).trans setNext_header
  have hnext : next m1 (BitVec.ofNat 32 a) = nx :=
    (hat.frame h1 (by omega) (by omega) (Or.inr (by omega))).next
  have hcm3 : HeaderAt m3 c ⟨s.size - n.toNat - 12, true⟩ nx :=
    ⟨by rw [hm3, size_setSize, hleft], by rw [hm3, free_setSize, hm2, free_setNext, free_setFree],
      by rw [hm3, next_setSize, hm2, next_setNext, hnext]⟩
  refine ⟨⟨?_, ?_, ?_⟩, hcm3.frame h6 (by omega) (by omega) (Or.inl (by omega)), ?_⟩
  · show size (setNext _ _ _) _ = _
    rw [size_setNext, size_setFree, size_setSize, BitVec.ofNat_toNat, BitVec.setWidth_eq]
  · show free (setNext _ _ _) _ = _
    rw [free_setNext, free_setFree]
  · show next (setNext _ _ _) _ = _
    rw [next_setNext]
  · refine (h3.mono ?_).trans (h6.mono (span_mono (by omega)))
    exact span_subset (by bv_omega)

/-- `alloc` takes a free block that is large enough, and splits it where a block is left over. -/
theorem allocWalk_fit (har : ar.Exact) {a fuel : Nat} {s : Seg} {rest : List Seg}
    (hchain : Chain m a (s :: rest)) (hlow : 16 < a) (hpos : a + 12 < 2 ^ 32)
    (hend : a + extent 12 (s :: rest) ≤ 2 ^ 32) (hfree : s.free = true) (hfit : n.toNat ≤ s.size) :
    ∃ m', Heap.allocWalk ar n (fuel + 1) (BitVec.ofNat 32 a) m =
        some (m', BitVec.ofNat 32 (a + 12)) ∧
      Chain m' a (if n.toNat + 12 + 16 ≤ s.size then
        ⟨n.toNat, false⟩ :: ⟨s.size - n.toNat - 12, true⟩ :: rest else ⟨s.size, false⟩ :: rest) ∧
      ChangesOnly (span (BitVec.ofNat 32 a) (12 + s.size)) m m' := by
  obtain ⟨hat, hrest⟩ := hchain
  simp only [extent] at hend
  have hne : BitVec.ofNat 32 a ≠ 0 := by bv_omega
  have hsize : (size m (BitVec.ofNat 32 a)).toNat = s.size := by
    rw [hat.size, BitVec.toNat_ofNat, Nat.mod_eq_of_lt (by omega)]
  have hlarge : ¬ size m (BitVec.ofNat 32 a) < n := by
    rw [BitVec.lt_def, hsize]
    omega
  have hadd : ar.add n BlockHeader.bytes = some (n + 12) := har.add _ _ (by bv_omega)
  have hneed : ar.add (n + 12) minSplit = some (n + 28) := har.add_eq (by bv_omega)
  have hpay : ar.add (BitVec.ofNat 32 a) BlockHeader.bytes = some (BitVec.ofNat 32 (a + 12)) :=
    har.add_eq (by bv_omega)
  have hcmp : size m (BitVec.ofNat 32 a) ≥ n + 28 ↔ n.toNat + 12 + 16 ≤ s.size := by
    rw [ge_iff_le, BitVec.le_def, hsize]
    bv_omega
  simp only [Heap.allocWalk, hne, if_false, hat.free, hfree, hlarge, decide_false, Bool.not_true,
    Bool.or_false, Bool.false_eq_true, hadd, hneed, hpay, Option.bind_eq_bind, Option.bind_some,
    hcmp]
  split
  · rename_i hsplit
    have hnew : ar.add (BitVec.ofNat 32 (a + 12)) n =
        some (BitVec.ofNat 32 (a + 12 + n.toNat)) := har.add_eq (by bv_omega)
    have hsz : ∀ v, size (setNext (setFree m (BitVec.ofNat 32 (a + 12 + n.toNat)) true)
        (BitVec.ofNat 32 (a + 12 + n.toNat)) v) (BitVec.ofNat 32 a) =
          BitVec.ofNat 32 s.size := fun v =>
      (hat.frame (setFree_header.trans setNext_header) (by omega) (by omega)
        (Or.inr (by omega))).size
    have hsub : ar.sub (BitVec.ofNat 32 s.size) n =
        some (BitVec.ofNat 32 (s.size - n.toNat)) := har.sub_eq (by bv_omega)
    have hleft : ar.sub (BitVec.ofNat 32 (s.size - n.toNat)) BlockHeader.bytes =
        some (BitVec.ofNat 32 (s.size - n.toNat - 12)) := har.sub_eq (by bv_omega)
    obtain ⟨hata, hatc, hc⟩ := splitBlock_spec hat (by omega) (by omega) rfl
    simp only [hnew, hsz, hsub, hleft, Option.bind_some]
    have hlen : a + 12 + n.toNat + 12 + (s.size - n.toNat - 12) = a + 12 + s.size := by omega
    refine ⟨_, rfl, ⟨hata, ?_, ?_⟩, hc⟩
    · rw [hlen]
      exact hatc
    · rw [hlen]
      exact hrest.frame hc (by omega) (by omega) (by omega)
  · refine ⟨_, rfl, ⟨headerAt_setFree false hat, ?_⟩, setFree_header.mono (span_mono (by omega))⟩
    exact hrest.frame setFree_header (by omega) (by omega) (by omega)

/-- `alloc` from address `a` on is first fit. -/
theorem allocWalk_spec (har : ar.Exact) {a fuel : Nat} {segs : List Seg} (hchain : Chain m a segs)
    (hlast : LastPos segs) (hlow : 16 < a) (hend : a + extent 12 segs ≤ 2 ^ 32)
    (hfuel : segs.length < fuel) :
    (firstFit 12 16 n.toNat a segs = none →
      Heap.allocWalk ar n fuel (link a segs) m = some (m, 0)) ∧
    ∀ r, firstFit 12 16 n.toNat a segs = some r → ∃ m',
      Heap.allocWalk ar n fuel (link a segs) m = some (m', BitVec.ofNat 32 (r.1 + 12)) ∧
      Chain m' a r.2 ∧
      ∃ s, (r.1, s) ∈ place 12 a segs ∧ s.free = true ∧
        ChangesOnly (span (BitVec.ofNat 32 r.1) (12 + s.size)) m m' := by
  induction segs generalizing a fuel with
  | nil =>
    obtain ⟨fuel, rfl⟩ : ∃ f, fuel = f + 1 := ⟨fuel - 1, by simp at hfuel; omega⟩
    exact ⟨fun _ => rfl, fun r hr => by simp [firstFit] at hr⟩
  | cons s rest ih =>
    obtain ⟨fuel, rfl⟩ : ∃ f, fuel = f + 1 := ⟨fuel - 1, by simp at hfuel; omega⟩
    have hends := hend
    simp only [extent] at hends
    simp only [List.length_cons] at hfuel
    simp only [firstFit, link_cons]
    split
    · -- the block is in use or too small: the walk goes on
      rename_i hskip
      obtain ⟨hat, hrest⟩ := hchain
      have hne : BitVec.ofNat 32 a ≠ 0 := by bv_omega
      have hsize : (size m (BitVec.ofNat 32 a)).toNat = s.size := by
        rw [hat.size, BitVec.toNat_ofNat, Nat.mod_eq_of_lt (by omega)]
      simp only [Heap.allocWalk, hne, if_false, hat.free, BitVec.lt_def, hsize, hskip, if_true,
        hat.next]
      have hlast' : LastPos rest := by
        cases rest with
        | nil => simp [LastPos]
        | cons t rest => exact hlast.tail
      have hfuel' : rest.length < fuel := by omega
      obtain ⟨hnone, hsome⟩ := ih hrest hlast' (by omega) (by omega) hfuel'
      refine ⟨fun h => hnone (by simpa using h), fun r hr => ?_⟩
      obtain ⟨r', hr', rfl⟩ := Option.map_eq_some_iff.mp hr
      obtain ⟨m', hwalk, hchain', t, ht, hfree, hc⟩ := hsome r' hr'
      have hbounds := place_bounds ht
      simp only at hbounds
      refine ⟨m', hwalk, ⟨?_, hchain'⟩, t, List.mem_cons_of_mem _ ht, hfree, hc⟩
      have hlink : link (a + 12 + s.size) r'.2 = link (a + 12 + s.size) rest := by
        have h1 : rest ≠ [] := by
          rintro rfl
          simp [firstFit] at hr'
        simp [link, h1, firstFit_ne_nil hr']
      rw [hlink]
      refine hat.congr (by omega) fun x hlo hhi => hc x fun hx => ?_
      rw [mem_span_ofNat (by omega) (by omega)] at hx
      omega
    · rename_i hfit
      simp only [Bool.or_eq_true, Bool.not_eq_true', decide_eq_true_eq, not_or,
        Bool.not_eq_false, Nat.not_lt] at hfit
      have hpos : a + 12 < 2 ^ 32 := by
        cases rest with
        | nil =>
          have := hlast s (by simp)
          omega
        | cons t rest =>
          simp only [extent] at hends
          omega
      obtain ⟨m', hrun, hchain', hc⟩ := allocWalk_fit har hchain hlow hpos hend
        hfit.1 hfit.2
      rw [← apply_ite some, ← apply_ite (Prod.mk a)]
      refine ⟨fun h => (Option.some_ne_none _ h).elim, fun r hr => ?_⟩
      cases hr
      exact ⟨m', hrun, hchain', s, by simp [place], hfit.1, hc⟩

end Alloc

/-! ### `free` -/

section Free

variable {ar : Arith} {m : Mem}

/-- The inner loop of `free` absorbs the free blocks after the current one. -/
theorem mergeNext_spec (har : ar.Exact) {a fuel : Nat} {s : Seg} {rest : List Seg}
    (hchain : Chain m a (s :: rest)) (hlow : 0 < a) (hend : a + extent 12 (s :: rest) ≤ 2 ^ 32)
    (hfuel : rest.length < fuel) :
    ∃ m', Heap.mergeNext ar fuel (BitVec.ofNat 32 a) m = some m' ∧
      Chain m' a ((absorb 12 s rest).1 :: (absorb 12 s rest).2) ∧
      ChangesOnly (span (BitVec.ofNat 32 a) 4 ∪ span (BitVec.ofNat 32 a + 8) 4) m m' := by
  induction rest generalizing s m fuel with
  | nil =>
    obtain ⟨fuel, rfl⟩ : ∃ f, fuel = f + 1 := ⟨fuel - 1, by simp at hfuel; omega⟩
    refine ⟨m, ?_, hchain, ChangesOnly.refl _ _⟩
    simp [Heap.mergeNext, hchain.1.next]
  | cons t rest ih =>
    obtain ⟨fuel, rfl⟩ : ∃ f, fuel = f + 1 := ⟨fuel - 1, by simp at hfuel; omega⟩
    obtain ⟨hat, hatt, hrest⟩ := hchain
    simp only [extent] at hend
    simp only [List.length_cons] at hfuel
    have hnext : next m (BitVec.ofNat 32 a) = BitVec.ofNat 32 (a + 12 + s.size) := hat.next
    have hne : BitVec.ofNat 32 (a + 12 + s.size) ≠ 0 := by bv_omega
    simp only [absorb, Heap.mergeNext, hnext, hat.free, hatt.free, hne, ne_eq, not_false_eq_true,
      decide_true, Bool.and_true]
    split
    · -- both are free: the header at `a` takes in the block after it
      rename_i hfree
      simp only [Bool.and_eq_true] at hfree
      have hadd : ar.add BlockHeader.bytes (BitVec.ofNat 32 t.size) =
          some (BitVec.ofNat 32 (12 + t.size)) := har.add_eq (by bv_omega)
      have hsum : ar.add (BitVec.ofNat 32 s.size) (BitVec.ofNat 32 (12 + t.size)) =
          some (BitVec.ofNat 32 (s.size + 12 + t.size)) := har.add_eq (by bv_omega)
      simp only [hat.size, hatt.size, hadd, hsum, Option.bind_eq_bind, Option.bind_some]
      set m1 := setSize m (BitVec.ofNat 32 a) (BitVec.ofNat 32 (s.size + 12 + t.size)) with hm1
      have h1 : ChangesOnly (span (BitVec.ofNat 32 a) 12) m m1 := setSize_header
      have hnext1 : next m1 (BitVec.ofNat 32 a) = BitVec.ofNat 32 (a + 12 + s.size) := by
        rw [hm1, next_setSize, hnext]
      have hnextt : next m1 (BitVec.ofNat 32 (a + 12 + s.size)) =
          link (a + 12 + s.size + 12 + t.size) rest :=
        (hatt.frame h1 (by omega) (by omega) (Or.inl (by omega))).next
      rw [hnext1, hnextt]
      set m2 := setNext m1 (BitVec.ofNat 32 a) (link (a + 12 + s.size + 12 + t.size) rest) with hm2
      have h2 : ChangesOnly (span (BitVec.ofNat 32 a) 12) m m2 := h1.trans setNext_header
      have hfields : ChangesOnly (span (BitVec.ofNat 32 a) 4 ∪ span (BitVec.ofNat 32 a + 8) 4) m m2 :=
        (changesOnly_setSize.mono Set.subset_union_left).trans
          (changesOnly_setNext.mono Set.subset_union_right)
      have hlen : a + 12 + (s.size + 12 + t.size) = a + 12 + s.size + 12 + t.size := by omega
      have hat2 : HeaderAt m2 a ⟨s.size + 12 + t.size, true⟩
          (link (a + 12 + (s.size + 12 + t.size)) rest) := by
        refine ⟨by rw [hm2, size_setNext, hm1, size_setSize], ?_, by rw [hm2, next_setNext, hlen]⟩
        rw [hm2, free_setNext, hm1, free_setSize, hat.free, hfree.1]
      have hrest2 : Chain m2 (a + 12 + (s.size + 12 + t.size)) rest := by
        refine Chain.frame ?_ h2 (by omega) (by omega) (by omega)
        rw [hlen]
        exact hrest
      have hfuel' : rest.length < fuel := by omega
      obtain ⟨m', hrun, hchain', hc⟩ := ih (s := ⟨s.size + 12 + t.size, true⟩) (m := m2)
        ⟨hat2, hrest2⟩ (by simp only [extent]; omega) hfuel'
      exact ⟨m', hrun, hchain', hfields.trans hc⟩
    · exact ⟨m, rfl, ⟨hat, hatt, hrest⟩, ChangesOnly.refl _ _⟩

/-- The outer loop of `free` coalesces the list and writes only sizes and links. -/
theorem mergeWalk_spec (har : ar.Exact) {a fuel : Nat} {segs : List Seg} (hchain : Chain m a segs)
    (hlow : 0 < a) (hend : a + extent 12 segs ≤ 2 ^ 32) (hfuel : segs.length < fuel) :
    ∃ m', Heap.mergeWalk ar fuel (link a segs) m = some m' ∧ Chain m' a (coalesce 12 segs) ∧
      ChangesOnly (links a segs) m m' := by
  induction fuel generalizing a segs m with
  | zero => omega
  | succ fuel ih =>
    cases segs with
    | nil => exact ⟨m, rfl, trivial, ChangesOnly.refl _ _⟩
    | cons s rest =>
      have hne : BitVec.ofNat 32 a ≠ 0 := by
        simp only [extent] at hend
        bv_omega
      have hlen := mul_length_le_extent 12 (s :: rest)
      simp only [List.length_cons] at hlen hfuel
      have hrounds : rest.length < 2 ^ 32 := by omega
      obtain ⟨m1, hrun1, hchain1, hc1⟩ := mergeNext_spec har hchain hlow hend hrounds
      have hext : extent 12 ((absorb 12 s rest).1 :: (absorb 12 s rest).2) =
          extent 12 (s :: rest) := by
        rw [← extent_coalesce (h := 12) (s :: rest), coalesce_cons]
        simp only [extent, extent_coalesce]
      have habs := absorb_length (h := 12) s rest
      simp only [extent] at hext hend
      obtain ⟨m', hrun', hchain', hc'⟩ := ih (m := m1)
        (a := a + 12 + (absorb 12 s rest).1.size) hchain1.2 (by omega) (by omega) (by omega)
      refine ⟨m', ?_, ?_, ?_⟩
      · simp only [Heap.mergeWalk, link_cons, hne, if_false, hrun1, Option.bind_eq_bind,
          Option.bind_some, hchain1.1.next]
        exact hrun'
      · rw [coalesce_cons]
        refine ⟨?_, hchain'⟩
        have hlink : link (a + 12 + (absorb 12 s rest).1.size) (coalesce 12 (absorb 12 s rest).2) =
            link (a + 12 + (absorb 12 s rest).1.size) (absorb 12 s rest).2 := by
          cases hrest : (absorb 12 s rest).2 with
          | nil => rfl
          | cons t rest' => simp [link, coalesce_ne_nil]
        rw [hlink]
        refine hchain1.1.congr (by omega) fun x _ hhi => hc' x fun hx => ?_
        exact not_mem_headers_of_lt (by omega) (links_subset _ _ hx)
      · refine ChangesOnly.trans (hc1.mono ?_) (hc'.mono ?_)
        · intro x hx
          refine ⟨(a, s), by simp [place], ?_⟩
          simp only [Set.mem_union, mem_span] at hx
          bv_omega
        · rintro x ⟨y, hy, hx⟩
          exact ⟨y, List.mem_cons_of_mem _ (place_absorb hy), hx⟩

/-- Marking the block at `b` free in memory. -/
theorem Chain.setFree {a b : Nat} {segs : List Seg} (hchain : Chain m a segs)
    (hb : b ∈ (place 12 a segs).map Prod.fst) (hend : a + extent 12 segs ≤ 2 ^ 32) :
    Chain (setFree m (BitVec.ofNat 32 b) true) a (freeAt 12 b a segs) := by
  induction segs generalizing a with
  | nil => trivial
  | cons s rest ih =>
    obtain ⟨hat, hrest⟩ := hchain
    simp only [extent] at hend
    simp only [place, List.map_cons, List.mem_cons] at hb
    have hlink : link (a + 12 + s.size) (freeAt 12 b (a + 12 + s.size) rest) =
        link (a + 12 + s.size) rest := by
      cases rest <;> rfl
    rw [freeAt]
    by_cases hab : a = b
    · subst hab
      have hnone : freeAt 12 a (a + 12 + s.size) rest = rest :=
        freeAt_of_lt (by omega)
      refine ⟨?_, ?_⟩
      · rw [markFree_size, hlink, markFree, if_pos rfl]
        exact headerAt_setFree true hat
      · rw [markFree_size, hnone]
        exact hrest.frame setFree_header (by omega) (by omega) (by omega)
    · have hb' := hb.resolve_left (Ne.symm hab)
      obtain ⟨y, hy, rfl⟩ := List.mem_map.mp hb'
      have hbounds := place_bounds hy
      refine ⟨?_, ?_⟩
      · rw [markFree_size, hlink, markFree, if_neg hab]
        exact hat.frame setFree_header (by omega) (by omega) (Or.inr (by omega))
      · rw [markFree_size]
        exact ih hrest hb' (by omega)

theorem links_freeAt (b a : Nat) (segs : List Seg) :
    links a (freeAt 12 b a segs) = links a segs := by
  have key : ∀ l : List Seg, links a l = {x | ∃ y ∈ (place 12 a l).map Prod.fst,
      y ≤ x.toNat ∧ x.toNat < y + 4 ∨ y + 8 ≤ x.toNat ∧ x.toNat < y + 12} := by
    intro l
    ext x
    simp [links]
  rw [key, key, place_freeAt_fst]

end Free

end Sapphire
