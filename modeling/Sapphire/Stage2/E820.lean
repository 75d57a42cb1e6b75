import Sapphire.Stage2

/-! What the collection of the memory map leaves in `e820_map` and in `boot_info`.  A reply is
written where the entries accepted before it end, so the bytes of a place of 20 are those of the last
reply that came at it.  The buffer has room for six entries and the loop stops at 64: from the seventh
place on, a reply is written over `boot_info`. -/

namespace Sapphire

open Machine

namespace Stage2

/-- The reply is counted. -/
def Reply.accepted (r : Reply) : Bool := !r.carry && r.eax == smap && r.ecx != 0

/-- The accepted replies, in order. -/
def entries (replies : List Reply) : List Reply := replies.filter Reply.accepted

/-- The replies that come when `p` entries have been accepted, where `n` had been before the list. -/
def atPlace (p : Nat) : Nat → List Reply → List Reply
  | _, [] => []
  | n, r :: rest =>
    (if n = p then [r] else []) ++ atPlace p (if r.accepted then n + 1 else n) rest

/-- The byte at offset `j` that the last reply with so many bytes has written. -/
def lastWrite (replies : List Reply) (j : Nat) : Option (BitVec 8) :=
  (replies.filterMap fun r => r.entry[j]?).getLast?

/-- The memory after replies that begin with `n` entries accepted. -/
def place (e820Map : BitVec 16) : Nat → Segment → List Reply → Segment
  | _, m, [] => m
  | n, m, r :: rest =>
    place e820Map (if r.accepted then n + 1 else n)
      (writeBytes m (e820Map + BitVec.ofNat 16 (20 * n)) r.entry) rest

theorem lastWrite_cons (r : Reply) (rest : List Reply) (j : Nat) :
    lastWrite (r :: rest) j = (lastWrite rest j).or r.entry[j]? := by
  simp only [lastWrite, List.filterMap_cons]
  rcases r.entry[j]? with _ | b
  · simp
  · simp only [List.getLast?_cons]
    generalize (rest.filterMap fun r => r.entry[j]?).getLast? = last
    cases last <;> rfl

theorem lastWrite_of_getLast {replies : List Reply} {r : Reply} (h : replies.getLast? = some r)
    {j : Nat} (hj : j < r.entry.length) : lastWrite replies j = r.entry[j]? := by
  obtain ⟨before, rfl⟩ := List.getLast?_eq_some_iff.mp h
  rw [lastWrite, List.filterMap_append, List.filterMap_cons, List.getElem?_eq_getElem hj]
  simp

theorem atPlace_of_lt {p n : Nat} (h : p < n) (replies : List Reply) :
    atPlace p n replies = [] := by
  induction replies generalizing n with
  | nil => rfl
  | cons r rest ih =>
    rw [atPlace, if_neg (by omega), List.nil_append]
    exact ih (by split <;> omega)

/-- The last reply at a place before the last one is the entry that was accepted there. -/
theorem getLast_atPlace {n i : Nat} {replies : List Reply} {r : Reply}
    (h : (entries replies)[i]? = some r) : (atPlace (n + i) n replies).getLast? = some r := by
  induction replies generalizing n i with
  | nil => simp [entries] at h
  | cons r' rest ih =>
    rw [atPlace]
    by_cases hacc : r'.accepted = true
    · rw [entries, List.filter_cons_of_pos hacc] at h
      rw [if_pos hacc]
      cases i with
      | zero =>
        rw [Nat.add_zero, if_pos rfl, atPlace_of_lt (Nat.lt_succ_self n), List.append_nil]
        exact h
      | succ i =>
        rw [if_neg (by omega), List.nil_append, show n + (i + 1) = n + 1 + i by omega]
        exact ih h
    · rw [entries, List.filter_cons_of_neg hacc] at h
      rw [if_neg hacc, List.getLast?_append, ih h, Option.some_or]

theorem length_entries_cons (n : Nat) (r : Reply) (rest : List Reply) :
    n + (entries (r :: rest)).length =
      (if r.accepted then n + 1 else n) + (entries rest).length := by
  rw [entries, entries, List.filter_cons]
  split
  · rw [List.length_cons]
    omega
  · rfl

/-- One byte of the memory after the replies. -/
theorem place_apply (e820Map : BitVec 16) {n p j : Nat} {m : Segment} {replies : List Reply}
    (hfit : 20 * (n + (entries replies).length) + 20 ≤ 2 ^ 16) (hp : 20 * p + j < 2 ^ 16)
    (hj : j < 20) :
    place e820Map n m replies (e820Map + BitVec.ofNat 16 (20 * p + j)) =
      (lastWrite (atPlace p n replies) j).getD (m (e820Map + BitVec.ofNat 16 (20 * p + j))) := by
  induction replies generalizing n m with
  | nil => rfl
  | cons r rest ih =>
    have hlen := r.length_entry
    have hn : 20 * n + r.entry.length ≤ 2 ^ 16 := by omega
    rw [length_entries_cons] at hfit
    rw [place, ih hfit, writeBytes_apply _ _ hn hp, atPlace]
    by_cases hplace : n = p
    · subst hplace
      rw [if_pos (Nat.le_add_right _ _), if_pos rfl, List.singleton_append, lastWrite_cons,
        Nat.add_sub_cancel_left]
      generalize lastWrite (atPlace n (if r.accepted then n + 1 else n) rest) j = last
      cases last <;> rfl
    · rw [if_neg hplace, List.nil_append]
      -- the bytes of another place are not written
      have hkept : (if 20 * n ≤ 20 * p + j then
          r.entry[20 * p + j - 20 * n]?.getD (m (e820Map + BitVec.ofNat 16 (20 * p + j)))
          else m (e820Map + BitVec.ofNat 16 (20 * p + j))) =
            m (e820Map + BitVec.ofNat 16 (20 * p + j)) := by
        by_cases hbefore : 20 * n ≤ 20 * p + j
        · rw [if_pos hbefore, List.getElem?_eq_none (by omega), Option.getD_none]
        · rw [if_neg hbefore]
      rw [hkept]

/-! ### The loop -/

/-- The state after one reply. -/
def after (s : State) (r : Reply) : State :=
  if r.accepted then { int15 s r with bp := s.bp + 1, di := s.di + 20 } else int15 s r

theorem nextE820Entry_cases {r : Reply} {rest left : List Reply} {s s' : State}
    (h : nextE820Entry (r :: rest) s = some (s', left)) :
    (s' = after s r ∧ left = rest) ∨
      ((after s r).bp.slt 64 = true ∧ nextE820Entry rest (after s r) = some (s', left)) := by
  rw [nextE820Entry] at h
  by_cases hcarry : r.carry = true
  · have hacc : r.accepted = false := by simp [Reply.accepted, hcarry]
    rw [if_pos hcarry, Option.some_inj, Prod.mk.injEq] at h
    simp [after, hacc, h.1, h.2]
  · by_cases hsmap : r.eax = smap
    · have hafter : (if r.ecx = 0 then int15 s r else
          { int15 s r with bp := (int15 s r).bp + 1, di := (int15 s r).di + 20 }) = after s r := by
        by_cases hecx : r.ecx = 0
        · simp [after, Reply.accepted, hecx]
        · have hacc : r.accepted = true := by
            simpa [Reply.accepted, hcarry, hsmap] using hecx
          rw [if_neg hecx, after, if_pos hacc]
          rfl
      simp only [hcarry, hsmap, hafter, if_false, ne_eq, not_true_eq_false,
        Bool.false_eq_true] at h
      split at h
      · rw [Option.some_inj, Prod.mk.injEq] at h
        exact Or.inl ⟨h.1.symm, h.2.symm⟩
      · split at h
        · exact Or.inr ⟨by assumption, h⟩
        · rw [Option.some_inj, Prod.mk.injEq] at h
          exact Or.inl ⟨h.1.symm, h.2.symm⟩
    · have hacc : r.accepted = false := by simp [Reply.accepted, hsmap]
      rw [if_neg hcarry, if_pos hsmap, Option.some_inj, Prod.mk.injEq] at h
      simp [after, hacc, h.1, h.2]

/-- The registers with `n` entries accepted. -/
structure Counts (e820Map : BitVec 16) (n : Nat) (s : State) : Prop where
  di : s.di = e820Map + BitVec.ofNat 16 (20 * n)
  bp : s.bp = BitVec.ofNat 16 n

theorem Counts.after {e820Map : BitVec 16} {n : Nat} {s : State} (h : Counts e820Map n s)
    (r : Reply) : Counts e820Map (if r.accepted then n + 1 else n) (after s r) := by
  rw [Stage2.after]
  split
  · refine ⟨?_, ?_⟩ <;> dsimp only
    · rw [h.di, BitVec.add_assoc, Nat.mul_add, BitVec.ofNat_add]
      rfl
    · rw [h.bp, BitVec.ofNat_add]
      rfl
  · exact ⟨h.di, h.bp⟩

theorem after_mem (s : State) (r : Reply) : (after s r).mem = writeBytes s.mem s.di r.entry := by
  rw [after]
  split <;> rfl

/-- The whole loop: every reply is written at its place, and at most 64 are accepted. -/
theorem nextE820Entry_spec {e820Map : BitVec 16} {n : Nat} {replies : List Reply} {s s' : State}
    (hn : n < 64) (hs : Counts e820Map n s) (h : nextE820Entry replies s = some (s', [])) :
    s'.mem = place e820Map n s.mem replies ∧
      Counts e820Map (n + (entries replies).length) s' ∧ n + (entries replies).length ≤ 64 := by
  induction replies generalizing n s with
  | nil => cases h
  | cons r rest ih =>
    have hafter := hs.after r
    have hmem : (after s r).mem = writeBytes s.mem (e820Map + BitVec.ofNat 16 (20 * n)) r.entry := by
      rw [after_mem, hs.di]
    rw [place, ← hmem, length_entries_cons]
    have hle : (if r.accepted then n + 1 else n) ≤ 64 := by split <;> omega
    rcases nextE820Entry_cases h with ⟨rfl, rfl⟩ | ⟨hmore, hrest⟩
    · exact ⟨rfl, hafter, hle⟩
    · refine ih ?_ hafter hrest
      rw [hafter.bp] at hmore
      rcases Nat.lt_or_eq_of_le hle with hlt | heq
      · exact hlt
      · rw [heq] at hmore
        exact absurd hmore (by decide)

/-! ### The memory after the count is stored -/

section

variable {m m' : Segment} {e820Map : BitVec 16} {replies : List Reply}

theorem bootInfo_add (e820Map : BitVec 16) (k : Nat) :
    bootInfo e820Map + BitVec.ofNat 16 k = e820Map + BitVec.ofNat 16 (128 + k) := by
  rw [bootInfo, BitVec.add_assoc, BitVec.ofNat_add]
  rfl

/-- The memory at the end: every reply at its place, and the low half of the count over that. -/
theorem generateMemoryMap_spec (h : generateMemoryMap m e820Map replies = some (m', [])) :
    (entries replies).length ≤ 64 ∧
      m' = writeBytes (place e820Map 0 (load m e820Map) replies) (e820Map + BitVec.ofNat 16 132)
        (littleEndian 2 (entries replies).length) := by
  obtain ⟨⟨s, left⟩, hloop, heq⟩ := Option.map_eq_some_iff.mp h
  rw [Prod.mk.injEq] at heq
  obtain ⟨rfl, rfl⟩ := heq
  have hstart : Counts e820Map 0 ⟨load m e820Map, e820Map, 0⟩ := ⟨by simp, rfl⟩
  obtain ⟨hmem, hcounts, hle⟩ := nextE820Entry_spec (by decide) hstart hloop
  rw [Nat.zero_add] at hcounts hle
  refine ⟨hle, ?_⟩
  rw [mmDone, hmem, hcounts.bp, BitVec.toNat_ofNat, Nat.mod_eq_of_lt (by omega)]
  exact congrArg (writeBytes _ · _) (bootInfo_add e820Map 4)

/-- A byte of the buffer or of `boot_info` that is not in the low half of the count. -/
theorem generateMemoryMap_apply (h : generateMemoryMap m e820Map replies = some (m', [])) {d : Nat}
    (hd : d < 140) (hcount : d < 132 ∨ 134 ≤ d) :
    m' (e820Map + BitVec.ofNat 16 d) =
      (lastWrite (atPlace (d / 20) 0 replies) (d % 20)).getD
        (load m e820Map (e820Map + BitVec.ofNat 16 d)) := by
  obtain ⟨hle, hm'⟩ := generateMemoryMap_spec h
  have hkept : m' (e820Map + BitVec.ofNat 16 d) =
      place e820Map 0 (load m e820Map) replies (e820Map + BitVec.ofNat 16 d) := by
    rw [hm', writeBytes_apply _ _ (by simp) (by omega)]
    split
    · rw [List.getElem?_eq_none (by rw [length_littleEndian]; omega), Option.getD_none]
    · rfl
  have hfit : 20 * (0 + (entries replies).length) + 20 ≤ 2 ^ 16 := by omega
  have hplace := place_apply e820Map (p := d / 20) (m := load m e820Map) hfit (by omega)
    (Nat.mod_lt d (by decide))
  rw [Nat.div_add_mod] at hplace
  rw [hkept, hplace]

/-- The low half of the count. -/
theorem generateMemoryMap_count (h : generateMemoryMap m e820Map replies = some (m', [])) {k : Nat}
    (hk : k < 2) : (littleEndian 4 (entries replies).length)[k]? =
      some (m' (e820Map + BitVec.ofNat 16 (132 + k))) := by
  rw [(generateMemoryMap_spec h).2, writeBytes_apply _ _ (by simp) (by omega),
    if_pos (Nat.le_add_right _ _), Nat.add_sub_cancel_left, getElem?_littleEndian hk,
    getElem?_littleEndian (by omega), Option.getD_some]

/-- `boot_info` as it is loaded. -/
theorem load_bootInfo (m : Segment) (e820Map : BitVec 16) {k : Nat} (hk : k < 12) :
    (bootInfoData e820Map)[k]? = some (load m e820Map (e820Map + BitVec.ofNat 16 (128 + k))) := by
  have hlen : (bootInfoData e820Map).length = 12 := by simp [bootInfoData]
  have hfit : 0 + (List.replicate 128 0 ++ bootInfoData e820Map).length ≤ 2 ^ 16 := by simp [hlen]
  have happly := writeBytes_apply m e820Map hfit (show 128 + k < 2 ^ 16 by omega)
  rw [show e820Map + BitVec.ofNat 16 0 = e820Map by simp, if_pos (Nat.zero_le _), Nat.sub_zero,
    List.getElem?_append_right (by simp), List.length_replicate, Nat.add_sub_cancel_left,
    List.getElem?_eq_getElem (by omega), Option.getD_some] at happly
  rw [load, happly, List.getElem?_eq_getElem (by omega)]

/-- Every accepted entry is at its place unless the count is stored over it. -/
theorem generateMemoryMap_entry (h : generateMemoryMap m e820Map replies = some (m', [])) {i : Nat}
    (hi : i < 6) {r : Reply} (hr : (entries replies)[i]? = some r) :
    bytesAt m' (e820Map + BitVec.ofNat 16 (20 * i)) r.entry.length = r.entry := by
  have hlen := r.length_entry
  rw [bytesAt_eq_iff rfl]
  intro j hj
  have hlast := getLast_atPlace (n := 0) hr
  rw [Nat.zero_add] at hlast
  rw [BitVec.add_assoc, ← BitVec.ofNat_add, generateMemoryMap_apply h (by omega) (by omega),
    show (20 * i + j) / 20 = i by omega, show (20 * i + j) % 20 = j by omega,
    lastWrite_of_getLast hlast hj, List.getElem?_eq_getElem hj, Option.getD_some]

end

end Stage2

open Stage2

/-- `boot_info` is as it was assembled but for the count, which is the number of accepted entries, and
the buffer has room for these entries and holds them in order. -/
structure Intact (label : BitVec 16) (replies : List Reply) (m : Segment) : Prop where
  e820Map : bytesAt m (bootInfo label) 4 = littleEndian 4 label.toNat
  e820EntryCount : bytesAt m (bootInfo label + 4) 4 = littleEndian 4 (entries replies).length
  pageDirectory : bytesAt m (bootInfo label + 8) 4 = littleEndian 4 pgDir.toNat
  fits : 20 * (entries replies).length ≤ 128
  buffer : ∀ i r, (entries replies)[i]? = some r →
    bytesAt m (label + BitVec.ofNat 16 (20 * i)) r.entry.length = r.entry

section

variable {m m' : Segment} {label : BitVec 16} {replies : List Reply}

/-- The fields of `boot_info` with a count. -/
def bootInfoWith (label : BitVec 16) (count : Nat) : List (BitVec 8) :=
  littleEndian 4 label.toNat ++ littleEndian 4 count ++ littleEndian 4 pgDir.toNat

theorem getElem?_bootInfoWith_count (label : BitVec 16) (count : Nat) {k : Nat} (hk : k < 4) :
    (bootInfoWith label count)[4 + k]? = (littleEndian 4 count)[k]? := by
  rw [bootInfoWith, List.getElem?_append_left (by simp; omega),
    List.getElem?_append_right (by simp), length_littleEndian, Nat.add_sub_cancel_left]

/-- A small count differs from the assembled 0 in the low half only. -/
theorem getElem?_bootInfoWith (label : BitVec 16) {count k : Nat} (hcount : count < 2 ^ 16)
    (hk : k < 4 ∨ 6 ≤ k) : (bootInfoWith label count)[k]? = (bootInfoData label)[k]? := by
  simp only [bootInfoWith, bootInfoData, List.getElem?_append, List.length_append,
    length_littleEndian]
  split
  · split
    · rfl
    · have hpow : 2 ^ 16 ≤ 256 ^ (k - 4) :=
        Nat.pow_le_pow_right (show 0 < 256 by decide) (show 2 ≤ k - 4 by omega)
      rw [getElem?_littleEndian (by omega), getElem?_littleEndian (by omega),
        Nat.div_eq_of_lt (hcount.trans_le hpow), Nat.zero_div]
  · rfl

/-- The three fields as the bytes of `boot_info`. -/
theorem bootInfo_fields_iff (count : Nat) :
    (bytesAt m (bootInfo label) 4 = littleEndian 4 label.toNat ∧
      bytesAt m (bootInfo label + 4) 4 = littleEndian 4 count ∧
      bytesAt m (bootInfo label + 8) 4 = littleEndian 4 pgDir.toNat) ↔
    ∀ k < 12, (bootInfoWith label count)[k]? =
      some (m (label + BitVec.ofNat 16 (128 + k))) := by
  have hparts : bytesAt m (bootInfo label) 12 = bytesAt m (bootInfo label) 4 ++
      bytesAt m (bootInfo label + 4) 4 ++ bytesAt m (bootInfo label + 8) 4 := by
    rw [show 12 = 4 + 4 + 4 from rfl, bytesAt_add, bytesAt_add]
    rfl
  have hbytes := bytesAt_eq_iff (m := m) (a := bootInfo label) (n := 12)
    (l := bootInfoWith label count) (by simp [bootInfoWith])
  simp only [bootInfo_add] at hbytes
  rw [← hbytes, hparts, bootInfoWith]
  constructor
  · rintro ⟨h1, h2, h3⟩
    rw [h1, h2, h3]
  · intro h
    obtain ⟨h12, h3⟩ := List.append_inj h (by simp)
    obtain ⟨h1, h2⟩ := List.append_inj h12 (by simp)
    exact ⟨h1, h2, h3⟩

/-- A byte of `boot_info` that is not in the low half of the count keeps its value exactly when the
last reply over it has written the same. -/
theorem bootInfo_byte_iff (h : generateMemoryMap m label replies = some (m', [])) {k : Nat}
    (hk : k < 12) (hcount : k < 4 ∨ 6 ≤ k) :
    (bootInfoData label)[k]? = some (m' (label + BitVec.ofNat 16 (128 + k))) ↔
      ∀ b ∈ lastWrite (atPlace 6 0 replies) (8 + k), (bootInfoData label)[k]? = some b := by
  rw [load_bootInfo m label hk, generateMemoryMap_apply h (by omega) (by omega),
    show (128 + k) / 20 = 6 by omega, show (128 + k) % 20 = 8 + k by omega]
  cases lastWrite (atPlace 6 0 replies) (8 + k) with
  | none => simp
  | some b => simp

/-- Whatever the BIOS answers until the loop ends: `boot_info` and the buffer are intact exactly when
at most six entries are accepted and the replies after the sixth leave no other bytes over
`boot_info`, where the loop does not store the count. -/
theorem memory_map_intact_iff (h : generateMemoryMap m label replies = some (m', [])) :
    Intact label replies m' ↔ (entries replies).length ≤ 6 ∧
      ∀ k < 12, (k < 4 ∨ 6 ≤ k) → ∀ b ∈ lastWrite (atPlace 6 0 replies) (8 + k),
        (bootInfoData label)[k]? = some b := by
  have hfits : 20 * (entries replies).length ≤ 128 ↔ (entries replies).length ≤ 6 := by omega
  have hsmall := (generateMemoryMap_spec h).1
  constructor
  · intro hintact
    refine ⟨hfits.mp hintact.fits, fun k hk hcount => ?_⟩
    have hfields := (bootInfo_fields_iff _).mp
      ⟨hintact.e820Map, hintact.e820EntryCount, hintact.pageDirectory⟩
    rw [← bootInfo_byte_iff h hk hcount, ← hfields k hk, getElem?_bootInfoWith label (by omega) hcount]
  · rintro ⟨hsix, hover⟩
    have hfields : ∀ k < 12, (bootInfoWith label (entries replies).length)[k]? =
        some (m' (label + BitVec.ofNat 16 (128 + k))) := by
      intro k hk
      by_cases hcount : k < 4 ∨ 6 ≤ k
      · rw [getElem?_bootInfoWith label (by omega) hcount, bootInfo_byte_iff h hk hcount]
        exact hover k hk hcount
      · obtain ⟨i, rfl⟩ : ∃ i, k = 4 + i := ⟨k - 4, by omega⟩
        rw [getElem?_bootInfoWith_count label _ (by omega),
          generateMemoryMap_count h (by omega), ← Nat.add_assoc]
    obtain ⟨hmap, hcount, hdir⟩ := (bootInfo_fields_iff _).mpr hfields
    refine ⟨hmap, hcount, hdir, hfits.mpr hsix, fun i r hr => ?_⟩
    have hi := (List.getElem?_eq_some_iff.mp hr).1
    exact generateMemoryMap_entry h (by omega) hr

end

/-- An entry of the map that is `more` entries from the end. -/
def e820Reply (base length type more : Nat) : Reply :=
  ⟨false, smap, BitVec.ofNat 32 more, 20,
    littleEndian 8 base ++ littleEndian 8 length ++ littleEndian 4 type, by simp⟩

/-- The memory map of an emulated PC with 128 MiB. -/
def emulatorMap : List Reply := [
  e820Reply 0 0x9FC00 1 6,
  e820Reply 0x9FC00 0x400 2 5,
  e820Reply 0xF0000 0x10000 2 4,
  e820Reply 0x100000 0x7EE0000 1 3,
  e820Reply 0x7FE0000 0x20000 2 2,
  e820Reply 0xFEFFC000 0x4000 2 1,
  e820Reply 0xFFFC0000 0x40000 2 0]

/-- The first six of its entries and an end with the carry set. -/
theorem memory_map_intact_sixEntries :
    ∃ m', generateMemoryMap (fun _ => 0) 0x7F20 (emulatorMap.take 6 ++
        [⟨true, 0, 0, 0, [], by decide⟩]) = some (m', []) ∧
      Intact 0x7F20 (emulatorMap.take 6 ++ [⟨true, 0, 0, 0, [], by decide⟩]) m' := by
  have hsome : (generateMemoryMap (fun _ => 0) 0x7F20 (emulatorMap.take 6 ++
      [⟨true, 0, 0, 0, [], by decide⟩])).map Prod.snd = some [] := by rfl
  obtain ⟨⟨m', left⟩, h, rfl⟩ := Option.map_eq_some_iff.mp hsome
  refine ⟨m', h, (memory_map_intact_iff h).mpr ⟨by decide, ?_⟩⟩
  intro k hk _ b hb
  have hnone : lastWrite (atPlace 6 0 (emulatorMap.take 6 ++
      [⟨true, 0, 0, 0, [], by decide⟩])) (8 + k) = none := by
    rfl
  rw [hnone] at hb
  cases hb

/-- The seventh entry is written over `boot_info`: the pointer to the map is the length of that entry
and the page directory its type. -/
theorem memory_map_intact_sevenEntries :
    ∃ m', generateMemoryMap (fun _ => 0) 0x7F20 emulatorMap = some (m', []) ∧
      bytesAt m' (bootInfo 0x7F20) 12 =
        littleEndian 4 0x40000 ++ littleEndian 4 7 ++ littleEndian 4 2 ∧
      ¬ Intact 0x7F20 emulatorMap m' := by
  refine ⟨_, rfl, by decide +kernel, fun h => ?_⟩
  exact absurd h.pageDirectory (by decide +kernel)

end Sapphire
