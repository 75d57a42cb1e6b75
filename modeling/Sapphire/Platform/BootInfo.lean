import Sapphire.Platform.Handover
import Sapphire.Stage2.E820

/-! The memory map on its way from the BIOS to the kernel.  `stage2.asm` leaves the entries and a
`BootInfo` in the first 64 KiB; `platform_init` gets the address of the latter and reads both where it
needs them, between and during its own stores.  `platformInitFrom` is `platform_init` with these
reads; it does what `platformInit` does with the list of the entries, because nothing that it stores
reaches them. -/

namespace Sapphire

open Machine

/-! ### Structures in memory -/

/-- The fields of `BootInfo`: two pointers and a count. -/
structure BootInfo where
  e820Map : BitVec 32
  e820EntryCount : BitVec 32
  pageDirectory : BitVec 32
  deriving DecidableEq

def BootInfo.read (m : Mem) (ptr : BitVec 32) : BootInfo :=
  ⟨m.load32 ptr, m.load32 (ptr + 4), m.load32 (ptr + 8)⟩

/-- The packed entry at `ptr`. -/
def E820Entry.read (m : Mem) (ptr : BitVec 32) : E820Entry :=
  ⟨m.load32 (ptr + 4) ++ m.load32 ptr, m.load32 (ptr + 12) ++ m.load32 (ptr + 8),
    m.load32 (ptr + 16)⟩

/-- A `MemoryMap` as `MemoryMap::init` fills it. -/
structure E820Map where
  entries : BitVec 32
  count : BitVec 32

namespace E820Map

/-- `entries[i]` -/
def entry (map : E820Map) (m : Mem) (i : Nat) : E820Entry :=
  E820Entry.read m (map.entries + BitVec.ofNat 32 (20 * i))

def identityMapUsable (map : E820Map) (pd : PageDirectory) (m : Mem) : Mem :=
  (List.range map.count.toNat).foldl (fun m i =>
    let entry := map.entry m i
    if entry.type ≠ e820TypeUsable then m
    else
      let base := entry.base.setWidth 32
      let end64 := entry.base + entry.length
      pd.identityMapRange m base (MemoryMap.clamp end64)) m

/-- The map that the entries in memory make up. -/
def toMap (map : E820Map) (m : Mem) : MemoryMap :=
  ⟨(List.range map.count.toNat).map (map.entry m)⟩

/-- The bytes of the entries. -/
def buffer (map : E820Map) : Set (BitVec 32) := span map.entries (20 * map.count.toNat)

end E820Map

/-- `init` with the entries read from memory. -/
def FrameAllocator.initFrom (m : Mem) (map : E820Map) : FrameAllocator × Mem :=
  let highestAddr := (List.range map.count.toNat).foldl (fun highest i =>
    let entry := map.entry m i
    if entry.type ≠ 1 then highest
    else
      let end64 := entry.base + entry.length
      let end32 := clamp end64
      if end32 > highest then end32 else highest) 0
  let totalFrames := highestAddr / pageSize
  let bitmapSize := (totalFrames + 7) / 8
  let fa : FrameAllocator := ⟨bitmapBase, totalFrames, bitmapSize⟩
  let m := (List.range bitmapSize.toNat).foldl
    (fun m i => m.store8 (fa.bitmap + BitVec.ofNat 32 i) 0xFF) m
  let m := (List.range map.count.toNat).foldl (fun m i =>
    let entry := map.entry m i
    if entry.type ≠ 1 then m
    else fa.markRangeFree m (entry.base.setWidth 32) (clamp (entry.base + entry.length))) m
  let m := fa.markRangeUsed m biosBase pageBase
  let m := fa.markRangeUsed m pageBase bitmapBase
  let m := fa.markRangeUsed m bitmapBase (bitmapBase + bitmapSize)
  (fa, m)

/-- `platform_init` up to the memory subsystems, with the `BootInfo` at `ptr`. -/
def platformInitFrom (m : Mem) (ptr framebuffer size : BitVec 32) : Platform :=
  let dir := PageDirectory.init m (BootInfo.read m ptr).pageDirectory
  let pd := dir.1
  let m := pd.mapRange dir.2 kernelVma 0x00000000 0x00400000
  let m := pd.identityMapRange m 0x00000000 0x00100000
  let m := pd.identityMapRange m pageTablesBase (pageTablesBase + pageSize * pageTableCount)
  let m := pd.identityMapRange m framebuffer (framebuffer + size)
  let info := BootInfo.read m ptr
  let mmap : E820Map := ⟨info.e820Map, info.e820EntryCount⟩
  let m := mmap.identityMapUsable pd m
  let frameAlloc := FrameAllocator.initFrom m mmap
  let fa := frameAlloc.1
  let heap := Heap.init fa pd frameAlloc.2 16
  let vmm := VMM.init heap.2 fa pd
  ⟨pd, fa, heap.1, vmm.1, vmm.2⟩

/-! ### Reading while storing -/

namespace E820Map

variable {map : E820Map} {pd : PageDirectory} {m m' : Mem} {S : Set (BitVec 32)}

theorem entry_of_changesOnly (hc : ChangesOnly S m m') (hd : Disjoint map.buffer S) {i : Nat}
    (hi : i < map.count.toNat) : map.entry m' i = map.entry m i := by
  have hword : ∀ k : BitVec 32, k.toNat ≤ 16 →
      m'.load32 (map.entries + BitVec.ofNat 32 (20 * i) + k) =
        m.load32 (map.entries + BitVec.ofNat 32 (20 * i) + k) := by
    intro k hk
    refine Mem.load32_of_changesOnly hc (hd.mono_left (span_subset ?_))
    bv_omega
  have hfirst := hword 0 (by decide)
  rw [add_zero] at hfirst
  rw [entry, E820Entry.read, hfirst, hword 4 (by decide), hword 8 (by decide),
    hword 12 (by decide), hword 16 (by decide)]
  rfl

theorem toMap_of_changesOnly (hc : ChangesOnly S m m') (hd : Disjoint map.buffer S) :
    map.toMap m' = map.toMap m :=
  congrArg MemoryMap.mk (List.map_congr_left fun _ hi =>
    entry_of_changesOnly hc hd (List.mem_range.mp hi))

theorem identityMapUsable_eq (hw : pd.Wired m)
    (hd : Disjoint map.buffer (span pageTablesBase 0x400000)) :
    map.identityMapUsable pd m = (map.toMap m).identityMapUsable pd m := by
  refine (foldl_range_read map.entry (fun m entry =>
    if entry.type ≠ e820TypeUsable then m
    else pd.identityMapRange m (entry.base.setWidth 32)
      (MemoryMap.clamp (entry.base + entry.length)))
    (fun t => pd.Wired t ∧ ChangesOnly (span pageTablesBase 0x400000) m t)
    ⟨hw, ChangesOnly.refl _ _⟩ (fun t e ht => ?_) fun t ht i hi =>
      entry_of_changesOnly ht.2 hd hi).1
  by_cases htype : e.type ≠ e820TypeUsable
  · rw [if_pos htype]
    exact ht
  · rw [if_neg htype]
    have hsets := PageDirectory.identityMapRange_sets ht.1 (e.base.setWidth 32)
      (MemoryMap.clamp (e.base + e.length))
    exact ⟨hsets.wired, ht.2.trans hsets.changes⟩

end E820Map

theorem FrameAllocator.initFrom_eq (m : Mem) {map : E820Map}
    (hd : Disjoint map.buffer (span bitmapBase (2 ^ 17))) :
    initFrom m map = init m (map.toMap m) := by
  have hhighest : (List.range map.count.toNat).foldl (fun highest i =>
      let entry := map.entry m i
      if entry.type ≠ 1 then highest
      else
        let end64 := entry.base + entry.length
        let end32 := clamp end64
        if end32 > highest then end32 else highest) 0 = highestAddr (map.toMap m) := by
    rw [highestAddr, E820Map.toMap, List.foldl_map]
  have hsize := bitmapSize_le m (map.toMap m)
  set fa := (init m (map.toMap m)).1 with hfa
  obtain ⟨hfill, -⟩ := fa.fill_spec m hsize
  set filled := (List.range fa.bitmapSize.toNat).foldl
    (fun m i => m.store8 (fa.bitmap + BitVec.ofNat 32 i) 0xFF) m with hfilled
  have hentries : (List.range map.count.toNat).foldl (fun m i =>
      let entry := map.entry m i
      if entry.type ≠ 1 then m
      else fa.markRangeFree m (entry.base.setWidth 32) (clamp (entry.base + entry.length))) filled =
      (map.toMap m).entries.foldl (fun m entry =>
        if entry.type ≠ 1 then m
        else fa.markRangeFree m (entry.base.setWidth 32) (clamp (entry.base + entry.length)))
        filled := by
    refine (foldl_range_read map.entry (fun m entry =>
      if entry.type ≠ 1 then m
      else fa.markRangeFree m (entry.base.setWidth 32) (clamp (entry.base + entry.length)))
      (fun t => ChangesOnly (span bitmapBase (2 ^ 17)) m t) hfill (fun t e ht => ?_)
      fun t ht i hi => ?_).1.trans ?_
    · by_cases htype : e.type ≠ 1
      · rw [if_pos htype]
        exact ht
      · rw [if_neg htype]
        exact ht.trans (fa.mark_spec t _ _ true).1
    · rw [E820Map.entry_of_changesOnly ht hd hi, E820Map.entry_of_changesOnly hfill hd hi]
    · exact congrArg (fun map : MemoryMap => map.entries.foldl _ filled)
        (E820Map.toMap_of_changesOnly hfill hd)
  rw [initFrom]
  simp only [hhighest]
  exact congrArg (fun t => (fa, fa.markRangeUsed (fa.markRangeUsed (fa.markRangeUsed t biosBase
    pageBase) pageBase bitmapBase) bitmapBase (bitmapBase + fa.bitmapSize))) hentries

/-- The `BootInfo` and the entries lie below the page directory. -/
structure BootInfo.Below (info : BootInfo) (ptr : BitVec 32) : Prop where
  below : ptr.toNat + 12 ≤ pgDir.toNat
  entries_below : info.e820Map.toNat + 20 * info.e820EntryCount.toNat ≤ pgDir.toNat

/-- Where the `BootInfo` names the page directory and lies below it with the entries, the boot that
reads them as it goes is the boot with the map that they make up. -/
theorem platformInitFrom_eq (m : Mem) {ptr : BitVec 32} (framebuffer size : BitVec 32)
    (hdir : (BootInfo.read m ptr).pageDirectory = pgDir) (hbelow : (BootInfo.read m ptr).Below ptr) :
    platformInitFrom m ptr framebuffer size = platformInit m
      (E820Map.toMap ⟨(BootInfo.read m ptr).e820Map, (BootInfo.read m ptr).e820EntryCount⟩ m)
      framebuffer size := by
  obtain ⟨hinfo, hentries⟩ := hbelow
  set info := BootInfo.read m ptr with hread
  set map : E820Map := ⟨info.e820Map, info.e820EntryCount⟩ with hmap
  have hdirnum : pgDir.toNat = 0x9C000 := rfl
  -- the memory before the usable entries are mapped is that of a boot without any
  have hearly := bootMappings_changesOnly m ⟨[]⟩ framebuffer size
  have hearlyw := (bootMappings_spec m ⟨[]⟩ framebuffer size).1
  set early := (bootMappings m ⟨[]⟩ framebuffer size).2 with hearlydef
  set pd := (bootMappings m ⟨[]⟩ framebuffer size).1
  have hinfoApart : Disjoint (span ptr 12) (span pgDir 4096 ∪ span pageTablesBase 0x400000) :=
    Set.disjoint_union_right.mpr ⟨disjoint_span (by omega) (by decide) (by omega),
      disjoint_span (by omega) (by decide) (Or.inl (by simp; omega))⟩
  have hbuffer : map.buffer = span info.e820Map (20 * info.e820EntryCount.toNat) := rfl
  have hapart : Disjoint map.buffer (span pgDir 4096 ∪ span pageTablesBase 0x400000) := by
    rw [hbuffer]
    exact Set.disjoint_union_right.mpr ⟨disjoint_span (by omega) (by decide) (by omega),
      disjoint_span (by omega) (by decide) (Or.inl (by simp; omega))⟩
  have hbits : Disjoint map.buffer (span bitmapBase (2 ^ 17)) := by
    rw [hbuffer]
    exact disjoint_span (by omega) (by decide) (Or.inl (by simp; omega))
  have hword : ∀ k : BitVec 32, k.toNat ≤ 8 → early.load32 (ptr + k) = m.load32 (ptr + k) :=
    fun k hk => Mem.load32_of_changesOnly hearly (hinfoApart.mono_left (span_subset (by bv_omega)))
  have hfirst := hword 0 (by decide)
  rw [add_zero] at hfirst
  have hinfoKept : BootInfo.read early ptr = info := by
    rw [hread, BootInfo.read, hfirst, hword 4 (by decide), hword 8 (by decide), BootInfo.read]
  have husable : map.identityMapUsable pd early = _ :=
    E820Map.identityMapUsable_eq hearlyw (hapart.mono_right Set.subset_union_right)
  rw [E820Map.toMap_of_changesOnly hearly hapart] at husable
  have hlate := bootMappings_changesOnly m (map.toMap m) framebuffer size
  have hframes := FrameAllocator.initFrom_eq (bootMappings m (map.toMap m) framebuffer size).2 hbits
  rw [E820Map.toMap_of_changesOnly hlate hapart] at hframes
  have hsplit : map.identityMapUsable pd early =
      (bootMappings m (map.toMap m) framebuffer size).2 := husable
  simp only [platformInitFrom, ← hread, hdir]
  change (let info := BootInfo.read early ptr
    let mmap : E820Map := ⟨info.e820Map, info.e820EntryCount⟩
    let m := mmap.identityMapUsable pd early
    let frameAlloc := FrameAllocator.initFrom m mmap
    let fa := frameAlloc.1
    let heap := Heap.init fa pd frameAlloc.2 16
    let vmm := VMM.init heap.2 fa pd
    (⟨pd, fa, heap.1, vmm.1, vmm.2⟩ : Platform)) = _
  rw [hinfoKept]
  simp only [← hmap, hsplit, hframes]
  rfl

/-! ### From the BIOS to the kernel -/

/-- The physical memory whose first 64 KiB are those of real mode. -/
def lowMemory (seg : Segment) (rest : Mem) : Mem :=
  fun x => if x.toNat < 2 ^ 16 then seg (x.setWidth 16) else rest x

theorem bytesAt_lowMemory (seg : Segment) (rest : Mem) {a : BitVec 16} {b : BitVec 32} {n : Nat}
    (hb : b.toNat = a.toNat) (hn : a.toNat + n ≤ 2 ^ 16) :
    bytesAt (lowMemory seg rest) b n = bytesAt seg a n := by
  refine List.map_congr_left fun i hi => ?_
  have hlt := List.mem_range.mp hi
  have haddr : (b + BitVec.ofNat 32 i).toNat = a.toNat + i := by bv_omega
  rw [lowMemory, if_pos (by omega)]
  congr 1
  apply BitVec.eq_of_toNat_eq
  rw [BitVec.toNat_setWidth, haddr]
  bv_omega

/-- The word that four bytes make up. -/
theorem load32_of_bytesAt {m : Mem} {a : BitVec 32} {v : Nat}
    (h : bytesAt m a 4 = littleEndian 4 v) : m.load32 a = BitVec.ofNat 32 v := by
  rw [bytesAt_eq_iff (length_littleEndian 4 v)] at h
  apply BitVec.eq_of_getLsbD_eq
  intro k hk
  have hbyte := h (k / 8) (by omega)
  rw [getElem?_littleEndian (by omega), Option.some_inj] at hbyte
  rw [Mem.getLsbD_load32 _ _ hk, ← hbyte, BitVec.getLsbD_ofNat, BitVec.getLsbD_ofNat,
    show 256 ^ (k / 8) = 2 ^ (8 * (k / 8)) by rw [Nat.pow_mul], Nat.testBit_div_two_pow,
    show k % 8 + 8 * (k / 8) = k by omega]
  simp [hk, Nat.mod_lt]

theorem littleEndian_add (n k v : Nat) :
    littleEndian (n + k) v = littleEndian n v ++ littleEndian k (v / 256 ^ n) := by
  rw [littleEndian, List.range_add, List.map_append, List.map_map, littleEndian, littleEndian]
  congr 1
  refine List.map_congr_left fun i _ => ?_
  rw [Function.comp_apply, Nat.pow_add, Nat.div_div_eq_div_mul]

/-- Two strings that follow each other. -/
theorem bytesAt_append {m : Mem} {a : BitVec 32} {n : Nat} {l r : List (BitVec 8)}
    (hn : l.length = n) (h : bytesAt m a (n + r.length) = l ++ r) :
    bytesAt m a n = l ∧ bytesAt m (a + BitVec.ofNat 32 n) r.length = r := by
  rw [bytesAt_add] at h
  exact List.append_inj h (by rw [length_bytesAt, hn])

/-- The double word that eight bytes make up. -/
theorem load64_of_bytesAt {m : Mem} {a : BitVec 32} {v : BitVec 64}
    (h : bytesAt m a 8 = littleEndian 8 v.toNat) : m.load32 (a + 4) ++ m.load32 a = v := by
  have hsplit : bytesAt m a (4 + 4) = littleEndian (4 + 4) v.toNat := h
  rw [littleEndian_add] at hsplit
  obtain ⟨hlow, hhigh⟩ := bytesAt_append (r := littleEndian 4 (v.toNat / 256 ^ 4))
    (length_littleEndian _ _) (by rwa [length_littleEndian])
  rw [length_littleEndian] at hhigh
  rw [load32_of_bytesAt hlow, show a + 4 = a + BitVec.ofNat 32 4 from rfl, load32_of_bytesAt hhigh]
  have hv := v.isLt
  apply BitVec.eq_of_toNat_eq
  rw [BitVec.toNat_append, BitVec.toNat_ofNat, BitVec.toNat_ofNat, Nat.shiftLeft_eq, Nat.mul_comm,
    ← Nat.two_pow_add_eq_or_of_lt (Nat.mod_lt _ (by decide)), Nat.mod_eq_of_lt (by omega)]
  omega

/-- The bytes of an entry. -/
def E820Entry.bytes (e : E820Entry) : List (BitVec 8) :=
  littleEndian 8 e.base.toNat ++ (littleEndian 8 e.length.toNat ++ littleEndian 4 e.type.toNat)

theorem E820Entry.length_bytes (e : E820Entry) : e.bytes.length = 20 := by simp [E820Entry.bytes]

/-- An entry is read as it was written. -/
theorem E820Entry.read_of_bytesAt {m : Mem} {a : BitVec 32} {e : E820Entry}
    (h : bytesAt m a 20 = e.bytes) : E820Entry.read m a = e := by
  obtain ⟨hbase, hrest⟩ := bytesAt_append (n := 8) (length_littleEndian _ _)
    (r := littleEndian 8 e.length.toNat ++ littleEndian 4 e.type.toNat)
    (by simpa [E820Entry.bytes] using h)
  rw [List.length_append, length_littleEndian, length_littleEndian] at hrest
  obtain ⟨hlength, htype⟩ := bytesAt_append (n := 8) (length_littleEndian _ _)
    (r := littleEndian 4 e.type.toNat) (by simpa using hrest)
  rw [length_littleEndian] at htype
  have h2 := load64_of_bytesAt hlength
  have h3 := load32_of_bytesAt htype
  rw [show a + BitVec.ofNat 32 8 + 4 = a + 12 by bv_omega,
    show a + BitVec.ofNat 32 8 = a + 8 from rfl] at h2
  rw [show a + BitVec.ofNat 32 8 + BitVec.ofNat 32 8 = a + 16 by bv_omega, BitVec.ofNat_toNat,
    BitVec.setWidth_eq] at h3
  rw [E820Entry.read, load64_of_bytesAt hbase, h2, h3]

open Stage2

/-- Where `stage2.asm` has left `boot_info` and the buffer intact and every accepted reply is an
entry, the kernel boots with exactly these entries, in the order in which the BIOS gave them, though
it reads them from memory while it fills page tables and bitmaps. -/
theorem boot_with_bios_map {label : BitVec 16} {replies : List Reply} {seg : Segment}
    (hintact : Intact label replies seg) (hlabel : label.toNat + 140 ≤ 2 ^ 16)
    {es : List E820Entry} (hes : (entries replies).map Reply.entry = es.map E820Entry.bytes)
    (rest : Mem) (framebuffer size : BitVec 32) :
    platformInitFrom (lowMemory seg rest) ((bootInfo label).setWidth 32) framebuffer size =
      platformInit (lowMemory seg rest) ⟨es⟩ framebuffer size := by
  have hlen : (entries replies).length = es.length := by
    simpa using congrArg List.length hes
  have hfits := hintact.fits
  rw [hlen] at hfits
  set m := lowMemory seg rest
  set ptr : BitVec 32 := (bootInfo label).setWidth 32 with hptr
  have hboot : (bootInfo label).toNat = label.toNat + 128 := by
    rw [bootInfo]
    bv_omega
  have hptrnum : ptr.toNat = label.toNat + 128 := by
    rw [hptr, BitVec.toNat_setWidth, hboot]
    omega
  have hfield : ∀ (k : BitVec 16) (v : Nat), k.toNat ≤ 8 →
      bytesAt seg (bootInfo label + k) 4 = littleEndian 4 v →
      m.load32 (ptr + k.setWidth 32) = BitVec.ofNat 32 v := by
    intro k v hk hbytes
    have hsum : (bootInfo label + k).toNat = label.toNat + 128 + k.toNat := by
      rw [BitVec.toNat_add, hboot]
      omega
    refine load32_of_bytesAt ((bytesAt_lowMemory seg rest (a := bootInfo label + k) ?_ ?_).trans
      hbytes)
    · have hk32 : (k.setWidth 32).toNat = k.toNat := by
        rw [BitVec.toNat_setWidth]
        omega
      rw [BitVec.toNat_add, hptrnum, hsum, hk32]
      omega
    · omega
  have hmap := hfield 0 _ (by decide) (by rw [add_zero]; exact hintact.e820Map)
  have hcount := hfield 4 _ (by decide) hintact.e820EntryCount
  have hdir := hfield 8 _ (by decide) hintact.pageDirectory
  have hread : BootInfo.read m ptr = ⟨BitVec.ofNat 32 label.toNat, BitVec.ofNat 32 es.length,
      pgDir⟩ := by
    rw [BootInfo.read, ← hlen]
    rw [show (0 : BitVec 16).setWidth 32 = 0 from rfl, add_zero] at hmap
    rw [hmap]
    exact congrArg₂ (BootInfo.mk _) hcount (hdir.trans rfl)
  have hbelow : (BootInfo.read m ptr).Below ptr := by
    have hdirnum : pgDir.toNat = 0x9C000 := rfl
    rw [hread]
    refine ⟨by omega, ?_⟩
    dsimp only
    rw [BitVec.toNat_ofNat, BitVec.toNat_ofNat]
    omega
  rw [platformInitFrom_eq m framebuffer size (by rw [hread]) hbelow, hread]
  congr 1
  -- entry by entry
  rw [E820Map.toMap]
  dsimp only
  rw [BitVec.toNat_ofNat, Nat.mod_eq_of_lt (by omega)]
  congr 1
  apply List.ext_getElem (by simp)
  intro i h1 h2
  rw [List.getElem_map, List.getElem_range]
  have hlt : i < (entries replies).length := by omega
  have hi : (entries replies)[i]? = some (entries replies)[i] := List.getElem?_eq_getElem hlt
  have hbytes := hintact.buffer i _ hi
  have hentry : (entries replies)[i].entry = es[i].bytes := by
    have := congrArg (fun l => l[i]?) hes
    simpa [List.getElem?_map, List.getElem?_eq_getElem h2, hi] using this
  rw [hentry, E820Entry.length_bytes] at hbytes
  have hsmall : i < 6 := by omega
  clear hmap hcount
  have haddr : (label + BitVec.ofNat 16 (20 * i)).toNat = label.toNat + 20 * i := by bv_omega
  have hwide : (BitVec.ofNat 32 label.toNat + BitVec.ofNat 32 (20 * i)).toNat =
      label.toNat + 20 * i := by bv_omega
  exact E820Entry.read_of_bytesAt ((bytesAt_lowMemory seg rest (hwide.trans haddr.symm)
    (by omega)).trans hbytes)

/-- Two entries, the second of them the last. -/
theorem boot_with_bios_map_twoEntries :
    let es : List E820Entry := [⟨0, 0x9FC00, 1⟩, ⟨0x100000, 0x7EE0000, 1⟩]
    let replies := [e820Reply 0 0x9FC00 1 1, e820Reply 0x100000 0x7EE0000 1 0]
    ∃ seg, generateMemoryMap (fun _ => 0) 0x7F20 replies = some (seg, []) ∧
      ∀ rest framebuffer size,
        platformInitFrom (lowMemory seg rest) ((bootInfo 0x7F20).setWidth 32) framebuffer size =
          platformInit (lowMemory seg rest) ⟨es⟩ framebuffer size := by
  intro es replies
  refine ⟨_, rfl, fun rest framebuffer size => ?_⟩
  refine boot_with_bios_map (?_ : Intact 0x7F20 replies _) (by decide) (by decide +kernel) rest
    framebuffer size
  refine ⟨by decide +kernel, by decide +kernel, by decide +kernel, by decide, fun i r hr => ?_⟩
  match i with
  | 0 =>
    obtain rfl := Option.some_inj.mp hr
    decide +kernel
  | 1 =>
    obtain rfl := Option.some_inj.mp hr
    decide +kernel
  | i + 2 => exact absurd hr (by simp [replies, entries, Reply.accepted, e820Reply])

end Sapphire
