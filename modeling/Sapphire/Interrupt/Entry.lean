import Sapphire.Descriptors
import Sapphire.Interrupt
import Sapphire.Lib.Descriptor
import Sapphire.Lib.Loop

/-! How an interrupt finds its stub through the tables that `gdt::init` and `idt::init` leave, and
which handler it gets.  The macros of `gdt.hpp` and `set_entry` spread an address over the fields of
an entry, and the processor puts it together again. -/

namespace Sapphire

open Machine

/-! ### Fields of entries -/

/-- A masked field of a word. -/
theorem field_eq (v : BitVec 32) (start : Nat) {len : Nat} (hlen : len ≤ 32) :
    (v >>> start &&& BitVec.ofNat 32 (2 ^ len - 1)).setWidth len = v.extractLsb' start len := by
  apply BitVec.eq_of_getLsbD_eq
  intro i hi
  simp [BitVec.getLsbD_ofNat, Nat.testBit_two_pow_sub_one, hi, show i < 32 by omega]

/-- The limit's high bits and the flags share a byte. -/
theorem granularity_fields (limit : BitVec 32) (flags : BitVec 8) :
    (gdtEntry 0 limit 0 flags).granularity.extractLsb' 0 4 = limit.extractLsb' 16 4 ∧
      (gdtEntry 0 limit 0 flags).granularity.extractLsb' 4 4 = flags.extractLsb' 4 4 := by
  constructor
  · apply BitVec.eq_of_getLsbD_eq
    intro i hi
    have hcases : i = 0 ∨ i = 1 ∨ i = 2 ∨ i = 3 := by omega
    rcases hcases with rfl | rfl | rfl | rfl <;> simp [gdtEntry]
  · apply BitVec.eq_of_getLsbD_eq
    intro i hi
    have hcases : i = 0 ∨ i = 1 ∨ i = 2 ∨ i = 3 := by omega
    rcases hcases with rfl | rfl | rfl | rfl <;> simp [gdtEntry]

/-- What the processor reads of an entry by `GDT_ENTRY`: the limit counts with 20 bits, and of the
flags the high four. -/
theorem decode_gdtEntry (base limit : BitVec 32) (access flags : BitVec 8) :
    SegmentDescriptor.decode (gdtEntry base limit access flags).packed =
      ⟨base, limit.setWidth 20, access, flags.extractLsb' 4 4⟩ := by
  have hbase : base.extractLsb' 24 8 ++ base.extractLsb' 16 8 ++ base.extractLsb' 0 16 = base := by
    have hhigh : base.extractLsb' 24 8 ++ base.extractLsb' 16 8 = base.extractLsb' 16 (8 + 8) :=
      BitVec.extractLsb'_append_extractLsb'_eq_extractLsb' rfl
    rw [hhigh]
    exact BitVec.extractLsb'_append_extractLsb'
  have hlimit : limit.extractLsb' 16 4 ++ limit.extractLsb' 0 16 = limit.setWidth 20 := by
    rw [BitVec.setWidth_eq_extractLsb' (by decide)]
    exact BitVec.extractLsb'_append_extractLsb'_eq_extractLsb' rfl
  rw [GDTEntry.packed, decode_segment_append, SegmentDescriptor.mk.injEq]
  refine ⟨?_, ?_, rfl, (granularity_fields limit flags).2⟩
  · refine Eq.trans (congrArg₂ _ (congrArg₂ _ ?_ ?_) ?_) hbase
    · exact field_eq base 24 (by decide : 8 ≤ 32)
    · exact field_eq base 16 (by decide : 8 ≤ 32)
    · exact field_eq base 0 (by decide : 16 ≤ 32)
  · refine Eq.trans (congrArg₂ _ (granularity_fields limit flags).1 ?_) hlimit
    exact field_eq limit 0 (by decide : 16 ≤ 32)

/-- What the processor reads of an entry by `set_entry`. -/
theorem decode_setEntry (handler : BitVec 32) (flags : BitVec 8) :
    Gate.decode (IDTEntry.packed ⟨(handler &&& 0xFFFF).setWidth 16, gdtCodeSegment, 0, flags,
      (handler >>> 16 &&& 0xFFFF).setWidth 16⟩) = ⟨handler, gdtCodeSegment, flags⟩ := by
  have hlow : (handler &&& 0xFFFF).setWidth 16 = handler.extractLsb' 0 16 :=
    field_eq handler 0 (by decide)
  have hhigh : (handler >>> 16 &&& 0xFFFF).setWidth 16 = handler.extractLsb' 16 16 :=
    field_eq handler 16 (by decide)
  rw [IDTEntry.packed, decode_gate_append, hlow, hhigh, Gate.mk.injEq]
  exact ⟨BitVec.extractLsb'_append_extractLsb', rfl, rfl⟩

/-- The kernel's table has the segments of the table that it replaces. -/
example : gGDT = bootstrapGDT := by decide

/-! ### The tables -/

/-- The tables in memory, with their addresses: the global table is data of the program, and the
interrupt table is what the functions have made of it. -/
structure Tables (m : Mem) (gdt gdtDescriptor idtDescriptor : BitVec 32) (s : Idt) : Prop where
  segments : ∀ i e, gGDT[i]? = some e → m.load64 (gdt + BitVec.ofNat 32 (8 * i)) = e.packed
  gdtr : TableRegister.load m gdtDescriptor = ⟨gdt, gdtLimit⟩
  gates : ∀ i < idtMaxEntries,
    m.load64 (s.gIDTDescriptor.base + BitVec.ofNat 32 (8 * i)) = (s.gIDT i).packed
  idtr :
    TableRegister.load m idtDescriptor = ⟨s.gIDTDescriptor.base, s.gIDTDescriptor.limit⟩

/-- The address of the stub that `idt::init` enters for a vector. -/
def stubAddress (isr irqp : Nat → BitVec 32) (isr128 : BitVec 32) (vector : Nat) :
    Option (BitVec 32) :=
  if vector < 32 then some (isr vector)
  else if vector < 48 then some (irqp (vector - 32))
  else if vector = 128 then some isr128
  else none

/-- The gate for a handler. -/
def gateFor (handler : BitVec 32) : IDTEntry :=
  ⟨(handler &&& 0xFFFF).setWidth 16, gdtCodeSegment, 0, idtFlagGateInterrupt,
    (handler >>> 16 &&& 0xFFFF).setWidth 16⟩

theorem fill_apply {α : Type*} (arr : Nat → α) (val : α) {start stop : Nat} (h : start ≤ stop)
    (i : Nat) : fill arr val start stop i = if start ≤ i ∧ i < stop then val else arr i := by
  have hloop := (foldl_range'_update (fun arr : Nat → α => arr)
    (f := fun arr i => Function.update arr i val) (v := fun _ => val) (a := start)
    (n := stop - start) (N := i + 1) (s := arr) (fun _ _ => True) trivial
    fun p _ _ t _ => ⟨trivial, fun q _ => Function.update_apply t p val q⟩).2 i (by omega)
  rw [fill, hloop, Nat.add_sub_cancel' h]

namespace Idt

variable {gIdt isr128 : BitVec 32} {isr irqp : Nat → BitVec 32} {s : Idt}

/-- A loop of `idt::init` enters the stubs of its vectors. -/
theorem foldl_setEntry (address : Nat → BitVec 32) {start n : Nat} (hn : start + n ≤ 256) (s : Idt) :
    ∀ i < 256, ((List.range' start n).foldl
        (fun s i => s.setEntry (BitVec.ofNat 8 i) (address i) idtFlagGateInterrupt) s).gIDT i =
      if start ≤ i ∧ i < start + n then gateFor (address i) else s.gIDT i := by
  refine (foldl_range'_update gIDT (v := fun i => gateFor (address i)) (fun _ _ => True) trivial
    fun p _ hp t _ => ⟨trivial, fun q _ => ?_⟩).2
  have hindex : (BitVec.ofNat 8 p).toNat = p := by
    rw [BitVec.toNat_ofNat]
    omega
  rw [setEntry, hindex]
  exact Function.update_apply t.gIDT p _ q

/-- Entries are all that the loops change. -/
theorem foldl_setEntry_frame (address : Nat → BitVec 32) (l : List Nat) (s : Idt) :
    let s' := l.foldl (fun s i => s.setEntry (BitVec.ofNat 8 i) (address i) idtFlagGateInterrupt) s
    s'.gIDTDescriptor = s.gIDTDescriptor ∧ s'.handlers = s.handlers := by
  induction l generalizing s with
  | nil => exact ⟨rfl, rfl⟩
  | cons i l ih => exact ih (s.setEntry (BitVec.ofNat 8 i) (address i) idtFlagGateInterrupt)

/-- The table after `idt::init`. -/
theorem gIDT_init {i : Nat} (hi : i < 256) : (s.init gIdt isr irqp isr128).gIDT i =
    ((stubAddress isr irqp isr128 i).map gateFor).getD (s.gIDT i) := by
  have hindex : (128 : BitVec 8).toNat = 128 := rfl
  rw [init, setEntry, hindex, stubAddress, List.range_eq_range']
  dsimp only
  rw [Function.update_apply, foldl_setEntry _ (by decide) _ i hi, foldl_setEntry _ (by decide) _ i hi]
  by_cases h32 : i < 32
  · rw [if_neg (by omega), if_neg (by omega), if_pos (by omega), if_pos h32]
    rfl
  · by_cases h48 : i < 48
    · rw [if_neg (by omega), if_pos (by omega), if_neg h32, if_pos h48]
      rfl
    · by_cases h128 : i = 128
      · rw [if_pos h128, if_neg h32, if_neg h48, if_pos h128]
        rfl
      · rw [if_neg h128, if_neg (by omega), if_neg (by omega), if_neg h32, if_neg h48, if_neg h128]
        rfl

/-- The descriptor, and the default handlers by ranges. -/
theorem globals_init : (s.init gIdt isr irqp isr128).gIDTDescriptor = ⟨0x7FF, gIdt⟩ ∧
    ∀ i < 256, (s.init gIdt isr irqp isr128).handlers i =
      if i < 32 then .defaultException else if i < 48 then .defaultIrq else .default := by
  rw [init, setEntry]
  dsimp only
  rw [(foldl_setEntry_frame _ _ _).1, (foldl_setEntry_frame _ _ _).1,
    (foldl_setEntry_frame _ _ _).2, (foldl_setEntry_frame _ _ _).2]
  refine ⟨rfl, fun i hi => ?_⟩
  dsimp only
  rw [fill_apply _ _ (by decide), fill_apply _ _ (by decide), fill_apply _ _ (by decide)]
  by_cases h32 : i < 32
  · rw [if_neg (by omega), if_pos (by omega), if_pos h32]
  · rw [if_neg h32]
    by_cases h48 : i < 48
    · rw [if_pos (by omega), if_pos h48]
    · rw [if_neg (by omega), if_neg (by omega), if_pos (by omega), if_neg h48]

/-- The kernel's handlers, registered one after another. -/
def register (s : Idt) (registered : List (BitVec 8 × Handler)) : Idt :=
  registered.foldl (fun s r => s.registerHandler r.1 r.2) s

/-- Of the registrations for a vector the last one counts, and they leave the table alone. -/
theorem register_eq (s : Idt) (registered : List (BitVec 8 × Handler)) :
    s.register registered = { s with handlers := fun i =>
      ((registered.reverse.find? fun r => r.1.toNat = i).map Prod.snd).getD (s.handlers i) } := by
  induction registered using List.reverseRecOn with
  | nil => rfl
  | append_singleton registered r ih =>
    rw [register] at ih ⊢
    rw [List.foldl_append, ih, List.foldl_cons, List.foldl_nil, registerHandler, Idt.mk.injEq]
    refine ⟨rfl, rfl, funext fun i => ?_⟩
    rw [List.reverse_append, List.reverse_singleton, List.singleton_append, List.find?_cons,
      Function.update_apply]
    by_cases hi : r.1.toNat = i
    · rw [if_pos hi.symm, decide_eq_true hi]
      rfl
    · rw [if_neg (Ne.symm hi), decide_eq_false hi]

end Idt

/-- A segment of the kernel's table. -/
theorem segment_eq {m : Mem} {gdt gdtDescriptor idtDescriptor : BitVec 32} {s : Idt}
    (h : Tables m gdt gdtDescriptor idtDescriptor s) {selector : BitVec 16} {i : Nat} {e : GDTEntry}
    (hi : i < 3) (hindex : (selector >>> 3).toNat = i)
    (hvalid : ¬ (selector.getLsbD 2 || selector >>> 3 = 0)) (he : gGDT[i]? = some e) :
    loadSegment m (TableRegister.load m gdtDescriptor) selector =
      some (SegmentDescriptor.decode e.packed) := by
  have hlimit : 8 * i + 7 ≤ gdtLimit.toNat := by
    change 8 * i + 7 ≤ 23
    omega
  rw [loadSegment, if_neg hvalid, hindex, h.gdtr, TableRegister.entry, if_pos hlimit,
    h.segments i e he, Option.map_some]

/-- The segments that `gdt::init` loads: all of the address space, from 0 on. -/
theorem segment_code {m : Mem} {gdt gdtDescriptor idtDescriptor : BitVec 32} {s : Idt}
    (h : Tables m gdt gdtDescriptor idtDescriptor s) :
    loadSegment m (TableRegister.load m gdtDescriptor) gdtCodeSegment =
      some ⟨0, 0xFFFFF, 0x9A, 0xC⟩ := by
  rw [segment_eq h (i := 1) (by decide) (by decide) (by decide) rfl, decode_gdtEntry]
  rfl

theorem segment_data {m : Mem} {gdt gdtDescriptor idtDescriptor : BitVec 32} {s : Idt}
    (h : Tables m gdt gdtDescriptor idtDescriptor s) :
    loadSegment m (TableRegister.load m gdtDescriptor) gdtDataSegment =
      some ⟨0, 0xFFFFF, 0x92, 0xC⟩ := by
  rw [segment_eq h (i := 2) (by decide) (by decide) (by decide) rfl, decode_gdtEntry]
  rfl

/-- Every address is in the segment. -/
theorem flat_limit (a : BitVec 32) :
    a ≤ (⟨0, 0xFFFFF, 0x9A, 0xC⟩ : SegmentDescriptor).lastOffset := by
  have hlast : (⟨0, 0xFFFFF, 0x9A, 0xC⟩ : SegmentDescriptor).lastOffset = 0xFFFFFFFF := by decide
  rw [hlast]
  bv_omega

theorem entry_gate {m : Mem} {gdt gdtDescriptor idtDescriptor : BitVec 32} {s : Idt}
    (h : Tables m gdt gdtDescriptor idtDescriptor s) (hlimit : s.gIDTDescriptor.limit = 0x7FF)
    {vector : Nat} (hv : vector < 256) :
    (TableRegister.load m idtDescriptor).entry m vector = some (s.gIDT vector).packed := by
  have hin : 8 * vector + 7 ≤ s.gIDTDescriptor.limit.toNat := by
    rw [hlimit]
    change 8 * vector + 7 ≤ 2047
    omega
  rw [h.idtr, TableRegister.entry, if_pos hin, h.gates vector hv]

/-- With the tables that `gdt::init` and `idt::init` leave, whatever handlers are registered then,
the segments are flat, an interrupt goes to the stub of its vector, in the code segment of the
kernel, and a vector without a stub has no gate unless there was one before.  The handler of the
vector is the last one that was registered, or else the default one for its range. -/
theorem interrupt_entry {m : Mem} {gdt gdtDescriptor idtDescriptor gIdt isr128 : BitVec 32}
    {isr irqp : Nat → BitVec 32} {before : Idt} (registered : List (BitVec 8 × Handler))
    (h : Tables m gdt gdtDescriptor idtDescriptor
      ((before.init gIdt isr irqp isr128).register registered)) {vector : Nat}
    (hv : vector < idtMaxEntries) (hbefore : (before.gIDT vector).flags.getLsbD 7 = false) :
    (∀ selector, selector = gdtCodeSegment ∨ selector = gdtDataSegment →
      ∃ d, loadSegment m (TableRegister.load m gdtDescriptor) selector = some d ∧ d.base = 0 ∧
        d.lastOffset = 0xFFFFFFFF) ∧
      interruptEntry m (TableRegister.load m gdtDescriptor) (TableRegister.load m idtDescriptor)
        vector = (stubAddress isr irqp isr128 vector).map (fun stub => (gdtCodeSegment, stub)) ∧
      ((stubAddress isr irqp isr128 vector).isSome ↔ (stub vector).isSome) ∧
      ((before.init gIdt isr irqp isr128).register registered).handlers vector =
        ((registered.reverse.find? fun r => r.1.toNat = vector).map Prod.snd).getD
          (if vector < 32 then .defaultException else if vector < 48 then .defaultIrq
            else .default) := by
  rw [Idt.register_eq] at h ⊢
  obtain ⟨hdescriptor, hhandlers⟩ := @Idt.globals_init gIdt isr128 isr irqp before
  have hentry := entry_gate h (by dsimp only; rw [hdescriptor]) hv
  dsimp only at hentry
  rw [Idt.gIDT_init hv] at hentry
  refine ⟨?_, ?_, ?_, ?_⟩
  · rintro selector (rfl | rfl)
    · exact ⟨_, segment_code h, rfl, by decide⟩
    · exact ⟨_, segment_data h, rfl, by decide⟩
  · rcases hstub : stubAddress isr irqp isr128 vector with _ | a
    · rw [hstub] at hentry
      have hkind : (Gate.decode (before.gIDT vector).packed).isInterrupt = false := by
        rw [IDTEntry.packed, decode_gate_append, Gate.isInterrupt, hbefore, Bool.false_and]
      simp only [interruptEntry, hentry, Option.map_none, Option.getD_none, Option.bind_eq_bind,
        Option.bind_some, hkind, Bool.false_eq_true, if_false]
    · rw [hstub] at hentry
      have hentry := interruptEntry_eq hentry (decode_setEntry a idtFlagGateInterrupt)
        (by decide : (idtFlagGateInterrupt.getLsbD 7 &&
          decide (idtFlagGateInterrupt.extractLsb' 0 5 = 14)) = true)
        (segment_code h) (by decide) (flat_limit a)
      rw [hentry, Option.map_some]
      dsimp only
      rw [zero_add]
  · rw [stubAddress, stub]
    split_ifs <;> simp
  · dsimp only
    rw [hhandlers vector hv]

/-- A memory with the interrupt table at 0, the global table at `0x800`, and their descriptors at
`0x818` and `0x820`. -/
def tablesMemory (s : Idt) : Mem := fun x =>
  let byte := fun (d : BitVec 64) (k : Nat) => d.extractLsb' (8 * (k % 8)) 8
  if x.toNat < 0x800 then byte (s.gIDT (x.toNat / 8)).packed x.toNat
  else if x.toNat < 0x818 then
    byte ((gGDT[(x.toNat - 0x800) / 8]?.map GDTEntry.packed).getD 0) (x.toNat - 0x800)
  else if x.toNat < 0x820 then byte (BitVec.ofNat 64 (0x800 * 2 ^ 16 + 23)) (x.toNat - 0x818)
  else byte (BitVec.ofNat 64 0x7FF) (x.toNat - 0x820)

/-- A kernel with stubs every 16 bytes and a handler for the keyboard. -/
def keyboardIdt : Idt :=
  ((⟨fun _ => ⟨0, 0, 0, 0, 0⟩, ⟨0, 0⟩, fun _ => .default⟩ : Idt).init 0
    (fun i => BitVec.ofNat 32 (0xC0100000 + 16 * i))
    (fun i => BitVec.ofNat 32 (0xC0100200 + 16 * i)) 0xC0100300).register [(33, .keyboardIrq)]

theorem descriptor_keyboardIdt : keyboardIdt.gIDTDescriptor = ⟨0x7FF, 0⟩ := by
  rw [keyboardIdt, Idt.register_eq]
  dsimp only
  exact Idt.globals_init.1

theorem tables_keyboardIdt : Tables (tablesMemory keyboardIdt) 0x800 0x818 0x820 keyboardIdt := by
  refine ⟨fun i e he => Mem.load64_eq fun k hk => ?_, by decide,
    fun i hi => Mem.load64_eq fun k hk => ?_, ?_⟩
  · have hi : i < 3 := (List.getElem?_eq_some_iff.mp he).1
    have hx : (0x800 + BitVec.ofNat 32 (8 * i) + BitVec.ofNat 32 k).toNat = 0x800 + (8 * i + k) := by
      bv_omega
    rw [tablesMemory, hx, if_neg (by omega), if_pos (by omega), Nat.add_sub_cancel_left,
      Nat.mul_add_div (by decide), Nat.div_eq_of_lt hk, Nat.add_zero, he]
    dsimp only
    rw [Nat.mul_add_mod, Nat.mod_eq_of_lt hk]
    rfl
  · have hi : i < 256 := hi
    have hx : (0 + BitVec.ofNat 32 (8 * i) + BitVec.ofNat 32 k).toNat = 8 * i + k := by bv_omega
    rw [descriptor_keyboardIdt, tablesMemory, hx, if_pos (by omega), Nat.mul_add_div (by decide),
      Nat.div_eq_of_lt hk, Nat.add_zero]
    dsimp only
    rw [Nat.mul_add_mod, Nat.mod_eq_of_lt hk]
  · rw [descriptor_keyboardIdt]
    decide

theorem interrupt_entry_keyboard :
    interruptEntry (tablesMemory keyboardIdt) (TableRegister.load (tablesMemory keyboardIdt) 0x818)
      (TableRegister.load (tablesMemory keyboardIdt) 0x820) 33 = some (8, 0xC0100210) ∧
      keyboardIdt.handlers 33 = .keyboardIrq := by
  obtain ⟨-, hentry, -, hhandler⟩ :=
    interrupt_entry [(33, .keyboardIrq)] tables_keyboardIdt (by decide : 33 < idtMaxEntries) rfl
  exact ⟨hentry, hhandler⟩

end Sapphire
