import Sapphire.Keyboard.Queue
import Sapphire.Paging.Tables
import Sapphire.Syscall

/-! What the callers of `sys_read` get of the typed characters.  The call runs inside an interrupt
gate, so keys arrive between calls only.  While at most 256 characters are unread, a call takes as
many of the next ones as it is asked for and there are, and the loop of `kmain` collects exactly the
first ones. -/

namespace Sapphire

open Machine Keyboard

/-- What a call of `sys_read` does to `n` bytes of the buffer: the next `n` typed characters, and
nothing else changes. -/
structure Delivers (m m' : Mem) (buf : BitVec 32) (n : Nat) (typed : List (BitVec 8))
    (taken : Nat) : Prop where
  bytes : bytesAt m' buf n = (typed.drop taken).take n
  changes : ChangesOnly (span buf n) m m'

variable {kb : Keyboard} {m : Mem} {args : BitVec 32} {typed : List (BitVec 8)} {taken : Nat}

/-- The arguments are as they were after a store to the buffer. -/
theorem readArguments_of_changesOnly {m' : Mem} {S : Set (BitVec 32)}
    (hd : Disjoint (span args 12) S) (hc : ChangesOnly S m m') :
    ReadArguments.count m' args = ReadArguments.count m args ∧
      ReadArguments.buf m' args = ReadArguments.buf m args := by
  refine ⟨Mem.load32_of_changesOnly hc (hd.mono_left (span_mono (by decide))),
    Mem.load32_of_changesOnly hc (hd.mono_left (span_subset ?_))⟩
  bv_omega

theorem sysReadLoop_more {fuel : Nat} {n : BitVec 32} (hlt : n < ReadArguments.count m args)
    (hin : kb.hasInput = true) : sysReadLoop args (fuel + 1) n kb m =
      sysReadLoop args fuel (n + 1) { kb with readPos := kb.readPos + 1 }
        (m.store8 (ReadArguments.buf m args + n) (kb.buffer (bufferIndex kb.readPos))) := by
  rw [sysReadLoop, if_pos hlt, if_neg (not_not.mpr hin), readChar_of_input hin]

theorem sysReadLoop_done {fuel : Nat} {n : BitVec 32}
    (h : ¬ (n < ReadArguments.count m args ∧ kb.hasInput = true)) :
    sysReadLoop args (fuel + 1) n kb m = (kb, m, n) := by
  rw [sysReadLoop]
  by_cases hlt : n < ReadArguments.count m args
  · rw [if_pos hlt, if_pos fun hin => h ⟨hlt, hin⟩]
  · rw [if_neg hlt]

/-- The rest of the loop, after `k` characters: the memory then holds these and the next `n` typed
ones. -/
theorem sysReadLoop_spec {fuel k : Nat}
    (hd : Disjoint (span args 12)
      (span (ReadArguments.buf m args) (ReadArguments.count m args).toNat))
    (hk : k ≤ (ReadArguments.count m args).toNat)
    (hfuel : (ReadArguments.count m args).toNat - k < fuel)
    (h : Keyboard.Holds kb typed taken) (hfew : typed.length ≤ taken + 256) :
    let n := min ((ReadArguments.count m args).toNat - k) (typed.length - taken)
    let r := sysReadLoop args fuel (BitVec.ofNat 32 k) kb m
    r.2.2 = BitVec.ofNat 32 (k + n) ∧ Keyboard.Holds r.1 typed (taken + n) ∧
      bytesAt r.2.1 (ReadArguments.buf m args) (k + n) =
        bytesAt m (ReadArguments.buf m args) k ++ (typed.drop taken).take n ∧
      ChangesOnly (span (ReadArguments.buf m args + BitVec.ofNat 32 k) n) m r.2.1 := by
  induction fuel generalizing k kb m taken with
  | zero => omega
  | succ fuel ih =>
    intro n r
    have hcount := (ReadArguments.count m args).isLt
    have hlt : BitVec.ofNat 32 k < ReadArguments.count m args ↔
        k < (ReadArguments.count m args).toNat := by
      rw [BitVec.lt_def, BitVec.toNat_ofNat, Nat.mod_eq_of_lt (by omega)]
    have hinput := h.hasInput_eq hfew
    by_cases hmore : k < (ReadArguments.count m args).toNat ∧ taken < typed.length
    · obtain ⟨hklt, htaken⟩ := hmore
      have hin := hinput.mpr htaken
      have hchar := h.char_eq htaken hfew
      set c := kb.buffer (bufferIndex kb.readPos)
      set m1 := m.store8 (ReadArguments.buf m args + BitVec.ofNat 32 k) c with hm1
      have hc1 : ChangesOnly (span (ReadArguments.buf m args + BitVec.ofNat 32 k) 1) m m1 :=
        Mem.changesOnly_store8 _ _ _
      obtain ⟨hcount1, hbuf1⟩ := readArguments_of_changesOnly hd
        (hc1.mono (span_subset (by bv_omega)))
      have hr : r = sysReadLoop args fuel (BitVec.ofNat 32 (k + 1))
          { kb with readPos := kb.readPos + 1 } m1 := by
        rw [BitVec.ofNat_add]
        exact sysReadLoop_more (hlt.mpr hklt) hin
      have hrest := ih (m := m1) (k := k + 1) (by rw [hcount1, hbuf1]; exact hd)
        (by rw [hcount1]; omega) (by rw [hcount1]; omega) (h.advance htaken) (by omega)
      rw [← hr, hcount1, hbuf1] at hrest
      set n' := min ((ReadArguments.count m args).toNat - (k + 1)) (typed.length - (taken + 1))
      have hn : n = n' + 1 := by omega
      obtain ⟨hresult, hholds, hbytes, hchanges⟩ := hrest
      rw [hn, show k + (n' + 1) = k + 1 + n' by omega,
        show taken + (n' + 1) = taken + 1 + n' by omega]
      refine ⟨hresult, hholds, ?_, ?_⟩
      · have hdrop : typed.drop taken = c :: typed.drop (taken + 1) :=
          List.drop_eq_getElem?_toList_append.trans (by rw [hchar]; rfl)
        rw [hbytes, hm1, Mem.bytesAt_store8_succ _ _ _ (by omega), hdrop, List.take_succ_cons,
          List.append_assoc, List.singleton_append]
      · refine (hc1.mono (span_mono (by omega))).trans (hchanges.mono (span_subset ?_))
        bv_omega
    · -- the count is reached, or there is no input
      have hr : r = (kb, m, BitVec.ofNat 32 k) :=
        sysReadLoop_done (by rw [hlt, hinput]; exact hmore)
      have hn : n = 0 := by omega
      rw [hn, hr]
      refine ⟨rfl, h, ?_, ChangesOnly.refl _ _⟩
      rw [List.take_zero, List.append_nil]
      rfl

/-- A call returns the number of characters that it is asked for, or of those that there are, and
delivers as many. -/
theorem sysRead_spec
    (hd : Disjoint (span args 12)
      (span (ReadArguments.buf m args) (ReadArguments.count m args).toNat))
    (h : Keyboard.Holds kb typed taken) (hfew : typed.length ≤ taken + 256) :
    let n := min (ReadArguments.count m args).toNat (typed.length - taken)
    let r := sysRead kb m args
    r.2.2.toNat = n ∧ Keyboard.Holds r.1 typed (taken + n) ∧
      Delivers m r.2.1 (ReadArguments.buf m args) n typed taken := by
  intro n r
  have hcount := (ReadArguments.count m args).isLt
  have hloop := sysReadLoop_spec (k := 0) hd (Nat.zero_le _)
    (show (ReadArguments.count m args).toNat - 0 < 2 ^ 32 by omega) h hfew
  simp only [Nat.sub_zero, Nat.zero_add] at hloop
  obtain ⟨hresult, hholds, hbytes, hchanges⟩ := hloop
  refine ⟨?_, hholds, ⟨hbytes, ?_⟩⟩
  · have hresult' : r.2.2 = BitVec.ofNat 32 n := hresult
    rw [hresult', BitVec.toNat_ofNat, Nat.mod_eq_of_lt (by omega)]
  · rwa [show ReadArguments.buf m args + BitVec.ofNat 32 0 = ReadArguments.buf m args by simp]
      at hchanges

/-! ### Calls with keys in between -/

/-- The keyboard and the memory, with everything typed and the data of all calls so far. -/
structure Session where
  kb : Keyboard
  mem : Mem
  typed : List (BitVec 8)
  data : List (BitVec 8)

namespace Session

def start (kb : Keyboard) (m : Mem) : Session := ⟨kb.init, m, [], []⟩

/-- The characters that have been typed and not read. -/
def unread (s : Session) : Nat := s.typed.length - s.data.length

end Session

/-- A key arrives, a caller uses the memory, or it calls `sys_read` with a buffer that is apart from
the arguments. -/
inductive SessionStep : Session → Session → Prop
  | interrupt (s : Session) (scancode : BitVec 8) :
      SessionStep s { s with
        kb := s.kb.handleInterrupt scancode
        typed := s.typed ++ (s.kb.enqueued scancode).toList }
  | caller (s : Session) (m : Mem) : SessionStep s { s with mem := m }
  | read {s : Session} {args : BitVec 32} (hd : Disjoint (span args 12)
        (span (ReadArguments.buf s.mem args) (ReadArguments.count s.mem args).toNat)) :
      SessionStep s { s with
        kb := (sysRead s.kb s.mem args).1
        mem := (sysRead s.kb s.mem args).2.1
        data := s.data ++ bytesAt (sysRead s.kb s.mem args).2.1 (ReadArguments.buf s.mem args)
          (sysRead s.kb s.mem args).2.2.toNat }

namespace Session

/-- Runs that leave at most 256 characters unread in every state. -/
def Runs : Session → Session → Prop :=
  Relation.ReflTransGen fun s s' => SessionStep s s' ∧ s'.unread ≤ 256

structure Streams (s : Session) : Prop where
  holds : Keyboard.Holds s.kb s.typed s.data.length
  few : s.typed.length ≤ s.data.length + 256
  data : s.data = s.typed.take s.data.length

theorem Streams.step {s s' : Session} (h : s.Streams) (hstep : SessionStep s s')
    (hfew : s'.unread ≤ 256) : s'.Streams := by
  have htaken := h.holds.taken_le
  cases hstep with
  | interrupt scancode =>
    unfold unread at hfew
    refine ⟨h.holds.interrupt scancode, by dsimp only at hfew ⊢; omega, ?_⟩
    dsimp only
    rw [List.take_append_of_le_length htaken]
    exact h.data
  | caller m => exact ⟨h.holds, h.few, h.data⟩
  | @read args hd =>
    obtain ⟨hresult, hholds, hdelivers⟩ := sysRead_spec hd h.holds h.few
    set n := min (ReadArguments.count s.mem args).toNat (s.typed.length - s.data.length)
    have hfew' := h.few
    refine ⟨?_, ?_, ?_⟩
    · rw [hresult, List.length_append, length_bytesAt]
      exact hholds
    · dsimp only
      rw [hresult, List.length_append, length_bytesAt]
      omega
    · dsimp only
      rw [hresult, hdelivers.bytes, List.length_append, List.length_take_of_le
        (by rw [List.length_drop]; omega), List.take_add, ← h.data]

theorem Streams.run {kb : Keyboard} {m : Mem} {s : Session} (hrun : Runs (start kb m) s) :
    s.Streams := by
  induction hrun with
  | refl => exact ⟨Keyboard.Holds.init kb, Nat.zero_le _, rfl⟩
  | tail _ hlast ih => exact ih.step hlast.1 hlast.2

end Session

/-! ### The loop of `kmain` -/

/-- The loop of `kmain` after it has collected `total` characters, with everything typed. -/
structure Collector where
  kb : Keyboard
  mem : Mem
  typed : List (BitVec 8)
  total : BitVec 32

namespace Collector

def start (l : ReadLocals) (kb : Keyboard) (m : Mem) : Collector := ⟨kb.init, l.enter m, [], 0⟩

def unread (s : Collector) : Nat := s.typed.length - s.total.toNat

end Collector

inductive CollectorStep (l : ReadLocals) : Collector → Collector → Prop
  | interrupt (s : Collector) (scancode : BitVec 8) :
      CollectorStep l s { s with
        kb := s.kb.handleInterrupt scancode
        typed := s.typed ++ (s.kb.enqueued scancode).toList }
  | round {s : Collector} (hmore : s.total < l.wanted) :
      CollectorStep l s { s with
        kb := (l.round s.kb s.mem s.total).1
        mem := (l.round s.kb s.mem s.total).2.1
        total := (l.round s.kb s.mem s.total).2.2 }

namespace Collector

variable {l : ReadLocals} {s s' : Collector}

/-- Runs that leave at most 256 characters unread in every state. -/
def Runs (l : ReadLocals) : Collector → Collector → Prop :=
  Relation.ReflTransGen fun s s' => CollectorStep l s s' ∧ s'.unread ≤ 256

/-- The buffer holds the first `total` characters, and is 0 from there on. -/
structure Collects (l : ReadLocals) (s : Collector) : Prop where
  holds : Keyboard.Holds s.kb s.typed s.total.toNat
  few : s.typed.length ≤ s.total.toNat + 256
  total_le : s.total.toNat ≤ l.wanted.toNat
  bytes : bytesAt s.mem l.bufRa (l.wanted.toNat + 1) =
    s.typed.take s.total.toNat ++ List.replicate (l.wanted.toNat + 1 - s.total.toNat) 0

theorem Collects.start (hd : Disjoint (span l.ra 12) (span l.bufRa (l.wanted.toNat + 1)))
    (kb : Keyboard) (m : Mem) : (start l kb m).Collects l := by
  have hwanted : l.wanted.toNat + 1 < 2 ^ 32 := by
    -- a buffer of all addresses is not apart from the arguments
    have hlt := l.wanted.isLt
    have hout := Set.disjoint_left.mp hd (show l.ra ∈ span l.ra 12 by simp)
    rw [mem_span] at hout
    omega
  have hsize : (l.wanted + 1).toNat = l.wanted.toNat + 1 := by bv_omega
  refine ⟨Keyboard.Holds.init kb, Nat.zero_le _, Nat.zero_le _, ?_⟩
  have hfd := (Mem.changesOnly_store32 (zeroMemory m l.bufRa (l.wanted + 1)) (l.ra + 4) 1).mono
    (span_subset (b := l.ra) (k := 12) (by bv_omega))
  have hbytes : bytesAt (l.enter m) l.bufRa (l.wanted.toNat + 1) =
      bytesAt (zeroMemory m l.bufRa (l.wanted + 1)) l.bufRa (l.wanted.toNat + 1) :=
    Mem.bytesAt_of_changesOnly hfd (by omega) hd.symm
  refine hbytes.trans (List.eq_replicate_iff.mpr ⟨length_bytesAt _ _ _, fun b hb => ?_⟩)
  obtain ⟨i, hi, rfl⟩ := List.mem_map.mp hb
  have hlt := List.mem_range.mp hi
  rw [zeroMemory_apply, hsize, if_pos (by bv_omega)]

/-- The arguments that a round passes, and that storing them changes nothing else. -/
theorem round_arguments (l : ReadLocals) (m : Mem) (total : BitVec 32) :
    let m' := ReadArguments.setCount (ReadArguments.setBuf m l.ra (l.bufRa + total)) l.ra
      (l.wanted - total)
    ReadArguments.count m' l.ra = l.wanted - total ∧
      ReadArguments.buf m' l.ra = l.bufRa + total ∧ ChangesOnly (span l.ra 12) m m' := by
  intro m'
  refine ⟨Mem.load32_store32_self _ _ _, ?_, ?_⟩
  · have hapart : Disjoint (span (l.ra + 8) 4) (span l.ra 4) := by
      refine Set.disjoint_left.mpr fun x h1 h2 => ?_
      rw [mem_span] at h1 h2
      bv_omega
    exact (Mem.load32_store32_of_disjoint hapart).trans (Mem.load32_store32_self _ _ _)
  · exact ((Mem.changesOnly_store32 m (l.ra + 8) (l.bufRa + total)).mono
      (span_subset (by bv_omega))).trans
        ((Mem.changesOnly_store32 _ l.ra (l.wanted - total)).mono (span_mono (by decide)))

theorem Collects.round (hd : Disjoint (span l.ra 12) (span l.bufRa (l.wanted.toNat + 1)))
    (h : s.Collects l) (hmore : s.total < l.wanted) :
    Collects l { s with
      kb := (l.round s.kb s.mem s.total).1
      mem := (l.round s.kb s.mem s.total).2.1
      total := (l.round s.kb s.mem s.total).2.2 } := by
  have hlt : s.total.toNat < l.wanted.toNat := hmore
  have hwanted := l.wanted.isLt
  have hfew := h.few
  obtain ⟨hcount, hbuf, hargs⟩ := round_arguments l s.mem s.total
  set m' := ReadArguments.setCount (ReadArguments.setBuf s.mem l.ra (l.bufRa + s.total)) l.ra
    (l.wanted - s.total)
  have hasked : (l.wanted - s.total).toNat = l.wanted.toNat - s.total.toNat := by bv_omega
  obtain ⟨hresult, hholds, hdelivers⟩ := sysRead_spec (show Disjoint (span l.ra 12)
      (span (ReadArguments.buf m' l.ra) (ReadArguments.count m' l.ra).toNat) by
    rw [hcount, hbuf, hasked]
    exact hd.mono_right (span_subset (by bv_omega))) h.holds h.few
  rw [hcount, hasked] at hresult hholds hdelivers
  rw [hbuf] at hdelivers
  set n := min (l.wanted.toNat - s.total.toNat) (s.typed.length - s.total.toNat)
  have htotal : (s.total + (sysRead s.kb m' l.ra).2.2).toNat = s.total.toNat + n := by
    rw [BitVec.toNat_add, hresult, Nat.mod_eq_of_lt (by omega)]
  -- the rest of the buffer, which stays 0
  obtain ⟨j, hj⟩ : ∃ j, l.wanted.toNat + 1 = s.total.toNat + n + j :=
    ⟨l.wanted.toNat + 1 - (s.total.toNat + n), by omega⟩
  have hself : l.bufRa + s.total = l.bufRa + BitVec.ofNat 32 s.total.toNat := by simp
  have hold := h.bytes
  have hrest : l.wanted.toNat + 1 - s.total.toNat = n + j := by omega
  rw [hrest, hj, bytesAt_add, bytesAt_add, List.append_assoc, List.replicate_add] at hold
  obtain ⟨hfirst, hzeros⟩ := List.append_inj hold (by
    rw [length_bytesAt, List.length_take_of_le h.holds.taken_le])
  obtain ⟨-, hlast⟩ := List.append_inj hzeros (by rw [length_bytesAt, List.length_replicate])
  have hround : l.round s.kb s.mem s.total = ((sysRead s.kb m' l.ra).1,
      (sysRead s.kb m' l.ra).2.1, s.total + (sysRead s.kb m' l.ra).2.2) := rfl
  rw [hround]
  refine ⟨?_, ?_, ?_, ?_⟩ <;> dsimp only <;> rw [htotal]
  · exact hholds
  · omega
  · omega
  · have hchanges : ChangesOnly (span (l.bufRa + BitVec.ofNat 32 s.total.toNat) n ∪ span l.ra 12)
        s.mem (sysRead s.kb m' l.ra).2.1 := by
      rw [← hself]
      exact (hargs.mono Set.subset_union_right).trans (hdelivers.changes.mono Set.subset_union_left)
    have hnew := Mem.bytesAt_replace (j := j) (by omega) hchanges (by rw [← hj]; exact hd.symm)
    rw [← hself, hdelivers.bytes, hfirst, hlast, ← List.take_add] at hnew
    rw [show l.wanted.toNat + 1 - (s.total.toNat + n) = j by omega, hj]
    exact hnew

theorem Collects.step (hd : Disjoint (span l.ra 12) (span l.bufRa (l.wanted.toNat + 1)))
    (h : s.Collects l) (hstep : CollectorStep l s s') (hfew : s'.unread ≤ 256) :
    s'.Collects l := by
  have htaken := h.holds.taken_le
  cases hstep with
  | interrupt scancode =>
    unfold unread at hfew
    refine ⟨h.holds.interrupt scancode, by dsimp only at hfew ⊢; omega, h.total_le, ?_⟩
    dsimp only
    rw [List.take_append_of_le_length htaken]
    exact h.bytes
  | round hmore => exact h.round hd hmore

theorem Collects.run (hd : Disjoint (span l.ra 12) (span l.bufRa (l.wanted.toNat + 1)))
    {kb : Keyboard} {m : Mem} (hrun : Runs l (Collector.start l kb m) s) : s.Collects l := by
  induction hrun with
  | refl => exact Collects.start hd kb m
  | tail _ hlast ih => exact ih.step hd hlast.1 hlast.2

end Collector

/-- However keys and calls follow each other, while at most 256 characters are unread: the data of
all calls are the first characters typed, and the next call, whatever its arguments, returns the
number it asks for or the number unread, stores as many of the next characters at the start of its
buffer and changes nothing else.  Where the loop of `kmain` ends, it has the number of characters it
wants, and its buffer holds the first ones and the 0 after them. -/
theorem sys_read_stream (kb : Keyboard) (m : Mem) :
    (∀ s, Session.Runs (Session.start kb m) s → s.data = s.typed.take s.data.length ∧
      ∀ args, Disjoint (span args 12)
          (span (ReadArguments.buf s.mem args) (ReadArguments.count s.mem args).toNat) →
        let n := min (ReadArguments.count s.mem args).toNat s.unread
        let r := sysRead s.kb s.mem args
        r.2.2.toNat = n ∧
          bytesAt r.2.1 (ReadArguments.buf s.mem args) n = (s.typed.drop s.data.length).take n ∧
          ChangesOnly (span (ReadArguments.buf s.mem args) n) s.mem r.2.1) ∧
    ∀ l : ReadLocals, Disjoint (span l.ra 12) (span l.bufRa (l.wanted.toNat + 1)) →
      ∀ s, Collector.Runs l (Collector.start l kb m) s → ¬ s.total < l.wanted →
        s.total = l.wanted ∧ bytesAt s.mem l.bufRa (l.wanted.toNat + 1) =
          s.typed.take l.wanted.toNat ++ [0] := by
  refine ⟨fun s hrun => ?_, fun l hd s hrun hexit => ?_⟩
  · have h := Session.Streams.run hrun
    refine ⟨h.data, fun args hd => ?_⟩
    obtain ⟨hresult, -, hdelivers⟩ := sysRead_spec hd h.holds h.few
    exact ⟨hresult, hdelivers.bytes, hdelivers.changes⟩
  · have h := Collector.Collects.run hd hrun
    have htotal : s.total.toNat = l.wanted.toNat := by
      have hle := h.total_le
      rw [BitVec.lt_def] at hexit
      omega
    refine ⟨BitVec.eq_of_toNat_eq htotal, ?_⟩
    rw [h.bytes, htotal, Nat.add_sub_cancel_left]
    rfl

/-- Two keys read one by one, and four keys of which two arrive before the first call of
`kmain`. -/
theorem sys_read_stream_keys :
    let kb : Keyboard := ⟨fun _ => 0, 0, 0, false, false⟩
    let l : ReadLocals := ⟨0x2000, 0x1000, 4⟩
    (∃ s, Session.Runs (Session.start kb fun _ => 0) s ∧ s.data = s.typed.take s.data.length ∧
      s.data = [0x61] ∧ (sysRead s.kb s.mem 0x1000).2.2.toNat = 1 ∧
      bytesAt (sysRead s.kb s.mem 0x1000).2.1 0x2000 1 = [0x73]) ∧
    ∃ s, Collector.Runs l (Collector.start l kb fun _ => 0) s ∧ s.total = 4 ∧
      bytesAt s.mem 0x2000 5 = [0x61, 0x73, 0x64, 0x66, 0] := by
  intro kb l
  obtain ⟨hsession, hkmain⟩ := sys_read_stream kb fun _ => 0
  refine ⟨?_, ?_⟩
  · have h0 : Session.Runs (Session.start kb fun _ => 0) _ := .refl
    have h1 := h0.tail ⟨SessionStep.interrupt _ 0x1E, by decide⟩
    have h2 := h1.tail ⟨SessionStep.interrupt _ 0x1F, by decide⟩
    have h3 := h2.tail ⟨SessionStep.caller _ (ReadArguments.setCount
      (ReadArguments.setBuf (fun _ => 0) 0x1000 0x2000) 0x1000 1), by decide⟩
    have h4 := h3.tail ⟨@SessionStep.read _ 0x1000
      (disjoint_span (by decide) (by decide) (by decide)), by decide +kernel⟩
    obtain ⟨hdata, hcall⟩ := hsession _ h4
    obtain ⟨hresult, -, -⟩ := hcall 0x1000
      (disjoint_span (by decide +kernel) (by decide +kernel) (by decide +kernel))
    exact ⟨_, h4, hdata, by decide +kernel, hresult.trans (by decide +kernel), by decide +kernel⟩
  · have h0 : Collector.Runs l (Collector.start l kb fun _ => 0) _ := .refl
    have h1 := h0.tail ⟨CollectorStep.interrupt _ 0x1E, by decide⟩
    have h2 := h1.tail ⟨CollectorStep.interrupt _ 0x1F, by decide⟩
    have h3 := h2.tail ⟨CollectorStep.round (by decide), by decide +kernel⟩
    have h4 := h3.tail ⟨CollectorStep.interrupt _ 0x20, by decide +kernel⟩
    have h5 := h4.tail ⟨CollectorStep.interrupt _ 0x21, by decide +kernel⟩
    have h6 := h5.tail ⟨CollectorStep.round (by decide +kernel), by decide +kernel⟩
    obtain ⟨htotal, hbytes⟩ := hkmain l (disjoint_span (by decide) (by decide) (by decide)) _ h6
      (by decide +kernel)
    exact ⟨_, h6, htotal, hbytes.trans (by decide +kernel)⟩

end Sapphire
