import Sapphire.Keyboard.Queue
import Mathlib.Data.List.Chain
import Mathlib.Data.List.GetD
import Mathlib.Data.List.Induction

/-! The keyboard without a bound on what waits in its buffer.  The handler does not look at
`read_pos`, so a character that has not been read is replaced by the one that is typed 256 later, and
a read delivers the newest character of its slot.  A `Trace` records for every slot which of the
typed characters it holds, and which of them have been delivered. -/

namespace Sapphire

open Keyboard

inductive KeyEvent
  | interrupt (scancode : BitVec 8)
  | readChar

/-- The driver with everything typed, the position among it of the character in each slot, what
`read_char` has returned and the positions of the characters that it has delivered, and whether the
handler has added a character since the last of these. -/
structure Trace where
  kb : Keyboard
  typed : List (BitVec 8)
  origin : Fin kbBufferSize → Nat
  returned : List (BitVec 8)
  delivered : List Nat
  fresh : Bool

namespace Trace

def start (kb : Keyboard) : Trace := ⟨kb.init, [], fun _ => 0, [], [], true⟩

def apply (s : Trace) : KeyEvent → Trace
  | .interrupt scancode =>
    match s.kb.enqueued scancode with
    | none => { s with kb := s.kb.handleInterrupt scancode }
    | some c => { s with
        kb := s.kb.handleInterrupt scancode
        typed := s.typed ++ [c]
        origin := Function.update s.origin (bufferIndex s.kb.writePos) s.typed.length
        fresh := true }
  | .readChar =>
    let s' := { s with kb := s.kb.readChar.2, returned := s.returned ++ [s.kb.readChar.1] }
    if s.kb.hasInput then
      { s' with
        delivered := s.delivered ++ [s.origin (bufferIndex s.kb.readPos)]
        fresh := false }
    else s'

def run (kb : Keyboard) (events : List KeyEvent) : Trace := events.foldl apply (start kb)

/-- The characters that have been typed and not read. -/
def unread (s : Trace) : Nat := s.typed.length - s.delivered.length

/-- What `read_char` has returned are typed characters, none of them twice and in typing order. -/
structure InOrder (s : Trace) : Prop where
  chars : s.returned.filter (· ≠ 0) = s.delivered.map fun k => s.typed.getD k 0
  typed : ∀ k ∈ s.delivered, k < s.typed.length
  increasing : s.delivered.Pairwise (· < ·)

/-- A read that finds a multiple of 256 characters unread has to come after a character that was
typed since the last one was delivered. -/
def KeepsLap (s : Trace) : KeyEvent → Prop
  | .interrupt _ => True
  | .readChar => s.kb.hasInput = true → s.fresh = true ∨ s.unread % 256 ≠ 0

/-- Every slot holds the newest of its characters, and the last one that was delivered was the newest
of its slot. -/
structure Follows (s : Trace) : Prop where
  holds : Keyboard.Holds s.kb s.typed s.delivered.length
  origin : Ring.Keeps s.origin (List.range s.typed.length)
  chars : s.returned.filter (· ≠ 0) = s.delivered.map fun k => s.typed.getD k 0
  typed : ∀ k ∈ s.delivered, k < s.typed.length
  stale : s.fresh = false → s.delivered ≠ []
  last : ∀ k ∈ s.delivered.getLast?, (k + 1) % 256 = s.delivered.length % 256 ∧
    if s.fresh then k + 1 < s.typed.length
    else k < s.typed.length ∧ s.typed.length ≤ k + 256

theorem Follows.start (kb : Keyboard) : (start kb).Follows :=
  ⟨Keyboard.Holds.init kb, Ring.Keeps.nil _, rfl, fun _ hk => absurd hk List.not_mem_nil,
    fun hstale => Bool.noConfusion hstale, fun _ hk => by cases hk⟩

theorem Follows.interrupt {s : Trace} (h : s.Follows) (scancode : BitVec 8) :
    (s.apply (.interrupt scancode)).Follows := by
  have hholds := h.holds.interrupt scancode
  rcases hcase : s.kb.enqueued scancode with _ | c
  · rw [hcase, Option.toList_none, List.append_nil] at hholds
    simp only [apply, hcase]
    exact ⟨hholds, h.origin, h.chars, h.typed, h.stale, h.last⟩
  · rw [hcase, Option.toList_some] at hholds
    simp only [apply, hcase]
    refine ⟨hholds, ?_, ?_, fun k hk => ?_, fun hstale => Bool.noConfusion hstale,
      fun k hk => ?_⟩
    · dsimp only
      rw [List.length_append, List.length_singleton, List.range_succ, h.holds.writePos,
        bufferIndex_ofNat]
      have hpush := h.origin.push s.typed.length
      rwa [List.length_range] at hpush
    · dsimp only
      rw [h.chars]
      refine List.map_congr_left fun k hk => ?_
      rw [List.getD_append _ _ _ _ (h.typed k hk)]
    · rw [List.length_append]
      exact Nat.lt_add_right _ (h.typed k hk)
    · obtain ⟨hmod, hlast⟩ := h.last k hk
      refine ⟨hmod, ?_⟩
      dsimp only
      rw [if_pos rfl, List.length_append, List.length_singleton]
      split at hlast <;> omega

/-- A read that finds input delivers the newest character of its slot. -/
theorem Follows.delivers {s : Trace} (h : s.Follows) (hinput : s.kb.hasInput = true) :
    s.delivered.length < s.typed.length ∧ s.origin (bufferIndex s.kb.readPos) =
      Ring.newest 256 s.typed.length s.delivered.length := by
  have htaken := h.holds.taken_le
  have hlt : s.delivered.length < s.typed.length := by
    have := h.holds.hasInput_iff.mp hinput
    omega
  refine ⟨hlt, ?_⟩
  have hget := h.origin.get (r := s.delivered.length) (by rw [List.length_range]; exact hlt)
  have hbounds := Ring.newest_bounds (N := 256) hlt
  rw [List.length_range, List.getElem?_range hbounds.1, Option.some_inj] at hget
  rw [h.holds.readPos, bufferIndex_ofNat]
  exact hget.symm

theorem Follows.readChar {s : Trace} (h : s.Follows) : (s.apply .readChar).Follows := by
  by_cases hinput : s.kb.hasInput = true
  · obtain ⟨hlt, horigin⟩ := h.delivers hinput
    have hbounds := Ring.newest_bounds (N := 256) hlt
    have hchar := h.holds.char hlt
    have hne := h.holds.nonzero _ (List.mem_of_getElem? hchar)
    simp only [apply, readChar_of_input hinput, hinput, if_true, horigin]
    refine ⟨?_, h.origin, ?_, fun k hk => ?_, fun _ => by simp, fun k hk => ?_⟩
    · dsimp only
      rw [List.length_append]
      exact h.holds.advance hlt
    · dsimp only
      rw [List.filter_append, h.chars, List.map_append, List.filter_cons_of_pos (by simpa using hne),
        List.map_singleton, List.getD_eq_getElem?_getD, hchar]
      rfl
    · rcases List.mem_append.mp hk with hk | hk
      · exact h.typed k hk
      · rw [List.mem_singleton.mp hk]
        exact hbounds.1
    · rw [List.getLast?_concat, Option.mem_some_iff] at hk
      subst hk
      refine ⟨?_, hbounds⟩
      dsimp only
      rw [List.length_append, List.length_singleton, Ring.newest]
      omega
  · rw [apply, if_neg hinput, readChar_of_empty hinput]
    refine ⟨h.holds, h.origin, ?_, h.typed, h.stale, h.last⟩
    dsimp only
    rw [List.filter_append, h.chars]
    simp

theorem Follows.apply {s : Trace} (h : s.Follows) (event : KeyEvent) : (s.apply event).Follows := by
  cases event with
  | interrupt scancode => exact h.interrupt scancode
  | readChar => exact h.readChar

theorem Follows.run (kb : Keyboard) (events : List KeyEvent) : (run kb events).Follows :=
  List.foldlRecOn events Trace.apply (Follows.start kb) fun _ h event _ => h.apply event

/-- One event keeps the deliveries increasing exactly when it keeps the lap. -/
theorem Follows.increasing_apply_iff {s : Trace} (h : s.Follows) (event : KeyEvent) :
    (s.apply event).delivered.Pairwise (· < ·) ↔
      s.delivered.Pairwise (· < ·) ∧ s.KeepsLap event := by
  cases event with
  | interrupt scancode =>
    have hsame : (s.apply (.interrupt scancode)).delivered = s.delivered := by
      simp only [Trace.apply]
      split <;> rfl
    rw [hsame, KeepsLap, and_true]
  | readChar =>
    by_cases hinput : s.kb.hasInput = true
    · obtain ⟨hlt, horigin⟩ := h.delivers hinput
      have hbounds := Ring.newest_bounds (N := 256) hlt
      have hmod : Ring.newest 256 s.typed.length s.delivered.length % 256 =
          s.delivered.length % 256 := by
        rw [Ring.newest]
        omega
      simp only [Trace.apply, hinput, if_true, horigin, KeepsLap, forall_true_left]
      rw [← List.isChain_iff_pairwise, ← List.isChain_iff_pairwise, List.isChain_append]
      refine and_congr_right fun _ => ?_
      simp only [List.isChain_singleton, true_and, List.head?_cons, Option.mem_some_iff,
        forall_eq']
      rcases hlast : s.delivered.getLast? with _ | k
      · -- nothing has been delivered yet
        have hfresh : s.fresh = true := by
          by_contra hstale
          exact h.stale (by simpa using hstale) (List.getLast?_eq_none_iff.mp hlast)
        simp [hfresh]
      · obtain ⟨hk, hbound⟩ := h.last k hlast
        rw [unread]
        by_cases hfresh : s.fresh = true
        · rw [if_pos hfresh] at hbound
          simp only [Option.mem_some_iff, forall_eq', hfresh, true_or, iff_true]
          omega
        · rw [if_neg hfresh] at hbound
          simp only [Option.mem_some_iff, forall_eq', hfresh, Bool.false_eq_true, false_or]
          omega
    · rw [Trace.apply, if_neg hinput, KeepsLap]
      exact ⟨fun hinc => ⟨hinc, fun hin => absurd hin hinput⟩, fun hboth => hboth.1⟩

/-- Every event of the run keeps the lap. -/
def AllKeepLap (kb : Keyboard) (events : List KeyEvent) : Prop :=
  ∀ before event after, events = before ++ event :: after → (run kb before).KeepsLap event

theorem allKeepLap_concat (kb : Keyboard) (events : List KeyEvent) (event : KeyEvent) :
    AllKeepLap kb (events ++ [event]) ↔
      AllKeepLap kb events ∧ (run kb events).KeepsLap event := by
  constructor
  · intro h
    refine ⟨fun before e after heq => ?_, h events event [] rfl⟩
    exact h before e (after ++ [event]) (by rw [heq, List.append_assoc, List.cons_append])
  · rintro ⟨h, hlast⟩ before e after heq
    rcases List.eq_nil_or_concat after with rfl | ⟨rest, last, rfl⟩
    · obtain ⟨rfl, hsingle⟩ := List.append_inj' heq rfl
      rw [List.cons.injEq] at hsingle
      rw [← hsingle.1]
      exact hlast
    · rw [List.concat_eq_append, ← List.cons_append, ← List.append_assoc] at heq
      exact h before e rest (List.append_inj' heq rfl).1

theorem increasing_iff (kb : Keyboard) (events : List KeyEvent) :
    (run kb events).delivered.Pairwise (· < ·) ↔ AllKeepLap kb events := by
  induction events using List.reverseRecOn with
  | nil =>
    refine ⟨fun _ before event after heq => ?_, fun _ => List.Pairwise.nil⟩
    exact absurd heq.symm (by simp)
  | append_singleton events event ih =>
    have hrun : run kb (events ++ [event]) = (run kb events).apply event := by
      rw [run, List.foldl_append]
      rfl
    rw [hrun, (Follows.run kb events).increasing_apply_iff, ih, allKeepLap_concat]

end Trace

/-- Whatever is typed and left unread, the characters that `read_char` returns are typed ones in
typing order, each at most once, exactly when no read finds a positive multiple of 256 characters
unread right after the last delivery, with nothing typed in between. -/
theorem keyboard_inOrder_iff (kb : Keyboard) (events : List KeyEvent) :
    (Trace.run kb events).InOrder ↔ Trace.AllKeepLap kb events := by
  have h := Trace.Follows.run kb events
  rw [← Trace.increasing_iff]
  exact ⟨fun hinorder => hinorder.increasing, fun hinc => ⟨h.chars, h.typed, hinc⟩⟩

/-- An `a`, an `s`, 255 times `d`, and two reads. -/
def overflowEvents : List KeyEvent :=
  [.interrupt 0x1E, .interrupt 0x1F] ++ List.replicate 255 (.interrupt 0x20) ++
    [.readChar, .readChar]

/-- The last `d` is delivered before the `s` that was typed before it. -/
theorem keyboard_inOrder_overflow :
    (Trace.run ⟨fun _ => 0, 0, 0, false, false⟩ overflowEvents).returned = [0x64, 0x73] ∧
      ¬ (Trace.run ⟨fun _ => 0, 0, 0, false, false⟩ overflowEvents).InOrder := by
  have hdelivered : (Trace.run ⟨fun _ => 0, 0, 0, false, false⟩ overflowEvents).delivered =
      [256, 1] := by decide +kernel
  refine ⟨by decide +kernel, fun h => ?_⟩
  have hinc := h.increasing
  rw [hdelivered] at hinc
  exact absurd hinc (by decide)

end Sapphire
