import Sapphire.Keyboard
import Mathlib.Data.List.Induction

/-! The shift keys.  The driver keeps one flag for both of them, which a press of either sets and a
release of either clears.  While one is held down and the other is released, the flag says that no
shift key is down until one is pressed again or repeats. -/

namespace Sapphire

namespace Keyboard

/-- The key of a make or break code. -/
def keyOf (code : BitVec 8) : Nat := code.toNat % 128

/-- A break code. -/
def released (code : BitVec 8) : Bool := 128 ≤ code.toNat

/-- The key is down after the codes, where every key was up before them. -/
def down (codes : List (BitVec 8)) (key : Nat) : Bool :=
  codes.foldl (fun isDown code => if keyOf code = key then !released code else isDown) false

/-- Codes as a keyboard sends them: only a key that is down is released, while the make code of a key
that is down may repeat, and there are no prefixes. -/
def Physical (codes : List (BitVec 8)) : Prop :=
  ∀ i, (hi : i < codes.length) → codes[i] ≠ 0xE0 ∧ codes[i] ≠ 0xE1 ∧
    (released codes[i] = true → down (codes.take i) (keyOf codes[i]) = true)

instance (codes : List (BitVec 8)) : Decidable (Physical codes) := Nat.decidableBallLT _ _

abbrev lshift : Nat := 0x2A
abbrev rshift : Nat := 0x36

def isShift (code : BitVec 8) : Bool := keyOf code = lshift ∨ keyOf code = rshift

/-- A shift key is down. -/
def shiftDown (codes : List (BitVec 8)) : Bool := down codes lshift || down codes rshift

/-- The last code of a shift key was a break code. -/
def shiftReleased (codes : List (BitVec 8)) : Bool :=
  codes.foldl (fun last code => if isShift code then released code else last) false

/-- A make code with a character. -/
structure Printable (code : BitVec 8) : Prop where
  make : released code = false
  char : lookup scancodeToAscii code ≠ 0

/-- Every character is taken from the shifted table exactly when a shift key is down. -/
def ShiftFollowsKeys (kb : Keyboard) (codes : List (BitVec 8)) : Prop :=
  ∀ i, (hi : i < codes.length) → Printable codes[i] →
    ((codes.take i).foldl handleInterrupt kb.init).enqueued codes[i] =
      some (lookup (if shiftDown (codes.take i) then scancodeToAsciiShift else scancodeToAscii)
        codes[i])

theorem down_concat (codes : List (BitVec 8)) (code : BitVec 8) (key : Nat) :
    down (codes ++ [code]) key = if keyOf code = key then !released code else down codes key := by
  rw [down, List.foldl_append, ← down, List.foldl_cons, List.foldl_nil]

theorem shiftReleased_concat (codes : List (BitVec 8)) (code : BitVec 8) :
    shiftReleased (codes ++ [code]) =
      if isShift code then released code else shiftReleased codes := by
  rw [shiftReleased, List.foldl_append, ← shiftReleased, List.foldl_cons, List.foldl_nil]

theorem isShift_iff {code : BitVec 8} : isShift code = true ↔
    (code = scLshiftPress ∨ code = scRshiftPress) ∨
      code = scLshiftRelease ∨ code = scRshiftRelease := by
  rw [isShift, decide_eq_true_eq, keyOf, lshift, rshift]
  bv_omega

/-- What a code does to the flag. -/
theorem shiftHeld_handleInterrupt (kb : Keyboard) (code : BitVec 8) :
    (kb.handleInterrupt code).shiftHeld = if isShift code then !released code else kb.shiftHeld := by
  by_cases hpress : code = scLshiftPress ∨ code = scRshiftPress
  · rw [if_pos (isShift_iff.mpr (Or.inl hpress)), handleInterrupt, if_pos hpress]
    rcases hpress with rfl | rfl <;> rfl
  by_cases hrelease : code = scLshiftRelease ∨ code = scRshiftRelease
  · rw [if_pos (isShift_iff.mpr (Or.inr hrelease)), handleInterrupt, if_neg hpress, if_pos hrelease]
    rcases hrelease with rfl | rfl <;> rfl
  · rw [if_neg (by rw [isShift_iff]; exact not_or.mpr ⟨hpress, hrelease⟩), handleInterrupt,
      if_neg hpress, if_neg hrelease]
    dsimp only
    split_ifs <;> rfl

theorem shiftDown_concat_of_not_isShift {code : BitVec 8} (h : ¬ isShift code = true)
    (codes : List (BitVec 8)) : shiftDown (codes ++ [code]) = shiftDown codes := by
  rw [isShift, decide_eq_true_eq, not_or] at h
  rw [shiftDown, down_concat, down_concat, if_neg h.1, if_neg h.2, shiftDown]

theorem shiftDown_concat_of_press {code : BitVec 8} (h : isShift code = true)
    (hpress : released code = false) (codes : List (BitVec 8)) :
    shiftDown (codes ++ [code]) = true := by
  rw [isShift, decide_eq_true_eq] at h
  rw [shiftDown, down_concat, down_concat, hpress, Bool.or_eq_true]
  exact h.imp (fun h => if_pos h) (fun h => if_pos h)

/-- The flag is set while a shift key is down, except after the release of the other one. -/
theorem shiftHeld_run (kb : Keyboard) (codes : List (BitVec 8)) :
    (codes.foldl handleInterrupt kb.init).shiftHeld =
      (shiftDown codes && !shiftReleased codes) := by
  induction codes using List.reverseRecOn with
  | nil => rfl
  | append_singleton codes code ih =>
    rw [List.foldl_append, List.foldl_cons, List.foldl_nil, shiftHeld_handleInterrupt, ih,
      shiftReleased_concat]
    by_cases hshift : isShift code = true
    · rw [if_pos hshift, if_pos hshift]
      cases hcode : released code with
      | false => rw [shiftDown_concat_of_press hshift hcode, Bool.true_and]
      | true => rw [Bool.not_true, Bool.and_false]
    · rw [if_neg hshift, if_neg hshift, shiftDown_concat_of_not_isShift hshift]

/-- The two tables have characters for the same codes, and none for the keys that the handler looks
for. -/
theorem lookup_facts : ∀ i : Fin 128, lookup scancodeToAscii (BitVec.ofNat 8 i) ≠ 0 →
    lookup scancodeToAsciiShift (BitVec.ofNat 8 i) ≠ 0 ∧
      BitVec.ofNat 8 i ∉ [scLshiftPress, scRshiftPress, scLshiftRelease, scRshiftRelease,
        scCtrlPress, scCtrlRelease] ∧ BitVec.ofNat 8 i &&& kbReleased = 0 := by
  decide

/-- The character for a make code that has one. -/
theorem Printable.enqueued {code : BitVec 8} (h : Printable code) (kb : Keyboard) :
    kb.enqueued code =
      some (lookup (if kb.shiftHeld then scancodeToAsciiShift else scancodeToAscii) code) := by
  have hmake : code.toNat < 128 := by
    have := of_decide_eq_false h.make
    omega
  have hfacts := lookup_facts ⟨code.toNat, hmake⟩
  simp only [BitVec.ofNat_toNat, BitVec.setWidth_eq, List.mem_cons, List.not_mem_nil, or_false,
    not_or] at hfacts
  obtain ⟨hshifted, ⟨h1, h2, h3, h4, h5, h6⟩, hbit⟩ := hfacts h.char
  have hchar : lookup (if kb.shiftHeld then scancodeToAsciiShift else scancodeToAscii) code ≠ 0 := by
    split_ifs
    · exact hshifted
    · exact h.char
  have hne : kb.writePos + 1 ≠ kb.writePos := by bv_omega
  have hrun : kb.handleInterrupt code = { kb with
      buffer := Function.update kb.buffer (bufferIndex kb.writePos)
        (lookup (if kb.shiftHeld then scancodeToAsciiShift else scancodeToAscii) code)
      writePos := kb.writePos + 1 } := by
    rw [handleInterrupt, if_neg (not_or.mpr ⟨h1, h2⟩), if_neg (not_or.mpr ⟨h3, h4⟩), if_neg h5,
      if_neg h6, if_neg (not_not.mpr hbit)]
    simp only [← apply_ite (fun table => lookup table code), if_pos hchar]
  simp only [Keyboard.enqueued, hrun, if_neg hne, Function.update_self]

/-- The driver takes every character from the table of the keys that are down exactly when no
character that the tables differ in is typed after the release of one shift key while the other is
down. -/
theorem shift_follows_keys_iff (kb : Keyboard) (codes : List (BitVec 8)) :
    ShiftFollowsKeys kb codes ↔
      ∀ i, (hi : i < codes.length) → Printable codes[i] →
        lookup scancodeToAsciiShift codes[i] ≠ lookup scancodeToAscii codes[i] →
        ¬ (shiftDown (codes.take i) = true ∧ shiftReleased (codes.take i) = true) := by
  refine forall_congr' fun i => forall_congr' fun hi => imp_congr_right fun hcode => ?_
  rw [hcode.enqueued, shiftHeld_run, Option.some_inj]
  cases hdown : shiftDown (codes.take i) with
  | false => simp
  | true =>
    cases hreleased : shiftReleased (codes.take i) with
    | false => simp
    | true => simp [eq_comm]

/-- With the right shift key still down, `a` is typed after the left one is released. -/
theorem shift_follows_keys_leftReleased :
    ¬ ∀ (kb : Keyboard) (codes : List (BitVec 8)), Physical codes → ShiftFollowsKeys kb codes := by
  intro h
  have hphysical : Physical [0x2A, 0x36, 0xAA, 0x1E] := by decide
  have hwrong := h ⟨fun _ => 0, 0, 0, false, false⟩ _ hphysical 3 (by decide)
    ⟨by decide, by decide⟩
  exact absurd hwrong (by decide)

end Keyboard

end Sapphire
