import Sapphire.Lib.Table

/-! A stack of 32-bit words that grows downwards in a byte memory.  `word k` is the word `k` places
below the top.  After pushing a list, its words are on the stack, the last one on top, and nothing
outside them has changed; the addresses may pass the end of the address space. -/

namespace Machine

structure Stack where
  esp : BitVec 32
  mem : Mem

namespace Stack

variable {s : Stack} {vs : List (BitVec 32)}

def push (s : Stack) (v : BitVec 32) : Stack := ⟨s.esp - 4, s.mem.store32 (s.esp - 4) v⟩

/-- The word `k` places below the top. -/
def word (s : Stack) (k : Nat) : BitVec 32 := s.mem.load32 (slot s.esp k)

def pushAll (s : Stack) (vs : List (BitVec 32)) : Stack := vs.foldl push s

theorem pushAll_append (s : Stack) (vs ws : List (BitVec 32)) :
    s.pushAll (vs ++ ws) = (s.pushAll vs).pushAll ws :=
  List.foldl_append

theorem pushAll_concat (s : Stack) (vs : List (BitVec 32)) (v : BitVec 32) :
    s.pushAll (vs ++ [v]) = (s.pushAll vs).push v := by
  rw [pushAll_append]
  rfl

theorem esp_pushAll (s : Stack) (vs : List (BitVec 32)) :
    (s.pushAll vs).esp = s.esp - BitVec.ofNat 32 (4 * vs.length) := by
  induction vs using List.reverseRecOn with
  | nil => simp [pushAll]
  | append_singleton vs v ih =>
    rw [pushAll_concat, push, ih, List.length_append, List.length_singleton, Nat.mul_add,
      BitVec.ofNat_add]
    bv_omega

theorem word_push_zero (s : Stack) (v : BitVec 32) : (s.push v).word 0 = v := by
  rw [word, slot, push]
  simp

/-- The words below one that is pushed. -/
theorem word_push_succ (s : Stack) (v : BitVec 32) {k : Nat} (hk : k + 1 < 2 ^ 30) :
    (s.push v).word (k + 1) = s.word k := by
  have hslot : slot (s.esp - 4) (k + 1) = slot s.esp k := by
    rw [slot, slot, BitVec.ofNat_add]
    bv_omega
  have hzero : s.esp - 4 = slot (s.esp - 4) 0 := by simp [slot]
  rw [word, push]
  dsimp only
  nth_rewrite 1 [hzero]
  rw [load32_store32_slot _ _ _ (by decide) hk, if_neg (by omega), hslot, word]

/-- The words of a list that was pushed, the last one on top. -/
theorem word_pushAll (s : Stack) (vs : List (BitVec 32)) (hlen : vs.length < 2 ^ 30) {k : Nat}
    (hk : k < vs.length) :
    vs.reverse[k]? = some ((s.pushAll vs).word k) := by
  induction vs using List.reverseRecOn generalizing k with
  | nil => exact absurd hk (Nat.not_lt_zero k)
  | append_singleton vs v ih =>
    rw [List.length_append, List.length_singleton] at hlen hk
    rw [pushAll_concat, List.reverse_append, List.reverse_singleton, List.singleton_append]
    cases k with
    | zero => rw [word_push_zero, List.getElem?_cons_zero]
    | succ k =>
      rw [List.getElem?_cons_succ, word_push_succ _ _ (by omega)]
      exact ih (by omega) (by omega)

theorem changesOnly_pushAll (s : Stack) (vs : List (BitVec 32)) (hlen : vs.length < 2 ^ 30) :
    ChangesOnly (span (s.pushAll vs).esp (4 * vs.length)) s.mem (s.pushAll vs).mem := by
  induction vs using List.reverseRecOn with
  | nil => exact ChangesOnly.refl _ _
  | append_singleton vs v ih =>
    rw [List.length_append, List.length_singleton] at hlen ⊢
    rw [pushAll_concat, push]
    refine ((ih (by omega)).mono (span_subset ?_)).trans
      ((Mem.changesOnly_store32 _ _ _).mono (span_mono (by omega)))
    dsimp only
    bv_omega

end Stack

end Machine
