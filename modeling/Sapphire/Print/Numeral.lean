import Sapphire.Print

/-! The numerals that `convert` writes.  It divides by the base and puts the digits into its buffer
from the end on, so what it returns reads the most significant digit first. -/

namespace Sapphire

/-- The digit that a character stands for. -/
def digitValue (b : BitVec 8) : Option Nat :=
  if 0x30 ≤ b ∧ b ≤ 0x39 then some (b.toNat - 0x30)
  else if 0x41 ≤ b ∧ b ≤ 0x46 then some (b.toNat - 0x41 + 10)
  else none

/-- The number that a string of digits stands for, the most significant one first. -/
def numeralValue (base : Nat) (text : List (BitVec 8)) : Option Nat :=
  text.foldlM (fun value b => do
    let digit ← digitValue b
    if digit < base then some (base * value + digit) else none) 0

/-- The text is the numeral of a number: digits without a leading zero, except for `0` itself. -/
structure Numeral (base value : Nat) (text : List (BitVec 8)) : Prop where
  nonempty : text ≠ []
  value : numeralValue base text = some value
  leading : text.head? = some 0x30 → text = [0x30]

/-- The numeral of an integer, with a minus sign where it is negative. -/
def SignedNumeral (base : Nat) (value : Int) (text : List (BitVec 8)) : Prop :=
  if value < 0 then ∃ digits, text = 0x2D :: digits ∧ Numeral base value.natAbs digits
  else Numeral base value.natAbs text

theorem representation_digit {i : Nat} (hi : i < 16) :
    ∃ digit, representation[i]? = some digit ∧ digitValue digit = some i := by
  have h : ∀ i < 16, representation[i]?.bind digitValue = some i := by decide
  exact Option.bind_eq_some_iff.mp (h i hi)

/-- A digit after a numeral. -/
theorem numeralValue_concat {base value digit : Nat} {text : List (BitVec 8)} {b : BitVec 8}
    (htext : numeralValue base text = some value) (hb : digitValue b = some digit)
    (hlt : digit < base) : numeralValue base (text ++ [b]) = some (base * value + digit) := by
  rw [numeralValue] at htext
  rw [numeralValue, List.foldlM_append, htext]
  simp [hb, hlt]

namespace Numeral

variable {base value digit : Nat} {text : List (BitVec 8)} {b : BitVec 8}

theorem single (hb : digitValue b = some digit) (hlt : digit < base) : Numeral base digit [b] := by
  refine ⟨List.cons_ne_nil _ _, ?_, fun h => ?_⟩
  · have hnil : numeralValue base [] = some 0 := rfl
    have hvalue := numeralValue_concat hnil hb hlt
    rwa [Nat.mul_zero, Nat.zero_add] at hvalue
  · rw [Option.some.inj h]

/-- Another digit after the numeral of a number other than 0. -/
theorem concat (h : Numeral base value text) (hvalue : value ≠ 0) (hb : digitValue b = some digit)
    (hlt : digit < base) : Numeral base (base * value + digit) (text ++ [b]) := by
  refine ⟨List.append_ne_nil_of_left_ne_nil h.nonempty _, numeralValue_concat h.value hb hlt,
    fun hhead => ?_⟩
  rw [List.head?_append_of_ne_nil _ h.nonempty] at hhead
  -- a numeral that starts with 0 is that of 0
  have hzero : Numeral base 0 [0x30] := single rfl (by omega)
  have hvalue' := h.value
  rw [h.leading hhead, hzero.value] at hvalue'
  exact absurd (Option.some.inj hvalue').symm hvalue

end Numeral

section

variable {base : BitVec 32} (h2 : 2 ≤ base.toNat) (h16 : base.toNat ≤ 16)
include h2 h16

/-- The digit of the remainder. -/
theorem exists_digit (num : BitVec 32) :
    ∃ digit, representation[(num % base).toNat]? = some digit ∧
      digitValue digit = some (num.toNat % base.toNat) ∧ digit ≠ 0 := by
  rw [BitVec.toNat_umod]
  have hlt : num.toNat % base.toNat < base.toNat := Nat.mod_lt _ (by omega)
  obtain ⟨digit, hdigit, hvalue⟩ := representation_digit (i := num.toNat % base.toNat) (by omega)
  refine ⟨digit, hdigit, hvalue, ?_⟩
  rintro rfl
  cases hvalue

/-- With room for as many digits as the number has, the loop of `convert` puts its numeral in front
of what is there. -/
theorem convertFrom_spec {ptr : Nat} {num : BitVec 32} (hfit : num.toNat < base.toNat ^ ptr)
    (hptr : ptr ≠ 0) (digits : List (BitVec 8)) :
    ∃ text, convertFrom base ptr num digits = some (text ++ digits) ∧
      Numeral base.toNat num.toNat text ∧ text.length ≤ ptr ∧ ∀ b ∈ text, b ≠ 0 := by
  induction ptr generalizing num digits with
  | zero => exact absurd rfl hptr
  | succ ptr ih =>
    obtain ⟨digit, hdigit, hvalue, hne⟩ := exists_digit h2 h16 num
    have hlt : num.toNat % base.toNat < base.toNat := Nat.mod_lt _ (by omega)
    have hdiv := Nat.div_add_mod num.toNat base.toNat
    have hquot : (num / base).toNat = num.toNat / base.toNat := BitVec.toNat_udiv
    simp only [convertFrom, hdigit, Option.bind_eq_bind, Option.bind_some]
    by_cases hzero : num / base = 0
    · rw [if_neg (not_not.mpr hzero)]
      rw [hzero] at hquot
      refine ⟨[digit], rfl, ?_, by simp, by simpa using hne⟩
      rw [show num.toNat = num.toNat % base.toNat by
        rw [← hquot] at hdiv
        simpa using hdiv.symm]
      exact .single hvalue hlt
    · rw [if_pos hzero]
      have hpos : num.toNat / base.toNat ≠ 0 := by
        rw [← hquot]
        exact fun h => hzero (BitVec.eq_of_toNat_eq h)
      have hroom : (num / base).toNat < base.toNat ^ ptr := by
        rw [hquot]
        exact Nat.div_lt_of_lt_mul (by rwa [← Nat.pow_succ'])
      have hptr' : ptr ≠ 0 := by
        rintro rfl
        rw [hquot, Nat.pow_zero] at hroom
        omega
      obtain ⟨text, hrun, hnumeral, hlength, hnonzero⟩ := ih hroom hptr' (digit :: digits)
      rw [hquot] at hnumeral
      refine ⟨text ++ [digit], ?_, ?_, ?_, ?_⟩
      · rw [hrun, List.append_assoc, List.singleton_append]
      · rw [← hdiv]
        exact hnumeral.concat hpos hvalue hlt
      · simpa using hlength
      · intro b hb
        rcases List.mem_append.mp hb with hb | hb
        · exact hnonzero b hb
        · rw [List.mem_singleton.mp hb]
          exact hne

/-- `convert` stays in its buffer and returns the numeral of the number. -/
theorem convert_spec (num : BitVec 32) : ∃ str, convert num base = some str ∧
    str.bytes.length < 50 ∧ Numeral base.toNat num.toNat str.bytes := by
  have hfit : num.toNat < base.toNat ^ 49 :=
    calc num.toNat < 2 ^ 32 := num.isLt
      _ ≤ 2 ^ 49 := by decide
      _ ≤ base.toNat ^ 49 := Nat.pow_le_pow_left h2 49
  obtain ⟨text, hrun, hnumeral, hlength, hnonzero⟩ := convertFrom_spec h2 h16 hfit (by decide) []
  have hbytes : (CString.ofBytes text).bytes = text :=
    List.takeWhile_eq_self_iff.mpr fun b hb => decide_eq_true (hnonzero b hb)
  refine ⟨.ofBytes text, ?_, ?_, ?_⟩
  · rw [convert, hrun, List.append_nil]
    rfl
  · rw [hbytes]
    omega
  · rw [hbytes]
    exact hnumeral

end

end Sapphire
