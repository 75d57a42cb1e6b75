import Sapphire.Print.Numeral

/-! What `kprintf` prints: the calls of `kputc` and `kprint` that it makes, and the stream of
characters that it sends to them.  The calls for a format are those for its first part followed by
those for the rest, each with its own arguments. -/

namespace Sapphire

open Machine

/-- A call that `kprintf` makes. -/
inductive PrintCall where
  | kputc (c : BitVec 8)
  | kprint (str : CString)

namespace PrintCall

def chars : PrintCall → List (BitVec 8)
  | kputc c => [c]
  | kprint str => str.bytes

def run (con : Console) : PrintCall → Console
  | kputc c => Sapphire.kputc con c
  | kprint str => Sapphire.kprint con str

end PrintCall

/-- `kprint(convert(val, base))`, after what prints the sign. -/
def numCalls (sign : List PrintCall) (base val : BitVec 32) : Except PrintFault (List PrintCall) :=
  match convert val base with
  | some str => .ok (sign ++ [.kprint str])
  | none => .error .buffer

/-- `%d` -/
def signedCalls (val : BitVec 32) : Except PrintFault (List PrintCall) :=
  if val.toInt < 0 then numCalls [.kputc (BitVec.ofNat 8 '-'.toNat)] 10 (-val)
  else numCalls [] 10 val

def intArg (calls : BitVec 32 → Except PrintFault (List PrintCall)) :
    VaArg → Except PrintFault (List PrintCall)
  | .int val => calls val
  | .str _ => .error .vaArg

def strArg (calls : Option CString → Except PrintFault (List PrintCall)) :
    VaArg → Except PrintFault (List PrintCall)
  | .int _ => .error .vaArg
  | .str s => calls s

/-- The calls for an argument with the byte after a `%`, where that takes an argument. -/
def conversion (b : BitVec 8) : Option (VaArg → Except PrintFault (List PrintCall)) :=
  if b = BitVec.ofNat 8 'c'.toNat then some (intArg fun c => .ok [.kputc (c.setWidth 8)])
  else if b = BitVec.ofNat 8 'd'.toNat then some (intArg signedCalls)
  else if b = BitVec.ofNat 8 'u'.toNat then some (intArg (numCalls [] 10))
  else if b = BitVec.ofNat 8 'o'.toNat then some (intArg (numCalls [] 8))
  else if b = BitVec.ofNat 8 's'.toNat then
    some (strArg fun s => .ok [.kprint (s.getD (.ofChars ['(', 'n', 'u', 'l', 'l', ')']))])
  else if b = BitVec.ofNat 8 'x'.toNat then some (intArg (numCalls [] 16))
  else none

/-- The calls for the next argument, and the arguments left. -/
def takeArg (calls : VaArg → Except PrintFault (List PrintCall)) :
    List VaArg → Except PrintFault (List PrintCall × List VaArg)
  | [] => .error .vaArg
  | arg :: args => (calls arg).map fun calls => (calls, args)

/-- The calls for the byte after a `%`, and the arguments left. -/
def specCalls (args : List VaArg) (b : BitVec 8) :
    Except PrintFault (List PrintCall × List VaArg) :=
  match conversion b with
  | some calls => takeArg calls args
  | none => .ok (if b = percent then [.kputc percent] else [.kputc percent, .kputc b], args)

/-- The calls that `kprintf` makes for a format, in order. -/
def kprintfCalls : List (BitVec 8) → List VaArg → Except PrintFault (List PrintCall)
  | [], _ => .ok []
  | [b], _ => .ok (if b = percent then [] else [.kputc b])
  | b :: c :: format, args =>
    if b ≠ percent then do
      let calls ← kprintfCalls (c :: format) args
      .ok (.kputc b :: calls)
    else do
      let (calls, args) ← specCalls args c
      let rest ← kprintfCalls format args
      .ok (calls ++ rest)

/-- The characters that `kprintf` sends to `kputc` and `kprint`. -/
def kprintfStream (format : CString) (args : List VaArg) : Except PrintFault (List (BitVec 8)) :=
  (kprintfCalls format.bytes args).map fun calls => calls.flatMap PrintCall.chars

/-! ### The calls make what `kprintf` makes -/

theorem kprintNum_eq (con : Console) (sign : List PrintCall) (base val : BitVec 32) :
    kprintNum (sign.foldl PrintCall.run con) val base =
      (numCalls sign base val).map fun calls => calls.foldl PrintCall.run con := by
  unfold kprintNum numCalls
  cases convert val base with
  | none => rfl
  | some str =>
    simp only [Except.map, List.foldl_append]
    rfl

/-- An `int` that is taken and printed. -/
theorem vaInt_eq {con : Console} {print : BitVec 32 → Except PrintFault Console}
    {calls : BitVec 32 → Except PrintFault (List PrintCall)}
    (h : ∀ val, print val = (calls val).map fun calls => calls.foldl PrintCall.run con)
    (args : List VaArg) :
    (do
      let (val, args) ← vaInt args
      .ok (← print val, args)) =
      (takeArg (intArg calls) args).map fun r => (r.1.foldl PrintCall.run con, r.2) := by
  rcases args with _ | ⟨val | s, args⟩
  · rfl
  · show (do .ok (← print val, args)) = ((calls val).map _).map _
    rw [h]
    cases calls val <;> rfl
  · rfl

theorem kprintfSpec_eq (con : Console) (args : List VaArg) (b : BitVec 8) :
    kprintfSpec con args b =
      (specCalls args b).map fun r => (r.1.foldl PrintCall.run con, r.2) := by
  have hnum := fun base val => kprintNum_eq con [] base val
  have hsigned : ∀ val : BitVec 32, kprintNum
      (if val.toInt < 0 then kputc con (BitVec.ofNat 8 '-'.toNat) else con)
      (if val.toInt < 0 then -val else val) 10 =
      (signedCalls val).map fun calls => calls.foldl PrintCall.run con := by
    intro val
    unfold signedCalls
    split_ifs
    · exact kprintNum_eq con [.kputc (BitVec.ofNat 8 '-'.toNat)] 10 (-val)
    · exact hnum 10 val
  unfold kprintfSpec specCalls conversion
  by_cases hc : b = BitVec.ofNat 8 'c'.toNat
  · simp only [if_pos hc]
    exact @vaInt_eq con (fun c => .ok (kputc con (c.setWidth 8))) _ (fun _ => rfl) args
  by_cases hd : b = BitVec.ofNat 8 'd'.toNat
  · simp only [if_neg hc, if_pos hd]
    exact vaInt_eq hsigned args
  by_cases hu : b = BitVec.ofNat 8 'u'.toNat
  · simp only [if_neg hc, if_neg hd, if_pos hu]
    exact vaInt_eq (hnum 10) args
  by_cases ho : b = BitVec.ofNat 8 'o'.toNat
  · simp only [if_neg hc, if_neg hd, if_neg hu, if_pos ho]
    exact vaInt_eq (hnum 8) args
  by_cases hs : b = BitVec.ofNat 8 's'.toNat
  · simp only [if_neg hc, if_neg hd, if_neg hu, if_neg ho, if_pos hs]
    rcases args with _ | ⟨_ | _, args⟩ <;> rfl
  by_cases hx : b = BitVec.ofNat 8 'x'.toNat
  · simp only [if_neg hc, if_neg hd, if_neg hu, if_neg ho, if_neg hs, if_pos hx]
    exact vaInt_eq (hnum 16) args
  · simp only [if_neg hc, if_neg hd, if_neg hu, if_neg ho, if_neg hs, if_neg hx]
    by_cases hp : b = percent
    · rw [if_pos hp, if_pos hp]
      rfl
    · rw [if_neg hp, if_neg hp]
      rfl

theorem kprintfCalls_cons {b : BitVec 8} (hb : b ≠ percent) (format : List (BitVec 8))
    (args : List VaArg) :
    kprintfCalls (b :: format) args = (kprintfCalls format args).map (.kputc b :: ·) := by
  cases format with
  | nil =>
    rw [kprintfCalls.eq_def [b], kprintfCalls]
    simp only [if_neg hb]
    rfl
  | cons c format =>
    rw [kprintfCalls, if_pos hb]
    rfl

theorem kprintfCalls_percent (c : BitVec 8) (format : List (BitVec 8)) (args : List VaArg) :
    kprintfCalls (percent :: c :: format) args =
      (specCalls args c).bind fun r => (kprintfCalls format r.2).map (r.1 ++ ·) := by
  rw [kprintfCalls, if_neg (by simp)]
  rfl

theorem read_lt (format : CString) {i : Nat} (hi : i < format.bytes.length) :
    format.read i = some format.bytes[i] := by
  rw [CString.read, List.getElem?_append_left hi, List.getElem?_eq_getElem hi]

theorem read_end (format : CString) : format.read format.bytes.length = some 0 := by
  rw [CString.read, List.getElem?_append_right (le_refl _), Nat.sub_self]
  rfl

/-- The loop of `kprintf` from index `i` on makes the calls for the rest of the format. -/
theorem kprintfFrom_eq (format : CString) {fuel i : Nat} (hi : i ≤ format.bytes.length)
    (hfuel : format.bytes.length < fuel + i) (con : Console) (args : List VaArg) :
    kprintfFrom format fuel i con args =
      (kprintfCalls (format.bytes.drop i) args).map fun calls =>
        calls.foldl PrintCall.run con := by
  induction fuel generalizing i con args with
  | zero => omega
  | succ fuel ih =>
    rw [kprintfFrom]
    rcases Nat.lt_or_eq_of_le hi with hlt | rfl
    · have hzero := format.nonzero _ (List.getElem_mem hlt)
      rw [read_lt format hlt, List.drop_eq_getElem_cons hlt]
      simp only [hzero, if_false]
      by_cases hb : format.bytes[i] = percent
      · rw [if_neg (not_not.mpr hb), hb]
        rcases Nat.lt_or_ge (i + 1) format.bytes.length with hnext | hlast
        · have hzero := format.nonzero _ (List.getElem_mem hnext)
          rw [read_lt format hnext, List.drop_eq_getElem_cons hnext, kprintfCalls_percent]
          simp only [hzero, if_false, kprintfSpec_eq]
          cases specCalls args format.bytes[i + 1] with
          | error fault => rfl
          | ok r =>
            refine (ih (by omega) (by omega) _ _).trans ?_
            show _ = ((kprintfCalls (format.bytes.drop (i + 2)) r.2).map (r.1 ++ ·)).map _
            cases kprintfCalls (format.bytes.drop (i + 2)) r.2 with
            | error fault => rfl
            | ok calls => simp only [Except.map, List.foldl_append]
        · -- a `%` before the NUL
          have hend : i + 1 = format.bytes.length := by omega
          rw [hend, read_end, List.drop_length]
          rfl
      · rw [if_pos hb, ih (by omega) (by omega), kprintfCalls_cons hb]
        cases kprintfCalls (format.bytes.drop (i + 1)) args <;> rfl
    · rw [read_end, List.drop_length, kprintfCalls]
      rfl

/-- `kprintf` makes the calls for its format. -/
theorem kprintf_eq (con : Console) (format : CString) (args : List VaArg) :
    kprintf con format args = (kprintfCalls format.bytes args).map fun calls =>
      calls.foldl PrintCall.run con :=
  kprintfFrom_eq format (Nat.zero_le _) (by omega) con args

/-! ### Formats in two parts -/

/-- The format does not end in a `%` that nothing follows. -/
def closed : List (BitVec 8) → Bool
  | [] => true
  | [b] => b ≠ percent
  | b :: c :: format => if b ≠ percent then closed (c :: format) else closed format

/-- The byte takes an argument after a `%`. -/
def takesArg (c : BitVec 8) : Bool :=
  c ∈ ['c', 'd', 'u', 'o', 's', 'x'].map fun c => BitVec.ofNat 8 c.toNat

/-- The number of arguments that a format takes. -/
def conversions : List (BitVec 8) → Nat
  | [] => 0
  | [_] => 0
  | b :: c :: format =>
    if b ≠ percent then conversions (c :: format)
    else (if takesArg c then 1 else 0) + conversions format

theorem closed_cons {b : BitVec 8} (hb : b ≠ percent) (format : List (BitVec 8)) :
    closed (b :: format) = closed format := by
  cases format with
  | nil => exact decide_eq_true hb
  | cons c format => rw [closed, if_pos hb]

theorem conversions_cons {b : BitVec 8} (hb : b ≠ percent) (format : List (BitVec 8)) :
    conversions (b :: format) = conversions format := by
  cases format with
  | nil => rfl
  | cons c format => rw [conversions, if_pos hb]

theorem isSome_conversion (c : BitVec 8) : (conversion c).isSome = takesArg c := by
  unfold conversion takesArg
  split_ifs <;> simp_all

/-- The byte after a `%` takes its argument from the front, and leaves the others. -/
theorem specCalls_append {c : BitVec 8} {args : List VaArg}
    (hargs : (if takesArg c then 1 else 0) ≤ args.length) (more : List VaArg) :
    specCalls (args ++ more) c = (specCalls args c).map fun r => (r.1, r.2 ++ more) := by
  rw [← isSome_conversion] at hargs
  unfold specCalls
  cases hc : conversion c with
  | none => rfl
  | some calls =>
    cases args with
    | nil => simp [hc] at hargs
    | cons arg args =>
      simp only [List.cons_append, takeArg]
      cases calls arg <;> rfl

theorem length_specCalls {c : BitVec 8} {args : List VaArg} {r : List PrintCall × List VaArg}
    (h : specCalls args c = .ok r) :
    args.length = (if takesArg c then 1 else 0) + r.2.length := by
  rw [← isSome_conversion]
  unfold specCalls at h
  cases hc : conversion c with
  | none =>
    rw [hc] at h
    cases h
    simp
  | some calls =>
    rw [hc] at h
    cases args with
    | nil => cases h
    | cons arg args =>
      simp only [takeArg] at h
      cases hcalls : calls arg with
      | error fault =>
        rw [hcalls] at h
        cases h
      | ok made =>
        rw [hcalls] at h
        cases h
        simp [Nat.add_comm]

/-- The calls for a format are those for its first part, with the arguments that this takes, and
those for the rest. -/
theorem kprintfCalls_append {f : List (BitVec 8)} (hf : closed f = true) {args : List VaArg}
    (hargs : args.length = conversions f) (g : List (BitVec 8)) (more : List VaArg) :
    kprintfCalls (f ++ g) (args ++ more) =
      (kprintfCalls f args).bind fun calls => (kprintfCalls g more).map (calls ++ ·) := by
  -- a literal character, whether it is the last one or not
  have hliteral : ∀ {b : BitVec 8} {format : List (BitVec 8)} {args : List VaArg}, b ≠ percent →
      kprintfCalls (format ++ g) (args ++ more) =
        ((kprintfCalls format args).bind fun calls => (kprintfCalls g more).map (calls ++ ·)) →
      kprintfCalls (b :: format ++ g) (args ++ more) =
        (kprintfCalls (b :: format) args).bind fun calls =>
          (kprintfCalls g more).map (calls ++ ·) := by
    intro b format args hb h
    rw [List.cons_append, kprintfCalls_cons hb, kprintfCalls_cons hb, h]
    cases kprintfCalls format args with
    | error fault => rfl
    | ok calls =>
      simp only [Except.bind, Except.map]
      cases kprintfCalls g more <;> rfl
  have hnil : ∀ {args : List VaArg}, args.length = conversions [] →
      kprintfCalls ([] ++ g) (args ++ more) =
        (kprintfCalls [] args).bind fun calls => (kprintfCalls g more).map (calls ++ ·) := by
    intro args hargs
    rw [List.length_eq_zero_iff.mp hargs, List.nil_append, List.nil_append, kprintfCalls]
    cases kprintfCalls g more <;> rfl
  induction f using closed.induct generalizing args with
  | case1 => exact hnil hargs
  | case2 b => exact hliteral (of_decide_eq_true hf) (hnil hargs)
  | case3 b c format hb ih =>
    rw [closed_cons hb] at hf
    rw [conversions_cons hb] at hargs
    exact hliteral hb (ih hf hargs)
  | case4 b c format hb ih =>
    obtain rfl : b = percent := not_not.mp hb
    rw [closed, if_neg hb] at hf
    rw [conversions, if_neg hb] at hargs
    rw [List.cons_append, List.cons_append, kprintfCalls_percent, kprintfCalls_percent,
      specCalls_append (by omega)]
    cases hspec : specCalls args c with
    | error fault => rfl
    | ok r =>
      have hlength := length_specCalls hspec
      simp only [Except.bind, Except.map]
      rw [ih hf (by omega)]
      cases kprintfCalls format r.2 with
      | error fault => rfl
      | ok calls =>
        simp only [Except.bind, Except.map]
        cases kprintfCalls g more with
        | error fault => rfl
        | ok rest => simp only [List.append_assoc]

section

variable {f : CString} {args : List VaArg}

theorem kprintfStream_append (hf : closed f.bytes = true)
    (hargs : args.length = conversions f.bytes) (g : CString) (more : List VaArg) :
    kprintfStream (f ++ g) (args ++ more) =
      (kprintfStream f args).bind fun s => (kprintfStream g more).map (s ++ ·) := by
  have happend := kprintfCalls_append hf hargs g.bytes more
  rw [kprintfStream, kprintfStream, kprintfStream, show (f ++ g).bytes = f.bytes ++ g.bytes from rfl,
    happend]
  cases kprintfCalls f.bytes args with
  | error fault => rfl
  | ok calls =>
    cases kprintfCalls g.bytes more with
    | error fault => rfl
    | ok rest => simp only [Except.bind, Except.map, List.flatMap_append]

theorem kprintf_append (hf : closed f.bytes = true) (hargs : args.length = conversions f.bytes)
    (g : CString) (more : List VaArg) (con : Console) :
    kprintf con (f ++ g) (args ++ more) =
      (kprintf con f args).bind fun con => kprintf con g more := by
  have happend := kprintfCalls_append hf hargs g.bytes more
  rw [kprintf_eq, kprintf_eq, show (f ++ g).bytes = f.bytes ++ g.bytes from rfl, happend]
  cases kprintfCalls f.bytes args with
  | error fault => rfl
  | ok calls =>
    simp only [Except.bind, Except.map, kprintf_eq]
    cases kprintfCalls g.bytes more with
    | error fault => rfl
    | ok rest => simp only [List.foldl_append]

end

/-- A `%` before a byte that takes no argument. -/
theorem kprintfStream_other {z : CString} {c : BitVec 8} (hz : z.bytes = [percent, c])
    (hc : takesArg c = false) (args : List VaArg) :
    kprintfStream z args = .ok (if c = percent then [percent] else [percent, c]) := by
  have hnone : conversion c = none := by
    rw [← Option.not_isSome_iff_eq_none, isSome_conversion, hc]
    exact Bool.false_ne_true
  rw [kprintfStream, hz, kprintfCalls_percent, specCalls, hnone]
  by_cases hp : c = percent
  · simp only [if_pos hp]
    rfl
  · simp only [if_neg hp]
    rfl

/-! ### What can go wrong -/

section

variable {ε α β : Type} {x : Except ε α} {e : ε}

theorem map_eq_error {f : α → β} : x.map f = .error e ↔ x = .error e := by
  cases x <;> simp [Except.map]

theorem bind_eq_error {f : α → Except ε β} :
    x.bind f = .error e ↔ x = .error e ∨ ∃ a, x = .ok a ∧ f a = .error e := by
  cases x <;> simp [Except.bind]

end

/-- A number is printed as its numeral. -/
theorem numCalls_spec (sign : List PrintCall) {base : BitVec 32} (h2 : 2 ≤ base.toNat)
    (h16 : base.toNat ≤ 16) (val : BitVec 32) : ∃ str, numCalls sign base val =
      .ok (sign ++ [.kprint str]) ∧ Numeral base.toNat val.toNat str.bytes := by
  obtain ⟨str, hconvert, -, hnumeral⟩ := convert_spec h2 h16 val
  refine ⟨str, ?_, hnumeral⟩
  rw [numCalls, hconvert]

/-- `%d` prints a numeral for every value, the least one included. -/
theorem signedCalls_spec (val : BitVec 32) : ∃ calls, signedCalls val = .ok calls ∧
    SignedNumeral 10 val.toInt (calls.flatMap PrintCall.chars) := by
  unfold signedCalls SignedNumeral
  split_ifs with hneg
  · obtain ⟨str, hcalls, hnumeral⟩ := @numCalls_spec
      [.kputc (BitVec.ofNat 8 '-'.toNat)] 10 (by decide) (by decide) (-val)
    refine ⟨_, hcalls, str.bytes, by simp [PrintCall.chars], ?_⟩
    have habs : (-val).toNat = val.toInt.natAbs := by
      rw [BitVec.toInt_eq_toNat_cond] at hneg ⊢
      rw [BitVec.toNat_neg]
      split_ifs at hneg ⊢ <;> omega
    rw [← habs]
    exact hnumeral
  · obtain ⟨str, hcalls, hnumeral⟩ := @numCalls_spec [] 10 (by decide) (by decide) val
    refine ⟨_, hcalls, ?_⟩
    have habs : val.toNat = val.toInt.natAbs := by
      rw [BitVec.toInt_eq_toNat_cond] at hneg ⊢
      split_ifs at hneg ⊢ <;> omega
    rw [← habs]
    simpa [PrintCall.chars] using hnumeral

theorem intArg_fault {calls : BitVec 32 → Except PrintFault (List PrintCall)}
    (hcalls : ∀ val, ∃ made, calls val = .ok made) {arg : VaArg} {fault : PrintFault}
    (h : intArg calls arg = .error fault) : fault = .vaArg := by
  cases arg with
  | int val =>
    obtain ⟨made, hmade⟩ := hcalls val
    rw [intArg, hmade] at h
    cases h
  | str s =>
    cases h
    rfl

/-- A conversion goes wrong only with an argument of another type. -/
theorem conversion_fault {c : BitVec 8} {calls : VaArg → Except PrintFault (List PrintCall)}
    (hc : conversion c = some calls) {arg : VaArg} {fault : PrintFault}
    (h : calls arg = .error fault) : fault = .vaArg := by
  have hnum : ∀ {base : BitVec 32}, 2 ≤ base.toNat → base.toNat ≤ 16 →
      ∀ val, ∃ made, numCalls [] base val = .ok made := by
    intro base h2 h16 val
    obtain ⟨str, hcalls, -⟩ := numCalls_spec [] h2 h16 val
    exact ⟨_, hcalls⟩
  have hsigned : ∀ val, ∃ made, signedCalls val = .ok made := by
    intro val
    obtain ⟨calls, hcalls, -⟩ := signedCalls_spec val
    exact ⟨calls, hcalls⟩
  unfold conversion at hc
  split_ifs at hc <;> cases hc
  · exact intArg_fault (fun _ => ⟨_, rfl⟩) h
  · exact intArg_fault hsigned h
  · exact intArg_fault (hnum (by decide) (by decide)) h
  · exact intArg_fault (hnum (by decide) (by decide)) h
  · cases arg with
    | int val =>
      cases h
      rfl
    | str s => cases h
  · exact intArg_fault (hnum (by decide) (by decide)) h

theorem specCalls_fault {args : List VaArg} {c : BitVec 8} {fault : PrintFault}
    (h : specCalls args c = .error fault) : fault = .vaArg := by
  unfold specCalls at h
  cases hc : conversion c with
  | none =>
    rw [hc] at h
    cases h
  | some calls =>
    rw [hc] at h
    cases args with
    | nil =>
      cases h
      rfl
    | cons arg args =>
      exact conversion_fault hc (map_eq_error.mp h)

theorem kprintfCalls_fault {format : List (BitVec 8)} {args : List VaArg} {fault : PrintFault}
    (h : kprintfCalls format args = .error fault) : fault = .vaArg := by
  induction format using closed.induct generalizing args with
  | case1 => cases h
  | case2 b => cases h
  | case3 b c format hb ih =>
    rw [kprintfCalls_cons hb, map_eq_error] at h
    exact ih h
  | case4 b c format hb ih =>
    obtain rfl : b = percent := not_not.mp hb
    rw [kprintfCalls_percent, bind_eq_error] at h
    rcases h with h | ⟨r, -, h⟩
    · exact specCalls_fault h
    · exact ih (map_eq_error.mp h)

/-- `kprintf` goes wrong only with arguments that are missing or of another type. -/
theorem kprintf_fault {con : Console} {format : CString} {args : List VaArg} {fault : PrintFault}
    (h : kprintf con format args = .error fault) : fault = .vaArg := by
  rw [kprintf_eq, map_eq_error] at h
  exact kprintfCalls_fault h

/-! ### Main results -/

/-- `kprintf` of a format in two parts, the first of which does not end in a single `%`, prints what
it prints for the first part with the arguments that this takes, and then what it prints for the
second; a `%` before any other byte takes no argument and is printed with it, and `%%` is printed as
`%`.  And it never reads past the NUL. -/
theorem kprintf_composes :
    (∀ (f g : CString) (A B : List VaArg), closed f.bytes = true → A.length = conversions f.bytes →
      kprintfStream (f ++ g) (A ++ B) =
        ((kprintfStream f A).bind fun s => (kprintfStream g B).map (s ++ ·)) ∧
      ∀ con, kprintf con (f ++ g) (A ++ B) =
        (kprintf con f A).bind fun con => kprintf con g B) ∧
    (∀ (z : CString) (c : BitVec 8) (args : List VaArg), z.bytes = [percent, c] →
      takesArg c = false →
      kprintfStream z args = .ok (if c = percent then [percent] else [percent, c])) ∧
    ∀ (con : Console) (format : CString) (args : List VaArg),
      kprintf con format args ≠ .error .overread := by
  refine ⟨fun f g A B hf hA => ?_, fun z c args hz hc => kprintfStream_other hz hc args,
    fun con format args h => ?_⟩
  · exact ⟨kprintfStream_append hf hA g B, kprintf_append hf hA g B⟩
  · cases kprintf_fault h

/-- A format with a conversion, an unknown one and a `%%` before another with a single `%` at its
end. -/
theorem kprintf_composes_unknown :
    let f : CString := .ofChars ['%', 'c', '%', 'z', '%', '%']
    let g : CString := .ofChars ['%', 'c', '%']
    kprintfStream (f ++ g) [.int 0x41, .int 0x42] =
      .ok ([0x41, 0x25, 0x7A, 0x25] ++ [0x42]) := by
  intro f g
  obtain ⟨happend, -, -⟩ := kprintf_composes
  exact (happend f g [.int 0x41] [.int 0x42] (by decide) (by decide)).1

/-- `convert` returns the numeral of its argument in any base that it has digits for, and stays inside
its buffer; and `%d` prints the numeral of an `int`, with its sign. -/
theorem printed_numerals :
    (∀ num base : BitVec 32, 2 ≤ base.toNat → base.toNat ≤ 16 →
      ∃ str, convert num base = some str ∧ str.bytes.length < 50 ∧
        Numeral base.toNat num.toNat str.bytes) ∧
    ∀ val : BitVec 32, ∃ text, kprintfStream (.ofChars ['%', 'd']) [.int val] = .ok text ∧
      SignedNumeral 10 val.toInt text := by
  refine ⟨fun num base h2 h16 => convert_spec h2 h16 num, fun val => ?_⟩
  obtain ⟨calls, hcalls, hsigned⟩ := signedCalls_spec val
  have hspec : specCalls [.int val] (BitVec.ofNat 8 'd'.toNat) = .ok (calls, []) := by
    show (signedCalls val).map _ = _
    rw [hcalls]
    rfl
  refine ⟨_, ?_, hsigned⟩
  rw [kprintfStream, show (CString.ofChars ['%', 'd']).bytes = [percent, BitVec.ofNat 8 'd'.toNat]
    from rfl, kprintfCalls_percent, hspec]
  simp only [Except.bind, Except.map, kprintfCalls, List.append_nil]

/-- The least `int`. -/
theorem printed_numerals_least :
    (∃ str, convert 0x80000000 16 = some str ∧ str.bytes.length < 50 ∧
      Numeral 16 0x80000000 str.bytes) ∧
    ∃ text, kprintfStream (.ofChars ['%', 'd']) [.int 0x80000000] = .ok text ∧
      SignedNumeral 10 (-2147483648) text := by
  obtain ⟨hconvert, hsigned⟩ := printed_numerals
  exact ⟨hconvert 0x80000000 16 (by decide) (by decide), hsigned 0x80000000⟩

end Sapphire
