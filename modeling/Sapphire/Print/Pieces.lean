import Sapphire.Print.Cursor
import Mathlib.Data.List.Forall2

/-! What `kprintf` prints, for formats that are literals with conversions between them: the text of
its pieces, which is printed character by character where no argument has a line break. -/

namespace Sapphire

/-- The bytes of a string literal. -/
def charBytes (s : String) : List (BitVec 8) := s.toList.map fun c => BitVec.ofNat 8 c.toNat

def CString.ofString (s : String) : CString := .ofChars s.toList

/-- A literal of a format, or a conversion with its argument. -/
inductive Piece where
  | lit (text : String)
  | dec (val : BitVec 32)
  | hex (val : BitVec 32)
  | str (s : CString)

/-- A string literal is a list of characters. -/
theorem forall_charBytes {P : BitVec 8 → Prop} [DecidablePred P] {l : List Char}
    (h : l.all (fun c => P (BitVec.ofNat 8 c.toNat)) = true) :
    ∀ b ∈ charBytes (.ofList l), P b := by
  rw [charBytes, String.toList_ofList]
  intro b hb
  obtain ⟨c, hc, rfl⟩ := List.mem_map.mp hb
  exact of_decide_eq_true (List.all_eq_true.mp h c hc)

theorem ofString_subset (s : String) : (CString.ofString s).bytes ⊆ charBytes s :=
  (List.takeWhile_prefix _).subset

namespace Piece

def format : Piece → List (BitVec 8)
  | lit text => charBytes text
  | dec _ => [percent, BitVec.ofNat 8 'd'.toNat]
  | hex _ => [percent, BitVec.ofNat 8 'x'.toNat]
  | str _ => [percent, BitVec.ofNat 8 's'.toNat]

def args : Piece → List VaArg
  | lit _ => []
  | dec val => [.int val]
  | hex val => [.int val]
  | str s => [.str (some s)]

/-- What a piece is printed as. -/
def Reads : Piece → List (BitVec 8) → Prop
  | lit text, out => out = charBytes text
  | dec val, out => SignedNumeral 10 val.toInt out
  | hex val, out => Numeral 16 val.toNat out
  | str s, out => out = s.bytes

/-- A literal without `%`, or a string without line breaks. -/
def Simple : Piece → Prop
  | lit text => ∀ b ∈ charBytes text, b ≠ percent
  | str s => ∀ b ∈ s.bytes, breaks b = false
  | _ => True

end Piece

/-- The text of the pieces, one after another. -/
def Reads (pieces : List Piece) (text : List (BitVec 8)) : Prop :=
  ∃ outs, List.Forall₂ Piece.Reads pieces outs ∧ outs.flatten = text

/-! ### Without line breaks -/

theorem lines_tail {text : List (BitVec 8)} (h : ∀ b ∈ text, breaks b = false) :
    (lines text).tail = [] := by
  induction text with
  | nil => rfl
  | cons b text ih =>
    rw [List.forall_mem_cons] at h
    rw [lines_cons h.1, List.tail_cons, ih h.2]

/-- A call that prints a string without line breaks, or a character. -/
def PrintCall.Flat : PrintCall → Prop
  | kputc _ => True
  | kprint str => ∀ b ∈ str.bytes, breaks b = false

theorem kprint_nonneg {con : Console} (hcol : 0 ≤ con.cursorCol) (s : CString) :
    0 ≤ (kprint con s).cursorCol := by
  rw [kprint_eq, advance_eq_penStep]
  exact foldl_penStep_nonneg (le_refl 0) hcol _

/-- Such calls print their characters one by one. -/
theorem foldl_flat {calls : List PrintCall} (h : ∀ call ∈ calls, call.Flat) {con : Console}
    (hcol : 0 ≤ con.cursorCol) :
    calls.foldl PrintCall.run con = (calls.flatMap PrintCall.chars).foldl kputc con := by
  induction calls generalizing con with
  | nil => rfl
  | cons call calls ih =>
    rw [List.forall_mem_cons] at h
    rw [List.foldl_cons, List.flatMap_cons, List.foldl_append]
    cases call with
    | kputc c => exact ih h.2 (kprint_nonneg hcol _)
    | kprint str =>
      have hchars : kprint con str = str.bytes.foldl kputc con :=
        (kprint_eq_foldl_kputc_iff hcol str).mpr (by simp [lines_tail h.1])
      rw [PrintCall.run, PrintCall.chars, ← hchars]
      exact ih h.2 (kprint_nonneg hcol _)

/-! ### Numerals -/

theorem digit_not_breaks {b : BitVec 8} {digit : Nat} (h : digitValue b = some digit) :
    breaks b = false := by
  refine Bool.eq_false_iff.mpr fun hbreaks => ?_
  rw [breaks, Bool.or_eq_true, decide_eq_true_iff, decide_eq_true_iff] at hbreaks
  rcases hbreaks with rfl | rfl <;> cases h

theorem numeral_not_breaks {base value : Nat} {text : List (BitVec 8)}
    (h : Numeral base value text) : ∀ b ∈ text, breaks b = false := by
  have hvalue := h.value
  rw [numeralValue] at hvalue
  generalize 0 = start at hvalue
  clear h
  induction text generalizing start with
  | nil => exact fun b hb => absurd hb List.not_mem_nil
  | cons b text ih =>
    rw [List.foldlM_cons] at hvalue
    cases hdigit : digitValue b with
    | none =>
      rw [hdigit] at hvalue
      cases hvalue
    | some digit =>
      rw [hdigit] at hvalue
      obtain ⟨next, -, hrest⟩ := Option.bind_eq_some_iff.mp hvalue
      exact List.forall_mem_cons.mpr ⟨digit_not_breaks hdigit, ih _ hrest⟩

theorem signedNumeral_not_breaks {base : Nat} {value : Int} {text : List (BitVec 8)}
    (h : SignedNumeral base value text) : ∀ b ∈ text, breaks b = false := by
  rw [SignedNumeral] at h
  split_ifs at h
  · obtain ⟨digits, rfl, hdigits⟩ := h
    exact List.forall_mem_cons.mpr ⟨rfl, numeral_not_breaks hdigits⟩
  · exact numeral_not_breaks h

/-! ### Formats -/

theorem closed_literal {format : List (BitVec 8)} (h : ∀ b ∈ format, b ≠ percent) :
    closed format = true ∧ conversions format = 0 := by
  induction format with
  | nil => exact ⟨rfl, rfl⟩
  | cons b format ih =>
    rw [List.forall_mem_cons] at h
    rw [closed_cons h.1, conversions_cons h.1]
    exact ih h.2

theorem flatMap_kputc (text : List (BitVec 8)) :
    (text.map PrintCall.kputc).flatMap PrintCall.chars = text := by
  induction text with
  | nil => rfl
  | cons b text ih => rw [List.map_cons, List.flatMap_cons, ih]; rfl

namespace Piece

variable {p : Piece}

/-- The conversion takes the argument. -/
theorem closed_format (h : p.Simple) :
    closed p.format = true ∧ p.args.length = conversions p.format := by
  cases p with
  | lit text =>
    obtain ⟨hclosed, hnone⟩ := closed_literal h
    exact ⟨hclosed, hnone.symm⟩
  | _ => exact ⟨rfl, rfl⟩

/-- The calls for one conversion. -/
theorem calls_conversion {c : BitVec 8} {arg : VaArg} {calls : List PrintCall}
    {take : VaArg → Except PrintFault (List PrintCall)} (hc : conversion c = some take)
    (hcalls : take arg = .ok calls) : kprintfCalls [percent, c] [arg] = .ok calls := by
  have hspec : specCalls [arg] c = .ok (calls, []) := by
    simp only [specCalls, hc, takeArg, hcalls]
    rfl
  rw [kprintfCalls_percent, hspec]
  simp only [Except.bind, Except.map, kprintfCalls, List.append_nil]

/-- One piece. -/
theorem calls (h : p.Simple) : ∃ calls, kprintfCalls p.format p.args = .ok calls ∧
    (∀ call ∈ calls, call.Flat) ∧ p.Reads (calls.flatMap PrintCall.chars) := by
  cases p with
  | lit text =>
    refine ⟨_, kprintfCalls_literal (fun hb => h _ hb rfl) _, fun call hcall => ?_,
      flatMap_kputc _⟩
    obtain ⟨b, -, rfl⟩ := List.mem_map.mp hcall
    exact trivial
  | dec val =>
    obtain ⟨calls, hcalls, hreads⟩ := signedCalls_spec val
    refine ⟨calls, calls_conversion rfl hcalls, fun call hcall => ?_, hreads⟩
    cases call with
    | kputc c => exact trivial
    | kprint str =>
      exact fun b hb => signedNumeral_not_breaks hreads b (List.mem_flatMap.mpr ⟨_, hcall, hb⟩)
  | hex val =>
    obtain ⟨str, hcalls, hreads⟩ := @numCalls_spec [] 16 (by decide) (by decide) val
    refine ⟨_, calls_conversion rfl hcalls, fun call hcall => ?_, ?_⟩
    · obtain rfl := List.mem_singleton.mp hcall
      exact numeral_not_breaks hreads
    · change Numeral 16 val.toNat (str.bytes ++ [])
      rw [List.append_nil]
      exact hreads
  | str s =>
    refine ⟨[.kprint s], rfl, fun call hcall => ?_, List.append_nil _⟩
    obtain rfl := List.mem_singleton.mp hcall
    exact h

end Piece

/-- All pieces of a format. -/
theorem calls_pieces {pieces : List Piece} (h : ∀ p ∈ pieces, p.Simple) :
    ∃ calls, kprintfCalls (pieces.flatMap Piece.format) (pieces.flatMap Piece.args) = .ok calls ∧
      (∀ call ∈ calls, call.Flat) ∧ Reads pieces (calls.flatMap PrintCall.chars) := by
  induction pieces with
  | nil => exact ⟨[], rfl, fun _ hcall => absurd hcall List.not_mem_nil, [], .nil, rfl⟩
  | cons p pieces ih =>
    rw [List.forall_mem_cons] at h
    obtain ⟨first, hfirst, hflat, hreads⟩ := p.calls h.1
    obtain ⟨rest, hrest, hflat', outs, houts, htext⟩ := ih h.2
    obtain ⟨hclosed, hargs⟩ := p.closed_format h.1
    refine ⟨first ++ rest, ?_, ?_, _ :: outs, .cons hreads houts, ?_⟩
    · rw [List.flatMap_cons, List.flatMap_cons, kprintfCalls_append hclosed hargs, hfirst, hrest]
      rfl
    · exact List.forall_mem_append.mpr ⟨hflat, hflat'⟩
    · rw [List.flatten_cons, htext, List.flatMap_append]

/-- What a console is after the text of the pieces has been printed on it, character by
character. -/
def Prints (con : Console) (pieces : List Piece) (result : Except PrintFault Console) : Prop :=
  ∃ text, Reads pieces text ∧ result = .ok (text.foldl kputc con)

theorem kprintf_prints {format : CString} {args : List VaArg} {pieces : List Piece}
    (hformat : format.bytes = pieces.flatMap Piece.format)
    (hargs : args = pieces.flatMap Piece.args) (h : ∀ p ∈ pieces, p.Simple) {con : Console}
    (hcol : 0 ≤ con.cursorCol) : Prints con pieces (kprintf con format args) := by
  obtain ⟨calls, hcalls, hflat, hreads⟩ := calls_pieces h
  refine ⟨_, hreads, ?_⟩
  rw [kprintf_eq, hformat, hargs, hcalls, ← foldl_flat hflat hcol]
  rfl

theorem foldl_kputc_nonneg {con : Console} (hcol : 0 ≤ con.cursorCol) (text : List (BitVec 8)) :
    0 ≤ (text.foldl kputc con).cursorCol := by
  induction text generalizing con with
  | nil => exact hcol
  | cons b text ih => exact ih (kprint_nonneg hcol _)

theorem Prints.append {con con' : Console} {p q : List Piece} {result : Except PrintFault Console}
    (h : Prints con p (.ok con')) (hq : Prints con' q result) : Prints con (p ++ q) result := by
  obtain ⟨text, ⟨outs, houts, rfl⟩, hcon⟩ := h
  obtain ⟨text', ⟨outs', houts', rfl⟩, hresult⟩ := hq
  obtain rfl := Except.ok.inj hcon
  refine ⟨_, ⟨outs ++ outs', List.rel_append houts houts', rfl⟩, hresult.trans ?_⟩
  rw [List.flatten_append, List.foldl_append]

theorem Prints.cursorCol_nonneg {con con' : Console} {p : List Piece} (h : Prints con p (.ok con'))
    (hcol : 0 ≤ con.cursorCol) : 0 ≤ con'.cursorCol := by
  obtain ⟨text, -, hcon⟩ := h
  obtain rfl := Except.ok.inj hcon
  exact foldl_kputc_nonneg hcol text

/-- One call after another. -/
theorem Prints.bind {con : Console} {p q : List Piece} {result : Except PrintFault Console}
    {more : Console → Except PrintFault Console} (h : Prints con p result)
    (hcol : 0 ≤ con.cursorCol)
    (hmore : ∀ con : Console, 0 ≤ con.cursorCol → Prints con q (more con)) :
    Prints con (p ++ q) (result >>= more) := by
  obtain ⟨text, hreads, rfl⟩ := h
  have hcol' := foldl_kputc_nonneg hcol text
  exact Prints.append ⟨text, hreads, rfl⟩ (hmore _ hcol')

/-- One call for each item of a list. -/
theorem prints_foldlM {α : Type*} {step : Console → α → Except PrintFault Console}
    {pieces : α → List Piece} {l : List α}
    (h : ∀ a ∈ l, ∀ con : Console, 0 ≤ con.cursorCol → Prints con (pieces a) (step con a))
    {con : Console} (hcol : 0 ≤ con.cursorCol) :
    Prints con (l.flatMap pieces) (l.foldlM step con) := by
  induction l generalizing con with
  | nil => exact ⟨[], ⟨[], .nil, rfl⟩, rfl⟩
  | cons a l ih =>
    rw [List.forall_mem_cons] at h
    exact (h.1 con hcol).bind hcol fun _ hcol' => ih h.2 hcol'

end Sapphire
