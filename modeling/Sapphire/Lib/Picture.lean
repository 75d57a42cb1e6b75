import Mathlib.Data.Set.Defs

/-! Pictures: what is painted at each place, where something is.  What is painted later lies over what
was there before.  `Paints` says what a program that has painted a picture shows: the picture where it
has something, and elsewhere what was shown before. -/

namespace Machine

/-- What is painted at each place, where something is. -/
abbrev Picture (κ α : Type*) := κ → Option α

namespace Picture

variable {κ α : Type*}

def blank : Picture κ α := fun _ => none

/-- Both pictures, `q` over `p`. -/
def atop (q p : Picture κ α) : Picture κ α := fun k => (q k).or (p k)

/-- The places of `R`, each as `c` has it. -/
def region (R : κ → Prop) [DecidablePred R] (c : κ → α) : Picture κ α :=
  fun k => if R k then some (c k) else none

/-- One place. -/
def dot [DecidableEq κ] (k : κ) (a : α) : Picture κ α := region (fun j => j = k) fun _ => a

theorem atop_blank (p : Picture κ α) : p.atop blank = p := funext fun _ => Option.or_none

theorem blank_atop (p : Picture κ α) : blank.atop p = p := funext fun _ => Option.none_or

theorem atop_assoc (p q r : Picture κ α) : (r.atop q).atop p = r.atop (q.atop p) :=
  funext fun _ => Option.or_assoc

theorem dot_atop [DecidableEq κ] (k : κ) (a : α) (p : Picture κ α) (j : κ) :
    ((dot k a).atop p) j = if j = k then some a else p j := by
  rw [atop, dot, region]
  by_cases h : j = k
  · rw [if_pos h, if_pos h, Option.some_or]
  · rw [if_neg h, if_neg h, Option.none_or]

theorem dot_eq_region [DecidableEq κ] (k : κ) (c : κ → α) :
    dot k (c k) = region (fun j => j = k) c := by
  funext j
  rw [dot, region, region]
  by_cases h : j = k
  · rw [if_pos h, if_pos h, h]
  · rw [if_neg h, if_neg h]

theorem region_empty {R : κ → Prop} [DecidablePred R] (h : ∀ j, ¬ R j) (c : κ → α) :
    region R c = blank :=
  funext fun j => if_neg (h j)

/-- Two regions of one painting. -/
theorem region_atop_region {R S T : κ → Prop} [DecidablePred R] [DecidablePred S] [DecidablePred T]
    {c : κ → α} (h : ∀ j, T j ↔ S j ∨ R j) : region T c = (region S c).atop (region R c) := by
  funext j
  rw [atop, region, region, region]
  by_cases hS : S j
  · rw [if_pos ((h j).mpr (.inl hS)), if_pos hS, Option.some_or]
  · rw [if_neg hS, Option.none_or]
    by_cases hR : R j
    · rw [if_pos ((h j).mpr (.inr hR)), if_pos hR]
    · rw [if_neg (fun hT => ((h j).mp hT).elim hS hR), if_neg hR]

end Picture

section

variable {σ κ α β : Type*}

/-- From `s` to `s'` the picture `p` has been painted, as far as it is on the screen. -/
def Paints (on : Set κ) (view : σ → κ → β) (code : α → β) (p : Picture κ α) (s s' : σ) : Prop :=
  ∀ k ∈ on, view s' k = (p k).elim (view s k) code

namespace Paints

variable {on : Set κ} {view : σ → κ → β} {code : α → β} {p q : Picture κ α} {s s' s'' : σ}

theorem blank (s : σ) : Paints on view code .blank s s := fun _ _ => rfl

theorem trans (h1 : Paints on view code p s s') (h2 : Paints on view code q s' s'') :
    Paints on view code (q.atop p) s s'' := by
  intro k hk
  rw [h2 k hk, h1 k hk, Picture.atop]
  cases q k <;> rfl

end Paints

end

end Machine
