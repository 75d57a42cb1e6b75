import Mathlib.Data.List.Basic
import Mathlib.Logic.Relation

/-! Runs of systems whose steps show events, and simulations between them: a relation that each step
of the one system keeps, while the other one shows the same events, is kept by whole runs.  And
steps that have to reach a goal. -/

namespace Machine

variable {S A E : Type*}

/-- A run and all the events in it. -/
inductive Run (step : S → List E → S → Prop) : S → List E → S → Prop
  | refl (s : S) : Run step s [] s
  | tail {s t u : S} {es fs : List E} (hrun : Run step s es t) (hstep : step t fs u) :
      Run step s (es ++ fs) u

namespace Run

variable {step : S → List E → S → Prop} {s t u : S} {es fs : List E}

theorem single (h : step s es t) : Run step s es t := (Run.refl s).tail h

theorem trans (h1 : Run step s es t) (h2 : Run step t fs u) : Run step s (es ++ fs) u := by
  induction h2 with
  | refl => exact (List.append_nil es).symm ▸ h1
  | tail _ hstep ih => exact List.append_assoc .. ▸ ih.tail hstep

/-- What every step keeps holds in every state of a run. -/
theorem invariant {P : S → Prop} (hstep : ∀ {s fs t}, P s → step s fs t → P t)
    (hrun : Run step s es t) (hs : P s) : P t := by
  induction hrun with
  | refl => exact hs
  | tail _ hlast ih => exact hstep ih hlast

/-- A relation that the steps keep, with the same events on both sides. -/
theorem simulates {astep : A → List E → A → Prop} {R : S → A → Prop}
    (hstep : ∀ {s fs t a}, R s a → step s fs t → ∃ b, Run astep a fs b ∧ R t b)
    (hrun : Run step s es t) {a : A} (hs : R s a) : ∃ b, Run astep a es b ∧ R t b := by
  induction hrun with
  | refl => exact ⟨a, Run.refl a, hs⟩
  | tail _ hlast ih =>
    obtain ⟨b, hab, hb⟩ := ih
    obtain ⟨c, hbc, hc⟩ := hstep hb hlast
    exact ⟨c, hab.trans hbc, hc⟩

end Run

/-- Steps that keep an invariant, and lower a bound until they are at a goal. -/
theorem exists_reaches {next : S → S → Prop} {inv goal : S → Prop} (bound : S → Nat)
    (hstep : ∀ s, inv s → goal s ∨ ∃ t, next s t ∧ inv t ∧ bound t < bound s) {s : S} (hs : inv s) :
    ∃ t, Relation.ReflTransGen next s t ∧ inv t ∧ goal t := by
  induction hn : bound s using Nat.strongRecOn generalizing s with
  | ind n ih =>
    obtain hgoal | ⟨t, hnext, ht, hlt⟩ := hstep s hs
    · exact ⟨s, .refl, hs, hgoal⟩
    · obtain ⟨u, hsteps, hu⟩ := ih _ (hn ▸ hlt) ht rfl
      exact ⟨u, .head hnext hsteps, hu⟩

end Machine
