import Mathlib.Logic.Relation

/-! A program of steps that an environment may act between.  `Guarantees` says what holds in every
interleaving: every state is safe, and a condition holds whenever the program has ended.  It is
proved forwards, one step after another, with a condition for each point of the program that the
environment keeps. -/

namespace Machine

open Relation

variable {σ α : Type*}

/-- However the environment acts before, between and after the steps, every state from `s` on is
safe, and at the end `post` holds. -/
def Guarantees (act : α → σ → σ) (env : σ → σ → Prop) (safe post : σ → Prop) : List α → σ → Prop
  | [], s => ∀ s', ReflTransGen env s s' → safe s' ∧ post s'
  | a :: todo, s => ∀ s', ReflTransGen env s s' →
      safe s' ∧ Guarantees act env safe post todo (act a s')

/-- A condition that the environment keeps and that is enough to be safe. -/
structure Stable (env : σ → σ → Prop) (safe P : σ → Prop) : Prop where
  env : ∀ s s', P s → env s s' → P s'
  safe : ∀ s, P s → safe s

variable {act : α → σ → σ} {env : σ → σ → Prop} {safe P Q : σ → Prop} {todo : List α} {s s' : σ}

theorem Stable.run (hP : Stable env safe P) (hs : P s) (hrun : ReflTransGen env s s') : P s' := by
  induction hrun with
  | refl => exact hs
  | tail _ hlast ih => exact hP.env _ _ ih hlast

namespace Guarantees

theorem nil (hP : Stable env safe P) (hs : P s) : Guarantees act env safe P [] s :=
  fun s' hrun => ⟨hP.safe s' (hP.run hs hrun), hP.run hs hrun⟩

/-- One more step at the end. -/
theorem snoc (hQ : Stable env safe Q) {a : α} (h : Guarantees act env safe P todo s)
    (hstep : ∀ s, P s → Q (act a s)) : Guarantees act env safe Q (todo ++ [a]) s := by
  induction todo generalizing s with
  | nil =>
    intro s' hrun
    obtain ⟨hsafe, hpost⟩ := h s' hrun
    exact ⟨hsafe, nil hQ (hstep s' hpost)⟩
  | cons b todo ih =>
    intro s' hrun
    obtain ⟨hsafe, hrest⟩ := h s' hrun
    exact ⟨hsafe, ih hrest⟩

theorem mono (h : Guarantees act env safe P todo s) (hPQ : ∀ s, P s → Q s) :
    Guarantees act env safe Q todo s := by
  induction todo generalizing s with
  | nil => exact fun s' hrun => ⟨(h s' hrun).1, hPQ s' (h s' hrun).2⟩
  | cons a todo ih => exact fun s' hrun => ⟨(h s' hrun).1, ih (h s' hrun).2⟩

theorem env_step (h : Guarantees act env safe P todo s) (hstep : env s s') :
    Guarantees act env safe P todo s' := by
  cases todo with
  | nil => exact fun t hrun => h t (hrun.head hstep)
  | cons a todo => exact fun t hrun => h t (hrun.head hstep)

theorem act_step {a : α} (h : Guarantees act env safe P (a :: todo) s) :
    Guarantees act env safe P todo (act a s) := (h s .refl).2

theorem safe_now (h : Guarantees act env safe P todo s) : safe s := by
  cases todo with
  | nil => exact (h s .refl).1
  | cons a todo => exact (h s .refl).1

theorem post_now (h : Guarantees act env safe P [] s) : P s := (h s .refl).2

/-- Without the environment the program ends in a state with the condition. -/
theorem post_foldl (h : Guarantees act env safe P todo s) :
    P (todo.foldl (fun s a => act a s) s) := by
  induction todo generalizing s with
  | nil => exact h.post_now
  | cons a todo ih => exact ih h.act_step

end Guarantees

end Machine
