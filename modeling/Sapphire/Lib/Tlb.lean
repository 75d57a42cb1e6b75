import Mathlib.Data.Set.Basic
import Mathlib.Logic.Function.Basic

/-! A cache of the entries of a table, as a processor's translation lookaside buffer: it may take up
any present entry at any time, and is told of changes of the table only by emptying it.  `Covers`
says that the cached entries of some pages are the current ones and that the present ones are
allowed; it survives every change of an entry that was not present.  An entry that is taken out of
the table may stay in the cache until this is emptied, which is `Stale`. -/

namespace Machine

variable {π ε : Type*} {present : ε → Bool} {S : Set π} {table table' : π → ε}
  {tlb : π → Option ε} {ok ok' : ε → Prop} {p : π} {e : ε}

/-- The cached entries of the pages in `S` are present and current, and the present ones are
allowed. -/
structure Covers (present : ε → Bool) (S : Set π) (table : π → ε) (ok : ε → Prop)
    (tlb : π → Option ε) : Prop where
  current : ∀ p ∈ S, ∀ e ∈ tlb p, e = table p ∧ present e = true
  allowed : ∀ p ∈ S, present (table p) = true → ok (table p)

/-- The same but for the page `p`, whose entry is no longer present: `e` may still be cached for
it. -/
structure Stale (present : ε → Bool) (S : Set π) (table : π → ε) (ok : ε → Prop) (p : π) (e : ε)
    (tlb : π → Option ε) : Prop where
  current : ∀ q ∈ S, q ≠ p → ∀ e' ∈ tlb q, e' = table q ∧ present e' = true
  allowed : ∀ q ∈ S, present (table q) = true → ok (table q)
  absent : present (table p) = false
  old : ∀ e' ∈ tlb p, e' = e
  old_allowed : ok e

namespace Covers

theorem cached (h : Covers present S table ok tlb) (hp : p ∈ S) (he : e ∈ tlb p) : ok e := by
  obtain ⟨rfl, hpresent⟩ := h.current p hp e he
  exact h.allowed p hp hpresent

/-- A page without a present entry is not cached. -/
theorem not_cached (h : Covers present S table ok tlb) (hp : p ∈ S)
    (habsent : present (table p) = false) : e ∉ tlb p := by
  intro he
  obtain ⟨rfl, hpresent⟩ := h.current p hp e he
  rw [habsent] at hpresent
  cases hpresent

theorem fill [DecidableEq π] (h : Covers present S table ok tlb)
    (hpresent : present (table p) = true) :
    Covers present S table ok (Function.update tlb p (some (table p))) := by
  refine ⟨fun q hq e he => ?_, h.allowed⟩
  by_cases hqp : q = p
  · subst hqp
    rw [Function.update_self, Option.mem_some_iff] at he
    subst he
    exact ⟨rfl, hpresent⟩
  · rw [Function.update_of_ne hqp] at he
    exact h.current q hq e he

/-- The same table, with other entries allowed. -/
theorem allow (h : Covers present S table ok tlb) (htable : ∀ q ∈ S, table' q = table q)
    (hok : ∀ q ∈ S, present (table q) = true → ok (table q) → ok' (table q)) :
    Covers present S table' ok' tlb := by
  refine ⟨fun q hq e he => ?_, fun q hq => ?_⟩
  · rw [htable q hq]
    exact h.current q hq e he
  · rw [htable q hq]
    exact fun hpresent => hok q hq hpresent (h.allowed q hq hpresent)

/-- A new entry for a page that had none. -/
theorem map (h : Covers present S table ok tlb) (hp : p ∈ S) (habsent : present (table p) = false)
    (hself : table' p = e) (hother : ∀ q ∈ S, q ≠ p → table' q = table q) (hok : ok e) :
    Covers present S table' ok tlb := by
  refine ⟨fun q hq e' he => ?_, fun q hq => ?_⟩
  · by_cases hqp : q = p
    · subst hqp
      exact absurd he (h.not_cached hp habsent)
    · rw [hother q hq hqp]
      exact h.current q hq e' he
  · by_cases hqp : q = p
    · subst hqp
      rw [hself]
      exact fun _ => hok
    · rw [hother q hq hqp]
      exact h.allowed q hq

/-- An entry is taken out of the table. -/
theorem unmap (h : Covers present S table ok tlb) (hp : p ∈ S) (hpresent : present (table p) = true)
    (hself : present (table' p) = false) (hother : ∀ q ∈ S, q ≠ p → table' q = table q) :
    Stale present S table' ok p (table p) tlb := by
  refine ⟨fun q hq hqp => ?_, fun q hq hnew => ?_, hself, fun e' he => (h.current p hp e' he).1,
    h.allowed p hp hpresent⟩
  · rw [hother q hq hqp]
    exact h.current q hq
  · by_cases hqp : q = p
    · subst hqp
      rw [hself] at hnew
      cases hnew
    · rw [hother q hq hqp] at hnew ⊢
      exact h.allowed q hq hnew

end Covers

namespace Stale

theorem cached (h : Stale present S table ok p e tlb) {q : π} (hq : q ∈ S) {e' : ε}
    (he : e' ∈ tlb q) : ok e' := by
  by_cases hqp : q = p
  · subst hqp
    rw [h.old e' he]
    exact h.old_allowed
  · obtain ⟨rfl, hpresent⟩ := h.current q hq hqp e' he
    exact h.allowed q hq hpresent

theorem fill [DecidableEq π] (h : Stale present S table ok p e tlb) {q : π}
    (hpresent : present (table q) = true) :
    Stale present S table ok p e (Function.update tlb q (some (table q))) := by
  have hqp : q ≠ p := by
    rintro rfl
    rw [h.absent] at hpresent
    cases hpresent
  refine ⟨fun r hr hrp e' he => ?_, h.allowed, h.absent, fun e' he => ?_, h.old_allowed⟩
  · by_cases hrq : r = q
    · subst hrq
      rw [Function.update_self, Option.mem_some_iff] at he
      subst he
      exact ⟨rfl, hpresent⟩
    · rw [Function.update_of_ne hrq] at he
      exact h.current r hr hrp e' he
  · rw [Function.update_of_ne hqp.symm] at he
    exact h.old e' he

theorem flush (h : Stale present S table ok p e tlb) :
    Covers present S table ok fun _ => none := by
  refine ⟨fun q hq e' he => ?_, h.allowed⟩
  cases he

end Stale

end Machine
