import Mathlib.Algebra.Ring.Nat
import Mathlib.Data.Fin.Basic
import Mathlib.Logic.Function.Basic

/-! Ring buffers.  Item `k` of everything that was put in goes to slot `k % N`, whether the item that
was there has been taken out or not.  A slot holds the newest of its items, and while no more than
`N` items wait that is the one that the next read wants. -/

namespace Ring

variable {α : Type*} {N : Nat} [NeZero N] {slots : Fin N → α} {xs : List α}

/-- Each of the last `N` of the items `xs` is in its slot. -/
def Keeps (slots : Fin N → α) (xs : List α) : Prop :=
  ∀ k < xs.length, xs.length ≤ k + N → xs[k]? = some (slots (Fin.ofNat N k))

theorem Keeps.nil (slots : Fin N → α) : Keeps slots [] :=
  fun k hk => absurd hk (Nat.not_lt_zero k)

theorem ofNat_eq_iff {i k : Nat} : Fin.ofNat N i = Fin.ofNat N k ↔ i % N = k % N := by
  rw [Fin.ext_iff]
  rfl

/-- Slots that are less than `N` items apart are different. -/
theorem ofNat_ne {i k : Nat} (h1 : i < k) (h2 : k < i + N) : Fin.ofNat N i ≠ Fin.ofNat N k := by
  rw [Ne, ofNat_eq_iff]
  intro h
  have hdvd := Nat.dvd_of_mod_eq_zero (Nat.sub_mod_eq_zero_of_mod_eq h.symm)
  have hle := Nat.le_of_dvd (by omega) hdvd
  omega

/-- The next item takes the slot of the oldest of the last `N`. -/
theorem Keeps.push (h : Keeps slots xs) (x : α) :
    Keeps (Function.update slots (Fin.ofNat N xs.length) x) (xs ++ [x]) := by
  intro k hk hlast
  rw [List.length_append, List.length_singleton] at hk hlast
  by_cases hnew : k = xs.length
  · rw [hnew, Function.update_self, List.getElem?_concat_length]
  · have hold : k < xs.length := by omega
    rw [Function.update_of_ne (ofNat_ne hold (by omega)), List.getElem?_append_left hold]
    exact h k hold (by omega)

/-- The newest of `len` items in the slot of item `r`. -/
def newest (N len r : Nat) : Nat := r + N * ((len - 1 - r) / N)

theorem newest_bounds {len r : Nat} (hr : r < len) :
    newest N len r < len ∧ len ≤ newest N len r + N := by
  have hdiv := Nat.div_add_mod (len - 1 - r) N
  have hmod := Nat.mod_lt (len - 1 - r) (Nat.pos_of_neZero N)
  unfold newest
  omega

/-- The slot of item `r` holds the newest item of that slot. -/
theorem Keeps.get (h : Keeps slots xs) {r : Nat} (hr : r < xs.length) :
    xs[newest N xs.length r]? = some (slots (Fin.ofNat N r)) := by
  have hslot : Fin.ofNat N (newest N xs.length r) = Fin.ofNat N r := by
    rw [ofNat_eq_iff, newest, Nat.add_mul_mod_self_left]
  rw [← hslot]
  exact h _ (newest_bounds hr).1 (newest_bounds hr).2

end Ring
