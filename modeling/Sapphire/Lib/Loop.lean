import Mathlib.Algebra.Ring.Nat
import Mathlib.Logic.Function.Iterate
import Mathlib.Data.List.Range

/-! Loops.  `whileLoop` is a `while` loop with a bound on its rounds, and `whileLoop_eq_iterate`
gives its result when the condition fails within the bound.  `forUp` is a loop over 32-bit addresses
with a step; between multiples of the step it is a fold over the addresses that it visits.
`foldl_range_induct` is the invariant rule of a counted loop, and `foldl_range_read` takes the inputs
of one out of its state; `foldl_range'_update` and `foldl_update` are the rules of loops that set
cells, one for each index or several in a round. -/

namespace Machine

variable {σ : Type*}

/-- `while (cond s) s = body s`, stopped after `fuel` rounds. -/
def whileLoop (cond : σ → Bool) (body : σ → σ) : Nat → σ → σ
  | 0, s => s
  | fuel + 1, s => if cond s then whileLoop cond body fuel (body s) else s

theorem whileLoop_eq_iterate {cond : σ → Bool} {body : σ → σ} {n fuel : Nat} {s : σ}
    (hn : n ≤ fuel) (hrun : ∀ k < n, cond (body^[k] s) = true)
    (hstop : cond (body^[n] s) = false) : whileLoop cond body fuel s = body^[n] s := by
  induction n generalizing fuel s with
  | zero =>
    cases fuel with
    | zero => rfl
    | succ fuel =>
      rw [Function.iterate_zero, id] at hstop ⊢
      simp [whileLoop, hstop]
  | succ n ih =>
    obtain ⟨fuel, rfl⟩ : ∃ f, fuel = f + 1 := ⟨fuel - 1, by omega⟩
    have hfirst : cond s = true := hrun 0 (by omega)
    rw [whileLoop, if_pos hfirst, Function.iterate_succ_apply]
    apply ih (by omega)
    · intro k hk
      rw [← Function.iterate_succ_apply]
      exact hrun (k + 1) (by omega)
    · rw [← Function.iterate_succ_apply]
      exact hstop

/-- A loop over states that carry more than another loop's. -/
theorem whileLoop_map {τ : Type*} {cond : σ → Bool} {body : σ → σ} {cond' : τ → Bool}
    {body' : τ → τ} (f : σ → τ) (hcond : ∀ s, cond' (f s) = cond s)
    (hbody : ∀ s, body' (f s) = f (body s)) (fuel : Nat) (s : σ) :
    f (whileLoop cond body fuel s) = whileLoop cond' body' fuel (f s) := by
  induction fuel generalizing s with
  | zero => rfl
  | succ fuel ih =>
    rw [whileLoop, whileLoop, hcond, hbody, ← ih]
    split <;> rfl

/-- A counted loop that reads its inputs from the state that it changes, where its steps keep what
it reads. -/
theorem foldl_range_read {α : Type*} (read : σ → Nat → α) (step : σ → α → σ) {n : Nat} {s : σ}
    (P : σ → Prop) (h0 : P s) (hstep : ∀ t a, P t → P (step t a))
    (hread : ∀ t, P t → ∀ i < n, read t i = read s i) :
    (List.range n).foldl (fun t i => step t (read t i)) s =
      ((List.range n).map (read s)).foldl step s ∧
    P ((List.range n).foldl (fun t i => step t (read t i)) s) := by
  induction n with
  | zero => exact ⟨rfl, h0⟩
  | succ n ih =>
    obtain ⟨heq, hP⟩ := ih fun t ht i hi => hread t ht i (by omega)
    rw [List.range_succ, List.foldl_append, List.map_append, List.foldl_append, ← heq]
    simp only [List.foldl_cons, List.foldl_nil, List.map_cons, List.map_nil]
    exact ⟨by rw [hread _ hP n (by omega)], hstep _ _ hP⟩

/-- The invariant rule of a counted loop. -/
theorem foldl_range_induct {f : σ → Nat → σ} {n : Nat} {s : σ} (P : Nat → σ → Prop) (h0 : P 0 s)
    (hstep : ∀ i < n, ∀ t, P i t → P (i + 1) (f t i)) : P n ((List.range n).foldl f s) := by
  induction n with
  | zero => exact h0
  | succ n ih =>
    rw [List.range_succ, List.foldl_append]
    exact hstep n (by omega) _ (ih fun i hi => hstep i (by omega))

/-- The same of a loop over a bounded counter. -/
theorem foldl_finRange_induct {n : Nat} {f : σ → Fin n → σ} {s : σ} (P : Nat → σ → Prop)
    (h0 : P 0 s) (hstep : ∀ (i : Fin n) t, P i t → P (i + 1) (f t i)) :
    P n ((List.finRange n).foldl f s) := by
  induction n with
  | zero => exact h0
  | succ n ih =>
    rw [List.finRange_succ_last, List.foldl_append, List.foldl_map]
    exact hstep (Fin.last n) _ (ih fun i t => hstep i.castSucc t)

/-- A counted loop from `a` on that sets the cell of every index it visits, and keeps an invariant
that may name the index. -/
theorem foldl_range'_update {β : Type*} (get : σ → Nat → β) {f : σ → Nat → σ} {v : Nat → β}
    {a n N : Nat} {s : σ} (P : Nat → σ → Prop) (h0 : P a s)
    (hstep : ∀ p, a ≤ p → p < a + n → ∀ t, P p t →
      P (p + 1) (f t p) ∧ ∀ q < N, get (f t p) q = if q = p then v p else get t q) :
    P (a + n) ((List.range' a n).foldl f s) ∧ ∀ q < N,
      get ((List.range' a n).foldl f s) q = if a ≤ q ∧ q < a + n then v q else get s q := by
  induction n with
  | zero =>
    refine ⟨h0, fun q _ => ?_⟩
    rw [if_neg (by omega)]
    rfl
  | succ n ih =>
    obtain ⟨hP, hget⟩ := ih fun p h1 h2 => hstep p h1 (by omega)
    rw [List.range'_1_concat, List.foldl_append]
    obtain ⟨hP', hget'⟩ := hstep (a + n) (by omega) (by omega) _ hP
    refine ⟨hP', fun q hq => ?_⟩
    rw [List.foldl_cons, List.foldl_nil, hget' q hq]
    by_cases hqn : q = a + n
    · subst hqn
      rw [if_pos rfl, if_pos (by omega)]
    · rw [if_neg hqn, hget q hq]
      congr 1
      simp only [eq_iff_iff]
      omega

/-- A loop over a list where each round sets the cells of which `c` holds. -/
theorem foldl_update {α β : Type*} (get : σ → Nat → β) {f : σ → α → σ} {c : α → Nat → Prop}
    [∀ e q, Decidable (c e q)] {v : Nat → β} {N : Nat} {s : σ} (P : σ → Prop) (h0 : P s)
    (hstep : ∀ e t, P t →
      P (f t e) ∧ ∀ q < N, get (f t e) q = if c e q then v q else get t q) (l : List α) :
    P (l.foldl f s) ∧ ∀ q < N,
      get (l.foldl f s) q = if ∃ e ∈ l, c e q then v q else get s q := by
  induction l generalizing s with
  | nil => exact ⟨h0, fun q _ => by simp⟩
  | cons e l ih =>
    obtain ⟨hP, hget⟩ := hstep e s h0
    obtain ⟨hP', hget'⟩ := ih hP
    refine ⟨hP', fun q hq => ?_⟩
    rw [List.foldl_cons, hget' q hq, hget q hq]
    by_cases hl : ∃ e ∈ l, c e q
    · simp [hl]
    · by_cases he : c e q
      · simp [he]
      · simp [hl, he]

/-- The rounds of a loop over addresses from `lo` on, a multiple of the step. -/
theorem iterate_eq_foldl (step lo : BitVec 32) {a : Nat} (f : σ → BitVec 32 → σ) (s : σ)
    (hlo : lo.toNat = step.toNat * a) (i : Nat) :
    (fun st : BitVec 32 × σ => (st.1 + step, f st.2 st.1))^[i] (lo, s) =
      (BitVec.ofNat 32 (step.toNat * (a + i)), (List.range' a i).foldl
        (fun t p => f t (BitVec.ofNat 32 (step.toNat * p))) s) := by
  induction i with
  | zero => simp [← hlo]
  | succ i ih =>
    rw [Function.iterate_succ_apply', ih, List.range'_1_concat, List.foldl_append]
    refine Prod.ext ?_ rfl
    apply BitVec.eq_of_toNat_eq
    rw [BitVec.toNat_add, BitVec.toNat_ofNat, BitVec.toNat_ofNat, ← Nat.add_assoc, Nat.mul_succ]
    omega

/-- A loop over addresses from `lo` on, a multiple of the step, that stops at `hi`, another one: it
visits each multiple from `lo` on below `hi` once, in order. -/
theorem whileLoop_eq_foldl (step lo : BitVec 32) {hi : BitVec 32} {a b : Nat}
    {c : BitVec 32 × σ → Bool} (f : σ → BitVec 32 → σ) (s : σ)
    (hcond : ∀ st, lo ≤ st.1 → c st = decide (st.1 < hi))
    (hpos : 0 < step.toNat) (hlo : lo.toNat = step.toNat * a) (hhi : hi.toNat = step.toNat * b) :
    (whileLoop c (fun st => (st.1 + step, f st.2 st.1)) (2 ^ 32) (lo, s)).2 =
      (List.range' a (b - a)).foldl (fun t p => f t (BitVec.ofNat 32 (step.toNat * p))) s := by
  have hround := iterate_eq_foldl step lo f s hlo
  generalize step.toNat = k at *
  have hhi' := hi.isLt
  have hlo' := lo.isLt
  have hat : ∀ i ≤ b - a, (BitVec.ofNat 32 (k * (a + i))).toNat = k * (a + i) ∧
      k * a ≤ k * (a + i) := by
    intro i hi
    have hle : k * a ≤ k * (a + i) := Nat.mul_le_mul_left k (by omega)
    refine ⟨?_, hle⟩
    rw [BitVec.toNat_ofNat, Nat.mod_eq_of_lt]
    by_cases hab : a ≤ b
    · have : k * (a + i) ≤ k * b := Nat.mul_le_mul_left k (by omega)
      omega
    · rw [show i = 0 by omega, Nat.add_zero]
      omega
  rw [whileLoop_eq_iterate (n := b - a), hround]
  · have hb : b ≤ k * b := Nat.le_mul_of_pos_left b hpos
    omega
  · intro i hi
    have hlt : k * (a + i) < k * b := Nat.mul_lt_mul_of_pos_left (by omega) hpos
    obtain ⟨h1, h2⟩ := hat i hi.le
    rw [hround i, hcond _ (by rw [BitVec.le_def, hlo, h1]; exact h2)]
    rw [decide_eq_true_eq, BitVec.lt_def, h1]
    omega
  · obtain ⟨h1, h2⟩ := hat (b - a) (le_refl _)
    rw [hround, hcond _ (by rw [BitVec.le_def, hlo, h1]; exact h2)]
    rw [decide_eq_false_iff_not, BitVec.lt_def, h1, hhi]
    have : k * b ≤ k * (a + (b - a)) := Nat.mul_le_mul_left k (by omega)
    omega

/-- `for (a = lo; a < hi && a >= lo; a += step) s = f s a` -/
def forUp (step lo hi : BitVec 32) (f : σ → BitVec 32 → σ) (s : σ) : σ :=
  (whileLoop (fun st : BitVec 32 × σ => st.1 < hi && lo ≤ st.1)
    (fun st => (st.1 + step, f st.2 st.1)) (2 ^ 32) (lo, s)).2

/-- A loop over addresses whose state carries more than another loop's. -/
theorem forUp_map {τ : Type*} {f : σ → BitVec 32 → σ} {f' : τ → BitVec 32 → τ} (g : σ → τ)
    (hround : ∀ s a, g (f s a) = f' (g s) a) (step lo hi : BitVec 32) (s : σ) :
    g (forUp step lo hi f s) = forUp step lo hi f' (g s) := by
  rw [forUp, forUp]
  generalize 2 ^ 32 = fuel
  refine congrArg Prod.snd (whileLoop_map (fun st : BitVec 32 × σ => (st.1, g st.2)) ?_ ?_ fuel
    (lo, s))
  · exact fun _ => rfl
  · exact fun st => Prod.ext rfl (hround st.2 st.1).symm

theorem forUp_eq_foldl (step : BitVec 32) {lo hi : BitVec 32} {a b : Nat} (f : σ → BitVec 32 → σ) (s : σ)
    (hpos : 0 < step.toNat) (hlo : lo.toNat = step.toNat * a) (hhi : hi.toNat = step.toNat * b) :
    forUp step lo hi f s = (List.range' a (b - a)).foldl
      (fun t p => f t (BitVec.ofNat 32 (step.toNat * p))) s := by
  apply whileLoop_eq_foldl step lo f s _ hpos hlo hhi
  intro st hst
  simp [hst]

end Machine
