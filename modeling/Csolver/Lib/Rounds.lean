import Mathlib.Algebra.BigOperators.Intervals

/-!
# Computing in rounds

A pass is repeated as long as it reports a change; a measure that every change lowers bounds the
number of passes.

An additive operator `T` and a base `b`: the solution of `x = b + T x` is approached by recomputing
`x` from the base in every round. After `n` rounds it holds the sum of `b, T b, …, Tⁿ b`, so the
rounds are exact as soon as some power of `T` kills the base.
-/

namespace Csolver.Lib

section Settled

variable {σ : Type*} (pass : σ → σ × Bool)

/-- Repeat a pass as long as it reports a change. -/
def untilSettled : Nat → σ → σ
  | 0, s => s
  | fuel + 1, s =>
    let r := pass s
    if r.2 then untilSettled fuel r.1 else r.1

variable {pass}

theorem untilSettled_settled {μ : σ → Nat} (h : ∀ s, (pass s).2 = true → μ (pass s).1 < μ s) {fuel : Nat}
    {s : σ} (hfuel : μ s < fuel) : ∃ t, (pass t).2 = false ∧ untilSettled pass fuel s = (pass t).1 := by
  induction fuel generalizing s with
  | zero => exact absurd hfuel (Nat.not_lt_zero _)
  | succ fuel ih =>
    rw [untilSettled]
    cases hr : (pass s).2 with
    | false => exact ⟨s, hr, by simp [hr]⟩
    | true =>
      simp only [hr, if_true]
      exact ih (Nat.lt_of_lt_of_le (h s hr) (Nat.le_of_lt_succ hfuel))

theorem untilSettled_keeps {P : σ → Prop} (h : ∀ s, P s → P (pass s).1) (fuel : Nat) {s : σ} (hs : P s) :
    P (untilSettled pass fuel s) := by
  induction fuel generalizing s with
  | zero => exact hs
  | succ fuel ih =>
    simp only [untilSettled]
    split
    · exact ih (h s hs)
    · exact h s hs

end Settled

namespace Rounds

variable {A B : Type*} [AddCommMonoid A] [AddCommMonoid B] (T : A →+ A) (b : A)

/-- What is held after `n` rounds. -/
def rounds : Nat → A
  | 0 => b
  | n + 1 => b + T (rounds n)

theorem sum_succ (n : Nat) :
    ∑ k ∈ Finset.range (n + 1), T^[k] b = b + T (∑ k ∈ Finset.range n, T^[k] b) := by
  rw [map_sum, Finset.sum_range_succ', Function.iterate_zero, id_eq, add_comm]
  congr 1
  exact Finset.sum_congr rfl fun k _ => Function.iterate_succ_apply' T k b

theorem rounds_eq_sum (n : Nat) : rounds T b n = ∑ k ∈ Finset.range (n + 1), T^[k] b := by
  induction n with
  | zero => simp [rounds]
  | succ n ih => rw [rounds, ih, sum_succ _ _ (n + 1)]

variable {T b}

theorem sum_solves {N : Nat} (hN : T^[N] b = 0) :
    ∑ k ∈ Finset.range N, T^[k] b = b + T (∑ k ∈ Finset.range N, T^[k] b) := by
  rw [← sum_succ, Finset.sum_range_succ, hN, add_zero]

theorem map_iterate {T' : B →+ B} {φ : A →+ B} (h : ∀ x, φ (T x) = T' (φ x)) (k : Nat) :
    φ (T^[k] b) = T'^[k] (φ b) := by
  induction k with
  | zero => rfl
  | succ k ih => rw [Function.iterate_succ_apply', Function.iterate_succ_apply', h, ih]

end Rounds

end Csolver.Lib
