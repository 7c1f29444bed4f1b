import Mathlib.Tactic.Positivity

/-!
# `f64`, as far as the branching heuristic uses it

The SAT core keeps one `f64` activity per variable and only ever adds, multiplies and compares.
IEEE 754 defines each of these as *the exact result, rounded*; the rounding itself is left open
here (`Rounding`) because nothing the solver concludes depends on it. What does matter is that no
activity ever becomes a NaN: `activity[v] > best_act` would then be false for an unassigned
variable and `pick_branch` would report a partial assignment as total. `NonNeg.add` and
`NonNeg.mul_fin` are what rules that out.
-/

namespace Csolver.Core

/-- An IEEE 754 double: finite values are the rationals they denote. -/
inductive F64 where
  | nan
  | negInf
  | fin (q : ℚ)
  | posInf
  deriving DecidableEq

namespace F64

/-- `a > b`; every comparison with a NaN is false. -/
def gt : F64 → F64 → Bool
  | .nan, _ => false
  | _, .nan => false
  | .posInf, b => b != .posInf
  | .fin _, .negInf => true
  | .fin a, .fin b => decide (b < a)
  | .fin _, .posInf => false
  | .negInf, _ => false

def NonNeg : F64 → Prop
  | .fin q => 0 ≤ q
  | .posInf => True
  | _ => False

theorem gt_negInf_of_nonNeg {x : F64} (h : x.NonNeg) : x.gt .negInf = true := by
  cases x with
  | nan => exact h.elim
  | negInf => exact h.elim
  | fin q => rfl
  | posInf => rfl

end F64

/-- The rounding of an exact rational result to a double. `round_mid` says a result inside the
    normal range stays a positive finite number, `round_nonneg` that rounding never produces a
    NaN or a sign change out of a non-negative result (overflow gives `+∞`). -/
structure Rounding where
  round : ℚ → F64
  round_nonneg : ∀ q, 0 ≤ q → (round q).NonNeg
  round_mid : ∀ q, 1 / 2 ^ 1022 ≤ q → q ≤ 2 ^ 1023 → ∃ r, 0 < r ∧ round q = .fin r

namespace Rounding

variable (rd : Rounding)

/-- `a + b`. -/
def add : F64 → F64 → F64
  | .nan, _ => .nan
  | _, .nan => .nan
  | .posInf, .negInf => .nan
  | .negInf, .posInf => .nan
  | .posInf, _ => .posInf
  | _, .posInf => .posInf
  | .negInf, _ => .negInf
  | _, .negInf => .negInf
  | .fin a, .fin b => rd.round (a + b)

/-- `a * b`; `0 * ∞` is a NaN. -/
def mul : F64 → F64 → F64
  | .nan, _ => .nan
  | _, .nan => .nan
  | .fin a, .fin b => rd.round (a * b)
  | .fin a, .posInf | .posInf, .fin a =>
      if a = 0 then .nan else if 0 < a then .posInf else .negInf
  | .fin a, .negInf | .negInf, .fin a =>
      if a = 0 then .nan else if 0 < a then .negInf else .posInf
  | .posInf, .posInf | .negInf, .negInf => .posInf
  | .posInf, .negInf | .negInf, .posInf => .negInf

theorem nonNeg_add {x y : F64} (hx : x.NonNeg) (hy : y.NonNeg) : (rd.add x y).NonNeg := by
  cases x with
  | nan => exact hx.elim
  | negInf => exact hx.elim
  | posInf => cases y <;> first | exact hy.elim | trivial
  | fin a =>
    cases y with
    | nan => exact hy.elim
    | negInf => exact hy.elim
    | posInf => trivial
    | fin b => exact rd.round_nonneg _ (add_nonneg hx hy)

theorem nonNeg_mul_fin {x : F64} {r : ℚ} (hx : x.NonNeg) (hr : 0 < r) :
    (rd.mul x (.fin r)).NonNeg := by
  cases x with
  | nan => exact hx.elim
  | negInf => exact hx.elim
  | posInf => simp [mul, hr, ne_of_gt hr, F64.NonNeg]
  | fin a => exact rd.round_nonneg _ (mul_nonneg hx hr.le)

/-- Arithmetic without rounding error: the rounding the examples run with. -/
def exact : Rounding where
  round := .fin
  round_nonneg _ h := h
  round_mid q hl _ := ⟨q, lt_of_lt_of_le (by positivity) hl, rfl⟩

end Rounding

end Csolver.Core
