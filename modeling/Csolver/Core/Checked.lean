import Mathlib.Algebra.Order.Ring.Int

/-!
# Checked machine arithmetic

The fixed-width `checked_*` operations of the host language: the exact result if the type holds it.
-/

namespace Csolver

/-- `u64::checked_add`, `u64::checked_mul`. -/
def checkedU64 (n : Nat) : Option Nat := if n < 2 ^ 64 then some n else none

theorem eq_of_checkedU64 {n m : Nat} (h : checkedU64 n = some m) : m = n := by
  rw [checkedU64] at h
  split at h
  · exact (Option.some.inj h).symm
  · exact absurd h (by simp)

/-- `i128::checked_*`. -/
def checkedI128 (z : Int) : Option Int := if -2 ^ 127 ≤ z ∧ z < 2 ^ 127 then some z else none

/-- `as i128` of a `u128`. -/
def toI128 (n : Nat) : Int := (BitVec.ofNat 128 n).toInt

theorem eq_of_checkedI128 {z v : Int} (h : checkedI128 z = some v) : v = z := by
  simp only [checkedI128] at h
  split at h
  · exact (Option.some.inj h).symm
  · exact absurd h (by simp)

end Csolver
