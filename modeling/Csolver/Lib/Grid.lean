import Mathlib.Data.Nat.Bitwise

/-!
# Walking a grid up to its end

From `a` in steps of `s`: as long as `s` divides what is left to `b` and the walk stops on reaching `b`, it
never goes past `b`, however many steps it takes. For a power of two the divisibility is a test of the low
bits.
-/

namespace Csolver.Lib

/-- Between `a` and `b`, a whole number of steps before `b`. -/
structure OnGrid (s a b x : Nat) : Prop where
  lo : a ≤ x
  hi : x ≤ b
  dvd : s ∣ b - x

namespace OnGrid

variable {s a b x : Nat}

theorem start (hab : a ≤ b) (hs : s ∣ b - a) : OnGrid s a b a := ⟨le_rfl, hab, hs⟩

theorem le_of_ne (h : OnGrid s a b x) (hne : x ≠ b) : x + s ≤ b := by
  have hlt : x < b := lt_of_le_of_ne h.hi hne
  have hle : s ≤ b - x := Nat.le_of_dvd (Nat.sub_pos_of_lt hlt) h.dvd
  omega

theorem step (h : OnGrid s a b x) (hne : x ≠ b) : OnGrid s a b (x + s) where
  lo := le_trans h.lo (Nat.le_add_right x s)
  hi := h.le_of_ne hne
  dvd := by
    rw [← Nat.sub_sub]
    exact Nat.dvd_sub h.dvd (dvd_refl s)

end OnGrid

/-- No bit of `d` below `k` is set, by a mask that is cut to two widths which hold `d`. -/
theorem masked_eq_zero {d k v w : Nat} (hv : d < 2 ^ v) (hw : d < 2 ^ w) :
    d &&& (2 ^ k - 1) % 2 ^ v % 2 ^ w = 0 ↔ 2 ^ k ∣ d := by
  have hbits : 2 ^ k ∣ d ↔ ∀ i < k, d.testBit i = false := by
    rw [Nat.dvd_iff_mod_eq_zero]
    constructor
    · intro h i hi
      have hbit := congrArg (Nat.testBit · i) h
      simpa [Nat.testBit_mod_two_pow, hi] using hbit
    · intro h
      apply Nat.eq_of_testBit_eq
      intro i
      rw [Nat.testBit_mod_two_pow, Nat.zero_testBit, Bool.and_eq_false_iff]
      by_cases hi : i < k
      · exact .inr (h i hi)
      · exact .inl (decide_eq_false hi)
  rw [hbits]
  constructor
  · intro h i hi
    by_cases hiv : i < v
    · by_cases hiw : i < w
      · have hbit := congrArg (Nat.testBit · i) h
        simpa [Nat.testBit_mod_two_pow, hi, hiv, hiw] using hbit
      · exact Nat.testBit_eq_false_of_lt (lt_of_lt_of_le hw (Nat.pow_le_pow_right (by decide) (not_lt.mp hiw)))
    · exact Nat.testBit_eq_false_of_lt (lt_of_lt_of_le hv (Nat.pow_le_pow_right (by decide) (not_lt.mp hiv)))
  · intro h
    apply Nat.eq_of_testBit_eq
    intro i
    rw [Nat.testBit_and, Nat.testBit_mod_two_pow, Nat.testBit_mod_two_pow, Nat.testBit_two_pow_sub_one,
      Nat.zero_testBit]
    by_cases hi : i < k
    · rw [h i hi, Bool.false_and]
    · simp [hi]

end Csolver.Lib
