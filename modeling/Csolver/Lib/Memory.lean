import Mathlib.Tactic.NormNum

/-!
# Byte memories of objects

A location is an object and an offset into it, and offsets wrap at `2 ^ 64`. A store writes a run of
bytes from a location on; what it does not reach it leaves alone (`write_of_apart`).
-/

namespace Csolver.Lib

variable {O B : Type}

/-- The location `i` bytes further on. -/
def shift (l : O × Nat) (i : Nat) : O × Nat := (l.1, (l.2 + i) % 2 ^ 64)

/-- How far the offset `b` is behind the offset `a`. -/
def behind (a b : Nat) : Nat := (b + (2 ^ 64 - a % 2 ^ 64)) % 2 ^ 64

/-- `n` bytes from `l` on and `n'` bytes from `l'` on have no byte in common. -/
def Apart (l : O × Nat) (n : Nat) (l' : O × Nat) (n' : Nat) : Prop :=
  ∀ i < n, ∀ j < n', shift l i ≠ shift l' j

/-- The memory after `n` bytes were written from `l` on. -/
def write [DecidableEq O] (μ : O × Nat → B) (l : O × Nat) (n : Nat) (bytes : Nat → B) : O × Nat → B :=
  fun x => if x.1 = l.1 ∧ x.2 < 2 ^ 64 ∧ behind l.2 x.2 < n then bytes (behind l.2 x.2) else μ x

theorem behind_shift (a : Nat) {i : Nat} (hi : i < 2 ^ 64) : behind a ((a + i) % 2 ^ 64) = i := by
  rw [behind]
  omega

theorem shift_behind {a b : Nat} (hb : b < 2 ^ 64) : (a + behind a b) % 2 ^ 64 = b := by
  rw [behind]
  omega

variable [DecidableEq O] {μ : O × Nat → B} {l : O × Nat} {n : Nat} {bytes : Nat → B}

theorem write_shift {i : Nat} (hi : i < n) (hw : i < 2 ^ 64) : write μ l n bytes (shift l i) = bytes i := by
  have hbehind : behind l.2 (shift l i).2 = i := behind_shift l.2 hw
  rw [write, if_pos, hbehind]
  refine ⟨rfl, Nat.mod_lt _ (by norm_num), ?_⟩
  rw [hbehind]
  exact hi

theorem write_of_apart {l' : O × Nat} {k i : Nat} (h : Apart l' k l n) (hi : i < k) :
    write μ l n bytes (shift l' i) = μ (shift l' i) := by
  rw [write, if_neg]
  rintro ⟨hobj, hlt, hn⟩
  apply h i hi _ hn
  have hback := shift_behind (a := l.2) hlt
  exact Prod.ext hobj hback.symm

end Csolver.Lib
