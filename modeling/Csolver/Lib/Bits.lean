import Mathlib.Data.Nat.Bitwise
import Mathlib.Tactic.Linarith
import Mathlib.Tactic.Ring

/-!
# Bit lists as numbers

Lists of booleans, least significant first, as a circuit carries them. Arithmetic circuits are
verified through the number a list stands for (`value`), wiring through its bits; `testBit_value`
is the bridge.
-/

namespace Csolver.Lib

namespace Bits

/-- The number a list of bits stands for, least significant bit first. -/
def value : List Bool → Nat
  | [] => 0
  | b :: bs => b.toNat + 2 * value bs

@[simp] theorem value_nil : value [] = 0 := rfl

@[simp] theorem value_cons (b : Bool) (bs : List Bool) :
    value (b :: bs) = b.toNat + 2 * value bs := rfl

theorem toNat_le_one (b : Bool) : b.toNat ≤ 1 := by cases b <;> decide

theorem value_lt (bs : List Bool) : value bs < 2 ^ bs.length := by
  induction bs with
  | nil => exact Nat.one_pos
  | cons b bs ih =>
    have := toNat_le_one b
    rw [value_cons, List.length_cons, Nat.pow_succ]
    omega

theorem value_append (as bs : List Bool) :
    value (as ++ bs) = value as + 2 ^ as.length * value bs := by
  induction as with
  | nil => simp
  | cons a as ih =>
    rw [List.cons_append, value_cons, value_cons, ih, List.length_cons, Nat.pow_succ]
    ring

@[simp] theorem value_replicate_false (n : Nat) : value (List.replicate n false) = 0 := by
  induction n with
  | zero => rfl
  | succ n ih => rw [List.replicate_succ, value_cons, ih]; rfl

theorem value_map_not (bs : List Bool) :
    value (bs.map (! ·)) + value bs + 1 = 2 ^ bs.length := by
  induction bs with
  | nil => rfl
  | cons b bs ih =>
    rw [List.map_cons, value_cons, value_cons, List.length_cons, Nat.pow_succ, ← ih]
    cases b <;> simp only [Bool.not_false, Bool.not_true, Bool.toNat_true, Bool.toNat_false] <;> ring

theorem value_take (bs : List Bool) (n : Nat) : value (bs.take n) = value bs % 2 ^ n := by
  rcases Nat.le_total n bs.length with hle | hge
  · have hsplit := value_append (bs.take n) (bs.drop n)
    rw [List.take_append_drop, List.length_take, Nat.min_eq_left hle] at hsplit
    have hlt := value_lt (bs.take n)
    rw [List.length_take, Nat.min_eq_left hle] at hlt
    rw [hsplit, Nat.add_mul_mod_self_left, Nat.mod_eq_of_lt hlt]
  · rw [List.take_of_length_le hge]
    refine (Nat.mod_eq_of_lt (Nat.lt_of_lt_of_le (value_lt bs) ?_)).symm
    exact Nat.pow_le_pow_right Nat.two_pos hge

theorem testBit_value (bs : List Bool) (i : Nat) : (value bs).testBit i = bs.getD i false := by
  induction bs generalizing i with
  | nil => simp
  | cons b bs ih =>
    cases i with
    | zero =>
      rw [value_cons, List.getD_cons_zero, Nat.testBit_zero]
      cases b <;> simp
    | succ i =>
      rw [value_cons, List.getD_cons_succ, ← ih, Nat.testBit_succ]
      congr 1
      have := toNat_le_one b
      omega

end Bits

end Csolver.Lib
