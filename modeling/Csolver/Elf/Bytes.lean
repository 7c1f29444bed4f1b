import Mathlib.Tactic.Ring

/-!
# Little-endian numbers in byte strings

What `from_le_bytes` and `to_le_bytes` compute for `u16`, `u32` and `i32`.
-/

namespace Csolver.Elf

abbrev Byte := BitVec 8

/-- `u16::from_le_bytes`. -/
def u16OfLeBytes (a b : Byte) : Nat := a.toNat + 2 ^ 8 * b.toNat

/-- `u32::from_le_bytes`. -/
def u32OfLeBytes (a b c d : Byte) : Nat := u16OfLeBytes a b + 2 ^ 16 * u16OfLeBytes c d

/-- `i32::from_le_bytes`. -/
def i32OfLeBytes (a b c d : Byte) : Int := (BitVec.ofNat 32 (u32OfLeBytes a b c d)).toInt

def leByte (n k : Nat) : Byte := BitVec.ofNat 8 (n / 2 ^ (8 * k))

/-- `i32::to_le_bytes`. -/
def leBytesOfI32 (n : Int) : List Byte :=
  let u := (BitVec.ofInt 32 n).toNat
  [leByte u 0, leByte u 1, leByte u 2, leByte u 3]

theorem u16OfLeBytes_lt (a b : Byte) : u16OfLeBytes a b < 2 ^ 16 := by
  have ha := a.isLt
  have hb := b.isLt
  unfold u16OfLeBytes
  omega

theorem u32OfLeBytes_lt (a b c d : Byte) : u32OfLeBytes a b c d < 2 ^ 32 := by
  have hlo := u16OfLeBytes_lt a b
  have hhi := u16OfLeBytes_lt c d
  unfold u32OfLeBytes
  omega

theorem u16OfLeBytes_leByte {n : Nat} (h : n < 2 ^ 16) : u16OfLeBytes (leByte n 0) (leByte n 1) = n := by
  simp only [u16OfLeBytes, leByte, BitVec.toNat_ofNat]
  omega

theorem u32OfLeBytes_leByte {n : Nat} (h : n < 2 ^ 32) :
    u32OfLeBytes (leByte n 0) (leByte n 1) (leByte n 2) (leByte n 3) = n := by
  simp only [u32OfLeBytes, u16OfLeBytes, leByte, BitVec.toNat_ofNat]
  omega

theorem leByte_u32OfLeBytes (a b c d : Byte) :
    [leByte (u32OfLeBytes a b c d) 0, leByte (u32OfLeBytes a b c d) 1, leByte (u32OfLeBytes a b c d) 2,
      leByte (u32OfLeBytes a b c d) 3] = [a, b, c, d] := by
  have ha := a.isLt
  have hb := b.isLt
  have hc := c.isLt
  have hd := d.isLt
  simp only [u32OfLeBytes, u16OfLeBytes, leByte, List.cons.injEq, and_true]
  refine ⟨?_, ?_, ?_, ?_⟩ <;> (apply BitVec.eq_of_toNat_eq; rw [BitVec.toNat_ofNat]; omega)

theorem leBytesOfI32_i32OfLeBytes (a b c d : Byte) : leBytesOfI32 (i32OfLeBytes a b c d) = [a, b, c, d] := by
  rw [leBytesOfI32, i32OfLeBytes, BitVec.ofInt_toInt, BitVec.toNat_ofNat, Nat.mod_eq_of_lt (u32OfLeBytes_lt a b c d)]
  exact leByte_u32OfLeBytes a b c d

theorem i32OfLeBytes_leByte {n : Int} (h : -2 ^ 31 ≤ n ∧ n < 2 ^ 31) {a b c d : Byte}
    (hbytes : leBytesOfI32 n = [a, b, c, d]) : i32OfLeBytes a b c d = n := by
  simp only [leBytesOfI32, List.cons.injEq, and_true] at hbytes
  obtain ⟨rfl, rfl, rfl, rfl⟩ := hbytes
  rw [i32OfLeBytes, u32OfLeBytes_leByte (BitVec.isLt _), BitVec.ofNat_toNat, BitVec.setWidth_eq, BitVec.toInt_ofInt]
  exact Int.bmod_eq_of_le (by omega) (by omega)

theorem i32OfLeBytes_bounds (a b c d : Byte) : -2 ^ 31 ≤ i32OfLeBytes a b c d ∧ i32OfLeBytes a b c d < 2 ^ 31 := by
  have hlo := BitVec.le_toInt (BitVec.ofNat 32 (u32OfLeBytes a b c d))
  have hhi := BitVec.toInt_lt (x := BitVec.ofNat 32 (u32OfLeBytes a b c d))
  exact ⟨hlo, hhi⟩

end Csolver.Elf
