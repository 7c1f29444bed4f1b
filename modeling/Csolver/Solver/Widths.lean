import Csolver.Solver.Fold

/-!
# One operation at two widths

An operation computed at a width `n` that is not the declared width `w` gives the declared result
only when no bit that matters is lost. `BvOp.FitsAt` and `CmpOp.FitsAt` say which operands are safe:
the ring and bitwise operations only lose the carry out of `n`, division, remainder and right shifts
read whole operands, and the signed ones also read the sign bit.
-/

namespace Csolver

namespace BvOp

/-- The bits below `n` of the result depend on the bits below `n` of the operands only. -/
def lowBits : BvOp → Bool
  | add | sub | mul | and | or | xor => true
  | _ => false

/-- `op` at width `n` gives the low `w` bits of `op` at width `w`. -/
def FitsAt (op : BvOp) (n w x y : Nat) : Prop :=
  n = w ∨ match op with
    | add | sub | mul | and | or | xor => w ≤ n ∨ op.eval w x y < 2 ^ n
    | shl => y < 2 ^ min n w ∧ (w ≤ n ∨ shl.eval w x y < 2 ^ n)
    | udiv => y ≠ 0 ∧ x < 2 ^ min n w ∧ y < 2 ^ min n w
    | urem | lshr => x < 2 ^ min n w ∧ y < 2 ^ min n w
    | sdiv => y ≠ 0 ∧ 2 * x < 2 ^ min n w ∧ 2 * y < 2 ^ min n w
    | srem | ashr => 2 * x < 2 ^ min n w ∧ 2 * y < 2 ^ min n w

variable {op : BvOp} {n w x y : Nat}

theorem lowBits_eval (h : op.lowBits = true) (hnw : n ≤ w) (x y : Nat) :
    op.eval n x y = op.eval w x y % 2 ^ n := by
  have hx : BitVec.ofNat n x = (BitVec.ofNat w x).setWidth n :=
    (BitVec.setWidth_ofNat_of_le hnw x).symm
  have hy : BitVec.ofNat n y = (BitVec.ofNat w y).setWidth n :=
    (BitVec.setWidth_ofNat_of_le hnw y).symm
  rw [eval, eval, ← BitVec.toNat_setWidth, hx, hy]
  congr 1
  cases op with
  | add => exact (BitVec.setWidth_add _ _ hnw).symm
  | sub =>
    -- there is no library lemma for `-`: move the subtrahend to the other side
    rw [evalBv, evalBv, BitVec.sub_eq_iff_eq_add, ← BitVec.setWidth_add _ _ hnw,
      BitVec.sub_add_cancel]
  | mul => exact (BitVec.setWidth_mul _ _ hnw).symm
  | and => exact BitVec.setWidth_and.symm
  | or => exact BitVec.setWidth_or.symm
  | xor => exact BitVec.setWidth_xor.symm
  | _ => exact absurd h (by simp [lowBits])

theorem shl_eval (hnw : n ≤ w) (hy : y < 2 ^ n) : shl.eval n x y = shl.eval w x y % 2 ^ n := by
  have hyw : y < 2 ^ w := lt_of_lt_of_le hy (Nat.pow_le_pow_right (by decide) hnw)
  have hdvd : 2 ^ n ∣ 2 ^ w := pow_dvd_pow 2 hnw
  simp only [eval, evalBv, BitVec.toNat_shiftLeft, BitVec.toNat_ofNat, Nat.shiftLeft_eq,
    Nat.mod_eq_of_lt hy, Nat.mod_eq_of_lt hyw, Nat.mod_mod_of_dvd _ hdvd, Nat.mod_mul_mod]

theorem eval_of_lowBits (hlow : ∀ {k l}, k ≤ l → min n w ≤ k → op.eval k x y = op.eval l x y % 2 ^ k)
    (h : w ≤ n ∨ op.eval w x y < 2 ^ n) : op.eval n x y % 2 ^ w = op.eval w x y := by
  rcases Nat.le_total w n with hwn | hnw
  · exact (hlow hwn (Nat.min_le_right _ _)).symm
  · have hlt : op.eval w x y < 2 ^ n := by
      rcases h with hwn | hlt
      · rw [Nat.le_antisymm hnw hwn]
        exact eval_lt op w x y
      · exact hlt
    rw [hlow hnw (Nat.min_le_left _ _), Nat.mod_eq_of_lt hlt, Nat.mod_eq_of_lt (eval_lt op w x y)]

section Unsigned

variable {k : Nat}

theorem udiv_eval (hy0 : y ≠ 0) (hx : x < 2 ^ k) (hy : y < 2 ^ k) : udiv.eval k x y = x / y := by
  have hne : BitVec.ofNat k y ≠ 0#k := by
    intro he
    apply hy0
    rw [← Nat.mod_eq_of_lt hy, ← BitVec.toNat_ofNat, he, BitVec.toNat_zero]
  rw [eval, evalBv, BitVec.smtUDiv_eq, if_neg hne, BitVec.toNat_udiv, BitVec.toNat_ofNat,
    BitVec.toNat_ofNat, Nat.mod_eq_of_lt hx, Nat.mod_eq_of_lt hy]

theorem urem_eval (hx : x < 2 ^ k) (hy : y < 2 ^ k) : urem.eval k x y = x % y := by
  rw [eval, evalBv, BitVec.umod_eq, BitVec.toNat_umod, BitVec.toNat_ofNat,
    BitVec.toNat_ofNat, Nat.mod_eq_of_lt hx, Nat.mod_eq_of_lt hy]

theorem lshr_eval (hx : x < 2 ^ k) (hy : y < 2 ^ k) : lshr.eval k x y = x >>> y := by
  rw [eval, evalBv, BitVec.toNat_ushiftRight, BitVec.toNat_ofNat, BitVec.toNat_ofNat,
    Nat.mod_eq_of_lt hx, Nat.mod_eq_of_lt hy]

theorem msb_ofNat (hx : 2 * x < 2 ^ k) : (BitVec.ofNat k x).msb = false := by
  rw [BitVec.msb_eq_false_iff_two_mul_lt, BitVec.toNat_ofNat, Nat.mod_eq_of_lt (by omega)]
  exact hx

theorem sdiv_eval (hx : 2 * x < 2 ^ k) (hy : 2 * y < 2 ^ k) : sdiv.eval k x y = udiv.eval k x y := by
  rw [eval, eval, evalBv, evalBv, BitVec.smtSDiv, msb_ofNat hx, msb_ofNat hy]

theorem srem_eval (hx : 2 * x < 2 ^ k) (hy : 2 * y < 2 ^ k) : srem.eval k x y = urem.eval k x y := by
  rw [eval, eval, evalBv, evalBv, BitVec.srem_eq, msb_ofNat hx, msb_ofNat hy, BitVec.umod_eq]

theorem ashr_eval (hx : 2 * x < 2 ^ k) : ashr.eval k x y = lshr.eval k x y := by
  rw [eval, eval, evalBv, evalBv, BitVec.sshiftRight_eq_of_msb_false (msb_ofNat hx)]

end Unsigned

theorem eval_of_common {m : Nat} (hn : op.eval n x y = m) (hw : op.eval w x y = m) :
    op.eval n x y % 2 ^ w = op.eval w x y := by
  rw [hn, ← hw]
  exact Nat.mod_eq_of_lt (eval_lt op w x y)

theorem lt_of_lt_min {z : Nat} (h : z < 2 ^ min n w) : z < 2 ^ n ∧ z < 2 ^ w :=
  ⟨lt_of_lt_of_le h (Nat.pow_le_pow_right (by decide) (Nat.min_le_left _ _)),
    lt_of_lt_of_le h (Nat.pow_le_pow_right (by decide) (Nat.min_le_right _ _))⟩

theorem FitsAt.eval_mod (h : op.FitsAt n w x y) : op.eval n x y % 2 ^ w = op.eval w x y := by
  rcases h with rfl | h
  · exact Nat.mod_eq_of_lt (eval_lt op n x y)
  · cases op with
    | shl =>
      obtain ⟨hy, hlt⟩ := h
      refine eval_of_lowBits (fun hkl hk => shl_eval hkl ?_) hlt
      exact lt_of_lt_of_le hy (Nat.pow_le_pow_right (by decide) hk)
    | udiv =>
      obtain ⟨hy0, hx, hy⟩ := h
      have hx := lt_of_lt_min hx
      have hy := lt_of_lt_min hy
      exact eval_of_common (udiv_eval hy0 hx.1 hy.1) (udiv_eval hy0 hx.2 hy.2)
    | urem =>
      have hx := lt_of_lt_min h.1
      have hy := lt_of_lt_min h.2
      exact eval_of_common (urem_eval hx.1 hy.1) (urem_eval hx.2 hy.2)
    | lshr =>
      have hx := lt_of_lt_min h.1
      have hy := lt_of_lt_min h.2
      exact eval_of_common (lshr_eval hx.1 hy.1) (lshr_eval hx.2 hy.2)
    | sdiv =>
      obtain ⟨hy0, hx, hy⟩ := h
      have hx := lt_of_lt_min hx
      have hy := lt_of_lt_min hy
      refine eval_of_common (m := x / y) ?_ ?_
      · rw [sdiv_eval hx.1 hy.1, udiv_eval hy0 (by omega) (by omega)]
      · rw [sdiv_eval hx.2 hy.2, udiv_eval hy0 (by omega) (by omega)]
    | srem =>
      have hx := lt_of_lt_min h.1
      have hy := lt_of_lt_min h.2
      refine eval_of_common (m := x % y) ?_ ?_
      · rw [srem_eval hx.1 hy.1, urem_eval (by omega) (by omega)]
      · rw [srem_eval hx.2 hy.2, urem_eval (by omega) (by omega)]
    | ashr =>
      have hx := lt_of_lt_min h.1
      have hy := lt_of_lt_min h.2
      refine eval_of_common (m := x >>> y) ?_ ?_
      · rw [ashr_eval hx.1, lshr_eval (by omega) (by omega)]
      · rw [ashr_eval hx.2, lshr_eval (by omega) (by omega)]
    | _ => exact eval_of_lowBits (fun hkl _ => lowBits_eval rfl hkl x y) h

end BvOp

namespace CmpOp

def readsSign : CmpOp → Bool
  | slt | sle | sgt | sge => true
  | _ => false

/-- `op` at width `n` decides what `op` at width `w` decides. -/
def FitsAt (op : CmpOp) (n w x y : Nat) : Prop :=
  n = w ∨ if op.readsSign then 2 * x < 2 ^ min n w ∧ 2 * y < 2 ^ min n w
    else x < 2 ^ min n w ∧ y < 2 ^ min n w

/-- The comparison of the numbers, with no width. -/
def onNat (op : CmpOp) (x y : Nat) : Bool :=
  match op with
  | eq => x == y
  | ne => x != y
  | ult | slt => decide (x < y)
  | ule | sle => decide (x ≤ y)
  | ugt | sgt => decide (y < x)
  | uge | sge => decide (y ≤ x)

variable {op : CmpOp} {n w x y k : Nat}

theorem toInt_ofNat (hx : 2 * x < 2 ^ k) : (BitVec.ofNat k x).toInt = x := by
  rw [BitVec.toInt_eq_toNat_of_msb (BvOp.msb_ofNat hx), BitVec.toNat_ofNat,
    Nat.mod_eq_of_lt (by omega)]

theorem eval_signed (h : op.readsSign = true) (hx : 2 * x < 2 ^ k) (hy : 2 * y < 2 ^ k) :
    op.eval k x y = op.onNat x y := by
  cases op with
  | slt | sle | sgt | sge =>
    simp [eval, evalBv, onNat, BitVec.slt, BitVec.sle, toInt_ofNat hx, toInt_ofNat hy]
  | _ => exact absurd h (by simp [readsSign])

theorem eval_unsigned (h : op.readsSign = false) (hx : x < 2 ^ k) (hy : y < 2 ^ k) :
    op.eval k x y = op.onNat x y := by
  have hx' := Nat.mod_eq_of_lt hx
  have hy' := Nat.mod_eq_of_lt hy
  cases op with
  | eq | ne =>
    have hinj : BitVec.ofNat k x = BitVec.ofNat k y ↔ x = y := by
      rw [← BitVec.toNat_inj, BitVec.toNat_ofNat, BitVec.toNat_ofNat, hx', hy']
    simp only [eval, evalBv, onNat, bne, beq_eq_decide, hinj]
  | ult | ule | ugt | uge =>
    simp [eval, evalBv, onNat, BitVec.ult, BitVec.ule, hx', hy']
  | _ => exact absurd h (by simp [readsSign])

theorem FitsAt.eval_eq (h : op.FitsAt n w x y) : op.eval n x y = op.eval w x y := by
  rcases h with rfl | h
  · rfl
  · split_ifs at h with hs
    · have hx := BvOp.lt_of_lt_min h.1
      have hy := BvOp.lt_of_lt_min h.2
      rw [eval_signed hs hx.1 hy.1, eval_signed hs hx.2 hy.2]
    · have hx := BvOp.lt_of_lt_min h.1
      have hy := BvOp.lt_of_lt_min h.2
      have hs := Bool.eq_false_iff.mpr hs
      rw [eval_unsigned hs hx.1 hy.1, eval_unsigned hs hx.2 hy.2]

end CmpOp

/-! ## Operators on plain numbers -/

theorem BvOp.add_eval (w x y : Nat) : BvOp.add.eval w x y = (x + y) % 2 ^ w := by
  rw [BvOp.eval, BvOp.evalBv, BitVec.toNat_add, BitVec.toNat_ofNat, BitVec.toNat_ofNat, ← Nat.add_mod]

theorem BvOp.mul_eval (w x y : Nat) : BvOp.mul.eval w x y = x * y % 2 ^ w := by
  rw [BvOp.eval, BvOp.evalBv, BitVec.toNat_mul, BitVec.toNat_ofNat, BitVec.toNat_ofNat, ← Nat.mul_mod]

theorem CmpOp.eq_eval (w x y : Nat) : CmpOp.eq.eval w x y = true ↔ x % 2 ^ w = y % 2 ^ w := by
  rw [CmpOp.eval, CmpOp.evalBv, beq_iff_eq, ← BitVec.toNat_inj, BitVec.toNat_ofNat, BitVec.toNat_ofNat]

theorem CmpOp.ule_eval (w x y : Nat) : CmpOp.ule.eval w x y = true ↔ x % 2 ^ w ≤ y % 2 ^ w := by
  rw [CmpOp.eval, CmpOp.evalBv, BitVec.ule, decide_eq_true_iff, BitVec.toNat_ofNat, BitVec.toNat_ofNat]

theorem CmpOp.uge_eval (w x y : Nat) : CmpOp.uge.eval w x y = true ↔ y % 2 ^ w ≤ x % 2 ^ w := by
  rw [CmpOp.eval, CmpOp.evalBv, BitVec.ule, decide_eq_true_iff, BitVec.toNat_ofNat, BitVec.toNat_ofNat]

end Csolver
