import Csolver.Absint.Analysis
import Csolver.Ir.Ssa

/-!
# Registers read as integers

The analysis keeps one interval for a register and compares intervals as signed integers, so a
register is taken for its signed value; the exception is a one-bit register, which the result of a
comparison makes `0` or `1`. Arithmetic, extensions and comparisons agree with that reading only
while nothing wraps and no sign bit is read in two ways: `NoWrap`, `ZextOk`, `SextOk` and `CmpOk` say
when they do.
-/

namespace Csolver

namespace Intervals

/-- The integer that a machine value of width `w` stands for in the analysis. -/
def reading (w x : Nat) : Int := if w = 1 then ((x % 2 : Nat) : Int) else (BitVec.ofNat w x).toInt

theorem reading_mod (w x : Nat) : reading w (x % 2 ^ w) = reading w x := by
  unfold reading
  split_ifs with h
  · rw [h, pow_one, Nat.mod_mod]
  · rw [ofNat_mod]

/-- An operand that the analysis reads as the machine does: not the one-bit constant `true`, whose
    signed value is `-1`. -/
def Plain : Operand → Prop
  | .const (.int bv) => bv.width = 1 → bv.value = 0
  | _ => True

/-! ## The operations -/

def onInt (op : BvOp) (x y : Int) : Option Int :=
  match op with
  | .add => some (x + y)
  | .sub => some (x - y)
  | .mul => some (x * y)
  | _ => none

/-- The machine's sum, difference or product is the exact one, and `i128` holds it (as it does
    whenever the width is at most 128). The bound `- 2 ^ 127` has no opposite in `i128`. -/
def NoWrap (op : BvOp) (w x y : Nat) : Prop :=
  ∀ z, onInt op (reading w x) (reading w y) = some z →
    reading w (op.eval w x y) = z ∧ -2 ^ 127 ≤ z ∧ z < 2 ^ 127 ∧
      (op = .sub → reading w y ≠ -2 ^ 127 ∧ -2 ^ 127 ≤ reading w y)

/-- Zero extension keeps the reading: the operand is a bit, or its sign bit is clear. -/
def ZextOk (v w x : Nat) : Prop := v = w ∨ v = 1 ∨ 2 * (x % 2 ^ v) < 2 ^ v

/-- Sign extension keeps the reading: the operand is no bit, or it is `0`. -/
def SextOk (v w x : Nat) : Prop := v = w ∨ v ≠ 1 ∨ x % 2 = 0

theorem toInt_of_lt {w x : Nat} (h : 2 * x < 2 ^ w) : (BitVec.ofNat w x).toInt = x := by
  rw [BitVec.toInt_eq_toNat_of_msb, BitVec.toNat_ofNat, Nat.mod_eq_of_lt (by omega)]
  rw [BitVec.msb_eq_false_iff_two_mul_lt, BitVec.toNat_ofNat, Nat.mod_eq_of_lt (by omega)]
  exact h

theorem reading_zext {v w x : Nat} (hvw : v ≤ w) (h : ZextOk v w x) :
    reading w (x % 2 ^ v % 2 ^ w) = reading v x := by
  by_cases heq : v = w
  · rw [heq, Nat.mod_mod, reading_mod]
  · have hlt : v < w := Nat.lt_of_le_of_ne hvw heq
    have hpow : 2 ^ (v + 1) ≤ 2 ^ w := Nat.pow_le_pow_right (by decide) hlt
    have hxv : x % 2 ^ v < 2 ^ v := Nat.mod_lt _ (Nat.two_pow_pos v)
    have htwo : 2 * (x % 2 ^ v) < 2 ^ w := by
      rw [Nat.pow_succ] at hpow
      omega
    rw [reading_mod]
    by_cases hv1 : v = 1
    · subst hv1
      rw [reading, if_neg (by omega), toInt_of_lt htwo, reading, if_pos rfl, pow_one]
    · have hsmall : 2 * (x % 2 ^ v) < 2 ^ v := by
        rcases h with h | h | h
        · exact absurd h heq
        · exact absurd h hv1
        · exact h
      have hv : (BitVec.ofNat v x).toInt = ((x % 2 ^ v : Nat) : Int) := by
        rw [← ofNat_mod, toInt_of_lt hsmall]
      by_cases hw1 : w = 1
      · -- only a value of no bits is narrower than one
        have hv0 : v = 0 := by omega
        subst hv0
        rw [reading, if_pos hw1, reading, if_neg (by omega), hv, pow_zero, Nat.mod_one]
      · rw [reading, if_neg hw1, toInt_of_lt htwo, reading, if_neg hv1, hv]

theorem reading_sext {v w x : Nat} (hvw : v ≤ w) (h : SextOk v w x) :
    reading w (signExtend v w (x % 2 ^ v)) = reading v x := by
  rw [signExtend, ofNat_mod]
  by_cases heq : v = w
  · subst heq
    rw [BitVec.signExtend_eq, BitVec.toNat_ofNat, reading_mod]
  · have hlt : v < w := Nat.lt_of_le_of_ne hvw heq
    have hround : BitVec.ofNat w ((BitVec.ofNat v x).signExtend w).toNat
        = (BitVec.ofNat v x).signExtend w := by
      rw [BitVec.ofNat_toNat, BitVec.setWidth_eq]
    by_cases hv1 : v = 1
    · subst hv1
      have hx : x % 2 = 0 := by
        rcases h with h | h | h
        · exact absurd h heq
        · exact absurd rfl h
        · exact h
      have hzero : BitVec.ofNat 1 x = 0#1 := by
        rw [← ofNat_mod, pow_one, hx]
      rw [reading, if_neg (by omega), hround, BitVec.toInt_signExtend_of_le hvw, hzero, reading,
        if_pos rfl, hx]
      rfl
    · by_cases hw1 : w = 1
      · have hv0 : v = 0 := by omega
        subst hv0 hw1
        rw [reading, reading, if_pos rfl, if_neg (by decide)]
        have : BitVec.ofNat 0 x = 0#0 := BitVec.eq_nil _
        rw [this]
        decide
      · rw [reading, if_neg hw1, hround, BitVec.toInt_signExtend_of_le hvw, reading, if_neg hv1]

/-! ## Comparisons -/

/-- A predicate on the readings; the analysis does not tell signed from unsigned. -/
def cmpInt (op : CmpOp) (x y : Int) : Bool :=
  match op with
  | .eq => decide (x = y)
  | .ne => !decide (x = y)
  | .ult | .slt => decide (x < y)
  | .ule | .sle => decide (x ≤ y)
  | .ugt | .sgt => decide (y < x)
  | .uge | .sge => decide (y ≤ x)

/-- The machine compares the operands as their readings: for an unsigned predicate the sign bits
    agree (or there is but one bit), for a signed one there is more than one bit. -/
def CmpOk (op : CmpOp) (v x y : Nat) : Prop :=
  match op with
  | .eq | .ne => True
  | .ult | .ule | .ugt | .uge => v = 1 ∨ (BitVec.ofNat v x).msb = (BitVec.ofNat v y).msb
  | .slt | .sle | .sgt | .sge => v ≠ 1

theorem reading_inj {v x y : Nat} : reading v x = reading v y ↔ BitVec.ofNat v x = BitVec.ofNat v y := by
  unfold reading
  split_ifs with h
  · subst h
    rw [← BitVec.toNat_inj, BitVec.toNat_ofNat, BitVec.toNat_ofNat, pow_one]
    omega
  · exact BitVec.toInt_inj

theorem reading_lt_iff {v x y : Nat} (h : v = 1 ∨ (BitVec.ofNat v x).msb = (BitVec.ofNat v y).msb) :
    reading v x < reading v y ↔ (BitVec.ofNat v x).toNat < (BitVec.ofNat v y).toNat := by
  unfold reading
  split_ifs with h1
  · subst h1
    rw [BitVec.toNat_ofNat, BitVec.toNat_ofNat, pow_one]
    omega
  · have hmsb := h.resolve_left h1
    rw [BitVec.toInt_eq_msb_cond, BitVec.toInt_eq_msb_cond, hmsb]
    split_ifs <;> omega

theorem reading_le_iff {v x y : Nat} (h : v = 1 ∨ (BitVec.ofNat v x).msb = (BitVec.ofNat v y).msb) :
    reading v x ≤ reading v y ↔ (BitVec.ofNat v x).toNat ≤ (BitVec.ofNat v y).toNat := by
  have h' := reading_lt_iff (v := v) (x := y) (y := x) (h.imp_right Eq.symm)
  rw [← not_lt, h', not_lt]

theorem eval_eq_cmpInt {op : CmpOp} {v x y : Nat} (h : CmpOk op v x y) :
    op.eval v x y = cmpInt op (reading v x) (reading v y) := by
  have hsigned : v ≠ 1 → ∀ z, reading v z = (BitVec.ofNat v z).toInt := fun hv z => if_neg hv
  cases op with
  | eq => simp [CmpOp.eval, CmpOp.evalBv, cmpInt, reading_inj, beq_eq_decide]
  | ne => simp [CmpOp.eval, CmpOp.evalBv, cmpInt, reading_inj, bne, beq_eq_decide]
  | ult => simp [CmpOp.eval, CmpOp.evalBv, cmpInt, BitVec.ult, reading_lt_iff h]
  | ule => simp [CmpOp.eval, CmpOp.evalBv, cmpInt, BitVec.ule, reading_le_iff h]
  | ugt =>
    simp [CmpOp.eval, CmpOp.evalBv, cmpInt, BitVec.ult, reading_lt_iff (Or.imp_right Eq.symm h)]
  | uge =>
    simp [CmpOp.eval, CmpOp.evalBv, cmpInt, BitVec.ule, reading_le_iff (Or.imp_right Eq.symm h)]
  | slt => simp [CmpOp.eval, CmpOp.evalBv, cmpInt, BitVec.slt, hsigned h]
  | sle => simp [CmpOp.eval, CmpOp.evalBv, cmpInt, BitVec.sle, hsigned h]
  | sgt => simp [CmpOp.eval, CmpOp.evalBv, cmpInt, BitVec.slt, hsigned h]
  | sge => simp [CmpOp.eval, CmpOp.evalBv, cmpInt, BitVec.sle, hsigned h]

end Intervals

/-! ## Verdicts of the interval analysis on the machine

The registers of an execution are described by the state of the analysis at every point reached
(`Intervals.Described`), as long as no step of the execution wraps, reads a sign bit in two ways or
uses the constant `true`. Two of the arguments are not local. A branch refines the operands of a
comparison that was made earlier, and whatever those were copied from: that they still hold the values
compared is what single assignment gives (`Func.Equations`). And the analysis passes over inline
assembly, so that nothing may be known about the registers it writes when it is reached; that holds
because every way to it for the first time comes from where nothing was known.
-/

open Lib

namespace Intervals

variable {f : Func} {Γ : RegId → Nat} {regs : Regs} {s t : IntervalState}

/-- The state describes every register that holds a value. -/
structure Described (Γ : RegId → Nat) (s : IntervalState) (regs : Regs) : Prop where
  reachable : s.isReachable = true
  mem : ∀ r x, regs r = some x → Interval.Mem (reading (Γ r) x) (s.get r)

/-! ## Verdicts on intervals -/

theorem lt_of_bounds {hi lo : Bound} {x y : Int} (h : hi.lt lo = true) (hx : hi.Above x)
    (hy : lo.Below y) : x < y := by
  rw [Bound.lt_iff] at h
  cases hi <;> cases lo <;> simp_all [Bound.Above, Bound.Below, Bound.le]
  omega

theorem le_of_bounds {hi lo : Bound} {x y : Int} (h : hi.le lo = true) (hx : hi.Above x)
    (hy : lo.Below y) : x ≤ y := by
  cases hi <;> cases lo <;> simp_all [Bound.Above, Bound.Below, Bound.le]
  omega

theorem compareIntervals_sound {op : CmpOp} {i j : Interval} {x y : Int} (hx : Interval.Mem x i)
    (hy : Interval.Mem y j) :
    (compareIntervals op i j = .true → cmpInt op x y = true) ∧
      (compareIntervals op i j = .false → cmpInt op x y = false) := by
  cases i with
  | bottom => exact hx.elim
  | range alo ahi =>
    cases j with
    | bottom => exact hy.elim
    | range blo bhi =>
      obtain ⟨hxl, hxh⟩ := hx
      obtain ⟨hyl, hyh⟩ := hy
      have hlt : (ahi.lt blo = true → x < y) ∧ (bhi.le alo = true → ¬ x < y) :=
        ⟨fun h => lt_of_bounds h hxh hyl, fun h => not_lt.mpr (le_of_bounds h hyh hxl)⟩
      have hle : (ahi.le blo = true → x ≤ y) ∧ (bhi.lt alo = true → ¬ x ≤ y) :=
        ⟨fun h => le_of_bounds h hxh hyl, fun h => not_le.mpr (lt_of_bounds h hyh hxl)⟩
      have heq : (alo = ahi ∧ blo = bhi ∧ alo = blo → x = y) ∧
          (ahi.lt blo = true ∨ bhi.lt alo = true → x ≠ y) := by
        constructor
        · rintro ⟨rfl, rfl, rfl⟩
          exact le_antisymm (le_of_bounds (Bound.le_refl _) hxh hyl)
            (le_of_bounds (Bound.le_refl _) hyh hxl)
        · rintro (h | h)
          · exact ne_of_lt (lt_of_bounds h hxh hyl)
          · exact Ne.symm (ne_of_lt (lt_of_bounds h hyh hxl))
      cases op with
      | ult | slt =>
        simp only [compareIntervals, cmpInt, decide_eq_true_eq, decide_eq_false_iff_not]
        split_ifs with h1 h2 <;> simp [*]
      | ule | sle =>
        simp only [compareIntervals, cmpInt, decide_eq_true_eq, decide_eq_false_iff_not]
        split_ifs with h1 h2 <;> simp [*]
      | ugt | sgt =>
        simp only [compareIntervals, cmpInt, decide_eq_true_eq, decide_eq_false_iff_not]
        split_ifs with h1 h2 <;> simp [*]
        exact not_le.mp (hle.2 h1)
      | uge | sge =>
        simp only [compareIntervals, cmpInt, decide_eq_true_eq, decide_eq_false_iff_not]
        split_ifs with h1 h2 <;> simp [*]
        exact not_lt.mp (hlt.2 h1)
      | eq =>
        simp only [compareIntervals, cmpInt, decide_eq_true_eq, decide_eq_false_iff_not,
          Bool.or_eq_true]
        split_ifs with h1 h2 <;> simp
        · exact heq.2 h1
        · exact heq.1 h2
      | ne =>
        simp only [compareIntervals, cmpInt, Bool.or_eq_true]
        split_ifs with h1 h2 <;> simp [Trivalent.negate]
        · exact heq.2 h1
        · exact heq.1 h2

/-! ## Operands and right-hand sides -/

theorem reading_zero (w : Nat) : reading w 0 = 0 := by
  unfold reading
  split_ifs <;> simp

theorem evalOperand_mem (h : Described Γ s regs) {op : Operand} (hplain : Plain op) {x : Nat}
    (hop : op.Evals regs x) : Interval.Mem (reading (op.width Γ) x) (evalOperand op s) := by
  cases op with
  | reg r => exact h.mem r x hop
  | const c =>
    cases c with
    | int bv =>
      obtain rfl : x = bv.value := hop
      have hval : reading bv.width bv.value = (signedI128 bv).val := by
        by_cases h1 : bv.width = 1
        · rw [hplain h1, reading_zero]
          show 0 = bv.signed
          rw [BitVector.signed, hplain h1]
          simp
        · exact if_neg h1
      show Interval.Mem (reading bv.width bv.value) (.singleton (signedI128 bv))
      rw [hval]
      exact Interval.mem_singleton _
    | null =>
      obtain rfl : x = 0 := hop
      show Interval.Mem (reading 64 0) (.singleton zero)
      rw [reading_zero]
      exact Interval.mem_singleton zero
    | undef => exact Interval.mem_top _
    | symbol name => exact Interval.mem_top _
    | symbolOffset name off => exact Interval.mem_top _

/-- What a right-hand side asks of the registers for its interval to be right. -/
def ValueOk (Γ : RegId → Nat) (regs : Regs) (w : Nat) : RValue → Prop
  | .use op => Plain op
  | .bin op lhs rhs => (op = .add ∨ op = .sub ∨ op = .mul) → Plain lhs ∧ Plain rhs ∧
      ∀ x y, lhs.Evals regs x → rhs.Evals regs y → NoWrap op w x y
  | .cast .zext op => Plain op ∧ ∀ x, op.Evals regs x → ZextOk (op.width Γ) w x
  | .cast .sext op => Plain op ∧ ∀ x, op.Evals regs x → SextOk (op.width Γ) w x
  | _ => True

theorem mem_bit (b : Bool) : Interval.Mem (reading 1 b.toNat) (.ofRange zero one) := by
  cases b
  · exact ⟨(by decide : (0 : Int) ≤ 0), (by decide : (0 : Int) ≤ 1)⟩
  · exact ⟨(by decide : (0 : Int) ≤ 1), (by decide : (1 : Int) ≤ 1)⟩

theorem bin_mem {op : BvOp} {lhs rhs : Operand} {w x y : Nat}
    (hx : Interval.Mem (reading w x) (evalOperand lhs s))
    (hy : Interval.Mem (reading w y) (evalOperand rhs s))
    (h : (op = .add ∨ op = .sub ∨ op = .mul) → NoWrap op w x y) :
    Interval.Mem (reading w (op.eval w x y)) (evalRvalue (.bin op lhs rhs) s) := by
  cases op with
  | add =>
    obtain ⟨hval, hlo, hhi, _⟩ := h (.inl rfl) _ rfl
    rw [hval]
    exact Interval.mem_add hx hy ⟨hlo, hhi⟩
  | sub =>
    obtain ⟨hval, hlo, hhi, hneg⟩ := h (.inr (.inl rfl)) _ rfl
    obtain ⟨hne, hge⟩ := hneg rfl
    rw [hval]
    exact Interval.mem_sub hx hy (lt_of_le_of_ne hge (Ne.symm hne)) ⟨hlo, hhi⟩
  | mul =>
    obtain ⟨hval, hlo, hhi, _⟩ := h (.inr (.inr rfl)) _ rfl
    rw [hval]
    exact Interval.mem_mul hx hy ⟨hlo, hhi⟩
  | _ => exact Interval.mem_top _

theorem evalRvalue_mem (h : Described Γ s regs) {rv : RValue} {w x : Nat}
    (hty : rv.WellTyped w (rv.operands.map (Operand.width Γ))) (hok : ValueOk Γ regs w rv)
    (hx : rv.Evals Γ regs w x) : Interval.Mem (reading w x) (evalRvalue rv s) := by
  obtain ⟨xs, hxs, rfl⟩ := hx
  cases rv with
  | use op =>
    obtain ⟨y, ys, hop, hys, rfl⟩ := List.forall₂_cons_left_iff.mp hxs
    obtain rfl := List.forall₂_nil_left_iff.mp hys
    obtain rfl : op.width Γ = w := hty
    have hmem := evalOperand_mem h hok hop
    show Interval.Mem _ (evalOperand op s)
    simpa [RValue.machine, RValue.operands, reading_mod] using hmem
  | bin op lhs rhs =>
    obtain ⟨y, ys, hl, hys, rfl⟩ := List.forall₂_cons_left_iff.mp hxs
    obtain ⟨z, zs, hr, hzs, rfl⟩ := List.forall₂_cons_left_iff.mp hys
    obtain rfl := List.forall₂_nil_left_iff.mp hzs
    obtain ⟨hlw, hrw⟩ : lhs.width Γ = w ∧ rhs.width Γ = w := hty
    simp only [RValue.machine, RValue.operands, List.map_cons, List.map_nil,
      List.zipWith_cons_cons, List.zipWith_nil_left, hlw, hrw, BvOp.eval_mod]
    by_cases hop : op = .add ∨ op = .sub ∨ op = .mul
    · obtain ⟨hpl, hpr, hwrap⟩ := hok hop
      have hml := evalOperand_mem h hpl hl
      have hmr := evalOperand_mem h hpr hr
      rw [hlw] at hml
      rw [hrw] at hmr
      exact bin_mem hml hmr fun _ => hwrap y z hl hr
    · cases op with
      | add => exact absurd (.inl rfl) hop
      | sub => exact absurd (.inr (.inl rfl)) hop
      | mul => exact absurd (.inr (.inr rfl)) hop
      | _ => exact Interval.mem_top _
  | cmp op lhs rhs =>
    obtain ⟨y, ys, hl, hys, rfl⟩ := List.forall₂_cons_left_iff.mp hxs
    obtain ⟨z, zs, hr, hzs, rfl⟩ := List.forall₂_cons_left_iff.mp hys
    obtain rfl := List.forall₂_nil_left_iff.mp hzs
    obtain ⟨rfl, _⟩ : w = 1 ∧ lhs.width Γ = rhs.width Γ := hty
    exact mem_bit _
  | cast op operand =>
    obtain ⟨y, ys, hop, hys, rfl⟩ := List.forall₂_cons_left_iff.mp hxs
    obtain rfl := List.forall₂_nil_left_iff.mp hys
    cases op with
    | zext =>
      have hmem := evalOperand_mem h hok.1 hop
      rw [← reading_zext hty (hok.2 y hop)] at hmem
      exact hmem
    | sext =>
      have hmem := evalOperand_mem h hok.1 hop
      rw [← reading_sext hty (hok.2 y hop)] at hmem
      exact hmem
    | _ => exact Interval.mem_top _
  | select c t e => exact Interval.mem_top _

/-! ## What a comparison says about its operands -/

theorem reading_range {v : Nat} (hv : v ≤ 128) (x : Nat) :
    -2 ^ 127 ≤ reading v x ∧ reading v x < 2 ^ 127 := by
  unfold reading
  split_ifs with h
  · omega
  · have hlo := BitVec.le_two_mul_toInt (x := BitVec.ofNat v x)
    have hhi := BitVec.two_mul_toInt_lt (x := BitVec.ofNat v x)
    have hpow : (2 : Int) ^ v ≤ 2 ^ 128 := pow_le_pow_right₀ (by decide) hv
    omega

theorem mem_upper {i : Interval} {x y : Int} {strict : Bool} (hy : Interval.Mem y i)
    (hxy : if strict then x < y else x ≤ y) (hx : -2 ^ 127 ≤ x) :
    Interval.Mem x (i.asUpperConstraint strict) := by
  cases i with
  | bottom => exact hy.elim
  | range lo hi =>
    refine ⟨trivial, ?_⟩
    cases strict with
    | false => exact hy.2.mono hxy
    | true =>
      have hsub : x ≤ y + -1 := by
        have : x < y := hxy
        omega
      have hone : Bound.Above (.fin ⟨-1, I128.negOne_lo, I128.negOne_hi⟩) (-1) := le_refl (-1 : Int)
      exact (Bound.above_add hy.2 hone (hx.trans hsub)).mono hsub

theorem mem_lower {i : Interval} {x y : Int} {strict : Bool} (hy : Interval.Mem y i)
    (hxy : if strict then y < x else y ≤ x) (hx : x < 2 ^ 127) :
    Interval.Mem x (i.asLowerConstraint strict) := by
  cases i with
  | bottom => exact hy.elim
  | range lo hi =>
    refine ⟨?_, trivial⟩
    cases strict with
    | false => exact hy.1.mono hxy
    | true =>
      have hadd : y + 1 ≤ x := hxy
      have hone : Bound.Below (.fin ⟨1, I128.one_lo, I128.one_hi⟩) 1 := le_refl (1 : Int)
      exact (Bound.below_add hy.1 hone (lt_of_le_of_lt hadd hx)).mono hadd

theorem constraints_sound {op : CmpOp} {i j nl nr : Interval} {x y : Int}
    (h : constraints op i j = some (nl, nr)) (hcmp : cmpInt op x y = true)
    (hx : Interval.Mem x i) (hy : Interval.Mem y j) (hxr : -2 ^ 127 ≤ x ∧ x < 2 ^ 127)
    (hyr : -2 ^ 127 ≤ y ∧ y < 2 ^ 127) : Interval.Mem x nl ∧ Interval.Mem y nr := by
  cases op with
  | slt =>
    obtain ⟨rfl, rfl⟩ := Prod.mk.inj (Option.some.inj h)
    have hlt : x < y := of_decide_eq_true hcmp
    exact ⟨mem_upper hy hlt hxr.1, mem_lower hx hlt hyr.2⟩
  | sle =>
    obtain ⟨rfl, rfl⟩ := Prod.mk.inj (Option.some.inj h)
    have hle : x ≤ y := of_decide_eq_true hcmp
    exact ⟨mem_upper hy hle hxr.1, mem_lower hx hle hyr.2⟩
  | sgt =>
    obtain ⟨rfl, rfl⟩ := Prod.mk.inj (Option.some.inj h)
    have hlt : y < x := of_decide_eq_true hcmp
    exact ⟨mem_lower hy hlt hxr.2, mem_upper hx hlt hyr.1⟩
  | sge =>
    obtain ⟨rfl, rfl⟩ := Prod.mk.inj (Option.some.inj h)
    have hle : y ≤ x := of_decide_eq_true hcmp
    exact ⟨mem_lower hy hle hxr.2, mem_upper hx hle hyr.1⟩
  | eq =>
    obtain ⟨rfl, rfl⟩ := Prod.mk.inj (Option.some.inj h)
    have heq : x = y := of_decide_eq_true hcmp
    exact ⟨heq ▸ hy, heq ▸ hx⟩
  | _ => exact absurd h (by simp [constraints])

/-! ## States -/

theorem get_set (hs : s.isReachable = true) (r : RegId) (v : Interval) (q : RegId) :
    (s.set r v).get q = if q = r then v else s.get q := by
  cases s with
  | unreachable => exact absurd hs (by decide)
  | reachable m => exact DefaultMap.get_set m r v q

theorem isReachable_set (r : RegId) (v : Interval) : (s.set r v).isReachable = s.isReachable := by
  cases s <;> rfl

theorem isReachable_of_leq (h : s.leq t = true) (hs : s.isReachable = true) :
    t.isReachable = true := by
  cases s with
  | unreachable => exact absurd hs (by decide)
  | reachable a =>
    cases t with
    | unreachable => exact absurd h (by simp [IntervalState.leq])
    | reachable b => rfl

theorem get_leq (h : s.leq t = true) (r : RegId) : (s.get r).leq (t.get r) = true := by
  cases s with
  | unreachable => rfl
  | reachable a =>
    cases t with
    | unreachable => exact absurd h (by simp [IntervalState.leq])
    | reachable b => exact IntervalState.leq_reachable.mp h r

theorem Described.mono (h : Described Γ s regs) (hle : s.leq t = true) : Described Γ t regs where
  reachable := isReachable_of_leq hle h.reachable
  mem r x hx := (h.mem r x hx).of_leq (get_leq hle r)

theorem Described.top : Described Γ .top regs where
  reachable := rfl
  mem _ _ _ := Interval.mem_top _

theorem Described.write (h : Described Γ s regs) {regs' : Regs} {d : RegId} {v : Interval}
    (hframe : ∀ r, r ≠ d → regs' r = regs r)
    (hd : ∀ x, regs' d = some x → Interval.Mem (reading (Γ d) x) v) :
    Described Γ (s.set d v) regs' where
  reachable := by rw [isReachable_set, h.reachable]
  mem r x hx := by
    rw [get_set h.reachable]
    split_ifs with hr
    · subst hr
      exact hd x hx
    · rw [hframe r hr] at hx
      exact h.mem r x hx

/-! ## Instructions -/

/-- What an instruction asks of the registers. -/
def InstOk (Γ : RegId → Nat) (regs : Regs) : Inst → Prop
  | .assign _ ty value => ValueOk Γ regs ty.typeWidth value
  | _ => True

theorem applyInst_described (h : Described Γ s regs) {i : Inst} {regs' : Regs}
    (hty : ∀ dst ty value, i = .assign dst ty value →
      Γ dst = ty.typeWidth ∧ value.WellTyped ty.typeWidth (value.operands.map (Operand.width Γ)))
    (hasm : ∀ defs, i = .asm defs → ∀ r ∈ defs, s.get r = .top)
    (hok : InstOk Γ regs i) (hex : i.Exec Γ regs regs') : Described Γ (applyInst s i) regs' := by
  -- an instruction that reports the register it writes forgets what was known of it
  have hforget : ∀ d, i.writes = [d] → Described Γ (s.set d .top) regs' := by
    intro d hd
    refine h.write (fun r hr => Func.exec_frame hex ?_) fun x _ => Interval.mem_top _
    rw [hd]
    exact fun hm => hr (List.mem_singleton.mp hm)
  have hkeep : i.writes = [] → Described Γ s regs' := by
    intro hnil
    refine ⟨h.reachable, fun r x hx => h.mem r x ?_⟩
    rw [← hx]
    exact (Func.exec_frame hex (by rw [hnil]; exact List.not_mem_nil)).symm
  cases i with
  | assign dst ty value =>
    obtain ⟨hdst, hvalue⟩ := hty dst ty value rfl
    cases hex with
    | @assign _ _ _ _ y hy =>
      refine h.write (fun r hr => Regs.set_of_ne hr y) fun x hx => ?_
      rw [Regs.set_self] at hx
      rw [← Option.some.inj hx, hdst]
      exact evalRvalue_mem h hvalue hok hy
    | other ha _ _ => exact absurd rfl (ha dst ty value)
  | asm defs =>
    refine ⟨h.reachable, fun r x hx => ?_⟩
    show Interval.Mem _ (s.get r)
    by_cases hr : r ∈ defs
    · rw [hasm defs rfl r hr]
      exact Interval.mem_top _
    · rw [Func.exec_frame hex hr] at hx
      exact h.mem r x hx
  | call dst callee args =>
    cases dst with
    | some d => exact hforget d rfl
    | none => exact hkeep rfl
  | intrinsic dst name args =>
    cases dst with
    | some d => exact hforget d rfl
    | none => exact hkeep rfl
  | load dst ty ptr vol => exact hforget dst rfl
  | alloc dst region elem count align => exact hforget dst rfl
  | ptrOffset dst base index elem => exact hforget dst rfl
  | fieldPtr dst base => exact hforget dst rfl
  | refWitness dst size align writable assumed => exact hforget dst rfl
  | store ty ptr value vol => exact hkeep rfl
  | dealloc region ptr => exact hkeep rfl
  | memIntrinsic dst src len => exact hkeep rfl
  | note => exact hkeep rfl

/-! ## Guards -/

theorem exists_site {i : Inst} (h : i ∈ f.blocks.flatMap (·.insts)) :
    ∃ (m : Nat) (b : BasicBlock) (j : Nat), f.blocks[m]? = some b ∧ b.insts[j]? = some i := by
  obtain ⟨b, hb, hi⟩ := List.mem_flatMap.mp h
  obtain ⟨m, hm⟩ := List.mem_iff_getElem?.mp hb
  obtain ⟨j, hj⟩ := List.mem_iff_getElem?.mp hi
  exact ⟨m, b, j, hm, hj⟩

theorem collectCmps_spec {c : RegId} {op : CmpOp} {lhs rhs : Operand}
    (h : collectCmps f c = some (op, lhs, rhs)) :
    ∃ ty, Inst.assign c ty (.cmp op lhs rhs) ∈ f.blocks.flatMap (·.insts) := by
  obtain ⟨i, hi, hval⟩ := List.mem_filterMap.mp (List.mem_of_getLast? h)
  split at hval
  · rename_i dst ty op' l r
    split_ifs at hval with hdst
    obtain ⟨rfl, rfl, rfl⟩ := by simpa using hval
    subst hdst
    exact ⟨ty, hi⟩
  · exact absurd hval (by simp)

theorem collectCopies_spec {r src : RegId} (h : collectCopies f r = some src) :
    ∃ ty, Inst.assign r ty (.use (.reg src)) ∈ f.blocks.flatMap (·.insts) := by
  obtain ⟨i, hi, hval⟩ := List.mem_filterMap.mp (List.mem_of_getLast? h)
  split at hval
  · rename_i dst ty src'
    split_ifs at hval with hdst
    obtain rfl := Option.some.inj hval
    subst hdst
    exact ⟨ty, hi⟩
  · exact absurd hval (by simp)

/-- Every place that writes the register dominates block `n`. -/
def WrittenAbove (f : Func) (n : Nat) (r : RegId) : Prop :=
  ∀ (m : Nat) c k, f.blocks[m]? = some c → c.Writes r k → f.Dominates m n

theorem live_of_dominates {m n : Nat} (h : f.Dominates m n) : f.Live m := by
  obtain ⟨l, hl⟩ := h.1
  obtain ⟨l', hl', _⟩ := hl.upto (h.2 l hl)
  exact ⟨l', hl'⟩

theorem WrittenAbove.operand (hssa : f.StrictSsa) {m n : Nat} {b : BasicBlock} {j : Nat} {dst : RegId}
    {ty : Ty} {value : RValue} (hb : f.blocks[m]? = some b)
    (hj : b.insts[j]? = some (.assign dst ty value)) (hdom : f.Dominates m n) {r : RegId}
    (hr : .reg r ∈ value.operands) : WrittenAbove f n r := by
  intro m' c k hc hw
  have huse := hssa.use m b hb (live_of_dominates hdom) j dst ty value hj r hr m' c k hc hw
  exact Dom.trans huse.1 hdom

/-- The end of block `n` with these registers, where the equations of all the assignments above
    hold. -/
structure AtEnd (f : Func) (Γ : RegId → Nat) (n : Nat) (regs : Regs) : Prop where
  ssa : f.StrictSsa
  typed : f.WellTyped Γ
  equation : ∀ (m : Nat) b (j : Nat) dst ty value, f.blocks[m]? = some b →
    b.insts[j]? = some (.assign dst ty value) → f.Dominates m n →
    ∀ x, regs dst = some x → value.Evals Γ regs ty.typeWidth x

theorem AtEnd.value {n : Nat} (h : AtEnd f Γ n regs) {r : RegId} {ty : Ty} {value : RValue}
    (hi : Inst.assign r ty value ∈ f.blocks.flatMap (·.insts)) (hr : WrittenAbove f n r) {x : Nat}
    (hx : regs r = some x) :
    Γ r = ty.typeWidth ∧ value.WellTyped ty.typeWidth (value.operands.map (Operand.width Γ)) ∧
      value.Evals Γ regs ty.typeWidth x ∧ ∀ q, .reg q ∈ value.operands → WrittenAbove f n q := by
  obtain ⟨m, b, j, hb, hj⟩ := exists_site hi
  have hdom : f.Dominates m n :=
    hr m b (j + 1) hb (.inr ⟨j, _, rfl, hj, by simp [Inst.writes, Inst.definedReg]⟩)
  obtain ⟨hw, hty⟩ :=
    h.typed.assign b (List.mem_of_getElem? hb) r ty value (List.mem_of_getElem? hj)
  exact ⟨hw, hty, h.equation m b j r ty value hb hj hdom x hx,
    fun q hq => WrittenAbove.operand h.ssa hb hj hdom hq⟩

/-- A register that holds a value of the interval may be refined by it, and so may everything it was
    copied from. -/
theorem refineReg_described {n : Nat} (hend : AtEnd f Γ n regs) {iv : Interval} (fuel : Nat) :
    ∀ {s : IntervalState} {r : RegId} {x : Nat}, Described Γ s regs → WrittenAbove f n r →
      regs r = some x → Interval.Mem (reading (Γ r) x) iv →
      Described Γ (refineReg (collectCopies f) iv fuel s r) regs := by
  induction fuel with
  | zero => exact fun h _ _ _ => h
  | succ fuel ih =>
    intro s r x h hr hx hmem
    have hset : Described Γ (s.set r ((s.get r).meet iv)) regs := by
      refine h.write (fun _ _ => rfl) fun y hy => ?_
      obtain rfl : x = y := Option.some.inj (hx.symm.trans hy)
      exact Interval.mem_meet (h.mem r x hx) hmem
    simp only [refineReg]
    split
    · rename_i src hsrc
      split_ifs
      · -- the copied register holds the same value, so the same refinement
        obtain ⟨ty, hi⟩ := collectCopies_spec hsrc
        obtain ⟨hw, hty, ⟨xs, hxs, hval⟩, hops⟩ := hend.value hi hr hx
        obtain ⟨y, ys, hy, hys, rfl⟩ := List.forall₂_cons_left_iff.mp hxs
        obtain rfl := List.forall₂_nil_left_iff.mp hys
        have hwidth : Γ src = ty.typeWidth := hty
        have hval' : x = y % 2 ^ Γ src % 2 ^ ty.typeWidth := hval
        refine ih hset (hops src (List.mem_singleton.mpr rfl)) hy ?_
        rw [hval', hw, ← hwidth, reading_mod, reading_mod] at hmem
        exact hmem
      · exact hset
    · exact hset

theorem refineOperand_described {n : Nat} (hend : AtEnd f Γ n regs) {op : Operand} {iv : Interval}
    {x : Nat} (h : Described Γ s regs) (hop : ∀ r, op = .reg r → WrittenAbove f n r)
    (hx : op.Evals regs x) (hmem : Interval.Mem (reading (op.width Γ) x) iv) :
    Described Γ (refineOperand (collectCopies f) s op iv) regs := by
  cases op with
  | const c => exact h
  | reg r => exact refineReg_described hend 64 h (hop r rfl) hx hmem

theorem cmpInt_negate (op : CmpOp) (x y : Int) : cmpInt op.negate x y = !cmpInt op x y := by
  cases op <;> simp only [CmpOp.negate, cmpInt, ← decide_not, not_lt, not_le, not_not]

/-- What the comparison behind a branch asks of its operands, when the branch refines them. -/
def GuardOk (Γ : RegId → Nat) (op : CmpOp) (lhs rhs : Operand) : Prop :=
  match op with
  | .ult | .ule | .ugt | .uge => True
  | .eq | .ne => Plain lhs ∧ Plain rhs ∧ lhs.width Γ ≤ 128
  | .slt | .sle | .sgt | .sge =>
    Plain lhs ∧ Plain rhs ∧ lhs.width Γ ≤ 128 ∧ lhs.width Γ ≠ 1

theorem constraints_unsigned {op : CmpOp} {i j : Interval} (h : op = .ult ∨ op = .ule ∨ op = .ugt ∨ op = .uge) :
    constraints op i j = none ∧ constraints op.negate i j = none := by
  rcases h with rfl | rfl | rfl | rfl <;> exact ⟨rfl, rfl⟩

theorem refineByCmp_described {n : Nat} (hend : AtEnd f Γ n regs) {op : CmpOp} {lhs rhs : Operand}
    {negate : Bool} {x y : Nat} (h : Described Γ s regs) (hok : GuardOk Γ op lhs rhs)
    (hl : ∀ r, lhs = .reg r → WrittenAbove f n r) (hr : ∀ r, rhs = .reg r → WrittenAbove f n r)
    (hx : lhs.Evals regs x) (hy : rhs.Evals regs y) (hwidth : lhs.width Γ = rhs.width Γ)
    (hcmp : op.eval (lhs.width Γ) x y = !negate) :
    Described Γ (refineByCmp (collectCopies f) s op lhs rhs negate) regs := by
  by_cases hunsigned : op = .ult ∨ op = .ule ∨ op = .ugt ∨ op = .uge
  · -- an unsigned comparison refines nothing
    have hnone : constraints (if negate then op.negate else op) (evalOperand lhs s)
        (evalOperand rhs s) = none := by
      split_ifs
      · exact (constraints_unsigned hunsigned).2
      · exact (constraints_unsigned hunsigned).1
    simp only [refineByCmp, hnone]
    exact h
  · obtain ⟨hpl, hpr, hle, hcmpOk⟩ :
        Plain lhs ∧ Plain rhs ∧ lhs.width Γ ≤ 128 ∧ CmpOk op (lhs.width Γ) x y := by
      cases op with
      | eq | ne => exact ⟨hok.1, hok.2.1, hok.2.2, trivial⟩
      | slt | sle | sgt | sge => exact hok
      | ult | ule | ugt | uge => simp at hunsigned
    rw [eval_eq_cmpInt hcmpOk] at hcmp
    have hholds : cmpInt (if negate then op.negate else op) (reading (lhs.width Γ) x)
        (reading (lhs.width Γ) y) = true := by
      cases negate with
      | false => exact hcmp
      | true =>
        rw [if_pos rfl, cmpInt_negate, hcmp]
        rfl
    have hml := evalOperand_mem h hpl hx
    have hmr := evalOperand_mem h hpr hy
    simp only [refineByCmp]
    split
    · rename_i nl nr hcons
      obtain ⟨hnl, hnr⟩ := constraints_sound hcons hholds hml (hwidth ▸ hmr) (reading_range hle x)
        (reading_range hle y)
      rw [hwidth] at hnr
      exact refineOperand_described hend
        (refineOperand_described hend h hl hx (Interval.mem_meet hml hnl)) hr hy
        (Interval.mem_meet hmr hnr)
    · exact h

def TermOk (f : Func) (Γ : RegId → Nat) : Terminator → Prop
  | .condBr (.reg c) t _ e _ =>
    t ≠ e → ∀ op lhs rhs, collectCmps f c = some (op, lhs, rhs) → GuardOk Γ op lhs rhs
  | _ => True

theorem refineEdge_described {n : Nat} (hend : AtEnd f Γ n regs) {b : BasicBlock}
    (hb : f.blocks[n]? = some b) (hn : f.Live n) (h : Described Γ s regs) (hok : TermOk f Γ b.term)
    {target : BlockId} {args : List Operand} (hgoes : b.term.Goes regs target args) :
    Described Γ (refineEdge f b.term target s) regs := by
  generalize hterm : b.term = term at hgoes hok
  unfold refineEdge
  split
  · rename_i c t targs e eargs
    have hc : WrittenAbove f n c := hend.ssa.branch n b hb hn c t targs e eargs hterm
    split
    · rename_i op lhs rhs hcmps
      split_ifs with hside
      · have hte : t ≠ e := by
          rintro rfl
          exact hside rfl
        obtain ⟨ty, hi⟩ := collectCmps_spec hcmps
        -- the value branched on, and that it tells the two sides apart
        obtain ⟨x, hx, hxt⟩ : ∃ x, regs c = some x ∧ (x = 0 ↔ e = target) := by
          cases hgoes with
          | condThen hx hne => exact ⟨_, hx, iff_of_false hne fun he => hte he.symm⟩
          | condElse hx => exact ⟨0, hx, iff_of_true rfl rfl⟩
        obtain ⟨_, hty, ⟨xs, hxs, hval⟩, hops⟩ := hend.value hi hc hx
        obtain ⟨y, ys, hl, hys, rfl⟩ := List.forall₂_cons_left_iff.mp hxs
        obtain ⟨z, zs, hr, hzs, rfl⟩ := List.forall₂_cons_left_iff.mp hys
        obtain rfl := List.forall₂_nil_left_iff.mp hzs
        obtain ⟨_, hwidth⟩ : ty.typeWidth = 1 ∧ lhs.width Γ = rhs.width Γ := hty
        have hval' : x = (op.eval (lhs.width Γ) (y % 2 ^ lhs.width Γ) (z % 2 ^ rhs.width Γ)).toNat := hval
        rw [← hwidth, CmpOp.eval_mod] at hval'
        refine refineByCmp_described hend h (hok hte op lhs rhs hcmps) (fun r hr => ?_)
          (fun r hr => ?_) hl hr hwidth ?_
        · exact hops r (hr ▸ List.mem_cons_self)
        · exact hops r (hr ▸ List.mem_cons_of_mem _ (List.mem_singleton.mpr rfl))
        · cases hev : op.eval (lhs.width Γ) y z with
          | false =>
            rw [hev] at hval'
            rw [decide_eq_true (hxt.mp hval')]
            rfl
          | true =>
            rw [hev] at hval'
            have hne : x ≠ 0 := by
              rw [hval']
              decide
            rw [decide_eq_false fun he => hne (hxt.mpr he)]
            rfl
      · exact h
    · exact h
  · exact h

/-! ## Edges -/

theorem bindParams_described {src : IntervalState} {args : List Operand} (hsrc : Described Γ src regs)
    (hplain : ∀ op ∈ args, Plain op) :
    ∀ (ps : List (RegId × Ty)) (i : Nat) {s : IntervalState} {regs' : Regs} {xs : List Nat},
      Described Γ s regs' → List.Forall₂ (Operand.Evals regs) (args.drop i) xs →
      (args.drop i).length = ps.length →
      (∀ p ∈ ps.zip (args.drop i), p.2.width Γ = Γ p.1.1) →
      Described Γ (bindParams args src i ps s) (regs'.bind ps xs) := by
  intro ps
  induction ps with
  | nil => exact fun i s regs' xs h _ _ _ => h
  | cons p ps ih =>
    intro i s regs' xs h hargs hlen hty
    obtain ⟨r, ty⟩ := p
    cases hdrop : args.drop i with
    | nil =>
      rw [hdrop] at hlen
      exact absurd hlen (by simp)
    | cons op ops =>
      have hget : args[i]? = some op := by rw [← List.head?_drop, hdrop]; rfl
      have htail : args.drop (i + 1) = ops := by rw [← List.tail_drop, hdrop]; rfl
      rw [hdrop] at hargs hlen hty
      obtain ⟨x, xs', hop, hops, rfl⟩ := List.forall₂_cons_left_iff.mp hargs
      have hwidth : op.width Γ = Γ r := hty ((r, ty), op) List.mem_cons_self
      have hmem := evalOperand_mem hsrc (hplain op (List.mem_of_getElem? hget)) hop
      rw [hwidth] at hmem
      have hset : Described Γ (s.set r (evalOperand op src)) (regs'.set r x) := by
        refine h.write (fun q hq => Regs.set_of_ne hq x) fun y hy => ?_
        rw [Regs.set_self] at hy
        rw [← Option.some.inj hy]
        exact hmem
      simp only [bindParams, hget]
      refine ih (i + 1) hset (htail ▸ hops) ?_ fun p hp => ?_
      · rw [htail]
        simpa using hlen
      · rw [htail] at hp
        exact hty p (List.mem_cons_of_mem _ hp)

theorem blockAt_eq (hids : (f.blocks.map (·.id)).Nodup) {n : Nat} {b : BasicBlock} (hb : f.blocks[n]? = some b) :
    blockAt f n = some b := by
  have hmem := List.mem_of_getElem? hb
  have hsome : ∃ c, f.block b.id = some c := by
    rw [← Option.isSome_iff_exists]
    unfold Func.block
    have hfind : (f.blocks.find? fun c => c.id = b.id).isSome = true := by
      rw [List.find?_isSome]
      exact ⟨b, hmem, by simp⟩
    split
    · split_ifs
      · rfl
      · exact hfind
    · exact hfind
  obtain ⟨c, hc⟩ := hsome
  obtain ⟨hcmem, hcid⟩ := Func.block_spec hc
  rw [blockAt, hb, Option.bind_some, hc, List.inj_on_of_nodup_map hids hcmem hmem hcid]

theorem matchingArgs_of_goes {t : Terminator} {target : BlockId} {args : List Operand}
    (h : t.Goes regs target args) : args ∈ matchingArgs t target ∨ matchingArgs t target = [] ∧ args = [] := by
  cases h with
  | br => exact .inl (by simp [matchingArgs])
  | condThen _ _ => exact .inl (by simp [matchingArgs])
  | condElse _ => exact .inl (by simp [matchingArgs])
  | switchCase _ _ => exact .inr ⟨rfl, rfl⟩
  | switchDefault _ _ => exact .inr ⟨rfl, rfl⟩

theorem transferEdge_of_refined (hids : (f.blocks.map (·.id)).Nodup) {n m : Nat} {b tb : BasicBlock}
    (hb : f.blocks[n]? = some b) (htb : f.blocks[m]? = some tb) (h : Described Γ s regs) {args : List Operand} {xs : List Nat}
    (href : Described Γ (refineEdge f b.term tb.id s) regs)
    (hgoes : b.term.Goes regs tb.id args) (hplain : ∀ op ∈ args, Plain op)
    (hargs : List.Forall₂ (Operand.Evals regs) args xs) (hlen : args.length = tb.params.length)
    (hwidth : ∀ p ∈ tb.params.zip args, p.2.width Γ = Γ p.1.1) :
    Described Γ (transferEdge f n m s) (regs.bind tb.params xs) := by
  have hbind : Described Γ (bindParams args (refineEdge f b.term tb.id s) 0 tb.params
      (refineEdge f b.term tb.id s)) (regs.bind tb.params xs) :=
    bindParams_described href hplain tb.params 0 href hargs hlen hwidth
  rw [transferEdge, if_pos h.reachable, blockAt_eq hids hb, blockAt_eq hids htb]
  simp only
  split
  · rename_i hnil
    rcases matchingArgs_of_goes hgoes with hmem | ⟨_, rfl⟩
    · rw [hnil] at hmem
      exact absurd hmem List.not_mem_nil
    · have hparams : tb.params = [] := List.eq_nil_of_length_eq_zero hlen.symm
      rw [hparams]
      exact href
  · rename_i hne
    rcases matchingArgs_of_goes hgoes with hmem | ⟨hnil, _⟩
    · refine hbind.mono ?_
      exact (Engine.leq_foldl (f := fun args => bindParams args (refineEdge f b.term tb.id s) 0
        tb.params (refineEdge f b.term tb.id s)) (matchingArgs b.term tb.id) .unreachable).2 args hmem
    · exact absurd hnil hne

theorem transferEdge_described (hwf : f.WellFormed) {n m : Nat} (hend : AtEnd f Γ n regs)
    {b tb : BasicBlock} (hb : f.blocks[n]? = some b) (htb : f.blocks[m]? = some tb) (hn : f.Live n)
    (h : Described Γ s regs) (hok : TermOk f Γ b.term) {args : List Operand} {xs : List Nat}
    (hgoes : b.term.Goes regs tb.id args) (hblock : f.block tb.id = some tb)
    (hplain : ∀ op ∈ args, Plain op) (hargs : List.Forall₂ (Operand.Evals regs) args xs)
    (hlen : args.length = tb.params.length) :
    Described Γ (transferEdge f n m s) (regs.bind tb.params xs) :=
  transferEdge_of_refined hwf.ids hb htb h (refineEdge_described hend hb hn h hok hgoes) hgoes hplain hargs hlen
    (hend.typed.edge b (List.mem_of_getElem? hb) (tb.id, args) hgoes.mem_edges tb hblock)

end Intervals

end Csolver
