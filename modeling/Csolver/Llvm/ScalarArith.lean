import Csolver.Ir.Run
import Csolver.Llvm.Blocks
import Csolver.Symbolic.RValue
import Mathlib.Data.Int.ModEq

/-!
# One number at two widths

When an operation at a width other than that of its type gives the value of its type: for constants, which are cut
to another width, for signed comparisons and sign extensions, and for sums and products.
-/

namespace Csolver

namespace Llvm

/-! ## Constants -/

/-- A constant of the type: signed or not, it fits the width. -/
def Literal (w : Nat) (n : Int) : Prop := 1 ≤ w ∧ -2 ^ (w - 1) ≤ n ∧ n < 2 ^ w

theorem Literal.pow {w : Nat} {n : Int} (h : Literal w n) : (2 : Int) ^ w = 2 * 2 ^ (w - 1) := by
  obtain ⟨k, rfl⟩ : ∃ k, w = k + 1 := ⟨w - 1, by have := h.1; omega⟩
  rw [Nat.add_sub_cancel, pow_succ, mul_comm]

theorem Literal.emod {w : Nat} {n : Int} (h : Literal w n) : n % 2 ^ w = if 0 ≤ n then n else n + 2 ^ w := by
  have hpow := h.pow
  have hlo := h.2.1
  have hhi := h.2.2
  split
  · next hn => exact Int.emod_eq_of_lt hn hhi
  · next hn =>
    rw [← Int.add_emod_right]
    exact Int.emod_eq_of_lt (by omega) (by omega)

theorem pow_lt_64 {w : Nat} (h : w < 64) : (2 : Int) ^ w ≤ 2 ^ 63 := pow_le_pow_right₀ (by decide) (by omega)

theorem pow_gt_64 {w : Nat} (h : 64 < w) : (2 : Int) ^ 64 ≤ 2 ^ (w - 1) := pow_le_pow_right₀ (by decide) (by omega)

theorem toNat_emod_inj {a b : Int} {u v : Nat} : (a % 2 ^ u).toNat = (b % 2 ^ v).toNat ↔ a % 2 ^ u = b % 2 ^ v := by
  have hu : 0 ≤ a % 2 ^ u := Int.emod_nonneg _ (by positivity)
  have hv : 0 ≤ b % 2 ^ v := Int.emod_nonneg _ (by positivity)
  omega

theorem lit_eq_iff {w : Nat} {n : Int} (h : Literal w n) :
    (n % 2 ^ 64).toNat = (n % 2 ^ w).toNat ↔ w = 64 ∨ 0 ≤ n ∧ n < 2 ^ 64 := by
  rw [toNat_emod_inj, h.emod]
  have hpow := h.pow
  have hlo := h.2.1
  have hhi := h.2.2
  rcases Nat.lt_trichotomy w 64 with hw | rfl | hw
  · have hle := pow_lt_64 hw
    split <;> omega
  · split <;> omega
  · have hle := pow_gt_64 hw
    split <;> omega

theorem toNat_emod_pow (n : Int) (v u : Nat) : (n % 2 ^ v).toNat % 2 ^ u = (n % 2 ^ v % 2 ^ u).toNat := by
  rw [Int.toNat_emod (Int.emod_nonneg _ (by positivity)) (by positivity)]
  rfl

theorem emod_pow_of_le {n : Int} {u v : Nat} (h : u ≤ v) : n % 2 ^ v % 2 ^ u = n % 2 ^ u :=
  Int.emod_emod_of_dvd _ (pow_dvd_pow 2 h)

theorem emod_pow_of_ge {n : Int} {u v : Nat} (h : v ≤ u) : n % 2 ^ v % 2 ^ u = n % 2 ^ v := by
  have hle : (2 : Int) ^ v ≤ 2 ^ u := pow_le_pow_right₀ (by decide) h
  have hlt := Int.emod_lt_of_pos n (by positivity : (0 : Int) < 2 ^ v)
  exact Int.emod_eq_of_lt (Int.emod_nonneg _ (by positivity)) (by omega)

theorem lit_zext_iff {w u : Nat} {n : Int} (h : Literal w n) (hu : w < u) :
    (n % 2 ^ 64).toNat % 2 ^ u = (n % 2 ^ w).toNat ↔ w = 64 ∨ 0 ≤ n ∧ n < 2 ^ 64 := by
  rw [toNat_emod_pow]
  rcases Nat.lt_or_ge u 64 with hlt | hge
  · -- the value is cut to the wider type
    have hlit : Literal u n := by
      have hle : (2 : Int) ^ (w - 1) ≤ 2 ^ (u - 1) := pow_le_pow_right₀ (by decide) (by omega)
      have hle' : (2 : Int) ^ w ≤ 2 ^ u := pow_le_pow_right₀ (by decide) hu.le
      exact ⟨by omega, by have := h.2.1; omega, by have := h.2.2; omega⟩
    have hw : (2 : Int) ^ w < 2 ^ u := pow_lt_pow_right₀ (by decide) hu
    have h64 := pow_lt_64 hlt
    have hhi := h.2.2
    rw [emod_pow_of_le hlt.le, toNat_emod_inj, h.emod, hlit.emod]
    split <;> omega
  · rw [emod_pow_of_ge hge]
    exact lit_eq_iff h

theorem lit_trunc_iff {w u : Nat} {n : Int} (hu : u ≤ w) :
    (n % 2 ^ 64).toNat % 2 ^ u = (n % 2 ^ w).toNat % 2 ^ u ↔ u ≤ 64 ∨ n % 2 ^ u < 2 ^ 64 := by
  rw [toNat_emod_pow, toNat_emod_pow, emod_pow_of_le hu]
  rcases Nat.lt_or_ge 64 u with hgt | hle
  · rw [emod_pow_of_ge hgt.le, toNat_emod_inj, ← emod_pow_of_le hgt.le]
    have hnonneg : 0 ≤ n % 2 ^ u := Int.emod_nonneg _ (by positivity)
    constructor
    · intro heq
      exact .inr (by rw [← heq]; exact Int.emod_lt_of_pos _ (by positivity))
    · intro hlt
      exact Int.emod_eq_of_lt hnonneg (hlt.resolve_left (by omega))
  · rw [emod_pow_of_le hle]
    exact ⟨fun _ => .inl hle, fun _ => rfl⟩

/-- A number at two widths, one of which is 64: it is the same if its part of the wider one fits the other. -/
theorem emod_64_iff {w : Nat} {e : Int} :
    (e % 2 ^ 64).toNat = (e % 2 ^ w).toNat ↔ w = 64 ∨ e % 2 ^ max w 64 < 2 ^ min w 64 := by
  rw [toNat_emod_inj]
  have hlt (v : Nat) : e % 2 ^ v < 2 ^ v := Int.emod_lt_of_pos _ (by positivity)
  have hnonneg (v : Nat) : 0 ≤ e % 2 ^ v := Int.emod_nonneg _ (by positivity)
  rcases Nat.lt_trichotomy w 64 with hw | rfl | hw
  · rw [Nat.max_eq_right hw.le, Nat.min_eq_left hw.le, ← emod_pow_of_le hw.le]
    constructor
    · intro heq
      exact .inr (by rw [heq, emod_pow_of_le hw.le]; exact hlt w)
    · intro h
      exact (Int.emod_eq_of_lt (hnonneg 64) (h.resolve_left hw.ne)).symm
  · exact ⟨fun _ => .inl rfl, fun _ => rfl⟩
  · rw [Nat.max_eq_left hw.le, Nat.min_eq_right hw.le, ← emod_pow_of_le hw.le]
    constructor
    · intro heq
      exact .inr (by rw [← heq, emod_pow_of_le hw.le]; exact hlt 64)
    · intro h
      exact Int.emod_eq_of_lt (hnonneg w) (h.resolve_left hw.ne')

/-! ## Signed numbers -/

theorem toInt_of_lt {w x : Nat} (hx : x < 2 ^ w) :
    (BitVec.ofNat w x).toInt = if 2 * x < 2 ^ w then (x : Int) else x - 2 ^ w := by
  rw [BitVec.toInt_eq_toNat_cond, BitVec.toNat_ofNat, Nat.mod_eq_of_lt hx]
  push_cast
  rfl

theorem toInt_of_wider {v w x : Nat} (hx : x < 2 ^ w) (hw : w < v) : (BitVec.ofNat v x).toInt = x := by
  have hle : 2 * 2 ^ w ≤ 2 ^ v := by
    rw [← pow_succ']
    exact Nat.pow_le_pow_right (by decide) hw
  rw [toInt_of_lt (by omega), if_pos (by omega)]

def signedPred : CmpOp → Bool
  | .slt | .sle | .sgt | .sge => true
  | _ => false

theorem cmp_eq_iff {pred : CmpOp} {v w x y : Nat} (hx : x < 2 ^ w) (hy : y < 2 ^ w) (hvw : w ≤ v) :
    pred.eval v x y = pred.eval w x y ↔
      signedPred pred = true → v = w ∨ (2 * x < 2 ^ w ↔ 2 * y < 2 ^ w) := by
  have hle : 2 ^ w ≤ 2 ^ v := Nat.pow_le_pow_right (by decide) hvw
  have hxn (u : Nat) (h : 2 ^ w ≤ 2 ^ u) : (BitVec.ofNat u x).toNat = x :=
    Nat.mod_eq_of_lt (by omega)
  have hyn (u : Nat) (h : 2 ^ w ≤ 2 ^ u) : (BitVec.ofNat u y).toNat = y :=
    Nat.mod_eq_of_lt (by omega)
  have hunsigned (h : signedPred pred = false) : pred.eval v x y = pred.eval w x y := by
    cases pred <;> simp [signedPred] at h <;>
      simp [CmpOp.eval, CmpOp.evalBv, BitVec.ult, BitVec.ule, hxn v hle, hxn w le_rfl, hyn v hle, hyn w le_rfl,
        ← BitVec.toNat_inj, bne, BEq.beq]
  cases hs : signedPred pred with
  | false => exact ⟨fun _ h => absurd h (by decide), fun _ => hunsigned hs⟩
  | true =>
    rcases Nat.eq_or_lt_of_le hvw with rfl | hlt
    · exact ⟨fun _ _ => .inl rfl, fun _ => rfl⟩
    · have hne : v ≠ w := hlt.ne'
      have hcast : ((2 ^ w : Nat) : Int) = 2 ^ w := by push_cast; rfl
      simp only [hne, false_or, forall_const]
      cases pred <;> simp only [signedPred, Bool.false_eq_true] at hs <;>
        simp only [CmpOp.eval, CmpOp.evalBv, BitVec.slt, BitVec.sle, toInt_of_wider hx hlt, toInt_of_wider hy hlt,
          toInt_of_lt hx, toInt_of_lt hy, decide_eq_decide, ← hcast] <;>
        (split <;> split <;> omega)

theorem signExtend_eq (v u x : Nat) : signExtend v u x = ((BitVec.ofNat v x).toInt % 2 ^ u).toNat := by
  rw [signExtend, BitVec.signExtend, BitVec.toNat_ofInt]
  push_cast
  rfl

theorem sext_eq_iff {v w u x : Nat} (hx : x < 2 ^ w) (hvw : w ≤ v) (hu : w < u) :
    signExtend v u x = signExtend w u x ↔ v = w ∨ 2 * x < 2 ^ w := by
  rcases Nat.eq_or_lt_of_le hvw with rfl | hlt
  · exact ⟨fun _ => .inl rfl, fun _ => rfl⟩
  · have hne : v ≠ w := hlt.ne'
    have hcast : ((2 ^ w : Nat) : Int) = 2 ^ w := by push_cast; rfl
    have hpow : 2 * (2 : Int) ^ w ≤ 2 ^ u := by
      rw [← pow_succ']
      exact pow_le_pow_right₀ (by decide) hu
    rw [signExtend_eq, signExtend_eq, toNat_emod_inj, toInt_of_wider hx hlt, toInt_of_lt hx]
    split
    · next hlow => exact ⟨fun _ => .inr hlow, fun _ => rfl⟩
    · next hhigh =>
      have hself : (x : Int) % 2 ^ u = x := Int.emod_eq_of_lt (by omega) (by omega)
      have hneg : ((x : Int) - 2 ^ w) % 2 ^ u = x - 2 ^ w + 2 ^ u := by
        rw [← Int.add_emod_right]
        exact Int.emod_eq_of_lt (by omega) (by omega)
      rw [hself, hneg]
      omega

/-- The number that a constant of the type stands for. -/
def litInt (w : Nat) (n : Int) : Int := (BitVec.ofNat w (n % 2 ^ w).toNat).toInt

theorem Literal.litInt_eq {w : Nat} {n : Int} (h : Literal w n) :
    litInt w n = if 2 * n < 2 ^ w then n else n - 2 ^ w := by
  have hpow := h.pow
  have hlo := h.2.1
  have hhi := h.2.2
  have hcast : ((2 ^ w : Nat) : Int) = 2 ^ w := by push_cast; rfl
  have hx : (n % 2 ^ w).toNat < 2 ^ w := by
    have := Int.emod_lt_of_pos n (by positivity : (0 : Int) < 2 ^ w)
    omega
  rw [litInt, toInt_of_lt hx]
  have hval := h.emod
  have hnonneg : 0 ≤ n % 2 ^ w := Int.emod_nonneg _ (by positivity)
  split at hval <;> split <;> split <;> omega

theorem litInt_emod {w : Nat} (n : Int) (hw : 64 ≤ w) : litInt w n % 2 ^ 64 = n % 2 ^ 64 := by
  have hofInt : BitVec.ofNat w (n % 2 ^ w).toNat = BitVec.ofInt w n := by
    apply BitVec.eq_of_toNat_eq
    rw [BitVec.toNat_ofNat, BitVec.toNat_ofInt, toNat_emod_pow, emod_pow_of_le le_rfl]
    push_cast
    rfl
  have hcast : ((2 ^ w : Nat) : Int) = 2 ^ w := by push_cast; rfl
  rw [litInt, hofInt, BitVec.toInt_ofInt, ← emod_pow_of_le hw, ← hcast, Int.bmod_emod, hcast, emod_pow_of_le hw]

theorem litInt_64_range (n : Int) : -2 ^ 63 ≤ litInt 64 n ∧ litInt 64 n < 2 ^ 63 := by
  rw [litInt]
  exact ⟨BitVec.le_toInt _, BitVec.toInt_lt⟩

theorem emod_inj_of_small {u : Nat} {a b : Int} (hu : 1 ≤ u) (ha : -2 ^ (u - 1) ≤ a ∧ a < 2 ^ (u - 1))
    (hb : -2 ^ (u - 1) ≤ b ∧ b < 2 ^ (u - 1)) : a % 2 ^ u = b % 2 ^ u ↔ a = b := by
  have hlit {c : Int} (hc : -2 ^ (u - 1) ≤ c ∧ c < 2 ^ (u - 1)) : Literal u c := by
    have hle : (2 : Int) ^ (u - 1) ≤ 2 ^ u := pow_le_pow_right₀ (by decide) (by omega)
    exact ⟨hu, hc.1, by omega⟩
  have hpow := (hlit ha).pow
  rw [(hlit ha).emod, (hlit hb).emod]
  split <;> split <;> omega

/-- The signed number of a constant fits 64 bits, and a narrower one is written with its sign. -/
def SextOk (w : Nat) (n : Int) : Prop :=
  w = 64 ∨ (w < 64 ∧ 2 * n < 2 ^ w) ∨ (64 < w ∧ -2 ^ 63 ≤ litInt w n ∧ litInt w n < 2 ^ 63)

theorem lit_sext_iff {w u : Nat} {n : Int} (h : Literal w n) (hu : w < u) :
    signExtend 64 u (n % 2 ^ 64).toNat = signExtend w u (n % 2 ^ w).toNat ↔ SextOk w n := by
  have heq : signExtend 64 u (n % 2 ^ 64).toNat = signExtend w u (n % 2 ^ w).toNat ↔
      litInt 64 n % 2 ^ u = litInt w n % 2 ^ u := by
    rw [signExtend_eq, signExtend_eq, toNat_emod_inj]
    rfl
  rw [heq, SextOk]
  have hhalf : (2 : Int) ^ w ≤ 2 ^ (u - 1) := pow_le_pow_right₀ (by decide) (by omega)
  have hu1 : 1 ≤ u := by omega
  have hpow := h.pow
  have hlo := h.2.1
  have hhi := h.2.2
  have ht := h.litInt_eq
  have htlo : -2 ^ (u - 1) ≤ litInt w n ∧ litInt w n < 2 ^ (u - 1) := by
    rw [ht]
    split <;> omega
  rcases Nat.lt_trichotomy w 64 with hw | rfl | hw
  · have h64 := pow_lt_64 hw
    have hlit : Literal 64 n := ⟨by decide, by omega, by omega⟩
    have hs : litInt 64 n = n := by
      rw [hlit.litInt_eq, if_pos (by omega)]
    rw [hs, emod_inj_of_small hu1 (by omega) htlo, ht]
    split <;> omega
  · exact ⟨fun _ => .inl rfl, fun _ => rfl⟩
  · have h64 := pow_gt_64 hw
    have hmod : litInt 64 n % 2 ^ 64 = litInt w n % 2 ^ 64 := by
      rw [litInt_emod n le_rfl, litInt_emod n hw.le]
    have hrange := litInt_64_range n
    rw [emod_inj_of_small hu1 (by omega) htlo]
    omega

/-! ## Arithmetic -/

/-- The operations of the checked intrinsics, on numbers. -/
def exactOp : BvOp → Int → Int → Int
  | .add, x, y => x + y
  | .sub, x, y => x - y
  | .mul, x, y => x * y
  | _, _, _ => 0

def isChecked : BvOp → Bool
  | .add | .sub | .mul => true
  | _ => false

theorem eval_exactOp {op : BvOp} (h : isChecked op = true) (w x y : Nat) :
    op.eval w x y = (exactOp op x y % 2 ^ w).toNat := by
  have hx : BitVec.ofNat w x = BitVec.ofInt w x := (BitVec.ofInt_natCast w x).symm
  have hy : BitVec.ofNat w y = BitVec.ofInt w y := (BitVec.ofInt_natCast w y).symm
  have hnat (e : Int) : (BitVec.ofInt w e).toNat = (e % 2 ^ w).toNat := by
    rw [BitVec.toNat_ofInt]
    push_cast
    rfl
  cases op with
  | add => rw [BvOp.eval, BvOp.evalBv, hx, hy, ← BitVec.ofInt_add, hnat, exactOp]
  | sub =>
    rw [BvOp.eval, BvOp.evalBv, hx, hy, BitVec.sub_eq_add_neg, ← BitVec.ofInt_neg, ← BitVec.ofInt_add, hnat, exactOp,
      sub_eq_add_neg]
  | mul => rw [BvOp.eval, BvOp.evalBv, hx, hy, ← BitVec.ofInt_mul, hnat, exactOp]
  | _ => exact absurd h (by simp [isChecked])

theorem exactOp_emod {op : BvOp} {x y x' y' : Int} {w : Nat} (hx : x % 2 ^ w = x' % 2 ^ w) (hy : y % 2 ^ w = y' % 2 ^ w) :
    exactOp op x y % 2 ^ w = exactOp op x' y' % 2 ^ w := by
  have hxm : x ≡ x' [ZMOD 2 ^ w] := hx
  have hym : y ≡ y' [ZMOD 2 ^ w] := hy
  cases op with
  | add => exact hxm.add hym
  | sub => exact hxm.sub hym
  | mul => exact hxm.mul hym
  | _ => rfl

end Llvm

/-! ## Lowering of scalar instructions (`lower/block.rs`, `lower_inst`)

Binary operators, comparisons, phis and switches read their operands at the width of their type; casts, selects,
checked arithmetic, calls and returns read them at 64 bits. The text has types that the parser does not hand on:
that of the operand of a cast, of a select, of an argument, and the number of elements of an `alloca`.
-/

namespace Llvm

/-- A call of `llvm.{s,u}{add,sub,mul}.with.overflow.iN`. -/
structure CheckedCall where
  dst : String
  op : BvOp
  width : Nat
  a : LValue
  b : LValue

/-- `checked_arith_map`: a later call takes the name of an earlier one. -/
def checkedArithMap (calls : List CheckedCall) : String → Option CheckedCall :=
  calls.foldl (fun m c x => if x = c.dst then some c else m x) fun _ => none

/-- An instruction of the text that has an integer for a result. -/
inductive SInst where
  | bin (op : BvOp) (w : Nat) (a b : LValue)
  | icmp (pred : CmpOp) (w : Nat) (a b : LValue)
  | cast (op : CastOp) (src w : Nat) (val : LValue)
  | select (w : Nat) (cond a b : LValue)
  /-- `llvm.{u,s}{min,max}.iN`: the first operand if the predicate holds. -/
  | minmax (pred : CmpOp) (w : Nat) (a b : LValue)
  | extractValue (agg : String) (index : Nat)

/-! ## The lowering -/

/-- `lower_inst`, and the `minmax` case of `lower_block`, for the register of the result. -/
def lowerScalar (arith : String → Option CheckedCall) (d : RegId) : SInst → LowerM (List Inst)
  | .bin op w a b => do
    let x ← operandM a w
    let y ← operandM b w
    pure [.assign d (.int w) (.bin op x y)]
  | .icmp pred w a b => do
    let x ← operandM a w
    let y ← operandM b w
    pure [.assign d .bool (.cmp pred x y)]
  | .cast op _ w val => do
    let x ← operandM val 64
    pure [.assign d (.int w) (.cast op x)]
  | .select _ cond a b => do
    let c ← operandM cond 1
    let x ← operandM a 64
    let y ← operandM b 64
    pure [.assign d (.int 64) (.select c x y)]
  | .minmax pred w a b => do
    let c ← fresh
    let x ← operandM a w
    let y ← operandM b w
    pure [.assign c (.int 1) (.cmp pred x y), .assign d (.int w) (.select (.reg c) x y)]
  | .extractValue agg index =>
    match if index = 0 then arith agg else none with
    | some c => do
      let x ← operandM c.a 64
      let y ← operandM c.b 64
      pure [.assign d (.int 64) (.bin c.op x y)]
    | none => pure [.assign d (.int 64) (.use (.const .undef))]

def alignOr (given : Nat) (ty : LType) : Nat := if 0 < given then given else (lowerType ty).alignBytes .lp64

/-- The `Alloca` case of `lower_inst`; the number of elements is not parsed. -/
def lowerAlloca (d : RegId) (ty : LType) (_count : LValue) (align : Nat) : Inst :=
  .alloc d .stack (lowerType ty) (Ctx.intOperand 64 1) (alignOr align ty)

/-! ## The values of LLVM -/

/-- The value of an operand of the type `iw`. -/
def LValue.intVal (σ : String → Nat) (w : Nat) : LValue → Option Nat
  | .local name => some (σ name)
  | .int n => some (n % 2 ^ w).toNat
  | _ => none

/-- The value of the result; there is none for the overflow flag, and for what was not computed by an intrinsic. -/
def SInst.value (σ : String → Nat) (arith : String → Option CheckedCall) : SInst → Option Nat
  | .bin op w a b => do return op.eval w (← a.intVal σ w) (← b.intVal σ w)
  | .icmp pred w a b => do return (pred.eval w (← a.intVal σ w) (← b.intVal σ w)).toNat
  | .cast .sext src w val => do return signExtend src w (← val.intVal σ src)
  | .cast _ src w val => do return (← val.intVal σ src) % 2 ^ w
  | .select w cond a b => do
    let c ← cond.intVal σ 1
    let x ← a.intVal σ w
    let y ← b.intVal σ w
    return if c = 1 then x else y
  | .minmax pred w a b => do
    let x ← a.intVal σ w
    let y ← b.intVal σ w
    return if pred.eval w x y then x else y
  | .extractValue agg index =>
    match if index = 0 then arith agg else none with
    | some c => do return c.op.eval c.width (← c.a.intVal σ c.width) (← c.b.intVal σ c.width)
    | none => none

/-! ## The state before -/

section

variable (ctx : Ctx) (Γ : RegId → Nat) (regs : Regs) (σ : String → Nat)

/-- The operand has the type `iw`: a name is in its register, which is declared at least as wide. -/
def LValue.Reads (w : Nat) : LValue → Prop
  | .local name => ∃ r, ctx.regs name = some r ∧ regs r = some (σ name) ∧ σ name < 2 ^ w ∧ w ≤ Γ r
  | .int n => Literal w n
  | _ => False

def IntWidth (w : Nat) : Prop := 1 ≤ w ∧ w ≤ 128

def CastWidths : CastOp → Nat → Nat → Prop
  | .trunc, src, w => w < src
  | .zext, src, w | .sext, src, w => src < w
  | .bitcast, src, w => src = w
  | _, _, _ => False

/-- The instruction is one of LLVM, and its operands are in their registers. -/
def SInst.Ready (arith : String → Option CheckedCall) : SInst → Prop
  | .bin _ w a b | .icmp _ w a b => IntWidth w ∧ a.Reads ctx Γ regs σ w ∧ b.Reads ctx Γ regs σ w
  | .cast op src w val => CastWidths op src w ∧ val.Reads ctx Γ regs σ src
  | .select w cond a b => cond.Reads ctx Γ regs σ 1 ∧ a.Reads ctx Γ regs σ w ∧ b.Reads ctx Γ regs σ w
  | .minmax pred w a b => pred ∈ [CmpOp.ult, .ugt, .slt, .sgt] ∧ IntWidth w ∧ a.Reads ctx Γ regs σ w ∧
    b.Reads ctx Γ regs σ w
  | .extractValue agg _ => ∀ c, arith agg = some c → isChecked c.op = true ∧ c.a.Reads ctx Γ regs σ c.width ∧
    c.b.Reads ctx Γ regs σ c.width

/-! ## The condition -/

/-- The width at which an operand of the type `iw` is declared. -/
def LValue.declared (w : Nat) : LValue → Nat
  | .local name => ((ctx.regs name).map Γ).getD w
  | _ => w

/-- Neither operand of a comparison is declared wider, or both are negative or both are not. -/
def CmpOk (pred : CmpOp) (w : Nat) (a b : LValue) : Prop :=
  signedPred pred = true → a.declared ctx Γ w = w ∨
    ∀ x y, a.intVal σ w = some x → b.intVal σ w = some y → (2 * x < 2 ^ w ↔ 2 * y < 2 ^ w)

/-- The value of an operand of the type `iw` is not changed by 64 bits: a constant is not negative. -/
def Wide (w : Nat) : LValue → Prop
  | .int n => w = 64 ∨ 0 ≤ n ∧ n < 2 ^ 64
  | .local name => σ name < 2 ^ 64
  | _ => True

def CastOk (op : CastOp) (src w : Nat) (val : LValue) : Prop :=
  match op, val with
  | .sext, .int n => SextOk src n
  | .sext, .local name => (LValue.local name).declared ctx Γ src = src ∨ 2 * σ name < 2 ^ src
  | .zext, .int n => src = 64 ∨ 0 ≤ n ∧ n < 2 ^ 64
  | _, .int n => w ≤ 64 ∨ n % 2 ^ w < 2 ^ 64
  | _, _ => True

/-- The number that an operand is written as. -/
def LValue.number : LValue → Int
  | .local name => σ name
  | .int n => n
  | _ => 0

/-- The condition under which the value is kept. -/
def SInst.Holds (arith : String → Option CheckedCall) : SInst → Prop
  | .bin .. => True
  | .icmp pred w a b | .minmax pred w a b => CmpOk ctx Γ σ pred w a b
  | .cast op src w val => CastOk ctx Γ σ op src w val
  | .select w cond a b => Wide σ w (if cond.intVal σ 1 = some 1 then a else b)
  | .extractValue agg index => index = 0 → ∀ c, arith agg = some c → c.width = 64 ∨
    exactOp c.op (c.a.number σ) (c.b.number σ) % 2 ^ max c.width 64 < 2 ^ min c.width 64

end

/-! ## Execution -/

/-- The instructions are executed in order. -/
inductive Execs (Γ : RegId → Nat) : List Inst → Regs → Regs → Prop
  | nil {regs : Regs} : Execs Γ [] regs regs
  | cons {i : Inst} {is : List Inst} {regs regs₁ regs₂ : Regs} : i.Exec Γ regs regs₁ → Execs Γ is regs₁ regs₂ →
    Execs Γ (i :: is) regs regs₂

/-- The instructions can be executed, and leave the value in the register. -/
def Kept (Γ : RegId → Nat) (regs : Regs) (is : List Inst) (d : RegId) (v : Nat) : Prop :=
  (∃ regs', Execs Γ is regs regs') ∧ ∀ regs', Execs Γ is regs regs' → regs' d = some v

end Llvm

end Csolver
