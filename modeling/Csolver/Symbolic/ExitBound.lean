import Csolver.Absint.Induction
import Csolver.Lib.Grid
import Csolver.Symbolic.NullCheck
import Csolver.Symbolic.RValue

/-!
# Bounds of equality-exit loops (`exec/sentinel.rs`, and the captures of `exec/loops.rs`)

Before the header's registers are made unknown, the start and the bound of a recognised induction are
captured as expressions. The ordering facts about the unknown that replaces the register are assumed only
when the gate has been proved.
-/

namespace Csolver

/-- `is_power_of_two` of a `u128`. -/
def isPowerOfTwo (n : Nat) : Bool := (List.range 128).any fun k => n == 2 ^ k

theorem isPowerOfTwo_spec {n : Nat} (h : isPowerOfTwo n = true) : ∃ k, n = 2 ^ k := by
  obtain ⟨k, -, hk⟩ := List.any_eq_true.mp h
  exact ⟨k, beq_iff_eq.mp hk⟩

/-- `gate.into_iter().all(|g| self.prove(g, state))`. -/
def Prover.proveAll (pr : Prover) (st : PathState) (gate : List Expr) : Bool :=
  gate.all fun g => pr.entails (st.pathcond ++ st.facts) g

namespace ExitBound

def zero : Expr := .int ptrWidth 0

/-- `i64::MAX`. -/
def isizeMax : Expr := .int ptrWidth (2 ^ 63 - 1)

/-- `(bound - start) & mask == 0`: the bound lies on the grid. -/
def onGrid (start bound : Expr) (stride : Nat) : Expr :=
  .mkCmp .eq (.mkBin .and (.mkBin .sub bound start) (.int ptrWidth (stride - 1))) zero

/-! ## Counters -/

/-- What `havoc_header` captures of a counter. -/
def captureInt (iv : EqExitIndVar) (st : PathState) : ExploreM (Option (Expr × Expr)) := do
  match st.env iv.reg with
  | some (.scalar start) =>
    let bound ← evalScalar iv.bound st
    pure (some (start, bound))
  | _ => pure none

/-- The gate of `assert_eq_exit_bound`; `none` when the stride is not supported. -/
def intGate (start bound : Expr) (stride : Int) : Option (List Expr) :=
  let order := [.mkCmp .sle zero start, .mkCmp .sle start bound, .mkCmp .sle bound isizeMax]
  if stride ≤ 0 then none
  else if 1 < stride then
    if isPowerOfTwo stride.toNat then some (order ++ [onGrid start bound stride.toNat]) else none
  else some order

def intFacts (v start bound : Expr) : List Expr := [.mkCmp .sle start v, .mkCmp .sle v bound]

def assertEqExitBound (pr : Prover) (st : PathState) (v start bound : Expr) (stride : Int) : PathState :=
  match intGate start bound stride with
  | none => st
  | some gate =>
    if pr.proveAll st gate then { st with facts := st.facts ++ intFacts v start bound } else st

/-! ## Pointers -/

structure PtrIndCapture where
  reg : RegId
  region : Nat
  b0 : Expr
  align : Nat
  endOff : Expr
  size : Expr
  strideBytes : Nat
  bottomTest : Bool

/-- The stride in bytes, in 64 bits; an element without size counts as one byte. -/
def captureStride (iv : PtrIndVar) : Option Nat :=
  if 0 ≤ iv.strideElems ∧ iv.strideElems < 2 ^ 64 then
    checkedU64 (iv.strideElems.toNat * max ((iv.elem.strideBytes .lp64).getD 1) 1)
  else none

/-- What `havoc_header` captures of a pointer: its region and offset, and the end's offset in the same
    region. -/
def capturePtr (iv : PtrIndVar) (st : PathState) : ExploreM (Option PtrIndCapture) := do
  match st.env iv.reg with
  | some (.ptr (.mk (.region region) b0 align _)) =>
    match st.regions[region]? with
    | some r =>
      match ← evalValue iv.endPtr st with
      | .ptr (.mk (.region endRegion) endOff _ _) =>
        if endRegion = region then
          pure ((captureStride iv).map fun strideBytes =>
            { reg := iv.reg, region, b0, align, endOff, size := r.size, strideBytes, bottomTest := iv.bottomTest })
        else pure none
      | _ => pure none
    | none => pure none
  | _ => pure none

/-- `plus_d`: the offset, moved by one stride in the rotated form. -/
def plusD (cap : PtrIndCapture) (e : Expr) : Expr :=
  if cap.bottomTest then .mkBin .add e (.int ptrWidth cap.strideBytes) else e

/-- The gate of `assert_ptr_walk_bound`. -/
def ptrGate (cap : PtrIndCapture) : List Expr :=
  [.mkCmp .sle zero cap.b0, .mkCmp .sle (plusD cap cap.b0) cap.endOff, .mkCmp .sle cap.endOff cap.size,
    .mkCmp .sle cap.size isizeMax, onGrid cap.b0 cap.endOff cap.strideBytes]

/-- The facts about the offset `o` that replaces the pointer's. -/
def ptrFacts (cap : PtrIndCapture) (o : Expr) : List Expr :=
  [.mkCmp .sle zero cap.b0, .mkCmp .sle cap.b0 o, .mkCmp .sle zero (plusD cap o),
    .mkCmp .sle (plusD cap o) cap.endOff, .mkCmp .sle (plusD cap o) cap.size, .mkCmp .sle cap.endOff cap.size,
    .mkCmp .sle cap.size isizeMax, onGrid cap.b0 o cap.strideBytes, onGrid cap.b0 cap.endOff cap.strideBytes]

/-- `assert_ptr_walk_bound`; `nowrap` is the region's premise about its size. -/
def assertPtrWalkBound (pr : Prover) (nowrap : Option Expr) (st : PathState) (cap : PtrIndCapture) :
    ExploreM PathState := do
  if cap.strideBytes = 0 || !isPowerOfTwo cap.strideBytes then pure st
  else if pr.proveAll { st with facts := st.facts ++ nowrap.toList } (ptrGate cap) then do
    let o ← freshScalar ptrWidth
    let p := SymPointer.mk (.region cap.region) o (Nat.gcd cap.align cap.strideBytes) none
    pure { st with
      env := fun r => if r = cap.reg then some (.ptr p) else st.env r
      facts := st.facts ++ ptrFacts cap o }
  else pure st

end ExitBound

/-! ## The gates and the facts of equality-exit bounds

Every expression of the gates and of the facts is a comparison at the width of its left operand. The
constants, and the unknown that replaces the register, have pointer width, so for a counter the start has to
be as wide, or the start and the bound equally narrow (`IntWidths`). And the gate of the rotated pointer walk
adds the stride to the start without asking whether that wraps.
-/

open Lib

namespace ExitBound

variable {ρ : Valuation} {a b : Expr}

/-! ## Comparisons -/

theorem holds_sle : (Expr.mkCmp .sle a b).Holds ρ ↔
    (BitVec.ofNat a.width (a.eval ρ)).toInt ≤ (BitVec.ofNat a.width (b.eval ρ)).toInt := by
  rw [Expr.holds_mkCmp, CmpOp.eval, CmpOp.evalBv, BitVec.sle_iff_toInt_le]

theorem toInt_ofNat {w x : Nat} (hx : x < 2 ^ w) :
    (BitVec.ofNat w x).toInt = if 2 * x < 2 ^ w then (x : Int) else x - (2 ^ w : Nat) := by
  rw [BitVec.toInt_eq_toNat_cond, BitVec.toNat_ofNat, Nat.mod_eq_of_lt hx]

theorem toInt_64 {x : Nat} (hx : x < 2 ^ 64) :
    (BitVec.ofNat 64 x).toInt = if x < 2 ^ 63 then (x : Int) else x - 2 ^ 64 := by
  rw [toInt_ofNat hx]
  split_ifs <;> omega

theorem eval_zero : zero.eval ρ = 0 := by rw [zero, Expr.eval_int, Nat.zero_mod]

theorem eval_isizeMax : isizeMax.eval ρ = 2 ^ 63 - 1 := by
  rw [isizeMax, Expr.eval_int]
  rfl

/-! ## The grid -/

theorem width_mkBin_sub (a b : Expr) : (Expr.mkBin .sub a b).width = a.width := by
  unfold Expr.mkBin
  cases Expr.folded .sub a b with
  | some v => rfl
  | none =>
    cases hid : Expr.identity .sub a b with
    | some e =>
      rcases Expr.identity_mem hid with rfl | rfl
      · rfl
      · simp only [Expr.identity] at hid
        split_ifs at hid <;> simp_all
    | none =>
      simp only
      split_ifs <;> rfl

theorem eval_mkBin_mod (op : BvOp) (a b : Expr) :
    (Expr.mkBin op a b).eval ρ % 2 ^ a.width = op.eval a.width (a.eval ρ) (b.eval ρ) :=
  mkBin_eval_mod (.inr (.inl rfl))

theorem asConst_int (m : Nat) : ∃ bv, (Expr.int ptrWidth m).asConst = some bv ∧ bv.value = m % 2 ^ 64 := by
  have hw : 0 < ptrWidth ∧ ptrWidth ≤ 128 := by decide
  refine ⟨⟨ptrWidth, m % 2 ^ ptrWidth % 2 ^ ptrWidth, hw.1, hw.2, Nat.mod_lt _ (Nat.two_pow_pos _)⟩, ?_, ?_⟩
  · rw [Expr.int, Expr.asConst, BitVector.new, dif_pos hw]
  · exact Nat.mod_mod m (2 ^ 64)

theorem width_mkBin_mask {a : Expr} {m : Nat} (hm : m % 2 ^ 64 ≠ 0) :
    (Expr.mkBin .and a (.int ptrWidth m)).width = a.width := by
  unfold Expr.mkBin
  cases Expr.folded .and a (.int ptrWidth m) with
  | some v => rfl
  | none =>
    obtain ⟨bv, hbv, hval⟩ := asConst_int m
    have hzero : (bv.value == 0) = false := beq_eq_false_iff_ne.mpr (hval ▸ hm)
    cases hid : Expr.identity .and a (.int ptrWidth m) with
    | some e =>
      simp only [Expr.identity, hbv, Option.map_some, hzero] at hid
      split_ifs at hid <;> simp_all
    | none => rfl

theorem mask_ne_zero {k : Nat} (hk : 0 < k) : (2 ^ k - 1) % 2 ^ 64 ≠ 0 := by
  intro h
  have hodd : (2 ^ k - 1) % 2 ^ 64 % 2 = (2 ^ k - 1) % 2 := Nat.mod_mod_of_dvd _ (by norm_num)
  rw [h, Nat.two_pow_sub_one_mod_two, Nat.one_mod_eq_one.mpr] at hodd
  · exact absurd hodd (by decide)
  · have := Nat.one_lt_two_pow (Nat.pos_iff_ne_zero.mp hk)
    omega

theorem eval_sub_of_le {w x y : Nat} (hxy : x ≤ y) (hy : y < 2 ^ w) : BvOp.sub.eval w y x = y - x := by
  rw [BvOp.eval, BvOp.evalBv, BitVec.toNat_sub, BitVec.toNat_ofNat, BitVec.toNat_ofNat, Nat.mod_eq_of_lt hy,
    Nat.mod_eq_of_lt (lt_of_le_of_lt hxy hy), show 2 ^ w - x + y = y - x + 2 ^ w by omega, Nat.add_mod_right,
    Nat.mod_eq_of_lt (by omega)]

theorem onGrid_iff {start bound : Expr} {k : Nat} (hk : 0 < k) (hle : start.eval ρ ≤ bound.eval ρ)
    (hb : bound.eval ρ < 2 ^ bound.width) (hd : bound.eval ρ - start.eval ρ < 2 ^ 64) :
    (onGrid start bound (2 ^ k)).Holds ρ ↔ 2 ^ k ∣ bound.eval ρ - start.eval ρ := by
  have hwidth : (Expr.mkBin .and (.mkBin .sub bound start) (.int ptrWidth (2 ^ k - 1))).width = bound.width := by
    rw [width_mkBin_mask (mask_ne_zero hk), width_mkBin_sub]
  have hvalue := eval_mkBin_mod (ρ := ρ) .and (.mkBin .sub bound start) (.int ptrWidth (2 ^ k - 1))
  have hdiff := eval_mkBin_mod (ρ := ρ) .sub bound start
  rw [eval_sub_of_le hle hb] at hdiff
  rw [width_mkBin_sub, ← BvOp.eval_mod, hdiff, Expr.eval_int] at hvalue
  have hmask : BvOp.and.eval bound.width (bound.eval ρ - start.eval ρ)
      ((2 ^ k - 1) % 2 ^ ptrWidth % 2 ^ bound.width) =
        (bound.eval ρ - start.eval ρ) &&& (2 ^ k - 1) % 2 ^ 64 % 2 ^ bound.width := by
    rw [BvOp.eval, BvOp.evalBv, BitVec.toNat_and, BitVec.toNat_ofNat, BitVec.toNat_ofNat, Nat.mod_mod,
      Nat.mod_eq_of_lt (by omega : bound.eval ρ - start.eval ρ < 2 ^ bound.width)]
    rfl
  rw [hmask] at hvalue
  have heq : (onGrid start bound (2 ^ k)).Holds ρ ↔
      (bound.eval ρ - start.eval ρ) &&& (2 ^ k - 1) % 2 ^ 64 % 2 ^ bound.width = 0 := by
    rw [onGrid, Expr.holds_mkCmp, eval_zero, hwidth, ← hvalue, CmpOp.eval, CmpOp.evalBv, beq_iff_eq,
      ← BitVec.toNat_inj, BitVec.toNat_ofNat, BitVec.toNat_ofNat, Nat.zero_mod]
  rw [heq]
  exact masked_eq_zero hd (by omega)

theorem onGrid_one (start bound : Expr) : (onGrid start bound 1).Holds ρ := by
  have hzero : Expr.identity .and (.mkBin .sub bound start) (.int ptrWidth 0) = some (.int ptrWidth 0) := by
    obtain ⟨bv, hbv, hval⟩ := asConst_int 0
    simp [Expr.identity, hbv, hval]
  have hvalue : ∀ w, (Expr.mkBin .and (.mkBin .sub bound start) (.int ptrWidth 0)).eval ρ % 2 ^ w = 0 := by
    intro w
    rw [Expr.mkBin_eval_of_identity hzero w, Expr.eval_int, BvOp.eval, BvOp.evalBv]
    simp
  show (Expr.mkCmp .eq (.mkBin .and (.mkBin .sub bound start) (.int ptrWidth 0)) zero).Holds ρ
  rw [Expr.holds_mkCmp, eval_zero, CmpOp.eval, CmpOp.evalBv, beq_iff_eq, ← BitVec.toNat_inj,
    BitVec.toNat_ofNat, BitVec.toNat_ofNat, hvalue, Nat.zero_mod]

theorem onGrid_pow_iff {start bound : Expr} {k : Nat} (hle : start.eval ρ ≤ bound.eval ρ)
    (hb : bound.eval ρ < 2 ^ bound.width) (hd : bound.eval ρ - start.eval ρ < 2 ^ 64) :
    (onGrid start bound (2 ^ k)).Holds ρ ↔ 2 ^ k ∣ bound.eval ρ - start.eval ρ := by
  cases k with
  | zero => exact iff_of_true (onGrid_one start bound) (one_dvd _)
  | succ k => exact onGrid_iff (Nat.succ_pos k) hle hb hd

/-! ## Counters -/

/-- The widths at which the comparisons of a counter's bounds are what they stand for. -/
def IntWidths (start bound : Expr) : Prop :=
  bound.width ≤ 64 ∧ (start.width = 64 ∨ start.width = bound.width)

theorem intGate_spec {start bound : Expr} {stride : Int} {gate : List Expr}
    (hgate : intGate start bound stride = some gate) (h : ∀ g ∈ gate, g.Holds ρ) (hw : IntWidths start bound)
    (hs : start.eval ρ < 2 ^ start.width) (hb : bound.eval ρ < 2 ^ bound.width) :
    0 < stride ∧ start.eval ρ ≤ bound.eval ρ ∧ stride.toNat ∣ bound.eval ρ - start.eval ρ ∧
      bound.eval ρ < 2 ^ 63 ∧
        (start.width ≠ 64 → 2 ^ start.width ≤ 2 * start.eval ρ ∨ start.eval ρ = bound.eval ρ) := by
  have horder : ∀ g ∈ [Expr.mkCmp .sle zero start, .mkCmp .sle start bound, .mkCmp .sle bound isizeMax],
      g.Holds ρ := by
    intro g hg
    apply h
    unfold intGate at hgate
    split_ifs at hgate <;> obtain rfl := Option.some.inj hgate
    · exact List.mem_append_left _ hg
    · exact hg
  have hlow := holds_sle.mp (horder _ (.head _))
  have hle := holds_sle.mp (horder _ (.tail _ (.head _)))
  have hmax := holds_sle.mp (horder _ (.tail _ (.tail _ (.head _))))
  have hdvd : 0 < stride ∧ (start.eval ρ ≤ bound.eval ρ → bound.eval ρ < 2 ^ 63 →
      stride.toNat ∣ bound.eval ρ - start.eval ρ) := by
    unfold intGate at hgate
    split_ifs at hgate with hpos hone hpow
    · obtain rfl := Option.some.inj hgate
      refine ⟨not_le.mp hpos, fun hsb hlt => ?_⟩
      obtain ⟨k, hk⟩ := isPowerOfTwo_spec hpow
      have hk0 : 0 < k := by
        apply Nat.pos_of_ne_zero
        rintro rfl
        rw [pow_zero] at hk
        omega
      have hgrid := h (onGrid start bound stride.toNat) (List.mem_append_right _ (.head _))
      rw [hk] at hgrid ⊢
      exact (onGrid_iff hk0 hsb hb (by omega)).mp hgrid
    · have hstride : stride.toNat = 1 := by omega
      refine ⟨not_le.mp hpos, fun _ _ => ?_⟩
      rw [hstride]
      exact one_dvd _
  suffices hbounds : start.eval ρ ≤ bound.eval ρ ∧ bound.eval ρ < 2 ^ 63 ∧
      (start.width ≠ 64 → 2 ^ start.width ≤ 2 * start.eval ρ ∨ start.eval ρ = bound.eval ρ) from
    ⟨hdvd.1, hbounds.1, hdvd.2 hbounds.1 hbounds.2.1, hbounds.2⟩
  by_cases hw64 : start.width = 64
  · have hb64 : bound.eval ρ < 2 ^ 64 := lt_of_lt_of_le hb (Nat.pow_le_pow_right (by decide) hw.1)
    rw [hw64] at hs hle
    rw [eval_zero, show zero.width = 64 from rfl, toInt_64 (by decide), toInt_64 hs] at hlow
    rw [toInt_64 hs, toInt_64 hb64] at hle
    refine ⟨?_, ?_, fun hne => absurd hw64 hne⟩ <;> split_ifs at hlow hle <;> omega
  · -- both are as narrow as each other, and the largest `isize` is `-1` there
    have heq : start.width = bound.width := hw.2.resolve_left hw64
    have hlt : bound.width < 64 := lt_of_le_of_ne hw.1 (heq ▸ hw64)
    have hM : 2 ^ bound.width ∣ 2 ^ 63 := pow_dvd_pow 2 (by omega)
    have hMle : 2 ^ bound.width ≤ 2 ^ 63 := Nat.le_of_dvd (by decide) hM
    have hMpos : 0 < 2 ^ bound.width := Nat.two_pow_pos _
    have hmod : (2 ^ 63 - 1) % 2 ^ bound.width = 2 ^ bound.width - 1 := by
      obtain ⟨c, hc⟩ := hM
      obtain ⟨d, rfl⟩ : ∃ d, c = d + 1 := Nat.exists_eq_succ_of_ne_zero (by rintro rfl; simp at hc)
      rw [hc, Nat.mul_succ, Nat.add_sub_assoc hMpos, Nat.mul_add_mod, Nat.mod_eq_of_lt (by omega)]
    rw [heq] at hs hle ⊢
    rw [eval_isizeMax, ← ofNat_mod bound.width (2 ^ 63 - 1), hmod, toInt_ofNat hb, toInt_ofNat (by omega)] at hmax
    rw [toInt_ofNat hs, toInt_ofNat hb] at hle
    generalize 2 ^ bound.width = M at *
    refine ⟨?_, by omega, fun _ => ?_⟩ <;> split_ifs at hmax hle <;> omega

theorem intFacts_hold {v start bound : Expr} (hw : IntWidths start bound) (hs : start.eval ρ < 2 ^ start.width)
    (hb : bound.eval ρ < 2 ^ bound.width) (hmax : bound.eval ρ < 2 ^ 63)
    (hneg : start.width ≠ 64 → 2 ^ start.width ≤ 2 * start.eval ρ ∨ start.eval ρ = bound.eval ρ)
    (hv : v.width = 64) (hlo : start.eval ρ ≤ v.eval ρ) (hhi : v.eval ρ ≤ bound.eval ρ) :
    ∀ c ∈ intFacts v start bound, c.Holds ρ := by
  have hlow : (Expr.mkCmp .sle start v).Holds ρ := by
    apply holds_sle.mpr
    by_cases hw64 : start.width = 64
    · rw [hw64, toInt_64 (by omega), toInt_64 (by omega)]
      split_ifs <;> omega
    · have heq : start.width = bound.width := hw.2.resolve_left hw64
      have hvlt : v.eval ρ < 2 ^ start.width := heq ▸ lt_of_le_of_lt hhi hb
      have hneg' := hneg hw64
      rw [toInt_ofNat hs, toInt_ofNat hvlt]
      generalize 2 ^ start.width = M at *
      split_ifs <;> omega
  have hhigh : (Expr.mkCmp .sle v bound).Holds ρ := by
    apply holds_sle.mpr
    rw [hv, toInt_64 (by omega), toInt_64 (by omega)]
    split_ifs <;> omega
  intro c hc
  rcases List.mem_cons.mp hc with rfl | hc
  · exact hlow
  · rw [List.mem_singleton.mp hc]
    exact hhigh

/-! ## Pointer walks -/

/-- The offset that is tested is this far ahead. -/
def ahead (cap : PtrIndCapture) : Nat := if cap.bottomTest then cap.strideBytes else 0

/-- The expressions of a capture are pointer-wide. -/
structure Captured64 (cap : PtrIndCapture) (ρ : Valuation) : Prop where
  b0 : cap.b0.width = 64 ∧ cap.b0.eval ρ < 2 ^ 64
  endOff : cap.endOff.width = 64 ∧ cap.endOff.eval ρ < 2 ^ 64
  size : cap.size.width = 64 ∧ cap.size.eval ρ < 2 ^ 64

theorem sle_64 (hw : a.width = 64) : (Expr.mkCmp .sle a b).Holds ρ ↔
    (BitVec.ofNat 64 (a.eval ρ % 2 ^ 64)).toInt ≤ (BitVec.ofNat 64 (b.eval ρ % 2 ^ 64)).toInt := by
  rw [holds_sle, hw, ofNat_mod, ofNat_mod]

theorem sle_of_le (hw : a.width = 64) {x y : Nat} (hx : a.eval ρ % 2 ^ 64 = x) (hy : b.eval ρ % 2 ^ 64 = y)
    (hxy : x ≤ y) (hlt : y < 2 ^ 63) : (Expr.mkCmp .sle a b).Holds ρ := by
  rw [sle_64 hw, hx, hy, toInt_64 (by omega), toInt_64 (by omega)]
  split_ifs <;> omega

theorem plusD_width {cap : PtrIndCapture} {e : Expr} (he : e.width = 64) : (plusD cap e).width = 64 := by
  unfold plusD
  split
  · unfold Expr.mkBin
    cases Expr.folded .add e (.int ptrWidth cap.strideBytes) with
    | some v => exact he
    | none =>
      cases hid : Expr.identity .add e (.int ptrWidth cap.strideBytes) with
      | some e' =>
        rcases Expr.identity_mem hid with rfl | rfl
        · exact he
        · rfl
      | none =>
        simp only
        rw [if_neg fun h => BvOp.noConfusion h.1]
        exact he
  · exact he

theorem plusD_eval {cap : PtrIndCapture} {e : Expr} (he : e.width = 64) :
    (plusD cap e).eval ρ % 2 ^ 64 = (e.eval ρ + ahead cap) % 2 ^ 64 := by
  unfold plusD ahead
  split
  · have h := eval_mkBin_mod (ρ := ρ) .add e (.int ptrWidth cap.strideBytes)
    rw [he] at h
    rw [h, Expr.eval_int, BvOp.eval, BvOp.evalBv, BitVec.toNat_add, BitVec.toNat_ofNat, BitVec.toNat_ofNat,
      show ptrWidth = 64 from rfl, Nat.mod_mod, ← Nat.add_mod]
  · rw [Nat.add_zero]

theorem ptrGate_spec {cap : PtrIndCapture} (h : ∀ g ∈ ptrGate cap, g.Holds ρ) (hcap : Captured64 cap ρ) {k : Nat}
    (hk : cap.strideBytes = 2 ^ k) (hwrap : cap.b0.eval ρ + ahead cap < 2 ^ 63) :
    cap.b0.eval ρ + ahead cap ≤ cap.endOff.eval ρ ∧ cap.endOff.eval ρ ≤ cap.size.eval ρ ∧
      cap.size.eval ρ < 2 ^ 63 ∧ cap.strideBytes ∣ cap.endOff.eval ρ - (cap.b0.eval ρ + ahead cap) := by
  obtain ⟨⟨hbw, hblt⟩, ⟨hew, helt⟩, ⟨hsw, hslt⟩⟩ := hcap
  have horder := (sle_64 (plusD_width hbw)).mp (h _ (.tail _ (.head _)))
  have hsize := (sle_64 hew).mp (h _ (.tail _ (.tail _ (.head _))))
  have hgrid := h _ (.tail _ (.tail _ (.tail _ (.tail _ (.head _)))))
  rw [plusD_eval hbw, Nat.mod_eq_of_lt (by omega), Nat.mod_eq_of_lt helt, toInt_64 (by omega), toInt_64 helt] at horder
  rw [Nat.mod_eq_of_lt helt, Nat.mod_eq_of_lt hslt, toInt_64 helt, toInt_64 hslt] at hsize
  have hbounds : cap.b0.eval ρ + ahead cap ≤ cap.endOff.eval ρ ∧ cap.endOff.eval ρ ≤ cap.size.eval ρ ∧
      cap.size.eval ρ < 2 ^ 63 := by
    refine ⟨?_, ?_, ?_⟩ <;> split_ifs at horder hsize <;> omega
  refine ⟨hbounds.1, hbounds.2.1, hbounds.2.2, ?_⟩
  rw [hk] at hgrid ⊢
  have hdvd := (onGrid_pow_iff (by omega) (by rw [hew]; omega) (by omega)).mp hgrid
  rw [← Nat.sub_sub]
  apply Nat.dvd_sub hdvd
  unfold ahead
  split
  · rw [hk]
  · exact dvd_zero _

theorem ptrFacts_hold {cap : PtrIndCapture} {o : Expr} (hcap : Captured64 cap ρ) (ho : o.width = 64)
    (holt : o.eval ρ < 2 ^ 64) {k : Nat} (hk : cap.strideBytes = 2 ^ k)
    (hend : cap.endOff.eval ρ ≤ cap.size.eval ρ) (hsize : cap.size.eval ρ < 2 ^ 63)
    (hdvd : cap.strideBytes ∣ cap.endOff.eval ρ - (cap.b0.eval ρ + ahead cap))
    (hgrid : OnGrid cap.strideBytes (cap.b0.eval ρ + ahead cap) (cap.endOff.eval ρ) (o.eval ρ + ahead cap)) :
    ∀ c ∈ ptrFacts cap o, c.Holds ρ := by
  obtain ⟨⟨hbw, hblt⟩, ⟨hew, helt⟩, ⟨hsw, hslt⟩⟩ := hcap
  obtain ⟨hlo, hhi, hrest⟩ := hgrid
  have hmod : ∀ e : Expr, e.eval ρ < 2 ^ 64 → e.eval ρ % 2 ^ 64 = e.eval ρ := fun e he => Nat.mod_eq_of_lt he
  have hplus : (plusD cap o).eval ρ % 2 ^ 64 = o.eval ρ + ahead cap := by
    rw [plusD_eval ho, Nat.mod_eq_of_lt (by omega)]
  have hz : zero.eval ρ % 2 ^ 64 = 0 := by rw [eval_zero, Nat.zero_mod]
  have hzw : zero.width = 64 := rfl
  have hmax : isizeMax.eval ρ % 2 ^ 64 = 2 ^ 63 - 1 := by
    rw [eval_isizeMax]
    rfl
  have hahead : cap.strideBytes ∣ ahead cap := by
    unfold ahead
    split
    · exact dvd_refl _
    · exact dvd_zero _
  have hend' : cap.strideBytes ∣ cap.endOff.eval ρ - cap.b0.eval ρ := by
    have hsum := Nat.dvd_add hdvd hahead
    rwa [show cap.endOff.eval ρ - (cap.b0.eval ρ + ahead cap) + ahead cap = cap.endOff.eval ρ - cap.b0.eval ρ by
      omega] at hsum
  have hdone : cap.strideBytes ∣ o.eval ρ - cap.b0.eval ρ := by
    have hdiff := Nat.dvd_sub hdvd hrest
    rwa [show cap.endOff.eval ρ - (cap.b0.eval ρ + ahead cap) - (cap.endOff.eval ρ - (o.eval ρ + ahead cap)) =
      o.eval ρ - cap.b0.eval ρ by omega] at hdiff
  intro c hc
  simp only [ptrFacts, List.mem_cons, List.not_mem_nil, or_false] at hc
  rcases hc with rfl | rfl | rfl | rfl | rfl | rfl | rfl | rfl | rfl
  · exact sle_of_le hzw hz (hmod _ hblt) (Nat.zero_le _) (by omega)
  · exact sle_of_le hbw (hmod _ hblt) (hmod _ holt) (by omega) (by omega)
  · exact sle_of_le hzw hz hplus (Nat.zero_le _) (by omega)
  · exact sle_of_le (plusD_width ho) hplus (hmod _ helt) hhi (by omega)
  · exact sle_of_le (plusD_width ho) hplus (hmod _ hslt) (by omega) hsize
  · exact sle_of_le hew (hmod _ helt) (hmod _ hslt) hend hsize
  · exact sle_of_le hsw (hmod _ hslt) hmax (by omega) (by decide)
  · rw [hk] at hdone ⊢
    exact (onGrid_pow_iff (by omega) (by rw [ho]; exact holt) (by omega)).mpr hdone
  · rw [hk] at hend' ⊢
    exact (onGrid_pow_iff (by omega) (by rw [hew]; exact helt) (by omega)).mpr hend'

end ExitBound

end Csolver
