import Csolver.Symbolic.Merge
import Csolver.Solver.Widths

/-!
# Right-hand sides (`eval_rvalue` of `exec/eval.rs`)

The executor carries no type beside an expression: `zext`, `sext` and `bitcast` hand the operand's
expression on as it is, at the width it already has, and `trunc` and `ptrtoint` return a fresh
pointer-wide unknown. Users that need a wide value widen it themselves (`widen_to_ptr`). So an
operation is computed at the width of its left operand's *expression*, which a widening cast leaves
narrower than the declared one.

`RValue.machine` is what the instruction computes at the declared widths, and `RValue.Fits` says when
the two agree under a valuation.
-/

namespace Csolver

def evalRvalue (rv : RValue) (state : PathState) : ExploreM SymValue :=
  match rv with
  | .use op => evalValue op state
  | .bin op lhs rhs => do
    let a ← evalScalar lhs state
    let b ← evalScalar rhs state
    return .scalar (.mkBin op a b)
  | .cmp op lhs rhs => do
    let e ← evalPtrAwareCmp op lhs rhs state
    return .scalar e
  | .cast .bitcast operand => evalValue operand state
  | .cast .intToPtr _ => return .ptr (.mk (.unknown .intToPtr none) (.int ptrWidth 0) 1 none)
  | .cast .zext operand | .cast .sext operand => do
    match ← evalValue operand state with
    | .scalar e => return .scalar e
    | .ptr _ =>
      let e ← freshScalar ptrWidth
      return .scalar e
  | .cast .trunc _ | .cast .ptrToInt _ => do
    let e ← freshScalar ptrWidth
    return .scalar e
  | .select c t e => do
    let d ← evalScalar c state
    let a ← evalValue t state
    let b ← evalValue e state
    select d a b (.ptr .unit)

/-- The operands in order, when each of them evaluates to a scalar expression. -/
def readScalars (state : PathState) : List Operand → Explorer → Option (List Expr)
  | [], _ => some []
  | op :: ops, ex =>
    match evalValue op state ex with
    | (.scalar e, ex) => (readScalars state ops ex).map (e :: ·)
    | (.ptr _, _) => none

namespace RValue

variable (ρ : Valuation)

/-- The operands' values at their declared widths. -/
def denotations (ws : List Nat) (es : List Expr) : List (Nat × Nat) :=
  List.zipWith (fun v e => (v, e.eval ρ % 2 ^ v)) ws es

/-- The casts that hand on no expression of their operand. -/
def opaqueCast : RValue → Bool
  | cast .trunc _ | cast .ptrToInt _ | cast .intToPtr _ => true
  | _ => false

/-- No bit that the declared width has and the expression lacks is asked for. -/
def Fits (w : Nat) : RValue → List Nat → List Expr → Prop
  | bin op _ _, _, [a, b] =>
    (Expr.identity op a b).isSome ∨ op.FitsAt a.width w (a.eval ρ) (b.eval ρ)
  | cmp op _ _, [v, _], [a, b] => op.FitsAt a.width v (a.eval ρ) (b.eval ρ)
  | cast .zext _, [v], [a] => a.eval ρ < 2 ^ v
  | cast .sext _, [v], [a] => 2 * a.eval ρ < 2 ^ v
  | select _ _ _, _, [c, _, _] => c.eval ρ < 2
  | _, _, _ => True

end RValue

/-! ## Values at the declared width -/

section

variable {ρ : Valuation} {state : PathState} {ex ex₁ : Explorer}

theorem signExtend_of_lt {v w x : Nat} (hvw : v ≤ w) (h : 2 * x < 2 ^ v) : signExtend v w x = x := by
  have hlt : x < 2 ^ v := by omega
  have hlt' : x < 2 ^ w := lt_of_lt_of_le hlt (Nat.pow_le_pow_right (by decide) hvw)
  rw [signExtend, BitVec.signExtend_eq_setWidth_of_msb_false (BvOp.msb_ofNat h),
    BitVec.toNat_setWidth, BitVec.toNat_ofNat, Nat.mod_eq_of_lt hlt, Nat.mod_eq_of_lt hlt']

/-- `bin` at the declared width: through an identity, or through operands that fit. -/
theorem mkBin_eval_mod {op : BvOp} {a b : Expr} {w : Nat}
    (h : (Expr.identity op a b).isSome ∨ op.FitsAt a.width w (a.eval ρ) (b.eval ρ)) :
    (Expr.mkBin op a b).eval ρ % 2 ^ w = op.eval w (a.eval ρ) (b.eval ρ) := by
  cases hid : Expr.identity op a b with
  | none =>
    rw [hid] at h
    rw [Expr.eval_mkBin hid]
    exact (h.resolve_left (by simp)).eval_mod
  | some e => exact Expr.mkBin_eval_of_identity hid w

/-! ## Reading the operands -/

theorem readScalars_nil {es : List Expr} (h : readScalars state [] ex = some es) : es = [] :=
  (Option.some.inj h).symm

theorem readScalars_cons {op : Operand} {ops : List Operand} {es : List Expr}
    (h : readScalars state (op :: ops) ex = some es) :
    ∃ a as ex', es = a :: as ∧ evalValue op state ex = (.scalar a, ex') ∧
      readScalars state ops ex' = some as := by
  simp only [readScalars] at h
  cases hv : evalValue op state ex with
  | mk v ex' =>
    rw [hv] at h
    cases v with
    | ptr p => exact absurd h (by simp)
    | scalar a =>
      obtain ⟨as, has, hes⟩ := Option.map_eq_some_iff.mp h
      exact ⟨a, as, ex', hes.symm, rfl, has⟩

theorem evalScalar_of_value {op : Operand} {a : Expr}
    (h : evalValue op state ex = (.scalar a, ex₁)) : evalScalar op state ex = (a, ex₁) := by
  simp only [evalScalar, bind, StateT.bind, h]
  rfl

/-! ## Right-hand sides -/

theorem evalRvalue_eval {rv : RValue} {w : Nat} {ws : List Nat} {es : List Expr}
    (hread : readScalars state rv.operands ex = some es) (hty : rv.WellTyped w ws)
    (hop : rv.opaqueCast = false) :
    ∃ r ex', evalRvalue rv state ex = (.scalar r, ex') ∧
      ∀ ρ, rv.Fits ρ w ws es → r.eval ρ % 2 ^ w = rv.machine w (RValue.denotations ρ ws es) := by
  cases rv with
  | use op =>
    obtain ⟨a, as, ex', rfl, hv, has⟩ := readScalars_cons hread
    obtain rfl := readScalars_nil has
    match ws, hty with
    | [v], hty =>
      obtain rfl : v = w := hty
      refine ⟨a, ex', hv, fun ρ _ => ?_⟩
      simp [RValue.machine, RValue.denotations]
  | bin op lhs rhs =>
    obtain ⟨a, as, ex', rfl, hv, has⟩ := readScalars_cons hread
    obtain ⟨b, bs, ex'', rfl, hv', has'⟩ := readScalars_cons has
    obtain rfl := readScalars_nil has'
    match ws, hty with
    | [u, v], hty =>
      obtain ⟨rfl, rfl⟩ : u = w ∧ v = w := hty
      refine ⟨.mkBin op a b, ex'', ?_, fun ρ hfits => ?_⟩
      · simp only [evalRvalue, bind, StateT.bind, evalScalar_of_value hv, evalScalar_of_value hv']
        rfl
      · rw [mkBin_eval_mod hfits]
        exact (BvOp.eval_mod op v _ _).symm
  | cmp op lhs rhs =>
    obtain ⟨a, as, ex', rfl, hv, has⟩ := readScalars_cons hread
    obtain ⟨b, bs, ex'', rfl, hv', has'⟩ := readScalars_cons has
    obtain rfl := readScalars_nil has'
    match ws, hty with
    | [u, v], hty =>
      obtain ⟨rfl, rfl⟩ : w = 1 ∧ u = v := hty
      refine ⟨.mkCmp op a b, ex'', ?_, fun ρ hfits => ?_⟩
      · simp only [evalRvalue, evalPtrAwareCmp, bind, StateT.bind, hv, hv', cmpValues]
        rfl
      · have hle := Bool.toNat_le (op.eval u (a.eval ρ) (b.eval ρ))
        rw [Expr.eval_mkCmp, hfits.eval_eq, Nat.mod_eq_of_lt (by omega)]
        exact congrArg Bool.toNat (CmpOp.eval_mod op u _ _).symm
  | cast op operand =>
    obtain ⟨a, as, ex', rfl, hv, has⟩ := readScalars_cons hread
    obtain rfl := readScalars_nil has
    cases op with
    | bitcast =>
      match ws, hty with
      | [v], hty =>
        obtain rfl : v = w := hty
        refine ⟨a, ex', hv, fun ρ _ => ?_⟩
        simp [RValue.machine, RValue.denotations]
    | zext =>
      match ws, hty with
      | [v], hty =>
        refine ⟨a, ex', ?_, fun ρ hfits => ?_⟩
        · simp only [evalRvalue, bind, StateT.bind, hv]
          rfl
        · simp [RValue.machine, RValue.denotations, Nat.mod_eq_of_lt hfits]
    | sext =>
      match ws, hty with
      | [v], hty =>
        refine ⟨a, ex', ?_, fun ρ hfits => ?_⟩
        · simp only [evalRvalue, bind, StateT.bind, hv]
          rfl
        · have hvw : v ≤ w := hty
          have htwice : 2 * a.eval ρ < 2 ^ v := hfits
          have hlt : a.eval ρ < 2 ^ v := by omega
          have hlt' : a.eval ρ < 2 ^ w :=
            lt_of_lt_of_le hlt (Nat.pow_le_pow_right (by decide) hvw)
          rw [Nat.mod_eq_of_lt hlt']
          simp [RValue.machine, RValue.denotations, Nat.mod_eq_of_lt hlt,
            signExtend_of_lt hvw htwice]
    | trunc | ptrToInt | intToPtr => exact absurd hop (by simp [RValue.opaqueCast])
  | select c t e =>
    obtain ⟨d, ds, ex', rfl, hv, has⟩ := readScalars_cons hread
    obtain ⟨a, as, ex'', rfl, hv', has'⟩ := readScalars_cons has
    obtain ⟨b, bs, ex₃, rfl, hv'', has''⟩ := readScalars_cons has'
    obtain rfl := readScalars_nil has''
    match ws, hty with
    | [u, v, v'], hty =>
      obtain ⟨rfl, rfl, rfl⟩ : u = 1 ∧ v = w ∧ v' = w := hty
      refine ⟨.mkIte d a b, ex₃, ?_, fun ρ hfits => ?_⟩
      · simp only [evalRvalue, bind, StateT.bind, evalScalar_of_value hv, hv', hv'', select]
      · have hlt : d.eval ρ < 2 ^ 1 := hfits
        have hmachine : (RValue.select c t e).machine v' (RValue.denotations ρ [1, v', v'] [d, a, b])
            = if d.eval ρ % 2 ^ 1 = 1 then a.eval ρ % 2 ^ v' % 2 ^ v'
              else b.eval ρ % 2 ^ v' % 2 ^ v' := rfl
        rw [Expr.eval_mkIte, hmachine, Nat.mod_eq_of_lt hlt, Nat.mod_mod, Nat.mod_mod]
        by_cases hd : d.eval ρ = 1
        · rw [if_pos hd, if_pos (show Expr.Holds ρ d from hd)]
        · rw [if_neg hd, if_neg (show ¬ Expr.Holds ρ d from hd)]

theorem exists_valuation_sym (ρ : Valuation) (name : String) {w x : Nat} (hw : w ≤ ptrWidth)
    (hx : x < 2 ^ w) : ∃ ρ' : Valuation, (∀ n v, n ≠ name → ρ' n v = ρ n v) ∧
      (Expr.sym name ptrWidth).eval ρ' % 2 ^ w = x := by
  refine ⟨fun n v => if n = name then x else ρ n v, fun n v hne => if_neg hne, ?_⟩
  have hx' : x < 2 ^ ptrWidth := lt_of_lt_of_le hx (Nat.pow_le_pow_right (by decide) hw)
  rw [Expr.eval, if_pos rfl, Nat.mod_eq_of_lt hx', Nat.mod_eq_of_lt hx]

/-- Evaluation over scalar operands. Where the operand's expression is handed on, the result has the
    machine's value at the declared width under every valuation in which the operands fit; `trunc`
    and `ptrtoint` give an unknown that some extension of the valuation makes the machine's value,
    and `inttoptr` a pointer of unknown provenance. -/
theorem evalRvalue_machine (rv : RValue) (state : PathState) (ex : Explorer) (w : Nat)
    (ws : List Nat) (es : List Expr) (hread : readScalars state rv.operands ex = some es)
    (hty : rv.WellTyped w ws) :
    match rv with
    | .cast .intToPtr _ => ∃ p ex', evalRvalue rv state ex = (.ptr p, ex') ∧
        p.prov = .unknown .intToPtr none
    | .cast .trunc _ | .cast .ptrToInt _ => ∃ name ex',
        evalRvalue rv state ex = (.scalar (.sym name ptrWidth), ex') ∧
        (w ≤ ptrWidth → ∀ ρ : Valuation, ∃ ρ' : Valuation,
          (∀ n v, n ≠ name → ρ' n v = ρ n v) ∧ (Expr.sym name ptrWidth).eval ρ' % 2 ^ w =
            rv.machine w (RValue.denotations ρ ws es))
    | _ => ∃ r ex', evalRvalue rv state ex = (.scalar r, ex') ∧
        ∀ ρ, rv.Fits ρ w ws es →
          r.eval ρ % 2 ^ w = rv.machine w (RValue.denotations ρ ws es) := by
  cases rv with
  | cast op operand =>
    obtain ⟨a, as, ex', rfl, hv, has⟩ := readScalars_cons hread
    obtain rfl := readScalars_nil has
    cases op with
    | intToPtr => exact ⟨_, ex, rfl, rfl⟩
    | trunc =>
      match ws, hty with
      | [v], _ => exact ⟨_, _, rfl, fun hw ρ => exists_valuation_sym ρ _ hw
          (Nat.mod_lt _ (Nat.two_pow_pos w))⟩
    | ptrToInt =>
      match ws, hty with
      | [v], _ => exact ⟨_, _, rfl, fun hw ρ => exists_valuation_sym ρ _ hw
          (Nat.mod_lt _ (Nat.two_pow_pos w))⟩
    | zext => exact evalRvalue_eval hread hty rfl
    | sext => exact evalRvalue_eval hread hty rfl
    | bitcast => exact evalRvalue_eval hread hty rfl
  | use op => exact evalRvalue_eval hread hty rfl
  | bin op lhs rhs => exact evalRvalue_eval hread hty rfl
  | cmp op lhs rhs => exact evalRvalue_eval hread hty rfl
  | select c t e => exact evalRvalue_eval hread hty rfl

end

/-! ## A widened byte -/

/-- `r0` holds an `i8`. -/
def byteState : PathState where
  env r := if r = 0 then some (.scalar (.sym "x" 8)) else none
  regions := []
  pathcond := []
  facts := []
  heap := []
  exact := true

/-- `r1 := zext r0 to i64`. -/
def widenedState : PathState :=
  byteState.setReg 1 (evalRvalue (.cast .zext (.reg 0)) byteState .initial).1

/-- `r2 := add i64 r1, 1`. -/
def incremented : RValue := .bin .add (.reg 1) (.const (.int ⟨64, 1, BitVector.pos64, BitVector.le64, BitVector.one_lt64⟩))

/-- With `r1 = 255` the machine has `256`, where the expression of the sum is an eight-bit `0`. -/
theorem evalRvalue_zext_add_wraps :
    readScalars widenedState incremented.operands .initial = some [.sym "x" 8, .const 64 1] ∧
    incremented.WellTyped 64 [64, 64] ∧
    ∃ r ex', evalRvalue incremented widenedState .initial = (.scalar r, ex') ∧
      r.eval (fun _ _ => 255) % 2 ^ 64 = 0 ∧
      incremented.machine 64 (RValue.denotations (fun _ _ => 255) [64, 64]
        [.sym "x" 8, .const 64 1]) = 256 := by
  refine ⟨rfl, ⟨rfl, rfl⟩, .bin .add (.sym "x" 8) (.const 64 1), .initial, rfl, by decide, by decide⟩

/-- A byte below the sign bit, incremented: the theorem applies and both sides are `101`. -/
theorem evalRvalue_machine_small :
    ∃ r ex', evalRvalue incremented widenedState .initial = (.scalar r, ex') ∧
      r.eval (fun _ _ => 100) % 2 ^ 64 = 101 := by
  obtain ⟨r, ex', hr, hfits⟩ := evalRvalue_machine incremented widenedState .initial 64 [64, 64]
    [.sym "x" 8, .const 64 1] rfl ⟨rfl, rfl⟩
  refine ⟨r, ex', hr, ?_⟩
  rw [hfits (fun _ _ => 100) (.inr (.inr (.inr (by decide))))]
  decide

end Csolver
