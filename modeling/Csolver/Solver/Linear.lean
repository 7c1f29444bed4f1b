import Csolver.Solver.BlasterSound
import Csolver.Solver.LinearForm

/-!
# The linear procedure (`crates/solver/src/linear.rs`)

Comparisons are read over the integers and `assumptions ∧ ¬goal` is refuted by Fourier–Motzkin
elimination. Machine arithmetic agrees with the integers only where nothing wraps and no value has
its sign bit set (`Tame`), so the procedure is sound relative to that.

The elimination loop returns for every system: each round removes one variable for good
(`eliminate_spec`).
-/

namespace Csolver

namespace Linear

/-! ## Linearisation -/

/-- A constant as an integer, unsigned when it fits. -/
def constToInt (bv : BitVector) : Int :=
  if (bv.value : Int) ≤ i128Max then bv.value else bv.signed

/-- `linearize`; the fuel bounds the depth, and handles point backwards. -/
def linearizeFuel (ctx : ExprCtx) : Nat → ExprId → Option Linear
  | 0, _ => none
  | fuel + 1, e =>
    match ctx.node e with
    | .const bv => some (const (constToInt bv))
    | .bin op a b => do
      let la ← linearizeFuel ctx fuel a
      let lb ← linearizeFuel ctx fuel b
      match op with
      | .add => la.add lb
      | .sub => la.sub lb
      | .mul =>
        if la.isConstant then lb.scale la.constant
        else if lb.isConstant then la.scale lb.constant
        else some (atom e)
      | _ => some (atom e)
    | _ => some (atom e)

def linearize (ctx : ExprCtx) (e : ExprId) : Option Linear := linearizeFuel ctx (e + 1) e

/-- The inequalities `≤ 0` of one comparison, whatever its signedness. -/
def orderConstraints (op : CmpOp) (la lb : Linear) : Option (List Linear) :=
  match op with
  | .ult | .slt => do return [← (← la.sub lb).addConst 1]
  | .ule | .sle => do return [← la.sub lb]
  | .ugt | .sgt => do return [← (← lb.sub la).addConst 1]
  | .uge | .sge => do return [← lb.sub la]
  | .eq => do return [← la.sub lb, ← lb.sub la]
  | .ne => none

/-- `cmp_constraints`: an unsigned comparison also makes its operands non-negative. -/
def cmpConstraints (op : CmpOp) (la lb : Linear) : Option (List Linear) := do
  let res ← orderConstraints op la lb
  match op with
  | .ult | .ule | .ugt | .uge => return res ++ [← la.scale (-1), ← lb.scale (-1)]
  | _ => return res

/-- The constraints of all of `xs`, or of none. -/
def allConstraints (rec : ExprId → Option (List Linear)) : List ExprId → Option (List Linear)
  | [] => some []
  | x :: xs => do return (← rec x) ++ (← allConstraints rec xs)

/-- `constraints_of`: the inequalities equivalent to `e == truth`. -/
def constraintsFuel (ctx : ExprCtx) : Nat → ExprId → Bool → Option (List Linear)
  | 0, _, _ => none
  | fuel + 1, e, truth =>
    match ctx.node e with
    | .bool b => if b = truth then some [] else some [const 1]
    | .not x => constraintsFuel ctx fuel x !truth
    | .and xs => if truth then allConstraints (constraintsFuel ctx fuel · true) xs else none
    | .or xs => if truth then none else allConstraints (constraintsFuel ctx fuel · false) xs
    | .cmp op a b => do
      let la ← linearize ctx a
      let lb ← linearize ctx b
      cmpConstraints (if truth then op else op.negate) la lb
    | _ => none

def constraintsOf (ctx : ExprCtx) (e : ExprId) (truth : Bool) : Option (List Linear) :=
  constraintsFuel ctx (e + 1) e truth

/-! ## Fourier–Motzkin elimination -/

def constraintLimit : Nat := 4096

/-- A constant constraint that cannot hold. -/
def contradiction (c : Linear) : Bool := c.isConstant && decide (0 < c.constant)

/-- The combination of an upper and a lower bound on `v`, or `none` on overflow. -/
def combine (v : ExprId) (p n : Linear) : Option Linear := do
  let a := p.coeffOf v
  let b := wrappingNeg (n.coeffOf v)
  let bp ← p.scale b
  let an ← n.scale a
  let combined ← bp.add an
  return combined.remove v

/-- A round either decides or leaves a system without the variable. -/
inductive Round where
  | done (feasible : Bool)
  | next (constraints : List Linear)

def combineAll (v : ExprId) : List (Linear × Linear) → List Linear → Round
  | [], next => .next next
  | (p, n) :: rest, next =>
    match combine v p n with
    | none => .done true
    | some combined =>
      if contradiction combined then .done false
      else if constraintLimit < (next ++ [combined]).length then .done true
      else combineAll v rest (next ++ [combined])

def eliminate (v : ExprId) (cs : List Linear) : Round :=
  let pos := cs.filter fun c => 0 < c.coeffOf v
  let neg := cs.filter fun c => c.coeffOf v < 0
  let next := cs.filter fun c => c.coeffOf v = 0
  combineAll v (pos.flatMap fun p => neg.map fun n => (p, n)) next

/-- The first variable of the first constraint that has one. -/
def pickVar (cs : List Linear) : Option ExprId := (cs.flatMap fun c => c.coeffs.map (·.1)).head?

def feasibleFuel : Nat → List Linear → Option Bool
  | 0, _ => none
  | fuel + 1, cs =>
    if cs.any contradiction then some false
    else match pickVar cs with
      | none => some true
      | some v =>
        match eliminate v cs with
        | .done r => some r
        | .next cs => feasibleFuel fuel cs

/-- `feasible`; the fuel is the number of variables, counted with repetitions. -/
def feasible (cs : List Linear) : Option Bool :=
  feasibleFuel ((cs.flatMap fun c => c.coeffs.map (·.1)).length + 1) cs

/-- `prove_implies`. An assumption the fragment cannot read is skipped. -/
def proveImplies (ctx : ExprCtx) (assumptions : List ExprId) (goal : ExprId) : Option Bool :=
  match constraintsOf ctx goal false with
  | none => some false
  | some cs => do
    let read := assumptions.flatMap fun a => (constraintsOf ctx a true).getD []
    return !(← feasible (read ++ cs))

/-! ## Where machine arithmetic is integer arithmetic -/

open Expr

/-- The value, and that of every term it is linear in, has its sign bit clear; no addition,
    subtraction or multiplication among them wraps. -/
def Quantity (ρ : Valuation) : Expr → Prop
  | .bin op a b => 2 * (Expr.bin op a b).eval ρ < 2 ^ a.width ∧
    match op with
    | .add => Quantity ρ a ∧ Quantity ρ b ∧ a.eval ρ + b.eval ρ < 2 ^ a.width
    | .sub => Quantity ρ a ∧ Quantity ρ b ∧ b.eval ρ ≤ a.eval ρ
    | .mul => Quantity ρ a ∧ Quantity ρ b ∧ a.eval ρ * b.eval ρ < 2 ^ a.width
    | _ => True
  | e => 2 * e.eval ρ < 2 ^ e.width

mutual

/-- Every quantity a formula compares is non-negative and unwrapped, at the width of the
    comparison. -/
def Tame (ρ : Valuation) : Expr → Prop
  | .cmp _ a b => Quantity ρ a ∧ Quantity ρ b ∧ 2 * b.eval ρ < 2 ^ a.width
  | .not e => Tame ρ e
  | .and es => TameAll ρ es
  | .or es => TameAll ρ es
  | _ => True

def TameAll (ρ : Valuation) : List Expr → Prop
  | [] => True
  | e :: es => Tame ρ e ∧ TameAll ρ es

end

theorem tameAll_iff (ρ : Valuation) (es : List Expr) : TameAll ρ es ↔ ∀ e ∈ es, Tame ρ e := by
  induction es with
  | nil => simp [TameAll]
  | cons e es ih => rw [TameAll, ih, List.forall_mem_cons]

theorem Quantity.range {ρ : Valuation} {e : Expr} (h : Quantity ρ e) : 2 * e.eval ρ < 2 ^ e.width := by
  cases e with
  | bin op a b => exact h.1
  | _ => exact h

/-- The value of each handle, as an integer. -/
def values (ctx : ExprCtx) (ρ : Valuation) : ExprId → Int := fun e => ((ctx.expr e).eval ρ : Nat)

theorem constToInt_eq {bv : BitVector} (h : 2 * bv.value < 2 ^ bv.width) :
    constToInt bv = (bv.value : Int) := by
  have hw : 2 ^ bv.width ≤ 2 ^ 128 := Nat.pow_le_pow_right (by decide) bv.width_le
  have hle : (bv.value : Int) ≤ i128Max := by
    unfold i128Max
    omega
  rw [constToInt, if_pos hle]

theorem eval_bin_add {w x y : Nat} (h : x + y < 2 ^ w) : BvOp.add.eval w x y = x + y := by
  show (BitVec.ofNat w x + BitVec.ofNat w y).toNat = _
  rw [BitVec.toNat_add, BitVec.toNat_ofNat, BitVec.toNat_ofNat, ← Nat.add_mod, Nat.mod_eq_of_lt h]

theorem eval_bin_sub {w x y : Nat} (hx : x < 2 ^ w) (h : y ≤ x) : BvOp.sub.eval w x y = x - y := by
  show (BitVec.ofNat w x - BitVec.ofNat w y).toNat = _
  have hy : y < 2 ^ w := Nat.lt_of_le_of_lt h hx
  rw [BitVec.toNat_sub, BitVec.toNat_ofNat, BitVec.toNat_ofNat, Nat.mod_eq_of_lt hx,
    Nat.mod_eq_of_lt hy]
  have hsum : 2 ^ w - y + x = 2 ^ w + (x - y) := by omega
  rw [hsum, Nat.add_mod_left, Nat.mod_eq_of_lt (Nat.lt_of_le_of_lt (Nat.sub_le x y) hx)]

theorem eval_bin_mul {w x y : Nat} (h : x * y < 2 ^ w) : BvOp.mul.eval w x y = x * y := by
  show (BitVec.ofNat w x * BitVec.ofNat w y).toNat = _
  rw [BitVec.toNat_mul, BitVec.toNat_ofNat, BitVec.toNat_ofNat, ← Nat.mul_mod, Nat.mod_eq_of_lt h]

section

variable {ctx : ExprCtx} (hctx : ctx.Ok) (ρ : Valuation)

include hctx

/-- **Linearisation.** A form stands for the value of the handle it was made from. -/
theorem linearizeFuel_eval (fuel : Nat) : ∀ {e : ExprId} {l : Linear}, e < ctx.len →
    linearizeFuel ctx fuel e = some l → Quantity ρ (ctx.expr e) →
      l.eval (values ctx ρ) = ((ctx.expr e).eval ρ : Nat) := by
  induction fuel with
  | zero =>
    intro e l _ hl
    exact absurd hl (by simp [linearizeFuel])
  | succ fuel ih =>
    intro e l he hl hq
    have hatom : l = atom e → l.eval (values ctx ρ) = ((ctx.expr e).eval ρ : Nat) := by
      rintro rfl
      rw [eval_atom]
      rfl
    have hok := hctx.node he
    have hexpr := ExprCtx.expr_eq hctx he
    rw [linearizeFuel] at hl
    cases hn : ctx.node e with
    | const bv =>
      rw [hn] at hl hexpr
      rw [hexpr] at hq ⊢
      obtain rfl : const (constToInt bv) = l := Option.some.inj hl
      have hval : (Expr.const bv.width bv.value).eval ρ = bv.value := Nat.mod_eq_of_lt bv.value_lt
      have hrange : 2 * (Expr.const bv.width bv.value).eval ρ < 2 ^ bv.width := hq
      rw [hval] at hrange
      show (const (constToInt bv)).eval _ = (((Expr.const bv.width bv.value).eval ρ : Nat) : Int)
      rw [eval_const, constToInt_eq hrange, hval]
    | bin op a b =>
      rw [hn] at hl hexpr hok
      obtain ⟨la, hla, hl⟩ := Option.bind_eq_some_iff.mp hl
      obtain ⟨lb, hlb, hl⟩ := Option.bind_eq_some_iff.mp hl
      have ha := Nat.lt_trans hok.1 he
      have hb := Nat.lt_trans hok.2.1 he
      have hq' : Quantity ρ (.bin op (ctx.expr a) (ctx.expr b)) := by
        rw [hexpr] at hq
        exact hq
      have heval : (ctx.expr e).eval ρ =
          op.eval (ctx.expr a).width ((ctx.expr a).eval ρ) ((ctx.expr b).eval ρ) := by
        rw [hexpr]
        rfl
      cases op with
      | add =>
        obtain ⟨-, hqa, hqb, hsum⟩ := hq'
        rw [heval, eval_bin_add hsum, eval_add _ hl, ih ha hla hqa, ih hb hlb hqb, Nat.cast_add]
      | sub =>
        obtain ⟨-, hqa, hqb, hle⟩ := hq'
        have hlt : (ctx.expr a).eval ρ < 2 ^ (ctx.expr a).width := by
          have := hqa.range
          omega
        rw [heval, eval_bin_sub hlt hle, eval_sub _ hl, ih ha hla hqa, ih hb hlb hqb,
          Nat.cast_sub hle]
      | mul =>
        obtain ⟨-, hqa, hqb, hprod⟩ := hq'
        have hval := eval_bin_mul hprod
        simp only at hl
        by_cases hca : la.isConstant = true
        · rw [if_pos hca] at hl
          have hconst := ih ha hla hqa
          rw [eval_isConstant _ hca] at hconst
          rw [heval, hval, eval_scale _ hl, ih hb hlb hqb, hconst, Nat.cast_mul]
        · rw [if_neg hca] at hl
          by_cases hcb : lb.isConstant = true
          · rw [if_pos hcb] at hl
            have hconst := ih hb hlb hqb
            rw [eval_isConstant _ hcb] at hconst
            rw [heval, hval, eval_scale _ hl, ih ha hla hqa, hconst, Nat.cast_mul, mul_comm]
          · rw [if_neg hcb] at hl
            exact hatom (Option.some.inj hl).symm
      | _ => exact hatom (Option.some.inj hl).symm
    | _ =>
      rw [hn] at hl
      exact hatom (Option.some.inj hl).symm

end

/-! ### Comparisons -/

/-- A comparison over the integers, signedness forgotten. -/
def IntCmp (op : CmpOp) (x y : Int) : Prop :=
  match op with
  | .ult | .slt => x < y
  | .ule | .sle => x ≤ y
  | .ugt | .sgt => y < x
  | .uge | .sge => y ≤ x
  | .eq => x = y
  | .ne => x ≠ y

theorem toInt_ofNat {w x : Nat} (h : 2 * x < 2 ^ w) : (BitVec.ofNat w x).toInt = x := by
  have hx : x < 2 ^ w := by omega
  rw [BitVec.toInt_eq_toNat_of_lt (by rw [BitVec.toNat_ofNat, Nat.mod_eq_of_lt hx]; exact h),
    BitVec.toNat_ofNat, Nat.mod_eq_of_lt hx]

theorem eval_cmp {op : CmpOp} {w x y : Nat} (hx : 2 * x < 2 ^ w) (hy : 2 * y < 2 ^ w) :
    op.eval w x y = true ↔ IntCmp op x y := by
  have hxw : x % 2 ^ w = x := Nat.mod_eq_of_lt (by omega)
  have hyw : y % 2 ^ w = y := Nat.mod_eq_of_lt (by omega)
  unfold CmpOp.eval IntCmp
  cases op with
  | eq =>
    simp only [CmpOp.evalBv, beq_iff_eq, ← BitVec.toNat_inj, BitVec.toNat_ofNat, hxw, hyw]
    omega
  | ne =>
    simp only [CmpOp.evalBv, bne_iff_ne, ne_eq, ← BitVec.toNat_inj, BitVec.toNat_ofNat, hxw, hyw]
    omega
  | ult => simp [CmpOp.evalBv, BitVec.ult, hxw, hyw]
  | ule => simp [CmpOp.evalBv, BitVec.ule, hxw, hyw]
  | ugt => simp [CmpOp.evalBv, BitVec.ult, hxw, hyw]
  | uge => simp [CmpOp.evalBv, BitVec.ule, hxw, hyw]
  | slt => simp only [CmpOp.evalBv, BitVec.slt, toInt_ofNat hx, toInt_ofNat hy, decide_eq_true_eq]
  | sle => simp only [CmpOp.evalBv, BitVec.sle, toInt_ofNat hx, toInt_ofNat hy, decide_eq_true_eq]
  | sgt => simp only [CmpOp.evalBv, BitVec.slt, toInt_ofNat hx, toInt_ofNat hy, decide_eq_true_eq]
  | sge => simp only [CmpOp.evalBv, BitVec.sle, toInt_ofNat hx, toInt_ofNat hy, decide_eq_true_eq]

theorem IntCmp.negate {op : CmpOp} {x y : Int} (h : ¬IntCmp op x y) : IntCmp op.negate x y := by
  cases op <;> simp only [IntCmp, CmpOp.negate] at h ⊢ <;> omega

theorem orderConstraints_sound (σ : ExprId → Int) {op : CmpOp} {la lb : Linear} {cs : List Linear}
    (h : orderConstraints op la lb = some cs) (hcmp : IntCmp op (la.eval σ) (lb.eval σ)) :
    ∀ c ∈ cs, c.eval σ ≤ 0 := by
  -- one difference, with or without the strictness unit
  have strict : ∀ {l o : Linear}, (do return [← (← l.sub o).addConst 1]) = some cs →
      l.eval σ < o.eval σ → ∀ c ∈ cs, c.eval σ ≤ 0 := by
    intro l o he hlt c hc
    obtain ⟨d, hd, he⟩ := Option.bind_eq_some_iff.mp he
    obtain ⟨r, hr, he⟩ := Option.bind_eq_some_iff.mp he
    rw [← Option.some.inj he] at hc
    rw [List.mem_singleton.mp hc, eval_addConst σ hr, eval_sub σ hd]
    linarith
  have weak : ∀ {l o : Linear}, (do return [← l.sub o]) = some cs →
      l.eval σ ≤ o.eval σ → ∀ c ∈ cs, c.eval σ ≤ 0 := by
    intro l o he hle c hc
    obtain ⟨d, hd, he⟩ := Option.bind_eq_some_iff.mp he
    rw [← Option.some.inj he] at hc
    rw [List.mem_singleton.mp hc, eval_sub σ hd]
    linarith
  cases op with
  | ult => exact strict h hcmp
  | slt => exact strict h hcmp
  | ugt => exact strict h hcmp
  | sgt => exact strict h hcmp
  | ule => exact weak h hcmp
  | sle => exact weak h hcmp
  | uge => exact weak h hcmp
  | sge => exact weak h hcmp
  | ne => exact absurd h (by simp [orderConstraints])
  | eq =>
    intro c hc
    obtain ⟨d, hd, h⟩ := Option.bind_eq_some_iff.mp h
    obtain ⟨d', hd', h⟩ := Option.bind_eq_some_iff.mp h
    have heq : la.eval σ = lb.eval σ := hcmp
    rw [← Option.some.inj h] at hc
    rcases List.mem_cons.mp hc with rfl | hc
    · rw [eval_sub σ hd, heq, sub_self]
    · rw [List.mem_singleton.mp hc, eval_sub σ hd', heq, sub_self]

theorem cmpConstraints_sound (σ : ExprId → Int) {op : CmpOp} {la lb : Linear} {cs : List Linear}
    (h : cmpConstraints op la lb = some cs) (hcmp : IntCmp op (la.eval σ) (lb.eval σ))
    (ha : 0 ≤ la.eval σ) (hb : 0 ≤ lb.eval σ) : ∀ c ∈ cs, c.eval σ ≤ 0 := by
  obtain ⟨res, hres, h⟩ := Option.bind_eq_some_iff.mp h
  have horder := orderConstraints_sound σ hres hcmp
  have unsigned : (do return res ++ [← la.scale (-1), ← lb.scale (-1)]) = some cs →
      ∀ c ∈ cs, c.eval σ ≤ 0 := by
    intro he c hc
    obtain ⟨na, hna, he⟩ := Option.bind_eq_some_iff.mp he
    obtain ⟨nb, hnb, he⟩ := Option.bind_eq_some_iff.mp he
    rw [← Option.some.inj he] at hc
    rcases List.mem_append.mp hc with hc | hc
    · exact horder c hc
    · rcases List.mem_cons.mp hc with rfl | hc
      · rw [eval_scale σ hna]
        linarith
      · rw [List.mem_singleton.mp hc, eval_scale σ hnb]
        linarith
  cases op with
  | ult | ule | ugt | uge => exact unsigned h
  | eq | ne | slt | sle | sgt | sge =>
    obtain rfl : res = cs := Option.some.inj h
    exact horder

/-! ### Formulas -/

theorem allConstraints_forall {rec : ExprId → Option (List Linear)} {P : Linear → Prop}
    (xs : List ExprId) (hrec : ∀ x ∈ xs, ∀ cs, rec x = some cs → ∀ c ∈ cs, P c) :
    ∀ {cs : List Linear}, allConstraints rec xs = some cs → ∀ c ∈ cs, P c := by
  induction xs with
  | nil =>
    intro cs h c hc
    obtain rfl : [] = cs := Option.some.inj h
    exact absurd hc List.not_mem_nil
  | cons x xs ih =>
    intro cs h c hc
    obtain ⟨ds, hds, h⟩ := Option.bind_eq_some_iff.mp h
    obtain ⟨es, hes, h⟩ := Option.bind_eq_some_iff.mp h
    rw [← Option.some.inj h] at hc
    rcases List.mem_append.mp hc with hc | hc
    · exact hrec x List.mem_cons_self ds hds c hc
    · exact ih (fun y hy => hrec y (List.mem_cons_of_mem _ hy)) hes c hc

/-- **The constraints of a formula** hold wherever the formula has the truth value they were made
    for. -/
theorem constraintsFuel_sound {ctx : ExprCtx} (hctx : ctx.Ok) (ρ : Valuation) (fuel : Nat) :
    ∀ {e : ExprId} {truth : Bool} {cs : List Linear}, e < ctx.len →
      constraintsFuel ctx fuel e truth = some cs → Tame ρ (ctx.expr e) →
      ((ctx.expr e).eval ρ == 1) = truth → ∀ c ∈ cs, c.eval (values ctx ρ) ≤ 0 := by
  induction fuel with
  | zero =>
    intro e truth cs _ h
    exact absurd h (by simp [constraintsFuel])
  | succ fuel ih =>
    intro e truth cs he h ht htruth
    have hok := hctx.node he
    have hexpr := ExprCtx.expr_eq hctx he
    rw [constraintsFuel] at h
    cases hn : ctx.node e with
    | bool b =>
      rw [hn] at h hexpr
      rw [hexpr] at htruth
      have hb : b = truth := by
        rw [← htruth]
        cases b <;> rfl
      simp only [if_pos hb] at h
      intro c hc
      rw [← Option.some.inj h] at hc
      exact absurd hc List.not_mem_nil
    | not x =>
      rw [hn] at h hexpr hok
      rw [hexpr] at ht htruth
      refine ih (Nat.lt_trans hok.1 he) h ht ?_
      rw [← htruth]
      show _ = !(((ctx.expr x).eval ρ != 1).toNat == 1)
      rw [bne]
      cases (ctx.expr x).eval ρ == 1 <;> rfl
    | and xs =>
      rw [hn] at h hexpr hok
      rw [hexpr] at ht htruth
      cases truth with
      | false => exact absurd h (by simp)
      | true =>
        have htrue : Expr.evalAll ρ (xs.map ctx.expr) = true := by
          have : ((Expr.evalAll ρ (xs.map ctx.expr)).toNat == 1) = true := htruth
          revert this
          cases Expr.evalAll ρ (xs.map ctx.expr) <;> simp
        have ht' : TameAll ρ (xs.map ctx.expr) := ht
        rw [tameAll_iff, List.forall_mem_map] at ht'
        rw [Expr.evalAll_eq, List.all_map, List.all_eq_true] at htrue
        refine allConstraints_forall (P := fun c => c.eval (values ctx ρ) ≤ 0) xs (fun x hx ds hds => ?_) h
        exact ih (Nat.lt_trans (hok.1 x hx) he) hds (ht' x hx) (htrue x hx)
    | or xs =>
      rw [hn] at h hexpr hok
      rw [hexpr] at ht htruth
      cases truth with
      | true => exact absurd h (by simp)
      | false =>
        have hfalse : Expr.evalAny ρ (xs.map ctx.expr) = false := by
          have : ((Expr.evalAny ρ (xs.map ctx.expr)).toNat == 1) = false := htruth
          revert this
          cases Expr.evalAny ρ (xs.map ctx.expr) <;> simp
        have ht' : TameAll ρ (xs.map ctx.expr) := ht
        rw [tameAll_iff, List.forall_mem_map] at ht'
        rw [Expr.evalAny_eq, List.any_map, List.any_eq_false] at hfalse
        refine allConstraints_forall (P := fun c => c.eval (values ctx ρ) ≤ 0) xs (fun x hx ds hds => ?_) h
        exact ih (Nat.lt_trans (hok.1 x hx) he) hds (ht' x hx) (Bool.eq_false_iff.mpr (hfalse x hx))
    | cmp op a b =>
      rw [hn] at h hexpr hok
      rw [hexpr] at ht htruth
      obtain ⟨la, hla, h⟩ := Option.bind_eq_some_iff.mp h
      obtain ⟨lb, hlb, h⟩ := Option.bind_eq_some_iff.mp h
      obtain ⟨hqa, hqb, hbw⟩ := ht
      have hea := linearizeFuel_eval hctx ρ _ (Nat.lt_trans hok.1 he) hla hqa
      have heb := linearizeFuel_eval hctx ρ _ (Nat.lt_trans hok.2.1 he) hlb hqb
      have hcmp : IntCmp (if truth then op else op.negate) (la.eval (values ctx ρ))
          (lb.eval (values ctx ρ)) := by
        rw [hea, heb]
        have hiff := @eval_cmp op _ _ _ hqa.range hbw
        have hval : (op.eval (ctx.expr a).width ((ctx.expr a).eval ρ) ((ctx.expr b).eval ρ)) = truth := by
          have : ((op.eval (ctx.expr a).width ((ctx.expr a).eval ρ)
            ((ctx.expr b).eval ρ)).toNat == 1) = truth := htruth
          rw [← this]
          cases op.eval (ctx.expr a).width ((ctx.expr a).eval ρ) ((ctx.expr b).eval ρ) <;> rfl
        cases truth with
        | true => exact hiff.mp hval
        | false =>
          apply IntCmp.negate
          intro hc
          rw [hiff.mpr hc] at hval
          exact absurd hval (by decide)
      refine cmpConstraints_sound _ h hcmp ?_ ?_
      · rw [hea]
        exact Int.natCast_nonneg _
      · rw [heb]
        exact Int.natCast_nonneg _
    | _ =>
      rw [hn] at h
      exact absurd h (by simp)

/-! ### Elimination -/

theorem coeff_inRange_of_scale {l r : Linear} {k : Int} (h : l.scale k = some r) :
    ∀ p ∈ r.coeffs, InRange p.2 := by
  obtain ⟨cs, hs, hcs, rfl⟩ := scale_some h
  intro p hp
  have hmem := (List.mem_filter.mp hp).1
  obtain ⟨hmap, hrange⟩ := Coeffs.scale_spec _ hcs
  rw [hmap] at hmem
  obtain ⟨q, hq, rfl⟩ := List.mem_map.mp hmem
  exact hrange q hq

theorem coeff_inRange_of_add {l o r : Linear} (h : l.add o = some r)
    (hl : ∀ p ∈ l.coeffs, InRange p.2) : ∀ p ∈ r.coeffs, InRange p.2 := by
  obtain ⟨cs, hs, hcs, rfl⟩ := add_some h
  intro p hp
  exact (Coeffs.addAll_spec _ hcs).2.1 hl p (List.mem_filter.mp hp).1

theorem combine_neg {v : ExprId} {p n c : Linear} (h : combine v p n = some c)
    (hp : 0 < p.coeffOf v) : n.coeffOf v ≠ i128Min := by
  intro hmin
  obtain ⟨bp, hbp, h⟩ := Option.bind_eq_some_iff.mp h
  obtain ⟨an, han, h⟩ := Option.bind_eq_some_iff.mp h
  obtain ⟨r, hr, h⟩ := Option.bind_eq_some_iff.mp h
  have hb : wrappingNeg (n.coeffOf v) = i128Min := by rw [hmin, wrappingNeg, if_pos rfl]
  rw [hb] at hbp
  have hcoeff : r.coeffOf v = i128Min * p.coeffOf v + p.coeffOf v * i128Min := by
    rw [coeffOf_add hr, coeffOf_scale hbp, coeffOf_scale han, hmin]
  have hneg : i128Min < 0 := by decide
  have hle : r.coeffOf v ≤ 2 * i128Min := by
    rw [hcoeff]
    nlinarith
  have hmem := Coeffs.mem_of_get (v := v) (by
    show r.coeffOf v ≠ 0
    linarith)
  have hrange := coeff_inRange_of_add hr (coeff_inRange_of_scale hbp) _ hmem
  have hlow : i128Min ≤ r.coeffOf v := hrange.1
  linarith

theorem combine_spec {v : ExprId} {p n c : Linear} (h : combine v p n = some c)
    (hp : 0 < p.coeffOf v) (hn : n.coeffOf v < 0) :
    (∀ σ, p.eval σ ≤ 0 → n.eval σ ≤ 0 → c.eval σ ≤ 0) ∧ ¬c.Mentions v ∧
      ∀ k, c.Mentions k → p.Mentions k ∨ n.Mentions k := by
  have hmin := combine_neg h hp
  obtain ⟨bp, hbp, h⟩ := Option.bind_eq_some_iff.mp h
  obtain ⟨an, han, h⟩ := Option.bind_eq_some_iff.mp h
  obtain ⟨r, hr, h⟩ := Option.bind_eq_some_iff.mp h
  have hb : wrappingNeg (n.coeffOf v) = -n.coeffOf v := by rw [wrappingNeg, if_neg hmin]
  rw [hb] at hbp
  have hzero : r.coeffOf v = 0 := by
    rw [coeffOf_add hr, coeffOf_scale hbp, coeffOf_scale han]
    ring
  have hc : c = r := by rw [← Option.some.inj h, remove_of_coeffOf_zero hzero]
  rw [hc]
  refine ⟨fun σ hpσ hnσ => ?_, fun hm => coeffOf_ne_zero hm hzero, fun k hk => ?_⟩
  · rw [eval_add σ hr, eval_scale σ hbp, eval_scale σ han]
    have h₁ : -n.coeffOf v * p.eval σ ≤ 0 := mul_nonpos_of_nonneg_of_nonpos (by linarith) hpσ
    have h₂ : p.coeffOf v * n.eval σ ≤ 0 := mul_nonpos_of_nonneg_of_nonpos (le_of_lt hp) hnσ
    linarith
  · rcases add_mentions hr hk with hk | hk
    · exact .inl (scale_mentions hbp hk)
    · exact .inr (scale_mentions han hk)

theorem eval_of_contradiction (σ : ExprId → Int) {c : Linear} (h : contradiction c = true) :
    0 < c.eval σ := by
  rw [contradiction, Bool.and_eq_true, decide_eq_true_eq] at h
  rw [eval_isConstant σ h.1]
  exact h.2

/-- What a round does: it refutes only systems without a solution, and what it leaves holds at every
    solution, mentions old variables only, and not `v`. -/
def RoundOk (v : ExprId) (cs : List Linear) : Round → Prop
  | .done r => r = false → ∀ σ, ¬∀ c ∈ cs, c.eval σ ≤ 0
  | .next ds => (∀ σ, (∀ c ∈ cs, c.eval σ ≤ 0) → ∀ d ∈ ds, d.eval σ ≤ 0) ∧
    ∀ d ∈ ds, ¬d.Mentions v ∧ ∀ k, d.Mentions k → ∃ c ∈ cs, c.Mentions k

theorem combineAll_spec {v : ExprId} {cs : List Linear} (pairs : List (Linear × Linear))
    (hpairs : ∀ q ∈ pairs, (q.1 ∈ cs ∧ 0 < q.1.coeffOf v) ∧ q.2 ∈ cs ∧ q.2.coeffOf v < 0) :
    ∀ {next : List Linear}, RoundOk v cs (.next next) → RoundOk v cs (combineAll v pairs next) := by
  induction pairs with
  | nil => exact id
  | cons q pairs ih =>
    intro next hnext
    obtain ⟨⟨⟨hpmem, hp⟩, hnmem, hn⟩, hrest⟩ := List.forall_mem_cons.mp hpairs
    rw [combineAll]
    cases hc : combine v q.1 q.2 with
    | none => exact fun h => absurd h (by decide)
    | some c =>
      obtain ⟨hsound, hgone, hold⟩ := combine_spec hc hp hn
      simp only
      by_cases hcon : contradiction c = true
      · rw [if_pos hcon]
        intro _ σ hσ
        have hpos := eval_of_contradiction σ hcon
        have hle := hsound σ (hσ _ hpmem) (hσ _ hnmem)
        linarith
      · rw [if_neg hcon]
        by_cases hbig : constraintLimit < (next ++ [c]).length
        · rw [if_pos hbig]
          exact fun h => absurd h (by decide)
        · rw [if_neg hbig]
          apply ih hrest
          refine ⟨fun σ hσ d hd => ?_, fun d hd => ?_⟩
          · rcases List.mem_append.mp hd with hd | hd
            · exact hnext.1 σ hσ d hd
            · rw [List.mem_singleton.mp hd]
              exact hsound σ (hσ _ hpmem) (hσ _ hnmem)
          · rcases List.mem_append.mp hd with hd | hd
            · exact hnext.2 d hd
            · rw [List.mem_singleton.mp hd]
              refine ⟨hgone, fun k hk => ?_⟩
              rcases hold k hk with hk | hk
              · exact ⟨_, hpmem, hk⟩
              · exact ⟨_, hnmem, hk⟩

theorem eliminate_spec (v : ExprId) (cs : List Linear) : RoundOk v cs (eliminate v cs) := by
  apply combineAll_spec
  · intro q hq
    obtain ⟨p, hp, hq⟩ := List.mem_flatMap.mp hq
    obtain ⟨n, hn, rfl⟩ := List.mem_map.mp hq
    obtain ⟨hpc, hp⟩ := List.mem_filter.mp hp
    obtain ⟨hnc, hn⟩ := List.mem_filter.mp hn
    exact ⟨⟨hpc, by simpa using hp⟩, hnc, by simpa using hn⟩
  · refine ⟨fun σ hσ d hd => hσ d (List.mem_filter.mp hd).1, fun d hd => ?_⟩
    obtain ⟨hdc, hzero⟩ := List.mem_filter.mp hd
    refine ⟨fun hm => coeffOf_ne_zero hm (by simpa using hzero), fun k hk => ⟨d, hdc, hk⟩⟩

def vars (cs : List Linear) : Finset ExprId := (cs.flatMap fun c => c.coeffs.map (·.1)).toFinset

theorem mem_vars {cs : List Linear} {k : ExprId} : k ∈ vars cs ↔ ∃ c ∈ cs, c.Mentions k := by
  simp [vars, Mentions, List.mem_flatMap]

theorem pickVar_mem {cs : List Linear} {v : ExprId} (h : pickVar cs = some v) : v ∈ vars cs :=
  List.mem_toFinset.mpr (List.mem_of_mem_head? (Option.mem_def.mpr h))

/-- **Elimination** ends when the fuel exceeds the number of variables, and refutes only systems
    without an integer solution. -/
theorem feasibleFuel_spec (fuel : Nat) : ∀ {cs : List Linear}, (vars cs).card < fuel →
    ∃ r, feasibleFuel fuel cs = some r ∧ (r = false → ∀ σ, ¬∀ c ∈ cs, c.eval σ ≤ 0) := by
  induction fuel with
  | zero => exact fun h => absurd h (Nat.not_lt_zero _)
  | succ fuel ih =>
    intro cs hcard
    rw [feasibleFuel]
    by_cases hcon : cs.any contradiction = true
    · rw [if_pos hcon]
      obtain ⟨c, hc, hcon⟩ := List.any_eq_true.mp hcon
      refine ⟨false, rfl, fun _ σ hσ => ?_⟩
      have hpos := eval_of_contradiction σ hcon
      have hle := hσ c hc
      linarith
    · rw [if_neg hcon]
      cases hv : pickVar cs with
      | none => exact ⟨true, rfl, fun h => absurd h (by decide)⟩
      | some v =>
        have hround := eliminate_spec v cs
        simp only
        cases he : eliminate v cs with
        | done r =>
          rw [he] at hround
          exact ⟨r, rfl, hround⟩
        | next ds =>
          rw [he] at hround
          -- the variable is gone and no other has come
          have hsub : vars ds ⊆ (vars cs).erase v := by
            intro k hk
            obtain ⟨d, hd, hdk⟩ := mem_vars.mp hk
            obtain ⟨hgone, hold⟩ := hround.2 d hd
            refine Finset.mem_erase.mpr ⟨fun hkv => hgone (hkv ▸ hdk), mem_vars.mpr (hold k hdk)⟩
          have hlt : (vars ds).card < fuel := by
            have hle := Finset.card_le_card hsub
            rw [Finset.card_erase_of_mem (pickVar_mem hv)] at hle
            have hpos := Finset.card_pos.mpr ⟨v, pickVar_mem hv⟩
            omega
          obtain ⟨r, hr, hsound⟩ := ih hlt
          exact ⟨r, hr, fun hf σ hσ => hsound hf σ (hround.1 σ hσ)⟩

theorem feasible_spec (cs : List Linear) :
    ∃ r, feasible cs = some r ∧ (r = false → ∀ σ, ¬∀ c ∈ cs, c.eval σ ≤ 0) :=
  feasibleFuel_spec _ (Nat.lt_succ_of_le (List.toFinset_card_le _))

/-! ## Soundness -/

/-- The procedure returns, and `true` is an entailment between quantities that do not wrap. -/
theorem proveImplies_spec {ctx : ExprCtx} (hctx : ctx.Ok) {assumptions : List ExprId}
    (has : ∀ a ∈ assumptions, a < ctx.len) {goal : ExprId} (hgoal : goal < ctx.len) :
    ∃ r, proveImplies ctx assumptions goal = some r ∧ (r = true →
      ∀ ρ, (∀ a ∈ assumptions, Tame ρ (ctx.expr a)) → Tame ρ (ctx.expr goal) →
        (∀ a ∈ assumptions, (ctx.expr a).eval ρ = 1) → (ctx.expr goal).eval ρ = 1) := by
  unfold proveImplies
  cases hcs : constraintsOf ctx goal false with
  | none => exact ⟨false, rfl, fun h => absurd h (by decide)⟩
  | some cs =>
    obtain ⟨r, hr, hsound⟩ := feasible_spec
      ((assumptions.flatMap fun a => (constraintsOf ctx a true).getD []) ++ cs)
    refine ⟨!r, ?_, fun hrt ρ htame htgoal hρ => ?_⟩
    · simp only [hr]
      rfl
    · by_contra hne
      have hr0 : r = false := by simpa using hrt
      apply hsound hr0 (values ctx ρ)
      intro c hc
      rcases List.mem_append.mp hc with hc | hc
      · obtain ⟨a, ha, hc⟩ := List.mem_flatMap.mp hc
        cases hca : constraintsOf ctx a true with
        | none =>
          rw [hca] at hc
          exact absurd hc List.not_mem_nil
        | some ds =>
          rw [hca] at hc
          exact constraintsFuel_sound hctx ρ _ (has a ha) hca (htame a ha)
            (beq_iff_eq.mpr (hρ a ha)) c hc
      · exact constraintsFuel_sound hctx ρ _ hgoal hcs htgoal (beq_eq_false_iff_ne.mpr hne) c hc

/-- `i < n` and `i + 1 ≤ n`, on bytes. -/
def guardCtx : ExprCtx := ⟨[(.sym "i" 8, 8), (.sym "n" 8, 8), (.cmp .ult 0 1, 1),
  (.const ⟨8, 1, BitVector.pos8, BitVector.le8, BitVector.one_lt8⟩, 8), (.bin .add 0 3, 8), (.cmp .ule 4 1, 1)]⟩

theorem guardCtx_built : guardCtx.Built := by
  have hi : ExprCtx.Built ⟨[(.sym "i" 8, 8)]⟩ := .symbol "i" 8 .empty rfl
  have hn : ExprCtx.Built ⟨[(.sym "i" 8, 8), (.sym "n" 8, 8)]⟩ := .symbol "n" 8 hi rfl
  have hlt : ExprCtx.Built ⟨[(.sym "i" 8, 8), (.sym "n" 8, 8), (.cmp .ult 0 1, 1)]⟩ :=
    .cmp .ult hn (a := 0) (b := 1) (by decide) (by decide) rfl
  have hone : ExprCtx.Built ⟨[(.sym "i" 8, 8), (.sym "n" 8, 8), (.cmp .ult 0 1, 1),
      (.const ⟨8, 1, BitVector.pos8, BitVector.le8, BitVector.one_lt8⟩, 8)]⟩ :=
    .constant ⟨8, 1, BitVector.pos8, BitVector.le8, BitVector.one_lt8⟩ hlt rfl
  have hadd : ExprCtx.Built ⟨[(.sym "i" 8, 8), (.sym "n" 8, 8), (.cmp .ult 0 1, 1),
      (.const ⟨8, 1, BitVector.pos8, BitVector.le8, BitVector.one_lt8⟩, 8), (.bin .add 0 3, 8)]⟩ :=
    .bin .add hone (a := 0) (b := 3) (by decide) (by decide) rfl
  exact .cmp .ule hadd (a := 4) (b := 1) (by decide) (by decide) rfl

end Linear

end Csolver
