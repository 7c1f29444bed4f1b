import Csolver.Absint.IntervalState
import Csolver.Cfg.OfFunc

/-!
# The interval analysis (`crates/absint/src/analysis.rs`, `cond.rs`)

Every register is given an interval at every program point: instructions transfer them, branch edges
refine the operands of the comparison behind the branch, and the worklist solver joins what flows
into a block. A condition is then judged on the intervals alone, and the verifier turns the verdict
into PASS or FAIL.

Which blocks are loop headers only decides where the solver widens, and stays a parameter.
-/

namespace Csolver

open Lib

inductive Trivalent where
  | true
  | false
  | unknown
  deriving DecidableEq

namespace Trivalent

def negate : Trivalent → Trivalent
  | true => false
  | false => true
  | unknown => unknown

end Trivalent

namespace Intervals

/-- The two's-complement reading of a constant, as an `i128`. -/
def signedI128 (bv : BitVector) : I128 where
  val := bv.signed
  lo := by
    have h := BitVec.le_two_mul_toInt (x := BitVec.ofNat bv.width bv.value)
    have hpow : (2 : Int) ^ bv.width ≤ 2 ^ 128 := pow_le_pow_right₀ (by decide) bv.width_le
    rw [BitVector.signed]
    omega
  hi := by
    have h := BitVec.two_mul_toInt_lt (x := BitVec.ofNat bv.width bv.value)
    have hpow : (2 : Int) ^ bv.width ≤ 2 ^ 128 := pow_le_pow_right₀ (by decide) bv.width_le
    rw [BitVector.signed]
    omega

def zero : I128 := ⟨0, I128.zero_lo, I128.zero_hi⟩

def one : I128 := ⟨1, I128.one_lo, I128.one_hi⟩

/-- `eval_operand`: a constant enters with its signed value. -/
def evalOperand (op : Operand) (s : IntervalState) : Interval :=
  match op with
  | .reg r => s.get r
  | .const (.int bv) => .singleton (signedI128 bv)
  | .const .null => .singleton zero
  | .const _ => .top

/-- `eval_rvalue`. Sums, differences and products are those of the integers. -/
def evalRvalue (rv : RValue) (s : IntervalState) : Interval :=
  match rv with
  | .use op => evalOperand op s
  | .bin op lhs rhs =>
    let a := evalOperand lhs s
    let b := evalOperand rhs s
    match op with
    | .add => a.add b
    | .sub => a.sub b
    | .mul => a.mul b
    | _ => .top
  | .cmp _ _ _ => .ofRange zero one
  | .cast .zext operand | .cast .sext operand => evalOperand operand s
  | .cast _ _ => .top
  | .select _ _ _ => .top

def applyInst (s : IntervalState) (i : Inst) : IntervalState :=
  match i with
  | .assign dst _ value => s.set dst (evalRvalue value s)
  | i => match i.definedReg with
    | some d => s.set d .top
    | none => s

/-- `collect_cmps`: the comparison that defines a register, the last of several. -/
def collectCmps (f : Func) (c : RegId) : Option (CmpOp × Operand × Operand) :=
  ((f.blocks.flatMap (·.insts)).filterMap fun i => match i with
    | .assign dst _ (.cmp op lhs rhs) => if dst = c then some (op, lhs, rhs) else none
    | _ => none).getLast?

/-- `collect_copies`: the register that a register is a plain copy of. -/
def collectCopies (f : Func) (r : RegId) : Option RegId :=
  ((f.blocks.flatMap (·.insts)).filterMap fun i => match i with
    | .assign dst _ (.use (.reg src)) => if dst = r then some src else none
    | _ => none).getLast?

/-- `refine_reg`: meet a register with an interval, and so the registers it was copied from. -/
def refineReg (copies : RegId → Option RegId) (iv : Interval) : Nat → IntervalState → RegId → IntervalState
  | 0, s, _ => s
  | fuel + 1, s, r =>
    let s := s.set r ((s.get r).meet iv)
    match copies r with
    | some src => if src ≠ r then refineReg copies iv fuel s src else s
    | none => s

/-- The half-lines that a comparison puts its left and right operand on. -/
def constraints (op : CmpOp) (li ri : Interval) : Option (Interval × Interval) :=
  match op with
  | .slt => some (ri.asUpperConstraint true, li.asLowerConstraint true)
  | .sle => some (ri.asUpperConstraint false, li.asLowerConstraint false)
  | .sgt => some (ri.asLowerConstraint true, li.asUpperConstraint true)
  | .sge => some (ri.asLowerConstraint false, li.asUpperConstraint false)
  | .eq => some (ri, li)
  | _ => none

def refineOperand (copies : RegId → Option RegId) (s : IntervalState) (op : Operand)
    (iv : Interval) : IntervalState :=
  match op with
  | .reg r => refineReg copies iv 64 s r
  | .const _ => s

def refineByCmp (copies : RegId → Option RegId) (s : IntervalState) (op : CmpOp) (lhs rhs : Operand)
    (negate : Bool) : IntervalState :=
  let op := if negate then op.negate else op
  let li := evalOperand lhs s
  let ri := evalOperand rhs s
  match constraints op li ri with
  | some (nl, nr) =>
    let s := refineOperand copies s lhs (li.meet nl)
    refineOperand copies s rhs (ri.meet nr)
  | none => s

def matchingArgs (t : Terminator) (target : BlockId) : List (List Operand) :=
  match t with
  | .br b args => if b = target then [args] else []
  | .condBr _ tb targs eb eargs =>
    (if tb = target then [targs] else []) ++ (if eb = target then [eargs] else [])
  | _ => []

/-- Bind the parameters to the intervals of the arguments, one that is missing to anything. -/
def bindParams (args : List Operand) (src : IntervalState) :
    Nat → List (RegId × Ty) → IntervalState → IntervalState
  | _, [], s => s
  | i, (r, _) :: ps, s =>
    let v := match args[i]? with
      | some op => evalOperand op src
      | none => .top
    bindParams args src (i + 1) ps (s.set r v)

/-- The guard of a conditional branch, on the edge that is unambiguously one of its sides. -/
def refineEdge (f : Func) (t : Terminator) (target : BlockId) (s : IntervalState) : IntervalState :=
  match t with
  | .condBr (.reg c) tb _ eb _ =>
    match collectCmps f c with
    | some (op, lhs, rhs) =>
      if (tb = target) ≠ (eb = target) then
        refineByCmp (collectCopies f) s op lhs rhs (decide (eb = target))
      else s
    | none => s
  | _ => s

/-- The block at a position of the graph. -/
def blockAt (f : Func) (n : Nat) : Option BasicBlock := f.blocks[n]?.bind fun b => f.block b.id

def transferBlock (f : Func) (n : Nat) (s : IntervalState) : IntervalState :=
  if s.isReachable then
    match blockAt f n with
    | some b => b.insts.foldl applyInst s
    | none => s
  else .unreachable

def transferEdge (f : Func) (p n : Nat) (s : IntervalState) : IntervalState :=
  if s.isReachable then
    match blockAt f p, blockAt f n with
    | some b, some tb =>
      let s := refineEdge f b.term tb.id s
      match matchingArgs b.term tb.id with
      | [] => s
      | lists => lists.foldl (fun acc args => acc.join (bindParams args s 0 tb.params s)) .unreachable
    | _, _ => s
  else .unreachable

def problem (f : Func) (headers : List Nat) : Engine.Problem IntervalState :=
  ⟨f.cfg, headers, .top, transferBlock f, transferEdge f⟩

/-- `analyze_intervals`, for a number of iterations. -/
def analyzeIntervals (f : Func) (headers : List Nat) (fuel : Nat) :
    Option (Engine.Solution IntervalState) :=
  Engine.solve (problem f headers) fuel

/-- `compare_intervals`: every predicate is taken for its signed reading. -/
def compareIntervals (op : CmpOp) (a b : Interval) : Trivalent :=
  match a, b with
  | .range alo ahi, .range blo bhi =>
    let eq : Trivalent :=
      if ahi.lt blo || bhi.lt alo then .false
      else if alo = ahi ∧ blo = bhi ∧ alo = blo then .true
      else .unknown
    match op with
    | .ult | .slt => if ahi.lt blo then .true else if bhi.le alo then .false else .unknown
    | .ule | .sle => if ahi.le blo then .true else if bhi.lt alo then .false else .unknown
    | .ugt | .sgt => if bhi.lt alo then .true else if ahi.le blo then .false else .unknown
    | .uge | .sge => if bhi.le alo then .true else if ahi.lt blo then .false else .unknown
    | .eq => eq
    | .ne => eq.negate
  | _, _ => .unknown

mutual

def evalConditionIn (s : IntervalState) : Condition → Trivalent
  | .tt => .true
  | .cmp op lhs rhs => compareIntervals op (evalOperand lhs s) (evalOperand rhs s)
  | .and cs => evalAll s true cs
  | .or cs => evalAny s true cs
  | .not c => (evalConditionIn s c).negate

def evalAll (s : IntervalState) (allTrue : Bool) : List Condition → Trivalent
  | [] => if allTrue then .true else .unknown
  | c :: cs =>
    match evalConditionIn s c with
    | .false => .false
    | .unknown => evalAll s false cs
    | .true => evalAll s allTrue cs

def evalAny (s : IntervalState) (allFalse : Bool) : List Condition → Trivalent
  | [] => if allFalse then .false else .unknown
  | c :: cs =>
    match evalConditionIn s c with
    | .true => .true
    | .unknown => evalAny s false cs
    | .false => evalAny s allFalse cs

end

/-- The state before instruction `index` of a block. -/
def stateAt (f : Func) (sol : Engine.Solution IntervalState) (block : BlockId) (n index : Nat) :
    IntervalState :=
  match f.block block with
  | some b => (b.insts.take index).foldl applyInst (sol.inStates n)
  | none => sol.inStates n

/-- `eval_condition`: the verdict on a condition before instruction `index` of a block. -/
def evalCondition (f : Func) (sol : Engine.Solution IntervalState) (block : BlockId) (index : Nat)
    (cond : Condition) : Trivalent :=
  match f.indexOf block with
  | some n =>
    if (sol.inStates n).isReachable then evalConditionIn (stateAt f sol block n index) cond
    else .true
  | none => .unknown

end Intervals

end Csolver
