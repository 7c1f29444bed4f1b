import Csolver.Llvm.Ast
import Csolver.Symbolic.Merge

/-!
# Lowering of `getelementptr` (`crates/llvm/src/lower/gep.rs`, `lower/block.rs`) and its execution

An address is computed by a chain of `PtrOffset` instructions. The first index strides by the size of the
whole type; the other ones walk through it: a struct field and a constant array index are added to a byte
offset that is still to be emitted, and a variable array index emits an instruction of its own. The executor
scales an index by the stride of the element type (`exec/step.rs`).
-/

namespace Csolver

namespace Llvm

/-! ## Field offsets -/

/-- The loop of `struct_field_offset`. -/
def fieldOffsetFrom (packed : Bool) : List Ty → Nat → Nat → Option Nat
  | [], _, _ => none
  | f :: fs, offset, field => do
    let align := if packed then 1 else max (f.alignBytes .lp64) 1
    let start ← (checkedU64 (offset + (align - 1))).map fun v => v / align * align
    match field with
    | 0 => some start
    | field + 1 => do
      let size ← f.sizeBytes .lp64
      let stop ← checkedU64 (start + size)
      fieldOffsetFrom packed fs stop field

def structFieldOffset (s : Ty) (field : Nat) : Option Nat :=
  match s with
  | .struct fields packed => fieldOffsetFrom packed fields 0 field
  | _ => none

/-! ## Chains -/

/-- `u64::saturating_mul`. -/
def saturatingMulU64 (a b : Nat) : Nat := min (a * b) (2 ^ 64 - 1)

def constIdx : LValue → Option Nat
  | .int k => if 0 ≤ k ∧ k < 2 ^ 64 then some k.toNat else none
  | _ => none

def orUnsupported {α : Type} (o : Option α) (msg : String) : LowerM α :=
  match o with
  | some a => pure a
  | none => throw (.unsupported msg)

/-- The pending byte offset is emitted. -/
def flush (cur : RegId) (acc : Nat) : LowerM (List Inst × RegId) :=
  if 0 < acc then do
    let n ← fresh
    pure ([.ptrOffset n (.reg cur) (Ctx.intOperand 64 acc) (.int 8)], n)
  else pure ([], cur)

/-- The loop over the indices after the first one: the instructions, the last register and the pending offset. -/
def gepSteps : Ty → Nat → RegId → List LValue → LowerM (List Inst × RegId × Nat)
  | _, acc, cur, [] => pure ([], cur, acc)
  | .struct fields packed, acc, cur, idx :: rest => do
    let k ← orUnsupported (constIdx idx) "variable struct-field gep index"
    let off ← orUnsupported (structFieldOffset (.struct fields packed) (k % 2 ^ 32))
      "struct-field gep with an unsizable offset"
    let acc ← orUnsupported (checkedU64 (acc + off)) "gep offset overflow"
    let ty ← orUnsupported fields[k]? "struct-field gep index out of range"
    gepSteps ty acc cur rest
  | .array elem _, acc, cur, idx :: rest =>
    match constIdx idx with
    | some k => do
      let sz ← orUnsupported (elem.sizeBytes .lp64) "array gep with an unsizable elem"
      let acc ← orUnsupported (checkedU64 (acc + saturatingMulU64 k sz)) "gep offset overflow"
      gepSteps elem acc cur rest
    | none => do
      let (flushed, cur) ← flush cur acc
      let n ← fresh
      let i ← operandM idx 64
      let (insts, last, acc) ← gepSteps elem 0 n rest
      pure (flushed ++ .ptrOffset n (.reg cur) i elem :: insts, last, acc)
  | _, _, _, _ :: _ => throw (.unsupported "gep navigation into a non-aggregate")

/-- `lower_gep_chain`; there is at least one index. -/
def lowerGepChain (dst : String) (agg : Ty) (base : LValue) (first : LValue) (rest : List LValue) :
    LowerM (List Inst) := do
  let cur ← fresh
  let b ← operandM base 64
  let i ← operandM first 64
  let (insts, cur', acc) ← gepSteps agg 0 cur rest
  let d ← regM dst
  pure (.ptrOffset cur b i agg :: insts ++ [.ptrOffset d (.reg cur') (Ctx.intOperand 64 acc) (.int 8)])

/-- The `GepField` case of `lower_block`. -/
def lowerGepField (dst : String) (structTy : LType) (base index : LValue) (field : Nat) : LowerM (List Inst) := do
  let s := lowerType structTy
  let off ← orUnsupported (structFieldOffset s field) "struct-field gep with an unsizable field offset"
  let tmp ← fresh
  let b ← operandM base 64
  let i ← operandM index 64
  let d ← regM dst
  pure [.ptrOffset tmp b i s, .ptrOffset d (.reg tmp) (Ctx.intOperand 64 off) (.int 8)]

/-- The `Gep` case of `lower_inst`: one index. -/
def lowerGep (dst : String) (elem : LType) (base index : LValue) : LowerM (List Inst) := do
  let d ← regM dst
  let b ← operandM base 64
  let i ← operandM index 64
  pure [.ptrOffset d b i (lowerType elem)]

end Llvm

/-! ## The executor -/

/-- `eval_pointer`: a scalar is a pointer of which nothing is known. -/
def evalPointer (op : Operand) (state : PathState) : ExploreM SymPointer := do
  match ← evalValue op state with
  | .ptr p => return p
  | .scalar _ => return .mk (.unknown .scalarAsPtr none) (.int ptrWidth 0) 1 none

def offsetAlign (align stride : Nat) (index : Expr) : Nat :=
  match index.asConst with
  | some c => Nat.gcd align (((c.signed * stride).bmod (2 ^ 128)).natAbs % 2 ^ 64)
  | none => Nat.gcd align stride

/-- The `PtrOffset` case of `step_inst`: the index is widened to the width of a pointer. -/
def stepPtrOffset (dst : RegId) (base index : Operand) (elem : Ty) (state : PathState) : ExploreM PathState := do
  let stride := max ((elem.strideBytes .lp64).getD 1) 1
  let p ← evalPointer base state
  let i ← evalScalar index state
  let i := i.mkZext ptrWidth
  let delta := Expr.mkBin .mul i (.int ptrWidth stride)
  return state.setReg dst
    (.ptr (.mk p.prov (.mkBin .add p.offset delta) (offsetAlign p.align stride i) p.borrow))

/-- The chain is executed in order; it holds no other instructions. -/
def runChain : List Inst → PathState → ExploreM PathState
  | [], state => return state
  | .ptrOffset dst base index elem :: insts, state => do
    let state ← stepPtrOffset dst base index elem state
    runChain insts state
  | _ :: insts, state => runChain insts state

end Csolver
