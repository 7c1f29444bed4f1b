import Csolver.Symbolic.Value

/-!
# Evaluating operands and comparing pointers (`exec/eval.rs`)
-/

namespace Csolver

/-- A pointer into a region that a merge dropped becomes opaque when it is read. -/
def sanitize (rcount : Nat) : SymValue → SymValue
  | .ptr (.mk (.region rid) o a b) =>
    if rcount ≤ rid then .ptr (.mk (.unknown .regionDrop none) o a b)
    else .ptr (.mk (.region rid) o a b)
  | v => v

def evalValue (op : Operand) (state : PathState) : ExploreM SymValue := fun ex =>
  match op with
  | .reg r =>
    match state.env r with
    | some v => (sanitize state.regions.length v, ex)
    | none =>
      let (e, ex) := freshScalar ptrWidth ex
      (.scalar e, ex)
  | .const (.int bv) => (.scalar (.const bv.width bv.value), ex)
  | .const .null => (.ptr (.mk .null (.int ptrWidth 0) 1 none), ex)
  | .const .undef =>
    let (e, ex) := freshScalar ptrWidth ex
    (.scalar e, ex)
  | .const (.symbol name) =>
    match ex.globalRids name with
    | some (rid, align) => (.ptr (.mk (.region rid) (.int ptrWidth 0) align none), ex)
    | none => (.scalar (.sym ("@" ++ name) ptrWidth), ex)
  | .const (.symbolOffset name off) =>
    match ex.globalRids name with
    | some (rid, align) =>
      let offset :=
        if 0 ≤ off then Expr.int ptrWidth off.toNat
        else Expr.mkBin .sub (.int ptrWidth 0) (.int ptrWidth (-off).toNat)
      let a := if 0 ≤ off ∧ off.toNat % align = 0 then align else 1
      (.ptr (.mk (.region rid) offset a none), ex)
    | none =>
      let (e, ex) := freshScalar ptrWidth ex
      (.scalar e, ex)

/-- A value as a scalar: a null pointer is `0`, an identified opaque pointer is the symbol of its
    identity, and any other pointer a fresh unknown. -/
def scalarize (v : SymValue) : ExploreM Expr := fun ex =>
  match v with
  | .scalar e => (e, ex)
  | .ptr (.mk .null _ _ _) => (.int ptrWidth 0, ex)
  | .ptr (.mk (.unknown _ (some i)) _ _ _) => (.sym ("ptr#" ++ toString i) ptrWidth, ex)
  | .ptr _ => freshScalar ptrWidth ex

def evalScalar (op : Operand) (state : PathState) : ExploreM Expr := do
  let v ← evalValue op state
  scalarize v

/-- The comparison of two values: by offset within one region, else by their scalars. -/
def cmpValues (op : CmpOp) (lv rv : SymValue) : ExploreM Expr :=
  let byScalar : ExploreM Expr := do
    let a ← scalarize lv
    let b ← scalarize rv
    return .mkCmp op a b
  match lv, rv with
  | .ptr (.mk (.region ra) oa _ _), .ptr (.mk (.region rb) ob _ _) =>
    if ra = rb then return .mkCmp op oa ob else byScalar
  | _, _ => byScalar

def evalPtrAwareCmp (op : CmpOp) (lhs rhs : Operand) (state : PathState) : ExploreM Expr := do
  let lv ← evalValue lhs state
  let rv ← evalValue rhs state
  cmpValues op lv rv

end Csolver
