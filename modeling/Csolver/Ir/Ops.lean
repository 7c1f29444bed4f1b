import Csolver.Solver.ExprCtx

/-!
# Types and operands of the intermediate representation (`crates/ir/src/ty.rs`, `ops.rs`)

Registers, blocks and functions are named by dense indices. The comparison predicates of the IR and
of the solver are two copies of one enumeration, mapped onto each other by name (`map_cmpop`), so
the solver's `CmpOp` and `BvOp` serve for both.
-/

namespace Csolver

abbrev RegId := Nat

abbrev BlockId := Nat

/-- IR types. -/
inductive Ty where
  | unit
  | bool
  | int (bits : Nat)
  | opq (bytes align : Nat)
  | ptr (pointee : Ty)
  | array (elem : Ty) (len : Nat)
  | struct (fields : List Ty) (packed : Bool)

namespace Ty

def isPtr : Ty → Bool
  | ptr _ => true
  | _ => false

/-- `type_width`: the width of a scalar of this type in the executor. -/
def typeWidth : Ty → Nat
  | bool => 1
  | int bits => bits
  | _ => 64

end Ty

/-- What a memory region is for. -/
inductive RegionKind where
  | stack | heap | global | tls | mmio
  deriving DecidableEq

/-- Constants. -/
inductive Const where
  | int (bv : BitVector)
  | null
  | undef
  | symbol (name : String)
  | symbolOffset (name : String) (off : Int)

/-- An instruction operand. -/
inductive Operand where
  | reg (r : RegId)
  | const (c : Const)

/-- Conversions. -/
inductive CastOp where
  | trunc | zext | sext | ptrToInt | intToPtr | bitcast
  deriving DecidableEq, Repr

/-- The right-hand side of an assignment. -/
inductive RValue where
  | use (op : Operand)
  | bin (op : BvOp) (lhs rhs : Operand)
  | cmp (op : CmpOp) (lhs rhs : Operand)
  | cast (op : CastOp) (operand : Operand)
  | select (cond thenVal elseVal : Operand)

namespace RValue

/-- The operands, in the order they are evaluated. -/
def operands : RValue → List Operand
  | use op => [op]
  | bin _ lhs rhs => [lhs, rhs]
  | cmp _ lhs rhs => [lhs, rhs]
  | cast _ operand => [operand]
  | select c t e => [c, t, e]

/-- The declared widths of the operands that go with a destination of width `w`. -/
def WellTyped (w : Nat) : RValue → List Nat → Prop
  | use _, [v] => v = w
  | bin _ _ _, [u, v] => u = w ∧ v = w
  | cmp _ _ _, [u, v] => w = 1 ∧ u = v
  | cast .trunc _, [v] => w ≤ v
  | cast .zext _, [v] => v ≤ w
  | cast .sext _, [v] => v ≤ w
  | cast .bitcast _, [v] => v = w
  | cast .ptrToInt _, [_] => True
  | cast .intToPtr _, [_] => True
  | select _ _ _, [c, u, v] => c = 1 ∧ u = w ∧ v = w
  | _, _ => False

/-- What the instruction computes, at the declared width `w` of its destination, from the declared
    widths of its operands and their values. -/
def machine (w : Nat) : RValue → List (Nat × Nat) → Nat
  | bin op _ _, [(_, x), (_, y)] => op.eval w x y
  | cmp op _ _, [(v, x), (_, y)] => (op.eval v x y).toNat
  | cast .sext _, [(v, x)] => signExtend v w x
  | select _ _ _, [(_, c), (_, x), (_, y)] => if c = 1 then x % 2 ^ w else y % 2 ^ w
  | use _, [(_, x)] => x % 2 ^ w
  -- the other casts keep the low bits
  | cast _ _, [(_, x)] => x % 2 ^ w
  | _, _ => 0

end RValue

/-- A predicate over operands. -/
inductive Condition where
  | tt
  | cmp (op : CmpOp) (lhs rhs : Operand)
  | and (cs : List Condition)
  | or (cs : List Condition)
  | not (c : Condition)

end Csolver
