import Mathlib.Data.Nat.Bitwise

/-!
# Bit-vector expressions: operators, trees and their meaning (`crates/solver/src/expr.rs`)

`Expr` is what an interned node stands for once its handles are followed: a tree. Its value under a
valuation of the symbols is a natural number below `2 ^ width`, computed with Lean's own `BitVec`
operations, where SMT-LIB fixes what division by zero and oversized shifts mean.

A symbol is identified by its name *and* its width, as the source interns it.
-/

namespace Csolver

/-- Binary bit-vector operators. -/
inductive BvOp where
  | add | sub | mul | udiv | sdiv | urem | srem | and | or | xor | shl | lshr | ashr
  deriving DecidableEq, Repr

/-- Comparison predicates. -/
inductive CmpOp where
  | eq | ne | ult | ule | ugt | uge | slt | sle | sgt | sge
  deriving DecidableEq, Repr

namespace BvOp

/-- The SMT-LIB meaning of an operator at one width. -/
def evalBv {w : Nat} (op : BvOp) (x y : BitVec w) : BitVec w :=
  match op with
  | add => x + y
  | sub => x - y
  | mul => x * y
  | udiv => x.smtUDiv y
  | sdiv => x.smtSDiv y
  | urem => x.umod y
  | srem => x.srem y
  | and => x &&& y
  | or => x ||| y
  | xor => x ^^^ y
  | shl => x <<< y.toNat
  | lshr => x >>> y.toNat
  | ashr => x.sshiftRight y.toNat

def eval (op : BvOp) (w x y : Nat) : Nat :=
  (op.evalBv (BitVec.ofNat w x) (BitVec.ofNat w y)).toNat

theorem eval_lt (op : BvOp) (w x y : Nat) : op.eval w x y < 2 ^ w := BitVec.isLt _

end BvOp

namespace CmpOp

def negate : CmpOp → CmpOp
  | eq => ne
  | ne => eq
  | ult => uge
  | uge => ult
  | ule => ugt
  | ugt => ule
  | slt => sge
  | sge => slt
  | sle => sgt
  | sgt => sle

/-- The operator with its operands exchanged. -/
def swap : CmpOp → CmpOp
  | eq => eq
  | ne => ne
  | ult => ugt
  | ule => uge
  | ugt => ult
  | uge => ule
  | slt => sgt
  | sle => sge
  | sgt => slt
  | sge => sle

def evalBv {w : Nat} (op : CmpOp) (x y : BitVec w) : Bool :=
  match op with
  | eq => x == y
  | ne => x != y
  | ult => x.ult y
  | ule => x.ule y
  | ugt => y.ult x
  | uge => y.ule x
  | slt => x.slt y
  | sle => x.sle y
  | sgt => y.slt x
  | sge => y.sle x

def eval (op : CmpOp) (w x y : Nat) : Bool := op.evalBv (BitVec.ofNat w x) (BitVec.ofNat w y)

end CmpOp

theorem ofNat_mod (w x : Nat) : BitVec.ofNat w (x % 2 ^ w) = BitVec.ofNat w x := by
  apply BitVec.eq_of_toNat_eq
  rw [BitVec.toNat_ofNat, BitVec.toNat_ofNat, Nat.mod_mod]

theorem BvOp.eval_mod (op : BvOp) (w x y : Nat) :
    op.eval w (x % 2 ^ w) (y % 2 ^ w) = op.eval w x y := by
  rw [BvOp.eval, BvOp.eval, ofNat_mod, ofNat_mod]

theorem CmpOp.eval_mod (op : CmpOp) (w x y : Nat) :
    op.eval w (x % 2 ^ w) (y % 2 ^ w) = op.eval w x y := by
  rw [CmpOp.eval, CmpOp.eval, ofNat_mod, ofNat_mod]

/-- An expression with its handles followed. -/
inductive Expr where
  | const (width value : Nat)
  | sym (name : String) (width : Nat)
  | bin (op : BvOp) (a b : Expr)
  | cmp (op : CmpOp) (a b : Expr)
  | bool (b : Bool)
  | not (e : Expr)
  | and (es : List Expr)
  | or (es : List Expr)
  | ite (c t e : Expr)
  | zext (width : Nat) (e : Expr)
  | sext (width : Nat) (e : Expr)

/-- A value for every symbol, by name and width; only its low `width` bits are read. -/
abbrev Valuation := String → Nat → Nat

/-- Sign extension of a value from `w` to `v` bits. -/
def signExtend (w v x : Nat) : Nat := ((BitVec.ofNat w x).signExtend v).toNat

namespace Expr

/-- The bit width; booleans are one bit wide. -/
def width : Expr → Nat
  | const w _ => w
  | sym _ w => w
  | bin _ a _ => a.width
  | ite _ t _ => t.width
  | zext w _ => w
  | sext w _ => w
  | cmp _ _ _ | bool _ | not _ | and _ | or _ => 1

mutual

def eval (ρ : Valuation) : Expr → Nat
  | const w v => v % 2 ^ w
  | sym name w => ρ name w % 2 ^ w
  | bin op a b => op.eval a.width (a.eval ρ) (b.eval ρ)
  | cmp op a b => (op.eval a.width (a.eval ρ) (b.eval ρ)).toNat
  | bool b => b.toNat
  | not e => (e.eval ρ != 1).toNat
  | and es => (evalAll ρ es).toNat
  | or es => (evalAny ρ es).toNat
  | ite c t e => if c.eval ρ = 1 then t.eval ρ else e.eval ρ
  | zext w e => e.eval ρ % 2 ^ w
  | sext w e => signExtend e.width w (e.eval ρ)

def evalAll (ρ : Valuation) : List Expr → Bool
  | [] => true
  | e :: es => (e.eval ρ == 1) && evalAll ρ es

def evalAny (ρ : Valuation) : List Expr → Bool
  | [] => false
  | e :: es => (e.eval ρ == 1) || evalAny ρ es

end

theorem evalAll_eq (ρ : Valuation) (es : List Expr) :
    evalAll ρ es = es.all fun e => e.eval ρ == 1 := by
  induction es with
  | nil => rfl
  | cons e es ih => rw [evalAll, ih, List.all_cons]

theorem evalAny_eq (ρ : Valuation) (es : List Expr) :
    evalAny ρ es = es.any fun e => e.eval ρ == 1 := by
  induction es with
  | nil => rfl
  | cons e es ih => rw [evalAny, ih, List.any_cons]

end Expr

end Csolver
