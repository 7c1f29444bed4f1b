import Csolver.Solver.ExprCtx
import Csolver.Solver.Wires

/-!
# The encoder (`crates/solver/src/blaster.rs`)

`encode` lowers the expression behind a handle into the shared CNF, memoising by handle. It runs in
`BlastM`, where the `?` of the source is failure *with* the state reached so far: an unsupported
sub-term leaves the clauses and the memo entries of what was encoded before it. Handles point
backwards, so one unit of fuel more than the handle is enough.
-/

namespace Csolver.Sat

open Csolver.Lib Cnf

def maxWidth : Nat := 128

structure Blaster where
  cnf : Cnf
  memo : ExprId → Option (List Lit)
  syms : List (String × Nat × List Lit)

abbrev BlastM := OptionT (StateM Blaster)

namespace Blaster

def new : Blaster := ⟨Cnf.empty, fun _ => none, []⟩

def gate {α : Type} (x : CnfM α) : BlastM α :=
  OptionT.mk fun b => (some (x b.cnf).1, { b with cnf := (x b.cnf).2 })

def constBits (v w : Nat) : CnfM (List Lit) :=
  (List.range w).mapM fun i => if v.testBit i then Cnf.litTrue else litFalse

/-- `w` fresh variables, recorded as the bits of a symbol. -/
def symBits (name : String) (w : Nat) : BlastM (List Lit) := do
  let bits ← gate ((List.range w).mapM fun _ => newVar)
  modify fun b => { b with syms := b.syms ++ [(name, w, bits)] }
  return bits

/-- A shift by a constant amount, clamped to the width. -/
def shiftConst (op : BvOp) (a : List Lit) (k w : Nat) : CnfM (List Lit) := do
  let zero ← litFalse
  return shiftWires op zero (if op = .ashr then signBit a else zero) (min k w) a

def encodeBin (ctx : ExprCtx) (op : BvOp) (a b : List Lit) (bId : ExprId) : CnfM (List Lit) :=
  match op with
  | .add => Cnf.add a b
  | .sub => Cnf.sub a b
  | .mul => Cnf.mul a b
  | .and | .or | .xor => bitwise op a b
  | .shl | .lshr | .ashr =>
    match ctx.asConst bId with
    | some k => shiftConst op a k.value a.length
    | none => shiftVar op a b
  | .udiv => do return (← udivrem a b).1
  | .urem => do return (← udivrem a b).2
  | .sdiv => do return (← sdivrem a b).1
  | .srem => do return (← sdivrem a b).2

/-- Encode boolean operands, each of which must be one bit wide. -/
def encodeBools (rec : ExprId → BlastM (List Lit)) : List ExprId → BlastM (List Lit)
  | [] => return []
  | x :: xs => do
    let xv ← rec x
    match xv with
    | [l] => return l :: (← encodeBools rec xs)
    | _ => failure

/-- One node, given the encoder for its children. -/
def encodeNode (ctx : ExprCtx) (rec : ExprId → BlastM (List Lit)) (w : Nat) :
    Node → BlastM (List Lit)
  | .const bv => gate (constBits bv.value w)
  | .sym name _ => symBits name w
  | .bool b => do return [← gate (if b then Cnf.litTrue else litFalse)]
  | .bin op a b => do
    let av ← rec a
    let bv ← rec b
    if av.length ≠ bv.length then failure else gate (encodeBin ctx op av bv b)
  | .cmp op a b => do
    let av ← rec a
    let bv ← rec b
    if av.length ≠ bv.length then failure else return [← gate (compare op av bv)]
  | .not x => do
    let xv ← rec x
    match xv with
    | [l] => return [l.negated]
    | _ => failure
  | .and xs => do return [← gate (bigAnd (← encodeBools rec xs))]
  | .or xs => do return [← gate (bigOr (← encodeBools rec xs))]
  | .ite c t e => do
    let cv ← rec c
    match cv with
    | [l] =>
      let tv ← rec t
      let ev ← rec e
      if tv.length ≠ ev.length then failure else gate (muxVec l tv ev)
    | _ => failure
  | .zext x => do
    let bits ← rec x
    gate do
      let pad ← (List.range (w - bits.length)).mapM fun _ => litFalse
      return bits ++ pad
  | .sext x => do
    let bits ← rec x
    if bits.length = 0 then failure
    else return bits ++ List.replicate (w - bits.length) (signBit bits)

def encodeFuel (ctx : ExprCtx) : Nat → ExprId → BlastM (List Lit)
  | 0, _ => failure
  | fuel + 1, id => do
    match (← get).memo id with
    | some bits => return bits
    | none =>
      let w := ctx.width id
      if w = 0 ∨ maxWidth < w then failure
      else
        let bits ← encodeNode ctx (encodeFuel ctx fuel) w (ctx.node id)
        modify fun b => { b with memo := Function.update b.memo id (some bits) }
        return bits

def encode (ctx : ExprCtx) (id : ExprId) : BlastM (List Lit) := encodeFuel ctx (id + 1) id

end Blaster

end Csolver.Sat
