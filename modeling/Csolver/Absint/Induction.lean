import Csolver.Absint.Analysis
import Csolver.Cfg.Loops

/-!
# Equality-exit inductions (`crates/absint/src/induction.rs`)

The recogniser finds, for a loop whose header leaves on an equality with a bound, the header parameter that
a single back edge passes on increased by a constant. It proposes a fact and proves none.
-/

namespace Csolver

open Lib

structure EqExitIndVar where
  reg : RegId
  bound : Operand
  stride : Int

/-- `PtrIndVar`; with `bottomTest` the header tests the stepped pointer. -/
structure PtrIndVar where
  reg : RegId
  endPtr : Operand
  elem : Ty
  strideElems : Int
  bottomTest : Bool

structure ExitShape where
  reg : RegId
  bound : Operand
  latch : Nat
  pos : Nat

namespace Induction

open Intervals (blockAt)

def isReg (r : RegId) : Operand → Bool
  | .reg q => q == r
  | .const _ => false

def findCmp (b : BasicBlock) (c : RegId) : Option (CmpOp × Operand × Operand) :=
  b.insts.findSome? fun
    | .assign dst _ (.cmp op lhs rhs) => if dst = c then some (op, lhs, rhs) else none
    | _ => none

/-- An operand that is a parameter of the header. -/
def paramOf (header : BasicBlock) : Operand → Option RegId
  | .reg r => if header.params.any (fun p => p.1 == r) then some r else none
  | .const _ => none

def inductionAndBound (header : BasicBlock) (lhs rhs : Operand) : Option (RegId × Operand) :=
  match paramOf header lhs with
  | some a => some (a, rhs)
  | none => (paramOf header rhs).map fun b => (b, lhs)

/-- The blocks of the body, in order. -/
def bodyBlocks (f : Func) (l : Loop) : List Nat := (List.range f.blocks.length).filter fun n => n ∈ l.body

/-- `defined_in_loop`. The registers that an inline assembly defines are not among the `defined_reg`s. -/
def definedInLoop (f : Func) (l : Loop) (r : RegId) : Bool :=
  (bodyBlocks f l).any fun n => (blockAt f n).any fun b =>
    b.params.any (fun p => p.1 == r) || b.insts.any fun i => i.definedReg == some r

/-- Whether the bound may change in the loop. -/
def boundChanges (f : Func) (l : Loop) : Operand → Bool
  | .reg r => definedInLoop f l r
  | .const _ => false

/-- The first instruction in the blocks that defines a register. -/
def firstDef (f : Func) (nv : RegId) : List Nat → Option Inst
  | [] => none
  | n :: ns => do
    let b ← blockAt f n
    match b.insts.find? fun i => i.definedReg == some nv with
    | some i => some i
    | none => firstDef f nv ns

/-- The negation of an `i128`, which has no opposite for its least value. -/
def negI128 (c : Int) : Int := if c = -2 ^ 127 then c else -c

/-- The constant step from `base`. -/
def stepOf (base : RegId) : Inst → Option Int
  | .assign _ _ (.bin .add (.reg a) (.const (.int bv))) => if a = base then some bv.signed else none
  | .assign _ _ (.bin .sub (.reg a) (.const (.int bv))) => if a = base then some (negI128 bv.signed) else none
  | _ => none

/-- The constant element step from `base`. -/
def ptrStepOf (base : RegId) : Inst → Option (Int × Ty)
  | .ptrOffset _ (.reg b) (.const (.int k)) elem => if b = base then some (k.signed, elem) else none
  | _ => none

def selfIncrement (f : Func) (l : Loop) (nv base : RegId) : Option Int :=
  (firstDef f nv (bodyBlocks f l)).bind (stepOf base)

def selfIncrementPtr (f : Func) (l : Loop) (nv base : RegId) : Option (Int × Ty) :=
  (firstDef f nv (bodyBlocks f l)).bind (ptrStepOf base)

def edgeArg (b : BasicBlock) (toBlk : BlockId) (pos : Nat) : Option Operand :=
  match b.term with
  | .br target args => if target = toBlk then args[pos]? else none
  | .condBr _ t targs e eargs => if t = toBlk then targs[pos]? else if e = toBlk then eargs[pos]? else none
  | _ => none

def singleLatch (l : Loop) : Option Nat :=
  match l.latches with
  | [latch] => some latch
  | _ => none

def inLoop (f : Func) (l : Loop) (id : BlockId) : Bool := (f.indexOf id).any fun n => n ∈ l.body

/-- The header's comparison, where exactly one of its successors stays in the loop and that is the one for
    different operands. -/
def exitTest (f : Func) (l : Loop) (header : BasicBlock) : Option (Operand × Operand) :=
  match header.term with
  | .condBr (.reg c) thenBlk _ elseBlk _ => do
    let (op, lhs, rhs) ← findCmp header c
    let thenIn := inLoop f l thenBlk
    if thenIn = inLoop f l elseBlk then none
    else
      match op with
      | .ne => if thenIn then some (lhs, rhs) else none
      | .eq => if thenIn then none else some (lhs, rhs)
      | _ => none
  | _ => none

def exitShape (f : Func) (l : Loop) : Option ExitShape := do
  let latch ← singleLatch l
  let header ← blockAt f l.header
  let (lhs, rhs) ← exitTest f l header
  let (reg, bound) ← inductionAndBound header lhs rhs
  if boundChanges f l bound then none
  else
    let pos ← header.params.findIdx? fun p => p.1 == reg
    pure { reg, bound, latch, pos }

/-- The register that the latch passes to the header's parameter. -/
def latchArg (f : Func) (l : Loop) (latch pos : Nat) : Option RegId := do
  let b ← blockAt f latch
  let header ← f.blocks[l.header]?
  match ← edgeArg b header.id pos with
  | .reg nv => pure nv
  | .const _ => none

def backEdgeNext (f : Func) (l : Loop) (s : ExitShape) : Option RegId := latchArg f l s.latch s.pos

def recognizeInt (f : Func) (l : Loop) : Option EqExitIndVar := do
  let s ← exitShape f l
  let nv ← backEdgeNext f l s
  let stride ← selfIncrement f l nv s.reg
  if stride ≤ 0 then none else pure { reg := s.reg, bound := s.bound, stride }

def recognizePtr (f : Func) (l : Loop) : Option PtrIndVar := do
  let s ← exitShape f l
  let nv ← backEdgeNext f l s
  let (strideElems, elem) ← selfIncrementPtr f l nv s.reg
  if strideElems ≤ 0 then none
  else pure { reg := s.reg, endPtr := s.bound, elem, strideElems, bottomTest := false }

/-- The side of the comparison that the stepped pointer is compared with. -/
def endOf (next : RegId) (lhs rhs : Operand) : Option Operand :=
  if isReg next lhs then some rhs else if isReg next rhs then some lhs else none

/-- One parameter of the header, in the form that tests the stepped pointer. -/
def bottomParam (f : Func) (l : Loop) (latch : Nat) (lhs rhs : Operand) (pos : Nat) (iter : RegId) (ty : Ty) :
    Option PtrIndVar :=
  if ty.isPtr then do
    let next ← latchArg f l latch pos
    let (strideElems, elem) ← selfIncrementPtr f l next iter
    if strideElems ≤ 0 then none
    else
      let endPtr ← endOf next lhs rhs
      if boundChanges f l endPtr then none
      else pure { reg := iter, endPtr, elem, strideElems, bottomTest := true }
  else none

def recognizePtrBottom (f : Func) (l : Loop) : Option PtrIndVar := do
  let latch ← singleLatch l
  let header ← blockAt f l.header
  let (lhs, rhs) ← exitTest f l header
  header.params.zipIdx.findSome? fun p => bottomParam f l latch lhs rhs p.2 p.1.1 p.1.2

end Induction

def Func.loops (f : Func) : Option (List Loop) := do
  let doms ← Dominators.new f.cfg
  Loops.detect f.cfg doms

namespace Induction

/-- What is recognised of one loop. -/
inductive IndVar where
  | int (v : EqExitIndVar)
  | ptr (v : PtrIndVar)

end Induction

end Csolver
