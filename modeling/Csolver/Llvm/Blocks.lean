import Csolver.Llvm.Ast

/-!
# Labels, phis and terminators (`parser/func.rs`, `lower.rs`, `lower/block.rs`)

A block without a label gets one from the parser: the entry the number of the parameters, any other one a name of
its own. Labels are the keys of the blocks and of the predecessors that a phi lists. The phis of a block become
its parameters, and every branch passes the values that they list for it; a switch passes none.

The instructions of a block are what they compute from the named values and the memory; how each one is lowered
is not the subject here.
-/

namespace Csolver

namespace Llvm

structure LPhi where
  dst : String
  ty : LType
  incomings : List (LValue × String)

/-- `LTerm`. The call of an `invoke` or a `callbr` is the last instruction of the block. -/
inductive LTerm where
  | ret (v : Option LValue)
  | br (target : String)
  | condBr (cond : LValue) (t f : String)
  | switch (value : LValue) (width : Nat) (default : String) (cases : List (Int × String))
  | invoke (ok cleanup : String)
  | callBr (target : String) (others : List String)
  | unreachable

/-- The blocks that a terminator names. -/
def LTerm.targets : LTerm → List String
  | .ret _ | .unreachable => []
  | .br target => [target]
  | .condBr _ t f => [t, f]
  | .switch _ _ default cases => default :: cases.map (·.2)
  | .invoke ok cleanup => [ok, cleanup]
  | .callBr target others => target :: others

/-- An instruction: the name that it defines, and what it computes from the values of the names. -/
structure LInst (V W : Type) where
  dst : Option String
  effect : (String → V) → W → V × W

/-- A block in the text, with or without a label. LLVM numbers some of its results. -/
structure RawBlock (V W : Type) where
  label : Option String
  phis : List LPhi
  insts : List (LInst V W)
  term : LTerm
  numbered : Nat

/-- A function in the text; a parameter without a name has the empty one. -/
structure RawFunc (V W : Type) where
  params : List String
  blocks : List (RawBlock V W)

structure LBlock (V W : Type) where
  label : String
  phis : List LPhi
  insts : List (LInst V W)
  term : LTerm

section

variable {V W : Type}

/-! ## The parser -/

/-- The label of a block that has none, and is not the entry. -/
def autoLabel (auto : Nat) : String := "__bb" ++ toString auto

def RawBlock.toLBlock (b : RawBlock V W) (label : String) : LBlock V W := ⟨label, b.phis, b.insts, b.term⟩

/-- The blocks after the entry, with the number of labels that were made up. -/
def labelRest : Nat → List (RawBlock V W) → List (LBlock V W)
  | _, [] => []
  | auto, b :: bs =>
    match b.label with
    | some l => b.toLBlock l :: labelRest auto bs
    | none => b.toLBlock (autoLabel auto) :: labelRest (auto + 1) bs

/-- `Parser::blocks`: an entry without a label gets the number of the parameters. -/
def labelBlocks (paramCount : Nat) : List (RawBlock V W) → List (LBlock V W)
  | [] => []
  | b :: bs => b.toLBlock (b.label.getD (toString paramCount)) :: labelRest 0 bs

def RawFunc.parsed (f : RawFunc V W) : List (LBlock V W) := labelBlocks f.params.length f.blocks

/-! ## Registers and blocks -/

def Ctx.define (ctx : Ctx) (name : String) : Ctx :=
  if name = "" then { ctx with nextReg := ctx.nextReg + 1 }
  else match ctx.regs name with
    | some _ => ctx
    | none => ⟨fun x => if x = name then some ctx.nextReg else ctx.regs x, ctx.nextReg + 1⟩

def LBlock.names (b : LBlock V W) : List String := b.phis.map (·.dst) ++ b.insts.filterMap (·.dst)

/-- The pre-pass of `lower_function`: every defined name gets a register. -/
def ctxOf (params : List String) (blocks : List (LBlock V W)) : Ctx :=
  (params ++ blocks.flatMap (·.names)).foldl Ctx.define ⟨fun _ => none, 0⟩

/-- The block ids of the labels: a later block takes the label of an earlier one. -/
def blockIds (blocks : List (LBlock V W)) : String → Option BlockId :=
  blocks.zipIdx.foldl (fun ids b l => if l = b.1.label then some b.2 else ids l) fun _ => none

/-- `block`. -/
def blockId (blocks : List (LBlock V W)) (label : String) : Except LowerError BlockId :=
  match blockIds blocks label with
  | some id => .ok id
  | none => .error (.parse ("branch to unknown block %" ++ label))

/-! ## Terminators -/

def typeWidth : LType → Nat
  | .int bits => bits
  | _ => 64

/-- The value that a phi lists for a predecessor. -/
def LPhi.incoming (phi : LPhi) (pred : String) : Option LValue := (phi.incomings.find? (·.2 = pred)).map (·.1)

/-- The arguments for the phis of a block. -/
def phiArgs (ctx : Ctx) (src : String) : List LPhi → Except LowerError (List Operand)
  | [] => .ok []
  | phi :: phis =>
    match phi.incoming src with
    | some v => do
      let op ← ctx.operand v (typeWidth phi.ty)
      let ops ← phiArgs ctx src phis
      return op :: ops
    | none => .error (.parse ("phi %" ++ phi.dst ++ " has no incoming value for predecessor %" ++ src))

def branchArgs (blocks : List (LBlock V W)) (ctx : Ctx) (src target : String) : Except LowerError (List Operand) :=
  match blocks.find? (·.label = target) with
  | some b => phiArgs ctx src b.phis
  | none => .error (.parse ("unknown block %" ++ target))

/-- A case constant. The width is one that a bit vector can have. -/
def caseConst (width : Nat) (n : Int) : Except LowerError BitVector :=
  match BitVector.new width (n % 2 ^ 128).toNat with
  | some bv => .ok bv
  | none => .error (.unsupported "bit-vector width")

def lowerCases (blocks : List (LBlock V W)) (width : Nat) :
    List (Int × String) → Except LowerError (List (BitVector × BlockId))
  | [] => .ok []
  | (n, dest) :: cases => do
    let bv ← caseConst width n
    let id ← blockId blocks dest
    let rest ← lowerCases blocks width cases
    return (bv, id) :: rest

/-- `lower_term`, and the two terminators that `lower_block` handles itself. -/
def lowerTerm (blocks : List (LBlock V W)) (src : String) (ctx : Ctx) : LTerm → Except LowerError (Terminator × Ctx)
  | .ret none => .ok (.ret none, ctx)
  | .ret (some v) => do return (.ret (some (← ctx.operand v 64)), ctx)
  | .br target => do return (.br (← blockId blocks target) (← branchArgs blocks ctx src target), ctx)
  | .condBr cond t f => do
    let c ← ctx.operand cond 1
    let tb ← blockId blocks t
    let ta ← branchArgs blocks ctx src t
    let fb ← blockId blocks f
    let fa ← branchArgs blocks ctx src f
    return (.condBr c tb ta fb fa, ctx)
  | .switch value width default cases => do
    let w := min (max width 1) 128
    let cs ← lowerCases blocks w cases
    let v ← ctx.operand value w
    let d ← blockId blocks default
    return (.switch v cs d, ctx)
  -- both successors, on a register that nothing defines
  | .invoke ok cleanup => do
    let ta ← branchArgs blocks ctx src ok
    let fa ← branchArgs blocks ctx src cleanup
    let tb ← blockId blocks ok
    let fb ← blockId blocks cleanup
    return (.condBr (.reg ctx.nextReg) tb ta fb fa, { ctx with nextReg := ctx.nextReg + 1 })
  | .callBr target others => do
    let d ← blockId blocks target
    let cs ← lowerCases blocks 64 (others.zipIdx.map fun t => ((t.2 : Int), t.1))
    return (.switch (.reg ctx.nextReg) cs d, { ctx with nextReg := ctx.nextReg + 1 })
  | .unreachable => .ok (.unreachable, ctx)

/-! ## Blocks -/

/-- A lowered instruction reads the registers of the names. -/
structure MInst (V W : Type) where
  dst : Option RegId
  effect : (RegId → V) → W → V × W

/-- `BasicBlock`. -/
structure MBlock (V W : Type) where
  params : List (RegId × Ty)
  insts : List (MInst V W)
  term : Terminator

/-- The values of the names, with the default for a name that has no register. -/
def Ctx.pull [Inhabited V] (ctx : Ctx) (regs : RegId → V) (name : String) : V :=
  match ctx.regs name with
  | some r => regs r
  | none => default

def lowerInst [Inhabited V] (ctx : Ctx) (i : LInst V W) : Except LowerError (MInst V W) :=
  match i.dst with
  | some name => (ctx.reg name).map fun r => ⟨some r, fun regs => i.effect (ctx.pull regs)⟩
  | none => .ok ⟨none, fun regs => i.effect (ctx.pull regs)⟩

def lowerInsts [Inhabited V] (ctx : Ctx) : List (LInst V W) → Except LowerError (List (MInst V W))
  | [] => .ok []
  | i :: is => do
    let m ← lowerInst ctx i
    let ms ← lowerInsts ctx is
    return m :: ms

def lowerPhis (ctx : Ctx) : List LPhi → Except LowerError (List (RegId × Ty))
  | [] => .ok []
  | phi :: phis => do
    let r ← ctx.reg phi.dst
    let ps ← lowerPhis ctx phis
    return (r, lowerType phi.ty) :: ps

def lowerBlock [Inhabited V] (blocks : List (LBlock V W)) (b : LBlock V W) (ctx : Ctx) :
    Except LowerError (MBlock V W × Ctx) := do
  let ps ← lowerPhis ctx b.phis
  let is ← lowerInsts ctx b.insts
  let (term, ctx) ← lowerTerm blocks b.label ctx b.term
  return (⟨ps, is, term⟩, ctx)

def lowerBlocks [Inhabited V] (blocks : List (LBlock V W)) : List (LBlock V W) → Ctx → Except LowerError (List (MBlock V W))
  | [], _ => .ok []
  | b :: bs, ctx => do
    let (m, ctx) ← lowerBlock blocks b ctx
    let ms ← lowerBlocks blocks bs ctx
    return m :: ms

/-- `lower_function`. -/
def RawFunc.lower [Inhabited V] (f : RawFunc V W) : Except LowerError (List (MBlock V W)) :=
  lowerBlocks f.parsed f.parsed (ctxOf f.params f.parsed)

end

end Llvm

end Csolver
