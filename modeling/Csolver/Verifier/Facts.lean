import Csolver.Lib.Shards
import Csolver.Verifier.Fields

/-!
# Facts about a program, module by module (`SummaryFacts`, `ScalarFacts`, `ContractFacts`, `FieldFacts`)

Each builder takes what it needs of a module and drops the module; the ids are assigned in the order of
the pushes. A builder of later modules is merged by moving its ids behind the others. The hash maps and
sets of a builder are functions and finite sets here, so that the order of their entries does not show.

What the passes compute of one function on its own is a parameter (`Analyses`).
-/

namespace Csolver

open Lib

namespace Facts

/-- The analyses of a single function: its own effects, which parameter a register is, the call whose
    result it returns, and its intervals. -/
structure Analyses (S : Type) where
  summarizeFn : Func → S
  ptrParamOf : Func → Map RegId Nat
  returnedCallIndex : Func → Option Nat
  analyzeIntervals : Func → Engine.Solution IntervalState

/-- `local.get(&id)`: the global id of a function of the module that is pushed at `base`. -/
def localId (m : Module) (base : Nat) (id : FuncId) : Option FuncId :=
  (m.functions.findIdx? fun f => decide (f.1 = id)).map (base + ·)

/-- The functions of a module under their global ids. -/
def numbered (m : Module) (base : Nat) : List ((FuncId × Func) × FuncId) := m.functions.zipIdx base

/-- The loop that enters the external names, the first definition winning. -/
def pushNames (m : Module) (base : Nat) (names : Map String FuncId) : Map String FuncId :=
  ((numbered m base).filter fun f => decide (f.1.1 ∉ m.internal)).foldl
    (fun names f => names.orInsert f.1.2.name f.2) names

def mergeNames (off : Nat) (names other : Map String FuncId) : Map String FuncId :=
  names.orElse fun name => (other name).map (off + ·)

/-! ## Summaries -/

/-- A callee before names are resolved. -/
inductive CalleeRef where
  | id (g : FuncId)
  | name (n : String)
  | indirect
  deriving DecidableEq

def CalleeRef.shift (off : Nat) : CalleeRef → CalleeRef
  | id g => id (off + g)
  | name n => name n
  | indirect => indirect

structure SummaryFacts (S : Type) where
  next : Nat
  nameToId : Map String FuncId
  base : List S
  paramOf : List (Map RegId Nat)
  calls : List (List (CalleeRef × List Operand))
  retCall : List (Option Nat)

def callRef (m : Module) (base : Nat) : Inst → Option (CalleeRef × List Operand)
  | .call _ (.direct old) args => some ((localId m base old).elim .indirect .id, args)
  | .call _ (.symbol n) args => some (.name n, args)
  | .call _ (.indirect _) args => some (.indirect, args)
  | _ => none

def diverges : Terminator → Bool
  | .unreachable => true
  | _ => false

/-- The calls that a caller can see, those of diverging blocks left out. -/
def observableCalls (m : Module) (base : Nat) (f : Func) : List (CalleeRef × List Operand) :=
  (f.blocks.filter fun b => !diverges b.term).flatMap fun b => b.insts.filterMap (callRef m base)

namespace SummaryFacts

variable {S : Type}

def empty : SummaryFacts S := ⟨0, fun _ => none, [], [], [], []⟩

def push (A : Analyses S) (s : SummaryFacts S) (m : Module) : SummaryFacts S where
  next := s.next + m.functions.length
  nameToId := pushNames m s.next s.nameToId
  base := s.base ++ m.functions.map fun f => A.summarizeFn f.2
  paramOf := s.paramOf ++ m.functions.map fun f => A.ptrParamOf f.2
  calls := s.calls ++ m.functions.map fun f => observableCalls m s.next f.2
  retCall := s.retCall ++ m.functions.map fun f => A.returnedCallIndex f.2

def merge (s t : SummaryFacts S) : SummaryFacts S where
  next := s.next + t.next
  nameToId := mergeNames s.next s.nameToId t.nameToId
  base := s.base ++ t.base
  paramOf := s.paramOf ++ t.paramOf
  calls := s.calls ++ t.calls.map (List.map fun c => (c.1.shift s.next, c.2))
  retCall := s.retCall ++ t.retCall

end SummaryFacts

/-! ## Scalar preconditions -/

/-- A callee before names are resolved, where indirect calls do not count. -/
inductive ContractCallee where
  | id (g : FuncId)
  | name (n : String)
  deriving DecidableEq

abbrev ScalarCallee := ContractCallee

def ContractCallee.shift (off : Nat) : ContractCallee → ContractCallee
  | id g => id (off + g)
  | name n => name n

/-- The callee of a call, none where the loops skip it. -/
def contractCallee (m : Module) (base : Nat) : Callee → Option ContractCallee
  | .direct old => (localId m base old).map .id
  | .symbol n => some (.name n)
  | .indirect _ => none

/-- `address_taken_names`, as a set. -/
def escapedNames (m : Module) : Finset String := (Scalars.addressTakenNames m).toFinset

structure ScalarCall where
  callee : ScalarCallee
  argIntervals : List (Option Scalars.Range)

structure ScalarFacts where
  next : Nat
  nameToId : Map String FuncId
  escaped : Finset String
  internal : List Bool
  name : List String
  intParams : List (List Nat)
  paramCount : List Nat
  sites : List (List ScalarCall)

/-- The positions of the parameters that a test picks. -/
def paramsThat (test : Ty → Bool) (f : Func) : List Nat :=
  f.params.zipIdx.filterMap fun p => if test p.1.2 then some p.2 else none

def isInt : Ty → Bool
  | .int _ => true
  | _ => false

namespace ScalarFacts

def empty : ScalarFacts := ⟨0, fun _ => none, ∅, [], [], [], [], []⟩

/-- A call site of `f`, with the interval of each argument at the block. -/
def site {S : Type} (A : Analyses S) (m : Module) (base : Nat) (f : FuncId × Func) (block : BlockId) :
    Inst → Option ScalarCall
  | .call _ callee args => (contractCallee m base callee).map fun c =>
      ⟨c, args.map (Scalars.siteRange m (fun _ => A.analyzeIntervals f.2) f block)⟩
  | _ => none

def sitesOf {S : Type} (A : Analyses S) (m : Module) (base : Nat) (f : FuncId × Func) : List ScalarCall :=
  f.2.blocks.flatMap fun b => b.insts.filterMap (site A m base f b.id)

def push {S : Type} (A : Analyses S) (s : ScalarFacts) (m : Module) : ScalarFacts where
  next := s.next + m.functions.length
  nameToId := pushNames m s.next s.nameToId
  escaped := s.escaped ∪ escapedNames m
  internal := s.internal ++ m.functions.map fun f => decide (f.1 ∈ m.internal)
  name := s.name ++ m.functions.map fun f => f.2.name
  intParams := s.intParams ++ m.functions.map fun f => paramsThat isInt f.2
  paramCount := s.paramCount ++ m.functions.map fun f => f.2.params.length
  sites := s.sites ++ m.functions.map (sitesOf A m s.next)

def merge (s t : ScalarFacts) : ScalarFacts where
  next := s.next + t.next
  nameToId := mergeNames s.next s.nameToId t.nameToId
  escaped := s.escaped ∪ t.escaped
  internal := s.internal ++ t.internal
  name := s.name ++ t.name
  intParams := s.intParams ++ t.intParams
  paramCount := s.paramCount ++ t.paramCount
  sites := s.sites ++ t.sites.map (List.map fun c => { c with callee := c.callee.shift s.next })

end ScalarFacts

/-! ## Pointer contracts -/

/-- What `local_defs` reads of a caller. -/
structure CallerDefFacts where
  allocDefs : List (RegId × Contracts.SiteGuarantee)
  hintDefs : List (RegId × Contracts.SiteGuarantee)
  paramRegs : List (RegId × Nat)
  offsetEdges : List (RegId × RegId × Nat)

/-- A constant allocation and the bytes it has. -/
def allocDef (layout : DataLayout) : Inst → Option (RegId × Contracts.SiteGuarantee)
  | .alloc dst _ elem (.const (.int bv)) align => do
    let es ← elem.sizeBytes layout
    let cnt ← checkedU64 bv.value
    let size ← checkedU64 (es * cnt)
    return (dst, ⟨size, max align 1, true, true⟩)
  | _ => none

def offsetEdge (layout : DataLayout) : Inst → Option (RegId × RegId × Nat)
  | .ptrOffset dst (.reg b) (.const (.int bv)) elem => do
    let es ← elem.sizeBytes layout
    let idx ← checkedU64 bv.value
    let off ← checkedU64 (idx * es)
    return (dst, b, off)
  | _ => none

/-- The hints of a caller's registers: those its instructions define, then its parameters. -/
def hintDefsOf (m : Module) (f : FuncId × Func) : List (RegId × Contracts.SiteGuarantee) :=
  (((Contracts.insts f.2).filterMap Inst.definedReg ++ f.2.params.map Prod.fst).eraseDups).filterMap
    fun r => (Contracts.hintOf m f.1 r).map fun g => (r, g)

def callerDefFacts (layout : DataLayout) (hints : List (RegId × Contracts.SiteGuarantee)) (f : Func) :
    CallerDefFacts where
  allocDefs := (Contracts.insts f).filterMap (allocDef layout)
  hintDefs := hints
  paramRegs := f.params.zipIdx.map fun p => (p.1.1, p.2)
  offsetEdges := (Contracts.insts f).filterMap (offsetEdge layout)

/-- The declared contracts of a module, under global ids. -/
def pushDeclared (m : Module) (base : Nat) (declared : Map (FuncId × Nat) PtrContract) :
    Map (FuncId × Nat) PtrContract :=
  m.paramContracts.entries.foldl
    (fun declared e => match localId m base e.1.1 with
      | some g => declared.insert (g, e.1.2) e.2
      | none => declared) declared

/-- The call sites of a caller that are not indirect. -/
def contractCalls (m : Module) (base : Nat) (f : Func) : List (ContractCallee × List Operand) :=
  (Contracts.insts f).filterMap fun
    | .call _ callee args => (contractCallee m base callee).map fun c => (c, args)
    | _ => none

structure ContractFacts where
  next : Nat
  nameToId : Map String FuncId
  escaped : Finset String
  layout : Option DataLayout
  name : List String
  internal : List Bool
  ptrParams : List (List Nat)
  paramCount : List Nat
  declared : Map (FuncId × Nat) PtrContract
  callerDefs : List CallerDefFacts
  calls : List (List (ContractCallee × List Operand))

namespace ContractFacts

def empty : ContractFacts :=
  ⟨0, fun _ => none, ∅, none, [], [], [], [], fun _ => none, [], []⟩

/-- The layout is that of the first module this builder sees. -/
def push (s : ContractFacts) (m : Module) : ContractFacts :=
  let layout := s.layout.getD m.layout
  { next := s.next + m.functions.length
    nameToId := pushNames m s.next s.nameToId
    escaped := s.escaped ∪ escapedNames m
    layout := some layout
    name := s.name ++ m.functions.map fun f => f.2.name
    internal := s.internal ++ m.functions.map fun f => decide (f.1 ∈ m.internal)
    ptrParams := s.ptrParams ++ m.functions.map fun f => paramsThat Ty.isPtr f.2
    paramCount := s.paramCount ++ m.functions.map fun f => f.2.params.length
    declared := pushDeclared m s.next s.declared
    callerDefs := s.callerDefs ++ m.functions.map fun f => callerDefFacts layout (hintDefsOf m f) f.2
    calls := s.calls ++ m.functions.map fun f => contractCalls m s.next f.2 }

def merge (s t : ContractFacts) : ContractFacts where
  next := s.next + t.next
  nameToId := mergeNames s.next s.nameToId t.nameToId
  escaped := s.escaped ∪ t.escaped
  layout := s.layout.or t.layout
  name := s.name ++ t.name
  internal := s.internal ++ t.internal
  ptrParams := s.ptrParams ++ t.ptrParams
  paramCount := s.paramCount ++ t.paramCount
  declared := s.declared.override (t.declared.shift s.next)
  callerDefs := s.callerDefs ++ t.callerDefs
  calls := s.calls ++ t.calls.map (List.map fun c => (c.1.shift s.next, c.2))

end ContractFacts

/-! ## Field contracts -/

/-- What the scan of a block looks at. -/
inductive FieldEvent where
  | offset (dst base : RegId) (off : Nat)
  | storeReg (ptr : RegId) (value : Option RegId)
  | storeClear
  | call (callee : Option ContractCallee) (args : List Operand)
  | memDst (dst : RegId)
  | clear

def FieldEvent.shift (off : Nat) : FieldEvent → FieldEvent
  | call callee args => call (callee.map (ContractCallee.shift off)) args
  | e => e

def regOf : Operand → Option RegId
  | .reg r => some r
  | .const _ => none

def fieldEvent (layout : DataLayout) (m : Module) (base : Nat) : Inst → Option FieldEvent
  | .ptrOffset dst (.reg b) (.const (.int bv)) elem =>
    (offsetEdge layout (.ptrOffset dst (.reg b) (.const (.int bv)) elem)).map fun e => .offset e.1 e.2.1 e.2.2
  | .store _ (.reg pr) value _ => some (.storeReg pr (regOf value))
  | .store _ (.const _) _ _ => some .storeClear
  | .call _ callee args => some (.call (contractCallee m base callee) args)
  | .memIntrinsic (.reg d) _ _ => some (.memDst d)
  | .memIntrinsic (.const _) _ _ | .intrinsic _ _ _ | .dealloc _ _ => some .clear
  | _ => none

structure FieldFacts where
  next : Nat
  nameToId : Map String FuncId
  escaped : Finset String
  layout : Option DataLayout
  name : List String
  internal : List Bool
  paramIsPtr : List (List Bool)
  paramCount : List Nat
  declared : Map (FuncId × Nat) PtrContract
  callerDefs : List CallerDefFacts
  blocks : List (List (List FieldEvent))

namespace FieldFacts

def empty : FieldFacts := ⟨0, fun _ => none, ∅, none, [], [], [], [], fun _ => none, [], []⟩

def eventsOf (layout : DataLayout) (m : Module) (base : Nat) (f : Func) : List (List FieldEvent) :=
  f.blocks.map fun b => b.insts.filterMap (fieldEvent layout m base)

def push (s : FieldFacts) (m : Module) : FieldFacts :=
  let layout := s.layout.getD m.layout
  { next := s.next + m.functions.length
    nameToId := pushNames m s.next s.nameToId
    escaped := s.escaped ∪ escapedNames m
    layout := some layout
    name := s.name ++ m.functions.map fun f => f.2.name
    internal := s.internal ++ m.functions.map fun f => decide (f.1 ∈ m.internal)
    paramIsPtr := s.paramIsPtr ++ m.functions.map fun f => f.2.params.map fun p => p.2.isPtr
    paramCount := s.paramCount ++ m.functions.map fun f => f.2.params.length
    declared := pushDeclared m s.next s.declared
    callerDefs := s.callerDefs ++ m.functions.map fun f => callerDefFacts layout [] f.2
    blocks := s.blocks ++ m.functions.map fun f => eventsOf layout m s.next f.2 }

def merge (s t : FieldFacts) : FieldFacts where
  next := s.next + t.next
  nameToId := mergeNames s.next s.nameToId t.nameToId
  escaped := s.escaped ∪ t.escaped
  layout := s.layout.or t.layout
  name := s.name ++ t.name
  internal := s.internal ++ t.internal
  paramIsPtr := s.paramIsPtr ++ t.paramIsPtr
  paramCount := s.paramCount ++ t.paramCount
  declared := s.declared.override (t.declared.shift s.next)
  callerDefs := s.callerDefs ++ t.callerDefs
  blocks := s.blocks ++ t.blocks.map (List.map (List.map (FieldEvent.shift s.next)))

end FieldFacts

end Facts

end Csolver
