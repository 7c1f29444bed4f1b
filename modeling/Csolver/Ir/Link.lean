import Csolver.Ir.Func
import Csolver.Lib.Tables
import Mathlib.Data.Finset.Basic

/-!
# Linking modules (`merge_id_plan`, `merge_modules`, `merge_field_evidence` of `crates/ir/src/func.rs`)

Every function gets a fresh id in the order of the modules, calls by name are resolved to the first
external definition, and the side tables are merged module by module. The hash maps of a module are
`Table`s: lists of entries in some order, with distinct keys.
-/

namespace Csolver

open Lib

/-- How big the region behind a pointer parameter is. -/
inductive SizeSpec where
  | bytes (n : Nat)
  | paramElements (lenParam elemSize : Nat)
  | opq
  | nonNull
  deriving DecidableEq

/-- What callers guarantee of a pointer parameter. -/
structure PtrContract where
  size : SizeSpec
  align : Nat
  readable : Bool
  writable : Bool
  assumption : Option String
  refutable : Bool
  sentinel : Option Nat
  deriving DecidableEq

/-- What the frontend knows of the object a register points to. -/
structure PtrHint where
  size : Nat
  align : Nat
  tail : Nat
  containerSize : Nat
  containerOffset : Nat
  accessExtent : Nat
  deriving DecidableEq

structure GlobalDef where
  size : Nat
  align : Nat
  writable : Bool
  deriving DecidableEq

structure MmioHandler where
  regionSize : Option Nat
  sizeParam : Nat
  deriving DecidableEq

/-- An observation of the type that a field of a struct points to; size 0 marks conflicting ones. -/
structure Evidence where
  size : Nat
  align : Nat
  pointee : String
  deriving DecidableEq

namespace Callee

/-- The ids of the functions that are called directly. -/
def target : Callee → Option FuncId
  | direct id => some id
  | symbol _ | indirect _ => none

end Callee

namespace Inst

def callee : Inst → Option Callee
  | call _ c _ => some c
  | _ => none

/-- The operands that the instruction reads. -/
def operands : Inst → List Operand
  | assign _ _ value => value.operands
  | load _ _ ptr _ => [ptr]
  | store _ ptr value _ => [ptr, value]
  | alloc _ _ _ count _ => [count]
  | dealloc _ ptr => [ptr]
  | ptrOffset _ base index _ => [base, index]
  | fieldPtr _ base => [base]
  | call _ (.indirect op) args => op :: args
  | call _ _ args | intrinsic _ _ args => args
  | memIntrinsic dst src len => dst :: src.toList ++ [len]
  | asm _ | refWitness _ _ _ _ _ | note => []

/-- The same instruction with another callee. -/
def mapCallee (g : Callee → Callee) : Inst → Inst
  | call dst c args => call dst (g c) args
  | i => i

end Inst

namespace Terminator

def operands : Terminator → List Operand
  | ret value => value.toList
  | br _ args => args
  | condBr cond _ targs _ eargs => cond :: targs ++ eargs
  | switch value _ _ => [value]
  | unreachable => []

end Terminator

namespace Operand

/-- The global that the operand refers to. -/
def symbolName : Operand → Option String
  | const (.symbol name) | const (.symbolOffset name _) => some name
  | _ => none

end Operand

namespace Func

def callees (f : Func) : List Callee := f.blocks.flatMap fun b => b.insts.filterMap Inst.callee

/-- The globals that the function refers to. -/
def symbols (f : Func) : List String :=
  f.blocks.flatMap fun b => (b.insts.flatMap Inst.operands ++ b.term.operands).filterMap Operand.symbolName

def mapCallees (g : Callee → Callee) (f : Func) : Func :=
  { f with blocks := f.blocks.map fun b => { b with insts := b.insts.map (Inst.mapCallee g) } }

end Func

/-- The contents of a module. -/
structure ModuleData where
  functions : List (FuncId × Func)
  layout : DataLayout
  paramContracts : Table (FuncId × Nat) PtrContract
  unanalyzed : List (String × String)
  internal : Finset FuncId
  globals : Table String GlobalDef
  rawPtrHints : Table (FuncId × Nat) (Nat × Nat)
  provGrants : Table Nat (Finset Nat)
  globalFnPtrs : Table String (List (Nat × FuncId))
  globalPtrFields : Table String (List (Nat × String))
  regPtrHints : Table (FuncId × RegId) PtrHint
  fieldPtrEvidence : Table (String × Nat) Evidence
  fieldLoadSites : Table (FuncId × RegId) (String × Nat)
  mmioHandlers : Table String MmioHandler

/-- A module. Its ids are distinct, and only ids of its own functions are called or have entries in
    the tables. -/
structure Module extends ModuleData where
  ids_nodup : (functions.map Prod.fst).Nodup
  calls_own : ∀ f ∈ functions, ∀ c ∈ f.2.callees, ∀ id ∈ c.target, id ∈ functions.map Prod.fst
  params_own : ∀ k ∈ paramContracts, k.1 ∈ functions.map Prod.fst
  raw_own : ∀ k ∈ rawPtrHints, k.1 ∈ functions.map Prod.fst
  reg_own : ∀ k ∈ regPtrHints, k.1 ∈ functions.map Prod.fst
  sites_own : ∀ k ∈ fieldLoadSites, k.1 ∈ functions.map Prod.fst
  ptrs_own : ∀ k, ∀ v ∈ globalFnPtrs.lookup k, ∀ p ∈ v, p.2 ∈ functions.map Prod.fst

/-- `merge_id_plan`: the name map, the renumbering of each module, and the next id. -/
structure IdPlan where
  nameToId : Table String FuncId
  remaps : List (Table FuncId FuncId)
  next : FuncId

/-- The inner loop, over the functions of a module. -/
def planFunction (internal : Finset FuncId) (p : Table String FuncId × Table FuncId FuncId × FuncId)
    (f : FuncId × Func) : Table String FuncId × Table FuncId FuncId × FuncId :=
  (if f.1 ∈ internal then p.1
    else if (p.1.lookup f.2.name).isSome then p.1 else p.1.insert f.2.name p.2.2,
    p.2.1.insert f.1 p.2.2, p.2.2 + 1)

def planModule (p : IdPlan) (m : Module) : IdPlan :=
  let r := m.functions.foldl (planFunction m.internal) (p.nameToId, ∅, p.next)
  ⟨r.1, p.remaps ++ [r.2.1], r.2.2⟩

def mergeIdPlan (mods : List Module) : IdPlan := mods.foldl planModule ⟨∅, [], 0⟩

/-- `remap[&id]`; the id is one of the module's. -/
def renumber (remap : Table FuncId FuncId) (id : FuncId) : FuncId := (remap.lookup id).getD 0

def linkCallee (nameToId : Table String FuncId) (remap : Table FuncId FuncId) : Callee → Callee
  | .direct old => .direct (renumber remap old)
  | .symbol name =>
    match nameToId.lookup name with
    | some id => .direct id
    | none => .symbol name
  | .indirect op => .indirect op

/-- `merge_field_evidence`, for a key that has the value `old` so far. -/
def mergeFieldEvidence (old : Option Evidence) (new : Evidence) : Evidence :=
  match old with
  | none => new
  | some e =>
    if e.size = 0 then e
    else if e.size ≠ new.size ∨ new.size = 0 then ⟨0, 0, ""⟩
    else if e.pointee ≠ new.pointee then ⟨new.size, new.align, ""⟩
    else e

/-- `HashMap::insert`: the last value stays. -/
def lastWins {V : Type} (_ : Option V) (new : V) : V := new

/-- `entry(..).or_insert`: the first value stays. -/
def firstWins {V : Type} (old : Option V) (new : V) : V := old.getD new

/-- A table with renumbered functions is entered into the merged one. -/
def mergeKeyed {κ V : Type} [DecidableEq κ] (remap : Table FuncId FuncId)
    (acc t : Table (FuncId × κ) V) : Table (FuncId × κ) V :=
  t.entries.foldl (fun acc e => acc.insert (renumber remap e.1.1, e.1.2) e.2) acc

/-- The functions of a module, renumbered and with their calls resolved. -/
def linkFunctions (nameToId : Table String FuncId) (remap : Table FuncId FuncId) (m : Module) :
    List (FuncId × Func) :=
  m.functions.map fun f => (renumber remap f.1, f.2.mapCallees (linkCallee nameToId remap))

/-- One pass of the loop of `merge_modules`, with the renumbering of the module. -/
def mergeModule (nameToId : Table String FuncId) (r : ModuleData)
    (p : Module × Table FuncId FuncId) : ModuleData :=
  let m := p.1
  let remap := p.2
  { functions := r.functions ++ linkFunctions nameToId remap m
    layout := r.layout
    paramContracts := mergeKeyed remap r.paramContracts m.paramContracts
    unanalyzed := r.unanalyzed ++ m.unanalyzed
    internal := m.functions.foldl (fun s f => if f.1 ∈ m.internal then insert (renumber remap f.1) s else s)
      r.internal
    globals := mergeTable firstWins r.globals m.globals
    rawPtrHints := mergeKeyed remap r.rawPtrHints m.rawPtrHints
    provGrants := mergeTable (fun old new => old.getD ∅ ∪ new) r.provGrants m.provGrants
    globalFnPtrs := mergeTable (fun old new => old.getD (new.map fun q => (q.1, renumber remap q.2)))
      r.globalFnPtrs m.globalFnPtrs
    globalPtrFields := mergeTable firstWins r.globalPtrFields m.globalPtrFields
    regPtrHints := mergeKeyed remap r.regPtrHints m.regPtrHints
    fieldPtrEvidence := mergeTable mergeFieldEvidence r.fieldPtrEvidence m.fieldPtrEvidence
    fieldLoadSites := mergeKeyed remap r.fieldLoadSites m.fieldLoadSites
    mmioHandlers := mergeTable lastWins r.mmioHandlers m.mmioHandlers }

/-- The module that `merge_modules` starts from, with the layout of the first module. -/
def emptyModule (mods : List Module) : ModuleData :=
  ⟨[], (mods.head?.map fun m => m.layout).getD .lp64, ∅, [], ∅, ∅, ∅, ∅, ∅, ∅, ∅, ∅, ∅, ∅⟩

def mergeModules (mods : List Module) : ModuleData :=
  let plan := mergeIdPlan mods
  (mods.zip plan.remaps).foldl (mergeModule plan.nameToId) (emptyModule mods)

end Csolver
