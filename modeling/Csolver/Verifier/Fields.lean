import Csolver.Verifier.ContractsSound

/-!
# Contracts of the fields behind a pointer parameter (`crates/verifier/src/contracts/fieldsyn.rs`)

Each block of a caller is scanned on its own. A store of a guaranteed pointer into a guaranteed object
records the field; at a call the recorded fields of an argument are what the site contributes. A field is
kept if every site contributes it.

The tables of the source are functions here: the contracts of a parameter are given offset by offset.
-/

namespace Csolver

open Lib

namespace Fields

open Contracts

/-- What the scan of a block knows: registers that are a constant offset into an object, the fields that
    hold a guaranteed pointer, and the objects that others may reach. An object is named by its root. -/
structure Scan where
  fieldOf : RegId → Option (RegId × Nat)
  slot : RegId × Nat → Option SiteGuarantee
  escaped : RegId → Bool

def Scan.empty : Scan := ⟨fun _ => none, fun _ => none, fun _ => false⟩

section

variable (layout : DataLayout) (defs : Defs)

def rootOf (σ : Scan) (r : RegId) : Option RegId :=
  if (defs r).isSome then some r else (σ.fieldOf r).map Prod.fst

/-- The field that a store through `pr` writes. -/
def target (σ : Scan) (pr : RegId) : Option (RegId × Nat) :=
  (σ.fieldOf pr).or (if (defs pr).isSome then some (pr, 0) else none)

/-- The constant distance that a pointer is moved by. -/
def delta (index : Operand) (elem : Ty) : Option Nat :=
  match index with
  | .const (.int bv) => do
    let n ← checkedU64 bv.value
    let size ← elem.sizeBytes layout
    checkedU64 (n * size)
  | _ => none

def Scan.setField (σ : Scan) (dst : RegId) (k : RegId × Nat) : Scan :=
  { σ with fieldOf := fun r => if r = dst then some k else σ.fieldOf r }

def Scan.setSlot (σ : Scan) (k : RegId × Nat) (g : Option SiteGuarantee) : Scan :=
  { σ with slot := fun k' => if k' = k then g else σ.slot k' }

def Scan.clear (σ : Scan) : Scan := { σ with slot := fun _ => none }

/-- The roots escape, and the fields of what has escaped are dropped. -/
def Scan.escape (σ : Scan) (roots : List RegId) : Scan :=
  let escaped := fun r => σ.escaped r || roots.contains r
  { σ with escaped := escaped, slot := fun k => if escaped k.1 then none else σ.slot k }

def Scan.leak (σ : Scan) (value : Operand) : Scan :=
  match value with
  | .reg vr =>
    match rootOf defs σ vr with
    | some r =>
      { σ with escaped := fun q => σ.escaped q || decide (q = r)
               slot := fun k => if k.1 = r then none else σ.slot k }
    | none => σ
  | .const _ => σ

/-- What the value of a store guarantees. -/
def stored (value : Operand) : Option SiteGuarantee :=
  match value with
  | .reg vr => defs vr
  | .const _ => none

def scanInst (σ : Scan) : Inst → Scan
  | .ptrOffset dst (.reg base) index elem =>
    match delta layout index elem, σ.fieldOf base, (defs base).isSome with
    | some d, some (root, d₀), _ =>
      match checkedU64 (d₀ + d) with
      | some total => σ.setField dst (root, total)
      | none => σ
    | some d, none, true => σ.setField dst (base, d)
    | _, _, _ => σ
  | .store _ (.reg pr) value _ =>
    match target defs σ pr with
    | some k => (σ.leak defs value).setSlot k (stored defs value)
    | none => (σ.leak defs value).clear
  | .store _ (.const _) _ _ => σ.clear
  | .call _ _ args => σ.escape (args.filterMap fun a => match a with
    | .reg r => rootOf defs σ r
    | .const _ => none)
  | .memIntrinsic (.reg d) _ _ =>
    match rootOf defs σ d with
    | some r => σ.escape [r]
    | none => σ.clear
  | .memIntrinsic (.const _) _ _ => σ.clear
  | .intrinsic _ _ _ => σ.clear
  | .dealloc _ _ => σ.clear
  | _ => σ

def scan (insts : List Inst) : Scan := insts.foldl (scanInst layout defs) .empty

def siteFields (σ : Scan) (arg : Operand) (off : Nat) : Option SiteGuarantee :=
  match arg with
  | .reg root => if (defs root).isSome then σ.slot (root, off) else none
  | .const _ => none

end

section

variable (M : Module) (params : Overlay) (closedWorld : Bool)

def eligible (k : FuncId × Nat) : Bool :=
  match Scalars.function M k.1 with
  | none => false
  | some f => (closedWorld || decide (k.1 ∈ M.internal)) && !(Scalars.addressTakenNames M).contains f.name &&
      ((f.params[k.2]?).map fun p => p.2.isPtr).getD false &&
      ((params.lookup k).isSome || (M.paramContracts.lookup k).isSome)

def siteEvents (defs : Defs) (σ : Scan) : Inst → List ((FuncId × Nat) × (Nat → Option SiteGuarantee))
  | .call _ (.direct g) args =>
    if some args.length = (Scalars.function M g).map fun f => f.params.length then
      args.zipIdx.filterMap fun a =>
        if eligible M params closedWorld (g, a.2) then some ((g, a.2), siteFields defs σ a.1) else none
    else []
  | _ => []

def blockEvents (defs : Defs) : Scan → List Inst → List ((FuncId × Nat) × (Nat → Option SiteGuarantee))
  | _, [] => []
  | σ, i :: is => siteEvents M params closedWorld defs σ i ++ blockEvents defs (scanInst M.layout defs σ i) is

def events : List ((FuncId × Nat) × (Nat → Option SiteGuarantee)) :=
  M.functions.flatMap fun caller => caller.2.blocks.flatMap fun b =>
    blockEvents M params closedWorld (localDefs M params false caller) .empty b.insts

def intersectSite (acc : Option (Nat → Option SiteGuarantee)) (site : Nat → Option SiteGuarantee) :
    Option (Nat → Option SiteGuarantee) :=
  match acc with
  | none => some site
  | some cur => some fun off =>
    match cur off, site off with
    | some g, some s => some (weaker g s)
    | _, _ => none

/-- `synthesize_fields`, for one parameter and offset. -/
def synthesizeFields (k : FuncId × Nat) (off : Nat) : Option PtrContract :=
  let folded := ((events M params closedWorld).filter fun e => decide (e.1 = k)).foldl
    (fun acc e => intersectSite acc e.2) none
  (folded.bind fun fields => fields off).map (toContract (decide (k.1 ∈ M.internal)))

end

end Fields

end Csolver
