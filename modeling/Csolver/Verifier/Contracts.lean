import Csolver.Lib.SiteFold
import Csolver.Verifier.Program

/-!
# Contracts of pointer parameters (`crates/verifier/src/contracts/ptr.rs`, `site.rs`)

A function whose call sites are all known gets, for each pointer parameter without a declared contract,
the weakest of what the sites guarantee of the argument: a constant allocation, a constant offset into
one, or the caller's own parameter with a contract. The contracts of a round feed the next.
-/

namespace Csolver

open Lib

namespace Contracts

/-- What a caller guarantees of an argument. -/
structure SiteGuarantee where
  size : Nat
  align : Nat
  readable : Bool
  writable : Bool
  deriving DecidableEq

abbrev Defs := RegId → Option SiteGuarantee

def Defs.insert (defs : Defs) (r : RegId) (g : SiteGuarantee) : Defs := fun q => if q = r then some g else defs q

/-- `trailing_zeros` of a number below `2 ^ bits`. -/
def trailingZeros : Nat → Nat → Nat
  | 0, _ => 0
  | bits + 1, n => if n % 2 = 1 then 0 else trailingZeros bits (n / 2) + 1

def regionAlign (h : PtrHint) : Nat :=
  if 0 < h.align then h.align else 2 ^ min (trailingZeros 64 h.size) 4

def hintGuarantee (h : PtrHint) : SiteGuarantee := ⟨h.size, regionAlign h, true, true⟩

abbrev Overlay := Table (FuncId × Nat) PtrContract

/-- The instructions of a function, block by block. -/
def insts (f : Func) : List Inst := f.blocks.flatMap (·.insts)

section LocalDefs

variable (M : Module) (prior : Overlay) (avp : Bool)

/-- The hint of a register, if hints are trusted. -/
def hintOf (id : FuncId) (r : RegId) : Option SiteGuarantee :=
  ((M.regPtrHints.lookup (id, r)).filter fun h => decide (0 < h.size)).map hintGuarantee

def seedHint (id : FuncId) (defs : Defs) (r : RegId) : Defs :=
  match hintOf M id r with
  | some g => defs.insert r g
  | none => defs

def seedHints (id : FuncId) (f : Func) : Defs :=
  if avp then (((insts f).filterMap Inst.definedReg) ++ f.params.map Prod.fst).foldl (seedHint M id) fun _ => none
  else fun _ => none

/-- What the caller guarantees of the `i`-th parameter, by a declared contract or one of an earlier
    round. -/
def contractOf (k : FuncId × Nat) : Option SiteGuarantee :=
  ((M.paramContracts.lookup k).or (prior.lookup k)).bind fun c =>
    match c.size with
    | .bytes n => some ⟨n, c.align, c.readable, c.writable⟩
    | _ => none

def seedParam (id : FuncId) (defs : Defs) (p : (RegId × Ty) × Nat) : Defs :=
  match contractOf M prior (id, p.2) with
  | some g => defs.insert p.1.1 g
  | none => defs

def allocGuarantee : Inst → Option (RegId × SiteGuarantee)
  | .alloc dst _ elem (.const (.int bv)) align => do
    let elemSize ← elem.sizeBytes M.layout
    let count ← checkedU64 bv.value
    let size ← checkedU64 (elemSize * count)
    return (dst, ⟨size, max align 1, true, true⟩)
  | _ => none

def seedAlloc (defs : Defs) (i : Inst) : Defs :=
  match allocGuarantee M i with
  | some (dst, g) => defs.insert dst g
  | none => defs

/-- What is left at a constant offset. -/
def offsetFrom (base : SiteGuarantee) (bv : BitVector) (elem : Ty) : Option SiteGuarantee := do
  let elemSize ← elem.sizeBytes M.layout
  let idx ← checkedU64 bv.value
  let off ← checkedU64 (idx * elemSize)
  let align := if off = 0 then base.align else 2 ^ min (trailingZeros 64 off) (trailingZeros 32 base.align)
  if off ≤ base.size then some ⟨base.size - off, align, base.readable, base.writable⟩ else none

/-- A constant offset into something guaranteed. -/
def offsetGuarantee (defs : Defs) : Inst → Option (RegId × SiteGuarantee)
  | .ptrOffset dst (.reg b) (.const (.int bv)) elem =>
    ((defs b).bind fun base => offsetFrom M base bv elem).map fun g => (dst, g)
  | _ => none

def growOffset (defs : Defs) (i : Inst) : Defs :=
  match offsetGuarantee M defs i with
  | some (dst, g) => if (defs dst).isSome then defs else defs.insert dst g
  | none => defs

/-- `local_defs`. A round of offsets that changes nothing is the last one; each round before it defines a
    register more. -/
def localDefs (f : FuncId × Func) : Defs :=
  let hints := seedHints M avp f.1 f.2
  let params := f.2.params.zipIdx.foldl (seedParam M prior f.1) hints
  let allocs := (insts f.2).foldl (seedAlloc M) params
  (fun defs => (insts f.2).foldl (growOffset M) defs)^[(insts f.2).length] allocs

end LocalDefs

def deriveSite (arg : Operand) (defs : Defs) : Option SiteGuarantee :=
  match arg with
  | .reg r => defs r
  | .const _ => none

def weaker (a b : SiteGuarantee) : SiteGuarantee :=
  ⟨min a.size b.size, min a.align b.align, a.readable && b.readable, a.writable && b.writable⟩

section Round

variable (M : Module) (closedWorld avp : Bool) (prior : Overlay)

/-- The pairs that are put into `candidates`. -/
def isCandidate (k : FuncId × Nat) : Bool :=
  M.functions.any fun f => decide (f.1 = k.1) && (closedWorld || decide (f.1 ∈ M.internal)) &&
    !(Scalars.addressTakenNames M).contains f.2.name &&
    ((f.2.params[k.2]?).map fun p => p.2.isPtr).getD false &&
    !(M.paramContracts.lookup k).isSome && !(prior.lookup k).isSome

/-- The loop over the arguments of a call: parameters with what the site guarantees, in order. -/
def siteEvents (defs : Defs) : Inst → List ((FuncId × Nat) × Option SiteGuarantee)
  | .call _ (.direct g) args =>
    match Scalars.function M g with
    | none => []
    | some callee =>
      if args.length ≠ callee.params.length then
        (List.range callee.params.length).filterMap fun i =>
          if isCandidate M closedWorld prior (g, i) then some ((g, i), none) else none
      else
        args.zipIdx.filterMap fun a =>
          if isCandidate M closedWorld prior (g, a.2) then some ((g, a.2), deriveSite a.1 defs) else none
  | _ => []

def events : List ((FuncId × Nat) × Option SiteGuarantee) :=
  M.functions.flatMap fun caller =>
    (insts caller.2).flatMap (siteEvents M closedWorld prior (localDefs M prior avp caller))

def internalCallContract : String := "internal-call-contract"

def closedWorldContract : String := "closed-world-contract"

/-- A guarantee as a contract; `internal` says what the completeness of the sites rests on. -/
def toContract (internal : Bool) (g : SiteGuarantee) : PtrContract where
  size := .bytes g.size
  align := g.align
  readable := g.readable
  writable := g.writable
  assumption := some (if internal then internalCallContract else closedWorldContract)
  refutable := false
  sentinel := none

/-- `synthesize_round`, for one parameter. -/
def synthesizeRound (k : FuncId × Nat) : Option PtrContract :=
  match (foldSites weaker (events M closedWorld avp prior)).lookup k with
  | some (some g) => some (toContract (decide (k.1 ∈ M.internal)) g)
  | _ => none

/-- The contracts of a round are entered into the overlay. -/
def addRound : Overlay :=
  (foldSites weaker (events M closedWorld avp prior)).keys.foldl
    (fun acc k => match synthesizeRound M closedWorld avp prior k with
      | some c => acc.insert k c
      | none => acc) prior

end Round

/-- `synthesize`. A round that adds nothing is the last one; each round before it adds a parameter. -/
def synthesize (M : Module) (closedWorld avp : Bool) : Overlay :=
  (addRound M closedWorld avp)^[(M.functions.map fun f => f.2.params.length).sum + 1] ∅

end Contracts

end Csolver
