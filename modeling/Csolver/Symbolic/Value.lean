import Csolver.Ir.Ops
import Csolver.Solver.Build

/-!
# Symbolic values and path states (`exec/value.rs`, `exec/state.rs`)

A symbolic value is a scalar expression or a pointer: a provenance and an offset expression. The
executor's own equality on provenances (`Prov.same`) looks at the kind only, so that any two opaque
pointers are equal to it; that is a choice of the source and several results turn on it.
-/

namespace Csolver

/-- Why a pointer has no tracked provenance. Only `load` is ever looked at. -/
inductive POrigin where
  | param | call | load | intToPtr | loop | selectJoin | regionDrop | phiFallback | scalarAsPtr
  deriving DecidableEq

mutual

/-- Provenance of a symbolic pointer. -/
inductive Prov where
  | null
  | region (rid : Nat)
  | select (cond : Expr) (thenPtr elsePtr : SymPointer)
  | unknown (origin : POrigin) (ident : Option Nat)

/-- A symbolic pointer. The borrow tag is metadata of the aliasing model. -/
inductive SymPointer where
  | mk (prov : Prov) (offset : Expr) (align : Nat) (borrow : Option RegId)

end

namespace SymPointer

def prov : SymPointer → Prov
  | mk p _ _ _ => p

def offset : SymPointer → Expr
  | mk _ o _ _ => o

def align : SymPointer → Nat
  | mk _ _ a _ => a

def borrow : SymPointer → Option RegId
  | mk _ _ _ b => b

end SymPointer

mutual

/-- `impl PartialEq for Prov`: opaque pointers are all equal. -/
def Prov.same : Prov → Prov → Bool
  | .null, .null => true
  | .region a, .region b => a == b
  | .unknown _ _, .unknown _ _ => true
  | .select c₁ t₁ e₁, .select c₂ t₂ e₂ => decide (c₁ = c₂) && (t₁.same t₂ && e₁.same e₂)
  | _, _ => false

/-- `impl PartialEq for SymPointer`. -/
def SymPointer.same : SymPointer → SymPointer → Bool
  | .mk p₁ o₁ a₁ _, .mk p₂ o₂ a₂ _ => p₁.same p₂ && (decide (o₁ = o₂) && a₁ == a₂)

end

mutual

/-- `prov_select_depth`. -/
def Prov.selectDepth : Prov → Nat
  | .select _ t e => 1 + max t.selectDepth e.selectDepth
  | _ => 0

def SymPointer.selectDepth : SymPointer → Nat
  | .mk p _ _ _ => p.selectDepth

end

inductive SymValue where
  | scalar (e : Expr)
  | ptr (p : SymPointer)

inductive LifetimeState where
  | live | freed | uninitialized
  deriving DecidableEq

/-- What may be done with a region. -/
structure Permissions where
  read : Bool
  write : Bool
  exec : Bool
  deriving DecidableEq

/-- A tracked allocation: `contract` names the assumption its validity rests on, `sizeNowrap` is the premise
    under which its size does not wrap, and `sentinel` the width of a zero element before its end. -/
structure SymRegion where
  kind : RegionKind
  size : Expr
  baseAlign : Nat
  state : LifetimeState
  perms : Permissions
  contract : Option String
  sizeNowrap : Option Expr
  sentinel : Option Nat
  userControlled : Bool
  assumed : Bool

/-- A live region of the given size that may be read and written, and nothing more. -/
def SymRegion.plain (kind : RegionKind) (size : Expr) : SymRegion where
  kind := kind
  size := size
  baseAlign := 1
  state := .live
  perms := ⟨true, true, false⟩
  contract := none
  sizeNowrap := none
  sentinel := none
  userControlled := false
  assumed := false

/-- One store of the symbolic heap. -/
structure StoreRecord where
  target : SymPointer
  value : SymValue
  size : Nat

/-- What the executor knows at a program point of a path. -/
structure PathState where
  env : RegId → Option SymValue
  regions : List SymRegion
  pathcond : List Expr
  facts : List Expr
  heap : List StoreRecord
  exact : Bool

/-- The counters and tables of the exploration that evaluation reads. -/
structure Explorer where
  fresh : Nat
  provIds : Nat
  globalRids : String → Option (Nat × Nat)

/-- No globals, and one opaque parameter already identified. -/
def Explorer.initial : Explorer := ⟨0, 1, fun _ => none⟩

/-- The executor's own state is threaded through evaluation. -/
abbrev ExploreM := StateM Explorer

def ptrWidth : Nat := 64

/-- The name of the `n`-th fresh symbol. -/
def freshName (n : Nat) : String := "?" ++ toString n

def freshScalar (w : Nat) : ExploreM Expr := fun ex =>
  (.sym (freshName ex.fresh) w, { ex with fresh := ex.fresh + 1 })

/-- A fresh scalar whose name records where it came from. -/
def freshScalarNamed (pre : String) (w : Nat) : ExploreM Expr := fun ex =>
  (.sym (pre ++ toString ex.fresh) w, { ex with fresh := ex.fresh + 1 })

/-- A fresh opaque pointer gets an identity of its own; a fresh scalar a symbol. -/
def freshValue (ty : Ty) (origin : POrigin) : ExploreM SymValue := fun ex =>
  if ty.isPtr then
    (.ptr (.mk (.unknown origin (some ex.provIds)) (.int ptrWidth 0) 1 none),
      { ex with provIds := ex.provIds + 1 })
  else if origin = .load then
    let (e, ex) := freshScalarNamed "fld" ty.typeWidth ex
    (.scalar e, ex)
  else
    let (e, ex) := freshScalar ty.typeWidth ex
    (.scalar e, ex)

end Csolver
