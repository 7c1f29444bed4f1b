import Csolver.Symbolic.NullCheck
import Csolver.Ir.Layout
import Csolver.Lib.Memory

/-!
# Loads from the symbolic heap (`exec/loadrec.rs`)

The stores of a path are scanned from the most recent one on. The first that is not known to be
elsewhere decides: it supplies the value if it is known to be at the address, and else the value is
unknown.

The memory that a history of stores describes is a memory of objects: the regions are objects of their
own, and an opaque identity is a place in some object.
-/

namespace Csolver

open Lib

inductive AliasResult where
  | no | must | may
  deriving DecidableEq

/-- Where the value of a load comes from. -/
inductive LoadOrigin where
  | stored | uncertain | unwritten
  deriving DecidableEq

/-- `unwritten_reads`: the value that was given to an unwritten location, by object, offset and size. -/
abbrev UnwrittenReads := Nat × Nat × Nat → Option SymValue

section

variable (pr : Prover)

def Prover.prove (goal : Expr) (st : PathState) : Bool := pr.entails (st.pathcond ++ st.facts) goal

/-- `offsets_alias`, of two pointers into one object. -/
def offsetsAlias (a b : SymPointer) (sizea sizeb : Nat) (st : PathState) : AliasResult :=
  if decide (sizeb ≤ sizea) && pr.prove (.mkCmp .eq a.offset b.offset) st then .must
  else
    let aEnd := Expr.mkBin .add a.offset (.int ptrWidth sizea)
    let bEnd := Expr.mkBin .add b.offset (.int ptrWidth sizeb)
    if pr.prove (.mkCmp .sle aEnd b.offset) st || pr.prove (.mkCmp .sle bEnd a.offset) st then .no
    else .may

def aliasCheck (a b : SymPointer) (sizea sizeb : Nat) (st : PathState) : AliasResult :=
  match a.prov, b.prov with
  | .region r₁, .region r₂ => if r₁ = r₂ then offsetsAlias pr a b sizea sizeb st else .no
  | .unknown _ (some i₁), .unknown _ (some i₂) =>
    if i₁ = i₂ then offsetsAlias pr a b sizea sizeb st else .may
  | _, _ => .may

/-- The first store, from the most recent on, that is not known to be elsewhere. -/
def resolveStore (p : SymPointer) (asize : Nat) (st : PathState) : Option StoreRecord :=
  st.heap.reverse.find? fun r => aliasCheck pr r.target p r.size asize st ≠ .no

/-- Opaque identities are counted apart from the regions. -/
def opaqueNs : Nat := 2 ^ 48

def readBase : Prov → Option Nat
  | .region rid => some rid
  | .unknown _ (some i) => some (i ||| opaqueNs)
  | _ => none

def freshGenuineScalar (w : Nat) : ExploreM Expr := freshScalarNamed "user" w

def userControlled (p : SymPointer) (st : PathState) : Bool :=
  match p.prov with
  | .region rid => (st.regions[rid]?.map (·.userControlled)).getD false
  | _ => false

def loadUnwritten (p : SymPointer) (ty : Ty) (st : PathState) (cache : UnwrittenReads) :
    ExploreM (SymValue × LoadOrigin × UnwrittenReads) := do
  if userControlled p st && !ty.isPtr then
    return (.scalar (← freshGenuineScalar ty.typeWidth), .stored, cache)
  match readBase p.prov, p.offset.asConst with
  | some base, some off =>
    let key := (base, off.value, (ty.sizeBytes .lp64).getD 0 % 2 ^ 32)
    match cache key with
    | some v => return (v, .unwritten, cache)
    | none =>
      let v ← freshValue ty .load
      return (v, .unwritten, fun k => if k = key then some v else cache k)
  | _, _ => return (← freshValue ty .load, .unwritten, cache)

def loadValue (p : SymPointer) (asize : Nat) (ty : Ty) (st : PathState) (cache : UnwrittenReads) :
    ExploreM (SymValue × LoadOrigin × UnwrittenReads) :=
  match resolveStore pr p asize st with
  | some r =>
    match aliasCheck pr r.target p r.size asize st with
    | .must => return (r.value, .stored, cache)
    | _ => return (← freshValue ty .load, .uncertain, cache)
  | none => loadUnwritten p ty st cache

end

/-! ## The memory of a history -/

/-- The objects of a run: the regions, and whatever else opaque pointers point into. -/
inductive Obj where
  | null
  | region (rid : Nat)
  | other (n : Nat)
  deriving DecidableEq

abbrev Place := Obj × Nat

/-- Where each opaque identity points. -/
abbrev Placement := Nat → Place

mutual

/-- The place a provenance starts from. A pointer without identity may be anywhere. -/
def Prov.Loc (ρ : Valuation) (pl : Placement) : Prov → Place → Prop
  | .null, l => l = (.null, 0)
  | .region r, l => l = (.region r, 0)
  | .unknown _ (some i), l => l = pl i
  | .unknown _ none, _ => True
  | .select c t e, l => (c.Holds ρ → t.Loc ρ pl l) ∧ (¬ c.Holds ρ → e.Loc ρ pl l)

def SymPointer.Loc (ρ : Valuation) (pl : Placement) : SymPointer → Place → Prop
  | .mk p o _ _, l => ∃ b, p.Loc ρ pl b ∧ l = shift b (o.eval ρ)

end

/-- What is in a register or in memory: a number or a pointer. -/
inductive Content where
  | num (n : Nat)
  | ptr (l : Place)

/-- A byte of memory: of a number, or the `i`-th of a pointer. -/
inductive Byte where
  | num (b : Nat)
  | ptr (l : Place) (i : Nat)

/-- The bytes of a number, least significant first, and of a pointer. -/
def Content.byte : Content → Nat → Byte
  | num n, i => .num (n / 256 ^ i % 256)
  | ptr l, i => .ptr l i

def SymValue.Denotes (ρ : Valuation) (pl : Placement) : SymValue → Content → Prop
  | .scalar e, c => c = .num (e.eval ρ)
  | .ptr p, c => ∃ l, p.Loc ρ pl l ∧ c = .ptr l

abbrev Mem := Place → Byte

/-- The memory after the stores of a history, in order. -/
inductive Written (ρ : Valuation) (pl : Placement) (μ : Mem) : List StoreRecord → Mem → Prop
  | nil : Written ρ pl μ [] μ
  | snoc {heap : List StoreRecord} {r : StoreRecord} {μ' : Mem} {l : Place} {c : Content} :
      Written ρ pl μ heap μ' → r.target.Loc ρ pl l → r.value.Denotes ρ pl c →
      Written ρ pl μ (heap ++ [r]) (write μ' l r.size c.byte)

/-- The `n` bytes at `l` are those of the value. -/
def Contains (ρ : Valuation) (pl : Placement) (μ : Mem) (l : Place) (n : Nat) (v : SymValue) : Prop :=
  ∃ c, v.Denotes ρ pl c ∧ ∀ i < n, μ (shift l i) = c.byte i

end Csolver
