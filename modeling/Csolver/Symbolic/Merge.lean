import Csolver.Symbolic.Eval

/-!
# Joining path states (`exec/merge.rs`, `exec/mergecore.rs`)

A block with several incoming edges is entered once, in a state merged from the edges' states. A
block parameter becomes a chain of `ite`s over the edges' *discriminators*, an edge's discriminator
being the conjunction of its path condition and its guard; the last edge is the final `else`.
Everything else is taken from the first edge and cut down to what all edges share.
-/

namespace Csolver

/-- One incoming edge: the predecessor's state, the branch condition it was taken under, and the
    arguments it passes. -/
structure EdgeState where
  predState : PathState
  guard : Option Expr
  args : List Operand

/-- The condition under which control arrives by the edge. -/
def EdgeState.conds (e : EdgeState) : List Expr := e.predState.pathcond ++ e.guard.toList

def EdgeState.disc (e : EdgeState) : Expr := .mkAnd e.conds

/-! ## Values -/

/-- `gcd`, at least one. -/
def gcdAlign (a b : Nat) : Nat := max (Nat.gcd a b) 1

def joinBorrow (a b : SymPointer) : Option RegId := if a.borrow = b.borrow then a.borrow else none

/-- `select(d, a, b)`: `if d then a else b`, structurally. -/
def select (d : Expr) (a b : SymValue) (ty : Ty) : ExploreM SymValue := fun ex =>
  match a, b with
  | .scalar ea, .scalar eb => (.scalar (.mkIte d ea eb), ex)
  | .ptr pa, .ptr pb =>
    if pa.prov.same pb.prov then
      (.ptr (.mk pa.prov (.mkIte d pa.offset pb.offset) (gcdAlign pa.align pb.align)
        (joinBorrow pa pb)), ex)
    else if 8 ≤ max pa.prov.selectDepth pb.prov.selectDepth then
      (.ptr (.mk (.unknown .selectJoin none) (.int ptrWidth 0) 1 none), ex)
    else
      (.ptr (.mk (.select d pa pb) (.int ptrWidth 0) (gcdAlign pa.align pb.align)
        (joinBorrow pa pb)), ex)
  | _, _ => freshValue ty .selectJoin ex

/-- Per-edge values into one, as a right fold of `select`. -/
def mergeValues (ty : Ty) : List (Expr × SymValue) → ExploreM SymValue
  | [] => freshValue ty .phiFallback
  | [(_, v)] => pure v
  | (d, v) :: w :: vals => do
    let acc ← mergeValues ty (w :: vals)
    select d v acc ty

/-! ## States -/

/-- The common prefix of the region tables: equal sizes, live only if live on every edge. -/
def mergeRegions (edges : List EdgeState) : Nat → List SymRegion → List SymRegion
  | _, [] => []
  | i, r :: rs =>
    if edges.all fun e => (e.predState.regions[i]?.map (·.size)) = some r.size then
      let liveAll := edges.all fun e => (e.predState.regions[i]?.map (·.state)) = some .live
      { r with state := if liveAll then .live else .freed } :: mergeRegions edges (i + 1) rs
    else []

/-- The longest common prefix of the path conditions. -/
def mergePathcond (edges : List EdgeState) : Nat → List Expr → List Expr
  | _, [] => []
  | k, c :: cs =>
    if edges.all fun e => e.predState.pathcond[k]? = some c then
      c :: mergePathcond edges (k + 1) cs
    else []

/-- The part of a merge that is not about block parameters or the heap. -/
def mergeCore (first : EdgeState) (rest : List EdgeState) : PathState :=
  let edges := first :: rest
  let regions := mergeRegions edges 0 first.predState.regions
  { env := fun r => (first.predState.env r).map (sanitize regions.length)
    regions := regions
    pathcond := mergePathcond edges 0 first.predState.pathcond
    facts := first.predState.facts.filter fun f => edges.all fun e => f ∈ e.predState.facts
    heap := []
    exact := false }

/-! ## The heap -/

def sameAddr (a b : SymPointer) : Bool := a.prov.same b.prov && decide (a.offset = b.offset)

/-- The last store to the address `t`. -/
def lastFor (heap : List StoreRecord) (t : SymPointer) : Option StoreRecord :=
  heap.reverse.find? fun r => sameAddr r.target t

def regionKept (rcount : Nat) : Prov → Bool
  | .region rid => decide (rid < rcount)
  | _ => true

mutual

/-- Every region the provenance can denote survives the merge. -/
def Prov.regionsKept (rcount : Nat) : Prov → Bool
  | .region rid => decide (rid < rcount)
  | .select _ t e => t.regionsKept rcount && e.regionsKept rcount
  | _ => true

def SymPointer.regionsKept (rcount : Nat) : SymPointer → Bool
  | .mk p _ _ _ => p.regionsKept rcount

end

def SymValue.regionsKept (rcount : Nat) : SymValue → Bool
  | .scalar _ => true
  | .ptr p => p.regionsKept rcount

/-- The last store to `rec`'s address on every edge, if each edge has one of the same size. -/
def perEdge (rec : StoreRecord) (edges : List EdgeState) : Option (List (Expr × SymValue)) :=
  edges.mapM fun e =>
    match lastFor e.predState.heap rec.target with
    | some r => if r.size = rec.size then some (e.disc, r.value) else none
    | none => none

def heapTy : Ty := .ptr (.int 8)

/-- The loop of `merge_heap` over the first edge's stores, most recent first. -/
def mergeHeapFrom (edges : List EdgeState) (rcount : Nat) :
    List StoreRecord → List SymPointer → ExploreM (List StoreRecord)
  | [], _ => pure []
  | rec :: recs, done =>
    if done.any fun d => sameAddr d rec.target then mergeHeapFrom edges rcount recs done
    else
      let rest := mergeHeapFrom edges rcount recs (done ++ [rec.target])
      if regionKept rcount rec.target.prov then
        match perEdge rec edges with
        | some vals => do
          let value ← mergeValues heapTy vals
          let out ← rest
          return if value.regionsKept rcount then ⟨rec.target, value, rec.size⟩ :: out else out
        | none => rest
      else rest

def mergeHeap (first : EdgeState) (rest : List EdgeState) (rcount : Nat) :
    ExploreM (List StoreRecord) :=
  mergeHeapFrom (first :: rest) rcount first.predState.heap.reverse []

/-! ## Entering a block -/

/-- The argument an edge passes for the `j`-th parameter, or a fresh value if it passes none. -/
def argValue (j : Nat) (ty : Ty) (args : List Operand) (state : PathState) : ExploreM SymValue :=
  match args[j]? with
  | some a => evalValue a state
  | none => freshValue ty .phiFallback

/-- The discriminated values the edges pass for the `j`-th parameter. -/
def edgeValues (j : Nat) (ty : Ty) : List EdgeState → ExploreM (List (Expr × SymValue))
  | [] => pure []
  | e :: es => do
    let v ← argValue j ty e.args e.predState
    let vs ← edgeValues j ty es
    return (e.disc, v) :: vs

def PathState.setReg (st : PathState) (r : RegId) (v : SymValue) : PathState :=
  { st with env := fun q => if q = r then some v else st.env q }

/-- The merged value of the `j`-th parameter. -/
def mergeParam (edges : List EdgeState) (j : Nat) (pty : Ty) : ExploreM SymValue := do
  let vals ← edgeValues j pty edges
  mergeValues pty vals

/-- Merge the parameters from the `j`-th on into the environment. -/
def mergeParams (edges : List EdgeState) : Nat → List (RegId × Ty) → PathState → ExploreM PathState
  | _, [], st => pure st
  | j, (preg, pty) :: params, st => do
    let mv ← mergeParam edges j pty
    mergeParams edges (j + 1) params (st.setReg preg mv)

def mergeMulti (params : List (RegId × Ty)) (first : EdgeState) (rest : List EdgeState) :
    ExploreM PathState := do
  let merged := mergeCore first rest
  let heap ← mergeHeap first rest merged.regions.length
  mergeParams (first :: rest) 0 params { merged with heap := heap }

end Csolver
