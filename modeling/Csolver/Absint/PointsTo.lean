import Mathlib.Data.Finset.Card
import Mathlib.Tactic.Linarith

/-!
# The points-to solver (`PointsTo` of `crates/absint/src/pointsto.rs`)

Inclusion constraints between sets of nodes, solved with a worklist. Which item is taken next and in
which order sets are run through depends on hashing, so that a run is any sequence of steps of a
relation. The nodes that exist before solving keep their numbers; a field cell that is created while
solving is named by its object and offset instead of by the next number, since that depends on the
order too.
-/

namespace Csolver

namespace PointsTo

/-- A node: one that was declared, or a field cell created by the solver. -/
inductive Node where
  | given (n : Nat)
  | cell (obj : Node) (off : Nat)
  deriving DecidableEq

/-- The object that stands for an unknown target. -/
def top : Node := .given 0

/-- The reserved offset of an access to an unknown field. -/
def anyOffset : Nat := 2 ^ 64 - 1

def maxPtsSet : Nat := 64

def maxNodes : Nat := 10000000

/-- The constraints, with the field cells and the poisoned objects there are before solving. Nodes are
    handed out by `fresh`, so that only declared ones occur. -/
structure Constraints where
  nodes : Nat
  /-- `(p, obj)`: `p = &obj`. -/
  addr : List (Nat × Nat)
  /-- `(dst, src)`: `dst = src`. -/
  copy : List (Nat × Nat)
  /-- `(dst, src, off)`: `dst = &src->field`. -/
  gep : List (Nat × Nat × Nat)
  /-- `(dst, src)`: `dst = *src`. -/
  load : List (Nat × Nat)
  /-- `(value, ptr)`: `*ptr = value`. -/
  store : List (Nat × Nat)
  /-- `((obj, off), cell)`. -/
  fieldCell : List ((Nat × Nat) × Nat)
  poisoned : List Nat
  nodes_pos : 0 < nodes
  addr_lt : ∀ c ∈ addr, c.1 < nodes ∧ c.2 < nodes
  copy_lt : ∀ c ∈ copy, c.1 < nodes ∧ c.2 < nodes
  gep_lt : ∀ c ∈ gep, c.1 < nodes ∧ c.2.1 < nodes
  load_lt : ∀ c ∈ load, c.1 < nodes ∧ c.2 < nodes
  store_lt : ∀ c ∈ store, c.1 < nodes ∧ c.2 < nodes
  cell_lt : ∀ c ∈ fieldCell, c.1.1 < nodes ∧ c.2 < nodes
  cell_nodup : (fieldCell.map Prod.fst).Nodup
  poisoned_lt : ∀ o ∈ poisoned, o < nodes

/-- The solver between two steps; `edges` is `copy_to`, by source and destination. -/
structure State where
  pts : Node → Finset Node
  created : Finset (Node × Nat)
  poisoned : Finset Node
  saturated : Finset Node
  edges : Finset (Node × Node)
  work : Finset Node

variable (P : Constraints)

/-- A field cell that exists before solving. -/
def givenCell (o : Node) (off : Nat) : Option Node :=
  (P.fieldCell.find? fun c => decide (Node.given c.1.1 = o) && decide (c.1.2 = off)).map fun c => .given c.2

/-- The interned cell of a field, if there is one. -/
def lookup (s : State) (o : Node) (off : Nat) : Option Node :=
  match givenCell P o off with
  | some c => some c
  | none => if (o, off) ∈ s.created then some (.cell o off) else none

/-- Whether the node is a field cell of the object. -/
def isCellOf (s : State) (o x : Node) : Bool :=
  P.fieldCell.any (fun c => decide (Node.given c.1.1 = o) && decide (Node.given c.2 = x)) ||
    match x with
    | .cell o' off => decide (o' = o) && decide ((o', off) ∈ s.created)
    | .given _ => false

/-- `poison`: every field cell of the object, and the object itself, may point anywhere. -/
def poison (s : State) (o : Node) : State :=
  if o = top ∨ o ∈ s.poisoned then s
  else
    { s with
      poisoned := insert o s.poisoned
      pts := fun x => if x = o ∨ isCellOf P s o x = true then insert top (s.pts x) else s.pts x }

def full (s : State) : Prop := maxNodes ≤ P.nodes + s.created.card

instance (s : State) : Decidable (full P s) := inferInstanceAs (Decidable (_ ≤ _))

def internField (s : State) (o : Node) (off : Nat) : Node × State :=
  if o = top then (top, s)
  else if off = anyOffset then (top, poison P s o)
  else if off = 0 then (o, s)
  else match lookup P s o off with
    | some c => (c, s)
    | none =>
      if full P s then (top, s)
      else
        (.cell o off, { s with
          created := insert (o, off) s.created
          pts := if o ∈ s.poisoned
            then Function.update s.pts (.cell o off) (insert top (s.pts (.cell o off))) else s.pts })

def saturate (s : State) (dst : Node) : State :=
  if maxPtsSet < (s.pts dst).card then
    { s with pts := Function.update s.pts dst {top}, saturated := insert dst s.saturated }
  else s

/-- What `add` and `union` do, and the push that follows when they report a change. -/
def grow (s : State) (dst : Node) (new : Finset Node) : State :=
  if dst ∈ s.saturated ∨ new ⊆ s.pts dst then s
  else
    let s := saturate { s with pts := Function.update s.pts dst (s.pts dst ∪ new) } dst
    { s with work := insert dst s.work }

def add (s : State) (dst obj : Node) : State := grow s dst {obj}

def union (s : State) (dst src : Node) : State := grow s dst (s.pts src)

def gepStep (dst : Node) (off : Nat) (s : State) (o : Node) : State :=
  let (c, s) := internField P s o off
  add s dst c

/-- One target of the pointer of a load: a copy edge from it, and what it holds now. -/
def loadStep (dst : Node) (s : State) (o : Node) : State :=
  if (o, dst) ∈ s.edges then s else union { s with edges := insert (o, dst) s.edges } dst o

/-- One target of the pointer of a store. -/
def storeStep (value : Node) (s : State) (o : Node) : State :=
  if (value, o) ∈ s.edges then s else union { s with edges := insert (value, o) s.edges } o value

def copyStep (n : Node) (s : State) (dst : Node) : State := union s dst n

/-- The destinations and offsets of the geps from `n`. -/
def gepsOf (n : Node) : List (Node × Nat) :=
  (P.gep.filter fun c => Node.given c.2.1 = n).map fun c => (.given c.1, c.2.2)

def loadsOf (n : Node) : List Node := (P.load.filter fun c => Node.given c.2 = n).map fun c => .given c.1

def storesOf (n : Node) : List Node := (P.store.filter fun c => Node.given c.2 = n).map fun c => .given c.1

/-- The first three loops of an item, over its targets in some order. -/
def constrain (s : State) (n : Node) (targets : List Node) : State :=
  let s := { s with work := s.work.erase n }
  let s := (gepsOf P n).foldl (fun s e => targets.foldl (gepStep P e.1 e.2) s) s
  let s := (loadsOf P n).foldl (fun s dst => targets.foldl (loadStep dst) s) s
  (storesOf P n).foldl (fun s v => targets.foldl (storeStep v) s) s

/-- A work item, with its targets and then its copy edges in some order. -/
def process (s : State) (n : Node) (targets dsts : List Node) : State :=
  dsts.foldl (copyStep n) (constrain P s n targets)

/-- Taking any item off the list. -/
inductive Step : State → State → Prop
  | item {s : State} {n : Node} {targets dsts : List Node} : n ∈ s.work →
      targets.toFinset = s.pts n → (∀ d, d ∈ dsts ↔ (n, d) ∈ (constrain P s n targets).edges) →
      Step s (process P s n targets dsts)

/-- The poisoned objects and their cells point to TOP before solving. -/
def initial : State where
  pts x := if P.poisoned.any (fun o => decide (o ≠ 0) && (decide (x = .given o) ||
    P.fieldCell.any fun c => decide (c.1.1 = o) && decide (x = .given c.2))) then {top} else ∅
  created := ∅
  poisoned := ((P.poisoned.filter (· ≠ 0)).map Node.given).toFinset
  saturated := ∅
  edges := (P.copy.map fun c => (Node.given c.2, Node.given c.1)).toFinset
  work := ∅

/-- The state before the loop: the addresses are added, and every node that points somewhere waits. -/
def start : State :=
  let s := P.addr.foldl (fun s c => add s (.given c.1) (.given c.2)) (initial P)
  { s with work := s.work ∪
      ((Finset.range P.nodes).image Node.given).filter fun x => s.pts x ≠ ∅ }

end PointsTo

end Csolver
