import Csolver.Lib.Swap
import Csolver.Core.F64
import Mathlib.Data.List.Sort

/-!
# The CDCL core (`crates/solver/src/sat.rs`, `sat_learn.rs`)

The solver state and every operation of it, state passed explicitly. Vectors the source indexes by
variable (`assign`, `level`, `reason`, `seen`, `activity`) and by literal code (`watches`) are
functions; the clause store and the trail are lists, since their lengths are read. `prop_queue` is
only pushed and popped, so its head is the top of the stack.

Two loops of the source have no structural bound: `propagate`'s `while let` and the conflict loop
of `solve`. They take fuel and answer `none` when it runs out, as `analyze` does where the source
would underflow an index. The wall clock is an arbitrary sequence of answers (`Clock`).
-/

namespace Csolver.Sat

open Csolver.Lib Csolver.Core

/-- A boolean literal: a variable together with a polarity. -/
structure Lit where
  var : Nat
  neg : Bool
  deriving DecidableEq, Inhabited

namespace Lit

def pos (v : Nat) : Lit := ⟨v, false⟩

def negated (l : Lit) : Lit := ⟨l.var, !l.neg⟩

end Lit

/-- `lit_code`: `2 * var + polarity`, the key of the watch lists. -/
def litCode (l : Lit) : Nat := 2 * l.var + l.neg.toNat

inductive SatResult where
  | sat (m : List Bool)
  | unsat
  | unknown
  deriving DecidableEq

def defaultBudget : Nat := 200000
def activityRescaleLimit : F64 := .fin (10 ^ 100)
def initialRestartUnit : Nat := 50
def minLearntLimit : Nat := 100

structure Solver where
  numVars : Nat
  clauses : List (List Lit)
  watches : Nat → List Nat
  assign : Nat → Option Bool
  level : Nat → Nat
  reason : Nat → Option Nat
  trail : List Nat
  trailLim : List Nat
  propQueue : List Nat
  seen : Nat → Bool
  activity : Nat → F64
  varInc : F64
  conflictsSinceRestart : Nat
  lubyU : Nat
  lubyV : Nat
  restartUnit : Nat
  restarts : Nat
  numOriginal : Nat
  lbd : List Nat
  maxLearnt : Nat
  reductions : Nat

/-- `watches[code].push(ci)`. -/
def pushWatch (w : Nat → List Nat) (code ci : Nat) : Nat → List Nat :=
  Function.update w code (w code ++ [ci])

/-- Watch the first two literals of a clause of length at least two. -/
def watchClause (w : Nat → List Nat) (ci : Nat) (c : List Lit) : Nat → List Nat :=
  match c with
  | a :: b :: _ => pushWatch (pushWatch w (litCode a) ci) (litCode b) ci
  | _ => w

def Solver.new (numVars : Nat) (clauses : List (List Lit)) : Solver where
  numVars := numVars
  clauses := clauses
  watches := clauses.zipIdx.foldl (fun w p => watchClause w p.2 p.1) fun _ => []
  assign := fun _ => none
  level := fun _ => 0
  reason := fun _ => none
  trail := []
  trailLim := []
  propQueue := []
  seen := fun _ => false
  activity := fun _ => .fin 0
  varInc := .fin 1
  conflictsSinceRestart := 0
  lubyU := 1
  lubyV := 1
  restartUnit := initialRestartUnit
  restarts := 0
  numOriginal := clauses.length
  lbd := clauses.map fun _ => 0
  maxLearnt := max (clauses.length / 3) minLearntLimit
  reductions := 0

namespace Solver

def decisionLevel (s : Solver) : Nat := s.trailLim.length

def litValue (s : Solver) (l : Lit) : Option Bool := (s.assign l.var).map fun b => b != l.neg

/-- The literal of `v` that is false under the current assignment. -/
def falseLit (s : Solver) (v : Nat) : Lit := ⟨v, s.assign v == some true⟩

/-- The clause at `ci`; the source indexes, and every index it uses is in range. -/
def clause (s : Solver) (ci : Nat) : List Lit := s.clauses.getD ci []

def swapLits (s : Solver) (ci i j : Nat) : Solver :=
  { s with clauses := s.clauses.modify ci fun c => swapAt c i j }

/-- `enqueue`: assign `l` to true if its variable is free; `false` on a direct conflict. -/
def enqueue (s : Solver) (l : Lit) (reason : Option Nat) : Bool × Solver :=
  match s.assign l.var with
  | some b => (b != l.neg, s)
  | none =>
    (true, { s with
      assign := Function.update s.assign l.var (some !l.neg)
      level := Function.update s.level l.var s.decisionLevel
      reason := Function.update s.reason l.var reason
      trail := s.trail ++ [l.var]
      propQueue := l.var :: s.propQueue })

/-- The first literal beyond the two watches that is not false. -/
def replacement (s : Solver) (ci : Nat) : Option Nat :=
  (List.range' 2 ((s.clause ci).length - 2)).find? fun k =>
    match (s.clause ci)[k]? with
    | some l => s.litValue l != some false
    | none => false

/-- What the walk over one watch list carries: the solver, the retained watchers and the conflict. -/
structure Scan where
  solver : Solver
  keep : List Nat
  conflict : Option Nat

/-- One watcher of the false literal `fl`: normalise, then satisfied / slide the watch / unit /
    conflict, in the source's order. -/
def visitWatcher (fl : Lit) (w : Scan) (ci : Nat) : Scan :=
  if w.conflict.isSome then { w with keep := w.keep ++ [ci] } else
  let s := if (w.solver.clause ci)[0]? = some fl then w.solver.swapLits ci 0 1 else w.solver
  match (s.clause ci)[0]? with
  | none => { w with keep := w.keep ++ [ci] }
  | some other =>
    if s.litValue other = some true then { w with solver := s, keep := w.keep ++ [ci] } else
    match s.replacement ci with
    | some k =>
      let s := s.swapLits ci 1 k
      match (s.clause ci)[1]? with
      | some l => { w with solver := { s with watches := pushWatch s.watches (litCode l) ci } }
      | none => { w with solver := s }
    | none =>
      match s.litValue other with
      | some false => { solver := s, keep := w.keep ++ [ci], conflict := some ci }
      | none => { w with solver := (s.enqueue other (some ci)).2, keep := w.keep ++ [ci] }
      | some true => { w with solver := s, keep := w.keep ++ [ci] }

/-- Process one popped variable: walk the watch list of the literal that just became false. -/
def propagateVar (s : Solver) (v : Nat) : Solver × Option Nat :=
  let fl := s.falseLit v
  let watchers := s.watches (litCode fl)
  let s := { s with watches := Function.update s.watches (litCode fl) [] }
  let w := watchers.foldl (visitWatcher fl) ⟨s, [], none⟩
  ({ w.solver with watches := Function.update w.solver.watches (litCode fl) w.keep }, w.conflict)

def propagateLoop : Nat → Solver → Option (Solver × Option Nat)
  | 0, _ => none
  | fuel + 1, s =>
    match s.propQueue with
    | [] => some (s, none)
    | v :: q =>
      match propagateVar { s with propQueue := q } v with
      | (s, some ci) => some (s, some ci)
      | (s, none) => propagateLoop fuel s

/-- `propagate`: every pop is paid for by a queued or a still unassigned variable. -/
def propagate (s : Solver) : Option (Solver × Option Nat) :=
  propagateLoop (s.propQueue.length + s.numVars + 1) s

/-! ## Conflict analysis -/

/-- The scratch state of `analyze`; `lower` is `learnt[1..]`. -/
structure Scratch where
  seen : Nat → Bool
  lower : List Lit
  counter : Nat

/-- One literal of the clause being resolved in. -/
def resolveLit (s : Solver) (d : Nat) (pivot : Option Nat) (r : Scratch) (l : Lit) : Scratch :=
  if some l.var = pivot then r
  else if !r.seen l.var && decide (0 < s.level l.var) then
    let r := { r with seen := Function.update r.seen l.var true }
    if s.level l.var = d then { r with counter := r.counter + 1 }
    else { r with lower := r.lower ++ [l] }
  else r

/-- Walk the trail back below `idx` to the most recent marked variable; `none` is the index
    underflow of the source. -/
def walkBack (seen : Nat → Bool) (trail : List Nat) : Nat → Option Nat
  | 0 => none
  | i + 1 => if seen (trail.getD i 0) then some i else walkBack seen trail i

/-- The resolution loop: the unique implication point and the scratch state it leaves. -/
def analyzeLoop (s : Solver) (d : Nat) :
    Nat → Option Nat → Nat → Nat → Scratch → Option (Nat × Scratch)
  | 0, _, _, _, _ => none
  | fuel + 1, pivot, confl, idx, r =>
    let r := (s.clause confl).foldl (resolveLit s d pivot) r
    match walkBack r.seen s.trail idx with
    | none => none
    | some i =>
      let tv := s.trail.getD i 0
      let r := { r with seen := Function.update r.seen tv false }
      match r.counter with
      | 0 => none
      | 1 => some (tv, { r with counter := 0 })
      | n + 2 =>
        match s.reason tv with
        | some c => analyzeLoop s d fuel (some tv) c i { r with counter := n + 1 }
        | none => some (tv, { r with seen := fun _ => false, counter := n + 1 })

/-- The index of the highest-level literal of `lits` at or after `i`, first one on ties. -/
def maxLevelFrom (s : Solver) (lits : List Lit) : List Nat → Nat → Nat
  | [], best => best
  | i :: is, best =>
    if s.level (lits.getD best default).var < s.level (lits.getD i default).var
    then maxLevelFrom s lits is i else maxLevelFrom s lits is best

def bumpVar (rd : Rounding) (s : Solver) (v : Nat) : Solver :=
  let a := rd.add (s.activity v) s.varInc
  let s := { s with activity := Function.update s.activity v a }
  if a.gt activityRescaleLimit then
    { s with
      activity := fun u => rd.mul (s.activity u) (rd.round (1 / 10 ^ 100))
      varInc := rd.mul s.varInc (rd.round (1 / 10 ^ 100)) }
  else s

/-- `1.0 / VAR_DECAY`; the quotient is a compile-time constant of the source. -/
def invVarDecay (rd : Rounding) : F64 := rd.round (1 / (95 / 100))

def decayVarInc (rd : Rounding) (s : Solver) : Solver :=
  { s with varInc := rd.mul s.varInc (invVarDecay rd) }

/-- `analyze`: the learnt clause (asserting literal first), the backjump level and the LBD. -/
def analyze (rd : Rounding) (s : Solver) (confl : Nat) :
    Option ((List Lit × Nat × Nat) × Solver) :=
  let d := s.decisionLevel
  match analyzeLoop s d (s.trail.length + 1) none confl s.trail.length ⟨s.seen, [], 0⟩ with
  | none => none
  | some (uip, r) =>
    let learnt := s.falseLit uip :: r.lower
    let learnt :=
      if 2 ≤ learnt.length then
        swapAt learnt 1 (s.maxLevelFrom learnt (List.range' 2 (learnt.length - 2)) 1)
      else learnt
    let btlevel :=
      if 2 ≤ learnt.length then s.level (learnt.getD 1 default).var else 0
    let t := learnt.foldl (fun t l => bumpVar rd t l.var) { s with seen := r.seen }
    let t := decayVarInc rd t
    let t := { t with seen := learnt.tail.foldl (fun f l => Function.update f l.var false) t.seen }
    some ((learnt, btlevel, ((learnt.map fun l => t.level l.var).dedup).length), t)

/-- `add_learnt`: returns the new clause index. -/
def addLearnt (s : Solver) (learnt : List Lit) (lbd : Nat) : Nat × Solver :=
  let ci := s.clauses.length
  (ci, { s with
    watches := watchClause s.watches ci learnt
    clauses := s.clauses ++ [learnt]
    lbd := s.lbd ++ [lbd] })

/-- `backtrack_to`: undo every assignment made above decision level `level`. -/
def backtrackTo (s : Solver) (level : Nat) : Solver :=
  if s.decisionLevel ≤ level then s else
  let target := s.trailLim.getD level 0
  { s with
    assign := (s.trail.drop target).foldr (fun v a => Function.update a v none) s.assign
    trail := s.trail.take target
    trailLim := s.trailLim.take level
    propQueue := [] }

/-- The running best of `pick_branch`: the variable and its activity. -/
def pickStep (s : Solver) (best : Option Nat × F64) (v : Nat) : Option Nat × F64 :=
  if (s.assign v).isNone && (s.activity v).gt best.2 then (some v, s.activity v) else best

def pickBranch (s : Solver) : Option Nat :=
  ((List.range s.numVars).foldl (pickStep s) (none, .negInf)).1

def model (s : Solver) : List Bool :=
  (List.range s.numVars).map fun v => (s.assign v).getD false

/-! ## Restarts and clause deletion -/

/-- `advance_luby`: Knuth's reluctant doubling, on 64-bit words. -/
def advanceLuby (s : Solver) : Solver :=
  if Nat.land s.lubyU ((2 ^ 64 - s.lubyU % 2 ^ 64) % 2 ^ 64) = s.lubyV then
    { s with lubyU := s.lubyU + 1, lubyV := 1 }
  else { s with lubyV := s.lubyV * 2 }

/-- The first position in `ks` of clause `ci` that is not false. -/
def findNonFalse (s : Solver) (ci : Nat) (ks : List Nat) : Option Nat :=
  ks.find? fun k =>
    match (s.clause ci)[k]? with
    | some l => s.litValue l != some false
    | none => false

def reorderWatches (s : Solver) (ci : Nat) : Solver :=
  let len := (s.clause ci).length
  let s := match s.findNonFalse ci (List.range' 0 len) with
    | some k => s.swapLits ci 0 k
    | none => s
  match s.findNonFalse ci (List.range' 1 (len - 1)) with
  | some k => s.swapLits ci 1 k
  | none => s

def rebuildStep (s : Solver) (ci : Nat) : Solver :=
  if 2 ≤ (s.clause ci).length then
    let s := s.reorderWatches ci
    { s with watches := watchClause s.watches ci (s.clause ci) }
  else s

def rebuildWatches (s : Solver) : Solver :=
  (List.range s.clauses.length).foldl rebuildStep { s with watches := fun _ => [] }

/-- The reason clause of some currently assigned variable. -/
def locked (s : Solver) (ci : Nat) : Bool := s.trail.any fun v => s.reason v == some ci

/-- The deletable learnt clauses, worst (highest LBD) first. -/
def candidates (s : Solver) : List Nat :=
  ((List.range' s.numOriginal (s.clauses.length - s.numOriginal)).filter fun ci =>
    decide (2 < s.lbd.getD ci 0) && !s.locked ci).mergeSort
    fun a b => decide (s.lbd.getD b 0 ≤ s.lbd.getD a 0)

def reduceDb (s : Solver) : Solver :=
  let removeCount := s.candidates.length / 2
  if removeCount = 0 then s else
  let remove := s.candidates.take removeCount
  let kept := (List.range s.clauses.length).filter fun ci => !remove.contains ci
  let t := { s with
    clauses := kept.map s.clause
    lbd := kept.map fun ci => s.lbd.getD ci 0
    reason := fun v =>
      match s.reason v with
      | some r => if (s.assign v).isSome then some (kept.idxOf r) else some r
      | none => none }
  let t := t.rebuildWatches
  { t with reductions := t.reductions + 1 }

/-- The restart at the head of `solve`'s loop, with the database reduction it may trigger. -/
def maybeRestart (s : Solver) : Solver :=
  if 0 < s.decisionLevel ∧ s.restartUnit * s.lubyV ≤ s.conflictsSinceRestart then
    let s := s.backtrackTo 0
    let s := { s with conflictsSinceRestart := 0, restarts := s.restarts + 1 }
    let s := s.advanceLuby
    if s.maxLearnt < s.clauses.length - s.numOriginal then
      let s := s.reduceDb
      { s with maxLearnt := s.maxLearnt + s.maxLearnt / 2 }
    else s
  else s

end Solver

/-! ## The main loop -/

/-- The wall clock: `expired n` is the answer of the `n`-th read, `ticks` the calls since the last. -/
structure Clock where
  expired : Nat → Bool
  ticks : Nat
  reads : Nat

/-- `timed_out`, reading the clock every 8192 calls. -/
def Clock.timedOut (k : Clock) : Bool × Clock :=
  if 8192 ≤ k.ticks + 1 then (k.expired k.reads, { k with ticks := 0, reads := k.reads + 1 })
  else (false, { k with ticks := k.ticks + 1 })

namespace Solver

/-- How the conflict loop leaves: with a verdict, or quiescent. -/
inductive Outcome where
  | ret (r : SatResult)
  | quiet (s : Solver) (k : Clock)

/-- Propagate; on each conflict learn a first-UIP clause and backjump. -/
def conflictLoop (rd : Rounding) : Nat → Solver → Clock → Option Outcome
  | 0, _, _ => none
  | fuel + 1, s, k =>
    match s.propagate with
    | none => none
    | some (s, none) => some (.quiet s k)
    | some (s, some confl) =>
      if s.trailLim = [] then some (.ret .unsat) else
      match k.timedOut with
      | (true, _) => some (.ret .unknown)
      | (false, k) =>
        match s.analyze rd confl with
        | none => none
        | some ((learnt, btlevel, lbd), s) =>
          let s := s.backtrackTo btlevel
          let (ci, s) := s.addLearnt learnt lbd
          let s := match (s.clause ci)[0]? with
            | some l => (s.enqueue l (some ci)).2
            | none => s
          conflictLoop rd fuel { s with conflictsSinceRestart := s.conflictsSinceRestart + 1 } k

/-- Open a decision level and decide `v = true`. -/
def decideVar (s : Solver) (v : Nat) : Solver :=
  ({ s with trailLim := s.trailLim ++ [s.trail.length] }.enqueue (.pos v) none).2

def solveLoop (rd : Rounding) : Nat → Solver → Clock → Option SatResult
  | budgetLeft, s, k =>
    let s := s.maybeRestart
    match s.pickBranch with
    | none => some (.sat s.model)
    | some v =>
      match budgetLeft with
      | 0 => some .unknown
      | budgetLeft + 1 =>
        match k.timedOut with
        | (true, _) => some .unknown
        | (false, k) =>
          let s := s.decideVar v
          match conflictLoop rd (s.decisionLevel + 1) s k with
          | none => none
          | some (.ret r) => some r
          | some (.quiet s k) => solveLoop rd budgetLeft s k

/-- Seed propagation from the unit clauses; `none` is the immediate refutation. -/
def seedUnits : Nat → List (List Lit) → Solver → Option Solver
  | _, [], s => some s
  | _, [] :: _, _ => none
  | ci, [l] :: cs, s =>
    match s.enqueue l (some ci) with
    | (true, s) => seedUnits (ci + 1) cs s
    | (false, _) => none
  | ci, (_ :: _ :: _) :: cs, s => seedUnits (ci + 1) cs s

/-- `solve` under a decision budget and a wall clock. -/
def solve (rd : Rounding) (s : Solver) (budget : Nat) (expired : Nat → Bool) : Option SatResult :=
  match seedUnits 0 s.clauses s with
  | none => some .unsat
  | some s =>
    match s.propagate with
    | none => none
    | some (_, some _) => some .unsat
    | some (s, none) => solveLoop rd budget s ⟨expired, 0, 0⟩

end Solver

end Csolver.Sat
