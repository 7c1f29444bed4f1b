import Csolver.Interleave.Event
import Csolver.Lib.Search
import Csolver.Lib.SortedMap
import Mathlib.Data.Vector.Basic

/-!
# The operational weak-memory model (`crates/verifier/src/interleave/weakmem.rs`)

Each thread has a store buffer for each location and a view of memory. Under weak memory a write goes to
the buffer; the head of a buffer may be flushed to the thread's own view and then reaches the other views
one by one; a plain read may be taken before earlier reads. With `weak = false` a write goes to all views
at once and events are taken in order.

The vectors of the source have one entry for each thread and are indexed by `Fin n`; its ordered maps are
lists of entries in order. The loop that numbers writes and reads is counted off, and `u32` numbers do not
run out.
-/

namespace Csolver

open Lib

namespace Interleave

namespace Weakmem

/-! ## States -/

/-- `Pending`: a write on its way to the views. -/
structure Pending (n : Nat) where
  writer : Fin n
  loc : String
  tag : Nat
  delivered : List.Vector Bool n
  deriving DecidableEq

structure OpState (n : Nat) where
  consumed : List.Vector (List Bool) n
  bufs : List.Vector (SortedMap String (List Nat)) n
  views : List.Vector (SortedMap String Nat) n
  pending : List (Pending n)
  held : List.Vector (List String) n
  spawned : List.Vector Bool n
  obs : SortedMap Nat Nat
  deriving DecidableEq

def takeable (events : List Event) (consumed : List Bool) (i : Nat) (reorder : Bool) : Bool :=
  match events[i]? with
  | none => false
  | some ev =>
    !consumed.getD i false && (List.range i).all fun j =>
      consumed.getD j false || ((events[j]?.bind Event.reads).isSome && (reorder && ev.isPlainRead))

section

variable {n : Nat} (st : OpState n) (t : Fin n)

def opRead (x : String) : Nat :=
  match ((st.bufs.get t).get x).bind List.getLast? with
  | some v => v
  | none => ((st.views.get t).get x).getD 0

def bufsEmpty : Bool := (st.bufs.get t).all fun e => e.2.isEmpty

def noPendingFrom : Bool := st.pending.all fun p => decide (p.writer ≠ t)

def noPendingTo : Bool := st.pending.all fun p => p.delivered.get t

/-- What both barriers and lock operations wait for. -/
def drained : Bool := bufsEmpty st t && noPendingFrom st t

end

/-! ## Programs -/

section

variable (threads : List Thread)

def indexOf (name : String) : Option (Fin threads.length) :=
  (List.finRange threads.length).find? fun t => decide ((threads.get t).name = name)

/-- The events that come before in the order of the threads. -/
def before (t : Fin threads.length) (i : Nat) : List Event :=
  (threads.take t).flatMap (·.events) ++ (threads.get t).events.take i

/-- `write_tag`: writes are numbered from 1. -/
def writeTag (t : Fin threads.length) (i : Nat) : Nat :=
  (before threads t i).countP (fun e => e.writes.isSome) + 1

def readId (t : Fin threads.length) (i : Nat) : Nat := (before threads t i).countP fun e => e.reads.isSome

def spawnTarget (t : Fin threads.length) : Event → Option (Fin threads.length)
  | .spawn name => (indexOf threads name).filter fun c => decide (c ≠ t)
  | _ => none

/-- `parent_of`: the last thread that spawns it. -/
def parentOf (c : Fin threads.length) : Option (Fin threads.length) :=
  (List.finRange threads.length).reverse.find? fun t =>
    (threads.get t).events.any fun e => decide (spawnTarget threads t e = some c)

/-! ## Steps -/

variable {threads} (st : OpState threads.length)

abbrev Label (n : Nat) := Fin n × String

/-- A flush: the head of a buffer goes to the thread's own view and starts to propagate. -/
def flush (t : Fin threads.length) (x : String) : Option (OpState threads.length) :=
  match (st.bufs.get t).get x with
  | some (v :: _) => some { st with
      bufs := st.bufs.set t ((st.bufs.get t).modify List.tail x)
      views := st.views.set t ((st.views.get t).insert x v)
      pending := st.pending ++ [⟨t, x, v, (List.Vector.replicate _ false).set t true⟩] }
  | _ => none

def flushes : List (Label threads.length × OpState threads.length) :=
  (List.finRange threads.length).flatMap fun t => ((st.bufs.get t).map Prod.fst).filterMap fun x =>
    (flush st t x).map fun ns => ((t, "flush " ++ x), ns)

/-- An earlier write of the same thread to the same location has to reach the view first. -/
def blocked (earlier : List (Pending threads.length)) (p : Pending threads.length) (u : Fin threads.length) :
    Bool :=
  earlier.any fun q => decide (q.writer = p.writer) && decide (q.loc = p.loc) && !q.delivered.get u

/-- Mark a write as delivered, and drop it once it has reached every view. -/
def deliver (pending : List (Pending threads.length)) (pi : Nat) (u : Fin threads.length) :
    List (Pending threads.length) :=
  match pending[pi]? with
  | none => pending
  | some p =>
    let p' := { p with delivered := p.delivered.set u true }
    if p'.delivered.toList.all id then pending.eraseIdx pi else pending.set pi p'

/-- A propagation: a write reaches a view. -/
def propagate (pi : Nat) (u : Fin threads.length) : Option (OpState threads.length × String) :=
  match st.pending[pi]? with
  | none => none
  | some p =>
    if p.delivered.get u || blocked (st.pending.take pi) p u then none
    else some ({ st with
      views := st.views.set u ((st.views.get u).insert p.loc p.tag)
      pending := deliver st.pending pi u }, p.loc)

def propagations : List (Label threads.length × OpState threads.length) :=
  (List.range st.pending.length).flatMap fun pi => (List.finRange threads.length).filterMap fun u =>
    (propagate st pi u).map fun ns => ((u, "observe " ++ ns.2), ns.1)

/-- A write enters the buffer of its location. -/
def pushBuf (m : SortedMap String (List Nat)) (x : String) (tag : Nat) : SortedMap String (List Nat) :=
  match m.get x with
  | some _ => m.modify (· ++ [tag]) x
  | none => m.insert x [tag]

variable (weak : Bool)

/-- Every thread that `t` has spawned is finished, with its writes in all views. -/
def childrenOk (t : Fin threads.length) : Bool :=
  (List.finRange threads.length).all fun c =>
    decide (parentOf threads c ≠ some t) || ((st.consumed.get c).all id && drained st c)

/-- The effect of an event, if it may be executed, with its label. -/
def perform (t : Fin threads.length) (i : Nat) : Event → Option (OpState threads.length × String)
  | .write x | .rmw x =>
    let tag := writeTag threads t i
    some (if weak then { st with bufs := st.bufs.set t (pushBuf (st.bufs.get t) x tag) }
      else { st with views := st.views.map fun m => m.insert x tag }, "write " ++ x)
  | .read x | .depRead x =>
    let v := opRead st t x
    some ({ st with obs := st.obs.insert (readId threads t i) v }, "read " ++ x ++ " -> " ++ toString v)
  | .fence => if drained st t && noPendingTo st t then some (st, "barrier") else none
  | .wfence => if drained st t then some (st, "barrier") else none
  | .rfence => some (st, "read-barrier")
  | .free x => some (st, "free " ++ x)
  | .cas x => some (st, "cas " ++ x)
  | .refGet x => some (st, "ref-get " ++ x)
  | .refPut x => some (st, "ref-put " ++ x)
  | .typestate _ => some (st, "typestate")
  | .spawn name =>
    if drained st t then
      some (match spawnTarget threads t (.spawn name) with
        | some c => { st with spawned := st.spawned.set c true }
        | none => st, "spawn " ++ name)
    else none
  | .join => if childrenOk st t && drained st t then some (st, "join") else none
  | .acquire l =>
    if (List.finRange threads.length).any (fun o => decide (o ≠ t) && decide (l ∈ st.held.get o)) || !drained st t
    then none
    else some ({ st with held := st.held.set t (st.held.get t ++ [l]) }, "acquire " ++ l)
  | .release l =>
    if drained st t then
      some ({ st with held := st.held.set t ((st.held.get t).filter fun h => decide (h ≠ l)) }, "release " ++ l)
    else none

/-- An event of a thread is executed. -/
def consume (t : Fin threads.length) (i : Nat) : Option (OpState threads.length × String) :=
  if st.spawned.get t && takeable (threads.get t).events (st.consumed.get t) i weak then
    ((threads.get t).events[i]?.bind (perform st weak t i)).map fun r =>
      ({ r.1 with consumed := r.1.consumed.set t ((r.1.consumed.get t).set i true) }, r.2)
  else none

def threadSteps : List (Label threads.length × OpState threads.length) :=
  (List.finRange threads.length).flatMap fun t => (List.range (threads.get t).events.length).filterMap fun i =>
    (consume st weak t i).map fun r => ((t, r.2), r.1)

/-- The states that are put on the stack. -/
def successors : List (Label threads.length × OpState threads.length) :=
  (if weak then flushes st ++ propagations st else []) ++ threadSteps st weak

/-- The observation of a state in which every event is executed and every write is in all views. -/
def terminal : Option (SortedMap Nat Nat) :=
  if (List.finRange threads.length).all (fun t => (st.consumed.get t).all id && bufsEmpty st t) &&
      st.pending.isEmpty then some st.obs
  else none

variable (threads) in
def initial : OpState threads.length where
  consumed := .ofFn fun t => List.replicate (threads.get t).events.length false
  bufs := .replicate _ []
  views := .replicate _ []
  pending := []
  held := .replicate _ []
  spawned := .ofFn fun t => (parentOf threads t).isNone
  obs := []

variable (threads) in
/-- `op_reachable` with a budget. -/
def opReachable (budget : Nat) : List (SortedMap Nat Nat × List (Label threads.length)) :=
  explore (fun st => successors st weak) terminal budget [(initial threads, [])] [] []

end

end Weakmem

end Interleave

end Csolver
