import Mathlib.Algebra.Order.Ring.Int
import Mathlib.Data.List.Basic

/-!
# Events of a thread (`crates/verifier/src/interleave.rs`)

A thread is a name and its events in program order. Locations, locks, objects and threads are named by
strings. The number of states that a search may visit is estimated from the lengths of the traces.
-/

namespace Csolver

namespace Interleave

inductive Event where
  | acquire (l : String)
  | release (l : String)
  | read (x : String)
  | depRead (x : String)
  | write (x : String)
  | rmw (x : String)
  | fence
  | wfence
  | rfence
  | spawn (name : String)
  | join
  | free (x : String)
  | cas (x : String)
  | refGet (x : String)
  | refPut (x : String)
  | typestate (s : String)
  deriving DecidableEq

structure Thread where
  name : String
  events : List Event
  deriving DecidableEq

/-- The location that an event writes. -/
def Event.writes : Event → Option String
  | .write x | .rmw x => some x
  | _ => none

/-- The location that an event reads. -/
def Event.reads : Event → Option String
  | .read x | .depRead x => some x
  | _ => none

/-- A read that may be taken out of order; the address of a dependent read has to be known first. -/
def Event.isPlainRead : Event → Bool
  | .read _ => true
  | _ => false

def Thread.written (t : Thread) : List String := t.events.filterMap Event.writes

def Thread.touched (t : Thread) : List String := t.events.filterMap fun e => e.reads.or e.writes

def spawnedNames (threads : List Thread) : List String :=
  threads.flatMap fun t => t.events.filterMap fun e => match e with
    | .spawn name => some name
    | _ => none

/-! ## Budgets -/

def u64Max : Nat := 2 ^ 64 - 1

def saturatingMul (a b : Nat) : Nat := min (a * b) u64Max

def saturatingPow (a n : Nat) : Nat := min (a ^ n) u64Max

def searchCeiling : Nat := 500000

def searchEstimate (perThreadEvents : List Nat) : Nat :=
  saturatingMul (perThreadEvents.foldl (fun product e => saturatingMul product (e + 1)) 1)
    (saturatingPow 4 perThreadEvents.length)

def searchBudget (perThreadEvents : List Nat) : Nat := min (searchEstimate perThreadEvents) searchCeiling

end Interleave

end Csolver
