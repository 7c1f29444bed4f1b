import Csolver.Cfg.Graph

/-!
# Dominator trees (`crates/cfg/src/dominators.rs`)

The iterative algorithm on immediate dominators: walk the nodes in reverse postorder, set each to the
nearest common ancestor of its predecessors in the tree so far, until a walk changes nothing.

`none` stands for what must not happen, a failed `expect` or a loop that does not end. The loops take
fuel; `Csolver.Cfg.DominatorsSound` shows that it never runs out.
-/

namespace Csolver

open Lib

/-- The partial tree `idom`: the root is its own parent. -/
abbrev IDom := Nat → Option Nat

namespace DomTree

def usizeMax : Nat := 2 ^ 64 - 1

def postNum (post : List Nat) (x : Nat) : Nat := if x ∈ post then post.idxOf x else usizeMax

/-- `while post_num[a] < limit { a = idom[a].expect(..) }`. -/
def climb (t : IDom) (num : Nat → Nat) (limit : Nat) : Nat → Nat → Option Nat
  | 0, _ => none
  | fuel + 1, a =>
    if num a < limit then do
      let a ← t a
      climb t num limit fuel a
    else some a

/-- The finger walk: the nearest common ancestor. -/
def intersect (t : IDom) (num : Nat → Nat) : Nat → Nat → Nat → Option Nat
  | 0, _, _ => none
  | fuel + 1, a, b =>
    if a = b then some a
    else do
      let a ← climb t num (num b) (fuel + 1) a
      let b ← climb t num (num a) (fuel + 1) b
      intersect t num fuel a b

/-- The loop over the predecessors of one node; those without a parent yet are passed over. -/
def newIdom (t : IDom) (num : Nat → Nat) (fuel : Nat) : List Nat → Option Nat → Option (Option Nat)
  | [], cur => some cur
  | p :: ps, cur =>
    if (t p).isSome then
      match cur with
      | none => newIdom t num fuel ps (some p)
      | some c => do
        let m ← intersect t num fuel p c
        newIdom t num fuel ps (some m)
    else newIdom t num fuel ps cur

/-- One node of a walk; the flag says whether anything changed. -/
def visit (pred : Adj) (root : Nat) (num : Nat → Nat) (fuel : Nat) (s : IDom × Bool) (b : Nat) :
    Option (IDom × Bool) :=
  if b = root then some s
  else do
    match ← newIdom s.1 num fuel (pred.row b) none with
    | none => some s
    | some ni => if s.1 b = some ni then some s else some (Function.update s.1 b (some ni), true)

def pass (pred : Adj) (root : Nat) (num : Nat → Nat) (fuel : Nat) (rpo : List Nat) (t : IDom) :
    Option (IDom × Bool) :=
  rpo.foldlM (visit pred root num fuel) (t, false)

/-- `while changed { .. }`. -/
def passes (pred : Adj) (root : Nat) (num : Nat → Nat) (fuel : Nat) (rpo : List Nat) :
    Nat → IDom → Option IDom
  | 0, _ => none
  | rounds + 1, t => do
    let (t, changed) ← pass pred root num fuel rpo t
    if changed then passes pred root num fuel rpo rounds t else some t

def build (numNodes root : Nat) (succ pred : Adj) : Option IDom :=
  if numNodes = 0 then some fun _ => none
  else do
    let post ← postorder root succ
    passes pred root (postNum post) (2 * numNodes + 1) post.reverse (numNodes * numNodes + 2)
      (Function.update (fun _ => none) root (some root))

/-- The loop of `dominates`. -/
def dominatesLoop (t : IDom) (a : Nat) : Nat → Nat → Option Bool
  | 0, _ => none
  | fuel + 1, x =>
    if x = a then some true
    else match t x with
      | some i => if i ≠ x then dominatesLoop t a fuel i else some false
      | none => some false

def dominates (numNodes : Nat) (t : IDom) (a b : Nat) : Option Bool :=
  if (t b).isNone then some false else dominatesLoop t a (numNodes + 1) b

end DomTree

def Dominators.new (cfg : Cfg) : Option IDom :=
  DomTree.build cfg.nodeCount cfg.entry cfg.succ cfg.pred

/-- Whether `a` dominates `b`, in the tree of `cfg`. -/
def Dominators.dominates (cfg : Cfg) (t : IDom) (a b : Nat) : Option Bool :=
  DomTree.dominates cfg.nodeCount t a b

namespace PostDominators

def virtualExit (cfg : Cfg) : Nat := cfg.nodeCount

/-- Every edge turned around, and the synthetic exit before every exit. -/
def revSucc (cfg : Cfg) : Adj := cfg.succ.reverse ++ [cfg.exits]

def revPred (cfg : Cfg) : Adj :=
  (List.range cfg.nodeCount).map (fun a =>
    cfg.succ.row a ++ if a ∈ cfg.exits then [virtualExit cfg] else []) ++ [[]]

def new (cfg : Cfg) : Option IDom :=
  DomTree.build (cfg.nodeCount + 1) (virtualExit cfg) (revSucc cfg) (revPred cfg)

def postDominates (cfg : Cfg) (t : IDom) (a b : Nat) : Option Bool :=
  DomTree.dominates (cfg.nodeCount + 1) t a b

end PostDominators

end Csolver
