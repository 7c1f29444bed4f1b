import Csolver.Ir.Layout

/-!
# Instructions, blocks and functions (`crates/ir/src/inst.rs`, `func.rs`)

The IR is strict SSA with block arguments: a block declares parameters and each branch to it passes
their values. Instructions that only annotate a program point for one of the checkers and define no
register (labels, capabilities, taint, typestate, barriers, safety checks) are `note`.
-/

namespace Csolver

abbrev FuncId := Nat

/-- The target of a call. -/
inductive Callee where
  | direct (id : FuncId)
  | symbol (name : String)
  | indirect (op : Operand)

inductive Inst where
  | assign (dst : RegId) (ty : Ty) (value : RValue)
  | load (dst : RegId) (ty : Ty) (ptr : Operand) (volatile : Bool)
  | store (ty : Ty) (ptr value : Operand) (volatile : Bool)
  | alloc (dst : RegId) (region : RegionKind) (elem : Ty) (count : Operand) (align : Nat)
  | dealloc (region : RegionKind) (ptr : Operand)
  | ptrOffset (dst : RegId) (base index : Operand) (elem : Ty)
  | fieldPtr (dst : RegId) (base : Operand)
  | call (dst : Option RegId) (callee : Callee) (args : List Operand)
  | asm (defs : List RegId)
  | intrinsic (dst : Option RegId) (name : String) (args : List Operand)
  | refWitness (dst : RegId) (size : Option Nat) (align : Nat) (writable assumed : Bool)
  | memIntrinsic (dst : Operand) (src : Option Operand) (len : Operand)
  | note

namespace Inst

/-- `defined_reg`. An inline assembly defines registers of its own that are not reported here. -/
def definedReg : Inst → Option RegId
  | assign dst _ _ | load dst _ _ _ | alloc dst _ _ _ _ | ptrOffset dst _ _ _ | fieldPtr dst _
  | refWitness dst _ _ _ _ => some dst
  | call dst _ _ | intrinsic dst _ _ => dst
  | store _ _ _ _ | dealloc _ _ | asm _ | memIntrinsic _ _ _ | note => none

/-- The registers that executing the instruction writes. -/
def writes : Inst → List RegId
  | asm defs => defs
  | i => i.definedReg.toList

end Inst

inductive Terminator where
  | ret (value : Option Operand)
  | br (target : BlockId) (args : List Operand)
  | condBr (cond : Operand) (thenBlk : BlockId) (thenArgs : List Operand) (elseBlk : BlockId)
      (elseArgs : List Operand)
  | switch (value : Operand) (cases : List (BitVector × BlockId)) (default : BlockId)
  | unreachable

namespace Terminator

def successors : Terminator → List BlockId
  | ret _ | unreachable => []
  | br target _ => [target]
  | condBr _ t _ e _ => [t, e]
  | switch _ cases default => cases.map (·.2) ++ [default]

/-- The successors with the arguments each is passed; those of a switch are passed none. -/
def edges : Terminator → List (BlockId × List Operand)
  | ret _ | unreachable => []
  | br target args => [(target, args)]
  | condBr _ t targs e eargs => [(t, targs), (e, eargs)]
  | switch _ cases default => cases.map (fun c => (c.2, [])) ++ [(default, [])]

theorem edges_fst (t : Terminator) : t.edges.map (·.1) = t.successors := by
  cases t <;> simp [edges, successors, Function.comp_def]

end Terminator

structure BasicBlock where
  id : BlockId
  params : List (RegId × Ty)
  insts : List Inst
  term : Terminator

structure Func where
  name : String
  params : List (RegId × Ty)
  retTy : Ty
  blocks : List BasicBlock
  entry : BlockId

namespace Func

/-- `Function::block`: the block at the position of its id if it is there, else the first with the
    id. -/
def block (f : Func) (id : BlockId) : Option BasicBlock :=
  match f.blocks[id]? with
  | some b => if b.id = id then some b else f.blocks.find? fun b => b.id = id
  | none => f.blocks.find? fun b => b.id = id

theorem block_spec {f : Func} {id : BlockId} {b : BasicBlock} (h : f.block id = some b) :
    b ∈ f.blocks ∧ b.id = id := by
  have hfind : f.blocks.find? (fun b => b.id = id) = some b → b ∈ f.blocks ∧ b.id = id := by
    intro hf
    exact ⟨List.mem_of_find?_eq_some hf, by simpa using List.find?_some hf⟩
  simp only [block] at h
  split at h
  · rename_i c hc
    split_ifs at h with hid
    · obtain rfl := Option.some.inj h
      exact ⟨List.mem_of_getElem? hc, hid⟩
    · exact hfind h
  · exact hfind h

end Func

end Csolver
