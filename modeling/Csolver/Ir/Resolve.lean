import Csolver.Cfg.OfFunc

/-!
# Resolving symbols

The address of a global is fixed when the program is linked. Until then an operand that names one may stand
for any value in an execution (`Operand.Evals`); executions in which it stands for one address are those of
the function with its symbols resolved.
-/

namespace Csolver

def addressOf (a : Int) : BitVector :=
  ⟨64, (a % 2 ^ 64).toNat, BitVector.pos64, BitVector.le64, by
    have h := Int.emod_lt_of_pos a (show (0 : Int) < 2 ^ 64 by decide)
    have h' := Int.emod_nonneg a (show (2 : Int) ^ 64 ≠ 0 by decide)
    omega⟩

section

variable (addr : String → Nat)

def Const.resolve : Const → Const
  | .symbol name => .int (addressOf (addr name))
  | .symbolOffset name off => .int (addressOf (addr name + off))
  | c => c

def Operand.resolve : Operand → Operand
  | .reg r => .reg r
  | .const c => .const (c.resolve addr)

def RValue.resolve : RValue → RValue
  | .use op => .use (op.resolve addr)
  | .bin op a b => .bin op (a.resolve addr) (b.resolve addr)
  | .cmp op a b => .cmp op (a.resolve addr) (b.resolve addr)
  | .cast op a => .cast op (a.resolve addr)
  | .select c a b => .select (c.resolve addr) (a.resolve addr) (b.resolve addr)

/-- What memory and calls are given has no part in an execution of registers, except for the addresses
    computed from it. -/
def Inst.resolve : Inst → Inst
  | .assign dst ty value => .assign dst ty (value.resolve addr)
  | .ptrOffset dst base index elem => .ptrOffset dst (base.resolve addr) (index.resolve addr) elem
  | .load dst ty ptr volatile => .load dst ty (ptr.resolve addr) volatile
  | .store ty ptr value volatile => .store ty (ptr.resolve addr) (value.resolve addr) volatile
  | .alloc dst region elem count align => .alloc dst region elem (count.resolve addr) align
  | .dealloc region ptr => .dealloc region (ptr.resolve addr)
  | .fieldPtr dst base => .fieldPtr dst (base.resolve addr)
  | .call dst callee args => .call dst callee (args.map (Operand.resolve addr))
  | .intrinsic dst name args => .intrinsic dst name (args.map (Operand.resolve addr))
  | .memIntrinsic dst src len =>
    .memIntrinsic (dst.resolve addr) (src.map (Operand.resolve addr)) (len.resolve addr)
  | i => i

def Terminator.resolve : Terminator → Terminator
  | .ret value => .ret (value.map (Operand.resolve addr))
  | .br target args => .br target (args.map (Operand.resolve addr))
  | .condBr c t targs e eargs =>
    .condBr (c.resolve addr) t (targs.map (Operand.resolve addr)) e (eargs.map (Operand.resolve addr))
  | .switch value cases d => .switch (value.resolve addr) cases d
  | .unreachable => .unreachable

def BasicBlock.resolve (b : BasicBlock) : BasicBlock :=
  { b with insts := b.insts.map (Inst.resolve addr), term := b.term.resolve addr }

/-- The function of the linked program. -/
def Func.resolve (f : Func) : Func := { f with blocks := f.blocks.map (BasicBlock.resolve addr) }

end

variable {addr : String → Nat} {f : Func}

@[simp] theorem Operand.resolve_reg (r : RegId) : (Operand.reg r).resolve addr = .reg r := rfl

@[simp] theorem Inst.definedReg_resolve (i : Inst) : (i.resolve addr).definedReg = i.definedReg := by
  cases i <;> rfl

@[simp] theorem Terminator.successors_resolve (t : Terminator) : (t.resolve addr).successors = t.successors := by
  cases t <;> rfl

@[simp] theorem BasicBlock.id_resolve (b : BasicBlock) : (b.resolve addr).id = b.id := rfl

@[simp] theorem BasicBlock.params_resolve (b : BasicBlock) : (b.resolve addr).params = b.params := rfl

namespace Func

theorem blocks_resolve (n : Nat) : (f.resolve addr).blocks[n]? = f.blocks[n]?.map (BasicBlock.resolve addr) :=
  List.getElem?_map

theorem indexOf_resolve (id : BlockId) : (f.resolve addr).indexOf id = f.indexOf id := by
  have hzip : (f.resolve addr).blocks.zipIdx = f.blocks.zipIdx.map fun p => (p.1.resolve addr, p.2) :=
    List.zipIdx_map
  rw [indexOf, indexOf, hzip, List.filter_map, List.getLast?_map, Option.map_map]
  rfl

theorem succ_resolve : (f.resolve addr).succ = f.succ := by
  have hindex : (f.resolve addr).indexOf = f.indexOf := funext indexOf_resolve
  rw [succ, succ, hindex, resolve, List.map_map]
  congr 1
  funext b
  show (b.term.resolve addr).successors.filterMap f.indexOf = _
  rw [Terminator.successors_resolve]

theorem cfg_resolve : (f.resolve addr).cfg = f.cfg := by
  have hentry : (f.resolve addr).indexOf (f.resolve addr).entry = f.indexOf f.entry := indexOf_resolve f.entry
  unfold cfg
  simp only [succ_resolve, hentry]

theorem block_resolve (id : BlockId) : (f.resolve addr).block id = (f.block id).map (BasicBlock.resolve addr) := by
  have hfind : (f.resolve addr).blocks.find? (fun b => b.id = id) =
      (f.blocks.find? fun b => b.id = id).map (BasicBlock.resolve addr) := List.find?_map
  rw [block, block, blocks_resolve, hfind]
  cases f.blocks[id]? with
  | none => rfl
  | some b =>
    simp only [Option.map_some]
    by_cases hid : b.id = id
    · have hid' : (b.resolve addr).id = id := hid
      rw [if_pos hid, if_pos hid']
      rfl
    · have hid' : ¬ (b.resolve addr).id = id := hid
      rw [if_neg hid, if_neg hid']

end Func

end Csolver
