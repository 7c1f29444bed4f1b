import Csolver.Absint.Reading
import Csolver.Absint.IntervalExact
import Csolver.Absint.ZoneExact

/-!
# Edges of the zone analysis (`crates/absint/src/relational.rs`)

Registers are numbered as variables of a zone, unless there are too many of them. An edge is refined with the
comparison behind its branch, or the negation of it, and then the parameters of the target are bound one after
the other: a parameter is forgotten, and made equal to its argument.
-/

namespace Csolver

namespace Relational

def maxVars : Nat := 32

/-- The registers of `build_index`, in order; none if there are too many. -/
def tracked (f : Func) : List RegId :=
  let regs := (f.blocks.flatMap fun b => b.params.map Prod.fst ++ b.insts.filterMap Inst.definedReg).eraseDups
  if maxVars < regs.length then [] else regs

/-- `idx`: variable 0 is the zero. -/
def idx (f : Func) (r : RegId) : Option Nat := ((tracked f).idxOf? r).map (· + 1)

/-- `build_cmp_map`: as for intervals. -/
def buildCmpMap (f : Func) (c : RegId) : Option (CmpOp × Operand × Operand) := Intervals.collectCmps f c

/-- `operand`: a variable and an offset; a constant is an offset from the zero. -/
def operand (f : Func) : Operand → Option Nat × Int
  | .reg r => (idx f r, 0)
  | .const (.int bv) => (some 0, bv.signed)
  | .const _ => (none, 0)

/-- `refine`; nothing where the constant of a constraint overflows. -/
def refine (f : Func) (z : Zone) (op : CmpOp) (lhs rhs : Operand) : Option Zone :=
  match operand f lhs, operand f rhs with
  | (some ai, av), (some bi, bv) =>
    match op with
    | .sle | .ule => (I128.checked (bv - av)).map fun c => z.addConstraint ai bi c
    | .slt | .ult =>
      (I128.checked (bv - av)).bind fun d => (I128.checked (d.val - 1)).map fun c => z.addConstraint ai bi c
    | .sge | .uge => (I128.checked (av - bv)).map fun c => z.addConstraint bi ai c
    | .sgt | .ugt =>
      (I128.checked (av - bv)).bind fun d => (I128.checked (d.val - 1)).map fun c => z.addConstraint bi ai c
    | .eq => (I128.checked (bv - av)).bind fun c => (I128.checked (av - bv)).map fun d =>
        (z.addConstraint ai bi c).addConstraint bi ai d
    | .ne => some z
  | _, _ => some z

def edgeArgs (t : Terminator) (target : BlockId) : Option (List Operand) :=
  match t with
  | .br b args => if b = target then some args else none
  | .condBr _ tb targs eb eargs =>
    if tb = target then some targs else if eb = target then some eargs else none
  | _ => none

/-- Bind one parameter to its argument, if there is one. -/
def bindParam (f : Func) (z : Zone) (p : Nat) (arg : Option Operand) : Option Zone :=
  match arg with
  | some (.reg r) =>
    match idx f r with
    | some ri => some (((z.forget p).addConstraint p ri Intervals.zero).addConstraint ri p Intervals.zero)
    | none => some (z.forget p)
  | some (.const (.int bv)) =>
    let c := Intervals.signedI128 bv
    (I128.checked (-c.val)).map fun d => ((z.forget p).addConstraint p 0 c).addConstraint 0 p d
  | _ => some (z.forget p)

/-- The loop over the parameters of the target. -/
def bindParams (f : Func) (args : List Operand) : Nat → List (RegId × Ty) → Zone → Option Zone
  | _, [], z => some z
  | i, (r, _) :: ps, z =>
    match idx f r with
    | some p => (bindParam f z p args[i]?).bind (bindParams f args (i + 1) ps)
    | none => bindParams f args (i + 1) ps z

/-- The guard of a conditional branch; where both sides go to the target, it is taken for the first. -/
def refineEdge (f : Func) (t : Terminator) (target : BlockId) (z : Zone) : Option Zone :=
  match t with
  | .condBr (.reg c) tb _ eb _ =>
    match buildCmpMap f c with
    | some (op, lhs, rhs) =>
      if tb = target then refine f z op lhs rhs
      else if eb = target then refine f z op.negate lhs rhs
      else some z
    | none => some z
  | _ => some z

def transferEdge (f : Func) (p n : Nat) (exit : Zone) : Option Zone :=
  if exit.bottom then some exit
  else
    match Intervals.blockAt f p, Intervals.blockAt f n with
    | some b, some tb =>
      (refineEdge f b.term tb.id exit).bind fun z =>
        match edgeArgs b.term tb.id with
        | some args => bindParams f args 0 tb.params z
        | none => some z
    | _, _ => some exit

theorem idx_bounds {f : Func} {r : RegId} {i : Nat} (h : idx f r = some i) : 0 < i ∧ i ≤ (tracked f).length := by
  obtain ⟨k, hk, rfl⟩ := Option.map_eq_some_iff.mp h
  have hlt : k < (tracked f).length := by
    rw [List.idxOf?, List.findIdx?_eq_some_iff_findIdx_eq] at hk
    exact hk.1
  exact ⟨Nat.succ_pos k, hlt⟩

end Relational

end Csolver
