import Csolver.Cfg.Dominators
import Csolver.Cfg.DominatorsSound
import Csolver.Cfg.OfFunc
import Csolver.Lib.SortedMap
import Csolver.Lib.TreeWalk

/-!
# Promotion of stack slots (`crates/verifier/src/mem2reg.rs`)

A scalar `alloca` whose register is seen only as the address of loads and stores of its own type becomes
an SSA value: block parameters at the iterated dominance frontier of its stores, loads replaced by the
value that reaches them, stores and the `alloca` dropped.

The instructions here are all those of `crates/ir/src/inst.rs`, each with its registers and operands and
the types the pass compares.
-/

namespace Csolver.Mem2reg

open Lib

/-! ## Instructions -/

mutual

def tyEq : Ty → Ty → Bool
  | .unit, .unit | .bool, .bool => true
  | .int a, .int b => a == b
  | .opq a b, .opq c d => a == c && b == d
  | .ptr a, .ptr b => tyEq a b
  | .array a m, .array b n => tyEq a b && m == n
  | .struct as p, .struct bs q => tysEq as bs && p == q
  | _, _ => false

def tysEq : List Ty → List Ty → Bool
  | [], [] => true
  | a :: as, b :: bs => tyEq a b && tysEq as bs
  | _, _ => false

end

inductive Inst where
  | assign (dst : RegId) (ty : Ty) (value : RValue)
  | load (dst : RegId) (ty : Ty) (ptr : Operand)
  | store (ty : Ty) (ptr value : Operand)
  | alloc (dst : RegId) (elem : Ty) (count : Operand)
  | dealloc (ptr : Operand)
  | ptrOffset (dst : RegId) (base index : Operand)
  | fieldPtr (dst : RegId) (base : Operand)
  | call (dst : Option RegId) (callee : Callee) (args : List Operand)
  | asm (defs : List RegId)
  | intrinsic (dst : Option RegId) (args : List Operand)
  | refWitness (dst : RegId) (src : Option Operand)
  | memIntrinsic (dst : Operand) (src : Option Operand) (len : Operand)
  | safetyCheck (condition : Condition)
  | provLabel (ptr : Operand)
  | capRequire (ptr : Operand)
  | provPropagate (dst src : Operand)
  | capRequireIfAliasFields (obj : Operand)
  | capRequireIfAlias (a b : Operand)
  | taintSource (val : Operand)
  | taintCheck (val : Operand)
  | taintClear (val : Operand)
  | typestateSet (val : Operand)
  | typestateRequire (val : Operand)
  | typestateYield
  | refcount (val : Operand)
  | typestateLeakCheck (escaping : Option Operand)
  | barrier (access : Option Operand)
  | spawn
  | join
  | cas (val : Operand)
  | secretCheck (val : Operand)

mutual

/-- `condition_operands` -/
def conditionOperands : Condition → List Operand
  | .tt => []
  | .cmp _ lhs rhs => [lhs, rhs]
  | .and cs | .or cs => conditionsOperands cs
  | .not c => conditionOperands c

def conditionsOperands : List Condition → List Operand
  | [] => []
  | c :: cs => conditionOperands c ++ conditionsOperands cs

end

namespace Inst

/-- `defined_reg` -/
def definedReg : Inst → Option RegId
  | assign dst _ _ | load dst _ _ | alloc dst _ _ | ptrOffset dst _ _ | fieldPtr dst _ | refWitness dst _ => some dst
  | call dst _ _ | intrinsic dst _ => dst
  | _ => none

/-- The registers that executing the instruction writes; an inline assembly writes its own. -/
def writes : Inst → List RegId
  | asm defs => defs
  | i => i.definedReg.toList

/-- The operands that `visit_operands` visits. -/
def visited : Inst → List Operand
  | assign _ _ value => value.operands
  | load _ _ ptr => [ptr]
  | store _ ptr value => [ptr, value]
  | alloc _ _ count => [count]
  | dealloc ptr => [ptr]
  | ptrOffset _ base index => [base, index]
  | fieldPtr _ base => [base]
  | call _ _ args | intrinsic _ args => args
  | memIntrinsic dst src len => dst :: (src.toList ++ [len])
  | safetyCheck condition => conditionOperands condition
  | provLabel ptr | capRequire ptr => [ptr]
  | provPropagate dst src => [dst, src]
  | capRequireIfAliasFields obj => [obj]
  | capRequireIfAlias a b => [a, b]
  | taintSource val | taintCheck val | taintClear val | typestateSet val | typestateRequire val | refcount val
  | secretCheck val => [val]
  | typestateLeakCheck escaping => escaping.toList
  | asm _ | refWitness _ _ | typestateYield | barrier _ | spawn | join | cas _ => []

/-- The operands that `visit_operands` passes over. -/
def skipped : Inst → List Operand
  | call _ (.indirect op) _ => [op]
  | refWitness _ src => src.toList
  | barrier access => access.toList
  | cas val => [val]
  | _ => []

def operands (i : Inst) : List Operand := i.visited ++ i.skipped

end Inst

/-- `visit_term_operands`: all operands of a terminator. -/
def termOperands : Terminator → List Operand
  | .ret value => value.toList
  | .condBr cond _ thenArgs _ elseArgs => cond :: (thenArgs ++ elseArgs)
  | .br _ args => args
  | .switch value _ _ => [value]
  | .unreachable => []

structure BasicBlock where
  id : BlockId
  params : List (RegId × Ty)
  insts : List Inst
  term : Terminator

structure Func where
  params : List (RegId × Ty)
  blocks : List BasicBlock
  entry : BlockId

namespace Func

/-- The position that `block` and `block_mut` find: the id's own if the block there has it, else the
    first. -/
def position (f : Func) (id : BlockId) : Option Nat :=
  match f.blocks[id]? with
  | some b => if b.id = id then some id else f.blocks.findIdx? fun b => b.id = id
  | none => f.blocks.findIdx? fun b => b.id = id

def block (f : Func) (id : BlockId) : Option BasicBlock := (f.position id).bind fun p => f.blocks[p]?

/-- A write through `block_mut`. -/
def updateBlock (f : Func) (id : BlockId) (g : BasicBlock → BasicBlock) : Func :=
  match f.position id with
  | some p => { f with blocks := f.blocks.modify p g }
  | none => f

/-- The function without its instructions, whose graph is that of `f`. -/
def skeleton (f : Func) : Csolver.Func :=
  ⟨"", f.params, .unit, f.blocks.map fun b => ⟨b.id, b.params, [], b.term⟩, f.entry⟩

/-- `Cfg::from_function` -/
def cfg (f : Func) : Cfg := f.skeleton.cfg

def indexOf (f : Func) (id : BlockId) : Option Nat := f.skeleton.indexOf id

/-- `Cfg::block_id` -/
def blockId (f : Func) (n : Nat) : BlockId := (f.blocks[n]?.map (·.id)).getD 0

end Func

/-! ## Critical edges of switches -/

/-- What the redirection of one switch keeps: the split block of each target, and all new blocks. -/
structure Splits where
  splits : List (BlockId × BlockId)
  newBlocks : List BasicBlock
  nextId : Nat

/-- `redirect_switch_target` -/
def redirectSwitchTarget (predCount : BlockId → Nat) (s : Splits) (t : BlockId) : BlockId × Splits :=
  if predCount t ≤ 1 then (t, s)
  else match s.splits.lookup t with
    | some sid => (sid, s)
    | none => (s.nextId,
        ⟨(t, s.nextId) :: s.splits, s.newBlocks ++ [⟨s.nextId, [], [], .br t []⟩], s.nextId + 1⟩)

def redirectCases (predCount : BlockId → Nat) (s : Splits) :
    List (BitVector × BlockId) → List (BitVector × BlockId) × Splits
  | [] => ([], s)
  | c :: cs =>
    let r := redirectSwitchTarget predCount s c.2
    let rest := redirectCases predCount r.2 cs
    ((c.1, r.1) :: rest.1, rest.2)

/-- One block; the split blocks are shared within one switch only. -/
def splitBlock (predCount : BlockId → Nat) (s : Splits) (b : BasicBlock) : BasicBlock × Splits :=
  match b.term with
  | .switch value cases default =>
    let r := redirectCases predCount { s with splits := [] } cases
    let d := redirectSwitchTarget predCount r.2 default
    ({ b with term := .switch value r.1 d.1 }, d.2)
  | _ => (b, s)

def splitBlocks (predCount : BlockId → Nat) (s : Splits) : List BasicBlock → List BasicBlock × Splits
  | [] => ([], s)
  | b :: bs =>
    let r := splitBlock predCount s b
    let rest := splitBlocks predCount r.2 bs
    (r.1 :: rest.1, rest.2)

/-- `split_critical_switch_edges` -/
def splitCriticalSwitchEdges (f : Func) : Func :=
  let predCount := fun t => f.blocks.countP fun b => t ∈ b.term.successors
  let nextId := (f.blocks.map fun b => b.id + 1).foldl max 0
  let r := splitBlocks predCount ⟨[], [], nextId⟩ f.blocks
  { f with blocks := r.1 ++ r.2.newBlocks }

/-! ## Slots -/

abbrev Slots := SortedMap RegId Ty

def isScalar : Ty → Bool
  | .int _ | .ptr _ | .bool | .opq _ _ => true
  | _ => false

def isSlot : Operand → RegId → Bool
  | .reg r, a => r == a
  | .const _, _ => false

def instMentions (i : Inst) (a : RegId) : Bool := i.visited.any (isSlot · a)

def termMentions (t : Terminator) (a : RegId) : Bool := (termOperands t).any (isSlot · a)

/-- One instruction's part of `eligible`. -/
def eligibleInst (a : RegId) (ty : Ty) (i : Inst) : Bool :=
  match i with
  | .load _ lty (.reg r) => if r = a then tyEq lty ty else !instMentions i a
  | .store sty (.reg r) value => if r = a then tyEq sty ty && !isSlot value a else !instMentions i a
  | .alloc dst _ _ => if dst = a then true else !instMentions i a
  | _ => !instMentions i a

def eligible (f : Func) (a : RegId) (ty : Ty) : Bool :=
  f.blocks.all fun b => b.insts.all (eligibleInst a ty) && !termMentions b.term a

def candidate : Inst → Option (RegId × Ty)
  | .alloc dst elem (.const (.int bv)) => if bv.value = 1 ∧ isScalar elem then some (dst, elem) else none
  | _ => none

def candidates (f : Func) : Slots :=
  (f.blocks.flatMap fun b => b.insts.filterMap candidate).foldl (fun m c => m.insert c.1 c.2) []

def eligibleSlots (f : Func) : Slots := (candidates f).filter fun s => eligible f s.1 s.2

/-! ## Placement of the block parameters -/

/-- The runner of one edge into `b`. -/
def runFrontier (t : IDom) (b idomB : Nat) : Nat → Nat → (Nat → Finset Nat) → Option (Nat → Finset Nat)
  | 0, _, _ => none
  | fuel + 1, runner, df =>
    if runner = idomB then some df
    else
      let df := Function.update df runner (insert b (df runner))
      match t runner with
      | some next => if next ≠ runner then runFrontier t b idomB fuel next df else some df
      | none => some df

/-- `dominance_frontiers` -/
def dominanceFrontiers (cfg : Cfg) (t : IDom) : Option (Nat → Finset Nat) :=
  (List.range cfg.nodeCount).foldlM (fun df b =>
    if (cfg.pred.row b).length < 2 then some df
    else match t b with
      | none => some df
      | some idomB => (cfg.pred.row b).foldlM (fun df p => runFrontier t b idomB (cfg.nodeCount + 1) p df) df)
    fun _ => ∅

def inOrder (n : Nat) (s : Finset Nat) : List Nat := (List.range n).filter (· ∈ s)

/-- A node of a frontier gets a parameter; it is worked on if it had none and is no store itself. -/
def addPhi (defs : Finset Nat) (s : Finset Nat × List Nat) (y : Nat) : Finset Nat × List Nat :=
  if y ∈ s.1 then s else (insert y s.1, if y ∈ defs then s.2 else y :: s.2)

def iterateFrontier (n : Nat) (defs : Finset Nat) (df : Nat → Finset Nat) :
    Nat → Finset Nat × List Nat → Option (Finset Nat)
  | 0, _ => none
  | fuel + 1, (phis, work) =>
    match work with
    | [] => some phis
    | x :: work => iterateFrontier n defs df fuel ((inOrder n (df x)).foldl (addPhi defs) (phis, work))

/-- `iterated_frontier` -/
def iteratedFrontier (n : Nat) (defs : Finset Nat) (df : Nat → Finset Nat) : Option (Finset Nat) :=
  iterateFrontier n defs df (2 * n + 1) (∅, (inOrder n defs).reverse)

def storesTo (a : RegId) : Inst → Bool
  | .store _ (.reg r) _ => r == a
  | _ => false

def blockStoresTo (f : Func) (id : BlockId) (a : RegId) : Bool := (f.block id).any fun b => b.insts.any (storesTo a)

def isSwitch : Terminator → Bool
  | .switch _ _ _ => true
  | _ => false

def storeNodes (f : Func) (a : RegId) : Finset Nat :=
  (Finset.range f.cfg.nodeCount).filter fun n => blockStoresTo f (f.blockId n) a

def switchNodes (f : Func) : Finset Nat :=
  (Finset.range f.cfg.nodeCount).filter fun n => (f.block (f.blockId n)).any fun b => isSwitch b.term

/-- A slot with the nodes that need a parameter for it; none if one of them follows a switch. -/
def placeSlot (f : Func) (df : Nat → Finset Nat) (s : RegId × Ty) : Option (Option ((RegId × Ty) × Finset Nat)) := do
  let phis ← iteratedFrontier f.cfg.nodeCount (storeNodes f s.1) df
  if (inOrder f.cfg.nodeCount phis).any fun n => (f.cfg.pred.row n).any (· ∈ switchNodes f) then some none
  else some (some (s, phis))

/-- The promoted slots, each with the nodes of its parameters. -/
def place (f : Func) (t : IDom) : Option (List ((RegId × Ty) × Finset Nat)) := do
  let df ← dominanceFrontiers f.cfg t
  let placed ← (eligibleSlots f).mapM (placeSlot f df)
  some (placed.filterMap id)

/-- `next_reg` -/
def nextReg (f : Func) : Nat :=
  (f.blocks.flatMap fun b => b.params.map (·.1) ++ b.insts.filterMap Inst.definedReg).foldl
    (fun m r => max m (r + 1)) 0

/-- A block parameter for a slot. -/
structure Phi where
  node : Nat
  slot : RegId
  ty : Ty
  reg : RegId

/-- The parameters, with the registers from `next` on. -/
def phis (n next : Nat) (placed : List ((RegId × Ty) × Finset Nat)) : List Phi :=
  (placed.flatMap fun p => (inOrder n p.2).map fun n => (n, p.1)).zipIdx.map fun q =>
    ⟨q.1.1, q.1.2.1, q.1.2.2, next + q.2⟩

def addParam (f : Func) (p : Phi) : Func :=
  f.updateBlock (f.blockId p.node) fun b => { b with params := b.params ++ [(p.reg, p.ty)] }

/-! ## Renaming -/

/-- The value of each slot that reaches a point. -/
abbrev Reaching := RegId → Operand

/-- One instruction of `rewrite_block`. -/
def rewriteInst (slots : Slots) (cur : Reaching) (i : Inst) : Option Inst × Reaching :=
  match i with
  | .alloc dst _ _ => (if (slots.get dst).isSome then none else some i, cur)
  | .load dst _ (.reg a) =>
    match slots.get a with
    | some ty => (some (.assign dst ty (.use (cur a))), cur)
    | none => (some i, cur)
  | .store _ (.reg a) value =>
    if (slots.get a).isSome then (none, Function.update cur a value) else (some i, cur)
  | _ => (some i, cur)

def rewriteInsts (slots : Slots) (cur : Reaching) : List Inst → List Inst × Reaching
  | [] => ([], cur)
  | i :: is =>
    let r := rewriteInst slots cur i
    let rest := rewriteInsts slots r.2 is
    (r.1.toList ++ rest.1, rest.2)

/-- `rewrite_block`: the function and the values at the end of the block. -/
def rewriteBlock (f : Func) (id : BlockId) (slots : Slots) (cur : Reaching) : Func × Reaching :=
  match f.block id with
  | none => (f, cur)
  | some b =>
    let r := rewriteInsts slots cur b.insts
    (f.updateBlock id fun b => { b with insts := r.1 }, r.2)

/-- The arguments for the parameters of a block. -/
def argsFor (f : Func) (ps : List Phi) (cur : Reaching) (target : BlockId) : List Operand :=
  match f.indexOf target with
  | some n => (ps.filter (·.node = n)).map fun p => cur p.slot
  | none => []

def appendArgs (f : Func) (ps : List Phi) (cur : Reaching) : Terminator → Terminator
  | .br target args => .br target (args ++ argsFor f ps cur target)
  | .condBr cond t targs e eargs =>
    .condBr cond t (targs ++ argsFor f ps cur t) e (eargs ++ argsFor f ps cur e)
  | term => term

/-- `append_phi_args`; `f₀` is the function whose graph was taken. -/
def appendPhiArgs (f₀ f : Func) (id : BlockId) (ps : List Phi) (cur : Reaching) : Func :=
  f.updateBlock id fun b => { b with term := appendArgs f₀ ps cur b.term }

/-- The values on entry to a node: its own parameters first. -/
def enter (ps : List Phi) (node : Nat) (cur : Reaching) : Reaching :=
  (ps.filter (·.node = node)).foldl (fun cur p => Function.update cur p.slot (.reg p.reg)) cur

/-- `dom_children` -/
def domChildren (n : Nat) (t : IDom) (p : Nat) : List Nat :=
  (List.range n).filter fun c => t c = some p ∧ p ≠ c

def renameNode (f₀ : Func) (slots : Slots) (ps : List Phi) (f : Func) (node : Nat) (cur : Reaching) : Func × Reaching :=
  let r := rewriteBlock f (f₀.blockId node) slots (enter ps node cur)
  (appendPhiArgs f₀ r.1 (f₀.blockId node) ps r.2, r.2)

/-- The walk down the dominator tree. -/
def rename (f₀ : Func) (t : IDom) (slots : Slots) (ps : List Phi) (f : Func) : Option Func :=
  TreeWalk.walk (domChildren f₀.cfg.nodeCount t) (renameNode f₀ slots ps) (f₀.cfg.nodeCount + 1) f
    [(f₀.cfg.entry, fun _ => .const .undef)]

/-- The promoted slots of a function whose switch edges are split, and the new parameters. -/
def placement (f : Func) : Option (Slots × List Phi) := do
  if (eligibleSlots f).isEmpty then some ([], [])
  else
    let t ← Dominators.new f.cfg
    let placed ← place f t
    some (placed.map (·.1), phis f.cfg.nodeCount (nextReg f) placed)

/-- `promote_function` -/
def promoteFunction (f : Func) : Option Func := do
  let f := splitCriticalSwitchEdges f
  let (slots, ps) ← placement f
  if slots.isEmpty then some f
  else
    let t ← Dominators.new f.cfg
    rename f t slots ps (ps.foldl addParam f)

/-! ## Where the promotion puts its parameters (`crates/verifier/src/mem2reg.rs`)

The frontiers and their iteration return on every graph, so the placement does. The promoted slots are
eligible ones, and the new parameters are numbered from `next_reg` on (`placement_spec`). Splitting the
edges of a switch changes no instruction (`split_blocks`).
-/

open Lib

theorem foldlM_keeps {α σ : Type} {f : σ → α → Option σ} {P : σ → Prop} (xs : List α)
    (hstep : ∀ s, P s → ∀ x ∈ xs, ∃ s', f s x = some s' ∧ P s') {s : σ} (hs : P s) :
    ∃ s', xs.foldlM f s = some s' ∧ P s' := by
  induction xs generalizing s with
  | nil => exact ⟨s, rfl, hs⟩
  | cons x xs ih =>
    obtain ⟨s', hx, hs'⟩ := hstep s hs x List.mem_cons_self
    rw [List.foldlM_cons, hx]
    exact ih (fun s hs y hy => hstep s hs y (List.mem_cons_of_mem x hy)) hs'

/-! ## Frontiers -/

section

variable {root n : Nat} {num : Nat → Nat} {t : IDom}

def Inside (n : Nat) (df : Nat → Finset Nat) : Prop := ∀ x, ∀ y ∈ df x, y < n

theorem Inside.update {df : Nat → Finset Nat} (h : Inside n df) {b : Nat} (hb : b < n) (x : Nat) :
    Inside n (Function.update df x (insert b (df x))) := by
  intro z y hy
  by_cases hz : z = x
  · subst hz
    rw [Function.update_self, Finset.mem_insert] at hy
    rcases hy with rfl | hy
    · exact hb
    · exact h z y hy
  · rw [Function.update_of_ne hz] at hy
    exact h z y hy

theorem runFrontier_some (htree : ParentTree root num t) {b : Nat} (hb : b < n) (idomB : Nat) {fuel runner : Nat}
    (hpos : 0 < fuel) (hfuel : (t runner).isSome → num root - num runner < fuel) {df : Nat → Finset Nat}
    (hdf : Inside n df) : ∃ df', runFrontier t b idomB fuel runner df = some df' ∧ Inside n df' := by
  induction fuel generalizing runner df with
  | zero => exact absurd hpos (Nat.not_lt_zero _)
  | succ fuel ih =>
    rw [runFrontier]
    split
    · exact ⟨df, rfl, hdf⟩
    · have hdf' := hdf.update hb runner
      cases ht : t runner with
      | none => exact ⟨_, rfl, hdf'⟩
      | some next =>
        simp only
        split
        · next hne =>
          -- the runner climbs
          have hroot : runner ≠ root := by
            rintro rfl
            rw [htree.top] at ht
            exact hne (Option.some.inj ht).symm
          have hlt := htree.lt ht hroot
          have hle := htree.le_root (htree.closed ht)
          have hnow := hfuel (by rw [ht]; rfl)
          exact ih (by omega) (fun _ => by omega) hdf'
        · exact ⟨_, rfl, hdf'⟩

end

theorem dominanceFrontiers_some (cfg : Cfg) {num : Nat → Nat} {t : IDom} (htree : ParentTree cfg.entry num t)
    (hnum : num cfg.entry < cfg.nodeCount) :
    ∃ df, dominanceFrontiers cfg t = some df ∧ Inside cfg.nodeCount df := by
  refine foldlM_keeps _ (fun df hdf b hb => ?_) fun x y hy => absurd hy (Finset.notMem_empty y)
  have hb' := List.mem_range.mp hb
  split
  · exact ⟨df, rfl, hdf⟩
  · split
    · exact ⟨df, rfl, hdf⟩
    · next idomB _ =>
      refine foldlM_keeps _ (fun df hdf p _ => ?_) hdf
      exact runFrontier_some htree hb' idomB (Nat.succ_pos _) (fun _ => by omega) hdf

/-! ## Iteration -/

/-- What is left: nodes without a parameter, and nodes to work on. -/
def left (n : Nat) (s : Finset Nat × List Nat) : Nat := n - s.1.card + s.2.length

theorem addPhi_left {n : Nat} (defs : Finset Nat) (ys : List Nat) (hys : ∀ y ∈ ys, y < n) {s : Finset Nat × List Nat}
    (hs : s.1 ⊆ Finset.range n) :
    (ys.foldl (addPhi defs) s).1 ⊆ Finset.range n ∧ left n (ys.foldl (addPhi defs) s) ≤ left n s := by
  induction ys generalizing s with
  | nil => exact ⟨hs, Nat.le_refl _⟩
  | cons y ys ih =>
    have hy : y ∈ Finset.range n := Finset.mem_range.mpr (hys y List.mem_cons_self)
    have hrest : ∀ z ∈ ys, z < n := fun z hz => hys z (List.mem_cons_of_mem y hz)
    rw [List.foldl_cons, addPhi]
    split
    · exact ih hrest hs
    · next hnew =>
      have hsub : insert y s.1 ⊆ Finset.range n := Finset.insert_subset hy hs
      have hcard := Finset.card_le_card hsub
      rw [Finset.card_insert_of_notMem hnew, Finset.card_range] at hcard
      obtain ⟨hin, hle⟩ := ih (s := (insert y s.1, if y ∈ defs then s.2 else y :: s.2)) hrest hsub
      refine ⟨hin, Nat.le_trans hle ?_⟩
      simp only [left, Finset.card_insert_of_notMem hnew]
      split
      · omega
      · rw [List.length_cons]
        omega

theorem iterateFrontier_some {n : Nat} {defs : Finset Nat} {df : Nat → Finset Nat} {fuel : Nat}
    {s : Finset Nat × List Nat} (hs : s.1 ⊆ Finset.range n) (hfuel : left n s < fuel) :
    ∃ phis, iterateFrontier n defs df fuel s = some phis := by
  induction fuel generalizing s with
  | zero => exact absurd hfuel (Nat.not_lt_zero _)
  | succ fuel ih =>
    obtain ⟨phis, work⟩ := s
    cases work with
    | nil => exact ⟨phis, rfl⟩
    | cons x work =>
      have hys : ∀ y ∈ inOrder n (df x), y < n := fun y hy => List.mem_range.mp (List.mem_filter.mp hy).1
      obtain ⟨hin, hle⟩ := addPhi_left defs (inOrder n (df x)) hys (s := (phis, work)) hs
      refine ih hin (Nat.lt_of_le_of_lt hle ?_)
      simp only [left, List.length_cons] at hfuel ⊢
      omega

theorem iteratedFrontier_some (n : Nat) (defs : Finset Nat) (df : Nat → Finset Nat) :
    ∃ phis, iteratedFrontier n defs df = some phis := by
  refine iterateFrontier_some (Finset.empty_subset _) ?_
  have hlen : (inOrder n defs).length ≤ n := by
    have := List.length_filter_le (· ∈ defs) (List.range n)
    rwa [List.length_range] at this
  simp only [left, Finset.card_empty, List.length_reverse]
  omega

/-! ## The placement -/

theorem placeSlot_some (f : Func) (df : Nat → Finset Nat) (s : RegId × Ty) :
    ∃ r, placeSlot f df s = some r ∧ ∀ q, r = some q → q.1 = s := by
  obtain ⟨phis, hphis⟩ := iteratedFrontier_some f.cfg.nodeCount (storeNodes f s.1) df
  rw [placeSlot, hphis, Option.bind_eq_bind, Option.bind_some]
  split
  · exact ⟨none, rfl, fun q hq => absurd hq (by simp)⟩
  · refine ⟨some (s, phis), rfl, fun q hq => ?_⟩
    rw [← Option.some.inj hq]

theorem place_some (f : Func) {num : Nat → Nat} {t : IDom} (htree : ParentTree f.cfg.entry num t)
    (hnum : num f.cfg.entry < f.cfg.nodeCount) :
    ∃ placed, place f t = some placed ∧ (placed.map (·.1)).Sublist (eligibleSlots f) := by
  obtain ⟨df, hdf, _⟩ := dominanceFrontiers_some f.cfg htree hnum
  rw [place, hdf, Option.bind_eq_bind, Option.bind_some]
  have hslots (ss : Slots) : ∃ rs, ss.mapM (placeSlot f df) = some rs ∧
      ((rs.filterMap id).map (·.1)).Sublist ss := by
    induction ss with
    | nil => exact ⟨[], rfl, List.Sublist.refl _⟩
    | cons s ss ih =>
      obtain ⟨r, hr, hq⟩ := placeSlot_some f df s
      obtain ⟨rs, hrs, hsub⟩ := ih
      refine ⟨r :: rs, by rw [List.mapM_cons, hr, hrs]; rfl, ?_⟩
      cases r with
      | none => exact hsub.cons s
      | some q =>
        rw [← hq q rfl]
        exact hsub.cons_cons q.1
  obtain ⟨rs, hrs, hsub⟩ := hslots (eligibleSlots f)
  rw [hrs]
  exact ⟨_, rfl, hsub⟩

theorem phis_regs (n next : Nat) (placed : List ((RegId × Ty) × Finset Nat)) :
    (phis n next placed).map (·.reg) = List.range' next (phis n next placed).length := by
  have hregs {α : Type} (xs : List α) (k : Nat) :
      (xs.zipIdx k).map (fun q => next + q.2) = List.range' (next + k) xs.length := by
    induction xs generalizing k with
    | nil => rfl
    | cons x xs ih =>
      rw [List.zipIdx_cons, List.map_cons, ih, List.length_cons, List.range'_succ, Nat.add_assoc]
  simp only [phis, List.map_map, Function.comp_def, hregs, List.length_map, List.length_zipIdx, Nat.add_zero]

theorem entry_lt_of_blocks {f : Func} (h : f.blocks ≠ []) : 0 < f.cfg.nodeCount := by
  show 0 < f.skeleton.succ.length
  simpa [Csolver.Func.succ, Func.skeleton] using List.length_pos_iff.mpr h

theorem phis_nodes {n next : Nat} {placed : List ((RegId × Ty) × Finset Nat)} :
    ∀ p ∈ phis n next placed, p.node < n := by
  intro p hp
  obtain ⟨q, hq, rfl⟩ := List.mem_map.mp hp
  obtain ⟨s, _, hs⟩ := List.mem_flatMap.mp (List.fst_mem_of_mem_zipIdx hq)
  obtain ⟨m, hm, heq⟩ := List.mem_map.mp hs
  rw [← heq]
  exact List.mem_range.mp (List.mem_filter.mp hm).1

/-- What a placement is: the slots are eligible ones, and the parameters are at nodes of the graph, numbered from
    `next_reg` on. -/
structure Placed (f : Func) (slots : Slots) (ps : List Phi) : Prop where
  sub : slots.Sublist (eligibleSlots f)
  regs : ps.map (·.reg) = List.range' (nextReg f) ps.length
  nodes : ∀ p ∈ ps, p.node < f.cfg.nodeCount
  empty : slots = [] → ps = []

theorem placement_spec (f : Func) : ∃ slots ps, placement f = some (slots, ps) ∧ Placed f slots ps := by
  rw [placement]
  split
  · exact ⟨[], [], rfl, List.nil_sublist _, rfl, fun p hp => absurd hp List.not_mem_nil, fun _ => rfl⟩
  · next hne =>
    have hblocks : f.blocks ≠ [] := by
      intro hnil
      rw [eligibleSlots, candidates, hnil] at hne
      exact hne rfl
    obtain ⟨t, num, ht, htree, hnum, _⟩ := Dominators.new_tree f.cfg (entry_lt_of_blocks hblocks)
    obtain ⟨placed, hplaced, hsub⟩ := place_some f htree hnum
    rw [ht, Option.bind_eq_bind, Option.bind_some, hplaced]
    refine ⟨_, _, rfl, hsub, phis_regs _ _ _, phis_nodes, fun hnil => ?_⟩
    rw [List.map_eq_nil_iff.mp hnil]
    rfl

/-! ## Split edges -/

/-- A block with another terminator that reads the same. -/
structure Same (b b' : BasicBlock) : Prop where
  id : b'.id = b.id
  params : b'.params = b.params
  insts : b'.insts = b.insts
  term : termOperands b'.term = termOperands b.term

/-- A block without parameters and instructions, whose terminator reads nothing. -/
def Bare (b : BasicBlock) : Prop := b.params = [] ∧ b.insts = [] ∧ termOperands b.term = []

theorem redirectSwitchTarget_bare (pc : BlockId → Nat) {s : Splits} (hs : ∀ b ∈ s.newBlocks, Bare b) (t : BlockId) :
    ∀ b ∈ (redirectSwitchTarget pc s t).2.newBlocks, Bare b := by
  rw [redirectSwitchTarget]
  split
  · exact hs
  · split
    · exact hs
    · intro b hb
      rcases List.mem_append.mp hb with hb | hb
      · exact hs b hb
      · rw [List.mem_singleton.mp hb]
        exact ⟨rfl, rfl, rfl⟩

theorem redirectCases_bare (pc : BlockId → Nat) (cs : List (BitVector × BlockId)) {s : Splits}
    (hs : ∀ b ∈ s.newBlocks, Bare b) : ∀ b ∈ (redirectCases pc s cs).2.newBlocks, Bare b := by
  induction cs generalizing s with
  | nil => exact hs
  | cons c cs ih => exact ih (redirectSwitchTarget_bare pc hs c.2)

theorem splitBlock_spec (pc : BlockId → Nat) {s : Splits} (hs : ∀ b ∈ s.newBlocks, Bare b) (b : BasicBlock) :
    Same b (splitBlock pc s b).1 ∧ ∀ b' ∈ (splitBlock pc s b).2.newBlocks, Bare b' := by
  rw [splitBlock]
  split
  · next value cases default hterm =>
    refine ⟨⟨rfl, rfl, rfl, by rw [hterm]; rfl⟩, ?_⟩
    have hcases := redirectCases_bare pc cases (s := { s with splits := [] }) hs
    exact redirectSwitchTarget_bare pc hcases default
  · exact ⟨⟨rfl, rfl, rfl, rfl⟩, hs⟩

theorem splitBlocks_spec (pc : BlockId → Nat) (bs : List BasicBlock) {s : Splits} (hs : ∀ b ∈ s.newBlocks, Bare b) :
    List.Forall₂ Same bs (splitBlocks pc s bs).1 ∧ ∀ b' ∈ (splitBlocks pc s bs).2.newBlocks, Bare b' := by
  induction bs generalizing s with
  | nil => exact ⟨.nil, hs⟩
  | cons b bs ih =>
    obtain ⟨hsame, hbare⟩ := splitBlock_spec pc hs b
    obtain ⟨hrest, hbare'⟩ := ih hbare
    exact ⟨.cons hsame hrest, hbare'⟩

/-- **Splitting** keeps every block up to the targets of its switch, and adds bare blocks. -/
theorem split_blocks (f : Func) : ∃ bs news, (splitCriticalSwitchEdges f).blocks = bs ++ news ∧
    (splitCriticalSwitchEdges f).params = f.params ∧ List.Forall₂ Same f.blocks bs ∧ ∀ b ∈ news, Bare b := by
  obtain ⟨hsame, hbare⟩ := splitBlocks_spec (fun t => f.blocks.countP fun b => t ∈ b.term.successors) f.blocks
    (s := ⟨[], [], (f.blocks.map fun b => b.id + 1).foldl max 0⟩) (by simp)
  exact ⟨_, _, rfl, rfl, hsame, hbare⟩

theorem flatMap_split {β : Type} {h : BasicBlock → List β} (hsame : ∀ b b', Same b b' → h b' = h b)
    (hbare : ∀ b, Bare b → h b = []) (f : Func) :
    (splitCriticalSwitchEdges f).blocks.flatMap h = f.blocks.flatMap h := by
  obtain ⟨bs, news, hblocks, _, hbs, hnews⟩ := split_blocks f
  have hold : bs.flatMap h = f.blocks.flatMap h := by
    generalize f.blocks = old at hbs
    clear hblocks
    induction hbs with
    | nil => rfl
    | cons hb _ ih => rw [List.flatMap_cons, List.flatMap_cons, hsame _ _ hb, ih]
  have hnil : news.flatMap h = [] := List.flatMap_eq_nil_iff.mpr fun b hb => hbare b (hnews b hb)
  rw [hblocks, List.flatMap_append, hold, hnil, List.append_nil]

end Csolver.Mem2reg
