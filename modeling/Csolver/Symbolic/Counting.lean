import Csolver.Absint.InductionExit

/-!
# Counting inductions (`exec/loops.rs`, with `resolve_copy` and `edge_args` of `exec.rs`)

`sound_counting_induction` accepts a loop whose counter, it holds, reaches every value that the guard of the
header admits, so that an access at such a value may be refuted.
-/

namespace Csolver

open Lib

/-- The tables of the explorer that concern loops. -/
structure LoopTables where
  dominators : IDom
  loops : List Loop

def Func.loopTables (f : Func) : Option LoopTables := do
  let dominators ← Dominators.new f.cfg
  let loops ← Loops.detect f.cfg dominators
  pure { dominators, loops }

namespace Counting

open Induction Intervals

/-- `is_back_edge`, of positions. -/
def isBackEdge (f : Func) (t : LoopTables) (source target : Nat) : Bool :=
  t.loops.any (fun l => l.header == target) && Dominators.dominates f.cfg t.dominators target source == some true

/-- `def`: the last instruction that defines the register. -/
def defOf (f : Func) (r : RegId) : Option Inst :=
  (f.blocks.flatMap (·.insts)).reverse.find? fun i => i.definedReg == some r

/-- `resolve_copy`, with the copies that are left to follow. -/
def followCopies (f : Func) : Nat → RegId → RegId
  | 0, r => r
  | n + 1, r =>
    match defOf f r with
    | some (.assign _ _ (.use (.reg src))) => if src ≠ r then followCopies f n src else r
    | _ => r

def resolveCopy (f : Func) (r : RegId) : RegId := followCopies f 64 r

def edgeArgs (b : BasicBlock) (target : BlockId) : Option (List Operand) :=
  match b.term with
  | .br t args => if t = target then some args else none
  | .condBr _ t targs e eargs => if t = target then some targs else if e = target then some eargs else none
  | _ => none

/-- A literal with the given unsigned value. -/
def isInt (k : Nat) : Operand → Bool
  | .const (.int bv) => bv.value == k
  | _ => false

/-- A copy of `reg`. -/
def isCopyOf (f : Func) (reg : RegId) : Operand → Bool
  | .reg r => resolveCopy f r == reg
  | .const _ => false

/-- Whether a sum is `reg + 1`; `none` for what is not a sum. -/
def unitStep (f : Func) (reg m : RegId) : Option Bool :=
  match defOf f (resolveCopy f m) with
  | some (.assign _ _ (.bin .add lhs rhs)) =>
    some ((isCopyOf f reg lhs && isInt 1 rhs) || (isCopyOf f reg rhs && isInt 1 lhs))
  | _ => none

/-- What has been seen of the edges: an entry edge with the wanted start, and whether the last sum on a
    back edge was the unit step. -/
structure EdgeScan where
  entry : Bool
  unitBackedge : Bool

/-- One predecessor of the header at position `h`. -/
def scanEdge (f : Func) (t : LoopTables) (start : Operand → Bool) (header : BasicBlock) (h pos : Nat) (reg : RegId)
    (s : EdgeScan) (pred : Nat) : EdgeScan :=
  match ((blockAt f pred).bind fun b => edgeArgs b header.id).bind (·[pos]?) with
  | none => s
  | some arg =>
    if isBackEdge f t pred h then
      match arg with
      | .reg m =>
        match unitStep f reg m with
        | some unit => { s with unitBackedge := unit }
        | none => s
      | .const _ => s
    else if start arg then { s with entry := true }
    else s

def scanEdges (f : Func) (t : LoopTables) (start : Operand → Bool) (header : BasicBlock) (h pos : Nat)
    (reg : RegId) : EdgeScan :=
  (f.cfg.pred.row h).foldl (scanEdge f t start header h pos reg) ⟨false, false⟩

/-- The comparisons that bound their left operand from above. -/
def isUpper : CmpOp → Bool
  | .slt | .sle | .ult | .ule => true
  | _ => false

/-- The upper-bound comparison that the header's condition is a copy of, with the side of the bound. -/
def upperOnReg (f : Func) (reg c : RegId) : Option (CmpOp × Operand) :=
  match defOf f (resolveCopy f c) with
  | some (.assign _ _ (.cmp op lhs rhs)) =>
    if isUpper op && isCopyOf f reg lhs && !isCopyOf f reg rhs then some (op, rhs) else none
  | _ => none

/-- Whether a block of the body, other than the header, only goes on in the body. -/
def staysInside (f : Func) (l : Loop) (b : BasicBlock) : Bool :=
  match b.term with
  | .br t _ => inLoop f l t
  | .condBr _ t _ e _ => inLoop f l t && inLoop f l e
  | _ => false

def isConstInt : Operand → Bool
  | .const (.int _) => true
  | _ => false

def countingGuard (f : Func) (t : LoopTables) (l : Loop) (header : BasicBlock) (reg : RegId) :
    Option (CmpOp × Operand) := do
  let pos ← header.params.findIdx? fun p => p.1 == reg
  let scan := scanEdges f t isConstInt header l.header pos reg
  if !(scan.entry && scan.unitBackedge) then none
  else
    match header.term with
    | .condBr (.reg c) thenBlk _ elseBlk _ =>
      let guard ← upperOnReg f reg c
      if !(inLoop f l thenBlk && !inLoop f l elseBlk) then none
      else if (bodyBlocks f l).all fun n => n == l.header || (blockAt f n).all (staysInside f l) then some guard
      else none
    | _ => none

/-- The accepted loop of the header, with its guard. -/
def countingLoop (f : Func) (t : LoopTables) (header : BlockId) (reg : RegId) : Option (Loop × CmpOp × Operand) := do
  let b ← f.block header
  let h ← f.indexOf header
  let l ← t.loops.find? fun l => l.header == h
  let guard ← countingGuard f t l b reg
  pure (l, guard)

end Counting

/-! ## Counting inductions reach every admitted value

In strict SSA a copy stands for its source at every point that its definition dominates. So the test of the
header compares the counter of the visit, and a back edge that passes on `reg + 1` leads to a visit with the
next value: as long as every back edge does and the bound stays what it is, the visits run through all the
values that the guard admits.
-/

open Lib

namespace Counting

open Func Induction Intervals

variable {f : Func} {Γ : RegId → Nat}

/-! ## Copies at the end of a block -/

/-- The end of the block at `n` is reached. -/
structure AtEnd (f : Func) (Γ : RegId → Nat) (args : List Nat) (p : Point) (n : Nat) : Prop where
  reaches : f.Reaches Γ args p
  blk : f.blocks[n]? = some p.blk
  rest : p.rest = []

/-- Every definition of the register is in a block that dominates the one at `n`. -/
def Above (f : Func) (r : RegId) (n : Nat) : Prop :=
  ∀ (m : Nat) c k, f.blocks[m]? = some c → c.Writes r k → f.Dominates m n

theorem defOf_spec {r : RegId} {i : Inst} (h : defOf f r = some i) :
    ∃ (n : Nat) (b : BasicBlock) (j : Nat), f.blocks[n]? = some b ∧ b.insts[j]? = some i ∧ i.definedReg = some r := by
  have hmem := List.mem_reverse.mp (List.mem_of_find?_eq_some h)
  obtain ⟨b, hb, hi⟩ := List.mem_flatMap.mp hmem
  obtain ⟨n, hn⟩ := List.mem_iff_getElem?.mp hb
  obtain ⟨j, hj⟩ := List.mem_iff_getElem?.mp hi
  exact ⟨n, b, j, hn, hj, by simpa using List.find?_some h⟩

theorem AtEnd.located (hwf : f.WellFormed) {args : List Nat} {p : Point} {n : Nat} (h : AtEnd f Γ args p n) :
    f.Live n ∧ ∀ m k, f.Located p m k → m = n ∧ p.blk.insts.length ≤ k := by
  obtain ⟨m, k, hloc⟩ := h.reaches.located hwf
  obtain rfl := position_inj hwf hloc.blk h.blk
  refine ⟨hloc.live, fun m' k' hloc' => ⟨position_inj hwf hloc'.blk h.blk, ?_⟩⟩
  apply List.drop_eq_nil_iff.mp
  rw [← hloc'.rest, h.rest]

theorem AtEnd.evals (hwf : f.WellFormed) (hssa : f.StrictSsa) (hty : f.WellTyped Γ) {args : List Nat} {p : Point}
    {n : Nat} (h : AtEnd f Γ args p n) {r dst : RegId} {ty : Ty} {value : RValue}
    (hdef : defOf f r = some (.assign dst ty value)) (hr : Above f r n) {x : Nat} (hx : p.regs r = some x) :
    value.Evals Γ p.regs ty.typeWidth x ∧ Γ r = ty.typeWidth ∧
      value.WellTyped ty.typeWidth (value.operands.map (Operand.width Γ)) ∧
        ∀ src, .reg src ∈ value.operands → Above f src n := by
  obtain ⟨m, b, j, hb, hj, hdst⟩ := defOf_spec hdef
  obtain rfl : dst = r := Option.some.inj hdst
  have hdom : f.Dominates m n :=
    hr m b (j + 1) hb (.inr ⟨j, _, rfl, hj, by simp [Inst.writes, Inst.definedReg]⟩)
  obtain ⟨n', k', hloc, hsettled⟩ := h.reaches.settled hwf hb hj (assign_computes Γ dst ty value) (hssa.single hb hj)
  obtain ⟨rfl, hle⟩ := (h.located hwf).2 n' k' hloc
  have hlt : m = n' → j < k' := by
    rintro rfl
    obtain rfl : b = p.blk := Option.some.inj (hb.symm.trans hloc.blk)
    exact lt_of_lt_of_le (List.getElem?_eq_some_iff.mp hj).1 hle
  obtain ⟨hwidth, htyped⟩ := hty.assign b (List.mem_of_getElem? hb) dst ty value (List.mem_of_getElem? hj)
  refine ⟨hsettled hdom hlt x hx, hwidth, htyped, fun src hsrc m' c k hc hw => ?_⟩
  exact (hssa.use m b hb (dominates_live hdom) j dst ty value hj src hsrc m' c k hc hw).1.trans hdom

theorem use_evals {regs : Regs} {w x : Nat} {src : RegId} (h : (RValue.use (.reg src)).Evals Γ regs w x) :
    ∃ y, regs src = some y ∧ x = y % 2 ^ Γ src % 2 ^ w := by
  obtain ⟨xs, hxs, rfl⟩ := h
  cases hxs with
  | @cons _ y _ ys hy hys =>
    cases hys
    exact ⟨y, hy, rfl⟩

theorem AtEnd.followCopies (hwf : f.WellFormed) (hssa : f.StrictSsa) (hty : f.WellTyped Γ) {args : List Nat}
    {p : Point} {n : Nat} (h : AtEnd f Γ args p n) (fuel : Nat) {r : RegId} (hr : Above f r n) {x : Nat}
    (hx : p.regs r = some x) :
    Above f (followCopies f fuel r) n ∧ Γ (Counting.followCopies f fuel r) = Γ r ∧
      ∃ y, p.regs (Counting.followCopies f fuel r) = some y ∧ y % 2 ^ Γ r = x % 2 ^ Γ r ∧
        (x < 2 ^ Γ r ∨ y = x) := by
  induction fuel generalizing r x with
  | zero => exact ⟨hr, rfl, x, hx, rfl, .inr rfl⟩
  | succ fuel ih =>
    unfold Counting.followCopies
    split
    · rename_i dst ty src hdef
      split
      · obtain ⟨hval, hwidth, htyped, habove⟩ := h.evals hwf hssa hty hdef hr hx
        obtain ⟨y, hy, rfl⟩ := use_evals hval
        have hsrc : Γ src = Γ r := Eq.trans htyped hwidth.symm
        obtain ⟨habove', hwidth', z, hz, hzy, -⟩ := ih (habove src (List.mem_singleton.mpr rfl)) hy
        refine ⟨habove', hwidth'.trans hsrc, z, hz, ?_, .inl ?_⟩
        · rw [hsrc] at hzy ⊢
          rw [← hwidth, hzy, Nat.mod_mod, Nat.mod_mod]
        · rw [hwidth]
          exact Nat.mod_lt _ (Nat.two_pow_pos _)
      · exact ⟨hr, rfl, x, hx, rfl, .inr rfl⟩
    · exact ⟨hr, rfl, x, hx, rfl, .inr rfl⟩

theorem AtEnd.isCopyOf (hwf : f.WellFormed) (hssa : f.StrictSsa) (hty : f.WellTyped Γ) {args : List Nat}
    {p : Point} {n : Nat} (h : AtEnd f Γ args p n) {reg : RegId} {op : Operand}
    (hop : Counting.isCopyOf f reg op = true) (hr : ∀ r, op = .reg r → Above f r n) {x : Nat}
    (hx : op.Evals p.regs x) :
    op.width Γ = Γ reg ∧ ∃ y, p.regs reg = some y ∧ x % 2 ^ Γ reg = y % 2 ^ Γ reg := by
  cases op with
  | reg r =>
    obtain ⟨-, hwidth, y, hy, heq, -⟩ := h.followCopies hwf hssa hty 64 (hr r rfl) hx
    obtain rfl : Counting.followCopies f 64 r = reg := beq_iff_eq.mp hop
    refine ⟨hwidth.symm, y, hy, ?_⟩
    rw [hwidth, heq]
  | const c => exact absurd hop (by simp [Counting.isCopyOf])

/-! ## The unit step -/

theorem eval_add (w u v : Nat) : BvOp.eval .add w (u % 2 ^ w) (v % 2 ^ w) = (u + v) % 2 ^ w := by
  rw [BvOp.eval, BvOp.evalBv, BitVec.toNat_add, BitVec.toNat_ofNat, BitVec.toNat_ofNat, Nat.mod_mod, Nat.mod_mod,
    ← Nat.add_mod]

theorem succ_mod {w u y : Nat} (h : u % 2 ^ w = y % 2 ^ w) : (u + 1) % 2 ^ w = (y + 1) % 2 ^ w := by
  rw [Nat.add_mod, h, ← Nat.add_mod]

theorem bin_operands {regs : Regs} {w x : Nat} {op : BvOp} {a b : Operand}
    (h : (RValue.bin op a b).Evals Γ regs w x) :
    ∃ u v, a.Evals regs u ∧ b.Evals regs v ∧ x = op.eval w (u % 2 ^ a.width Γ) (v % 2 ^ b.width Γ) := by
  obtain ⟨xs, hxs, rfl⟩ := h
  cases hxs with
  | @cons _ u _ us hu hus =>
    cases hus with
    | @cons _ v _ vs hv hvs =>
      cases hvs
      exact ⟨u, v, hu, hv, rfl⟩

theorem isInt_evals {op : Operand} {k : Nat} (h : isInt k op = true) {regs : Regs} {x : Nat}
    (hx : op.Evals regs x) : x = k := by
  cases op with
  | reg r => exact absurd h (by simp [isInt])
  | const c =>
    cases c with
    | int bv =>
      have hx : x = bv.value := hx
      exact hx.trans (beq_iff_eq.mp h)
    | _ => exact absurd h (by simp [isInt])

theorem AtEnd.unitStep (hwf : f.WellFormed) (hssa : f.StrictSsa) (hty : f.WellTyped Γ) {args : List Nat}
    {p : Point} {n : Nat} (h : AtEnd f Γ args p n) {reg m : RegId} (hm : Counting.unitStep f reg m = some true)
    (hr : Above f m n) {x : Nat} (hx : p.regs m = some x) :
    ∃ y, p.regs reg = some y ∧ x % 2 ^ Γ reg = (y + 1) % 2 ^ Γ reg := by
  obtain ⟨habove, hwidth, z, hz, hzx, -⟩ := h.followCopies hwf hssa hty 64 hr hx
  unfold Counting.unitStep at hm
  split at hm
  · rename_i dst ty lhs rhs hdef
    obtain ⟨hval, hdst, htyped, hops⟩ := h.evals hwf hssa hty hdef habove hz
    obtain ⟨u, v, hu, hv, rfl⟩ := bin_operands hval
    obtain ⟨hlw, hrw⟩ : lhs.width Γ = ty.typeWidth ∧ rhs.width Γ = ty.typeWidth := htyped
    have hlabove : ∀ r, lhs = .reg r → Above f r n := fun r hr => hops r (hr ▸ List.mem_cons_self)
    have hrabove : ∀ r, rhs = .reg r → Above f r n := fun r hr =>
      hops r (hr ▸ List.mem_cons_of_mem _ (List.mem_singleton.mpr rfl))
    have hregs : Γ m = ty.typeWidth := hwidth.symm.trans hdst
    rcases Bool.or_eq_true_iff.mp (Option.some.inj hm) with hside | hside
    · obtain ⟨hcopy, hone⟩ := Bool.and_eq_true_iff.mp hside
      obtain ⟨hw, y, hy, huy⟩ := h.isCopyOf hwf hssa hty hcopy hlabove hu
      obtain rfl := isInt_evals hone hv
      refine ⟨y, hy, ?_⟩
      rw [← hw, hlw, ← hregs] at huy ⊢
      rw [← hzx, hlw, hrw, ← hregs, eval_add, Nat.mod_mod]
      exact succ_mod huy
    · obtain ⟨hcopy, hone⟩ := Bool.and_eq_true_iff.mp hside
      obtain ⟨hw, y, hy, hvy⟩ := h.isCopyOf hwf hssa hty hcopy hrabove hv
      obtain rfl := isInt_evals hone hu
      refine ⟨y, hy, ?_⟩
      rw [← hw, hrw, ← hregs] at hvy ⊢
      rw [← hzx, hlw, hrw, ← hregs, eval_add, Nat.mod_mod, Nat.add_comm 1 v]
      exact succ_mod hvy
  · exact absurd hm (by simp)

/-! ## What is accepted -/

/-- The loop of an accepted counter. -/
structure Accepted (f : Func) (l : Loop) (header : BasicBlock) (reg : RegId) (pos : Nat) (op : CmpOp)
    (bound : Operand) : Prop where
  param : ∃ ty, header.params[pos]? = some (reg, ty)
  upper : isUpper op = true
  guard : ∃ c t targs e eargs, header.term = .condBr (.reg c) t targs e eargs ∧ inLoop f l t = true ∧
    inLoop f l e = false ∧ ∃ dst ty lhs, defOf f (resolveCopy f c) = some (.assign dst ty (.cmp op lhs bound)) ∧
      Counting.isCopyOf f reg lhs = true
  inside : ∀ (n : Nat) b, f.blocks[n]? = some b → n ∈ l.body → n ≠ l.header → staysInside f l b = true

theorem countingGuard_spec (hids : (f.blocks.map (·.id)).Nodup) {t : LoopTables} {l : Loop} {header : BasicBlock}
    {reg : RegId} {op : CmpOp} {bound : Operand} (h : countingGuard f t l header reg = some (op, bound)) :
    ∃ pos, Accepted f l header reg pos op bound := by
  obtain ⟨pos, hpos, h⟩ := Option.bind_eq_some_iff.mp h
  simp only at h
  split at h
  · exact absurd h (by simp)
  · split at h
    · rename_i c thenBlk targs elseBlk eargs hterm
      obtain ⟨guard, hguard, h⟩ := Option.bind_eq_some_iff.mp h
      split at h
      · exact absurd h (by simp)
      · rename_i hin
        split at h
        · rename_i hinside
          obtain rfl := Option.some.inj h
          obtain ⟨hthen, helse⟩ : inLoop f l thenBlk = true ∧ inLoop f l elseBlk = false := by simpa using hin
          obtain ⟨hlt, hfound, -⟩ := List.findIdx?_eq_some_iff_getElem.mp hpos
          unfold upperOnReg at hguard
          split at hguard
          · rename_i dst ty op' lhs rhs hdef
            split at hguard
            · rename_i hcheck
              obtain ⟨rfl, rfl⟩ := Prod.mk.inj (Option.some.inj hguard)
              obtain ⟨⟨hupper, hcopy⟩, -⟩ : (isUpper op' = true ∧ Counting.isCopyOf f reg lhs = true) ∧ _ := by
                simpa using hcheck
              refine ⟨pos, ⟨(header.params[pos]).2, ?_⟩, hupper,
                ⟨c, thenBlk, targs, elseBlk, eargs, hterm, hthen, helse, dst, ty, lhs, hdef, hcopy⟩, ?_⟩
              · rw [List.getElem?_eq_getElem hlt, ← beq_iff_eq.mp hfound]
              · intro n b hb hn hne
                have hlen := (List.getElem?_eq_some_iff.mp hb).1
                have hthis := List.all_eq_true.mp hinside n (mem_bodyBlocks.mpr ⟨hlen, hn⟩)
                simpa [hne, blockAt_eq hids hb] using hthis
            · exact absurd hguard (by simp)
          · exact absurd hguard (by simp)
        · exact absurd h (by simp)
    · exact absurd h (by simp)

/-! ## Resolved symbols -/

variable {addr : String → Nat}

theorem defOf_resolve (r : RegId) : defOf (f.resolve addr) r = (defOf f r).map (Inst.resolve addr) := by
  have hinsts : (f.resolve addr).blocks.flatMap (·.insts) = (f.blocks.flatMap (·.insts)).map (Inst.resolve addr) := by
    rw [Func.resolve, List.flatMap_map, List.map_flatMap]
    rfl
  rw [defOf, hinsts, ← List.map_reverse, List.find?_map]
  simp [defOf, Function.comp_def]

theorem followCopies_resolve (fuel : Nat) (r : RegId) :
    followCopies (f.resolve addr) fuel r = followCopies f fuel r := by
  induction fuel generalizing r with
  | zero => rfl
  | succ fuel ih =>
    unfold followCopies
    rw [defOf_resolve]
    rcases defOf f r with _ | i
    · rfl
    rcases i with ⟨dst, ty, value⟩ | _ | _ | _ | _ | _ | _ | _ | _ | _ | _ | _ | _ <;> try rfl
    cases value with
    | use op =>
      cases op with
      | reg src => simp only [Option.map_some, Inst.resolve, RValue.resolve, Operand.resolve, ih]
      | const c => rfl
    | _ => rfl

theorem isCopyOf_resolve (reg : RegId) (op : Operand) :
    isCopyOf (f.resolve addr) reg (op.resolve addr) = isCopyOf f reg op := by
  cases op with
  | reg r =>
    show (followCopies (f.resolve addr) 64 r == reg) = _
    rw [followCopies_resolve]
    rfl
  | const c => rfl

theorem isInt_resolve {k : Nat} {op : Operand} (h : isInt k op = true) : isInt k (op.resolve addr) = true := by
  cases op with
  | reg r => exact absurd h (by simp [isInt])
  | const c =>
    cases c with
    | int bv => exact h
    | _ => exact absurd h (by simp [isInt])

theorem Accepted.resolve {l : Loop} {header : BasicBlock} {reg : RegId} {pos : Nat} {op : CmpOp} {bound : Operand}
    (h : Accepted f l header reg pos op bound) :
    Accepted (f.resolve addr) l (header.resolve addr) reg pos op (bound.resolve addr) := by
  have hin : ∀ id, inLoop (f.resolve addr) l id = inLoop f l id := fun id => by
    rw [inLoop, inLoop, indexOf_resolve]
  obtain ⟨c, t, targs, e, eargs, hterm, ht, he, dst, ty, lhs, hdef, hcopy⟩ := h.guard
  refine ⟨by simpa using h.param, h.upper, ⟨c, t, targs.map (Operand.resolve addr), e,
    eargs.map (Operand.resolve addr), ?_, (hin t).trans ht, (hin e).trans he, dst, ty, lhs.resolve addr, ?_, ?_⟩, ?_⟩
  · rw [BasicBlock.resolve, hterm]
    rfl
  · rw [resolveCopy, followCopies_resolve, ← resolveCopy, defOf_resolve, hdef]
    rfl
  · rw [isCopyOf_resolve]
    exact hcopy
  · intro n b hb hn hne
    rw [blocks_resolve] at hb
    obtain ⟨b', hb', rfl⟩ := Option.map_eq_some_iff.mp hb
    rw [← h.inside n b' hb' hn hne]
    cases hb : b'.term <;> simp only [staysInside, BasicBlock.resolve, hb, Terminator.resolve, hin]

end Counting

/-! ## The values a counting loop runs through

A course through a loop are its visits of the header, up to the one from which the loop is left, or for ever.
-/

open Lib

namespace Counting

open Func Induction Intervals

/-! ## The order of the guard -/

section order

variable {op : CmpOp} {w x y v b : Nat}

def isSigned : CmpOp → Bool
  | .slt | .sle => true
  | _ => false

/-- The number that the guard compares. -/
def key (op : CmpOp) (w x : Nat) : Int :=
  if isSigned op then (BitVec.ofNat w x).toInt else (BitVec.ofNat w x).toNat

theorem key_congr (h : x % 2 ^ w = y % 2 ^ w) : key op w x = key op w y := by
  have hbv : BitVec.ofNat w x = BitVec.ofNat w y := BitVec.eq_of_toNat_eq (by simpa using h)
  rw [key, key, hbv]

theorem key_inj (h : key op w x = key op w y) : x % 2 ^ w = y % 2 ^ w := by
  have hbv : BitVec.ofNat w x = BitVec.ofNat w y := by
    unfold key at h
    split at h
    · exact BitVec.eq_of_toInt_eq h
    · exact BitVec.eq_of_toNat_eq (by exact_mod_cast h)
  simpa using congrArg BitVec.toNat hbv

theorem key_succ (h : key op w x < key op w v) : key op w (x + 1) = key op w x + 1 := by
  have hpos : 0 < 2 ^ w := Nat.two_pow_pos w
  have hx : x % 2 ^ w < 2 ^ w := Nat.mod_lt _ hpos
  have hv : v % 2 ^ w < 2 ^ w := Nat.mod_lt _ hpos
  have hsucc : (x + 1) % 2 ^ w = if x % 2 ^ w + 1 = 2 ^ w then 0 else x % 2 ^ w + 1 := by
    rw [← Nat.mod_add_mod]
    split_ifs with hwrap
    · rw [hwrap, Nat.mod_self]
    · exact Nat.mod_eq_of_lt (by omega)
  unfold key at h ⊢
  simp only [BitVec.toInt_eq_toNat_cond, BitVec.toNat_ofNat] at h ⊢
  rw [hsucc]
  generalize 2 ^ w = M at *
  generalize x % M = a at *
  generalize v % M = c at *
  split_ifs at h ⊢ <;> omega

theorem admits_of_le (hop : isUpper op = true) (h : key op w x ≤ key op w v) (hv : op.eval w v b = true) :
    op.eval w x b = true := by
  cases op with
  | slt =>
    rw [CmpOp.eval, CmpOp.evalBv, BitVec.slt_iff_toInt_lt] at hv ⊢
    exact lt_of_le_of_lt h hv
  | sle =>
    rw [CmpOp.eval, CmpOp.evalBv, BitVec.sle_iff_toInt_le] at hv ⊢
    exact le_trans h hv
  | ult =>
    rw [CmpOp.eval, CmpOp.evalBv, BitVec.ult_iff_lt, BitVec.lt_def] at hv ⊢
    exact lt_of_le_of_lt (Int.ofNat_le.mp h) hv
  | ule =>
    rw [CmpOp.eval, CmpOp.evalBv, BitVec.ule_iff_le, BitVec.le_def] at hv ⊢
    exact le_trans (Int.ofNat_le.mp h) hv
  | _ => exact absurd hop (by decide)

end order

/-! ## The guard at a visit -/

variable {f : Func} {Γ : RegId → Nat} {l : Loop} {header : BasicBlock} {reg : RegId} {pos : Nat} {op : CmpOp}
  {bound : Operand} {args : List Nat}

theorem Accepted.test (hacc : Accepted f l header reg pos op bound) (hwf : f.WellFormed) (hssa : f.StrictSsa)
    (hty : f.WellTyped Γ) (hheader : f.blocks[l.header]? = some header) {e : Point}
    (he : AtEnd f Γ args e l.header) {c : RegId} {t el : BlockId} {targs eargs : List Operand}
    (hterm : header.term = .condBr (.reg c) t targs el eargs) {x : Nat} (hx : e.regs c = some x) :
    ∃ y z, e.regs reg = some y ∧ bound.Evals e.regs z ∧
      (x ≠ 0 ↔ op.eval (Γ reg) (y % 2 ^ Γ reg) (z % 2 ^ Γ reg) = true) := by
  obtain ⟨c', t', targs', el', eargs', hterm', -, -, dst, ty, lhs, hdef, hcopy⟩ := hacc.guard
  obtain ⟨rfl, rfl, rfl, rfl, rfl⟩ : c' = c ∧ t' = t ∧ targs' = targs ∧ el' = el ∧ eargs' = eargs := by
    rw [hterm] at hterm'
    simpa [eq_comm] using hterm'
  have hc : Above f c' l.header := fun m b k hb hw =>
    hssa.branch l.header header hheader (he.located hwf).1 c' t' targs' el' eargs' hterm m b k hb hw
  obtain ⟨habove, hwidth, d, hd, hdx, hsame⟩ := he.followCopies hwf hssa hty 64 hc hx
  obtain ⟨hval, hdst, htyped, hops⟩ := he.evals hwf hssa hty hdef habove hd
  obtain ⟨u, z, hu, hz, rfl⟩ := cmp_evals hval
  obtain ⟨hone, hwidths⟩ : ty.typeWidth = 1 ∧ lhs.width Γ = bound.width Γ := htyped
  have hlabove : ∀ r, lhs = .reg r → Above f r l.header := fun r hr => hops r (hr ▸ List.mem_cons_self)
  obtain ⟨hlw, y, hy, huy⟩ := he.isCopyOf hwf hssa hty hcopy hlabove hu
  refine ⟨y, z, hy, hz, ?_⟩
  rw [← hwidths, hlw, huy] at hdx hsame
  generalize op.eval (Γ reg) (y % 2 ^ Γ reg) (z % 2 ^ Γ reg) = holds at hdx hsame ⊢
  have hbit : Γ c' = 1 := (hwidth.symm.trans hdst).trans hone
  rw [hbit] at hdx hsame
  cases holds <;> simp at hdx hsame ⊢ <;> omega

theorem inLoop_iff (hwf : f.WellFormed) {target : BlockId} {b : BasicBlock} (hb : f.block target = some b) {m : Nat}
    (hm : f.blocks[m]? = some b) : inLoop f l target = true ↔ m ∈ l.body := by
  obtain ⟨n, hn, hblk⟩ := indexOf_block hwf hb
  obtain rfl := position_inj hwf hblk hm
  simp [inLoop, hn]

/-- The loop is left after the visit, from a block of its body. -/
def Leaves (f : Func) (Γ : RegId → Nat) (l : Loop) (q : Point) : Prop :=
  ∃ e r, ∃ n m : Nat, f.Between Γ l.header q e ∧ f.blocks[n]? = some e.blk ∧ n ∈ l.body ∧ e.rest = [] ∧
    f.Step Γ e r ∧ f.blocks[m]? = some r.blk ∧ m ∉ l.body

/-- **The loop is left through its guard**, which does not admit the counter then. -/
theorem Accepted.leaves (hacc : Accepted f l header reg pos op bound) (hwf : f.WellFormed) (hssa : f.StrictSsa)
    (hty : f.WellTyped Γ) (hheader : f.blocks[l.header]? = some header) {q : Point} (hq : f.Reaches Γ args q)
    (hleaves : Leaves f Γ l q) :
    ∃ e y z, f.Between Γ l.header q e ∧ AtEnd f Γ args e l.header ∧ e.regs reg = some y ∧ bound.Evals e.regs z ∧
      op.eval (Γ reg) (y % 2 ^ Γ reg) (z % 2 ^ Γ reg) = false := by
  obtain ⟨e, r, n, m, hqe, hblk, hn, hrest, hstep, hm, hout⟩ := hleaves
  have he := hqe.reaches hq
  obtain ⟨target, as, hgoes, htarget⟩ : ∃ target as, e.blk.term.Goes e.regs target as ∧ f.block target = some r.blk := by
    cases hstep with
    | inst _ => exact absurd hrest (List.cons_ne_nil _ _)
    | jump hgoes htb _ _ => exact ⟨_, _, hgoes, htb⟩
  have hnot : inLoop f l target = false := by
    rw [Bool.eq_false_iff]
    exact fun h => hout ((inLoop_iff hwf htarget hm).mp h)
  by_cases hne : n = l.header
  · subst hne
    obtain rfl : header = e.blk := Option.some.inj (hheader.symm.trans hblk)
    have hend : AtEnd f Γ args e l.header := ⟨he, hblk, hrest⟩
    obtain ⟨c, t, targs, el, eargs, hterm, ht, -⟩ := hacc.guard
    rw [hterm] at hgoes
    cases hgoes with
    | condThen _ _ => exact absurd (ht.symm.trans hnot) (by simp)
    | condElse hx =>
      obtain ⟨y, z, hy, hz, htest⟩ := hacc.test hwf hssa hty hheader hend hterm hx
      exact ⟨e, y, z, hqe, hend, hy, hz, by simpa using htest⟩
  · -- the other blocks only go on in the body
    exfalso
    have hstays := hacc.inside n e.blk hblk hn hne
    unfold staysInside at hstays
    cases hterm : e.blk.term with
    | br t as =>
      rw [hterm] at hstays hgoes
      cases hgoes
      exact absurd (hstays.symm.trans hnot) (by simp)
    | condBr c t targs el eargs =>
      rw [hterm] at hstays hgoes
      obtain ⟨ht, hel⟩ := Bool.and_eq_true_iff.mp hstays
      cases hgoes with
      | condThen _ _ => exact absurd (ht.symm.trans hnot) (by simp)
      | condElse _ => exact absurd (hel.symm.trans hnot) (by simp)
    | _ =>
      rw [hterm] at hstays
      exact absurd hstays (by simp)

/-! ## Courses through the loop -/

/-- From the visit `p` the loop is gone round until it is left after the last visit, or for ever. -/
structure Course (f : Func) (Γ : RegId → Nat) (l : Loop) (p : Point) (visits : Nat → Point) (last : Option Nat) :
    Prop where
  start : visits 0 = p
  lap : ∀ n, (∀ m ∈ last, n < m) → f.Lap Γ l (visits n) (visits (n + 1))
  leave : ∀ m ∈ last, Leaves f Γ l (visits m)

/-- A round whose back edge passes on `reg + 1`. -/
def UnitLap (f : Func) (Γ : RegId → Nat) (l : Loop) (reg : RegId) (p q : Point) : Prop :=
  ∃ (e : Point) (n : Nat) (target : BlockId) (as : List Operand) (xs : List Nat) (pos : Nat) (ty : Ty) (m : RegId),
    f.Between Γ l.header p e ∧ f.blocks[n]? = some e.blk ∧ e.rest = [] ∧ e.blk.term.Goes e.regs target as ∧
      List.Forall₂ (Operand.Evals e.regs) as xs ∧ q.regs = e.regs.bind q.blk.params xs ∧
        q.blk.params[pos]? = some (reg, ty) ∧ as[pos]? = some (.reg m) ∧ unitStep f reg m = some true

/-- Every round of the course passes on `reg + 1`, and every test finds the bound `b`. -/
structure Steady (f : Func) (Γ : RegId → Nat) (l : Loop) (reg : RegId) (bound : Operand) (b : Nat)
    (visits : Nat → Point) (last : Option Nat) : Prop where
  unit : ∀ n, (∀ m ∈ last, n < m) → UnitLap f Γ l reg (visits n) (visits (n + 1))
  bound : ∀ n, (∀ m ∈ last, n ≤ m) → ∀ e, f.Between Γ l.header (visits n) e → f.blocks[l.header]? = some e.blk →
    e.rest = [] → ∀ z, bound.Evals e.regs z → z % 2 ^ Γ reg = b

theorem Course.reaches {visits : Nat → Point} {last : Option Nat} {p : Point} (hc : Course f Γ l p visits last)
    (hp : f.Reaches Γ args p) (n : Nat) (hn : ∀ m ∈ last, n ≤ m) : f.Reaches Γ args (visits n) := by
  induction n with
  | zero => exact hc.start ▸ hp
  | succ n ih =>
    have hlt : ∀ m ∈ last, n < m := fun m hm => hn m hm
    exact (hc.lap n hlt).reaches (ih fun m hm => le_of_lt (hlt m hm))

theorem Accepted.keeps (hacc : Accepted f l header reg pos op bound) (hwf : f.WellFormed) (hblk : f.BlockSsa)
    (hheader : f.blocks[l.header]? = some header) {p e : Point} (hp : f.Reaches Γ args p)
    (hpe : f.Between Γ l.header p e) : e.regs reg = p.regs reg := by
  obtain ⟨ty, hparam⟩ := hacc.param
  have hmem : reg ∈ header.params.map (·.1) := List.mem_map.mpr ⟨_, List.mem_of_getElem? hparam, rfl⟩
  exact hpe.keeps hwf (hblk.param_once l.header header hheader reg hmem) (hp.located hwf)

theorem Accepted.unitLap (hacc : Accepted f l header reg pos op bound) (hwf : f.WellFormed) (hssa : f.StrictSsa)
    (hblk : f.BlockSsa) (hty : f.WellTyped Γ) (hheader : f.blocks[l.header]? = some header) {p q : Point}
    (hp : f.Reaches Γ args p) (hq : f.Visits l.header q) (hlap : UnitLap f Γ l reg p q) :
    ∃ x y, p.regs reg = some x ∧ q.regs reg = some y ∧ y % 2 ^ Γ reg = (x + 1) % 2 ^ Γ reg := by
  obtain ⟨e, n, target, as, xs, pos', ty, m, hpe, hn, hrest, hgoes, hxs, hregs, hparam, harg, hunit⟩ := hlap
  have hend : AtEnd f Γ args e n := ⟨hpe.reaches hp, hn, hrest⟩
  have hm : Above f m n := fun k b j hb hw =>
    hblk.arg n e.blk hn (hend.located hwf).1 _ hgoes.mem_edges m (List.mem_of_getElem? harg) k b j hb hw
  obtain ⟨hplt, hget⟩ := List.getElem?_eq_some_iff.mp harg
  have hxlt : pos' < xs.length := hxs.length_eq ▸ hplt
  have hval : (Operand.reg m).Evals e.regs xs[pos'] := by
    have hpair := (List.forall₂_iff_get.mp hxs).2 pos' hplt hxlt
    rwa [List.get_eq_getElem, List.get_eq_getElem, hget] at hpair
  obtain ⟨x, hx, hstep⟩ := hend.unitStep hwf hssa hty hunit hm hval
  refine ⟨x, xs[pos'], (hacc.keeps hwf hblk hheader hp hpe) ▸ hx, ?_, hstep⟩
  rw [hregs]
  exact bind_param (hblk.param_nodup _ (List.mem_of_getElem? hq.1)) hparam (List.getElem?_eq_getElem hxlt)

/-- **The visits run through the admitted values**, by induction on how far the value is ahead. -/
theorem Accepted.runs_through (hacc : Accepted f l header reg pos op bound) (hwf : f.WellFormed)
    (hssa : f.StrictSsa) (hblk : f.BlockSsa) (hty : f.WellTyped Γ) (hheader : f.blocks[l.header]? = some header)
    {p : Point} (hp : f.Reaches Γ args p) {visits : Nat → Point} {last : Option Nat}
    (hc : Course f Γ l p visits last) {b : Nat} (hs : Steady f Γ l reg bound b visits last) {v : Nat}
    (hv : op.eval (Γ reg) v b = true) (d : Nat) {n x : Nat} (hn : ∀ m ∈ last, n ≤ m)
    (hx : (visits n).regs reg = some x) (hd : key op (Γ reg) v = key op (Γ reg) x + d) :
    ∃ n x, (∀ m ∈ last, n ≤ m) ∧ (visits n).regs reg = some x ∧ x % 2 ^ Γ reg = v % 2 ^ Γ reg := by
  induction d generalizing n x with
  | zero =>
    have heq : key op (Γ reg) x = key op (Γ reg) v := by omega
    exact ⟨n, x, hn, hx, key_inj heq⟩
  | succ d ih =>
    have hlt : key op (Γ reg) x < key op (Γ reg) v := by omega
    have hreach := hc.reaches hp n hn
    -- the guard still admits the value, so this is not the last visit
    have hmore : ∀ m ∈ last, n < m := by
      intro m hm
      apply lt_of_le_of_ne (hn m hm)
      rintro rfl
      obtain ⟨e, y, z, hqe, hend, hy, hz, htest⟩ := hacc.leaves hwf hssa hty hheader hreach (hc.leave n hm)
      rw [hacc.keeps hwf hblk hheader hreach hqe, hx] at hy
      obtain rfl := Option.some.inj hy
      rw [hs.bound n hn e hqe hend.blk hend.rest z hz] at htest
      have hle : key op (Γ reg) (x % 2 ^ Γ reg) ≤ key op (Γ reg) v := by
        rw [key_congr (Nat.mod_mod x (2 ^ Γ reg))]
        exact le_of_lt hlt
      have hadm := admits_of_le hacc.upper hle hv
      exact absurd (hadm.symm.trans htest) (by simp)
    obtain ⟨x₁, y, hx₁, hy, hstep⟩ := hacc.unitLap hwf hssa hblk hty hheader hreach (hc.lap n hmore).finish
      (hs.unit n hmore)
    obtain rfl : x = x₁ := Option.some.inj (hx.symm.trans hx₁)
    apply ih (n := n + 1) (x := y) (fun m hm => hmore m hm) hy
    rw [key_congr hstep, key_succ hlt]
    omega

theorem countingLoop_spec (hids : (f.blocks.map (·.id)).Nodup) {t : LoopTables} {id : BlockId}
    (h : countingLoop f t id reg = some (l, op, bound)) :
    ∃ header pos, f.blocks[l.header]? = some header ∧ Accepted f l header reg pos op bound := by
  obtain ⟨header, hheader, h⟩ := Option.bind_eq_some_iff.mp h
  obtain ⟨n, hn, h⟩ := Option.bind_eq_some_iff.mp h
  obtain ⟨l', hl', h⟩ := Option.bind_eq_some_iff.mp h
  obtain ⟨guard, hguard, h⟩ := Option.bind_eq_some_iff.mp h
  obtain ⟨rfl, rfl⟩ := Prod.mk.inj (Option.some.inj h)
  obtain rfl : l'.header = n := by simpa using List.find?_some hl'
  obtain ⟨pos, hacc⟩ := countingGuard_spec hids hguard
  obtain ⟨b, hb, hid⟩ := indexOf_spec hn
  refine ⟨header, pos, ?_, hacc⟩
  obtain ⟨hmem, hid'⟩ := block_spec hheader
  obtain rfl := List.inj_on_of_nodup_map hids (List.mem_of_getElem? hb) hmem (hid.trans hid'.symm)
  exact hb

/-- The values between the counter's and those that the guard no longer admits. -/
def RunsThrough (Γ : RegId → Nat) (reg : RegId) (op : CmpOp) (b : Nat) (p : Point)
    (visits : Nat → Point) (last : Option Nat) : Prop :=
  ∀ x v, p.regs reg = some x → key op (Γ reg) x ≤ key op (Γ reg) v → op.eval (Γ reg) v b = true →
    ∃ n y, (∀ m ∈ last, n ≤ m) ∧ (visits n).regs reg = some y ∧ y % 2 ^ Γ reg = v % 2 ^ Γ reg

/-- **Counting inductions reach every admitted value**, in every course through an accepted loop whose rounds
    all pass on `reg + 1` and whose tests all find the same bound. -/
theorem counting_runs_through {addr : String → Nat} (hwf : (f.resolve addr).WellFormed)
    (hssa : (f.resolve addr).StrictSsa) (hblk : (f.resolve addr).BlockSsa) (hty : (f.resolve addr).WellTyped Γ)
    {t : LoopTables} {id : BlockId} (hloop : countingLoop f t id reg = some (l, op, bound)) {p : Point}
    (hp : (f.resolve addr).Reaches Γ args p) {visits : Nat → Point} {last : Option Nat}
    (hc : Course (f.resolve addr) Γ l p visits last) {b : Nat}
    (hs : Steady (f.resolve addr) Γ l reg (bound.resolve addr) b visits last) :
    RunsThrough Γ reg op b p visits last := by
  have hids : (f.blocks.map (·.id)).Nodup := by
    have hids := hwf.ids
    rwa [Func.resolve, List.map_map] at hids
  obtain ⟨header, pos, hheader, hacc⟩ := countingLoop_spec hids hloop
  have hheader' : (f.resolve addr).blocks[l.header]? = some (header.resolve addr) := by
    rw [blocks_resolve, hheader]
    rfl
  intro x v hx hlo hv
  obtain ⟨d, hd⟩ := Int.eq_ofNat_of_zero_le (Int.sub_nonneg_of_le hlo)
  apply hacc.resolve.runs_through hwf hssa hblk hty hheader' hp hc hs hv d (n := 0) (x := x)
  · exact fun m _ => Nat.zero_le m
  · rw [hc.start]
    exact hx
  · omega

/-! ## Two latches with different steps -/

def zeroI64 : BitVector := ⟨64, 0, BitVector.pos64, BitVector.le64, BitVector.zero_lt64⟩

def twoI64 : BitVector := ⟨64, 2, BitVector.pos64, BitVector.le64, BitVector.two_lt64⟩

/-- The guard `counter < k`. -/
def stepHeader (k : BitVector) : BasicBlock where
  id := 1
  params := [(1, .int 64)]
  insts := [.assign 3 .bool (.cmp .ult (.reg 1) (.const (.int k)))]
  term := .condBr (.reg 3) 2 [] 5 []

/-- A latch that adds `k`. -/
def stepLatch (id : BlockId) (dst : RegId) (k : BitVector) : BasicBlock where
  id := id
  params := []
  insts := [.assign dst (.int 64) (.bin .add (.reg 1) (.const (.int k)))]
  term := .br 1 [.reg dst]

/-- The parameter decides whether the counter goes on by `k` or by one. -/
def stepLoop (k : BitVector) : Func where
  name := "step"
  params := [(6, .bool)]
  retTy := .unit
  blocks := [⟨0, [], [], .br 1 [.const (.int zeroI64)]⟩, stepHeader k, ⟨2, [], [], .condBr (.reg 6) 3 [] 4 []⟩,
    stepLatch 3 5 k, stepLatch 4 2 oneI64, ⟨5, [], [], .ret none⟩]
  entry := 0

def stepWidth (r : RegId) : Nat := if r = 3 ∨ r = 6 then 1 else 64

def stepFirst : Regs := (Regs.set (fun _ => none) 6 1).set 1 0

def stepSecond (k : BitVector) : Regs := ((stepFirst.set 3 1).set 5 k.value).set 1 k.value

def stepVisit (k : BitVector) (regs : Regs) : Point := ⟨stepHeader k, (stepHeader k).insts, regs⟩

/-- What is used of the accepted loop. -/
def stepCheck (k : BitVector) (r : Loop × CmpOp × Operand) : Bool :=
  r.1.header == 1 && r.1.latches.contains 3 && decide (1 ∈ r.1.body) && !decide (5 ∈ r.1.body) && r.2.1 == .ult &&
    isInt k.value r.2.2

theorem stepLoop_counts {k : BitVector} (hk : k = oneI64 ∨ k = twoI64) :
    ∃ t l bound, (stepLoop k).loopTables = some t ∧ countingLoop (stepLoop k) t 1 1 = some (l, .ult, bound) ∧
      l.header = 1 ∧ 3 ∈ l.latches ∧ 1 ∈ l.body ∧ 5 ∉ l.body ∧ isInt k.value bound = true := by
  have hcheck : ((stepLoop k).loopTables.bind fun t => countingLoop (stepLoop k) t 1 1).any (stepCheck k) = true := by
    rcases hk with rfl | rfl
    · decide +kernel
    · decide +kernel
  obtain ⟨⟨l, op, bound⟩, hr, hok⟩ := (Option.any_eq_true _ _).mp hcheck
  obtain ⟨t, ht, hloop⟩ := Option.bind_eq_some_iff.mp hr
  simp only [stepCheck, Bool.and_eq_true, beq_iff_eq, List.contains_iff_mem, decide_eq_true_eq,
    Bool.not_eq_true', decide_eq_false_iff_not] at hok
  obtain ⟨⟨⟨⟨⟨hh, hl⟩, hin⟩, hout⟩, rfl⟩, hb⟩ := hok
  exact ⟨t, l, bound, ht, hloop, hh, hl, hin, hout, hb⟩

def stepBack (k : BitVector) : Point := ⟨stepLatch 3 5 k, [], (stepFirst.set 3 1).set 5 k.value⟩

theorem not_visits_of_id {k : BitVector} {p : Point} (h : p.blk.id ≠ 1) : ¬ (stepLoop k).Visits 1 p :=
  fun hv => h (congrArg BasicBlock.id (Option.some.inj hv.1)).symm

theorem stepLoop_between {k : BitVector} (hk : k = oneI64 ∨ k = twoI64) :
    (stepLoop k).Between stepWidth 1 (stepVisit k stepFirst) (stepBack k) := by
  have hcmp : RValue.Evals stepWidth stepFirst 1 (.cmp .ult (.reg 1) (.const (.int k))) 1 := by
    refine ⟨[0, k.value], .cons rfl (.cons rfl .nil), ?_⟩
    rcases hk with rfl | rfl <;> decide
  have hadd : RValue.Evals stepWidth (stepFirst.set 3 1) 64 (.bin .add (.reg 1) (.const (.int k))) k.value := by
    refine ⟨[0, k.value], .cons rfl (.cons rfl .nil), ?_⟩
    rcases hk with rfl | rfl <;> decide
  have hguard : (stepLoop k).Step stepWidth (stepVisit k stepFirst) ⟨stepHeader k, [], stepFirst.set 3 1⟩ :=
    .inst (.assign hcmp)
  have henter : (stepLoop k).Step stepWidth ⟨stepHeader k, [], stepFirst.set 3 1⟩
      ⟨⟨2, [], [], .condBr (.reg 6) 3 [] 4 []⟩, [], stepFirst.set 3 1⟩ := by
    have htest : (Operand.reg 3).Evals (stepFirst.set 3 1) 1 := rfl
    exact .jump (.condThen htest (by decide)) rfl .nil rfl
  have hchoose : (stepLoop k).Step stepWidth ⟨⟨2, [], [], .condBr (.reg 6) 3 [] 4 []⟩, [], stepFirst.set 3 1⟩
      ⟨stepLatch 3 5 k, (stepLatch 3 5 k).insts, stepFirst.set 3 1⟩ := by
    have htest : (Operand.reg 6).Evals (stepFirst.set 3 1) 1 := rfl
    exact .jump (.condThen htest (by decide)) rfl .nil rfl
  have hstep : (stepLoop k).Step stepWidth ⟨stepLatch 3 5 k, (stepLatch 3 5 k).insts, stepFirst.set 3 1⟩
      (stepBack k) := .inst (.assign hadd)
  refine .tail (.tail (.tail (.tail .refl ⟨hguard, ?_⟩) ⟨henter, ?_⟩) ⟨hchoose, ?_⟩) ⟨hstep, ?_⟩
  · exact fun hv => absurd (congrArg List.length hv.2) (by simp [stepHeader])
  · exact not_visits_of_id (by decide)
  · exact not_visits_of_id (by simp [stepLatch])
  · exact not_visits_of_id (by simp [stepBack, stepLatch])

theorem stepLoop_lap {k : BitVector} (hk : k = oneI64 ∨ k = twoI64) {l : Loop} (hh : l.header = 1)
    (hl : 3 ∈ l.latches) :
    (stepLoop k).Lap stepWidth l (stepVisit k stepFirst) (stepVisit k (stepSecond k)) where
  start := by
    rw [hh]
    exact ⟨rfl, rfl⟩
  finish := by
    rw [hh]
    exact ⟨rfl, rfl⟩
  back := by
    rw [hh]
    have hargs : List.Forall₂ (Operand.Evals (stepBack k).regs) [.reg 5] [k.value] := .cons rfl .nil
    exact ⟨stepBack k, 3, stepLoop_between hk, hl, rfl, rfl, .jump .br rfl hargs rfl⟩

theorem stepLoop_leaves {k : BitVector} (hk : k = oneI64 ∨ k = twoI64) {l : Loop} (hh : l.header = 1)
    (hin : 1 ∈ l.body) (hout : 5 ∉ l.body) : Leaves (stepLoop k) stepWidth l (stepVisit k (stepSecond k)) := by
  have hcmp : RValue.Evals stepWidth (stepSecond k) 1 (.cmp .ult (.reg 1) (.const (.int k))) 0 := by
    refine ⟨[k.value, k.value], .cons rfl (.cons rfl .nil), ?_⟩
    rcases hk with rfl | rfl <;> decide
  refine ⟨⟨stepHeader k, [], (stepSecond k).set 3 0⟩, ⟨⟨5, [], [], .ret none⟩, [], (stepSecond k).set 3 0⟩, 1, 5, ?_,
    rfl, hin, rfl, ?_, rfl, hout⟩
  · rw [hh]
    refine .tail .refl ⟨.inst (.assign hcmp), ?_⟩
    exact fun hv => absurd (congrArg List.length hv.2) (by simp [stepHeader])
  · have htest : (Operand.reg 3).Evals ((stepSecond k).set 3 0) 0 := rfl
    exact .jump (.condElse htest) rfl .nil rfl

theorem stepLoop_course {k : BitVector} (hk : k = oneI64 ∨ k = twoI64) {l : Loop} (hh : l.header = 1)
    (hl : 3 ∈ l.latches) (hin : 1 ∈ l.body) (hout : 5 ∉ l.body) :
    Course (stepLoop k) stepWidth l (stepVisit k stepFirst)
      (fun n => if n = 0 then stepVisit k stepFirst else stepVisit k (stepSecond k)) (some 1) where
  start := rfl
  lap n hn := by
    obtain rfl : n = 0 := Nat.lt_one_iff.mp (hn 1 rfl)
    exact stepLoop_lap hk hh hl
  leave m hm := by
    obtain rfl := Option.some.inj hm
    exact stepLoop_leaves hk hh hin hout

theorem stepLoop_enters (k : BitVector) :
    (stepLoop k).Reaches stepWidth [1] (stepVisit k stepFirst) := by
  have hargs : List.Forall₂ (Operand.Evals (Regs.set (fun _ => none) 6 1)) [.const (.int zeroI64)] [0] :=
    .cons rfl .nil
  exact .step (.start ⟨rfl, rfl, rfl, rfl⟩) (.jump .br rfl hargs rfl)

/-- With the step `2` the value `1` is passed over. -/
theorem step_two_skips :
    ¬ ∀ (f : Func) (addr : String → Nat) (Γ : RegId → Nat), (f.resolve addr).WellFormed →
      (f.resolve addr).StrictSsa → (f.resolve addr).BlockSsa → (f.resolve addr).WellTyped Γ → ∀ t,
        f.loopTables = some t → ∀ id reg l op bound, countingLoop f t id reg = some (l, op, bound) → ∀ args p,
          (f.resolve addr).Reaches Γ args p → ∀ visits last, Course (f.resolve addr) Γ l p visits last →
            ∀ b, (∀ regs z, (bound.resolve addr).Evals regs z → z = b) →
              RunsThrough Γ reg op b p visits last := by
  intro h
  obtain ⟨t, l, bound, ht, hloop, hh, hl, hin, hout, hb⟩ := stepLoop_counts (k := twoI64) (.inr rfl)
  obtain ⟨hwf, hssa, hblk, hty⟩ : _ ∧ _ ∧ _ ∧ _ :=
    check_sound (show Func.check ((stepLoop twoI64).resolve fun _ => 0) stepWidth = true by decide +kernel)
  have hbound : ∀ regs z, (bound.resolve fun _ => 0).Evals regs z → z = 2 :=
    fun regs z hz => isInt_evals (isInt_resolve hb) hz
  have hrun := h _ (fun _ => 0) _ hwf hssa hblk hty t ht 1 1 l .ult bound hloop _ _ (stepLoop_enters twoI64) _ _
    (stepLoop_course (.inr rfl) hh hl hin hout) 2 hbound
  obtain ⟨n, y, hn, hy, hval⟩ := hrun 0 1 rfl (by decide) (by decide)
  obtain rfl | rfl : n = 0 ∨ n = 1 := Nat.le_one_iff_eq_zero_or_eq_one.mp (hn 1 rfl)
  · obtain rfl : 0 = y := Option.some.inj hy
    exact absurd hval (by decide)
  · obtain rfl : 2 = y := Option.some.inj hy
    exact absurd hval (by decide)

/-- With the step `1` every value up to `1` is reached. -/
theorem step_one_counts :
    RunsThrough stepWidth 1 .ult 1 (stepVisit oneI64 stepFirst)
      (fun n => if n = 0 then stepVisit oneI64 stepFirst else stepVisit oneI64 (stepSecond oneI64)) (some 1) := by
  obtain ⟨t, l, bound, -, hloop, hh, hl, hin, hout, hb⟩ := stepLoop_counts (k := oneI64) (.inl rfl)
  obtain ⟨hwf, hssa, hblk, hty⟩ : _ ∧ _ ∧ _ ∧ _ :=
    check_sound (show Func.check ((stepLoop oneI64).resolve fun _ => 0) stepWidth = true by decide +kernel)
  refine counting_runs_through hwf hssa hblk hty hloop (stepLoop_enters oneI64)
    (stepLoop_course (.inl rfl) hh hl hin hout) ⟨?_, ?_⟩
  · intro n hn
    obtain rfl : n = 0 := Nat.lt_one_iff.mp (hn 1 rfl)
    have hargs : List.Forall₂ (Operand.Evals (stepBack oneI64).regs) [.reg 5] [1] := .cons rfl .nil
    have hunit : unitStep ((stepLoop oneI64).resolve fun _ => 0) 1 5 = some true := by decide +kernel
    refine ⟨stepBack oneI64, 3, 1, [.reg 5], [1], 0, .int 64, 5, ?_, rfl, rfl, .br, hargs, rfl, rfl, rfl, hunit⟩
    rw [hh]
    exact stepLoop_between (.inl rfl)
  · intro n _ e _ _ _ z hz
    obtain rfl := isInt_evals (isInt_resolve hb) hz
    decide

end Counting

end Csolver
