import Csolver.Absint.InductionSound
import Csolver.Ir.Resolve

/-!
# The exit test in a round

A round goes on from the header to a block of the body, and the recognisers ask that exactly one successor
of the header is one, the one taken for different operands. So in every round the test finds different
operands. What is recognised of a function holds of the function with its symbols resolved as well.
-/

namespace Csolver

open Lib

namespace Induction

open Func Intervals

variable {f : Func} {Γ : RegId → Nat} {addr : String → Nat}

theorem findCmp_spec {b : BasicBlock} {c : RegId} {op : CmpOp} {lhs rhs : Operand}
    (h : findCmp b c = some (op, lhs, rhs)) :
    ∃ (j : Nat) (ty : Ty), b.insts[j]? = some (.assign c ty (.cmp op lhs rhs)) := by
  obtain ⟨i, hi, hfound⟩ := List.exists_of_findSome?_eq_some h
  clear h
  split at hfound
  · rename_i dst ty op' lhs' rhs'
    split at hfound
    · rename_i hdst
      subst hdst
      obtain ⟨rfl, rfl, rfl⟩ : op' = op ∧ lhs' = lhs ∧ rhs' = rhs := by simpa using hfound
      obtain ⟨j, hj⟩ := List.mem_iff_getElem?.mp hi
      exact ⟨j, ty, hj⟩
    · exact absurd hfound (by simp)
  · exact absurd hfound (by simp)

/-- The test of the header: the comparison, and the only successor in the loop is the one for different
    operands. -/
theorem exitTest_spec {l : Loop} {header : BasicBlock} {lhs rhs : Operand}
    (h : exitTest f l header = some (lhs, rhs)) :
    ∃ c t targs e eargs op, header.term = .condBr (.reg c) t targs e eargs ∧
      (∃ (j : Nat) (ty : Ty), header.insts[j]? = some (.assign c ty (.cmp op lhs rhs))) ∧
      ((op = .ne ∧ inLoop f l t = true ∧ inLoop f l e = false) ∨
        (op = .eq ∧ inLoop f l t = false ∧ inLoop f l e = true)) := by
  unfold exitTest at h
  split at h
  · rename_i c t targs e eargs hterm
    obtain ⟨⟨op, a, b⟩, hcmp, h⟩ := Option.bind_eq_some_iff.mp h
    simp only at h
    split at h
    · exact absurd h (by simp)
    · rename_i hne
      have hfound := findCmp_spec hcmp
      cases op with
      | ne =>
        obtain ⟨ht, heq⟩ := Option.ite_none_right_eq_some.mp h
        obtain ⟨rfl, rfl⟩ := Prod.mk.inj (Option.some.inj heq)
        refine ⟨c, t, targs, e, eargs, .ne, hterm, hfound, .inl ⟨rfl, ht, ?_⟩⟩
        rw [ht] at hne
        exact Bool.eq_false_iff.mpr (Ne.symm hne)
      | eq =>
        obtain ⟨ht, heq⟩ := Option.ite_none_left_eq_some.mp h
        obtain ⟨rfl, rfl⟩ := Prod.mk.inj (Option.some.inj heq)
        have ht' := Bool.eq_false_iff.mpr ht
        refine ⟨c, t, targs, e, eargs, .eq, hterm, hfound, .inr ⟨rfl, ht', ?_⟩⟩
        rw [ht'] at hne
        exact Bool.eq_true_of_not_eq_false (Ne.symm hne)
      | _ => exact absurd h (by simp)
  · exact absurd h (by simp)

theorem cmp_evals {regs : Regs} {w x : Nat} {op : CmpOp} {a b : Operand}
    (h : (RValue.cmp op a b).Evals Γ regs w x) :
    ∃ y z, a.Evals regs y ∧ b.Evals regs z ∧
      x = (op.eval (a.width Γ) (y % 2 ^ a.width Γ) (z % 2 ^ b.width Γ)).toNat := by
  obtain ⟨xs, hxs, rfl⟩ := h
  cases hxs with
  | @cons _ y _ ys hy hys =>
    cases hys with
    | @cons _ z _ zs hz hzs =>
      cases hzs
      exact ⟨y, z, hy, hz, rfl⟩

/-- **In a round the operands of the exit test differ**, and what the body does not write is still what it
    was at the visit. -/
theorem lap_test (hwf : f.WellFormed) (hssa : f.StrictSsa) (hty : f.WellTyped Γ) {l : Loop}
    (hl : Loops.Filled f.cfg l) {header : BasicBlock} (hheader : f.blocks[l.header]? = some header)
    {lhs rhs : Operand} (htest : exitTest f l header = some (lhs, rhs)) {args : List Nat} {p q : Point}
    (hp : f.Reaches Γ args p) (hlap : f.Lap Γ l p q) :
    ∃ e y z, f.Between Γ l.header p e ∧ f.Located e l.header header.insts.length ∧
      (∀ r, ¬ f.WrittenIn l r → e.regs r = p.regs r) ∧ lhs.Evals e.regs y ∧ rhs.Evals e.regs z ∧
      lhs.width Γ = rhs.width Γ ∧ y % 2 ^ lhs.width Γ ≠ z % 2 ^ lhs.width Γ := by
  obtain ⟨c, t, targs, el, eargs, op, hterm, ⟨j, ty, hj⟩, hin⟩ := exitTest_spec htest
  obtain ⟨e, m, hpe, hloc, hm, ⟨target, as, hgoes, htarget⟩, hkeep⟩ := hlap.leaves hwf hl hp
  obtain rfl : header = e.blk := Option.some.inj (hheader.symm.trans hloc.blk)
  have hinside : inLoop f l target = true := by simp [inLoop, htarget, hm]
  -- the condition holds if the operands differ
  obtain ⟨x, hx, hsense⟩ : ∃ x, e.regs c = some x ∧ (op = .ne ∧ x ≠ 0 ∨ op = .eq ∧ x = 0) := by
    rw [hterm] at hgoes
    rcases hin with ⟨rfl, ht, he⟩ | ⟨rfl, ht, he⟩ <;> cases hgoes with
    | condThen hx hne => exact ⟨_, hx, by simp_all⟩
    | condElse hx => exact ⟨0, hx, by simp_all⟩
  obtain ⟨n', k', hloc', hsettled⟩ := (hpe.reaches hp).settled hwf hheader hj
    (assign_computes Γ c ty (.cmp op lhs rhs)) (hssa.single hheader hj)
  obtain rfl := position_inj hwf hloc'.blk hloc.blk
  have hle : e.blk.insts.length ≤ k' := by
    apply List.drop_eq_nil_iff.mp
    rw [← hloc'.rest, hloc.rest, List.drop_length]
  have hlt : j < k' := lt_of_lt_of_le (List.getElem?_eq_some_iff.mp hj).1 hle
  obtain ⟨y, z, hy, hz, hxval⟩ := cmp_evals (hsettled (Dom.refl hloc.live) (fun _ => hlt) x hx)
  obtain ⟨-, -, hwidth⟩ := hty.assign _ (List.mem_of_getElem? hheader) c ty _ (List.mem_of_getElem? hj)
  refine ⟨e, y, z, hpe, hloc, hkeep, hy, hz, hwidth, fun heq => ?_⟩
  rw [← hwidth, heq] at hxval
  rcases hsense with ⟨rfl, hne⟩ | ⟨rfl, rfl⟩
  · exact hne (by rw [hxval]; simp [CmpOp.eval, CmpOp.evalBv])
  · simp [CmpOp.eval, CmpOp.evalBv] at hxval

/-! ## Resolved symbols -/

theorem blockAt_resolve (n : Nat) : blockAt (f.resolve addr) n = (blockAt f n).map (BasicBlock.resolve addr) := by
  rw [blockAt, blockAt, blocks_resolve]
  cases f.blocks[n]? with
  | none => rfl
  | some b => exact block_resolve b.id

theorem bodyBlocks_resolve (l : Loop) : bodyBlocks (f.resolve addr) l = bodyBlocks f l := by
  rw [bodyBlocks, bodyBlocks, Func.resolve, List.length_map]

theorem definedInLoop_resolve (l : Loop) (r : RegId) :
    definedInLoop (f.resolve addr) l r = definedInLoop f l r := by
  rw [definedInLoop, definedInLoop, bodyBlocks_resolve]
  congr 1
  funext n
  rw [blockAt_resolve]
  cases blockAt f n with
  | none => rfl
  | some b => simp [BasicBlock.resolve, List.any_map, Function.comp_def]

theorem boundChanges_resolve (l : Loop) (op : Operand) :
    boundChanges (f.resolve addr) l (op.resolve addr) = boundChanges f l op := by
  cases op with
  | reg r => exact definedInLoop_resolve l r
  | const c => rfl

theorem firstDef_resolve (nv : RegId) (ns : List Nat) :
    firstDef (f.resolve addr) nv ns = (firstDef f nv ns).map (Inst.resolve addr) := by
  induction ns with
  | nil => rfl
  | cons n ns ih =>
    rw [firstDef, firstDef, blockAt_resolve]
    cases blockAt f n with
    | none => rfl
    | some b =>
      have hfind : (b.resolve addr).insts.find? (fun i => i.definedReg == some nv) =
          (b.insts.find? fun i => i.definedReg == some nv).map (Inst.resolve addr) := by
        rw [BasicBlock.resolve, List.find?_map]
        simp [Function.comp_def]
      simp only [Option.map_some, Option.bind_eq_bind, Option.bind_some, hfind]
      cases b.insts.find? fun i => i.definedReg == some nv with
      | none => exact ih
      | some i => rfl

theorem stepOf_resolve {base : RegId} {i : Inst} {s : Int} (h : stepOf base i = some s) :
    stepOf base (i.resolve addr) = some s := by
  unfold stepOf at h
  split at h
  · exact h
  · exact h
  · exact absurd h (by simp)

theorem ptrStepOf_resolve {base : RegId} {i : Inst} {s : Int × Ty} (h : ptrStepOf base i = some s) :
    ptrStepOf base (i.resolve addr) = some s := by
  unfold ptrStepOf at h
  split at h
  · exact h
  · exact absurd h (by simp)

theorem edgeArg_resolve (b : BasicBlock) (id : BlockId) (pos : Nat) :
    edgeArg (b.resolve addr) id pos = (edgeArg b id pos).map (Operand.resolve addr) := by
  rw [edgeArg, edgeArg, BasicBlock.resolve]
  cases b.term <;> simp only [Terminator.resolve, List.getElem?_map, Option.map_none]
  · split_ifs <;> rfl
  · split_ifs <;> rfl

theorem latchArg_resolve {l : Loop} {latch pos : Nat} {nv : RegId} (h : latchArg f l latch pos = some nv) :
    latchArg (f.resolve addr) l latch pos = some nv := by
  obtain ⟨b, hb, h⟩ := Option.bind_eq_some_iff.mp h
  obtain ⟨header, hheader, h⟩ := Option.bind_eq_some_iff.mp h
  obtain ⟨op, hop, h⟩ := Option.bind_eq_some_iff.mp h
  rw [latchArg, blockAt_resolve, hb, blocks_resolve, hheader]
  simp only [Option.map_some, Option.bind_eq_bind, Option.bind_some, BasicBlock.id_resolve, edgeArg_resolve, hop]
  cases op with
  | reg r => exact h
  | const c => exact absurd h (by simp)

theorem findCmp_resolve {b : BasicBlock} {c : RegId} :
    findCmp (b.resolve addr) c =
      (findCmp b c).map fun t => (t.1, t.2.1.resolve addr, t.2.2.resolve addr) := by
  rw [findCmp, findCmp, BasicBlock.resolve, List.findSome?_map, List.map_findSome?]
  congr 1
  funext i
  rcases i with ⟨dst, ty, value⟩ | _ | _ | _ | _ | _ | _ | _ | _ | _ | _ | _ | _ <;> try rfl
  cases value <;> try rfl
  simp only [Function.comp_apply, Inst.resolve, RValue.resolve]
  split_ifs <;> rfl

theorem exitTest_resolve {l : Loop} {header : BasicBlock} {lhs rhs : Operand}
    (h : exitTest f l header = some (lhs, rhs)) :
    exitTest (f.resolve addr) l (header.resolve addr) = some (lhs.resolve addr, rhs.resolve addr) := by
  have hin : ∀ id, inLoop (f.resolve addr) l id = inLoop f l id := fun id => by
    rw [inLoop, inLoop, indexOf_resolve]
  unfold exitTest at h
  split at h
  · rename_i c t targs e eargs hterm
    obtain ⟨⟨op, a, b⟩, hcmp, h⟩ := Option.bind_eq_some_iff.mp h
    have hterm' : (header.resolve addr).term = .condBr (.reg c) t (targs.map (Operand.resolve addr)) e
        (eargs.map (Operand.resolve addr)) := by rw [BasicBlock.resolve, hterm]; rfl
    unfold exitTest
    rw [hterm']
    simp only [findCmp_resolve, hcmp, Option.map_some, Option.bind_eq_bind, Option.bind_some, hin]
    simp only at h
    split at h
    · exact absurd h (by simp)
    · rename_i hne
      rw [if_neg hne]
      cases op with
      | ne =>
        obtain ⟨ht, heq⟩ := Option.ite_none_right_eq_some.mp h
        obtain ⟨rfl, rfl⟩ := Prod.mk.inj (Option.some.inj heq)
        exact if_pos ht
      | eq =>
        obtain ⟨ht, heq⟩ := Option.ite_none_left_eq_some.mp h
        obtain ⟨rfl, rfl⟩ := Prod.mk.inj (Option.some.inj heq)
        exact if_neg ht
      | _ => exact absurd h (by simp)
  · exact absurd h (by simp)

namespace IndVar

def resolve (addr : String → Nat) : IndVar → IndVar
  | int v => int { v with bound := v.bound.resolve addr }
  | ptr v => ptr { v with endPtr := v.endPtr.resolve addr }

@[simp] theorem reg_resolve (v : IndVar) : (v.resolve addr).reg = v.reg := by cases v <;> rfl

@[simp] theorem bottom_resolve (v : IndVar) : (v.resolve addr).bottom = v.bottom := by cases v <;> rfl

@[simp] theorem bound_resolve (v : IndVar) : (v.resolve addr).bound = v.bound.resolve addr := by cases v <;> rfl

end IndVar

theorem Recognised.resolve {l : Loop} {v : IndVar} {header : BasicBlock} {latch pos : Nat} {nv : RegId} {i : Inst}
    {lhs rhs : Operand} (h : Recognised f l v header latch pos nv i lhs rhs) (addr : String → Nat) :
    Recognised (f.resolve addr) l (v.resolve addr) (header.resolve addr) latch pos nv (i.resolve addr)
      (lhs.resolve addr) (rhs.resolve addr) where
  head := by rw [blocks_resolve, h.head]; rfl
  latches := h.latches
  param := by simpa using h.param
  passed := latchArg_resolve h.passed
  defined := by rw [bodyBlocks_resolve, firstDef_resolve, h.defined]; rfl
  step := by
    cases v with
    | int v => exact ⟨h.step.1, stepOf_resolve h.step.2⟩
    | ptr v => exact ⟨h.step.1, ptrStepOf_resolve h.step.2⟩
  kept := by rw [IndVar.bound_resolve, boundChanges_resolve, h.kept]
  test := exitTest_resolve h.test
  tested := by
    rw [IndVar.bottom_resolve, IndVar.reg_resolve, IndVar.bound_resolve]
    exact h.tested.imp (fun h => ⟨by rw [h.1]; rfl, by rw [h.2]⟩) fun h => ⟨by rw [h.1]; rfl, by rw [h.2]⟩

/-! ## A round of a recognised loop -/

theorem lap_tested (hwf : f.WellFormed) (hssa : f.StrictSsa) (hty : f.WellTyped Γ) {l : Loop}
    (hl : Loops.Filled f.cfg l) {v : IndVar} {header : BasicBlock} {latch pos : Nat} {nv : RegId} {i : Inst}
    {lhs rhs : Operand} (h : Recognised f l v header latch pos nv i lhs rhs)
    (hasm : ∀ r, v.bound = .reg r → ¬ AsmWrites f l r) {args : List Nat} {p q : Point}
    (hp : f.Reaches Γ args p) (hlap : f.Lap Γ l p q) {b : Nat} (hb : ∀ z, v.bound.Evals p.regs z → z = b) :
    ∃ e y, f.Between Γ l.header p e ∧ f.Located e l.header header.insts.length ∧
      e.regs (if v.bottom then nv else v.reg) = some y ∧
      y % 2 ^ Γ (if v.bottom then nv else v.reg) ≠ b % 2 ^ Γ (if v.bottom then nv else v.reg) := by
  obtain ⟨e, y, z, hpe, hloc, hkeep, hy, hz, hwidth, hne⟩ := lap_test hwf hssa hty hl h.head h.test hp hlap
  have hbound : ∀ r, v.bound = .reg r → p.regs r = e.regs r := by
    intro r hr
    have hkept := h.kept
    rw [hr] at hkept
    exact (hkeep r (not_writtenIn hwf.ids hkept (hasm r hr))).symm
  refine ⟨e, ?_⟩
  rcases h.tested with ⟨rfl, rfl⟩ | ⟨rfl, rfl⟩
  · obtain rfl := hb z (evals_congr hbound hz)
    exact ⟨y, hpe, hloc, hy, hne⟩
  · obtain rfl := hb y (evals_congr hbound hy)
    rw [hwidth] at hne
    exact ⟨z, hpe, hloc, hz, Ne.symm hne⟩

/-- **A round**: the register gains the stride, and what is tested differs from the bound. -/
theorem recognised_round (hwf : f.WellFormed) (hssa : f.StrictSsa) (hblk : f.BlockSsa) (hty : f.WellTyped Γ)
    {loops : List Loop} (hloops : f.loops = some loops) {l : Loop} (hl : l ∈ loops) {v : IndVar}
    {header : BasicBlock} {latch pos : Nat} {nv : RegId} {i : Inst} {lhs rhs : Operand}
    (h : Recognised f l v header latch pos nv i lhs rhs) (hasm : ∀ r, v.bound = .reg r → ¬ AsmWrites f l r)
    {args : List Nat} {p q : Point} (hp : f.Reaches Γ args p) (hlap : f.Lap Γ l p q) {b : Nat}
    (hb : ∀ z, v.bound.Evals p.regs z → z = b) :
    ∃ x x' : Nat, p.regs v.reg = some x ∧ q.regs v.reg = some x' ∧
      x' = ((x + v.stride) % 2 ^ Γ v.reg).toNat ∧
      (if v.bottom then x' else x) % 2 ^ Γ v.reg ≠ b % 2 ^ Γ v.reg := by
  obtain ⟨t, ht, hloops⟩ := Option.bind_eq_some_iff.mp hloops
  obtain ⟨hfilled, -, -, hone⟩ := Loops.detect_loop ht hloops hl
  obtain ⟨e, y, hpe, hloc, hy, hne⟩ := lap_tested hwf hssa hty hfilled h hasm hp hlap hb
  obtain ⟨ty, hparam⟩ := h.param
  have hreg : v.reg ∈ header.params.map (·.1) := List.mem_map.mpr ⟨_, List.mem_of_getElem? hparam, rfl⟩
  have hkeep : e.regs v.reg = p.regs v.reg :=
    hpe.keeps hwf (hblk.param_once l.header header h.head v.reg hreg) (hp.located hwf)
  cases v with
  | int v =>
    obtain ⟨x, hx, hq⟩ := recognised_int hwf hssa hblk hty hone h hp hlap
    obtain rfl : x = y := Option.some.inj ((hkeep.trans hx).symm.trans hy)
    exact ⟨x, _, hx, hq, rfl, hne⟩
  | ptr v =>
    obtain ⟨x, hx, hq⟩ := recognised_ptr hwf hblk hty hone h hp hlap
    refine ⟨x, _, hx, hq, rfl, ?_⟩
    cases hbottom : (IndVar.ptr v).bottom with
    | false =>
      rw [hbottom] at hy hne
      obtain rfl : x = y := Option.some.inj ((hkeep.trans hx).symm.trans hy)
      exact hne
    | true =>
      rw [hbottom] at hy hne
      -- the header tests what the latch passes on
      obtain ⟨n, -, blk, hblkn, j, hj, hdef⟩ := firstDef_spec hwf.ids h.defined
      obtain ⟨dst, k, rfl, hk⟩ := ptrStepOf_eq h.step.2
      obtain rfl : dst = nv := Option.some.inj hdef
      obtain ⟨c, tb, targs, el, eargs, op, hterm, ⟨jc, tyc, hjc⟩, -⟩ := exitTest_spec h.test
      have hmem : Operand.reg dst ∈ (RValue.cmp op lhs rhs).operands := by
        have htested := h.tested
        rw [hbottom] at htested
        rcases htested with ⟨rfl, -⟩ | ⟨rfl, -⟩ <;> simp [RValue.operands]
      have hdom : f.Dominates n l.header := (hssa.use l.header header h.head hloc.live jc c tyc _ hjc dst hmem n blk
        (j + 1) hblkn (.inr ⟨j, _, rfl, hj, by simp [Inst.writes, Inst.definedReg]⟩)).1
      obtain ⟨n', k', hloc', hsettled⟩ := (hpe.reaches hp).settled hwf hblkn hj
        (offset_computes Γ dst _ _ v.elem) (hblk.single hblkn hj)
      obtain rfl := position_inj hwf hloc'.blk hloc.blk
      have hend : header = e.blk := Option.some.inj (h.head.symm.trans hloc.blk)
      have hle : header.insts.length ≤ k' := by
        apply List.drop_eq_nil_iff.mp
        rw [hend, ← hloc'.rest, hloc.rest, hend, List.drop_length]
      obtain ⟨base, idx, hbase, rfl, rfl⟩ := hsettled hdom (by
        rintro rfl
        obtain rfl : header = blk := Option.some.inj (h.head.symm.trans hblkn)
        exact lt_of_lt_of_le (List.getElem?_eq_some_iff.mp hj).1 hle) y hy
      obtain rfl : x = base := Option.some.inj ((hkeep.trans hx).symm.trans hbase)
      obtain ⟨hwd, hwb⟩ := hty.ptrOffset blk (List.mem_of_getElem? hblkn) dst _ _ v.elem (List.mem_of_getElem? hj)
      have hwr : Γ v.reg = 64 := hwb
      simp only [if_true] at hne ⊢
      rw [hwd] at hne
      show ((x + (IndVar.ptr v).stride) % 2 ^ Γ v.reg).toNat % 2 ^ Γ v.reg ≠ b % 2 ^ Γ v.reg
      rw [hwr, IndVar.stride, ← hk]
      exact hne

end Induction

end Csolver
