import Csolver.Absint.Reading
import Csolver.Absint.Induction
import Csolver.Ir.Check
import Csolver.Ir.Laps

/-!
# Recognised inductions are real

From one visit of the header to the next the latch passes on the stepped register, whose single assignment
still holds there, and the register it steps keeps its value until that visit; so it advances by exactly the
stride. The bound stays the same because nothing in the body defines it. But the test for that asks the
instructions for the one register they define, and an inline assembly names none: when one in the body
writes the bound, the bound changes (`asm_bound_moves`). That is the only exception
(`recognised_inductions`).
-/

namespace Csolver

open Lib

theorem Func.BlockSsa.single {f : Func} (hblk : f.BlockSsa) {n j : Nat} {b : BasicBlock} (hb : f.blocks[n]? = some b)
    {dst : RegId} {base index : Operand} {elem : Ty} (hj : b.insts[j]? = some (.ptrOffset dst base index elem))
    (hdom : f.Dominates n n) : f.Single n j dst fun r => base = .reg r ∨ index = .reg r :=
  ⟨hblk.offset_use n b hb (Func.dominates_live hdom) j dst base index elem hj,
    hblk.offset_once n b j dst base index elem hb hj⟩

namespace Induction

open Func Intervals

variable {f : Func} {Γ : RegId → Nat}

/-! ## Reading the recogniser -/

theorem mem_bodyBlocks {l : Loop} {n : Nat} : n ∈ bodyBlocks f l ↔ n < f.blocks.length ∧ n ∈ l.body := by
  simp [bodyBlocks]

theorem definedInLoop_iff (hids : (f.blocks.map (·.id)).Nodup) {l : Loop} {r : RegId} :
    definedInLoop f l r = true ↔ ∃ n ∈ l.body, ∃ b, f.blocks[n]? = some b ∧
      (r ∈ b.params.map (·.1) ∨ ∃ i ∈ b.insts, i.definedReg = some r) := by
  simp only [definedInLoop, List.any_eq_true, mem_bodyBlocks, Option.any_eq_true]
  constructor
  · rintro ⟨n, ⟨hlt, hn⟩, b, hb, h⟩
    have hbn : f.blocks[n]? = some f.blocks[n] := List.getElem?_eq_getElem hlt
    rw [blockAt_eq hids hbn] at hb
    obtain rfl := Option.some.inj hb
    refine ⟨n, hn, _, hbn, ?_⟩
    simpa using h
  · rintro ⟨n, hn, b, hb, h⟩
    refine ⟨n, ⟨(List.getElem?_eq_some_iff.mp hb).1, hn⟩, b, blockAt_eq hids hb, ?_⟩
    simpa using h

theorem firstDef_spec (hids : (f.blocks.map (·.id)).Nodup) {nv : RegId} {ns : List Nat} {i : Inst}
    (h : firstDef f nv ns = some i) :
    ∃ n ∈ ns, ∃ b, f.blocks[n]? = some b ∧ ∃ j : Nat, b.insts[j]? = some i ∧ i.definedReg = some nv := by
  induction ns with
  | nil => exact absurd h (by simp [firstDef])
  | cons n ns ih =>
    obtain ⟨b, hb, h⟩ := Option.bind_eq_some_iff.mp h
    split at h
    · rename_i i' hi'
      obtain rfl := Option.some.inj h
      obtain ⟨c, hc, _⟩ := Option.bind_eq_some_iff.mp hb
      obtain rfl := Option.some.inj ((blockAt_eq hids hc).symm.trans hb)
      obtain ⟨j, hj⟩ := List.mem_iff_getElem?.mp (List.mem_of_find?_eq_some hi')
      exact ⟨n, List.mem_cons_self, c, hc, j, hj, by simpa using List.find?_some hi'⟩
    · obtain ⟨m, hm, hrest⟩ := ih h
      exact ⟨m, List.mem_cons_of_mem n hm, hrest⟩

theorem latchArg_spec (hids : (f.blocks.map (·.id)).Nodup) {l : Loop} {latch pos : Nat} {nv : RegId}
    (h : latchArg f l latch pos = some nv) :
    ∃ b header, f.blocks[latch]? = some b ∧ f.blocks[l.header]? = some header ∧
      edgeArg b header.id pos = some (.reg nv) := by
  obtain ⟨b, hb, h⟩ := Option.bind_eq_some_iff.mp h
  obtain ⟨header, hheader, h⟩ := Option.bind_eq_some_iff.mp h
  obtain ⟨op, hop, h⟩ := Option.bind_eq_some_iff.mp h
  obtain ⟨c, hc, _⟩ := Option.bind_eq_some_iff.mp hb
  obtain rfl := Option.some.inj ((blockAt_eq hids hc).symm.trans hb)
  refine ⟨c, header, hc, hheader, ?_⟩
  cases op with
  | reg r =>
    obtain rfl := Option.some.inj h
    exact hop
  | const c => exact absurd h (by simp)

/-- The back edge is taken with the argument that `edge_arg` finds, when it is the only one. -/
theorem edgeArg_goes {b : BasicBlock} {id : BlockId} {pos : Nat} {op : Operand} (h : edgeArg b id pos = some op)
    (hone : ∀ c t e targs eargs, b.term = .condBr c t targs e eargs → ¬ (t = id ∧ e = id)) {regs : Regs}
    {args : List Operand} (hgoes : b.term.Goes regs id args) : args[pos]? = some op := by
  rw [edgeArg] at h
  generalize b.term = term at h hone hgoes
  cases hgoes with
  | br => simpa using h
  | condThen _ _ => simpa using h
  | @condElse c t _ targs _ _ =>
    have hne : t ≠ id := fun heq => hone c t id targs args rfl ⟨heq, rfl⟩
    simpa [hne] using h
  | switchCase _ _ => exact absurd h (by simp)
  | switchDefault _ _ => exact absurd h (by simp)

/-! ## One round -/

theorem indexOf_id (hwf : f.WellFormed) {n : Nat} {b : BasicBlock} (hb : f.blocks[n]? = some b) :
    f.indexOf b.id = some n := by
  obtain ⟨m, hm⟩ := indexOf_isSome (List.mem_of_getElem? hb) rfl
  obtain ⟨c, hc, hid⟩ := indexOf_spec hm
  obtain rfl := block_eq_of_id hwf (List.mem_of_getElem? hc) (List.mem_of_getElem? hb) hid
  rw [hm, position_inj hwf hc hb]

theorem row_condBr (hwf : f.WellFormed) {n h : Nat} {b header : BasicBlock} (hb : f.blocks[n]? = some b)
    (hheader : f.blocks[h]? = some header) {c : Operand} {targs eargs : List Operand}
    (hterm : b.term = .condBr c header.id targs header.id eargs) : f.cfg.succ.row n = [h, h] := by
  show f.succ.row n = [h, h]
  rw [Adj.row, List.getD_eq_getElem?_getD, succ, List.getElem?_map, hb]
  simp [hterm, Terminator.successors, indexOf_id hwf hheader]

/-- A round from the visit `p`, seen from its end: the latch passes on what `edge_arg` finds, and the
    parameter is still what it was at the visit. -/
theorem lap_arg (hwf : f.WellFormed) (hssa : f.BlockSsa) {l : Loop} {n pos : Nat} (hn : l.latches = [n])
    (hone : f.cfg.succ.row n ≠ [l.header, l.header]) {b header : BasicBlock} (hb : f.blocks[n]? = some b)
    (hheader : f.blocks[l.header]? = some header) {op : Operand} (harg : edgeArg b header.id pos = some op)
    {reg : RegId} {ty : Ty} (hpos : header.params[pos]? = some (reg, ty)) {args : List Nat} {p q : Point}
    (hp : f.Reaches Γ args p) (hlap : f.Lap Γ l p q) :
    ∃ e, f.Reaches Γ args e ∧ f.Located e n b.insts.length ∧ e.regs reg = p.regs reg ∧
      (∃ as, (header.id, as) ∈ b.term.edges ∧ op ∈ as) ∧ ∃ x, op.Evals e.regs x ∧ q.regs reg = some x := by
  obtain ⟨e, m, hm, hpe, he, hloc, target, as, xs, hgoes, htb, hxs, hlen, hregs⟩ := hlap.last hwf hp
  rw [hn, List.mem_singleton] at hm
  subst hm
  obtain rfl : b = e.blk := Option.some.inj (hb.symm.trans hloc.blk)
  obtain rfl : header = q.blk := Option.some.inj (hheader.symm.trans hlap.finish.1)
  obtain rfl : target = q.blk.id := (block_spec htb).2.symm
  have hop : as[pos]? = some op := by
    apply edgeArg_goes harg _ hgoes
    rintro c t i targs eargs hterm ⟨rfl, rfl⟩
    exact hone (row_condBr hwf hb hheader hterm)
  have hparam : reg ∈ q.blk.params.map (·.1) := List.mem_map.mpr ⟨_, List.mem_of_getElem? hpos, rfl⟩
  refine ⟨e, he, hloc, ?_, ⟨as, hgoes.mem_edges, List.mem_of_getElem? hop⟩, ?_⟩
  · exact hpe.keeps hwf (hssa.param_once l.header q.blk hheader reg hparam) (hp.located hwf)
  · obtain ⟨hplt, hget⟩ := List.getElem?_eq_some_iff.mp hop
    have hxlt : pos < xs.length := hxs.length_eq ▸ hplt
    refine ⟨xs[pos], ?_, ?_⟩
    · have := (List.forall₂_iff_get.mp hxs).2 pos hplt hxlt
      rwa [List.get_eq_getElem, List.get_eq_getElem, hget] at this
    · rw [hregs]
      exact bind_param (hssa.param_nodup _ (List.mem_of_getElem? hheader)) hpos (List.getElem?_eq_getElem hxlt)

/-- The stepped register, when the instruction that defines it makes it `V` of the registers. -/
theorem lap_steps (hwf : f.WellFormed) (hssa : f.BlockSsa) {l : Loop} {n pos : Nat} (hn : l.latches = [n])
    (hone : f.cfg.succ.row n ≠ [l.header, l.header]) {nv : RegId} (harg : latchArg f l n pos = some nv)
    {header : BasicBlock} (hheader : f.blocks[l.header]? = some header) {reg : RegId} {ty : Ty}
    (hpos : header.params[pos]? = some (reg, ty)) {m j : Nat} {a : BasicBlock} {i : Inst}
    {reads : RegId → Prop} {V : Regs → Nat → Prop} (ha : f.blocks[m]? = some a) (hj : a.insts[j]? = some i)
    (hw : nv ∈ i.writes) (hc : Computes Γ i nv reads V) (hs : f.Dominates m m → f.Single m j nv reads)
    {args : List Nat} {p q : Point} (hp : f.Reaches Γ args p) (hlap : f.Lap Γ l p q) :
    ∃ regs x, regs reg = p.regs reg ∧ V regs x ∧ q.regs reg = some x := by
  obtain ⟨b, header', hb, hheader', harg⟩ := latchArg_spec hwf.ids harg
  obtain rfl := Option.some.inj (hheader.symm.trans hheader')
  obtain ⟨e, he, hloc, hkeep, ⟨as, hedge, hmem⟩, x, hx, hq⟩ :=
    lap_arg hwf hssa hn hone hb hheader harg hpos hp hlap
  obtain ⟨m', k', hloc', hsettled⟩ := he.settled hwf ha hj hc hs
  obtain rfl := position_inj hwf hloc'.blk hloc.blk
  have hdom : f.Dominates m m' :=
    hssa.arg m' b hb hloc.live _ hedge nv hmem m a (j + 1) ha (.inr ⟨j, i, rfl, hj, hw⟩)
  -- the whole block has been executed at its end
  have hblk : e.blk = b := Option.some.inj (hloc.blk.symm.trans hb)
  have hle : b.insts.length ≤ k' := by
    apply List.drop_eq_nil_iff.mp
    rw [← hblk, ← hloc'.rest, hloc.rest, hblk, List.drop_length]
  refine ⟨e.regs, x, hkeep, hsettled hdom ?_ x hx, hq⟩
  rintro rfl
  obtain rfl : a = b := Option.some.inj (ha.symm.trans hb)
  exact lt_of_lt_of_le (List.getElem?_eq_some_iff.mp hj).1 hle

/-! ## The recognised variables -/

/-- An inline assembly in the body writes the register. -/
def AsmWrites (f : Func) (l : Loop) (r : RegId) : Prop :=
  ∃ n ∈ l.body, ∃ b, f.blocks[n]? = some b ∧ ∃ defs, .asm defs ∈ b.insts ∧ r ∈ defs

namespace IndVar

def reg : IndVar → RegId
  | int v => v.reg
  | ptr v => v.reg

def bound : IndVar → Operand
  | int v => v.bound
  | ptr v => v.endPtr

/-- The step of the register, in bytes for a pointer. -/
def stride : IndVar → Int
  | int v => v.stride
  | ptr v => v.strideElems * ((v.elem.strideBytes .lp64).getD 1 : Nat)

/-- Whether the stepped register is tested, not the register. -/
def bottom : IndVar → Bool
  | int _ => false
  | ptr v => v.bottomTest

end IndVar

/-- One of the recognisers returns it. -/
def Recognises (f : Func) (l : Loop) : IndVar → Prop
  | .int v => recognizeInt f l = some v
  | .ptr v => recognizePtr f l = some v ∨ recognizePtrBottom f l = some v

/-- From every visit to the next one along a back edge the bound keeps its value and the register gains
    the stride. -/
def Advances (f : Func) (Γ : RegId → Nat) (l : Loop) (v : IndVar) : Prop :=
  ∀ args p q, f.Reaches Γ args p → f.Lap Γ l p q →
    (∀ x, v.bound.Evals q.regs x ↔ v.bound.Evals p.regs x) ∧
      ∃ x : Nat, p.regs v.reg = some x ∧ q.regs v.reg = some ((x + v.stride) % 2 ^ Γ v.reg).toNat

theorem singleLatch_eq {l : Loop} {n : Nat} (h : singleLatch l = some n) : l.latches = [n] := by
  rw [singleLatch] at h
  split at h
  · rename_i latch hl
    rw [hl, Option.some.inj h]
  · exact absurd h (by simp)

theorem blockAt_inv (hids : (f.blocks.map (·.id)).Nodup) {n : Nat} {b : BasicBlock} (h : blockAt f n = some b) :
    f.blocks[n]? = some b := by
  obtain ⟨c, hc, -⟩ := Option.bind_eq_some_iff.mp h
  obtain rfl := Option.some.inj ((blockAt_eq hids hc).symm.trans h)
  exact hc

/-- The step of the instruction that defines the passed register. -/
def IsStep (v : IndVar) (i : Inst) : Prop :=
  match v with
  | .int v => 0 < v.stride ∧ stepOf v.reg i = some v.stride
  | .ptr v => 0 < v.strideElems ∧ ptrStepOf v.reg i = some (v.strideElems, v.elem)

/-- What every recogniser has established: the parameter and the single latch, the argument it passes and
    the instruction that defines it, and the test of the register or of the passed one against a bound that
    is not defined in the loop. -/
structure Recognised (f : Func) (l : Loop) (v : IndVar) (header : BasicBlock) (latch pos : Nat) (nv : RegId)
    (i : Inst) (lhs rhs : Operand) : Prop where
  head : f.blocks[l.header]? = some header
  latches : l.latches = [latch]
  param : ∃ ty, header.params[pos]? = some (v.reg, ty)
  passed : latchArg f l latch pos = some nv
  defined : firstDef f nv (bodyBlocks f l) = some i
  step : IsStep v i
  kept : boundChanges f l v.bound = false
  test : exitTest f l header = some (lhs, rhs)
  tested : (lhs = .reg (if v.bottom then nv else v.reg) ∧ rhs = v.bound) ∨
    (rhs = .reg (if v.bottom then nv else v.reg) ∧ lhs = v.bound)

theorem inductionAndBound_spec {header : BasicBlock} {lhs rhs : Operand} {reg : RegId} {bound : Operand}
    (h : inductionAndBound header lhs rhs = some (reg, bound)) :
    (lhs = .reg reg ∧ rhs = bound) ∨ (rhs = .reg reg ∧ lhs = bound) := by
  have hparam : ∀ {op : Operand} {r : RegId}, paramOf header op = some r → op = .reg r := by
    intro op r hop
    cases op with
    | reg q =>
      rw [paramOf] at hop
      split at hop
      · rw [Option.some.inj hop]
      · exact absurd hop (by simp)
    | const c => exact absurd hop (by simp [paramOf])
  rw [inductionAndBound] at h
  split at h
  · rename_i a ha
    obtain ⟨rfl, rfl⟩ := Prod.mk.inj (Option.some.inj h)
    exact .inl ⟨hparam ha, rfl⟩
  · obtain ⟨a, ha, h⟩ := Option.map_eq_some_iff.mp h
    obtain ⟨rfl, rfl⟩ := Prod.mk.inj h
    exact .inr ⟨hparam ha, rfl⟩

theorem exitShape_recognised (hids : (f.blocks.map (·.id)).Nodup) {l : Loop} {s : ExitShape} {nv : RegId}
    (hs : exitShape f l = some s) (hnv : backEdgeNext f l s = some nv) {i : Inst}
    (hi : firstDef f nv (bodyBlocks f l) = some i) {v : IndVar} (hreg : v.reg = s.reg)
    (hbound : v.bound = s.bound) (hbottom : v.bottom = false) (hstep : IsStep v i) :
    ∃ header latch pos nv i lhs rhs, Recognised f l v header latch pos nv i lhs rhs := by
  obtain ⟨latch, hlatch, h⟩ := Option.bind_eq_some_iff.mp hs
  obtain ⟨header, hheader, h⟩ := Option.bind_eq_some_iff.mp h
  obtain ⟨⟨lhs, rhs⟩, htest, h⟩ := Option.bind_eq_some_iff.mp h
  obtain ⟨⟨reg, bound⟩, hpair, h⟩ := Option.bind_eq_some_iff.mp h
  simp only at h
  split at h
  · exact absurd h (by simp)
  · rename_i hkept
    obtain ⟨pos, hpos, h⟩ := Option.bind_eq_some_iff.mp h
    obtain rfl := Option.some.inj h
    obtain ⟨hlt, hp, -⟩ := List.findIdx?_eq_some_iff_getElem.mp hpos
    refine ⟨header, latch, pos, nv, i, lhs, rhs, blockAt_inv hids hheader, singleLatch_eq hlatch, ?_, hnv, hi,
      hstep, ?_, htest, ?_⟩
    · refine ⟨header.params[pos].2, ?_⟩
      rw [List.getElem?_eq_getElem hlt, hreg, ← beq_iff_eq.mp hp]
    · rw [hbound]
      simpa using hkept
    · rw [hbottom, hreg, hbound]
      exact inductionAndBound_spec hpair

theorem endOf_spec {next : RegId} {lhs rhs endPtr : Operand} (h : endOf next lhs rhs = some endPtr) :
    (lhs = .reg next ∧ rhs = endPtr) ∨ (rhs = .reg next ∧ lhs = endPtr) := by
  have hreg : ∀ {op : Operand}, isReg next op = true → op = .reg next := by
    intro op hop
    cases op with
    | reg r => rw [beq_iff_eq.mp hop]
    | const c => exact absurd hop (by simp [isReg])
  unfold endOf at h
  split at h
  · rename_i hl
    exact .inl ⟨hreg hl, Option.some.inj h⟩
  · split at h
    · rename_i hr
      exact .inr ⟨hreg hr, Option.some.inj h⟩
    · exact absurd h (by simp)

theorem recognises_spec (hids : (f.blocks.map (·.id)).Nodup) {l : Loop} {v : IndVar} (h : Recognises f l v) :
    ∃ header latch pos nv i lhs rhs, Recognised f l v header latch pos nv i lhs rhs := by
  cases v with
  | int v =>
    obtain ⟨s, hs, h⟩ := Option.bind_eq_some_iff.mp h
    obtain ⟨nv, hnv, h⟩ := Option.bind_eq_some_iff.mp h
    obtain ⟨stride, hstride, h⟩ := Option.bind_eq_some_iff.mp h
    split at h
    · exact absurd h (by simp)
    · rename_i hpos
      obtain rfl := Option.some.inj h
      obtain ⟨i, hi, hstep⟩ := Option.bind_eq_some_iff.mp hstride
      exact exitShape_recognised hids hs hnv hi rfl rfl rfl ⟨not_le.mp hpos, hstep⟩
  | ptr v =>
    rcases h with h | h
    · obtain ⟨s, hs, h⟩ := Option.bind_eq_some_iff.mp h
      obtain ⟨nv, hnv, h⟩ := Option.bind_eq_some_iff.mp h
      obtain ⟨⟨strideElems, elem⟩, hstride, h⟩ := Option.bind_eq_some_iff.mp h
      simp only at h
      split at h
      · exact absurd h (by simp)
      · rename_i hpos
        obtain rfl := Option.some.inj h
        obtain ⟨i, hi, hstep⟩ := Option.bind_eq_some_iff.mp hstride
        exact exitShape_recognised hids hs hnv hi rfl rfl rfl ⟨not_le.mp hpos, hstep⟩
    · obtain ⟨latch, hlatch, h⟩ := Option.bind_eq_some_iff.mp h
      obtain ⟨header, hheader, h⟩ := Option.bind_eq_some_iff.mp h
      obtain ⟨⟨lhs, rhs⟩, htest, h⟩ := Option.bind_eq_some_iff.mp h
      obtain ⟨⟨⟨iter, ty⟩, pos⟩, hmem, h⟩ := List.exists_of_findSome?_eq_some h
      simp only [bottomParam] at h
      split at h
      · obtain ⟨next, hnext, h⟩ := Option.bind_eq_some_iff.mp h
        obtain ⟨⟨strideElems, elem⟩, hstride, h⟩ := Option.bind_eq_some_iff.mp h
        simp only at h
        split at h
        · exact absurd h (by simp)
        · rename_i hpos
          obtain ⟨endPtr, hend, h⟩ := Option.bind_eq_some_iff.mp h
          split at h
          · exact absurd h (by simp)
          · rename_i hkept
            obtain rfl := Option.some.inj h
            obtain ⟨i, hi, hstep⟩ := Option.bind_eq_some_iff.mp hstride
            exact ⟨header, latch, pos, next, i, lhs, rhs, blockAt_inv hids hheader, singleLatch_eq hlatch,
              ⟨ty, List.mem_zipIdx_iff_getElem?.mp hmem⟩, hnext, hi, ⟨not_le.mp hpos, hstep⟩,
              Bool.not_eq_true _ ▸ hkept, htest, endOf_spec hend⟩
      · exact absurd h (by simp)

/-! ## Stride and bound -/

theorem signed_emod (c : BitVector) : c.signed % 2 ^ c.width = (c.value : Int) % 2 ^ c.width := by
  rw [BitVector.signed, BitVec.toInt_ofNat']
  exact_mod_cast Int.bmod_emod

theorem eq_toNat_of_emod {w z : Nat} {t : Int} (hz : z < 2 ^ w) (h : (z : Int) % 2 ^ w = t % 2 ^ w) :
    z = (t % 2 ^ w).toNat := by
  rw [← h, Int.emod_eq_of_lt (Int.natCast_nonneg z) (by exact_mod_cast hz), Int.toNat_natCast]

theorem eval_add_const (x : Nat) (c : BitVector) :
    BvOp.eval .add c.width (x % 2 ^ c.width) (c.value % 2 ^ c.width) =
      ((x + c.signed) % 2 ^ c.width).toNat := by
  rw [BvOp.eval_mod]
  apply eq_toNat_of_emod (BitVec.isLt _)
  rw [Int.add_emod, signed_emod, ← Int.add_emod]
  show ((BitVec.ofNat c.width x + BitVec.ofNat c.width c.value).toNat : Int) % 2 ^ c.width = _
  rw [BitVec.toNat_add, BitVec.toNat_ofNat, BitVec.toNat_ofNat]
  push_cast
  simp

theorem eval_sub_const (x : Nat) (c : BitVector) :
    BvOp.eval .sub c.width (x % 2 ^ c.width) (c.value % 2 ^ c.width) =
      ((x + -c.signed) % 2 ^ c.width).toNat := by
  rw [BvOp.eval_mod]
  apply eq_toNat_of_emod (BitVec.isLt _)
  rw [← Int.sub_eq_add_neg, Int.sub_emod, signed_emod, ← Int.sub_emod]
  show ((BitVec.ofNat c.width x - BitVec.ofNat c.width c.value).toNat : Int) % 2 ^ c.width = _
  rw [BitVec.ofNat_sub_ofNat, BitVec.toNat_ofNat, Nat.mod_eq_of_lt c.value_lt]
  push_cast [Nat.cast_sub (le_of_lt c.value_lt)]
  rw [Int.emod_emod, show (2 : Int) ^ c.width - c.value + x = x - c.value + 2 ^ c.width by ring,
    Int.add_emod_right]

theorem bin_evals {regs : Regs} {w x : Nat} {op : BvOp} {a : RegId} {c : BitVector}
    (h : (RValue.bin op (.reg a) (.const (.int c))).Evals Γ regs w x) :
    ∃ y, regs a = some y ∧ x = op.eval w (y % 2 ^ Γ a) (c.value % 2 ^ c.width) := by
  obtain ⟨xs, hxs, rfl⟩ := h
  cases hxs with
  | @cons _ y _ ys hy hys =>
    cases hys with
    | @cons _ z _ zs hz hzs =>
      obtain rfl : z = c.value := hz
      cases hzs
      exact ⟨y, hy, rfl⟩

theorem stepOf_computes (hty : f.WellTyped Γ) {b : BasicBlock} (hb : b ∈ f.blocks) {i : Inst} (hi : i ∈ b.insts)
    {nv base : RegId} (hdef : i.definedReg = some nv) {stride : Int} (hstep : stepOf base i = some stride)
    (hpos : 0 < stride) :
    ∃ ty value, i = .assign nv ty value ∧ ∀ regs x, value.Evals Γ regs ty.typeWidth x →
      ∃ y : Nat, regs base = some y ∧ x = ((y + stride) % 2 ^ Γ base).toNat := by
  unfold stepOf at hstep
  split at hstep
  · rename_i dst ty a c
    obtain rfl : dst = nv := Option.some.inj hdef
    split at hstep
    · rename_i ha
      subst ha
      obtain rfl := Option.some.inj hstep
      obtain ⟨-, hw, hc⟩ := hty.assign b hb dst ty _ hi
      refine ⟨ty, _, rfl, fun regs x hx => ?_⟩
      obtain ⟨y, hy, rfl⟩ := bin_evals hx
      refine ⟨y, hy, ?_⟩
      rw [show Γ a = c.width from hw.trans hc.symm, show ty.typeWidth = c.width from hc.symm]
      exact eval_add_const y c
    · exact absurd hstep (by simp)
  · rename_i dst ty a c
    obtain rfl : dst = nv := Option.some.inj hdef
    split at hstep
    · rename_i ha
      subst ha
      have hneg : stride = -c.signed := by
        have heq := Option.some.inj hstep
        rw [negI128] at heq
        split at heq <;> omega
      subst hneg
      obtain ⟨-, hw, hc⟩ := hty.assign b hb dst ty _ hi
      refine ⟨ty, _, rfl, fun regs x hx => ?_⟩
      obtain ⟨y, hy, rfl⟩ := bin_evals hx
      refine ⟨y, hy, ?_⟩
      rw [show Γ a = c.width from hw.trans hc.symm, show ty.typeWidth = c.width from hc.symm]
      exact eval_sub_const y c
    · exact absurd hstep (by simp)
  · exact absurd hstep (by simp)

theorem offset_computes (Γ : RegId → Nat) (dst : RegId) (base index : Operand) (elem : Ty) :
    Computes Γ (.ptrOffset dst base index elem) dst (fun r => base = .reg r ∨ index = .reg r) fun regs x =>
      ∃ b i, base.Evals regs b ∧ index.Evals regs i ∧
        x = offsetAddr b (index.width Γ) i ((elem.strideBytes .lp64).getD 1) where
  exec regs regs' hex := by
    cases hex with
    | ptrOffset hb hi => exact ⟨_, ⟨_, _, hb, hi, rfl⟩, rfl⟩
    | other _ ho _ => exact absurd rfl (ho dst base index elem)
  congr regs regs' x h := by
    rintro ⟨b, i, hb, hi, rfl⟩
    refine ⟨b, i, evals_congr (fun r hr => h r (.inl hr)) hb, evals_congr (fun r hr => h r (.inr hr)) hi, rfl⟩

theorem ptrStepOf_eq {base : RegId} {i : Inst} {strideElems : Int} {elem : Ty}
    (h : ptrStepOf base i = some (strideElems, elem)) :
    ∃ dst k, i = .ptrOffset dst (.reg base) (.const (.int k)) elem ∧ k.signed = strideElems := by
  unfold ptrStepOf at h
  split at h
  · rename_i dst b k elem'
    split at h
    · rename_i hb
      subst hb
      obtain ⟨rfl, rfl⟩ := Prod.mk.inj (Option.some.inj h)
      exact ⟨dst, k, rfl, rfl⟩
    · exact absurd h (by simp)
  · exact absurd h (by simp)

theorem not_writtenIn (hids : (f.blocks.map (·.id)).Nodup) {l : Loop} {r : RegId}
    (hdef : definedInLoop f l r = false) (hasm : ¬ AsmWrites f l r) : ¬ f.WrittenIn l r := by
  rintro ⟨n, hn, b, k, hb, hw⟩
  have hno : ¬ (r ∈ b.params.map (·.1) ∨ ∃ i ∈ b.insts, i.definedReg = some r) := by
    intro h
    rw [(definedInLoop_iff hids).mpr ⟨n, hn, b, hb, h⟩] at hdef
    exact absurd hdef (by simp)
  rcases hw with ⟨-, hp⟩ | ⟨j, i, -, hj, hw⟩
  · exact hno (.inl hp)
  · have hi := List.mem_of_getElem? hj
    by_cases ha : ∃ defs, i = .asm defs
    · obtain ⟨defs, rfl⟩ := ha
      exact hasm ⟨n, hn, b, hb, defs, hi, hw⟩
    · refine hno (.inr ⟨i, hi, ?_⟩)
      cases i <;> first | exact absurd ⟨_, rfl⟩ ha | simpa [Inst.writes] using hw

theorem bound_keeps (hwf : f.WellFormed) {l : Loop} (hl : Loops.Filled f.cfg l) {bound : Operand}
    (hbound : boundChanges f l bound = false) (hasm : ∀ r, bound = .reg r → ¬ AsmWrites f l r)
    {args : List Nat} {p q : Point} (hp : f.Reaches Γ args p) (hlap : f.Lap Γ l p q) (x : Nat) :
    bound.Evals q.regs x ↔ bound.Evals p.regs x := by
  have hkeep : ∀ r, bound = .reg r → q.regs r = p.regs r := by
    rintro r rfl
    exact hlap.keeps hwf hl hp (not_writtenIn hwf.ids hbound (hasm r rfl))
  exact ⟨evals_congr fun r hr => (hkeep r hr).symm, evals_congr hkeep⟩

theorem recognised_int (hwf : f.WellFormed) (hssa : f.StrictSsa) (hblk : f.BlockSsa) (hty : f.WellTyped Γ)
    {l : Loop} (hone : ∀ n, l.latches = [n] → f.cfg.succ.row n ≠ [l.header, l.header]) {v : EqExitIndVar}
    {header : BasicBlock} {latch pos : Nat} {nv : RegId} {i : Inst} {lhs rhs : Operand}
    (h : Recognised f l (.int v) header latch pos nv i lhs rhs) {args : List Nat} {p q : Point}
    (hp : f.Reaches Γ args p) (hlap : f.Lap Γ l p q) :
    ∃ x : Nat, p.regs v.reg = some x ∧ q.regs v.reg = some ((x + v.stride) % 2 ^ Γ v.reg).toNat := by
  obtain ⟨ty, hparam⟩ := h.param
  obtain ⟨n, -, b, hb, j, hj, hdef⟩ := firstDef_spec hwf.ids h.defined
  obtain ⟨ty', value, rfl, hvalue⟩ :=
    stepOf_computes hty (List.mem_of_getElem? hb) (List.mem_of_getElem? hj) hdef h.step.2 h.step.1
  obtain ⟨regs, x, hkeep, hx, hq⟩ := lap_steps hwf hblk h.latches (hone latch h.latches) h.passed h.head hparam hb
    hj (by simp [Inst.writes, Inst.definedReg]) (assign_computes Γ nv ty' value) (hssa.single hb hj) hp hlap
  obtain ⟨y, hy, rfl⟩ := hvalue regs x hx
  exact ⟨y, hkeep ▸ hy, hq⟩

theorem recognised_ptr (hwf : f.WellFormed) (hblk : f.BlockSsa) (hty : f.WellTyped Γ) {l : Loop}
    (hone : ∀ n, l.latches = [n] → f.cfg.succ.row n ≠ [l.header, l.header]) {v : PtrIndVar}
    {header : BasicBlock} {latch pos : Nat} {nv : RegId} {i : Inst} {lhs rhs : Operand}
    (h : Recognised f l (.ptr v) header latch pos nv i lhs rhs) {args : List Nat} {p q : Point}
    (hp : f.Reaches Γ args p) (hlap : f.Lap Γ l p q) :
    ∃ x : Nat, p.regs v.reg = some x ∧
      q.regs v.reg = some ((x + (IndVar.ptr v).stride) % 2 ^ Γ v.reg).toNat := by
  obtain ⟨ty, hparam⟩ := h.param
  obtain ⟨n, -, b, hb, j, hj, hdef⟩ := firstDef_spec hwf.ids h.defined
  obtain ⟨dst, k, rfl, hk⟩ := ptrStepOf_eq h.step.2
  obtain rfl : dst = nv := Option.some.inj hdef
  obtain ⟨regs, x, hkeep, ⟨base, idx, hbase, rfl, rfl⟩, hq⟩ := lap_steps hwf hblk h.latches
    (hone latch h.latches) h.passed h.head hparam hb hj (by simp [Inst.writes, Inst.definedReg])
    (offset_computes Γ dst _ _ v.elem) (hblk.single hb hj) hp hlap
  have hw : Γ v.reg = 64 :=
    (hty.ptrOffset b (List.mem_of_getElem? hb) dst _ _ v.elem (List.mem_of_getElem? hj)).2
  refine ⟨base, hkeep ▸ hbase, hq.trans ?_⟩
  rw [hw, IndVar.stride, ← hk]
  rfl

/-- **Recognised inductions are real.** From visit to visit along the back edge the register gains exactly
    the stride and the bound stays what it was, in every loop in which no inline assembly writes the
    bound. -/
theorem recognised_inductions (hwf : f.WellFormed) (hssa : f.StrictSsa) (hblk : f.BlockSsa)
    (hty : f.WellTyped Γ) {loops : List Loop} (hloops : f.loops = some loops) {l : Loop} (hl : l ∈ loops)
    {v : IndVar} (hv : Recognises f l v) (hasm : ∀ r, v.bound = .reg r → ¬ AsmWrites f l r) :
    Advances f Γ l v := by
  obtain ⟨t, ht, hloops⟩ := Option.bind_eq_some_iff.mp hloops
  obtain ⟨hfilled, -, -, hone⟩ := Loops.detect_loop ht hloops hl
  intro args p q hp hlap
  obtain ⟨header, latch, pos, nv, i, lhs, rhs, h⟩ := recognises_spec hwf.ids hv
  refine ⟨bound_keeps hwf hfilled h.kept hasm hp hlap, ?_⟩
  cases v with
  | int v => exact recognised_int hwf hssa hblk hty hone h hp hlap
  | ptr v => exact recognised_ptr hwf hblk hty hone h hp hlap

/-! ## A bound that an inline assembly writes -/

def oneI64 : BitVector := ⟨64, 1, BitVector.pos64, BitVector.le64, BitVector.one_lt64⟩

def oneI8 : BitVector := ⟨8, 1, BitVector.pos8, BitVector.le8, BitVector.one_lt8⟩

def tenI64 : BitVector := ⟨64, 10, BitVector.pos64, BitVector.le64, by decide⟩

/-- The entry extends a byte to the first value of register 1. -/
def asmEntry (init : BitVector) : BasicBlock where
  id := 0
  params := []
  insts := [.assign 7 (.int 64) (.cast .zext (.const (.int init)))]
  term := .br 1 [.reg 7]

/-- The header: the assembly writes register 5, register 1 is stepped and compared with the bound. -/
def asmHeader (bound : Operand) : BasicBlock where
  id := 1
  params := [(1, .int 64)]
  insts := [.asm [5], .assign 2 (.int 64) (.bin .add (.reg 1) (.const (.int oneI64))),
    .assign 3 .bool (.cmp .ne (.reg 1) bound)]
  term := .condBr (.reg 3) 1 [.reg 2] 2 []

def asmLoop (init : BitVector) (bound : Operand) : Func where
  name := "poll"
  params := []
  retTy := .unit
  blocks := [asmEntry init, asmHeader bound, ⟨2, [], [], .ret none⟩]
  entry := 0

/-- The test's result is one bit wide. -/
def asmWidth (r : RegId) : Nat := if r = 3 then 1 else 64

def asmLoopIs : Loop := ⟨1, [1], {1}⟩

theorem asmLoop_loops (init : BitVector) (bound : Operand) : (asmLoop init bound).loops = some [asmLoopIs] := by
  have hcfg : (asmLoop init bound).cfg = (asmLoop oneI8 (.reg 5)).cfg := rfl
  rw [loops, hcfg]
  decide

def asmVisit (bound : Operand) (regs : Regs) : Point := ⟨asmHeader bound, (asmHeader bound).insts, regs⟩

def asmNext (x : Nat) : Nat := BvOp.eval .add 64 (x % 2 ^ 64) (1 % 2 ^ 64)

/-- A round in which the assembly delivers `y`. -/
def asmRegs (regs : Regs) (x y : Nat) : Regs := (((regs.set 5 y).set 2 (asmNext x)).set 3 1).set 1 (asmNext x)

def asmFirst (x : Nat) : Regs := (Regs.set (fun _ => none) 7 x).set 1 x

theorem asmLoop_enters (init : BitVector) (bound : Operand) :
    (asmLoop init bound).Reaches asmWidth []
      (asmVisit bound (asmFirst (init.value % 2 ^ init.width % 2 ^ 64))) := by
  have hstart : (asmLoop init bound).Start [] ⟨asmEntry init, (asmEntry init).insts, fun _ => none⟩ :=
    ⟨rfl, rfl, rfl, rfl⟩
  have hzext : RValue.Evals asmWidth (fun _ => none) 64 (.cast .zext (.const (.int init)))
      (init.value % 2 ^ init.width % 2 ^ 64) := ⟨[init.value], .cons rfl .nil, rfl⟩
  have hargs : List.Forall₂ (Operand.Evals (Regs.set (fun _ => none) 7 (init.value % 2 ^ init.width % 2 ^ 64)))
      [.reg 7] [init.value % 2 ^ init.width % 2 ^ 64] := .cons rfl .nil
  exact .step (.step (.start hstart) (.inst (.assign hzext))) (.jump .br rfl hargs rfl)

theorem not_visits {init : BitVector} {bound : Operand} {is : List Inst} {regs : Regs} (h : is.length ≠ 3) :
    ¬ (asmLoop init bound).Visits 1 ⟨asmHeader bound, is, regs⟩ := fun hv => h (congrArg List.length hv.2)

theorem asmLoop_lap (init : BitVector) (bound : Operand) (hbound : bound.width asmWidth = 64) (regs : Regs)
    {x y z : Nat} (hx : regs 1 = some x) (hz : bound.Evals ((regs.set 5 y).set 2 (asmNext x)) z)
    (hne : CmpOp.eval .ne 64 (x % 2 ^ 64) (z % 2 ^ 64) = true) :
    (asmLoop init bound).Lap asmWidth asmLoopIs (asmVisit bound regs) (asmVisit bound (asmRegs regs x y)) where
  start := ⟨rfl, rfl⟩
  finish := ⟨rfl, rfl⟩
  back := by
    have h1 : (regs.set 5 y) 1 = some x := (Regs.set_of_ne (by decide) y).trans hx
    have h2 : ((regs.set 5 y).set 2 (asmNext x)) 1 = some x := (Regs.set_of_ne (by decide) _).trans h1
    have hasm : Inst.Exec asmWidth (.asm [5]) regs (regs.set 5 y) := by
      apply Inst.Exec.other
      · exact fun _ _ _ h => Inst.noConfusion h
      · exact fun _ _ _ _ h => Inst.noConfusion h
      · exact fun r hr => Regs.set_of_ne (fun h => hr (List.mem_singleton.mpr h)) y
    have hadd : RValue.Evals asmWidth (regs.set 5 y) 64 (.bin .add (.reg 1) (.const (.int oneI64))) (asmNext x) :=
      ⟨[x, 1], .cons h1 (.cons rfl .nil), rfl⟩
    have hcmp : RValue.Evals asmWidth ((regs.set 5 y).set 2 (asmNext x)) 1 (.cmp .ne (.reg 1) bound) 1 := by
      refine ⟨[x, z], .cons h2 (.cons hz .nil), ?_⟩
      show 1 = (CmpOp.eval .ne 64 (x % 2 ^ 64) (z % 2 ^ bound.width asmWidth)).toNat
      rw [hbound, hne]
      rfl
    refine ⟨⟨asmHeader bound, [], ((regs.set 5 y).set 2 (asmNext x)).set 3 1⟩, 1, ?_, List.mem_singleton.mpr rfl,
      rfl, rfl, ?_⟩
    · refine .tail (.tail (.tail .refl ⟨.inst hasm, not_visits (by simp)⟩) ⟨.inst (.assign hadd), ?_⟩)
        ⟨.inst (.assign hcmp), not_visits (by simp)⟩
      exact not_visits (by simp)
    · have hjump : List.Forall₂ (Operand.Evals (((regs.set 5 y).set 2 (asmNext x)).set 3 1)) [.reg 2] [asmNext x] :=
        .cons rfl .nil
      refine .jump (.condThen (x := 1) ?_ (by decide)) rfl hjump rfl
      rfl

/-- The register of the second visit holds `10`, that of the third `20`. -/
theorem asm_bound_moves :
    ¬ ∀ (f : Func) (Γ : RegId → Nat), f.WellFormed → f.StrictSsa → f.BlockSsa → f.WellTyped Γ → ∀ ls,
      f.loops = some ls → ∀ l ∈ ls, ∀ v, Recognises f l v → Advances f Γ l v := by
  intro h
  have hv : Recognises (asmLoop oneI8 (.reg 5)) asmLoopIs (.int ⟨1, .reg 5, 1⟩) := by
    show recognizeInt _ _ = _
    rfl
  obtain ⟨hwf, hssa, hblk, hty⟩ : _ ∧ _ ∧ _ ∧ _ :=
    check_sound (show Func.check (asmLoop oneI8 (.reg 5)) asmWidth = true by decide +kernel)
  have hadv := h _ _ hwf hssa hblk hty _ (asmLoop_loops _ _) _ (List.mem_singleton.mpr rfl) _ hv
  have hfirst := asmLoop_lap oneI8 (.reg 5) rfl (asmFirst 1) (x := 1) (y := 10) rfl rfl (by decide +kernel)
  have hsecond := asmLoop_lap oneI8 (.reg 5) rfl (asmRegs (asmFirst 1) 1 10) (x := asmNext 1) (y := 20) rfl rfl
    (by decide +kernel)
  have hten := ((hadv [] _ _ (hfirst.reaches (asmLoop_enters _ _)) hsecond).1 10).mpr rfl
  have : some 20 = some 10 := hten
  exact absurd this (by decide)

/-- With a constant bound the assembly does no harm. -/
theorem recognised_inductions_const :
    Advances (asmLoop oneI8 (.const (.int tenI64))) asmWidth asmLoopIs (.int ⟨1, .const (.int tenI64), 1⟩) ∧
      ∃ p q, (asmLoop oneI8 (.const (.int tenI64))).Reaches asmWidth [] p ∧
        (asmLoop oneI8 (.const (.int tenI64))).Lap asmWidth asmLoopIs p q := by
  obtain ⟨hwf, hssa, hblk, hty⟩ : _ ∧ _ ∧ _ ∧ _ :=
    check_sound (show Func.check (asmLoop oneI8 (.const (.int tenI64))) asmWidth = true by decide +kernel)
  constructor
  · apply recognised_inductions hwf hssa hblk hty (asmLoop_loops _ _) (List.mem_singleton.mpr rfl)
    · show recognizeInt _ _ = _
      rfl
    · exact fun r hr => Operand.noConfusion hr
  · have hlap := asmLoop_lap oneI8 (.const (.int tenI64)) rfl (asmFirst 1) (x := 1) (y := 7) (z := 10) rfl rfl
      (by decide +kernel)
    exact ⟨_, _, asmLoop_enters _ _, hlap⟩

end Induction

end Csolver
