import Csolver.Verifier.Mem2regSound

/-!
# The registers of the new parameters (`next_reg` of `crates/verifier/src/mem2reg.rs`)

They are numbered past every block parameter and every register that `defined_reg` reports, and past no
other: a parameter of the function, a register that inline assembly writes or one that is only read may be
taken a second time (`phi_fresh_iff`).
-/

namespace Csolver.Mem2reg

open Lib

/-- The registers that instructions write. -/
def writtenRegs (f : Func) : List RegId := f.blocks.flatMap fun b => b.insts.flatMap Inst.writes

def asReg : Operand → Option RegId
  | .reg r => some r
  | .const _ => none

/-- The registers that instructions and terminators read. -/
def usedRegs (f : Func) : List RegId :=
  f.blocks.flatMap fun b => (b.insts.flatMap Inst.operands ++ termOperands b.term).filterMap asReg

/-- The registers that inline assembly writes. -/
def asmRegs (f : Func) : List RegId :=
  f.blocks.flatMap fun b => b.insts.flatMap fun i => match i with
    | .asm defs => defs
    | _ => []

/-- The block parameters of `f'` that `f` has not. -/
def introduced (f f' : Func) : List RegId := (paramRegs f').diff (paramRegs f)

/-- Every register has one definition. -/
def Ssa (f : Func) : Prop := (f.params.map (·.1) ++ paramRegs f ++ writtenRegs f).Nodup

theorem paramRegs_modify {bs : List BasicBlock} {n : Nat} {x : RegId × Ty} (hn : n < bs.length) :
    ((bs.modify n fun b => { b with params := b.params ++ [x] }).flatMap fun b => b.params.map (·.1)).Perm
      (bs.flatMap (fun b => b.params.map (·.1)) ++ [x.1]) := by
  induction bs generalizing n with
  | nil => exact absurd hn (Nat.not_lt_zero _)
  | cons b bs ih =>
    cases n with
    | zero =>
      simp only [List.modify_zero_cons, List.flatMap_cons, List.map_append, List.map_cons, List.map_nil,
        List.append_assoc]
      exact List.Perm.append_left _ List.perm_append_comm
    | succ n =>
      simp only [List.modify_succ_cons, List.flatMap_cons, List.append_assoc]
      exact List.Perm.append_left _ (ih (Nat.lt_of_succ_lt_succ hn))

theorem position_isSome {f : Func} {n : Nat} (hn : n < f.blocks.length) :
    ∃ p, f.position (f.blockId n) = some p ∧ p < f.blocks.length := by
  have hfind : ((f.blocks.findIdx? fun b => b.id = f.blockId n).isSome) = true := by
    rw [List.findIdx?_isSome, List.any_eq_true]
    refine ⟨f.blocks[n], List.getElem_mem hn, ?_⟩
    simp [Func.blockId, List.getElem?_eq_getElem hn]
  have hsome : (f.position (f.blockId n)).isSome := by
    rw [Func.position]
    split
    · split
      · rfl
      · exact hfind
    · exact hfind
  obtain ⟨p, hp⟩ := Option.isSome_iff_exists.mp hsome
  exact ⟨p, hp, position_lt hp⟩

theorem nodeCount_eq (f : Func) : f.cfg.nodeCount = f.blocks.length := by
  show f.skeleton.succ.length = f.blocks.length
  simp [Csolver.Func.succ, Func.skeleton]

theorem paramRegs_addParams {f₀ : Func} (ps : List Phi) (hnodes : ∀ p ∈ ps, p.node < f₀.blocks.length) {f : Func}
    (hids : ids f = ids f₀) :
    (paramRegs (ps.foldl addParam f)).Perm (paramRegs f ++ ps.map (·.reg)) := by
  induction ps generalizing f with
  | nil => simp
  | cons p ps ih =>
    have hlen : f.blocks.length = f₀.blocks.length := by simpa [ids] using congrArg List.length hids
    obtain ⟨q, hq, hlt⟩ := position_isSome (f := f) (n := p.node) (hlen ▸ hnodes p List.mem_cons_self)
    have hadd : (paramRegs (addParam f p)).Perm (paramRegs f ++ [p.reg]) := by
      rw [paramRegs, addParam, Func.updateBlock, hq]
      exact paramRegs_modify hlt
    have hids' : ids (addParam f p) = ids f₀ :=
      (ids_updateBlock f (f.blockId p.node) (g := fun b => { b with params := b.params ++ [(p.reg, p.ty)] })
        fun _ => rfl).trans hids
    refine (ih (fun r hr => hnodes r (List.mem_cons_of_mem p hr)) hids').trans ?_
    rw [List.map_cons, List.append_cons]
    exact hadd.append_right _

theorem Renamed.forall₂ {slots : Slots} {f₀ f₂ f : Func} {done : List Nat} (h : Renamed slots f₀ f₂ done f) :
    List.Forall₂ (BlockRenamed slots) f₂.blocks f.blocks := by
  rw [List.forall₂_iff_get]
  refine ⟨h.length.symm, fun p hp hp' => ?_⟩
  exact h.block p _ _ (List.getElem?_eq_getElem hp) (List.getElem?_eq_getElem hp')

theorem Renamed.regs {slots : Slots} {f₀ f₂ f : Func} {done : List Nat} (h : Renamed slots f₀ f₂ done f) :
    paramRegs f = paramRegs f₂ ∧ (writtenRegs f).Sublist (writtenRegs f₂) := by
  rw [paramRegs, paramRegs, writtenRegs, writtenRegs]
  have hblocks := h.forall₂
  generalize f.blocks = bs at hblocks
  generalize f₂.blocks = bs₂ at hblocks
  induction hblocks with
  | nil => exact ⟨rfl, List.Sublist.refl _⟩
  | cons hb _ ih =>
    simp only [List.flatMap_cons, hb.params, ih.1]
    exact ⟨trivial, hb.insts.writes.append ih.2⟩

theorem promote_regs {f f' : Func} {slots : Slots} {ps : List Phi}
    (hplaced : Placed (splitCriticalSwitchEdges f) slots ps)
    (hcase : slots = [] ∧ f' = splitCriticalSwitchEdges f ∨
      ∃ done, Renamed slots (splitCriticalSwitchEdges f) (ps.foldl addParam (splitCriticalSwitchEdges f)) done f' ∧
        ∀ n, n ∈ done ↔
          Reach (splitCriticalSwitchEdges f).cfg.succ.Edge (splitCriticalSwitchEdges f).cfg.entry n) :
    f'.params = f.params ∧ (paramRegs f').Perm (paramRegs f ++ ps.map (·.reg)) ∧
      (writtenRegs f').Sublist (writtenRegs f) := by
  have hparams : paramRegs (splitCriticalSwitchEdges f) = paramRegs f :=
    flatMap_split (fun b b' h => by rw [h.params]) (fun b h => by rw [h.1]; rfl) f
  have hwritten : writtenRegs (splitCriticalSwitchEdges f) = writtenRegs f :=
    flatMap_split (fun b b' h => by rw [h.insts]) (fun b h => by rw [h.2.1]; rfl) f
  obtain ⟨_, _, _, hfp, _⟩ := split_blocks f
  rcases hcase with ⟨hnil, rfl⟩ | ⟨done, hren, _⟩
  · rw [hplaced.empty hnil, hparams, hwritten]
    exact ⟨hfp, by simp, List.Sublist.refl _⟩
  · obtain ⟨hbodies, hfparams⟩ := bodies_addParams ps (splitCriticalSwitchEdges f)
    obtain ⟨hregs, hsub⟩ := hren.regs
    have hnodes : ∀ p ∈ ps, p.node < (splitCriticalSwitchEdges f).blocks.length := fun p hp =>
      nodeCount_eq (splitCriticalSwitchEdges f) ▸ hplaced.nodes p hp
    have hsame : writtenRegs (ps.foldl addParam (splitCriticalSwitchEdges f)) =
        writtenRegs (splitCriticalSwitchEdges f) := by
      have hread (g : Func) : writtenRegs g = (bodies g).flatMap fun b => b.2.1.flatMap Inst.writes := by
        rw [writtenRegs, bodies, List.flatMap_map]
      rw [hread, hread, hbodies]
    refine ⟨hren.params.trans (hfparams.trans hfp), ?_, ?_⟩
    · rw [hregs, ← hparams]
      exact paramRegs_addParams ps hnodes rfl
    · rw [← hwritten, ← hsame]
      exact hsub

theorem nextReg_split (f : Func) : nextReg (splitCriticalSwitchEdges f) = nextReg f := by
  have hnoted : noted (splitCriticalSwitchEdges f) = noted f :=
    flatMap_split (fun b b' h => by rw [h.params, h.insts]) (fun b h => by rw [h.1, h.2.1]; rfl) f
  exact congrArg (fun rs => rs.foldl (fun m r => max m (r + 1)) 0) hnoted

theorem mem_introduced {f f' : Func} {ps : List Phi} (hregs : ps.map (·.reg) = List.range' (nextReg f) ps.length)
    (hperm : (paramRegs f').Perm (paramRegs f ++ ps.map (·.reg))) (r : RegId) :
    r ∈ introduced f f' ↔ nextReg f ≤ r ∧ r < nextReg f + ps.length := by
  rw [introduced, ← List.count_pos_iff, List.count_diff, hperm.count_eq, List.count_append, Nat.add_sub_cancel_left,
    List.count_pos_iff, hregs, List.mem_range'_1]

/-- What `next_reg` does not see of the written registers is written by inline assembly. -/
theorem writtenRegs_cases {f : Func} {r : RegId} (h : r ∈ writtenRegs f) : r ∈ noted f ∨ r ∈ asmRegs f := by
  obtain ⟨b, hb, h⟩ := List.mem_flatMap.mp h
  obtain ⟨i, hi, hr⟩ := List.mem_flatMap.mp h
  unfold Inst.writes at hr
  split at hr
  · next defs => exact .inr (List.mem_flatMap.mpr ⟨b, hb, List.mem_flatMap.mpr ⟨_, hi, hr⟩⟩)
  · refine .inl (List.mem_flatMap.mpr ⟨b, hb, List.mem_append_right _ (List.mem_filterMap.mpr ⟨i, hi, ?_⟩)⟩)
    simpa using hr

theorem asmRegs_sub {f : Func} {r : RegId} (h : r ∈ asmRegs f) : r ∈ writtenRegs f := by
  obtain ⟨b, hb, h⟩ := List.mem_flatMap.mp h
  obtain ⟨i, hi, hr⟩ := List.mem_flatMap.mp h
  refine List.mem_flatMap.mpr ⟨b, hb, List.mem_flatMap.mpr ⟨i, hi, ?_⟩⟩
  split at hr
  · exact hr
  · exact absurd hr List.not_mem_nil

/-- The new parameters are fresh, and the result has one definition for every register if `f` had. -/
def Fresh (f f' : Func) : Prop :=
  (∀ r ∈ introduced f f', r ∉ f.params.map (·.1) ∧ r ∉ paramRegs f ∧ r ∉ writtenRegs f ∧ r ∉ usedRegs f) ∧
    (Ssa f → Ssa f')

/-- **PHI registers.** The registers of the new parameters are fresh exactly if no function parameter, no register
    that inline assembly writes and no register that is read is among the next ones, as many as there are
    parameters. -/
theorem phi_fresh_iff (f : Func) : ∃ slots ps f',
    placement (splitCriticalSwitchEdges f) = some (slots, ps) ∧ promoteFunction f = some f' ∧
      (Fresh f f' ↔ ∀ r, r ∈ f.params.map (·.1) ∨ r ∈ asmRegs f ∨ r ∈ usedRegs f →
        r < nextReg f ∨ nextReg f + ps.length ≤ r) := by
  obtain ⟨slots, ps, f', hplace, hrun, hplaced, hcase⟩ := promoteFunction_spec f
  refine ⟨slots, ps, f', hplace, hrun, ?_⟩
  obtain ⟨hparams, hperm, hwritten⟩ := promote_regs hplaced hcase
  have hregs : ps.map (·.reg) = List.range' (nextReg f) ps.length := nextReg_split f ▸ hplaced.regs
  have hmem := mem_introduced hregs hperm
  constructor
  · rintro ⟨hfresh, _⟩ r hr
    by_contra hin
    obtain ⟨hge, hlt⟩ := not_or.mp hin
    have hnew : r ∈ introduced f f' := (hmem r).mpr ⟨Nat.not_lt.mp hge, Nat.not_le.mp hlt⟩
    obtain ⟨hp, _, hw, hu⟩ := hfresh r hnew
    rcases hr with hr | hr | hr
    · exact hp hr
    · exact hw (asmRegs_sub hr)
    · exact hu hr
  · intro hfar
    have hout (r : RegId) (hr : r ∈ introduced f f') (h : r ∈ f.params.map (·.1) ∨ r ∈ asmRegs f ∨ r ∈ usedRegs f) :
        False := by
      obtain ⟨hge, hlt⟩ := (hmem r).mp hr
      rcases hfar r h with h | h
      · exact Nat.not_le.mpr h hge
      · exact Nat.not_lt.mpr h hlt
    have hold (r : RegId) (hr : r ∈ introduced f f') : r ∉ noted f := fun h =>
      absurd (lt_nextReg h) (Nat.not_lt.mpr ((hmem r).mp hr).1)
    have hfresh : ∀ r ∈ introduced f f',
        r ∉ f.params.map (·.1) ∧ r ∉ paramRegs f ∧ r ∉ writtenRegs f ∧ r ∉ usedRegs f := by
      intro r hr
      refine ⟨fun h => hout r hr (.inl h), fun h => hold r hr ?_, fun h => ?_, fun h => hout r hr (.inr (.inr h))⟩
      · obtain ⟨b, hb, h⟩ := List.mem_flatMap.mp h
        exact List.mem_flatMap.mpr ⟨b, hb, List.mem_append_left _ h⟩
      · rcases writtenRegs_cases h with h | h
        · exact hold r hr h
        · exact hout r hr (.inr (.inl h))
    refine ⟨hfresh, fun hssa => ?_⟩
    -- the old definitions, some of them dropped, and the new ones, which are next to each other
    rw [Ssa, hparams]
    have hperm' : (f.params.map (·.1) ++ paramRegs f' ++ writtenRegs f').Perm
        (ps.map (·.reg) ++ (f.params.map (·.1) ++ paramRegs f ++ writtenRegs f')) := by
      rw [List.append_assoc, List.append_assoc, ← List.append_assoc (ps.map (·.reg))]
      refine ((hperm.append_right _).append_left _).trans ?_
      rw [List.append_assoc, ← List.append_assoc (f.params.map (·.1))]
      rw [List.append_assoc (ps.map (·.reg)), ← List.append_assoc (f.params.map (·.1)) (paramRegs f)]
      exact List.perm_append_comm_assoc _ _ _
    rw [hperm'.nodup_iff, List.nodup_append]
    refine ⟨by rw [hregs]; exact List.nodup_range', hssa.sublist (hwritten.append_left _), ?_⟩
    rintro r hr _ hs rfl
    rw [hregs, List.mem_range'_1] at hr
    obtain ⟨hp, hq, hw, _⟩ := hfresh r ((hmem r).mpr hr)
    rcases List.mem_append.mp hs with hs | hs
    · rcases List.mem_append.mp hs with hs | hs
      · exact hp hs
      · exact hq hs
    · exact hw (hwritten.subset hs)

/-- A parameter in register 2, a slot in register 0, and a load into register 1. -/
def clashing : Func :=
  let one : Operand := .const (.int ⟨32, 1, BitVector.pos32, BitVector.le32, BitVector.one_lt32⟩)
  ⟨[(2, .bool)],
    [⟨0, [], [.alloc 0 (.int 32) one, .store (.int 32) (.reg 0) one], .condBr (.reg 2) 1 [] 2 []⟩,
     ⟨1, [], [.store (.int 32) (.reg 0) one], .br 3 []⟩,
     ⟨2, [], [], .br 3 []⟩,
     ⟨3, [], [.load 1 (.int 32) (.reg 0)], .ret (some (.reg 1))⟩], 0⟩

/-- The new parameter takes the register of the function's parameter. -/
theorem clashing_not_fresh : ¬ ∃ f', promoteFunction clashing = some f' ∧ Fresh clashing f' := by
  rintro ⟨f', hrun, hfresh, _⟩
  have hnew : ((promoteFunction clashing).any fun g => introduced clashing g == [2]) = true := by decide
  rw [hrun, Option.any_some, beq_iff_eq] at hnew
  obtain ⟨hp, _⟩ := hfresh 2 (by rw [hnew]; exact List.mem_singleton_self 2)
  exact hp (by decide)

end Csolver.Mem2reg
