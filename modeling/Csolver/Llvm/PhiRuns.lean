import Csolver.Llvm.PhiExact

/-!
# Runs of the two forms

A run of the text is a run of the lowered function with the same values. The other way around it holds for the
runs that do not enter a block with phis along an edge that passes nothing.
-/

namespace Csolver

namespace Llvm

section

variable {V W : Type} [Inhabited V] {f : RawFunc V W} {ms : List (MBlock V W)} {S : Sem V}

/-- A register that no name is bound to: nothing defines it. -/
def RawFunc.free (f : RawFunc V W) (r : RegId) : Prop := ∀ name, f.nameCtx.regs name ≠ some r

/-- The edge between the blocks passes what the phis list, or there are none. -/
def RawFunc.Known (f : RawFunc V W) (i j : Nat) : Prop :=
  ∀ b t, f.blocks[i]? = some b → f.blocks[j]? = some t → b.term.passes = true ∨ t.phis = []

theorem pull_regs {ctx ctx₁ : Ctx} (h : ctx₁.regs = ctx.regs) (regs : RegId → V) : ctx₁.pull regs = ctx.pull regs := by
  funext name
  simp only [Ctx.pull, h]

variable {i : Nat} {rb : RawBlock V W} {b : LBlock V W} {m : MBlock V W} {ctx₁ : Ctx} {regs : RegId → V} {w : W}

theorem Block.inj (h : Block f i rb b m ctx₁) : ctx₁.Inj := by
  have hinj := (ctxOf_ok f.params f.parsed).1
  intro name name' r
  rw [h.lowered.before.regs]
  exact hinj name name' r

theorem Block.run (h : Block f i rb b m ctx₁) :
    runInsts rb.insts (f.nameCtx.pull regs) w =
      (f.nameCtx.pull (runMInsts m.insts regs w).1, (runMInsts m.insts regs w).2) := by
  have hinsts : b.insts = rb.insts := by rw [h.eq, RawBlock.toLBlock]
  have hrun : runInsts b.insts (ctx₁.pull regs) w = _ := runInsts_eq h.inj h.lowered.insts
  rwa [hinsts, pull_regs h.lowered.before.regs, pull_regs h.lowered.before.regs] at hrun

theorem Block.enter (h : Block f i rb b m ctx₁) (regs : RegId → V) (vs : List V) :
    m.params.length = rb.phis.length ∧
      f.nameCtx.pull (bindParams regs m.params vs) = assignPhis (f.nameCtx.pull regs) rb.phis vs := by
  have hphis : b.phis = rb.phis := by rw [h.eq, RawBlock.toLBlock]
  have hparams := h.lowered.params
  rw [hphis] at hparams
  refine ⟨lowerPhis_length hparams, ?_⟩
  have hbind : ctx₁.pull (bindParams regs m.params vs) = _ := bindParams_eq h.inj hparams vs
  rwa [pull_regs h.lowered.before.regs, pull_regs h.lowered.before.regs] at hbind

theorem Block.free_next (h : Block f i rb b m ctx₁) : f.free ctx₁.nextReg := by
  intro name hname
  have hlt := (ctxOf_ok f.params f.parsed).2 name ctx₁.nextReg hname
  exact absurd (Nat.lt_of_lt_of_le hlt h.lowered.before.next) (lt_irrefl _)

omit [Inhabited V] in
theorem label_unique {j k : Nat} {l : String} (hn : f.llvmLabels.Nodup) (hj : f.llvmLabels[j]? = some l)
    (hk : f.llvmLabels[k]? = some l) : j = k :=
  List.getElem?_inj (List.getElem?_eq_some_iff.mp hj).1 hn |>.mp (hj.trans hk.symm)

theorem step_forward {s s' : Nat × (String → V) × W} (hg : f.Guessed) (hn : f.llvmLabels.Nodup)
    (hlow : f.lower = .ok ms) (h : f.Step S s s') (hs : s.2.1 = f.nameCtx.pull regs) :
    ∃ regs', MStep S f.free ms (s.1, regs, s.2.2) (s'.1, regs', s'.2.2) ∧ s'.2.1 = f.nameCtx.pull regs' := by
  obtain ⟨hb, hpred, htakes, hlabel, ht, hvs⟩ := h
  next i j rb t pred l σ w vs =>
  obtain rfl : σ = f.nameCtx.pull regs := hs
  obtain ⟨b, m, ctx₁, hm, hblk⟩ := lowered_of_block hg hlow hb
  obtain ⟨ctx₂, hterm⟩ := hblk.lowered.term
  have hbt : b.term = rb.term := by rw [hblk.eq, RawBlock.toLBlock]
  rw [hbt] at hterm
  rw [hblk.run] at htakes hvs ⊢
  rw [← pull_regs hblk.lowered.before.regs] at htakes
  have hgoes : l ∈ rb.term.targets ∧ ∃ e, MTakes S f.free (runMInsts m.insts regs w).1 m.term e ∧
      EdgeTo f.parsed b.label ctx₁ rb.term.passes l e := hterm.takes hblk.free_next htakes
  obtain ⟨hl, e, he, hedge⟩ := hgoes
  obtain ⟨t', hllvm⟩ := hedge.llvm hg hn hblk.parsed hpred (mem_spelled_target hb hl) hblk.lowered.before.regs
  -- LLVM's target is the block of the edge
  obtain rfl : j = e.1 := label_unique hn hlabel hllvm.label
  obtain rfl := Option.some.inj (ht.symm.trans hllvm.block)
  obtain ⟨b', m', ctx', hm', hblk'⟩ := lowered_of_block hg hlow ht
  obtain ⟨hlen, hbind⟩ := hblk'.enter (runMInsts m.insts regs w).1 vs
  refine ⟨_, .step hm he hm' ⟨?_, fun k a hk => ?_⟩, hbind.symm⟩
  · rw [hlen, phiValues_length hvs]
  · cases hp : rb.term.passes with
    | true =>
      have hvals : S.phiValues (f.nameCtx.pull (runMInsts m.insts regs w).1) pred t.phis = _ :=
        phiValues_eq (hllvm.args hp)
      obtain rfl := Option.some.inj (hvs.symm.trans hvals)
      rw [List.getElem?_map, hk, Option.map_some]
    | false =>
      rw [hllvm.none hp] at hk
      exact absurd hk (by simp)

theorem step_backward {s s' : Nat × (RegId → V) × W} (hg : f.Guessed) (hn : f.llvmLabels.Nodup)
    (hlow : f.lower = .ok ms) (h : MStep S f.free ms s s') (hknown : f.Known s.1 s'.1) :
    f.Step S (s.1, f.nameCtx.pull s.2.1, s.2.2) (s'.1, f.nameCtx.pull s'.2.1, s'.2.2) := by
  obtain ⟨hm, he, ht, hvs⟩ := h
  next i j m mt args regs w vs =>
  obtain ⟨rb, b, ctx₁, hblk⟩ := block_of_lowered hg hlow hm
  obtain ⟨t, tb, ctx', hblk'⟩ := block_of_lowered hg hlow ht
  obtain ⟨ctx₂, hterm⟩ := hblk.lowered.term
  have hbt : b.term = rb.term := by rw [hblk.eq, RawBlock.toLBlock]
  rw [hbt] at hterm
  have hfree : ∀ name r, ctx₁.regs name = some r → ¬ f.free r :=
    fun name r hr hf => hf name (hblk.lowered.before.regs ▸ hr)
  obtain ⟨l, hl, htakes, hedge⟩ := hterm.taken hfree he
  obtain ⟨pred, hpred⟩ : ∃ pred, f.llvmLabels[i]? = some pred := by
    have hlen : f.llvmLabels.length = f.blocks.length := labelsFrom_length _ _
    exact ⟨_, List.getElem?_eq_getElem (hlen ▸ (List.getElem?_eq_some_iff.mp hblk.raw).1)⟩
  obtain ⟨t', hllvm⟩ := hedge.llvm hg hn hblk.parsed hpred (mem_spelled_target hblk.raw hl) hblk.lowered.before.regs
  obtain rfl := Option.some.inj (hblk'.raw.symm.trans hllvm.block)
  obtain ⟨hlen, hbind⟩ := hblk'.enter (runMInsts m.insts regs w).1 vs
  rw [pull_regs hblk.lowered.before.regs] at htakes
  have hrun : runInsts rb.insts (f.nameCtx.pull regs) w = _ := hblk.run
  have hvals : S.phiValues (f.nameCtx.pull (runMInsts m.insts regs w).1) pred t.phis = some vs := by
    rcases hknown rb t hblk.raw hblk'.raw with hp | hnil
    · have hlisted := hllvm.args hp
      rw [phiValues_eq hlisted]
      refine congrArg some (List.ext_getElem? fun k => ?_)
      rw [List.getElem?_map]
      cases hk : args[k]? with
      | some a => rw [Option.map_some, hvs.2 k a hk]
      | none =>
        have hge : args.length ≤ k := List.getElem?_eq_none_iff.mp hk
        have hargs : t.phis.length = args.length := hlisted.length_eq
        rw [Option.map_none, eq_comm, List.getElem?_eq_none_iff, hvs.1, hlen, hargs]
        exact hge
    · have hzero : vs = [] := List.length_eq_zero_iff.mp (by rw [hvs.1, hlen, hnil, List.length_nil])
      rw [hnil, hzero, Sem.phiValues]
  have hfst : (runInsts rb.insts (f.nameCtx.pull regs) w).1 = f.nameCtx.pull (runMInsts m.insts regs w).1 := by rw [hrun]
  rw [← hfst] at htakes hvals
  have hstep := RawFunc.Step.step hblk.raw hpred htakes hllvm.label hblk'.raw hvals
  rw [hrun] at hstep
  rwa [← hbind] at hstep

open Relation in
/-- No two blocks share a label; the edges of a block lead to the blocks that LLVM means, and those of a branch
pass, in the order of the phis, what they list for the block; and the runs of both forms have the same values,
those of the lowered one as far as the parameters that they enter are known. -/
theorem phi_exact (hg : f.Guessed) (hn : f.llvmLabels.Nodup) (hlow : f.lower = .ok ms) :
    (f.parsed.map (·.label)).Nodup ∧
    (∀ (i : Nat) rb m pred, f.blocks[i]? = some rb → ms[i]? = some m → f.llvmLabels[i]? = some pred →
      (∀ l ∈ rb.term.targets, ∃ e ∈ m.term.edges, ∃ t, LlvmEdge f pred rb.term.passes l e t) ∧
        ∀ e ∈ m.term.edges, ∃ l ∈ rb.term.targets, ∃ t, LlvmEdge f pred rb.term.passes l e t) ∧
    (∀ (S : Sem V) (s s' : Nat × (String → V) × W), ReflTransGen (f.Step S) s s' → ∀ regs, s.2.1 = f.nameCtx.pull regs →
      ∃ regs', ReflTransGen (MStep S f.free ms) (s.1, regs, s.2.2) (s'.1, regs', s'.2.2) ∧
        s'.2.1 = f.nameCtx.pull regs') ∧
    ∀ (S : Sem V) s s', ReflTransGen (fun s s' => MStep S f.free ms s s' ∧ f.Known s.1 s'.1) s s' →
      ReflTransGen (f.Step S) (s.1, f.nameCtx.pull s.2.1, s.2.2) (s'.1, f.nameCtx.pull s'.2.1, s'.2.2) := by
  refine ⟨hg.nodup hn, ?_, ?_, ?_⟩
  · intro i rb m pred hb hm hpred
    obtain ⟨b, m', ctx₁, hm', hblk⟩ := lowered_of_block hg hlow hb
    obtain rfl := Option.some.inj (hm.symm.trans hm')
    obtain ⟨ctx₂, hterm⟩ := hblk.lowered.term
    have hbt : b.term = rb.term := by rw [hblk.eq, RawBlock.toLBlock]
    rw [hbt] at hterm
    obtain ⟨hto, hof⟩ := hterm.edges
    refine ⟨fun l hl => ?_, fun e he => ?_⟩
    · obtain ⟨e, he, hedge⟩ := hto l hl
      exact ⟨e, he, hedge.llvm hg hn hblk.parsed hpred (mem_spelled_target hb hl) hblk.lowered.before.regs⟩
    · obtain ⟨l, hl, hedge⟩ := hof e he
      exact ⟨l, hl, hedge.llvm hg hn hblk.parsed hpred (mem_spelled_target hb hl) hblk.lowered.before.regs⟩
  · intro S s s' hrun regs hs
    induction hrun with
    | refl => exact ⟨regs, .refl, hs⟩
    | tail _ hstep ih =>
      obtain ⟨regs₁, hrun₁, hs₁⟩ := ih
      obtain ⟨regs₂, hstep₂, hs₂⟩ := step_forward hg hn hlow hstep hs₁
      exact ⟨regs₂, hrun₁.tail hstep₂, hs₂⟩
  · intro S s s' hrun
    induction hrun with
    | refl => exact .refl
    | tail _ hstep ih => exact ih.tail (step_backward hg hn hlow hstep.1 hstep.2)

end

/-! ### Three functions -/

theorem ne_autoLabel {l : String} (h : l.toList.head? ≠ some '_') (n : Nat) : autoLabel n ≠ l := by
  rintro rfl
  exact h (by rw [toList_autoLabel]; rfl)

/-- The entry has no label, and the loop counts up to the parameter. -/
def countLoop : RawFunc Nat Unit where
  params := ["0"]
  blocks := [
    ⟨none, [], [], .br "loop", 0⟩,
    ⟨some "loop", [⟨"i", .int 32, [(.int 0, "1"), (.local "next", "loop")]⟩],
      [⟨some "next", fun σ w => (σ "i" + 1, w)⟩, ⟨some "more", fun σ w => (if σ "next" < σ "0" then 1 else 0, w)⟩],
      .condBr (.local "more") "loop" "exit", 0⟩,
    ⟨some "exit", [], [], .ret (some (.local "next")), 0⟩]

theorem countLoop_guessed : countLoop.Guessed where
  entry b hb hl p hp := by
    obtain rfl : p = "0" := by simpa [countLoop] using hp
    decide
  auto n h := by
    have hmem : autoLabel n ∈ ["loop", "exit", "loop", "loop", "exit", "1", "loop"] := h
    simp only [List.mem_cons, List.not_mem_nil, ne_autoLabel (by decide : "loop".toList.head? ≠ some '_'),
      ne_autoLabel (by decide : "exit".toList.head? ≠ some '_'),
      ne_autoLabel (by decide : "1".toList.head? ≠ some '_'), or_self] at hmem

theorem countLoop_phis : ∃ ms m, countLoop.lower = .ok ms ∧ ms[1]? = some m ∧
    ∀ e ∈ m.term.edges, ∃ l ∈ ["loop", "exit"], ∃ t, LlvmEdge countLoop "loop" true l e t := by
  refine ⟨_, _, rfl, rfl, ?_⟩
  exact ((phi_exact countLoop_guessed (by decide) rfl).2.1 1 _ _ "loop" rfl rfl rfl).2

/-- Both edges of the switch lead to a block with a phi. -/
def dispatch : RawFunc Nat Unit where
  params := ["x"]
  blocks := [
    ⟨some "entry", [], [], .switch (.local "x") 32 "join" [(1, "join")], 0⟩,
    ⟨some "join", [⟨"p", .int 32, [(.int 7, "entry"), (.int 7, "entry")]⟩], [], .ret (some (.local "p")), 0⟩]

/-- The parameter is named, so the entry is the block `%0`. -/
def namedParam : RawFunc Nat Unit where
  params := ["a"]
  blocks := [⟨none, [], [], .br "1", 0⟩, ⟨some "1", [], [], .ret none, 0⟩]

/-- A switch passes nothing to a phi, and the number that the parser gives to an entry can be that of another
block. -/
theorem phi_inexact :
    (∃ ms m e t, dispatch.lower = .ok ms ∧ ms[0]? = some m ∧ e ∈ m.term.edges ∧ dispatch.blocks[e.1]? = some t ∧
      dispatch.llvmLabels[0]? = some "entry" ∧ ¬ Listed dispatch.nameCtx "entry" t.phis e.2) ∧
    ∃ ms, namedParam.lower = .ok ms ∧ namedParam.llvmLabels = ["0", "1"] ∧
      namedParam.parsed.map (·.label) = ["1", "1"] := by
  refine ⟨⟨_, _, (1, []), _, rfl, rfl, ?_, rfl, rfl, fun h => ?_⟩, _, rfl, rfl, rfl⟩
  · simp [Terminator.edges]
  · exact absurd h.length_eq (by decide)

end Llvm

end Csolver
