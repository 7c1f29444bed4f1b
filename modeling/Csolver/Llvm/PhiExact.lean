import Csolver.Llvm.Labels

/-!
# Phis and block parameters agree

Every target of a branch resolves to LLVM's block, and every edge of a branch passes what the phis list for the
block that it leaves. So both forms run in step: a run of one is a run of the other with the same values, except
that a parameter behind an edge of a switch is not known.
-/

namespace Csolver

namespace Llvm

section

variable {V W : Type} [Inhabited V]

/-! ## Registers of the names -/

theorem define_ok {ctx : Ctx} (name : String) (hinj : ctx.Inj) (hfits : ctx.Fits ctx.nextReg) :
    (ctx.define name).Inj ∧ (ctx.define name).Fits (ctx.define name).nextReg := by
  rw [Ctx.define]
  split
  · exact ⟨hinj, fun x r hr => Nat.lt_succ_of_lt (hfits x r hr)⟩
  · split
    · exact ⟨hinj, hfits⟩
    · next hnone =>
      refine ⟨fun x y r hx hy => ?_, fun x r hx => ?_⟩
      · dsimp only at hx hy
        split at hx <;> split at hy
        · next hx' hy' => rw [hx', hy']
        · obtain rfl := Option.some.inj hx
          exact absurd (hfits y _ hy) (lt_irrefl _)
        · obtain rfl := Option.some.inj hy
          exact absurd (hfits x _ hx) (lt_irrefl _)
        · exact hinj x y r hx hy
      · dsimp only at hx ⊢
        split at hx
        · exact Option.some.inj hx ▸ Nat.lt_succ_self _
        · exact Nat.lt_succ_of_lt (hfits x r hx)

theorem foldl_define_ok (names : List String) {ctx : Ctx} (hinj : ctx.Inj) (hfits : ctx.Fits ctx.nextReg) :
    (names.foldl Ctx.define ctx).Inj ∧ (names.foldl Ctx.define ctx).Fits (names.foldl Ctx.define ctx).nextReg := by
  induction names generalizing ctx with
  | nil => exact ⟨hinj, hfits⟩
  | cons name names ih =>
    obtain ⟨hi, hf⟩ := define_ok name hinj hfits
    exact ih hi hf

omit [Inhabited V] in
theorem ctxOf_ok (params : List String) (blocks : List (LBlock V W)) :
    (ctxOf params blocks).Inj ∧ (ctxOf params blocks).Fits (ctxOf params blocks).nextReg :=
  foldl_define_ok _ (fun _ _ _ h => absurd h (by simp)) fun _ _ h => absurd h (by simp)

/-! ## Contexts with the same names -/

/-- The context has the names of the other one, and hands out registers that are free there. -/
structure Ctx.Extends (ctx ctx₁ : Ctx) : Prop where
  regs : ctx₁.regs = ctx.regs
  next : ctx.nextReg ≤ ctx₁.nextReg

variable {S : Sem V} {ctx ctx₁ ctx₂ : Ctx} {blocks : List (LBlock V W)} {b : LBlock V W} {m : MBlock V W}
  {src l : String} {width : Nat}

omit [Inhabited V] in
theorem blockId_eq_ok {j : BlockId} (h : blockId blocks l = .ok j) : blockIds blocks l = some j := by
  rw [blockId] at h
  split at h
  · next j' hj => exact Except.ok.inj h ▸ hj
  · exact absurd h (by simp)

/-- What a terminator is lowered to. -/
inductive LowersTo (blocks : List (LBlock V W)) (src : String) (ctx : Ctx) : LTerm → Terminator → Ctx → Prop
  | ret {v t} : LowersTo blocks src ctx (.ret v) (.ret t) ctx
  | br {target id args} : blockIds blocks target = some id → branchArgs blocks ctx src target = .ok args →
    LowersTo blocks src ctx (.br target) (.br id args) ctx
  | condBr {cond c t tb ta f fb fa} : ctx.operand cond 1 = .ok c → blockIds blocks t = some tb →
    branchArgs blocks ctx src t = .ok ta → blockIds blocks f = some fb → branchArgs blocks ctx src f = .ok fa →
    LowersTo blocks src ctx (.condBr cond t f) (.condBr c tb ta fb fa) ctx
  | switch {value v width default d cases cs} : lowerCases blocks (min (max width 1) 128) cases = .ok cs →
    ctx.operand value (min (max width 1) 128) = .ok v → blockIds blocks default = some d →
    LowersTo blocks src ctx (.switch value width default cases) (.switch v cs d) ctx
  | invoke {ok tb ta cleanup fb fa} : blockIds blocks ok = some tb → branchArgs blocks ctx src ok = .ok ta →
    blockIds blocks cleanup = some fb → branchArgs blocks ctx src cleanup = .ok fa →
    LowersTo blocks src ctx (.invoke ok cleanup) (.condBr (.reg ctx.nextReg) tb ta fb fa)
      { ctx with nextReg := ctx.nextReg + 1 }
  | callBr {target d others cs} : blockIds blocks target = some d →
    lowerCases blocks 64 (others.zipIdx.map fun t => ((t.2 : Int), t.1)) = .ok cs →
    LowersTo blocks src ctx (.callBr target others) (.switch (.reg ctx.nextReg) cs d)
      { ctx with nextReg := ctx.nextReg + 1 }
  | unreachable : LowersTo blocks src ctx .unreachable .unreachable ctx

omit [Inhabited V] in
theorem lowerTerm_ok {term : LTerm} {t : Terminator} (h : lowerTerm blocks src ctx term = .ok (t, ctx₁)) :
    LowersTo blocks src ctx term t ctx₁ := by
  cases term with
  | ret v =>
    cases v with
    | none =>
      obtain ⟨rfl, rfl⟩ := Prod.mk.inj (Except.ok.inj h)
      exact .ret
    | some v =>
      obtain ⟨_, _, h⟩ := except_bind_ok h
      obtain ⟨rfl, rfl⟩ := Prod.mk.inj (Except.ok.inj h)
      exact .ret
  | br target =>
    obtain ⟨_, hid, h⟩ := except_bind_ok h
    obtain ⟨_, hargs, h⟩ := except_bind_ok h
    obtain ⟨rfl, rfl⟩ := Prod.mk.inj (Except.ok.inj h)
    exact .br (blockId_eq_ok hid) hargs
  | condBr cond t f =>
    obtain ⟨_, hc, h⟩ := except_bind_ok h
    obtain ⟨_, ht, h⟩ := except_bind_ok h
    obtain ⟨_, hta, h⟩ := except_bind_ok h
    obtain ⟨_, hf, h⟩ := except_bind_ok h
    obtain ⟨_, hfa, h⟩ := except_bind_ok h
    obtain ⟨rfl, rfl⟩ := Prod.mk.inj (Except.ok.inj h)
    exact .condBr hc (blockId_eq_ok ht) hta (blockId_eq_ok hf) hfa
  | switch value width default cases =>
    obtain ⟨_, hcs, h⟩ := except_bind_ok h
    obtain ⟨_, hv, h⟩ := except_bind_ok h
    obtain ⟨_, hd, h⟩ := except_bind_ok h
    obtain ⟨rfl, rfl⟩ := Prod.mk.inj (Except.ok.inj h)
    exact .switch hcs hv (blockId_eq_ok hd)
  | invoke ok cleanup =>
    obtain ⟨_, hta, h⟩ := except_bind_ok h
    obtain ⟨_, hfa, h⟩ := except_bind_ok h
    obtain ⟨_, ht, h⟩ := except_bind_ok h
    obtain ⟨_, hf, h⟩ := except_bind_ok h
    obtain ⟨rfl, rfl⟩ := Prod.mk.inj (Except.ok.inj h)
    exact .invoke (blockId_eq_ok ht) hta (blockId_eq_ok hf) hfa
  | callBr target others =>
    obtain ⟨_, hd, h⟩ := except_bind_ok h
    obtain ⟨_, hcs, h⟩ := except_bind_ok h
    obtain ⟨rfl, rfl⟩ := Prod.mk.inj (Except.ok.inj h)
    exact .callBr (blockId_eq_ok hd) hcs
  | unreachable =>
    obtain ⟨rfl, rfl⟩ := Prod.mk.inj (Except.ok.inj h)
    exact .unreachable

omit [Inhabited V] in
theorem LowersTo.extends {term : LTerm} {t : Terminator} (h : LowersTo blocks src ctx term t ctx₁) :
    ctx.Extends ctx₁ := by
  cases h with
  | invoke | callBr => exact ⟨rfl, Nat.le_succ _⟩
  | _ => exact ⟨rfl, Nat.le_refl _⟩

/-! ## Edges -/

/-- A branch passes arguments; a `switch` and a `callbr` pass none. -/
def LTerm.passes : LTerm → Bool
  | .switch .. | .callBr .. => false
  | _ => true

/-- The edge to the block that a label stands for. -/
structure EdgeTo (blocks : List (LBlock V W)) (src : String) (ctx : Ctx) (passes : Bool) (l : String)
    (e : BlockId × List Operand) : Prop where
  block : blockIds blocks l = some e.1
  args : passes = true → branchArgs blocks ctx src l = .ok e.2
  none : passes = false → e.2 = []

omit [Inhabited V] in
theorem lowerCases_dest {width : Nat} {cases : List (Int × String)} {cs : List (BitVector × BlockId)}
    (h : lowerCases blocks width cases = .ok cs) :
    List.Forall₂ (fun c c' => caseConst width c.1 = .ok c'.1 ∧ blockIds blocks c.2 = some c'.2) cases cs := by
  induction cases generalizing cs with
  | nil =>
    obtain rfl := Except.ok.inj h
    exact .nil
  | cons c cases ih =>
    obtain ⟨bv, hbv, h⟩ := except_bind_ok h
    obtain ⟨id, hid, h⟩ := except_bind_ok h
    obtain ⟨rest, hrest, h⟩ := except_bind_ok h
    obtain rfl := Except.ok.inj h
    exact .cons ⟨hbv, blockId_eq_ok hid⟩ (ih hrest)

omit [Inhabited V] in
theorem edgeTo_switch {e : BlockId} (h : blockIds blocks l = some e) : EdgeTo blocks src ctx false l (e, []) :=
  ⟨h, fun hp => absurd hp (by decide), fun _ => rfl⟩

omit [Inhabited V] in
theorem edgeTo_branch {e : BlockId} {args : List Operand} (h : blockIds blocks l = some e)
    (ha : branchArgs blocks ctx src l = .ok args) : EdgeTo blocks src ctx true l (e, args) :=
  ⟨h, fun _ => ha, fun hp => absurd hp (by decide)⟩

omit [Inhabited V] in
theorem cases_edges {cases : List (Int × String)} {cs : List (BitVector × BlockId)} {v : Operand} {default : String}
    {d : BlockId} (h : List.Forall₂ (fun c c' => caseConst width c.1 = .ok c'.1 ∧ blockIds blocks c.2 = some c'.2) cases cs)
    (hd : blockIds blocks default = some d) :
    (∀ l ∈ default :: cases.map (·.2), ∃ e ∈ (Terminator.switch v cs d).edges, EdgeTo blocks src ctx false l e) ∧
      ∀ e ∈ (Terminator.switch v cs d).edges, ∃ l ∈ default :: cases.map (·.2), EdgeTo blocks src ctx false l e := by
  rw [Terminator.edges]
  induction h with
  | nil =>
    refine ⟨fun l hl => ⟨(d, []), by simp, ?_⟩, fun e he => ⟨default, by simp, ?_⟩⟩
    · obtain rfl : l = default := by simpa using hl
      exact edgeTo_switch hd
    · obtain rfl : e = (d, []) := by simpa using he
      exact edgeTo_switch hd
  | @cons c c' cases cs hc _ ih =>
    obtain ⟨ihl, ihe⟩ := ih
    refine ⟨fun l hl => ?_, fun e he => ?_⟩
    · rcases List.mem_cons.mp hl with rfl | hl
      · obtain ⟨e, he, hedge⟩ := ihl l (List.mem_cons_self ..)
        exact ⟨e, List.mem_cons_of_mem _ he, hedge⟩
      · rcases List.mem_cons.mp hl with rfl | hl
        · exact ⟨(c'.2, []), List.mem_cons_self .., edgeTo_switch hc.2⟩
        · obtain ⟨e, he, hedge⟩ := ihl l (List.mem_cons_of_mem _ hl)
          exact ⟨e, List.mem_cons_of_mem _ he, hedge⟩
    · rcases List.mem_cons.mp he with rfl | he
      · exact ⟨c.2, by simp, edgeTo_switch hc.2⟩
      · obtain ⟨l, hl, hedge⟩ := ihe e he
        refine ⟨l, ?_, hedge⟩
        rcases List.mem_cons.mp hl with rfl | hl
        · exact List.mem_cons_self ..
        · exact List.mem_cons_of_mem _ (List.mem_cons_of_mem _ hl)

theorem callBr_targets (target : String) (others : List String) :
    target :: (others.zipIdx.map fun t => ((t.2 : Int), t.1)).map (·.2) = (LTerm.callBr target others).targets := by
  simp [LTerm.targets, List.map_map, Function.comp_def]

omit [Inhabited V] in
theorem LowersTo.edges {term : LTerm} {t : Terminator} (h : LowersTo blocks src ctx term t ctx₁) :
    (∀ l ∈ term.targets, ∃ e ∈ t.edges, EdgeTo blocks src ctx term.passes l e) ∧
      ∀ e ∈ t.edges, ∃ l ∈ term.targets, EdgeTo blocks src ctx term.passes l e := by
  cases h with
  | ret | unreachable => exact ⟨fun l hl => absurd hl (by simp [LTerm.targets]), fun e he => absurd he (by simp [Terminator.edges])⟩
  | br hid hargs =>
    have hedge := edgeTo_branch hid hargs
    refine ⟨fun l hl => ?_, fun e he => ?_⟩
    · obtain rfl : l = _ := by simpa [LTerm.targets] using hl
      exact ⟨_, List.mem_cons_self .., hedge⟩
    · obtain rfl : e = _ := by simpa [Terminator.edges] using he
      exact ⟨_, List.mem_cons_self .., hedge⟩
  | condBr _ ht hta hf hfa | invoke ht hta hf hfa =>
    have hthen := edgeTo_branch ht hta
    have helse := edgeTo_branch hf hfa
    refine ⟨fun l hl => ?_, fun e he => ?_⟩
    · rcases List.mem_cons.mp hl with rfl | hl
      · exact ⟨_, List.mem_cons_self .., hthen⟩
      · obtain rfl := List.mem_singleton.mp hl
        exact ⟨_, List.mem_cons_of_mem _ (List.mem_cons_self ..), helse⟩
    · rcases List.mem_cons.mp he with rfl | he
      · exact ⟨_, List.mem_cons_self .., hthen⟩
      · obtain rfl := List.mem_singleton.mp he
        exact ⟨_, List.mem_cons_of_mem _ (List.mem_cons_self ..), helse⟩
  | switch hcs _ hd => exact cases_edges (lowerCases_dest hcs) hd
  | callBr hd hcs =>
    rw [← callBr_targets]
    exact cases_edges (lowerCases_dest hcs) hd

/-! ## The edge that is taken -/

variable {regs : RegId → V} {free : RegId → Prop}

omit [Inhabited V] in
theorem pickCase_eq {cases : List (Int × String)} {cs : List (BitVector × BlockId)} {default : String} {d : BlockId}
    (x : V) (h : List.Forall₂ (fun c c' => caseConst width c.1 = .ok c'.1 ∧ blockIds blocks c.2 = some c'.2) cases cs)
    (hd : blockIds blocks default = some d) :
    blockIds blocks (S.pickCase x width default cases) = some (S.pickBlock x d cs) ∧
      S.pickCase x width default cases ∈ default :: cases.map (·.2) := by
  induction h with
  | nil => exact ⟨hd, List.mem_cons_self ..⟩
  | @cons c c' cases cs hc _ ih =>
    obtain ⟨n, dest⟩ := c
    obtain ⟨bv, id⟩ := c'
    have hbv : caseConst width n = .ok bv := hc.1
    simp only [Sem.pickCase, Sem.pickBlock, hbv]
    split
    · exact ⟨hc.2, by simp⟩
    · refine ⟨ih.1, ?_⟩
      rcases List.mem_cons.mp ih.2 with heq | hmem
      · rw [heq]
        exact List.mem_cons_self ..
      · exact List.mem_cons_of_mem _ (List.mem_cons_of_mem _ hmem)

theorem LowersTo.takes {term : LTerm} {t : Terminator} (h : LowersTo blocks src ctx term t ctx₁) (hfree : free ctx.nextReg)
    (hl : term.Takes S (ctx.pull regs) l) :
    l ∈ term.targets ∧ ∃ e, MTakes S free regs t e ∧ EdgeTo blocks src ctx term.passes l e := by
  cases h with
  | ret | unreachable => exact hl.elim
  | br hid hargs =>
    obtain rfl := hl
    exact ⟨List.mem_cons_self .., _, rfl, edgeTo_branch hid hargs⟩
  | condBr hc ht hta hf hfa =>
    rw [LTerm.Takes, value_eq hc] at hl
    split at hl
    · next htrue =>
      obtain rfl := hl
      refine ⟨List.mem_cons_self .., _, .inl ?_, edgeTo_branch ht hta⟩
      rw [if_pos htrue]
    · next hfalse =>
      obtain rfl := hl
      refine ⟨by simp [LTerm.targets], _, .inl ?_, edgeTo_branch hf hfa⟩
      rw [if_neg hfalse]
  | invoke ht hta hf hfa =>
    rcases hl with rfl | rfl
    · exact ⟨List.mem_cons_self .., _, .inr ⟨⟨_, rfl, hfree⟩, .inl rfl⟩, edgeTo_branch ht hta⟩
    · exact ⟨by simp [LTerm.targets], _, .inr ⟨⟨_, rfl, hfree⟩, .inr rfl⟩, edgeTo_branch hf hfa⟩
  | switch hcs hv hd =>
    rw [LTerm.Takes, value_eq hv] at hl
    obtain ⟨hid, hmem⟩ := pickCase_eq (S := S) _ (lowerCases_dest hcs) hd
    obtain rfl := hl
    exact ⟨hmem, _, .inl rfl, edgeTo_switch hid⟩
  | @callBr target d others cs hd hcs =>
    refine ⟨hl, ?_⟩
    have hedges : ∀ l ∈ (LTerm.callBr target others).targets, ∃ e ∈ (Terminator.switch (.reg ctx.nextReg) cs d).edges,
        EdgeTo blocks src ctx false l e := by
      rw [← callBr_targets]
      exact (cases_edges (lowerCases_dest hcs) hd).1
    obtain ⟨e, he, hedge⟩ := hedges l hl
    exact ⟨e, .inr ⟨⟨_, rfl, hfree⟩, he⟩, hedge⟩

theorem LowersTo.taken {term : LTerm} {t : Terminator} {e : BlockId × List Operand}
    (h : LowersTo blocks src ctx term t ctx₁) (hfree : ∀ name r, ctx.regs name = some r → ¬ free r)
    (he : MTakes S free regs t e) :
    ∃ l ∈ term.targets, term.Takes S (ctx.pull regs) l ∧ EdgeTo blocks src ctx term.passes l e := by
  have hbound {v : LValue} {w : Nat} {op : Operand} (hop : ctx.operand v w = .ok op) : ¬ ∃ r, op = .reg r ∧ free r := by
    rintro ⟨r, rfl, hr⟩
    cases v with
    | «local» name =>
      simp only [Ctx.operand, Ctx.reg] at hop
      cases hreg : ctx.regs name with
      | none => exact absurd hop (by simp [hreg, Except.map])
      | some r' =>
        rw [hreg] at hop
        obtain rfl := Operand.reg.inj (Except.ok.inj hop)
        exact hfree name r' hreg hr
    | int n =>
      simp only [Ctx.operand, Ctx.intOperand] at hop
      have := Except.ok.inj hop
      split at this
      · exact absurd this (by simp)
      · split at this <;> exact absurd this (by simp)
    | globalOff name elem index =>
      simp only [Ctx.operand] at hop
      have := Except.ok.inj hop
      split at this
      · split at this <;> exact absurd this (by simp)
      · exact absurd this (by simp)
    | _ => exact absurd (Except.ok.inj hop) (by simp)
  cases h with
  | ret | unreachable => exact he.elim
  | br hid hargs =>
    obtain rfl := he
    exact ⟨_, List.mem_cons_self .., rfl, edgeTo_branch hid hargs⟩
  | @condBr cond c t tb ta f fb fa hc ht hta hf hfa =>
    rcases he with rfl | ⟨hr, -⟩
    · refine ⟨_, ?_, by rw [LTerm.Takes], ?_⟩
      · split <;> simp [LTerm.targets]
      · rw [value_eq hc]
        split
        · exact edgeTo_branch ht hta
        · exact edgeTo_branch hf hfa
    · exact absurd hr (hbound hc)
  | @invoke ok tb ta cleanup fb fa ht hta hf hfa =>
    have hcases : e = (tb, ta) ∨ e = (fb, fa) := by
      rcases he with he | ⟨-, he⟩
      · rw [he]
        split
        · exact .inl rfl
        · exact .inr rfl
      · exact he
    rcases hcases with rfl | rfl
    · exact ⟨ok, List.mem_cons_self .., .inl rfl, edgeTo_branch ht hta⟩
    · exact ⟨cleanup, by simp [LTerm.targets], .inr rfl, edgeTo_branch hf hfa⟩
  | switch hcs hv hd =>
    rcases he with rfl | ⟨hr, -⟩
    · obtain ⟨hid, hmem⟩ := pickCase_eq (S := S) (S.operand regs _) (lowerCases_dest hcs) hd
      refine ⟨_, hmem, ?_, edgeTo_switch hid⟩
      rw [LTerm.Takes, value_eq hv]
    · exact absurd hr (hbound hv)
  | @callBr target d others cs hd hcs =>
    have hmem : e ∈ (Terminator.switch (.reg ctx.nextReg) cs d).edges := by
      rcases he with rfl | ⟨-, he⟩
      · rw [Terminator.edges]
        generalize S.operand regs _ = x
        clear hcs
        induction cs with
        | nil => exact List.mem_cons_self ..
        | cons c cs ih =>
          simp only [Sem.pickBlock]
          split
          · exact List.mem_cons_self ..
          · exact List.mem_cons_of_mem _ ih
      · exact he
    have hedges : ∃ l ∈ (LTerm.callBr target others).targets, EdgeTo blocks src ctx false l e := by
      rw [← callBr_targets]
      exact (cases_edges (lowerCases_dest hcs) hd).2 e hmem
    obtain ⟨l, hl, hedge⟩ := hedges
    exact ⟨l, hl, hl, hedge⟩

/-- The lowering of one block, with the parts that depend on the names only. -/
structure Lowered (blocks : List (LBlock V W)) (ctx ctx₁ : Ctx) (b : LBlock V W) (m : MBlock V W) : Prop where
  before : ctx.Extends ctx₁
  params : lowerPhis ctx₁ b.phis = .ok m.params
  insts : lowerInsts ctx₁ b.insts = .ok m.insts
  term : ∃ ctx₂, LowersTo blocks b.label ctx₁ b.term m.term ctx₂

theorem lowerBlock_lowered (h : lowerBlock blocks b ctx = .ok (m, ctx₁)) :
    Lowered blocks ctx ctx b m ∧ ctx.Extends ctx₁ := by
  obtain ⟨ps, hps, h⟩ := except_bind_ok h
  obtain ⟨is, his, h⟩ := except_bind_ok h
  obtain ⟨⟨term, ctx₂⟩, ht, h⟩ := except_bind_ok h
  obtain ⟨rfl, rfl⟩ := Prod.mk.inj (Except.ok.inj h)
  exact ⟨⟨⟨rfl, Nat.le_refl _⟩, hps, his, _, lowerTerm_ok ht⟩, (lowerTerm_ok ht).extends⟩

theorem lowerBlocks_lowered {bs : List (LBlock V W)} {ms : List (MBlock V W)} {i : Nat}
    (h : lowerBlocks blocks bs ctx = .ok ms) :
    (∀ b, bs[i]? = some b → ∃ m ctx₁, ms[i]? = some m ∧ Lowered blocks ctx ctx₁ b m) ∧
      ∀ m, ms[i]? = some m → ∃ b ctx₁, bs[i]? = some b ∧ Lowered blocks ctx ctx₁ b m := by
  induction bs generalizing ctx ms i with
  | nil =>
    obtain rfl := Except.ok.inj h
    exact ⟨fun _ hi => absurd hi (by simp), fun _ hi => absurd hi (by simp)⟩
  | cons c bs ih =>
    obtain ⟨⟨m', ctx'⟩, hm, h⟩ := except_bind_ok h
    obtain ⟨ms', hms, h⟩ := except_bind_ok h
    obtain rfl := Except.ok.inj h
    obtain ⟨hlow, hext⟩ := lowerBlock_lowered hm
    have hafter {ctx₁ : Ctx} {b : LBlock V W} {m : MBlock V W} (hl : Lowered blocks ctx' ctx₁ b m) :
        Lowered blocks ctx ctx₁ b m :=
      ⟨⟨hl.before.regs.trans hext.regs, hext.next.trans hl.before.next⟩, hl.params, hl.insts, hl.term⟩
    cases i with
    | zero =>
      refine ⟨fun b hi => ?_, fun m hi => ?_⟩
      · obtain rfl := Option.some.inj hi
        exact ⟨m', ctx, rfl, hlow⟩
      · obtain rfl := Option.some.inj hi
        exact ⟨c, ctx, rfl, hlow⟩
    | succ i =>
      refine ⟨fun b hi => ?_, fun m hi => ?_⟩
      · obtain ⟨m, ctx₁, hm, hl⟩ := (ih hms).1 b hi
        exact ⟨m, ctx₁, hm, hafter hl⟩
      · obtain ⟨b, ctx₁, hb, hl⟩ := (ih hms).2 m hi
        exact ⟨b, ctx₁, hb, hafter hl⟩

/-! ## Functions -/

/-- The registers of the names of a function. -/
def RawFunc.nameCtx (f : RawFunc V W) : Ctx := ctxOf f.params f.parsed

/-- The edge to LLVM's block of the label, with what the phis of the block list for the predecessor. -/
structure LlvmEdge (f : RawFunc V W) (pred : String) (passes : Bool) (l : String) (e : BlockId × List Operand)
    (t : RawBlock V W) : Prop where
  label : f.llvmLabels[e.1]? = some l
  block : f.blocks[e.1]? = some t
  args : passes = true → Listed f.nameCtx pred t.phis e.2
  none : passes = false → e.2 = []

variable {f : RawFunc V W} {ms : List (MBlock V W)} {i : Nat} {rb : RawBlock V W} {pred : String}

omit [Inhabited V] in
theorem operand_regs (h : ctx₁.regs = ctx.regs) (v : LValue) (w : Nat) : ctx₁.operand v w = ctx.operand v w := by
  cases v with
  | «local» name => simp only [Ctx.operand, Ctx.reg, h]
  | _ => rfl

omit [Inhabited V] in
theorem phiArgs_regs (h : ctx₁.regs = ctx.regs) (src : String) (phis : List LPhi) :
    phiArgs ctx₁ src phis = phiArgs ctx src phis := by
  induction phis with
  | nil => rfl
  | cons phi phis ih => simp only [phiArgs, operand_regs h, ih]

omit [Inhabited V] in
theorem mem_spelled_target (hb : f.blocks[i]? = some rb) (hl : l ∈ rb.term.targets) : l ∈ f.spelled :=
  List.mem_append_left _ (List.mem_append_right _ (List.mem_flatMap.mpr ⟨rb, List.mem_of_getElem? hb, hl⟩))

omit [Inhabited V] in
theorem mem_spelled_pred {phi : LPhi} {v : LValue} (hb : f.blocks[i]? = some rb) (hphi : phi ∈ rb.phis)
    (hv : phi.incoming pred = some v) : pred ∈ f.spelled := by
  obtain ⟨⟨v', l⟩, hfind, -⟩ := Option.map_eq_some_iff.mp hv
  have hl : l = pred := by simpa using List.find?_some hfind
  apply List.mem_append_right
  refine List.mem_flatMap.mpr ⟨rb, List.mem_of_getElem? hb, List.mem_flatMap.mpr ⟨phi, hphi, ?_⟩⟩
  exact List.mem_map.mpr ⟨(v', l), List.mem_of_find?_eq_some hfind, hl⟩

omit [Inhabited V] in
theorem EdgeTo.llvm {passes : Bool} {e : BlockId × List Operand} (hg : f.Guessed) (hn : f.llvmLabels.Nodup)
    (hi : f.parsed[i]? = some b) (hpred : f.llvmLabels[i]? = some pred) (hl : l ∈ f.spelled)
    (hregs : ctx₁.regs = f.nameCtx.regs) (h : EdgeTo f.parsed b.label ctx₁ passes l e) : ∃ t, LlvmEdge f pred passes l e t := by
  obtain ⟨hlabel, tb, htb, rfl⟩ := hg.resolves hl h.block
  obtain ⟨t, ht, heq, -⟩ := hg.parsed_cases htb
  have hphis : tb.phis = t.phis := by rw [heq, RawBlock.toLBlock]
  refine ⟨t, hlabel, ht, fun hp => ?_, h.none⟩
  have hargs := h.args hp
  rw [branchArgs] at hargs
  split at hargs
  · next c hc =>
    obtain rfl := find?_label (hg.nodup hn) htb hc
    rw [phiArgs_regs hregs, hphis] at hargs
    obtain ⟨-, -, -, hcase⟩ := hg.parsed_cases hi
    rcases hcase with hsame | ⟨k, hk⟩
    · obtain rfl := Option.some.inj (hpred.symm.trans hsame)
      exact phiArgs_listed hargs
    · -- a label that was made up is listed by no phi
      cases hp' : t.phis with
      | nil =>
        rw [hp'] at hargs
        have hnil : [] = e.2 := Except.ok.inj hargs
        rw [← hnil]
        exact .nil
      | cons phi phis =>
        rw [hp', phiArgs] at hargs
        cases hv : phi.incoming b.label with
        | none => exact absurd hargs (by simp [hv])
        | some v =>
          have hmem := mem_spelled_pred ht (hp' ▸ List.mem_cons_self ..) hv
          exact absurd (hk ▸ hmem) (hg.auto k)
  · exact absurd hargs (by simp)

/-- A block of the text and its lowered form. -/
structure Block (f : RawFunc V W) (i : Nat) (rb : RawBlock V W) (b : LBlock V W) (m : MBlock V W) (ctx₁ : Ctx) : Prop where
  raw : f.blocks[i]? = some rb
  parsed : f.parsed[i]? = some b
  eq : b = rb.toLBlock b.label
  lowered : Lowered f.parsed f.nameCtx ctx₁ b m

theorem block_of_lowered (hg : f.Guessed) (hlow : f.lower = .ok ms) (hm : ms[i]? = some m) :
    ∃ rb b ctx₁, Block f i rb b m ctx₁ := by
  obtain ⟨b, ctx₁, hb, hl⟩ := (lowerBlocks_lowered hlow).2 m hm
  obtain ⟨rb, hrb, heq, -⟩ := hg.parsed_cases hb
  exact ⟨rb, b, ctx₁, hrb, hb, heq, hl⟩

theorem lowered_of_block (hg : f.Guessed) (hlow : f.lower = .ok ms) (hrb : f.blocks[i]? = some rb) :
    ∃ b m ctx₁, ms[i]? = some m ∧ Block f i rb b m ctx₁ := by
  have hlen : f.parsed.length = f.blocks.length := by
    rw [RawFunc.parsed]
    cases f.blocks with
    | nil => rfl
    | cons b bs => simp [labelBlocks, labelRest_length]
  have hlt : i < f.parsed.length := hlen ▸ (List.getElem?_eq_some_iff.mp hrb).1
  obtain ⟨b, hb⟩ : ∃ b, f.parsed[i]? = some b := ⟨_, List.getElem?_eq_getElem hlt⟩
  obtain ⟨m, ctx₁, hm, hl⟩ := (lowerBlocks_lowered hlow).1 b hb
  obtain ⟨rb', hrb', heq, -⟩ := hg.parsed_cases hb
  obtain rfl := Option.some.inj (hrb.symm.trans hrb')
  exact ⟨b, m, ctx₁, hm, hrb, hb, heq, hl⟩

end

end Llvm

end Csolver
