import Csolver.Cfg.DominatorsSound
import Csolver.Ir.Ssa

/-!
# Checking a function

Strict single assignment, the declared widths and the remaining conditions on well-formed functions can be
computed: the definitions of a register are listed once, and the dominator tree answers whether each is in
front of a use (`Func.check_sound`).
-/

namespace Csolver

open Lib

/-- Single assignment for parameters, the arguments of branches and pointer offsets. -/
structure Func.BlockSsa (f : Func) : Prop where
  arg : ∀ (n : Nat) b, f.blocks[n]? = some b → f.Live n → ∀ e ∈ b.term.edges, ∀ r, .reg r ∈ e.2 →
    ∀ (m : Nat) c k, f.blocks[m]? = some c → c.Writes r k → f.Dominates m n
  param_nodup : ∀ b ∈ f.blocks, (b.params.map (·.1)).Nodup
  param_once : ∀ (n : Nat) b, f.blocks[n]? = some b → ∀ r ∈ b.params.map (·.1),
    ∀ (m : Nat) c k, f.blocks[m]? = some c → c.Writes r k → m = n ∧ k = 0
  offset_use : ∀ (n : Nat) b, f.blocks[n]? = some b → f.Live n → ∀ (j : Nat) dst base index elem,
    b.insts[j]? = some (.ptrOffset dst base index elem) → ∀ r, base = .reg r ∨ index = .reg r →
    ∀ (m : Nat) c k, f.blocks[m]? = some c → c.Writes r k → f.Dominates m n ∧ (m = n → k ≤ j)
  offset_once : ∀ (n : Nat) b (j : Nat) dst base index elem, f.blocks[n]? = some b →
    b.insts[j]? = some (.ptrOffset dst base index elem) →
    ∀ (m : Nat) c k, f.blocks[m]? = some c → c.Writes dst k → m = n ∧ k = j + 1

namespace Func

/-- Where the registers are written: the register, the block and the place in it. -/
def writeSites (f : Func) : List (RegId × Nat × Nat) :=
  f.blocks.zipIdx.flatMap fun p => (p.1.params.map fun q => (q.1, p.2, 0)) ++
    p.1.insts.zipIdx.flatMap fun i => i.1.writes.map fun r => (r, p.2, i.2 + 1)

theorem mem_writeSites {f : Func} {r : RegId} {n k : Nat} {b : BasicBlock} (hb : f.blocks[n]? = some b)
    (h : b.Writes r k) : (r, n, k) ∈ f.writeSites := by
  apply List.mem_flatMap.mpr
  refine ⟨(b, n), List.mem_zipIdx_iff_getElem?.mpr hb, List.mem_append.mpr ?_⟩
  rcases h with ⟨rfl, hr⟩ | ⟨j, i, rfl, hj, hr⟩
  · obtain ⟨q, hq, rfl⟩ := List.mem_map.mp hr
    exact .inl (List.mem_map.mpr ⟨q, hq, rfl⟩)
  · refine .inr (List.mem_flatMap.mpr ⟨(i, j), List.mem_zipIdx_iff_getElem?.mpr hj, ?_⟩)
    exact List.mem_map.mpr ⟨r, hr, rfl⟩

/-- Every definition of the register dominates the use before place `j` of the block at `n`. -/
def useOk (f : Func) (t : IDom) (n j : Nat) : Operand → Bool
  | .reg r => f.writeSites.all fun s => s.1 != r ||
      (Dominators.dominates f.cfg t s.2.1 n == some true && (s.2.1 != n || decide (s.2.2 ≤ j)))
  | .const _ => true

/-- The register is defined at place `k` of the block at `n` and nowhere else. -/
def onceOk (f : Func) (n k : Nat) (r : RegId) : Bool :=
  f.writeSites.all fun s => s.1 != r || (s.2.1 == n && s.2.2 == k)

def instSsa (f : Func) (t : IDom) (n j : Nat) : Inst → Bool
  | .assign dst _ value => f.onceOk n (j + 1) dst && value.operands.all (f.useOk t n j)
  | .ptrOffset dst base index _ => f.onceOk n (j + 1) dst && (f.useOk t n j base && f.useOk t n j index)
  | .asm defs => defs.all (f.onceOk n (j + 1))
  | _ => true

def termSsa (f : Func) (t : IDom) (n j : Nat) (term : Terminator) : Bool :=
  term.edges.all (fun e => e.2.all (f.useOk t n j)) &&
    match term with
    | .condBr c _ _ _ _ => f.useOk t n j c
    | _ => true

def blockSsa (f : Func) (t : IDom) (n : Nat) (b : BasicBlock) : Bool :=
  decide (b.params.map (·.1)).Nodup && (b.params.all fun p => f.onceOk n 0 p.1) &&
    (b.insts.zipIdx.all fun i => f.instSsa t n i.2 i.1) && f.termSsa t n b.insts.length b.term

def ssaCheck (f : Func) : Bool :=
  match Dominators.new f.cfg with
  | some t => f.blocks.zipIdx.all fun p => f.blockSsa t p.2 p.1
  | none => false

section

variable {f : Func} {t : IDom} {n j : Nat} {r : RegId}

theorem onceOk_spec {k : Nat} (h : f.onceOk n k r = true) {m k' : Nat} {c : BasicBlock}
    (hc : f.blocks[m]? = some c) (hw : c.Writes r k') : m = n ∧ k' = k := by
  have hs := List.all_eq_true.mp h _ (mem_writeSites hc hw)
  simpa using hs

theorem useOk_spec (ht : Dominators.new f.cfg = some t) (hn : n < f.blocks.length)
    (h : f.useOk t n j (.reg r) = true) {m k : Nat} {c : BasicBlock} (hc : f.blocks[m]? = some c)
    (hw : c.Writes r k) : f.Dominates m n ∧ (m = n → k ≤ j) := by
  have hs := List.all_eq_true.mp h _ (mem_writeSites hc hw)
  simp only [bne_self_eq_false, Bool.false_or, Bool.and_eq_true, beq_iff_eq, Bool.or_eq_true, bne_iff_ne,
    decide_eq_true_eq] at hs
  obtain ⟨t', ht', hanswers⟩ := Dominators.answers f.cfg
  obtain rfl := Option.some.inj (ht.symm.trans ht')
  have hlen : n < f.cfg.nodeCount := by
    show n < f.succ.length
    rw [succ, List.length_map]
    exact hn
  obtain ⟨r', hr', hiff⟩ := hanswers m n hlen
  rw [hs.1] at hr'
  exact ⟨hiff.mp (Option.some.inj hr').symm, fun hmn => hs.2.resolve_left (not_not_intro hmn)⟩

theorem ssaCheck_sound (h : f.ssaCheck = true) : f.StrictSsa ∧ f.BlockSsa := by
  rw [ssaCheck] at h
  cases ht : Dominators.new f.cfg with
  | none =>
    rw [ht] at h
    exact absurd h (by simp)
  | some t =>
    rw [ht] at h
    have hblock : ∀ (n : Nat) b, f.blocks[n]? = some b → f.blockSsa t n b = true := fun n b hb =>
      List.all_eq_true.mp h (b, n) (List.mem_zipIdx_iff_getElem?.mpr hb)
    have hparts : ∀ (n : Nat) b, f.blocks[n]? = some b → (b.params.map (·.1)).Nodup ∧
        (∀ p ∈ b.params, f.onceOk n 0 p.1 = true) ∧
        (∀ (j : Nat) i, b.insts[j]? = some i → f.instSsa t n j i = true) ∧
        f.termSsa t n b.insts.length b.term = true := by
      intro n b hb
      have hall := hblock n b hb
      simp only [blockSsa, Bool.and_eq_true, decide_eq_true_eq, List.all_eq_true] at hall
      obtain ⟨⟨⟨hnd, hparams⟩, hinsts⟩, hterm⟩ := hall
      exact ⟨hnd, hparams, fun j i hj => hinsts (i, j) (List.mem_zipIdx_iff_getElem?.mpr hj), hterm⟩
    have hlt : ∀ (n : Nat) b, f.blocks[n]? = some b → n < f.blocks.length := fun n b hb =>
      (List.getElem?_eq_some_iff.mp hb).1
    constructor
    · constructor
      · intro n b hb _ j dst ty value hj r hr m c k hc hw
        have hi := (hparts n b hb).2.2.1 j _ hj
        simp only [instSsa, Bool.and_eq_true, List.all_eq_true] at hi
        exact useOk_spec ht (hlt n b hb) (hi.2 _ hr) hc hw
      · intro n b hb _ r tb targs e eargs hterm m c k hc hw
        have ht' := (hparts n b hb).2.2.2
        rw [hterm] at ht'
        simp only [termSsa, Bool.and_eq_true] at ht'
        exact (useOk_spec ht (hlt n b hb) ht'.2 hc hw).1
      · intro n b j dst ty value hb hj m c k hc hw
        have hi := (hparts n b hb).2.2.1 j _ hj
        simp only [instSsa, Bool.and_eq_true] at hi
        exact onceOk_spec hi.1 hc hw
      · intro n b j defs hb hj r hr m c k hc hw
        have hi := (hparts n b hb).2.2.1 j _ hj
        exact onceOk_spec (List.all_eq_true.mp hi r hr) hc hw
    · constructor
      · intro n b hb _ e he r hr m c k hc hw
        have ht' := (hparts n b hb).2.2.2
        simp only [termSsa, Bool.and_eq_true, List.all_eq_true] at ht'
        exact (useOk_spec ht (hlt n b hb) (ht'.1 e he _ hr) hc hw).1
      · intro b hb
        obtain ⟨n, hn⟩ := List.mem_iff_getElem?.mp hb
        exact (hparts n b hn).1
      · intro n b hb r hr m c k hc hw
        obtain ⟨p, hp, rfl⟩ := List.mem_map.mp hr
        exact onceOk_spec ((hparts n b hb).2.1 p hp) hc hw
      · intro n b hb _ j dst base index elem hj r hr m c k hc hw
        have hi := (hparts n b hb).2.2.1 j _ hj
        simp only [instSsa, Bool.and_eq_true] at hi
        rcases hr with rfl | rfl
        · exact useOk_spec ht (hlt n b hb) hi.2.1 hc hw
        · exact useOk_spec ht (hlt n b hb) hi.2.2 hc hw
      · intro n b j dst base index elem hb hj m c k hc hw
        have hi := (hparts n b hb).2.2.1 j _ hj
        simp only [instSsa, Bool.and_eq_true] at hi
        exact onceOk_spec hi.1 hc hw

end

/-! ## The other conditions -/

def instFormed (f : Func) (i : Inst) : Bool :=
  (f.params.all fun p => decide (p.1 ∉ i.writes)) &&
    match i with
    | .asm defs => defs.all fun r => f.blocks.all fun b =>
        decide (r ∉ b.params.map (·.1)) && b.insts.all fun i => i.definedReg != some r
    | _ => true

def formCheck (f : Func) : Bool :=
  decide (f.blocks.map (·.id)).Nodup && decide (f.params.map (·.1)).Nodup &&
    f.blocks.all fun b => b.insts.all f.instFormed

theorem formCheck_sound {f : Func} (h : f.formCheck = true) : f.WellFormed := by
  simp only [formCheck, Bool.and_eq_true, decide_eq_true_eq, List.all_eq_true] at h
  obtain ⟨⟨hids, hparams⟩, hinsts⟩ := h
  refine ⟨hids, hparams, fun p hp b hb i hi => ?_, fun b hb defs hi r hr b' hb' => ?_,
    fun b hb defs hi r hr b' hb' i' hi' => ?_⟩
  · have hok := hinsts b hb i hi
    simp only [instFormed, Bool.and_eq_true, List.all_eq_true, decide_eq_true_eq] at hok
    exact hok.1 p hp
  · have hok := hinsts b hb _ hi
    simp only [instFormed, Bool.and_eq_true, List.all_eq_true, decide_eq_true_eq] at hok
    exact (hok.2 r hr b' hb').1
  · have hok := hinsts b hb _ hi
    simp only [instFormed, Bool.and_eq_true, List.all_eq_true, bne_iff_ne] at hok
    exact (hok.2 r hr b' hb').2 i' hi'

end Func

/-- `RValue.WellTyped` computed. -/
def RValue.typesOk (w : Nat) : RValue → List Nat → Bool
  | use _, [v] => v == w
  | bin _ _ _, [u, v] => u == w && v == w
  | cmp _ _ _, [u, v] => w == 1 && u == v
  | cast .trunc _, [v] => decide (w ≤ v)
  | cast .zext _, [v] => decide (v ≤ w)
  | cast .sext _, [v] => decide (v ≤ w)
  | cast .bitcast _, [v] => v == w
  | cast .ptrToInt _, [_] => true
  | cast .intToPtr _, [_] => true
  | select _ _ _, [c, u, v] => c == 1 && (u == w && v == w)
  | _, _ => false

theorem RValue.typesOk_sound {w : Nat} {rv : RValue} {ws : List Nat} (h : rv.typesOk w ws = true) :
    rv.WellTyped w ws := by
  unfold typesOk at h
  split at h <;> simp_all [WellTyped]

namespace Func

def blockTypes (f : Func) (Γ : RegId → Nat) (b : BasicBlock) : Bool :=
  (b.insts.all fun
    | .assign dst ty value => Γ dst == ty.typeWidth &&
        value.typesOk ty.typeWidth (value.operands.map (Operand.width Γ))
    | .ptrOffset dst base _ _ => Γ dst == 64 && base.width Γ == 64
    | _ => true) &&
  (b.term.edges.all fun e => (f.block e.1).all fun tb =>
    (tb.params.zip e.2).all fun p => p.2.width Γ == Γ p.1.1) &&
  match b.term with
  | .ret (some op) => op.width Γ == f.retTy.typeWidth
  | _ => true

def typeCheck (f : Func) (Γ : RegId → Nat) : Bool :=
  (f.params.all fun p => Γ p.1 == p.2.typeWidth) && f.blocks.all (f.blockTypes Γ)

theorem typeCheck_sound {f : Func} {Γ : RegId → Nat} (h : f.typeCheck Γ = true) : f.WellTyped Γ := by
  simp only [typeCheck, Bool.and_eq_true, List.all_eq_true] at h
  have hblock : ∀ b ∈ f.blocks, _ := fun b hb => by
    have hb' := h.2 b hb
    rw [blockTypes, Bool.and_eq_true, Bool.and_eq_true] at hb'
    exact hb'
  refine ⟨fun p hp => beq_iff_eq.mp (h.1 p hp), fun b hb dst ty value hi => ?_, fun b hb dst base index elem hi => ?_,
    fun b hb e he tb htb p hp => ?_, fun b hb op hterm => ?_⟩
  · have hok := List.all_eq_true.mp (hblock b hb).1.1 _ hi
    simp only [Bool.and_eq_true, beq_iff_eq] at hok
    exact ⟨hok.1, RValue.typesOk_sound hok.2⟩
  · have hok := List.all_eq_true.mp (hblock b hb).1.1 _ hi
    simpa using hok
  · have hok := List.all_eq_true.mp (hblock b hb).1.2 e he
    rw [htb] at hok
    exact beq_iff_eq.mp (List.all_eq_true.mp hok p hp)
  · have hok := (hblock b hb).2
    rw [hterm] at hok
    exact beq_iff_eq.mp hok

def check (f : Func) (Γ : RegId → Nat) : Bool := f.formCheck && (f.ssaCheck && f.typeCheck Γ)

/-- **A function that passes the checks** is well formed, in strict SSA and well typed. -/
theorem check_sound {f : Func} {Γ : RegId → Nat} (h : f.check Γ = true) :
    f.WellFormed ∧ f.StrictSsa ∧ f.BlockSsa ∧ f.WellTyped Γ := by
  simp only [check, Bool.and_eq_true] at h
  obtain ⟨hform, hssa, htypes⟩ := h
  obtain ⟨hstrict, hblk⟩ := ssaCheck_sound hssa
  exact ⟨formCheck_sound hform, hstrict, hblk, typeCheck_sound htypes⟩

end Func

end Csolver
