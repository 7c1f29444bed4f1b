import Csolver.Llvm.ScalarArith

/-!
# Which scalar instructions keep their values

Each instruction is executed from a state that holds LLVM's values, at the declared widths of the registers. It
leaves LLVM's value in its register exactly if its constants are not changed by the width at which they are read,
and its registers are declared at the width of their type where the sign matters.
-/

namespace Csolver

namespace Llvm

section

variable {ctx ctx' : Ctx} {Γ : RegId → Nat} {regs regs' : Regs} {σ : String → Nat} {arith : String → Option CheckedCall}
  {w u d v : Nat} {val a b : LValue} {op x y : Operand}

/-! ## Operands -/

/-- The operand has one value, which its declared width holds. -/
def Is (Γ : RegId → Nat) (regs : Regs) (op : Operand) (c : Nat) : Prop :=
  (∀ x, op.Evals regs x ↔ x = c) ∧ c < 2 ^ op.width Γ

theorem intOperand_is (n : Int) (hu : IntWidth u) :
    ∃ op, (∀ ctx : Ctx, ctx.operand (.int n) u = .ok op) ∧ Is Γ regs op (n % 2 ^ u).toNat ∧ op.width Γ = u := by
  obtain ⟨hlo, hhi⟩ := hu
  have hval : (n % 2 ^ 128).toNat % 2 ^ u = (n % 2 ^ u).toNat := by rw [toNat_emod_pow, emod_pow_of_le hhi]
  have hlt : (n % 2 ^ u).toNat < 2 ^ u := by
    rw [← hval]
    exact Nat.mod_lt _ (Nat.two_pow_pos _)
  refine ⟨.const (.int ⟨u, (n % 2 ^ 128).toNat % 2 ^ u, hlo, hhi, Nat.mod_lt _ (Nat.two_pow_pos _)⟩), fun ctx => ?_,
    ⟨fun x => ?_, hlt⟩, rfl⟩
  · simp only [Ctx.operand, if_neg (Nat.not_lt.mpr hhi), Nat.max_eq_left hlo, Ctx.intOperand, BitVector.new,
      dif_pos (And.intro (Nat.lt_of_succ_le hlo) hhi)]
  · change x = (n % 2 ^ 128).toNat % 2 ^ u ↔ _
    rw [hval]

theorem LValue.Reads.operand (h : val.Reads ctx Γ regs σ w) (hu : IntWidth u) (hop : ctx.operand val u = .ok op) :
    ∃ c, val.intVal σ u = some c ∧ Is Γ regs op c ∧ op.width Γ = val.declared ctx Γ u := by
  cases val with
  | «local» name =>
    obtain ⟨r, hr, hreg, hlt, hw⟩ := h
    have heq : op = .reg r := by
      simp only [Ctx.operand, Ctx.reg, hr] at hop
      exact (Except.ok.inj hop).symm
    subst heq
    refine ⟨σ name, rfl, ⟨fun x => ?_, ?_⟩, by simp [LValue.declared, hr, Operand.width]⟩
    · rw [Operand.Evals, hreg, Option.some_inj, eq_comm]
    · exact Nat.lt_of_lt_of_le hlt (Nat.pow_le_pow_right (by decide) hw)
  | int n =>
    obtain ⟨op', hop', his, hwidth⟩ := intOperand_is n hu
    obtain rfl := Except.ok.inj ((hop' ctx).symm.trans hop)
    exact ⟨_, rfl, his, hwidth⟩
  | _ => exact h.elim

theorem LValue.Reads.intVal (h : val.Reads ctx Γ regs σ w) : ∃ c, val.intVal σ w = some c ∧ c < 2 ^ w := by
  cases val with
  | «local» name =>
    obtain ⟨_, _, _, hlt, _⟩ := h
    exact ⟨σ name, rfl, hlt⟩
  | int n =>
    refine ⟨_, rfl, ?_⟩
    have hlt := Int.emod_lt_of_pos n (by positivity : (0 : Int) < 2 ^ w)
    have hnonneg : 0 ≤ n % 2 ^ w := Int.emod_nonneg _ (by positivity)
    have hcast : ((2 ^ w : Nat) : Int) = 2 ^ w := by push_cast; rfl
    omega
  | _ => exact h.elim

theorem LValue.Reads.le_declared (h : val.Reads ctx Γ regs σ w) : w ≤ val.declared ctx Γ w := by
  cases val with
  | «local» name =>
    obtain ⟨r, hr, _, _, hw⟩ := h
    simpa [LValue.declared, hr] using hw
  | _ => exact le_rfl

/-! ## Instructions -/

theorem evals_iff {rv : RValue} {cs : List Nat} (h : List.Forall₂ (Is Γ regs) rv.operands cs) (c : Nat) :
    rv.Evals Γ regs w c ↔ c = rv.machine w ((rv.operands.map (Operand.width Γ)).zip cs) := by
  rw [RValue.Evals]
  have hzip : List.zipWith (fun v y => (v, y % 2 ^ v)) (rv.operands.map (Operand.width Γ)) cs =
      (rv.operands.map (Operand.width Γ)).zip cs := by
    generalize rv.operands = ops at h
    induction h with
    | nil => rfl
    | cons ho _ ih => rw [List.map_cons, List.zipWith_cons_cons, List.zip_cons_cons, ih, Nat.mod_eq_of_lt ho.2]
  have hone : ∀ xs, List.Forall₂ (Operand.Evals regs) rv.operands xs ↔ xs = cs := by
    clear hzip
    generalize rv.operands = ops at h
    induction h with
    | nil => exact fun xs => ⟨fun h => by cases h; rfl, fun h => h ▸ .nil⟩
    | cons ho _ ih =>
      intro xs
      constructor
      · intro h
        cases h with
        | cons hx hxs => rw [(ho.1 _).mp hx, (ih _).mp hxs]
      · rintro rfl
        exact .cons ((ho.1 _).mpr rfl) ((ih _).mpr rfl)
  simp only [hone, exists_eq_left, hzip]

theorem execs_assign {ty : Ty} {rv : RValue} {c : Nat} (h : ∀ x, rv.Evals Γ regs ty.typeWidth x ↔ x = c) :
    Execs Γ [.assign d ty rv] regs regs' ↔ regs' = regs.set d c := by
  constructor
  · intro hex
    cases hex with
    | cons hi hnil =>
      cases hnil
      cases hi with
      | assign hev => rw [(h _).mp hev]
      | other hne => exact absurd rfl (hne _ _ _)
  · rintro rfl
    exact .cons (.assign ((h _).mpr rfl)) .nil

theorem kept_assign {ty : Ty} {rv : RValue} {c : Nat} (h : ∀ x, rv.Evals Γ regs ty.typeWidth x ↔ x = c) :
    Kept Γ regs [.assign d ty rv] d v ↔ c = v := by
  constructor
  · rintro ⟨-, hall⟩
    have hset := hall _ ((execs_assign h).mpr rfl)
    rw [Regs.set_self] at hset
    exact Option.some.inj hset
  · rintro rfl
    refine ⟨⟨_, (execs_assign h).mpr rfl⟩, fun regs' hex => ?_⟩
    rw [(execs_assign h).mp hex, Regs.set_self]

theorem bin_kept {op : BvOp} {is : List Inst} (hr : (SInst.bin op w a b).Ready ctx Γ regs σ arith)
    (h : lowerScalar arith d (.bin op w a b) ctx = .ok (is, ctx')) (hv : (SInst.bin op w a b).value σ arith = some v) :
    Kept Γ regs is d v := by
  obtain ⟨hw, ha, hb⟩ := hr
  obtain ⟨x, ctx₁, hm, h⟩ := bind_eq_ok h
  obtain ⟨hx, rfl⟩ := operandM_eq_ok hm
  obtain ⟨y, ctx₁, hm, h⟩ := bind_eq_ok h
  obtain ⟨hy, rfl⟩ := operandM_eq_ok hm
  obtain ⟨rfl, rfl⟩ := pure_eq_ok h
  obtain ⟨cx, hcx, hix, -⟩ := ha.operand hw hx
  obtain ⟨cy, hcy, hiy, -⟩ := hb.operand hw hy
  have hval : v = op.eval w cx cy := by
    simp only [SInst.value, hcx, hcy] at hv
    exact (Option.some.inj hv).symm
  rw [kept_assign fun c => evals_iff (.cons hix (.cons hiy .nil)) c]
  exact hval.symm

theorem cmp_same {pred : CmpOp} {cx cy : Nat} (ha : a.Reads ctx Γ regs σ w) (hcx : a.intVal σ w = some cx)
    (hcy : b.intVal σ w = some cy) (hx : cx < 2 ^ w) (hy : cy < 2 ^ w) :
    pred.eval (a.declared ctx Γ w) cx cy = pred.eval w cx cy ↔ CmpOk ctx Γ σ pred w a b := by
  rw [cmp_eq_iff hx hy ha.le_declared, CmpOk]
  simp only [hcx, hcy, Option.some.injEq]
  constructor
  · intro h hs
    refine (h hs).imp_right fun hsame x y hx' hy' => ?_
    subst hx' hy'
    exact hsame
  · exact fun h hs => (h hs).imp_right fun hsame => hsame cx cy rfl rfl

theorem icmp_kept {pred : CmpOp} {is : List Inst} (hr : (SInst.icmp pred w a b).Ready ctx Γ regs σ arith)
    (h : lowerScalar arith d (.icmp pred w a b) ctx = .ok (is, ctx'))
    (hv : (SInst.icmp pred w a b).value σ arith = some v) : Kept Γ regs is d v ↔ CmpOk ctx Γ σ pred w a b := by
  obtain ⟨hw, ha, hb⟩ := hr
  obtain ⟨x, ctx₁, hm, h⟩ := bind_eq_ok h
  obtain ⟨hx, rfl⟩ := operandM_eq_ok hm
  obtain ⟨y, ctx₁, hm, h⟩ := bind_eq_ok h
  obtain ⟨hy, rfl⟩ := operandM_eq_ok hm
  obtain ⟨rfl, rfl⟩ := pure_eq_ok h
  obtain ⟨cx, hcx, hix, hwidth⟩ := ha.operand hw hx
  obtain ⟨cy, hcy, hiy, -⟩ := hb.operand hw hy
  obtain ⟨cx', hcx', hltx⟩ := ha.intVal
  obtain ⟨cy', hcy', hlty⟩ := hb.intVal
  obtain rfl := Option.some.inj (hcx.symm.trans hcx')
  obtain rfl := Option.some.inj (hcy.symm.trans hcy')
  have hval : v = (pred.eval w cx cy).toNat := by
    simp only [SInst.value, hcx, hcy] at hv
    exact (Option.some.inj hv).symm
  rw [kept_assign fun c => evals_iff (.cons hix (.cons hiy .nil)) c, hval, ← cmp_same ha hcx hcy hltx hlty, ← hwidth]
  have hinj (p q : Bool) : p.toNat = q.toNat ↔ p = q := by cases p <;> cases q <;> decide
  exact hinj _ _

theorem cast_kept {op : CastOp} {src : Nat} {is : List Inst} (hr : (SInst.cast op src w val).Ready ctx Γ regs σ arith)
    (h : lowerScalar arith d (.cast op src w val) ctx = .ok (is, ctx'))
    (hv : (SInst.cast op src w val).value σ arith = some v) : Kept Γ regs is d v ↔ CastOk ctx Γ σ op src w val := by
  obtain ⟨hcast, hread⟩ := hr
  obtain ⟨x, ctx₁, hm, h⟩ := bind_eq_ok h
  obtain ⟨hx, rfl⟩ := operandM_eq_ok hm
  obtain ⟨rfl, rfl⟩ := pure_eq_ok h
  obtain ⟨c64, hc64, his, hwidth⟩ := hread.operand ⟨by decide, by decide⟩ hx
  obtain ⟨c, hc, hlt⟩ := hread.intVal
  rw [kept_assign fun c => evals_iff (.cons his .nil) c]
  cases val with
  | «local» name =>
    -- a register is read as it is
    obtain rfl : c64 = c := Option.some.inj (hc64.symm.trans hc)
    obtain ⟨r, hr, -, -, hle⟩ := hread
    have hdecl (k : Nat) : (LValue.local name).declared ctx Γ k = Γ r := by simp [LValue.declared, hr]
    cases op with
    | ptrToInt | intToPtr => exact hcast.elim
    | sext =>
      simp only [SInst.value, hc] at hv
      obtain rfl := Option.some.inj hv
      obtain rfl := Option.some.inj hc
      change signExtend (x.width Γ) w (σ name) = signExtend src w (σ name) ↔ CastOk ctx Γ σ .sext src w (.local name)
      rw [hwidth, hdecl, CastOk, hdecl]
      exact sext_eq_iff hlt hle hcast
    | zext | trunc | bitcast =>
      simp only [SInst.value, hc] at hv
      obtain rfl := Option.some.inj hv
      exact ⟨fun _ => trivial, fun _ => rfl⟩
  | int n =>
    -- a constant is cut to 64 bits first
    obtain rfl := Option.some.inj hc64
    obtain rfl := Option.some.inj hc
    have hlit : Literal src n := hread
    cases op with
    | ptrToInt | intToPtr => exact hcast.elim
    | sext =>
      obtain rfl := Option.some.inj hv
      change signExtend (x.width Γ) w _ = _ ↔ SextOk src n
      rw [hwidth]
      exact lit_sext_iff hlit hcast
    | zext =>
      obtain rfl := Option.some.inj hv
      change (n % 2 ^ 64).toNat % 2 ^ w = (n % 2 ^ src).toNat % 2 ^ w ↔ _
      rw [Nat.mod_eq_of_lt (hlt.trans (Nat.pow_lt_pow_right (by decide) hcast))]
      exact lit_zext_iff hlit hcast
    | trunc =>
      obtain rfl := Option.some.inj hv
      exact lit_trunc_iff (Nat.le_of_lt hcast)
    | bitcast =>
      obtain rfl := Option.some.inj hv
      exact lit_trunc_iff (Nat.le_of_eq (Eq.symm hcast))
  | _ => exact hread.elim

theorem select_kept {cond : LValue} {is : List Inst} (hr : (SInst.select w cond a b).Ready ctx Γ regs σ arith)
    (h : lowerScalar arith d (.select w cond a b) ctx = .ok (is, ctx'))
    (hv : (SInst.select w cond a b).value σ arith = some v) :
    Kept Γ regs is d v ↔ Wide σ w (if cond.intVal σ 1 = some 1 then a else b) := by
  obtain ⟨hc, ha, hb⟩ := hr
  obtain ⟨c, ctx₁, hm, h⟩ := bind_eq_ok h
  obtain ⟨hcop, rfl⟩ := operandM_eq_ok hm
  obtain ⟨x, ctx₁, hm, h⟩ := bind_eq_ok h
  obtain ⟨hx, rfl⟩ := operandM_eq_ok hm
  obtain ⟨y, ctx₁, hm, h⟩ := bind_eq_ok h
  obtain ⟨hy, rfl⟩ := operandM_eq_ok hm
  obtain ⟨rfl, rfl⟩ := pure_eq_ok h
  obtain ⟨cc, hcc, hic, -⟩ := hc.operand ⟨by decide, by decide⟩ hcop
  obtain ⟨cx, hcx, hix, -⟩ := ha.operand ⟨by decide, by decide⟩ hx
  obtain ⟨cy, hcy, hiy, -⟩ := hb.operand ⟨by decide, by decide⟩ hy
  obtain ⟨vx, hvx, -⟩ := ha.intVal
  obtain ⟨vy, hvy, -⟩ := hb.intVal
  have hval : v = if cc = 1 then vx else vy := by
    simp only [SInst.value, hcc, hvx, hvy] at hv
    exact (Option.some.inj hv).symm
  -- what 64 bits keep of the operand that is chosen
  have hwide {u : LValue} {c64 cw : Nat} (hu : u.Reads ctx Γ regs σ w) (h64 : u.intVal σ 64 = some c64)
      (hw : u.intVal σ w = some cw) : c64 % 2 ^ 64 = cw ↔ Wide σ w u := by
    cases u with
    | «local» name =>
      obtain rfl := Option.some.inj h64
      obtain rfl := Option.some.inj hw
      exact Nat.mod_eq_iff_lt (Nat.two_pow_pos 64).ne'
    | int n =>
      obtain rfl := Option.some.inj h64
      obtain rfl := Option.some.inj hw
      rw [toNat_emod_pow, emod_pow_of_le le_rfl]
      exact lit_eq_iff hu
    | _ => exact hu.elim
  rw [kept_assign fun c => evals_iff (.cons hic (.cons hix (.cons hiy .nil))) c, hval, hcc]
  change (if cc = 1 then cx % 2 ^ 64 else cy % 2 ^ 64) = (if cc = 1 then vx else vy) ↔ _
  by_cases hone : cc = 1
  · rw [if_pos hone, if_pos hone, if_pos (congrArg some hone)]
    exact hwide ha hcx hvx
  · rw [if_neg hone, if_neg hone, if_neg fun heq => hone (Option.some.inj heq)]
    exact hwide hb hcy hvy

theorem operand_ne_fresh {n : RegId} (hfits : ctx.Fits n) (hop : ctx.operand val u = .ok op) : op ≠ .reg n := by
  rintro rfl
  cases val with
  | «local» name =>
    simp only [Ctx.operand, Ctx.reg] at hop
    cases hr : ctx.regs name with
    | none => exact absurd hop (by simp [hr, Except.map])
    | some r =>
      rw [hr] at hop
      obtain rfl := Operand.reg.inj (Except.ok.inj hop)
      exact absurd (hfits name r hr) (lt_irrefl _)
  | int n =>
    simp only [Ctx.operand, Ctx.intOperand] at hop
    have heq := Except.ok.inj hop
    split at heq
    · exact absurd heq (by simp)
    · split at heq <;> exact absurd heq (by simp)
  | globalOff name elem index =>
    simp only [Ctx.operand] at hop
    have heq := Except.ok.inj hop
    split at heq
    · split at heq <;> exact absurd heq (by simp)
    · exact absurd heq (by simp)
  | _ => exact absurd (Except.ok.inj hop) (by simp)

theorem Is.set {q : RegId} {z c : Nat} (h : Is Γ regs op c) (hne : op ≠ .reg q) : Is Γ (regs.set q z) op c := by
  refine ⟨fun x => ?_, h.2⟩
  rw [← h.1 x]
  cases op with
  | reg r => rw [Operand.Evals, Operand.Evals, Regs.set_of_ne fun heq => hne (congrArg Operand.reg heq)]
  | const c => cases c <;> rfl

theorem minmax_kept {pred : CmpOp} {is : List Inst} (hfits : ctx.Fits ctx.nextReg) (hΓ : Γ ctx.nextReg = 1)
    (hr : (SInst.minmax pred w a b).Ready ctx Γ regs σ arith)
    (h : lowerScalar arith d (.minmax pred w a b) ctx = .ok (is, ctx'))
    (hv : (SInst.minmax pred w a b).value σ arith = some v) : Kept Γ regs is d v ↔ CmpOk ctx Γ σ pred w a b := by
  obtain ⟨-, hw, ha, hb⟩ := hr
  obtain ⟨q, ctx₁, hm, h⟩ := bind_eq_ok h
  obtain ⟨rfl, rfl⟩ := fresh_eq_ok hm
  obtain ⟨x, ctx₁, hm, h⟩ := bind_eq_ok h
  obtain ⟨hx, rfl⟩ := operandM_eq_ok hm
  obtain ⟨y, ctx₁, hm, h⟩ := bind_eq_ok h
  obtain ⟨hy, rfl⟩ := operandM_eq_ok hm
  obtain ⟨rfl, rfl⟩ := pure_eq_ok h
  have ha' : a.Reads { ctx with nextReg := ctx.nextReg + 1 } Γ regs σ w := ha
  have hb' : b.Reads { ctx with nextReg := ctx.nextReg + 1 } Γ regs σ w := hb
  obtain ⟨cx, hcx, hix, hwidth⟩ := ha'.operand hw hx
  obtain ⟨cy, hcy, hiy, -⟩ := hb'.operand hw hy
  obtain ⟨cx', hcx', hltx⟩ := ha.intVal
  obtain ⟨cy', hcy', hlty⟩ := hb.intVal
  obtain rfl := Option.some.inj (hcx.symm.trans hcx')
  obtain rfl := Option.some.inj (hcy.symm.trans hcy')
  have hval : v = if pred.eval w cx cy then cx else cy := by
    simp only [SInst.value, hcx, hcy] at hv
    exact (Option.some.inj hv).symm
  have hfirst : ∀ z, (RValue.cmp pred x y).Evals Γ regs 1 z ↔ z = (pred.eval (a.declared ctx Γ w) cx cy).toNat := by
    intro z
    rw [evals_iff (.cons hix (.cons hiy .nil)) z]
    change z = (pred.eval (x.width Γ) cx cy).toNat ↔ _
    rw [hwidth]
    rfl
  have hfits' : Ctx.Fits { ctx with nextReg := ctx.nextReg + 1 } ctx.nextReg := hfits
  -- the comparison is in the fresh register, and the operands are still there
  have hsecond {z : Nat} (hz : z = (pred.eval (a.declared ctx Γ w) cx cy).toNat) (c : Nat) :
      (RValue.select (.reg ctx.nextReg) x y).Evals Γ (regs.set ctx.nextReg z) w c ↔
        c = if pred.eval (a.declared ctx Γ w) cx cy then cx else cy := by
    have hreg : Is Γ (regs.set ctx.nextReg z) (.reg ctx.nextReg) z := by
      refine ⟨fun t => ?_, ?_⟩
      · rw [Operand.Evals, Regs.set_self, Option.some_inj, eq_comm]
      · rw [Operand.width, hΓ, hz]
        exact Bool.toNat_lt _
    rw [evals_iff (.cons hreg (.cons (hix.set (operand_ne_fresh hfits' hx))
      (.cons (hiy.set (operand_ne_fresh hfits' hy)) .nil))) c]
    change c = (if z = 1 then cx % 2 ^ w else cy % 2 ^ w) ↔ _
    rw [hz, Nat.mod_eq_of_lt hltx, Nat.mod_eq_of_lt hlty]
    cases pred.eval (a.declared ctx Γ w) cx cy <;> rfl
  have hexecs (regs' : Regs) : Execs Γ [.assign ctx.nextReg (.int 1) (.cmp pred x y),
      .assign d (.int w) (.select (.reg ctx.nextReg) x y)] regs regs' ↔
      regs' = (regs.set ctx.nextReg (pred.eval (a.declared ctx Γ w) cx cy).toNat).set d
        (if pred.eval (a.declared ctx Γ w) cx cy then cx else cy) := by
    constructor
    · intro hex
      cases hex with
      | cons hi hrest =>
        have hone := (execs_assign hfirst).mp (.cons hi .nil)
        subst hone
        exact (execs_assign (hsecond rfl)).mp hrest
    · rintro rfl
      exact .cons (.assign ((hfirst _).mpr rfl)) ((execs_assign (hsecond rfl)).mpr rfl)
  have hkept : Kept Γ regs [.assign ctx.nextReg (.int 1) (.cmp pred x y),
      .assign d (.int w) (.select (.reg ctx.nextReg) x y)] d v ↔
      (if pred.eval (a.declared ctx Γ w) cx cy then cx else cy) = v := by
    constructor
    · rintro ⟨-, hall⟩
      have hset := hall _ ((hexecs _).mpr rfl)
      rw [Regs.set_self] at hset
      exact Option.some.inj hset
    · rintro rfl
      refine ⟨⟨_, (hexecs _).mpr rfl⟩, fun regs' hex => ?_⟩
      rw [(hexecs _).mp hex, Regs.set_self]
  rw [hkept, hval, ← cmp_same ha hcx hcy hltx hlty]
  by_cases heq : cx = cy
  · -- equal operands compare the same at every width
    subst heq
    refine ⟨fun _ => ?_, fun _ => by rw [ite_self, ite_self]⟩
    rw [cmp_eq_iff hltx hltx ha.le_declared]
    exact fun _ => .inr Iff.rfl
  · constructor
    · intro hsame
      cases hp : pred.eval (a.declared ctx Γ w) cx cy <;> cases hq : pred.eval w cx cy <;> simp_all
    · intro hsame
      rw [hsame]

theorem number_emod {k : Nat} (h : val.intVal σ u = some k) : (k : Int) % 2 ^ u = val.number σ % 2 ^ u := by
  cases val with
  | «local» name =>
    obtain rfl := Option.some.inj h
    rfl
  | int n =>
    obtain rfl := Option.some.inj h
    rw [Int.toNat_of_nonneg (Int.emod_nonneg _ (by positivity)), emod_pow_of_le le_rfl]
    rfl
  | _ => exact absurd h (by simp [LValue.intVal])

theorem extract_kept {agg : String} {index : Nat} {is : List Inst}
    (hr : (SInst.extractValue agg index).Ready ctx Γ regs σ arith)
    (h : lowerScalar arith d (.extractValue agg index) ctx = .ok (is, ctx'))
    (hv : (SInst.extractValue agg index).value σ arith = some v) :
    Kept Γ regs is d v ↔ (SInst.extractValue agg index).Holds ctx Γ σ arith := by
  have hzero : index = 0 := by
    by_contra hne
    simp only [SInst.value, if_neg hne] at hv
    exact absurd hv (by simp)
  subst hzero
  cases hc : arith agg with
  | none => exact absurd hv (by simp [SInst.value, hc])
  | some c =>
    obtain ⟨hop, ha, hb⟩ := hr c hc
    simp only [lowerScalar, hc, if_pos] at h
    obtain ⟨x, ctx₁, hm, h⟩ := bind_eq_ok h
    obtain ⟨hx, rfl⟩ := operandM_eq_ok hm
    obtain ⟨y, ctx₁, hm, h⟩ := bind_eq_ok h
    obtain ⟨hy, rfl⟩ := operandM_eq_ok hm
    obtain ⟨rfl, rfl⟩ := pure_eq_ok h
    obtain ⟨cx, hcx, hix, -⟩ := ha.operand ⟨by decide, by decide⟩ hx
    obtain ⟨cy, hcy, hiy, -⟩ := hb.operand ⟨by decide, by decide⟩ hy
    obtain ⟨vx, hvx, -⟩ := ha.intVal
    obtain ⟨vy, hvy, -⟩ := hb.intVal
    have hval : v = c.op.eval c.width vx vy := by
      simp only [SInst.value, if_pos, hc, hvx, hvy] at hv
      exact (Option.some.inj hv).symm
    -- at both widths the operands are the numbers that are written
    have hexact {u cx cy : Nat} (hx : c.a.intVal σ u = some cx) (hy : c.b.intVal σ u = some cy) :
        c.op.eval u cx cy = (exactOp c.op (c.a.number σ) (c.b.number σ) % 2 ^ u).toNat := by
      rw [eval_exactOp hop, exactOp_emod (number_emod hx) (number_emod hy)]
    rw [kept_assign fun k => evals_iff (.cons hix (.cons hiy .nil)) k, hval]
    change c.op.eval 64 cx cy = _ ↔ _
    rw [hexact hcx hcy, hexact hvx hvy, emod_64_iff]
    simp only [SInst.Holds, forall_const, hc, Option.some.injEq]
    exact ⟨fun h c' hc' => hc' ▸ h, fun h => h c rfl⟩

theorem extract_free {agg : String} {index : Nat} {is : List Inst} {z : Nat}
    (h : lowerScalar arith d (.extractValue agg index) ctx = .ok (is, ctx'))
    (hnone : index ≠ 0 ∨ arith agg = none) (hz : z < 2 ^ 64) : ∃ regs', Execs Γ is regs regs' ∧ regs' d = some z := by
  have hval : (if index = 0 then arith agg else none) = none := by
    split
    · next h0 => exact hnone.resolve_left (absurd h0)
    · rfl
  simp only [lowerScalar, hval] at h
  obtain ⟨rfl, rfl⟩ := pure_eq_ok h
  refine ⟨regs.set d z, .cons (.assign ⟨[z], .cons trivial .nil, ?_⟩) .nil, Regs.set_self _ _ _⟩
  change z = z % 2 ^ 64 % 2 ^ 64
  rw [Nat.mod_mod, Nat.mod_eq_of_lt hz]

/-! ## Uses -/

theorem typed_operand (hr : val.Reads ctx Γ regs σ w) (hw : IntWidth w) (hop : ctx.operand val w = .ok op) (c : Nat) :
    op.Evals regs c ↔ val.intVal σ w = some c := by
  obtain ⟨c', hc', his, -⟩ := hr.operand hw hop
  rw [his.1, hc', Option.some_inj, eq_comm]

/-- What the operand of a return or a call has to be: it is read at 64 bits. -/
def WordOk (w : Nat) : LValue → Prop
  | .int n => w = 64 ∨ 0 ≤ n ∧ n < 2 ^ 64
  | _ => True

theorem word_operand (hr : val.Reads ctx Γ regs σ w) (hop : ctx.operand val 64 = .ok op) :
    (∀ c, op.Evals regs c ↔ val.intVal σ w = some c) ↔ WordOk w val := by
  obtain ⟨c64, hc64, his, -⟩ := hr.operand ⟨by decide, by decide⟩ hop
  obtain ⟨cw, hcw, -⟩ := hr.intVal
  have heq : (∀ c, op.Evals regs c ↔ val.intVal σ w = some c) ↔ c64 = cw := by
    simp only [his.1, hcw, Option.some_inj]
    exact ⟨fun h => ((h c64).mp rfl).symm, fun h c => by rw [h, eq_comm]⟩
  rw [heq]
  cases val with
  | «local» name =>
    obtain rfl := Option.some.inj hc64
    obtain rfl := Option.some.inj hcw
    exact ⟨fun _ => trivial, fun _ => rfl⟩
  | int n =>
    obtain rfl := Option.some.inj hc64
    obtain rfl := Option.some.inj hcw
    exact lit_eq_iff hr
  | _ => exact hr.elim

theorem caseConst_value {n : Int} {bv : BitVector} (hw : IntWidth w)
    (h : caseConst (min (max w 1) 128) n = .ok bv) : bv.width = w ∧ bv.value = (n % 2 ^ w).toNat := by
  have hclamp : min (max w 1) 128 = w := by
    have := hw.1
    have := hw.2
    omega
  rw [hclamp, caseConst, BitVector.new, dif_pos (And.intro (Nat.lt_of_succ_le hw.1) hw.2)] at h
  obtain rfl := Except.ok.inj h
  refine ⟨rfl, ?_⟩
  change (n % 2 ^ 128).toNat % 2 ^ w = _
  rw [toNat_emod_pow, emod_pow_of_le hw.2]

theorem alloca_count {ty : LType} {count : LValue} {align : Nat} (hr : count.Reads ctx Γ regs σ w) :
    (∃ elem op al, lowerAlloca d ty count align = .alloc d .stack elem op al ∧
      ∀ c, op.Evals regs c ↔ count.intVal σ w = some c) ↔ count.intVal σ w = some 1 := by
  have hone : ∃ op, (∀ ctx : Ctx, ctx.operand (.int 1) 64 = .ok op) ∧ Is Γ regs op (1 % 2 ^ 64 : Int).toNat ∧
      op.width Γ = 64 := intOperand_is 1 ⟨by decide, by decide⟩
  obtain ⟨op, hop, his, -⟩ := hone
  obtain ⟨c, hc, -⟩ := hr.intVal
  have heq : op = Ctx.intOperand 64 1 := (Except.ok.inj (hop ctx)).symm
  have hval : ∀ k, (Ctx.intOperand 64 1).Evals regs k ↔ k = 1 := heq ▸ his.1
  rw [hc, Option.some_inj]
  constructor
  · rintro ⟨elem, op', al, hal, hall⟩
    obtain rfl : Ctx.intOperand 64 1 = op' := (Inst.alloc.inj hal).2.2.2.1
    exact (Option.some.inj ((hall 1).mp ((hval 1).mpr rfl)))
  · rintro rfl
    refine ⟨_, _, _, rfl, fun k => ?_⟩
    rw [hval, Option.some_inj, eq_comm]

/-! ## All of them -/

end

/-! ### Bytes -/

/-- `%x` and `%y` are bytes, `%t` is their checked sum. -/
def byteCtx : Ctx where
  regs name := if name = "x" then some 0 else if name = "y" then some 1 else none
  nextReg := 3

def byteWidths (r : RegId) : Nat := if r ≤ 1 then 8 else if r = 2 then 64 else 1

def byteRegs (r : RegId) : Option Nat := if r = 0 then some 200 else if r = 1 then some 100 else none

def byteValues (name : String) : Nat := if name = "x" then 200 else 100

def byteSum : String → Option CheckedCall := checkedArithMap [⟨"t", .add, 8, .local "x", .local "y"⟩]

theorem byteX_reads : (LValue.local "x").Reads byteCtx byteWidths byteRegs byteValues 8 :=
  ⟨0, rfl, rfl, by decide, by decide⟩

theorem byteY_reads : (LValue.local "y").Reads byteCtx byteWidths byteRegs byteValues 8 :=
  ⟨1, rfl, rfl, by decide, by decide⟩

theorem byteCtx_fits : byteCtx.Fits byteCtx.nextReg := by
  intro name r h
  simp only [byteCtx] at h ⊢
  split at h
  · exact (Option.some.inj h) ▸ by decide
  · split at h
    · exact (Option.some.inj h) ▸ by decide
    · exact absurd h (by simp)

end Llvm

end Csolver