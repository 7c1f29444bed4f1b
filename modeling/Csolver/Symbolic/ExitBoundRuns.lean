import Csolver.Absint.InductionExit
import Csolver.Symbolic.ExitBound

/-!
# Equality-exit bounds are loop invariants

The gate puts the start and the bound on one grid, so the register walks it until it meets the bound, which
is when the test leaves the loop: the facts hold at every visit, where the numbers are what the comparisons
say.
-/

namespace Csolver

open Lib

namespace ExitBound

variable {ρ : Valuation}

/-! ## Runs of a counting loop -/

open Induction Func

theorem pure_apply {σ α : Type} (a : α) (s : σ) : (pure a : StateM σ α) s = (a, s) := rfl

variable {f : Func} {Γ : RegId → Nat} {addr : String → Nat}

theorem loops_resolve : (f.resolve addr).loops = f.loops := by rw [loops, loops, cfg_resolve]

theorem ids_resolve : (f.resolve addr).blocks.map (·.id) = f.blocks.map (·.id) := by
  rw [Func.resolve, List.map_map]
  rfl

theorem asm_resolve {l : Loop} (v : IndVar) (hasm : ∀ r, v.bound = .reg r → ¬ AsmWrites (f.resolve addr) l r) :
    ∀ r, (v.resolve addr).bound = .reg r → ¬ AsmWrites (f.resolve addr) l r := by
  intro r hr
  apply hasm r
  rw [IndVar.bound_resolve] at hr
  cases hbd : v.bound with
  | reg r' =>
    rw [hbd, Operand.resolve] at hr
    exact hr
  | const c =>
    rw [hbd] at hr
    exact absurd hr (by simp [Operand.resolve])

theorem step_of_lt {w x b : Nat} {stride : Int} (hpos : 0 < stride) (hle : x + stride.toNat ≤ b) (hb : b < 2 ^ w) :
    ((x + stride) % 2 ^ w).toNat = x + stride.toNat := by
  have hcast : (x : Int) + stride = ((x + stride.toNat : Nat) : Int) := by omega
  rw [hcast, Int.emod_eq_of_lt (by omega) (by exact_mod_cast lt_of_le_of_lt hle hb), Int.toNat_natCast]

/-- **Every visit of a counting loop** finds the register on the grid between its start and the bound. -/
theorem counter_onGrid (hwf : (f.resolve addr).WellFormed) (hssa : (f.resolve addr).StrictSsa)
    (hblk : (f.resolve addr).BlockSsa) (hty : (f.resolve addr).WellTyped Γ) {loops : List Loop}
    (hloops : f.loops = some loops) {l : Loop} (hl : l ∈ loops) {iv : EqExitIndVar}
    (hrec : recognizeInt f l = some iv) (hasm : ∀ r, iv.bound = .reg r → ¬ AsmWrites (f.resolve addr) l r)
    {args : List Nat} {p q : Point} (hp : (f.resolve addr).Reaches Γ args p) {s b : Nat}
    (hs : p.regs iv.reg = some s) (hbound : ∀ z, (iv.bound.resolve addr).Evals p.regs z → z = b)
    (hb : b < 2 ^ Γ iv.reg) (hpos : 0 < iv.stride) (hsb : s ≤ b) (hdvd : iv.stride.toNat ∣ b - s)
    (hq : Relation.ReflTransGen ((f.resolve addr).Lap Γ l) p q) :
    (f.resolve addr).Reaches Γ args q ∧ (∀ z, (iv.bound.resolve addr).Evals q.regs z → z = b) ∧
      ∃ x, q.regs iv.reg = some x ∧ OnGrid iv.stride.toNat s b x := by
  have hids : (f.blocks.map (·.id)).Nodup := by
    rw [← ids_resolve (f := f)]
    exact hwf.ids
  have hloops' : (f.resolve addr).loops = some loops := loops_resolve.trans hloops
  obtain ⟨header, latch, pos, nv, i, lhs, rhs, h⟩ := recognises_spec (v := .int iv) hids hrec
  have hres := h.resolve addr
  have hasm' := asm_resolve (.int iv) hasm
  induction hq with
  | refl => exact ⟨hp, hbound, s, hs, OnGrid.start hsb hdvd⟩
  | @tail q q' _ hlap ih =>
    obtain ⟨hreach, hbq, x, hx, hgrid⟩ := ih
    have hbq' : ∀ z, (IndVar.resolve addr (.int iv)).bound.Evals q.regs z → z = b := hbq
    obtain ⟨x₁, x', hx₁, hx', rfl, hne⟩ := recognised_round hwf hssa hblk hty hloops' hl hres hasm' hreach
      hlap hbq'
    obtain rfl : x = x₁ := Option.some.inj (hx.symm.trans hx₁)
    have hxb : x ≠ b := by
      rintro rfl
      exact hne rfl
    obtain ⟨t, ht, hdet⟩ := Option.bind_eq_some_iff.mp hloops'
    obtain ⟨hfilled, -⟩ := Loops.detect_loop ht hdet hl
    refine ⟨hlap.reaches hreach, fun z hz => hbq z ?_, _, hx', ?_⟩
    · exact (bound_keeps hwf hfilled hres.kept hasm' hreach hlap z).mp hz
    · show OnGrid _ _ _ ((x + iv.stride) % 2 ^ Γ iv.reg).toNat
      rw [step_of_lt hpos (hgrid.le_of_ne hxb) hb]
      exact hgrid.step hxb

/-- A bound whose register has no value is captured as a fresh unknown, about which nothing is proved. -/
theorem gate_unknown {iv : EqExitIndVar} {pre st : PathState} {ex : Explorer} {start bound : Expr} {gate : List Expr}
    (hcap : (captureInt iv pre ex).1 = some (start, bound)) (hpre : pre.Ok ex.fresh) {r : RegId}
    (hr : iv.bound = .reg r) (hnone : pre.env r = none)
    (hfree : ∀ c ∈ st.pathcond ++ st.facts, ∀ p ∈ c.symbolsOf, p.1 ≠ freshName ex.fresh)
    (hw : IntWidths start bound) (hs : start.eval ρ < 2 ^ start.width)
    (hdesc : ∀ c ∈ st.pathcond ++ st.facts, c.Holds ρ) (pr : Prover)
    (hgate : intGate start bound iv.stride = some gate) : pr.proveAll st gate = false := by
  cases hprove : pr.proveAll st gate with
  | false => rfl
  | true =>
    exfalso
    have henv : ∃ e, pre.env iv.reg = some (.scalar e) ∧ e = start ∧ Expr.sym (freshName ex.fresh) ptrWidth = bound := by
      rcases henv : pre.env iv.reg with _ | e | q
      · simp [captureInt, henv, pure_apply] at hcap
      · refine ⟨e, rfl, ?_⟩
        simpa [captureInt, henv, evalScalar, evalValue, hr, hnone, freshScalar, scalarize, bind, StateT.bind, pure_apply] using hcap
      · simp [captureInt, henv, pure_apply] at hcap
    obtain ⟨e, henv, rfl, rfl⟩ := henv
    -- give the unknown the least value
    have hdesc' : ∀ c ∈ st.pathcond ++ st.facts, c.Holds (ρ.setFresh ex.fresh (2 ^ 63)) := by
      intro c hc
      have hsame : c.eval (ρ.setFresh ex.fresh (2 ^ 63)) = c.eval ρ :=
        Expr.eval_congr c fun p hp => if_neg (hfree c hc p hp)
      exact hsame.trans (hdesc c hc)
    have hstart : e.eval ρ = e.eval (ρ.setFresh ex.fresh (2 ^ 63)) :=
      (hpre iv.reg _ henv : e.Below ex.fresh).eval_eq (Valuation.agree_setFresh le_rfl ρ _)
    have hall : ∀ g ∈ gate, g.Holds (ρ.setFresh ex.fresh (2 ^ 63)) := fun g hg =>
      pr.sound _ g (List.all_eq_true.mp hprove g hg) _ hdesc'
    have hmax := (intGate_spec hgate hall hw (hstart ▸ hs) (by
      rw [eval_setFresh_self]
      exact Nat.mod_lt _ (Nat.two_pow_pos _))).2.2.2.1
    rw [eval_setFresh_self] at hmax
    exact absurd hmax (by decide)

/-- A counter is captured from the state `pre` that describes the registers at `p`, where the run enters the
    loop; `st` is the state that is proved from. What an assembly writes has no value in `pre`. -/
structure CounterEntry (f : Func) (addr : String → Nat) (Γ : RegId → Nat) (l : Loop) (iv : EqExitIndVar)
    (pre : PathState) (ex : Explorer) (start bound : Expr) (st : PathState) (ρ : Valuation) (args : List Nat)
    (p : Point) : Prop where
  recognised : recognizeInt f l = some iv
  captured : (captureInt iv pre ex).1 = some (start, bound)
  below : pre.Ok ex.fresh
  asm : ∀ r, AsmWrites (f.resolve addr) l r → pre.env r = none
  fresh : ∀ c ∈ st.pathcond ++ st.facts, ∀ q ∈ c.symbolsOf, q.1 = freshName ex.fresh →
    ∀ r, iv.bound = .reg r → pre.env r ≠ none
  desc : ∀ c ∈ st.pathcond ++ st.facts, c.Holds ρ
  reaches : (f.resolve addr).Reaches Γ args p
  counter : p.regs iv.reg = some (start.eval ρ) ∧ start.eval ρ < 2 ^ start.width
  limit : (∀ z, (iv.bound.resolve addr).Evals p.regs z → z = bound.eval ρ) ∧ bound.eval ρ < 2 ^ bound.width
  fits : bound.eval ρ < 2 ^ Γ iv.reg

/-- **The bound of a counter is a loop invariant**: the facts that `assert_eq_exit_bound` adds at the header
    hold at every visit. -/
theorem eqExitBound_invariant (hwf : (f.resolve addr).WellFormed) (hssa : (f.resolve addr).StrictSsa)
    (hblk : (f.resolve addr).BlockSsa) (hty : (f.resolve addr).WellTyped Γ) {loops : List Loop}
    (hloops : f.loops = some loops) {l : Loop} (hl : l ∈ loops) {iv : EqExitIndVar} {pre st : PathState}
    {ex : Explorer} {start bound : Expr} {args : List Nat} {p : Point}
    (he : CounterEntry f addr Γ l iv pre ex start bound st ρ args p) (hw : IntWidths start bound) (pr : Prover)
    {v : Expr} (hv : v.width = 64) {q : Point} (hq : Relation.ReflTransGen ((f.resolve addr).Lap Γ l) p q) {x : Nat}
    (hx : q.regs iv.reg = some x) {ρ' : Valuation} (hs' : start.eval ρ' = start.eval ρ)
    (hb' : bound.eval ρ' = bound.eval ρ) (hv' : v.eval ρ' = x) :
    ∀ c ∈ (assertEqExitBound pr st v start bound iv.stride).facts, c ∈ st.facts ∨ c.Holds ρ' := by
  obtain ⟨hs, hsw⟩ := he.counter
  obtain ⟨hbound, hbw⟩ := he.limit
  intro c hc
  unfold assertEqExitBound at hc
  cases hgate : intGate start bound iv.stride with
  | none =>
    rw [hgate] at hc
    exact .inl hc
  | some gate =>
    rw [hgate] at hc
    simp only at hc
    split at hc
    · rename_i hprove
      have hknown : ∀ r, iv.bound = .reg r → ¬ AsmWrites (f.resolve addr) l r := by
        intro r hr hwrites
        have hnone := he.asm r hwrites
        have hfree : ∀ c ∈ st.pathcond ++ st.facts, ∀ q ∈ c.symbolsOf, q.1 ≠ freshName ex.fresh :=
          fun c hc q hq hname => he.fresh c hc q hq hname r hr hnone
        rw [gate_unknown he.captured he.below hr hnone hfree hw hsw he.desc pr hgate] at hprove
        exact absurd hprove (by simp)
      have hall : ∀ g ∈ gate, g.Holds ρ := fun g hg => pr.sound _ g (List.all_eq_true.mp hprove g hg) ρ he.desc
      obtain ⟨hpos, hsb, hdvd, hmax, hneg⟩ := intGate_spec hgate hall hw hsw hbw
      obtain ⟨-, -, y, hy, hgrid⟩ := counter_onGrid hwf hssa hblk hty hloops hl he.recognised hknown he.reaches hs
        hbound he.fits hpos hsb hdvd hq
      obtain rfl : y = x := Option.some.inj (hy.symm.trans hx)
      rcases List.mem_append.mp hc with hc | hc
      · exact .inl hc
      · right
        rw [← hs'] at hsw hneg hgrid
        rw [← hb'] at hbw hmax hneg hgrid
        exact intFacts_hold hw hsw hbw hmax hneg hv (hv' ▸ hgrid.lo) (hv' ▸ hgrid.hi) c hc
    · exact .inl hc

/-! ## Runs of a pointer walk -/

theorem capturePtr_spec {iv : PtrIndVar} {pre : PathState} {ex : Explorer} {cap : PtrIndCapture}
    (h : (capturePtr iv pre ex).1 = some cap) :
    captureStride iv = some cap.strideBytes ∧ cap.bottomTest = iv.bottomTest ∧ cap.reg = iv.reg ∧
      ∀ r, iv.endPtr = .reg r → pre.env r ≠ none := by
  rcases henv : pre.env iv.reg with _ | e | ⟨_ | region | _ | _, b0, align, borrow⟩
  · simp [capturePtr, henv, pure_apply] at h
  · simp [capturePtr, henv, pure_apply] at h
  · simp [capturePtr, henv, pure_apply] at h
  · cases hreg : pre.regions[region]? with
    | none => simp [capturePtr, henv, hreg, pure_apply] at h
    | some r =>
      rcases hval : evalValue iv.endPtr pre ex with ⟨e | ⟨_ | endRegion | _ | _, endOff, _, _⟩, ex'⟩
      · simp [capturePtr, henv, hreg, hval, bind, StateT.bind, pure_apply] at h
      · simp [capturePtr, henv, hreg, hval, bind, StateT.bind, pure_apply] at h
      · simp only [capturePtr, henv, hreg, bind, StateT.bind, hval] at h
        split at h
        · have hmap : (captureStride iv).map _ = some cap := h
          obtain ⟨stride, hstride, rfl⟩ := Option.map_eq_some_iff.mp hmap
          refine ⟨hstride, rfl, rfl, fun q hq hnone => ?_⟩
          rw [hq] at hval
          simp only [evalValue, hnone, freshScalar] at hval
          exact absurd (congrArg Prod.fst hval) (by simp)
        · exact absurd h (by simp [pure_apply])
      · simp [capturePtr, henv, hreg, hval, bind, StateT.bind, pure_apply] at h
      · simp [capturePtr, henv, hreg, hval, bind, StateT.bind, pure_apply] at h
  · simp [capturePtr, henv, pure_apply] at h
  · simp [capturePtr, henv, pure_apply] at h

/-- The bytes a round moves the pointer by: the captured stride, or none for an element without size. -/
theorem captureStride_spec {iv : PtrIndVar} {stride : Nat} (h : captureStride iv = some stride)
    (hpos : 0 < iv.strideElems) :
    0 < stride ∧ ((IndVar.ptr iv).stride = stride ∨ (IndVar.ptr iv).stride = 0) := by
  unfold captureStride at h
  split at h
  · have hs := eq_of_checkedU64 h
    obtain ⟨n, hn⟩ : ∃ n : Nat, iv.strideElems = n := ⟨iv.strideElems.toNat, by omega⟩
    have hn0 : 0 < n := by omega
    rw [IndVar.stride, hn]
    rw [hn, Int.toNat_natCast] at hs
    generalize (iv.elem.strideBytes .lp64).getD 1 = bytes at hs ⊢
    cases bytes with
    | zero =>
      refine ⟨?_, .inr (by simp)⟩
      rw [hs, Nat.zero_max, Nat.mul_one]
      exact hn0
    | succ size =>
      rw [Nat.max_eq_left (Nat.succ_pos size)] at hs
      refine ⟨?_, .inl ?_⟩
      · rw [hs]
        exact Nat.mul_pos hn0 (Nat.succ_pos size)
      · rw [hs]
        push_cast
        rfl
  · exact absurd h (by simp)

theorem recognised_ptr_width (hids : (f.blocks.map (·.id)).Nodup) (hty : f.WellTyped Γ) {l : Loop} {v : PtrIndVar}
    {header : BasicBlock} {latch pos : Nat} {nv : RegId} {i : Inst} {lhs rhs : Operand}
    (h : Recognised f l (.ptr v) header latch pos nv i lhs rhs) : Γ v.reg = 64 := by
  obtain ⟨n, -, b, hb, j, hj, -⟩ := firstDef_spec hids h.defined
  obtain ⟨dst, k, rfl, -⟩ := ptrStepOf_eq h.step.2
  exact (hty.ptrOffset b (List.mem_of_getElem? hb) dst _ _ v.elem (List.mem_of_getElem? hj)).2

theorem moved {B o stride : Nat} : (((((B + o) % 2 ^ 64 : Nat) : Int) + (stride : Int)) % 2 ^ 64).toNat =
    (B + (o + stride)) % 2 ^ 64 := by
  rw [← Nat.add_assoc]
  omega

theorem unmoved {B o : Nat} : (((((B + o) % 2 ^ 64 : Nat) : Int) + 0) % 2 ^ 64).toNat = (B + o) % 2 ^ 64 := by
  omega

/-- **Every visit of a pointer walk** finds the tested offset, `A` bytes ahead, on the grid. -/
theorem walk_onGrid (hwf : (f.resolve addr).WellFormed) (hssa : (f.resolve addr).StrictSsa)
    (hblk : (f.resolve addr).BlockSsa) (hty : (f.resolve addr).WellTyped Γ) {loops : List Loop}
    (hloops : f.loops = some loops) {l : Loop} (hl : l ∈ loops) {iv : PtrIndVar}
    (hrec : Recognises f l (.ptr iv)) (hasm : ∀ r, iv.endPtr = .reg r → ¬ AsmWrites (f.resolve addr) l r)
    {args : List Nat} {p q : Point} (hp : (f.resolve addr).Reaches Γ args p) {B o₀ e S A : Nat}
    (hs : p.regs iv.reg = some ((B + o₀) % 2 ^ 64))
    (hbound : ∀ z, (iv.endPtr.resolve addr).Evals p.regs z → z = (B + e) % 2 ^ 64)
    (hS : (IndVar.ptr iv).stride = S ∨ (IndVar.ptr iv).stride = 0) (hA : A = if iv.bottomTest then S else 0)
    (hstart : OnGrid S (o₀ + A) e (o₀ + A))
    (hq : Relation.ReflTransGen ((f.resolve addr).Lap Γ l) p q) :
    (f.resolve addr).Reaches Γ args q ∧ (∀ z, (iv.endPtr.resolve addr).Evals q.regs z → z = (B + e) % 2 ^ 64) ∧
      ∃ o, q.regs iv.reg = some ((B + o) % 2 ^ 64) ∧ OnGrid S (o₀ + A) e (o + A) := by
  have hids : (f.blocks.map (·.id)).Nodup := by
    rw [← ids_resolve (f := f)]
    exact hwf.ids
  have hloops' : (f.resolve addr).loops = some loops := loops_resolve.trans hloops
  obtain ⟨header, latch, pos, nv, i, lhs, rhs, h⟩ := recognises_spec (v := .ptr iv) hids hrec
  have hres := h.resolve addr
  have hasm' := asm_resolve (.ptr iv) hasm
  have hΓ : Γ iv.reg = 64 := by
    have hptr : Recognised (f.resolve addr) l (.ptr { iv with endPtr := iv.endPtr.resolve addr }) (header.resolve addr)
      latch pos nv (i.resolve addr) (lhs.resolve addr) (rhs.resolve addr) := hres
    have hwidth := recognised_ptr_width hwf.ids hty hptr
    exact hwidth
  induction hq with
  | refl => exact ⟨hp, hbound, o₀, hs, hstart⟩
  | @tail q q' _ hlap ih =>
    obtain ⟨hreach, hbq, o, hx, hgrid⟩ := ih
    have hbq' : ∀ z, (IndVar.resolve addr (.ptr iv)).bound.Evals q.regs z → z = (B + e) % 2 ^ 64 := hbq
    obtain ⟨x, x', hx₁, hx', hnext, hne⟩ := recognised_round hwf hssa hblk hty hloops' hl hres hasm' hreach
      hlap hbq'
    obtain rfl : (B + o) % 2 ^ 64 = x := Option.some.inj (hx.symm.trans hx₁)
    have hnext : x' = ((((B + o) % 2 ^ 64 : Nat) + (IndVar.ptr iv).stride) % 2 ^ Γ iv.reg).toNat := hnext
    have hne : (if iv.bottomTest then x' else (B + o) % 2 ^ 64) % 2 ^ Γ iv.reg ≠
      (B + e) % 2 ^ 64 % 2 ^ Γ iv.reg := hne
    have hx' : q'.regs iv.reg = some x' := hx'
    rw [hΓ] at hnext hne
    obtain ⟨t, ht, hdet⟩ := Option.bind_eq_some_iff.mp hloops'
    obtain ⟨hfilled, -⟩ := Loops.detect_loop ht hdet hl
    have hkeep : ∀ z, (iv.endPtr.resolve addr).Evals q'.regs z → z = (B + e) % 2 ^ 64 := fun z hz =>
      hbq z ((bound_keeps hwf hfilled hres.kept hasm' hreach hlap z).mp hz)
    refine ⟨hlap.reaches hreach, hkeep, ?_⟩
    rcases hS with hS | hS
    · rw [hS, moved] at hnext
      subst hnext
      refine ⟨o + S, hx', ?_⟩
      have hplace : o + A ≠ e := by
        rintro rfl
        apply hne
        rw [hA]
        split <;> rfl
      rw [Nat.add_right_comm]
      exact hgrid.step hplace
    · rw [hS, unmoved] at hnext
      exact ⟨o, hnext ▸ hx', hgrid⟩

/-- A walk is captured from the state `pre` that describes the registers at `p`, with its region at the
    address `B`; the facts of `st` include the region's premise. -/
structure WalkEntry (f : Func) (addr : String → Nat) (Γ : RegId → Nat) (l : Loop) (iv : PtrIndVar)
    (pre : PathState) (ex : Explorer) (cap : PtrIndCapture) (st : PathState) (nowrap : Option Expr) (ρ : Valuation)
    (B : Nat) (args : List Nat) (p : Point) : Prop where
  recognised : Recognises f l (.ptr iv)
  captured : (capturePtr iv pre ex).1 = some cap
  asm : ∀ r, AsmWrites (f.resolve addr) l r → pre.env r = none
  desc : ∀ c ∈ st.pathcond ++ (st.facts ++ nowrap.toList), c.Holds ρ
  wide : Captured64 cap ρ
  reaches : (f.resolve addr).Reaches Γ args p
  pointer : p.regs iv.reg = some ((B + cap.b0.eval ρ) % 2 ^ 64)
  limit : ∀ z, (iv.endPtr.resolve addr).Evals p.regs z → z = (B + cap.endOff.eval ρ) % 2 ^ 64

theorem ptrStep_pos (hids : (f.blocks.map (·.id)).Nodup) {l : Loop} {iv : PtrIndVar}
    (h : Recognises f l (.ptr iv)) : 0 < iv.strideElems := by
  obtain ⟨header, latch, pos, nv, i, lhs, rhs, h⟩ := recognises_spec (v := .ptr iv) hids h
  exact h.step.1

/-- **The bound of a pointer walk is a loop invariant**: the facts that `assert_ptr_walk_bound` adds about
    the fresh offset hold at every visit, with the offset that the pointer has. -/
theorem ptrWalkBound_invariant (hwf : (f.resolve addr).WellFormed) (hssa : (f.resolve addr).StrictSsa)
    (hblk : (f.resolve addr).BlockSsa) (hty : (f.resolve addr).WellTyped Γ) {loops : List Loop}
    (hloops : f.loops = some loops) {l : Loop} (hl : l ∈ loops) {iv : PtrIndVar} {pre st : PathState}
    {nowrap : Option Expr} {ex : Explorer} {cap : PtrIndCapture} {B : Nat} {args : List Nat} {p : Point}
    (he : WalkEntry f addr Γ l iv pre ex cap st nowrap ρ B args p) (hwrap : cap.b0.eval ρ + ahead cap < 2 ^ 63)
    (pr : Prover) {q : Point} (hq : Relation.ReflTransGen ((f.resolve addr).Lap Γ l) p q) {x : Nat}
    (hx : q.regs iv.reg = some x) {ρ' : Valuation} (hcap' : cap.b0.eval ρ' = cap.b0.eval ρ ∧
      cap.endOff.eval ρ' = cap.endOff.eval ρ ∧ cap.size.eval ρ' = cap.size.eval ρ) {ex' : Explorer}
    (ho : (Expr.sym (freshName ex'.fresh) ptrWidth).eval ρ' < 2 ^ 64 ∧
      (B + (Expr.sym (freshName ex'.fresh) ptrWidth).eval ρ') % 2 ^ 64 = x) :
    ∀ c ∈ (assertPtrWalkBound pr nowrap st cap ex').1.facts, c ∈ st.facts ∨ c.Holds ρ' := by
  have hids : (f.blocks.map (·.id)).Nodup := by
    rw [← ids_resolve (f := f)]
    exact hwf.ids
  obtain ⟨hS, hbot, -, hknown⟩ := capturePtr_spec he.captured
  obtain ⟨hSpos, hstride⟩ := captureStride_spec hS (ptrStep_pos hids he.recognised)
  intro c hc
  unfold assertPtrWalkBound at hc
  split at hc
  · exact .inl hc
  · rename_i hpow
    split at hc
    · rename_i hprove
      obtain ⟨k, hk⟩ := isPowerOfTwo_spec (by simpa [hSpos.ne'] using hpow)
      have hall : ∀ g ∈ ptrGate cap, g.Holds ρ := fun g hg =>
        pr.sound _ g (List.all_eq_true.mp hprove g hg) ρ he.desc
      obtain ⟨hle, hend, hsize, hdvd⟩ := ptrGate_spec hall he.wide hk hwrap
      have hasm : ∀ r, iv.endPtr = .reg r → ¬ AsmWrites (f.resolve addr) l r := fun r hr hwrites =>
        hknown r hr (he.asm r hwrites)
      have hahead : ahead cap = if iv.bottomTest then cap.strideBytes else 0 := by rw [ahead, hbot]
      obtain ⟨-, -, o, hplace, hgrid⟩ := walk_onGrid hwf hssa hblk hty hloops hl he.recognised hasm he.reaches
        he.pointer he.limit hstride hahead (OnGrid.start hle hdvd) hq
      have hplace := Option.some.inj (hplace.symm.trans hx)
      rcases List.mem_append.mp hc with hc | hc
      · exact .inl hc
      · right
        obtain ⟨hb0, hend', hsize'⟩ := hcap'
        have hwide : Captured64 cap ρ' := by
          refine ⟨⟨he.wide.b0.1, ?_⟩, ⟨he.wide.endOff.1, ?_⟩, ⟨he.wide.size.1, ?_⟩⟩
          · rw [hb0]
            exact he.wide.b0.2
          · rw [hend']
            exact he.wide.endOff.2
          · rw [hsize']
            exact he.wide.size.2
        -- an offset is determined by the place
        have hoff : (Expr.sym (freshName ex'.fresh) ptrWidth).eval ρ' = o := by
          have hhi := hgrid.hi
          omega
        rw [← hoff, ← hb0, ← hend'] at hgrid
        rw [← hend', ← hsize'] at hend
        rw [← hsize'] at hsize
        rw [← hend', ← hb0] at hdvd
        exact ptrFacts_hold hwide rfl ho.1 hk hend hsize hdvd hgrid c hc
    · exact .inl hc

/-! ## Both forms -/

/-- The facts about a counter, at every visit: `v` stands for the register there. -/
def CounterHolds (f : Func) (Γ : RegId → Nat) (l : Loop) (pr : Prover) (iv : EqExitIndVar) (st : PathState)
    (start bound : Expr) (ρ : Valuation) (p : Point) : Prop :=
  ∀ v : Expr, v.width = 64 → ∀ q, Relation.ReflTransGen (f.Lap Γ l) p q → ∀ x, q.regs iv.reg = some x →
    ∀ ρ' : Valuation, start.eval ρ' = start.eval ρ → bound.eval ρ' = bound.eval ρ → v.eval ρ' = x →
      ∀ c ∈ (assertEqExitBound pr st v start bound iv.stride).facts, c ∈ st.facts ∨ c.Holds ρ'

/-- The facts about a walk, at every visit: the fresh unknown stands for the pointer's offset there. -/
def WalkHolds (f : Func) (Γ : RegId → Nat) (l : Loop) (pr : Prover) (iv : PtrIndVar) (nowrap : Option Expr)
    (st : PathState) (cap : PtrIndCapture) (ρ : Valuation) (B : Nat) (p : Point) : Prop :=
  ∀ ex' q, Relation.ReflTransGen (f.Lap Γ l) p q → ∀ x, q.regs iv.reg = some x → ∀ ρ' : Valuation,
    cap.b0.eval ρ' = cap.b0.eval ρ ∧ cap.endOff.eval ρ' = cap.endOff.eval ρ ∧ cap.size.eval ρ' = cap.size.eval ρ →
      (Expr.sym (freshName ex'.fresh) ptrWidth).eval ρ' < 2 ^ 64 ∧
        (B + (Expr.sym (freshName ex'.fresh) ptrWidth).eval ρ') % 2 ^ 64 = x →
          ∀ c ∈ (assertPtrWalkBound pr nowrap st cap ex').1.facts, c ∈ st.facts ∨ c.Holds ρ'

def maxI8 : BitVector := ⟨8, 127, BitVector.pos8, BitVector.le8, BitVector.maxI8_lt8⟩

def boundI64 : BitVector := ⟨64, 383, BitVector.pos64, BitVector.le64, by decide⟩

/-- From a widened byte up to `bound`. -/
abbrev countTo (init bound : BitVector) : Func := asmLoop init (.const (.int bound))

def countVar (bound : BitVector) : EqExitIndVar := ⟨1, .const (.int bound), 1⟩

/-- In front of the loop: the widening has left the byte as it was, and the gate is known. -/
def countState (init bound : BitVector) : PathState where
  env := fun r => if r = 1 ∨ r = 7 then some (.scalar (.const init.width init.value)) else none
  regions := []
  pathcond := (intGate (.const init.width init.value) (.const bound.width bound.value) 1).getD []
  facts := []
  heap := []
  exact := false

theorem count_entry (init bound : BitVector) (hinit : init.width ≤ 64) (hbound : bound.width = 64)
    (hgate : ∀ c ∈ (countState init bound).pathcond, c.Holds fun _ _ => 0) :
    CounterEntry (countTo init bound) (fun _ => 0) asmWidth asmLoopIs (countVar bound) (countState init bound)
      ⟨0, 0, fun _ => none⟩ (.const init.width init.value) (.const bound.width bound.value) (countState init bound)
      (fun _ _ => 0) [] (asmVisit (.const (.int bound)) (asmFirst (init.value % 2 ^ init.width % 2 ^ 64))) where
  recognised := rfl
  captured := rfl
  below r v hv := by
    unfold countState at hv
    simp only at hv
    split at hv
    · obtain rfl := Option.some.inj hv
      exact fun q hq => absurd hq (by simp [Expr.symbolsOf])
    · exact absurd hv (by simp)
  asm r hr := by
    obtain ⟨n, hn, b, hb, defs, hdefs, hr⟩ := hr
    obtain rfl : n = 1 := Finset.mem_singleton.mp hn
    obtain rfl := Option.some.inj hb
    obtain rfl : defs = [5] := by simpa [BasicBlock.resolve, Inst.resolve, asmHeader] using hdefs
    obtain rfl := List.mem_singleton.mp hr
    rfl
  fresh c _ q _ _ r hr := Operand.noConfusion hr
  desc c hc := hgate c (by simpa [countState] using hc)
  reaches := asmLoop_enters init (.const (.int bound))
  counter := by
    refine ⟨?_, Nat.mod_lt _ (Nat.two_pow_pos _)⟩
    have hlt : init.value % 2 ^ init.width < 2 ^ 64 :=
      lt_of_lt_of_le (Nat.mod_lt _ (Nat.two_pow_pos _)) (Nat.pow_le_pow_right (by decide) hinit)
    show some (init.value % 2 ^ init.width % 2 ^ 64) = _
    rw [Nat.mod_eq_of_lt hlt]
    rfl
  limit := by
    refine ⟨fun z hz => ?_, Nat.mod_lt _ (Nat.two_pow_pos _)⟩
    have hz : z = bound.value := hz
    rw [hz]
    exact (Nat.mod_eq_of_lt bound.value_lt).symm
  fits := by
    show _ % 2 ^ _ < _
    rw [hbound]
    exact Nat.mod_lt _ (Nat.two_pow_pos _)

/-- A walk from the pointer in register 4 to the one in register 5, byte by byte. -/
def walkLoop : Func where
  name := "walk"
  params := [(4, .ptr (.int 8)), (5, .ptr (.int 8))]
  retTy := .unit
  blocks := [⟨0, [], [], .br 1 [.reg 4]⟩,
    ⟨1, [(1, .ptr (.int 8))], [.ptrOffset 2 (.reg 1) (.const (.int oneI64)) (.int 8),
      .assign 3 .bool (.cmp .ne (.reg 1) (.reg 5))], .condBr (.reg 3) 1 [.reg 2] 2 []⟩,
    ⟨2, [], [], .ret none⟩]
  entry := 0

def walkVar : PtrIndVar := ⟨1, .reg 5, .int 8, 1, false⟩

/-- Both pointers are into a region of four bytes, at its start and at its end. -/
def walkState : PathState where
  env := fun r => if r = 1 ∨ r = 4 then some (.ptr (.mk (.region 0) (.const 64 0) 1 none))
    else if r = 5 then some (.ptr (.mk (.region 0) (.const 64 4) 1 none)) else none
  regions := [.plain .stack (.const 64 4)]
  pathcond := ptrGate ⟨1, 0, .const 64 0, 1, .const 64 4, .const 64 4, 1, false⟩
  facts := []
  heap := []
  exact := false

theorem walk_entry : WalkEntry walkLoop (fun _ => 0) asmWidth asmLoopIs walkVar walkState ⟨0, 0, fun _ => none⟩
    ⟨1, 0, .const 64 0, 1, .const 64 4, .const 64 4, 1, false⟩ walkState none (fun _ _ => 0) 4096 [4096, 4100]
    ⟨walkLoop.blocks[1], walkLoop.blocks[1].insts,
      (((Regs.set (fun _ => none) 4 4096).set 5 4100).set 1 4096)⟩ where
  recognised := .inl rfl
  captured := rfl
  asm r hr := by
    obtain ⟨n, hn, b, hb, defs, hdefs, hr⟩ := hr
    obtain rfl : n = 1 := Finset.mem_singleton.mp hn
    obtain rfl := Option.some.inj hb
    exact absurd hdefs (by simp [BasicBlock.resolve, Inst.resolve])
  desc := by decide +kernel
  wide := ⟨⟨rfl, by decide⟩, ⟨rfl, by decide⟩, ⟨rfl, by decide⟩⟩
  reaches := by
    have hargs : List.Forall₂ (Operand.Evals ((Regs.set (fun _ => none) 4 4096).set 5 4100)) [.reg 4] [4096] :=
      .cons rfl .nil
    exact .step (.start ⟨rfl, rfl, rfl, rfl⟩) (.jump .br rfl hargs rfl)
  pointer := rfl
  limit z hz := (Option.some.inj hz).symm

end ExitBound

end Csolver
