import Csolver.Absint.Verdicts
import Csolver.Ir.Laps

/-!
# The verdict of a function (`crates/verifier/src/discharge.rs`, `report.rs`, `crates/core/src/verdict.rs`)

The obligations of a function are its explicit checks and the properties its instructions imply.
Each contributes a verdict, and a `PASS` that names no assumption has had every check from the
intervals.
-/

namespace Csolver

namespace Discharge

open Intervals

inductive Verdict where
  | pass
  | fail
  | unknown
  deriving DecidableEq

/-- Any failure dominates, then any unknown. -/
def Verdict.combine : Verdict → Verdict → Verdict
  | .fail, _ | _, .fail => .fail
  | .unknown, _ | _, .unknown => .unknown
  | .pass, .pass => .pass

def Verdict.combineAll (vs : List Verdict) : Verdict := vs.foldl Verdict.combine .pass

section Report

variable {P M : Type}

inductive SymOutcome (M : Type) where
  | proven
  | unknown
  | refuted (model : M)

structure MemDecision (M : Type) where
  proven : Bool
  refutation : Option M

/-- What the symbolic execution reports. -/
structure SymbolicReport (P M : Type) where
  outcome : BlockId → Nat → Option (SymOutcome M)
  memDecision : BlockId → Nat → P → Option (MemDecision M)
  assumptions : List String
  deadBlocks : List BlockId

inductive ObligationResult (M : Type) where
  | proven (assumptions : List String)
  | refuted (model : Option M)
  | residual

def ObligationResult.verdict : ObligationResult M → Verdict
  | proven _ => .pass
  | refuted _ => .fail
  | residual => .unknown

def ObligationResult.assumptions : ObligationResult M → List String
  | proven as => as
  | refuted _ | residual => []

structure Config where
  bugFinding : Bool
  aliasingModel : Bool

/-- What the source reads off an instruction: the condition of an explicit check, and the properties
    it implies. `bugOnly` are those that only a search for bugs enumerates. -/
structure Checks (P : Type) where
  condition : BlockId → Nat → Option Condition
  implied : BlockId → Nat → List P
  bugOnly : P → Bool
  noAliasing : P
  noDangling : P

/-- `LINEAR_ASSUMPTION`. -/
def linearAssumption : String := "linear-no-overflow"

/-- Intervals first; what they do not know is left to the symbolic execution. -/
def discharge (interval : Trivalent) (symbolic : Option (SymOutcome M)) : ObligationResult M :=
  match interval with
  | .true => .proven []
  | .false => .refuted none
  | .unknown =>
    match symbolic with
    | some .proven => .proven [linearAssumption]
    | some (.refuted model) => .refuted (some model)
    | _ => .residual

def ofDecision (assumptions : List String) (d : MemDecision M) : ObligationResult M :=
  if d.proven then .proven assumptions
  else match d.refutation with
    | some model => .refuted (some model)
    | none => .residual

variable (f : Func) (cfg : Config) (checks : Checks P)
  (analysis : Option (Engine.Solution IntervalState)) (symbolic : Option (SymbolicReport P M))

def memDecision (block : BlockId) (index : Nat) (p : P) : Option (MemDecision M) :=
  symbolic.bind fun r => r.memDecision block index p

def symAssumptions : List String := (symbolic.map (·.assumptions)).getD []

def checkResult (block : BlockId) (index : Nat) (cond : Condition) : ObligationResult M :=
  discharge ((analysis.map fun sol => evalCondition f sol block index cond).getD .unknown)
    (symbolic.bind fun r => r.outcome block index)

/-- A property that an instruction implies. In a block that nothing reaches it holds vacuously. -/
def impliedResult (block : BlockId) (index : Nat) (p : P) : ObligationResult M :=
  match memDecision symbolic block index p with
  | some d => ofDecision (symAssumptions symbolic) d
  | none =>
    if symbolic.any fun r => r.deadBlocks.contains block then .proven (symAssumptions symbolic)
    else .residual

/-- An aliasing violation is recorded only where there is one. -/
def aliasingResults (block : BlockId) (index : Nat) (i : Inst) : List (ObligationResult M) :=
  match i with
  | .load _ _ _ _ | .store _ _ _ _ | .call _ _ _ =>
    match memDecision symbolic block index checks.noAliasing with
    | some d => if cfg.aliasingModel && !d.proven then [ofDecision [] d] else []
    | none => []
  | _ => []

def instResults (block : BlockId) (i : Inst) (index : Nat) : List (ObligationResult M) :=
  match i, checks.condition block index with
  | .note, some cond => [checkResult f analysis symbolic block index cond]
  | _, _ =>
    ((checks.implied block index).filter fun p => cfg.bugFinding || !checks.bugOnly p).map
        (impliedResult symbolic block index) ++
      aliasingResults cfg checks symbolic block index i

/-- Only a search for bugs asks whether a returned pointer dangles. -/
def termResults (b : BasicBlock) : List (ObligationResult M) :=
  match b.term with
  | .ret (some _) =>
    if cfg.bugFinding then
      [((memDecision symbolic b.id b.insts.length checks.noDangling).map
        (ofDecision (symAssumptions symbolic))).getD .residual]
    else []
  | _ => []

def blockResults (b : BasicBlock) : List (ObligationResult M) :=
  b.insts.zipIdx.flatMap (fun e => instResults f cfg checks analysis symbolic b.id e.1 e.2) ++
    termResults cfg checks symbolic b

structure FunctionReport (M : Type) where
  verdict : Verdict
  outcomes : List (ObligationResult M)

def verifyFunction : FunctionReport M :=
  let outcomes := f.blocks.flatMap (blockResults f cfg checks analysis symbolic)
  ⟨.combineAll (outcomes.map (·.verdict)), outcomes⟩

/-- The assumptions of every proof of the function, sorted and without repetition. -/
def FunctionReport.assumptionFootprint (r : FunctionReport M) : List String :=
  (r.outcomes.flatMap (·.assumptions)).dedup.mergeSort (· ≤ ·)

def FunctionReport.isSoundDecided (r : FunctionReport M) : Bool :=
  decide (r.verdict ≠ .unknown) && r.assumptionFootprint.isEmpty

end Report

theorem Verdict.foldl_combine (vs : List Verdict) (a : Verdict) :
    (vs.foldl Verdict.combine a = .pass ↔ a = .pass ∧ ∀ v ∈ vs, v = .pass) ∧
      (vs.foldl Verdict.combine a = .fail ↔ a = .fail ∨ .fail ∈ vs) := by
  induction vs generalizing a with
  | nil => simp
  | cons v vs ih =>
    obtain ⟨hpass, hfail⟩ := ih (a.combine v)
    rw [List.foldl_cons, hpass, hfail]
    cases a <;> cases v <;> simp [Verdict.combine]

section Sound

variable {P M : Type} {f : Func} {cfg : Config} {checks : Checks P} {Γ : RegId → Nat}
  {analysis : Option (Engine.Solution IntervalState)} {symbolic : Option (SymbolicReport P M)}

theorem blk_mem (hwf : f.WellFormed) {args : List Nat} {p : Point} (h : ReachesOk f Γ args p) :
    p.blk ∈ f.blocks := by
  have hloc : ∃ n k, f.Located p n k := by
    induction h with
    | start hs => exact ⟨_, _, Func.start_located hwf hs⟩
    | step _ _ hs ih =>
      obtain ⟨n, k, hloc⟩ := ih
      exact hloc.next hwf hs
  obtain ⟨_, _, hloc⟩ := hloc
  exact List.mem_of_getElem? hloc.blk

theorem evalCondition_right {headers : List Nat} {sol : Engine.Solution IntervalState}
    (hwf : f.WellFormed) (hssa : f.StrictSsa) (hty : f.WellTyped Γ) {fuel : Nat}
    (hsol : analyzeIntervals f headers fuel = some sol) {args : List Nat} {p : Point}
    (hp : ReachesOk f Γ args p) {index : Nat} (hindex : p.rest = p.blk.insts.drop index)
    {cond : Condition} {ν : Operand → Nat} (hcond : ∀ c ∈ cond.comparisons,
      Valued p.regs ν c.2.1 c.2.2 ∧ ComparisonOk Γ ν c.1 c.2.1 c.2.2) :
    (evalCondition f sol p.blk.id index cond = .true → cond.holds Γ ν = true) ∧
      (evalCondition f sol p.blk.id index cond = .false → cond.holds Γ ν = false) := by
  obtain ⟨n, k, hloc, _, hdesc⟩ := hp.tracked hwf hssa hty (analyzeIntervals_postFixpoint hsol)
  obtain ⟨hn, hstate⟩ := @stateAt_eq f sol hwf p n k hloc index hindex
  have hreach := hdesc.reachable
  rw [isReachable_foldl] at hreach
  rw [evalCondition, hn]
  simp only [hreach, if_true, hstate]
  exact evalConditionIn_sound hdesc cond hcond

theorem mem_outcomes {b : BasicBlock} (hb : b ∈ f.blocks) {index : Nat}
    (hi : b.insts[index]? = some .note) {cond : Condition}
    (hc : checks.condition b.id index = some cond) :
    checkResult f analysis symbolic b.id index cond ∈
      (verifyFunction f cfg checks analysis symbolic).outcomes := by
  refine List.mem_flatMap.mpr ⟨b, hb, List.mem_append_left _ ?_⟩
  refine List.mem_flatMap.mpr ⟨(.note, index), List.mem_zipIdx_iff_getElem?.mpr hi, ?_⟩
  simp [instResults, hc]

theorem mem_footprint {r : FunctionReport M} {o : ObligationResult M} (h : o ∈ r.outcomes) {a : String}
    (ha : a ∈ o.assumptions) : a ∈ r.assumptionFootprint :=
  List.mem_mergeSort.mpr (List.mem_dedup.mpr (List.mem_flatMap.mpr ⟨o, h, ha⟩))

theorem verdict_pass {o : ObligationResult M}
    (h : o ∈ (verifyFunction f cfg checks analysis symbolic).outcomes)
    (hp : (verifyFunction f cfg checks analysis symbolic).verdict = .pass) : o.verdict = .pass :=
  ((Verdict.foldl_combine _ _).1.mp hp).2 _ (List.mem_map_of_mem h)

theorem verdict_fail {o : ObligationResult M}
    (h : o ∈ (verifyFunction f cfg checks analysis symbolic).outcomes) (ho : o.verdict = .fail) :
    (verifyFunction f cfg checks analysis symbolic).verdict = .fail :=
  (Verdict.foldl_combine _ _).2.mpr (.inr (ho ▸ List.mem_map_of_mem h))

theorem discharge_pass {interval : Trivalent} {o : Option (SymOutcome M)}
    (h : (discharge interval o).verdict = .pass) :
    interval = .true ∨ linearAssumption ∈ (discharge interval o).assumptions := by
  cases interval with
  | true => exact .inl rfl
  | false => cases h
  | unknown =>
    rcases o with _ | _ | _ | _
    · cases h
    · exact .inr (List.mem_singleton_self _)
    · cases h
    · cases h

/-- **The verdict of a function on the machine.** In every execution whose steps the intervals read
    as the machine does, a check that is reached holds if the function passes, or the report names
    the assumption of the linear prover; a function that passes without assumptions has every check
    it reaches hold; and a check that the intervals refute fails the function and is false. -/
theorem verifyFunction_machine (f : Func) (cfg : Config) (checks : Checks P) (Γ : RegId → Nat)
    (headers : List Nat) (analysis : Option (Engine.Solution IntervalState))
    (symbolic : Option (SymbolicReport P M)) (hwf : f.WellFormed) (hssa : f.StrictSsa)
    (hty : f.WellTyped Γ)
    (hsol : ∀ sol, analysis = some sol → ∃ fuel, analyzeIntervals f headers fuel = some sol) :
    ∀ args p, ReachesOk f Γ args p → ∀ index, p.rest = p.blk.insts.drop index →
    p.blk.insts[index]? = some .note → ∀ cond, checks.condition p.blk.id index = some cond →
    ∀ ν, (∀ c ∈ cond.comparisons,
      Valued p.regs ν c.2.1 c.2.2 ∧ ComparisonOk Γ ν c.1 c.2.1 c.2.2) →
    ((verifyFunction f cfg checks analysis symbolic).verdict = .pass → cond.holds Γ ν = true ∨
        linearAssumption ∈ (verifyFunction f cfg checks analysis symbolic).assumptionFootprint) ∧
      ((verifyFunction f cfg checks analysis symbolic).verdict = .pass →
        (verifyFunction f cfg checks analysis symbolic).isSoundDecided = true →
        cond.holds Γ ν = true) ∧
      ∀ sol, analysis = some sol → evalCondition f sol p.blk.id index cond = .false →
        (verifyFunction f cfg checks analysis symbolic).verdict = .fail ∧
          cond.holds Γ ν = false := by
  intro args p hp index hindex hnote cond hcheck ν hcond
  have hright : ∀ sol, analysis = some sol →
      (evalCondition f sol p.blk.id index cond = .true → cond.holds Γ ν = true) ∧
        (evalCondition f sol p.blk.id index cond = .false → cond.holds Γ ν = false) := by
    intro sol hs
    obtain ⟨_, hfix⟩ := hsol sol hs
    exact evalCondition_right hwf hssa hty hfix hp hindex hcond
  have hmem : checkResult f analysis symbolic p.blk.id index cond ∈
      (verifyFunction f cfg checks analysis symbolic).outcomes :=
    mem_outcomes (blk_mem hwf hp) hnote hcheck
  have hpass : (verifyFunction f cfg checks analysis symbolic).verdict = .pass →
      cond.holds Γ ν = true ∨
        linearAssumption ∈ (verifyFunction f cfg checks analysis symbolic).assumptionFootprint := by
    intro h
    rcases discharge_pass (verdict_pass hmem h) with ht | ha
    · cases hs : analysis with
      | none => simp [hs] at ht
      | some sol => exact .inl ((hright sol hs).1 (by simpa [hs] using ht))
    · exact .inr (mem_footprint hmem ha)
  refine ⟨hpass, fun h hsound => ?_, fun sol hs hfalse => ⟨verdict_fail hmem ?_, (hright sol hs).2 hfalse⟩⟩
  · rw [FunctionReport.isSoundDecided, Bool.and_eq_true, List.isEmpty_iff] at hsound
    rcases hpass h with ht | ha
    · exact ht
    · rw [hsound.2] at ha
      cases ha
  · simp [checkResult, hs, hfalse, discharge, ObligationResult.verdict]

end Sound

/-- `fn() { check 0 < 1; return }`. -/
def checkFn : Func where
  name := "check"
  params := []
  retTy := .unit
  blocks := [⟨0, [], [.note], .ret none⟩]
  entry := 0

/-- `0 <s 1` in 8 bits. -/
def below : Condition :=
  .cmp .slt (.const (.int ⟨8, 0, BitVector.pos8, BitVector.le8, BitVector.zero_lt8⟩)) (.const (.int oneI8))

def checkChecks : Checks Unit where
  condition := fun _ _ => some below
  implied := fun _ _ => []
  bugOnly := fun _ => false
  noAliasing := ()
  noDangling := ()

def checkReport (sol : Engine.Solution IntervalState) : FunctionReport Unit :=
  verifyFunction checkFn ⟨false, false⟩ checkChecks (some sol) none

theorem checkFn_inst {b : BasicBlock} (hb : b ∈ checkFn.blocks) {i : Inst} (hi : i ∈ b.insts) : i = .note := by
  obtain rfl := List.mem_singleton.mp hb
  exact List.mem_singleton.mp hi

theorem checkFn_wellFormed : checkFn.WellFormed where
  ids := by simp [checkFn]
  params := by simp [checkFn]
  param_def := by simp [checkFn]
  asm_param := by simp [checkFn]
  asm_def := by simp [checkFn]

theorem checkFn_strictSsa : checkFn.StrictSsa where
  use := by
    intro n b hb _ j dst ty value hj
    exact Inst.noConfusion (checkFn_inst (List.mem_of_getElem? hb) (List.mem_of_getElem? hj))
  branch := by
    intro n b hb _ r t targs e eargs hterm
    obtain rfl := List.mem_singleton.mp (List.mem_of_getElem? hb)
    exact Terminator.noConfusion hterm
  assign_once := by
    intro n b j dst ty value hb hj
    exact Inst.noConfusion (checkFn_inst (List.mem_of_getElem? hb) (List.mem_of_getElem? hj))
  asm_once := by
    intro n b j defs hb hj
    exact Inst.noConfusion (checkFn_inst (List.mem_of_getElem? hb) (List.mem_of_getElem? hj))

theorem checkFn_wellTyped : checkFn.WellTyped fun _ => 8 := by
  constructor <;> simp [checkFn, Terminator.edges]

def checkValue : Operand → Nat
  | .const (.int bv) => bv.value
  | _ => 0

/-- The analysis of `checkFn` and what the report says with it. -/
def checkRun : Option (Verdict × Bool) :=
  (analyzeIntervals checkFn [] 2).map fun sol => ((checkReport sol).verdict, (checkReport sol).isSoundDecided)

/-- The check is decided by the intervals, and the function passes without assumptions. -/
theorem verifyFunction_machine_check :
    ∃ sol, analyzeIntervals checkFn [] 2 = some sol ∧ (checkReport sol).verdict = .pass ∧
      (checkReport sol).isSoundDecided = true ∧ below.holds (fun _ => 8) checkValue = true := by
  have hrun : checkRun = some (.pass, true) := by decide +kernel
  obtain ⟨sol, hsol, hreport⟩ := Option.map_eq_some_iff.mp hrun
  obtain ⟨hpass, hsound⟩ := Prod.mk.inj hreport
  have hreach : ReachesOk checkFn (fun _ => 8) [] ⟨⟨0, [], [.note], .ret none⟩, [.note], fun _ => none⟩ :=
    .start ⟨rfl, rfl, rfl, rfl⟩
  refine ⟨sol, hsol, hpass, hsound, ?_⟩
  refine (verifyFunction_machine checkFn ⟨false, false⟩ checkChecks (fun _ => 8) [] (some sol) none
    checkFn_wellFormed checkFn_strictSsa checkFn_wellTyped ?_ [] _ hreach 0 rfl rfl below rfl checkValue
    ?_).2.1 hpass hsound
  · intro _ he
    obtain rfl := Option.some.inj he
    exact ⟨2, hsol⟩
  · intro c hc
    obtain rfl := List.mem_singleton.mp hc
    refine ⟨⟨rfl, rfl⟩, ⟨?_, ?_⟩, rfl, ?_⟩
    · exact fun _ => rfl
    · exact fun h => absurd h (by decide)
    · show (8 : Nat) ≠ 1
      decide

end Discharge

end Csolver
