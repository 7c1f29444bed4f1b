import Csolver.Solver.Linear

/-!
# The arithmetic of the linear procedure (`crates/solver/src/linear.rs`)

Every operation on a linear form is checked, except one: a combination negates the coefficient of its
lower bound with a plain `-`. In a build with overflow checks that panics on `i128::MIN`, and
otherwise it wraps. `strict` names the procedure as the checked build runs it.
-/

namespace Csolver

namespace Linear

/-! ## What a form stands for -/

/-- An integer for each handle, at which the arithmetic nodes are integer arithmetic. Every other
    node is opaque. -/
structure IntReading (ctx : ExprCtx) (σ : ExprId → Int) : Prop where
  const : ∀ {e bv}, ctx.node e = .const bv → σ e = constToInt bv
  add : ∀ {e a b}, ctx.node e = .bin .add a b → σ e = σ a + σ b
  sub : ∀ {e a b}, ctx.node e = .bin .sub a b → σ e = σ a - σ b
  mul : ∀ {e a b}, ctx.node e = .bin .mul a b → σ e = σ a * σ b

/-- What an unsigned comparison adds about its operands. -/
def NonNegative (op : CmpOp) (x y : Int) : Prop :=
  match op with
  | .ult | .ule | .ugt | .uge => 0 ≤ x ∧ 0 ≤ y
  | _ => True

/-- `e == truth` over the integers. -/
def IntTruth (ctx : ExprCtx) (σ : ExprId → Int) : Nat → ExprId → Bool → Prop
  | 0, _, _ => False
  | fuel + 1, e, truth =>
    match ctx.node e with
    | .bool b => b = truth
    | .not x => IntTruth ctx σ fuel x !truth
    | .and xs =>
      if truth then ∀ x ∈ xs, IntTruth ctx σ fuel x true else ∃ x ∈ xs, IntTruth ctx σ fuel x false
    | .or xs =>
      if truth then ∃ x ∈ xs, IntTruth ctx σ fuel x true else ∀ x ∈ xs, IntTruth ctx σ fuel x false
    | .cmp op a b => (IntCmp op (σ a) (σ b) ↔ truth = true) ∧ NonNegative op (σ a) (σ b)
    | _ => False

section

variable {ctx : ExprCtx} {σ : ExprId → Int}

theorem linearizeFuel_exact (hσ : IntReading ctx σ) (fuel : Nat) : ∀ {e : ExprId} {l : Linear},
    linearizeFuel ctx fuel e = some l → l.eval σ = σ e := by
  induction fuel with
  | zero =>
    intro e l h
    exact absurd h (by simp [linearizeFuel])
  | succ fuel ih =>
    intro e l h
    have hatom : some (atom e) = some l → l.eval σ = σ e := by
      intro he
      rw [← Option.some.inj he, eval_atom]
    rw [linearizeFuel] at h
    cases hn : ctx.node e with
    | const bv =>
      rw [hn] at h
      rw [← Option.some.inj h, eval_const, hσ.const hn]
    | bin op a b =>
      rw [hn] at h
      obtain ⟨la, hla, h⟩ := Option.bind_eq_some_iff.mp h
      obtain ⟨lb, hlb, h⟩ := Option.bind_eq_some_iff.mp h
      cases op with
      | add => rw [eval_add σ h, ih hla, ih hlb, hσ.add hn]
      | sub => rw [eval_sub σ h, ih hla, ih hlb, hσ.sub hn]
      | mul =>
        simp only at h
        by_cases ha : la.isConstant = true
        · rw [if_pos ha] at h
          rw [eval_scale σ h, ih hlb, hσ.mul hn, ← ih hla, eval_isConstant σ ha]
        · rw [if_neg ha] at h
          by_cases hb : lb.isConstant = true
          · rw [if_pos hb] at h
            rw [eval_scale σ h, ih hla, hσ.mul hn, ← ih hlb, eval_isConstant σ hb, mul_comm]
          · rw [if_neg hb] at h
            exact hatom h
      | _ => exact hatom h
    | _ =>
      rw [hn] at h
      exact hatom h

theorem intCmp_negate {op : CmpOp} {x y : Int} : IntCmp op.negate x y ↔ ¬IntCmp op x y := by
  constructor
  · cases op <;> simp only [IntCmp, CmpOp.negate] <;> intro h <;> omega
  · exact IntCmp.negate

theorem nonNegative_negate {op : CmpOp} {x y : Int} :
    NonNegative op.negate x y ↔ NonNegative op x y := by
  cases op <;> rfl

theorem strict_iff {l o : Linear} {cs : List Linear}
    (h : (do return [← (← l.sub o).addConst 1]) = some cs) :
    (∀ c ∈ cs, c.eval σ ≤ 0) ↔ l.eval σ < o.eval σ := by
  obtain ⟨d, hd, h⟩ := Option.bind_eq_some_iff.mp h
  obtain ⟨r, hr, h⟩ := Option.bind_eq_some_iff.mp h
  rw [← Option.some.inj h, List.forall_mem_singleton, eval_addConst σ hr, eval_sub σ hd]
  constructor
  · intro hle
    linarith
  · intro hlt
    linarith

theorem weak_iff {l o : Linear} {cs : List Linear} (h : (do return [← l.sub o]) = some cs) :
    (∀ c ∈ cs, c.eval σ ≤ 0) ↔ l.eval σ ≤ o.eval σ := by
  obtain ⟨d, hd, h⟩ := Option.bind_eq_some_iff.mp h
  rw [← Option.some.inj h, List.forall_mem_singleton, eval_sub σ hd, sub_nonpos]

theorem orderConstraints_iff {op : CmpOp} {la lb : Linear} {cs : List Linear}
    (h : orderConstraints op la lb = some cs) :
    (∀ c ∈ cs, c.eval σ ≤ 0) ↔ IntCmp op (la.eval σ) (lb.eval σ) := by
  cases op with
  | ult => exact strict_iff h
  | slt => exact strict_iff h
  | ugt => exact strict_iff h
  | sgt => exact strict_iff h
  | ule => exact weak_iff h
  | sle => exact weak_iff h
  | uge => exact weak_iff h
  | sge => exact weak_iff h
  | ne => exact absurd h (by simp [orderConstraints])
  | eq =>
    obtain ⟨d, hd, h⟩ := Option.bind_eq_some_iff.mp h
    obtain ⟨d', hd', h⟩ := Option.bind_eq_some_iff.mp h
    rw [← Option.some.inj h, List.forall_mem_cons, List.forall_mem_singleton, eval_sub σ hd,
      eval_sub σ hd', sub_nonpos, sub_nonpos]
    exact (le_antisymm_iff).symm

/-- **A comparison's constraints** say what it says over the integers, no more and no less. -/
theorem cmpConstraints_iff {op : CmpOp} {la lb : Linear} {cs : List Linear}
    (h : cmpConstraints op la lb = some cs) :
    (∀ c ∈ cs, c.eval σ ≤ 0) ↔
      IntCmp op (la.eval σ) (lb.eval σ) ∧ NonNegative op (la.eval σ) (lb.eval σ) := by
  obtain ⟨res, hres, h⟩ := Option.bind_eq_some_iff.mp h
  have unsigned : (do return res ++ [← la.scale (-1), ← lb.scale (-1)]) = some cs →
      ((∀ c ∈ cs, c.eval σ ≤ 0) ↔
        IntCmp op (la.eval σ) (lb.eval σ) ∧ 0 ≤ la.eval σ ∧ 0 ≤ lb.eval σ) := by
    intro he
    obtain ⟨na, hna, he⟩ := Option.bind_eq_some_iff.mp he
    obtain ⟨nb, hnb, he⟩ := Option.bind_eq_some_iff.mp he
    rw [← Option.some.inj he, List.forall_mem_append, orderConstraints_iff hres,
      List.forall_mem_cons, List.forall_mem_singleton, eval_scale σ hna, eval_scale σ hnb,
      neg_one_mul, neg_one_mul, neg_nonpos, neg_nonpos]
  cases op with
  | ult | ule | ugt | uge => exact unsigned h
  | eq | ne | slt | sle | sgt | sge =>
    rw [← Option.some.inj h, orderConstraints_iff hres]
    exact (and_iff_left trivial).symm

theorem allConstraints_iff {rec : ExprId → Option (List Linear)} {P : ExprId → Prop}
    (xs : List ExprId)
    (hrec : ∀ x ∈ xs, ∀ cs, rec x = some cs → ((∀ c ∈ cs, c.eval σ ≤ 0) ↔ P x)) :
    ∀ {cs : List Linear}, allConstraints rec xs = some cs →
      ((∀ c ∈ cs, c.eval σ ≤ 0) ↔ ∀ x ∈ xs, P x) := by
  induction xs with
  | nil =>
    intro cs h
    rw [← Option.some.inj h]
    simp
  | cons x xs ih =>
    intro cs h
    obtain ⟨ds, hds, h⟩ := Option.bind_eq_some_iff.mp h
    obtain ⟨es, hes, h⟩ := Option.bind_eq_some_iff.mp h
    rw [← Option.some.inj h, List.forall_mem_append, List.forall_mem_cons,
      hrec x List.mem_cons_self ds hds,
      ih (fun y hy => hrec y (List.mem_cons_of_mem _ hy)) hes]

/-- **The constraints of a formula** say what the formula says over the integers. -/
theorem constraintsFuel_exact (hσ : IntReading ctx σ) (fuel : Nat) :
    ∀ {e : ExprId} {truth : Bool} {cs : List Linear}, constraintsFuel ctx fuel e truth = some cs →
      ((∀ c ∈ cs, c.eval σ ≤ 0) ↔ IntTruth ctx σ fuel e truth) := by
  induction fuel with
  | zero =>
    intro e truth cs h
    exact absurd h (by simp [constraintsFuel])
  | succ fuel ih =>
    intro e truth cs h
    rw [constraintsFuel] at h
    rw [IntTruth]
    cases hn : ctx.node e with
    | bool b =>
      rw [hn] at h
      simp only at h ⊢
      by_cases hb : b = truth
      · rw [if_pos hb] at h
        rw [← Option.some.inj h]
        simp [hb]
      · rw [if_neg hb] at h
        rw [← Option.some.inj h, List.forall_mem_singleton, eval_const]
        simp [hb]
    | not x =>
      rw [hn] at h
      exact ih h
    | and xs =>
      rw [hn] at h
      cases truth with
      | false => exact absurd h (by simp)
      | true => exact allConstraints_iff xs (fun x _ ds hds => ih hds) h
    | or xs =>
      rw [hn] at h
      cases truth with
      | true => exact absurd h (by simp)
      | false => exact allConstraints_iff xs (fun x _ ds hds => ih hds) h
    | cmp op a b =>
      rw [hn] at h
      obtain ⟨la, hla, h⟩ := Option.bind_eq_some_iff.mp h
      obtain ⟨lb, hlb, h⟩ := Option.bind_eq_some_iff.mp h
      rw [cmpConstraints_iff h, linearizeFuel_exact hσ _ hla, linearizeFuel_exact hσ _ hlb]
      cases truth with
      | true => simp
      | false => simp [intCmp_negate, nonNegative_negate]
    | _ =>
      rw [hn] at h
      exact absurd h (by simp)

end

/-! ## The build with overflow checks -/

/-- The panic of an arithmetic operation that is not checked in the source. -/
structure Overflow where
  deriving DecidableEq

/-- `-x` on an `i128`, with overflow checks. -/
def strictNeg (x : Int) : Except Overflow Int := if x = i128Min then .error ⟨⟩ else .ok (-x)

/-- A combination of two bounds, given the negated coefficient. -/
def combineBy (v : ExprId) (p n : Linear) (b : Int) : Option Linear := do
  let a := p.coeffOf v
  let bp ← p.scale b
  let an ← n.scale a
  let combined ← bp.add an
  return combined.remove v

def combineStrict (v : ExprId) (p n : Linear) : Except Overflow (Option Linear) :=
  (strictNeg (n.coeffOf v)).map (combineBy v p n)

def combineAllStrict (v : ExprId) :
    List (Linear × Linear) → List Linear → Except Overflow Round
  | [], next => .ok (.next next)
  | (p, n) :: rest, next =>
    match combineStrict v p n with
    | .error o => .error o
    | .ok none => .ok (.done true)
    | .ok (some combined) =>
      if contradiction combined then .ok (.done false)
      else if constraintLimit < (next ++ [combined]).length then .ok (.done true)
      else combineAllStrict v rest (next ++ [combined])

/-- An upper bound on `v` with a lower one, in the order of the two loops. -/
def boundPairs (v : ExprId) (cs : List Linear) : List (Linear × Linear) :=
  (cs.filter fun c => 0 < c.coeffOf v).flatMap fun p =>
    (cs.filter fun c => c.coeffOf v < 0).map fun n => (p, n)

def untouched (v : ExprId) (cs : List Linear) : List Linear := cs.filter fun c => c.coeffOf v = 0

def feasibleStrictFuel : Nat → List Linear → Except Overflow (Option Bool)
  | 0, _ => .ok none
  | fuel + 1, cs =>
    if cs.any contradiction then .ok (some false)
    else match pickVar cs with
      | none => .ok (some true)
      | some v =>
        match combineAllStrict v (boundPairs v cs) (untouched v cs) with
        | .error o => .error o
        | .ok (.done r) => .ok (some r)
        | .ok (.next cs) => feasibleStrictFuel fuel cs

def feasibleStrict (cs : List Linear) : Except Overflow (Option Bool) :=
  feasibleStrictFuel ((cs.flatMap fun c => c.coeffs.map (·.1)).length + 1) cs

/-- The inequalities `prove_implies` starts from, or `none` where the goal cannot be read. -/
def systemOf (ctx : ExprCtx) (assumptions : List ExprId) (goal : ExprId) : Option (List Linear) :=
  (constraintsOf ctx goal false).map fun cs =>
    (assumptions.flatMap fun a => (constraintsOf ctx a true).getD []) ++ cs

def proveImpliesStrict (ctx : ExprCtx) (assumptions : List ExprId) (goal : ExprId) :
    Except Overflow (Option Bool) :=
  match systemOf ctx assumptions goal with
  | none => .ok (some false)
  | some cs => (feasibleStrict cs).map (Option.map (!·))

theorem proveImplies_eq (ctx : ExprCtx) (assumptions : List ExprId) (goal : ExprId) :
    proveImplies ctx assumptions goal =
      match systemOf ctx assumptions goal with
      | none => some false
      | some cs => (feasible cs).map (!·) := by
  rw [proveImplies, systemOf]
  cases constraintsOf ctx goal false with
  | none => rfl
  | some cs =>
    simp only [Option.map_some]
    cases feasible ((assumptions.flatMap fun a => (constraintsOf ctx a true).getD []) ++ cs) <;> rfl

/-! ### Its states -/

/-- Where the loop stands: before a round, or within one, with the pairs still to combine and the
    constraints kept so far. -/
inductive Work where
  | round (constraints : List Linear)
  | pairs (v : ExprId) (todo : List (Linear × Linear)) (next : List Linear)

inductive Work.Step : Work → Work → Prop
  | start {cs v} : cs.any contradiction = false → pickVar cs = some v →
      Step (.round cs) (.pairs v (boundPairs v cs) (untouched v cs))
  | combine {v p n rest next c} : combineStrict v p n = .ok (some c) → contradiction c = false →
      (next ++ [c]).length ≤ constraintLimit →
      Step (.pairs v ((p, n) :: rest) next) (.pairs v rest (next ++ [c]))
  | finish {v next} : Step (.pairs v [] next) (.round next)

def Reaches (ctx : ExprCtx) (assumptions : List ExprId) (goal : ExprId) (w : Work) : Prop :=
  ∃ cs, systemOf ctx assumptions goal = some cs ∧ Relation.ReflTransGen Work.Step (.round cs) w

/-- What the rest of the run returns. -/
def Work.outcome (fuel : Nat) : Work → Except Overflow (Option Bool)
  | .round cs => feasibleStrictFuel fuel cs
  | .pairs v todo next =>
    match combineAllStrict v todo next with
    | .error o => .error o
    | .ok (.done r) => .ok (some r)
    | .ok (.next cs) => feasibleStrictFuel fuel cs

theorem Work.Step.outcome {w w' : Work} (h : Step w w') (fuel : Nat) :
    w.outcome fuel = .ok none ∨ ∃ fuel', w.outcome fuel = w'.outcome fuel' := by
  cases h with
  | start hcon hv =>
    cases fuel with
    | zero => exact .inl rfl
    | succ fuel =>
      refine .inr ⟨fuel, ?_⟩
      simp only [Work.outcome, feasibleStrictFuel, hcon, hv, Bool.false_eq_true, if_false]
  | combine hc hcon hlen =>
    refine .inr ⟨fuel, ?_⟩
    simp only [Work.outcome, combineAllStrict, hc, hcon, Bool.false_eq_true, if_false,
      if_neg (Nat.not_lt.mpr hlen)]
  | finish => exact .inr ⟨fuel, rfl⟩

theorem outcome_of_reached {w w' : Work} (h : Relation.ReflTransGen Work.Step w w') :
    ∀ fuel, w.outcome fuel = .ok none ∨ ∃ fuel', w.outcome fuel = w'.outcome fuel' := by
  induction h using Relation.ReflTransGen.head_induction_on with
  | refl => exact fun fuel => .inr ⟨fuel, rfl⟩
  | head hstep _ ih =>
    intro fuel
    rcases hstep.outcome fuel with hnone | ⟨fuel', he⟩
    · exact .inl hnone
    · rw [he]
      exact ih fuel'

/-! ### Against the wrapping build -/

theorem combineStrict_fits {v : ExprId} {p n : Linear} (h : n.coeffOf v ≠ i128Min) :
    combineStrict v p n = .ok (combine v p n) := by
  have hwrap : wrappingNeg (n.coeffOf v) = -n.coeffOf v := by rw [wrappingNeg, if_neg h]
  rw [combineStrict, strictNeg, if_neg h, ← hwrap]
  rfl

theorem combineStrict_min {v : ExprId} {p n : Linear} (h : n.coeffOf v = i128Min) :
    combineStrict v p n = .error ⟨⟩ := by
  rw [combineStrict, strictNeg, if_pos h]
  rfl

/-- No state after `w` negates the least coefficient. -/
def NegatesInRange (w : Work) : Prop :=
  ∀ {v p n rest next}, Relation.ReflTransGen Work.Step w (.pairs v ((p, n) :: rest) next) →
    n.coeffOf v ≠ i128Min

theorem NegatesInRange.after {w w' : Work} (h : NegatesInRange w)
    (hw : Relation.ReflTransGen Work.Step w w') : NegatesInRange w' :=
  fun hreach => h (hw.trans hreach)

theorem combineAllStrict_eq {v : ExprId} (todo : List (Linear × Linear)) :
    ∀ {next : List Linear}, NegatesInRange (.pairs v todo next) →
      combineAllStrict v todo next = .ok (combineAll v todo next) ∧
        ∀ ds, combineAll v todo next = .next ds →
          Relation.ReflTransGen Work.Step (.pairs v todo next) (.round ds) := by
  induction todo with
  | nil =>
    intro next _
    refine ⟨rfl, fun ds hds => ?_⟩
    rw [← Round.next.inj hds]
    exact .single .finish
  | cons q rest ih =>
    intro next hgood
    have hstrict := combineStrict_fits (p := q.1) (hgood .refl)
    rw [combineAllStrict, combineAll, hstrict]
    cases hc : combine v q.1 q.2 with
    | none => exact ⟨rfl, fun ds hds => absurd hds (by simp)⟩
    | some c =>
      simp only
      by_cases hcon : contradiction c = true
      · rw [if_pos hcon, if_pos hcon]
        exact ⟨rfl, fun ds hds => absurd hds (by simp)⟩
      · rw [if_neg hcon, if_neg hcon]
        by_cases hbig : constraintLimit < (next ++ [c]).length
        · rw [if_pos hbig, if_pos hbig]
          exact ⟨rfl, fun ds hds => absurd hds (by simp)⟩
        · rw [if_neg hbig, if_neg hbig]
          rw [hc] at hstrict
          have hstep : Work.Step (.pairs v (q :: rest) next) (.pairs v rest (next ++ [c])) :=
            .combine hstrict (by simpa using hcon) (Nat.not_lt.mp hbig)
          obtain ⟨he, hnext⟩ := ih (hgood.after (.single hstep))
          exact ⟨he, fun ds hds => .head hstep (hnext ds hds)⟩

theorem feasibleStrictFuel_eq (fuel : Nat) : ∀ {cs : List Linear}, NegatesInRange (.round cs) →
    feasibleStrictFuel fuel cs = .ok (feasibleFuel fuel cs) := by
  induction fuel with
  | zero => exact fun _ => rfl
  | succ fuel ih =>
    intro cs hgood
    rw [feasibleStrictFuel, feasibleFuel]
    by_cases hcon : cs.any contradiction = true
    · rw [if_pos hcon, if_pos hcon]
    · rw [if_neg hcon, if_neg hcon]
      cases hv : pickVar cs with
      | none => rfl
      | some v =>
        have hstep : Work.Step (.round cs) (.pairs v (boundPairs v cs) (untouched v cs)) :=
          .start (by simpa using hcon) hv
        have hpairs : NegatesInRange (.pairs v (boundPairs v cs) (untouched v cs)) :=
          hgood.after (.single hstep)
        obtain ⟨he, hnext⟩ := combineAllStrict_eq _ hpairs
        have helim : eliminate v cs = combineAll v (boundPairs v cs) (untouched v cs) := rfl
        simp only
        rw [he, helim]
        cases hr : combineAll v (boundPairs v cs) (untouched v cs) with
        | done r => rfl
        | next ds => exact ih (hpairs.after (hnext ds hr))

theorem outcome_of_min {w : Work} {v : ExprId} {p n : Linear} {rest : List (Linear × Linear)}
    {next : List Linear} (h : Relation.ReflTransGen Work.Step w (.pairs v ((p, n) :: rest) next))
    (hmin : n.coeffOf v = i128Min) (fuel : Nat) (r : Bool) : w.outcome fuel ≠ .ok (some r) := by
  rcases outcome_of_reached h fuel with hnone | ⟨fuel', he⟩
  · rw [hnone]
    simp
  · rw [he, Work.outcome, combineAllStrict, combineStrict_min hmin]
    simp

theorem outcome_of_none {w : Work} {v : ExprId} {p n : Linear} {rest : List (Linear × Linear)}
    {next : List Linear} (h : Relation.ReflTransGen Work.Step w (.pairs v ((p, n) :: rest) next))
    (hnone : combineStrict v p n = .ok none) {fuel : Nat} {r : Bool}
    (hr : w.outcome fuel = .ok (some r)) : r = true := by
  rcases outcome_of_reached h fuel with hn | ⟨fuel', he⟩
  · rw [hn] at hr
    exact absurd hr (by simp)
  · rw [he, Work.outcome, combineAllStrict, hnone] at hr
    simpa using hr.symm

/-- **A combination is the sum it is meant to be**: each bound times the other's coefficient. -/
theorem combine_eval {v : ExprId} {p n c : Linear} (h : combine v p n = some c)
    (hne : n.coeffOf v ≠ i128Min) (σ : ExprId → Int) :
    c.eval σ = -n.coeffOf v * p.eval σ + p.coeffOf v * n.eval σ := by
  obtain ⟨bp, hbp, h⟩ := Option.bind_eq_some_iff.mp h
  obtain ⟨an, han, h⟩ := Option.bind_eq_some_iff.mp h
  obtain ⟨r, hr, h⟩ := Option.bind_eq_some_iff.mp h
  have hb : wrappingNeg (n.coeffOf v) = -n.coeffOf v := by rw [wrappingNeg, if_neg hne]
  rw [hb] at hbp
  have hzero : r.coeffOf v = 0 := by
    rw [coeffOf_add hr, coeffOf_scale hbp, coeffOf_scale han]
    ring
  rw [← Option.some.inj h, remove_of_coeffOf_zero hzero, eval_add σ hr, eval_scale σ hbp,
    eval_scale σ han]

/-! ## Exactness -/

/-- Each operation of a call is exact, or the call gives up what the operation was for: a premise
    that overflows is skipped, a goal or a combination that overflows is not proved. -/
structure OverflowFree (ctx : ExprCtx) (assumptions : List ExprId) (goal : ExprId) : Prop where
  reads : ∀ {e l}, linearize ctx e = some l → ∀ {σ}, IntReading ctx σ → l.eval σ = σ e
  constrains : ∀ {e truth cs}, constraintsOf ctx e truth = some cs → ∀ {σ}, IntReading ctx σ →
    ((∀ c ∈ cs, c.eval σ ≤ 0) ↔ IntTruth ctx σ (e + 1) e truth)
  unread : constraintsOf ctx goal false = none → proveImplies ctx assumptions goal = some false
  negates : ∀ {v p n rest next}, Reaches ctx assumptions goal (.pairs v ((p, n) :: rest) next) →
    wrappingNeg (n.coeffOf v) = -n.coeffOf v
  combines : ∀ {v p n rest next}, Reaches ctx assumptions goal (.pairs v ((p, n) :: rest) next) →
    ∀ {c}, combine v p n = some c → ∀ σ,
      c.eval σ = -n.coeffOf v * p.eval σ + p.coeffOf v * n.eval σ
  bails : ∀ {v p n rest next}, Reaches ctx assumptions goal (.pairs v ((p, n) :: rest) next) →
    combine v p n = none → proveImplies ctx assumptions goal = some false
  returns : ∃ r, proveImpliesStrict ctx assumptions goal = .ok (some r) ∧
    proveImplies ctx assumptions goal = some r

theorem feasibleStrict_of_returns {cs : List Linear} {r : Bool}
    (h : (feasibleStrict cs).map (Option.map (!·)) = .ok (some r)) :
    ∃ b, feasibleStrict cs = .ok (some b) := by
  cases hs : feasibleStrict cs with
  | error o =>
    rw [hs] at h
    exact absurd h (by simp [Except.map])
  | ok x =>
    cases x with
    | none =>
      rw [hs] at h
      exact absurd h (by simp [Except.map])
    | some b => exact ⟨b, rfl⟩

/-- **The arithmetic is exact, or the procedure gives up, if and only if** no combination it reaches
    has `i128::MIN` as the coefficient it negates. -/
theorem overflowFree_iff (ctx : ExprCtx) (assumptions : List ExprId) (goal : ExprId) :
    OverflowFree ctx assumptions goal ↔
      ∀ v p n rest next, Reaches ctx assumptions goal (.pairs v ((p, n) :: rest) next) →
        n.coeffOf v ≠ i128Min := by
  constructor
  · intro h v p n rest next ⟨cs, hcs, hreach⟩ hmin
    obtain ⟨r, hr, -⟩ := h.returns
    rw [proveImpliesStrict, hcs] at hr
    obtain ⟨b, hb⟩ := feasibleStrict_of_returns hr
    exact outcome_of_min hreach hmin _ b hb
  · intro h
    have hgood : ∀ cs, systemOf ctx assumptions goal = some cs → NegatesInRange (.round cs) :=
      fun cs hcs v p n rest next hreach => h v p n rest next ⟨cs, hcs, hreach⟩
    have hunread : constraintsOf ctx goal false = none →
        proveImplies ctx assumptions goal = some false := by
      intro hnone
      rw [proveImplies, hnone]
    constructor
    · exact fun hl _ hσ => linearizeFuel_exact hσ _ hl
    · exact fun hcs _ hσ => constraintsFuel_exact hσ _ hcs
    · exact hunread
    · intro v p n rest next hreach
      rw [wrappingNeg, if_neg (h v p n rest next hreach)]
    · intro v p n rest next hreach c hc
      exact combine_eval hc (h v p n rest next hreach)
    · intro v p n rest next hreach hnone
      have hne := h v p n rest next hreach
      obtain ⟨cs, hcs, hreach⟩ := hreach
      obtain ⟨b, hb, -⟩ := feasible_spec cs
      have hstrict : feasibleStrict cs = .ok (some b) := by
        rw [← hb]
        exact feasibleStrictFuel_eq _ (hgood cs hcs)
      have hstop : combineStrict v p n = .ok none := by rw [combineStrict_fits hne, hnone]
      obtain rfl : b = true := outcome_of_none hreach hstop hstrict
      rw [proveImplies_eq, hcs]
      simp only [hb, Option.map_some, Bool.not_true]
    · rw [proveImplies_eq, proveImpliesStrict]
      cases hcs : systemOf ctx assumptions goal with
      | none => exact ⟨false, rfl, rfl⟩
      | some cs =>
        obtain ⟨b, hb, -⟩ := feasible_spec cs
        have hstrict : feasibleStrict cs = .ok (some b) := by
          rw [← hb]
          exact feasibleStrictFuel_eq _ (hgood cs hcs)
        refine ⟨!b, ?_, ?_⟩
        · simp only [hstrict]
          rfl
        · simp only [hb, Option.map_some]

/-- `x < z`, `2^127 · x < y` and `y < z`, signed, on 128 bits. -/
def leastCtx : ExprCtx := ⟨[(.sym "x" 128, 128), (.sym "y" 128, 128), (.sym "z" 128, 128),
  (.const ⟨128, 2 ^ 127, by decide, by decide, by decide⟩, 128), (.bin .mul 0 3, 128),
  (.cmp .slt 0 2, 1), (.cmp .slt 4 1, 1), (.cmp .slt 1 2, 1)]⟩

theorem leastCtx_built : leastCtx.Built := by
  have hx : ExprCtx.Built ⟨leastCtx.nodes.take 1⟩ := .symbol "x" 128 .empty rfl
  have hy : ExprCtx.Built ⟨leastCtx.nodes.take 2⟩ := .symbol "y" 128 hx rfl
  have hz : ExprCtx.Built ⟨leastCtx.nodes.take 3⟩ := .symbol "z" 128 hy rfl
  have hc : ExprCtx.Built ⟨leastCtx.nodes.take 4⟩ :=
    .constant ⟨128, 2 ^ 127, by decide, by decide, by decide⟩ hz rfl
  have hmul : ExprCtx.Built ⟨leastCtx.nodes.take 5⟩ :=
    .bin .mul hc (a := 0) (b := 3) (by decide) (by decide) rfl
  have hlow : ExprCtx.Built ⟨leastCtx.nodes.take 6⟩ :=
    .cmp .slt hmul (a := 0) (b := 2) (by decide) (by decide) rfl
  have hbound : ExprCtx.Built ⟨leastCtx.nodes.take 7⟩ :=
    .cmp .slt hlow (a := 4) (b := 1) (by decide) (by decide) rfl
  exact .cmp .slt hbound (a := 1) (b := 2) (by decide) (by decide) rfl

/-- Eliminating `x` negates the coefficient of `2^127 · x`, which reads as `i128::MIN`. -/
theorem proveImplies_overflows : leastCtx.Built ∧
    proveImpliesStrict leastCtx [5, 6] 7 = .error ⟨⟩ ∧ ¬OverflowFree leastCtx [5, 6] 7 := by
  have hrun : proveImpliesStrict leastCtx [5, 6] 7 = .error ⟨⟩ := by decide +kernel
  refine ⟨leastCtx_built, hrun, fun h => ?_⟩
  obtain ⟨r, hr, -⟩ := h.returns
  rw [hrun] at hr
  exact absurd hr (by simp)

end Linear

end Csolver
