import Csolver.Solver.Bitprecise
import Csolver.Solver.BuildRuns
import Csolver.Solver.Linear
import Csolver.Symbolic.Relevant
import Mathlib.Data.List.AList

/-!
# The verdicts of the executor (`solver/src/lib.rs`, `exec/decide.rs`, `branch_infeasible` of `exec/mergecore.rs`)

A goal is asked under the assumptions in its cone, with the linear procedure first. The answers are cached while the
arena grows, and `linear-no-overflow` is recorded when an answer rests on it. What is not proved may be refuted.
-/

namespace Csolver.ExprCtx

open Core (Rounding)
open Sat.Bitprecise (Assignment Describes proveImpliesBudget proveImpliesBudget_spec)

inductive ProofMethod where
  | linear
  | bitPrecise
  deriving DecidableEq

def refineBudget : Nat := 3000

def fallbackBudget : Nat := 200000

/-- `prove_implies_method`; the outer `none` would be a search that never ends. -/
def proveImpliesMethod (rd : Rounding) (expired : Nat → Bool) (c : ExprCtx) (assumptions : List ExprId)
    (goal : ExprId) : Option (Option ProofMethod) := do
  if ← Linear.proveImplies c assumptions goal then
    let exact ← proveImpliesBudget rd expired c assumptions goal refineBudget
    return some (if exact then .bitPrecise else .linear)
  else
    let exact ← proveImpliesBudget rd expired c assumptions goal fallbackBudget
    return if exact then some .bitPrecise else none

/-- What the executor keeps for its queries; the flag says that `linear-no-overflow` is among its assumptions. -/
structure Queries where
  ctx : ExprCtx
  proveCache : AList fun _ : List ExprId × ExprId => Option ProofMethod
  linearNoOverflow : Bool

namespace Queries

variable (rd : Rounding) (expired : Nat → Bool)

/-- The method for a question, which is in the cache afterwards. -/
def method (assumptions : List ExprId) (goal : ExprId) (q : Queries) : Option (Option ProofMethod × Queries) :=
  match q.proveCache.lookup (assumptions, goal) with
  | some m => some (m, q)
  | none => (proveImpliesMethod rd expired q.ctx assumptions goal).map fun m =>
    (m, { q with proveCache := q.proveCache.insert (assumptions, goal) m })

/-- `prove`, on a path with these conditions and facts. -/
def prove (all : List ExprId) (goal : ExprId) (q : Queries) : Option (Bool × Queries) := do
  let assumptions ← q.ctx.relevantAssumptions goal all
  let (m, q) ← q.method rd expired assumptions goal
  match m with
  | some .bitPrecise => return (true, q)
  | some .linear => return (true, { q with linearNoOverflow := true })
  | none => return (false, q)

/-- `branch_infeasible`. -/
def branchInfeasible (all : List ExprId) (cond : ExprId) (q : Queries) : Option (Bool × Queries) := do
  let (notCond, ctx) ← ExprCtx.not cond q.ctx
  let dead ← Sat.Bitprecise.proveImplies rd expired ctx (ctx.branchAssumptions cond all) notCond
  return (dead, { q with ctx := ctx })

inductive RefuteMode where
  | off
  | definite
  | possible
  deriving DecidableEq

inductive Decision where
  | proven
  | refuted (model : List Assignment)
  | unknown

def Decision.isRefuted : Decision → Bool
  | .refuted _ => true
  | _ => false

/-- `conjuncts.iter().all(..)`, with a clock for each goal. -/
def proveAll (expired : ExprId → Nat → Bool) (all : List ExprId) : List ExprId → Queries → Option (Bool × Queries)
  | [], q => some (true, q)
  | g :: gs, q => do
    let (yes, q) ← q.prove rd (expired g) all g
    if yes then proveAll expired all gs q else return (false, q)

/-- `try_refute`. -/
def tryRefute (expired' : Nat → Bool) (conjuncts all : List ExprId) (mode : RefuteMode) (extra : List ExprId)
    (q : Queries) : Option (Option (List Assignment) × Queries) := do
  let (goal, ctx) ← (if conjuncts.length = 1 then some (conjuncts.headD 0, q.ctx) else ExprCtx.and conjuncts q.ctx)
  let (notGoal, ctx) ← ExprCtx.not goal ctx
  let never ← (if mode = .definite then Sat.Bitprecise.proveImplies rd expired ctx (all ++ extra) notGoal else some true)
  let model ← (if never then Sat.Bitprecise.findCounterexample rd expired' ctx (all ++ extra) goal else some none)
  return (model, { q with ctx := ctx })

/-- `decide`. Whether the path and the leaves of the goal let it be refuted is `gate`. -/
def decide (clock : ExprId → Nat → Bool) (expired expired' : Nat → Bool) (conjuncts all : List ExprId)
    (mode : RefuteMode) (gate : Bool) (extra : List ExprId) (q : Queries) : Option (Decision × Queries) := do
  let (yes, q) ← proveAll rd clock all conjuncts q
  if yes then return (.proven, q)
  if mode ≠ .off ∧ gate then
    match ← q.tryRefute rd expired expired' conjuncts all mode extra with
    | (some model, q) => return (.refuted model, q)
    | (none, q) => return (.unknown, q)
  return (.unknown, q)

end Queries

/-! ## What an answer promises -/

/-- The goal holds under the assumptions where no quantity in them wraps. -/
def TamelyEntails (c : ExprCtx) (assumptions : List ExprId) (goal : ExprId) : Prop :=
  ∀ ρ, (∀ a ∈ assumptions, Linear.Tame ρ (c.expr a)) → Linear.Tame ρ (c.expr goal) → c.Assumed assumptions ρ →
    (c.expr goal).Holds ρ

def Promises (c : ExprCtx) (assumptions : List ExprId) (goal : ExprId) : ProofMethod → Prop
  | .bitPrecise => c.Entails assumptions goal
  | .linear => c.TamelyEntails assumptions goal

section

variable {c d : ExprCtx} {assumptions all : List ExprId} {goal : ExprId} {m : ProofMethod}

theorem Promises.linear (h : c.Promises assumptions goal m) : c.TamelyEntails assumptions goal := by
  cases m with
  | linear => exact h
  | bitPrecise => exact fun ρ _ _ hρ => h ρ hρ

theorem Promises.mono (h : c.Promises assumptions goal m) (hsub : ∀ a ∈ assumptions, a ∈ all) :
    c.Promises all goal m := by
  cases m with
  | linear => exact fun ρ htame hgoal hρ => h ρ (fun a ha => htame a (hsub a ha)) hgoal fun a ha => hρ a (hsub a ha)
  | bitPrecise => exact fun ρ hρ => h ρ fun a ha => hρ a (hsub a ha)

theorem Promises.congr (h : c.Promises assumptions goal m) (has : ∀ a ∈ assumptions, d.expr a = c.expr a)
    (hgoal : d.expr goal = c.expr goal) : d.Promises assumptions goal m := by
  have hassumed : ∀ ρ, d.Assumed assumptions ρ → c.Assumed assumptions ρ := fun ρ hρ a ha => has a ha ▸ hρ a ha
  cases m with
  | linear =>
    intro ρ htame htgoal hρ
    rw [hgoal] at htgoal ⊢
    exact h ρ (fun a ha => has a ha ▸ htame a ha) htgoal (hassumed ρ hρ)
  | bitPrecise =>
    intro ρ hρ
    rw [hgoal]
    exact h ρ (hassumed ρ hρ)

theorem proveImpliesMethod_spec (hc : c.Built) (has : ∀ a ∈ assumptions, a < c.len) (hgoal : goal < c.len)
    (rd : Rounding) (expired : Nat → Bool) :
    ∃ r, proveImpliesMethod rd expired c assumptions goal = some r ∧ ∀ m, r = some m → c.Promises assumptions goal m := by
  obtain ⟨l, hl, hlinear⟩ := Linear.proveImplies_spec hc.ok has hgoal
  rw [proveImpliesMethod, hl]
  cases l with
  | true =>
    obtain ⟨b, hb, hexact⟩ := proveImpliesBudget_spec hc has hgoal rd expired refineBudget
    refine ⟨some (if b then .bitPrecise else .linear), by simp [hb], ?_⟩
    rintro m ⟨⟩
    cases b with
    | true => exact hexact rfl
    | false => exact hlinear rfl
  | false =>
    obtain ⟨b, hb, hexact⟩ := proveImpliesBudget_spec hc has hgoal rd expired fallbackBudget
    refine ⟨if b then some .bitPrecise else none, by simp [hb], fun m hm => ?_⟩
    cases b with
    | true =>
      obtain rfl := Option.some.inj hm
      exact hexact rfl
    | false => exact absurd hm (by simp)

theorem mem_of_mem_branchAssumptions {cond a : ExprId} (h : a ∈ c.branchAssumptions cond all) : a ∈ all := by
  rw [branchAssumptions] at h
  split at h
  · exact absurd h List.not_mem_nil
  · exact h

end

/-! ## Runs -/

namespace Queries

/-- A question that was answered with yes. -/
inductive Answer where
  | proved (all : List ExprId) (goal : ExprId)
  | infeasible (all : List ExprId) (cond : ExprId)

/-- The states of the executor, with the questions answered with yes so far. Between the queries the arena grows. -/
inductive Run (rd : Rounding) : Queries → List Answer → Prop where
  | start : Run rd ⟨empty, ∅, false⟩ []
  | grow {q : Queries} {answers : List Answer} (ns : List (Node × Nat)) : Run rd q answers →
      Built ⟨q.ctx.nodes ++ ns⟩ → Typed ⟨q.ctx.nodes ++ ns⟩ →
      Run rd { q with ctx := ⟨q.ctx.nodes ++ ns⟩ } answers
  | prove {q q' : Queries} {answers : List Answer} {expired : Nat → Bool} {all : List ExprId} {goal : ExprId}
      {yes : Bool} : Run rd q answers → (∀ a ∈ all, a < q.ctx.len) → goal < q.ctx.len →
      q.prove rd expired all goal = some (yes, q') → Run rd q' (if yes then .proved all goal :: answers else answers)
  | branch {q q' : Queries} {answers : List Answer} {expired : Nat → Bool} {all : List ExprId} {cond : ExprId}
      {yes : Bool} : Run rd q answers → (∀ a ∈ all, a < q.ctx.len) → cond < q.ctx.len → q.ctx.width cond = 1 →
      q.branchInfeasible rd expired all cond = some (yes, q') →
      Run rd q' (if yes then .infeasible all cond :: answers else answers)

/-- An answer is right, under `linear-no-overflow` only where that is recorded. -/
def Answer.Right (q : Queries) : Answer → Prop
  | .proved all goal => ((∀ a ∈ all, a < q.ctx.len) ∧ goal < q.ctx.len) ∧ q.ctx.TamelyEntails all goal ∧
    (q.linearNoOverflow = false → q.ctx.Entails all goal)
  | .infeasible all cond => ((∀ a ∈ all, a < q.ctx.len) ∧ cond < q.ctx.len) ∧ q.ctx.Excludes all cond

/-- What holds between two queries. -/
structure Ok (q : Queries) (answers : List Answer) : Prop where
  built : q.ctx.Built
  typed : q.ctx.Typed
  cached : ∀ as goal m, q.proveCache.lookup (as, goal) = some (some m) →
    ((∀ a ∈ as, a < q.ctx.len) ∧ goal < q.ctx.len) ∧ q.ctx.Promises as goal m ∧
      (m = .linear → q.linearNoOverflow = true)
  right : ∀ a ∈ answers, a.Right q

section

variable {q q' : Queries} {answers : List Answer} {all : List ExprId} {goal : ExprId}

theorem Ok.grow (h : q.Ok answers) {d : ExprCtx} (hbuilt : d.Built) (htyped : d.Typed)
    (hd : ∃ ns, d = ⟨q.ctx.nodes ++ ns⟩) : Ok { q with ctx := d } answers := by
  have hexpr : ∀ x < q.ctx.len, d.expr x = q.ctx.expr x := by
    obtain ⟨ns, rfl⟩ := hd
    exact fun x => expr_append h.built.ok hbuilt.ok x
  have hlen : q.ctx.len ≤ d.len := by
    obtain ⟨ns, rfl⟩ := hd
    simp [len]
  have hhandles {as : List ExprId} {goal : ExprId} (hlt : (∀ a ∈ as, a < q.ctx.len) ∧ goal < q.ctx.len) :
      (∀ a ∈ as, a < d.len) ∧ goal < d.len :=
    ⟨fun a ha => Nat.lt_of_lt_of_le (hlt.1 a ha) hlen, Nat.lt_of_lt_of_le hlt.2 hlen⟩
  have hpromises {as : List ExprId} {goal : ExprId} {m : ProofMethod}
      (hlt : (∀ a ∈ as, a < q.ctx.len) ∧ goal < q.ctx.len) (hp : q.ctx.Promises as goal m) : d.Promises as goal m :=
    hp.congr (fun a ha => hexpr a (hlt.1 a ha)) (hexpr goal hlt.2)
  refine ⟨hbuilt, htyped, fun as goal m hm => ?_, fun a ha => ?_⟩
  · obtain ⟨hlt, hp, hflag⟩ := h.cached as goal m hm
    exact ⟨hhandles hlt, hpromises hlt hp, hflag⟩
  · cases a with
    | proved all goal =>
      obtain ⟨hlt, htame, hent⟩ := h.right _ ha
      exact ⟨hhandles hlt, hpromises (m := .linear) hlt htame, fun hf => hpromises (m := .bitPrecise) hlt (hent hf)⟩
    | infeasible all cond =>
      obtain ⟨hlt, hex⟩ := h.right _ ha
      refine ⟨hhandles hlt, fun ρ hρ => ?_⟩
      show ¬ (d.expr cond).Holds ρ
      rw [hexpr cond hlt.2]
      exact hex ρ fun a ha => hexpr a (hlt.1 a ha) ▸ hρ a ha

/-- A method that is returned keeps its promise, from the cache or not, and nothing else is new in the cache. -/
theorem Ok.method (h : q.Ok answers) (hall : ∀ a ∈ all, a < q.ctx.len) (hgoal : goal < q.ctx.len) (rd : Rounding)
    (expired : Nat → Bool) :
    ∃ r cache, q.method rd expired all goal = some (r, { q with proveCache := cache }) ∧
      (∀ m, r = some m → q.ctx.Promises all goal m) ∧
      ∀ as g m, cache.lookup (as, g) = some (some m) →
        q.proveCache.lookup (as, g) = some (some m) ∨ as = all ∧ g = goal ∧ r = some m := by
  rw [Queries.method]
  cases hlook : q.proveCache.lookup (all, goal) with
  | some r =>
    refine ⟨r, q.proveCache, rfl, ?_, fun _ _ _ hm => .inl hm⟩
    rintro m rfl
    exact (h.cached all goal m hlook).2.1
  | none =>
    obtain ⟨r, hr, hpromises⟩ := proveImpliesMethod_spec h.built hall hgoal rd expired
    refine ⟨r, q.proveCache.insert (all, goal) r, by simp [hr], hpromises, fun as g m hm => ?_⟩
    by_cases hkey : (as, g) = (all, goal)
    · rw [hkey, AList.lookup_insert, Option.some.injEq] at hm
      obtain ⟨rfl, rfl⟩ := Prod.mk.inj hkey
      exact .inr ⟨rfl, rfl, hm⟩
    · rw [AList.lookup_insert_ne hkey] at hm
      exact .inl hm

theorem Ok.prove (h : q.Ok answers) (hall : ∀ a ∈ all, a < q.ctx.len) (hgoal : goal < q.ctx.len) (rd : Rounding)
    (expired : Nat → Bool) :
    ∃ yes q', q.prove rd expired all goal = some (yes, q') ∧ q'.ctx = q.ctx ∧
      q'.Ok (if yes then .proved all goal :: answers else answers) := by
  obtain ⟨kept, _, hkept, hcut, -⟩ := relevantAssumptions_cut h.built goal hall
  have hlt : ∀ a ∈ kept, a < q.ctx.len := fun a ha => hall a (hcut.sub a ha)
  obtain ⟨r, cache, hr, hpromises, hcache⟩ := h.method hlt hgoal rd expired
  -- with the flag that the answer asks for
  have hok (flag : Bool) (hold : q.linearNoOverflow = true → flag = true) (hnew : r = some .linear → flag = true) :
      Ok ⟨q.ctx, cache, flag⟩ answers := by
    refine ⟨h.built, h.typed, fun as g m hm => ?_, fun a ha => ?_⟩
    · rcases hcache as g m hm with hm | ⟨rfl, rfl, rfl⟩
      · obtain ⟨hlt, hp, hflag⟩ := h.cached as g m hm
        exact ⟨hlt, hp, fun hlinear => hold (hflag hlinear)⟩
      · exact ⟨⟨hlt, hgoal⟩, hpromises m rfl, fun hlinear => hnew (congrArg some hlinear)⟩
    · cases a with
      | proved all goal =>
        obtain ⟨hlt, htame, hent⟩ := h.right _ ha
        exact ⟨hlt, htame, fun hf => hent (Bool.eq_false_iff.mpr fun ht => Bool.eq_false_iff.mp hf (hold ht))⟩
      | infeasible all cond => exact h.right _ ha
  have hproved (flag : Bool) (hflag : Ok ⟨q.ctx, cache, flag⟩ answers) {m : ProofMethod} (hm : r = some m)
      (hexact : flag = false → m = .bitPrecise) : Ok ⟨q.ctx, cache, flag⟩ (.proved all goal :: answers) := by
    refine { hflag with right := fun a ha => ?_ }
    rcases List.mem_cons.mp ha with rfl | ha
    · have hp := (hpromises m hm).mono hcut.sub
      refine ⟨⟨hall, hgoal⟩, hp.linear, fun hf => ?_⟩
      obtain rfl := hexact hf
      exact hp
    · exact hflag.right a ha
  rw [Queries.prove, hkept]
  simp only [Option.bind_eq_bind, Option.bind_some, hr]
  cases hm : r with
  | none =>
    refine ⟨false, _, rfl, rfl, hok _ id fun hlinear => ?_⟩
    rw [hm] at hlinear
    cases hlinear
  | some m =>
    cases m with
    | linear =>
      exact ⟨true, _, rfl, rfl, hproved true (hok true (fun _ => rfl) fun _ => rfl) hm fun hf => absurd hf (by simp)⟩
    | bitPrecise =>
      refine ⟨true, _, rfl, rfl, hproved _ (hok _ id fun hlinear => ?_) hm fun _ => rfl⟩
      rw [hm] at hlinear
      cases hlinear

theorem Ok.branch (h : q.Ok answers) (hall : ∀ a ∈ all, a < q.ctx.len) {cond : ExprId} (hcond : cond < q.ctx.len)
    (hw : q.ctx.width cond = 1) (rd : Rounding) (expired : Nat → Bool) :
    ∃ yes q', q.branchInfeasible rd expired all cond = some (yes, q') ∧
      q'.Ok (if yes then .infeasible all cond :: answers else answers) := by
  have hsays : q.ctx.Says cond fun ρ => (q.ctx.expr cond).Holds ρ := ⟨hcond, hw, fun _ => Iff.rfl⟩
  obtain ⟨notCond, d, hnot, hlater, hsays'⟩ := not_gives (W := 0) h.built h.typed hsays
  obtain ⟨ns, hns, -⟩ := hlater.added
  have hall' : ∀ a ∈ all, a < d.len := fun a ha => Nat.lt_of_lt_of_le (hall a ha) hlater.len_le
  have hgrown := h.grow hlater.built hlater.typed ⟨ns, hns⟩
  obtain ⟨dead, hdead, hsound⟩ := proveImpliesBudget_spec hlater.built
    (fun a ha => hall' a (mem_of_mem_branchAssumptions ha)) hsays'.lt rd expired Sat.defaultBudget
  refine ⟨dead, { q with ctx := d }, ?_, ?_⟩
  · rw [branchInfeasible, hnot]
    simp only [Option.bind_eq_bind, Option.bind_some, Sat.Bitprecise.proveImplies]
    rw [hdead]
    rfl
  · cases dead with
    | false => exact hgrown
    | true =>
      refine { hgrown with right := fun a ha => ?_ }
      rcases List.mem_cons.mp ha with rfl | ha
      · refine ⟨⟨hall', Nat.lt_of_lt_of_le hcond hlater.len_le⟩, fun ρ hρ => ?_⟩
        show ¬ (d.expr cond).Holds ρ
        rw [hlater.expr h.built hcond]
        exact (hsays'.holds ρ).mp (hsound rfl ρ fun a ha => hρ a (mem_of_mem_branchAssumptions ha))
      · exact hgrown.right a ha

theorem Run.ok {rd : Rounding} (h : Run rd q answers) : q.Ok answers := by
  induction h with
  | start =>
    refine ⟨.empty, fun i hi => absurd hi (Nat.not_lt_zero i), fun as g m hm => ?_, fun a ha => absurd ha List.not_mem_nil⟩
    rw [AList.lookup_empty] at hm
    cases hm
  | grow ns _ hbuilt htyped ih => exact ih.grow hbuilt htyped ⟨ns, rfl⟩
  | prove _ hall hgoal hq ih =>
    obtain ⟨yes, q', hq', -, hok⟩ := ih.prove hall hgoal _ _
    obtain ⟨rfl, rfl⟩ := Prod.mk.inj (Option.some.inj (hq.symm.trans hq'))
    exact hok
  | branch _ hall hcond hw hq ih =>
    obtain ⟨yes, q', hq', hok⟩ := ih.branch hall hcond hw _ _
    obtain ⟨rfl, rfl⟩ := Prod.mk.inj (Option.some.inj (hq.symm.trans hq'))
    exact hok

/-- What a verdict says of the arena it leaves. -/
def Decision.Right (q : Queries) (conjuncts all : List ExprId) (mode : RefuteMode) (extra : List ExprId) :
    Decision → Prop
  | .proven => ∀ g ∈ conjuncts, q.ctx.TamelyEntails all g ∧ (q.linearNoOverflow = false → q.ctx.Entails all g)
  | .refuted model => (∃ ρ, Describes ρ model) ∧
    (∀ ρ, Describes ρ model → q.ctx.Assumed (all ++ extra) ρ ∧ ∃ g ∈ conjuncts, ¬(q.ctx.expr g).Holds ρ) ∧
    (mode = .definite → ∀ ρ, q.ctx.Assumed (all ++ extra) ρ → ∃ g ∈ conjuncts, ¬(q.ctx.expr g).Holds ρ)
  | .unknown => True

variable {rd : Rounding} {conjuncts extra : List ExprId} {mode : RefuteMode}

theorem Run.proveAll (h : Run rd q answers) (hall : ∀ a ∈ all, a < q.ctx.len)
    (hconj : ∀ g ∈ conjuncts, g < q.ctx.len) (clock : ExprId → Nat → Bool) :
    ∃ yes q' answers', proveAll rd clock all conjuncts q = some (yes, q') ∧ Run rd q' answers' ∧ q'.ctx = q.ctx ∧
      (∀ a ∈ answers, a ∈ answers') ∧ (yes = true → ∀ g ∈ conjuncts, .proved all g ∈ answers') := by
  induction conjuncts generalizing q answers with
  | nil => exact ⟨true, q, answers, rfl, h, rfl, fun _ ha => ha, fun _ g hg => absurd hg List.not_mem_nil⟩
  | cons g gs ih =>
    obtain ⟨yes, q₁, hq₁, hctx, -⟩ := h.ok.prove hall (hconj g List.mem_cons_self) rd (clock g)
    have hrun := Run.prove h hall (hconj g List.mem_cons_self) hq₁
    cases yes with
    | false => exact ⟨false, q₁, answers, by simp [Queries.proveAll, hq₁], hrun, hctx, fun _ ha => ha, by simp⟩
    | true =>
      obtain ⟨yes, q', answers', hq', hrun', hctx', hkeep, hproved⟩ := ih hrun (hctx ▸ hall)
        fun x hx => hctx ▸ hconj x (List.mem_cons_of_mem _ hx)
      refine ⟨yes, q', answers', by simp [Queries.proveAll, hq₁, hq'], hrun', hctx'.trans hctx,
        fun a ha => hkeep a (List.mem_cons_of_mem _ ha), fun hyes x hx => ?_⟩
      rcases List.mem_cons.mp hx with rfl | hx
      · exact hkeep _ List.mem_cons_self
      · exact hproved hyes x hx

theorem goal_gives (hbuilt : q.ctx.Built) (htyped : q.ctx.Typed)
    (hconj : ∀ g ∈ conjuncts, g < q.ctx.len ∧ q.ctx.width g = 1) :
    ∃ goal d, (if conjuncts.length = 1 then some (conjuncts.headD 0, q.ctx) else ExprCtx.and conjuncts q.ctx) =
      some (goal, d) ∧ Later 0 q.ctx d ∧ d.Says goal fun ρ => ∀ g ∈ conjuncts, (q.ctx.expr g).Holds ρ := by
  split
  · next hone =>
    obtain ⟨g, rfl⟩ := List.length_eq_one_iff.mp hone
    obtain ⟨hlt, hw⟩ := hconj g List.mem_cons_self
    exact ⟨g, q.ctx, rfl, .refl hbuilt htyped, hlt, hw, fun ρ => by simp⟩
  · obtain ⟨goal, d, hd, hlater, hsays⟩ := (and_yields hbuilt htyped hconj).gives (.and q.ctx conjuncts (W := 0))
      (and_grows hbuilt.ok fun g hg => (hconj g hg).1) fun _ _ => .and hbuilt fun g hg => (hconj g hg).1
    refine ⟨goal, d, hd, hlater, hsays.lt, hsays.width, fun ρ => ?_⟩
    rw [Expr.Holds, hsays.value, ← Expr.Holds, holds_and_map]

theorem Ok.refute (h : q.Ok answers) (rd : Rounding) (mode : RefuteMode) (hall : ∀ a ∈ all ++ extra, a < q.ctx.len)
    (hconj : ∀ g ∈ conjuncts, g < q.ctx.len ∧ q.ctx.width g = 1) (expired expired' : Nat → Bool) :
    ∃ r ns, q.tryRefute rd expired expired' conjuncts all mode extra =
        some (r, { q with ctx := ⟨q.ctx.nodes ++ ns⟩ }) ∧ Built ⟨q.ctx.nodes ++ ns⟩ ∧ Typed ⟨q.ctx.nodes ++ ns⟩ ∧
      ∀ model, r = some model →
        Decision.Right { q with ctx := ⟨q.ctx.nodes ++ ns⟩ } conjuncts all mode extra (.refuted model) := by
  obtain ⟨goal, d, hd, hlater, hsays⟩ := goal_gives h.built h.typed hconj
  obtain ⟨notGoal, e, he, hlater', hnot⟩ := not_gives (W := 0) hlater.built hlater.typed hsays
  have hgoal := hlater'.meaning hlater.built hsays
  have hl := hlater.trans hlater'
  obtain ⟨ns, hns, -⟩ := hl.added
  have hbuilt := hlater'.built
  have hlt : ∀ a ∈ all ++ extra, a < e.len := fun a ha => Nat.lt_of_lt_of_le (hall a ha) hl.len_le
  have hfalse {ρ : Valuation} (hno : ¬∀ g ∈ conjuncts, (q.ctx.expr g).Holds ρ) :
      ∃ g ∈ conjuncts, ¬(e.expr g).Holds ρ := by
    by_contra hall'
    refine hno fun g hg => by_contra fun hg' => hall' ⟨g, hg, ?_⟩
    rwa [hl.expr h.built (hconj g hg).1]
  obtain ⟨never, hnever, hdefinite⟩ : ∃ b, (if mode = .definite then
      Sat.Bitprecise.proveImplies rd expired e (all ++ extra) notGoal else some true) = some b ∧
      (b = true → mode = .definite → ∀ ρ, e.Assumed (all ++ extra) ρ → (e.expr notGoal).Holds ρ) := by
    split
    · obtain ⟨b, hb, hsound⟩ := proveImpliesBudget_spec hbuilt hlt hnot.lt rd expired Sat.defaultBudget
      exact ⟨b, hb, fun hyes _ => hsound hyes⟩
    · next hmode => exact ⟨true, rfl, fun _ hm => absurd hm hmode⟩
  obtain ⟨r, hr, hmodel⟩ : ∃ r, (if never then
      Sat.Bitprecise.findCounterexample rd expired' e (all ++ extra) goal else some none) = some r ∧
      ∀ model, r = some model → never = true ∧ (∃ ρ, Describes ρ model) ∧ ∀ ρ, Describes ρ model →
        e.Assumed (all ++ extra) ρ ∧ (e.expr goal).eval ρ = 0 := by
    split
    · next hyes =>
      obtain ⟨r, hr, hsound⟩ := Sat.Bitprecise.findCounterexample_spec hbuilt hlt hgoal.lt rd expired'
      exact ⟨r, hr, fun model hm => ⟨hyes, hsound model hm⟩⟩
    · exact ⟨none, rfl, fun _ hm => absurd hm (by simp)⟩
  subst hns
  refine ⟨r, ns, ?_, hbuilt, hlater'.typed, fun model hm => ?_⟩
  · simp only [Queries.tryRefute, hd, he, Option.bind_eq_bind, Option.bind_some, hnever, hr]
    rfl
  · obtain ⟨hyes, hex, hdesc⟩ := hmodel model hm
    refine ⟨hex, fun ρ hρ => ⟨(hdesc ρ hρ).1, hfalse fun hconj => ?_⟩, fun hmode ρ hρ => hfalse ?_⟩
    · have hone : (Expr.eval ρ _) = 1 := (hgoal.holds ρ).mpr hconj
      rw [(hdesc ρ hρ).2] at hone
      cases hone
    · exact (hnot.holds ρ).mp (hdefinite hyes hmode ρ hρ)

end

open Sat.Bitprecise (boundsCtx boundsCtx_built)

theorem boundsCtx_typed : boundsCtx.Typed := by
  intro i hi
  match i, hi with
  | 0, _ | 1, _ | 2, _ | 3, _ | 4, _ => trivial

theorem boundsCtx_run : Run Rounding.exact ⟨boundsCtx, ∅, false⟩ [] :=
  .grow boundsCtx.nodes .start boundsCtx_built boundsCtx_typed

end Queries

end Csolver.ExprCtx
