import Csolver.Solver.SatSound

/-!
# The runs of `solve`

The main loop cut into steps: one at the head of the loop, one for each call of `propagate` in the
conflict loop. A step is `none` where the source would underflow an index or loop for good, and
`solve_within_budget` says that no run gets there.
-/

namespace Csolver.Sat

open Csolver.Lib Csolver.Core

namespace Solver

/-! ## Steps -/

/-- Where a call stands: at the head of the loop with the decisions left, before a propagation, or
    back at its caller. -/
inductive Phase where
  | head (budgetLeft : Nat) (s : Solver) (k : Clock)
  | propagating (budgetLeft : Nat) (s : Solver) (k : Clock)
  | returned (r : SatResult)

/-- Jump back, store the learnt clause and assert its head. -/
def assertLearnt (s : Solver) (learnt : List Lit) (btlevel lbd : Nat) : Solver :=
  let s := s.backtrackTo btlevel
  let (ci, s) := s.addLearnt learnt lbd
  let s := match (s.clause ci)[0]? with
    | some l => (s.enqueue l (some ci)).2
    | none => s
  { s with conflictsSinceRestart := s.conflictsSinceRestart + 1 }

/-- One pass over the head of the loop, up to the decision. -/
def stepHead (budgetLeft : Nat) (s : Solver) (k : Clock) : Phase :=
  let s := s.maybeRestart
  match s.pickBranch with
  | none => .returned (.sat s.model)
  | some v =>
    match budgetLeft with
    | 0 => .returned .unknown
    | budgetLeft + 1 =>
      match k.timedOut with
      | (true, _) => .returned .unknown
      | (false, k) => .propagating budgetLeft (s.decideVar v) k

/-- One propagation of the conflict loop, with the conflict it may end in. -/
def stepPropagating (rd : Rounding) (budgetLeft : Nat) (s : Solver) (k : Clock) : Option Phase :=
  match s.propagate with
  | none => none
  | some (s, none) => some (.head budgetLeft s k)
  | some (s, some confl) =>
    if s.trailLim = [] then some (.returned .unsat) else
    match k.timedOut with
    | (true, _) => some (.returned .unknown)
    | (false, k) =>
      match s.analyze rd confl with
      | none => none
      | some ((learnt, btlevel, lbd), s) =>
        some (.propagating budgetLeft (s.assertLearnt learnt btlevel lbd) k)

namespace Phase

def step (rd : Rounding) : Phase → Option Phase
  | .head b s k => some (stepHead b s k)
  | .propagating b s k => stepPropagating rd b s k
  | .returned r => some (.returned r)

/-- What `solve` does before its loop. -/
def start (numVars : Nat) (clauses : List (List Lit)) (budget : Nat) (expired : Nat → Bool) :
    Option Phase :=
  match seedUnits 0 clauses (Solver.new numVars clauses) with
  | none => some (.returned .unsat)
  | some s =>
    match s.propagate with
    | none => none
    | some (_, some _) => some (.returned .unsat)
    | some (s, none) => some (.head budget s ⟨expired, 0, 0⟩)

def decides : Phase → Phase → Nat
  | .head _ _ _, .propagating _ _ _ => 1
  | _, _ => 0

/-- The runs from a phase, with the number of decisions they take. -/
inductive Run (rd : Rounding) (w : Phase) : Nat → Phase → Prop
  | refl : Run rd w 0 w
  | tail {d u u'} : Run rd w d u → u.step rd = some u' → Run rd w (d + u.decides u') u'

theorem Run.trans {rd : Rounding} {w u x : Phase} {d e : Nat} (h₁ : Run rd w d u)
    (h₂ : Run rd u e x) : Run rd w (d + e) x := by
  induction h₂ with
  | refl => exact h₁
  | tail _ hstep ih =>
    rw [← Nat.add_assoc]
    exact ih.tail hstep

theorem Run.head {rd : Rounding} {w u x : Phase} {d : Nat} (hstep : w.step rd = some u)
    (h : Run rd u d x) : Run rd w (w.decides u + d) x := by
  have hone : Run rd w (0 + w.decides u) u := Run.refl.tail hstep
  rw [Nat.zero_add] at hone
  exact hone.trans h

end Phase

/-! ## Against the loops -/

open Phase

/-- How the conflict loop hands over. -/
def Outcome.phase (budgetLeft : Nat) : Outcome → Phase
  | .ret r => .returned r
  | .quiet s k => .head budgetLeft s k

theorem run_propagating {rd : Rounding} {b : Nat} {s : Solver} {k : Clock} {x : Phase}
    (h : stepPropagating rd b s k = some x) : Run rd (.propagating b s k) 0 x :=
  Run.refl.tail h

theorem run_conflictLoop (rd : Rounding) (b fuel : Nat) : ∀ {s : Solver} {k : Clock} {o : Outcome},
    conflictLoop rd fuel s k = some o → Run rd (.propagating b s k) 0 (o.phase b) := by
  induction fuel with
  | zero =>
    intro s k o h
    exact absurd h (by simp [conflictLoop])
  | succ fuel ih =>
    intro s k o h
    rw [conflictLoop] at h
    cases hp : s.propagate with
    | none =>
      rw [hp] at h
      exact absurd h (by simp)
    | some tr =>
      obtain ⟨t, r⟩ := tr
      rw [hp] at h
      cases r with
      | none =>
        rw [← Option.some.inj h]
        apply run_propagating
        rw [stepPropagating, hp]
        rfl
      | some confl =>
        simp only at h
        by_cases hz : t.trailLim = []
        · rw [if_pos hz] at h
          rw [← Option.some.inj h]
          apply run_propagating
          simp only [stepPropagating, hp, if_pos hz]
          rfl
        · rw [if_neg hz] at h
          cases hk : k.timedOut with
          | mk late k' =>
            rw [hk] at h
            cases late with
            | true =>
              rw [← Option.some.inj h]
              apply run_propagating
              simp only [stepPropagating, hp, if_neg hz, hk]
              rfl
            | false =>
              simp only at h
              cases ha : t.analyze rd confl with
              | none =>
                rw [ha] at h
                exact absurd h (by simp)
              | some res =>
                obtain ⟨⟨learnt, bt, lbd⟩, u⟩ := res
                rw [ha] at h
                have hstep : stepPropagating rd b s k =
                    some (.propagating b (u.assertLearnt learnt bt lbd) k') := by
                  simp only [stepPropagating, hp, if_neg hz, hk, ha]
                exact (run_propagating hstep).trans (ih h)

theorem run_solveLoop (rd : Rounding) (b : Nat) : ∀ {s : Solver} {k : Clock} {r : SatResult},
    solveLoop rd b s k = some r → ∃ d ≤ b, Run rd (.head b s k) d (.returned r) := by
  have returns : ∀ {b s k r}, stepHead b s k = .returned r →
      ∃ d ≤ b, Run rd (.head b s k) d (.returned r) := by
    intro b s k r h
    have hstep : (Phase.head b s k).step rd = some (.returned r) := by rw [Phase.step, h]
    exact ⟨0, Nat.zero_le b, Run.refl.tail hstep⟩
  induction b with
  | zero =>
    intro s k r h
    rw [solveLoop] at h
    apply returns
    cases hv : s.maybeRestart.pickBranch with
    | none =>
      rw [hv] at h
      simp only [stepHead, hv, Option.some.inj h]
    | some v =>
      rw [hv] at h
      simp only [stepHead, hv, Option.some.inj h]
  | succ b ih =>
    intro s k r h
    rw [solveLoop] at h
    cases hv : s.maybeRestart.pickBranch with
    | none =>
      rw [hv] at h
      apply returns
      simp only [stepHead, hv, Option.some.inj h]
    | some v =>
      rw [hv] at h
      simp only at h
      cases hk : k.timedOut with
      | mk late k' =>
        rw [hk] at h
        cases late with
        | true =>
          apply returns
          simp only [stepHead, hv, hk, Option.some.inj h]
        | false =>
          simp only at h
          have hstep : (Phase.head (b + 1) s k).step rd =
              some (.propagating b (s.maybeRestart.decideVar v) k') := by
            simp only [Phase.step, stepHead, hv, hk]
          cases hc : conflictLoop rd ((s.maybeRestart.decideVar v).decisionLevel + 1)
              (s.maybeRestart.decideVar v) k' with
          | none =>
            rw [hc] at h
            exact absurd h (by simp)
          | some o =>
            rw [hc] at h
            have hrun := Run.head hstep (run_conflictLoop rd b _ hc)
            cases o with
            | ret q =>
              rw [← Option.some.inj h]
              exact ⟨1, Nat.le_add_left 1 b, hrun⟩
            | quiet t k'' =>
              obtain ⟨d, hd, hrest⟩ := ih h
              refine ⟨1 + d, by omega, ?_⟩
              exact hrun.trans hrest

end Solver

/-! ## One conflict -/

open Solver

/-- What `analyze` delivers at a conflict. The clause is entailed by the store, every literal of it
    is false, one is of the current level, and the jump goes below that level. -/
structure Analyzed (rd : Rounding) (s : Solver) (confl : Nat) (learnt : List Lit) (bt lbd : Nat)
    (t : Solver) : Prop where
  returns : s.analyze rd confl = some ((learnt, bt, lbd), t)
  entails : Entails s.clauses learnt
  falsified : ∀ l ∈ learnt, s.litValue l = some false
  asserting : learnt.countP (fun l => s.level l.var = s.decisionLevel) = 1
  lt : bt < s.decisionLevel

theorem Core.entails_store {F : List (List Lit)} {s : Solver} (h : Core F s) {c : List Lit}
    (hc : Entails F c) : Entails s.clauses c := by
  intro m hm
  apply hc m
  intro f hf
  obtain ⟨i, hi⟩ := List.mem_iff_getElem?.mp hf
  obtain ⟨c', hci, hperm⟩ := h.original i f hi
  exact (clauseSat_perm hperm).mp (hm c' (List.mem_of_getElem? hci))

theorem LearntOk.asserting {F : List (List Lit)} {s : Solver} {a : Lit} {rest : List Lit} {bt : Nat}
    (h : LearntOk F s a rest bt) :
    (a :: rest).countP (fun l => s.level l.var = s.decisionLevel) = 1 := by
  have hrest : rest.countP (fun l => s.level l.var = s.decisionLevel) = 0 := by
    rw [List.countP_eq_zero]
    intro l hl
    have hle := (h.tail l hl).2.2
    have hlt := h.lt
    simp only [decide_eq_true_eq]
    omega
  rw [List.countP_cons_of_pos (by simpa using h.head.2), hrest]

theorem enqueue_trailLim (s : Solver) (l : Lit) (r : Option Nat) :
    (s.enqueue l r).2.trailLim = s.trailLim := by
  unfold enqueue
  cases s.assign l.var <;> rfl

theorem assertLearnt_level (s : Solver) (learnt : List Lit) {bt : Nat} (lbd : Nat)
    (h : bt < s.decisionLevel) : (s.assertLearnt learnt bt lbd).decisionLevel = bt := by
  have hback : (s.backtrackTo bt).trailLim = s.trailLim.take bt := by
    rw [backtrackTo, if_neg (Nat.not_le.mpr h)]
  have hlim : (s.assertLearnt learnt bt lbd).trailLim = (s.backtrackTo bt).trailLim := by
    simp only [assertLearnt]
    split
    · rw [enqueue_trailLim]
      rfl
    · rfl
  rw [decisionLevel, hlim, hback, List.length_take]
  exact Nat.min_eq_left (Nat.le_of_lt h)

theorem Conflict.analyzed {F : List (List Lit)} (rd : Rounding) {s : Solver} {confl : Nat}
    (h : Conflict F s confl) (hd : 0 < s.decisionLevel) (hseen : s.seen = fun _ => false)
    (hact : ∀ v, (s.activity v).NonNeg) (hinc : s.varInc.NonNeg) :
    ∃ learnt bt lbd t, Analyzed rd s confl learnt bt lbd t ∧ t.decisionLevel = s.decisionLevel := by
  obtain ⟨a, rest, bt, lbd, t, han, hok, act, inc, rfl, -⟩ := analyze_spec rd h hd hseen hact hinc
  refine ⟨a :: rest, bt, lbd, _, ⟨han, h.core.entails_store hok.entails, ?_, hok.asserting, hok.lt⟩, rfl⟩
  intro l hl
  rcases List.mem_cons.mp hl with rfl | hl
  · exact hok.head.1
  · exact (hok.tail l hl).1

/-! ## Every run -/

namespace Solver.Phase

/-- What holds at each phase of a call on `F` over `n` variables. -/
def Ok (F : List (List Lit)) (n : Nat) : Phase → Prop
  | .head _ s _ => Settled F n s
  | .propagating _ s _ => Inv F s ∧ s.numVars = n
  | .returned r => Verdict F n r

/-- The decisions a phase can still take. -/
def left : Phase → Nat
  | .head b _ _ => b
  | .propagating b _ _ => b
  | .returned _ => 0

theorem Ok.conflict {F : List (List Lit)} {n : Nat} (rd : Rounding) {b : Nat} {s t : Solver}
    {k : Clock} {confl : Nat} (h : (Phase.propagating b s k).Ok F n)
    (hp : s.propagate = some (t, some confl)) (hd : 0 < t.decisionLevel) :
    ∃ learnt bt lbd t', Analyzed rd t confl learnt bt lbd t' ∧
      (t'.assertLearnt learnt bt lbd).decisionLevel = bt ∧
      Inv F (t'.assertLearnt learnt bt lbd) ∧ (t'.assertLearnt learnt bt lbd).numVars = n ∧
      (k.timedOut.1 = true ∧ (Phase.propagating b s k).step rd = some (.returned .unknown) ∨
        k.timedOut.1 = false ∧ ∃ k', (Phase.propagating b s k).step rd =
          some (.propagating b (t'.assertLearnt learnt bt lbd) k')) := by
  obtain ⟨hinv, hn⟩ := h
  obtain ⟨hg, hconf, -⟩ := propagate_inv hinv hp
  have hc := hconf confl rfl
  have hseen := hg.seen.trans hinv.seen
  have hact : ∀ v, (t.activity v).NonNeg := fun v => hg.activity ▸ hinv.activity v
  have hinc : t.varInc.NonNeg := hg.varInc ▸ hinv.varInc
  obtain ⟨learnt, bt, lbd, t', han, hlevel⟩ := hc.analyzed rd hd hseen hact hinc
  obtain ⟨learnt₁, bt₁, lbd₁, t₁, hret, a, ha, hu, hnum, -⟩ :=
    hc.learn rd (hinv.units.grow hg) hd hseen hact hinc
  -- the two accounts are of the same call
  rw [han.returns] at hret
  simp only [Option.some.injEq, Prod.mk.injEq] at hret
  obtain ⟨⟨rfl, rfl, rfl⟩, rfl⟩ := hret
  have hassert : t'.assertLearnt learnt bt lbd =
      { (((t'.backtrackTo bt).addLearnt learnt lbd).2.enqueue a
          (some (t'.backtrackTo bt).clauses.length)).2 with
        conflictsSinceRestart := (((t'.backtrackTo bt).addLearnt learnt lbd).2.enqueue a
          (some (t'.backtrackTo bt).clauses.length)).2.conflictsSinceRestart + 1 } := by
    have hci : ((t'.backtrackTo bt).addLearnt learnt lbd).1 = (t'.backtrackTo bt).clauses.length :=
      rfl
    simp only [assertLearnt, hci, ha]
  have hz : t.trailLim ≠ [] := List.length_pos_iff.mp hd
  refine ⟨learnt, bt, lbd, t', han, assertLearnt_level _ _ _ (hlevel ▸ han.lt), ?_, ?_, ?_⟩
  · rw [hassert]
    exact hu.congr rfl
  · rw [hassert]
    exact hnum.trans (hg.numVars.trans hn)
  · simp only [Phase.step, stepPropagating, hp, if_neg hz]
    cases k.timedOut with
    | mk late k' =>
      cases late with
      | true => exact .inl ⟨rfl, rfl⟩
      | false =>
        simp only [han.returns]
        exact .inr ⟨trivial, k', rfl⟩

theorem Ok.head {F : List (List Lit)} {n : Nat} {b : Nat} {s : Solver} {k : Clock}
    (h : (Phase.head b s k).Ok F n) : (stepHead b s k).Ok F n ∧
      (Phase.head b s k).decides (stepHead b s k) + (stepHead b s k).left ≤ b := by
  have h' := maybeRestart_settled h
  cases hpick : s.maybeRestart.pickBranch with
  | none =>
    have hstep : stepHead b s k = .returned (.sat s.maybeRestart.model) := by
      simp only [stepHead, hpick]
    rw [hstep]
    exact ⟨h'.sat_verdict hpick, Nat.zero_le b⟩
  | some v =>
    cases b with
    | zero =>
      have hstep : stepHead 0 s k = .returned .unknown := by simp only [stepHead, hpick]
      rw [hstep]
      exact ⟨trivial, Nat.le_refl 0⟩
    | succ b =>
      cases hk : k.timedOut with
      | mk late k' =>
        cases late with
        | true =>
          have hstep : stepHead (b + 1) s k = .returned .unknown := by
            simp only [stepHead, hpick, hk]
          rw [hstep]
          exact ⟨trivial, Nat.zero_le _⟩
        | false =>
          have hstep : stepHead (b + 1) s k = .propagating b (s.maybeRestart.decideVar v) k' := by
            simp only [stepHead, hpick, hk]
          obtain ⟨hlt, hfree⟩ := pickBranch_some hpick
          have hnum : (s.maybeRestart.decideVar v).numVars = n := by
            rw [decideVar_eq hfree]
            exact h'.numVars
          rw [hstep]
          exact ⟨⟨h'.inv.decide h'.queue hfree hlt, hnum⟩, Nat.le_of_eq (Nat.add_comm 1 b)⟩

/-- **One step** never gets stuck, keeps what holds at a phase, and pays for its decision. -/
theorem Ok.step {F : List (List Lit)} {n : Nat} (rd : Rounding) {w : Phase} (h : w.Ok F n) :
    ∃ u, w.step rd = some u ∧ u.Ok F n ∧ w.decides u + u.left ≤ w.left := by
  cases w with
  | returned r => exact ⟨.returned r, rfl, h, Nat.le_refl 0⟩
  | head b s k => exact ⟨stepHead b s k, rfl, h.head⟩
  | propagating b s k =>
    obtain ⟨hinv, hn⟩ := id h
    obtain ⟨t, r, hp⟩ := propagate_isSome hinv
    obtain ⟨hg, hconf, hquiet⟩ := propagate_inv hinv hp
    cases r with
    | none =>
      obtain ⟨hinv', hq⟩ := hquiet rfl
      refine ⟨.head b t k, ?_, ⟨hinv', hq, hg.numVars.trans hn⟩, Nat.le_of_eq (Nat.zero_add b)⟩
      simp only [Phase.step, stepPropagating, hp]
    | some confl =>
      by_cases hz : t.trailLim = []
      · refine ⟨.returned .unsat, ?_, (hconf confl rfl).unsat hz, Nat.zero_le b⟩
        simp only [Phase.step, stepPropagating, hp, if_pos hz]
      · obtain ⟨learnt, bt, lbd, t', -, -, hinv', hn', hstep⟩ :=
          h.conflict rd hp (List.length_pos_iff.mpr hz)
        rcases hstep with ⟨-, hstep⟩ | ⟨-, k', hstep⟩
        · exact ⟨_, hstep, trivial, Nat.zero_le b⟩
        · exact ⟨_, hstep, ⟨hinv', hn'⟩, Nat.le_of_eq (Nat.zero_add b)⟩

theorem Ok.run {F : List (List Lit)} {n : Nat} {rd : Rounding} {w u : Phase} {d : Nat}
    (h : w.Ok F n) (hrun : Run rd w d u) : u.Ok F n ∧ d + u.left ≤ w.left := by
  induction hrun with
  | refl => exact ⟨h, Nat.le_of_eq (Nat.zero_add _)⟩
  | @tail d u u' _ hstep ih =>
    obtain ⟨hu, hle⟩ := ih
    obtain ⟨x, hx, hok, hpay⟩ := hu.step rd
    rw [hx] at hstep
    obtain rfl := Option.some.inj hstep
    refine ⟨hok, ?_⟩
    omega

end Solver.Phase

/-- Before the loop: the units are seeded and propagated, and `solve` goes on as the run does. -/
theorem start_spec {n : Nat} {F : List (List Lit)} (rd : Rounding)
    (hb : ∀ c ∈ F, ∀ l ∈ c, l.var < n) (budget : Nat) (expired : Nat → Bool) :
    ∃ w, Phase.start n F budget expired = some w ∧ w.Ok F n ∧ w.left ≤ budget ∧
      ∀ r, solve rd (Solver.new n F) budget expired = some r →
        ∃ d ≤ budget, Phase.Run rd w d (.returned r) := by
  have hseed := @seedUnits_spec F F [] _ 0 (List.nil_append F).symm hb (new_seeding hb)
  have hclauses : (Solver.new n F).clauses = F := rfl
  rw [Phase.start]
  simp only [solve, hclauses]
  cases hs : seedUnits 0 F (Solver.new n F) with
  | none =>
    rw [hs] at hseed
    refine ⟨.returned .unsat, rfl, hseed, Nat.zero_le _, fun r hr => ⟨0, Nat.zero_le _, ?_⟩⟩
    rw [← Option.some.inj hr]
    exact .refl
  | some s =>
    rw [hs] at hseed
    obtain ⟨hseeding, hnum⟩ := hseed
    obtain ⟨t, r, hp⟩ := propagate_isSome hseeding.inv
    obtain ⟨hg, hconf, hquiet⟩ := propagate_inv hseeding.inv hp
    simp only [hp]
    cases r with
    | some confl =>
      refine ⟨.returned .unsat, rfl, (hconf confl rfl).unsat ?_, Nat.zero_le _,
        fun r hr => ⟨0, Nat.zero_le _, ?_⟩⟩
      · rw [hg.trailLim]
        exact List.length_eq_zero_iff.mp hseeding.level
      · rw [← Option.some.inj hr]
        exact .refl
    | none =>
      obtain ⟨hinv', hq⟩ := hquiet rfl
      exact ⟨_, rfl, ⟨hinv', hq, hg.numVars.trans hnum⟩, Nat.le_refl _,
        fun r hr => run_solveLoop rd budget hr⟩

/-- **The solve loop ends within its budget.** For every clause list over `numVars` variables, every
    budget and clock, the call starts, some run of it reaches a verdict, which is the one `solve`
    returns, and every run takes at most `budget` decisions and never gets stuck: no propagation
    loops, no index of `analyze` and not its counter underflows. Every conflict above level 0 yields
    an entailed, falsified clause with one literal of the current level, and is followed by a jump
    to a strictly lower level, unless the wall clock ends the call there. -/
theorem solve_within_budget (rd : Rounding) (numVars : Nat) (clauses : List (List Lit))
    (hvars : ∀ c ∈ clauses, ∀ l ∈ c, l.var < numVars) (budget : Nat) (expired : Nat → Bool) :
    ∃ w, Phase.start numVars clauses budget expired = some w ∧
      (∃ r d, solve rd (Solver.new numVars clauses) budget expired = some r ∧ d ≤ budget ∧
        Phase.Run rd w d (.returned r)) ∧
      ∀ d u, Phase.Run rd w d u → d ≤ budget ∧ (∃ u', u.step rd = some u') ∧
        ∀ b s k t confl, u = .propagating b s k → s.propagate = some (t, some confl) →
          0 < t.decisionLevel → ∃ learnt bt lbd t', Analyzed rd t confl learnt bt lbd t' ∧
            (k.timedOut.1 = true ∧ u.step rd = some (.returned .unknown) ∨
              k.timedOut.1 = false ∧ ∃ s' k', u.step rd = some (.propagating b s' k') ∧
                s'.decisionLevel = bt) := by
  obtain ⟨w, hw, hok, hleft, hsolve⟩ := start_spec rd hvars budget expired
  obtain ⟨r, hr, -⟩ := solve_verdict rd hvars budget expired
  obtain ⟨d, hd, hrun⟩ := hsolve r hr
  refine ⟨w, hw, ⟨r, d, hr, hd, hrun⟩, fun d u hrun => ?_⟩
  obtain ⟨hu, hpaid⟩ := hok.run hrun
  obtain ⟨u', hstep, -⟩ := hu.step rd
  refine ⟨by omega, ⟨u', hstep⟩, ?_⟩
  intro b s k t confl he hp hd
  subst he
  obtain ⟨learnt, bt, lbd, t', han, hlevel, -, -, hnext⟩ := hu.conflict rd hp hd
  refine ⟨learnt, bt, lbd, t', han, ?_⟩
  rcases hnext with hnext | ⟨hk, k', hnext⟩
  · exact .inl hnext
  · exact .inr ⟨hk, _, k', hnext, hlevel⟩

/-- The four clauses over two variables are refuted within ten decisions. -/
theorem solve_within_budget_allPairs : ∃ w, Phase.start 2 allPairs 10 (fun _ => false) = some w ∧
    ∃ d ≤ 10, Phase.Run Rounding.exact w d (.returned .unsat) := by
  obtain ⟨w, hw, ⟨r, d, hr, hd, hrun⟩, -⟩ :=
    solve_within_budget Rounding.exact 2 allPairs (by decide) 10 fun _ => false
  rw [solve_allPairs] at hr
  rw [← Option.some.inj hr] at hrun
  exact ⟨w, hw, d, hd, hrun⟩

/-! ## A call that the wall clock ends

The clock is read at a decision or at a conflict, whichever is the 8192nd of them. Here it is a conflict:
the variables below the conflicting one occur in no clause and are decided first. -/

namespace Solver

open Phase

/-- Two clauses that refute the variable `n` and leave those below it free. -/
def lateConflict (n : Nat) : List (List Lit) := [[⟨n, true⟩, ⟨n + 1, false⟩], [⟨n, true⟩, ⟨n + 1, true⟩]]

/-- The first `k` variables are decided. -/
def decided (n k : Nat) : Solver :=
  { Solver.new (n + 2) (lateConflict n) with
    assign := fun v => if v < k then some true else none
    level := fun v => if v < k then v + 1 else 0
    trail := List.range k
    trailLim := List.range k }

theorem decided_zero (n : Nat) : decided n 0 = Solver.new (n + 2) (lateConflict n) := by
  unfold decided
  simp only [Nat.not_lt_zero, if_false, List.range_zero]
  rfl

theorem start_lateConflict (n budget : Nat) (expired : Nat → Bool) :
    Phase.start (n + 2) (lateConflict n) budget expired = some (.head budget (decided n 0) ⟨expired, 0, 0⟩) := by
  rw [decided_zero]
  rfl

theorem decided_watches {n k : Nat} (hk : k ≤ n) (m : Nat) :
    (decided n m).watches (2 * k + 1) = if k = n then [0, 1] else [] := by
  have hw : (decided n m).watches =
      pushWatch (pushWatch (pushWatch (pushWatch (fun _ => []) (2 * n + 1) 0) (2 * (n + 1)) 0) (2 * n + 1) 1)
        (2 * (n + 1) + 1) 1 := rfl
  have heven : 2 * k + 1 ≠ 2 * (n + 1) := by omega
  have hlast : 2 * k + 1 ≠ 2 * (n + 1) + 1 := by omega
  rw [hw]
  by_cases hkn : k = n
  · subst hkn
    generalize 2 * k + 1 = c at heven hlast ⊢
    simp [pushWatch, Function.update_apply, heven, hlast]
  · have hother : 2 * k + 1 ≠ 2 * n + 1 := by omega
    generalize 2 * k + 1 = c at heven hlast hother ⊢
    simp [pushWatch, Function.update_apply, heven, hlast, hother, hkn]

theorem pickBranch_decided {n k : Nat} (hk : k < n + 2) : (decided n k).pickBranch = some k := by
  -- All activities are equal, and the first variable that is free stays the best.
  have hfold : ∀ m, (List.range m).foldl (pickStep (decided n k)) (none, .negInf) =
      if k < m then (some k, .fin 0) else (none, .negInf) := by
    intro m
    induction m with
    | zero => rfl
    | succ m ih =>
      rw [List.range_succ, List.foldl_append, ih, List.foldl_cons, List.foldl_nil]
      rcases Nat.lt_trichotomy k m with hlt | rfl | hgt
      · rw [if_pos hlt, if_pos (Nat.lt_succ_of_lt hlt)]
        simp [pickStep, decided, Solver.new, F64.gt]
      · simp [pickStep, decided, Solver.new, F64.gt]
      · rw [if_neg (Nat.not_lt.mpr hgt.le), if_neg (by omega)]
        simp [pickStep, decided, hgt]
  unfold pickBranch
  have hn : (decided n k).numVars = n + 2 := rfl
  rw [hn, hfold, if_pos hk]

theorem decideVar_decided (n k : Nat) :
    (decided n k).decideVar k = { decided n (k + 1) with propQueue := [k] } := by
  have hfree : (decided n k).assign k = none := if_neg (Nat.lt_irrefl k)
  have hassign : Function.update (decided n k).assign k (some true) = (decided n (k + 1)).assign := by
    funext v
    simp only [Function.update_apply, decided]
    split_ifs <;> first | rfl | omega
  have hlevel : Function.update (decided n k).level k (k + 1) = (decided n (k + 1)).level := by
    funext v
    simp only [Function.update_apply, decided]
    split_ifs <;> first | omega
  have hreason : Function.update (decided n k).reason k none = (decided n (k + 1)).reason :=
    Function.update_eq_self k _
  have htrail : (decided n k).trail ++ [k] = (decided n (k + 1)).trail := List.range_succ.symm
  have hlim : (decided n k).trailLim ++ [(decided n k).trail.length] = (decided n (k + 1)).trailLim := by
    simp only [decided, List.length_range]
    exact List.range_succ.symm
  unfold decideVar enqueue Lit.pos
  simp only [hfree, decisionLevel, hlim, htrail, hreason, Bool.not_false, hassign]
  have hlen : (decided n (k + 1)).trailLim.length = k + 1 := List.length_range
  rw [hlen, hlevel]
  rfl

theorem propagate_one {s : Solver} (v : Nat) (hq : s.propQueue = []) :
    Solver.propagate { s with propQueue := [v] } = match propagateVar s v with
      | (s', some ci) => some (s', some ci)
      | (s', none) => propagateLoop (s.numVars + 1) s' := by
  unfold propagate
  have hfuel : [v].length + s.numVars + 1 = s.numVars + 1 + 1 := by
    rw [List.length_singleton, Nat.add_comm 1]
  have hs : { s with propQueue := [] } = s := by rw [← hq]
  show propagateLoop ([v].length + s.numVars + 1) _ = _
  rw [hfuel, propagateLoop]
  simp only [hs] <;> rfl

theorem propagate_free {n k : Nat} (hk : k < n) :
    Solver.propagate { decided n (k + 1) with propQueue := [k] } = some (decided n (k + 1), none) := by
  have hlit : (decided n (k + 1)).falseLit k = ⟨k, true⟩ := by
    unfold falseLit decided
    simp
  have hwatch : (decided n (k + 1)).watches (2 * k + 1) = [] := by
    rw [decided_watches hk.le, if_neg hk.ne]
  have hvar : propagateVar (decided n (k + 1)) k = (decided n (k + 1), none) := by
    unfold propagateVar
    rw [hlit]
    simp only [litCode, Bool.toNat_true, hwatch, List.foldl_nil, Function.update_idem]
    rw [← hwatch, Function.update_eq_self]
  rw [propagate_one k rfl, hvar]
  rfl

theorem propagate_conflict (n : Nat) :
    ∃ t, Solver.propagate { decided n (n + 1) with propQueue := [n] } = some (t, some 1) ∧
      t.decisionLevel = n + 1 := by
  have hlit : (decided n (n + 1)).falseLit n = ⟨n, true⟩ := by
    unfold falseLit decided
    simp
  have hwatch : (decided n (n + 1)).watches (2 * n + 1) = [0, 1] := by
    rw [decided_watches (Nat.le_refl n), if_pos rfl]
  rw [propagate_one n rfl]
  unfold propagateVar
  rw [hlit]
  simp only [litCode, Bool.toNat_true, hwatch, List.foldl_cons, List.foldl_nil]
  simp [visitWatcher, clause, decided, Solver.new, lateConflict, swapLits, swapAt, litValue, replacement, enqueue,
    decisionLevel]

theorem maybeRestart_decided (n k : Nat) : (decided n k).maybeRestart = decided n k := by
  unfold maybeRestart
  rw [if_neg]
  rintro ⟨-, h⟩
  have hnot : ¬initialRestartUnit * 1 ≤ 0 := by decide
  exact hnot h

theorem step_decision {n k b : Nat} {c : Clock} (hk : k < n + 2) (hticks : c.ticks + 1 < 8192)
    (rd : Rounding) : (Phase.head (b + 1) (decided n k) c).step rd =
      some (.propagating b { decided n (k + 1) with propQueue := [k] } { c with ticks := c.ticks + 1 }) := by
  have hclock : c.timedOut = (false, { c with ticks := c.ticks + 1 }) := if_neg (Nat.not_le.mpr hticks)
  unfold Phase.step stepHead
  simp only [maybeRestart_decided, pickBranch_decided hk, hclock, decideVar_decided]

theorem run_free {n : Nat} (hn : n < 8192) (expired : Nat → Bool) (rd : Rounding) (b : Nat) :
    ∀ k ≤ n, Phase.Run rd (.head (n + b) (decided n 0) ⟨expired, 0, 0⟩) k
      (.head (n - k + b) (decided n k) ⟨expired, k, 0⟩) := by
  intro k hk
  induction k with
  | zero => exact .refl
  | succ k ih =>
    have hlt : k < n := hk
    have hbudget : n - k + b = n - (k + 1) + b + 1 := by omega
    have hrun := ih hlt.le
    rw [hbudget] at hrun
    have hdecide := hrun.tail (step_decision (by omega) (by show k + 1 < 8192; omega) rd)
    have hback : (Phase.propagating (n - (k + 1) + b) { decided n (k + 1) with propQueue := [k] }
        ⟨expired, k + 1, 0⟩).step rd = some (.head (n - (k + 1) + b) (decided n (k + 1)) ⟨expired, k + 1, 0⟩) := by
      unfold Phase.step stepPropagating
      simp only [propagate_free hlt]
    exact hdecide.tail hback

/-- **A conflict above level 0 that is not followed by a jump**: it is the 8192nd call, and the wall
    clock has run out. -/
theorem conflict_without_backjump :
    ∃ w, Phase.start 8192 (lateConflict 8190) 8191 (fun _ => true) = some w ∧
      ∃ b s k t confl, Phase.Run Rounding.exact w 8191 (.propagating b s k) ∧
        s.propagate = some (t, some confl) ∧ 0 < t.decisionLevel ∧
        (Phase.propagating b s k).step Rounding.exact = some (.returned .unknown) := by
  refine ⟨_, start_lateConflict 8190 8191 _, ?_⟩
  -- 8190 free decisions and the one that conflicts: the conflict is the next call.
  obtain ⟨t, hprop, hlevel⟩ := propagate_conflict 8190
  have hfree := run_free (n := 8190) (by norm_num) (fun _ => true) Rounding.exact 1 8190 (Nat.le_refl _)
  have hrun := hfree.tail (step_decision (b := 0) (by norm_num) (by norm_num) Rounding.exact)
  refine ⟨_, _, _, t, 1, hrun, hprop, by omega, ?_⟩
  unfold Phase.step stepPropagating
  simp only [hprop]
  rw [if_neg]
  · rfl
  · intro hnil
    have : t.trailLim.length = 0 := by rw [hnil]; rfl
    unfold decisionLevel at hlevel
    omega

end Solver

end Csolver.Sat
