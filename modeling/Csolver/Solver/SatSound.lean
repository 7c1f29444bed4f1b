import Csolver.Solver.SatReduce

/-!
# The verdict of the CDCL solver

The invariant is established by `Solver.new` and the unit seeding, and kept by everything `solve`
does. What is left is to read the verdict off it: a conflict at level 0 leaves the input no model,
and when nothing is left to decide the paired watches make the assignment one.

`solve` is total: each pop of the queue is paid for by an assignment that can happen only once
(`propagate_isSome`), and each conflict lowers the decision level.
-/

namespace Csolver.Sat

open Csolver.Lib Csolver.Core
open Solver

/-! ## Propagation terminates -/

/-- Every push on the trail is a push on the queue. -/
def Balanced (s t : Solver) : Prop :=
  t.propQueue.length + s.trail.length = s.propQueue.length + t.trail.length

theorem Balanced.trans {s t u : Solver} (h₁ : Balanced s t) (h₂ : Balanced t u) :
    Balanced s u := by
  unfold Balanced at *
  omega

theorem balanced_swap (s : Solver) (ci i j : Nat) : Balanced s (s.swapLits ci i j) := rfl

theorem balanced_enqueue (s : Solver) (l : Lit) (r : Option Nat) :
    Balanced s (s.enqueue l r).2 := by
  unfold enqueue Balanced
  cases s.assign l.var with
  | some b => rfl
  | none =>
    simp only [List.length_cons, List.length_append, List.length_nil]
    omega

theorem visitWatcher_balanced (fl : Lit) (w : Scan) (ci : Nat) :
    Balanced w.solver (visitWatcher fl w ci).solver := by
  unfold visitWatcher
  by_cases hc : w.conflict.isSome = true
  · rw [if_pos hc]
    rfl
  · rw [if_neg hc]
    have hb : Balanced w.solver
        (if (w.solver.clause ci)[0]? = some fl then w.solver.swapLits ci 0 1 else w.solver) := by
      split
      · exact balanced_swap _ _ _ _
      · rfl
    generalize (if (w.solver.clause ci)[0]? = some fl then w.solver.swapLits ci 0 1 else w.solver) =
      s at hb
    cases h0 : (s.clause ci)[0]? with
    | none => simp only [h0]; rfl
    | some other =>
      simp only [h0]
      by_cases ht : s.litValue other = some true
      · rw [if_pos ht]
        exact hb
      · rw [if_neg ht]
        cases hrep : s.replacement ci with
        | some k =>
          cases h1 : ((s.swapLits ci 1 k).clause ci)[1]? with
          | none => simp only [h1]; exact hb.trans (balanced_swap s ci 1 k)
          | some l => simp only [h1]; exact hb.trans (balanced_swap s ci 1 k)
        | none =>
          cases s.litValue other with
          | none => exact hb.trans (balanced_enqueue _ _ _)
          | some b => cases b <;> exact hb

theorem scan_balanced (fl : Lit) (cs : List Nat) :
    ∀ w : Scan, Balanced w.solver (cs.foldl (visitWatcher fl) w).solver := by
  induction cs with
  | nil => intro w; rfl
  | cons ci cs ih => intro w; exact (visitWatcher_balanced fl w ci).trans (ih _)

theorem propagateVar_balanced (s : Solver) (v : Nat) : Balanced s (propagateVar s v).1 :=
  scan_balanced _ _ ⟨{ s with watches := Function.update s.watches (litCode (s.falseLit v)) [] },
    [], none⟩

theorem Core.trail_length_le {F : List (List Lit)} {s : Solver} (h : Core F s) :
    s.trail.length ≤ s.numVars := by
  have hsub : s.trail ⊆ List.range s.numVars := fun v hv => List.mem_range.mpr (h.trail_lt v hv)
  have := (h.nodup.subperm hsub).length_le
  rwa [List.length_range] at this

theorem propagateLoop_isSome {F : List (List Lit)} (fuel : Nat) :
    ∀ {s : Solver}, Inv F s → s.propQueue.length + (s.numVars - s.trail.length) < fuel →
      ∃ r, propagateLoop fuel s = some r := by
  induction fuel with
  | zero => intro s _ h; exact absurd h (Nat.not_lt_zero _)
  | succ fuel ih =>
    intro s hinv hf
    rw [propagateLoop]
    cases hq : s.propQueue with
    | nil => exact ⟨_, rfl⟩
    | cons v q =>
      obtain ⟨hg, -, hquiet⟩ := propagateVar_inv hinv hq
      have hbal := propagateVar_balanced { s with propQueue := q } v
      simp only
      cases hr : propagateVar { s with propQueue := q } v with
      | mk t cf =>
        rw [hr] at hg hquiet hbal
        cases cf with
        | some ci => exact ⟨_, rfl⟩
        | none =>
          have hinv' : Inv F t := hquiet rfl
          refine ih hinv' ?_
          have hle := hinv'.core.trail_length_le
          have hle' := hinv.core.trail_length_le
          have hn : t.numVars = s.numVars := hg.numVars
          have hbal' : t.propQueue.length + s.trail.length = q.length + t.trail.length := hbal
          rw [hn] at hle ⊢
          rw [hq, List.length_cons] at hf
          omega

theorem propagate_isSome {F : List (List Lit)} {s : Solver} (h : Inv F s) :
    ∃ t r, s.propagate = some (t, r) := by
  obtain ⟨⟨t, r⟩, hr⟩ := propagateLoop_isSome (s.propQueue.length + s.numVars + 1) h (by omega)
  exact ⟨t, r, hr⟩

/-! ## Reading off the verdict -/

/-- What a verdict on the clauses `F` over `n` variables promises. -/
def Verdict (F : List (List Lit)) (n : Nat) : SatResult → Prop
  | .sat m => m.length = n ∧ satAll (fun v => m.getD v false) F
  | .unsat => ∀ m, ¬satAll m F
  | .unknown => True

theorem Core.unsat_of_false {F : List (List Lit)} {s : Solver} (h : Core F s)
    (hz : s.decisionLevel = 0) {c : List Lit} (hent : Entails F c)
    (hall : ∀ l ∈ c, s.litValue l = some false) : ∀ m, ¬satAll m F := by
  intro m hm
  obtain ⟨l, hl, ht⟩ := hent m hm
  have ha := litValue_eq_false.mp (hall l hl)
  have hlev := h.level_eq_zero hz (v := l.var) (by rw [ha]; simp)
  rw [litTrue, h.level_zero _ _ ha hlev m hm] at ht
  simp at ht

theorem model_getD {s : Solver} {v : Nat} (hv : v < s.numVars) :
    s.model.getD v false = (s.assign v).getD false := by
  rw [model, List.getD_eq_getElem?_getD, List.getElem?_map, List.getElem?_range hv]
  rfl

theorem litTrue_model {s : Solver} {l : Lit} (hv : l.var < s.numVars)
    (h : s.litValue l = some true) : litTrue (fun v => s.model.getD v false) l := by
  show s.model.getD l.var false = !l.neg
  rw [model_getD hv, litValue_eq_true.mp h, Option.getD_some]

theorem Settled.model_sat {F : List (List Lit)} {n : Nat} {s : Solver} (h : Settled F n s)
    (hall : ∀ v < s.numVars, s.assign v ≠ none) : satAll (fun v => s.model.getD v false) F := by
  intro c hc
  obtain ⟨i, hi⟩ := List.mem_iff_getElem?.mp hc
  obtain ⟨c', hc', hperm⟩ := h.inv.core.original i c hi
  have hbound := h.inv.core.bounded c' (List.mem_of_getElem? hc')
  refine (clauseSat_perm hperm).mp ?_
  match c', hc', hbound, hperm with
  | [], _, _, hperm =>
    rw [List.nil_perm.mp hperm] at hc
    exact absurd hc h.inv.units.1
  | [l], _, hbound, hperm =>
    rw [← List.singleton_perm.mp hperm] at hc
    obtain ⟨ht, -⟩ := h.inv.units.2 l hc
    exact ⟨l, by simp, litTrue_model (hbound l (by simp)) ht⟩
  | a :: b :: r, hc', hbound, _ =>
    have hp := h.inv.paired h.queue i
    rw [clause_eq hc'] at hp
    have ha : a.var < s.numVars := hbound a (by simp)
    cases hva : s.litValue a with
    | none => exact absurd (litValue_eq_none.mp hva) (hall _ ha)
    | some x =>
      cases x with
      | true => exact ⟨a, by simp, litTrue_model ha hva⟩
      | false =>
        have hb := hp 0 a b (by omega) rfl rfl hva
        exact ⟨b, by simp, litTrue_model (hbound b (by simp)) hb⟩

/-! ## Branching -/

/-- Every activity beats `-∞`, so only a fully assigned range offers no branch variable. -/
theorem pickStep_none {s : Solver} (hact : ∀ v, (s.activity v).NonNeg) (vs : List Nat) :
    ∀ best : Option Nat × F64, (best.1 = none → best.2 = .negInf) →
      (vs.foldl (pickStep s) best).1 = none → best.1 = none ∧ ∀ v ∈ vs, s.assign v ≠ none := by
  induction vs with
  | nil => intro best _ h; exact ⟨h, fun v hv => absurd hv List.not_mem_nil⟩
  | cons v vs ih =>
    intro best hbest h
    have hstep : (pickStep s best v).1 = none → (pickStep s best v).2 = .negInf := by
      unfold pickStep
      split
      · intro hc; exact absurd hc (by simp)
      · exact hbest
    obtain ⟨hnone, hrest⟩ := ih _ hstep h
    unfold pickStep at hnone
    by_cases hc : ((s.assign v).isNone && (s.activity v).gt best.2) = true
    · rw [if_pos hc] at hnone
      exact absurd hnone (by simp)
    · rw [if_neg hc] at hnone
      refine ⟨hnone, fun u hu => ?_⟩
      rcases List.mem_cons.mp hu with rfl | hu
      · intro hfree
        rw [hbest hnone, F64.gt_negInf_of_nonNeg (hact u), hfree] at hc
        exact hc rfl
      · exact hrest u hu

theorem pickStep_some {s : Solver} {v : Nat} (vs : List Nat) :
    ∀ best : Option Nat × F64, (vs.foldl (pickStep s) best).1 = some v →
      best.1 = some v ∨ (v ∈ vs ∧ s.assign v = none) := by
  induction vs with
  | nil => intro best h; exact Or.inl h
  | cons u vs ih =>
    intro best h
    rcases ih _ h with hb | ⟨hv, hfree⟩
    · unfold pickStep at hb
      by_cases hc : ((s.assign u).isNone && (s.activity u).gt best.2) = true
      · rw [if_pos hc] at hb
        obtain rfl := Option.some.inj hb
        refine Or.inr ⟨List.mem_cons_self, ?_⟩
        have := (Bool.and_eq_true_iff.mp hc).1
        simpa using this
      · rw [if_neg hc] at hb
        exact Or.inl hb
    · exact Or.inr ⟨List.mem_cons_of_mem _ hv, hfree⟩

theorem pickBranch_none {s : Solver} (hact : ∀ v, (s.activity v).NonNeg)
    (h : s.pickBranch = none) : ∀ v < s.numVars, s.assign v ≠ none := by
  intro v hv
  exact (pickStep_none hact _ (none, .negInf) (fun _ => rfl) h).2 v (List.mem_range.mpr hv)

theorem pickBranch_some {s : Solver} {v : Nat} (h : s.pickBranch = some v) :
    v < s.numVars ∧ s.assign v = none := by
  rcases pickStep_some _ (none, .negInf) h with hc | ⟨hv, hfree⟩
  · exact absurd hc (by simp)
  · exact ⟨List.mem_range.mp hv, hfree⟩

/-! ## The initial state -/

theorem count_initial (cs : List (List Lit)) (l : Lit) (ci : Nat) :
    ∀ (k : Nat) (w : Nat → List Nat),
      (((cs.zipIdx k).foldl (fun w p => watchClause w p.2 p.1) w) (litCode l)).count ci =
        (w (litCode l)).count ci + if k ≤ ci then watchCount (cs.getD (ci - k) []) l else 0 := by
  induction cs with
  | nil => intro k w; simp [watchCount]
  | cons c cs ih =>
    intro k w
    rw [List.zipIdx_cons, List.foldl_cons, ih, count_watchClause]
    rcases Nat.lt_trichotomy ci k with hlt | rfl | hgt
    · rw [if_neg (by omega), if_neg (by omega), if_neg (by omega)]
    · rw [if_pos rfl, if_neg (by omega), if_pos (Nat.le_refl _), Nat.sub_self]
      rfl
    · rw [if_neg (by omega), if_pos (by omega), if_pos (by omega), Nat.add_zero]
      have : ci - k = ci - (k + 1) + 1 := by omega
      rw [this, List.getD_cons_succ]

theorem new_inv {n : Nat} {F : List (List Lit)} (hb : ∀ c ∈ F, ∀ l ∈ c, l.var < n) :
    Core F (Solver.new n F) ∧ CountOk (fun _ _ => 0) (Solver.new n F) ∧
      TwoWatched (fun _ w => w.var ∈ (Solver.new n F).propQueue) (Solver.new n F) := by
  refine ⟨?_, ?_, ?_⟩
  · exact
      { nodup := List.nodup_nil
        mem_trail := fun v => by simp [Solver.new]
        trail_lt := fun v hv => absurd hv List.not_mem_nil
        lim_sorted := List.Pairwise.nil
        lim_lt := fun x hx => absurd hx List.not_mem_nil
        level_iff := fun p v j x hp => absurd hp (by simp [Solver.new])
        level_le := fun v hv => absurd hv List.not_mem_nil
        reason_ok := fun p v hp => absurd hp (by simp [Solver.new])
        entails := fun c hc m hm => hm c hc
        bounded := hb
        original := fun i c hi => ⟨c, hi, List.Perm.refl c⟩
        numOriginal_eq := rfl
        level_zero := fun v b hv => absurd hv (by simp [Solver.new]) }
  · intro ci l
    have := count_initial F l ci 0 fun _ => []
    simp only [List.count_nil, Nat.zero_le, if_true, Nat.zero_add, Nat.sub_zero] at this
    exact this
  · intro ci i w o _ _ _ hf
    exact absurd hf (by simp [Solver.litValue, Solver.new])

/-- The invariant while the units are seeded: those of `pre` are on the trail. -/
structure Seeding (F pre : List (List Lit)) (s : Solver) : Prop where
  core : Core F s
  count : CountOk (fun _ _ => 0) s
  watched : TwoWatched (fun _ w => w.var ∈ s.propQueue) s
  queue : QueueOk s
  units : UnitsOk pre s
  seen : s.seen = fun _ => false
  activity : ∀ v, (s.activity v).NonNeg
  varInc : s.varInc.NonNeg
  level : s.decisionLevel = 0

theorem Seeding.skip {F pre : List (List Lit)} {s : Solver} (h : Seeding F pre s) {c : List Lit}
    (hne : c ≠ []) (hu : ∀ l, c = [l] → s.litValue l = some true) :
    Seeding F (pre ++ [c]) s := by
  refine { h with units := ⟨?_, ?_⟩ }
  · intro hmem
    rcases List.mem_append.mp hmem with hmem | hmem
    · exact h.units.1 hmem
    · exact hne (List.mem_singleton.mp hmem).symm
  · intro l hl
    rcases List.mem_append.mp hl with hl | hl
    · exact h.units.2 l hl
    · have ht := hu l (List.mem_singleton.mp hl).symm
      exact ⟨ht, h.core.level_eq_zero h.level (by rw [litValue_eq_true.mp ht]; simp)⟩

theorem Seeding.assign {F pre : List (List Lit)} {s : Solver} (h : Seeding F pre s) {l : Lit}
    {ci : Nat} (hmem : [l] ∈ F) (hlt : l.var < s.numVars) (hfree : s.assign l.var = none) :
    Seeding F (pre ++ [[l]]) (assignLit s l (some ci) s.trailLim) := by
  have hlim : s.trailLim.length = 0 := h.level
  have hgrow : Grow s (assignLit s l (some ci) s.trailLim) := Grow.assignLit hfree
  have hnew : Seeding F pre (assignLit s l (some ci) s.trailLim) := by
    refine ⟨?_, h.count, ?_, QueueOk.assignLit h.queue hfree, h.units.grow hgrow, h.seen,
      h.activity, h.varInc, h.level⟩
    · refine h.core.assignLit hfree hlt (Or.inl rfl) ?_ ?_
      · intro hpos
        rw [hlim] at hpos
        exact absurd hpos (Nat.lt_irrefl 0)
      · intro _ m hm
        obtain ⟨l', hl', ht⟩ := hm [l] hmem
        rwa [List.mem_singleton.mp hl'] at ht
    · refine (h.watched.assignLit hfree).mono fun _ w hx => ?_
      rcases hx with hx | hx
      · exact List.mem_cons_of_mem _ hx
      · show w.var ∈ l.var :: s.propQueue
        rw [hx]
        exact List.mem_cons_self
  refine hnew.skip (by simp) fun l' hl' => ?_
  rw [← (List.singleton_inj.mp hl')]
  exact assignLit_self

theorem seedUnits_spec {F : List (List Lit)} (cs : List (List Lit)) :
    ∀ {pre : List (List Lit)} {s : Solver} {ci : Nat}, F = pre ++ cs →
      (∀ c ∈ F, ∀ l ∈ c, l.var < s.numVars) → Seeding F pre s →
      match seedUnits ci cs s with
      | none => ∀ m, ¬satAll m F
      | some t => Seeding F F t ∧ t.numVars = s.numVars := by
  induction cs with
  | nil =>
    intro pre s ci hF _ h
    rw [List.append_nil] at hF
    subst hF
    exact ⟨h, rfl⟩
  | cons c cs ih =>
    intro pre s ci hF hb h
    have hc : c ∈ F := by rw [hF]; simp
    have hF' : F = (pre ++ [c]) ++ cs := by rw [hF]; simp
    match c with
    | [] =>
      intro m hm
      obtain ⟨l, hl, -⟩ := hm [] hc
      exact absurd hl List.not_mem_nil
    | [l] =>
      rw [seedUnits]
      cases ha : s.assign l.var with
      | none =>
        rw [enqueue_of_none ha]
        exact ih hF' hb (h.assign hc (hb [l] hc l (by simp)) ha)
      | some b =>
        simp only [enqueue, ha]
        by_cases hx : b = !l.neg
        · have ht : (b != l.neg) = true := by rw [hx]; cases l.neg <;> rfl
          rw [ht]
          refine ih hF' hb (h.skip (by simp) fun l' hl' => ?_)
          rw [← List.singleton_inj.mp hl', litValue_eq_true, ha, hx]
        · have hxn : b = l.neg := by cases b <;> cases hn : l.neg <;> simp_all
          have ht : (b != l.neg) = false := by rw [hxn]; cases l.neg <;> rfl
          rw [ht]
          refine h.core.unsat_of_false h.level (c := [l]) (fun m hm => hm [l] hc) fun l' hl' => ?_
          rw [List.mem_singleton.mp hl', litValue_eq_false, ha, hxn]
    | a :: b :: r =>
      rw [seedUnits]
      exact ih hF' hb (h.skip (by simp) fun l hl => absurd hl (by simp))

/-! ## The conflict loop -/

/-- What one run of the conflict loop promises. -/
def Solver.Outcome.Ok (F : List (List Lit)) (n : Nat) : Outcome → Prop
  | .ret r => Verdict F n r
  | .quiet s _ => Settled F n s

theorem Conflict.unsat {F : List (List Lit)} {s : Solver} {ci : Nat} (h : Conflict F s ci)
    (hz : s.trailLim = []) : ∀ m, ¬satAll m F := by
  obtain ⟨c, hc, hall, -⟩ := h.falsified
  have hlevel : s.decisionLevel = 0 := by rw [decisionLevel, hz]; rfl
  exact h.core.unsat_of_false hlevel (h.core.entails c (List.mem_of_getElem? hc)) hall

theorem Conflict.learn {F : List (List Lit)} (rd : Rounding) {s : Solver} {ci : Nat}
    (h : Conflict F s ci) (hu : UnitsOk F s) (hd : 0 < s.decisionLevel)
    (hseen : s.seen = fun _ => false) (hact : ∀ v, (s.activity v).NonNeg)
    (hinc : s.varInc.NonNeg) :
    ∃ learnt bt lbd t, s.analyze rd ci = some ((learnt, bt, lbd), t) ∧
      ∃ a, (((t.backtrackTo bt).addLearnt learnt lbd).2.clause
          (t.backtrackTo bt).clauses.length)[0]? = some a ∧
        let u := (((t.backtrackTo bt).addLearnt learnt lbd).2.enqueue a
          (some (t.backtrackTo bt).clauses.length)).2
        Inv F u ∧ u.numVars = s.numVars ∧ u.decisionLevel < s.decisionLevel := by
  obtain ⟨a, rest, bt, lbd, t, han, hok, act, inc, rfl, hact', hinc'⟩ :=
    analyze_spec rd h hd hseen hact hinc
  refine ⟨a :: rest, bt, lbd, _, han, a, ?_⟩
  set t : Solver := { s with activity := act, varInc := inc } with ht
  have hcore : Core F t := h.core.congr rfl rfl rfl rfl rfl rfl rfl (PermStore.refl _)
  have hlt : bt < t.decisionLevel := hok.lt
  obtain ⟨hinv, hq, hlevel⟩ := Inv.backtrack (s := t) hcore h.count h.watched hu hseen hact' hinc'
    hlt fun _ w hx _ => hx ▸ hlt
  have hfree : (t.backtrackTo bt).assign a.var = none := by
    cases hv : (t.backtrackTo bt).assign a.var with
    | none => rfl
    | some b =>
      have hle : s.level a.var ≤ bt := ((hcore.backtrack_assign hlt).mp hv).2
      rw [hok.head.2] at hle
      exact absurd hok.lt (Nat.not_lt_of_le hle)
  have hnum : (t.backtrackTo bt).numVars = s.numVars := backtrackTo_numVars t bt
  have hinv' := @Inv.learn _ _ hinv hq a rest lbd hok.entails hfree
    (by
      rw [hnum]
      obtain ⟨p, -, hp⟩ := h.core.position_of_false hok.head.1
      exact h.core.trail_lt _ (List.mem_of_getElem? hp))
    (fun l hl => by
      obtain ⟨hf, -, hle⟩ := hok.tail l hl
      exact (hcore.backtrack_litValue hlt).mpr ⟨hf, hle⟩)
    (fun b hb => by
      rw [backtrackTo_level, hlevel]
      exact hok.second b hb)
    (fun hz => by
      cases hr : rest with
      | nil => rfl
      | cons b r =>
        obtain ⟨-, hpos, hle⟩ := hok.tail b (by rw [hr]; simp)
        rw [hlevel] at hz
        omega)
  have henq : (((t.backtrackTo bt).addLearnt (a :: rest) lbd).2.enqueue a
      (some (t.backtrackTo bt).clauses.length)) =
        (true, assignLit ((t.backtrackTo bt).addLearnt (a :: rest) lbd).2 a
          (some (t.backtrackTo bt).clauses.length) (t.backtrackTo bt).trailLim) :=
    enqueue_of_none hfree
  refine ⟨?_, ?_⟩
  · rw [addLearnt_clause, if_pos rfl]
    rfl
  · rw [henq]
    refine ⟨hinv', hnum, ?_⟩
    show (t.backtrackTo bt).decisionLevel < s.decisionLevel
    rw [hlevel]
    exact hok.lt

/-- **The conflict loop** ends, with a right verdict or at rest. -/
theorem conflictLoop_spec {F : List (List Lit)} (rd : Rounding) (fuel : Nat) :
    ∀ {s : Solver} {k : Clock}, Inv F s → s.decisionLevel < fuel →
      ∃ o, conflictLoop rd fuel s k = some o ∧ o.Ok F s.numVars := by
  induction fuel with
  | zero => intro s k _ h; exact absurd h (Nat.not_lt_zero _)
  | succ fuel ih =>
    intro s k hinv hf
    obtain ⟨t, r, hp⟩ := propagate_isSome hinv
    obtain ⟨hg, hconf, hquiet⟩ := propagate_inv hinv hp
    rw [conflictLoop, hp]
    cases r with
    | none =>
      obtain ⟨hinv', hq⟩ := hquiet rfl
      exact ⟨_, rfl, hinv', hq, hg.numVars⟩
    | some ci =>
      have hc := hconf ci rfl
      simp only
      by_cases hz : t.trailLim = []
      · rw [if_pos hz]
        exact ⟨_, rfl, hc.unsat hz⟩
      · rw [if_neg hz]
        cases k.timedOut with
        | mk expired k' =>
          cases expired with
          | true => exact ⟨_, rfl, trivial⟩
          | false =>
            have hd : 0 < t.decisionLevel := List.length_pos_iff.mpr hz
            have hact : ∀ v, (t.activity v).NonNeg := fun v => hg.activity ▸ hinv.activity v
            obtain ⟨learnt, bt, lbd, u, han, a, ha, hu, hn, hlt⟩ :=
              hc.learn rd (hinv.units.grow hg) hd (hg.seen.trans hinv.seen) hact
                (hg.varInc ▸ hinv.varInc)
            simp only [han]
            have hci : ((u.backtrackTo bt).addLearnt learnt lbd).1 =
                (u.backtrackTo bt).clauses.length := rfl
            simp only [hci, ha]
            have hinv' := hu.congr (t := { (((u.backtrackTo bt).addLearnt learnt lbd).2.enqueue a
                (some (u.backtrackTo bt).clauses.length)).2 with
              conflictsSinceRestart := (((u.backtrackTo bt).addLearnt learnt lbd).2.enqueue a
                (some (u.backtrackTo bt).clauses.length)).2.conflictsSinceRestart + 1 }) rfl
            have hlevel : t.decisionLevel = s.decisionLevel := by
              rw [decisionLevel, decisionLevel, hg.trailLim]
            obtain ⟨o, ho, hok⟩ := ih (k := k') hinv' (by
              show (((u.backtrackTo bt).addLearnt learnt lbd).2.enqueue a
                (some (u.backtrackTo bt).clauses.length)).2.decisionLevel < fuel
              omega)
            refine ⟨o, ho, ?_⟩
            have hnum : (((u.backtrackTo bt).addLearnt learnt lbd).2.enqueue a
                (some (u.backtrackTo bt).clauses.length)).2.numVars = s.numVars :=
              hn.trans hg.numVars
            rw [← hnum]
            exact hok

/-! ## The main loop -/

theorem Settled.sat_verdict {F : List (List Lit)} {n : Nat} {s : Solver} (h : Settled F n s)
    (hpick : s.pickBranch = none) : Verdict F n (.sat s.model) := by
  refine ⟨?_, h.model_sat (pickBranch_none h.inv.activity hpick)⟩
  rw [model, List.length_map, List.length_range]
  exact h.numVars

/-- **The main loop** returns, and its verdict is right. -/
theorem solveLoop_spec {F : List (List Lit)} {n : Nat} (rd : Rounding) (budget : Nat) :
    ∀ {s : Solver} {k : Clock}, Settled F n s →
      ∃ r, solveLoop rd budget s k = some r ∧ Verdict F n r := by
  induction budget with
  | zero =>
    intro s k h
    have h' := maybeRestart_settled h
    rw [solveLoop]
    cases hpick : s.maybeRestart.pickBranch with
    | none => exact ⟨_, rfl, h'.sat_verdict hpick⟩
    | some v => exact ⟨_, rfl, trivial⟩
  | succ budget ih =>
    intro s k h
    have h' := maybeRestart_settled h
    rw [solveLoop]
    cases hpick : s.maybeRestart.pickBranch with
    | none => exact ⟨_, rfl, h'.sat_verdict hpick⟩
    | some v =>
      simp only
      cases k.timedOut with
      | mk expired k' =>
        cases expired with
        | true => exact ⟨_, rfl, trivial⟩
        | false =>
          obtain ⟨hlt, hfree⟩ := pickBranch_some hpick
          have hinv := h'.inv.decide h'.queue hfree hlt
          have hnum : (s.maybeRestart.decideVar v).numVars = n := by
            rw [decideVar_eq hfree]
            exact h'.numVars
          obtain ⟨o, ho, hok⟩ := conflictLoop_spec rd _ (k := k') hinv (Nat.lt_succ_self _)
          rw [hnum] at hok
          simp only [ho]
          cases o with
          | ret r => exact ⟨r, rfl, hok⟩
          | quiet t k'' => exact ih hok

theorem Seeding.inv {F : List (List Lit)} {s : Solver} (h : Seeding F F s) : Inv F s :=
  ⟨h.core, h.count, h.watched, h.queue, h.units, h.seen, h.activity, h.varInc⟩

theorem new_seeding {n : Nat} {F : List (List Lit)} (hb : ∀ c ∈ F, ∀ l ∈ c, l.var < n) :
    Seeding F [] (Solver.new n F) := by
  obtain ⟨hcore, hcount, hwatched⟩ := new_inv hb
  refine ⟨hcore, hcount, hwatched, ?_, ?_, rfl, ?_, ?_, rfl⟩
  · intro v hv
    exact absurd hv List.not_mem_nil
  · exact ⟨List.not_mem_nil, fun l hl => absurd hl List.not_mem_nil⟩
  · intro v
    exact le_refl (0 : ℚ)
  · exact zero_le_one (α := ℚ)

theorem solve_verdict {n : Nat} {F : List (List Lit)} (rd : Rounding)
    (hb : ∀ c ∈ F, ∀ l ∈ c, l.var < n) (budget : Nat) (expired : Nat → Bool) :
    ∃ r, solve rd (Solver.new n F) budget expired = some r ∧ Verdict F n r := by
  have hseed := @seedUnits_spec F F [] _ 0 (List.nil_append F).symm hb (new_seeding hb)
  rw [solve]
  cases hs : seedUnits 0 (Solver.new n F).clauses (Solver.new n F) with
  | none =>
    rw [show seedUnits 0 F (Solver.new n F) = none from hs] at hseed
    exact ⟨_, rfl, hseed⟩
  | some s =>
    rw [show seedUnits 0 F (Solver.new n F) = some s from hs] at hseed
    obtain ⟨hseeding, hnum⟩ := hseed
    have hinv := hseeding.inv
    obtain ⟨t, r, hp⟩ := propagate_isSome hinv
    obtain ⟨hg, hconf, hquiet⟩ := propagate_inv hinv hp
    simp only [hp]
    cases r with
    | some ci =>
      refine ⟨_, rfl, (hconf ci rfl).unsat ?_⟩
      rw [hg.trailLim]
      exact List.length_eq_zero_iff.mp hseeding.level
    | none =>
      obtain ⟨hinv', hq⟩ := hquiet rfl
      exact solveLoop_spec rd budget ⟨hinv', hq, hg.numVars.trans hnum⟩

/-- **Soundness of the solver.** For every clause list over `numVars` variables, every budget, every
    behaviour of the clock and every rounding of the activities, `solve` returns; `Unsat` means that
    no assignment satisfies the clauses, and a returned model has one value per variable and
    satisfies them. -/
theorem solve_sound (rd : Rounding) (numVars : Nat) (clauses : List (List Lit))
    (hvars : ∀ c ∈ clauses, ∀ l ∈ c, l.var < numVars) (budget : Nat) (expired : Nat → Bool) :
    ∃ r, solve rd (Solver.new numVars clauses) budget expired = some r ∧
      (r = .unsat → ∀ m, ¬satAll m clauses) ∧
      ∀ m, r = .sat m → m.length = numVars ∧ satAll (fun v => m.getD v false) clauses := by
  obtain ⟨r, hr, hv⟩ := solve_verdict rd hvars budget expired
  refine ⟨r, hr, ?_, ?_⟩
  · intro he
    rw [he] at hv
    exact hv
  · intro m he
    rw [he] at hv
    exact hv

/-- The four clauses over two variables. -/
def allPairs : List (List Lit) :=
  [[⟨0, false⟩, ⟨1, false⟩], [⟨0, false⟩, ⟨1, true⟩], [⟨0, true⟩, ⟨1, false⟩],
    [⟨0, true⟩, ⟨1, true⟩]]

theorem solve_allPairs :
    solve Rounding.exact (Solver.new 2 allPairs) 10 (fun _ => false) = some .unsat := by
  decide +kernel

/-- Refuting them takes a decision, a learnt clause and a backjump. -/
theorem solve_sound_allPairs :
    solve Rounding.exact (Solver.new 2 allPairs) 10 (fun _ => false) = some .unsat ∧
      ∀ m, ¬satAll m allPairs := by
  obtain ⟨r, hr, hunsat, -⟩ := solve_sound Rounding.exact 2 allPairs (by decide) 10 fun _ => false
  rw [solve_allPairs] at hr
  exact ⟨solve_allPairs, hunsat (Option.some.inj hr).symm⟩

end Csolver.Sat
