import Csolver.Solver.SatRuns

/-!
# The state at the end of a propagation

`Inv` speaks of what is still queued. Here is what it comes to when nothing is: no clause is left with one
unassigned literal and all others false. Beside it, every assigned variable has its reason, at level 0 too
(`Grounded`), which is what `reduce_db` relies on when it renumbers the reasons.
-/

namespace Csolver.Sat

open Csolver.Lib Csolver.Core
open Solver

/-- The variable at position `p` is the decision that opened its level, or its reason clause contains it as
    the only literal that is not false, the others having been assigned before. -/
def ReasonAt (s : Solver) (p v : Nat) : Prop :=
  (s.reason v = none ∧ 0 < s.level v ∧ s.trailLim[s.level v - 1]? = some p) ∨
    ∃ ci c l, s.reason v = some ci ∧ s.clauses[ci]? = some c ∧ l ∈ c ∧ l.var = v ∧ s.litValue l = some true ∧
      ∀ l' ∈ c, l' = l ∨ (s.litValue l' = some false ∧ ∃ q < p, s.trail[q]? = some l'.var)

def Reasoned (s : Solver) : Prop := ∀ p v, s.trail[p]? = some v → ReasonAt s p v

/-- Clauses of one literal are true for good. -/
def UnitsTrue (s : Solver) : Prop := ∀ l, [l] ∈ s.clauses → s.litValue l = some true ∧ s.level l.var = 0

structure Grounded (s : Solver) : Prop where
  reasons : Reasoned s
  units : UnitsTrue s

/-- No clause has an unassigned literal and otherwise only false ones. -/
def NoUnit (s : Solver) : Prop := ∀ cl ∈ s.clauses, ∀ (i : Nat) (l : Lit), cl[i]? = some l → s.litValue l = none →
  ∃ (j : Nat) (l' : Lit), j ≠ i ∧ cl[j]? = some l' ∧ s.litValue l' ≠ some false

/-- What holds of a state with nothing queued. -/
structure Quiescent (s : Solver) : Prop where
  watched : ∀ ci l, (s.watches (litCode l)).count ci = watchCount (s.clause ci) l
  noUnit : NoUnit s
  nodup : s.trail.Nodup
  assigned : ∀ v, v ∈ s.trail ↔ s.assign v ≠ none
  levels : ∀ (p q v w : Nat), p ≤ q → s.trail[p]? = some v → s.trail[q]? = some w → s.level v ≤ s.level w
  reasons : Reasoned s

/-- The invariant between two operations. -/
structure Kept (F : List (List Lit)) (s : Solver) : Prop where
  inv : Inv F s
  grounded : Grounded s

/-! ## Reading the invariant off -/

theorem Core.levels {F : List (List Lit)} {s : Solver} (h : Core F s) {p q v w : Nat} (hpq : p ≤ q)
    (hp : s.trail[p]? = some v) (hq : s.trail[q]? = some w) : s.level v ≤ s.level w := by
  refine Nat.le_of_not_lt fun hlt => ?_
  have hle := h.level_le v (List.mem_of_getElem? hp)
  have hx := List.getElem?_eq_getElem (l := s.trailLim) (i := s.level w) (by omega)
  have hbelow := (h.level_iff p v _ _ hp hx).mpr hlt
  exact absurd ((h.level_iff q w _ _ hq hx).mp (Nat.le_trans hbelow hpq)) (Nat.lt_irrefl _)

theorem noUnit_of_paired {s : Solver} (hunits : UnitsTrue s) (hp : ∀ ci, Paired s (s.clause ci)) : NoUnit s := by
  intro cl hc i l hi hnone
  obtain ⟨ci, hci⟩ := List.mem_iff_getElem?.mp hc
  have hpair := hp ci
  rw [clause_eq hci] at hpair
  by_contra hall
  have hothers : ∀ (j : Nat) (l' : Lit), j ≠ i → cl[j]? = some l' → s.litValue l' = some false := by
    intro j l' hj hl'
    by_contra hne
    exact hall ⟨j, l', hj, hl', hne⟩
  match cl, hc, hi with
  | [a], hc, hi =>
    have hia : i = 0 := by
      have := (List.getElem?_eq_some_iff.mp hi).1
      rw [List.length_singleton] at this
      omega
    subst hia
    obtain rfl : a = l := by simpa using hi
    rw [(hunits a hc).1] at hnone
    exact absurd hnone (by simp)
  | a :: b :: r, _, hi =>
    -- One of the two watches is another position, hence false, and its partner is true.
    have hwatch : ∃ k < 2, k ≠ i := by
      by_cases hi0 : i = 0
      · exact ⟨1, by omega, by omega⟩
      · exact ⟨0, by omega, fun he => hi0 he.symm⟩
    obtain ⟨k, hk, hki⟩ := hwatch
    have hw := List.getElem?_eq_getElem (l := a :: b :: r) (i := k) (by simp; omega)
    obtain ⟨o, ho⟩ : ∃ o, (a :: b :: r)[1 - k]? = some o :=
      ⟨_, List.getElem?_eq_getElem (by rw [List.length_cons, List.length_cons]; omega)⟩
    have htrue := hpair k _ _ hk hw ho (hothers k _ hki hw)
    by_cases hio : 1 - k = i
    · rw [hio] at ho
      rw [Option.some.inj (ho.symm.trans hi), hnone] at htrue
      exact absurd htrue (by simp)
    · rw [hothers _ _ hio ho] at htrue
      exact absurd htrue (by simp)

/-- **With nothing queued** the invariant is the classical one. -/
theorem Kept.quiescent {F : List (List Lit)} {s : Solver} (h : Kept F s) (hq : s.propQueue = []) :
    Quiescent s where
  watched := fun ci l => h.inv.count ci l
  noUnit := noUnit_of_paired h.grounded.units (h.inv.paired hq)
  nodup := h.inv.core.nodup
  assigned := h.inv.core.mem_trail
  levels := fun _ _ _ _ hpq hp hq => h.inv.core.levels hpq hp hq
  reasons := h.grounded.reasons

/-! ## Assigning -/

theorem Grounded.congr {s t : Solver} (h : Grounded s) (ha : t.assign = s.assign) (hl : t.level = s.level)
    (hr : t.reason = s.reason) (ht : t.trail = s.trail) (hm : t.trailLim = s.trailLim)
    (hc : PermStore s.clauses t.clauses) : Grounded t := by
  refine ⟨fun p v hp => ?_, fun l hmem => ?_⟩
  · rw [ht] at hp
    rcases h.reasons p v hp with ⟨hnone, hpos, hlim⟩ | ⟨ci, c, l, hre, hci, hlc, hlv, htrue, hothers⟩
    · exact Or.inl ⟨by rw [hr]; exact hnone, by rw [hl]; exact hpos, by rw [hl, hm]; exact hlim⟩
    · obtain ⟨c', hci', hperm⟩ := hc.get hci
      refine Or.inr ⟨ci, c', l, by rw [hr]; exact hre, hci', hperm.mem_iff.mpr hlc, hlv, ?_, ?_⟩
      · rw [litValue_congr ha]
        exact htrue
      · intro l' hl'
        rw [litValue_congr ha, ht]
        exact hothers l' (hperm.mem_iff.mp hl')
  · obtain ⟨ci, hci⟩ := List.mem_iff_getElem?.mp hmem
    obtain ⟨c, hc', hperm⟩ := hc.get' hci
    rw [List.perm_singleton.mp hperm.symm] at hc'
    obtain ⟨htrue, hz⟩ := h.units l (List.mem_of_getElem? hc')
    exact ⟨by rw [litValue_congr ha]; exact htrue, by rw [hl]; exact hz⟩

/-- Why a free literal may be assigned: it opens a level, or a clause has nothing else left. -/
def Forced (s : Solver) (l : Lit) (r : Option Nat) (lim : List Nat) : Prop :=
  (r = none ∧ lim = s.trailLim ++ [s.trail.length]) ∨
    lim = s.trailLim ∧ ∃ ci c, r = some ci ∧ s.clauses[ci]? = some c ∧ l ∈ c ∧
      ∀ l' ∈ c, l' = l ∨ (s.litValue l' = some false ∧ ∃ q < s.trail.length, s.trail[q]? = some l'.var)

theorem Reasoned.assignLit {s : Solver} {l : Lit} {r : Option Nat} {lim : List Nat} (h : Reasoned s)
    (hall : ∀ v ∈ s.trail, s.assign v ≠ none) (hn : s.assign l.var = none) (hf : Forced s l r lim) :
    Reasoned (assignLit s l r lim) := by
  have hleft : ∀ {q v : Nat}, s.trail[q]? = some v → (s.trail ++ [l.var])[q]? = some v := by
    intro q v hq
    rw [List.getElem?_append_left (List.getElem?_eq_some_iff.mp hq).1]
    exact hq
  have hlim : ∀ {j x : Nat}, s.trailLim[j]? = some x → lim[j]? = some x := by
    intro j x hx
    rcases hf with ⟨-, rfl⟩ | ⟨rfl, -⟩
    · rw [List.getElem?_append_left (List.getElem?_eq_some_iff.mp hx).1]
      exact hx
    · exact hx
  intro p v hp
  change (s.trail ++ [l.var])[p]? = some v at hp
  rcases Nat.lt_or_ge p s.trail.length with hlt | hge
  · -- An older variable keeps its reason.
    rw [List.getElem?_append_left hlt] at hp
    have hne : v ≠ l.var := fun he => hall v (List.mem_of_getElem? hp) (he ▸ hn)
    rcases h p v hp with ⟨hnone, hpos, hx⟩ | ⟨ci, c, a, hre, hci, hac, hav, htrue, hothers⟩
    · refine Or.inl ⟨?_, ?_, ?_⟩
      · exact (Function.update_of_ne hne _ _).trans hnone
      · rwa [assignLit_level_ne hne]
      · rw [assignLit_level_ne hne]
        exact hlim hx
    · refine Or.inr ⟨ci, c, a, (Function.update_of_ne hne _ _).trans hre, hci, hac, hav,
        (assignLit_litValue hn htrue).1, fun l' hl' => ?_⟩
      rcases hothers l' hl' with he | ⟨hfalse, q, hq, hpos⟩
      · exact Or.inl he
      · exact Or.inr ⟨(assignLit_litValue hn hfalse).1, q, hq, hleft hpos⟩
  · rw [List.getElem?_append_right hge] at hp
    have hp0 : p - s.trail.length = 0 := by
      have := (List.getElem?_eq_some_iff.mp hp).1
      rw [List.length_singleton] at this
      omega
    rw [hp0] at hp
    obtain rfl : l.var = v := by simpa using hp
    obtain rfl : p = s.trail.length := by omega
    rcases hf with ⟨rfl, rfl⟩ | ⟨rfl, ci, c, rfl, hci, hlc, hothers⟩
    · refine Or.inl ⟨Function.update_self _ _ _, ?_, ?_⟩
      · change 0 < Function.update s.level l.var _ l.var
        rw [Function.update_self, List.length_append, List.length_singleton]
        exact Nat.succ_pos _
      · change (s.trailLim ++ [s.trail.length])[Function.update s.level l.var _ l.var - 1]? = _
        rw [Function.update_self, List.length_append, List.length_singleton, Nat.add_sub_cancel,
          List.getElem?_concat_length]
    · refine Or.inr ⟨ci, c, l, Function.update_self _ _ _, hci, hlc, rfl, assignLit_self, fun l' hl' => ?_⟩
      rcases hothers l' hl' with he | ⟨hfalse, q, hq, hpos⟩
      · exact Or.inl he
      · exact Or.inr ⟨(assignLit_litValue hn hfalse).1, q, hq, hleft hpos⟩

theorem Grounded.assignLit {F : List (List Lit)} {s : Solver} {l : Lit} {r : Option Nat} {lim : List Nat}
    (h : Grounded s) (hc : Core F s) (hn : s.assign l.var = none) (hf : Forced s l r lim) :
    Grounded (assignLit s l r lim) := by
  refine ⟨h.reasons.assignLit (fun v => (hc.mem_trail v).mp) hn hf, fun l' hl' => ?_⟩
  obtain ⟨htrue, hz⟩ := h.units l' hl'
  obtain ⟨htrue', hlevel⟩ := assignLit_litValue (l := l) (r := r) hn htrue
  exact ⟨htrue', hlevel.trans hz⟩

theorem Core.forced {F : List (List Lit)} {s : Solver} (h : Core F s) {l : Lit} {ci : Nat} {c : List Lit}
    (hci : s.clauses[ci]? = some c) (hl : l ∈ c) (hrest : ∀ l' ∈ c, l' = l ∨ s.litValue l' = some false) :
    Forced s l (some ci) s.trailLim := by
  refine Or.inr ⟨rfl, ci, c, rfl, hci, hl, fun l' hl' => ?_⟩
  rcases hrest l' hl' with he | hfalse
  · exact Or.inl he
  · exact Or.inr ⟨hfalse, h.position_of_false hfalse⟩

/-! ## Propagating -/

theorem Grounded.swapLits {s : Solver} (h : Grounded s) (ci i j : Nat) : Grounded (s.swapLits ci i j) :=
  h.congr rfl rfl rfl rfl rfl (permStore_modify _ _ fun c => swapAt_perm c i j)

theorem visitWatcher_grounded {F : List (List Lit)} {fl : Lit} {ci : Nat} {rest : List Nat} {w : Scan}
    (h : ScanInv F fl (ci :: rest) w) (hground : Grounded w.solver) :
    Grounded (visitWatcher fl w ci).solver := by
  unfold visitWatcher
  by_cases hcf : w.conflict.isSome
  · rw [if_pos hcf]
    exact hground
  · rw [if_neg hcf]
    have hcf' : w.conflict = none := by simpa using hcf
    obtain ⟨s, other, c, hs, hc, -, hinv, -, -⟩ := h.normalise hcf'
    have hgs : Grounded s := by
      rw [hs]
      split
      · exact hground.swapLits ci 0 1
      · exact hground
    simp only [← hs, hc, List.getElem?_cons_zero]
    by_cases ht : s.litValue other = some true
    · rw [if_pos ht]
      exact hgs
    · rw [if_neg ht]
      cases hrep : s.replacement ci with
      | some k =>
        simp only
        split
        · exact (hgs.swapLits ci 1 k).congr rfl rfl rfl rfl rfl (PermStore.refl _)
        · exact hgs.swapLits ci 1 k
      | none =>
        have hrest := replacement_none hrep hc
        cases hv : s.litValue other with
        | some b => cases b <;> exact hgs
        | none =>
          have hn : s.assign other.var = none := litValue_eq_none.mp hv
          have hcl : s.clauses[ci]? = some (other :: fl :: c) := by
            have := @clauses_getElem?_of_clause s ci (by rw [hc]; simp)
            rwa [hc] at this
          simp only
          rw [enqueue_of_none hn]
          refine hgs.assignLit hinv.core hn (hinv.core.forced hcl List.mem_cons_self ?_)
          intro l' hl'
          rcases List.mem_cons.mp hl' with rfl | hl'
          · exact Or.inl rfl
          · rcases List.mem_cons.mp hl' with rfl | hl'
            · exact Or.inr hinv.fl_false
            · exact Or.inr (hrest l' hl')

theorem scan_grounded {F : List (List Lit)} {fl : Lit} (rem : List Nat) :
    ∀ {w : Scan}, ScanInv F fl rem w → Grounded w.solver →
      Grounded (rem.foldl (visitWatcher fl) w).solver := by
  induction rem with
  | nil => exact fun _ hg => hg
  | cons ci rest ih =>
    intro w h hg
    exact ih (visitWatcher_inv h).2 (visitWatcher_grounded h hg)

theorem propagateVar_grounded {F : List (List Lit)} {s : Solver} {v : Nat} {q : List Nat} (h : Inv F s)
    (hq : s.propQueue = v :: q) (hg : Grounded s) : Grounded (propagateVar { s with propQueue := q } v).1 := by
  have hscan := scan_grounded _ (scan_start h hq) (w := ⟨{ s with
    propQueue := q, watches := Function.update s.watches (litCode (s.falseLit v)) [] }, [], none⟩)
    (hg.congr rfl rfl rfl rfl rfl (PermStore.refl _))
  exact hscan.congr rfl rfl rfl rfl rfl (PermStore.refl _)

theorem propagateLoop_grounded {F : List (List Lit)} (fuel : Nat) :
    ∀ {s t : Solver} {r : Option Nat}, Inv F s → Grounded s → propagateLoop fuel s = some (t, r) →
      Grounded t := by
  induction fuel with
  | zero =>
    intro s t r _ _ h
    exact absurd h (by simp [propagateLoop])
  | succ fuel ih =>
    intro s t r hinv hg h
    rw [propagateLoop] at h
    cases hq : s.propQueue with
    | nil =>
      simp only [hq, Option.some.injEq, Prod.mk.injEq] at h
      obtain ⟨rfl, -⟩ := h
      exact hg
    | cons v q =>
      have hvar := propagateVar_grounded hinv hq hg
      obtain ⟨-, -, hquiet⟩ := propagateVar_inv hinv hq
      simp only [hq] at h
      cases hr : propagateVar { s with propQueue := q } v with
      | mk u cf =>
        rw [hr] at hvar hquiet
        simp only [hr] at h
        cases cf with
        | some ci =>
          simp only [Option.some.injEq, Prod.mk.injEq] at h
          obtain ⟨rfl, -⟩ := h
          exact hvar
        | none => exact ih (hquiet rfl) hvar h

/-! ## Jumping back -/

theorem Core.level_le_of_lt {F : List (List Lit)} {s : Solver} (h : Core F s) {bt x p v : Nat}
    (hx : s.trailLim[bt]? = some x) (hp : s.trail[p]? = some v) (hlt : p < x) : s.level v ≤ bt := by
  refine Nat.le_of_not_lt fun hgt => ?_
  exact absurd ((h.level_iff p v bt x hp hx).mpr hgt) (Nat.not_le_of_lt hlt)

theorem Grounded.backtrack {F : List (List Lit)} {s : Solver} (h : Grounded s) (hc : Core F s) {bt : Nat}
    (hlt : bt < s.decisionLevel) : Grounded (s.backtrackTo bt) := by
  have hx := List.getElem?_eq_getElem (l := s.trailLim) hlt
  have heq := backtrackTo_eq hlt hx
  set x := s.trailLim[bt] with hxdef
  have hlit := fun l b => hc.backtrack_litValue (l := l) (b := b) hlt
  have hlevel := backtrackTo_level s bt
  have hreason : (s.backtrackTo bt).reason = s.reason := by rw [heq]
  have htrail : (s.backtrackTo bt).trail = s.trail.take x := by rw [heq]
  have hlim : (s.backtrackTo bt).trailLim = s.trailLim.take bt := by rw [heq]
  constructor
  · intro p v hp
    rw [htrail, getElem?_take_iff] at hp
    obtain ⟨hpx, hp⟩ := hp
    have hle := hc.level_le_of_lt hx hp hpx
    rcases h.reasons p v hp with ⟨hnone, hpos, hopen⟩ | ⟨ci, c, l, hre, hci, hlc, rfl, htrue, hothers⟩
    · refine Or.inl ⟨by rw [hreason]; exact hnone, by rw [hlevel]; exact hpos, ?_⟩
      rw [hlevel, hlim, List.getElem?_take_of_lt (by omega)]
      exact hopen
    · refine Or.inr ⟨ci, c, l, by rw [hreason]; exact hre, by rw [backtrackTo_clauses]; exact hci, hlc, rfl,
        (hlit l true).mpr ⟨htrue, hle⟩, fun l' hl' => ?_⟩
      rcases hothers l' hl' with he | ⟨hfalse, q, hq, hpos⟩
      · exact Or.inl he
      · -- What was assigned before a variable that stays, stays.
        have hqx : q < x := Nat.lt_trans hq hpx
        refine Or.inr ⟨(hlit l' false).mpr ⟨hfalse, hc.level_le_of_lt hx hpos hqx⟩, q, hq, ?_⟩
        rw [htrail, getElem?_take_iff]
        exact ⟨hqx, hpos⟩
  · intro l hl
    rw [backtrackTo_clauses] at hl
    obtain ⟨htrue, hz⟩ := h.units l hl
    exact ⟨(hlit l true).mpr ⟨htrue, by omega⟩, by rw [hlevel]; exact hz⟩

/-! ## Learning -/

theorem Reasoned.addLearnt {s : Solver} (h : Reasoned s) (c : List Lit) (lbd : Nat) :
    Reasoned (s.addLearnt c lbd).2 := by
  intro p v hp
  rcases h p v hp with hopen | ⟨ci, d, l, hre, hci, hrest⟩
  · exact Or.inl hopen
  · refine Or.inr ⟨ci, d, l, hre, ?_, hrest⟩
    change (s.clauses ++ [c])[ci]? = some d
    rw [List.getElem?_append_left (List.getElem?_eq_some_iff.mp hci).1]
    exact hci

theorem Grounded.learn {F : List (List Lit)} {s : Solver} (h : Grounded s) (hc : Core F s) {a : Lit}
    {rest : List Lit} {lbd : Nat} (hfree : s.assign a.var = none)
    (hrest : ∀ l ∈ rest, s.litValue l = some false) (hunit : rest = [] → s.decisionLevel = 0) :
    Grounded (Sat.assignLit (s.addLearnt (a :: rest) lbd).2 a (some s.clauses.length) s.trailLim) := by
  have hforced : Forced (s.addLearnt (a :: rest) lbd).2 a (some s.clauses.length) s.trailLim := by
    refine Or.inr ⟨rfl, _, a :: rest, rfl, List.getElem?_concat_length, List.mem_cons_self, fun l hl => ?_⟩
    rcases List.mem_cons.mp hl with rfl | hl
    · exact Or.inl rfl
    · exact Or.inr ⟨hrest l hl, hc.position_of_false (hrest l hl)⟩
  refine ⟨(h.reasons.addLearnt (a :: rest) lbd).assignLit (fun v => (hc.mem_trail v).mp) hfree hforced, ?_⟩
  intro l hl
  rcases List.mem_append.mp hl with hl | hl
  · obtain ⟨htrue, hz⟩ := h.units l hl
    obtain ⟨htrue', hlevel⟩ := assignLit_litValue (s := (s.addLearnt (a :: rest) lbd).2)
      (r := some s.clauses.length) hfree htrue
    exact ⟨htrue', hlevel.trans hz⟩
  · obtain ⟨rfl, hnil⟩ : l = a ∧ rest = [] := by
      have := List.mem_singleton.mp hl
      injection this with hla hnil
      exact ⟨hla, hnil.symm⟩
    refine ⟨assignLit_self, ?_⟩
    change Function.update s.level l.var s.trailLim.length l.var = 0
    rw [Function.update_self]
    exact hunit hnil

theorem Conflict.grounded {F : List (List Lit)} (rd : Rounding) {s t : Solver} {ci bt lbd : Nat}
    {learnt : List Lit} (h : Conflict F s ci) (hg : Grounded s) (hu : UnitsOk F s)
    (hd : 0 < s.decisionLevel) (hseen : s.seen = fun _ => false) (hact : ∀ v, (s.activity v).NonNeg) (hinc : s.varInc.NonNeg)
    (han : s.analyze rd ci = some ((learnt, bt, lbd), t)) :
    (Kept F (t.backtrackTo bt) ∧ (t.backtrackTo bt).propQueue = []) ∧ Grounded (t.assertLearnt learnt bt lbd) ∧
      ∃ a rest, learnt = a :: rest ∧ (t.backtrackTo bt).assign a.var = none ∧
        ∀ l ∈ rest, (t.backtrackTo bt).litValue l = some false := by
  obtain ⟨a, rest, bt', lbd', t', hret, hok, act, inc, rfl, hact', hinc'⟩ := analyze_spec rd h hd hseen hact hinc
  rw [han] at hret
  simp only [Option.some.injEq, Prod.mk.injEq] at hret
  obtain ⟨⟨rfl, rfl, rfl⟩, rfl⟩ := hret
  set t : Solver := { s with activity := act, varInc := inc } with ht
  have hcore : Core F t := h.core.congr rfl rfl rfl rfl rfl rfl rfl (PermStore.refl _)
  have hlt : bt < t.decisionLevel := hok.lt
  obtain ⟨hinv, hq, hlevel⟩ := Inv.backtrack (s := t) hcore h.count h.watched hu hseen hact' hinc'
    hlt fun _ w hx _ => hx ▸ hlt
  have hback : Grounded (t.backtrackTo bt) :=
    (hg.congr (t := t) rfl rfl rfl rfl rfl (PermStore.refl _)).backtrack hcore hlt
  have hfree : (t.backtrackTo bt).assign a.var = none := by
    cases hv : (t.backtrackTo bt).assign a.var with
    | none => rfl
    | some b =>
      have hle : s.level a.var ≤ bt := ((hcore.backtrack_assign hlt).mp hv).2
      rw [hok.head.2] at hle
      exact absurd hok.lt (Nat.not_lt_of_le hle)
  have hrest : ∀ l ∈ rest, (t.backtrackTo bt).litValue l = some false := fun l hl =>
    (hcore.backtrack_litValue hlt).mpr ⟨(hok.tail l hl).1, (hok.tail l hl).2.2⟩
  have hlearn := @hback.learn _ _ (hcore.backtrack hlt) a rest lbd hfree hrest fun hnil =>
    hlevel.trans (hok.unit hnil)
  refine ⟨⟨⟨hinv, hback⟩, hq⟩, ?_, a, rest, rfl, hfree, hrest⟩
  have hci : ((t.backtrackTo bt).addLearnt (a :: rest) lbd).1 = (t.backtrackTo bt).clauses.length := rfl
  have hhead : (((t.backtrackTo bt).addLearnt (a :: rest) lbd).2.clause
      (t.backtrackTo bt).clauses.length)[0]? = some a := by
    rw [addLearnt_clause, if_pos rfl]
    rfl
  have hfree' : ((t.backtrackTo bt).addLearnt (a :: rest) lbd).2.assign a.var = none := hfree
  simp only [assertLearnt, hci, hhead, enqueue_of_none hfree']
  exact hlearn.congr rfl rfl rfl rfl rfl (PermStore.refl _)

theorem Grounded.decide {F : List (List Lit)} {s : Solver} (h : Grounded s) (hc : Core F s) {v : Nat}
    (hfree : s.assign v = none) : Grounded (s.decideVar v) := by
  rw [decideVar_eq hfree]
  exact h.assignLit hc hfree (Or.inl ⟨rfl, rfl⟩)

/-! ## Deleting clauses -/

theorem reason_kept {s : Solver} {v ci : Nat} (hv : v ∈ s.trail) (hre : s.reason v = some ci)
    (hlt : ci < s.clauses.length) : ci ∈ keptClauses s := by
  refine List.mem_filter.mpr ⟨List.mem_range.mpr hlt, ?_⟩
  have hlocked : s.locked ci = true := List.any_eq_true.mpr ⟨v, hv, by rw [hre]; exact beq_self_eq_true _⟩
  have hnot : ci ∉ s.candidates := by
    intro hmem
    have := (List.mem_filter.mp (List.mem_mergeSort.mp hmem)).2
    rw [hlocked] at this
    exact absurd this (by simp)
  simp only [Bool.not_eq_true', List.contains_eq_mem, decide_eq_false_iff_not]
  exact fun hmem => hnot (List.mem_of_mem_take hmem)

theorem restocked_reason {s : Solver} {v ci : Nat} {c : List Lit} (hv : v ∈ s.trail) (ha : s.assign v ≠ none)
    (hre : s.reason v = some ci) (hci : s.clauses[ci]? = some c) :
    ∃ ci', (restocked s).reason v = some ci' ∧ (restocked s).clauses[ci']? = some c := by
  have hmem := reason_kept hv hre (List.getElem?_eq_some_iff.mp hci).1
  refine ⟨(keptClauses s).idxOf ci, ?_, ?_⟩
  · obtain ⟨b, hb⟩ := Option.ne_none_iff_exists'.mp ha
    simp only [restocked, hre, hb, Option.isSome_some, if_true]
  · change ((keptClauses s).map s.clause)[(keptClauses s).idxOf ci]? = some c
    rw [List.getElem?_map, List.getElem?_idxOf hmem, Option.map_some, clause_eq hci]

theorem restocked_grounded {F : List (List Lit)} {s : Solver} (h : Grounded s) (hc : Core F s) :
    Grounded (restocked s) := by
  constructor
  · intro p v hp
    have hv : v ∈ s.trail := List.mem_of_getElem? hp
    rcases h.reasons p v hp with ⟨hnone, hopen⟩ | ⟨ci, c, l, hre, hci, hrest⟩
    · refine Or.inl ⟨?_, hopen⟩
      simp only [restocked, hnone]
    · obtain ⟨ci', hre', hci'⟩ := restocked_reason hv ((hc.mem_trail v).mp hv) hre hci
      exact Or.inr ⟨ci', c, l, hre', hci', hrest⟩
  · intro l hl
    obtain ⟨ci, hci, heq⟩ := List.mem_map.mp hl
    have hlt := List.mem_range.mp (List.mem_filter.mp hci).1
    have hget := List.getElem?_eq_getElem hlt
    rw [clause_eq hget] at heq
    exact h.units l (heq ▸ List.getElem_mem hlt)

/-- What `reduce_db` keeps of the store: the input in place, and each reason under its new number. The literals
    of a clause may be reordered, for its watches are chosen again. -/
structure Reduced (s t : Solver) : Prop where
  original : ∀ (i : Nat) (c : List Lit), i < s.numOriginal → s.clauses[i]? = some c →
    ∃ c', t.clauses[i]? = some c' ∧ c'.Perm c
  reason : ∀ v ci c, v ∈ s.trail → s.reason v = some ci → s.clauses[ci]? = some c →
    ∃ (ci' : Nat) (c' : List Lit), t.reason v = some ci' ∧ t.clauses[ci']? = some c' ∧ c'.Perm c

theorem Reduced.refl (s : Solver) : Reduced s s :=
  ⟨fun _ c _ hc => ⟨c, hc, List.Perm.refl c⟩, fun _ ci c _ hre hc => ⟨ci, c, hre, hc, List.Perm.refl c⟩⟩

theorem restocked_original {F : List (List Lit)} {s : Solver} (hc : Core F s) {i : Nat} {c : List Lit}
    (hi : i < s.numOriginal) (hci : s.clauses[i]? = some c) : (restocked s).clauses[i]? = some c := by
  change ((keptClauses s).map s.clause)[i]? = some c
  rw [List.getElem?_map, keptClauses_getElem? hi hc.numOriginal_le, Option.map_some, clause_eq hci]

theorem reduceDb_kept {F : List (List Lit)} {n : Nat} {s : Solver} (h : Settled F n s) (hg : Grounded s)
    (hz : s.decisionLevel = 0) : Kept F s.reduceDb ∧ Reduced s s.reduceDb := by
  have hinv := (reduceDb_settled h hz).inv
  have heq : s.reduceDb = if s.candidates.length / 2 = 0 then s else
      { (restocked s).rebuildWatches with
        reductions := (restocked s).rebuildWatches.reductions + 1 } := rfl
  by_cases hr : s.candidates.length / 2 = 0
  · rw [if_pos hr] at heq
    rw [heq] at hinv ⊢
    exact ⟨⟨hinv, hg⟩, Reduced.refl s⟩
  · rw [if_neg hr] at heq
    obtain ⟨hre, -, -⟩ := rebuildWatches_spec (s := restocked s) fun ci hlen => (restocked_paired h ci).ready hlen
    have hreason : (restocked s).rebuildWatches.reason = (restocked s).reason := by rw [hre.eq]
    have hground : Grounded (restocked s).rebuildWatches := by
      refine (restocked_grounded hg h.inv.core).congr ?_ ?_ hreason ?_ ?_ hre.store <;> rw [hre.eq]
    refine ⟨⟨hinv, ?_⟩, ?_, ?_⟩
    · rw [heq]
      exact hground.congr rfl rfl rfl rfl rfl (PermStore.refl _)
    · intro i c hi hci
      rw [heq]
      exact hre.store.get (restocked_original h.inv.core hi hci)
    · intro v ci c hv hrv hci
      obtain ⟨ci', hre', hci'⟩ := restocked_reason hv ((h.inv.core.mem_trail v).mp hv) hrv hci
      obtain ⟨c', hc', hperm⟩ := hre.store.get hci'
      rw [heq]
      exact ⟨ci', c', (congrFun hreason v).trans hre', hc', hperm⟩

theorem maybeRestart_grounded {F : List (List Lit)} {n : Nat} {s : Solver} (h : Settled F n s)
    (hg : Grounded s) : Grounded s.maybeRestart := by
  unfold maybeRestart
  by_cases hc : 0 < s.decisionLevel ∧ s.restartUnit * s.lubyV ≤ s.conflictsSinceRestart
  · rw [if_pos hc]
    obtain ⟨hinv, hq, hz⟩ := Inv.backtrack h.inv.core h.inv.count h.inv.watched h.inv.units
      h.inv.seen h.inv.activity h.inv.varInc hc.1 fun ci w hx => by
        rw [h.queue] at hx
        exact absurd hx List.not_mem_nil
    set t := ({ s.backtrackTo 0 with
      conflictsSinceRestart := 0, restarts := (s.backtrackTo 0).restarts + 1 } : Solver).advanceLuby with ht
    have h₁ : Settled F n { s.backtrackTo 0 with
        conflictsSinceRestart := 0, restarts := (s.backtrackTo 0).restarts + 1 } :=
      Settled.congr (s := s.backtrackTo 0) ⟨hinv, hq, (backtrackTo_numVars s 0).trans h.numVars⟩ rfl
    have hset : Settled F n t := h₁.congr (advanceLuby_congr _)
    have hback := hg.backtrack h.inv.core hc.1
    have hground : Grounded t := by
      refine hback.congr ?_ ?_ ?_ ?_ ?_ ?_ <;> rw [ht, advanceLuby_congr]
      exact PermStore.refl _
    have hzero : t.decisionLevel = 0 := by
      rw [decisionLevel, ht, advanceLuby_congr]
      exact hz
    show Grounded (if t.maxLearnt < t.clauses.length - t.numOriginal
      then { t.reduceDb with maxLearnt := t.reduceDb.maxLearnt + t.reduceDb.maxLearnt / 2 } else t)
    by_cases hm : t.maxLearnt < t.clauses.length - t.numOriginal
    · rw [if_pos hm]
      exact (reduceDb_kept hset hground hzero).1.grounded.congr rfl rfl rfl rfl rfl (PermStore.refl _)
    · rw [if_neg hm]
      exact hground
  · rw [if_neg hc]
    exact hg

/-! ## Over a run -/

theorem seedUnits_reasoned {F : List (List Lit)} (cs : List (List Lit)) :
    ∀ {pre : List (List Lit)} {s t : Solver}, F = pre ++ cs → s.clauses = F → Reasoned s →
      (∀ v ∈ s.trail, s.assign v ≠ none) → seedUnits pre.length cs s = some t →
        Reasoned t ∧ t.clauses = F := by
  induction cs with
  | nil =>
    intro pre s t _ hcl hs _ h
    obtain rfl := Option.some.inj h
    exact ⟨hs, hcl⟩
  | cons c cs ih =>
    intro pre s t hF hcl hs hall h
    have hF' : F = (pre ++ [c]) ++ cs := by rw [hF]; simp
    have hci : s.clauses[pre.length]? = some c := by rw [hcl, hF]; simp
    have hlen : (pre ++ [c]).length = pre.length + 1 := List.length_append
    match c with
    | [] => exact absurd h (by simp [seedUnits])
    | _ :: _ :: _ =>
      rw [seedUnits, ← hlen] at h
      exact ih hF' hcl hs hall h
    | [l] =>
      rw [seedUnits] at h
      cases ha : s.assign l.var with
      | some b =>
        simp only [enqueue, ha] at h
        cases hb : (b != l.neg) with
        | false =>
          rw [hb] at h
          exact absurd h (by simp)
        | true =>
          rw [hb, ← hlen] at h
          exact ih hF' hcl hs hall h
      | none =>
        rw [enqueue_of_none ha, ← hlen] at h
        have hforced : Forced s l (some pre.length) s.trailLim :=
          Or.inr ⟨rfl, _, [l], rfl, hci, List.mem_singleton_self l, fun l' hl' =>
            Or.inl (List.mem_singleton.mp hl')⟩
        refine ih (s := assignLit s l (some pre.length) s.trailLim) hF' hcl (hs.assignLit hall ha hforced) ?_ h
        intro v hv
        rcases List.mem_append.mp hv with hv | hv
        · obtain ⟨b, hb⟩ := Option.ne_none_iff_exists'.mp (hall v hv)
          rw [(assignLit_keeps ha hb).1]
          exact Option.some_ne_none b
        · rw [List.mem_singleton.mp hv]
          change Function.update s.assign l.var (some !l.neg) l.var ≠ none
          rw [Function.update_self]
          exact Option.some_ne_none _

namespace Solver.Phase

/-- The invariant at each phase of a call on `F`: where a propagation has just ended, nothing is queued. -/
def Watched (F : List (List Lit)) : Phase → Prop
  | .head _ s _ => Kept F s ∧ s.propQueue = []
  | .propagating _ s _ => Kept F s
  | .returned _ => True

theorem Watched.head {F : List (List Lit)} {n b : Nat} {s : Solver} {k : Clock} (h : (Phase.head b s k).Ok F n)
    (hw : (Phase.head b s k).Watched F) : (stepHead b s k).Watched F := by
  have hset := maybeRestart_settled h
  have hground := maybeRestart_grounded h hw.1.grounded
  cases hpick : s.maybeRestart.pickBranch with
  | none =>
    simp only [stepHead, hpick]
    trivial
  | some v =>
    obtain ⟨hlt, hfree⟩ := pickBranch_some hpick
    cases b with
    | zero =>
      simp only [stepHead, hpick]
      trivial
    | succ b =>
      cases hk : k.timedOut with
      | mk late k' =>
        cases late with
        | true =>
          simp only [stepHead, hpick, hk]
          trivial
        | false =>
          simp only [stepHead, hpick, hk]
          exact ⟨hset.inv.decide hset.queue hfree hlt, hground.decide hset.inv.core hfree⟩

theorem Watched.conflict {F : List (List Lit)} {n : Nat} (rd : Rounding) {b : Nat} {s t t' : Solver} {k : Clock}
    {confl bt lbd : Nat} {learnt : List Lit} (h : (Phase.propagating b s k).Ok F n)
    (hw : (Phase.propagating b s k).Watched F) (hp : s.propagate = some (t, some confl))
    (hd : 0 < t.decisionLevel) (han : t.analyze rd confl = some ((learnt, bt, lbd), t')) :
    (Kept F (t'.backtrackTo bt) ∧ (t'.backtrackTo bt).propQueue = []) ∧ Kept F (t'.assertLearnt learnt bt lbd) ∧
      ∃ a rest, learnt = a :: rest ∧ (t'.backtrackTo bt).assign a.var = none ∧
        ∀ l ∈ rest, (t'.backtrackTo bt).litValue l = some false := by
  obtain ⟨hg, hconf, -⟩ := propagate_inv h.1 hp
  have hc := hconf confl rfl
  have hseen := hg.seen.trans h.1.seen
  have hact : ∀ v, (t.activity v).NonNeg := fun v => hg.activity ▸ h.1.activity v
  have hinc : t.varInc.NonNeg := hg.varInc ▸ h.1.varInc
  have hground : Grounded t := propagateLoop_grounded _ hw.inv hw.grounded hp
  obtain ⟨learnt₁, bt₁, lbd₁, t₁, han₁, -, hinv, -⟩ := h.conflict rd hp hd
  have hsame := han₁.returns
  rw [han] at hsame
  simp only [Option.some.injEq, Prod.mk.injEq] at hsame
  obtain ⟨⟨rfl, rfl, rfl⟩, rfl⟩ := hsame
  obtain ⟨hback, hassert, hlearnt⟩ := hc.grounded rd hground (h.1.units.grow hg) hd hseen hact hinc han
  exact ⟨hback, ⟨hinv, hassert⟩, hlearnt⟩

theorem Watched.step {F : List (List Lit)} {n : Nat} {rd : Rounding} {w u : Phase} (h : w.Ok F n)
    (hw : w.Watched F) (hstep : w.step rd = some u) : u.Watched F := by
  cases w with
  | returned r =>
    obtain rfl := Option.some.inj hstep
    trivial
  | head b s k =>
    obtain rfl := Option.some.inj hstep
    exact hw.head h
  | propagating b s k =>
    obtain ⟨t, r, hp⟩ := propagate_isSome h.1
    have hground : Grounded t := propagateLoop_grounded _ hw.inv hw.grounded hp
    obtain ⟨-, -, hquiet⟩ := propagate_inv h.1 hp
    cases r with
    | none =>
      simp only [Phase.step, stepPropagating, hp, Option.some.injEq] at hstep
      obtain rfl := hstep
      exact ⟨⟨(hquiet rfl).1, hground⟩, (hquiet rfl).2⟩
    | some confl =>
      by_cases hz : t.trailLim = []
      · simp only [Phase.step, stepPropagating, hp, if_pos hz, Option.some.injEq] at hstep
        obtain rfl := hstep
        trivial
      · have hd : 0 < t.decisionLevel := List.length_pos_iff.mpr hz
        obtain ⟨learnt, bt, lbd, t', han, -, -, -, hnext⟩ := h.conflict rd hp hd
        rcases hnext with ⟨-, hnext⟩ | ⟨-, k', hnext⟩
        · rw [hnext] at hstep
          obtain rfl := Option.some.inj hstep
          trivial
        · rw [hnext] at hstep
          obtain rfl := Option.some.inj hstep
          exact (Watched.conflict rd h hw hp hd han.returns).2.1

theorem Watched.run {F : List (List Lit)} {n : Nat} {rd : Rounding} {w u : Phase} {d : Nat} (h : w.Ok F n)
    (hw : w.Watched F) (hrun : Run rd w d u) : u.Watched F := by
  induction hrun with
  | refl => exact hw
  | tail hpre hstep ih => exact Watched.step (h.run hpre).1 ih hstep

end Solver.Phase

theorem start_watched {n : Nat} {F : List (List Lit)} (hb : ∀ c ∈ F, ∀ l ∈ c, l.var < n) {budget : Nat}
    {expired : Nat → Bool} {w : Solver.Phase} (hw : Phase.start n F budget expired = some w) :
    w.Ok F n ∧ w.Watched F := by
  obtain ⟨w', hw', hok, -⟩ := start_spec Rounding.exact hb budget expired
  obtain rfl := Option.some.inj (hw.symm.trans hw')
  refine ⟨hok, ?_⟩
  have hseed := @seedUnits_spec F F [] _ 0 (List.nil_append F).symm hb (new_seeding hb)
  rw [Phase.start] at hw
  cases hs : seedUnits 0 F (Solver.new n F) with
  | none =>
    simp only [hs, Option.some.injEq] at hw
    rw [← hw]
    trivial
  | some s =>
    rw [hs] at hseed
    obtain ⟨hseeding, -⟩ := hseed
    have hempty : Reasoned (Solver.new n F) := fun p v hp => absurd hp (by simp [Solver.new])
    obtain ⟨hreasoned, hclauses⟩ := seedUnits_reasoned F (List.nil_append F).symm rfl hempty
      (fun v hv => absurd hv List.not_mem_nil) hs
    have hground : Grounded s := ⟨hreasoned, fun l hl => hseeding.units.2 l (hclauses ▸ hl)⟩
    obtain ⟨t, r, hp⟩ := propagate_isSome hseeding.inv
    simp only [hs, hp] at hw
    cases r with
    | some confl =>
      obtain rfl := Option.some.inj hw
      trivial
    | none =>
      obtain rfl := Option.some.inj hw
      obtain ⟨-, -, hquiet⟩ := propagate_inv hseeding.inv hp
      exact ⟨⟨(hquiet rfl).1, propagateLoop_grounded _ hseeding.inv hground hp⟩, (hquiet rfl).2⟩

/-! ## The operations -/

theorem Kept.enqueue {F : List (List Lit)} {s : Solver} (h : Kept F s) {l : Lit} {ci : Nat} {c : List Lit}
    (hfree : s.assign l.var = none) (hci : s.clauses[ci]? = some c) (hl : l ∈ c)
    (hrest : ∀ l' ∈ c, l' = l ∨ s.litValue l' = some false) : Kept F (s.enqueue l (some ci)).2 := by
  rw [enqueue_of_none hfree]
  have hlt : l.var < s.numVars := h.inv.core.bounded c (List.mem_of_getElem? hci) l hl
  refine ⟨⟨?_, h.inv.count, ?_, h.inv.queue.assignLit hfree, ?_, h.inv.seen, h.inv.activity, h.inv.varInc⟩,
    h.grounded.assignLit h.inv.core hfree (h.inv.core.forced hci hl hrest)⟩
  · refine h.inv.core.assignLit hfree hlt (Or.inl rfl) (fun _ => Or.inr ⟨ci, c, rfl, hci, hrest⟩) ?_
    exact fun hz => h.inv.core.unit_entailed hci hz hrest
  · refine (h.inv.watched.assignLit hfree).mono fun x w hx => ?_
    rcases hx with hx | hx
    · exact List.mem_cons_of_mem _ hx
    · exact hx ▸ List.mem_cons_self
  · exact h.inv.units.grow (Grow.assignLit hfree)

theorem Kept.decideVar {F : List (List Lit)} {s : Solver} (h : Kept F s) (hq : s.propQueue = []) {v : Nat}
    (hfree : s.assign v = none) (hlt : v < s.numVars) : Kept F (s.decideVar v) :=
  ⟨h.inv.decide hq hfree hlt, h.grounded.decide h.inv.core hfree⟩

theorem Kept.backtrackTo {F : List (List Lit)} {s : Solver} (h : Kept F s) (hq : s.propQueue = []) (bt : Nat) :
    Kept F (s.backtrackTo bt) ∧ (s.backtrackTo bt).propQueue = [] := by
  by_cases hlt : bt < s.decisionLevel
  · obtain ⟨hinv, hq', -⟩ := Inv.backtrack h.inv.core h.inv.count h.inv.watched h.inv.units h.inv.seen
      h.inv.activity h.inv.varInc hlt fun ci w hx => by
        rw [hq] at hx
        exact absurd hx List.not_mem_nil
    exact ⟨⟨hinv, h.grounded.backtrack h.inv.core hlt⟩, hq'⟩
  · rw [Solver.backtrackTo, if_pos (Nat.le_of_not_lt hlt)]
    exact ⟨h, hq⟩

theorem Kept.reduceDb {F : List (List Lit)} {s : Solver} (h : Kept F s) (hq : s.propQueue = [])
    (hz : s.decisionLevel = 0) : (Kept F s.reduceDb ∧ s.reduceDb.propQueue = []) ∧ Reduced s s.reduceDb := by
  have hset : Settled F s.numVars s := ⟨h.inv, hq, rfl⟩
  obtain ⟨hkept, hreduced⟩ := reduceDb_kept hset h.grounded hz
  exact ⟨⟨hkept, (reduceDb_settled hset hz).queue⟩, hreduced⟩

/-- The operations keep the invariant. -/
structure Preserved (F : List (List Lit)) : Prop where
  enqueue : ∀ (s : Solver) (l : Lit) (ci : Nat) (c : List Lit), Kept F s → s.assign l.var = none →
    s.clauses[ci]? = some c → l ∈ c → (∀ l' ∈ c, l' = l ∨ s.litValue l' = some false) →
      Kept F (s.enqueue l (some ci)).2
  decideVar : ∀ (s : Solver) (v : Nat), Kept F s → s.propQueue = [] → s.assign v = none → v < s.numVars →
    Kept F (s.decideVar v)
  backtrackTo : ∀ (s : Solver) (bt : Nat), Kept F s → s.propQueue = [] →
    Kept F (s.backtrackTo bt) ∧ (s.backtrackTo bt).propQueue = []
  reduceDb : ∀ s : Solver, Kept F s → s.propQueue = [] → s.decisionLevel = 0 →
    (Kept F s.reduceDb ∧ s.reduceDb.propQueue = []) ∧ Reduced s s.reduceDb

theorem preserved (F : List (List Lit)) : Preserved F where
  enqueue := fun _ _ _ _ h => h.enqueue
  decideVar := fun _ _ h hq hfree hlt => h.decideVar hq hfree hlt
  backtrackTo := fun _ bt h hq => h.backtrackTo hq bt
  reduceDb := fun _ h => h.reduceDb

/-- What a conflict above level 0 leads to. The jump back keeps the invariant; the learnt clause is then the only
    one with a lone unassigned literal, until that is asserted. -/
structure Relearnt (F : List (List Lit)) (learnt : List Lit) (bt lbd : Nat) (t : Solver) : Prop where
  back : Kept F (t.backtrackTo bt) ∧ (t.backtrackTo bt).propQueue = []
  alone : ∃ a rest, learnt = a :: rest ∧ (t.backtrackTo bt).assign a.var = none ∧
    ∀ l ∈ rest, (t.backtrackTo bt).litValue l = some false
  asserted : Kept F (t.assertLearnt learnt bt lbd)

/-- **The watched literals.** Whenever a propagation has ended without conflict, each clause is watched by its first
    two literals, no clause has a lone unassigned literal, and trail, levels and reasons are consistent. -/
theorem watched_literals (rd : Rounding) (numVars : Nat) (clauses : List (List Lit))
    (hvars : ∀ c ∈ clauses, ∀ l ∈ c, l.var < numVars) (budget : Nat) (expired : Nat → Bool) (w : Solver.Phase)
    (hw : Phase.start numVars clauses budget expired = some w) :
    (∀ d b s k, Phase.Run rd w d (.head b s k) → Kept clauses s ∧ Quiescent s) ∧
    (∀ d b s k, Phase.Run rd w d (.propagating b s k) → Kept clauses s ∧
      (∀ t, s.propagate = some (t, none) → Quiescent t) ∧
      ∀ t confl learnt bt lbd t', s.propagate = some (t, some confl) → 0 < t.decisionLevel →
        t.analyze rd confl = some ((learnt, bt, lbd), t') → Relearnt clauses learnt bt lbd t') ∧
    Preserved clauses := by
  obtain ⟨hok, hstart⟩ := start_watched hvars hw
  refine ⟨?_, ?_, preserved clauses⟩
  · intro d b s k hrun
    obtain ⟨hkept, hq⟩ := Phase.Watched.run hok hstart hrun
    exact ⟨hkept, hkept.quiescent hq⟩
  · intro d b s k hrun
    have hphase := (hok.run hrun).1
    have hkept := Phase.Watched.run hok hstart hrun
    refine ⟨hkept, ?_, ?_⟩
    · intro t hp
      have hstep : (Phase.propagating b s k).step rd = some (.head b t k) := by
        simp only [Phase.step, stepPropagating, hp]
      obtain ⟨hkept', hq⟩ := Phase.Watched.step hphase hkept hstep
      exact hkept'.quiescent hq
    · intro t confl learnt bt lbd t' hp hd han
      obtain ⟨hback, hassert, hlearnt⟩ := Phase.Watched.conflict rd hphase hkept hp hd han
      exact ⟨hback, hlearnt, hassert⟩

/-- The two clauses that refute the first variable, before any decision. -/
theorem watched_literals_lateConflict : Quiescent (decided 0 0) :=
  ((watched_literals Rounding.exact 2 (lateConflict 0) (by decide) 1 (fun _ => true) _
    (start_lateConflict 0 1 _)).1 0 1 (decided 0 0) ⟨fun _ => true, 0, 0⟩ .refl).2

/-- **Between `add_learnt` and the assertion** the learnt clause has a lone unassigned literal. -/
theorem addLearnt_leaves_unit : ¬ ∀ (rd : Rounding) (n : Nat) (F : List (List Lit)),
    (∀ c ∈ F, ∀ l ∈ c, l.var < n) → ∀ budget expired w, Phase.start n F budget expired = some w →
      ∀ d b s k t confl learnt bt lbd t', Phase.Run rd w d (.propagating b s k) →
        s.propagate = some (t, some confl) → t.analyze rd confl = some ((learnt, bt, lbd), t') →
          NoUnit (t'.backtrackTo bt) → NoUnit ((t'.backtrackTo bt).addLearnt learnt lbd).2 := by
  intro h
  have hvars : ∀ c ∈ lateConflict 0, ∀ l ∈ c, l.var < 2 := by decide
  have hw := start_lateConflict 0 1 fun _ => true
  obtain ⟨hok, hstart⟩ := start_watched hvars hw
  obtain ⟨t, hp, hlevel⟩ := propagate_conflict 0
  have hd : 0 < t.decisionLevel := by omega
  have hrun : Phase.Run Rounding.exact _ _ _ :=
    Phase.Run.refl.tail (step_decision (n := 0) (k := 0) (b := 0) (c := ⟨fun _ => true, 0, 0⟩) (by decide)
      (by decide) Rounding.exact)
  have hphase := (hok.run hrun).1
  have hkept := Phase.Watched.run hok hstart hrun
  obtain ⟨learnt, bt, lbd, t', han, -⟩ := Phase.Ok.conflict Rounding.exact hphase hp hd
  obtain ⟨⟨hback, hq⟩, -, a, rest, rfl, hfree, hrest⟩ :=
    Phase.Watched.conflict Rounding.exact hphase hkept hp hd han.returns
  have hall := h Rounding.exact 2 (lateConflict 0) hvars 1 (fun _ => true) _ hw _ _ _ _ t 1 _ bt lbd t' hrun hp
    han.returns (hback.quiescent hq).noUnit
  obtain ⟨j, l, hj, hl, hvalue⟩ := hall (a :: rest) (List.mem_append_right _ (List.mem_singleton_self _)) 0 a rfl
    (litValue_eq_none.mpr hfree)
  cases j with
  | zero => exact hj rfl
  | succ j => exact hvalue (hrest l (List.mem_of_getElem? hl))

end Csolver.Sat
