import Csolver.Solver.SatInv

/-!
# Unit propagation keeps the invariants

`visitWatcher_inv` is the step: one watcher of the literal that just became false. Everything else
is induction — over the watch list (`scan_inv`) and over the queue (`propagate_inv`).

Inside the walk the false literal `fl` is the one exemption of `TwoWatched`, and only at the clauses
still to be visited. A clause watching `fl` twice is visited twice; `ScanInv.keep_head` says that a
clause once retained does not come again.
-/

namespace Csolver.Sat

open Csolver.Lib Csolver.Core
open Solver

/-! ## Assigning more -/

/-- `t` is `s` with more variables assigned and clauses possibly reordered. -/
structure Grow (s t : Solver) : Prop where
  numVars : t.numVars = s.numVars
  trailLim : t.trailLim = s.trailLim
  numOriginal : t.numOriginal = s.numOriginal
  seen : t.seen = s.seen
  activity : t.activity = s.activity
  varInc : t.varInc = s.varInc
  store : PermStore s.clauses t.clauses
  assign : ∀ v b, s.assign v = some b → t.assign v = some b ∧ t.level v = s.level v

theorem Grow.refl (s : Solver) : Grow s s :=
  ⟨rfl, rfl, rfl, rfl, rfl, rfl, PermStore.refl _, fun _ _ h => ⟨h, rfl⟩⟩

theorem Grow.trans {s t u : Solver} (h₁ : Grow s t) (h₂ : Grow t u) : Grow s u where
  numVars := h₂.numVars.trans h₁.numVars
  trailLim := h₂.trailLim.trans h₁.trailLim
  numOriginal := h₂.numOriginal.trans h₁.numOriginal
  seen := h₂.seen.trans h₁.seen
  activity := h₂.activity.trans h₁.activity
  varInc := h₂.varInc.trans h₁.varInc
  store := h₁.store.trans h₂.store
  assign v b h := by
    obtain ⟨ha, hl⟩ := h₁.assign v b h
    obtain ⟨ha', hl'⟩ := h₂.assign v b ha
    exact ⟨ha', hl'.trans hl⟩

theorem Grow.litValue {s t : Solver} (h : Grow s t) {l : Lit} {b : Bool}
    (hl : s.litValue l = some b) : t.litValue l = some b ∧ t.level l.var = s.level l.var := by
  unfold Solver.litValue at hl ⊢
  cases ha : s.assign l.var with
  | none => simp [ha] at hl
  | some x =>
    obtain ⟨ha', hlev⟩ := h.assign _ _ ha
    rw [ha] at hl
    rw [ha']
    exact ⟨hl, hlev⟩

theorem UnitsOk.grow {F : List (List Lit)} {s t : Solver} (h : UnitsOk F s) (hg : Grow s t) :
    UnitsOk F t := by
  refine ⟨h.1, fun l hl => ?_⟩
  obtain ⟨hv, hz⟩ := h.2 l hl
  obtain ⟨hv', hz'⟩ := hg.litValue hv
  exact ⟨hv', hz'.trans hz⟩

/-- The state `enqueue` moves to when the variable is free. -/
def assignLit (s : Solver) (l : Lit) (r : Option Nat) (lim : List Nat) : Solver :=
  { s with
    assign := Function.update s.assign l.var (some !l.neg)
    level := Function.update s.level l.var lim.length
    reason := Function.update s.reason l.var r
    trail := s.trail ++ [l.var]
    trailLim := lim
    propQueue := l.var :: s.propQueue }

theorem enqueue_of_none {s : Solver} {l : Lit} {r : Option Nat} (h : s.assign l.var = none) :
    s.enqueue l r = (true, assignLit s l r s.trailLim) := by
  simp [enqueue, h, assignLit, decisionLevel]

theorem assignLit_assign_ne {s : Solver} {l : Lit} {r : Option Nat} {lim : List Nat} {v : Nat}
    (h : v ≠ l.var) : (assignLit s l r lim).assign v = s.assign v := by
  simp [assignLit, Function.update_of_ne h]

theorem assignLit_level_ne {s : Solver} {l : Lit} {r : Option Nat} {lim : List Nat} {v : Nat}
    (h : v ≠ l.var) : (assignLit s l r lim).level v = s.level v := by
  simp [assignLit, Function.update_of_ne h]

theorem assignLit_self {s : Solver} {l : Lit} {r : Option Nat} {lim : List Nat} :
    (assignLit s l r lim).litValue l = some true := by
  rw [litValue_eq_true]; simp [assignLit]

theorem ne_of_assigned {s : Solver} {l : Lit} {v : Nat} {b : Bool} (hn : s.assign l.var = none)
    (h : s.assign v = some b) : v ≠ l.var := by
  rintro rfl; rw [hn] at h; exact absurd h (by simp)

theorem assignLit_keeps {s : Solver} {l : Lit} {r : Option Nat} {lim : List Nat}
    (hn : s.assign l.var = none) {v : Nat} {b : Bool} (h : s.assign v = some b) :
    (assignLit s l r lim).assign v = some b ∧ (assignLit s l r lim).level v = s.level v := by
  have hne := ne_of_assigned hn h
  exact ⟨by rw [assignLit_assign_ne hne]; exact h, assignLit_level_ne hne⟩

theorem assignLit_litValue {s : Solver} {l l' : Lit} {r : Option Nat} {lim : List Nat} {b : Bool}
    (hn : s.assign l.var = none) (h : s.litValue l' = some b) :
    (assignLit s l r lim).litValue l' = some b ∧
      (assignLit s l r lim).level l'.var = s.level l'.var := by
  unfold Solver.litValue at h ⊢
  cases ha : s.assign l'.var with
  | none => simp [ha] at h
  | some x =>
    obtain ⟨ha', hl'⟩ := assignLit_keeps (r := r) hn ha
    rw [ha] at h
    rw [ha']
    exact ⟨h, hl'⟩

theorem Grow.assignLit {s : Solver} {l : Lit} {r : Option Nat} (hn : s.assign l.var = none) :
    Grow s (assignLit s l r s.trailLim) :=
  ⟨rfl, rfl, rfl, rfl, rfl, rfl, PermStore.refl _, fun _ _ h => assignLit_keeps hn h⟩

theorem Core.assignLit {F : List (List Lit)} {s : Solver} {l : Lit} {r : Option Nat}
    {lim : List Nat} (h : Core F s) (hn : s.assign l.var = none) (hlt : l.var < s.numVars)
    (hlim : lim = s.trailLim ∨ lim = s.trailLim ++ [s.trail.length])
    (hreason : 0 < lim.length → lim[lim.length - 1]? = some s.trail.length ∨
      ∃ ci c, r = some ci ∧ s.clauses[ci]? = some c ∧ ∀ l' ∈ c, l' = l ∨ s.litValue l' = some false)
    (hzero : lim.length = 0 → ∀ m, satAll m F → litTrue m l) :
    Core F (assignLit s l r lim) := by
  have hfresh : l.var ∉ s.trail := fun hm => (h.mem_trail _).mp hm hn
  have hpos : ∀ {p v}, (s.trail ++ [l.var])[p]? = some v →
      (s.trail[p]? = some v ∧ v ≠ l.var) ∨ (p = s.trail.length ∧ v = l.var) := by
    intro p v hp
    rcases Nat.lt_or_ge p s.trail.length with hlt' | hge
    · rw [List.getElem?_append_left hlt'] at hp
      refine Or.inl ⟨hp, ?_⟩
      rintro rfl
      exact hfresh (List.mem_of_getElem? hp)
    · rw [List.getElem?_append_right hge] at hp
      obtain ⟨hz, hv⟩ := List.getElem?_eq_some_iff.mp hp
      have : p - s.trail.length = 0 := by simpa using hz
      refine Or.inr ⟨by omega, ?_⟩
      simpa [this] using hv.symm
  have hlen : ∀ x ∈ lim, x ≤ s.trail.length := by
    intro x hx
    rcases hlim with rfl | rfl
    · exact (h.lim_lt x hx).le
    · rcases List.mem_append.mp hx with hx | hx
      · exact (h.lim_lt x hx).le
      · simp at hx; omega
  have hle : s.trailLim.length ≤ lim.length := by
    rcases hlim with rfl | rfl <;> simp
  have hgrow : ∀ {l' b}, s.litValue l' = some b → (Sat.assignLit s l r lim).litValue l' = some b :=
    fun hv => (assignLit_litValue hn hv).1
  refine
    { nodup := ?_, mem_trail := ?_, trail_lt := ?_, lim_sorted := ?_, lim_lt := ?_, level_iff := ?_,
      level_le := ?_, reason_ok := ?_, entails := h.entails, bounded := h.bounded,
      original := h.original, numOriginal_eq := h.numOriginal_eq, level_zero := ?_ }
  · exact List.nodup_append.mpr ⟨h.nodup, by simp, fun a ha b hb => by
      simp at hb; subst hb; rintro rfl; exact hfresh ha⟩
  · intro v
    by_cases hv : v = l.var
    · subst hv; simp [Sat.assignLit]
    · rw [assignLit_assign_ne hv]
      simp only [Sat.assignLit, List.mem_append, List.mem_singleton, hv, or_false]
      exact h.mem_trail v
  · intro v hv
    rcases List.mem_append.mp hv with hv | hv
    · exact h.trail_lt v hv
    · simp at hv; subst hv; exact hlt
  · rcases hlim with rfl | rfl
    · exact h.lim_sorted
    · exact List.pairwise_append.mpr ⟨h.lim_sorted, by simp, fun a ha b hb => by
        simp at hb; subst hb; exact h.lim_lt a ha⟩
  · intro x hx
    have := hlen x hx
    simp [Sat.assignLit]; omega
  · intro p v j x hp hj
    have hjlt : j < lim.length := (List.getElem?_eq_some_iff.mp hj).1
    rcases hpos hp with ⟨hp', hne⟩ | ⟨rfl, rfl⟩
    · rw [assignLit_level_ne hne]
      rcases Nat.lt_or_ge j s.trailLim.length with hj' | hj'
      · refine h.level_iff p v j x hp' ?_
        rcases hlim with rfl | rfl
        · exact hj
        · change (s.trailLim ++ [s.trail.length])[j]? = some x at hj
          rwa [List.getElem?_append_left hj'] at hj
      · -- the level just opened lies above every earlier assignment
        have hplt := (List.getElem?_eq_some_iff.mp hp').1
        have hlev := h.level_le v (List.mem_of_getElem? hp')
        rcases hlim with rfl | rfl
        · omega
        · change (s.trailLim ++ [s.trail.length])[j]? = some x at hj
          rw [List.getElem?_append_right hj'] at hj
          obtain ⟨hz, hx⟩ := List.getElem?_eq_some_iff.mp hj
          have hz' : j - s.trailLim.length = 0 := by simpa using hz
          simp only [hz', List.getElem_cons_zero] at hx
          omega
    · have := hlen x (List.mem_of_getElem? hj)
      simp only [Sat.assignLit, Function.update_self]
      exact ⟨fun _ => hjlt, fun _ => this⟩
  · intro v hv
    rcases List.mem_append.mp hv with hv' | hv'
    · have hne : v ≠ l.var := by rintro rfl; exact hfresh hv'
      rw [assignLit_level_ne hne]
      exact (h.level_le v hv').trans hle
    · simp at hv'; subst hv'; simp [Sat.assignLit]
  · intro p v hp hv
    rcases hpos hp with ⟨hp', hne⟩ | ⟨rfl, rfl⟩
    · rw [assignLit_level_ne hne] at hv ⊢
      have hmem := List.mem_of_getElem? hp'
      rcases h.reason_ok p v hp' hv with hd | ⟨ci, c, hr, hc, hok⟩
      · refine Or.inl ?_
        rcases hlim with rfl | rfl
        · exact hd
        · exact (List.getElem?_append_left (List.getElem?_eq_some_iff.mp hd).1).trans hd
      · refine Or.inr ⟨ci, c, by simpa [Sat.assignLit, Function.update_of_ne hne] using hr, hc, ?_⟩
        intro l' hl'
        rcases hok l' hl' with ⟨hv', ht⟩ | ⟨hf, q, hq, hqv⟩
        · exact Or.inl ⟨hv', hgrow ht⟩
        · exact Or.inr ⟨hgrow hf, q, hq,
            (List.getElem?_append_left (List.getElem?_eq_some_iff.mp hqv).1).trans hqv⟩
    · have hself : (Sat.assignLit s l r lim).level l.var = lim.length := by simp [Sat.assignLit]
      rw [hself] at hv ⊢
      rcases hreason hv with hd | ⟨ci, c, hr, hc, hok⟩
      · exact Or.inl hd
      · refine Or.inr ⟨ci, c, by simpa [Sat.assignLit] using hr, hc, ?_⟩
        intro l' hl'
        rcases hok l' hl' with rfl | hf
        · exact Or.inl ⟨rfl, assignLit_self⟩
        · refine Or.inr ⟨hgrow hf, ?_⟩
          have hmem : l'.var ∈ s.trail := (h.mem_trail _).mpr (by
            rw [litValue_eq_false] at hf; rw [hf]; simp)
          obtain ⟨q, hq⟩ := List.mem_iff_getElem?.mp hmem
          have hqlt := (List.getElem?_eq_some_iff.mp hq).1
          exact ⟨q, hqlt, (List.getElem?_append_left hqlt).trans hq⟩
  · intro v b hb hlev m hm
    by_cases hv : v = l.var
    · subst hv
      simp only [Sat.assignLit, Function.update_self, Option.some.injEq] at hb hlev
      rw [← hb]
      exact hzero hlev m hm
    · rw [assignLit_assign_ne hv] at hb
      rw [assignLit_level_ne hv] at hlev
      exact h.level_zero v b hb hlev m hm

theorem QueueOk.assignLit {s : Solver} {l : Lit} {r : Option Nat} (h : QueueOk s)
    (hn : s.assign l.var = none) : QueueOk (assignLit s l r s.trailLim) := by
  intro v hv
  rcases List.mem_cons.mp hv with rfl | hv
  · simp [Sat.assignLit, decisionLevel]
  · obtain ⟨ha, hl⟩ := h v hv
    obtain ⟨b, hb⟩ := Option.ne_none_iff_exists'.mp ha
    obtain ⟨ha', hl'⟩ := assignLit_keeps (r := r) hn hb
    exact ⟨by rw [ha']; simp, hl'.trans hl⟩

theorem TwoWatched.assignLit {ex : Nat → Lit → Prop} {s : Solver} {l : Lit} {r : Option Nat}
    {lim : List Nat} (h : TwoWatched ex s) (hn : s.assign l.var = none) :
    TwoWatched (fun ci w => ex ci w ∨ w.var = l.var) (assignLit s l r lim) := by
  intro ci i w o hi hw ho hf
  by_cases hv : w.var = l.var
  · exact Or.inl (Or.inr hv)
  · have hf' : s.litValue w = some false := by
      rw [litValue_eq_false] at hf ⊢
      rwa [assignLit_assign_ne hv] at hf
    rcases h ci i w o hi hw ho hf' with he | ⟨ht, hle⟩
    · exact Or.inl (Or.inl he)
    · obtain ⟨ht', hlo⟩ := assignLit_litValue (r := r) hn ht
      exact Or.inr ⟨ht', by rw [hlo, assignLit_level_ne hv]; exact hle⟩

/-! ## Moving watches -/

theorem clause_swapLits (s : Solver) (ci i j ci' : Nat) :
    (s.swapLits ci i j).clause ci' =
      if ci' = ci then swapAt (s.clause ci) i j else s.clause ci' := by
  unfold clause swapLits
  simp only [List.getD_eq_getElem?_getD, List.getElem?_modify]
  by_cases h : ci' = ci
  · subst h
    cases hc : s.clauses[ci']? <;> simp [swapAt]
  · have h' : ci ≠ ci' := fun he => h he.symm
    simp [h, h']

theorem Grow.swapLits (s : Solver) (ci i j : Nat) : Grow s (s.swapLits ci i j) :=
  ⟨rfl, rfl, rfl, rfl, rfl, rfl, permStore_modify _ _ fun c => swapAt_perm c i j,
    fun _ _ h => ⟨h, rfl⟩⟩

theorem Core.swapLits {F : List (List Lit)} {s : Solver} (h : Core F s) (ci i j : Nat) :
    Core F (s.swapLits ci i j) :=
  h.congr rfl rfl rfl rfl rfl rfl rfl (permStore_modify _ _ fun c => swapAt_perm c i j)

theorem swapAt_zero_one (a b : Lit) (r : List Lit) : swapAt (a :: b :: r) 0 1 = b :: a :: r := by
  simp [swapAt]

/-- Exchanging the two watches of one clause changes neither which literals watch it nor how they
    are paired. -/
theorem swap_watches {s : Solver} {ci : Nat} {a b : Lit} {r : List Lit}
    (hc : s.clause ci = a :: b :: r) {extra : Nat → Lit → Nat} {ex : Nat → Lit → Prop}
    (hcount : CountOk extra s) (htw : TwoWatched ex s) :
    CountOk extra (s.swapLits ci 0 1) ∧ TwoWatched ex (s.swapLits ci 0 1) := by
  have hcl : ∀ ci', (s.swapLits ci 0 1).clause ci' =
      if ci' = ci then b :: a :: r else s.clause ci' := by
    intro ci'
    rw [clause_swapLits, hc, swapAt_zero_one]
  constructor
  · intro ci' l
    rw [hcl]
    have := hcount ci' l
    by_cases h : ci' = ci
    · subst h
      rw [hc] at this
      simp only [watchCount, if_true] at this ⊢
      exact this.trans (Nat.add_comm _ _)
    · rw [if_neg h]; exact this
  · intro ci' i w o hi hw ho hf
    rw [hcl] at hw ho
    by_cases h : ci' = ci
    · subst h
      rw [if_pos rfl] at hw ho
      -- position `i` of the exchanged clause is position `1 - i` of the old one
      have hswap : ∀ k x, k < 2 → (b :: a :: r)[k]? = some x → (s.clause ci')[1 - k]? = some x := by
        intro k x hk hx
        rw [hc]
        rcases k with _ | _ | k
        · simpa using hx
        · simpa using hx
        · omega
      have hi' : 1 - (1 - i) = i := by omega
      exact htw ci' (1 - i) w o (by omega) (hswap i w hi hw) (hswap (1 - i) o (by omega) ho) hf
    · rw [if_neg h] at hw ho
      exact htw ci' i w o hi hw ho hf

/-! ## One walk over a watch list -/

/-- The walk over the watchers of `fl`, with `rem` still to be visited. -/
structure ScanInv (F : List (List Lit)) (fl : Lit) (rem : List Nat) (w : Scan) : Prop where
  core : Core F w.solver
  empty : w.solver.watches (litCode fl) = []
  count : CountOk (fun ci l => if l = fl then w.keep.count ci + rem.count ci else 0) w.solver
  watched : TwoWatched (fun ci x => x.var ∈ w.solver.propQueue ∨
    (x = fl ∧ (ci ∈ rem ∨ w.conflict.isSome))) w.solver
  queue : QueueOk w.solver
  fl_false : w.solver.litValue fl = some false
  fl_level : w.solver.level fl.var = w.solver.decisionLevel
  keep_head : w.conflict = none → ∀ ci ∈ w.keep, (w.solver.clause ci)[0]? ≠ some fl
  conflict : ∀ ci, w.conflict = some ci → ∃ c, w.solver.clauses[ci]? = some c ∧ fl ∈ c ∧
    ∀ l ∈ c, w.solver.litValue l = some false

theorem replacement_some {s : Solver} {ci k : Nat} (h : s.replacement ci = some k) :
    2 ≤ k ∧ ∃ l, (s.clause ci)[k]? = some l ∧ s.litValue l ≠ some false := by
  unfold replacement at h
  have hmem := List.mem_of_find?_eq_some h
  have hp := List.find?_some h
  rw [List.mem_range'] at hmem
  obtain ⟨i, _, rfl⟩ := hmem
  refine ⟨by omega, ?_⟩
  cases hl : (s.clause ci)[2 + 1 * i]? with
  | none => rw [hl] at hp; simp at hp
  | some l => rw [hl] at hp; exact ⟨l, rfl, by simpa using hp⟩

theorem replacement_none {s : Solver} {ci : Nat} {a b : Lit} {r : List Lit}
    (h : s.replacement ci = none) (hc : s.clause ci = a :: b :: r) :
    ∀ l ∈ r, s.litValue l = some false := by
  intro l hl
  obtain ⟨k, hk⟩ := List.mem_iff_getElem?.mp hl
  have hlt := (List.getElem?_eq_some_iff.mp hk).1
  unfold replacement at h
  rw [List.find?_eq_none] at h
  have := h (k + 2) (by
    rw [List.mem_range']
    exact ⟨k, by rw [hc]; simpa using hlt, by omega⟩)
  rw [hc] at this
  simpa [hk] using this

/-- A clause still to be visited watches `fl`, has not been retained before, and after normalising
    has `fl` in second place. -/
theorem ScanInv.normalise {F : List (List Lit)} {fl : Lit} {ci : Nat} {rest : List Nat} {w : Scan}
    (h : ScanInv F fl (ci :: rest) w) (hcf : w.conflict = none) :
    ∃ s other r, s = (if (w.solver.clause ci)[0]? = some fl then w.solver.swapLits ci 0 1
        else w.solver) ∧ s.clause ci = other :: fl :: r ∧
      Grow w.solver s ∧ ScanInv F fl (ci :: rest) { w with solver := s } ∧
      w.keep.count ci = 0 ∧ (other = fl → ci ∈ rest) := by
  have hcount := h.count ci fl
  simp only [h.empty, List.count_nil, if_true, List.count_cons_self, Nat.zero_add] at hcount
  obtain ⟨a, b, r, hc, hab⟩ := watchCount_pos (c := w.solver.clause ci) (l := fl) (by omega)
  have hkeep : w.keep.count ci = 0 := by
    rw [List.count_eq_zero]
    intro hm
    have hhead := h.keep_head hcf ci hm
    rw [hc] at hhead hcount
    have ha : a ≠ fl := by simpa using hhead
    have := List.count_pos_iff.mpr hm
    simp only [watchCount, ha, if_false] at hcount
    split at hcount <;> omega
  have hdup : a = fl → b = fl → ci ∈ rest := by
    rintro rfl rfl
    rw [hc] at hcount
    simp only [watchCount, if_true] at hcount
    exact List.count_pos_iff.mp (by omega)
  by_cases ha : a = fl
  · subst ha
    obtain ⟨hco, htw⟩ := swap_watches hc h.count h.watched
    refine ⟨w.solver.swapLits ci 0 1, b, r, by simp [hc], ?_, Grow.swapLits _ _ _ _, ?_, hkeep,
      hdup rfl⟩
    · rw [clause_swapLits, if_pos rfl, hc, swapAt_zero_one]
    · exact
        { core := h.core.swapLits _ _ _, empty := h.empty, count := hco, watched := htw,
          queue := h.queue, fl_false := h.fl_false, fl_level := h.fl_level,
          keep_head := by
            intro _ ci' hm
            have hne : ci' ≠ ci := by
              rintro rfl
              exact absurd (List.count_eq_zero.mp hkeep) (fun hn => hn hm)
            rw [clause_swapLits, if_neg hne]
            exact h.keep_head hcf ci' hm
          conflict := by
            intro ci' hci'
            exact absurd hci' (by simp [hcf]) }
  · have hb : b = fl := hab.resolve_left ha
    subst hb
    exact ⟨w.solver, a, r, by simp [hc, ha], hc, Grow.refl _, h, hkeep, fun he => absurd he ha⟩

theorem count_keep (keep rest : List Nat) (ci x : Nat) :
    (keep ++ [ci]).count x + rest.count x = keep.count x + (ci :: rest).count x := by
  simp only [List.count_append, List.count_cons, List.count_nil]
  omega

theorem CountOk.retain {s : Solver} {fl : Lit} {keep rest : List Nat} {ci : Nat}
    (h : CountOk (fun x l => if l = fl then keep.count x + (ci :: rest).count x else 0) s) :
    CountOk (fun x l => if l = fl then (keep ++ [ci]).count x + rest.count x else 0) s := by
  intro x l
  have := h x l
  simp only [count_keep] at this ⊢
  exact this

theorem ScanInv.tail {F : List (List Lit)} {fl : Lit} {ci : Nat} {rest : List Nat} {w : Scan}
    (h : ScanInv F fl (ci :: rest) w) (hcf : w.conflict.isSome) :
    ScanInv F fl rest { w with keep := w.keep ++ [ci] } where
  core := h.core
  empty := h.empty
  count := CountOk.retain h.count
  watched := h.watched.mono fun x l hx => by
    rcases hx with hx | ⟨hx, -⟩
    · exact Or.inl hx
    · exact Or.inr ⟨hx, Or.inr hcf⟩
  queue := h.queue
  fl_false := h.fl_false
  fl_level := h.fl_level
  keep_head hn := by
    have hn' : w.conflict = none := hn
    simp [hn'] at hcf
  conflict := h.conflict

theorem ScanInv.settle {F : List (List Lit)} {fl other : Lit} {ci : Nat} {rest : List Nat}
    {c : List Lit} {w : Scan} (h : ScanInv F fl (ci :: rest) w) (hcf : w.conflict = none)
    (hc : w.solver.clause ci = other :: fl :: c) (ht : w.solver.litValue other = some true) : ScanInv F fl rest { w with keep := w.keep ++ [ci] } := by
  have hne : other ≠ fl := by
    rintro rfl
    rw [h.fl_false] at ht
    exact absurd ht (by simp)
  refine
    { core := h.core, empty := h.empty, count := CountOk.retain h.count, watched := ?_,
      queue := h.queue, fl_false := h.fl_false, fl_level := h.fl_level, keep_head := ?_,
      conflict := h.conflict }
  · intro ci' i x o hi hx ho hf
    rcases h.watched ci' i x o hi hx ho hf with (hq | ⟨rfl, hm⟩) | hp
    · exact Or.inl (Or.inl hq)
    · by_cases he : ci' = ci
      · subst he
        rw [hc] at hx ho
        have hi1 : i = 1 := by
          match i, hi with
          | 0, _ => exact absurd (by simpa using hx) hne
          | 1, _ => rfl
        subst hi1
        have : o = other := by simpa using ho.symm
        subst this
        refine Or.inr ⟨ht, ?_⟩
        rw [h.fl_level]
        refine h.core.level_le _ ((h.core.mem_trail _).mpr ?_)
        rw [litValue_eq_true] at ht
        rw [ht]
        simp
      · rcases hm with hm | hm
        · exact Or.inl (Or.inr ⟨rfl, Or.inl ((List.mem_cons.mp hm).resolve_left he)⟩)
        · exact absurd hm (by simp [hcf])
    · exact Or.inr hp
  · intro _ ci' hm
    rcases List.mem_append.mp hm with hm | hm
    · exact h.keep_head hcf ci' hm
    · simp at hm
      subst hm
      rw [hc]
      simpa using hne

theorem ScanInv.slide {F : List (List Lit)} {fl other l : Lit} {ci k : Nat} {rest : List Nat}
    {c : List Lit} {w : Scan} (h : ScanInv F fl (ci :: rest) w) (hcf : w.conflict = none)
    (hkeep : w.keep.count ci = 0) (hdup : other = fl → ci ∈ rest)
    (hc : w.solver.clause ci = other :: fl :: c) (hk : 2 ≤ k)
    (hl : (w.solver.clause ci)[k]? = some l) (hnf : w.solver.litValue l ≠ some false) :
    ((w.solver.swapLits ci 1 k).clause ci)[1]? = some l ∧
      ScanInv F fl rest { w with solver := { w.solver.swapLits ci 1 k with
        watches := pushWatch w.solver.watches (litCode l) ci } } := by
  have hlfl : l ≠ fl := by
    rintro rfl
    exact hnf h.fl_false
  have h1 : (w.solver.clause ci)[1]? = some fl := by rw [hc]; rfl
  have hget := getElem?_swapAt h1 hl
  have hcl : ∀ ci', ci' ≠ ci → (w.solver.swapLits ci 1 k).clause ci' = w.solver.clause ci' :=
    fun ci' hne => by rw [clause_swapLits, if_neg hne]
  have hself : (w.solver.swapLits ci 1 k).clause ci = swapAt (w.solver.clause ci) 1 k := by
    rw [clause_swapLits, if_pos rfl]
  have hg0 : (swapAt (w.solver.clause ci) 1 k)[0]? = some other := by
    rw [hget 0, if_neg (by omega), if_neg (by omega), hc]; rfl
  have hg1 : (swapAt (w.solver.clause ci) 1 k)[1]? = some l := by
    rw [hget 1, if_neg (by omega), if_pos rfl]
  have hshape : ∃ c', swapAt (w.solver.clause ci) 1 k = other :: l :: c' := by
    rcases hs : swapAt (w.solver.clause ci) 1 k with _ | ⟨x, _ | ⟨y, c'⟩⟩
    · simp [hs] at hg0
    · simp [hs] at hg1
    · rw [hs] at hg0 hg1
      simp only [List.getElem?_cons_zero, List.getElem?_cons_succ, Option.some.injEq] at hg0 hg1
      exact ⟨c', by rw [hg0, hg1]⟩
  obtain ⟨c', hshape⟩ := hshape
  refine ⟨by rw [hself]; exact hg1, ?_⟩
  refine
    { core := (h.core.swapLits ci 1 k).congr rfl rfl rfl rfl rfl rfl rfl (PermStore.refl _),
      empty := ?_, count := ?_, watched := ?_, queue := h.queue, fl_false := h.fl_false,
      fl_level := h.fl_level, keep_head := ?_, conflict := ?_ }
  · have hne : litCode fl ≠ litCode l := fun he => hlfl (litCode_inj he).symm
    simp only [pushWatch, Function.update_of_ne hne]
    exact h.empty
  · intro x l'
    have hold := h.count x l'
    change (pushWatch w.solver.watches (litCode l) ci (litCode l')).count x + _ =
      watchCount ((w.solver.swapLits ci 1 k).clause x) l'
    rw [count_pushWatch]
    by_cases hx : x = ci
    · subst hx
      rw [hself, hshape]
      rw [hc] at hold
      simp only [watchCount, and_true] at hold ⊢
      by_cases hf : l' = fl
      · subst hf
        simp only [if_true, List.count_cons_self, hkeep, hlfl, if_false] at hold ⊢
        omega
      · have hf' : fl ≠ l' := fun he => hf he.symm
        simp only [hf, hf', if_false] at hold ⊢
        omega
    · rw [hcl x hx]
      have hcx : ci ≠ x := fun he => hx he.symm
      simp only [List.count_cons, beq_iff_eq, hcx, if_false, and_false] at hold ⊢
      omega
  · intro ci' i x o hi hx ho hf
    change ((w.solver.swapLits ci 1 k).clause ci')[i]? = some x at hx
    change ((w.solver.swapLits ci 1 k).clause ci')[1 - i]? = some o at ho
    by_cases he : ci' = ci
    · subst he
      rw [hself, hshape] at hx ho
      obtain rfl | rfl : i = 0 ∨ i = 1 := by omega
      · -- the other watch is false: it was exempt before, as a queued literal or as `fl` itself
        obtain rfl : other = x := by simpa using hx
        rcases h.watched ci' 0 other fl (by omega) (by rw [hc]; rfl) (by rw [hc]; rfl) hf with
          (hq | ⟨hfl, -⟩) | ⟨ht, -⟩
        · exact Or.inl (Or.inl hq)
        · exact Or.inl (Or.inr ⟨hfl, Or.inl (hdup hfl)⟩)
        · rw [h.fl_false] at ht
          exact absurd ht (by simp)
      · obtain rfl : l = x := by simpa using hx
        exact absurd hf hnf
    · rw [hcl ci' he] at hx ho
      rcases h.watched ci' i x o hi hx ho hf with (hq | ⟨hfl, hm⟩) | hp
      · exact Or.inl (Or.inl hq)
      · rcases hm with hm | hm
        · exact Or.inl (Or.inr ⟨hfl, Or.inl ((List.mem_cons.mp hm).resolve_left he)⟩)
        · exact absurd hm (by simp [hcf])
      · exact Or.inr hp
  · intro _ ci' hm
    have hne : ci' ≠ ci := by
      rintro rfl
      exact absurd hm (List.count_eq_zero.mp hkeep)
    change ((w.solver.swapLits ci 1 k).clause ci')[0]? ≠ some fl
    rw [hcl ci' hne]
    exact h.keep_head hcf ci' hm
  · intro ci' hci'
    exact absurd hci' (by simp [hcf])

theorem ScanInv.falsify {F : List (List Lit)} {fl other : Lit} {ci : Nat} {rest : List Nat}
    {c : List Lit} {w : Scan} (h : ScanInv F fl (ci :: rest) w)
    (hc : w.solver.clause ci = other :: fl :: c) (hof : w.solver.litValue other = some false)
    (hrest : ∀ l ∈ c, w.solver.litValue l = some false) :
    ScanInv F fl rest { w with keep := w.keep ++ [ci], conflict := some ci } where
  core := h.core
  empty := h.empty
  count := CountOk.retain h.count
  watched := h.watched.mono fun x l hx => by
    rcases hx with hx | ⟨hx, -⟩
    · exact Or.inl hx
    · exact Or.inr ⟨hx, Or.inr rfl⟩
  queue := h.queue
  fl_false := h.fl_false
  fl_level := h.fl_level
  keep_head hn := absurd hn (by simp)
  conflict := by
    intro ci' hci'
    obtain rfl : ci = ci' := by simpa using hci'
    refine ⟨other :: fl :: c, ?_, by simp, ?_⟩
    · have := clauses_getElem?_of_clause (s := w.solver) (by rw [hc]; simp)
      rwa [hc] at this
    · intro l hl
      rcases List.mem_cons.mp hl with rfl | hl
      · exact hof
      · rcases List.mem_cons.mp hl with rfl | hl
        · exact h.fl_false
        · exact hrest l hl

/-- The literals other than `other` of a clause whose rest is false at level 0 contradict the
    input, so `other` is a consequence of it. -/
theorem Core.unit_entailed {F : List (List Lit)} {s : Solver} {ci : Nat} {c : List Lit} {l : Lit}
    (h : Core F s) (hc : s.clauses[ci]? = some c) (hd : s.decisionLevel = 0)
    (hrest : ∀ l' ∈ c, l' = l ∨ s.litValue l' = some false) :
    ∀ m, satAll m F → litTrue m l := by
  intro m hm
  obtain ⟨l', hl', ht⟩ := h.entails c (List.mem_of_getElem? hc) m hm
  rcases hrest l' hl' with rfl | hf
  · exact ht
  · rw [litValue_eq_false] at hf
    have hmem : l'.var ∈ s.trail := (h.mem_trail _).mpr (by rw [hf]; simp)
    have hlev : s.level l'.var = 0 := by
      have := h.level_le _ hmem
      simp only [decisionLevel] at hd
      omega
    have := h.level_zero _ _ hf hlev m hm
    rw [litTrue, this] at ht
    cases hn : l'.neg <;> simp [hn] at ht

theorem ScanInv.unit {F : List (List Lit)} {fl other : Lit} {ci : Nat} {rest : List Nat}
    {c : List Lit} {w : Scan} (h : ScanInv F fl (ci :: rest) w) (hcf : w.conflict = none)
    (hc : w.solver.clause ci = other :: fl :: c) (hnone : w.solver.litValue other = none)
    (hrest : ∀ l ∈ c, w.solver.litValue l = some false) :
    Grow w.solver (w.solver.enqueue other (some ci)).2 ∧
      ScanInv F fl rest
        { w with solver := (w.solver.enqueue other (some ci)).2, keep := w.keep ++ [ci] } := by
  have hn : w.solver.assign other.var = none := litValue_eq_none.mp hnone
  have hg := Grow.assignLit (r := some ci) hn
  have hcl : w.solver.clauses[ci]? = some (other :: fl :: c) := by
    have := clauses_getElem?_of_clause (s := w.solver) (by rw [hc]; simp)
    rwa [hc] at this
  have hfalse : ∀ l' ∈ other :: fl :: c, l' = other ∨ w.solver.litValue l' = some false := by
    intro l' hl'
    rcases List.mem_cons.mp hl' with rfl | hl'
    · exact Or.inl rfl
    · rcases List.mem_cons.mp hl' with rfl | hl'
      · exact Or.inr h.fl_false
      · exact Or.inr (hrest l' hl')
  have hcore : Core F (assignLit w.solver other (some ci) w.solver.trailLim) := by
    refine h.core.assignLit hn ?_ (Or.inl rfl) ?_ ?_
    · exact h.core.bounded _ (List.mem_of_getElem? hcl) other (by simp)
    · exact fun _ => Or.inr ⟨ci, _, rfl, hcl, hfalse⟩
    · exact fun hz => h.core.unit_entailed hcl hz hfalse
  have hflf := (hg.litValue h.fl_false).1
  have hfll : (assignLit w.solver other (some ci) w.solver.trailLim).level fl.var =
      w.solver.decisionLevel := (hg.litValue h.fl_false).2.trans h.fl_level
  rw [enqueue_of_none hn]
  refine ⟨hg, ScanInv.settle (w := { w with solver := assignLit w.solver other (some ci) _ })
    ?_ hcf hc assignLit_self⟩
  exact
    { core := hcore, empty := h.empty, count := h.count,
      watched := (h.watched.assignLit hn).mono fun x l hx => by
        rcases hx with (hq | he) | hv
        · exact Or.inl (List.mem_cons_of_mem _ hq)
        · exact Or.inr he
        · exact Or.inl (by simp [assignLit, hv])
      queue := h.queue.assignLit hn, fl_false := hflf, fl_level := hfll,
      keep_head := h.keep_head
      conflict := fun ci' hci' => absurd hci' (by simp [hcf]) }

/-- **The step.** One watcher visited: whichever of the five ways it goes, the walk's invariant
    holds with one watcher fewer to visit. -/
theorem visitWatcher_inv {F : List (List Lit)} {fl : Lit} {ci : Nat} {rest : List Nat} {w : Scan}
    (h : ScanInv F fl (ci :: rest) w) :
    Grow w.solver (visitWatcher fl w ci).solver ∧ ScanInv F fl rest (visitWatcher fl w ci) := by
  unfold visitWatcher
  by_cases hcf : w.conflict.isSome
  · rw [if_pos hcf]
    exact ⟨Grow.refl _, h.tail hcf⟩
  · rw [if_neg hcf]
    have hcf' : w.conflict = none := by simpa using hcf
    obtain ⟨s, other, c, hs, hc, hg, hinv, hkeep, hdup⟩ := h.normalise hcf'
    simp only [← hs, hc, List.getElem?_cons_zero]
    by_cases ht : s.litValue other = some true
    · rw [if_pos ht]
      exact ⟨hg, hinv.settle hcf' hc ht⟩
    · rw [if_neg ht]
      cases hrep : s.replacement ci with
      | some k =>
        obtain ⟨hk, l, hl, hnf⟩ := replacement_some hrep
        obtain ⟨hw1, hsl⟩ := hinv.slide hcf' hkeep hdup hc hk hl hnf
        have hw1' : ((s.swapLits ci 1 k).clause ci)[1]? = some l := hw1
        simp only [hw1']
        refine ⟨hg.trans ?_, hsl⟩
        exact ⟨rfl, rfl, rfl, rfl, rfl, rfl, (Grow.swapLits s ci 1 k).store, fun _ _ hb => ⟨hb, rfl⟩⟩
      | none =>
        have hrest := replacement_none hrep hc
        cases hv : s.litValue other with
        | none =>
          obtain ⟨hg', hu⟩ := hinv.unit hcf' hc hv hrest
          exact ⟨hg.trans hg', hu⟩
        | some b =>
          cases b with
          | true => exact absurd hv ht
          | false => exact ⟨hg, hinv.falsify hc hv hrest⟩

theorem scan_inv {F : List (List Lit)} {fl : Lit} (rem : List Nat) :
    ∀ {w : Scan}, ScanInv F fl rem w →
      Grow w.solver (rem.foldl (visitWatcher fl) w).solver ∧
        ScanInv F fl [] (rem.foldl (visitWatcher fl) w) := by
  induction rem with
  | nil => exact fun h => ⟨Grow.refl _, h⟩
  | cons ci rest ih =>
    intro w h
    obtain ⟨hg, hstep⟩ := visitWatcher_inv h
    obtain ⟨hg', hrest⟩ := ih hstep
    exact ⟨hg.trans hg', hrest⟩

/-! ## The whole propagation -/

/-- A conflict: `ci` is falsified, one of its literals at the current level. Below the current
    level the watches are still paired. -/
structure Conflict (F : List (List Lit)) (s : Solver) (ci : Nat) : Prop where
  core : Core F s
  count : CountOk (fun _ _ => 0) s
  watched : TwoWatched (fun _ w => s.level w.var = s.decisionLevel) s
  falsified : ∃ c, s.clauses[ci]? = some c ∧ (∀ l ∈ c, s.litValue l = some false) ∧
    ∃ l ∈ c, s.level l.var = s.decisionLevel

theorem scan_start {F : List (List Lit)} {s : Solver} {v : Nat} {q : List Nat} (h : Inv F s)
    (hq : s.propQueue = v :: q) :
    ScanInv F (s.falseLit v) (s.watches (litCode (s.falseLit v)))
      ⟨{ s with propQueue := q, watches := Function.update s.watches (litCode (s.falseLit v)) [] }, [], none⟩ := by
  obtain ⟨hva, hvl⟩ := h.queue v (by rw [hq]; simp)
  have hflf : s.litValue (s.falseLit v) = some false := falseLit_false hva
  set fl := s.falseLit v with hfl
  refine
    { core := h.core.congr rfl rfl rfl rfl rfl rfl rfl (PermStore.refl _), empty := by simp,
      count := ?_, watched := ?_, queue := ?_, fl_false := hflf, fl_level := hvl,
      keep_head := by simp, conflict := by simp }
  · intro ci l
    have := h.count ci l
    by_cases hl : l = fl
    · subst hl
      simpa [clause] using this
    · have hne : litCode l ≠ litCode fl := fun he => hl (litCode_inj he)
      simpa [clause, Function.update_of_ne hne, hl] using this
  · intro ci i w o hi hw ho hf
    rcases h.watched ci i w o hi hw ho hf with hx | hx
    · rw [hq] at hx
      rcases List.mem_cons.mp hx with hx | hx
      · refine Or.inl (Or.inr ?_)
        have hwfl : w = fl := by rw [eq_falseLit hf, hx]; rfl
        refine ⟨hwfl, Or.inl ?_⟩
        have hcount := h.count ci w
        rw [← hwfl]
        refine List.count_pos_iff.mp ?_
        have : 0 < watchCount (s.clause ci) w := by
          change (s.clause ci)[i]? = some w at hw
          change (s.clause ci)[1 - i]? = some o at ho
          have hi' : i = 0 ∨ i = 1 := by omega
          rcases hcs : s.clause ci with _ | ⟨a, _ | ⟨b, r⟩⟩
          · simp [hcs] at hw
          · rcases hi' with rfl | rfl
            · simp [hcs] at ho
            · simp [hcs] at hw
          · rcases hi' with rfl | rfl
            · simp [hcs] at hw; simp [watchCount, hw]
            · simp [hcs] at hw; simp [watchCount, hw]
        rw [Nat.add_zero] at hcount
        exact hcount ▸ this
      · exact Or.inl (Or.inl hx)
    · exact Or.inr hx
  · intro u hu
    exact h.queue u (by rw [hq]; exact List.mem_cons_of_mem _ hu)

theorem propagateVar_inv {F : List (List Lit)} {s : Solver} {v : Nat} {q : List Nat}
    (h : Inv F s) (hq : s.propQueue = v :: q) :
    let r := propagateVar { s with propQueue := q } v
    Grow s r.1 ∧ (∀ ci, r.2 = some ci → Conflict F r.1 ci) ∧ (r.2 = none → Inv F r.1) := by
  have hstart := scan_start h hq
  set fl := s.falseLit v with hfl
  obtain ⟨hg, hend⟩ := scan_inv _ hstart
  set w := (s.watches (litCode fl)).foldl (visitWatcher fl)
    ⟨{ s with propQueue := q, watches := Function.update s.watches (litCode fl) [] }, [], none⟩ with hw
  have hr : propagateVar { s with propQueue := q } v =
      ({ w.solver with watches := Function.update w.solver.watches (litCode fl) w.keep },
        w.conflict) := rfl
  simp only [hr]
  have hgrow : Grow s { w.solver with watches := Function.update w.solver.watches (litCode fl) w.keep } :=
    ⟨hg.numVars, hg.trailLim, hg.numOriginal, hg.seen, hg.activity, hg.varInc, hg.store, hg.assign⟩
  have hcore := hend.core.congr (t := { w.solver with
    watches := Function.update w.solver.watches (litCode fl) w.keep })
    rfl rfl rfl rfl rfl rfl rfl (PermStore.refl _)
  have hcount : CountOk (fun _ _ => 0) { w.solver with
      watches := Function.update w.solver.watches (litCode fl) w.keep } := by
    intro ci l
    have := hend.count ci l
    by_cases hl : l = fl
    · subst hl
      simpa [clause, hend.empty] using this
    · have hne : litCode l ≠ litCode fl := fun he => hl (litCode_inj he)
      simpa [clause, Function.update_of_ne hne, hl] using this
  refine ⟨hgrow, fun ci hci => ?_, fun hnone => ?_⟩
  · obtain ⟨c, hcl, hmem, hall⟩ := hend.conflict ci hci
    refine ⟨hcore, hcount, ?_, c, hcl, hall, fl, hmem, hend.fl_level⟩
    exact hend.watched.mono fun x l hx => by
      rcases hx with hx | ⟨rfl, -⟩
      · exact (hend.queue _ hx).2
      · exact hend.fl_level
  · exact
      { core := hcore, count := hcount,
        watched := hend.watched.mono fun x l hx => by
          rcases hx with hx | ⟨-, hx⟩
          · exact hx
          · simp [hnone] at hx
        queue := hend.queue, units := h.units.grow hgrow, seen := hgrow.seen.trans h.seen,
        activity := fun u => hgrow.activity ▸ h.activity u,
        varInc := hgrow.varInc ▸ h.varInc }

theorem propagateLoop_inv {F : List (List Lit)} (fuel : Nat) :
    ∀ {s t : Solver} {r : Option Nat}, Inv F s → propagateLoop fuel s = some (t, r) →
      Grow s t ∧ (∀ ci, r = some ci → Conflict F t ci) ∧
        (r = none → Inv F t ∧ t.propQueue = []) := by
  induction fuel with
  | zero => intro s t r _ h; exact absurd h (by simp [propagateLoop])
  | succ fuel ih =>
    intro s t r hinv h
    rw [propagateLoop] at h
    cases hq : s.propQueue with
    | nil =>
      simp only [hq, Option.some.injEq, Prod.mk.injEq] at h
      obtain ⟨rfl, rfl⟩ := h
      exact ⟨Grow.refl _, by simp, fun _ => ⟨hinv, hq⟩⟩
    | cons v q =>
      obtain ⟨hg, hconf, hquiet⟩ := propagateVar_inv hinv hq
      simp only [hq] at h
      cases hr : propagateVar { s with propQueue := q } v with
      | mk u cf =>
        rw [hr] at hg hconf hquiet
        simp only [hr] at h
        cases cf with
        | some ci =>
          simp only [Option.some.injEq, Prod.mk.injEq] at h
          obtain ⟨rfl, rfl⟩ := h
          exact ⟨hg, fun ci' hci' => hconf ci' hci', by simp⟩
        | none =>
          obtain ⟨hg', hrest⟩ := ih (hquiet rfl) h
          exact ⟨hg.trans hg', hrest⟩

/-- **Unit propagation.** Quiescent, it restores the invariant with nothing pending; in conflict,
    the clause it names is false and touches the current level. -/
theorem propagate_inv {F : List (List Lit)} {s t : Solver} {r : Option Nat} (h : Inv F s)
    (hp : s.propagate = some (t, r)) :
    Grow s t ∧ (∀ ci, r = some ci → Conflict F t ci) ∧
      (r = none → Inv F t ∧ t.propQueue = []) :=
  propagateLoop_inv _ h hp

end Csolver.Sat
