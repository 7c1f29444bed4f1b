import Csolver.Solver.SatLearn

/-!
# Restarts and clause deletion

Both happen at decision level 0 with nothing queued. There every assigned variable is a consequence
of the input, no reason is ever asked for again, and deleting learnt clauses only has to keep the
input clauses in front and rebuild the watches. `reorderWatches` looks for non-false literals only;
that it also pairs a lone unassigned literal with nothing false is because the old watches did
(`Ready`).
-/

namespace Csolver.Sat

open Csolver.Lib Csolver.Core
open Solver

/-! ## Reordering one clause -/

/-- The first two literals: if one is false, the other is true. -/
def Paired (s : Solver) (lits : List Lit) : Prop :=
  ∀ i w o, i < 2 → lits[i]? = some w → lits[1 - i]? = some o →
    s.litValue w = some false → s.litValue o = some true

def nonFalse (s : Solver) (l : Lit) : Bool := s.litValue l != some false

/-- What a clause needs so that it can be paired by moving non-false literals to the front. -/
def Ready (s : Solver) (c : List Lit) : Prop :=
  (∃ l ∈ c, s.litValue l = some true) ∨ 2 ≤ c.countP (nonFalse s)

theorem Ready.perm {s : Solver} {c c' : List Lit} (h : Ready s c) (hp : c'.Perm c) :
    Ready s c' := by
  rcases h with ⟨l, hl, ht⟩ | hn
  · exact Or.inl ⟨l, hp.mem_iff.mpr hl, ht⟩
  · exact Or.inr (by rw [hp.countP_eq]; exact hn)

theorem Paired.ready {s : Solver} {c : List Lit} (h : Paired s c) (hlen : 2 ≤ c.length) :
    Ready s c := by
  match c, hlen with
  | a :: b :: r, _ =>
    by_cases ha : s.litValue a = some false
    · exact Or.inl ⟨b, by simp, h 0 a b (by omega) rfl rfl ha⟩
    · by_cases hb : s.litValue b = some false
      · exact Or.inl ⟨a, by simp, h 1 b a (by omega) rfl rfl hb⟩
      · refine Or.inr ?_
        have ha' : nonFalse s a = true := by simpa [nonFalse] using ha
        have hb' : nonFalse s b = true := by simpa [nonFalse] using hb
        rw [List.countP_cons_of_pos ha', List.countP_cons_of_pos hb']
        omega

theorem findNonFalse_some {s : Solver} {ci k : Nat} {ks : List Nat}
    (h : s.findNonFalse ci ks = some k) :
    k ∈ ks ∧ ∃ l, (s.clause ci)[k]? = some l ∧ s.litValue l ≠ some false := by
  have hp := List.find?_some h
  refine ⟨List.mem_of_find?_eq_some h, ?_⟩
  cases hk : (s.clause ci)[k]? with
  | none => simp [hk] at hp
  | some l => exact ⟨l, rfl, by simpa [hk] using hp⟩

theorem findNonFalse_none {s : Solver} {ci k : Nat} {ks : List Nat} {l : Lit}
    (h : s.findNonFalse ci ks = none) (hk : k ∈ ks) (hl : (s.clause ci)[k]? = some l) :
    s.litValue l = some false := by
  have := List.find?_eq_none.mp h k hk
  simpa [hl] using this

/-- `t` is `s` with the literals of clause `ci` reordered. -/
structure Reordered (s t : Solver) (ci : Nat) : Prop where
  eq : t = { s with clauses := t.clauses }
  store : PermStore s.clauses t.clauses
  other : ∀ ci', ci' ≠ ci → t.clause ci' = s.clause ci'
  perm : (t.clause ci).Perm (s.clause ci)

theorem Reordered.refl (s : Solver) (ci : Nat) : Reordered s s ci :=
  ⟨rfl, PermStore.refl _, fun _ _ => rfl, List.Perm.refl _⟩

theorem Reordered.swapLits {s t : Solver} {ci : Nat} (h : Reordered s t ci) (i j : Nat) :
    Reordered s (t.swapLits ci i j) ci where
  eq := by
    rw [h.eq]
    rfl
  store := h.store.trans (permStore_modify _ _ fun c => swapAt_perm c i j)
  other ci' hne := by
    rw [clause_swapLits, if_neg hne]
    exact h.other ci' hne
  perm := by
    rw [clause_swapLits, if_pos rfl]
    exact (swapAt_perm _ i j).trans h.perm

theorem Reordered.litValue {s t : Solver} {ci : Nat} (h : Reordered s t ci) (l : Lit) :
    t.litValue l = s.litValue l := by
  refine litValue_congr ?_ l
  rw [h.eq]

/-- The first pass of `reorder_watches`: a non-false literal comes first. -/
def frontNonFalse (s : Solver) (ci : Nat) : Solver :=
  match s.findNonFalse ci (List.range' 0 (s.clause ci).length) with
  | some k => s.swapLits ci 0 k
  | none => s

theorem frontNonFalse_spec {s : Solver} {ci : Nat} (hr : Ready s (s.clause ci)) :
    Reordered s (frontNonFalse s ci) ci ∧
      ∃ a r, (frontNonFalse s ci).clause ci = a :: r ∧ s.litValue a ≠ some false := by
  have hex : ∃ l ∈ s.clause ci, s.litValue l ≠ some false := by
    rcases hr with ⟨l, hl, ht⟩ | hn
    · exact ⟨l, hl, by rw [ht]; simp⟩
    · obtain ⟨l, hl, hnf⟩ := List.countP_pos_iff.mp (Nat.lt_of_lt_of_le Nat.zero_lt_two hn)
      exact ⟨l, hl, by simpa [nonFalse] using hnf⟩
  unfold frontNonFalse
  cases hf : s.findNonFalse ci (List.range' 0 (s.clause ci).length) with
  | none =>
    obtain ⟨l, hl, hnf⟩ := hex
    obtain ⟨k, hk⟩ := List.mem_iff_getElem?.mp hl
    have hkl := (List.getElem?_eq_some_iff.mp hk).1
    exact absurd (findNonFalse_none hf (List.mem_range'_1.mpr (by omega)) hk) hnf
  | some k =>
    obtain ⟨hk, a, hka, hnf⟩ := findNonFalse_some hf
    refine ⟨(Reordered.refl s ci).swapLits 0 k, a, ?_⟩
    simp only [clause_swapLits, if_true]
    have hlen : 0 < (s.clause ci).length :=
      Nat.lt_of_le_of_lt (Nat.zero_le k) (List.getElem?_eq_some_iff.mp hka).1
    have h0 := getElem?_swapAt (List.getElem?_eq_getElem hlen) hka 0
    have hhead : (swapAt (s.clause ci) 0 k)[0]? = some a := by
      rw [h0]
      by_cases hk0 : 0 = k
      · subst hk0
        rw [if_pos rfl, ← hka, List.getElem?_eq_getElem hlen]
      · rw [if_neg hk0, if_pos rfl]
    cases hsw : swapAt (s.clause ci) 0 k with
    | nil => simp [hsw] at hhead
    | cons x r =>
      obtain rfl : x = a := by simpa [hsw] using hhead
      exact ⟨r, rfl, hnf⟩

/-- **`reorder_watches`** pairs a clause that is ready. -/
theorem reorderWatches_spec {s : Solver} {ci : Nat} (hr : Ready s (s.clause ci)) :
    Reordered s (s.reorderWatches ci) ci ∧ Paired s ((s.reorderWatches ci).clause ci) := by
  obtain ⟨hre, a, r, hcl, ha⟩ := frontNonFalse_spec hr
  have heq : s.reorderWatches ci =
      match (frontNonFalse s ci).findNonFalse ci (List.range' 1 ((s.clause ci).length - 1)) with
      | some k => (frontNonFalse s ci).swapLits ci 1 k
      | none => frontNonFalse s ci := rfl
  rw [heq]
  have hlen : (s.clause ci).length = r.length + 1 := by
    rw [← hre.perm.length_eq, hcl, List.length_cons]
  set t := frontNonFalse s ci with ht
  cases hf : t.findNonFalse ci (List.range' 1 ((s.clause ci).length - 1)) with
  | none =>
    refine ⟨hre, ?_⟩
    have hfalse : ∀ l ∈ r, s.litValue l = some false := by
      intro l hl
      obtain ⟨k, hk⟩ := List.mem_iff_getElem?.mp hl
      have hkl := (List.getElem?_eq_some_iff.mp hk).1
      rw [← hre.litValue]
      exact findNonFalse_none (k := k + 1) hf (List.mem_range'_1.mpr (by omega))
        (by rw [hcl]; simpa using hk)
    -- with one non-false literal left, readiness is a true literal, and it stands first
    have htrue : s.litValue a = some true := by
      rcases hr.perm hre.perm with ⟨l, hl, hlt⟩ | hn
      · rw [hcl] at hl
        rcases List.mem_cons.mp hl with rfl | hl
        · exact hlt
        · rw [hfalse l hl] at hlt
          exact absurd hlt (by simp)
      · have hz : r.countP (nonFalse s) = 0 := by
          refine List.countP_eq_zero.mpr fun l hl => ?_
          simp [nonFalse, hfalse l hl]
        have hcons := List.countP_cons (p := nonFalse s) (a := a) (l := r)
        rw [hcl, hcons, hz] at hn
        have : (if nonFalse s a = true then 1 else 0) ≤ 1 := by split <;> omega
        omega
    intro i w o hi hw ho hwf
    rw [hcl] at hw ho
    match i, hi with
    | 0, _ =>
      obtain rfl : a = w := by simpa using hw
      exact absurd hwf ha
    | 1, _ =>
      obtain rfl : a = o := by simpa using ho
      exact htrue
  | some k =>
    obtain ⟨hk, b, hkb, hb⟩ := findNonFalse_some hf
    have hk1 := (List.mem_range'_1.mp hk).1
    refine ⟨hre.swapLits 1 k, ?_⟩
    simp only [clause_swapLits, if_true]
    have hkl := (List.getElem?_eq_some_iff.mp hkb).1
    have h1 := List.getElem?_eq_getElem (l := t.clause ci) (i := 1) (by omega)
    have hget := getElem?_swapAt h1 hkb
    rw [hre.litValue] at hb
    intro i w o hi hw _ hwf
    match i, hi with
    | 0, _ =>
      rw [hget, if_neg (by omega), if_neg (by omega), hcl] at hw
      obtain rfl : a = w := by simpa using hw
      exact absurd hwf ha
    | 1, _ =>
      rw [hget] at hw
      by_cases he : 1 = k
      · subst he
        rw [if_pos rfl, ← h1] at hw
        rw [Option.some.inj (hw.symm.trans hkb)] at hwf
        exact absurd hwf hb
      · rw [if_neg he, if_pos rfl] at hw
        rw [Option.some.inj hw] at hb
        exact absurd hwf hb

/-! ## Rebuilding the watch lists -/

/-- The clauses below `k` have been rebuilt. -/
structure Rebuilt (s t : Solver) (k : Nat) : Prop where
  eq : t = { s with clauses := t.clauses, watches := t.watches }
  store : PermStore s.clauses t.clauses
  count : ∀ ci l, (t.watches (litCode l)).count ci =
    if ci < k then watchCount (t.clause ci) l else 0
  paired : ∀ ci < k, Paired s (t.clause ci)
  later : ∀ ci, k ≤ ci → t.clause ci = s.clause ci

theorem Rebuilt.litValue {s t : Solver} {k : Nat} (h : Rebuilt s t k) (l : Lit) :
    t.litValue l = s.litValue l := by
  refine litValue_congr ?_ l
  rw [h.eq]

theorem Paired.of_short {s : Solver} {c : List Lit} (h : ¬2 ≤ c.length) : Paired s c := by
  intro i w o hi hw ho
  have h₁ := (List.getElem?_eq_some_iff.mp hw).1
  have h₂ := (List.getElem?_eq_some_iff.mp ho).1
  omega

theorem watchCount_of_short {c : List Lit} {l : Lit} (h : ¬2 ≤ c.length) : watchCount c l = 0 := by
  match c with
  | [] => rfl
  | [_] => rfl
  | _ :: _ :: _ => simp at h

theorem Rebuilt.watch {s t u : Solver} {k : Nat} (h : Rebuilt s t k) (hu : Reordered t u k)
    (hp : Paired s (u.clause k)) :
    Rebuilt s { u with watches := watchClause u.watches k (u.clause k) } (k + 1) := by
  have hwatches : u.watches = t.watches := by rw [hu.eq]
  have hcl : ∀ ci, ({ u with watches := watchClause u.watches k (u.clause k) } : Solver).clause ci =
      u.clause ci := fun _ => rfl
  refine ⟨?_, h.store.trans hu.store, ?_, ?_, ?_⟩
  · have h₁ := hu.eq
    rw [h.eq] at h₁
    rw [h₁]
  · intro ci l
    rw [hcl, count_watchClause, hwatches, h.count]
    rcases Nat.lt_trichotomy ci k with hlt | rfl | hgt
    · rw [if_pos hlt, if_neg (by omega), if_pos (by omega), hu.other ci (by omega), Nat.add_zero]
    · rw [if_neg (Nat.lt_irrefl _), if_pos rfl, if_pos (Nat.lt_succ_self _), Nat.zero_add]
    · rw [if_neg (by omega), if_neg (by omega), if_neg (by omega)]
  · intro ci hlt
    rw [hcl]
    rcases Nat.lt_succ_iff_lt_or_eq.mp hlt with hlt | rfl
    · rw [hu.other ci (Nat.ne_of_lt hlt)]
      exact h.paired ci hlt
    · exact hp
  · intro ci hle
    rw [hcl, hu.other ci (by omega)]
    exact h.later ci (Nat.le_of_succ_le hle)

theorem rebuildStep_spec {s t : Solver} {k : Nat} (h : Rebuilt s t k)
    (hr : 2 ≤ (s.clause k).length → Ready s (s.clause k)) : Rebuilt s (rebuildStep t k) (k + 1) := by
  have hk : t.clause k = s.clause k := h.later k (Nat.le_refl k)
  unfold rebuildStep
  rw [hk]
  by_cases hlen : 2 ≤ (s.clause k).length
  · rw [if_pos hlen]
    have hready : Ready t (t.clause k) := by
      rw [hk]
      rcases hr hlen with ⟨l, hl, ht⟩ | hn
      · exact Or.inl ⟨l, hl, by rw [h.litValue]; exact ht⟩
      · refine Or.inr ?_
        have : nonFalse t = nonFalse s := by
          funext l
          rw [nonFalse, nonFalse, h.litValue]
        rw [this]
        exact hn
    obtain ⟨hre, hp⟩ := reorderWatches_spec hready
    refine h.watch hre fun i w o hi hw ho hf => ?_
    rw [← h.litValue]
    exact hp i w o hi hw ho (by rw [h.litValue]; exact hf)
  · rw [if_neg hlen]
    have hshort : ¬2 ≤ (t.clause k).length := by rw [hk]; exact hlen
    have := h.watch (Reordered.refl t k) (Paired.of_short hshort)
    have hsame : ({ t with watches := watchClause t.watches k (t.clause k) } : Solver) = t := by
      have : watchClause t.watches k (t.clause k) = t.watches := by
        match hc : t.clause k with
        | [] => rfl
        | [_] => rfl
        | _ :: _ :: _ => simp [hc] at hshort
      rw [this]
    rwa [hsame] at this

theorem rebuild_range {s : Solver} (hr : ∀ ci, 2 ≤ (s.clause ci).length → Ready s (s.clause ci))
    (n : Nat) :
    Rebuilt s ((List.range n).foldl rebuildStep { s with watches := fun _ => [] }) n := by
  induction n with
  | zero =>
    exact ⟨rfl, PermStore.refl _, by simp, fun ci h => absurd h (Nat.not_lt_zero ci),
      fun _ _ => rfl⟩
  | succ n ih =>
    rw [List.range_succ, List.foldl_append]
    exact rebuildStep_spec ih (hr n)

/-- **`rebuild_watches`** at level 0: every clause watched by its first two literals, paired. -/
theorem rebuildWatches_spec {s : Solver}
    (hr : ∀ ci, 2 ≤ (s.clause ci).length → Ready s (s.clause ci)) :
    Rebuilt s s.rebuildWatches s.clauses.length ∧ CountOk (fun _ _ => 0) s.rebuildWatches ∧
      ∀ ci, Paired s (s.rebuildWatches.clause ci) := by
  have h := rebuild_range hr s.clauses.length
  have hshort : ∀ ci, s.clauses.length ≤ ci → ¬2 ≤ (s.rebuildWatches.clause ci).length := by
    intro ci hle
    have hnil : s.clause ci = [] := by
      rw [clause, List.getD_eq_getElem?_getD, List.getElem?_eq_none hle, Option.getD_none]
    have := h.later ci hle
    rw [hnil] at this
    rw [rebuildWatches, this]
    simp
  refine ⟨h, ?_, ?_⟩
  · intro ci l
    rw [Nat.add_zero]
    rw [rebuildWatches, h.count]
    rcases Nat.lt_or_ge ci s.clauses.length with hlt | hge
    · rw [if_pos hlt]
    · rw [if_neg (Nat.not_lt_of_le hge)]
      exact (watchCount_of_short (hshort ci hge)).symm
  · intro ci
    rcases Nat.lt_or_ge ci s.clauses.length with hlt | hge
    · exact h.paired ci hlt
    · exact Paired.of_short (hshort ci hge)

/-! ## Reducing the clause database -/

theorem Core.level_eq_zero {F : List (List Lit)} {s : Solver} (h : Core F s)
    (hz : s.decisionLevel = 0) {v : Nat} (hv : s.assign v ≠ none) : s.level v = 0 := by
  have hle := h.level_le v ((h.mem_trail v).mpr hv)
  rw [show s.trailLim.length = 0 from hz] at hle
  exact Nat.le_zero.mp hle

/-- At level 0 no reason is ever asked for, so the store may be replaced by any store of entailed
    clauses that keeps the input in front. -/
theorem Core.restock {F : List (List Lit)} {s t : Solver} (h : Core F s)
    (hz : s.decisionLevel = 0) (hn : t.numVars = s.numVars) (ha : t.assign = s.assign)
    (hl : t.level = s.level) (ht : t.trail = s.trail) (hm : t.trailLim = s.trailLim)
    (ho : t.numOriginal = s.numOriginal) (hsub : ∀ c ∈ t.clauses, c ∈ s.clauses)
    (horig : ∀ i < F.length, t.clauses[i]? = s.clauses[i]?) : Core F t where
  nodup := ht ▸ h.nodup
  mem_trail := by rw [ht, ha]; exact h.mem_trail
  trail_lt := by rw [ht, hn]; exact h.trail_lt
  lim_sorted := hm ▸ h.lim_sorted
  lim_lt := by rw [ht, hm]; exact h.lim_lt
  level_iff := by rw [ht, hm, hl]; exact h.level_iff
  level_le := by rw [ht, hm, hl]; exact h.level_le
  reason_ok := by
    intro p v hp hv
    rw [ht] at hp
    rw [hl, h.level_eq_zero hz ((h.mem_trail v).mp (List.mem_of_getElem? hp))] at hv
    exact absurd hv (Nat.lt_irrefl 0)
  entails := fun c hc => h.entails c (hsub c hc)
  bounded := by
    rw [hn]
    exact fun c hc => h.bounded c (hsub c hc)
  original := by
    intro i c hi
    rw [horig i (List.getElem?_eq_some_iff.mp hi).1]
    exact h.original i c hi
  numOriginal_eq := ho ▸ h.numOriginal_eq
  level_zero := by rw [ha, hl]; exact h.level_zero

/-- The clauses `reduce_db` keeps. -/
def keptClauses (s : Solver) : List Nat :=
  (List.range s.clauses.length).filter fun ci =>
    !(s.candidates.take (s.candidates.length / 2)).contains ci

theorem mem_candidates {s : Solver} {ci : Nat} (h : ci ∈ s.candidates) : s.numOriginal ≤ ci := by
  unfold candidates at h
  have := (List.mem_filter.mp (List.mem_mergeSort.mp h)).1
  exact (List.mem_range'_1.mp this).1

theorem keptClauses_getElem? {s : Solver} {i : Nat} (hi : i < s.numOriginal)
    (hle : s.numOriginal ≤ s.clauses.length) : (keptClauses s)[i]? = some i := by
  obtain ⟨n, hn⟩ := Nat.exists_eq_add_of_le hle
  unfold keptClauses
  rw [hn, List.range_add, List.filter_append]
  have hall : (List.range s.numOriginal).filter
      (fun ci => !(s.candidates.take (s.candidates.length / 2)).contains ci) =
        List.range s.numOriginal := by
    refine List.filter_eq_self.mpr fun ci hci => ?_
    have hlt := List.mem_range.mp hci
    simp only [Bool.not_eq_true', List.contains_eq_mem, decide_eq_false_iff_not]
    intro hmem
    exact absurd (mem_candidates (List.mem_of_mem_take hmem)) (Nat.not_le_of_lt hlt)
  rw [hall, List.getElem?_append_left (by simpa using hi), List.getElem?_range hi]

theorem Inv.paired {F : List (List Lit)} {s : Solver} (h : Inv F s) (hq : s.propQueue = [])
    (ci : Nat) : Paired s (s.clause ci) := by
  intro i w o hi hw ho hf
  rcases h.watched ci i w o hi hw ho hf with hx | ⟨ht, -⟩
  · rw [hq] at hx
    exact absurd hx List.not_mem_nil
  · exact ht

theorem Inv.congr {F : List (List Lit)} {s t : Solver} (h : Inv F s)
    (he : t = { s with
      conflictsSinceRestart := t.conflictsSinceRestart, lubyU := t.lubyU, lubyV := t.lubyV,
      restartUnit := t.restartUnit, restarts := t.restarts, lbd := t.lbd,
      maxLearnt := t.maxLearnt, reductions := t.reductions }) : Inv F t := by
  rw [he]
  exact
    { core := h.core.congr rfl rfl rfl rfl rfl rfl rfl (PermStore.refl _), count := h.count,
      watched := h.watched, queue := h.queue, units := h.units, seen := h.seen,
      activity := h.activity, varInc := h.varInc }

/-- What a restart hands on: the invariant, nothing queued, and the same variables. -/
structure Settled (F : List (List Lit)) (n : Nat) (s : Solver) : Prop where
  inv : Inv F s
  queue : s.propQueue = []
  numVars : s.numVars = n

theorem Core.numOriginal_le {F : List (List Lit)} {s : Solver} (h : Core F s) :
    s.numOriginal ≤ s.clauses.length := by
  rw [h.numOriginal_eq]
  refine Nat.le_of_not_lt fun hlt => ?_
  obtain ⟨c, hc, -⟩ := h.original s.clauses.length _ (List.getElem?_eq_getElem hlt)
  exact absurd (List.getElem?_eq_some_iff.mp hc).1 (Nat.lt_irrefl _)

/-- The state `reduce_db` rebuilds the watches of. -/
def restocked (s : Solver) : Solver :=
  { s with
    clauses := (keptClauses s).map s.clause
    lbd := (keptClauses s).map fun ci => s.lbd.getD ci 0
    reason := fun v =>
      match s.reason v with
      | some r => if (s.assign v).isSome then some ((keptClauses s).idxOf r) else some r
      | none => none }

theorem restocked_core {F : List (List Lit)} {s : Solver} (h : Core F s)
    (hz : s.decisionLevel = 0) : Core F (restocked s) := by
  refine h.restock hz rfl rfl rfl rfl rfl rfl ?_ ?_
  · intro c hc
    obtain ⟨ci, hci, rfl⟩ := List.mem_map.mp hc
    have hlt := List.mem_range.mp (List.mem_filter.mp hci).1
    rw [clause, List.getD_eq_getElem?_getD, List.getElem?_eq_getElem hlt]
    exact List.getElem_mem hlt
  · intro i hi
    have hi' : i < s.numOriginal := by rw [h.numOriginal_eq]; exact hi
    have hlen : i < s.clauses.length := Nat.lt_of_lt_of_le hi' h.numOriginal_le
    show ((keptClauses s).map s.clause)[i]? = _
    rw [List.getElem?_map, keptClauses_getElem? hi' h.numOriginal_le, Option.map_some, clause,
      List.getD_eq_getElem?_getD, List.getElem?_eq_getElem hlen, Option.getD_some]

theorem restocked_paired {F : List (List Lit)} {n : Nat} {s : Solver} (h : Settled F n s) (ci : Nat) :
    Paired (restocked s) ((restocked s).clause ci) := by
  show Paired s (((keptClauses s).map s.clause).getD ci [])
  rw [List.getD_eq_getElem?_getD, List.getElem?_map]
  cases hk : (keptClauses s)[ci]? with
  | none => exact Paired.of_short (by simp)
  | some i => exact h.inv.paired h.queue i

theorem reduceDb_settled {F : List (List Lit)} {n : Nat} {s : Solver} (h : Settled F n s)
    (hz : s.decisionLevel = 0) : Settled F n s.reduceDb := by
  have heq : s.reduceDb = if s.candidates.length / 2 = 0 then s else
      { (restocked s).rebuildWatches with
        reductions := (restocked s).rebuildWatches.reductions + 1 } := rfl
  rw [heq]
  by_cases hr : s.candidates.length / 2 = 0
  · rw [if_pos hr]
    exact h
  · rw [if_neg hr]
    obtain ⟨hre, hcount, hpaired⟩ := rebuildWatches_spec (s := restocked s) fun ci hlen =>
      (restocked_paired h ci).ready hlen
    have hcore := restocked_core h.inv.core hz
    set t := (restocked s).rebuildWatches with ht
    have hcore' : Core F t := by
      refine hcore.congr ?_ ?_ ?_ ?_ ?_ ?_ ?_ hre.store <;> rw [hre.eq]
    have hassign : t.assign = s.assign := by rw [hre.eq]; rfl
    have hlevel : t.level = s.level := by rw [hre.eq]; rfl
    have hqueue : t.propQueue = [] := by
      rw [hre.eq]
      exact h.queue
    have hlim : t.trailLim = s.trailLim := by rw [hre.eq]; rfl
    have hzero : t.decisionLevel = 0 := by rw [decisionLevel, hlim]; exact hz
    have hnum : t.numVars = n := by
      rw [hre.eq]
      exact h.numVars
    refine ⟨Inv.congr (s := t) ⟨hcore', hcount, ?_, ?_, ?_, ?_, ?_, ?_⟩ rfl, hqueue, hnum⟩
    · intro ci i w o hi hw ho hf
      have htrue : t.litValue o = some true := by
        rw [hre.litValue] at hf ⊢
        exact hpaired ci i w o hi hw ho hf
      refine Or.inr ⟨htrue, ?_⟩
      rw [hcore'.level_eq_zero hzero (v := o.var) (by rw [litValue_eq_true.mp htrue]; simp)]
      exact Nat.zero_le _
    · intro v hv
      rw [hqueue] at hv
      exact absurd hv List.not_mem_nil
    · refine ⟨h.inv.units.1, fun l hl => ?_⟩
      obtain ⟨ht', hz'⟩ := h.inv.units.2 l hl
      exact ⟨by rw [litValue_congr hassign]; exact ht', by rw [hlevel]; exact hz'⟩
    · rw [hre.eq]; exact h.inv.seen
    · rw [hre.eq]; exact h.inv.activity
    · rw [hre.eq]; exact h.inv.varInc

/-! ## The restart -/

theorem Settled.congr {F : List (List Lit)} {n : Nat} {s t : Solver} (h : Settled F n s)
    (he : t = { s with
      conflictsSinceRestart := t.conflictsSinceRestart, lubyU := t.lubyU, lubyV := t.lubyV,
      restartUnit := t.restartUnit, restarts := t.restarts, lbd := t.lbd,
      maxLearnt := t.maxLearnt, reductions := t.reductions }) : Settled F n t := by
  refine ⟨h.inv.congr he, ?_, ?_⟩
  · rw [he]; exact h.queue
  · rw [he]; exact h.numVars

theorem advanceLuby_congr (s : Solver) : s.advanceLuby = { s with
    conflictsSinceRestart := s.advanceLuby.conflictsSinceRestart, lubyU := s.advanceLuby.lubyU,
    lubyV := s.advanceLuby.lubyV, restartUnit := s.advanceLuby.restartUnit,
    restarts := s.advanceLuby.restarts, lbd := s.advanceLuby.lbd,
    maxLearnt := s.advanceLuby.maxLearnt, reductions := s.advanceLuby.reductions } := by
  unfold advanceLuby
  split <;> rfl

/-- **Restarts**, with or without a database reduction, keep the invariant. -/
theorem maybeRestart_settled {F : List (List Lit)} {n : Nat} {s : Solver} (h : Settled F n s) :
    Settled F n s.maybeRestart := by
  unfold maybeRestart
  by_cases hc : 0 < s.decisionLevel ∧ s.restartUnit * s.lubyV ≤ s.conflictsSinceRestart
  · rw [if_pos hc]
    obtain ⟨hinv, hq, hz⟩ := Inv.backtrack h.inv.core h.inv.count h.inv.watched h.inv.units
      h.inv.seen h.inv.activity h.inv.varInc hc.1 fun ci w hx => by
        rw [h.queue] at hx
        exact absurd hx List.not_mem_nil
    have h₁ : Settled F n { s.backtrackTo 0 with
        conflictsSinceRestart := 0, restarts := (s.backtrackTo 0).restarts + 1 } :=
      Settled.congr (s := s.backtrackTo 0)
        ⟨hinv, hq, (backtrackTo_numVars s 0).trans h.numVars⟩ rfl
    have h₂ := h₁.congr (advanceLuby_congr _)
    set t := ({ s.backtrackTo 0 with
      conflictsSinceRestart := 0, restarts := (s.backtrackTo 0).restarts + 1 } : Solver).advanceLuby
      with ht
    have hz' : t.decisionLevel = 0 := by
      rw [decisionLevel, ht, advanceLuby_congr]
      exact hz
    show Settled F n (if t.maxLearnt < t.clauses.length - t.numOriginal
      then { t.reduceDb with maxLearnt := t.reduceDb.maxLearnt + t.reduceDb.maxLearnt / 2 } else t)
    by_cases hm : t.maxLearnt < t.clauses.length - t.numOriginal
    · rw [if_pos hm]
      exact (reduceDb_settled h₂ hz').congr rfl
    · rw [if_neg hm]
      exact h₂
  · rw [if_neg hc]
    exact h

end Csolver.Sat
