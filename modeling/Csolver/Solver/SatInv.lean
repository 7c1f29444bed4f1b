import Csolver.Solver.Sat

/-!
# The invariants of the CDCL state

Three layers, separated by what they survive.

* `Core F s` — trail, levels, reasons and the clause store, all relative to the input `F`. It reads
  the clauses only up to permutation, so moving watches around never touches it (`Core.congr`).
* `CountOk` — every clause of length two or more is watched by exactly its first two literals,
  *with multiplicity*: a clause `a ∨ a` sits twice in the list of `a`, and dropping one entry when a
  watch slides away must leave the other.
* `TwoWatched` — a watched literal that is false (and already propagated) is paired with one that is
  true and was assigned no later. "No later" is what makes the invariant survive a backjump without
  any work (`TwoWatched.backtrack`).

The last two carry an explicit exemption, since they are false in the middle of a watch-list walk.
-/

namespace Csolver.Sat

open Csolver.Lib Csolver.Core

/-! ## Meaning of literals and clauses -/

/-- `l` holds under the total assignment `m`. -/
def litTrue (m : Nat → Bool) (l : Lit) : Prop := m l.var = !l.neg

def clauseSat (m : Nat → Bool) (c : List Lit) : Prop := ∃ l ∈ c, litTrue m l

def satAll (m : Nat → Bool) (F : List (List Lit)) : Prop := ∀ c ∈ F, clauseSat m c

def Entails (F : List (List Lit)) (c : List Lit) : Prop := ∀ m, satAll m F → clauseSat m c

theorem clauseSat_perm {m : Nat → Bool} {c c' : List Lit} (h : c'.Perm c) :
    clauseSat m c' ↔ clauseSat m c := by
  simp only [clauseSat, h.mem_iff]

theorem litCode_inj {a b : Lit} (h : litCode a = litCode b) : a = b := by
  obtain ⟨av, an⟩ := a
  obtain ⟨bv, bn⟩ := b
  simp only [litCode] at h
  cases an <;> cases bn <;> simp only [Bool.toNat_false, Bool.toNat_true, Lit.mk.injEq] at h ⊢ <;>
    first
      | exact ⟨by omega, trivial⟩
      | omega

namespace Solver

/-! ## Literal values -/

theorem litValue_eq_true {s : Solver} {l : Lit} :
    s.litValue l = some true ↔ s.assign l.var = some !l.neg := by
  unfold litValue
  cases h : s.assign l.var with
  | none => simp
  | some b => cases b <;> cases l.neg <;> simp

theorem litValue_eq_false {s : Solver} {l : Lit} :
    s.litValue l = some false ↔ s.assign l.var = some l.neg := by
  unfold litValue
  cases h : s.assign l.var with
  | none => simp
  | some b => cases b <;> cases l.neg <;> simp

theorem litValue_eq_none {s : Solver} {l : Lit} :
    s.litValue l = none ↔ s.assign l.var = none := by
  simp [litValue]

theorem litValue_congr {s t : Solver} (h : t.assign = s.assign) (l : Lit) :
    t.litValue l = s.litValue l := by
  simp only [litValue, h]

theorem falseLit_false {s : Solver} {v : Nat} (h : s.assign v ≠ none) :
    s.litValue (s.falseLit v) = some false := by
  rw [litValue_eq_false]
  cases hb : s.assign v with
  | none => exact absurd hb h
  | some b => cases b <;> simp [falseLit, hb]

theorem eq_falseLit {s : Solver} {l : Lit} (h : s.litValue l = some false) :
    l = s.falseLit l.var := by
  rw [litValue_eq_false] at h
  obtain ⟨v, n⟩ := l
  simp only [falseLit, Lit.mk.injEq, true_and] at h ⊢
  rw [h]
  cases n <;> rfl

/-! ## The clause store up to permutation -/

/-- Two stores with the same clauses at the same indices, literals possibly reordered. -/
def PermStore (cs cs' : List (List Lit)) : Prop := List.Forall₂ (fun c c' => c'.Perm c) cs cs'

theorem PermStore.refl (cs : List (List Lit)) : PermStore cs cs :=
  List.forall₂_same.mpr fun c _ => List.Perm.refl c

theorem PermStore.trans {a b c : List (List Lit)} (h₁ : PermStore a b) (h₂ : PermStore b c) :
    PermStore a c := by
  induction h₁ generalizing c with
  | nil => exact h₂
  | cons hp _ ih =>
    cases h₂ with
    | cons hq ht => exact .cons (hq.trans hp) (ih ht)

theorem PermStore.get {cs cs' : List (List Lit)} (h : PermStore cs cs') {i : Nat} {c : List Lit}
    (hc : cs[i]? = some c) : ∃ c', cs'[i]? = some c' ∧ c'.Perm c := by
  induction h generalizing i with
  | nil => simp at hc
  | cons hp _ ih =>
    cases i with
    | zero => exact ⟨_, rfl, by simpa using (by simpa using hc : _ = c) ▸ hp⟩
    | succ i => simpa using ih (by simpa using hc)

theorem PermStore.get' {cs cs' : List (List Lit)} (h : PermStore cs cs') {i : Nat} {c' : List Lit}
    (hc : cs'[i]? = some c') : ∃ c, cs[i]? = some c ∧ c'.Perm c := by
  induction h generalizing i with
  | nil => simp at hc
  | cons hp _ ih =>
    cases i with
    | zero => exact ⟨_, rfl, by simpa using (by simpa using hc : _ = c') ▸ hp⟩
    | succ i => simpa using ih (by simpa using hc)

theorem permStore_modify (cs : List (List Lit)) (ci : Nat) {f : List Lit → List Lit}
    (hf : ∀ c, (f c).Perm c) : PermStore cs (cs.modify ci f) := by
  induction cs generalizing ci with
  | nil => simp [PermStore]
  | cons c cs ih =>
    cases ci with
    | zero => exact .cons (hf c) (PermStore.refl cs)
    | succ ci => exact .cons (List.Perm.refl c) (ih ci)

theorem clause_eq {s : Solver} {ci : Nat} {c : List Lit} (h : s.clauses[ci]? = some c) :
    s.clause ci = c := by
  simp [clause, List.getD, h]

theorem clauses_getElem?_of_clause {s : Solver} {ci : Nat} (h : s.clause ci ≠ []) :
    s.clauses[ci]? = some (s.clause ci) := by
  cases hc : s.clauses[ci]? with
  | none => exact absurd (by simp [clause, List.getD, hc]) h
  | some c => rw [clause_eq hc]

end Solver

open Solver

/-! ## The core invariant -/

/-- The literals a clause forces `v` by: `v`'s own is true, every other is false and was assigned
    before position `p` of the trail. -/
def ReasonOk (s : Solver) (c : List Lit) (v p : Nat) : Prop :=
  ∀ l ∈ c, (l.var = v ∧ s.litValue l = some true) ∨
    (s.litValue l = some false ∧ ∃ q < p, s.trail[q]? = some l.var)

structure Core (F : List (List Lit)) (s : Solver) : Prop where
  nodup : s.trail.Nodup
  mem_trail : ∀ v, v ∈ s.trail ↔ s.assign v ≠ none
  trail_lt : ∀ v ∈ s.trail, v < s.numVars
  lim_sorted : s.trailLim.Pairwise (· < ·)
  lim_lt : ∀ x ∈ s.trailLim, x < s.trail.length
  level_iff : ∀ p v j x, s.trail[p]? = some v → s.trailLim[j]? = some x → (x ≤ p ↔ j < s.level v)
  level_le : ∀ v ∈ s.trail, s.level v ≤ s.trailLim.length
  reason_ok : ∀ p v, s.trail[p]? = some v → 0 < s.level v →
    s.trailLim[s.level v - 1]? = some p ∨
    ∃ ci c, s.reason v = some ci ∧ s.clauses[ci]? = some c ∧ ReasonOk s c v p
  entails : ∀ c ∈ s.clauses, Entails F c
  bounded : ∀ c ∈ s.clauses, ∀ l ∈ c, l.var < s.numVars
  original : ∀ (i : Nat) (c : List Lit), F[i]? = some c → ∃ c', s.clauses[i]? = some c' ∧ c'.Perm c
  numOriginal_eq : s.numOriginal = F.length
  level_zero : ∀ v b, s.assign v = some b → s.level v = 0 → ∀ m, satAll m F → m v = b

/-- `Core` reads neither the watch lists, nor the queue, nor the heuristics, nor the order of the
    literals inside a clause. -/
theorem Core.congr {F : List (List Lit)} {s t : Solver} (h : Core F s)
    (hn : t.numVars = s.numVars) (ha : t.assign = s.assign) (hl : t.level = s.level)
    (hr : t.reason = s.reason) (ht : t.trail = s.trail) (hm : t.trailLim = s.trailLim)
    (ho : t.numOriginal = s.numOriginal) (hc : PermStore s.clauses t.clauses) : Core F t where
  nodup := ht ▸ h.nodup
  mem_trail := by rw [ht, ha]; exact h.mem_trail
  trail_lt := by rw [ht, hn]; exact h.trail_lt
  lim_sorted := hm ▸ h.lim_sorted
  lim_lt := by rw [ht, hm]; exact h.lim_lt
  level_iff := by rw [ht, hm, hl]; exact h.level_iff
  level_le := by rw [ht, hm, hl]; exact h.level_le
  reason_ok := by
    intro p v hp hv
    rw [ht] at hp
    rw [hl] at hv
    rcases h.reason_ok p v hp hv with hd | ⟨ci, c, hre, hci, hok⟩
    · exact Or.inl (by rw [hm, hl]; exact hd)
    · obtain ⟨c', hci', hperm⟩ := hc.get hci
      refine Or.inr ⟨ci, c', by rw [hr]; exact hre, hci', ?_⟩
      intro l hl'
      have := hok l (hperm.mem_iff.mp hl')
      rwa [litValue_congr ha, ht]
  entails := by
    intro c' hc' m hsat
    obtain ⟨i, hi⟩ := List.mem_iff_getElem?.mp hc'
    obtain ⟨c, hci, hperm⟩ := hc.get' hi
    exact (clauseSat_perm hperm).mpr (h.entails c (List.mem_of_getElem? hci) m hsat)
  bounded := by
    intro c' hc' l hl'
    obtain ⟨i, hi⟩ := List.mem_iff_getElem?.mp hc'
    obtain ⟨c, hci, hperm⟩ := hc.get' hi
    rw [hn]
    exact h.bounded c (List.mem_of_getElem? hci) l (hperm.mem_iff.mp hl')
  original := by
    intro i c hi
    obtain ⟨c₁, h₁, hp₁⟩ := h.original i c hi
    obtain ⟨c₂, h₂, hp₂⟩ := hc.get h₁
    exact ⟨c₂, h₂, hp₂.trans hp₁⟩
  numOriginal_eq := ho ▸ h.numOriginal_eq
  level_zero := by rw [ha, hl]; exact h.level_zero

/-! ## Watches -/

/-- How often `c` is watched by `l`: once for each of its first two positions holding `l`. -/
def watchCount : List Lit → Lit → Nat
  | a :: b :: _, l => (if a = l then 1 else 0) + (if b = l then 1 else 0)
  | _, _ => 0

/-- The watch lists, plus the entries `extra` that have been taken out of them, are exactly the
    first two literals of each clause. -/
def CountOk (extra : Nat → Lit → Nat) (s : Solver) : Prop :=
  ∀ ci l, (s.watches (litCode l)).count ci + extra ci l = watchCount (s.clause ci) l

/-- A false watched literal is paired with a true one assigned no later, `ex` apart. -/
def TwoWatched (ex : Nat → Lit → Prop) (s : Solver) : Prop :=
  ∀ ci i w o, i < 2 → (s.clause ci)[i]? = some w → (s.clause ci)[1 - i]? = some o →
    s.litValue w = some false →
      ex ci w ∨ (s.litValue o = some true ∧ s.level o.var ≤ s.level w.var)

/-- Everything queued was assigned at the current level. -/
def QueueOk (s : Solver) : Prop :=
  ∀ v ∈ s.propQueue, s.assign v ≠ none ∧ s.level v = s.decisionLevel

/-- The input units sit on the trail at level 0, and the input has no empty clause. -/
def UnitsOk (F : List (List Lit)) (s : Solver) : Prop :=
  [] ∉ F ∧ ∀ l, [l] ∈ F → s.litValue l = some true ∧ s.level l.var = 0

/-- The state between two operations: whatever is queued has not been propagated yet. -/
structure Inv (F : List (List Lit)) (s : Solver) : Prop where
  core : Core F s
  count : CountOk (fun _ _ => 0) s
  watched : TwoWatched (fun _ w => w.var ∈ s.propQueue) s
  queue : QueueOk s
  units : UnitsOk F s
  seen : s.seen = fun _ => false
  activity : ∀ v, (s.activity v).NonNeg
  varInc : s.varInc.NonNeg

theorem TwoWatched.mono {ex ex' : Nat → Lit → Prop} {s : Solver} (h : TwoWatched ex s)
    (hex : ∀ ci w, ex ci w → ex' ci w) : TwoWatched ex' s := by
  intro ci i w o hi hw ho hf
  rcases h ci i w o hi hw ho hf with he | ht
  · exact Or.inl (hex ci w he)
  · exact Or.inr ht

theorem watchCount_pos {c : List Lit} {l : Lit} (h : 0 < watchCount c l) :
    ∃ a b r, c = a :: b :: r ∧ (a = l ∨ b = l) := by
  match c with
  | [] => simp [watchCount] at h
  | [_] => simp [watchCount] at h
  | a :: b :: r =>
    refine ⟨a, b, r, rfl, ?_⟩
    by_contra hne
    simp only [not_or] at hne
    simp [watchCount, hne.1, hne.2] at h

theorem count_pushWatch {w : Nat → List Nat} {l l' : Lit} {ci ci' : Nat} :
    (pushWatch w (litCode l) ci (litCode l')).count ci' =
      (w (litCode l')).count ci' + if l = l' ∧ ci = ci' then 1 else 0 := by
  unfold pushWatch
  by_cases h : l = l'
  · subst h
    by_cases hc : ci = ci'
    · subst hc; simp
    · simp [hc]
  · have hne : litCode l' ≠ litCode l := fun he => h (litCode_inj he).symm
    simp [Function.update_of_ne hne, h]

theorem count_watchClause {w : Nat → List Nat} {c : List Lit} {l : Lit} {ci ci' : Nat} :
    (watchClause w ci c (litCode l)).count ci' =
      (w (litCode l)).count ci' + if ci = ci' then watchCount c l else 0 := by
  match c with
  | [] => simp [watchClause, watchCount]
  | [_] => simp [watchClause, watchCount]
  | a :: b :: r =>
    simp only [watchClause, count_pushWatch, watchCount]
    by_cases hc : ci = ci'
    · simp [hc]; omega
    · simp [hc]

end Csolver.Sat
