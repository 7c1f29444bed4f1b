import Csolver.Solver.SatPropagate
import Mathlib.Tactic.NormNum

/-!
# First-UIP conflict analysis

`analyze` walks the trail back from the conflict, resolving the current clause with the reason of
the most recent marked variable, until one marked variable of the current level is left. The solver
does not change during the walk, only its scratch state, so everything here is over one fixed `s`.

`Marks` is the invariant of the scratch state and `Covers` says what the marks mean: whatever model
the input has, it makes a collected literal true or disagrees with the assignment at a marked
variable of the conflict level. `counter` counts exactly those marks below the walk's index, which
is why the walk never runs off the trail and never asks a decision for its reason.
-/

namespace Csolver.Sat

open Csolver.Lib Csolver.Core
open Solver

/-! ## Positions and levels -/

theorem Core.level_start {F : List (List Lit)} {s : Solver} (h : Core F s)
    (hd : 0 < s.decisionLevel) : ∃ x, s.trailLim[s.decisionLevel - 1]? = some x ∧
      ∀ {p v}, s.trail[p]? = some v → (x ≤ p ↔ s.level v = s.decisionLevel) := by
  have hlt : s.decisionLevel - 1 < s.trailLim.length := Nat.sub_lt hd Nat.one_pos
  refine ⟨s.trailLim[s.decisionLevel - 1], List.getElem?_eq_getElem hlt, ?_⟩
  intro p v hp
  rw [h.level_iff p v _ _ hp (List.getElem?_eq_getElem hlt)]
  have hle : s.level v ≤ s.decisionLevel := h.level_le v (List.mem_of_getElem? hp)
  constructor
  · intro hlt'
    exact Nat.le_antisymm hle (by omega)
  · intro he
    rw [he]
    exact Nat.sub_lt hd Nat.one_pos

theorem Core.position {F : List (List Lit)} {s : Solver} (h : Core F s) {v : Nat} {b : Bool}
    (hv : s.assign v = some b) : ∃ p : Nat, s.trail[p]? = some v := by
  have hmem : v ∈ s.trail := (h.mem_trail v).mpr (by rw [hv]; simp)
  exact List.mem_iff_getElem?.mp hmem

theorem Core.position_of_false {F : List (List Lit)} {s : Solver} (h : Core F s) {l : Lit}
    (hl : s.litValue l = some false) : ∃ p < s.trail.length, s.trail[p]? = some l.var := by
  obtain ⟨p, hp⟩ := h.position (litValue_eq_false.mp hl)
  exact ⟨p, (List.getElem?_eq_some_iff.mp hp).1, hp⟩

theorem Core.position_inj {F : List (List Lit)} {s : Solver} (h : Core F s) {p q v : Nat}
    (hp : s.trail[p]? = some v) (hq : s.trail[q]? = some v) : p = q := by
  obtain ⟨hp', hpe⟩ := List.getElem?_eq_some_iff.mp hp
  obtain ⟨hq', hqe⟩ := List.getElem?_eq_some_iff.mp hq
  exact (List.Nodup.getElem_inj_iff h.nodup).mp (hpe.trans hqe.symm)

/-! ## Counting marks -/

/-- The marked variables of level `d` among the first `idx` of the trail. -/
def marked (s : Solver) (d : Nat) (seen : Nat → Bool) (idx : Nat) : Nat :=
  (s.trail.take idx).countP fun v => seen v && s.level v == d

theorem marked_succ {s : Solver} {d v idx : Nat} {seen : Nat → Bool}
    (hv : s.trail[idx]? = some v) :
    marked s d seen (idx + 1) =
      marked s d seen idx + if seen v = true ∧ s.level v = d then 1 else 0 := by
  unfold marked
  rw [List.take_add_one, hv, List.countP_append]
  congr 1
  by_cases hs : seen v = true <;> by_cases hl : s.level v = d <;> simp [hs, hl]

theorem marked_update_of_le {F : List (List Lit)} {s : Solver} (h : Core F s) {d u idx p : Nat}
    {seen : Nat → Bool} {b : Bool} (hp : s.trail[p]? = some u) (hle : idx ≤ p) :
    marked s d (Function.update seen u b) idx = marked s d seen idx := by
  unfold marked
  refine List.countP_congr fun x hx => ?_
  obtain ⟨q, hq⟩ := List.mem_iff_getElem?.mp hx
  have hqi : q < idx := by
    have := (List.getElem?_eq_some_iff.mp hq).1
    rw [List.length_take] at this
    exact Nat.lt_of_lt_of_le this (Nat.min_le_left _ _)
  have hne : x ≠ u := by
    intro he
    rw [List.getElem?_take_of_lt hqi, he] at hq
    exact absurd (h.position_inj hq hp) (Nat.ne_of_lt (Nat.lt_of_lt_of_le hqi hle))
  rw [Function.update_of_ne hne]

theorem marked_mark {F : List (List Lit)} {s : Solver} (h : Core F s) {d u idx p : Nat}
    {seen : Nat → Bool} (hu : seen u = false) (hl : s.level u = d)
    (hp : s.trail[p]? = some u) (hlt : p < idx) (hidx : idx ≤ s.trail.length) :
    marked s d (Function.update seen u true) idx = marked s d seen idx + 1 := by
  induction idx with
  | zero => exact absurd hlt (Nat.not_lt_zero p)
  | succ idx ih =>
    have hv := List.getElem?_eq_getElem (Nat.lt_of_succ_le hidx)
    rw [marked_succ hv, marked_succ hv]
    rcases Nat.lt_or_ge p idx with hlt' | hge
    · have hne : s.trail[idx] ≠ u := by
        intro he
        rw [he] at hv
        exact absurd (h.position_inj hp hv) (Nat.ne_of_lt hlt')
      rw [ih hlt' (Nat.le_of_succ_le hidx), Function.update_of_ne hne]
      exact Nat.add_right_comm _ _ _
    · have he : p = idx := Nat.le_antisymm (Nat.lt_succ_iff.mp hlt) hge
      subst he
      have hu' : s.trail[p] = u := Option.some.inj (hv.symm.trans hp)
      rw [hu', Function.update_self, marked_update_of_le h hp (Nat.le_refl p)]
      simp [hu, hl]

theorem marked_other {s : Solver} {d u idx : Nat} {seen : Nat → Bool} {b : Bool}
    (hl : s.level u ≠ d) : marked s d (Function.update seen u b) idx = marked s d seen idx := by
  unfold marked
  refine List.countP_congr fun x _ => ?_
  by_cases he : x = u
  · subst he
    simp [hl]
  · rw [Function.update_of_ne he]

theorem marked_pos {s : Solver} {d idx : Nat} {seen : Nat → Bool} :
    0 < marked s d seen idx ↔ ∃ p < idx, ∃ v, s.trail[p]? = some v ∧ seen v = true ∧ s.level v = d := by
  unfold marked
  rw [List.countP_pos_iff]
  constructor
  · intro ⟨v, hv, hs⟩
    obtain ⟨p, hp⟩ := List.mem_iff_getElem?.mp hv
    have hlt : p < idx := by
      have := (List.getElem?_eq_some_iff.mp hp).1
      rw [List.length_take] at this
      exact Nat.lt_of_lt_of_le this (Nat.min_le_left _ _)
    rw [List.getElem?_take_of_lt hlt] at hp
    exact ⟨p, hlt, v, hp, by simpa using hs⟩
  · intro ⟨p, hlt, v, hp, hs⟩
    refine ⟨v, List.mem_of_getElem? (i := p) ?_, by simpa using hs⟩
    rw [List.getElem?_take_of_lt hlt]
    exact hp

/-! ## Walking back -/

theorem walkBack_some {s : Solver} {d i : Nat} {seen : Nat → Bool} {idx : Nat}
    (hidx : idx ≤ s.trail.length) (h : walkBack seen s.trail idx = some i) :
    i < idx ∧ s.trail[i]? = some (s.trail.getD i 0) ∧ seen (s.trail.getD i 0) = true ∧
      (∀ p v, s.trail[p]? = some v → p < idx → seen v = true → p ≤ i) ∧
      marked s d seen idx = marked s d seen (i + 1) := by
  induction idx with
  | zero => exact absurd h (by simp [walkBack])
  | succ idx ih =>
    have hv := List.getElem?_eq_getElem (Nat.lt_of_succ_le hidx)
    have hget : s.trail.getD idx 0 = s.trail[idx] := by simp [List.getD, hv]
    rw [walkBack] at h
    by_cases hs : seen (s.trail.getD idx 0) = true
    · rw [if_pos hs] at h
      obtain rfl := Option.some.inj h
      refine ⟨Nat.lt_succ_self _, by rw [hget]; exact hv, hs, ?_, rfl⟩
      intro p v _ hlt _
      exact Nat.lt_succ_iff.mp hlt
    · rw [if_neg hs] at h
      obtain ⟨hlt, hi, hsi, hlast, hm⟩ := ih (Nat.le_of_succ_le hidx) h
      refine ⟨Nat.lt_succ_of_lt hlt, hi, hsi, ?_, ?_⟩
      · intro p v hp hlt' hsv
        rcases Nat.lt_succ_iff_lt_or_eq.mp hlt' with hlt' | rfl
        · exact hlast p v hp hlt' hsv
        · have : s.trail.getD p 0 = v := by simp [List.getD, hp]
          rw [this] at hs
          exact absurd hsv hs
      · rw [marked_succ hv, ← hm, if_neg, Nat.add_zero]
        intro hc
        rw [hget] at hs
        exact hs hc.1

theorem walkBack_isSome {s : Solver} {seen : Nat → Bool} {idx p v : Nat}
    (hp : s.trail[p]? = some v) (hlt : p < idx) (hs : seen v = true) :
    ∃ i, walkBack seen s.trail idx = some i := by
  induction idx with
  | zero => exact absurd hlt (Nat.not_lt_zero p)
  | succ idx ih =>
    rw [walkBack]
    by_cases hc : seen (s.trail.getD idx 0) = true
    · rw [if_pos hc]
      exact ⟨idx, rfl⟩
    · rw [if_neg hc]
      rcases Nat.lt_succ_iff_lt_or_eq.mp hlt with hlt' | rfl
      · exact ih hlt'
      · have : s.trail.getD p 0 = v := by simp [List.getD, hp]
        rw [this] at hc
        exact absurd hs hc

/-! ## The invariant of the resolution loop -/

/-- The scratch state with the walk at `idx`: what is marked, what has been collected and what
    `counter` counts. -/
structure Marks (s : Solver) (idx : Nat) (r : Scratch) : Prop where
  here : ∀ v, r.seen v = true → s.level v = s.decisionLevel → ∃ p < idx, s.trail[p]? = some v
  below : ∀ v, r.seen v = true → s.level v ≠ s.decisionLevel → ∃ l ∈ r.lower, l.var = v
  lower : ∀ l ∈ r.lower, s.litValue l = some false ∧ r.seen l.var = true ∧
    0 < s.level l.var ∧ s.level l.var < s.decisionLevel
  counter : r.counter = marked s s.decisionLevel r.seen idx

/-- The model `m` makes a collected literal true, or disagrees with the assignment at a marked
    variable of the current level. -/
def Covered (s : Solver) (r : Scratch) (m : Nat → Bool) : Prop :=
  (∃ l ∈ r.lower, litTrue m l) ∨
    ∃ v, r.seen v = true ∧ s.level v = s.decisionLevel ∧ s.assign v = some !m v

/-- A literal that `resolveLit` takes in: false, and not yet passed by the walk. -/
def Resolvable (s : Solver) (idx : Nat) (l : Lit) : Prop :=
  s.litValue l = some false ∧ ∃ p < idx, s.trail[p]? = some l.var

/-- What resolving literals in does to the scratch state: it only adds. -/
structure Scratch.Grow (r r' : Scratch) : Prop where
  seen : ∀ v, r.seen v = true → r'.seen v = true
  lower : ∀ l ∈ r.lower, l ∈ r'.lower
  counter : r.counter ≤ r'.counter

theorem Scratch.Grow.refl (r : Scratch) : Scratch.Grow r r :=
  ⟨fun _ h => h, fun _ h => h, Nat.le_refl _⟩

theorem Scratch.Grow.trans {a b c : Scratch} (h₁ : Scratch.Grow a b) (h₂ : Scratch.Grow b c) :
    Scratch.Grow a c :=
  ⟨fun v h => h₂.seen v (h₁.seen v h), fun l h => h₂.lower l (h₁.lower l h),
    Nat.le_trans h₁.counter h₂.counter⟩

theorem Covered.grow {s : Solver} {r r' : Scratch} {m : Nat → Bool} (h : Covered s r m)
    (hg : Scratch.Grow r r') : Covered s r' m := by
  rcases h with ⟨l, hl, ht⟩ | ⟨v, hv, hrest⟩
  · exact Or.inl ⟨l, hg.lower l hl, ht⟩
  · exact Or.inr ⟨v, hg.seen v hv, hrest⟩

theorem Marks.mark_lower {s : Solver} {idx : Nat} {r : Scratch} (h : Marks s idx r) {l : Lit}
    (hf : s.litValue l = some false) (hpos : 0 < s.level l.var)
    (hlt : s.level l.var < s.decisionLevel) :
    Marks s idx { r with
      seen := Function.update r.seen l.var true, lower := r.lower ++ [l] } where
  here v hv hl := by
    have hne : v ≠ l.var := by
      intro he
      rw [he] at hl
      exact absurd hl (Nat.ne_of_lt hlt)
    exact h.here v (by simpa [Function.update_of_ne hne] using hv) hl
  below v hv hl := by
    by_cases hne : v = l.var
    · exact ⟨l, by simp, hne.symm⟩
    · obtain ⟨l', hl', hv'⟩ := h.below v (by simpa [Function.update_of_ne hne] using hv) hl
      exact ⟨l', List.mem_append_left _ hl', hv'⟩
  lower l' hl' := by
    rcases List.mem_append.mp hl' with hl' | hl'
    · obtain ⟨hf', hs', hlev⟩ := h.lower l' hl'
      refine ⟨hf', ?_, hlev⟩
      by_cases he : l'.var = l.var
      · simp [he]
      · simpa [Function.update_of_ne he] using hs'
    · obtain rfl := List.mem_singleton.mp hl'
      exact ⟨hf, by simp, hpos, hlt⟩
  counter := by
    change r.counter = _
    rw [marked_other (Nat.ne_of_lt hlt)]
    exact h.counter

theorem Marks.mark_here {F : List (List Lit)} {s : Solver} (hc : Core F s) {idx p : Nat}
    {r : Scratch} (h : Marks s idx r) {v : Nat} (hs : r.seen v = false)
    (hl : s.level v = s.decisionLevel) (hp : s.trail[p]? = some v) (hlt : p < idx)
    (hidx : idx ≤ s.trail.length) :
    Marks s idx { r with
      seen := Function.update r.seen v true, counter := r.counter + 1 } where
  here u hu hlu := by
    by_cases hne : u = v
    · exact ⟨p, hlt, by rw [hne]; exact hp⟩
    · exact h.here u (by simpa [Function.update_of_ne hne] using hu) hlu
  below u hu hlu := by
    have hne : u ≠ v := by
      intro he
      rw [he] at hlu
      exact hlu hl
    exact h.below u (by simpa [Function.update_of_ne hne] using hu) hlu
  lower l hl' := by
    obtain ⟨hf, hseen, hlev⟩ := h.lower l hl'
    refine ⟨hf, ?_, hlev⟩
    by_cases he : l.var = v
    · simp [he]
    · simpa [Function.update_of_ne he] using hseen
  counter := by
    change r.counter + 1 = _
    rw [marked_mark hc hs hl hp hlt hidx, h.counter]

theorem resolveLit_inv {F : List (List Lit)} {s : Solver} (hc : Core F s) {idx : Nat}
    (hidx : idx ≤ s.trail.length) {pivot : Option Nat} {r : Scratch} {l : Lit}
    (h : Marks s idx r) (hl : some l.var ≠ pivot → Resolvable s idx l) :
    let r' := resolveLit s s.decisionLevel pivot r l
    Marks s idx r' ∧ Scratch.Grow r r' ∧
      (some l.var ≠ pivot → 0 < s.level l.var → r'.seen l.var = true) := by
  unfold resolveLit
  by_cases hp : some l.var = pivot
  · simp only [hp, if_true]
    exact ⟨h, Scratch.Grow.refl r, fun hne => absurd rfl hne⟩
  · obtain ⟨hf, p, hlt, hpos⟩ := hl hp
    simp only [hp, if_false]
    by_cases hs : r.seen l.var = true
    · simp only [hs, Bool.not_true, Bool.false_and, Bool.false_eq_true, if_false]
      exact ⟨h, Scratch.Grow.refl r, fun _ _ => trivial⟩
    · have hs' : r.seen l.var = false := by simpa using hs
      by_cases hz : 0 < s.level l.var
      · have hup : ∀ v, r.seen v = true → Function.update r.seen l.var true v = true := by
          intro v hv
          by_cases he : v = l.var
          · simp [he]
          · simpa [Function.update_of_ne he] using hv
        simp only [hs', hz, Bool.not_false, decide_true, Bool.and_true, if_true]
        by_cases hd : s.level l.var = s.decisionLevel
        · simp only [hd, if_true]
          exact ⟨h.mark_here hc hs' hd hpos hlt hidx, ⟨hup, fun _ hx => hx, Nat.le_succ _⟩,
            fun _ _ => by simp⟩
        · have hlt' : s.level l.var < s.decisionLevel :=
            Nat.lt_of_le_of_ne (hc.level_le _ (List.mem_of_getElem? hpos)) hd
          simp only [hd, if_false]
          exact ⟨h.mark_lower hf hz hlt',
            ⟨hup, fun _ hx => List.mem_append_left _ hx, Nat.le_refl _⟩, fun _ _ => by simp⟩
      · simp only [hs', hz, Bool.not_false, decide_false, Bool.and_false, Bool.false_eq_true,
          if_false]
        exact ⟨h, Scratch.Grow.refl r, fun _ hz' => hz'.elim⟩

theorem resolveClause_inv {F : List (List Lit)} {s : Solver} (hc : Core F s) {idx : Nat}
    (hidx : idx ≤ s.trail.length) {pivot : Option Nat} (c : List Lit) :
    ∀ {r : Scratch}, Marks s idx r → (∀ l ∈ c, some l.var ≠ pivot → Resolvable s idx l) →
      let r' := c.foldl (resolveLit s s.decisionLevel pivot) r
      Marks s idx r' ∧ Scratch.Grow r r' ∧
        ∀ l ∈ c, some l.var ≠ pivot → 0 < s.level l.var → r'.seen l.var = true := by
  induction c with
  | nil =>
    intro r h _
    exact ⟨h, Scratch.Grow.refl r, fun l hl => absurd hl List.not_mem_nil⟩
  | cons l c ih =>
    intro r h hall
    obtain ⟨h₁, hg₁, hseen⟩ := resolveLit_inv hc hidx h (hall l List.mem_cons_self)
    obtain ⟨h₂, hg₂, hrest⟩ := ih h₁ fun l' hl' => hall l' (List.mem_cons_of_mem _ hl')
    refine ⟨h₂, hg₁.trans hg₂, ?_⟩
    intro l' hl' hne hz
    rcases List.mem_cons.mp hl' with rfl | hl'
    · exact hg₂.seen _ (hseen hne hz)
    · exact hrest l' hl' hne hz

/-- Once its literals are accounted for, a clause the model satisfies covers the model — unless it is
    satisfied at the pivot, where the model then agrees with the assignment. -/
theorem covered_of_clause {F : List (List Lit)} {s : Solver} (hc : Core F s) {m : Nat → Bool}
    (hm : satAll m F) {idx : Nat} {r : Scratch} (h : Marks s idx r) {pivot : Option Nat}
    {c : List Lit} (hsat : clauseSat m c)
    (hall : ∀ l ∈ c, some l.var ≠ pivot → s.litValue l = some false)
    (hseen : ∀ l ∈ c, some l.var ≠ pivot → 0 < s.level l.var → r.seen l.var = true)
    (hpiv : ∀ l ∈ c, some l.var = pivot → litTrue m l → Covered s r m) : Covered s r m := by
  obtain ⟨l, hl, ht⟩ := hsat
  by_cases hp : some l.var = pivot
  · exact hpiv l hl hp ht
  · have hf := hall l hl hp
    have hassign := litValue_eq_false.mp hf
    rcases Nat.eq_zero_or_pos (s.level l.var) with hz | hz
    · -- a literal false at level 0 is false in every model of the input
      have := hc.level_zero _ _ hassign hz m hm
      rw [litTrue, this] at ht
      simp at ht
    · have hs := hseen l hl hp hz
      by_cases hd : s.level l.var = s.decisionLevel
      · refine Or.inr ⟨l.var, hs, hd, ?_⟩
        rw [hassign, ht, Bool.not_not]
      · obtain ⟨l', hl', hv⟩ := h.below _ hs hd
        have he : l' = l := by
          rw [eq_falseLit (h.lower l' hl').1, eq_falseLit hf, hv]
        exact Or.inl ⟨l', hl', he ▸ ht⟩

/-- The clause at the head of an iteration. In the first it is the conflict; later it is the reason
    of the pivot, which the walk has just passed, and the marks cover every model that agrees with
    the assignment at the pivot. -/
def Pending (F : List (List Lit)) (s : Solver) (idx : Nat) (r : Scratch) (c : List Lit) :
    Option Nat → Prop
  | none => ∀ l ∈ c, Resolvable s idx l
  | some v => (∀ l ∈ c, (l.var = v ∧ s.litValue l = some true) ∨ Resolvable s idx l) ∧
      s.trail[idx]? = some v ∧ ∀ m, satAll m F → Covered s r m ∨ s.assign v = some !m v

theorem Pending.resolvable {F : List (List Lit)} {s : Solver} {idx : Nat} {r : Scratch}
    {c : List Lit} {pivot : Option Nat} (h : Pending F s idx r c pivot) :
    ∀ l ∈ c, some l.var ≠ pivot → Resolvable s idx l := by
  intro l hl hne
  cases pivot with
  | none => exact h l hl
  | some v =>
    rcases h.1 l hl with ⟨hv, _⟩ | hr
    · exact absurd (congrArg some hv) hne
    · exact hr

theorem resolve_covers {F : List (List Lit)} {s : Solver} (hc : Core F s) {idx : Nat}
    (hidx : idx ≤ s.trail.length) {pivot : Option Nat} {c : List Lit} {r : Scratch}
    (h : Marks s idx r) (hp : Pending F s idx r c pivot) (hent : Entails F c) :
    ∀ m, satAll m F → Covered s (c.foldl (resolveLit s s.decisionLevel pivot) r) m := by
  intro m hm
  obtain ⟨h', hg, hseen⟩ := resolveClause_inv hc hidx c h hp.resolvable
  refine covered_of_clause hc hm h' (hent m hm) (fun l hl hne => (hp.resolvable l hl hne).1)
    hseen ?_
  intro l hl he ht
  cases pivot with
  | none => exact absurd he (by simp)
  | some v =>
    have hv : l.var = v := Option.some.inj he
    rcases hp.2.2 m hm with hcov | hdis
    · exact hcov.grow hg
    · -- the model disagrees at the pivot, so it is not the pivot's literal that it satisfies
      rcases hp.1 l hl with ⟨_, htrue⟩ | ⟨_, p, hlt, hpos⟩
      · rw [litValue_eq_true, hv, hdis] at htrue
        rw [litTrue, hv] at ht
        simp [ht] at htrue
      · rw [hv] at hpos
        exact absurd (hc.position_inj hpos hp.2.1) (Nat.ne_of_lt hlt)

/-! ## The loop -/

/-- What the loop delivers: the unique implication point, and literals that with it form a clause
    the input entails. -/
structure Uip (F : List (List Lit)) (s : Solver) (uip : Nat) (r : Scratch) : Prop where
  assigned : s.assign uip ≠ none
  level : s.level uip = s.decisionLevel
  lower : ∀ l ∈ r.lower, s.litValue l = some false ∧ 0 < s.level l.var ∧
    s.level l.var < s.decisionLevel
  seen : ∀ v, r.seen v = true → ∃ l ∈ r.lower, l.var = v
  entails : Entails F (s.falseLit uip :: r.lower)

theorem litTrue_falseLit {s : Solver} {m : Nat → Bool} {v : Nat} (h : s.assign v = some !m v) :
    litTrue m (s.falseLit v) := by
  unfold litTrue falseLit
  rw [h]
  cases m v <;> rfl

theorem Marks.unmark {F : List (List Lit)} {s : Solver} (hc : Core F s) {idx i : Nat} {r : Scratch}
    (h : Marks s idx r) (hidx : idx ≤ s.trail.length)
    (hw : walkBack r.seen s.trail idx = some i)
    (hl : s.level (s.trail.getD i 0) = s.decisionLevel) :
    ∃ n, r.counter = n + 1 ∧
      Marks s i { r with seen := Function.update r.seen (s.trail.getD i 0) false, counter := n } := by
  obtain ⟨hlt, hi, hs, hlast, hm⟩ := walkBack_some (d := s.decisionLevel) hidx hw
  set v := s.trail.getD i 0 with hv
  have hcount : r.counter = marked s s.decisionLevel r.seen i + 1 := by
    rw [h.counter, hm, marked_succ hi, if_pos ⟨hs, hl⟩]
  have hkeep : ∀ u, Function.update r.seen v false u = true → r.seen u = true ∧ u ≠ v := by
    intro u hu
    by_cases he : u = v
    · simp [he] at hu
    · exact ⟨by simpa [Function.update_of_ne he] using hu, he⟩
  refine ⟨_, hcount, ?_, ?_, ?_, ?_⟩
  · intro u hu hlu
    obtain ⟨hsu, hne⟩ := hkeep u hu
    obtain ⟨p, hp, hpu⟩ := h.here u hsu hlu
    refine ⟨p, Nat.lt_of_le_of_ne (hlast p u hpu hp hsu) ?_, hpu⟩
    intro he
    rw [he, hi] at hpu
    exact hne (Option.some.inj hpu).symm
  · intro u hu hlu
    exact h.below u (hkeep u hu).1 hlu
  · intro l hl'
    obtain ⟨hf, hsl, hpos, hltd⟩ := h.lower l hl'
    refine ⟨hf, ?_, hpos, hltd⟩
    have hne : l.var ≠ v := by
      intro he
      rw [he] at hltd
      exact absurd hl (Nat.ne_of_lt hltd)
    simpa [Function.update_of_ne hne] using hsl
  · exact (marked_update_of_le hc hi (Nat.le_refl i)).symm

/-- A mark of the current level below the walk: the walk finds one, and what it finds is at the
    current level. -/
theorem walkBack_here {F : List (List Lit)} {s : Solver} (hc : Core F s)
    (hd : 0 < s.decisionLevel) {idx : Nat} {r : Scratch} (h : Marks s idx r)
    (hidx : idx ≤ s.trail.length) (hpos : 0 < r.counter) :
    ∃ i, walkBack r.seen s.trail idx = some i ∧
      s.level (s.trail.getD i 0) = s.decisionLevel := by
  rw [h.counter] at hpos
  obtain ⟨p, hp, v, hv, hs, hl⟩ := marked_pos.mp hpos
  obtain ⟨i, hi⟩ := walkBack_isSome hv hp hs
  obtain ⟨-, hit, -, hlast, -⟩ := walkBack_some (d := s.decisionLevel) hidx hi
  obtain ⟨x, -, hx⟩ := hc.level_start hd
  have hxp : x ≤ p := (hx hv).mpr hl
  exact ⟨i, hi, (hx hit).mp (Nat.le_trans hxp (hlast p v hv hp hs))⟩

theorem Core.reason_of_mark {F : List (List Lit)} {s : Solver} (h : Core F s)
    (hd : 0 < s.decisionLevel) {i p u v : Nat} (hi : s.trail[i]? = some v)
    (hl : s.level v = s.decisionLevel) (hp : s.trail[p]? = some u) (hlt : p < i)
    (hlu : s.level u = s.decisionLevel) :
    ∃ ci c, s.reason v = some ci ∧ s.clauses[ci]? = some c ∧ ReasonOk s c v i := by
  obtain ⟨x, hxe, hx⟩ := h.level_start hd
  rcases h.reason_ok i v hi (by rw [hl]; exact hd) with hdec | hreason
  · rw [hl, hxe] at hdec
    have hxi : x = i := Option.some.inj hdec
    exact absurd ((hx hp).mpr hlu) (by omega)
  · exact hreason

/-- **The resolution loop** ends at the first unique implication point with an entailed clause. -/
theorem analyzeLoop_uip {F : List (List Lit)} {s : Solver} (hc : Core F s)
    (hd : 0 < s.decisionLevel) (fuel : Nat) :
    ∀ {pivot : Option Nat} {confl idx : Nat} {r : Scratch} {c : List Lit},
      s.clauses[confl]? = some c → Marks s idx r → idx ≤ s.trail.length → idx < fuel →
      Pending F s idx r c pivot →
      (0 < r.counter ∨ pivot = none ∧ ∃ l ∈ c, s.level l.var = s.decisionLevel) →
      ∃ uip r', analyzeLoop s s.decisionLevel fuel pivot confl idx r = some (uip, r') ∧
        Uip F s uip r' := by
  induction fuel with
  | zero => intro _ _ _ _ _ _ _ _ hf; exact absurd hf (Nat.not_lt_zero _)
  | succ fuel ih =>
    intro pivot confl idx r c hcl h hidx hf hpend hcount
    obtain ⟨h₁, hg, hseen⟩ := resolveClause_inv hc hidx c h hpend.resolvable
    have hcov := resolve_covers hc hidx h hpend (hc.entails c (List.mem_of_getElem? hcl))
    rw [analyzeLoop, clause_eq hcl]
    set r₁ := c.foldl (resolveLit s s.decisionLevel pivot) r with hr₁
    have hpos : 0 < r₁.counter := by
      rcases hcount with hpos | ⟨rfl, l, hl, hlev⟩
      · exact Nat.lt_of_lt_of_le hpos hg.counter
      · rw [h₁.counter, marked_pos]
        obtain ⟨-, p, hp, hpl⟩ := hpend l hl
        exact ⟨p, hp, l.var, hpl, hseen l hl (by simp) (by rw [hlev]; exact hd), hlev⟩
    obtain ⟨i, hi, hlev⟩ := walkBack_here hc hd h₁ hidx hpos
    obtain ⟨hlt, hit, -, -, -⟩ := walkBack_some (d := s.decisionLevel) hidx hi
    obtain ⟨n, hn, h₂⟩ := h₁.unmark hc hidx hi hlev
    simp only [hi, hn]
    set tv := s.trail.getD i 0 with htv
    -- every model is covered by what is left, or disagrees at the variable just passed
    have hcov₂ : ∀ m, satAll m F →
        Covered s { r₁ with seen := Function.update r₁.seen tv false, counter := n } m ∨
          s.assign tv = some !m tv := by
      intro m hm
      rcases hcov m hm with hlow | ⟨v, hsv, hlv, hav⟩
      · exact Or.inl (Or.inl hlow)
      · by_cases he : v = tv
        · exact Or.inr (he ▸ hav)
        · refine Or.inl (Or.inr ⟨v, ?_, hlv, hav⟩)
          simpa [Function.update_of_ne he] using hsv
    have hassigned : s.assign tv ≠ none := (hc.mem_trail tv).mp (List.mem_of_getElem? hit)
    cases n with
    | zero =>
      have hnone : ∀ v, Function.update r₁.seen tv false v = true →
          s.level v ≠ s.decisionLevel := by
        intro v hv hlv
        obtain ⟨p, hp, hpv⟩ := h₂.here v hv hlv
        have : 0 < marked s s.decisionLevel (Function.update r₁.seen tv false) i :=
          marked_pos.mpr ⟨p, hp, v, hpv, hv, hlv⟩
        exact absurd h₂.counter (Nat.ne_of_lt this)
      refine ⟨tv, _, rfl, hassigned, hlev, ?_, ?_, ?_⟩
      · intro l hl
        obtain ⟨hf', -, hpos', hlt'⟩ := h₂.lower l hl
        exact ⟨hf', hpos', hlt'⟩
      · intro v hv
        exact h₂.below v hv (hnone v hv)
      · intro m hm
        rcases hcov₂ m hm with (⟨l, hl, ht⟩ | ⟨v, hv, hlv, -⟩) | hdis
        · exact ⟨l, List.mem_cons_of_mem _ hl, ht⟩
        · exact absurd hlv (hnone v hv)
        · exact ⟨_, List.mem_cons_self, litTrue_falseLit hdis⟩
    | succ n =>
      have hmark : 0 < marked s s.decisionLevel (Function.update r₁.seen tv false) i := by
        rw [← h₂.counter]
        exact Nat.succ_pos n
      obtain ⟨p, hp, u, hpu, -, hlu⟩ := marked_pos.mp hmark
      obtain ⟨ci, c', hre, hci, hok⟩ := hc.reason_of_mark hd hit hlev hpu hp hlu
      simp only [hre]
      refine ih hci h₂ (Nat.le_trans (Nat.le_of_lt hlt) hidx) (by omega) ?_ (Or.inl (Nat.succ_pos n))
      refine ⟨fun l hl => ?_, hit, hcov₂⟩
      rcases hok l hl with htrue | ⟨hfalse, hq⟩
      · exact Or.inl htrue
      · exact Or.inr ⟨hfalse, hq⟩

/-! ## The learnt clause -/

/-- `maxLevelFrom` picks one of its candidates, and none of them is at a higher level. -/
theorem maxLevelFrom_spec (s : Solver) (lits : List Lit) (is : List Nat) :
    ∀ best, (s.maxLevelFrom lits is best = best ∨ s.maxLevelFrom lits is best ∈ is) ∧
      ∀ i, i = best ∨ i ∈ is →
        s.level (lits.getD i default).var ≤
          s.level (lits.getD (s.maxLevelFrom lits is best) default).var := by
  induction is with
  | nil =>
    intro best
    refine ⟨Or.inl rfl, fun i hi => ?_⟩
    rcases hi with rfl | hi
    · exact Nat.le_refl _
    · exact absurd hi List.not_mem_nil
  | cons j is ih =>
    intro best
    rw [maxLevelFrom]
    by_cases hlt : s.level (lits.getD best default).var < s.level (lits.getD j default).var
    · rw [if_pos hlt]
      obtain ⟨hmem, hmax⟩ := ih j
      refine ⟨Or.inr ?_, fun i hi => ?_⟩
      · rcases hmem with he | he
        · rw [he]; exact List.mem_cons_self
        · exact List.mem_cons_of_mem _ he
      · rcases hi with rfl | hi
        · exact Nat.le_trans (Nat.le_of_lt hlt) (hmax j (Or.inl rfl))
        · exact hmax i (List.mem_cons.mp hi)
    · rw [if_neg hlt]
      obtain ⟨hmem, hmax⟩ := ih best
      refine ⟨?_, fun i hi => ?_⟩
      · rcases hmem with he | he
        · exact Or.inl he
        · exact Or.inr (List.mem_cons_of_mem _ he)
      · rcases hi with rfl | hi
        · exact hmax i (Or.inl rfl)
        · rcases List.mem_cons.mp hi with rfl | hi
          · exact Nat.le_trans (Nat.le_of_not_lt hlt) (hmax best (Or.inl rfl))
          · exact hmax i (Or.inr hi)

/-- The clause `analyze` returns with its backjump level `bt`: entailed, falsified, asserting its
    head once everything above `bt` is undone, with a literal of level `bt` in second place. -/
structure LearntOk (F : List (List Lit)) (s : Solver) (a : Lit) (rest : List Lit) (bt : Nat) :
    Prop where
  entails : Entails F (a :: rest)
  head : s.litValue a = some false ∧ s.level a.var = s.decisionLevel
  tail : ∀ l ∈ rest, s.litValue l = some false ∧ 0 < s.level l.var ∧ s.level l.var ≤ bt
  second : ∀ b, rest[0]? = some b → s.level b.var = bt
  unit : rest = [] → bt = 0
  lt : bt < s.decisionLevel

/-- The order of the literals: the asserting one first, the highest of the others second. -/
def arrange (s : Solver) (a : Lit) (lower : List Lit) : List Lit :=
  if 2 ≤ (a :: lower).length then
    swapAt (a :: lower) 1
      (s.maxLevelFrom (a :: lower) (List.range' 2 ((a :: lower).length - 2)) 1)
  else a :: lower

theorem arrange_spec {F : List (List Lit)} {s : Solver} {uip : Nat} {r : Scratch}
    (h : Uip F s uip r) (hd : 0 < s.decisionLevel) :
    ∃ rest, arrange s (s.falseLit uip) r.lower = s.falseLit uip :: rest ∧ rest.Perm r.lower ∧
      LearntOk F s (s.falseLit uip) rest
        (if 2 ≤ (s.falseLit uip :: rest).length
          then s.level ((s.falseLit uip :: rest).getD 1 default).var else 0) := by
  set a := s.falseLit uip with ha
  have hhead : s.litValue a = some false ∧ s.level a.var = s.decisionLevel :=
    ⟨falseLit_false h.assigned, h.level⟩
  rcases hlow : r.lower with _ | ⟨b, lower⟩
  · refine ⟨[], by simp [arrange], List.Perm.refl _, ?_⟩
    have hent := h.entails
    rw [hlow] at hent
    exact ⟨hent, hhead, by simp, by simp, by simp, by simpa using hd⟩
  · set lits := a :: b :: lower with hlits
    set k := s.maxLevelFrom lits (List.range' 2 (lits.length - 2)) 1 with hk
    obtain ⟨hmem, hmax⟩ := maxLevelFrom_spec s lits (List.range' 2 (lits.length - 2)) 1
    rw [← hk] at hmem hmax
    have hlen : lits.length = lower.length + 2 := by simp [hlits]
    have hk1 : 1 ≤ k ∧ k < lits.length := by
      rcases hmem with he | he
      · rw [he]; omega
      · have := List.mem_range'_1.mp he
        omega
    have h1 : lits[1]? = some b := by simp [hlits]
    have hkc : lits[k]? = some lits[k] := List.getElem?_eq_getElem hk1.2
    have hget := getElem?_swapAt h1 hkc
    have harr : arrange s a (b :: lower) = swapAt lits 1 k := by
      rw [arrange, if_pos (by simp)]
    -- the head stays in place and the chosen literal comes second
    have h0 : (swapAt lits 1 k)[0]? = some a := by
      rw [hget, if_neg (by omega), if_neg (by omega)]
      simp [hlits]
    have h1' : (swapAt lits 1 k)[1]? = some lits[k] := by
      rw [hget]
      by_cases he : 1 = k
      · rw [if_pos he]
        have := h1
        rw [he] at this
        exact this.symm.trans hkc
      · rw [if_neg he, if_pos rfl]
    obtain ⟨rest, hrest⟩ : ∃ rest, swapAt lits 1 k = a :: rest := by
      cases hsw : swapAt lits 1 k with
      | nil => simp [hsw] at h0
      | cons x rest => exact ⟨rest, by simpa [hsw] using h0⟩
    have hperm : rest.Perm (b :: lower) :=
      List.Perm.cons_inv (a := a) (hrest ▸ swapAt_perm lits 1 k)
    rw [hrest] at h1'
    have hlen' : rest.length = lower.length + 1 := by simpa using hperm.length_eq
    have hbt : (if 2 ≤ (a :: rest).length then s.level ((a :: rest).getD 1 default).var else 0) =
        s.level lits[k].var := by
      rw [if_pos (by simp [hlen']), List.getD_eq_getElem?_getD, h1', Option.getD_some]
    have hlower : ∀ l ∈ rest, l ∈ r.lower := by
      intro l hl
      rw [hlow]
      exact hperm.mem_iff.mp hl
    have hchosen : lits[k] ∈ r.lower := hlower _ (List.mem_of_getElem? (i := 0) (by simpa using h1'))
    refine ⟨rest, harr.trans hrest, hperm, ?_⟩
    rw [hbt]
    refine ⟨?_, hhead, ?_, ?_, ?_, (h.lower _ hchosen).2.2⟩
    · intro m hm
      have hp : (a :: rest).Perm (a :: r.lower) := by
        rw [hlow]
        exact hperm.cons a
      exact (clauseSat_perm hp).mpr (h.entails m hm)
    · intro l hl
      obtain ⟨hf, hpos, -⟩ := h.lower l (hlower l hl)
      refine ⟨hf, hpos, ?_⟩
      obtain ⟨i, hi⟩ := List.mem_iff_getElem?.mp (hperm.mem_iff.mp hl)
      have hil : i < lower.length + 1 := by simpa using (List.getElem?_eq_some_iff.mp hi).1
      have hi' : lits[i + 1]? = some l := by simpa [hlits] using hi
      have := hmax (i + 1) (by
        rcases Nat.eq_zero_or_pos i with rfl | hpos'
        · exact Or.inl rfl
        · exact Or.inr (List.mem_range'_1.mpr (by omega)))
      rwa [List.getD_eq_getElem?_getD, hi', List.getD_eq_getElem?_getD, hkc] at this
    · intro b' hb'
      have : (a :: rest)[1]? = some b' := by simpa using hb'
      rw [Option.some.inj (this.symm.trans h1')]
    · intro hnil
      rw [hnil] at hlen'
      exact absurd hlen' (by simp)

/-! ## Heuristics and the whole of `analyze` -/

/-- `t` is `s` up to activities, which are non-negative. -/
def Bumped (s t : Solver) : Prop :=
  ∃ act inc, t = { s with activity := act, varInc := inc } ∧ (∀ v, (act v).NonNeg) ∧ inc.NonNeg

theorem round_rescale (rd : Rounding) : ∃ q, 0 < q ∧ rd.round (1 / 10 ^ 100) = .fin q := by
  have h10 : (10 : ℚ) ^ 100 ≤ 2 ^ 1022 :=
    calc (10 : ℚ) ^ 100 ≤ (2 ^ 4) ^ 100 := pow_le_pow_left₀ (by norm_num) (by norm_num) 100
      _ = 2 ^ 400 := by rw [← pow_mul]
      _ ≤ 2 ^ 1022 := pow_le_pow_right₀ (by norm_num) (by norm_num)
  refine rd.round_mid _ (one_div_le_one_div_of_le (by positivity) h10) ?_
  calc (1 : ℚ) / 10 ^ 100 ≤ 1 := div_le_one_of_le₀ (one_le_pow₀ (by norm_num)) (by positivity)
    _ ≤ 2 ^ 1023 := one_le_pow₀ (by norm_num)

theorem invVarDecay_fin (rd : Rounding) : ∃ q, 0 < q ∧ invVarDecay rd = .fin q := by
  refine rd.round_mid _ ?_ ?_
  · calc (1 : ℚ) / 2 ^ 1022 ≤ 1 := div_le_one_of_le₀ (one_le_pow₀ (by norm_num)) (by positivity)
      _ ≤ 1 / (95 / 100) := by norm_num
  · calc (1 : ℚ) / (95 / 100) ≤ 2 ^ 1 := by norm_num
      _ ≤ 2 ^ 1023 := pow_le_pow_right₀ (by norm_num) (by norm_num)

theorem Bumped.bumpVar (rd : Rounding) {s t : Solver} (h : Bumped s t) (v : Nat) :
    Bumped s (bumpVar rd t v) := by
  obtain ⟨act, inc, rfl, hact, hinc⟩ := h
  have hup : ∀ u, (Function.update act v (rd.add (act v) inc) u).NonNeg := by
    intro u
    by_cases he : u = v
    · rw [he, Function.update_self]
      exact rd.nonNeg_add (hact v) hinc
    · rw [Function.update_of_ne he]
      exact hact u
  obtain ⟨q, hq, hround⟩ := round_rescale rd
  unfold Solver.bumpVar
  by_cases hgt : (rd.add (act v) inc).gt activityRescaleLimit = true
  · rw [if_pos hgt, hround]
    exact ⟨_, _, rfl, fun u => rd.nonNeg_mul_fin (hup u) hq, rd.nonNeg_mul_fin hinc hq⟩
  · rw [if_neg hgt]
    exact ⟨_, _, rfl, hup, hinc⟩

theorem Bumped.foldl (rd : Rounding) {s : Solver} (c : List Lit) :
    ∀ {t : Solver}, Bumped s t → Bumped s (c.foldl (fun t l => Solver.bumpVar rd t l.var) t) := by
  induction c with
  | nil => intro t h; exact h
  | cons l c ih => intro t h; exact ih (h.bumpVar rd l.var)

theorem Bumped.decay (rd : Rounding) {s t : Solver} (h : Bumped s t) :
    Bumped s (decayVarInc rd t) := by
  obtain ⟨act, inc, rfl, hact, hinc⟩ := h
  obtain ⟨q, hq, hround⟩ := invVarDecay_fin rd
  refine ⟨act, rd.mul inc (invVarDecay rd), rfl, hact, ?_⟩
  rw [hround]
  exact rd.nonNeg_mul_fin hinc hq

theorem clear_marks (c : List Lit) :
    ∀ {seen : Nat → Bool}, (∀ v, seen v = true → ∃ l ∈ c, l.var = v) →
      c.foldl (fun f l => Function.update f l.var false) seen = fun _ => false := by
  induction c with
  | nil =>
    intro seen h
    funext v
    cases hv : seen v with
    | false => exact hv
    | true =>
      obtain ⟨l, hl, -⟩ := h v hv
      exact absurd hl List.not_mem_nil
  | cons l c ih =>
    intro seen h
    refine ih fun v hv => ?_
    have hne : v ≠ l.var := by
      intro he
      simp [he] at hv
    obtain ⟨l', hl', hv'⟩ := h v (by simpa [Function.update_of_ne hne] using hv)
    rcases List.mem_cons.mp hl' with rfl | hl'
    · exact absurd hv'.symm hne
    · exact ⟨l', hl', hv'⟩

/-- **Conflict analysis.** It returns an entailed clause that asserts its head after a strict
    backjump, and leaves everything but the activities as it was. -/
theorem analyze_spec {F : List (List Lit)} (rd : Rounding) {s : Solver} {confl : Nat}
    (h : Conflict F s confl) (hd : 0 < s.decisionLevel) (hseen : s.seen = fun _ => false)
    (hact : ∀ v, (s.activity v).NonNeg) (hinc : s.varInc.NonNeg) :
    ∃ a rest bt lbd t, s.analyze rd confl = some ((a :: rest, bt, lbd), t) ∧
      LearntOk F s a rest bt ∧ Bumped s t := by
  obtain ⟨c, hcl, hall, hhere⟩ := h.falsified
  have hmarks : Marks s s.trail.length ⟨s.seen, [], 0⟩ := by
    refine ⟨?_, ?_, ?_, ?_⟩
    · intro v hv; simp [hseen] at hv
    · intro v hv; simp [hseen] at hv
    · intro l hl; exact absurd hl List.not_mem_nil
    · simp [marked, hseen]
  have hpend : Pending F s s.trail.length ⟨s.seen, [], 0⟩ c none := fun l hl =>
    ⟨hall l hl, h.core.position_of_false (hall l hl)⟩
  obtain ⟨uip, r, hloop, huip⟩ := analyzeLoop_uip h.core hd (s.trail.length + 1) hcl hmarks
    (Nat.le_refl _) (Nat.lt_succ_self _) hpend (Or.inr ⟨rfl, hhere⟩)
  obtain ⟨rest, harr, hperm, hok⟩ := arrange_spec huip hd
  unfold analyze
  simp only [hloop]
  unfold arrange at harr
  rw [harr]
  have hb : Bumped { s with seen := r.seen } (decayVarInc rd
      ((s.falseLit uip :: rest).foldl (fun t l => Solver.bumpVar rd t l.var)
        { s with seen := r.seen })) := by
    refine Bumped.decay rd (Bumped.foldl rd _ ?_)
    exact ⟨s.activity, s.varInc, rfl, hact, hinc⟩
  obtain ⟨act, inc, he, hact', hinc'⟩ := hb
  rw [he]
  refine ⟨_, rest, _, _, _, rfl, hok, act, inc, ?_, hact', hinc'⟩
  have hclear := clear_marks rest fun v hv => by
    obtain ⟨l, hl, hv'⟩ := huip.seen v hv
    exact ⟨l, hperm.mem_iff.mpr hl, hv'⟩
  simp only [List.tail_cons, hclear, hseen]

end Csolver.Sat
