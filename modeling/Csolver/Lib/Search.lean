import Mathlib.Algebra.BigOperators.Group.Finset.Basic

/-!
# A depth-first search with a visited set and a budget

States are taken from a stack. A state that was visited before is dropped; the result of a final state is
recorded with the labels on the way to it; the successors of any other state are put on the stack. Each
state that is taken costs one unit of the budget.

Whatever the budget, a recorded result is that of a state that can be reached (`explore_sound`). If the
budget is more than the number of steps between the states of a closed set, every result that can be
reached is recorded (`explore_complete`), and if every step decreases a rank there is such a set
(`exists_closed`).
-/

namespace Csolver.Lib

variable {σ L κ : Type} [DecidableEq σ] [DecidableEq κ]

section

variable (succ : σ → List (L × σ)) (result : σ → Option κ)

/-- The first way to a result is kept. -/
def record (out : List (κ × List L)) (k : κ) (path : List L) : List (κ × List L) :=
  if k ∈ out.map Prod.fst then out else out ++ [(k, path)]

def explore : Nat → List (σ × List L) → List σ → List (κ × List L) → List (κ × List L)
  | 0, _, _, out => out
  | _ + 1, [], _, out => out
  | budget + 1, (s, path) :: stack, visited, out =>
    if s ∈ visited then explore budget stack visited out
    else
      match result s with
      | some k => explore budget stack (s :: visited) (record out k path)
      | none => explore budget (((succ s).map fun e => (e.2, path ++ [e.1])).reverse ++ stack) (s :: visited) out

/-- The states that are reached from a state, with the labels on the way. -/
inductive Walk (init : σ) : List L → σ → Prop
  | refl : Walk init [] init
  | step {path : List L} {s s' : σ} {l : L} : Walk init path s → result s = none → (l, s') ∈ succ s →
      Walk init (path ++ [l]) s'

def Closed (R : Finset σ) : Prop := ∀ s ∈ R, result s = none → ∀ e ∈ succ s, e.2 ∈ R

/-- The number of steps from a state. -/
def degree (s : σ) : Nat := if (result s).isNone then (succ s).length else 0

end

variable {succ : σ → List (L × σ)} {result : σ → Option κ}

theorem mem_record {out : List (κ × List L)} {k : κ} {path : List L} {e : κ × List L}
    (h : e ∈ record out k path) : e ∈ out ∨ e = (k, path) := by
  rw [record] at h
  split at h
  · exact .inl h
  · rcases List.mem_append.mp h with h | h
    · exact .inl h
    · exact .inr (List.mem_singleton.mp h)

theorem record_keys {out : List (κ × List L)} {k j : κ} {path : List L} :
    j ∈ (record out k path).map Prod.fst ↔ j ∈ out.map Prod.fst ∨ j = k := by
  rw [record]
  split
  · next h =>
    refine ⟨.inl, ?_⟩
    rintro (h' | rfl)
    · exact h'
    · exact h
  · simp

/-- **Soundness**: a recorded result is that of a state at the end of its path. -/
theorem explore_sound {init : σ} {budget : Nat} {stack : List (σ × List L)} {visited : List σ}
    {out : List (κ × List L)} (hstack : ∀ p ∈ stack, Walk succ result init p.2 p.1)
    (hout : ∀ e ∈ out, ∃ s, Walk succ result init e.2 s ∧ result s = some e.1) :
    ∀ e ∈ explore succ result budget stack visited out, ∃ s, Walk succ result init e.2 s ∧ result s = some e.1 := by
  induction budget generalizing stack visited out with
  | zero => exact hout
  | succ budget ih =>
    cases stack with
    | nil => exact hout
    | cons p stack =>
      obtain ⟨s, path⟩ := p
      have hs : Walk succ result init path s := hstack (s, path) List.mem_cons_self
      have hrest (p) (hp : p ∈ stack) : Walk succ result init p.2 p.1 := hstack p (List.mem_cons_of_mem _ hp)
      rw [explore]
      split
      · exact ih hrest hout
      · split
        · next k hk =>
          refine ih hrest fun e he => ?_
          rcases mem_record he with he | rfl
          · exact hout e he
          · exact ⟨s, hs, hk⟩
        · next hk =>
          refine ih (fun p hp => ?_) hout
          rcases List.mem_append.mp hp with hp | hp
          · obtain ⟨e, he, rfl⟩ := List.mem_map.mp (List.mem_reverse.mp hp)
            exact .step hs hk he
          · exact hrest p hp

/-- What the search keeps of a closed set. -/
structure Covers (succ : σ → List (L × σ)) (result : σ → Option κ) (R : Finset σ) (init : σ) (budget : Nat)
    (stack : List (σ × List L)) (visited : List σ) (out : List (κ × List L)) : Prop where
  inside : ∀ p ∈ stack, p.1 ∈ R
  paid : stack.length + ∑ s ∈ R with s ∉ visited, degree succ result s ≤ budget
  start : init ∈ visited ∨ ∃ p ∈ stack, p.1 = init
  done : ∀ s ∈ visited, ∀ k, result s = some k → k ∈ out.map Prod.fst
  ahead : ∀ s ∈ visited, result s = none → ∀ e ∈ succ s, e.2 ∈ visited ∨ ∃ p ∈ stack, p.1 = e.2

omit [DecidableEq κ] in
theorem Covers.visited {R : Finset σ} {init : σ} {budget : Nat} {visited : List σ} {out : List (κ × List L)}
    (h : Covers succ result R init budget [] visited out) {path : List L} {s : σ}
    (hs : Walk succ result init path s) : s ∈ visited := by
  induction hs with
  | refl =>
    rcases h.start with hs | ⟨p, hp, _⟩
    · exact hs
    · exact absurd hp List.not_mem_nil
  | step _ hnone he ih =>
    rcases h.ahead _ ih hnone _ he with hs | ⟨p, hp, _⟩
    · exact hs
    · exact absurd hp List.not_mem_nil

omit [DecidableEq κ] in
theorem weight_cons {R : Finset σ} {s : σ} {visited : List σ} (hs : s ∈ R) (hvis : s ∉ visited) :
    ∑ u ∈ R with u ∉ visited, degree succ result u =
      degree succ result s + ∑ u ∈ R with u ∉ s :: visited, degree succ result u := by
  have hset : (R.filter fun u => u ∉ visited) = insert s (R.filter fun u => u ∉ s :: visited) := by
    ext u
    simp only [Finset.mem_filter, Finset.mem_insert, List.mem_cons, not_or]
    constructor
    · rintro ⟨hu, hno⟩
      by_cases heq : u = s
      · exact .inl heq
      · exact .inr ⟨hu, heq, hno⟩
    · rintro (rfl | ⟨hu, _, hno⟩)
      · exact ⟨hs, hvis⟩
      · exact ⟨hu, hno⟩
  rw [hset, Finset.sum_insert (by simp)]

theorem Covers.complete {R : Finset σ} (hR : Closed succ result R) {init : σ} {budget : Nat}
    {stack : List (σ × List L)} {visited : List σ} {out : List (κ × List L)}
    (h : Covers succ result R init budget stack visited out) {path : List L} {s : σ}
    (hs : Walk succ result init path s) {k : κ} (hk : result s = some k) :
    k ∈ (explore succ result budget stack visited out).map Prod.fst := by
  induction budget generalizing stack visited out with
  | zero =>
    have hempty : stack = [] := List.eq_nil_of_length_eq_zero (by have := h.paid; omega)
    subst hempty
    exact h.done s (h.visited hs) k hk
  | succ budget ih =>
    cases stack with
    | nil => exact h.done s (h.visited hs) k hk
    | cons p stack =>
      obtain ⟨s', path'⟩ := p
      have hbelow (p : σ × List L) (hp : p ∈ stack) : p.1 ∈ R := h.inside p (List.mem_cons_of_mem _ hp)
      have hin : s' ∈ R := h.inside (s', path') List.mem_cons_self
      have hpaid := h.paid
      rw [List.length_cons] at hpaid
      rw [explore]
      split
      · next hvis =>
        -- what the dropped state stood for was visited
        refine ih ⟨hbelow, by omega, ?_, h.done, fun u hu hnone e he => ?_⟩
        · rcases h.start with hs | ⟨p, hp, rfl⟩
          · exact .inl hs
          · rcases List.mem_cons.mp hp with rfl | hp
            · exact .inl hvis
            · exact .inr ⟨p, hp, rfl⟩
        · rcases h.ahead u hu hnone e he with hs | ⟨p, hp, heq⟩
          · exact .inl hs
          · rcases List.mem_cons.mp hp with rfl | hp
            · exact .inl (heq ▸ hvis)
            · exact .inr ⟨p, hp, heq⟩
      · next hvis =>
        have hsplit : ∑ u ∈ R with u ∉ visited, degree succ result u =
            degree succ result s' + ∑ u ∈ R with u ∉ s' :: visited, degree succ result u := weight_cons hin hvis
        have hstart {stack' : List (σ × List L)} (hsub : ∀ p ∈ stack, p ∈ stack') :
            init ∈ s' :: visited ∨ ∃ p ∈ stack', p.1 = init := by
          rcases h.start with hs | ⟨p, hp, rfl⟩
          · exact .inl (List.mem_cons_of_mem _ hs)
          · rcases List.mem_cons.mp hp with rfl | hp
            · exact .inl List.mem_cons_self
            · exact .inr ⟨p, hsub p hp, rfl⟩
        have hahead {stack' : List (σ × List L)} (hsub : ∀ p ∈ stack, p ∈ stack') {u : σ} (hu : u ∈ visited)
            (hnone : result u = none) {e : L × σ} (he : e ∈ succ u) :
            e.2 ∈ s' :: visited ∨ ∃ p ∈ stack', p.1 = e.2 := by
          rcases h.ahead u hu hnone e he with hs | ⟨p, hp, heq⟩
          · exact .inl (List.mem_cons_of_mem _ hs)
          · rcases List.mem_cons.mp hp with rfl | hp
            · exact .inl (heq ▸ List.mem_cons_self)
            · exact .inr ⟨p, hsub p hp, heq⟩
        split
        · next k' hk' =>
          refine ih ⟨hbelow, by omega, hstart fun p hp => hp, fun u hu j hj => ?_, fun u hu hnone e he => ?_⟩
          · rw [record_keys]
            rcases List.mem_cons.mp hu with rfl | hu
            · exact .inr (Option.some.inj (hj.symm.trans hk'))
            · exact .inl (h.done u hu j hj)
          · rcases List.mem_cons.mp hu with rfl | hu
            · exact absurd (hnone.symm.trans hk') (by simp)
            · exact hahead (fun p hp => hp) hu hnone he
        · next hnone' =>
          have hdeg : degree succ result s' = (succ s').length := by simp [degree, hnone']
          refine ih ⟨fun p hp => ?_, ?_, hstart fun p hp => List.mem_append_right _ hp, fun u hu j hj => ?_,
            fun u hu hnone e he => ?_⟩
          · rcases List.mem_append.mp hp with hp | hp
            · obtain ⟨e, he, rfl⟩ := List.mem_map.mp (List.mem_reverse.mp hp)
              exact hR s' hin hnone' e he
            · exact hbelow p hp
          · simp only [List.length_append, List.length_reverse, List.length_map]
            omega
          · rcases List.mem_cons.mp hu with rfl | hu
            · exact absurd (hnone'.symm.trans hj) (by simp)
            · exact h.done u hu j hj
          · rcases List.mem_cons.mp hu with rfl | hu
            · refine .inr ⟨(e.2, path' ++ [e.1]), List.mem_append_left _ ?_, rfl⟩
              exact List.mem_reverse.mpr (List.mem_map.mpr ⟨e, he, rfl⟩)
            · exact hahead (fun p hp => List.mem_append_right _ hp) hu hnone he

/-- **Completeness**: a budget for every step of a closed set, and one for the start, is enough. -/
theorem explore_complete {R : Finset σ} (hR : Closed succ result R) {init : σ} (hinit : init ∈ R) {budget : Nat}
    (hbudget : 1 + ∑ s ∈ R, degree succ result s ≤ budget) {path : List L} {s : σ}
    (hs : Walk succ result init path s) {k : κ} (hk : result s = some k) :
    k ∈ (explore succ result budget [(init, [])] [] []).map Prod.fst := by
  refine Covers.complete hR ⟨fun p hp => ?_, ?_, .inr ⟨(init, []), by simp, rfl⟩, ?_, ?_⟩ hs hk
  · rw [List.mem_singleton.mp hp]
    exact hinit
  · simpa using hbudget
  · exact fun u hu => absurd hu List.not_mem_nil
  · exact fun u hu => absurd hu List.not_mem_nil

/-! ## A search that meets no state twice -/

section Descend

variable {τ : Type}

/-- The states that are taken from the stack if no state is met twice. -/
def descend (csucc : τ → List τ) (cresult : τ → Option κ) : Nat → List τ → List τ
  | 0, _ => []
  | _ + 1, [] => []
  | budget + 1, c :: stack =>
    c :: match cresult c with
      | some _ => descend csucc cresult budget stack
      | none => descend csucc cresult budget ((csucc c).reverse ++ stack)

theorem explore_descend {csucc : τ → List τ} {cresult : τ → Option κ} (conc : τ → σ) (abst : σ → τ)
    {budget : Nat} {stack : List (σ × List L)} {cstack : List τ} {visited : List σ} {cvisited : List τ}
    {out : List (κ × List L)}
    (hmap : ∀ c ∈ descend csucc cresult budget cstack, abst (conc c) = c ∧
      (succ (conc c)).map Prod.snd = (csucc c).map conc ∧ result (conc c) = cresult c)
    (hnodup : (descend csucc cresult budget cstack).Nodup)
    (hvis : ∀ c ∈ cvisited, abst (conc c) = c ∧ c ∉ descend csucc cresult budget cstack)
    (hstack : stack.map Prod.fst = cstack.map conc) (hvisited : visited = cvisited.map conc) {k : κ}
    (hk : k ∈ (explore succ result budget stack visited out).map Prod.fst) :
    k ∈ out.map Prod.fst ∨ ∃ c ∈ descend csucc cresult budget cstack, cresult c = some k := by
  induction budget generalizing stack cstack visited cvisited out with
  | zero => exact .inl hk
  | succ budget ih =>
    cases cstack with
    | nil =>
      obtain rfl : stack = [] := by simpa using hstack
      exact .inl hk
    | cons c cstack =>
      cases stack with
      | nil => exact absurd hstack (by simp)
      | cons q stack =>
        obtain ⟨s, path⟩ := q
        obtain ⟨rfl, hrest⟩ : s = conc c ∧ stack.map Prod.fst = cstack.map conc := by simpa using hstack
        rw [descend] at hmap hnodup hvis ⊢
        obtain ⟨habst, hsucc, hresult⟩ := hmap c List.mem_cons_self
        obtain ⟨hfresh, hnodup'⟩ := List.nodup_cons.mp hnodup
        have hnew : conc c ∉ visited := by
          rw [hvisited, List.mem_map]
          rintro ⟨d, hd, heq⟩
          have hdc : d = c := by rw [← (hvis d hd).1, heq, habst]
          exact (hvis d hd).2 (hdc ▸ List.mem_cons_self)
        rw [explore, if_neg hnew, hresult] at hk
        have hvis' : ∀ d ∈ c :: cvisited, abst (conc d) = d ∧ d ∉ (match cresult c with
            | some _ => descend csucc cresult budget cstack
            | none => descend csucc cresult budget ((csucc c).reverse ++ cstack)) := by
          intro d hd
          rcases List.mem_cons.mp hd with rfl | hd
          · exact ⟨habst, hfresh⟩
          · exact ⟨(hvis d hd).1, fun hmem => (hvis d hd).2 (List.mem_cons_of_mem c hmem)⟩
        have hmap' := fun d hd => hmap d (List.mem_cons_of_mem c hd)
        have hvisited' : conc c :: visited = (c :: cvisited).map conc := by rw [hvisited, List.map_cons]
        cases hres : cresult c with
        | some k' =>
          simp only [hres] at hk hmap' hnodup' hvis' ⊢
          rcases ih hmap' hnodup' hvis' hrest hvisited' hk with hold | ⟨d, hd, hdk⟩
          · rcases record_keys.mp hold with hold | rfl
            · exact .inl hold
            · exact .inr ⟨c, List.mem_cons_self, hres⟩
          · exact .inr ⟨d, List.mem_cons_of_mem c hd, hdk⟩
        | none =>
          simp only [hres] at hk hmap' hnodup' hvis' ⊢
          have hstack' : (((succ (conc c)).map fun e => (e.2, path ++ [e.1])).reverse ++ stack).map Prod.fst =
              ((csucc c).reverse ++ cstack).map conc := by
            simp only [List.map_append, List.map_reverse, List.map_map, Function.comp_def] at hsucc ⊢
            rw [hrest, ← hsucc]
          rcases ih hmap' hnodup' hvis' hstack' hvisited' hk with hold | ⟨d, hd, hdk⟩
          · exact .inl hold
          · exact .inr ⟨d, List.mem_cons_of_mem c hd, hdk⟩

end Descend

theorem explore_mono {budget budget' : Nat} (hle : budget ≤ budget') {stack : List (σ × List L)}
    {visited : List σ} {out : List (κ × List L)} {k : κ}
    (h : k ∈ (explore succ result budget stack visited out).map Prod.fst) :
    k ∈ (explore succ result budget' stack visited out).map Prod.fst := by
  have hout (budget : Nat) (stack : List (σ × List L)) (visited : List σ) (out : List (κ × List L))
      (h : k ∈ out.map Prod.fst) : k ∈ (explore succ result budget stack visited out).map Prod.fst := by
    induction budget generalizing stack visited out with
    | zero => exact h
    | succ budget ih =>
      cases stack with
      | nil => exact h
      | cons p stack =>
        rw [explore]
        split
        · exact ih _ _ _ h
        · split
          · exact ih _ _ _ (record_keys.mpr (.inl h))
          · exact ih _ _ _ h
  induction budget generalizing budget' stack visited out with
  | zero => exact hout budget' stack visited out h
  | succ budget ih =>
    obtain ⟨m, rfl⟩ : ∃ m, budget' = m + 1 := ⟨budget' - 1, by omega⟩
    have hle' : budget ≤ m := by omega
    cases stack with
    | nil => exact h
    | cons p stack =>
      rw [explore] at h ⊢
      split
      · next hvis =>
        rw [if_pos hvis] at h
        exact ih hle' h
      · next hvis =>
        rw [if_neg hvis] at h
        split
        · next k' hk' =>
          rw [hk'] at h
          exact ih hle' h
        · next hk' =>
          rw [hk'] at h
          exact ih hle' h

/-- All states within a number of steps. -/
def within (succ : σ → List (L × σ)) : Nat → σ → List σ
  | 0, s => [s]
  | n + 1, s => s :: (succ s).flatMap fun e => within succ n e.2

omit [DecidableEq κ] in
theorem exists_closed {Inv : σ → Prop} (rank : σ → Nat)
    (hstep : ∀ s, Inv s → ∀ e ∈ succ s, Inv e.2 ∧ rank e.2 < rank s) {init : σ} (hinit : Inv init) :
    ∃ R : Finset σ, init ∈ R ∧ Closed succ result R := by
  have hself (n : Nat) (s : σ) : s ∈ within succ n s := by cases n <;> simp [within]
  -- by induction on the rank, a step stays within as many steps as the rank says
  have hclosed (n : Nat) (s u : σ) (hs : Inv s) (hn : rank s ≤ n) (hu : u ∈ within succ n s) :
      Inv u ∧ ∀ e ∈ succ u, e.2 ∈ within succ n s := by
    induction n generalizing s with
    | zero =>
      obtain rfl := List.mem_singleton.mp hu
      refine ⟨hs, fun e he => ?_⟩
      have hlt := (hstep u hs e he).2
      omega
    | succ n ih =>
      rw [within] at hu ⊢
      rcases List.mem_cons.mp hu with rfl | hu
      · refine ⟨hs, fun e he => List.mem_cons_of_mem _ (List.mem_flatMap.mpr ⟨e, he, hself n e.2⟩)⟩
      · obtain ⟨e', he', hu⟩ := List.mem_flatMap.mp hu
        obtain ⟨hinv, hlt⟩ := hstep s hs e' he'
        obtain ⟨hinv', hrest⟩ := ih e'.2 hinv (by omega) hu
        exact ⟨hinv', fun e he => List.mem_cons_of_mem _ (List.mem_flatMap.mpr ⟨e', he', hrest e he⟩)⟩
  refine ⟨(within succ (rank init) init).toFinset, by simp [hself], fun s hs _ e he => ?_⟩
  rw [List.mem_toFinset] at hs ⊢
  exact (hclosed (rank init) init s hinit (le_refl _) hs).2 e he

end Csolver.Lib
