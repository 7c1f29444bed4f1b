import Csolver.Cfg.Graph
import Mathlib.Data.DFinsupp.WellFounded

/-!
# The worklist solver (`crates/absint/src/engine.rs`, `domain.rs`)

A forward dataflow problem is solved by revisiting blocks until nothing changes. Transfer functions
need not be monotone: away from loop headers a block's entry state is replaced, not raised. What
makes the result a post-fixpoint is that a block whose predecessor's exit state changes is put back on
the list (`Pending`); what makes the loop end is that a block visited often enough is only ever
widened.

The exit state of a block is computed when its entry state changes. A block whose entry state never
leaves bottom keeps bottom as its exit state, whatever its transfer function makes of bottom.
-/

namespace Csolver

open Lib

/-- `AbstractDomain`, as far as the solver uses it. -/
class AbstractDomain (D : Type) where
  bottom : D
  join : D → D → D
  widen : D → D → D
  leq : D → D → Bool

open AbstractDomain

/-- The laws the trait documents. -/
class LawfulDomain (D : Type) [AbstractDomain D] : Prop where
  join_assoc : ∀ a b c : D, join (join a b) c = join a (join b c)
  join_comm : ∀ a b : D, join a b = join b a
  join_idem : ∀ a : D, join a a = a
  bottom_join : ∀ a : D, join bottom a = a
  leq_refl : ∀ a : D, leq a a = true
  leq_trans : ∀ a b c : D, leq a b = true → leq b c = true → leq a c = true
  leq_antisymm : ∀ a b : D, leq a b = true → leq b a = true → a = b
  leq_join : ∀ a b : D, leq a (join a b) = true
  leq_widen_left : ∀ a b : D, leq a (widen a b) = true
  leq_widen_right : ∀ a b : D, leq b (widen a b) = true
  /-- Chains made by widening become stationary. -/
  stabilizes : ∀ x y : Nat → D, (∀ n, x (n + 1) = widen (x n) (y n)) → ∃ n, x (n + 1) = x n

namespace Engine

def forceWidenAfter : Nat := 64

/-- The arguments of `solve`. -/
structure Problem (D : Type) where
  cfg : Cfg
  headers : List Nat
  entryState : D
  transferBlock : Nat → D → D
  edge : Nat → Nat → D → D

structure Solution (D : Type) where
  inStates : Nat → D
  outStates : Nat → D

/-- The solver between two iterations. -/
structure State (D : Type) where
  inStates : Nat → D
  outStates : Nat → D
  updates : Nat → Nat
  worklist : List Nat
  inWorklist : Nat → Bool

section

variable {D : Type} [AbstractDomain D]

/-- The join of the predecessors' contributions, plus the seed at the entry. -/
def joined (P : Problem D) (out : Nat → D) (u : Nat) : D :=
  (P.cfg.pred.row u).foldl (fun acc p => join acc (P.edge p u (out p)))
    (if u = P.cfg.entry then P.entryState else bottom)

/-- Put the successors that are not waiting yet at the end of the list. -/
def pushAll : List Nat → List Nat × (Nat → Bool) → List Nat × (Nat → Bool)
  | [], w => w
  | s :: ss, (list, waiting) =>
    if waiting s then pushAll ss (list, waiting)
    else pushAll ss (list ++ [s], Function.update waiting s true)

def saturatingSucc (n : Nat) : Nat := min (n + 1) (2 ^ 32 - 1)

/-- Whether `u` is widened at this visit. -/
def widens (P : Problem D) (s : State D) (u : Nat) : Bool :=
  decide (u ∈ P.headers) || decide (forceWidenAfter ≤ s.updates u)

def newIn (P : Problem D) (s : State D) (u : Nat) : D :=
  if widens P s u then widen (s.inStates u) (joined P s.outStates u) else joined P s.outStates u

variable [DecidableEq D]

/-- One iteration of the loop, on the block at the front. -/
def step (P : Problem D) (s : State D) : Option (State D) :=
  match s.worklist with
  | [] => none
  | u :: rest =>
    let waiting := Function.update s.inWorklist u false
    let entering := newIn P s u
    if entering = s.inStates u then some { s with worklist := rest, inWorklist := waiting }
    else
      let leaving := P.transferBlock u entering
      let s := { s with
        inStates := Function.update s.inStates u entering
        updates := Function.update s.updates u (saturatingSucc (s.updates u)) }
      if leaving = s.outStates u then some { s with worklist := rest, inWorklist := waiting }
      else
        let w := pushAll (P.cfg.succ.row u) (rest, waiting)
        some { s with
          outStates := Function.update s.outStates u leaving
          worklist := w.1
          inWorklist := w.2 }

def run (P : Problem D) : Nat → State D → Option (Solution D)
  | 0, _ => none
  | fuel + 1, s =>
    match step P s with
    | none => some ⟨s.inStates, s.outStates⟩
    | some s => run P fuel s

def start (rpo : List Nat) : State D :=
  ⟨fun _ => bottom, fun _ => bottom, fun _ => 0, rpo, fun x => decide (x ∈ rpo)⟩

/-- `solve`, for a number of iterations. -/
def solve (P : Problem D) (fuel : Nat) : Option (Solution D) := do
  let rpo ← P.cfg.reversePostorder
  run P fuel (start rpo)

/-! ## One iteration -/

theorem pushAll_spec (ss : List Nat) : ∀ {list : List Nat} {waiting : Nat → Bool},
    (∀ x, waiting x = true ↔ x ∈ list) → list.Nodup →
    (∀ x, (pushAll ss (list, waiting)).2 x = true ↔ x ∈ (pushAll ss (list, waiting)).1) ∧
      (pushAll ss (list, waiting)).1.Nodup ∧
      ∀ x, x ∈ (pushAll ss (list, waiting)).1 ↔ x ∈ list ∨ x ∈ ss := by
  induction ss with
  | nil =>
    intro list waiting hw hnd
    exact ⟨hw, hnd, fun x => by simp [pushAll]⟩
  | cons s ss ih =>
    intro list waiting hw hnd
    rw [pushAll]
    cases hs : waiting s with
    | true =>
      rw [if_pos rfl]
      obtain ⟨h₁, h₂, h₃⟩ := ih hw hnd
      refine ⟨h₁, h₂, fun x => ?_⟩
      rw [h₃, List.mem_cons]
      constructor
      · rintro (h | h)
        · exact .inl h
        · exact .inr (.inr h)
      · rintro (h | rfl | h)
        · exact .inl h
        · exact .inl ((hw x).mp hs)
        · exact .inr h
    | false =>
      have hnew : s ∉ list := by
        rw [← hw, hs]
        decide
      rw [if_neg (by decide)]
      have hw' : ∀ x, Function.update waiting s true x = true ↔ x ∈ list ++ [s] := by
        intro x
        rw [Function.update_apply, List.mem_append, List.mem_singleton]
        by_cases hx : x = s
        · simp [hx]
        · rw [if_neg hx, hw]
          simp [hx]
      have hnd' : (list ++ [s]).Nodup := by
        refine List.nodup_append.mpr ⟨hnd, List.nodup_singleton s, ?_⟩
        rintro a ha b hb rfl
        rw [List.mem_singleton.mp hb] at ha
        exact hnew ha
      obtain ⟨h₁, h₂, h₃⟩ := ih hw' hnd'
      refine ⟨h₁, h₂, fun x => ?_⟩
      rw [h₃, List.mem_append, List.mem_singleton, List.mem_cons, or_assoc]

/-- The three ends of an iteration: the entry state stays; only it changes; the exit state changes
    too and the successors wait. -/
theorem step_cases {P : Problem D} {s s' : State D} (h : step P s = some s') :
    ∃ u rest, s.worklist = u :: rest ∧
      ((newIn P s u = s.inStates u ∧
          s' = { s with worklist := rest, inWorklist := Function.update s.inWorklist u false }) ∨
        newIn P s u ≠ s.inStates u ∧
          ((P.transferBlock u (newIn P s u) = s.outStates u ∧ s' = { s with
              inStates := Function.update s.inStates u (newIn P s u)
              updates := Function.update s.updates u (saturatingSucc (s.updates u))
              worklist := rest
              inWorklist := Function.update s.inWorklist u false }) ∨
            s' = { s with
              inStates := Function.update s.inStates u (newIn P s u)
              updates := Function.update s.updates u (saturatingSucc (s.updates u))
              outStates := Function.update s.outStates u (P.transferBlock u (newIn P s u))
              worklist := (pushAll (P.cfg.succ.row u)
                (rest, Function.update s.inWorklist u false)).1
              inWorklist := (pushAll (P.cfg.succ.row u)
                (rest, Function.update s.inWorklist u false)).2 })) := by
  unfold step at h
  cases hw : s.worklist with
  | nil =>
    rw [hw] at h
    exact absurd h (by simp)
  | cons u rest =>
    rw [hw] at h
    refine ⟨u, rest, rfl, ?_⟩
    simp only at h
    by_cases hin : newIn P s u = s.inStates u
    · rw [if_pos hin] at h
      exact .inl ⟨hin, (Option.some.inj h).symm⟩
    · rw [if_neg hin] at h
      refine .inr ⟨hin, ?_⟩
      by_cases hout : P.transferBlock u (newIn P s u) = s.outStates u
      · rw [if_pos hout] at h
        exact .inl ⟨hout, (Option.some.inj h).symm⟩
      · rw [if_neg hout] at h
        exact .inr (Option.some.inj h).symm

theorem step_none {P : Problem D} {s : State D} (h : step P s = none) : s.worklist = [] := by
  unfold step at h
  cases hw : s.worklist with
  | nil => rfl
  | cons u rest =>
    rw [hw] at h
    simp only at h
    by_cases hin : newIn P s u = s.inStates u
    · rw [if_pos hin] at h
      exact absurd h (by simp)
    · rw [if_neg hin] at h
      by_cases hout : P.transferBlock u (newIn P s u) = s.outStates u
      · rw [if_pos hout] at h
        exact absurd h (by simp)
      · rw [if_neg hout] at h
        exact absurd h (by simp)

/-! ## What is not waiting is settled -/

/-- A block that can be reached from the entry. -/
def Live (P : Problem D) (u : Nat) : Prop :=
  u < P.cfg.nodeCount ∧ Reach P.cfg.succ.Edge P.cfg.entry u

/-- The invariant of the loop. -/
structure Pending (P : Problem D) (s : State D) : Prop where
  waiting : ∀ x, s.inWorklist x = true ↔ x ∈ s.worklist
  nodup : s.worklist.Nodup
  live : ∀ x ∈ s.worklist, Live P x
  settled : ∀ u, Live P u → u ∉ s.worklist →
    leq (joined P s.outStates u) (s.inStates u) = true
  blocks : ∀ u, s.outStates u = P.transferBlock u (s.inStates u) ∨
    s.inStates u = bottom ∧ s.outStates u = bottom

/-- What the loop keeps of its list alone. -/
structure Queued (P : Problem D) (s : State D) : Prop where
  waiting : ∀ x, s.inWorklist x = true ↔ x ∈ s.worklist
  nodup : s.worklist.Nodup
  live : ∀ x ∈ s.worklist, Live P x

omit [DecidableEq D] in
theorem Pending.queued {P : Problem D} {s : State D} (h : Pending P s) : Queued P s :=
  ⟨h.waiting, h.nodup, h.live⟩

omit [DecidableEq D] in
theorem joined_congr {P : Problem D} {out out' : Nat → D} {u : Nat}
    (h : ∀ p, P.cfg.succ.Edge p u → out p = out' p) : joined P out u = joined P out' u := by
  have key : ∀ (ps : List Nat) (acc : D), (∀ p ∈ ps, out p = out' p) →
      ps.foldl (fun acc p => join acc (P.edge p u (out p))) acc =
        ps.foldl (fun acc p => join acc (P.edge p u (out' p))) acc := by
    intro ps
    induction ps with
    | nil => exact fun _ _ => rfl
    | cons p ps ih =>
      intro acc hps
      obtain ⟨hp, hrest⟩ := List.forall_mem_cons.mp hps
      rw [List.foldl_cons, List.foldl_cons, hp, ih _ hrest]
  exact key _ _ fun p hp => h p ((P.cfg.pred_iff p u).mp hp)

omit [DecidableEq D] in
theorem leq_newIn [LawfulDomain D] (P : Problem D) (s : State D) (u : Nat) :
    leq (joined P s.outStates u) (newIn P s u) = true := by
  unfold newIn
  split
  · exact LawfulDomain.leq_widen_right _ _
  · exact LawfulDomain.leq_refl _

omit [AbstractDomain D] [DecidableEq D] in
theorem live_succ {P : Problem D} {u v : Nat} (hu : Live P u) (h : P.cfg.succ.Edge u v) : Live P v :=
  ⟨P.cfg.closed u v h, hu.2.step h⟩

omit [AbstractDomain D] [DecidableEq D] in
theorem Queued.pop {P : Problem D} {s : State D} (h : Queued P s) {u : Nat} {rest : List Nat}
    (hw : s.worklist = u :: rest) :
    (∀ x, Function.update s.inWorklist u false x = true ↔ x ∈ rest) ∧ rest.Nodup ∧
      Live P u ∧ ∀ x ∈ rest, Live P x := by
  have hnd := h.nodup
  rw [hw, List.nodup_cons] at hnd
  have hlive := h.live
  rw [hw, List.forall_mem_cons] at hlive
  refine ⟨fun x => ?_, hnd.2, hlive⟩
  by_cases hx : x = u
  · rw [hx, Function.update_self]
    exact iff_of_false (by decide) hnd.1
  · rw [Function.update_of_ne hx, h.waiting, hw, List.mem_cons]
    exact or_iff_right hx

theorem Queued.step {P : Problem D} {s s' : State D} (h : Queued P s)
    (hstep : Engine.step P s = some s') : Queued P s' := by
  obtain ⟨u, rest, hw, hcase⟩ := step_cases hstep
  obtain ⟨hwait, hnd, hu, hrest⟩ := h.pop hw
  rcases hcase with ⟨-, rfl⟩ | ⟨-, ⟨-, rfl⟩ | rfl⟩
  · exact ⟨hwait, hnd, hrest⟩
  · exact ⟨hwait, hnd, hrest⟩
  · obtain ⟨hpw, hpn, hpm⟩ := pushAll_spec (P.cfg.succ.row u) hwait hnd
    refine ⟨hpw, hpn, fun v hv => ?_⟩
    rcases (hpm v).mp hv with hv | hv
    · exact hrest v hv
    · exact live_succ hu hv

variable [LawfulDomain D]

theorem Pending.step {P : Problem D} {s s' : State D} (h : Pending P s)
    (hstep : Engine.step P s = some s') : Pending P s' := by
  obtain ⟨u, rest, hw, hcase⟩ := step_cases hstep
  obtain ⟨hwait, hnd, hu, hrest⟩ := h.queued.pop hw
  have hother : ∀ v, v ≠ u → v ∉ rest → v ∉ s.worklist := by
    intro v hvu hv
    rw [hw, List.mem_cons]
    rintro (he | hmem)
    · exact hvu he
    · exact hv hmem
  rcases hcase with ⟨hin, rfl⟩ | ⟨-, ⟨hout, rfl⟩ | rfl⟩
  · refine ⟨hwait, hnd, hrest, fun v hv hvr => ?_, h.blocks⟩
    by_cases hvu : v = u
    · have hle := leq_newIn P s u
      rw [hin] at hle
      rw [hvu]
      exact hle
    · exact h.settled v hv (hother v hvu hvr)
  · refine ⟨hwait, hnd, hrest, fun v hv hvr => ?_, fun v => ?_⟩
    · show leq _ (Function.update s.inStates u (newIn P s u) v) = true
      by_cases hvu : v = u
      · rw [hvu, Function.update_self]
        exact leq_newIn P s u
      · rw [Function.update_of_ne hvu]
        exact h.settled v hv (hother v hvu hvr)
    · show s.outStates v = P.transferBlock v (Function.update s.inStates u (newIn P s u) v) ∨
        Function.update s.inStates u (newIn P s u) v = bottom ∧ _
      by_cases hvu : v = u
      · rw [hvu, Function.update_self]
        exact .inl hout.symm
      · rw [Function.update_of_ne hvu]
        exact h.blocks v
  · obtain ⟨hpw, hpn, hpm⟩ := pushAll_spec (P.cfg.succ.row u) hwait hnd
    refine ⟨hpw, hpn, fun v hv => ?_, fun v hv hvp => ?_, fun v => ?_⟩
    · rcases (hpm v).mp hv with hv | hv
      · exact hrest v hv
      · exact live_succ hu hv
    · -- a block that does not wait has no contribution from `u`, so its join is the old one
      have hnot : v ∉ rest ∧ ¬P.cfg.succ.Edge u v :=
        ⟨fun hm => hvp ((hpm v).mpr (.inl hm)), fun hm => hvp ((hpm v).mpr (.inr hm))⟩
      have hjoin : joined P (Function.update s.outStates u (P.transferBlock u (newIn P s u))) v =
          joined P s.outStates v := by
        refine joined_congr fun p hp => Function.update_of_ne ?_ _ _
        rintro rfl
        exact hnot.2 hp
      show leq (joined P (Function.update s.outStates u _) v)
        (Function.update s.inStates u (newIn P s u) v) = true
      rw [hjoin]
      by_cases hvu : v = u
      · rw [hvu, Function.update_self]
        exact leq_newIn P s u
      · rw [Function.update_of_ne hvu]
        exact h.settled v hv (hother v hvu hnot.1)
    · show Function.update s.outStates u _ v =
        P.transferBlock v (Function.update s.inStates u (newIn P s u) v) ∨
          Function.update s.inStates u (newIn P s u) v = bottom ∧ Function.update s.outStates u _ v = _
      by_cases hvu : v = u
      · rw [hvu, Function.update_self, Function.update_self]
        exact .inl rfl
      · rw [Function.update_of_ne hvu, Function.update_of_ne hvu]
        exact h.blocks v

/-! ## The loop ends -/

/-- `a` is a proper widening of `b`. -/
def Widened (a b : D) : Prop := ∃ y, a = widen b y ∧ a ≠ b

/-- Chains made by widening become stationary. -/
def Stabilizes (D : Type) [AbstractDomain D] : Prop :=
  ∀ x y : Nat → D, (∀ n, x (n + 1) = widen (x n) (y n)) → ∃ n, x (n + 1) = x n

omit [DecidableEq D] [LawfulDomain D] in
theorem widened_wf (hst : Stabilizes D) : WellFounded (Widened (D := D)) := by
  rw [wellFounded_iff_isEmpty_descending_chain]
  refine ⟨fun ⟨x, hx⟩ => ?_⟩
  choose y hy using hx
  obtain ⟨n, hn⟩ := hst x y fun n => (hy n).1
  exact (hy n).2 hn

/-- For every block the visits left before it is widened, then its entry state; last the length of the
    list. -/
def rank (P : Problem D) (s : State D) : (Fin P.cfg.nodeCount → Nat × D) × Nat :=
  (fun i => (forceWidenAfter - s.updates i, s.inStates i), s.worklist.length)

def Ranked (P : Problem D) :
    (Fin P.cfg.nodeCount → Nat × D) × Nat → (Fin P.cfg.nodeCount → Nat × D) × Nat → Prop :=
  Prod.Lex (Pi.Lex (· < ·) fun {_} => Prod.Lex (· < ·) (Widened (D := D))) (· < ·)

omit [DecidableEq D] [LawfulDomain D] in
theorem ranked_wf (hst : Stabilizes D) (P : Problem D) : WellFounded (Ranked P) :=
  (Pi.Lex.wellFounded (· < ·) fun _ => (Nat.lt_wfRel.wf.prod_lex (widened_wf hst))).prod_lex
    Nat.lt_wfRel.wf

omit [DecidableEq D] [LawfulDomain D] in
theorem ranked_update {P : Problem D} {s s' : State D} {u : Nat} (hu : u < P.cfg.nodeCount)
    (hne : newIn P s u ≠ s.inStates u)
    (hin : s'.inStates = Function.update s.inStates u (newIn P s u))
    (hup : s'.updates = Function.update s.updates u (saturatingSucc (s.updates u))) :
    Ranked P (rank P s') (rank P s) := by
  refine Prod.Lex.left _ _ ⟨⟨u, hu⟩, fun j hj => ?_, ?_⟩
  · have hju : (j : Nat) ≠ u := Nat.ne_of_lt hj
    show (forceWidenAfter - s'.updates j, s'.inStates j) = _
    rw [hin, hup, Function.update_of_ne hju, Function.update_of_ne hju]
  · show Prod.Lex (· < ·) Widened (forceWidenAfter - s'.updates u, s'.inStates u)
      (forceWidenAfter - s.updates u, s.inStates u)
    rw [hin, hup, Function.update_self, Function.update_self]
    by_cases hfew : s.updates u < forceWidenAfter
    · apply Prod.Lex.left
      unfold saturatingSucc forceWidenAfter at *
      omega
    · -- from here on the block is only widened
      have hwiden : newIn P s u = widen (s.inStates u) (joined P s.outStates u) := by
        unfold newIn widens
        rw [if_pos]
        rw [Bool.or_eq_true, decide_eq_true_eq, decide_eq_true_eq]
        exact .inr (Nat.not_lt.mp hfew)
      have hzero : forceWidenAfter - saturatingSucc (s.updates u) = forceWidenAfter - s.updates u := by
        unfold saturatingSucc forceWidenAfter at *
        omega
      rw [hzero]
      exact Prod.Lex.right _ ⟨_, hwiden, hne⟩

omit [LawfulDomain D] in
theorem step_ranked {P : Problem D} {s s' : State D} (h : Queued P s) (hstep : step P s = some s') :
    Ranked P (rank P s') (rank P s) := by
  obtain ⟨u, rest, hw, hcase⟩ := step_cases hstep
  obtain ⟨-, -, hu, -⟩ := h.pop hw
  rcases hcase with ⟨-, rfl⟩ | ⟨hne, ⟨-, rfl⟩ | rfl⟩
  · apply Prod.Lex.right
    rw [hw]
    exact Nat.lt_succ_self _
  · exact ranked_update hu.1 hne rfl rfl
  · exact ranked_update hu.1 hne rfl rfl

omit [LawfulDomain D] in
theorem run_returns (hst : Stabilizes D) {P : Problem D} (s : State D) (h : Queued P s) :
    ∃ fuel sol, run P fuel s = some sol := by
  induction s using (InvImage.wf (rank P) (ranked_wf hst P)).induction with
  | _ s ih =>
    cases hstep : step P s with
    | none => exact ⟨1, ⟨s.inStates, s.outStates⟩, by rw [run, hstep]⟩
    | some s' =>
      obtain ⟨fuel, sol, hrun⟩ := ih s' (step_ranked h hstep) (h.step hstep)
      exact ⟨fuel + 1, sol, by rw [run, hstep]; exact hrun⟩

omit [LawfulDomain D] in
theorem run_invariant {P : Problem D} {I : State D → Prop}
    (hI : ∀ s s', I s → step P s = some s' → I s') (fuel : Nat) : ∀ {s : State D} {sol : Solution D},
    I s → run P fuel s = some sol →
      ∃ s', I s' ∧ s'.worklist = [] ∧ sol = ⟨s'.inStates, s'.outStates⟩ := by
  induction fuel with
  | zero => exact fun _ h => absurd h (by simp [run])
  | succ fuel ih =>
    intro s sol hs hrun
    rw [run] at hrun
    cases hstep : step P s with
    | none =>
      rw [hstep] at hrun
      exact ⟨s, hs, step_none hstep, (Option.some.inj hrun).symm⟩
    | some s' =>
      rw [hstep] at hrun
      exact ih (hI s s' hs hstep) hrun

omit [DecidableEq D] [LawfulDomain D] in
theorem start_pending {P : Problem D} {rpo : List Nat} (hnd : rpo.Nodup)
    (hmem : ∀ x, x ∈ rpo ↔ Live P x) : Pending P (start rpo) where
  waiting _ := decide_eq_true_iff
  nodup := hnd
  live x hx := (hmem x).mp hx
  settled u hu hw := absurd ((hmem u).mpr hu) hw
  blocks _ := .inr ⟨rfl, rfl⟩

/-! ## Post-fixpoints -/

/-- The entry states cover the seed and everything that flows in. -/
structure Covers (P : Problem D) (sol : Solution D) : Prop where
  entry : 0 < P.cfg.nodeCount → leq P.entryState (sol.inStates P.cfg.entry) = true
  edges : ∀ p u, Live P p → P.cfg.succ.Edge p u →
    leq (P.edge p u (sol.outStates p)) (sol.inStates u) = true

/-- A post-fixpoint: moreover every exit state is the transfer of the entry state. -/
structure PostFixpoint (P : Problem D) (sol : Solution D) : Prop extends Covers P sol where
  blocks : ∀ u, Live P u → sol.outStates u = P.transferBlock u (sol.inStates u)

omit [DecidableEq D] in
theorem leq_foldl {ι : Type} {f : ι → D} (ps : List ι) : ∀ (acc : D),
    leq acc (ps.foldl (fun acc p => join acc (f p)) acc) = true ∧
      ∀ p ∈ ps, leq (f p) (ps.foldl (fun acc p => join acc (f p)) acc) = true := by
  induction ps with
  | nil => exact fun acc => ⟨LawfulDomain.leq_refl acc, fun _ hp => absurd hp List.not_mem_nil⟩
  | cons p ps ih =>
    intro acc
    obtain ⟨hacc, hps⟩ := ih (join acc (f p))
    have hleft := LawfulDomain.leq_join acc (f p)
    have hright : leq (f p) (join acc (f p)) = true := by
      rw [LawfulDomain.join_comm]
      exact LawfulDomain.leq_join (f p) acc
    refine ⟨LawfulDomain.leq_trans _ _ _ hleft hacc, fun q hq => ?_⟩
    rcases List.mem_cons.mp hq with rfl | hq
    · exact LawfulDomain.leq_trans _ _ _ hright hacc
    · exact hps q hq

omit [DecidableEq D] in
theorem ne_bottom_of_leq {a b : D} (h : leq a b = true) (ha : a ≠ bottom) : b ≠ bottom := by
  rintro rfl
  have hbot : leq bottom a = true := by
    have := LawfulDomain.leq_join bottom a
    rwa [LawfulDomain.bottom_join] at this
  exact ha (LawfulDomain.leq_antisymm _ _ h hbot)

omit [DecidableEq D] in
theorem Pending.covers {P : Problem D} {s : State D} (h : Pending P s) (hw : s.worklist = []) :
    Covers P ⟨s.inStates, s.outStates⟩ := by
  have hsettled : ∀ u, Live P u → leq (joined P s.outStates u) (s.inStates u) = true :=
    fun u hu => h.settled u hu (by rw [hw]; exact List.not_mem_nil)
  constructor
  · intro hn
    have hlive : Live P P.cfg.entry := ⟨P.cfg.entry_lt hn, Reach.root⟩
    have hacc := (leq_foldl (f := fun p => P.edge p P.cfg.entry (s.outStates p))
      (P.cfg.pred.row P.cfg.entry) P.entryState).1
    refine LawfulDomain.leq_trans _ _ _ ?_ (hsettled _ hlive)
    unfold joined
    rw [if_pos rfl]
    exact hacc
  · intro p u hp hpu
    have hps := (leq_foldl (f := fun p => P.edge p u (s.outStates p)) (P.cfg.pred.row u)
      (if u = P.cfg.entry then P.entryState else bottom)).2 p ((P.cfg.pred_iff p u).mpr hpu)
    exact LawfulDomain.leq_trans _ _ _ hps (hsettled u (live_succ hp hpu))

/-- The blocks that certainly leave bottom: a seeded entry, a block some edge always contributes to,
    and a block an edge contributes to whenever its source has left bottom. -/
inductive Woken (P : Problem D) : Nat → Prop
  | entry : 0 < P.cfg.nodeCount → P.entryState ≠ bottom → Woken P P.cfg.entry
  | always {p u : Nat} : Live P p → P.cfg.succ.Edge p u → (∀ d, P.edge p u d ≠ bottom) → Woken P u
  | flow {p u : Nat} : Live P p → Woken P p → P.cfg.succ.Edge p u →
      (∀ d, d ≠ bottom → P.edge p u (P.transferBlock p d) ≠ bottom) → Woken P u

omit [DecidableEq D] in
theorem Woken.ne_bottom {P : Problem D} {sol : Solution D} (hcov : Covers P sol)
    (hblocks : ∀ u, sol.outStates u = P.transferBlock u (sol.inStates u) ∨
      sol.inStates u = bottom ∧ sol.outStates u = bottom)
    {u : Nat} (h : Woken P u) : sol.inStates u ≠ bottom := by
  induction h with
  | entry hn hseed => exact ne_bottom_of_leq (hcov.entry hn) hseed
  | always hp hpu hedge => exact ne_bottom_of_leq (hcov.edges _ _ hp hpu) (hedge _)
  | @flow p u hp _ hpu hedge ih =>
    refine ne_bottom_of_leq (hcov.edges p u hp hpu) ?_
    rcases hblocks p with hout | ⟨hbot, -⟩
    · rw [hout]
      exact hedge _ ih
    · exact absurd hbot ih

/-- A set of blocks nothing ever flows into. -/
structure Sleeping (P : Problem D) (Z : Nat → Prop) : Prop where
  entry : Z P.cfg.entry → P.entryState = bottom
  inside : ∀ p u, Z u → P.cfg.succ.Edge p u → Z p → P.edge p u bottom = bottom
  outside : ∀ p u, Z u → P.cfg.succ.Edge p u → ¬Z p → ∀ d, P.edge p u d = bottom
  widen : widen (bottom : D) bottom = bottom

omit [DecidableEq D] in
theorem Sleeping.newIn {P : Problem D} {Z : Nat → Prop} (hZ : Sleeping P Z) {s : State D}
    (hs : ∀ u, Z u → s.inStates u = bottom ∧ s.outStates u = bottom) {u : Nat} (hu : Z u) :
    Engine.newIn P s u = bottom := by
  have hfold : ∀ ps : List Nat, (∀ p ∈ ps, P.edge p u (s.outStates p) = bottom) →
      ps.foldl (fun acc p => join acc (P.edge p u (s.outStates p))) bottom = bottom := by
    intro ps
    induction ps with
    | nil => exact fun _ => rfl
    | cons p ps ih =>
      intro hps
      obtain ⟨hp, hrest⟩ := List.forall_mem_cons.mp hps
      rw [List.foldl_cons, hp, LawfulDomain.bottom_join]
      exact ih hrest
  have hjoin : joined P s.outStates u = bottom := by
    have hseed : (if u = P.cfg.entry then P.entryState else bottom) = bottom := by
      by_cases he : u = P.cfg.entry
      · rw [if_pos he]
        exact hZ.entry (he ▸ hu)
      · rw [if_neg he]
    unfold joined
    rw [hseed]
    refine hfold _ fun p hp => ?_
    have hpu := (P.cfg.pred_iff p u).mp hp
    by_cases hpZ : Z p
    · rw [(hs p hpZ).2]
      exact hZ.inside p u hu hpu hpZ
    · exact hZ.outside p u hu hpu hpZ _
  unfold Engine.newIn
  rw [hjoin, (hs u hu).1, hZ.widen, ite_self]

theorem Sleeping.step {P : Problem D} {Z : Nat → Prop} (hZ : Sleeping P Z) (s s' : State D)
    (hs : ∀ u, Z u → s.inStates u = bottom ∧ s.outStates u = bottom)
    (hstep : Engine.step P s = some s') :
    ∀ u, Z u → s'.inStates u = bottom ∧ s'.outStates u = bottom := by
  obtain ⟨v, rest, hw, hcase⟩ := step_cases hstep
  intro u hu
  rcases hcase with ⟨-, rfl⟩ | ⟨hne, hcase⟩
  · exact hs u hu
  · have huv : u ≠ v := by
      rintro rfl
      exact hne (by rw [hZ.newIn hs hu, (hs u hu).1])
    rcases hcase with ⟨-, rfl⟩ | rfl
    · refine ⟨?_, (hs u hu).2⟩
      show Function.update s.inStates v _ u = bottom
      rw [Function.update_of_ne huv]
      exact (hs u hu).1
    · refine ⟨?_, ?_⟩
      · show Function.update s.inStates v _ u = bottom
        rw [Function.update_of_ne huv]
        exact (hs u hu).1
      · show Function.update s.outStates v _ u = bottom
        rw [Function.update_of_ne huv]
        exact (hs u hu).2

omit [LawfulDomain D] in
theorem solve_returns (P : Problem D) (hst : Stabilizes D) : ∃ fuel sol, solve P fuel = some sol := by
  obtain ⟨rpo, hrpo, hnd, hmem⟩ := P.cfg.reversePostorder_spec
  have hstart : Pending P (start rpo) := start_pending hnd hmem
  obtain ⟨fuel, sol, hrun⟩ := run_returns hst (start rpo) hstart.queued
  refine ⟨fuel, sol, ?_⟩
  rw [solve, hrpo]
  exact hrun

omit [LawfulDomain D] in
/-- **Termination.** On every graph, with or without headers, and for all transfer functions, the loop
    ends if the chains made by widening do. -/
theorem solve_terminates (P : Problem D) (hst : Stabilizes D) : ∃ fuel sol, solve P fuel = some sol :=
  solve_returns P hst

/-- Where the loop ends the flow is covered, and a block whose transfer function keeps bottom or that leaves it agrees
    with its function. -/
theorem solve_covers {P : Problem D} {fuel : Nat} {sol : Solution D} (hsol : solve P fuel = some sol) :
    Covers P sol ∧
      ((∀ u, Live P u → P.transferBlock u bottom = bottom ∨ Woken P u) → PostFixpoint P sol) := by
  obtain ⟨rpo, hrpo, hnd, hmem⟩ := P.cfg.reversePostorder_spec
  rw [solve, hrpo] at hsol
  obtain ⟨s, hs, hw, rfl⟩ := run_invariant (fun _ _ h hstep => Pending.step h hstep) fuel
    (start_pending hnd hmem) hsol
  have hcov := hs.covers hw
  refine ⟨hcov, fun hcond => ⟨hcov, fun u hu => ?_⟩⟩
  rcases hs.blocks u with hout | ⟨hbot, hout⟩
  · exact hout
  · rcases hcond u hu with hkeep | hwoken
    · show s.outStates u = P.transferBlock u (s.inStates u)
      rw [hbot, hout, hkeep]
    · exact absurd hbot (hwoken.ne_bottom hcov hs.blocks)

end

/-! ### Reachable or not: the two-point domain -/

instance : AbstractDomain Bool := ⟨false, or, or, fun a b => !a || b⟩

instance : LawfulDomain Bool where
  join_assoc := Bool.or_assoc
  join_comm := Bool.or_comm
  join_idem := Bool.or_self
  bottom_join := Bool.false_or
  leq_refl := by decide
  leq_trans := by decide
  leq_antisymm := by decide
  leq_join := by decide
  leq_widen_left := by decide
  leq_widen_right := by decide
  stabilizes x y h := by
    by_cases h₀ : x 1 = x 0
    · exact ⟨0, h₀⟩
    · -- a changed value has become `true`, and stays so
      refine ⟨1, ?_⟩
      have hx₁ : x 1 = (x 0 || y 0) := h 0
      have hx₂ : x 2 = (x 1 || y 1) := h 1
      cases hx : x 0 with
      | true =>
        rw [hx, Bool.true_or] at hx₁
        exact absurd (hx₁.trans hx.symm) h₀
      | false =>
        have htrue : x 1 = true := by
          cases hv : x 1 with
          | true => rfl
          | false => exact absurd (hv.trans hx.symm) h₀
        rw [hx₂, htrue, Bool.true_or]

/-- `0 → 1`. -/
def edgeCfg : Cfg :=
  .ofSucc [[1], []] 0 (fun _ => by decide) (Adj.closed_of_rows (by decide))

/-- A loop with two entries: `0 → 1`, `0 → 2`, `1 → 2`, `2 → 1`. No block of it is a header. -/
def twoEntryLoop : Problem Bool where
  cfg := .ofSucc [[1, 2], [2], [1]] 0 (fun _ => by decide) (Adj.closed_of_rows (by decide))
  headers := []
  entryState := true
  transferBlock u d := d || decide (u = 1)
  edge _ _ d := !d

theorem solve_terminates_irreducible : ∃ fuel sol, solve twoEntryLoop fuel = some sol :=
  solve_terminates twoEntryLoop LawfulDomain.stabilizes

/-- The branch to block 1 is never taken, and block 1 defines a value: its transfer function does not
    keep bottom. -/
def deadBranch : Problem Bool := ⟨edgeCfg, [], true, fun _ _ => true, fun _ _ _ => false⟩

/-- The same blocks with the branch taken. -/
def takenBranch : Problem Bool := ⟨edgeCfg, [], true, fun _ _ => true, fun _ _ d => d⟩

end Engine

end Csolver
