import Csolver.Absint.Interval
import Csolver.Ir.Run
import Csolver.Lib.DefaultMap

/-!
# Register environments of the interval analysis (`crates/absint/src/env.rs`)

A register that is not in the map is unconstrained, and an unconstrained one is never in the map, so
that equality of states is what the solver takes it for.
-/

namespace Csolver

open Lib

inductive IntervalState where
  | unreachable
  | reachable (m : DefaultMap RegId Interval .top)
  deriving DecidableEq

namespace IntervalState

def top : IntervalState := reachable .empty

def isReachable : IntervalState → Bool
  | reachable _ => true
  | unreachable => false

def get : IntervalState → RegId → Interval
  | unreachable, _ => .bottom
  | reachable m, r => m.get r

def set : IntervalState → RegId → Interval → IntervalState
  | unreachable, _, _ => unreachable
  | reachable m, r, v => reachable (m.set r v)

def join : IntervalState → IntervalState → IntervalState
  | unreachable, x => x
  | x, unreachable => x
  | reachable a, reachable b => reachable (DefaultMap.zipWith Interval.join a b)

def widen : IntervalState → IntervalState → IntervalState
  | unreachable, x => x
  | x, unreachable => x
  | reachable a, reachable b => reachable (DefaultMap.zipWith Interval.widen a b)

def leq : IntervalState → IntervalState → Bool
  | unreachable, _ => true
  | _, unreachable => false
  | reachable a, reachable b => (a.keys ++ b.keys).all fun r => (a.get r).leq (b.get r)

instance : AbstractDomain IntervalState := ⟨unreachable, join, widen, leq⟩

@[simp] theorem get_top (r : RegId) : top.get r = .top := rfl

theorem reachable_ext {a b : DefaultMap RegId Interval .top} (h : ∀ r, a.get r = b.get r) :
    reachable a = reachable b := by
  rw [DefaultMap.ext h]

theorem leq_reachable {a b : DefaultMap RegId Interval .top} :
    leq (reachable a) (reachable b) = true ↔ ∀ r, (a.get r).leq (b.get r) = true := by
  rw [leq, List.all_eq_true]
  constructor
  · intro h r
    by_cases hr : r ∈ a.keys ++ b.keys
    · exact h r hr
    · rw [DefaultMap.get_of_not_mem fun hm => hr (List.mem_append_right _ hm)]
      exact Interval.leq_top _
  · exact fun h r _ => h r

theorem leq_refl (s : IntervalState) : s.leq s = true := by
  cases s with
  | unreachable => rfl
  | reachable a => exact leq_reachable.mpr fun r => Interval.leq_refl _

theorem leq_trans {s t u : IntervalState} (hst : s.leq t = true) (htu : t.leq u = true) :
    s.leq u = true := by
  cases s with
  | unreachable => rfl
  | reachable a =>
    cases t with
    | unreachable => exact absurd hst (by simp [leq])
    | reachable b =>
      cases u with
      | unreachable => exact absurd htu (by simp [leq])
      | reachable c =>
        rw [leq_reachable] at hst htu ⊢
        exact fun r => Interval.leq_trans (hst r) (htu r)

theorem leq_antisymm {s t : IntervalState} (hst : s.leq t = true) (hts : t.leq s = true) : s = t := by
  cases s with
  | unreachable =>
    cases t with
    | unreachable => rfl
    | reachable b => exact absurd hts (by simp [leq])
  | reachable a =>
    cases t with
    | unreachable => exact absurd hst (by simp [leq])
    | reachable b =>
      rw [leq_reachable] at hst hts
      exact reachable_ext fun r => Interval.leq_antisymm (hst r) (hts r)

/-! ## Chains of widening -/

/-- The slack of all registers together; an unconstrained register has none. -/
def slack (a : DefaultMap RegId Interval .top) : Nat := ∑ r ∈ a.keys.toFinset, (a.get r).slack

theorem slack_eq_sum {a : DefaultMap RegId Interval .top} {s : Finset RegId}
    (h : a.keys.toFinset ⊆ s) : slack a = ∑ r ∈ s, (a.get r).slack := by
  refine Finset.sum_subset h fun r _ hr => ?_
  rw [DefaultMap.get_of_not_mem fun hm => hr (List.mem_toFinset.mpr hm)]
  rfl

theorem slack_le_of_widen (i j : Interval) : (i.widen j).slack ≤ i.slack := by
  by_cases h : i.widen j = i
  · rw [h]
  · exact le_of_lt (Interval.slack_widen h)

theorem slack_zipWith_widen {a b : DefaultMap RegId Interval .top}
    (h : DefaultMap.zipWith Interval.widen a b ≠ a) :
    slack (DefaultMap.zipWith Interval.widen a b) < slack a := by
  have hget : ∀ r, (DefaultMap.zipWith Interval.widen a b).get r = (a.get r).widen (b.get r) :=
    fun r => DefaultMap.get_zipWith Interval.widen_top a b r
  -- what is unconstrained stays so
  have hkeys : (DefaultMap.zipWith Interval.widen a b).keys.toFinset ⊆ a.keys.toFinset := by
    intro r hr
    rw [List.mem_toFinset, DefaultMap.mem_keys] at hr ⊢
    intro htop
    apply hr
    rw [hget, htop]
    cases b.get r <;> simp [Interval.widen, Interval.top]
  obtain ⟨r, hr⟩ : ∃ r, (a.get r).widen (b.get r) ≠ a.get r := by
    by_contra hall
    refine h (DefaultMap.ext fun r => ?_)
    rw [hget]
    exact not_not.mp fun hne => hall ⟨r, hne⟩
  have hmem : r ∈ a.keys.toFinset := by
    rw [List.mem_toFinset, DefaultMap.mem_keys]
    intro htop
    apply hr
    rw [htop]
    cases b.get r <;> simp [Interval.widen, Interval.top]
  rw [slack_eq_sum hkeys, slack]
  refine Finset.sum_lt_sum (fun q _ => ?_) ⟨r, hmem, ?_⟩
  · rw [hget]
    exact slack_le_of_widen _ _
  · rw [hget]
    exact Interval.slack_widen hr

theorem stabilizes_reachable (k : Nat) : ∀ (x y : Nat → IntervalState),
    (∀ n, x (n + 1) = widen (x n) (y n)) → ∀ a, x 0 = reachable a → slack a ≤ k →
      ∃ n, x (n + 1) = x n := by
  induction k with
  | zero =>
    intro x y hstep a h0 hk
    refine ⟨0, ?_⟩
    have h1 := hstep 0
    rw [h0] at h1 ⊢
    rw [h1]
    cases hy : y 0 with
    | unreachable => rfl
    | reachable b =>
      by_contra hne
      have := slack_zipWith_widen (a := a) (b := b) fun he => hne (congrArg reachable he)
      omega
  | succ k ih =>
    intro x y hstep a h0 hk
    by_cases hsame : x 1 = x 0
    · exact ⟨0, hsame⟩
    · have h1 := hstep 0
      rw [h0] at h1 hsame
      cases hy : y 0 with
      | unreachable =>
        rw [hy] at h1
        exact absurd h1 hsame
      | reachable b =>
        rw [hy] at h1
        have hlt := slack_zipWith_widen (a := a) (b := b) fun he =>
          hsame (h1.trans (congrArg reachable he))
        obtain ⟨n, hn⟩ := ih (fun n => x (n + 1)) (fun n => y (n + 1)) (fun n => hstep (n + 1)) _ h1
          (by omega)
        exact ⟨n + 1, hn⟩

instance : LawfulDomain IntervalState where
  join_assoc a b c := by
    cases a <;> cases b <;> cases c <;> try rfl
    refine reachable_ext fun r => ?_
    simp only [DefaultMap.get_zipWith Interval.join_top]
    exact Interval.join_assoc _ _ _
  join_comm a b := by
    cases a <;> cases b <;> try rfl
    refine reachable_ext fun r => ?_
    simp only [DefaultMap.get_zipWith Interval.join_top]
    exact Interval.join_comm _ _
  join_idem a := by
    cases a with
    | unreachable => rfl
    | reachable m =>
      refine reachable_ext fun r => ?_
      rw [DefaultMap.get_zipWith Interval.join_top]
      exact Interval.join_self _
  bottom_join a := by cases a <;> rfl
  leq_refl := leq_refl
  leq_trans a b c := leq_trans
  leq_antisymm a b := leq_antisymm
  leq_join a b := by
    cases a with
    | unreachable => rfl
    | reachable m =>
      cases b with
      | unreachable => exact leq_refl _
      | reachable n =>
        refine leq_reachable.mpr fun r => ?_
        rw [DefaultMap.get_zipWith Interval.join_top]
        exact Interval.leq_join _ _
  leq_widen_left a b := by
    cases a with
    | unreachable => rfl
    | reachable m =>
      cases b with
      | unreachable => exact leq_refl _
      | reachable n =>
        refine leq_reachable.mpr fun r => ?_
        rw [DefaultMap.get_zipWith Interval.widen_top]
        exact Interval.leq_widen_left _ _
  leq_widen_right a b := by
    cases a with
    | unreachable => exact leq_refl _
    | reachable m =>
      cases b with
      | unreachable => rfl
      | reachable n =>
        refine leq_reachable.mpr fun r => ?_
        rw [DefaultMap.get_zipWith Interval.widen_top]
        exact Interval.leq_widen_right _ _
  stabilizes x y hstep := by
    cases h1 : x 1 with
    | unreachable =>
      cases h0 : x 0 with
      | unreachable => exact ⟨0, h1.trans h0.symm⟩
      | reachable a =>
        have := hstep 0
        rw [h0] at this
        rw [h1] at this
        cases hy : y 0 <;> rw [hy] at this <;> exact absurd this (by simp [AbstractDomain.widen, widen])
    | reachable a =>
      obtain ⟨n, hn⟩ := stabilizes_reachable (slack a) (fun n => x (n + 1)) (fun n => y (n + 1))
        (fun n => hstep (n + 1)) a h1 (Nat.le_refl _)
      exact ⟨n + 1, hn⟩

end IntervalState

end Csolver
