import Mathlib.Logic.Basic

/-!
# Programs with a log they never read

A state-passing program that only appends to one component of its state computes the same result
whatever that component holds, and appends the same entries. So a log may be changed between two
steps of a run, and the run still mirrors the one in which it was not.
-/

namespace Csolver.Lib

/-- A list component of a state. -/
structure Log (σ γ : Type) where
  get : σ → List γ
  set : List γ → σ → σ
  get_set : ∀ l s, get (set l s) = l
  set_get : ∀ s, set (get s) s = s
  set_set : ∀ l l' s, set l (set l' s) = set l s

section

variable {σ γ α β : Type} {L : Log σ γ}

/-- `x` only appends to the log and never looks at it. -/
def Blind (L : Log σ γ) (x : StateM σ α) : Prop :=
  ∀ s, ∃ added, L.get (x s).2 = L.get s ++ added ∧
    ∀ l, x (L.set l s) = ((x s).1, L.set (l ++ added) (x s).2)

theorem Blind.pure (a : α) : Blind L (Pure.pure a) :=
  fun s => ⟨[], (List.append_nil _).symm, fun l => by rw [List.append_nil]; rfl⟩

theorem Blind.bind {x : StateM σ α} {f : α → StateM σ β} (hx : Blind L x)
    (hf : ∀ a, Blind L (f a)) : Blind L (x >>= f) := by
  intro s
  obtain ⟨u, hu, hxu⟩ := hx s
  obtain ⟨v, hv, hfv⟩ := hf (x s).1 (x s).2
  refine ⟨u ++ v, ?_, fun l => ?_⟩
  · show L.get (f (x s).1 (x s).2).2 = _
    rw [hv, hu, List.append_assoc]
  · show f (x (L.set l s)).1 (x (L.set l s)).2 = ((f (x s).1 (x s).2).1, _)
    rw [hxu l, ← List.append_assoc]
    exact hfv (l ++ u)

theorem Blind.get {f : σ → StateM σ α} (hf : ∀ s, Blind L (f s))
    (hset : ∀ s l, f (L.set l s) = f s) : Blind L (MonadState.get >>= f) := by
  intro s
  obtain ⟨u, hu, hfu⟩ := hf s s
  refine ⟨u, hu, fun l => ?_⟩
  show f (L.set l s) (L.set l s) = _
  rw [hset s l]
  exact hfu l

theorem Blind.mapM {f : α → StateM σ β} (hf : ∀ a, Blind L (f a)) (as : List α) :
    Blind L (as.mapM f) := by
  induction as with
  | nil => exact Blind.pure []
  | cons a as ih =>
    rw [List.mapM_cons]
    exact (hf a).bind fun b => ih.bind fun bs => Blind.pure _

theorem Blind.foldlM {f : β → α → StateM σ β} (hf : ∀ b a, Blind L (f b a)) (as : List α) :
    ∀ b, Blind L (as.foldlM f b) := by
  induction as with
  | nil => exact fun b => Blind.pure b
  | cons a as ih =>
    intro b
    rw [List.foldlM_cons]
    exact (hf b a).bind ih

theorem Blind.ite {p : Prop} [Decidable p] {x y : StateM σ α} (hx : Blind L x) (hy : Blind L y) :
    Blind L (if p then x else y) := by
  by_cases h : p
  · rw [if_pos h]
    exact hx
  · rw [if_neg h]
    exact hy

end

end Csolver.Lib
