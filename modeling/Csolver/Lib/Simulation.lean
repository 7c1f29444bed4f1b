import Mathlib.Init

/-!
# Simulation of programs with a state

Two programs over different states are in step if they fail alike from related states, or give the same result and
leave related states behind. What is built alike from programs that are in step is in step.
-/

namespace Csolver.Lib

variable {σ τ ε α β : Type}

def SameResult (R : σ → τ → Prop) : Except ε (α × σ) → Except ε (α × τ) → Prop
  | .ok (a, s), .ok (b, t) => a = b ∧ R s t
  | .error e, .error e' => e = e'
  | _, _ => False

def InStep (R : σ → τ → Prop) (m : StateT σ (Except ε) α) (m' : StateT τ (Except ε) α) : Prop :=
  ∀ s t, R s t → SameResult R (m s) (m' t)

def SameRead (R : σ → τ → Prop) : Option (α × σ) → Option (α × τ) → Prop
  | some (a, s), some (b, t) => a = b ∧ R s t
  | none, none => True
  | _, _ => False

/-- The program that reads, and fails where there is nothing to read. -/
def ofRead (read : σ → Option (α × σ)) (e : ε) : StateT σ (Except ε) α := fun s => (read s).elim (.error e) .ok

namespace InStep

variable {R : σ → τ → Prop} {m : StateT σ (Except ε) α} {m' : StateT τ (Except ε) α}

theorem pure (a : α) : InStep R (Pure.pure a : StateT σ (Except ε) α) (Pure.pure a) := fun _ _ h => ⟨rfl, h⟩

theorem throw (e : ε) : InStep R (MonadExcept.throw e : StateT σ (Except ε) α) (MonadExcept.throw e) := fun _ _ _ => rfl

theorem bind {f : α → StateT σ (Except ε) β} {f' : α → StateT τ (Except ε) β} (hm : InStep R m m')
    (hf : ∀ a, InStep R (f a) (f' a)) : InStep R (m >>= f) (m' >>= f') := by
  intro s t hst
  have hres := hm s t hst
  change SameResult R ((m s).bind fun p => f p.1 p.2) ((m' t).bind fun p => f' p.1 p.2)
  cases h : m s with
  | error e =>
    cases h' : m' t with
    | error e' => rwa [h, h'] at hres
    | ok p' => rw [h, h'] at hres; exact hres.elim
  | ok p =>
    cases h' : m' t with
    | error e' => rw [h, h'] at hres; exact hres.elim
    | ok p' =>
      rw [h, h'] at hres
      obtain ⟨heq, hrel⟩ := hres
      change SameResult R (f p.1 p.2) (f' p'.1 p'.2)
      rw [heq]
      exact hf p'.1 p.2 p'.2 hrel

theorem ite {c : Prop} [Decidable c] {n : StateT σ (Except ε) α} {n' : StateT τ (Except ε) α} (hm : InStep R m m')
    (hn : InStep R n n') : InStep R (if c then m else n) (if c then m' else n') := by
  split
  · exact hm
  · exact hn

theorem ofRead {read : σ → Option (α × σ)} {read' : τ → Option (α × τ)}
    (h : ∀ s t, R s t → SameRead R (read s) (read' t)) (e : ε) :
    InStep R (Lib.ofRead read e) (Lib.ofRead read' e) := by
  intro s t hst
  have hread := h s t hst
  unfold Lib.ofRead
  cases hs : read s with
  | none =>
    cases ht : read' t with
    | none => rfl
    | some q => rw [hs, ht] at hread; exact hread.elim
  | some p =>
    cases ht : read' t with
    | none => rw [hs, ht] at hread; exact hread.elim
    | some q => rw [hs, ht] at hread; exact hread

end InStep

end Csolver.Lib
