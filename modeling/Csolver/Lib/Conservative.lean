import Mathlib.Order.Basic

/-!
# Conservative extension of constraint stores

A program that builds a set of constraints step by step, each step introducing fresh boolean
variables defined in terms of older ones, never loses a solution and never gains one on the old
variables. `Store.Extends` is that relation; `Builds` is the triple for a state-passing builder:
the store it leaves extends the one it found, and in every solution of it the result means `Q`.

`Builds.bind` is the sequencing rule. The continuation is proved from the *assumption* that the first
result means what it should, so a circuit is verified one gate at a time with no mention of the
clauses in between.
-/

namespace Csolver.Lib

/-- A set of constraints over the variables below `numVars`. -/
structure Store where
  numVars : Nat
  Models : (Nat → Bool) → Prop

/-- Two assignments agree on the first `n` variables. -/
def AgreeBelow (n : Nat) (m m' : Nat → Bool) : Prop := ∀ v < n, m v = m' v

theorem AgreeBelow.refl (n : Nat) (m : Nat → Bool) : AgreeBelow n m m := fun _ _ => rfl

theorem AgreeBelow.trans {n : Nat} {a b c : Nat → Bool} (h₁ : AgreeBelow n a b)
    (h₂ : AgreeBelow n b c) : AgreeBelow n a c := fun v hv => (h₁ v hv).trans (h₂ v hv)

theorem AgreeBelow.mono {n k : Nat} {a b : Nat → Bool} (h : AgreeBelow k a b) (hle : n ≤ k) :
    AgreeBelow n a b := fun v hv => h v (Nat.lt_of_lt_of_le hv hle)

namespace Store

/-- `t` has more constraints and more variables, and every solution of `s` extends to one of `t`. -/
structure Extends (s t : Store) : Prop where
  le : s.numVars ≤ t.numVars
  sub : ∀ m, t.Models m → s.Models m
  extend : ∀ m, s.Models m → ∃ m', AgreeBelow s.numVars m' m ∧ t.Models m'

theorem Extends.refl (s : Store) : s.Extends s :=
  ⟨Nat.le_refl _, fun _ h => h, fun m h => ⟨m, AgreeBelow.refl _ m, h⟩⟩

theorem Extends.trans {s t u : Store} (h₁ : s.Extends t) (h₂ : t.Extends u) : s.Extends u where
  le := Nat.le_trans h₁.le h₂.le
  sub m h := h₁.sub m (h₂.sub m h)
  extend m h := by
    obtain ⟨m₁, ha₁, hm₁⟩ := h₁.extend m h
    obtain ⟨m₂, ha₂, hm₂⟩ := h₂.extend m₁ hm₁
    exact ⟨m₂, (ha₂.mono h₁.le).trans ha₁, hm₂⟩

theorem Extends.sat {s t : Store} (h : s.Extends t) (hs : ∃ m, s.Models m) : ∃ m, t.Models m := by
  obtain ⟨m, hm⟩ := hs
  obtain ⟨m', -, hm'⟩ := h.extend m hm
  exact ⟨m', hm'⟩

/-- Nothing above `numVars` matters. -/
def Local (s : Store) : Prop :=
  ∀ m m', AgreeBelow s.numVars m m' → s.Models m → s.Models m'

theorem extends_define {s t : Store} (hs : s.Local) {f : (Nat → Bool) → Bool}
    (hf : ∀ m m', AgreeBelow s.numVars m m' → f m = f m') (hn : t.numVars = s.numVars + 1)
    (hm : ∀ m, t.Models m ↔ s.Models m ∧ m s.numVars = f m) : s.Extends t where
  le := hn ▸ Nat.le_succ _
  sub m h := ((hm m).mp h).1
  extend m h := by
    have hagree : AgreeBelow s.numVars (Function.update m s.numVars (f m)) m := by
      intro v hv
      exact Function.update_of_ne (Nat.ne_of_lt hv) _ _
    refine ⟨Function.update m s.numVars (f m), hagree, (hm _).mpr ⟨?_, ?_⟩⟩
    · exact hs m _ (fun v hv => (hagree v hv).symm) h
    · rw [Function.update_self, hf _ _ hagree]

end Store

/-- Results that mention variables, and when they mention only the first `n`. -/
class Scoped (α : Type) where
  Below : Nat → α → Prop
  mono : ∀ {n k : Nat} {a : α}, n ≤ k → Below n a → Below k a

instance {α β : Type} [Scoped α] [Scoped β] : Scoped (α × β) where
  Below n p := Scoped.Below n p.1 ∧ Scoped.Below n p.2
  mono h hp := ⟨Scoped.mono h hp.1, Scoped.mono h hp.2⟩

instance {α : Type} [Scoped α] : Scoped (List α) where
  Below n l := ∀ a ∈ l, Scoped.Below n a
  mono h hl a ha := Scoped.mono h (hl a ha)

section Builds

variable {σ α β : Type} [Scoped α] [Scoped β] {view : σ → Store} {Ok : σ → Prop}

/-- Run from `s`, the builder `x` conservatively extends the store, and in every solution of what it
    leaves its result satisfies `Q`. -/
structure Builds (view : σ → Store) (Ok : σ → Prop) (x : StateM σ α) (s : σ)
    (Q : (Nat → Bool) → α → Prop) : Prop where
  ext : (view s).Extends (view (x s).2)
  ok : Ok (x s).2
  below : Scoped.Below (view (x s).2).numVars (x s).1
  post : ∀ m, (view (x s).2).Models m → Q m (x s).1

theorem Builds.pure {s : σ} {a : α} {Q : (Nat → Bool) → α → Prop} (hok : Ok s)
    (hb : Scoped.Below (view s).numVars a) (hq : ∀ m, (view s).Models m → Q m a) :
    Builds view Ok (Pure.pure a) s Q :=
  ⟨Store.Extends.refl _, hok, hb, hq⟩

theorem Builds.mono {x : StateM σ α} {s : σ} {Q R : (Nat → Bool) → α → Prop}
    (h : Builds view Ok x s Q) (hr : ∀ m a, Q m a → R m a) : Builds view Ok x s R :=
  ⟨h.ext, h.ok, h.below, fun m hm => hr m _ (h.post m hm)⟩

theorem Builds.get {f : σ → StateM σ α} {s : σ} {Q : (Nat → Bool) → α → Prop}
    (h : Builds view Ok (f s) s Q) : Builds view Ok (MonadState.get >>= f) s Q :=
  ⟨h.ext, h.ok, h.below, h.post⟩

theorem Builds.bind {x : StateM σ α} {f : α → StateM σ β} {s : σ}
    {Q : (Nat → Bool) → α → Prop} {R : (Nat → Bool) → β → Prop} (hx : Builds view Ok x s Q)
    (hf : ∀ a t, (view s).Extends (view t) → Ok t → Scoped.Below (view t).numVars a →
      (∀ m, (view t).Models m → Q m a) → Builds view Ok (f a) t fun m b => Q m a → R m b) :
    Builds view Ok (x >>= f) s R := by
  have h := hf (x s).1 (x s).2 hx.ext hx.ok hx.below hx.post
  refine ⟨hx.ext.trans h.ext, h.ok, h.below, fun m hm => ?_⟩
  exact h.post m hm (hx.post m (h.ext.sub m hm))

end Builds

end Csolver.Lib
