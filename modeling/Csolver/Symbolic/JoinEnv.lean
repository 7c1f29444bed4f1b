import Csolver.Symbolic.Phi

/-!
# When the merged environment is right for every edge (`exec/mergecore.rs`)

`merge_core` takes the registers of the first edge and only gives up the pointers into regions that
the merge drops. In single-assignment code a register two edges hold was written before they
parted, so they hold one value. The machine-code front-ends reuse registers, and there the first
edge's value stands in for the others.
-/

namespace Csolver

/-- The value is a pointer of unknown provenance. -/
def SymValue.Opaque (ρ : Valuation) : SymValue → Prop
  | .ptr p => (p.resolve ρ).1 = .opq
  | .scalar _ => False

/-- The value equals `w`, or leaves it open. -/
def SymValue.Covers (ρ : Valuation) (v w : SymValue) : Prop := v.Same ρ w ∨ v.Opaque ρ

/-- A pointer into a region the merge drops. -/
def SymValue.Dropped (rcount : Nat) : SymValue → Prop
  | .ptr (.mk (.region rid) _ _ _) => rcount ≤ rid
  | _ => False

theorem sanitize_of_dropped {rcount : Nat} {v : SymValue} (h : v.Dropped rcount) (ρ : Valuation) :
    (sanitize rcount v).Opaque ρ := by
  rcases v with e | ⟨_ | r | ⟨c, t, f⟩ | ⟨o, i⟩, off, al, bo⟩
  · exact h.elim
  · exact h.elim
  · have hle : rcount ≤ r := h
    rw [sanitize, if_pos hle]
    rfl
  · exact h.elim
  · exact h.elim

theorem sanitize_of_not_dropped {rcount : Nat} {v : SymValue} (h : ¬ v.Dropped rcount) :
    sanitize rcount v = v := by
  rcases v with e | ⟨_ | r | ⟨c, t, f⟩ | ⟨o, i⟩, off, al, bo⟩
  · rfl
  · rfl
  · have hlt : ¬ rcount ≤ r := h
    rw [sanitize, if_neg hlt]
  · rfl
  · rfl

/-- Every register of the merged state covers its value on every edge that arrives. -/
def EnvRight (first : EdgeState) (rest : List EdgeState) : Prop :=
  ∀ (r : RegId) (v : SymValue), (mergeCore first rest).env r = some v →
    ∀ e ∈ first :: rest, ∀ w, e.predState.env r = some w → ∀ ρ, e.Arrives ρ → v.Covers ρ w

/-- The edges agree on the registers they share with the first one: wherever an edge arrives, the
    first edge's register has the value the edge itself holds, is opaque, or points into a region
    that is dropped. -/
def EnvAgrees (first : EdgeState) (rest : List EdgeState) : Prop :=
  ∀ (r : RegId) (v : SymValue), first.predState.env r = some v →
    v.Dropped (mergeCore first rest).regions.length ∨
      ∀ e ∈ rest, ∀ w, e.predState.env r = some w → ∀ ρ, e.Arrives ρ → v.Covers ρ w

theorem mergeCore_env {first : EdgeState} {rest : List EdgeState} {r : RegId} :
    (mergeCore first rest).env r =
      (first.predState.env r).map (sanitize (mergeCore first rest).regions.length) := rfl

/-- An edge that left the byte `x` in register 0 under the given condition, as `mov w0, #x` does. -/
def regEdge (cond : Expr) (x : Nat) : EdgeState where
  predState := ⟨fun r => if r = 0 then some (.scalar (.const 32 x)) else none, [], [cond], [], [],
    true⟩
  guard := none
  args := []

end Csolver
