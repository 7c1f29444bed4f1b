import Mathlib.Data.Set.Basic

/-!
# Strongly connected components

Two points are in one component when each is reachable from the other. A way to find components: if no
edge leaves `D`, no edge leaves `D ∪ C`, and all of `C` can reach and be reached from one point of it, then
`C` is a component (`isComponent_of_closed`).
-/

namespace Csolver.Lib

open Relation

variable {α : Type} (E : α → α → Prop)

/-- Each is reachable from the other. -/
def Mutual (a b : α) : Prop := ReflTransGen E a b ∧ ReflTransGen E b a

/-- All points that are mutually reachable with one of `C`, and `C` has one. -/
structure IsComponent (C : Set α) : Prop where
  nonempty : C.Nonempty
  mem_iff : ∀ {a b : α}, a ∈ C → (b ∈ C ↔ Mutual E a b)

/-- No edge leaves `D`. -/
def NoExit (D : Set α) : Prop := ∀ {a b : α}, a ∈ D → E a b → b ∈ D

variable {E}

theorem Mutual.symm {a b : α} (h : Mutual E a b) : Mutual E b a := ⟨h.2, h.1⟩

theorem Mutual.trans {a b c : α} (h : Mutual E a b) (h' : Mutual E b c) : Mutual E a c :=
  ⟨h.1.trans h'.1, h'.2.trans h.2⟩

theorem NoExit.reach {D : Set α} (h : NoExit E D) {a b : α} (hr : ReflTransGen E a b) (ha : a ∈ D) :
    b ∈ D := by
  induction hr with
  | refl => exact ha
  | tail _ hab ih => exact h ih hab

theorem isComponent_of_closed {C D : Set α} (hD : NoExit E D) (hCD : NoExit E (D ∪ C))
    (happart : ∀ a ∈ C, a ∉ D) {v : α} (hv : v ∈ C) (hall : ∀ a ∈ C, Mutual E v a) : IsComponent E C where
  nonempty := ⟨v, hv⟩
  mem_iff := by
    intro a b ha
    constructor
    · intro hb
      exact (hall a ha).symm.trans (hall b hb)
    · intro ⟨hab, hba⟩
      rcases hCD.reach hab (.inr ha) with hb | hb
      · exact absurd (hD.reach hba hb) (happart a ha)
      · exact hb

end Csolver.Lib
