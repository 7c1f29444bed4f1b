import Mathlib.Order.Basic

/-!
# Trees given by a parent function

A partial parent function whose values are numbered higher than their arguments, up to a root that is
its own parent. The ancestors of a node form a chain, numbered upwards; so of two ancestors of one
node the higher-numbered is an ancestor of the other. Moving the parent of one node up its own chain
only removes ancestors, and only below that node.
-/

namespace Csolver.Lib

variable {α : Type}

/-- `a` is `x` or an ancestor of it. -/
inductive Anc (t : α → Option α) : α → α → Prop
  | refl (x : α) : Anc t x x
  | up {x d a : α} : t x = some d → Anc t a d → Anc t a x

theorem Anc.trans {t : α → Option α} {a b c : α} (hab : Anc t a b) (hbc : Anc t b c) :
    Anc t a c := by
  induction hbc with
  | refl => exact hab
  | up hd _ ih => exact .up hd (ih hab)

theorem Anc.parent {t : α → Option α} {a x d : α} (h : Anc t a x) (hne : a ≠ x)
    (hd : t x = some d) : Anc t a d := by
  cases h with
  | refl => exact absurd rfl hne
  | up hd' ha =>
    rw [hd] at hd'
    rwa [Option.some.inj hd']

/-- A partial tree below `root`, numbered upwards. -/
structure ParentTree (root : α) (num : α → Nat) (t : α → Option α) : Prop where
  top : t root = some root
  closed : ∀ {x d}, t x = some d → (t d).isSome
  lt : ∀ {x d}, t x = some d → x ≠ root → num x < num d
  le_root : ∀ {x}, (t x).isSome → num x ≤ num root
  inj : ∀ {x y}, (t x).isSome → (t y).isSome → num x = num y → x = y

section

variable {root : α} {num : α → Nat} {t : α → Option α}

theorem ParentTree.defined (h : ParentTree root num t) {a x : α} (ha : Anc t a x) (hx : (t x).isSome) :
    (t a).isSome := by
  induction ha with
  | refl => exact hx
  | up hd _ ih => exact ih (h.closed hd)

theorem ParentTree.anc_root (h : ParentTree root num t) {a x : α} (ha : Anc t a x) (hx : x = root) :
    a = root := by
  induction ha with
  | refl => exact hx
  | up hd _ ih =>
    subst hx
    rw [h.top] at hd
    exact ih (Option.some.inj hd).symm

theorem ParentTree.num_le (h : ParentTree root num t) {a x : α} (ha : Anc t a x) : num x ≤ num a := by
  induction ha with
  | refl => exact Nat.le_refl _
  | @up x d a hd _ ih =>
    by_cases hx : x = root
    · subst hx
      rw [h.top] at hd
      rw [Option.some.inj hd]
      exact ih
    · exact Nat.le_trans (Nat.le_of_lt (h.lt hd hx)) ih

theorem ParentTree.num_lt (h : ParentTree root num t) {a x : α} (ha : Anc t a x) (hne : a ≠ x) :
    num x < num a := by
  cases ha with
  | refl => exact absurd rfl hne
  | up hd ha =>
    by_cases hx : x = root
    · refine absurd ?_ hne
      rw [hx, h.anc_root (.up hd ha) hx]
    · exact Nat.lt_of_lt_of_le (h.lt hd hx) (h.num_le ha)

theorem ParentTree.root_anc (h : ParentTree root num t) (x : α) (hx : (t x).isSome) : Anc t root x := by
  by_cases hr : x = root
  · rw [hr]
    exact .refl root
  · obtain ⟨d, hd⟩ := Option.isSome_iff_exists.mp hx
    have hlt := h.lt hd hr
    have hle := h.le_root (h.closed hd)
    exact .up hd (h.root_anc d (h.closed hd))
termination_by num root - num x

theorem ParentTree.anc_update_above [DecidableEq α] (h : ParentTree root num t) {b : α} {o : Option α} {a x : α}
    (ha : Anc t a x) (hx : num b < num x) : Anc (Function.update t b o) a x := by
  induction ha with
  | refl => exact .refl _
  | @up x d a hd _ ih =>
    have hxb : x ≠ b := fun he => Nat.lt_irrefl _ (he ▸ hx)
    refine .up (by rw [Function.update_of_ne hxb]; exact hd) (ih ?_)
    by_cases hr : x = root
    · subst hr
      rw [h.top] at hd
      rwa [← Option.some.inj hd]
    · exact Nat.lt_trans hx (h.lt hd hr)

theorem ParentTree.anc_of_update [DecidableEq α] {b d m : α} (hb : t b = some d)
    (hm : Anc t m d) {a x : α} (ha : Anc (Function.update t b (some m)) a x) : Anc t a x := by
  induction ha with
  | refl => exact .refl _
  | @up x e a he _ ih =>
    by_cases hx : x = b
    · subst hx
      rw [Function.update_self, Option.some.injEq] at he
      subst he
      exact ih.trans (hm.trans (.up hb (.refl d)))
    · rw [Function.update_of_ne hx] at he
      exact .up he ih

/-- Setting the parent of a node changes the chains of no other node of the tree that does not go
    through it. -/
theorem ParentTree.anc_update_undefined [DecidableEq α] (h : ParentTree root num t) {b m : α} (hb : t b = none)
    {a x : α} (hx : (t x).isSome) : Anc (Function.update t b (some m)) a x ↔ Anc t a x := by
  constructor
  · intro ha
    induction ha with
    | refl => exact .refl _
    | @up x e a he _ ih =>
      have hxb : x ≠ b := by
        rintro rfl
        rw [hb] at hx
        exact absurd hx Bool.false_ne_true
      rw [Function.update_of_ne hxb] at he
      exact .up he (ih (h.closed he))
  · intro ha
    induction ha with
    | refl => exact .refl _
    | @up x e a he _ ih =>
      have hxb : x ≠ b := by
        rintro rfl
        rw [hb] at hx
        exact absurd hx Bool.false_ne_true
      exact .up (by rw [Function.update_of_ne hxb]; exact he) (ih (h.closed he))

theorem ParentTree.update [DecidableEq α] (h : ParentTree root num t) {b m : α} (hb : b ≠ root)
    (hm : (t m).isSome) (hlt : num b < num m) (hroot : num b ≤ num root)
    (hinj : ∀ {x}, (t x).isSome → num x = num b → x = b) :
    ParentTree root num (Function.update t b (some m)) := by
  have hsome : ∀ {x}, (Function.update t b (some m) x).isSome → x = b ∨ (t x).isSome := by
    intro x hx
    by_cases he : x = b
    · exact .inl he
    · rw [Function.update_of_ne he] at hx
      exact .inr hx
  have hdef : ∀ {x}, (t x).isSome → (Function.update t b (some m) x).isSome := by
    intro x hx
    by_cases he : x = b
    · rw [he, Function.update_self]
      rfl
    · rwa [Function.update_of_ne he]
  refine ⟨?_, ?_, ?_, ?_, ?_⟩
  · rw [Function.update_of_ne (Ne.symm hb)]
    exact h.top
  · intro x d hd
    by_cases he : x = b
    · subst he
      rw [Function.update_self, Option.some.injEq] at hd
      exact hd ▸ hdef hm
    · rw [Function.update_of_ne he] at hd
      exact hdef (h.closed hd)
  · intro x d hd hx
    by_cases he : x = b
    · subst he
      rw [Function.update_self, Option.some.injEq] at hd
      exact hd ▸ hlt
    · rw [Function.update_of_ne he] at hd
      exact h.lt hd hx
  · intro x hx
    rcases hsome hx with rfl | hx
    · exact hroot
    · exact h.le_root hx
  · intro x y hx hy he
    rcases hsome hx with hxb | hxt <;> rcases hsome hy with hyb | hyt
    · rw [hxb, hyb]
    · rw [hxb] at he ⊢
      exact (hinj hyt he.symm).symm
    · rw [hyb] at he ⊢
      exact hinj hxt he
    · exact h.inj hxt hyt he

end

end Csolver.Lib
