import Mathlib.Logic.Relation

/-!
# Paths from a root, and dominance

`a` dominates `b` when `b` can be reached from the root and every way there goes through `a`. A path
is the list of the nodes it visits, the last one first, so that a path to `b` is a path to a
predecessor of `b` with `b` put in front.
-/

namespace Csolver.Lib

variable {α : Type} {R : α → α → Prop} {r : α}

/-- The paths from `r`, by their end and the nodes they visit. -/
inductive Path (R : α → α → Prop) (r : α) : α → List α → Prop
  | root : Path R r r [r]
  | step {p b : α} {l : List α} : Path R r p l → R p b → Path R r b (b :: l)

def Reach (R : α → α → Prop) (r b : α) : Prop := ∃ l, Path R r b l

theorem Reach.root : Reach R r r := ⟨[r], .root⟩

theorem Reach.step {p b : α} (h : Reach R r p) (hpb : R p b) : Reach R r b :=
  h.elim fun l hl => ⟨b :: l, hl.step hpb⟩

theorem Reach.cases {b : α} (h : Reach R r b) : b = r ∨ ∃ p, Reach R r p ∧ R p b := by
  obtain ⟨l, hl⟩ := h
  cases hl with
  | root => exact .inl rfl
  | step hp hpb => exact .inr ⟨_, ⟨_, hp⟩, hpb⟩

theorem Reach.induction {P : α → Prop} (hr : P r) (hstep : ∀ p b, P p → R p b → P b) {b : α}
    (h : Reach R r b) : P b := by
  obtain ⟨l, hl⟩ := h
  induction hl with
  | root => exact hr
  | step _ hpb ih => exact hstep _ _ ih hpb

/-- `a` dominates `b`. -/
def Dom (R : α → α → Prop) (r a b : α) : Prop := Reach R r b ∧ ∀ l, Path R r b l → a ∈ l

theorem Dom.refl {b : α} (h : Reach R r b) : Dom R r b b := by
  refine ⟨h, fun l hl => ?_⟩
  cases hl with
  | root => exact List.mem_singleton.mpr rfl
  | step _ _ => exact List.mem_cons_self

theorem Dom.pred {a b p : α} (h : Dom R r a b) (hne : a ≠ b) (hp : Reach R r p) (hpb : R p b) :
    Dom R r a p := by
  refine ⟨hp, fun l hl => ?_⟩
  rcases List.mem_cons.mp (h.2 _ (hl.step hpb)) with he | hmem
  · exact absurd he hne
  · exact hmem

theorem Dom.eq_root {a : α} (h : Dom R r a r) : a = r := List.mem_singleton.mp (h.2 [r] .root)

/-! ## Ways around a node -/

/-- `x` reaches `y` without passing through `h`. -/
def Avoids (R : α → α → Prop) (h x y : α) : Prop := x ≠ h ∧ Relation.ReflTransGen (fun a b => R a b ∧ b ≠ h) x y

theorem Avoids.refl {h x : α} (hx : x ≠ h) : Avoids R h x x := ⟨hx, .refl⟩

theorem Avoids.ne_right {h x y : α} (hxy : Avoids R h x y) : y ≠ h := by
  obtain ⟨hx, hpath⟩ := hxy
  cases hpath with
  | refl => exact hx
  | tail _ hstep => exact hstep.2

theorem Avoids.head {h p x y : α} (hp : p ≠ h) (hpx : R p x) (hxy : Avoids R h x y) : Avoids R h p y :=
  ⟨hp, hxy.2.head ⟨hpx, hxy.1⟩⟩

theorem Avoids.induction {h y : α} {P : α → Prop} (hy : y ≠ h → P y)
    (hstep : ∀ p x, p ≠ h → R p x → Avoids R h x y → P x → P p) {x : α} (hxy : Avoids R h x y) : P x := by
  have hy' := hy hxy.ne_right
  obtain ⟨hx, hpath⟩ := hxy
  induction hpath using Relation.ReflTransGen.head_induction_on with
  | refl => exact hy'
  | head hpx hrest ih => exact hstep _ _ hx hpx.1 ⟨hpx.2, hrest⟩ (ih hpx.2)

theorem Dom.of_avoids {h x y : α} (hdom : Dom R r h y) (hxy : Avoids R h x y) (hx : Reach R r x) :
    Dom R r h x := by
  revert hx
  apply Avoids.induction (P := fun x => Reach R r x → Dom R r h x) _ _ hxy
  · intro _ _
    exact hdom
  · intro p x _ hpx hav ih hp
    exact (ih (hp.step hpx)).pred (Ne.symm hav.1) hp hpx

/-! ## Prefixes, and dominance as an order -/

theorem Path.head {b : α} {l : List α} (h : Path R r b l) : ∃ t, l = b :: t := by
  cases h with
  | root => exact ⟨[], rfl⟩
  | step _ _ => exact ⟨_, rfl⟩

theorem Path.reach {b : α} {l : List α} (h : Path R r b l) : Reach R r b := ⟨l, h⟩

theorem Path.upto {a b : α} {l : List α} (h : Path R r b l) (ha : a ∈ l) :
    ∃ l', Path R r a l' ∧ l' <:+ l := by
  induction h with
  | root =>
    obtain rfl := List.mem_singleton.mp ha
    exact ⟨[a], .root, List.suffix_refl _⟩
  | @step p b l hp hpb ih =>
    rcases List.mem_cons.mp ha with rfl | ha
    · exact ⟨_, hp.step hpb, List.suffix_refl _⟩
    · obtain ⟨l', hl', hsuf⟩ := ih ha
      exact ⟨l', hl', hsuf.trans (List.suffix_cons b l)⟩

theorem Dom.reach_left {a b : α} (h : Dom R r a b) : Reach R r a := by
  obtain ⟨l, hl⟩ := h.1
  obtain ⟨l', hl', _⟩ := hl.upto (h.2 l hl)
  exact hl'.reach

theorem Dom.trans {a b c : α} (hab : Dom R r a b) (hbc : Dom R r b c) : Dom R r a c := by
  refine ⟨hbc.1, fun l hl => ?_⟩
  obtain ⟨l', hl', hsuf⟩ := hl.upto (hbc.2 l hl)
  exact hsuf.subset (hab.2 l' hl')

theorem Reach.first_visit {b : α} (h : Reach R r b) : ∃ t, Path R r b (b :: t) ∧ b ∉ t := by
  obtain ⟨l, hl⟩ := h
  obtain ⟨n, hn⟩ : ∃ n, l.length = n := ⟨_, rfl⟩
  induction n using Nat.strongRecOn generalizing l with
  | ind n ih =>
    obtain ⟨t, rfl⟩ := hl.head
    by_cases hmem : b ∈ t
    · cases hl with
      | root => exact absurd hmem (by simp)
      | step hp hpb =>
        obtain ⟨l', hl', hsuf⟩ := hp.upto hmem
        have := hsuf.length_le
        exact ih l'.length (by simp at hn; omega) l' hl' rfl
    · exact ⟨t, hl, hmem⟩

theorem Dom.antisymm {a b : α} (hab : Dom R r a b) (hba : Dom R r b a) : a = b := by
  -- the way to `b` that meets it only at the end goes through `a` first, and through `b` before that
  obtain ⟨t, hl, hnot⟩ := hab.1.first_visit
  rcases List.mem_cons.mp (hab.2 _ hl) with hab' | hmem
  · exact hab'
  · cases hl with
    | root => exact absurd hmem List.not_mem_nil
    | step hp hpb =>
      obtain ⟨l', hl', hsuf⟩ := hp.upto hmem
      exact absurd (hsuf.subset (hba.2 l' hl')) hnot

end Csolver.Lib
