import Mathlib.Data.Finset.Card

/-!
# A flood fill with a stack

Nodes are marked when they are first seen, and a node that is taken from the stack marks its neighbours.
What is marked before the start is never taken, so the fill stops there: it marks what can be reached from
the starts without passing through a node marked before (`flood_spec`).
-/

namespace Csolver.Lib

variable {α : Type} [DecidableEq α]

namespace Flood

/-- Mark a node and put it on the stack, if it is new. -/
def mark (s : Finset α × List α) (x : α) : Finset α × List α :=
  if x ∈ s.1 then s else (insert x s.1, x :: s.2)

def run (next : α → List α) : Nat → Finset α × List α → Option (Finset α)
  | 0, _ => none
  | fuel + 1, (marked, stack) =>
    match stack with
    | [] => some marked
    | x :: stack => run next fuel ((next x).foldl mark (marked, stack))

/-! ## Marking several nodes -/

theorem mem_marked (ys : List α) (s : Finset α × List α) (x : α) :
    x ∈ (ys.foldl mark s).1 ↔ x ∈ s.1 ∨ x ∈ ys := by
  induction ys generalizing s with
  | nil => simp
  | cons y ys ih =>
    rw [List.foldl_cons, ih, mark]
    split
    · next hy =>
      rw [List.mem_cons]
      constructor
      · rintro (h | h)
        · exact .inl h
        · exact .inr (.inr h)
      · rintro (h | rfl | h)
        · exact .inl h
        · exact .inl hy
        · exact .inr h
    · rw [Finset.mem_insert, List.mem_cons]
      tauto

theorem mem_stack (ys : List α) (s : Finset α × List α) (x : α) :
    x ∈ (ys.foldl mark s).2 ↔ x ∈ s.2 ∨ (x ∈ ys ∧ x ∉ s.1) := by
  induction ys generalizing s with
  | nil => simp
  | cons y ys ih =>
    rw [List.foldl_cons, ih, mark]
    split
    · next hy =>
      by_cases hxy : x = y
      · subst hxy
        simp [hy]
      · simp [hxy]
    · next hy =>
      by_cases hxy : x = y
      · subst hxy
        simp [hy]
      · simp [hxy]

/-- What is not marked or waits on the stack. -/
def left (V : Finset α) (s : Finset α × List α) : Nat := V.card - s.1.card + s.2.length

theorem left_marked {V : Finset α} (ys : List α) (hys : ∀ y ∈ ys, y ∈ V) (s : Finset α × List α)
    (hs : s.1 ⊆ V) : (ys.foldl mark s).1 ⊆ V ∧ left V (ys.foldl mark s) = left V s := by
  induction ys generalizing s with
  | nil => exact ⟨hs, rfl⟩
  | cons y ys ih =>
    have hy : y ∈ V := hys y List.mem_cons_self
    have hrest : ∀ z ∈ ys, z ∈ V := fun z hz => hys z (List.mem_cons_of_mem y hz)
    rw [List.foldl_cons, mark]
    split
    · exact ih hrest s hs
    · next hnew =>
      have hsub : insert y s.1 ⊆ V := Finset.insert_subset hy hs
      obtain ⟨hin, heq⟩ := ih hrest (insert y s.1, y :: s.2) hsub
      refine ⟨hin, heq.trans ?_⟩
      have hcard := Finset.card_le_card hsub
      rw [Finset.card_insert_of_notMem hnew] at hcard
      simp only [left, Finset.card_insert_of_notMem hnew, List.length_cons]
      omega

/-! ## The fill -/

section

variable (next : α → List α) (init : Finset α) (starts : List α)

/-- What the fill finds: a start, or a neighbour of what it found, not marked before. -/
def Found (x : α) : Prop :=
  ∃ l ∈ starts, l ∉ init ∧ Relation.ReflTransGen (fun a b => b ∈ next a ∧ b ∉ init) l x

/-- What holds whenever a node is taken. -/
structure Inv (s : Finset α × List α) : Prop where
  marked : ∀ x ∈ s.1, x ∈ init ∨ Found next init starts x
  init_mem : ∀ x ∈ init, x ∈ s.1
  starts_mem : ∀ x ∈ starts, x ∈ s.1
  stack : ∀ x ∈ s.2, x ∈ s.1 ∧ x ∉ init
  closed : ∀ x ∈ s.1, x ∉ init → x ∈ s.2 ∨ ∀ y ∈ next x, y ∈ s.1

end

variable {next : α → List α} {init : Finset α} {starts : List α}

omit [DecidableEq α] in
theorem Found.not_init {x : α} (h : Found next init starts x) : x ∉ init := by
  obtain ⟨l, _, hl, hpath⟩ := h
  cases hpath with
  | refl => exact hl
  | tail _ hstep => exact hstep.2

omit [DecidableEq α] in
theorem Found.step {x y : α} (h : Found next init starts x) (hy : y ∈ next x) (hnew : y ∉ init) :
    Found next init starts y := by
  obtain ⟨l, hl, hl', hpath⟩ := h
  exact ⟨l, hl, hl', hpath.tail ⟨hy, hnew⟩⟩

theorem inv_start : Inv next init starts (starts.foldl mark (init, [])) where
  marked x hx := by
    by_cases hi : x ∈ init
    · exact .inl hi
    · rcases (mem_marked _ _ _).mp hx with hx | hx
      · exact absurd hx hi
      · exact .inr ⟨x, hx, hi, .refl⟩
  init_mem x hx := (mem_marked _ _ _).mpr (.inl hx)
  starts_mem x hx := (mem_marked _ _ _).mpr (.inr hx)
  stack x hx := by
    rcases (mem_stack _ _ _).mp hx with hx | ⟨hx, hnew⟩
    · exact absurd hx List.not_mem_nil
    · exact ⟨(mem_marked _ _ _).mpr (.inr hx), hnew⟩
  closed x hx hi := by
    rcases (mem_marked _ _ _).mp hx with hx | hx
    · exact absurd hx hi
    · exact .inl ((mem_stack _ _ _).mpr (.inr ⟨hx, hi⟩))

theorem Inv.step {x : α} {marked : Finset α} {stack : List α} (h : Inv next init starts (marked, x :: stack)) :
    Inv next init starts ((next x).foldl mark (marked, stack)) where
  marked y hy := by
    rcases (mem_marked _ _ _).mp hy with hy | hy
    · exact h.marked y hy
    · by_cases hi : y ∈ init
      · exact .inl hi
      · obtain ⟨hx, hxi⟩ := h.stack x List.mem_cons_self
        have hfound : Found next init starts x := (h.marked x hx).resolve_left hxi
        exact .inr (hfound.step hy hi)
  init_mem y hy := (mem_marked _ _ _).mpr (.inl (h.init_mem y hy))
  starts_mem y hy := (mem_marked _ _ _).mpr (.inl (h.starts_mem y hy))
  stack y hy := by
    rcases (mem_stack _ _ _).mp hy with hy | ⟨hy, hnew⟩
    · obtain ⟨hm, hi⟩ := h.stack y (List.mem_cons_of_mem x hy)
      exact ⟨(mem_marked _ _ _).mpr (.inl hm), hi⟩
    · exact ⟨(mem_marked _ _ _).mpr (.inr hy), fun hi => hnew (h.init_mem y hi)⟩
  closed y hy hi := by
    rw [mem_stack]
    by_cases hold : y ∈ marked
    · rcases h.closed y hold hi with hst | hnext
      · rcases List.mem_cons.mp hst with rfl | hst
        -- the neighbours of the node that was taken are marked now
        · exact .inr fun z hz => (mem_marked _ _ _).mpr (.inr hz)
        · exact .inl (.inl hst)
      · exact .inr fun z hz => (mem_marked _ _ _).mpr (.inl (hnext z hz))
    · rcases (mem_marked _ _ _).mp hy with hy | hy
      · exact absurd hy hold
      · exact .inl (.inr ⟨hy, hold⟩)

omit [DecidableEq α] in
theorem Inv.mem_iff {marked : Finset α} (h : Inv next init starts (marked, [])) (x : α) :
    x ∈ marked ↔ x ∈ init ∨ Found next init starts x := by
  refine ⟨h.marked x, ?_⟩
  rintro (hx | ⟨l, hl, hli, hpath⟩)
  · exact h.init_mem x hx
  · induction hpath with
    | refl => exact h.starts_mem l hl
    | @tail y z hly hyz ih =>
      have hy : Found next init starts y := ⟨l, hl, hli, hly⟩
      rcases h.closed y ih hy.not_init with hst | hnext
      · exact absurd hst List.not_mem_nil
      · exact hnext z hyz.1

theorem run_spec {V : Finset α} (hV : ∀ x ∈ V, ∀ y ∈ next x, y ∈ V) {fuel : Nat} {s : Finset α × List α}
    (hs : Inv next init starts s) (hsub : s.1 ⊆ V) (hfuel : left V s < fuel) :
    ∃ r, run next fuel s = some r ∧ ∀ x, x ∈ r ↔ x ∈ init ∨ Found next init starts x := by
  induction fuel generalizing s with
  | zero => exact absurd hfuel (Nat.not_lt_zero _)
  | succ fuel ih =>
    obtain ⟨marked, stack⟩ := s
    cases stack with
    | nil => exact ⟨marked, rfl, hs.mem_iff⟩
    | cons x stack =>
      have hx : x ∈ V := hsub (hs.stack x List.mem_cons_self).1
      obtain ⟨hin, heq⟩ := left_marked (next x) (hV x hx) (marked, stack) hsub
      have hless : left V (marked, x :: stack) = left V (marked, stack) + 1 := by
        simp only [left, List.length_cons]
        omega
      exact ih hs.step hin (by omega)

end Flood

open Flood in
/-- **Flood fill.** With a step for every node it returns, and it marks what was marked before and what it
    can find. -/
theorem flood_spec (next : α → List α) (init : Finset α) (starts : List α) (fuel : Nat) {V : Finset α}
    (hV : ∀ x ∈ V, ∀ y ∈ next x, y ∈ V) (hinit : init ⊆ V) (hstarts : ∀ x ∈ starts, x ∈ V)
    (hfuel : V.card < fuel) :
    ∃ r, run next fuel (starts.foldl mark (init, [])) = some r ∧
      ∀ x, x ∈ r ↔ x ∈ init ∨ Found next init starts x := by
  obtain ⟨hsub, hleft⟩ := left_marked starts hstarts (init, []) hinit
  refine run_spec hV inv_start hsub ?_
  rw [hleft]
  simp only [left, List.length_nil]
  omega

end Csolver.Lib
