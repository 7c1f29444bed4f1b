import Csolver.Lib.Ancestors
import Mathlib.Data.Finset.Card

/-!
# Walking a tree with a stack

A tree is given by its parent function. The walk takes a node with what it inherited, visits it, and puts
its children on the stack with what they inherit. No node is taken twice, so a step for every node is
enough, and every descendant of the root is taken; what a visit keeps holds at the end (`walk_spec`).
-/

namespace Csolver.Lib.TreeWalk

variable {α σ π : Type}

/-- The walk over the stack, with the state and the inheritance that a visit makes. -/
def walk (children : α → List α) (visit : σ → α → π → σ × π) : Nat → σ → List (α × π) → Option σ
  | 0, _, _ => none
  | fuel + 1, s, stack =>
    match stack with
    | [] => some s
    | (x, p) :: stack =>
      let r := visit s x p
      walk children visit fuel r.1 (((children x).reverse.map fun c => (c, r.2)) ++ stack)

/-- The children are those nodes whose parent is `x`, each listed once. -/
structure Children (t : α → Option α) (children : α → List α) : Prop where
  mem_iff : ∀ x c, c ∈ children x ↔ t c = some x ∧ x ≠ c
  nodup : ∀ x, (children x).Nodup

/-- What holds between two visits: `done` are the nodes that were taken. -/
structure Inv (root : α) (t : α → Option α) (children : α → List α) (done pending : List α) : Prop where
  nodup : (done ++ pending).Nodup
  start : root ∈ done ++ pending
  defined : ∀ x ∈ done ++ pending, (t x).isSome
  parent : ∀ x ∈ done ++ pending, x ≠ root → ∃ d ∈ done, t x = some d
  ahead : ∀ x ∈ done, ∀ c ∈ children x, c ∈ done ++ pending

variable {root : α} {num : α → Nat} {t : α → Option α} {children : α → List α}

theorem Inv.step (htree : ParentTree root num t) (hch : Children t children) {x : α} {done pending : List α}
    (h : Inv root t children done (x :: pending)) :
    Inv root t children (x :: done) ((children x).reverse ++ pending) := by
  have hperm : (x :: done ++ pending).Perm (done ++ x :: pending) := List.perm_middle.symm
  have hsame : ∀ y, y ∈ x :: done ++ pending ↔ y ∈ done ++ x :: pending := fun y => hperm.mem_iff
  have hmem : ∀ y, y ∈ x :: done ++ ((children x).reverse ++ pending) ↔
      y ∈ done ++ x :: pending ∨ y ∈ children x := by
    intro y
    rw [← hsame]
    simp only [List.cons_append, List.mem_cons, List.mem_append, List.mem_reverse]
    tauto
  have hxdone : x ∉ done := by
    have hnd := hperm.nodup_iff.mpr h.nodup
    intro hx
    exact (List.nodup_cons.mp hnd).1 (List.mem_append_left _ hx)
  have hroot : ∀ c ∈ children x, c ≠ root := by
    rintro c hc rfl
    obtain ⟨htc, hne⟩ := (hch.mem_iff x c).mp hc
    rw [htree.top] at htc
    exact hne (Option.some.inj htc).symm
  -- a child that was met before would have had its parent taken before
  have hnew : ∀ c ∈ children x, c ∉ done ++ x :: pending := by
    intro c hc hold
    obtain ⟨d, hd, htd⟩ := h.parent c hold (hroot c hc)
    obtain ⟨htc, _⟩ := (hch.mem_iff x c).mp hc
    rw [htc, Option.some.injEq] at htd
    exact hxdone (htd ▸ hd)
  constructor
  · have hperm' : (x :: done ++ ((children x).reverse ++ pending)).Perm
        ((children x).reverse ++ (x :: done ++ pending)) := by
      rw [← List.append_assoc, ← List.append_assoc]
      exact List.Perm.append_right _ List.perm_append_comm
    rw [hperm'.nodup_iff, List.nodup_append]
    refine ⟨List.nodup_reverse.mpr (hch.nodup x), hperm.nodup_iff.mpr h.nodup, ?_⟩
    rintro c hc y hy rfl
    exact hnew c (List.mem_reverse.mp hc) ((hsame c).mp hy)
  · exact (hmem root).mpr (.inl h.start)
  · intro y hy
    rcases (hmem y).mp hy with hy | hy
    · exact h.defined y hy
    · rw [((hch.mem_iff x y).mp hy).1]
      rfl
  · intro y hy hne
    rcases (hmem y).mp hy with hy | hy
    · obtain ⟨d, hd, htd⟩ := h.parent y hy hne
      exact ⟨d, List.mem_cons_of_mem x hd, htd⟩
    · exact ⟨x, List.mem_cons_self, ((hch.mem_iff x y).mp hy).1⟩
  · intro y hy c hc
    rw [hmem]
    rcases List.mem_cons.mp hy with rfl | hy
    · exact .inr hc
    · exact .inl (h.ahead y hy c hc)

theorem Inv.mem_done (htree : ParentTree root num t) (hch : Children t children) {done : List α}
    (h : Inv root t children done []) (x : α) : x ∈ done ↔ (t x).isSome := by
  constructor
  · exact fun hx => h.defined x (List.mem_append_left _ hx)
  · intro hx
    have hstart : root ∈ done := by simpa using h.start
    have hanc := htree.root_anc x hx
    clear hx
    -- down from the root
    induction hanc with
    | refl => exact hstart
    | @up x d _ hd hanc ih =>
      by_cases hdx : d = x
      · exact hdx ▸ ih htree h hstart
      · have hmem := h.ahead d (ih htree h hstart) x ((hch.mem_iff d x).mpr ⟨hd, hdx⟩)
        simpa using hmem

variable {visit : σ → α → π → σ × π}

/-- **Tree walk.** It returns; an invariant of the taken nodes and the state that every visit keeps holds of all
    nodes of the tree and the state at the end. -/
theorem walk_run [DecidableEq α] (htree : ParentTree root num t) (hch : Children t children) {V : Finset α}
    (hV : ∀ x, (t x).isSome → x ∈ V) {P : List α → σ → Prop} {Q : π → Prop}
    (hvisit : ∀ done s x p, (t x).isSome → P done s → Q p → P (x :: done) (visit s x p).1 ∧ Q (visit s x p).2)
    {fuel : Nat} {done : List α} {s : σ} {stack : List (α × π)}
    (hinv : Inv root t children done (stack.map Prod.fst)) (hP : P done s) (hQ : ∀ e ∈ stack, Q e.2)
    (hfuel : V.card < fuel + done.length) :
    ∃ done' s', walk children visit fuel s stack = some s' ∧ P done' s' ∧ ∀ x, x ∈ done' ↔ (t x).isSome := by
  induction fuel generalizing done s stack with
  | zero =>
    -- more nodes were taken than there are
    have hle : done.length ≤ V.card := by
      have hnd : done.Nodup := (List.nodup_append.mp hinv.nodup).1
      rw [← List.toFinset_card_of_nodup hnd]
      refine Finset.card_le_card fun x hx => hV x (hinv.defined x ?_)
      exact List.mem_append_left _ (List.mem_toFinset.mp hx)
    omega
  | succ fuel ih =>
    cases stack with
    | nil => exact ⟨done, s, rfl, hP, hinv.mem_done htree hch⟩
    | cons e stack =>
      obtain ⟨x, p⟩ := e
      have hx : (t x).isSome := hinv.defined x (by simp)
      obtain ⟨hP', hQ'⟩ := hvisit done s x p hx hP (hQ (x, p) List.mem_cons_self)
      rw [walk]
      refine ih ?_ hP' ?_ ?_
      · have hnext := Inv.step htree hch hinv
        rwa [List.map_append, List.map_map, Function.comp_def, List.map_id']
      · intro e he
        rcases List.mem_append.mp he with he | he
        · obtain ⟨c, _, rfl⟩ := List.mem_map.mp he
          exact hQ'
        · exact hQ e (List.mem_cons_of_mem _ he)
      · rw [List.length_cons]
        omega

theorem walk_spec [DecidableEq α] (visit : σ → α → π → σ × π) (fuel : Nat) (s : σ) (p : π)
    (htree : ParentTree root num t) (hch : Children t children) {V : Finset α}
    (hV : ∀ x, (t x).isSome → x ∈ V) {P : List α → σ → Prop} {Q : π → Prop}
    (hvisit : ∀ done s x p, (t x).isSome → P done s → Q p → P (x :: done) (visit s x p).1 ∧ Q (visit s x p).2)
    (hP : P [] s) (hQ : Q p) (hfuel : V.card < fuel) :
    ∃ done' s', walk children visit fuel s [(root, p)] = some s' ∧ P done' s' ∧ ∀ x, x ∈ done' ↔ (t x).isSome := by
  have hinv : Inv root t children [] [root] := by
    constructor
    · exact List.nodup_singleton root
    · exact List.mem_singleton_self root
    · intro x hx
      obtain rfl : x = root := by simpa using hx
      rw [htree.top]
      rfl
    · intro x hx hne
      exact absurd (by simpa using hx) hne
    · exact fun x hx => absurd hx List.not_mem_nil
  refine walk_run htree hch hV hvisit hinv hP ?_ (by simpa using hfuel)
  intro e he
  rw [List.mem_singleton.mp he]
  exact hQ

end Csolver.Lib.TreeWalk
