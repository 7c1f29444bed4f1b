import Csolver.Absint.PointsTo
import Mathlib.Algebra.Order.BigOperators.Group.Finset
import Mathlib.Data.Prod.Lex

/-!
# Every run of the points-to solver is finite

A step may create field cells, which the node budget bounds, may enlarge or collapse a set, which the
number of nodes bounds, and takes an item off the list. `Down` says so of the parts of a step; it is
transitive, so that a step as a whole decreases the three numbers in this order.
-/

namespace Csolver

namespace PointsTo

variable (P : Constraints)

def Allocated (s : State) : Node → Prop
  | .given n => n < P.nodes
  | .cell o off => (o, off) ∈ s.created

/-- Only nodes that were handed out occur, and there are no more of them than the budget allows. -/
structure Wf (s : State) : Prop where
  targets : ∀ x, ∀ o ∈ s.pts x, Allocated P s x ∧ Allocated P s o
  edges : ∀ e ∈ s.edges, Allocated P s e.1 ∧ Allocated P s e.2
  work : ∀ x ∈ s.work, Allocated P s x
  created : P.nodes + s.created.card ≤ max maxNodes P.nodes

def nodesOf (s : State) : Finset Node :=
  (Finset.range P.nodes).image Node.given ∪ s.created.image fun c => .cell c.1 c.2

/-- How much the set of a node can still grow. -/
def slack (s : State) (x : Node) : Nat :=
  if x ∈ s.saturated then 0 else (nodesOf P s).card + 1 - (s.pts x).card

def room (s : State) : Nat := ∑ x ∈ nodesOf P s, slack P s x

/-- What a part of a step does: creating a cell, or changing a set, or neither and queueing nothing. -/
def Down (s s' : State) : Prop :=
  s.created ⊂ s'.created ∨ s'.created = s.created ∧
    (room P s' < room P s ∨ room P s' = room P s ∧ s'.work = s.work)

variable {P} {s s' : State}

theorem Down.refl : Down P s s := .inr ⟨rfl, .inr ⟨rfl, rfl⟩⟩

theorem Down.trans {s'' : State} (h : Down P s s') (h' : Down P s' s'') : Down P s s'' := by
  rcases h with h | ⟨hc, h⟩
  · refine .inl (h.trans_subset ?_)
    rcases h' with h' | ⟨hc', -⟩
    · exact h'.subset
    · rw [hc']
  · rcases h' with h' | ⟨hc', h'⟩
    · exact .inl (hc ▸ h')
    · refine .inr ⟨hc'.trans hc, ?_⟩
      rcases h with h | ⟨hr, hw⟩
      · refine .inl ?_
        rcases h' with h' | ⟨hr', -⟩
        · exact h'.trans h
        · rw [hr']
          exact h
      · rcases h' with h' | ⟨hr', hw'⟩
        · exact .inl (hr ▸ h')
        · exact .inr ⟨hr'.trans hr, hw'.trans hw⟩

@[simp] theorem mem_nodesOf {x : Node} : x ∈ nodesOf P s ↔ Allocated P s x := by
  cases x <;> simp [nodesOf, Allocated]

theorem Allocated.mono {x : Node} (h : Allocated P s x) (hc : s.created ⊆ s'.created) :
    Allocated P s' x := by
  cases x with
  | given n => exact h
  | cell o off => exact hc h

theorem allocated_top : Allocated P s top := P.nodes_pos

theorem Wf.subset_nodesOf (h : Wf P s) (x : Node) : s.pts x ⊆ nodesOf P s :=
  fun o ho => mem_nodesOf.mpr (h.targets x o ho).2

/-- `s'` has the nodes of `s`, and each set is as large or collapsed. -/
structure Larger (s s' : State) : Prop where
  created : s'.created = s.created
  saturated : s.saturated ⊆ s'.saturated
  pts : ∀ x, x ∈ s'.saturated ∨ s.pts x ⊆ s'.pts x

theorem Larger.nodesOf (h : Larger s s') : nodesOf P s' = nodesOf P s := by
  rw [PointsTo.nodesOf, PointsTo.nodesOf, h.created]

theorem Larger.slack_le (h : Larger s s') (x : Node) : slack P s' x ≤ slack P s x := by
  rw [slack, slack, h.nodesOf]
  by_cases hx' : x ∈ s'.saturated
  · simp [hx']
  · have hx : x ∉ s.saturated := fun hx => hx' (h.saturated hx)
    rw [if_neg hx', if_neg hx]
    exact Nat.sub_le_sub_left (Finset.card_le_card ((h.pts x).resolve_left hx')) _

theorem Larger.room_le (h : Larger s s') : room P s' ≤ room P s := by
  rw [room, room, h.nodesOf]
  exact Finset.sum_le_sum fun x _ => h.slack_le x

theorem Larger.room_lt (h : Larger s s') (hwf : Wf P s) {y : Node} (hy : Allocated P s y)
    (hsat : y ∉ s.saturated) (hlt : y ∈ s'.saturated ∨ s.pts y ⊂ s'.pts y) :
    room P s' < room P s := by
  have hcard : (s.pts y).card ≤ (PointsTo.nodesOf P s).card :=
    Finset.card_le_card (hwf.subset_nodesOf y)
  rw [room, room, h.nodesOf]
  refine Finset.sum_lt_sum (fun x _ => h.slack_le x) ⟨y, mem_nodesOf.mpr hy, ?_⟩
  rw [slack, slack, h.nodesOf, if_neg hsat]
  by_cases hy' : y ∈ s'.saturated
  · rw [if_pos hy']
    exact Nat.sub_pos_of_lt (Nat.lt_succ_of_le hcard)
  · rw [if_neg hy']
    have hlt' := Finset.card_lt_card (hlt.resolve_left hy')
    exact Nat.sub_lt_sub_left (Nat.lt_succ_of_le hcard) hlt'

/-! ## The parts of a step -/

/-- `t` is `s` after the set of `dst` became larger by `new`. -/
structure Grown (s : State) (dst : Node) (new : Finset Node) (t : State) : Prop where
  unsaturated : dst ∉ s.saturated
  not_subset : ¬new ⊆ s.pts dst
  created : t.created = s.created
  poisoned : t.poisoned = s.poisoned
  edges : t.edges = s.edges
  work : t.work = insert dst s.work
  other : ∀ x, x ≠ dst → t.pts x = s.pts x
  dst : t.saturated = s.saturated ∧ t.pts dst = s.pts dst ∪ new ∨
    t.saturated = insert dst s.saturated ∧ t.pts dst = {top} ∧ maxPtsSet < (s.pts dst ∪ new).card

theorem grow_cases (s : State) (dst : Node) (new : Finset Node) :
    grow s dst new = s ∧ (dst ∈ s.saturated ∨ new ⊆ s.pts dst) ∨ Grown s dst new (grow s dst new) := by
  rw [grow]
  by_cases h : dst ∈ s.saturated ∨ new ⊆ s.pts dst
  · rw [if_pos h]
    exact .inl ⟨rfl, h⟩
  · rw [if_neg h]
    refine .inr ?_
    obtain ⟨hsat, hsub⟩ := not_or.mp h
    rw [saturate]
    simp only [Function.update_self]
    by_cases hcard : maxPtsSet < (s.pts dst ∪ new).card
    · rw [if_pos hcard]
      refine ⟨hsat, hsub, rfl, rfl, rfl, rfl, fun x hx => ?_, .inr ⟨rfl, ?_, hcard⟩⟩ <;> simp [*]
    · rw [if_neg hcard]
      refine ⟨hsat, hsub, rfl, rfl, rfl, rfl, fun x hx => ?_, .inl ⟨rfl, ?_⟩⟩ <;> simp [*]

namespace Grown

variable {dst : Node} {new : Finset Node} (h : Grown s dst new s')
include h

theorem pts (x : Node) : x ∈ s'.saturated ∨ s.pts x ⊆ s'.pts x := by
  by_cases hx : x = dst
  · subst hx
    rcases h.dst with ⟨-, hp⟩ | ⟨hs, -⟩
    · rw [hp]
      exact .inr Finset.subset_union_left
    · rw [hs]
      exact .inl (Finset.mem_insert_self _ _)
  · rw [h.other x hx]
    exact .inr (Finset.Subset.refl _)

theorem saturated : s.saturated ⊆ s'.saturated := by
  rcases h.dst with ⟨hs, -⟩ | ⟨hs, -⟩ <;> rw [hs]
  exact Finset.subset_insert _ _

theorem larger : Larger s s' := ⟨h.created, h.saturated, h.pts⟩

theorem wf (hwf : Wf P s) (hd : Allocated P s dst) (hn : ∀ o ∈ new, Allocated P s o) : Wf P s' := by
  have hmono {x : Node} (hx : Allocated P s x) : Allocated P s' x := hx.mono h.created.ge
  refine ⟨fun x o ho => ?_, fun e he => ?_, fun x hx => ?_, h.created ▸ hwf.created⟩
  · by_cases hx : x = dst
    · subst hx
      refine ⟨hmono hd, ?_⟩
      rcases h.dst with ⟨-, hp⟩ | ⟨-, hp, -⟩
      · rw [hp] at ho
        rcases Finset.mem_union.mp ho with ho | ho
        · exact hmono (hwf.targets _ o ho).2
        · exact hmono (hn o ho)
      · rw [hp] at ho
        rw [Finset.mem_singleton.mp ho]
        exact allocated_top
    · rw [h.other x hx] at ho
      exact (hwf.targets x o ho).imp hmono hmono
  · rw [h.edges] at he
    exact (hwf.edges e he).imp hmono hmono
  · rw [h.work] at hx
    rcases Finset.mem_insert.mp hx with rfl | hx
    · exact hmono hd
    · exact hmono (hwf.work x hx)

theorem down (hwf : Wf P s) (hd : Allocated P s dst) : Down P s s' := by
  refine .inr ⟨h.created, .inl (h.larger.room_lt hwf hd h.unsaturated ?_)⟩
  rcases h.dst with ⟨-, hp⟩ | ⟨hs, -⟩
  · rw [hp]
    refine .inr (Finset.ssubset_iff_subset_ne.mpr ⟨Finset.subset_union_left, fun heq => ?_⟩)
    exact h.not_subset (heq ▸ Finset.subset_union_right)
  · rw [hs]
    exact .inl (Finset.mem_insert_self _ _)

end Grown

/-- `s` is well-formed and comes after `s₀`. -/
structure After (P : Constraints) (s₀ s : State) : Prop where
  wf : Wf P s
  down : Down P s₀ s

theorem Down.created (h : Down P s s') : s.created ⊆ s'.created := by
  rcases h with h | ⟨hc, -⟩
  · exact h.subset
  · rw [hc]

theorem After.allocated {s₀ : State} (h : After P s₀ s) {x : Node} (hx : Allocated P s₀ x) :
    Allocated P s x := hx.mono h.down.created

theorem After.trans {s₀ : State} (h : After P s₀ s) (h' : After P s s') : After P s₀ s' :=
  ⟨h'.wf, h.down.trans h'.down⟩

theorem grow_after (hwf : Wf P s) {dst : Node} {new : Finset Node} (hd : Allocated P s dst)
    (hn : ∀ o ∈ new, Allocated P s o) : After P s (grow s dst new) := by
  rcases grow_cases s dst new with ⟨heq, -⟩ | h
  · rw [heq]
    exact ⟨hwf, .refl⟩
  · exact ⟨h.wf hwf hd hn, h.down hwf hd⟩

theorem isCellOf_allocated {o x : Node} (h : isCellOf P s o x = true) : Allocated P s x := by
  rw [isCellOf.eq_def, Bool.or_eq_true] at h
  rcases h with h | h
  · obtain ⟨c, hc, hx⟩ := List.any_eq_true.mp h
    rw [← of_decide_eq_true (Bool.and_eq_true_iff.mp hx).2]
    exact (P.cell_lt c hc).2
  · cases x with
    | given n => exact absurd h (by simp)
    | cell o' off =>
      have hc : (o', off) ∈ s.created := of_decide_eq_true (Bool.and_eq_true_iff.mp h).2
      exact hc

theorem poison_after (hwf : Wf P s) {o : Node} (ho : Allocated P s o) :
    After P s (poison P s o) := by
  rw [poison]
  split
  · exact ⟨hwf, .refl⟩
  · refine ⟨⟨fun x y hy => ?_, hwf.edges, hwf.work, hwf.created⟩, ?_⟩
    · simp only at hy
      split at hy
      · next hx =>
        rcases Finset.mem_insert.mp hy with rfl | hy
        · refine ⟨?_, allocated_top⟩
          rcases hx with rfl | hx
          · exact ho
          · exact isCellOf_allocated hx
        · exact hwf.targets x y hy
      · exact hwf.targets x y hy
    · have hlarger : Larger s { s with
          poisoned := insert o s.poisoned
          pts := fun x => if x = o ∨ isCellOf P s o x = true then insert top (s.pts x) else s.pts x } := by
        refine ⟨rfl, Finset.Subset.refl _, fun x => .inr ?_⟩
        simp only
        split
        · exact Finset.subset_insert _ _
        · exact Finset.Subset.refl _
      rcases Nat.lt_or_eq_of_le (hlarger.room_le (P := P)) with hlt | heq
      · exact .inr ⟨rfl, .inl hlt⟩
      · exact .inr ⟨rfl, .inr ⟨heq, rfl⟩⟩

theorem lookup_allocated {o c : Node} {off : Nat} (h : lookup P s o off = some c) :
    Allocated P s c := by
  rw [lookup] at h
  split at h
  · next c' hc =>
    obtain ⟨e, he, rfl⟩ := Option.map_eq_some_iff.mp hc
    rw [← Option.some.inj h]
    exact (P.cell_lt e (List.mem_of_find?_eq_some he)).2
  · split at h
    · next hc =>
      rw [← Option.some.inj h]
      exact hc
    · exact absurd h (by simp)

theorem created_after (hwf : Wf P s) {o : Node} {off : Nat} (hnew : (o, off) ∉ s.created)
    (hfull : ¬full P s) (pts : Node → Finset Node)
    (hpts : ∀ x, ∀ y ∈ pts x, y ∈ s.pts x ∨ x = .cell o off ∧ y = top) :
    After P s { s with created := insert (o, off) s.created, pts := pts } := by
  have hmono {x : Node} (hx : Allocated P s x) :
      Allocated P { s with created := insert (o, off) s.created, pts := pts } x :=
    hx.mono (Finset.subset_insert _ _)
  refine ⟨⟨fun x y hy => ?_, fun e he => (hwf.edges e he).imp hmono hmono,
    fun x hx => hmono (hwf.work x hx), ?_⟩, .inl (Finset.ssubset_insert hnew)⟩
  · rcases hpts x y hy with hy | ⟨rfl, rfl⟩
    · exact (hwf.targets x y hy).imp hmono hmono
    · exact ⟨Finset.mem_insert_self _ _, allocated_top⟩
  · simp only [Finset.card_insert_of_notMem hnew]
    rw [full] at hfull
    exact Nat.le_trans (Nat.not_le.mp hfull) (Nat.le_max_left _ _)

theorem internField_after (hwf : Wf P s) {o : Node} (ho : Allocated P s o) (off : Nat) :
    After P s (internField P s o off).2 ∧
      Allocated P (internField P s o off).2 (internField P s o off).1 := by
  rw [internField]
  split
  · exact ⟨⟨hwf, .refl⟩, allocated_top⟩
  split
  · exact ⟨poison_after hwf ho, allocated_top⟩
  split
  · exact ⟨⟨hwf, .refl⟩, ho⟩
  split
  · next c hc => exact ⟨⟨hwf, .refl⟩, lookup_allocated hc⟩
  · next hnone =>
    split
    · exact ⟨⟨hwf, .refl⟩, allocated_top⟩
    · next hfull =>
      have hnew : (o, off) ∉ s.created := by
        intro hc
        rw [lookup] at hnone
        split at hnone
        · exact absurd hnone (by simp)
        · rw [if_pos hc] at hnone
          exact absurd hnone (by simp)
      refine ⟨created_after hwf hnew hfull _ fun x y hy => ?_, Finset.mem_insert_self _ _⟩
      split at hy
      · by_cases hx : x = .cell o off
        · subst hx
          rw [Function.update_self] at hy
          exact (Finset.mem_insert.mp hy).symm.imp_right fun h => ⟨rfl, h⟩
        · rw [Function.update_of_ne hx] at hy
          exact .inl hy
      · exact .inl hy

/-! ## A whole step -/

section parts

variable {s₀ : State} (h : After P s₀ s)
include h

theorem gepStep_after {dst o : Node} (hd : Allocated P s₀ dst) (ho : Allocated P s₀ o) (off : Nat) :
    After P s₀ (gepStep P dst off s o) := by
  obtain ⟨hi, hc⟩ := internField_after h.wf (h.allocated ho) off
  refine (h.trans hi).trans (grow_after hi.wf ((h.trans hi).allocated hd) fun c hc' => ?_)
  rw [Finset.mem_singleton.mp hc']
  exact hc

theorem link_after {src dst : Node} (hs : Allocated P s₀ src) (hd : Allocated P s₀ dst) :
    After P s₀ (union { s with edges := insert (src, dst) s.edges } dst src) := by
  have hlink : After P s { s with edges := insert (src, dst) s.edges } := by
    refine ⟨⟨h.wf.targets, fun e he => ?_, h.wf.work, h.wf.created⟩, .inr ⟨rfl, .inr ⟨rfl, rfl⟩⟩⟩
    rcases Finset.mem_insert.mp he with rfl | he
    · exact ⟨h.allocated hs, h.allocated hd⟩
    · exact h.wf.edges e he
  refine (h.trans hlink).trans (grow_after hlink.wf ((h.trans hlink).allocated hd) fun o ho => ?_)
  exact (hlink.wf.targets src o ho).2

theorem loadStep_after {dst o : Node} (hd : Allocated P s₀ dst) (ho : Allocated P s₀ o) :
    After P s₀ (loadStep dst s o) := by
  rw [loadStep]
  split
  · exact h
  · exact link_after h ho hd

theorem storeStep_after {v o : Node} (hv : Allocated P s₀ v) (ho : Allocated P s₀ o) :
    After P s₀ (storeStep v s o) := by
  rw [storeStep]
  split
  · exact h
  · exact link_after h hv ho

theorem copyStep_after (n : Node) {d : Node} (hd : Allocated P s₀ d) :
    After P s₀ (copyStep n s d) :=
  h.trans (grow_after h.wf (h.allocated hd) fun o ho => (h.wf.targets n o ho).2)

end parts

theorem gepsOf_allocated {n : Node} {e : Node × Nat} (h : e ∈ gepsOf P n) : Allocated P s e.1 := by
  obtain ⟨c, hc, rfl⟩ := List.mem_map.mp h
  exact (P.gep_lt c (List.mem_filter.mp hc).1).1

theorem loadsOf_allocated {n d : Node} (h : d ∈ loadsOf P n) : Allocated P s d := by
  obtain ⟨c, hc, rfl⟩ := List.mem_map.mp h
  exact (P.load_lt c (List.mem_filter.mp hc).1).1

theorem storesOf_allocated {n v : Node} (h : v ∈ storesOf P n) : Allocated P s v := by
  obtain ⟨c, hc, rfl⟩ := List.mem_map.mp h
  exact (P.store_lt c (List.mem_filter.mp hc).1).1

def popped (s : State) (n : Node) : State := { s with work := s.work.erase n }

theorem Wf.popped (hwf : Wf P s) (n : Node) : Wf P (popped s n) :=
  ⟨hwf.targets, hwf.edges, fun x hx => hwf.work x (Finset.mem_of_mem_erase hx), hwf.created⟩

theorem constrain_after (hwf : Wf P s) {n : Node} {targets : List Node}
    (ht : targets.toFinset = s.pts n) : After P (popped s n) (constrain P s n targets) := by
  have hobj {o : Node} (ho : o ∈ targets) : Allocated P (popped s n) o :=
    (hwf.targets n o (ht ▸ List.mem_toFinset.mpr ho)).2
  rw [constrain]
  refine List.foldlRecOn (storesOf P n) _ (motive := After P (popped s n)) ?_ fun s₁ h₁ v hv =>
    List.foldlRecOn targets _ (motive := After P (popped s n)) h₁ fun s₂ h₂ o ho =>
      storeStep_after h₂ (storesOf_allocated hv) (hobj ho)
  refine List.foldlRecOn (loadsOf P n) _ (motive := After P (popped s n)) ?_ fun s₁ h₁ d hd =>
    List.foldlRecOn targets _ (motive := After P (popped s n)) h₁ fun s₂ h₂ o ho =>
      loadStep_after h₂ (loadsOf_allocated hd) (hobj ho)
  refine List.foldlRecOn (gepsOf P n) _ (motive := After P (popped s n)) ?_ fun s₁ h₁ e he =>
    List.foldlRecOn targets _ (motive := After P (popped s n)) h₁ fun s₂ h₂ o ho =>
      gepStep_after h₂ (gepsOf_allocated he) (hobj ho) e.2
  exact ⟨hwf.popped n, .refl⟩

theorem process_after (hwf : Wf P s) {n : Node} {targets dsts : List Node}
    (ht : targets.toFinset = s.pts n)
    (hd : ∀ d, d ∈ dsts ↔ (n, d) ∈ (constrain P s n targets).edges) :
    After P (popped s n) (process P s n targets dsts) := by
  have h := constrain_after hwf ht
  refine h.trans (List.foldlRecOn dsts _ (motive := After P (constrain P s n targets)) ⟨h.wf, .refl⟩
    fun s₁ h₁ d hd' => copyStep_after h₁ n ?_)
  exact (h.wf.edges _ ((hd d).mp hd')).2

/-- The three numbers that a step decreases. -/
def rank (P : Constraints) (s : State) : ℕ ×ₗ ℕ ×ₗ ℕ :=
  toLex (max maxNodes P.nodes - s.created.card, toLex (room P s, s.work.card))

theorem Step.wf (h : Step P s s') (hwf : Wf P s) : Wf P s' := by
  obtain ⟨-, ht, hd⟩ := h
  exact (process_after hwf ht hd).wf

theorem Step.rank_lt (h : Step P s s') (hwf : Wf P s) : rank P s' < rank P s := by
  have hwf' := h.wf hwf
  obtain ⟨hn, ht, hd⟩ := h
  rcases (process_after hwf ht hd).down with hc | ⟨hc, hroom | ⟨hroom, hwork⟩⟩
  · have hlt := Finset.card_lt_card hc
    have hb := hwf'.created
    exact Prod.Lex.toLex_lt_toLex.mpr (.inl (by simp only [popped] at hlt ⊢; omega))
  · refine Prod.Lex.toLex_lt_toLex.mpr (.inr ⟨by rw [hc]; rfl, ?_⟩)
    exact Prod.Lex.toLex_lt_toLex.mpr (.inl hroom)
  · refine Prod.Lex.toLex_lt_toLex.mpr (.inr ⟨by rw [hc]; rfl, ?_⟩)
    refine Prod.Lex.toLex_lt_toLex.mpr (.inr ⟨hroom, ?_⟩)
    rw [hwork]
    exact Finset.card_erase_lt_of_mem hn

/-- **Every run is finite.** -/
theorem Wf.acc (hwf : Wf P s) : Acc (fun b a => Step P a b) s := by
  induction hr : rank P s using WellFoundedLT.induction generalizing s with
  | ind r ih =>
    subst hr
    exact ⟨s, fun s' h => ih _ (h.rank_lt hwf) (h.wf hwf) rfl⟩

/-! ## The start -/

variable (P) in
theorem initial_wf : Wf P (initial P) := by
  refine ⟨fun x o ho => ?_, fun e he => ?_, fun x hx => absurd hx (Finset.notMem_empty x), ?_⟩
  · simp only [initial] at ho
    split at ho
    · next hx =>
      obtain ⟨p, hp, hx⟩ := List.any_eq_true.mp hx
      rw [Finset.mem_singleton.mp ho]
      refine ⟨?_, allocated_top⟩
      rcases Bool.or_eq_true_iff.mp (Bool.and_eq_true_iff.mp hx).2 with hx | hx
      · rw [of_decide_eq_true hx]
        exact P.poisoned_lt p hp
      · obtain ⟨c, hc, hx⟩ := List.any_eq_true.mp hx
        rw [of_decide_eq_true (Bool.and_eq_true_iff.mp hx).2]
        exact (P.cell_lt c hc).2
    · exact absurd ho (Finset.notMem_empty o)
  · obtain ⟨c, hc, rfl⟩ := List.mem_map.mp (List.mem_toFinset.mp he)
    exact ⟨(P.copy_lt c hc).2, (P.copy_lt c hc).1⟩
  · exact Nat.le_max_right _ _

def seeded (P : Constraints) : State :=
  P.addr.foldl (fun s c => add s (.given c.1) (.given c.2)) (initial P)

theorem seeded_wf : Wf P (seeded P) := by
  refine (List.foldlRecOn P.addr _ (motive := After P (initial P)) ⟨initial_wf P, .refl⟩
    fun s h c hc => ?_).wf
  have hp : Allocated P s (.given c.1) := (P.addr_lt c hc).1
  refine h.trans (grow_after h.wf hp fun o ho => ?_)
  rw [Finset.mem_singleton.mp ho]
  exact (P.addr_lt c hc).2

variable (P) in
theorem start_wf : Wf P (start P) := by
  refine ⟨seeded_wf.targets, seeded_wf.edges, fun x hx => ?_, seeded_wf.created⟩
  rcases Finset.mem_union.mp hx with hx | hx
  · exact seeded_wf.work x hx
  · obtain ⟨n, hn, rfl⟩ := Finset.mem_image.mp (Finset.mem_filter.mp hx).1
    exact Finset.mem_range.mp hn

end PointsTo

end Csolver
