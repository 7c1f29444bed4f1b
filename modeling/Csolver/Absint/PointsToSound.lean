import Csolver.Absint.PointsToRuns

/-!
# What the points-to solver computes

The invariant of a run: every node that is not waiting is settled, meaning that its constraints hold of
its present set. A part of a step either leaves a set alone or queues its node, so that what was settled
stays so — except `poison`, which enlarges the sets of an object and of its cells and queues none of
them. Runs in which no object is poisoned while solving keep the invariant; a run that ends has no
waiting node left.
-/

namespace Csolver

namespace PointsTo

variable (P : Constraints)

/-- The set of `d` includes `A`; a collapsed set includes everything. -/
def Includes (s : State) (d : Node) (A : Finset Node) : Prop := d ∈ s.saturated ∨ A ⊆ s.pts d

/-- The node that stands for a field, if it exists: TOP for a field of TOP, for an unknown field and
    for one that the node budget did not allow. -/
def fieldNode (s : State) (o : Node) (off : Nat) : Option Node :=
  if o = top ∨ off = anyOffset then some top
  else if off = 0 then some o
  else match lookup P s o off with
    | some c => some c
    | none => if full P s then some top else none

/-- Every constraint holds of the sets. -/
structure Closed (s : State) : Prop where
  addr : ∀ c ∈ P.addr, Includes s (.given c.1) {.given c.2}
  copy : ∀ c ∈ P.copy, Includes s (.given c.1) (s.pts (.given c.2))
  gep : ∀ c ∈ P.gep, ∀ o ∈ s.pts (.given c.2.1),
    ∃ f, fieldNode P s o c.2.2 = some f ∧ Includes s (.given c.1) {f}
  load : ∀ c ∈ P.load, ∀ o ∈ s.pts (.given c.2), Includes s (.given c.1) (s.pts o)
  load_top : ∀ c ∈ P.load, top ∈ s.pts (.given c.2) → Includes s (.given c.1) {top}
  store : ∀ c ∈ P.store, ∀ o ∈ s.pts (.given c.2), Includes s o (s.pts (.given c.1))
  poisoned : ∀ o ∈ s.poisoned, top ∈ s.pts o ∧ ∀ off c, lookup P s o off = some c → top ∈ s.pts c
  saturated : ∀ x ∈ s.saturated, s.pts x = {top}

/-- The item can be processed without poisoning an object, and does not load through TOP while TOP does
    not point to itself. -/
structure StepOk (s : State) (n : Node) : Prop where
  gep : ∀ e ∈ gepsOf P n, e.2 = anyOffset → ∀ o ∈ s.pts n, o = top ∨ o ∈ s.poisoned
  load : loadsOf P n ≠ [] → top ∈ s.pts n → top ∈ s.pts top

/-- A state reached by steps that are all `StepOk`. -/
inductive CalmRun : State → Prop
  | start : CalmRun (start P)
  | item {s : State} {n : Node} {targets dsts : List Node} : CalmRun s → n ∈ s.work →
      targets.toFinset = s.pts n → (∀ d, d ∈ dsts ↔ (n, d) ∈ (constrain P s n targets).edges) →
      StepOk P s n → CalmRun (process P s n targets dsts)

/-- The constraints from `x` hold of its present set. -/
structure Settled (s : State) (x : Node) : Prop where
  gep : ∀ e ∈ gepsOf P x, ∀ o ∈ s.pts x, ∃ f, fieldNode P s o e.2 = some f ∧ Includes s e.1 {f}
  load : ∀ d ∈ loadsOf P x, ∀ o ∈ s.pts x, (o, d) ∈ s.edges
  load_top : loadsOf P x ≠ [] → top ∈ s.pts x → top ∈ s.pts top
  store : ∀ v ∈ storesOf P x, ∀ o ∈ s.pts x, (v, o) ∈ s.edges
  flow : ∀ d, (x, d) ∈ s.edges → Includes s d (s.pts x)

/-- The invariant while the nodes of `E` are being processed. -/
structure Inv (E : Node → Prop) (s : State) : Prop where
  wf : Wf P s
  settled : ∀ x, x ∉ s.work → ¬E x → Settled P s x
  addr : ∀ c ∈ P.addr, Includes s (.given c.1) {.given c.2}
  copy : ∀ c ∈ P.copy, (Node.given c.2, Node.given c.1) ∈ s.edges
  poisoned : ∀ o ∈ s.poisoned, top ∈ s.pts o ∧ ∀ off c, lookup P s o off = some c → top ∈ s.pts c
  saturated : ∀ x ∈ s.saturated, s.pts x = {top}

/-- What a part of a step leaves as it is. -/
structure Le (s s' : State) : Prop where
  created : s.created ⊆ s'.created
  full : full P s → s'.created = s.created
  poisoned : s'.poisoned = s.poisoned
  saturated : s.saturated ⊆ s'.saturated
  edges : s.edges ⊆ s'.edges
  work : s.work ⊆ s'.work
  pts : ∀ x, x ∈ s'.saturated ∨ s.pts x ⊆ s'.pts x
  quiet : ∀ x, Allocated P s x → x ∉ s'.work → s'.pts x = s.pts x

variable {P} {E : Node → Prop} {s s' s'' : State}

theorem full_mono (hc : s.created ⊆ s'.created) (h : full P s) : full P s' :=
  Nat.le_trans h (Nat.add_le_add_left (Finset.card_le_card hc) _)

theorem Le.refl (s : State) : Le P s s :=
  ⟨fun _ h => h, fun _ => rfl, rfl, fun _ h => h, fun _ h => h, fun _ h => h, fun _ => .inr fun _ h => h,
    fun _ _ _ => rfl⟩

theorem Le.trans (h : Le P s s') (h' : Le P s' s'') : Le P s s'' := by
  refine ⟨h.created.trans h'.created, fun hf => ?_, h'.poisoned.trans h.poisoned,
    h.saturated.trans h'.saturated, h.edges.trans h'.edges, h.work.trans h'.work, fun x => ?_,
    fun x hx hw => ?_⟩
  · exact (h'.full (full_mono h.created hf)).trans (h.full hf)
  · rcases h.pts x with hx | hx
    · exact .inl (h'.saturated hx)
    · exact (h'.pts x).imp_right hx.trans
  · rw [h'.quiet x (hx.mono h.created) hw]
    exact h.quiet x hx fun hw' => hw (h'.work hw')

theorem Includes.mono {d : Node} {A : Finset Node} (h : Includes s d A) (hle : Le P s s') :
    Includes s' d A := by
  rcases h with h | h
  · exact .inl (hle.saturated h)
  · exact (hle.pts d).imp_right h.trans

theorem lookup_mono (hc : s.created ⊆ s'.created) {o c : Node} {off : Nat}
    (h : lookup P s o off = some c) : lookup P s' o off = some c := by
  rw [lookup] at h ⊢
  split at h
  · exact h
  · split at h
    · next hmem =>
      rw [if_pos (hc hmem)]
      exact h
    · exact absurd h (by simp)

theorem fieldNode_mono (hle : Le P s s') {o f : Node} {off : Nat}
    (h : fieldNode P s o off = some f) : fieldNode P s' o off = some f := by
  rw [fieldNode] at h ⊢
  split
  · next htop => rwa [if_pos htop] at h
  · next htop =>
    rw [if_neg htop] at h
    split
    · next hoff => rwa [if_pos hoff] at h
    · next hoff =>
      rw [if_neg hoff] at h
      cases hl : lookup P s o off with
      | some c =>
        rw [hl] at h
        rw [lookup_mono hle.created hl]
        exact h
      | none =>
        -- The field was given up because the budget was used up, so that no cell came after.
        rw [hl] at h
        by_cases hf : full P s
        · have hl' : lookup P s' o off = none := by
            rw [lookup, hle.full hf]
            exact hl
          rw [if_pos hf] at h
          simp only [hl', if_pos (full_mono hle.created hf)]
          exact h
        · rw [if_neg hf] at h
          exact absurd h (by simp)

theorem top_mem_mono (hle : Le P s s') (hsat : ∀ x ∈ s'.saturated, s'.pts x = {top}) {x : Node}
    (h : top ∈ s.pts x) : top ∈ s'.pts x := by
  rcases hle.pts x with hx | hx
  · rw [hsat x hx]
    exact Finset.mem_singleton_self _
  · exact hx h

theorem Settled.mono {x : Node} (h : Settled P s x) (hle : Le P s s')
    (hsat : ∀ x ∈ s'.saturated, s'.pts x = {top}) (hq : s'.pts x = s.pts x)
    (hnew : ∀ d, (x, d) ∈ s'.edges → (x, d) ∈ s.edges ∨ Includes s' d (s'.pts x)) :
    Settled P s' x := by
  refine ⟨fun e he o ho => ?_, fun d hd o ho => ?_, fun hl ht => ?_, fun v hv o ho => ?_,
    fun d hd => ?_⟩
  · obtain ⟨f, hf, hin⟩ := h.gep e he o (hq ▸ ho)
    exact ⟨f, fieldNode_mono hle hf, hin.mono hle⟩
  · exact hle.edges (h.load d hd o (hq ▸ ho))
  · exact top_mem_mono hle hsat (h.load_top hl (hq ▸ ht))
  · exact hle.edges (h.store v hv o (hq ▸ ho))
  · rcases hnew d hd with hd | hd
    · rw [hq]
      exact (h.flow d hd).mono hle
    · exact hd

theorem settled_of_not_allocated {x : Node} (hx : ¬Allocated P s x)
    (hflow : ∀ d, (x, d) ∈ s'.edges → Includes s' d (s'.pts x)) : Settled P s' x := by
  have hgeps : gepsOf P x = [] := by
    rw [gepsOf, List.map_eq_nil_iff, List.filter_eq_nil_iff]
    intro c hc heq
    exact hx (of_decide_eq_true heq ▸ (P.gep_lt c hc).2)
  have hloads : loadsOf P x = [] := by
    rw [loadsOf, List.map_eq_nil_iff, List.filter_eq_nil_iff]
    intro c hc heq
    exact hx (of_decide_eq_true heq ▸ (P.load_lt c hc).2)
  have hstores : storesOf P x = [] := by
    rw [storesOf, List.map_eq_nil_iff, List.filter_eq_nil_iff]
    intro c hc heq
    exact hx (of_decide_eq_true heq ▸ (P.store_lt c hc).2)
  refine ⟨fun e he => ?_, fun d hd => ?_, fun hl => absurd hloads hl, fun v hv => ?_, hflow⟩
  · rw [hgeps] at he
    exact absurd he List.not_mem_nil
  · rw [hloads] at hd
    exact absurd hd List.not_mem_nil
  · rw [hstores] at hv
    exact absurd hv List.not_mem_nil

/-- **One part of a step.** New edges must be satisfied at once, and new cells of poisoned objects must
    point to TOP; everything else follows from what the part leaves alone. -/
theorem Inv.le (h : Inv P E s) (hle : Le P s s') (hwf : Wf P s')
    (hsat : ∀ x ∈ s'.saturated, s'.pts x = {top})
    (hnew : ∀ x d, (x, d) ∈ s'.edges → (x, d) ∈ s.edges ∨ Includes s' d (s'.pts x))
    (hcell : ∀ o ∈ s.poisoned, ∀ off c, lookup P s' o off = some c →
      lookup P s o off = some c ∨ top ∈ s'.pts c) : Inv P E s' := by
  refine ⟨hwf, fun x hw hx => ?_, fun c hc => (h.addr c hc).mono hle, fun c hc => hle.edges (h.copy c hc),
    fun o ho => ?_, hsat⟩
  · by_cases ha : Allocated P s x
    · have hs := h.settled x (fun hw' => hw (hle.work hw')) hx
      exact hs.mono hle hsat (hle.quiet x ha hw) (hnew x)
    · refine settled_of_not_allocated ha fun d hd => (hnew x d hd).resolve_left fun hd => ?_
      exact ha (h.wf.edges _ hd).1
  · rw [hle.poisoned] at ho
    obtain ⟨htop, hcells⟩ := h.poisoned o ho
    refine ⟨top_mem_mono hle hsat htop, fun off c hc => ?_⟩
    rcases hcell o ho off c hc with hc | hc
    · exact top_mem_mono hle hsat (hcells off c hc)
    · exact hc

/-! ## The parts keep the invariant -/

theorem Grown.le {dst : Node} {new : Finset Node} (h : Grown s dst new s') : Le P s s' := by
  refine ⟨h.created.ge, fun _ => h.created, h.poisoned, h.saturated, h.edges.ge, ?_, h.pts,
    fun x _ hx => ?_⟩
  · rw [h.work]
    exact Finset.subset_insert _ _
  · rw [h.work] at hx
    exact h.other x fun heq => hx (heq ▸ Finset.mem_insert_self _ _)

theorem grow_le (s : State) (dst : Node) (new : Finset Node) : Le P s (grow s dst new) := by
  rcases grow_cases s dst new with ⟨heq, -⟩ | h
  · rw [heq]
    exact .refl s
  · exact h.le

theorem grow_includes (s : State) (dst : Node) (new : Finset Node) :
    Includes (grow s dst new) dst new := by
  rcases grow_cases s dst new with ⟨heq, hin⟩ | h
  · rw [heq]
    exact hin
  · rcases h.dst with ⟨-, hp⟩ | ⟨hs, -⟩
    · exact .inr (hp ▸ Finset.subset_union_right)
    · exact .inl (hs ▸ Finset.mem_insert_self _ _)

theorem grow_edges (s : State) (dst : Node) (new : Finset Node) :
    (grow s dst new).edges = s.edges := by
  rcases grow_cases s dst new with ⟨heq, -⟩ | h
  · rw [heq]
  · exact h.edges

theorem grow_created (s : State) (dst : Node) (new : Finset Node) :
    (grow s dst new).created = s.created := by
  rcases grow_cases s dst new with ⟨heq, -⟩ | h
  · rw [heq]
  · exact h.created

theorem grow_saturated (hsat : ∀ x ∈ s.saturated, s.pts x = {top}) (dst : Node) (new : Finset Node) :
    ∀ x ∈ (grow s dst new).saturated, (grow s dst new).pts x = {top} := by
  rcases grow_cases s dst new with ⟨heq, -⟩ | h
  · rw [heq]
    exact hsat
  · intro x hx
    by_cases hxd : x = dst
    · subst hxd
      rcases h.dst with ⟨hs, -⟩ | ⟨-, hp, -⟩
      · exact absurd (hs ▸ hx) h.unsaturated
      · exact hp
    · rw [h.other x hxd]
      apply hsat
      rcases h.dst with ⟨hs, -⟩ | ⟨hs, -⟩
      · rwa [hs] at hx
      · rw [hs] at hx
        exact Finset.mem_of_mem_insert_of_ne hx hxd

theorem Inv.grow (h : Inv P E s) {dst : Node} {new : Finset Node} (hd : Allocated P s dst)
    (hn : ∀ o ∈ new, Allocated P s o) : Inv P E (grow s dst new) := by
  refine h.le (grow_le s dst new) (grow_after h.wf hd hn).wf (grow_saturated h.saturated dst new)
    (fun x d hx => ?_) fun o _ off c hc => ?_
  · rw [grow_edges] at hx
    exact .inl hx
  · rw [lookup, grow_created] at hc
    exact .inl hc

theorem Inv.link (h : Inv P E s) {src dst : Node} (hs : Allocated P s src) (hd : Allocated P s dst) :
    Inv P E (union { s with edges := insert (src, dst) s.edges } dst src) ∧
      Le P s (union { s with edges := insert (src, dst) s.edges } dst src) := by
  have hlink : Le P s { s with edges := insert (src, dst) s.edges } :=
    ⟨fun _ h => h, fun _ => rfl, rfl, fun _ h => h, Finset.subset_insert _ _, fun _ h => h,
      fun _ => .inr fun _ h => h, fun _ _ _ => rfl⟩
  have hle := hlink.trans (grow_le _ dst (s.pts src))
  have hsat := @grow_saturated { s with edges := insert (src, dst) s.edges } h.saturated dst (s.pts src)
  refine ⟨h.le hle (link_after ⟨h.wf, .refl⟩ hs hd).wf hsat
    (fun x d hx => ?_) fun o _ off c hc => ?_, hle⟩
  · rw [union, grow_edges] at hx
    rcases Finset.mem_insert.mp hx with heq | hx
    · obtain ⟨rfl, rfl⟩ := Prod.mk.inj heq
      refine .inr ?_
      -- What flowed is what the source held before; that is what it holds after, unless it is the
      -- destination itself.
      rcases grow_cases { s with edges := insert (x, d) s.edges } d (s.pts x) with ⟨heq, hin⟩ | hg
      · rw [union, heq]
        exact hin
      · by_cases hxd : x = d
        · subst hxd
          exact .inr fun _ h => h
        · rw [union, hg.other x hxd]
          exact grow_includes _ _ _
    · exact .inl hx
  · rw [union, lookup, grow_created] at hc
    exact .inl hc

theorem lookup_created {o : Node} {off : Nat} (hg : givenCell P o off = none)
    (hc : (o, off) ∈ s.created) : lookup P s o off = some (.cell o off) := by
  rw [lookup, hg]
  exact if_pos hc

theorem lookup_insert {o o' c : Node} {off off' : Nat} {pts : Node → Finset Node}
    (h : lookup P { s with created := insert (o, off) s.created, pts := pts } o' off' = some c) :
    lookup P s o' off' = some c ∨ o' = o ∧ off' = off ∧ c = .cell o off := by
  rw [lookup] at h ⊢
  split at h
  · exact .inl h
  · split at h
    · next hmem =>
      rcases Finset.mem_insert.mp hmem with heq | hmem
      · obtain ⟨rfl, rfl⟩ := Prod.mk.inj heq
        exact .inr ⟨rfl, rfl, (Option.some.inj h).symm⟩
      · rw [if_pos hmem]
        exact .inl h
    · exact absurd h (by simp)

/-- Creating a cell. The cell of a poisoned object points to TOP without being queued, which is right:
    nothing refers to it yet. -/
theorem Inv.create (h : Inv P E s) {o : Node} {off : Nat} (hnew : (o, off) ∉ s.created)
    (hfull : ¬full P s) {pts : Node → Finset Node}
    (hpts : pts = if o ∈ s.poisoned
      then Function.update s.pts (.cell o off) (insert top (s.pts (.cell o off))) else s.pts) :
    Inv P E { s with created := insert (o, off) s.created, pts := pts } ∧
      Le P s { s with created := insert (o, off) s.created, pts := pts } := by
  have hself : o ∈ s.poisoned → top ∈ pts (.cell o off) := by
    intro ho
    rw [hpts, if_pos ho, Function.update_self]
    exact Finset.mem_insert_self _ _
  have hother {x : Node} (hx : x ≠ .cell o off) : pts x = s.pts x := by
    rw [hpts]
    split
    · exact Function.update_of_ne hx _ _
    · rfl
  have hsub (x : Node) : s.pts x ⊆ pts x := by
    rw [hpts]
    split
    · rw [Function.update_apply]
      split
      · next heq => exact heq ▸ Finset.subset_insert _ _
      · exact fun _ h => h
    · exact fun _ h => h
  have hempty : s.pts (.cell o off) = ∅ :=
    Finset.eq_empty_of_forall_notMem fun y hy => hnew (h.wf.targets _ y hy).1
  have hle : Le P s { s with created := insert (o, off) s.created, pts := pts } := by
    refine ⟨Finset.subset_insert _ _, fun hf => absurd hf hfull, rfl, fun _ h => h, fun _ h => h,
      fun _ h => h, fun x => .inr (hsub x), fun x hx _ => hother fun heq => ?_⟩
    subst heq
    exact hnew hx
  refine ⟨h.le hle (created_after h.wf hnew hfull _ fun x y hy => ?_).wf (fun x hx => ?_)
    (fun x d hx => .inl hx) fun o' ho' off' c hc => ?_, hle⟩
  · by_cases hx : x = .cell o off
    · subst hx
      rw [hpts] at hy
      split at hy
      · rw [Function.update_self] at hy
        exact (Finset.mem_insert.mp hy).symm.imp_right fun h => ⟨rfl, h⟩
      · exact .inl hy
    · rw [hother hx] at hy
      exact .inl hy
  · have hxs := h.saturated x hx
    rw [← hxs]
    exact hother fun heq => by simp [heq, hempty] at hxs
  · rcases lookup_insert hc with hc | ⟨rfl, rfl, rfl⟩
    · exact .inl hc
    · exact .inr (hself ho')

theorem Inv.internField (h : Inv P E s) {o : Node} {off : Nat}
    (hcalm : off = anyOffset → o = top ∨ o ∈ s.poisoned) :
    Inv P E (internField P s o off).2 ∧ Le P s (internField P s o off).2 ∧
      fieldNode P (internField P s o off).2 o off = some (internField P s o off).1 := by
  rw [PointsTo.internField]
  split
  · next htop => exact ⟨h, .refl s, by rw [fieldNode, if_pos (.inl htop)]⟩
  next htop =>
  split
  · next hany =>
    have hp : poison P s o = s := by rw [poison, if_pos (hcalm hany)]
    rw [hp]
    exact ⟨h, .refl s, by rw [fieldNode, if_pos (.inr hany)]⟩
  next hany =>
  split
  · next hzero =>
    refine ⟨h, .refl s, ?_⟩
    rw [fieldNode, if_neg (not_or.mpr ⟨htop, hany⟩), if_pos hzero]
  next hzero =>
  have hfield (t : State) : fieldNode P t o off =
      match lookup P t o off with
      | some c => some c
      | none => if full P t then some top else none := by
    rw [fieldNode, if_neg (not_or.mpr ⟨htop, hany⟩), if_neg hzero]
  split
  · next c hc =>
    refine ⟨h, .refl s, ?_⟩
    rw [hfield, hc]
  · next hnone =>
    split
    · next hf =>
      refine ⟨h, .refl s, ?_⟩
      rw [hfield, hnone]
      exact if_pos hf
    · next hfull =>
      have hgiven : givenCell P o off = none := by
        rw [lookup] at hnone
        split at hnone
        · exact absurd hnone (by simp)
        · assumption
      have hnew : (o, off) ∉ s.created := by
        intro hc
        rw [lookup_created hgiven hc] at hnone
        exact absurd hnone (by simp)
      obtain ⟨hinv, hle⟩ := h.create hnew hfull rfl
      refine ⟨hinv, hle, ?_⟩
      rw [hfield, lookup_created hgiven (Finset.mem_insert_self _ _)]

/-- The field of `o` is in the set of `dst`. -/
def FieldIn (P : Constraints) (dst : Node) (off : Nat) (o : Node) (s : State) : Prop :=
  ∃ f, fieldNode P s o off = some f ∧ Includes s dst {f}

theorem FieldIn.mono {dst o : Node} {off : Nat} (h : FieldIn P dst off o s) (hle : Le P s s') :
    FieldIn P dst off o s' := by
  obtain ⟨f, hf, hin⟩ := h
  exact ⟨f, fieldNode_mono hle hf, hin.mono hle⟩

theorem Inv.gepStep (h : Inv P E s) {dst o : Node} {off : Nat} (hd : Allocated P s dst)
    (ho : Allocated P s o) (hcalm : off = anyOffset → o = top ∨ o ∈ s.poisoned) :
    Inv P E (gepStep P dst off s o) ∧ Le P s (gepStep P dst off s o) ∧
      FieldIn P dst off o (gepStep P dst off s o) := by
  obtain ⟨hinv, hle, hfield⟩ := h.internField hcalm
  have hc := (internField_after h.wf ho off).2
  have hgrow := grow_le (P := P) (PointsTo.internField P s o off).2 dst
    {(PointsTo.internField P s o off).1}
  refine ⟨hinv.grow (hd.mono hle.created) fun c hc' => ?_, hle.trans hgrow, _,
    fieldNode_mono hgrow hfield, grow_includes _ _ _⟩
  rw [Finset.mem_singleton.mp hc']
  exact hc

theorem Inv.loadStep (h : Inv P E s) {dst o : Node} (hd : Allocated P s dst) (ho : Allocated P s o) :
    Inv P E (loadStep dst s o) ∧ Le P s (loadStep dst s o) ∧ (o, dst) ∈ (loadStep dst s o).edges := by
  rw [PointsTo.loadStep]
  split
  · next hmem => exact ⟨h, .refl s, hmem⟩
  · obtain ⟨hinv, hle⟩ := h.link ho hd
    refine ⟨hinv, hle, ?_⟩
    rw [union, grow_edges]
    exact Finset.mem_insert_self _ _

theorem Inv.storeStep (h : Inv P E s) {v o : Node} (hv : Allocated P s v) (ho : Allocated P s o) :
    Inv P E (storeStep v s o) ∧ Le P s (storeStep v s o) ∧ (v, o) ∈ (storeStep v s o).edges := by
  rw [PointsTo.storeStep]
  split
  · next hmem => exact ⟨h, .refl s, hmem⟩
  · obtain ⟨hinv, hle⟩ := h.link hv ho
    refine ⟨hinv, hle, ?_⟩
    rw [union, grow_edges]
    exact Finset.mem_insert_self _ _

/-- A loop whose passes keep `I`, go up in `R`, and each establish `Q` of their item for good. -/
theorem foldl_each {α σ : Type*} {I : σ → Prop} {R : σ → σ → Prop} {Q : α → σ → Prop} {g : σ → α → σ}
    (hrefl : ∀ s, R s s) (htrans : ∀ {a b c}, R a b → R b c → R a c)
    (hmono : ∀ {a s s'}, Q a s → R s s' → Q a s') (l : List α)
    (hstep : ∀ s, I s → ∀ a ∈ l, I (g s a) ∧ R s (g s a) ∧ Q a (g s a)) :
    ∀ {s}, I s → I (l.foldl g s) ∧ R s (l.foldl g s) ∧ ∀ a ∈ l, Q a (l.foldl g s) := by
  induction l with
  | nil => exact fun {s} hs => ⟨hs, hrefl s, fun a ha => absurd ha List.not_mem_nil⟩
  | cons b l ih =>
    intro s hs
    obtain ⟨hi, hr, hq⟩ := hstep s hs b List.mem_cons_self
    obtain ⟨hi', hr', hq'⟩ := ih (fun s hs a ha => hstep s hs a (List.mem_cons_of_mem b ha)) hi
    refine ⟨hi', htrans hr hr', fun a ha => ?_⟩
    rcases List.mem_cons.mp ha with rfl | ha
    · exact hmono hq hr'
    · exact hq' a ha

/-! ## A whole step keeps the invariant -/

theorem Inv.popped (h : Inv P (fun _ => False) s) (n : Node) : Inv P (· = n) (popped s n) := by
  refine ⟨h.wf.popped n, fun x hw hx => ?_, h.addr, h.copy, h.poisoned, h.saturated⟩
  have hs := h.settled x (fun hw' => hw (Finset.mem_erase.mpr ⟨hx, hw'⟩)) id
  exact ⟨hs.gep, hs.load, hs.load_top, hs.store, hs.flow⟩

/-- A state while `n` is being processed, after `s`. -/
structure During (P : Constraints) (s : State) (n : Node) (t : State) : Prop where
  inv : Inv P (· = n) t
  le : Le P s t

theorem During.foldl {α : Type*} {n : Node} {Q : α → State → Prop} {g : State → α → State}
    (hmono : ∀ {a t t'}, Q a t → Le P t t' → Q a t') (l : List α)
    (hstep : ∀ t, During P s n t → ∀ a ∈ l, Inv P (· = n) (g t a) ∧ Le P t (g t a) ∧ Q a (g t a))
    {t : State} (h : During P s n t) :
    During P s n (l.foldl g t) ∧ Le P t (l.foldl g t) ∧ ∀ a ∈ l, Q a (l.foldl g t) := by
  refine foldl_each (I := During P s n) (Q := Q) Le.refl Le.trans hmono l (fun t ht a ha => ?_) h
  obtain ⟨hinv, hle, hq⟩ := hstep t ht a ha
  exact ⟨⟨hinv, ht.le.trans hle⟩, hle, hq⟩

theorem constrain_spec (h : Inv P (fun _ => False) s) {n : Node} {targets : List Node}
    (ht : targets.toFinset = s.pts n) (hok : StepOk P s n) :
    During P (popped s n) n (constrain P s n targets) ∧
      (∀ e ∈ gepsOf P n, ∀ o ∈ targets, FieldIn P e.1 e.2 o (constrain P s n targets)) ∧
      (∀ d ∈ loadsOf P n, ∀ o ∈ targets, (o, d) ∈ (constrain P s n targets).edges) ∧
      ∀ v ∈ storesOf P n, ∀ o ∈ targets, (v, o) ∈ (constrain P s n targets).edges := by
  have hmem {o : Node} (ho : o ∈ targets) : o ∈ s.pts n := ht ▸ List.mem_toFinset.mpr ho
  have hobj {o : Node} (ho : o ∈ targets) {t : State} (h' : During P (popped s n) n t) : Allocated P t o :=
    Allocated.mono (h.wf.targets n o (hmem ho)).2 h'.le.created
  have hgep := During.foldl (P := P) (s := popped s n) (n := n)
    (Q := fun (e : Node × Nat) t => ∀ o ∈ targets, FieldIn P e.1 e.2 o t)
    (g := fun t e => targets.foldl (gepStep P e.1 e.2) t)
    (fun hq hle o ho => (hq o ho).mono hle) (gepsOf P n) (fun t h₁ e he => by
      obtain ⟨h₂, hle, hq⟩ := During.foldl (Q := FieldIn P e.1 e.2) (g := gepStep P e.1 e.2)
        FieldIn.mono targets (fun t h₂ o ho => h₂.inv.gepStep (gepsOf_allocated he) (hobj ho h₂)
          fun hany => by
            rw [h₂.le.poisoned]
            exact hok.gep e he hany o (hmem ho)) h₁
      exact ⟨h₂.inv, hle, hq⟩) ⟨h.popped n, .refl _⟩
  obtain ⟨hg, -, hfields⟩ := hgep
  have hload := During.foldl (P := P) (s := popped s n) (n := n)
    (Q := fun d t => ∀ o ∈ targets, (o, d) ∈ t.edges)
    (g := fun t d => targets.foldl (loadStep d) t)
    (fun hq hle o ho => hle.edges (hq o ho)) (loadsOf P n) (fun t h₁ d hd => by
      obtain ⟨h₂, hle, hq⟩ := During.foldl (Q := fun o t => (o, d) ∈ t.edges) (g := loadStep d)
        (fun hq hle => hle.edges hq) targets
        (fun t h₂ o ho => h₂.inv.loadStep (loadsOf_allocated hd) (hobj ho h₂)) h₁
      exact ⟨h₂.inv, hle, hq⟩) hg
  obtain ⟨hl, hle, hloads⟩ := hload
  have hstore := During.foldl (P := P) (s := popped s n) (n := n)
    (Q := fun v t => ∀ o ∈ targets, (v, o) ∈ t.edges)
    (g := fun t v => targets.foldl (storeStep v) t)
    (fun hq hle o ho => hle.edges (hq o ho)) (storesOf P n) (fun t h₁ v hv => by
      obtain ⟨h₂, hle, hq⟩ := During.foldl (Q := fun o t => (v, o) ∈ t.edges) (g := storeStep v)
        (fun hq hle => hle.edges hq) targets
        (fun t h₂ o ho => h₂.inv.storeStep (storesOf_allocated hv) (hobj ho h₂)) h₁
      exact ⟨h₂.inv, hle, hq⟩) hl
  obtain ⟨hs, hle', hstores⟩ := hstore
  refine ⟨hs, fun e he o ho => ((hfields e he o ho).mono hle).mono hle', fun d hd o ho => ?_, hstores⟩
  exact hle'.edges (hloads d hd o ho)

theorem copies_edges (n : Node) (dsts : List Node) (t : State) :
    (dsts.foldl (copyStep n) t).edges = t.edges := by
  induction dsts generalizing t with
  | nil => rfl
  | cons d dsts ih =>
    rw [List.foldl_cons, ih]
    exact grow_edges _ _ _

/-- **A step keeps the invariant**: the item is settled, unless it has been queued again. -/
theorem Inv.process (h : Inv P (fun _ => False) s) {n : Node} {targets dsts : List Node}
    (ht : targets.toFinset = s.pts n)
    (hd : ∀ d, d ∈ dsts ↔ (n, d) ∈ (constrain P s n targets).edges) (hok : StepOk P s n)
    (hn : n ∈ s.work) : Inv P (fun _ => False) (process P s n targets dsts) := by
  have hal : Allocated P (PointsTo.popped s n) n := h.wf.work n hn
  obtain ⟨hc, hgeps, hloads, hstores⟩ := constrain_spec h ht hok
  obtain ⟨hp, hle, hcopies⟩ := During.foldl (P := P) (s := constrain P s n targets) (n := n)
    (Q := fun d t => n ∈ t.work ∨ Includes t d (s.pts n)) (g := copyStep n)
    (fun hq hle => hq.imp (fun hw => hle.work hw) fun hin => hin.mono hle) dsts (fun t h₁ d hd' => by
      have hdst : Allocated P t d :=
        Allocated.mono (hc.inv.wf.edges _ ((hd d).mp hd')).2 h₁.le.created
      refine ⟨h₁.inv.grow hdst fun o ho => (h₁.inv.wf.targets n o ho).2, grow_le t d _, ?_⟩
      by_cases hw : n ∈ t.work
      · exact .inl ((grow_le (P := P) t d _).work hw)
      · refine .inr ?_
        rw [show s.pts n = t.pts n from ((hc.le.trans h₁.le).quiet n hal hw).symm]
        exact grow_includes t d _) ⟨hc.inv, .refl _⟩
  have hedges : (PointsTo.process P s n targets dsts).edges = (constrain P s n targets).edges :=
    copies_edges n dsts _
  refine ⟨hp.inv.wf, fun x hw _ => ?_, hp.inv.addr, hp.inv.copy, hp.inv.poisoned, hp.inv.saturated⟩
  by_cases hx : x = n
  · subst hx
    have hq : (PointsTo.process P s x targets dsts).pts x = s.pts x :=
      (hc.le.trans hle).quiet x hal hw
    have hmem {o : Node} (ho : o ∈ (PointsTo.process P s x targets dsts).pts x) : o ∈ targets := by
      rw [hq, ← ht] at ho
      exact List.mem_toFinset.mp ho
    refine ⟨fun e he o ho => (hgeps e he o (hmem ho)).mono hle,
      fun d hd' o ho => hle.edges (hloads d hd' o (hmem ho)), fun hl htop => ?_,
      fun v hv o ho => hle.edges (hstores v hv o (hmem ho)), fun d hd' => ?_⟩
    · exact top_mem_mono (hc.le.trans hle) hp.inv.saturated (hok.load hl (hq ▸ htop))
    · rw [hq]
      exact (hcopies d ((hd d).mpr (hedges ▸ hd'))).resolve_left hw
  · exact hp.inv.settled x hw hx

/-! ## Runs -/

theorem lookup_of_created_empty (hc : s.created = ∅) (o : Node) (off : Nat) :
    lookup P s o off = givenCell P o off := by
  rw [lookup, hc]
  cases givenCell P o off <;> simp

theorem initial_poisoned {o : Node} (ho : o ∈ (initial P).poisoned) :
    top ∈ (initial P).pts o ∧ ∀ off c, givenCell P o off = some c → top ∈ (initial P).pts c := by
  obtain ⟨p, hp, rfl⟩ := List.mem_map.mp (List.mem_toFinset.mp ho)
  obtain ⟨hp, hne⟩ := List.mem_filter.mp hp
  have hany {x : Node} (hx : (decide (x = .given p) ||
      P.fieldCell.any fun c => decide (c.1.1 = p) && decide (x = .given c.2)) = true) :
      top ∈ (initial P).pts x := by
    have hall : P.poisoned.any (fun o => decide (o ≠ 0) && (decide (x = .given o) ||
        P.fieldCell.any fun c => decide (c.1.1 = o) && decide (x = .given c.2))) = true := by
      refine List.any_eq_true.mpr ⟨p, hp, ?_⟩
      rw [Bool.and_eq_true_iff]
      exact ⟨hne, hx⟩
    simp only [initial]
    rw [if_pos hall]
    exact Finset.mem_singleton_self _
  refine ⟨hany (by simp), fun off c hc => hany ?_⟩
  obtain ⟨e, he, rfl⟩ := Option.map_eq_some_iff.mp hc
  have hkey := List.find?_some he
  rw [Bool.and_eq_true_iff, decide_eq_true_iff, decide_eq_true_iff] at hkey
  rw [Bool.or_eq_true_iff]
  refine .inr (List.any_eq_true.mpr ⟨e, List.mem_of_find?_eq_some he, ?_⟩)
  simpa using Node.given.inj hkey.1

variable (P) in
theorem seeded_spec : Le P (initial P) (seeded P) ∧ (seeded P).created = ∅ ∧
    (∀ x ∈ (seeded P).saturated, (seeded P).pts x = {top}) ∧
    ∀ c ∈ P.addr, Includes (seeded P) (.given c.1) {.given c.2} := by
  have h := foldl_each (I := fun t : State => t.created = ∅ ∧ ∀ x ∈ t.saturated, t.pts x = {top})
    (R := Le P) (Q := fun (c : Nat × Nat) t => Includes t (.given c.1) {Node.given c.2})
    (g := fun t c => add t (.given c.1) (.given c.2)) (s := initial P)
    Le.refl Le.trans (fun hq hle => hq.mono hle) P.addr
    (fun t ht c _ => ⟨⟨(grow_created _ _ _).trans ht.1, grow_saturated ht.2 _ _⟩, grow_le _ _ _,
      grow_includes _ _ _⟩) ⟨rfl, fun x hx => absurd hx (Finset.notMem_empty x)⟩
  exact ⟨h.2.1, h.1.1, h.1.2, h.2.2⟩

variable (P) in
theorem start_inv : Inv P (fun _ => False) (start P) := by
  obtain ⟨hle, hcreated, hsat, haddr⟩ := seeded_spec P
  refine ⟨start_wf P, fun x hw _ => ?_, haddr, fun c hc => hle.edges ?_, fun o ho => ?_, hsat⟩
  · have hempty : (start P).pts x = ∅ := by
      by_contra hne
      obtain ⟨y, hy⟩ := Finset.nonempty_iff_ne_empty.mpr hne
      refine hw (Finset.mem_union_right _ (Finset.mem_filter.mpr ⟨?_, hne⟩))
      have hx : Allocated P (seeded P) x := ((start_wf P).targets x y hy).1
      cases x with
      | given n => exact Finset.mem_image_of_mem _ (Finset.mem_range.mpr hx)
      | cell o off =>
        rw [Allocated, hcreated] at hx
        exact absurd hx (Finset.notMem_empty _)
    refine ⟨fun e _ o ho => ?_, fun d _ o ho => ?_, fun _ ho => ?_, fun v _ o ho => ?_, fun d _ => .inr ?_⟩
    all_goals first
      | rw [hempty]; exact Finset.empty_subset _
      | rw [hempty] at ho; exact absurd ho (Finset.notMem_empty _)
  · exact List.mem_toFinset.mpr (List.mem_map_of_mem hc)
  · have ho' : o ∈ (initial P).poisoned := hle.poisoned ▸ ho
    obtain ⟨htop, hcells⟩ := initial_poisoned ho'
    refine ⟨top_mem_mono hle hsat htop, fun off c hc => top_mem_mono hle hsat (hcells off c ?_)⟩
    rw [← lookup_of_created_empty hcreated]
    exact hc

theorem CalmRun.inv (h : CalmRun P s) : Inv P (fun _ => False) s := by
  induction h with
  | start => exact start_inv P
  | item _ hn ht hd hok ih => exact ih.process ht hd hok hn

theorem mem_gepsOf {c : Nat × Nat × Nat} (hc : c ∈ P.gep) :
    (Node.given c.1, c.2.2) ∈ gepsOf P (.given c.2.1) :=
  List.mem_map.mpr ⟨c, List.mem_filter.mpr ⟨hc, by simp⟩, rfl⟩

theorem mem_loadsOf {c : Nat × Nat} (hc : c ∈ P.load) : Node.given c.1 ∈ loadsOf P (.given c.2) :=
  List.mem_map.mpr ⟨c, List.mem_filter.mpr ⟨hc, by simp⟩, rfl⟩

theorem mem_storesOf {c : Nat × Nat} (hc : c ∈ P.store) : Node.given c.1 ∈ storesOf P (.given c.2) :=
  List.mem_map.mpr ⟨c, List.mem_filter.mpr ⟨hc, by simp⟩, rfl⟩

theorem Inv.closed (h : Inv P (fun _ => False) s) (hw : s.work = ∅) : Closed P s := by
  have hset (x : Node) : Settled P s x := h.settled x (hw ▸ Finset.notMem_empty x) id
  refine ⟨h.addr, fun c hc => (hset _).flow _ (h.copy c hc),
    fun c hc o ho => (hset _).gep _ (mem_gepsOf hc) o ho,
    fun c hc o ho => (hset o).flow _ ((hset _).load _ (mem_loadsOf hc) o ho), fun c hc ht => ?_,
    fun c hc o ho => (hset _).flow _ ((hset _).store _ (mem_storesOf hc) o ho), h.poisoned, h.saturated⟩
  have htop := (hset _).load_top (List.ne_nil_of_mem (mem_loadsOf hc)) ht
  have hflow := (hset top).flow _ ((hset _).load _ (mem_loadsOf hc) top ht)
  exact hflow.imp_right fun hsub => (Finset.singleton_subset_iff.mpr htop).trans hsub

/-! ## The least solution

What the constraints force, whatever the order. A run that neither poisons nor collapses a set nor uses
up the budget computes exactly this. -/

variable (P) in
/-- The node of a field when nothing is given up. -/
def field (o : Node) (off : Nat) : Node :=
  if o = top ∨ off = anyOffset then top
  else if off = 0 then o
  else (givenCell P o off).getD (.cell o off)

variable (P) in
inductive Derives : Node → Node → Prop
  | addr {c : Nat × Nat} : c ∈ P.addr → Derives (.given c.1) (.given c.2)
  | poisoned {x : Node} : top ∈ (initial P).pts x → Derives x top
  | cell {c : Nat × Nat × Nat} {o : Node} : c ∈ P.gep → Derives (.given c.2.1) o →
      o ∈ (initial P).poisoned → field P o c.2.2 = .cell o c.2.2 → Derives (.cell o c.2.2) top
  | copy {c : Nat × Nat} {o : Node} : c ∈ P.copy → Derives (.given c.2) o → Derives (.given c.1) o
  | gep {c : Nat × Nat × Nat} {o : Node} : c ∈ P.gep → Derives (.given c.2.1) o →
      Derives (.given c.1) (field P o c.2.2)
  | load {c : Nat × Nat} {o o' : Node} : c ∈ P.load → Derives (.given c.2) o → Derives o o' →
      Derives (.given c.1) o'
  | store {c : Nat × Nat} {o o' : Node} : c ∈ P.store → Derives (.given c.2) o →
      Derives (.given c.1) o' → Derives o o'

variable (P) in
/-- The field of a derived target that needs a cell of its own. -/
def NeedsCell (o : Node) (off : Nat) : Prop :=
  field P o off = .cell o off ∧ ∃ c ∈ P.gep, c.2.2 = off ∧ Derives P (.given c.2.1) o

variable (P) in
/-- No set of the least solution is too large, and its cells fit the budget. -/
structure Small : Prop where
  pts : ∀ x, ∃ A : Finset Node, A.card ≤ maxPtsSet ∧ ∀ o, Derives P x o → o ∈ A
  cells : ∃ C : Finset (Node × Nat), P.nodes + C.card ≤ maxNodes ∧ ∀ o off, NeedsCell P o off → (o, off) ∈ C

/-- Everything in the state is derived. -/
structure Derived (P : Constraints) (s : State) : Prop where
  pts : ∀ x, ∀ o ∈ s.pts x, Derives P x o
  edges : ∀ e ∈ s.edges, ∀ o, Derives P e.1 o → Derives P e.2 o
  created : ∀ c ∈ s.created, NeedsCell P c.1 c.2
  poisoned : s.poisoned = (initial P).poisoned
  saturated : s.saturated = ∅

theorem Derived.grow (h : Derived P s) (hsmall : Small P) {dst : Node} {new : Finset Node}
    (hn : ∀ o ∈ new, Derives P dst o) : Derived P (grow s dst new) := by
  rcases grow_cases s dst new with ⟨heq, -⟩ | hg
  · rw [heq]
    exact h
  · have hall : ∀ o ∈ s.pts dst ∪ new, Derives P dst o := fun o ho =>
      (Finset.mem_union.mp ho).elim (h.pts dst o) (hn o)
    rcases hg.dst with ⟨hs, hp⟩ | ⟨-, -, hcard⟩
    · refine ⟨fun x o ho => ?_, hg.edges ▸ h.edges, hg.created ▸ h.created,
        hg.poisoned.trans h.poisoned, hs.trans h.saturated⟩
      by_cases hx : x = dst
      · subst hx
        exact hall o (hp ▸ ho)
      · rw [hg.other x hx] at ho
        exact h.pts x o ho
    · obtain ⟨A, hA, hsub⟩ := hsmall.pts dst
      have hle : (s.pts dst ∪ new).card ≤ A.card :=
        Finset.card_le_card fun o ho => hsub o (hall o ho)
      exact absurd (Nat.lt_of_lt_of_le hcard (hle.trans hA)) (Nat.lt_irrefl _)

theorem Derived.link (h : Derived P s) (hsmall : Small P) {src dst : Node}
    (hflow : ∀ o, Derives P src o → Derives P dst o) :
    Derived P (union { s with edges := insert (src, dst) s.edges } dst src) := by
  have hlink : Derived P { s with edges := insert (src, dst) s.edges } := by
    refine ⟨h.pts, fun e he => ?_, h.created, h.poisoned, h.saturated⟩
    rcases Finset.mem_insert.mp he with rfl | he
    · exact hflow
    · exact h.edges e he
  exact hlink.grow hsmall fun o ho => hflow o (h.pts src o ho)

theorem Derived.not_full (h : Derived P s) (hsmall : Small P) {o : Node} {off : Nat}
    (hneeds : NeedsCell P o off) (hnew : (o, off) ∉ s.created) : ¬full P s := by
  obtain ⟨C, hC, hcells⟩ := hsmall.cells
  have hsub : insert (o, off) s.created ⊆ C := by
    intro c hc
    rcases Finset.mem_insert.mp hc with rfl | hc
    · exact hcells _ _ hneeds
    · exact hcells _ _ (h.created c hc)
  have hcard := Finset.card_le_card hsub
  rw [Finset.card_insert_of_notMem hnew] at hcard
  rw [full]
  omega

theorem field_of_ne {o : Node} {off : Nat} (ht : ¬(o = top ∨ off = anyOffset)) (h0 : off ≠ 0) :
    field P o off = (givenCell P o off).getD (.cell o off) := by
  rw [field, if_neg ht, if_neg h0]

theorem Derived.internField (h : Derived P s) (hsmall : Small P) {c : Nat × Nat × Nat} (hc : c ∈ P.gep)
    {o : Node} (ho : Derives P (.given c.2.1) o)
    (hcalm : c.2.2 = anyOffset → o = top ∨ o ∈ s.poisoned) :
    Derived P (internField P s o c.2.2).2 ∧ (internField P s o c.2.2).1 = field P o c.2.2 := by
  rw [PointsTo.internField]
  split
  · next htop => exact ⟨h, by rw [field, if_pos (.inl htop)]⟩
  next htop =>
  split
  · next hany =>
    have hp : poison P s o = s := by rw [poison, if_pos (hcalm hany)]
    rw [hp]
    exact ⟨h, by rw [field, if_pos (.inr hany)]⟩
  next hany =>
  split
  · next hzero => exact ⟨h, by rw [field, if_neg (not_or.mpr ⟨htop, hany⟩), if_pos hzero]⟩
  next hzero =>
  have hfield := field_of_ne (P := P) (not_or.mpr ⟨htop, hany⟩) hzero
  rw [lookup]
  cases hg : givenCell P o c.2.2 with
  | some f =>
    rw [hg] at hfield
    exact ⟨h, hfield.symm⟩
  | none =>
    rw [hg] at hfield
    by_cases hcr : (o, c.2.2) ∈ s.created
    · simp only [if_pos hcr]
      exact ⟨h, hfield.symm⟩
    · have hneeds : NeedsCell P o c.2.2 := ⟨hfield, c, hc, rfl, ho⟩
      simp only [if_neg hcr, if_neg (h.not_full hsmall hneeds hcr)]
      refine ⟨⟨fun x y hy => ?_, h.edges, fun e he => ?_, h.poisoned, h.saturated⟩, hfield.symm⟩
      · simp only at hy
        split at hy
        · next hp =>
          by_cases hx : x = .cell o c.2.2
          · subst hx
            rw [Function.update_self] at hy
            rcases Finset.mem_insert.mp hy with rfl | hy
            · exact .cell hc ho (h.poisoned ▸ hp) hfield
            · exact h.pts _ y hy
          · rw [Function.update_of_ne hx] at hy
            exact h.pts x y hy
        · exact h.pts x y hy
      · rcases Finset.mem_insert.mp he with rfl | he
        · exact hneeds
        · exact h.created e he

theorem Derived.process (h : Derived P s) (hsmall : Small P) {n : Node} {targets dsts : List Node}
    (ht : targets.toFinset = s.pts n)
    (hd : ∀ d, d ∈ dsts ↔ (n, d) ∈ (constrain P s n targets).edges) (hok : StepOk P s n) :
    Derived P (process P s n targets dsts) := by
  have hmem {o : Node} (ho : o ∈ targets) : o ∈ s.pts n := ht ▸ List.mem_toFinset.mpr ho
  have hobj {o : Node} (ho : o ∈ targets) : Derives P n o := h.pts n o (hmem ho)
  have hcon : Derived P (constrain P s n targets) := by
    rw [constrain]
    refine List.foldlRecOn (storesOf P n) _ (motive := Derived P) ?_ fun s₁ h₁ v hv =>
      List.foldlRecOn targets _ (motive := Derived P) h₁ fun s₂ h₂ o ho => ?store
    case store =>
      obtain ⟨c, hc, rfl⟩ := List.mem_map.mp hv
      obtain ⟨hc, hn⟩ := List.mem_filter.mp hc
      rw [storeStep]
      split
      · exact h₂
      · exact h₂.link hsmall fun o' ho' => .store hc (of_decide_eq_true hn ▸ hobj ho) ho'
    refine List.foldlRecOn (loadsOf P n) _ (motive := Derived P) ?_ fun s₁ h₁ d hd =>
      List.foldlRecOn targets _ (motive := Derived P) h₁ fun s₂ h₂ o ho => ?load
    case load =>
      obtain ⟨c, hc, rfl⟩ := List.mem_map.mp hd
      obtain ⟨hc, hn⟩ := List.mem_filter.mp hc
      rw [loadStep]
      split
      · exact h₂
      · exact h₂.link hsmall fun o' ho' => .load hc (of_decide_eq_true hn ▸ hobj ho) ho'
    refine List.foldlRecOn (gepsOf P n) _ (motive := Derived P) ⟨h.pts, h.edges, h.created, h.poisoned,
      h.saturated⟩ fun s₁ h₁ e he =>
        List.foldlRecOn targets _ (motive := Derived P) h₁ fun s₂ h₂ o ho => ?_
    have hcalm : e.2 = anyOffset → o = top ∨ o ∈ s₂.poisoned := by
      rw [h₂.poisoned, ← h.poisoned]
      exact fun hany => hok.gep e he hany o (hmem ho)
    obtain ⟨c, hc, rfl⟩ := List.mem_map.mp he
    obtain ⟨hc, hn⟩ := List.mem_filter.mp hc
    have hder : Derives P (.given c.2.1) o := of_decide_eq_true hn ▸ hobj ho
    obtain ⟨hint, hfield⟩ := h₂.internField hsmall hc hder hcalm
    show Derived P (PointsTo.grow (PointsTo.internField P s₂ o c.2.2).2 (.given c.1)
      {(PointsTo.internField P s₂ o c.2.2).1})
    refine hint.grow hsmall fun f hf => ?_
    rw [Finset.mem_singleton.mp hf, hfield]
    exact .gep hc hder
  refine List.foldlRecOn dsts _ (motive := Derived P) hcon fun s₁ h₁ d hd' => ?_
  exact h₁.grow hsmall fun o ho => hcon.edges (n, d) ((hd d).mp hd') o (h₁.pts n o ho)

theorem start_derived (hsmall : Small P) : Derived P (start P) := by
  have hinitial : Derived P (initial P) := by
    refine ⟨fun x o ho => ?_, fun e he o ho => ?_, fun c hc => absurd hc (Finset.notMem_empty c), rfl, rfl⟩
    · have htop : o = top := by
        simp only [initial] at ho
        split at ho
        · exact Finset.mem_singleton.mp ho
        · exact absurd ho (Finset.notMem_empty o)
      subst htop
      exact .poisoned ho
    · obtain ⟨c, hc, rfl⟩ := List.mem_map.mp (List.mem_toFinset.mp he)
      exact .copy hc ho
  have hseeded : Derived P (seeded P) :=
    List.foldlRecOn P.addr _ (motive := Derived P) hinitial fun s h c hc => h.grow hsmall fun o ho => by
      rw [Finset.mem_singleton.mp ho]
      exact .addr hc
  exact ⟨hseeded.pts, hseeded.edges, hseeded.created, hseeded.poisoned, hseeded.saturated⟩

theorem CalmRun.derived (h : CalmRun P s) (hsmall : Small P) : Derived P s := by
  induction h with
  | start => exact start_derived hsmall
  | item _ _ ht hd hok ih => exact ih.process hsmall ht hd hok

theorem Derived.mem_of_includes (h : Derived P s) {d o : Node} {A : Finset Node}
    (hin : Includes s d A) (ho : o ∈ A) : o ∈ s.pts d := by
  rcases hin with hd | hsub
  · rw [h.saturated] at hd
    exact absurd hd (Finset.notMem_empty d)
  · exact hsub ho

theorem Derived.fieldNode_eq (h : Derived P s) (hsmall : Small P) {c : Nat × Nat × Nat} (hc : c ∈ P.gep)
    {o f : Node} (ho : Derives P (.given c.2.1) o) (hf : fieldNode P s o c.2.2 = some f) :
    f = field P o c.2.2 ∧ (field P o c.2.2 = .cell o c.2.2 → lookup P s o c.2.2 = some f) := by
  rw [fieldNode] at hf
  rw [field]
  split at hf
  · next htop =>
    rw [if_pos htop]
    exact ⟨(Option.some.inj hf).symm, fun hcell => by simp [top] at hcell⟩
  next htop =>
  rw [if_neg htop]
  split at hf
  · next hzero =>
    rw [if_pos hzero]
    refine ⟨(Option.some.inj hf).symm, fun hcell => ?_⟩
    have hsize := congrArg sizeOf hcell
    simp only [Node.cell.sizeOf_spec] at hsize
    omega
  next hzero =>
  rw [if_neg hzero]
  cases hg : givenCell P o c.2.2 with
  | some g =>
    have hl : lookup P s o c.2.2 = some g := by rw [lookup, hg]
    rw [hl] at hf
    rw [hl]
    exact ⟨(Option.some.inj hf).symm, fun _ => hf⟩
  | none =>
    by_cases hcr : (o, c.2.2) ∈ s.created
    · have hl := lookup_created hg hcr
      rw [hl] at hf
      rw [hl]
      exact ⟨(Option.some.inj hf).symm, fun _ => hf⟩
    · have hfield : field P o c.2.2 = .cell o c.2.2 := by rw [field_of_ne htop hzero, hg, Option.getD_none]
      have hl : lookup P s o c.2.2 = none := by
        rw [lookup, hg]
        exact if_neg hcr
      have hfull := h.not_full hsmall ⟨hfield, c, hc, rfl, ho⟩ hcr
      rw [hl] at hf
      simp only [if_neg hfull] at hf
      exact absurd hf (by simp)

theorem givenCell_of_mem {c : (Nat × Nat) × Nat} (hc : c ∈ P.fieldCell) :
    givenCell P (.given c.1.1) c.1.2 = some (.given c.2) := by
  rw [givenCell]
  have hfound : (P.fieldCell.find? fun e => decide (Node.given e.1.1 = .given c.1.1) &&
      decide (e.1.2 = c.1.2)).isSome := List.find?_isSome.mpr ⟨c, hc, by simp⟩
  obtain ⟨e, he⟩ := Option.isSome_iff_exists.mp hfound
  have hkey := List.find?_some he
  rw [Bool.and_eq_true_iff, decide_eq_true_iff, decide_eq_true_iff] at hkey
  have heq : e = c := List.inj_on_of_nodup_map P.cell_nodup (List.mem_of_find?_eq_some he) hc
    (Prod.ext (Node.given.inj hkey.1) hkey.2)
  rw [he, heq]
  rfl

theorem Closed.top_mem (h : Closed P s) (hp : s.poisoned = (initial P).poisoned) {x : Node}
    (hx : top ∈ (initial P).pts x) : top ∈ s.pts x := by
  simp only [initial] at hx
  split at hx
  · next hany =>
    obtain ⟨p, hmem, hany⟩ := List.any_eq_true.mp hany
    obtain ⟨hne, hor⟩ := Bool.and_eq_true_iff.mp hany
    have hpois : Node.given p ∈ s.poisoned := by
      rw [hp]
      exact List.mem_toFinset.mpr (List.mem_map_of_mem (List.mem_filter.mpr ⟨hmem, hne⟩))
    obtain ⟨hself, hcells⟩ := h.poisoned _ hpois
    rcases Bool.or_eq_true_iff.mp hor with heq | hcell
    · rw [of_decide_eq_true heq]
      exact hself
    · obtain ⟨c, hc, hcell⟩ := List.any_eq_true.mp hcell
      rw [Bool.and_eq_true_iff, decide_eq_true_iff, decide_eq_true_iff] at hcell
      obtain ⟨hobj, rfl⟩ := hcell
      refine hcells c.1.2 _ ?_
      rw [lookup, ← hobj, givenCell_of_mem hc]
  · exact absurd hx (Finset.notMem_empty top)

/-- **Nothing derived is missing.** -/
theorem Closed.complete (h : Closed P s) (hder : Derived P s) (hsmall : Small P) {x o : Node}
    (ho : Derives P x o) : o ∈ s.pts x := by
  induction ho with
  | addr hc => exact hder.mem_of_includes (h.addr _ hc) (Finset.mem_singleton_self _)
  | poisoned hx => exact h.top_mem hder.poisoned hx
  | cell hc hbase hp hfield ih =>
    obtain ⟨f, hf, -⟩ := h.gep _ hc _ ih
    obtain ⟨hf, hl⟩ := hder.fieldNode_eq hsmall hc hbase hf
    rw [hf, hfield] at hl
    exact (h.poisoned _ (hder.poisoned ▸ hp)).2 _ _ (hl rfl)
  | copy hc _ ih => exact hder.mem_of_includes (h.copy _ hc) ih
  | gep hc hbase ih =>
    obtain ⟨f, hf, hin⟩ := h.gep _ hc _ ih
    rw [← (hder.fieldNode_eq hsmall hc hbase hf).1]
    exact hder.mem_of_includes hin (Finset.mem_singleton_self _)
  | load hc _ _ ih ih' => exact hder.mem_of_includes (h.load _ hc _ ih) ih'
  | store hc _ _ ih ih' => exact hder.mem_of_includes (h.store _ hc _ ih) ih'

/-! ## The solver -/

theorem exists_step (h : s.work ≠ ∅) : ∃ s', Step P s s' := by
  obtain ⟨n, hn⟩ := Finset.nonempty_iff_ne_empty.mpr h
  have htargets : (s.pts n).toList.toFinset = s.pts n := Finset.toList_toFinset _
  have hdsts (d : Node) : d ∈ (((constrain P s n (s.pts n).toList).edges.filter
      fun e => e.1 = n).image Prod.snd).toList ↔ (n, d) ∈ (constrain P s n (s.pts n).toList).edges := by
    rw [Finset.mem_toList, Finset.mem_image]
    constructor
    · rintro ⟨e, he, rfl⟩
      obtain ⟨he, rfl⟩ := Finset.mem_filter.mp he
      exact he
    · exact fun hd => ⟨(n, d), Finset.mem_filter.mpr ⟨hd, rfl⟩, rfl⟩
  exact ⟨_, .item hn htargets hdsts⟩

theorem no_infinite_run (h : Acc (fun b a => Step P a b) s) :
    ¬∃ run : ℕ → State, run 0 = s ∧ ∀ i, Step P (run i) (run (i + 1)) := by
  induction h with
  | intro s _ ih =>
    rintro ⟨run, rfl, hrun⟩
    exact ih (run 1) (hrun 0) ⟨fun i => run (i + 1), rfl, fun i => hrun (i + 1)⟩

/-- **The solver ends, in a closed solution that does not depend on the order**, in the runs that poison
    no object while solving and load through TOP only once TOP points to itself; for the order also
    that no set of the least solution is collapsed and its cells fit the node budget. -/
theorem solve_closed (P : Constraints) :
    (¬∃ run : ℕ → State, run 0 = start P ∧ ∀ i, Step P (run i) (run (i + 1))) ∧
    (∀ s, s.work ≠ ∅ → ∃ s', Step P s s') ∧
    (∀ s, CalmRun P s → s.work = ∅ → Closed P s) ∧
    (Small P → ∀ s s', CalmRun P s → s.work = ∅ → CalmRun P s' → s'.work = ∅ → s.pts = s'.pts) := by
  refine ⟨no_infinite_run (start_wf P).acc, fun s => exists_step, fun s h hw => h.inv.closed hw, ?_⟩
  intro hsmall s s' h hw h' hw'
  have hsub {a b : State} (ha : CalmRun P a) (hb : CalmRun P b) (hbw : b.work = ∅) (x : Node) :
      a.pts x ⊆ b.pts x := fun o ho =>
    (hb.inv.closed hbw).complete (hb.derived hsmall) hsmall ((ha.derived hsmall).pts x o ho)
  funext x
  exact (hsub h h' hw' x).antisymm (hsub h' h hw x)

/-- `q = p = &o`, with `p`, `o`, `q` numbered from 1. -/
def addressCopy : Constraints where
  nodes := 4
  addr := [(1, 2)]
  copy := [(3, 1)]
  gep := []
  load := []
  store := []
  fieldCell := []
  poisoned := []
  nodes_pos := by decide
  addr_lt := by decide
  copy_lt := by decide
  gep_lt := by decide
  load_lt := by decide
  store_lt := by decide
  cell_lt := by decide
  cell_nodup := by decide
  poisoned_lt := by decide

theorem addressCopy_derives {x o : Node} (h : Derives addressCopy x o) : o = .given 2 := by
  induction h with
  | addr hc => rw [List.mem_singleton.mp hc]
  | poisoned hx => exact absurd hx (Finset.notMem_empty top)
  | copy _ _ ih => exact ih
  | cell hc | gep hc | load hc | store hc => exact absurd hc List.not_mem_nil

theorem addressCopy_small : Small addressCopy := by
  refine ⟨fun x => ⟨{.given 2}, by decide, fun o ho => ?_⟩, ∅, by decide, fun o off h => ?_⟩
  · exact Finset.mem_singleton.mpr (addressCopy_derives ho)
  · obtain ⟨-, c, hc, -⟩ := h
    exact absurd hc List.not_mem_nil

theorem addressCopy_stepOk (s : State) (n : Node) : StepOk addressCopy s n :=
  ⟨fun _ he => absurd he List.not_mem_nil, fun h => absurd rfl h⟩

def addressCopySolved : State :=
  process addressCopy (process addressCopy (start addressCopy) (.given 1) [.given 2] [.given 3])
    (.given 3) [.given 2] []

/-- Every run ends with `q` pointing to `o`. -/
theorem solve_closed_addressCopy :
    Closed addressCopy addressCopySolved ∧ Node.given 2 ∈ addressCopySolved.pts (.given 3) ∧
      ∀ s, CalmRun addressCopy s → s.work = ∅ → s.pts = addressCopySolved.pts := by
  have hedges : (constrain addressCopy (start addressCopy) (.given 1) [.given 2]).edges =
      {(.given 1, .given 3)} := by decide +kernel
  have hedges' : (constrain addressCopy (process addressCopy (start addressCopy) (.given 1) [.given 2]
      [.given 3]) (.given 3) [.given 2]).edges = {(.given 1, .given 3)} := by decide +kernel
  have hrun : CalmRun addressCopy addressCopySolved := by
    refine .item (.item .start ?_ ?_ ?_ (addressCopy_stepOk _ _)) ?_ ?_ ?_ (addressCopy_stepOk _ _)
    · decide +kernel
    · decide +kernel
    · simp [hedges]
    · decide +kernel
    · decide +kernel
    · simp [hedges']
  have hdone : addressCopySolved.work = ∅ := by decide +kernel
  obtain ⟨-, -, hclosed, horder⟩ := solve_closed addressCopy
  refine ⟨hclosed _ hrun hdone, by decide +kernel, fun s hs hw => ?_⟩
  exact horder addressCopy_small _ _ hs hw hrun hdone

/-- `p = &o; c = o; d = p + ?`, with `p`, `o`, `c`, `d` numbered from 1. -/
def unknownField : Constraints where
  nodes := 5
  addr := [(1, 2)]
  copy := [(3, 2)]
  gep := [(4, 1, anyOffset)]
  load := []
  store := []
  fieldCell := []
  poisoned := []
  nodes_pos := by decide
  addr_lt := by decide
  copy_lt := by decide
  gep_lt := by decide
  load_lt := by decide
  store_lt := by decide
  cell_lt := by decide
  cell_nodup := by decide
  poisoned_lt := by decide

/-- `o` is poisoned while solving, and its copy does not hear of it. -/
theorem solve_poison_not_propagated :
    ∃ s, Relation.ReflTransGen (Step unknownField) (start unknownField) s ∧ s.work = ∅ ∧
      ¬Closed unknownField s := by
  have hedges : (constrain unknownField (start unknownField) (.given 1) [.given 2]).edges =
      {(.given 2, .given 3)} := by decide +kernel
  have hedges' : (constrain unknownField (process unknownField (start unknownField) (.given 1)
      [.given 2] []) (.given 4) [top]).edges = {(.given 2, .given 3)} := by decide +kernel
  refine ⟨process unknownField (process unknownField (start unknownField) (.given 1) [.given 2] [])
    (.given 4) [top] [], .tail (.single (.item ?_ ?_ ?_)) (.item ?_ ?_ ?_), ?_, fun h => ?_⟩
  · decide +kernel
  · decide +kernel
  · simp [hedges]
  · decide +kernel
  · decide +kernel
  · simp [hedges']
  · decide +kernel
  · have hcopy := h.copy (3, 2) (by decide)
    rw [Includes] at hcopy
    revert hcopy
    decide +kernel

end PointsTo

end Csolver
