import Csolver.Ir.LinkEvidence

/-!
# Field evidence that is folded in shards

The observations of one field are folded shard by shard and the results are folded again. The size and
the name come out as if all observations had been folded at once (`Digest.append`), the alignment does
not: where two names are given it is the one of the last observation that did not fit, and a shard
gives only one.
-/

namespace Csolver

open Lib

namespace Evidence

/-- `merge_field_evidence` over all observations. -/
def fold (l : List Evidence) : Option Evidence := mergeValues mergeFieldEvidence l

/-- One more shard, of which only the result is there. -/
def mergeShard (acc shard : Option Evidence) : Option Evidence :=
  match shard with
  | none => acc
  | some e => some (mergeFieldEvidence acc e)

def foldShards (shards : List (List Evidence)) : Option Evidence :=
  shards.foldl (fun acc l => mergeShard acc (fold l)) none

/-- What the evidence `r` has of the observation `o` and those after it. -/
structure Digest (o : Evidence) (l : List Evidence) (r : Evidence) : Prop where
  sizeless : o.size = 0 → r = o
  conflict : o.size ≠ 0 → (∃ p ∈ l, p.size ≠ o.size) → r = poison
  agree : o.size ≠ 0 → (∀ p ∈ l, p.size = o.size) → (∀ p ∈ l, p.pointee = o.pointee) → r = o
  ambiguous : o.size ≠ 0 → (∀ p ∈ l, p.size = o.size) → (∃ p ∈ l, p.pointee ≠ o.pointee) →
    r.size = o.size ∧ r.pointee = "" ∧ ∃ p ∈ o :: l, r.align = p.align

theorem digest_single (o : Evidence) : Digest o [] o where
  sizeless _ := rfl
  conflict := fun _ ⟨_, hp, _⟩ => absurd hp List.not_mem_nil
  agree _ _ _ := rfl
  ambiguous := fun _ _ ⟨_, hp, _⟩ => absurd hp List.not_mem_nil

namespace Digest

variable {o o' r r' : Evidence} {l l' : List Evidence}

theorem size_eq (h : Digest o l r) (ho : o.size ≠ 0) (hall : ∀ p ∈ l, p.size = o.size) :
    r.size = o.size := by
  by_cases hname : ∀ p ∈ l, p.pointee = o.pointee
  · rw [h.agree ho hall hname]
  · push Not at hname
    exact (h.ambiguous ho hall hname).1

theorem sized (h : Digest o l r) (hr : r.size ≠ 0) : ∀ p ∈ o :: l, p.size = r.size := by
  have ho : o.size ≠ 0 := by
    intro ho
    rw [h.sizeless ho] at hr
    exact hr ho
  by_cases hall : ∀ p ∈ l, p.size = o.size
  · intro p hp
    rw [h.size_eq ho hall]
    rcases List.mem_cons.mp hp with rfl | hp
    · rfl
    · exact hall p hp
  · push Not at hall
    rw [h.conflict ho hall] at hr
    exact absurd rfl hr

theorem named (h : Digest o l r) (ho : o.size ≠ 0) (hall : ∀ p ∈ l, p.size = o.size) :
    (∀ p ∈ o :: l, p.pointee = r.pointee) ∨ r.pointee = "" := by
  by_cases hname : ∀ p ∈ l, p.pointee = o.pointee
  · left
    rw [h.agree ho hall hname]
    exact List.forall_mem_cons.mpr ⟨rfl, hname⟩
  · push Not at hname
    exact .inr (h.ambiguous ho hall hname).2.1

theorem aligned (h : Digest o l r) (ho : o.size ≠ 0) (hall : ∀ p ∈ l, p.size = o.size) :
    ∃ p ∈ o :: l, r.align = p.align := by
  by_cases hname : ∀ p ∈ l, p.pointee = o.pointee
  · exact ⟨o, List.mem_cons_self, congrArg align (h.agree ho hall hname)⟩
  · push Not at hname
    exact (h.ambiguous ho hall hname).2.2

section

variable (h : Digest o l r) (h' : Digest o' l' r')

include h h'

theorem append_conflict (ho : o.size ≠ 0) (hconf : ∃ p ∈ l ++ o' :: l', p.size ≠ o.size) :
    mergeFieldEvidence (some r) r' = poison := by
  simp only [mergeFieldEvidence]
  by_cases hl : ∃ p ∈ l, p.size ≠ o.size
  · rw [h.conflict ho hl]
    rfl
  push Not at hl
  have hr := h.size_eq ho hl
  rw [if_neg (hr ▸ ho), if_pos]
  · rfl
  -- A size of the shard that fits would be that of all its observations.
  by_contra hfit
  obtain ⟨hrr, hr0⟩ := not_or.mp hfit
  obtain ⟨p, hp, hps⟩ := hconf
  rcases List.mem_append.mp hp with hp | hp
  · exact hps (hl p hp)
  · apply hps
    rw [h'.sized hr0 p hp, ← not_not.mp hrr, hr]

theorem append_agree (ho : o.size ≠ 0) (hall : ∀ p ∈ l ++ o' :: l', p.size = o.size)
    (hname : ∀ p ∈ l ++ o' :: l', p.pointee = o.pointee) : mergeFieldEvidence (some r) r' = o := by
  obtain ⟨hl, hl'⟩ := List.forall_mem_append.mp hall
  obtain ⟨hn, hn'⟩ := List.forall_mem_append.mp hname
  obtain ⟨ho', hl'⟩ := List.forall_mem_cons.mp hl'
  obtain ⟨hno', hn'⟩ := List.forall_mem_cons.mp hn'
  have hr : r = o := h.agree ho hl hn
  have hr' : r' = o' := h'.agree (ho' ▸ ho) (fun p hp => (hl' p hp).trans ho'.symm)
    fun p hp => (hn' p hp).trans hno'.symm
  subst hr hr'
  simp [mergeFieldEvidence, ho, ho', hno']

theorem append_unnamed (ho : o.size ≠ 0) (hl : ∀ p ∈ l, p.size = o.size) (ho' : o'.size ≠ 0)
    (hl' : ∀ p ∈ l', p.size = o'.size) (hname : ∃ p ∈ l ++ o' :: l', p.pointee ≠ o.pointee)
    (hn : r.pointee = r'.pointee) : r.pointee = "" := by
  rcases h.named ho hl with hall | hempty
  · rcases h'.named ho' hl' with hall' | hempty
    · obtain ⟨p, hp, hpo⟩ := hname
      have hfirst := hall o List.mem_cons_self
      refine absurd ?_ hpo
      rcases List.mem_append.mp hp with hp | hp
      · rw [hall p (List.mem_cons_of_mem o hp), hfirst]
      · rw [hall' p hp, ← hn, hfirst]
    · exact hn.trans hempty
  · exact hempty

theorem append_ambiguous (ho : o.size ≠ 0) (hall : ∀ p ∈ l ++ o' :: l', p.size = o.size)
    (hname : ∃ p ∈ l ++ o' :: l', p.pointee ≠ o.pointee) :
    (mergeFieldEvidence (some r) r').size = o.size ∧ (mergeFieldEvidence (some r) r').pointee = "" ∧
      ∃ p ∈ o :: (l ++ o' :: l'), (mergeFieldEvidence (some r) r').align = p.align := by
  obtain ⟨hl, hl'⟩ := List.forall_mem_append.mp hall
  obtain ⟨ho', hl'⟩ := List.forall_mem_cons.mp hl'
  have hne' : o'.size ≠ 0 := ho' ▸ ho
  have hall' : ∀ p ∈ l', p.size = o'.size := fun p hp => (hl' p hp).trans ho'.symm
  have hr := h.size_eq ho hl
  have hr' := (h'.size_eq hne' hall').trans ho'
  have hsame : ¬(r.size ≠ r'.size ∨ r'.size = 0) := by
    rw [hr, hr']
    simpa using ho
  simp only [mergeFieldEvidence]
  rw [if_neg (hr ▸ ho), if_neg hsame]
  by_cases hn : r.pointee = r'.pointee
  · rw [if_neg (not_not.mpr hn)]
    obtain ⟨p, hp, ha⟩ := h.aligned ho hl
    refine ⟨hr, h.append_unnamed h' ho hl hne' hall' hname hn, p, ?_, ha⟩
    exact List.mem_append_left (o' :: l') hp
  · rw [if_pos hn]
    obtain ⟨p, hp, ha⟩ := h'.aligned hne' hall'
    exact ⟨hr', rfl, p, List.mem_append_right (o :: l) hp, ha⟩

theorem append : Digest o (l ++ o' :: l') (mergeFieldEvidence (some r) r') where
  sizeless ho := by
    have hr := h.sizeless ho
    subst hr
    exact if_pos ho
  conflict := h.append_conflict h'
  agree := h.append_agree h'
  ambiguous := h.append_ambiguous h'

end

end Digest

/-- Where the sizes agree and two names are given, so do the alignments. -/
def OneAlign (l : List Evidence) : Prop :=
  (∀ o ∈ l, ∀ p ∈ l, o.size = p.size ∧ o.size ≠ 0) → Ambiguous l → ∀ o ∈ l, ∀ p ∈ l, o.align = p.align

theorem Digest.unique {o r r' : Evidence} {l : List Evidence} (h : Digest o l r) (h' : Digest o l r')
    (hone : OneAlign (o :: l)) : r = r' := by
  by_cases ho : o.size = 0
  · rw [h.sizeless ho, h'.sizeless ho]
  by_cases hall : ∀ p ∈ l, p.size = o.size
  · by_cases hname : ∀ p ∈ l, p.pointee = o.pointee
    · rw [h.agree ho hall hname, h'.agree ho hall hname]
    · push Not at hname
      obtain ⟨hs, hn, p, hp, ha⟩ := h.ambiguous ho hall hname
      obtain ⟨hs', hn', p', hp', ha'⟩ := h'.ambiguous ho hall hname
      obtain ⟨q, hq, hqn⟩ := hname
      have hsize : ∀ p ∈ o :: l, p.size = o.size := List.forall_mem_cons.mpr ⟨rfl, hall⟩
      have halign := hone (fun p hp q hq => ⟨by rw [hsize p hp, hsize q hq], by rwa [hsize p hp]⟩)
        ⟨q, List.mem_cons_of_mem o hq, o, List.mem_cons_self, hqn⟩ p hp p' hp'
      obtain ⟨size, align, pointee⟩ := r
      obtain ⟨size', align', pointee'⟩ := r'
      simp_all
  · push Not at hall
    rw [h.conflict ho hall, h'.conflict ho hall]

/-! ## The two folds -/

theorem fold_snoc (l : List Evidence) (e : Evidence) :
    fold (l ++ [e]) = some (mergeFieldEvidence (fold l) e) := mergeValues_snoc l e

theorem foldShards_snoc (shards : List (List Evidence)) (l : List Evidence) :
    foldShards (shards ++ [l]) = mergeShard (foldShards shards) (fold l) := by
  unfold foldShards
  rw [List.foldl_append]
  rfl

theorem fold_digest (o : Evidence) (l : List Evidence) : ∃ r, fold (o :: l) = some r ∧ Digest o l r := by
  induction l using List.reverseRecOn with
  | nil => exact ⟨o, rfl, digest_single o⟩
  | append_singleton l e ih =>
    obtain ⟨r, hr, hd⟩ := ih
    refine ⟨mergeFieldEvidence (some r) e, ?_, hd.append (digest_single e)⟩
    rw [← List.cons_append, fold_snoc, hr]

theorem foldShards_digest (shards : List (List Evidence)) :
    (shards.flatten = [] → foldShards shards = none) ∧
      ∀ o l, shards.flatten = o :: l → ∃ r, foldShards shards = some r ∧ Digest o l r := by
  induction shards using List.reverseRecOn with
  | nil => exact ⟨fun _ => rfl, fun o l h => absurd h (List.cons_ne_nil o l).symm⟩
  | append_singleton shards items ih =>
    rw [List.flatten_append, List.flatten_singleton, foldShards_snoc]
    cases items with
    | nil =>
      -- A shard without an observation of the field changes nothing.
      rw [List.append_nil]
      exact ih
    | cons o' l' =>
      obtain ⟨r', hr', hd'⟩ := fold_digest o' l'
      refine ⟨fun h => absurd h (by simp), fun o l h => ?_⟩
      rw [hr']
      cases hshards : shards.flatten with
      | nil =>
        rw [hshards, List.nil_append, List.cons.injEq] at h
        rw [ih.1 hshards, ← h.1, ← h.2]
        exact ⟨r', rfl, hd'⟩
      | cons o₁ l₁ =>
        rw [hshards, List.cons_append, List.cons.injEq] at h
        obtain ⟨r, hr, hd⟩ := ih.2 o₁ l₁ hshards
        rw [hr, ← h.1, ← h.2]
        exact ⟨_, rfl, hd.append hd'⟩

/-- Only the first shard with an observation has several. -/
def Scattered (shards : List (List Evidence)) : Prop :=
  ∃ before l after, shards = before ++ l :: after ∧ before.flatten = [] ∧ ∀ q ∈ after, q.length ≤ 1

/-- A division that the evidence of a field does not show. -/
def ShardSafe (shards : List (List Evidence)) : Prop := OneAlign shards.flatten ∨ Scattered shards

theorem foldShards_scattered {before after : List (List Evidence)} (l : List Evidence)
    (hbefore : before.flatten = []) (hafter : ∀ q ∈ after, q.length ≤ 1) :
    foldShards (before ++ l :: after) = fold (l ++ after.flatten) := by
  induction after using List.reverseRecOn with
  | nil =>
    rw [foldShards_snoc, (foldShards_digest before).1 hbefore, List.flatten_nil, List.append_nil]
    cases hl : fold l with
    | none => rfl
    | some e => rfl
  | append_singleton after q ih =>
    obtain ⟨hafter, hq⟩ := List.forall_mem_append.mp hafter
    have hq := hq q (List.mem_singleton_self q)
    have hassoc : before ++ l :: (after ++ [q]) = (before ++ l :: after) ++ [q] := by simp
    rw [hassoc, foldShards_snoc, ih hafter, List.flatten_append, List.flatten_singleton,
      ← List.append_assoc]
    match q, hq with
    | [], _ =>
      rw [List.append_nil]
      rfl
    | [e], _ =>
      rw [fold_snoc]
      rfl

theorem foldShards_eq_fold {shards : List (List Evidence)} (h : ShardSafe shards) :
    foldShards shards = fold shards.flatten := by
  rcases h with hone | ⟨before, l, after, rfl, hbefore, hafter⟩
  · cases hl : shards.flatten with
    | nil => exact (foldShards_digest shards).1 hl
    | cons o l =>
      obtain ⟨r, hr, hd⟩ := (foldShards_digest shards).2 o l hl
      obtain ⟨r', hr', hd'⟩ := fold_digest o l
      rw [hl] at hone
      rw [hr, hr', hd.unique hd' hone]
  · rw [foldShards_scattered l hbefore hafter, List.flatten_append, hbefore, List.flatten_cons,
      List.nil_append]

end Evidence

end Csolver
