import Csolver.Verifier.Mem2reg

/-!
# What the promotion leaves (`crates/verifier/src/mem2reg.rs`)

The renaming visits every block that the entry reaches, drops the loads, stores and allocations of the
promoted slots there, and adds only values that are no slot. Eligibility looks at the operands that
`visit_operands` visits; a slot that stands in an operand it passes over, or in a block that the entry does
not reach, is still used afterwards, and no other is (`no_dangling_slot_iff`).
-/

namespace Csolver.Mem2reg

open Lib

/-! ## Rewriting a block -/

def Clean (slots : Slots) (o : Operand) : Prop := ∀ a, (slots.get a).isSome → isSlot o a = false

/-- The instructions that the promotion drops or replaces. -/
def Gone (slots : Slots) : Inst → Prop
  | .alloc dst _ _ => (slots.get dst).isSome
  | .load _ _ (.reg a) => (slots.get a).isSome
  | .store _ (.reg a) _ => (slots.get a).isSome
  | _ => False

/-- The new instructions: kept ones, and assignments of values that are no slot. -/
structure Rewritten (slots : Slots) (orig new : List Inst) : Prop where
  kept : ∀ i ∈ orig, ¬ Gone slots i → i ∈ new
  origin : ∀ i ∈ new, i ∈ orig ∨ ∃ dst ty v, i = .assign dst ty (.use v) ∧ Clean slots v
  writes : (new.flatMap Inst.writes).Sublist (orig.flatMap Inst.writes)

def Settled (slots : Slots) (insts : List Inst) : Prop := ∀ i ∈ insts, ¬ Gone slots i

theorem Rewritten.refl (slots : Slots) (insts : List Inst) : Rewritten slots insts insts :=
  ⟨fun _ hi _ => hi, fun _ hi => .inl hi, List.Sublist.refl _⟩

theorem Rewritten.trans {slots : Slots} {a b c : List Inst} (hab : Rewritten slots a b) (hbc : Rewritten slots b c) :
    Rewritten slots a c where
  kept i hi hgone := hbc.kept i (hab.kept i hi hgone) hgone
  origin i hi := by
    rcases hbc.origin i hi with hi | hi
    · exact hab.origin i hi
    · exact .inr hi
  writes := hbc.writes.trans hab.writes

theorem rewriteInst_cases (slots : Slots) (cur : Reaching) (i : Inst) :
    (¬ Gone slots i ∧ rewriteInst slots cur i = (some i, cur)) ∨
    (Gone slots i ∧ ∃ dst ty a, i.writes = [dst] ∧
      rewriteInst slots cur i = (some (.assign dst ty (.use (cur a))), cur)) ∨
    (Gone slots i ∧ (rewriteInst slots cur i).1 = none ∧ ((rewriteInst slots cur i).2 = cur ∨
      ∃ ty a v, i = .store ty (.reg a) v ∧ (rewriteInst slots cur i).2 = Function.update cur a v)) := by
  unfold rewriteInst
  split
  · next dst elem count =>
    by_cases h : (slots.get dst).isSome
    · exact .inr (.inr ⟨h, by simp [h], .inl rfl⟩)
    · exact .inl ⟨h, by simp [h]⟩
  · next dst lty a =>
    cases h : slots.get a with
    | some ty => exact .inr (.inl ⟨by simp [Gone, h], dst, ty, a, rfl, rfl⟩)
    | none => exact .inl ⟨by simp [Gone, h], rfl⟩
  · next sty a value =>
    by_cases h : (slots.get a).isSome
    · exact .inr (.inr ⟨h, by simp [h], .inr ⟨sty, a, value, rfl, by simp [h]⟩⟩)
    · exact .inl ⟨h, by simp [h]⟩
  · next hload hstore halloc =>
    refine .inl ⟨fun hgone => ?_, rfl⟩
    unfold Gone at hgone
    split at hgone
    · next dst elem count => exact hload dst elem count rfl
    · next dst ty a => exact hstore dst ty a rfl
    · next ty a value => exact halloc ty a value rfl
    · exact hgone

/-- Every value that reaches a point is no slot. -/
def AllClean (slots : Slots) (cur : Reaching) : Prop := ∀ a, Clean slots (cur a)

theorem AllClean.update {slots : Slots} {cur : Reaching} (h : AllClean slots cur) {v : Operand} (hv : Clean slots v)
    (a : RegId) : AllClean slots (Function.update cur a v) := by
  intro b
  by_cases hb : b = a
  · subst hb
    rwa [Function.update_self]
  · rw [Function.update_of_ne hb]
    exact h b

def StoresClean (slots : Slots) (insts : List Inst) : Prop :=
  ∀ ty ptr v, Inst.store ty ptr v ∈ insts → Clean slots v

theorem rewriteInsts_spec {slots : Slots} {insts : List Inst} (hstores : StoresClean slots insts) {cur : Reaching}
    (hcur : AllClean slots cur) :
    Rewritten slots insts (rewriteInsts slots cur insts).1 ∧ Settled slots (rewriteInsts slots cur insts).1 ∧
      AllClean slots (rewriteInsts slots cur insts).2 := by
  induction insts generalizing cur with
  | nil => exact ⟨.refl slots [], fun i hi => absurd hi List.not_mem_nil, hcur⟩
  | cons i insts ih =>
    have hrest : StoresClean slots insts := fun ty ptr v h => hstores ty ptr v (List.mem_cons_of_mem i h)
    rw [rewriteInsts]
    rcases rewriteInst_cases slots cur i with ⟨hkeep, heq⟩ | ⟨hgone, dst, ty, a, hw, heq⟩ | ⟨hgone, hnone, hnext⟩
    · obtain ⟨hre, hset, hclean⟩ := ih hrest hcur
      simp only [heq, Option.toList_some, List.singleton_append]
      refine ⟨⟨fun j hj hng => ?_, fun j hj => ?_, ?_⟩, fun j hj => ?_, hclean⟩
      · rcases List.mem_cons.mp hj with rfl | hj
        · exact List.mem_cons_self
        · exact List.mem_cons_of_mem i (hre.kept j hj hng)
      · rcases List.mem_cons.mp hj with rfl | hj
        · exact .inl List.mem_cons_self
        · exact (hre.origin j hj).imp_left (List.mem_cons_of_mem i)
      · rw [List.flatMap_cons, List.flatMap_cons]
        exact List.Sublist.append_left hre.writes _
      · rcases List.mem_cons.mp hj with rfl | hj
        · exact hkeep
        · exact hset j hj
    · obtain ⟨hre, hset, hclean⟩ := ih hrest hcur
      simp only [heq, Option.toList_some, List.singleton_append]
      refine ⟨⟨fun j hj hng => ?_, fun j hj => ?_, ?_⟩, fun j hj => ?_, hclean⟩
      · rcases List.mem_cons.mp hj with rfl | hj
        · exact absurd hgone hng
        · exact List.mem_cons_of_mem _ (hre.kept j hj hng)
      · rcases List.mem_cons.mp hj with rfl | hj
        · exact .inr ⟨dst, ty, cur a, rfl, hcur a⟩
        · exact (hre.origin j hj).imp_left (List.mem_cons_of_mem i)
      · rw [List.flatMap_cons, List.flatMap_cons, hw]
        exact List.Sublist.append_left hre.writes _
      · rcases List.mem_cons.mp hj with rfl | hj
        · exact id
        · exact hset j hj
    · have hcur' : AllClean slots (rewriteInst slots cur i).2 := by
        rcases hnext with heq | ⟨ty, a, v, rfl, heq⟩
        · rw [heq]
          exact hcur
        · rw [heq]
          exact hcur.update (hstores ty _ v List.mem_cons_self) a
      obtain ⟨hre, hset, hclean⟩ := ih hrest hcur'
      simp only [hnone, Option.toList_none, List.nil_append]
      refine ⟨⟨fun j hj hng => ?_, fun j hj => ?_, ?_⟩, hset, hclean⟩
      · rcases List.mem_cons.mp hj with rfl | hj
        · exact absurd hgone hng
        · exact hre.kept j hj hng
      · exact (hre.origin j hj).imp_left (List.mem_cons_of_mem i)
      · rw [List.flatMap_cons]
        exact hre.writes.trans (List.sublist_append_right _ _)

/-! ## Eligible slots -/

theorem isSlot_false_of_not_mentions {i : Inst} {a : RegId} (h : (!instMentions i a) = true) {o : Operand}
    (ho : o ∈ i.visited) : isSlot o a = false := by
  rw [Bool.not_eq_true', instMentions, List.any_eq_false] at h
  exact Bool.eq_false_iff.mpr (h o ho)

theorem eligibleInst_visited {slots : Slots} {a : RegId} {ty : Ty} {i : Inst} (ha : (slots.get a).isSome)
    (h : eligibleInst a ty i = true) (hgone : ¬ Gone slots i) {o : Operand} (ho : o ∈ i.visited) :
    isSlot o a = false := by
  unfold eligibleInst at h
  split at h
  · next dst lty r =>
    split at h
    · next hr => exact absurd (hr ▸ ha) hgone
    · exact isSlot_false_of_not_mentions h ho
  · next sty r value =>
    split at h
    · next hr => exact absurd (hr ▸ ha) hgone
    · exact isSlot_false_of_not_mentions h ho
  · next dst elem count =>
    split at h
    · next hr => exact absurd (hr ▸ ha) hgone
    · exact isSlot_false_of_not_mentions h ho
  · exact isSlot_false_of_not_mentions h ho

theorem eligibleInst_store {a : RegId} {ty sty : Ty} {ptr v : Operand}
    (h : eligibleInst a ty (.store sty ptr v) = true) : isSlot v a = false := by
  have hmention (h : (!instMentions (.store sty ptr v) a) = true) : isSlot v a = false :=
    isSlot_false_of_not_mentions h (by simp [Inst.visited])
  unfold eligibleInst at h
  split at h
  · next heq => exact absurd heq (by simp)
  · next heq =>
    obtain ⟨_, _, rfl⟩ := Inst.store.inj heq
    split at h
    · simpa using (Bool.and_eq_true_iff.mp h).2
    · exact hmention h
  · next heq => exact absurd heq (by simp)
  · exact hmention h

theorem eligible_spec {f : Func} {a : RegId} {ty : Ty} (h : eligible f a ty = true) {b : BasicBlock}
    (hb : b ∈ f.blocks) :
    (∀ i ∈ b.insts, eligibleInst a ty i = true) ∧ ∀ o ∈ termOperands b.term, isSlot o a = false := by
  have hblock := List.all_eq_true.mp h b hb
  obtain ⟨hinsts, hterm⟩ := Bool.and_eq_true_iff.mp hblock
  refine ⟨fun i hi => List.all_eq_true.mp hinsts i hi, fun o ho => ?_⟩
  rw [Bool.not_eq_true', termMentions, List.any_eq_false] at hterm
  exact Bool.eq_false_iff.mpr (hterm o ho)

theorem candidate_defines {i : Inst} {c : RegId × Ty} (h : candidate i = some c) : i.definedReg = some c.1 := by
  unfold candidate at h
  split at h
  · split at h
    · rw [← Option.some.inj h]
      rfl
    · exact absurd h (by simp)
  · exact absurd h (by simp)

theorem mem_candidates {f : Func} {c : RegId × Ty} (h : c ∈ candidates f) :
    ∃ b ∈ f.blocks, ∃ i ∈ b.insts, candidate i = some c := by
  have hfold (cs : List (RegId × Ty)) (m : Slots) (h : c ∈ cs.foldl (fun m c => m.insert c.1 c.2) m) :
      c ∈ m ∨ c ∈ cs := by
    induction cs generalizing m with
    | nil => exact .inl h
    | cons d cs ih =>
      rcases ih _ h with h | h
      · rcases SortedMap.mem_insert h with rfl | h
        · exact .inr List.mem_cons_self
        · exact .inl h
      · exact .inr (List.mem_cons_of_mem d h)
  rcases hfold _ _ h with h | h
  · exact absurd h List.not_mem_nil
  · obtain ⟨b, hb, hc⟩ := List.mem_flatMap.mp h
    obtain ⟨i, hi, hic⟩ := List.mem_filterMap.mp hc
    exact ⟨b, hb, i, hi, hic⟩

/-! ## `next_reg` -/

/-- The registers `next_reg` looks at. -/
def noted (f : Func) : List RegId :=
  f.blocks.flatMap fun b => b.params.map (·.1) ++ b.insts.filterMap Inst.definedReg

theorem lt_nextReg {f : Func} {r : RegId} (h : r ∈ noted f) : r < nextReg f := by
  have hfold (rs : List RegId) (m : Nat) : m ≤ rs.foldl (fun m r => max m (r + 1)) m ∧
      ∀ r ∈ rs, r < rs.foldl (fun m r => max m (r + 1)) m := by
    induction rs generalizing m with
    | nil => exact ⟨Nat.le_refl m, fun r hr => absurd hr List.not_mem_nil⟩
    | cons x rs ih =>
      obtain ⟨hle, hlt⟩ := ih (max m (x + 1))
      refine ⟨Nat.le_trans (Nat.le_max_left _ _) hle, fun r hr => ?_⟩
      rcases List.mem_cons.mp hr with rfl | hr
      · exact Nat.lt_of_lt_of_le (Nat.lt_of_lt_of_le (Nat.lt_succ_self r) (Nat.le_max_right _ _)) hle
      · exact hlt r hr
  exact (hfold (noted f) 0).2 r h

/-- The facts about the promoted slots that the renaming uses. -/
structure Promotable (f : Func) (slots : Slots) (ps : List Phi) : Prop where
  eligible : ∀ a, (slots.get a).isSome → ∃ ty, eligible f a ty = true
  reg : ∀ p ∈ ps, Clean slots (.reg p.reg)

theorem Placed.promotable {f : Func} {slots : Slots} {ps : List Phi} (h : Placed f slots ps) :
    Promotable f slots ps := by
  have hslot (a : RegId) (ha : (slots.get a).isSome) : ∃ ty, (a, ty) ∈ candidates f ∧ eligible f a ty = true := by
    obtain ⟨ty, hty⟩ := Option.isSome_iff_exists.mp ha
    obtain ⟨c, hc, rfl⟩ := SortedMap.exists_mem_of_get hty
    obtain ⟨hcand, hel⟩ := List.mem_filter.mp (h.sub.subset hc)
    exact ⟨ty, hcand, hel⟩
  refine ⟨fun a ha => ?_, fun p hp a ha => ?_⟩
  · obtain ⟨ty, _, hel⟩ := hslot a ha
    exact ⟨ty, hel⟩
  · obtain ⟨ty, hcand, _⟩ := hslot a ha
    obtain ⟨b, hb, i, hi, hic⟩ := mem_candidates hcand
    -- the slot is defined, so its register is below the new ones
    have hlt : a < nextReg f := lt_nextReg (List.mem_flatMap.mpr ⟨b, hb, List.mem_append_right _
      (List.mem_filterMap.mpr ⟨i, hi, candidate_defines hic⟩)⟩)
    have hge : nextReg f ≤ p.reg := by
      have hmem : p.reg ∈ ps.map (·.reg) := List.mem_map.mpr ⟨p, hp, rfl⟩
      rw [h.regs] at hmem
      exact (List.mem_range'_1.mp hmem).1
    exact beq_false_of_ne (Nat.ne_of_gt (Nat.lt_of_lt_of_le hlt hge))

theorem Promotable.visited {f : Func} {slots : Slots} {ps : List Phi} (h : Promotable f slots ps) {b : BasicBlock}
    (hb : b ∈ f.blocks) {i : Inst} (hi : i ∈ b.insts) (hgone : ¬ Gone slots i) {o : Operand} (ho : o ∈ i.visited) :
    Clean slots o := by
  intro a ha
  obtain ⟨ty, hel⟩ := h.eligible a ha
  exact eligibleInst_visited ha ((eligible_spec hel hb).1 i hi) hgone ho

theorem Promotable.term {f : Func} {slots : Slots} {ps : List Phi} (h : Promotable f slots ps) {b : BasicBlock}
    (hb : b ∈ f.blocks) {o : Operand} (ho : o ∈ termOperands b.term) : Clean slots o := by
  intro a ha
  obtain ⟨ty, hel⟩ := h.eligible a ha
  exact (eligible_spec hel hb).2 o ho

theorem Promotable.stores {f : Func} {slots : Slots} {ps : List Phi} (h : Promotable f slots ps) {b : BasicBlock}
    (hb : b ∈ f.blocks) : StoresClean slots b.insts := by
  intro sty ptr v hi a ha
  obtain ⟨ty, hel⟩ := h.eligible a ha
  exact eligibleInst_store ((eligible_spec hel hb).1 _ hi)

/-! ## Blocks by position -/

def ids (f : Func) : List BlockId := f.blocks.map (·.id)

theorem position_congr {f g : Func} (h : ids f = ids g) (id : BlockId) : f.position id = g.position id := by
  have hpos (f : Func) : f.position id = ((ids f)[id]?).elim ((ids f).findIdx? fun x => x = id) fun x =>
      if x = id then some id else (ids f).findIdx? fun x => x = id := by
    rw [Func.position, ids, List.getElem?_map, List.findIdx?_map]
    cases f.blocks[id]? <;> rfl
  rw [hpos f, hpos g, h]

theorem position_lt {f : Func} {id : BlockId} {p : Nat} (h : f.position id = some p) : p < f.blocks.length := by
  have hfind (h : (f.blocks.findIdx? fun b => b.id = id) = some p) : p < f.blocks.length :=
    (List.findIdx?_eq_some_iff_getElem.mp h).1
  rw [Func.position] at h
  split at h
  · next b hb =>
    split at h
    · obtain rfl := Option.some.inj h
      exact (List.getElem?_eq_some_iff.mp hb).1
    · exact hfind h
  · exact hfind h

theorem updateBlock_blocks (f : Func) (id : BlockId) (g : BasicBlock → BasicBlock) (q : Nat) :
    (f.updateBlock id g).blocks[q]? = if f.position id = some q then (f.blocks[q]?).map g else f.blocks[q]? := by
  rw [Func.updateBlock]
  cases f.position id with
  | none => rfl
  | some p =>
    simp only [List.getElem?_modify, Option.some.injEq]
    split <;> simp

theorem updateBlock_params (f : Func) (id : BlockId) (g : BasicBlock → BasicBlock) :
    (f.updateBlock id g).params = f.params := by
  rw [Func.updateBlock]
  split <;> rfl

theorem updateBlock_length (f : Func) (id : BlockId) (g : BasicBlock → BasicBlock) :
    (f.updateBlock id g).blocks.length = f.blocks.length := by
  rw [Func.updateBlock]
  split
  · exact List.length_modify _ _ _
  · rfl

theorem ids_updateBlock (f : Func) (id : BlockId) {g : BasicBlock → BasicBlock} (hg : ∀ b, (g b).id = b.id) :
    ids (f.updateBlock id g) = ids f := by
  apply List.ext_getElem?
  intro q
  rw [ids, ids, List.getElem?_map, List.getElem?_map, updateBlock_blocks]
  split
  · cases f.blocks[q]? with
    | none => rfl
    | some b => exact congrArg some (hg b)
  · rfl

/-! ## One node of the renaming -/

theorem renameNode_blocks (f₀ f : Func) (slots : Slots) (ps : List Phi) (node : Nat) (cur : Reaching) {p : Nat}
    {b : BasicBlock} (hpos : f.position (f₀.blockId node) = some p) (hb : f.blocks[p]? = some b) :
    let r := rewriteInsts slots (enter ps node cur) b.insts
    (renameNode f₀ slots ps f node cur).2 = r.2 ∧ ∀ q, (renameNode f₀ slots ps f node cur).1.blocks[q]? =
      if p = q then some { b with insts := r.1, term := appendArgs f₀ ps r.2 b.term } else f.blocks[q]? := by
  intro r
  have hblock : f.block (f₀.blockId node) = some b := by rw [Func.block, hpos]; exact hb
  have hrw : rewriteBlock f (f₀.blockId node) slots (enter ps node cur) =
      (f.updateBlock (f₀.blockId node) fun b => { b with insts := r.1 }, r.2) := by
    rw [rewriteBlock, hblock]
  have hids : ids (f.updateBlock (f₀.blockId node) fun b => { b with insts := r.1 }) = ids f :=
    ids_updateBlock f _ fun _ => rfl
  rw [renameNode, hrw]
  refine ⟨rfl, fun q => ?_⟩
  rw [appendPhiArgs, updateBlock_blocks, position_congr hids, updateBlock_blocks, hpos]
  by_cases hq : p = q
  · subst hq
    simp [hb]
  · simp [hq]

theorem renameNode_none (f₀ f : Func) (slots : Slots) (ps : List Phi) (node : Nat) (cur : Reaching)
    (hpos : f.position (f₀.blockId node) = none) :
    renameNode f₀ slots ps f node cur = (f, enter ps node cur) := by
  have hblock : f.block (f₀.blockId node) = none := by rw [Func.block, hpos]; rfl
  rw [renameNode, rewriteBlock, hblock, appendPhiArgs, Func.updateBlock, hpos]

theorem renameNode_params (f₀ f : Func) (slots : Slots) (ps : List Phi) (node : Nat) (cur : Reaching) :
    (renameNode f₀ slots ps f node cur).1.params = f.params ∧
      (renameNode f₀ slots ps f node cur).1.blocks.length = f.blocks.length := by
  rw [renameNode, appendPhiArgs, rewriteBlock]
  split <;> simp only [updateBlock_params, updateBlock_length, and_self]

theorem enter_clean {slots : Slots} {ps : List Phi} (hps : ∀ p ∈ ps, Clean slots (.reg p.reg)) (node : Nat)
    {cur : Reaching} (hcur : AllClean slots cur) : AllClean slots (enter ps node cur) := by
  have hfold (qs : List Phi) (hqs : ∀ p ∈ qs, Clean slots (.reg p.reg)) {cur : Reaching} (hcur : AllClean slots cur) :
      AllClean slots (qs.foldl (fun cur p => Function.update cur p.slot (.reg p.reg)) cur) := by
    induction qs generalizing cur with
    | nil => exact hcur
    | cons q qs ih =>
      have hq := hcur.update (hqs q List.mem_cons_self) q.slot
      exact ih (fun p hp => hqs p (List.mem_cons_of_mem q hp)) hq
  exact hfold _ (fun p hp => hps p (List.mem_filter.mp hp).1) hcur

theorem appendArgs_operands (f₀ : Func) (ps : List Phi) {slots : Slots} {cur : Reaching} (hcur : AllClean slots cur)
    (t : Terminator) :
    (∀ o ∈ termOperands t, o ∈ termOperands (appendArgs f₀ ps cur t)) ∧
      ∀ o ∈ termOperands (appendArgs f₀ ps cur t), o ∈ termOperands t ∨ Clean slots o := by
  have hargs (target : BlockId) : ∀ o ∈ argsFor f₀ ps cur target, Clean slots o := by
    intro o ho
    rw [argsFor] at ho
    split at ho
    · obtain ⟨p, _, rfl⟩ := List.mem_map.mp ho
      exact hcur p.slot
    · exact absurd ho List.not_mem_nil
  cases t with
  | ret value => exact ⟨fun _ ho => ho, fun _ ho => .inl ho⟩
  | switch value cases default => exact ⟨fun _ ho => ho, fun _ ho => .inl ho⟩
  | unreachable => exact ⟨fun _ ho => ho, fun _ ho => .inl ho⟩
  | br target args =>
    simp only [appendArgs, termOperands]
    refine ⟨fun o ho => List.mem_append_left _ ho, fun o ho => ?_⟩
    exact (List.mem_append.mp ho).imp_right (hargs target o)
  | condBr cond tb targs eb eargs =>
    simp only [appendArgs, termOperands, List.mem_cons, List.mem_append]
    constructor
    · rintro o (ho | ho | ho)
      · exact .inl ho
      · exact .inr (.inl (.inl ho))
      · exact .inr (.inr (.inl ho))
    · rintro o (ho | (ho | ho) | (ho | ho))
      · exact .inl (.inl ho)
      · exact .inl (.inr (.inl ho))
      · exact .inr (hargs tb o ho)
      · exact .inl (.inr (.inr ho))
      · exact .inr (hargs eb o ho)

/-! ## The renaming -/

/-- A block after the renaming. -/
structure BlockRenamed (slots : Slots) (b b' : BasicBlock) : Prop where
  id : b'.id = b.id
  params : b'.params = b.params
  insts : Rewritten slots b.insts b'.insts
  termKept : ∀ o ∈ termOperands b.term, o ∈ termOperands b'.term
  termOrigin : ∀ o ∈ termOperands b'.term, o ∈ termOperands b.term ∨ Clean slots o

/-- One of the nodes has its block at the position. -/
def Visits (f₀ : Func) (nodes : List Nat) (p : Nat) : Prop := ∃ n ∈ nodes, f₀.position (f₀.blockId n) = some p

/-- The function `f` when the nodes of `done` are renamed in `f₂`. -/
structure Renamed (slots : Slots) (f₀ f₂ : Func) (done : List Nat) (f : Func) : Prop where
  params : f.params = f₂.params
  length : f.blocks.length = f₂.blocks.length
  block : ∀ (p : Nat) (b b' : BasicBlock), f₂.blocks[p]? = some b → f.blocks[p]? = some b' → BlockRenamed slots b b'
  settled : ∀ (p : Nat) (b' : BasicBlock), f.blocks[p]? = some b' → Visits f₀ done p → Settled slots b'.insts
  waiting : ∀ (p : Nat) (b b' : BasicBlock), f₂.blocks[p]? = some b → f.blocks[p]? = some b' → ¬ Visits f₀ done p →
    b'.insts = b.insts

theorem Renamed.refl (slots : Slots) (f₀ f : Func) : Renamed slots f₀ f [] f where
  params := rfl
  length := rfl
  block p b b' hb hb' := by
    obtain rfl := Option.some.inj (hb.symm.trans hb')
    exact ⟨rfl, rfl, .refl slots _, fun _ ho => ho, fun _ ho => .inl ho⟩
  settled p b' _ hv := by
    obtain ⟨n, hn, _⟩ := hv
    exact absurd hn List.not_mem_nil
  waiting p b b' hb hb' _ := by
    rw [Option.some.inj (hb.symm.trans hb')]

theorem Renamed.ids {slots : Slots} {f₀ f₂ f : Func} {done : List Nat} (h : Renamed slots f₀ f₂ done f) :
    ids f = ids f₂ := by
  apply List.ext_getElem?
  intro p
  rw [Mem2reg.ids, Mem2reg.ids, List.getElem?_map, List.getElem?_map]
  cases hb' : f.blocks[p]? with
  | none =>
    have hge := List.getElem?_eq_none_iff.mp hb'
    rw [h.length] at hge
    rw [List.getElem?_eq_none hge]
  | some b' =>
    have hlt := (List.getElem?_eq_some_iff.mp hb').1
    rw [h.length] at hlt
    have hb := List.getElem?_eq_getElem hlt
    rw [hb]
    exact congrArg some (h.block p _ b' hb hb').id

theorem visits_cons {f₀ : Func} {node : Nat} {done : List Nat} {q : Nat} :
    Visits f₀ (node :: done) q ↔ f₀.position (f₀.blockId node) = some q ∨ Visits f₀ done q := by
  constructor
  · rintro ⟨n, hn, hp⟩
    rcases List.mem_cons.mp hn with rfl | hn
    · exact .inl hp
    · exact .inr ⟨n, hn, hp⟩
  · rintro (hp | ⟨n, hn, hp⟩)
    · exact ⟨node, List.mem_cons_self, hp⟩
    · exact ⟨n, List.mem_cons_of_mem node hn, hp⟩

theorem Renamed.visit {slots : Slots} {f₀ f₂ f : Func} {ps : List Phi} {done : List Nat}
    (hps : ∀ p ∈ ps, Clean slots (.reg p.reg)) (hids : Mem2reg.ids f₂ = Mem2reg.ids f₀)
    (hstores : ∀ b ∈ f₂.blocks, StoresClean slots b.insts) (h : Renamed slots f₀ f₂ done f) (node : Nat)
    {cur : Reaching} (hcur : AllClean slots cur) :
    Renamed slots f₀ f₂ (node :: done) (renameNode f₀ slots ps f node cur).1 ∧
      AllClean slots (renameNode f₀ slots ps f node cur).2 := by
  have henter := enter_clean hps node hcur
  have hposeq : f.position (f₀.blockId node) = f₀.position (f₀.blockId node) :=
    position_congr (h.ids.trans hids) _
  obtain ⟨hparams, hlength⟩ := renameNode_params f₀ f slots ps node cur
  cases hpos : f₀.position (f₀.blockId node) with
  | none =>
    rw [renameNode_none f₀ f slots ps node cur (hposeq.trans hpos)]
    refine ⟨⟨h.params, h.length, h.block, fun q b' hb' hv => ?_, fun q b b' hb hb' hv => ?_⟩, henter⟩
    · refine h.settled q b' hb' ((visits_cons.mp hv).resolve_left ?_)
      rw [hpos]
      exact fun heq => absurd heq (by simp)
    · exact h.waiting q b b' hb hb' fun hold => hv (visits_cons.mpr (.inr hold))
  | some p =>
    have hplt : p < f.blocks.length := position_lt (hposeq.trans hpos)
    have hb₁ : f.blocks[p]? = some f.blocks[p] := List.getElem?_eq_getElem hplt
    generalize f.blocks[p] = b₁ at hb₁
    obtain ⟨b₂, hb₂⟩ : ∃ b₂, f₂.blocks[p]? = some b₂ := ⟨_, List.getElem?_eq_getElem (h.length ▸ hplt)⟩
    have hren := h.block p b₂ b₁ hb₂ hb₁
    -- what is stored in the block as it is now was stored there before
    have hstore₁ : StoresClean slots b₁.insts := by
      intro ty ptr v hi
      rcases hren.insts.origin _ hi with hi | ⟨dst, ty', v', heq, _⟩
      · exact hstores b₂ (List.mem_of_getElem? hb₂) ty ptr v hi
      · exact absurd heq (by simp)
    obtain ⟨hre, hset, hclean⟩ := rewriteInsts_spec hstore₁ henter
    obtain ⟨hcur', hblocks⟩ := renameNode_blocks f₀ f slots ps node cur (hposeq.trans hpos) hb₁
    obtain ⟨hkept, horigin⟩ := appendArgs_operands f₀ ps hclean b₁.term
    refine ⟨⟨hparams.trans h.params, hlength.trans h.length, fun q b b' hb hb' => ?_, fun q b' hb' hv => ?_,
      fun q b b' hb hb' hv => ?_⟩, by rw [hcur']; exact hclean⟩
    · rw [hblocks] at hb'
      split at hb'
      · next hq =>
        subst hq
        obtain rfl := Option.some.inj (hb₂.symm.trans hb)
        rw [← Option.some.inj hb']
        refine ⟨hren.id, hren.params, hren.insts.trans hre, fun o ho => hkept o (hren.termKept o ho), fun o ho => ?_⟩
        rcases horigin o ho with ho | ho
        · exact hren.termOrigin o ho
        · exact .inr ho
      · exact h.block q b b' hb hb'
    · rw [hblocks] at hb'
      split at hb'
      · rw [← Option.some.inj hb']
        exact hset
      · next hq =>
        refine h.settled q b' hb' ((visits_cons.mp hv).resolve_left ?_)
        rw [hpos]
        exact fun heq => hq (Option.some.inj heq)
    · rw [hblocks] at hb'
      have hq : p ≠ q := by
        rintro rfl
        exact hv (visits_cons.mpr (.inl hpos))
      rw [if_neg hq] at hb'
      exact h.waiting q b b' hb hb' fun hold => hv (visits_cons.mpr (.inr hold))

theorem domChildren_spec {cfg : Cfg} {t : IDom} (hdef : ∀ x, (t x).isSome ↔ Reach cfg.succ.Edge cfg.entry x)
    (hentry : cfg.entry < cfg.nodeCount) : TreeWalk.Children t (domChildren cfg.nodeCount t) where
  mem_iff x c := by
    simp only [domChildren, List.mem_filter, List.mem_range, decide_eq_true_eq, and_iff_right_iff_imp]
    rintro ⟨hc, _⟩
    have hreach : Reach cfg.succ.Edge cfg.entry c := (hdef c).mp (by rw [hc]; rfl)
    rcases hreach.cases with rfl | ⟨p, _, hpc⟩
    · exact hentry
    · exact cfg.closed p c hpc
  nodup x := List.nodup_range.filter _

/-- **The renaming** returns, and renames the blocks of the nodes that the entry reaches. -/
theorem rename_spec {f₀ f₂ : Func} {slots : Slots} {ps : List Phi} (hblocks : f₀.blocks ≠ [])
    (hps : ∀ p ∈ ps, Clean slots (.reg p.reg)) (hids : ids f₂ = ids f₀)
    (hstores : ∀ b ∈ f₂.blocks, StoresClean slots b.insts) :
    ∃ t f' done, Dominators.new f₀.cfg = some t ∧ rename f₀ t slots ps f₂ = some f' ∧
      Renamed slots f₀ f₂ done f' ∧ ∀ n, n ∈ done ↔ Reach f₀.cfg.succ.Edge f₀.cfg.entry n := by
  have hpos := entry_lt_of_blocks hblocks
  have hentry := f₀.cfg.entry_lt hpos
  obtain ⟨t, num, ht, htree, _, hdef⟩ := Dominators.new_tree f₀.cfg hpos
  have hV : ∀ x, (t x).isSome → x ∈ Finset.range f₀.cfg.nodeCount := by
    intro x hx
    rcases ((hdef x).mp hx).cases with rfl | ⟨p, _, hpx⟩
    · exact Finset.mem_range.mpr hentry
    · exact Finset.mem_range.mpr (f₀.cfg.closed p x hpx)
  obtain ⟨done, f', hrun, hren, hmem⟩ := TreeWalk.walk_spec (renameNode f₀ slots ps) (f₀.cfg.nodeCount + 1) f₂
    (fun _ => .const .undef) htree (domChildren_spec hdef hentry) hV (P := Renamed slots f₀ f₂) (Q := AllClean slots)
    (fun done f node cur _ h hcur => h.visit hps hids hstores node hcur) (.refl slots f₀ f₂) (fun a b _ => rfl)
    (by rw [Finset.card_range]; exact Nat.lt_succ_self _)
  exact ⟨t, f', done, ht, hrun, hren, fun n => (hmem n).trans (hdef n)⟩

/-! ## New parameters -/

/-- The blocks without their parameters. -/
def bodies (f : Func) : List (BlockId × List Inst × Terminator) := f.blocks.map fun b => (b.id, b.insts, b.term)

def paramRegs (f : Func) : List RegId := f.blocks.flatMap fun b => b.params.map (·.1)

theorem bodies_updateBlock (f : Func) (id : BlockId) {g : BasicBlock → BasicBlock}
    (hg : ∀ b, (g b).id = b.id ∧ (g b).insts = b.insts ∧ (g b).term = b.term) :
    bodies (f.updateBlock id g) = bodies f := by
  apply List.ext_getElem?
  intro q
  rw [bodies, bodies, List.getElem?_map, List.getElem?_map, updateBlock_blocks]
  split
  · cases f.blocks[q]? with
    | none => rfl
    | some b =>
      obtain ⟨hid, hinsts, hterm⟩ := hg b
      simp only [Option.map_some, hid, hinsts, hterm]
  · rfl

theorem bodies_addParams (ps : List Phi) (f : Func) :
    bodies (ps.foldl addParam f) = bodies f ∧ (ps.foldl addParam f).params = f.params := by
  induction ps generalizing f with
  | nil => exact ⟨rfl, rfl⟩
  | cons p ps ih =>
    obtain ⟨hbodies, hparams⟩ := ih (addParam f p)
    refine ⟨hbodies.trans ?_, hparams.trans ?_⟩
    · exact bodies_updateBlock f _ fun b => ⟨rfl, rfl, rfl⟩
    · exact updateBlock_params f _ _

theorem ids_of_bodies {f g : Func} (h : bodies f = bodies g) : ids f = ids g := by
  have hids (f : Func) : ids f = (bodies f).map (·.1) := by
    rw [ids, bodies, List.map_map]
    rfl
  rw [hids, hids, h]

theorem block_of_bodies {f g : Func} (h : bodies g = bodies f) {p : Nat} {b' : BasicBlock}
    (hb' : g.blocks[p]? = some b') : ∃ b, f.blocks[p]? = some b ∧ b'.insts = b.insts ∧ b'.term = b.term := by
  have hbody : (bodies f)[p]? = some (b'.id, b'.insts, b'.term) := by
    rw [← h, bodies, List.getElem?_map, hb']
    rfl
  rw [bodies, List.getElem?_map] at hbody
  obtain ⟨b, hb, heq⟩ := Option.map_eq_some_iff.mp hbody
  simp only [Prod.mk.injEq] at heq
  exact ⟨b, hb, heq.2.1.symm, heq.2.2.symm⟩

/-! ## Slots that are still used -/

/-- A use of the register in an instruction or a terminator. -/
def Uses (f : Func) (a : RegId) : Prop :=
  ∃ b ∈ f.blocks, (∃ i ∈ b.insts, ∃ o ∈ i.operands, isSlot o a = true) ∨ ∃ o ∈ termOperands b.term, isSlot o a = true

/-- The block at the position is that of a node the entry reaches. -/
def Reached (f : Func) (p : Nat) : Prop :=
  ∃ n, Reach f.cfg.succ.Edge f.cfg.entry n ∧ f.position (f.blockId n) = some p

/-- No operand that `visit_operands` passes over is the register, and no instruction of a block that the entry
    does not reach has it. -/
def Unseen (f : Func) (a : RegId) : Prop :=
  (∀ b ∈ f.blocks, ∀ i ∈ b.insts, ∀ o ∈ i.skipped, isSlot o a = false) ∧
    ∀ (p : Nat) (b : BasicBlock), f.blocks[p]? = some b → ¬ Reached f p →
      ∀ i ∈ b.insts, ∀ o ∈ i.visited, isSlot o a = false

theorem not_gone_of_skipped {slots : Slots} {i : Inst} {o : Operand} (ho : o ∈ i.skipped) : ¬ Gone slots i := by
  cases i with
  | alloc dst elem count => exact absurd ho List.not_mem_nil
  | load dst ty ptr => exact absurd ho List.not_mem_nil
  | store ty ptr value => exact absurd ho List.not_mem_nil
  | _ => exact id

theorem uses_iff_of_renamed {f₁ f₂ f' : Func} {slots : Slots} {ps : List Phi} (hprom : Promotable f₁ slots ps)
    (hbodies : bodies f₂ = bodies f₁) {done : List Nat} (hren : Renamed slots f₁ f₂ done f')
    (hdone : ∀ n, n ∈ done ↔ Reach f₁.cfg.succ.Edge f₁.cfg.entry n) {a : RegId} (ha : (slots.get a).isSome) :
    ¬ Uses f' a ↔ Unseen f₁ a := by
  have hvisits (p : Nat) : Visits f₁ done p ↔ Reached f₁ p :=
    ⟨fun ⟨n, hn, hp⟩ => ⟨n, (hdone n).mp hn, hp⟩, fun ⟨n, hn, hp⟩ => ⟨n, (hdone n).mpr hn, hp⟩⟩
  -- a block before the promotion, as it goes into the renaming and as it comes out
  have hafter {p : Nat} {b : BasicBlock} (hb : f₁.blocks[p]? = some b) : ∃ b₂ b', f₂.blocks[p]? = some b₂ ∧
      f'.blocks[p]? = some b' ∧ b₂.insts = b.insts := by
    have hlen : f₂.blocks.length = f₁.blocks.length := by
      simpa [bodies] using congrArg List.length hbodies
    have hlt := (List.getElem?_eq_some_iff.mp hb).1
    have hb₂ := List.getElem?_eq_getElem (hlen ▸ hlt : p < f₂.blocks.length)
    obtain ⟨b₁, hb₁, hinsts, _⟩ := block_of_bodies hbodies hb₂
    obtain rfl := Option.some.inj (hb.symm.trans hb₁)
    exact ⟨_, _, hb₂, List.getElem?_eq_getElem (hren.length ▸ hlen ▸ hlt), hinsts⟩
  constructor
  · intro hno
    refine ⟨fun b hb i hi o ho => ?_, fun p b hb hunr i hi o ho => ?_⟩
    · obtain ⟨p, hp⟩ := List.mem_iff_getElem?.mp hb
      obtain ⟨b₂, b', hb₂, hb', hinsts⟩ := hafter hp
      refine Bool.eq_false_iff.mpr fun hslot => hno ⟨b', List.mem_of_getElem? hb', .inl ⟨i, ?_, o, ?_, hslot⟩⟩
      · exact (hren.block p b₂ b' hb₂ hb').insts.kept i (hinsts ▸ hi) (not_gone_of_skipped ho)
      · exact List.mem_append_right _ ho
    · obtain ⟨b₂, b', hb₂, hb', hinsts⟩ := hafter hb
      refine Bool.eq_false_iff.mpr fun hslot => hno ⟨b', List.mem_of_getElem? hb', .inl ⟨i, ?_, o, ?_, hslot⟩⟩
      · rw [hren.waiting p b₂ b' hb₂ hb' fun hv => hunr ((hvisits p).mp hv), hinsts]
        exact hi
      · exact List.mem_append_left _ ho
  · rintro ⟨hskip, hunr⟩ ⟨b', hmem, huse⟩
    obtain ⟨p, hb'⟩ := List.mem_iff_getElem?.mp hmem
    have hlt := (List.getElem?_eq_some_iff.mp hb').1
    have hb₂ := List.getElem?_eq_getElem (hren.length ▸ hlt : p < f₂.blocks.length)
    obtain ⟨b, hb, hinsts, hterm⟩ := block_of_bodies hbodies hb₂
    have hblock := hren.block p _ b' hb₂ hb'
    have hbmem : b ∈ f₁.blocks := List.mem_of_getElem? hb
    rcases huse with ⟨i, hi, o, ho, hslot⟩ | ⟨o, ho, hslot⟩
    · rcases hblock.insts.origin i hi with hold | ⟨dst, ty, v, rfl, hclean⟩
      · rw [hinsts] at hold
        rcases List.mem_append.mp ho with ho | ho
        · by_cases hr : Reached f₁ p
          · -- nothing of a promoted slot is left in a renamed block
            have hgone := hren.settled p b' hb' ((hvisits p).mpr hr) i hi
            exact absurd (hprom.visited hbmem hold hgone ho a ha) (by rw [hslot]; exact Bool.noConfusion)
          · exact absurd (hunr p b hb hr i hold o ho) (by rw [hslot]; exact Bool.noConfusion)
        · exact absurd (hskip b hbmem i hold o ho) (by rw [hslot]; exact Bool.noConfusion)
      · obtain rfl : o = v := by simpa [Inst.operands, Inst.visited, Inst.skipped, RValue.operands] using ho
        exact absurd (hclean a ha) (by rw [hslot]; exact Bool.noConfusion)
    · rcases hblock.termOrigin o ho with ho | hclean
      · rw [hterm] at ho
        exact absurd (hprom.term hbmem ho a ha) (by rw [hslot]; exact Bool.noConfusion)
      · exact absurd (hclean a ha) (by rw [hslot]; exact Bool.noConfusion)

/-- **The promotion** returns. It changes nothing but the switch edges, or places the parameters and renames. -/
theorem promoteFunction_spec (f : Func) : ∃ slots ps f', placement (splitCriticalSwitchEdges f) = some (slots, ps) ∧
    promoteFunction f = some f' ∧ Placed (splitCriticalSwitchEdges f) slots ps ∧
    (slots = [] ∧ f' = splitCriticalSwitchEdges f ∨
      ∃ done, Renamed slots (splitCriticalSwitchEdges f) (ps.foldl addParam (splitCriticalSwitchEdges f)) done f' ∧
        ∀ n, n ∈ done ↔ Reach (splitCriticalSwitchEdges f).cfg.succ.Edge (splitCriticalSwitchEdges f).cfg.entry n) := by
  rw [promoteFunction]
  generalize splitCriticalSwitchEdges f = f₁
  obtain ⟨slots, ps, hplace, hplaced⟩ := placement_spec f₁
  simp only [hplace, Option.bind_eq_bind, Option.bind_some]
  split
  · next hempty => exact ⟨slots, ps, f₁, rfl, rfl, hplaced, .inl ⟨List.isEmpty_iff.mp hempty, rfl⟩⟩
  · next hne =>
    have hblocks : f₁.blocks ≠ [] := by
      intro hnil
      have hsub := hplaced.sub
      rw [eligibleSlots, candidates, hnil] at hsub
      rw [List.sublist_nil.mp hsub] at hne
      exact hne rfl
    have hprom := hplaced.promotable
    obtain ⟨hbodies, _⟩ := bodies_addParams ps f₁
    have hstores : ∀ b ∈ (ps.foldl addParam f₁).blocks, StoresClean slots b.insts := by
      intro b₂ hb₂
      obtain ⟨p, hp⟩ := List.mem_iff_getElem?.mp hb₂
      obtain ⟨b, hb, hinsts, _⟩ := block_of_bodies hbodies hp
      rw [hinsts]
      exact hprom.stores (List.mem_of_getElem? hb)
    obtain ⟨t, f', done, ht, hrun, hren, hdone⟩ := rename_spec hblocks hprom.reg (ids_of_bodies hbodies) hstores
    refine ⟨slots, ps, f', rfl, ?_, hplaced, .inr ⟨done, hren, hdone⟩⟩
    rw [ht]
    exact hrun

/-- **No dangling slot.** `promote_function` returns on every function. A promoted slot is used by no instruction
    and no terminator of the result exactly if it stands in no operand that `visit_operands` passes over (an
    indirect callee, the source of a reference, the access of a barrier, a compare-and-swap), and in no block
    that the entry does not reach. -/
theorem no_dangling_slot_iff (f : Func) : ∃ slots ps f',
    placement (splitCriticalSwitchEdges f) = some (slots, ps) ∧ promoteFunction f = some f' ∧
      ∀ a, (slots.get a).isSome → (¬ Uses f' a ↔ Unseen (splitCriticalSwitchEdges f) a) := by
  obtain ⟨slots, ps, f', hplace, hrun, hplaced, hcase⟩ := promoteFunction_spec f
  refine ⟨slots, ps, f', hplace, hrun, fun a ha => ?_⟩
  rcases hcase with ⟨rfl, _⟩ | ⟨done, hren, hdone⟩
  · exact absurd ha (by simp [SortedMap.get])
  · exact uses_iff_of_renamed hplaced.promotable (bodies_addParams ps _).1 hren hdone ha

/-- A counter that is swapped atomically. -/
def swapped : Func :=
  let one : Operand := .const (.int ⟨32, 1, BitVector.pos32, BitVector.le32, BitVector.one_lt32⟩)
  ⟨[], [⟨0, [], [.alloc 0 (.int 32) one, .store (.int 32) (.reg 0) one, .cas (.reg 0)], .ret none⟩], 0⟩

/-- The slot is promoted, and the swap still has its register. -/
theorem swapped_dangling : ¬ ∃ slots ps f', placement (splitCriticalSwitchEdges swapped) = some (slots, ps) ∧
    promoteFunction swapped = some f' ∧ ∀ a, (slots.get a).isSome → ¬ Uses f' a := by
  rintro ⟨slots, ps, f', hplace, hrun, hno⟩
  have hslot : ((placement (splitCriticalSwitchEdges swapped)).any fun r => (r.1.get 0).isSome) = true := by decide
  rw [hplace] at hslot
  have huse : ((promoteFunction swapped).any fun g => g.blocks.any fun b => b.insts.any fun i =>
      i.operands.any (isSlot · 0)) = true := by decide
  rw [hrun] at huse
  obtain ⟨b, hb, huse⟩ := List.any_eq_true.mp huse
  obtain ⟨i, hi, huse⟩ := List.any_eq_true.mp huse
  obtain ⟨o, ho, hslot'⟩ := List.any_eq_true.mp huse
  exact hno 0 hslot ⟨b, hb, .inl ⟨i, hi, o, ho, hslot'⟩⟩

end Csolver.Mem2reg
