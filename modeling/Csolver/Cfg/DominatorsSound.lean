import Csolver.Cfg.DominatorTree
import Mathlib.Tactic.Linarith

/-!
# Dominator trees are correct

A walk that changes nothing leaves every parent an ancestor of all predecessors, and then every
claimed dominator is one; no dominator is ever lost (`Faithful`).

That the walks end is the harder half, because moving one parent changes the chains of all nodes
below it at once. In reverse postorder a new parent is always found on the old parent's chain
(`Walked.anc_parent`): the nodes above have been settled in this walk, and the walk before left the
old parent above everything its predecessors had in common.
-/

namespace Csolver.DomTree

open Lib

/-! ## The first walk -/

section

variable {pred : Adj} {E : Nat → Nat → Prop} {root : Nat} {post : List Nat}

/-- The tree after the first walk has settled `done`: every parent is the nearest common ancestor of
    the predecessors numbered higher. -/
structure First (E : Nat → Nat → Prop) (root : Nat) (post done : List Nat) (t : IDom) : Prop where
  tree : ParentTree root (postNum post) t
  defined : ∀ x, (t x).isSome ↔ x = root ∨ x ∈ done
  forward : ∀ x ∈ done, x ≠ root → ∀ d, t x = some d → ∀ q ∈ post, E q x →
    postNum post x < postNum post q → Anc t d q
  common : ∀ x ∈ done, x ≠ root → ∀ d, t x = some d → ∀ y,
    (∀ q ∈ post, E q x → postNum post x < postNum post q → Anc t y q) → Anc t y d
  faithful : Faithful E root t

variable (hn : Numbered E root post) (hpred : ∀ a b, pred.Edge b a ↔ E a b)

omit hpred in
include hn in
theorem first_start : First E root post [] (Function.update (fun _ => none) root (some root)) := by
  have hroot : ∀ {x d : Nat}, Function.update (fun _ => none) root (some root) x = some d →
      x = root ∧ d = root := by
    intro x d hd
    by_cases hx : x = root
    · subst hx
      rw [Function.update_self, Option.some.injEq] at hd
      exact ⟨rfl, hd.symm⟩
    · rw [Function.update_of_ne hx] at hd
      exact absurd hd (by simp)
  have hsome : ∀ {x : Nat}, (Function.update (fun _ => none) root (some root) x).isSome → x = root :=
    fun hx => (hroot (Option.isSome_iff_exists.mp hx).choose_spec).1
  refine ⟨⟨Function.update_self .., ?_, ?_, ?_, ?_⟩, ?_, ?_, ?_, ?_⟩
  · intro x d hd
    rw [(hroot hd).2, Function.update_self]
    rfl
  · intro x d hd hx
    exact absurd (hroot hd).1 hx
  · intro x hx
    rw [hsome hx]
  · intro x y hx hy _
    rw [hsome hx, hsome hy]
  · intro x
    constructor
    · exact fun hx => .inl (hsome hx)
    · rintro (rfl | hx)
      · rw [Function.update_self]
        rfl
      · exact absurd hx List.not_mem_nil
  · exact fun x hx => absurd hx List.not_mem_nil
  · exact fun x hx => absurd hx List.not_mem_nil
  · intro b d hd hb
    exact absurd (hroot hd).1 hb

include hn hpred in
theorem First.visit {done todo : List Nat} {b : Nat} {t : IDom} (h : First E root post done t)
    (hsplit : post.reverse = done ++ b :: todo) {fuel : Nat}
    (hfuel : 2 * postNum post root < fuel) (c : Bool) :
    ∃ t' c', visit pred root (postNum post) fuel (t, c) b = some (t', c') ∧
      First E root post (done ++ [b]) t' ∧ (c' = false → c = false ∧ b = root) := by
  have hdone := hn.mem_done hsplit
  have hbpost : b ∈ post := by
    rw [← List.mem_reverse, hsplit]
    exact List.mem_append_right _ List.mem_cons_self
  unfold DomTree.visit
  by_cases hb : b = root
  · rw [if_pos hb]
    have hmem : ∀ {x : Nat}, x ∈ done ++ [b] → x ≠ root → x ∈ done := by
      intro x hx hne
      rcases List.mem_append.mp hx with hx | hx
      · exact hx
      · exact absurd ((List.mem_singleton.mp hx).trans hb) hne
    refine ⟨t, c, rfl, ⟨h.tree, fun x => ?_, fun x hx hne => h.forward x (hmem hx hne) hne,
      fun x hx hne => h.common x (hmem hx hne) hne, h.faithful⟩, fun hc => ⟨hc, hb⟩⟩
    rw [h.defined x, List.mem_append, List.mem_singleton, hb]
    tauto
  · rw [if_neg hb]
    have hbnone : t b = none := by
      rw [← Option.not_isSome_iff_eq_none, h.defined]
      rintro (he | hmem)
      · exact hb he
      · exact Nat.lt_irrefl _ ((hdone b).mp hmem).2
    obtain ⟨q, hq, hqb, hqlt⟩ := hn.up hbpost hb
    have hqt : (t q).isSome := (h.defined q).mpr (.inr ((hdone q).mpr ⟨hq, hqlt⟩))
    obtain ⟨r, hr, hcommon⟩ := @newIdom_spec _ _ _ h.tree _ hfuel (pred.row b) none
      fun c hc => absurd hc (by simp)
    cases r with
    | none =>
      rw [hcommon.2 q ((hpred q b).mpr hqb)] at hqt
      exact absurd hqt Bool.false_ne_true
    | some m =>
      obtain ⟨hm, hps, -, hall⟩ := hcommon
      have hanc : ∀ q, E q b → (t q).isSome → Anc t m q := fun q hq => hps q ((hpred q b).mpr hq)
      have hmax : ∀ y, (∀ q, E q b → (t q).isSome → Anc t y q) → Anc t y m := fun y hy =>
        hall y (fun q hq => hy q ((hpred q b).mp hq)) fun c hc => absurd hc (by simp)
      have hreach : ∀ x, (t x).isSome → x ∈ post := by
        intro x hx
        rcases (h.defined x).mp hx with rfl | hx
        · exact hn.root_mem
        · exact ((hdone x).mp hx).1
      have hblt : postNum post b < postNum post m :=
        Nat.lt_of_lt_of_le hqlt (h.tree.num_le (hanc q hqb hqt))
      have htree : ParentTree root (postNum post) (Function.update t b (some m)) :=
        h.tree.update hb hm hblt (hn.le_root hbpost) fun hx he => postNum_inj (hreach _ hx) hbpost he
      -- the chains of the nodes settled before stay as they were
      have hkeep : ∀ {a x : Nat}, (t x).isSome → (Anc (Function.update t b (some m)) a x ↔ Anc t a x) :=
        fun hx => h.tree.anc_update_undefined hbnone hx
      have hold : ∀ {x d : Nat}, x ∈ done → Function.update t b (some m) x = some d → t x = some d := by
        intro x d hx hd
        have hxb : x ≠ b := by
          rintro rfl
          exact Nat.lt_irrefl _ ((hdone x).mp hx).2
        rwa [Function.update_of_ne hxb] at hd
      refine ⟨Function.update t b (some m), true, ?_, ⟨htree, ?_, ?_, ?_, ?_⟩,
        fun hc => absurd hc (by decide)⟩
      · rw [hr]
        show (if t b = some m then some (t, c) else _) = _
        rw [hbnone, if_neg (by simp)]
      · intro x
        by_cases hx : x = b
        · subst hx
          simp
        · rw [Function.update_of_ne hx, h.defined x]
          simp [hx]
      · intro x hx hne d hd q hq hqx hlt
        rcases List.mem_append.mp hx with hx | hx
        · have hqt : (t q).isSome := (h.defined q).mpr
            (.inr ((hdone q).mpr ⟨hq, Nat.lt_trans ((hdone x).mp hx).2 hlt⟩))
          rw [hkeep hqt]
          exact h.forward x hx hne d (hold hx hd) q hq hqx hlt
        · obtain rfl : x = b := List.mem_singleton.mp hx
          rw [Function.update_self, Option.some.injEq] at hd
          subst hd
          have hqt : (t q).isSome := (h.defined q).mpr (.inr ((hdone q).mpr ⟨hq, hlt⟩))
          rw [hkeep hqt]
          exact hanc q hqx hqt
      · intro x hx hne d hd y hy
        rcases List.mem_append.mp hx with hx | hx
        · have hxd := hold hx hd
          rw [hkeep (h.tree.closed hxd)]
          refine h.common x hx hne d hxd y fun q hq hqx hlt => ?_
          have hqt : (t q).isSome := (h.defined q).mpr
            (.inr ((hdone q).mpr ⟨hq, Nat.lt_trans ((hdone x).mp hx).2 hlt⟩))
          rw [← hkeep hqt]
          exact hy q hq hqx hlt
        · obtain rfl : x = b := List.mem_singleton.mp hx
          rw [Function.update_self, Option.some.injEq] at hd
          subst hd
          rw [hkeep hm]
          refine hmax y fun q hqx hqt => ?_
          rw [← hkeep hqt]
          refine hy q (hreach q hqt) hqx ?_
          rcases (h.defined q).mp hqt with rfl | hqd
          · exact Nat.lt_of_le_of_ne (hn.le_root hbpost) fun he =>
              hb (postNum_inj hbpost hn.root_mem he)
          · exact ((hdone q).mp hqd).2
      · exact h.faithful.update h.tree (fun x hx => (hn.mem_iff x).mp (hreach x hx)) hmax hqb hqt
          (hanc q hqb hqt)

/-! ## Later walks -/

/-- The tree between two walks. -/
structure Stable (E : Nat → Nat → Prop) (root : Nat) (post : List Nat) (t : IDom) : Prop where
  tree : ParentTree root (postNum post) t
  defined : ∀ x, (t x).isSome ↔ x ∈ post
  /-- A parent is an ancestor of every predecessor numbered higher, -/
  forward : ∀ x ∈ post, x ≠ root → ∀ d, t x = some d → ∀ q ∈ post, E q x →
    postNum post x < postNum post q → Anc t d q
  /-- and what all predecessors have in common is an ancestor of it. -/
  common : ∀ x ∈ post, x ≠ root → ∀ d, t x = some d → ∀ y,
    (∀ q ∈ post, E q x → Anc t y q) → Anc t y d
  faithful : Faithful E root t

include hn in
theorem First.stable {t : IDom} (h : First E root post post.reverse t) : Stable E root post t where
  tree := h.tree
  defined x := by
    rw [h.defined x, List.mem_reverse, or_iff_right_iff_imp]
    rintro rfl
    exact hn.root_mem
  forward x hx := h.forward x (List.mem_reverse.mpr hx)
  common x hx hne d hd y hy := h.common x (List.mem_reverse.mpr hx) hne d hd y
    fun q hq hqx _ => hy q hq hqx
  faithful := h.faithful

/-- The tree in a walk that started from `old` and has settled `done`. -/
structure Walked (E : Nat → Nat → Prop) (root : Nat) (post : List Nat) (old : IDom)
    (done : List Nat) (t : IDom) : Prop where
  tree : ParentTree root (postNum post) t
  defined : ∀ x, (t x).isSome ↔ x ∈ post
  sub : ∀ {y x}, Anc t y x → Anc old y x
  rest : ∀ x, x ∉ done → t x = old x
  forward : ∀ x ∈ done, x ≠ root → ∀ d, t x = some d → ∀ q ∈ post, E q x →
    postNum post x < postNum post q → Anc t d q
  common : ∀ x ∈ done, x ≠ root → ∀ d, t x = some d → ∀ y,
    (∀ q ∈ post, E q x → Anc t y q) → Anc t y d
  faithful : Faithful E root t

theorem Stable.walked {t : IDom} (h : Stable E root post t) : Walked E root post t [] t where
  tree := h.tree
  defined := h.defined
  sub := id
  rest _ _ := rfl
  forward _ hx := absurd hx List.not_mem_nil
  common _ hx := absurd hx List.not_mem_nil
  faithful := h.faithful

theorem Walked.stable {old t : IDom} (h : Walked E root post old post.reverse t) :
    Stable E root post t where
  tree := h.tree
  defined := h.defined
  forward x hx := h.forward x (List.mem_reverse.mpr hx)
  common x hx := h.common x (List.mem_reverse.mpr hx)
  faithful := h.faithful

include hn in
/-- An old ancestor `m` of `d` that is still above a settled node below `d` is still above `d`: go up
    from that node through predecessors, all of which are settled. -/
theorem Walked.lift {old t : IDom} {done todo : List Nat} {b : Nat}
    (h : Walked E root post old done t) (hold : Stable E root post old)
    (hsplit : post.reverse = done ++ b :: todo) {m d : Nat} (hmd : Anc old m d) (x : Nat)
    (hx : x ∈ done) (hdx : Anc old d x) (hmx : Anc t m x) : Anc t m d := by
  by_cases hxd : x = d
  · rwa [← hxd]
  · have hdone := hn.mem_done hsplit
    have hxpost := ((hdone x).mp hx).1
    have hxroot : x ≠ root := by
      rintro rfl
      exact hxd (hold.tree.anc_root hdx rfl).symm
    have hmx' : m ≠ x := by
      rintro rfl
      have h₁ := hold.tree.num_lt hdx (Ne.symm hxd)
      have h₂ := hold.tree.num_le hmd
      omega
    obtain ⟨e, he⟩ := Option.isSome_iff_exists.mp ((hold.defined x).mpr hxpost)
    obtain ⟨e', he'⟩ := Option.isSome_iff_exists.mp ((h.defined x).mpr hxpost)
    obtain ⟨q, hq, hqx, hlt⟩ := hn.up hxpost hxroot
    have hqdone : q ∈ done := (hdone q).mpr ⟨hq, Nat.lt_trans ((hdone x).mp hx).2 hlt⟩
    have hdq : Anc old d q :=
      (hdx.parent (Ne.symm hxd) he).trans (hold.forward x hxpost hxroot e he q hq hqx hlt)
    have hmq : Anc t m q := (hmx.parent hmx' he').trans (h.forward x hx hxroot e' he' q hq hqx hlt)
    have hle := hn.le_root hq
    exact h.lift hold hsplit hmd q hqdone hdq hmq
termination_by postNum post root - postNum post x

include hn in
/-- **The new parent is on the old parent's chain.** -/
theorem Walked.anc_parent {old t : IDom} {done todo : List Nat} {b : Nat}
    (h : Walked E root post old done t) (hold : Stable E root post old)
    (hsplit : post.reverse = done ++ b :: todo) (hb : b ≠ root) {d m : Nat} (hd : t b = some d)
    (hm : ∀ q ∈ post, E q b → Anc t m q) : Anc t m d := by
  have hdone := hn.mem_done hsplit
  have hbpost : b ∈ post := (h.defined b).mp (by rw [hd]; rfl)
  have hbnot : b ∉ done := fun hmem => Nat.lt_irrefl _ ((hdone b).mp hmem).2
  have hdold : old b = some d := by rw [← h.rest b hbnot, hd]
  have hmd : Anc old m d := hold.common b hbpost hb d hdold m fun q hq hqb => h.sub (hm q hq hqb)
  obtain ⟨q, hq, hqb, hlt⟩ := hn.up hbpost hb
  exact h.lift hn hold hsplit hmd q ((hdone q).mpr ⟨hq, hlt⟩)
    (hold.forward b hbpost hb d hdold q hq hqb hlt) (hm q hq hqb)

include hn in
theorem Walked.settle {old t : IDom} {done todo : List Nat} {b : Nat}
    (h : Walked E root post old done t) (hold : Stable E root post old)
    (hsplit : post.reverse = done ++ b :: todo) (hb : b ≠ root) {d m : Nat} (hd : t b = some d)
    (hm : ∀ q ∈ post, E q b → Anc t m q)
    (hmax : ∀ y, (∀ q ∈ post, E q b → Anc t y q) → Anc t y m) :
    Walked E root post old (done ++ [b]) (Function.update t b (some m)) := by
  have hdone := hn.mem_done hsplit
  have hbpost : b ∈ post := (h.defined b).mp (by rw [hd]; rfl)
  have hmd := h.anc_parent hn hold hsplit hb hd hm
  have hmt : (t m).isSome := h.tree.defined hmd (h.tree.closed hd)
  have hblt : postNum post b < postNum post m :=
    Nat.lt_of_lt_of_le (h.tree.lt hd hb) (h.tree.num_le hmd)
  obtain ⟨p, hp, hpb, hplt⟩ := hn.up hbpost hb
  have hup : ∀ {a x : Nat}, postNum post b < postNum post x → Anc t a x →
      Anc (Function.update t b (some m)) a x := fun hx ha => h.tree.anc_update_above ha hx
  have hdown : ∀ {a x : Nat}, Anc (Function.update t b (some m)) a x → Anc t a x :=
    fun ha => ParentTree.anc_of_update hd hmd ha
  have hsettled : ∀ {x e : Nat}, x ∈ done → Function.update t b (some m) x = some e →
      t x = some e ∧ postNum post b < postNum post x := by
    intro x e hx he
    have hlt := ((hdone x).mp hx).2
    have hxb : x ≠ b := by
      rintro rfl
      exact Nat.lt_irrefl _ hlt
    rw [Function.update_of_ne hxb] at he
    exact ⟨he, hlt⟩
  refine ⟨?_, ?_, fun ha => h.sub (hdown ha), ?_, ?_, ?_, ?_⟩
  · exact h.tree.update hb hmt hblt (hn.le_root hbpost)
      fun hx he => postNum_inj ((h.defined _).mp hx) hbpost he
  · intro x
    by_cases hx : x = b
    · rw [hx, Function.update_self]
      exact iff_of_true rfl hbpost
    · rw [Function.update_of_ne hx]
      exact h.defined x
  · intro x hx
    have hxb : x ≠ b := fun he => hx (by rw [he]; exact List.mem_append_right _ List.mem_cons_self)
    rw [Function.update_of_ne hxb]
    exact h.rest x fun hmem => hx (List.mem_append_left _ hmem)
  · intro x hx hne e he q hq hqx hlt
    rcases List.mem_append.mp hx with hx | hx
    · obtain ⟨he, hbx⟩ := hsettled hx he
      exact hup (Nat.lt_trans hbx hlt) (h.forward x hx hne e he q hq hqx hlt)
    · obtain rfl : x = b := List.mem_singleton.mp hx
      rw [Function.update_self, Option.some.injEq] at he
      subst he
      exact hup hlt (hm q hq hqx)
  · intro x hx hne e he y hy
    rcases List.mem_append.mp hx with hx | hx
    · obtain ⟨he, hbx⟩ := hsettled hx he
      refine hup (Nat.lt_trans hbx (h.tree.lt he hne)) ?_
      exact h.common x hx hne e he y fun q hq hqx => hdown (hy q hq hqx)
    · obtain rfl : x = b := List.mem_singleton.mp hx
      rw [Function.update_self, Option.some.injEq] at he
      subst he
      exact hup hblt (hmax y fun q hq hqx => hdown (hy q hq hqx))
  · refine h.faithful.update h.tree (fun x hx => (hn.mem_iff x).mp ((h.defined x).mp hx)) ?_ hpb
      ((h.defined p).mpr hp) (hm p hp hpb)
    exact fun y hy => hmax y fun q hq hqb => hy q hqb ((h.defined q).mpr hq)

/-! ## The walks end -/

/-- The parents' numbers, summed up: a walk that changes something raises it. -/
def weight (root : Nat) (post : List Nat) (t : IDom) : Nat :=
  ∑ x ∈ post.toFinset, postNum post ((t x).getD root)

omit hn hpred in
theorem weight_update {t : IDom} {b d m : Nat} (hb : b ∈ post) (hd : t b = some d)
    (hlt : postNum post d < postNum post m) :
    weight root post t < weight root post (Function.update t b (some m)) := by
  have hmem : b ∈ post.toFinset := List.mem_toFinset.mpr hb
  refine Finset.sum_lt_sum (fun x _ => ?_) ⟨b, hmem, ?_⟩
  · by_cases hx : x = b
    · rw [hx, hd, Function.update_self]
      exact Nat.le_of_lt hlt
    · rw [Function.update_of_ne hx]
  · rw [hd, Function.update_self]
    exact hlt

include hn in
theorem Stable.weight_le {t : IDom} (h : Stable E root post t) :
    weight root post t ≤ post.length * post.length := by
  have hbound : ∀ x ∈ post.toFinset, postNum post ((t x).getD root) ≤ post.length := by
    intro x hx
    obtain ⟨d, hd⟩ := Option.isSome_iff_exists.mp ((h.defined x).mpr (List.mem_toFinset.mp hx))
    have hdpost := (h.defined d).mp (h.tree.closed hd)
    rw [hd, Option.getD_some, postNum_mem hdpost]
    exact Nat.le_of_lt (List.idxOf_lt_length_of_mem hdpost)
  calc weight root post t ≤ post.toFinset.card • post.length := Finset.sum_le_card_nsmul _ _ _ hbound
    _ = post.length * post.length := by rw [List.toFinset_card_of_nodup hn.nodup]; rfl

/-- The parents of `xs` are ancestors of all their predecessors. -/
def Consistent (E : Nat → Nat → Prop) (root : Nat) (post : List Nat) (t : IDom) (xs : List Nat) :
    Prop :=
  ∀ x ∈ xs, x ≠ root → ∀ d, t x = some d → ∀ p ∈ post, E p x → Anc t d p

include hn hpred in
theorem Walked.visit {old t : IDom} {done todo : List Nat} {b : Nat}
    (h : Walked E root post old done t) (hold : Stable E root post old)
    (hsplit : post.reverse = done ++ b :: todo) {fuel : Nat}
    (hfuel : 2 * postNum post root < fuel) (c : Bool) :
    ∃ t' c', DomTree.visit pred root (postNum post) fuel (t, c) b = some (t', c') ∧
      Walked E root post old (done ++ [b]) t' ∧
      (t' = t ∧ c' = c ∧ Consistent E root post t [b] ∨
        c' = true ∧ weight root post t < weight root post t') := by
  have hbpost : b ∈ post := by
    rw [← List.mem_reverse, hsplit]
    exact List.mem_append_right _ List.mem_cons_self
  unfold DomTree.visit
  by_cases hb : b = root
  · rw [if_pos hb]
    have hmem : ∀ {x : Nat}, x ∈ done ++ [b] → x ≠ root → x ∈ done := by
      intro x hx hne
      rcases List.mem_append.mp hx with hx | hx
      · exact hx
      · exact absurd ((List.mem_singleton.mp hx).trans hb) hne
    refine ⟨t, c, rfl, ⟨h.tree, h.defined, h.sub, ?_, fun x hx hne => h.forward x (hmem hx hne) hne,
      fun x hx hne => h.common x (hmem hx hne) hne, h.faithful⟩, .inl ⟨rfl, rfl, ?_⟩⟩
    · exact fun x hx => h.rest x fun hxd => hx (List.mem_append_left _ hxd)
    · intro x hx hne
      exact absurd ((List.mem_singleton.mp hx).trans hb) hne
  · rw [if_neg hb]
    obtain ⟨d, hd⟩ := Option.isSome_iff_exists.mp ((h.defined b).mpr hbpost)
    obtain ⟨q, hq, hqb, -⟩ := hn.up hbpost hb
    obtain ⟨r, hr, hcommon⟩ := @newIdom_spec _ _ _ h.tree _ hfuel (pred.row b) none
      fun c hc => absurd hc (by simp)
    cases r with
    | none =>
      have hqt := (h.defined q).mpr hq
      rw [hcommon.2 q ((hpred q b).mpr hqb)] at hqt
      exact absurd hqt Bool.false_ne_true
    | some m =>
      obtain ⟨-, hps, -, hall⟩ := hcommon
      have hm : ∀ q ∈ post, E q b → Anc t m q := fun q hq hqb =>
        hps q ((hpred q b).mpr hqb) ((h.defined q).mpr hq)
      have hmax : ∀ y, (∀ q ∈ post, E q b → Anc t y q) → Anc t y m := fun y hy =>
        hall y (fun q hq hqt => hy q ((h.defined q).mp hqt) ((hpred q b).mp hq))
          fun c hc => absurd hc (by simp)
      have hsettle := h.settle hn hold hsplit hb hd hm hmax
      rw [hr]
      show ∃ t' c', (if t b = some m then some (t, c) else some (Function.update t b (some m), true)) =
        some (t', c') ∧ _
      by_cases hsame : t b = some m
      · rw [if_pos hsame]
        rw [← hsame, Function.update_eq_self] at hsettle
        refine ⟨t, c, rfl, hsettle, .inl ⟨rfl, rfl, ?_⟩⟩
        intro x hx _ e he p hp hpx
        rw [List.mem_singleton.mp hx] at he hpx
        rw [Option.some.inj (he.symm.trans hsame)]
        exact hm p hp hpx
      · rw [if_neg hsame]
        refine ⟨_, true, rfl, hsettle, .inr ⟨rfl, weight_update hbpost hd ?_⟩⟩
        have hmd := h.anc_parent hn hold hsplit hb hd hm
        exact h.tree.num_lt hmd fun he => hsame (by rw [hd, he])

include hn hpred in
theorem first_pass {fuel : Nat} (hfuel : 2 * postNum post root < fuel) (todo : List Nat) :
    ∀ {done : List Nat} {t : IDom}, First E root post done t → post.reverse = done ++ todo →
      ∀ c, ∃ t' c', todo.foldlM (DomTree.visit pred root (postNum post) fuel) (t, c) = some (t', c') ∧
        First E root post post.reverse t' ∧ (c' = false → c = false) ∧
        (c' = false → ∀ x ∈ todo, x = root) := by
  induction todo with
  | nil =>
    intro done t h hsplit c
    rw [List.append_nil] at hsplit
    exact ⟨t, c, rfl, hsplit ▸ h, id, fun _ x hx => absurd hx List.not_mem_nil⟩
  | cons b todo ih =>
    intro done t h hsplit c
    obtain ⟨t₁, c₁, hv, h₁, hflag₁⟩ := h.visit hn hpred hsplit hfuel c
    obtain ⟨t₂, c₂, hrest, h₂, hflag₂, hroots⟩ := ih h₁ (by rw [hsplit, List.append_assoc]; rfl) c₁
    refine ⟨t₂, c₂, by rw [List.foldlM_cons, hv]; exact hrest, h₂, fun hc => (hflag₁ (hflag₂ hc)).1,
      fun hc => List.forall_mem_cons.mpr ⟨(hflag₁ (hflag₂ hc)).2, hroots hc⟩⟩

include hn hpred in
theorem later_pass {old : IDom} (hold : Stable E root post old) {fuel : Nat}
    (hfuel : 2 * postNum post root < fuel) (todo : List Nat) :
    ∀ {done : List Nat} {t : IDom}, Walked E root post old done t → post.reverse = done ++ todo →
      ∀ c, ∃ t' c', todo.foldlM (DomTree.visit pred root (postNum post) fuel) (t, c) = some (t', c') ∧
        Walked E root post old post.reverse t' ∧
        (t' = t ∧ c' = c ∧ Consistent E root post t todo ∨
          c' = true ∧ weight root post t < weight root post t') := by
  induction todo with
  | nil =>
    intro done t h hsplit c
    rw [List.append_nil] at hsplit
    exact ⟨t, c, rfl, hsplit ▸ h, .inl ⟨rfl, rfl, fun x hx => absurd hx List.not_mem_nil⟩⟩
  | cons b todo ih =>
    intro done t h hsplit c
    obtain ⟨t₁, c₁, hv, h₁, hone⟩ := h.visit hn hpred hold hsplit hfuel c
    obtain ⟨t₂, c₂, hrest, h₂, hmany⟩ := ih h₁ (by rw [hsplit, List.append_assoc]; rfl) c₁
    refine ⟨t₂, c₂, by rw [List.foldlM_cons, hv]; exact hrest, h₂, ?_⟩
    rcases hone with ⟨rfl, rfl, hb⟩ | ⟨rfl, hlt⟩
    · rcases hmany with ⟨rfl, rfl, hall⟩ | ⟨rfl, hlt⟩
      · refine .inl ⟨rfl, rfl, fun x hx => ?_⟩
        rcases List.mem_cons.mp hx with rfl | hx
        · exact hb x (List.mem_singleton.mpr rfl)
        · exact hall x hx
      · exact .inr ⟨rfl, hlt⟩
    · rcases hmany with ⟨rfl, rfl, -⟩ | ⟨rfl, hlt'⟩
      · exact .inr ⟨rfl, hlt⟩
      · exact .inr ⟨rfl, Nat.lt_trans hlt hlt'⟩

include hn hpred in
theorem later_passes {fuel : Nat} (hfuel : 2 * postNum post root < fuel) (rounds : Nat) :
    ∀ {t : IDom}, Stable E root post t → post.length * post.length - weight root post t < rounds →
      ∃ t', passes pred root (postNum post) fuel post.reverse rounds t = some t' ∧
        Stable E root post t' ∧ Consistent E root post t' post := by
  induction rounds with
  | zero => exact fun _ hlt => absurd hlt (Nat.not_lt_zero _)
  | succ rounds ih =>
    intro t h hlt
    obtain ⟨t₁, c, hpass, h₁, hcase⟩ := later_pass hn hpred h hfuel post.reverse h.walked
      (List.nil_append _).symm false
    rw [passes, pass, hpass]
    rcases hcase with ⟨rfl, rfl, hcons⟩ | ⟨rfl, hgrow⟩
    · exact ⟨t₁, rfl, h, fun x hx => hcons x (List.mem_reverse.mpr hx)⟩
    · have hle := h₁.stable.weight_le hn
      exact ih h₁.stable (by omega)

include hn hpred in
/-- **The iteration ends** without a failed `expect`, in a stable and consistent tree. -/
theorem passes_spec {fuel : Nat} (hfuel : 2 * postNum post root < fuel) {rounds : Nat}
    (hrounds : post.length * post.length + 1 < rounds) :
    ∃ t, passes pred root (postNum post) fuel post.reverse rounds
      (Function.update (fun _ => none) root (some root)) = some t ∧
      Stable E root post t ∧ Consistent E root post t post := by
  obtain ⟨t, c, hpass, hfirst, -, hroots⟩ := first_pass hn hpred hfuel post.reverse (first_start hn)
    (List.nil_append _).symm false
  obtain ⟨rounds, rfl⟩ : ∃ k, rounds = k + 1 := ⟨rounds - 1, by omega⟩
  rw [passes, pass, hpass]
  cases c with
  | false =>
    refine ⟨t, rfl, hfirst.stable hn, fun x hx hne => ?_⟩
    exact absurd (hroots rfl x (List.mem_reverse.mpr hx)) hne
  | true =>
    obtain ⟨t', ht', h⟩ := later_passes hn hpred hfuel rounds (hfirst.stable hn) (by omega)
    exact ⟨t', ht', h⟩

/-! ## The tree is the dominance relation -/

include hn in
theorem Stable.anc_iff {t : IDom} (h : Stable E root post t) (hcons : Consistent E root post t post)
    {a b : Nat} (hb : b ∈ post) : Anc t a b ↔ Dom E root a b := by
  constructor
  · intro ha
    refine ⟨(hn.mem_iff b).mp hb, fun l hl => ?_⟩
    clear hb
    induction hl with
    | root =>
      rw [h.tree.anc_root ha rfl]
      exact List.mem_singleton.mpr rfl
    | @step p b l hp hpb ih =>
      by_cases hab : a = b
      · rw [hab]
        exact List.mem_cons_self
      · have hppost : p ∈ post := (hn.mem_iff p).mpr ⟨l, hp⟩
        have hbpost : b ∈ post := (hn.mem_iff b).mpr ⟨b :: l, hp.step hpb⟩
        have hbroot : b ≠ root := by
          rintro rfl
          exact hab (h.tree.anc_root ha rfl)
        obtain ⟨d, hd⟩ := Option.isSome_iff_exists.mp ((h.defined b).mpr hbpost)
        have hdp := hcons b hbpost hbroot d hd p hppost hpb
        exact List.mem_cons_of_mem _ (ih ((ha.parent hab hd).trans hdp))
  · exact fun ha => h.faithful.anc h.tree ((h.defined b).mpr hb) ha

theorem dominatesLoop_spec {num : Nat → Nat} {t : IDom} (h : ParentTree root num t) (a fuel : Nat) :
    ∀ {x : Nat}, (t x).isSome → num root - num x < fuel →
      ∃ r, dominatesLoop t a fuel x = some r ∧ (r = true ↔ Anc t a x) := by
  induction fuel with
  | zero => exact fun _ hlt => absurd hlt (Nat.not_lt_zero _)
  | succ fuel ih =>
    intro x hx hlt
    rw [dominatesLoop]
    by_cases hxa : x = a
    · rw [if_pos hxa]
      exact ⟨true, rfl, iff_of_true rfl (hxa ▸ .refl _)⟩
    · rw [if_neg hxa]
      obtain ⟨i, hi⟩ := Option.isSome_iff_exists.mp hx
      rw [hi]
      simp only
      by_cases hix : i = x
      · rw [if_neg (not_not_intro hix)]
        have hroot : x = root := by
          by_contra hne
          have := h.lt hi hne
          rw [hix] at this
          exact Nat.lt_irrefl _ this
        refine ⟨false, rfl, iff_of_false (by decide) fun ha => hxa ?_⟩
        rw [h.anc_root ha hroot, hroot]
      · rw [if_pos hix]
        have hxroot : x ≠ root := by
          rintro rfl
          rw [h.top] at hi
          exact hix (Option.some.inj hi).symm
        have hnum := h.lt hi hxroot
        have hle := h.le_root (h.closed hi)
        obtain ⟨r, hr, hiff⟩ := ih (h.closed hi) (by omega)
        refine ⟨r, hr, hiff.trans ⟨fun ha => .up hi ha, fun ha => ha.parent (Ne.symm hxa) hi⟩⟩

end

/-- What `build` makes on every graph and root: a tree over the reachable nodes, numbered by the walk, that is
    stable and consistent. -/
theorem build_tree {succ pred : Adj} (hclosed : succ.Closed)
    (hpred : ∀ a b, pred.Edge b a ↔ succ.Edge a b) {root : Nat} (hroot : root < succ.length) :
    ∃ t post, build succ.length root succ pred = some t ∧ Numbered succ.Edge root post ∧
      Stable succ.Edge root post t ∧ Consistent succ.Edge root post t post ∧
      postNum post root < succ.length := by
  obtain ⟨post, hpost, hnodup, hmem, hparent⟩ := postorder_spec hclosed hroot
  have hn : Numbered succ.Edge root post := ⟨hnodup, hmem, hparent⟩
  have hlen : post.length ≤ succ.length := by
    have hsub : post ⊆ List.range succ.length := by
      intro x hx
      rcases ((hmem x).mp hx).cases with rfl | ⟨p, -, hpx⟩
      · exact List.mem_range.mpr hroot
      · exact List.mem_range.mpr (hclosed p x hpx)
    have := hnodup.length_le_of_subset hsub
    rwa [List.length_range] at this
  have hnum : postNum post root < post.length := by
    rw [postNum_mem hn.root_mem]
    exact List.idxOf_lt_length_of_mem hn.root_mem
  obtain ⟨t, ht, hstable, hcons⟩ := @passes_spec _ _ _ _ hn hpred (2 * succ.length + 1) (by omega)
    (succ.length * succ.length + 2) (by nlinarith)
  refine ⟨t, post, ?_, hn, hstable, hcons, by omega⟩
  rw [build, if_neg (by omega), hpost]
  exact ht

/-- **`DomTree::build`** returns on every graph and root, and `dominates` on its tree returns the
    dominance relation. -/
theorem build_spec {succ pred : Adj} (hclosed : succ.Closed)
    (hpred : ∀ a b, pred.Edge b a ↔ succ.Edge a b) {root : Nat} (hroot : root < succ.length) :
    ∃ t, build succ.length root succ pred = some t ∧
      ∀ a b, ∃ r, dominates succ.length t a b = some r ∧ (r = true ↔ Dom succ.Edge root a b) := by
  obtain ⟨t, post, ht, hn, hstable, hcons, hnum⟩ := build_tree hclosed hpred hroot
  refine ⟨t, ht, fun a b => ?_⟩
  unfold dominates
  by_cases hb : b ∈ post
  · have hbt := (hstable.defined b).mpr hb
    rw [if_neg (by rw [Option.isNone_iff_eq_none, ← Option.not_isSome_iff_eq_none]; exact not_not_intro hbt)]
    obtain ⟨r, hr, hiff⟩ := dominatesLoop_spec hstable.tree a (succ.length + 1) hbt (by omega)
    exact ⟨r, hr, hiff.trans (hstable.anc_iff hn hcons hb)⟩
  · have hbt : t b = none := by
      rw [← Option.not_isSome_iff_eq_none, hstable.defined]
      exact hb
    rw [if_pos (by rw [hbt]; rfl)]
    refine ⟨false, rfl, iff_of_false (by decide) fun hdom => hb ((hn.mem_iff b).mpr hdom.1)⟩

end Csolver.DomTree

namespace Csolver

open Lib

theorem Dominators.new_tree (cfg : Cfg) (hn : 0 < cfg.nodeCount) :
    ∃ t num, Dominators.new cfg = some t ∧ ParentTree cfg.entry num t ∧ num cfg.entry < cfg.nodeCount ∧
      ∀ x, (t x).isSome ↔ Reach cfg.succ.Edge cfg.entry x := by
  obtain ⟨t, post, ht, hnum, hstable, _, hroot⟩ := DomTree.build_tree cfg.closed cfg.pred_iff (cfg.entry_lt hn)
  exact ⟨t, _, ht, hstable.tree, hroot, fun x => (hstable.defined x).trans (hnum.mem_iff x)⟩

namespace PostDominators

/-- The edges post-dominance is about: those of the graph backwards, and from the synthetic exit to
    every exit. -/
def RevEdge (cfg : Cfg) (a b : Nat) : Prop :=
  cfg.succ.Edge b a ∨ a = virtualExit cfg ∧ b ∈ cfg.exits

theorem row_append_lt {xs : Adj} {l : List Nat} {i : Nat} (h : i < xs.length) :
    Adj.row (xs ++ [l]) i = Adj.row xs i := by
  rw [Adj.row, Adj.row, List.getD_eq_getElem?_getD, List.getD_eq_getElem?_getD,
    List.getElem?_append_left h]

theorem row_append_length (xs : Adj) (l : List Nat) : Adj.row (xs ++ [l]) xs.length = l := by
  rw [Adj.row, List.getD_eq_getElem?_getD, List.getElem?_append_right (Nat.le_refl _), Nat.sub_self]
  rfl

theorem mem_exits {cfg : Cfg} {b : Nat} : b ∈ cfg.exits → b < cfg.nodeCount :=
  fun h => List.mem_range.mp (List.mem_filter.mp h).1

theorem revSucc_length (cfg : Cfg) : (revSucc cfg).length = cfg.nodeCount + 1 := by
  rw [revSucc, List.length_append, Adj.length_reverse]
  rfl

theorem revSucc_edge (cfg : Cfg) (a b : Nat) : (revSucc cfg).Edge a b ↔ RevEdge cfg a b := by
  have hlen : cfg.succ.reverse.length = cfg.nodeCount := Adj.length_reverse _
  rcases Nat.lt_trichotomy a cfg.nodeCount with ha | ha | ha
  · rw [Adj.Edge, revSucc, row_append_lt (by rw [hlen]; exact ha)]
    refine (Adj.reverse_edge cfg.closed b a).trans (or_iff_left ?_).symm
    rintro ⟨rfl, -⟩
    exact Nat.lt_irrefl _ ha
  · have hrow : (revSucc cfg).row a = cfg.exits := by
      have := row_append_length cfg.succ.reverse cfg.exits
      rw [ha]
      rwa [hlen] at this
    rw [Adj.Edge, hrow]
    constructor
    · exact fun h => .inr ⟨ha, h⟩
    · rintro (h | ⟨-, h⟩)
      · have hlt : a < cfg.nodeCount := cfg.closed b a h
        omega
      · exact h
  · constructor
    · intro h
      have := Adj.edge_lt h
      rw [revSucc_length] at this
      omega
    · rintro (h | ⟨rfl, -⟩)
      · have hlt : a < cfg.nodeCount := cfg.closed b a h
        omega
      · exact absurd ha (Nat.lt_irrefl _)

theorem revPred_edge (cfg : Cfg) (a b : Nat) : (revPred cfg).Edge b a ↔ RevEdge cfg a b := by
  have hlen : ((List.range cfg.nodeCount).map fun a =>
      cfg.succ.row a ++ if a ∈ cfg.exits then [virtualExit cfg] else []).length = cfg.nodeCount := by
    simp
  rcases Nat.lt_trichotomy b cfg.nodeCount with hb | hb | hb
  · rw [Adj.Edge, revPred, row_append_lt (by rw [hlen]; exact hb), Adj.row_map_range hb,
      List.mem_append]
    refine or_congr Iff.rfl ?_
    by_cases hex : b ∈ cfg.exits
    · rw [if_pos hex, List.mem_singleton]
      exact (and_iff_left hex).symm
    · rw [if_neg hex]
      exact iff_of_false List.not_mem_nil fun h => hex h.2
  · have hrow : (revPred cfg).row b = [] := by
      have := row_append_length ((List.range cfg.nodeCount).map fun a =>
        cfg.succ.row a ++ if a ∈ cfg.exits then [virtualExit cfg] else []) []
      rw [hb]
      rwa [hlen] at this
    rw [Adj.Edge, hrow]
    refine iff_of_false List.not_mem_nil ?_
    rintro (h | ⟨-, h⟩)
    · have hlt : b < cfg.nodeCount := Adj.edge_lt h
      omega
    · have := mem_exits h
      omega
  · constructor
    · intro h
      have hlt := Adj.edge_lt h
      rw [revPred, List.length_append, hlen, List.length_singleton] at hlt
      omega
    · rintro (h | ⟨-, h⟩)
      · have hlt : b < cfg.nodeCount := Adj.edge_lt h
        omega
      · have := mem_exits h
        omega

theorem revSucc_closed (cfg : Cfg) : (revSucc cfg).Closed := by
  intro a b h
  rw [revSucc_length]
  rcases (revSucc_edge cfg a b).mp h with h | ⟨-, h⟩
  · exact Nat.lt_succ_of_lt (Adj.edge_lt h)
  · exact Nat.lt_succ_of_lt (mem_exits h)

end PostDominators

theorem Dominators.answers (cfg : Cfg) :
    ∃ t, Dominators.new cfg = some t ∧ ∀ a, ∀ b < cfg.nodeCount,
      ∃ r, Dominators.dominates cfg t a b = some r ∧ (r = true ↔ Dom cfg.succ.Edge cfg.entry a b) := by
  by_cases hn : cfg.nodeCount = 0
  · refine ⟨fun _ => none, if_pos hn, fun a b hb => absurd hb ?_⟩
    rw [hn]
    exact Nat.not_lt_zero b
  · obtain ⟨t, ht, hdom⟩ := DomTree.build_spec cfg.closed cfg.pred_iff
      (cfg.entry_lt (Nat.pos_of_ne_zero hn))
    exact ⟨t, ht, fun a b _ => hdom a b⟩

/-- **The dominator trees are correct.** On every graph and entry both constructions return (no
    `expect` fails, every loop ends), and so does every query; `dominates a b` answers whether `b` can
    be reached from the entry and all paths to it go through `a`, and `post_dominates` the same on
    the reversed graph, from a synthetic exit before all exits. -/
theorem dominators_correct (cfg : Cfg) :
    (∃ t, Dominators.new cfg = some t ∧ ∀ a, ∀ b < cfg.nodeCount,
      ∃ r, Dominators.dominates cfg t a b = some r ∧
        (r = true ↔ Dom cfg.succ.Edge cfg.entry a b)) ∧
    ∃ t, PostDominators.new cfg = some t ∧ ∀ a b,
      ∃ r, PostDominators.postDominates cfg t a b = some r ∧
        (r = true ↔ Dom (PostDominators.RevEdge cfg) (PostDominators.virtualExit cfg) a b) := by
  constructor
  · exact Dominators.answers cfg
  · have hlen := PostDominators.revSucc_length cfg
    obtain ⟨t, ht, hdom⟩ := DomTree.build_spec (PostDominators.revSucc_closed cfg)
      (fun a b => (PostDominators.revPred_edge cfg a b).trans
        (PostDominators.revSucc_edge cfg a b).symm)
      (by rw [hlen]; exact Nat.lt_succ_self _)
    rw [hlen] at ht hdom
    have hedge : (PostDominators.revSucc cfg).Edge = PostDominators.RevEdge cfg := by
      funext a b
      exact propext (PostDominators.revSucc_edge cfg a b)
    rw [hedge] at hdom
    exact ⟨t, ht, hdom⟩

end Csolver
