import Csolver.Cfg.Dominators
import Csolver.Lib.Ancestors

/-!
# Nearest common ancestors in a dominator tree

What one visit of a node does. The tree may claim too many dominators but never too few: whatever
strictly dominates a node dominates its parent (`Faithful`), and setting a parent to the nearest
common ancestor of the predecessors keeps it so.
-/

namespace Csolver.DomTree

open Lib

/-! ## Nearest common ancestors -/

section

variable {root : Nat} {num : Nat → Nat} {t : IDom} (h : ParentTree root num t)

include h

theorem climb_spec {b : Nat} (hb : (t b).isSome) (fuel : Nat) : ∀ {a : Nat}, (t a).isSome →
    num b - num a < fuel → ∃ a', climb t num (num b) fuel a = some a' ∧ Anc t a' a ∧
      num b ≤ num a' ∧ ∀ y, Anc t y a → num b ≤ num y → Anc t y a' := by
  induction fuel with
  | zero => exact fun _ hf => absurd hf (Nat.not_lt_zero _)
  | succ fuel ih =>
    intro a ha hf
    rw [climb]
    by_cases hlt : num a < num b
    · rw [if_pos hlt]
      obtain ⟨d, hd⟩ := Option.isSome_iff_exists.mp ha
      have hroot := h.le_root hb
      have hne : a ≠ root := by
        rintro rfl
        omega
      have hup := h.lt hd hne
      obtain ⟨a', he, hanc, hle, hall⟩ := ih (h.closed hd) (by omega)
      refine ⟨a', by rw [hd]; exact he, .up hd hanc, hle, fun y hy hyb => ?_⟩
      have hya : y ≠ a := by
        rintro rfl
        omega
      exact hall y (hy.parent hya hd) hyb
    · rw [if_neg hlt]
      exact ⟨a, rfl, .refl a, Nat.not_lt.mp hlt, fun y hy _ => hy⟩

theorem intersect_spec (fuel : Nat) : ∀ {a b : Nat}, (t a).isSome → (t b).isSome →
    2 * num root - num a - num b < fuel → ∃ m, intersect t num fuel a b = some m ∧
      Anc t m a ∧ Anc t m b ∧ ∀ y, Anc t y a → Anc t y b → Anc t y m := by
  induction fuel with
  | zero => exact fun _ _ hf => absurd hf (Nat.not_lt_zero _)
  | succ fuel ih =>
    intro a b ha hb hf
    have hra := h.le_root ha
    have hrb := h.le_root hb
    rw [intersect]
    by_cases hab : a = b
    · rw [if_pos hab]
      subst hab
      exact ⟨a, rfl, .refl a, .refl a, fun y hy _ => hy⟩
    · rw [if_neg hab]
      obtain ⟨a', hea, haa, hba, halla⟩ := climb_spec h hb (fuel + 1) ha (by omega)
      have ha' := h.defined haa ha
      have hra' := h.le_root ha'
      obtain ⟨b', heb, hbb, hab', hallb⟩ := climb_spec h ha' (fuel + 1) hb (by omega)
      have hb' := h.defined hbb hb
      -- one of the fingers has moved, for two nodes have two numbers
      have hmoved : num a + num b < num a' + num b' := by
        have hle := h.num_le haa
        have hne : num a ≠ num b := fun he => hab (h.inj ha hb he)
        omega
      have hrb' := h.le_root hb'
      obtain ⟨m, hm, hma, hmb, hall⟩ := ih ha' hb' (by omega)
      refine ⟨m, ?_, hma.trans haa, hmb.trans hbb, fun y hya hyb => ?_⟩
      · rw [hea, Option.bind_eq_bind, Option.bind_some, heb]
        exact hm
      have hy := halla y hya (h.num_le hyb)
      exact hall y hy (hallb y hyb (h.num_le hy))

/-- What the loop over the predecessors finds: nothing if none has a parent yet, else the nearest
    common ancestor of those that have. -/
def CommonOf (t : IDom) (ps : List Nat) (cur : Option Nat) : Option Nat → Prop
  | none => cur = none ∧ ∀ p ∈ ps, t p = none
  | some m => (t m).isSome ∧ (∀ p ∈ ps, (t p).isSome → Anc t m p) ∧ (∀ c, cur = some c → Anc t m c) ∧
    ∀ y, (∀ p ∈ ps, (t p).isSome → Anc t y p) → (∀ c, cur = some c → Anc t y c) → Anc t y m

omit h in
theorem CommonOf.skip {ps : List Nat} {cur r : Option Nat} {p : Nat} (hp : t p = none)
    (hr : CommonOf t ps cur r) : CommonOf t (p :: ps) cur r := by
  cases r with
  | none => exact ⟨hr.1, List.forall_mem_cons.mpr ⟨hp, hr.2⟩⟩
  | some m =>
    obtain ⟨hm, hps, hcur, hall⟩ := hr
    refine ⟨hm, List.forall_mem_cons.mpr ⟨fun hs => ?_, hps⟩, hcur, fun y hy => hall y ?_⟩
    · rw [hp] at hs
      exact absurd hs Bool.false_ne_true
    · exact (List.forall_mem_cons.mp hy).2

theorem newIdom_spec {fuel : Nat} (hfuel : 2 * num root < fuel) (ps : List Nat) :
    ∀ {cur : Option Nat}, (∀ c, cur = some c → (t c).isSome) →
      ∃ r, newIdom t num fuel ps cur = some r ∧ CommonOf t ps cur r := by
  induction ps with
  | nil =>
    intro cur hcur
    refine ⟨cur, rfl, ?_⟩
    cases cur with
    | none => exact ⟨rfl, fun _ hp => absurd hp List.not_mem_nil⟩
    | some c =>
      refine ⟨hcur c rfl, fun _ hp => absurd hp List.not_mem_nil, ?_, fun y _ hy => hy c rfl⟩
      intro c' hc
      rw [Option.some.inj hc]
      exact .refl _
  | cons p ps ih =>
    intro cur hcur
    rw [newIdom.eq_def]
    simp only
    by_cases hp : (t p).isSome = true
    · rw [if_pos hp]
      cases cur with
      | none =>
        obtain ⟨r, hr, hcommon⟩ := ih fun c hc => Option.some.inj hc ▸ hp
        refine ⟨r, hr, ?_⟩
        cases r with
        | none => exact absurd hcommon.1 (by simp)
        | some m =>
          obtain ⟨hm, hps, hmp, hall⟩ := hcommon
          refine ⟨hm, List.forall_mem_cons.mpr ⟨fun _ => hmp p rfl, hps⟩, fun c hc => absurd hc (by simp),
            fun y hy _ => hall y (List.forall_mem_cons.mp hy).2 fun c hc => ?_⟩
          rw [← Option.some.inj hc]
          exact (List.forall_mem_cons.mp hy).1 hp
      | some c =>
        have hc := hcur c rfl
        obtain ⟨m, hm, hmp, hmc, hcommon⟩ := intersect_spec h fuel hp hc (by omega)
        obtain ⟨r, hr, hrest⟩ := ih fun m' hm' => Option.some.inj hm' ▸ h.defined hmp hp
        refine ⟨r, by simp only [hm]; exact hr, ?_⟩
        cases r with
        | none => exact absurd hrest.1 (by simp)
        | some k =>
          obtain ⟨hk, hps, hkm, hall⟩ := hrest
          refine ⟨hk, List.forall_mem_cons.mpr ⟨fun _ => (hkm m rfl).trans hmp, hps⟩,
            fun c' hc' => ?_, fun y hy hyc => hall y (List.forall_mem_cons.mp hy).2 fun m' hm' => ?_⟩
          · rw [← Option.some.inj hc']
            exact (hkm m rfl).trans hmc
          · rw [← Option.some.inj hm']
            exact hcommon y ((List.forall_mem_cons.mp hy).1 hp) (hyc c rfl)
    · rw [if_neg hp]
      obtain ⟨r, hr, hcommon⟩ := ih hcur
      exact ⟨r, hr, hcommon.skip (Option.not_isSome_iff_eq_none.mp hp)⟩

end

/-! ## Postorder numbers -/

/-- What the walk of the graph provides, for the edges `E`. -/
structure Numbered (E : Nat → Nat → Prop) (root : Nat) (post : List Nat) : Prop where
  nodup : post.Nodup
  mem_iff : ∀ x, x ∈ post ↔ Reach E root x
  parent : ∀ x ∈ post, x ≠ root → ∃ q ∈ post, E q x ∧ post.idxOf x < post.idxOf q

section

variable {E : Nat → Nat → Prop} {root : Nat} {post : List Nat}

theorem postNum_mem {x : Nat} (hx : x ∈ post) : postNum post x = post.idxOf x := if_pos hx

theorem postNum_inj {x y : Nat} (hx : x ∈ post) (hy : y ∈ post)
    (h : postNum post x = postNum post y) : x = y := by
  rw [postNum_mem hx, postNum_mem hy] at h
  exact (List.idxOf_inj hx).mp h

variable (hn : Numbered E root post)

include hn

theorem Numbered.root_mem : root ∈ post := (hn.mem_iff root).mpr Reach.root

theorem Numbered.up {x : Nat} (hx : x ∈ post) (hne : x ≠ root) :
    ∃ q ∈ post, E q x ∧ postNum post x < postNum post q := by
  obtain ⟨q, hq, he, hlt⟩ := hn.parent x hx hne
  refine ⟨q, hq, he, ?_⟩
  rwa [postNum_mem hx, postNum_mem hq]

theorem Numbered.le_root {x : Nat} (hx : x ∈ post) : postNum post x ≤ postNum post root := by
  rw [postNum_mem hx, postNum_mem hn.root_mem]
  have hlen : 0 < post.length := List.length_pos_of_mem hx
  have hidx : post.length - 1 < post.length := by omega
  have hlast : post[post.length - 1] = root := by
    by_contra hne
    have hmem : post[post.length - 1] ∈ post := List.getElem_mem _
    obtain ⟨q, hq, -, hlt⟩ := hn.parent _ hmem hne
    rw [hn.nodup.idxOf_getElem] at hlt
    have := List.idxOf_lt_length_of_mem hq
    omega
  have hroot : post.idxOf root = post.length - 1 := by
    rw [← hlast]
    exact hn.nodup.idxOf_getElem _ _
  have := List.idxOf_lt_length_of_mem hx
  omega

theorem Numbered.mem_done {done todo : List Nat} {b : Nat} (h : post.reverse = done ++ b :: todo)
    (x : Nat) : x ∈ done ↔ x ∈ post ∧ postNum post b < postNum post x := by
  have hpost : post = todo.reverse ++ b :: done.reverse := by
    rw [← List.reverse_reverse post, h]
    simp
  have hnd := hn.nodup
  rw [hpost] at hnd
  have hb : b ∈ post := by
    rw [hpost]
    exact List.mem_append_right _ List.mem_cons_self
  have hbnot : b ∉ todo.reverse := fun hmem =>
    (List.nodup_append.mp hnd).2.2 b hmem b List.mem_cons_self rfl
  have hbnum : postNum post b = todo.length := by
    rw [postNum_mem hb, hpost, List.idxOf_append_of_notMem hbnot, List.idxOf_cons_self,
      List.length_reverse, Nat.add_zero]
  constructor
  · intro hx
    have hxpost : x ∈ post := by
      rw [hpost]
      exact List.mem_append_right _ (List.mem_cons_of_mem _ (List.mem_reverse.mpr hx))
    refine ⟨hxpost, ?_⟩
    have hxnot : x ∉ todo.reverse := fun hmem =>
      (List.nodup_append.mp hnd).2.2 x hmem x (List.mem_cons_of_mem _ (List.mem_reverse.mpr hx)) rfl
    have hne : b ≠ x := by
      rintro rfl
      have hcons := (List.nodup_append.mp hnd).2.1
      exact (List.nodup_cons.mp hcons).1 (List.mem_reverse.mpr hx)
    rw [hbnum, postNum_mem hxpost, hpost, List.idxOf_append_of_notMem hxnot,
      List.idxOf_cons_ne _ hne, List.length_reverse]
    omega
  · rintro ⟨hx, hlt⟩
    rw [hbnum, postNum_mem hx] at hlt
    rw [hpost] at hx
    rcases List.mem_append.mp hx with hmem | hmem
    · rw [hpost, List.idxOf_append_of_mem hmem] at hlt
      have := List.idxOf_lt_length_of_mem hmem
      rw [List.length_reverse] at this
      omega
    · rcases List.mem_cons.mp hmem with rfl | hmem
      · rw [← postNum_mem hb, hbnum] at hlt
        exact absurd hlt (Nat.lt_irrefl _)
      · exact List.mem_reverse.mp hmem

end

/-! ## No dominator is lost -/

/-- Whatever strictly dominates a node dominates its parent. -/
def Faithful (E : Nat → Nat → Prop) (root : Nat) (t : IDom) : Prop :=
  ∀ b d, t b = some d → b ≠ root → ∀ a, Dom E root a b → a ≠ b → Dom E root a d

section

variable {E : Nat → Nat → Prop} {root : Nat} {num : Nat → Nat} {t : IDom}
  (ht : ParentTree root num t) (hf : Faithful E root t)

include ht hf

theorem Faithful.anc {a x : Nat} (hx : (t x).isSome) (hdom : Dom E root a x) : Anc t a x := by
  have key : ∀ {c y : Nat}, Anc t c y → c = root → ∀ a, Dom E root a y → Anc t a y := by
    intro c y hc
    induction hc with
    | refl y =>
      rintro rfl a ha
      rw [ha.eq_root]
      exact .refl _
    | @up y d c hd _ ih =>
      intro hroot a ha
      by_cases hay : a = y
      · rw [hay]
        exact .refl y
      · by_cases hy : y = root
        · subst hy
          exact absurd ha.eq_root hay
        · exact .up hd (ih hroot a (hf y d hd hy a ha hay))
  exact key (ht.root_anc x hx) rfl a hdom

/-- A dominator of `p` that is an ancestor of the ancestor `m` of `p` dominates `m`. -/
theorem Faithful.dom_between {a m p : Nat} (hm : Anc t m p) (ha : Dom E root a p)
    (ham : Anc t a m) : Dom E root a m := by
  induction hm with
  | refl => exact ha
  | @up p d m hd hmd ih =>
    by_cases hmp : m = p
    · rw [hmp]
      exact ha
    · have hlt := ht.num_lt (.up hd hmd) hmp
      have hle := ht.num_le ham
      have hap : a ≠ p := by
        rintro rfl
        omega
      have hp : p ≠ root := by
        rintro rfl
        exact hmp (ht.anc_root (.up hd hmd) rfl)
      exact ih (hf p d hd hp a ha hap) ham

theorem Faithful.update {b m p : Nat} (hdef : ∀ x, (t x).isSome → Reach E root x)
    (hall : ∀ y, (∀ q, E q b → (t q).isSome → Anc t y q) → Anc t y m)
    (hp : E p b) (hpt : (t p).isSome) (hmp : Anc t m p) :
    Faithful E root (Function.update t b (some m)) := by
  intro x d hd hx a ha hax
  by_cases hxb : x = b
  · subst hxb
    rw [Function.update_self, Option.some.injEq] at hd
    subst hd
    have ham : Anc t a m := hall a fun q hq hqt =>
      hf.anc ht hqt (ha.pred hax (hdef q hqt) hq)
    exact hf.dom_between ht hmp (ha.pred hax (hdef p hpt) hp) ham
  · rw [Function.update_of_ne hxb] at hd
    exact hf x d hd hx a ha hax

end

end Csolver.DomTree
