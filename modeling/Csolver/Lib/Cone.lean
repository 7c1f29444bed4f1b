import Mathlib.Data.Finset.Card

/-!
# Cones of influence

Items read variables. The cone of a goal grows from the variables of the goal: an item that reads a variable
of the cone is kept, and its other variables join the cone, until nothing changes. What is not kept reads
nothing of the cone (`relevant_spec`), so a model of all items and a model of the kept ones can be glued
together, and the kept items entail the goal whenever all items do and have a model (`entails_iff`).
-/

namespace Csolver.Lib.Cone

variable {α V : Type}

/-! ## What a subset entails -/

section

variable {D : Type} (holds : α → (V → D) → Prop)

def Models (items : List α) (ρ : V → D) : Prop := ∀ a ∈ items, holds a ρ

def Entails (items : List α) (goal : (V → D) → Prop) : Prop := ∀ ρ, Models holds items ρ → goal ρ

/-- `kept` is cut out of `all` along `cone`. -/
structure Cut (vars : α → Set V) (all kept : List α) (cone : Set V) : Prop where
  sub : ∀ a ∈ kept, a ∈ all
  inside : ∀ a ∈ kept, vars a ⊆ cone
  outside : ∀ a ∈ all, a ∈ kept ∨ ∀ v ∈ vars a, v ∉ cone

variable {holds}

theorem Entails.mono {kept all : List α} {goal : (V → D) → Prop} (hsub : ∀ a ∈ kept, a ∈ all)
    (h : Entails holds kept goal) : Entails holds all goal :=
  fun ρ hρ => h ρ fun a ha => hρ a (hsub a ha)

/-- **Cone of influence.** If all items have a model, they entail what the kept ones entail. -/
theorem entails_iff (holds : α → (V → D) → Prop) (goal : (V → D) → Prop) {vars : α → Set V}
    (hread : ∀ a ρ ρ', (∀ v ∈ vars a, ρ v = ρ' v) → (holds a ρ ↔ holds a ρ'))
    {all kept : List α} {cone : Set V} (hcut : Cut vars all kept cone)
    (hgoal : ∀ ρ ρ', (∀ v ∈ cone, ρ v = ρ' v) → (goal ρ ↔ goal ρ')) (hsat : ∃ ρ, Models holds all ρ) : Entails holds all goal ↔ Entails holds kept goal := by
  classical
  refine ⟨fun h ρ hρ => ?_, Entails.mono hcut.sub⟩
  obtain ⟨ρ₀, hρ₀⟩ := hsat
  -- inside the cone the one model, outside it the other
  let glued : V → D := fun v => if v ∈ cone then ρ v else ρ₀ v
  have hin (a : α) (ha : vars a ⊆ cone) : holds a glued ↔ holds a ρ :=
    hread a glued ρ fun v hv => if_pos (ha hv)
  have hout (a : α) (ha : ∀ v ∈ vars a, v ∉ cone) : holds a glued ↔ holds a ρ₀ :=
    hread a glued ρ₀ fun v hv => if_neg (ha v hv)
  have hmodel : Models holds all glued := by
    intro a ha
    rcases hcut.outside a ha with hkept | hfar
    · exact (hin a (hcut.inside a hkept)).mpr (hρ a hkept)
    · exact (hout a hfar).mpr (hρ₀ a ha)
  exact (hgoal glued ρ fun v hv => if_pos hv).mp (h glued hmodel)

end

/-! ## Growing the cone -/

section

variable [DecidableEq V] (vars : α → List V)

/-- One pass over the items, each marked if it is kept; the flag says if one was marked. -/
def pass : List (α × Bool) → Finset V → List (α × Bool) × Finset V × Bool
  | [], cone => ([], cone, false)
  | (a, kept) :: items, cone =>
    if kept then
      let r := pass items cone
      ((a, true) :: r.1, r.2)
    else if (vars a).any (· ∈ cone) then
      let r := pass items (cone ∪ (vars a).toFinset)
      ((a, true) :: r.1, r.2.1, true)
    else
      let r := pass items cone
      ((a, false) :: r.1, r.2)

/-- Passes until one changes nothing. -/
def grow : Nat → List (α × Bool) → Finset V → Option (List (α × Bool))
  | 0, _, _ => none
  | fuel + 1, items, cone =>
    let r := pass vars items cone
    if r.2.2 then grow fuel r.1 r.2.1 else some r.1

def marked (items : List (α × Bool)) : List α := (items.filter (·.2)).map Prod.fst

def relevant (goal : List V) (all : List α) : Option (List α) :=
  (grow vars (all.length + 1) (all.map fun a => (a, false)) goal.toFinset).map marked

end

variable [DecidableEq V] {vars : α → List V}

theorem mem_marked {items : List (α × Bool)} {a : α} : a ∈ marked items ↔ (a, true) ∈ items := by
  simp [marked]

theorem pass_items (items : List (α × Bool)) (cone : Finset V) :
    (pass vars items cone).1.map Prod.fst = items.map Prod.fst := by
  induction items generalizing cone with
  | nil => rfl
  | cons p items ih =>
    obtain ⟨a, kept⟩ := p
    rw [pass]
    split
    · simp only [List.map_cons, ih]
    · split <;> simp only [List.map_cons, ih]

theorem pass_cone (items : List (α × Bool)) (cone : Finset V) : cone ⊆ (pass vars items cone).2.1 := by
  induction items generalizing cone with
  | nil => exact Finset.Subset.refl _
  | cons p items ih =>
    rw [pass]
    split
    · exact ih cone
    · split
      · exact Finset.Subset.trans Finset.subset_union_left (ih _)
      · exact ih cone

theorem pass_inside (items : List (α × Bool)) (cone : Finset V)
    (h : ∀ a, (a, true) ∈ items → ∀ v ∈ vars a, v ∈ cone) :
    ∀ a, (a, true) ∈ (pass vars items cone).1 → ∀ v ∈ vars a, v ∈ (pass vars items cone).2.1 := by
  induction items generalizing cone with
  | nil => exact h
  | cons p items ih =>
    obtain ⟨b, kept⟩ := p
    have hrest : ∀ a, (a, true) ∈ items → ∀ v ∈ vars a, v ∈ cone :=
      fun a ha => h a (List.mem_cons_of_mem _ ha)
    rw [pass]
    split
    · next hk =>
      intro a ha v hv
      rcases List.mem_cons.mp ha with heq | ha
      · obtain rfl : a = b := congrArg Prod.fst heq
        have hmem : (a, true) ∈ (a, kept) :: items := by rw [hk]; exact List.mem_cons_self
        exact pass_cone items cone (h a hmem v hv)
      · exact ih cone hrest a ha v hv
    · split
      · intro a ha v hv
        rcases List.mem_cons.mp ha with heq | ha
        · obtain rfl : a = b := congrArg Prod.fst heq
          exact pass_cone items _ (Finset.mem_union_right _ (List.mem_toFinset.mpr hv))
        · exact ih _ (fun a ha v hv => Finset.mem_union_left _ (hrest a ha v hv)) a ha v hv
      · intro a ha v hv
        rcases List.mem_cons.mp ha with heq | ha
        · exact absurd (congrArg Prod.snd heq) (by simp)
        · exact ih cone hrest a ha v hv

theorem pass_fixed (items : List (α × Bool)) (cone : Finset V) (h : (pass vars items cone).2.2 = false) :
    (pass vars items cone).1 = items ∧ ∀ a, (a, false) ∈ items → ∀ v ∈ vars a, v ∉ cone := by
  induction items generalizing cone with
  | nil => exact ⟨rfl, fun _ ha => absurd ha List.not_mem_nil⟩
  | cons p items ih =>
    obtain ⟨b, kept⟩ := p
    rw [pass] at h ⊢
    split at h
    · next hk =>
      obtain ⟨heq, hout⟩ := ih cone h
      rw [if_pos hk]
      refine ⟨by simp only [heq, hk], fun a ha => ?_⟩
      rcases List.mem_cons.mp ha with hab | ha
      · exact absurd ((congrArg Prod.snd hab).trans hk) (by simp)
      · exact hout a ha
    · next hk =>
      split at h
      · exact absurd h (by simp)
      · next hfar =>
        obtain ⟨heq, hout⟩ := ih cone h
        rw [if_neg hk, if_neg hfar]
        refine ⟨by simp only [heq, Bool.eq_false_iff.mpr hk], fun a ha v hv hvc => ?_⟩
        rcases List.mem_cons.mp ha with hab | ha
        · obtain rfl : a = b := congrArg Prod.fst hab
          exact hfar (List.any_eq_true.mpr ⟨v, hv, by simpa using hvc⟩)
        · exact hout a ha v hv hvc

def waiting (items : List (α × Bool)) : Nat := items.countP fun p => !p.2

theorem pass_waiting (vars : α → List V) (items : List (α × Bool)) (cone : Finset V) :
    waiting (pass vars items cone).1 ≤ waiting items ∧
      ((pass vars items cone).2.2 = true → waiting (pass vars items cone).1 < waiting items) := by
  induction items generalizing cone with
  | nil => exact ⟨Nat.le_refl _, fun h => absurd h (by simp [pass])⟩
  | cons p items ih =>
    obtain ⟨b, kept⟩ := p
    rw [pass]
    split
    · next hk =>
      subst hk
      simpa [waiting] using ih cone
    · next hk =>
      obtain rfl : kept = false := Bool.eq_false_iff.mpr hk
      split
      · have hle := (ih (cone ∪ (vars b).toFinset)).1
        simp only [waiting, List.countP_cons] at hle ⊢
        exact ⟨by simp; omega, fun _ => by simp; omega⟩
      · simpa [waiting] using ih cone

theorem grow_spec {fuel : Nat} {items : List (α × Bool)} (cone : Finset V) (hfuel : waiting items < fuel)
    (h : ∀ a, (a, true) ∈ items → ∀ v ∈ vars a, v ∈ cone) :
    ∃ items' cone', grow vars fuel items cone = some items' ∧ items'.map Prod.fst = items.map Prod.fst ∧
      cone ⊆ cone' ∧ (∀ a, (a, true) ∈ items' → ∀ v ∈ vars a, v ∈ cone') ∧
      ∀ a, (a, false) ∈ items' → ∀ v ∈ vars a, v ∉ cone' := by
  induction fuel generalizing items cone with
  | zero => exact absurd hfuel (Nat.not_lt_zero _)
  | succ fuel ih =>
    rw [grow]
    obtain ⟨hle, hlt⟩ := pass_waiting vars items cone
    split
    · next hch =>
      obtain ⟨items', cone', hgrow, hitems, hcone, hin, hout⟩ :=
        ih _ (by have := hlt hch; omega) (pass_inside items cone h)
      exact ⟨items', cone', hgrow, hitems.trans (pass_items items cone),
        Finset.Subset.trans (pass_cone items cone) hcone, hin, hout⟩
    · next hch =>
      obtain ⟨heq, hout⟩ := pass_fixed items cone (Bool.eq_false_iff.mpr hch)
      rw [heq]
      exact ⟨items, cone, rfl, rfl, Finset.Subset.refl _, h, hout⟩

/-- **The filter** returns, and cuts the items along a cone that holds the variables of the goal. -/
theorem relevant_spec (vars : α → List V) (goal : List V) (all : List α) :
    ∃ (kept : List α) (cone : Finset V), relevant vars goal all = some kept ∧ (∀ a ∈ kept, a ∈ all) ∧
      (∀ v ∈ goal, v ∈ cone) ∧ (∀ a ∈ kept, ∀ v ∈ vars a, v ∈ cone) ∧
      ∀ a ∈ all, a ∈ kept ∨ ∀ v ∈ vars a, v ∉ cone := by
  have hwait : waiting (all.map fun a => (a, false)) < all.length + 1 :=
    Nat.lt_succ_of_le ((List.countP_le_length).trans (by simp))
  have hnone : ∀ a, (a, true) ∈ all.map (fun a => (a, false)) → ∀ v ∈ vars a, v ∈ goal.toFinset := by simp
  obtain ⟨items, cone, hgrow, hitems, hcone, hin, hout⟩ := grow_spec goal.toFinset hwait hnone
  have hfst : items.map Prod.fst = all := by rw [hitems, List.map_map]; exact List.map_id' all
  refine ⟨marked items, cone, by rw [relevant, hgrow]; rfl, fun a ha => ?_, fun v hv => ?_, fun a ha => ?_, ?_⟩
  · rw [← hfst]
    exact List.mem_map.mpr ⟨(a, true), mem_marked.mp ha, rfl⟩
  · exact hcone (List.mem_toFinset.mpr hv)
  · exact hin a (mem_marked.mp ha)
  · intro a ha
    rw [← hfst] at ha
    obtain ⟨⟨b, kept⟩, hp, rfl⟩ := List.mem_map.mp ha
    cases kept with
    | true => exact .inl (mem_marked.mpr hp)
    | false => exact .inr (hout b hp)

end Csolver.Lib.Cone
