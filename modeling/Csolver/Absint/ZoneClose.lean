import Csolver.Absint.Zone
import Csolver.Lib.Differences
import Mathlib.Data.Int.ConditionallyCompleteOrder

/-!
# Closing a matrix of difference bounds

`close` adds with saturation. A sum that saturates upwards is too small a bound, and does harm only if some
values need more: then their difference is above `i128::MAX`. A sum that saturates downwards is a bound that is
kept all the same, and may only hide that the matrix is infeasible.
-/

namespace Csolver

open Lib Lib.Differences

def Bnd.val : Bnd → WithTop Int
  | some x => (x.val : WithTop Int)
  | none => ⊤

/-- `saturating_add` of bounds. -/
def satSum (a b : WithTop Int) : WithTop Int := (a + b).map fun z => max (-2 ^ 127) (min z (2 ^ 127 - 1))

theorem I128.saturating_val (z : Int) : (I128.saturating z).val = max (-2 ^ 127) (min z (2 ^ 127 - 1)) := by
  unfold I128.saturating I128.checked
  by_cases h : -2 ^ 127 ≤ z ∧ z < 2 ^ 127
  · rw [dif_pos h]
    show z = _
    omega
  · rw [dif_neg h]
    by_cases hneg : z < 0
    · rw [if_pos hneg]
      show (-2 ^ 127 : Int) = _
      omega
    · rw [if_neg hneg]
      show (2 ^ 127 - 1 : Int) = _
      omega

namespace Bnd

theorem val_min (x y : Bnd) : (min x y).val = Min.min x.val y.val := by
  cases x with
  | none => cases y <;> simp [min, val]
  | some x =>
    cases y with
    | none => simp [min, val]
    | some y =>
      simp only [min, val, ← WithTop.coe_min]
      split_ifs with h
      · rw [min_eq_left h]
      · rw [min_eq_right (le_of_lt (not_le.mp h))]

theorem val_max (x y : Bnd) : (max x y).val = Max.max x.val y.val := by
  cases x with
  | none => cases y <;> simp [max, val]
  | some x =>
    cases y with
    | none => simp [max, val]
    | some y =>
      simp only [max, val, ← WithTop.coe_max]
      split_ifs with h
      · rw [max_eq_right h]
      · rw [max_eq_left (le_of_lt (not_le.mp h))]

theorem val_add (x y : Bnd) : (add x y).val = satSum x.val y.val := by
  cases x with
  | none => cases y <;> rfl
  | some x =>
    cases y with
    | none => rfl
    | some y =>
      show ((I128.saturating (x.val + y.val)).val : WithTop Int) = _
      rw [I128.saturating_val]
      rfl

@[simp] theorem val_none : val none = ⊤ := rfl

@[simp] theorem val_some (x : I128) : val (some x) = (x.val : WithTop Int) := rfl

end Bnd

namespace Dbm

def bound (m : Dbm) : Bounds Int := fun i j => (m.entry i j).val

variable {n : Nat} {m : Dbm} {i j : Nat}

theorem entry_setEntry (h : Square n m) (hi : i < n) (hj : j < n) (x : Bnd) (a b : Nat) :
    (m.setEntry i j x).entry a b = if a = i ∧ b = j then x else m.entry a b := by
  have hrow : i < m.length := by rw [h.rows]; exact hi
  have hcol : j < m[i].length := by rw [h.cols _ (List.getElem_mem hrow)]; exact hj
  unfold entry setEntry
  by_cases ha : a = i
  · subst ha
    have hget : (m.modify a fun row => row.set j x).getD a [] = m[a].set j x := by
      rw [List.getD_eq_getElem?_getD, List.getElem?_modify_eq, List.getElem?_eq_getElem hrow]
      rfl
    rw [hget, List.getD_eq_getElem?_getD, List.getD_eq_getElem?_getD, List.getElem?_set]
    by_cases hb : j = b
    · subst hb
      rw [if_pos rfl, if_pos hcol, if_pos ⟨rfl, rfl⟩]
      rfl
    · rw [if_neg hb, if_neg fun he => hb he.2.symm, List.getD_eq_getElem?_getD, List.getElem?_eq_getElem hrow]
      rfl
  · have hget : (m.modify i fun row => row.set j x).getD a [] = m.getD a [] := by
      rw [List.getD_eq_getElem?_getD, List.getElem?_modify, List.getD_eq_getElem?_getD]
      simp only [if_neg (Ne.symm ha), id_map']
    rw [if_neg fun he => ha he.1, hget]

theorem bound_setEntry (h : Square n m) (hi : i < n) (hj : j < n) (x : Bnd) (a b : Nat) :
    (m.setEntry i j x).bound a b = if a = i ∧ b = j then x.val else m.bound a b := by
  rw [bound, entry_setEntry h hi hj]
  split_ifs <;> rfl

end Dbm

/-! ## Saturation -/

theorem satSum_coe (x y : Int) :
    satSum (x : WithTop Int) (y : WithTop Int) = ((max (-2 ^ 127) (min (x + y) (2 ^ 127 - 1)) : Int) : WithTop Int) := rfl

theorem satSum_eq_top {a b : WithTop Int} : satSum a b = ⊤ ↔ a = ⊤ ∨ b = ⊤ := by
  cases a with
  | top => simp [satSum]
  | coe x =>
    cases b with
    | top => simp [satSum]
    | coe y => simp [satSum_coe]

theorem le_satSum {a b : WithTop Int} {z : Int} (h : (z : WithTop Int) ≤ a + b)
    (hz : a ≠ ⊤ → b ≠ ⊤ → z ≤ 2 ^ 127 - 1) : (z : WithTop Int) ≤ satSum a b := by
  cases a with
  | top => exact le_top
  | coe x =>
    cases b with
    | top => exact le_top
    | coe y =>
      have hmax := hz (WithTop.coe_ne_top) (WithTop.coe_ne_top)
      rw [← WithTop.coe_add, WithTop.coe_le_coe] at h
      rw [satSum_coe, WithTop.coe_le_coe]
      exact le_max_of_le_right (le_min h hmax)

theorem satSum_le {a b : WithTop Int} (h : ((-2 ^ 127 : Int) : WithTop Int) ≤ a + b) : satSum a b ≤ a + b := by
  cases a with
  | top => exact le_top
  | coe x =>
    cases b with
    | top => exact le_top
    | coe y =>
      rw [← WithTop.coe_add, WithTop.coe_le_coe] at h
      rw [satSum_coe, ← WithTop.coe_add, WithTop.coe_le_coe]
      exact max_le h (min_le_left _ _)

namespace Zone

variable {n : Nat} {m : Dbm} {v : Nat → Int}

theorem bound_relax (h : Dbm.Square n m) {i j : Nat} (hi : i < n) (hj : j < n) (k a b : Nat) :
    (relax m k i j).bound a b =
      if a = i ∧ b = j then min (m.bound i j) (satSum (m.bound i k) (m.bound k j)) else m.bound a b := by
  rw [relax, Dbm.bound_setEntry h hi hj, Bnd.val_min, Bnd.val_add]
  rfl

theorem bound_relax_le (h : Dbm.Square n m) {i j : Nat} (hi : i < n) (hj : j < n) (k a b : Nat) :
    (relax m k i j).bound a b ≤ m.bound a b := by
  rw [bound_relax h hi hj]
  split_ifs with hab
  · rw [hab.1, hab.2]
    exact min_le_left _ _
  · exact le_refl _

/-- The relaxations of `close`, one after the other. -/
def relaxSteps (m : Dbm) (l : List (Nat × Nat × Nat)) : Dbm := l.foldl (fun m s => relax m s.1 s.2.1 s.2.2) m

theorem tighten_eq_steps (m : Dbm) : tighten m = relaxSteps m (steps m.length) := by
  simp only [tighten, relaxSteps, steps, pairs, List.foldl_flatMap, List.foldl_map]

theorem relaxSteps_induction {P : Dbm → Prop} {l : List (Nat × Nat × Nat)} (hl : ∀ s ∈ l, s.1 < n ∧ s.2.1 < n ∧ s.2.2 < n)
    (hstep : ∀ m k i j, Dbm.Square n m → k < n → i < n → j < n → P m → P (relax m k i j))
    (h : Dbm.Square n m) (hm : P m) : Dbm.Square n (relaxSteps m l) ∧ P (relaxSteps m l) := by
  induction l generalizing m with
  | nil => exact ⟨h, hm⟩
  | cons s l ih =>
    obtain ⟨hk, hi, hj⟩ := hl s List.mem_cons_self
    exact ih (fun q hq => hl q (List.mem_cons_of_mem s hq)) (h.setEntry _ _ _) (hstep m _ _ _ h hk hi hj hm)

theorem relaxSteps_le {l : List (Nat × Nat × Nat)} (hl : ∀ s ∈ l, s.1 < n ∧ s.2.1 < n ∧ s.2.2 < n)
    (h : Dbm.Square n m) (a b : Nat) : (relaxSteps m l).bound a b ≤ m.bound a b := by
  refine (relaxSteps_induction (P := fun m' => m'.bound a b ≤ m.bound a b) hl ?_ h (le_refl _)).2
  intro m' k i j h' _ hi hj hle
  exact (bound_relax_le h' hi hj k a b).trans hle

theorem tighten_le (h : Dbm.Square n m) (a b : Nat) : (tighten m).bound a b ≤ m.bound a b := by
  rw [tighten_eq_steps, h.rows]
  exact relaxSteps_le (fun s hs => mem_steps hs) h a b

/-- The variables are joined by a way of bounds. -/
def Joined (m : Dbm) : Nat → Nat → Prop :=
  Relation.ReflTransGen fun a b => a < m.length ∧ b < m.length ∧ m.bound a b ≠ ⊤

theorem joined_of_relax {m m' : Dbm} {k i j : Nat} (h' : Dbm.Square n m') (hi : i < n) (hj : j < n) (hk : k < n)
    (ih : ∀ a < n, ∀ b < n, m'.bound a b ≠ ⊤ → Joined m a b) :
    ∀ a < n, ∀ b < n, (relax m' k i j).bound a b ≠ ⊤ → Joined m a b := by
  intro a ha b hb hne
  rw [bound_relax h' hi hj] at hne
  split_ifs at hne with hab
  · obtain ⟨rfl, rfl⟩ := hab
    by_cases hdirect : m'.bound a b = ⊤
    · rw [hdirect, min_eq_right le_top] at hne
      have hboth := mt satSum_eq_top.mpr hne
      rw [not_or] at hboth
      exact (ih a ha k hk hboth.1).trans (ih k hk b hb hboth.2)
    · exact ih a ha b hb hdirect
  · exact ih a ha b hb hne

theorem sat_tighten (h : Dbm.Square n m) (hv : Sat n m.bound v)
    (hmax : ∀ i j, Joined m i j → v j - v i ≤ 2 ^ 127 - 1) : Sat n (tighten m).bound v := by
  have hrows : m.length = n := h.rows
  rw [tighten_eq_steps, hrows]
  refine (relaxSteps_induction (P := fun m' => Sat n m'.bound v ∧
    ∀ a < n, ∀ b < n, m'.bound a b ≠ ⊤ → Joined m a b) (fun s hs => mem_steps hs) ?_ h ⟨hv, ?_⟩).2.1
  · intro m' k i j h' hk hi hj ⟨hsat, hjoin⟩
    refine ⟨fun a ha b hb => ?_, joined_of_relax h' hi hj hk hjoin⟩
    rw [bound_relax h' hi hj]
    split_ifs with hab
    · rw [hab.1, hab.2]
      refine le_min (hsat i hi j hj) (le_satSum (hsat.way hi hj hk) fun hik hkj => ?_)
      exact hmax i j ((hjoin i hi k hk hik).trans (hjoin k hk j hj hkj))
    · exact hsat a ha b hb
  · intro a ha b hb hne
    refine .single ⟨by omega, by omega, hne⟩

/-! ## Infeasible matrices -/

/-- No two bounds are added whose sum is below `i128::MIN`, as long as no entry of the diagonal is negative. -/
def NoUnderflow : List (Nat × Nat × Nat) → Dbm → Prop
  | [], _ => True
  | (k, i, j) :: l, m =>
    ((∀ d < m.length, 0 ≤ m.bound d d) → ((-2 ^ 127 : Int) : WithTop Int) ≤ m.bound i k + m.bound k j) ∧
      NoUnderflow l (relax m k i j)

/-- The bounds are not above those of an addition that is exact, or an entry of the diagonal is negative. -/
theorem relaxSteps_le_exact {l : List (Nat × Nat × Nat)} (hl : ∀ s ∈ l, s.1 < n ∧ s.2.1 < n ∧ s.2.2 < n) {e : Bounds Int}
    (h : Dbm.Square n m) (hle : ∀ a b, m.bound a b ≤ e a b) (hun : NoUnderflow l m) :
    (∃ d < n, (relaxSteps m l).bound d d < 0) ∨
      ∀ a b, (relaxSteps m l).bound a b ≤ (l.foldl (fun e s => Differences.relax e s.1 s.2.1 s.2.2) e) a b := by
  induction l generalizing m e with
  | nil => exact .inr hle
  | cons s l ih =>
    obtain ⟨k, i, j⟩ := s
    obtain ⟨hk, hi, hj⟩ := hl _ List.mem_cons_self
    obtain ⟨hsum, hrest⟩ := hun
    by_cases hneg : ∃ d < n, m.bound d d < 0
    · obtain ⟨d, hd, hlt⟩ := hneg
      exact .inl ⟨d, hd, lt_of_le_of_lt (relaxSteps_le hl h d d) hlt⟩
    · have hdiag : ∀ d < m.length, 0 ≤ m.bound d d := by
        intro d hd
        rw [h.rows] at hd
        exact not_lt.mp fun hlt => hneg ⟨d, hd, hlt⟩
      refine ih (fun q hq => hl q (List.mem_cons_of_mem _ hq)) (h.setEntry _ _ _) (fun a b => ?_) hrest
      rw [bound_relax h hi hj]
      show _ ≤ if a = i ∧ b = j then min (e i j) (e i k + e k j) else e a b
      split_ifs with hab
      · exact min_le_min (hle i j) ((satSum_le (hsum hdiag)).trans (add_le_add (hle i k) (hle k j)))
      · exact hle a b

theorem negativeCycle_iff (m : Dbm) : negativeCycle m = true ↔ ∃ d < m.length, m.bound d d < 0 := by
  rw [negativeCycle, List.any_eq_true]
  constructor
  · rintro ⟨d, hd, hlt⟩
    refine ⟨d, List.mem_range.mp hd, ?_⟩
    rw [Dbm.bound]
    cases hm : m.entry d d with
    | none => simp [hm] at hlt
    | some c =>
      simp only [hm, decide_eq_true_eq] at hlt
      exact WithTop.coe_lt_coe.mpr hlt
  · rintro ⟨d, hd, hlt⟩
    refine ⟨d, List.mem_range.mpr hd, ?_⟩
    rw [Dbm.bound] at hlt
    cases hm : m.entry d d with
    | none =>
      rw [hm] at hlt
      exact absurd hlt (not_lt.mpr le_top)
    | some c =>
      rw [hm] at hlt
      simpa using WithTop.coe_lt_coe.mp hlt

theorem negativeCycle_of_empty (h : Dbm.Square n m) (hempty : ¬ ∃ v, Sat n m.bound v)
    (hun : NoUnderflow (steps n) m) : ∃ d < n, (tighten m).bound d d < 0 := by
  rw [tighten_eq_steps, h.rows]
  rcases relaxSteps_le_exact (fun s hs => mem_steps hs) h (fun a b => le_refl _) hun with hneg | hle
  · exact hneg
  · rw [exists_sat_iff] at hempty
    push Not at hempty
    obtain ⟨d, hd, hlt⟩ := hempty
    rw [rounds_eq_steps] at hlt
    exact ⟨d, hd, lt_of_le_of_lt (hle d d) hlt⟩

/-! ## Which bounds there are -/

theorem relaxSteps_eq_top {l : List (Nat × Nat × Nat)} (hl : ∀ s ∈ l, s.1 < n ∧ s.2.1 < n ∧ s.2.2 < n) {e : Bounds Int}
    (h : Dbm.Square n m) (htop : ∀ a b, m.bound a b = ⊤ ↔ e a b = ⊤) (a b : Nat) : (relaxSteps m l).bound a b = ⊤ ↔
      (l.foldl (fun e s => Differences.relax e s.1 s.2.1 s.2.2) e) a b = ⊤ := by
  induction l generalizing m e with
  | nil => exact htop a b
  | cons s l ih =>
    obtain ⟨k, i, j⟩ := s
    obtain ⟨_, hi, hj⟩ := hl _ List.mem_cons_self
    refine ih (fun q hq => hl q (List.mem_cons_of_mem _ hq)) (h.setEntry _ _ _) fun a b => ?_
    rw [bound_relax h hi hj]
    show _ ↔ (if a = i ∧ b = j then min (e i j) (e i k + e k j) else e a b) = ⊤
    split_ifs with hab
    · simp only [min_eq_top, satSum_eq_top, WithTop.add_eq_top, htop]
    · exact htop a b

theorem bound_ne_top_of_joined (h : Dbm.Square n m) (hv : Sat n m.bound v) {i j : Nat} (hij : Joined m i j) :
    i = j ∨ (i < n ∧ j < n ∧ (tighten m).bound i j ≠ ⊤) := by
  have hdiag := exists_sat_iff.mp ⟨v, hv⟩
  have hclosed := closed_rounds hdiag
  have htop : ∀ a b, (tighten m).bound a b = ⊤ ↔ rounds n n m.bound a b = ⊤ := by
    intro a b
    rw [tighten_eq_steps, h.rows, rounds_eq_steps]
    exact relaxSteps_eq_top (fun s hs => mem_steps hs) h (fun _ _ => Iff.rfl) a b
  induction hij with
  | refl => exact .inl rfl
  | @tail b c _ hbc ih =>
    obtain ⟨hb, hc, hne⟩ := hbc
    rw [h.rows] at hb hc
    have hedge : rounds n n m.bound b c ≠ ⊤ := fun he => hne (top_le_iff.mp (he ▸ rounds_le n m.bound b c))
    rcases ih with rfl | ⟨hi, _, hib⟩
    · exact .inr ⟨hb, hc, mt (htop i c).mp hedge⟩
    · rw [ne_eq, htop] at hib
      refine .inr ⟨hi, hc, fun he => ?_⟩
      have hle := hclosed b hb i hi c hc
      rw [(htop i c).mp he, top_le_iff, WithTop.add_eq_top] at hle
      exact hle.elim hib hedge

end Zone

end Csolver
