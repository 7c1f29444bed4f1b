import Mathlib.Algebra.Order.Monoid.WithTop
import Mathlib.Algebra.Order.Group.Defs
import Mathlib.Algebra.Order.Group.Int
import Mathlib.Data.Finset.Max
import Mathlib.Data.List.Range
import Mathlib.Tactic.Abel

/-!
# Difference bounds

A matrix of upper bounds on the differences of `n` values. Its shortest paths are computed in place, one middle
vertex after the other. If no entry of the diagonal is negative in the end, the result is closed under going
by way of a third vertex, and then there are values that keep every bound: they are chosen one at a time, and
what the chosen ones leave for the next is never empty.
-/

namespace Csolver.Lib.Differences

variable {α : Type} [AddCommGroup α] [LinearOrder α]

/-- Entry `(i, j)` is a bound on `v j - v i`. -/
abbrev Bounds (α : Type) := Nat → Nat → WithTop α

variable {n : Nat} {m : Bounds α} {v : Nat → α}

def Sat (n : Nat) (m : Bounds α) (v : Nat → α) : Prop :=
  ∀ i < n, ∀ j < n, ((v j - v i : α) : WithTop α) ≤ m i j

/-- No way by a third vertex is shorter. -/
def Closed (n : Nat) (m : Bounds α) : Prop := ∀ k < n, ∀ i < n, ∀ j < n, m i j ≤ m i k + m k j

def relax (m : Bounds α) (k i j : Nat) : Bounds α :=
  fun a b => if a = i ∧ b = j then min (m i j) (m i k + m k j) else m a b

/-- The pairs of one round, in order. -/
def pairs (n : Nat) : List (Nat × Nat) := (List.range n).flatMap fun i => (List.range n).map fun j => (i, j)

/-- The relaxations by way of `k`. -/
def relaxAll (m : Bounds α) (k : Nat) (l : List (Nat × Nat)) : Bounds α :=
  l.foldl (fun m p => relax m k p.1 p.2) m

/-- The rounds of the first `s` vertices. -/
def rounds (n s : Nat) (m : Bounds α) : Bounds α :=
  (List.range s).foldl (fun m k => relaxAll m k (pairs n)) m

/-- All relaxations in order: the middle vertex, and the two ends. -/
def steps (n : Nat) : List (Nat × Nat × Nat) := (List.range n).flatMap fun k => (pairs n).map fun p => (k, p)

theorem rounds_eq_steps (m : Bounds α) :
    rounds n n m = (steps n).foldl (fun m s => relax m s.1 s.2.1 s.2.2) m := by
  simp only [rounds, relaxAll, steps, List.foldl_flatMap, List.foldl_map]

theorem mem_steps {s : Nat × Nat × Nat} : s ∈ steps n → s.1 < n ∧ s.2.1 < n ∧ s.2.2 < n := by
  simp only [steps, pairs, List.mem_flatMap, List.mem_map, List.mem_range]
  intro ⟨k, hk, p, ⟨i, hi, j, hj, hp⟩, hs⟩
  subst hs hp
  exact ⟨hk, hi, hj⟩

theorem mem_pairs {p : Nat × Nat} : p ∈ pairs n ↔ p.1 < n ∧ p.2 < n := by
  simp only [pairs, List.mem_flatMap, List.mem_map, List.mem_range]
  constructor
  · intro ⟨i, hi, j, hj, hp⟩
    subst hp
    exact ⟨hi, hj⟩
  · intro ⟨hi, hj⟩
    exact ⟨p.1, hi, p.2, hj, rfl⟩

theorem relax_le (m : Bounds α) (k i j a b : Nat) : relax m k i j a b ≤ m a b := by
  unfold relax
  split_ifs with h
  · rw [h.1, h.2]
    exact min_le_left _ _
  · exact le_refl _

theorem relaxAll_le (k : Nat) (l : List (Nat × Nat)) (m : Bounds α) (a b : Nat) : relaxAll m k l a b ≤ m a b := by
  induction l generalizing m with
  | nil => exact le_refl _
  | cons p l ih => exact (ih _).trans (relax_le m k p.1 p.2 a b)

theorem rounds_succ (n s : Nat) (m : Bounds α) : rounds n (s + 1) m = relaxAll (rounds n s m) s (pairs n) := by
  rw [rounds, List.range_succ, List.foldl_append]
  rfl

theorem rounds_le (s : Nat) (m : Bounds α) (a b : Nat) : rounds n s m a b ≤ m a b := by
  induction s with
  | zero => exact le_refl _
  | succ s ih =>
    rw [rounds_succ]
    exact (relaxAll_le _ _ _ a b).trans ih

variable [IsOrderedAddMonoid α]

/-! ## Rounds -/

/-- While the diagonal is not negative, the row and the column of the middle vertex do not change in its round,
so that the order of the pairs does not matter. -/
theorem relaxAll_eq {k : Nat} (hk : 0 ≤ m k k) (l : List (Nat × Nat)) (a b : Nat) :
    relaxAll m k l a b = if (a, b) ∈ l then min (m a b) (m a k + m k b) else m a b := by
  induction l using List.reverseRecOn generalizing a b with
  | nil => rfl
  | append_singleton l p ih =>
    obtain ⟨i, j⟩ := p
    have hrow : ∀ b, relaxAll m k l k b = m k b := by
      intro b
      rw [ih, min_eq_left (le_add_of_nonneg_left hk), ite_self]
    have hcol : ∀ a, relaxAll m k l a k = m a k := by
      intro a
      rw [ih, min_eq_left (le_add_of_nonneg_right hk), ite_self]
    have hstep : relaxAll m k (l ++ [(i, j)]) = relax (relaxAll m k l) k i j := by
      rw [relaxAll, List.foldl_append]
      rfl
    rw [hstep, relax, hrow, hcol]
    by_cases hab : a = i ∧ b = j
    · obtain ⟨rfl, rfl⟩ := hab
      rw [if_pos ⟨rfl, rfl⟩, if_pos (List.mem_append_right _ List.mem_cons_self), ih]
      split_ifs
      · rw [min_assoc, min_self]
      · rfl
    · have hne : (a, b) ≠ (i, j) := fun h => hab (Prod.mk.inj h)
      rw [if_neg hab, ih]
      simp only [List.mem_append, List.mem_singleton, hne, or_false]

theorem round_eq {k : Nat} (hk : 0 ≤ m k k) {a b : Nat} (ha : a < n) (hb : b < n) :
    relaxAll m k (pairs n) a b = min (m a b) (m a k + m k b) := by
  rw [relaxAll_eq hk, if_pos (mem_pairs.mpr ⟨ha, hb⟩)]

/-- Going by way of `s` or not is closed under the vertices that it was closed under before, and under `s`. -/
theorem closed_round {s : Nat} {p : Bounds α} (hs : s < n) (hdiag : 0 ≤ p s s)
    (ih : ∀ k < s, ∀ i < n, ∀ j < n, p i j ≤ p i k + p k j) :
    ∀ k < s + 1, ∀ i < n, ∀ j < n,
      relaxAll p s (pairs n) i j ≤ relaxAll p s (pairs n) i k + relaxAll p s (pairs n) k j := by
  intro k hk i hi j hj
  have hkn : k < n := by omega
  rw [round_eq hdiag hi hj, round_eq hdiag hi hkn, round_eq hdiag hkn hj]
  rcases Nat.lt_succ_iff_lt_or_eq.mp hk with hlt | rfl
  · -- each of the two parts goes by way of `s` or not
    rcases min_choice (p i k) (p i s + p s k) with h₁ | h₁ <;> rw [h₁]
    · rcases min_choice (p k j) (p k s + p s j) with h₂ | h₂ <;> rw [h₂]
      · exact (min_le_left _ _).trans (ih k hlt i hi j hj)
      · calc min (p i j) (p i s + p s j) ≤ p i s + p s j := min_le_right _ _
          _ ≤ p i k + p k s + p s j := by gcongr; exact ih k hlt i hi s hs
          _ = p i k + (p k s + p s j) := add_assoc _ _ _
    · rcases min_choice (p k j) (p k s + p s j) with h₂ | h₂ <;> rw [h₂]
      · calc min (p i j) (p i s + p s j) ≤ p i s + p s j := min_le_right _ _
          _ ≤ p i s + (p s k + p k j) := by gcongr; exact ih k hlt s hs j hj
          _ = p i s + p s k + p k j := (add_assoc _ _ _).symm
      · have hround : 0 ≤ p s k + p k s := hdiag.trans (ih k hlt s hs s hs)
        calc min (p i j) (p i s + p s j) ≤ p i s + p s j := min_le_right _ _
          _ ≤ p i s + (p s k + p k s) + p s j := by gcongr; exact le_add_of_nonneg_right hround
          _ = p i s + p s k + (p k s + p s j) := by simp only [add_assoc]
  · rw [min_eq_left (le_add_of_nonneg_right hdiag), min_eq_left (le_add_of_nonneg_left hdiag)]
    exact min_le_right _ _

theorem closed_rounds (hdiag : ∀ i < n, 0 ≤ rounds n n m i i) : Closed n (rounds n n m) := by
  have hall : ∀ s ≤ n, (∀ i < n, 0 ≤ rounds n s m i i) →
      ∀ k < s, ∀ i < n, ∀ j < n, rounds n s m i j ≤ rounds n s m i k + rounds n s m k j := by
    intro s
    induction s with
    | zero => exact fun _ _ k hk => absurd hk (Nat.not_lt_zero k)
    | succ s ih =>
      intro hs hpos
      have hprev : ∀ i < n, 0 ≤ rounds n s m i i := by
        intro i hi
        refine (hpos i hi).trans ?_
        rw [rounds_succ]
        exact relaxAll_le _ _ _ i i
      rw [rounds_succ]
      exact closed_round hs (hprev s hs) (ih (Nat.le_of_succ_le hs) hprev)
  exact hall n (Nat.le_refl n) hdiag

/-! ## Values -/

omit [IsOrderedAddMonoid α] in
theorem Sat.mono {m' : Bounds α} (h : Sat n m v) (hle : ∀ i < n, ∀ j < n, m i j ≤ m' i j) : Sat n m' v :=
  fun i hi j hj => (h i hi j hj).trans (hle i hi j hj)

theorem Sat.way (h : Sat n m v) {i j k : Nat} (hi : i < n) (hj : j < n) (hk : k < n) :
    ((v j - v i : α) : WithTop α) ≤ m i k + m k j := by
  have hsum : ((v j - v i : α) : WithTop α) = ((v k - v i : α) : WithTop α) + ((v j - v k : α) : WithTop α) := by
    rw [← WithTop.coe_add]
    congr 1
    abel
  rw [hsum]
  exact add_le_add (h i hi k hk) (h k hk j hj)

theorem Sat.relax (h : Sat n m v) {k i j : Nat} (hk : k < n) (hi : i < n) (hj : j < n) : Sat n (relax m k i j) v := by
  intro a ha b hb
  unfold Differences.relax
  split_ifs with hab
  · rw [hab.1, hab.2]
    exact le_min (h i hi j hj) (h.way hi hj hk)
  · exact h a ha b hb

theorem Sat.relaxAll {k : Nat} (hk : k < n) (l : List (Nat × Nat)) (hl : ∀ p ∈ l, p.1 < n ∧ p.2 < n) (h : Sat n m v) :
    Sat n (relaxAll m k l) v := by
  induction l generalizing m with
  | nil => exact h
  | cons p l ih =>
    obtain ⟨hi, hj⟩ := hl p List.mem_cons_self
    exact ih (fun q hq => hl q (List.mem_cons_of_mem p hq)) (h.relax hk hi hj)

theorem Sat.rounds {s : Nat} (hs : s ≤ n) (h : Sat n m v) : Sat n (rounds n s m) v := by
  induction s with
  | zero => exact h
  | succ s ih =>
    rw [rounds_succ]
    exact (ih (Nat.le_of_succ_le hs)).relaxAll hs _ fun p hp => mem_pairs.mp hp

omit [IsOrderedAddMonoid α] in
theorem Sat.diag_nonneg (h : Sat n m v) {i : Nat} (hi : i < n) : 0 ≤ m i i := by
  have hself := h i hi i hi
  rwa [sub_self] at hself

omit [IsOrderedAddMonoid α] in
theorem exists_between (L U : Finset α) (h : ∀ l ∈ L, ∀ u ∈ U, l ≤ u) :
    ∃ x, (∀ l ∈ L, l ≤ x) ∧ ∀ u ∈ U, x ≤ u := by
  rcases L.eq_empty_or_nonempty with rfl | hL
  · rcases U.eq_empty_or_nonempty with rfl | hU
    · exact ⟨0, fun l hl => absurd hl (Finset.notMem_empty l), fun u hu => absurd hu (Finset.notMem_empty u)⟩
    · exact ⟨U.min' hU, fun l hl => absurd hl (Finset.notMem_empty l), fun u hu => U.min'_le u hu⟩
  · exact ⟨L.max' hL, fun l hl => L.le_max' l hl, fun u hu => L.max'_le hL u fun l hl => h l hl u hu⟩

theorem Sat.extend {s : Nat} (hs : s < n) (hc : Closed n m) (hdiag : 0 ≤ m s s) (h : Sat s m v) :
    ∃ v', Sat (s + 1) m v' := by
  let lower := ((Finset.range s).filter fun i => m s i ≠ ⊤).image fun i => v i - (m s i).untopD 0
  let upper := ((Finset.range s).filter fun i => m i s ≠ ⊤).image fun i => v i + (m i s).untopD 0
  have hcross : ∀ l ∈ lower, ∀ u ∈ upper, l ≤ u := by
    intro l hl u hu
    obtain ⟨j, hj, rfl⟩ := Finset.mem_image.mp hl
    obtain ⟨i, hi, rfl⟩ := Finset.mem_image.mp hu
    obtain ⟨hjs, hjtop⟩ := Finset.mem_filter.mp hj
    obtain ⟨his, hitop⟩ := Finset.mem_filter.mp hi
    rw [Finset.mem_range] at hjs his
    obtain ⟨c, hcj⟩ := WithTop.ne_top_iff_exists.mp hjtop
    obtain ⟨d, hdi⟩ := WithTop.ne_top_iff_exists.mp hitop
    have hway := (h i his j hjs).trans (hc s hs i (by omega) j (by omega))
    rw [← hcj, ← hdi, ← WithTop.coe_add, WithTop.coe_le_coe] at hway
    rw [← hcj, ← hdi, WithTop.untopD_coe, WithTop.untopD_coe, sub_le_iff_le_add]
    calc v j = (v j - v i) + v i := (sub_add_cancel _ _).symm
      _ ≤ (d + c) + v i := by gcongr
      _ = v i + d + c := by abel
  obtain ⟨x, hlow, hup⟩ := exists_between lower upper hcross
  have hold : ∀ i < s, Function.update v s x i = v i := fun i hi => Function.update_of_ne (by omega) x v
  refine ⟨Function.update v s x, fun i hi j hj => ?_⟩
  rcases Nat.lt_succ_iff_lt_or_eq.mp hi with hi' | rfl
  · rcases Nat.lt_succ_iff_lt_or_eq.mp hj with hj' | rfl
    · rw [hold i hi', hold j hj']
      exact h i hi' j hj'
    · rw [hold i hi', Function.update_self]
      by_cases htop : m i j = ⊤
      · rw [htop]
        exact le_top
      · obtain ⟨d, hd⟩ := WithTop.ne_top_iff_exists.mp htop
        have hle := hup _ (Finset.mem_image_of_mem _ (Finset.mem_filter.mpr ⟨Finset.mem_range.mpr hi', htop⟩))
        rw [← hd, WithTop.untopD_coe] at hle
        rw [← hd, WithTop.coe_le_coe, sub_le_iff_le_add, add_comm]
        exact hle
  · rcases Nat.lt_succ_iff_lt_or_eq.mp hj with hj' | rfl
    · rw [hold j hj', Function.update_self]
      by_cases htop : m i j = ⊤
      · rw [htop]
        exact le_top
      · obtain ⟨c, hcj⟩ := WithTop.ne_top_iff_exists.mp htop
        have hle := hlow _ (Finset.mem_image_of_mem _ (Finset.mem_filter.mpr ⟨Finset.mem_range.mpr hj', htop⟩))
        rw [← hcj, WithTop.untopD_coe, sub_le_iff_le_add] at hle
        rw [← hcj, WithTop.coe_le_coe, sub_le_iff_le_add, add_comm]
        exact hle
    · rw [sub_self]
      exact hdiag

theorem exists_sat_of_closed (hc : Closed n m) (hdiag : ∀ i < n, 0 ≤ m i i) : ∃ v, Sat n m v := by
  have hall : ∀ s ≤ n, ∃ v, Sat s m v := by
    intro s
    induction s with
    | zero => exact fun _ => ⟨fun _ => 0, fun i hi => absurd hi (Nat.not_lt_zero i)⟩
    | succ s ih =>
      intro hs
      obtain ⟨v, hv⟩ := ih (Nat.le_of_succ_le hs)
      exact hv.extend hs hc (hdiag s hs)
  exact hall n (Nat.le_refl n)

theorem exists_sat_iff : (∃ v, Sat n m v) ↔ ∀ i < n, 0 ≤ rounds n n m i i := by
  constructor
  · intro ⟨v, hv⟩ i hi
    exact (hv.rounds (Nat.le_refl n)).diag_nonneg hi
  · intro h
    obtain ⟨v, hv⟩ := exists_sat_of_closed (closed_rounds h) h
    exact ⟨v, hv.mono fun i _ j _ => rounds_le n m i j⟩

end Csolver.Lib.Differences
