import Csolver.Absint.RefineExact

/-!
# Bounds that the operations on a zone leave

A constraint loosens nothing, and tightening goes by way of every variable; forgetting leaves what is not about the
variable. So a zone that has one valuation, and there is one for every valuation whose differences `i128` holds,
can be followed through a sequence of operations entry by entry.
-/

namespace Csolver

open Lib Lib.Differences

namespace Zone

variable {z : Zone} {v : Nat → Int} {n : Nat} {m : Dbm}

/-! ## Bounds that an operation leaves -/

theorem satSum_le_coe {a b : WithTop Int} {x y : Int} (ha : a ≤ x) (hb : b ≤ y) (hlo : -2 ^ 127 ≤ x + y) :
    satSum a b ≤ ((x + y : Int) : WithTop Int) := by
  obtain ⟨u, rfl⟩ := WithTop.ne_top_iff_exists.mp (ne_top_of_le_ne_top WithTop.coe_ne_top ha)
  obtain ⟨w, rfl⟩ := WithTop.ne_top_iff_exists.mp (ne_top_of_le_ne_top WithTop.coe_ne_top hb)
  rw [WithTop.coe_le_coe] at ha hb
  rw [satSum_coe, WithTop.coe_le_coe]
  omega

theorem tighten_le_sum (h : Dbm.Square n m) {k i j : Nat} (hk : k < n) (hi : i < n) (hj : j < n) {x y : Int}
    (hx : m.bound i k ≤ x) (hy : m.bound k j ≤ y) (hlo : -2 ^ 127 ≤ x + y) :
    (tighten m).bound i j ≤ ((x + y : Int) : WithTop Int) := by
  have hmem : (k, i, j) ∈ steps n := by
    unfold steps
    rw [List.mem_flatMap]
    exact ⟨k, List.mem_range.mpr hk, List.mem_map.mpr ⟨(i, j), mem_pairs.mpr ⟨hi, hj⟩, rfl⟩⟩
  obtain ⟨before, after, hsteps⟩ := List.append_of_mem hmem
  have hbefore : ∀ s ∈ before, s.1 < n ∧ s.2.1 < n ∧ s.2.2 < n := by
    intro s hs
    exact mem_steps (hsteps ▸ List.mem_append_left _ hs)
  have hafter : ∀ s ∈ after, s.1 < n ∧ s.2.1 < n ∧ s.2.2 < n := by
    intro s hs
    exact mem_steps (hsteps ▸ List.mem_append_right _ (List.mem_cons_of_mem _ hs))
  have hsq : Dbm.Square n (relaxSteps m before) :=
    (relaxSteps_induction (P := fun _ => True) hbefore (fun _ _ _ _ _ _ _ _ _ => trivial) h trivial).1
  rw [tighten_eq_steps, h.rows, hsteps]
  rw [relaxSteps, List.foldl_append, List.foldl_cons]
  refine (relaxSteps_le hafter (hsq.setEntry _ _ _) i j).trans ?_
  show (relax (relaxSteps m before) k i j).bound i j ≤ _
  rw [bound_relax hsq hi hj, if_pos ⟨rfl, rfl⟩]
  refine (min_le_right _ _).trans (satSum_le_coe ?_ ?_ hlo)
  · exact (relaxSteps_le hbefore h i k).trans hx
  · exact (relaxSteps_le hbefore h k j).trans hy

/-- The zone bounds `vⱼ - vᵢ` by `c`, if it has anything. -/
def Bounded (z : Zone) (i j : Nat) (c : Int) : Prop := z.bottom = true ∨ z.m.bound i j ≤ (c : WithTop Int)

theorem Bounded.le {i j : Nat} {c : Int} (h : Bounded z i j c) (hv : Has z v) (hi : i < z.m.length) (hj : j < z.m.length) :
    v j - v i ≤ c := by
  have hle := h.resolve_left (by simp [hv.feasible])
  exact WithTop.coe_le_coe.mp ((hv.sat i hi j hj).trans hle)

theorem bound_setEntry_min (h : Dbm.Square n m) {a b : Nat} (ha : a < n) (hb : b < n) (c : I128) (i j : Nat) :
    (m.setEntry b a (Bnd.min (m.entry b a) (some c))).bound i j ≤ m.bound i j := by
  rw [Dbm.bound_setEntry h hb ha]
  split_ifs with hij
  · obtain ⟨rfl, rfl⟩ := hij
    rw [Bnd.val_min]
    exact min_le_left _ _
  · exact le_refl _

theorem bound_setEntry_self (h : Dbm.Square n m) {a b : Nat} (ha : a < n) (hb : b < n) (c : I128) :
    (m.setEntry b a (Bnd.min (m.entry b a) (some c))).bound b a ≤ (c.val : WithTop Int) := by
  rw [Dbm.bound_setEntry h hb ha, if_pos ⟨rfl, rfl⟩, Bnd.val_min]
  exact min_le_right _ _

theorem Bounded.addConstraint (hz : z.Producible) {i j : Nat} {x : Int} (h : Bounded z i j x) (a b : Nat) (c : I128) :
    Bounded (z.addConstraint a b c) i j x := by
  by_cases hc : (z.bottom || decide (z.m.length ≤ a) || decide (z.m.length ≤ b)) = true
  · rw [Zone.addConstraint, if_pos hc]
    exact h
  · simp only [Bool.or_eq_true, decide_eq_true_eq, not_or, not_le, Bool.not_eq_true] at hc
    obtain ⟨⟨hb, ha⟩, hb'⟩ := hc
    have hsq := hz.square hb
    right
    rw [addConstraint_m c hb ha hb']
    refine (tighten_le (hsq.setEntry b a _) i j).trans ?_
    exact (bound_setEntry_min hsq ha hb' c i j).trans (h.resolve_left (by simp [hb]))

theorem bounded_addConstraint (hz : z.Producible) {a b : Nat} {c : I128} (ha : a < z.m.length) (hb : b < z.m.length) :
    Bounded (z.addConstraint a b c) b a c.val ∧
      (∀ i < z.m.length, ∀ x, Bounded z i b x → -2 ^ 127 ≤ x + c.val → Bounded (z.addConstraint a b c) i a (x + c.val)) ∧
      ∀ j < z.m.length, ∀ x, Bounded z a j x → -2 ^ 127 ≤ c.val + x → Bounded (z.addConstraint a b c) b j (c.val + x) := by
  rcases Bool.eq_false_or_eq_true z.bottom with hbot | hbot
  · have hsame : z.addConstraint a b c = z := by rw [Zone.addConstraint, if_pos (by simp [hbot])]
    rw [hsame]
    exact ⟨.inl hbot, fun _ _ _ _ _ => .inl hbot, fun _ _ _ _ _ => .inl hbot⟩
  · have hsq := hz.square hbot
    have hset := hsq.setEntry b a (Bnd.min (z.m.entry b a) (some c))
    have hself := bound_setEntry_self hsq ha hb c
    have hless := bound_setEntry_min hsq ha hb c
    have hm := addConstraint_m c hbot ha hb
    refine ⟨.inr ?_, fun i hi x hx hlo => .inr ?_, fun j hj x hx hlo => .inr ?_⟩
    · rw [hm]
      exact (tighten_le hset b a).trans hself
    · rw [hm]
      exact tighten_le_sum hset hb hi ha ((hless i b).trans (hx.resolve_left (by simp [hbot]))) hself hlo
    · rw [hm]
      exact tighten_le_sum hset ha hb hj hself ((hless a j).trans (hx.resolve_left (by simp [hbot]))) hlo

theorem Bounded.forget (hz : z.Producible) {i j k : Nat} {x : Int} (h : Bounded z i j x) (hi : i < z.m.length)
    (hj : j < z.m.length) (hik : i ≠ k) (hjk : j ≠ k) : Bounded (z.forget k) i j x := by
  by_cases hc : (z.bottom || decide (k = 0) || decide (z.m.length ≤ k)) = true
  · rw [Zone.forget, if_pos hc]
    exact h
  · simp only [Bool.or_eq_true, decide_eq_true_eq, not_or, not_le, Bool.not_eq_true] at hc
    obtain ⟨⟨hb, hk⟩, hk'⟩ := hc
    obtain ⟨_, _, hentry⟩ := forget_eq hb (Nat.pos_of_ne_zero hk) hk' (hz.square hb)
    right
    rw [Dbm.bound, hentry i hi j hj, if_neg (fun he => hik he.1), if_neg (fun he => he.elim hik hjk)]
    exact h.resolve_left (by simp [hb])

/-! ## Sizes -/

theorem length_addConstraint (hz : z.Producible) (a b : Nat) (c : I128) : (z.addConstraint a b c).m.length = z.m.length := by
  rcases Bool.eq_false_or_eq_true z.bottom with hb | hb
  · rw [Zone.addConstraint, if_pos (by simp [hb])]
  · exact addConstraint_length hz hb a b c

theorem length_forget (hz : z.Producible) (k : Nat) : (z.forget k).m.length = z.m.length := by
  by_cases hc : (z.bottom || decide (k = 0) || decide (z.m.length ≤ k)) = true
  · rw [Zone.forget, if_pos hc]
  · simp only [Bool.or_eq_true, decide_eq_true_eq, not_or, not_le, Bool.not_eq_true] at hc
    obtain ⟨⟨hb, hk⟩, hk'⟩ := hc
    exact (forget_eq hb (Nat.pos_of_ne_zero hk) hk' (hz.square hb)).2.1

/-! ## A zone of one valuation -/

theorem exists_pinned {N : Nat} (h0 : v 0 = 0) (hmax : ∀ i < N + 1, ∀ j < N + 1, v j - v i ≤ 2 ^ 127 - 1) :
    ∃ z : Zone, z.Producible ∧ z.m.length = N + 1 ∧ Has z v ∧
      ∀ i < N + 1, ∀ j < N + 1, Bounded z i j (v j - v i) := by
  have hpairs : ∀ l : List (Nat × Nat), (∀ p ∈ l, p.1 < N + 1 ∧ p.2 < N + 1) → ∃ z : Zone, z.Producible ∧
      z.m.length = N + 1 ∧ Has z v ∧ ∀ p ∈ l, Bounded z p.1 p.2 (v p.2 - v p.1) := by
    intro l
    induction l with
    | nil =>
      intro _
      exact ⟨top N, .top N, (square_top N).rows, has_top N h0, fun p hp => absurd hp List.not_mem_nil⟩
    | cons p l ih =>
      intro hl
      obtain ⟨z, hz, hlen, hv, hbounded⟩ := ih fun q hq => hl q (List.mem_cons_of_mem p hq)
      obtain ⟨i, j⟩ := p
      obtain ⟨hi, hj⟩ := hl (i, j) List.mem_cons_self
      have hlo : -2 ^ 127 ≤ v j - v i := by
        have := hmax j hj i hi
        omega
      have hhi : v j - v i < 2 ^ 127 := by
        have := hmax i hi j hj
        omega
      let c : I128 := ⟨v j - v i, hlo, hhi⟩
      have hi' : i < z.m.length := by rw [hlen]; exact hi
      have hj' : j < z.m.length := by rw [hlen]; exact hj
      refine ⟨z.addConstraint j i c, .addConstraint j i c hz, by rw [length_addConstraint hz, hlen], ?_, ?_⟩
      · refine has_addConstraint hz hv hj' hi' (le_refl _) ?_
        rw [hlen]
        exact hmax
      · intro q hq
        rcases List.mem_cons.mp hq with rfl | hq
        · exact (bounded_addConstraint hz hj' hi').1
        · exact (hbounded q hq).addConstraint hz j i c
  obtain ⟨z, hz, hlen, hv, hbounded⟩ := hpairs (pairs (N + 1)) fun p hp => mem_pairs.mp hp
  exact ⟨z, hz, hlen, hv, fun i hi j hj => hbounded (i, j) (mem_pairs.mpr ⟨hi, hj⟩)⟩

end Zone

end Csolver
