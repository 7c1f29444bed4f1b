import Csolver.Absint.IntervalState
import Csolver.Absint.Zone

/-!
# The laws of the three domains

The laws that the trait documents, on the values of a set. Intervals and register environments keep
them all. Zones keep them among zones over the same variables whose only infeasible one is the bottom
without a matrix, and among no others.
-/

namespace Csolver

open AbstractDomain

/-- The laws of `AbstractDomain` on the values of `Z`. -/
structure LawsOn {D : Type} [AbstractDomain D] (Z : Set D) : Prop where
  join_comm : ∀ a ∈ Z, ∀ b ∈ Z, join a b = join b a
  join_assoc : ∀ a ∈ Z, ∀ b ∈ Z, ∀ c ∈ Z, join (join a b) c = join a (join b c)
  join_idem : ∀ a ∈ Z, join a a = a
  join_bottom : ∀ a ∈ Z, join bottom a = a ∧ join a bottom = a
  leq_refl : ∀ a ∈ Z, leq a a = true
  leq_trans : ∀ a ∈ Z, ∀ b ∈ Z, ∀ c ∈ Z, leq a b = true → leq b c = true → leq a c = true
  leq_antisymm : ∀ a ∈ Z, ∀ b ∈ Z, leq a b = true → leq b a = true → a = b
  leq_join : ∀ a ∈ Z, ∀ b ∈ Z, leq a (join a b) = true ∧ leq b (join a b) = true
  leq_widen : ∀ a ∈ Z, ∀ b ∈ Z, leq a (widen a b) = true ∧ leq b (widen a b) = true
  stabilizes : ∀ x y : Nat → D, x 0 ∈ Z → (∀ n, y n ∈ Z) → (∀ n, x (n + 1) = widen (x n) (y n)) →
    ∃ N, ∀ n, N ≤ n → x n = x N

section

variable {D : Type}

theorem eventually_const_of_rank {rank : D → Nat} (k : Nat) : ∀ (x : Nat → D), rank (x 0) ≤ k →
    (∀ n, x (n + 1) = x n ∨ rank (x (n + 1)) < rank (x n)) → ∃ N, ∀ n, N ≤ n → x n = x N := by
  induction k with
  | zero =>
    intro x h0 hstep
    have hzero : ∀ n, x n = x 0 := by
      intro n
      induction n with
      | zero => rfl
      | succ n ih =>
        rcases hstep n with h | h
        · rw [h, ih]
        · rw [ih] at h
          omega
    exact ⟨0, fun n _ => hzero n⟩
  | succ k ih =>
    intro x h0 hstep
    by_cases hconst : ∀ n, x n = x 0
    · exact ⟨0, fun n _ => hconst n⟩
    · -- behind the first change the number is smaller
      obtain ⟨m, hm⟩ := not_forall.mp hconst
      have hdrop : ∀ n, x n = x 0 ∨ rank (x n) ≤ k := by
        intro n
        induction n with
        | zero => exact .inl rfl
        | succ n ihn =>
          rcases hstep n with h | h
          · rw [h]
            exact ihn
          · rcases ihn with he | hle
            · rw [he] at h
              exact .inr (by omega)
            · exact .inr (by omega)
      have hle : rank (x m) ≤ k := (hdrop m).resolve_left hm
      obtain ⟨N, hN⟩ := ih (fun n => x (m + n)) hle fun n => hstep (m + n)
      refine ⟨m + N, fun n hn => ?_⟩
      have := hN (n - m) (by omega)
      rwa [show m + (n - m) = n by omega] at this

variable [AbstractDomain D]

theorem Engine.Stabilizes.eventually_const (hst : Engine.Stabilizes D) (a : D) :
    ∀ x y : Nat → D, x 0 = a → (∀ n, x (n + 1) = widen (x n) (y n)) →
      ∃ N, ∀ n, N ≤ n → x n = x N := by
  induction a using (Engine.widened_wf hst).induction with
  | _ a ih =>
    intro x y h0 hstep
    by_cases hconst : ∀ n, x (n + 1) = x 0
    · refine ⟨0, fun n _ => ?_⟩
      cases n with
      | zero => rfl
      | succ n => exact hconst n
    · obtain ⟨n, hn, hbefore⟩ : ∃ n, x (n + 1) ≠ x 0 ∧ ∀ k < n, x (k + 1) = x 0 := by
        classical
        have hex : ∃ n, x (n + 1) ≠ x 0 := by simpa using hconst
        refine ⟨Nat.find hex, Nat.find_spec hex, fun k hk => ?_⟩
        exact not_not.mp (Nat.find_min hex hk)
      have hxn : x n = x 0 := by
        cases n with
        | zero => rfl
        | succ n => exact hbefore n (Nat.lt_succ_self n)
      have hwidened : Engine.Widened (x (n + 1)) a := by
        refine ⟨y n, ?_, ?_⟩
        · rw [hstep n, hxn, h0]
        · rw [← h0]
          exact hn
      obtain ⟨N, hN⟩ := ih (x (n + 1)) hwidened (fun k => x (n + 1 + k)) (fun k => y (n + 1 + k)) rfl
        fun k => hstep (n + 1 + k)
      refine ⟨n + 1 + N, fun k hk => ?_⟩
      have := hN (k - (n + 1)) (by omega)
      rwa [show n + 1 + (k - (n + 1)) = k by omega] at this

theorem LawfulDomain.lawsOn [LawfulDomain D] : LawsOn (Set.univ : Set D) where
  join_comm a _ b _ := LawfulDomain.join_comm a b
  join_assoc a _ b _ c _ := LawfulDomain.join_assoc a b c
  join_idem a _ := LawfulDomain.join_idem a
  join_bottom a _ := by
    refine ⟨LawfulDomain.bottom_join a, ?_⟩
    rw [LawfulDomain.join_comm]
    exact LawfulDomain.bottom_join a
  leq_refl a _ := LawfulDomain.leq_refl a
  leq_trans a _ b _ c _ := LawfulDomain.leq_trans a b c
  leq_antisymm a _ b _ := LawfulDomain.leq_antisymm a b
  leq_join a _ b _ := by
    refine ⟨LawfulDomain.leq_join a b, ?_⟩
    rw [LawfulDomain.join_comm]
    exact LawfulDomain.leq_join b a
  leq_widen a _ b _ := ⟨LawfulDomain.leq_widen_left a b, LawfulDomain.leq_widen_right a b⟩
  stabilizes x y _ _ hstep :=
    Engine.Stabilizes.eventually_const LawfulDomain.stabilizes (x 0) x y rfl hstep

end

/-! ## Intervals -/

instance : AbstractDomain Interval := ⟨.bottom, Interval.join, Interval.widen, Interval.leq⟩

instance : LawfulDomain Interval where
  join_assoc := Interval.join_assoc
  join_comm := Interval.join_comm
  join_idem := Interval.join_self
  bottom_join := Interval.bottom_join
  leq_refl := Interval.leq_refl
  leq_trans _ _ _ := Interval.leq_trans
  leq_antisymm _ _ := Interval.leq_antisymm
  leq_join := Interval.leq_join
  leq_widen_left := Interval.leq_widen_left
  leq_widen_right := Interval.leq_widen_right
  stabilizes x y hstep := by
    obtain ⟨N, hN⟩ := eventually_const_of_rank _ x (Nat.le_refl _) fun n => by
      by_cases h : x (n + 1) = x n
      · exact .inl h
      · rw [hstep n] at h ⊢
        exact .inr (Interval.slack_widen h)
    exact ⟨N, hN (N + 1) (Nat.le_succ N)⟩

/-! ## Zones -/

namespace Zone

/-- The bottom, or a feasible zone over `n` variables. -/
def Sized (n : Nat) (z : Zone) : Prop := z = bot ∨ ∃ m, z = ⟨m, false⟩ ∧ Dbm.Square (n + 1) m

section

variable {n : Nat} {a b c : Dbm}

theorem nvars_eq (ha : Dbm.Square (n + 1) a) (f : Bool) : nvars ⟨a, f⟩ = n := by
  rw [nvars, ha.rows]
  rfl

theorem join_feasible (ha : Dbm.Square (n + 1) a) (hb : Dbm.Square (n + 1) b) :
    join ⟨a, false⟩ ⟨b, false⟩ = ⟨Dbm.combine a b Bnd.max, false⟩ := by
  simp [join, nvars_eq ha, nvars_eq hb]

theorem widen_feasible (ha : Dbm.Square (n + 1) a) (hb : Dbm.Square (n + 1) b) :
    widen ⟨a, false⟩ ⟨b, false⟩ = ⟨Dbm.combine a b Bnd.keep, false⟩ := by
  simp [widen, nvars_eq ha, nvars_eq hb]

theorem leq_feasible (ha : Dbm.Square (n + 1) a) (hb : Dbm.Square (n + 1) b) :
    leq ⟨a, false⟩ ⟨b, false⟩ = true ↔
      ∀ i < n + 1, ∀ j < n + 1, Bnd.le (a.entry i j) (b.entry i j) = true := by
  simp only [leq, nvars_eq ha, nvars_eq hb, ha.rows, Bool.false_eq_true, if_false, ne_eq,
    not_true_eq_false, decide_false, Bool.or_self, List.all_eq_true, List.mem_range]

@[simp] theorem join_bot_left (z : Zone) : join bot z = z := rfl

@[simp] theorem join_bot_right (m : Dbm) : join ⟨m, false⟩ bot = ⟨m, false⟩ := rfl

@[simp] theorem widen_bot_left (z : Zone) : widen bot z = z := rfl

@[simp] theorem widen_bot_right (m : Dbm) : widen ⟨m, false⟩ bot = ⟨m, false⟩ := rfl

@[simp] theorem bot_leq (z : Zone) : leq bot z = true := rfl

@[simp] theorem leq_bot (m : Dbm) : leq ⟨m, false⟩ bot = false := rfl

theorem combine_comm {f : Bnd → Bnd → Bnd} (hf : ∀ x y, f x y = f y x) (a b : Dbm) :
    Dbm.combine a b f = Dbm.combine b a f := by
  refine List.zipWith_comm_of_comm fun r q => ?_
  exact List.zipWith_comm_of_comm hf

theorem combine_assoc {f : Bnd → Bnd → Bnd} (hf : ∀ x y z, f (f x y) z = f x (f y z))
    (ha : Dbm.Square n a) (hb : Dbm.Square n b) (hc : Dbm.Square n c) :
    Dbm.combine (Dbm.combine a b f) c f = Dbm.combine a (Dbm.combine b c f) f := by
  refine Dbm.ext_entry ((ha.combine hb f).combine hc f) (ha.combine (hb.combine hc f) f) ?_
  intro i hi j hj
  rw [Dbm.entry_combine (ha.combine hb f) hc f hi hj, Dbm.entry_combine ha hb f hi hj,
    Dbm.entry_combine ha (hb.combine hc f) f hi hj, Dbm.entry_combine hb hc f hi hj, hf]

theorem combine_self {f : Bnd → Bnd → Bnd} (hf : ∀ x, f x x = x) (ha : Dbm.Square n a) :
    Dbm.combine a a f = a := by
  refine Dbm.ext_entry (ha.combine ha f) ha fun i hi j hj => ?_
  rw [Dbm.entry_combine ha ha f hi hj, hf]

end

variable {n : Nat} {a b c : Zone}

theorem Sized.join_comm (ha : Sized n a) (hb : Sized n b) : join a b = join b a := by
  rcases ha with rfl | ⟨a, rfl, ha⟩
  · rcases hb with rfl | ⟨b, rfl, hb⟩ <;> rfl
  · rcases hb with rfl | ⟨b, rfl, hb⟩
    · rfl
    · rw [join_feasible ha hb, join_feasible hb ha, combine_comm Bnd.max_comm]

theorem Sized.join_assoc (ha : Sized n a) (hb : Sized n b) (hc : Sized n c) :
    join (join a b) c = join a (join b c) := by
  rcases ha with rfl | ⟨a, rfl, ha⟩
  · rfl
  · rcases hb with rfl | ⟨b, rfl, hb⟩
    · rfl
    · rcases hc with rfl | ⟨c, rfl, hc⟩
      · rw [join_feasible ha hb, join_bot_right, join_bot_right, join_feasible ha hb]
      · rw [join_feasible ha hb, join_feasible hb hc, join_feasible (ha.combine hb _) hc,
          join_feasible ha (hb.combine hc _), combine_assoc Bnd.max_assoc ha hb hc]

theorem Sized.join_self (ha : Sized n a) : join a a = a := by
  rcases ha with rfl | ⟨a, rfl, ha⟩
  · rfl
  · rw [join_feasible ha ha, combine_self Bnd.max_self ha]

theorem Sized.leq_refl (ha : Sized n a) : leq a a = true := by
  rcases ha with rfl | ⟨a, rfl, ha⟩
  · rfl
  · exact (leq_feasible ha ha).mpr fun i _ j _ => Bnd.le_refl _

theorem Sized.leq_trans (ha : Sized n a) (hb : Sized n b) (hc : Sized n c) (hab : leq a b = true)
    (hbc : leq b c = true) : leq a c = true := by
  rcases ha with rfl | ⟨a, rfl, ha⟩
  · rfl
  · rcases hb with rfl | ⟨b, rfl, hb⟩
    · exact absurd hab (by simp)
    · rcases hc with rfl | ⟨c, rfl, hc⟩
      · exact absurd hbc (by simp)
      · rw [leq_feasible ha hb] at hab
        rw [leq_feasible hb hc] at hbc
        exact (leq_feasible ha hc).mpr fun i hi j hj => Bnd.le_trans (hab i hi j hj) (hbc i hi j hj)

theorem Sized.leq_antisymm (ha : Sized n a) (hb : Sized n b) (hab : leq a b = true)
    (hba : leq b a = true) : a = b := by
  rcases ha with rfl | ⟨a, rfl, ha⟩
  · rcases hb with rfl | ⟨b, rfl, hb⟩
    · rfl
    · exact absurd hba (by simp)
  · rcases hb with rfl | ⟨b, rfl, hb⟩
    · exact absurd hab (by simp)
    · rw [leq_feasible ha hb] at hab
      rw [leq_feasible hb ha] at hba
      rw [Dbm.ext_entry ha hb fun i hi j hj => Bnd.le_antisymm (hab i hi j hj) (hba i hi j hj)]

theorem Sized.leq_join (ha : Sized n a) (hb : Sized n b) : leq a (join a b) = true := by
  rcases ha with rfl | ⟨a, rfl, ha⟩
  · rfl
  · rcases hb with rfl | ⟨b, rfl, hb⟩
    · exact Sized.leq_refl (n := n) (.inr ⟨a, rfl, ha⟩)
    · rw [join_feasible ha hb, leq_feasible ha (ha.combine hb _)]
      intro i hi j hj
      rw [Dbm.entry_combine ha hb _ hi hj]
      exact Bnd.le_max_left _ _

theorem Sized.leq_widen (ha : Sized n a) (hb : Sized n b) :
    leq a (widen a b) = true ∧ leq b (widen a b) = true := by
  rcases ha with rfl | ⟨a, rfl, ha⟩
  · exact ⟨rfl, hb.leq_refl⟩
  · rcases hb with rfl | ⟨b, rfl, hb⟩
    · exact ⟨Sized.leq_refl (n := n) (.inr ⟨a, rfl, ha⟩), rfl⟩
    · rw [widen_feasible ha hb, leq_feasible ha (ha.combine hb _), leq_feasible hb (ha.combine hb _)]
      constructor <;> intro i hi j hj <;> rw [Dbm.entry_combine ha hb _ hi hj]
      · exact Bnd.le_keep_left _ _
      · exact Bnd.le_keep_right _ _

theorem Sized.widen (ha : Sized n a) (hb : Sized n b) : Sized n (widen a b) := by
  rcases ha with rfl | ⟨a, rfl, ha⟩
  · exact hb
  · rcases hb with rfl | ⟨b, rfl, hb⟩
    · exact .inr ⟨a, rfl, ha⟩
    · exact .inr ⟨_, widen_feasible ha hb, ha.combine hb _⟩

/-- How many more times widening can move a zone: once from bottom, then once for each finite bound. -/
def rank (n : Nat) (z : Zone) : Nat := if z.bottom then (n + 1) * (n + 1) + 1 else z.m.finite

theorem finite_le {k : Nat} : ∀ {m : Dbm}, (∀ r ∈ m, r.length = k) → m.finite ≤ m.length * k
  | [], _ => Nat.zero_le _
  | r :: m, h => by
    have ih := finite_le (m := m) fun q hq => h q (List.mem_cons_of_mem _ hq)
    have hr : r.countP Option.isSome ≤ k := by
      rw [← h r List.mem_cons_self]
      exact List.countP_le_length
    simp only [Dbm.finite, List.map_cons, List.sum_cons, List.length_cons, Nat.add_mul] at *
    omega

theorem Sized.rank_widen (ha : Sized n a) (hb : Sized n b) :
    Zone.widen a b = a ∨ rank n (Zone.widen a b) < rank n a := by
  rcases ha with rfl | ⟨a, rfl, ha⟩
  · rcases hb with rfl | ⟨b, rfl, hb⟩
    · exact .inl rfl
    · right
      have hle := finite_le hb.cols
      rw [hb.rows] at hle
      show b.finite < (n + 1) * (n + 1) + 1
      omega
  · rcases hb with rfl | ⟨b, rfl, hb⟩
    · exact .inl rfl
    · rw [widen_feasible ha hb]
      obtain ⟨hle, heq⟩ := Dbm.finite_keep (ha.rows.trans hb.rows.symm) ha.cols hb.cols
      rcases Nat.lt_or_eq_of_le hle with hlt | he
      · exact .inr hlt
      · exact .inl (by rw [heq he])

/-- The zones that go together: over the same variables, and infeasible only as the bottom without a
    matrix. -/
structure Uniform (Z : Set Zone) : Prop where
  bottoms : ∀ z ∈ Z, z.bottom = true → z = bot
  vars : ∀ a ∈ Z, ∀ b ∈ Z, a.bottom = false → b.bottom = false → a.nvars = b.nvars

theorem Uniform.sized {Z : Set Zone} (h : Uniform Z) (hZ : ∀ z ∈ Z, z.Shaped) :
    ∃ n, ∀ z ∈ Z, Sized n z := by
  by_cases hfeas : ∃ z ∈ Z, z.bottom = false
  · obtain ⟨w, hw, hwb⟩ := hfeas
    refine ⟨w.nvars, fun z hz => ?_⟩
    cases hzb : z.bottom with
    | true => exact .inl (h.bottoms z hz hzb)
    | false =>
      have hsq := hZ z hz hzb
      rw [h.vars z hz w hw hzb hwb] at hsq
      exact .inr ⟨z.m, by rw [← hzb], hsq⟩
  · refine ⟨0, fun z hz => .inl (h.bottoms z hz ?_)⟩
    cases hzb : z.bottom with
    | true => rfl
    | false => exact absurd ⟨z, hz, hzb⟩ hfeas

theorem Uniform.lawsOn {Z : Set Zone} (h : Uniform Z) (hZ : ∀ z ∈ Z, z.Shaped) : LawsOn Z := by
  obtain ⟨n, hn⟩ := h.sized hZ
  constructor
  · exact fun a ha b hb => (hn a ha).join_comm (hn b hb)
  · exact fun a ha b hb c hc => (hn a ha).join_assoc (hn b hb) (hn c hc)
  · exact fun a ha => (hn a ha).join_self
  · exact fun a ha => ⟨rfl, (hn a ha).join_comm (.inl rfl)⟩
  · exact fun a ha => (hn a ha).leq_refl
  · exact fun a ha b hb c hc => (hn a ha).leq_trans (hn b hb) (hn c hc)
  · exact fun a ha b hb => (hn a ha).leq_antisymm (hn b hb)
  · intro a ha b hb
    refine ⟨(hn a ha).leq_join (hn b hb), ?_⟩
    show leq b (join a b) = true
    rw [(hn a ha).join_comm (hn b hb)]
    exact (hn b hb).leq_join (hn a ha)
  · exact fun a ha b hb => (hn a ha).leq_widen (hn b hb)
  · intro x y hx hy hstep
    have hsized : ∀ k, Sized n (x k) := by
      intro k
      induction k with
      | zero => exact hn _ hx
      | succ k ih =>
        rw [hstep k]
        exact ih.widen (hn _ (hy k))
    refine @eventually_const_of_rank _ (rank n) _ x (Nat.le_refl _) fun k => ?_
    rw [hstep k]
    exact (hsized k).rank_widen (hn _ (hy k))

/-- The laws tell the zones that do not go together apart: an infeasible zone with a matrix is no
    identity, and two feasible zones over different variables are each the first one of their join. -/
theorem uniform_of_lawsOn {Z : Set Zone} (h : LawsOn Z) : Uniform Z where
  bottoms z hz hzb := by
    have hid := (h.join_bottom z hz).2
    have hjoin : join z bot = bot := by simp [join, hzb]
    exact hid.symm.trans hjoin
  vars a ha b hb hab hbb := by
    by_contra hne
    have hcomm : join a b = join b a := h.join_comm a ha b hb
    have hab' : join a b = a := by simp [join, hab, hne]
    have hba' : join b a = b := by simp [join, hbb, Ne.symm hne]
    rw [hab', hba'] at hcomm
    exact hne (by rw [hcomm])

end Zone

/-- **The laws of the domains.** Intervals and register environments keep them all, and a set of zones
    that the public operations build keeps them exactly if its feasible zones are over the same
    variables and its only infeasible one is the bottom without a matrix. -/
theorem domain_laws_iff (Z : Set Zone) (hZ : ∀ z ∈ Z, z.Producible) :
    LawsOn (Set.univ : Set Interval) ∧ LawsOn (Set.univ : Set IntervalState) ∧
      (LawsOn Z ↔ Zone.Uniform Z) := by
  refine ⟨LawfulDomain.lawsOn, LawfulDomain.lawsOn, Zone.uniform_of_lawsOn, fun h => ?_⟩
  exact h.lawsOn fun z hz => (hZ z hz).shaped

/-- One variable, unconstrained or nothing. -/
theorem domain_laws_one_variable : LawsOn {z | z = Zone.top 1 ∨ z = Zone.bot} := by
  refine (domain_laws_iff _ ?_).2.2.mpr ⟨?_, ?_⟩
  · rintro z (rfl | rfl)
    · exact .top 1
    · exact .bot
  · rintro z (rfl | rfl) hb
    · exact absurd hb (by decide)
    · rfl
  · rintro a (rfl | rfl) b (rfl | rfl) ha hb
    · rfl
    · exact absurd hb (by decide)
    · exact absurd ha (by decide)
    · exact absurd ha (by decide)

/-- `x ≤ -1` and `0 ≤ x`: infeasible, with a matrix. -/
def infeasibleZone : Zone :=
  ((Zone.top 1).addConstraint 1 0 ⟨-1, I128.negOne_lo, I128.negOne_hi⟩).addConstraint 0 1 ⟨0, I128.zero_lo, I128.zero_hi⟩

/-- It is below bottom and not bottom. -/
theorem zone_laws_fail : ¬LawsOn {z : Zone | z.Producible} := by
  intro h
  have hprod : infeasibleZone.Producible := .addConstraint _ _ _ (.addConstraint _ _ _ (.top 1))
  have heq := h.leq_antisymm infeasibleZone hprod Zone.bot .bot (by decide +kernel) (by decide +kernel)
  exact absurd heq (by decide +kernel)

end Csolver
