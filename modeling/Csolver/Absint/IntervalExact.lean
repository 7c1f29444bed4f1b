import Csolver.Absint.Zone

/-!
# Where interval arithmetic loses values

Arithmetic on intervals is right for the results that `i128` holds, but for two cases: the opposite of
`i128::MIN` saturates one short, and nothing is below `i128::MIN` although a decrement of it says so. A
result that `i128` does not hold saturates to an infinity, on both ends if every result is on that side, and
then the interval has no integer at all.
-/

namespace Csolver

/-- `i128` holds the integer. -/
def FitsI128 (z : Int) : Prop := -2 ^ 127 ≤ z ∧ z < 2 ^ 127

theorem FitsI128.exists_checked {z : Int} (h : FitsI128 z) : ∃ x : I128, I128.checked z = some x ∧ x.val = z :=
  ⟨⟨z, h.1, h.2⟩, dif_pos h, rfl⟩

namespace Interval

def isStrictlyBelow : Interval → I128 → Bool
  | bottom, _ => true
  | range _ hi, n => hi.le (.fin (I128.saturating (n.val - 1)))

def Inhabited (i : Interval) : Prop := ∃ z, Mem z i

/-- For a member of each operand: their exact result is a member of the result, if `i128` holds it, and the
result has some member if not. -/
def ResultOk (i j r : Interval) (f : Int → Int → Int) : Prop :=
  ∀ x y, FitsI128 x → FitsI128 y → Mem x i → Mem y j →
    (FitsI128 (f x y) → Mem (f x y) r) ∧ (¬ FitsI128 (f x y) → r.Inhabited)

/-- Arithmetic on two intervals, and the comparison of one with a constant. -/
structure ArithOk (i j : Interval) (c : I128) : Prop where
  add : ResultOk i j (i.add j) (· + ·)
  sub : ResultOk i j (i.sub j) (· - ·)
  neg : ResultOk i i i.neg fun x _ => -x
  mul : ResultOk i j (i.mul j) (· * ·)
  below : i.isStrictlyBelow c = true → ∀ z, Mem z i → z < c.val

/-- Some members have a result that `i128` holds, if there are members at all. -/
def SomeFits (i j : Interval) (f : Int → Int → Int) : Prop :=
  i.Inhabited → j.Inhabited →
    ∃ x y, (FitsI128 x ∧ Mem x i) ∧ (FitsI128 y ∧ Mem y j) ∧ FitsI128 (f x y)

/-- `saturating_neg` of a member. -/
def negSat (y : Int) : Int := min (-y) (2 ^ 127 - 1)

/-- The operands for which arithmetic is right. -/
structure InRange (i j : Interval) (c : I128) : Prop where
  sum : SomeFits i j (· + ·)
  diff : SomeFits i j fun x y => x + negSat y
  prod : SomeFits i j (· * ·)
  /-- `i128::MIN` is not the least of what is taken from negative numbers only. -/
  least : i.Inhabited → Mem (-2 ^ 127) j → (∀ y, Mem y j → -2 ^ 127 ≤ y) → ∃ x, Mem x i ∧ 0 ≤ x
  /-- `i128::MIN` is not compared with itself. -/
  greatest : c.val = -2 ^ 127 → Mem (-2 ^ 127) i → ∃ z, Mem z i ∧ -2 ^ 127 < z

end Interval

/-! ## Members -/

namespace Interval

variable {i j : Interval} {x y z : Int} {lo hi : Bound}

theorem Mem.between (hx : Mem x i) (hy : Mem y i) (hxz : x ≤ z) (hzy : z ≤ y) : Mem z i := by
  cases i with
  | bottom => exact hx
  | range lo hi => exact ⟨hx.1.mono hxz, hy.2.mono hzy⟩

theorem Inhabited.fits (h : i.Inhabited) : ∃ z, FitsI128 z ∧ Mem z i := by
  obtain ⟨z, hz⟩ := h
  cases i with
  | bottom => exact hz.elim
  | range lo hi =>
    cases lo with
    | posInf => exact hz.1.elim
    | fin p => exact ⟨p.val, ⟨p.lo, p.hi⟩, le_refl p.val, hz.2.mono hz.1⟩
    | negInf =>
      cases hi with
      | negInf => exact hz.2.elim
      | fin p => exact ⟨p.val, ⟨p.lo, p.hi⟩, trivial, le_refl p.val⟩
      | posInf => exact ⟨0, by unfold FitsI128; omega, trivial, trivial⟩

theorem mem_lower_end {p : I128} (h : Mem x (range (.fin p) hi)) : Mem p.val (range (.fin p) hi) :=
  ⟨le_refl p.val, h.2.mono h.1⟩

theorem mem_upper_end {p : I128} (h : Mem x (range lo (.fin p))) : Mem p.val (range lo (.fin p)) :=
  ⟨h.1.mono h.2, le_refl p.val⟩

theorem mem_negSat (h : Mem y i) : Mem (negSat y) i.neg := by
  cases i with
  | bottom => exact h.elim
  | range lo hi =>
    refine ⟨?_, ?_⟩
    · cases hi with
      | negInf => exact h.2.elim
      | posInf => trivial
      | fin p =>
        have hlt := p.saturatingNeg.hi
        have hle : p.saturatingNeg.val ≤ -y := Bound.below_neg (b := .fin p) h.2
        show p.saturatingNeg.val ≤ negSat y
        exact le_min hle (by omega)
    · cases lo with
      | posInf => exact h.1.elim
      | negInf => trivial
      | fin p =>
        have hp : p.val ≤ y := h.1
        show negSat y ≤ p.saturatingNeg.val
        by_cases hmin : p.val = -2 ^ 127
        · rw [I128.saturatingNeg, I128.checked, dif_neg (by omega)]
          exact min_le_right _ _
        · rw [Bound.saturatingNeg_val hmin]
          exact (min_le_left _ _).trans (by omega)

theorem Inhabited.neg (h : i.Inhabited) : i.neg.Inhabited := by
  obtain ⟨z, hz⟩ := h
  exact ⟨negSat z, mem_negSat hz⟩

/-! ## Sums -/

/-- Members whose sum is too large, and an end of the sum that is not: a sum in between is the largest `i128`. -/
theorem sum_of_large (hx : Mem x i) (hy : Mem y j) (hxf : FitsI128 x) (hyf : FitsI128 y)
    (hbig : 2 ^ 127 ≤ x + y) (h : (i.add j).Inhabited) :
    ∃ x y, (FitsI128 x ∧ Mem x i) ∧ (FitsI128 y ∧ Mem y j) ∧ FitsI128 (x + y) := by
  obtain ⟨z, hz⟩ := h
  -- members below the two, with a sum that is not too large
  obtain ⟨x', y', hx', hy', hxx, hyy, hsmall, hxl, hyl⟩ : ∃ x' y', Mem x' i ∧ Mem y' j ∧ x' ≤ x ∧ y' ≤ y ∧
      x' + y' < 2 ^ 127 ∧ -2 ^ 127 ≤ x' ∧ -2 ^ 127 ≤ y' := by
    unfold FitsI128 at hxf hyf
    cases i with
    | bottom => exact hx.elim
    | range a b =>
      cases j with
      | bottom => exact hy.elim
      | range c d =>
        have hlow : (a.add c).Below z := hz.1
        cases a with
        | posInf => exact hx.1.elim
        | negInf => exact ⟨-1, y, ⟨trivial, hx.2.mono (by omega)⟩, hy, by omega, le_refl y, by omega, by omega, by omega⟩
        | fin p =>
          cases c with
          | posInf => exact hy.1.elim
          | negInf => exact ⟨x, -1, hx, ⟨trivial, hy.2.mono (by omega)⟩, le_refl x, by omega, by omega, by omega, by omega⟩
          | fin q =>
            refine ⟨p.val, q.val, mem_lower_end hx, mem_lower_end hy, hx.1, hy.1, ?_, p.lo, q.lo⟩
            by_contra hpq
            have hp : ¬ p.val + q.val < 2 ^ 127 := hpq
            have hq := q.hi
            simp only [Bound.add] at hlow
            rw [I128.checked, dif_neg (by omega)] at hlow
            simp only [if_pos (show 0 < p.val by omega)] at hlow
            exact hlow
  unfold FitsI128 at *
  by_cases hmix : x' + y < 2 ^ 127
  · refine ⟨2 ^ 127 - 1 - y, y, ⟨by omega, hx'.between hx (by omega) (by omega)⟩, ⟨hyf, hy⟩, by omega⟩
  · refine ⟨x', 2 ^ 127 - 1 - x', ⟨by omega, hx'⟩, ⟨by omega, hy'.between hy (by omega) (by omega)⟩, by omega⟩

theorem sum_of_small (hx : Mem x i) (hy : Mem y j) (hxf : FitsI128 x) (hyf : FitsI128 y)
    (hbig : x + y < -2 ^ 127) (h : (i.add j).Inhabited) :
    ∃ x y, (FitsI128 x ∧ Mem x i) ∧ (FitsI128 y ∧ Mem y j) ∧ FitsI128 (x + y) := by
  obtain ⟨z, hz⟩ := h
  obtain ⟨x', y', hx', hy', hxx, hyy, hlarge, hxl, hyl⟩ : ∃ x' y', Mem x' i ∧ Mem y' j ∧ x ≤ x' ∧ y ≤ y' ∧
      -2 ^ 127 ≤ x' + y' ∧ x' < 2 ^ 127 ∧ y' < 2 ^ 127 := by
    unfold FitsI128 at hxf hyf
    cases i with
    | bottom => exact hx.elim
    | range a b =>
      cases j with
      | bottom => exact hy.elim
      | range c d =>
        have hhigh : (b.add d).Above z := hz.2
        cases b with
        | negInf => exact hx.2.elim
        | posInf => exact ⟨0, y, ⟨hx.1.mono (by omega), trivial⟩, hy, by omega, le_refl y, by omega, by omega, by omega⟩
        | fin p =>
          cases d with
          | negInf => exact hy.2.elim
          | posInf => exact ⟨x, 0, hx, ⟨hy.1.mono (by omega), trivial⟩, le_refl x, by omega, by omega, by omega, by omega⟩
          | fin q =>
            refine ⟨p.val, q.val, mem_upper_end hx, mem_upper_end hy, hx.2, hy.2, ?_, p.hi, q.hi⟩
            by_contra hpq
            have hq := q.lo
            have hp := p.lo
            simp only [Bound.add] at hhigh
            rw [I128.checked, dif_neg (by omega)] at hhigh
            simp only [if_neg (show ¬ 0 < p.val by omega)] at hhigh
            exact hhigh
  unfold FitsI128 at *
  by_cases hmix : -2 ^ 127 ≤ x' + y
  · refine ⟨-2 ^ 127 - y, y, ⟨by omega, hx.between hx' (by omega) (by omega)⟩, ⟨hyf, hy⟩, by omega⟩
  · refine ⟨x', -2 ^ 127 - x', ⟨by omega, hx'⟩, ⟨by omega, hy.between hy' (by omega) (by omega)⟩, by omega⟩

theorem add_inhabited (hi : i.Inhabited) (hj : j.Inhabited) :
    (i.add j).Inhabited ↔ SomeFits i j (· + ·) := by
  constructor
  · intro h _ _
    obtain ⟨x, hxf, hx⟩ := hi.fits
    obtain ⟨y, hyf, hy⟩ := hj.fits
    by_cases hlarge : 2 ^ 127 ≤ x + y
    · exact sum_of_large hx hy hxf hyf hlarge h
    · by_cases hsmall : x + y < -2 ^ 127
      · exact sum_of_small hx hy hxf hyf hsmall h
      · exact ⟨x, y, ⟨hxf, hx⟩, ⟨hyf, hy⟩, not_lt.mp hsmall, not_le.mp hlarge⟩
  · intro h
    obtain ⟨x, y, ⟨_, hx⟩, ⟨_, hy⟩, hfits⟩ := h hi hj
    exact ⟨x + y, mem_add hx hy hfits⟩

/-! ## Differences -/

theorem exists_negSat (hj : j.Inhabited) (hz : Mem z j.neg) (hlo : -2 ^ 127 < z) (hhi : z < 2 ^ 127) :
    ∃ y, (FitsI128 y ∧ Mem y j) ∧ negSat y = z := by
  unfold FitsI128 negSat
  cases j with
  | bottom => exact hz.elim
  | range c d =>
    have hc : c.Below (-z) := by
      cases c with
      | negInf => trivial
      | posInf => exact hz.2.elim
      | fin q =>
        have hq : z ≤ q.saturatingNeg.val := hz.2
        have hle := Bound.neg_val_le q
        show q.val ≤ -z
        omega
    by_cases hmin : d = .fin ⟨-2 ^ 127, I128.min_lo, I128.min_hi⟩
    · -- only `i128::MIN` itself is there, and its opposite saturates
      subst hmin
      have hz' : (2 ^ 127 - 1 : Int) ≤ z := hz.1
      obtain ⟨y, hy⟩ := hj
      exact ⟨-2 ^ 127, ⟨by omega, hy.1.mono hy.2, le_refl _⟩, by omega⟩
    · refine ⟨-z, ⟨by omega, hc, ?_⟩, by omega⟩
      cases d with
      | negInf => exact hz.1.elim
      | posInf => trivial
      | fin q =>
        have hq : q.saturatingNeg.val ≤ z := hz.1
        rw [Bound.saturatingNeg_val fun h => hmin (congrArg Bound.fin (I128.ext h))] at hq
        show -z ≤ q.val
        omega

theorem sub_inhabited (hi : i.Inhabited) (hj : j.Inhabited) :
    (i.sub j).Inhabited ↔ SomeFits i j fun x y => x + negSat y := by
  constructor
  · intro h _ _
    obtain ⟨x, z, ⟨hxf, hx⟩, ⟨hzf, hz⟩, hfits⟩ := (add_inhabited hi hj.neg).mp h hi hj.neg
    obtain ⟨w, hwf, hw⟩ := hj.fits
    have hsum : FitsI128 (x + z) := hfits
    unfold FitsI128 at *
    by_cases hmin : -2 ^ 127 < z
    · obtain ⟨y, hy, rfl⟩ := exists_negSat hj hz hmin hzf.2
      exact ⟨x, y, ⟨hxf, hx⟩, hy, hfits⟩
    · -- a member of `j` itself has an opposite that is larger
      have hnext : Mem (z + 1) j.neg := hz.between (mem_negSat hw) (by omega) (by unfold negSat; omega)
      obtain ⟨y, hy, hneg⟩ := exists_negSat hj hnext (by omega) (by omega)
      exact ⟨x, y, ⟨hxf, hx⟩, hy, by show -2 ^ 127 ≤ x + negSat y ∧ x + negSat y < 2 ^ 127; omega⟩
  · intro h
    obtain ⟨x, y, ⟨_, hx⟩, ⟨_, hy⟩, hfits⟩ := h hi hj
    exact ⟨x + negSat y, mem_add hx (mem_negSat hy) hfits⟩

theorem mem_sub_min (hx : Mem x i) (hy : Mem (-2 ^ 127) j) (hleast : (∀ y, Mem y j → -2 ^ 127 ≤ y) →
    ∃ x, Mem x i ∧ 0 ≤ x) (hfits : FitsI128 (x - -2 ^ 127)) : Mem (x - -2 ^ 127) (i.sub j) := by
  unfold FitsI128 at hfits
  cases i with
  | bottom => exact hx.elim
  | range a b =>
    cases j with
    | bottom => exact hy.elim
    | range c d =>
      refine ⟨?_, ?_⟩
      · rw [Int.sub_eq_add_neg]
        exact Bound.below_add hx.1 (Bound.below_neg hy.2) (by omega)
      · cases c with
        | posInf => exact hy.1.elim
        | negInf =>
          cases b with
          | negInf => exact hx.2.elim
          | fin p => trivial
          | posInf => trivial
        | fin q =>
          have hq : q.val ≤ -2 ^ 127 := hy.1
          obtain ⟨w, hw, hw0⟩ := hleast fun y hy' => le_trans q.lo hy'.1
          have hmax : (Bound.neg (.fin q)).Above (2 ^ 127 - 1) := by
            have hql := q.lo
            show (2 ^ 127 - 1 : Int) ≤ q.saturatingNeg.val
            rw [I128.saturatingNeg, I128.checked, dif_neg (by omega)]
            exact le_refl _
          have hzero : b.Above 0 := hw.2.mono hw0
          exact (Bound.above_add hzero hmax (by omega)).mono (by omega)

/-! ## Products -/

/-- A bound with all that lies beyond it of one sign. -/
def Signed (positive : Bool) : Bound → Prop
  | .posInf => positive = true
  | .negInf => positive = false
  | .fin p => if positive then 0 < p.val else p.val < 0

theorem signed_ends {a b : Bound} (h0 : ¬ Mem 0 (range a b)) (hx : Mem x (range a b)) :
    ∃ positive, Signed positive a ∧ Signed positive b := by
  rcases lt_trichotomy x 0 with hneg | rfl | hpos
  · refine ⟨false, ?_, ?_⟩
    · cases a with
      | posInf => exact hx.1.elim
      | negInf => rfl
      | fin p =>
        have hp : p.val ≤ x := hx.1
        exact lt_of_le_of_lt hp hneg
    · cases b with
      | posInf => exact absurd ⟨hx.1.mono (le_of_lt hneg), trivial⟩ h0
      | negInf => rfl
      | fin p =>
        refine not_le.mp fun hp => h0 ⟨hx.1.mono (le_of_lt hneg), hp⟩
  · exact absurd hx h0
  · refine ⟨true, ?_, ?_⟩
    · cases a with
      | posInf => rfl
      | negInf => exact absurd ⟨trivial, hx.2.mono (le_of_lt hpos)⟩ h0
      | fin p =>
        refine not_le.mp fun hp => h0 ⟨hp, hx.2.mono (le_of_lt hpos)⟩
    · cases b with
      | posInf => rfl
      | negInf => exact hx.2.elim
      | fin p =>
        have hp : x ≤ p.val := hx.2
        exact lt_of_lt_of_le hpos hp

theorem Signed.of_inf {s : Bool} {u : Bound} (h : Signed s u) (hinf : ∀ p, u ≠ .fin p) :
    u = if s then .posInf else .negInf := by
  cases u with
  | fin p => exact absurd rfl (hinf p)
  | posInf => obtain rfl : s = true := h; rfl
  | negInf => obtain rfl : s = false := h; rfl

theorem inf_mul_fin {s t : Bool} {q : I128} (hq : Signed t (.fin q)) :
    (if s then Bound.posInf else Bound.negInf).mul (.fin q) = if s = t then .posInf else .negInf := by
  cases t with
  | true =>
    have hpos : 0 < q.val := hq
    cases s <;> simp [Bound.mul, Bound.infMul, hpos, ne_of_gt hpos]
  | false =>
    have hneg : q.val < 0 := hq
    cases s <;> simp [Bound.mul, Bound.infMul, not_lt.mpr (le_of_lt hneg), ne_of_lt hneg]

theorem mul_far {u v : Bound} {s t : Bool} (hu : Signed s u) (hv : Signed t v)
    (hfar : ∀ p q, u = .fin p → v = .fin q → ¬ FitsI128 (p.val * q.val)) :
    u.mul v = if s = t then .posInf else .negInf := by
  by_cases hui : ∃ p, u = .fin p
  · obtain ⟨p, rfl⟩ := hui
    by_cases hvi : ∃ q, v = .fin q
    · obtain ⟨q, rfl⟩ := hvi
      have hnone : I128.checked (p.val * q.val) = none := dif_neg (hfar p q rfl rfl)
      simp only [Bound.mul, hnone]
      have hsign : ∀ {r : Bool} {p : I128}, Signed r (.fin p) → decide (0 < p.val) = r := by
        intro r p h
        cases r with
        | true => exact decide_eq_true h
        | false =>
          have hneg : p.val < 0 := h
          exact decide_eq_false (not_lt.mpr (le_of_lt hneg))
      rw [hsign hu, hsign hv]
    · rw [hv.of_inf fun q hq => hvi ⟨q, hq⟩, Bound.mul_comm, inf_mul_fin hu]
      simp only [eq_comm]
  · by_cases hvi : ∃ q, v = .fin q
    · obtain ⟨q, rfl⟩ := hvi
      rw [hu.of_inf fun p hp => hui ⟨p, hp⟩, inf_mul_fin hv]
    · rw [hu.of_inf fun p hp => hui ⟨p, hp⟩, hv.of_inf fun q hq => hvi ⟨q, hq⟩]
      cases s <;> cases t <;> rfl

theorem mul_inhabited (hi : i.Inhabited) (hj : j.Inhabited) :
    (i.mul j).Inhabited ↔ SomeFits i j (· * ·) := by
  constructor
  · intro h _ _
    obtain ⟨x, hxf, hx⟩ := hi.fits
    obtain ⟨y, hyf, hy⟩ := hj.fits
    by_contra hno
    have hfar : ∀ x y, FitsI128 x → FitsI128 y → Mem x i → Mem y j → ¬ FitsI128 (x * y) :=
      fun x y hxf hyf hx hy hfits => hno ⟨x, y, ⟨hxf, hx⟩, ⟨hyf, hy⟩, hfits⟩
    have hzero : FitsI128 0 := by unfold FitsI128; omega
    have hi0 : ¬ Mem 0 i := fun h0 => hfar 0 y hzero hyf h0 hy (by rwa [Int.zero_mul])
    have hj0 : ¬ Mem 0 j := fun h0 => hfar x 0 hxf hzero hx h0 (by rwa [Int.mul_zero])
    cases i with
    | bottom => exact hx
    | range a b =>
      cases j with
      | bottom => exact hy
      | range c d =>
        obtain ⟨s, ha, hb⟩ := signed_ends hi0 hx
        obtain ⟨t, hc, hd⟩ := signed_ends hj0 hy
        -- the finite ends are members, so no corner fits either
        have hends : ∀ u v, (u = a ∨ u = b) → (v = c ∨ v = d) → u.mul v = if s = t then .posInf else .negInf := by
          intro u v hu hv
          have hsu : Signed s u := by rcases hu with rfl | rfl <;> assumption
          have hsv : Signed t v := by rcases hv with rfl | rfl <;> assumption
          refine mul_far hsu hsv fun p q hp hq => hfar _ _ ⟨p.lo, p.hi⟩ ⟨q.lo, q.hi⟩ ?_ ?_
          · rcases hu with rfl | rfl <;> subst hp
            · exact mem_lower_end hx
            · exact mem_upper_end hx
          · rcases hv with rfl | rfl <;> subst hq
            · exact mem_lower_end hy
            · exact mem_upper_end hy
        obtain ⟨z, hz⟩ := h
        rw [mul, hends a c (.inl rfl) (.inl rfl), hends a d (.inl rfl) (.inr rfl), hends b c (.inr rfl) (.inl rfl),
          hends b d (.inr rfl) (.inr rfl)] at hz
        by_cases hst : s = t
        · simp only [if_pos hst, Bound.min_self, Bound.max_self] at hz
          exact hz.1
        · simp only [if_neg hst, Bound.min_self, Bound.max_self] at hz
          exact hz.2
  · intro h
    obtain ⟨x, y, ⟨_, hx⟩, ⟨_, hy⟩, hfits⟩ := h hi hj
    exact ⟨x * y, mem_mul hx hy hfits⟩

/-! ## Arithmetic -/

/-- The upper end of negative numbers less `i128::MIN`, of which nothing in `j` is less. -/
theorem exists_of_sub (hi : i.Inhabited) (hmin : Mem (-2 ^ 127) j) (hleast : ∀ y, Mem y j → -2 ^ 127 ≤ y)
    (h : ∀ x, FitsI128 x → Mem x i → FitsI128 (x - -2 ^ 127) → Mem (x - -2 ^ 127) (i.sub j)) :
    ∃ x, Mem x i ∧ 0 ≤ x := by
  by_contra hneg
  have hall : ∀ x, Mem x i → x < 0 := fun x hx => not_le.mp fun h0 => hneg ⟨x, hx, h0⟩
  obtain ⟨x, hx⟩ := hi
  cases i with
  | bottom => exact hx
  | range a b =>
    cases j with
    | bottom => exact hmin
    | range c d =>
      obtain ⟨p, rfl⟩ : ∃ p, b = .fin p := by
        cases b with
        | negInf => exact hx.2.elim
        | fin p => exact ⟨p, rfl⟩
        | posInf => exact absurd (hall _ ⟨hx.1.mono (le_max_left x 0), trivial⟩) (by omega)
      obtain ⟨q, rfl, hq⟩ : ∃ q, c = .fin q ∧ q.val = -2 ^ 127 := by
        cases c with
        | posInf => exact hmin.1.elim
        | negInf => exact absurd (hleast (-2 ^ 127 - 1) ⟨trivial, hmin.2.mono (by omega)⟩) (by omega)
        | fin q =>
          have hle : q.val ≤ -2 ^ 127 := hmin.1
          exact ⟨q, rfl, le_antisymm hle q.lo⟩
      have hp := hall p.val (mem_upper_end hx)
      have hplo := p.lo
      have hfits : FitsI128 (p.val - -2 ^ 127) := by
        unfold FitsI128
        omega
      have hmax : q.saturatingNeg.val = 2 ^ 127 - 1 := by
        rw [I128.saturatingNeg, I128.checked, dif_neg (by omega)]
        rfl
      have habove : ((Bound.fin p).add (Bound.fin q.saturatingNeg)).Above (p.val - -2 ^ 127) :=
        (h p.val ⟨p.lo, p.hi⟩ (mem_upper_end hx) hfits).2
      simp only [Bound.add, I128.checked, hmax] at habove
      rw [dif_pos (by omega)] at habove
      have hle : p.val - -2 ^ 127 ≤ p.val + (2 ^ 127 - 1) := habove
      omega

theorem isStrictlyBelow_exact (i : Interval) (c : I128) : (i.isStrictlyBelow c = true → ∀ z, Mem z i → z < c.val) ↔
    (c.val = -2 ^ 127 → Mem (-2 ^ 127) i → ∃ z, Mem z i ∧ -2 ^ 127 < z) := by
  cases i with
  | bottom => exact ⟨fun _ _ h => h.elim, fun _ _ _ h => h.elim⟩
  | range a b =>
    have hc := c.lo
    have hchi := c.hi
    constructor
    · intro h hmin hmem
      by_contra hno
      have hle : ∀ z, Mem z (range a b) → z ≤ -2 ^ 127 := fun z hz => not_lt.mp fun hlt => hno ⟨z, hz, hlt⟩
      have hbelow : isStrictlyBelow (range a b) c = true := by
        cases b with
        | negInf => rfl
        | posInf => exact absurd (hle 0 ⟨hmem.1.mono (by omega), trivial⟩) (by omega)
        | fin p =>
          have hp := hle p.val (mem_upper_end hmem)
          rw [isStrictlyBelow, Bound.fin_le, hmin]
          exact hp
      have hlt := h hbelow _ hmem
      omega
    · intro h hbelow z hz
      have hle : ∀ w, Mem w (range a b) → w ≤ (I128.saturating (c.val - 1)).val := fun w hw => hw.2.of_le hbelow
      by_cases hmin : c.val = -2 ^ 127
      · -- the decrement stays where it is
        rw [hmin] at hle ⊢
        have hle' : ∀ w, Mem w (range a b) → w ≤ -2 ^ 127 := hle
        refine lt_of_le_of_ne (hle' z hz) fun heq => ?_
        obtain ⟨w, hw, hlt⟩ := h hmin (heq ▸ hz)
        exact absurd (hle' w hw) (not_le.mpr hlt)
      · have hz' := hle z hz
        rw [I128.saturating, I128.checked, dif_pos (by omega)] at hz'
        have hsub : z ≤ c.val - 1 := hz'
        omega

theorem ResultOk.inhabited {r : Interval} {f : Int → Int → Int} (h : ResultOk i j r f) (hi : i.Inhabited)
    (hj : j.Inhabited) : r.Inhabited := by
  obtain ⟨x, hxf, hx⟩ := hi.fits
  obtain ⟨y, hyf, hy⟩ := hj.fits
  by_cases hfits : FitsI128 (f x y)
  · exact ⟨_, (h x y hxf hyf hx hy).1 hfits⟩
  · exact (h x y hxf hyf hx hy).2 hfits

/-- Arithmetic on two intervals is right for exactly the operands in range. -/
theorem arith_exact (i j : Interval) (c : I128) : ArithOk i j c ↔ InRange i j c := by
  constructor
  · intro h
    refine ⟨fun hi hj => ?_, fun hi hj => ?_, fun hi hj => ?_, fun hi hmin hleast => ?_, ?_⟩
    · exact (add_inhabited hi hj).mp (h.add.inhabited hi hj) hi hj
    · exact (sub_inhabited hi hj).mp (h.sub.inhabited hi hj) hi hj
    · exact (mul_inhabited hi hj).mp (h.mul.inhabited hi hj) hi hj
    · refine exists_of_sub hi hmin hleast fun x hxf hx hfits => ?_
      exact (h.sub x (-2 ^ 127) hxf (by unfold FitsI128; omega) hx hmin).1 hfits
    · exact (isStrictlyBelow_exact i c).mp h.below
  · intro h
    refine ⟨?_, ?_, ?_, ?_, (isStrictlyBelow_exact i c).mpr h.greatest⟩
    · intro x y _ _ hx hy
      exact ⟨mem_add hx hy, fun _ => (add_inhabited ⟨x, hx⟩ ⟨y, hy⟩).mpr h.sum⟩
    · intro x y _ hyf hx hy
      refine ⟨fun hfits => ?_, fun _ => (sub_inhabited ⟨x, hx⟩ ⟨y, hy⟩).mpr h.diff⟩
      by_cases hmin : y = -2 ^ 127
      · subst hmin
        exact mem_sub_min hx hy (h.least ⟨x, hx⟩ hy) hfits
      · exact mem_sub hx hy (lt_of_le_of_ne hyf.1 (Ne.symm hmin)) hfits
    · intro x _ _ _ hx _
      refine ⟨fun hfits => ?_, fun _ => Inhabited.neg ⟨x, hx⟩⟩
      have hneg : FitsI128 (-x) := hfits
      have hmem := mem_negSat hx
      unfold FitsI128 at hneg
      rwa [negSat, min_eq_left (by omega)] at hmem
    · intro x y _ _ hx hy
      exact ⟨mem_mul hx hy, fun _ => (mul_inhabited ⟨x, hx⟩ ⟨y, hy⟩).mpr h.prod⟩

/-- Nothing is subtracted from `-1` but `i128::MIN`. -/
theorem arith_fails : ¬ ∀ i j c, ArithOk i j c := by
  intro h
  have hok := h (singleton ⟨-1, I128.negOne_lo, I128.negOne_hi⟩) (singleton ⟨-2 ^ 127, I128.min_lo, I128.min_hi⟩) ⟨0, I128.zero_lo, I128.zero_hi⟩
  obtain ⟨w, hw, hw0⟩ := ((arith_exact _ _ _).mp hok).least ⟨-1, mem_singleton _⟩ (mem_singleton _) fun y hy => hy.1
  have hle : w ≤ -1 := hw.2
  omega

end Interval

end Csolver
