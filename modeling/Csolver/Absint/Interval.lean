import Csolver.Core.Checked
import Csolver.Absint.Engine
import Mathlib.Tactic.Linarith
import Mathlib.Tactic.Ring

/-!
# Intervals over the integers (`crates/absint/src/interval.rs`)

Bounds are `i128` with two infinities, and arithmetic that leaves `i128` saturates to an infinity of
its sign. That is no over-approximation by itself (a lower bound may saturate to `+∞`), but whatever
is in the operands and has a result within `i128` is in the result.
-/

namespace Csolver

/-- A value of type `i128`. -/
@[ext] structure I128 where
  val : Int
  lo : -2 ^ 127 ≤ val
  hi : val < 2 ^ 127
  deriving DecidableEq

namespace I128

-- The bounds of the values that the operations write out.
theorem zero_lo : -2 ^ 127 ≤ (0 : Int) := by decide

theorem zero_hi : (0 : Int) < 2 ^ 127 := by decide

theorem one_lo : -2 ^ 127 ≤ (1 : Int) := by decide

theorem one_hi : (1 : Int) < 2 ^ 127 := by decide

theorem negOne_lo : -2 ^ 127 ≤ (-1 : Int) := by decide

theorem negOne_hi : (-1 : Int) < 2 ^ 127 := by decide

theorem min_lo : (-2 ^ 127 : Int) ≤ -2 ^ 127 := by decide

theorem min_hi : (-2 ^ 127 : Int) < 2 ^ 127 := by decide

theorem max_lo : (-2 ^ 127 : Int) ≤ 2 ^ 127 - 1 := by decide

theorem max_hi : (2 ^ 127 - 1 : Int) < 2 ^ 127 := by decide

end I128

/-- `i128::checked_*` of an exact result. -/
def I128.checked (z : Int) : Option I128 :=
  if h : -2 ^ 127 ≤ z ∧ z < 2 ^ 127 then some ⟨z, h.1, h.2⟩ else none

def I128.saturatingNeg (x : I128) : I128 := (I128.checked (-x.val)).getD ⟨2 ^ 127 - 1, I128.max_lo, I128.max_hi⟩

/-- An interval endpoint. -/
inductive Bound where
  | negInf
  | fin (z : I128)
  | posInf
  deriving DecidableEq

namespace Bound

def min : Bound → Bound → Bound
  | negInf, _ | _, negInf => negInf
  | posInf, x => x
  | x, posInf => x
  | fin x, fin y => fin (if x.val ≤ y.val then x else y)

def max : Bound → Bound → Bound
  | posInf, _ | _, posInf => posInf
  | negInf, x => x
  | x, negInf => x
  | fin x, fin y => fin (if x.val ≤ y.val then y else x)

/-- `Bound::le`, `bound_le`. -/
def le : Bound → Bound → Bool
  | negInf, _ => true
  | _, posInf => true
  | _, negInf => false
  | posInf, _ => false
  | fin x, fin y => decide (x.val ≤ y.val)

/-- `bound_lt`. -/
def lt (x y : Bound) : Bool := le x y && !le y x

def add : Bound → Bound → Bound
  | negInf, posInf | posInf, negInf => fin ⟨0, I128.zero_lo, I128.zero_hi⟩
  | negInf, _ | _, negInf => negInf
  | posInf, _ | _, posInf => posInf
  | fin x, fin y =>
    match I128.checked (x.val + y.val) with
    | some v => fin v
    | none => if 0 < x.val then posInf else negInf

def neg : Bound → Bound
  | negInf => posInf
  | posInf => negInf
  | fin x => fin x.saturatingNeg

/-- The product of an infinite bound of sign `pos` with a finite one. -/
def infMul (pos : Bool) (k : Int) : Bound :=
  if 0 < k then (if pos then posInf else negInf) else if pos then negInf else posInf

def mul : Bound → Bound → Bound
  | fin x, fin y =>
    match I128.checked (x.val * y.val) with
    | some v => fin v
    | none => if decide (0 < x.val) = decide (0 < y.val) then posInf else negInf
  | posInf, fin k | fin k, posInf => if k.val = 0 then fin k else infMul true k.val
  | negInf, fin k | fin k, negInf => if k.val = 0 then fin k else infMul false k.val
  | posInf, posInf | negInf, negInf => posInf
  | posInf, negInf | negInf, posInf => negInf

end Bound

/-- An interval lattice element. -/
inductive Interval where
  | bottom
  | range (lo hi : Bound)
  deriving DecidableEq

namespace Interval

def top : Interval := range .negInf .posInf

def singleton (n : I128) : Interval := range (.fin n) (.fin n)

/-- `Interval::range`, which normalizes an empty range. -/
def ofRange (lo hi : I128) : Interval :=
  if lo.val ≤ hi.val then range (.fin lo) (.fin hi) else bottom

def meet : Interval → Interval → Interval
  | bottom, _ | _, bottom => bottom
  | range l₁ h₁, range l₂ h₂ =>
    if (l₁.max l₂).le (h₁.min h₂) then range (l₁.max l₂) (h₁.min h₂) else bottom

def lower : Interval → Option Bound
  | range lo _ => some lo
  | bottom => none

def upper : Interval → Option Bound
  | range _ hi => some hi
  | bottom => none

/-- The half-line below the maximum, strictly below it when `strict`. -/
def asUpperConstraint (i : Interval) (strict : Bool) : Interval :=
  match i.upper with
  | some hi => range .negInf (if strict then hi.add (.fin ⟨-1, I128.negOne_lo, I128.negOne_hi⟩) else hi)
  | none => bottom

def asLowerConstraint (i : Interval) (strict : Bool) : Interval :=
  match i.lower with
  | some lo => range (if strict then lo.add (.fin ⟨1, I128.one_lo, I128.one_hi⟩) else lo) .posInf
  | none => bottom

def add : Interval → Interval → Interval
  | bottom, _ | _, bottom => bottom
  | range a b, range c d => range (a.add c) (b.add d)

def neg : Interval → Interval
  | bottom => bottom
  | range a b => range b.neg a.neg

def sub (i j : Interval) : Interval := i.add j.neg

def mul : Interval → Interval → Interval
  | bottom, _ | _, bottom => bottom
  | range a b, range c d =>
    range (((a.mul c).min (a.mul d)).min (b.mul c) |>.min (b.mul d))
      (((a.mul c).max (a.mul d)).max (b.mul c) |>.max (b.mul d))

def join : Interval → Interval → Interval
  | bottom, x => x
  | x, bottom => x
  | range a b, range c d => range (a.min c) (b.max d)

def widen : Interval → Interval → Interval
  | bottom, x => x
  | x, bottom => x
  | range a b, range c d =>
    range (if a.le c then a else .negInf) (if d.le b then b else .posInf)

def leq : Interval → Interval → Bool
  | bottom, _ => true
  | _, bottom => false
  | range a b, range c d => c.le a && b.le d

end Interval

/-! ## The order of the bounds -/

namespace Bound

@[simp] theorem le_refl (a : Bound) : a.le a = true := by
  cases a <;> simp [le]

theorem le_trans {a b c : Bound} (hab : a.le b = true) (hbc : b.le c = true) : a.le c = true := by
  cases a <;> cases b <;> cases c <;> simp_all [le]
  omega

theorem le_antisymm {a b : Bound} (hab : a.le b = true) (hba : b.le a = true) : a = b := by
  cases a <;> cases b <;> simp_all [le]
  exact I128.ext (by omega)

theorem le_total (a b : Bound) : a.le b = true ∨ b.le a = true := by
  cases a <;> cases b <;> simp [le]
  omega

@[simp] theorem negInf_le (a : Bound) : negInf.le a = true := by cases a <;> rfl

@[simp] theorem le_posInf (a : Bound) : a.le posInf = true := by cases a <;> rfl

@[simp] theorem fin_le {x y : I128} : le (fin x) (fin y) = true ↔ x.val ≤ y.val := by simp [le]

@[simp] theorem posInf_le_fin (y : I128) : le posInf (fin y) = false := rfl

@[simp] theorem fin_le_negInf (x : I128) : le (fin x) negInf = false := rfl

theorem min_eq (a b : Bound) : a.min b = if a.le b then a else b := by
  cases a <;> cases b <;> simp [min, le]
  split_ifs <;> rfl

theorem max_eq (a b : Bound) : a.max b = if a.le b then b else a := by
  cases a <;> cases b <;> simp [max, le]
  split_ifs <;> rfl

theorem min_le_left (a b : Bound) : (a.min b).le a = true := by
  rw [min_eq]
  split_ifs with h
  · exact le_refl a
  · exact (le_total a b).resolve_left h

theorem min_le_right (a b : Bound) : (a.min b).le b = true := by
  rw [min_eq]
  split_ifs with h
  · exact h
  · exact le_refl b

theorem le_max_left (a b : Bound) : a.le (a.max b) = true := by
  rw [max_eq]
  split_ifs with h
  · exact h
  · exact le_refl a

theorem le_max_right (a b : Bound) : b.le (a.max b) = true := by
  rw [max_eq]
  split_ifs with h
  · exact le_refl b
  · exact (le_total a b).resolve_left h

theorem le_min {a b c : Bound} (ha : c.le a = true) (hb : c.le b = true) :
    c.le (a.min b) = true := by
  rw [min_eq]
  split_ifs
  · exact ha
  · exact hb

theorem max_le {a b c : Bound} (ha : a.le c = true) (hb : b.le c = true) :
    (a.max b).le c = true := by
  rw [max_eq]
  split_ifs
  · exact hb
  · exact ha

theorem min_comm (a b : Bound) : a.min b = b.min a :=
  le_antisymm (le_min (min_le_right a b) (min_le_left a b))
    (le_min (min_le_right b a) (min_le_left b a))

theorem max_comm (a b : Bound) : a.max b = b.max a :=
  le_antisymm (max_le (le_max_right b a) (le_max_left b a))
    (max_le (le_max_right a b) (le_max_left a b))

theorem min_assoc (a b c : Bound) : (a.min b).min c = a.min (b.min c) :=
  le_antisymm
    (le_min (le_trans (min_le_left _ c) (min_le_left a b))
      (le_min (le_trans (min_le_left _ c) (min_le_right a b)) (min_le_right _ c)))
    (le_min (le_min (min_le_left a _) (le_trans (min_le_right a _) (min_le_left b c)))
      (le_trans (min_le_right a _) (min_le_right b c)))

theorem max_assoc (a b c : Bound) : (a.max b).max c = a.max (b.max c) :=
  le_antisymm
    (max_le (max_le (le_max_left a _) (le_trans (le_max_left b c) (le_max_right a _)))
      (le_trans (le_max_right b c) (le_max_right a _)))
    (max_le (le_trans (le_max_left a b) (le_max_left _ c))
      (max_le (le_trans (le_max_right a b) (le_max_left _ c)) (le_max_right _ c)))

@[simp] theorem min_self (a : Bound) : a.min a = a := by
  rw [min_eq]
  split_ifs <;> rfl

@[simp] theorem max_self (a : Bound) : a.max a = a := by
  rw [max_eq]
  split_ifs <;> rfl

theorem lt_iff {a b : Bound} : a.lt b = true ↔ b.le a = false := by
  rw [lt, Bool.and_eq_true, Bool.not_eq_true']
  constructor
  · exact fun h => h.2
  · intro h
    refine ⟨(le_total a b).resolve_right ?_, h⟩
    rw [h]
    exact Bool.false_ne_true

end Bound

/-! ## The lattice -/

namespace Interval

theorem leq_iff {i j : Interval} : i.leq j = true ↔ match i, j with
    | bottom, _ => True
    | range _ _, bottom => False
    | range a b, range c d => c.le a = true ∧ b.le d = true := by
  cases i <;> cases j <;> simp [leq]

theorem leq_refl (i : Interval) : i.leq i = true := by
  cases i <;> simp [leq]

theorem leq_trans {i j k : Interval} (hij : i.leq j = true) (hjk : j.leq k = true) :
    i.leq k = true := by
  rw [leq_iff] at hij hjk ⊢
  cases i with
  | bottom => trivial
  | range a b =>
    cases j with
    | bottom => exact hij.elim
    | range c d =>
      cases k with
      | bottom => exact hjk.elim
      | range e f => exact ⟨Bound.le_trans hjk.1 hij.1, Bound.le_trans hij.2 hjk.2⟩

theorem leq_antisymm {i j : Interval} (hij : i.leq j = true) (hji : j.leq i = true) : i = j := by
  rw [leq_iff] at hij hji
  cases i with
  | bottom =>
    cases j with
    | bottom => rfl
    | range c d => exact hji.elim
  | range a b =>
    cases j with
    | bottom => exact hij.elim
    | range c d => rw [Bound.le_antisymm hij.1 hji.1, Bound.le_antisymm hij.2 hji.2]

theorem leq_top (i : Interval) : i.leq top = true := by
  cases i <;> simp [leq, top]

theorem eq_top_of_leq {i : Interval} (h : top.leq i = true) : i = top :=
  leq_antisymm (leq_top i) h

theorem join_comm (i j : Interval) : i.join j = j.join i := by
  cases i <;> cases j <;> simp [join, Bound.min_comm, Bound.max_comm]

theorem join_assoc (i j k : Interval) : (i.join j).join k = i.join (j.join k) := by
  cases i <;> cases j <;> cases k <;> simp [join, Bound.min_assoc, Bound.max_assoc]

theorem join_self (i : Interval) : i.join i = i := by
  cases i <;> simp [join]

theorem leq_join (i j : Interval) : i.leq (i.join j) = true := by
  cases i with
  | bottom => rfl
  | range a b =>
    cases j with
    | bottom => exact leq_refl _
    | range c d => exact leq_iff.mpr ⟨Bound.min_le_left a c, Bound.le_max_left b d⟩

@[simp] theorem bottom_join (i : Interval) : bottom.join i = i := by cases i <;> rfl

@[simp] theorem join_top : top.join top = top := rfl

@[simp] theorem widen_top : top.widen top = top := rfl

theorem leq_widen_left (i j : Interval) : i.leq (i.widen j) = true := by
  cases i with
  | bottom => rfl
  | range a b =>
    cases j with
    | bottom => exact leq_refl _
    | range c d =>
      refine leq_iff.mpr ⟨?_, ?_⟩
      · split_ifs <;> simp
      · split_ifs <;> simp

theorem leq_widen_right (i j : Interval) : j.leq (i.widen j) = true := by
  cases i with
  | bottom => cases j <;> exact leq_refl _
  | range a b =>
    cases j with
    | bottom => rfl
    | range c d =>
      refine leq_iff.mpr ⟨?_, ?_⟩
      · split_ifs with h
        · exact h
        · simp
      · split_ifs with h
        · exact h
        · simp

/-- How many more times widening can move an interval. -/
def slack : Interval → Nat
  | bottom => 3
  | range a b => (if a = .negInf then 0 else 1) + (if b = .posInf then 0 else 1)

theorem slack_widen {i j : Interval} (h : i.widen j ≠ i) : (i.widen j).slack < i.slack := by
  cases i with
  | bottom =>
    cases j with
    | bottom => exact absurd rfl h
    | range c d =>
      simp only [widen, slack]
      split_ifs <;> omega
  | range a b =>
    cases j with
    | bottom => exact absurd rfl h
    | range c d =>
      simp only [widen, slack] at h ⊢
      by_cases ha : a.le c = true
      · by_cases hb : d.le b = true
        · simp [ha, hb] at h
        · have hne : b ≠ .posInf := by
            rintro rfl
            simp at hb
          simp [ha, hb, hne]
      · have hne : a ≠ .negInf := by
          rintro rfl
          simp at ha
        by_cases hb : d.le b = true
        · simp [ha, hb, hne]
        · have hne' : b ≠ .posInf := by
            rintro rfl
            simp at hb
          simp [ha, hb, hne, hne']

end Interval

/-! ## The integers of an interval -/

namespace Bound

/-- `z` is not below the bound. -/
def Below : Bound → Int → Prop
  | negInf, _ => True
  | fin x, z => x.val ≤ z
  | posInf, _ => False

/-- `z` is not above the bound. -/
def Above : Bound → Int → Prop
  | negInf, _ => False
  | fin x, z => z ≤ x.val
  | posInf, _ => True

variable {a b c d : Bound} {x y z : Int}

theorem Below.mono (h : a.Below x) (hxy : x ≤ y) : a.Below y := by
  cases a with
  | negInf => trivial
  | fin p => exact Int.le_trans h hxy
  | posInf => exact h

theorem Above.mono (h : a.Above x) (hyx : y ≤ x) : a.Above y := by
  cases a with
  | negInf => exact h
  | fin p => exact Int.le_trans hyx h
  | posInf => trivial

theorem Below.of_le (h : a.Below x) (hba : b.le a = true) : b.Below x := by
  cases a <;> cases b <;> simp_all [le, Below]
  omega

theorem Above.of_le (h : a.Above x) (hab : a.le b = true) : b.Above x := by
  cases a <;> cases b <;> simp_all [le, Above]
  omega

theorem below_min (h : a.Below z ∨ b.Below z) : (a.min b).Below z := by
  rcases h with h | h
  · exact h.of_le (min_le_left a b)
  · exact h.of_le (min_le_right a b)

theorem above_max (h : a.Above z ∨ b.Above z) : (a.max b).Above z := by
  rcases h with h | h
  · exact h.of_le (le_max_left a b)
  · exact h.of_le (le_max_right a b)

theorem eq_of_checked {v : I128} (h : I128.checked z = some v) : v.val = z := by
  simp only [I128.checked] at h
  split_ifs at h
  rw [← Option.some.inj h]

theorem not_range_of_checked (h : I128.checked z = none) : z < -2 ^ 127 ∨ 2 ^ 127 ≤ z := by
  simp only [I128.checked] at h
  split_ifs at h with hr
  omega

theorem below_add (ha : a.Below x) (hc : c.Below y) (hz : x + y < 2 ^ 127) :
    (a.add c).Below (x + y) := by
  cases a with
  | posInf => exact ha.elim
  | negInf =>
    cases c with
    | posInf => exact hc.elim
    | _ => trivial
  | fin p =>
    cases c with
    | posInf => exact hc.elim
    | negInf => trivial
    | fin q =>
      have hp : p.val ≤ x := ha
      have hq : q.val ≤ y := hc
      simp only [add]
      cases hv : I128.checked (p.val + q.val) with
      | some v =>
        show v.val ≤ x + y
        rw [eq_of_checked hv]
        omega
      | none =>
        have hr := not_range_of_checked hv
        have hlo := q.lo
        rw [if_neg (by omega)]
        trivial

theorem above_add (hb : b.Above x) (hd : d.Above y) (hz : -2 ^ 127 ≤ x + y) :
    (b.add d).Above (x + y) := by
  cases b with
  | negInf => exact hb.elim
  | posInf =>
    cases d with
    | negInf => exact hd.elim
    | _ => trivial
  | fin p =>
    cases d with
    | negInf => exact hd.elim
    | posInf => trivial
    | fin q =>
      have hp : x ≤ p.val := hb
      have hq : y ≤ q.val := hd
      simp only [add]
      cases hv : I128.checked (p.val + q.val) with
      | some v =>
        show x + y ≤ v.val
        rw [eq_of_checked hv]
        omega
      | none =>
        have hr := not_range_of_checked hv
        have hhi := q.hi
        rw [if_pos (by omega)]
        trivial

theorem saturatingNeg_val {p : I128} (h : p.val ≠ -2 ^ 127) : p.saturatingNeg.val = -p.val := by
  have hlo := p.lo
  have hhi := p.hi
  rw [I128.saturatingNeg, I128.checked, dif_pos (by omega)]
  rfl

theorem neg_val_le (p : I128) : p.saturatingNeg.val ≤ -p.val := by
  by_cases h : p.val = -2 ^ 127
  · rw [I128.saturatingNeg, I128.checked, dif_neg (by omega), h]
    decide
  · rw [saturatingNeg_val h]

theorem below_neg (h : b.Above x) : b.neg.Below (-x) := by
  cases b with
  | negInf => exact h.elim
  | posInf => trivial
  | fin p =>
    have hp : x ≤ p.val := h
    have := neg_val_le p
    show p.saturatingNeg.val ≤ -x
    omega

theorem above_neg (h : a.Below x) (hx : -2 ^ 127 < x) : a.neg.Above (-x) := by
  cases a with
  | posInf => exact h.elim
  | negInf => trivial
  | fin p =>
    have hp : p.val ≤ x := h
    show -x ≤ p.saturatingNeg.val
    by_cases hmin : p.val = -2 ^ 127
    · rw [I128.saturatingNeg, I128.checked, dif_neg (by omega)]
      show -x ≤ 2 ^ 127 - 1
      omega
    · rw [saturatingNeg_val hmin]
      omega

/-! ### Products: one of the four corners is on the right side -/

theorem mul_comm (a b : Bound) : a.mul b = b.mul a := by
  cases a <;> cases b <;> simp only [mul]
  rename_i p q
  rw [Int.mul_comm]
  cases I128.checked (q.val * p.val) with
  | some v => rfl
  | none => simp only [eq_comm]

theorem infMul_true (k : Int) : infMul true k = if 0 < k then posInf else negInf := rfl

theorem infMul_false (k : Int) : infMul false k = if 0 < k then negInf else posInf := rfl

theorem finMul_below {p q : I128} (h : p.val * q.val ≤ z) (hz : z < 2 ^ 127) :
    ((fin p).mul (fin q)).Below z := by
  simp only [mul]
  cases hv : I128.checked (p.val * q.val) with
  | some v =>
    show v.val ≤ z
    rw [eq_of_checked hv]
    exact h
  | none =>
    have hr := not_range_of_checked hv
    have hneg : p.val * q.val < 0 := by omega
    -- a negative product has factors of opposite signs
    rw [if_neg]
    · trivial
    · intro heq
      rcases lt_or_ge 0 p.val with hp | hp
      · have hq : 0 < q.val := by
          rw [decide_eq_true hp] at heq
          exact of_decide_eq_true heq.symm
        exact absurd (Int.mul_pos hp hq) (by omega)
      · have hq : q.val ≤ 0 := by
          rw [decide_eq_false (not_lt.mpr hp)] at heq
          exact not_lt.mp (of_decide_eq_false heq.symm)
        exact absurd (Int.mul_nonneg_of_nonpos_of_nonpos hp hq) (by omega)

theorem finMul_above {p q : I128} (h : z ≤ p.val * q.val) (hz : -2 ^ 127 ≤ z) :
    ((fin p).mul (fin q)).Above z := by
  simp only [mul]
  cases hv : I128.checked (p.val * q.val) with
  | some v =>
    show z ≤ v.val
    rw [eq_of_checked hv]
    exact h
  | none =>
    have hr := not_range_of_checked hv
    have hpos : 0 < p.val * q.val := by omega
    rw [if_pos]
    · trivial
    · rcases lt_trichotomy p.val 0 with hp | hp | hp
      · have hq : q.val < 0 := by
          by_contra hq
          exact absurd (Int.mul_nonpos_of_nonpos_of_nonneg (le_of_lt hp) (not_lt.mp hq)) (by omega)
        rw [decide_eq_false (by omega), decide_eq_false (by omega)]
      · rw [hp, Int.zero_mul] at hpos
        exact absurd hpos (by omega)
      · have hq : 0 < q.val := by
          by_contra hq
          exact absurd (Int.mul_nonpos_of_nonneg_of_nonpos (le_of_lt hp) (not_lt.mp hq)) (by omega)
        rw [decide_eq_true hp, decide_eq_true hq]

/-- `x` nonnegative and `y` nonpositive: the corner of the largest `x` and the least `y`. -/
theorem mul_below_of_signs (hb : b.Above x) (hx : 0 ≤ x) (hc : c.Below y) (hy : y ≤ 0)
    (hz : x * y < 2 ^ 127) : (b.mul c).Below (x * y) := by
  cases b with
  | negInf => exact hb.elim
  | posInf =>
    cases c with
    | posInf => exact hc.elim
    | negInf => trivial
    | fin q =>
      have hq : q.val ≤ y := hc
      simp only [mul, infMul_true]
      split_ifs with h0 hpos
      · obtain rfl : y = 0 := by omega
        show q.val ≤ x * 0
        omega
      · omega
      · trivial
  | fin p =>
    have hp : x ≤ p.val := hb
    cases c with
    | posInf => exact hc.elim
    | negInf =>
      simp only [mul, infMul_false]
      split_ifs with h0 hpos
      · obtain rfl : x = 0 := by omega
        show p.val ≤ 0 * y
        omega
      · trivial
      · omega
    | fin q =>
      have hq : q.val ≤ y := hc
      refine finMul_below ?_ hz
      calc p.val * q.val ≤ x * q.val := Int.mul_le_mul_of_nonpos_right hp (by omega)
        _ ≤ x * y := Int.mul_le_mul_of_nonneg_left hq hx

theorem mul_above_of_nonneg (hb : b.Above x) (hx : 0 ≤ x) (hd : d.Above y) (hy : 0 ≤ y)
    (hz : -2 ^ 127 ≤ x * y) : (b.mul d).Above (x * y) := by
  cases b with
  | negInf => exact hb.elim
  | posInf =>
    cases d with
    | negInf => exact hd.elim
    | posInf => trivial
    | fin q =>
      have hq : y ≤ q.val := hd
      simp only [mul, infMul_true]
      split_ifs with h0 hpos
      · obtain rfl : y = 0 := by omega
        show x * 0 ≤ q.val
        omega
      · trivial
      · omega
  | fin p =>
    have hp : x ≤ p.val := hb
    cases d with
    | negInf => exact hd.elim
    | posInf =>
      simp only [mul, infMul_true]
      split_ifs with h0 hpos
      · obtain rfl : x = 0 := by omega
        show 0 * y ≤ p.val
        omega
      · trivial
      · omega
    | fin q =>
      have hq : y ≤ q.val := hd
      refine finMul_above ?_ hz
      exact Int.mul_le_mul hp hq hy (by omega)

theorem mul_above_of_nonpos (ha : a.Below x) (hx : x ≤ 0) (hc : c.Below y) (hy : y ≤ 0)
    (hz : -2 ^ 127 ≤ x * y) : (a.mul c).Above (x * y) := by
  cases a with
  | posInf => exact ha.elim
  | negInf =>
    cases c with
    | posInf => exact hc.elim
    | negInf => trivial
    | fin q =>
      have hq : q.val ≤ y := hc
      simp only [mul, infMul_false]
      split_ifs with h0 hpos
      · obtain rfl : y = 0 := by omega
        show x * 0 ≤ q.val
        omega
      · omega
      · trivial
  | fin p =>
    have hp : p.val ≤ x := ha
    cases c with
    | posInf => exact hc.elim
    | negInf =>
      simp only [mul, infMul_false]
      split_ifs with h0 hpos
      · obtain rfl : x = 0 := by omega
        show 0 * y ≤ p.val
        omega
      · omega
      · trivial
    | fin q =>
      have hq : q.val ≤ y := hc
      refine finMul_above ?_ hz
      calc x * y ≤ p.val * y := Int.mul_le_mul_of_nonpos_right hp hy
        _ ≤ p.val * q.val := Int.mul_le_mul_of_nonpos_left (by omega) hq

end Bound

namespace Interval

/-- `z` is in the interval. -/
def Mem (z : Int) : Interval → Prop
  | bottom => False
  | range lo hi => lo.Below z ∧ hi.Above z

variable {i j : Interval} {x y z : Int}

theorem mem_top (z : Int) : Mem z top := ⟨trivial, trivial⟩

theorem mem_singleton (n : I128) : Mem n.val (singleton n) := ⟨le_refl n.val, le_refl n.val⟩

theorem Mem.of_leq (h : Mem z i) (hij : i.leq j = true) : Mem z j := by
  rw [leq_iff] at hij
  cases i with
  | bottom => exact h.elim
  | range a b =>
    cases j with
    | bottom => exact hij.elim
    | range c d => exact ⟨h.1.of_le hij.1, h.2.of_le hij.2⟩

theorem mem_meet (hi : Mem z i) (hj : Mem z j) : Mem z (i.meet j) := by
  cases i with
  | bottom => exact hi.elim
  | range a b =>
    cases j with
    | bottom => exact hj.elim
    | range c d =>
      have hlo : (a.max c).Below z := by
        rw [Bound.max_eq]
        split_ifs
        · exact hj.1
        · exact hi.1
      have hhi : (b.min d).Above z := by
        rw [Bound.min_eq]
        split_ifs
        · exact hi.2
        · exact hj.2
      have hle : (a.max c).le (b.min d) = true := by
        generalize a.max c = lo at hlo
        generalize b.min d = hi' at hhi
        cases lo <;> cases hi' <;> simp_all [Bound.Below, Bound.Above]
        omega
      rw [meet, if_pos hle]
      exact ⟨hlo, hhi⟩

theorem mem_add (hi : Mem x i) (hj : Mem y j) (hz : -2 ^ 127 ≤ x + y ∧ x + y < 2 ^ 127) :
    Mem (x + y) (i.add j) := by
  cases i with
  | bottom => exact hi.elim
  | range a b =>
    cases j with
    | bottom => exact hj.elim
    | range c d => exact ⟨Bound.below_add hi.1 hj.1 hz.2, Bound.above_add hi.2 hj.2 hz.1⟩

theorem mem_sub (hi : Mem x i) (hj : Mem y j) (hy : -2 ^ 127 < y)
    (hz : -2 ^ 127 ≤ x - y ∧ x - y < 2 ^ 127) : Mem (x - y) (i.sub j) := by
  have hneg : Mem (-y) j.neg := by
    cases j with
    | bottom => exact hj.elim
    | range c d => exact ⟨Bound.below_neg hj.2, Bound.above_neg hj.1 hy⟩
  rw [Int.sub_eq_add_neg] at hz ⊢
  exact mem_add hi hneg hz

theorem mul_below {a b c d : Bound} (ha : a.Below x) (hb : b.Above x) (hc : c.Below y)
    (hd : d.Above y) (hz : x * y < 2 ^ 127) :
    (a.mul c).Below (x * y) ∨ (a.mul d).Below (x * y) ∨ (b.mul c).Below (x * y) ∨
      (b.mul d).Below (x * y) := by
  have hbig : (0 : Int) < 2 ^ 127 := by decide
  rcases le_total 0 x with hx | hx
  · rcases le_total y 0 with hy | hy
    · exact .inr (.inr (.inl (Bound.mul_below_of_signs hb hx hc hy hz)))
    · -- both nonnegative: zero is below the product, so a corner of mixed signs will do
      have hprod : 0 ≤ x * y := Int.mul_nonneg hx hy
      by_cases ha0 : a.Below 0
      · have h := Bound.mul_below_of_signs hd hy ha0 (le_refl 0) (by omega)
        rw [Int.mul_zero, Bound.mul_comm] at h
        exact .inr (.inl (h.mono hprod))
      · by_cases hc0 : c.Below 0
        · have h := Bound.mul_below_of_signs hb hx hc0 (le_refl 0) (by omega)
          rw [Int.mul_zero] at h
          exact .inr (.inr (.inl (h.mono hprod)))
        · cases a with
          | negInf => exact absurd trivial ha0
          | posInf => exact ha.elim
          | fin p =>
            cases c with
            | negInf => exact absurd trivial hc0
            | posInf => exact hc.elim
            | fin q =>
              have hp : ¬ p.val ≤ 0 := ha0
              have hq : ¬ q.val ≤ 0 := hc0
              exact .inl (Bound.finMul_below (Int.mul_le_mul ha hc (by omega) hx) hz)
  · rcases le_total 0 y with hy | hy
    · have h := Bound.mul_below_of_signs hd hy ha hx (by rwa [Int.mul_comm])
      rw [Bound.mul_comm, Int.mul_comm] at h
      exact .inr (.inl h)
    · have hprod : 0 ≤ x * y := Int.mul_nonneg_of_nonpos_of_nonpos hx hy
      by_cases hb0 : b.Above 0
      · have h := Bound.mul_below_of_signs hb0 (le_refl 0) hc hy (by omega)
        rw [Int.zero_mul] at h
        exact .inr (.inr (.inl (h.mono hprod)))
      · by_cases hd0 : d.Above 0
        · have h := Bound.mul_below_of_signs hd0 (le_refl 0) ha hx (by omega)
          rw [Int.zero_mul, Bound.mul_comm] at h
          exact .inr (.inl (h.mono hprod))
        · cases b with
          | posInf => exact absurd trivial hb0
          | negInf => exact hb.elim
          | fin p =>
            cases d with
            | posInf => exact absurd trivial hd0
            | negInf => exact hd.elim
            | fin q =>
              have hp : ¬ 0 ≤ p.val := hb0
              have hq : ¬ 0 ≤ q.val := hd0
              have hxp : x ≤ p.val := hb
              have hyq : y ≤ q.val := hd
              refine .inr (.inr (.inr (Bound.finMul_below ?_ hz)))
              calc p.val * q.val ≤ x * q.val := Int.mul_le_mul_of_nonpos_right hxp (by omega)
                _ ≤ x * y := Int.mul_le_mul_of_nonpos_left hx hyq

theorem mul_above {a b c d : Bound} (ha : a.Below x) (hb : b.Above x) (hc : c.Below y)
    (hd : d.Above y) (hz : -2 ^ 127 ≤ x * y) :
    (a.mul c).Above (x * y) ∨ (a.mul d).Above (x * y) ∨ (b.mul c).Above (x * y) ∨
      (b.mul d).Above (x * y) := by
  have hbig : -2 ^ 127 ≤ (0 : Int) := by decide
  rcases le_total 0 x with hx | hx
  · rcases le_total 0 y with hy | hy
    · exact .inr (.inr (.inr (Bound.mul_above_of_nonneg hb hx hd hy hz)))
    · have hprod : x * y ≤ 0 := Int.mul_nonpos_of_nonneg_of_nonpos hx hy
      by_cases ha0 : a.Below 0
      · have h := Bound.mul_above_of_nonpos ha0 (le_refl 0) hc hy (by omega)
        rw [Int.zero_mul] at h
        exact .inl (h.mono hprod)
      · by_cases hd0 : d.Above 0
        · have h := Bound.mul_above_of_nonneg hb hx hd0 (le_refl 0) (by omega)
          rw [Int.mul_zero] at h
          exact .inr (.inr (.inr (h.mono hprod)))
        · cases a with
          | negInf => exact absurd trivial ha0
          | posInf => exact ha.elim
          | fin p =>
            cases d with
            | posInf => exact absurd trivial hd0
            | negInf => exact hd.elim
            | fin q =>
              have hp : ¬ p.val ≤ 0 := ha0
              have hq : ¬ 0 ≤ q.val := hd0
              have hpx : p.val ≤ x := ha
              have hyq : y ≤ q.val := hd
              refine .inr (.inl (Bound.finMul_above ?_ hz))
              calc x * y ≤ p.val * y := Int.mul_le_mul_of_nonpos_right hpx hy
                _ ≤ p.val * q.val := Int.mul_le_mul_of_nonneg_left hyq (by omega)
  · rcases le_total y 0 with hy | hy
    · exact .inl (Bound.mul_above_of_nonpos ha hx hc hy hz)
    · have hprod : x * y ≤ 0 := Int.mul_nonpos_of_nonpos_of_nonneg hx hy
      by_cases hc0 : c.Below 0
      · have h := Bound.mul_above_of_nonpos ha hx hc0 (le_refl 0) (by omega)
        rw [Int.mul_zero] at h
        exact .inl (h.mono hprod)
      · by_cases hb0 : b.Above 0
        · have h := Bound.mul_above_of_nonneg hb0 (le_refl 0) hd hy (by omega)
          rw [Int.zero_mul] at h
          exact .inr (.inr (.inr (h.mono hprod)))
        · cases b with
          | posInf => exact absurd trivial hb0
          | negInf => exact hb.elim
          | fin p =>
            cases c with
            | negInf => exact absurd trivial hc0
            | posInf => exact hc.elim
            | fin q =>
              have hp : ¬ 0 ≤ p.val := hb0
              have hq : ¬ q.val ≤ 0 := hc0
              have hxp : x ≤ p.val := hb
              have hqy : q.val ≤ y := hc
              refine .inr (.inr (.inl (Bound.finMul_above ?_ hz)))
              calc x * y ≤ x * q.val := Int.mul_le_mul_of_nonpos_left hx hqy
                _ ≤ p.val * q.val := Int.mul_le_mul_of_nonneg_right hxp (by omega)

theorem mem_mul (hi : Mem x i) (hj : Mem y j) (hz : -2 ^ 127 ≤ x * y ∧ x * y < 2 ^ 127) :
    Mem (x * y) (i.mul j) := by
  cases i with
  | bottom => exact hi.elim
  | range a b =>
    cases j with
    | bottom => exact hj.elim
    | range c d =>
      refine ⟨?_, ?_⟩
      · rcases mul_below hi.1 hi.2 hj.1 hj.2 hz.2 with h | h | h | h
        · exact Bound.below_min (.inl (Bound.below_min (.inl (Bound.below_min (.inl h)))))
        · exact Bound.below_min (.inl (Bound.below_min (.inl (Bound.below_min (.inr h)))))
        · exact Bound.below_min (.inl (Bound.below_min (.inr h)))
        · exact Bound.below_min (.inr h)
      · rcases mul_above hi.1 hi.2 hj.1 hj.2 hz.1 with h | h | h | h
        · exact Bound.above_max (.inl (Bound.above_max (.inl (Bound.above_max (.inl h)))))
        · exact Bound.above_max (.inl (Bound.above_max (.inl (Bound.above_max (.inr h)))))
        · exact Bound.above_max (.inl (Bound.above_max (.inr h)))
        · exact Bound.above_max (.inr h)

end Interval

end Csolver
