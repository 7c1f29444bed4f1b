import Csolver.Absint.Relational

/-!
# Refining a zone by a comparison

Every predicate is encoded as a bound on a difference of signed values. For registers below the sign bit that is
what the machine compares, and a constant with the top bit set is what an unsigned predicate reads differently:
as the largest values there are. The difference is computed in `i128`, which overflows for constants of 128 bits.
-/

namespace Csolver

open Lib Lib.Differences

namespace Zone

variable {z : Zone} {v : Nat → Int}

/-- A constraint that a valuation keeps does not lose it, if its differences are no larger than `i128::MAX`. -/
theorem has_addConstraint (hz : z.Producible) (hv : Has z v) {a b : Nat} {c : I128} (ha : a < z.m.length)
    (hb : b < z.m.length) (hc : v a - v b ≤ c.val)
    (hmax : ∀ i < z.m.length, ∀ j < z.m.length, v j - v i ≤ 2 ^ 127 - 1) : Has (z.addConstraint a b c) v := by
  have hsq := (hz.square hv.feasible).setEntry b a (Bnd.min (z.m.entry b a) (some c))
  have hsat := ((sat_addConstraint hz hv.feasible ha hb v).mpr ⟨hv, hc⟩).2
  have hclosed := sat_tighten hsq hsat fun i j hij => by
    rcases bound_ne_top_of_joined hsq hsat hij with rfl | ⟨hi, hj, _⟩
    · omega
    · exact hmax i hi j hj
  rw [addConstraint_eq c hv.feasible ha hb, close_of_sat hsq hclosed]
  refine ⟨rfl, hv.zero, ?_⟩
  rw [(square_tighten hsq).rows]
  exact hclosed

theorem Has.of_addConstraint (hz : z.Producible) {a b : Nat} {c : I128} (hb' : z.bottom = false) (ha : a < z.m.length)
    (hb : b < z.m.length) (h : Has (z.addConstraint a b c) v) : Has z v ∧ v a - v b ≤ c.val := by
  have hsq := (hz.square hb').setEntry b a (Bnd.min (z.m.entry b a) (some c))
  refine (sat_addConstraint hz hb' ha hb v).mp ⟨h.zero, ?_⟩
  have hsat := h.sat
  rw [addConstraint_m c hb' ha hb, (square_tighten hsq).rows] at hsat
  exact hsat.mono fun i _ j _ => tighten_le hsq i j

theorem addConstraint_length (hz : z.Producible) (hb : z.bottom = false) (a b : Nat) (c : I128) :
    (z.addConstraint a b c).m.length = z.m.length := by
  unfold addConstraint
  split_ifs
  · rfl
  · have hsq := (hz.square hb).setEntry b a (Bnd.min (z.m.entry b a) (some c))
    unfold close
    simp only
    split_ifs
    · exact (square_tighten hsq).rows
    · exact (square_tighten hsq).rows

theorem has_top (n : Nat) (h0 : v 0 = 0) : Has (top n) v := by
  refine ⟨rfl, h0, fun i hi j hj => ?_⟩
  have hlen : (top n).m.length = n + 1 := (square_top n).rows
  rw [hlen] at hi hj
  have hentry : (top n).m.entry i j = if i = j then some ⟨0, I128.zero_lo, I128.zero_hi⟩ else none := by
    have hi' : i < (top n).m.length := by rw [hlen]; exact hi
    have hj' : j < (top n).m[i].length := by rw [(square_top n).cols _ (List.getElem_mem hi')]; exact hj
    rw [Dbm.entry_eq hi' hj']
    simp [top]
  rw [Dbm.bound, hentry]
  split_ifs with hij
  · rw [hij, sub_self]
    exact le_refl _
  · exact le_top

end Zone

namespace Relational

variable {f : Func} {w : Nat} {op : CmpOp} {lhs rhs : Operand}

/-- A constant has the width of the comparison. -/
def OfWidth (w : Nat) : Operand → Prop
  | .const (.int bv) => bv.width = w
  | _ => True

/-- The machine value of an operand, where the tracked registers are those of the valuation. -/
def Holds (f : Func) (v : Nat → Int) : Operand → Nat → Prop
  | .reg r, x => ∀ i, idx f r = some i → v i = x
  | .const (.int bv), x => x = bv.value
  | .const _, _ => True

/-- The tracked registers are below the sign bit. -/
def BelowSign (f : Func) (w : Nat) (v : Nat → Int) : Prop := ∀ i, 0 < i → i ≤ (tracked f).length → 0 ≤ v i ∧ v i < 2 ^ (w - 1)

/-- The valuation makes the comparison true on the machine. -/
def Compares (f : Func) (v : Nat → Int) (w : Nat) (op : CmpOp) (lhs rhs : Operand) : Prop :=
  ∃ x y, Holds f v lhs x ∧ Holds f v rhs y ∧ op.eval w x y = true

/-- Refining keeps every valuation for which the comparison is true. -/
def RefineSound (f : Func) (w : Nat) (op : CmpOp) (lhs rhs : Operand) : Prop :=
  ∀ (z : Zone) (v : Nat → Int), z.Producible → z.m.length = (tracked f).length + 1 → z.Has v → BelowSign f w v →
    Compares f v w op lhs rhs → ∃ z', refine f z op lhs rhs = some z' ∧ z'.Has v

def TopBit : Operand → Prop
  | .const (.int bv) => 2 ^ bv.width ≤ 2 * bv.value
  | _ => False

/-- No constant with the top bit set is on the greater side of an unsigned comparison alone. -/
def SignsAgree (op : CmpOp) (lhs rhs : Operand) : Prop :=
  match op with
  | .ult | .ule => TopBit rhs → TopBit lhs
  | .ugt | .uge => TopBit lhs → TopBit rhs
  | _ => True

/-- The constants that are computed for the constraints. -/
def gaps (op : CmpOp) (av bv : Int) : List Int :=
  match op with
  | .sle | .ule => [bv - av]
  | .slt | .ult => [bv - av, bv - av - 1]
  | .sge | .uge => [av - bv]
  | .sgt | .ugt => [av - bv, av - bv - 1]
  | .eq => [bv - av, av - bv]
  | .ne => []

/-- If the comparison can be true, the signs agree and no constant overflows. -/
def RefineOk (f : Func) (w : Nat) (op : CmpOp) (lhs rhs : Operand) : Prop :=
  ∀ a av b bv, operand f lhs = (some a, av) → operand f rhs = (some b, bv) →
    (∃ v, v 0 = 0 ∧ BelowSign f w v ∧ Compares f v w op lhs rhs) →
      SignsAgree op lhs rhs ∧ ∀ d ∈ gaps op av bv, FitsI128 d

/-! ## What the machine compares -/

open Intervals in
theorem eval_eq_signed {x y : Nat}
    (h : op = .ult ∨ op = .ule ∨ op = .ugt ∨ op = .uge → (BitVec.ofNat w x).msb = (BitVec.ofNat w y).msb) :
    op.eval w x y = cmpInt op (BitVec.ofNat w x).toInt (BitVec.ofNat w y).toInt := by
  have hlt : ∀ {x y : Nat}, (BitVec.ofNat w x).msb = (BitVec.ofNat w y).msb →
      ((BitVec.ofNat w x).toInt < (BitVec.ofNat w y).toInt ↔ (BitVec.ofNat w x).toNat < (BitVec.ofNat w y).toNat) := by
    intro x y hmsb
    rw [BitVec.toInt_eq_msb_cond, BitVec.toInt_eq_msb_cond, hmsb]
    split_ifs <;> omega
  have hle : ∀ {x y : Nat}, (BitVec.ofNat w x).msb = (BitVec.ofNat w y).msb →
      ((BitVec.ofNat w x).toInt ≤ (BitVec.ofNat w y).toInt ↔ (BitVec.ofNat w x).toNat ≤ (BitVec.ofNat w y).toNat) := by
    intro x y hmsb
    rw [← not_lt, hlt hmsb.symm, not_lt]
  cases op with
  | eq => simp [CmpOp.eval, CmpOp.evalBv, cmpInt, BitVec.toInt_inj, beq_eq_decide]
  | ne => simp [CmpOp.eval, CmpOp.evalBv, cmpInt, BitVec.toInt_inj, bne, beq_eq_decide]
  | ult => simp [CmpOp.eval, CmpOp.evalBv, cmpInt, BitVec.ult, hlt (h (by simp))]
  | ule => simp [CmpOp.eval, CmpOp.evalBv, cmpInt, BitVec.ule, hle (h (by simp))]
  | ugt => simp [CmpOp.eval, CmpOp.evalBv, cmpInt, BitVec.ult, hlt (h (by simp)).symm]
  | uge => simp [CmpOp.eval, CmpOp.evalBv, cmpInt, BitVec.ule, hle (h (by simp)).symm]
  | slt | sgt => simp [CmpOp.eval, CmpOp.evalBv, cmpInt, BitVec.slt]
  | sle | sge => simp [CmpOp.eval, CmpOp.evalBv, cmpInt, BitVec.sle]

theorem operand_value {v : Nat → Int} {o : Operand} {a x : Nat} {av : Int} (hw : 0 < w) (ho : OfWidth w o)
    (h : operand f o = (some a, av)) (h0 : v 0 = 0) (hv : BelowSign f w v) (hx : Holds f v o x) :
    v a + av = (BitVec.ofNat w x).toInt ∧ (TopBit o ↔ (BitVec.ofNat w x).msb = true) ∧ a ≤ (tracked f).length := by
  cases o with
  | reg r =>
    obtain ⟨ha, rfl⟩ := Prod.mk.inj h
    obtain ⟨hpos, hle⟩ := idx_bounds ha
    have hva : v a = x := hx a ha
    obtain ⟨_, hlt⟩ := hv a hpos hle
    have hpow : (2 : Int) ^ w = 2 * 2 ^ (w - 1) := by rw [← pow_succ', Nat.sub_add_cancel hw]
    have htwo : 2 * x < 2 ^ w := by
      have hint : (2 * x : Int) < 2 ^ w := by omega
      exact_mod_cast hint
    refine ⟨?_, iff_of_false id ?_, hle⟩
    · rw [Intervals.toInt_of_lt htwo, hva, add_zero]
    · rw [Bool.not_eq_true, BitVec.msb_eq_false_iff_two_mul_lt, BitVec.toNat_ofNat, Nat.mod_eq_of_lt (by omega)]
      exact htwo
  | const c =>
    cases c with
    | int bv =>
      obtain ⟨ha, hav⟩ := Prod.mk.inj h
      obtain rfl := Option.some.inj ha
      obtain rfl : bv.width = w := ho
      obtain rfl : x = bv.value := hx
      refine ⟨by rw [h0, zero_add, ← hav, BitVector.signed], ?_, Nat.zero_le _⟩
      rw [BitVec.msb_eq_true_iff_two_mul_ge, BitVec.toNat_ofNat, Nat.mod_eq_of_lt bv.value_lt]
      rfl
    | _ => exact absurd (Prod.mk.inj h).1 (by simp)

theorem msb_of_le {x y : Nat} (h : (BitVec.ofNat w x).toInt ≤ (BitVec.ofNat w y).toInt) (hy : (BitVec.ofNat w y).msb = true) :
    (BitVec.ofNat w x).msb = true := by
  rw [BitVec.msb_eq_toInt, decide_eq_true_eq] at *
  omega

theorem msb_eq_of_le {x y : Nat} (h : (BitVec.ofNat w x).toNat ≤ (BitVec.ofNat w y).toNat)
    (hy : (BitVec.ofNat w y).msb = true → (BitVec.ofNat w x).msb = true) :
    (BitVec.ofNat w x).msb = (BitVec.ofNat w y).msb := by
  refine Bool.eq_iff_iff.mpr ⟨fun hx => ?_, hy⟩
  rw [BitVec.msb_eq_true_iff_two_mul_ge] at *
  omega

open Intervals in
theorem signed_iff {v : Nat → Int} {a b x y : Nat} {av bv : Int} (hw : 0 < w) (hl : OfWidth w lhs) (hr : OfWidth w rhs)
    (ha : operand f lhs = (some a, av)) (hb : operand f rhs = (some b, bv)) (h0 : v 0 = 0) (hv : BelowSign f w v)
    (hx : Holds f v lhs x) (hy : Holds f v rhs y) (hcmp : op.eval w x y = true) :
    cmpInt op (v a + av) (v b + bv) = true ↔ SignsAgree op lhs rhs := by
  obtain ⟨hX, htopl, _⟩ := operand_value hw hl ha h0 hv hx
  obtain ⟨hY, htopr, _⟩ := operand_value hw hr hb h0 hv hy
  rw [hX, hY]
  have hsigned : ∀ {op : CmpOp}, op.eval w x y = true → (BitVec.ofNat w x).msb = (BitVec.ofNat w y).msb →
      cmpInt op (BitVec.ofNat w x).toInt (BitVec.ofNat w y).toInt = true := fun hop hmsb => by
    rw [← eval_eq_signed fun _ => hmsb]
    exact hop
  cases op with
  | ult =>
    have hlt : (BitVec.ofNat w x).toNat < (BitVec.ofNat w y).toNat := of_decide_eq_true hcmp
    refine ⟨fun h => ?_, fun h => hsigned hcmp (msb_eq_of_le (le_of_lt hlt) fun hm => htopl.mp (h (htopr.mpr hm)))⟩
    exact fun ht => htopl.mpr (msb_of_le (le_of_lt (of_decide_eq_true h)) (htopr.mp ht))
  | ule =>
    have hle : (BitVec.ofNat w x).toNat ≤ (BitVec.ofNat w y).toNat := of_decide_eq_true hcmp
    refine ⟨fun h => ?_, fun h => hsigned hcmp (msb_eq_of_le hle fun hm => htopl.mp (h (htopr.mpr hm)))⟩
    exact fun ht => htopl.mpr (msb_of_le (of_decide_eq_true h) (htopr.mp ht))
  | ugt =>
    have hlt : (BitVec.ofNat w y).toNat < (BitVec.ofNat w x).toNat := of_decide_eq_true hcmp
    refine ⟨fun h => ?_, fun h => hsigned hcmp (msb_eq_of_le (le_of_lt hlt) fun hm => htopr.mp (h (htopl.mpr hm))).symm⟩
    exact fun ht => htopr.mpr (msb_of_le (le_of_lt (of_decide_eq_true h)) (htopl.mp ht))
  | uge =>
    have hle : (BitVec.ofNat w y).toNat ≤ (BitVec.ofNat w x).toNat := of_decide_eq_true hcmp
    refine ⟨fun h => ?_, fun h => hsigned hcmp (msb_eq_of_le hle fun hm => htopr.mp (h (htopl.mpr hm))).symm⟩
    exact fun ht => htopr.mpr (msb_of_le (of_decide_eq_true h) (htopl.mp ht))
  | _ => exact iff_of_true (by rw [← eval_eq_signed (by simp)]; exact hcmp) trivial

/-! ## Refining -/

theorem checked_iff {d : Int} {c : I128} : I128.checked d = some c ↔ c.val = d := by
  constructor
  · exact Bound.eq_of_checked
  · intro h
    have hlo := c.lo
    have hhi := c.hi
    rw [I128.checked, dif_pos (by omega)]
    exact congrArg some (I128.ext h.symm)

theorem fits_of_checked {d : Int} {c : I128} (h : I128.checked d = some c) : FitsI128 d := by
  have hlo := c.lo
  have hhi := c.hi
  rw [checked_iff] at h
  unfold FitsI128
  omega

section

variable {z : Zone} {v : Nat → Int} {a b : Nat} {av bv : Int}

theorem refine_has (hz : z.Producible) (hv : z.Has v) (hmax : ∀ i < z.m.length, ∀ j < z.m.length, v j - v i ≤ 2 ^ 127 - 1)
    (ha : operand f lhs = (some a, av)) (hb : operand f rhs = (some b, bv)) (hal : a < z.m.length) (hbl : b < z.m.length)
    (hgaps : ∀ d ∈ gaps op av bv, FitsI128 d) (hcmp : Intervals.cmpInt op (v a + av) (v b + bv) = true) :
    ∃ z', refine f z op lhs rhs = some z' ∧ z'.Has v := by
  simp only [refine, ha, hb]
  cases op with
  | ne => exact ⟨z, rfl, hv⟩
  | eq =>
    have heq : v a + av = v b + bv := of_decide_eq_true hcmp
    obtain ⟨c, hc, hcv⟩ := (hgaps (bv - av) (by simp [gaps])).exists_checked
    obtain ⟨d, hd, hdv⟩ := (hgaps (av - bv) (by simp [gaps])).exists_checked
    have hfirst : (z.addConstraint a b c).Has v := Zone.has_addConstraint hz hv hal hbl (by omega) hmax
    have hlen := Zone.addConstraint_length hz hv.feasible a b c
    refine ⟨(z.addConstraint a b c).addConstraint b a d, by simp only [hc, hd, Option.bind_some, Option.map_some], ?_⟩
    refine Zone.has_addConstraint (.addConstraint a b c hz) hfirst ?_ ?_ (by omega) ?_
    · rw [hlen]; exact hbl
    · rw [hlen]; exact hal
    · rw [hlen]; exact hmax
  | ule | sle =>
    have hle : v a + av ≤ v b + bv := of_decide_eq_true hcmp
    obtain ⟨c, hc, hcv⟩ := (hgaps (bv - av) (by simp [gaps])).exists_checked
    exact ⟨z.addConstraint a b c, by simp only [hc, Option.map_some], Zone.has_addConstraint hz hv hal hbl (by omega) hmax⟩
  | uge | sge =>
    have hle : v b + bv ≤ v a + av := of_decide_eq_true hcmp
    obtain ⟨c, hc, hcv⟩ := (hgaps (av - bv) (by simp [gaps])).exists_checked
    exact ⟨z.addConstraint b a c, by simp only [hc, Option.map_some], Zone.has_addConstraint hz hv hbl hal (by omega) hmax⟩
  | ult | slt =>
    have hlt : v a + av < v b + bv := of_decide_eq_true hcmp
    obtain ⟨d, hd, hdv⟩ := (hgaps (bv - av) (by simp [gaps])).exists_checked
    obtain ⟨c, hc, hcv⟩ := (hgaps (bv - av - 1) (by simp [gaps])).exists_checked
    rw [← hdv] at hc
    exact ⟨z.addConstraint a b c, by simp only [hd, hc, Option.bind_some, Option.map_some],
      Zone.has_addConstraint hz hv hal hbl (by omega) hmax⟩
  | ugt | sgt =>
    have hlt : v b + bv < v a + av := of_decide_eq_true hcmp
    obtain ⟨d, hd, hdv⟩ := (hgaps (av - bv) (by simp [gaps])).exists_checked
    obtain ⟨c, hc, hcv⟩ := (hgaps (av - bv - 1) (by simp [gaps])).exists_checked
    rw [← hdv] at hc
    exact ⟨z.addConstraint b a c, by simp only [hd, hc, Option.bind_some, Option.map_some],
      Zone.has_addConstraint hz hv hbl hal (by omega) hmax⟩

/-- What is left after refining makes the comparison of the signed values true, and nothing overflowed. -/
theorem of_refine_has (hz : z.Producible) (hb' : z.bottom = false)
    (ha : operand f lhs = (some a, av)) (hb : operand f rhs = (some b, bv)) (hal : a < z.m.length) (hbl : b < z.m.length)
    {z' : Zone} (h : refine f z op lhs rhs = some z') (hv : z'.Has v) (hne : op ≠ .ne) :
    (∀ d ∈ gaps op av bv, FitsI128 d) ∧ Intervals.cmpInt op (v a + av) (v b + bv) = true := by
  simp only [refine, ha, hb] at h
  cases op with
  | ne => exact absurd rfl hne
  | eq =>
    obtain ⟨c, hc, h⟩ := Option.bind_eq_some_iff.mp h
    obtain ⟨d, hd, rfl⟩ := Option.map_eq_some_iff.mp h
    have hlen := Zone.addConstraint_length hz hb' a b c
    have hfeas : (z.addConstraint a b c).bottom = false := by
      by_contra hbot
      rw [Bool.not_eq_false] at hbot
      rw [Zone.addConstraint, if_pos (by simp [hbot])] at hv
      exact Zone.not_has_of_bottom hbot v hv
    obtain ⟨hfirst, hge⟩ := hv.of_addConstraint (.addConstraint a b c hz) hfeas (by rw [hlen]; exact hbl) (by rw [hlen]; exact hal)
    obtain ⟨_, hle⟩ := hfirst.of_addConstraint hz hb' hal hbl
    refine ⟨?_, decide_eq_true ?_⟩
    · simp only [gaps, List.forall_mem_cons, List.not_mem_nil, IsEmpty.forall_iff, implies_true, and_true]
      exact ⟨fits_of_checked hc, fits_of_checked hd⟩
    · rw [checked_iff] at hc hd
      omega
  | ule | sle =>
    obtain ⟨c, hc, rfl⟩ := Option.map_eq_some_iff.mp h
    obtain ⟨_, hle⟩ := hv.of_addConstraint hz hb' hal hbl
    refine ⟨?_, decide_eq_true ?_⟩
    · simp only [gaps, List.forall_mem_singleton]
      exact fits_of_checked hc
    · rw [checked_iff] at hc
      omega
  | uge | sge =>
    obtain ⟨c, hc, rfl⟩ := Option.map_eq_some_iff.mp h
    obtain ⟨_, hle⟩ := hv.of_addConstraint hz hb' hbl hal
    refine ⟨?_, decide_eq_true ?_⟩
    · simp only [gaps, List.forall_mem_singleton]
      exact fits_of_checked hc
    · rw [checked_iff] at hc
      omega
  | ult | slt =>
    obtain ⟨d, hd, h⟩ := Option.bind_eq_some_iff.mp h
    obtain ⟨c, hc, rfl⟩ := Option.map_eq_some_iff.mp h
    obtain ⟨_, hle⟩ := hv.of_addConstraint hz hb' hal hbl
    rw [checked_iff.mp hd] at hc
    refine ⟨?_, decide_eq_true ?_⟩
    · simp only [gaps, List.forall_mem_cons, List.not_mem_nil, IsEmpty.forall_iff, implies_true, and_true]
      exact ⟨fits_of_checked hd, fits_of_checked hc⟩
    · rw [checked_iff] at hc
      omega
  | ugt | sgt =>
    obtain ⟨d, hd, h⟩ := Option.bind_eq_some_iff.mp h
    obtain ⟨c, hc, rfl⟩ := Option.map_eq_some_iff.mp h
    obtain ⟨_, hle⟩ := hv.of_addConstraint hz hb' hbl hal
    rw [checked_iff.mp hd] at hc
    refine ⟨?_, decide_eq_true ?_⟩
    · simp only [gaps, List.forall_mem_cons, List.not_mem_nil, IsEmpty.forall_iff, implies_true, and_true]
      exact ⟨fits_of_checked hd, fits_of_checked hc⟩
    · rw [checked_iff] at hc
      omega

end

theorem refine_untracked {z : Zone} (h : (operand f lhs).1 = none ∨ (operand f rhs).1 = none) :
    refine f z op lhs rhs = some z := by
  unfold refine
  split
  · rename_i ai av bi bv ha hb
    rcases h with h | h
    · rw [ha] at h
      exact absurd h (by simp)
    · rw [hb] at h
      exact absurd h (by simp)
  · rfl

/-- Refining by a comparison is sound exactly if `RefineOk` holds of it. -/
theorem refine_exact (f : Func) (w : Nat) (op : CmpOp) (lhs rhs : Operand) (hw : 0 < w) (hle : w ≤ 128)
    (hl : OfWidth w lhs) (hr : OfWidth w rhs) : RefineSound f w op lhs rhs ↔ RefineOk f w op lhs rhs := by
  have hspan : ∀ (v : Nat → Int), v 0 = 0 → BelowSign f w v → ∀ i < (tracked f).length + 1,
      ∀ j < (tracked f).length + 1, v j - v i ≤ 2 ^ 127 - 1 := by
    intro v h0 hv i hi j hj
    have hpow : (2 : Int) ^ (w - 1) ≤ 2 ^ 127 := pow_le_pow_right₀ (by decide) (by omega)
    have hrange : ∀ i < (tracked f).length + 1, 0 ≤ v i ∧ v i < 2 ^ 127 := by
      intro i hi
      rcases Nat.eq_zero_or_pos i with rfl | hpos
      · omega
      · have := hv i hpos (by omega)
        omega
    have := hrange i hi
    have := hrange j hj
    omega
  constructor
  · intro h a av b bv ha hb ⟨v, h0, hv, hcmp⟩
    by_cases hne : op = .ne
    · subst hne
      exact ⟨trivial, by simp [gaps]⟩
    · obtain ⟨x, y, hx, hy, heval⟩ := hcmp
      have hlen : (Zone.top (tracked f).length).m.length = (tracked f).length + 1 := (Zone.square_top _).rows
      obtain ⟨z', hz', hhas⟩ := h (.top (tracked f).length) v (.top _) hlen (Zone.has_top _ h0) hv ⟨x, y, hx, hy, heval⟩
      obtain ⟨_, _, hal⟩ := operand_value hw hl ha h0 hv hx
      obtain ⟨_, _, hbl⟩ := operand_value hw hr hb h0 hv hy
      obtain ⟨hgaps, hsigned⟩ := of_refine_has (.top _) rfl ha hb (by omega) (by omega) hz' hhas hne
      exact ⟨(signed_iff hw hl hr ha hb h0 hv hx hy heval).mp hsigned, hgaps⟩
  · intro h z v hz hlen hhas hv hcmp
    cases ha : operand f lhs with
    | mk a av =>
      cases hb : operand f rhs with
      | mk b bv =>
        cases a with
        | none => exact ⟨z, refine_untracked (.inl (by rw [ha])), hhas⟩
        | some a =>
          cases b with
          | none => exact ⟨z, refine_untracked (.inr (by rw [hb])), hhas⟩
          | some b =>
            obtain ⟨hsign, hgaps⟩ := h a av b bv ha hb ⟨v, hhas.zero, hv, hcmp⟩
            obtain ⟨x, y, hx, hy, heval⟩ := hcmp
            obtain ⟨_, _, hal⟩ := operand_value hw hl ha hhas.zero hv hx
            obtain ⟨_, _, hbl⟩ := operand_value hw hr hb hhas.zero hv hy
            refine refine_has hz hhas ?_ ha hb (by omega) (by omega) hgaps
              ((signed_iff hw hl hr ha hb hhas.zero hv hx hy heval).mpr hsign)
            rw [hlen]
            exact hspan v hhas.zero hv

/-! ## One register -/

/-- `fn(x: i8)` with nothing to do. -/
def oneRegister : Func :=
  ⟨"f", [(1, .int 8)], .unit, [⟨0, [(1, .int 8)], [], .ret none⟩], 0⟩

def byte (n : Nat) (h : n < 2 ^ 8) : Operand := .const (.int ⟨8, n, BitVector.pos8, BitVector.le8, h⟩)

/-- `x < 100` is a bound on the signed value. -/
theorem refine_exact_small : RefineSound oneRegister 8 .ult (.reg 1) (byte 100 (by decide)) := by
  refine (refine_exact oneRegister 8 .ult (.reg 1) (byte 100 (by decide)) (by decide) (by decide) trivial rfl).mpr ?_
  intro a av b bv ha hb _
  obtain ⟨_, rfl⟩ := Prod.mk.inj ha
  obtain ⟨_, rfl⟩ := Prod.mk.inj hb
  refine ⟨fun h => absurd (show 2 ^ 8 ≤ 2 * 100 from h) (by decide), ?_⟩
  show ∀ d ∈ [(100 : Int) - 0, 100 - 0 - 1], FitsI128 d
  simp [FitsI128]

/-- Every register below the sign bit is below 200, whose signed value is negative. -/
theorem refine_prunes : ¬ ∀ (f : Func) (w : Nat) (op : CmpOp) (lhs rhs : Operand), 0 < w → w ≤ 128 → OfWidth w lhs →
    OfWidth w rhs → RefineSound f w op lhs rhs := by
  intro h
  have hok := (refine_exact oneRegister 8 .ult (.reg 1) (byte 200 (by decide)) (by decide) (by decide) trivial rfl).mp
    (h _ _ _ _ _ (by decide) (by decide) trivial rfl)
  have hzero : Compares oneRegister (fun _ => 0) 8 .ult (.reg 1) (byte 200 (by decide)) :=
    ⟨0, 200, fun _ _ => rfl, rfl, by decide⟩
  obtain ⟨hsign, _⟩ := hok 1 0 0 (-56) (by decide) (by decide) ⟨fun _ => 0, rfl, fun _ _ _ => ⟨le_refl 0, show (0 : Int) < 2 ^ 7 by decide⟩, hzero⟩
  exact hsign (show 2 ^ 8 ≤ 2 * 200 by decide)

end Relational

end Csolver
