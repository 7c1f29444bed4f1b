import Csolver.Solver.Build
import Mathlib.Tactic.Positivity

/-!
# What `bin` builds means the operation (`crates/solver/src/expr.rs`)

`bin` folds two constants on 128-bit words and rewrites a few identities. Folding asks for two
constants of one width and is the operation at that width. An identity returns one of the operands
as it stands, of whatever width that operand has: its value is then that of the operation at *every*
width, while a node that is really built is computed at the width of its left operand.
-/

namespace Csolver

variable {ρ : Valuation}

theorem toU128_mod {w : Nat} (hw : w ≤ 128) (z : Int) :
    toU128 z % 2 ^ w = (BitVec.ofInt w z).toNat := by
  have hdvd : ((2 ^ w : Nat) : Int) ∣ 2 ^ 128 := by
    rw [Nat.cast_pow]
    exact pow_dvd_pow 2 hw
  have hpos : (0 : Int) ≤ z % 2 ^ 128 := Int.emod_nonneg _ (by decide)
  have hpos' : (0 : Int) ≤ z % (2 ^ w : Nat) := Int.emod_nonneg _ (by positivity)
  rw [BitVec.toNat_ofInt, toU128]
  apply Int.ofNat_inj.mp
  rw [Int.natCast_emod, Int.toNat_of_nonneg hpos, Int.toNat_of_nonneg hpos',
    Int.emod_emod_of_dvd z hdvd]

theorem mod_pow128 {w : Nat} (hw : w ≤ 128) (n : Nat) : n % 2 ^ 128 % 2 ^ w = n % 2 ^ w :=
  Nat.mod_mod_of_dvd n (pow_dvd_pow 2 hw)

theorem toNat_eq_ofInt_toInt {w : Nat} (x : BitVec w) : (BitVec.ofInt w x.toInt).toNat = x.toNat := by
  rw [BitVec.ofInt_toInt]

theorem ofInt_bmod (w : Nat) (z : Int) : BitVec.ofInt w (z.bmod (2 ^ w)) = BitVec.ofInt w z := by
  apply BitVec.eq_of_toInt_eq
  rw [BitVec.toInt_ofInt, BitVec.toInt_ofInt, Int.bmod_bmod]

theorem smtSDiv_eq_sdiv {w : Nat} (x y : BitVec w) (hy : y ≠ 0#w) : x.smtSDiv y = x.sdiv y := by
  have hneg : -y ≠ 0#w := by simpa using hy
  rw [BitVec.smtSDiv, BitVec.sdiv_eq]
  simp only [BitVec.smtUDiv_eq, BitVec.udiv_eq, BitVec.neg_eq, if_neg hy, if_neg hneg]
  rfl

theorem shiftRight_of_neg {z : Int} {n : Nat} (hneg : z < 0) (hlo : -2 ^ n ≤ z) : z >>> n = -1 := by
  have hpos : (0 : Int) < 2 ^ n := by positivity
  rw [Int.shiftRight_eq_div_pow]
  push_cast
  apply Int.le_antisymm
  · exact Int.le_of_lt_add_one (Int.ediv_lt_of_lt_mul hpos (by simpa using hneg))
  · exact Int.le_ediv_of_mul_le hpos (by simpa using hlo)

theorem shiftRight_of_nonneg {z : Int} {n : Nat} (hnn : 0 ≤ z) (hhi : z < 2 ^ n) : z >>> n = 0 := by
  rw [Int.shiftRight_eq_div_pow]
  push_cast
  exact Int.ediv_eq_zero_of_lt hnn hhi

section FoldBin

variable {x y : BitVector} {v : Nat}

theorem foldBin_eq {op : BvOp} (h : x.width = y.width) (hf : foldBin op x y x.width = some v) :
    v % 2 ^ x.width = op.eval x.width x.value y.value := by
  have hw : x.width ≤ 128 := x.width_le
  have hx : x.value % 2 ^ x.width = x.value := Nat.mod_eq_of_lt x.value_lt
  have hy : y.value % 2 ^ x.width = y.value := Nat.mod_eq_of_lt (h ▸ y.value_lt)
  have hsx : x.signed = (BitVec.ofNat x.width x.value).toInt := rfl
  have hsy : y.signed = (BitVec.ofNat x.width y.value).toInt := by rw [BitVector.signed, h]
  have hzero : BitVec.ofNat x.width y.value = 0#x.width ↔ y.value = 0 := by
    rw [← BitVec.toNat_inj, BitVec.toNat_ofNat, BitVec.toNat_ofNat, hy, Nat.zero_mod]
  have hpow : 2 ^ x.width ≤ 2 ^ 128 := Nat.pow_le_pow_right (by decide) hw
  have hylt : y.value < 2 ^ x.width := h ▸ y.value_lt
  cases op with
  | add =>
    rw [← Option.some.inj hf, mod_pow128 hw, BvOp.eval, BvOp.evalBv, BitVec.toNat_add,
      BitVec.toNat_ofNat, BitVec.toNat_ofNat, hx, hy]
  | sub =>
    rw [← Option.some.inj hf, mod_pow128 hw, BvOp.eval, BvOp.evalBv, BitVec.toNat_sub,
      BitVec.toNat_ofNat, BitVec.toNat_ofNat, hx, hy]
    obtain ⟨k, hk⟩ : 2 ^ x.width ∣ 2 ^ 128 := pow_dvd_pow 2 hw
    have hk1 : 1 ≤ k := by
      rcases Nat.eq_zero_or_pos k with rfl | hpos
      · simp at hk
      · exact hpos
    obtain ⟨j, rfl⟩ := Nat.exists_eq_add_of_le hk1
    have hsplit : x.value + (2 ^ 128 - y.value)
        = 2 ^ x.width - y.value + x.value + 2 ^ x.width * j := by
      rw [hk, Nat.mul_add, Nat.mul_one]
      omega
    rw [hsplit, Nat.add_mul_mod_self_left]
  | mul =>
    rw [← Option.some.inj hf, mod_pow128 hw, BvOp.eval, BvOp.evalBv, BitVec.toNat_mul,
      BitVec.toNat_ofNat, BitVec.toNat_ofNat, hx, hy]
  | udiv =>
    simp only [foldBin] at hf
    split_ifs at hf with h0
    rw [← Option.some.inj hf, BvOp.eval, BvOp.evalBv, BitVec.smtUDiv_eq, if_neg (mt hzero.mp h0),
      BitVec.toNat_udiv, BitVec.toNat_ofNat, BitVec.toNat_ofNat, hx, hy]
    exact Nat.mod_eq_of_lt (lt_of_le_of_lt (Nat.div_le_self _ _) x.value_lt)
  | urem =>
    simp only [foldBin] at hf
    split_ifs at hf with h0
    rw [← Option.some.inj hf, BvOp.eval, BvOp.evalBv, BitVec.umod_eq, BitVec.toNat_umod,
      BitVec.toNat_ofNat, BitVec.toNat_ofNat, hx, hy]
    exact Nat.mod_eq_of_lt (lt_of_le_of_lt (Nat.mod_le _ _) x.value_lt)
  | sdiv =>
    simp only [foldBin] at hf
    split_ifs at hf with h0
    have hne : BitVec.ofNat x.width y.value ≠ 0#x.width := by
      intro he
      apply h0
      rw [hsy, he, BitVec.toInt_zero]
    rw [← Option.some.inj hf, toU128_mod hw, BvOp.eval, BvOp.evalBv, smtSDiv_eq_sdiv _ _ hne,
      ← toNat_eq_ofInt_toInt (BitVec.sdiv _ _), BitVec.toInt_sdiv, ofInt_bmod, hsx, hsy]
  | srem =>
    simp only [foldBin] at hf
    split_ifs at hf with h0
    rw [← Option.some.inj hf, toU128_mod hw, BvOp.eval, BvOp.evalBv,
      ← toNat_eq_ofInt_toInt (BitVec.srem _ _), BitVec.toInt_srem, hsx, hsy]
  | and =>
    rw [← Option.some.inj hf, BvOp.eval, BvOp.evalBv, BitVec.toNat_and, BitVec.toNat_ofNat,
      BitVec.toNat_ofNat, hx, hy]
    exact Nat.mod_eq_of_lt (lt_of_le_of_lt Nat.and_le_left x.value_lt)
  | or =>
    rw [← Option.some.inj hf, BvOp.eval, BvOp.evalBv, BitVec.toNat_or, BitVec.toNat_ofNat,
      BitVec.toNat_ofNat, hx, hy]
    exact Nat.mod_eq_of_lt (Nat.or_lt_two_pow x.value_lt hylt)
  | xor =>
    rw [← Option.some.inj hf, BvOp.eval, BvOp.evalBv, BitVec.toNat_xor, BitVec.toNat_ofNat,
      BitVec.toNat_ofNat, hx, hy]
    exact Nat.mod_eq_of_lt (Nat.xor_lt_two_pow x.value_lt hylt)
  | shl =>
    rw [← Option.some.inj hf, BvOp.eval, BvOp.evalBv, BitVec.toNat_shiftLeft, BitVec.toNat_ofNat,
      BitVec.toNat_ofNat, hx, hy]
    split_ifs with hge
    · -- every bit is shifted out
      rw [Nat.shiftLeft_eq, Nat.zero_mod]
      exact (Nat.mod_eq_zero_of_dvd (Dvd.dvd.mul_left (pow_dvd_pow 2 hge) _)).symm
    · exact mod_pow128 hw _
  | lshr =>
    rw [← Option.some.inj hf, BvOp.eval, BvOp.evalBv, BitVec.toNat_ushiftRight, BitVec.toNat_ofNat,
      BitVec.toNat_ofNat, hx, hy, Nat.shiftRight_eq_div_pow]
    split_ifs with hge
    · rw [Nat.zero_mod]
      refine (Nat.div_eq_of_lt (lt_of_lt_of_le x.value_lt ?_)).symm
      exact Nat.pow_le_pow_right (by decide) hge
    · exact Nat.mod_eq_of_lt (lt_of_le_of_lt (Nat.div_le_self _ _) x.value_lt)
  | ashr =>
    rw [← Option.some.inj hf, BvOp.eval, BvOp.evalBv, ← toNat_eq_ofInt_toInt,
      BitVec.toInt_sshiftRight, BitVec.toNat_ofNat, hy, ← hsx]
    have hpos : (0 : Int) < 2 ^ x.width := by positivity
    have hlo : -(2 ^ x.width : Int) ≤ x.signed := by
      have := BitVec.le_two_mul_toInt (x := BitVec.ofNat x.width x.value)
      omega
    have hhi : x.signed < 2 ^ x.width := by
      have := BitVec.two_mul_toInt_lt (x := BitVec.ofNat x.width x.value)
      omega
    have hbig : x.width ≤ y.value → (2 ^ x.width : Int) ≤ 2 ^ y.value :=
      fun hge => pow_le_pow_right₀ (by decide) hge
    split_ifs with hge hneg
    · -- the sign fills every bit
      rw [shiftRight_of_neg hneg (hlo.trans' (Int.neg_le_neg (hbig hge))), ← toU128_mod hw]
      rfl
    · rw [shiftRight_of_nonneg (not_lt.mp hneg) (lt_of_lt_of_le hhi (hbig hge))]
      simp
    · exact toU128_mod hw _

end FoldBin

namespace Expr

theorem folded_eval {op : BvOp} {a b : Expr} {v : Nat} (h : folded op a b = some v) :
    v % 2 ^ a.width = op.eval a.width (a.eval ρ) (b.eval ρ) := by
  simp only [folded] at h
  cases hx : a.asConst with
  | none => simp [hx] at h
  | some x =>
    cases hy : b.asConst with
    | none => simp [hx, hy] at h
    | some y =>
      simp only [hx, hy] at h
      split_ifs at h with hw
      obtain ⟨hwa, hva⟩ := asConst_eq (ρ := ρ) hx
      rw [hwa] at h ⊢
      rw [hva, (asConst_eq hy).2]
      exact foldBin_eq hw h

theorem eval_of_asConst {e : Expr} {c : Nat} (h : e.asConst.map (fun v => v.value == c) = some true) :
    e.eval ρ = c := by
  cases he : e.asConst with
  | none => simp [he] at h
  | some v =>
    rw [(asConst_eq he).2]
    simpa [he] using h

theorem identity_eval {op : BvOp} {a b e : Expr} (h : identity op a b = some e) (w : Nat) :
    e.eval ρ % 2 ^ w = op.eval w (a.eval ρ) (b.eval ρ) := by
  simp only [identity] at h
  split_ifs at h with h1 h2 h3 h4 h5 h6
  · obtain ⟨hop, hb⟩ := h1
    rw [← Option.some.inj h, eval_of_asConst hb]
    rcases hop with rfl | rfl | rfl | rfl <;> simp [BvOp.eval, BvOp.evalBv]
  · obtain ⟨hop, ha⟩ := h2
    rw [← Option.some.inj h, eval_of_asConst ha]
    rcases hop with rfl | rfl <;> simp [BvOp.eval, BvOp.evalBv]
  · obtain ⟨hop, hb⟩ := h3
    rw [← Option.some.inj h, eval_of_asConst hb]
    rcases hop with rfl | rfl <;> simp [BvOp.eval, BvOp.evalBv]
  · obtain ⟨hop, ha⟩ := h4
    rw [← Option.some.inj h, eval_of_asConst ha]
    rcases hop with rfl | rfl <;> simp [BvOp.eval, BvOp.evalBv]
  · obtain ⟨rfl, hb⟩ := h5
    rw [← Option.some.inj h, eval_of_asConst hb]
    simp [BvOp.eval, BvOp.evalBv]
  · obtain ⟨rfl, ha⟩ := h6
    rw [← Option.some.inj h, eval_of_asConst ha]
    simp [BvOp.eval, BvOp.evalBv]

theorem eval_lt_of_asConst {e : Expr} {v : BitVector} (h : e.asConst = some v) :
    e.eval ρ < 2 ^ v.width := by
  rw [(asConst_eq h).2]
  exact v.value_lt

theorem identity_mem {op : BvOp} {a b e : Expr} (h : identity op a b = some e) : e = a ∨ e = b := by
  simp only [identity] at h
  split_ifs at h <;> simp_all

theorem mkBin_eval_of_identity {op : BvOp} {a b e : Expr} (h : identity op a b = some e) (w : Nat) :
    (mkBin op a b).eval ρ % 2 ^ w = op.eval w (a.eval ρ) (b.eval ρ) := by
  unfold mkBin
  cases hf : folded op a b with
  | none =>
    simp only [h]
    exact identity_eval h w
  | some v =>
    -- both operands are constants of the width `a` has, so the identity's operand fits it
    have hlt : e.eval ρ < 2 ^ a.width := by
      simp only [folded] at hf
      cases hx : a.asConst with
      | none => simp [hx] at hf
      | some x =>
        cases hy : b.asConst with
        | none => simp [hx, hy] at hf
        | some y =>
          simp only [hx, hy] at hf
          split_ifs at hf with hw
          have hwa := (asConst_eq (ρ := ρ) hx).1
          rcases identity_mem h with rfl | rfl
          · exact hwa ▸ eval_lt_of_asConst hx
          · exact hwa ▸ hw ▸ eval_lt_of_asConst hy
    have hv : v % 2 ^ a.width = e.eval ρ := by
      rw [folded_eval hf (ρ := ρ), ← identity_eval h a.width, Nat.mod_eq_of_lt hlt]
    simp only
    rw [eval_int, hv]
    exact identity_eval h w

/-- What `bin` builds is the operation at the width of its left operand, unless an identity fires. -/
theorem eval_mkBin {op : BvOp} {a b : Expr} (h : identity op a b = none) :
    (mkBin op a b).eval ρ = op.eval a.width (a.eval ρ) (b.eval ρ) := by
  unfold mkBin
  cases hf : folded op a b with
  | some v =>
    simp only
    rw [eval_int, folded_eval hf]
  | none =>
    simp only [h]
    split_ifs with hab
    · obtain ⟨rfl, rfl⟩ := hab
      simp [eval_int, BvOp.eval, BvOp.evalBv]
    · rfl

end Expr

end Csolver
