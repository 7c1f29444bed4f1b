import Csolver.Solver.Arith

/-!
# The circuits over `BitVec`

`bv w m ls` is the bit-vector the literals `ls` spell. Here every circuit of the previous module, the
signed ones and the wiring (shifts, bitwise operations, comparisons) are stated as the `BitVec`
operation they implement.
-/

namespace Csolver.Sat

open Csolver.Lib

/-- The bit-vector a literal list spells. -/
def bv (w : Nat) (m : Nat → Bool) (ls : List Lit) : BitVec w := BitVec.ofNat w (num m ls)

theorem toNat_bv {w : Nat} {m : Nat → Bool} {ls : List Lit} (h : ls.length = w) :
    (bv w m ls).toNat = num m ls := by
  have hlt := num_lt m ls
  rw [h] at hlt
  rw [bv, BitVec.toNat_ofNat, Nat.mod_eq_of_lt hlt]

theorem getLsbD_bv {w : Nat} {m : Nat → Bool} {ls : List Lit} (h : ls.length = w) (i : Nat) :
    (bv w m ls).getLsbD i = (vals m ls).getD i false := by
  rw [← BitVec.testBit_toNat, toNat_bv h, num, Bits.testBit_value]

theorem getD_vals {m : Nat → Bool} {ls : List Lit} {i : Nat} (h : i < ls.length) :
    (vals m ls).getD i false = litVal m (ls.getD i default) := by
  rw [vals, List.getD_eq_getElem _ _ (by simpa using h), List.getElem_map,
    List.getD_eq_getElem _ _ h]

theorem bv_ext {w : Nat} {m : Nat → Bool} {ls : List Lit} {x : BitVec w} (h : ls.length = w)
    (hx : ∀ i < w, (vals m ls).getD i false = x.getLsbD i) : bv w m ls = x := by
  refine BitVec.eq_of_getLsbD_eq fun i hi => ?_
  rw [getLsbD_bv h, hx i hi]

theorem bv_congr {w : Nat} {m : Nat → Bool} {as bs : List Lit} (h : vals m as = vals m bs) :
    bv w m as = bv w m bs := by
  rw [bv, bv, num, num, h]

theorem msb_bv {w : Nat} {m : Nat → Bool} {ls : List Lit} (h : ls.length = w) (hw : 0 < w) :
    (bv w m ls).msb = litVal m (Cnf.signBit ls) := by
  have hne : ls ≠ [] := by
    intro hc
    rw [hc] at h
    simp at h
    omega
  have hlast : Cnf.signBit ls = ls.getD (ls.length - 1) default := by
    rw [Cnf.signBit, List.getLastD_eq_getLast?, List.getLast?_eq_getElem?,
      List.getD_eq_getElem?_getD]
  rw [BitVec.msb_eq_getLsbD_last, getLsbD_bv h, hlast, ← h]
  exact getD_vals (by omega)

theorem signBit_mem {ls : List Lit} (h : 0 < ls.length) : Cnf.signBit ls ∈ ls := by
  match ls, h with
  | l :: ls, _ =>
    rw [Cnf.signBit, List.getLastD_cons]
    exact List.getLastD_mem_cons

theorem bv_replicate {w : Nat} {m : Nat → Bool} {l : Lit} :
    bv w m (List.replicate w l) = if litVal m l then BitVec.allOnes w else 0 := by
  refine bv_ext (List.length_replicate ..) fun i hi => ?_
  rw [vals, List.map_replicate, List.getD_eq_getElem _ _ (by simpa using hi),
    List.getElem_replicate]
  cases litVal m l <;> simp [hi]

namespace Cnf

/-! ## Arithmetic -/

theorem add_bv {c : Cnf} (h : c.Ok) {w : Nat} {a b : List Lit} (ha : c.In a) (hb : c.In b)
    (hla : a.length = w) (hlb : b.length = w) :
    Builds (add a b) c fun m r => r.length = w ∧ bv w m r = bv w m a + bv w m b := by
  refine (add_builds h ha hb (hla.trans hlb.symm)).mono fun m r hr => ?_
  refine ⟨hr.1.trans hla, BitVec.eq_of_toNat_eq ?_⟩
  rw [toNat_bv (hr.1.trans hla), BitVec.toNat_add, toNat_bv hla, toNat_bv hlb, hr.2, hla]

theorem sub_bv {c : Cnf} (h : c.Ok) {w : Nat} {a b : List Lit} (ha : c.In a) (hb : c.In b)
    (hla : a.length = w) (hlb : b.length = w) :
    Builds (sub a b) c fun m r => r.length = w ∧ bv w m r = bv w m a - bv w m b := by
  refine (sub_builds h ha hb (hla.trans hlb.symm)).mono fun m r hr => ?_
  refine ⟨hr.1.trans hla, BitVec.eq_of_toNat_eq ?_⟩
  rw [toNat_bv (hr.1.trans hla), BitVec.toNat_sub, toNat_bv hla, toNat_bv hlb, hr.2, hla,
    Nat.add_comm]

theorem mul_bv {c : Cnf} (h : c.Ok) {w : Nat} {a b : List Lit} (ha : c.In a) (hb : c.In b)
    (hla : a.length = w) (hlb : b.length = w) :
    Builds (mul a b) c fun m r => r.length = w ∧ bv w m r = bv w m a * bv w m b := by
  refine (mul_builds h ha hb (hla.trans hlb.symm)).mono fun m r hr => ?_
  refine ⟨hr.1.trans hla, BitVec.eq_of_toNat_eq ?_⟩
  rw [toNat_bv (hr.1.trans hla), BitVec.toNat_mul, toNat_bv hla, toNat_bv hlb, hr.2, hla]

theorem negate_bv {c : Cnf} (h : c.Ok) {w : Nat} {a : List Lit} (ha : c.In a)
    (hla : a.length = w) :
    Builds (negate a) c fun m r => r.length = w ∧ bv w m r = -bv w m a := by
  refine (negate_builds h ha).mono fun m r hr => ?_
  refine ⟨hr.1.trans hla, BitVec.eq_of_toNat_eq ?_⟩
  rw [toNat_bv (hr.1.trans hla), BitVec.toNat_neg, toNat_bv hla, hr.2, hla]

theorem muxVec_bv {c : Cnf} (h : c.Ok) {w : Nat} {s : Lit} {as bs : List Lit}
    (hs : s.var < c.numVars) (ha : c.In as) (hb : c.In bs) (hla : as.length = w)
    (hlb : bs.length = w) :
    Builds (muxVec s as bs) c fun m r => r.length = w ∧
      bv w m r = if litVal m s then bv w m as else bv w m bs := by
  refine (muxVec_builds h hs ha hb (hla.trans hlb.symm)).mono fun m r hr => ?_
  refine ⟨hr.1.trans hla, ?_⟩
  have hv := hr.2
  cases hc : litVal m s with
  | true =>
    rw [hc] at hv
    exact bv_congr hv
  | false =>
    rw [hc] at hv
    exact bv_congr hv

theorem udivrem_bv {c : Cnf} (h : c.Ok) {w : Nat} {a b : List Lit} (ha : c.In a) (hb : c.In b)
    (hla : a.length = w) (hlb : b.length = w) :
    Builds (udivrem a b) c fun m r => (r.1.length = w ∧ r.2.length = w) ∧
      bv w m r.1 = (bv w m a).smtUDiv (bv w m b) ∧ bv w m r.2 = (bv w m a).umod (bv w m b) := by
  refine (udivrem_builds h ha hb (hla.trans hlb.symm)).mono fun m r hr => ?_
  obtain ⟨hl₁, hl₂, hq, hrem⟩ := hr
  have hzero : bv w m b = 0#w ↔ num m b = 0 := by
    rw [← toNat_bv hlb]
    constructor
    · intro he; rw [he]; rfl
    · intro he; exact BitVec.eq_of_toNat_eq he
  refine ⟨⟨hl₁.trans hla, hl₂.trans hla⟩, ?_, ?_⟩
  · refine BitVec.eq_of_toNat_eq ?_
    rw [toNat_bv (hl₁.trans hla), hq, quotient, BitVec.smtUDiv_eq, hla]
    by_cases hz : num m b = 0
    · rw [if_pos hz, if_pos (hzero.mpr hz), BitVec.toNat_allOnes]
    · rw [if_neg hz, if_neg fun hc => hz (hzero.mp hc), BitVec.toNat_udiv, toNat_bv hla,
        toNat_bv hlb]
  · refine BitVec.eq_of_toNat_eq ?_
    show _ = (bv w m a % bv w m b).toNat
    rw [toNat_bv (hl₂.trans hla), hrem, remainder, BitVec.toNat_umod, toNat_bv hla, toNat_bv hlb]
    by_cases hz : num m b = 0
    · rw [if_pos hz, hz, Nat.mod_zero]
    · rw [if_neg hz]

theorem absSign_bv {c : Cnf} (h : c.Ok) {w : Nat} {a : List Lit} (ha : c.In a)
    (hla : a.length = w) (hw : 0 < w) :
    Builds (absSign a) c fun m r => r.1.length = w ∧
      (bv w m r.1 = if (bv w m a).msb then -bv w m a else bv w m a) ∧
      litVal m r.2 = (bv w m a).msb := by
  have hsign : (signBit a).var < c.numVars := ha _ (signBit_mem (by omega))
  refine (negate_bv h ha hla).bind fun nega c₁ hx₁ h₁ hn hq₁ => ?_
  have hln : nega.length = w := h₁.fact fun m hm => (hq₁ m hm).1
  have hs₁ := Nat.lt_of_lt_of_le hsign hx₁.le
  refine (muxVec_bv h₁ hs₁ hn (ha.mono hx₁) hln hla).bind fun mag c₂ hx₂ h₂ hmag _ => ?_
  refine Builds.pure h₂ ⟨hmag, Nat.lt_of_lt_of_le hs₁ hx₂.le⟩ fun m _ e₂ e₁ => ?_
  refine ⟨e₂.1, ?_, (msb_bv hla hw).symm⟩
  rw [e₂.2, e₁.2, msb_bv hla hw]

/-- **Signed division**: magnitudes divided, signs put back. -/
theorem sdivrem_bv {c : Cnf} (h : c.Ok) {w : Nat} {a b : List Lit} (ha : c.In a) (hb : c.In b)
    (hla : a.length = w) (hlb : b.length = w) (hw : 0 < w) :
    Builds (sdivrem a b) c fun m r => (r.1.length = w ∧ r.2.length = w) ∧
      bv w m r.1 = (bv w m a).smtSDiv (bv w m b) ∧ bv w m r.2 = (bv w m a).srem (bv w m b) := by
  refine (absSign_bv h ha hla hw).bind fun r₁ c₁ hx₁ h₁ hr₁ hq₁ => ?_
  obtain ⟨ma, sa⟩ := r₁
  have hlma : ma.length = w := h₁.fact fun m hm => (hq₁ m hm).1
  refine (absSign_bv h₁ (hb.mono hx₁) hlb hw).bind fun r₂ c₂ hx₂ h₂ hr₂ hq₂ => ?_
  obtain ⟨mb, sb⟩ := r₂
  have hlmb : mb.length = w := h₂.fact fun m hm => (hq₂ m hm).1
  refine (udivrem_bv h₂ (In.mono hr₁.1 hx₂) hr₂.1 hlma hlmb).bind fun r₃ c₃ hx₃ h₃ hr₃ hq₃ => ?_
  obtain ⟨uq, ur⟩ := r₃
  have hluq : uq.length = w := h₃.fact fun m hm => (hq₃ m hm).1.1
  have hlur : ur.length = w := h₃.fact fun m hm => (hq₃ m hm).1.2
  have hsa₃ := Nat.lt_of_lt_of_le hr₁.2 (hx₂.trans hx₃).le
  refine (xor2_builds h₃ hsa₃ (Nat.lt_of_lt_of_le hr₂.2 hx₃.le)).bind
    fun qsign c₄ hx₄ h₄ hqs _ => ?_
  refine (negate_bv h₄ (In.mono hr₃.1 hx₄) hluq).bind fun negUq c₅ hx₅ h₅ hnq hq₅ => ?_
  have hlnq : negUq.length = w := h₅.fact fun m hm => (hq₅ m hm).1
  refine (muxVec_bv h₅ (Nat.lt_of_lt_of_le hqs hx₅.le) hnq (In.mono hr₃.1 (hx₄.trans hx₅)) hlnq
    hluq).bind fun quot c₆ hx₆ h₆ hquot _ => ?_
  refine (negate_bv h₆ (In.mono hr₃.2 ((hx₄.trans hx₅).trans hx₆)) hlur).bind
    fun negUr c₇ hx₇ h₇ hnr hq₇ => ?_
  have hlnr : negUr.length = w := h₇.fact fun m hm => (hq₇ m hm).1
  have hx₃₇ := ((hx₄.trans hx₅).trans hx₆).trans hx₇
  refine (muxVec_bv h₇ (Nat.lt_of_lt_of_le hsa₃ hx₃₇.le) hnr (In.mono hr₃.2 hx₃₇) hlnr hlur).bind
    fun rem c₈ hx₈ h₈ hrem _ => ?_
  refine Builds.pure h₈ ⟨In.mono hquot (hx₇.trans hx₈), hrem⟩ fun m _ e₈ e₇ e₆ e₅ e₄ e₃ e₂ e₁ => ?_
  refine ⟨⟨e₆.1, e₈.1⟩, ?_, ?_⟩
  · show bv w m quot = _
    rw [e₆.2, e₅.2, e₄, e₃.2.1, e₁.2.2, e₂.2.2, e₁.2.1, e₂.2.1, BitVec.smtSDiv]
    cases (bv w m a).msb <;> cases (bv w m b).msb <;> rfl
  · show bv w m rem = _
    rw [e₈.2, e₇.2, e₃.2.2, e₁.2.2, e₁.2.1, e₂.2.1, BitVec.srem]
    cases (bv w m a).msb <;> cases (bv w m b).msb <;> rfl

/-! ## Bitwise operations -/

theorem getD_map_zip {m : Nat → Bool} {a b : List Lit} {f : Bool → Bool → Bool} {i : Nat}
    (hlen : a.length = b.length) (hi : i < a.length) :
    ((a.zip b).map fun p => f (litVal m p.1) (litVal m p.2)).getD i false =
      f ((vals m a).getD i false) ((vals m b).getD i false) := by
  have hzip : i < (a.zip b).length := by
    rw [List.length_zip, ← hlen, Nat.min_self]
    exact hi
  rw [getD_vals hi, getD_vals (hlen ▸ hi), List.getD_eq_getElem _ _ (by simpa using hzip),
    List.getElem_map, List.getElem_zip, List.getD_eq_getElem _ _ hi,
    List.getD_eq_getElem _ _ (hlen ▸ hi)]

theorem zipGate_bv {c : Cnf} (h : c.Ok) {w : Nat} {a b : List Lit} (ha : c.In a) (hb : c.In b)
    (hla : a.length = w) (hlb : b.length = w) {gate : Lit → Lit → CnfM Lit}
    {f : Bool → Bool → Bool} {g : BitVec w → BitVec w → BitVec w}
    (hgate : ∀ {c : Cnf}, c.Ok → ∀ {a b : Lit}, a.var < c.numVars → b.var < c.numVars →
      Builds (gate a b) c fun m o => litVal m o = f (litVal m a) (litVal m b))
    (hg : ∀ x y i, i < w → (g x y).getLsbD i = f (x.getLsbD i) (y.getLsbD i)) :
    Builds ((a.zip b).mapM fun p => gate p.1 p.2) c fun m r => r.length = w ∧
      bv w m r = g (bv w m a) (bv w m b) := by
  have hlen : a.length = b.length := hla.trans hlb.symm
  refine (mapM_builds (f := fun p : Lit × Lit => gate p.1 p.2)
    (g := fun m p => f (litVal m p.1) (litVal m p.2))
    (fun _ hd p (hp : p.1.var < _ ∧ p.2.var < _) => hgate hd hp.1 hp.2) _ (Store.Extends.refl _) h
    (below_zip ha hb)).mono fun m r hr => ?_
  have hl : r.length = w := by rw [hr.1, List.length_zip, hla, hlb, Nat.min_self]
  refine ⟨hl, bv_ext hl fun i hi => ?_⟩
  rw [hr.2, getD_map_zip hlen (by omega), hg _ _ _ hi, getLsbD_bv hla, getLsbD_bv hlb]

theorem bitwise_bv {c : Cnf} (h : c.Ok) {w : Nat} {op : BvOp} {a b : List Lit} (ha : c.In a)
    (hb : c.In b) (hla : a.length = w) (hlb : b.length = w)
    (hop : op = .and ∨ op = .or ∨ op = .xor) :
    Builds (bitwise op a b) c fun m r => r.length = w ∧
      bv w m r = op.evalBv (bv w m a) (bv w m b) := by
  rcases hop with rfl | rfl | rfl
  · exact zipGate_bv h ha hb hla hlb and2_builds fun x y i _ => BitVec.getLsbD_and
  · exact zipGate_bv h ha hb hla hlb or2_builds fun x y i _ => BitVec.getLsbD_or
  · exact zipGate_bv h ha hb hla hlb xor2_builds fun x y i _ => BitVec.getLsbD_xor

/-! ## Shifts -/

/-- A shift operator by a number of positions. -/
def shiftBv {w : Nat} (op : BvOp) (x : BitVec w) (n : Nat) : BitVec w :=
  match op with
  | .shl => x <<< n
  | .lshr => x >>> n
  | _ => x.sshiftRight n

theorem shiftBv_zero {w : Nat} (op : BvOp) (x : BitVec w) : shiftBv op x 0 = x := by
  cases op <;> simp [shiftBv]

theorem shiftBv_add {w : Nat} (op : BvOp) (x : BitVec w) (n k : Nat) :
    shiftBv op (shiftBv op x n) k = shiftBv op x (n + k) := by
  cases op <;> simp [shiftBv, BitVec.shiftLeft_add, BitVec.shiftRight_add, BitVec.sshiftRight_add]

def fillBv {w : Nat} (op : BvOp) (x : BitVec w) : Bool := decide (op = .ashr) && x.msb

theorem fillBv_shift {w : Nat} {op : BvOp} (x : BitVec w) (n : Nat) :
    fillBv op (shiftBv op x n) = fillBv op x := by
  cases op <;> simp [fillBv, shiftBv, BitVec.msb_sshiftRight]

/-- The operators the shifters are called with. -/
def IsShift (op : BvOp) : Prop := op = .shl ∨ op = .lshr ∨ op = .ashr

theorem shiftWires_length (op : BvOp) (zero fill : Lit) (amt : Nat) (x : List Lit) :
    (shiftWires op zero fill amt x).length = x.length := by
  rw [shiftWires, List.length_map, List.length_range]

theorem shiftWires_in {c : Cnf} {op : BvOp} {zero fill : Lit} {amt : Nat} {x : List Lit}
    (hz : zero.var < c.numVars) (hf : fill.var < c.numVars) (hx : c.In x) :
    c.In (shiftWires op zero fill amt x) := by
  have hget : ∀ i, i < x.length → (x.getD i default).var < c.numVars := by
    intro i hi
    rw [List.getD_eq_getElem _ _ hi]
    exact hx _ (List.getElem_mem hi)
  intro l hl
  obtain ⟨i, hi, rfl⟩ := List.mem_map.mp hl
  have hi' := List.mem_range.mp hi
  cases op <;> simp only <;> split_ifs with hc <;>
    first
      | exact hget _ (by omega)
      | exact hz
      | exact hf

theorem shiftWires_bv {w : Nat} {op : BvOp} (hop : IsShift op) {m : Nat → Bool} {zero fill : Lit}
    {x : List Lit} (hl : x.length = w) (hz : litVal m zero = false)
    (hf : litVal m fill = fillBv op (bv w m x)) (amt : Nat) :
    bv w m (shiftWires op zero fill amt x) = shiftBv op (bv w m x) amt := by
  have hlen := (shiftWires_length op zero fill amt x).trans hl
  refine bv_ext hlen fun i hi => ?_
  rw [getD_vals (by omega), shiftWires, List.getD_eq_getElem _ _ (by simpa [hl] using hi),
    List.getElem_map, List.getElem_range]
  have hget : ∀ j, j < w → litVal m (x.getD j default) = (bv w m x).getLsbD j := by
    intro j hj
    rw [getLsbD_bv hl, getD_vals (hl ▸ hj)]
  rcases hop with rfl | rfl | rfl
  · simp only [shiftBv, BitVec.getLsbD_shiftLeft]
    by_cases hc : amt ≤ i
    · rw [if_pos hc, hget _ (by omega)]
      simp [hi, hc]
    · rw [if_neg hc, hz]
      simp [Nat.lt_of_not_le hc]
  · simp only [shiftBv, BitVec.getLsbD_ushiftRight, hl]
    by_cases hc : i + amt < w
    · rw [if_pos hc, hget _ hc, Nat.add_comm]
    · rw [if_neg hc, hf]
      simp only [fillBv]
      rw [BitVec.getLsbD_of_ge _ _ (by omega)]
      rfl
  · simp only [shiftBv, BitVec.getLsbD_sshiftRight, hl]
    by_cases hc : i + amt < w
    · rw [if_pos hc, hget _ hc, if_pos (by omega), Nat.add_comm]
      simp [hi]
    · rw [if_neg hc, hf, if_neg (by omega)]
      simp [fillBv, hi]

theorem shiftStages_bv {w : Nat} {op : BvOp} (hop : IsShift op) {zero fill : Lit}
    (cs : List Lit) :
    ∀ {c : Cnf} {k : Nat} {x : List Lit}, c.Ok → zero.var < c.numVars → fill.var < c.numVars →
      c.In cs → c.In x → x.length = w →
      Builds (shiftStages op zero fill cs k x) c fun m r => r.length = w ∧
        (litVal m zero = false → litVal m fill = fillBv op (bv w m x) →
          bv w m r = shiftBv op (bv w m x) (2 ^ k * num m cs)) := by
  induction cs with
  | nil =>
    intro c k x h _ _ _ hx hl
    refine Builds.pure h hx fun m _ => ⟨hl, fun _ _ => ?_⟩
    rw [num_nil, Nat.mul_zero, shiftBv_zero]
  | cons ctrl cs ih =>
    intro c k x h hz hf hcs hx hl
    have hsl := (shiftWires_length op zero fill (2 ^ k) x).trans hl
    refine (muxVec_bv h (hcs ctrl List.mem_cons_self) (shiftWires_in hz hf hx) hx hsl hl).bind
      fun x' c₁ hx₁ h₁ hx' hq₁ => ?_
    have hl' : x'.length = w := h₁.fact fun m hm => (hq₁ m hm).1
    have hcs' : c₁.In cs := fun l hl =>
      Nat.lt_of_lt_of_le (hcs l (List.mem_cons_of_mem _ hl)) hx₁.le
    refine (ih h₁ (Nat.lt_of_lt_of_le hz hx₁.le) (Nat.lt_of_lt_of_le hf hx₁.le) hcs' hx' hl').mono
      fun m r hr hmux => ?_
    refine ⟨hr.1, fun hzero hfill => ?_⟩
    have hstep : bv w m x' = shiftBv op (bv w m x) (2 ^ k * (litVal m ctrl).toNat) := by
      rw [hmux.2, shiftWires_bv hop hl hzero hfill]
      cases litVal m ctrl with
      | true => rw [if_pos rfl, Bool.toNat_true, Nat.mul_one]
      | false => rw [Bool.toNat_false, Nat.mul_zero, shiftBv_zero]; rfl
    rw [hr.2 hzero (by rw [hfill, hstep, fillBv_shift]), hstep, shiftBv_add, num_cons, Nat.pow_succ]
    congr 1
    ring

theorem le_two_pow_stages (w : Nat) : w ≤ 2 ^ stages w := by
  unfold stages
  by_cases hw : w ≤ 1
  · rw [if_pos hw]
    exact hw
  · rw [if_neg hw]
    have := Nat.lt_log2_self (n := w - 1)
    omega

theorem shiftBv_of_le {w : Nat} {op : BvOp} (hop : IsShift op) (x : BitVec w) {n : Nat}
    (h : w ≤ n) : shiftBv op x n = if fillBv op x then BitVec.allOnes w else 0 := by
  rcases hop with rfl | rfl | rfl
  · rw [shiftBv, BitVec.shiftLeft_eq_zero h]
    rfl
  · rw [shiftBv, BitVec.ushiftRight_eq_zero h]
    rfl
  · refine BitVec.eq_of_getLsbD_eq fun i hi => ?_
    show (x.sshiftRight n).getLsbD i = _
    rw [BitVec.getLsbD_sshiftRight, if_neg (by omega)]
    simp only [fillBv, decide_true, Bool.true_and]
    cases x.msb <;> simp [hi]

theorem any_vals {m : Nat → Bool} (ls : List Lit) :
    ls.any (litVal m) = decide (num m ls ≠ 0) := by
  induction ls with
  | nil => rfl
  | cons l ls ih =>
    rw [List.any_cons, ih, num_cons]
    cases litVal m l with
    | true => simp
    | false => simp

/-- **The barrel shifter** with its out-of-range override shifts, at any width. -/
theorem shiftVar_bv {c : Cnf} (h : c.Ok) {w : Nat} {op : BvOp} (hop : IsShift op) {a b : List Lit}
    (ha : c.In a) (hb : c.In b) (hla : a.length = w) (hlb : b.length = w) (hw : 0 < w) :
    Builds (shiftVar op a b) c fun m r => r.length = w ∧
      bv w m r = shiftBv op (bv w m a) (num m b) := by
  refine (litFalse_builds h).bind fun zero c₁ hx₁ h₁ hz _ => ?_
  have hsign : (signBit a).var < c₁.numVars := ha.mono hx₁ _ (signBit_mem (by omega))
  set fill := if op = .ashr then signBit a else zero with hfilldef
  have hfill : fill.var < c₁.numVars := by
    rw [hfilldef]
    split_ifs
    · exact hsign
    · exact hz
  have hfillv : ∀ m, litVal m zero = false → litVal m fill = fillBv op (bv w m a) := by
    intro m hzero
    rw [hfilldef, fillBv, msb_bv hla hw]
    by_cases hc : op = .ashr
    · simp [hc]
    · simp [hc, hzero]
  have hbt : c₁.In (b.take (stages a.length)) := (hb.mono hx₁).take _
  refine (shiftStages_bv hop (k := 0) _ h₁ hz hfill hbt (ha.mono hx₁) hla).bind
    fun x c₂ hx₂ h₂ hx hq₂ => ?_
  have hlx : x.length = w := h₂.fact fun m hm => (hq₂ m hm).1
  have hbd : c₂.In (b.drop (min (stages a.length) a.length)) := fun l hl =>
    hb.mono (hx₁.trans hx₂) l (List.mem_of_mem_drop hl)
  refine (bigOr_builds h₂ hbd).bind fun oob c₃ hx₃ h₃ hoob _ => ?_
  have hrep : c₃.In (List.replicate a.length fill) :=
    In.replicate (Nat.lt_of_lt_of_le hfill (hx₂.trans hx₃).le) _
  refine (muxVec_bv h₃ hoob hrep (In.mono hx hx₃)
    ((List.length_replicate ..).trans hla) hlx).mono fun m r hr hov hxv hzero => ?_
  refine ⟨hr.1, ?_⟩
  have hsplit : num m b = num m (b.take (stages a.length)) +
      2 ^ min (stages a.length) a.length * num m (b.drop (min (stages a.length) a.length)) := by
    have happ := num_append m (b.take (min (stages a.length) a.length))
      (b.drop (min (stages a.length) a.length))
    rw [List.take_append_drop, List.length_take, hlb, ← hla,
      Nat.min_eq_left (Nat.min_le_right _ _)] at happ
    rw [happ]
    congr 2
    rw [List.take_eq_take_iff, hlb, hla]
    omega
  rw [hr.2, hov, any_vals]
  by_cases hd : num m (b.drop (min (stages a.length) a.length)) = 0
  · rw [if_neg (by simp [hd]), hxv.2 hzero (hfillv m hzero), hsplit, hd, Nat.mul_zero, Nat.add_zero,
      Nat.pow_zero, Nat.one_mul]
  · -- some higher amount bit is set, so the amount reaches the width
    have hne : b.drop (min (stages a.length) a.length) ≠ [] := by
      intro hc
      rw [hc] at hd
      exact hd rfl
    have hlt : stages a.length < a.length := by
      refine Nat.lt_of_not_le fun hge => hne ?_
      rw [Nat.min_eq_right hge, hla, ← hlb, List.drop_length]
    have hbig : w ≤ num m b := by
      have h₁ := le_two_pow_stages a.length
      rw [Nat.min_eq_left (Nat.le_of_lt hlt)] at hsplit hd
      have h₂ : 2 ^ stages a.length ≤ 2 ^ stages a.length * num m (b.drop (stages a.length)) :=
        Nat.le_mul_of_pos_right _ (Nat.pos_of_ne_zero hd)
      omega
    rw [if_pos (by simp [hd]), shiftBv_of_le hop _ hbig, hla, bv_replicate, hfillv m hzero]

/-! ## Comparisons -/

theorem eq_bv {c : Cnf} (h : c.Ok) {w : Nat} {a b : List Lit} (ha : c.In a) (hb : c.In b)
    (hla : a.length = w) (hlb : b.length = w) :
    Builds (eq a b) c fun m o => litVal m o = (bv w m a == bv w m b) := by
  refine (mapM_builds (f := fun p : Lit × Lit => iff p.1 p.2)
    (g := fun m p => litVal m p.1 == litVal m p.2)
    (fun _ hd p (hp : p.1.var < _ ∧ p.2.var < _) => iff_builds hd hp.1 hp.2) _ (Store.Extends.refl _)
    h (below_zip ha hb)).bind fun bits c₁ hx₁ h₁ hbits _ => ?_
  refine (bigAnd_builds h₁ hbits).mono fun m o ho hr => ?_
  have hlen : a.length = b.length := hla.trans hlb.symm
  have hall : bits.all (litVal m) = (vals m bits).all id := by
    rw [vals, List.all_map]
    rfl
  rw [ho, hall, hr.2, Bool.eq_iff_iff, beq_iff_eq, List.all_map, List.all_eq_true]
  constructor
  · intro hb'
    have : vals m a = vals m b := by
      refine List.ext_getElem (by simp [hlen]) fun i hi hi' => ?_
      rw [vals_length] at hi hi'
      have hmem : (a[i], b[i]) ∈ a.zip b := by
        refine List.mem_of_getElem? (i := i) ?_
        rw [List.getElem?_eq_getElem (by simp [hlen, hi']), List.getElem_zip]
      have := hb' _ hmem
      simpa [vals] using this
    exact bv_congr this
  · intro he p hp
    obtain ⟨i, hi, hip⟩ := List.getElem_of_mem hp
    rw [List.length_zip, ← hlen, Nat.min_self] at hi
    rw [List.getElem_zip] at hip
    have hbit := congrArg (fun x => x.getLsbD i) he
    simp only [getLsbD_bv hla, getLsbD_bv hlb, getD_vals hi, getD_vals (hlen ▸ hi),
      List.getD_eq_getElem _ _ hi, List.getD_eq_getElem _ _ (hlen ▸ hi)] at hbit
    rw [← hip]
    simpa using hbit

theorem ult_bv {c : Cnf} (h : c.Ok) {w : Nat} {a b : List Lit} (ha : c.In a) (hb : c.In b)
    (hla : a.length = w) (hlb : b.length = w) :
    Builds (ult a b) c fun m o => litVal m o = (bv w m a).ult (bv w m b) := by
  refine (subWithBorrow_builds h ha hb (hla.trans hlb.symm)).bind fun r c₁ _ h₁ hr _ => ?_
  refine Builds.pure h₁ hr.2 fun m _ e => ?_
  rw [litVal_negated, BitVec.ult_eq_decide, toNat_bv hla, toNat_bv hlb]
  by_cases hlt : num m a < num m b
  · have : litVal m r.2 = false := by
      cases hv : litVal m r.2 with
      | false => rfl
      | true => exact absurd (e.2.2.mp hv) (Nat.not_le_of_lt hlt)
    rw [this]
    simp [hlt]
  · rw [e.2.2.mpr (Nat.le_of_not_lt hlt)]
    simp [hlt]

theorem slt_of_signs {w : Nat} (x y : BitVec w) :
    x.slt y = if (x.msb ^^ y.msb) then x.msb else x.ult y := by
  have hlt : ∀ {x y : BitVec w}, x.msb = false → y.msb = true → x.ult y = true := by
    intro x y hx hy
    rw [BitVec.msb_eq_decide, decide_eq_false_iff_not, Nat.not_le] at hx
    rw [BitVec.msb_eq_decide, decide_eq_true_eq] at hy
    rw [BitVec.ult_eq_decide, decide_eq_true_eq]
    exact Nat.lt_of_lt_of_le hx hy
  rw [BitVec.slt_eq_ult]
  cases hx : x.msb <;> cases hy : y.msb
  · simp
  · simp [hlt hx hy]
  · have hge := hlt hy hx
    have : x.ult y = false := by
      rw [BitVec.ult_eq_decide, decide_eq_true_eq] at hge
      rw [BitVec.ult_eq_decide, decide_eq_false_iff_not]
      exact Nat.not_lt_of_lt hge
    simp [this]
  · simp

theorem slt_bv {c : Cnf} (h : c.Ok) {w : Nat} {a b : List Lit} (ha : c.In a) (hb : c.In b)
    (hla : a.length = w) (hlb : b.length = w) (hw : 0 < w) :
    Builds (slt a b) c fun m o => litVal m o = (bv w m a).slt (bv w m b) := by
  have hsa : (signBit a).var < c.numVars := ha _ (signBit_mem (by omega))
  have hsb : (signBit b).var < c.numVars := hb _ (signBit_mem (by omega))
  refine (xor2_builds h hsa hsb).bind fun d c₁ hx₁ h₁ hd _ => ?_
  refine (ult_bv h₁ (ha.mono hx₁) (hb.mono hx₁) hla hlb).bind fun u c₂ hx₂ h₂ hu _ => ?_
  refine (mux_builds h₂ (Nat.lt_of_lt_of_le hd hx₂.le)
    (Nat.lt_of_lt_of_le hsa (hx₁.trans hx₂).le) hu).mono fun m o ho hult hxor => ?_
  rw [ho, hult, hxor, slt_of_signs, ← msb_bv hla hw, ← msb_bv hlb hw]

theorem not_builds {c : Cnf} {x : CnfM Lit} {f : (Nat → Bool) → Bool}
    (hx : Builds x c fun m o => litVal m o = f m) :
    Builds (do return (← x).negated) c fun m o => litVal m o = !f m := by
  refine hx.bind fun o c₁ _ h₁ ho _ => ?_
  exact Builds.pure h₁ ho fun m _ e => by rw [litVal_negated, e]

/-- **The comparators** decide every predicate. -/
theorem compare_bv {c : Cnf} (h : c.Ok) {w : Nat} (op : CmpOp) {a b : List Lit} (ha : c.In a)
    (hb : c.In b) (hla : a.length = w) (hlb : b.length = w) (hw : 0 < w) :
    Builds (compare op a b) c fun m o => litVal m o = op.evalBv (bv w m a) (bv w m b) := by
  cases op with
  | eq => exact eq_bv h ha hb hla hlb
  | ne => exact not_builds (eq_bv h ha hb hla hlb)
  | ult => exact ult_bv h ha hb hla hlb
  | ule =>
    refine (not_builds (ult_bv h hb ha hlb hla)).mono fun m o ho => ?_
    rw [ho]
    exact (BitVec.ule_eq_not_ult _ _).symm
  | ugt => exact ult_bv h hb ha hlb hla
  | uge =>
    refine (not_builds (ult_bv h ha hb hla hlb)).mono fun m o ho => ?_
    rw [ho]
    exact (BitVec.ule_eq_not_ult _ _).symm
  | slt => exact slt_bv h ha hb hla hlb hw
  | sle =>
    refine (not_builds (slt_bv h hb ha hlb hla hw)).mono fun m o ho => ?_
    rw [ho]
    exact BitVec.sle_eq_not_slt.symm
  | sgt => exact slt_bv h hb ha hlb hla hw
  | sge =>
    refine (not_builds (slt_bv h ha hb hla hlb hw)).mono fun m o ho => ?_
    rw [ho]
    exact BitVec.sle_eq_not_slt.symm

end Cnf

end Csolver.Sat
