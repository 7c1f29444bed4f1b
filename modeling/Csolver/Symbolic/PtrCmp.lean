import Csolver.Symbolic.Machine

/-!
# When a pointer comparison is the comparison of the addresses (`exec/eval.rs`)

`eval_ptr_aware_cmp` never compares two addresses. Within one region it compares the offsets;
otherwise it compares the scalars of the operands, and a scalar drops the offset of a null or of an
identified opaque pointer. `cmpValues_right_iff` says exactly when the result is still the machine
comparison, for a suitable value of the symbols the call made fresh.
-/

namespace Csolver

namespace CmpOp

def isEquality (op : CmpOp) : Prop := op = eq ∨ op = ne

instance (op : CmpOp) : Decidable op.isEquality := inferInstanceAs (Decidable (_ ∨ _))

def isSigned : CmpOp → Bool
  | slt | sle | sgt | sge => true
  | _ => false

/-- The place of a word in the order an operator uses: counted from zero, or from the most negative
    word if it is signed. -/
def rank (op : CmpOp) (x : Nat) : Nat := (x + if op.isSigned then 2 ^ 63 else 0) % 2 ^ 64

def ord (op : CmpOp) (x y : Nat) : Bool :=
  match op with
  | ult | slt => decide (x < y)
  | ule | sle => decide (x ≤ y)
  | ugt | sgt => decide (y < x)
  | _ => decide (y ≤ x)

theorem rank_lt (op : CmpOp) (x : Nat) : op.rank x < 2 ^ 64 := Nat.mod_lt _ (by norm_num)

theorem toInt_ofNat_64 (x : Nat) :
    (BitVec.ofNat 64 x).toInt = ((x + 2 ^ 63) % 2 ^ 64 : Nat) - (2 ^ 63 : Int) := by
  rw [BitVec.toInt_eq_toNat_cond, BitVec.toNat_ofNat]
  split_ifs with h <;> omega

theorem eval_eq_ord {op : CmpOp} (h : ¬ op.isEquality) (x y : Nat) :
    op.eval 64 x y = op.ord (op.rank x) (op.rank y) := by
  cases op with
  | eq => exact absurd (Or.inl rfl) h
  | ne => exact absurd (Or.inr rfl) h
  | ult | ule | ugt | uge =>
    simp [eval, evalBv, ord, rank, isSigned, BitVec.ult, BitVec.ule]
  | slt | sle | sgt | sge =>
    simp only [eval, evalBv, ord, rank, isSigned, BitVec.slt, BitVec.sle, toInt_ofNat_64, if_true,
      decide_eq_decide]
    omega

theorem rank_add (op : CmpOp) (b x : Nat) : op.rank ((b + x) % 2 ^ 64) = (b + op.rank x) % 2 ^ 64 := by
  unfold rank
  omega

theorem eval_add_of_isEquality {op : CmpOp} (h : op.isEquality) (b x y : Nat) :
    op.eval 64 ((b + x) % 2 ^ 64) ((b + y) % 2 ^ 64) = op.eval 64 x y := by
  have hiff : (BitVec.ofNat 64 ((b + x) % 2 ^ 64) = BitVec.ofNat 64 ((b + y) % 2 ^ 64)) ↔
      (BitVec.ofNat 64 x = BitVec.ofNat 64 y) := by
    simp only [← BitVec.toNat_inj, BitVec.toNat_ofNat]
    omega
  rcases h with rfl | rfl
  · rw [eval, eval, evalBv, evalBv, Bool.eq_iff_iff, beq_iff_eq, beq_iff_eq, hiff]
  · rw [eval, eval, evalBv, evalBv, Bool.eq_iff_iff, bne_iff_ne, bne_iff_ne, ne_eq, ne_eq, hiff]

theorem eval_add_of_le {op : CmpOp} (h : ¬ op.isEquality) {b x y n : Nat} (hx : op.rank x ≤ n)
    (hy : op.rank y ≤ n) (hn : b + n < 2 ^ 64) :
    op.eval 64 ((b + x) % 2 ^ 64) ((b + y) % 2 ^ 64) = op.eval 64 x y := by
  rw [eval_eq_ord h, eval_eq_ord h, rank_add, rank_add, Nat.mod_eq_of_lt (by omega),
    Nat.mod_eq_of_lt (by omega)]
  cases op <;> simp [ord]

theorem eval_add_ne {op : CmpOp} (h : ¬ op.isEquality) {x y : Nat}
    (hne : op.rank x ≠ op.rank y) :
    op.eval 64 ((2 ^ 64 - max (op.rank x) (op.rank y) + x) % 2 ^ 64)
      ((2 ^ 64 - max (op.rank x) (op.rank y) + y) % 2 ^ 64) ≠ op.eval 64 x y := by
  have hx := op.rank_lt x
  have hy := op.rank_lt y
  rw [eval_eq_ord h, eval_eq_ord h, rank_add, rank_add]
  generalize op.rank x = X at *
  generalize op.rank y = Y at *
  rcases Nat.lt_or_gt_of_ne hne with hlt | hgt
  · have hX : (2 ^ 64 - max X Y + X) % 2 ^ 64 = 2 ^ 64 - (Y - X) := by omega
    have hY : (2 ^ 64 - max X Y + Y) % 2 ^ 64 = 0 := by omega
    rw [hX, hY]
    cases op <;> simp [ord] at h ⊢ <;> omega
  · have hX : (2 ^ 64 - max X Y + X) % 2 ^ 64 = 0 := by omega
    have hY : (2 ^ 64 - max X Y + Y) % 2 ^ 64 = 2 ^ 64 - (X - Y) := by omega
    rw [hX, hY]
    cases op <;> simp [ord] at h ⊢ <;> omega

theorem rank_inj {op : CmpOp} {x y : Nat} (h : op.rank x = op.rank y) :
    x % 2 ^ 64 = y % 2 ^ 64 := by
  unfold rank at h
  omega

theorem eval_congr_mod {op : CmpOp} {x x' y y' : Nat} (hx : x % 2 ^ 64 = x' % 2 ^ 64)
    (hy : y % 2 ^ 64 = y' % 2 ^ 64) : op.eval 64 x y = op.eval 64 x' y' := by
  have hofNat : ∀ {u v : Nat}, u % 2 ^ 64 = v % 2 ^ 64 → BitVec.ofNat 64 u = BitVec.ofNat 64 v := by
    intro u v huv
    rw [← BitVec.toNat_inj, BitVec.toNat_ofNat, BitVec.toNat_ofNat, huv]
  rw [eval, eval, hofNat hx, hofNat hy]

/-- The value of `f op t` when the right operand decides it whatever the left one is. -/
def pinned (op : CmpOp) (t : Nat) : Option Bool :=
  match op with
  | ult | slt => if op.rank t = 0 then some false else none
  | uge | sge => if op.rank t = 0 then some true else none
  | ugt | sgt => if op.rank t = 2 ^ 64 - 1 then some false else none
  | ule | sle => if op.rank t = 2 ^ 64 - 1 then some true else none
  | eq | ne => none

theorem eval_swap (op : CmpOp) (w x y : Nat) : op.swap.eval w y x = op.eval w x y := by
  cases op <;> simp [swap, eval, evalBv, bne, BEq.comm]

theorem eval_of_pinned {op : CmpOp} {t : Nat} {v : Bool} (h : op.pinned t = some v) (f : Nat) :
    op.eval 64 f t = v := by
  have hne : ¬ op.isEquality := by
    rintro (rfl | rfl) <;> simp [pinned] at h
  have hf := op.rank_lt f
  rw [eval_eq_ord hne]
  cases op <;> simp only [pinned, Option.ite_none_right_eq_some, Option.some.injEq, reduceCtorEq] at h <;>
    (obtain ⟨ht, rfl⟩ := h; simp [ord, ht]; try omega)

theorem exists_rank (op : CmpOp) {r : Nat} (h : r < 2 ^ 64) : ∃ f < 2 ^ 64, op.rank f = r := by
  refine ⟨(r + if op.isSigned then 2 ^ 63 else 0) % 2 ^ 64, Nat.mod_lt _ (by norm_num), ?_⟩
  unfold rank
  split_ifs <;> omega

theorem exists_eval_eq {op : CmpOp} {t : Nat} {v : Bool} (h : ∀ u, op.pinned t = some u → v = u) :
    ∃ f < 2 ^ 64, op.eval 64 f t = v := by
  by_cases hop : op.isEquality
  · have hself : ∀ u, ∃ f < 2 ^ 64, eq.eval 64 f t = u := by
      intro u
      cases u with
      | true =>
        refine ⟨t % 2 ^ 64, Nat.mod_lt _ (by norm_num), ?_⟩
        simp [eval, evalBv, ← BitVec.toNat_inj]
      | false =>
        refine ⟨(t + 1) % 2 ^ 64, Nat.mod_lt _ (by norm_num), ?_⟩
        simp only [eval, evalBv, beq_eq_false_iff_ne, ne_eq, ← BitVec.toNat_inj,
          BitVec.toNat_ofNat]
        omega
    rcases hop with rfl | rfl
    · exact hself v
    · obtain ⟨f, hf, he⟩ := hself !v
      refine ⟨f, hf, ?_⟩
      rw [← Bool.not_not (b := v), ← he]
      rfl
  · -- the extreme ranks and `t` itself are enough
    have ht := op.rank_lt t
    obtain ⟨lo, hlo, hlor⟩ := op.exists_rank (r := 0) (by norm_num)
    obtain ⟨hi, hhi, hhir⟩ := op.exists_rank (r := 2 ^ 64 - 1) (by norm_num)
    obtain ⟨me, hme, hmer⟩ := op.exists_rank ht
    have hcase : op.ord 0 (op.rank t) = v ∨ op.ord (2 ^ 64 - 1) (op.rank t) = v ∨
        op.ord (op.rank t) (op.rank t) = v := by
      cases op <;> simp only [pinned, isEquality] at h hop <;> cases v <;>
        simp [ord] at h hop ⊢ <;> omega
    rcases hcase with hc | hc | hc
    · exact ⟨lo, hlo, by rw [eval_eq_ord hop, hlor, hc]⟩
    · exact ⟨hi, hhi, by rw [eval_eq_ord hop, hhir, hc]⟩
    · exact ⟨me, hme, by rw [eval_eq_ord hop, hmer, hc]⟩

end CmpOp

/-! ## What `scalarize` compares -/

/-- The scalar of a value, when `scalarize` needs no fresh symbol for it. -/
def SymValue.known : SymValue → Option Expr
  | .scalar e => some e
  | .ptr (.mk .null _ _ _) => some (.int ptrWidth 0)
  | .ptr (.mk (.unknown _ (some i)) _ _ _) => some (.sym (ptrName i) ptrWidth)
  | .ptr _ => none

theorem scalarize_known {v : SymValue} {e : Expr} (h : v.known = some e) (ex : Explorer) :
    scalarize v ex = (e, ex) := by
  rcases v with e' | ⟨_ | r | ⟨c, t, f⟩ | ⟨o, _ | i⟩, off, al, bo⟩ <;>
    simp_all [SymValue.known, scalarize, ptrName]

theorem scalarize_unknown {v : SymValue} (h : v.known = none) (ex : Explorer) :
    scalarize v ex = freshScalar ptrWidth ex := by
  rcases v with e' | ⟨_ | r | ⟨c, t, f⟩ | ⟨o, _ | i⟩, off, al, bo⟩ <;>
    simp_all [SymValue.known, scalarize]

theorem SymValue.known_width {v : SymValue} {e : Expr} (h : v.known = some e) :
    e.width = v.width := by
  rcases v with e' | ⟨_ | r | ⟨c, t, f⟩ | ⟨o, _ | i⟩, off, al, bo⟩ <;>
    simp [known] at h <;> subst h <;> rfl

theorem SymValue.unknown_width {v : SymValue} (h : v.known = none) : v.width = 64 := by
  cases v with
  | scalar e => exact absurd h (by simp [known])
  | ptr p => rfl

theorem SymValue.known_below {v : SymValue} {e : Expr} {n : Nat} (h : v.known = some e)
    (hv : v.Ok n) : e.Below n := by
  rcases v with e' | ⟨_ | r | ⟨c, t, f⟩ | ⟨o, _ | i⟩, off, al, bo⟩ <;>
    simp only [known, Option.some.injEq, reduceCtorEq] at h <;> subst h
  · exact hv
  · exact Expr.below_int _ _ _
  · intro p hp k _
    rw [List.mem_singleton.mp hp]
    exact ptrName_ne_freshName i k

theorem SymValue.At.lt {ρ : Valuation} {m : Machine} {p : SymPointer} {a : Nat}
    (h : (SymValue.ptr p).At ρ m a) : a < 2 ^ 64 := by
  obtain ⟨prov, off, al, bo⟩ := p
  obtain ⟨b, -, rfl⟩ := h
  exact Nat.mod_lt _ (by norm_num)

/-- Two pointers into one region: which, and the offsets. -/
def sameRegion : SymValue → SymValue → Option (Nat × Expr × Expr)
  | .ptr (.mk (.region ra) oa _ _), .ptr (.mk (.region rb) ob _ _) =>
    if ra = rb then some (ra, oa, ob) else none
  | _, _ => none

theorem cmpValues_sameRegion {lv rv : SymValue} {r : Nat} {oa ob : Expr}
    (h : sameRegion lv rv = some (r, oa, ob)) (op : CmpOp) (ex : Explorer) :
    cmpValues op lv rv ex = (.mkCmp op oa ob, ex) := by
  unfold sameRegion at h
  split at h
  · split_ifs at h with hr
    obtain ⟨-, rfl, rfl⟩ : _ ∧ _ ∧ _ := by simpa using h
    simp only [cmpValues, if_pos hr]
    rfl
  · exact absurd h (by simp)

theorem cmpValues_byScalar {lv rv : SymValue} (h : sameRegion lv rv = none) (op : CmpOp)
    (ex : Explorer) :
    cmpValues op lv rv ex =
      (.mkCmp op (scalarize lv ex).1 (scalarize rv (scalarize lv ex).2).1,
        (scalarize rv (scalarize lv ex).2).2) := by
  unfold cmpValues
  split
  · simp only [sameRegion] at h
    split_ifs at h with hr
    rw [if_neg hr]
    rfl
  · rfl

def PathState.Within (st : PathState) (ρ : Valuation) (r n : Nat) : Prop :=
  ∃ reg, st.regions[r]? = some reg ∧ n ≤ reg.size.eval ρ

/-- When the comparison of `lv` and `rv`, at the addresses `a` and `b`, is faithful.

    In one region: an equality test, equal offsets, or both offsets inside the region in the order
    the operator uses. Otherwise: two known scalars must compare as the addresses do, that is, the
    offsets that `scalarize` drops must not move the comparison; against a fresh unknown, a known
    scalar must not be the extreme one that decides the comparison the other way. -/
def CmpFaithful (st : PathState) (ρ : Valuation) (op : CmpOp) (lv rv : SymValue) (a b : Nat) :
    Prop :=
  match sameRegion lv rv with
  | some (r, oa, ob) =>
    op.isEquality ∨ oa.eval ρ % 2 ^ 64 = ob.eval ρ % 2 ^ 64 ∨
      (st.Within ρ r (op.rank (oa.eval ρ)) ∧ st.Within ρ r (op.rank (ob.eval ρ)))
  | none =>
    match lv, lv.known, rv.known with
    | _, some s, some t => op.eval lv.width (s.eval ρ) (t.eval ρ) = op.eval lv.width a b
    | _, none, some t => ∀ u, op.pinned (t.eval ρ) = some u → op.eval 64 a b = u
    | .ptr _, some s, none => ∀ u, op.swap.pinned (s.eval ρ) = some u → op.eval 64 a b = u
    | .scalar _, some _, none => True
    | _, none, none => True

/-- The expression `r` is right for the machine comparison of `a` and `b`: some value of the symbols
    fresh from `n` on gives it that value. -/
def CmpRight (n : Nat) (ρ : Valuation) (op : CmpOp) (w a b : Nat) (r : Expr) : Prop :=
  ∃ ρ', Valuation.Agree n ρ ρ' ∧ r.eval ρ' = (op.eval w a b).toNat

theorem cmpRight_of_eval {n : Nat} {ρ : Valuation} {op : CmpOp} {w a b : Nat} {r : Expr}
    (h : r.eval ρ = (op.eval w a b).toNat) : CmpRight n ρ op w a b r :=
  ⟨ρ, Valuation.Agree.refl n ρ, h⟩

theorem cmpRight_mkCmp_iff {n : Nat} {ρ : Valuation} {op : CmpOp} {w a b : Nat} {x y : Expr}
    (hx : x.Below n) (hy : y.Below n) :
    CmpRight n ρ op w a b (.mkCmp op x y) ↔
      op.eval x.width (x.eval ρ) (y.eval ρ) = op.eval w a b := by
  constructor
  · rintro ⟨ρ', hag, he⟩
    rw [Expr.eval_mkCmp, ← hx.eval_eq hag, ← hy.eval_eq hag] at he
    revert he
    cases op.eval x.width (x.eval ρ) (y.eval ρ) <;> cases op.eval w a b <;> simp
  · intro he
    exact cmpRight_of_eval (by rw [Expr.eval_mkCmp, he])

section

variable {st : PathState} {ρ : Valuation} {m : Machine} {op : CmpOp} {lv rv : SymValue} {a b : Nat}
  {ex : Explorer}

theorem at_of_sameRegion {r : Nat} {oa ob : Expr} (h : sameRegion lv rv = some (r, oa, ob)) :
    (∀ a, lv.At ρ m a ↔ a = (m.base r + oa.eval ρ) % 2 ^ 64) ∧
      ∀ b, rv.At ρ m b ↔ b = (m.base r + ob.eval ρ) % 2 ^ 64 := by
  unfold sameRegion at h
  split at h
  · split_ifs at h with hr
    obtain ⟨rfl, rfl, rfl⟩ : _ ∧ _ ∧ _ := by simpa using h
    simp [SymValue.At, SymPointer.At, Prov.At, hr]
  · exact absurd h (by simp)

theorem below_of_sameRegion {n r : Nat} {oa ob : Expr} (h : sameRegion lv rv = some (r, oa, ob))
    (hl : lv.Ok n) (hr : rv.Ok n) :
    oa.Below n ∧ ob.Below n ∧ oa.width = ptrWidth ∧ lv.width = ptrWidth := by
  unfold sameRegion at h
  split at h
  · split_ifs at h with hre
    obtain ⟨rfl, rfl, rfl⟩ : _ ∧ _ ∧ _ := by simpa using h
    exact ⟨hl.1.2, hr.1.2, hl.2, rfl⟩
  · exact absurd h (by simp)

/-- The machine with the region `r` moved to `n`. -/
def Machine.place (m : Machine) (r n : Nat) : Machine :=
  { m with base := fun q => if q = r then n else m.base q }

theorem PathState.Describes.place (h : st.Describes ρ m) {r n : Nat}
    (hn : ∀ reg, st.regions[r]? = some reg → n + reg.size.eval ρ < 2 ^ 64) :
    st.Describes ρ (m.place r n) where
  path := h.path
  fact := h.fact
  ident := h.ident
  fits q reg hq := by
    unfold Machine.place
    dsimp only
    split_ifs with hqr
    · exact hn reg (hqr ▸ hq)
    · exact h.fits q reg hq

/-- Offsets that are not both inside the region compare wrongly wherever it ends the address
    space. -/
theorem sameRegion_iff {n r : Nat} {oa ob : Expr} (h : sameRegion lv rv = some (r, oa, ob))
    (hl : lv.Ok n) (hr : rv.Ok n) :
    (∀ m, st.Describes ρ m → ∀ a b, lv.At ρ m a → rv.At ρ m b →
        CmpRight n ρ op lv.width a b (.mkCmp op oa ob)) ↔
      ∀ m, st.Describes ρ m → ∀ a b, lv.At ρ m a → rv.At ρ m b →
        CmpFaithful st ρ op lv rv a b := by
  obtain ⟨hoa, hob, hwo, hwl⟩ := below_of_sameRegion h hl hr
  have hright : ∀ (m : Machine) (a b : Nat), lv.At ρ m a → rv.At ρ m b →
      (CmpRight n ρ op lv.width a b (.mkCmp op oa ob) ↔
        op.eval 64 (oa.eval ρ) (ob.eval ρ) =
          op.eval 64 ((m.base r + oa.eval ρ) % 2 ^ 64) ((m.base r + ob.eval ρ) % 2 ^ 64)) := by
    intro m a b hla hrb
    rw [cmpRight_mkCmp_iff hoa hob, hwo, hwl, ((at_of_sameRegion h).1 a).mp hla,
      ((at_of_sameRegion h).2 b).mp hrb]
    rfl
  have hfaith : ∀ a b, CmpFaithful st ρ op lv rv a b ↔
      (op.isEquality ∨ oa.eval ρ % 2 ^ 64 = ob.eval ρ % 2 ^ 64 ∨
        (st.Within ρ r (op.rank (oa.eval ρ)) ∧ st.Within ρ r (op.rank (ob.eval ρ)))) := by
    intro a b
    simp only [CmpFaithful, h]
  constructor
  · intro hall m hm a b hla hrb
    rw [hfaith]
    by_contra hcon
    rw [not_or, not_or] at hcon
    obtain ⟨heq, hne, hout⟩ := hcon
    -- the greater offset leaves the region: put the region where that offset is address zero
    have hrank : op.rank (oa.eval ρ) ≠ op.rank (ob.eval ρ) := fun hr => hne (CmpOp.rank_inj hr)
    let M := max (op.rank (oa.eval ρ)) (op.rank (ob.eval ρ))
    have hfit : ∀ reg, st.regions[r]? = some reg → 2 ^ 64 - M + reg.size.eval ρ < 2 ^ 64 := by
      intro reg hreg
      have hMlt : M < 2 ^ 64 := Nat.max_lt.mpr ⟨op.rank_lt _, op.rank_lt _⟩
      by_contra hge
      refine hout ⟨⟨reg, hreg, ?_⟩, ⟨reg, hreg, ?_⟩⟩
      · have := Nat.le_max_left (op.rank (oa.eval ρ)) (op.rank (ob.eval ρ))
        omega
      · have := Nat.le_max_right (op.rank (oa.eval ρ)) (op.rank (ob.eval ρ))
        omega
    have hbase : (m.place r (2 ^ 64 - M)).base r = 2 ^ 64 - M := if_pos rfl
    have hla' := (at_of_sameRegion (ρ := ρ) (m := m.place r (2 ^ 64 - M)) h).1 _ |>.mpr rfl
    have hrb' := (at_of_sameRegion (ρ := ρ) (m := m.place r (2 ^ 64 - M)) h).2 _ |>.mpr rfl
    have hbad := (hright _ _ _ hla' hrb').mp (hall _ (hm.place hfit) _ _ hla' hrb')
    rw [hbase] at hbad
    exact CmpOp.eval_add_ne heq hrank hbad.symm
  · intro hall m hm a b hla hrb
    rw [hright m a b hla hrb]
    rcases (hfaith a b).mp (hall m hm a b hla hrb) with heq | hsame | ⟨hx, hy⟩
    · exact (CmpOp.eval_add_of_isEquality heq _ _ _).symm
    · rw [CmpOp.eval_congr_mod hsame rfl]
      have hmod : (m.base r + oa.eval ρ) % 2 ^ 64 = (m.base r + ob.eval ρ) % 2 ^ 64 := by omega
      rw [hmod, Expr.cmpSelf_eq, Expr.cmpSelf_eq]
    · by_cases heq : op.isEquality
      · exact (CmpOp.eval_add_of_isEquality heq _ _ _).symm
      · obtain ⟨reg, hreg, hxle⟩ := hx
        obtain ⟨reg', hreg', hyle⟩ := hy
        obtain rfl : reg = reg' := Option.some.inj (hreg.symm.trans hreg')
        exact (CmpOp.eval_add_of_le heq hxle hyle (hm.fits r reg hreg)).symm

theorem SymValue.At.lt_of_unknown {v : SymValue} (hv : v.known = none) (h : v.At ρ m a) :
    a < 2 ^ 64 := by
  cases v with
  | scalar e => exact absurd hv (by simp [known])
  | ptr p => exact h.lt

theorem cmpRight_freshLeft_iff {n : Nat} {t : Expr} (ht : t.Below n) :
    CmpRight n ρ op 64 a b (.mkCmp op (.sym (freshName n) ptrWidth) t) ↔
      ∀ u, op.pinned (t.eval ρ) = some u → op.eval 64 a b = u := by
  constructor
  · rintro ⟨ρ', hag, he⟩ u hu
    rw [Expr.eval_mkCmp, ← ht.eval_eq hag] at he
    have hpin := CmpOp.eval_of_pinned hu ((Expr.sym (freshName n) ptrWidth).eval ρ')
    rw [show (Expr.sym (freshName n) ptrWidth).width = 64 from rfl, hpin] at he
    revert he
    cases u <;> cases op.eval 64 a b <;> simp
  · intro hpin
    obtain ⟨f, hf, he⟩ := CmpOp.exists_eval_eq hpin
    have hag := Valuation.agree_setFresh (Nat.le_refl n) ρ f
    refine ⟨ρ.setFresh n f, hag, ?_⟩
    rw [Expr.eval_mkCmp, ← ht.eval_eq hag, eval_setFresh_self, ← he]
    exact congrArg Bool.toNat (CmpOp.eval_congr_mod (Nat.mod_mod _ _) rfl)

theorem cmpRight_freshRight_iff {n : Nat} {s : Expr} (hs : s.Below n) (hw : s.width = 64) :
    CmpRight n ρ op 64 a b (.mkCmp op s (.sym (freshName n) ptrWidth)) ↔
      ∀ u, op.swap.pinned (s.eval ρ) = some u → op.eval 64 a b = u := by
  have hflip : CmpRight n ρ op 64 a b (.mkCmp op s (.sym (freshName n) ptrWidth)) ↔
      CmpRight n ρ op.swap 64 b a (.mkCmp op.swap (.sym (freshName n) ptrWidth) s) := by
    refine exists_congr fun ρ' => and_congr_right fun _ => ?_
    rw [Expr.eval_mkCmp, Expr.eval_mkCmp, hw,
      show (Expr.sym (freshName n) ptrWidth).width = 64 from rfl, CmpOp.eval_swap, CmpOp.eval_swap]
  rw [hflip, cmpRight_freshLeft_iff hs, CmpOp.eval_swap]

theorem cmpRight_scalar {n : Nat} {e : Expr} (he : e.Below n) (ha : a = e.eval ρ)
    (hb : b < 2 ^ 64) :
    CmpRight n ρ op e.width a b (.mkCmp op e (.sym (freshName n) ptrWidth)) := by
  have hag := Valuation.agree_setFresh (Nat.le_refl n) ρ b
  refine ⟨ρ.setFresh n b, hag, ?_⟩
  rw [Expr.eval_mkCmp, ← he.eval_eq hag, eval_setFresh_self, ha]
  rw [show b % 2 ^ ptrWidth = b from Nat.mod_eq_of_lt hb]

theorem cmpRight_fresh {n : Nat} (ha : a < 2 ^ 64) (hb : b < 2 ^ 64) :
    CmpRight n ρ op 64 a b
      (.mkCmp op (.sym (freshName n) ptrWidth) (.sym (freshName (n + 1)) ptrWidth)) := by
  refine ⟨(ρ.setFresh (n + 1) b).setFresh n a,
    (Valuation.agree_setFresh (Nat.le_succ n) ρ b).trans
      (Valuation.agree_setFresh (Nat.le_refl n) _ a), ?_⟩
  rw [Expr.eval_mkCmp, eval_setFresh_self, eval_setFresh_of_ne (Nat.succ_ne_self n),
    Valuation.setFresh, if_pos rfl]
  rw [show a % 2 ^ ptrWidth = a from Nat.mod_eq_of_lt ha,
    show b % 2 ^ ptrWidth = b from Nat.mod_eq_of_lt hb]
  rfl

theorem byScalar_iff (h : sameRegion lv rv = none) (hl : lv.Ok ex.fresh) (hr : rv.Ok ex.fresh)
    (hla : lv.At ρ m a) (hrb : rv.At ρ m b) :
    CmpRight ex.fresh ρ op lv.width a b (cmpValues op lv rv ex).1 ↔
      CmpFaithful st ρ op lv rv a b := by
  rw [cmpValues_byScalar h]
  cases hs : lv.known with
  | some s =>
    have hsb := SymValue.known_below hs hl
    rw [scalarize_known hs]
    cases ht : rv.known with
    | some t =>
      rw [scalarize_known ht, cmpRight_mkCmp_iff hsb (SymValue.known_below ht hr),
        SymValue.known_width hs]
      simp only [CmpFaithful, h, hs, ht]
    | none =>
      rw [scalarize_unknown ht]
      cases lv with
      | scalar e =>
        obtain rfl : e = s := Option.some.inj hs
        simp only [CmpFaithful, h, hs, ht]
        exact iff_true_intro (cmpRight_scalar hsb hla (hrb.lt_of_unknown ht))
      | ptr p =>
        simp only [CmpFaithful, h, hs, ht]
        exact cmpRight_freshRight_iff hsb (SymValue.known_width hs)
  | none =>
    rw [scalarize_unknown hs, SymValue.unknown_width hs]
    cases ht : rv.known with
    | some t =>
      rw [scalarize_known ht]
      simp only [CmpFaithful, h, hs, ht]
      exact cmpRight_freshLeft_iff (SymValue.known_below ht hr)
    | none =>
      rw [scalarize_unknown ht]
      simp only [CmpFaithful, h, hs, ht]
      exact iff_true_intro (cmpRight_fresh (hla.lt_of_unknown hs) (hrb.lt_of_unknown ht))

/-- The values of the operands compare as their addresses do, in every concrete state, exactly when
    they are faithful in every concrete state. -/
theorem cmpValues_right_iff (hl : lv.Ok ex.fresh) (hr : rv.Ok ex.fresh) :
    (∀ ρ m, st.Describes ρ m → ∀ a b, lv.At ρ m a → rv.At ρ m b →
        CmpRight ex.fresh ρ op lv.width a b (cmpValues op lv rv ex).1) ↔
      ∀ ρ m, st.Describes ρ m → ∀ a b, lv.At ρ m a → rv.At ρ m b →
        CmpFaithful st ρ op lv rv a b := by
  refine forall_congr' fun ρ => ?_
  cases h : sameRegion lv rv with
  | some p =>
    obtain ⟨r, oa, ob⟩ := p
    rw [cmpValues_sameRegion h]
    exact sameRegion_iff h hl hr
  | none =>
    exact forall_congr' fun m => forall_congr' fun _ => forall_congr' fun a => forall_congr' fun b =>
      forall_congr' fun hla => forall_congr' fun hrb => byScalar_iff h hl hr hla hrb

end

/-! ## Operands -/

/-- The comparison the executor builds for two operands is right in every concrete state of the path
    state. -/
def CmpAlwaysRight (ex : Explorer) (st : PathState) (op : CmpOp) (lhs rhs : Operand) : Prop :=
  let l := evalValue lhs st ex
  let r := evalValue rhs st l.2
  ∀ ρ m, st.Describes ρ m → ∀ a b, l.1.At ρ m a → r.1.At ρ m b →
    CmpRight r.2.fresh ρ op l.1.width a b (evalPtrAwareCmp op lhs rhs st ex).1

/-- The operands are faithful in every concrete state of the path state. -/
def CmpAlwaysFaithful (ex : Explorer) (st : PathState) (op : CmpOp) (lhs rhs : Operand) : Prop :=
  let l := evalValue lhs st ex
  let r := evalValue rhs st l.2
  ∀ ρ m, st.Describes ρ m → ∀ a b, l.1.At ρ m a → r.1.At ρ m b →
    CmpFaithful st ρ op l.1 r.1 a b

/-- Register 0 holds an opaque pointer, registers 1 and 2 the same pointer moved by one and by two
    bytes. -/
def derivedPointers : PathState where
  env r := if r ≤ 2 then some (.ptr (.mk (.unknown .param (some 0)) (.int ptrWidth r) 1 none)) else none
  regions := []
  pathcond := []
  facts := []
  heap := []
  exact := true

theorem derivedPointers_ok : derivedPointers.Ok Explorer.initial.fresh := by
  intro r v hv
  simp only [derivedPointers] at hv
  split_ifs at hv
  rw [← Option.some.inj hv]
  exact ⟨⟨trivial, Expr.below_int _ _ _⟩, rfl⟩

end Csolver
