import Csolver.Llvm.Layout
import Csolver.Symbolic.Machine
import Csolver.Symbolic.RValue
import Mathlib.Data.Int.ModEq

/-!
# One step of a `getelementptr`

A `PtrOffset` moves the pointer by its index, read as a number of 64 bits, times the stride of the element. An
index is read as LLVM has it if it is as wide as a pointer or not negative.
-/

namespace Csolver

namespace Llvm

/-! ## One instruction -/

section Step

variable {ρ : Valuation}

theorem mkBin_width {op : BvOp} {a b : Expr} (ha : 64 ≤ a.width) (hb : 64 ≤ b.width) :
    64 ≤ (Expr.mkBin op a b).width := by
  rw [Expr.mkBin]
  split
  · exact ha
  · split
    · next e he =>
      rcases Expr.identity_mem he with rfl | rfl
      · exact ha
      · exact hb
    · split
      · exact ha
      · exact ha

theorem mkBin_add {a b : Expr} (ha : 64 ≤ a.width) :
    ((Expr.mkBin .add a b).eval ρ : Int) ≡ a.eval ρ + b.eval ρ [ZMOD 2 ^ 64] := by
  have h : (Expr.mkBin .add a b).eval ρ % 2 ^ 64 = BvOp.add.eval 64 (a.eval ρ) (b.eval ρ) :=
    mkBin_eval_mod (.inr (.inr (.inl ha)))
  have heval : BvOp.add.eval 64 (a.eval ρ) (b.eval ρ) = (a.eval ρ + b.eval ρ) % 2 ^ 64 := by
    simp [BvOp.eval, BvOp.evalBv, BitVec.toNat_add]
  rw [heval] at h
  exact_mod_cast h

theorem mkBin_mul {a b : Expr} (ha : 64 ≤ a.width) :
    ((Expr.mkBin .mul a b).eval ρ : Int) ≡ a.eval ρ * b.eval ρ [ZMOD 2 ^ 64] := by
  have h : (Expr.mkBin .mul a b).eval ρ % 2 ^ 64 = BvOp.mul.eval 64 (a.eval ρ) (b.eval ρ) :=
    mkBin_eval_mod (.inr (.inr (.inl ha)))
  have heval : BvOp.mul.eval 64 (a.eval ρ) (b.eval ρ) = (a.eval ρ * b.eval ρ) % 2 ^ 64 := by
    simp [BvOp.eval, BvOp.evalBv, BitVec.toNat_mul, Nat.mul_mod]
  rw [heval] at h
  exact_mod_cast h

theorem mkZext_width (e : Expr) : 64 ≤ (e.mkZext 64).width := by
  rw [Expr.mkZext]
  split
  · assumption
  · split <;> exact le_rfl

theorem mkZext_eval (e : Expr) : ((e.mkZext 64).eval ρ : Int) ≡ e.eval ρ [ZMOD 2 ^ 64] := by
  rw [Expr.mkZext]
  split
  · exact Int.ModEq.refl _
  · split
    · next bv hbv =>
      have heval := (Expr.asConst_eq (ρ := ρ) hbv).2
      rw [heval, Expr.int, Expr.eval]
      exact_mod_cast (Nat.mod_modEq _ _).trans (Nat.mod_modEq _ _)
    · rw [Expr.eval]
      exact_mod_cast Nat.mod_modEq _ _

theorem int_eval (k : Nat) : ((Expr.int ptrWidth k).eval ρ : Int) ≡ k [ZMOD 2 ^ 64] := by
  rw [Expr.int, Expr.eval]
  exact_mod_cast (Nat.mod_modEq _ _).trans (Nat.mod_modEq _ _)

/-- What a read keeps of a provenance: a region that was dropped is unknown. -/
def keptProv (regions : Nat) : Prov → Prov
  | .region r => if regions ≤ r then .unknown .regionDrop none else .region r
  | p => p

theorem sanitize_ptr (regions : Nat) (p : SymPointer) :
    sanitize regions (.ptr p) = .ptr (.mk (keptProv regions p.prov) p.offset p.align p.borrow) := by
  obtain ⟨prov, o, a, b⟩ := p
  cases prov with
  | region r =>
    simp only [sanitize, keptProv, SymPointer.prov]
    split <;> rfl
  | _ => rfl

theorem keptProv_idem (regions : Nat) (p : Prov) : keptProv regions (keptProv regions p) = keptProv regions p := by
  cases p with
  | region r =>
    rw [keptProv]
    split
    · rfl
    · next h => rw [keptProv, if_neg h]
  | _ => rfl

/-- The register holds a pointer of the provenance at the offset. -/
def PointsAt (ρ : Valuation) (state : PathState) (r : RegId) (P : Prov) (v : Int) : Prop :=
  ∃ q, state.env r = some (.ptr q) ∧ keptProv state.regions.length q.prov = P ∧ 64 ≤ q.offset.width ∧
    (q.offset.eval ρ : Int) ≡ v [ZMOD 2 ^ 64]

/-- The operand is read as the number. -/
def ReadsAs (ρ : Valuation) (state : PathState) (op : Operand) (x : Int) : Prop :=
  ∃ e, (∀ ex, evalScalar op state ex = (e, ex)) ∧ (e.eval ρ : Int) ≡ x [ZMOD 2 ^ 64]

variable {state : PathState} {ex : Explorer} {dst r : RegId} {base index : Operand} {elem : Ty} {P : Prov} {v x : Int}

theorem PointsAt.evalPointer (h : PointsAt ρ state r P v) :
    ∃ q, (∀ ex, evalPointer (.reg r) state ex = (q, ex)) ∧ q.prov = P ∧ 64 ≤ q.offset.width ∧
      (q.offset.eval ρ : Int) ≡ v [ZMOD 2 ^ 64] := by
  obtain ⟨q, hq, hP, hw, hv⟩ := h
  refine ⟨.mk (keptProv state.regions.length q.prov) q.offset q.align q.borrow, fun ex => ?_, hP, hw, hv⟩
  have hval : evalValue (.reg r) state ex = (sanitize state.regions.length (.ptr q), ex) := by
    simp only [evalValue, hq]
  rw [sanitize_ptr] at hval
  simp only [Csolver.evalPointer, bind, StateT.bind, hval]
  rfl

/-- The bytes between two elements, as the executor has it. -/
def execStride (elem : Ty) : Nat := max ((elem.strideBytes .lp64).getD 1) 1

/-- The pointer that a `PtrOffset` leaves in its register. -/
def movedBy (elem : Ty) (index : Expr) (p : SymPointer) : SymPointer :=
  .mk p.prov (.mkBin .add p.offset (.mkBin .mul (index.mkZext ptrWidth) (.int ptrWidth (execStride elem))))
    (offsetAlign p.align (execStride elem) (index.mkZext ptrWidth)) p.borrow

theorem stepPtrOffset_eq {p : SymPointer} {ex' : Explorer} {e : Expr} (hp : evalPointer base state ex = (p, ex'))
    (he : ∀ ex, evalScalar index state ex = (e, ex)) :
    stepPtrOffset dst base index elem state ex = (state.setReg dst (.ptr (movedBy elem e p)), ex') := by
  simp only [stepPtrOffset, bind, StateT.bind, hp, he]
  rfl

theorem movedBy_spec {p : SymPointer} {e : Expr} (elem : Ty) (hw : 64 ≤ p.offset.width)
    (hx : (e.eval ρ : Int) ≡ x [ZMOD 2 ^ 64]) :
    (movedBy elem e p).prov = p.prov ∧ 64 ≤ (movedBy elem e p).offset.width ∧
      ((movedBy elem e p).offset.eval ρ : Int) ≡ p.offset.eval ρ + x * execStride elem [ZMOD 2 ^ 64] := by
  refine ⟨rfl, ?_, ?_⟩
  · have hint : 64 ≤ (Expr.int ptrWidth (execStride elem)).width := le_rfl
    exact mkBin_width hw (mkBin_width (mkZext_width e) hint)
  · refine (mkBin_add hw).trans (Int.ModEq.add_left _ ?_)
    refine (mkBin_mul (mkZext_width e)).trans ?_
    exact ((mkZext_eval e).trans hx).mul (int_eval _)

theorem PointsAt.setReg_self {q : SymPointer} (hP : keptProv state.regions.length q.prov = P)
    (hw : 64 ≤ q.offset.width) (hv : (q.offset.eval ρ : Int) ≡ v [ZMOD 2 ^ 64]) :
    PointsAt ρ (state.setReg dst (.ptr q)) dst P v :=
  ⟨q, by simp [PathState.setReg], hP, hw, hv⟩

end Step

/-! ## Indices -/

/-- An index of the instruction, with the width of its type. -/
structure GepIndex where
  width : Nat
  value : LValue

/-- The number that LLVM takes for an index: its value, sign-extended. -/
def GepIndex.Denotes (ctx : Ctx) (state : PathState) (ρ : Valuation) (idx : GepIndex) (z : Int) : Prop :=
  match idx.value with
  | .int n => z = (BitVec.ofInt idx.width n).toInt
  | .local name => ∃ r e, ctx.regs name = some r ∧ state.env r = some (.scalar e) ∧
      e.eval ρ < 2 ^ idx.width ∧ z = (BitVec.ofNat idx.width (e.eval ρ)).toInt
  | _ => False

/-- A constant is written as the number that it stands for, up to the width of a pointer, and a variable is as
wide as a pointer or not negative. -/
def GepIndex.Plain (idx : GepIndex) (z : Int) : Prop :=
  match idx.value with
  | .int n => n ≡ z [ZMOD 2 ^ 64]
  | .local _ => 64 ≤ idx.width ∨ 0 ≤ z
  | _ => False

section Index

variable {ρ : Valuation} {ctx : Ctx} {state : PathState} {idx : GepIndex} {z : Int} {op : Operand}

theorem intOperand_reads (state : PathState) (n : Int) : ReadsAs ρ state (Ctx.intOperand 64 n) n := by
  have hop : ∃ bv : BitVector, Ctx.intOperand 64 n = .const (.int bv) ∧ bv.width = 64 ∧
      bv.value = (n % 2 ^ 128).toNat % 2 ^ 64 := ⟨_, rfl, rfl, rfl⟩
  obtain ⟨bv, heq, hwidth, hvalue⟩ := hop
  refine ⟨.const bv.width bv.value, fun ex => by rw [heq]; rfl, ?_⟩
  rw [Expr.eval, hwidth, hvalue]
  have hnonneg : 0 ≤ n % 2 ^ 128 := Int.emod_nonneg _ (by decide)
  have hcast : (((n % 2 ^ 128).toNat % 2 ^ 64 % 2 ^ 64 : Nat) : Int) = n % 2 ^ 128 % 2 ^ 64 % 2 ^ 64 := by
    rw [Int.natCast_mod, Int.natCast_mod, Int.toNat_of_nonneg hnonneg]
    rfl
  rw [hcast, Int.emod_emod_of_dvd _ (by decide : (2 ^ 64 : Int) ∣ 2 ^ 64), Int.emod_emod_of_dvd _ (by decide)]
  exact Int.mod_modEq _ _

theorem toInt_modEq {w v : Nat} (hv : v < 2 ^ w) (hw : 64 ≤ w) :
    ((BitVec.ofNat w v).toInt : Int) ≡ v [ZMOD 2 ^ 64] := by
  have hdvd : (2 ^ 64 : Int) ∣ 2 ^ w := pow_dvd_pow 2 hw
  refine Int.ModEq.of_dvd hdvd ?_
  rw [BitVec.toInt_eq_toNat_bmod, BitVec.toNat_ofNat, Nat.mod_eq_of_lt hv, Int.ModEq]
  have hcast : ((2 ^ w : Nat) : Int) = 2 ^ w := by push_cast; rfl
  rw [← hcast]
  exact Int.bmod_emod

theorem GepIndex.Plain.reads (h : idx.Plain z) (hd : idx.Denotes ctx state ρ z)
    (hop : ctx.operand idx.value 64 = .ok op) :
    ReadsAs ρ state op z ∧ ∀ r, op = .reg r → ∃ name, ctx.regs name = some r := by
  obtain ⟨w, value⟩ := idx
  cases value with
  | int n =>
    have hn : n ≡ z [ZMOD 2 ^ 64] := h
    have heq : Ctx.intOperand 64 n = op := by simpa [Ctx.operand] using hop
    subst heq
    obtain ⟨e, he, hval⟩ := intOperand_reads (ρ := ρ) state n
    refine ⟨⟨e, he, hval.trans hn⟩, fun r hr => ?_⟩
    exact absurd hr (by simp [Ctx.intOperand, BitVector.new])
  | «local» name =>
    obtain ⟨r, e, hreg, henv, hlt, hz⟩ := hd
    have heq : op = .reg r := by
      simp only [Ctx.operand, Ctx.reg, hreg, Except.map] at hop
      exact (Except.ok.inj hop).symm
    subst heq
    refine ⟨⟨e, fun ex => ?_, ?_⟩, fun r' hr' => ⟨name, by rw [← Operand.reg.inj hr', hreg]⟩⟩
    · simp only [evalScalar, evalValue, henv, bind, StateT.bind]
      rfl
    · rcases h with hw | hpos
      · rw [hz]
        exact (toInt_modEq hlt hw).symm
      · -- not negative: the sign bit is clear
        have hval : z = e.eval ρ := by
          rw [hz, BitVec.toInt_eq_toNat_bmod, BitVec.toNat_ofNat, Nat.mod_eq_of_lt hlt]
          rw [hz, BitVec.toInt_eq_toNat_cond, BitVec.toNat_ofNat, Nat.mod_eq_of_lt hlt] at hpos
          split at hpos
          · next hlow =>
            rw [Int.bmod_eq_of_le_mul_two] <;> omega
          · omega
        rw [hval]
  | _ => exact h.elim

end Index

end Llvm

end Csolver
