import Csolver.Symbolic.Eval
import Mathlib.Tactic.NormNum

/-!
# What a symbolic state says about a machine state

A valuation gives the symbols values; a `Machine` says where the objects are: the base address of
each region and the address each opaque identity stands for. Under both, a symbolic value denotes
a machine word. An opaque pointer without identity may be anywhere, so denotation is a relation.

`PathState.Ok n` is the executor's own bookkeeping: offsets are pointer-wide, and no expression of
the state mentions a symbol that `fresh_scalar` has yet to hand out.
-/

namespace Csolver

/-- Where the objects of a run are. -/
structure Machine where
  base : Nat → Nat
  ident : Nat → Nat

/-- The symbol that `scalarize` gives an opaque identity. -/
def ptrName (i : Nat) : String := "ptr#" ++ toString i

mutual

/-- The address a provenance starts from. -/
def Prov.At (ρ : Valuation) (m : Machine) : Prov → Nat → Prop
  | .null, a => a = 0
  | .region r, a => a = m.base r
  | .unknown _ (some i), a => a = m.ident i
  | .unknown _ none, _ => True
  | .select c t e, a => (c.Holds ρ → t.At ρ m a) ∧ (¬ c.Holds ρ → e.At ρ m a)

/-- The address of a pointer: where its provenance starts, moved by its offset. -/
def SymPointer.At (ρ : Valuation) (m : Machine) : SymPointer → Nat → Prop
  | .mk p o _ _, a => ∃ b, p.At ρ m b ∧ a = (b + o.eval ρ) % 2 ^ 64

end

/-- The machine word a value denotes. -/
def SymValue.At (ρ : Valuation) (m : Machine) : SymValue → Nat → Prop
  | .scalar e, a => a = e.eval ρ
  | .ptr p, a => p.At ρ m a

/-- The width a value is compared at. -/
def SymValue.width : SymValue → Nat
  | .scalar e => e.width
  | .ptr _ => 64

/-- The valuation and the machine are a concrete instance of the path state: its conditions hold,
    the identity symbols are the identities' addresses, and no region runs over the end of the
    address space. -/
structure PathState.Describes (st : PathState) (ρ : Valuation) (m : Machine) : Prop where
  path : ∀ c ∈ st.pathcond, c.Holds ρ
  fact : ∀ c ∈ st.facts, c.Holds ρ
  ident : ∀ i, m.ident i = ρ (ptrName i) 64 % 2 ^ 64
  fits : ∀ r reg, st.regions[r]? = some reg → m.base r + reg.size.eval ρ < 2 ^ 64

/-! ## Freshness -/

/-- No symbol of the expression is still to be handed out after `n`. -/
def Expr.Below (n : Nat) (e : Expr) : Prop := ∀ p ∈ e.symbolsOf, ∀ k, n ≤ k → p.1 ≠ freshName k

mutual

def Prov.Below (n : Nat) : Prov → Prop
  | .select c t e => c.Below n ∧ t.Below n ∧ e.Below n
  | _ => True

def SymPointer.Below (n : Nat) : SymPointer → Prop
  | .mk p o _ _ => p.Below n ∧ o.Below n

end

/-- Expressions below `n`, and a pointer-wide offset. -/
def SymValue.Ok (n : Nat) : SymValue → Prop
  | .scalar e => e.Below n
  | .ptr p => p.Below n ∧ p.offset.width = ptrWidth

def PathState.Ok (n : Nat) (st : PathState) : Prop :=
  ∀ r v, st.env r = some v → v.Ok n

/-- The two valuations differ at most on symbols handed out from `n` on. -/
def Valuation.Agree (n : Nat) (ρ ρ' : Valuation) : Prop :=
  ∀ name w, (∀ k, n ≤ k → name ≠ freshName k) → ρ name w = ρ' name w

theorem Expr.Below.mono {n k : Nat} (hnk : n ≤ k) {e : Expr} (h : e.Below n) : e.Below k :=
  fun p hp j hj => h p hp j (Nat.le_trans hnk hj)

theorem Expr.Below.eval_eq {n : Nat} {e : Expr} (h : e.Below n) {ρ ρ' : Valuation}
    (ha : Valuation.Agree n ρ ρ') : e.eval ρ = e.eval ρ' :=
  Expr.eval_congr e fun p hp => ha p.1 p.2 (h p hp)

theorem Expr.below_int (n w v : Nat) : (Expr.int w v).Below n :=
  fun _ hp => absurd hp List.not_mem_nil

theorem toList_freshName (k : Nat) : (freshName k).toList = '?' :: Nat.toDigits 10 k := by
  simp [freshName, Nat.toString_eq_repr, Nat.repr_eq_ofList_toDigits]

theorem freshName_inj {j k : Nat} (h : freshName j = freshName k) : j = k := by
  have hl := congrArg String.toList h
  rw [toList_freshName, toList_freshName, List.cons.injEq] at hl
  have hd := congrArg (fun ds => Nat.ofDigitChars 10 ds 0) hl.2
  simpa only [Nat.ofDigitChars_toDigits (by decide : 1 < 10) (by decide : 10 ≤ 10)] using hd

theorem ne_freshName {c : Char} {s : String} (hc : c ≠ '?') (hs : s.toList.head? = some c)
    (k : Nat) : s ≠ freshName k := by
  intro h
  rw [h, toList_freshName] at hs
  exact hc (Option.some.inj hs).symm

theorem ptrName_ne_freshName (i k : Nat) : ptrName i ≠ freshName k :=
  ne_freshName (by decide : 'p' ≠ '?') (by simp [ptrName]) k

/-- The valuation with the fresh symbol `k` set to `x`. -/
def Valuation.setFresh (ρ : Valuation) (k x : Nat) : Valuation :=
  fun name w => if name = freshName k then x else ρ name w

theorem Valuation.Agree.refl (n : Nat) (ρ : Valuation) : Valuation.Agree n ρ ρ := fun _ _ _ => rfl

theorem Valuation.Agree.trans {n : Nat} {ρ₁ ρ₂ ρ₃ : Valuation} (h₁ : Valuation.Agree n ρ₁ ρ₂)
    (h₂ : Valuation.Agree n ρ₂ ρ₃) : Valuation.Agree n ρ₁ ρ₃ :=
  fun name w h => (h₁ name w h).trans (h₂ name w h)

theorem Valuation.agree_setFresh {n k : Nat} (h : n ≤ k) (ρ : Valuation) (x : Nat) :
    Valuation.Agree n ρ (ρ.setFresh k x) := by
  intro name w hn
  rw [setFresh, if_neg (hn k h)]

@[simp] theorem eval_setFresh_self (ρ : Valuation) (k x w : Nat) :
    (Expr.sym (freshName k) w).eval (ρ.setFresh k x) = x % 2 ^ w := by
  rw [Expr.eval, Valuation.setFresh, if_pos rfl]

theorem eval_setFresh_of_ne {j k : Nat} (h : j ≠ k) (ρ : Valuation) (x w : Nat) :
    (Expr.sym (freshName j) w).eval (ρ.setFresh k x) = ρ (freshName j) w % 2 ^ w := by
  rw [Expr.eval, Valuation.setFresh, if_neg fun he => h (freshName_inj he)]

/-! ## Evaluated operands -/

theorem SymPointer.Below.mono {n k : Nat} (hnk : n ≤ k) : ∀ {p : SymPointer}, p.Below n → p.Below k
  | .mk .null _ _ _, h => ⟨trivial, h.2.mono hnk⟩
  | .mk (.region _) _ _ _, h => ⟨trivial, h.2.mono hnk⟩
  | .mk (.unknown _ _) _ _ _, h => ⟨trivial, h.2.mono hnk⟩
  | .mk (.select _ _ _) _ _ _, h =>
    ⟨⟨h.1.1.mono hnk, SymPointer.Below.mono hnk h.1.2.1, SymPointer.Below.mono hnk h.1.2.2⟩,
      h.2.mono hnk⟩

theorem SymValue.Ok.mono {n k : Nat} (hnk : n ≤ k) {v : SymValue} (h : v.Ok n) : v.Ok k := by
  cases v with
  | scalar e => exact Expr.Below.mono hnk h
  | ptr p => exact ⟨h.1.mono hnk, h.2⟩

theorem SymValue.Ok.sanitize {n : Nat} {v : SymValue} (h : v.Ok n) (rcount : Nat) :
    (sanitize rcount v).Ok n := by
  rcases v with e | ⟨_ | r | ⟨c, t, f⟩ | ⟨o, i⟩, off, al, bo⟩ <;>
    simp only [Csolver.sanitize] <;> try exact h
  split_ifs
  · exact ⟨⟨trivial, h.1.2⟩, h.2⟩
  · exact h

theorem freshScalar_ok (ex : Explorer) (w : Nat) :
    (freshScalar w ex).1.Below (freshScalar w ex).2.fresh ∧
      ex.fresh ≤ (freshScalar w ex).2.fresh := by
  refine ⟨fun p hp k hk he => ?_, Nat.le_succ _⟩
  rw [List.mem_singleton.mp hp] at he
  exact absurd (freshName_inj he) (Nat.ne_of_lt hk)

theorem mkBin_sub_int (x y : Nat) : ∃ v, Expr.mkBin .sub (.int ptrWidth x) (.int ptrWidth y) =
    .int ptrWidth v := by
  have hx : ∀ z, ∃ bv : BitVector, bv.width = ptrWidth ∧ (Expr.int ptrWidth z).asConst = some bv := by
    intro z
    have hw : 0 < ptrWidth ∧ ptrWidth ≤ 128 := by decide
    exact ⟨⟨ptrWidth, z % 2 ^ ptrWidth % 2 ^ ptrWidth, hw.1, hw.2, Nat.mod_lt _ (by norm_num)⟩, rfl,
      by rw [Expr.int, Expr.asConst, BitVector.new, dif_pos hw]⟩
  obtain ⟨bx, hbx, hex⟩ := hx x
  obtain ⟨cy, hcy, hey⟩ := hx y
  refine ⟨(bx.value + (2 ^ 128 - cy.value)) % 2 ^ 128, ?_⟩
  rw [Expr.mkBin, Expr.folded, hex, hey]
  simp only [hbx, hcy, if_true, foldBin]
  rfl

theorem evalValue_ok {st : PathState} {ex : Explorer} (hst : st.Ok ex.fresh) (op : Operand) :
    (evalValue op st ex).1.Ok (evalValue op st ex).2.fresh ∧
      ex.fresh ≤ (evalValue op st ex).2.fresh := by
  have hzero : ∀ p al bo, Prov.Below ex.fresh p →
      (SymValue.ptr (.mk p (.int ptrWidth 0) al bo)).Ok ex.fresh :=
    fun p al bo hp => ⟨⟨hp, Expr.below_int _ _ _⟩, rfl⟩
  rcases op with r | ⟨bv | _ | _ | name | ⟨name, off⟩⟩
  · cases hr : st.env r with
    | some v =>
      simp only [evalValue, hr]
      exact ⟨(hst r v hr).sanitize _, Nat.le_refl _⟩
    | none =>
      simp only [evalValue, hr]
      exact freshScalar_ok ex ptrWidth
  · exact ⟨fun _ hp => absurd hp List.not_mem_nil, Nat.le_refl _⟩
  · exact ⟨hzero _ _ _ trivial, Nat.le_refl _⟩
  · exact freshScalar_ok ex ptrWidth
  · cases hg : ex.globalRids name with
    | some p =>
      simp only [evalValue, hg]
      exact ⟨hzero _ _ _ trivial, Nat.le_refl _⟩
    | none =>
      simp only [evalValue, hg]
      refine ⟨fun p hp k _ => ?_, Nat.le_refl _⟩
      rw [List.mem_singleton.mp hp]
      exact ne_freshName (by decide : '@' ≠ '?') (by simp) k
  · cases hg : ex.globalRids name with
    | some p =>
      simp only [evalValue, hg]
      obtain ⟨v, hv⟩ : ∃ v, (if 0 ≤ off then Expr.int ptrWidth off.toNat
          else Expr.mkBin .sub (.int ptrWidth 0) (.int ptrWidth (-off).toNat)) = .int ptrWidth v := by
        split_ifs
        · exact ⟨_, rfl⟩
        · exact mkBin_sub_int _ _
      rw [hv]
      exact ⟨⟨⟨trivial, Expr.below_int _ _ _⟩, rfl⟩, Nat.le_refl _⟩
    | none =>
      simp only [evalValue, hg]
      exact freshScalar_ok ex ptrWidth

end Csolver
