import Csolver.Solver.ExprCtx
import Mathlib.Tactic.Ring

/-!
# Terms and formulas (`crates/solver/src/lib.rs`)

The small constraint language of the solver crate and its simplifier. The crate has no evaluator,
so the meaning of a term is given here: a word, that is a width and as many bits. Operands of one
width combine modulo `2 ^ width`. The language says nothing of operands of two widths, so their
reading is a parameter (`Mixed`), and what is proved holds whatever it is.
-/

namespace Csolver

namespace BitVector

/-- `BitVector::new` at the width of a constant at hand, which cannot panic. -/
def newAt (x : BitVector) (value : Nat) : BitVector :=
  ⟨x.width, value % 2 ^ x.width, x.width_pos, x.width_le, Nat.mod_lt _ (Nat.two_pow_pos _)⟩

/-- `wrapping_add`: on `u128`, then reduced. The assertion on the widths is the argument. -/
def wrappingAdd (x y : BitVector) (_ : x.width = y.width) : BitVector :=
  newAt x ((x.value + y.value) % 2 ^ 128)

def wrappingSub (x y : BitVector) (_ : x.width = y.width) : BitVector :=
  newAt x ((x.value + (2 ^ 128 - y.value)) % 2 ^ 128)

/-! Constants as bits. -/

@[simp] theorem width_newAt (x : BitVector) (n : Nat) : (x.newAt n).width = x.width := rfl

theorem bits_newAt (x : BitVector) (n : Nat) :
    BitVec.ofNat x.width (x.newAt (n % 2 ^ 128)).value = BitVec.ofNat x.width n := by
  apply BitVec.eq_of_toNat_eq
  have hdvd : 2 ^ x.width ∣ 2 ^ 128 := Nat.pow_dvd_pow 2 x.width_le
  simp only [BitVector.newAt, BitVec.toNat_ofNat, Nat.mod_mod]
  exact Nat.mod_mod_of_dvd n hdvd

theorem ofNat_sub_u128 {w x y : Nat} (hw : w ≤ 128) (hy : y < 2 ^ w) :
    BitVec.ofNat w (x + (2 ^ 128 - y)) = BitVec.ofNat w x - BitVec.ofNat w y := by
  apply BitVec.eq_of_toNat_eq
  have hsplit : 2 ^ 128 - y = (2 ^ w - y) + 2 ^ w * (2 ^ (128 - w) - 1) := by
    have hpow : 2 ^ 128 = 2 ^ w * 2 ^ (128 - w) := by rw [← Nat.pow_add]; congr 1; omega
    have hge : 2 ^ w ≤ 2 ^ w * 2 ^ (128 - w) := Nat.le_mul_of_pos_right _ (Nat.two_pow_pos _)
    rw [hpow, Nat.mul_sub, Nat.mul_one]
    omega
  rw [hsplit, BitVec.toNat_sub]
  simp only [BitVec.toNat_ofNat, Nat.mod_eq_of_lt hy]
  rw [← Nat.add_assoc, Nat.add_mul_mod_self_left, Nat.add_mod_mod, Nat.add_comm]

theorem toNat_bits {x y : BitVector} (h : x.width = y.width) :
    (BitVec.ofNat x.width y.value).toNat = y.value := by
  rw [BitVec.toNat_ofNat, Nat.mod_eq_of_lt (h ▸ y.value_lt)]

theorem eq_iff_bits {x y : BitVector} (h : x.width = y.width) :
    x = y ↔ BitVec.ofNat x.width x.value = BitVec.ofNat x.width y.value := by
  constructor
  · rintro rfl
    rfl
  · intro hbits
    have hval := congrArg BitVec.toNat hbits
    rw [toNat_bits rfl, toNat_bits h] at hval
    obtain ⟨w, y, _, _, _⟩ := y
    obtain ⟨w', x, _, _, _⟩ := x
    obtain rfl : w' = w := h
    obtain rfl : x = y := hval
    rfl

end BitVector

namespace Solver

/-- A bit-vector term. -/
inductive Term where
  | const (bv : BitVector)
  | var (name : String) (width : Nat)
  | add (a b : Term)
  | sub (a b : Term)
  | mul (a b : Term)
  deriving DecidableEq

namespace Term

def width : Term → Nat
  | const bv => bv.width
  | var _ width => width
  | add a _ | sub a _ | mul a _ => a.width

/-- The constant value, if the term is a literal. -/
def asConst : Term → Option BitVector
  | const bv => some bv
  | _ => none

theorem asConst_eq_some {t : Term} {x : BitVector} : t.asConst = some x ↔ t = const x := by
  cases t <;> simp [asConst]

end Term

/-- A boolean constraint over terms. -/
inductive Formula where
  | bool (b : Bool)
  | ult (a b : Term)
  | ule (a b : Term)
  | eq (a b : Term)
  | and (cs : List Formula)
  | or (cs : List Formula)
  | not (c : Formula)

/-! ## The simplifier -/

/-- `fold`, on operands already simplified. -/
def fold (a b : Term) (op : (x y : BitVector) → x.width = y.width → BitVector)
    (rebuild : Term → Term → Term) : Term :=
  match a.asConst, b.asConst with
  | some x, some y => if h : x.width = y.width then .const (op x y h) else rebuild a b
  | _, _ => rebuild a b

def simplifyTerm : Term → Term
  | .const bv => .const bv
  | .var name width => .var name width
  | .add a b => fold (simplifyTerm a) (simplifyTerm b) BitVector.wrappingAdd .add
  | .sub a b => fold (simplifyTerm a) (simplifyTerm b) BitVector.wrappingSub .sub
  | .mul a b =>
    fold (simplifyTerm a) (simplifyTerm b)
      (fun x y _ => BitVector.newAt x (x.value * y.value % 2 ^ 128)) .mul

def cmp (a b : Term) (rel : BitVector → BitVector → Bool) (rebuild : Term → Term → Formula) :
    Formula :=
  let a := simplifyTerm a
  let b := simplifyTerm b
  match a.asConst, b.asConst with
  | some x, some y => if x.width = y.width then .bool (rel x y) else rebuild a b
  | _, _ => rebuild a b

/-- What a connective with neutral element `unit` makes of the conjuncts it kept. -/
def connect (unit : Bool) (rebuild : List Formula → Formula) : List Formula → Formula
  | [] => .bool unit
  | [c] => c
  | out => rebuild out

mutual

/-- Simplify a formula: fold constant comparisons and flatten trivial connectives. -/
def simplify : Formula → Formula
  | .bool b => .bool b
  | .ult a b => cmp a b (fun x y => x.value < y.value) .ult
  | .ule a b => cmp a b (fun x y => x.value ≤ y.value) .ule
  | .eq a b => cmp a b (fun x y => x = y) .eq
  | .and cs => simplifyAnd cs []
  | .or cs => simplifyOr cs []
  | .not c =>
    match simplify c with
    | .bool b => .bool (!b)
    | other => .not other

/-- The loop over the conjuncts; `out` holds those kept so far. -/
def simplifyAnd : List Formula → List Formula → Formula
  | [], out => connect true .and out
  | c :: cs, out =>
    match simplify c with
    | .bool true => simplifyAnd cs out
    | .bool false => .bool false
    | other => simplifyAnd cs (out ++ [other])

def simplifyOr : List Formula → List Formula → Formula
  | [], out => connect false .or out
  | c :: cs, out =>
    match simplify c with
    | .bool false => simplifyOr cs out
    | .bool true => .bool true
    | other => simplifyOr cs (out ++ [other])

end

/-! ## Meaning -/

/-- What a term denotes: a width and that many bits. -/
structure Word where
  width : Nat
  bits : BitVec width
  deriving DecidableEq

/-- A valuation gives every variable as many bits as its width asks for. -/
abbrev Valuation := String → (width : Nat) → BitVec width

/-- The reading of operands whose widths differ. -/
structure Mixed where
  add : Word → Word → Word
  sub : Word → Word → Word
  mul : Word → Word → Word
  ult : Word → Word → Bool
  ule : Word → Word → Bool
  eq : Word → Word → Bool

/-- `op` on words of one width, `mixed` on the others. -/
def Word.on {α : Type} (op : (w : Nat) → BitVec w → BitVec w → α) (mixed : Word → Word → α)
    (x y : Word) : α :=
  if h : y.width = x.width then op x.width x.bits (y.bits.cast h) else mixed x y

variable (M : Mixed) (ρ : Valuation)

def Term.value : Term → Word
  | .const bv => ⟨bv.width, BitVec.ofNat bv.width bv.value⟩
  | .var name width => ⟨width, ρ name width⟩
  | .add a b => Word.on (fun w x y => ⟨w, x + y⟩) M.add a.value b.value
  | .sub a b => Word.on (fun w x y => ⟨w, x - y⟩) M.sub a.value b.value
  | .mul a b => Word.on (fun w x y => ⟨w, x * y⟩) M.mul a.value b.value

mutual

def Formula.value : Formula → Bool
  | .bool b => b
  | .ult a b => Word.on (fun _ x y => x.ult y) M.ult (a.value M ρ) (b.value M ρ)
  | .ule a b => Word.on (fun _ x y => x.ule y) M.ule (a.value M ρ) (b.value M ρ)
  | .eq a b => Word.on (fun _ x y => x == y) M.eq (a.value M ρ) (b.value M ρ)
  | .and cs => Formula.allValue cs
  | .or cs => Formula.anyValue cs
  | .not c => !c.value

def Formula.allValue : List Formula → Bool
  | [] => true
  | c :: cs => c.value && Formula.allValue cs

def Formula.anyValue : List Formula → Bool
  | [] => false
  | c :: cs => c.value || Formula.anyValue cs

end

/-! ## Terms keep their value -/

variable {M ρ}

@[simp] theorem Word.on_same {α : Type} {op : (w : Nat) → BitVec w → BitVec w → α}
    {mixed : Word → Word → α} {w : Nat} {x y : BitVec w} :
    Word.on op mixed ⟨w, x⟩ ⟨w, y⟩ = op w x y := by
  simp [Word.on]

/-- Folding is sound for an operation that agrees with `op` on constants of one width. -/
theorem fold_value {a b : Term} {op : (x y : BitVector) → x.width = y.width → BitVector}
    {rebuild : Term → Term → Term} {sem : (w : Nat) → BitVec w → BitVec w → BitVec w}
    {mixed : Word → Word → Word}
    (hop : ∀ x y h, (Term.const (op x y h)).value M ρ
      = ⟨x.width, sem x.width (BitVec.ofNat _ x.value) (BitVec.ofNat _ y.value)⟩)
    (hrebuild : (rebuild a b).value M ρ
      = Word.on (fun w x y => ⟨w, sem w x y⟩) mixed (a.value M ρ) (b.value M ρ)) :
    (fold a b op rebuild).value M ρ
      = Word.on (fun w x y => ⟨w, sem w x y⟩) mixed (a.value M ρ) (b.value M ρ) := by
  unfold fold
  split
  · next x y ha hb =>
    split_ifs with h
    · rw [Term.asConst_eq_some.mp ha, Term.asConst_eq_some.mp hb, hop]
      obtain ⟨w, y, _, _, _⟩ := y
      obtain rfl : x.width = w := h
      simp [Term.value]
    · exact hrebuild
  · exact hrebuild

theorem simplifyTerm_value (t : Term) : (simplifyTerm t).value M ρ = t.value M ρ := by
  induction t with
  | const bv => rfl
  | var name width => rfl
  | add a b iha ihb =>
    rw [simplifyTerm, Term.value, ← iha, ← ihb]
    refine fold_value (fun x y h => ?_) rfl
    simp only [Term.value, BitVector.wrappingAdd, BitVector.width_newAt]
    rw [BitVector.bits_newAt, BitVec.ofNat_add]
  | sub a b iha ihb =>
    rw [simplifyTerm, Term.value, ← iha, ← ihb]
    refine fold_value (fun x y h => ?_) rfl
    simp only [Term.value, BitVector.wrappingSub, BitVector.width_newAt]
    rw [BitVector.bits_newAt, BitVector.ofNat_sub_u128 x.width_le (h ▸ y.value_lt)]
  | mul a b iha ihb =>
    rw [simplifyTerm, Term.value, ← iha, ← ihb]
    refine fold_value (fun x y h => ?_) rfl
    simp only [Term.value, BitVector.width_newAt]
    rw [BitVector.bits_newAt, BitVec.ofNat_mul]

/-! ## Formulas keep their value -/

theorem Formula.allValue_append (cs ds : List Formula) :
    Formula.allValue M ρ (cs ++ ds) = (Formula.allValue M ρ cs && Formula.allValue M ρ ds) := by
  induction cs with
  | nil => simp [Formula.allValue]
  | cons c cs ih => simp [Formula.allValue, ih, Bool.and_assoc]

theorem Formula.anyValue_append (cs ds : List Formula) :
    Formula.anyValue M ρ (cs ++ ds) = (Formula.anyValue M ρ cs || Formula.anyValue M ρ ds) := by
  induction cs with
  | nil => simp [Formula.anyValue]
  | cons c cs ih => simp [Formula.anyValue, ih, Bool.or_assoc]

theorem connect_and_value (out : List Formula) :
    (connect true .and out).value M ρ = Formula.allValue M ρ out := by
  match out with
  | [] => rfl
  | [c] => simp [connect, Formula.allValue]
  | _ :: _ :: _ => rfl

theorem connect_or_value (out : List Formula) :
    (connect false .or out).value M ρ = Formula.anyValue M ρ out := by
  match out with
  | [] => rfl
  | [c] => simp [connect, Formula.anyValue]
  | _ :: _ :: _ => rfl

theorem cmp_value {a b : Term} {rel : BitVector → BitVector → Bool}
    {rebuild : Term → Term → Formula} {sem : (w : Nat) → BitVec w → BitVec w → Bool}
    {mixed : Word → Word → Bool}
    (hrel : ∀ x y : BitVector, x.width = y.width →
      rel x y = sem x.width (BitVec.ofNat _ x.value) (BitVec.ofNat _ y.value))
    (hrebuild : ∀ a b : Term,
      (rebuild a b).value M ρ = Word.on sem mixed (a.value M ρ) (b.value M ρ)) :
    (cmp a b rel rebuild).value M ρ = Word.on sem mixed (a.value M ρ) (b.value M ρ) := by
  rw [← simplifyTerm_value a, ← simplifyTerm_value b]
  unfold cmp
  simp only
  split
  · next x y ha hb =>
    split_ifs with h
    · rw [Term.asConst_eq_some.mp ha, Term.asConst_eq_some.mp hb]
      have hr := hrel x y h
      obtain ⟨w, y, _, _, _⟩ := y
      obtain rfl : x.width = w := h
      simp [Term.value, Formula.value, hr]
    · exact hrebuild _ _
  · exact hrebuild _ _

mutual

theorem simplify_value : ∀ f : Formula, (simplify f).value M ρ = f.value M ρ
  | .bool b => rfl
  | .ult a b => by
    rw [simplify, Formula.value]
    refine cmp_value (fun x y h => ?_) fun _ _ => rfl
    simp [BitVec.ult, BitVector.toNat_bits h, BitVector.toNat_bits (Eq.refl x.width)]
  | .ule a b => by
    rw [simplify, Formula.value]
    refine cmp_value (fun x y h => ?_) fun _ _ => rfl
    simp [BitVec.ule, BitVector.toNat_bits h, BitVector.toNat_bits (Eq.refl x.width)]
  | .eq a b => by
    rw [simplify, Formula.value]
    refine cmp_value (fun x y h => ?_) fun _ _ => rfl
    simp only [BitVector.eq_iff_bits h]
    rfl
  | .and cs => by
    rw [simplify, simplifyAnd_value, Formula.value]
    simp [Formula.allValue]
  | .or cs => by
    rw [simplify, simplifyOr_value, Formula.value]
    simp [Formula.anyValue]
  | .not c => by
    have hc := simplify_value c
    rw [simplify, Formula.value, ← hc]
    split
    · next b hb => rw [hb]; rfl
    · rfl

theorem simplifyAnd_value : ∀ cs out : List Formula,
    (simplifyAnd cs out).value M ρ = (Formula.allValue M ρ out && Formula.allValue M ρ cs)
  | [], out => by
    rw [simplifyAnd, connect_and_value]
    simp [Formula.allValue]
  | c :: cs, out => by
    have hc := simplify_value c
    rw [simplifyAnd, Formula.allValue, ← hc]
    split
    · next h => rw [h, simplifyAnd_value]; simp [Formula.value]
    · next h => rw [h]; simp [Formula.value]
    · rw [simplifyAnd_value, Formula.allValue_append]
      simp [Formula.allValue, Bool.and_assoc]

theorem simplifyOr_value : ∀ cs out : List Formula,
    (simplifyOr cs out).value M ρ = (Formula.anyValue M ρ out || Formula.anyValue M ρ cs)
  | [], out => by
    rw [simplifyOr, connect_or_value]
    simp [Formula.anyValue]
  | c :: cs, out => by
    have hc := simplify_value c
    rw [simplifyOr, Formula.anyValue, ← hc]
    split
    · next h => rw [h, simplifyOr_value]; simp [Formula.value]
    · next h => rw [h]; simp [Formula.value]
    · rw [simplifyOr_value, Formula.anyValue_append]
      simp [Formula.anyValue, Bool.or_assoc]

end

/-- Neither simplifier changes what it is given means, under any valuation and any reading of
operands of different widths. -/
theorem simplify_preserves (M : Mixed) (ρ : Valuation) :
    (∀ f : Formula, (simplify f).value M ρ = f.value M ρ) ∧
      ∀ t : Term, (simplifyTerm t).value M ρ = t.value M ρ :=
  ⟨simplify_value, simplifyTerm_value⟩

end Solver

end Csolver
