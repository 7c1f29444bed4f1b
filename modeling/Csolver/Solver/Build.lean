import Csolver.Solver.ExprCtx

/-!
# The builders, on trees (`crates/solver/src/expr.rs`)

The symbolic executor never looks at a handle except to compare it with another one, and interning
makes equal handles equal trees. So above the arena an expression is its tree, and a builder is a
function on trees: the same folding, the same identities, in the same order as in `ExprCtx`.

One thing differs. `and` and `or` sort their operands by handle, that is, by age; a tree has no age,
so here the operands stay as they came. The value of a connective does not depend on it
(`eval_mkAnd`, `eval_mkOr`).
-/

namespace Csolver.Expr

/-! ## Equality of trees -/

mutual

def beq : Expr → Expr → Bool
  | const w v, const w' v' => w == w' && v == v'
  | sym n w, sym n' w' => n == n' && w == w'
  | bin op a b, bin op' a' b' => op == op' && (beq a a' && beq b b')
  | cmp op a b, cmp op' a' b' => op == op' && (beq a a' && beq b b')
  | bool b, bool b' => b == b'
  | not e, not e' => beq e e'
  | and es, and es' => beqs es es'
  | or es, or es' => beqs es es'
  | ite c t e, ite c' t' e' => beq c c' && (beq t t' && beq e e')
  | zext w e, zext w' e' => w == w' && beq e e'
  | sext w e, sext w' e' => w == w' && beq e e'
  | _, _ => false

def beqs : List Expr → List Expr → Bool
  | [], [] => true
  | e :: es, e' :: es' => beq e e' && beqs es es'
  | _, _ => false

end

mutual

theorem eq_of_beq' : ∀ {a b : Expr}, beq a b = true → a = b
  | const w v, b, h => by
    cases b <;> simp_all [beq]
  | sym n w, b, h => by
    cases b <;> simp_all [beq]
  | bin op x y, b, h => by
    cases b <;> simp only [beq, Bool.and_eq_true, beq_iff_eq, Bool.false_eq_true] at h
    rw [h.1, eq_of_beq' h.2.1, eq_of_beq' h.2.2]
  | cmp op x y, b, h => by
    cases b <;> simp only [beq, Bool.and_eq_true, beq_iff_eq, Bool.false_eq_true] at h
    rw [h.1, eq_of_beq' h.2.1, eq_of_beq' h.2.2]
  | bool x, b, h => by
    cases b <;> simp_all [beq]
  | not x, b, h => by
    cases b <;> simp only [beq, Bool.false_eq_true] at h
    rw [eq_of_beq' h]
  | and xs, b, h => by
    cases b <;> simp only [beq, Bool.false_eq_true] at h
    rw [eq_of_beqs h]
  | or xs, b, h => by
    cases b <;> simp only [beq, Bool.false_eq_true] at h
    rw [eq_of_beqs h]
  | ite x y z, b, h => by
    cases b <;> simp only [beq, Bool.and_eq_true, Bool.false_eq_true] at h
    rw [eq_of_beq' h.1, eq_of_beq' h.2.1, eq_of_beq' h.2.2]
  | zext w x, b, h => by
    cases b <;> simp only [beq, Bool.and_eq_true, beq_iff_eq, Bool.false_eq_true] at h
    rw [h.1, eq_of_beq' h.2]
  | sext w x, b, h => by
    cases b <;> simp only [beq, Bool.and_eq_true, beq_iff_eq, Bool.false_eq_true] at h
    rw [h.1, eq_of_beq' h.2]

theorem eq_of_beqs : ∀ {as bs : List Expr}, beqs as bs = true → as = bs
  | [], bs, h => by
    cases bs <;> simp_all [beqs]
  | x :: xs, bs, h => by
    cases bs <;> simp only [beqs, Bool.and_eq_true, Bool.false_eq_true] at h
    rw [eq_of_beq' h.1, eq_of_beqs h.2]

end

mutual

theorem beq_refl : ∀ a : Expr, beq a a = true
  | const w v => by simp [beq]
  | sym n w => by simp [beq]
  | bin op x y => by simp [beq, beq_refl x, beq_refl y]
  | cmp op x y => by simp [beq, beq_refl x, beq_refl y]
  | bool x => by simp [beq]
  | not x => by simp [beq, beq_refl x]
  | and xs => by simp [beq, beqs_refl xs]
  | or xs => by simp [beq, beqs_refl xs]
  | ite x y z => by simp [beq, beq_refl x, beq_refl y, beq_refl z]
  | zext w x => by simp [beq, beq_refl x]
  | sext w x => by simp [beq, beq_refl x]

theorem beqs_refl : ∀ as : List Expr, beqs as as = true
  | [] => rfl
  | x :: xs => by simp [beqs, beq_refl x, beqs_refl xs]

end

instance : DecidableEq Expr := fun a b =>
  decidable_of_iff (beq a b = true) ⟨eq_of_beq', fun h => h ▸ beq_refl a⟩

/-! ## Symbols -/

mutual

/-- `symbols_of`: every symbol an expression mentions. -/
def symbolsOf : Expr → List (String × Nat)
  | const _ _ => []
  | sym n w => [(n, w)]
  | bin _ a b => symbolsOf a ++ symbolsOf b
  | cmp _ a b => symbolsOf a ++ symbolsOf b
  | bool _ => []
  | not e => symbolsOf e
  | and es => symbolsOfAll es
  | or es => symbolsOfAll es
  | ite c t e => symbolsOf c ++ (symbolsOf t ++ symbolsOf e)
  | zext _ e => symbolsOf e
  | sext _ e => symbolsOf e

def symbolsOfAll : List Expr → List (String × Nat)
  | [] => []
  | e :: es => symbolsOf e ++ symbolsOfAll es

end

mutual

theorem eval_congr {ρ ρ' : Valuation} : ∀ (e : Expr),
    (∀ p ∈ symbolsOf e, ρ p.1 p.2 = ρ' p.1 p.2) → e.eval ρ = e.eval ρ'
  | const _ _, _ => rfl
  | sym n w, h => by rw [eval, eval, h (n, w) (List.mem_singleton_self _)]
  | bin op a b, h => by
    rw [symbolsOf, List.forall_mem_append] at h
    rw [eval, eval, eval_congr a h.1, eval_congr b h.2]
  | cmp op a b, h => by
    rw [symbolsOf, List.forall_mem_append] at h
    rw [eval, eval, eval_congr a h.1, eval_congr b h.2]
  | bool _, _ => rfl
  | not e, h => by rw [eval, eval, eval_congr e h]
  | and es, h => by rw [eval, eval, (evalAll_congr es h).1]
  | or es, h => by rw [eval, eval, (evalAll_congr es h).2]
  | ite c t e, h => by
    rw [symbolsOf, List.forall_mem_append, List.forall_mem_append] at h
    rw [eval, eval, eval_congr c h.1, eval_congr t h.2.1, eval_congr e h.2.2]
  | zext w e, h => by rw [eval, eval, eval_congr e h]
  | sext w e, h => by rw [eval, eval, eval_congr e h]

theorem evalAll_congr {ρ ρ' : Valuation} : ∀ (es : List Expr),
    (∀ p ∈ symbolsOfAll es, ρ p.1 p.2 = ρ' p.1 p.2) →
      evalAll ρ es = evalAll ρ' es ∧ evalAny ρ es = evalAny ρ' es
  | [], _ => ⟨rfl, rfl⟩
  | e :: es, h => by
    rw [symbolsOfAll, List.forall_mem_append] at h
    obtain ⟨hall, hany⟩ := evalAll_congr es h.2
    exact ⟨by rw [evalAll, evalAll, eval_congr e h.1, hall],
      by rw [evalAny, evalAny, eval_congr e h.1, hany]⟩

end

/-! ## Builders -/

def asConst : Expr → Option BitVector
  | const w v => BitVector.new w v
  | _ => none

def asBool : Expr → Option Bool
  | bool b => some b
  | _ => none

/-- `int`: a constant reduced to its width. -/
def int (w v : Nat) : Expr := const w (v % 2 ^ w)

def mkZext (e : Expr) (w : Nat) : Expr :=
  if w ≤ e.width then e
  else match e.asConst with
    | some bv => int w bv.value
    | none => zext w e

/-- Constant folding of `bin`. -/
def folded (op : BvOp) (a b : Expr) : Option Nat :=
  match a.asConst, b.asConst with
  | some x, some y => if x.width = y.width then foldBin op x y a.width else none
  | _, _ => none

/-- The identities of `bin`. -/
def identity (op : BvOp) (a b : Expr) : Option Expr :=
  let zero := a.asConst.map fun v => v.value == 0
  let zeroB := b.asConst.map fun v => v.value == 0
  let one := a.asConst.map fun v => v.value == 1
  let oneB := b.asConst.map fun v => v.value == 1
  if (op = .add ∨ op = .sub ∨ op = .or ∨ op = .xor) ∧ zeroB = some true then some a
  else if (op = .add ∨ op = .or) ∧ zero = some true then some b
  else if (op = .mul ∨ op = .and) ∧ zeroB = some true then some b
  else if (op = .mul ∨ op = .and) ∧ zero = some true then some a
  else if op = .mul ∧ oneB = some true then some a
  else if op = .mul ∧ one = some true then some b
  else none

def mkBin (op : BvOp) (a b : Expr) : Expr :=
  match folded op a b with
  | some v => int a.width v
  | none =>
    match identity op a b with
    | some x => x
    | none => if op = .sub ∧ a = b then int a.width 0 else bin op a b

/-- The value of `x op x`. -/
def cmpSelf (op : CmpOp) : Bool := op = .eq ∨ op = .ule ∨ op = .uge ∨ op = .sle ∨ op = .sge

/-- Constant folding of `cmp`. -/
def foldedCmp (op : CmpOp) (a b : Expr) : Option Bool :=
  match a.asConst, b.asConst with
  | some x, some y => if x.width = y.width then some (evalCmp op x y) else none
  | _, _ => none

def mkCmp (op : CmpOp) (a b : Expr) : Expr :=
  match foldedCmp op a b with
  | some v => bool v
  | none => if a = b then bool (cmpSelf op) else cmp op a b

def mkNot : Expr → Expr
  | bool b => bool !b
  | not inner => inner
  | cmp op a b => mkCmp op.negate a b
  | e => not e

/-- The operands of a connective with its neutral literals dropped and its nested occurrences opened
    by `sub`; `none` when an operand is the absorbing literal. -/
def flatten (neutral : Bool) (sub : Expr → Option (List Expr)) : List Expr → Option (List Expr)
  | [] => some []
  | p :: ps =>
    match p.asBool with
    | some b => if b = neutral then flatten neutral sub ps else none
    | none =>
      match sub p with
      | some inner => (flatten neutral sub ps).map (inner ++ ·)
      | none => (flatten neutral sub ps).map (p :: ·)

def andOperands : Expr → Option (List Expr)
  | and inner => some inner
  | _ => none

def orOperands : Expr → Option (List Expr)
  | or inner => some inner
  | _ => none

def mkAnd (parts : List Expr) : Expr :=
  match flatten true andOperands parts with
  | none => bool false
  | some flat =>
    match flat.dedup with
    | [] => bool true
    | [x] => x
    | xs => and xs

def mkOr (parts : List Expr) : Expr :=
  match flatten false orOperands parts with
  | none => bool true
  | some flat =>
    match flat.dedup with
    | [] => bool false
    | [x] => x
    | xs => or xs

def mkIte (c t e : Expr) : Expr :=
  match c.asBool with
  | some b => if b then t else e
  | none => if t = e then t else ite c t e

/-! ## What they mean -/

/-- The condition `e` is true under `ρ`. -/
def Holds (ρ : Valuation) (e : Expr) : Prop := e.eval ρ = 1

instance (ρ : Valuation) (e : Expr) : Decidable (Holds ρ e) := inferInstanceAs (Decidable (_ = _))

variable {ρ : Valuation}

@[simp] theorem holds_bool (b : Bool) : Holds ρ (bool b) ↔ b = true := by
  cases b <;> simp [Holds, eval]

@[simp] theorem holds_and (es : List Expr) : Holds ρ (and es) ↔ ∀ e ∈ es, Holds ρ e := by
  simp [Holds, eval, evalAll_eq]

@[simp] theorem holds_or (es : List Expr) : Holds ρ (or es) ↔ ∃ e ∈ es, Holds ρ e := by
  simp [Holds, eval, evalAny_eq]

@[simp] theorem holds_not (e : Expr) : Holds ρ (not e) ↔ ¬ Holds ρ e := by
  simp [Holds, eval]

@[simp] theorem holds_cmp (op : CmpOp) (a b : Expr) :
    Holds ρ (cmp op a b) ↔ op.eval a.width (a.eval ρ) (b.eval ρ) = true := by
  simp [Holds, eval]

theorem eval_int (w v : Nat) : (int w v).eval ρ = v % 2 ^ w := by
  rw [int, eval, Nat.mod_mod]

@[simp] theorem width_int (w v : Nat) : (int w v).width = w := rfl

theorem asBool_eq {e : Expr} {b : Bool} (h : e.asBool = some b) : e = bool b := by
  cases e with
  | bool x => rw [Option.some.inj h]
  | _ => exact absurd h (by simp [asBool])

theorem asConst_eq {e : Expr} {bv : BitVector} (h : e.asConst = some bv) :
    e.width = bv.width ∧ e.eval ρ = bv.value := by
  cases e with
  | const w v =>
    simp only [asConst, BitVector.new] at h
    split_ifs at h with hw
    rw [← Option.some.inj h]
    exact ⟨rfl, rfl⟩
  | _ => exact absurd h (by simp [asConst])

theorem evalCmp_eq (op : CmpOp) {x y : BitVector} (h : x.width = y.width) :
    evalCmp op x y = op.eval x.width x.value y.value := by
  have hx : x.value % 2 ^ x.width = x.value := Nat.mod_eq_of_lt x.value_lt
  have hy : y.value % 2 ^ x.width = y.value := Nat.mod_eq_of_lt (h ▸ y.value_lt)
  have heq : (BitVec.ofNat x.width x.value = BitVec.ofNat x.width y.value) ↔ x.value = y.value := by
    rw [← BitVec.toNat_inj, BitVec.toNat_ofNat, BitVec.toNat_ofNat, hx, hy]
  have hs : y.signed = (BitVec.ofNat x.width y.value).toInt := by rw [BitVector.signed, h]
  have ht : x.signed = (BitVec.ofNat x.width x.value).toInt := rfl
  cases op with
  | eq => rw [evalCmp, CmpOp.eval, CmpOp.evalBv, Bool.eq_iff_iff, beq_iff_eq, beq_iff_eq, heq]
  | ne => rw [evalCmp, CmpOp.eval, CmpOp.evalBv, Bool.eq_iff_iff, bne_iff_ne, bne_iff_ne, ne_eq, ne_eq, heq]
  | slt => rw [evalCmp, hs, ht]; rfl
  | sle => rw [evalCmp, hs, ht]; rfl
  | sgt => rw [evalCmp, hs, ht]; rfl
  | sge => rw [evalCmp, hs, ht]; rfl
  | _ => simp only [evalCmp, CmpOp.eval, CmpOp.evalBv, BitVec.ult, BitVec.ule, BitVec.toNat_ofNat, hx, hy]

theorem cmpSelf_eq (op : CmpOp) (w x : Nat) : op.eval w x x = cmpSelf op := by
  cases op <;> simp [CmpOp.eval, CmpOp.evalBv, cmpSelf, BitVec.ult, BitVec.ule, BitVec.slt,
    BitVec.sle]

theorem eval_mkCmp (op : CmpOp) (a b : Expr) :
    (mkCmp op a b).eval ρ = (op.eval a.width (a.eval ρ) (b.eval ρ)).toNat := by
  unfold mkCmp
  cases hf : foldedCmp op a b with
  | some v =>
    simp only [foldedCmp] at hf
    cases hx : a.asConst with
    | none => simp [hx] at hf
    | some x =>
      cases hy : b.asConst with
      | none => simp [hx, hy] at hf
      | some y =>
        simp only [hx, hy] at hf
        split_ifs at hf with hw
        obtain ⟨hwa, hva⟩ := asConst_eq (ρ := ρ) hx
        rw [hwa, hva, (asConst_eq hy).2, ← evalCmp_eq op hw, Option.some.inj hf]
        rfl
  | none =>
    simp only
    split_ifs with hab
    · rw [hab, cmpSelf_eq]
      rfl
    · rfl

theorem holds_mkCmp (op : CmpOp) (a b : Expr) :
    Holds ρ (mkCmp op a b) ↔ op.eval a.width (a.eval ρ) (b.eval ρ) = true := by
  rw [Holds, eval_mkCmp]
  cases op.eval a.width (a.eval ρ) (b.eval ρ) <;> simp

theorem negate_eval (op : CmpOp) (w x y : Nat) : op.negate.eval w x y = !op.eval w x y := by
  cases op <;>
    simp only [CmpOp.negate, CmpOp.eval, CmpOp.evalBv, bne, Bool.not_not, BitVec.ule_eq_not_ult,
      BitVec.sle_eq_not_slt]

/-- Flattening a conjunction keeps its operands' conjunction; giving up means one of them is
    false. -/
theorem flatten_and (ps : List Expr) :
    (∀ flat, flatten true andOperands ps = some flat →
      ((∀ e ∈ flat, Holds ρ e) ↔ ∀ p ∈ ps, Holds ρ p)) ∧
    (flatten true andOperands ps = none → ¬ ∀ p ∈ ps, Holds ρ p) := by
  induction ps with
  | nil => simp [flatten]
  | cons p ps ih =>
    cases hb : p.asBool with
    | some b =>
      obtain rfl := asBool_eq hb
      cases b <;> simp [flatten, asBool]
      simpa using ih
    | none =>
      have hpush : ∀ inner : List Expr, ((∀ e ∈ inner, Holds ρ e) ↔ Holds ρ p) →
          (∀ flat, (flatten true andOperands ps).map (inner ++ ·) = some flat →
            ((∀ e ∈ flat, Holds ρ e) ↔ ∀ q ∈ p :: ps, Holds ρ q)) ∧
          ((flatten true andOperands ps).map (inner ++ ·) = none → ¬ ∀ q ∈ p :: ps, Holds ρ q) := by
        intro inner hi
        refine ⟨fun flat hf => ?_, fun hf hall => ?_⟩
        · obtain ⟨zs, hz, rfl⟩ := Option.map_eq_some_iff.mp hf
          rw [List.forall_mem_append, List.forall_mem_cons, hi, ih.1 zs hz]
        · exact ih.2 (Option.map_eq_none_iff.mp hf) (List.forall_mem_cons.mp hall).2
      cases hs : andOperands p with
      | some inner =>
        have hp : p = and inner := by
          cases p with
          | and xs => rw [Option.some.inj hs]
          | _ => exact absurd hs (by simp [andOperands])
        simp only [flatten, hb, hs]
        exact hpush inner (by rw [hp, holds_and])
      | none =>
        simp only [flatten, hb, hs]
        exact hpush [p] (by simp)

theorem flatten_or (ps : List Expr) :
    (∀ flat, flatten false orOperands ps = some flat →
      ((∃ e ∈ flat, Holds ρ e) ↔ ∃ p ∈ ps, Holds ρ p)) ∧
    (flatten false orOperands ps = none → ∃ p ∈ ps, Holds ρ p) := by
  induction ps with
  | nil => simp [flatten]
  | cons p ps ih =>
    cases hb : p.asBool with
    | some b =>
      obtain rfl := asBool_eq hb
      cases b <;> simp [flatten, asBool]
      exact ih
    | none =>
      have hpush : ∀ inner : List Expr, ((∃ e ∈ inner, Holds ρ e) ↔ Holds ρ p) →
          (∀ flat, (flatten false orOperands ps).map (inner ++ ·) = some flat →
            ((∃ e ∈ flat, Holds ρ e) ↔ ∃ q ∈ p :: ps, Holds ρ q)) ∧
          ((flatten false orOperands ps).map (inner ++ ·) = none →
            ∃ q ∈ p :: ps, Holds ρ q) := by
        intro inner hi
        refine ⟨fun flat hf => ?_, fun hf => ?_⟩
        · obtain ⟨zs, hz, rfl⟩ := Option.map_eq_some_iff.mp hf
          rw [List.exists_mem_cons_iff, ← hi, ← ih.1 zs hz]
          simp only [List.mem_append, or_and_right, exists_or]
        · obtain ⟨q, hq, hh⟩ := ih.2 (Option.map_eq_none_iff.mp hf)
          exact ⟨q, List.mem_cons_of_mem _ hq, hh⟩
      cases hs : orOperands p with
      | some inner =>
        have hp : p = or inner := by
          cases p with
          | or xs => rw [Option.some.inj hs]
          | _ => exact absurd hs (by simp [orOperands])
        simp only [flatten, hb, hs]
        exact hpush inner (by rw [hp, holds_or])
      | none =>
        simp only [flatten, hb, hs]
        exact hpush [p] (by simp)

@[simp] theorem holds_mkAnd (ps : List Expr) : Holds ρ (mkAnd ps) ↔ ∀ p ∈ ps, Holds ρ p := by
  unfold mkAnd
  cases hf : flatten true andOperands ps with
  | none => simpa using (flatten_and ps).2 hf
  | some flat =>
    have hmem : (∀ e ∈ flat.dedup, Holds ρ e) ↔ ∀ p ∈ ps, Holds ρ p := by
      rw [← (flatten_and ps).1 flat hf]
      simp only [List.mem_dedup]
    rw [← hmem]
    dsimp only
    generalize flat.dedup = xs
    rcases xs with _ | ⟨x, _ | ⟨y, ys⟩⟩ <;> simp

@[simp] theorem holds_mkOr (ps : List Expr) : Holds ρ (mkOr ps) ↔ ∃ p ∈ ps, Holds ρ p := by
  unfold mkOr
  cases hf : flatten false orOperands ps with
  | none => simpa using (flatten_or ps).2 hf
  | some flat =>
    have hmem : (∃ e ∈ flat.dedup, Holds ρ e) ↔ ∃ p ∈ ps, Holds ρ p := by
      rw [← (flatten_or ps).1 flat hf]
      simp only [List.mem_dedup]
    rw [← hmem]
    dsimp only
    generalize flat.dedup = xs
    rcases xs with _ | ⟨x, _ | ⟨y, ys⟩⟩ <;> simp

theorem eval_mkIte (c t e : Expr) :
    (mkIte c t e).eval ρ = if Holds ρ c then t.eval ρ else e.eval ρ := by
  unfold mkIte
  cases hc : c.asBool with
  | some b =>
    rw [asBool_eq hc]
    cases b <;> simp
  | none =>
    simp only
    split_ifs with hte hh hh
    · rfl
    · rw [hte]
    · exact if_pos hh
    · exact if_neg hh

/-! ## Symbols of a conjunction -/

theorem mem_symbolsOfAll {q : String × Nat} {es : List Expr} :
    q ∈ symbolsOfAll es ↔ ∃ e ∈ es, q ∈ e.symbolsOf := by
  induction es with
  | nil => simp [symbolsOfAll]
  | cons e es ih => rw [symbolsOfAll, List.mem_append, ih, List.exists_mem_cons_iff]

theorem mem_symbolsOf_flatten {q : String × Nat} (ps : List Expr) : ∀ flat,
    flatten true andOperands ps = some flat → q ∈ symbolsOfAll flat → q ∈ symbolsOfAll ps := by
  induction ps with
  | nil =>
    intro flat hf hq
    rw [← Option.some.inj hf] at hq
    exact hq
  | cons p ps ih =>
    intro flat hf hq
    rw [symbolsOfAll, List.mem_append]
    unfold flatten at hf
    split at hf
    · split_ifs at hf
      exact Or.inr (ih flat hf hq)
    · -- the operand itself, or its own operands when it is a conjunction
      split at hf
      · rename_i inner hs
        obtain ⟨zs, hz, rfl⟩ := Option.map_eq_some_iff.mp hf
        obtain ⟨e, he, hqe⟩ := mem_symbolsOfAll.mp hq
        rcases List.mem_append.mp he with he | he
        · left
          cases p with
          | and xs =>
            rw [← Option.some.inj hs] at he
            exact mem_symbolsOfAll.mpr ⟨e, he, hqe⟩
          | _ => exact absurd hs (by simp [andOperands])
        · exact Or.inr (ih zs hz (mem_symbolsOfAll.mpr ⟨e, he, hqe⟩))
      · obtain ⟨zs, hz, rfl⟩ := Option.map_eq_some_iff.mp hf
        rw [symbolsOfAll, List.mem_append] at hq
        exact hq.imp_right (ih zs hz)

theorem mem_symbolsOf_mkAnd {q : String × Nat} {ps : List Expr} (h : q ∈ (mkAnd ps).symbolsOf) :
    ∃ p ∈ ps, q ∈ p.symbolsOf := by
  unfold mkAnd at h
  cases hf : flatten true andOperands ps with
  | none => simp [hf, symbolsOf] at h
  | some flat =>
    have hall : q ∈ symbolsOfAll flat.dedup := by
      simp only [hf] at h
      revert h
      generalize flat.dedup = xs
      rcases xs with _ | ⟨x, _ | ⟨y, ys⟩⟩ <;> simp [symbolsOf, symbolsOfAll]
    obtain ⟨e, he, hqe⟩ := mem_symbolsOfAll.mp hall
    exact mem_symbolsOfAll.mp (mem_symbolsOf_flatten ps flat hf
      (mem_symbolsOfAll.mpr ⟨e, List.mem_dedup.mp he, hqe⟩))

end Csolver.Expr
