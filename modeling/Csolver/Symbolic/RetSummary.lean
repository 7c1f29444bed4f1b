import Csolver.Ir.Run
import Mathlib.Data.Int.ModEq
import Mathlib.Tactic.Linarith
import Mathlib.Tactic.Ring

/-!
# Return summaries (`summary.rs`, `ret_of_fn` of `summary/perfn.rs`)

What a function returns, relative to its parameters: an affine function of them or one of its pointer
parameters at an affine offset. The analysis gives every register an abstract value, joins the
arguments of all branches into the block parameters, and repeats whole passes over the blocks until
one of them changes nothing.

A pass that changes nothing leaves an environment that satisfies every equation of the function at
once (`Summarizer.Solved`), and that is all the soundness proof needs: it does not matter in which
order the blocks are visited.
-/

namespace Csolver

/-- `constant + Σ coeff_k * param_k`, the terms by increasing parameter. -/
structure Affine where
  constant : Int
  terms : List (Nat × Int)
  deriving DecidableEq

namespace Affine

/-- `Affine::constant`. -/
def ofConst (c : Int) : Affine := ⟨c, []⟩

def param (k : Nat) : Affine := ⟨0, [(k, 1)]⟩

def normalized (a : Affine) : Affine := ⟨a.constant, a.terms.filter fun t => t.2 ≠ 0⟩

/-- `entry(k).or_insert(0) += c` on an ordered map. -/
def addTerm (k : Nat) (c : Int) : List (Nat × Int) → Option (List (Nat × Int))
  | [] => (checkedI128 c).map fun c => [(k, c)]
  | (j, d) :: ts =>
    if k < j then (checkedI128 c).map fun c => (k, c) :: (j, d) :: ts
    else if k = j then (checkedI128 (d + c)).map fun e => (j, e) :: ts
    else (addTerm k c ts).map ((j, d) :: ·)

def addTerms : List (Nat × Int) → List (Nat × Int) → Option (List (Nat × Int))
  | out, [] => some out
  | out, (k, c) :: ts => do
    let out ← addTerm k c out
    addTerms out ts

def add (a b : Affine) : Option Affine := do
  let c ← checkedI128 (a.constant + b.constant)
  let ts ← addTerms a.terms b.terms
  return normalized ⟨c, ts⟩

def scaleTerms (k : Int) : List (Nat × Int) → Option (List (Nat × Int))
  | [] => some []
  | (p, c) :: ts => do
    let c ← checkedI128 (c * k)
    let ts ← scaleTerms k ts
    return (p, c) :: ts

def scale (a : Affine) (k : Int) : Option Affine := do
  let c ← checkedI128 (a.constant * k)
  let ts ← scaleTerms k a.terms
  return normalized ⟨c, ts⟩

def sub (a b : Affine) : Option Affine := do
  let nb ← b.scale (-1)
  a.add nb

def asConst (a : Affine) : Option Int := if a.terms.isEmpty then some a.constant else none

def eval (args : List Nat) (a : Affine) : Int :=
  a.constant + (a.terms.map fun t => t.2 * (args.getD t.1 0 : Int)).sum

end Affine

inductive AbsVal where
  | ptrArg (arg : Nat) (off : Affine)
  | scalar (a : Affine)
  | localStack
  | heapAlloc (size : Option Nat)
  | validRef (size : Option Nat) (align : Nat) (writable assumed : Bool)
  | call (index : Nat)
  | opq
  deriving DecidableEq

def AbsVal.join (a b : AbsVal) : AbsVal := if a = b then a else .opq

inductive RetSummary where
  | unknown
  | scalar (a : Affine)
  | ptrFromArg (arg : Nat) (offset : Affine)
  | danglingStack
  | alloc (size : Option Nat)
  | validRef (size : Option Nat) (align : Nat) (writable assumed : Bool)
  deriving DecidableEq

namespace Summary

abbrev Env := RegId → Option AbsVal

def evalOperand (op : Operand) (env : Env) : AbsVal :=
  match op with
  | .reg r => (env r).getD .opq
  | .const (.int bv) => .scalar (.ofConst (toI128 bv.value))
  | .const _ => .opq

/-- `eval_rvalue` of the summaries: copies, sums, differences, and products with a constant. -/
def evalRvalue (rv : RValue) (env : Env) : AbsVal :=
  match rv with
  | .use op => evalOperand op env
  | .bin op lhs rhs =>
    match evalOperand lhs env, evalOperand rhs env with
    | .scalar a, .scalar b =>
      let r := match op with
        | .add => a.add b
        | .sub => a.sub b
        | .mul =>
          match a.asConst, b.asConst with
          | some c, _ => b.scale c
          | none, some c => a.scale c
          | none, none => none
        | _ => none
      match r with
      | some r => .scalar r
      | none => .opq
    | _, _ => .opq
  | _ => .opq

/-- The observable calls in order: those of the blocks that do not end in `unreachable`. -/
def callInsts (f : Func) : List Inst :=
  (f.blocks.filter fun b => match b.term with | .unreachable => false | _ => true).flatMap fun b =>
    b.insts.filter fun i => match i with | .call _ _ _ => true | _ => false

/-- The index of the last observable call that defines `d`. -/
def callIndex (f : Func) (d : RegId) : Option Nat :=
  ((callInsts f).zipIdx.filter fun p => p.1.definedReg = some d).getLast?.map (·.2)

/-- The registers that a `RefWitness` defines. -/
def refwitnessDsts (f : Func) : List RegId :=
  (f.blocks.flatMap (·.insts)).filterMap fun i => match i with
    | .refWitness dst _ _ _ _ => some dst
    | _ => none

/-- The definition a register gets from an instruction, `none` for one that defines nothing. -/
def instValue (f : Func) (i : Inst) (env : Env) : Option (RegId × AbsVal) :=
  match i with
  | .assign dst _ value => some (dst, evalRvalue value env)
  | .ptrOffset dst base index elem =>
    let stride : Int := ((elem.strideBytes .lp64).getD 1 : Nat)
    let v := match evalOperand base env, evalOperand index env with
      | .ptrArg arg off, .scalar ix =>
        match (ix.scale stride).bind off.add with
        | some o => .ptrArg arg o
        | none => .opq
      | .localStack, _ => .localStack
      | _, _ => .opq
    some (dst, v)
  | .alloc dst .stack _ _ _ => some (dst, .localStack)
  | .alloc dst .heap elem count _ =>
    let size := match count with
      | .const (.int bv) =>
        (checkedU64 bv.value).bind fun c => checkedU64 (c * max ((elem.strideBytes .lp64).getD 1) 1)
      | _ => none
    some (dst, .heapAlloc size)
  | .refWitness dst size align writable assumed => some (dst, .validRef size align writable assumed)
  | .call (some d) _ _ =>
    some (d, match callIndex f d with | some i => .call i | none => .opq)
  | i => i.definedReg.map fun dst => (dst, .opq)

/-- A plain definition of a register that a `RefWitness` defines again is passed over. -/
def skipped (f : Func) (i : Inst) : Bool :=
  match i with
  | .refWitness _ _ _ _ _ => false
  | i => match i.definedReg with
    | some d => (refwitnessDsts f).contains d
    | none => false

end Summary

/-- The state of the analysis: the environment, the joins of the arguments passed to each block
    parameter, and whether the running pass has changed anything. -/
structure Summarizer where
  env : Summary.Env
  paramJoin : Summary.Env
  changed : Bool

namespace Summarizer

open Summary

def setEnv (s : Summarizer) (r : RegId) (v : AbsVal) : Summarizer :=
  if s.env r = some v then s
  else { s with env := Function.update s.env r (some v), changed := true }

def setJoin (s : Summarizer) (r : RegId) (v : AbsVal) : Summarizer :=
  if s.paramJoin r = some v then s
  else { s with paramJoin := Function.update s.paramJoin r (some v), changed := true }

/-- Bind a block parameter from the joined incoming values. -/
def bindParam (s : Summarizer) (p : RegId × Ty) : Summarizer :=
  match s.paramJoin p.1 with
  | some v => s.setEnv p.1 v
  | none => s

def stepInst (f : Func) (s : Summarizer) (i : Inst) : Summarizer :=
  if skipped f i then s
  else match instValue f i s.env with
    | some (dst, v) => s.setEnv dst v
    | none => s

/-- Join one branch argument into the parameter it is passed to. -/
def feedArg (s : Summarizer) (p : (RegId × Ty) × Operand) : Summarizer :=
  let v := evalOperand p.2 s.env
  let joined := match s.paramJoin p.1.1 with
    | some prev => prev.join v
    | none => v
  s.setJoin p.1.1 joined

/-- `by_id`: of two blocks with one id the later. -/
def byId (f : Func) (id : BlockId) : Option BasicBlock := f.blocks.reverse.find? fun b => b.id = id

def feed (f : Func) (s : Summarizer) (e : BlockId × List Operand) : Summarizer :=
  match byId f e.1 with
  | some tb => (tb.params.zip e.2).foldl feedArg s
  | none => s

/-- The edges that pass arguments; a switch passes none. -/
def argEdges : Terminator → List (BlockId × List Operand)
  | .br target args => [(target, args)]
  | .condBr _ t targs e eargs => [(t, targs), (e, eargs)]
  | _ => []

def stepBlock (f : Func) (s : Summarizer) (b : BasicBlock) : Summarizer :=
  let s := b.params.foldl bindParam s
  let s := b.insts.foldl (stepInst f) s
  (argEdges b.term).foldl (feed f) s

def pass (f : Func) (s : Summarizer) : Summarizer :=
  f.blocks.foldl (stepBlock f) { s with changed := false }

/-- Passes until one changes nothing, at most `n` of them. -/
def run (f : Func) : Nat → Summarizer → Option Summarizer
  | 0, _ => none
  | n + 1, s =>
    let s := s.pass f
    if s.changed then run f n s else some s

/-- The parameters with their call values; a later parameter of the same register wins. -/
def seed : Nat → List (RegId × Ty) → Summary.Env → Summary.Env
  | _, [], env => env
  | k, (r, ty) :: ps, env =>
    let v := if ty.isPtr then AbsVal.ptrArg k (.ofConst 0) else .scalar (.param k)
    seed (k + 1) ps (Function.update env r (some v))

def initial (f : Func) : Summarizer :=
  let env := seed 0 f.params fun _ => none
  ⟨env, env, false⟩

end Summarizer

namespace Summary

/-- The join of the values at the returning sites. -/
def returned (env : Env) : List BasicBlock → Option AbsVal → Option AbsVal
  | [], acc => acc
  | b :: bs, acc =>
    match b.term with
    | .ret (some op) =>
      let v := evalOperand op env
      returned env bs (some (match acc with | some prev => prev.join v | none => v))
    | _ => returned env bs acc

def ofReturned : Option AbsVal → RetSummary × Option Nat
  | some (.ptrArg arg off) => (.ptrFromArg arg off, none)
  | some (.scalar a) => (.scalar a, none)
  | some .localStack => (.danglingStack, none)
  | some (.heapAlloc size) => (.alloc size, none)
  | some (.validRef size align writable assumed) => (.validRef size align writable assumed, none)
  | some (.call i) => (.unknown, some i)
  | _ => (.unknown, none)

def retOfFn (f : Func) : RetSummary × Option Nat :=
  match (Summarizer.initial f).run f 64 with
  | some s => ofReturned (returned s.env f.blocks none)
  | none => (.unknown, none)

end Summary

/-! ## Return summaries are what the function returns

The summary counts in unbounded integers while the machine wraps at the declared width, so an
abstract value describes a register modulo `2 ^ width` (`AbsVal.Describes`). Sums, differences and
products by a constant respect that, at whatever width. A pointer offset does not: it takes an index
of its own width to 64 bits, and the summary has forgotten both the width and the sign of the index.
With indices at least 64 bits wide, or constants that are not negative, nothing is lost.
-/

/-! ## Affine forms -/

namespace Affine

variable {args : List Nat}

def sum (args : List Nat) (ts : List (Nat × Int)) : Int :=
  (ts.map fun t => t.2 * (args.getD t.1 0 : Int)).sum

theorem eval_eq (a : Affine) : a.eval args = a.constant + sum args a.terms := rfl

@[simp] theorem sum_nil : sum args [] = 0 := rfl

@[simp] theorem sum_cons (t : Nat × Int) (ts : List (Nat × Int)) :
    sum args (t :: ts) = t.2 * (args.getD t.1 0 : Int) + sum args ts := by
  simp [sum]

theorem eval_normalized (a : Affine) : a.normalized.eval args = a.eval args := by
  obtain ⟨c, ts⟩ := a
  simp only [normalized, eval_eq]
  congr 1
  induction ts with
  | nil => rfl
  | cons t ts ih =>
    rw [List.filter_cons]
    split_ifs with ht
    · rw [sum_cons, sum_cons, ih]
    · rw [sum_cons, ih]
      simp at ht
      simp [ht]

theorem sum_addTerm {k : Nat} {c : Int} {ts out : List (Nat × Int)}
    (h : addTerm k c ts = some out) : sum args out = sum args ts + c * (args.getD k 0 : Int) := by
  induction ts generalizing out with
  | nil =>
    obtain ⟨v, hv, rfl⟩ := Option.map_eq_some_iff.mp h
    rw [eq_of_checkedI128 hv]
    simp
  | cons t ts ih =>
    obtain ⟨j, d⟩ := t
    simp only [addTerm] at h
    split_ifs at h with hlt heq
    · obtain ⟨v, hv, rfl⟩ := Option.map_eq_some_iff.mp h
      rw [eq_of_checkedI128 hv]
      simp only [sum_cons]
      ring
    · obtain ⟨v, hv, rfl⟩ := Option.map_eq_some_iff.mp h
      rw [eq_of_checkedI128 hv, heq]
      simp only [sum_cons]
      ring
    · obtain ⟨rest, hrest, rfl⟩ := Option.map_eq_some_iff.mp h
      simp only [sum_cons, ih hrest]
      ring

theorem sum_addTerms {ts out res : List (Nat × Int)} (h : addTerms out ts = some res) :
    sum args res = sum args out + sum args ts := by
  induction ts generalizing out with
  | nil => simp [← Option.some.inj h]
  | cons t ts ih =>
    obtain ⟨out', hout, hres⟩ := Option.bind_eq_some_iff.mp h
    rw [ih hres, sum_addTerm hout, sum_cons]
    ring

theorem eval_add {a b r : Affine} (h : a.add b = some r) :
    r.eval args = a.eval args + b.eval args := by
  obtain ⟨c, hc, h⟩ := Option.bind_eq_some_iff.mp h
  obtain ⟨ts, hts, h⟩ := Option.bind_eq_some_iff.mp h
  rw [← Option.some.inj h, eval_normalized, eval_eq, eval_eq, eval_eq, eq_of_checkedI128 hc,
    sum_addTerms hts]
  ring

theorem sum_scaleTerms {k : Int} {ts out : List (Nat × Int)} (h : scaleTerms k ts = some out) :
    sum args out = sum args ts * k := by
  induction ts generalizing out with
  | nil => simp [← Option.some.inj h]
  | cons t ts ih =>
    obtain ⟨c, hc, h⟩ := Option.bind_eq_some_iff.mp h
    obtain ⟨rest, hrest, h⟩ := Option.bind_eq_some_iff.mp h
    rw [← Option.some.inj h, sum_cons, sum_cons, ih hrest, eq_of_checkedI128 hc]
    ring

theorem eval_scale {a r : Affine} {k : Int} (h : a.scale k = some r) :
    r.eval args = a.eval args * k := by
  obtain ⟨c, hc, h⟩ := Option.bind_eq_some_iff.mp h
  obtain ⟨ts, hts, h⟩ := Option.bind_eq_some_iff.mp h
  rw [← Option.some.inj h, eval_normalized, eval_eq, eval_eq, eq_of_checkedI128 hc,
    sum_scaleTerms hts]
  ring

theorem eval_sub {a b r : Affine} (h : a.sub b = some r) :
    r.eval args = a.eval args - b.eval args := by
  obtain ⟨nb, hnb, h⟩ := Option.bind_eq_some_iff.mp h
  rw [eval_add h, eval_scale hnb]
  ring

theorem eval_of_asConst {a : Affine} {c : Int} (h : a.asConst = some c) : a.eval args = c := by
  simp only [asConst] at h
  split_ifs at h with hts
  rw [eval_eq, List.isEmpty_iff.mp hts, ← Option.some.inj h]
  simp

@[simp] theorem eval_ofConst (c : Int) : (ofConst c).eval args = c := by simp [eval_eq, ofConst]

@[simp] theorem eval_param (k : Nat) : (param k).eval args = (args.getD k 0 : Int) := by
  simp [eval_eq, param]

end Affine

/-! ## What an abstract value says about a machine value -/

/-- `x`, a value of width `w`, is what `v` says about a call with `args`. -/
def AbsVal.Describes (args : List Nat) (w x : Nat) : AbsVal → Prop
  | ptrArg k off => (x : Int) ≡ (args.getD k 0 : Int) + off.eval args [ZMOD 2 ^ w]
  | scalar a => (x : Int) ≡ a.eval args [ZMOD 2 ^ w]
  | _ => True

theorem AbsVal.join_eq {a b : AbsVal} (h : a.join b ≠ .opq) : a.join b = b ∧ a = b := by
  rw [join] at h ⊢
  split_ifs at h ⊢ with hab
  · exact ⟨hab, hab⟩
  · exact absurd rfl h

theorem AbsVal.describes_opq (args : List Nat) (w x : Nat) : AbsVal.opq.Describes args w x := trivial

/-! ## The machine's operations, modulo the width -/

section Machine

variable {w : Nat}

theorem natCast_mod_modEq (w n : Nat) : ((n % 2 ^ w : Nat) : Int) ≡ n [ZMOD 2 ^ w] := by
  push_cast
  exact Int.mod_modEq _ _

theorem add_modEq (w x y : Nat) : (BvOp.add.eval w x y : Int) ≡ x + y [ZMOD 2 ^ w] := by
  rw [BvOp.eval, BvOp.evalBv, BitVec.toNat_add, BitVec.toNat_ofNat, BitVec.toNat_ofNat,
    ← Nat.add_mod]
  exact_mod_cast natCast_mod_modEq w (x + y)

theorem mul_modEq (w x y : Nat) : (BvOp.mul.eval w x y : Int) ≡ x * y [ZMOD 2 ^ w] := by
  rw [BvOp.eval, BvOp.evalBv, BitVec.toNat_mul, BitVec.toNat_ofNat, BitVec.toNat_ofNat,
    ← Nat.mul_mod]
  exact_mod_cast natCast_mod_modEq w (x * y)

theorem sub_modEq (w x y : Nat) : (BvOp.sub.eval w x y : Int) ≡ x - y [ZMOD 2 ^ w] := by
  -- add the subtrahend back: the sum is `x` again
  have hback : (BvOp.sub.eval w x y : Int) + y ≡ x [ZMOD 2 ^ w] := by
    refine (add_modEq w (BvOp.sub.eval w x y) y).symm.trans ?_
    have hround : BvOp.add.eval w (BvOp.sub.eval w x y) y = x % 2 ^ w := by
      simp only [BvOp.eval, BvOp.evalBv, BitVec.ofNat_toNat, BitVec.setWidth_eq]
      rw [BitVec.sub_add_cancel, BitVec.toNat_ofNat]
    rw [hround]
    exact natCast_mod_modEq w x
  have := hback.sub (Int.ModEq.refl (y : Int))
  rwa [add_sub_cancel_right] at this

theorem toInt_modEq (v n : Nat) : (BitVec.ofNat v n).toInt ≡ n [ZMOD 2 ^ v] := by
  have hbmod : (BitVec.ofNat v n).toInt ≡ ((n % 2 ^ v : Nat) : Int) [ZMOD 2 ^ v] := by
    rw [BitVec.toInt_eq_toNat_bmod, BitVec.toNat_ofNat]
    have := Int.bmod_emod (x := ((n % 2 ^ v : Nat) : Int)) (m := 2 ^ v)
    rw [Int.ModEq]
    exact_mod_cast this
  exact hbmod.trans (natCast_mod_modEq v n)

theorem toI128_modEq (hw : w ≤ 128) (n : Nat) : toI128 n ≡ n [ZMOD 2 ^ w] :=
  (toInt_modEq 128 n).of_dvd (pow_dvd_pow 2 hw)

theorem offsetAddr_modEq {v : Nat} (hv : 64 ≤ v) (b i stride : Nat) :
    (offsetAddr b v i stride : Int) ≡ b + i * stride [ZMOD 2 ^ 64] := by
  have hpos : (0 : Int) ≤ (b + (BitVec.ofNat v i).toInt * stride) % 2 ^ 64 :=
    Int.emod_nonneg _ (by decide)
  rw [offsetAddr, Int.toNat_of_nonneg hpos]
  refine (Int.mod_modEq _ _).trans (Int.ModEq.add_left _ (Int.ModEq.mul_right _ ?_))
  exact (toInt_modEq v i).of_dvd (pow_dvd_pow 2 hv)

end Machine

/-! ## Evaluation -/

namespace Summary

variable {Γ : RegId → Nat} {args : List Nat} {env : Env} {regs : Regs}

/-- The environment describes every register that holds a value. -/
def Described (Γ : RegId → Nat) (args : List Nat) (env : Env) (regs : Regs) : Prop :=
  ∀ r x v, regs r = some x → env r = some v → v.Describes args (Γ r) x

theorem evalOperand_describes (h : Described Γ args env regs) {op : Operand} {x : Nat}
    (hop : op.Evals regs x) : (evalOperand op env).Describes args (op.width Γ) x := by
  cases op with
  | reg r =>
    cases hv : env r with
    | none =>
      rw [evalOperand, hv]
      trivial
    | some v =>
      rw [evalOperand, hv]
      exact h r x v hop hv
  | const c =>
    cases c with
    | int bv =>
      obtain rfl : x = bv.value := hop
      rw [evalOperand, AbsVal.Describes, Affine.eval_ofConst]
      exact (toI128_modEq bv.width_le bv.value).symm
    | _ => trivial

theorem describes_mod {v : AbsVal} {w x : Nat} (h : v.Describes args w x) :
    v.Describes args w (x % 2 ^ w) := by
  cases v with
  | ptrArg k off => exact (natCast_mod_modEq w x).trans h
  | scalar a => exact (natCast_mod_modEq w x).trans h
  | _ => trivial

theorem bin_describes {op : BvOp} {a b : Affine} {r : AbsVal} {w x y : Nat}
    (ha : (AbsVal.scalar a).Describes args w x) (hb : (AbsVal.scalar b).Describes args w y)
    (hr : r = match (match op with
        | .add => a.add b
        | .sub => a.sub b
        | .mul => match a.asConst, b.asConst with
          | some c, _ => b.scale c
          | none, some c => a.scale c
          | none, none => none
        | _ => none : Option Affine) with
      | some r => .scalar r
      | none => .opq) : r.Describes args w (op.eval w x y) := by
  rw [AbsVal.Describes] at ha hb
  split at hr
  · rename_i res hres
    rw [hr, AbsVal.Describes]
    cases op with
    | add =>
      rw [Affine.eval_add hres]
      exact (add_modEq w x y).trans (ha.add hb)
    | sub =>
      rw [Affine.eval_sub hres]
      exact (sub_modEq w x y).trans (ha.sub hb)
    | mul =>
      have hprod : (BvOp.mul.eval w x y : Int) ≡ a.eval args * b.eval args [ZMOD 2 ^ w] :=
        (mul_modEq w x y).trans (ha.mul hb)
      cases hca : a.asConst with
      | some c =>
        simp only [hca] at hres
        rwa [Affine.eval_scale hres, mul_comm, ← Affine.eval_of_asConst hca]
      | none =>
        cases hcb : b.asConst with
        | some c =>
          simp only [hca, hcb] at hres
          rwa [Affine.eval_scale hres, ← Affine.eval_of_asConst hcb]
        | none => simp [hca, hcb] at hres
    | _ => simp at hres
  · rw [hr]
    trivial

theorem evalRvalue_describes (h : Described Γ args env regs) {rv : RValue} {w x : Nat}
    (hty : rv.WellTyped w (rv.operands.map (Operand.width Γ))) (hx : rv.Evals Γ regs w x) :
    (evalRvalue rv env).Describes args w x := by
  obtain ⟨xs, hxs, rfl⟩ := hx
  cases rv with
  | use op =>
    obtain ⟨y, ys, hop, hys, rfl⟩ := List.forall₂_cons_left_iff.mp hxs
    obtain rfl := List.forall₂_nil_left_iff.mp hys
    obtain rfl : op.width Γ = w := hty
    exact describes_mod (describes_mod (evalOperand_describes h hop))
  | bin op lhs rhs =>
    obtain ⟨y, ys, hlhs, hys, rfl⟩ := List.forall₂_cons_left_iff.mp hxs
    obtain ⟨z, zs, hrhs, hzs, rfl⟩ := List.forall₂_cons_left_iff.mp hys
    obtain rfl := List.forall₂_nil_left_iff.mp hzs
    obtain ⟨hl, hr⟩ : lhs.width Γ = w ∧ rhs.width Γ = w := hty
    have hdl := evalOperand_describes h hlhs
    have hdr := evalOperand_describes h hrhs
    rw [hl] at hdl
    rw [hr] at hdr
    simp only [evalRvalue, RValue.operands, List.map_cons, List.map_nil, List.zipWith_cons_cons, hl, hr]
    split
    · rename_i a b ha hb
      rw [ha] at hdl
      rw [hb] at hdr
      exact bin_describes (describes_mod hdl) (describes_mod hdr) rfl
    · trivial
  | cmp op lhs rhs => trivial
  | cast op operand => trivial
  | select c t e => trivial

/-- The index of an offset reaches 64 bits unchanged. -/
def WideIndex (Γ : RegId → Nat) (index : Operand) : Prop :=
  64 ≤ index.width Γ ∨ ∃ bv, index = .const (.int bv) ∧ 2 * bv.value < 2 ^ bv.width

theorem offsetAddr_describes (h : Described Γ args env regs) {index : Operand} {i : Nat}
    (hidx : index.Evals regs i) (hwide : WideIndex Γ index) {ix : Affine}
    (hix : evalOperand index env = .scalar ix) (b stride : Nat) :
    (offsetAddr b (index.width Γ) i stride : Int) ≡ b + ix.eval args * stride [ZMOD 2 ^ 64] := by
  rcases hwide with hwide | ⟨bv, rfl, hpos⟩
  · have hd := evalOperand_describes h hidx
    rw [hix] at hd
    refine (offsetAddr_modEq hwide b i stride).trans (Int.ModEq.add_left _ ?_)
    exact Int.ModEq.mul_right _ (Int.ModEq.of_dvd (pow_dvd_pow 2 hwide) hd)
  · -- a constant that is not negative is read as it stands
    obtain rfl : i = bv.value := hidx
    have hval : (BitVec.ofNat bv.width bv.value).toInt = bv.value := by
      rw [BitVec.toInt_eq_toNat_of_msb, BitVec.toNat_ofNat, Nat.mod_eq_of_lt bv.value_lt]
      rw [BitVec.msb_eq_false_iff_two_mul_lt, BitVec.toNat_ofNat, Nat.mod_eq_of_lt bv.value_lt]
      exact hpos
    have hpos' : (0 : Int) ≤ (b + (bv.value : Int) * stride) % 2 ^ 64 := Int.emod_nonneg _ (by decide)
    have hix' : ix = .ofConst (toI128 bv.value) := (AbsVal.scalar.inj hix).symm
    rw [Operand.width, offsetAddr, hval, Int.toNat_of_nonneg hpos', hix', Affine.eval_ofConst]
    refine (Int.mod_modEq _ _).trans (Int.ModEq.add_left _ (Int.ModEq.mul_right _ ?_))
    exact (toI128_modEq (by decide) bv.value).symm

end Summary

/-! ## A pass that changes nothing -/

namespace Summarizer

open Summary

variable {f : Func}

theorem foldl_quiet {α : Type} {op : Summarizer → α → Summarizer} {Q : α → Summarizer → Prop}
    (hop : ∀ s a, (op s a).changed = false → op s a = s ∧ Q a s) {l : List α} {s : Summarizer}
    (h : (l.foldl op s).changed = false) : l.foldl op s = s ∧ ∀ a ∈ l, Q a s := by
  induction l generalizing s with
  | nil => exact ⟨rfl, fun a ha => absurd ha (by simp)⟩
  | cons a l ih =>
    obtain ⟨hrest, hl⟩ := ih h
    have hchanged : (op s a).changed = false := hrest ▸ h
    obtain ⟨ha, hq⟩ := hop s a hchanged
    rw [ha] at hl hrest
    refine ⟨by rw [List.foldl_cons, ha, hrest], fun c hc => ?_⟩
    rcases List.mem_cons.mp hc with rfl | hc
    · exact hq
    · exact hl c hc

theorem setEnv_quiet {s : Summarizer} {r : RegId} {v : AbsVal} (h : (s.setEnv r v).changed = false) :
    s.setEnv r v = s ∧ s.env r = some v := by
  rw [setEnv] at h ⊢
  split_ifs at h ⊢ with hv
  exact ⟨rfl, hv⟩

theorem setJoin_quiet {s : Summarizer} {r : RegId} {v : AbsVal}
    (h : (s.setJoin r v).changed = false) : s.setJoin r v = s ∧ s.paramJoin r = some v := by
  rw [setJoin] at h ⊢
  split_ifs at h ⊢ with hv
  exact ⟨rfl, hv⟩

theorem bindParam_quiet {s : Summarizer} {p : RegId × Ty} (h : (s.bindParam p).changed = false) :
    s.bindParam p = s ∧ ∀ v, s.paramJoin p.1 = some v → s.env p.1 = some v := by
  rw [bindParam] at h ⊢
  cases hj : s.paramJoin p.1 with
  | none => exact ⟨rfl, fun v hv => absurd hv (by simp)⟩
  | some v =>
    simp only [hj] at h
    obtain ⟨hs, hv⟩ := setEnv_quiet h
    exact ⟨hs, fun u hu => by rw [← Option.some.inj hu, hv]⟩

theorem stepInst_quiet {s : Summarizer} {i : Inst} (h : (s.stepInst f i).changed = false) :
    s.stepInst f i = s ∧ (skipped f i = false →
      ∀ dst v, instValue f i s.env = some (dst, v) → s.env dst = some v) := by
  rw [stepInst] at h ⊢
  split_ifs at h ⊢ with hsk
  · exact ⟨rfl, fun hns => absurd hsk (by simp [hns])⟩
  · cases hv : instValue f i s.env with
    | none => exact ⟨rfl, fun _ dst v hdv => absurd hdv (by simp)⟩
    | some p =>
      obtain ⟨dst, v⟩ := p
      simp only [hv] at h
      obtain ⟨hs, henv⟩ := setEnv_quiet h
      refine ⟨hs, fun _ d u hdu => ?_⟩
      obtain ⟨rfl, rfl⟩ := Prod.mk.inj (Option.some.inj hdu)
      exact henv

theorem feedArg_quiet {s : Summarizer} {p : (RegId × Ty) × Operand}
    (h : (s.feedArg p).changed = false) :
    s.feedArg p = s ∧ ∃ j, s.paramJoin p.1.1 = some j ∧
      (j = evalOperand p.2 s.env ∨ j = .opq) := by
  rw [feedArg] at h ⊢
  obtain ⟨hs, hj⟩ := setJoin_quiet h
  refine ⟨hs, _, hj, ?_⟩
  cases hp : s.paramJoin p.1.1 with
  | none => exact .inl rfl
  | some prev =>
    simp only [AbsVal.join]
    split_ifs with heq
    · exact .inl heq
    · exact .inr rfl

/-- The equations of the function, all at once. -/
structure Solved (f : Func) (s : Summarizer) : Prop where
  param : ∀ b ∈ f.blocks, ∀ p ∈ b.params, ∀ v, s.paramJoin p.1 = some v → s.env p.1 = some v
  inst : ∀ b ∈ f.blocks, ∀ i ∈ b.insts, skipped f i = false →
    ∀ dst v, instValue f i s.env = some (dst, v) → s.env dst = some v
  edge : ∀ b ∈ f.blocks, ∀ e ∈ argEdges b.term, ∀ tb, byId f e.1 = some tb →
    ∀ p ∈ tb.params.zip e.2, ∃ j, s.paramJoin p.1.1 = some j ∧
      (j = evalOperand p.2 s.env ∨ j = .opq)

theorem feed_quiet {s : Summarizer} {e : BlockId × List Operand} (h : (s.feed f e).changed = false) :
    s.feed f e = s ∧ ∀ tb, byId f e.1 = some tb → ∀ p ∈ tb.params.zip e.2,
      ∃ j, s.paramJoin p.1.1 = some j ∧ (j = evalOperand p.2 s.env ∨ j = .opq) := by
  rw [feed] at h ⊢
  cases hb : byId f e.1 with
  | none => exact ⟨rfl, fun tb htb => absurd htb (by simp)⟩
  | some tb =>
    simp only [hb] at h
    obtain ⟨hs, hall⟩ := foldl_quiet (fun s p => feedArg_quiet) h
    refine ⟨hs, fun tb' htb => ?_⟩
    rw [← Option.some.inj htb]
    exact hall

theorem stepBlock_quiet {s : Summarizer} {b : BasicBlock} (h : (s.stepBlock f b).changed = false) :
    s.stepBlock f b = s ∧
      (∀ p ∈ b.params, ∀ v, s.paramJoin p.1 = some v → s.env p.1 = some v) ∧
      (∀ i ∈ b.insts, skipped f i = false →
        ∀ dst v, instValue f i s.env = some (dst, v) → s.env dst = some v) ∧
      ∀ e ∈ argEdges b.term, ∀ tb, byId f e.1 = some tb → ∀ p ∈ tb.params.zip e.2,
        ∃ j, s.paramJoin p.1.1 = some j ∧ (j = evalOperand p.2 s.env ∨ j = .opq) := by
  -- peel the three folds from the last to the first
  simp only [stepBlock] at h ⊢
  obtain ⟨hfeed, hedge⟩ := foldl_quiet (fun s e => feed_quiet) h
  rw [hfeed] at h
  obtain ⟨hstep, hinst⟩ := foldl_quiet (fun s i => stepInst_quiet) h
  rw [hstep] at h
  obtain ⟨hbind, hparam⟩ := foldl_quiet (fun s p => bindParam_quiet) h
  rw [hfeed, hstep, hbind]
  rw [hstep, hbind] at hedge
  rw [hbind] at hinst
  exact ⟨rfl, hparam, hinst, hedge⟩

theorem pass_solved {s : Summarizer} (h : (s.pass f).changed = false) : Solved f (s.pass f) := by
  obtain ⟨hs, hall⟩ := foldl_quiet (fun s b => stepBlock_quiet (f := f)) h
  rw [pass, hs]
  exact ⟨fun b hb => (hall b hb).1, fun b hb => (hall b hb).2.1, fun b hb => (hall b hb).2.2⟩

/-! ## What every pass keeps -/

/-- The abstract value of the `k`-th parameter. -/
def seedVal (k : Nat) (ty : Ty) : AbsVal := if ty.isPtr then .ptrArg k (.ofConst 0) else .scalar (.param k)

/-- A parameter keeps its call value or is given up; the outputs of inline assembly stay unknown. -/
structure Kept (f : Func) (s : Summarizer) : Prop where
  param : ∀ r ∈ f.params.map (·.1), ∀ v, s.env r = some v →
    (initial f).env r = some v ∨ v = .opq
  joined : ∀ r ∈ f.params.map (·.1), ∃ v, s.paramJoin r = some v ∧
    ((initial f).env r = some v ∨ v = .opq)
  asm : ∀ b ∈ f.blocks, ∀ defs, Inst.asm defs ∈ b.insts → ∀ r ∈ defs,
    (r ∉ f.params.map (·.1) → s.env r = none ∧ s.paramJoin r = none)

theorem foldl_kept {α : Type} {op : Summarizer → α → Summarizer} {l : List α} {s : Summarizer}
    (hop : ∀ a ∈ l, ∀ s, Kept f s → Kept f (op s a)) (h : Kept f s) : Kept f (l.foldl op s) := by
  induction l generalizing s with
  | nil => exact h
  | cons a l ih =>
    exact ih (fun c hc => hop c (List.mem_cons_of_mem _ hc)) (hop a List.mem_cons_self s h)

theorem Kept.setEnv {s : Summarizer} {r : RegId} {v : AbsVal} (h : Kept f s)
    (hparam : r ∈ f.params.map (·.1) → (initial f).env r = some v ∨ v = .opq)
    (hasm : ∀ b ∈ f.blocks, ∀ defs, Inst.asm defs ∈ b.insts → r ∉ defs) : Kept f (s.setEnv r v) := by
  rw [Summarizer.setEnv]
  split_ifs with hv
  · exact h
  · refine ⟨fun q hq u hu => ?_, h.joined, fun b hb defs hdefs q hq hnp => ?_⟩
    · by_cases hqr : q = r
      · subst hqr
        simp only [Function.update_self] at hu
        rw [← Option.some.inj hu]
        exact hparam hq
      · exact h.param q hq u ((Function.update_of_ne hqr _ _).symm.trans hu)
    · have hqr : q ≠ r := by
        rintro rfl
        exact hasm b hb defs hdefs hq
      obtain ⟨henv, hjoin⟩ := h.asm b hb defs hdefs q hq hnp
      exact ⟨(Function.update_of_ne hqr _ _).trans henv, hjoin⟩

theorem Kept.setJoin {s : Summarizer} {r : RegId} {v : AbsVal} (h : Kept f s)
    (hparam : r ∈ f.params.map (·.1) → (initial f).env r = some v ∨ v = .opq)
    (hasm : ∀ b ∈ f.blocks, ∀ defs, Inst.asm defs ∈ b.insts → r ∉ defs) :
    Kept f (s.setJoin r v) := by
  rw [Summarizer.setJoin]
  split_ifs with hv
  · exact h
  · refine ⟨h.param, fun q hq => ?_, fun b hb defs hdefs q hq hnp => ?_⟩
    · by_cases hqr : q = r
      · subst hqr
        exact ⟨v, Function.update_self .., hparam hq⟩
      · obtain ⟨u, hu, hor⟩ := h.joined q hq
        exact ⟨u, (Function.update_of_ne hqr _ _).trans hu, hor⟩
    · have hqr : q ≠ r := by
        rintro rfl
        exact hasm b hb defs hdefs hq
      obtain ⟨henv, hjoin⟩ := h.asm b hb defs hdefs q hq hnp
      exact ⟨henv, (Function.update_of_ne hqr _ _).trans hjoin⟩

theorem instValue_definedReg {i : Inst} {env : Env} {dst : RegId} {v : AbsVal}
    (h : instValue f i env = some (dst, v)) : i.definedReg = some dst := by
  cases i with
  | assign d ty value => exact congrArg some (Prod.mk.inj (Option.some.inj h)).1
  | ptrOffset d base index elem => exact congrArg some (Prod.mk.inj (Option.some.inj h)).1
  | refWitness d size align writable assumed =>
    exact congrArg some (Prod.mk.inj (Option.some.inj h)).1
  | alloc d region elem count align =>
    cases region <;> exact congrArg some (Prod.mk.inj (Option.some.inj h)).1
  | call d callee args =>
    cases d with
    | none => exact absurd h (by simp [instValue, Inst.definedReg])
    | some d => exact congrArg some (Prod.mk.inj (Option.some.inj h)).1
  | intrinsic d name args =>
    cases d with
    | none => exact absurd h (by simp [instValue, Inst.definedReg])
    | some d => exact congrArg some (Prod.mk.inj (Option.some.inj h)).1
  | load d ty ptr vol => exact congrArg some (Prod.mk.inj (Option.some.inj h)).1
  | fieldPtr d base => exact congrArg some (Prod.mk.inj (Option.some.inj h)).1
  | store ty ptr value vol => exact absurd h (by simp [instValue, Inst.definedReg])
  | dealloc region ptr => exact absurd h (by simp [instValue, Inst.definedReg])
  | asm defs => exact absurd h (by simp [instValue, Inst.definedReg])
  | memIntrinsic dst src len => exact absurd h (by simp [instValue, Inst.definedReg])
  | note => exact absurd h (by simp [instValue, Inst.definedReg])

theorem definedReg_mem_writes {i : Inst} {r : RegId} (h : i.definedReg = some r) : r ∈ i.writes := by
  cases i with
  | asm defs => exact absurd h (by simp [Inst.definedReg])
  | _ => simp [Inst.writes, h]

theorem Kept.bindParam (hwf : f.WellFormed) {s : Summarizer} (h : Kept f s) {b : BasicBlock}
    (hb : b ∈ f.blocks) {p : RegId × Ty} (hp : p ∈ b.params) : Kept f (s.bindParam p) := by
  rw [Summarizer.bindParam]
  cases hj : s.paramJoin p.1 with
  | none => exact h
  | some v =>
    refine h.setEnv (fun hparam => ?_) fun b' hb' defs hdefs hmem => ?_
    · obtain ⟨u, hu, hor⟩ := h.joined p.1 hparam
      rw [hj] at hu
      rw [Option.some.inj hu]
      exact hor
    · exact hwf.asm_param b' hb' defs hdefs p.1 hmem b hb (List.mem_map_of_mem hp)

theorem Kept.stepInst (hwf : f.WellFormed) {s : Summarizer} (h : Kept f s) {b : BasicBlock}
    (hb : b ∈ f.blocks) {i : Inst} (hi : i ∈ b.insts) : Kept f (s.stepInst f i) := by
  rw [Summarizer.stepInst]
  split_ifs with hsk
  · exact h
  · cases hv : instValue f i s.env with
    | none => exact h
    | some q =>
      obtain ⟨dst, v⟩ := q
      have hdef := instValue_definedReg hv
      refine h.setEnv (fun hparam => ?_) fun b' hb' defs hdefs hmem => ?_
      · obtain ⟨p, hp, rfl⟩ := List.mem_map.mp hparam
        exact absurd (definedReg_mem_writes hdef) (hwf.param_def p hp b hb i hi)
      · exact hwf.asm_def b' hb' defs hdefs dst hmem b hb i hi hdef

theorem Kept.feedArg (hwf : f.WellFormed) {s : Summarizer} (h : Kept f s) {b : BasicBlock}
    (hb : b ∈ f.blocks) {p : (RegId × Ty) × Operand} (hp : p.1 ∈ b.params) :
    Kept f (s.feedArg p) := by
  rw [Summarizer.feedArg]
  refine h.setJoin (fun hparam => ?_) fun b' hb' defs hdefs hmem => ?_
  · obtain ⟨u, hu, hor⟩ := h.joined p.1.1 hparam
    simp only [hu, AbsVal.join]
    split_ifs
    · exact hor
    · exact .inr rfl
  · exact hwf.asm_param b' hb' defs hdefs p.1.1 hmem b hb (List.mem_map_of_mem hp)

theorem byId_spec {id : BlockId} {b : BasicBlock} (h : byId f id = some b) :
    b ∈ f.blocks ∧ b.id = id :=
  ⟨List.mem_reverse.mp (List.mem_of_find?_eq_some h), by simpa using List.find?_some h⟩

theorem Kept.feed (hwf : f.WellFormed) {s : Summarizer} (h : Kept f s)
    (e : BlockId × List Operand) : Kept f (s.feed f e) := by
  rw [Summarizer.feed]
  cases htb : byId f e.1 with
  | none => exact h
  | some tb =>
    refine foldl_kept (fun p hp s hs => ?_) h
    exact hs.feedArg hwf (byId_spec htb).1 (List.of_mem_zip hp).1

theorem Kept.pass (hwf : f.WellFormed) {s : Summarizer} (h : Kept f s) : Kept f (s.pass f) := by
  refine foldl_kept (fun b hb s hs => ?_) ⟨h.param, h.joined, h.asm⟩
  refine foldl_kept (fun e _ s hs => hs.feed hwf e) ?_
  refine foldl_kept (fun i hi s hs => hs.stepInst hwf hb hi) ?_
  exact foldl_kept (fun p hp s hs => hs.bindParam hwf hb hp) hs

theorem seed_of_not_mem {ps : List (RegId × Ty)} {k : Nat} {env : Env} {r : RegId}
    (h : r ∉ ps.map (·.1)) : seed k ps env r = env r := by
  induction ps generalizing k env with
  | nil => rfl
  | cons p ps ih =>
    simp only [List.map_cons, List.mem_cons, not_or] at h
    rw [seed, ih h.2, Function.update_of_ne h.1]

theorem seed_getElem {ps : List (RegId × Ty)} (hnd : (ps.map (·.1)).Nodup) {j : Nat} {p : RegId × Ty}
    (h : ps[j]? = some p) (k : Nat) (env : Env) : seed k ps env p.1 = some (seedVal (k + j) p.2) := by
  induction ps generalizing j k env with
  | nil => exact absurd h (by simp)
  | cons q ps ih =>
    obtain ⟨hq, hps⟩ := List.nodup_cons.mp hnd
    cases j with
    | zero =>
      obtain rfl : q = p := Option.some.inj h
      rw [seed, seed_of_not_mem hq, Function.update_self]
      rfl
    | succ j => rw [seed, ih hps h, Nat.add_right_comm, Nat.add_assoc]

theorem initial_env_param (hwf : f.WellFormed) {j : Nat} {p : RegId × Ty} (h : f.params[j]? = some p) :
    (initial f).env p.1 = some (seedVal j p.2) := by
  have := seed_getElem hwf.params h 0 fun _ => none
  rwa [Nat.zero_add] at this

theorem initial_kept (hwf : f.WellFormed) : Kept f (initial f) := by
  refine ⟨fun r _ v hv => .inl hv, fun r hr => ?_, fun b _ defs _ r _ hnp => ?_⟩
  · obtain ⟨p, hp, rfl⟩ := List.mem_map.mp hr
    obtain ⟨j, hj⟩ := List.mem_iff_getElem?.mp hp
    exact ⟨_, initial_env_param hwf hj, .inl (initial_env_param hwf hj)⟩
  · exact ⟨seed_of_not_mem hnp, seed_of_not_mem hnp⟩

theorem run_spec (hwf : f.WellFormed) {n : Nat} {s t : Summarizer} (hs : Kept f s)
    (h : run f n s = some t) : Solved f t ∧ Kept f t := by
  induction n generalizing s with
  | zero => exact absurd h (by simp [run])
  | succ n ih =>
    simp only [run] at h
    split_ifs at h with hc
    · exact ih (hs.pass hwf) h
    · rw [← Option.some.inj h]
      exact ⟨pass_solved (Bool.eq_false_iff.mpr hc), hs.pass hwf⟩

/-! ## Along every execution -/

variable {Γ : RegId → Nat} {args : List Nat} {s : Summarizer}

theorem byId_eq (hwf : f.WellFormed) {id : BlockId} {b : BasicBlock} (h : f.block id = some b) :
    byId f id = some b := by
  obtain ⟨hb, hid⟩ := Func.block_spec h
  have hsome : (byId f id).isSome := by
    rw [byId, List.find?_isSome]
    exact ⟨b, List.mem_reverse.mpr hb, by simp [hid]⟩
  obtain ⟨c, hc⟩ := Option.isSome_iff_exists.mp hsome
  obtain ⟨hcm, hcid⟩ := byId_spec hc
  rw [hc, List.inj_on_of_nodup_map hwf.ids hcm hb (hcid.trans hid.symm)]

theorem start_described (hwf : f.WellFormed) (hs : Kept f s) {p : Point} (hp : f.Start args p) :
    Described Γ args s.env p.regs := by
  intro r x v hr hv
  rw [hp.2.2.2] at hr
  rcases Regs.bind_cases hr with ⟨ty, hmem⟩ | hnone
  · obtain ⟨j, hj⟩ := List.mem_iff_getElem?.mp hmem
    obtain ⟨hjp, hja⟩ := List.getElem?_zip_eq_some.mp hj
    have hx : (args.getD j 0 : Int) = x := by rw [List.getD_eq_getElem?_getD, hja]; rfl
    have hparam : r ∈ f.params.map (·.1) :=
      List.mem_map_of_mem (List.mem_of_getElem? hjp)
    rcases hs.param r hparam v hv with hseed | rfl
    · rw [initial_env_param hwf hjp] at hseed
      rw [← Option.some.inj hseed, seedVal]
      split_ifs
      · rw [AbsVal.Describes, Affine.eval_ofConst, hx, add_zero]
      · rw [AbsVal.Describes, Affine.eval_param, hx]
    · trivial
  · exact absurd hnone (by simp)

theorem Described.set {env : Env} {regs : Regs} (h : Described Γ args env regs) {r : RegId} {x : Nat}
    (hx : ∀ v, env r = some v → v.Describes args (Γ r) x) :
    Described Γ args env (regs.set r x) := by
  intro q y v hq hv
  by_cases hqr : q = r
  · subst hqr
    rw [Regs.set_self] at hq
    rw [← Option.some.inj hq]
    exact hx v hv
  · rw [Regs.set_of_ne hqr] at hq
    exact h q y v hq hv

theorem Solved.env_of_skipped (hs : Solved f s) {i : Inst} (h : skipped f i = true) {dst : RegId}
    (hdst : i.definedReg = some dst) :
    ∃ size align writable assumed, s.env dst = some (.validRef size align writable assumed) := by
  have hmem : dst ∈ refwitnessDsts f := by
    cases i with
    | refWitness d size align writable assumed => exact absurd h (by simp [skipped])
    | _ => simpa [skipped, hdst] using h
  obtain ⟨j, hj, hjd⟩ := List.mem_filterMap.mp hmem
  obtain ⟨b, hb, hjb⟩ := List.mem_flatMap.mp hj
  cases j with
  | refWitness d size align writable assumed =>
    obtain rfl : d = dst := Option.some.inj hjd
    exact ⟨size, align, writable, assumed, hs.inst b hb _ hjb rfl d _ rfl⟩
  | _ => exact absurd hjd (by simp)

theorem Solved.env_of_defined (hs : Solved f s) {b : BasicBlock} (hb : b ∈ f.blocks) {i : Inst}
    (hi : i ∈ b.insts) {dst : RegId} {u : AbsVal} (hval : instValue f i s.env = some (dst, u))
    {w x : Nat} (hu : u.Describes args w x) {v : AbsVal} (hv : s.env dst = some v) :
    v.Describes args w x := by
  cases hsk : skipped f i with
  | true =>
    obtain ⟨size, align, writable, assumed, henv⟩ :=
      hs.env_of_skipped hsk (instValue_definedReg hval)
    rw [hv] at henv
    rw [Option.some.inj henv]
    trivial
  | false =>
    rw [hs.inst b hb i hi hsk dst u hval] at hv
    rw [← Option.some.inj hv]
    exact hu

theorem instValue_open {i : Inst} {env : Env} {r : RegId} (hdef : i.definedReg = some r)
    (ha : ∀ dst ty value, i ≠ .assign dst ty value)
    (hp : ∀ dst base index elem, i ≠ .ptrOffset dst base index elem) :
    ∃ u, instValue f i env = some (r, u) ∧ ∀ args w x, u.Describes args w x := by
  cases i with
  | assign dst ty value => exact absurd rfl (ha dst ty value)
  | ptrOffset dst base index elem => exact absurd rfl (hp dst base index elem)
  | alloc d region elem count align =>
    obtain rfl : d = r := Option.some.inj hdef
    cases region <;> exact ⟨_, rfl, fun _ _ _ => trivial⟩
  | call d callee args =>
    obtain rfl : d = some r := hdef
    refine ⟨_, rfl, fun _ _ _ => ?_⟩
    split <;> trivial
  | refWitness d size align writable assumed =>
    obtain rfl : d = r := Option.some.inj hdef
    exact ⟨_, rfl, fun _ _ _ => trivial⟩
  | load d ty ptr vol =>
    obtain rfl : d = r := Option.some.inj hdef
    exact ⟨_, rfl, fun _ _ _ => trivial⟩
  | fieldPtr d base =>
    obtain rfl : d = r := Option.some.inj hdef
    exact ⟨_, rfl, fun _ _ _ => trivial⟩
  | intrinsic d name args =>
    obtain rfl : d = some r := hdef
    exact ⟨_, rfl, fun _ _ _ => trivial⟩
  | store ty ptr value vol => exact absurd hdef (by simp [Inst.definedReg])
  | dealloc region ptr => exact absurd hdef (by simp [Inst.definedReg])
  | asm defs => exact absurd hdef (by simp [Inst.definedReg])
  | memIntrinsic dst src len => exact absurd hdef (by simp [Inst.definedReg])
  | note => exact absurd hdef (by simp [Inst.definedReg])

/-- Every offset of the function has an index that reaches 64 bits unchanged. -/
def WideIndices (f : Func) (Γ : RegId → Nat) : Prop :=
  ∀ b ∈ f.blocks, ∀ dst base index elem, Inst.ptrOffset dst base index elem ∈ b.insts →
    WideIndex Γ index

theorem exec_described (hwf : f.WellFormed) (hty : f.WellTyped Γ) (hidx : WideIndices f Γ)
    (hs : Solved f s) (hk : Kept f s) {b : BasicBlock} (hb : b ∈ f.blocks) {i : Inst}
    (hi : i ∈ b.insts) {regs regs' : Regs} (h : Described Γ args s.env regs)
    (hex : i.Exec Γ regs regs') : Described Γ args s.env regs' := by
  cases hex with
  | @assign dst ty value _ x hx =>
    obtain ⟨hdst, hval⟩ := hty.assign b hb dst ty value hi
    refine Described.set h fun v hv => hs.env_of_defined hb hi rfl ?_ hv
    rw [hdst]
    exact evalRvalue_describes h hval hx
  | @ptrOffset dst base index elem _ bv iv hbase hindex =>
    obtain ⟨hdst, hbw⟩ := hty.ptrOffset b hb dst base index elem hi
    refine Described.set h fun v hv => hs.env_of_defined hb hi rfl ?_ hv
    have hdb := evalOperand_describes h hbase
    rw [hbw] at hdb
    rw [hdst]
    split
    · rename_i arg off ix hbe hie
      rw [hbe] at hdb
      split
      · rename_i o ho
        obtain ⟨t, ht, hadd⟩ := Option.bind_eq_some_iff.mp ho
        rw [AbsVal.Describes, Affine.eval_add hadd, Affine.eval_scale ht, ← add_assoc]
        have hoff := offsetAddr_describes h hindex (hidx b hb dst base index elem hi) hie bv
          ((elem.strideBytes .lp64).getD 1)
        exact hoff.trans (Int.ModEq.add_right _ hdb)
      · trivial
    · trivial
    · trivial
  | @other _ _ _ ha hp hframe =>
    intro r x v hr hv
    by_cases hw : r ∈ i.writes
    · cases hdef : i.definedReg with
      | some d =>
        have hrd : r = d := by
          cases i with
          | asm defs => exact absurd hdef (by simp [Inst.definedReg])
          | _ => simpa [Inst.writes, hdef] using hw
        rw [← hrd] at hdef
        obtain ⟨u, hu, hall⟩ := instValue_open (f := f) hdef ha hp
        exact hs.env_of_defined hb hi hu (hall args (Γ r) x) hv
      | none =>
        cases i with
        | asm defs =>
          have hnp : r ∉ f.params.map (·.1) := by
            intro hparam
            obtain ⟨p, hp', rfl⟩ := List.mem_map.mp hparam
            exact hwf.param_def p hp' b hb _ hi hw
          rw [(hk.asm b hb defs hi r hw hnp).1] at hv
          exact absurd hv (by simp)
        | _ => exact absurd hw (by simp [Inst.writes, hdef])
    · rw [hframe r hw] at hr
      exact h r x v hr hv

theorem argEdges_of_edges {t : Terminator} {e : BlockId × List Operand} (h : e ∈ t.edges) :
    e ∈ argEdges t ∨ e.2 = [] := by
  cases t with
  | switch v cases d =>
    refine .inr ?_
    rcases List.mem_append.mp h with hc | hd
    · obtain ⟨c, _, rfl⟩ := List.mem_map.mp hc
      rfl
    · rw [List.mem_singleton.mp hd]
  | _ => exact .inl h

theorem jump_described (hwf : f.WellFormed) (hty : f.WellTyped Γ) (hs : Solved f s)
    {b tb : BasicBlock} (hb : b ∈ f.blocks) {regs : Regs} {target : BlockId} {ops : List Operand}
    {xs : List Nat} (h : Described Γ args s.env regs) (hgoes : b.term.Goes regs target ops)
    (htb : f.block target = some tb) (hops : List.Forall₂ (Operand.Evals regs) ops xs) :
    Described Γ args s.env (regs.bind tb.params xs) := by
  intro q x v hq hv
  rcases Regs.bind_cases hq with ⟨ty, hmem⟩ | hold
  · -- the argument that was bound to `q`
    obtain ⟨j, hj⟩ := List.mem_iff_getElem?.mp hmem
    obtain ⟨hjp, hjx⟩ := List.getElem?_zip_eq_some.mp hj
    obtain ⟨hlen, hall⟩ := List.forall₂_iff_get.mp hops
    obtain ⟨hjlt, hjx'⟩ := List.getElem?_eq_some_iff.mp hjx
    have hjo : j < ops.length := hlen ▸ hjlt
    have hev : (ops.get ⟨j, hjo⟩).Evals regs x := by
      have := hall j hjo hjlt
      rwa [List.get_eq_getElem (l := xs), hjx'] at this
    have hzip : ((q, ty), ops.get ⟨j, hjo⟩) ∈ tb.params.zip ops := by
      apply List.mem_iff_getElem?.mpr
      exact ⟨j, List.getElem?_zip_eq_some.mpr ⟨hjp, List.getElem?_eq_getElem hjo⟩⟩
    have hedge := hgoes.mem_edges
    have hwidth := hty.edge b hb _ hedge tb htb _ hzip
    rcases argEdges_of_edges hedge with hfed | hnil
    · obtain ⟨u, hu, hor⟩ := hs.edge b hb _ hfed tb (byId_eq hwf htb) _ hzip
      rw [hs.param tb (Func.block_spec htb).1 (q, ty) (List.of_mem_zip hzip).1 u hu] at hv
      rw [← Option.some.inj hv]
      rcases hor with rfl | rfl
      · exact hwidth ▸ evalOperand_describes h hev
      · trivial
    · obtain rfl : ops = [] := hnil
      exact absurd hjo (by simp)
  · exact h q x v hold hv

theorem reaches_described (hwf : f.WellFormed) (hty : f.WellTyped Γ) (hidx : WideIndices f Γ)
    (hs : Solved f s) (hk : Kept f s) {p : Point} (h : f.Reaches Γ args p) :
    p.blk ∈ f.blocks ∧ (∀ i ∈ p.rest, i ∈ p.blk.insts) ∧ Described Γ args s.env p.regs := by
  refine h.induction (P := fun p => p.blk ∈ f.blocks ∧ (∀ i ∈ p.rest, i ∈ p.blk.insts) ∧
    Described Γ args s.env p.regs) (fun p hp => ?_) fun p q hP hstep => ?_
  · exact ⟨(Func.block_spec hp.1).1, fun i hi => hp.2.1 ▸ hi, start_described hwf hk hp⟩
  · obtain ⟨hb, hrest, hdesc⟩ := hP
    cases hstep with
    | inst hex =>
      exact ⟨hb, fun i hi => hrest i (List.mem_cons_of_mem _ hi),
        exec_described hwf hty hidx hs hk hb (hrest _ List.mem_cons_self) hdesc hex⟩
    | jump hgoes htb hops _ =>
      exact ⟨(Func.block_spec htb).1, fun i hi => hi,
        jump_described hwf hty hs hb hdesc hgoes htb hops⟩

end Summarizer

namespace Summary

open Summarizer

theorem returned_spec {env : Env} {bs : List BasicBlock} {acc : Option AbsVal} {v : AbsVal}
    (h : returned env bs acc = some v) (hv : v ≠ .opq) :
    (∀ u, acc = some u → u = v) ∧
      ∀ b ∈ bs, ∀ op, b.term = .ret (some op) → evalOperand op env = v := by
  induction bs generalizing acc with
  | nil => exact ⟨fun u hu => Option.some.inj (hu.symm.trans h), fun b hb => absurd hb (by simp)⟩
  | cons b bs ih =>
    simp only [returned] at h
    split at h
    · rename_i op hterm
      obtain ⟨hacc, hbs⟩ := ih h
      have hhead := hacc _ rfl
      have hsite : evalOperand op env = v ∧ ∀ u, acc = some u → u = v := by
        cases acc with
        | none => exact ⟨hhead, fun u hu => absurd hu (by simp)⟩
        | some prev =>
          have hne : prev.join (evalOperand op env) ≠ .opq := fun he => hv (hhead.symm.trans he)
          obtain ⟨hj, heq⟩ := AbsVal.join_eq hne
          have hval : evalOperand op env = v := hj.symm.trans hhead
          exact ⟨hval, fun u hu => by rw [← Option.some.inj hu, heq, hval]⟩
      refine ⟨hsite.2, fun c hc op' hop' => ?_⟩
      rcases List.mem_cons.mp hc with rfl | hc
      · rw [hterm] at hop'
        obtain rfl : op = op' := by injection hop' with h'; exact Option.some.inj h'
        exact hsite.1
      · exact hbs c hc op' hop'
    · rename_i hterm
      obtain ⟨hacc, hbs⟩ := ih h
      refine ⟨hacc, fun c hc op' hop' => ?_⟩
      rcases List.mem_cons.mp hc with rfl | hc
      · exact absurd hop' (hterm op')
      · exact hbs c hc op' hop'

variable {f : Func} {Γ : RegId → Nat} {args : List Nat}

theorem returns_described (hwf : f.WellFormed) (hty : f.WellTyped Γ) (hidx : WideIndices f Γ)
    {s : Summarizer} (hrun : (initial f).run f 64 = some s) {v : AbsVal}
    (hret : returned s.env f.blocks none = some v) {x : Nat} (h : f.Returns Γ args x) :
    v.Describes args f.retTy.typeWidth x := by
  by_cases hv : v = .opq
  · rw [hv]
    trivial
  · obtain ⟨b, regs, op, hreach, hterm, hop⟩ := h
    obtain ⟨hs, hk⟩ := run_spec hwf (initial_kept hwf) hrun
    obtain ⟨hb, _, hdesc⟩ := reaches_described hwf hty hidx hs hk hreach
    have hval := evalOperand_describes hdesc hop
    rw [hty.ret b hb op hterm, (returned_spec hret hv).2 b hb op hterm] at hval
    exact hval

/-- `fn(p: ptr, n: i64) { q = p + index * elem; return q }`. -/
def offsetFn (index : Operand) (elem : Ty) : Func where
  name := "at"
  params := [(0, .ptr .unit), (1, .int 64)]
  retTy := .ptr .unit
  blocks := [⟨0, [], [.ptrOffset 2 (.reg 0) index elem], .ret (some (.reg 2))⟩]
  entry := 0

def wide : RegId → Nat := fun _ => 64

theorem offsetFn_wellFormed (index : Operand) (elem : Ty) : (offsetFn index elem).WellFormed where
  ids := by simp [offsetFn]
  params := by simp [offsetFn]
  param_def := by simp [offsetFn, Inst.writes, Inst.definedReg]
  asm_param := by simp [offsetFn]
  asm_def := by simp [offsetFn]

theorem offsetFn_wellTyped (index : Operand) (elem : Ty) : (offsetFn index elem).WellTyped wide where
  param := by simp [offsetFn, wide, Ty.typeWidth]
  assign := by simp [offsetFn]
  ptrOffset := by
    intro b hb dst base index' elem' hi
    obtain rfl := List.mem_singleton.mp hb
    obtain ⟨rfl, rfl, rfl, rfl⟩ := Inst.ptrOffset.inj (List.mem_singleton.mp hi)
    exact ⟨rfl, rfl⟩
  edge := by simp [offsetFn, Terminator.edges]
  ret := by simp [offsetFn, wide, Operand.width, Ty.typeWidth]

theorem offsetFn_returns (index : Operand) (elem : Ty) (b n i : Nat)
    (hi : index.Evals (Regs.bind (fun _ => none) [(0, .ptr .unit), (1, .int 64)] [b, n]) i) :
    (offsetFn index elem).Returns wide [b, n]
      (offsetAddr b (index.width wide) i ((elem.strideBytes .lp64).getD 1)) := by
  refine ⟨_, _, .reg 2, .step (.start ⟨rfl, rfl, rfl, rfl⟩) (.inst (.ptrOffset (b := b) ?_ hi)),
    rfl, Regs.set_self _ _ _⟩
  rfl

/-- `fn(p: ptr, n: i32) { m = n + 1; q = p + m; return q }`, the index an `i32`. -/
def nextFn : Func where
  name := "next"
  params := [(0, .ptr .unit), (1, .int 32)]
  retTy := .ptr .unit
  blocks := [⟨0, [],
    [.assign 2 (.int 32) (.bin .add (.reg 1) (.const (.int ⟨32, 1, BitVector.pos32, BitVector.le32, BitVector.one_lt32⟩))),
      .ptrOffset 3 (.reg 0) (.reg 2) (.int 8)], .ret (some (.reg 3))⟩]
  entry := 0

/-- The declared widths of `nextFn`. -/
def narrow : RegId → Nat := fun r => if r = 1 ∨ r = 2 then 32 else 64

theorem nextFn_wellFormed : nextFn.WellFormed where
  ids := by simp [nextFn]
  params := by simp [nextFn]
  param_def := by simp [nextFn, Inst.writes, Inst.definedReg]
  asm_param := by simp [nextFn]
  asm_def := by simp [nextFn]

theorem nextFn_wellTyped : nextFn.WellTyped narrow where
  param := by simp [nextFn, narrow, Ty.typeWidth]
  assign := by
    intro b hb dst ty value hi
    obtain rfl := List.mem_singleton.mp hb
    rcases List.mem_cons.mp hi with hi | hi
    · obtain ⟨rfl, rfl, rfl⟩ := Inst.assign.inj hi
      exact ⟨rfl, rfl, rfl⟩
    · exact absurd (List.mem_singleton.mp hi) (by simp)
  ptrOffset := by
    intro b hb dst base index elem hi
    obtain rfl := List.mem_singleton.mp hb
    rcases List.mem_cons.mp hi with hi | hi
    · exact absurd hi (by simp)
    · obtain ⟨rfl, rfl, rfl, rfl⟩ := Inst.ptrOffset.inj (List.mem_singleton.mp hi)
      exact ⟨rfl, rfl⟩
  edge := by simp [nextFn, Terminator.edges]
  ret := by simp [nextFn, narrow, Operand.width, Ty.typeWidth]

end Summary

end Csolver
