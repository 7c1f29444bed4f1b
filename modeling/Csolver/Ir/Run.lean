import Csolver.Ir.Func

/-!
# Executions of a function on the machine

The meaning the analyses are measured against. Registers hold fixed-width values: an assignment is
computed at the declared width of its destination (`RValue.machine`), and a pointer offset is
`base + index * stride` in 64 bits with the index read as a signed number of its own width, as the
instruction's documentation has it. What memory, calls and inline assembly deliver is left open: such
an instruction may write any value to the registers it defines and to no other.

`Γ` gives every register its declared width.
-/

namespace Csolver

abbrev Regs := RegId → Option Nat

namespace Operand

def width (Γ : RegId → Nat) : Operand → Nat
  | reg r => Γ r
  | const (.int bv) => bv.width
  | const _ => 64

/-- The value of an operand; that of an undefined or symbolic constant is any. -/
def Evals (regs : Regs) : Operand → Nat → Prop
  | reg r, x => regs r = some x
  | const (.int bv), x => x = bv.value
  | const .null, x => x = 0
  | const .undef, _ => True
  | const (.symbol _), _ => True
  | const (.symbolOffset _ _), _ => True

end Operand

namespace RValue

/-- The value of a right-hand side at the width of its destination, from the operands at their
    declared widths. -/
def Evals (Γ : RegId → Nat) (regs : Regs) (w : Nat) (rv : RValue) (x : Nat) : Prop :=
  ∃ xs, List.Forall₂ (Operand.Evals regs) rv.operands xs ∧
    x = rv.machine w (List.zipWith (fun v y => (v, y % 2 ^ v)) (rv.operands.map (Operand.width Γ)) xs)

end RValue

/-- The address `base + index * stride`. -/
def offsetAddr (base indexWidth index stride : Nat) : Nat :=
  ((base + (BitVec.ofNat indexWidth index).toInt * stride) % 2 ^ 64).toNat

namespace Regs

def set (regs : Regs) (r : RegId) (x : Nat) : Regs := fun q => if q = r then some x else regs q

/-- Bind parameters from the left, a later one over an earlier. -/
def bind (regs : Regs) : List (RegId × Ty) → List Nat → Regs
  | (r, _) :: ps, x :: xs => (regs.set r x).bind ps xs
  | _, _ => regs

@[simp] theorem set_self (regs : Regs) (r : RegId) (x : Nat) : regs.set r x r = some x := if_pos rfl

theorem set_of_ne {regs : Regs} {r q : RegId} (h : q ≠ r) (x : Nat) : regs.set r x q = regs q :=
  if_neg h

theorem bind_cases {regs : Regs} {ps : List (RegId × Ty)} {xs : List Nat} {q : RegId} {x : Nat}
    (h : regs.bind ps xs q = some x) :
    (∃ ty, ((q, ty), x) ∈ ps.zip xs) ∨ regs q = some x := by
  induction ps generalizing regs xs with
  | nil => exact .inr h
  | cons p ps ih =>
    obtain ⟨r, ty⟩ := p
    cases xs with
    | nil => exact .inr h
    | cons y ys =>
      rcases ih h with ⟨ty', hmem⟩ | hset
      · exact .inl ⟨ty', List.mem_cons_of_mem _ hmem⟩
      · by_cases hq : q = r
        · subst hq
          rw [set_self] at hset
          rw [← Option.some.inj hset]
          exact .inl ⟨ty, List.mem_cons_self⟩
        · rw [set_of_ne hq] at hset
          exact .inr hset

end Regs

/-- One instruction. -/
inductive Inst.Exec (Γ : RegId → Nat) : Inst → Regs → Regs → Prop
  | assign {dst : RegId} {ty : Ty} {value : RValue} {regs : Regs} {x : Nat} :
      value.Evals Γ regs ty.typeWidth x → Exec Γ (.assign dst ty value) regs (regs.set dst x)
  | ptrOffset {dst : RegId} {base index : Operand} {elem : Ty} {regs : Regs} {b i : Nat} :
      base.Evals regs b → index.Evals regs i →
      Exec Γ (.ptrOffset dst base index elem) regs
        (regs.set dst (offsetAddr b (index.width Γ) i ((elem.strideBytes .lp64).getD 1)))
  | other {i : Inst} {regs regs' : Regs} :
      (∀ dst ty value, i ≠ .assign dst ty value) →
      (∀ dst base index elem, i ≠ .ptrOffset dst base index elem) →
      (∀ r, r ∉ i.writes → regs' r = regs r) → Exec Γ i regs regs'

/-- The successor a terminator chooses, with the arguments it passes. -/
inductive Terminator.Goes (regs : Regs) : Terminator → BlockId → List Operand → Prop
  | br {target : BlockId} {args : List Operand} : Goes regs (.br target args) target args
  | condThen {c : Operand} {t e : BlockId} {targs eargs : List Operand} {x : Nat} :
      c.Evals regs x → x ≠ 0 → Goes regs (.condBr c t targs e eargs) t targs
  | condElse {c : Operand} {t e : BlockId} {targs eargs : List Operand} :
      c.Evals regs 0 → Goes regs (.condBr c t targs e eargs) e eargs
  | switchCase {v : Operand} {cases : List (BitVector × BlockId)} {d b : BlockId} {bv : BitVector} :
      v.Evals regs bv.value → (cases.find? fun c => c.1.value = bv.value).map (·.2) = some b →
      Goes regs (.switch v cases d) b []
  | switchDefault {v : Operand} {cases : List (BitVector × BlockId)} {d : BlockId} {x : Nat} :
      v.Evals regs x → (∀ c ∈ cases, c.1.value ≠ x) → Goes regs (.switch v cases d) d []

theorem Terminator.Goes.mem_edges {regs : Regs} {t : Terminator} {b : BlockId} {args : List Operand}
    (h : t.Goes regs b args) : (b, args) ∈ t.edges := by
  cases h with
  | br => exact List.mem_singleton.mpr rfl
  | condThen _ _ => exact List.mem_cons_self
  | condElse _ => exact List.mem_cons_of_mem _ (List.mem_singleton.mpr rfl)
  | switchCase _ hf =>
    obtain ⟨c, hc, rfl⟩ := Option.map_eq_some_iff.mp hf
    apply List.mem_append_left
    exact List.mem_map_of_mem (List.mem_of_find?_eq_some hc)
  | switchDefault _ _ => exact List.mem_append_right _ (List.mem_singleton.mpr rfl)

/-- A point of an execution: the block, what is left of its body, and the registers. -/
structure Point where
  blk : BasicBlock
  rest : List Inst
  regs : Regs

namespace Func

/-- The start, with the arguments bound to the parameters. -/
def Start (f : Func) (args : List Nat) (p : Point) : Prop :=
  f.block f.entry = some p.blk ∧ p.rest = p.blk.insts ∧ args.length = f.params.length ∧
    p.regs = Regs.bind (fun _ => none) f.params args

inductive Step (f : Func) (Γ : RegId → Nat) : Point → Point → Prop
  | inst {b : BasicBlock} {i : Inst} {is : List Inst} {regs regs' : Regs} :
      i.Exec Γ regs regs' → Step f Γ ⟨b, i :: is, regs⟩ ⟨b, is, regs'⟩
  | jump {b tb : BasicBlock} {regs : Regs} {target : BlockId} {args : List Operand} {xs : List Nat} :
      b.term.Goes regs target args → f.block target = some tb →
      List.Forall₂ (Operand.Evals regs) args xs → args.length = tb.params.length →
      Step f Γ ⟨b, [], regs⟩ ⟨tb, tb.insts, regs.bind tb.params xs⟩

/-- The points an execution on `args` reaches. -/
inductive Reaches (f : Func) (Γ : RegId → Nat) (args : List Nat) : Point → Prop
  | start {p : Point} : f.Start args p → Reaches f Γ args p
  | step {p q : Point} : Reaches f Γ args p → f.Step Γ p q → Reaches f Γ args q

/-- An execution on `args` returns `x`. -/
def Returns (f : Func) (Γ : RegId → Nat) (args : List Nat) (x : Nat) : Prop :=
  ∃ b regs op, f.Reaches Γ args ⟨b, [], regs⟩ ∧ b.term = .ret (some op) ∧ op.Evals regs x

/-- Declared widths agree wherever a value is handed on. -/
structure WellTyped (f : Func) (Γ : RegId → Nat) : Prop where
  param : ∀ p ∈ f.params, Γ p.1 = p.2.typeWidth
  assign : ∀ b ∈ f.blocks, ∀ dst ty value, Inst.assign dst ty value ∈ b.insts →
    Γ dst = ty.typeWidth ∧ value.WellTyped ty.typeWidth (value.operands.map (Operand.width Γ))
  ptrOffset : ∀ b ∈ f.blocks, ∀ dst base index elem, Inst.ptrOffset dst base index elem ∈ b.insts →
    Γ dst = 64 ∧ base.width Γ = 64
  edge : ∀ b ∈ f.blocks, ∀ e ∈ b.term.edges, ∀ tb, f.block e.1 = some tb →
    ∀ p ∈ tb.params.zip e.2, p.2.width Γ = Γ p.1.1
  ret : ∀ b ∈ f.blocks, ∀ op, b.term = .ret (some op) → op.width Γ = f.retTy.typeWidth

/-- What single assignment asks of the ids, the parameters and the outputs of inline assembly. A
    typed field load is excepted on purpose: the load and its `RefWitness` write one register. -/
structure WellFormed (f : Func) : Prop where
  ids : (f.blocks.map (·.id)).Nodup
  params : (f.params.map (·.1)).Nodup
  param_def : ∀ p ∈ f.params, ∀ b ∈ f.blocks, ∀ i ∈ b.insts, p.1 ∉ i.writes
  asm_param : ∀ b ∈ f.blocks, ∀ defs, Inst.asm defs ∈ b.insts → ∀ r ∈ defs,
    ∀ b' ∈ f.blocks, r ∉ b'.params.map (·.1)
  asm_def : ∀ b ∈ f.blocks, ∀ defs, Inst.asm defs ∈ b.insts → ∀ r ∈ defs,
    ∀ b' ∈ f.blocks, ∀ i ∈ b'.insts, i.definedReg ≠ some r

theorem Reaches.induction {f : Func} {Γ : RegId → Nat} {args : List Nat} {P : Point → Prop}
    (hstart : ∀ p, f.Start args p → P p) (hstep : ∀ p q, P p → f.Step Γ p q → P q) {p : Point}
    (h : f.Reaches Γ args p) : P p := by
  induction h with
  | start hs => exact hstart _ hs
  | step _ hs ih => exact hstep _ _ ih hs

end Func

end Csolver
