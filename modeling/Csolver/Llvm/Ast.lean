import Csolver.Ir.Func

/-!
# LLVM types and values (`crates/llvm/src/parser/ast.rs`), and the context of a lowering (`lower.rs`)

What the parser hands on of a type and of an operand. The width of an operand is not kept: an index of a
`getelementptr` is its value alone.
-/

namespace Csolver

namespace Llvm

inductive LType where
  | void
  | int (bits : Nat)
  | ptr
  | array (elem : LType) (n : Nat)
  | vector (elem : LType) (n : Nat)
  | struct (fields : List LType)
  | packedStruct (fields : List LType)
  | named (name : String)
  | metadata

mutual

/-- `lower_type`: a vector is an array of its elements. -/
def lowerType : LType → Ty
  | .void | .metadata => .unit
  | .int bits => .int bits
  | .ptr => .ptr .unit
  | .array elem n | .vector elem n => .array (lowerType elem) n
  | .struct fields => .struct (lowerTypes fields) false
  | .packedStruct fields => .struct (lowerTypes fields) true
  | .named _ => .opq 0 1

def lowerTypes : List LType → List Ty
  | [] => []
  | f :: fs => lowerType f :: lowerTypes fs

end

inductive LValue where
  | local (name : String)
  | int (n : Int)
  | null
  | undef
  | global (name : String)
  /-- A folded `getelementptr` into a global. -/
  | globalOff (name : String) (elem : LType) (index : Int)

inductive LowerError where
  | parse (msg : String)
  | unsupported (msg : String)

/-- `Ctx`: the registers of the names, and the next free one. -/
structure Ctx where
  regs : String → Option RegId
  nextReg : RegId

abbrev LowerM := StateT Ctx (Except LowerError)

def fresh : LowerM RegId := fun ctx => .ok (ctx.nextReg, { ctx with nextReg := ctx.nextReg + 1 })

namespace Ctx

def reg (ctx : Ctx) (name : String) : Except LowerError RegId :=
  match ctx.regs name with
  | some r => .ok r
  | none => .error (.parse ("use of undefined value %" ++ name))

/-- `Operand::int`: the value is cut to the width. -/
def intOperand (width : Nat) (n : Int) : Operand :=
  match BitVector.new width (n % 2 ^ 128).toNat with
  | none => .const .undef
  | some bv => .const (.int bv)

/-- `i128::saturating_mul`. -/
def saturatingMulI128 (a b : Int) : Int := max (-2 ^ 127) (min (a * b) (2 ^ 127 - 1))

def operand (ctx : Ctx) (v : LValue) (width : Nat) : Except LowerError Operand :=
  match v with
  | .local name => (ctx.reg name).map .reg
  | .int n => .ok (if 128 < width then .const .undef else intOperand (max width 1) n)
  | .null => .ok (.const .null)
  | .undef => .ok (.const .undef)
  | .global name => .ok (.const (.symbol name))
  | .globalOff name elem index =>
    .ok (match (lowerType elem).sizeBytes .lp64 with
      | some stride =>
        let off := saturatingMulI128 stride index
        if -2 ^ 63 ≤ off ∧ off < 2 ^ 63 then .const (.symbolOffset name off) else .const (.symbol name)
      | none => .const (.symbol name))

/-- The names are bound to registers that are not handed out again. -/
def Fits (ctx : Ctx) (n : RegId) : Prop := ∀ name r, ctx.regs name = some r → r < n

end Ctx

/-! ## The lowering monad -/

def operandM (v : LValue) (width : Nat) : LowerM Operand := fun ctx => (ctx.operand v width).map fun o => (o, ctx)

def regM (name : String) : LowerM RegId := fun ctx => (ctx.reg name).map fun r => (r, ctx)

section Monad

variable {α β : Type} {ctx ctx' : Ctx} {b : β} {r : RegId} {op : Operand}

theorem bind_eq_ok {m : LowerM α} {f : α → LowerM β} (h : (m >>= f) ctx = .ok (b, ctx')) :
    ∃ a ctx₁, m ctx = .ok (a, ctx₁) ∧ f a ctx₁ = .ok (b, ctx') := by
  simp only [bind, StateT.bind] at h
  cases hm : m ctx with
  | error e => exact absurd h (by simp [hm, Except.bind])
  | ok p =>
    obtain ⟨a, ctx₁⟩ := p
    exact ⟨a, ctx₁, rfl, by simpa [hm, Except.bind] using h⟩

theorem pure_eq_ok {a b : α} (h : (pure a : LowerM α) ctx = .ok (b, ctx')) : a = b ∧ ctx = ctx' := by
  have heq := Except.ok.inj h
  simp_all

theorem fresh_eq_ok (h : fresh ctx = .ok (r, ctx')) :
    r = ctx.nextReg ∧ ctx' = { ctx with nextReg := ctx.nextReg + 1 } := by
  have heq := Prod.mk.inj (Except.ok.inj h)
  exact ⟨heq.1.symm, heq.2.symm⟩

theorem operandM_eq_ok {v : LValue} {w : Nat} (h : operandM v w ctx = .ok (op, ctx')) :
    ctx.operand v w = .ok op ∧ ctx = ctx' := by
  simp only [operandM] at h
  cases ho : ctx.operand v w with
  | error e => exact absurd h (by simp [ho, Except.map])
  | ok x => simpa [ho, Except.map] using h

theorem regM_eq_ok {name : String} (h : regM name ctx = .ok (r, ctx')) : ctx.regs name = some r ∧ ctx = ctx' := by
  simp only [regM, Ctx.reg] at h
  cases ho : ctx.regs name with
  | none => exact absurd h (by simp [ho, Except.map])
  | some x => simpa [ho, Except.map] using h

end Monad

end Llvm

end Csolver
