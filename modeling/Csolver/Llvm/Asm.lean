import Csolver.Llvm.Blocks

/-!
# The register semantics of inline assembly (`parser/helpers.rs`, `parser/inst.rs`, `lower/asmops.rs`)

The parser decodes a template of one instruction into a suffix of the callee's name, and the lowering reads the
suffix back. Templates, constraint strings and names are lists of characters here.
-/

namespace Csolver.Llvm.Asm

abbrev Text := List Char

/-! ## Strings -/

def isWhitespace (c : Char) : Bool :=
  (9 ≤ c.toNat ∧ c.toNat ≤ 13) || (8192 ≤ c.toNat ∧ c.toNat ≤ 8202) ||
    [32, 133, 160, 5760, 8232, 8233, 8239, 8287, 12288].contains c.toNat

def trimStart (t : Text) : Text := t.dropWhile isWhitespace

def trim (t : Text) : Text := (trimStart (trimStart t).reverse).reverse

def splitOnce (c : Char) : Text → Option (Text × Text)
  | [] => none
  | d :: t => if d = c then some ([], t) else (splitOnce c t).map fun p => (d :: p.1, p.2)

/-- `replace("\\0A", "\n")`. -/
def unescapeNewlines : Text → Text
  | '\\' :: '0' :: 'A' :: t => '\n' :: unescapeNewlines t
  | c :: t => c :: unescapeNewlines t
  | [] => []

/-- `replace` of one character. -/
def replaceChar (a b : Char) (t : Text) : Text := t.map fun c => if c = a then b else c

/-- `str::parse::<usize>`. -/
def parseUsize (t : Text) : Option Nat :=
  let digits := match t with
    | '+' :: t => t
    | _ => t
  if digits ≠ [] ∧ digits.all Char.isDigit then
    let n := Nat.ofDigitChars 10 digits 0
    if n < 2 ^ 64 then some n else none
  else none

def decimal (n : Nat) : Text := Nat.toDigits 10 n

def occurs (pat t : Text) : Bool := t.tails.any fun u => pat.isPrefixOf u

/-! ## Constraints -/

/-- The tokens of a constraint string. -/
def tokens (constraints : Text) : List Text := (constraints.splitOn ',').map trim

def skipped (t : Text) : Bool := t.isEmpty || t.head? == some '~'

def hasMemory (t : Text) : Bool := t.contains '*' || t.contains 'm'

/-- `asm_memory_operands`: an argument, and whether it is written. -/
def asmMemoryOperands (constraints : Text) : List (Nat × Bool) :=
  let step (st : List (Nat × Bool) × Nat) (t : Text) :=
    let isOutput := t.head? == some '=' || t.head? == some '+'
    if isOutput && !hasMemory t then st
    else (if hasMemory t then st.1 ++ [(st.2, isOutput)] else st.1, st.2 + 1)
  (((tokens constraints).filter (!skipped ·)).foldl step ([], 0)).1

def asmMayWriteMemory (constraints : Text) : Bool :=
  occurs "memory".toList constraints || constraints.contains '*' ||
    (constraints.splitOn ',').any fun t => (t.contains '=' || t.contains '+') && t.contains 'm'

inductive OperandSrc where
  | ret
  | retTied (arg : Nat)
  | arg (arg : Nat)
deriving DecidableEq, Repr

namespace OperandSrc

def valueArg : OperandSrc → Option Nat
  | arg j | retTied j => some j
  | ret => none

def isOutput : OperandSrc → Bool
  | ret | retTied _ => true
  | arg _ => false

end OperandSrc

structure AsmLayout where
  sources : List OperandSrc
  tiedIn : Nat → Option Nat

namespace AsmLayout

def source (l : AsmLayout) (operand : Nat) : Option OperandSrc := l.sources[operand]?

def incomingArg (l : AsmLayout) (operand : Nat) : Option Nat :=
  match l.sources[operand]? with
  | some (.retTied j) => some j
  | some _ => l.tiedIn operand
  | none => none

/-- `HashMap::insert`. -/
def tie (l : AsmLayout) (operand arg : Nat) : AsmLayout :=
  { l with tiedIn := fun k => if k = operand then some arg else l.tiedIn k }

def push (l : AsmLayout) (s : OperandSrc) : AsmLayout := { l with sources := l.sources ++ [s] }

end AsmLayout

/-- One token, with the number of the next argument. -/
def layoutStep (st : AsmLayout × Nat) (t : Text) : AsmLayout × Nat :=
  let (l, arg) := st
  if t.head? = some '=' ∧ hasMemory t = false then (l.push .ret, arg)
  else if t.head? = some '+' ∧ hasMemory t = false then
    ((l.push (.retTied arg)).tie l.sources.length arg, arg + 1)
  else match parseUsize t with
    | some n => ((l.tie n arg).push (.arg arg), arg + 1)
    | none => (l.push (.arg arg), arg + 1)

def asmOperandLayout (constraints : Text) : AsmLayout :=
  (((tokens constraints).filter (!skipped ·)).foldl layoutStep (⟨[], fun _ => none⟩, 0)).1

/-! ## Templates -/

/-- `asm_operand_index`: what follows the number is not read. -/
def asmOperandIndex (tok : Text) : Option Nat :=
  match trim tok with
  | '$' :: t =>
    let digits := (t.dropWhile (· = '{')).takeWhile Char.isDigit
    if digits = [] then none else parseUsize digits
  | _ => none

/-- `asm_mnem_root(m, root).is_some()`. -/
def asmMnemRoot (m : Text) (root : String) : Bool :=
  m = root.toList || ['l', 'q', 'w', 'b'].any fun c => m = root.toList ++ [c]

def asmBinopCode (m : Text) : Option (Char × Bool) :=
  if asmMnemRoot m "add" then some ('a', false)
  else if asmMnemRoot m "sub" then some ('s', true)
  else if asmMnemRoot m "and" then some ('n', false)
  else if asmMnemRoot m "or" then some ('o', false)
  else if asmMnemRoot m "xor" then some ('x', false)
  else if asmMnemRoot m "shl" || asmMnemRoot m "sal" then some ('l', true)
  else if asmMnemRoot m "shr" then some ('r', true)
  else if asmMnemRoot m "sar" then some ('h', true)
  else if asmMnemRoot m "imul" || asmMnemRoot m "mul" then some ('m', false)
  else none

def isCopy (m : Text) : Bool :=
  (["mov", "movl", "movq", "movw", "movb", "movabs", "movabsq"].map String.toList).contains m

/-- The statements that are taken for instructions. -/
def asmStatements (template : Text) : List Text :=
  (((replaceChar ';' '\n' (unescapeNewlines template)).splitOn '\n').map trim).filter fun s =>
    !s.isEmpty && s != "nop".toList && s.head? != some '.' && s.head? != some '#'

/-- The mnemonic and the operands of a statement. -/
def splitStatement (s : Text) : Option (Text × List Text) :=
  (splitOnce ' ' (replaceChar '\t' ' ' s)).map fun p =>
    (trim p.1, ((p.2.splitOn ',').map trim).filter (!·.isEmpty))

/-- The decoding of a unary instruction. -/
def unarySemantic (layout : AsmLayout) (m op : Text) : Option Text := do
  let code ← if asmMnemRoot m "neg" then some 'n' else if asmMnemRoot m "not" then some 't' else none
  let k ← asmOperandIndex op
  if (layout.source k).map OperandSrc.isOutput = some true then
    (layout.incomingArg k).map fun j => "|semN".toList ++ code :: ':' :: decimal j
  else none

/-- `d.is_output()` and `s.value_arg()` of a copy. -/
def copySemantic (s d : OperandSrc) : Option Text :=
  if d.isOutput then s.valueArg.map fun j => "|semC".toList ++ decimal j else none

/-- The decoding of an instruction with two operands. -/
def binarySemantic (layout : AsmLayout) (m src dst : Text) : Option Text :=
  let resolve (tok : Text) : Option OperandSrc := (asmOperandIndex tok).bind layout.source
  if (asmMnemRoot m "xor" || asmMnemRoot m "sub") && (asmOperandIndex src).isSome &&
      asmOperandIndex src == asmOperandIndex dst && (resolve dst).map OperandSrc.isOutput == some true then
    some "|semZ".toList
  else if isCopy m then do copySemantic (← resolve src) (← resolve dst)
  else if asmMnemRoot m "lea" then
    -- `strip_prefix('(')` and `strip_suffix(')')`
    match src with
    | '(' :: t =>
      if t.getLast? = some ')' ∧ ',' ∉ t.dropLast then do copySemantic (← resolve t.dropLast) (← resolve dst)
      else none
    | _ => none
  else do
    let (code, _) ← asmBinopCode m
    let kd ← asmOperandIndex dst
    if (layout.source kd).map OperandSrc.isOutput = some true then
      let jd ← layout.incomingArg kd
      let js ← (← resolve src).valueArg
      some ("|semB".toList ++ code :: ':' :: (decimal jd ++ ':' :: decimal js))
    else none

def asmRegSemantic (template constraints : Text) (intel : Bool) : Option Text :=
  match asmStatements template with
  | [s] => do
    let (m, ops) ← splitStatement s
    match ops with
    | [op] => unarySemantic (asmOperandLayout constraints) m op
    | [a, b] => binarySemantic (asmOperandLayout constraints) m (if intel then b else a) (if intel then a else b)
    | _ => none
  | _ => none

/-- The callee of an `asm` call. -/
def asmCallee (template constraints : Text) (intel : Bool) : Text :=
  (if asmMayWriteMemory constraints then "<inline asm>".toList else "<inline asm nomem>".toList) ++
    (asmMemoryOperands constraints).flatMap (fun op => '|' :: (if op.2 then 'w' else 'r') :: decimal op.1) ++
    (asmRegSemantic template constraints intel).getD []

/-! ## The lowering -/

def asmBinop : Char → Option BvOp
  | 'a' => some .add
  | 's' => some .sub
  | 'n' => some .and
  | 'o' => some .or
  | 'x' => some .xor
  | 'l' => some .shl
  | 'r' => some .lshr
  | 'h' => some .ashr
  | 'm' => some .mul
  | _ => none

/-- `Operand::int` at the width of the output. -/
def intAt (width : Nat) (n : Int) : Operand := Ctx.intOperand width n

def argOp (args : List LValue) (width j : Nat) : LowerM (Option Operand) :=
  match args[j]? with
  | some a => do return some (← operandM a width)
  | none => pure none

/-- The value that one part of the callee's name gives; `none` is `continue`. -/
def specValue (args : List LValue) (width : Nat) (spec : Text) : LowerM (Option RValue) :=
  match spec with
  | ['s', 'e', 'm', 'Z'] => pure (some (.use (intAt width 0)))
  | 's' :: 'e' :: 'm' :: 'C' :: n =>
    match parseUsize n with
    | some j => do return (← argOp args width j).map .use
    | none => pure none
  | 's' :: 'e' :: 'm' :: 'B' :: rest =>
    -- `splitn(3, ':')`
    match splitOnce ':' rest with
    | some (op, rest) =>
      match splitOnce ':' rest with
      | some (jd, js) =>
        match op.head?.bind asmBinop, parseUsize jd, parseUsize js with
        | some binop, some jd, some js => do
          let lhs ← argOp args width jd
          let rhs ← argOp args width js
          return match lhs, rhs with
            | some lhs, some rhs => some (.bin binop lhs rhs)
            | _, _ => none
        | _, _, _ => pure none
      | none => pure none
    | none => pure none
  | 's' :: 'e' :: 'm' :: 'N' :: rest =>
    match splitOnce ':' rest with
    | some (kind, j) =>
      match kind.head?, parseUsize j with
      | some 'n', some j => do return (← argOp args width j).map fun x => .bin .sub (intAt width 0) x
      | some 't', some j => do return (← argOp args width j).map fun x => .bin .xor x (intAt width (2 ^ 128 - 1))
      | _, _ => pure none
    | none => pure none
  | _ => pure none

/-- The first part of the name that gives a value. -/
def firstValue (args : List LValue) (width : Nat) : List Text → LowerM (Option RValue)
  | [] => pure none
  | spec :: specs => do
    match ← specValue args width spec with
    | some v => pure (some v)
    | none => firstValue args width specs

/-- `emit_asm_semantic`: the instruction that is pushed, if there is one. -/
def emitAsmSemantic (callee : Text) (args : List LValue) (dst : String) (ret : LType) : LowerM (Option Inst) := do
  match ← firstValue args (typeWidth ret) (callee.splitOn '|') with
  | some value =>
    let d ← regM dst
    return some (.assign d (lowerType ret) value)
  | none => pure none

end Csolver.Llvm.Asm
