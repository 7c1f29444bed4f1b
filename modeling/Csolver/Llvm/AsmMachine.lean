import Csolver.Llvm.Asm
import Csolver.Llvm.ScalarArith

/-!
# What an assembled template does

The template of an `asm` call as the assembler reads it, its constraints as LLVM numbers them, and the instruction as
the processor executes it: at the size of its suffix, or of the register that the destination is printed as. An
operand is a number of the constraint string; where it lives has 64 bits, of which its type fills the low ones.
-/

namespace Csolver.Llvm.Asm

/-! ## Constraints -/

/-- An operand: the argument that it takes, whether that is the address of the operand, and the output that it is
    tied to. -/
structure AsmOperand where
  arg : Option Nat
  memory : Bool
  tied : Option Nat
  output : Bool
deriving DecidableEq, Repr

/-- The operand of one token, the next argument being `arg`. -/
def operandOf (arg : Nat) (t : Text) : AsmOperand :=
  match t with
  | '=' :: '*' :: _ => ⟨some arg, true, none, true⟩
  | '=' :: _ => ⟨none, false, none, true⟩
  | '+' :: _ => ⟨some arg, hasMemory t, none, true⟩
  -- a label
  | '!' :: _ => ⟨none, false, none, false⟩
  | '*' :: _ => ⟨some arg, true, none, false⟩
  | _ => ⟨some arg, false, parseUsize t, false⟩

/-- The operands, numbered as the template refers to them. -/
def operandsFrom (arg : Nat) : List Text → List AsmOperand
  | [] => []
  | t :: ts =>
    let o := operandOf arg t
    o :: operandsFrom (if o.arg.isSome then arg + 1 else arg) ts

def operands (constraints : Text) : List AsmOperand := operandsFrom 0 ((tokens constraints).filter (!skipped ·))

/-- Where an operand lives: with the output that it is tied to. -/
def place (ops : List AsmOperand) (k : Nat) : Nat := (ops[k]?.bind (·.tied)).getD k

/-! ## Templates -/

/-- A directive that only aligns the code. -/
def padding (s : Text) : Bool :=
  [".p2align", ".align", ".balign"].any fun d => s.takeWhile (!isWhitespace ·) = d.toList

/-- The statements of a line; a comment goes to its end. -/
def lineStatements (line : Text) : List Text := (line.takeWhile (· ≠ '#')).splitOn ';'

/-- The statements that do something. -/
def machineStatements (template : Text) : List Text :=
  ((((unescapeNewlines template).splitOn '\n').flatMap lineStatements).map trim).filter fun s =>
    !s.isEmpty && s != "nop".toList && !padding s

/-- A reference to an operand, with the modifier that names a part of its register. -/
structure Ref where
  num : Nat
  modifier : Option Char

/-- `$0`, `${0}` and `${0:w}`. -/
def parseRef (tok : Text) : Option Ref :=
  match tok with
  | '$' :: '{' :: t =>
    match t.dropWhile Char.isDigit with
    | ['}'] => (parseUsize (t.takeWhile Char.isDigit)).map (⟨·, none⟩)
    | [':', c, '}'] =>
      if c ∈ ['b', 'h', 'w', 'k', 'q'] then (parseUsize (t.takeWhile Char.isDigit)).map (⟨·, some c⟩) else none
    | _ => none
  | '$' :: t => if t.all Char.isDigit then (parseUsize t).map (⟨·, none⟩) else none
  | _ => none

inductive Opcode where
  | mov
  | lea
  | neg
  | not
  | bin (op : BvOp)
deriving DecidableEq, Repr

def opcodes : List (String × Opcode) :=
  [("mov", .mov), ("movabs", .mov), ("lea", .lea), ("neg", .neg), ("not", .not), ("add", .bin .add),
    ("sub", .bin .sub), ("and", .bin .and), ("or", .bin .or), ("xor", .bin .xor), ("shl", .bin .shl),
    ("sal", .bin .shl), ("shr", .bin .lshr), ("sar", .bin .ashr), ("imul", .bin .mul), ("mul", .bin .mul)]

/-- The mnemonics, with the size that the suffix gives. -/
def mnemonics : List (Text × Opcode × Option Nat) :=
  opcodes.flatMap fun p =>
    [(p.1.toList, p.2, none), (p.1.toList ++ ['b'], p.2, some 8), (p.1.toList ++ ['w'], p.2, some 16),
      (p.1.toList ++ ['l'], p.2, some 32), (p.1.toList ++ ['q'], p.2, some 64)]

def mnemonic (m : Text) : Option (Opcode × Option Nat) := (mnemonics.find? (·.1 = m)).map (·.2)

/-- An instruction on operands, with the size of its suffix. -/
inductive Insn where
  | mov (suffix : Option Nat) (src dst : Ref)
  /-- The address of a lone base register. -/
  | lea (suffix : Option Nat) (src dst : Ref)
  | neg (suffix : Option Nat) (dst : Ref)
  | not (suffix : Option Nat) (dst : Ref)
  | bin (op : BvOp) (suffix : Option Nat) (src dst : Ref)

/-- `(r)`. -/
def parseBase : Text → Option Ref
  | '(' :: t => if t.getLast? = some ')' then parseRef t.dropLast else none
  | _ => none

def parseInsn (intel : Bool) (s : Text) : Option Insn := do
  let (m, rest) ← splitOnce ' ' (replaceChar '\t' ' ' s)
  let (opcode, suffix) ← mnemonic (trim m)
  match opcode, (rest.splitOn ',').map trim with
  | .neg, [d] => return .neg suffix (← parseRef d)
  | .not, [d] => return .not suffix (← parseRef d)
  | .mov, [a, b] => return .mov suffix (← parseRef (if intel then b else a)) (← parseRef (if intel then a else b))
  | .lea, [a, b] => return .lea suffix (← parseBase (if intel then b else a)) (← parseRef (if intel then a else b))
  | .bin op, [a, b] =>
    return .bin op suffix (← parseRef (if intel then b else a)) (← parseRef (if intel then a else b))
  | _, _ => none

/-- The template assembles to one instruction on operands. -/
def assemble (intel : Bool) (template : Text) : Option Insn :=
  match machineStatements template with
  | [s] => parseInsn intel s
  | _ => none

/-! ## Execution -/

/-- The size of the register for a type. -/
def regBits (w : Nat) : Nat := if w ≤ 8 then 8 else if w ≤ 16 then 16 else if w ≤ 32 then 32 else 64

namespace Ref

/-- The size of the register that is printed. -/
def bits (widths : Nat → Nat) (r : Ref) : Nat :=
  match r.modifier with
  | some 'b' | some 'h' => 8
  | some 'w' => 16
  | some 'k' => 32
  | some 'q' => 64
  | _ => regBits (widths r.num)

def isHigh (r : Ref) : Bool := r.modifier == some 'h'

def read (s : Nat) (r : Ref) (v : Nat) : Nat := if r.isHigh ∧ s = 8 then v / 2 ^ 8 % 2 ^ 8 else v % 2 ^ s

/-- The register after its part was written: 32 bits clear the others, 8 and 16 bits keep them. -/
def write (s : Nat) (r : Ref) (old v : Nat) : Nat :=
  if s = 32 ∨ s = 64 then v % 2 ^ s
  else if r.isHigh ∧ s = 8 then old - old / 2 ^ 8 % 2 ^ 8 * 2 ^ 8 + v % 2 ^ 8 * 2 ^ 8
  else old - old % 2 ^ s + v % 2 ^ s

end Ref

def opSize (widths : Nat → Nat) (suffix : Option Nat) (dst : Ref) : Nat := suffix.getD (dst.bits widths)

/-- What a shift takes its count modulo. -/
def countModulus (s : Nat) : Nat := if s = 64 then 64 else 32

def isShift (op : BvOp) : Bool := op = .shl || op = .lshr || op = .ashr

namespace Insn

def dst : Insn → Ref
  | mov _ _ d | lea _ _ d | neg _ d | not _ d | bin _ _ _ d => d

def refs : Insn → List Ref
  | mov _ s d | lea _ s d | bin _ _ s d => [s, d]
  | neg _ d | not _ d => [d]

/-- What the destination holds afterwards. -/
def exec (widths contents : Nat → Nat) (place : Nat → Nat) : Insn → Nat
  | mov z src dst =>
    let s := opSize widths z dst
    dst.write s (contents (place dst.num)) (src.read s (contents (place src.num)))
  | lea z src dst =>
    dst.write (opSize widths z dst) (contents (place dst.num)) (src.read (src.bits widths) (contents (place src.num)))
  | neg z dst =>
    let s := opSize widths z dst
    let x := contents (place dst.num)
    dst.write s x (BvOp.sub.eval s 0 (dst.read s x))
  | not z dst =>
    let s := opSize widths z dst
    let x := contents (place dst.num)
    dst.write s x (BvOp.xor.eval s (dst.read s x) (2 ^ s - 1))
  | bin op z src dst =>
    let s := opSize widths z dst
    let x := contents (place dst.num)
    let y := contents (place src.num)
    dst.write s x (op.eval s (dst.read s x) (if isShift op then src.read 8 y % countModulus s else src.read s y))

end Insn

/-! ## A call and the state before it -/

/-- An `asm` call with a result. -/
structure AsmCall where
  template : Text
  constraints : Text
  intel : Bool
  args : List LValue
  dst : String
  ret : LType
  /-- The widths of the types of the operands. -/
  widths : Nat → Nat

structure AsmState where
  ctx : Ctx
  /-- The declared widths of the registers of the representation. -/
  Γ : RegId → Nat
  regs : Regs
  /-- The addresses of the globals. -/
  addr : String → Nat
  /-- What the places of the operands hold. -/
  contents : Nat → Nat

namespace AsmState

variable (st : AsmState)

/-- The value of an operand of the representation, if it has one. -/
def read : Operand → Option Nat
  | .reg r => st.regs r
  | .const (.int bv) => some bv.value
  | .const .null => some 0
  | .const .undef => none
  | .const (.symbol name) => some (st.addr name)
  | .const (.symbolOffset name off) => some ((st.addr name + off) % 2 ^ 64).toNat

/-- The value of a right-hand side at a width. -/
def value (w : Nat) (rv : RValue) : Option Nat := do
  let xs ← rv.operands.mapM st.read
  return rv.machine w (List.zipWith (fun v y => (v, y % 2 ^ v)) (rv.operands.map (Operand.width st.Γ)) xs)

/-- An argument of a type of `w` bits has the value. -/
def Holds (w : Nat) : LValue → Nat → Prop
  | .int n, x => Literal w n ∧ x = (n % 2 ^ w).toNat
  | a, x => ∃ op, st.ctx.operand a w = .ok op ∧ st.read op = some x ∧ x < 2 ^ w ∧ w ≤ op.width st.Γ

end AsmState

namespace AsmCall

variable (c : AsmCall) (st : AsmState)

def ops : List AsmOperand := operands c.constraints

def place : Nat → Nat := Asm.place c.ops

/-- The declared width of the output. -/
def width : Nat := typeWidth c.ret

/-- An operand that is no memory operand holds its argument in the low bits. -/
def Start : Prop :=
  ∀ (k : Nat) (o : AsmOperand) (j : Nat) (a : LValue), c.ops[k]? = some o → o.arg = some j → o.memory = false →
    c.args[j]? = some a → st.Holds (c.widths k) a (st.contents (c.place k) % 2 ^ c.widths k)

/-- What the instruction leaves in the output. -/
def leaves : Option Nat := (assemble c.intel c.template).map (Insn.exec c.widths st.contents c.place)

/-- What is assigned for the output is what the instruction leaves in it. -/
def Right : Prop :=
  ∀ inst ctx', emitAsmSemantic (asmCallee c.template c.constraints c.intel) c.args c.dst c.ret st.ctx =
      .ok (some inst, ctx') →
    ∃ d ty rv x, inst = .assign d ty rv ∧ st.ctx.regs c.dst = some d ∧ c.leaves st = some x ∧
      st.value ty.typeWidth rv = some (x % 2 ^ c.width)

/-- The constraint is counted as LLVM counts it: no letter of a register output is taken for a memory operand, and
    it is no label. -/
def Numbered (t : Text) : Prop :=
  (t.head? = some '=' → t[1]? ≠ some '*' → hasMemory t = false) ∧ t.head? ≠ some '!'

/-- The operation is at least as wide as the output, and so are the operands that it reads; a shift to the right is
    exactly as wide, and the processor and the representation agree on the count. -/
def Fits : Insn → Prop
  | .mov z src dst => c.width ≤ opSize c.widths z dst ∧ c.width ≤ c.widths src.num
  | .lea z src dst =>
    c.width ≤ opSize c.widths z dst ∧ c.width ≤ src.bits c.widths ∧ c.width ≤ c.widths src.num
  | .neg z dst | .not z dst => c.width ≤ opSize c.widths z dst
  | .bin op z src dst =>
    let s := opSize c.widths z dst
    if (op = .xor ∨ op = .sub) ∧ src.num = dst.num then c.width ≤ s ∨ s = 32 ∧ c.width ≤ 64
    else if isShift op then
      let n := st.contents (c.place src.num) % 2 ^ c.widths src.num
      (c.width = s ∨ op = .shl ∧ c.width ≤ s) ∧ 8 ≤ c.width ∧ 8 ≤ c.widths src.num ∧
        (n < countModulus s ∨ c.width ≤ n % countModulus s)
    else c.width ≤ s ∧ c.width ≤ c.widths src.num

/-- The operand whose value is read, apart from the destination. -/
def source : Insn → Option Ref
  | .mov _ src _ | .lea _ src _ => some src
  | .neg _ _ | .not _ _ => none
  | .bin op _ src dst => if (op = .xor ∨ op = .sub) ∧ src.num = dst.num then none else some src

/-- The condition under which the value is right. -/
structure Plain (ins : Insn) : Prop where
  /-- No comment hides the statement, and no other directive is dropped. -/
  statements : machineStatements c.template = asmStatements c.template
  /-- It is one instruction, and its operands are plain references. -/
  parsed : assemble c.intel c.template = some ins
  numbered : ∀ t ∈ (tokens c.constraints).filter (!skipped ·), Numbered t
  low : ∀ r ∈ ins.refs, r.isHigh = false
  /-- The source is no memory operand. -/
  register : ∀ r o, source ins = some r → c.ops[r.num]? = some o → o.memory = false
  /-- What is tied to the destination is at least as wide as the output. -/
  tied : ∀ (k : Nat) (o : AsmOperand), c.ops[k]? = some o → o.arg.isSome → c.place k = ins.dst.num →
    c.width ≤ c.widths k
  fits : c.Fits st ins
  bounds : 0 < c.width ∧ c.width ≤ 64

end AsmCall

/-! ## The decoder and the assembler agree

On a statement of plain references the decoder finds the instruction that the assembler finds, with the arguments
that its constraints give to the operands, and the lowering reads back what the parser wrote.
-/

/-! ## Strings -/

theorem isWhitespace_of_isDigit {c : Char} (h : c.isDigit = true) : isWhitespace c = false := by
  have hd : 48 ≤ c.toNat ∧ c.toNat ≤ 57 := by
    simpa [Char.isDigit, UInt32.le_iff_toNat_le] using h
  obtain ⟨hlo, hhi⟩ := hd
  simp only [isWhitespace, List.contains_eq_mem, List.mem_cons, List.not_mem_nil, or_false, Bool.or_eq_false_iff,
    decide_eq_false_iff_not]
  refine ⟨⟨?_, ?_⟩, ?_⟩ <;> omega

theorem trim_of_ends {c d : Char} {t u : Text} (hc : isWhitespace c = false) (hd : isWhitespace d = false)
    (h : c :: t = u ++ [d]) : trim (c :: t) = c :: t := by
  have hstart : trimStart (c :: t) = c :: t := by simp [trimStart, hc]
  rw [trim, hstart, h, List.reverse_append, List.reverse_singleton, List.singleton_append, trimStart,
    List.dropWhile_cons, if_neg (by simp [hd]), List.reverse_cons, List.reverse_reverse]

theorem parseUsize_decimal (n : Nat) : parseUsize (decimal n) = if n < 2 ^ 64 then some n else none := by
  have hne : Nat.toDigits 10 n ≠ [] := Nat.toDigits_ne_nil
  have hdigits : ∀ c ∈ Nat.toDigits 10 n, c.isDigit = true := fun c hc =>
    Nat.isDigit_of_mem_toDigits (by decide) (by decide) hc
  have hplus : ∀ t, Nat.toDigits 10 n ≠ '+' :: t := by
    intro t ht
    exact absurd (hdigits '+' (ht ▸ List.mem_cons_self)) (by decide)
  have hval : Nat.ofDigitChars 10 (Nat.toDigits 10 n) 0 = n := Nat.ofDigitChars_toDigits (by decide) (by decide)
  simp only [parseUsize, decimal]
  rw [hval]
  exact if_pos ⟨hne, List.all_eq_true.mpr hdigits⟩

theorem eq_of_parseUsize_decimal {n m : Nat} (h : parseUsize (decimal n) = some m) : m = n := by
  rw [parseUsize_decimal] at h
  split_ifs at h
  exact (Option.some.inj h).symm

theorem not_mem_decimal {c : Char} (h : c.isDigit = false) (n : Nat) : c ∉ decimal n := fun hc =>
  absurd (Nat.isDigit_of_mem_toDigits (by decide) (by decide) hc) (by simp [h])

theorem splitOn_bars (base : Text) (parts : List Text) (hbase : '|' ∉ base) (hparts : ∀ p ∈ parts, '|' ∉ p) :
    (base ++ parts.flatMap ('|' :: ·)).splitOn '|' = base :: parts := by
  induction parts generalizing base with
  | nil => simpa using List.splitOn_eq_singleton hbase
  | cons p ps ih =>
    rw [List.flatMap_cons, List.cons_append, List.splitOn_append_cons_self_of_not_mem hbase,
      ih p (hparts p List.mem_cons_self) fun q hq => hparts q (List.mem_cons_of_mem _ hq)]

/-! ## References -/

theorem takeWhile_append_of_all {p : Char → Bool} {u v : Text} (hu : ∀ c ∈ u, p c = true)
    (hv : ∀ c, v.head? = some c → p c = false) : (u ++ v).takeWhile p = u ∧ (u ++ v).dropWhile p = v := by
  rw [List.takeWhile_append_of_pos hu, List.dropWhile_append_of_pos hu]
  cases v with
  | nil => simp
  | cons c v => simp [hv c rfl]

theorem asmOperandIndex_of_shape {ds rest tok : Text} {e : Char} {u : Text} {n : Nat}
    (hds : ∀ c ∈ ds, c.isDigit = true) (hn : parseUsize ds = some n) (hrest : ∀ c, rest.head? = some c → c.isDigit = false)
    (htok : tok = '$' :: (ds ++ rest) ∨ tok = '$' :: '{' :: (ds ++ rest)) (hlast : tok = u ++ [e])
    (he : isWhitespace e = false) : asmOperandIndex tok = some n := by
  have hne : ds ≠ [] := by
    rintro rfl
    exact absurd hn (by simp [parseUsize])
  obtain ⟨c, cs, rfl⟩ := List.exists_cons_of_ne_nil hne
  have hbrace : c ≠ '{' := by
    rintro rfl
    exact absurd (hds _ List.mem_cons_self) (by decide)
  have hdrop : ((c :: cs) ++ rest).dropWhile (· = '{') = (c :: cs) ++ rest := by simp [hbrace]
  have htake := (takeWhile_append_of_all hds hrest).1
  rcases htok with rfl | rfl
  · rw [asmOperandIndex, trim_of_ends (by decide) he hlast]
    simp only [hdrop, htake]
    rw [if_neg hne, hn]
  · rw [asmOperandIndex, trim_of_ends (by decide) he hlast]
    simp only [List.dropWhile_cons, decide_true, if_true, hdrop, htake]
    rw [if_neg hne, hn]

theorem exists_append_singleton {t : Text} (h : t ≠ []) : ∃ u e, t = u ++ [e] :=
  ⟨t.dropLast, t.getLast h, (List.dropLast_append_getLast h).symm⟩

theorem asmOperandIndex_of_parseRef {tok : Text} {r : Ref} (h : parseRef tok = some r) :
    asmOperandIndex tok = some r.num := by
  unfold parseRef at h
  split at h
  · next t =>
    -- `${n}` and `${n:m}`
    have hsplit := List.takeWhile_append_dropWhile (p := Char.isDigit) (l := t)
    have hds : ∀ c ∈ t.takeWhile Char.isDigit, c.isDigit = true := List.all_eq_true.mp List.all_takeWhile
    split at h
    · next hrest =>
      obtain ⟨n, hn, rfl⟩ := Option.map_eq_some_iff.mp h
      rw [hrest] at hsplit
      have hhead : ∀ c, ['}'].head? = some c → c.isDigit = false := by
        rintro c ⟨⟩
        decide
      exact asmOperandIndex_of_shape hds hn hhead (.inr (by rw [hsplit])) (u := '$' :: '{' :: t.takeWhile Char.isDigit) (by simp [hsplit]) (e := '}') (by decide)
    · next c hrest =>
      split_ifs at h
      obtain ⟨n, hn, rfl⟩ := Option.map_eq_some_iff.mp h
      rw [hrest] at hsplit
      have hhead : ∀ d, [':', c, '}'].head? = some d → d.isDigit = false := by
        rintro d ⟨⟩
        decide
      exact asmOperandIndex_of_shape hds hn hhead (.inr (by rw [hsplit]))
        (u := '$' :: '{' :: (t.takeWhile Char.isDigit ++ [':', c])) (by simp [hsplit]) (e := '}') (by decide)
    · cases h
  · next t _ =>
    -- `$n`
    split_ifs at h with hall
    obtain ⟨n, hn, rfl⟩ := Option.map_eq_some_iff.mp h
    have hds : ∀ c ∈ t, c.isDigit = true := List.all_eq_true.mp hall
    have hne : t ≠ [] := by
      rintro rfl
      exact absurd hn (by simp [parseUsize])
    obtain ⟨u, e, rfl⟩ := exists_append_singleton hne
    exact @asmOperandIndex_of_shape (u ++ [e]) [] _ _ ('$' :: u) _ hds hn (by simp) (.inl (by simp)) rfl
      (isWhitespace_of_isDigit (hds e (by simp)))
  · cases h

theorem ne_nil_of_parseRef {tok : Text} {r : Ref} (h : parseRef tok = some r) : tok ≠ [] := by
  rintro rfl
  exact absurd h (by simp [parseRef])

/-! ## Decoding -/

/-- What a suffix encodes. -/
inductive Sem where
  | zero
  | copy (j : Nat)
  | bin (op : BvOp) (jd js : Nat)
  | neg (j : Nat)
  | not (j : Nat)

def letter : BvOp → Char
  | .add => 'a'
  | .sub => 's'
  | .and => 'n'
  | .or => 'o'
  | .xor => 'x'
  | .shl => 'l'
  | .lshr => 'r'
  | .ashr => 'h'
  | _ => 'm'

def Sem.text : Sem → Text
  | zero => "semZ".toList
  | copy j => "semC".toList ++ decimal j
  | bin op jd js => "semB".toList ++ letter op :: ':' :: (decimal jd ++ ':' :: decimal js)
  | neg j => "semN".toList ++ 'n' :: ':' :: decimal j
  | not j => "semN".toList ++ 't' :: ':' :: decimal j

/-- The predicates of the decoder on a mnemonic. -/
def Recognised (m : Text) (opcode : Opcode) : Prop :=
  asmMnemRoot m "neg" = decide (opcode = .neg) ∧ asmMnemRoot m "not" = decide (opcode = .not) ∧
    (asmMnemRoot m "xor" || asmMnemRoot m "sub") = decide (opcode = .bin .xor ∨ opcode = .bin .sub) ∧
    (isCopy m = true → opcode = .mov) ∧ asmMnemRoot m "lea" = decide (opcode = .lea) ∧
    (asmBinopCode m).map (·.1) = match opcode with
      | .bin op => some (letter op)
      | _ => none

instance (m : Text) (opcode : Opcode) : Decidable (Recognised m opcode) :=
  inferInstanceAs (Decidable (_ ∧ _))

theorem mnemonics_recognised : ∀ p ∈ mnemonics, Recognised p.1 p.2.1 := by decide +kernel

theorem mnemonics_letter : ∀ p ∈ mnemonics, ∀ op, p.2.1 = .bin op → asmBinop (letter op) = some op := by
  have hall : ∀ p ∈ mnemonics, (match p.2.1 with
      | .bin op => decide (asmBinop (letter op) = some op)
      | _ => true) = true := by decide +kernel
  intro p hp op hop
  simpa [hop] using hall p hp

theorem mem_of_mnemonic {m : Text} {opcode : Opcode} {z : Option Nat} (h : mnemonic m = some (opcode, z)) :
    (m, opcode, z) ∈ mnemonics := by
  obtain ⟨p, hp, heq⟩ := Option.map_eq_some_iff.mp h
  have hm : p.1 = m := by simpa using List.find?_some hp
  have hpair : p = (m, opcode, z) := Prod.ext hm heq
  exact hpair ▸ List.mem_of_find?_eq_some hp

/-- The encoding of an instruction, with the arguments that the layout gives to its operands. -/
def Encodes (l : AsmLayout) : Insn → Sem → Prop
  | .mov _ src dst, .copy j | .lea _ src dst, .copy j =>
    (∃ s, l.source src.num = some s ∧ s.valueArg = some j) ∧ ∃ d, l.source dst.num = some d ∧ d.isOutput = true
  | .neg _ dst, .neg j | .not _ dst, .not j =>
    (∃ d, l.source dst.num = some d ∧ d.isOutput = true) ∧ l.incomingArg dst.num = some j
  | .bin op _ src dst, .zero =>
    ((op = .xor ∨ op = .sub) ∧ src.num = dst.num) ∧ ∃ d, l.source dst.num = some d ∧ d.isOutput = true
  | .bin op _ src dst, .bin op' jd js =>
    ¬((op = .xor ∨ op = .sub) ∧ src.num = dst.num) ∧ op' = op ∧ asmBinop (letter op) = some op ∧
      (∃ d, l.source dst.num = some d ∧ d.isOutput = true) ∧ l.incomingArg dst.num = some jd ∧
      ∃ s, l.source src.num = some s ∧ s.valueArg = some js
  | _, _ => False

theorem exists_output {l : AsmLayout} {k : Nat} (h : (l.source k).map OperandSrc.isOutput = some true) :
    ∃ d, l.source k = some d ∧ d.isOutput = true := Option.map_eq_some_iff.mp h

theorem copySemantic_encodes {l : AsmLayout} {ks kd : Nat} {suffix : Text}
    (h : (do copySemantic (← l.source ks) (← l.source kd)) = some suffix) :
    ∃ j, suffix = '|' :: (Sem.copy j).text ∧ (∃ s, l.source ks = some s ∧ s.valueArg = some j) ∧
      ∃ d, l.source kd = some d ∧ d.isOutput = true := by
  obtain ⟨s, hs, h⟩ := Option.bind_eq_some_iff.mp h
  obtain ⟨d, hd, h⟩ := Option.bind_eq_some_iff.mp h
  unfold copySemantic at h
  split_ifs at h with hout
  obtain ⟨j, hj, rfl⟩ := Option.map_eq_some_iff.mp h
  exact ⟨j, rfl, ⟨s, hs, hj⟩, d, hd, hout⟩

section Binary

variable {l : AsmLayout} {m src dst suffix : Text} {z : Option Nat} {rs rd : Ref}

theorem mov_encodes (hm : Recognised m .mov) (hs : parseRef src = some rs) (hd : parseRef dst = some rd)
    (h : binarySemantic l m src dst = some suffix) : ∃ sem : Sem, suffix = '|' :: sem.text ∧
      Encodes l (.mov z rs rd) sem := by
  obtain ⟨-, -, hxor, -, hlea, hbin⟩ := hm
  simp only [binarySemantic, hxor, hlea, asmOperandIndex_of_parseRef hs, asmOperandIndex_of_parseRef hd,
    Option.bind_some, reduceCtorEq, or_self, decide_false, Bool.false_and, Bool.false_eq_true, if_false] at h
  split_ifs at h with hcopy
  · obtain ⟨j, hj, henc⟩ := copySemantic_encodes h
    exact ⟨.copy j, hj, henc⟩
  · -- it is no operator either
    rw [Option.map_eq_none_iff.mp hbin] at h
    cases h

theorem lea_encodes (hm : Recognised m .lea) (hs : parseBase src = some rs) (hd : parseRef dst = some rd)
    (h : binarySemantic l m src dst = some suffix) : ∃ sem : Sem, suffix = '|' :: sem.text ∧
      Encodes l (.lea z rs rd) sem := by
  obtain ⟨-, -, hxor, hcopy, hlea, -⟩ := hm
  have hnot : isCopy m = false := by
    cases hc : isCopy m with
    | false => rfl
    | true => exact absurd (hcopy hc) (by simp)
  unfold parseBase at hs
  split at hs
  · next t =>
    split_ifs at hs with hlast
    simp only [binarySemantic, hxor, hlea, hnot, asmOperandIndex_of_parseRef hs, asmOperandIndex_of_parseRef hd,
      Option.bind_some, reduceCtorEq, or_self, decide_false, decide_true, Bool.false_and, Bool.false_eq_true,
      if_false, if_true] at h
    split_ifs at h
    obtain ⟨j, hj, henc⟩ := copySemantic_encodes h
    exact ⟨.copy j, hj, henc⟩
  · cases hs

theorem bin_encodes {op : BvOp} (hm : Recognised m (.bin op)) (hletter : asmBinop (letter op) = some op)
    (hs : parseRef src = some rs) (hd : parseRef dst = some rd) (h : binarySemantic l m src dst = some suffix) :
    ∃ sem : Sem, suffix = '|' :: sem.text ∧ Encodes l (.bin op z rs rd) sem := by
  obtain ⟨-, -, hxor, hcopy, hlea, hbin⟩ := hm
  have hnot : isCopy m = false := by
    cases hc : isCopy m with
    | false => rfl
    | true => exact absurd (hcopy hc) (by simp)
  obtain ⟨⟨code, flag⟩, hcode, hletter'⟩ := Option.map_eq_some_iff.mp hbin
  simp only [binarySemantic, hxor, hlea, hnot, hcode, asmOperandIndex_of_parseRef hs, asmOperandIndex_of_parseRef hd,
    Option.bind_some, Opcode.bin.injEq, reduceCtorEq, decide_false, Bool.false_eq_true, if_false,
    Option.isSome_some, Bool.and_true, Bool.and_eq_true, decide_eq_true_eq, beq_iff_eq, Option.some.injEq,
    Option.bind_eq_bind] at h
  split_ifs at h with hzero hout
  · obtain ⟨⟨hop, hnum⟩, hout⟩ := hzero
    exact ⟨.zero, (Option.some.inj h).symm, ⟨hop, hnum⟩, exists_output hout⟩
  · obtain ⟨jd, hjd, h⟩ := Option.bind_eq_some_iff.mp h
    obtain ⟨s, hsrc, h⟩ := Option.bind_eq_some_iff.mp h
    obtain ⟨js, hjs, h⟩ := Option.bind_eq_some_iff.mp h
    have hzero' : ¬((op = .xor ∨ op = .sub) ∧ rs.num = rd.num) := fun hz => hzero ⟨hz, hout⟩
    have htext : suffix = '|' :: (Sem.bin op jd js).text := by
      rw [← Option.some.inj h, Sem.text, ← show code = letter op from hletter']
      rfl
    exact ⟨.bin op jd js, htext, hzero', rfl, hletter, exists_output hout, hjd, s, hsrc, hjs⟩

end Binary

theorem unary_encodes {l : AsmLayout} {m tok suffix : Text} {opcode : Opcode} {z : Option Nat} {r : Ref}
    (hm : Recognised m opcode) (hd : parseRef tok = some r) (h : unarySemantic l m tok = some suffix) :
    (opcode = .neg → ∃ sem : Sem, suffix = '|' :: sem.text ∧ Encodes l (.neg z r) sem) ∧
      (opcode = .not → ∃ sem : Sem, suffix = '|' :: sem.text ∧ Encodes l (.not z r) sem) := by
  obtain ⟨hneg, hnot, -⟩ := hm
  constructor <;> rintro rfl
  · simp only [unarySemantic, hneg, decide_true, if_true, asmOperandIndex_of_parseRef hd, Option.bind_eq_bind,
      Option.bind_some] at h
    split_ifs at h with hout
    obtain ⟨j, hj, rfl⟩ := Option.map_eq_some_iff.mp h
    exact ⟨.neg j, rfl, exists_output hout, hj⟩
  · simp only [unarySemantic, hneg, hnot, reduceCtorEq, decide_false, decide_true, Bool.false_eq_true, if_false,
      if_true, asmOperandIndex_of_parseRef hd, Option.bind_eq_bind, Option.bind_some] at h
    split_ifs at h with hout
    obtain ⟨j, hj, rfl⟩ := Option.map_eq_some_iff.mp h
    exact ⟨.not j, rfl, exists_output hout, hj⟩

theorem ne_nil_of_parseBase {tok : Text} {r : Ref} (h : parseBase tok = some r) : tok ≠ [] := by
  rintro rfl
  cases h

theorem filter_nonempty_one {a : Text} (ha : a ≠ []) : [a].filter (!·.isEmpty) = [a] := by
  simp [ha]

theorem filter_nonempty_two {a b : Text} (ha : a ≠ []) (hb : b ≠ []) : [a, b].filter (!·.isEmpty) = [a, b] := by
  simp [ha, hb]

theorem statement_encodes {l : AsmLayout} {intel : Bool} {s m suffix : Text} {ops : List Text} {ins : Insn}
    (hins : parseInsn intel s = some ins) (h : (match ops with
      | [op] => unarySemantic l m op
      | [a, b] => binarySemantic l m (if intel then b else a) (if intel then a else b)
      | _ => none) = some suffix) (hsplit : splitStatement s = some (m, ops)) :
    ∃ sem : Sem, suffix = '|' :: sem.text ∧ Encodes l ins sem := by
  obtain ⟨⟨m', rest⟩, hm', heq⟩ := Option.map_eq_some_iff.mp hsplit
  obtain ⟨rfl, rfl⟩ := Prod.mk.inj heq
  simp only [parseInsn, hm', Option.bind_eq_bind, Option.bind_some] at hins
  obtain ⟨⟨opcode, z⟩, hmn, hins⟩ := Option.bind_eq_some_iff.mp hins
  have hmem := mem_of_mnemonic hmn
  have hrec := mnemonics_recognised _ hmem
  -- no operand of an instruction is empty, so none is dropped
  split at hins
  · next d hopcode hop =>
    obtain rfl := hopcode
    obtain ⟨r, hr, hins⟩ := Option.bind_eq_some_iff.mp hins
    rw [hop, filter_nonempty_one (ne_nil_of_parseRef hr)] at h
    rw [← Option.some.inj hins]
    exact (unary_encodes hrec hr h).1 rfl
  · next d hopcode hop =>
    obtain rfl := hopcode
    obtain ⟨r, hr, hins⟩ := Option.bind_eq_some_iff.mp hins
    rw [hop, filter_nonempty_one (ne_nil_of_parseRef hr)] at h
    rw [← Option.some.inj hins]
    exact (unary_encodes hrec hr h).2 rfl
  · next a b hopcode hop =>
    obtain rfl := hopcode
    obtain ⟨rs, hs, hins⟩ := Option.bind_eq_some_iff.mp hins
    obtain ⟨rd, hd, hins⟩ := Option.bind_eq_some_iff.mp hins
    rw [← Option.some.inj hins]
    have hne : a ≠ [] ∧ b ≠ [] := by
      have hsrc := ne_nil_of_parseRef hs
      have hdst := ne_nil_of_parseRef hd
      cases intel
      · exact ⟨hsrc, hdst⟩
      · exact ⟨hdst, hsrc⟩
    rw [hop, filter_nonempty_two hne.1 hne.2] at h
    exact mov_encodes hrec hs hd h
  · next a b hopcode hop =>
    obtain rfl := hopcode
    obtain ⟨rs, hs, hins⟩ := Option.bind_eq_some_iff.mp hins
    obtain ⟨rd, hd, hins⟩ := Option.bind_eq_some_iff.mp hins
    rw [← Option.some.inj hins]
    have hne : a ≠ [] ∧ b ≠ [] := by
      have hsrc := ne_nil_of_parseBase hs
      have hdst := ne_nil_of_parseRef hd
      cases intel
      · exact ⟨hsrc, hdst⟩
      · exact ⟨hdst, hsrc⟩
    rw [hop, filter_nonempty_two hne.1 hne.2] at h
    exact lea_encodes hrec hs hd h
  · next op a b hopcode hop =>
    obtain rfl := hopcode
    obtain ⟨rs, hs, hins⟩ := Option.bind_eq_some_iff.mp hins
    obtain ⟨rd, hd, hins⟩ := Option.bind_eq_some_iff.mp hins
    rw [← Option.some.inj hins]
    have hne : a ≠ [] ∧ b ≠ [] := by
      have hsrc := ne_nil_of_parseRef hs
      have hdst := ne_nil_of_parseRef hd
      cases intel
      · exact ⟨hsrc, hdst⟩
      · exact ⟨hdst, hsrc⟩
    rw [hop, filter_nonempty_two hne.1 hne.2] at h
    exact bin_encodes hrec (mnemonics_letter _ hmem op rfl) hs hd h
  · cases hins

theorem asmRegSemantic_encodes {template constraints suffix : Text} {intel : Bool} {ins : Insn}
    (hstat : machineStatements template = asmStatements template) (hins : assemble intel template = some ins)
    (h : asmRegSemantic template constraints intel = some suffix) :
    ∃ sem : Sem, suffix = '|' :: sem.text ∧ Encodes (asmOperandLayout constraints) ins sem := by
  unfold assemble at hins
  rw [hstat] at hins
  unfold asmRegSemantic at h
  split at hins
  · next s hs =>
    rw [hs] at h
    obtain ⟨⟨m, ops⟩, hsplit, h⟩ := Option.bind_eq_some_iff.mp h
    exact statement_encodes hins h hsplit
  · cases hins

/-! ## The callee's name -/

/-- The parts of the name before the suffix. -/
def memoryParts (constraints : Text) : List Text :=
  (asmMemoryOperands constraints).map fun op => (if op.2 then 'w' else 'r') :: decimal op.1

def baseName (constraints : Text) : Text :=
  if asmMayWriteMemory constraints then "<inline asm>".toList else "<inline asm nomem>".toList

theorem bar_not_mem_decimal (n : Nat) : '|' ∉ decimal n := not_mem_decimal (by decide) n

theorem Sem.bar_not_mem (sem : Sem) : '|' ∉ sem.text := by
  cases sem with
  | zero => decide
  | copy j => simp [Sem.text, bar_not_mem_decimal]
  | bin op jd js =>
    have hletter : '|' ≠ letter op := by cases op <;> decide
    simp [Sem.text, bar_not_mem_decimal, hletter]
  | neg j => simp [Sem.text, bar_not_mem_decimal]
  | not j => simp [Sem.text, bar_not_mem_decimal]

theorem asmCallee_parts {template constraints : Text} {intel : Bool} {parts : List Text}
    (h : (asmRegSemantic template constraints intel).getD [] = parts.flatMap ('|' :: ·))
    (hbar : ∀ p ∈ parts, '|' ∉ p) : (asmCallee template constraints intel).splitOn '|' =
      baseName constraints :: (memoryParts constraints ++ parts) := by
  have hflat : asmCallee template constraints intel =
      baseName constraints ++ (memoryParts constraints ++ parts).flatMap ('|' :: ·) := by
    rw [asmCallee, h, List.flatMap_append, memoryParts, List.flatMap_map, List.append_assoc]
    rfl
  rw [hflat]
  apply splitOn_bars
  · unfold baseName
    split <;> decide
  · intro p hp
    rcases List.mem_append.mp hp with hp | hp
    · obtain ⟨op, -, rfl⟩ := List.mem_map.mp hp
      have hne : '|' ≠ (if op.2 then 'w' else 'r') := by split <;> decide
      simp [hne, bar_not_mem_decimal]
    · exact hbar p hp

section Emission

variable {args : List LValue} {w : Nat} {ctx ctx' : Ctx} {rv : RValue}

theorem firstValue_memoryParts (constraints : Text) (parts : List Text) :
    firstValue args w (baseName constraints :: (memoryParts constraints ++ parts)) = firstValue args w parts := by
  have hbase (ps : List Text) : firstValue args w (baseName constraints :: ps) = firstValue args w ps := by
    unfold baseName
    split <;> rfl
  have hmem (ops : List (Nat × Bool)) : firstValue args w
      (ops.map (fun op => (if op.2 then 'w' else 'r') :: decimal op.1) ++ parts) = firstValue args w parts := by
    induction ops with
    | nil => rfl
    | cons op ops ih =>
      rw [← ih]
      rcases op with ⟨j, b⟩
      cases b <;> rfl
  rw [hbase, memoryParts, hmem]

def ArgIs (ctx : Ctx) (args : List LValue) (w j : Nat) (op : Operand) : Prop :=
  ∃ a, args[j]? = some a ∧ ctx.operand a w = .ok op

def Gives (ctx : Ctx) (args : List LValue) (w : Nat) (sem : Sem) (rv : RValue) : Prop :=
  match sem with
  | .zero => rv = .use (intAt w 0)
  | .copy j => ∃ op, ArgIs ctx args w j op ∧ rv = .use op
  | .bin binop jd js => ∃ x y, ArgIs ctx args w jd x ∧ ArgIs ctx args w js y ∧ rv = .bin binop x y
  | .neg j => ∃ op, ArgIs ctx args w j op ∧ rv = .bin .sub (intAt w 0) op
  | .not j => ∃ op, ArgIs ctx args w j op ∧ rv = .bin .xor op (intAt w (2 ^ 128 - 1))

theorem argOp_eq_ok {j : Nat} {o : Option Operand} (h : argOp args w j ctx = .ok (o, ctx')) :
    ctx = ctx' ∧ ∀ op, o = some op → ArgIs ctx args w j op := by
  cases ha : args[j]? with
  | some a =>
    simp only [argOp, ha] at h
    obtain ⟨op, ctx₁, hread, hret⟩ := bind_eq_ok h
    obtain ⟨hop, rfl⟩ := operandM_eq_ok hread
    obtain ⟨rfl, rfl⟩ := pure_eq_ok hret
    refine ⟨rfl, ?_⟩
    rintro op' ⟨⟩
    exact ⟨a, ha, hop⟩
  | none =>
    simp only [argOp, ha] at h
    obtain ⟨rfl, rfl⟩ := pure_eq_ok h
    exact ⟨rfl, fun op hop => nomatch hop⟩

theorem argOp_map {f : Operand → RValue} {j : Nat}
    (h : (do return (← argOp args w j).map f : LowerM (Option RValue)) ctx = .ok (some rv, ctx')) :
    ctx = ctx' ∧ ∃ op, ArgIs ctx args w j op ∧ rv = f op := by
  obtain ⟨o, ctx₁, ho, hret⟩ := bind_eq_ok h
  obtain ⟨rfl, hop⟩ := argOp_eq_ok ho
  obtain ⟨hrv, rfl⟩ := pure_eq_ok hret
  obtain ⟨op, rfl, rfl⟩ := Option.map_eq_some_iff.mp hrv
  exact ⟨rfl, op, hop op rfl, rfl⟩

theorem splitOnce_append {u : Text} (hu : ':' ∉ u) (t : Text) : splitOnce ':' (u ++ ':' :: t) = some (u, t) := by
  induction u with
  | nil => simp [splitOnce]
  | cons c u ih =>
    have hc : c ≠ ':' := fun heq => hu (heq ▸ List.mem_cons_self)
    simp only [List.cons_append, splitOnce, if_neg hc, ih fun hm => hu (List.mem_cons_of_mem _ hm), Option.map_some]

theorem splitOnce_decimal (n : Nat) (t : Text) : splitOnce ':' (decimal n ++ ':' :: t) = some (decimal n, t) :=
  splitOnce_append (not_mem_decimal (by decide) n) t

theorem splitOnce_letter {c : Char} (hc : c ≠ ':') (t : Text) : splitOnce ':' (c :: ':' :: t) = some ([c], t) :=
  splitOnce_append (u := [c]) (by simpa using hc.symm) t

theorem specValue_text {sem : Sem} (hletter : ∀ op jd js, sem = .bin op jd js → asmBinop (letter op) = some op)
    (h : specValue args w sem.text ctx = .ok (some rv, ctx')) : ctx = ctx' ∧ Gives ctx args w sem rv := by
  cases sem with
  | zero =>
    obtain ⟨hrv, rfl⟩ := pure_eq_ok h
    exact ⟨rfl, (Option.some.inj hrv).symm⟩
  | copy j =>
    simp only [Sem.text, String.reduceToList, List.cons_append, List.nil_append, specValue] at h
    cases hj : parseUsize (decimal j) with
    | none =>
      rw [hj] at h
      exact nomatch (pure_eq_ok h).1
    | some j' =>
      rw [hj, eq_of_parseUsize_decimal hj] at h
      exact argOp_map h
  | bin op jd js =>
    have hne : letter op ≠ ':' := by cases op <;> decide
    simp only [Sem.text, String.reduceToList, List.cons_append, List.nil_append, specValue, splitOnce_letter hne,
      splitOnce_decimal, List.head?_cons, Option.bind_some, hletter op jd js rfl] at h
    cases hjd : parseUsize (decimal jd) with
    | none =>
      simp only [hjd] at h
      exact nomatch (pure_eq_ok h).1
    | some jd' =>
      cases hjs : parseUsize (decimal js) with
      | none =>
        simp only [hjd, hjs] at h
        exact nomatch (pure_eq_ok h).1
      | some js' =>
        simp only [hjd, hjs, eq_of_parseUsize_decimal hjd, eq_of_parseUsize_decimal hjs] at h
        obtain ⟨x, ctx₁, hreadx, h⟩ := bind_eq_ok h
        obtain ⟨rfl, hx⟩ := argOp_eq_ok hreadx
        obtain ⟨y, ctx₂, hready, h⟩ := bind_eq_ok h
        obtain ⟨rfl, hy⟩ := argOp_eq_ok hready
        obtain ⟨hrv, rfl⟩ := pure_eq_ok h
        cases x with
        | none => cases hrv
        | some x =>
          cases y with
          | none => cases hrv
          | some y => exact ⟨rfl, x, y, hx x rfl, hy y rfl, (Option.some.inj hrv).symm⟩
  | neg j =>
    have hne : 'n' ≠ ':' := by decide
    simp only [Sem.text, String.reduceToList, List.cons_append, List.nil_append, specValue, splitOnce_letter hne,
      List.head?_cons] at h
    cases hj : parseUsize (decimal j) with
    | none =>
      rw [hj] at h
      exact nomatch (pure_eq_ok h).1
    | some j' =>
      rw [hj, eq_of_parseUsize_decimal hj] at h
      exact argOp_map h
  | not j =>
    have hne : 't' ≠ ':' := by decide
    simp only [Sem.text, String.reduceToList, List.cons_append, List.nil_append, specValue, splitOnce_letter hne,
      List.head?_cons] at h
    cases hj : parseUsize (decimal j) with
    | none =>
      rw [hj] at h
      exact nomatch (pure_eq_ok h).1
    | some j' =>
      rw [hj, eq_of_parseUsize_decimal hj] at h
      exact argOp_map h

theorem emit_gives {template constraints callee : Text} {intel : Bool} {dst : String} {ret : LType} {inst : Inst}
    (hcallee : asmCallee template constraints intel = callee)
    (h : emitAsmSemantic callee args dst ret ctx = .ok (some inst, ctx')) :
    ∃ suffix, asmRegSemantic template constraints intel = some suffix ∧
      ∀ sem : Sem, suffix = '|' :: sem.text →
        (∀ op jd js, sem = .bin op jd js → asmBinop (letter op) = some op) →
        ∃ d rv, inst = .assign d (lowerType ret) rv ∧ ctx.regs dst = some d ∧ Gives ctx args (typeWidth ret) sem rv := by
  subst hcallee
  unfold emitAsmSemantic at h
  obtain ⟨o, ctx₁, hvalue, h⟩ := bind_eq_ok h
  cases hsem : asmRegSemantic template constraints intel with
  | none =>
    have hparts := @asmCallee_parts _ _ _ [] (by rw [hsem]; rfl) (by simp)
    rw [hparts, firstValue_memoryParts] at hvalue
    obtain ⟨rfl, rfl⟩ := pure_eq_ok hvalue
    exact nomatch (pure_eq_ok h).1
  | some suffix =>
    refine ⟨suffix, rfl, ?_⟩
    rintro sem rfl hletter
    have hparts := @asmCallee_parts _ _ _ [sem.text] (by rw [hsem]; simp) (by simpa using sem.bar_not_mem)
    rw [hparts, firstValue_memoryParts] at hvalue
    obtain ⟨v, ctx₂, hspec, hvalue⟩ := bind_eq_ok hvalue
    cases v with
    | none =>
      obtain ⟨rfl, rfl⟩ := pure_eq_ok hvalue
      exact nomatch (pure_eq_ok h).1
    | some rv =>
      obtain ⟨rfl, hgives⟩ := specValue_text hletter hspec
      obtain ⟨rfl, rfl⟩ := pure_eq_ok hvalue
      obtain ⟨d, ctx₃, hreg, h⟩ := bind_eq_ok h
      obtain ⟨hd, rfl⟩ := regM_eq_ok hreg
      obtain ⟨hinst, -⟩ := pure_eq_ok h
      exact ⟨d, rv, (Option.some.inj hinst).symm, hd, hgives⟩

end Emission

end Csolver.Llvm.Asm
