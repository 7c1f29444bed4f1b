import Csolver.Elf.Bytes
import Csolver.Lib.Cursor

/-!
# The typed decoder of x86-64 (`crates/asm/src/x86/decode.rs`, `typed.rs`, `cond.rs`)

Operands, instructions and the readers of operands. Instructions that differ only by their mnemonic are one
constructor over the mnemonics.
-/

namespace Csolver.X86

open Csolver.Lib (Cursor)

abbrev Byte : Type := Elf.Byte

/-! ## Operands -/

inductive Reg where
  | rax | rcx | rdx | rbx | rsp | rbp | rsi | rdi | r8 | r9 | r10 | r11 | r12 | r13 | r14 | r15
  deriving DecidableEq

def Reg.fromIdx : Nat → Option Reg
  | 0 => some .rax
  | 1 => some .rcx
  | 2 => some .rdx
  | 3 => some .rbx
  | 4 => some .rsp
  | 5 => some .rbp
  | 6 => some .rsi
  | 7 => some .rdi
  | 8 => some .r8
  | 9 => some .r9
  | 10 => some .r10
  | 11 => some .r11
  | 12 => some .r12
  | 13 => some .r13
  | 14 => some .r14
  | 15 => some .r15
  | _ => none

inductive Width where
  | b | w | d | q | dq | qq
  deriving DecidableEq

def Width.bytes : Width → Nat
  | .b => 1
  | .w => 2
  | .d => 4
  | .q => 8
  | .dq => 16
  | .qq => 32

def Width.bits (width : Width) : Nat := width.bytes * 8

def Width.fromRexW (rexW : Bool) : Width := if rexW then .q else .d

/-- `[base + index * scale + disp]`. -/
structure Mem where
  base : Option Reg
  index : Option (Reg × Nat)
  disp : Int

/-- The registers `XMM0` to `XMM15`, by their numbers. -/
abbrev XmmReg := Fin 16

/-- `XmmReg::from_idx`. -/
def xmmFromIdx (idx : Nat) : Option XmmReg := if h : idx < 16 then some ⟨idx, h⟩ else none

inductive X86Operand where
  | reg (r : Reg) (width : Width)
  | xmm (r : XmmReg) (width : Width)
  | mem (m : Mem) (width : Width)
  | imm (v : BitVec 64)
  | rel (r : Int)

inductive Condition where
  | o | no | b | ae | e | ne | be | a | s | ns | p | np | l | ge | le | g
  deriving DecidableEq

def Condition.fromCc : Nat → Option Condition
  | 0x0 => some .o
  | 0x1 => some .no
  | 0x2 => some .b
  | 0x3 => some .ae
  | 0x4 => some .e
  | 0x5 => some .ne
  | 0x6 => some .be
  | 0x7 => some .a
  | 0x8 => some .s
  | 0x9 => some .ns
  | 0xa => some .p
  | 0xb => some .np
  | 0xc => some .l
  | 0xd => some .ge
  | 0xe => some .le
  | 0xf => some .g
  | _ => none

/-! ## Instructions -/

inductive PlainOp where
  | nop | ret | syscall | cdqe | cqo | int3 | stc | clc | cmc | std | cld | lahf | sahf | pushf | popf

inductive UnaryOp where
  | push | pop | call | jmp | neg | not | inc | dec | mul | imul | div | idiv

inductive BinaryOp where
  | mov | movzx | movsx | add | sub | xor | and | or | cmp | test | xchg | movsxd | bsf | bsr | bt | bts | btr | btc
  | movaps | movapd | movups | movupd | movss | movsd
  | addps | addss | addpd | addsd | subps | subss | subpd | subsd | mulps | mulss | mulpd | mulsd
  | divps | divss | divpd | divsd | andps | andpd | orps | orpd | xorps | xorpd | andnps | andnpd
  | sqrtps | sqrtss | sqrtpd | sqrtsd | unpcklps | unpckhps | unpcklpd | unpckhpd
  | cvtps2dq | cvtdq2ps | cvttps2dq | maxps | minps | maxpd | minpd | maxss | minss | maxsd | minsd
  | comiss | comisd | ucomiss | ucomisd | pxor | paddq | psubq | pand | por
  | pshufb | phaddw | phaddd | phaddsw | pabsb | pabsw | pabsd
  | pmovsxbw | pmovsxbd | pmovsxbq | pmovsxwd | pmovsxwq | pmovsxdq
  | pmovzxbw | pmovzxbd | pmovzxbq | pmovzxwd | pmovzxwq | pmovzxdq
  | pmuldq | pmulld | pcmpeqq | pcmpgtq | pminsb | pminsd | pminuw | pminud | pmaxsb | pmaxsd | pmaxuw | pmaxud
  | phminposuw

/-- The instructions with an `imm8`. -/
inductive BinaryImmOp where
  | cmpps | cmppd | cmpss | cmpsd | shufps | shufpd | roundps | roundpd | roundss | roundsd | palignr
  | pinsrb | pinsrd | pinsrq | pextrb | pextrd | pextrq

inductive ShiftOp where
  | shl | shr | sar | rol | ror | rcl | rcr

inductive StringOp where
  | movs | stos | lods | scas | cmps

inductive Instruction where
  | plain (op : PlainOp)
  | unary (op : UnaryOp) (a : X86Operand)
  | binary (op : BinaryOp) (a b : X86Operand)
  | binaryImm (op : BinaryImmOp) (a b : X86Operand) (imm : Byte)
  | shift (op : ShiftOp) (a : X86Operand) (count : Byte)
  | string (op : StringOp) (width : Width)
  | lea (dst : Reg) (width : Width) (m : Mem)
  | jcc (cc : Condition) (rel : Int)
  | cmovcc (cc : Condition) (a b : X86Operand)
  | setcc (cc : Condition) (a : X86Operand)

/-! ## Readers -/

/-- The errors, and an access that is out of range. -/
inductive DecodeError where
  | parse (message : String)
  | unsupported (what : String)
  | outOfRange
  deriving DecidableEq

abbrev Decoder (α : Type) : Type := Cursor Byte DecodeError α

def parseError {α : Type} (message : String) : Decoder α := Cursor.fail (.parse message)

def unsupported {α : Type} (what : String) : Decoder α := Cursor.fail (.unsupported what)

/-- The next byte, or an error that names its offset. -/
def nextByte (what : String) : Decoder Nat :=
  return (← Cursor.next fun p => .parse (what ++ " at offset " ++ toString p)).toNat

/-- A number to the base 16, of two digits at least. -/
def hex (n : Nat) : String :=
  let digits := Nat.toDigits 16 n
  String.ofList (if digits.length < 2 then '0' :: digits else digits)

structure Prefixes where
  rex : Bool
  rexW : Bool
  rexR : Bool
  rexX : Bool
  rexB : Bool
  operandSize : Bool
  addressSize : Bool
  deriving DecidableEq

/-- The bits of the operand encoding. -/
structure Rex where
  w : Bool
  r : Bool
  x : Bool
  b : Bool
  deriving DecidableEq

/-- A field of three bits with its extension. -/
def extend (field : Nat) (bit : Bool) : Nat := field + if bit then 8 else 0

structure TypedModRm where
  mode : Nat
  reg : Nat
  rm : Nat

def TypedModRm.ofByte (byte : Nat) (rexR rexB : Bool) : TypedModRm :=
  ⟨byte / 64, extend (byte / 8 % 8) rexR, extend (byte % 8) rexB⟩

/-- `read_modrm`, with the cursor moved past the byte. -/
def readModrm (rexR rexB : Bool) : Decoder TypedModRm :=
  return .ofByte (← nextByte "x86: truncated ModR/M") rexR rexB

def regOf (idx : Nat) (message : String) : Decoder Reg := Cursor.ofOption (fun _ => .parse message) (Reg.fromIdx idx)

/-- The base register, or an error that names it and the offset. -/
def baseOf (idx : Nat) : Decoder Reg :=
  Cursor.ofOption (fun p => .parse ("x86: invalid base register " ++ toString idx ++ " in memory operand at offset " ++
    toString p)) (Reg.fromIdx idx)

def xmmOf (idx : Nat) (message : String) : Decoder XmmReg := Cursor.ofOption (fun _ => .parse message) (xmmFromIdx idx)

def readImmU8 : Decoder Byte := Cursor.next fun p => .parse ("x86: truncated imm8 at offset " ++ toString p)

def readImmI8 : Decoder Int := return (← readImmU8).toInt

/-- A number in its bytes, the lowest one first. -/
def ofLeBytes (bytes : List Byte) : Nat := bytes.foldr (fun b n => b.toNat + 256 * n) 0

def readImmI32 : Decoder Int :=
  return (BitVec.ofNat 32 (ofLeBytes (← Cursor.take 4 fun p =>
    .parse ("x86: truncated imm32 at offset " ++ toString p)))).toInt

/-- `read_imm64`, with the cursor moved past the bytes. -/
def readImm64 (len : Nat) : Decoder (BitVec 64) :=
  return BitVec.ofNat 64 (ofLeBytes (← Cursor.take len fun p =>
    .parse ("x86: truncated immediate at offset " ++ toString p)))

/-- The displacement that follows, by the mode. -/
def readDisp (mode : Nat) : Decoder Int :=
  if mode = 0b00 then return 0
  else if mode = 0b01 then readImmI8
  else if mode = 0b10 then readImmI32
  else parseError "x86: register operand has no memory form"

/-- The index of an `SIB` byte. The field `100` without an extension is none. -/
def sibIndex (sib : Nat) (rexX : Bool) : Decoder (Option (Reg × Nat)) :=
  if sib / 8 % 8 ≠ 4 ∨ rexX then
    return some (← regOf (extend (sib / 8 % 8) rexX) "x86: invalid index register in SIB", 2 ^ (sib / 64))
  else return none

def readMem (m : TypedModRm) (rexX rexB : Bool) : Decoder Mem := do
  if m.rm % 8 = 4 then
    let sib ← nextByte "x86: truncated SIB"
    let index ← sibIndex sib rexX
    if m.mode = 0b00 ∧ sib % 8 = 5 then
      return ⟨none, index, ← readImmI32⟩
    else
      let base ← baseOf (extend (sib % 8) rexB)
      return ⟨some base, index, ← readDisp m.mode⟩
  else if m.rm % 8 = 5 ∧ m.mode = 0b00 then
    return ⟨none, none, ← readImmI32⟩
  else
    let base ← baseOf m.rm
    return ⟨some base, none, ← readDisp m.mode⟩

/-- The operand of the `r/m` field, when its byte has been read. -/
def rmOperand (m : TypedModRm) (rexX rexB : Bool) (width : Width) (message : String) : Decoder X86Operand := do
  if m.mode = 0b11 then
    return .reg (← regOf m.rm message) width
  else
    return .mem (← readMem m rexX rexB) width

def readRmOperand (rex : Rex) (width : Width) : Decoder X86Operand := do
  rmOperand (← readModrm rex.r rex.b) rex.x rex.b width "x86: invalid register in rm operand"

end Csolver.X86
