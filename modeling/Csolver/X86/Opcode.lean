import Csolver.X86.Typed

/-!
# Opcodes of the typed decoder (`crates/asm/src/x86/opcode.rs`, `sse.rs`, `vex.rs`, `decode.rs`)

The families of opcodes that share a form are one definition each; `decodeTypedOpcode` and `decodeInstruction` choose
among them as the source does.
-/

namespace Csolver.X86

open Csolver.Lib (Cursor)

/-! ## Forms -/

/-- A register field and an `r/m` operand, the register looked up first. -/
def regAndRm (rex : Rex) (width : Width) (regMessage rmMessage : String) :
    Decoder (TypedModRm × Reg × X86Operand) := do
  let m ← readModrm rex.r rex.b
  let reg ← regOf m.reg regMessage
  return (m, reg, ← rmOperand m rex.x rex.b width rmMessage)

/-- The `r/m` field of a form that has to be a register. -/
def registerForm (rex : Rex) (memory : String) : Decoder TypedModRm := do
  let m ← readModrm rex.r rex.b
  if m.mode ≠ 0b11 then unsupported memory else return m

/-- The register `reg` of an opcode that has it in its low bits. -/
def opcodeReg (field : Nat) (rex : Rex) (message : String) : Decoder Reg := regOf (extend field rex.b) message

/-- `xor`, `add`, `sub`, `and` and `or` of an operand and a register. -/
def decodeAlu (op : Nat) (rex : Rex) (width : Width) : Decoder Instruction := do
  let (m, src, dst) ← regAndRm rex width "x86: invalid src register in ALU" "x86: invalid dst register in ALU"
  if op = 0x31 then
    -- the idiom for zero
    if m.mode = 0b11 ∧ m.rm = m.reg then return .binary .mov dst (.imm 0)
    else return .binary .xor dst (.reg src width)
  else
    return .binary (if op = 0x01 then .add else if op = 0x29 then .sub else if op = 0x21 then .and else .or) dst
      (.reg src width)

def decodeMovStore (rex : Rex) (width : Width) : Decoder Instruction := do
  let (_, src, dst) ← regAndRm rex width "x86: invalid src register in mov r/m,r" "x86: invalid dst register in mov r/m,r"
  return .binary .mov dst (.reg src width)

def decodeMovLoad (rex : Rex) (width : Width) : Decoder Instruction := do
  let (_, dst, src) ← regAndRm rex width "x86: invalid dst register in mov r,r/m" "x86: invalid src register in mov r,r/m"
  return .binary .mov (.reg dst width) src

def decodeLea (rex : Rex) (width : Width) : Decoder Instruction := do
  let m ← readModrm rex.r rex.b
  if m.mode = 0b11 then parseError "x86: lea requires a memory operand"
  else
    let dst ← regOf m.reg "x86: invalid dst register in lea"
    return .lea dst width (← readMem m rex.x rex.b)

/-- The operation of a `/digit` of group 1. -/
def group1Op (digit : Nat) : Option BinaryOp :=
  match digit with
  | 0 => some .add
  | 1 => some .or
  | 4 => some .and
  | 5 => some .sub
  | 6 => some .xor
  | 7 => some .cmp
  | _ => none

/-- Group 1. The `/digit` is taken from the byte `back` places before the cursor. -/
def decodeGroup1 (rex : Rex) (width : Width) (imm : Decoder (BitVec 64)) (back : Nat) (message : String) :
    Decoder Instruction := do
  let operand ← readRmOperand rex width
  let imm ← imm
  let byte ← Cursor.back back .outOfRange fun at' =>
    .parse ("x86: truncated ModR/M in group-1 at offset " ++ toString at')
  match group1Op (byte.toNat / 8 % 8) with
  | some op => return .binary op operand (.imm imm)
  | none => unsupported message

/-- The operation of a `/digit` of group 2. -/
def group2Op (digit : Nat) : Option ShiftOp :=
  match digit with
  | 0 => some .rol
  | 1 => some .ror
  | 2 => some .rcl
  | 3 => some .rcr
  | 4 => some .shl
  | 5 => some .shr
  | 7 => some .sar
  | _ => none

/-- Group 2, by an immediate or by one. -/
def decodeGroup2 (rex : Rex) (width : Width) (count : Decoder Byte) (back : Nat) (name : String) :
    Decoder Instruction := do
  let operand ← readRmOperand rex width
  let count ← count
  let byte ← Cursor.back back .outOfRange fun at' => .parse ("x86: truncated ModR/M at offset " ++ toString at')
  match group2Op (byte.toNat / 8 % 8) with
  | some op => return .shift op operand count
  | none => unsupported ("x86: unsupported " ++ name ++ " /digit " ++ toString (byte.toNat / 8 % 8))

/-- `code[p]`, after a test that it is there. -/
def peekModrm (message : String) : Decoder Nat := fun code p =>
  if code[p]?.isNone then .error (.parse message)
  else match code[p]? with
    | some b => .ok (b.toNat, p)
    | none => .error .outOfRange

def decodeGroup3 (isByte : Bool) (rex : Rex) (width : Width) : Decoder Instruction := do
  let peek ← peekModrm "x86: truncated ModR/M in group-3"
  if peek / 64 ≠ 0b11 then unsupported "x86: group-3 with a memory operand"
  else
    let o1 ← readRmOperand rex (if isByte then .b else width)
    let byte ← Cursor.back 1 .outOfRange fun _ => .parse "x86: truncated ModR/M in group-3"
    match byte.toNat / 8 % 8 with
    | 0 => return .binary .test o1 (.imm (← readImm64 (if isByte then 1 else if rex.w then 8 else 4)))
    | 2 => return .unary .not o1
    | 3 => return .unary .neg o1
    | 4 => return .unary .mul o1
    | 5 => return .unary .imul o1
    | 6 => return .unary .div o1
    | 7 => return .unary .idiv o1
    | digit => unsupported ("x86: unsupported group-3 /digit " ++ toString digit)

/-- Two registers, the one of the first field first. -/
def decodeRegReg (op : BinaryOp) (swap : Bool) (rex : Rex) (width : Width) (memory message : String) :
    Decoder Instruction := do
  let m ← registerForm rex memory
  let a ← regOf (if swap then m.reg else m.rm) message
  let b ← regOf (if swap then m.rm else m.reg) message
  return .binary op (.reg a width) (.reg b width)

def decodeGroup4 (rex : Rex) : Decoder Instruction := do
  let m ← registerForm rex "x86: inc/dec with a memory operand"
  let dst ← regOf m.rm "x86: invalid register in inc/dec"
  match m.reg % 8 with
  | 0 => return .unary .inc (.reg dst .b)
  | 1 => return .unary .dec (.reg dst .b)
  | digit => unsupported ("x86: unsupported group-4 /digit " ++ toString digit)

def decodeGroup5 (rex : Rex) (width : Width) : Decoder Instruction := do
  let m ← registerForm rex "x86: group-5 with a memory operand"
  let dst ← regOf m.rm "x86: invalid register in group-5"
  match m.reg % 8 with
  | 0 => return .unary .inc (.reg dst width)
  | 1 => return .unary .dec (.reg dst width)
  | 2 => return .unary .call (.reg dst width)
  | 4 => return .unary .jmp (.reg dst width)
  | digit => unsupported ("x86: unsupported group-5 /digit " ++ toString digit)

/-- The condition in the low bits of an opcode. -/
def condition (cc : Nat) (message : String) : Decoder Condition :=
  Cursor.ofOption (fun _ => .parse message) (Condition.fromCc cc)

def toU64 (i : Int) : BitVec 64 := BitVec.ofInt 64 i

/-! ## The SSE maps -/

/-- What an opcode of a map selects: the operands in the order of a load or of a store, an `imm8` that follows, and
the instruction for the mandatory prefix. -/
structure SseRow where
  name : String
  store : Bool
  select : Nat → Option (BinaryOp ⊕ BinaryImmOp)

def load (name : String) (select : Nat → Option BinaryOp) : SseRow := ⟨name, false, fun pp => (select pp).map .inl⟩

def packed (name : String) (ps pd : BinaryOp) : SseRow :=
  load name fun
    | 0 => some ps
    | 1 => some pd
    | _ => none

def all (name : String) (ps pd ss sd : BinaryOp) : SseRow :=
  load name fun
    | 0 => some ps
    | 1 => some pd
    | 2 => some ss
    | 3 => some sd
    | _ => none

/-- The rows of `decode_sse_0f_op`. The last five are for the prefix `66` only. -/
def sse0f (op pp : Nat) : Option SseRow :=
  match op with
  | 0x10 => some (all "dst XMM register in MOV*" .movups .movupd .movss .movsd)
  | 0x11 => some { all "src XMM register in MOV*" .movups .movupd .movss .movsd with store := true }
  | 0x28 => some (packed "dst XMM register in MOVAP*" .movaps .movapd)
  | 0x29 => some { packed "src XMM register in MOVAP*" .movaps .movapd with store := true }
  | 0x2e => some (packed "XMM register in UCOMIS*" .ucomiss .ucomisd)
  | 0x2f => some (packed "XMM register in COMIS*" .comiss .comisd)
  | 0x51 => some (all "XMM register in SQRT*" .sqrtps .sqrtpd .sqrtss .sqrtsd)
  | 0x54 => some (packed "XMM register in AND*" .andps .andpd)
  | 0x55 => some (packed "XMM register in ANDN*" .andnps .andnpd)
  | 0x56 => some (packed "XMM register in OR*" .orps .orpd)
  | 0x57 => some (packed "XMM register in XOR*" .xorps .xorpd)
  | 0x58 => some (all "XMM register in ADD*" .addps .addpd .addss .addsd)
  | 0x59 => some (all "XMM register in MUL*" .mulps .mulpd .mulss .mulsd)
  | 0x5b => some (load "XMM register in CVT*" fun
    | 0 => some .cvtdq2ps
    | 1 => some .cvtps2dq
    | 2 => some .cvttps2dq
    | _ => none)
  | 0x5c => some (all "XMM register in SUB*" .subps .subpd .subss .subsd)
  | 0x5d => some (all "XMM register in MIN*" .minps .minpd .minss .minsd)
  | 0x5e => some (all "XMM register in DIV*" .divps .divpd .divss .divsd)
  | 0x5f => some (all "XMM register in MAX*" .maxps .maxpd .maxss .maxsd)
  | 0x14 => some (packed "XMM register in UNPCKL*" .unpcklps .unpcklpd)
  | 0x15 => some (packed "XMM register in UNPCKH*" .unpckhps .unpckhpd)
  | 0xc2 => some ⟨"XMM register in CMP*", false, fun
    | 0 => some (.inr .cmpps)
    | 1 => some (.inr .cmppd)
    | 2 => some (.inr .cmpss)
    | 3 => some (.inr .cmpsd)
    | _ => none⟩
  | 0xc6 => some ⟨"XMM register in SHUF*", false, fun
    | 0 => some (.inr .shufps)
    | 1 => some (.inr .shufpd)
    | _ => none⟩
  | 0xd4 => if pp = 1 then some (load "XMM register in PADDQ" fun _ => some .paddq) else none
  | 0xdb => if pp = 1 then some (load "XMM register in PAND" fun _ => some .pand) else none
  | 0xeb => if pp = 1 then some (load "XMM register in POR" fun _ => some .por) else none
  | 0xef => if pp = 1 then some (load "XMM register in PXOR" fun _ => some .pxor) else none
  | 0xfb => if pp = 1 then some (load "XMM register in PSUBQ" fun _ => some .psubq) else none
  | _ => none

def readXmmRmOperand (rex : Rex) : Decoder (X86Operand × TypedModRm) := do
  let m ← readModrm rex.r rex.b
  if m.mode = 0b11 then
    return (.xmm (← xmmOf m.rm ("x86: invalid XMM register " ++ toString m.rm ++ " in SSE operand")) .dq, m)
  else
    return (.mem (← readMem m rex.x rex.b) .dq, m)

/-- The two operands of a row, the destination first. -/
def sseOperands (rex : Rex) (name : String) (store : Bool) : Decoder (X86Operand × X86Operand) := do
  let (rm, m) ← readXmmRmOperand rex
  let reg ← xmmOf m.reg ("x86: invalid " ++ name)
  return if store then (rm, .xmm reg .dq) else (.xmm reg .dq, rm)

def readImm8 (message : String) : Decoder Byte := Cursor.next fun _ => .parse message

/-- The message for an `imm8` that is missing. -/
def truncatedImm (op : Nat) : String :=
  if op = 0xc2 then "x86: truncated CMP immediate" else "x86: truncated SHUF immediate"

/-- `decode_sse_0f_op`. The `imm8` of `cmp` and `shuf` is read before the prefix is looked at. -/
def decodeSse0fOp (op pp : Nat) (rex : Rex) : Decoder Instruction := do
  match sse0f op pp with
  | none => unsupported ("x86: unsupported VEX.128 opcode 0f " ++ hex op)
  | some row =>
    let (dst, src) ← sseOperands rex row.name row.store
    if op = 0xc2 ∨ op = 0xc6 then
      let imm ← readImm8 (truncatedImm op)
      match row.select pp with
      | some (.inr inst) => return .binaryImm inst dst src imm
      | _ => unsupported ("x86: unsupported VEX.pp for 0F " ++ (hex op).toUpper)
    else
      match row.select pp with
      | some (.inl inst) => return .binary inst dst src
      | _ => unsupported ("x86: unsupported VEX.pp for 0F " ++ (hex op).toUpper)

/-! ## VEX -/

structure VexInfo where
  vvvv : Nat
  l : Bool
  pp : Nat
  mmmmm : Nat
  w : Bool
  rexR : Bool
  rexX : Bool
  rexB : Bool

def VexInfo.rex (vex : VexInfo) : Rex := ⟨vex.w, vex.rexR, vex.rexX, vex.rexB⟩

/-- Bit `i` of a byte. -/
def bit (byte i : Nat) : Bool := decide (byte / 2 ^ i % 2 = 1)

/-- `parse_vex`, after the lead byte. The fields `R`, `X`, `B` and `vvvv` are stored inverted. -/
def parseVex (isTwoByte : Bool) : Decoder VexInfo := do
  if isTwoByte then
    let b := (← Cursor.next fun _ => .parse "x86: truncated 2-byte VEX prefix (C5)").toNat
    return ⟨15 - b / 8 % 16, bit b 2, b % 4, 1, false, !bit b 7, false, false⟩
  else
    let b₁ := (← Cursor.next fun _ => .parse "x86: truncated 3-byte VEX prefix (C4 byte 1)").toNat
    let b₂ := (← Cursor.next fun _ => .parse "x86: truncated 3-byte VEX prefix (C4 byte 2)").toNat
    let mmmmm := b₁ % 32
    if mmmmm = 0 ∨ mmmmm > 3 then unsupported ("x86: unsupported VEX.mmmmm " ++ toString mmmmm)
    else return ⟨15 - b₂ / 8 % 16, bit b₂ 2, b₂ % 4, mmmmm, bit b₂ 7, !bit b₁ 7, !bit b₁ 6, !bit b₁ 5⟩

def decodeVex0f (vex : VexInfo) : Decoder Instruction := do
  decodeSse0fOp (← nextByte "x86: truncated VEX opcode") vex.pp vex.rex

/-- The rows of `decode_vex_0f38`. -/
def vex0f38 (op : Nat) : Option (String × BinaryOp) :=
  match op with
  | 0x00 => some ("PSHUFB", .pshufb)
  | 0x01 => some ("PHADDW", .phaddw)
  | 0x02 => some ("PHADDD", .phaddd)
  | 0x03 => some ("PHADDSW", .phaddsw)
  | 0x1c => some ("PABSB", .pabsb)
  | 0x1d => some ("PABSW", .pabsw)
  | 0x1e => some ("PABSD", .pabsd)
  | 0x20 => some ("PMOVSXBW", .pmovsxbw)
  | 0x21 => some ("PMOVSXBD", .pmovsxbd)
  | 0x22 => some ("PMOVSXBQ", .pmovsxbq)
  | 0x23 => some ("PMOVSXWD", .pmovsxwd)
  | 0x24 => some ("PMOVSXWQ", .pmovsxwq)
  | 0x25 => some ("PMOVSXDQ", .pmovsxdq)
  | 0x28 => some ("PMULDQ", .pmuldq)
  | 0x29 => some ("PCMPEQQ", .pcmpeqq)
  | 0x30 => some ("PMOVZXBW", .pmovzxbw)
  | 0x31 => some ("PMOVZXBD", .pmovzxbd)
  | 0x32 => some ("PMOVZXBQ", .pmovzxbq)
  | 0x33 => some ("PMOVZXWD", .pmovzxwd)
  | 0x34 => some ("PMOVZXWQ", .pmovzxwq)
  | 0x35 => some ("PMOVZXDQ", .pmovzxdq)
  | 0x37 => some ("PCMPGTQ", .pcmpgtq)
  | 0x38 => some ("PMINSB", .pminsb)
  | 0x39 => some ("PMINSD", .pminsd)
  | 0x3a => some ("PMINUW", .pminuw)
  | 0x3b => some ("PMINUD", .pminud)
  | 0x3c => some ("PMAXSB", .pmaxsb)
  | 0x3d => some ("PMAXSD", .pmaxsd)
  | 0x3e => some ("PMAXUW", .pmaxuw)
  | 0x3f => some ("PMAXUD", .pmaxud)
  | 0x40 => some ("PMULLD", .pmulld)
  | 0x41 => some ("PHMINPOSUW", .phminposuw)
  | _ => none

def decodeVex0f38 (vex : VexInfo) : Decoder Instruction := do
  let op ← nextByte "x86: truncated VEX 0F38 opcode"
  match if vex.pp = 1 then vex0f38 op else none with
  | none => unsupported ("x86: unsupported VEX.128 0F38 opcode " ++ hex op ++ " pp=" ++ toString vex.pp)
  | some (name, inst) =>
    let (dst, src) ← sseOperands vex.rex ("XMM register in " ++ name) false
    return .binary inst dst src

/-- The rows of `decode_vex_0f3a` with two XMM operands. -/
def vex0f3a (op : Nat) : Option (String × BinaryImmOp) :=
  match op with
  | 0x08 => some ("ROUNDPS", .roundps)
  | 0x09 => some ("ROUNDPD", .roundpd)
  | 0x0a => some ("ROUNDSS", .roundss)
  | 0x0b => some ("ROUNDSD", .roundsd)
  | 0x0f => some ("PALIGNR", .palignr)
  | _ => none

/-- The operands of `pextr` and `pinsr`: the `r/m` operand is a general register or memory. Its bits are those that
the source passes. -/
def gprAndXmm (vex : VexInfo) (width : Width) (name : String) : Decoder (X86Operand × XmmReg) := do
  let m ← readModrm vex.rexR false
  let rm ← rmOperand m false vex.rexX width ("x86: invalid GPR in " ++ name)
  return (rm, ← xmmOf m.reg ("x86: invalid XMM register in " ++ name))

/-- `pextr` stores the XMM operand into the other one, `pinsr` goes the other way. -/
def decodeGprXmm (vex : VexInfo) (width : Width) (name : String) (extract : Bool) (op : BinaryImmOp) :
    Decoder Instruction := do
  let (rm, reg) ← gprAndXmm vex width name
  let imm ← readImm8 "x86: truncated 0F3A immediate"
  return if extract then .binaryImm op rm (.xmm reg .dq) imm else .binaryImm op (.xmm reg .dq) rm imm

def decodeVex0f3a (vex : VexInfo) : Decoder Instruction := do
  let op ← nextByte "x86: truncated VEX 0F3A opcode"
  let width := if vex.w then .q else .d
  if vex.pp ≠ 1 then unsupported ("x86: unsupported VEX.128 0F3A opcode " ++ hex op ++ " pp=" ++ toString vex.pp)
  else match op with
    | 0x14 => decodeGprXmm vex .b "PEXTRB" true .pextrb
    | 0x16 => decodeGprXmm vex width "PEXTR*" true (if vex.w then .pextrq else .pextrd)
    | 0x20 => decodeGprXmm vex .b "PINSRB" false .pinsrb
    | 0x22 => decodeGprXmm vex width "PINSR*" false (if vex.w then .pinsrq else .pinsrd)
    | op =>
      match vex0f3a op with
      | none => unsupported ("x86: unsupported VEX.128 0F3A opcode " ++ hex op ++ " pp=" ++ toString vex.pp)
      | some (name, inst) =>
        let (dst, src) ← sseOperands vex.rex ("XMM register in " ++ name) false
        return .binaryImm inst dst src (← readImm8 "x86: truncated 0F3A immediate")

/-! ## The opcodes -/

def plainOpcode (op : Nat) (width : Width) : Option Instruction :=
  match op with
  | 0x90 => some (.plain .nop)
  | 0xc3 => some (.plain .ret)
  | 0x98 => some (.plain .cdqe)
  | 0x99 => some (.plain .cqo)
  | 0xa4 => some (.string .movs .b)
  | 0xa5 => some (.string .movs width)
  | 0xa6 => some (.string .cmps .b)
  | 0xa7 => some (.string .cmps width)
  | 0xaa => some (.string .stos .b)
  | 0xab => some (.string .stos width)
  | 0xac => some (.string .lods .b)
  | 0xad => some (.string .lods width)
  | 0xae => some (.string .scas .b)
  | 0xaf => some (.string .scas width)
  | 0xcc => some (.plain .int3)
  | 0x9f => some (.plain .lahf)
  | 0x9e => some (.plain .sahf)
  | 0x9c => some (.plain .pushf)
  | 0x9d => some (.plain .popf)
  | 0xf8 => some (.plain .clc)
  | 0xf9 => some (.plain .stc)
  | 0xf5 => some (.plain .cmc)
  | 0xfc => some (.plain .cld)
  | 0xfd => some (.plain .std)
  | _ => none

def decodeCmovcc (cc : Nat) (rex : Rex) (width : Width) : Decoder Instruction := do
  let cc ← condition cc "x86: invalid condition code in cmovcc"
  let (_, dst, src) ← regAndRm rex width "x86: invalid register in cmovcc" "x86: invalid register in cmovcc"
  return .cmovcc cc (.reg dst width) src

def decodeSetcc (cc : Nat) (rex : Rex) : Decoder Instruction := do
  let cc ← condition cc "x86: invalid condition code in setcc"
  let m ← readModrm rex.r rex.b
  return .setcc cc (← rmOperand m rex.x rex.b .b "x86: invalid register in setcc")

/-- The multi-byte `nop`. -/
def decodeNop (rex : Rex) : Decoder Instruction := do
  let m ← readModrm rex.r rex.b
  if m.mode = 0b11 then return .plain .nop
  else
    let _ ← readMem m rex.x rex.b
    return .plain .nop

/-- `bt`, `bts`, `btr` and `btc`. -/
def decodeBitTest (op : BinaryOp) (rex : Rex) (width : Width) (message : String) : Decoder Instruction := do
  let (_, bitIndex, base) ← regAndRm rex width message message
  return .binary op base (.reg bitIndex width)

/-- `movzx` and `movsx`, `bsf` and `bsr`. -/
def decodeWiden (op : BinaryOp) (rex : Rex) (dstWidth srcWidth : Width) (name : String) : Decoder Instruction := do
  let m ← readModrm rex.r rex.b
  let dst ← regOf m.reg ("x86: invalid dst register " ++ toString m.reg ++ " in " ++ name)
  let src ← rmOperand m rex.x rex.b srcWidth ("x86: invalid src register " ++ toString m.rm ++ " in " ++ name)
  return .binary op (.reg dst dstWidth) src

/-- The map `0F`. -/
def decode0f (rex : Rex) (width : Width) (ssePp : Nat) : Decoder Instruction := do
  let op2 ← nextByte "x86: truncated 0F opcode"
  if op2 = 0x05 then return .plain .syscall
  else if 0x40 ≤ op2 ∧ op2 ≤ 0x4f then decodeCmovcc (op2 - 0x40) rex width
  else if 0x80 ≤ op2 ∧ op2 ≤ 0x8f then
    let rel ← readImmI32
    return .jcc (← condition (op2 - 0x80) "x86: invalid condition code") rel
  else if 0x90 ≤ op2 ∧ op2 ≤ 0x9f then decodeSetcc (op2 - 0x90) rex
  else if op2 = 0x1f then decodeNop rex
  else if op2 = 0xa3 then decodeBitTest .bt rex width "x86: invalid register in bt"
  else if op2 = 0xab then decodeBitTest .bts rex width "x86: invalid register in bts"
  else if op2 = 0xb3 then decodeBitTest .btr rex width "x86: invalid register in btr"
  else if op2 = 0xbb then decodeBitTest .btc rex width "x86: invalid register in btc"
  else if op2 = 0xbc then decodeWiden .bsf rex width width "bsf/bsr"
  else if op2 = 0xbd then decodeWiden .bsr rex width width "bsf/bsr"
  else if op2 = 0xb6 then decodeWiden .movzx rex width .b "movzx"
  else if op2 = 0xb7 then decodeWiden .movzx rex width .w "movzx"
  else if op2 = 0xbe then decodeWiden .movsx rex width .b "movsx"
  else if op2 = 0xbf then decodeWiden .movsx rex width .w "movsx"
  else if (sse0f op2 1).isSome then decodeSse0fOp op2 ssePp rex
  else unsupported ("x86: unsupported two-byte opcode 0f 0x" ++ hex op2)

/-- `movsxd`, from 32 to 64 bits. -/
def decodeMovsxd (rex : Rex) : Decoder Instruction := do
  let (_, dst, src) ← regAndRm rex .d "x86: invalid register in movsxd" "x86: invalid register in movsxd"
  return .binary .movsxd (.reg dst .q) src

def decodeMovImm8 (rex : Rex) : Decoder Instruction := do
  let operand ← readRmOperand rex .b
  return .binary .mov operand (.imm ((← readImmU8).setWidth 64))

/-- The immediate is extended with its sign when the operand is wider. -/
def decodeMovImm32 (rex : Rex) (width : Width) : Decoder Instruction := do
  let operand ← readRmOperand rex width
  let imm ← readImm64 4
  return .binary .mov operand (.imm (if width.bits > 32 then (imm.setWidth 32).signExtend 64 else imm))

def immU8 : Decoder (BitVec 64) := return (← readImmU8).setWidth 64

def immI8 : Decoder (BitVec 64) := return (← readImmU8).signExtend 64

def immI32 : Decoder (BitVec 64) := return toU64 (← readImmI32)

def decodeTypedOpcode (op : Nat) (rex : Rex) (width : Width) (ssePp : Nat) : Decoder Instruction := do
  match plainOpcode op width with
  | some inst => return inst
  | none =>
  if 0xb8 ≤ op ∧ op ≤ 0xbf then
    let r ← opcodeReg (op - 0xb8) rex "x86: invalid register encoding in mov reg,imm"
    return .binary .mov (.reg r width) (.imm (← readImm64 (if rex.w then 8 else 4)))
  else if op = 0x31 ∨ op = 0x01 ∨ op = 0x29 ∨ op = 0x21 ∨ op = 0x09 then decodeAlu op rex width
  else if op = 0x89 then decodeMovStore rex width
  else if op = 0x8b then decodeMovLoad rex width
  else if op = 0x8d then decodeLea rex width
  else if op = 0x80 then
    decodeGroup1 rex .b immU8 2 "x86: unsupported group-1 operation with imm8 (0x80)"
  else if op = 0x81 then decodeGroup1 rex width immI32 5 "x86: unsupported group-1 operation with imm32"
  else if op = 0x82 ∨ op = 0x83 then decodeGroup1 rex width immI8 2 "x86: unsupported group-1 operation with imm8"
  else if op = 0x39 then
    decodeRegReg .cmp false rex width "x86: cmp with a memory operand" "x86: invalid register in cmp"
  else if op = 0x3b then
    decodeRegReg .cmp true rex width "x86: cmp with a memory operand" "x86: invalid register in cmp"
  else if op = 0x3d then return .binary .cmp (.reg .rax width) (.imm (← readImm64 4))
  else if op = 0x85 then
    decodeRegReg .test false rex width "x86: test with a memory operand" "x86: invalid register in test"
  else if op = 0xeb then return .unary .jmp (.rel (← readImmI8))
  else if op = 0xe9 then return .unary .jmp (.rel (← readImmI32))
  else if 0x70 ≤ op ∧ op ≤ 0x7f then
    let rel ← readImmI8
    return .jcc (← condition (op - 0x70) "x86: invalid condition code") rel
  else if 0x50 ≤ op ∧ op ≤ 0x57 then
    return .unary .push (.reg (← opcodeReg (op - 0x50) rex "x86: invalid register in push") width)
  else if 0x58 ≤ op ∧ op ≤ 0x5f then
    return .unary .pop (.reg (← opcodeReg (op - 0x58) rex "x86: invalid register in pop") width)
  else if op = 0x68 then return .unary .push (.imm (← immI32))
  else if op = 0x6a then return .unary .push (.imm (← immI8))
  else if op = 0x87 then
    decodeRegReg .xchg false rex width "x86: xchg with a memory operand" "x86: invalid register in xchg"
  else if 0x91 ≤ op ∧ op ≤ 0x97 then
    return .binary .xchg (.reg .rax width)
      (.reg (← opcodeReg (op - 0x91) rex "x86: invalid register in xchg") width)
  else if op = 0x63 then decodeMovsxd rex
  else if op = 0xe8 then return .unary .call (.rel (← readImmI32))
  else if op = 0xfe then decodeGroup4 rex
  else if op = 0xff then decodeGroup5 rex width
  else if op = 0xc6 then decodeMovImm8 rex
  else if op = 0xc7 then decodeMovImm32 rex width
  else if op = 0xc0 ∨ op = 0xc1 then
    decodeGroup2 rex (if op = 0xc0 then .b else width) readImmU8 2 "group-2"
  else if op = 0xd0 ∨ op = 0xd1 then
    decodeGroup2 rex (if op = 0xd0 then .b else width) (return 1) 1 "group-2 shift-1"
  else if op = 0xf6 ∨ op = 0xf7 then decodeGroup3 (decide (op = 0xf6)) rex width
  else if op = 0x0f then decode0f rex width ssePp
  else unsupported ("x86: unsupported opcode 0x" ++ hex op)

/-! ## Prefixes -/

/-- What the prefixes say. -/
structure PrefixState where
  rex : Rex
  opSize : Bool
  addrSize : Bool
  ssePp : Nat
  deriving DecidableEq

def PrefixState.none : PrefixState := ⟨⟨false, false, false, false⟩, false, false, 0⟩

/-- The state after a byte, if it is a prefix. -/
def PrefixState.step (s : PrefixState) (b : Nat) : Option PrefixState :=
  if 0x40 ≤ b ∧ b ≤ 0x4f then some { s with rex := ⟨bit b 3, bit b 2, bit b 1, bit b 0⟩ }
  else if b = 0x66 then some { s with opSize := true, ssePp := 1 }
  else if b = 0x67 then some { s with addrSize := true }
  else if b = 0xf0 then some s
  else if b = 0xf2 then some { s with ssePp := 3 }
  else if b = 0xf3 then some { s with ssePp := 2 }
  else if b = 0x26 ∨ b = 0x2e ∨ b = 0x36 ∨ b = 0x3e ∨ b = 0x64 ∨ b = 0x65 then some s
  else Option.none

/-- `parse_prefixes`, from the bytes at the cursor. -/
def parsePrefixes (s : PrefixState) (p : Nat) : List Byte → PrefixState × Nat
  | [] => (s, p)
  | b :: rest =>
    match s.step b.toNat with
    | some s => parsePrefixes s (p + 1) rest
    | Option.none => (s, p)

structure DecodedInstruction where
  offset : Nat
  length : Nat
  prefixes : Prefixes
  instruction : Instruction

/-- A VEX instruction after its lead byte. -/
def decodeVex (isTwoByte : Bool) : Decoder (VexInfo × Instruction) := do
  let vex ← parseVex isTwoByte
  if vex.mmmmm = 1 then return (vex, ← decodeVex0f vex)
  else if vex.mmmmm = 2 then return (vex, ← decodeVex0f38 vex)
  else if vex.mmmmm = 3 then return (vex, ← decodeVex0f3a vex)
  else unsupported ("x86: unsupported VEX map " ++ toString vex.mmmmm)

/-- What follows the prefixes and the byte `op`: a VEX instruction, or an opcode. -/
def decodeBody (s : PrefixState) (op : Nat) : Decoder (Prefixes × Instruction) :=
  if op = 0xc5 ∨ op = 0xc4 then do
    let (vex, inst) ← decodeVex (decide (op = 0xc5))
    return (⟨false, vex.w, vex.rexR, vex.rexX, vex.rexB, s.opSize, s.addrSize⟩, inst)
  else do
    let inst ← decodeTypedOpcode op s.rex (Width.fromRexW s.rex.w) s.ssePp
    return (⟨s.rex.w || s.rex.r || s.rex.x || s.rex.b, s.rex.w, s.rex.r, s.rex.x, s.rex.b, s.opSize, s.addrSize⟩, inst)

def decodeInstruction (code : List Byte) (offset : Nat) : Except DecodeError DecodedInstruction :=
  let (s, p) := parsePrefixes .none offset (code.drop offset)
  match code[p]? with
  | none => .error (.parse ("x86: truncated opcode at offset " ++ toString p))
  | some op => ((decodeBody s op.toNat).run code (p + 1)).map fun ((prefixes, inst), next) =>
      ⟨offset, next - offset, prefixes, inst⟩

end Csolver.X86
