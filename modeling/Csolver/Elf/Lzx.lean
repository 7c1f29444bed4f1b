import Mathlib.Algebra.Order.Ring.Int
import Csolver.Elf.E8
import Csolver.Elf.BitReader
import Csolver.Lib.Simulation

/-!
# The LZX decompressor (`crates/elf/src/lzx.rs`)

The decoder is written over any source of bits and bytes, so that it can be run on the reader of the code and on one
that is nothing but a position. Two sources differ in how they pass from bits to bytes and back.
-/

namespace Csolver.Elf

namespace Lzx

/-- What the decoder asks of its input. -/
structure Source (σ : Type) where
  readBit : σ → Option (Bool × σ)
  /-- Before the bytes of an uncompressed block. -/
  align : σ → σ
  readByte : σ → Option (Byte × σ)
  readU32 : σ → Option (Nat × σ)
  /-- After them. -/
  endRaw : σ → σ

inductive LzxError where
  | bitUnderrun
  | underrun
  | badCode
  | overLong
  | badPretree
  | blockType
  | panic
  | outOfFuel
deriving DecidableEq, Repr

def LzxError.message : LzxError → String
  | bitUnderrun => "LZX: bitstream underrun"
  | underrun => "LZX: underrun"
  | badCode => "LZX: bad Huffman code"
  | overLong => "LZX: over-long Huffman code"
  | badPretree => "LZX: bad pretree symbol"
  | blockType => "LZX: invalid block type"
  | panic | outOfFuel => ""

def ofHuffError : HuffError → LzxError
  | .underrun => .bitUnderrun
  | .badCode => .badCode
  | .overLong => .overLong

abbrev LzxM (σ : Type) := StateT σ (Except LzxError)

def chunk : Nat := 32768

def numChars : Nat := 256

def minMatch : Nat := 2

def numPrimaryLengths : Nat := 7

def numSecondaryLengths : Nat := 249

def mainElements : Nat := numChars + 30 * 8

def positionBase : List Nat :=
  [0, 1, 2, 3, 4, 6, 8, 12, 16, 24, 32, 48, 64, 96, 128, 192, 256, 384, 512, 768, 1024, 1536,
    2048, 3072, 4096, 6144, 8192, 12288, 16384, 24576, 32768, 49152, 65536, 98304, 131072, 196608,
    262144, 393216, 524288, 655360, 786432, 917504, 1048576, 1179648, 1310720, 1441792, 1572864,
    1703936, 1835008, 1966080, 2097152]

def extraBits : List Nat :=
  [0, 0, 0, 0, 1, 1, 2, 2, 3, 3, 4, 4, 5, 5, 6, 6, 7, 7, 8, 8, 9, 9, 10, 10, 11, 11, 12, 12, 13,
    13, 14, 14, 15, 15, 16, 16, 17, 17, 17, 17, 17, 17, 17, 17, 17, 17, 17, 17, 17, 17, 17]

/-- The output so far, and the repeated offsets. -/
structure Window where
  out : List Byte
  r0 : Nat
  r1 : Nat
  r2 : Nat

/-- What lasts from block to block. -/
structure LzxState where
  window : Window
  mainLens : List Nat
  lenLens : List Nat

section Decoder

variable {σ : Type} (S : Source σ)

def readBitM : LzxM σ Bool := Lib.ofRead S.readBit .bitUnderrun

/-- `read_bits`, from the bits that were read before. -/
def readBitsFrom (v : Nat) : Nat → LzxM σ Nat
  | 0 => pure v
  | n + 1 => do
    let b ← readBitM S
    readBitsFrom ((2 * v + b.toNat) % 2 ^ 32) n

def readBits (n : Nat) : LzxM σ Nat := readBitsFrom S 0 n

def readByteM : LzxM σ Byte := Lib.ofRead S.readByte .underrun

def readU32M : LzxM σ Nat := Lib.ofRead S.readU32 .underrun

def decodeM (h : Huff) : LzxM σ Nat := fun s =>
  match h.decodeWith S.readBit s with
  | .ok r => .ok r
  | .error e => .error (ofHuffError e)

def buildM (lengths : List Nat) : LzxM σ Huff :=
  match Huff.build 17 lengths with
  | some h => pure h
  | none => throw .panic

def readMany (bits : Nat) : Nat → LzxM σ (List Nat)
  | 0 => pure []
  | n + 1 => do
    let x ← readBits S bits
    let xs ← readMany bits n
    return x :: xs

/-- A run of one length, cut at the end. -/
def setRun (v : Nat) : Nat → Nat → List Nat → Nat × List Nat
  | 0, i, lengths => (i, lengths)
  | run + 1, i, lengths => if i < lengths.length then setRun v run (i + 1) (lengths.set i v) else (i, lengths)

def deltaLength (prev sym : Nat) : Nat := ((((prev : Int) - sym).tmod 17 + 17).tmod 17).toNat

/-- The loop of `read_lengths`; every turn sets a length. -/
def lengthsLoop (pretree : Huff) : Nat → Nat → List Nat → LzxM σ (List Nat)
  | fuel, i, lengths =>
    if lengths.length ≤ i then pure lengths
    else match fuel with
      | 0 => throw .outOfFuel
      | fuel + 1 => do
        let sym ← decodeM S pretree
        if sym ≤ 16 then lengthsLoop pretree fuel (i + 1) (lengths.set i (deltaLength (lengths.getD i 0) sym))
        else if sym = 17 then do
          let run := (← readBits S 4) + 4
          let (i, lengths) := setRun 0 run i lengths
          lengthsLoop pretree fuel i lengths
        else if sym = 18 then do
          let run := (← readBits S 5) + 20
          let (i, lengths) := setRun 0 run i lengths
          lengthsLoop pretree fuel i lengths
        else if sym = 19 then do
          let run := (← readBits S 1) + 4
          let sym2 ← decodeM S pretree
          let (i, lengths) := setRun (deltaLength (lengths.getD i 0) sym2) run i lengths
          lengthsLoop pretree fuel i lengths
        else throw .badPretree

def readLengths (lengths : List Nat) : LzxM σ (List Nat) := do
  let pre ← readMany S 4 20
  let pretree ← buildM pre
  lengthsLoop S pretree lengths.length 0 lengths

/-- The bytes of a match with a bad offset. -/
def copyZeros (stop : Nat) : Nat → List Byte → List Byte
  | 0, out => out
  | len + 1, out => if stop ≤ out.length then out else copyZeros stop len (out ++ [0])

/-- The bytes of a match, which it may itself have written. -/
def copyFrom (stop : Nat) : Nat → Nat → List Byte → List Byte
  | _, 0, out => out
  | src, len + 1, out => if stop ≤ out.length then out else copyFrom stop (src + 1) len (out ++ [out.getD src 0])

def copyMatch (offset len stop : Nat) (out : List Byte) : List Byte :=
  if offset = 0 ∨ out.length < offset then copyZeros stop len out else copyFrom stop (out.length - offset) len out

/-- The bits that follow a position slot. -/
def readVerbatim (aligned : Option Huff) (eb : Nat) : LzxM σ Nat :=
  match aligned with
  | some h =>
    if 3 ≤ eb then do
      let hi ← readBits S (eb - 3)
      let lo ← decodeM S h
      return hi <<< 3 ||| lo
    else readBits S eb
  | none => readBits S eb

/-- The offset of a match, and the window with its repeated offsets. -/
def matchOffset (aligned : Option Huff) (slot : Nat) (w : Window) : LzxM σ (Nat × Window) :=
  if slot = 0 then pure (w.r0, w)
  else if slot = 1 then pure (w.r1, { w with r0 := w.r1, r1 := w.r0 })
  else if slot = 2 then pure (w.r2, { w with r0 := w.r2, r2 := w.r0 })
  else match extraBits[slot]?, positionBase[slot]? with
    | some eb, some base => do
      let verbatim ← readVerbatim S aligned eb
      -- `wrapping_add` and `wrapping_sub`
      let new := (base + verbatim + (2 ^ 32 - minMatch)) % 2 ^ 32
      return (new, { w with r0 := new, r1 := w.r0, r2 := w.r1 })
    | _, _ => throw .panic

def matchLength (length : Huff) (lenHeader : Nat) : LzxM σ Nat :=
  if lenHeader = numPrimaryLengths then do
    let more ← decodeM S length
    return lenHeader + minMatch + more
  else pure (lenHeader + minMatch)

def decodeMatch (length : Huff) (aligned : Option Huff) (stop lenHeader slot : Nat) (w : Window) : LzxM σ Window := do
  let matchLen ← matchLength S length lenHeader
  let (offset, w) ← matchOffset S aligned slot w
  return { w with out := copyMatch offset matchLen stop w.out }

/-- One symbol of the main tree, and what follows it. -/
def decodeSymbol (main length : Huff) (aligned : Option Huff) (stop : Nat) (w : Window) : LzxM σ Window := do
  let sym ← decodeM S main
  if sym < numChars then return { w with out := w.out ++ [BitVec.ofNat 8 sym] }
  else decodeMatch S length aligned stop ((sym - numChars) % 8) ((sym - numChars) / 8) w

/-- The symbols of a block; every one of them writes a byte. -/
def symbolsLoop (main length : Huff) (aligned : Option Huff) (stop : Nat) : Nat → Window → LzxM σ Window
  | fuel, w =>
    if stop ≤ w.out.length then pure w
    else match fuel with
      | 0 => throw .outOfFuel
      | fuel + 1 => do symbolsLoop main length aligned stop fuel (← decodeSymbol S main length aligned stop w)

def rawBytes : Nat → List Byte → LzxM σ (List Byte)
  | 0, out => pure out
  | n + 1, out => do rawBytes n (out ++ [← readByteM S])

/-- The type and the size of a block. -/
def blockHeader : LzxM σ (Nat × Nat) := do
  let blockType ← readBits S 3
  let flag ← readBits S 1
  let size ← (if flag = 1 then pure chunk else readBits S 16)
  return (blockType, size)

/-- The tree of the low bits of the offsets. -/
def alignedTree (isAligned : Bool) : LzxM σ (Option Huff) :=
  if isAligned then do
    let lengths ← readMany S 3 8
    let h ← buildM lengths
    return some h
  else pure none

def compressedBlock (isAligned : Bool) (stop : Nat) (st : LzxState) : LzxM σ LzxState := do
  let aligned ← alignedTree S isAligned
  let chars ← readLengths S (st.mainLens.take numChars)
  let headers ← readLengths S (st.mainLens.drop numChars)
  let main ← buildM (chars ++ headers)
  let lenLens ← readLengths S st.lenLens
  let length ← buildM lenLens
  let window ← symbolsLoop S main length aligned stop (stop - st.window.out.length) st.window
  return { window := window, mainLens := chars ++ headers, lenLens := lenLens }

def alignM : LzxM σ Unit := fun s => .ok ((), S.align s)

def endRawM : LzxM σ Unit := fun s => .ok ((), S.endRaw s)

/-- The aligned part of an uncompressed block: the repeated offsets and the raw bytes. -/
def rawBody (stop : Nat) (st : LzxState) : LzxM σ LzxState := do
  let r0 ← readU32M S
  let r1 ← readU32M S
  let r2 ← readU32M S
  let out ← rawBytes S (stop - st.window.out.length) st.window.out
  return { st with window := ⟨out, r0, r1, r2⟩ }

def uncompressedBlock (stop : Nat) (st : LzxState) : LzxM σ LzxState := do
  alignM S
  let st ← rawBody S stop st
  endRawM S
  return st

/-- The end of a block in the output. -/
def blockEnd (outSize size : Nat) (st : LzxState) : Nat := min (st.window.out.length + size) outSize

def blockBody (outSize : Nat) (header : Nat × Nat) (st : LzxState) : LzxM σ LzxState :=
  let stop := blockEnd outSize header.2 st
  if header.1 = 1 then compressedBlock S false stop st
  else if header.1 = 2 then compressedBlock S true stop st
  else if header.1 = 3 then uncompressedBlock S stop st
  else throw .blockType

/-- One turn of the loop of `decompress`. -/
def blockStep (outSize : Nat) (st : LzxState) : LzxM σ LzxState := do
  let header ← blockHeader S
  blockBody S outSize header st

def blocks (outSize : Nat) : Nat → LzxState → LzxM σ LzxState
  | fuel, st =>
    if outSize ≤ st.window.out.length then pure st
    else match fuel with
      | 0 => throw .outOfFuel
      | fuel + 1 => do blocks outSize fuel (← blockStep S outSize st)

/-- The state before the first block. -/
def start : LzxState := ⟨⟨[], 1, 1, 1⟩, List.replicate mainElements 0, List.replicate numSecondaryLengths 0⟩

/-- `decompress`, on any source. -/
def decompressWith (fuel : Nat) (s : σ) (outSize : Nat) : Except LzxError (List Byte) :=
  match blocks S outSize fuel start s with
  | .ok (st, _) => .ok (undoE8 (st.window.out.take outSize))
  | .error e => .error e

end Decoder

/-! ## The reader of the code -/

def alignTo16 (r : BitReader) : BitReader where
  data := r.data
  pos := r.pos
  bitbuf := 0
  bitcount := 0
  le := BitReader.le_of_empty
  low := BitReader.low_of_empty

/-- The reader so many bytes further. -/
def advance (n : Nat) (r : BitReader) : BitReader := { r with pos := r.pos + n }

def readByteAligned (r : BitReader) : Option (Byte × BitReader) :=
  (r.data[r.pos]?).map fun b => (b, advance 1 r)

def u32At (data : List Byte) (pos : Nat) : Option Nat :=
  if pos + 4 ≤ data.length then
    some (u32OfLeBytes (data.getD pos 0) (data.getD (pos + 1) 0) (data.getD (pos + 2) 0) (data.getD (pos + 3) 0))
  else none

def readU32Aligned (r : BitReader) : Option (Nat × BitReader) := (u32At r.data r.pos).map fun n => (n, advance 4 r)

/-- The reader as a source: nothing is done after the bytes of an uncompressed block. -/
def reader : Source BitReader where
  readBit := BitReader.readBit
  align := alignTo16
  readByte := readByteAligned
  readU32 := readU32Aligned
  endRaw := id

/-- The turns of a loop that reads a bit in every one. -/
def fuelFor (input : List Byte) : Nat := 8 * input.length + 1

def decompress (input : List Byte) (outSize : Nat) : Except LzxError (List Byte) :=
  decompressWith reader (fuelFor input) (BitReader.new input) outSize

end Lzx

end Csolver.Elf
