import Csolver.Elf.HuffmanSound
import Csolver.Elf.Lzx

/-!
# The XPRESS-Huffman decompressor (`crates/elf/src/wim.rs`)

The bit stream is interleaved with bytes that extend the lengths of long matches. The reader is that of LZX with another
way to read a byte.
-/

namespace Csolver.Elf

namespace Xpress

def numSymbols : Nat := 512

def tableBytes : Nat := numSymbols / 2

def minMatch : Nat := 3

inductive XpressError where
  | shortTable
  | badCode
  | truncatedOffset
  | truncatedLengthByte
  | truncatedLength
  | badOffset
  | panic
  | outOfFuel
deriving DecidableEq, Repr

def XpressError.message : XpressError → String
  | shortTable => "WIM: XPRESS chunk shorter than code table"
  | badCode => "WIM: XPRESS invalid Huffman code"
  | truncatedOffset => "WIM: XPRESS truncated offset"
  | truncatedLengthByte => "WIM: XPRESS truncated length byte"
  | truncatedLength => "WIM: XPRESS truncated length"
  | badOffset => "WIM: XPRESS match offset before window start"
  | panic | outOfFuel => ""

abbrev XpressM := StateT BitReader (Except XpressError)

/-- The lengths that the bytes of the table give, the low nibble first. -/
def tableLengths (table : List Byte) : List Nat := table.flatMap fun b => [b.toNat % 16, b.toNat / 16]

/-- `read_aligned_byte`: the byte after the words that are begun, with nothing left in the buffer. -/
def readAlignedByte (r : BitReader) : Option (Byte × BitReader) :=
  if r.pos < r.bitcount / 16 * 2 then none
  else
    let cursor := r.pos - r.bitcount / 16 * 2
    (r.data[cursor]?).map fun b => (b, Lzx.alignTo16 { r with pos := cursor + 1 })

def decodeM (table : Huff) : XpressM Nat := fun r =>
  match table.decode r with
  | .ok p => .ok p
  | .error _ => .error .badCode

def readBitsM (n : Nat) : XpressM Nat := Lib.ofRead (BitReader.readBits n) .truncatedOffset

def longLength (length : Nat) : XpressM Nat := do
  let extra ← Lib.ofRead readAlignedByte .truncatedLengthByte
  if extra = 255 then do
    let lo ← Lib.ofRead readAlignedByte .truncatedLength
    let hi ← Lib.ofRead readAlignedByte .truncatedLength
    return u16OfLeBytes lo hi
  else return length + extra.toNat

/-- A match: the bits of its offset, then its length. -/
def decodeMatch (outSize m : Nat) (out : List Byte) : XpressM (List Byte) := do
  let offsetBits := m / 16 % 16
  let length := m % 16
  let bits ← readBitsM offsetBits
  let offset := 1 <<< offsetBits ||| bits
  let length ← (if length = 15 then longLength length else pure length)
  if out.length < offset then throw .badOffset
  else pure (Lzx.copyFrom outSize (out.length - offset) (length + minMatch) out)

def symbolStep (table : Huff) (outSize : Nat) (out : List Byte) : XpressM (List Byte) := do
  let sym ← decodeM table
  if sym < 256 then return out ++ [BitVec.ofNat 8 sym] else decodeMatch outSize (sym - 256) out

/-- The loop; every turn writes a byte. -/
def symbols (table : Huff) (outSize : Nat) : Nat → List Byte → XpressM (List Byte)
  | fuel, out =>
    if outSize ≤ out.length then pure out
    else match fuel with
      | 0 => throw .outOfFuel
      | fuel + 1 => do symbols table outSize fuel (← symbolStep table outSize out)

def xpressDecompress (input : List Byte) (outSize : Nat) : Except XpressError (List Byte) :=
  if input.length < tableBytes then .error .shortTable
  else match Huff.build 16 (tableLengths (input.take tableBytes)) with
    | none => .error .panic
    | some table =>
      match symbols table outSize outSize [] (.new (input.drop tableBytes)) with
      | .ok (out, _) => .ok out
      | .error e => .error e

end Xpress

/-! ## What an XPRESS chunk encodes

The format keeps at least sixteen bits at hand, while there are words, and takes the bytes of a long match from behind
them; the bits of the offset come after. The code agrees with it on chunks without long matches.
-/

namespace Xpress

open BitReader Huff Lib Lib.Canonical

/-! ## The code as a computation over its lengths -/

section Sums

variable (lengths : List Nat)

theorem sum_range_lengthOf (f : Nat → Nat → Nat) :
    ∑ t ∈ Finset.range lengths.length, f (lengthOf lengths t) t = (lengths.zipIdx.map fun x => f x.1 x.2).sum := by
  induction lengths using List.reverseRecOn with
  | nil => rfl
  | append_singleton xs x ih =>
    have hlast : lengthOf (xs ++ [x]) xs.length = x := lengthOf_getElem? (by simp)
    have hinit : ∑ t ∈ Finset.range xs.length, f (lengthOf (xs ++ [x]) t) t =
        ∑ t ∈ Finset.range xs.length, f (lengthOf xs t) t := by
      refine Finset.sum_congr rfl fun t ht => ?_
      have hlt := Finset.mem_range.mp ht
      rw [lengthOf, lengthOf, List.getD_eq_getElem?_getD, List.getD_eq_getElem?_getD, List.getElem?_append_left hlt]
    rw [List.length_append, List.length_singleton, Finset.sum_range_succ, hinit, hlast, ih, List.zipIdx_append]
    simp

theorem kraft_iff (m : Nat) : Kraft (lengthOf lengths) lengths.length m ↔
    (lengths.zipIdx.map fun x => if 0 < x.1 then 2 ^ (m - x.1) else 0).sum ≤ 2 ^ m := by
  rw [Kraft, Finset.sum_filter, sum_range_lengthOf lengths fun l _ => if 0 < l then 2 ^ (m - l) else 0]

instance (m : Nat) : Decidable (Kraft (lengthOf lengths) lengths.length m) := decidable_of_iff _ (kraft_iff lengths m).symm

/-- The word of a symbol with a length. -/
def wordWith (l t : Nat) : List Bool :=
  codeBits (lengths.zipIdx.map fun x => if 0 < x.1 ∧ (x.1 < l ∨ x.1 = l ∧ x.2 < t) then 2 ^ (l - x.1) else 0).sum l

theorem wordWith_eq (t : Nat) : wordWith lengths (lengthOf lengths t) t = word lengths t := by
  rw [word, codeword, before, Finset.sum_filter, wordWith,
    sum_range_lengthOf lengths fun l u => if 0 < l ∧ (l < lengthOf lengths t ∨ l = lengthOf lengths t ∧ u < t) then
      2 ^ (lengthOf lengths t - l) else 0]

end Sums

/-- The bits at hand, and where the next word or byte is. -/
structure Xca where
  buf : List Bool
  cur : Nat
deriving DecidableEq

/-- The number that bits give, the most significant one first. -/
def bitsVal (bs : List Bool) : Nat := bs.foldl (fun v b => 2 * v + b.toNat) 0

namespace Xca

variable (data : List Byte)

/-- Take a word if there are fewer bits than that. -/
def fill (m : Nat) (s : Xca) : Xca :=
  if s.buf.length < m ∧ s.cur + 2 ≤ data.length then ⟨s.buf ++ codeBits (wordAt data s.cur) 16, s.cur + 2⟩ else s

def start : Xca := fill data 17 (fill data 17 ⟨[], 0⟩)

def take (k : Nat) (s : Xca) : Option (List Bool × Xca) :=
  if k ≤ s.buf.length then some (s.buf.take k, fill data 16 ⟨s.buf.drop k, s.cur⟩) else none

/-- The symbol whose word comes next. -/
def symbol (lengths : List Nat) (s : Xca) : Option (Nat × Xca) := do
  let (l, sym) ← lengths.zipIdx.find? fun x => 0 < x.1 && (wordWith lengths x.1 x.2).isPrefixOf s.buf
  let (_, s) ← take data l s
  return (sym, s)

/-- The length of a match, from its nibble. -/
def matchLength (nibble : Nat) (s : Xca) : Option (Nat × Xca) :=
  if nibble = 15 then do
    let b ← data[s.cur]?
    if b = 255 then do
      let lo ← data[s.cur + 1]?
      let hi ← data[s.cur + 2]?
      if u16OfLeBytes lo hi < 15 then none else some (u16OfLeBytes lo hi, ⟨s.buf, s.cur + 3⟩)
    else some (15 + b.toNat, ⟨s.buf, s.cur + 1⟩)
  else some (nibble, s)

end Xca

/-- The bytes of a match: each is the one so far back. -/
def repeatBack (stop offset : Nat) : Nat → List Byte → List Byte
  | 0, out => out
  | len + 1, out =>
    if stop ≤ out.length then out else repeatBack stop offset len (out ++ [out.getD (out.length - offset) 0])

def xcaStep (data : List Byte) (lengths : List Nat) (n : Nat) (s : Xca) (out : List Byte) : Option (Xca × List Byte) := do
  let (sym, s) ← s.symbol data lengths
  if sym < 256 then return (s, out ++ [BitVec.ofNat 8 sym])
  else do
    let (length, s) ← s.matchLength data ((sym - 256) % 16)
    let (bits, s) ← s.take data ((sym - 256) / 16)
    let offset := 2 ^ ((sym - 256) / 16) + bitsVal bits
    if out.length < offset then none else return (s, repeatBack n offset (length + 3) out)

def xcaLoop (data : List Byte) (lengths : List Nat) (n : Nat) : Nat → Xca → List Byte → Option (List Byte)
  | fuel, s, out =>
    if n ≤ out.length then some out
    else match fuel with
      | 0 => none
      | fuel + 1 => do
        let (s, out) ← xcaStep data lengths n s out
        xcaLoop data lengths n fuel s out

/-- The bytes that a chunk encodes, if it is well-formed. -/
def xcaDecode (chunk : List Byte) (n : Nat) : Option (List Byte) :=
  let lengths := tableLengths (chunk.take 256)
  let data := chunk.drop 256
  if 256 ≤ chunk.length ∧ Kraft (lengthOf lengths) lengths.length 15 then
    xcaLoop data lengths n n (Xca.start data) []
  else none

/-- The states of the decoding of a chunk, with the output so far. -/
inductive Reached (data : List Byte) (lengths : List Nat) (n : Nat) : Xca → List Byte → Prop
  | start : Reached data lengths n (Xca.start data) []
  | step {s s' : Xca} {out out' : List Byte} (h : Reached data lengths n s out) (hmore : out.length < n)
      (hstep : xcaStep data lengths n s out = some (s', out')) : Reached data lengths n s' out'

def NoLong (chunk : List Byte) (n : Nat) : Prop :=
  ∀ s out, Reached (chunk.drop 256) (tableLengths (chunk.take 256)) n s out → out.length < n →
    ∀ sym s', s.symbol (chunk.drop 256) (tableLengths (chunk.take 256)) = some (sym, s') → sym < 256 ∨
      (sym - 256) % 16 ≠ 15

/-! ## The bits that are left -/

section Follows

variable {data : List Byte} {s s' : Xca} {r : BitReader}

/-- The bits that are left of a chunk without long matches. -/
def Xca.rest (data : List Byte) (s : Xca) : List Bool := s.buf ++ dataBits (data.drop s.cur)

theorem rest_fill (m : Nat) (s : Xca) : (s.fill data m).rest data = s.rest data := by
  unfold Xca.fill Xca.rest
  split
  · next h => rw [dataBits_drop h.2, List.append_assoc]
  · rfl

theorem rest_start : (Xca.start data).rest data = (BitReader.new data).bits := by
  rw [Xca.start, rest_fill, rest_fill]
  rfl

theorem rest_take {k : Nat} {bs : List Bool} (h : s.take data k = some (bs, s')) :
    s.rest data = bs ++ s'.rest data ∧ bs.length = k := by
  unfold Xca.take at h
  split at h
  · next hle =>
    obtain ⟨rfl, rfl⟩ := Prod.mk.inj (Option.some.inj h)
    refine ⟨?_, List.length_take_of_le hle⟩
    rw [rest_fill, Xca.rest, Xca.rest, ← List.append_assoc, List.take_append_drop]
  · cases h

theorem readBitsFrom_bits {bs more : List Bool} {v m : Nat} (h : r.bits = bs ++ more) (hv : v < 2 ^ m)
    (hle : m + bs.length ≤ 32) :
    ∃ r', BitReader.readBitsFrom v bs.length r = some (bs.foldl (fun v b => 2 * v + b.toNat) v, r') ∧ r'.bits = more := by
  induction bs generalizing r v m with
  | nil => exact ⟨r, rfl, h⟩
  | cons b bs ih =>
    obtain ⟨r1, hread, hbits⟩ := readBit_cons h
    rw [List.length_cons] at hle
    have hlt : 2 * v + b.toNat < 2 ^ (m + 1) := by
      have hone := Bool.toNat_lt b
      rw [Nat.pow_succ]
      omega
    have hmod : (2 * v + b.toNat) % 2 ^ 32 = 2 * v + b.toNat :=
      Nat.mod_eq_of_lt (hlt.trans_le (Nat.pow_le_pow_right (by decide) (by omega)))
    obtain ⟨r', hrest, hmore⟩ := ih hbits hlt (by omega)
    refine ⟨r', ?_, hmore⟩
    rw [List.length_cons, BitReader.readBitsFrom, hread]
    change BitReader.readBitsFrom ((2 * v + b.toNat) % 2 ^ 32) bs.length r1 = _
    rw [hmod, hrest]
    rfl

theorem bitsVal_lt (bs : List Bool) : bitsVal bs < 2 ^ bs.length := by
  have hfold (v m : Nat) (hv : v < 2 ^ m) : bs.foldl (fun v b => 2 * v + b.toNat) v < 2 ^ (m + bs.length) := by
    induction bs generalizing v m with
    | nil => exact hv
    | cons b bs ih =>
      have hone := Bool.toNat_lt b
      have hnext := ih (2 * v + b.toNat) (m + 1) (by rw [Nat.pow_succ]; omega)
      rwa [Nat.add_assoc, Nat.add_comm 1] at hnext
  have hlt := hfold 0 0 (by decide)
  rwa [Nat.zero_add] at hlt

theorem length_word (lengths : List Nat) (t : Nat) : (word lengths t).length = lengthOf lengths t := length_codeBits _ _

theorem symbol_some {lengths : List Nat} {sym : Nat} (h : s.symbol data lengths = some (sym, s')) :
    sym < lengths.length ∧ 0 < lengthOf lengths sym ∧ s.rest data = word lengths sym ++ s'.rest data := by
  obtain ⟨⟨l, t⟩, hfind, hrun⟩ := Option.bind_eq_some_iff.mp h
  obtain ⟨⟨bs, s1⟩, htake, hret⟩ := Option.bind_eq_some_iff.mp hrun
  obtain ⟨rfl, rfl⟩ := Prod.mk.inj (Option.some.inj hret)
  have hget := List.mk_mem_zipIdx_iff_getElem?.mp (List.mem_of_find?_eq_some hfind)
  obtain rfl := lengthOf_getElem? hget
  have hpred := List.find?_some hfind
  rw [Bool.and_eq_true, decide_eq_true_eq, List.isPrefixOf_iff_prefix, wordWith_eq] at hpred
  obtain ⟨hpos, buf, hbuf⟩ := hpred
  obtain ⟨hrest, hlen⟩ := rest_take htake
  refine ⟨(List.getElem?_eq_some_iff.mp hget).1, hpos, ?_⟩
  -- the bits that are consumed are the word
  have hword : bs = word lengths t := by
    have hrest' := hrest
    rw [Xca.rest, ← hbuf, List.append_assoc] at hrest'
    exact (List.append_inj_left hrest' (by rw [hlen, length_word])).symm
  rw [hrest, hword]

end Follows

theorem copyFrom_eq_repeatBack (stop offset len : Nat) (out : List Byte) (h : offset ≤ out.length) :
    Lzx.copyFrom stop (out.length - offset) len out = repeatBack stop offset len out := by
  induction len generalizing out with
  | zero => rfl
  | succ len ih =>
    rw [Lzx.copyFrom, repeatBack]
    split
    · rfl
    · rw [← ih _ (by rw [List.length_append]; omega), List.length_append, List.length_singleton]
      congr 1
      omega

/-! ## Chunks without long matches -/

section Short

variable {data : List Byte} {lengths : List Nat} {n : Nat} {table : Huff} {s s' : Xca} {r : BitReader}
variable {out out' : List Byte}

theorem length_tableLengths (bytes : List Byte) : (tableLengths bytes).length = 2 * bytes.length := by
  induction bytes with
  | nil => rfl
  | cons b bytes ih =>
    rw [tableLengths, List.flatMap_cons, List.length_append]
    change 2 + (tableLengths bytes).length = 2 * (bytes.length + 1)
    omega

theorem tableLengths_lt (bytes : List Byte) : ∀ x ∈ tableLengths bytes, x < 16 := by
  intro x hx
  obtain ⟨b, -, hb⟩ := List.mem_flatMap.mp hx
  have hlt := b.isLt
  rcases List.mem_cons.mp hb with rfl | hb
  · exact Nat.mod_lt _ (by decide)
  · rw [List.mem_singleton.mp hb]
    omega

/-- The table decodes the words of the code. -/
structure Decodes (lengths : List Nat) (table : Huff) : Prop where
  size : lengths.length = 512
  small : Small 16 lengths
  table : Table (lengthOf lengths) lengths.length 16 table
  kraft : Kraft (lengthOf lengths) lengths.length 15

theorem Decodes.symbol (h : Decodes lengths table) {sym : Nat} (hbits : r.bits = s.rest data)
    (hsym : s.symbol data lengths = some (sym, s')) :
    sym < 512 ∧ ∃ r', decodeM table r = .ok (sym, r') ∧ r'.bits = s'.rest data := by
  obtain ⟨hlt, hpos, hrest⟩ := symbol_some hsym
  have hword := codeword_lt h.kraft hlt hpos (Nat.le_sub_one_of_lt (lengthOf_lt h.small.lt hlt))
  obtain ⟨r', hdec, hbits'⟩ := decode_word h.small h.table hlt hpos hword (hbits.trans hrest)
  have hsize : sym < 512 := h.size ▸ hlt
  refine ⟨hsize, r', ?_, hbits'⟩
  rw [Nat.mod_eq_of_lt (by omega)] at hdec
  rw [decodeM, hdec]

theorem decodeMatch_of_short {m : Nat} {bs : List Bool} (hm : m < 256) (hshort : m % 16 ≠ 15)
    (hbits : r.bits = s.rest data) (htake : s.take data (m / 16) = some (bs, s'))
    (hoffset : 2 ^ (m / 16) + bitsVal bs ≤ out.length) :
    ∃ r', decodeMatch n m out r = .ok (repeatBack n (2 ^ (m / 16) + bitsVal bs) (m % 16 + 3) out, r') ∧
      r'.bits = s'.rest data := by
  obtain ⟨hrest, hlen⟩ := rest_take htake
  have hdiv : m / 16 % 16 = m / 16 := Nat.mod_eq_of_lt (by omega)
  obtain ⟨r', hread, hbits'⟩ := readBitsFrom_bits (v := 0) (m := 0) (hbits.trans hrest) (by decide) (by omega)
  refine ⟨r', ?_, hbits'⟩
  rw [hlen] at hread
  have hval : 1 <<< (m / 16) ||| bitsVal bs = 2 ^ (m / 16) + bitsVal bs := by
    have hlt := bitsVal_lt bs
    rw [hlen] at hlt
    have hor := Nat.two_pow_add_eq_or_of_lt hlt 1
    rw [Nat.mul_one] at hor
    rw [Nat.one_shiftLeft, hor]
  change (readBitsM (m / 16 % 16) r).bind (fun p =>
    ((if m % 16 = 15 then longLength (m % 16) else pure (m % 16) : XpressM Nat) p.2).bind fun q =>
      ((if out.length < (1 <<< (m / 16 % 16) ||| p.1) then throw .badOffset
        else pure (Lzx.copyFrom n (out.length - (1 <<< (m / 16 % 16) ||| p.1)) (q.1 + minMatch) out) :
          XpressM (List Byte)) q.2)) = _
  have hreadM : readBitsM (m / 16 % 16) r = .ok (bitsVal bs, r') := by
    rw [readBitsM, ofRead, hdiv, BitReader.readBits, hread]
    rfl
  rw [hreadM, Except.bind, if_neg hshort]
  change (if out.length < (1 <<< (m / 16 % 16) ||| bitsVal bs) then throw .badOffset
    else pure (Lzx.copyFrom n (out.length - (1 <<< (m / 16 % 16) ||| bitsVal bs)) (m % 16 + minMatch) out) :
      XpressM (List Byte)) r' = _
  rw [hdiv, hval, if_neg (Nat.not_lt.mpr hoffset), copyFrom_eq_repeatBack _ _ _ _ hoffset]
  rfl

theorem symbolStep_of_short (h : Decodes lengths table) (hbits : r.bits = s.rest data)
    (hshort : ∀ sym s1, s.symbol data lengths = some (sym, s1) → sym < 256 ∨ (sym - 256) % 16 ≠ 15)
    (hstep : xcaStep data lengths n s out = some (s', out')) :
    ∃ r', symbolStep table n out r = .ok (out', r') ∧ r'.bits = s'.rest data := by
  obtain ⟨⟨sym, s1⟩, hsym, hrun⟩ := Option.bind_eq_some_iff.mp hstep
  obtain ⟨hlt, r1, hdec, hbits1⟩ := h.symbol hbits hsym
  have hbind : symbolStep table n out r = ((if sym < 256 then return out ++ [BitVec.ofNat 8 sym]
      else decodeMatch n (sym - 256) out : XpressM (List Byte)) r1) := by
    change (decodeM table r).bind _ = _
    rw [hdec]
    rfl
  rw [hbind]
  simp only at hrun
  split at hrun
  · next hlit =>
    obtain ⟨rfl, rfl⟩ := Prod.mk.inj (Option.some.inj hrun)
    exact ⟨r1, by rw [if_pos hlit]; rfl, hbits1⟩
  · next hlit =>
    have hnibble := (hshort sym s1 hsym).resolve_left hlit
    have hlength : s1.matchLength data ((sym - 256) % 16) = some ((sym - 256) % 16, s1) := if_neg hnibble
    obtain ⟨x, hx, hrun⟩ := Option.bind_eq_some_iff.mp hrun
    obtain rfl := Option.some.inj (hlength.symm.trans hx)
    obtain ⟨⟨bs, s2⟩, htake, hrun⟩ := Option.bind_eq_some_iff.mp hrun
    simp only at hrun
    split at hrun
    · cases hrun
    · next hoffset =>
      obtain ⟨rfl, rfl⟩ := Prod.mk.inj (Option.some.inj hrun)
      rw [if_neg hlit]
      exact decodeMatch_of_short (by omega) hnibble hbits1 htake (Nat.not_lt.mp hoffset)

theorem symbols_of_noLong (h : Decodes lengths table)
    (hno : ∀ s out, Reached data lengths n s out → out.length < n → ∀ sym s', s.symbol data lengths = some (sym, s') →
      sym < 256 ∨ (sym - 256) % 16 ≠ 15)
    {result : List Byte} (fuel : Nat) (hreached : Reached data lengths n s out) (hbits : r.bits = s.rest data)
    (hrun : xcaLoop data lengths n fuel s out = some result) : ∃ r', symbols table n fuel out r = .ok (result, r') := by
  induction fuel generalizing s out r with
  | zero =>
    unfold xcaLoop at hrun
    unfold symbols
    split at hrun
    · next hle =>
      obtain rfl := Option.some.inj hrun
      exact ⟨r, by rw [if_pos hle]; rfl⟩
    · cases hrun
  | succ fuel ih =>
    unfold xcaLoop at hrun
    unfold symbols
    split at hrun
    · next hle =>
      obtain rfl := Option.some.inj hrun
      exact ⟨r, by rw [if_pos hle]; rfl⟩
    · next hle =>
      have hmore := Nat.not_le.mp hle
      obtain ⟨⟨s1, out1⟩, hstep, hrest⟩ := Option.bind_eq_some_iff.mp hrun
      obtain ⟨r1, hsymbol, hbits1⟩ := symbolStep_of_short h hbits (hno s out hreached hmore) hstep
      obtain ⟨r', hdone⟩ := ih (hreached.step hmore hstep) hbits1 hrest
      refine ⟨r', ?_⟩
      rw [if_neg hle]
      change (symbolStep table n out r).bind (fun p => symbols table n fuel p.1 p.2) = _
      rw [hsymbol]
      exact hdone

end Short

/-- A chunk with no long match decompresses to the bytes that it encodes. -/
theorem xpressDecompress_of_noLong (chunk : List Byte) (n : Nat) (bytes : List Byte)
    (hdecode : xcaDecode chunk n = some bytes) (hno : NoLong chunk n) : xpressDecompress chunk n = .ok bytes := by
  unfold xcaDecode at hdecode
  simp only at hdecode
  split at hdecode
  swap
  · cases hdecode
  next hform =>
  obtain ⟨hlen, hkraft⟩ := hform
  have hsize : (tableLengths (chunk.take 256)).length = 512 := by
    rw [length_tableLengths, List.length_take_of_le hlen]
  have hsmall : Small 16 (tableLengths (chunk.take 256)) := by
    refine small_of_kraft (by decide) (by decide) (tableLengths_lt _) hkraft fun l hl => ?_
    have hcount := List.count_le_length (a := l) (l := tableLengths (chunk.take 256))
    rw [card_ofLength_eq]
    omega
  obtain ⟨table, hbuild, htable⟩ := table_of_small hsmall (by decide)
  obtain ⟨r', hrun⟩ := symbols_of_noLong ⟨hsize, hsmall, htable, hkraft⟩ hno n .start rest_start.symm hdecode
  unfold xpressDecompress
  rw [show tableBytes = 256 from rfl, if_neg (Nat.not_lt.mpr hlen), hbuild]
  simp only
  rw [hrun]

/-- A table of two literals with two bits, and a long match with one bit of offset. -/
def longTable : List Byte := ((List.replicate 256 0).set 32 0x20).set 33 0x02 |>.set 143 0x10

/-- Two literals, the word of the match, a bit of offset, and the byte of the length behind the second word. -/
def longChunk : List Byte := longTable ++ [0x00, 0xb0, 0, 0, 5]

theorem longChunk_start : ((Xca.start (longChunk.drop 256)).symbol (longChunk.drop 256)
      (tableLengths (longChunk.take 256))).map Prod.fst = some 65 ∧
    (xcaStep (longChunk.drop 256) (tableLengths (longChunk.take 256)) 1 (Xca.start (longChunk.drop 256)) []).map
      Prod.snd = some [65] := by decide +kernel

/-- The first literal of the chunk. -/
theorem xpressDecompress_longChunk_one : xpressDecompress longChunk 1 = .ok [65] := by
  refine xpressDecompress_of_noLong longChunk 1 [65] (by decide +kernel) ?_
  intro s out hreached hmore sym s' hsym
  obtain ⟨hfirst, hstep⟩ := longChunk_start
  have hstart : s = Xca.start (longChunk.drop 256) := by
    clear hsym
    induction hreached with
    | start => rfl
    | @step s s' out out' hprev hlt hnext ih =>
      obtain rfl : out = [] := List.eq_nil_of_length_eq_zero (Nat.lt_one_iff.mp hlt)
      rw [ih hlt] at hnext
      rw [hnext] at hstep
      obtain rfl : out' = [65] := Option.some.inj hstep
      exact absurd hmore (by decide)
  rw [hstart] at hsym
  rw [hsym] at hfirst
  obtain rfl : sym = 65 := Option.some.inj hfirst
  exact .inl (by decide)

/-- The byte of the length is not looked for where it is. -/
theorem longChunk_lost : xcaDecode longChunk 25 = some ((List.replicate 12 [65, 66]).flatten ++ [65]) ∧
    xpressDecompress longChunk 25 = .error .truncatedLengthByte := by decide +kernel

end Xpress

end Csolver.Elf
