import Csolver.Elf.LzxSource

/-!
# Chunks of uncompressed blocks

A writer of uncompressed blocks. What it writes means what was written, and the reader of the code gives that back if
the sizes are explicit and the blocks before the last one are of even length.
-/

namespace Csolver.Elf

namespace Lzx

open BitReader Csolver.Lib

def wordBytes (w : Nat) : List Byte := [leByte w 0, leByte w 1]

/-- An uncompressed block. -/
structure RawBlock where
  /-- Whether the size is that of a whole chunk, which has a short header. -/
  full : Bool
  /-- The repeated offsets. -/
  recent : List Byte
  bytes : List Byte
  recent_len : recent.length = 12

namespace RawBlock

/-- The type, the flag and the size, up to the end of a word. -/
def header (b : RawBlock) : List Byte :=
  if b.full then wordBytes (2 ^ 13 * 3 + 2 ^ 12)
  else wordBytes (2 ^ 13 * 3 + b.bytes.length / 16) ++ wordBytes (2 ^ 12 * (b.bytes.length % 16))

/-- One byte after an odd number of them. -/
def pad (b : RawBlock) : List Byte := List.replicate (b.bytes.length % 2) 0

def write (b : RawBlock) : List Byte := b.header ++ (b.recent ++ (b.bytes ++ b.pad))

def size (b : RawBlock) : Nat := if b.full then chunk else b.bytes.length

end RawBlock

def writeChunk (bs : List RawBlock) : List Byte := bs.flatMap RawBlock.write

def content (bs : List RawBlock) : List Byte := bs.flatMap RawBlock.bytes

/-- The sizes can be written: the last block may say more than there is left to decode. -/
def Fits : List RawBlock → Prop
  | [] => True
  | b :: bs => (if b.full then b.bytes.length = chunk ∨ b.bytes.length ≤ chunk ∧ bs = [] else b.bytes.length < 2 ^ 16) ∧
    Fits bs

/-- The sizes are explicit, and even before the last block. -/
def Plain : List RawBlock → Prop
  | [] => True
  | b :: bs => b.full = false ∧ (b.bytes.length % 2 = 0 ∨ bs = []) ∧ Plain bs

instance decidableFits : (bs : List RawBlock) → Decidable (Fits bs)
  | [] => .isTrue trivial
  | b :: bs =>
    have := decidableFits bs
    inferInstanceAs (Decidable ((if b.full then b.bytes.length = chunk ∨ b.bytes.length ≤ chunk ∧ bs = [] else
      b.bytes.length < 2 ^ 16) ∧ Fits bs))

instance decidablePlain : (bs : List RawBlock) → Decidable (Plain bs)
  | [] => .isTrue trivial
  | b :: bs =>
    have := decidablePlain bs
    inferInstanceAs (Decidable (b.full = false ∧ (b.bytes.length % 2 = 0 ∨ bs = []) ∧ Plain bs))

/-! ## The bits of a header -/

theorem codeBits_split {a b n m : Nat} (h : b < 2 ^ m) :
    codeBits (2 ^ m * a + b) (n + m) = codeBits a n ++ codeBits b m := by
  rw [codeBits_eq_map, codeBits_eq_map, codeBits_eq_map, List.range_add, List.map_append, List.map_map]
  congr 1
  · refine List.map_congr_left fun i hi => ?_
    have hlt := List.mem_range.mp hi
    rw [Nat.testBit_two_pow_mul_add a h, if_neg (by omega)]
    congr 1
    omega
  · refine List.map_congr_left fun i hi => ?_
    have hlt := List.mem_range.mp hi
    have hidx : n + m - 1 - (n + i) = m - 1 - i := by omega
    rw [Function.comp, hidx, Nat.testBit_two_pow_mul_add a h, if_pos (by omega)]

theorem dataBits_wordBytes {w : Nat} (h : w < 2 ^ 16) (rest : List Byte) :
    dataBits (wordBytes w ++ rest) = codeBits w 16 ++ dataBits rest := by
  change codeBits (u16OfLeBytes (leByte w 0) (leByte w 1)) 16 ++ dataBits rest = _
  rw [u16OfLeBytes_leByte h]

theorem readBitsFrom_position {data : List Byte} {x n p v m : Nat} {rest : List Bool}
    (h : (dataBits data).drop p = codeBits x n ++ rest) (hv : v < 2 ^ m) (hle : m + n ≤ 32) :
    readBitsFrom (position data) v n p = .ok (2 ^ n * v + x % 2 ^ n, p + n) ∧ (dataBits data).drop (p + n) = rest := by
  induction n generalizing p v m with
  | zero =>
    refine ⟨?_, h⟩
    rw [Nat.pow_zero, Nat.one_mul, Nat.mod_one]
    rfl
  | succ n ih =>
    have hget : (dataBits data)[p]? = some (x.testBit n) := by
      rw [← Nat.add_zero p, ← List.getElem?_drop, h]
      rfl
    have hdrop : (dataBits data).drop (p + 1) = codeBits x n ++ rest := by
      rw [← List.drop_drop, h]
      rfl
    have hbit : (x.testBit n).toNat = x / 2 ^ n % 2 := by rw [Nat.toNat_testBit]
    have hlt : 2 * v + (x.testBit n).toNat < 2 ^ (m + 1) := by
      rw [Nat.pow_succ]
      have hone := Bool.toNat_lt (x.testBit n)
      omega
    have hmod : (2 * v + (x.testBit n).toNat) % 2 ^ 32 = 2 * v + (x.testBit n).toNat :=
      Nat.mod_eq_of_lt (hlt.trans_le (Nat.pow_le_pow_right (by decide) (by omega)))
    obtain ⟨hread, hrest⟩ := ih hdrop hlt (by omega)
    have hstep : readBitsFrom (position data) v (n + 1) p = readBitsFrom (position data)
        ((2 * v + (x.testBit n).toNat) % 2 ^ 32) n (p + 1) := by
      change (readBitM (position data) p).bind (fun q => readBitsFrom (position data) ((2 * v + q.1.toNat) % 2 ^ 32) n q.2) = _
      have hbitM : readBitM (position data) p = .ok (x.testBit n, p + 1) := by
        rw [readBitM, ofRead, position_readBit, hget]
        rfl
      rw [hbitM]
      rfl
    refine ⟨?_, by rw [← hrest, Nat.add_assoc, Nat.add_comm 1 n]⟩
    rw [hstep, hmod, hread, hbit, Nat.mod_pow_succ, Nat.pow_succ, Nat.add_assoc p, Nat.add_comm 1 n]
    congr 2
    ring

/-! ## One block -/

section Block

variable {data rest : List Byte} {k : Nat} {b : RawBlock}

theorem readBits_position {x n p : Nat} {more : List Bool} (h : (dataBits data).drop p = codeBits x n ++ more)
    (hx : x < 2 ^ n) (hle : n ≤ 32) : readBits (position data) n p = .ok (x, p + n) ∧ (dataBits data).drop (p + n) = more := by
  obtain ⟨hread, hmore⟩ := readBitsFrom_position (v := 0) (m := 0) h (by decide) (by omega)
  refine ⟨?_, hmore⟩
  rw [Nat.mul_zero, Nat.zero_add, Nat.mod_eq_of_lt hx] at hread
  exact hread

def headerBits (b : RawBlock) : Nat := if b.full then 4 else 20

theorem blockHeader_position (h : data.drop (2 * k) = b.header ++ rest)
    (hsize : b.full = false → b.bytes.length < 2 ^ 16) :
    blockHeader (position data) (16 * k) = .ok ((3, b.size), 16 * k + headerBits b) := by
  have hbits : (dataBits data).drop (16 * k) = dataBits (b.header ++ rest) := by rw [← h, dataBits_drop_words]
  have hdef : blockHeader (position data) (16 * k) = (readBits (position data) 3 (16 * k)).bind fun p0 =>
      (readBits (position data) 1 p0.2).bind fun p1 =>
        ((if p1.1 = 1 then pure chunk else readBits (position data) 16 : LzxM Nat Nat) p1.2).bind fun p2 =>
          .ok ((p0.1, p2.1), p2.2) := rfl
  unfold RawBlock.header at hbits
  unfold RawBlock.size headerBits
  cases hfull : b.full with
  | true =>
    rw [hfull, if_pos rfl, dataBits_wordBytes (by decide), codeBits_split (n := 3) (by decide),
      ← Nat.mul_one (2 ^ 12), ← Nat.add_zero (2 ^ 12 * 1), codeBits_split (n := 1) (by decide), List.append_assoc,
      List.append_assoc] at hbits
    obtain ⟨htype, hrest⟩ := readBits_position hbits (by decide) (by decide)
    obtain ⟨hflag, -⟩ := readBits_position hrest (by decide) (by decide)
    rw [hdef, htype, Except.bind, hflag]
    rfl
  | false =>
    have hlt := hsize hfull
    have hhi : b.bytes.length / 16 < 2 ^ 12 := by omega
    rw [hfull, if_neg Bool.false_ne_true, List.append_assoc, dataBits_wordBytes (by omega),
      dataBits_wordBytes (by omega), codeBits_split (n := 3) (by omega),
      ← Nat.zero_add (b.bytes.length / 16), ← Nat.mul_zero (2 ^ 12), codeBits_split (n := 1) hhi,
      ← Nat.add_zero (2 ^ 12 * (b.bytes.length % 16)), codeBits_split (n := 4) (by decide)] at hbits
    -- the two parts of the size are one number again
    have hjoin : codeBits b.bytes.length 16 =
        codeBits (b.bytes.length / 16) 12 ++ codeBits (b.bytes.length % 16) 4 := by
      have hnum : 2 ^ 4 * (b.bytes.length / 16) + b.bytes.length % 16 = b.bytes.length := by omega
      rw [← codeBits_split (m := 4) (by omega), hnum]
    simp only [List.append_assoc] at hbits
    obtain ⟨htype, hrest⟩ := readBits_position hbits (by decide) (by decide)
    obtain ⟨hflag, hrest⟩ := readBits_position hrest (by decide) (by decide)
    rw [← List.append_assoc, ← hjoin] at hrest
    obtain ⟨hread, -⟩ := readBits_position hrest hlt (by decide)
    rw [hdef, htype, Except.bind, hflag]
    change (readBits (position data) 16 (16 * k + 3 + 1)).bind _ = _
    rw [hread]
    rfl

theorem length_header (b : RawBlock) : b.header.length = if b.full then 2 else 4 := by
  unfold RawBlock.header
  split <;> rfl

theorem length_write (b : RawBlock) :
    b.write.length = b.header.length + (12 + (b.bytes.length + b.bytes.length % 2)) := by
  rw [RawBlock.write, List.length_append, List.length_append, List.length_append, b.recent_len, RawBlock.pad,
    List.length_replicate]

theorem wordUp_header (b : RawBlock) (k : Nat) : wordUp (16 * k + headerBits b) = 8 * (2 * k + b.header.length) := by
  rw [length_header, wordUp, headerBits]
  cases b.full
  · simp only [Bool.false_eq_true, if_false]
    omega
  · simp only [if_true]
    omega

theorem blockStep_position {outSize : Nat} {st : LzxState} (h : data.drop (2 * k) = b.write ++ rest)
    (hsize : b.full = false → b.bytes.length < 2 ^ 16)
    (hstop : blockEnd outSize b.size st = st.window.out.length + b.bytes.length) :
    ∃ st', blockStep (position data) outSize st (16 * k) = .ok (st', 16 * k + 8 * b.write.length) ∧
      st'.window.out = st.window.out ++ b.bytes := by
  have hheader := blockHeader_position (by rw [h, RawBlock.write, List.append_assoc]) hsize
  have hup := wordUp_header b k
  have hdrop : data.drop (2 * k + b.header.length + 12) = b.bytes ++ b.pad ++ rest := by
    rw [Nat.add_assoc, ← List.drop_drop, h, RawBlock.write, List.append_assoc, List.drop_append,
      List.drop_eq_nil_of_le (by omega), Nat.add_sub_cancel_left, List.nil_append, List.append_assoc,
      List.drop_left' b.recent_len]
  -- a reader at the first byte reads what the position reads
  let r : BitReader := ⟨data, 2 * k + b.header.length, 0, 0, by decide, by simp⟩
  have hat : AtByte data r (wordUp (16 * k + headerBits b)) := ⟨rfl, rfl, hup⟩
  have hlen : 2 * k + b.header.length + 12 + b.bytes.length ≤ data.length := by
    have hlength := congrArg List.length h
    rw [List.length_drop, List.length_append, length_write] at hlength
    omega
  have hbody := rawBody_inStep (blockEnd outSize b.size st) st _ _ hat
  rw [hstop] at hbody
  have hcount : st.window.out.length + b.bytes.length - st.window.out.length = b.bytes.length := Nat.add_sub_cancel_left _ _
  rcases rawBody_eq (st.window.out.length + b.bytes.length) st r with ⟨-, r0, r1, r2, hrun⟩ | ⟨hover, -⟩
  swap
  · rw [hcount] at hover
    exact absurd hlen (Nat.not_le.mpr hover)
  rw [hcount] at hrun
  rw [hrun] at hbody
  cases hq : rawBody (position data) (st.window.out.length + b.bytes.length) st (wordUp (16 * k + headerBits b)) with
  | error e => rw [hq] at hbody; exact hbody.elim
  | ok q =>
    rw [hq] at hbody
    obtain ⟨heq, hnext⟩ := hbody
    have hpos : wordUp q.2 = 16 * k + 8 * b.write.length := by
      have hq2 : q.2 = 8 * (2 * k + b.header.length + (12 + b.bytes.length)) := hnext.pos
      have heven : b.header.length % 2 = 0 := by
        rw [length_header]
        split <;> rfl
      rw [hq2, length_write, wordUp]
      omega
    refine ⟨q.1, ?_, ?_⟩
    · change (blockHeader (position data) (16 * k)).bind (fun p => blockBody (position data) outSize p.1 st p.2) = _
      rw [hheader]
      change ((rawBody (position data) (blockEnd outSize b.size st) st (wordUp (16 * k + headerBits b))).bind fun p =>
        .ok (p.1, wordUp p.2)) = _
      rw [hstop, hq, ← hpos]
      rfl
    · rw [← heq]
      change st.window.out ++ (data.drop (2 * k + b.header.length + 12)).take b.bytes.length = _
      rw [hdrop, List.append_assoc, List.take_left]

theorem even_write (b : RawBlock) : b.write.length % 2 = 0 := by
  have heven : b.header.length % 2 = 0 := by
    rw [length_header]
    split <;> rfl
  rw [length_write]
  omega

theorem drop_write {bs : List RawBlock} (h : data.drop (2 * k) = writeChunk (b :: bs)) :
    data.drop (2 * (k + b.write.length / 2)) = writeChunk bs ∧
      16 * k + 8 * b.write.length = 16 * (k + b.write.length / 2) := by
  have heven := even_write b
  have hnext : 2 * (k + b.write.length / 2) = 2 * k + b.write.length := by omega
  refine ⟨?_, by omega⟩
  rw [hnext, ← List.drop_drop, h]
  exact List.drop_left

theorem blockEnd_of_fits {bs : List RawBlock} {outSize : Nat} {st : LzxState} (h : Fits (b :: bs))
    (hout : st.window.out.length + (content (b :: bs)).length = outSize) :
    blockEnd outSize b.size st = st.window.out.length + b.bytes.length := by
  have hlen : (content (b :: bs)).length = b.bytes.length + (content bs).length := by
    rw [content, List.flatMap_cons, List.length_append]
    rfl
  obtain ⟨hb, -⟩ := h
  unfold blockEnd RawBlock.size
  cases hfull : b.full with
  | true =>
    rw [hfull, if_pos rfl] at hb
    rw [if_pos rfl]
    rcases hb with hb | ⟨hb, rfl⟩
    · omega
    · have hnil : (content []).length = 0 := rfl
      omega
  | false =>
    rw [if_neg Bool.false_ne_true]
    omega

theorem Fits.lt {bs : List RawBlock} (h : Fits (b :: bs)) (hfull : b.full = false) : b.bytes.length < 2 ^ 16 := by
  have hb := h.1
  rwa [hfull, if_neg Bool.false_ne_true] at hb

theorem blocks_done {bs : List RawBlock} {outSize : Nat} {st : LzxState} (fuel p : Nat)
    (hle : outSize ≤ st.window.out.length) (hout : st.window.out.length + (content bs).length = outSize) :
    ∃ q, blocks (position data) outSize fuel st p = .ok q ∧ q.1.window.out = st.window.out ++ content bs := by
  refine ⟨(st, p), ?_, ?_⟩
  · unfold blocks
    rw [if_pos hle]
    rfl
  · rw [List.length_eq_zero_iff.mp (by omega : (content bs).length = 0), List.append_nil]

theorem blocks_position {outSize : Nat} (bs : List RawBlock) (fuel : Nat) (st : LzxState) (k : Nat) (hfits : Fits bs)
    (h : data.drop (2 * k) = writeChunk bs) (hout : st.window.out.length + (content bs).length = outSize)
    (hfuel : bs.length ≤ fuel) :
    ∃ q, blocks (position data) outSize fuel st (16 * k) = .ok q ∧ q.1.window.out = st.window.out ++ content bs := by
  induction bs generalizing fuel st k with
  | nil => exact blocks_done fuel (16 * k) (by rw [← hout]; exact le_rfl) hout
  | cons b bs ih =>
    by_cases hle : outSize ≤ st.window.out.length
    · exact blocks_done fuel (16 * k) hle hout
    obtain ⟨fuel, rfl⟩ : ∃ f, fuel = f + 1 := ⟨fuel - 1, by rw [List.length_cons] at hfuel; omega⟩
    obtain ⟨st', hstep, hbytes⟩ := @blockStep_position _ (writeChunk bs) _ _ _ _ h hfits.lt (blockEnd_of_fits hfits hout)
    obtain ⟨hrest, hpos⟩ := drop_write h
    have hout' : st'.window.out.length + (content bs).length = outSize := by
      rw [hbytes, List.length_append, ← hout, content, content, List.flatMap_cons, List.length_append]
      exact Nat.add_assoc _ _ _
    obtain ⟨q, hrun, hq⟩ := ih fuel st' (k + b.write.length / 2) hfits.2 hrest hout' (Nat.le_of_succ_le_succ hfuel)
    refine ⟨q, ?_, ?_⟩
    · unfold blocks
      rw [if_neg hle]
      change (blockStep (position data) outSize st (16 * k)).bind
        (fun p => blocks (position data) outSize fuel p.1 p.2) = _
      rw [hstep, hpos]
      exact hrun
    · rw [hq, hbytes, List.append_assoc]
      rfl

theorem length_le_writeChunk (bs : List RawBlock) : bs.length ≤ (writeChunk bs).length := by
  induction bs with
  | nil => exact le_rfl
  | cons b bs ih =>
    have hwrite := length_write b
    rw [writeChunk, List.flatMap_cons, List.length_append, List.length_cons]
    change (bs.length + 1 ≤ b.write.length + (writeChunk bs).length)
    omega

theorem meaning_writeChunk {bs : List RawBlock} (h : Fits bs) :
    meaning (writeChunk bs) (content bs).length = .ok (undoE8 (content bs)) := by
  have hfuel : bs.length ≤ fuelFor (writeChunk bs) := by
    have hle := length_le_writeChunk bs
    unfold fuelFor
    omega
  obtain ⟨q, hrun, hq⟩ := blocks_position bs (fuelFor (writeChunk bs)) start 0 h rfl (Nat.zero_add _) hfuel
  have hblocks : blocks (position (writeChunk bs)) (content bs).length (fuelFor (writeChunk bs)) start 0 = .ok q := hrun
  unfold meaning decompressWith
  rw [hblocks]
  have hcontent : q.1.window.out = content bs := hq
  change Except.ok (undoE8 (q.1.window.out.take _)) = _
  rw [hcontent, List.take_length]

end Block

/-! ## Explicit sizes and even lengths -/

section Plain

variable {data : List Byte} {k p : Nat} {r r' : BitReader}

theorem readBit_pos {b : Bool} (h : r.readBit = some (b, r')) :
    (r.bitcount ≠ 0 → r'.pos = r.pos) ∧
      (r.bitcount = 0 → r.pos + 4 ≤ r.data.length → r'.pos = r.pos + 4) := by
  unfold BitReader.readBit at h
  split_ifs at h with h0 h1
  · obtain rfl : r.refill.shiftOut.2 = r' := congrArg Prod.snd (Option.some.inj h)
    refine ⟨fun hne => absurd h0 hne, fun _ hlen => ?_⟩
    have hfirst : r.bitcount ≤ 16 ∧ r.pos + 2 ≤ r.data.length := by omega
    have hsecond : (r.takeWord hfirst.1).bitcount ≤ 16 ∧
        (r.takeWord hfirst.1).pos + 2 ≤ (r.takeWord hfirst.1).data.length := by
      change r.bitcount + 16 ≤ 16 ∧ r.pos + 2 + 2 ≤ r.data.length
      omega
    change (refillLoop 2 r).pos = _
    rw [refillLoop, dif_pos hfirst, refillLoop, dif_pos hsecond]
    rfl
  · obtain rfl : r.shiftOut.2 = r' := congrArg Prod.snd (Option.some.inj h)
    exact ⟨fun _ => rfl, fun h => absurd h h0⟩

/-- A reader in the two words from a boundary, taken together. -/
structure Near (data : List Byte) (k : Nat) (r : BitReader) (p : Nat) : Prop where
  at' : At data r p
  le : 16 * k ≤ p
  first : p = 16 * k → r.pos = 2 * k
  words : 16 * k < p → p ≤ 16 * k + 32 → r.pos = 2 * k + 4

theorem Near.readBit (hlen : 2 * k + 4 ≤ data.length) (h : Near data k r p) :
    SameRead (Near data k) (reader.readBit r) ((position data).readBit p) := by
  have hread := h.at'.readBit
  change SameRead _ r.readBit _
  have hp := h.at'.pos
  have hle := h.le
  cases hr : r.readBit with
  | none => rw [hr] at hread; cases hq : (position data).readBit p <;> rw [hq] at hread <;> exact hread
  | some x =>
    rw [hr, position_readBit] at hread
    rw [position_readBit]
    cases hq : (dataBits data)[p]? with
    | none => rw [hq] at hread; exact hread.elim
    | some b =>
      rw [hq] at hread
      obtain ⟨b', r'⟩ := x
      obtain ⟨hmore, hempty⟩ := readBit_pos hr
      obtain ⟨hb, hat⟩ := hread
      rw [h.at'.same] at hempty
      refine ⟨hb, hat, by omega, fun heq => by omega, fun _ hend => ?_⟩
      by_cases hstart : p = 16 * k
      · have hpos := h.first hstart
        rw [hempty (by omega) (by omega), hpos]
      · have hpos := h.words (by omega) (by omega)
        rw [hmore (by omega), hpos]

/-- A reader between words, with a chunk of blocks to decode. -/
structure Written (data : List Byte) (outSize : Nat) (st : LzxState) (r : BitReader) (bs : List RawBlock) : Prop where
  fits : Fits bs
  plain : Plain bs
  out : st.window.out.length + (content bs).length = outSize
  place : ∃ k, AtByte data r (16 * k) ∧ data.drop (2 * k) = writeChunk bs

variable {outSize : Nat} {st st' : LzxState} {b : RawBlock} {bs : List RawBlock}

theorem blockHeader_count (hat : AtByte data r (16 * k)) (hdrop : data.drop (2 * k) = writeChunk (b :: bs))
    (hfull : b.full = false) (hsize : b.bytes.length < 2 ^ 16) :
    ∃ r', blockHeader reader r = .ok ((3, b.size), r') ∧ r'.bitcount = 12 := by
  have hpos := hat.pos
  have hlen : 2 * k + 4 ≤ data.length := by
    have hlength := congrArg List.length hdrop
    have hwrite := length_write b
    rw [length_header, hfull, if_neg Bool.false_ne_true] at hwrite
    rw [List.length_drop, writeChunk, List.flatMap_cons, List.length_append] at hlength
    omega
  have hnear : Near data k r (16 * k) :=
    ⟨hat.at (by omega), le_rfl, fun _ => by omega, fun hlt => absurd hlt (lt_irrefl _)⟩
  have hheader := blockHeader_inStep (fun s q h => Near.readBit hlen h) r (16 * k) hnear
    (S := reader) (T := position data)
  have hmeans : blockHeader (position data) (16 * k) = .ok ((3, b.size), 16 * k + headerBits b) := by
    apply @blockHeader_position _ (b.recent ++ (b.bytes ++ b.pad) ++ writeChunk bs) _ _ _ fun _ => hsize
    rw [hdrop, writeChunk, List.flatMap_cons, RawBlock.write, List.append_assoc]
    rfl
  rw [hmeans] at hheader
  cases hr : blockHeader reader r with
  | error e => rw [hr] at hheader; exact hheader.elim
  | ok x =>
    rw [hr] at hheader
    obtain ⟨heq, hnext⟩ := hheader
    refine ⟨x.2, by rw [← heq], ?_⟩
    have hbits : headerBits b = 20 := by rw [headerBits, hfull, if_neg Bool.false_ne_true]
    rw [hbits] at hnext
    have hwords := hnext.words (by omega) (by omega)
    have hp := hnext.at'.pos
    omega

theorem Written.meets (h : Written data outSize st r (b :: bs)) {size : Nat}
    (hr : blockHeader reader r = .ok ((3, size), r')) : MeetsAt outSize st (blockEnd outSize size st) r' := by
  obtain ⟨k, hat, hdrop⟩ := h.place
  obtain ⟨hfull, heven, -⟩ := h.plain
  obtain ⟨r1, hr1, hcount⟩ := blockHeader_count hat hdrop hfull (h.fits.lt hfull)
  obtain ⟨hheader, rfl⟩ := Prod.mk.inj (Except.ok.inj (hr.symm.trans hr1))
  obtain rfl : size = b.size := congrArg Prod.snd hheader
  have hstop := blockEnd_of_fits h.fits h.out
  refine ⟨by omega, fun hmore _ => ?_⟩
  rw [hstop] at hmore ⊢
  rw [Nat.add_sub_cancel_left]
  rcases heven with heven | rfl
  · exact heven
  · have hout := h.out
    have hnil : (content [b]).length = b.bytes.length := by rw [content, List.flatMap_singleton]
    omega

theorem Written.step (h : Written data outSize st r (b :: bs)) (hmore : st.window.out.length < outSize)
    (hstep : blockStep reader outSize st r = .ok (st', r')) (hnext : st'.window.out.length < outSize) :
    Written data outSize st' r' bs := by
  obtain ⟨k, hat, hdrop⟩ := h.place
  have hpos := hat.pos
  have hstop := blockEnd_of_fits h.fits h.out
  obtain ⟨hrest, hnextPos⟩ := drop_write hdrop
  obtain ⟨st1, hmeans, hbytes⟩ := @blockStep_position _ (writeChunk bs) _ _ _ _ hdrop h.fits.lt hstop
  have hsame := blockStep_same (hat.at (by omega)) hmore fun size r1 hr => h.meets hr
  rw [hstep, hmeans] at hsame
  obtain ⟨rfl, hat'⟩ := hsame
  -- nothing is buffered after the bytes of a block
  have hempty : r'.bitcount = 0 := by
    obtain ⟨hfull, -⟩ := h.plain
    obtain ⟨r1, hr1, -⟩ := blockHeader_count hat hdrop hfull (h.fits.lt hfull)
    change (blockHeader reader r).bind (fun q => blockBody reader outSize q.1 st q.2) = _ at hstep
    rw [hr1] at hstep
    change uncompressedBlock reader (blockEnd outSize b.size st) st r1 = _ at hstep
    rw [uncompressedBlock_eq] at hstep
    rcases rawBody_eq (blockEnd outSize b.size st) st (alignTo16 r1) with ⟨-, r0, r2, r3, hrun⟩ | ⟨-, hrun⟩
    · rw [hrun] at hstep
      obtain ⟨-, rfl⟩ := Prod.mk.inj (Except.ok.inj hstep)
      rfl
    · rw [hrun] at hstep
      cases hstep
  have hout : st'.window.out.length + (content bs).length = outSize := by
    rw [hbytes, List.length_append, ← h.out, content, content, List.flatMap_cons, List.length_append]
    exact Nat.add_assoc _ _ _
  have hplace := hat' hnext
  have hcur := hplace.pos
  refine ⟨h.fits.2, h.plain.2.2, hout, k + b.write.length / 2, ⟨hplace.same, hempty, ?_⟩, hrest⟩
  omega

theorem plain_meets (hfits : Fits bs) (hplain : Plain bs) :
    EveryRaw (writeChunk bs) (content bs).length (MeetsAt (content bs).length) := by
  have hwritten {st : LzxState} {r : BitReader} (h : Reached (writeChunk bs) (content bs).length st r)
      (hmore : st.window.out.length < (content bs).length) :
      ∃ b' bs', Written (writeChunk bs) (content bs).length st r (b' :: bs') := by
    have hcons {st : LzxState} {r : BitReader} {bs' : List RawBlock} (hmore : st.window.out.length < (content bs).length)
        (h : Written (writeChunk bs) (content bs).length st r bs') :
        ∃ b' bs', Written (writeChunk bs) (content bs).length st r (b' :: bs') := by
      cases bs' with
      | nil =>
        have hout := h.out
        have hnil : (content []).length = 0 := rfl
        omega
      | cons b' bs' => exact ⟨b', bs', h⟩
    induction h with
    | start => exact hcons hmore ⟨hfits, hplain, Nat.zero_add _, 0, ⟨rfl, rfl, rfl⟩, rfl⟩
    | step hprev hlt hstep ih =>
      obtain ⟨b', bs', h⟩ := ih hlt
      exact hcons hmore (h.step hlt hstep hmore)
  intro st r hreached hmore size r' hr
  obtain ⟨b', bs', h⟩ := hwritten hreached hmore
  exact h.meets hr

end Plain

/-- The switch between bits and bytes: every block of a run is read right if and only if every block meets the condition,
and then the chunk decompresses to what it means. A chunk of uncompressed blocks means the bytes of the blocks, and
decompresses to them if the sizes are explicit and all but the last one even. -/
theorem switch_right_iff (input : List Byte) (outSize : Nat) :
    (EveryRaw input outSize (RightAt outSize) ↔ EveryRaw input outSize (MeetsAt outSize)) ∧
    (EveryRaw input outSize (MeetsAt outSize) → decompress input outSize = meaning input outSize) ∧
    ∀ bs, Fits bs → meaning (writeChunk bs) (content bs).length = .ok (undoE8 (content bs)) ∧
      (Plain bs → EveryRaw (writeChunk bs) (content bs).length (MeetsAt (content bs).length) ∧
        decompress (writeChunk bs) (content bs).length = .ok (undoE8 (content bs))) := by
  refine ⟨everyRaw_right_iff, decompress_eq_meaning, fun bs hfits => ⟨meaning_writeChunk hfits, fun hplain => ?_⟩⟩
  have hmeets := plain_meets hfits hplain
  exact ⟨hmeets, (decompress_eq_meaning hmeets).trans (meaning_writeChunk hfits)⟩

def plainBlocks : List RawBlock :=
  [⟨false, List.replicate 12 1, [5, 6], rfl⟩, ⟨false, List.replicate 12 2, [7, 8, 9], rfl⟩]

theorem switch_right_plainBlocks : decompress (writeChunk plainBlocks) 5 = .ok (undoE8 [5, 6, 7, 8, 9]) :=
  (((switch_right_iff [] 0).2.2 plainBlocks (by decide)).2 (by decide)).2

def shortBlock : RawBlock := ⟨true, List.replicate 12 1, [5, 6], rfl⟩

/-- A word of the block is in the buffer when its bytes begin, and is lost. -/
theorem shortBlock_lost : Fits [shortBlock] ∧ ¬EveryRaw (writeChunk [shortBlock]) 2 (RightAt 2) ∧
    decompress (writeChunk [shortBlock]) 2 = .error .underrun := by
  refine ⟨by decide, fun hright => ?_, by decide⟩
  obtain ⟨r', hr, hpos, hcount⟩ : ∃ r', blockHeader reader (.new (writeChunk [shortBlock])) = .ok ((3, chunk), r') ∧
      r'.pos = 4 ∧ r'.bitcount = 28 := ⟨_, rfl, rfl, rfl⟩
  have hbegin := (hright _ _ .start (by decide) _ _ hr).1
  change 8 * r'.pos = wordUp (8 * r'.pos - r'.bitcount) at hbegin
  rw [hpos, hcount] at hbegin
  exact absurd hbegin (by decide)

end Lzx

end Csolver.Elf
