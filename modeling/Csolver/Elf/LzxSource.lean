import Csolver.Elf.Lzx

/-!
# Two sources for one decoder

A source that is a position in the input, and the relation of the reader to it. The reader runs ahead of the bits that
are consumed by what it has buffered.
-/

namespace Csolver.Elf

namespace Lzx

def wordUp (p : Nat) : Nat := (p + 15) / 16 * 16

/-- A position in the input, counted in bits, as a source. -/
def position (data : List Byte) : Source Nat where
  readBit p := ((BitReader.dataBits data)[p]?).map fun b => (b, p + 1)
  align := wordUp
  readByte p := (data[p / 8]?).map fun b => (b, p + 8)
  readU32 p := (u32At data (p / 8)).map fun n => (n, p + 32)
  endRaw := wordUp

theorem position_readBit (data : List Byte) (p : Nat) :
    (position data).readBit p = ((BitReader.dataBits data)[p]?).map fun b => (b, p + 1) := rfl

theorem position_readByte (data : List Byte) (p : Nat) :
    (position data).readByte p = (data[p / 8]?).map fun b => (b, p + 8) := rfl

theorem position_readU32 (data : List Byte) (p : Nat) :
    (position data).readU32 p = (u32At data (p / 8)).map fun n => (n, p + 32) := rfl

/-- What the format means by a chunk. -/
def meaning (input : List Byte) (outSize : Nat) : Except LzxError (List Byte) :=
  decompressWith (position input) (fuelFor input) 0 outSize

def consumed (r : BitReader) : Nat := 8 * r.pos - r.bitcount

/-- A reader at a position. -/
structure At (data : List Byte) (r : BitReader) (p : Nat) : Prop where
  same : r.data = data
  even : r.pos % 2 = 0
  pos : p + r.bitcount = 8 * r.pos
  bits : r.bits = (BitReader.dataBits data).drop p

theorem At.consumed_eq {data : List Byte} {r : BitReader} {p : Nat} (h : At data r p) : consumed r = p := by
  have hpos := h.pos
  unfold consumed
  omega

/-! ## Programs that read bits only -/

section Bits

open Csolver.Lib

variable {σ τ : Type} {S : Source σ} {T : Source τ} {R : σ → τ → Prop}
variable (hbit : ∀ s t, R s t → SameRead R (S.readBit s) (T.readBit t))

include hbit

theorem readBitM_inStep : InStep R (readBitM S) (readBitM T) := .ofRead hbit _

theorem readBitsFrom_inStep (n v : Nat) : InStep R (readBitsFrom S v n) (readBitsFrom T v n) := by
  induction n generalizing v with
  | zero => exact .pure v
  | succ n ih => exact .bind (readBitM_inStep hbit) fun b => ih _

theorem readBits_inStep (n : Nat) : InStep R (readBits S n) (readBits T n) := readBitsFrom_inStep hbit n 0

theorem decodeFrom_same (symbols counts : List Nat) (code first index : Int) (s : σ) (t : τ) (hst : R s t) :
    SameResult R (Huff.decodeFrom S.readBit symbols counts code first index s)
      (Huff.decodeFrom T.readBit symbols counts code first index t) := by
  induction counts generalizing code first index s t with
  | nil => rfl
  | cons count counts ih =>
    have h := hbit s t hst
    unfold Huff.decodeFrom
    cases hs : S.readBit s with
    | none =>
      cases ht : T.readBit t with
      | none => rfl
      | some q => rw [hs, ht] at h; exact h.elim
    | some p =>
      cases ht : T.readBit t with
      | none => rw [hs, ht] at h; exact h.elim
      | some q =>
        rw [hs, ht] at h
        obtain ⟨b, s'⟩ := p
        obtain ⟨b', t'⟩ := q
        obtain ⟨rfl, hrel⟩ := h
        simp only
        split
        · split
          · exact ⟨rfl, hrel⟩
          · rfl
        · exact ih _ _ _ s' t' hrel

theorem decodeM_inStep (h : Huff) : InStep R (decodeM S h) (decodeM T h) := by
  intro s t hst
  have hsame := decodeFrom_same hbit h.symbols (h.counts.drop 1) 0 0 0 s t hst
  unfold decodeM Huff.decodeWith
  revert hsame
  cases Huff.decodeFrom S.readBit h.symbols (h.counts.drop 1) 0 0 0 s <;>
    cases Huff.decodeFrom T.readBit h.symbols (h.counts.drop 1) 0 0 0 t
  · intro heq
    exact congrArg ofHuffError heq
  · exact False.elim
  · exact False.elim
  · exact id

omit hbit in
theorem buildM_inStep (lengths : List Nat) : InStep R (buildM lengths : LzxM σ Huff) (buildM lengths) := by
  unfold buildM
  cases Huff.build 17 lengths with
  | none => exact .throw _
  | some h => exact .pure h

theorem readMany_inStep (bits n : Nat) : InStep R (readMany S bits n) (readMany T bits n) := by
  induction n with
  | zero => exact .pure []
  | succ n ih => exact .bind (readBits_inStep hbit bits) fun x => .bind ih fun xs => .pure _

theorem lengthsLoop_inStep (pretree : Huff) (fuel i : Nat) (lengths : List Nat) :
    InStep R (lengthsLoop S pretree fuel i lengths) (lengthsLoop T pretree fuel i lengths) := by
  induction fuel generalizing i lengths with
  | zero =>
    unfold lengthsLoop
    exact .ite (.pure _) (.throw _)
  | succ fuel ih =>
    unfold lengthsLoop
    refine .ite (.pure _) (.bind (decodeM_inStep hbit pretree) fun sym => ?_)
    refine .ite (ih _ _) (.ite ?_ (.ite ?_ (.ite ?_ (.throw _))))
    · exact .bind (readBits_inStep hbit 4) fun n => ih _ _
    · exact .bind (readBits_inStep hbit 5) fun n => ih _ _
    · exact .bind (readBits_inStep hbit 1) fun n => .bind (decodeM_inStep hbit pretree) fun sym2 => ih _ _

theorem readLengths_inStep (lengths : List Nat) : InStep R (readLengths S lengths) (readLengths T lengths) :=
  .bind (readMany_inStep hbit 4 20) fun pre => .bind (buildM_inStep pre) fun pretree =>
    lengthsLoop_inStep hbit pretree lengths.length 0 lengths

theorem readVerbatim_inStep (aligned : Option Huff) (eb : Nat) :
    InStep R (readVerbatim S aligned eb) (readVerbatim T aligned eb) := by
  cases aligned with
  | none => exact readBits_inStep hbit eb
  | some h =>
    refine .ite (.bind (readBits_inStep hbit _) fun hi => ?_) (readBits_inStep hbit eb)
    exact .bind (decodeM_inStep hbit h) fun lo => .pure _

theorem matchOffset_inStep (aligned : Option Huff) (slot : Nat) (w : Window) :
    InStep R (matchOffset S aligned slot w) (matchOffset T aligned slot w) := by
  unfold matchOffset
  refine .ite (.pure _) (.ite (.pure _) (.ite (.pure _) ?_))
  cases extraBits[slot]? with
  | none => exact .throw _
  | some eb =>
    cases positionBase[slot]? with
    | none => exact .throw _
    | some base => exact .bind (readVerbatim_inStep hbit aligned eb) fun v => .pure _

theorem matchLength_inStep (length : Huff) (lenHeader : Nat) :
    InStep R (matchLength S length lenHeader) (matchLength T length lenHeader) :=
  .ite (.bind (decodeM_inStep hbit length) fun _ => .pure _) (.pure _)

theorem decodeMatch_inStep (length : Huff) (aligned : Option Huff) (stop lenHeader slot : Nat) (w : Window) :
    InStep R (decodeMatch S length aligned stop lenHeader slot w)
      (decodeMatch T length aligned stop lenHeader slot w) :=
  .bind (matchLength_inStep hbit length lenHeader) fun _ =>
    .bind (matchOffset_inStep hbit aligned slot w) fun _ => .pure _

theorem decodeSymbol_inStep (main length : Huff) (aligned : Option Huff) (stop : Nat) (w : Window) :
    InStep R (decodeSymbol S main length aligned stop w) (decodeSymbol T main length aligned stop w) := by
  unfold decodeSymbol
  refine .bind (decodeM_inStep hbit main) fun sym => ?_
  split
  · exact .pure _
  · exact decodeMatch_inStep hbit length aligned stop _ _ w

theorem symbolsLoop_inStep (main length : Huff) (aligned : Option Huff) (stop fuel : Nat) (w : Window) :
    InStep R (symbolsLoop S main length aligned stop fuel w) (symbolsLoop T main length aligned stop fuel w) := by
  induction fuel generalizing w with
  | zero =>
    unfold symbolsLoop
    exact .ite (.pure _) (.throw _)
  | succ fuel ih =>
    unfold symbolsLoop
    exact .ite (.pure _) (.bind (decodeSymbol_inStep hbit main length aligned stop w) ih)

theorem alignedTree_inStep (isAligned : Bool) : InStep R (alignedTree S isAligned) (alignedTree T isAligned) :=
  .ite (.bind (readMany_inStep hbit 3 8) fun l => .bind (buildM_inStep l) fun _ => .pure _) (.pure _)

theorem compressedBlock_inStep (isAligned : Bool) (stop : Nat) (st : LzxState) :
    InStep R (compressedBlock S isAligned stop st) (compressedBlock T isAligned stop st) := by
  refine .bind (alignedTree_inStep hbit isAligned) fun aligned => ?_
  refine .bind (readLengths_inStep hbit _) fun chars => .bind (readLengths_inStep hbit _) fun headers => ?_
  refine .bind (buildM_inStep _) fun main => .bind (readLengths_inStep hbit _) fun lenLens => ?_
  refine .bind (buildM_inStep _) fun length => ?_
  exact .bind (symbolsLoop_inStep hbit main length aligned stop _ _) fun window => .pure _

theorem blockHeader_inStep : InStep R (blockHeader S) (blockHeader T) := by
  refine .bind (readBits_inStep hbit 3) fun blockType => .bind (readBits_inStep hbit 1) fun flag => ?_
  exact .bind (.ite (.pure _) (readBits_inStep hbit 16)) fun size => .pure _

end Bits

/-! ## The reader and its position -/

section At

open BitReader Csolver.Lib

variable {data : List Byte} {r r' : BitReader} {p : Nat}

theorem refillLoop_keeps (fuel : Nat) (r : BitReader) :
    (refillLoop fuel r).data = r.data ∧ (refillLoop fuel r).pos % 2 = r.pos % 2 ∧
      8 * (refillLoop fuel r).pos + r.bitcount = 8 * r.pos + (refillLoop fuel r).bitcount := by
  induction fuel generalizing r with
  | zero => exact ⟨rfl, rfl, rfl⟩
  | succ fuel ih =>
    rw [refillLoop]
    split
    · next h =>
      obtain ⟨hdata, heven, hpos⟩ := ih (r.takeWord h.1)
      have hnext : (r.takeWord h.1).pos = r.pos + 2 := rfl
      have hcount : (r.takeWord h.1).bitcount = r.bitcount + 16 := rfl
      exact ⟨hdata, by omega, by omega⟩
    · exact ⟨rfl, rfl, rfl⟩

theorem readBit_keeps {b : Bool} (h : r.readBit = some (b, r')) :
    r'.data = r.data ∧ r'.pos % 2 = r.pos % 2 ∧ 8 * r'.pos + r.bitcount = 8 * r.pos + r'.bitcount + 1 := by
  obtain ⟨hdata, heven, hpos⟩ := refillLoop_keeps 2 r
  unfold BitReader.readBit at h
  split_ifs at h with h0 h1
  · obtain rfl : r.refill.shiftOut.2 = r' := congrArg Prod.snd (Option.some.inj h)
    have hcount : r.refill.shiftOut.2.bitcount = (refillLoop 2 r).bitcount - 1 := rfl
    have hcur : r.refill.shiftOut.2.pos = (refillLoop 2 r).pos := rfl
    have hsome : (refillLoop 2 r).bitcount ≠ 0 := h1
    exact ⟨hdata, by omega, by omega⟩
  · obtain rfl : r.shiftOut.2 = r' := congrArg Prod.snd (Option.some.inj h)
    have hcount : r.shiftOut.2.bitcount = r.bitcount - 1 := rfl
    have hcur : r.shiftOut.2.pos = r.pos := rfl
    exact ⟨rfl, rfl, by omega⟩

theorem At.readBit (h : At data r p) : SameRead (At data) r.readBit ((position data).readBit p) := by
  have hbits := h.bits
  rcases readBit_eq r with ⟨hnil, hnone⟩ | ⟨b, r', hread, hcons⟩
  · rw [hnil, eq_comm, List.drop_eq_nil_iff] at hbits
    rw [hnone, position_readBit, List.getElem?_eq_none hbits]
    trivial
  · rw [hcons] at hbits
    have hget : (dataBits data)[p]? = some b := by
      rw [← Nat.add_zero p, ← List.getElem?_drop, ← hbits]
      rfl
    have hrest : r'.bits = (dataBits data).drop (p + 1) := by
      rw [← List.drop_drop, ← hbits]
      rfl
    obtain ⟨hdata, heven, hpos⟩ := readBit_keeps hread
    have hat := h.pos
    rw [hread, position_readBit, hget]
    exact ⟨rfl, hdata.trans h.same, heven.trans h.even, by omega, hrest⟩

theorem dataBits_drop_words (data : List Byte) (k : Nat) :
    dataBits (data.drop (2 * k)) = (dataBits data).drop (16 * k) := by
  induction k generalizing data with
  | zero => rfl
  | succ k ih =>
    match data with
    | [] => simp [dataBits]
    | [_] =>
      rw [Nat.mul_succ, List.drop_eq_nil_of_le (by simp)]
      simp [dataBits]
    | a :: b :: rest =>
      have hlen : (codeBits (u16OfLeBytes a b) 16).length = 16 := length_codeBits _ _
      rw [Nat.mul_succ, Nat.mul_succ, dataBits, List.drop_append, hlen,
        List.drop_eq_nil_of_le (hlen.le.trans (Nat.le_add_left _ _)), List.nil_append, Nat.add_sub_cancel]
      exact ih rest

/-- A reader between words, with nothing buffered. -/
structure AtByte (data : List Byte) (r : BitReader) (p : Nat) : Prop where
  same : r.data = data
  empty : r.bitcount = 0
  pos : p = 8 * r.pos

theorem AtByte.at (h : AtByte data r p) (heven : r.pos % 2 = 0) : At data r p := by
  have hpos := h.pos
  obtain ⟨k, hk⟩ : ∃ k, r.pos = 2 * k := ⟨r.pos / 2, by omega⟩
  refine ⟨h.same, heven, by rw [h.empty]; exact hpos, ?_⟩
  rw [BitReader.bits, buffered, h.empty, h.same, hk, dataBits_drop_words, hpos, hk, ← Nat.mul_assoc]
  rfl

theorem At.align_iff (h : At data r p) : 8 * (alignTo16 r).pos = wordUp p ↔ r.bitcount < 16 := by
  have hpos := h.pos
  have heven := h.even
  have hsame : (alignTo16 r).pos = r.pos := rfl
  unfold wordUp
  omega

theorem At.align (h : At data r p) (hcount : r.bitcount < 16) :
    AtByte data (alignTo16 r) ((position data).align p) := ⟨h.same, rfl, (h.align_iff.mpr hcount).symm⟩

theorem AtByte.readByte (h : AtByte data r p) :
    SameRead (AtByte data) (readByteAligned r) ((position data).readByte p) := by
  have hdiv : p / 8 = r.pos := by
    have hpos := h.pos
    omega
  rw [readByteAligned, position_readByte, hdiv, h.same]
  cases data[r.pos]? with
  | none => trivial
  | some b => exact ⟨rfl, h.same, h.empty, by rw [h.pos]; rfl⟩

theorem AtByte.readU32 (h : AtByte data r p) :
    SameRead (AtByte data) (readU32Aligned r) ((position data).readU32 p) := by
  have hdiv : p / 8 = r.pos := by
    have hpos := h.pos
    omega
  rw [readU32Aligned, position_readU32, hdiv, h.same]
  cases u32At data r.pos with
  | none => trivial
  | some b => exact ⟨rfl, h.same, h.empty, by rw [h.pos]; rfl⟩

end At

end Lzx

/-! ## When the reader switches between bits and bytes without loss

Before the bytes of an uncompressed block the reader forgets what it has buffered, and after them it does not look for
the next word. So an uncompressed block is read right if there is no whole word in the buffer when its bytes begin, and
if it has an even number of bytes or is the last one.
-/

namespace Lzx

open Csolver.Lib

/-- The runs of `decompress`, up to the beginning of a block. -/
inductive Reached (input : List Byte) (outSize : Nat) : LzxState → BitReader → Prop
  | start : Reached input outSize start (.new input)
  | step {st st' : LzxState} {r r' : BitReader} (h : Reached input outSize st r)
      (hmore : st.window.out.length < outSize) (hstep : blockStep reader outSize st r = .ok (st', r')) :
      Reached input outSize st' r'

/-- What holds of every uncompressed block, after its header. -/
def EveryRaw (input : List Byte) (outSize : Nat) (P : LzxState → Nat → BitReader → Prop) : Prop :=
  ∀ st r, Reached input outSize st r → st.window.out.length < outSize →
    ∀ size r', blockHeader reader r = .ok ((3, size), r') → P st (blockEnd outSize size st) r'

/-- The end of the bytes of an uncompressed block. -/
def rawEnd (stop : Nat) (st : LzxState) (r : BitReader) : Nat :=
  (alignTo16 r).pos + 12 + (stop - st.window.out.length)

/-- The bytes begin at the first word with no bit consumed, and the bits after them at the next word. -/
def RightAt (outSize : Nat) (st : LzxState) (stop : Nat) (r : BitReader) : Prop :=
  8 * (alignTo16 r).pos = wordUp (consumed r) ∧
    ∀ st' r', uncompressedBlock reader stop st r = .ok (st', r') → stop < outSize →
      consumed r' = wordUp (8 * rawEnd stop st r)

/-- There is no whole word in the buffer; and the bytes are even in number, if they are there and more is to follow. -/
def MeetsAt (outSize : Nat) (st : LzxState) (stop : Nat) (r : BitReader) : Prop :=
  r.bitcount < 16 ∧
    (stop < outSize → rawEnd stop st r ≤ r.data.length → (stop - st.window.out.length) % 2 = 0)

/-! ## One block -/

section Raw

variable {data : List Byte} {r r' : BitReader} {p : Nat} {st st' : LzxState} {stop outSize : Nat}

theorem readByteM_inStep : InStep (AtByte data) (readByteM reader) (readByteM (position data)) :=
  .ofRead (fun _ _ h => h.readByte) _

theorem readU32M_inStep : InStep (AtByte data) (readU32M reader) (readU32M (position data)) :=
  .ofRead (fun _ _ h => h.readU32) _

theorem rawBytes_inStep (n : Nat) (out : List Byte) :
    InStep (AtByte data) (rawBytes reader n out) (rawBytes (position data) n out) := by
  induction n generalizing out with
  | zero => exact .pure out
  | succ n ih => exact .bind readByteM_inStep fun b => ih _

theorem rawBody_inStep (stop : Nat) (st : LzxState) :
    InStep (AtByte data) (rawBody reader stop st) (rawBody (position data) stop st) :=
  .bind readU32M_inStep fun _ => .bind readU32M_inStep fun _ => .bind readU32M_inStep fun _ =>
    .bind (rawBytes_inStep _ _) fun _ => .pure _

theorem readU32M_eq (r : BitReader) : (r.pos + 4 ≤ r.data.length ∧ ∃ n, readU32M reader r = .ok (n, advance 4 r)) ∨
    (r.data.length < r.pos + 4 ∧ readU32M reader r = .error .underrun) := by
  have hread : readU32M reader r = (readU32Aligned r).elim (.error .underrun) .ok := rfl
  by_cases h : r.pos + 4 ≤ r.data.length
  · obtain ⟨n, hn⟩ : ∃ n, u32At r.data r.pos = some n := ⟨_, if_pos h⟩
    refine .inl ⟨h, n, ?_⟩
    rw [hread, readU32Aligned, hn]
    rfl
  · refine .inr ⟨by omega, ?_⟩
    rw [hread, readU32Aligned, u32At, if_neg h]
    rfl

theorem advance_advance (m n : Nat) (r : BitReader) : advance n (advance m r) = advance (m + n) r := by
  unfold advance
  simp only [BitReader.mk.injEq, true_and, and_true]
  omega

theorem rawBytes_eq (n : Nat) (out : List Byte) (r : BitReader) (h : r.pos ≤ r.data.length) :
    rawBytes reader n out r = if r.pos + n ≤ r.data.length then
      .ok (out ++ (r.data.drop r.pos).take n, advance n r) else .error .underrun := by
  induction n generalizing out r with
  | zero =>
    rw [Nat.add_zero, if_pos h, List.take_zero, List.append_nil]
    rfl
  | succ n ih =>
    change (readByteM reader r).bind (fun p => rawBytes reader n (out ++ [p.1]) p.2) = _
    have hread : readByteM reader r = ((r.data[r.pos]?).map fun b => (b, advance 1 r)).elim (.error .underrun) .ok := rfl
    rw [hread]
    by_cases hlt : r.pos < r.data.length
    · rw [List.getElem?_eq_getElem hlt]
      change rawBytes reader n (out ++ [r.data[r.pos]]) (advance 1 r) = _
      rw [ih _ _ (show r.pos + 1 ≤ r.data.length from hlt)]
      have hpos : (advance 1 r).pos + n = r.pos + (n + 1) := by
        change r.pos + 1 + n = _
        omega
      have hdata : (advance 1 r).data = r.data := rfl
      rw [hpos, hdata, List.append_assoc, List.drop_eq_getElem_cons hlt, List.take_succ_cons]
      rw [advance_advance, Nat.add_comm 1 n]
      rfl
    · rw [List.getElem?_eq_none (Nat.not_lt.mp hlt), if_neg (by omega)]
      rfl

theorem rawBody_eq (stop : Nat) (st : LzxState) (r : BitReader) :
    (r.pos + 12 + (stop - st.window.out.length) ≤ r.data.length ∧ ∃ r0 r1 r2, rawBody reader stop st r =
      .ok ({ st with window := ⟨st.window.out ++ (r.data.drop (r.pos + 12)).take (stop - st.window.out.length),
        r0, r1, r2⟩ }, advance (12 + (stop - st.window.out.length)) r)) ∨
    (r.data.length < r.pos + 12 + (stop - st.window.out.length) ∧ rawBody reader stop st r = .error .underrun) := by
  set n := stop - st.window.out.length with hn
  have hdef : rawBody reader stop st r = (readU32M reader r).bind fun p0 => (readU32M reader p0.2).bind fun p1 =>
      (readU32M reader p1.2).bind fun p2 => (rawBytes reader n st.window.out p2.2).bind fun q =>
        .ok ({ st with window := ⟨q.1, p0.1, p1.1, p2.1⟩ }, q.2) := rfl
  have hpos (k : Nat) : (advance k r).pos = r.pos + k := rfl
  have hdata (k : Nat) : (advance k r).data = r.data := rfl
  rcases readU32M_eq r with ⟨h0, r0, hr0⟩ | ⟨h0, hr0⟩
  swap
  · exact .inr ⟨by omega, by rw [hdef, hr0]; rfl⟩
  rcases readU32M_eq (advance 4 r) with ⟨h1, r1, hr1⟩ | ⟨h1, hr1⟩
  swap
  · rw [hpos, hdata] at h1
    exact .inr ⟨by omega, by rw [hdef, hr0, Except.bind, hr1]; rfl⟩
  rcases readU32M_eq (advance 8 r) with ⟨h2, r2, hr2⟩ | ⟨h2, hr2⟩
  swap
  · rw [hpos, hdata] at h2
    refine .inr ⟨by omega, ?_⟩
    rw [hdef, hr0, Except.bind, hr1, Except.bind, advance_advance, hr2]
    rfl
  rw [hpos, hdata] at h2
  have hrun : rawBody reader stop st r = (rawBytes reader n st.window.out (advance 12 r)).bind fun q =>
      .ok ({ st with window := ⟨q.1, r0, r1, r2⟩ }, q.2) := by
    rw [hdef, hr0, Except.bind, hr1, Except.bind, advance_advance, hr2, Except.bind, advance_advance]
  rw [hrun, rawBytes_eq n st.window.out (advance 12 r) (by rw [hpos, hdata]; omega), hpos, hdata]
  by_cases hfit : r.pos + 12 + n ≤ r.data.length
  · refine .inl ⟨hfit, r0, r1, r2, ?_⟩
    rw [if_pos hfit, ← advance_advance]
    rfl
  · refine .inr ⟨by omega, ?_⟩
    rw [if_neg hfit]
    rfl

theorem uncompressedBlock_eq (stop : Nat) (st : LzxState) (r : BitReader) :
    uncompressedBlock reader stop st r = rawBody reader stop st (alignTo16 r) := by
  change (rawBody reader stop st (alignTo16 r)).bind (fun q => .ok (q.1, q.2)) = _
  cases rawBody reader stop st (alignTo16 r) <;> rfl

theorem rightAt_iff (h : At data r p) : RightAt outSize st stop r ↔ MeetsAt outSize st stop r := by
  unfold RightAt MeetsAt
  rw [h.consumed_eq, h.align_iff, and_congr_right_iff]
  intro _
  have hsame : (alignTo16 r).pos = r.pos := rfl
  have heven := h.even
  rw [uncompressedBlock_eq]
  rcases rawBody_eq stop st (alignTo16 r) with ⟨hfit, r0, r1, r2, hrun⟩ | ⟨hover, hrun⟩
  · rw [hrun]
    have hend (st' : LzxState) (r' : BitReader) (heq : r' = advance (12 + (stop - st.window.out.length)) (alignTo16 r)) :
        consumed r' = 8 * rawEnd stop st r := by
      rw [heq]
      change 8 * ((alignTo16 r).pos + (12 + (stop - st.window.out.length))) - 0 = _
      unfold rawEnd
      omega
    have hup : 8 * rawEnd stop st r = wordUp (8 * rawEnd stop st r) ↔ (stop - st.window.out.length) % 2 = 0 := by
      unfold wordUp rawEnd
      omega
    constructor
    · intro hright hmore _
      have heq := hright _ _ rfl hmore
      rw [hend st _ rfl] at heq
      exact hup.mp heq
    · intro hmeets st' r' hok hmore
      rw [hend st r' (congrArg Prod.snd (Except.ok.inj hok)).symm]
      exact hup.mpr (hmeets hmore hfit)
  · constructor
    · intro _ _ hfit
      change (alignTo16 r).data.length < rawEnd stop st r at hover
      exact absurd hfit (Nat.not_le.mpr hover)
    · intro _ st' r' hok
      rw [hrun] at hok
      cases hok

/-- The results of a block on the two sources. What is left of the input counts if there is more to decode. -/
def SameStep (data : List Byte) (outSize : Nat) :
    Except LzxError (LzxState × BitReader) → Except LzxError (LzxState × Nat) → Prop
  | .ok (st, r), .ok (st', p) => st = st' ∧ (st.window.out.length < outSize → At data r p)
  | .error e, .error e' => e = e'
  | _, _ => False

theorem SameStep.of_sameResult {x : Except LzxError (LzxState × BitReader)} {y : Except LzxError (LzxState × Nat)}
    (h : SameResult (At data) x y) : SameStep data outSize x y := by
  cases x <;> cases y
  · exact h
  · exact h
  · exact h
  · exact ⟨h.1, fun _ => h.2⟩

theorem uncompressedBlock_same (h : At data r p) (hlen : st.window.out.length ≤ stop) (hmeets : MeetsAt outSize st stop r) :
    SameStep data outSize (uncompressedBlock reader stop st r) (uncompressedBlock (position data) stop st p) := by
  have hbyte := h.align hmeets.1
  have hbody := rawBody_inStep stop st _ _ hbyte
  have hpos : uncompressedBlock (position data) stop st p =
      (rawBody (position data) stop st ((position data).align p)).bind fun q => .ok (q.1, wordUp q.2) := rfl
  rw [uncompressedBlock_eq, hpos]
  rcases rawBody_eq stop st (alignTo16 r) with ⟨hfit, r0, r1, r2, hrun⟩ | ⟨hover, hrun⟩
  · rw [hrun] at hbody ⊢
    cases hq : rawBody (position data) stop st ((position data).align p) with
    | error e => rw [hq] at hbody; exact hbody.elim
    | ok q =>
      rw [hq] at hbody
      obtain ⟨heq, hat⟩ := hbody
      refine ⟨heq, fun hmore => ?_⟩
      -- the block ends where the output says, so the number of its bytes is even
      have hsize : (st.window.out ++ ((alignTo16 r).data.drop ((alignTo16 r).pos + 12)).take
          (stop - st.window.out.length)).length = stop := by
        rw [List.length_append, List.length_take, List.length_drop]
        omega
      have heven := hmeets.2 (hsize ▸ hmore) (by rw [← h.same] at hat; exact hfit)
      have hr := h.even
      have hword : (advance (12 + (stop - st.window.out.length)) (alignTo16 r)).pos % 2 = 0 := by
        change (r.pos + (12 + (stop - st.window.out.length))) % 2 = 0
        omega
      have hup : wordUp q.2 = q.2 := by
        have hp := hat.pos
        unfold wordUp
        omega
      change At data _ (wordUp q.2)
      rw [hup]
      exact hat.at hword
  · rw [hrun] at hbody ⊢
    cases hq : rawBody (position data) stop st ((position data).align p) with
    | error e => rw [hq] at hbody; exact hbody
    | ok q => rw [hq] at hbody; exact hbody.elim

theorem blockBody_same (header : Nat × Nat) (h : At data r p) (hmore : st.window.out.length < outSize)
    (hmeets : header.1 = 3 → MeetsAt outSize st (blockEnd outSize header.2 st) r) :
    SameStep data outSize (blockBody reader outSize header st r) (blockBody (position data) outSize header st p) := by
  have hbit (s : BitReader) (q : Nat) (hat : At data s q) : SameRead (At data) (reader.readBit s)
      ((position data).readBit q) := hat.readBit
  have hlen : st.window.out.length ≤ blockEnd outSize header.2 st := le_min (Nat.le_add_right _ _) hmore.le
  unfold blockBody
  split_ifs with h1 h2 h3
  · exact .of_sameResult (compressedBlock_inStep hbit false _ st r p h)
  · exact .of_sameResult (compressedBlock_inStep hbit true _ st r p h)
  · exact uncompressedBlock_same h hlen (hmeets h3)
  · rfl

theorem blockStep_same (h : At data r p) (hmore : st.window.out.length < outSize)
    (hmeets : ∀ size r', blockHeader reader r = .ok ((3, size), r') →
      MeetsAt outSize st (blockEnd outSize size st) r') :
    SameStep data outSize (blockStep reader outSize st r) (blockStep (position data) outSize st p) := by
  have hheader := blockHeader_inStep (fun s q hat => hat.readBit) r p h (S := reader) (T := position data)
  change SameStep data outSize ((blockHeader reader r).bind fun q => blockBody reader outSize q.1 st q.2)
    ((blockHeader (position data) p).bind fun q => blockBody (position data) outSize q.1 st q.2)
  cases hr : blockHeader reader r with
  | error e =>
    cases hp : blockHeader (position data) p with
    | error e' => rw [hr, hp] at hheader; exact hheader
    | ok q => rw [hr, hp] at hheader; exact hheader.elim
  | ok q =>
    cases hp : blockHeader (position data) p with
    | error e' => rw [hr, hp] at hheader; exact hheader.elim
    | ok q' =>
      rw [hr, hp] at hheader
      obtain ⟨⟨ty, size⟩, r'⟩ := q
      obtain ⟨header, p'⟩ := q'
      obtain ⟨rfl, hat⟩ := hheader
      exact blockBody_same (ty, size) hat hmore fun h3 => hmeets size r' (by rw [hr, ← h3])

end Raw

/-! ## Runs -/

section Runs

variable {input : List Byte} {outSize : Nat}

theorem At.header {r r' : BitReader} {p : Nat} {header : Nat × Nat} (h : At input r p)
    (hr : blockHeader reader r = .ok (header, r')) : ∃ p', At input r' p' := by
  have hheader := blockHeader_inStep (fun s q hat => hat.readBit) r p h (S := reader) (T := position input)
  rw [hr] at hheader
  cases hp : blockHeader (position input) p with
  | error e => rw [hp] at hheader; exact hheader.elim
  | ok q => rw [hp] at hheader; exact ⟨q.2, hheader.2⟩

theorem Reached.at {P : LzxState → Nat → BitReader → Prop}
    (hP : ∀ st stop r p, At input r p → P st stop r → MeetsAt outSize st stop r)
    (hevery : EveryRaw input outSize P) {st : LzxState} {r : BitReader} (h : Reached input outSize st r)
    (hmore : st.window.out.length < outSize) : ∃ p, At input r p := by
  induction h with
  | start => exact ⟨0, rfl, rfl, rfl, rfl⟩
  | @step st st' r r' hprev hlt hstep ih =>
    obtain ⟨p, hat⟩ := ih hlt
    have hmeets (size : Nat) (r1 : BitReader) (hr : blockHeader reader r = .ok ((3, size), r1)) :
        MeetsAt outSize st (blockEnd outSize size st) r1 := by
      obtain ⟨p1, hat1⟩ := hat.header hr
      exact hP st _ r1 p1 hat1 (hevery st r hprev hlt size r1 hr)
    have hsame := blockStep_same hat hlt hmeets
    rw [hstep] at hsame
    cases hq : blockStep (position input) outSize st p with
    | error e => rw [hq] at hsame; exact hsame.elim
    | ok q =>
      rw [hq] at hsame
      exact ⟨q.2, hsame.2 hmore⟩

theorem blocks_same (hmeets : EveryRaw input outSize (MeetsAt outSize)) (fuel : Nat) (st : LzxState) (r : BitReader)
    (p : Nat) (hreached : Reached input outSize st r) (hat : st.window.out.length < outSize → At input r p) :
    (blocks reader outSize fuel st r).map (fun q => q.1) =
      (blocks (position input) outSize fuel st p).map fun q => q.1 := by
  induction fuel generalizing st r p with
  | zero =>
    unfold blocks
    split <;> rfl
  | succ fuel ih =>
    unfold blocks
    by_cases hmore : st.window.out.length < outSize
    · rw [if_neg (Nat.not_le.mpr hmore), if_neg (Nat.not_le.mpr hmore)]
      change ((blockStep reader outSize st r).bind fun q => blocks reader outSize fuel q.1 q.2).map _ =
        ((blockStep (position input) outSize st p).bind fun q => blocks (position input) outSize fuel q.1 q.2).map _
      have hsame := blockStep_same (hat hmore) hmore (hmeets st r hreached hmore)
      cases hr : blockStep reader outSize st r with
      | error e =>
        cases hp : blockStep (position input) outSize st p with
        | error e' =>
          rw [hr, hp] at hsame
          exact congrArg Except.error hsame
        | ok q => rw [hr, hp] at hsame; exact hsame.elim
      | ok q =>
        cases hp : blockStep (position input) outSize st p with
        | error e' => rw [hr, hp] at hsame; exact hsame.elim
        | ok q' =>
          rw [hr, hp] at hsame
          obtain ⟨st', r'⟩ := q
          obtain ⟨st'', p'⟩ := q'
          obtain ⟨rfl, hnext⟩ := hsame
          exact ih st' r' p' (hreached.step hmore hr) hnext
    · rw [if_pos (Nat.not_lt.mp hmore), if_pos (Nat.not_lt.mp hmore)]
      rfl

theorem decompress_eq_meaning (hmeets : EveryRaw input outSize (MeetsAt outSize)) :
    decompress input outSize = meaning input outSize := by
  have h := blocks_same hmeets (fuelFor input) start (.new input) 0 .start fun _ => ⟨rfl, rfl, rfl, rfl⟩
  unfold decompress meaning decompressWith
  cases hr : blocks reader outSize (fuelFor input) start (.new input) with
  | error e =>
    cases hp : blocks (position input) outSize (fuelFor input) start 0 with
    | error e' =>
      rw [hr, hp] at h
      exact congrArg Except.error (Except.error.inj h)
    | ok q => rw [hr, hp] at h; cases h
  | ok q =>
    cases hp : blocks (position input) outSize (fuelFor input) start 0 with
    | error e' => rw [hr, hp] at h; cases h
    | ok q' =>
      rw [hr, hp] at h
      have heq : q.1 = q'.1 := Except.ok.inj h
      change Except.ok (undoE8 (q.1.window.out.take outSize)) = Except.ok (undoE8 (q'.1.window.out.take outSize))
      rw [heq]

theorem everyRaw_right_iff :
    EveryRaw input outSize (RightAt outSize) ↔ EveryRaw input outSize (MeetsAt outSize) := by
  constructor
  · intro hright st r hreached hmore size r' hr
    obtain ⟨p, hat⟩ := hreached.at (fun st stop r p h => (rightAt_iff h).mp) hright hmore
    obtain ⟨p', hat'⟩ := hat.header hr
    exact (rightAt_iff hat').mp (hright st r hreached hmore size r' hr)
  · intro hmeets st r hreached hmore size r' hr
    obtain ⟨p, hat⟩ := hreached.at (fun st stop r p h => id) hmeets hmore
    obtain ⟨p', hat'⟩ := hat.header hr
    exact (rightAt_iff hat').mpr (hmeets st r hreached hmore size r' hr)

end Runs

end Lzx

end Csolver.Elf
