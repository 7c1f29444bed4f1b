import Csolver.Elf.Bytes
import Mathlib.Tactic.FinCases

/-!
# The bit stream of LZX and XPRESS (`crates/elf/src/lzx.rs`, `wim.rs`)

Bits are consumed from 16-bit little-endian words, the most significant one first. The buffer holds up to two words,
left-aligned; the two formats read bytes past it in different ways.
-/

namespace Csolver.Elf

/-- `BitReader`. What is not buffered is zero. -/
structure BitReader where
  data : List Byte
  pos : Nat
  bitbuf : BitVec 32
  bitcount : Nat
  le : bitcount ≤ 32
  low : ∀ i < 32 - bitcount, bitbuf.getLsbD i = false

namespace BitReader

theorem le_of_empty : 0 ≤ 32 := by decide

theorem low_of_empty : ∀ i < 32 - 0, (0 : BitVec 32).getLsbD i = false := by simp

def new (data : List Byte) : BitReader where
  data := data
  pos := 0
  bitbuf := 0
  bitcount := 0
  le := le_of_empty
  low := low_of_empty

def wordAt (data : List Byte) (pos : Nat) : Nat := u16OfLeBytes (data.getD pos 0) (data.getD (pos + 1) 0)

def takeWord (r : BitReader) (h : r.bitcount ≤ 16) : BitReader where
  data := r.data
  pos := r.pos + 2
  bitbuf := r.bitbuf ||| BitVec.ofNat 32 (wordAt r.data r.pos) <<< (16 - r.bitcount)
  bitcount := r.bitcount + 16
  le := by omega
  low := by
    intro i hi
    have hbuf := r.low i (by omega)
    simp only [BitVec.getLsbD_or, hbuf, BitVec.getLsbD_shiftLeft, Bool.false_or]
    have hlt : i < 16 - r.bitcount := by omega
    simp [hlt]

/-- The loop of `refill`: every turn adds a word, so that there are no more than two. -/
def refillLoop : Nat → BitReader → BitReader
  | 0, r => r
  | fuel + 1, r =>
    if h : r.bitcount ≤ 16 ∧ r.pos + 2 ≤ r.data.length then refillLoop fuel (r.takeWord h.1) else r

def refill (r : BitReader) : BitReader := refillLoop 2 r

/-- Take the first bit of the buffer. -/
def shiftOut (r : BitReader) : Bool × BitReader :=
  (r.bitbuf.getLsbD 31,
    { r with
      bitbuf := r.bitbuf <<< 1
      bitcount := r.bitcount - 1
      le := (Nat.sub_le _ _).trans r.le
      low := by
        intro i hi
        have hle := r.le
        rw [BitVec.getLsbD_shiftLeft]
        cases i with
        | zero => simp
        | succ i =>
          rw [Nat.add_sub_cancel, r.low i (by omega)]
          simp })

def readBit (r : BitReader) : Option (Bool × BitReader) :=
  if r.bitcount = 0 then
    if r.refill.bitcount = 0 then none else some r.refill.shiftOut
  else some r.shiftOut

/-- `read_bits`, from the bits that were read before. -/
def readBitsFrom (v : Nat) : Nat → BitReader → Option (Nat × BitReader)
  | 0, r => some (v, r)
  | n + 1, r => do
    let (b, r) ← r.readBit
    readBitsFrom ((2 * v + b.toNat) % 2 ^ 32) n r

def readBits (n : Nat) (r : BitReader) : Option (Nat × BitReader) := readBitsFrom 0 n r

/-! ## The bits that are left -/

/-- The low bits of a number, the most significant one first. -/
def codeBits (c : Nat) : Nat → List Bool
  | 0 => []
  | k + 1 => c.testBit k :: codeBits c k

/-- The bits of the whole words of a string. -/
def dataBits : List Byte → List Bool
  | a :: b :: rest => codeBits (u16OfLeBytes a b) 16 ++ dataBits rest
  | _ => []

def buffered (r : BitReader) : List Bool := (List.range r.bitcount).map fun i => r.bitbuf.getLsbD (31 - i)

def bits (r : BitReader) : List Bool := r.buffered ++ dataBits (r.data.drop r.pos)

@[simp] theorem length_codeBits (c k : Nat) : (codeBits c k).length = k := by
  induction k with
  | zero => rfl
  | succ k ih => rw [codeBits, List.length_cons, ih]

theorem codeBits_succ (c k : Nat) (b : Bool) : codeBits (2 * c + b.toNat) (k + 1) = codeBits c k ++ [b] := by
  induction k with
  | zero => cases b <;> simp [codeBits]
  | succ k ih =>
    rw [codeBits, ih, codeBits, List.cons_append]
    congr 1
    rw [Nat.testBit_succ]
    congr 1
    have hdiv : (2 * c + b.toNat) / 2 = c := by cases b <;> (simp; try omega)
    rw [hdiv]

theorem shiftOut_buffered {r : BitReader} (h : r.bitcount ≠ 0) :
    r.buffered = r.shiftOut.1 :: r.shiftOut.2.buffered := by
  obtain ⟨k, hk⟩ := Nat.exists_eq_succ_of_ne_zero h
  have hle := r.le
  simp only [buffered, shiftOut, hk, List.range_succ_eq_map, List.map_cons, List.map_map, Nat.sub_zero, List.cons.injEq,
    true_and, Nat.succ_eq_add_one, Nat.add_sub_cancel]
  refine List.map_congr_left fun i hi => ?_
  have hik := List.mem_range.mp hi
  simp only [Function.comp, BitVec.getLsbD_shiftLeft]
  rw [show 31 - i - 1 = 31 - (i + 1) by omega]
  simp
  omega

theorem codeBits_eq_map (c k : Nat) : codeBits c k = (List.range k).map fun i => c.testBit (k - 1 - i) := by
  induction k with
  | zero => rfl
  | succ k ih =>
    rw [codeBits, ih, List.range_succ_eq_map, List.map_cons, List.map_map]
    congr 1
    refine List.map_congr_left fun i hi => ?_
    rw [Function.comp, show k + 1 - 1 - i.succ = k - 1 - i by omega]

theorem wordAt_lt (data : List Byte) (pos : Nat) : wordAt data pos < 2 ^ 16 := u16OfLeBytes_lt _ _

theorem takeWord_buffered (r : BitReader) (h : r.bitcount ≤ 16) :
    (r.takeWord h).buffered = r.buffered ++ codeBits (wordAt r.data r.pos) 16 := by
  have hw := wordAt_lt r.data r.pos
  simp only [buffered, takeWord, List.range_add, List.map_append, List.map_map, codeBits_eq_map]
  congr 1
  · refine List.map_congr_left fun i hi => ?_
    have hic := List.mem_range.mp hi
    -- the word lies below what is buffered
    have hzero : (BitVec.ofNat 32 (wordAt r.data r.pos)).getLsbD (31 - i - (16 - r.bitcount)) = false := by
      rw [BitVec.getLsbD_ofNat,
        Nat.testBit_lt_two_pow (lt_of_lt_of_le hw (Nat.pow_le_pow_right (by decide) (by omega))), Bool.and_false]
    rw [BitVec.getLsbD_or, BitVec.getLsbD_shiftLeft, hzero, Bool.and_false, Bool.or_false]
  · refine List.map_congr_left fun j hj => ?_
    have hj16 := List.mem_range.mp hj
    have hbuf := r.low (31 - (r.bitcount + j)) (by omega)
    have hidx : 31 - (r.bitcount + j) - (16 - r.bitcount) = 16 - 1 - j := by omega
    rw [Function.comp, BitVec.getLsbD_or, hbuf, BitVec.getLsbD_shiftLeft, hidx, BitVec.getLsbD_ofNat,
      decide_eq_true (by omega : 31 - (r.bitcount + j) < 32), decide_eq_false (by omega), decide_eq_true (by omega)]
    simp

theorem dataBits_drop {data : List Byte} {pos : Nat} (h : pos + 2 ≤ data.length) :
    dataBits (data.drop pos) = codeBits (wordAt data pos) 16 ++ dataBits (data.drop (pos + 2)) := by
  have hdrop : data.drop pos = data.getD pos 0 :: data.getD (pos + 1) 0 :: data.drop (pos + 2) := by
    rw [List.drop_eq_getElem_cons (by omega), List.drop_eq_getElem_cons (by omega : pos + 1 < data.length)]
    simp [List.getD_eq_getElem?_getD, List.getElem?_eq_getElem (by omega : pos < data.length),
      List.getElem?_eq_getElem (by omega : pos + 1 < data.length)]
  rw [hdrop, dataBits]
  rfl

theorem dataBits_short {data : List Byte} {pos : Nat} (h : ¬pos + 2 ≤ data.length) : dataBits (data.drop pos) = [] := by
  match hd : data.drop pos with
  | [] => rfl
  | [_] => rfl
  | a :: b :: rest =>
    have hlen := congrArg List.length hd
    simp only [List.length_drop, List.length_cons] at hlen
    omega

theorem takeWord_bits (r : BitReader) (h : r.bitcount ≤ 16) (hpos : r.pos + 2 ≤ r.data.length) :
    (r.takeWord h).bits = r.bits := by
  rw [bits, takeWord_buffered, List.append_assoc, bits, dataBits_drop hpos]
  rfl

theorem refillLoop_bits (fuel : Nat) (r : BitReader) : (refillLoop fuel r).bits = r.bits := by
  induction fuel generalizing r with
  | zero => rfl
  | succ fuel ih =>
    rw [refillLoop]
    split
    · next h => rw [ih, takeWord_bits r h.1 h.2]
    · rfl

theorem bits_eq_nil {r : BitReader} (h : r.bitcount = 0) (hrefill : r.refill.bitcount = 0) : r.bits = [] := by
  have hnone : ¬r.pos + 2 ≤ r.data.length := by
    intro hpos
    have hcount : r.refill.bitcount ≠ 0 := by
      have hgrow (fuel : Nat) (r : BitReader) : r.bitcount ≤ (refillLoop fuel r).bitcount := by
        induction fuel generalizing r with
        | zero => exact le_rfl
        | succ fuel ih =>
          rw [refillLoop]
          split
          · next h => exact (Nat.le_add_right _ 16).trans (ih (r.takeWord h.1))
          · exact le_rfl
      have hstep : r.refill = refillLoop 1 (r.takeWord (by omega)) := dif_pos ⟨by omega, hpos⟩
      have hle := hgrow 1 (r.takeWord (by omega))
      have hcount : (r.takeWord (by omega)).bitcount = r.bitcount + 16 := rfl
      rw [hstep]
      omega
    exact hcount hrefill
  rw [bits, dataBits_short hnone, buffered, h]
  rfl

theorem readBit_eq (r : BitReader) : (r.bits = [] ∧ r.readBit = none) ∨
    ∃ b r', r.readBit = some (b, r') ∧ r.bits = b :: r'.bits := by
  have hshift {r : BitReader} (h : r.bitcount ≠ 0) : r.bits = r.shiftOut.1 :: r.shiftOut.2.bits := by
    rw [bits, shiftOut_buffered h, List.cons_append]
    rfl
  unfold readBit
  split_ifs with h0 h1
  · exact .inl ⟨bits_eq_nil h0 h1, rfl⟩
  · exact .inr ⟨_, _, rfl, by rw [← refillLoop_bits 2 r]; exact hshift h1⟩
  · exact .inr ⟨_, _, rfl, hshift h0⟩

theorem readBit_cons {r : BitReader} {b : Bool} {rest : List Bool} (h : r.bits = b :: rest) :
    ∃ r', r.readBit = some (b, r') ∧ r'.bits = rest := by
  rcases readBit_eq r with ⟨hnil, -⟩ | ⟨b', r', hread, hbits⟩
  · rw [hnil] at h
    cases h
  · obtain ⟨rfl, rfl⟩ := List.cons.inj (h.symm.trans hbits)
    exact ⟨r', hread, rfl⟩

end BitReader

/-! ## Canonical Huffman tables (`crates/elf/src/lzx.rs`, `wim.rs`)

`Huff` and `HuffTable` are one table for two longest lengths: 16 bits for LZX and 15 for XPRESS. The counts are `u16`,
and an overflow or an index out of range is a panic.
-/

structure Huff where
  counts : List Nat
  symbols : List Nat
deriving Inhabited

inductive HuffError where
  | underrun
  /-- No symbol has the place. -/
  | badCode
  | overLong
deriving DecidableEq, Repr

namespace Huff

/-- Addition of `u16`. -/
def u16Add (a b : Nat) : Option Nat := if a + b < 2 ^ 16 then some (a + b) else none

/-- `xs[i] += 1`. -/
def bump (xs : List Nat) (i : Nat) : Option (List Nat) := do
  let v ← xs[i]?
  let v ← u16Add v 1
  return xs.set i v

/-- The loop over the lengths that counts them; `n` is one more than the longest. -/
def countLengths (n : Nat) (lengths : List Nat) : Option (List Nat) :=
  lengths.foldlM (fun counts l => if l < n then bump counts l else some counts) (List.replicate n 0)

def offsetsOf (n : Nat) (counts : List Nat) : Option (List Nat) :=
  (List.range (n - 1)).foldlM (fun offsets i => do
    let v ← u16Add (← offsets[i]?) (← counts[i]?)
    return offsets.set (i + 1) v) (List.replicate n 0)

/-- One turn of the loop that places the symbols. -/
def placeSymbol (n : Nat) (st : List Nat × List Nat) (x : Nat × Nat) : Option (List Nat × List Nat) :=
  let (symbols, next) := st
  let (l, sym) := x
  if 0 < l ∧ l < n then do
    let p ← next[l]?
    let next ← bump next l
    -- `sym as u16`
    if p < symbols.length then some (symbols.set p (sym % 2 ^ 16), next) else none
  else some (symbols, next)

def build (n : Nat) (lengths : List Nat) : Option Huff := do
  let counts ← countLengths n lengths
  let counts := counts.set 0 0
  let offsets ← offsetsOf n counts
  let total := (counts.drop 1).sum
  let (symbols, _) ← lengths.zipIdx.foldlM (placeSymbol n) (List.replicate total 0, offsets)
  return ⟨counts, symbols⟩

section Decode

variable {σ : Type} (readBit : σ → Option (Bool × σ))

/-- The loop of `decode`, over the counts of the lengths that are left. The code is even before its last bit is set. -/
def decodeFrom (symbols : List Nat) : List Nat → Int → Int → Int → σ → Except HuffError (Nat × σ)
  | [], _, _, _, _ => .error .overLong
  | count :: counts, code, first, index, src =>
    match readBit src with
    | none => .error .underrun
    | some (bit, src) =>
      let code := code + bit.toNat
      if code - first < count then
        let i := index + (code - first)
        match if 0 ≤ i then symbols[i.toNat]? else none with
        | some sym => .ok (sym, src)
        | none => .error .badCode
      else decodeFrom symbols counts (2 * code) (2 * (first + count)) (index + count) src

/-- `decode`, for any source of bits. -/
def decodeWith (h : Huff) (src : σ) : Except HuffError (Nat × σ) :=
  decodeFrom readBit h.symbols (h.counts.drop 1) 0 0 0 src

end Decode

def decode (h : Huff) (br : BitReader) : Except HuffError (Nat × BitReader) := h.decodeWith BitReader.readBit br

end Huff

/-! ## Tables -/

/-- A list that is given by a function. -/
def tab (n : Nat) (f : Nat → Nat) : List Nat := (List.range n).map f

section Tab

variable {n i : Nat} {f g : Nat → Nat}

@[simp] theorem length_tab (n : Nat) (f : Nat → Nat) : (tab n f).length = n := by simp [tab]

theorem getElem?_tab (h : i < n) (f : Nat → Nat) : (tab n f)[i]? = some (f i) := by simp [tab, h]

theorem replicate_eq_tab (n : Nat) : List.replicate n 0 = tab n fun _ => 0 := by simp [tab]

theorem tab_congr (h : ∀ i < n, f i = g i) : tab n f = tab n g :=
  List.map_congr_left fun i hi => h i (List.mem_range.mp hi)

theorem set_tab (n i : Nat) (f : Nat → Nat) (v : Nat) : (tab n f).set i v = tab n fun j => if j = i then v else f j := by
  apply List.ext_getElem?
  intro j
  rw [List.getElem?_set]
  by_cases hj : j < n
  · rw [getElem?_tab hj, getElem?_tab hj]
    by_cases hij : i = j
    · subst hij
      simp [hj]
    · simp [hij, Ne.symm hij]
  · have hnone (f : Nat → Nat) : (tab n f)[j]? = none := List.getElem?_eq_none (by simpa using Nat.not_lt.mp hj)
    rw [hnone, hnone]
    by_cases hij : i = j <;> simp [hij, hj]

theorem drop_one_tab (n : Nat) (f : Nat → Nat) : (tab (n + 1) f).drop 1 = tab n fun i => f (i + 1) := by
  simp [tab, List.range_succ_eq_map, Function.comp_def]

end Tab

theorem foldlM_states {σ α : Type} {f : σ → α → Option σ} (st : Nat → σ) (xs : List α)
    (h : ∀ (k : Nat) (x : α), xs[k]? = some x → f (st k) x = some (st (k + 1))) :
    xs.foldlM f (st 0) = some (st xs.length) := by
  induction xs generalizing st with
  | nil => rfl
  | cons x xs ih =>
    rw [List.foldlM_cons, h 0 x rfl]
    exact ih (fun k => st (k + 1)) fun k y hy => h (k + 1) y (by simpa using hy)

namespace Huff

theorem u16Add_eq {a b : Nat} (h : a + b < 2 ^ 16) : u16Add a b = some (a + b) := if_pos h

theorem bump_tab {n i : Nat} {f : Nat → Nat} (hi : i < n) (hf : f i + 1 < 2 ^ 16) :
    bump (tab n f) i = some (tab n fun j => if j = i then f i + 1 else f j) := by
  simp only [bump, getElem?_tab hi, Option.bind_eq_bind, Option.bind_some, u16Add_eq hf, set_tab, Option.pure_def]

end Huff

end Csolver.Elf
