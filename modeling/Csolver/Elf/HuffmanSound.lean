import Csolver.Elf.BitReader
import Csolver.Lib.Canonical

/-!
# Decoding inverts the canonical code

The table lists the symbols in the order of the code. A walk that has read the first bits of a word is past all shorter
words, and stops at the length of the word at the place of its symbol.
-/

namespace Csolver.Elf

open Csolver.Lib.Canonical

namespace Huff

def lengthOf (lengths : List Nat) (t : Nat) : Nat := lengths.getD t 0

section Build

variable {lengths : List Nat} {n k l s : Nat}

theorem ofLength_succ (len : Nat → Nat) (k l : Nat) :
    (ofLength len (k + 1) l).card = (ofLength len k l).card + if l = len k then 1 else 0 := by
  have hinsert : ofLength len (k + 1) l = if l = len k then insert k (ofLength len k l) else ofLength len k l := by
    ext t
    split_ifs with hk <;> simp only [Finset.mem_insert, mem_ofLength]
    · constructor
      · rintro ⟨ht, hl⟩
        omega
      · rintro (rfl | ⟨ht, hl⟩)
        · exact ⟨by omega, hk.symm⟩
        · exact ⟨by omega, hl⟩
    · constructor
      · rintro ⟨ht, hl⟩
        refine ⟨?_, hl⟩
        rcases Nat.lt_succ_iff_lt_or_eq.mp ht with ht | rfl
        · exact ht
        · exact absurd hl.symm hk
      · rintro ⟨ht, hl⟩
        exact ⟨by omega, hl⟩
  rw [hinsert]
  split_ifs
  · exact Finset.card_insert_of_notMem (by simp [mem_ofLength])
  · rfl

theorem card_ofLength_le (len : Nat → Nat) (h : k ≤ n) (l : Nat) :
    (ofLength len k l).card ≤ (ofLength len n l).card := by
  apply Finset.card_le_card
  intro t ht
  obtain ⟨htk, htl⟩ := mem_ofLength.mp ht
  exact mem_ofLength.mpr ⟨by omega, htl⟩

theorem lengthOf_getElem? {x : Nat} (h : lengths[k]? = some x) : lengthOf lengths k = x := by
  rw [lengthOf, List.getD_eq_getElem?_getD, h, Option.getD_some]

theorem lengthOf_lt (hlen : ∀ x ∈ lengths, x < n) (hs : s < lengths.length) : lengthOf lengths s < n := by
  have hget : lengths[s]? = some lengths[s] := List.getElem?_eq_getElem hs
  rw [lengthOf_getElem? hget]
  exact hlen _ (List.getElem_mem hs)

/-- The numbers that the table is made of fit `u16`. -/
structure Small (n : Nat) (lengths : List Nat) : Prop where
  lt : ∀ x ∈ lengths, x < n
  zero : (ofLength (lengthOf lengths) lengths.length 0).card < 2 ^ 16
  total : offset (lengthOf lengths) lengths.length n < 2 ^ 16

theorem Small.card_lt (h : Small n lengths) (hl : l < n) :
    (ofLength (lengthOf lengths) lengths.length l).card < 2 ^ 16 := by
  rcases Nat.eq_zero_or_pos l with rfl | hpos
  · exact h.zero
  · have hmono : offset (lengthOf lengths) lengths.length (l + 1) ≤ offset (lengthOf lengths) lengths.length n :=
      offset_mono hl
    rw [offset_succ, count_eq_card hpos] at hmono
    have := h.total
    omega

theorem countLengths_eq (h : Small n lengths) :
    countLengths n lengths = some (tab n fun l => (ofLength (lengthOf lengths) lengths.length l).card) := by
  have hstates := foldlM_states (f := fun counts l => if l < n then bump counts l else some counts)
    (fun k => tab n fun l => (ofLength (lengthOf lengths) k l).card) lengths ?_
  · have hinit : (tab n fun _ => 0) = tab n fun l => (ofLength (lengthOf lengths) 0 l).card :=
      tab_congr fun l _ => by simp [ofLength]
    rw [countLengths, replicate_eq_tab, hinit]
    exact hstates
  · intro k x hx
    have hk : k < lengths.length := (List.getElem?_eq_some_iff.mp hx).1
    have hxn : x < n := h.lt x (List.mem_of_getElem? hx)
    have hle := card_ofLength_le (lengthOf lengths) (k := k + 1) hk x
    rw [ofLength_succ, lengthOf_getElem? hx, if_pos rfl] at hle
    have hlt := h.card_lt hxn
    rw [if_pos hxn, bump_tab hxn (by omega)]
    refine congrArg some (tab_congr fun l _ => ?_)
    rw [ofLength_succ, lengthOf_getElem? hx]
    split_ifs with heq
    · rw [heq]
    · rfl

theorem offsetsOf_eq (h : Small n lengths) :
    offsetsOf n (tab n (count (lengthOf lengths) lengths.length)) =
      some (tab n (offset (lengthOf lengths) lengths.length)) := by
  have hstates := foldlM_states (f := fun offsets i => do
      let v ← u16Add (← offsets[i]?) (← (tab n (count (lengthOf lengths) lengths.length))[i]?)
      return offsets.set (i + 1) v)
    (fun k => tab n fun l => if l ≤ k then offset (lengthOf lengths) lengths.length l else 0) (List.range (n - 1)) ?_
  · have hinit : (tab n fun _ => 0) =
        tab n fun l => if l ≤ 0 then offset (lengthOf lengths) lengths.length l else 0 :=
      tab_congr fun l _ => by
        split_ifs with hl
        · rw [Nat.le_zero.mp hl]
          simp [offset]
        · rfl
    rw [offsetsOf, replicate_eq_tab, hinit, hstates, List.length_range]
    refine congrArg some (tab_congr fun l hl => if_pos (by omega))
  · intro k i hi
    obtain ⟨hk, hki⟩ := List.getElem?_eq_some_iff.mp hi
    rw [List.length_range] at hk
    obtain rfl : k = i := by simpa using hki
    have hmono : offset (lengthOf lengths) lengths.length (k + 1) ≤ offset (lengthOf lengths) lengths.length n :=
      offset_mono (by omega)
    have htotal := h.total
    rw [getElem?_tab (by omega), getElem?_tab (by omega)]
    simp only [Option.bind_eq_bind, Option.bind_some, le_refl, if_true, Option.pure_def]
    rw [u16Add_eq (by rw [← offset_succ]; omega), ← offset_succ, Option.bind_some, set_tab]
    refine congrArg some (tab_congr fun l _ => ?_)
    split_ifs <;> first | rfl | omega | (congr 1; omega)

/-- The symbols that are placed in the first turns. -/
def placed (n : Nat) (lengths : List Nat) : Nat → List Nat
  | 0 => List.replicate (offset (lengthOf lengths) lengths.length n) 0
  | k + 1 =>
    if 0 < lengthOf lengths k then
      (placed n lengths k).set (slot (lengthOf lengths) lengths.length k) (k % 2 ^ 16)
    else placed n lengths k

theorem length_placed (n : Nat) (lengths : List Nat) (k : Nat) :
    (placed n lengths k).length = offset (lengthOf lengths) lengths.length n := by
  induction k with
  | zero => simp [placed]
  | succ k ih =>
    rw [placed]
    split_ifs
    · rw [List.length_set, ih]
    · exact ih

theorem placed_slot (h : Small n lengths) (hs : s < lengths.length) (hpos : 0 < lengthOf lengths s)
    (hk : k ≤ lengths.length) (hsk : s < k) :
    (placed n lengths k)[slot (lengthOf lengths) lengths.length s]? = some (s % 2 ^ 16) := by
  have hslot := slot_lt hs hpos (lengthOf_lt h.lt hs)
  induction k with
  | zero => omega
  | succ k ih =>
    rw [placed]
    rcases Nat.lt_succ_iff_lt_or_eq.mp hsk with hlt | rfl
    · have hprev := ih (by omega) hlt
      split_ifs with hkpos
      · have hne : slot (lengthOf lengths) lengths.length k ≠ slot (lengthOf lengths) lengths.length s :=
          fun heq => absurd (slot_injective (by omega) hs hkpos hpos heq) (by omega)
        rw [List.getElem?_set_ne hne, hprev]
      · exact hprev
    · rw [if_pos hpos, List.getElem?_set_self (by rw [length_placed]; exact hslot)]

theorem rank_eq_count (hs : s < lengths.length) (hpos : 0 < lengthOf lengths s) :
    rank (lengthOf lengths) lengths.length s = count (lengthOf lengths) s (lengthOf lengths s) := by
  rw [count_eq_card hpos, rank]
  congr 1
  ext t
  rw [Finset.mem_filter, mem_ofLength, mem_ofLength]
  omega

theorem placing_eq (h : Small n lengths) : lengths.zipIdx.foldlM (placeSymbol n)
      (List.replicate (offset (lengthOf lengths) lengths.length n) 0,
        tab n (offset (lengthOf lengths) lengths.length)) =
    some (placed n lengths lengths.length,
      tab n fun l => offset (lengthOf lengths) lengths.length l + count (lengthOf lengths) lengths.length l) := by
  have hstates := foldlM_states (f := placeSymbol n)
    (fun k => (placed n lengths k,
      tab n fun l => offset (lengthOf lengths) lengths.length l + count (lengthOf lengths) k l)) lengths.zipIdx ?_
  · have hinit : tab n (offset (lengthOf lengths) lengths.length) =
        tab n fun l => offset (lengthOf lengths) lengths.length l + count (lengthOf lengths) 0 l :=
      tab_congr fun l _ => by simp [count, ofLength]
    rw [hinit]
    rw [List.length_zipIdx] at hstates
    exact hstates
  · rintro k ⟨x, i⟩ hx
    rw [List.getElem?_zipIdx] at hx
    obtain ⟨y, hy, heq⟩ := Option.map_eq_some_iff.mp hx
    obtain ⟨rfl, rfl⟩ := Prod.mk.inj heq
    have hk : k < lengths.length := (List.getElem?_eq_some_iff.mp hy).1
    have hyn : y < n := h.lt y (List.mem_of_getElem? hy)
    have hlen : lengthOf lengths k = y := lengthOf_getElem? hy
    have hcount (l : Nat) : count (lengthOf lengths) (k + 1) l =
        count (lengthOf lengths) k l + if l = y ∧ 0 < y then 1 else 0 := by
      unfold count
      split_ifs with h₁ _ h₃
      · omega
      · rfl
      · rw [ofLength_succ, hlen, if_pos h₃.1]
      · rw [ofLength_succ, hlen, if_neg (by omega)]
    simp only [placeSymbol, Nat.zero_add]
    rcases Nat.eq_zero_or_pos y with rfl | hpos
    · rw [if_neg (by omega), placed, hlen, if_neg (by omega)]
      refine congrArg some (congrArg _ (tab_congr fun l _ => ?_))
      rw [hcount, if_neg (by omega)]
      rfl
    · have hrank := rank_eq_count hk (by omega)
      have hslot := slot_lt hk (by omega) (lengthOf_lt h.lt hk)
      rw [slot, hrank, hlen] at hslot
      have htotal := h.total
      rw [if_pos ⟨hpos, hyn⟩, getElem?_tab hyn]
      simp only [Option.bind_eq_bind, Option.bind_some]
      rw [bump_tab hyn (by omega), Option.bind_some, length_placed, if_pos hslot, placed, hlen, if_pos hpos, slot, hrank,
        hlen]
      refine congrArg some (congrArg _ (tab_congr fun l _ => ?_))
      rw [hcount]
      split_ifs with h₁ h₂ h₂
      · rw [h₁]
        omega
      · omega
      · omega
      · rfl

theorem sum_map_range (f : Nat → Nat) (m : Nat) : ((List.range m).map f).sum = ∑ i ∈ Finset.range m, f i := by
  induction m with
  | zero => rfl
  | succ m ih => rw [List.range_succ, List.map_append, List.sum_append, ih, Finset.sum_range_succ]; simp

theorem build_eq (h : Small n lengths) (hn : 0 < n) : build n lengths =
    some ⟨tab n (count (lengthOf lengths) lengths.length), placed n lengths lengths.length⟩ := by
  have hcounts : (tab n fun l => (ofLength (lengthOf lengths) lengths.length l).card).set 0 0 =
      tab n (count (lengthOf lengths) lengths.length) := by
    rw [set_tab]
    rfl
  have htotal : ((tab n (count (lengthOf lengths) lengths.length)).drop 1).sum =
      offset (lengthOf lengths) lengths.length n := by
    obtain ⟨m, rfl⟩ := Nat.exists_eq_succ_of_ne_zero hn.ne'
    rw [drop_one_tab, offset, Finset.sum_range_succ', count, if_pos rfl, Nat.add_zero, tab]
    exact sum_map_range _ m
  simp only [build, countLengths_eq h, Option.bind_eq_bind, Option.bind_some, hcounts, offsetsOf_eq h, htotal,
    placing_eq h, Option.pure_def]

end Build

/-! ## The walk -/

section Walk

variable {len : Nat → Nat} {n count' l s : Nat} {symbols : List Nat} {br : BitReader}

open BitReader

/-- The table of a code: the counts, and the symbols in their places. -/
structure Table (len : Nat → Nat) (size n : Nat) (h : Huff) : Prop where
  counts : h.counts = tab n (count len size)
  symbols : ∀ s < size, 0 < len s → h.symbols[slot len size s]? = some (s % 2 ^ 16)

theorem drop_tab (hl : l < n) (f : Nat → Nat) : (tab n f).drop l = f l :: (tab n f).drop (l + 1) := by
  rw [List.drop_eq_getElem_cons (by simpa using hl)]
  congr 1
  exact Option.some.inj ((List.getElem?_eq_getElem (by simpa using hl)).symm.trans (getElem?_tab hl f))

theorem codeBits_head (c k : Nat) : ∃ b, codeBits c (k + 1) = b :: codeBits c k ∧
    c / 2 ^ k = 2 * (c / 2 ^ (k + 1)) + b.toNat := by
  refine ⟨c.testBit k, rfl, ?_⟩
  have hdiv : c / 2 ^ (k + 1) = c / 2 ^ k / 2 := by rw [pow_succ, Nat.div_div_eq_div_mul]
  rw [hdiv, Nat.toNat_testBit]
  omega

variable {size : Nat} {h : Huff}

theorem decodeFrom_word (ht : Table len size n h) (hs : s < size) (hn : len s < n) {rest : List Bool} (j l : Nat)
    (hlen : l + (j + 1) = len s) (hbits : br.bits = codeBits (codeword len size s) (j + 1) ++ rest) :
    ∃ br', decodeFrom readBit h.symbols (h.counts.drop (l + 1)) (2 * (codeword len size s / 2 ^ (j + 1)) : Nat)
      (first len size (l + 1) : Nat) (offset len size (l + 1) : Nat) br = .ok (s % 2 ^ 16, br') ∧ br'.bits = rest := by
  induction j generalizing l br with
  | zero =>
    obtain ⟨b, hhead, hdiv⟩ := codeBits_head (codeword len size s) 0
    rw [hhead] at hbits
    obtain ⟨br', hread, hrest⟩ := readBit_cons hbits
    have hword := @codeword_eq len size s (by omega)
    have hrank := rank_lt hs (by omega : 0 < len s)
    have hsym := ht.symbols s hs (by omega)
    rw [slot] at hsym
    rw [pow_zero, Nat.div_one] at hdiv
    rw [show l + (0 + 1) = l + 1 from rfl] at hlen
    rw [ht.counts, drop_tab (by omega), decodeFrom, hread]
    simp only
    rw [← hlen] at hword hrank hsym
    have hcode : ((2 * (codeword len size s / 2 ^ (0 + 1)) : Nat) : Int) + (b.toNat : Int) = codeword len size s := by
      omega
    rw [hcode, if_pos (by omega), if_pos (by omega)]
    have hidx : ((offset len size (l + 1) : Int) + ((codeword len size s : Int) - first len size (l + 1))).toNat =
        offset len size (l + 1) + rank len size s := by omega
    rw [hidx, hsym]
    exact ⟨br', rfl, hrest⟩
  | succ j ih =>
    obtain ⟨b, hhead, hdiv⟩ := codeBits_head (codeword len size s) (j + 1)
    rw [hhead] at hbits
    obtain ⟨br', hread, hrest⟩ := readBit_cons hbits
    have hpast := @first_add_count_le len size (l + 1) s (by omega)
    have hpow : len s - (l + 1) = j + 1 := by omega
    rw [hpow] at hpast
    have hle : first len size (l + 1) + count len size (l + 1) ≤ codeword len size s / 2 ^ (j + 1) :=
      (Nat.le_div_iff_mul_le (Nat.two_pow_pos _)).mpr hpast
    obtain ⟨br'', hdec, hbits''⟩ := ih (l + 1) (by omega) hrest
    refine ⟨br'', ?_, hbits''⟩
    rw [ht.counts, drop_tab (by omega), decodeFrom, hread, ← ht.counts]
    simp only
    have hcode : ((2 * (codeword len size s / 2 ^ (j + 1 + 1)) : Nat) : Int) + (b.toNat : Int) =
        (codeword len size s / 2 ^ (j + 1) : Nat) := by omega
    have hfirst := @first_succ len size (l + 1)
    have hoffset := @offset_succ len size (l + 1)
    rw [hcode, if_neg (by omega), ← hdec]
    congr 1 <;> omega

/-- The walk after `l` bits, that make up `p`, on a stream that starts with no word. -/
theorem decodeFrom_none (ht : Table len size n h) {start : List Bool} (p l m : Nat) (hlm : l + 1 + m = n)
    (hfirst : first len size (l + 1) ≤ 2 * p) (hbits : start = codeBits p l ++ br.bits)
    (hnone : ∀ s < size, 0 < len s → ¬codeBits (codeword len size s) (len s) <+: start) :
    ∃ e, decodeFrom readBit h.symbols (h.counts.drop (l + 1)) (2 * p : Nat) (first len size (l + 1) : Nat)
      (offset len size (l + 1) : Nat) br = .error e := by
  induction m generalizing p l br with
  | zero =>
    have hnil : h.counts.drop (l + 1) = [] := by
      rw [ht.counts]
      exact List.drop_eq_nil_of_le (by simp; omega)
    rw [hnil]
    exact ⟨_, rfl⟩
  | succ m ih =>
    rw [ht.counts, drop_tab (by omega), decodeFrom]
    rcases readBit_eq br with ⟨-, hread⟩ | ⟨b, br', hread, hcons⟩
    · rw [hread]
      exact ⟨_, rfl⟩
    · rw [hread]
      simp only
      have hcode : ((2 * p : Nat) : Int) + (b.toNat : Int) = ((2 * p + b.toNat : Nat) : Int) := by omega
      have hstart : start = codeBits (2 * p + b.toNat) (l + 1) ++ br'.bits := by
        rw [codeBits_succ, List.append_assoc, hbits, hcons]
        rfl
      rw [hcode]
      by_cases hcount : ((2 * p + b.toNat : Nat) : Int) - (first len size (l + 1) : Nat) < (count len size (l + 1) : Nat)
      · -- the bits that were read are a word
        exfalso
        obtain ⟨s, hs, hsl, hsr⟩ := @exists_rank len size (l + 1)
          (r := 2 * p + b.toNat - first len size (l + 1)) (by omega) (by omega)
        apply hnone s hs (by omega)
        have hword := @codeword_eq len size s (by omega)
        rw [hsl] at hword
        have hval : codeword len size s = 2 * p + b.toNat := by omega
        rw [hval, hsl, hstart]
        exact List.prefix_append _ _
      · have hsucc := @first_succ len size (l + 1)
        have hoffset := @offset_succ len size (l + 1)
        obtain ⟨e, he⟩ := ih (2 * p + b.toNat) (l + 1) (by omega) (by omega) hstart
        refine ⟨e, ?_⟩
        rw [if_neg hcount, ← ht.counts, ← he]
        congr 1 <;> omega

end Walk

/-! ## The tables of a code -/

section Code

open BitReader

variable {lengths : List Nat} {n : Nat}

def word (lengths : List Nat) (s : Nat) : List Bool :=
  codeBits (codeword (lengthOf lengths) lengths.length s) (lengthOf lengths s)

/-- The table is built, decoding returns the symbol of a word and takes its bits, and fails on what starts with no
    word. -/
def Inverts (n : Nat) (lengths : List Nat) : Prop :=
  ∃ h, build n lengths = some h ∧
    (∀ s < lengths.length, 0 < lengthOf lengths s → ∀ (br : BitReader) (rest : List Bool),
      br.bits = word lengths s ++ rest → ∃ br', h.decode br = .ok (s, br') ∧ br'.bits = rest) ∧
    ∀ br : BitReader, (∀ s < lengths.length, 0 < lengthOf lengths s → ¬word lengths s <+: br.bits) →
      ∃ e, h.decode br = .error e

theorem table_of_small (h : Small n lengths) (hn : 0 < n) : ∃ t, build n lengths = some t ∧
    Table (lengthOf lengths) lengths.length n t :=
  ⟨_, build_eq h hn, rfl, fun _ hs hpos => placed_slot h hs hpos le_rfl hs⟩

theorem first_one (len : Nat → Nat) (size : Nat) : first len size 1 = 0 := by simp [first, count]

theorem offset_one (len : Nat → Nat) (size : Nat) : offset len size 1 = 0 := by simp [offset, count]

theorem decode_word {t : Huff} {s : Nat} {br : BitReader} {rest : List Bool} (h : Small n lengths)
    (ht : Table (lengthOf lengths) lengths.length n t) (hs : s < lengths.length) (hpos : 0 < lengthOf lengths s)
    (hword : codeword (lengthOf lengths) lengths.length s < 2 ^ lengthOf lengths s)
    (hbits : br.bits = word lengths s ++ rest) : ∃ br', t.decode br = .ok (s % 2 ^ 16, br') ∧ br'.bits = rest := by
  obtain ⟨j, hj⟩ := Nat.exists_eq_succ_of_ne_zero hpos.ne'
  rw [word, hj] at hbits
  obtain ⟨br', hdec, hrest⟩ := decodeFrom_word ht hs (lengthOf_lt h.lt hs) j 0 (by omega) hbits
  refine ⟨br', ?_, hrest⟩
  rw [hj] at hword
  rw [Nat.div_eq_of_lt hword, Nat.zero_add, first_one, offset_one] at hdec
  exact hdec

theorem decode_none {t : Huff} {br : BitReader} (ht : Table (lengthOf lengths) lengths.length n t) (hn : 0 < n)
    (hnone : ∀ s < lengths.length, 0 < lengthOf lengths s → ¬word lengths s <+: br.bits) :
    ∃ e, t.decode br = .error e := by
  have hfirst := first_one (lengthOf lengths) lengths.length
  obtain ⟨e, he⟩ := @decodeFrom_none _ _ br _ _ ht br.bits 0 0 (n - 1) (by omega) (by simp [hfirst]) rfl hnone
  rw [Nat.zero_add, first_one, offset_one] at he
  exact ⟨e, he⟩

theorem small_of_kraft (hn : 0 < n) (hn17 : n ≤ 17) (hlen : ∀ x ∈ lengths, x < n)
    (hkraft : Kraft (lengthOf lengths) lengths.length (n - 1))
    (hcount : ∀ l < n, (ofLength (lengthOf lengths) lengths.length l).card < 2 ^ 16) : Small n lengths := by
  refine ⟨hlen, hcount 0 hn, ?_⟩
  obtain ⟨m, rfl⟩ := Nat.exists_eq_succ_of_ne_zero hn.ne'
  have hsum : ∑ i ∈ Finset.range (m + 1), count (lengthOf lengths) lengths.length i * 2 ^ (m - i) ≤ 2 ^ m := by
    have hall : (Finset.range lengths.length).filter (0 < lengthOf lengths ·) =
        (Finset.range lengths.length).filter fun t => 0 < lengthOf lengths t ∧ lengthOf lengths t < m + 1 := by
      apply Finset.filter_congr
      intro t ht
      have := lengthOf_lt hlen (Finset.mem_range.mp ht)
      omega
    rw [← sum_shorter fun i => 2 ^ (m - i), ← hall]
    exact hkraft
  have hlast : count (lengthOf lengths) lengths.length m < 2 ^ 16 := by
    rw [count]
    split_ifs
    · decide
    · exact hcount m (by omega)
  -- a shorter word takes the room of two of the longest
  have hdouble : 2 * offset (lengthOf lengths) lengths.length m ≤
      ∑ i ∈ Finset.range m, count (lengthOf lengths) lengths.length i * 2 ^ (m - i) := by
    rw [offset, Finset.mul_sum]
    refine Finset.sum_le_sum fun i hi => ?_
    have him := Finset.mem_range.mp hi
    obtain ⟨k, hk⟩ := Nat.exists_eq_succ_of_ne_zero (by omega : m - i ≠ 0)
    have hpow := Nat.two_pow_pos k
    rw [hk, pow_succ, mul_comm]
    exact Nat.mul_le_mul_left _ (by omega)
  rw [Finset.sum_range_succ, Nat.sub_self, pow_zero, mul_one] at hsum
  have hm : 2 ^ m ≤ 2 ^ 16 := Nat.pow_le_pow_right (by decide) (by omega)
  change offset (lengthOf lengths) lengths.length (m + 1) < 2 ^ 16
  rw [offset_succ]
  omega

theorem card_ofLength_eq (lengths : List Nat) (l : Nat) :
    (ofLength (lengthOf lengths) lengths.length l).card = lengths.count l := by
  have hpre (k : Nat) (hk : k ≤ lengths.length) :
      (ofLength (lengthOf lengths) k l).card = (lengths.take k).count l := by
    induction k with
    | zero => simp [ofLength]
    | succ k ih =>
      have hget : lengths[k]? = some lengths[k] := List.getElem?_eq_getElem (by omega)
      rw [ofLength_succ, ih (by omega), List.take_add_one, hget, List.count_append, lengthOf_getElem? hget]
      simp only [Option.toList_some, List.count_singleton, beq_iff_eq]
      congr 1
      split_ifs <;> first | rfl | omega
  rw [hpre _ le_rfl, List.take_length]

/-- Decoding inverts the code, for symbols and counts that fit `u16`. -/
theorem inverts_of_kraft (n : Nat) (hn : n = 17 ∨ n = 16) (lengths : List Nat) (hlen : ∀ x ∈ lengths, x < n)
    (hkraft : Kraft (lengthOf lengths) lengths.length (n - 1)) (hsize : lengths.length ≤ 2 ^ 16)
    (hcount : ∀ l < n, lengths.count l < 2 ^ 16) : Inverts n lengths := by
  have hpos : 0 < n := by omega
  have hsmall : Small n lengths := small_of_kraft hpos (by omega) hlen hkraft fun l hl => by
    rw [card_ofLength_eq]
    exact hcount l hl
  obtain ⟨t, hbuild, ht⟩ := table_of_small hsmall hpos
  refine ⟨t, hbuild, ?_, fun br hnone => decode_none ht hpos hnone⟩
  intro s hs hlpos br rest hbits
  have hword := codeword_lt hkraft hs hlpos (Nat.le_sub_one_of_lt (lengthOf_lt hlen hs))
  obtain ⟨br', hdec, hrest⟩ := decode_word hsmall ht hs hlpos hword hbits
  rw [Nat.mod_eq_of_lt (by omega)] at hdec
  exact ⟨br', hdec, hrest⟩

/-- A code of three words, of which one is shorter. -/
theorem inverts_of_kraft_three : Inverts 16 [1, 0, 2, 2] :=
  inverts_of_kraft 16 (.inr rfl) [1, 0, 2, 2] (by decide) (by unfold Kraft; decide) (by decide)
    (by decide)

/-! ## More symbols than `u16` has -/

theorem exists_stream {c : Nat} (h : c < 2 ^ 16) : ∃ br : BitReader, br.bits = codeBits c 16 := by
  refine ⟨BitReader.new [leByte c 0, leByte c 1], ?_⟩
  have hbytes : u16OfLeBytes (leByte c 0) (leByte c 1) = c := by
    simp only [u16OfLeBytes, leByte, BitVec.toNat_ofNat]
    omega
  have hbits : (BitReader.new [leByte c 0, leByte c 1]).bits = codeBits (u16OfLeBytes (leByte c 0) (leByte c 1)) 16 := by
    simp [bits, buffered, BitReader.new, dataBits]
  rw [hbits, hbytes]

theorem not_inverts_of_large {s : Nat} (hsmall : Small n lengths) (hn : 0 < n) (hs : s < lengths.length)
    (hlarge : 2 ^ 16 ≤ s) (hlen : lengthOf lengths s = 16)
    (hword : codeword (lengthOf lengths) lengths.length s < 2 ^ lengthOf lengths s) : ¬Inverts n lengths := by
  rintro ⟨t, hbuild, hdecode, -⟩
  obtain ⟨t', hbuild', ht⟩ := table_of_small hsmall hn
  obtain rfl : t' = t := Option.some.inj (hbuild'.symm.trans hbuild)
  obtain ⟨br, hbr⟩ := exists_stream (hlen ▸ hword)
  have hbits : br.bits = word lengths s ++ [] := by rw [hbr, word, hlen, List.append_nil]
  obtain ⟨br₁, hdec₁, -⟩ := hdecode s hs (by omega) br [] hbits
  obtain ⟨br₂, hdec₂, -⟩ := decode_word hsmall ht hs (by omega) hword hbits
  have heq : s = s % 2 ^ 16 := (Prod.mk.inj (Except.ok.inj (hdec₁.symm.trans hdec₂))).1
  omega

/-- A symbol past the last `u16`. -/
@[irreducible] def longLengths : List Nat := List.replicate 40000 0 ++ List.replicate 25537 16

theorem length_longLengths : longLengths.length = 65537 := by
  rw [longLengths, List.length_append, List.length_replicate, List.length_replicate]

theorem lengthOf_longLengths {t : Nat} (ht : t < 65537) : lengthOf longLengths t = if t < 40000 then 0 else 16 := by
  rw [lengthOf, longLengths, List.getD_eq_getElem?_getD, List.getElem?_append, List.length_replicate]
  split_ifs with h
  · rw [List.getElem?_replicate, if_pos h, Option.getD_some]
  · rw [List.getElem?_replicate, if_pos (by omega), Option.getD_some]

theorem longLengths_lt : ∀ x ∈ longLengths, x < 17 := by
  intro x hx
  rw [longLengths] at hx
  rcases List.mem_append.mp hx with hx | hx
  · rw [List.eq_of_mem_replicate hx]
    decide
  · rw [List.eq_of_mem_replicate hx]
    decide

theorem count_longLengths (l : Nat) : longLengths.count l < 2 ^ 16 := by
  rw [longLengths, List.count_append, List.count_replicate, List.count_replicate]
  split_ifs with h₁ h₂
  · simp only [beq_iff_eq] at h₁ h₂
    omega
  · decide
  · decide
  · decide

theorem kraft_longLengths : Kraft (lengthOf longLengths) longLengths.length 16 := by
  rw [Kraft, length_longLengths]
  have hsub : (Finset.range 65537).filter (0 < lengthOf longLengths ·) ⊆ Finset.Ico 40000 65537 := by
    intro t ht
    obtain ⟨htr, hpos⟩ := Finset.mem_filter.mp ht
    have hlt := Finset.mem_range.mp htr
    rw [lengthOf_longLengths hlt] at hpos
    split_ifs at hpos with h
    · exact absurd hpos (by decide)
    · exact Finset.mem_Ico.mpr ⟨by omega, hlt⟩
  calc ∑ t ∈ (Finset.range 65537).filter (0 < lengthOf longLengths ·), 2 ^ (16 - lengthOf longLengths t)
      ≤ ∑ t ∈ Finset.Ico 40000 65537, 2 ^ (16 - lengthOf longLengths t) := Finset.sum_le_sum_of_subset hsub
    _ = ∑ t ∈ Finset.Ico 40000 65537, 1 := Finset.sum_congr rfl fun t ht => by
        have ht' := Finset.mem_Ico.mp ht
        rw [lengthOf_longLengths ht'.2, if_neg (by omega), Nat.sub_self, pow_zero]
    _ = 25537 := by rw [Finset.sum_const_nat fun _ _ => rfl, Nat.card_Ico]
    _ ≤ 2 ^ 16 := by decide

/-- The room is enough, and the last symbol is decoded as another one. -/
theorem longLengths_not_inverted : (∀ x ∈ longLengths, x < 17) ∧ Kraft (lengthOf longLengths) longLengths.length 16 ∧
    ¬Inverts 17 longLengths := by
  refine ⟨longLengths_lt, kraft_longLengths, ?_⟩
  have hsmall : Small 17 longLengths := small_of_kraft (by decide) (by decide) longLengths_lt kraft_longLengths
    fun l _ => card_ofLength_eq longLengths l ▸ count_longLengths l
  have hs : 65536 < longLengths.length := by rw [length_longLengths]; decide
  have hlen : lengthOf longLengths 65536 = 16 := by rw [lengthOf_longLengths (by decide), if_neg (by decide)]
  exact not_inverts_of_large hsmall (by decide) hs (by decide) hlen
    (codeword_lt kraft_longLengths hs (by rw [hlen]; decide) hlen.le)

end Code

end Huff

end Csolver.Elf
