import Mathlib.Algebra.BigOperators.Intervals
import Mathlib.Algebra.BigOperators.Ring.Finset
import Mathlib.Algebra.Order.BigOperators.Group.Finset
import Mathlib.Tactic.Ring

/-!
# Canonical prefix codes

A code is given by the lengths of its words; a length of zero stands for a symbol without one. The words are ordered
by length, then by symbol, and each is what is left of the unit interval by those before it, as a number of its own
length.
-/

namespace Csolver.Lib

namespace Canonical

variable (len : Nat → Nat) (n : Nat)

def ofLength (l : Nat) : Finset Nat := (Finset.range n).filter fun t => len t = l

def count (l : Nat) : Nat := if l = 0 then 0 else (ofLength len n l).card

/-- The symbols before one in the order of the code. -/
def before (s : Nat) : Finset Nat :=
  (Finset.range n).filter fun t => 0 < len t ∧ (len t < len s ∨ len t = len s ∧ t < s)

/-- The word of a symbol, as a number of `len s` bits. -/
def codeword (s : Nat) : Nat := ∑ t ∈ before len n s, 2 ^ (len s - len t)

/-- The lengths leave room for every word, at `m` bits. -/
def Kraft (m : Nat) : Prop := ∑ t ∈ (Finset.range n).filter (0 < len ·), 2 ^ (m - len t) ≤ 2 ^ m

def first (l : Nat) : Nat := ∑ i ∈ Finset.range l, count len n i * 2 ^ (l - i)

/-- The number of words that are shorter. -/
def offset (l : Nat) : Nat := ∑ i ∈ Finset.range l, count len n i

/-- The number of words of the same length before that of a symbol. -/
def rank (s : Nat) : Nat := ((ofLength len n (len s)).filter (· < s)).card

/-- The place of a symbol in the order of the code. -/
def slot (s : Nat) : Nat := offset len n (len s) + rank len n s

variable {len n} {l m s t : Nat}

theorem first_succ : first len n (l + 1) = 2 * (first len n l + count len n l) := by
  rw [first, Finset.sum_range_succ, first, mul_add, Finset.mul_sum]
  congr 1
  · refine Finset.sum_congr rfl fun i hi => ?_
    have hil := Finset.mem_range.mp hi
    rw [show l + 1 - i = (l - i) + 1 by omega, pow_succ]
    ring
  · rw [Nat.add_sub_cancel_left, pow_one, mul_comm]

theorem offset_succ : offset len n (l + 1) = offset len n l + count len n l := Finset.sum_range_succ _ _

theorem offset_mono (h : l ≤ m) : offset len n l ≤ offset len n m :=
  Finset.sum_le_sum_of_subset (Finset.range_subset_range.mpr h)

theorem count_eq_card (h : 0 < l) : count len n l = (ofLength len n l).card := if_neg (by omega)

theorem mem_ofLength : t ∈ ofLength len n l ↔ t < n ∧ len t = l := by
  rw [ofLength, Finset.mem_filter, Finset.mem_range]

theorem rank_lt (hs : s < n) (hpos : 0 < len s) : rank len n s < count len n (len s) := by
  rw [count_eq_card hpos]
  apply Finset.card_lt_card
  rw [Finset.ssubset_iff_of_subset (Finset.filter_subset _ _)]
  exact ⟨s, mem_ofLength.mpr ⟨hs, rfl⟩, by simp⟩

theorem rank_lt_rank (hs : s < n) (hlen : len s = len t) (hst : s < t) : rank len n s < rank len n t := by
  apply Finset.card_lt_card
  rw [← hlen, Finset.ssubset_iff_of_subset]
  · exact ⟨s, by simp [mem_ofLength, hs, hst], by simp⟩
  · intro u hu
    rw [Finset.mem_filter] at hu ⊢
    exact ⟨hu.1, hu.2.trans hst⟩

theorem slot_injective (hs : s < n) (ht : t < n) (hsp : 0 < len s) (htp : 0 < len t)
    (h : slot len n s = slot len n t) : s = t := by
  have hbelow {a b : Nat} (ha : a < n) (hap : 0 < len a) (hab : len a < len b) : slot len n a < slot len n b := by
    have hr := rank_lt ha hap
    have hmono : offset len n (len a + 1) ≤ offset len n (len b) := offset_mono hab
    rw [offset_succ] at hmono
    unfold slot
    omega
  rcases Nat.lt_trichotomy (len s) (len t) with hlt | heq | hgt
  · exact absurd h (hbelow hs hsp hlt).ne
  · have hr : rank len n s = rank len n t := by
      unfold slot at h
      rw [heq] at h
      omega
    rcases Nat.lt_trichotomy s t with hlt | heq' | hgt
    · exact absurd hr (rank_lt_rank hs heq hlt).ne
    · exact heq'
    · exact absurd hr (rank_lt_rank ht heq.symm hgt).ne'
  · exact absurd h (hbelow ht htp hgt).ne'

theorem exists_rank {r : Nat} (hl : 0 < l) (hr : r < count len n l) : ∃ s, s < n ∧ len s = l ∧ rank len n s = r := by
  have hmaps : Set.MapsTo (rank len n) (ofLength len n l) (Finset.range (count len n l)) := by
    intro s hs
    obtain ⟨hsn, rfl⟩ := mem_ofLength.mp hs
    exact Finset.mem_coe.mpr (Finset.mem_range.mpr (rank_lt hsn hl))
  have hinj : Set.InjOn (rank len n) (ofLength len n l) := by
    intro s hs t ht heq
    obtain ⟨hsn, hsl⟩ := mem_ofLength.mp hs
    obtain ⟨htn, htl⟩ := mem_ofLength.mp ht
    exact slot_injective hsn htn (hsl ▸ hl) (htl ▸ hl) (by rw [slot, slot, heq, hsl, htl])
  have hcard : (Finset.range (count len n l)).card ≤ (ofLength len n l).card := by
    rw [Finset.card_range, count_eq_card hl]
  obtain ⟨s, hs, hsr⟩ := Finset.surjOn_of_injOn_of_card_le _ hmaps hinj hcard (Finset.mem_coe.mpr (Finset.mem_range.mpr hr))
  exact ⟨s, (mem_ofLength.mp hs).1, (mem_ofLength.mp hs).2, hsr⟩

theorem slot_lt (hs : s < n) (hpos : 0 < len s) (hm : len s < m) : slot len n s < offset len n m := by
  have hr := rank_lt hs hpos
  have hmono : offset len n (len s + 1) ≤ offset len n m := offset_mono hm
  rw [offset_succ] at hmono
  unfold slot
  omega

theorem sum_shorter (f : Nat → Nat) : ∑ t ∈ (Finset.range n).filter (fun t => 0 < len t ∧ len t < l), f (len t) =
    ∑ i ∈ Finset.range l, count len n i * f i := by
  rw [← Finset.sum_fiberwise_of_maps_to (t := Finset.range l) (g := len)
    fun t ht => Finset.mem_range.mpr (Finset.mem_filter.mp ht).2.2]
  refine Finset.sum_congr rfl fun i hi => ?_
  have hil := Finset.mem_range.mp hi
  rw [Finset.sum_const_nat fun t ht => congrArg f (Finset.mem_filter.mp ht).2]
  congr 1
  rw [count]
  split_ifs with h0
  · rw [Finset.card_eq_zero, Finset.filter_eq_empty_iff]
    intro t ht
    have := (Finset.mem_filter.mp ht).2.1
    omega
  · congr 1
    ext t
    simp only [ofLength, Finset.mem_filter]
    constructor
    · rintro ⟨⟨ht, -⟩, rfl⟩
      exact ⟨ht, rfl⟩
    · rintro ⟨ht, rfl⟩
      exact ⟨⟨ht, by omega, hil⟩, rfl⟩

theorem codeword_eq (hpos : 0 < len s) : codeword len n s = first len n (len s) + rank len n s := by
  have hunion : before len n s = ((Finset.range n).filter fun t => 0 < len t ∧ len t < len s) ∪
      (ofLength len n (len s)).filter (· < s) := by
    ext t
    simp only [before, ofLength, Finset.mem_filter, Finset.mem_union]
    constructor
    · rintro ⟨ht, h0, hlt | ⟨heq, hlt⟩⟩
      · exact .inl ⟨ht, h0, hlt⟩
      · exact .inr ⟨⟨ht, heq⟩, hlt⟩
    · rintro (⟨ht, h0, hlt⟩ | ⟨⟨ht, heq⟩, hlt⟩)
      · exact ⟨ht, h0, .inl hlt⟩
      · exact ⟨ht, by omega, .inr ⟨heq, hlt⟩⟩
  have hdisj : Disjoint ((Finset.range n).filter fun t => 0 < len t ∧ len t < len s)
      ((ofLength len n (len s)).filter (· < s)) := by
    rw [Finset.disjoint_left]
    intro t ht ht'
    have hlt := (Finset.mem_filter.mp ht).2.2
    have heq := (mem_ofLength.mp (Finset.mem_filter.mp ht').1).2
    omega
  rw [codeword, hunion, Finset.sum_union hdisj, sum_shorter fun i => 2 ^ (len s - i), first, rank]
  congr 1
  rw [Finset.card_eq_sum_ones]
  refine Finset.sum_congr rfl fun t ht => ?_
  rw [(mem_ofLength.mp (Finset.mem_filter.mp ht).1).2, Nat.sub_self, pow_zero]

theorem first_add_count_le (hl : l < len s) :
    (first len n l + count len n l) * 2 ^ (len s - l) ≤ codeword len n s := by
  have hstep : (first len n l + count len n l) * 2 ^ (len s - l) =
      ∑ i ∈ Finset.range (l + 1), count len n i * 2 ^ (len s - i) := by
    rw [Finset.sum_range_succ, add_mul, first, Finset.sum_mul]
    congr 1
    refine Finset.sum_congr rfl fun i hi => ?_
    have hil := Finset.mem_range.mp hi
    rw [mul_assoc, ← pow_add]
    congr 2
    omega
  rw [hstep, codeword_eq (by omega), first]
  exact le_add_right (Finset.sum_le_sum_of_subset (Finset.range_subset_range.mpr hl))

theorem codeword_lt (hk : Kraft len n m) (hs : s < n) (hpos : 0 < len s) (hm : len s ≤ m) :
    codeword len n s < 2 ^ len s := by
  have hmem : s ∉ before len n s := by simp [before]
  have hsub : insert s (before len n s) ⊆ (Finset.range n).filter (0 < len ·) := by
    intro t ht
    rcases Finset.mem_insert.mp ht with rfl | ht
    · exact Finset.mem_filter.mpr ⟨Finset.mem_range.mpr hs, hpos⟩
    · have ht' := Finset.mem_filter.mp ht
      exact Finset.mem_filter.mpr ⟨ht'.1, ht'.2.1⟩
  have hle := (Finset.sum_le_sum_of_subset (f := fun t => 2 ^ (m - len t)) hsub).trans hk
  rw [Finset.sum_insert hmem] at hle
  have hscale : ∑ t ∈ before len n s, 2 ^ (m - len t) = codeword len n s * 2 ^ (m - len s) := by
    rw [codeword, Finset.sum_mul]
    refine Finset.sum_congr rfl fun t ht => ?_
    have hlen : len t ≤ len s := by
      rcases (Finset.mem_filter.mp ht).2.2 with h | h <;> omega
    rw [← pow_add]
    congr 1
    omega
  have hpow : 2 ^ m = 2 ^ len s * 2 ^ (m - len s) := by rw [← pow_add]; congr 1; omega
  rw [hscale, hpow] at hle
  have hunit := Nat.two_pow_pos (m - len s)
  by_contra hge
  have := Nat.mul_le_mul_right (2 ^ (m - len s)) (Nat.not_lt.mp hge)
  omega

end Canonical

end Csolver.Lib
