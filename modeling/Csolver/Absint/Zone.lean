import Csolver.Absint.Interval

/-!
# Zones: difference bounds between variables (`crates/absint/src/zone.rs`)

A matrix of upper bounds on differences of variables, with the constant zero for variable 0. The
domain has one element without a matrix, its bottom, but closing a matrix under transitivity marks an
infeasible one as bottom too and keeps the matrix. Those are further elements that the order cannot
tell from bottom, and equality can.
-/

namespace Csolver

/-- `i128::saturating_add` and `saturating_sub`, of an exact result. -/
def I128.saturating (z : Int) : I128 :=
  (I128.checked z).getD (if z < 0 then ⟨-2 ^ 127, I128.min_lo, I128.min_hi⟩
    else ⟨2 ^ 127 - 1, I128.max_lo, I128.max_hi⟩)

/-- A difference bound; `none` is `+∞`. -/
abbrev Bnd := Option I128

namespace Bnd

def add : Bnd → Bnd → Bnd
  | some x, some y => some (I128.saturating (x.val + y.val))
  | _, _ => none

def min : Bnd → Bnd → Bnd
  | some x, some y => some (if x.val ≤ y.val then x else y)
  | some x, none | none, some x => some x
  | none, none => none

def max : Bnd → Bnd → Bnd
  | some x, some y => some (if x.val ≤ y.val then y else x)
  | _, _ => none

def le : Bnd → Bnd → Bool
  | _, none => true
  | none, some _ => false
  | some x, some y => decide (x.val ≤ y.val)

/-- The widening of one bound: kept if it did not change. -/
def keep (x y : Bnd) : Bnd := if x = y then x else none

theorem max_comm (x y : Bnd) : max x y = max y x := by
  cases x <;> cases y <;> simp only [max]
  rename_i a b
  congr 1
  split_ifs with h h' <;> first | rfl | exact I128.ext (by omega)

theorem max_assoc (x y z : Bnd) : max (max x y) z = max x (max y z) := by
  cases x <;> cases y <;> cases z <;> simp only [max]
  congr 1
  split_ifs <;> first | rfl | exact I128.ext (by omega)

theorem max_self (x : Bnd) : max x x = x := by
  cases x <;> simp [max]

theorem le_refl (x : Bnd) : le x x = true := by
  cases x <;> simp [le]

theorem le_trans {x y z : Bnd} (hxy : le x y = true) (hyz : le y z = true) : le x z = true := by
  cases x <;> cases y <;> cases z <;> simp_all [le]
  omega

theorem le_antisymm {x y : Bnd} (hxy : le x y = true) (hyx : le y x = true) : x = y := by
  cases x <;> cases y <;> simp_all [le]
  exact I128.ext (by omega)

theorem le_max_left (x y : Bnd) : le x (max x y) = true := by
  cases x <;> cases y <;> simp only [max, le, decide_eq_true_eq]
  split_ifs <;> omega

theorem le_keep_left (x y : Bnd) : le x (keep x y) = true := by
  unfold keep
  split_ifs
  · exact le_refl x
  · cases x <;> rfl

theorem le_keep_right (x y : Bnd) : le y (keep x y) = true := by
  unfold keep
  split_ifs with h
  · rw [h]
    exact le_refl y
  · cases y <;> rfl

end Bnd

/-! ## Matrices -/

abbrev Dbm := List (List Bnd)

namespace Dbm

def entry (m : Dbm) (i j : Nat) : Bnd := (m.getD i []).getD j none

def setEntry (m : Dbm) (i j : Nat) (v : Bnd) : Dbm := m.modify i (·.set j v)

/-- `combine`: element-wise. -/
def combine (a b : Dbm) (f : Bnd → Bnd → Bnd) : Dbm := List.zipWith (List.zipWith f) a b

structure Square (n : Nat) (m : Dbm) : Prop where
  rows : m.length = n
  cols : ∀ row ∈ m, row.length = n

theorem Square.setEntry {n : Nat} {m : Dbm} (h : Square n m) (i j : Nat) (v : Bnd) :
    Square n (m.setEntry i j v) where
  rows := by rw [Dbm.setEntry, List.length_modify, h.rows]
  cols row hrow := by
    obtain ⟨k, hk, rfl⟩ := List.mem_iff_getElem.mp hrow
    have hk' : k < m.length := by rwa [Dbm.setEntry, List.length_modify] at hk
    simp only [Dbm.setEntry, List.getElem_modify]
    split_ifs
    · rw [List.length_set]
      exact h.cols _ (List.getElem_mem hk')
    · exact h.cols _ (List.getElem_mem hk')

theorem Square.foldl {ι : Type} {n : Nat} {f : Dbm → ι → Dbm} (l : List ι)
    (hf : ∀ m i, Square n m → Square n (f m i)) {m : Dbm} (h : Square n m) : Square n (l.foldl f m) := by
  induction l generalizing m with
  | nil => exact h
  | cons i l ih => exact ih (hf m i h)

theorem Square.combine {n : Nat} {a b : Dbm} (ha : Square n a) (hb : Square n b)
    (f : Bnd → Bnd → Bnd) : Square n (combine a b f) where
  rows := by rw [Dbm.combine, List.length_zipWith, ha.rows, hb.rows, Nat.min_self]
  cols row hrow := by
    obtain ⟨k, hk, rfl⟩ := List.mem_iff_getElem.mp hrow
    rw [Dbm.combine, List.length_zipWith, Nat.lt_min] at hk
    simp only [Dbm.combine, List.getElem_zipWith, List.length_zipWith]
    rw [ha.cols _ (List.getElem_mem hk.1), hb.cols _ (List.getElem_mem hk.2), Nat.min_self]

theorem entry_eq {m : Dbm} {i j : Nat} (hi : i < m.length) (hj : j < m[i].length) :
    m.entry i j = m[i][j] := by
  rw [entry, List.getD_eq_getElem?_getD, List.getD_eq_getElem?_getD, List.getElem?_eq_getElem hi,
    Option.getD_some, List.getElem?_eq_getElem hj, Option.getD_some]

theorem entry_combine {n : Nat} {a b : Dbm} (ha : Square n a) (hb : Square n b)
    (f : Bnd → Bnd → Bnd) {i j : Nat} (hi : i < n) (hj : j < n) :
    (combine a b f).entry i j = f (a.entry i j) (b.entry i j) := by
  have hia : i < a.length := by rw [ha.rows]; exact hi
  have hib : i < b.length := by rw [hb.rows]; exact hi
  have hja : j < a[i].length := by rw [ha.cols _ (List.getElem_mem hia)]; exact hj
  have hjb : j < b[i].length := by rw [hb.cols _ (List.getElem_mem hib)]; exact hj
  have hic : i < (combine a b f).length := by rw [(ha.combine hb f).rows]; exact hi
  have hjc : j < (combine a b f)[i].length := by
    rw [(ha.combine hb f).cols _ (List.getElem_mem hic)]
    exact hj
  rw [entry_eq hic hjc, entry_eq hia hja, entry_eq hib hjb]
  simp only [combine, List.getElem_zipWith]

theorem ext_entry {n : Nat} {a b : Dbm} (ha : Square n a) (hb : Square n b)
    (h : ∀ i < n, ∀ j < n, a.entry i j = b.entry i j) : a = b := by
  refine List.ext_getElem (ha.rows.trans hb.rows.symm) fun i hia hib => ?_
  have hrow := (ha.cols _ (List.getElem_mem hia)).trans (hb.cols _ (List.getElem_mem hib)).symm
  refine List.ext_getElem hrow fun j hja hjb => ?_
  have hj : j < n := by rwa [ha.cols _ (List.getElem_mem hia)] at hja
  rw [← entry_eq hia hja, ← entry_eq hib hjb]
  exact h i (by rwa [ha.rows] at hia) j hj

def finite (m : Dbm) : Nat := (m.map fun row => row.countP Option.isSome).sum

theorem countP_keep (a b : List Bnd) (h : a.length = b.length) :
    (List.zipWith Bnd.keep a b).countP Option.isSome ≤ a.countP Option.isSome ∧
      ((List.zipWith Bnd.keep a b).countP Option.isSome = a.countP Option.isSome →
        List.zipWith Bnd.keep a b = a) := by
  induction a generalizing b with
  | nil => exact ⟨Nat.le_refl _, fun _ => rfl⟩
  | cons x a ih =>
    cases b with
    | nil => exact absurd h (by simp)
    | cons y b =>
      obtain ⟨hle, heq⟩ := ih b (by simpa using h)
      rw [List.zipWith_cons_cons, List.countP_cons, List.countP_cons]
      unfold Bnd.keep at *
      by_cases hxy : x = y
      · rw [if_pos hxy]
        exact ⟨by omega, fun he => by rw [heq (by omega)]⟩
      · rw [if_neg hxy]
        cases x with
        | none => exact ⟨by omega, fun he => by rw [heq (by omega)]⟩
        | some v => simp only [Option.isSome_none, Option.isSome_some]; exact ⟨by simp; omega, by simp; omega⟩

theorem finite_keep {n : Nat} : ∀ {a b : Dbm}, a.length = b.length → (∀ r ∈ a, r.length = n) →
    (∀ r ∈ b, r.length = n) → finite (combine a b Bnd.keep) ≤ finite a ∧
      (finite (combine a b Bnd.keep) = finite a → combine a b Bnd.keep = a)
  | [], _, _, _, _ => ⟨Nat.le_refl _, fun _ => rfl⟩
  | r :: a, [], h, _, _ => absurd h (by simp)
  | r :: a, q :: b, h, ha, hb => by
    obtain ⟨hle, heq⟩ := finite_keep (a := a) (b := b) (by simpa using h)
      (fun r hr => ha r (List.mem_cons_of_mem _ hr)) fun r hr => hb r (List.mem_cons_of_mem _ hr)
    obtain ⟨hle', heq'⟩ := countP_keep r q
      ((ha r List.mem_cons_self).trans (hb q List.mem_cons_self).symm)
    have hcons : combine (r :: a) (q :: b) Bnd.keep
        = List.zipWith Bnd.keep r q :: combine a b Bnd.keep := rfl
    rw [hcons]
    simp only [finite, List.map_cons, List.sum_cons] at *
    exact ⟨by omega, fun he => by rw [heq' (by omega), heq (by omega)]⟩

end Dbm

/-! ## Zones -/

/-- `Zone`: entry `(i, j)` of the matrix is a bound on `vⱼ - vᵢ`. -/
structure Zone where
  m : Dbm
  bottom : Bool
  deriving DecidableEq

namespace Zone

/-- The unconstrained zone over `nvars` variables. -/
def top (nvars : Nat) : Zone :=
  ⟨(List.range (nvars + 1)).map fun i => (List.range (nvars + 1)).map fun j =>
    if i = j then some ⟨0, I128.zero_lo, I128.zero_hi⟩ else none, false⟩

def nvars (z : Zone) : Nat := z.m.length - 1

/-- One relaxation of `close`. -/
def relax (m : Dbm) (k i j : Nat) : Dbm :=
  m.setEntry i j (Bnd.min (m.entry i j) (Bnd.add (m.entry i k) (m.entry k j)))

/-- The three loops of `close`. -/
def tighten (m : Dbm) : Dbm :=
  (List.range m.length).foldl (fun m' k => (List.range m.length).foldl (fun m' i =>
    (List.range m.length).foldl (fun m' j => relax m' k i j) m') m') m

/-- Some variable would have to be smaller than itself. -/
def negativeCycle (m : Dbm) : Bool :=
  (List.range m.length).any fun i => match m.entry i i with
    | some c => decide (c.val < 0)
    | none => false

/-- `close`: the matrix stays when the zone turns out infeasible. -/
def close (z : Zone) : Zone :=
  let m := tighten z.m
  if negativeCycle m then ⟨m, true⟩ else ⟨m, z.bottom⟩

/-- `vₐ - v_b ≤ c`. -/
def addConstraint (z : Zone) (a b : Nat) (c : I128) : Zone :=
  if z.bottom || decide (z.m.length ≤ a) || decide (z.m.length ≤ b) then z
  else close { z with m := z.m.setEntry b a (Bnd.min (z.m.entry b a) (some c)) }

def forget (z : Zone) (k : Nat) : Zone :=
  if z.bottom || decide (k = 0) || decide (z.m.length ≤ k) then z
  else
    let m := (List.range z.m.length).foldl (fun m i =>
      if i = k then m else (m.setEntry k i none).setEntry i k none) z.m
    { z with m := m.setEntry k k (some ⟨0, I128.zero_lo, I128.zero_hi⟩) }

/-- `vₖ ← vₖ + c`. -/
def translate (z : Zone) (k : Nat) (c : I128) : Zone :=
  if z.bottom || decide (k = 0) || decide (z.m.length ≤ k) then z
  else
    { z with m := (List.range z.m.length).foldl (fun m j =>
        if j = k then m
        else
          let m := m.setEntry j k ((m.entry j k).map fun b => I128.saturating (b.val + c.val))
          m.setEntry k j ((m.entry k j).map fun b => I128.saturating (b.val - c.val))) z.m }

/-- `AbstractDomain::bottom`, without a matrix. -/
def bot : Zone := ⟨[], true⟩

def join (a b : Zone) : Zone :=
  if a.bottom then b
  else if b.bottom || decide (a.nvars ≠ b.nvars) then a
  else ⟨Dbm.combine a.m b.m Bnd.max, false⟩

def meet (a b : Zone) : Zone :=
  if a.bottom || b.bottom then bot
  else if a.nvars ≠ b.nvars then a
  else close ⟨Dbm.combine a.m b.m Bnd.min, false⟩

def widen (a b : Zone) : Zone :=
  if a.bottom then b
  else if b.bottom || decide (a.nvars ≠ b.nvars) then a
  else ⟨Dbm.combine a.m b.m Bnd.keep, false⟩

def leq (a b : Zone) : Bool :=
  if a.bottom then true
  else if b.bottom || decide (a.nvars ≠ b.nvars) then false
  else (List.range a.m.length).all fun i => (List.range a.m.length).all fun j =>
    Bnd.le (a.m.entry i j) (b.m.entry i j)

instance : AbstractDomain Zone := ⟨bot, join, widen, leq⟩

/-- The zones that the public operations build. -/
inductive Producible : Zone → Prop
  | top (n : Nat) : Producible (top n)
  | bot : Producible bot
  | addConstraint {z : Zone} (a b : Nat) (c : I128) : Producible z → Producible (z.addConstraint a b c)
  | forget {z : Zone} (k : Nat) : Producible z → Producible (z.forget k)
  | translate {z : Zone} (k : Nat) (c : I128) : Producible z → Producible (z.translate k c)
  | join {a b : Zone} : Producible a → Producible b → Producible (a.join b)
  | meet {a b : Zone} : Producible a → Producible b → Producible (a.meet b)
  | widen {a b : Zone} : Producible a → Producible b → Producible (a.widen b)

/-- A feasible zone has a square matrix over its variables and the zero. -/
def Shaped (z : Zone) : Prop := z.bottom = false → Dbm.Square (z.nvars + 1) z.m

theorem Shaped.of_square {n : Nat} {m : Dbm} {b : Bool} (h : Dbm.Square (n + 1) m) :
    Shaped ⟨m, b⟩ := by
  intro _
  have hn : nvars ⟨m, b⟩ = n := by
    rw [nvars, h.rows]
    rfl
  rw [hn]
  exact h

theorem square_tighten {n : Nat} {m : Dbm} (h : Dbm.Square n m) : Dbm.Square n (tighten m) :=
  h.foldl _ fun _ _ h => h.foldl _ fun _ _ h => h.foldl _ fun _ _ h => h.setEntry _ _ _

theorem Shaped.close {n : Nat} {m : Dbm} {b : Bool} (h : Dbm.Square (n + 1) m) :
    Shaped (close ⟨m, b⟩) := by
  unfold Zone.close
  simp only
  split_ifs
  · exact .of_square (square_tighten h)
  · exact .of_square (square_tighten h)

theorem square_top (n : Nat) : Dbm.Square (n + 1) (top n).m where
  rows := by simp [top]
  cols row hrow := by
    obtain ⟨i, _, rfl⟩ := List.mem_map.mp hrow
    simp

theorem Producible.shaped {z : Zone} (h : Producible z) : Shaped z := by
  induction h with
  | top n => exact .of_square (square_top n)
  | bot => exact fun hb => absurd hb (by decide)
  | @addConstraint z a b c _ ih =>
    unfold Zone.addConstraint
    split_ifs with hc
    · exact ih
    · have hb : z.bottom = false := by simp at hc; exact hc.1.1
      exact .close ((ih hb).setEntry _ _ _)
  | @forget z k _ ih =>
    unfold Zone.forget
    split_ifs with hc
    · exact ih
    · have hb : z.bottom = false := by simp at hc; exact hc.1.1
      refine .of_square (Dbm.Square.setEntry ((ih hb).foldl _ fun m i hm => ?_) _ _ _)
      split_ifs
      · exact hm
      · exact (hm.setEntry _ _ _).setEntry _ _ _
  | @translate z k c _ ih =>
    unfold Zone.translate
    split_ifs with hc
    · exact ih
    · have hb : z.bottom = false := by simp at hc; exact hc.1.1
      refine .of_square ((ih hb).foldl _ fun m i hm => ?_)
      split_ifs
      · exact hm
      · exact (hm.setEntry _ _ _).setEntry _ _ _
  | @join a b _ _ iha ihb =>
    unfold Zone.join
    split_ifs with ha hc
    · exact ihb
    · exact iha
    · simp only [Bool.or_eq_true, decide_eq_true_eq, not_or, not_not, Bool.not_eq_true] at ha hc
      have hb := ihb hc.1
      rw [← hc.2] at hb
      exact .of_square ((iha ha).combine hb _)
  | @meet a b _ _ iha ihb =>
    unfold Zone.meet
    split_ifs with hab hn
    · exact fun hb => absurd hb (by decide)
    · exact iha
    · simp only [Bool.or_eq_true, not_or, Bool.not_eq_true, ne_eq, not_not] at hab hn
      have hb := ihb hab.2
      rw [← hn] at hb
      exact .close ((iha hab.1).combine hb _)
  | @widen a b _ _ iha ihb =>
    unfold Zone.widen
    split_ifs with ha hc
    · exact ihb
    · exact iha
    · simp only [Bool.or_eq_true, decide_eq_true_eq, not_or, not_not, Bool.not_eq_true] at ha hc
      have hb := ihb hc.1
      rw [← hc.2] at hb
      exact .of_square ((iha ha).combine hb _)

end Zone

end Csolver
