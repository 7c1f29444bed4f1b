import Csolver.Absint.ZoneClose

/-!
# What the operations of zones do to valuations

A zone stands for the integer valuations of its variables that keep its bounds. Adding a constraint and meeting
intersect, joining and forgetting lose nothing, and translating shifts; saturation is what may go wrong, and the
lower bound of a variable is the opposite of an entry, which overflows for `i128::MIN`. That is the entry that
every query of the bottom zone gives.
-/

namespace Csolver

open Lib Lib.Differences

namespace Zone

/-- The valuation is in the zone; variable 0 is the constant zero. -/
structure Has (z : Zone) (v : Nat → Int) : Prop where
  feasible : z.bottom = false
  zero : v 0 = 0
  sat : Sat z.m.length z.m.bound v

/-! ## Queries -/

/-- `get`: the bottom is vacuously tight. -/
def get (z : Zone) (i j : Nat) : Bnd := if z.bottom then some ⟨-2 ^ 127, I128.min_lo, I128.min_hi⟩ else z.m.entry i j

def upper (z : Zone) (k : Nat) : Bnd := z.get 0 k

/-- `lower`, which overflows where the opposite of the bound is no `i128`. -/
def lower (z : Zone) (k : Nat) : Option Bnd :=
  match z.get k 0 with
  | none => some none
  | some c => (I128.checked (-c.val)).map some

def diffUpper (z : Zone) (a b : Nat) : Bnd := z.get b a

/-! ## Operations -/

/-- An operation on a zone. -/
inductive Op where
  | addConstraint (a b : Nat) (c : I128)
  | meet (other : Zone)
  | join (other : Zone)
  | forget (k : Nat)
  | translate (k : Nat) (c : I128)
  | upper (k : Nat)
  | lower (k : Nat)
  | diffUpper (a b : Nat)

/-- The result has the valuations of `P`, and is bottom exactly if there are none. -/
def Exactly (z : Zone) (P : (Nat → Int) → Prop) : Prop := (∀ v, Has z v ↔ P v) ∧ (z.bottom = true ↔ ¬ ∃ v, P v)

/-- The operation does what it is for. -/
def Right (z : Zone) : Op → Prop
  | .addConstraint a b c => Exactly (z.addConstraint a b c) fun v => Has z v ∧ v a - v b ≤ c.val
  | .meet y => Exactly (z.meet y) fun v => Has z v ∧ Has y v
  | .join y => ∀ v, Has z v ∨ Has y v → Has (z.join y) v
  | .forget k => ∀ v x, Has z v → Has (z.forget k) (Function.update v k x)
  | .translate k c => (∀ v, Has z v → Has (z.translate k c) (Function.update v k (v k + c.val))) ∧
      (Closed z.m.length z.m.bound → Closed (z.translate k c).m.length (z.translate k c).m.bound)
  | .upper k => ∀ u, z.upper k = some u → ∀ v, Has z v → v k ≤ u.val
  | .lower k => ∃ l, z.lower k = some l ∧ ∀ c, l = some c → ∀ v, Has z v → c.val ≤ v k
  | .diffUpper a b => ∀ u, z.diffUpper a b = some u → ∀ v, Has z v → v a - v b ≤ u.val

/-- Closing the matrix does not go wrong: a difference that has a bound is at most `i128::MAX`, and no sum falls
below `i128::MIN` before an infeasible matrix is found out. -/
structure CloseInRange (m : Dbm) : Prop where
  bounded : ∀ v, Sat m.length m.bound v → ∀ i j, Joined m i j → v j - v i ≤ 2 ^ 127 - 1
  empty : (¬ ∃ v, Sat m.length m.bound v) → NoUnderflow (steps m.length) m

/-- The bound stays within `i128` when it is shifted; below only as far as it has to. -/
def ShiftInRange (z : Zone) (x : Bnd) (c : Int) : Prop :=
  ∀ u, x = some u → u.val + c < 2 ^ 127 ∧ (Closed z.m.length z.m.bound → -2 ^ 127 ≤ u.val + c)

/-- The arguments for which an operation does what it is for: they are variables of the zone and zones over the
same variables, and nothing saturates to a bound that is wrong. -/
def InRange (z : Zone) : Op → Prop
  | .addConstraint a b c => z.bottom = true ∨ (a < z.m.length ∧ b < z.m.length ∧
      CloseInRange (z.m.setEntry b a (Bnd.min (z.m.entry b a) (some c))))
  | .meet y => z.bottom = true ∨ y.bottom = true ∨ (z.nvars = y.nvars ∧ CloseInRange (Dbm.combine z.m y.m Bnd.min))
  | .join y => z.bottom = true ∨ y.bottom = true ∨ z.nvars = y.nvars
  | .forget k => 0 < k
  | .translate k c => 0 < k ∧ (z.bottom = true ∨ ∀ j, j ≠ k →
      ShiftInRange z (z.m.entry j k) c.val ∧ ShiftInRange z (z.m.entry k j) (-c.val))
  | .upper k => z.bottom = true ∨ k < z.m.length
  | .lower k => z.bottom = false ∧ k < z.m.length ∧ z.m.entry k 0 ≠ some ⟨-2 ^ 127, I128.min_lo, I128.min_hi⟩
  | .diffUpper a b => z.bottom = true ∨ (a < z.m.length ∧ b < z.m.length)

/-- The arguments are variables of the zone, and adding a constraint or meeting leaves some valuation. -/
def Posed (z : Zone) : Op → Prop
  | .addConstraint a b c => a < z.m.length ∧ b < z.m.length ∧ ∃ v, Has z v ∧ v a - v b ≤ c.val
  | .meet y => z.nvars = y.nvars ∧ ∃ v, Has z v ∧ Has y v
  | .join y => z.nvars = y.nvars
  | .forget k => 0 < k
  | .translate _ _ => False
  | .upper k | .lower k => k < z.m.length
  | .diffUpper a b => a < z.m.length ∧ b < z.m.length

/-- The other zone of an operation is one that the public operations build. -/
def Op.Producible : Op → Prop
  | .meet y | .join y => y.Producible
  | _ => True

/-! ## Closing -/

variable {n : Nat} {m : Dbm} {z y : Zone} {v : Nat → Int}

theorem exists_zero (h : ∃ v, Sat n m.bound v) : ∃ v, v 0 = 0 ∧ Sat n m.bound v := by
  obtain ⟨v, hv⟩ := h
  refine ⟨fun i => v i - v 0, Int.sub_self _, fun i hi j hj => ?_⟩
  have hdiff : v j - v 0 - (v i - v 0) = v j - v i := by omega
  simp only [hdiff]
  exact hv i hi j hj

theorem not_negativeCycle (h : Dbm.Square n m) (hv : Sat n (tighten m).bound v) : negativeCycle (tighten m) = false := by
  rw [← Bool.not_eq_true, negativeCycle_iff]
  rintro ⟨d, hd, hlt⟩
  rw [(square_tighten h).rows] at hd
  exact absurd (hv.diag_nonneg hd) (not_le.mpr hlt)

theorem close_of_sat (h : Dbm.Square n m) (hv : Sat n (tighten m).bound v) : close ⟨m, false⟩ = ⟨tighten m, false⟩ := by
  unfold close
  simp only [not_negativeCycle h hv, Bool.false_eq_true, if_false]

theorem close_exact (h : Dbm.Square n m) (hr : CloseInRange m) :
    Exactly (close ⟨m, false⟩) fun v => v 0 = 0 ∧ Sat n m.bound v := by
  obtain ⟨hbounded, hempty⟩ := hr
  rw [h.rows] at hbounded hempty
  have hstay : ∀ v, Sat n m.bound v → Sat n (tighten m).bound v := fun v hv => sat_tighten h hv (hbounded v hv)
  constructor
  · intro v
    constructor
    · intro ⟨hb, h0, hsat⟩
      have hm : (close ⟨m, false⟩).m = tighten m := by
        unfold close
        simp only
        split_ifs <;> rfl
      rw [hm, (square_tighten h).rows] at hsat
      refine ⟨h0, hsat.mono fun i _ j _ => ?_⟩
      rw [tighten_eq_steps, h.rows]
      exact relaxSteps_le (fun s hs => mem_steps hs) h i j
    · intro ⟨h0, hsat⟩
      rw [close_of_sat h (hstay v hsat)]
      refine ⟨rfl, h0, ?_⟩
      rw [(square_tighten h).rows]
      exact hstay v hsat
  · constructor
    · intro hb ⟨v, _, hv⟩
      rw [close_of_sat h (hstay v hv)] at hb
      exact absurd hb Bool.false_ne_true
    · intro hno
      have hinf : ¬ ∃ v, Sat n m.bound v := fun hv => hno (exists_zero hv)
      obtain ⟨d, hd, hlt⟩ := negativeCycle_of_empty h hinf (hempty hinf)
      have hneg : negativeCycle (tighten m) = true :=
        (negativeCycle_iff _).mpr ⟨d, by rw [(square_tighten h).rows]; exact hd, hlt⟩
      unfold close
      simp only [hneg, if_true]

theorem closeInRange_of_exactly (h : Dbm.Square n m) (hv : ∃ v, Sat n m.bound v)
    (hex : Exactly (close ⟨m, false⟩) fun v => v 0 = 0 ∧ Sat n m.bound v) : CloseInRange m := by
  constructor
  · intro v hsat i j hij
    rw [h.rows] at hsat
    -- the same differences, with variable 0 at zero
    have hdiff : ∀ i j, (v j - v 0) - (v i - v 0) = v j - v i := fun i j => by omega
    have hshift : Sat n m.bound fun i => v i - v 0 := by
      intro i hi j hj
      simp only [hdiff]
      exact hsat i hi j hj
    have hhas : Has (close ⟨m, false⟩) fun i => v i - v 0 := (hex.1 _).mpr ⟨Int.sub_self _, hshift⟩
    have hm : (close ⟨m, false⟩).m = tighten m := by
      unfold close
      simp only
      split_ifs <;> rfl
    have hclosed := hhas.sat
    rw [hm, (square_tighten h).rows] at hclosed
    rcases bound_ne_top_of_joined h hsat hij with rfl | ⟨hi, hj, hne⟩
    · omega
    · have hle := hclosed i hi j hj
      simp only [hdiff] at hle
      rw [Dbm.bound] at hle hne
      cases he : (tighten m).entry i j with
      | none =>
        rw [he] at hne
        exact absurd rfl hne
      | some u =>
        rw [he] at hle
        have hhi := u.hi
        have hle' : v j - v i ≤ u.val := WithTop.coe_le_coe.mp hle
        omega
  · intro hempty
    rw [h.rows] at hempty
    exact absurd hv hempty

/-! ## Matrices of the operations -/

theorem Producible.square (hz : z.Producible) (hb : z.bottom = false) : Dbm.Square z.m.length z.m := by
  have h := hz.shaped hb
  have hlen : z.m.length = z.nvars + 1 := h.rows
  rw [hlen]
  exact h

theorem Producible.length_pos (hz : z.Producible) (hb : z.bottom = false) : 0 < z.m.length := by
  rw [(hz.shaped hb).rows]
  exact Nat.succ_pos _

theorem sat_setEntry_min (h : Dbm.Square n m) {a b : Nat} (ha : a < n) (hb : b < n) (c : I128) :
    Sat n (m.setEntry b a (Bnd.min (m.entry b a) (some c))).bound v ↔ Sat n m.bound v ∧ v a - v b ≤ c.val := by
  constructor
  · intro hv
    have hnew := hv b hb a ha
    rw [Dbm.bound_setEntry h hb ha, if_pos ⟨rfl, rfl⟩, Bnd.val_min] at hnew
    refine ⟨hv.mono fun i _ j _ => ?_, WithTop.coe_le_coe.mp (hnew.trans (min_le_right _ _))⟩
    rw [Dbm.bound_setEntry h hb ha]
    split_ifs with hij
    · rw [Bnd.val_min, hij.1, hij.2]
      exact min_le_left _ _
    · exact le_refl _
  · intro ⟨hv, hc⟩ i hi j hj
    rw [Dbm.bound_setEntry h hb ha]
    split_ifs with hij
    · rw [Bnd.val_min, hij.1, hij.2]
      exact le_min (hv b hb a ha) (WithTop.coe_le_coe.mpr hc)
    · exact hv i hi j hj

theorem bound_combine {a b : Dbm} (ha : Dbm.Square n a) (hb : Dbm.Square n b) (f : Bnd → Bnd → Bnd) {i j : Nat}
    (hi : i < n) (hj : j < n) : (Dbm.combine a b f).bound i j = (f (a.entry i j) (b.entry i j)).val := by
  rw [Dbm.bound, Dbm.entry_combine ha hb f hi hj]

theorem sat_combine_min {a b : Dbm} (ha : Dbm.Square n a) (hb : Dbm.Square n b) :
    Sat n (Dbm.combine a b Bnd.min).bound v ↔ Sat n a.bound v ∧ Sat n b.bound v := by
  constructor
  · intro hv
    refine ⟨hv.mono fun i hi j hj => ?_, hv.mono fun i hi j hj => ?_⟩
    · rw [bound_combine ha hb _ hi hj, Bnd.val_min]
      exact min_le_left _ _
    · rw [bound_combine ha hb _ hi hj, Bnd.val_min]
      exact min_le_right _ _
  · intro ⟨hva, hvb⟩ i hi j hj
    rw [bound_combine ha hb _ hi hj, Bnd.val_min]
    exact le_min (hva i hi j hj) (hvb i hi j hj)

theorem sat_combine_max {a b : Dbm} (ha : Dbm.Square n a) (hb : Dbm.Square n b)
    (hv : Sat n a.bound v ∨ Sat n b.bound v) : Sat n (Dbm.combine a b Bnd.max).bound v := by
  intro i hi j hj
  rw [bound_combine ha hb _ hi hj, Bnd.val_max]
  rcases hv with hv | hv
  · exact le_max_of_le_left (hv i hi j hj)
  · exact le_max_of_le_right (hv i hi j hj)

/-- What a loop over the row and the column of variable `k` does, if a turn of it does `f` and `g` to one entry of
the column and of the row. -/
theorem entry_cross {k : Nat} {f g : Bnd → Bnd} {t : Dbm → Nat → Dbm} (hsame : ∀ m, t m k = m)
    (hturn : ∀ m j, Dbm.Square n m → j < n → j ≠ k → Dbm.Square n (t m j) ∧ ∀ a b, (t m j).entry a b =
      if a = j ∧ b = k then f (m.entry a b) else if a = k ∧ b = j then g (m.entry a b) else m.entry a b)
    {l : List Nat} (hl : ∀ j ∈ l, j < n) (hnodup : l.Nodup) (h : Dbm.Square n m) :
    Dbm.Square n (l.foldl t m) ∧ ∀ a b, (l.foldl t m).entry a b =
      if a ∈ l ∧ a ≠ k ∧ b = k then f (m.entry a b)
      else if b ∈ l ∧ b ≠ k ∧ a = k then g (m.entry a b) else m.entry a b := by
  induction l generalizing m with
  | nil => exact ⟨h, fun a b => by simp⟩
  | cons j l ih =>
    have hl' : ∀ i ∈ l, i < n := fun i hi => hl i (List.mem_cons_of_mem j hi)
    have hj : j ∉ l := (List.nodup_cons.mp hnodup).1
    by_cases hjk : j = k
    · subst hjk
      rw [List.foldl_cons, hsame]
      obtain ⟨hsq, hentry⟩ := ih hl' (List.nodup_cons.mp hnodup).2 h
      refine ⟨hsq, fun a b => ?_⟩
      rw [hentry]
      simp only [List.mem_cons]
      grind
    · obtain ⟨hsq, hfirst⟩ := hturn m j h (hl j List.mem_cons_self) hjk
      obtain ⟨hsq', hentry⟩ := ih hl' (List.nodup_cons.mp hnodup).2 hsq
      refine ⟨hsq', fun a b => ?_⟩
      rw [List.foldl_cons, hentry, hfirst]
      simp only [List.mem_cons]
      grind

theorem forget_eq {k : Nat} (hb : z.bottom = false) (hk : 0 < k) (hk' : k < z.m.length) (h : Dbm.Square z.m.length z.m) :
    (z.forget k).bottom = false ∧ (z.forget k).m.length = z.m.length ∧ ∀ a < z.m.length, ∀ b < z.m.length,
      (z.forget k).m.entry a b = if a = k ∧ b = k then some ⟨0, I128.zero_lo, I128.zero_hi⟩
        else if a = k ∨ b = k then none else z.m.entry a b := by
  have hguard : (z.bottom || decide (k = 0) || decide (z.m.length ≤ k)) = false := by
    simp only [hb, Bool.false_or, Bool.or_eq_false_iff, decide_eq_false_iff_not]
    omega
  unfold forget
  simp only [hguard, Bool.false_eq_true, if_false]
  obtain ⟨hsq, hentry⟩ := entry_cross (k := k) (f := fun _ => none) (g := fun _ => none)
    (t := fun m i => if i = k then m else (m.setEntry k i none).setEntry i k none) (fun m => if_pos rfl)
    (fun m j hm hj hjk => by
      simp only [if_neg hjk]
      refine ⟨(hm.setEntry _ _ _).setEntry _ _ _, fun a b => ?_⟩
      rw [Dbm.entry_setEntry (hm.setEntry _ _ _) hj hk', Dbm.entry_setEntry hm hk' hj])
    (l := List.range z.m.length) (fun j hj => List.mem_range.mp hj) List.nodup_range h
  refine ⟨hb, (hsq.setEntry _ _ _).rows, fun a ha b hb' => ?_⟩
  rw [Dbm.entry_setEntry hsq hk' hk', hentry]
  simp only [List.mem_range]
  grind

theorem translate_eq {k : Nat} {c : I128} (hb : z.bottom = false) (hk : 0 < k) (hk' : k < z.m.length)
    (h : Dbm.Square z.m.length z.m) :
    (z.translate k c).bottom = false ∧ (z.translate k c).m.length = z.m.length ∧ ∀ a < z.m.length, ∀ b < z.m.length,
      (z.translate k c).m.entry a b =
        if a ≠ k ∧ b = k then (z.m.entry a b).map fun x => I128.saturating (x.val + c.val)
        else if b ≠ k ∧ a = k then (z.m.entry a b).map fun x => I128.saturating (x.val - c.val)
        else z.m.entry a b := by
  have hguard : (z.bottom || decide (k = 0) || decide (z.m.length ≤ k)) = false := by
    simp only [hb, Bool.false_or, Bool.or_eq_false_iff, decide_eq_false_iff_not]
    omega
  unfold translate
  simp only [hguard, Bool.false_eq_true, if_false]
  obtain ⟨hsq, hentry⟩ := entry_cross (k := k) (f := fun x => x.map fun x => I128.saturating (x.val + c.val))
    (g := fun x => x.map fun x => I128.saturating (x.val - c.val))
    (t := fun m j => if j = k then m
      else (m.setEntry j k ((m.entry j k).map fun b => I128.saturating (b.val + c.val))).setEntry k j
        (((m.setEntry j k ((m.entry j k).map fun b => I128.saturating (b.val + c.val))).entry k j).map
          fun b => I128.saturating (b.val - c.val))) (fun m => if_pos rfl)
    (fun m j hm hj hjk => by
      simp only [if_neg hjk]
      refine ⟨(hm.setEntry _ _ _).setEntry _ _ _, fun a b => ?_⟩
      rw [Dbm.entry_setEntry (hm.setEntry _ _ _) hk' hj, Dbm.entry_setEntry hm hj hk', Dbm.entry_setEntry hm hj hk']
      grind)
    (l := List.range z.m.length) (fun j hj => List.mem_range.mp hj) List.nodup_range h
  refine ⟨hb, hsq.rows, fun a ha b hb' => ?_⟩
  rw [hentry]
  simp only [List.mem_range]
  grind

/-! ## The operations -/

theorem exactly_of_bottom {P : (Nat → Int) → Prop} (hz : z.bottom = true) (hP : ∀ v, ¬ P v) : Exactly z P := by
  refine ⟨fun v => ⟨fun h => ?_, fun h => absurd h (hP v)⟩, fun _ => fun ⟨v, hv⟩ => hP v hv, fun _ => hz⟩
  rw [h.feasible] at hz
  exact absurd hz Bool.false_ne_true

theorem not_has_of_bottom (hz : z.bottom = true) (v : Nat → Int) : ¬ Has z v := by
  intro h
  rw [h.feasible] at hz
  exact absurd hz Bool.false_ne_true

theorem Exactly.congr {P Q : (Nat → Int) → Prop} (h : Exactly z P) (hPQ : ∀ v, P v ↔ Q v) : Exactly z Q := by
  obtain rfl : P = Q := funext fun v => propext (hPQ v)
  exact h

theorem addConstraint_eq {a b : Nat} (c : I128) (hb : z.bottom = false) (ha : a < z.m.length) (hb' : b < z.m.length) :
    z.addConstraint a b c = close ⟨z.m.setEntry b a (Bnd.min (z.m.entry b a) (some c)), false⟩ := by
  rw [addConstraint, if_neg (by simp [hb, ha, hb'])]
  rw [hb]

theorem addConstraint_m {a b : Nat} (c : I128) (hb : z.bottom = false) (ha : a < z.m.length) (hb' : b < z.m.length) :
    (z.addConstraint a b c).m = tighten (z.m.setEntry b a (Bnd.min (z.m.entry b a) (some c))) := by
  rw [addConstraint_eq c hb ha hb']
  unfold close
  simp only
  split_ifs <;> rfl

theorem sat_addConstraint (hz : z.Producible) {a b : Nat} {c : I128} (hb : z.bottom = false) (ha : a < z.m.length)
    (hb' : b < z.m.length) (v : Nat → Int) :
    v 0 = 0 ∧ Sat z.m.length (z.m.setEntry b a (Bnd.min (z.m.entry b a) (some c))).bound v ↔
      Has z v ∧ v a - v b ≤ c.val := by
  rw [sat_setEntry_min (hz.square hb) ha hb']
  constructor
  · intro ⟨h0, hsat, hc⟩
    exact ⟨⟨hb, h0, hsat⟩, hc⟩
  · intro ⟨hv, hc⟩
    exact ⟨hv.zero, hv.sat, hc⟩

theorem addConstraint_right (hz : z.Producible) {a b : Nat} {c : I128} (h : InRange z (.addConstraint a b c)) :
    Right z (.addConstraint a b c) := by
  show Exactly (z.addConstraint a b c) _
  rcases Bool.eq_false_or_eq_true z.bottom with hb | hb
  · rw [addConstraint, if_pos (by simp [hb])]
    exact exactly_of_bottom hb fun v hv => not_has_of_bottom hb v hv.1
  · obtain ⟨ha, hb', hr⟩ := h.resolve_left (by simp [hb])
    rw [addConstraint_eq c hb ha hb']
    exact (close_exact ((hz.square hb).setEntry b a _) hr).congr (sat_addConstraint hz hb ha hb')

theorem addConstraint_inRange (hz : z.Producible) {a b : Nat} {c : I128} (h : Posed z (.addConstraint a b c))
    (hright : Right z (.addConstraint a b c)) : InRange z (.addConstraint a b c) := by
  obtain ⟨ha, hb', v, hv⟩ := h
  have hb := hv.1.feasible
  have hex : Exactly (z.addConstraint a b c) fun v => Has z v ∧ v a - v b ≤ c.val := hright
  rw [addConstraint_eq c hb ha hb'] at hex
  have hsat := (sat_addConstraint hz hb ha hb' v).mpr hv
  refine .inr ⟨ha, hb', closeInRange_of_exactly ((hz.square hb).setEntry b a _) ⟨v, hsat.2⟩ ?_⟩
  exact hex.congr fun w => (sat_addConstraint hz hb ha hb' w).symm

theorem length_eq_of_nvars (hz : z.Producible) (hy : y.Producible) (hzb : z.bottom = false) (hyb : y.bottom = false)
    (hn : z.nvars = y.nvars) : y.m.length = z.m.length := by
  have hz' := hz.length_pos hzb
  have hy' := hy.length_pos hyb
  unfold nvars at hn
  omega

theorem sat_meet (hz : z.Producible) (hy : y.Producible) (hzb : z.bottom = false) (hyb : y.bottom = false)
    (hn : z.nvars = y.nvars) : Dbm.Square z.m.length (Dbm.combine z.m y.m Bnd.min) ∧ ∀ v,
      (v 0 = 0 ∧ Sat z.m.length (Dbm.combine z.m y.m Bnd.min).bound v ↔ Has z v ∧ Has y v) := by
  have hlen := length_eq_of_nvars hz hy hzb hyb hn
  have hsqz := hz.square hzb
  have hsqy := hy.square hyb
  rw [hlen] at hsqy
  refine ⟨hsqz.combine hsqy _, fun v => ?_⟩
  rw [sat_combine_min hsqz hsqy]
  constructor
  · intro ⟨h0, hsz, hsy⟩
    exact ⟨⟨hzb, h0, hsz⟩, hyb, h0, by rw [hlen]; exact hsy⟩
  · intro ⟨hvz, hvy⟩
    have hsy := hvy.sat
    rw [hlen] at hsy
    exact ⟨hvz.zero, hvz.sat, hsy⟩

theorem meet_right (hz : z.Producible) (hy : y.Producible) (h : InRange z (.meet y)) : Right z (.meet y) := by
  show Exactly (z.meet y) _
  by_cases hbot : (z.bottom || y.bottom) = true
  · rw [meet, if_pos hbot]
    refine exactly_of_bottom rfl fun v hv => ?_
    rcases Bool.or_eq_true_iff.mp hbot with hb | hb
    · exact not_has_of_bottom hb v hv.1
    · exact not_has_of_bottom hb v hv.2
  · rw [Bool.not_eq_true, Bool.or_eq_false_iff] at hbot
    obtain ⟨hzb, hyb⟩ := hbot
    obtain ⟨hn, hr⟩ := (h.resolve_left (by simp [hzb])).resolve_left (by simp [hyb])
    obtain ⟨hsq, hsat⟩ := sat_meet hz hy hzb hyb hn
    rw [meet, if_neg (by simp [hzb, hyb]), if_neg (by simpa using hn)]
    exact (close_exact hsq hr).congr hsat

theorem meet_inRange (hz : z.Producible) (hy : y.Producible) (h : Posed z (.meet y)) (hright : Right z (.meet y)) :
    InRange z (.meet y) := by
  obtain ⟨hn, v, hv⟩ := h
  have hzb := hv.1.feasible
  have hyb := hv.2.feasible
  obtain ⟨hsq, hsat⟩ := sat_meet hz hy hzb hyb hn
  have hex : Exactly (z.meet y) fun v => Has z v ∧ Has y v := hright
  rw [meet, if_neg (by simp [hzb, hyb]), if_neg (by simpa using hn)] at hex
  refine .inr (.inr ⟨hn, closeInRange_of_exactly hsq ⟨v, ((hsat v).mpr hv).2⟩ ?_⟩)
  exact hex.congr fun w => (hsat w).symm

theorem join_right (hz : z.Producible) (hy : y.Producible) (h : InRange z (.join y)) : Right z (.join y) := by
  intro v hv
  rw [join]
  split_ifs with hzb hmis
  · exact hv.resolve_left (not_has_of_bottom hzb v)
  · rw [Bool.not_eq_true] at hzb
    rcases hv with hv | hv
    · exact hv
    · have hyb := hv.feasible
      have hn := (h.resolve_left (by simp [hzb])).resolve_left (by simp [hyb])
      simp [hyb, hn] at hmis
  · rw [Bool.not_eq_true] at hzb hmis
    rw [Bool.or_eq_false_iff] at hmis
    have hn : z.nvars = y.nvars := by simpa using hmis.2
    have hlen := length_eq_of_nvars hz hy hzb hmis.1 hn
    have hsqz := hz.square hzb
    have hsqy := hy.square hmis.1
    rw [hlen] at hsqy
    have h0 : v 0 = 0 := hv.elim (·.zero) (·.zero)
    refine ⟨rfl, h0, ?_⟩
    rw [(hsqz.combine hsqy Bnd.max).rows]
    refine sat_combine_max hsqz hsqy (hv.imp (·.sat) fun hvy => ?_)
    have hsy := hvy.sat
    rwa [hlen] at hsy

theorem forget_right (hz : z.Producible) {k : Nat} (h : InRange z (.forget k)) : Right z (.forget k) := by
  intro v x hv
  have hk : 0 < k := h
  have h0 : Function.update v k x 0 = 0 := by
    rw [Function.update_of_ne (by omega)]
    exact hv.zero
  have hb := hv.feasible
  by_cases hk' : k < z.m.length
  · obtain ⟨hfb, hlen, hentry⟩ := forget_eq hb hk hk' (hz.square hb)
    refine ⟨hfb, h0, fun i hi j hj => ?_⟩
    rw [hlen] at hi hj
    rw [Dbm.bound, hentry i hi j hj]
    split_ifs with hboth hone
    · rw [hboth.1, hboth.2, sub_self]
      exact le_refl _
    · exact le_top
    · rw [not_or] at hone
      rw [Function.update_of_ne hone.1, Function.update_of_ne hone.2]
      exact hv.sat i hi j hj
  · -- no variable of the zone
    rw [forget, if_pos (by simp [not_lt.mp hk'])]
    refine ⟨hb, h0, fun i hi j hj => ?_⟩
    rw [Function.update_of_ne (by omega), Function.update_of_ne (by omega)]
    exact hv.sat i hi j hj

theorem val_shift {x : Bnd} {c : Int} (h : ShiftInRange z x c) :
    x.val + (c : WithTop Int) ≤ Bnd.val (x.map fun u => I128.saturating (u.val + c)) ∧
      (Closed z.m.length z.m.bound → Bnd.val (x.map fun u => I128.saturating (u.val + c)) = x.val + (c : WithTop Int)) := by
  cases x with
  | none => exact ⟨le_top, fun _ => rfl⟩
  | some u =>
    obtain ⟨hmax, hmin⟩ := h u rfl
    have hval : Bnd.val ((some u : Bnd).map fun u => I128.saturating (u.val + c)) = ((I128.saturating (u.val + c)).val : WithTop Int) := rfl
    rw [hval, I128.saturating_val]
    refine ⟨WithTop.coe_le_coe.mpr ?_, fun hc => WithTop.coe_eq_coe.mpr ?_⟩
    · show u.val + c ≤ max (-2 ^ 127) (min (u.val + c) (2 ^ 127 - 1))
      omega
    · have hlo := hmin hc
      show max (-2 ^ 127) (min (u.val + c) (2 ^ 127 - 1)) = u.val + c
      omega

/-- What a translation of `k` adds to a variable. -/
def offsetAt (k : Nat) (c : Int) (i : Nat) : Int := if i = k then c else 0

theorem update_eq_offsetAt (v : Nat → Int) (k : Nat) (c : Int) (i : Nat) :
    Function.update v k (v k + c) i = v i + offsetAt k c i := by
  unfold offsetAt
  by_cases hik : i = k
  · subst hik
    simp
  · simp [hik]

theorem translate_bound (hz : z.Producible) (hb : z.bottom = false) {k : Nat} {c : I128} (hk : 0 < k)
    (hk' : k < z.m.length) (hshift : ∀ j, j ≠ k →
      ShiftInRange z (z.m.entry j k) c.val ∧ ShiftInRange z (z.m.entry k j) (-c.val))
    {i j : Nat} (hi : i < z.m.length) (hj : j < z.m.length) :
    z.m.bound i j + ((offsetAt k c.val j - offsetAt k c.val i : Int) : WithTop Int) ≤
        (z.translate k c).m.bound i j ∧
      (Closed z.m.length z.m.bound → (z.translate k c).m.bound i j =
        z.m.bound i j + ((offsetAt k c.val j - offsetAt k c.val i : Int) : WithTop Int)) := by
  obtain ⟨_, _, hentry⟩ := translate_eq (c := c) hb hk hk' (hz.square hb)
  rw [Dbm.bound, Dbm.bound, hentry i hi j hj]
  split_ifs with hcol hrow
  · have hδ : offsetAt k c.val j - offsetAt k c.val i = c.val := by simp [offsetAt, hcol]
    rw [hδ, hcol.2]
    exact val_shift (hshift i hcol.1).1
  · have hδ : offsetAt k c.val j - offsetAt k c.val i = -c.val := by simp [offsetAt, hrow]
    rw [hδ, hrow.2]
    simp only [Int.sub_eq_add_neg]
    exact val_shift (hshift j hrow.1).2
  · -- Both variables are translated, or none.
    have hδ : offsetAt k c.val j - offsetAt k c.val i = 0 := by
      unfold offsetAt
      by_cases hik : i = k
      · by_cases hjk : j = k
        · simp [hik, hjk]
        · exact absurd ⟨hjk, hik⟩ hrow
      · by_cases hjk : j = k
        · exact absurd ⟨hik, hjk⟩ hcol
        · simp [hik, hjk]
    rw [hδ, WithTop.coe_zero, add_zero]
    exact ⟨le_refl _, fun _ => rfl⟩

theorem translate_right (hz : z.Producible) {k : Nat} {c : I128} (h : InRange z (.translate k c)) :
    Right z (.translate k c) := by
  obtain ⟨hk, hr⟩ := h
  rcases Bool.eq_false_or_eq_true z.bottom with hb | hb
  · have hsame : z.translate k c = z := by rw [translate, if_pos (by simp [hb])]
    exact ⟨fun v hv => absurd hv (not_has_of_bottom hb v), by rw [hsame]; exact id⟩
  have hshift := hr.resolve_left (by simp [hb])
  by_cases hk' : k < z.m.length
  · obtain ⟨htb, hlen, _⟩ := translate_eq (c := c) hb hk hk' (hz.square hb)
    have hbound := fun {i j} => translate_bound hz hb hk hk' hshift (i := i) (j := j)
    constructor
    · intro v hv
      refine ⟨htb, ?_, fun i hi j hj => ?_⟩
      · rw [Function.update_of_ne (by omega)]
        exact hv.zero
      · rw [hlen] at hi hj
        rw [update_eq_offsetAt, update_eq_offsetAt, add_sub_add_comm, WithTop.coe_add]
        exact (add_le_add_left (hv.sat i hi j hj) _).trans (hbound hi hj).1
    · intro hc i₃ h₃ i hi j hj
      rw [hlen] at h₃ hi hj
      rw [(hbound hi hj).2 hc, (hbound hi h₃).2 hc, (hbound h₃ hj).2 hc]
      have hdiff : offsetAt k c.val j - offsetAt k c.val i =
          (offsetAt k c.val i₃ - offsetAt k c.val i) + (offsetAt k c.val j - offsetAt k c.val i₃) := by omega
      rw [hdiff, WithTop.coe_add, add_add_add_comm]
      exact add_le_add_left (hc i₃ h₃ i hi j hj) _
  · have hsame : z.translate k c = z := by rw [translate, if_pos (by simp [not_lt.mp hk'])]
    rw [Right, hsame]
    refine ⟨fun v hv => ⟨hb, ?_, fun i hi j hj => ?_⟩, id⟩
    · rw [Function.update_of_ne (by omega)]
      exact hv.zero
    · rw [Function.update_of_ne (by omega), Function.update_of_ne (by omega)]
      exact hv.sat i hi j hj

theorem get_right (hv : Has z v) {i j : Nat} (hi : i < z.m.length) (hj : j < z.m.length) {u : I128}
    (h : z.get i j = some u) : v j - v i ≤ u.val := by
  rw [get, hv.feasible, if_neg Bool.false_ne_true] at h
  have hsat := hv.sat i hi j hj
  rw [Dbm.bound, h] at hsat
  exact WithTop.coe_le_coe.mp hsat

theorem lt_of_has {P : Prop} (hv : Has z v) (h : z.bottom = true ∨ P) : P :=
  h.resolve_left (by simp [hv.feasible])

theorem lower_right (hz : z.Producible) {k : Nat} (h : InRange z (.lower k)) : Right z (.lower k) := by
  obtain ⟨hb, hk, hne⟩ := h
  have hget : z.get k 0 = z.m.entry k 0 := by rw [get, hb, if_neg Bool.false_ne_true]
  cases hc : z.m.entry k 0 with
  | none => exact ⟨none, by rw [lower, hget, hc], fun c hc => absurd hc (by simp)⟩
  | some c =>
    have hval : c.val ≠ -2 ^ 127 := fun hmin => hne (by rw [hc]; exact congrArg some (I128.ext hmin))
    have hlo := c.lo
    have hhi := c.hi
    refine ⟨some ⟨-c.val, by omega, by omega⟩, ?_, fun l hl v hv => ?_⟩
    · rw [lower, hget, hc]
      show (I128.checked (-c.val)).map some = _
      rw [I128.checked, dif_pos (by omega)]
      rfl
    · obtain rfl := Option.some.inj hl
      have hle := get_right hv hk (hz.length_pos hb) (hget.trans hc)
      rw [hv.zero] at hle
      show -c.val ≤ v k
      omega

theorem lower_inRange {k : Nat} (h : Posed z (.lower k)) (hright : Right z (.lower k)) : InRange z (.lower k) := by
  obtain ⟨l, hl, _⟩ := hright
  have hmin : z.get k 0 ≠ some ⟨-2 ^ 127, I128.min_lo, I128.min_hi⟩ := by
    intro hget
    rw [lower, hget] at hl
    exact absurd hl (by simp [I128.checked])
  rcases Bool.eq_false_or_eq_true z.bottom with hb | hb
  · exact absurd (by rw [get, if_pos hb]) hmin
  · rw [get, hb, if_neg Bool.false_ne_true] at hmin
    exact ⟨hb, h, hmin⟩

/-- Every operation does what it is for where nothing saturates to a bound that is wrong; and it does not
elsewhere, among the ones that `Posed` names. -/
theorem zone_exact (z : Zone) (hz : z.Producible) (op : Op) (hop : op.Producible) :
    (InRange z op → Right z op) ∧ (Posed z op → Right z op → InRange z op) := by
  cases op with
  | addConstraint a b c => exact ⟨addConstraint_right hz, addConstraint_inRange hz⟩
  | meet y => exact ⟨meet_right hz hop, meet_inRange hz hop⟩
  | join y => exact ⟨join_right hz hop, fun hn _ => .inr (.inr hn)⟩
  | forget k => exact ⟨forget_right hz, fun hk _ => hk⟩
  | translate k c => exact ⟨translate_right hz, fun h => h.elim⟩
  | upper k =>
    refine ⟨fun h u hu v hv => ?_, fun hk _ => .inr hk⟩
    have hle := get_right hv (hz.length_pos hv.feasible) (lt_of_has hv h) hu
    rwa [hv.zero, Int.sub_zero] at hle
  | lower k => exact ⟨lower_right hz, lower_inRange⟩
  | diffUpper a b =>
    refine ⟨fun h u hu v hv => ?_, fun hab _ => .inr hab⟩
    obtain ⟨ha, hb⟩ := lt_of_has hv h
    exact get_right hv hb ha hu

/-- `v₁ ≤ 5` and nothing else. -/
def atMostFive : Dbm :=
  [[some ⟨0, I128.zero_lo, I128.zero_hi⟩, some ⟨5, by decide, by decide⟩], [none, some ⟨0, I128.zero_lo, I128.zero_hi⟩]]

theorem atMostFive_inRange : CloseInRange atMostFive := by
  have hedge : ∀ a < 2, ∀ b < 2, atMostFive.entry a b ≠ none → a = b ∨ (a = 0 ∧ b = 1) := by decide
  constructor
  · intro v hv i j hij
    have hcases : i = j ∨ (i = 0 ∧ j = 1) := by
      induction hij with
      | refl => exact .inl rfl
      | @tail b c _ hbc ih =>
        obtain ⟨hb, hc, hne⟩ := hbc
        have hstep := hedge b hb c hc fun he => hne (by rw [Dbm.bound, he]; rfl)
        omega
    rcases hcases with rfl | ⟨rfl, rfl⟩
    · omega
    · have hle : v 1 - v 0 ≤ 5 := WithTop.coe_le_coe.mp (hv 0 (by decide) 1 (by decide))
      omega
  · intro hno
    refine absurd ⟨fun _ => 0, fun i hi j hj => ?_⟩ hno
    have hpos : ∀ a < 2, ∀ b < 2, ∀ u, atMostFive.entry a b = some u → 0 ≤ u.val := by decide
    rw [Dbm.bound]
    cases he : atMostFive.entry i j with
    | none => exact le_top
    | some u => exact WithTop.coe_le_coe.mpr (hpos i hi j hj u he)

theorem zone_exact_atMostFive : Right (top 1) (.addConstraint 1 0 ⟨5, by decide, by decide⟩) :=
  (zone_exact (top 1) (.top 1) (.addConstraint 1 0 ⟨5, by decide, by decide⟩) trivial).1
    (.inr ⟨by decide, by decide, atMostFive_inRange⟩)

/-- The lower bound of a variable of the bottom zone overflows. -/
theorem zone_wrong : ¬ ∀ z : Zone, z.Producible → ∀ op : Op, op.Producible → Right z op := by
  intro h
  obtain ⟨l, hl, _⟩ := h bot .bot (.lower 1) trivial
  exact absurd hl (by simp [lower, get, bot, I128.checked])

end Zone

end Csolver
