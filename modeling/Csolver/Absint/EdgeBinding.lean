import Csolver.Absint.ZoneBounds
import Csolver.Absint.EdgeExact

/-!
# Binding the parameters of a block

An edge gives all parameters of its target a value at once. The zone analysis gives them one after the other, from
the arguments that it finds for the target, so an argument that is a parameter may be read after it was written;
and where an edge carries no arguments, both analyses leave the parameters as they were.
-/

namespace Csolver

open Lib Lib.Differences

namespace Relational

variable {f : Func} {v v' u : RegId → Int} {z z' : Zone}

/-! ## Valuations of registers -/

/-- The variables of a zone, where the registers hold integers. -/
def lift (f : Func) (v : RegId → Int) (i : Nat) : Int := if i = 0 then 0 else ((tracked f)[i - 1]?.map v).getD 0

theorem nodup_eraseDups {α : Type} [DecidableEq α] (l : List α) : l.eraseDups.Nodup := by
  induction hn : l.length using Nat.strong_induction_on generalizing l with
  | _ n ih =>
    cases l with
    | nil => exact List.nodup_nil
    | cons a l =>
      rw [List.eraseDups_cons, List.nodup_cons]
      constructor
      · rw [List.mem_eraseDups, List.mem_filter]
        simp
      · refine ih _ ?_ _ rfl
        rw [← hn, List.length_cons]
        exact Nat.lt_succ_of_le (List.length_filter_le _ _)

theorem tracked_nodup (f : Func) : (tracked f).Nodup := by
  unfold tracked
  simp only
  split_ifs
  · exact List.nodup_nil
  · exact nodup_eraseDups _

theorem idx_iff {r : RegId} {i : Nat} : idx f r = some i ↔ 0 < i ∧ (tracked f)[i - 1]? = some r := by
  constructor
  · intro h
    obtain ⟨k, hk, rfl⟩ := Option.map_eq_some_iff.mp h
    rw [List.idxOf?, List.findIdx?_eq_some_iff_getElem] at hk
    obtain ⟨hlt, heq, _⟩ := hk
    refine ⟨Nat.succ_pos k, ?_⟩
    rw [Nat.add_sub_cancel, List.getElem?_eq_getElem hlt]
    exact congrArg some (by simpa using heq)
  · intro ⟨hi, hget⟩
    obtain ⟨hlt, heq⟩ := List.getElem?_eq_some_iff.mp hget
    have hidx : (tracked f).idxOf? r = some (i - 1) := by
      rw [List.idxOf?, List.findIdx?_eq_some_iff_getElem]
      refine ⟨hlt, by simp [heq], fun j hj he => ?_⟩
      have heq' : (tracked f)[j] = r := by simpa using he
      have hij := (List.Nodup.getElem_inj_iff (tracked_nodup f)).mp (heq'.trans heq.symm)
      omega
    rw [idx, hidx]
    exact congrArg some (Nat.sub_add_cancel hi)

theorem idx_inj {r q : RegId} {i : Nat} (hr : idx f r = some i) (hq : idx f q = some i) : r = q :=
  Option.some.inj ((idx_iff.mp hr).2.symm.trans (idx_iff.mp hq).2)

@[simp] theorem lift_zero (f : Func) (v : RegId → Int) : lift f v 0 = 0 := rfl

theorem lift_idx {r : RegId} {i : Nat} (h : idx f r = some i) : lift f v i = v r := by
  obtain ⟨hi, hget⟩ := idx_iff.mp h
  rw [lift, if_neg (by omega), hget]
  rfl

theorem lift_congr {i : Nat} (h : ∀ r, idx f r = some i → u r = v r) : lift f u i = lift f v i := by
  unfold lift
  split_ifs with h0
  · rfl
  · cases hreg : (tracked f)[i - 1]? with
    | none => rfl
    | some q => exact h q (idx_iff.mpr ⟨Nat.pos_of_ne_zero h0, hreg⟩)

theorem lift_update {r : RegId} {i : Nat} (h : idx f r = some i) (x : Int) :
    lift f (Function.update v r x) = Function.update (lift f v) i x := by
  funext j
  by_cases hj : j = i
  · subst hj
    rw [Function.update_self, lift_idx h, Function.update_self]
  · rw [Function.update_of_ne hj]
    refine lift_congr fun q hq => Function.update_of_ne ?_ _ _
    intro hqr
    subst hqr
    exact hj (Option.some.inj (hq.symm.trans h))

theorem lift_update_untracked {r : RegId} (h : idx f r = none) (x : Int) : lift f (Function.update v r x) = lift f v := by
  funext j
  refine lift_congr fun q hq => Function.update_of_ne ?_ _ _
  intro hqr
  subst hqr
  rw [h] at hq
  exact absurd hq (by simp)

/-! ## What an edge binds -/

/-- What an argument gives to a parameter; one that is missing, or no number, may give anything. -/
def Gives (v : RegId → Int) : Option Operand → Int → Prop
  | some (.reg r), x => x = v r
  | some (.const (.int bv)), x => x = bv.signed
  | some (.const .null), x => x = 0
  | _, _ => True

/-- All parameters are bound at once. -/
structure Binds (params : List (RegId × Ty)) (args : List Operand) (v v' : RegId → Int) : Prop where
  frame : ∀ r, r ∉ params.map Prod.fst → v' r = v r
  param : ∀ (i : Nat) (p : RegId), (params.map Prod.fst)[i]? = some p → Gives v args[i]? (v' p)

/-- The registers after some of the parameters are bound. -/
def mixed (done : List RegId) (v v' : RegId → Int) (r : RegId) : Int := if r ∈ done then v' r else v r

/-- One parameter gets `x` from its argument, where the registers hold `u`. -/
def Follows (f : Func) (u : RegId → Int) (p : RegId) (x : Int) : Option Operand → Prop
  | some (.reg q) => idx f q ≠ none → q ≠ p → x = u q
  | some (.const (.int bv)) => x = bv.signed ∧ bv.signed ≠ -2 ^ 127
  | _ => True

/-- Bound one after the other, the parameters get the same integers. -/
def InTurn (f : Func) (params : List (RegId × Ty)) (args : List Operand) (v v' : RegId → Int) : Prop :=
  ∀ (i : Nat) (p : RegId), (params.map Prod.fst)[i]? = some p → idx f p ≠ none →
    Follows f (mixed ((params.map Prod.fst).take i) v v') p (v' p) args[i]?

/-- The arguments that are found for the target bind its parameters in turn; if none are found, the parameters do
not change. -/
def BindingOk (f : Func) (t : Terminator) (target : BlockId) (params : List (RegId × Ty)) (v v' : RegId → Int) : Prop :=
  match edgeArgs t target with
  | some args => InTurn f params args v v'
  | none => ∀ p ∈ params.map Prod.fst, idx f p ≠ none → v' p = v p

/-- The comparison that is taken for the guard is true of the integers, and its constants do not overflow. -/
def GuardTrue (f : Func) (t : Terminator) (target : BlockId) (v : RegId → Int) : Prop :=
  match t with
  | .condBr (.reg c) tb _ eb _ => ∀ op lhs rhs, buildCmpMap f c = some (op, lhs, rhs) → tb = target ∨ eb = target →
      ∀ a av b bv, operand f lhs = (some a, av) → operand f rhs = (some b, bv) →
        (∀ d ∈ gaps (if tb = target then op else op.negate) av bv, FitsI128 d) ∧
          Intervals.cmpInt (if tb = target then op else op.negate) (lift f v a + av) (lift f v b + bv) = true
  | _ => True

/-- The differences of the integers that the registers hold before and after are no larger than `i128::MAX`. -/
def Near (f : Func) (v v' : RegId → Int) : Prop :=
  ∀ i < (tracked f).length + 1, ∀ j < (tracked f).length + 1, ∀ u ∈ [v, v'], ∀ w ∈ [v, v'],
    lift f w j - lift f u i ≤ 2 ^ 127 - 1

/-- The edge keeps a valuation of the zone. -/
def EdgeKeeps (f : Func) (n m : Nat) (v v' : RegId → Int) : Prop :=
  ∀ exit : Zone, exit.Producible → exit.m.length = (tracked f).length + 1 → exit.Has (lift f v) →
    ∃ z, transferEdge f n m exit = some z ∧ z.Has (lift f v')

/-! ## One parameter -/

theorem mixed_nil (v v' : RegId → Int) : mixed [] v v' = v := by
  funext r
  exact if_neg List.not_mem_nil

theorem mixed_append (done : List RegId) (p : RegId) (v v' : RegId → Int) :
    mixed (done ++ [p]) v v' = Function.update (mixed done v v') p (v' p) := by
  funext r
  by_cases hr : r = p
  · subst hr
    rw [Function.update_self]
    exact if_pos (List.mem_append_right _ (List.mem_singleton.mpr rfl))
  · rw [Function.update_of_ne hr]
    unfold mixed
    simp only [List.mem_append, List.mem_singleton, hr, or_false]

theorem mixed_eq (done : List RegId) (v v' : RegId → Int) (r : RegId) : mixed done v v' r = v r ∨ mixed done v v' r = v' r := by
  unfold mixed
  split_ifs
  · exact .inr rfl
  · exact .inl rfl

theorem lift_mixed (done : List RegId) (v v' : RegId → Int) (i : Nat) :
    ∃ w ∈ [v, v'], lift f (mixed done v v') i = lift f w i := by
  by_cases h : ∃ r, idx f r = some i
  · obtain ⟨r, hr⟩ := h
    rw [lift_idx hr]
    rcases mixed_eq done v v' r with h | h
    · exact ⟨v, List.mem_cons_self, by rw [h, lift_idx hr]⟩
    · exact ⟨v', List.mem_cons_of_mem _ (List.mem_singleton.mpr rfl), by rw [h, lift_idx hr]⟩
  · exact ⟨v, List.mem_cons_self, lift_congr fun r hr => absurd ⟨r, hr⟩ h⟩

theorem Near.mixed (h : Near f v v') (done : List RegId) : ∀ i < (tracked f).length + 1, ∀ j < (tracked f).length + 1,
    lift f (mixed done v v') j - lift f (mixed done v v') i ≤ 2 ^ 127 - 1 := by
  intro i hi j hj
  obtain ⟨u, hu, hui⟩ := lift_mixed (f := f) done v v' i
  obtain ⟨w, hw, hwj⟩ := lift_mixed (f := f) done v v' j
  rw [hui, hwj]
  exact h i hi j hj u hu w hw

theorem idx_lt {r : RegId} {i : Nat} (h : idx f r = some i) (hlen : z.m.length = (tracked f).length + 1) : i < z.m.length := by
  have := idx_bounds h
  omega

/-- Forgetting a parameter and two constraints give it its integer, if that is what the constraints say. -/
theorem tie_has (hz : z.Producible) {w : Nat → Int} (hw : z.Has w) {k j : Nat} (hk : 0 < k) (hk' : k < z.m.length)
    (hj : j < z.m.length) {x : Int} {c d : I128} (hd : d.val = -c.val)
    (hx : Function.update w k x k - Function.update w k x j = c.val)
    (hmax : ∀ i < z.m.length, ∀ j < z.m.length, Function.update w k x j - Function.update w k x i ≤ 2 ^ 127 - 1) :
    (((z.forget k).addConstraint k j c).addConstraint j k d).Has (Function.update w k x) := by
  have hforget : (z.forget k).Has (Function.update w k x) := Zone.forget_right hz hk w x hw
  have hlen := Zone.length_forget hz k
  have hlen' := Zone.length_addConstraint (.forget k hz) k j c
  have hfirst : ((z.forget k).addConstraint k j c).Has (Function.update w k x) := by
    refine Zone.has_addConstraint (.forget k hz) hforget ?_ ?_ (le_of_eq hx) ?_
    · rw [hlen]; exact hk'
    · rw [hlen]; exact hj
    · rw [hlen]; exact hmax
  refine Zone.has_addConstraint (.addConstraint k j c (.forget k hz)) hfirst ?_ ?_ (by omega) ?_
  · rw [hlen', hlen]; exact hj
  · rw [hlen', hlen]; exact hk'
  · rw [hlen', hlen]; exact hmax

theorem bindParam_has (hz : z.Producible) (hlen : z.m.length = (tracked f).length + 1) (h : z.Has (lift f u)) {p : RegId}
    {k : Nat} (hp : idx f p = some k) {x : Int} {arg : Option Operand} (hok : Follows f u p x arg)
    (hmax : ∀ i < (tracked f).length + 1, ∀ j < (tracked f).length + 1,
      lift f (Function.update u p x) j - lift f (Function.update u p x) i ≤ 2 ^ 127 - 1) :
    ∃ z', bindParam f z k arg = some z' ∧ z'.Has (lift f (Function.update u p x)) := by
  have hk := idx_bounds hp
  have hk' : k < z.m.length := idx_lt hp hlen
  rw [← hlen] at hmax
  rw [lift_update hp] at hmax ⊢
  have hforget : (z.forget k).Has (Function.update (lift f u) k x) := Zone.forget_right hz hk.1 _ x h
  unfold bindParam
  split
  · rename_i q
    cases hq : idx f q with
    | none => exact ⟨z.forget k, rfl, hforget⟩
    | some j =>
      refine ⟨_, rfl, tie_has hz h hk.1 hk' (idx_lt hq hlen) rfl ?_ hmax⟩
      by_cases hqp : q = p
      · subst hqp
        obtain rfl : k = j := Option.some.inj (hp.symm.trans hq)
        exact Int.sub_self _
      · have hne : j ≠ k := fun he => hqp (idx_inj hq (he ▸ hp))
        have hx : x = u q := hok (by rw [hq]; simp) hqp
        rw [Function.update_self, Function.update_of_ne hne, lift_idx hq, hx]
        exact Int.sub_self _
  · rename_i bv
    obtain ⟨hx, hmin⟩ := hok
    have hrange := (Intervals.signedI128 bv).lo
    have hhi := (Intervals.signedI128 bv).hi
    have hval : (Intervals.signedI128 bv).val = bv.signed := rfl
    obtain ⟨d, hd, hdv⟩ := FitsI128.exists_checked (z := -bv.signed) ⟨by omega, by omega⟩
    refine ⟨_, by simp only [hval, hd, Option.map_some]; rfl, ?_⟩
    refine tie_has hz h hk.1 hk' (by omega) hdv ?_ hmax
    rw [Function.update_self, Function.update_of_ne (by omega), lift_zero, hx, hval]
    exact Int.sub_zero _
  · exact ⟨z.forget k, rfl, hforget⟩

/-- A bound on variables that are not bound anew, and the size, are kept. -/
structure Keeps (k : Nat) (z z' : Zone) : Prop where
  producible : z'.Producible
  length : z'.m.length = z.m.length
  bounded : ∀ i < z.m.length, ∀ j < z.m.length, ∀ c, i ≠ k → j ≠ k → z.Bounded i j c → z'.Bounded i j c

theorem Keeps.forget (hz : z.Producible) (k : Nat) : Keeps k z (z.forget k) where
  producible := .forget k hz
  length := Zone.length_forget hz k
  bounded _ hi _ hj _ hik hjk h := h.forget hz hi hj hik hjk

theorem Keeps.addConstraint {k : Nat} (h : Keeps k z z') (a b : Nat) (c : I128) : Keeps k z (z'.addConstraint a b c) where
  producible := .addConstraint a b c h.producible
  length := (Zone.length_addConstraint h.producible a b c).trans h.length
  bounded i hi j hj x hik hjk hx := (h.bounded i hi j hj x hik hjk hx).addConstraint h.producible a b c

theorem bindParam_keeps (hz : z.Producible) {k : Nat} {arg : Option Operand} (h : bindParam f z k arg = some z') :
    Keeps k z z' := by
  have hforget := Keeps.forget hz k
  unfold bindParam at h
  split at h
  · split at h
    · rename_i j _
      obtain rfl := Option.some.inj h
      exact (hforget.addConstraint k j _).addConstraint j k _
    · obtain rfl := Option.some.inj h
      exact hforget
  · obtain ⟨d, _, rfl⟩ := Option.map_eq_some_iff.mp h
    exact (hforget.addConstraint k 0 _).addConstraint 0 k d
  · obtain rfl := Option.some.inj h
    exact hforget

/-- The zone has one integer for a variable. -/
def Pinned (z : Zone) (i : Nat) (x : Int) : Prop := z.Bounded 0 i x ∧ z.Bounded i 0 (-x)

theorem Pinned.eq {i : Nat} {x : Int} (h : Pinned z i x) {w : Nat → Int} (hw : z.Has w) (hi : i < z.m.length) : w i = x := by
  have h0 : 0 < z.m.length := by omega
  have hle := h.1.le hw h0 hi
  have hge := h.2.le hw hi h0
  rw [hw.zero] at hle hge
  omega

theorem Keeps.pinned {k i : Nat} {x : Int} (h : Keeps k z z') (hk : 0 < k) (hi : i < z.m.length) (hik : i ≠ k)
    (hx : Pinned z i x) : Pinned z' i x :=
  ⟨h.bounded 0 (by omega) i hi x (by omega) hik hx.1, h.bounded i hi 0 (by omega) (-x) hik (by omega) hx.2⟩

theorem bindParam_reg (hz : z.Producible) {k j : Nat} {q : RegId} (hk : 0 < k) (hk' : k < z.m.length) (hq : idx f q = some j)
    (hj : j < z.m.length) (hjk : j ≠ k) (h : bindParam f z k (some (.reg q)) = some z') :
    (z'.Bounded j k 0 ∧ z'.Bounded k j 0) ∧ ∀ x, -2 ^ 127 < x → x < 2 ^ 127 → Pinned z j x → Pinned z' k x := by
  simp only [bindParam, hq] at h
  obtain rfl := Option.some.inj h
  have hforget := Keeps.forget hz k
  have hfirst := hforget.addConstraint k j Intervals.zero
  have hj0 := (idx_bounds hq).1
  obtain ⟨hle, hleft, _⟩ := Zone.bounded_addConstraint hforget.producible (a := k) (b := j) (c := Intervals.zero)
    (by rw [hforget.length]; exact hk') (by rw [hforget.length]; exact hj)
  obtain ⟨hge, _, hright⟩ := Zone.bounded_addConstraint hfirst.producible (a := j) (b := k) (c := Intervals.zero)
    (by rw [hfirst.length]; exact hj) (by rw [hfirst.length]; exact hk')
  refine ⟨⟨hle.addConstraint hfirst.producible j k _, hge⟩, fun x hlo hhi hx => ⟨?_, ?_⟩⟩
  · have hx' := hforget.bounded 0 (by omega) j hj x (by omega) hjk hx.1
    have h := hleft 0 (by rw [hforget.length]; omega) x hx' (by show -2 ^ 127 ≤ x + 0; omega)
    have hsum : x + Intervals.zero.val = x := Int.add_zero x
    rw [hsum] at h
    exact h.addConstraint hfirst.producible j k _
  · have hx' := hfirst.bounded j hj 0 (by omega) (-x) hjk (by omega) hx.2
    have h := hright 0 (by rw [hfirst.length]; omega) (-x) hx' (by show -2 ^ 127 ≤ 0 + -x; omega)
    have hsum : Intervals.zero.val + -x = -x := Int.zero_add (-x)
    rw [hsum] at h
    exact h

/-- A parameter that gets a constant has it; the opposite of the constant is an `i128`. -/
theorem bindParam_int (hz : z.Producible) {k : Nat} {bv : BitVector} (hk : 0 < k) (hk' : k < z.m.length)
    (h : bindParam f z k (some (.const (.int bv))) = some z') : Pinned z' k bv.signed ∧ bv.signed ≠ -2 ^ 127 := by
  simp only [bindParam] at h
  obtain ⟨d, hd, rfl⟩ := Option.map_eq_some_iff.mp h
  have hdv := Bound.eq_of_checked hd
  have hval : (Intervals.signedI128 bv).val = bv.signed := rfl
  have hforget := Keeps.forget hz k
  have hfirst := hforget.addConstraint k 0 (Intervals.signedI128 bv)
  have hle := (Zone.bounded_addConstraint hforget.producible (a := k) (b := 0) (c := Intervals.signedI128 bv)
    (by rw [hforget.length]; exact hk') (by rw [hforget.length]; omega)).1
  have hge := (Zone.bounded_addConstraint hfirst.producible (a := 0) (b := k) (c := d)
    (by rw [hfirst.length]; omega) (by rw [hfirst.length]; exact hk')).1
  rw [hval] at hle hdv
  rw [hdv] at hge
  have hhi := d.hi
  exact ⟨⟨hle.addConstraint hfirst.producible 0 k d, hge⟩, by omega⟩

/-! ## All parameters -/

theorem bindParams_has (hnear : Near f v v') (args : List Operand) (ps : List (RegId × Ty)) (i : Nat) (done : List RegId)
    (hz : z.Producible) (hlen : z.m.length = (tracked f).length + 1) (h : z.Has (lift f (mixed done v v')))
    (hok : ∀ (k : Nat) (p : RegId), (ps.map Prod.fst)[k]? = some p → idx f p ≠ none →
      Follows f (mixed (done ++ (ps.map Prod.fst).take k) v v') p (v' p) args[i + k]?) :
    ∃ z', bindParams f args i ps z = some z' ∧ z'.Has (lift f (mixed (done ++ ps.map Prod.fst) v v')) := by
  induction ps generalizing i done z with
  | nil =>
    refine ⟨z, rfl, ?_⟩
    rw [List.map_nil, List.append_nil]
    exact h
  | cons r ps ih =>
    obtain ⟨p, ty⟩ := r
    have hrest : ∀ (k : Nat) (q : RegId), (ps.map Prod.fst)[k]? = some q → idx f q ≠ none →
        Follows f (mixed (done ++ [p] ++ (ps.map Prod.fst).take k) v v') q (v' q) args[i + 1 + k]? := by
      intro k q hq hidx
      have := hok (k + 1) q hq hidx
      rw [List.map_cons, List.take_succ_cons] at this
      rw [List.append_assoc, Nat.add_right_comm]
      exact this
    have hdone : done ++ List.map Prod.fst ((p, ty) :: ps) = done ++ [p] ++ ps.map Prod.fst := by simp
    rw [hdone, bindParams]
    cases hp : idx f p with
    | none =>
      refine ih (i + 1) (done ++ [p]) hz hlen ?_ hrest
      rw [mixed_append, lift_update_untracked hp]
      exact h
    | some k =>
      have hfirst := hok 0 p rfl (by rw [hp]; simp)
      rw [List.take_zero, List.append_nil, Nat.add_zero] at hfirst
      have hmax := hnear.mixed (done ++ [p])
      rw [mixed_append] at hmax
      obtain ⟨z₁, hz₁, hhas⟩ := bindParam_has hz hlen h hp hfirst hmax
      have hkeeps := bindParam_keeps hz hz₁
      rw [← mixed_append] at hhas
      obtain ⟨z', hz', hhas'⟩ := ih (i + 1) (done ++ [p]) hkeeps.producible (hkeeps.length.trans hlen) hhas hrest
      refine ⟨z', ?_, hhas'⟩
      simp only [hz₁, Option.bind_some]
      exact hz'

theorem bindParams_keeps {args : List Operand} {ps : List (RegId × Ty)} {i : Nat} (hz : z.Producible)
    (h : bindParams f args i ps z = some z') : z'.m.length = z.m.length ∧ ∀ a < z.m.length, ∀ b < z.m.length, ∀ c,
      (∀ p ∈ ps.map Prod.fst, idx f p ≠ some a ∧ idx f p ≠ some b) → z.Bounded a b c → z'.Bounded a b c := by
  induction ps generalizing i z with
  | nil =>
    obtain rfl := Option.some.inj h
    exact ⟨rfl, fun _ _ _ _ _ _ hc => hc⟩
  | cons r ps ih =>
    obtain ⟨p, ty⟩ := r
    rw [bindParams] at h
    cases hp : idx f p with
    | none =>
      simp only [hp] at h
      obtain ⟨hlen, hkeep⟩ := ih hz h
      exact ⟨hlen, fun a ha b hb c hne => hkeep a ha b hb c fun q hq => hne q (List.mem_cons_of_mem _ hq)⟩
    | some k =>
      simp only [hp] at h
      obtain ⟨z₁, hz₁, hrest⟩ := Option.bind_eq_some_iff.mp h
      have hkeeps := bindParam_keeps hz hz₁
      obtain ⟨hlen, hkeep⟩ := ih hkeeps.producible hrest
      refine ⟨hlen.trans hkeeps.length, fun a ha b hb c hne hc => ?_⟩
      obtain ⟨hak, hbk⟩ := hne p List.mem_cons_self
      rw [hp] at hak hbk
      refine hkeep a (by rw [hkeeps.length]; exact ha) b (by rw [hkeeps.length]; exact hb) c
        (fun q hq => hne q (List.mem_cons_of_mem _ hq)) (hkeeps.bounded a ha b hb c ?_ ?_ hc)
      · exact fun he => hak (congrArg some he.symm)
      · exact fun he => hbk (congrArg some he.symm)

theorem bindParam_follows {args : List Operand} {ps : List (RegId × Ty)} {i : Nat} {done : List RegId} {r : RegId}
    {j : Nat} {z₁ : Zone} (hnodup : (done ++ r :: ps.map Prod.fst).Nodup) (hz : z.Producible)
    (hlen : z.m.length = (tracked f).length + 1) (hsmall : ∀ r j, idx f r = some j → -2 ^ 127 < v r ∧ v r < 2 ^ 127)
    (hpin : ∀ r j, r ∉ done → idx f r = some j → Pinned z j (v r)) (hidx : idx f r = some j)
    (hz₁ : bindParam f z j args[i]? = some z₁) (hrun : bindParams f args (i + 1) ps z₁ = some z')
    (hw : z'.Has (lift f v')) : Follows f (mixed done v v') r (v' r) args[i]? := by
  have hkeeps := bindParam_keeps hz hz₁
  have hjlt := idx_lt hidx hlen
  have hj0 := (idx_bounds hidx).1
  have hrdone : r ∉ done ++ ps.map Prod.fst := by
    rw [List.nodup_middle] at hnodup
    exact (List.nodup_cons.mp hnodup).1
  obtain ⟨hlen', hkeep⟩ := bindParams_keeps hkeeps.producible hrun
  have hlenz' : z'.m.length = (tracked f).length + 1 := hlen'.trans (hkeeps.length.trans hlen)
  -- what is known now is not bound anew
  have hrps : ∀ q ∈ ps.map Prod.fst, idx f q ≠ some j := by
    intro q hq he
    exact hrdone (idx_inj hidx he ▸ List.mem_append_right _ hq)
  have hfinal : ∀ x, Pinned z₁ j x → v' r = x := by
    intro x hx
    have hj : j < z₁.m.length := by rw [hkeeps.length]; exact hjlt
    have h0 : ∀ q ∈ ps.map Prod.fst, idx f q ≠ some 0 := fun q _ he => absurd (idx_bounds he).1 (by omega)
    have hx' : Pinned z' j x :=
      ⟨hkeep 0 (by omega) j hj x (fun q hq => ⟨h0 q hq, hrps q hq⟩) hx.1,
        hkeep j hj 0 (by omega) (-x) (fun q hq => ⟨hrps q hq, h0 q hq⟩) hx.2⟩
    rw [← lift_idx (v := v') hidx]
    exact hx'.eq hw (idx_lt hidx hlenz')
  cases harg : args[i]? with
  | none => trivial
  | some arg =>
    rw [harg] at hz₁
    cases arg with
    | reg q =>
      intro hq hqr
      obtain ⟨l, hl⟩ := Option.ne_none_iff_exists'.mp hq
      have hlj : l ≠ j := fun he => hqr (idx_inj (he ▸ hl) hidx)
      have hllt := idx_lt hl hlen
      obtain ⟨⟨hle, hge⟩, hmove⟩ := bindParam_reg hz hj0 hjlt hl hllt hlj hz₁
      by_cases hqdone : q ∈ done
      · rw [mixed, if_pos hqdone]
        have hqps : ∀ o ∈ ps.map Prod.fst, idx f o ≠ some l := by
          intro o ho he
          have hdis := List.disjoint_of_nodup_append hnodup hqdone
          exact hdis (List.mem_cons_of_mem _ (idx_inj hl he ▸ ho))
        have hj₁ : j < z₁.m.length := by rw [hkeeps.length]; exact hjlt
        have hl₁ : l < z₁.m.length := by rw [hkeeps.length]; exact hllt
        have hle' := (hkeep l hl₁ j hj₁ 0 (fun o ho => ⟨hqps o ho, hrps o ho⟩) hle).le hw (by omega) (by omega)
        have hge' := (hkeep j hj₁ l hl₁ 0 (fun o ho => ⟨hrps o ho, hqps o ho⟩) hge).le hw (by omega) (by omega)
        rw [lift_idx hidx, lift_idx hl] at hle' hge'
        omega
      · rw [mixed, if_neg hqdone]
        obtain ⟨hlo, hhi⟩ := hsmall q l hl
        exact hfinal (v q) (hmove (v q) hlo hhi (hpin q l hqdone hl))
    | const c =>
      cases c with
      | int bv =>
        obtain ⟨hpinned, hmin⟩ := bindParam_int hz hj0 hjlt hz₁
        exact ⟨hfinal bv.signed hpinned, hmin⟩
      | _ => trivial

theorem bindParams_follows {args : List Operand} {ps : List (RegId × Ty)} {i : Nat} {done : List RegId}
    (hnodup : (done ++ ps.map Prod.fst).Nodup) (hz : z.Producible) (hlen : z.m.length = (tracked f).length + 1)
    (hsmall : ∀ r j, idx f r = some j → -2 ^ 127 < v r ∧ v r < 2 ^ 127)
    (hpin : ∀ r j, r ∉ done → idx f r = some j → Pinned z j (v r)) (h : bindParams f args i ps z = some z')
    (hw : z'.Has (lift f v')) (k : Nat) (p : RegId) (hk : (ps.map Prod.fst)[k]? = some p) (hp : idx f p ≠ none) :
    Follows f (mixed (done ++ (ps.map Prod.fst).take k) v v') p (v' p) args[i + k]? := by
  induction ps generalizing i done z k with
  | nil => exact absurd hk (by simp)
  | cons r ps ih =>
    obtain ⟨r, ty⟩ := r
    have hnodup' : (done ++ [r] ++ ps.map Prod.fst).Nodup := by simpa using hnodup
    rw [bindParams] at h
    cases hidx : idx f r with
    | none =>
      simp only [hidx] at h
      cases k with
      | zero =>
        obtain rfl : r = p := Option.some.inj hk
        exact absurd hidx hp
      | succ k =>
        have hrest := ih hnodup' hz hlen (fun q j hq hj => hpin q j (fun hd => hq (List.mem_append_left _ hd)) hj) h k hk
        rw [List.append_assoc, Nat.add_right_comm] at hrest
        exact hrest
    | some j =>
      simp only [hidx] at h
      obtain ⟨z₁, hz₁, hrun⟩ := Option.bind_eq_some_iff.mp h
      have hkeeps := bindParam_keeps hz hz₁
      have hj0 := (idx_bounds hidx).1
      cases k with
      | succ k =>
        have hrest := ih hnodup' hkeeps.producible (hkeeps.length.trans hlen) (fun q l hq hl => ?_) hrun k hk
        · rw [List.append_assoc, Nat.add_right_comm] at hrest
          exact hrest
        · have hqr : q ≠ r := fun he => hq (he ▸ List.mem_append_right _ (List.mem_singleton.mpr rfl))
          refine hkeeps.pinned hj0 (idx_lt hl hlen) (fun he => hqr (idx_inj (he ▸ hl) hidx)) ?_
          exact hpin q l (fun hd => hq (List.mem_append_left _ hd)) hl
      | zero =>
        obtain rfl : r = p := Option.some.inj hk
        rw [Nat.add_zero, List.take_zero, List.append_nil]
        exact bindParam_follows hnodup hz hlen hsmall hpin hidx hz₁ hrun hw

/-! ## The guard -/

/-- Nothing is known less. -/
structure Tighter (z z' : Zone) : Prop where
  producible : z'.Producible
  length : z'.m.length = z.m.length
  bounded : ∀ i j c, z.Bounded i j c → z'.Bounded i j c

theorem Tighter.refl (hz : z.Producible) : Tighter z z := ⟨hz, rfl, fun _ _ _ h => h⟩

theorem Tighter.addConstraint (h : Tighter z z') (a b : Nat) (c : I128) : Tighter z (z'.addConstraint a b c) where
  producible := .addConstraint a b c h.producible
  length := (Zone.length_addConstraint h.producible a b c).trans h.length
  bounded i j x hx := (h.bounded i j x hx).addConstraint h.producible a b c

theorem refine_tighter {op : CmpOp} {lhs rhs : Operand} (hz : z.Producible) (h : refine f z op lhs rhs = some z') :
    Tighter z z' := by
  have hrefl := Tighter.refl hz
  unfold refine at h
  split at h
  · rename_i a av b bv _ _
    cases op with
    | ne =>
      obtain rfl := Option.some.inj h
      exact hrefl
    | eq =>
      obtain ⟨c, _, h⟩ := Option.bind_eq_some_iff.mp h
      obtain ⟨d, _, rfl⟩ := Option.map_eq_some_iff.mp h
      exact (hrefl.addConstraint a b c).addConstraint b a d
    | ule | sle =>
      obtain ⟨c, _, rfl⟩ := Option.map_eq_some_iff.mp h
      exact hrefl.addConstraint a b c
    | uge | sge =>
      obtain ⟨c, _, rfl⟩ := Option.map_eq_some_iff.mp h
      exact hrefl.addConstraint b a c
    | ult | slt =>
      obtain ⟨_, _, h⟩ := Option.bind_eq_some_iff.mp h
      obtain ⟨c, _, rfl⟩ := Option.map_eq_some_iff.mp h
      exact hrefl.addConstraint a b c
    | ugt | sgt =>
      obtain ⟨_, _, h⟩ := Option.bind_eq_some_iff.mp h
      obtain ⟨c, _, rfl⟩ := Option.map_eq_some_iff.mp h
      exact hrefl.addConstraint b a c
  · obtain rfl := Option.some.inj h
    exact hrefl

theorem refineEdge_tighter {t : Terminator} {target : BlockId} (hz : z.Producible)
    (h : refineEdge f t target z = some z') : Tighter z z' := by
  have hsame : some z = some z' → Tighter z z' := by
    intro he
    rw [← Option.some.inj he]
    exact .refl hz
  unfold refineEdge at h
  split at h
  · split at h
    · split_ifs at h
      · exact refine_tighter hz h
      · exact refine_tighter hz h
      · exact hsame h
    · exact hsame h
  · exact hsame h

theorem operand_lt {o : Operand} {a : Nat} {av : Int} (h : operand f o = (some a, av))
    (hlen : z.m.length = (tracked f).length + 1) : a < z.m.length := by
  cases o with
  | reg r => exact idx_lt (Prod.mk.inj h).1 hlen
  | const c =>
    cases c with
    | int bv =>
      obtain ⟨ha, _⟩ := Prod.mk.inj h
      obtain rfl := Option.some.inj ha
      omega
    | null | undef | symbol _ | symbolOffset _ _ => exact absurd (Prod.mk.inj h).1 (by simp)

/-- Refining keeps the valuation, unless the comparison is of tracked operands and is false, or overflows. -/
theorem refine_has_of {op : CmpOp} {lhs rhs : Operand} (hz : z.Producible) (hlen : z.m.length = (tracked f).length + 1)
    (h : z.Has (lift f v)) (hnear : Near f v v)
    (hok : ∀ a av b bv, operand f lhs = (some a, av) → operand f rhs = (some b, bv) → (∀ d ∈ gaps op av bv, FitsI128 d) ∧
      Intervals.cmpInt op (lift f v a + av) (lift f v b + bv) = true) :
    ∃ z', refine f z op lhs rhs = some z' ∧ z'.Has (lift f v) := by
  cases ha : operand f lhs with
  | mk a av =>
    cases hb : operand f rhs with
    | mk b bv =>
      cases a with
      | none => exact ⟨z, refine_untracked (.inl (by rw [ha])), h⟩
      | some a =>
        cases b with
        | none => exact ⟨z, refine_untracked (.inr (by rw [hb])), h⟩
        | some b =>
          obtain ⟨hgaps, hcmp⟩ := hok a av b bv ha hb
          refine refine_has hz h ?_ ha hb (operand_lt ha hlen) (operand_lt hb hlen) hgaps hcmp
          rw [hlen]
          intro i hi j hj
          exact hnear i hi j hj v List.mem_cons_self v List.mem_cons_self

theorem refineEdge_has {t : Terminator} {target : BlockId} (hz : z.Producible) (hlen : z.m.length = (tracked f).length + 1)
    (h : z.Has (lift f v)) (hnear : Near f v v) (hok : GuardTrue f t target v) :
    ∃ z', refineEdge f t target z = some z' ∧ z'.Has (lift f v) := by
  unfold refineEdge
  split
  · rename_i c tb targs eb eargs
    split
    · rename_i op lhs rhs hcmps
      have hcmp := hok op lhs rhs hcmps
      split_ifs with ht he
      · simp only [if_pos ht] at hcmp
        exact refine_has_of hz hlen h hnear (hcmp (.inl ht))
      · simp only [if_neg ht] at hcmp
        exact refine_has_of hz hlen h hnear (hcmp (.inr he))
      · exact ⟨z, rfl, h⟩
    · exact ⟨z, rfl, h⟩
  · exact ⟨z, rfl, h⟩

/-! ## The edge -/

theorem mixed_params {params : List (RegId × Ty)} {args : List Operand} (h : Binds params args v v') :
    mixed (params.map Prod.fst) v v' = v' := by
  funext r
  unfold mixed
  split_ifs with hr
  · rfl
  · exact (h.frame r hr).symm

/-- The zone analysis keeps the integers that an edge binds exactly if binding them in turn gives the same. -/
theorem edgeKeeps_iff (hids : (f.blocks.map (·.id)).Nodup) {n m : Nat} {b tb : BasicBlock} (hb : f.blocks[n]? = some b)
    (htb : f.blocks[m]? = some tb) (hnodup : (tb.params.map Prod.fst).Nodup) {args : List Operand}
    (hbinds : Binds tb.params args v v') (hnear : Near f v v') (hguard : GuardTrue f b.term tb.id v) :
    EdgeKeeps f n m v v' ↔ BindingOk f b.term tb.id tb.params v v' := by
  have hnear' : Near f v v := by
    intro i hi j hj u hu w hw
    have hmem : ∀ x ∈ [v, v], x ∈ [v, v'] := fun x hx => by simp at hx; simp [hx]
    exact hnear i hi j hj u (hmem u hu) w (hmem w hw)
  have hedge : ∀ exit : Zone, exit.bottom = false → transferEdge f n m exit =
      (refineEdge f b.term tb.id exit).bind fun z =>
        match edgeArgs b.term tb.id with
        | some args => bindParams f args 0 tb.params z
        | none => some z := by
    intro exit hexit
    rw [transferEdge, if_neg (by simp [hexit]), Intervals.blockAt_eq hids hb, Intervals.blockAt_eq hids htb] <;> rfl
  constructor
  · intro hkeep
    have hspan : ∀ i < (tracked f).length + 1, ∀ j < (tracked f).length + 1, lift f v j - lift f v i ≤ 2 ^ 127 - 1 :=
      fun i hi j hj => hnear i hi j hj v List.mem_cons_self v List.mem_cons_self
    obtain ⟨z, hz, hlen, hhas, hbounded⟩ := Zone.exists_pinned (lift_zero f v) hspan
    obtain ⟨z', htransfer, hhas'⟩ := hkeep z hz hlen hhas
    rw [hedge z hhas.feasible] at htransfer
    obtain ⟨z₁, hrefine, hbind⟩ := Option.bind_eq_some_iff.mp htransfer
    have htight := refineEdge_tighter hz hrefine
    have hlen₁ := htight.length.trans hlen
    have hpin : ∀ r j, idx f r = some j → Pinned z₁ j (v r) := by
      intro r j hj
      have hlt := (idx_bounds hj).2
      have hle := hbounded 0 (by omega) j (by omega)
      have hge := hbounded j (by omega) 0 (by omega)
      rw [lift_zero, lift_idx hj, Int.sub_zero] at hle
      rw [lift_zero, lift_idx hj, Int.zero_sub] at hge
      exact ⟨htight.bounded 0 j _ hle, htight.bounded j 0 _ hge⟩
    have hsmall : ∀ r j, idx f r = some j → -2 ^ 127 < v r ∧ v r < 2 ^ 127 := by
      intro r j hj
      have hlt := (idx_bounds hj).2
      have hle := hspan 0 (by omega) j (by omega)
      have hge := hspan j (by omega) 0 (by omega)
      rw [lift_zero, lift_idx hj] at hle hge
      omega
    unfold BindingOk
    cases hargs : edgeArgs b.term tb.id with
    | none =>
      rw [hargs] at hbind
      obtain rfl := Option.some.inj hbind
      intro p _ hp
      obtain ⟨j, hj⟩ := Option.ne_none_iff_exists'.mp hp
      rw [← lift_idx (v := v') hj]
      exact (hpin p j hj).eq hhas' (idx_lt hj hlen₁)
    | some found =>
      rw [hargs] at hbind
      intro i p hi hp
      have hnodup' : ([] ++ tb.params.map Prod.fst).Nodup := hnodup
      have hfollows := bindParams_follows hnodup' htight.producible hlen₁ hsmall (fun r j _ => hpin r j) hbind hhas' i p hi hp
      rw [List.nil_append, Nat.zero_add] at hfollows
      exact hfollows
  · intro hok exit hz hlen hhas
    obtain ⟨z₁, hrefine, hhas₁⟩ := refineEdge_has hz hlen hhas hnear' hguard
    have htight := refineEdge_tighter hz hrefine
    rw [hedge exit hhas.feasible, hrefine, Option.bind_some]
    unfold BindingOk at hok
    cases hargs : edgeArgs b.term tb.id with
    | none =>
      rw [hargs] at hok
      refine ⟨z₁, rfl, ?_⟩
      have hsame : lift f v' = lift f v := by
        funext i
        refine lift_congr fun r hr => ?_
        by_cases hp : r ∈ tb.params.map Prod.fst
        · exact hok r hp (by rw [hr]; simp)
        · exact hbinds.frame r hp
      rw [hsame]
      exact hhas₁
    | some found =>
      rw [hargs] at hok
      rw [← mixed_params hbinds]
      refine bindParams_has hnear found tb.params 0 [] htight.producible (htight.length.trans hlen) ?_ ?_
      · rw [mixed_nil]
        exact hhas₁
      · intro k p hk hp
        rw [List.nil_append, Nat.zero_add]
        exact hok k p hk hp

end Relational

namespace Intervals

variable {f : Func} {s : IntervalState} {v v' : RegId → Int}

/-- All registers hold the integers of a valuation. -/
def total (v : RegId → Int) : RegId → Option Int := fun r => some (v r)

/-- The edge keeps a valuation of the intervals. -/
def EdgeKeeps (f : Func) (n m : Nat) (v v' : RegId → Int) : Prop :=
  ∀ s, Covers s (total v) → Covers (transferEdge f n m s) (total v')

/-- The comparison behind the branch is true of the integers, on the side of the target; the copies agree. -/
def GuardTrue (f : Func) (t : Terminator) (target : BlockId) (v : RegId → Int) : Prop :=
  match t with
  | .condBr (.reg c) tb _ eb _ => tb ≠ eb → ∀ op lhs rhs, collectCmps f c = some (op, lhs, rhs) →
      GuardAgrees (collectCopies f) (total v) (if eb = target then op.negate else op) lhs rhs
  | _ => True

/-- An edge without arguments, that of a switch, leaves the parameters as they were. -/
def BindingOk (t : Terminator) (target : BlockId) (params : List (RegId × Ty)) (v v' : RegId → Int) : Prop :=
  matchingArgs t target = [] → ∀ p ∈ params.map Prod.fst, v' p = v p

theorem Covers.write {ρ ρ' : RegId → Option Int} (h : Covers s ρ) {r : RegId} {i : Interval}
    (hframe : ∀ q, q ≠ r → ρ' q = ρ q) (hr : ∀ z, ρ' r = some z → Interval.Mem z i) : Covers (s.set r i) ρ' where
  reachable := by rw [isReachable_set, h.reachable]
  mem q z hz := by
    rw [get_set h.reachable]
    split_ifs with hq
    · subst hq
      exact hr z hz
    · rw [hframe q hq] at hz
      exact h.mem q z hz

theorem mem_argument (h : Covers s (total v)) {arg : Option Operand} {x : Int} :
    Relational.Gives v arg x → Interval.Mem x (match arg with | some op => evalOperand op s | none => .top) := by
  intro hx
  cases arg with
  | none => exact Interval.mem_top x
  | some op =>
    refine evalOperand_covers h ?_
    cases op with
    | reg r =>
      obtain rfl : x = v r := hx
      rfl
    | const c =>
      cases c with
      | int bv => exact hx
      | null => exact hx
      | undef | symbol _ | symbolOffset _ _ => trivial

theorem bindParams_covers {src : IntervalState} (hsrc : Covers src (total v)) {args : List Operand}
    (ps : List (RegId × Ty)) (i : Nat) (done : List RegId) (h : Covers s (total (Relational.mixed done v v')))
    (hgives : ∀ (k : Nat) (p : RegId), (ps.map Prod.fst)[k]? = some p → Relational.Gives v args[i + k]? (v' p)) :
    Covers (bindParams args src i ps s) (total (Relational.mixed (done ++ ps.map Prod.fst) v v')) := by
  induction ps generalizing i done s with
  | nil =>
    rw [List.map_nil, List.append_nil]
    exact h
  | cons r ps ih =>
    obtain ⟨p, ty⟩ := r
    have hdone : done ++ List.map Prod.fst ((p, ty) :: ps) = done ++ [p] ++ ps.map Prod.fst := by simp
    rw [hdone, bindParams]
    refine ih (i + 1) (done ++ [p]) ?_ fun k q hq => ?_
    · refine h.write (fun q hq => ?_) fun z hz => ?_
      · rw [total, Relational.mixed_append, Function.update_of_ne hq]
        rfl
      · rw [total, Relational.mixed_append, Function.update_self] at hz
        obtain rfl := Option.some.inj hz
        exact mem_argument hsrc (hgives 0 p rfl)
    · have := hgives (k + 1) q hq
      rw [Nat.add_right_comm]
      exact this

theorem matchingArgs_of_edge {t : Terminator} {target : BlockId} {args : List Operand} (h : (target, args) ∈ t.edges) :
    args ∈ matchingArgs t target ∨ matchingArgs t target = [] := by
  cases t with
  | br b bargs =>
    obtain ⟨rfl, rfl⟩ := Prod.mk.inj (List.mem_singleton.mp h)
    exact .inl (by simp [matchingArgs])
  | condBr c tb targs eb eargs =>
    rcases List.mem_cons.mp h with h | h
    · obtain ⟨rfl, rfl⟩ := Prod.mk.inj h
      exact .inl (by simp [matchingArgs])
    · obtain ⟨rfl, rfl⟩ := Prod.mk.inj (List.mem_singleton.mp h)
      exact .inl (by simp [matchingArgs])
  | ret _ | unreachable | switch _ _ _ => exact .inr rfl

theorem Covers.mono {t : IntervalState} {ρ : RegId → Option Int} (h : Covers s ρ) (hle : s.leq t = true) : Covers t ρ where
  reachable := isReachable_of_leq hle h.reachable
  mem r z hz := (h.mem r z hz).of_leq (get_leq hle r)

/-- The interval analysis keeps the integers that an edge binds, except where it passes no arguments. -/
theorem edgeKeeps_iff (hids : (f.blocks.map (·.id)).Nodup) {n m : Nat} {b tb : BasicBlock} (hb : f.blocks[n]? = some b)
    (htb : f.blocks[m]? = some tb) {args : List Operand} (hedge : (tb.id, args) ∈ b.term.edges)
    (hbinds : Relational.Binds tb.params args v v') (hfit : ∀ r, FitsI128 (v r)) (hguard : GuardTrue f b.term tb.id v) :
    EdgeKeeps f n m v v' ↔ BindingOk b.term tb.id tb.params v v' := by
  have hrefine : ∀ s, Covers s (total v) → Covers (refineEdge f b.term tb.id s) (total v) := by
    intro s hs
    refine refineEdge_covers (fun r z hz => ?_) hs fun c t targs e eargs hterm => ?_
    · rw [← Option.some.inj hz]
      exact hfit r
    · unfold GuardTrue at hguard
      rw [hterm] at hguard
      exact hguard
  have hunfold : ∀ s, Covers s (total v) → transferEdge f n m s = if matchingArgs b.term tb.id = [] then
        refineEdge f b.term tb.id s
      else (matchingArgs b.term tb.id).foldl (fun acc args => acc.join
        (bindParams args (refineEdge f b.term tb.id s) 0 tb.params (refineEdge f b.term tb.id s))) .unreachable := by
    intro s hs
    rw [transferEdge, if_pos hs.reachable, blockAt_eq hids hb, blockAt_eq hids htb]
    cases hlists : matchingArgs b.term tb.id <;> simp [hlists]
  constructor
  · intro hkeep hnil p hp
    -- a state that has one integer for the parameter
    have hcovers : Covers (IntervalState.top.set p (.singleton ⟨v p, (hfit p).1, (hfit p).2⟩)) (total v) := by
      refine Covers.write (ρ := total v) ⟨rfl, fun _ _ _ => Interval.mem_top _⟩ (fun _ _ => rfl) fun z hz => ?_
      rw [← Option.some.inj hz]
      exact Interval.mem_singleton (⟨v p, (hfit p).1, (hfit p).2⟩ : I128)
    have hafter := (hkeep _ hcovers).mem p (v' p) rfl
    rw [hunfold _ hcovers, if_pos hnil] at hafter
    have hterm : ∀ s, refineEdge f b.term tb.id s = s := by
      intro s
      unfold refineEdge
      split
      · rename_i c t targs e eargs heq
        rw [heq] at hnil hedge
        rcases List.mem_cons.mp hedge with h | h
        · simp [matchingArgs, (Prod.mk.inj h).1] at hnil
        · simp [matchingArgs, (Prod.mk.inj (List.mem_singleton.mp h)).1] at hnil
      · rfl
    rw [hterm, get_set rfl, if_pos rfl] at hafter
    exact eq_of_mem_singleton hafter
  · intro hok s hs
    have hs' := hrefine s hs
    rw [hunfold s hs]
    rcases matchingArgs_of_edge hedge with hmem | hnil
    · have hgives : ∀ (k : Nat) (p : RegId), (tb.params.map Prod.fst)[k]? = some p →
          Relational.Gives v args[0 + k]? (v' p) := by
        intro k p hk
        rw [Nat.zero_add]
        exact hbinds.param k p hk
      have hbind := bindParams_covers hs' tb.params 0 [] (by rw [Relational.mixed_nil]; exact hs') hgives
      rw [List.nil_append, Relational.mixed_params hbinds] at hbind
      have hjoin := hbind.mono ((Engine.leq_foldl (f := fun args => bindParams args (refineEdge f b.term tb.id s) 0
        tb.params (refineEdge f b.term tb.id s)) (matchingArgs b.term tb.id) .unreachable).2 args hmem)
      rw [if_neg fun hnil => List.not_mem_nil (hnil ▸ hmem)]
      exact hjoin
    · rw [if_pos hnil]
      refine ⟨hs'.reachable, fun r z hz => hs'.mem r z ?_⟩
      rw [← hz]
      by_cases hp : r ∈ tb.params.map Prod.fst
      · exact congrArg some (hok hnil r hp).symm
      · exact congrArg some (hbinds.frame r hp).symm

end Intervals

/-- **Binding parameters.** Where an edge is refined rightly, the zone analysis keeps every valuation whose parameters
get the same integers in turn as at once, and the interval analysis every one that the edge passes arguments for. -/
theorem bindParams_exact (f : Func) (hids : (f.blocks.map (·.id)).Nodup) {n m : Nat} {b tb : BasicBlock}
    (hb : f.blocks[n]? = some b) (htb : f.blocks[m]? = some tb) (hnodup : (tb.params.map Prod.fst).Nodup)
    {args : List Operand} (hedge : (tb.id, args) ∈ b.term.edges) {v v' : RegId → Int}
    (hbinds : Relational.Binds tb.params args v v') :
    (Relational.Near f v v' → Relational.GuardTrue f b.term tb.id v →
      (Relational.EdgeKeeps f n m v v' ↔ Relational.BindingOk f b.term tb.id tb.params v v')) ∧
    ((∀ r, FitsI128 (v r)) → Intervals.GuardTrue f b.term tb.id v →
      (Intervals.EdgeKeeps f n m v v' ↔ Intervals.BindingOk b.term tb.id tb.params v v')) :=
  ⟨Relational.edgeKeeps_iff hids hb htb hnodup hbinds, Intervals.edgeKeeps_iff hids hb htb hedge hbinds⟩

/-! ## A loop that swaps its parameters -/

/-- `loop(x, y): br loop(y, x)`. -/
def swapBlock : BasicBlock := ⟨1, [(1, .int 8), (2, .int 8)], [], .br 1 [.reg 2, .reg 1]⟩

/-- `loop(x, y): switch x { default: loop }`, which passes nothing. -/
def latchBlock : BasicBlock := ⟨1, [(1, .int 8), (2, .int 8)], [], .switch (.reg 1) [] 1⟩

def loopFn (loop : BasicBlock) : Func where
  name := "loop"
  params := []
  retTy := .unit
  blocks := [⟨0, [], [], .br 1 [Intervals.byte 1, Intervals.byte 2]⟩, loop]
  entry := 0

/-- The integers of `x` and `y`. -/
def pair (x y : Int) (r : RegId) : Int := if r = 1 then x else if r = 2 then y else 0

theorem near_pair {loop : BasicBlock} (hloop : loop.params = [(1, .int 8), (2, .int 8)]) (hinsts : loop.insts = [])
    {x y x' y' : Int} (h : ∀ u ∈ [0, x, y, x', y'], 0 ≤ u ∧ u < 128) :
    Relational.Near (loopFn loop) (pair x y) (pair x' y') := by
  have htracked : Relational.tracked (loopFn loop) = [1, 2] := by
    simp only [Relational.tracked, loopFn, List.flatMap_cons, List.flatMap_nil, hloop, hinsts]
    rfl
  have hrange : ∀ u ∈ [pair x y, pair x' y'], ∀ i < 3, 0 ≤ Relational.lift (loopFn loop) u i ∧
      Relational.lift (loopFn loop) u i < 128 := by
    intro u hu i hi
    unfold Relational.lift
    rw [htracked]
    have hvalues : i = 0 ∨ i = 1 ∨ i = 2 := by omega
    have hu' : u = pair x y ∨ u = pair x' y' := by simpa using hu
    simp only [List.mem_cons, List.not_mem_nil, or_false, forall_eq_or_imp, forall_eq] at h
    obtain ⟨_, hx, hy, hx', hy'⟩ := h
    rcases hvalues with rfl | rfl | rfl
    · show (0 : Int) ≤ 0 ∧ (0 : Int) < 128
      decide
    · rcases hu' with rfl | rfl
      · exact hx
      · exact hx'
    · rcases hu' with rfl | rfl
      · exact hy
      · exact hy'
  intro i hi j hj u hu w hw
  rw [htracked] at hi hj
  have hui := hrange u hu i hi
  have hwj := hrange w hw j hj
  omega

theorem binds_pair {args : List Operand} {x y x' y' : Int} (hx : Relational.Gives (pair x y) args[0]? x')
    (hy : Relational.Gives (pair x y) args[1]? y') :
    Relational.Binds [(1, .int 8), (2, .int 8)] args (pair x y) (pair x' y') where
  frame r hr := by
    have hne : r ≠ 1 ∧ r ≠ 2 := by simpa using hr
    simp [pair, hne.1, hne.2]
  param i p hp := by
    match i with
    | 0 =>
      obtain rfl : 1 = p := Option.some.inj hp
      exact hx
    | 1 =>
      obtain rfl : 2 = p := Option.some.inj hp
      exact hy
    | i + 2 => exact absurd hp (by simp)

/-- Parameters that are equal can be swapped in turn. -/
theorem bindParams_exact_equal : Relational.EdgeKeeps (loopFn swapBlock) 1 1 (pair 1 1) (pair 1 1) ∧
    Intervals.EdgeKeeps (loopFn swapBlock) 1 1 (pair 1 1) (pair 1 1) := by
  have hblock : (loopFn swapBlock).blocks[1]? = some swapBlock := rfl
  have hbinds : Relational.Binds swapBlock.params [.reg 2, .reg 1] (pair 1 1) (pair 1 1) := binds_pair rfl rfl
  have hexact := bindParams_exact (loopFn swapBlock) (by decide) hblock hblock (by decide) (List.mem_singleton.mpr rfl) hbinds
  constructor
  · refine (hexact.1 (near_pair rfl rfl (by decide)) trivial).mpr ?_
    intro i p hp _
    match i with
    | 0 =>
      obtain rfl : 1 = p := Option.some.inj hp
      exact fun _ _ => rfl
    | 1 =>
      obtain rfl : 2 = p := Option.some.inj hp
      exact fun _ _ => rfl
    | i + 2 => exact absurd hp (by simp [swapBlock])
  · refine (hexact.2 (fun r => ?_) trivial).mpr fun hnil => absurd hnil (by decide)
    unfold pair FitsI128
    split_ifs <;> decide

/-- Parameters that are swapped, or that a switch leaves open, are not kept. -/
theorem bindParams_loses :
    (Relational.Binds swapBlock.params [.reg 2, .reg 1] (pair 1 2) (pair 2 1) ∧
      ¬ Relational.EdgeKeeps (loopFn swapBlock) 1 1 (pair 1 2) (pair 2 1)) ∧
    (Relational.Binds latchBlock.params [] (pair 1 2) (pair 3 4) ∧
      ¬ Relational.EdgeKeeps (loopFn latchBlock) 1 1 (pair 1 2) (pair 3 4) ∧
      ¬ Intervals.EdgeKeeps (loopFn latchBlock) 1 1 (pair 1 2) (pair 3 4)) := by
  have hswap : Relational.Binds swapBlock.params [.reg 2, .reg 1] (pair 1 2) (pair 2 1) := binds_pair rfl rfl
  have hlatch : Relational.Binds latchBlock.params [] (pair 1 2) (pair 3 4) := binds_pair trivial trivial
  have hswapBlock : (loopFn swapBlock).blocks[1]? = some swapBlock := rfl
  have hlatchBlock : (loopFn latchBlock).blocks[1]? = some latchBlock := rfl
  refine ⟨⟨hswap, fun hkeep => ?_⟩, hlatch, fun hkeep => ?_, fun hkeep => ?_⟩
  · have hok := (Relational.edgeKeeps_iff (by decide) hswapBlock hswapBlock (by decide) hswap
      (near_pair rfl rfl (by decide)) trivial).mp hkeep
    have h : (1 : Int) = 2 := hok 1 2 rfl (by decide) (by decide) (by decide)
    exact absurd h (by decide)
  · have hok := (Relational.edgeKeeps_iff (by decide) hlatchBlock hlatchBlock (by decide) hlatch
      (near_pair rfl rfl (by decide)) trivial).mp hkeep
    have h : (3 : Int) = 1 := hok 1 (by decide) (by decide)
    exact absurd h (by decide)
  · have hfit : ∀ r, FitsI128 (pair 1 2 r) := by
      intro r
      unfold pair FitsI128
      split_ifs <;> decide
    have hok := (Intervals.edgeKeeps_iff (by decide) hlatchBlock hlatchBlock
      (List.mem_singleton.mpr rfl) hlatch hfit trivial).mp hkeep
    have h : (3 : Int) = 1 := hok rfl 1 (by decide)
    exact absurd h (by decide)

end Csolver
