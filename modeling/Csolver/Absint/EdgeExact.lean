import Csolver.Absint.Reading
import Csolver.Absint.IntervalExact

/-!
# Where the guard of an edge is right

The comparison behind a branch and the copies of its operands are looked up in the whole function. They say
something about the registers at the branch if the registers still are what was compared and copied: the
comparison has to come out as the branch does, and along every chain of copies the values have to be the same.
Single assignment gives both; where a register is assigned several times, neither is certain.
-/

namespace Csolver

namespace Intervals

variable {f : Func} {Γ : RegId → Nat} {regs : Regs} {s : IntervalState} {ρ : RegId → Option Int}
  {copies : RegId → Option RegId}

/-- The state has the integers that the registers stand for. -/
structure Covers (s : IntervalState) (ρ : RegId → Option Int) : Prop where
  reachable : s.isReachable = true
  mem : ∀ r z, ρ r = some z → Interval.Mem z (s.get r)

/-- The integers that the registers stand for. -/
def readings (Γ : RegId → Nat) (regs : Regs) : RegId → Option Int := fun r => (regs r).map (reading (Γ r))

theorem described_iff : Described Γ s regs ↔ Covers s (readings Γ regs) := by
  constructor
  · intro h
    refine ⟨h.reachable, fun r z hz => ?_⟩
    obtain ⟨x, hx, rfl⟩ := Option.map_eq_some_iff.mp hz
    exact h.mem r x hx
  · intro h
    refine ⟨h.reachable, fun r x hx => h.mem r _ ?_⟩
    rw [readings, hx]
    rfl

/-- The integer that an operand stands for; a constant that is no number may stand for any. -/
def ReadsAs (ρ : RegId → Option Int) : Operand → Int → Prop
  | .reg r, z => ρ r = some z
  | .const (.int bv), z => z = bv.signed
  | .const .null, z => z = 0
  | .const _, _ => True

/-- The registers that refining one meets: itself, what it was copied from, and so on. -/
def chain (copies : RegId → Option RegId) : Nat → RegId → List RegId
  | 0, _ => []
  | fuel + 1, r =>
    r :: match copies r with
      | some src => if src ≠ r then chain copies fuel src else []
      | none => []

/-- Along the copies of an operand the registers hold nothing else. -/
def ChainHas (copies : RegId → Option RegId) (ρ : RegId → Option Int) (op : Operand) (z : Int) : Prop :=
  ∀ r, op = .reg r → ∀ q ∈ chain copies 64 r, ∀ y, ρ q = some y → y = z

/-- A predicate that refines intervals. -/
def refines : CmpOp → Bool
  | .slt | .sle | .sgt | .sge | .eq => true
  | _ => false

/-- The comparison is true of what the registers hold now, and so are the copies. -/
def GuardAgrees (copies : RegId → Option RegId) (ρ : RegId → Option Int) (op : CmpOp) (lhs rhs : Operand) : Prop :=
  refines op = true → (∃ r, lhs = .reg r ∨ rhs = .reg r) →
    ∃ x y, ReadsAs ρ lhs x ∧ ReadsAs ρ rhs y ∧ cmpInt op x y = true ∧ ChainHas copies ρ lhs x ∧ ChainHas copies ρ rhs y

/-- What the analysis takes for the guard of an edge agrees with the registers. -/
def EdgeOk (f : Func) (Γ : RegId → Nat) (regs : Regs) (t : Terminator) (target : BlockId) : Prop :=
  match t with
  | .condBr (.reg c) tb _ eb _ => tb ≠ eb → ∀ op lhs rhs, collectCmps f c = some (op, lhs, rhs) →
      GuardAgrees (collectCopies f) (readings Γ regs) (if eb = target then op.negate else op) lhs rhs
  | _ => True

/-! ## Chains of copies -/

theorem mem_of_meet {i j : Interval} {z : Int} (h : Interval.Mem z (i.meet j)) : Interval.Mem z i ∧ Interval.Mem z j := by
  cases i with
  | bottom => exact h.elim
  | range a b =>
    cases j with
    | bottom => exact h.elim
    | range c d =>
      rw [Interval.meet] at h
      split_ifs at h
      · exact ⟨⟨h.1.of_le (Bound.le_max_left a c), h.2.of_le (Bound.min_le_left b d)⟩,
          h.1.of_le (Bound.le_max_right a c), h.2.of_le (Bound.min_le_right b d)⟩
      · exact h.elim

theorem Covers.set (h : Covers s ρ) {r : RegId} {v : Interval} (hr : ∀ z, ρ r = some z → Interval.Mem z v) :
    Covers (s.set r v) ρ where
  reachable := by rw [isReachable_set, h.reachable]
  mem q z hz := by
    rw [get_set h.reachable]
    split_ifs with hq
    · exact hr z (hq ▸ hz)
    · exact h.mem q z hz

theorem refineReg_covers {iv : Interval} {z : Int} (hz : Interval.Mem z iv) (fuel : Nat) {r : RegId} (h : Covers s ρ)
    (hchain : ∀ q ∈ chain copies fuel r, ∀ y, ρ q = some y → y = z) : Covers (refineReg copies iv fuel s r) ρ := by
  induction fuel generalizing s r with
  | zero => exact h
  | succ fuel ih =>
    have hset : Covers (s.set r ((s.get r).meet iv)) ρ := by
      refine h.set fun y hy => Interval.mem_meet (h.mem r y hy) ?_
      rw [hchain r List.mem_cons_self y hy]
      exact hz
    rw [refineReg]
    cases hsrc : copies r with
    | none => exact hset
    | some src =>
      simp only
      split_ifs with hne
      · refine ih hset fun q hq => hchain q ?_
        rw [chain, hsrc]
        simp only [if_pos hne]
        exact List.mem_cons_of_mem r hq
      · exact hset

theorem mem_refineReg {iv : Interval} {z : Int} (fuel : Nat) {r q : RegId} (hs : s.isReachable = true)
    (h : Interval.Mem z ((refineReg copies iv fuel s r).get q)) :
    Interval.Mem z (s.get q) ∧ (q ∈ chain copies fuel r → Interval.Mem z iv) := by
  induction fuel generalizing s r with
  | zero => exact ⟨h, fun hq => absurd hq List.not_mem_nil⟩
  | succ fuel ih =>
    have hfirst : Interval.Mem z ((s.set r ((s.get r).meet iv)).get q) →
        Interval.Mem z (s.get q) ∧ (q = r → Interval.Mem z iv) := by
      intro hq
      rw [get_set hs] at hq
      split_ifs at hq with heq
      · rw [heq]
        exact ⟨(mem_of_meet hq).1, fun _ => (mem_of_meet hq).2⟩
      · exact ⟨hq, fun he => absurd he heq⟩
    rw [refineReg] at h
    rw [chain]
    cases hsrc : copies r with
    | none =>
      rw [hsrc] at h
      refine ⟨(hfirst h).1, fun hq => (hfirst h).2 ?_⟩
      simpa using hq
    | some src =>
      rw [hsrc] at h
      simp only at h ⊢
      split_ifs at h ⊢ with hne
      · obtain ⟨hset, hmem⟩ := ih (by rw [isReachable_set, hs]) h
        refine ⟨(hfirst hset).1, fun hq => ?_⟩
        rcases List.mem_cons.mp hq with rfl | hq
        · exact (hfirst hset).2 rfl
        · exact hmem hq
      · refine ⟨(hfirst h).1, fun hq => (hfirst h).2 ?_⟩
        simpa using hq

theorem isReachable_refineReg {iv : Interval} (fuel : Nat) {r : RegId} :
    (refineReg copies iv fuel s r).isReachable = s.isReachable := by
  induction fuel generalizing s r with
  | zero => rfl
  | succ fuel ih =>
    rw [refineReg]
    cases copies r with
    | none => exact isReachable_set r _
    | some src =>
      simp only
      split_ifs
      · rw [ih, isReachable_set]
      · exact isReachable_set r _

/-! ## Guards -/

theorem evalOperand_covers (h : Covers s ρ) {op : Operand} {z : Int} (hz : ReadsAs ρ op z) :
    Interval.Mem z (evalOperand op s) := by
  cases op with
  | reg r => exact h.mem r z hz
  | const c =>
    cases c with
    | int bv =>
      obtain rfl : z = bv.signed := hz
      exact Interval.mem_singleton (signedI128 bv)
    | null =>
      obtain rfl : z = 0 := hz
      exact Interval.mem_singleton zero
    | undef => exact Interval.mem_top z
    | symbol name => exact Interval.mem_top z
    | symbolOffset name off => exact Interval.mem_top z

theorem constraints_some {op : CmpOp} {i j : Interval} : (constraints op i j).isSome = refines op := by
  cases op <;> rfl

theorem constraints_left {op : CmpOp} {i j nl nr : Interval} {x y : Int} (h : constraints op i j = some (nl, nr))
    (hcmp : cmpInt op x y = true) (hy : Interval.Mem y j) (hx : FitsI128 x) : Interval.Mem x nl := by
  cases op with
  | slt =>
    obtain ⟨rfl, -⟩ := Prod.mk.inj (Option.some.inj h)
    have hlt : x < y := of_decide_eq_true hcmp
    exact mem_upper hy hlt hx.1
  | sle =>
    obtain ⟨rfl, -⟩ := Prod.mk.inj (Option.some.inj h)
    have hle : x ≤ y := of_decide_eq_true hcmp
    exact mem_upper hy hle hx.1
  | sgt =>
    obtain ⟨rfl, -⟩ := Prod.mk.inj (Option.some.inj h)
    have hlt : y < x := of_decide_eq_true hcmp
    exact mem_lower hy hlt hx.2
  | sge =>
    obtain ⟨rfl, -⟩ := Prod.mk.inj (Option.some.inj h)
    have hle : y ≤ x := of_decide_eq_true hcmp
    exact mem_lower hy hle hx.2
  | eq =>
    obtain ⟨rfl, -⟩ := Prod.mk.inj (Option.some.inj h)
    have heq : x = y := of_decide_eq_true hcmp
    exact heq ▸ hy
  | _ => exact absurd h (by simp [constraints])

theorem cmpInt_swap (op : CmpOp) (x y : Int) : cmpInt op.swap y x = cmpInt op x y := by
  cases op <;> simp [CmpOp.swap, cmpInt, eq_comm]

theorem constraints_swap {op : CmpOp} {i j nl nr : Interval} (h : constraints op i j = some (nl, nr)) :
    constraints op.swap j i = some (nr, nl) := by
  cases op with
  | slt | sle | sgt | sge | eq =>
    obtain ⟨rfl, rfl⟩ := Prod.mk.inj (Option.some.inj h)
    rfl
  | _ => exact absurd h (by simp [constraints])

theorem refines_of_constraints {op : CmpOp} {i j nl nr : Interval} (h : constraints op i j = some (nl, nr)) :
    refines op = true := by
  rw [← constraints_some (i := i) (j := j), h]
  rfl

theorem constraints_right {op : CmpOp} {i j nl nr : Interval} {x y : Int} (h : constraints op i j = some (nl, nr))
    (hcmp : cmpInt op x y = true) (hx : Interval.Mem x i) (hy : FitsI128 y) : Interval.Mem y nr := by
  refine constraints_left (constraints_swap h) ?_ hx hy
  rw [cmpInt_swap]
  exact hcmp

/-- The integers of the registers are held by `i128`. -/
def RegsFit (ρ : RegId → Option Int) : Prop := ∀ r z, ρ r = some z → FitsI128 z

theorem refineOperand_covers (h : Covers s ρ) {op : Operand} {iv : Interval} {z : Int}
    (hz : ∀ r, op = .reg r → Interval.Mem z iv) (hchain : ChainHas copies ρ op z) : Covers (refineOperand copies s op iv) ρ := by
  cases op with
  | const c => exact h
  | reg r => exact refineReg_covers (hz r rfl) 64 h (hchain r rfl)

theorem refineByCmp_covers (hfit : RegsFit ρ) (h : Covers s ρ) {op : CmpOp} {lhs rhs : Operand} {negate : Bool}
    (hok : GuardAgrees copies ρ (if negate then op.negate else op) lhs rhs) :
    Covers (refineByCmp copies s op lhs rhs negate) ρ := by
  rw [refineByCmp]
  generalize (if negate then op.negate else op) = op at hok
  simp only
  cases hc : constraints op (evalOperand lhs s) (evalOperand rhs s) with
  | none => exact h
  | some n =>
    obtain ⟨nl, nr⟩ := n
    by_cases hreg : ∃ r, lhs = .reg r ∨ rhs = .reg r
    · obtain ⟨x, y, hx, hy, hcmp, hcx, hcy⟩ := hok (refines_of_constraints hc) hreg
      have hmx := evalOperand_covers h hx
      have hmy := evalOperand_covers h hy
      refine refineOperand_covers (z := y) (refineOperand_covers (z := x) h ?_ hcx) ?_ hcy
      · intro r hr
        subst hr
        exact Interval.mem_meet hmx (constraints_left hc hcmp hmy (hfit r x hx))
      · intro r hr
        subst hr
        exact Interval.mem_meet hmy (constraints_right hc hcmp hmx (hfit r y hy))
    · -- constants are not refined
      cases lhs with
      | reg r => exact absurd ⟨r, .inl rfl⟩ hreg
      | const c =>
        cases rhs with
        | reg r => exact absurd ⟨r, .inr rfl⟩ hreg
        | const d => exact h

theorem refineEdge_covers (hfit : RegsFit ρ) (h : Covers s ρ) {t : Terminator} {target : BlockId}
    (hok : ∀ c tb targs eb eargs, t = .condBr (.reg c) tb targs eb eargs → tb ≠ eb → ∀ op lhs rhs,
      collectCmps f c = some (op, lhs, rhs) →
        GuardAgrees (collectCopies f) ρ (if eb = target then op.negate else op) lhs rhs) :
    Covers (refineEdge f t target s) ρ := by
  unfold refineEdge
  split
  · rename_i c tb targs eb eargs
    split
    · rename_i op lhs rhs hcmps
      split_ifs with hside
      · have hte : tb ≠ eb := by
          intro he
          subst he
          exact hside rfl
        refine refineByCmp_covers hfit h ?_
        have hagree := hok c tb targs eb eargs rfl hte op lhs rhs hcmps
        by_cases he : eb = target
        · rw [if_pos he] at hagree
          simpa [he] using hagree
        · rw [if_neg he] at hagree
          simpa [he] using hagree
      · exact h
    · exact h
  · exact h

/-! ## Where the guard does not agree -/

theorem cmpInt_of_left {op : CmpOp} {j nl nr : Interval} {x : Int} {y : I128} (hj : j = .singleton y) {i : Interval}
    (h : constraints op i j = some (nl, nr)) (hx : Interval.Mem x nl) : cmpInt op x y.val = true := by
  subst hj
  have hupper : ∀ {strict : Bool}, Interval.Mem x ((Interval.singleton y).asUpperConstraint strict) →
      if strict then x < y.val else x ≤ y.val := by
    intro strict hm
    cases strict with
    | false => exact hm.2
    | true =>
      have hm' : (Bound.add (.fin y) (.fin ⟨-1, I128.negOne_lo, I128.negOne_hi⟩)).Above x := hm.2
      have hlo := y.lo
      have hhi := y.hi
      simp only [Bound.add] at hm'
      cases hc : I128.checked (y.val + -1) with
      | none =>
        have hr := Bound.not_range_of_checked hc
        rw [hc] at hm'
        simp only [if_neg (show ¬ 0 < y.val by omega)] at hm'
        exact hm'.elim
      | some u =>
        rw [hc] at hm'
        have hu := Bound.eq_of_checked hc
        have hle : x ≤ u.val := hm'
        show x < y.val
        omega
  have hlower : ∀ {strict : Bool}, Interval.Mem x ((Interval.singleton y).asLowerConstraint strict) →
      if strict then y.val < x else y.val ≤ x := by
    intro strict hm
    cases strict with
    | false => exact hm.1
    | true =>
      have hm' : (Bound.add (.fin y) (.fin ⟨1, I128.one_lo, I128.one_hi⟩)).Below x := hm.1
      have hlo := y.lo
      have hhi := y.hi
      simp only [Bound.add] at hm'
      cases hc : I128.checked (y.val + 1) with
      | none =>
        have hr := Bound.not_range_of_checked hc
        rw [hc] at hm'
        simp only [if_pos (show 0 < y.val by omega)] at hm'
        exact hm'.elim
      | some u =>
        rw [hc] at hm'
        have hu := Bound.eq_of_checked hc
        have hle : u.val ≤ x := hm'
        show y.val < x
        omega
  cases op with
  | slt => obtain ⟨rfl, -⟩ := Prod.mk.inj (Option.some.inj h); exact decide_eq_true (hupper hx)
  | sle => obtain ⟨rfl, -⟩ := Prod.mk.inj (Option.some.inj h); exact decide_eq_true (hupper hx)
  | sgt => obtain ⟨rfl, -⟩ := Prod.mk.inj (Option.some.inj h); exact decide_eq_true (hlower hx)
  | sge => obtain ⟨rfl, -⟩ := Prod.mk.inj (Option.some.inj h); exact decide_eq_true (hlower hx)
  | eq =>
    obtain ⟨rfl, -⟩ := Prod.mk.inj (Option.some.inj h)
    exact decide_eq_true (le_antisymm hx.2 hx.1)
  | _ => exact absurd h (by simp [constraints])

theorem cmpInt_of_right {op : CmpOp} {i nl nr : Interval} {y : Int} {x : I128} (hi : i = .singleton x) {j : Interval}
    (h : constraints op i j = some (nl, nr)) (hy : Interval.Mem y nr) : cmpInt op x.val y = true := by
  rw [← cmpInt_swap]
  exact cmpInt_of_left hi (constraints_swap h) hy

theorem exists_right {op : CmpOp} (h : refines op = true) (x : Int) : ∃ y, cmpInt op x y = true := by
  cases op with
  | slt => exact ⟨x + 1, decide_eq_true (by omega)⟩
  | sgt => exact ⟨x - 1, decide_eq_true (by omega)⟩
  | sle | sge => exact ⟨x, decide_eq_true (le_refl x)⟩
  | eq => exact ⟨x, decide_eq_true rfl⟩
  | _ => exact absurd h (by decide)

theorem exists_left {op : CmpOp} (h : refines op = true) (y : Int) : ∃ x, cmpInt op x y = true := by
  have hm : refines op.swap = true := by
    cases op with
    | slt | sle | sgt | sge | eq => rfl
    | _ => exact absurd h (by decide)
  obtain ⟨x, hx⟩ := exists_right hm y
  exact ⟨x, by rwa [cmpInt_swap] at hx⟩

/-- A state in which a register has its integer alone. -/
def pin (ρ : RegId → Option Int) (op : Operand) (s : IntervalState) : IntervalState :=
  match op with
  | .reg r => s.set r (((ρ r).bind I128.checked).elim .top .singleton)
  | .const _ => s

theorem Covers.pin (hfit : RegsFit ρ) (h : Covers s ρ) (op : Operand) : Covers (pin ρ op s) ρ := by
  cases op with
  | const c => exact h
  | reg r =>
    refine h.set fun z hz => ?_
    obtain ⟨x, hx, rfl⟩ := (hfit r z hz).exists_checked
    rw [hz, Option.bind_some, hx]
    exact Interval.mem_singleton x

theorem exists_pinned (hfit : RegsFit ρ) {lhs rhs : Operand} (hvalued : ∀ r, lhs = .reg r ∨ rhs = .reg r → ∃ z, ρ r = some z) :
    ∃ s, Covers s ρ ∧ ∀ r, lhs = .reg r ∨ rhs = .reg r → ∃ x : I128, ρ r = some x.val ∧ s.get r = .singleton x := by
  have htop : Covers .top ρ := ⟨rfl, fun r z _ => Interval.mem_top z⟩
  have hpinned : ∀ {s : IntervalState} {r : RegId}, s.isReachable = true → (∃ z, ρ r = some z) →
      ∃ x : I128, ρ r = some x.val ∧ (pin ρ (.reg r) s).get r = .singleton x := by
    intro s r hs ⟨z, hz⟩
    obtain ⟨x, hx, rfl⟩ := (hfit r z hz).exists_checked
    refine ⟨x, hz, ?_⟩
    rw [Intervals.pin, get_set hs, if_pos rfl, hz, Option.bind_some, hx]
    rfl
  refine ⟨pin ρ rhs (pin ρ lhs .top), (htop.pin hfit lhs).pin hfit rhs, fun r hr => ?_⟩
  by_cases hrhs : rhs = .reg r
  · subst hrhs
    exact hpinned (htop.pin hfit lhs).reachable (hvalued r hr)
  · obtain rfl := hr.resolve_right hrhs
    obtain ⟨x, hx, hget⟩ := @hpinned .top r rfl (hvalued r hr)
    refine ⟨x, hx, ?_⟩
    cases rhs with
    | const c => exact hget
    | reg q =>
      have hq : r ≠ q := fun he => hrhs (he ▸ rfl)
      rw [Intervals.pin, get_set (htop.pin hfit _).reachable, if_neg hq]
      exact hget

theorem evalOperand_pinned (op : Operand) (h : ∀ r, op = .reg r → ∃ x : I128, ρ r = some x.val ∧ s.get r = .singleton x) :
    (∃ x : I128, evalOperand op s = .singleton x ∧ ReadsAs ρ op x.val) ∨
      ((∀ z, ReadsAs ρ op z) ∧ ∀ r, op ≠ .reg r) := by
  cases op with
  | reg r =>
    obtain ⟨x, hx, hget⟩ := h r rfl
    exact .inl ⟨x, hget, hx⟩
  | const c =>
    cases c with
    | int bv => exact .inl ⟨signedI128 bv, rfl, rfl⟩
    | null => exact .inl ⟨zero, rfl, rfl⟩
    | undef => exact .inr ⟨fun _ => trivial, by simp⟩
    | symbol name => exact .inr ⟨fun _ => trivial, by simp⟩
    | symbolOffset name off => exact .inr ⟨fun _ => trivial, by simp⟩

theorem eq_of_mem_singleton {z : Int} {x : I128} (h : Interval.Mem z (.singleton x)) : z = x.val :=
  le_antisymm h.2 h.1

theorem chainHas_of_met {op : Operand} {i n : Interval} {x : I128} (hi : i = .singleton x)
    (h : ∀ r, op = .reg r → ∀ q ∈ chain copies 64 r, ∀ v, ρ q = some v → Interval.Mem v (i.meet n)) :
    ChainHas copies ρ op x.val := by
  intro r hr q hq v hv
  have hmem := (mem_of_meet (h r hr q hq v hv)).1
  rw [hi] at hmem
  exact eq_of_mem_singleton hmem

theorem guardAgrees_of_covers (hfit : RegsFit ρ) {op : CmpOp} {lhs rhs : Operand} {negate : Bool}
    (hvalued : ∀ r, lhs = .reg r ∨ rhs = .reg r → ∃ z, ρ r = some z)
    (h : ∀ s, Covers s ρ → Covers (refineByCmp copies s op lhs rhs negate) ρ) :
    GuardAgrees copies ρ (if negate then op.negate else op) lhs rhs := by
  intro hrefines hreg
  obtain ⟨s, hs, hpin⟩ := exists_pinned hfit hvalued
  have hafter := h s hs
  rw [refineByCmp] at hafter
  generalize (if negate then op.negate else op) = op at hafter hrefines
  simp only at hafter
  obtain ⟨⟨nl, nr⟩, hc⟩ := Option.isSome_iff_exists.mp
    ((constraints_some (i := evalOperand lhs s) (j := evalOperand rhs s)).trans hrefines)
  rw [hc] at hafter
  simp only at hafter
  -- what the chains of the two operands were met with
  have hleft : ∀ r, lhs = .reg r → ∀ q ∈ chain copies 64 r, ∀ v, ρ q = some v →
      Interval.Mem v ((evalOperand lhs s).meet nl) := by
    intro r hr q hq v hv
    subst hr
    have hmem := hafter.mem q v hv
    have hinner : Interval.Mem v ((refineReg copies ((evalOperand (.reg r) s).meet nl) 64 s r).get q) := by
      cases rhs with
      | const c => exact hmem
      | reg r' => exact (mem_refineReg 64 ((isReachable_refineReg 64).trans hs.reachable) hmem).1
    exact (mem_refineReg 64 hs.reachable hinner).2 hq
  have hright : ∀ r, rhs = .reg r → ∀ q ∈ chain copies 64 r, ∀ v, ρ q = some v →
      Interval.Mem v ((evalOperand rhs s).meet nr) := by
    intro r hr q hq v hv
    subst hr
    have hreach : (refineOperand copies s lhs ((evalOperand lhs s).meet nl)).isReachable = true := by
      cases lhs with
      | const c => exact hs.reachable
      | reg r' => exact (isReachable_refineReg 64).trans hs.reachable
    exact (mem_refineReg 64 hreach (hafter.mem q v hv)).2 hq
  have hhead : ∀ r, r ∈ chain copies 64 r := fun r => List.mem_cons_self
  rcases evalOperand_pinned (ρ := ρ) (s := s) lhs fun r hr => hpin r (.inl hr) with ⟨x, hx, hxr⟩ | ⟨hany, hnot⟩
  · have hcx := chainHas_of_met hx hleft
    rcases evalOperand_pinned (ρ := ρ) (s := s) rhs fun r hr => hpin r (.inr hr) with ⟨y, hy, hyr⟩ | ⟨hany, hnot⟩
    · have hcy := chainHas_of_met hy hright
      refine ⟨x.val, y.val, hxr, hyr, ?_, hcx, hcy⟩
      obtain ⟨r, hr | hr⟩ := hreg
      · subst hr
        exact cmpInt_of_left hy hc (mem_of_meet (hleft r rfl r (hhead r) x.val hxr)).2
      · subst hr
        exact cmpInt_of_right hx hc (mem_of_meet (hright r rfl r (hhead r) y.val hyr)).2
    · obtain ⟨y, hcmp⟩ := exists_right hrefines x.val
      exact ⟨x.val, y, hxr, hany y, hcmp, hcx, fun r hr => absurd hr (hnot r)⟩
  · obtain ⟨r, hr | hr⟩ := hreg
    · exact absurd hr (hnot r)
    · obtain ⟨y, hy, hyr⟩ := (evalOperand_pinned (ρ := ρ) (s := s) rhs fun r hr => hpin r (.inr hr)).resolve_right
        fun hn => hn.2 r hr
      have hcy := chainHas_of_met hy hright
      obtain ⟨x, hcmp⟩ := exists_left hrefines y.val
      exact ⟨x, y.val, hany x, hyr, hcmp, fun r hr => absurd hr (hnot r), hcy⟩

/-! ## Edges -/

/-- The operands of the comparison that a branch is refined by hold values. -/
def GuardValued (f : Func) (regs : Regs) : Terminator → Prop
  | .condBr (.reg c) _ _ _ _ => ∀ op lhs rhs, collectCmps f c = some (op, lhs, rhs) →
      ∀ r, lhs = .reg r ∨ rhs = .reg r → ∃ x, regs r = some x
  | _ => True

theorem transferEdge_of_condBr (hids : (f.blocks.map (·.id)).Nodup) {n m : Nat} {b tb : BasicBlock} (hb : f.blocks[n]? = some b)
    (htb : f.blocks[m]? = some tb) (hs : s.isReachable = true) {c : RegId} {t e : BlockId} {targs eargs : List Operand}
    (hterm : b.term = .condBr (.reg c) t targs e eargs) (hte : t ≠ e) (htarget : t = tb.id ∨ e = tb.id)
    (hparams : tb.params = []) : transferEdge f n m s = refineEdge f b.term tb.id s := by
  have hjoin : ∀ args : List Operand, matchingArgs b.term tb.id = [args] →
      transferEdge f n m s = refineEdge f b.term tb.id s := by
    intro args hargs
    rw [transferEdge, if_pos hs, blockAt_eq hids hb, blockAt_eq hids htb]
    simp only [hargs, hparams, bindParams, List.foldl_cons, List.foldl_nil]
    rfl
  rcases htarget with rfl | rfl
  · exact hjoin targs (by rw [hterm, matchingArgs, if_pos rfl, if_neg (Ne.symm hte)]; rfl)
  · exact hjoin eargs (by rw [hterm, matchingArgs, if_neg hte, if_pos rfl]; rfl)

/-- **Refining an edge.** An edge that is taken keeps the registers, in whatever state they are described by, if
the guard agrees with them; and only then, if the target has no parameters that are written over. -/
theorem transferEdge_exact (f : Func) (Γ : RegId → Nat) (hids : (f.blocks.map (·.id)).Nodup) (hΓ : ∀ r, Γ r ≤ 128) {n m : Nat}
    {b tb : BasicBlock} (hb : f.blocks[n]? = some b) (htb : f.blocks[m]? = some tb) {regs : Regs} {args : List Operand}
    {xs : List Nat} (hgoes : b.term.Goes regs tb.id args) (hargs : List.Forall₂ (Operand.Evals regs) args xs)
    (hlen : args.length = tb.params.length) (hwidth : ∀ p ∈ tb.params.zip args, p.2.width Γ = Γ p.1.1) :
    (EdgeOk f Γ regs b.term tb.id → (∀ op ∈ args, Plain op) →
        ∀ s, Described Γ s regs → Described Γ (transferEdge f n m s) (regs.bind tb.params xs)) ∧
      (tb.params = [] → GuardValued f regs b.term →
        (∀ s, Described Γ s regs → Described Γ (transferEdge f n m s) (regs.bind tb.params xs)) →
        EdgeOk f Γ regs b.term tb.id) := by
  have hfit : RegsFit (readings Γ regs) := by
    intro r z hz
    obtain ⟨x, _, rfl⟩ := Option.map_eq_some_iff.mp hz
    exact reading_range (hΓ r) x
  constructor
  · intro hok hplain s hs
    refine transferEdge_of_refined hids hb htb hs (described_iff.mpr ?_) hgoes hplain hargs hlen hwidth
    refine refineEdge_covers hfit (described_iff.mp hs) fun c t targs e eargs hterm => ?_
    unfold EdgeOk at hok
    rw [hterm] at hok
    exact hok
  · intro hparams hvalued h
    unfold EdgeOk
    split
    · rename_i c t targs e eargs hterm
      intro hte op lhs rhs hcmps
      have htarget : t = tb.id ∨ e = tb.id := by
        rw [hterm] at hgoes
        cases hgoes with
        | condThen _ _ => exact .inl rfl
        | condElse _ => exact .inr rfl
      rw [hterm] at hvalued
      have hside : (t = tb.id) ≠ (e = tb.id) := by
        intro he
        rcases htarget with h | h
        · exact hte (h.trans (he ▸ h : e = tb.id).symm)
        · exact hte ((he.symm ▸ h : t = tb.id).trans h.symm)
      have hagree : GuardAgrees (collectCopies f) (readings Γ regs)
          (if decide (e = tb.id) = true then op.negate else op) lhs rhs := by
        refine guardAgrees_of_covers hfit (fun r hr => ?_) fun s hs => ?_
        · obtain ⟨x, hx⟩ := hvalued op lhs rhs hcmps r hr
          exact ⟨reading (Γ r) x, by rw [readings, hx]; rfl⟩
        · have hs' := described_iff.mpr hs
          have hafter := h s hs'
          rw [transferEdge_of_condBr hids hb htb hs.reachable hterm hte htarget hparams, hparams] at hafter
          have hbind : regs.bind [] xs = regs := by cases xs <;> rfl
          rw [hbind, hterm, refineEdge, hcmps] at hafter
          simp only [if_pos hside] at hafter
          exact described_iff.mp hafter
      simpa using hagree
    · trivial

/-! ## A register that is assigned twice -/

instance neZero256 : NeZero 256 := ⟨by decide⟩

def byte (n : Fin 256) : Operand := .const (.int ⟨8, n.val, BitVector.pos8, BitVector.le8, by have := n.isLt; omega⟩)

/-- `x = 5; c = x < 10; x = y; if c …`: the comparison is of the old `x`. -/
def rewritten (y : Fin 256) : BasicBlock :=
  ⟨0, [], [.assign 0 (.int 8) (.use (byte 5)), .assign 1 (.int 1) (.cmp .slt (.reg 0) (byte 10)),
    .assign 0 (.int 8) (.use (byte y))], .condBr (.reg 1) 1 [] 2 []⟩

def rewrittenFn (y : Fin 256) : Func where
  name := "rewritten"
  params := []
  retTy := .unit
  blocks := [rewritten y, ⟨1, [], [], .ret none⟩, ⟨2, [], [], .ret none⟩]
  entry := 0

/-- What the registers hold at the branch. -/
def rewrittenRegs (y : Nat) : Regs := ((Regs.set (fun _ => none) 0 5).set 1 1).set 0 y

def rewrittenWidth (r : RegId) : Nat := if r = 1 then 1 else 8

theorem rewritten_reaches (y : Fin 256) :
    (rewrittenFn y).Reaches rewrittenWidth [] ⟨rewritten y, [], rewrittenRegs y⟩ := by
  have hy : y.val < 256 := y.isLt
  refine .step (.step (.step (.start ⟨rfl, rfl, rfl, rfl⟩) (.inst (.assign ?_))) (.inst (.assign ?_))) (.inst (.assign ?_))
  · exact ⟨[5], .cons rfl .nil, rfl⟩
  · exact ⟨[5, 10], .cons rfl (.cons rfl .nil), rfl⟩
  · refine ⟨[y.val], .cons rfl .nil, ?_⟩
    show y.val = y.val % 2 ^ 8 % 2 ^ 8
    omega

/-- The interval of the compared register, after the block and after the edge to the first branch. -/
def rewrittenAfter (y : Fin 256) : Interval × Interval :=
  let s := transferBlock (rewrittenFn y) 0 .top
  (s.get 0, (transferEdge (rewrittenFn y) 0 1 s).get 0)

theorem rewritten_described (y : Fin 256) :
    Described rewrittenWidth (transferBlock (rewrittenFn y) 0 .top) (rewrittenRegs y) := by
  refine ⟨rfl, fun r x hx => ?_⟩
  by_cases h0 : r = 0
  · subst h0
    obtain rfl : y.val = x := Option.some.inj hx
    have hread : reading (rewrittenWidth 0) y.val = (BitVec.ofNat 8 y.val).toInt := rfl
    rw [hread]
    exact Interval.mem_singleton _
  · by_cases h1 : r = 1
    · subst h1
      obtain rfl : 1 = x := Option.some.inj hx
      show Interval.Mem 1 (.range (.fin zero) (.fin one))
      exact ⟨(by decide : (0 : Int) ≤ 1), le_refl (1 : Int)⟩
    · simp [rewrittenRegs, Regs.set, h0, h1] at hx

/-- `5 < 10`, but the register that is narrowed by it holds `100`. -/
theorem transferEdge_loses :
    ((rewrittenFn 100).blocks.map (·.id)).Nodup ∧
      (rewrittenFn 100).Reaches rewrittenWidth [] ⟨rewritten 100, [], rewrittenRegs 100⟩ ∧
      (rewritten 100).term.Goes (rewrittenRegs 100) 1 [] ∧
      Described rewrittenWidth (transferBlock (rewrittenFn 100) 0 .top) (rewrittenRegs 100) ∧
      ¬ Described rewrittenWidth (transferEdge (rewrittenFn 100) 0 1 (transferBlock (rewrittenFn 100) 0 .top))
        ((rewrittenRegs 100).bind [] []) := by
  refine ⟨by decide, rewritten_reaches 100, .condThen (x := 1) rfl (by decide), rewritten_described 100, ?_⟩
  intro h
  have hmem := h.mem 0 100 rfl
  have hafter : (rewrittenAfter 100).2 = .bottom := by decide +kernel
  rw [rewrittenAfter] at hafter
  simp only at hafter
  rw [hafter] at hmem
  exact hmem

/-- Where `7` is written over `5` the comparison is still true. -/
theorem transferEdge_exact_seven :
    Described rewrittenWidth (transferEdge (rewrittenFn 7) 0 1 (transferBlock (rewrittenFn 7) 0 .top))
      ((rewrittenRegs 7).bind [] []) := by
  have hgoes : (rewritten 7).term.Goes (rewrittenRegs 7) 1 [] := .condThen (x := 1) rfl (by decide)
  have hblock : (rewrittenFn 7).blocks[1]? = some ⟨1, [], [], .ret none⟩ := rfl
  refine (transferEdge_exact (rewrittenFn 7) rewrittenWidth (by decide) (fun r => ?_) (b := rewritten 7) rfl hblock
    hgoes .nil rfl (by simp)).1 ?_ (by simp) _ (rewritten_described 7)
  · unfold rewrittenWidth
    split <;> decide
  · intro _ op lhs rhs hcmps
    have hfound : collectCmps (rewrittenFn 7) 1 = some (.slt, .reg 0, byte 10) := rfl
    rw [hfound] at hcmps
    obtain ⟨rfl, rfl, rfl⟩ : CmpOp.slt = op ∧ Operand.reg 0 = lhs ∧ byte 10 = rhs := by simpa using hcmps
    intro _ _
    have hcopy : collectCopies (rewrittenFn 7) 0 = none := by decide +kernel
    have hseven : readings rewrittenWidth (rewrittenRegs 7) 0 = some 7 := by decide +kernel
    have hten : (10 : Int) = (BitVec.ofNat 8 10).toInt := by decide
    refine ⟨7, 10, hseven, hten, by decide, ?_, fun r hr => nomatch hr⟩
    intro r hr q hq y hy
    obtain rfl : 0 = r := Operand.reg.inj hr
    rw [chain, hcopy] at hq
    obtain rfl : q = 0 := by simpa using hq
    rw [hseven] at hy
    exact (Option.some.inj hy).symm

end Intervals

end Csolver
