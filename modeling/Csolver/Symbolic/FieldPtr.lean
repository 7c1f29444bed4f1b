import Csolver.Llvm.Gep
import Csolver.Symbolic.ExitBound
import Csolver.Symbolic.Load

/-!
# Field pointers (`FieldPtr` in `exec/step.rs`, `field_offset` in `exec/merge.rs`)

A typed field is placed at a synthetic offset of its region: the region's frontier when the field is met for
the first time, and the same offset from then on. The table is kept for the whole exploration, by region and
field number.

Beside the symbolic state a run here carries what happens in one execution: where the pointers really point,
and which aggregate the program sees at the base of a field access.
-/

namespace Csolver

/-! ## The executor -/

/-- `field_offsets` and `field_frontier`. -/
structure FieldTable where
  offsets : Nat × Nat → Option Nat
  frontier : Nat → Nat

def FieldTable.empty : FieldTable := ⟨fun _ => none, fun _ => 0⟩

/-- A new field takes the frontier, which advances. -/
def FieldTable.add (t : FieldTable) (rid field size : Nat) : FieldTable where
  offsets := Function.update t.offsets (rid, field) (some (t.frontier rid))
  frontier := Function.update t.frontier rid ((t.frontier rid + max size 1) % 2 ^ 64)

def fieldOffset (rid field size : Nat) (t : FieldTable) : Nat × FieldTable :=
  match t.offsets (rid, field) with
  | some o => (o, t)
  | none => (t.frontier rid, t.add rid field size)

/-- `offset + size <= region size`, for the synthetic offset. -/
def fieldFact (off size : Nat) (regionSize : Expr) : Expr :=
  .mkCmp .sle (.int ptrWidth ((off + size) % 2 ^ 64)) regionSize

/-- The `FieldPtr` case of `step_inst`. -/
def stepFieldPtr (dst : RegId) (base : Operand) (field size align : Nat) (state : PathState)
    (t : FieldTable) : ExploreM (PathState × FieldTable) := do
  let p ← evalPointer base state
  match p.prov with
  | .region rid =>
    match state.regions[rid]? with
    | some reg =>
      let (off, t) := fieldOffset rid field size t
      let state := { state with facts := state.facts ++ [fieldFact off size reg.size] }
      return (state.setReg dst (.ptr (.mk (.region rid) (.int ptrWidth off) (max align 1) p.borrow)), t)
    | none => return (state.setReg dst (.ptr (.mk p.prov p.offset (max align 1) p.borrow)), t)
  | prov => return (state.setReg dst (.ptr (.mk prov p.offset (max align 1) p.borrow)), t)

def inBoundsConjuncts (offset : Expr) (asize : Nat) (size : Expr) : List Expr :=
  let stop := Expr.mkBin .add offset (.int ptrWidth asize)
  [.mkCmp .sle (.int ptrWidth 0) offset, .mkCmp .sle offset stop, .mkCmp .sle stop size]

mutual

/-- The `InBounds` obligation of `check_access`, for a provenance and the offset from it. -/
def Prov.inBounds (pr : Prover) (asize : Nat) : Prov → Expr → PathState → Bool
  | .select c t e, outer, state =>
    t.inBounds pr asize outer { state with pathcond := state.pathcond ++ [c] } &&
      e.inBounds pr asize outer { state with pathcond := state.pathcond ++ [.mkNot c] }
  | .region rid, offset, state =>
    match state.regions[rid]? with
    | some reg => (inBoundsConjuncts offset asize reg.size).all (pr.prove · state)
    | none => false
  | _, _, _ => false

/-- A side of a join is moved by what the join was moved by. -/
def SymPointer.inBounds (pr : Prover) (asize : Nat) : SymPointer → Expr → PathState → Bool
  | .mk prov offset _ _, outer, state => prov.inBounds pr asize (.mkBin .add offset outer) state

end

/-- The access is proved to stay within its allocation. -/
def accessProved (pr : Prover) (p : SymPointer) (asize : Nat) (state : PathState) : Bool :=
  p.prov.inBounds pr asize p.offset state

/-! ## The execution -/

/-- The layout of an aggregate: fields of at least a byte, side by side. -/
structure Aggregate where
  size : Nat
  fields : Finset Nat
  offset : Nat → Nat
  fieldSize : Nat → Nat
  positive : ∀ f ∈ fields, 0 < fieldSize f
  inside : ∀ f ∈ fields, offset f + fieldSize f ≤ size
  apart : ∀ f ∈ fields, ∀ g ∈ fields, f ≠ g →
    offset f + fieldSize f ≤ offset g ∨ offset g + fieldSize g ≤ offset f

/-- A byte of a region, counted from its start; it may be outside. -/
abbrev RealPlace := Nat × Int

/-- A field pointer of a tracked region, with what the program means by it. -/
structure FieldUse where
  region : Nat
  field : Nat
  size : Nat
  synthetic : Nat
  regionSize : Expr
  base : Option RealPlace
  agg : Aggregate

/-- An access through a field pointer, and whether it is proved in bounds. -/
structure FieldAccess where
  field : FieldUse
  proved : Bool

structure FieldRun where
  state : PathState
  table : FieldTable
  ex : Explorer
  cache : UnwrittenReads
  /-- Where a register really points. -/
  real : RegId → Option RealPlace
  /-- The field pointer that a register holds. -/
  holds : RegId → Option FieldUse
  uses : List FieldUse
  accesses : List FieldAccess

/-- The steps, with the aggregate that is seen at the base of a field access, and what a load finds. -/
inductive FieldStep where
  | ptrOffset (dst : RegId) (base index : Operand) (elem : Ty)
  | fieldPtr (dst : RegId) (base : Operand) (field size align : Nat) (agg : Aggregate)
  | load (dst : RegId) (ty : Ty) (ptr : Operand) (found : Option RealPlace)
  | store (ty : Ty) (ptr value : Operand)

namespace FieldRun

def realOf (r : FieldRun) : Operand → Option RealPlace
  | .reg x => r.real x
  | .const (.symbol name) => (r.ex.globalRids name).map fun g => (g.1, 0)
  | .const (.symbolOffset name off) => (r.ex.globalRids name).map fun g => (g.1, off)
  | _ => none

def heldBy (r : FieldRun) : Operand → Option FieldUse
  | .reg x => r.holds x
  | _ => none

/-- What an access through `ptr` adds. -/
def access (pr : Prover) (r : FieldRun) (ptr : Operand) (p : SymPointer) (asize : Nat) : List FieldAccess :=
  match r.heldBy ptr with
  | some u => r.accesses ++ [⟨u, accessProved pr p asize r.state⟩]
  | none => r.accesses

/-- The field pointer that a `FieldPtr` makes, when its base is of a tracked region. -/
def madeBy (r : FieldRun) (base : Operand) (field size : Nat) (agg : Aggregate) : Option FieldUse :=
  match (evalPointer base r.state r.ex).1.prov with
  | .region rid => (r.state.regions[rid]?).map fun reg =>
    { region := rid
      field := field
      size := size
      synthetic := (fieldOffset rid field size r.table).1
      regionSize := reg.size
      base := r.realOf base
      agg := agg }
  | _ => none

/-- One step, under the valuation of the execution. -/
def step (pr : Prover) (ρ : Valuation) (r : FieldRun) : FieldStep → FieldRun
  | .ptrOffset dst base index elem =>
    let moved := stepPtrOffset dst base index elem r.state r.ex
    let i := (evalScalar index r.state (evalPointer base r.state r.ex).2).1
    let delta := (BitVec.ofNat 64 ((i.mkZext ptrWidth).eval ρ)).toInt * max ((elem.strideBytes .lp64).getD 1) 1
    { r with
      state := moved.1
      ex := moved.2
      real := Function.update r.real dst ((r.realOf base).map fun l => (l.1, l.2 + delta))
      holds := Function.update r.holds dst none }
  | .fieldPtr dst base field size align agg =>
    let made := stepFieldPtr dst base field size align r.state r.table r.ex
    let used := r.madeBy base field size agg
    { r with
      state := made.1.1
      table := made.1.2
      ex := made.2
      real := Function.update r.real dst ((r.realOf base).map fun l => (l.1, l.2 + agg.offset field))
      holds := Function.update r.holds dst used
      uses := r.uses ++ used.toList }
  | .load dst ty ptr found =>
    let p := evalPointer ptr r.state r.ex
    let asize := (ty.sizeBytes .lp64).getD 1
    let v := loadValue pr p.1 asize ty r.state r.cache p.2
    { r with
      state := { r.state.setReg dst v.1.1 with exact := r.state.exact && decide (v.1.2.1 = .stored) }
      ex := v.2
      cache := v.1.2.2
      real := Function.update r.real dst found
      holds := Function.update r.holds dst none
      accesses := r.access pr ptr p.1 asize }
  | .store ty ptr value =>
    let p := evalPointer ptr r.state r.ex
    let asize := (ty.sizeBytes .lp64).getD 1
    let v := evalValue value r.state p.2
    { r with
      state := { r.state with heap := r.state.heap ++ [⟨p.1, v.1, asize⟩] }
      ex := v.2
      accesses := r.access pr ptr p.1 asize }

def run (pr : Prover) (ρ : Valuation) (steps : List FieldStep) (r : FieldRun) : FieldRun :=
  steps.foldl (step pr ρ) r

def start (state : PathState) (ex : Explorer) (cache : UnwrittenReads) (real : RegId → Option RealPlace) :
    FieldRun where
  state := state
  table := .empty
  ex := ex
  cache := cache
  real := real
  holds := fun _ => none
  uses := []
  accesses := []

end FieldRun

/-! ## Field pointers of regions that hold one aggregate

The table knows a region and a field number, and nothing of the base. If every field access into a region
has its base at one aggregate of the region, always the same, then the synthetic fields are as disjoint as the
real ones and together no longer than the aggregate (`FieldRun.run_faithful`).
-/

/-! ## What is claimed of a run -/

/-- Two byte ranges, by start and length, have a byte in common. -/
def RangesMeet (a : Int) (n : Nat) (b : Int) (k : Nat) : Prop := ∃ x, a ≤ x ∧ x < a + n ∧ b ≤ x ∧ x < b + k

/-- The value of a size, as the bounds checks read it. -/
def sizeValue (ρ : Valuation) (size : Expr) : Int := (BitVec.ofNat 64 (size.eval ρ)).toInt

namespace FieldUse

def realStart (u : FieldUse) : Option RealPlace := u.base.map fun l => (l.1, l.2 + u.agg.offset u.field)

def RealOverlap (u v : FieldUse) : Prop :=
  ∃ p q, u.realStart = some p ∧ v.realStart = some q ∧ p.1 = q.1 ∧
    RangesMeet p.2 (u.agg.fieldSize u.field) q.2 (v.agg.fieldSize v.field)

/-- The base designates a whole aggregate inside the region. -/
def Whole (ρ : Valuation) (u : FieldUse) : Prop :=
  ∃ b, u.base = some (u.region, b) ∧ 0 ≤ b ∧ b + u.agg.size ≤ sizeValue ρ u.regionSize

def fact (u : FieldUse) : Expr := fieldFact u.synthetic u.size u.regionSize

end FieldUse

/-- Synthetic ranges overlap as the fields do, the facts are true, and what is proved in bounds has a base that
designates a whole aggregate. -/
structure FieldRun.Faithful (ρ : Valuation) (r : FieldRun) : Prop where
  overlap : ∀ u ∈ r.uses, ∀ v ∈ r.uses, u.region = v.region →
    (RangesMeet u.synthetic u.size v.synthetic v.size ↔ u.RealOverlap v)
  facts : ∀ u ∈ r.uses, u.Whole ρ → u.fact.Holds ρ
  proved : ∀ a ∈ r.accesses, a.proved = true → a.field.Whole ρ

/-! ## The fields of an aggregate -/

namespace Aggregate

theorem sum_le (a : Aggregate) {seen : List Nat} (hnd : seen.Nodup) (hmem : ∀ f ∈ seen, f ∈ a.fields) :
    (seen.map a.fieldSize).sum ≤ a.size := by
  have hdisj : (seen.toFinset : Set Nat).PairwiseDisjoint
      fun f => Finset.Ico (a.offset f) (a.offset f + a.fieldSize f) := by
    intro f hf g hg hne
    refine Finset.disjoint_left.mpr fun x hx hx' => ?_
    have hf' := hmem f (List.mem_toFinset.mp hf)
    have hg' := hmem g (List.mem_toFinset.mp hg)
    have hx := Finset.mem_Ico.mp hx
    have hx' := Finset.mem_Ico.mp hx'
    rcases a.apart f hf' g hg' hne with h | h
    · omega
    · omega
  have hsub : seen.toFinset.biUnion (fun f => Finset.Ico (a.offset f) (a.offset f + a.fieldSize f)) ⊆
      Finset.range a.size := by
    intro x hx
    obtain ⟨f, hf, hx⟩ := Finset.mem_biUnion.mp hx
    have hin := a.inside f (hmem f (List.mem_toFinset.mp hf))
    have hx := Finset.mem_Ico.mp hx
    exact Finset.mem_range.mpr (hx.2.trans_le hin)
  have hcard := Finset.card_le_card hsub
  rw [Finset.card_biUnion hdisj, Finset.card_range] at hcard
  simp only [Nat.card_Ico, Nat.add_sub_cancel_left] at hcard
  rwa [List.sum_toFinset _ hnd] at hcard

end Aggregate

/-! ## The table of one region -/

/-- The fields met so far, one after the other from the start of the region. -/
structure FieldTable.Holds (t : FieldTable) (a : Aggregate) (rid : Nat) (seen : List Nat) : Prop where
  nodup : seen.Nodup
  mem : ∀ f ∈ seen, f ∈ a.fields
  frontier : t.frontier rid = (seen.map a.fieldSize).sum
  known : ∀ f o, t.offsets (rid, f) = some o → f ∈ seen ∧ o + a.fieldSize f ≤ t.frontier rid
  fresh : ∀ f, t.offsets (rid, f) = none → f ∉ seen
  apart : ∀ f g o p, f ≠ g → t.offsets (rid, f) = some o → t.offsets (rid, g) = some p →
    o + a.fieldSize f ≤ p ∨ p + a.fieldSize g ≤ o

theorem FieldTable.holds_empty (a : Aggregate) (rid : Nat) : FieldTable.empty.Holds a rid [] where
  nodup := .nil
  mem := fun _ h => nomatch h
  frontier := rfl
  known := fun _ _ h => nomatch h
  fresh := fun _ _ h => nomatch h
  apart := fun _ _ _ _ _ h => nomatch h

theorem FieldTable.Holds.le_size {t : FieldTable} {a : Aggregate} {rid : Nat} {seen : List Nat}
    (h : t.Holds a rid seen) {f o : Nat} (ho : t.offsets (rid, f) = some o) : o + a.fieldSize f ≤ a.size :=
  (h.known f o ho).2.trans (h.frontier.trans_le (a.sum_le h.nodup h.mem))

section

variable {t : FieldTable} {rid field size : Nat}

theorem FieldTable.add_offsets_self : (t.add rid field size).offsets (rid, field) = some (t.frontier rid) :=
  Function.update_self ..

theorem FieldTable.add_offsets_ne {k : Nat × Nat} (hk : k ≠ (rid, field)) :
    (t.add rid field size).offsets k = t.offsets k := Function.update_of_ne hk _ _

theorem FieldTable.add_frontier_self :
    (t.add rid field size).frontier rid = (t.frontier rid + max size 1) % 2 ^ 64 := Function.update_self ..

theorem FieldTable.add_frontier_ne {rid' : Nat} (h : rid' ≠ rid) :
    (t.add rid field size).frontier rid' = t.frontier rid' := Function.update_of_ne h _ _

theorem fieldOffset_keeps {k : Nat × Nat} {o : Nat} (h : t.offsets k = some o) :
    (fieldOffset rid field size t).2.offsets k = some o := by
  rw [fieldOffset]
  split
  · exact h
  · rename_i hnone
    have hk : k ≠ (rid, field) := by
      rintro rfl
      rw [hnone] at h
      cases h
    rw [FieldTable.add_offsets_ne hk, h]

theorem fieldOffset_known (t : FieldTable) (rid field size : Nat) :
    (fieldOffset rid field size t).2.offsets (rid, field) = some (fieldOffset rid field size t).1 := by
  rw [fieldOffset]
  split
  · assumption
  · exact FieldTable.add_offsets_self

theorem FieldTable.Holds.other {a : Aggregate} {rid' : Nat} {seen : List Nat} (h : t.Holds a rid' seen)
    (hne : rid' ≠ rid) : (fieldOffset rid field size t).2.Holds a rid' seen := by
  rw [fieldOffset]
  split
  · exact h
  · have hoff : ∀ f, (t.add rid field size).offsets (rid', f) = t.offsets (rid', f) := fun f =>
      FieldTable.add_offsets_ne fun heq => hne (Prod.mk.inj heq).1
    exact
      { nodup := h.nodup
        mem := h.mem
        frontier := (FieldTable.add_frontier_ne hne).trans h.frontier
        known := fun f o ho => by
          rw [FieldTable.add_frontier_ne hne]
          exact h.known f o ((hoff f).symm.trans ho)
        fresh := fun f hf => h.fresh f ((hoff f).symm.trans hf)
        apart := fun f g o p hfg ho hp =>
          h.apart f g o p hfg ((hoff f).symm.trans ho) ((hoff g).symm.trans hp) }

theorem FieldTable.Holds.place {a : Aggregate} {seen : List Nat} (h : t.Holds a rid seen)
    (hfield : field ∈ a.fields) (hsmall : a.size < 2 ^ 64) :
    ∃ seen', (fieldOffset rid field (a.fieldSize field) t).2.Holds a rid seen' := by
  rw [fieldOffset]
  split
  · exact ⟨seen, h⟩
  · rename_i hnone
    have hnd : (field :: seen).Nodup := List.nodup_cons.mpr ⟨h.fresh field hnone, h.nodup⟩
    have hmem : ∀ f ∈ field :: seen, f ∈ a.fields := by
      intro f hf
      rcases List.mem_cons.mp hf with rfl | hf
      · exact hfield
      · exact h.mem f hf
    have hsum := a.sum_le hnd hmem
    rw [List.map_cons, List.sum_cons, ← h.frontier] at hsum
    have hnext : (t.add rid field (a.fieldSize field)).frontier rid = t.frontier rid + a.fieldSize field := by
      rw [FieldTable.add_frontier_self, max_eq_left (a.positive field hfield)]
      exact Nat.mod_eq_of_lt (by omega)
    have hcases : ∀ f o, (t.add rid field (a.fieldSize field)).offsets (rid, f) = some o →
        f = field ∧ o = t.frontier rid ∨ f ≠ field ∧ t.offsets (rid, f) = some o := by
      intro f o ho
      by_cases hf : f = field
      · subst hf
        rw [FieldTable.add_offsets_self] at ho
        exact .inl ⟨rfl, (Option.some.inj ho).symm⟩
      · rw [FieldTable.add_offsets_ne fun heq => hf (Prod.mk.inj heq).2] at ho
        exact .inr ⟨hf, ho⟩
    refine ⟨field :: seen, ?_⟩
    exact
      { nodup := hnd
        mem := hmem
        frontier := by
          rw [hnext, List.map_cons, List.sum_cons, ← h.frontier, Nat.add_comm]
        known := by
          intro f o ho
          rw [hnext]
          rcases hcases f o ho with ⟨rfl, rfl⟩ | ⟨-, ho⟩
          · exact ⟨List.mem_cons_self, le_rfl⟩
          · exact ⟨List.mem_cons_of_mem _ (h.known f o ho).1, (h.known f o ho).2.trans (Nat.le_add_right _ _)⟩
        fresh := by
          intro f hf hmemf
          rcases List.mem_cons.mp hmemf with rfl | hmemf
          · rw [FieldTable.add_offsets_self] at hf
            cases hf
          · have hne : f ≠ field := fun heq => h.fresh field hnone (heq ▸ hmemf)
            rw [FieldTable.add_offsets_ne fun heq => hne (Prod.mk.inj heq).2] at hf
            exact h.fresh f hf hmemf
        apart := by
          intro f g o p hfg ho hp
          rcases hcases f o ho with ⟨rfl, rfl⟩ | ⟨-, hof⟩ <;> rcases hcases g p hp with ⟨rfl, rfl⟩ | ⟨-, hpg⟩
          · exact absurd rfl hfg
          · exact .inr (h.known g p hpg).2
          · exact .inl (h.known f o hof).2
          · exact h.apart f g o p hfg hof hpg }

end

/-! ## Runs -/

theorem rangesMeet_self {a : Int} {n : Nat} (h : 0 < n) : RangesMeet a n a n :=
  ⟨a, le_rfl, by omega, le_rfl, by omega⟩

theorem not_rangesMeet_of_le {a b : Int} {n k : Nat} (h : a + n ≤ b ∨ b + k ≤ a) : ¬ RangesMeet a n b k := by
  intro ⟨x, h₁, h₂, h₃, h₄⟩
  omega

theorem sizeValue_lt (ρ : Valuation) (e : Expr) : sizeValue ρ e < 2 ^ 63 := by
  have := BitVec.toInt_lt (x := BitVec.ofNat 64 (e.eval ρ))
  rw [sizeValue]
  omega

theorem holds_fieldFact {ρ : Valuation} {off size : Nat} {e : Expr}
    (h : ((off + size : Nat) : Int) ≤ sizeValue ρ e) : (fieldFact off size e).Holds ρ := by
  have hlt := sizeValue_lt ρ e
  have hmod : (off + size) % 2 ^ 64 = off + size := Nat.mod_eq_of_lt (by omega)
  rw [fieldFact, hmod, ExitBound.holds_sle, Expr.eval_int, ptrWidth, hmod, Expr.int, Expr.width.eq_def, ExitBound.toInt_64 (by omega),
    if_pos (by omega)]
  exact h

namespace FieldRun

section

variable (place : Nat → Int) (agg : Nat → Aggregate) (ρ : Valuation)

/-- The condition on a step: a field access into a tracked region has its base at the one aggregate of the
region, which lies inside it, and is of one of its fields, with the size of that field. -/
def UsesWhole (r : FieldRun) : FieldStep → Prop
  | .fieldPtr _ base field size _ a => ∀ rid reg, (evalPointer base r.state r.ex).1.prov = .region rid →
      r.state.regions[rid]? = some reg →
        r.realOf base = some (rid, place rid) ∧ a = agg rid ∧ field ∈ a.fields ∧ size = a.fieldSize field ∧
          0 ≤ place rid ∧ place rid + a.size ≤ sizeValue ρ reg.size
  | _ => True

/-- Every step meets the condition where it is taken. -/
def AllUseWhole (pr : Prover) : List FieldStep → FieldRun → Prop
  | [], _ => True
  | s :: steps, r => r.UsesWhole place agg ρ s ∧ AllUseWhole pr steps (r.step pr ρ s)

/-- What a field pointer is, when all steps meet the condition. -/
structure UseOk (r : FieldRun) (u : FieldUse) : Prop where
  base : u.base = some (u.region, place u.region)
  agg : u.agg = agg u.region
  field : u.field ∈ u.agg.fields
  size : u.size = u.agg.fieldSize u.field
  offset : r.table.offsets (u.region, u.field) = some u.synthetic
  nonneg : 0 ≤ place u.region
  inside : place u.region + u.agg.size ≤ sizeValue ρ u.regionSize

structure Sound (r : FieldRun) : Prop where
  table : ∀ rid, ∃ seen, r.table.Holds (agg rid) rid seen
  uses : ∀ u ∈ r.uses, r.UseOk place agg ρ u
  held : ∀ x u, r.holds x = some u → u ∈ r.uses
  accesses : ∀ a ∈ r.accesses, a.field ∈ r.uses

end

section

variable {place : Nat → Int} {agg : Nat → Aggregate} {ρ : Valuation} {pr : Prover} {r : FieldRun}

theorem UseOk.keeps {r' : FieldRun} {u : FieldUse} (h : r.UseOk place agg ρ u)
    (hkeeps : ∀ k o, r.table.offsets k = some o → r'.table.offsets k = some o) : r'.UseOk place agg ρ u :=
  ⟨h.base, h.agg, h.field, h.size, hkeeps _ _ h.offset, h.nonneg, h.inside⟩

theorem mem_access {ptr : Operand} {p : SymPointer} {asize : Nat} {a : FieldAccess}
    (ha : a ∈ r.access pr ptr p asize) : a ∈ r.accesses ∨ r.heldBy ptr = some a.field := by
  rw [access] at ha
  split at ha
  · rename_i u hu
    rcases List.mem_append.mp ha with ha | ha
    · exact .inl ha
    · obtain rfl := List.mem_singleton.mp ha
      exact .inr hu
  · exact .inl ha

theorem Sound.heldBy (h : r.Sound place agg ρ) {op : Operand} {u : FieldUse} (hu : r.heldBy op = some u) :
    u ∈ r.uses := by
  cases op with
  | reg x => exact h.held x u hu
  | const c => cases hu

theorem Sound.frame {r' : FieldRun} (h : r.Sound place agg ρ) (htable : r'.table = r.table)
    (huses : r'.uses = r.uses) (hheld : ∀ x u, r'.holds x = some u → r.holds x = some u)
    (hacc : ∀ a ∈ r'.accesses, a ∈ r.accesses ∨ ∃ op, r.heldBy op = some a.field) : r'.Sound place agg ρ where
  table := htable ▸ h.table
  uses := by
    intro u hu
    rw [huses] at hu
    refine (h.uses u hu).keeps fun k o ho => ?_
    rw [htable]
    exact ho
  held := by
    intro x u hu
    rw [huses]
    exact h.held x u (hheld x u hu)
  accesses := by
    intro a ha
    rw [huses]
    rcases hacc a ha with ha | ⟨op, hop⟩
    · exact h.accesses a ha
    · exact h.heldBy hop

theorem holds_update_none {holds : RegId → Option FieldUse} {dst x : RegId} {u : FieldUse}
    (h : Function.update holds dst none x = some u) : holds x = some u := by
  by_cases hx : x = dst
  · subst hx
    rw [Function.update_self] at h
    cases h
  · rwa [Function.update_of_ne hx] at h

theorem stepFieldPtr_region (dst : RegId) {base : Operand} (field size align : Nat) {rid : Nat} {state : PathState}
    (t : FieldTable) {ex : Explorer} {reg : SymRegion} (hprov : (evalPointer base state ex).1.prov = .region rid)
    (hreg : state.regions[rid]? = some reg) :
    (stepFieldPtr dst base field size align state t ex).1.2 = (fieldOffset rid field size t).2 ∧
      (stepFieldPtr dst base field size align state t ex).1.1.facts =
        state.facts ++ [fieldFact (fieldOffset rid field size t).1 size reg.size] := by
  simp only [stepFieldPtr, bind, StateT.bind]
  generalize evalPointer base state ex = q at hprov ⊢
  obtain ⟨p, ex'⟩ := q
  simp only at hprov
  simp only [hprov, hreg]
  exact ⟨rfl, rfl⟩

theorem stepFieldPtr_other (dst : RegId) {base : Operand} (field size align : Nat) {state : PathState}
    (t : FieldTable) {ex : Explorer}
    (h : ∀ rid, (evalPointer base state ex).1.prov = .region rid → state.regions[rid]? = none) :
    (stepFieldPtr dst base field size align state t ex).1.2 = t ∧
      (stepFieldPtr dst base field size align state t ex).1.1.facts = state.facts := by
  simp only [stepFieldPtr, bind, StateT.bind]
  generalize evalPointer base state ex = q at h ⊢
  obtain ⟨p, ex'⟩ := q
  cases hprov : p.prov with
  | region rid =>
    simp only [hprov, h rid hprov]
    exact ⟨rfl, rfl⟩
  | null =>
    simp only [hprov]
    exact ⟨rfl, rfl⟩
  | select c x y =>
    simp only [hprov]
    exact ⟨rfl, rfl⟩
  | unknown o i =>
    simp only [hprov]
    exact ⟨rfl, rfl⟩

theorem madeBy_none {base : Operand} {field size : Nat} {a : Aggregate} (h : r.madeBy base field size a = none)
    (rid : Nat) (hprov : (evalPointer base r.state r.ex).1.prov = .region rid) :
    r.state.regions[rid]? = none := by
  simp only [madeBy, hprov] at h
  exact Option.map_eq_none_iff.mp h

theorem madeBy_some {base : Operand} {field size : Nat} {a : Aggregate} {u : FieldUse}
    (h : r.madeBy base field size a = some u) :
    ∃ reg, (evalPointer base r.state r.ex).1.prov = .region u.region ∧ r.state.regions[u.region]? = some reg ∧
      u = { region := u.region, field := field, size := size
            synthetic := (fieldOffset u.region field size r.table).1
            regionSize := reg.size, base := r.realOf base, agg := a } := by
  rw [madeBy] at h
  split at h
  · rename_i rid hprov
    obtain ⟨reg, hreg, rfl⟩ := Option.map_eq_some_iff.mp h
    exact ⟨reg, hprov, hreg, rfl⟩
  · cases h

theorem Sound.fieldPtr (h : r.Sound place agg ρ) {dst : RegId} {base : Operand} {field size align : Nat}
    {a : Aggregate} (hok : r.UsesWhole place agg ρ (.fieldPtr dst base field size align a)) :
    (r.step pr ρ (.fieldPtr dst base field size align a)).Sound place agg ρ := by
  cases hmade : r.madeBy base field size a with
  | none =>
    refine h.frame (stepFieldPtr_other dst field size align r.table (madeBy_none hmade)).1 ?_ (fun x u hu => ?_) fun a ha => .inl ha
    · simp only [step, hmade, Option.toList_none, List.append_nil]
    · simp only [step, hmade] at hu
      exact holds_update_none hu
  | some u =>
    obtain ⟨reg, hprov, hreg, hu⟩ := madeBy_some hmade
    obtain ⟨hreal, rfl, hmem, rfl, hnonneg, hinside⟩ := hok u.region reg hprov hreg
    have htable := (stepFieldPtr_region dst field ((agg u.region).fieldSize field) align r.table hprov hreg).1
    have hlt := sizeValue_lt ρ reg.size
    obtain ⟨seen, hseen⟩ := h.table u.region
    have hstep : (r.step pr ρ (.fieldPtr dst base field ((agg u.region).fieldSize field) align (agg u.region))).table =
        (fieldOffset u.region field ((agg u.region).fieldSize field) r.table).2 := htable
    have hkeeps : ∀ k o, r.table.offsets k = some o →
        (r.step pr ρ (.fieldPtr dst base field ((agg u.region).fieldSize field) align (agg u.region))).table.offsets k =
          some o := by
      intro k o ho
      rw [hstep]
      exact fieldOffset_keeps ho
    have huses : (r.step pr ρ (.fieldPtr dst base field ((agg u.region).fieldSize field) align (agg u.region))).uses =
        r.uses ++ [u] := by
      simp only [step, hmade, Option.toList_some]
    have huok : (r.step pr ρ (.fieldPtr dst base field ((agg u.region).fieldSize field) align (agg u.region))).UseOk
        place agg ρ u := by
      rw [hu]
      exact
        { base := hreal
          agg := rfl
          field := hmem
          size := rfl
          offset := by
            rw [hstep]
            exact fieldOffset_known _ _ _ _
          nonneg := hnonneg
          inside := hinside }
    refine ⟨fun rid => ?_, fun v hv => ?_, fun x v hv => ?_, fun b hb => ?_⟩
    · rw [hstep]
      by_cases hrid : rid = u.region
      · subst hrid
        exact hseen.place hmem (by omega)
      · obtain ⟨seen', hseen'⟩ := h.table rid
        exact ⟨seen', hseen'.other hrid⟩
    · rw [huses] at hv
      rcases List.mem_append.mp hv with hv | hv
      · exact (h.uses v hv).keeps hkeeps
      · exact List.mem_singleton.mp hv ▸ huok
    · rw [huses]
      simp only [step, hmade] at hv
      by_cases hx : x = dst
      · subst hx
        rw [Function.update_self] at hv
        exact List.mem_append_right _ (List.mem_singleton.mpr (Option.some.inj hv).symm)
      · rw [Function.update_of_ne hx] at hv
        exact List.mem_append_left _ (h.held x v hv)
    · rw [huses]
      exact List.mem_append_left _ (h.accesses b hb)

theorem Sound.step (h : r.Sound place agg ρ) (s : FieldStep) (hok : r.UsesWhole place agg ρ s) :
    (r.step pr ρ s).Sound place agg ρ := by
  cases s with
  | ptrOffset dst base index elem =>
    exact h.frame rfl rfl (fun x u hu => holds_update_none hu) fun a ha => .inl ha
  | fieldPtr dst base field size align a => exact h.fieldPtr hok
  | load dst ty ptr found =>
    refine h.frame rfl rfl (fun x u hu => holds_update_none hu) fun a ha => ?_
    exact (mem_access ha).imp id fun hop => ⟨ptr, hop⟩
  | store ty ptr value =>
    refine h.frame rfl rfl (fun x u hu => hu) fun a ha => ?_
    exact (mem_access ha).imp id fun hop => ⟨ptr, hop⟩

theorem Sound.run (h : r.Sound place agg ρ) (steps : List FieldStep)
    (hok : AllUseWhole place agg ρ pr steps r) : (r.run pr ρ steps).Sound place agg ρ := by
  induction steps generalizing r with
  | nil => exact h
  | cons s steps ih => exact ih (h.step s hok.1) hok.2

theorem sound_start (state : PathState) (ex : Explorer) (cache : UnwrittenReads)
    (real : RegId → Option RealPlace) : (start state ex cache real).Sound place agg ρ where
  table := fun rid => ⟨[], FieldTable.holds_empty (agg rid) rid⟩
  uses := fun _ h => nomatch h
  held := fun _ _ h => nomatch h
  accesses := fun _ h => nomatch h

/-! ## Faithful runs -/

theorem UseOk.whole {u : FieldUse} (h : r.UseOk place agg ρ u) : u.Whole ρ :=
  ⟨place u.region, h.base, h.nonneg, h.inside⟩

theorem UseOk.realStart {u : FieldUse} (h : r.UseOk place agg ρ u) :
    u.realStart = some (u.region, place u.region + u.agg.offset u.field) := by
  rw [FieldUse.realStart, h.base, Option.map_some]

theorem UseOk.realOverlap_iff {u v : FieldUse} (hu : r.UseOk place agg ρ u) (hv : r.UseOk place agg ρ v)
    (hregion : u.region = v.region) : u.RealOverlap v ↔
      RangesMeet (place u.region + u.agg.offset u.field) (u.agg.fieldSize u.field)
        (place u.region + v.agg.offset v.field) (v.agg.fieldSize v.field) := by
  have hplace : v.realStart = some (v.region, place u.region + v.agg.offset v.field) := by
    rw [hv.realStart, hregion]
  constructor
  · intro ⟨p, q, hp, hq, _, hmeets⟩
    rw [hu.realStart] at hp
    rw [hplace] at hq
    cases hp
    cases hq
    exact hmeets
  · intro hmeets
    exact ⟨_, _, hu.realStart, hplace, hregion, hmeets⟩

/-- The same field has one synthetic range, and different fields have disjoint ones, as in the aggregate. -/
theorem Sound.overlap_iff (h : r.Sound place agg ρ) {u v : FieldUse} (hu : u ∈ r.uses) (hv : v ∈ r.uses)
    (hregion : u.region = v.region) :
    RangesMeet u.synthetic u.size v.synthetic v.size ↔ u.RealOverlap v := by
  have hu := h.uses u hu
  have hv := h.uses v hv
  rw [hu.realOverlap_iff hv hregion, hu.size, hv.size]
  have hagg : v.agg = u.agg := by rw [hu.agg, hv.agg, hregion]
  have hfv : v.field ∈ u.agg.fields := hagg ▸ hv.field
  have hov := hv.offset
  rw [← hregion] at hov
  rw [hagg]
  by_cases hfield : u.field = v.field
  · have hsame : u.synthetic = v.synthetic := by
      have hou := hu.offset
      rw [hfield, hov] at hou
      exact (Option.some.inj hou).symm
    rw [hfield, hsame]
    have hpos := u.agg.positive v.field hfv
    exact iff_of_true (rangesMeet_self hpos) (rangesMeet_self hpos)
  · obtain ⟨seen, hseen⟩ := h.table u.region
    have hsyn := hseen.apart u.field v.field _ _ hfield hu.offset hov
    rw [← hu.agg] at hsyn
    have hreal := u.agg.apart u.field hu.field v.field hfv hfield
    refine iff_of_false (not_rangesMeet_of_le ?_) (not_rangesMeet_of_le ?_)
    · exact_mod_cast hsyn
    · omega

theorem Sound.fact_holds (h : r.Sound place agg ρ) {u : FieldUse} (hu : u ∈ r.uses) : u.fact.Holds ρ := by
  have hok := h.uses u hu
  obtain ⟨seen, hseen⟩ := h.table u.region
  have hle := hseen.le_size hok.offset
  rw [← hok.agg, ← hok.size] at hle
  have hinside := hok.inside
  have hnonneg := hok.nonneg
  exact holds_fieldFact (by omega)

theorem Sound.faithful (h : r.Sound place agg ρ) : r.Faithful ρ where
  overlap := fun _ hu _ hv hregion => h.overlap_iff hu hv hregion
  facts := fun _ hu _ => h.fact_holds hu
  proved := fun a ha _ => (h.uses a.field (h.accesses a ha)).whole

/-! ## The facts of a run are those of its field pointers -/

/-- The facts are those of the start and one for each field pointer. -/
def FactsOf (facts : List Expr) (r : FieldRun) : Prop := r.state.facts = facts ++ r.uses.map FieldUse.fact

theorem FactsOf.step {facts : List Expr} (h : r.FactsOf facts) (s : FieldStep) :
    (r.step pr ρ s).FactsOf facts := by
  cases s with
  | ptrOffset dst base index elem => exact h
  | fieldPtr dst base field size align a =>
    cases hmade : r.madeBy base field size a with
    | none =>
      have hfacts := (stepFieldPtr_other dst field size align r.table (madeBy_none hmade)).2
      simp only [FactsOf, FieldRun.step, hmade, Option.toList_none, List.append_nil]
      exact hfacts.trans h
    | some u =>
      obtain ⟨reg, hprov, hreg, hu⟩ := madeBy_some hmade
      have hfacts := (stepFieldPtr_region dst field size align r.table hprov hreg).2
      have hfact : u.fact = fieldFact (fieldOffset u.region field size r.table).1 size reg.size := by
        rw [hu, FieldUse.fact]
      simp only [FactsOf, FieldRun.step, hmade, Option.toList_some, List.map_append, List.map_cons, List.map_nil]
      rw [hfacts, ← hfact, h, List.append_assoc]
  | load dst ty ptr found => exact h
  | store ty ptr value => exact h

theorem FactsOf.run {facts : List Expr} (h : r.FactsOf facts) (steps : List FieldStep) :
    (r.run pr ρ steps).FactsOf facts := by
  induction steps generalizing r with
  | nil => exact h
  | cons s steps ih => exact ih (h.step s)

/-- A run whose field accesses all see the one aggregate of their region is faithful, and its facts are those of
its field pointers. -/
theorem run_faithful (pr : Prover) (ρ : Valuation) (place : Nat → Int) (agg : Nat → Aggregate) (state : PathState)
    (ex : Explorer) (cache : UnwrittenReads) (real : RegId → Option RealPlace) (steps : List FieldStep)
    (h : AllUseWhole place agg ρ pr steps (start state ex cache real)) :
    ((start state ex cache real).run pr ρ steps).Faithful ρ ∧
      ((start state ex cache real).run pr ρ steps).state.facts =
        state.facts ++ ((start state ex cache real).run pr ρ steps).uses.map FieldUse.fact := by
  have hstart : (start state ex cache real).FactsOf state.facts := (List.append_nil _).symm
  exact ⟨((sound_start state ex cache real).run steps h).faithful, hstart.run steps⟩

def pairOf64 : Aggregate where
  size := 16
  fields := {0, 1}
  offset := fun f => 8 * f
  fieldSize := fun _ => 8
  positive := by decide
  inside := by decide
  apart := by decide

def boxOf64 : Aggregate where
  size := 8
  fields := {0}
  offset := fun _ => 0
  fieldSize := fun _ => 8
  positive := by decide
  inside := by decide
  apart := by decide

/-- A region of sixteen bytes, and a pointer to its start. -/
def sixteenBytes : PathState where
  env := fun x => if x = 0 then some (.ptr (.mk (.region 0) (.int ptrWidth 0) 8 none)) else none
  regions := [.plain .heap (.int ptrWidth 16)]
  pathcond := []
  facts := []
  heap := []
  exact := true

/-- The two fields of a pair, and a load from the second one. -/
theorem run_faithful_pair :
    ((start sixteenBytes .initial (fun _ => none) fun _ => some (0, 0)).run assumptionProver (fun _ _ => 0)
      [.fieldPtr 1 (.reg 0) 0 8 8 pairOf64, .fieldPtr 2 (.reg 0) 1 8 8 pairOf64,
        .load 3 (.int 64) (.reg 2) none]).Faithful fun _ _ => 0 := by
  refine (run_faithful assumptionProver (fun _ _ => 0) (fun _ => 0) (fun _ => pairOf64) sixteenBytes .initial
    (fun _ => none) (fun _ => some (0, 0)) [.fieldPtr 1 (.reg 0) 0 8 8 pairOf64,
      .fieldPtr 2 (.reg 0) 1 8 8 pairOf64, .load 3 (.int 64) (.reg 2) none] ⟨?_, ?_, trivial, trivial⟩).1
  · intro rid reg hprov hreg
    cases hprov
    cases hreg
    exact ⟨rfl, rfl, by decide, rfl, le_rfl, by decide⟩
  · intro rid reg hprov hreg
    cases hprov
    cases hreg
    exact ⟨rfl, rfl, by decide, rfl, le_rfl, by decide⟩

/-- The first field of two elements of an array: one synthetic range. -/
theorem run_unfaithful_array : ¬ ∀ (pr : Prover) (ρ : Valuation) (state : PathState) (ex : Explorer)
    (cache : UnwrittenReads) (real : RegId → Option RealPlace) (steps : List FieldStep),
      ((start state ex cache real).run pr ρ steps).Faithful ρ := by
  intro h
  have hbad := (h assumptionProver (fun _ _ => 0) sixteenBytes .initial (fun _ => none)
    (fun x => if x = 0 then some (0, 0) else none)
    [.fieldPtr 1 (.reg 0) 0 8 8 boxOf64, .ptrOffset 2 (.reg 0) (.const (.int ⟨64, 1, BitVector.pos64, BitVector.le64, BitVector.one_lt64⟩)) (.int 64),
      .fieldPtr 3 (.reg 2) 0 8 8 boxOf64]).overlap
  have hmem : ∀ b : Int, b = 0 ∨ b = 8 →
      (⟨0, 0, 8, 0, .int ptrWidth 16, some (0, b), boxOf64⟩ : FieldUse) ∈
        ((start sixteenBytes .initial (fun _ => none) fun x => if x = 0 then some (0, 0) else none).run
          assumptionProver (fun _ _ => 0)
          [.fieldPtr 1 (.reg 0) 0 8 8 boxOf64, .ptrOffset 2 (.reg 0) (.const (.int ⟨64, 1, BitVector.pos64, BitVector.le64, BitVector.one_lt64⟩)) (.int 64),
            .fieldPtr 3 (.reg 2) 0 8 8 boxOf64]).uses := by
    intro b hb
    rcases hb with rfl | rfl
    · exact List.mem_cons_self
    · exact List.mem_cons_of_mem _ List.mem_cons_self
  obtain ⟨p, q, hp, hq, -, hmeets⟩ :=
    (hbad _ (hmem 0 (.inl rfl)) _ (hmem 8 (.inr rfl)) rfl).mp (rangesMeet_self (by decide))
  cases hp
  cases hq
  exact not_rangesMeet_of_le (.inl le_rfl) hmeets

end

end FieldRun

end Csolver
