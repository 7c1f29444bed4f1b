import Csolver.Absint.Verdicts
import Csolver.Ir.Link

/-!
# Ranges of integer parameters (`crates/verifier/src/contracts/scalars.rs`, `site.rs`)

A function whose call sites are all known gets, for each integer parameter, the union of the intervals
that its callers have for the argument on entry to the block of the call. The executor then assumes
the two bounds of the union, as constants of the parameter's width.

The analysis of each function, `iv`, is a parameter here.
-/

namespace Csolver

open Lib Intervals

namespace Scalars

structure Range where
  lo : Int
  hi : Int
  deriving DecidableEq

def entryInterval (f : Func) (sol : Engine.Solution IntervalState) (block : BlockId) (r : RegId) :
    Interval :=
  match f.indexOf block with
  | some n => (sol.inStates n).get r
  | none => .top

def argInterval (f : Func) (sol : Engine.Solution IntervalState) (block : BlockId) :
    Operand → Option Range
  | .const (.int bv) => some ⟨bv.signed, bv.signed⟩
  | .reg r =>
    match entryInterval f sol block r with
    | .range (.fin lo) (.fin hi) => if lo.val ≤ hi.val then some ⟨lo.val, hi.val⟩ else none
    | _ => none
  | _ => none

/-- The operands that `address_taken_names` looks at: not the callee of a call through a pointer. -/
def valueOperands : Inst → List Operand
  | .call _ _ args => args
  | i => i.operands

def addressTakenNames (M : Module) : List String :=
  M.functions.flatMap fun f => f.2.blocks.flatMap fun b =>
    (b.insts.flatMap valueOperands ++ b.term.operands).filterMap Operand.symbolName

def function (M : Module) (id : FuncId) : Option Func := (M.functions.find? fun f => f.1 = id).map Prod.snd

/-- The pairs that are put into `candidates`. -/
def isCandidate (M : Module) (closedWorld : Bool) (k : FuncId × Nat) : Bool :=
  M.functions.any fun f => decide (f.1 = k.1) && (closedWorld || decide (f.1 ∈ M.internal)) &&
    !(addressTakenNames M).contains f.2.name &&
    match f.2.params[k.2]? with
    | some (_, .int _) => true
    | _ => false

variable (M : Module) (closedWorld : Bool) (iv : FuncId → Engine.Solution IntervalState)

/-- The register with the access size, if the function is a dispatch handler. -/
def mmioSizeReg (caller : Func) : Option RegId :=
  (M.mmioHandlers.lookup caller.name).bind fun h => caller.params[h.sizeParam]?.map Prod.fst

/-- What a call site contributes for one argument. -/
def siteRange (caller : FuncId × Func) (block : BlockId) (arg : Operand) : Option Range :=
  match arg with
  | .reg r => if some r = mmioSizeReg M caller.2 then some ⟨1, 8⟩
    else argInterval caller.2 (iv caller.1) block (.reg r)
  | arg => argInterval caller.2 (iv caller.1) block arg

/-- The loop over the arguments of a call: parameters with their contribution, in order. -/
def siteEvents (caller : FuncId × Func) (block : BlockId) : Inst → List ((FuncId × Nat) × Option Range)
  | .call _ (.direct g) args =>
    match function M g with
    | none => []
    | some callee =>
      if args.length ≠ callee.params.length then
        (List.range callee.params.length).filterMap fun i =>
          if isCandidate M closedWorld (g, i) then some ((g, i), none) else none
      else
        args.zipIdx.filterMap fun a =>
          if isCandidate M closedWorld (g, a.2) then some ((g, a.2), siteRange M iv caller block a.1)
          else none
  | _ => []

def events : List ((FuncId × Nat) × Option Range) :=
  M.functions.flatMap fun caller => caller.2.blocks.flatMap fun b =>
    b.insts.flatMap (siteEvents M closedWorld iv caller b.id)

/-- `or_insert` and the union: once a site is unbounded, the parameter is. -/
def joinRange : Option (Option Range) → Option Range → Option Range
  | none, s => s
  | some (some a), some b => some ⟨min a.lo b.lo, max a.hi b.hi⟩
  | some _, _ => none

def folded : Table (FuncId × Nat) (Option Range) :=
  (events M closedWorld iv).foldl (fun acc e => acc.insert e.1 (joinRange (acc.lookup e.1) e.2)) ∅

/-- `synthesize_scalars`, for one parameter. -/
def synthesizeScalars (k : FuncId × Nat) : Option Range :=
  match (folded M closedWorld iv).lookup k with
  | some (some r) => if -2 ^ 63 < r.lo ∨ r.hi < 2 ^ 63 - 1 then some r else none
  | _ => none

/-- A bound as a constant of width `w`. -/
def mask (w : Nat) (v : Int) : Nat := (v % 2 ^ w).toNat

/-- The two facts that `discharge_inner` assumes of a parameter of width `w`. -/
def RangeFacts (w : Nat) (r : Range) (x : Nat) : Prop :=
  CmpOp.sle.eval w (mask w r.lo) x = true ∧ CmpOp.sle.eval w x (mask w r.hi) = true

instance (w : Nat) (r : Range) (x : Nat) : Decidable (RangeFacts w r x) :=
  inferInstanceAs (Decidable (_ ∧ _))

/-! ## Calls -/

variable (widths : FuncId → RegId → Nat) (address : FuncId → Nat)

/-- The function that a call enters. -/
inductive Enters (regs : Regs) : Callee → FuncId → Prop
  | direct (id : FuncId) : Enters regs (.direct id) id
  | symbol {g : FuncId × Func} : g ∈ M.functions → Enters regs (.symbol g.2.name) g.1
  | indirect {op : Operand} {g : FuncId × Func} : g ∈ M.functions → op.Evals regs (address g.1) →
      Enters regs (.indirect op) g.1

/-- The point is before a call of `g` with the arguments `ops`, whose values are `vals`. -/
structure CallAt (p : Point) (c : Callee) (ops : List Operand) (g : FuncId) (vals : List Nat) : Prop where
  next : ∃ dst rest, p.rest = .call dst c ops :: rest
  enters : Enters M address p.regs c g
  values : List.Forall₂ (Operand.Evals p.regs) ops vals

/-- The facts hold of the arguments of a call of `g`. -/
def FactsHold (g : FuncId) (vals : List Nat) : Prop :=
  ∀ i r, synthesizeScalars M closedWorld iv (g, i) = some r → ∀ callee q, function M g = some callee →
    callee.params[i]? = some q → q.2.typeWidth ≤ 128 → ∀ x, vals[i]? = some x →
    RangeFacts q.2.typeWidth r x

/-- **The claim on parameter ranges**: whatever a function of the module is called with, the calls that
    its execution reaches pass arguments within the ranges. -/
def ScalarsHold : Prop :=
  ∀ caller ∈ M.functions, ∀ args p, caller.2.Reaches (widths caller.1) args p →
    ∀ c ops g vals, CallAt M address p c ops g vals → FactsHold M closedWorld iv g vals

/-- A range whose bounds are numbers of width `w`. -/
def Fits (w : Nat) (r : Range) : Prop := -2 ^ w ≤ 2 * r.lo ∧ 2 * r.hi < 2 ^ w

instance (w : Nat) (r : Range) : Decidable (Fits w r) := inferInstanceAs (Decidable (_ ∧ _))

/-- What a call asks of the point before it: that a function with known call sites is called by its id,
    that a handler passes on an access size that the dispatch gives, and that the callers' intervals
    are within the width of the parameter. -/
structure CallOk (Γ : RegId → Nat) (caller : Func) (p : Point) (c : Callee) (ops : List Operand)
    (g : FuncId) : Prop where
  direct : ∀ i, isCandidate M closedWorld (g, i) = true → c = .direct g
  size : ∀ r ∈ mmioSizeReg M caller, .reg r ∈ ops → ∀ x, p.regs r = some x →
    1 ≤ (BitVec.ofNat (Γ r) x).toInt ∧ (BitVec.ofNat (Γ r) x).toInt ≤ 8
  fits : ∀ e ∈ events M closedWorld iv, e.1.1 = g → ∀ callee q, function M g = some callee →
    callee.params[e.1.2]? = some q → ∀ r, e.2 = some r → Fits q.2.typeWidth r

/-- What the module promises: strict SSA, in which also the registers that are not assigned are written
    in one block, and arguments of the parameters' widths. -/
structure WellFormed : Prop where
  wf : ∀ f ∈ M.functions, f.2.WellFormed
  ssa : ∀ f ∈ M.functions, f.2.StrictSsa
  typed : ∀ f ∈ M.functions, f.2.WellTyped (widths f.1)
  one_block : ∀ f ∈ M.functions, ∀ (n : Nat) b (j : Nat) i r, f.2.blocks[n]? = some b →
    b.insts[j]? = some i → i.definedReg = some r →
    ∀ (m : Nat) c k, f.2.blocks[m]? = some c → c.Writes r k → m = n ∧ k ≠ 0
  args : ∀ f ∈ M.functions, ∀ b ∈ f.2.blocks, ∀ dst g ops, Inst.call dst (.direct g) ops ∈ b.insts →
    ∀ callee, function M g = some callee → ∀ (i : Nat) (op : Operand) (q : RegId × Ty), ops[i]? = some op →
      callee.params[i]? = some q → op.width (widths f.1) = q.2.typeWidth

variable {M closedWorld iv widths address}

/-! ## The folded ranges -/

/-- A range that is kept is the union of what the sites contributed. -/
structure Covers (es : List ((FuncId × Nat) × Option Range)) (k : FuncId × Nat) (r : Range) : Prop where
  bounded : ∀ e ∈ es, e.1 = k → ∃ s, e.2 = some s ∧ r.lo ≤ s.lo ∧ s.hi ≤ r.hi
  lo : ∃ e ∈ es, e.1 = k ∧ ∃ s, e.2 = some s ∧ s.lo = r.lo
  hi : ∃ e ∈ es, e.1 = k ∧ ∃ s, e.2 = some s ∧ s.hi = r.hi

/-- The state of the loop after the events `es`. -/
def FoldedAfter (es : List ((FuncId × Nat) × Option Range)) (acc : Table (FuncId × Nat) (Option Range)) :
    Prop :=
  ∀ k, (acc.lookup k = none → ∀ e ∈ es, e.1 ≠ k) ∧ ∀ r, acc.lookup k = some (some r) → Covers es k r

theorem covers_single {k : FuncId × Nat} {s : Range} {es : List ((FuncId × Nat) × Option Range)}
    (hnone : ∀ e ∈ es, e.1 ≠ k) : Covers (es ++ [(k, some s)]) k s := by
  refine ⟨fun e he hk => ?_, ⟨(k, some s), by simp, rfl, s, rfl, rfl⟩, ⟨(k, some s), by simp, rfl, s, rfl, rfl⟩⟩
  rcases List.mem_append.mp he with he | he
  · exact absurd hk (hnone e he)
  · rw [List.mem_singleton.mp he]
    exact ⟨s, rfl, le_refl _, le_refl _⟩

theorem Covers.snoc {es : List ((FuncId × Nat) × Option Range)} {k : FuncId × Nat} {a s : Range}
    (h : Covers es k a) : Covers (es ++ [(k, some s)]) k ⟨min a.lo s.lo, max a.hi s.hi⟩ := by
  refine ⟨fun e he hk => ?_, ?_, ?_⟩
  · rcases List.mem_append.mp he with he | he
    · obtain ⟨t, ht, hlo, hhi⟩ := h.bounded e he hk
      exact ⟨t, ht, le_trans (min_le_left _ _) hlo, le_trans hhi (le_max_left _ _)⟩
    · rw [List.mem_singleton.mp he]
      exact ⟨s, rfl, min_le_right _ _, le_max_right _ _⟩
  · rcases le_total a.lo s.lo with hle | hle
    · obtain ⟨e, he, hk, t, ht, hlo⟩ := h.lo
      exact ⟨e, List.mem_append_left _ he, hk, t, ht, hlo.trans (min_eq_left hle).symm⟩
    · exact ⟨(k, some s), by simp, rfl, s, rfl, (min_eq_right hle).symm⟩
  · rcases le_total s.hi a.hi with hle | hle
    · obtain ⟨e, he, hk, t, ht, hhi⟩ := h.hi
      exact ⟨e, List.mem_append_left _ he, hk, t, ht, hhi.trans (max_eq_left hle).symm⟩
    · exact ⟨(k, some s), by simp, rfl, s, rfl, (max_eq_right hle).symm⟩

theorem Covers.other {es : List ((FuncId × Nat) × Option Range)} {k : FuncId × Nat} {a : Range}
    (h : Covers es k a) {e : (FuncId × Nat) × Option Range} (he : e.1 ≠ k) : Covers (es ++ [e]) k a := by
  refine ⟨fun e' he' hk => ?_, ?_, ?_⟩
  · rcases List.mem_append.mp he' with he' | he'
    · exact h.bounded e' he' hk
    · rw [List.mem_singleton.mp he'] at hk
      exact absurd hk he
  · obtain ⟨e', he', hrest⟩ := h.lo
    exact ⟨e', List.mem_append_left _ he', hrest⟩
  · obtain ⟨e', he', hrest⟩ := h.hi
    exact ⟨e', List.mem_append_left _ he', hrest⟩

theorem FoldedAfter.snoc {es : List ((FuncId × Nat) × Option Range)}
    {acc : Table (FuncId × Nat) (Option Range)} (h : FoldedAfter es acc) (e : (FuncId × Nat) × Option Range) :
    FoldedAfter (es ++ [e]) (acc.insert e.1 (joinRange (acc.lookup e.1) e.2)) := by
  intro k
  by_cases hk : e.1 = k
  · subst hk
    rw [AList.lookup_insert]
    refine ⟨fun hnone => absurd hnone (by simp), fun r hr => ?_⟩
    have hjoin := Option.some.inj hr
    obtain ⟨k, s⟩ := e
    cases hl : acc.lookup k with
    | none =>
      rw [hl] at hjoin
      obtain rfl : s = some r := hjoin
      exact covers_single ((h k).1 hl)
    | some old =>
      rw [hl] at hjoin
      cases old with
      | none => exact absurd hjoin (by simp [joinRange])
      | some a =>
        cases s with
        | none => exact absurd hjoin (by simp [joinRange])
        | some s =>
          obtain rfl : (⟨min a.lo s.lo, max a.hi s.hi⟩ : Range) = r := Option.some.inj hjoin
          exact ((h k).2 a hl).snoc
  · rw [AList.lookup_insert_ne (Ne.symm hk)]
    refine ⟨fun hnone e' he' => ?_, fun r hr => ((h k).2 r hr).other hk⟩
    rcases List.mem_append.mp he' with he' | he'
    · exact (h k).1 hnone e' he'
    · rw [List.mem_singleton.mp he']
      exact hk

theorem folded_covers {k : FuncId × Nat} {r : Range} (h : synthesizeScalars M closedWorld iv k = some r) :
    Covers (events M closedWorld iv) k r := by
  have hfold (es : List ((FuncId × Nat) × Option Range)) :
      FoldedAfter es (es.foldl (fun acc e => acc.insert e.1 (joinRange (acc.lookup e.1) e.2)) ∅) := by
    induction es using List.reverseRecOn with
    | nil => exact fun k => ⟨fun _ e he => absurd he List.not_mem_nil, fun r hr => absurd hr (by simp)⟩
    | append_singleton es e ih =>
      rw [List.foldl_append]
      exact ih.snoc e
  refine (hfold (events M closedWorld iv) k).2 r ?_
  show (folded M closedWorld iv).lookup k = some (some r)
  rw [synthesizeScalars] at h
  split at h
  · next a ha =>
    split at h
    · rw [ha, Option.some.inj h]
    · exact absurd h (by simp)
  · exact absurd h (by simp)

/-! ## The bounds at a fixed width -/

theorem toInt_mask {w : Nat} {v : Int} (hlo : -2 ^ w ≤ 2 * v) (hhi : 2 * v < 2 ^ w) :
    (BitVec.ofNat w (mask w v)).toInt = v := by
  have hpow : (0 : Int) < 2 ^ w := by positivity
  have hcast : ((mask w v : Nat) : Int) = v % 2 ^ w := Int.toNat_of_nonneg (Int.emod_nonneg _ hpow.ne')
  have hbmod : (v % 2 ^ w).bmod (2 ^ w) = v.bmod (2 ^ w) := by
    exact_mod_cast Int.emod_bmod v (2 ^ w)
  rw [BitVec.toInt_ofNat', hcast, hbmod]
  apply Int.bmod_eq_of_le_mul_two
  · push_cast
    omega
  · push_cast
    omega

theorem sle_iff {w x y : Nat} :
    CmpOp.sle.eval w x y = true ↔ (BitVec.ofNat w x).toInt ≤ (BitVec.ofNat w y).toInt := by
  show BitVec.sle _ _ = true ↔ _
  rw [BitVec.sle_iff_toInt_le]

theorem rangeFacts_of_mem {w x : Nat} {r : Range} (hfits : Fits w r) (hlo : r.lo ≤ (BitVec.ofNat w x).toInt)
    (hhi : (BitVec.ofNat w x).toInt ≤ r.hi) : RangeFacts w r x := by
  have hle : r.lo ≤ r.hi := le_trans hlo hhi
  obtain ⟨hfl, hfh⟩ := hfits
  refine ⟨sle_iff.mpr ?_, sle_iff.mpr ?_⟩
  · rw [toInt_mask hfl (by omega)]
    exact hlo
  · rw [toInt_mask (by omega) hfh]
    exact hhi

theorem toInt_of_reading {w x : Nat} {r : Range} (hfits : Fits w r) (hhi : reading w x ≤ r.hi) :
    (BitVec.ofNat w x).toInt = reading w x := by
  rw [reading] at hhi ⊢
  split
  · next hw =>
    subst hw
    rw [if_pos rfl] at hhi
    have hx : x % 2 = 0 := by
      have hh := hfits.2
      omega
    have hbv : BitVec.ofNat 1 x = 0#1 := by
      apply BitVec.eq_of_toNat_eq
      simpa using hx
    rw [hbv, hx]
    rfl
  · rfl

/-! ## What a call site passes -/

variable {caller : FuncId × Func} {p : Point} {n k : Nat}

/-- The interval on entry to the block describes the register at the call too: a register that the
    block writes before has none. -/
theorem mem_entryInterval (hM : WellFormed M widths) (hcaller : caller ∈ M.functions) {headers : List Nat}
    (hpost : Engine.PostFixpoint (problem caller.2 headers) (iv caller.1)) (hloc : caller.2.Located p n k)
    (hdesc : Described (widths caller.1) ((p.blk.insts.take k).foldl applyInst ((iv caller.1).inStates n)) p.regs)
    {r : RegId} {x : Nat} (hx : p.regs r = some x) :
    Interval.Mem (reading (widths caller.1 r) x) (entryInterval caller.2 (iv caller.1) p.blk.id r) := by
  have hwf := hM.wf caller hcaller
  have hindex : caller.2.indexOf p.blk.id = some n :=
    (@stateAt_eq caller.2 (iv caller.1) hwf p n k hloc k hloc.rest).1
  rw [entryInterval, hindex]
  by_cases hdef : ∃ i ∈ p.blk.insts.take k, i.definedReg = some r
  · obtain ⟨i, hi, hr⟩ := hdef
    obtain ⟨j, hj⟩ := List.mem_iff_getElem?.mp (List.mem_of_mem_take hi)
    have htop := entry_get_top hwf (hM.ssa caller hcaller) hpost hloc.blk hloc.live
      (.inr ⟨j, i, rfl, hj, writes_of_definedReg hr⟩) (hM.one_block caller hcaller n p.blk j i r hloc.blk hj hr)
    simp only [htop]
    exact Interval.mem_top _
  · have hmem := hdesc.mem r x hx
    rw [foldl_applyInst_get fun i hi hr => hdef ⟨i, hi, hr⟩] at hmem
    exact hmem

theorem siteRange_sound (hM : WellFormed M widths) (hcaller : caller ∈ M.functions) {headers : List Nat}
    (hpost : Engine.PostFixpoint (problem caller.2 headers) (iv caller.1)) (hloc : caller.2.Located p n k)
    (hdesc : Described (widths caller.1) ((p.blk.insts.take k).foldl applyInst ((iv caller.1).inStates n)) p.regs)
    {op : Operand} {x : Nat} (hx : op.Evals p.regs x) {w : Nat} (hw : op.width (widths caller.1) = w)
    (hsize : ∀ r ∈ mmioSizeReg M caller.2, op = .reg r →
      1 ≤ (BitVec.ofNat (widths caller.1 r) x).toInt ∧ (BitVec.ofNat (widths caller.1 r) x).toInt ≤ 8)
    {s : Range} (hs : siteRange M iv caller p.blk.id op = some s) (hfits : Fits w s) :
    s.lo ≤ (BitVec.ofNat w x).toInt ∧ (BitVec.ofNat w x).toInt ≤ s.hi := by
  subst hw
  cases op with
  | reg r =>
    rw [siteRange] at hs
    split at hs
    · next hreg =>
      obtain rfl := Option.some.inj hs
      exact hsize r hreg.symm rfl
    · rw [argInterval] at hs
      have hmem := mem_entryInterval hM hcaller hpost hloc hdesc hx
      split at hs
      · next lo hi hrange =>
        split at hs
        · obtain rfl := Option.some.inj hs
          rw [hrange] at hmem
          have htoInt := toInt_of_reading hfits hmem.2
          exact htoInt ▸ hmem
        · exact absurd hs (by simp)
      · exact absurd hs (by simp)
  | const c =>
    cases c with
    | int bv =>
      obtain rfl := Option.some.inj hs
      obtain rfl : x = bv.value := hx
      exact ⟨le_refl _, le_refl _⟩
    | _ => exact absurd hs (by simp [siteRange, argInterval])

/-! ## The site of a call -/

theorem isCandidate_of_mem_events {e : (FuncId × Nat) × Option Range} (he : e ∈ events M closedWorld iv) :
    isCandidate M closedWorld e.1 = true := by
  simp only [events, List.mem_flatMap] at he
  obtain ⟨caller, _, b, _, i, _, hsite⟩ := he
  rw [siteEvents.eq_def] at hsite
  split at hsite
  · split at hsite
    · exact absurd hsite List.not_mem_nil
    · split at hsite
      · obtain ⟨j, _, hj⟩ := List.mem_filterMap.mp hsite
        split at hj
        · next hcand =>
          obtain rfl := Option.some.inj hj
          exact hcand
        · exact absurd hj (by simp)
      · obtain ⟨a, _, ha⟩ := List.mem_filterMap.mp hsite
        split at ha
        · next hcand =>
          obtain rfl := Option.some.inj ha
          exact hcand
        · exact absurd ha (by simp)
  · exact absurd hsite List.not_mem_nil

theorem mem_events_of_site (hcaller : caller ∈ M.functions) {b : BasicBlock} (hb : b ∈ caller.2.blocks)
    {i : Inst} (hi : i ∈ b.insts) {e : (FuncId × Nat) × Option Range}
    (he : e ∈ siteEvents M closedWorld iv caller b.id i) : e ∈ events M closedWorld iv := by
  simp only [events, List.mem_flatMap]
  exact ⟨caller, hcaller, b, hb, i, hi, he⟩

variable {block : BlockId} {dst : Option RegId} {g : FuncId} {ops : List Operand} {callee : Func} {i : Nat}

theorem siteEvents_arity (hcallee : function M g = some callee) (hlen : ops.length ≠ callee.params.length)
    (hi : i < callee.params.length) (hcand : isCandidate M closedWorld (g, i) = true) :
    ((g, i), none) ∈ siteEvents M closedWorld iv caller block (.call dst (.direct g) ops) := by
  simp only [siteEvents, hcallee, if_pos hlen]
  apply List.mem_filterMap.mpr
  exact ⟨i, List.mem_range.mpr hi, by rw [if_pos hcand]⟩

theorem siteEvents_arg (hcallee : function M g = some callee) (hlen : ops.length = callee.params.length)
    {op : Operand} (hop : ops[i]? = some op) (hcand : isCandidate M closedWorld (g, i) = true) :
    ((g, i), siteRange M iv caller block op) ∈
      siteEvents M closedWorld iv caller block (.call dst (.direct g) ops) := by
  simp only [siteEvents, hcallee, if_neg (not_not.mpr hlen)]
  apply List.mem_filterMap.mpr
  exact ⟨(op, i), List.mk_mem_zipIdx_iff_getElem?.mpr hop, by rw [if_pos hcand]⟩

theorem Covers.fits {es : List ((FuncId × Nat) × Option Range)} {k : FuncId × Nat} {r : Range} {w : Nat}
    (h : Covers es k r) (hfits : ∀ e ∈ es, e.1 = k → ∀ s, e.2 = some s → Fits w s) : Fits w r := by
  obtain ⟨e, he, hk, s, hs, hlo⟩ := h.lo
  obtain ⟨e', he', hk', s', hs', hhi⟩ := h.hi
  exact ⟨hlo ▸ (hfits e he hk s hs).1, hhi ▸ (hfits e' he' hk' s' hs').2⟩

def zeroI8 : BitVector := ⟨8, 0, BitVector.pos8, BitVector.le8, BitVector.zero_lt8⟩

/-- The two calls of `sumFn`. -/
def sumCalls : BasicBlock where
  id := 1
  params := []
  insts := [.call none (.direct 1) [.const (.int zeroI8)], .call none (.direct 1) [.reg 1]]
  term := .ret none

/-- `fn() { x = a + 1; goto calls; calls: g(0); g(x); return }` in 8 bits. -/
def sumFn (a : BitVector) : Func where
  name := "sum"
  params := []
  retTy := .unit
  blocks := [⟨0, [], [.assign 1 (.int 8) (.bin .add (.const (.int a)) (.const (.int oneI8)))], .br 1 []⟩,
    sumCalls]
  entry := 0

/-- `fn g(x) { return }`. -/
def takesI8 : Func where
  name := "g"
  params := [(0, .int 8)]
  retTy := .unit
  blocks := [⟨0, [], [], .ret none⟩]
  entry := 0

def sumModule (a : BitVector) : Module where
  functions := [(0, sumFn a), (1, takesI8)]
  layout := .lp64
  paramContracts := ∅
  unanalyzed := []
  internal := {1}
  globals := ∅
  rawPtrHints := ∅
  provGrants := ∅
  globalFnPtrs := ∅
  globalPtrFields := ∅
  regPtrHints := ∅
  fieldPtrEvidence := ∅
  fieldLoadSites := ∅
  mmioHandlers := ∅
  ids_nodup := by simp
  calls_own := by simp [sumFn, sumCalls, takesI8, Func.callees, Inst.callee, Callee.target]
  params_own := fun _ h => absurd h List.not_mem_nil
  raw_own := fun _ h => absurd h List.not_mem_nil
  reg_own := fun _ h => absurd h List.not_mem_nil
  sites_own := fun _ h => absurd h List.not_mem_nil
  ptrs_own := by simp

theorem sumFn_site {a : BitVector} {n : Nat} {b : BasicBlock} (hb : (sumFn a).blocks[n]? = some b)
    {j : Nat} {i : Inst} (hj : b.insts[j]? = some i) :
    (n = 0 ∧ j = 0 ∧ i = .assign 1 (.int 8) (.bin .add (.const (.int a)) (.const (.int oneI8)))) ∨
      n = 1 ∧ i.writes = [] ∧ i.definedReg = none ∧ ∃ ops, i = .call none (.direct 1) ops ∧
        ops.map (Operand.width fun _ => 8) = [8] := by
  rcases n with _ | _ | n
  · obtain rfl := Option.some.inj hb
    obtain ⟨rfl, rfl⟩ : j = 0 ∧ _ = i := by simpa [List.getElem?_singleton] using hj
    exact .inl ⟨rfl, rfl, rfl⟩
  · obtain rfl := Option.some.inj hb
    rcases j with _ | _ | j
    · obtain rfl := Option.some.inj hj
      exact .inr ⟨rfl, rfl, rfl, _, rfl, rfl⟩
    · obtain rfl := Option.some.inj hj
      exact .inr ⟨rfl, rfl, rfl, _, rfl, rfl⟩
    · exact absurd hj (by simp [sumCalls])
  · exact absurd hb (by simp [sumFn])

theorem sumFn_writes {a : BitVector} {m : Nat} {b : BasicBlock} (hb : (sumFn a).blocks[m]? = some b)
    {r : RegId} {k : Nat} (hw : b.Writes r k) : m = 0 ∧ k = 1 := by
  rcases hw with ⟨_, hp⟩ | ⟨j, i, rfl, hj, hr⟩
  · have hparams : b.params = [] := by
      rcases m with _ | _ | m
      · exact Option.some.inj hb ▸ rfl
      · exact Option.some.inj hb ▸ rfl
      · exact absurd hb (by simp [sumFn])
    rw [hparams] at hp
    exact absurd hp List.not_mem_nil
  · rcases sumFn_site hb hj with ⟨rfl, rfl, _⟩ | ⟨_, hwrites, _⟩
    · exact ⟨rfl, rfl⟩
    · rw [hwrites] at hr
      exact absurd hr List.not_mem_nil

theorem sumFn_strictSsa (a : BitVector) : (sumFn a).StrictSsa where
  use := by
    intro n b hb _ j dst ty value hj r hr
    rcases sumFn_site hb hj with ⟨_, _, hi⟩ | ⟨_, _, _, _, hi, _⟩
    · obtain ⟨_, _, rfl⟩ := Inst.assign.inj hi
      simp [RValue.operands] at hr
    · exact Inst.noConfusion hi
  branch := by
    intro n b hb _ r t targs e eargs hterm
    rcases n with _ | _ | n
    · obtain rfl := Option.some.inj hb
      exact Terminator.noConfusion hterm
    · obtain rfl := Option.some.inj hb
      exact Terminator.noConfusion hterm
    · exact absurd hb (by simp [sumFn])
  assign_once := by
    intro n b j dst ty value hb hj m c k hc hw
    obtain ⟨rfl, rfl⟩ := sumFn_writes hc hw
    rcases sumFn_site hb hj with ⟨rfl, rfl, _⟩ | ⟨_, _, _, _, hi, _⟩
    · exact ⟨rfl, rfl⟩
    · exact Inst.noConfusion hi
  asm_once := by
    intro n b j defs hb hj
    rcases sumFn_site hb hj with ⟨_, _, hi⟩ | ⟨_, _, _, _, hi, _⟩
    · exact Inst.noConfusion hi
    · exact Inst.noConfusion hi

theorem sumFn_wellTyped {a : BitVector} (ha : a.width = 8) : (sumFn a).WellTyped fun _ => 8 where
  param := by simp [sumFn]
  assign := by
    intro b hb dst ty value hi
    obtain ⟨n, hn⟩ := List.mem_iff_getElem?.mp hb
    obtain ⟨j, hj⟩ := List.mem_iff_getElem?.mp hi
    rcases sumFn_site hn hj with ⟨_, _, he⟩ | ⟨_, _, _, _, he, _⟩
    · obtain ⟨_, rfl, rfl⟩ := Inst.assign.inj he
      exact ⟨rfl, ha, rfl⟩
    · exact Inst.noConfusion he
  ptrOffset := by simp [sumFn, sumCalls]
  edge := by simp [sumFn, sumCalls, Terminator.edges]
  ret := by simp [sumFn, sumCalls]

theorem takesI8_strictSsa : takesI8.StrictSsa := by
  have hempty {n : Nat} {b : BasicBlock} (hb : takesI8.blocks[n]? = some b) : b = ⟨0, [], [], .ret none⟩ :=
    List.mem_singleton.mp (List.mem_of_getElem? hb)
  refine ⟨?_, ?_, ?_, ?_⟩
  · intro n b hb _ j dst ty value hj
    rw [hempty hb] at hj
    simp at hj
  · intro n b hb _ r t targs e eargs hterm
    rw [hempty hb] at hterm
    simp at hterm
  · intro n b j dst ty value hb hj
    rw [hempty hb] at hj
    simp at hj
  · intro n b j defs hb hj
    rw [hempty hb] at hj
    simp at hj

theorem sumModule_wellFormed {a : BitVector} (ha : a.width = 8) :
    WellFormed (sumModule a) fun _ _ => 8 := by
  have hboth {P : FuncId × Func → Prop} (h0 : P (0, sumFn a)) (h1 : P (1, takesI8)) :
      ∀ f ∈ (sumModule a).functions, P f := by
    intro f hf
    rcases List.mem_pair.mp hf with rfl | rfl
    · exact h0
    · exact h1
  refine ⟨hboth ?_ ?_, hboth (sumFn_strictSsa a) takesI8_strictSsa, hboth (sumFn_wellTyped ha) ?_,
    hboth ?_ ?_, hboth ?_ ?_⟩
  · exact ⟨by simp [sumFn, sumCalls], by simp [sumFn], by simp [sumFn], by simp [sumFn, sumCalls],
      by simp [sumFn, sumCalls]⟩
  · exact ⟨by simp [takesI8], by simp [takesI8], by simp [takesI8], by simp [takesI8], by simp [takesI8]⟩
  · exact ⟨by simp [takesI8, Ty.typeWidth], by simp [takesI8], by simp [takesI8],
      by simp [takesI8, Terminator.edges], by simp [takesI8]⟩
  · intro n b j i r hb hj hr m c k hc hw
    obtain ⟨rfl, rfl⟩ := sumFn_writes hc hw
    rcases sumFn_site hb hj with ⟨rfl, _⟩ | ⟨_, _, hnone, _⟩
    · exact ⟨rfl, Nat.one_ne_zero⟩
    · rw [hnone] at hr
      exact absurd hr (by simp)
  · intro n b j i r hb hj
    rw [List.mem_singleton.mp (List.mem_of_getElem? hb)] at hj
    exact absurd hj (by simp)
  · intro b hb dst g ops hi callee hcallee k op q hop hq
    obtain ⟨n, hn⟩ := List.mem_iff_getElem?.mp hb
    obtain ⟨j, hj⟩ := List.mem_iff_getElem?.mp hi
    rcases sumFn_site hn hj with ⟨_, _, he⟩ | ⟨_, _, _, ops', he, hwidth⟩
    · exact Inst.noConfusion he
    · obtain ⟨_, hg, rfl⟩ := Inst.call.inj he
      obtain rfl := Callee.direct.inj hg
      obtain rfl : takesI8 = callee := Option.some.inj hcallee
      have hq' := List.mem_singleton.mp (List.mem_of_getElem? hq)
      have hop' : op.width (fun _ => 8) ∈ ops.map (Operand.width fun _ => 8) :=
        List.mem_map_of_mem (List.mem_of_getElem? hop)
      rw [hwidth] at hop'
      rw [List.mem_singleton.mp hop', hq']
      rfl
  · intro b hb dst g ops hi
    rw [List.mem_singleton.mp hb] at hi
    exact absurd hi List.not_mem_nil

/-- The analyses of the two functions. -/
def sumIntervals (s t : Engine.Solution IntervalState) (id : FuncId) : Engine.Solution IntervalState :=
  if id = 0 then s else t

/-- What the sites of `g` contribute, and the range of its parameter. -/
def sumRanges (a : BitVector) : Option (List ((FuncId × Nat) × Option Range) × Option Range) := do
  let s ← analyzeIntervals (sumFn a) [] 4
  let t ← analyzeIntervals takesI8 [] 4
  some (events (sumModule a) false (sumIntervals s t),
    synthesizeScalars (sumModule a) false (sumIntervals s t) (1, 0))

theorem sumRanges_spec {a : BitVector} {res : List ((FuncId × Nat) × Option Range) × Option Range}
    (h : sumRanges a = some res) :
    ∃ iv, (∀ f ∈ (sumModule a).functions, ∃ headers fuel, analyzeIntervals f.2 headers fuel = some (iv f.1)) ∧
      events (sumModule a) false iv = res.1 ∧ synthesizeScalars (sumModule a) false iv (1, 0) = res.2 := by
  simp only [sumRanges, Option.bind_eq_bind, Option.bind_eq_some_iff] at h
  obtain ⟨s, hs, t, ht, hres⟩ := h
  obtain rfl := Option.some.inj hres
  refine ⟨sumIntervals s t, fun f hf => ?_, rfl, rfl⟩
  rcases List.mem_pair.mp hf with rfl | rfl
  · exact ⟨[], 4, hs⟩
  · exact ⟨[], 4, ht⟩

/-- The point before the call `g(0)`, with `x` computed. -/
def beforeCall (x : Nat) : Point := ⟨sumCalls, sumCalls.insts, Regs.set (fun _ => none) 1 x⟩

theorem sumFn_steps (a : BitVector) (ha : a.width = 8) :
    (sumFn a).Step (fun _ => 8)
      ⟨⟨0, [], [.assign 1 (.int 8) (.bin .add (.const (.int a)) (.const (.int oneI8)))], .br 1 []⟩,
        [.assign 1 (.int 8) (.bin .add (.const (.int a)) (.const (.int oneI8)))], fun _ => none⟩
      ⟨⟨0, [], [.assign 1 (.int 8) (.bin .add (.const (.int a)) (.const (.int oneI8)))], .br 1 []⟩,
        [], Regs.set (fun _ => none) 1 ((a.value + 1) % 2 ^ 8)⟩ := by
  refine .inst (.assign ⟨[a.value, 1], .cons rfl (.cons rfl .nil), ?_⟩)
  show _ = BvOp.eval .add 8 (a.value % 2 ^ a.width) (1 % 2 ^ 8)
  rw [ha, BvOp.eval_mod]
  simp [BvOp.eval, BvOp.evalBv, Nat.add_mod]

theorem beforeCall_callAt (a : BitVector) (address : FuncId → Nat) (x : Nat) :
    CallAt (sumModule a) address (beforeCall x) (.direct 1) [.const (.int zeroI8)] 1 [0] :=
  ⟨⟨none, _, rfl⟩, .direct 1, .cons rfl .nil⟩

end Scalars

end Csolver
