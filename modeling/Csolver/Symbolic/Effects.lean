import Csolver.Symbolic.Summary
import Mathlib.Algebra.Order.BigOperators.Group.List

/-!
# The effects of a function (`summarize_fn` and `summarize_module`)

Whether a function may write to memory, or free it, as far as its callers can tell: what it does to its own
allocations does not count. The effects of one function are read off its instructions, and those of its callees
are added until nothing changes.
-/

namespace Csolver

namespace Summary

inductive EffectKind where
  | write | free
  deriving DecidableEq

/-- The `writes` and `frees` of a summary. -/
structure EffectBits where
  writes : Bool
  frees : Bool
  deriving DecidableEq

namespace EffectBits

def none : EffectBits := ⟨false, false⟩

def any : EffectBits := ⟨true, true⟩

def has (e : EffectBits) : EffectKind → Bool
  | .write => e.writes
  | .free => e.frees

def or (e e' : EffectBits) : EffectBits := ⟨e.writes || e'.writes, e.frees || e'.frees⟩

@[simp] theorem has_none (k : EffectKind) : none.has k = false := by cases k <;> rfl

@[simp] theorem has_any (k : EffectKind) : any.has k = true := by cases k <;> rfl

@[simp] theorem has_or (e e' : EffectBits) (k : EffectKind) : (e.or e').has k = (e.has k || e'.has k) := by
  cases k <;> rfl

theorem ext_has {e e' : EffectBits} (h : ∀ k, e.has k = e'.has k) : e = e' := by
  obtain ⟨w, fr⟩ := e
  obtain ⟨w', fr'⟩ := e'
  exact congrArg₂ EffectBits.mk (h .write) (h .free)

end EffectBits

/-! ## One function -/

def isLocal (set : Finset RegId) : Operand → Bool
  | .reg r => decide (r ∈ set)
  | .const _ => false

/-- What one instruction adds, calls apart. -/
def instEffects (set : Finset RegId) : Inst → EffectBits
  | .store ptr _ => ⟨!isLocal set ptr, false⟩
  | .memIntrinsic dst _ => ⟨!isLocal set dst, false⟩
  | .asm _ => .any
  | .dealloc ptr => ⟨false, !isLocal set ptr⟩
  | _ => .none

/-- The effects of `summarize_fn`. -/
def localEffects (f : Function) : EffectBits :=
  f.insts.foldl (fun e i => e.or (instEffects (localAllocRegs f) i)) .none

/-- A callee that is no function of the module; an inline assembly that touches registers only is harmless. -/
def opaqueCallee : Callee → Bool
  | .direct _ => false
  | .symbol n => decide (n ≠ "<inline asm nomem>")
  | .indirect _ => true

def opaqueCall (f : Function) : Bool := f.observableInsts.any fun
  | .call _ callee _ => opaqueCallee callee
  | _ => false

/-- The effects of a function before those of its callees are added. -/
def ownEffects (f : Function) : EffectBits := if opaqueCall f then .any else localEffects f

/-! ## The module -/

abbrev EffectMap := FuncId → EffectBits

def startEffects (M : Module) : EffectMap := fun id =>
  match M.function id with
  | some f => ownEffects f
  | none => .none

/-- The effects with those of the callees that may return. -/
def withCallees (m : EffectMap) (f : Function) : EffectBits :=
  f.directCalls.foldl (fun e c => e.or (m c.1)) (m f.id)

def propagateFn (s : EffectMap × Bool) (f : Function) : EffectMap × Bool :=
  let e := withCallees s.1 f
  if e ≠ s.1 f.id then (Function.update s.1 f.id e, true) else s

def effectRound (M : Module) (m : EffectMap) : EffectMap × Bool := M.functions.foldl propagateFn (m, false)

/-- The loop of `summarize_module`. There are two effects a function can gain, so the rounds are bounded. -/
def effectSummary (M : Module) : EffectMap :=
  Lib.untilSettled (effectRound M) (2 * M.functions.length + 1) (startEffects M)

/-! ## What the rounds lead to -/

theorem has_foldl_or {α : Type*} (g : α → EffectBits) (l : List α) (e : EffectBits) (k : EffectKind) :
    (l.foldl (fun e a => e.or (g a)) e).has k = true ↔ e.has k = true ∨ ∃ a ∈ l, (g a).has k = true := by
  induction l generalizing e with
  | nil => simp
  | cons a l ih =>
    rw [List.foldl_cons, ih, EffectBits.has_or, Bool.or_eq_true, List.exists_mem_cons_iff, or_assoc]

theorem has_withCallees {m : EffectMap} {f : Function} {k : EffectKind} :
    (withCallees m f).has k = true ↔ (m f.id).has k = true ∨ ∃ c ∈ f.directCalls, (m c.1).has k = true :=
  has_foldl_or (fun c : FuncId × List Operand => m c.1) f.directCalls (m f.id) k

/-- The map has every effect the other has. -/
def Covers (m m' : EffectMap) : Prop := ∀ id k, (m id).has k = true → (m' id).has k = true

theorem propagateFn_covers (s : EffectMap × Bool) (f : Function) : Covers s.1 (propagateFn s f).1 := by
  intro id k hk
  rw [propagateFn]
  split
  · by_cases hid : id = f.id
    · subst hid
      simp only [Function.update_self]
      exact has_withCallees.mpr (.inl hk)
    · simp only [Function.update_of_ne hid]
      exact hk
  · exact hk

theorem foldl_covers (fs : List Function) (s : EffectMap × Bool) : Covers s.1 (fs.foldl propagateFn s).1 := by
  induction fs generalizing s with
  | nil => exact fun _ _ hk => hk
  | cons f fs ih => exact fun id k hk => ih _ id k (propagateFn_covers s f id k hk)

/-- How many effects a function can still gain. -/
def EffectBits.missing (e : EffectBits) : Nat := (if e.writes then 0 else 1) + if e.frees then 0 else 1

theorem missing_le {e e' : EffectBits} (h : ∀ k, e.has k = true → e'.has k = true) : e'.missing ≤ e.missing := by
  obtain ⟨w, fr⟩ := e
  obtain ⟨w', fr'⟩ := e'
  have hw := h .write
  have hf := h .free
  simp only [EffectBits.has] at hw hf
  cases w <;> cases fr <;> cases w' <;> cases fr' <;> simp_all [EffectBits.missing]

theorem missing_lt {e e' : EffectBits} (h : ∀ k, e.has k = true → e'.has k = true) (hne : e ≠ e') :
    e'.missing < e.missing := by
  obtain ⟨w, fr⟩ := e
  obtain ⟨w', fr'⟩ := e'
  have hw := h .write
  have hf := h .free
  simp only [EffectBits.has] at hw hf
  cases w <;> cases fr <;> cases w' <;> cases fr' <;> simp_all [EffectBits.missing]

theorem foldl_changed (fs : List Function) (s : EffectMap × Bool) (h : (fs.foldl propagateFn s).2 = true) :
    s.2 = true ∨ ∃ f ∈ fs, s.1 f.id ≠ (fs.foldl propagateFn s).1 f.id := by
  induction fs generalizing s with
  | nil => exact .inl h
  | cons f fs ih =>
    rw [List.foldl_cons] at h ⊢
    have hcover := foldl_covers fs (propagateFn s f)
    by_cases hne : withCallees s.1 f = s.1 f.id
    · have hsame : propagateFn s f = s := if_neg (not_not_intro hne)
      rw [hsame] at h ⊢
      refine (ih s h).imp_right fun ⟨g, hg, hdiff⟩ => ⟨g, List.mem_cons_of_mem _ hg, hdiff⟩
    · refine .inr ⟨f, List.mem_cons_self, fun heq => hne ?_⟩
      -- What the callees add is still there after the round.
      have hupdate : (propagateFn s f).1 f.id = withCallees s.1 f := by
        rw [propagateFn, if_pos hne]
        exact Function.update_self _ _ _
      refine EffectBits.ext_has fun k => ?_
      cases hk : (withCallees s.1 f).has k with
      | true =>
        rw [heq]
        exact (hcover f.id k (hupdate ▸ hk)).symm
      | false =>
        cases hs : (s.1 f.id).has k with
        | false => rfl
        | true => rw [has_withCallees.mpr (.inl hs)] at hk; exact absurd hk (by simp)

/-- How many effects the functions of the module can still gain. -/
def totalMissing (M : Module) (m : EffectMap) : Nat := (M.functions.map fun f => (m f.id).missing).sum

theorem totalMissing_lt {M : Module} {m : EffectMap} (h : (effectRound M m).2 = true) :
    totalMissing M (effectRound M m).1 < totalMissing M m := by
  have hcover := foldl_covers M.functions (m, false)
  rcases foldl_changed M.functions (m, false) h with hfalse | ⟨f, hf, hne⟩
  · exact absurd hfalse (by simp)
  · exact List.sum_lt_sum _ _ (fun g _ => missing_le (hcover g.id)) ⟨f, hf, missing_lt (hcover f.id) hne⟩

theorem totalMissing_le (M : Module) (m : EffectMap) : totalMissing M m ≤ 2 * M.functions.length := by
  rw [totalMissing]
  have hle : ∀ e : EffectBits, e.missing ≤ 2 := by
    rintro ⟨w, fr⟩
    cases w <;> cases fr <;> decide
  have hsum := List.sum_le_card_nsmul (M.functions.map fun f => (m f.id).missing) 2 (by
    intro x hx
    obtain ⟨f, -, rfl⟩ := List.mem_map.mp hx
    exact hle _)
  rw [List.length_map] at hsum
  exact hsum.trans (Nat.le_of_eq (Nat.mul_comm _ _))

theorem foldl_unchanged (fs : List Function) (m : EffectMap) (h : (fs.foldl propagateFn (m, false)).2 = false) :
    (fs.foldl propagateFn (m, false)).1 = m ∧
      ∀ f ∈ fs, ∀ c ∈ f.directCalls, ∀ k, (m c.1).has k = true → (m f.id).has k = true := by
  have hflag : ∀ (fs : List Function) (s : EffectMap × Bool), s.2 = true → (fs.foldl propagateFn s).2 = true := by
    intro fs
    induction fs with
    | nil => exact fun _ hs => hs
    | cons f fs ih =>
      intro s hs
      apply ih
      rw [propagateFn]
      split
      · rfl
      · exact hs
  induction fs with
  | nil => exact ⟨rfl, fun f hf => absurd hf List.not_mem_nil⟩
  | cons f fs ih =>
    rw [List.foldl_cons] at h ⊢
    by_cases hne : withCallees m f = m f.id
    · have hsame : propagateFn (m, false) f = (m, false) := if_neg (not_not_intro hne)
      rw [hsame] at h ⊢
      obtain ⟨heq, hclosed⟩ := ih h
      refine ⟨heq, fun g hg c hc k hk => ?_⟩
      rcases List.mem_cons.mp hg with rfl | hg
      · rw [← hne]
        exact has_withCallees.mpr (.inr ⟨c, hc, hk⟩)
      · exact hclosed g hg c hc k hk
    · have hset : (propagateFn (m, false) f).2 = true := by rw [propagateFn, if_pos hne]
      rw [hflag fs _ hset] at h
      exact absurd h (by simp)

/-- **The rounds end**, and the summary then has the own effects of each function and those of the callees it
    may return from. -/
theorem effectSummary_closed (M : Module) : Covers (startEffects M) (effectSummary M) ∧
    ∀ f ∈ M.functions, ∀ c ∈ f.directCalls, ∀ k, (effectSummary M c.1).has k = true →
      (effectSummary M f.id).has k = true := by
  constructor
  · refine Lib.untilSettled_keeps (P := Covers (startEffects M)) (fun m hm => ?_) _ fun _ _ hk => hk
    exact fun id k hk => foldl_covers M.functions (m, false) id k (hm id k hk)
  · obtain ⟨m, hsettled, hend⟩ := Lib.untilSettled_settled (fun m => totalMissing_lt (M := M) (m := m))
      (Nat.lt_succ_of_le (totalMissing_le M (startEffects M)))
    obtain ⟨heq, hclosed⟩ := foldl_unchanged M.functions m hsettled
    rw [effectSummary, hend, effectRound, heq]
    exact hclosed

/-! ## Runs

Memory is a memory of objects. A pointer belongs to the object it was derived from, wherever it points, and a
number belongs to none. Reads, results and branches are left open, so that a function has at least the runs it
has in any implementation. -/

inductive Val where
  | ptr (object : Nat) (offset : Int)
  | num (n : Nat)

/-- An access of an object, or of an address outside all of them. `own` is the kind of region, if the object is an
    allocation of the activation that performs the access. -/
structure Event where
  kind : EffectKind
  object : Option Nat
  own : Option RegionKind

/-- An activation: its registers, its own allocations and the next object to be handed out. -/
structure Activation where
  regs : RegId → Option Val
  own : List (Nat × RegionKind)
  next : Nat

namespace Activation

/-- The values an operand may have. A register has none before its definition. -/
def Reads (a : Activation) : Operand → Val → Prop
  | .reg r, v => a.regs r = some v
  | .const _, _ => True

def set (a : Activation) (r : RegId) (v : Val) : Activation := { a with regs := Function.update a.regs r (some v) }

def setResult (a : Activation) (dst : Option RegId) (v : Val) : Activation :=
  match dst with
  | some r => a.set r v
  | none => a

/-- The access an activation makes through a value. -/
def access (a : Activation) (kind : EffectKind) : Val → Event
  | .ptr o _ => ⟨kind, some o, (a.own.find? fun e => e.1 = o).map (·.2)⟩
  | .num _ => ⟨kind, none, none⟩

/-- What the activation is after an allocation. -/
def allocate (a : Activation) (dst : RegId) (region : RegionKind) : Activation where
  regs := Function.update a.regs dst (some (.ptr a.next 0))
  own := (a.next, region) :: a.own
  next := a.next + 1

end Activation

/-- A value computed from another: it belongs to the same object. -/
def Derived : Val → Val → Prop
  | .ptr o _, .ptr o' _ => o' = o
  | .ptr _ _, .num _ => False
  | .num _, _ => True

/-- The runs of the functions that are called: arguments, the next object before, the events, the result and the
    next object after. -/
abbrev Calls := Function → List Val → Nat → List Event → Val → Nat → Prop

section Semantics

variable (M : Module) (calls : Calls)

/-- Executing an instruction. -/
inductive Step : Inst → Activation → List Event → Activation → Prop
  | assign {a dst op v} : a.Reads op v → Step (.assign dst (.use op)) a [] (a.set dst v)
  | cast {a dst c op v v'} : a.Reads op v → Derived v v' → Step (.assign dst (.cast c op)) a [] (a.set dst v')
  | compute {a dst value v} : (∀ op, value ≠ .use op) → (∀ c op, value ≠ .cast c op) →
      Step (.assign dst value) a [] (a.set dst v)
  | load {a dst ptr v} : Step (.load dst ptr) a [] (a.set dst v)
  | store {a ptr value v} : a.Reads ptr v → Step (.store ptr value) a [a.access .write v] a
  | alloc {a dst region} : Step (.alloc dst region) a [] (a.allocate dst region)
  | dealloc {a ptr v} : a.Reads ptr v → Step (.dealloc ptr) a [a.access .free v] a
  | ptrOffset {a dst base index v v'} : a.Reads base v → Derived v v' →
      Step (.ptrOffset dst base index) a [] (a.set dst v')
  | fieldPtr {a dst base v v'} : a.Reads base v → Derived v v' → Step (.fieldPtr dst base) a [] (a.set dst v')
  | direct {a dst g args h vs events v next} : M.function g = some h → List.Forall₂ a.Reads args vs →
      calls h vs a.next events v next →
        Step (.call dst (.direct g) args) a events ({ a with next := next }.setResult dst v)
  | registersOnly {a dst args v} :
      Step (.call dst (.symbol "<inline asm nomem>") args) a [] (a.setResult dst v)
  | unknown {a dst callee args events v next} : opaqueCallee callee = true → a.next ≤ next →
      Step (.call dst callee args) a events ({ a with next := next }.setResult dst v)
  | asm {a defs events regs next} : (∀ r, r ∉ defs → regs r = a.regs r) → a.next ≤ next →
      Step (.asm defs) a events { a with regs := regs, next := next }
  | intrinsic {a dst v} : Step (.intrinsic dst) a [] (a.setResult dst v)
  | refWitness {a dst v} : Step (.refWitness dst) a [] (a.set dst v)
  | memIntrinsic {a dst src v} : a.Reads dst v → Step (.memIntrinsic dst src) a [a.access .write v] a
  | refcount {a val protocol dec} : Step (.refcount val protocol dec) a [] a
  | barrier {a access} : Step (.barrier access) a [] a
  | cas {a val} : Step (.cas val) a [] a
  | note {a} : Step .note a [] a

inductive Steps : List Inst → Activation → List Event → Activation → Prop
  | nil {a} : Steps [] a [] a
  | cons {i is a b c es es'} : Step M calls i a es b → Steps is b es' c → Steps (i :: is) a (es ++ es') c

/-- The parameters of the blocks of each function, which the summary does not look at. -/
abbrev BlockParams := FuncId → BlockId → List RegId

/-- Entering a block: its parameters get values, nothing else changes. -/
def Enters (params : List RegId) (a b : Activation) : Prop :=
  (∀ r, r ∉ params → b.regs r = a.regs r) ∧ b.own = a.own ∧ b.next = a.next

/-- From the head of a block to the return of the function. A block that ends in `unreachable` does not return. -/
inductive Returns (params : BlockParams) (f : Function) : BlockId → Activation → List Event → Activation → Prop
  | ret {blk a b c es v} : blk ∈ f.blocks → Enters (params f.id blk.id) a b → Steps M calls blk.insts b es c →
      blk.term = .ret v → Returns params f blk.id a es c
  | jump {blk a b c d es es' target} : blk ∈ f.blocks → Enters (params f.id blk.id) a b →
      Steps M calls blk.insts b es c → target ∈ blk.term.successors → Returns params f target c es' d →
        Returns params f blk.id a (es ++ es') d

end Semantics

/-- The registers of an activation at its start: the parameters have the arguments. -/
def startRegs (f : Function) (args : List Val) : RegId → Option Val :=
  (f.params.zip args).foldl (fun regs e => Function.update regs e.1.1 (some e.2)) fun _ => none

/-- The returning runs of a function through calls of the given depth. -/
def Runs (M : Module) (params : BlockParams) : Nat → Calls
  | 0 => fun _ _ _ _ _ _ => False
  | depth + 1 => fun f args start events _ next =>
    ∃ a, Returns M (Runs M params depth) params f f.entry ⟨startRegs f args, [], start⟩ events a ∧ a.next = next

/-! ## Static single assignment -/

/-- The registers an instruction defines. -/
def Inst.defs : Inst → List RegId
  | .assign dst _ | .load dst _ | .alloc dst _ | .ptrOffset dst _ _ | .fieldPtr dst _ | .refWitness dst => [dst]
  | .call dst _ _ | .intrinsic dst => dst.toList
  | .asm defs => defs
  | _ => []

/-- Every register is defined once: as a parameter of the function or of a block, or by an instruction. -/
def Ssa (params : BlockParams) (f : Function) : Prop :=
  (f.params.map (·.1) ++ f.blocks.flatMap (fun b => params f.id b.id) ++ f.insts.flatMap Inst.defs).Nodup

theorem localDst_mono {s t : Finset RegId} (hst : s ⊆ t) {i : Inst} {r : RegId} (h : localDst s i = some r) :
    localDst t i = some r := by
  unfold localDst at h ⊢
  split at h
  · exact h
  · split_ifs at h with hb
    rw [if_pos (hst hb)]
    exact h
  · split_ifs at h with hb
    rw [if_pos (hst hb)]
    exact h
  · split_ifs at h with hb
    rw [if_pos (hst hb)]
    exact h
  · cases h

theorem localDst_defs {s : Finset RegId} {i : Inst} {r : RegId} (h : localDst s i = some r) : r ∈ i.defs := by
  unfold localDst at h
  split at h <;> first
    | (obtain rfl := Option.some.inj h; exact List.mem_singleton_self _)
    | (split_ifs at h; obtain rfl := Option.some.inj h; exact List.mem_singleton_self _)
    | cases h

/-- Every register of the set is derived by some instruction. -/
def DerivedBy (insts : List Inst) (s : Finset RegId) : Prop := ∀ r ∈ s, ∃ i ∈ insts, localDst s i = some r

theorem addLocal_derivedBy {insts : List Inst} {s : Finset RegId × Bool} (h : DerivedBy insts s.1) {i : Inst}
    (hi : i ∈ insts) : DerivedBy insts (addLocal s i).1 := by
  rw [addLocal]
  split
  · next d hd =>
    have hsub : s.1 ⊆ insert d s.1 := Finset.subset_insert d s.1
    intro r hr
    rcases Finset.mem_insert.mp hr with rfl | hr
    · exact ⟨i, hi, localDst_mono hsub hd⟩
    · obtain ⟨j, hj, hjr⟩ := h r hr
      exact ⟨j, hj, localDst_mono hsub hjr⟩
  · exact h

theorem localAllocRegs_derivedBy (f : Function) : DerivedBy f.insts (localAllocRegs f) := by
  refine Lib.untilSettled_keeps (P := DerivedBy f.insts) (fun s hs => ?_) _ fun r hr => absurd hr (Finset.notMem_empty r)
  have hfold : ∀ (l : List Inst) (t : Finset RegId × Bool), (∀ i ∈ l, i ∈ f.insts) → DerivedBy f.insts t.1 →
      DerivedBy f.insts (l.foldl addLocal t).1 := by
    intro l
    induction l with
    | nil => exact fun _ _ ht => ht
    | cons i l ih =>
      intro t hl ht
      exact ih _ (fun j hj => hl j (List.mem_cons_of_mem _ hj)) (addLocal_derivedBy ht (hl i List.mem_cons_self))
  exact hfold f.insts (s, false) (fun _ hi => hi) hs

theorem eq_of_nodup_flatMap {α β : Type*} {g : α → List β} {l : List α} (h : (l.flatMap g).Nodup) {a b : α}
    (ha : a ∈ l) (hb : b ∈ l) {x : β} (hxa : x ∈ g a) (hxb : x ∈ g b) : a = b := by
  by_contra hne
  have hpair := (List.nodup_flatMap.mp h).2
  have : Std.Symm (Function.onFun List.Disjoint g) := ⟨fun _ _ hd => List.Disjoint.symm hd⟩
  exact hpair.forall ha hb hne hxa hxb

theorem Ssa.localDst {params : BlockParams} {f : Function} (h : Ssa params f) {r : RegId}
    (hr : r ∈ localAllocRegs f) : (∀ i ∈ f.insts, r ∈ i.defs → localDst (localAllocRegs f) i = some r) ∧
      (∀ b ∈ f.blocks, r ∉ params f.id b.id) ∧ r ∉ f.params.map (·.1) := by
  obtain ⟨i, hi, hir⟩ := localAllocRegs_derivedBy f r hr
  have hdef : r ∈ f.insts.flatMap Inst.defs := List.mem_flatMap.mpr ⟨i, hi, localDst_defs hir⟩
  obtain ⟨-, hinsts, hsep⟩ := List.nodup_append.mp h
  refine ⟨fun j hj hjr => ?_, fun b hb hmem => ?_, fun hmem => ?_⟩
  · rw [eq_of_nodup_flatMap hinsts hj hi hjr (localDst_defs hir)]
    exact hir
  · exact hsep r (List.mem_append_right _ (List.mem_flatMap.mpr ⟨b, hb, hmem⟩)) r hdef rfl
  · exact hsep r (List.mem_append_left _ hmem) r hdef rfl

/-! ## What a run can reach through the registers of own allocations -/

/-- The value is a pointer into an allocation of the activation. -/
def Activation.Owns (a : Activation) (v : Val) : Prop := ∃ o off region, v = .ptr o off ∧ (o, region) ∈ a.own

/-- What holds within an activation of `f` that was entered with `start` as the next object. -/
structure Own (f : Function) (start : Nat) (a : Activation) : Prop where
  regs : ∀ r ∈ localAllocRegs f, ∀ v, a.regs r = some v → a.Owns v
  own : ∀ e ∈ a.own, start ≤ e.1
  next : start ≤ a.next

section Keeping

variable {f : Function} {start : Nat} {a : Activation}

theorem Own.set (h : Own f start a) {dst : RegId} {v : Val} (hv : dst ∈ localAllocRegs f → a.Owns v) :
    Own f start (a.set dst v) := by
  refine ⟨fun r hr w hw => ?_, h.own, h.next⟩
  by_cases hrd : r = dst
  · subst hrd
    have hvw : v = w := by
      have hupd : Function.update a.regs r (some v) r = some w := hw
      rw [Function.update_self] at hupd
      exact Option.some.inj hupd
    exact hvw ▸ hv hr
  · have hold : a.regs r = some w := by
      have hupd : Function.update a.regs dst (some v) r = some w := hw
      rwa [Function.update_of_ne hrd] at hupd
    exact h.regs r hr w hold

theorem Own.advance (h : Own f start a) {next : Nat} (hle : a.next ≤ next) :
    Own f start { a with next := next } := ⟨h.regs, h.own, h.next.trans hle⟩

theorem Own.setResult (h : Own f start a) {dst : Option RegId} {v : Val}
    (hdst : ∀ r, dst = some r → r ∉ localAllocRegs f) : Own f start (a.setResult dst v) := by
  cases dst with
  | none => exact h
  | some r => exact h.set fun hr => absurd hr (hdst r rfl)

theorem Own.reads (h : Own f start a) {op : Operand} {v : Val} (hlocal : isLocal (localAllocRegs f) op = true)
    (hv : a.Reads op v) : a.Owns v := by
  cases op with
  | const c => exact absurd hlocal (by simp [isLocal])
  | reg r => exact h.regs r (of_decide_eq_true hlocal) v hv

theorem Activation.Owns.derived {v v' : Val} (h : a.Owns v) (hd : Derived v v') : a.Owns v' := by
  obtain ⟨o, off, region, rfl, hmem⟩ := h
  cases v' with
  | num n => exact hd.elim
  | ptr o' off' =>
    obtain rfl : o' = o := hd
    exact ⟨o', off', region, rfl, hmem⟩

theorem isLocal_of_localDst {set : Finset RegId} {dst : RegId} {op : Operand}
    (h : localDst set (.assign dst (.use op)) = some dst ∨ (∃ c, localDst set (.assign dst (.cast c op)) = some dst) ∨
      ∃ index, localDst set (.ptrOffset dst op index) = some dst) : isLocal set op = true := by
  cases op with
  | const c => rcases h with h | ⟨_, h⟩ | ⟨_, h⟩ <;> simp [localDst] at h
  | reg r =>
    rcases h with h | ⟨_, h⟩ | ⟨_, h⟩ <;> simp only [localDst] at h <;> split_ifs at h with hr <;>
      exact decide_eq_true hr

end Keeping

/-! ## The soundness of the summary -/

/-- The event is an access of an own allocation, made after the given object was the next one. -/
def Event.OwnFrom (start : Nat) (e : Event) : Prop := e.own ≠ none ∧ ∃ o, e.object = some o ∧ start ≤ o

theorem Event.OwnFrom.mono {start start' : Nat} {e : Event} (h : e.OwnFrom start) (hle : start' ≤ start) :
    e.OwnFrom start' := by
  obtain ⟨hown, o, ho, hs⟩ := h
  exact ⟨hown, o, ho, hle.trans hs⟩

theorem Own.access {f : Function} {start : Nat} {a : Activation} (h : Own f start a) {v : Val} (hv : a.Owns v)
    (k : EffectKind) : (a.access k v).OwnFrom start := by
  obtain ⟨o, off, region, rfl, hmem⟩ := hv
  refine ⟨fun hnone => ?_, o, rfl, h.own _ hmem⟩
  have hfind : a.own.find? (fun e => e.1 = o) = none := Option.map_eq_none_iff.mp hnone
  have hno := List.find?_eq_none.mp hfind (o, region) hmem
  exact hno (decide_eq_true rfl)

/-- What is known of the calls. -/
structure CallsOk (M : Module) (calls : Calls) : Prop where
  next : ∀ f ∈ M.functions, ∀ vs start events v next, calls f vs start events v next → start ≤ next
  events : ∀ f ∈ M.functions, ∀ k, (effectSummary M f.id).has k = false → ∀ vs start events v next,
    calls f vs start events v next → ∀ e ∈ events, e.kind = k → e.OwnFrom start

section Soundness

variable {M : Module} {calls : Calls} {params : BlockParams} {f : Function} {start : Nat}

/-- **One instruction** leaves the registers of own allocations pointing into own allocations. -/
theorem Step.keeps {i : Inst} {a b : Activation} {es : List Event} (h : Step M calls i a es b)
    (hcalls : CallsOk M calls) (hssa : Ssa params f) (hi : i ∈ f.insts) (ha : Own f start a) : Own f start b := by
  have hdef : ∀ r ∈ localAllocRegs f, r ∈ i.defs → localDst (localAllocRegs f) i = some r :=
    fun r hr hir => (hssa.localDst hr).1 i hi hir
  -- A register that is defined in another way is none of the set.
  have hforeign : localDst (localAllocRegs f) i = none → ∀ r ∈ i.defs, r ∉ localAllocRegs f := by
    intro hnone r hir hr
    rw [hdef r hr hir] at hnone
    exact absurd hnone (by simp)
  cases h with
  | assign hread =>
    refine ha.set fun hr => ha.reads (isLocal_of_localDst (.inl (hdef _ hr (List.mem_singleton_self _)))) hread
  | @cast _ dst c op v v' hread hderived =>
    refine ha.set fun hr => Activation.Owns.derived (ha.reads ?_ hread) hderived
    exact isLocal_of_localDst (.inr (.inl ⟨c, hdef dst hr (List.mem_singleton_self dst)⟩))
  | @compute _ dst value _ huse hcast =>
    refine ha.set fun hr => absurd hr (hforeign ?_ dst (List.mem_singleton_self _))
    cases value with
    | use op => exact absurd rfl (huse op)
    | cast c op => exact absurd rfl (hcast c op)
    | _ => rfl
  | load => exact ha.set fun hr => absurd hr (hforeign rfl _ (List.mem_singleton_self _))
  | @alloc _ dst region =>
    refine ⟨fun r hr v hv => ?_, fun e he => ?_, ha.next.trans (Nat.le_succ _)⟩
    · by_cases hrd : r = dst
      · subst hrd
        have hupd : Function.update a.regs r (some (.ptr a.next 0)) r = some v := hv
        rw [Function.update_self] at hupd
        exact ⟨a.next, 0, region, (Option.some.inj hupd).symm, List.mem_cons_self⟩
      · have hupd : Function.update a.regs dst (some (.ptr a.next 0)) r = some v := hv
        rw [Function.update_of_ne hrd] at hupd
        obtain ⟨o, off, reg, rfl, hmem⟩ := ha.regs r hr v hupd
        exact ⟨o, off, reg, rfl, List.mem_cons_of_mem _ hmem⟩
    · rcases List.mem_cons.mp he with rfl | he
      · exact ha.next
      · exact ha.own e he
  | @ptrOffset _ dst base index v v' hread hderived =>
    refine ha.set fun hr => Activation.Owns.derived (ha.reads ?_ hread) hderived
    exact isLocal_of_localDst (.inr (.inr ⟨index, hdef dst hr (List.mem_singleton_self dst)⟩))
  | fieldPtr hread hderived => exact ha.set fun hr => absurd hr (hforeign rfl _ (List.mem_singleton_self _))
  | direct hg _ hcall =>
    have hmem := (Module.function_eq_some.mp hg).1
    refine (ha.advance (hcalls.next _ hmem _ _ _ _ _ hcall)).setResult fun r hr => hforeign rfl r ?_
    rw [hr]
    exact List.mem_singleton_self r
  | registersOnly =>
    refine ha.setResult fun r hr => hforeign rfl r ?_
    rw [hr]
    exact List.mem_singleton_self r
  | unknown _ hnext =>
    refine (ha.advance hnext).setResult fun r hr => hforeign rfl r ?_
    rw [hr]
    exact List.mem_singleton_self r
  | @asm _ defs _ regs next hregs hnext =>
    refine ⟨fun r hr v hv => ?_, ha.own, ha.next.trans hnext⟩
    have hno : r ∉ defs := fun hmem => hforeign rfl r hmem hr
    exact ha.regs r hr v ((hregs r hno).symm.trans hv)
  | intrinsic =>
    refine ha.setResult fun r hr => hforeign rfl r ?_
    rw [hr]
    exact List.mem_singleton_self r
  | refWitness => exact ha.set fun hr => absurd hr (hforeign rfl _ (List.mem_singleton_self _))
  | store | dealloc | memIntrinsic | refcount | barrier | cas | note => exact ha

theorem mem_directCalls {dst : Option RegId} {g : FuncId} {args : List Operand}
    (h : Inst.call dst (.direct g) args ∈ f.observableInsts) : (g, args) ∈ f.directCalls :=
  List.mem_filterMap.mpr ⟨_, h, rfl⟩

theorem no_effect {k : EffectKind} (hf : f ∈ M.functions) (hk : (effectSummary M f.id).has k = false) :
    opaqueCall f = false ∧ (∀ i ∈ f.insts, (instEffects (localAllocRegs f) i).has k = false) ∧
      ∀ c ∈ f.directCalls, (effectSummary M c.1).has k = false := by
  obtain ⟨hstart, hclosed⟩ := effectSummary_closed M
  have hown : (ownEffects f).has k = false := by
    refine Bool.eq_false_iff.mpr fun htrue => ?_
    have := hstart f.id k (by rw [startEffects, Module.function_of_mem hf]; exact htrue)
    rw [hk] at this
    exact absurd this (by simp)
  rw [ownEffects] at hown
  split_ifs at hown with hop
  · rw [EffectBits.has_any] at hown
    exact absurd hown (by simp)
  · refine ⟨Bool.eq_false_iff.mpr hop, fun i hi => ?_, fun c hc => ?_⟩
    · refine Bool.eq_false_iff.mpr fun htrue => ?_
      rw [localEffects, (has_foldl_or _ _ _ _).mpr (.inr ⟨i, hi, htrue⟩)] at hown
      exact absurd hown (by simp)
    · refine Bool.eq_false_iff.mpr fun htrue => ?_
      rw [hclosed f hf c hc k htrue] at hk
      exact absurd hk (by simp)

/-- **One instruction** of a function without an effect has that effect on own allocations only. -/
theorem Step.events {i : Inst} {a b : Activation} {es : List Event} (h : Step M calls i a es b) {k : EffectKind}
    (hcalls : CallsOk M calls) (hf : f ∈ M.functions) (hk : (effectSummary M f.id).has k = false)
    (hi : i ∈ f.insts) (hobs : i ∈ f.observableInsts) (ha : Own f start a) :
    ∀ e ∈ es, e.kind = k → e.OwnFrom start := by
  obtain ⟨hop, hinsts, hcallees⟩ := no_effect hf hk
  have hinst := hinsts i hi
  -- An access through a pointer that the summary takes to be local.
  have haccess : ∀ {op v k'}, a.Reads op v → (k' = k → isLocal (localAllocRegs f) op = true) →
      ∀ e ∈ [a.access k' v], e.kind = k → e.OwnFrom start := by
    intro op v k' hread hlocal e he hek
    rw [List.mem_singleton.mp he] at hek ⊢
    have hkind : k' = k := by cases v <;> exact hek
    exact ha.access (ha.reads (hlocal hkind) hread) k'
  cases h with
  | store hread =>
    refine haccess hread fun hkk => ?_
    rw [← hkk] at hinst
    simpa [instEffects, EffectBits.has] using hinst
  | dealloc hread =>
    refine haccess hread fun hkk => ?_
    rw [← hkk] at hinst
    simpa [instEffects, EffectBits.has] using hinst
  | memIntrinsic hread =>
    refine haccess hread fun hkk => ?_
    rw [← hkk] at hinst
    simpa [instEffects, EffectBits.has] using hinst
  | asm =>
    rw [instEffects, EffectBits.has_any] at hinst
    exact absurd hinst (by simp)
  | unknown hany =>
    have := List.any_eq_false.mp hop _ hobs
    simp only [hany] at this
    exact absurd trivial this
  | direct hg _ hcall =>
    obtain ⟨hmem, hid⟩ := Module.function_eq_some.mp hg
    intro e he hek
    refine (hcalls.events _ hmem k ?_ _ _ _ _ _ hcall e he hek).mono ha.next
    rw [hid]
    exact hcallees _ (mem_directCalls hobs)
  | assign | cast | compute | load | alloc | ptrOffset | fieldPtr | registersOnly | intrinsic | refWitness |
      refcount | barrier | cas | note => exact fun e he => absurd he List.not_mem_nil

theorem Steps.sound {is : List Inst} {a b : Activation} {es : List Event} (h : Steps M calls is a es b)
    (hcalls : CallsOk M calls) (hssa : Ssa params f) (hf : f ∈ M.functions) (hi : ∀ i ∈ is, i ∈ f.insts)
    (ha : Own f start a) : Own f start b ∧ ∀ k, (effectSummary M f.id).has k = false →
      (∀ i ∈ is, i ∈ f.observableInsts) → ∀ e ∈ es, e.kind = k → e.OwnFrom start := by
  induction h with
  | nil => exact ⟨ha, fun _ _ _ e he => absurd he List.not_mem_nil⟩
  | cons hstep _ ih =>
    have hkeeps := hstep.keeps hcalls hssa (hi _ List.mem_cons_self) ha
    obtain ⟨hend, hrest⟩ := ih (fun j hj => hi j (List.mem_cons_of_mem _ hj)) hkeeps
    refine ⟨hend, fun k hk hobs e he hek => ?_⟩
    rcases List.mem_append.mp he with he | he
    · exact hstep.events hcalls hf hk (hi _ List.mem_cons_self) (hobs _ List.mem_cons_self) ha e he hek
    · exact hrest k hk (fun j hj => hobs j (List.mem_cons_of_mem _ hj)) e he hek

theorem Own.enters {b : Block} {a a' : Activation} (h : Own f start a) (hssa : Ssa params f) (hb : b ∈ f.blocks)
    (he : Enters (params f.id b.id) a a') : Own f start a' := by
  obtain ⟨hregs, hown, hnext⟩ := he
  refine ⟨fun r hr v hv => ?_, fun e hmem => h.own e (hown ▸ hmem), hnext ▸ h.next⟩
  rw [hregs r ((hssa.localDst hr).2.1 b hb)] at hv
  obtain ⟨o, off, region, hvo, hmem⟩ := h.regs r hr v hv
  exact ⟨o, off, region, hvo, hown.symm ▸ hmem⟩

theorem mem_insts {b : Block} (hb : b ∈ f.blocks) : ∀ i ∈ b.insts, i ∈ f.insts :=
  fun _ hi => List.mem_flatMap.mpr ⟨b, hb, hi⟩

theorem mem_observableInsts {b : Block} (hb : b ∈ f.blocks) (hobs : b.observable = true) :
    ∀ i ∈ b.insts, i ∈ f.observableInsts :=
  fun _ hi => List.mem_flatMap.mpr ⟨b, List.mem_filter.mpr ⟨hb, hobs⟩, hi⟩

/-- **A returning activation**, block by block. Every block on the way is one from which control may return. -/
theorem Returns.sound {id : BlockId} {a b : Activation} {es : List Event} (h : Returns M calls params f id a es b)
    (hcalls : CallsOk M calls) (hssa : Ssa params f) (hf : f ∈ M.functions) (ha : Own f start a) :
    Own f start b ∧ ∀ k, (effectSummary M f.id).has k = false → ∀ e ∈ es, e.kind = k → e.OwnFrom start := by
  induction h with
  | @ret blk _ _ _ _ v hb henter hsteps hterm =>
    have hobs : blk.observable = true := by rw [Block.observable, hterm]
    obtain ⟨hend, hevents⟩ := hsteps.sound hcalls hssa hf (mem_insts hb) (ha.enters hssa hb henter)
    exact ⟨hend, fun k hk => hevents k hk (mem_observableInsts hb hobs)⟩
  | @jump blk _ _ _ _ _ _ target hb henter hsteps htarget _ ih =>
    have hobs : blk.observable = true := by
      cases hterm : blk.term with
      | unreachable =>
        rw [hterm] at htarget
        exact absurd htarget List.not_mem_nil
      | _ => simp [Block.observable, hterm]
    obtain ⟨hmid, hevents⟩ := hsteps.sound hcalls hssa hf (mem_insts hb) (ha.enters hssa hb henter)
    obtain ⟨hend, hrest⟩ := ih hmid
    refine ⟨hend, fun k hk e he hek => ?_⟩
    rcases List.mem_append.mp he with he | he
    · exact hevents k hk (mem_observableInsts hb hobs) e he hek
    · exact hrest k hk e he hek

theorem startRegs_eq_none {args : List Val} {r : RegId} (hr : r ∉ f.params.map (·.1)) : startRegs f args r = none := by
  have hfold : ∀ (l : List ((RegId × Ty) × Val)) (regs : RegId → Option Val), (∀ e ∈ l, e.1.1 ≠ r) →
      l.foldl (fun (regs : RegId → Option Val) e => Function.update regs e.1.1 (some e.2)) regs r = regs r := by
    intro l
    induction l with
    | nil => exact fun _ _ => rfl
    | cons e l ih =>
      intro regs hl
      rw [List.foldl_cons, ih _ fun e' he' => hl e' (List.mem_cons_of_mem _ he'),
        Function.update_of_ne (hl e List.mem_cons_self).symm]
  refine hfold _ _ fun e he heq => hr ?_
  exact List.mem_map.mpr ⟨e.1, (List.of_mem_zip he).1, heq⟩

end Soundness

/-- **Calls of every depth.** -/
theorem runs_ok {M : Module} {params : BlockParams} (hssa : ∀ f ∈ M.functions, Ssa params f) (depth : Nat) :
    CallsOk M (Runs M params depth) := by
  induction depth with
  | zero => exact ⟨fun _ _ _ _ _ _ _ h => h.elim, fun _ _ _ _ _ _ _ _ _ h => h.elim⟩
  | succ depth ih =>
    have hactivation : ∀ f ∈ M.functions, ∀ vs start events v next,
        Runs M params (depth + 1) f vs start events v next → start ≤ next ∧
          ∀ k, (effectSummary M f.id).has k = false → ∀ e ∈ events, e.kind = k → e.OwnFrom start := by
      intro f hf vs start events v next ⟨a, hreturns, hnext⟩
      have hstart : Own f start ⟨startRegs f vs, [], start⟩ := by
        refine ⟨fun r hr w hw => ?_, fun e he => absurd he List.not_mem_nil, Nat.le_refl start⟩
        have hnone : startRegs f vs r = none := startRegs_eq_none ((hssa f hf).localDst hr).2.2
        exact absurd (hnone.symm.trans hw) (by simp)
      obtain ⟨hend, hevents⟩ := hreturns.sound ih (hssa f hf) hf hstart
      exact ⟨hnext ▸ hend.next, hevents⟩
    exact ⟨fun f hf vs start events v next h => (hactivation f hf vs start events v next h).1,
      fun f hf k hk vs start events v next h => (hactivation f hf vs start events v next h).2 k hk⟩

/-- **The effect summaries are sound.** A function that is said not to write, or not to free, does so in no
    returning run, through calls of any depth, except to what the activation that does it has allocated itself;
    so nothing is touched that was there before the call. -/
theorem effectSummary_sound (M : Module) (params : BlockParams) (hssa : ∀ f ∈ M.functions, Ssa params f)
    (f : Function) (hf : f ∈ M.functions) (k : EffectKind) (hk : (effectSummary M f.id).has k = false) (depth : Nat)
    (args : List Val) (start : Nat) (events : List Event) (result : Val) (next : Nat)
    (hrun : Runs M params depth f args start events result next) :
    ∀ e ∈ events, e.kind = k → e.own ≠ none ∧ ∃ o, e.object = some o ∧ start ≤ o :=
  (runs_ok hssa depth).events f hf k hk args start events result next hrun

/-! ## A function that writes to its own heap object -/

namespace EffectRun

/-- Allocates a block on the heap, writes to it and returns. -/
def fill : Function where
  id := 0
  params := []
  blocks := [⟨0, [.alloc 1 .heap, .store (.reg 1) (.const .null)], .ret none⟩]
  entry := 0

def alone : Module := ⟨[fill], by simp⟩

def noParams : BlockParams := fun _ _ => []

theorem fill_ssa : ∀ f ∈ alone.functions, Ssa noParams f := by
  intro f hf
  rw [List.mem_singleton.mp hf, Ssa]
  decide

theorem fill_clean : (effectSummary alone fill.id).has .write = false := by decide

/-- The write to the block, which is the object 7. -/
def filled : Event := ⟨.write, some 7, some .heap⟩

/-- The activation after the allocation. -/
def allocated : Activation := (Activation.mk (fun _ => none) [] 7).allocate 1 .heap

theorem fill_runs : Runs alone noParams 1 fill [] 7 [filled] (.num 0) 8 := by
  have hstore : Step alone (Runs alone noParams 0) (.store (.reg 1) (.const .null)) allocated [filled] allocated :=
    @Step.store _ _ allocated (.reg 1) (.const .null) (.ptr 7 0) rfl
  have hsteps : Steps alone (Runs alone noParams 0) [.alloc 1 .heap, .store (.reg 1) (.const .null)]
      ⟨fun _ => none, [], 7⟩ [filled] allocated := .cons .alloc (.cons hstore .nil)
  refine ⟨allocated, ?_, rfl⟩
  exact @Returns.ret _ _ _ fill ⟨0, _, .ret none⟩ _ _ _ _ none List.mem_cons_self ⟨fun _ _ => rfl, rfl, rfl⟩ hsteps rfl

end EffectRun

open EffectRun in
/-- The only object written to is the one that was not there before. -/
theorem effectSummary_sound_fill : ∃ o, filled.object = some o ∧ 7 ≤ o :=
  (effectSummary_sound alone noParams fill_ssa fill List.mem_cons_self .write fill_clean 1 [] 7 [filled] (.num 0) 8
    fill_runs filled List.mem_cons_self rfl).2

open EffectRun in
/-- It is no stack slot. -/
theorem ownHeap_written : ¬ ∀ (M : Module) (params : BlockParams), (∀ f ∈ M.functions, Ssa params f) →
    ∀ f ∈ M.functions, (effectSummary M f.id).has .write = false → ∀ depth args start events result next,
      Runs M params depth f args start events result next →
        ∀ e ∈ events, e.kind = .write → e.own = some .stack := by
  intro h
  have hown := h alone noParams fill_ssa fill List.mem_cons_self fill_clean 1 [] 7 [filled] (.num 0) 8 fill_runs
    filled List.mem_cons_self rfl
  exact absurd hown (by decide)

end Summary

end Csolver
