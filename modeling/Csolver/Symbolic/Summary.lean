import Csolver.Ir.Func
import Csolver.Lib.Rounds

/-!
# What a function summary is derived from (`crates/symbolic/src/summary/perfn.rs`)

The instructions carry the operands that the summary reads or that a run of the function needs; the
annotations that neither define a register nor name a counted resource are `note`. A compare-and-swap,
a barrier and a reference count are annotations as well: the call they stand for follows them.
-/

namespace Csolver

namespace Summary

inductive Inst where
  | assign (dst : RegId) (value : RValue)
  | load (dst : RegId) (ptr : Operand)
  | store (ptr value : Operand)
  | alloc (dst : RegId) (region : RegionKind)
  | dealloc (ptr : Operand)
  | ptrOffset (dst : RegId) (base index : Operand)
  | fieldPtr (dst : RegId) (base : Operand)
  | call (dst : Option RegId) (callee : Callee) (args : List Operand)
  | asm (defs : List RegId)
  | intrinsic (dst : Option RegId)
  | refWitness (dst : RegId)
  | memIntrinsic (dst : Operand) (src : Option Operand)
  | refcount (val : Operand) (protocol : Nat) (dec : Bool)
  | barrier (access : Option Operand)
  | cas (val : Operand)
  | note

structure Block where
  id : BlockId
  insts : List Inst
  term : Terminator

/-- Control does not return from a block that ends in `unreachable`, so nobody observes its calls. -/
def Block.observable (b : Block) : Bool :=
  match b.term with
  | .unreachable => false
  | _ => true

structure Function where
  id : FuncId
  params : List (RegId × Ty)
  blocks : List Block
  entry : BlockId

namespace Function

def insts (f : Function) : List Inst := f.blocks.flatMap (·.insts)

/-- The instructions of the blocks from which control may return. -/
def observableInsts (f : Function) : List Inst := (f.blocks.filter (·.observable)).flatMap (·.insts)

/-- The direct calls that may return, with their arguments. -/
def directCalls (f : Function) : List (FuncId × List Operand) :=
  f.observableInsts.filterMap fun
    | .call _ (.direct g) args => some (g, args)
    | _ => none

end Function

/-- A module; every function has an id of its own. -/
structure Module where
  functions : List Function
  ids_nodup : (functions.map (·.id)).Nodup

namespace Module

def function (M : Module) (id : FuncId) : Option Function := M.functions.find? fun f => f.id = id

variable {M : Module} {f : Function}

theorem function_eq_some {id : FuncId} : M.function id = some f ↔ f ∈ M.functions ∧ f.id = id := by
  have hnodup := M.ids_nodup
  rw [function]
  generalize M.functions = l at hnodup ⊢
  induction l with
  | nil => simp
  | cons g l ih =>
    obtain ⟨hg, hl⟩ := List.nodup_cons.mp hnodup
    rw [List.find?_cons]
    by_cases hid : g.id = id
    · simp only [hid, decide_true]
      constructor
      · rintro ⟨⟩
        exact ⟨List.mem_cons_self, hid⟩
      · rintro ⟨hmem, rfl⟩
        rcases List.mem_cons.mp hmem with rfl | hmem
        · rfl
        · exact absurd (List.mem_map.mpr ⟨f, hmem, hid.symm⟩) hg
    · simp only [hid, decide_false, ih hl, List.mem_cons]
      constructor
      · rintro ⟨hmem, hfid⟩
        exact ⟨.inr hmem, hfid⟩
      · rintro ⟨rfl | hmem, hfid⟩
        · exact absurd hfid hid
        · exact ⟨hmem, hfid⟩

theorem function_of_mem (h : f ∈ M.functions) : M.function f.id = some f := function_eq_some.mpr ⟨h, rfl⟩

end Module

/-! ## The parameter a register aliases -/

/-- A map from registers to parameter indices. -/
abbrev AliasMap := RegId → Option Nat

/-- `relate`: `dst` aliases what `base` aliases. Only a new entry counts as a change. -/
def relate (dst : RegId) (base : Operand) (s : AliasMap × Bool) : AliasMap × Bool :=
  match base with
  | .reg b =>
    match s.1 b with
    | some arg => (Function.update s.1 dst (some arg), s.2 || (s.1 dst).isNone)
    | none => s
  | .const _ => s

def relateInst (s : AliasMap × Bool) : Inst → AliasMap × Bool
  | .ptrOffset dst base _ => relate dst base s
  | .assign dst (.use op) => relate dst op s
  | .assign dst (.cast _ op) => relate dst op s
  | _ => s

/-- The pointer parameters alias themselves. -/
def paramAliases (f : Function) : AliasMap :=
  f.params.zipIdx.foldl (fun m e => if e.1.2.isPtr then Function.update m e.1.1 (some e.2) else m) fun _ => none

/-- `ptr_param_of`. Every pass but the last adds an entry for the register of an instruction. -/
def ptrParamOf (f : Function) : AliasMap :=
  Lib.untilSettled (fun m => f.insts.foldl relateInst (m, false)) (f.insts.length + 1) (paramAliases f)

/-- The parameter that an argument passes on. -/
def argParam (m : AliasMap) : Operand → Option Nat
  | .reg r => m r
  | .const _ => none

/-! ## The registers of own allocations -/

/-- The register an instruction adds to the set, given what is there. -/
def localDst (set : Finset RegId) : Inst → Option RegId
  | .alloc dst _ => some dst
  | .ptrOffset dst (.reg b) _ => if b ∈ set then some dst else none
  | .assign dst (.use (.reg r)) => if r ∈ set then some dst else none
  | .assign dst (.cast _ (.reg r)) => if r ∈ set then some dst else none
  | _ => none

def addLocal (s : Finset RegId × Bool) (i : Inst) : Finset RegId × Bool :=
  match localDst s.1 i with
  | some d => (insert d s.1, s.2 || decide (d ∉ s.1))
  | none => s

def localAllocRegs (f : Function) : Finset RegId :=
  Lib.untilSettled (fun set => f.insts.foldl addLocal (set, false)) (f.insts.length + 1) ∅

/-! ## The loops end by themselves

A pass that reports a change gives an entry to the register of some instruction, so there are no more
changes than instructions. -/

/-- The register that an instruction may add. -/
def Inst.derived : Inst → Option RegId
  | .alloc dst _ | .ptrOffset dst _ _ | .assign dst _ => some dst
  | _ => none

/-- How many instructions wait for an entry. -/
def waiting (insts : List Inst) (p : RegId → Bool) : Nat := (insts.filterMap Inst.derived).countP fun r => !p r

theorem waiting_le (insts : List Inst) (p : RegId → Bool) : waiting insts p ≤ insts.length :=
  le_trans List.countP_le_length (List.length_filterMap_le _ _)

theorem waiting_lt {insts : List Inst} {p q : RegId → Bool} (hpq : ∀ r, p r = true → q r = true)
    {i : Inst} (hi : i ∈ insts) {r : RegId} (hr : i.derived = some r) (hp : p r = false) (hq : q r = true) :
    waiting insts q < waiting insts p := by
  have hmem : r ∈ insts.filterMap Inst.derived := List.mem_filterMap.mpr ⟨i, hi, hr⟩
  obtain ⟨pre, post, hsplit⟩ := List.append_of_mem hmem
  have hle : ∀ l : List RegId, l.countP (fun r => !q r) ≤ l.countP fun r => !p r := by
    intro l
    apply List.countP_mono_left
    intro x _ hx
    cases hpx : p x with
    | false => rfl
    | true => simp [hpq x hpx] at hx
  rw [waiting, waiting, hsplit, List.countP_append, List.countP_append,
    List.countP_cons_of_neg (by simp [hq]), List.countP_cons_of_pos (by simp [hp])]
  have := hle pre
  have := hle post
  omega

section Passes

variable {σ : Type} {has : σ → RegId → Bool} {step : σ × Bool → Inst → σ × Bool}

/-- One step keeps the entries there are, and a change it reports is a new entry. -/
def AddsEntries (has : σ → RegId → Bool) (step : σ × Bool → Inst → σ × Bool) : Prop :=
  ∀ s i, (∀ r, has s.1 r = true → has (step s i).1 r = true) ∧
    ((step s i).2 = true → s.2 = true ∨
      ∃ r, i.derived = some r ∧ has s.1 r = false ∧ has (step s i).1 r = true)

theorem AddsEntries.foldl (h : AddsEntries has step) (insts : List Inst) (s : σ × Bool) :
    (∀ r, has s.1 r = true → has (insts.foldl step s).1 r = true) ∧
      ((insts.foldl step s).2 = true → s.2 = true ∨ ∃ i ∈ insts, ∃ r, i.derived = some r ∧
        has s.1 r = false ∧ has (insts.foldl step s).1 r = true) := by
  induction insts generalizing s with
  | nil => exact ⟨fun _ h => h, .inl⟩
  | cons i insts ih =>
    obtain ⟨hkeep, hnew⟩ := h s i
    obtain ⟨hkeep', hnew'⟩ := ih (step s i)
    refine ⟨fun r hr => hkeep' r (hkeep r hr), fun hchg => ?_⟩
    rcases hnew' hchg with hchg | ⟨j, hj, r, hr, hno, hyes⟩
    · rcases hnew hchg with hchg | ⟨r, hr, hno, hyes⟩
      · exact .inl hchg
      · exact .inr ⟨i, List.mem_cons_self, r, hr, hno, hkeep' r hyes⟩
    · refine .inr ⟨j, List.mem_cons_of_mem _ hj, r, hr, ?_, hyes⟩
      cases hs : has s.1 r with
      | false => rfl
      | true => rw [hkeep r hs] at hno; exact absurd hno (by simp)

theorem AddsEntries.settled (h : AddsEntries has step) (insts : List Inst) (s : σ) :
    ∃ t, (insts.foldl step (t, false)).2 = false ∧
      Lib.untilSettled (fun s => insts.foldl step (s, false)) (insts.length + 1) s =
        (insts.foldl step (t, false)).1 := by
  refine @Lib.untilSettled_settled _ _ (fun s => waiting insts (has s)) (fun s hchg => ?_) _ s
    (Nat.lt_succ_of_le (waiting_le _ _))
  obtain ⟨hkeep, hnew⟩ := h.foldl insts (s, false)
  rcases hnew hchg with hfalse | ⟨i, hi, r, hr, hno, hyes⟩
  · exact absurd hfalse (by simp)
  · exact waiting_lt hkeep hi hr hno hyes

end Passes

theorem relateInst_adds : AddsEntries (fun m r => (m r).isSome) relateInst := by
  have hrelate : ∀ (s : AliasMap × Bool) (dst : RegId) (base : Operand),
      (∀ r, (s.1 r).isSome = true → ((relate dst base s).1 r).isSome = true) ∧
        ((relate dst base s).2 = true → s.2 = true ∨
          (s.1 dst).isSome = false ∧ ((relate dst base s).1 dst).isSome = true) := by
    intro s dst base
    unfold relate
    split
    · split
      · refine ⟨fun r hr => ?_, fun hchg => ?_⟩
        · by_cases hrd : r = dst <;> simp [hrd, hr]
        · rcases Bool.or_eq_true_iff.mp hchg with hchg | hnone
          · exact .inl hchg
          · exact .inr ⟨by simpa using hnone, by simp⟩
      · exact ⟨fun _ h => h, .inl⟩
    · exact ⟨fun _ h => h, .inl⟩
  intro s i
  have hkeep : ∀ dst base, i.derived = some dst → relateInst s i = relate dst base s →
      (∀ r, (s.1 r).isSome = true → ((relateInst s i).1 r).isSome = true) ∧
        ((relateInst s i).2 = true → s.2 = true ∨
          ∃ r, i.derived = some r ∧ (s.1 r).isSome = false ∧ ((relateInst s i).1 r).isSome = true) := by
    intro dst base hdst heq
    obtain ⟨hkeep, hnew⟩ := hrelate s dst base
    rw [heq]
    exact ⟨hkeep, fun hchg => (hnew hchg).imp_right fun h => ⟨dst, hdst, h⟩⟩
  unfold relateInst at hkeep ⊢
  split
  · next dst base _ => exact hkeep dst base rfl rfl
  · next dst op => exact hkeep dst op rfl rfl
  · next dst _ op => exact hkeep dst op rfl rfl
  · exact ⟨fun _ h => h, .inl⟩

theorem addLocal_adds : AddsEntries (fun set r => decide (r ∈ set)) addLocal := by
  intro s i
  rw [addLocal]
  split
  · next d hd =>
    have hderived : i.derived = some d := by
      unfold localDst at hd
      split at hd <;> first | exact hd | (split_ifs at hd; exact hd) | cases hd
    refine ⟨fun r hr => ?_, fun hchg => ?_⟩
    · exact decide_eq_true (Finset.mem_insert_of_mem (of_decide_eq_true hr))
    · rcases Bool.or_eq_true_iff.mp hchg with hchg | hnew
      · exact .inl hchg
      · exact .inr ⟨d, hderived, by simpa using hnew, by simp⟩
  · exact ⟨fun _ h => h, .inl⟩

theorem ptrParamOf_settled (f : Function) : ∃ m, (f.insts.foldl relateInst (m, false)).2 = false ∧
    ptrParamOf f = (f.insts.foldl relateInst (m, false)).1 :=
  relateInst_adds.settled f.insts (paramAliases f)

theorem localAllocRegs_settled (f : Function) : ∃ set, (f.insts.foldl addLocal (set, false)).2 = false ∧
    localAllocRegs f = (f.insts.foldl addLocal (set, false)).1 :=
  addLocal_adds.settled f.insts ∅

end Summary

end Csolver
