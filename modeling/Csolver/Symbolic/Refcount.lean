import Csolver.Symbolic.Summary
import Csolver.Lib.SortedMap
import Mathlib.Data.ZMod.Basic

/-!
# Reference counts over the call tree (`crates/symbolic/src/summary/module.rs`, `perfn.rs`)

A summary says by how much a call changes the reference count of each pointer parameter's object. What
a function does itself is summed up first; the effects of the calls are then added in at most eight
rounds over the module, each from the result of the round before.
-/

namespace Csolver

open Lib

namespace Summary

/-- `Vec<(usize, u32, i64)>` in the order of its keys: parameter and protocol, and the change. -/
abbrev Effects := SortedMap (Nat ×ₗ Nat) Int

/-- The sum of two `i64` wraps. -/
def wrapI64 (x : Int) : Int := x.bmod (2 ^ 64)

/-- `*acc.entry(key).or_insert(0) += d`. -/
def addEffect (acc : Effects) (key : Nat ×ₗ Nat) (d : Int) : Effects :=
  acc.insert key (wrapI64 ((acc.get key).getD 0 + d))

def nonzero (acc : Effects) : Effects := acc.filter fun e => e.2 ≠ 0

/-- An operation on the reference count of a parameter. -/
def addRefcount (params : AliasMap) (acc : Effects) : Inst → Effects
  | .refcount (.reg r) protocol dec =>
    match params r with
    | some p => addEffect acc (toLex (p, protocol)) (if dec then -1 else 1)
    | none => acc
  | _ => acc

def refcountEffectOfFn (f : Function) : Effects := nonzero (f.insts.foldl (addRefcount (ptrParamOf f)) [])

/-- The `refcount_effect` of every summary. -/
abbrev Table := FuncId → Option Effects

/-- One entry of the callee, carried over to the parameter that is passed. -/
def addPassed (pof : AliasMap) (args : List Operand) (acc : Effects) (e : (Nat ×ₗ Nat) × Int) : Effects :=
  match args[(ofLex e.1).1]?.bind (argParam pof) with
  | some pj => addEffect acc (toLex (pj, (ofLex e.1).2)) e.2
  | none => acc

def addCall (snapshot : Table) (pof : AliasMap) (acc : Effects) (c : FuncId × List Operand) : Effects :=
  match snapshot c.1 with
  | some eff => eff.foldl (addPassed pof c.2) acc
  | none => acc

/-- `new_eff`: recomputed from the function's own effect. -/
def newEffects (snapshot : Table) (f : Function) : Effects :=
  nonzero (f.directCalls.foldl (addCall snapshot (ptrParamOf f)) (refcountEffectOfFn f))

def round (M : Module) (snapshot : Table) : Table := fun id => (M.function id).map (newEffects snapshot)

/-- The rounds, which end early when nothing has changed. -/
def refcountRounds (M : Module) : Nat → Table → Table
  | 0, t => t
  | n + 1, t =>
    let t' := round M t
    if M.functions.all fun f => decide (t' f.id = t f.id) then t' else refcountRounds M n t'

/-- The table that `summarize_module` ends with. -/
def refcountTable (M : Module) : Table :=
  refcountRounds M 8 fun id => (M.function id).map refcountEffectOfFn

/-- What a table says of a parameter and a protocol. -/
def Table.change (t : Table) (id : FuncId) (p protocol : Nat) : Int :=
  ((t id).bind fun eff => eff.get (toLex (p, protocol))).getD 0

/-! ## What the effects add up to -/

/-- A change for every function, parameter and protocol. -/
abbrev Change (A : Type) := FuncId → Nat → Nat → A

/-- The effect of one instruction on a parameter's object. -/
def Inst.change (params : AliasMap) (p protocol : Nat) : Inst → Int
  | .refcount (.reg r) q dec => if params r = some p ∧ q = protocol then (if dec then -1 else 1) else 0
  | _ => 0

def localEffect (f : Function) (p protocol : Nat) : Int :=
  (f.insts.map (Inst.change (ptrParamOf f) p protocol)).sum

/-- Argument `k` is the parameter `p` of the caller. -/
def Passes (f : Function) (args : List Operand) (k p : Nat) : Prop :=
  args[k]?.bind (argParam (ptrParamOf f)) = some p

instance (f : Function) (args : List Operand) (k p : Nat) : Decidable (Passes f args k p) :=
  inferInstanceAs (Decidable (_ = _))

/-- What the callees do to a parameter: a sum over the call sites that pass it on. -/
def viaCalls {A : Type} [AddCommMonoid A] (f : Function) (x : Change A) (p protocol : Nat) : A :=
  (f.directCalls.map fun c =>
    ∑ k ∈ Finset.range c.2.length, if Passes f c.2 k p then x c.1 k protocol else 0).sum

theorem viaCalls_add {A : Type} [AddCommMonoid A] (f : Function) (x y : Change A) (p protocol : Nat) :
    viaCalls f (x + y) p protocol = viaCalls f x p protocol + viaCalls f y p protocol := by
  rw [viaCalls, viaCalls, viaCalls, ← List.sum_map_add]
  congr 2
  funext c
  rw [← Finset.sum_add_distrib]
  exact Finset.sum_congr rfl fun k _ => by rw [ite_add_ite, add_zero]; rfl

/-- `viaCalls` for the functions of a module. -/
def calls {A : Type} [AddCommMonoid A] (M : Module) : Change A →+ Change A where
  toFun x := fun id p protocol => ((M.function id).map fun f => viaCalls f x p protocol).getD 0
  map_zero' := by
    funext id p protocol
    cases M.function id <;> simp [viaCalls]
  map_add' x y := by
    funext id p protocol
    simp only [Pi.add_apply]
    cases M.function id with
    | none => exact (add_zero 0).symm
    | some f => exact viaCalls_add f x y p protocol

variable (M : Module)

def own : Change Int := fun id p protocol => ((M.function id).map fun f => localEffect f p protocol).getD 0

/-- The effect of the functions at the end of the chains of exactly `k` calls. -/
def chainEffect (k : Nat) : Change Int := (calls M)^[k] (own M)

/-- The effect over the whole call tree, which has no chain with as many calls as there are functions. -/
def total : Change Int := ∑ k ∈ Finset.range M.functions.length, chainEffect M k

/-- What the chains of more than eight calls contribute. -/
def deep : Change Int := ∑ k ∈ Finset.Ico 9 M.functions.length, chainEffect M k

/-- A function calls another one of the module. -/
def Module.Calls (g h : FuncId) : Prop :=
  ∃ f, M.function g = some f ∧ (M.function h).isSome = true ∧ h ∈ f.directCalls.map (·.1)

/-- No function calls itself, directly or through others. -/
def Module.Acyclic : Prop := ∀ g, ¬ Relation.TransGen M.Calls g g

/-- The values of an `i64`. -/
def InI64 (x : Int) : Prop := -2 ^ 63 ≤ x ∧ x < 2 ^ 63

instance (x : Int) : Decidable (InI64 x) := inferInstanceAs (Decidable (_ ∧ _))

/-! ## The tables hold `i64` values under sorted keys -/

variable {M}

theorem wrapI64_inI64 (x : Int) : InI64 (wrapI64 x) := by
  have hlow := @Int.le_bmod x (2 ^ 64) (by decide)
  have hhigh := @Int.bmod_lt x (2 ^ 64) (by decide)
  constructor
  · exact le_trans (by decide) hlow
  · exact lt_of_lt_of_le hhigh (by decide)

theorem wrapI64_cast (x : Int) : ((wrapI64 x : Int) : ZMod (2 ^ 64)) = x := by
  apply (ZMod.intCast_eq_intCast_iff _ _ _).mpr
  exact Int.bmod_emod

/-- What every table of effects satisfies. -/
structure Effects.Ok (acc : Effects) : Prop where
  sorted : acc.Sorted
  inI64 : ∀ e ∈ acc, InI64 e.2

def Effects.at (acc : Effects) (p protocol : Nat) : Int := (acc.get (toLex (p, protocol))).getD 0

theorem Effects.Ok.nil : Effects.Ok [] := ⟨List.Pairwise.nil, fun _ h => absurd h List.not_mem_nil⟩

theorem Effects.Ok.addEffect {acc : Effects} (h : acc.Ok) (key : Nat ×ₗ Nat) (d : Int) :
    (addEffect acc key d).Ok := by
  refine ⟨h.sorted.insert _ _, fun e he => ?_⟩
  rcases SortedMap.mem_insert he with rfl | he
  · exact wrapI64_inI64 _
  · exact h.inI64 e he

theorem Effects.Ok.nonzero {acc : Effects} (h : acc.Ok) : (nonzero acc).Ok :=
  ⟨h.sorted.filter _, fun e he => h.inI64 e (List.mem_of_mem_filter he)⟩

theorem Effects.Ok.at_inI64 {acc : Effects} (h : acc.Ok) (p protocol : Nat) : InI64 (acc.at p protocol) := by
  rw [Effects.at]
  cases hget : acc.get (toLex (p, protocol)) with
  | none => exact ⟨by decide, by decide⟩
  | some d =>
    obtain ⟨_, he, rfl⟩ := SortedMap.exists_mem_of_get hget
    exact h.inI64 _ he

theorem Effects.Ok.foldl {α : Type} {step : Effects → α → Effects} (hstep : ∀ acc a, acc.Ok → (step acc a).Ok)
    (l : List α) {acc : Effects} (h : acc.Ok) : (l.foldl step acc).Ok := by
  induction l generalizing acc with
  | nil => exact h
  | cons a l ih => exact ih (hstep acc a h)

theorem addRefcount_ok (params : AliasMap) (acc : Effects) (i : Inst) (h : acc.Ok) :
    (addRefcount params acc i).Ok := by
  unfold addRefcount
  split
  · split
    · exact h.addEffect _ _
    · exact h
  · exact h

theorem addPassed_ok (pof : AliasMap) (args : List Operand) (acc : Effects) (e : (Nat ×ₗ Nat) × Int)
    (h : acc.Ok) : (addPassed pof args acc e).Ok := by
  unfold addPassed
  split
  · exact h.addEffect _ _
  · exact h

theorem addCall_ok (t : Table) (pof : AliasMap) (acc : Effects) (c : FuncId × List Operand) (h : acc.Ok) :
    (addCall t pof acc c).Ok := by
  unfold addCall
  split
  · exact Effects.Ok.foldl (addPassed_ok pof c.2) _ h
  · exact h

theorem refcountEffectOfFn_ok (f : Function) : (refcountEffectOfFn f).Ok :=
  (Effects.Ok.foldl (addRefcount_ok _) _ Effects.Ok.nil).nonzero

theorem newEffects_ok (t : Table) (f : Function) : (newEffects t f).Ok :=
  (Effects.Ok.foldl (addCall_ok t _) _ (refcountEffectOfFn_ok f)).nonzero

/-! ## What one step adds, modulo `2 ^ 64` -/

theorem addEffect_at (acc : Effects) (q r : Nat) (d : Int) (p protocol : Nat) :
    (((addEffect acc (toLex (q, r)) d).at p protocol : Int) : ZMod (2 ^ 64)) =
      (acc.at p protocol : Int) + ((if q = p ∧ r = protocol then d else 0 : Int) : ZMod (2 ^ 64)) := by
  rw [addEffect, Effects.at, Effects.at, SortedMap.get_insert]
  by_cases hkey : toLex (p, protocol) = toLex (q, r)
  · obtain ⟨rfl, rfl⟩ := Prod.mk.inj (toLex.injective hkey)
    rw [if_pos rfl, if_pos ⟨rfl, rfl⟩, Option.getD_some, wrapI64_cast, Int.cast_add]
  · rw [if_neg hkey, if_neg (fun h => hkey (by rw [h.1, h.2])), Int.cast_zero, add_zero]

theorem nonzero_at {acc : Effects} (h : acc.Sorted) (p protocol : Nat) :
    (nonzero acc).at p protocol = acc.at p protocol := by
  have hkept : ∀ d, (nonzero acc).get (toLex (p, protocol)) = some d →
      acc.get (toLex (p, protocol)) = some d ∧ d ≠ 0 := by
    intro d hd
    obtain ⟨_, he, rfl⟩ := SortedMap.exists_mem_of_get hd
    obtain ⟨hmem, hne⟩ := List.mem_filter.mp he
    exact ⟨h.get_of_mem hmem, by simpa using hne⟩
  rw [Effects.at, Effects.at]
  cases hget' : (nonzero acc).get (toLex (p, protocol)) with
  | some d => rw [(hkept d hget').1]
  | none =>
    cases hget : acc.get (toLex (p, protocol)) with
    | none => rfl
    | some d =>
      -- an entry that is dropped is zero
      by_contra hne
      obtain ⟨_, he, rfl⟩ := SortedMap.exists_mem_of_get hget
      have hd : d ≠ 0 := fun h => hne h.symm
      have hmem : (toLex (p, protocol), d) ∈ nonzero acc := List.mem_filter.mpr ⟨he, decide_eq_true hd⟩
      have hsome := SortedMap.Sorted.get_of_mem (h.filter _) hmem
      exact absurd (hget'.symm.trans hsome) (by simp)

theorem addRefcount_at (params : AliasMap) (acc : Effects) (i : Inst) (p protocol : Nat) :
    (((addRefcount params acc i).at p protocol : Int) : ZMod (2 ^ 64)) =
      (acc.at p protocol : Int) + (i.change params p protocol : Int) := by
  unfold addRefcount Inst.change
  split
  · next r q dec =>
    cases hr : params r with
    | none => simp
    | some k =>
      simp only [addEffect_at, Option.some.injEq]
  · simp

theorem refcountEffectOfFn_at (f : Function) (p protocol : Nat) :
    (((refcountEffectOfFn f).at p protocol : Int) : ZMod (2 ^ 64)) = (localEffect f p protocol : Int) := by
  have hsum : ∀ (l : List Inst) (acc : Effects),
      (((l.foldl (addRefcount (ptrParamOf f)) acc).at p protocol : Int) : ZMod (2 ^ 64)) =
        (acc.at p protocol : Int) + ((l.map (Inst.change (ptrParamOf f) p protocol)).sum : Int) := by
    intro l
    induction l with
    | nil => simp
    | cons i l ih =>
      intro acc
      rw [List.foldl_cons, ih, addRefcount_at, List.map_cons, List.sum_cons, Int.cast_add, add_assoc]
  rw [refcountEffectOfFn, nonzero_at (Effects.Ok.foldl (addRefcount_ok _) _ Effects.Ok.nil).sorted, hsum, localEffect]
  simp [Effects.at, SortedMap.get]

theorem toLex_eq_iff {k protocol : Nat} {key : Nat ×ₗ Nat} :
    toLex (k, protocol) = key ↔ k = (ofLex key).1 ∧ protocol = (ofLex key).2 := by
  rw [← Prod.mk.injEq]
  exact Iff.rfl

theorem sum_entries {eff : Effects} (h : eff.Sorted) {n : Nat} (P : Nat → Prop) [DecidablePred P]
    (hP : ∀ k, P k → k < n) (protocol : Nat) :
    (eff.map fun e => if P (ofLex e.1).1 ∧ (ofLex e.1).2 = protocol then e.2 else 0).sum =
      ∑ k ∈ Finset.range n, if P k then eff.at k protocol else 0 := by
  induction eff with
  | nil => simp [Effects.at, SortedMap.get]
  | cons e eff ih =>
    obtain ⟨hlt, hsorted⟩ := List.pairwise_cons.mp h
    have hcons : ∀ k, Effects.at (e :: eff) k protocol =
        (if k = (ofLex e.1).1 ∧ protocol = (ofLex e.1).2 then e.2 else 0) + Effects.at eff k protocol := by
      intro k
      rw [Effects.at, Effects.at, SortedMap.get]
      by_cases hkey : toLex (k, protocol) = e.1
      · have hnone : SortedMap.get eff e.1 = none := SortedMap.Sorted.get_eq_none hlt
        rw [if_pos hkey, if_pos (toLex_eq_iff.mp hkey), hkey, hnone]
        simp
      · rw [if_neg hkey, if_neg (fun h => hkey (toLex_eq_iff.mpr h)), zero_add]
    have hfirst : (∑ k ∈ Finset.range n,
          if P k then (if k = (ofLex e.1).1 ∧ protocol = (ofLex e.1).2 then e.2 else 0) else 0) =
        if P (ofLex e.1).1 ∧ (ofLex e.1).2 = protocol then e.2 else 0 := by
      rw [Finset.sum_eq_single (ofLex e.1).1]
      · by_cases hq : P (ofLex e.1).1 <;> simp [hq, eq_comm]
      · intro k _ hk
        simp [hk]
      · intro hq
        rw [if_neg fun h => hq (Finset.mem_range.mpr (hP _ h))]
    rw [List.map_cons, List.sum_cons, ih hsorted, ← hfirst, ← Finset.sum_add_distrib]
    refine Finset.sum_congr rfl fun k _ => ?_
    rw [hcons]
    by_cases hk : P k <;> simp [hk]

theorem addPassed_at (f : Function) (args : List Operand) (acc : Effects) (e : (Nat ×ₗ Nat) × Int)
    (p protocol : Nat) :
    (((addPassed (ptrParamOf f) args acc e).at p protocol : Int) : ZMod (2 ^ 64)) = (acc.at p protocol : Int) +
      ((if Passes f args (ofLex e.1).1 p ∧ (ofLex e.1).2 = protocol then e.2 else 0 : Int) : ZMod (2 ^ 64)) := by
  unfold addPassed
  split
  · next pj hpj =>
    have hiff : Passes f args (ofLex e.1).1 p ↔ pj = p := by rw [Passes, hpj, Option.some.injEq]
    simp only [addEffect_at, hiff]
  · next hnone =>
    have hno : ¬ Passes f args (ofLex e.1).1 p := by simp [Passes, hnone]
    simp [hno]

theorem Passes.lt {f : Function} {args : List Operand} {k p : Nat} (h : Passes f args k p) : k < args.length := by
  obtain ⟨op, hop, _⟩ := Option.bind_eq_some_iff.mp h
  exact (List.getElem?_eq_some_iff.mp hop).1

theorem addCall_at {t : Table} (ht : ∀ id eff, t id = some eff → eff.Ok) (f : Function) (acc : Effects)
    (c : FuncId × List Operand) (p protocol : Nat) :
    (((addCall t (ptrParamOf f) acc c).at p protocol : Int) : ZMod (2 ^ 64)) = (acc.at p protocol : Int) +
      ((∑ k ∈ Finset.range c.2.length, if Passes f c.2 k p then t.change c.1 k protocol else 0 : Int) :
        ZMod (2 ^ 64)) := by
  have hsum : ∀ (eff acc : Effects),
      (((eff.foldl (addPassed (ptrParamOf f) c.2) acc).at p protocol : Int) : ZMod (2 ^ 64)) =
        (acc.at p protocol : Int) + ((eff.map fun e =>
          if Passes f c.2 (ofLex e.1).1 p ∧ (ofLex e.1).2 = protocol then e.2 else 0).sum : Int) := by
    intro eff
    induction eff with
    | nil => simp
    | cons e eff ih =>
      intro acc
      rw [List.foldl_cons, ih, addPassed_at, List.map_cons, List.sum_cons, Int.cast_add, add_assoc]
  unfold addCall
  cases heff : t c.1 with
  | none => simp [Table.change, heff]
  | some eff =>
    simp only [hsum]
    rw [sum_entries (ht _ _ heff).sorted (fun k => Passes f c.2 k p) (fun k hk => hk.lt)]
    simp [Table.change, heff, Effects.at]

/-! ## A round -/

/-- The tables that occur: one entry for each function of the module. -/
structure Table.Ok (M : Module) (t : Table) : Prop where
  ok : ∀ id eff, t id = some eff → eff.Ok
  none : ∀ id, M.function id = none → t id = none

/-- The changes of a table, as far as `i64` holds them. -/
def Table.residues (t : Table) : Change (ZMod (2 ^ 64)) := fun id p protocol => (t.change id p protocol : Int)

theorem Table.Ok.start (M : Module) : Table.Ok M fun id => (M.function id).map refcountEffectOfFn where
  ok id eff h := by
    obtain ⟨f, _, rfl⟩ := Option.map_eq_some_iff.mp h
    exact refcountEffectOfFn_ok f
  none id h := by rw [h]; rfl

theorem Table.Ok.round (M : Module) (t : Table) : Table.Ok M (round M t) where
  ok id eff h := by
    obtain ⟨f, _, rfl⟩ := Option.map_eq_some_iff.mp h
    exact newEffects_ok t f
  none id h := by rw [Summary.round, h]; rfl

def toResidue : Change Int →+ Change (ZMod (2 ^ 64)) where
  toFun x := fun id p protocol => (x id p protocol : ZMod (2 ^ 64))
  map_zero' := by funext id p protocol; exact Int.cast_zero
  map_add' x y := by funext id p protocol; exact Int.cast_add _ _

theorem viaCalls_residue (f : Function) (x : Change Int) (p protocol : Nat) :
    ((viaCalls f x p protocol : Int) : ZMod (2 ^ 64)) = viaCalls f (toResidue x) p protocol := by
  refine (map_list_sum (Int.castAddHom (ZMod (2 ^ 64))) _).trans ?_
  rw [viaCalls, List.map_map]
  congr 2
  funext c
  refine (map_sum (Int.castAddHom (ZMod (2 ^ 64))) _ _).trans (Finset.sum_congr rfl fun k _ => ?_)
  split
  · rfl
  · exact Int.cast_zero

theorem newEffects_at {t : Table} (ht : ∀ id eff, t id = some eff → eff.Ok) (f : Function) (p protocol : Nat) :
    (((newEffects t f).at p protocol : Int) : ZMod (2 ^ 64)) =
      (localEffect f p protocol : Int) + viaCalls f t.residues p protocol := by
  have hsum : ∀ (l : List (FuncId × List Operand)) (acc : Effects),
      (((l.foldl (addCall t (ptrParamOf f)) acc).at p protocol : Int) : ZMod (2 ^ 64)) =
        (acc.at p protocol : Int) + ((l.map fun c =>
          ∑ k ∈ Finset.range c.2.length, if Passes f c.2 k p then t.change c.1 k protocol else 0).sum : Int) := by
    intro l
    induction l with
    | nil => simp
    | cons c l ih =>
      intro acc
      rw [List.foldl_cons, ih, addCall_at ht, List.map_cons, List.sum_cons, Int.cast_add, add_assoc]
  rw [newEffects, nonzero_at (Effects.Ok.foldl (addCall_ok t _) _ (refcountEffectOfFn_ok f)).sorted, hsum,
    refcountEffectOfFn_at]
  congr 1
  exact viaCalls_residue f t.change p protocol

theorem start_residues (M : Module) :
    Table.residues (fun id => (M.function id).map refcountEffectOfFn) = toResidue (own M) := by
  funext id p protocol
  simp only [Table.residues, Table.change, toResidue, own, AddMonoidHom.coe_mk, ZeroHom.coe_mk]
  cases M.function id with
  | none => rfl
  | some f => exact refcountEffectOfFn_at f p protocol

theorem round_residues {t : Table} (ht : t.Ok M) :
    (round M t).residues = toResidue (own M) + calls M t.residues := by
  funext id p protocol
  simp only [Table.residues, Table.change, toResidue, own, calls, Summary.round, AddMonoidHom.coe_mk,
    ZeroHom.coe_mk, Pi.add_apply]
  cases M.function id with
  | none => exact (add_zero _).symm
  | some f => exact newEffects_at ht.ok f p protocol

theorem refcountRounds_eq (M : Module) (n : Nat) {t : Table} (ht : t.Ok M) :
    refcountRounds M n t = (round M)^[n] t := by
  induction n generalizing t with
  | zero => rfl
  | succ n ih =>
    rw [refcountRounds, Function.iterate_succ_apply]
    split
    · next hall =>
      have hfix : round M t = t := by
        funext id
        cases hid : M.function id with
        | none => rw [(Table.Ok.round M t).none id hid, ht.none id hid]
        | some f =>
          obtain ⟨hmem, rfl⟩ := Module.function_eq_some.mp hid
          exact of_decide_eq_true (List.all_eq_true.mp hall f hmem)
      rw [hfix, Function.iterate_fixed hfix]
    · exact ih (Table.Ok.round M t)

theorem rounds_residues {t : Table} (ht : t.Ok M) (hstart : t.residues = toResidue (own M)) (n : Nat) :
    ((round M)^[n] t).Ok M ∧
      ((round M)^[n] t).residues = Rounds.rounds (calls M) (toResidue (own M)) n := by
  induction n with
  | zero => exact ⟨ht, hstart⟩
  | succ n ih =>
    rw [Function.iterate_succ_apply']
    exact ⟨Table.Ok.round M _, by rw [round_residues ih.1, ih.2, Rounds.rounds]⟩

theorem calls_residue (x : Change Int) : toResidue (calls M x) = calls M (toResidue x) := by
  funext id p protocol
  simp only [toResidue, calls, AddMonoidHom.coe_mk, ZeroHom.coe_mk]
  cases M.function id with
  | none => exact Int.cast_zero
  | some f => exact viaCalls_residue f x p protocol

theorem refcountTable_residues (M : Module) :
    (refcountTable M).Ok M ∧
      (refcountTable M).residues = toResidue (∑ k ∈ Finset.range 9, chainEffect M k) := by
  have hrounds := rounds_residues (Table.Ok.start M) (start_residues M) 8
  rw [refcountTable, refcountRounds_eq M 8 (Table.Ok.start M)]
  refine ⟨hrounds.1, hrounds.2.trans ?_⟩
  rw [Rounds.rounds_eq_sum, map_sum]
  exact Finset.sum_congr rfl fun k _ => (Rounds.map_iterate calls_residue k).symm

/-! ## Chains of calls -/

theorem exists_path {k : Nat} {id : FuncId} {p protocol : Nat} (h : chainEffect M k id p protocol ≠ 0) :
    ∃ l : List FuncId, l.length = k + 1 ∧ l.head? = some id ∧ l.IsChain M.Calls ∧
      ∀ g ∈ l, (M.function g).isSome = true := by
  induction k generalizing id p with
  | zero =>
    refine ⟨[id], rfl, rfl, List.isChain_singleton _, fun g hg => ?_⟩
    obtain rfl := List.mem_singleton.mp hg
    cases hid : M.function g with
    | none => exact absurd (by simp [chainEffect, own, hid]) h
    | some f => rfl
  | succ k ih =>
    rw [chainEffect, Function.iterate_succ_apply'] at h
    cases hid : M.function id with
    | none => exact absurd (by simp [calls, hid]) h
    | some f =>
      have hsum : viaCalls f (chainEffect M k) p protocol ≠ 0 := by
        intro h0
        refine h ?_
        simp only [calls, AddMonoidHom.coe_mk, ZeroHom.coe_mk, hid]
        exact h0
      -- some call site, and some argument that it passes on, contribute
      obtain ⟨c, hc, hne⟩ : ∃ c ∈ f.directCalls,
          (∑ j ∈ Finset.range c.2.length, if Passes f c.2 j p then chainEffect M k c.1 j protocol else 0) ≠ 0 := by
        by_contra hno
        simp only [not_exists, not_and, not_not] at hno
        refine hsum (List.sum_eq_zero fun x hx => ?_)
        obtain ⟨c, hc, rfl⟩ := List.mem_map.mp hx
        exact hno c hc
      obtain ⟨j, _, hj⟩ := Finset.exists_ne_zero_of_sum_ne_zero hne
      have hchain : chainEffect M k c.1 j protocol ≠ 0 := fun h0 => hj (by rw [h0, ite_self])
      obtain ⟨l, hlen, hhead, hl, hall⟩ := ih hchain
      obtain ⟨g, rest, rfl⟩ := List.exists_cons_of_length_eq_add_one hlen
      obtain rfl : g = c.1 := Option.some.inj hhead
      refine ⟨id :: c.1 :: rest, by simpa using hlen, rfl, ?_, fun g hg => ?_⟩
      · exact List.isChain_cons_cons.mpr
          ⟨⟨f, hid, hall _ List.mem_cons_self, List.mem_map_of_mem hc⟩, hl⟩
      · rcases List.mem_cons.mp hg with rfl | hg
        · simp [hid]
        · exact hall g hg

theorem chainEffect_eq_zero (h : M.Acyclic) {k : Nat} (hk : M.functions.length ≤ k) : chainEffect M k = 0 := by
  funext id p protocol
  by_contra hne
  obtain ⟨l, hlen, _, hchain, hall⟩ := exists_path hne
  have hnodup : l.Nodup := by
    have htrans : l.IsChain (Relation.TransGen M.Calls) := hchain.imp fun _ _ => Relation.TransGen.single
    refine htrans.pairwise.imp ?_
    rintro a _ hab rfl
    exact h a hab
  have hsub : l ⊆ M.functions.map (·.id) := by
    intro g hg
    obtain ⟨f, hf⟩ := Option.isSome_iff_exists.mp (hall g hg)
    obtain ⟨hmem, rfl⟩ := Module.function_eq_some.mp hf
    exact List.mem_map_of_mem hmem
  have hle := (List.subperm_of_subset hnodup hsub).length_le
  rw [List.length_map] at hle
  omega

theorem total_eq (h : M.Acyclic) {f : Function} (hf : f ∈ M.functions) (p protocol : Nat) :
    total M f.id p protocol = localEffect f p protocol + viaCalls f (total M) p protocol := by
  have hsolves : total M = own M + calls M (total M) :=
    Rounds.sum_solves (chainEffect_eq_zero h (le_refl _))
  have hat := congrFun (congrFun (congrFun hsolves f.id) p) protocol
  rw [hat]
  simp [own, calls, Module.function_of_mem hf]

theorem sum_add_deep (h : M.Acyclic) : ∑ k ∈ Finset.range 9, chainEffect M k + deep M = total M := by
  rw [deep, total]
  rcases Nat.le_total 9 M.functions.length with hle | hle
  · exact Finset.sum_range_add_sum_Ico _ hle
  · rw [Finset.Ico_eq_empty_of_le hle, Finset.sum_empty, add_zero]
    refine (Finset.sum_subset (Finset.range_subset_range.mpr hle) fun k _ hk => ?_).symm
    exact chainEffect_eq_zero h (not_lt.mp fun hlt => hk (Finset.mem_range.mpr hlt))

theorem inI64_eq_of_dvd {x y : Int} (hx : InI64 x) (hy : InI64 y) (h : (2 ^ 64 : Int) ∣ x - y) : x = y := by
  obtain ⟨hx1, hx2⟩ := hx
  obtain ⟨hy1, hy2⟩ := hy
  obtain ⟨c, hc⟩ := h
  omega

theorem total_sub_change_dvd (h : M.Acyclic) (id : FuncId) (p protocol : Nat) :
    (2 ^ 64 : Int) ∣ total M id p protocol - (refcountTable M).change id p protocol - deep M id p protocol := by
  have hres := congrFun (congrFun (congrFun (refcountTable_residues M).2 id) p) protocol
  have hcast : (((refcountTable M).change id p protocol : Int) : ZMod (2 ^ 64)) =
      ((∑ k ∈ Finset.range 9, chainEffect M k) id p protocol : Int) := hres
  rw [ZMod.intCast_eq_intCast_iff_dvd_sub] at hcast
  rw [← sum_add_deep h, Pi.add_apply, Pi.add_apply, Pi.add_apply]
  refine hcast.trans (dvd_of_eq ?_)
  omega

theorem change_inI64 {t : Table} (ht : t.Ok M) (id : FuncId) (p protocol : Nat) : InI64 (t.change id p protocol) := by
  rw [Table.change]
  cases hid : t id with
  | none =>
    show InI64 0
    exact ⟨by decide, by decide⟩
  | some eff => exact (ht.ok id eff hid).at_inI64 p protocol

/-- A function hands its pointer to the next one; the last one takes a reference. -/
def nestedFunction (n i : Nat) : Function where
  id := i
  params := [(0, .ptr .unit)]
  blocks := [{
    id := 0
    insts := if i < n then [.call none (.direct (i + 1)) [.reg 0]] else [.refcount (.reg 0) 7 false]
    term := .ret none }]
  entry := 0

def nestedCalls (n : Nat) : Module where
  functions := (List.range (n + 1)).map (nestedFunction n)
  ids_nodup := by
    rw [List.map_map]
    simpa [Function.comp_def, nestedFunction] using List.nodup_range

theorem nestedCalls_acyclic (n : Nat) : (nestedCalls n).Acyclic := by
  have hstep : ∀ g h, (nestedCalls n).Calls g h → g < h := by
    rintro g h ⟨f, hf, _, hh⟩
    obtain ⟨hmem, rfl⟩ := Module.function_eq_some.mp hf
    obtain ⟨i, _, rfl⟩ := List.mem_map.mp hmem
    have hcalls : ∀ c ∈ (nestedFunction n i).directCalls, c.1 = i + 1 := by
      intro c hc
      by_cases hi : i < n <;>
        simp [Function.directCalls, Function.observableInsts, nestedFunction, Block.observable, hi] at hc
      rw [hc]
    obtain ⟨c, hc, rfl⟩ := List.mem_map.mp hh
    rw [hcalls c hc]
    exact Nat.lt_succ_self i
  intro g hg
  have hlt : ∀ h, Relation.TransGen (nestedCalls n).Calls g h → g < h := by
    intro h hgh
    induction hgh with
    | single hab => exact hstep _ _ hab
    | tail _ hbc ih => exact ih.trans (hstep _ _ hbc)
  exact Nat.lt_irrefl g (hlt g hg)

end Summary

end Csolver
