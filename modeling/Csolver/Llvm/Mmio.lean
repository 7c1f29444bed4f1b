import Csolver.Lib.Tables
import Csolver.Llvm.Ast
import Csolver.Solver.Widths

/-!
# MMIO dispatch handlers (`collect_mmio_handlers` of `lower.rs`, and what `exec/driver.rs` assumes of them)

A registration names a table of handlers and the size of a region. The sizes are collected table by table and then
handed to the handlers of each table. Both steps keep one value: the first constant size of a table, and the last
table that holds a handler.
-/

namespace Csolver

namespace Llvm

open Lib

/-- A call instruction. -/
structure LCall where
  callee : String
  args : List LValue

/-- `LGlobal`: its name and the symbols at its byte offsets. -/
structure LGlobal where
  name : String
  fnPtrs : List (Nat × String)

/-- `LModule`: the calls of each function in order, and the globals. -/
structure LModule where
  funcs : List (List LCall)
  globals : List LGlobal

structure MmioHandler where
  regionSize : Option Nat
  sizeParam : Nat
  deriving DecidableEq

namespace Mmio

/-- `reg_site`: where a registration function takes the `ops` global and the size. -/
def regSite (callee : String) : Option (Nat × Nat) :=
  if callee = "memory_region_init_io" then some (2, 5)
  else if callee = "register_init_block8" ∨ callee = "register_init_block32" ∨ callee = "register_init_block64" then
    some (5, 7)
  else none

/-- The size of a registration, when it is constant. -/
def constantSize : Option LValue → Option Nat
  | some (.int n) => if 0 ≤ n then some (n.toNat % 2 ^ 64) else none
  | _ => none

/-- A registration: the table, and the size if it is constant. -/
def registration (call : LCall) : Option (String × Option Nat) :=
  match regSite call.callee with
  | none => none
  | some (opsIdx, sizeIdx) =>
    match call.args[opsIdx]? with
    | some (.global ops) => some (ops, constantSize call.args[sizeIdx]?)
    | _ => none

/-- One instruction of the first loop. -/
def enterSize (sizes : Table String (Option Nat)) (call : LCall) : Table String (Option Nat) :=
  match registration call with
  | none => sizes
  | some (ops, size) =>
    -- `entry(ops).or_insert(None)`
    let e := (sizes.lookup ops).getD none
    sizes.insert ops (if e.isNone then size else e)

def opsSize (m : LModule) : Table String (Option Nat) := m.funcs.flatten.foldl enterSize ∅

def sizeParamOf (off : Nat) : Option Nat :=
  if off = 0 ∨ off = 8 then some 2 else if off = 16 ∨ off = 24 then some 3 else none

def enterHandler (size : Option Nat) (handlers : Table String MmioHandler) (field : Nat × String) :
    Table String MmioHandler :=
  match sizeParamOf field.1 with
  | none => handlers
  | some k => handlers.insert field.2 ⟨size, k⟩

def enterGlobal (sizes : Table String (Option Nat)) (handlers : Table String MmioHandler) (g : LGlobal) :
    Table String MmioHandler :=
  match sizes.lookup g.name with
  | none => handlers
  | some size => g.fnPtrs.foldl (enterHandler size) handlers

def collectMmioHandlers (m : LModule) : Table String MmioHandler := m.globals.foldl (enterGlobal (opsSize m)) ∅

/-! ## The facts about a handler -/

/-- The value that an integer parameter starts with. -/
def argSym (i w : Nat) : Expr := .sym ("arg" ++ toString i) w

/-- The facts that `discharge_inner` pushes; `params` holds the widths of the integer parameters. -/
def mmioFacts (handler : MmioHandler) (params : List (Option Nat)) : List Expr :=
  match params[1]?, params[handler.sizeParam]? with
  | some (some aw), some (some sw) =>
    let addr := argSym 1 aw
    let size := argSym handler.sizeParam sw
    let bounds := [.mkCmp .ule (.int sw 1) size, .mkCmp .ule size (.int sw 8)]
    match handler.regionSize with
    | none => bounds
    | some bytes =>
      let size64 := if sw < 64 then size.mkZext 64 else size
      let cap := .int 64 bytes
      bounds ++ [.mkCmp .ule addr cap, .mkCmp .ule (.mkBin .add addr size64) cap]
  | _, _ => []

/-! ## Registrations and dispatches -/

/-- The sizes that a registration can register: its constant, or whatever it is passed. -/
def Registers (call : LCall) (s : Nat) : Prop :=
  s < 2 ^ 64 ∧ ∃ i j, regSite call.callee = some (i, j) ∧
    match call.args[j]? with
    | some (.int n) => (s : Int) = n % 2 ^ 64
    | _ => True

/-- A dispatch to a handler whose access size is parameter `k`, into a region of `s` bytes. -/
def Dispatch (params : List (Option Nat)) (k s : Nat) (ρ : Valuation) : Prop :=
  ∃ addr size, 1 ≤ size ∧ size ≤ 8 ∧ addr + size ≤ s ∧
    (∀ w, params[1]? = some (some w) → (argSym 1 w).eval ρ = addr) ∧
    ∀ w, params[k]? = some (some w) → (argSym k w).eval ρ = size

/-- `call` registers a table that holds `h` as a handler with the access size at parameter `k`. -/
def RegisteredAt (m : LModule) (h : String) (call : LCall) (k : Nat) : Prop :=
  call ∈ m.funcs.flatten ∧ ∃ g ∈ m.globals, (∃ size, registration call = some (g.name, size)) ∧
    ∃ off, (off, h) ∈ g.fnPtrs ∧ sizeParamOf off = some k

/-- Every dispatch that a registration permits satisfies the facts. -/
def FactsHold (m : LModule) (h : String) (handler : MmioHandler) (params : List (Option Nat)) : Prop :=
  ∀ call k, RegisteredAt m h call k → ∀ s, Registers call s → ∀ ρ, Dispatch params k s ρ →
    ∀ f ∈ mmioFacts handler params, f.Holds ρ

/-! ## What is kept -/

/-- The constant sizes with which `ops` is registered, in order. -/
def constantSizes (calls : List LCall) (ops : String) : List Nat :=
  calls.filterMap fun call =>
    match registration call with
    | some (o, size) => if o = ops then size else none
    | none => none

def registered (calls : List LCall) (ops : String) : Bool :=
  calls.any fun call => (registration call).any fun r => r.1 = ops

/-- The fields of a table that hold `h`, as the parameter of the access size. -/
def fieldParams (fields : List (Nat × String)) (h : String) : List Nat :=
  fields.filterMap fun field => if field.2 = h then sizeParamOf field.1 else none

/-- The registered tables that hold `h`, in order, with the parameter of the access size. -/
def entries (calls : List LCall) (globals : List LGlobal) (h : String) : List (String × Nat) :=
  globals.flatMap fun g => if registered calls g.name then (fieldParams g.fnPtrs h).map fun k => (g.name, k) else []

/-- What a region of `s` bytes needs for its dispatches, with the access size at parameter `k'`, to satisfy the facts
about `R` bytes and parameter `k`. -/
def Fits (params : List (Option Nat)) (R k k' s : Nat) : Prop :=
  ∀ aw sw, params[1]? = some (some aw) → params[k]? = some (some sw) →
    s = 0 ∨ k' = k ∧ 4 ≤ sw ∧ min s (2 ^ aw - 1) ≤ R % 2 ^ aw

/-- Every registration of `h` fits the first constant size of the last table that holds it. -/
def Covered (m : LModule) (h : String) (params : List (Option Nat)) : Prop :=
  ∀ ops k R, (entries m.funcs.flatten m.globals h).getLast? = some (ops, k) →
    (constantSizes m.funcs.flatten ops).head? = some R →
    ∀ call k', RegisteredAt m h call k' → ∀ s, Registers call s → Fits params R k k' s

end Mmio

end Llvm

/-! ## When the facts about an MMIO handler cover its registrations

What is recorded for a handler is the first constant size of the last registered table that holds it. So the facts
hold in every dispatch exactly when every registration of the handler fits that size, at that parameter.
-/

namespace Llvm

namespace Mmio

open Lib

variable {calls : List LCall} {m : LModule} {h ops : String}

/-! ## What is recorded -/

theorem constantSizes_append (calls calls' : List LCall) (ops : String) :
    constantSizes (calls ++ calls') ops = constantSizes calls ops ++ constantSizes calls' ops :=
  List.filterMap_append

theorem registered_append (calls calls' : List LCall) (ops : String) :
    registered (calls ++ calls') ops = (registered calls ops || registered calls' ops) :=
  List.any_append

theorem constantSizes_of_not_registered (h : registered calls ops = false) : constantSizes calls ops = [] := by
  rw [constantSizes, List.filterMap_eq_nil_iff]
  intro call hcall
  have hnot := List.any_eq_false.mp h call hcall
  cases hr : registration call with
  | none => rfl
  | some r =>
    rw [hr] at hnot
    have hne : r.1 ≠ ops := by simpa using hnot
    exact if_neg hne

theorem lookup_opsSize (ops : String) (calls : List LCall) :
    (calls.foldl enterSize ∅).lookup ops =
      if registered calls ops then some (constantSizes calls ops).head? else none := by
  induction calls using List.reverseRecOn with
  | nil => rfl
  | append_singleton calls call ih =>
    rw [List.foldl_append, List.foldl_cons, List.foldl_nil, constantSizes_append, registered_append, List.head?_append]
    cases hr : registration call with
    | none =>
      have h1 : registered [call] ops = false := by simp [registered, hr]
      have h2 : constantSizes [call] ops = [] := constantSizes_of_not_registered h1
      rw [enterSize, hr, h1, h2, Bool.or_false, List.head?_nil, Option.or_none, ih]
    | some r =>
      obtain ⟨o, size⟩ := r
      rw [enterSize, hr]
      by_cases ho : o = ops
      · subst ho
        have h1 : registered [call] o = true := by simp [registered, hr]
        have h2 : (constantSizes [call] o).head? = size := by
          cases size <;> simp [constantSizes, hr]
        rw [h1, h2, Bool.or_true, if_pos rfl, AList.lookup_insert, ih]
        cases hreg : registered calls o with
        | true => cases hs : (constantSizes calls o).head? <;> simp
        | false => simp [constantSizes_of_not_registered hreg]
      · have h1 : registered [call] ops = false := by simp [registered, hr, ho]
        have h2 : constantSizes [call] ops = [] := constantSizes_of_not_registered h1
        rw [AList.lookup_insert_ne (Ne.symm ho), h1, h2, Bool.or_false, List.head?_nil, Option.or_none, ih]

theorem fieldParams_append (fields fields' : List (Nat × String)) (h : String) :
    fieldParams (fields ++ fields') h = fieldParams fields h ++ fieldParams fields' h :=
  List.filterMap_append

theorem lookup_fields (size : Option Nat) (t : Table String MmioHandler) (h : String) (fields : List (Nat × String)) :
    (fields.foldl (enterHandler size) t).lookup h =
      ((fieldParams fields h).getLast?.map fun k => ⟨size, k⟩).or (t.lookup h) := by
  induction fields using List.reverseRecOn with
  | nil => rfl
  | append_singleton fields field ih =>
    rw [List.foldl_append, List.foldl_cons, List.foldl_nil, fieldParams_append, List.getLast?_append, enterHandler]
    cases hk : sizeParamOf field.1 with
    | none =>
      have hnil : fieldParams [field] h = [] := by simp [fieldParams, hk]
      rw [hnil, List.getLast?_nil, Option.none_or, ih]
    | some k =>
      by_cases hh : field.2 = h
      · subst hh
        have hone : fieldParams [field] field.2 = [k] := by simp [fieldParams, hk]
        rw [hone, AList.lookup_insert]
        rfl
      · have hnil : fieldParams [field] h = [] := by simp [fieldParams, hh]
        rw [hnil, List.getLast?_nil, Option.none_or, AList.lookup_insert_ne (Ne.symm hh), ih]

theorem lookup_globals (calls : List LCall) (h : String) (globals : List LGlobal) :
    (globals.foldl (enterGlobal (calls.foldl enterSize ∅)) ∅).lookup h =
      (entries calls globals h).getLast?.map fun e => ⟨(constantSizes calls e.1).head?, e.2⟩ := by
  induction globals using List.reverseRecOn with
  | nil => rfl
  | append_singleton globals g ih =>
    rw [List.foldl_append, List.foldl_cons, List.foldl_nil, entries, List.flatMap_append, ← entries, List.getLast?_append,
      enterGlobal, lookup_opsSize]
    cases hreg : registered calls g.name with
    | false => simp [hreg, ih]
    | true =>
      simp only [if_true, List.flatMap_singleton, hreg, List.getLast?_map]
      rw [lookup_fields, ih]
      cases (fieldParams g.fnPtrs h).getLast? <;> simp

theorem lookup_collectMmioHandlers (m : LModule) (h : String) :
    (collectMmioHandlers m).lookup h = (entries m.funcs.flatten m.globals h).getLast?.map fun e =>
      ⟨(constantSizes m.funcs.flatten e.1).head?, e.2⟩ :=
  lookup_globals m.funcs.flatten h m.globals

/-! ## The facts -/

theorem eval_argSym_lt (ρ : Valuation) (i w : Nat) : (argSym i w).eval ρ < 2 ^ w := Nat.mod_lt _ (Nat.two_pow_pos w)

theorem mkZext_argSym {k sw : Nat} (h : sw < 64) : (argSym k sw).mkZext 64 = .zext 64 (argSym k sw) :=
  if_neg (Nat.not_le.mpr h)

theorem eval_size64 (ρ : Valuation) (k sw : Nat) :
    (if sw < 64 then (argSym k sw).mkZext 64 else argSym k sw).eval ρ = (argSym k sw).eval ρ := by
  split_ifs with h
  · rw [mkZext_argSym h]
    exact Nat.mod_eq_of_lt (lt_of_lt_of_le (eval_argSym_lt ρ k sw) (Nat.pow_le_pow_right (by decide) (by omega)))
  · rfl

theorem eval_end (ρ : Valuation) (k aw sw : Nat) :
    (Expr.mkBin .add (argSym 1 aw) (if sw < 64 then (argSym k sw).mkZext 64 else argSym k sw)).width = aw ∧
      (Expr.mkBin .add (argSym 1 aw) (if sw < 64 then (argSym k sw).mkZext 64 else argSym k sw)).eval ρ =
        ((argSym 1 aw).eval ρ + (argSym k sw).eval ρ) % 2 ^ aw := by
  have hsize := eval_size64 ρ k sw
  have hsym : (if sw < 64 then (argSym k sw).mkZext 64 else argSym k sw).asConst = none := by
    split_ifs with h
    · rw [mkZext_argSym h]
      rfl
    · rfl
  generalize (if sw < 64 then (argSym k sw).mkZext 64 else argSym k sw) = size64 at hsize hsym
  have hbin : Expr.mkBin .add (argSym 1 aw) size64 = .bin .add (argSym 1 aw) size64 := by
    have haddr : (argSym 1 aw).asConst = none := rfl
    simp [Expr.mkBin, Expr.folded, Expr.identity, haddr, hsym]
  rw [hbin]
  exact ⟨rfl, by rw [Expr.eval, hsize, BvOp.add_eval]; rfl⟩

theorem mmioFacts_iff {params : List (Option Nat)} {R k aw sw : Nat} (hR : R < 2 ^ 64) (haw : params[1]? = some (some aw))
    (hsw : params[k]? = some (some sw)) (ρ : Valuation) :
    (∀ f ∈ mmioFacts ⟨some R, k⟩ params, f.Holds ρ) ↔
      1 % 2 ^ sw ≤ (argSym k sw).eval ρ ∧ (argSym k sw).eval ρ ≤ 8 % 2 ^ sw ∧ (argSym 1 aw).eval ρ ≤ R % 2 ^ aw ∧
        ((argSym 1 aw).eval ρ + (argSym k sw).eval ρ) % 2 ^ aw ≤ R % 2 ^ aw := by
  obtain ⟨hwidth, hend⟩ := eval_end ρ k aw sw
  have hsize := Nat.mod_eq_of_lt (eval_argSym_lt ρ k sw)
  have haddr := Nat.mod_eq_of_lt (eval_argSym_lt ρ 1 aw)
  have hws : (argSym k sw).width = sw := rfl
  have hwa : (argSym 1 aw).width = aw := rfl
  simp only [mmioFacts, haw, hsw, List.forall_mem_append, List.forall_mem_cons, List.not_mem_nil, IsEmpty.forall_iff,
    implies_true, and_true, Expr.holds_mkCmp, CmpOp.ule_eval, Expr.width_int, Expr.eval_int, Nat.mod_mod, hwidth, hend, hws,
    hwa, hsize, haddr, Nat.mod_eq_of_lt hR, and_assoc]

def argValues (k addr size : Nat) : Valuation :=
  fun name _ => if name = "arg1" then addr else if name = "arg" ++ toString k then size else 0

theorem eval_argValues {k k' addr size w : Nat} (hk : k = 2 ∨ k = 3) (hk' : k' = 2 ∨ k' = 3) :
    (argSym 1 w).eval (argValues k' addr size) = addr % 2 ^ w ∧
      (argSym k w).eval (argValues k' addr size) = (if k = k' then size else 0) % 2 ^ w := by
  rcases hk with rfl | rfl <;> rcases hk' with rfl | rfl <;> exact ⟨rfl, rfl⟩

theorem dispatch_argValues {params : List (Option Nat)} {k s addr : Nat} (hk : k = 2 ∨ k = 3) (hs : addr + 1 ≤ s)
    (haddr : ∀ w, params[1]? = some (some w) → addr < 2 ^ w) (hpos : ∀ (i w : Nat), params[i]? = some (some w) → 0 < w) :
    Dispatch params k s (argValues k addr 1) := by
  refine ⟨addr, 1, Nat.le_refl 1, by decide, hs, fun w hw => ?_, fun w hw => ?_⟩
  · rw [(eval_argValues hk hk).1, Nat.mod_eq_of_lt (haddr w hw)]
  · rw [(eval_argValues hk hk).2, if_pos rfl, Nat.mod_eq_of_lt (Nat.one_lt_two_pow (hpos k w hw).ne')]

/-- Everything that a region of `s` bytes is sent satisfies the facts exactly when it fits. -/
theorem facts_iff_fits {params : List (Option Nat)} {R k k' s : Nat} (hR : R < 2 ^ 64) (hk : k = 2 ∨ k = 3)
    (hk' : k' = 2 ∨ k' = 3) (hpos : ∀ (i w : Nat), params[i]? = some (some w) → 0 < w) :
    (∀ ρ, Dispatch params k' s ρ → ∀ f ∈ mmioFacts ⟨some R, k⟩ params, f.Holds ρ) ↔ Fits params R k k' s := by
  constructor
  · intro hall aw sw haw hsw
    by_cases hs : s = 0
    · exact .inl hs
    have hone : 1 % 2 ^ sw = 1 := Nat.mod_eq_of_lt (Nat.one_lt_two_pow (hpos k sw hsw).ne')
    have hrun : ∀ addr, addr + 1 ≤ s → addr < 2 ^ aw →
        1 ≤ (if k = k' then 1 else 0) % 2 ^ sw ∧ (if k = k' then 1 else 0) % 2 ^ sw ≤ 8 % 2 ^ sw ∧
          (addr + (if k = k' then 1 else 0) % 2 ^ sw) % 2 ^ aw ≤ R % 2 ^ aw := by
      intro addr hle hlt
      have hfits : ∀ w, params[1]? = some (some w) → addr < 2 ^ w := by
        intro w hw
        obtain rfl : aw = w := Option.some.inj (Option.some.inj (haw.symm.trans hw))
        exact hlt
      have h := (mmioFacts_iff hR haw hsw _).mp (hall _ (dispatch_argValues hk' hle hfits hpos))
      rw [(eval_argValues hk hk').1, (eval_argValues hk hk').2, Nat.mod_eq_of_lt hlt, hone] at h
      exact ⟨h.1, h.2.1, h.2.2.2⟩
    obtain ⟨h1, h8, -⟩ := hrun 0 (by omega) (Nat.two_pow_pos aw)
    have hkk : k = k' := by
      by_contra hne
      rw [if_neg hne, Nat.zero_mod] at h1
      omega
    rw [if_pos hkk, hone] at h8
    refine .inr ⟨hkk.symm, ?_, ?_⟩
    · by_contra hlt
      have hdvd : 2 ^ sw ∣ 8 := pow_dvd_pow 2 (show sw ≤ 3 by omega)
      rw [Nat.mod_eq_zero_of_dvd hdvd] at h8
      omega
    · have hM := Nat.two_pow_pos aw
      by_cases h0 : min s (2 ^ aw - 1) = 0
      · rw [h0]
        exact Nat.zero_le _
      · obtain ⟨-, -, h4⟩ := hrun (min s (2 ^ aw - 1) - 1) (by omega) (by omega)
        rwa [if_pos hkk, hone, Nat.sub_add_cancel (Nat.one_le_iff_ne_zero.mpr h0), Nat.mod_eq_of_lt (by omega)] at h4
  · rintro hfits ρ ⟨addr, size, hone, height, hin, haddr, hsize⟩
    cases haw : params[1]? with
    | none => simp [mmioFacts, haw]
    | some o =>
      cases o with
      | none => simp [mmioFacts, haw]
      | some aw =>
        cases hsw : params[k]? with
        | none => simp [mmioFacts, haw, hsw]
        | some o =>
          cases o with
          | none => simp [mmioFacts, haw, hsw]
          | some sw =>
            rw [mmioFacts_iff hR haw hsw]
            rcases hfits aw sw haw hsw with h0 | ⟨rfl, h4, hmin⟩
            · omega
            · have hlt := eval_argSym_lt ρ 1 aw
              rw [haddr aw haw] at hlt ⊢
              rw [hsize sw hsw]
              have height' : 8 % 2 ^ sw = 8 := by
                apply Nat.mod_eq_of_lt
                exact lt_of_lt_of_le (show 8 < 2 ^ 4 by decide) (Nat.pow_le_pow_right (by decide) h4)
              have hone' := Nat.mod_le 1 (2 ^ sw)
              refine ⟨by omega, by omega, by omega, ?_⟩
              by_cases hwrap : addr + size < 2 ^ aw
              · rw [Nat.mod_eq_of_lt hwrap]
                omega
              · -- the region ends behind the last address, so nothing is excluded
                have hfull : 2 ^ aw - 1 ≤ R % 2 ^ aw := by omega
                have hmod := Nat.mod_lt (addr + size) (Nat.two_pow_pos aw)
                omega

/-! ## The law -/

theorem sizeParamOf_cases {off k : Nat} (h : sizeParamOf off = some k) : k = 2 ∨ k = 3 := by
  unfold sizeParamOf at h
  split_ifs at h
  · exact .inl (Option.some.inj h).symm
  · exact .inr (Option.some.inj h).symm

theorem constantSize_lt {v : Option LValue} {n : Nat} (h : constantSize v = some n) : n < 2 ^ 64 := by
  unfold constantSize at h
  split at h
  · split_ifs at h
    rw [← Option.some.inj h]
    exact Nat.mod_lt _ (Nat.two_pow_pos 64)
  · exact absurd h (by simp)

theorem constantSizes_lt {n : Nat} (h : n ∈ constantSizes calls ops) : n < 2 ^ 64 := by
  obtain ⟨call, -, hcall⟩ := List.mem_filterMap.mp h
  cases hr : registration call with
  | none =>
    rw [hr] at hcall
    exact absurd hcall (by simp)
  | some r =>
    obtain ⟨o, size⟩ := r
    simp only [hr] at hcall
    split_ifs at hcall
    simp only [registration] at hr
    split at hr
    · exact absurd hr (by simp)
    · split at hr
      · rw [← (Prod.mk.inj (Option.some.inj hr)).2] at hcall
        exact constantSize_lt hcall
      · exact absurd hr (by simp)

theorem entries_param {globals : List LGlobal} {e : String × Nat} (he : e ∈ entries calls globals h) : e.2 = 2 ∨ e.2 = 3 := by
  obtain ⟨g, -, hg⟩ := List.mem_flatMap.mp he
  split_ifs at hg
  · obtain ⟨k, hk, rfl⟩ := List.mem_map.mp hg
    obtain ⟨field, -, hfield⟩ := List.mem_filterMap.mp hk
    split_ifs at hfield
    exact sizeParamOf_cases hfield
  · exact absurd hg List.not_mem_nil

/-- **The facts about a handler of a known region hold in every dispatch that a registration permits exactly when every
registration fits what the last table that holds the handler was first registered with.** -/
theorem factsHold_iff_covered {params : List (Option Nat)} {handler : MmioHandler} {R : Nat}
    (hh : (collectMmioHandlers m).lookup h = some handler) (hR : handler.regionSize = some R)
    (hpos : ∀ (i w : Nat), params[i]? = some (some w) → 0 < w) : FactsHold m h handler params ↔ Covered m h params := by
  rw [lookup_collectMmioHandlers] at hh
  obtain ⟨⟨ops, k⟩, hlast, heq⟩ := Option.map_eq_some_iff.mp hh
  have hhead : (constantSizes m.funcs.flatten ops).head? = some R := by
    rw [← heq] at hR
    exact hR
  have hhandler : handler = ⟨some R, k⟩ := by rw [← heq, ← hhead]
  have hRmem := List.mem_of_head? hhead
  have hk := entries_param (List.mem_of_getLast? hlast)
  have hfits : ∀ call k', RegisteredAt m h call k' → ∀ s,
      (∀ ρ, Dispatch params k' s ρ → ∀ f ∈ mmioFacts ⟨some R, k⟩ params, f.Holds ρ) ↔ Fits params R k k' s := by
    rintro call k' ⟨-, g, -, -, off, -, hoff⟩ s
    exact facts_iff_fits (constantSizes_lt hRmem) hk (sizeParamOf_cases hoff) hpos
  constructor
  · intro hall ops' k₀ R₀ hlast' hR' call k' hreg s hs
    obtain ⟨rfl, rfl⟩ := Prod.mk.inj (Option.some.inj (hlast.symm.trans hlast'))
    obtain rfl := Option.some.inj (hhead.symm.trans hR')
    rw [hhandler] at hall
    exact (hfits call k' hreg s).mp (hall call k' hreg s hs)
  · intro hcov call k' hreg s hs
    rw [hhandler]
    exact (hfits call k' hreg s).mpr (hcov ops k R hlast hhead call k' hreg s hs)

/-- A device whose read handler stands in two tables, registered with 64 and with 32 bytes. -/
def sharedDevice (globals : List LGlobal) : LModule where
  funcs := [[⟨"memory_region_init_io", [.local "mr", .local "owner", .global "wide_ops", .local "opaque", .null, .int 64]⟩,
    ⟨"memory_region_init_io", [.local "mr2", .local "owner", .global "small_ops", .local "opaque", .null, .int 32]⟩]]
  globals := globals

def wideOps : LGlobal := ⟨"wide_ops", [(0, "dev_read")]⟩

def smallOps : LGlobal := ⟨"small_ops", [(0, "dev_read")]⟩

/-- The handler's parameters: a pointer, a 64-bit address, a 32-bit access size. -/
def readParams : List (Option Nat) := [none, some 64, some 32]

theorem readParams_pos : ∀ (i w : Nat), readParams[i]? = some (some w) → 0 < w := by
  intro i w h
  match i, h with
  | 0, h => exact absurd (Option.some.inj h) (by simp)
  | 1, h => exact Option.some.inj (Option.some.inj h) ▸ by decide
  | 2, h => exact Option.some.inj (Option.some.inj h) ▸ by decide
  | _ + 3, h => exact absurd h (by simp [readParams])

theorem sharedDevice_param {globals : List LGlobal} {call : LCall} {k : Nat} (hglobals : ∀ g ∈ globals, g.fnPtrs = [(0, "dev_read")])
    (h : RegisteredAt (sharedDevice globals) "dev_read" call k) : k = 2 := by
  obtain ⟨-, g, hg, -, off, hoff, hk⟩ := h
  rw [hglobals g hg, List.mem_singleton] at hoff
  obtain ⟨rfl, -⟩ := Prod.mk.inj hoff
  exact (Option.some.inj hk).symm

/-- With the wide table behind the small one, both registrations are covered. -/
theorem factsHold_iff_covered_wide :
    FactsHold (sharedDevice [smallOps, wideOps]) "dev_read" ⟨some 64, 2⟩ readParams := by
  refine (factsHold_iff_covered (R := 64) (by decide) rfl readParams_pos).mpr ?_
  intro ops k R hlast hR call k' hreg s hs aw sw haw hsw
  obtain ⟨rfl, rfl⟩ := Prod.mk.inj (Option.some.inj (show some ("wide_ops", 2) = some (ops, k) from hlast))
  obtain rfl := Option.some.inj (show some 64 = some R from hR)
  obtain rfl : 64 = aw := Option.some.inj (Option.some.inj haw)
  obtain rfl : 32 = sw := Option.some.inj (Option.some.inj hsw)
  have hk : k' = 2 := sharedDevice_param (by simp [smallOps, wideOps]) hreg
  have hs64 : s ≤ 64 := by
    obtain ⟨hcall, -⟩ := hreg
    obtain ⟨-, i, j, hsite, hsize⟩ := hs
    rcases List.mem_pair.mp hcall with rfl | rfl <;>
      obtain ⟨rfl, rfl⟩ := Prod.mk.inj (Option.some.inj hsite) <;> simp at hsize <;> omega
  refine .inr ⟨hk, by decide, ?_⟩
  rw [Nat.mod_eq_of_lt (show 64 < 2 ^ 64 by decide)]
  exact le_trans (Nat.min_le_left _ _) hs64

/-- With the small table behind the wide one, an access at 40 of the wide region is excluded. -/
theorem mmio_handler_shared :
    (collectMmioHandlers (sharedDevice [wideOps, smallOps])).lookup "dev_read" = some ⟨some 32, 2⟩ ∧
      ¬ FactsHold (sharedDevice [wideOps, smallOps]) "dev_read" ⟨some 32, 2⟩ readParams := by
  refine ⟨by decide, fun hall => ?_⟩
  have hreg : RegisteredAt (sharedDevice [wideOps, smallOps]) "dev_read"
      ⟨"memory_region_init_io", [.local "mr", .local "owner", .global "wide_ops", .local "opaque", .null, .int 64]⟩ 2 :=
    ⟨List.mem_cons_self, wideOps, List.mem_cons_self, ⟨some 64, rfl⟩, 0, List.mem_cons_self, rfl⟩
  have hdisp : Dispatch readParams 2 64 (argValues 2 40 1) :=
    dispatch_argValues (.inl rfl) (by decide) (fun w hw => Option.some.inj (Option.some.inj hw) ▸ by decide) readParams_pos
  have hfacts := hall _ 2 hreg 64 ⟨by decide, 2, 5, rfl, rfl⟩ _ hdisp
  rw [mmioFacts_iff (by decide) (show readParams[1]? = some (some 64) from rfl)
    (show readParams[2]? = some (some 32) from rfl)] at hfacts
  exact absurd hfacts.2.2.1 (by decide)

end Mmio

end Llvm

end Csolver
