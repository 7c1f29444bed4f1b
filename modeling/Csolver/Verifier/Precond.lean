import Csolver.Ir.Link
import Csolver.Llvm.Asm
import Csolver.Symbolic.ExitBound
import Csolver.Symbolic.Value
import Mathlib.Data.List.TakeWhile
import Mathlib.Tactic.IntervalCases

/-!
# Parameter preconditions (`crates/verifier/src/precond.rs`)

A sidecar file declares, line by line, that a pointer parameter is valid for so many bytes or
elements. `parse` reads the lines, `apply` enters them into the module's contracts, and the executor
makes a region of each contract before it runs the function (`discharge_inner` of
`exec/driver.rs`). The file checks the tokens, `apply` the function's name, and the executor
takes the rest on trust.
-/

namespace Csolver

open Lib

namespace Precond

open Llvm.Asm (Text isWhitespace trim)

/-! ## Reading the file -/

def lines (t : Text) : List Text :=
  let parts := t.splitOn '\n'
  let stripCr := fun l : Text => if l.getLast? = some '\r' then l.dropLast else l
  parts.dropLast.map stripCr ++ (parts.getLast?.filter (· ≠ [])).toList

def splitWhitespace (t : Text) : List Text := (t.splitOnP isWhitespace).filter (· ≠ [])

/-- `str::parse` for an unsigned type of so many bits. -/
def number (bits : Nat) (t : Text) (err : String) : Except String Nat :=
  let digits := match t with
    | '+' :: t => t
    | _ => t
  if digits ≠ [] ∧ digits.all Char.isDigit then
    let n := Nat.ofDigitChars 10 digits 0
    if n < 2 ^ bits then .ok n else .error err
  else .error err

def nextPowerOfTwo (x : Nat) : Nat := 2 ^ (((List.range 32).find? fun k => decide (x ≤ 2 ^ k)).getD 0)

/-- The alignment that goes with the size of an element. -/
def elementAlign (elem : Nat) : Nat := nextPowerOfTwo (min (max elem 1 % 2 ^ 32) 16)

structure Precondition where
  function : String
  param : Nat
  size : SizeSpec
  align : Nat
  writable : Bool
  sentinel : Option Nat
  deriving DecidableEq

/-- What the kind of a precondition and its arguments say: size, alignment, sentinel, and the rest of the
line. -/
def parseKind (kind arg : Text) (rest : List Text) (err : String) :
    Except String (SizeSpec × Nat × Option Nat × List Text) :=
  if kind = "bytes".toList then do
    let n ← number 64 arg err
    return (.bytes n, 1, none, rest)
  else if kind = "elements".toList then
    match rest with
    | [] => .error err
    | e :: rest => do
      let lenParam ← number 32 arg err
      let elemSize ← number 64 e err
      return (.paramElements lenParam elemSize, elementAlign elemSize, none, rest)
  else if kind = "cstring".toList then do
    let n ← number 64 arg err
    return (.bytes n, 1, some 1, rest)
  else if kind = "sentinel".toList then
    match rest with
    | [] => .error err
    | e :: rest => do
      let n ← number 64 arg err
      let elem ← number 64 e err
      return (.bytes n, elementAlign elem, some elem, rest)
  else .error ("unknown precondition kind `" ++ String.ofList kind ++ "`")

/-- The optional `readonly`; what follows it is not looked at. -/
def parseWritable : List Text → Except String Bool
  | [] => .ok true
  | t :: _ =>
    if t = "readonly".toList then .ok false
    else .error ("expected `readonly` or end of line, got `" ++ String.ofList t ++ "`")

def parseLine (line : Text) : Except String Precondition :=
  let err := "expected `<fn> <param> bytes <N> | elements <lp> <eb> [readonly]`, got `" ++
    String.ofList line ++ "`"
  match splitWhitespace line with
  | function :: param :: kind :: arg :: rest => do
    let param ← number 32 param err
    let (size, align, sentinel, rest) ← parseKind kind arg rest err
    let writable ← parseWritable rest
    return { function := String.ofList function, param, size, align, writable, sentinel }
  | _ => .error err

/-- The lines, numbered from `n`; comments and empty lines are skipped. -/
def parseFrom : Nat → List Text → Except String (List Precondition)
  | _, [] => .ok []
  | n, line :: rest =>
    let line := trim (line.takeWhile (· ≠ '#'))
    if line = [] then parseFrom (n + 1) rest
    else
      match parseLine line with
      | .error e => .error ("precondition line " ++ toString (n + 1) ++ ": " ++ e)
      | .ok p => (parseFrom (n + 1) rest).map (p :: ·)

def parse (text : Text) : Except String (List Precondition) := parseFrom 0 (lines text)

/-- What `parse` establishes of the sizes. -/
structure Precondition.Parsed (p : Precondition) : Prop where
  bytes_lt : ∀ n, p.size = .bytes n → n < 2 ^ 64
  spec : p.size ≠ .opq ∧ p.size ≠ .nonNull
  elements : ∀ l e, p.size = .paramElements l e → p.align = elementAlign e ∧ p.sentinel = none
  sentinel : ∀ e, p.sentinel = some e → p.align = elementAlign e

theorem bind_eq_ok {α β : Type} {x : Except String α} {f : α → Except String β} {b : β}
    (h : (x >>= f) = .ok b) : ∃ a, x = .ok a ∧ f a = .ok b := by
  cases x with
  | error e => cases h
  | ok a => exact ⟨a, rfl, h⟩

theorem number_lt {bits : Nat} {t : Text} {err : String} {n : Nat} (h : number bits t err = .ok n) : n < 2 ^ bits := by
  unfold number at h
  simp only at h
  split_ifs at h with _ hlt
  · cases h
    exact hlt

theorem elementAlign_one : elementAlign 1 = 1 := by decide

theorem parseKind_spec {kind arg : Text} {rest rest' : List Text} {err : String} {size : SizeSpec} {align : Nat}
    {sentinel : Option Nat} (h : parseKind kind arg rest err = .ok (size, align, sentinel, rest'))
    (function : String) (param : Nat) (writable : Bool) :
    Precondition.Parsed ⟨function, param, size, align, writable, sentinel⟩ := by
  unfold parseKind at h
  split_ifs at h
  · obtain ⟨n, hn, h⟩ := bind_eq_ok h
    cases h
    exact ⟨fun m hm => by cases hm; exact number_lt hn, ⟨by simp, by simp⟩, by simp, by simp⟩
  · split at h
    · cases h
    · obtain ⟨l, _, h⟩ := bind_eq_ok h
      obtain ⟨e, _, h⟩ := bind_eq_ok h
      cases h
      exact ⟨by simp, ⟨by simp, by simp⟩, fun l' e' he => by cases he; exact ⟨rfl, rfl⟩, by simp⟩
  · obtain ⟨n, hn, h⟩ := bind_eq_ok h
    cases h
    refine ⟨fun m hm => by cases hm; exact number_lt hn, ⟨by simp, by simp⟩, by simp, fun e he => ?_⟩
    cases he
    exact elementAlign_one.symm
  · split at h
    · cases h
    · obtain ⟨n, hn, h⟩ := bind_eq_ok h
      obtain ⟨e, _, h⟩ := bind_eq_ok h
      cases h
      refine ⟨fun m hm => by cases hm; exact number_lt hn, ⟨by simp, by simp⟩, by simp, fun e' he => ?_⟩
      cases he
      rfl

theorem parseLine_spec {line : Text} {p : Precondition} (h : parseLine line = .ok p) : p.Parsed := by
  unfold parseLine at h
  simp only at h
  split at h
  · obtain ⟨n, _, h⟩ := bind_eq_ok h
    obtain ⟨⟨size, align, sentinel, rest⟩, hkind, h⟩ := bind_eq_ok h
    obtain ⟨w, _, h⟩ := bind_eq_ok h
    cases h
    exact parseKind_spec hkind _ _ _
  · cases h

theorem parse_spec {text : Text} {ps : List Precondition} (h : parse text = .ok ps) : ∀ p ∈ ps, p.Parsed := by
  have hfrom : ∀ (ls : List Text) (n : Nat) (ps : List Precondition), parseFrom n ls = .ok ps →
      ∀ p ∈ ps, p.Parsed := by
    intro ls
    induction ls with
    | nil =>
      intro n ps h p hp
      cases h
      exact absurd hp List.not_mem_nil
    | cons line rest ih =>
      intro n ps h
      rw [parseFrom] at h
      split_ifs at h
      · exact ih _ _ h
      · cases hl : parseLine (trim (line.takeWhile (· ≠ '#'))) with
        | error e => simp only [hl] at h; cases h
        | ok p =>
          simp only [hl] at h
          cases hrest : parseFrom (n + 1) rest with
          | error e => rw [hrest] at h; cases h
          | ok qs =>
            rw [hrest] at h
            cases h
            intro q hq
            rcases List.mem_cons.mp hq with rfl | hq
            · exact parseLine_spec hl
            · exact ih _ _ hrest q hq
  exact hfrom _ _ _ h

/-! ## Entering the contracts -/

/-- The contracts of a module, by function and parameter. -/
abbrev Contracts := Table (FuncId × Nat) PtrContract

def Precondition.contract (p : Precondition) : PtrContract where
  size := p.size
  align := p.align
  readable := true
  writable := p.writable
  assumption := some "precondition"
  refutable := false
  sentinel := p.sentinel

/-- A contract that the frontend has paired up by convention. -/
def guessed (c : PtrContract) : Bool := c.assumption = some "param-buffer-len"

/-- There is a contract, and it is not a guess. -/
def Declared (t : Contracts) (k : FuncId × Nat) : Prop := ∃ c, t.lookup k = some c ∧ guessed c = false

instance (t : Contracts) (k : FuncId × Nat) : Decidable (Declared t k) :=
  match h : t.lookup k with
  | none => .isFalse fun hd => by
    obtain ⟨c, hc, _⟩ := hd
    rw [h] at hc
    cases hc
  | some c =>
    if hg : guessed c = false then .isTrue ⟨c, h, hg⟩
    else .isFalse fun hd => by
      obtain ⟨c', hc, hg'⟩ := hd
      rw [h] at hc
      cases hc
      exact hg hg'

variable (M : Module)

/-- The function with a name: the last one that the hash map was given. -/
def functionNamed (name : String) : Option (FuncId × Func) := M.functions.reverse.find? fun f => f.2.name = name

/-- The parameter that a precondition is about. -/
def Precondition.key (p : Precondition) : Option (FuncId × Nat) :=
  (functionNamed M p.function).map fun f => (f.1, p.param)

/-- The loop of `apply`: the contracts so far, and how many were applied. -/
def applyFrom : List Precondition → Contracts → Nat → Contracts × Except String Nat
  | [], t, applied => (t, .ok applied)
  | p :: ps, t, applied =>
    match p.key M with
    | none => (t, .error ("precondition names unknown function `" ++ p.function ++ "`"))
    | some k =>
      if Declared t k then applyFrom ps t applied
      else applyFrom ps (t.insert k p.contract) (applied + 1)

/-- `apply`: the contracts it leaves behind, and its result. -/
def apply (ps : List Precondition) : Contracts × Except String Nat := applyFrom M ps M.paramContracts 0

/-- The preconditions before the first one that names no function. -/
def reached (ps : List Precondition) : List Precondition := ps.takeWhile fun p => (p.key M).isSome

variable {M}

theorem declared_contract {t : Contracts} {k : FuncId × Nat} (p : Precondition) : Declared (t.insert k p.contract) k :=
  ⟨p.contract, AList.lookup_insert t, rfl⟩

theorem declared_insert_ne {t : Contracts} {k j : FuncId × Nat} (h : j ≠ k) (c : PtrContract) :
    Declared (t.insert k c) j ↔ Declared t j := by
  rw [Declared, Declared, AList.lookup_insert_ne h]

theorem applyFrom_lookup (ps : List Precondition) (t : Contracts) (n : Nat) (k : FuncId × Nat) :
    (applyFrom M ps t n).1.lookup k =
      if Declared t k then t.lookup k
      else (((reached M ps).find? fun p => p.key M = some k).map Precondition.contract).or (t.lookup k) := by
  induction ps generalizing t n with
  | nil => simp [applyFrom, reached]
  | cons p ps ih =>
    rw [applyFrom]
    cases hp : p.key M with
    | none => simp [reached, hp]
    | some j =>
      have hreached : reached M (p :: ps) = p :: reached M ps := by simp [reached, hp]
      rw [hreached, List.find?_cons]
      simp only [hp]
      by_cases hj : j = k
      · subst hj
        simp only [decide_true, Option.map_some, Option.some_or]
        split_ifs with hd
        · rw [ih, if_pos hd]
        · rw [ih, if_pos (declared_contract p), AList.lookup_insert]
      · have hne : ¬ (some j = some k) := fun h => hj (Option.some.inj h)
        simp only [hne, decide_false]
        split_ifs with hdj hdk
        · rw [ih, if_pos hdk]
        · rw [ih, if_neg hdk]
        · rw [ih, if_pos ((declared_insert_ne (Ne.symm hj) _).mpr ‹_›), AList.lookup_insert_ne (Ne.symm hj)]
        · rw [ih, if_neg (fun h => ‹¬ Declared t k› ((declared_insert_ne (Ne.symm hj) _).mp h)),
            AList.lookup_insert_ne (Ne.symm hj)]

theorem applyFrom_result (ps : List Precondition) (t : Contracts) (n : Nat) :
    (∃ m, (applyFrom M ps t n).2 = .ok m) ↔ ∀ p ∈ ps, (p.key M).isSome = true := by
  induction ps generalizing t n with
  | nil => simp [applyFrom]
  | cons p ps ih =>
    rw [applyFrom]
    cases hp : p.key M with
    | none => simp [hp]
    | some j =>
      simp only
      split_ifs <;> simp [ih, hp]

end Precond

/-! ## What becomes of a contract (`discharge_inner` of `exec/driver.rs`)

The executor runs over the parameters twice: those without a contract get a value of their own, and
then each contracted one becomes a region whose size is not negative. A size in elements reads the
length parameter by its index, which panics when there is no such parameter.

The region hints and the scalar ranges of callers, which add facts of their own, are not modelled, nor
are the member fields that are seeded behind a parameter.
-/

open Lib

namespace Precond

/-- What the executor has of the parameters so far. -/
structure Seed where
  env : RegId → Option SymValue
  regions : List SymRegion
  facts : List Expr
  nonnull : List Nat

def Seed.bind (s : Seed) (r : RegId) (v : SymValue) : Seed :=
  { s with env := fun q => if q = r then some v else s.env q }

/-- The executor's counters, and the panic. -/
abbrev SeedM := StateT Explorer Option

def fresh (m : ExploreM SymValue) : SeedM SymValue := fun ex => some (m ex)

/-- `PARAM_BUFFER_LEN` contracts are dropped unless they are asked for. -/
def gate (assumeParamBufferLen : Bool) (c : PtrContract) : Option PtrContract :=
  if !assumeParamBufferLen && guessed c then none else some c

/-- Pass 1: a parameter without a contract. -/
def seedPlain (i : Nat) (reg : RegId) (ty : Ty) (s : Seed) : SeedM Seed := do
  if ty.isPtr then
    let v ← fresh (freshValue ty .param)
    return s.bind reg v
  else return s.bind reg (.scalar (.sym ("arg" ++ toString i) ty.typeWidth))

def sizeNoWrapFact (count : Expr) (stride : Nat) : Expr :=
  .mkCmp .ule count (.int ptrWidth ((2 ^ 63 - 1) / max stride 1))

/-- The value of the length parameter, if it is a scalar. -/
def lengthValue (s : Seed) (reg : RegId) : ExploreM Expr := fun ex =>
  match s.env reg with
  | some (.scalar e) => (e, ex)
  | _ => freshScalar ptrWidth ex

def widened (len : Expr) : Expr := if len.width < ptrWidth then len.mkZext ptrWidth else len

/-- The size of a contracted region, the assumption it rests on, and the condition under which it does not
wrap. -/
def regionSize (f : Func) (s : Seed) (size : SizeSpec) : SeedM (Expr × String × Option Expr) := fun ex =>
  match size with
  | .bytes n => some ((.int ptrWidth n, "param-contracts", some (.bool true)), ex)
  | .paramElements lenParam elemSize =>
    match f.params[lenParam]? with
    | none => none
    | some (lenReg, _) =>
      let (len, ex) := lengthValue s lenReg ex
      let len := widened len
      some ((.mkBin .mul len (.int ptrWidth elemSize), "slice-abi", some (sizeNoWrapFact len elemSize)), ex)
  | _ =>
    let (e, ex) := freshScalar ptrWidth ex
    some ((e, "struct-abi", none), ex)

/-- The region of a contracted parameter. -/
def contractRegion (c : PtrContract) (size : Expr) (assumption : String) (nowrap : Option Expr) : SymRegion where
  kind := .heap
  size := size
  baseAlign := 1
  state := .live
  perms := ⟨c.readable, c.writable, false⟩
  contract := some (c.assumption.getD assumption)
  sizeNowrap := if c.refutable then nowrap else none
  sentinel := c.sentinel
  userControlled := false
  assumed := false

def nonneg (size : Expr) : Expr := .mkCmp .sle (.int ptrWidth 0) size

def seedContract (f : Func) (reg : RegId) (ty : Ty) (c : PtrContract) (s : Seed) : SeedM Seed := do
  if c.size = .nonNull then
    let v ← fresh (freshValue ty .param)
    let ids := match v with
      | .ptr (.mk (.unknown _ (some id)) _ _ _) => [id]
      | _ => []
    return { s.bind reg v with nonnull := s.nonnull ++ ids }
  else
    let (size, assumption, nowrap) ← regionSize f s c.size
    let rid := s.regions.length
    return { s.bind reg (.ptr (.mk (.region rid) (.int ptrWidth 0) (max c.align 1) none)) with
      regions := s.regions ++ [contractRegion c size assumption nowrap]
      facts := s.facts ++ [nonneg size] }

def seedPass (step : Nat → RegId → Ty → Seed → SeedM Seed) : List ((RegId × Ty) × Nat) → Seed → SeedM Seed
  | [], s => pure s
  | ((reg, ty), i) :: ps, s => do
    let s ← step i reg ty s
    seedPass step ps s

section

variable (f : Func) (contract : Nat → Option PtrContract)

def firstStep (i : Nat) (reg : RegId) (ty : Ty) (s : Seed) : SeedM Seed :=
  match contract i with
  | none => seedPlain i reg ty s
  | some _ => pure s

def secondStep (i : Nat) (reg : RegId) (ty : Ty) (s : Seed) : SeedM Seed :=
  match contract i with
  | none => pure s
  | some c => seedContract f reg ty c s

end

/-- The contract of a parameter, if it is not gated. -/
def contractAt (assumeParamBufferLen : Bool) (contracts : List (Option PtrContract)) (i : Nat) : Option PtrContract :=
  (contracts[i]?).join.bind (gate assumeParamBufferLen)

/-- The part of `discharge_inner` that makes the regions, for the contracts of a function. -/
def seedParams (assumeParamBufferLen : Bool) (f : Func) (contracts : List (Option PtrContract)) : SeedM Seed := do
  let contract := contractAt assumeParamBufferLen contracts
  let s ← seedPass (firstStep contract) f.params.zipIdx ⟨fun _ => none, [], [], []⟩
  seedPass (secondStep f contract) f.params.zipIdx s

def contractsFor (lookup : FuncId × Nat → Option PtrContract) (f : FuncId × Func) : List (Option PtrContract) :=
  (List.range f.2.params.length).map fun i => lookup (f.1, i)

/-! ## All or nothing -/

/-- The element size that a contract speaks of. -/
def elementSize (size : SizeSpec) (sentinel : Option Nat) : Option Nat :=
  match size with
  | .paramElements _ e => some e
  | _ => sentinel

/-- A contract names parameters of its function, and grants no more alignment than its elements have. -/
structure WellFormed (f : Func) (i : Nat) (c : PtrContract) : Prop where
  param : i < f.params.length
  len : ∀ l e, c.size = .paramElements l e → l < f.params.length
  align : ∀ e, elementSize c.size c.sentinel = some e → c.align ∣ e

variable (M : Module) (ps : List Precondition)

/-- The contracts that `apply` has entered. -/
def installed (k : FuncId × Nat) : Option PtrContract :=
  if (apply M ps).1.lookup k = M.paramContracts.lookup k then none else (apply M ps).1.lookup k

/-- The executor takes the contracts that were entered without a panic, and its facts about them have a model. -/
def Satisfiable (f : FuncId × Func) : Prop :=
  ∀ (assumeParamBufferLen : Bool) (ex : Explorer), ∃ s ex',
    seedParams assumeParamBufferLen f.2 (contractsFor (installed M ps) f) ex = some (s, ex') ∧
      ∃ ρ, ∀ e ∈ s.facts, e.Holds ρ

/-- An error leaves the contracts as they were; otherwise what was entered is well formed. -/
def AllOrNothing : Prop :=
  match (apply M ps).2 with
  | .error _ => ∀ k, (apply M ps).1.lookup k = M.paramContracts.lookup k
  | .ok _ =>
    (∀ k c, installed M ps k = some c → ∃ f, (k.1, f) ∈ M.functions ∧ WellFormed f k.2 c) ∧
      ∀ f ∈ M.functions, Satisfiable M ps f

/-- What a precondition that takes effect must be like: its parameters exist, its bytes are no negative `i64`,
and its alignment divides the element. -/
structure Fits (f : Func) (p : Precondition) : Prop where
  param : p.param < f.params.length
  bytes : ∀ n, p.size = .bytes n → n < 2 ^ 63
  len : ∀ l e, p.size = .paramElements l e → l < f.params.length
  align : ∀ e, elementSize p.size p.sentinel = some e → e = 0 ∨ e % 2 ^ 32 ∈ [1, 2, 4, 8] ∨ 16 ∣ e

/-- If every name is known, the first precondition for each parameter without a declared contract fits; if not,
the preconditions before the unknown name are all for parameters with a declared contract. -/
def Harmless : Prop :=
  if ∀ p ∈ ps, (p.key M).isSome = true then
    ∀ k p, ¬ Declared M.paramContracts k → ps.find? (fun p => p.key M = some k) = some p →
      ∀ f, (k.1, f) ∈ M.functions → Fits f p
  else ∀ p ∈ reached M ps, ∀ k, p.key M = some k → Declared M.paramContracts k

variable {M ps}

theorem installed_eq_some {k : FuncId × Nat} {c : PtrContract} :
    installed M ps k = some c ↔ ¬ Declared M.paramContracts k ∧
      ∃ p, (reached M ps).find? (fun p => p.key M = some k) = some p ∧ p.contract = c := by
  have hlookup := applyFrom_lookup (M := M) ps M.paramContracts 0 k
  rw [← apply] at hlookup
  rw [installed]
  by_cases hd : Declared M.paramContracts k
  · rw [if_pos hd] at hlookup
    simp [hlookup, hd]
  · rw [if_neg hd] at hlookup
    cases hfind : (reached M ps).find? (fun p => p.key M = some k) with
    | none =>
      rw [hfind] at hlookup
      simp [hlookup]
    | some p =>
      rw [hfind] at hlookup
      -- a contract of the file is not a guess, so the one before it was another
      have hne : ¬ (apply M ps).1.lookup k = M.paramContracts.lookup k := by
        intro heq
        exact hd ⟨p.contract, by rw [← heq, hlookup]; rfl, rfl⟩
      rw [if_neg hne, hlookup]
      simp [hd]

theorem nextPowerOfTwo_le {x : Nat} (h : x ≤ 16) :
    nextPowerOfTwo x = if x ≤ 1 then 1 else if x ≤ 2 then 2 else if x ≤ 4 then 4 else if x ≤ 8 then 8 else 16 := by
  interval_cases x <;> decide

theorem elementAlign_dvd_iff (e : Nat) : elementAlign e ∣ e ↔ e = 0 ∨ e % 2 ^ 32 ∈ [1, 2, 4, 8] ∨ 16 ∣ e := by
  rw [elementAlign, nextPowerOfTwo_le (Nat.min_le_right _ _)]
  simp only [List.mem_cons, List.not_mem_nil, or_false]
  split_ifs <;> omega

/-! ## The valuation that makes everything zero -/

def zeroes : Valuation := fun _ _ => 0

theorem holds_nonneg {ρ : Valuation} (size : Expr) : (nonneg size).Holds ρ ↔ size.eval ρ % 2 ^ 64 < 2 ^ 63 := by
  have hlt : size.eval ρ % 2 ^ 64 < 2 ^ 64 := Nat.mod_lt _ (by decide)
  rw [nonneg, ptrWidth, ExitBound.sle_64 (Expr.width_int _ _), Expr.eval_int, ExitBound.toInt_64 hlt]
  have hzero : (BitVec.ofNat 64 (0 % 2 ^ 64 % 2 ^ 64)).toInt = 0 := by decide
  rw [hzero]
  split_ifs <;> omega

/-- Every scalar is zero, and the facts hold. -/
structure Seed.Zero (s : Seed) : Prop where
  env : ∀ r e, s.env r = some (.scalar e) → e.eval zeroes = 0
  facts : ∀ e ∈ s.facts, e.Holds zeroes

theorem Seed.Zero.bind {s : Seed} (h : s.Zero) {r : RegId} {v : SymValue}
    (hv : ∀ e, v = .scalar e → e.eval zeroes = 0) : (s.bind r v).Zero := by
  refine ⟨fun q e hq => ?_, h.facts⟩
  simp only [Seed.bind] at hq
  split_ifs at hq
  · exact hv e (Option.some.inj hq)
  · exact h.env q e hq

theorem eval_sym_zeroes (name : String) (w : Nat) : (Expr.sym name w).eval zeroes = 0 := by
  simp [Expr.eval, zeroes]

theorem freshValue_zeroes (ty : Ty) (ex : Explorer) (e : Expr) (h : (freshValue ty .param ex).1 = .scalar e) :
    e.eval zeroes = 0 := by
  unfold freshValue at h
  split_ifs at h with _ hload
  · cases hload
  · simp only [freshScalar, SymValue.scalar.injEq] at h
    rw [← h]
    exact eval_sym_zeroes _ _

theorem seedPlain_zero (i : Nat) (reg : RegId) (ty : Ty) {s : Seed} (h : s.Zero) (ex : Explorer) :
    ∃ s' ex', seedPlain i reg ty s ex = some (s', ex') ∧ s'.Zero := by
  unfold seedPlain
  split_ifs
  · exact ⟨_, _, rfl, h.bind fun e he => freshValue_zeroes ty ex e he⟩
  · refine ⟨_, _, rfl, h.bind fun e he => ?_⟩
    cases he
    exact eval_sym_zeroes _ _

theorem eval_mkZext_zeroes {e : Expr} (h : e.eval zeroes = 0) (w : Nat) : (e.mkZext w).eval zeroes = 0 := by
  unfold Expr.mkZext
  split_ifs
  · exact h
  · split
    · next bv hbv =>
      have hv : bv.value = 0 := by rw [← (Expr.asConst_eq hbv).2, h]
      rw [hv, Expr.eval_int, Nat.zero_mod]
    · rw [Expr.eval, h, Nat.zero_mod]

theorem le_width_mkZext (e : Expr) (w : Nat) : w ≤ (e.mkZext w).width := by
  unfold Expr.mkZext
  split_ifs with hw
  · exact hw
  · split
    · exact le_refl _
    · exact le_refl _

theorem eval_mul_zeroes {len : Expr} (h : len.eval zeroes = 0) (hw : 64 ≤ len.width) (n : Nat) :
    (Expr.mkBin .mul len (.int ptrWidth n)).eval zeroes % 2 ^ 64 = 0 := by
  have hmod := ExitBound.eval_mkBin_mod (ρ := zeroes) .mul len (.int ptrWidth n)
  rw [h, BvOp.mul_eval, Nat.zero_mul, Nat.zero_mod] at hmod
  rw [← Nat.mod_mod_of_dvd _ (Nat.pow_dvd_pow 2 hw), hmod, Nat.zero_mod]

/-- What a contract must be like for the executor to take it. -/
def Takable (f : Func) (c : PtrContract) : Prop :=
  (∀ n, c.size = .bytes n → n % 2 ^ 64 < 2 ^ 63) ∧ ∀ l e, c.size = .paramElements l e → l < f.params.length

theorem widened_zeroes {len : Expr} (h : len.eval zeroes = 0) (n : Nat) :
    (Expr.mkBin .mul (widened len) (.int ptrWidth n)).eval zeroes % 2 ^ 64 < 2 ^ 63 := by
  have hzero : (widened len).eval zeroes = 0 := by
    unfold widened
    split_ifs
    · exact eval_mkZext_zeroes h _
    · exact h
  have hwide : 64 ≤ (widened len).width := by
    unfold widened
    split_ifs with hlt
    · exact le_width_mkZext len 64
    · exact not_lt.mp hlt
  rw [eval_mul_zeroes hzero hwide]
  decide

theorem lengthValue_zero {s : Seed} (h : s.Zero) (reg : RegId) (ex : Explorer) :
    (lengthValue s reg ex).1.eval zeroes = 0 := by
  unfold lengthValue
  split
  · next e he => exact h.env reg e he
  · exact eval_sym_zeroes _ _

theorem regionSize_zero {f : Func} {c : PtrContract} (hc : Takable f c) {s : Seed} (h : s.Zero) (ex : Explorer) :
    ∃ r ex', regionSize f s c.size ex = some (r, ex') ∧ r.1.eval zeroes % 2 ^ 64 < 2 ^ 63 := by
  unfold regionSize
  cases hsize : c.size with
  | bytes n =>
    refine ⟨_, _, rfl, ?_⟩
    rw [Expr.eval_int, ptrWidth, Nat.mod_mod]
    exact hc.1 n hsize
  | paramElements l e =>
    simp only [List.getElem?_eq_getElem (hc.2 l e hsize)]
    exact ⟨_, _, rfl, widened_zeroes (lengthValue_zero h _ ex) e⟩
  | opq | nonNull =>
    refine ⟨_, _, rfl, ?_⟩
    show (Expr.sym _ _).eval zeroes % 2 ^ 64 < 2 ^ 63
    rw [eval_sym_zeroes]
    decide

theorem seedContract_zero {f : Func} {c : PtrContract} (hc : Takable f c) (reg : RegId) (ty : Ty) {s : Seed}
    (h : s.Zero) (ex : Explorer) : ∃ s' ex', seedContract f reg ty c s ex = some (s', ex') ∧ s'.Zero := by
  unfold seedContract
  split_ifs
  · refine ⟨_, _, rfl, ?_⟩
    exact ⟨(h.bind fun e he => freshValue_zeroes ty ex e he).env, h.facts⟩
  · obtain ⟨r, ex', hr, hlt⟩ := regionSize_zero hc h ex
    obtain ⟨size, assumption, nowrap⟩ := r
    refine ⟨_, ex', by simp only [bind, StateT.bind, hr]; rfl, ?_, ?_⟩
    · exact (h.bind fun e he => by cases he).env
    · intro e he
      rcases List.mem_append.mp he with he | he
      · exact h.facts e he
      · rw [List.mem_singleton.mp he]
        exact (holds_nonneg size).mpr hlt

/-! ## Passes over the parameters -/

theorem seedPass_ok {P : Seed → Prop} {step : Nat → RegId → Ty → Seed → SeedM Seed}
    (ps : List ((RegId × Ty) × Nat))
    (hstep : ∀ p ∈ ps, ∀ s, P s → ∀ ex, ∃ s' ex', step p.2 p.1.1 p.1.2 s ex = some (s', ex') ∧ P s')
    {s : Seed} (hs : P s) (ex : Explorer) : ∃ s' ex', seedPass step ps s ex = some (s', ex') ∧ P s' := by
  induction ps generalizing s ex with
  | nil => exact ⟨s, ex, rfl, hs⟩
  | cons p ps ih =>
    obtain ⟨⟨reg, ty⟩, i⟩ := p
    obtain ⟨s₁, ex₁, h₁, hs₁⟩ := hstep _ List.mem_cons_self s hs ex
    obtain ⟨s', ex', h', hs'⟩ := ih (fun p hp => hstep p (List.mem_cons_of_mem _ hp)) hs₁ ex₁
    refine ⟨s', ex', ?_, hs'⟩
    simp only [seedPass, bind, StateT.bind, Option.bind] at h₁ ⊢
    rw [h₁]
    exact h'

theorem seedPass_step {step : Nat → RegId → Ty → Seed → SeedM Seed}
    (hmono : ∀ i reg ty s ex s' ex', step i reg ty s ex = some (s', ex') → s.facts ⊆ s'.facts)
    {ps : List ((RegId × Ty) × Nat)} {s s' : Seed} {ex ex' : Explorer}
    (h : seedPass step ps s ex = some (s', ex')) :
    s.facts ⊆ s'.facts ∧ ∀ p ∈ ps, ∃ s₁ ex₁ s₂ ex₂, step p.2 p.1.1 p.1.2 s₁ ex₁ = some (s₂, ex₂) ∧
      s₂.facts ⊆ s'.facts := by
  induction ps generalizing s ex with
  | nil =>
    cases h
    exact ⟨fun _ h => h, fun p hp => absurd hp List.not_mem_nil⟩
  | cons p ps ih =>
    obtain ⟨⟨reg, ty⟩, i⟩ := p
    simp only [seedPass, bind, StateT.bind] at h
    obtain ⟨⟨s₁, ex₁⟩, h₁, hrest⟩ := Option.bind_eq_some_iff.mp h
    obtain ⟨hsub, hall⟩ := ih hrest
    refine ⟨fun e he => hsub (hmono _ _ _ _ _ _ _ h₁ he), fun q hq => ?_⟩
    rcases List.mem_cons.mp hq with rfl | hq
    · exact ⟨s, ex, s₁, ex₁, h₁, hsub⟩
    · exact hall q hq

theorem seedContract_mono {f : Func} {c : PtrContract} {reg : RegId} {ty : Ty} {s s' : Seed} {ex ex' : Explorer}
    (h : seedContract f reg ty c s ex = some (s', ex')) : s.facts ⊆ s'.facts := by
  unfold seedContract at h
  split_ifs at h
  · cases h
    exact fun _ h => h
  · simp only [bind, StateT.bind] at h
    obtain ⟨⟨⟨size, assumption, nowrap⟩, ex₁⟩, _, h⟩ := Option.bind_eq_some_iff.mp h
    cases h
    exact fun e he => List.mem_append_left _ he

theorem seedContract_takable {f : Func} {c : PtrContract} {reg : RegId} {ty : Ty} {s s' : Seed} {ex ex' : Explorer}
    (h : seedContract f reg ty c s ex = some (s', ex')) {ρ : Valuation} (hρ : ∀ e ∈ s'.facts, e.Holds ρ) :
    Takable f c := by
  unfold seedContract at h
  split_ifs at h with hnull
  · rw [Takable, hnull]
    exact ⟨fun n hn => (by cases hn), fun l e he => (by cases he)⟩
  · simp only [bind, StateT.bind] at h
    obtain ⟨⟨⟨size, assumption, nowrap⟩, ex₁⟩, hsize, h⟩ := Option.bind_eq_some_iff.mp h
    cases h
    have hholds := hρ (nonneg size) (List.mem_append_right _ List.mem_cons_self)
    rw [holds_nonneg] at hholds
    unfold regionSize at hsize
    constructor
    · intro n hn
      rw [hn] at hsize
      cases hsize
      rwa [Expr.eval_int, ptrWidth, Nat.mod_mod] at hholds
    · intro l e he
      by_contra hge
      simp only [he, List.getElem?_eq_none (not_lt.mp hge)] at hsize
      cases hsize

theorem seedParams_iff (flag : Bool) (f : Func) (cs : List (Option PtrContract)) (ex : Explorer) :
    (∃ s ex', seedParams flag f cs ex = some (s, ex') ∧ ∃ ρ, ∀ e ∈ s.facts, e.Holds ρ) ↔
      ∀ i < f.params.length, ∀ c, contractAt flag cs i = some c → Takable f c := by
  constructor
  · rintro ⟨s, ex', h, ρ, hρ⟩ i hi c hc
    simp only [seedParams, bind, StateT.bind] at h
    obtain ⟨⟨s₁, ex₁⟩, _, h⟩ := Option.bind_eq_some_iff.mp h
    have hmono : ∀ i reg ty s ex s' ex', secondStep f (contractAt flag cs) i reg ty s ex = some (s', ex') →
        s.facts ⊆ s'.facts := by
      intro i reg ty s ex s' ex' hstep
      unfold secondStep at hstep
      cases hc : contractAt flag cs i with
      | none =>
        rw [hc] at hstep
        cases hstep
        exact fun _ h => h
      | some c =>
        rw [hc] at hstep
        exact seedContract_mono hstep
    have hmem : (f.params[i], i) ∈ f.params.zipIdx := List.mem_zipIdx_iff_getElem?.mpr (List.getElem?_eq_getElem hi)
    obtain ⟨_, _, s₃, _, hstep, hsub⟩ := (seedPass_step hmono h).2 _ hmem
    simp only [secondStep, hc] at hstep
    exact seedContract_takable hstep fun e he => hρ e (hsub he)
  · intro h
    have hempty : Seed.Zero ⟨fun _ => none, [], [], []⟩ :=
      ⟨fun _ _ h => (by cases h), fun _ h => absurd h List.not_mem_nil⟩
    have hfirst : ∀ p ∈ f.params.zipIdx, ∀ s : Seed, s.Zero → ∀ ex,
        ∃ s' ex', firstStep (contractAt flag cs) p.2 p.1.1 p.1.2 s ex = some (s', ex') ∧ s'.Zero := by
      intro p _ s hs ex
      unfold firstStep
      cases contractAt flag cs p.2 with
      | none => exact seedPlain_zero _ _ _ hs ex
      | some c => exact ⟨s, ex, rfl, hs⟩
    have hsecond : ∀ p ∈ f.params.zipIdx, ∀ s : Seed, s.Zero → ∀ ex,
        ∃ s' ex', secondStep f (contractAt flag cs) p.2 p.1.1 p.1.2 s ex = some (s', ex') ∧ s'.Zero := by
      intro p hp s hs ex
      unfold secondStep
      cases hc : contractAt flag cs p.2 with
      | none => exact ⟨s, ex, rfl, hs⟩
      | some c => exact seedContract_zero (h p.2 (List.mem_zipIdx' hp).1 c hc) _ _ hs ex
    obtain ⟨s₁, ex₁, h₁, hs₁⟩ := seedPass_ok _ hfirst hempty ex
    obtain ⟨s', ex', h', hs'⟩ := seedPass_ok _ hsecond hs₁ ex₁
    refine ⟨s', ex', ?_, zeroes, hs'.facts⟩
    simp only [seedParams, bind, StateT.bind, Option.bind] at h₁ h' ⊢
    rw [h₁]
    exact h'

/-! ## When `apply` keeps its promise -/

variable {M : Module} {ps : List Precondition}

theorem key_eq_some {p : Precondition} {k : FuncId × Nat} (h : p.key M = some k) :
    k.2 = p.param ∧ ∃ f, (k.1, f) ∈ M.functions := by
  obtain ⟨f, hf, rfl⟩ := Option.map_eq_some_iff.mp h
  exact ⟨rfl, f.2, List.mem_reverse.mp (List.mem_of_find?_eq_some hf)⟩

theorem contractAt_installed (flag : Bool) (f : FuncId × Func) {i : Nat} (hi : i < f.2.params.length) :
    contractAt flag (contractsFor (installed M ps) f) i = installed M ps (f.1, i) := by
  rw [contractAt, contractsFor, List.getElem?_map, List.getElem?_range hi]
  simp only [Option.map_some, Option.join_some]
  cases hinst : installed M ps (f.1, i) with
  | none => rfl
  | some c =>
    obtain ⟨_, p, _, rfl⟩ := installed_eq_some.mp hinst
    simp [gate, guessed, Precondition.contract]

theorem satisfiable_iff (f : FuncId × Func) : Satisfiable M ps f ↔
    ∀ i < f.2.params.length, ∀ c, installed M ps (f.1, i) = some c → Takable f.2 c := by
  constructor
  · intro h i hi c hc
    refine (seedParams_iff true f.2 _ Explorer.initial).mp (h true Explorer.initial) i hi c ?_
    rw [contractAt_installed true f hi, hc]
  · intro h flag ex
    refine (seedParams_iff flag f.2 _ ex).mpr fun i hi c hc => ?_
    rw [contractAt_installed flag f hi] at hc
    exact h i hi c hc

theorem fits_iff {f : Func} {p : Precondition} (hp : p.Parsed) :
    Fits f p ↔ WellFormed f p.param p.contract ∧ Takable f p.contract := by
  have halign : (∀ e, elementSize p.size p.sentinel = some e → e = 0 ∨ e % 2 ^ 32 ∈ [1, 2, 4, 8] ∨ 16 ∣ e) ↔
      ∀ e, elementSize p.size p.sentinel = some e → p.align ∣ e := by
    refine forall₂_congr fun e he => ?_
    have hal : p.align = elementAlign e := by
      cases hsize : p.size with
      | paramElements l e' =>
        rw [hsize] at he
        obtain rfl := Option.some.inj he
        exact (hp.elements l e' hsize).1
      | bytes n => rw [hsize] at he; exact hp.sentinel e he
      | opq => rw [hsize] at he; exact hp.sentinel e he
      | nonNull => rw [hsize] at he; exact hp.sentinel e he
    rw [hal, elementAlign_dvd_iff]
  constructor
  · intro h
    refine ⟨⟨h.param, h.len, halign.mp h.align⟩, fun n hn => ?_, h.len⟩
    rw [Nat.mod_eq_of_lt (hp.bytes_lt n hn)]
    exact h.bytes n hn
  · rintro ⟨hwf, htake⟩
    refine ⟨hwf.param, fun n hn => ?_, hwf.len, halign.mpr hwf.align⟩
    have := htake.1 n hn
    rwa [Nat.mod_eq_of_lt (hp.bytes_lt n hn)] at this

theorem eq_of_mem_functions {id : FuncId} {f g : Func} (hf : (id, f) ∈ M.functions) (hg : (id, g) ∈ M.functions) :
    f = g := by
  have heq := List.inj_on_of_nodup_map M.ids_nodup hf hg rfl
  exact congrArg Prod.snd heq

theorem reached_of_known (h : ∀ p ∈ ps, (p.key M).isSome = true) : reached M ps = ps :=
  List.takeWhile_eq_self_iff.mpr h

/-- With known names, what is entered is well formed and satisfiable just when the effective lines fit. -/
theorem entered_iff (hall : ∀ p ∈ ps, (p.key M).isSome = true) (hparsed : ∀ p ∈ ps, p.Parsed) :
    ((∀ k c, installed M ps k = some c → ∃ f, (k.1, f) ∈ M.functions ∧ WellFormed f k.2 c) ∧
      ∀ f ∈ M.functions, Satisfiable M ps f) ↔
    ∀ k p, ¬ Declared M.paramContracts k → ps.find? (fun p => p.key M = some k) = some p →
      ∀ f, (k.1, f) ∈ M.functions → Fits f p := by
  have hinst : ∀ k c, installed M ps k = some c ↔ ¬ Declared M.paramContracts k ∧
      ∃ p, ps.find? (fun p => p.key M = some k) = some p ∧ p.contract = c := by
    intro k c
    rw [installed_eq_some, reached_of_known hall]
  have hfound : ∀ {k p}, ps.find? (fun p => p.key M = some k) = some p → p.key M = some k ∧ p ∈ ps :=
    fun hfind => ⟨by simpa using List.find?_some hfind, List.mem_of_find?_eq_some hfind⟩
  constructor
  · rintro ⟨hwf, hsat⟩ k p hfree hfind f hf
    obtain ⟨hkey, hmem⟩ := hfound hfind
    have hk := (hinst k p.contract).mpr ⟨hfree, p, hfind, rfl⟩
    obtain ⟨g, hg, hwell⟩ := hwf k p.contract hk
    obtain rfl := eq_of_mem_functions hf hg
    have hparam := (key_eq_some hkey).1
    refine (fits_iff (hparsed p hmem)).mpr ⟨hparam ▸ hwell, ?_⟩
    exact (satisfiable_iff (k.1, f)).mp (hsat _ hf) k.2 hwell.param p.contract hk
  · intro h
    have hfits : ∀ k c, installed M ps k = some c → ∀ f, (k.1, f) ∈ M.functions →
        WellFormed f k.2 c ∧ Takable f c := by
      intro k c hk f hf
      obtain ⟨hfree, p, hfind, rfl⟩ := (hinst k c).mp hk
      obtain ⟨hkey, hmem⟩ := hfound hfind
      rw [(key_eq_some hkey).1]
      exact (fits_iff (hparsed p hmem)).mp (h k p hfree hfind f hf)
    refine ⟨fun k c hk => ?_, fun f hf => ?_⟩
    · obtain ⟨_, p, hfind, _⟩ := (hinst k c).mp hk
      obtain ⟨_, f, hf⟩ := key_eq_some (hfound hfind).1
      exact ⟨f, hf, (hfits k c hk f hf).1⟩
    · exact (satisfiable_iff f).mpr fun i _ c hc => (hfits (f.1, i) c hc f.2 hf).2

/-- After an error the contracts are unchanged just when no line before the unknown name takes effect. -/
theorem unchanged_iff : (∀ k, (apply M ps).1.lookup k = M.paramContracts.lookup k) ↔
    ∀ p ∈ reached M ps, ∀ k, p.key M = some k → Declared M.paramContracts k := by
  have hinst : ∀ k, (apply M ps).1.lookup k = M.paramContracts.lookup k ↔ ∀ c, installed M ps k ≠ some c := by
    intro k
    rw [installed]
    have hlookup := applyFrom_lookup (M := M) ps M.paramContracts 0 k
    rw [← apply] at hlookup
    split_ifs with heq
    · simp [heq]
    · refine iff_of_false heq fun hno => ?_
      cases hnone : (apply M ps).1.lookup k with
      | some c => exact hno c hnone
      | none =>
        rw [hnone] at hlookup
        split_ifs at hlookup with hd
        · exact heq (hnone.trans hlookup)
        · exact heq (by rw [hnone, (Option.or_eq_none_iff.mp hlookup.symm).2])
  constructor
  · intro h p hp k hkey
    by_contra hfree
    cases hfind : (reached M ps).find? (fun p => p.key M = some k) with
    | none => exact absurd (List.find?_eq_none.mp hfind p hp) (by simp [hkey])
    | some q => exact (hinst k).mp (h k) q.contract (installed_eq_some.mpr ⟨hfree, q, hfind, rfl⟩)
  · intro h k
    refine (hinst k).mpr fun c hc => ?_
    obtain ⟨hfree, p, hfind, _⟩ := installed_eq_some.mp hc
    exact hfree (h p (List.mem_of_find?_eq_some hfind) k (by simpa using List.find?_some hfind))

/-- Applying a file is all or nothing, and well formed, just when its lines are harmless. -/
theorem apply_allOrNothing_iff (M : Module) (text : Llvm.Asm.Text) (ps : List Precondition)
    (h : parse text = .ok ps) : AllOrNothing M ps ↔ Harmless M ps := by
  have hres := applyFrom_result (M := M) ps M.paramContracts 0
  rw [← apply] at hres
  rw [AllOrNothing, Harmless]
  split_ifs with hall
  · obtain ⟨m, hm⟩ := hres.mpr hall
    rw [hm]
    exact entered_iff hall (parse_spec h)
  · cases hr : (apply M ps).2 with
    | ok m => exact absurd (hres.mp ⟨m, hr⟩) hall
    | error e => exact unchanged_iff

/-! ## Two files -/

/-- `fn f(p, n) { return }`. -/
def bufferFn : Func where
  name := "f"
  params := [(0, .ptr (.int 64)), (1, .int 64)]
  retTy := .unit
  blocks := [⟨0, [], [], .ret none⟩]
  entry := 0

def bufferModule : Module where
  functions := [(0, bufferFn)]
  layout := .lp64
  paramContracts := ∅
  unanalyzed := []
  internal := ∅
  globals := ∅
  rawPtrHints := ∅
  provGrants := ∅
  globalFnPtrs := ∅
  globalPtrFields := ∅
  regPtrHints := ∅
  fieldPtrEvidence := ∅
  fieldLoadSites := ∅
  mmioHandlers := ∅
  ids_nodup := by simp
  calls_own := by simp [bufferFn, Func.callees]
  params_own := by simp
  raw_own := by simp
  reg_own := by simp
  sites_own := by simp
  ptrs_own := by simp

theorem apply_allOrNothing_iff_elements :
    ∃ ps, parse "f 0 elements 1 8".toList = .ok ps ∧ ps.length = 1 ∧ AllOrNothing bufferModule ps := by
  have hparse : parse "f 0 elements 1 8".toList = .ok [⟨"f", 0, .paramElements 1 8, 8, true, none⟩] := by
    decide +kernel
  refine ⟨_, hparse, rfl, (apply_allOrNothing_iff bufferModule _ _ hparse).mpr ?_⟩
  rw [Harmless, if_pos (by decide +kernel)]
  intro k p _ hfind f hf
  obtain rfl := List.mem_singleton.mp (List.mem_of_find?_eq_some hfind)
  obtain ⟨_, rfl⟩ := Prod.mk.inj (List.mem_singleton.mp hf)
  exact ⟨by decide, by simp, by simp [bufferFn], by simp [elementSize]⟩

/-- The second line names no function, and the first one has been applied. -/
theorem unknownName_applied :
    ∃ ps, parse "f 0 bytes 8\ng 0 bytes 8".toList = .ok ps ∧ ¬ AllOrNothing bufferModule ps := by
  refine ⟨[⟨"f", 0, .bytes 8, 1, true, none⟩, ⟨"g", 0, .bytes 8, 1, true, none⟩], by decide +kernel, ?_⟩
  intro h
  have hlookup : ((apply bufferModule
      [⟨"f", 0, .bytes 8, 1, true, none⟩, ⟨"g", 0, .bytes 8, 1, true, none⟩]).1.lookup (0, 0)).isSome = true := by
    decide +kernel
  rw [h (0, 0)] at hlookup
  exact absurd hlookup (by decide)

end Precond

end Csolver
