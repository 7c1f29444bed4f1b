import Csolver.Absint.ProgramPointsTo
import Csolver.Ir.EvidenceShards

/-!
# Facts about a whole program (`WholeProgramFacts` of `crates/verifier/src/wholeprog.rs`)

One builder of all builders. The modules of a range are pushed one after another, the ranges are merged
in order, and the facts are finalized at the end. What the builders are finalized to is a parameter:
whatever it is, it is a function of what was built.

What the division into ranges can show is the alignment in the evidence of a field, sizes that depend on
which module comes first in its range, and the node budget.
-/

namespace Csolver

open Lib

namespace WholeProgram

/-! ## Field types and load sites -/

/-- The loop that folds the evidence of `other` into `types`. -/
def mergeTypes (types other : Map (String × Nat) Evidence) : Map (String × Nat) Evidence := fun k =>
  Evidence.mergeShard (types k) (other k)

/-- The external name of a function; `collect` keeps the last of equal ids. -/
def externalName (m : Module) (id : FuncId) : Option String :=
  (m.functions.reverse.find? fun f => decide (f.1 = id)).bind fun f =>
    if f.1 ∈ m.internal then none else some f.2.name

/-- The load sites in external functions, under the names of these. -/
def namedSites (m : Module) : List ((String × RegId) × (String × Nat)) :=
  m.fieldLoadSites.entries.filterMap fun e =>
    (externalName m e.1.1).map fun name => ((name, e.1.2), e.2)

def pushSites (sites : Map (String × RegId) (String × Nat)) (m : Module) :
    Map (String × RegId) (String × Nat) :=
  (namedSites m).foldl (fun sites e => sites.orInsert e.1 e.2) sites

end WholeProgram

structure WholeProgramFacts (S : Type) where
  summaries : Facts.SummaryFacts S
  scalars : Facts.ScalarFacts
  contracts : Facts.ContractFacts
  fields : Facts.FieldFacts
  nFunctions : Nat
  mmioHandlers : Map String MmioHandler
  fieldTypes : Map (String × Nat) Evidence
  fieldLoadSites : Map (String × RegId) (String × Nat)
  pointsto : ProgramPointsTo

/-- The facts of a program, by global id or by external name. -/
@[ext]
structure ProgramFacts (S : Type) where
  nFunctions : Nat
  summaries : Map FuncId S
  nameSummaries : Map String S
  scalars : Map (FuncId × Nat) (Int × Int)
  ptrContracts : Map (FuncId × Nat) PtrContract
  fieldContracts : Map (FuncId × Nat) (Map Nat PtrContract)
  nameScalars : Map (String × Nat) (Int × Int)
  namePtrContracts : Map (String × Nat) PtrContract
  nameFieldContracts : Map (String × Nat) (Map Nat PtrContract)
  nameMmio : Map String MmioHandler
  nameDevirt : Map (String × RegId) String
  fieldTypes : Map (String × Nat) Evidence
  fieldLoadSites : Map (String × RegId) (String × Nat)

/-- What the builders are finalized to. -/
structure Finalizers (S : Type) where
  summaries : Facts.SummaryFacts S → Map FuncId S
  scalars : Facts.ScalarFacts → Bool → Map (FuncId × Nat) (Int × Int)
  contracts : Facts.ContractFacts → Bool → Bool → Map (FuncId × Nat) PtrContract
  fields : Facts.FieldFacts → Map (FuncId × Nat) PtrContract → Bool → Map (FuncId × Nat) (Map Nat PtrContract)
  devirt : ProgramPointsTo → Map (String × RegId) String

namespace WholeProgramFacts

open WholeProgram

variable {S : Type}

def empty : WholeProgramFacts S where
  summaries := .empty
  scalars := .empty
  contracts := .empty
  fields := .empty
  nFunctions := 0
  mmioHandlers := fun _ => none
  fieldTypes := fun _ => none
  fieldLoadSites := fun _ => none
  pointsto := .empty

/-- `push_module`. -/
def push (A : Facts.Analyses S) (s : WholeProgramFacts S) (m : Module) : WholeProgramFacts S where
  summaries := s.summaries.push A m
  scalars := s.scalars.push A m
  contracts := s.contracts.push m
  fields := s.fields.push m
  nFunctions := s.nFunctions + m.functions.length
  mmioHandlers := s.mmioHandlers.orElse m.mmioHandlers.lookup
  fieldTypes := mergeTypes s.fieldTypes m.fieldPtrEvidence.lookup
  fieldLoadSites := pushSites s.fieldLoadSites m
  pointsto := s.pointsto.push ProgramPointsTo.overBudget m

def merge (s t : WholeProgramFacts S) : WholeProgramFacts S where
  summaries := s.summaries.merge t.summaries
  scalars := s.scalars.merge t.scalars
  contracts := s.contracts.merge t.contracts
  fields := s.fields.merge t.fields
  nFunctions := s.nFunctions + t.nFunctions
  mmioHandlers := s.mmioHandlers.orElse t.mmioHandlers
  fieldTypes := mergeTypes s.fieldTypes t.fieldTypes
  fieldLoadSites := s.fieldLoadSites.orElse t.fieldLoadSites
  pointsto := s.pointsto.merge ProgramPointsTo.overBudget t.pointsto

def builder (A : Facts.Analyses S) : Builder (WholeProgramFacts S) Module := ⟨empty, push A, merge⟩

/-- Facts under the external names of their functions. An id has one name. -/
def byName {V : Type} (names : Map String FuncId) (facts : Map (FuncId × Nat) V) : Map (String × Nat) V :=
  fun k => (names k.1).bind fun g => facts (g, k.2)

/-- The dispatch bound of the handlers, where no range was synthesized. -/
def boundHandlers (handlers : Map String MmioHandler) (scalars : Map (String × Nat) (Int × Int)) :
    Map (String × Nat) (Int × Int) :=
  scalars.orElse fun k => (handlers k.1).bind fun h => if h.sizeParam = k.2 then some (1, 8) else none

def finalize (fin : Finalizers S) (s : WholeProgramFacts S) (closedWorld assumeValidParams : Bool) :
    ProgramFacts S :=
  let names := s.summaries.nameToId
  let summaries := fin.summaries s.summaries
  let scalars := fin.scalars s.scalars closedWorld
  let ptrContracts := fin.contracts s.contracts closedWorld assumeValidParams
  let fieldContracts := fin.fields s.fields ptrContracts closedWorld
  { nFunctions := s.nFunctions
    summaries
    nameSummaries := fun name => (names name).bind summaries
    scalars
    ptrContracts
    fieldContracts
    nameScalars := boundHandlers s.mmioHandlers (byName names scalars)
    namePtrContracts := byName names ptrContracts
    nameFieldContracts := byName names fieldContracts
    nameMmio := s.mmioHandlers
    nameDevirt := if closedWorld then fin.devirt s.pointsto else fun _ => none
    fieldTypes := if closedWorld then s.fieldTypes else fun _ => none
    fieldLoadSites := if closedWorld then s.fieldLoadSites else fun _ => none }

end WholeProgramFacts

/-! ## A program in shards

The facts of shards that are merged in order are those of one pass over all modules, as long as nothing
depends on where a shard begins (`ShardIndependent`). Each part of the state is a builder of its own, and
each is shown to be independent of the division on its own.
-/

open Lib

namespace WholeProgramFacts

open WholeProgram Facts

variable {S : Type} (A : Analyses S)

/-! ## The parts -/

theorem summaries_sharded (shards : List (List Module)) :
    ((builder A).sharded shards).summaries = ((builder A).build shards.flatten).summaries := by
  have hproj : Builder.Projects (builder A) ⟨.empty, SummaryFacts.push A, SummaryFacts.merge⟩
      (fun s => s.summaries) := ⟨rfl, fun _ _ => rfl, fun _ _ => rfl⟩
  exact hproj.sharded_eq_of_forall SummaryFacts.merge_empty (SummaryFacts.merge_push A) shards

theorem scalars_sharded (shards : List (List Module)) :
    ((builder A).sharded shards).scalars = ((builder A).build shards.flatten).scalars := by
  have hproj : Builder.Projects (builder A) ⟨.empty, ScalarFacts.push A, ScalarFacts.merge⟩
      (fun s => s.scalars) := ⟨rfl, fun _ _ => rfl, fun _ _ => rfl⟩
  exact hproj.sharded_eq_of_forall ScalarFacts.merge_empty (ScalarFacts.merge_push A) shards

theorem nFunctions_sharded (shards : List (List Module)) :
    ((builder A).sharded shards).nFunctions = ((builder A).build shards.flatten).nFunctions := by
  have hproj : Builder.Projects (builder A) ⟨0, fun n m => n + m.functions.length, (· + ·)⟩
      (fun s => s.nFunctions) := ⟨rfl, fun _ _ => rfl, fun _ _ => rfl⟩
  exact hproj.sharded_eq_of_forall Nat.add_zero (fun n n' m => (Nat.add_assoc n n' _).symm) shards

theorem mmioHandlers_sharded (shards : List (List Module)) :
    ((builder A).sharded shards).mmioHandlers = ((builder A).build shards.flatten).mmioHandlers := by
  have hproj : Builder.Projects (builder A)
      ⟨fun _ => none, fun h m => Map.orElse h m.mmioHandlers.lookup, Map.orElse⟩
      (fun s => s.mmioHandlers) := ⟨rfl, fun _ _ => rfl, fun _ _ => rfl⟩
  exact hproj.sharded_eq_of_forall Map.orElse_none (fun _ _ _ => Map.orElse_assoc _ _ _) shards

theorem fieldLoadSites_sharded (shards : List (List Module)) :
    ((builder A).sharded shards).fieldLoadSites = ((builder A).build shards.flatten).fieldLoadSites := by
  have hproj : Builder.Projects (builder A) ⟨fun _ => none, pushSites, Map.orElse⟩
      (fun s => s.fieldLoadSites) := ⟨rfl, fun _ _ => rfl, fun _ _ => rfl⟩
  refine hproj.sharded_eq_of_forall Map.orElse_none (fun a b m => ?_) shards
  exact Map.orElse_foldl Prod.fst Prod.snd (namedSites m) a b

/-! ## Sizes -/

/-- In every shard the layout of its first module gives the sizes that the layout of the first module of
    all gives. -/
def SameLayouts (shards : List (List Module)) : Prop :=
  ∀ items ∈ shards, ∀ first ∈ shards.flatten.head?, ∀ head ∈ items.head?, ∀ m ∈ items,
    SameSizes head.layout first.layout m

/-- The layout that a builder of sizes has after the modules. -/
def firstLayout (ms : List Module) : Option DataLayout := ms.head?.map fun m => m.layout

theorem firstLayout_snoc (ms : List Module) (m : Module) :
    firstLayout (ms ++ [m]) = some ((firstLayout ms).getD m.layout) := by
  cases ms <;> rfl

/-- A builder of sizes: its layout is that of the first module it sees. -/
structure Sized {σ : Type} (B : Builder σ Module) (layout : σ → Option DataLayout) : Prop where
  empty : layout B.empty = none
  push : ∀ s m, layout (B.push s m) = some ((layout s).getD m.layout)
  merge_empty : ∀ s, B.merge s B.empty = s
  merge_push : ∀ s t m,
    SameSizes ((layout t).getD m.layout) (((layout s).or (layout t)).getD m.layout) m →
    B.merge s (B.push t m) = B.push (B.merge s t) m

variable {σ : Type} {B : Builder σ Module} {layout : σ → Option DataLayout}

theorem Sized.layout_build (h : Sized B layout) (ms : List Module) :
    layout (B.build ms) = firstLayout ms := by
  induction ms using List.reverseRecOn with
  | nil => exact h.empty
  | append_singleton ms m ih => rw [Builder.build_snoc, firstLayout_snoc, h.push, ih]

theorem Sized.lawful (hB : Sized B layout) {shards : List (List Module)} (h : SameLayouts shards) :
    B.Lawful shards where
  merge_empty _ := hB.merge_empty _
  lets := by
    rintro done items rest rfl ys m zs rfl
    apply hB.merge_push
    rw [hB.layout_build, hB.layout_build]
    have hm := h (ys ++ m :: zs) (by simp)
    -- The layout is that of the first module of the shard, or that of the first one before it.
    cases ys with
    | nil =>
      cases hdone : done.flatten with
      | nil => exact SameSizes.refl _ _
      | cons d ds => exact hm d (by simp [hdone]) m rfl m (by simp)
    | cons y ys =>
      cases hdone : done.flatten with
      | nil => exact hm y (by simp [hdone]) y rfl m (by simp)
      | cons d ds => exact hm d (by simp [hdone]) y rfl m (by simp)

def contractBuilder : Builder ContractFacts Module := ⟨.empty, ContractFacts.push, ContractFacts.merge⟩

def fieldBuilder : Builder FieldFacts Module := ⟨.empty, FieldFacts.push, FieldFacts.merge⟩

theorem contractBuilder_sized : Sized contractBuilder (fun s => s.layout) where
  empty := rfl
  push _ _ := rfl
  merge_empty := ContractFacts.merge_empty
  merge_push _ _ _ := ContractFacts.merge_push

theorem fieldBuilder_sized : Sized fieldBuilder (fun s => s.layout) where
  empty := rfl
  push _ _ := rfl
  merge_empty := FieldFacts.merge_empty
  merge_push _ _ _ := FieldFacts.merge_push

theorem contracts_sharded {shards : List (List Module)} (h : SameLayouts shards) :
    ((builder A).sharded shards).contracts = ((builder A).build shards.flatten).contracts := by
  have hproj : Builder.Projects (builder A) contractBuilder (fun s => s.contracts) :=
    ⟨rfl, fun _ _ => rfl, fun _ _ => rfl⟩
  exact hproj.sharded_eq (contractBuilder.sharded_eq_build (contractBuilder_sized.lawful h))

theorem fields_sharded {shards : List (List Module)} (h : SameLayouts shards) :
    ((builder A).sharded shards).fields = ((builder A).build shards.flatten).fields := by
  have hproj : Builder.Projects (builder A) fieldBuilder (fun s => s.fields) :=
    ⟨rfl, fun _ _ => rfl, fun _ _ => rfl⟩
  exact hproj.sharded_eq (fieldBuilder.sharded_eq_build (fieldBuilder_sized.lawful h))

/-! ## Field types -/

/-- What the modules say of a field, in order. -/
def observations (k : String × Nat) (ms : List Module) : List Evidence :=
  ms.filterMap fun m => m.fieldPtrEvidence.lookup k

theorem fieldTypes_build (ms : List Module) (k : String × Nat) :
    ((builder A).build ms).fieldTypes k = Evidence.fold (observations k ms) := by
  induction ms using List.reverseRecOn with
  | nil => rfl
  | append_singleton ms m ih =>
    have hstep : ((builder A).build (ms ++ [m])).fieldTypes k =
        Evidence.mergeShard (((builder A).build ms).fieldTypes k) (m.fieldPtrEvidence.lookup k) := by
      rw [Builder.build_snoc]
      rfl
    have hobs : observations k (ms ++ [m]) = observations k ms ++ (m.fieldPtrEvidence.lookup k).toList := by
      unfold observations
      rw [List.filterMap_append]
      cases hm : m.fieldPtrEvidence.lookup k <;> simp [hm]
    rw [hstep, ih, hobs]
    cases m.fieldPtrEvidence.lookup k with
    | none => rw [Option.toList_none, List.append_nil, Evidence.mergeShard]
    | some e => rw [Option.toList_some, Evidence.fold_snoc, Evidence.mergeShard]

theorem fieldTypes_sharded (shards : List (List Module)) (k : String × Nat) :
    ((builder A).sharded shards).fieldTypes k = Evidence.foldShards (shards.map (observations k)) := by
  induction shards using List.reverseRecOn with
  | nil => rfl
  | append_singleton shards items ih =>
    rw [Builder.sharded_snoc, List.map_append, List.map_singleton, Evidence.foldShards_snoc, ← ih,
      ← fieldTypes_build A items k]
    rfl

theorem observations_flatten (k : String × Nat) (shards : List (List Module)) :
    observations k shards.flatten = (shards.map (observations k)).flatten := by
  unfold observations
  rw [List.filterMap_flatten]

/-! ## All of it -/

/-- Nothing depends on where a shard begins. -/
structure ShardIndependent (shards : List (List Module)) (closedWorld : Bool) : Prop where
  layouts : SameLayouts shards
  evidence : closedWorld = true → ∀ k, Evidence.ShardSafe (shards.map (observations k))
  budget : closedWorld = true →
    ((ProgramPointsTo.builder ProgramPointsTo.unlimited).build shards.flatten).graph.Fits

/-- **Sharded extraction** gives the facts of a sequential scan. -/
theorem sharded_finalize_eq (fin : Finalizers S) {shards : List (List Module)} {closedWorld : Bool}
    (h : ShardIndependent shards closedWorld) (assumeValidParams : Bool) :
    ((builder A).sharded shards).finalize fin closedWorld assumeValidParams =
      ((builder A).build shards.flatten).finalize fin closedWorld assumeValidParams := by
  have hpointsto : closedWorld = true →
      ((builder A).sharded shards).pointsto = ((builder A).build shards.flatten).pointsto := by
    intro hcw
    have hproj : Builder.Projects (builder A) (ProgramPointsTo.builder ProgramPointsTo.overBudget)
        (fun s => s.pointsto) := ⟨rfl, fun _ _ => rfl, fun _ _ => rfl⟩
    exact hproj.sharded_eq (ProgramPointsTo.sharded_eq_build (h.budget hcw))
  have htypes : closedWorld = true →
      ((builder A).sharded shards).fieldTypes = ((builder A).build shards.flatten).fieldTypes := by
    intro hcw
    funext k
    rw [fieldTypes_sharded, fieldTypes_build, observations_flatten]
    exact Evidence.foldShards_eq_fold (h.evidence hcw k)
  unfold finalize
  rw [summaries_sharded, scalars_sharded, contracts_sharded A h.layouts, fields_sharded A h.layouts,
    nFunctions_sharded, mmioHandlers_sharded, fieldLoadSites_sharded]
  cases closedWorld with
  | false => rfl
  | true => rw [hpointsto rfl, htypes rfl]

/-- A module that only says what the first field of `s` points to. -/
def observer (e : Evidence) : Module where
  functions := []
  layout := .lp64
  paramContracts := ∅
  unanalyzed := []
  internal := ∅
  globals := ∅
  rawPtrHints := ∅
  provGrants := ∅
  globalFnPtrs := ∅
  globalPtrFields := ∅
  regPtrHints := ∅
  fieldPtrEvidence := AList.singleton ("s", 0) e
  fieldLoadSites := ∅
  mmioHandlers := ∅
  ids_nodup := List.nodup_nil
  calls_own := fun _ h => absurd h List.not_mem_nil
  params_own := fun _ h => absurd h List.not_mem_nil
  raw_own := fun _ h => absurd h List.not_mem_nil
  reg_own := fun _ h => absurd h List.not_mem_nil
  sites_own := fun _ h => absurd h List.not_mem_nil
  ptrs_own := fun _ _ h => absurd h (by simp)

theorem observations_observer (k : String × Nat) (es : List Evidence) :
    observations k (es.map observer) = if k = ("s", 0) then es else [] := by
  have hlook (e : Evidence) :
      (observer e).fieldPtrEvidence.lookup k = if k = ("s", 0) then some e else none := by
    by_cases hk : k = ("s", 0)
    · subst hk
      rfl
    · rw [if_neg hk]
      exact AList.lookup_eq_none.mpr fun h => hk (List.mem_singleton.mp h)
  unfold observations
  rw [List.filterMap_map]
  simp only [Function.comp_def, hlook]
  by_cases hk : k = ("s", 0)
  · simp only [if_pos hk, List.filterMap_some]
  · simp only [if_neg hk, List.filterMap_none]

def noAnalyses : Analyses Unit where
  summarizeFn _ := ()
  ptrParamOf _ _ := none
  returnedCallIndex _ := none
  analyzeIntervals _ := ⟨fun _ => .unreachable, fun _ => .unreachable⟩

def noFinalizers : Finalizers Unit :=
  ⟨fun _ _ => none, fun _ _ _ => none, fun _ _ _ _ => none, fun _ _ _ _ => none, fun _ _ => none⟩

/-- Two names with one alignment, in two shards. -/
theorem sharded_finalize_eq_observers :
    let shards : List (List Module) :=
      [[⟨8, 1, "a"⟩], [⟨8, 1, "b"⟩, ⟨8, 1, "b"⟩]].map (List.map observer)
    ((builder noAnalyses).sharded shards).finalize noFinalizers true true =
      ((builder noAnalyses).build shards.flatten).finalize noFinalizers true true := by
  refine sharded_finalize_eq noAnalyses noFinalizers ⟨?_, fun _ k => ?_, fun _ => ?_⟩ true
  · intro items hitems first _ head _ m hm f hf
    obtain ⟨es, _, rfl⟩ := List.mem_map.mp hitems
    obtain ⟨e, _, rfl⟩ := List.mem_map.mp hm
    exact absurd hf List.not_mem_nil
  · left
    rw [List.map_map]
    simp only [Function.comp_def, observations_observer]
    by_cases hk : k = ("s", 0)
    · simp only [if_pos hk]
      intro _ _
      decide
    · simp only [if_neg hk]
      intro _ _ o ho
      exact absurd ho List.not_mem_nil
  · show Finset.card _ < _
    decide

/-- Three alignments: a sequential scan keeps the last, a shard that holds two of them gives the first of
    these. -/
theorem sharded_alignment :
    ¬∃ (S : Type) (A : Analyses S) (fin : Finalizers S) (assumeValidParams : Bool),
      ((builder A).sharded [[observer ⟨8, 1, "a"⟩], [observer ⟨8, 2, "b"⟩, observer ⟨8, 3, "b"⟩]]).finalize
          fin true assumeValidParams =
        ((builder A).build [observer ⟨8, 1, "a"⟩, observer ⟨8, 2, "b"⟩, observer ⟨8, 3, "b"⟩]).finalize
          fin true assumeValidParams := by
  rintro ⟨S, A, fin, av, h⟩
  have htypes := congrFun (congrArg (fun p => p.fieldTypes) h) ("s", 0)
  unfold finalize at htypes
  simp only [if_true, fieldTypes_sharded, fieldTypes_build] at htypes
  revert htypes
  decide

end WholeProgramFacts

end Csolver
