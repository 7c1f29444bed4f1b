import Csolver.Ir.LinkEvidence
import Csolver.Ir.LinkPlan

/-!
# What linking preserves

The linked module keeps the functions, up to their ids, in every order of the modules. The tables with
names for keys are not renamed: a global, a handler or a field that two modules describe differently
keeps the description of one of them, chosen by the order.
-/

namespace Csolver

open Lib

namespace Link

/-! ## The parts of the linked module -/

theorem mergeModules_eq (mods : List Module) :
    mergeModules mods = (placed 0 mods).foldl
      (fun r q => mergeModule (mergeIdPlan mods).nameToId r (q.1, remapTable q)) (emptyModule mods) := by
  have hzip : mods.zip (mergeIdPlan mods).remaps = (placed 0 mods).map fun q => (q.1, remapTable q) := by
    rw [remaps_eq]
    have hz : ((placed 0 mods).map Prod.fst).zip ((placed 0 mods).map remapTable) =
        (placed 0 mods).map fun q => (q.1, remapTable q) := List.zip_map'
    rw [placed_fst] at hz
    exact hz
  rw [mergeModules, hzip, List.foldl_map]

theorem functions_eq (mods : List Module) :
    (mergeModules mods).functions = (placed 0 mods).flatMap fun q =>
      linkFunctions (mergeIdPlan mods).nameToId (remapTable q) q.1 := by
  have hfold (ps : List (Module × Nat)) (r : ModuleData) :
      (ps.foldl (fun r q => mergeModule (mergeIdPlan mods).nameToId r (q.1, remapTable q)) r).functions =
        r.functions ++ ps.flatMap fun q => linkFunctions (mergeIdPlan mods).nameToId (remapTable q) q.1 := by
    induction ps generalizing r with
    | nil => simp
    | cons q ps ih => rw [List.foldl_cons, ih, List.flatMap_cons, ← List.append_assoc, mergeModule]
  rw [mergeModules_eq, hfold]
  rfl

theorem mem_internal {mods : List Module} {id : FuncId} :
    id ∈ (mergeModules mods).internal ↔ ∃ q ∈ placed 0 mods, ∃ f ∈ q.1.functions,
      f.1 ∈ q.1.internal ∧ renumber (remapTable q) f.1 = id := by
  have hinner (remap : Table FuncId FuncId) (internal : Finset FuncId) (fs : List (FuncId × Func))
      (s : Finset FuncId) :
      id ∈ fs.foldl (fun s f => if f.1 ∈ internal then insert (renumber remap f.1) s else s) s ↔
        id ∈ s ∨ ∃ f ∈ fs, f.1 ∈ internal ∧ renumber remap f.1 = id := by
    induction fs generalizing s with
    | nil => simp
    | cons f fs ih =>
      rw [List.foldl_cons, ih]
      by_cases hf : f.1 ∈ internal
      · simp only [hf, if_true, Finset.mem_insert, List.exists_mem_cons_iff, true_and]
        rw [eq_comm (a := id), or_assoc, or_left_comm]
      · simp [hf]
  have hfold (ps : List (Module × Nat)) (r : ModuleData) :
      id ∈ (ps.foldl (fun r q => mergeModule (mergeIdPlan mods).nameToId r (q.1, remapTable q)) r).internal ↔
        id ∈ r.internal ∨ ∃ q ∈ ps, ∃ f ∈ q.1.functions,
          f.1 ∈ q.1.internal ∧ renumber (remapTable q) f.1 = id := by
    induction ps generalizing r with
    | nil => simp
    | cons q ps ih =>
      rw [List.foldl_cons, ih, List.exists_mem_cons_iff, ← or_assoc]
      refine or_congr ?_ Iff.rfl
      exact hinner _ _ _ _
  rw [mergeModules_eq, hfold]
  exact or_iff_right (Finset.notMem_empty id)

theorem table_eq {κ V : Type} [DecidableEq κ] {policy : Option V → V → V} (table : ModuleData → Table κ V)
    (hstep : ∀ names r p, table (mergeModule names r p) = mergeTable policy (table r) (table p.1.toModuleData))
    (mods : List Module) (hempty : table (emptyModule mods) = ∅) :
    table (mergeModules mods) = mergeTables policy (mods.map fun m => table m.toModuleData) := by
  have hfold (ps : List (Module × Nat)) (r : ModuleData) :
      table (ps.foldl (fun r q => mergeModule (mergeIdPlan mods).nameToId r (q.1, remapTable q)) r) =
        (ps.map fun q => table q.1.toModuleData).foldl (mergeTable policy) (table r) := by
    induction ps generalizing r with
    | nil => rfl
    | cons q ps ih => rw [List.foldl_cons, ih, List.map_cons, List.foldl_cons, hstep]
  have hmods : (placed 0 mods).map (fun q => table q.1.toModuleData) =
      mods.map fun m => table m.toModuleData := by
    conv_rhs => rw [← placed_fst 0 mods, List.map_map]
    rfl
  rw [mergeModules_eq, hfold, hmods, hempty, mergeTables]

theorem globals_eq (mods : List Module) :
    (mergeModules mods).globals = mergeTables firstWins (mods.map fun m => m.globals) :=
  table_eq (fun r => r.globals) (fun _ _ _ => rfl) mods rfl

theorem fieldPtrEvidence_eq (mods : List Module) : (mergeModules mods).fieldPtrEvidence =
    mergeTables mergeFieldEvidence (mods.map fun m => m.fieldPtrEvidence) :=
  table_eq (fun r => r.fieldPtrEvidence) (fun _ _ _ => rfl) mods rfl

theorem mmioHandlers_eq (mods : List Module) :
    (mergeModules mods).mmioHandlers = mergeTables lastWins (mods.map fun m => m.mmioHandlers) :=
  table_eq (fun r => r.mmioHandlers) (fun _ _ _ => rfl) mods rfl

/-! ## The functions -/

/-- The functions of `r'` are those of `r` with other ids. -/
def SameFunctions (r r' : ModuleData) : Prop :=
  ∃ σ : FuncId → FuncId, (Set.InjOn σ {id | id ∈ r.functions.map Prod.fst}) ∧
    r'.functions.Perm (r.functions.map (renameFunction σ)) ∧
    ∀ f ∈ r.functions, σ f.1 ∈ r'.internal ↔ f.1 ∈ r.internal

theorem mem_linkFunctions {names : Table String FuncId} {q : Module × Nat} {f : FuncId × Func}
    (hf : f ∈ linkFunctions names (remapTable q) q.1) :
    ∃ p < q.1.functions.length, f.1 = q.2 + p := by
  obtain ⟨g, hg, rfl⟩ := List.mem_map.mp hf
  obtain ⟨p, hp⟩ := List.mem_iff_getElem?.mp hg
  exact ⟨p, (List.getElem?_eq_some_iff.mp hp).1, renumber_eq hp⟩

/-- **The order of the modules only renumbers the functions.** -/
theorem sameFunctions {mods mods' : List Module} (hperm : mods'.Perm mods) (honce : ExternalOnce mods) :
    SameFunctions (mergeModules mods) (mergeModules mods') := by
  have honce' : ExternalOnce mods' :=
    (hperm.pairwise_iff fun {a b} h name hb ha => h name ha hb).mpr honce
  obtain ⟨T, hT⟩ := exists_moves hperm
  have hplace {id : FuncId} (hid : id ∈ (mergeModules mods).functions.map Prod.fst) :
      ∃ t ∈ T, ∃ p < t.1.1.functions.length, id = t.1.2 + p := by
    obtain ⟨f, hf, rfl⟩ := List.mem_map.mp hid
    rw [functions_eq] at hf
    obtain ⟨q, hq, hf⟩ := List.mem_flatMap.mp hf
    obtain ⟨t, ht, rfl⟩ := hT.of_placed hq
    exact ⟨t, ht, mem_linkFunctions hf⟩
  have hinj : Set.InjOn (moved T) {id | id ∈ (mergeModules mods).functions.map Prod.fst} := by
    intro x hx y hy heq
    obtain ⟨t, ht, p, hp, rfl⟩ := hplace hx
    obtain ⟨u, hu, p', hp', rfl⟩ := hplace hy
    exact hT.moved_inj ht hu hp hp' heq
  refine ⟨moved T, hinj, ?_, fun f hf => ⟨fun hin => ?_, fun hin => ?_⟩⟩
  · have hblocks : (mergeModules mods').functions = (T.map Prod.fst).flatMap fun q =>
        (linkFunctions (mergeIdPlan mods).nameToId (remapTable q) q.1).map (renameFunction (moved T)) := by
      rw [functions_eq, ← hT.there, List.flatMap_map, List.flatMap_map]
      exact List.flatMap_congr fun t ht => hT.linkFunctions_moved honce honce' ht
    rw [hblocks, functions_eq, List.map_flatMap]
    exact hT.here.flatMap_right _
  · obtain ⟨q, hq, g, hg, hint, heq⟩ := mem_internal.mp hin
    obtain ⟨t, ht, rfl⟩ := hT.of_placed' hq
    rw [← hT.same t ht] at hg hint
    rw [hT.renumber_moved ht (List.mem_map_of_mem hg)] at heq
    have hgid : renumber (remapTable t.1) g.1 ∈ (mergeModules mods).functions.map Prod.fst := by
      have hblock : (renumber (remapTable t.1) g.1,
          g.2.mapCallees (linkCallee (mergeIdPlan mods).nameToId (remapTable t.1))) ∈
          linkFunctions (mergeIdPlan mods).nameToId (remapTable t.1) t.1.1 :=
        List.mem_map.mpr ⟨g, hg, rfl⟩
      rw [functions_eq]
      exact List.mem_map.mpr ⟨_, List.mem_flatMap.mpr ⟨t.1, hT.placed_of ht, hblock⟩, rfl⟩
    have hid := hinj hgid (List.mem_map_of_mem hf) heq
    exact mem_internal.mpr ⟨t.1, hT.placed_of ht, g, hg, hint, hid⟩
  · obtain ⟨q, hq, g, hg, hint, heq⟩ := mem_internal.mp hin
    obtain ⟨t, ht, rfl⟩ := hT.of_placed hq
    refine mem_internal.mpr ⟨t.2, hT.placed_of' ht, g, hT.same t ht ▸ hg, hT.same t ht ▸ hint, ?_⟩
    rw [hT.renumber_moved ht (List.mem_map_of_mem hg), heq]

/-! ## The tables with names for keys -/

/-- A function's own globals mean in the linked module what its module says. -/
def ResolvesOwn (mods : List Module) : Prop :=
  ∀ m ∈ mods, ∀ f ∈ m.functions, ∀ x ∈ f.2.symbols, ∀ g, m.globals.lookup x = some g →
    (mergeModules mods).globals.lookup x = some g

/-- The first module that defines a global of the name defines it as a module does that refers to it
    and defines it. -/
def GlobalsFit (mods : List Module) : Prop :=
  ∀ m ∈ mods, ∀ f ∈ m.functions, ∀ x ∈ f.2.symbols, ∀ g, m.globals.lookup x = some g →
    (mods.filterMap fun m => m.globals.lookup x).head? = some g

/-- Handlers of the same name are described alike. -/
def HandlersAgree (mods : List Module) : Prop :=
  ∀ m ∈ mods, ∀ m' ∈ mods, ∀ name h h', m.mmioHandlers.lookup name = some h →
    m'.mmioHandlers.lookup name = some h' → h = h'

/-- The observations of each field can be folded in any order. -/
def EvidenceAgrees (mods : List Module) : Prop :=
  ∀ k, Evidence.Agree (mods.filterMap fun m => m.fieldPtrEvidence.lookup k)

/-- Field evidence, handlers and functions are the same in every order of the modules. -/
def OrderFree (mods : List Module) : Prop :=
  ∀ mods' : List Module, mods'.Perm mods →
    (∀ k, (mergeModules mods').fieldPtrEvidence.lookup k = (mergeModules mods).fieldPtrEvidence.lookup k) ∧
    (∀ name, (mergeModules mods').mmioHandlers.lookup name = (mergeModules mods).mmioHandlers.lookup name) ∧
    SameFunctions (mergeModules mods) (mergeModules mods')

theorem mergeValues_firstWins {V : Type} (vs : List V) : mergeValues firstWins vs = vs.head? := by
  have hfold (v : V) (vs : List V) : vs.foldl (fun o v => some (firstWins o v)) (some v) = some v := by
    induction vs with
    | nil => rfl
    | cons w vs ih => exact ih
  cases vs with
  | nil => rfl
  | cons v vs => exact hfold v vs

theorem mergeValues_lastWins {V : Type} (vs : List V) : mergeValues lastWins vs = vs.getLast? := by
  induction vs using List.reverseRecOn with
  | nil => rfl
  | append_singleton vs v ih => rw [mergeValues, List.foldl_append, List.getLast?_concat]; rfl

theorem resolvesOwn_iff (mods : List Module) : ResolvesOwn mods ↔ GlobalsFit mods := by
  have hlookup (x : String) : (mergeModules mods).globals.lookup x =
      (mods.filterMap fun m => m.globals.lookup x).head? := by
    rw [globals_eq, lookup_mergeTables, mergeValues_firstWins, List.filterMap_map]
    rfl
  simp only [ResolvesOwn, GlobalsFit, hlookup]

theorem evidence_orderFree_iff (mods : List Module) :
    (∀ mods' : List Module, mods'.Perm mods → ∀ k, (mergeModules mods').fieldPtrEvidence.lookup k =
      (mergeModules mods).fieldPtrEvidence.lookup k) ↔ EvidenceAgrees mods := by
  simp only [fieldPtrEvidence_eq]
  rw [mergeTables_perm_iff]
  exact forall_congr' fun k => Evidence.orderFree_iff _

theorem handlers_orderFree_iff (mods : List Module) :
    (∀ mods' : List Module, mods'.Perm mods → ∀ k, (mergeModules mods').mmioHandlers.lookup k =
      (mergeModules mods).mmioHandlers.lookup k) ↔ HandlersAgree mods := by
  simp only [mmioHandlers_eq]
  rw [mergeTables_perm_iff]
  simp only [mergeValues_lastWins]
  constructor
  · intro h m hm m' hm' name v v' hv hv'
    -- Any of the values comes last in some order.
    have hlast {w : MmioHandler} {n : Module} (hn : n ∈ mods) (hw : n.mmioHandlers.lookup name = some w) :
        (mods.filterMap fun m => m.mmioHandlers.lookup name).getLast? = some w := by
      have hmem : w ∈ mods.filterMap fun m => m.mmioHandlers.lookup name :=
        List.mem_filterMap.mpr ⟨n, hn, hw⟩
      have hperm := (List.perm_append_singleton w _).trans (List.perm_cons_erase hmem).symm
      rw [← h name _ hperm, List.getLast?_concat]
    have heq := (hlast hm hv).symm.trans (hlast hm' hv')
    exact Option.some.inj heq
  · intro h k vs hperm
    have hall {v w : MmioHandler} (hv : v ∈ vs) (hw : w ∈ mods.filterMap fun m => m.mmioHandlers.lookup k) :
        v = w := by
      obtain ⟨m, hm, hmv⟩ := List.mem_filterMap.mp (hperm.mem_iff.mp hv)
      obtain ⟨m', hm', hmw⟩ := List.mem_filterMap.mp hw
      exact h m hm m' hm' k v w hmv hmw
    cases hv : vs.getLast? with
    | none =>
      rw [List.getLast?_eq_none_iff.mp hv] at hperm
      rw [List.nil_perm.mp hperm]
      rfl
    | some v =>
      have hvm := List.mem_of_getLast? hv
      cases hw : (mods.filterMap fun m => m.mmioHandlers.lookup k).getLast? with
      | none =>
        rw [List.getLast?_eq_none_iff.mp hw] at hperm
        rw [List.perm_nil.mp hperm] at hvm
        exact absurd hvm List.not_mem_nil
      | some w => rw [hall hvm (List.mem_of_getLast? hw)]

/-- **What linking keeps.** Functions see their own globals, and the result does not depend on the order
    of the modules, exactly if the modules describe a name that they share alike. -/
theorem mergeModules_preserves_iff (mods : List Module) :
    (ResolvesOwn mods ∧ (ExternalOnce mods → OrderFree mods)) ↔
      GlobalsFit mods ∧ (ExternalOnce mods → HandlersAgree mods ∧ EvidenceAgrees mods) := by
  refine and_congr (resolvesOwn_iff mods) (forall_congr' fun honce => ⟨fun h => ⟨?_, ?_⟩, fun h => ?_⟩)
  · exact (handlers_orderFree_iff mods).mp fun mods' hperm => (h mods' hperm).2.1
  · exact (evidence_orderFree_iff mods).mp fun mods' hperm => (h mods' hperm).1
  · intro mods' hperm
    refine ⟨(evidence_orderFree_iff mods).mpr h.2 mods' hperm,
      (handlers_orderFree_iff mods).mpr h.1 mods' hperm, sameFunctions hperm honce⟩

/-- A function that reads the first byte of the global `buf`. -/
def readsBuf (name : String) : Func where
  name := name
  params := []
  retTy := .unit
  blocks := [⟨0, [], [.load 0 (.int 8) (.const (.symbol "buf")) false], .ret none⟩]
  entry := 0

/-- A module with one such function and a `buf` of its own. -/
def bufModule (name : String) (size : Nat) : Module where
  functions := [(0, readsBuf name)]
  layout := .lp64
  paramContracts := ∅
  unanalyzed := []
  internal := ∅
  globals := AList.singleton "buf" ⟨size, 1, true⟩
  rawPtrHints := ∅
  provGrants := ∅
  globalFnPtrs := ∅
  globalPtrFields := ∅
  regPtrHints := ∅
  fieldPtrEvidence := ∅
  fieldLoadSites := ∅
  mmioHandlers := ∅
  ids_nodup := List.nodup_singleton _
  calls_own := by simp [readsBuf, Func.callees, Inst.callee]
  params_own := fun _ h => absurd h List.not_mem_nil
  raw_own := fun _ h => absurd h List.not_mem_nil
  reg_own := fun _ h => absurd h List.not_mem_nil
  sites_own := fun _ h => absurd h List.not_mem_nil
  ptrs_own := fun _ _ h => absurd h (by simp)

/-- Two `static` buffers of the same name: the function of the second module gets the first one. -/
theorem mergeModules_buffer_replaced :
    ¬(ResolvesOwn [bufModule "first" 64, bufModule "second" 4] ∧
      (ExternalOnce [bufModule "first" 64, bufModule "second" 4] →
        OrderFree [bufModule "first" 64, bufModule "second" 4])) := by
  rintro ⟨h, -⟩
  have hsecond := h (bufModule "second" 4) (by simp) (0, readsBuf "second") (by simp [bufModule]) "buf"
    (by decide) ⟨4, 1, true⟩ (by decide)
  rw [globals_eq, lookup_mergeTables, mergeValues_firstWins] at hsecond
  revert hsecond
  decide

end Link

end Csolver
