import Csolver.Verifier.Facts

/-!
# Merging facts

Each builder lets a push through a merge, since everything that a module contributes is moved behind what
there is. The two that compute sizes do so with the layout of the first module they see, and let a push
through where that of the first module of all gives the same sizes.
-/

namespace Csolver

open Lib

namespace Facts

/-! ## Ids and names -/

theorem localId_shift (m : Module) (off base : Nat) (id : FuncId) :
    localId m (off + base) id = (localId m base id).map (off + ·) := by
  unfold localId
  rw [Option.map_map]
  congr 1
  funext i
  exact Nat.add_assoc off base i

theorem numbered_shift (m : Module) (off base : Nat) :
    numbered m (off + base) = (numbered m base).map fun f => (f.1, off + f.2) := by
  unfold numbered
  generalize m.functions = fs
  induction fs generalizing base with
  | nil => rfl
  | cons f fs ih => rw [List.zipIdx_cons, List.zipIdx_cons, List.map_cons, Nat.add_assoc, ih]

theorem mergeNames_orInsert (off : Nat) (a b : Map String FuncId) (n : String) (g : FuncId) :
    mergeNames off a (b.orInsert n g) = (mergeNames off a b).orInsert n (off + g) := by
  have hmap : (fun name => (b.orInsert n g name).map (off + ·)) =
      Map.orInsert (fun name => (b name).map (off + ·)) n (off + g) := by
    funext name
    simp only [Map.orInsert]
    cases b name with
    | some _ => rfl
    | none =>
      by_cases hn : name = n
      · rw [if_pos hn, if_pos hn]
        rfl
      · rw [if_neg hn, if_neg hn]
        rfl
  rw [mergeNames, hmap, Map.orElse_orInsert]
  rfl

theorem mergeNames_push (m : Module) (off base : Nat) (a b : Map String FuncId) :
    mergeNames off a (pushNames m base b) = pushNames m (off + base) (mergeNames off a b) := by
  unfold pushNames
  rw [numbered_shift, List.filter_map, List.foldl_map]
  simp only [Function.comp_def]
  generalize (numbered m base).filter _ = fs
  induction fs generalizing b with
  | nil => rfl
  | cons f fs ih => rw [List.foldl_cons, List.foldl_cons, ih, mergeNames_orInsert]

theorem mergeNames_none (off : Nat) (a : Map String FuncId) : mergeNames off a (fun _ => none) = a :=
  Map.orElse_none a

theorem rows_push {α β : Type} {move : α → α} (s t : List α) {fs : List β} {row row' : β → α}
    (h : ∀ f ∈ fs, move (row f) = row' f) :
    s ++ (t ++ fs.map row).map move = s ++ t.map move ++ fs.map row' := by
  rw [List.map_append, List.map_map, List.append_assoc]
  congr 2
  exact List.map_congr_left h

theorem rows_append {α β : Type} (s t : List α) (fs : List β) (row : β → α) :
    s ++ (t ++ fs.map row) = s ++ t ++ fs.map row := (List.append_assoc s t _).symm

theorem contractCallee_shift (m : Module) (off base : Nat) (c : Callee) :
    (contractCallee m base c).map (ContractCallee.shift off) = contractCallee m (off + base) c := by
  cases c with
  | direct old =>
    simp only [contractCallee, localId_shift, Option.map_map]
    rfl
  | symbol n => rfl
  | indirect op => rfl

/-! ## Summaries and scalars -/

theorem observableCalls_shift (m : Module) (off base : Nat) (f : Func) :
    (observableCalls m base f).map (fun c => (c.1.shift off, c.2)) = observableCalls m (off + base) f := by
  have hinst : ∀ i, (callRef m base i).map (fun c => (c.1.shift off, c.2)) = callRef m (off + base) i := by
    intro i
    cases i with
    | call dst callee args =>
      cases callee with
      | direct old =>
        simp only [callRef, localId_shift, Option.map_some]
        cases localId m base old <;> rfl
      | symbol n => rfl
      | indirect op => rfl
    | _ => rfl
  unfold observableCalls
  rw [List.map_flatMap]
  congr 1
  funext b
  rw [List.map_filterMap]
  congr 1
  funext i
  exact hinst i

theorem SummaryFacts.merge_push {S : Type} (A : Analyses S) (s t : SummaryFacts S) (m : Module) :
    s.merge (t.push A m) = (s.merge t).push A m := by
  unfold SummaryFacts.merge SummaryFacts.push
  congr 1
  · exact (Nat.add_assoc _ _ _).symm
  · exact mergeNames_push m _ _ _ _
  · exact rows_append _ _ _ _
  · exact rows_append _ _ _ _
  · exact rows_push _ _ fun f _ => observableCalls_shift m _ _ f.2
  · exact rows_append _ _ _ _

theorem SummaryFacts.merge_empty {S : Type} (s : SummaryFacts S) : s.merge .empty = s := by
  unfold SummaryFacts.merge SummaryFacts.empty
  simp only [mergeNames_none, List.append_nil, List.map_nil, Nat.add_zero]

theorem ScalarFacts.sitesOf_shift {S : Type} (A : Analyses S) (m : Module) (off base : Nat)
    (f : FuncId × Func) :
    (sitesOf A m base f).map (fun c => { c with callee := c.callee.shift off }) =
      sitesOf A m (off + base) f := by
  unfold sitesOf
  rw [List.map_flatMap]
  congr 1
  funext b
  rw [List.map_filterMap]
  congr 1
  funext i
  cases i with
  | call dst callee args =>
    simp only [site, ← contractCallee_shift m off base, Option.map_map]
    rfl
  | _ => rfl

theorem ScalarFacts.merge_push {S : Type} (A : Analyses S) (s t : ScalarFacts) (m : Module) :
    s.merge (t.push A m) = (s.merge t).push A m := by
  unfold ScalarFacts.merge ScalarFacts.push
  congr 1
  · exact (Nat.add_assoc _ _ _).symm
  · exact mergeNames_push m _ _ _ _
  · exact (Finset.union_assoc _ _ _).symm
  · exact rows_append _ _ _ _
  · exact rows_append _ _ _ _
  · exact rows_append _ _ _ _
  · exact rows_append _ _ _ _
  · exact rows_push _ _ fun f _ => sitesOf_shift A m _ _ f

theorem ScalarFacts.merge_empty (s : ScalarFacts) : s.merge .empty = s := by
  unfold ScalarFacts.merge ScalarFacts.empty
  simp only [mergeNames_none, List.append_nil, List.map_nil, Nat.add_zero, Finset.union_empty]

/-! ## Sizes and layouts -/

/-- The type whose size a builder reads off the instruction. -/
def sizedElem : Inst → Option Ty
  | .alloc _ _ elem (.const (.int _)) _ => some elem
  | .ptrOffset _ (.reg _) (.const (.int _)) elem => some elem
  | _ => none

/-- The two layouts give the same size to every constant allocation and offset of the module. -/
def SameSizes (L L' : DataLayout) (m : Module) : Prop :=
  ∀ f ∈ m.functions, ∀ b ∈ f.2.blocks, ∀ i ∈ b.insts, ∀ elem ∈ sizedElem i,
    elem.sizeBytes L = elem.sizeBytes L'

theorem SameSizes.refl (L : DataLayout) (m : Module) : SameSizes L L m := fun _ _ _ _ _ _ _ _ => rfl

section

variable {L L' : DataLayout} {i : Inst} (h : ∀ elem ∈ sizedElem i, elem.sizeBytes L = elem.sizeBytes L')

include h

theorem allocDef_congr : allocDef L i = allocDef L' i := by
  unfold allocDef
  split
  · rw [h _ rfl]
  · rfl

theorem offsetEdge_congr : offsetEdge L i = offsetEdge L' i := by
  unfold offsetEdge
  split
  · rw [h _ rfl]
  · rfl

theorem fieldEvent_congr (m : Module) (base : Nat) : fieldEvent L m base i = fieldEvent L' m base i := by
  unfold fieldEvent
  split
  · rw [offsetEdge_congr h]
  all_goals rfl

end

theorem callerDefFacts_congr {L L' : DataLayout} {m : Module} (h : SameSizes L L' m) {f : FuncId × Func}
    (hf : f ∈ m.functions) (hints : List (RegId × Contracts.SiteGuarantee)) :
    callerDefFacts L hints f.2 = callerDefFacts L' hints f.2 := by
  have hinst : ∀ i ∈ Contracts.insts f.2, ∀ elem ∈ sizedElem i, elem.sizeBytes L = elem.sizeBytes L' := by
    intro i hi
    obtain ⟨b, hb, hi⟩ := List.mem_flatMap.mp hi
    exact h f hf b hb i hi
  unfold callerDefFacts
  congr 1
  · exact List.filterMap_congr fun i hi => allocDef_congr (hinst i hi)
  · exact List.filterMap_congr fun i hi => offsetEdge_congr (hinst i hi)

theorem eventsOf_shift {L L' : DataLayout} {m : Module} (h : SameSizes L L' m) {f : FuncId × Func}
    (hf : f ∈ m.functions) (off base : Nat) :
    (FieldFacts.eventsOf L m base f.2).map (List.map (FieldEvent.shift off)) =
      FieldFacts.eventsOf L' m (off + base) f.2 := by
  unfold FieldFacts.eventsOf
  rw [List.map_map]
  apply List.map_congr_left
  intro b hb
  rw [Function.comp_apply, List.map_filterMap]
  apply List.filterMap_congr
  intro i hi
  rw [fieldEvent_congr (h f hf b hb i hi)]
  cases i with
  | call dst callee args =>
    simp only [fieldEvent, Option.map_some, FieldEvent.shift, contractCallee_shift]
  | ptrOffset dst ptr index elem =>
    cases ptr with
    | const c => rfl
    | reg r =>
      cases index with
      | reg q => rfl
      | const c =>
        cases c with
        | int bv =>
          simp only [fieldEvent, Option.map_map]
          rfl
        | _ => rfl
  | store ty ptr value volatile => cases ptr <;> rfl
  | memIntrinsic dst src len => cases dst <;> rfl
  | _ => rfl

/-! ## Contracts -/

theorem contractCalls_shift (m : Module) (off base : Nat) (f : Func) :
    (contractCalls m base f).map (fun c => (c.1.shift off, c.2)) = contractCalls m (off + base) f := by
  unfold contractCalls
  rw [List.map_filterMap]
  congr 1
  funext i
  cases i with
  | call dst callee args =>
    simp only [← contractCallee_shift m off base, Option.map_map]
    rfl
  | _ => rfl

theorem pushDeclared_shift (m : Module) (off base : Nat) (a b : Map (FuncId × Nat) PtrContract) :
    a.override ((pushDeclared m base b).shift off) =
      pushDeclared m (off + base) (a.override (b.shift off)) := by
  unfold pushDeclared
  generalize m.paramContracts.entries = es
  induction es generalizing b with
  | nil => rfl
  | cons e es ih =>
    rw [List.foldl_cons, List.foldl_cons, ih, localId_shift]
    cases localId m base e.1.1 with
    | none => rfl
    | some g => rw [Option.map_some, Map.shift_insert, Map.override_insert]

theorem layout_push (s t : Option DataLayout) (L : DataLayout) :
    s.or (some (t.getD L)) = some ((s.or t).getD L) := by
  cases s <;> rfl

theorem ContractFacts.merge_push {s t : ContractFacts} {m : Module}
    (h : SameSizes (t.layout.getD m.layout) ((s.layout.or t.layout).getD m.layout) m) :
    s.merge (t.push m) = (s.merge t).push m := by
  unfold ContractFacts.merge ContractFacts.push
  congr 1
  · exact (Nat.add_assoc _ _ _).symm
  · exact mergeNames_push m _ _ _ _
  · exact (Finset.union_assoc _ _ _).symm
  · exact layout_push _ _ _
  · exact rows_append _ _ _ _
  · exact rows_append _ _ _ _
  · exact rows_append _ _ _ _
  · exact rows_append _ _ _ _
  · exact pushDeclared_shift m _ _ _ _
  · rw [← List.append_assoc]
    congr 1
    exact List.map_congr_left fun f hf => callerDefFacts_congr h hf _
  · exact rows_push _ _ fun f _ => contractCalls_shift m _ _ f.2

theorem ContractFacts.merge_empty (s : ContractFacts) : s.merge .empty = s := by
  unfold ContractFacts.merge ContractFacts.empty
  simp only [mergeNames_none, List.append_nil, List.map_nil, Nat.add_zero, Finset.union_empty,
    Option.or_none, Map.shift_none, Map.override_none]

theorem FieldFacts.merge_push {s t : FieldFacts} {m : Module}
    (h : SameSizes (t.layout.getD m.layout) ((s.layout.or t.layout).getD m.layout) m) :
    s.merge (t.push m) = (s.merge t).push m := by
  unfold FieldFacts.merge FieldFacts.push
  congr 1
  · exact (Nat.add_assoc _ _ _).symm
  · exact mergeNames_push m _ _ _ _
  · exact (Finset.union_assoc _ _ _).symm
  · exact layout_push _ _ _
  · exact rows_append _ _ _ _
  · exact rows_append _ _ _ _
  · exact rows_append _ _ _ _
  · exact rows_append _ _ _ _
  · exact pushDeclared_shift m _ _ _ _
  · rw [← List.append_assoc]
    congr 1
    exact List.map_congr_left fun f hf => callerDefFacts_congr h hf _
  · exact rows_push _ _ fun f hf => eventsOf_shift h hf _ _

theorem FieldFacts.merge_empty (s : FieldFacts) : s.merge .empty = s := by
  unfold FieldFacts.merge FieldFacts.empty
  simp only [mergeNames_none, List.append_nil, List.map_nil, Nat.add_zero, Finset.union_empty,
    Option.or_none, Map.shift_none, Map.override_none]

end Facts

end Csolver
