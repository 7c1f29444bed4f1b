import Csolver.Ir.Link

/-!
# Renumbering functions while linking

The ids that `merge_id_plan` hands out are the positions of the functions in the modules one after
another. For another order of the modules they are renumbered by moving each module's range; if no two
modules export the same name, calls by name resolve to the moved ids too.
-/

namespace Csolver

open Lib

namespace Link

/-- The modules with the id of their first function. -/
def placed : Nat → List Module → List (Module × Nat)
  | _, [] => []
  | off, m :: ms => (m, off) :: placed (off + m.functions.length) ms

def remapTable (q : Module × Nat) : Table FuncId FuncId :=
  (q.1.functions.foldl (fun (p : Table FuncId FuncId × Nat) f => (p.1.insert f.1 p.2, p.2 + 1)) (∅, q.2)).1

/-- The function that a module exports under a name. -/
def exported (q : Module × Nat) (name : String) : Option FuncId :=
  ((q.1.functions.zipIdx q.2).find? fun f => decide (f.1.1 ∉ q.1.internal ∧ f.1.2.name = name)).map Prod.snd

theorem placed_fst (off : Nat) (ms : List Module) : (placed off ms).map Prod.fst = ms := by
  induction ms generalizing off with
  | nil => rfl
  | cons m ms ih => rw [placed, List.map_cons, ih]

theorem placed_ge {off : Nat} {ms : List Module} {q : Module × Nat} (hq : q ∈ placed off ms) :
    off ≤ q.2 := by
  induction ms generalizing off with
  | nil => exact absurd hq List.not_mem_nil
  | cons m ms ih =>
    rcases List.mem_cons.mp hq with rfl | hq
    · exact Nat.le_refl _
    · exact Nat.le_trans (Nat.le_add_right _ _) (ih hq)

/-- The ranges of two modules do not meet. -/
def Apart (a b : Module × Nat) : Prop :=
  a.2 + a.1.functions.length ≤ b.2 ∨ b.2 + b.1.functions.length ≤ a.2

theorem placed_apart (off : Nat) (ms : List Module) : (placed off ms).Pairwise Apart := by
  induction ms generalizing off with
  | nil => exact .nil
  | cons m ms ih => exact .cons (fun q hq => .inl (placed_ge hq)) (ih _)

theorem foldl_planFunction (internal : Finset FuncId) (fs : List (FuncId × Func))
    (names : Table String FuncId) (remap : Table FuncId FuncId) (next : Nat) :
    let r := fs.foldl (planFunction internal) (names, remap, next)
    (∀ name, r.1.lookup name = (names.lookup name).or
      (((fs.zipIdx next).find? fun f => decide (f.1.1 ∉ internal ∧ f.1.2.name = name)).map Prod.snd)) ∧
    r.2.1 = (fs.foldl (fun (p : Table FuncId FuncId × Nat) f => (p.1.insert f.1 p.2, p.2 + 1))
      (remap, next)).1 ∧ r.2.2 = next + fs.length := by
  induction fs generalizing names remap next with
  | nil => exact ⟨fun name => by simp, rfl, rfl⟩
  | cons f fs ih =>
    obtain ⟨hnames, hremap, hnext⟩ := ih (planFunction internal (names, remap, next) f).1
      (remap.insert f.1 next) (next + 1)
    refine ⟨fun name => ?_, hremap, hnext.trans (Nat.add_right_comm next 1 _)⟩
    refine (hnames name).trans ?_
    rw [List.zipIdx_cons, List.find?_cons]
    by_cases hint : f.1 ∈ internal
    · simp [planFunction, hint]
    · by_cases hname : f.2.name = name
      · subst hname
        cases hl : names.lookup f.2.name with
        | some id => simp [planFunction, hint, hl]
        | none => simp [planFunction, hint, hl]
      · cases hl : names.lookup f.2.name with
        | some id => simp [planFunction, hint, hl, hname]
        | none => simp [planFunction, hint, hl, hname, AList.lookup_insert_ne (Ne.symm hname)]

theorem foldl_planModule (ms : List Module) (p : IdPlan) :
    (∀ name, (ms.foldl planModule p).nameToId.lookup name =
      (p.nameToId.lookup name).or ((placed p.next ms).findSome? (exported · name))) ∧
    (ms.foldl planModule p).remaps = p.remaps ++ (placed p.next ms).map remapTable := by
  induction ms generalizing p with
  | nil => exact ⟨fun name => by simp [placed], by simp [placed]⟩
  | cons m ms ih =>
    obtain ⟨hnames, hremaps⟩ := ih (planModule p m)
    obtain ⟨hn, hr, hnext⟩ := foldl_planFunction m.internal m.functions p.nameToId ∅ p.next
    have hnext : (planModule p m).next = p.next + m.functions.length := hnext
    rw [hnext] at hnames hremaps
    refine ⟨fun name => ?_, ?_⟩
    · rw [List.foldl_cons, hnames name, placed, List.findSome?_cons]
      have hn : (planModule p m).nameToId.lookup name =
          (p.nameToId.lookup name).or (exported (m, p.next) name) := hn name
      rw [hn, Option.or_assoc]
      cases exported (m, p.next) name <;> rfl
    · rw [List.foldl_cons, hremaps, placed, List.map_cons]
      have hr : (planModule p m).remaps = p.remaps ++ [remapTable (m, p.next)] := by
        rw [planModule]
        exact congrArg (fun t => p.remaps ++ [t]) hr
      rw [hr, List.append_assoc, List.singleton_append]

theorem nameToId_eq (mods : List Module) (name : String) :
    (mergeIdPlan mods).nameToId.lookup name = (placed 0 mods).findSome? (exported · name) := by
  rw [mergeIdPlan, (foldl_planModule mods ⟨∅, [], 0⟩).1, AList.lookup_empty, Option.none_or]

theorem remaps_eq (mods : List Module) : (mergeIdPlan mods).remaps = (placed 0 mods).map remapTable :=
  (foldl_planModule mods ⟨∅, [], 0⟩).2

/-- **A function's new id is its position after the start of its module.** -/
theorem renumber_eq {q : Module × Nat} {f : FuncId × Func} {p : Nat} (hf : q.1.functions[p]? = some f) :
    renumber (remapTable q) f.1 = q.2 + p := by
  have hfold (fs : List (FuncId × Func)) (hnd : (fs.map Prod.fst).Nodup) (t : Table FuncId FuncId)
      (next : Nat) :
      (∀ id ∉ fs.map Prod.fst, ((fs.foldl (fun (p : Table FuncId FuncId × Nat) f =>
        (p.1.insert f.1 p.2, p.2 + 1)) (t, next)).1).lookup id = t.lookup id) ∧
      ∀ (p : Nat) (f : FuncId × Func), fs[p]? = some f → ((fs.foldl (fun (p : Table FuncId FuncId × Nat) f =>
        (p.1.insert f.1 p.2, p.2 + 1)) (t, next)).1).lookup f.1 = some (next + p) := by
    induction fs generalizing t next with
    | nil => exact ⟨fun _ _ => rfl, fun p f hf => absurd hf (by simp)⟩
    | cons g fs ih =>
      rw [List.map_cons, List.nodup_cons] at hnd
      obtain ⟨hother, hself⟩ := ih hnd.2 (t.insert g.1 next) (next + 1)
      refine ⟨fun id hid => ?_, fun p f hf => ?_⟩
      · rw [List.map_cons, List.mem_cons, not_or] at hid
        rw [List.foldl_cons, hother id hid.2, AList.lookup_insert_ne hid.1]
      · cases p with
        | zero =>
          obtain rfl : g = f := by simpa using hf
          rw [List.foldl_cons, hother _ hnd.1, AList.lookup_insert, Nat.add_zero]
        | succ p =>
          rw [List.foldl_cons, hself p f (by simpa using hf)]
          congr 1
          omega
  rw [renumber, remapTable, (hfold _ q.1.ids_nodup ∅ q.2).2 p f hf, Option.getD_some]

/-! ## Another order of the modules -/

/-- The functions that a module exports. -/
def Exports (m : Module) (name : String) : Prop := ∃ f ∈ m.functions, f.1 ∉ m.internal ∧ f.2.name = name

/-- No two modules define the same external function. -/
def ExternalOnce (mods : List Module) : Prop :=
  mods.Pairwise fun a b => ∀ name, Exports a name → ¬Exports b name

theorem exported_eq {m : Module} {off : Nat} {name : String} {id : FuncId}
    (h : exported (m, off) name = some id) :
    Exports m name ∧ ∃ p < m.functions.length, id = off + p ∧
      ∀ off', exported (m, off') name = some (off' + p) := by
  have hshift (off off' : Nat) (fs : List (FuncId × Func)) (q : FuncId × Func → Bool) (id : FuncId) :
      ((fs.zipIdx off).find? (fun f => q f.1)).map Prod.snd = some id → ∃ f ∈ fs, q f = true ∧
        ∃ p < fs.length, id = off + p ∧ ((fs.zipIdx off').find? (fun f => q f.1)).map Prod.snd = some (off' + p) := by
    induction fs generalizing off off' with
    | nil => exact fun h => absurd h (by simp)
    | cons g fs ih =>
      intro h
      rw [List.zipIdx_cons, List.find?_cons] at h ⊢
      cases hq : q g with
      | true =>
        simp only [hq] at h ⊢
        refine ⟨g, List.mem_cons_self, hq, 0, Nat.succ_pos _, (Option.some.inj h).symm, rfl⟩
      | false =>
        simp only [hq] at h ⊢
        obtain ⟨f, hf, hqf, p, hp, hid, hoff⟩ := ih (off + 1) (off' + 1) h
        refine ⟨f, List.mem_cons_of_mem _ hf, hqf, p + 1, Nat.succ_lt_succ hp, ?_, ?_⟩
        · exact hid.trans (Nat.add_right_comm off 1 p)
        · exact hoff.trans (congrArg some (Nat.add_right_comm off' 1 p))
  obtain ⟨f, hf, hq, p, hp, hid, -⟩ := hshift off off m.functions
    (fun f => decide (f.1 ∉ m.internal ∧ f.2.name = name)) id h
  refine ⟨⟨f, hf, of_decide_eq_true hq⟩, p, hp, hid, fun off' => ?_⟩
  obtain ⟨-, -, -, p', -, hid', hoff⟩ := hshift off off' m.functions
    (fun f => decide (f.1 ∉ m.internal ∧ f.2.name = name)) id h
  have hpp : p' = p := Nat.add_left_cancel (hid'.symm.trans hid)
  rw [hpp] at hoff
  exact hoff

theorem nameToId_of_exported {mods : List Module} (h : ExternalOnce mods) {q : Module × Nat}
    (hq : q ∈ placed 0 mods) {name : String} {id : FuncId} (he : exported q name = some id) :
    (mergeIdPlan mods).nameToId.lookup name = some id := by
  rw [nameToId_eq]
  cases hfind : (placed 0 mods).findSome? (exported · name) with
  | none => exact absurd (List.findSome?_eq_none_iff.mp hfind q hq) (by simp [he])
  | some id' =>
    obtain ⟨q', hq', he'⟩ := List.exists_of_findSome?_eq_some hfind
    have hpw : (placed 0 mods).Pairwise fun a b => ∀ name, Exports a.1 name → ¬Exports b.1 name := by
      have hmap := placed_fst 0 mods
      rw [ExternalOnce, ← hmap] at h
      exact List.pairwise_map.mp h
    have hsym : Std.Symm fun a b : Module × Nat => ∀ name, Exports a.1 name → ¬Exports b.1 name :=
      ⟨fun a b hab name hb ha => hab name ha hb⟩
    by_cases heq : q' = q
    · rw [heq, he] at he'
      exact he'.symm
    · exact absurd (exported_eq he).1 (hpw.forall hq' hq heq name (exported_eq he').1)

theorem exported_of_nameToId {mods : List Module} {name : String} {id : FuncId}
    (h : (mergeIdPlan mods).nameToId.lookup name = some id) :
    ∃ q ∈ placed 0 mods, exported q name = some id := by
  rw [nameToId_eq] at h
  exact List.exists_of_findSome?_eq_some h

/-- Where the modules of a list are in another order of it: each with its place there and here. -/
structure Moves (mods mods' : List Module) (T : List ((Module × Nat) × (Module × Nat))) : Prop where
  here : (T.map Prod.fst).Perm (placed 0 mods)
  there : T.map Prod.snd = placed 0 mods'
  same : ∀ t ∈ T, t.1.1 = t.2.1

theorem forall₂_fst {ms : List Module} {u v : List (Module × Nat)}
    (hu : List.Forall₂ (fun m (q : Module × Nat) => q.1 = m) ms u)
    (hv : List.Forall₂ (fun m (q : Module × Nat) => q.1 = m) ms v) :
    List.Forall₂ (fun a b : Module × Nat => a.1 = b.1) u v := by
  induction hu generalizing v with
  | nil =>
    cases hv
    exact .nil
  | cons hab _ ih =>
    cases hv with
    | cons hcb hrest => exact .cons (hab.trans hcb.symm) (ih hrest)

theorem exists_moves {mods mods' : List Module} (h : mods'.Perm mods) : ∃ T, Moves mods mods' T := by
  have hforall (ms : List Module) (off : Nat) :
      List.Forall₂ (fun m (q : Module × Nat) => q.1 = m) ms (placed off ms) := by
    induction ms generalizing off with
    | nil => exact .nil
    | cons m ms ih => exact .cons rfl (ih _)
  obtain ⟨w, hw, hperm⟩ := List.perm_comp_forall₂ h (hforall mods 0)
  have hlen : w.length = (placed 0 mods').length :=
    hw.length_eq.symm.trans (hforall mods' 0).length_eq
  refine ⟨w.zip (placed 0 mods'), ?_, ?_, fun t ht => ?_⟩
  · rw [List.map_fst_zip hlen.le]
    exact hperm
  · exact List.map_snd_zip hlen.ge
  · have hzip := forall₂_fst hw (hforall mods' 0)
    exact (List.forall₂_iff_zip.mp hzip).2 ht

def moved (T : List ((Module × Nat) × (Module × Nat))) (id : FuncId) : FuncId :=
  match T.find? fun t => decide (t.1.2 ≤ id ∧ id < t.1.2 + t.1.1.functions.length) with
  | some t => t.2.2 + (id - t.1.2)
  | none => id

namespace Moves

variable {mods mods' : List Module} {T : List ((Module × Nat) × (Module × Nat))}
  (h : Moves mods mods' T)
include h

theorem apart : T.Pairwise fun t u => Apart t.1 u.1 := by
  have hpw : (T.map Prod.fst).Pairwise Apart := (h.here.pairwise_iff Or.symm).mpr (placed_apart 0 mods)
  exact List.pairwise_map.mp hpw

theorem apart' : T.Pairwise fun t u => Apart t.2 u.2 := by
  have hpw := placed_apart 0 mods'
  rw [← h.there] at hpw
  exact List.pairwise_map.mp hpw

/-- **Ids move with their module.** -/
theorem moved_eq {t : (Module × Nat) × (Module × Nat)} (ht : t ∈ T) {p : Nat}
    (hp : p < t.1.1.functions.length) : moved T (t.1.2 + p) = t.2.2 + p := by
  have hin : decide (t.1.2 ≤ t.1.2 + p ∧ t.1.2 + p < t.1.2 + t.1.1.functions.length) = true :=
    decide_eq_true ⟨Nat.le_add_right _ _, Nat.add_lt_add_left hp _⟩
  rw [moved]
  cases hfind : T.find? fun u => decide (u.1.2 ≤ t.1.2 + p ∧ t.1.2 + p < u.1.2 + u.1.1.functions.length) with
  | none => exact absurd hin (List.find?_eq_none.mp hfind t ht)
  | some u =>
    have hu : u.1.2 ≤ t.1.2 + p ∧ t.1.2 + p < u.1.2 + u.1.1.functions.length := by
      simpa using List.find?_some hfind
    have hsym : Std.Symm fun t u : (Module × Nat) × (Module × Nat) => Apart t.1 u.1 :=
      ⟨fun _ _ h => h.symm⟩
    have heq : u = t := by
      by_contra hne
      rcases h.apart.forall (List.mem_of_find?_eq_some hfind) ht hne with hlt | hlt
      · exact absurd hu.2 (Nat.not_lt.mpr (Nat.le_trans hlt (Nat.le_add_right _ _)))
      · exact absurd hu.1 (Nat.not_le.mpr (Nat.lt_of_lt_of_le (Nat.add_lt_add_left hp _) hlt))
    rw [heq]
    exact congrArg (t.2.2 + ·) (Nat.add_sub_cancel_left _ _)

theorem moved_inj {t u : (Module × Nat) × (Module × Nat)} (ht : t ∈ T) (hu : u ∈ T) {p p' : Nat}
    (hp : p < t.1.1.functions.length) (hp' : p' < u.1.1.functions.length)
    (heq : moved T (t.1.2 + p) = moved T (u.1.2 + p')) : t.1.2 + p = u.1.2 + p' := by
  have heq : t.2.2 + p = u.2.2 + p' := by
    rw [← h.moved_eq ht hp, ← h.moved_eq hu hp']
    exact heq
  have hsym : Std.Symm fun t u : (Module × Nat) × (Module × Nat) => Apart t.2 u.2 :=
    ⟨fun _ _ h => h.symm⟩
  have htu : t = u := by
    by_contra hne
    rw [h.same t ht] at hp
    rw [h.same u hu] at hp'
    rcases h.apart'.forall ht hu hne with hlt | hlt <;> omega
  subst htu
  exact congrArg (t.1.2 + ·) (Nat.add_left_cancel heq)

theorem of_placed {q : Module × Nat} (hq : q ∈ placed 0 mods) : ∃ t ∈ T, t.1 = q :=
  List.mem_map.mp (h.here.mem_iff.mpr hq)

theorem of_placed' {q : Module × Nat} (hq : q ∈ placed 0 mods') : ∃ t ∈ T, t.2 = q :=
  List.mem_map.mp (h.there ▸ hq)

theorem placed_of {t : (Module × Nat) × (Module × Nat)} (ht : t ∈ T) : t.1 ∈ placed 0 mods :=
  h.here.mem_iff.mp (List.mem_map_of_mem ht)

theorem placed_of' {t : (Module × Nat) × (Module × Nat)} (ht : t ∈ T) : t.2 ∈ placed 0 mods' :=
  h.there ▸ List.mem_map_of_mem ht

theorem renumber_moved {t : (Module × Nat) × (Module × Nat)} (ht : t ∈ T) {id : FuncId}
    (hid : id ∈ t.1.1.functions.map Prod.fst) :
    renumber (remapTable t.2) id = moved T (renumber (remapTable t.1) id) := by
  obtain ⟨f, hf, rfl⟩ := List.mem_map.mp hid
  obtain ⟨p, hp⟩ := List.mem_iff_getElem?.mp hf
  have hlt : p < t.1.1.functions.length := (List.getElem?_eq_some_iff.mp hp).1
  rw [renumber_eq hp, h.moved_eq ht hlt]
  rw [h.same t ht] at hp
  exact renumber_eq hp

theorem nameToId_moved (honce : ExternalOnce mods) (honce' : ExternalOnce mods') (name : String) :
    (mergeIdPlan mods').nameToId.lookup name = ((mergeIdPlan mods).nameToId.lookup name).map (moved T) := by
  cases hl : (mergeIdPlan mods).nameToId.lookup name with
  | some id =>
    obtain ⟨q, hq, he⟩ := exported_of_nameToId hl
    obtain ⟨t, ht, rfl⟩ := h.of_placed hq
    obtain ⟨-, p, hp, rfl, hoff⟩ := @exported_eq t.1.1 t.1.2 _ _ he
    rw [Option.map_some, h.moved_eq ht hp]
    refine nameToId_of_exported honce' (h.placed_of' ht) ?_
    have hoff' := hoff t.2.2
    rw [h.same t ht] at hoff'
    exact hoff'
  | none =>
    rw [Option.map_none]
    by_contra hne
    obtain ⟨id', hl'⟩ := Option.ne_none_iff_exists'.mp hne
    obtain ⟨q, hq, he⟩ := exported_of_nameToId hl'
    obtain ⟨t, ht, rfl⟩ := h.of_placed' hq
    obtain ⟨-, p, -, -, hoff⟩ := @exported_eq t.2.1 t.2.2 _ _ he
    have hoff' := hoff t.1.2
    rw [← h.same t ht] at hoff'
    rw [nameToId_of_exported honce (h.placed_of ht) hoff'] at hl
    exact absurd hl (by simp)

end Moves

/-- A call after its target has got another id. -/
def renameCallee (σ : FuncId → FuncId) : Callee → Callee
  | .direct id => .direct (σ id)
  | c => c

def renameFunction (σ : FuncId → FuncId) (f : FuncId × Func) : FuncId × Func :=
  (σ f.1, f.2.mapCallees (renameCallee σ))

theorem mapCallees_comp {f : Func} {g g' k : Callee → Callee} (h : ∀ c ∈ f.callees, k c = g' (g c)) :
    f.mapCallees k = (f.mapCallees g).mapCallees g' := by
  rw [Func.mapCallees, Func.mapCallees, Func.mapCallees]
  congr 1
  rw [List.map_map]
  refine List.map_congr_left fun b hb => ?_
  rw [Function.comp_apply]
  congr 1
  rw [List.map_map]
  refine List.map_congr_left fun i hi => ?_
  cases i with
  | call dst c args =>
    have hc : c ∈ f.callees := List.mem_flatMap.mpr ⟨b, hb, List.mem_filterMap.mpr ⟨_, hi, rfl⟩⟩
    rw [Function.comp_apply, Inst.mapCallee, Inst.mapCallee, Inst.mapCallee, h c hc]
  | _ => rfl

theorem Moves.linkFunctions_moved {mods mods' : List Module} {T : List ((Module × Nat) × (Module × Nat))}
    (h : Moves mods mods' T) (honce : ExternalOnce mods) (honce' : ExternalOnce mods')
    {t : (Module × Nat) × (Module × Nat)} (ht : t ∈ T) :
    linkFunctions (mergeIdPlan mods').nameToId (remapTable t.2) t.2.1 =
      (linkFunctions (mergeIdPlan mods).nameToId (remapTable t.1) t.1.1).map (renameFunction (moved T)) := by
  rw [linkFunctions, linkFunctions, List.map_map, ← h.same t ht]
  refine List.map_congr_left fun f hf => Prod.ext (h.renumber_moved ht (List.mem_map_of_mem hf)) ?_
  refine mapCallees_comp fun c hc => ?_
  cases c with
  | direct id =>
    have hid := t.1.1.calls_own f hf _ hc id rfl
    rw [linkCallee, linkCallee, renameCallee, h.renumber_moved ht hid]
  | symbol name =>
    rw [linkCallee, linkCallee, h.nameToId_moved honce honce']
    cases (mergeIdPlan mods).nameToId.lookup name <;> rfl
  | indirect op => rfl

end Link

end Csolver
