import Mathlib.Data.List.AList
import Mathlib.Data.List.Perm.Basic

/-!
# Merging tables key by key

Finite maps are `AList`s: lists of entries with distinct keys, in any order. A list of tables is merged
from left to right; what happens to an entry depends on the value that its key has so far. The value of
a key after all is then a fold over the values that the tables give it (`lookup_mergeTables`), and every
order of these values is the order of them in some order of the tables (`exists_perm_filterMap`).
-/

namespace Csolver.Lib

abbrev Table (κ V : Type) := AList fun _ : κ => V

variable {κ V : Type} [DecidableEq κ]

/-- Enter the entries of `t` one by one; `policy` is given the value so far and the new one. -/
def mergeTable (policy : Option V → V → V) (acc t : Table κ V) : Table κ V :=
  t.entries.foldl (fun acc e => acc.insert e.1 (policy (acc.lookup e.1) e.2)) acc

def mergeTables (policy : Option V → V → V) (ts : List (Table κ V)) : Table κ V :=
  ts.foldl (mergeTable policy) ∅

/-- The value that is kept of a list of values. -/
def mergeValues (policy : Option V → V → V) (vs : List V) : Option V :=
  vs.foldl (fun o v => some (policy o v)) none

variable {policy : Option V → V → V}

theorem lookup_foldl_insert (k : κ) (l : List (Sigma fun _ : κ => V)) (hl : l.NodupKeys)
    (acc : Table κ V) :
    (l.foldl (fun acc e => acc.insert e.1 (policy (acc.lookup e.1) e.2)) acc).lookup k =
      match l.dlookup k with
      | none => acc.lookup k
      | some v => some (policy (acc.lookup k) v) := by
  induction l generalizing acc with
  | nil => rfl
  | cons e l ih =>
    obtain ⟨j, v⟩ := e
    obtain ⟨hj, hl⟩ := List.nodupKeys_cons.mp hl
    rw [List.foldl_cons, ih hl]
    by_cases hk : k = j
    · subst hk
      rw [List.dlookup_eq_none.mpr hj, List.dlookup_cons_eq]
      exact AList.lookup_insert _
    · rw [List.dlookup_cons_ne _ _ hk, AList.lookup_insert_ne hk]

theorem lookup_mergeTable (acc t : Table κ V) (k : κ) :
    (mergeTable policy acc t).lookup k =
      match t.lookup k with
      | none => acc.lookup k
      | some v => some (policy (acc.lookup k) v) :=
  lookup_foldl_insert k t.entries t.nodupKeys acc

/-- **The value of a key after merging** is folded from the values that the tables give it. -/
theorem lookup_mergeTables (ts : List (Table κ V)) (k : κ) :
    (mergeTables policy ts).lookup k = mergeValues policy (ts.filterMap (·.lookup k)) := by
  have hfold (acc : Table κ V) : (ts.foldl (mergeTable policy) acc).lookup k =
      (ts.filterMap (·.lookup k)).foldl (fun o v => some (policy o v)) (acc.lookup k) := by
    induction ts generalizing acc with
    | nil => rfl
    | cons t ts ih =>
      rw [List.foldl_cons, ih, lookup_mergeTable]
      cases h : t.lookup k with
      | none => rw [List.filterMap_cons_none h]
      | some v => rw [List.filterMap_cons_some h, List.foldl_cons]
  rw [mergeTables, hfold, mergeValues, AList.lookup_empty]

theorem exists_perm_filterMap {α β : Type*} {f : α → Option β} {vs vs' : List β} (h : vs.Perm vs') :
    ∀ {l : List α}, l.filterMap f = vs → ∃ l' : List α, l'.Perm l ∧ l'.filterMap f = vs' := by
  induction h with
  | nil => exact fun {l} hl => ⟨l, .refl l, hl⟩
  | cons v _ ih =>
    intro l hl
    obtain ⟨pre, a, post, rfl, hpre, ha, hpost⟩ := List.filterMap_eq_cons_iff.mp hl
    obtain ⟨l', hperm, hl'⟩ := ih hpost
    refine ⟨pre ++ a :: l', (hperm.cons a).append_left pre, ?_⟩
    rw [List.filterMap_append, List.filterMap_eq_nil_iff.mpr hpre, List.filterMap_cons_some ha, hl',
      List.nil_append]
  | swap v w vs =>
    intro l hl
    obtain ⟨pre, a, post, rfl, hpre, ha, hpost⟩ := List.filterMap_eq_cons_iff.mp hl
    obtain ⟨mid, b, post, rfl, hmid, hb, hpost⟩ := List.filterMap_eq_cons_iff.mp hpost
    refine ⟨pre ++ b :: (mid ++ a :: post), List.Perm.append_left pre ?_, ?_⟩
    · calc (b :: (mid ++ a :: post)).Perm (b :: a :: (mid ++ post)) := List.perm_middle.cons b
        _ |>.Perm (a :: b :: (mid ++ post)) := .swap a b _
        _ |>.Perm (a :: (mid ++ b :: post)) := List.perm_middle.symm.cons a
    · rw [List.filterMap_append, List.filterMap_eq_nil_iff.mpr hpre, List.filterMap_cons_some hb,
        List.filterMap_append, List.filterMap_eq_nil_iff.mpr hmid, List.filterMap_cons_some ha, hpost,
        List.nil_append, List.nil_append]
  | trans _ _ ih ih' =>
    intro l hl
    obtain ⟨l₁, hp₁, h₁⟩ := ih hl
    obtain ⟨l₂, hp₂, h₂⟩ := ih' h₁
    exact ⟨l₂, hp₂.trans hp₁, h₂⟩

theorem mergeTables_perm_iff {α : Type*} (table : α → Table κ V) (l : List α) :
    (∀ l' : List α, l'.Perm l → ∀ k, (mergeTables policy (l'.map table)).lookup k =
        (mergeTables policy (l.map table)).lookup k) ↔
      ∀ k, ∀ vs : List V, vs.Perm (l.filterMap fun a => (table a).lookup k) →
        mergeValues policy vs = mergeValues policy (l.filterMap fun a => (table a).lookup k) := by
  have hlookup (l : List α) (k : κ) : (mergeTables policy (l.map table)).lookup k =
      mergeValues policy (l.filterMap fun a => (table a).lookup k) := by
    rw [lookup_mergeTables, List.filterMap_map]
    rfl
  simp only [hlookup]
  constructor
  · intro h k vs hvs
    obtain ⟨l', hperm, rfl⟩ := exists_perm_filterMap hvs.symm rfl
    exact h l' hperm k
  · intro h l' hperm k
    exact h k _ (hperm.filterMap _)

end Csolver.Lib
