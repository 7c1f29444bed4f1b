import Mathlib.Data.List.Dedup
import Mathlib.Data.List.Sort

/-!
# Finite maps with a default

An ordered map in which a key that is not there has the default value, and the default is never
stored. Two such maps are equal as soon as they agree at every key, so that every operation is known
once its value at a key is known (`get_ofKeys`), and equality of maps can be decided on the entries.
-/

namespace Csolver.Lib

/-- Entries by increasing key, none of them the default `d`. -/
structure DefaultMap (κ V : Type) [LinearOrder κ] (d : V) where
  entries : List (κ × V)
  sorted : entries.Pairwise fun p q => p.1 < q.1
  canonical : ∀ p ∈ entries, p.2 ≠ d

namespace DefaultMap

variable {κ V : Type} [LinearOrder κ] {d : V}

instance [DecidableEq V] : DecidableEq (DefaultMap κ V d) := fun a b =>
  decidable_of_iff (a.entries = b.entries) (by cases a; cases b; simp)

def get (m : DefaultMap κ V d) (k : κ) : V := ((m.entries.find? fun p => p.1 = k).map (·.2)).getD d

def keys (m : DefaultMap κ V d) : List κ := m.entries.map (·.1)

def empty : DefaultMap κ V d := ⟨[], .nil, fun _ h => absurd h List.not_mem_nil⟩

@[simp] theorem get_empty (k : κ) : (empty : DefaultMap κ V d).get k = d := rfl

theorem find?_of_mem : ∀ {l : List (κ × V)}, (l.Pairwise fun p q => p.1 < q.1) → ∀ {k : κ} {v : V},
    (k, v) ∈ l → l.find? (fun p => p.1 = k) = some (k, v)
  | [], _, _, _, h => absurd h List.not_mem_nil
  | (j, u) :: l, hs, k, v, h => by
    obtain ⟨hj, hl⟩ := List.pairwise_cons.mp hs
    rcases List.mem_cons.mp h with heq | hmem
    · obtain ⟨rfl, rfl⟩ := Prod.mk.inj heq
      simp
    · have hne : j ≠ k := ne_of_lt (hj (k, v) hmem)
      rw [List.find?_cons, decide_eq_false hne]
      exact find?_of_mem hl hmem

theorem mem_entries (m : DefaultMap κ V d) (k : κ) (v : V) :
    (k, v) ∈ m.entries ↔ m.get k = v ∧ v ≠ d := by
  constructor
  · intro h
    rw [get, find?_of_mem m.sorted h]
    exact ⟨rfl, m.canonical _ h⟩
  · intro ⟨hget, hne⟩
    cases hf : m.entries.find? fun p => p.1 = k with
    | none => exact absurd (by rw [← hget, get, hf]; rfl) hne
    | some p =>
      have hk : p.1 = k := by simpa using List.find?_some hf
      have hv : p.2 = v := by rw [← hget, get, hf]; rfl
      rw [← hk, ← hv]
      exact List.mem_of_find?_eq_some hf

theorem get_of_not_mem {m : DefaultMap κ V d} {k : κ} (h : k ∉ m.keys) : m.get k = d := by
  by_contra hne
  exact h (List.mem_map_of_mem (f := (·.1)) ((m.mem_entries k (m.get k)).mpr ⟨rfl, hne⟩))

theorem mem_keys {m : DefaultMap κ V d} {k : κ} : k ∈ m.keys ↔ m.get k ≠ d := by
  constructor
  · intro h
    obtain ⟨p, hp, rfl⟩ := List.mem_map.mp h
    obtain ⟨hget, hne⟩ := (m.mem_entries p.1 p.2).mp hp
    rwa [hget]
  · intro h
    by_contra hk
    exact h (get_of_not_mem hk)

theorem ext {a b : DefaultMap κ V d} (h : ∀ k, a.get k = b.get k) : a = b := by
  have hperm : a.entries.Perm b.entries := by
    refine (List.perm_ext_iff_of_nodup ?_ ?_).mpr fun p => ?_
    · exact a.sorted.imp fun hlt heq => absurd (congrArg Prod.fst heq) (ne_of_lt hlt)
    · exact b.sorted.imp fun hlt heq => absurd (congrArg Prod.fst heq) (ne_of_lt hlt)
    · rw [show p = (p.1, p.2) from rfl, a.mem_entries, b.mem_entries, h]
  have hentries : a.entries = b.entries := by
    refine hperm.eq_of_pairwise ?_ a.sorted b.sorted
    intro p q _ _ hpq hqp
    exact absurd hpq (lt_asymm hqp)
  cases a
  cases b
  cases hentries
  rfl

section OfKeys

variable [DecidableEq V]

/-- The map with value `g k` at the keys of a list. -/
def ofKeys (ks : List κ) (g : κ → V) : DefaultMap κ V d where
  entries := (ks.dedup.insertionSort (· ≤ ·)).filterMap fun k => if g k = d then none else some (k, g k)
  sorted := by
    have hle := List.pairwise_insertionSort (· ≤ ·) ks.dedup
    have hne : (ks.dedup.insertionSort (· ≤ ·)).Nodup :=
      (List.perm_insertionSort _ _).nodup_iff.mpr ks.nodup_dedup
    refine List.Pairwise.filterMap _ (fun a b hab x hx y hy => ?_)
      (List.Pairwise.and hle hne)
    simp only [ite_eq_iff, reduceCtorEq, and_false, Option.some.injEq, false_or] at hx hy
    rw [← hx.2, ← hy.2]
    exact lt_of_le_of_ne hab.1 hab.2
  canonical := by
    intro p hp
    obtain ⟨k, _, hk⟩ := List.mem_filterMap.mp hp
    split_ifs at hk with hd
    rw [← Option.some.inj hk]
    exact hd

theorem get_ofKeys (ks : List κ) (g : κ → V) (k : κ) :
    (ofKeys ks g : DefaultMap κ V d).get k = if k ∈ ks then g k else d := by
  have hmem : ∀ v, (k, v) ∈ (ofKeys ks g : DefaultMap κ V d).entries ↔ k ∈ ks ∧ g k = v ∧ v ≠ d := by
    intro v
    simp only [ofKeys, List.mem_filterMap, List.mem_insertionSort, List.mem_dedup]
    constructor
    · rintro ⟨j, hj, hjk⟩
      split_ifs at hjk with hd
      obtain ⟨rfl, rfl⟩ := Prod.mk.inj (Option.some.inj hjk)
      exact ⟨hj, rfl, hd⟩
    · rintro ⟨hk, rfl, hd⟩
      exact ⟨k, hk, if_neg hd⟩
  by_cases hd : (ofKeys ks g : DefaultMap κ V d).get k = d
  · rw [hd]
    split_ifs with hk
    · by_contra hne
      have := (hmem (g k)).mpr ⟨hk, rfl, Ne.symm hne⟩
      rw [mem_entries] at this
      exact this.2 (this.1.symm.trans hd)
    · rfl
  · obtain ⟨hk, hg, _⟩ := (hmem _).mp ((mem_entries _ k _).mpr ⟨rfl, hd⟩)
    rw [if_pos hk, hg]

def set (m : DefaultMap κ V d) (k : κ) (v : V) : DefaultMap κ V d :=
  ofKeys (k :: m.keys) fun j => if j = k then v else m.get j

theorem get_set (m : DefaultMap κ V d) (k : κ) (v : V) (j : κ) :
    (m.set k v).get j = if j = k then v else m.get j := by
  rw [set, get_ofKeys]
  split_ifs with hmem hjk hjk
  · rfl
  · rfl
  · exact absurd (List.mem_cons.mpr (.inl hjk)) hmem
  · exact (get_of_not_mem fun h => hmem (List.mem_cons_of_mem _ h)).symm

def zipWith (op : V → V → V) (a b : DefaultMap κ V d) : DefaultMap κ V d :=
  ofKeys (a.keys ++ b.keys) fun k => op (a.get k) (b.get k)

theorem get_zipWith {op : V → V → V} (hop : op d d = d) (a b : DefaultMap κ V d) (k : κ) :
    (zipWith op a b).get k = op (a.get k) (b.get k) := by
  rw [zipWith, get_ofKeys]
  split_ifs with hmem
  · rfl
  · rw [get_of_not_mem fun h => hmem (List.mem_append_left _ h),
      get_of_not_mem fun h => hmem (List.mem_append_right _ h), hop]

end OfKeys

end DefaultMap

end Csolver.Lib
