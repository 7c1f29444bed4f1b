import Mathlib.Algebra.Order.Ring.Int
import Mathlib.Data.List.Basic

/-!
# Maps with ordered keys

A map as the list of its entries in the order of the keys, so that two maps with the same entries are the
same list.
-/

namespace Csolver.Lib

abbrev SortedMap (κ V : Type) := List (κ × V)

variable {κ V : Type} [DecidableEq κ]

namespace SortedMap

def get : SortedMap κ V → κ → Option V
  | [], _ => none
  | (j, v) :: m, k => if k = j then some v else get m k

/-- Change the value of a key in place. -/
def modify (f : V → V) : SortedMap κ V → κ → SortedMap κ V
  | [], _ => []
  | (j, v) :: m, k => if k = j then (j, f v) :: m else (j, v) :: modify f m k

@[simp] theorem get_modify (f : V → V) (m : SortedMap κ V) (k j : κ) :
    (m.modify f k).get j = if j = k then (m.get k).map f else m.get j := by
  induction m with
  | nil => simp [modify, get]
  | cons e m ih =>
    obtain ⟨i, w⟩ := e
    rw [modify]
    split
    · next heq =>
      subst heq
      by_cases hj : j = k <;> simp [get, hj]
    · next hne =>
      rw [get, ih, get, get, if_neg hne]
      by_cases hi : j = i
      · subst hi
        simp [Ne.symm hne]
      · simp [hi]

/-- What the values of a map add up to. -/
def total (f : V → Nat) (m : SortedMap κ V) : Nat := (m.map fun e => f e.2).sum

theorem total_modify (f : V → Nat) (g : V → V) {m : SortedMap κ V} {k : κ} {v : V} (h : m.get k = some v) :
    (m.modify g k).total f + f v = m.total f + f (g v) := by
  induction m with
  | nil => exact absurd h (by simp [get])
  | cons e m ih =>
    obtain ⟨j, w⟩ := e
    rw [get] at h
    rw [modify]
    split at h
    · next heq =>
      obtain rfl := Option.some.inj h
      rw [if_pos heq]
      simp only [total, List.map_cons, List.sum_cons]
      omega
    · next hne =>
      have hm := ih h
      rw [if_neg hne]
      simp only [total, List.map_cons, List.sum_cons] at hm ⊢
      omega

theorem exists_mem_of_get {m : SortedMap κ V} {k : κ} {v : V} (h : m.get k = some v) :
    ∃ e ∈ m, e = (k, v) := by
  induction m with
  | nil => exact absurd h (by simp [get])
  | cons e m ih =>
    obtain ⟨j, w⟩ := e
    rw [get] at h
    split at h
    · next heq =>
      obtain rfl := Option.some.inj h
      exact ⟨(j, w), List.mem_cons_self, by rw [heq]⟩
    · obtain ⟨e, he, rfl⟩ := ih h
      exact ⟨_, List.mem_cons_of_mem _ he, rfl⟩

theorem mem_keys_of_get {m : SortedMap κ V} {k : κ} {v : V} (h : m.get k = some v) : k ∈ m.map Prod.fst := by
  obtain ⟨e, he, rfl⟩ := exists_mem_of_get h
  exact List.mem_map.mpr ⟨_, he, rfl⟩

variable [LT κ] [DecidableLT κ]

def insert : SortedMap κ V → κ → V → SortedMap κ V
  | [], k, v => [(k, v)]
  | (j, w) :: m, k, v =>
    if k = j then (k, v) :: m else if k < j then (k, v) :: (j, w) :: m else (j, w) :: insert m k v

@[simp] theorem get_insert (m : SortedMap κ V) (k j : κ) (v : V) :
    (m.insert k v).get j = if j = k then some v else m.get j := by
  induction m with
  | nil => rfl
  | cons e m ih =>
    obtain ⟨i, w⟩ := e
    rw [insert]
    split
    · next heq =>
      subst heq
      by_cases hj : j = k <;> simp [get, hj]
    · next hne =>
      split
      · by_cases hj : j = k <;> simp [get, hj]
      · rw [get, ih, get]
        by_cases hi : j = i
        · subst hi
          simp [Ne.symm hne]
        · simp [hi]

theorem total_insert (f : V → Nat) {m : SortedMap κ V} {k : κ} (h : m.get k = none) (v : V) :
    (m.insert k v).total f = m.total f + f v := by
  induction m with
  | nil => simp [insert, total]
  | cons e m ih =>
    obtain ⟨j, w⟩ := e
    rw [get] at h
    split at h
    · exact absurd h (by simp)
    · next hne =>
      have hm := ih h
      rw [insert, if_neg hne]
      split
      · simp only [total, List.map_cons, List.sum_cons]
        omega
      · simp only [total, List.map_cons, List.sum_cons] at hm ⊢
        omega

/-! ## The order of the keys -/

section Sorted

variable {κ V : Type} [LinearOrder κ]

/-- The keys are in order, each one once. -/
def Sorted (m : SortedMap κ V) : Prop := m.Pairwise fun e f => e.1 < f.1

theorem mem_insert {m : SortedMap κ V} {k : κ} {v : V} {e : κ × V} (h : e ∈ m.insert k v) : e = (k, v) ∨ e ∈ m := by
  induction m with
  | nil => exact .inl (List.mem_singleton.mp h)
  | cons f m ih =>
    obtain ⟨j, w⟩ := f
    rw [insert] at h
    split at h
    · exact (List.mem_cons.mp h).imp_right (List.mem_cons_of_mem _)
    · split at h
      · exact List.mem_cons.mp h
      · rcases List.mem_cons.mp h with rfl | h
        · exact .inr List.mem_cons_self
        · exact (ih h).imp_right (List.mem_cons_of_mem _)

theorem Sorted.insert {m : SortedMap κ V} (h : m.Sorted) (k : κ) (v : V) : (m.insert k v).Sorted := by
  induction m with
  | nil => exact List.pairwise_singleton _ _
  | cons f m ih =>
    obtain ⟨j, w⟩ := f
    obtain ⟨hj, hm⟩ := List.pairwise_cons.mp h
    rw [SortedMap.insert]
    split
    · next heq =>
      subst heq
      exact List.pairwise_cons.mpr ⟨hj, hm⟩
    · next hne =>
      split
      · next hlt =>
        refine List.pairwise_cons.mpr ⟨fun e he => ?_, h⟩
        rcases List.mem_cons.mp he with rfl | he
        · exact hlt
        · exact lt_trans hlt (hj e he)
      · next hnlt =>
        refine List.pairwise_cons.mpr ⟨fun e he => ?_, ih hm⟩
        rcases mem_insert he with rfl | he
        · exact lt_of_le_of_ne (not_lt.mp hnlt) (Ne.symm hne)
        · exact hj e he

theorem Sorted.get_eq_none {m : SortedMap κ V} {k : κ} (h : ∀ e ∈ m, k < e.1) : m.get k = none := by
  induction m with
  | nil => rfl
  | cons f m ih =>
    rw [get, if_neg (ne_of_lt (h f List.mem_cons_self))]
    exact ih fun e he => h e (List.mem_cons_of_mem _ he)

theorem Sorted.get_of_mem {m : SortedMap κ V} (h : m.Sorted) {k : κ} {v : V} (hm : (k, v) ∈ m) :
    m.get k = some v := by
  induction m with
  | nil => exact absurd hm List.not_mem_nil
  | cons e m ih =>
    obtain ⟨he, hsorted⟩ := List.pairwise_cons.mp h
    obtain ⟨j, w⟩ := e
    rcases List.mem_cons.mp hm with heq | hm
    · obtain ⟨rfl, rfl⟩ := Prod.mk.inj heq
      rw [get, if_pos rfl]
    · rw [get, if_neg (ne_of_gt (he _ hm))]
      exact ih hsorted hm

theorem Sorted.ext {m m' : SortedMap κ V} (h : m.Sorted) (h' : m'.Sorted) (hget : ∀ k, m.get k = m'.get k) :
    m = m' := by
  induction m generalizing m' with
  | nil =>
    cases m' with
    | nil => rfl
    | cons f m' => exact absurd (hget f.1) (by simp [get])
  | cons e m ih =>
    obtain ⟨he, hm⟩ := List.pairwise_cons.mp h
    cases m' with
    | nil => exact absurd (hget e.1) (by simp [get])
    | cons f m' =>
      obtain ⟨hf, hm'⟩ := List.pairwise_cons.mp h'
      -- the first keys are the least ones
      have hkey : e.1 = f.1 := by
        rcases lt_trichotomy e.1 f.1 with hlt | heq | hlt
        · have hnone : get (f :: m') e.1 = none := Sorted.get_eq_none fun g hg => by
            rcases List.mem_cons.mp hg with rfl | hg
            · exact hlt
            · exact lt_trans hlt (hf g hg)
          exact absurd ((hget e.1).trans hnone) (by simp [get])
        · exact heq
        · have hnone : get (e :: m) f.1 = none := Sorted.get_eq_none fun g hg => by
            rcases List.mem_cons.mp hg with rfl | hg
            · exact hlt
            · exact lt_trans hlt (he g hg)
          exact absurd ((hget f.1).symm.trans hnone) (by simp [get])
      have hval : e.2 = f.2 := by simpa [get, hkey] using hget e.1
      have hrest : m = m' := by
        apply ih hm hm'
        intro k
        by_cases hk : k = e.1
        · subst hk
          rw [Sorted.get_eq_none he, Sorted.get_eq_none (hkey ▸ hf)]
        · have hk' := hget k
          rw [get, get, if_neg hk, if_neg (hkey ▸ hk)] at hk'
          exact hk'
      rw [hrest, Prod.ext hkey hval]

end Sorted

end SortedMap

end Csolver.Lib
