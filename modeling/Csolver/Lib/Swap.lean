import Mathlib.Data.List.Perm.Basic

/-!
# Exchanging two positions of a list

`swapAt` is `Vec::swap` on lists. An exchange is a permutation, so everything that is about
membership or multiplicity survives it (`swapAt_perm`); what it does to a single position is
`getElem?_swapAt`.
-/

namespace Csolver.Lib

variable {α : Type*}

/-- Exchange positions `i` and `j`; a list without one of the two is left alone. -/
def swapAt (l : List α) (i j : Nat) : List α :=
  match l[i]?, l[j]? with
  | some a, some b => (l.set i b).set j a
  | _, _ => l

theorem swapAt_eq {l : List α} {i j : Nat} {a b : α} (hi : l[i]? = some a) (hj : l[j]? = some b) :
    swapAt l i j = (l.set i b).set j a := by
  simp [swapAt, hi, hj]

theorem swapAt_perm (l : List α) (i j : Nat) : (swapAt l i j).Perm l := by
  unfold swapAt
  split
  · rename_i a b hi hj
    obtain ⟨hil, rfl⟩ := List.getElem?_eq_some_iff.mp hi
    obtain ⟨hjl, rfl⟩ := List.getElem?_eq_some_iff.mp hj
    exact List.set_set_perm hil hjl
  · exact List.Perm.refl l

theorem getElem?_swapAt {l : List α} {i j : Nat} {a b : α} (hi : l[i]? = some a)
    (hj : l[j]? = some b) (k : Nat) :
    (swapAt l i j)[k]? = if k = j then some a else if k = i then some b else l[k]? := by
  obtain ⟨hil, -⟩ := List.getElem?_eq_some_iff.mp hi
  obtain ⟨hjl, -⟩ := List.getElem?_eq_some_iff.mp hj
  rw [swapAt_eq hi hj, List.getElem?_set, List.getElem?_set]
  by_cases hkj : k = j
  · subst hkj; simp [hjl]
  · rw [if_neg (fun h => hkj h.symm), if_neg hkj]
    by_cases hki : k = i
    · subst hki; simp [hil]
    · rw [if_neg (fun h => hki h.symm), if_neg hki]

end Csolver.Lib
