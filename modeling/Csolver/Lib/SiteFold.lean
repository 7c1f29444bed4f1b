import Csolver.Lib.Tables
import Mathlib.Data.List.Induction

/-!
# Folding what the call sites contribute

Each site contributes a value for a key, or nothing; a key that a site contributes nothing for is given
up. The contributions are combined in the order of the sites. If a combination is below both of its
parts, what is kept for a key is below what every site contributed (`foldSites_spec`).
-/

namespace Csolver.Lib

variable {κ V : Type} [DecidableEq κ]

/-- `or_insert` and the combination: once a site contributes nothing, the key is given up. -/
def joinSite (combine : V → V → V) : Option (Option V) → Option V → Option V
  | none, s => s
  | some (some a), some b => some (combine a b)
  | some _, _ => none

/-- The value of each key after all sites. -/
def foldSites (combine : V → V → V) (es : List (κ × Option V)) : Table κ (Option V) :=
  es.foldl (fun acc e => acc.insert e.1 (joinSite combine (acc.lookup e.1) e.2)) ∅

variable {combine : V → V → V} {Le : V → V → Prop} {P : V → Prop}

/-- What is kept for `k` comes from some site and is below what every site contributed. -/
structure Kept (Le : V → V → Prop) (P : V → Prop) (es : List (κ × Option V)) (k : κ) (v : V) : Prop where
  some_site : ∃ e ∈ es, e.1 = k
  below : ∀ e ∈ es, e.1 = k → ∃ s, e.2 = some s ∧ Le v s
  ok : P v

theorem foldSites_spec (hrefl : ∀ v, Le v v) (htrans : ∀ {u v w}, Le u v → Le v w → Le u w)
    (hleft : ∀ {a b}, P a → P b → Le (combine a b) a) (hright : ∀ {a b}, P a → P b → Le (combine a b) b)
    (hP : ∀ {a b}, P a → P b → P (combine a b)) (es : List (κ × Option V))
    (hes : ∀ e ∈ es, ∀ s, e.2 = some s → P s) (k : κ) :
    ((foldSites combine es).lookup k = none → ∀ e ∈ es, e.1 ≠ k) ∧
      ∀ v, (foldSites combine es).lookup k = some (some v) → Kept Le P es k v := by
  induction es using List.reverseRecOn generalizing k with
  | nil => exact ⟨fun _ e he => absurd he List.not_mem_nil, fun v hv => absurd hv (by simp [foldSites])⟩
  | append_singleton es e ih =>
    have ih := ih (fun e he => hes e (List.mem_append_left _ he))
    have hfold : foldSites combine (es ++ [e]) =
        (foldSites combine es).insert e.1 (joinSite combine ((foldSites combine es).lookup e.1) e.2) := by
      rw [foldSites, List.foldl_append]
      rfl
    rw [hfold]
    by_cases hk : e.1 = k
    · subst hk
      rw [AList.lookup_insert]
      refine ⟨fun h => absurd h (by simp), fun v hv => ?_⟩
      have hjoin := Option.some.inj hv
      have hlast (s : V) (hs : e.2 = some s) : P s := hes e (by simp) s hs
      cases hl : (foldSites combine es).lookup e.1 with
      | none =>
        -- the first site of the key
        rw [hl] at hjoin
        have hs : e.2 = some v := hjoin
        refine ⟨⟨e, by simp, rfl⟩, fun e' he' hk' => ?_, hlast v hs⟩
        rcases List.mem_append.mp he' with he' | he'
        · exact absurd hk' ((ih e.1).1 hl e' he')
        · exact ⟨v, (List.mem_singleton.mp he').symm ▸ hs, hrefl v⟩
      | some old =>
        rw [hl] at hjoin
        cases old with
        | none => exact absurd hjoin (by simp [joinSite])
        | some a =>
          cases hs : e.2 with
          | none => exact absurd hjoin (by simp [joinSite, hs])
          | some b =>
            rw [hs] at hjoin
            obtain rfl : combine a b = v := Option.some.inj hjoin
            have hold := (ih e.1).2 a hl
            have hb := hlast b hs
            refine ⟨⟨e, by simp, rfl⟩, fun e' he' hk' => ?_, hP hold.ok hb⟩
            rcases List.mem_append.mp he' with he' | he'
            · obtain ⟨s, hs', hle⟩ := hold.below e' he' hk'
              exact ⟨s, hs', htrans (hleft hold.ok hb) hle⟩
            · exact ⟨b, (List.mem_singleton.mp he').symm ▸ hs, hright hold.ok hb⟩
    · rw [AList.lookup_insert_ne (Ne.symm hk)]
      refine ⟨fun h e' he' => ?_, fun v hv => ?_⟩
      · rcases List.mem_append.mp he' with he' | he'
        · exact (ih k).1 h e' he'
        · exact List.mem_singleton.mp he' ▸ hk
      · have hold := (ih k).2 v hv
        obtain ⟨e₀, he₀, hk₀⟩ := hold.some_site
        refine ⟨⟨e₀, List.mem_append_left _ he₀, hk₀⟩, fun e' he' hk' => ?_, hold.ok⟩
        rcases List.mem_append.mp he' with he' | he'
        · exact hold.below e' he' hk'
        · exact absurd (List.mem_singleton.mp he' ▸ hk') hk

end Csolver.Lib
