import Mathlib.Data.List.Induction

/-!
# Building in shards

A state that is built by pushing items one by one can also be built in parts that are merged in order.
The result is the same if merging lets the last push of a part through (`Lawful`); the law is only
needed at the pushes that the division makes (`sharded_eq_build`), so that a builder which keeps it under
a condition on the items is covered too.

Maps are functions here: what is entered is read back, and the order of the entries does not show.
-/

namespace Csolver.Lib

/-! ## Maps -/

abbrev Map (κ V : Type) := κ → Option V

namespace Map

variable {κ V : Type}

/-- `entry(k).or_insert(v)` for every entry of the second map. -/
def orElse (m m' : Map κ V) : Map κ V := fun k => (m k).or (m' k)

/-- `insert(k, v)` for every entry of the second map. -/
def override (m m' : Map κ V) : Map κ V := fun k => (m' k).or (m k)

/-- The keys of another range of ids. -/
def shift (off : Nat) (m : Map (Nat × κ) V) : Map (Nat × κ) V := fun k =>
  if off ≤ k.1 then m (k.1 - off, k.2) else none

variable [DecidableEq κ]

/-- `entry(k).or_insert(v)`. -/
def orInsert (m : Map κ V) (k : κ) (v : V) : Map κ V := fun j =>
  (m j).or (if j = k then some v else none)

def insert (m : Map κ V) (k : κ) (v : V) : Map κ V := fun j => if j = k then some v else m j

omit [DecidableEq κ] in
@[simp] theorem orElse_none (m : Map κ V) : m.orElse (fun _ => none) = m := by
  funext k
  exact Option.or_none

omit [DecidableEq κ] in
@[simp] theorem none_orElse (m : Map κ V) : orElse (fun _ => none) m = m := rfl

omit [DecidableEq κ] in
theorem orElse_assoc (a b c : Map κ V) : a.orElse (b.orElse c) = (a.orElse b).orElse c := by
  funext k
  exact Option.or_assoc.symm

theorem orElse_orInsert (a b : Map κ V) (k : κ) (v : V) :
    a.orElse (b.orInsert k v) = (a.orElse b).orInsert k v := by
  funext j
  exact Option.or_assoc.symm

omit [DecidableEq κ] in
@[simp] theorem override_none (m : Map κ V) : m.override (fun _ => none) = m := rfl

theorem override_insert (a b : Map κ V) (k : κ) (v : V) :
    a.override (b.insert k v) = (a.override b).insert k v := by
  funext j
  unfold override insert
  by_cases hj : j = k
  · rw [if_pos hj, if_pos hj]
    rfl
  · rw [if_neg hj, if_neg hj]

omit [DecidableEq κ] in
@[simp] theorem shift_none (off : Nat) : shift off (fun _ : Nat × κ => (none : Option V)) = fun _ => none := by
  funext k
  unfold shift
  split <;> rfl

theorem shift_insert (off : Nat) (m : Map (Nat × κ) V) (g : Nat) (i : κ) (v : V) :
    shift off (m.insert (g, i) v) = (shift off m).insert (off + g, i) v := by
  funext ⟨h, j⟩
  unfold shift insert
  by_cases hle : off ≤ h
  · have hiff : (h - off, j) = (g, i) ↔ (h, j) = (off + g, i) := by
      simp only [Prod.mk.injEq]
      constructor
      · exact fun ⟨he, hj⟩ => ⟨by omega, hj⟩
      · exact fun ⟨he, hj⟩ => ⟨by omega, hj⟩
    simp only [if_pos hle, hiff]
  · have hne : (h, j) ≠ (off + g, i) := by
      intro he
      have hg : h = off + g := congrArg Prod.fst he
      omega
    rw [if_neg hle, if_neg hne]
    exact (if_neg hle).symm

theorem orElse_foldl {α : Type} (key : α → κ) (value : α → V) (l : List α) (a b : Map κ V) :
    a.orElse (l.foldl (fun m x => m.orInsert (key x) (value x)) b) =
      l.foldl (fun m x => m.orInsert (key x) (value x)) (a.orElse b) := by
  induction l generalizing b with
  | nil => rfl
  | cons x l ih => rw [List.foldl_cons, List.foldl_cons, ih, orElse_orInsert]

end Map

/-! ## Builders -/

structure Builder (σ μ : Type) where
  empty : σ
  push : σ → μ → σ
  merge : σ → σ → σ

namespace Builder

variable {σ μ : Type} (S : Builder σ μ)

/-- Every item pushed into one state. -/
def build (items : List μ) : σ := items.foldl S.push S.empty

/-- A state for each shard, merged in order. -/
def sharded (shards : List (List μ)) : σ :=
  shards.foldl (fun s items => S.merge s (S.build items)) S.empty

@[simp] theorem build_nil : S.build [] = S.empty := rfl

theorem build_snoc (items : List μ) (m : μ) : S.build (items ++ [m]) = S.push (S.build items) m := by
  rw [build, List.foldl_append]
  rfl

theorem sharded_snoc (shards : List (List μ)) (items : List μ) :
    S.sharded (shards ++ [items]) = S.merge (S.sharded shards) (S.build items) := by
  rw [sharded, List.foldl_append]
  rfl

/-- Merging lets the push of `m` onto `ys` through, behind `xs`. -/
def Lets (xs ys : List μ) (m : μ) : Prop :=
  S.merge (S.build xs) (S.push (S.build ys) m) = S.push (S.merge (S.build xs) (S.build ys)) m

/-- The law, at the pushes of a division into shards. -/
structure Lawful (shards : List (List μ)) : Prop where
  merge_empty : ∀ xs, S.merge (S.build xs) S.empty = S.build xs
  lets : ∀ done items rest, shards = done ++ items :: rest → ∀ ys m zs, items = ys ++ m :: zs →
    S.Lets done.flatten ys m

theorem merge_build {xs : List μ} (hempty : S.merge (S.build xs) S.empty = S.build xs)
    (ys : List μ) (h : ∀ pre m post, ys = pre ++ m :: post → S.Lets xs pre m) :
    S.merge (S.build xs) (S.build ys) = S.build (xs ++ ys) := by
  induction ys using List.reverseRecOn with
  | nil => rw [build_nil, hempty, List.append_nil]
  | append_singleton ys m ih =>
    have hys := ih fun pre m' post he => h pre m' (post ++ [m]) (by rw [he]; simp)
    have hm : S.Lets xs ys m := h ys m [] rfl
    rw [build_snoc, hm, hys, ← List.append_assoc, build_snoc]

/-- **Merging the shards** gives what pushing every item gives. -/
theorem sharded_eq_build {shards : List (List μ)} (h : S.Lawful shards) :
    S.sharded shards = S.build shards.flatten := by
  obtain ⟨hempty, hlets⟩ := h
  induction shards using List.reverseRecOn with
  | nil => rfl
  | append_singleton done items ih =>
    have hdone := ih fun pre its rest he ys m zs hi =>
      hlets pre its (rest ++ [items]) (by rw [he]; simp) ys m zs hi
    rw [sharded_snoc, hdone, S.merge_build (hempty _) items fun ys m zs hi =>
      hlets done items [] rfl ys m zs hi, List.flatten_append, List.flatten_singleton]

theorem Lawful.of_forall (hempty : ∀ s, S.merge s S.empty = s)
    (hpush : ∀ s t m, S.merge s (S.push t m) = S.push (S.merge s t) m) (shards : List (List μ)) :
    S.Lawful shards where
  merge_empty _ := hempty _
  lets _ _ _ _ _ _ _ _ := hpush _ _ _

/-! ## A part of a state -/

/-- `proj` is what the builder `T` builds of the state. -/
structure Projects {τ : Type} (S : Builder σ μ) (T : Builder τ μ) (proj : σ → τ) : Prop where
  empty : proj S.empty = T.empty
  push : ∀ s m, proj (S.push s m) = T.push (proj s) m
  merge : ∀ s t, proj (S.merge s t) = T.merge (proj s) (proj t)

section

variable {S} {τ : Type} {T : Builder τ μ} {proj : σ → τ}

theorem Projects.build (h : Projects S T proj) (items : List μ) : proj (S.build items) = T.build items := by
  induction items using List.reverseRecOn with
  | nil => exact h.empty
  | append_singleton items m ih => rw [build_snoc, build_snoc, h.push, ih]

theorem Projects.sharded (h : Projects S T proj) (shards : List (List μ)) :
    proj (S.sharded shards) = T.sharded shards := by
  induction shards using List.reverseRecOn with
  | nil => exact h.empty
  | append_singleton done items ih => rw [sharded_snoc, sharded_snoc, h.merge, ih, h.build]

theorem Projects.sharded_eq (h : Projects S T proj) {shards : List (List μ)}
    (hT : T.sharded shards = T.build shards.flatten) :
    proj (S.sharded shards) = proj (S.build shards.flatten) := by
  rw [h.sharded, h.build, hT]

theorem Projects.sharded_eq_of_forall (h : Projects S T proj) (hempty : ∀ t, T.merge t T.empty = t)
    (hpush : ∀ t t' m, T.merge t (T.push t' m) = T.push (T.merge t t') m) (shards : List (List μ)) :
    proj (S.sharded shards) = proj (S.build shards.flatten) :=
  h.sharded_eq (T.sharded_eq_build (.of_forall T hempty hpush shards))

end

/-! ## A builder with a limit -/

/-- `S` does what `U` does as long as what is built keeps within a limit. -/
structure Within (S U : Builder σ μ) (fits : σ → Prop) : Prop where
  empty : S.empty = U.empty
  push : ∀ s m, fits (U.push s m) → fits s ∧ S.push s m = U.push s m
  merge : ∀ s ys, fits (U.merge s (U.build ys)) →
    fits s ∧ fits (U.build ys) ∧ S.merge s (U.build ys) = U.merge s (U.build ys)

variable {S} {U : Builder σ μ} {fits : σ → Prop}

theorem Within.build (h : Within S U fits) {items : List μ} (hfits : fits (U.build items)) :
    S.build items = U.build items := by
  induction items using List.reverseRecOn with
  | nil => exact h.empty
  | append_singleton items m ih =>
    rw [build_snoc] at hfits
    obtain ⟨hitems, hpush⟩ := h.push _ _ hfits
    rw [build_snoc, build_snoc, ih hitems, hpush]

theorem Within.sharded (h : Within S U fits) {shards : List (List μ)} (hfits : fits (U.sharded shards)) :
    S.sharded shards = U.sharded shards := by
  induction shards using List.reverseRecOn with
  | nil => exact h.empty
  | append_singleton done items ih =>
    rw [sharded_snoc] at hfits
    obtain ⟨hdone, hitems, hmerge⟩ := h.merge _ _ hfits
    rw [sharded_snoc, sharded_snoc, ih hdone, h.build hitems, hmerge]

theorem Within.sharded_eq_build (h : Within S U fits) {shards : List (List μ)} (hU : U.Lawful shards)
    (hfits : fits (U.build shards.flatten)) : S.sharded shards = S.build shards.flatten := by
  have heq := U.sharded_eq_build hU
  rw [h.build hfits, ← heq]
  apply h.sharded
  rw [heq]
  exact hfits

end Builder

end Csolver.Lib
