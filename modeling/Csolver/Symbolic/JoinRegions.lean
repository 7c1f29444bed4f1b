import Csolver.Symbolic.Merge

/-!
# What a merged region guarantees (`exec/mergecore.rs`)

Regions are known by their index, and each edge allocates on its own. `merge_core` compares the sizes of the
regions of one index and takes the rest of what it knows from the first edge; and it makes a pointer into a
dropped region opaque only when the pointer itself says the region, not inside a conditional provenance. The
merged state is right for every edge exactly when the edges agree on more than the sizes and no conditional
provenance of the first edge mentions a dropped region.
-/

namespace Csolver

/-! ## Guarantees -/

/-- The kind, the alignment, the permissions and the contract of `r` hold of `r'`. -/
structure SymRegion.Agrees (r r' : SymRegion) : Prop where
  kind : r.kind = r'.kind
  align : r.baseAlign ∣ r'.baseAlign
  read : r.perms.read = true → r'.perms.read = true
  write : r.perms.write = true → r'.perms.write = true
  exec : r.perms.exec = true → r'.perms.exec = true
  contract : r.contract = r'.contract

def SymRegion.Guaranteed (r r' : SymRegion) : Prop := r.Agrees r' ∧ r.size = r'.size

/-- **What a merge promises**: each merged region is guaranteed by every edge's region of that index, and no
    register mentions a dropped region, however deep. -/
structure MergeRight (first : EdgeState) (rest : List EdgeState) : Prop where
  regions : ∀ (i : Nat) r, (mergeCore first rest).regions[i]? = some r → ∀ e ∈ first :: rest,
    ∃ r', e.predState.regions[i]? = some r' ∧ r.Guaranteed r'
  env : ∀ reg v, (mergeCore first rest).env reg = some v →
    v.regionsKept (mergeCore first rest).regions.length = true

/-! ## The common prefix -/

/-- Every edge has a region of this index, of the size that the first edge's has. -/
def sameSize (edges : List EdgeState) (r : SymRegion) (i : Nat) : Bool :=
  edges.all fun e => (e.predState.regions[i]?.map (·.size)) = some r.size

/-- How many regions the edges have in common by their sizes. -/
def commonRegions (first : EdgeState) (rest : List EdgeState) : Nat :=
  (first.predState.regions.zipIdx.takeWhile fun p => sameSize (first :: rest) p.1 p.2).length

theorem mergeRegions_length (edges : List EdgeState) (rs : List SymRegion) (i : Nat) :
    (mergeRegions edges i rs).length = ((rs.zipIdx i).takeWhile fun p => sameSize edges p.1 p.2).length := by
  induction rs generalizing i with
  | nil => rfl
  | cons r rs ih =>
    rw [mergeRegions, List.zipIdx_cons, List.takeWhile_cons]
    change List.length (if sameSize edges r i = true then _ else _) = _
    by_cases h : sameSize edges r i = true
    · rw [if_pos h, if_pos h, List.length_cons, List.length_cons, ih]
    · rw [if_neg h, if_neg h]
      rfl

theorem mergeCore_length (first : EdgeState) (rest : List EdgeState) :
    (mergeCore first rest).regions.length = commonRegions first rest :=
  mergeRegions_length (first :: rest) first.predState.regions 0

theorem mergeRegions_get {edges : List EdgeState} {rs : List SymRegion} {i k : Nat} {r : SymRegion}
    (h : (mergeRegions edges i rs)[k]? = some r) :
    ∃ r₀, rs[k]? = some r₀ ∧ (∃ s, r = { r₀ with state := s }) ∧ sameSize edges r₀ (i + k) = true := by
  induction rs generalizing i k with
  | nil => exact absurd h (by simp [mergeRegions])
  | cons r₀ rs ih =>
    rw [mergeRegions] at h
    split at h
    · rename_i hsame
      cases k with
      | zero => exact ⟨r₀, rfl, ⟨_, (Option.some.inj h).symm⟩, hsame⟩
      | succ k =>
        obtain ⟨r₁, hr₁, hstate, hsize⟩ := ih h
        refine ⟨r₁, hr₁, hstate, ?_⟩
        rw [← Nat.add_assoc, Nat.add_right_comm]
        exact hsize
    · exact absurd h (by simp)

theorem mergeCore_get {first : EdgeState} {rest : List EdgeState} {i : Nat} {r : SymRegion}
    (h : (mergeCore first rest).regions[i]? = some r) :
    ∃ r₀, first.predState.regions[i]? = some r₀ ∧ (∃ s, r = { r₀ with state := s }) ∧
      ∀ e ∈ first :: rest, ∃ r', e.predState.regions[i]? = some r' ∧ r₀.size = r'.size := by
  obtain ⟨r₀, hr₀, hstate, hsame⟩ := mergeRegions_get h
  rw [Nat.zero_add] at hsame
  refine ⟨r₀, hr₀, hstate, fun e he => ?_⟩
  have hsize := of_decide_eq_true (List.all_eq_true.mp hsame e he)
  obtain ⟨r', hr', heq⟩ := Option.map_eq_some_iff.mp hsize
  exact ⟨r', hr', heq.symm⟩

/-! ## When the promise is kept -/

/-- The edges agree on every region they have in common. -/
def RegionsAgree (first : EdgeState) (rest : List EdgeState) : Prop :=
  ∀ i < commonRegions first rest, ∀ r, first.predState.regions[i]? = some r → ∀ e ∈ rest, ∀ r',
    e.predState.regions[i]? = some r' → r.Agrees r'

/-- A pointer that says its region itself. -/
def SymValue.inRegion : SymValue → Bool
  | .ptr (.mk (.region _) _ _ _) => true
  | _ => false

/-- No conditional provenance mentions a region that is not common. -/
def EnvKept (first : EdgeState) (rest : List EdgeState) : Prop :=
  ∀ reg v, first.predState.env reg = some v →
    v.inRegion = true ∨ v.regionsKept (commonRegions first rest) = true

theorem sanitize_kept (n : Nat) (v : SymValue) :
    (sanitize n v).regionsKept n = true ↔ v.inRegion = true ∨ v.regionsKept n = true := by
  rcases v with e | ⟨_ | rid | ⟨c, t, f⟩ | ⟨o, i⟩, off, al, bo⟩
  · simp [sanitize, SymValue.regionsKept]
  · simp [sanitize, SymValue.inRegion]
  · refine iff_of_true ?_ (.inl rfl)
    rw [sanitize]
    split
    · rfl
    · rename_i hlt
      exact decide_eq_true (not_le.mp hlt)
  · simp [sanitize, SymValue.inRegion]
  · simp [sanitize, SymValue.inRegion]

theorem SymRegion.Agrees.refl (r : SymRegion) : r.Agrees r :=
  ⟨rfl, dvd_refl _, id, id, id, rfl⟩

/-- An edge after one allocation, with a value in register 0. -/
def allocEdge (r : SymRegion) (v : SymValue) : EdgeState where
  predState := ⟨fun reg => if reg = 0 then some v else none, [r], [], [], [], true⟩
  guard := none
  args := []

def eitherPtr : SymValue :=
  .ptr (.mk (.select (.sym "arg0" 1) (.mk (.region 0) (.int 64 0) 1 none) (.mk .null (.int 64 0) 1 none))
    (.int 64 0) 1 none)

end Csolver
