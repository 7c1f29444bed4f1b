import Csolver.Solver.ExprCtx
import Mathlib.Tactic.Ring

/-!
# Linear forms (`Linear` in `crates/solver/src/linear.rs`)

Sums of atoms with checked `i128` coefficients. A form keeps its coefficients in key order and
without zeros; both are fields, because the elimination loop ends only if a variable that cancels is
really gone.
-/

namespace Csolver

namespace Linear

/-! ## Checked `i128` arithmetic -/

def i128Min : Int := -2 ^ 127
def i128Max : Int := 2 ^ 127 - 1

def InRange (x : Int) : Prop := i128Min ≤ x ∧ x ≤ i128Max

instance (x : Int) : Decidable (InRange x) := inferInstanceAs (Decidable (_ ∧ _))

def checked (x : Int) : Option Int := if InRange x then some x else none

/-- `-x` on an `i128`, which leaves the least value alone. -/
def wrappingNeg (x : Int) : Int := if x = i128Min then i128Min else -x

theorem checked_some {x y : Int} (h : checked x = some y) : y = x ∧ InRange x := by
  unfold checked at h
  split at h
  · exact ⟨(Option.some.inj h).symm, ‹_›⟩
  · exact absurd h (by simp)

/-! ## Linear forms -/

/-- The entries of a `BTreeMap<ExprId, i128>`, in key order. -/
abbrev Coeffs := List (ExprId × Int)

def Coeffs.Sorted (cs : Coeffs) : Prop := cs.Pairwise fun p q => p.1 < q.1

end Linear

/-- `Σ coeff · atom + constant`. -/
@[ext]
structure Linear where
  coeffs : Linear.Coeffs
  constant : Int
  sorted : coeffs.Sorted
  nonzero : ∀ p ∈ coeffs, p.2 ≠ 0

namespace Linear

namespace Coeffs

/-- `*entry(k).or_insert(0) += c`, checked. -/
def addAt (k : ExprId) (c : Int) : Coeffs → Option Coeffs
  | [] => do return [(k, ← checked (0 + c))]
  | (k', c') :: rest =>
    if k < k' then do return (k, ← checked (0 + c)) :: (k', c') :: rest
    else if k = k' then do return (k', ← checked (c' + c)) :: rest
    else do return (k', c') :: (← addAt k c rest)

def addAll (cs : Coeffs) : Coeffs → Option Coeffs
  | [] => some cs
  | (k, c) :: rest => do addAll (← addAt k c cs) rest

def scale (k : Int) : Coeffs → Option Coeffs
  | [] => some []
  | (a, c) :: rest => do
    let c ← checked (c * k)
    return (a, c) :: (← scale k rest)

theorem addAt_cases {k : ExprId} {c : Int} {k' : ExprId} {c' : Int} {cs ds : Coeffs}
    (h : addAt k c ((k', c') :: cs) = some ds) :
    (k < k' ∧ InRange c ∧ ds = (k, c) :: (k', c') :: cs) ∨
      (k = k' ∧ InRange (c' + c) ∧ ds = (k', c' + c) :: cs) ∨
      (k' < k ∧ ∃ es, addAt k c cs = some es ∧ ds = (k', c') :: es) := by
  simp only [addAt] at h
  by_cases hlt : k < k'
  · rw [if_pos hlt] at h
    simp only [Option.bind_eq_bind, Option.bind_eq_some_iff, Option.pure_def,
      Option.some.injEq] at h
    obtain ⟨s, hs, rfl⟩ := h
    rw [zero_add] at hs
    rw [(checked_some hs).1]
    exact .inl ⟨hlt, (checked_some hs).2, rfl⟩
  · rw [if_neg hlt] at h
    by_cases heq : k = k'
    · rw [if_pos heq] at h
      simp only [Option.bind_eq_bind, Option.bind_eq_some_iff, Option.pure_def,
        Option.some.injEq] at h
      obtain ⟨s, hs, rfl⟩ := h
      rw [(checked_some hs).1]
      exact .inr (.inl ⟨heq, (checked_some hs).2, rfl⟩)
    · rw [if_neg heq] at h
      simp only [Option.bind_eq_bind, Option.bind_eq_some_iff, Option.pure_def,
        Option.some.injEq] at h
      obtain ⟨es, hes, rfl⟩ := h
      exact .inr (.inr ⟨Nat.lt_of_le_of_ne (Nat.not_lt.mp hlt) (Ne.symm heq), es, hes, rfl⟩)

theorem addAt_nil {k : ExprId} {c : Int} {ds : Coeffs} (h : addAt k c [] = some ds) :
    ds = [(k, c)] ∧ InRange c := by
  simp only [addAt, Option.bind_eq_bind, Option.bind_eq_some_iff, Option.pure_def,
    Option.some.injEq] at h
  obtain ⟨s, hs, rfl⟩ := h
  rw [zero_add] at hs
  rw [(checked_some hs).1]
  exact ⟨rfl, (checked_some hs).2⟩

theorem addAt_keys {k : ExprId} {c : Int} (cs : Coeffs) : ∀ {ds : Coeffs}, addAt k c cs = some ds →
    ∀ p ∈ ds, p.1 = k ∨ ∃ q ∈ cs, q.1 = p.1 := by
  induction cs with
  | nil =>
    intro ds h p hp
    rw [(addAt_nil h).1] at hp
    rw [List.mem_singleton.mp hp]
    exact .inl rfl
  | cons q cs ih =>
    intro ds h p hp
    obtain ⟨hlt, -, rfl⟩ | ⟨heq, -, rfl⟩ | ⟨hgt, es, hes, rfl⟩ := addAt_cases h
    · rcases List.mem_cons.mp hp with rfl | hp
      · exact .inl rfl
      · exact .inr ⟨p, hp, rfl⟩
    · rcases List.mem_cons.mp hp with rfl | hp
      · exact .inl heq.symm
      · exact .inr ⟨p, List.mem_cons_of_mem _ hp, rfl⟩
    · rcases List.mem_cons.mp hp with rfl | hp
      · exact .inr ⟨q, List.mem_cons_self, rfl⟩
      · rcases ih hes p hp with hk | ⟨r, hr, he⟩
        · exact .inl hk
        · exact .inr ⟨r, List.mem_cons_of_mem _ hr, he⟩

theorem addAt_sorted {k : ExprId} {c : Int} (cs : Coeffs) : ∀ {ds : Coeffs},
    addAt k c cs = some ds → cs.Sorted → ds.Sorted := by
  induction cs with
  | nil =>
    intro ds h _
    rw [(addAt_nil h).1]
    exact List.pairwise_singleton _ _
  | cons q cs ih =>
    intro ds h hs
    obtain ⟨hq, hcs⟩ := List.pairwise_cons.mp hs
    obtain ⟨hlt, -, rfl⟩ | ⟨heq, -, rfl⟩ | ⟨hgt, es, hes, rfl⟩ := addAt_cases h
    · refine List.pairwise_cons.mpr ⟨fun p hp => ?_, hs⟩
      rcases List.mem_cons.mp hp with rfl | hp
      · exact hlt
      · exact Nat.lt_trans hlt (hq p hp)
    · exact List.pairwise_cons.mpr ⟨hq, hcs⟩
    · refine List.pairwise_cons.mpr ⟨fun p hp => ?_, ih hes hcs⟩
      rcases addAt_keys cs hes p hp with hk | ⟨r, hr, he⟩
      · rw [hk]
        exact hgt
      · rw [← he]
        exact hq r hr

theorem addAt_inRange {k : ExprId} {c : Int} (cs : Coeffs) : ∀ {ds : Coeffs},
    addAt k c cs = some ds → (∀ p ∈ cs, InRange p.2) → ∀ p ∈ ds, InRange p.2 := by
  induction cs with
  | nil =>
    intro ds h _ p hp
    rw [(addAt_nil h).1] at hp
    rw [List.mem_singleton.mp hp]
    exact (addAt_nil h).2
  | cons q cs ih =>
    intro ds h hcs
    obtain ⟨hq, hrest⟩ := List.forall_mem_cons.mp hcs
    obtain ⟨-, hc, rfl⟩ | ⟨-, hc, rfl⟩ | ⟨-, es, hes, rfl⟩ := addAt_cases h
    · exact List.forall_mem_cons.mpr ⟨hc, hcs⟩
    · exact List.forall_mem_cons.mpr ⟨hc, hrest⟩
    · exact List.forall_mem_cons.mpr ⟨hq, ih hes hrest⟩

/-- The sum the entries stand for, at an assignment of the atoms. -/
def dot (σ : ExprId → Int) (cs : Coeffs) : Int := (cs.map fun p => p.2 * σ p.1).sum

@[simp] theorem dot_nil (σ : ExprId → Int) : dot σ [] = 0 := rfl

@[simp] theorem dot_cons (σ : ExprId → Int) (p : ExprId × Int) (cs : Coeffs) :
    dot σ (p :: cs) = p.2 * σ p.1 + dot σ cs := List.sum_cons

theorem addAt_dot (σ : ExprId → Int) {k : ExprId} {c : Int} (cs : Coeffs) : ∀ {ds : Coeffs},
    addAt k c cs = some ds → dot σ ds = dot σ cs + c * σ k := by
  induction cs with
  | nil =>
    intro ds h
    rw [(addAt_nil h).1, dot_cons, add_comm]
  | cons q cs ih =>
    intro ds h
    obtain ⟨hlt, -, rfl⟩ | ⟨heq, -, rfl⟩ | ⟨hgt, es, hes, rfl⟩ := addAt_cases h
    · rw [dot_cons, add_comm]
    · simp only [dot_cons, heq]
      ring
    · rw [dot_cons, dot_cons, ih hes, add_assoc]

theorem addAll_spec (ds : Coeffs) : ∀ {cs es : Coeffs}, addAll cs ds = some es →
    (cs.Sorted → es.Sorted) ∧ ((∀ p ∈ cs, InRange p.2) → ∀ p ∈ es, InRange p.2) ∧
      (∀ p ∈ es, (∃ q ∈ cs, q.1 = p.1) ∨ ∃ q ∈ ds, q.1 = p.1) ∧
      ∀ σ, dot σ es = dot σ cs + dot σ ds := by
  induction ds with
  | nil =>
    intro cs es h
    obtain rfl : cs = es := Option.some.inj h
    exact ⟨id, id, fun p hp => .inl ⟨p, hp, rfl⟩, fun σ => by simp⟩
  | cons q ds ih =>
    intro cs es h
    obtain ⟨fs, hfs, h⟩ := Option.bind_eq_some_iff.mp h
    obtain ⟨hsorted, hrange, hkeys, hdot⟩ := ih h
    refine ⟨fun hcs => hsorted (addAt_sorted cs hfs hcs),
      fun hcs => hrange (addAt_inRange cs hfs hcs), fun p hp => ?_, fun σ => ?_⟩
    · rcases hkeys p hp with ⟨r, hr, he⟩ | ⟨r, hr, he⟩
      · rcases addAt_keys cs hfs r hr with hk | ⟨t, ht, hte⟩
        · exact .inr ⟨q, List.mem_cons_self, by rw [← he, hk]⟩
        · exact .inl ⟨t, ht, by rw [hte, he]⟩
      · exact .inr ⟨r, List.mem_cons_of_mem _ hr, he⟩
    · rw [hdot σ, addAt_dot σ cs hfs, dot_cons, add_assoc]

theorem scale_spec {k : Int} (cs : Coeffs) : ∀ {ds : Coeffs}, scale k cs = some ds →
    ds = cs.map (fun p => (p.1, p.2 * k)) ∧ ∀ p ∈ cs, InRange (p.2 * k) := by
  induction cs with
  | nil =>
    intro ds h
    exact ⟨(Option.some.inj h).symm, fun p hp => absurd hp List.not_mem_nil⟩
  | cons q cs ih =>
    intro ds h
    obtain ⟨c, hc, h⟩ := Option.bind_eq_some_iff.mp h
    obtain ⟨es, hes, h⟩ := Option.bind_eq_some_iff.mp h
    obtain ⟨hmap, hmin⟩ := ih hes
    obtain ⟨rfl, hlo⟩ := checked_some hc
    refine ⟨?_, ?_⟩
    · rw [← Option.some.inj h, hmap]
      rfl
    · intro p hp
      rcases List.mem_cons.mp hp with rfl | hp
      · exact hlo
      · exact hmin p hp

theorem dot_scaled (σ : ExprId → Int) (k : Int) (cs : Coeffs) :
    dot σ (cs.map fun p => (p.1, p.2 * k)) = k * dot σ cs := by
  induction cs with
  | nil => rw [List.map_nil, dot_nil, mul_zero]
  | cons p cs ih =>
    rw [List.map_cons, dot_cons, dot_cons, ih]
    ring

theorem dot_filter_nonzero (σ : ExprId → Int) (cs : Coeffs) :
    dot σ (cs.filter fun p => p.2 ≠ 0) = dot σ cs := by
  induction cs with
  | nil => rfl
  | cons p cs ih =>
    by_cases hp : p.2 = 0
    · rw [List.filter_cons_of_neg (by simp [hp]), ih, dot_cons, hp, zero_mul, zero_add]
    · rw [List.filter_cons_of_pos (by simp [hp]), dot_cons, dot_cons, ih]

/-- `coeffs.get(&v)`, zero when absent. -/
def get (cs : Coeffs) (v : ExprId) : Int := (cs.lookup v).getD 0

/-- The assignment that picks out one atom. -/
def only (v : ExprId) : ExprId → Int := fun k => if k = v then 1 else 0

theorem dot_only_absent {v : ExprId} (cs : Coeffs) (h : ∀ p ∈ cs, p.1 ≠ v) : dot (only v) cs = 0 := by
  induction cs with
  | nil => rfl
  | cons p cs ih =>
    obtain ⟨hp, hcs⟩ := List.forall_mem_cons.mp h
    rw [dot_cons, ih hcs, only, if_neg hp, mul_zero, add_zero]

theorem get_eq_dot {v : ExprId} (cs : Coeffs) (hs : cs.Sorted) : cs.get v = dot (only v) cs := by
  induction cs with
  | nil => rfl
  | cons p cs ih =>
    obtain ⟨hp, hcs⟩ := List.pairwise_cons.mp hs
    by_cases hv : p.1 = v
    · have habsent : ∀ q ∈ cs, q.1 ≠ v := fun q hq he => by
        have := hp q hq
        rw [hv, he] at this
        exact Nat.lt_irrefl v this
      rw [dot_cons, dot_only_absent cs habsent, only, if_pos hv, mul_one, add_zero, get, ← hv,
        List.lookup_cons_self]
      rfl
    · rw [dot_cons, ← ih hcs, only, if_neg hv, mul_zero, zero_add, get, get, List.lookup_cons]
      rw [beq_eq_false_iff_ne.mpr (Ne.symm hv)]

theorem mem_of_get {cs : Coeffs} {v : ExprId} (h : cs.get v ≠ 0) : (v, cs.get v) ∈ cs := by
  induction cs with
  | nil => exact absurd rfl h
  | cons p cs ih =>
    by_cases hv : v = p.1
    · subst hv
      rw [get, List.lookup_cons_self]
      exact List.mem_cons_self
    · have hget : get (p :: cs) v = get cs v := by
        rw [get, get, List.lookup_cons, beq_eq_false_iff_ne.mpr hv]
      rw [hget] at h ⊢
      exact List.mem_cons_of_mem _ (ih h)

theorem get_ne_zero_of_mem {cs : Coeffs} (hs : cs.Sorted) (hnz : ∀ p ∈ cs, p.2 ≠ 0)
    {p : ExprId × Int} (hp : p ∈ cs) : cs.get p.1 ≠ 0 := by
  induction cs with
  | nil => exact absurd hp List.not_mem_nil
  | cons q cs ih =>
    obtain ⟨hq, hcs⟩ := List.pairwise_cons.mp hs
    obtain ⟨hq0, hrest⟩ := List.forall_mem_cons.mp hnz
    rcases List.mem_cons.mp hp with rfl | hp
    · rw [get, List.lookup_cons_self]
      exact hq0
    · have hne : p.1 ≠ q.1 := Nat.ne_of_gt (hq p hp)
      rw [get, List.lookup_cons, beq_eq_false_iff_ne.mpr hne]
      exact ih hcs hrest hp

end Coeffs

/-- `normalized`: zero coefficients are dropped. -/
def normalized (cs : Coeffs) (hs : cs.Sorted) (c : Int) : Linear where
  coeffs := cs.filter fun p => p.2 ≠ 0
  constant := c
  sorted := hs.filter _
  nonzero p hp := by simpa using (List.mem_filter.mp hp).2

def const (c : Int) : Linear := ⟨[], c, List.Pairwise.nil, fun _ h => absurd h List.not_mem_nil⟩

def atom (e : ExprId) : Linear :=
  ⟨[(e, 1)], 0, List.pairwise_singleton _ _, fun _ hp => by
    rw [List.mem_singleton.mp hp]
    exact one_ne_zero⟩

def isConstant (l : Linear) : Bool := l.coeffs.isEmpty

def coeffOf (l : Linear) (v : ExprId) : Int := l.coeffs.get v

def add (l o : Linear) : Option Linear := do
  let c ← checked (l.constant + o.constant)
  match h : l.coeffs.addAll o.coeffs with
  | none => none
  | some cs => return normalized cs ((Coeffs.addAll_spec _ h).1 l.sorted) c

theorem scaled_sorted {cs ds : Coeffs} {k : Int} (h : cs.scale k = some ds) (hs : cs.Sorted) :
    ds.Sorted := by
  rw [(Coeffs.scale_spec cs h).1]
  exact List.Pairwise.map _ (fun _ _ h => h) hs

def scale (l : Linear) (k : Int) : Option Linear := do
  let c ← checked (l.constant * k)
  match h : l.coeffs.scale k with
  | none => none
  | some cs => return normalized cs (scaled_sorted h l.sorted) c

def sub (l o : Linear) : Option Linear := do
  let neg ← o.scale (-1)
  l.add neg

def addConst (l : Linear) (k : Int) : Option Linear := do
  let c ← checked (l.constant + k)
  return { l with constant := c }

/-- `coeffs.remove(&v)`. -/
def remove (l : Linear) (v : ExprId) : Linear where
  coeffs := l.coeffs.filter fun p => p.1 ≠ v
  constant := l.constant
  sorted := l.sorted.filter _
  nonzero p hp := l.nonzero p (List.mem_filter.mp hp).1

/-! ### Their values -/

/-- The value at an assignment of the atoms. -/
def eval (σ : ExprId → Int) (l : Linear) : Int := l.coeffs.dot σ + l.constant

def Mentions (l : Linear) (v : ExprId) : Prop := ∃ p ∈ l.coeffs, p.1 = v

theorem eval_normalized (σ : ExprId → Int) {cs : Coeffs} (hs : cs.Sorted) (c : Int) :
    (normalized cs hs c).eval σ = cs.dot σ + c := by
  show Coeffs.dot σ (cs.filter _) + c = _
  rw [Coeffs.dot_filter_nonzero]

theorem normalized_mentions {cs : Coeffs} {hs : cs.Sorted} {c : Int} {v : ExprId}
    (h : (normalized cs hs c).Mentions v) : ∃ p ∈ cs, p.1 = v := by
  obtain ⟨p, hp, he⟩ := h
  exact ⟨p, (List.mem_filter.mp hp).1, he⟩

@[simp] theorem eval_const (σ : ExprId → Int) (c : Int) : (const c).eval σ = c := zero_add c

@[simp] theorem eval_atom (σ : ExprId → Int) (e : ExprId) : (atom e).eval σ = σ e := by
  simp [eval, atom]

theorem eval_isConstant (σ : ExprId → Int) {l : Linear} (h : l.isConstant = true) :
    l.eval σ = l.constant := by
  have hnil : l.coeffs = [] := List.isEmpty_iff.mp h
  rw [eval, hnil, Coeffs.dot_nil, zero_add]

theorem coeffOf_eq (l : Linear) (v : ExprId) : l.coeffOf v = l.coeffs.dot (Coeffs.only v) :=
  Coeffs.get_eq_dot l.coeffs l.sorted

theorem coeffOf_ne_zero {l : Linear} {v : ExprId} (h : l.Mentions v) : l.coeffOf v ≠ 0 := by
  obtain ⟨p, hp, rfl⟩ := h
  exact Coeffs.get_ne_zero_of_mem l.sorted l.nonzero hp

theorem add_some {l o r : Linear} (h : l.add o = some r) :
    ∃ cs hs, l.coeffs.addAll o.coeffs = some cs ∧ r = normalized cs hs (l.constant + o.constant) := by
  obtain ⟨c, hc, h⟩ := Option.bind_eq_some_iff.mp h
  split at h
  · exact absurd h (by simp)
  · rename_i cs hcs
    refine ⟨cs, (Coeffs.addAll_spec _ hcs).1 l.sorted, hcs, ?_⟩
    rw [← Option.some.inj h, (checked_some hc).1]

theorem scale_some {l r : Linear} {k : Int} (h : l.scale k = some r) :
    ∃ cs hs, l.coeffs.scale k = some cs ∧ r = normalized cs hs (l.constant * k) := by
  obtain ⟨c, hc, h⟩ := Option.bind_eq_some_iff.mp h
  split at h
  · exact absurd h (by simp)
  · rename_i cs hcs
    refine ⟨cs, scaled_sorted hcs l.sorted, hcs, ?_⟩
    rw [← Option.some.inj h, (checked_some hc).1]

theorem eval_add (σ : ExprId → Int) {l o r : Linear} (h : l.add o = some r) :
    r.eval σ = l.eval σ + o.eval σ := by
  obtain ⟨cs, hs, hcs, rfl⟩ := add_some h
  rw [eval_normalized, (Coeffs.addAll_spec _ hcs).2.2.2 σ, eval, eval]
  ring

theorem eval_scale (σ : ExprId → Int) {l r : Linear} {k : Int} (h : l.scale k = some r) :
    r.eval σ = k * l.eval σ := by
  obtain ⟨cs, hs, hcs, rfl⟩ := scale_some h
  rw [eval_normalized, (Coeffs.scale_spec _ hcs).1, Coeffs.dot_scaled, eval]
  ring

theorem eval_sub (σ : ExprId → Int) {l o r : Linear} (h : l.sub o = some r) :
    r.eval σ = l.eval σ - o.eval σ := by
  obtain ⟨neg, hneg, h⟩ := Option.bind_eq_some_iff.mp h
  rw [eval_add σ h, eval_scale σ hneg]
  ring

theorem eval_addConst (σ : ExprId → Int) {l r : Linear} {k : Int} (h : l.addConst k = some r) :
    r.eval σ = l.eval σ + k := by
  obtain ⟨c, hc, h⟩ := Option.bind_eq_some_iff.mp h
  rw [← Option.some.inj h, eval, eval, (checked_some hc).1]
  ring

theorem coeffOf_add {l o r : Linear} (h : l.add o = some r) (v : ExprId) :
    r.coeffOf v = l.coeffOf v + o.coeffOf v := by
  obtain ⟨cs, hs, hcs, rfl⟩ := add_some h
  rw [coeffOf_eq, coeffOf_eq, coeffOf_eq]
  show Coeffs.dot _ (cs.filter _) = _
  rw [Coeffs.dot_filter_nonzero, (Coeffs.addAll_spec _ hcs).2.2.2]

theorem coeffOf_scale {l r : Linear} {k : Int} (h : l.scale k = some r) (v : ExprId) :
    r.coeffOf v = k * l.coeffOf v := by
  obtain ⟨cs, hs, hcs, rfl⟩ := scale_some h
  rw [coeffOf_eq, coeffOf_eq]
  show Coeffs.dot _ (cs.filter _) = _
  rw [Coeffs.dot_filter_nonzero, (Coeffs.scale_spec _ hcs).1, Coeffs.dot_scaled]

theorem add_mentions {l o r : Linear} (h : l.add o = some r) {v : ExprId} (hv : r.Mentions v) :
    l.Mentions v ∨ o.Mentions v := by
  obtain ⟨cs, hs, hcs, rfl⟩ := add_some h
  obtain ⟨p, hp, rfl⟩ := normalized_mentions hv
  exact (Coeffs.addAll_spec _ hcs).2.2.1 p hp

theorem scale_mentions {l r : Linear} {k : Int} (h : l.scale k = some r) {v : ExprId}
    (hv : r.Mentions v) : l.Mentions v := by
  obtain ⟨cs, hs, hcs, rfl⟩ := scale_some h
  obtain ⟨p, hp, rfl⟩ := normalized_mentions hv
  rw [(Coeffs.scale_spec _ hcs).1] at hp
  obtain ⟨q, hq, rfl⟩ := List.mem_map.mp hp
  exact ⟨q, hq, rfl⟩

theorem remove_of_coeffOf_zero {l : Linear} {v : ExprId} (h : l.coeffOf v = 0) : l.remove v = l := by
  have hkeep : l.coeffs.filter (fun p => p.1 ≠ v) = l.coeffs := by
    rw [List.filter_eq_self]
    intro p hp
    simp only [ne_eq, decide_not, Bool.not_eq_true', decide_eq_false_iff_not]
    exact fun he => coeffOf_ne_zero ⟨p, hp, he⟩ h
  exact Linear.ext hkeep rfl

end Linear

end Csolver
