import Csolver.Symbolic.Merge
import Csolver.Symbolic.Machine

/-!
# When a merged block parameter has the value its edge passed (`exec/merge.rs`)

`merge_values` folds the edges' values into a chain that tests the discriminators in the order the
edges were queued. So on a concrete run the parameter has the value of the *first* edge whose
discriminator holds, and that is the edge the run came by only if the earlier discriminators fail.
They need not: a join keeps only the common prefix of its path conditions, so a discriminator
built after it is weaker than the edge's own condition.

Pointers are compared as the source compares them: by region, null or opaque, and by offset.
-/

namespace Csolver

/-- What a provenance starts from; opaque pointers are not told apart. -/
inductive Base where
  | null
  | region (rid : Nat)
  | opq
  deriving DecidableEq

mutual

/-- The alternative of a `select` that the valuation picks, with its offset. -/
def Prov.resolve (ρ : Valuation) : Prov → Base × Nat
  | .null => (.null, 0)
  | .region r => (.region r, 0)
  | .unknown _ _ => (.opq, 0)
  | .select c t e => if c.Holds ρ then t.resolve ρ else e.resolve ρ

def SymPointer.resolve (ρ : Valuation) : SymPointer → Base × Nat
  | .mk p o _ _ => ((p.resolve ρ).1, ((p.resolve ρ).2 + o.eval ρ) % 2 ^ 64)

end

/-- Two values agree under a valuation: equal scalars, or pointers of equal provenance and
    offset. -/
def SymValue.Same (ρ : Valuation) : SymValue → SymValue → Prop
  | .scalar a, .scalar b => a.eval ρ = b.eval ρ
  | .ptr p, .ptr q => p.resolve ρ = q.resolve ρ
  | _, _ => False

theorem SymValue.Same.refl (ρ : Valuation) (v : SymValue) : v.Same ρ v := by
  cases v <;> rfl

theorem SymValue.Same.symm {ρ : Valuation} {v w : SymValue} (h : v.Same ρ w) : w.Same ρ v := by
  cases v <;> cases w <;> first | exact Eq.symm h | exact h

theorem SymValue.Same.trans {ρ : Valuation} {u v w : SymValue} (h₁ : u.Same ρ v)
    (h₂ : v.Same ρ w) : u.Same ρ w := by
  cases u <;> cases v <;> cases w <;> first | exact Eq.trans h₁ h₂ | exact h₁.elim | exact h₂.elim

mutual

theorem Prov.resolve_eq_of_same {ρ : Valuation} : ∀ {p q : Prov}, p.same q = true →
    p.resolve ρ = q.resolve ρ
  | .null, q, h => by cases q <;> simp_all [Prov.same]
  | .region a, q, h => by cases q <;> simp_all [Prov.same]
  | .unknown _ _, q, h => by cases q <;> simp_all [Prov.same, Prov.resolve]
  | .select c t e, q, h => by
    cases q with
    | select c' t' e' =>
      simp only [Prov.same, Bool.and_eq_true, decide_eq_true_eq] at h
      rw [Prov.resolve, Prov.resolve, h.1, SymPointer.resolve_eq_of_same h.2.1,
        SymPointer.resolve_eq_of_same h.2.2]
    | _ => exact absurd h (by simp [Prov.same])

theorem SymPointer.resolve_eq_of_same {ρ : Valuation} : ∀ {p q : SymPointer}, p.same q = true →
    p.resolve ρ = q.resolve ρ
  | .mk p o _ _, .mk p' o' _ _, h => by
    simp only [SymPointer.same, Bool.and_eq_true, decide_eq_true_eq] at h
    rw [SymPointer.resolve, SymPointer.resolve, Prov.resolve_eq_of_same h.1, h.2.1]

end

theorem SymPointer.resolve_lt (ρ : Valuation) (p : SymPointer) : (p.resolve ρ).2 < 2 ^ 64 := by
  cases p
  exact Nat.mod_lt _ (by decide)

/-- An opaque pointer at offset zero, which is what a join falls back to. -/
def opaqueZero : SymValue := .ptr (.mk (.unknown .selectJoin none) (.int ptrWidth 0) 1 none)

theorem same_opaqueZero (ρ : Valuation) (o : POrigin) (i : Option Nat) (al : Nat)
    (bo : Option RegId) :
    (SymValue.ptr (.mk (.unknown o i) (.int ptrWidth 0) al bo)).Same ρ opaqueZero := rfl

/-! ## The chain -/

/-- `select` cannot keep both pointers: they differ and one of them is nested eight deep. -/
def tooDeep (p q : SymPointer) : Bool :=
  !p.prov.same q.prov && decide (8 ≤ max p.prov.selectDepth q.prov.selectDepth)

/-- What one `select` stands for, from what its `else` side stands for. -/
def selected (ρ : Valuation) (ty : Ty) (d : Expr) (v acc : SymValue) (o : Option SymValue) :
    Option SymValue :=
  match v, acc with
  | .scalar _, .scalar _ => if d.Holds ρ then some v else o
  | .ptr p, .ptr q =>
    if tooDeep p q then some opaqueZero else if d.Holds ρ then some v else o
  | _, _ => if ty.isPtr then some opaqueZero else none

/-- What a chain of `select`s stands for under `ρ`: the value of the first edge whose discriminator
    holds (of the last edge if none does), unless the fold met a scalar and a pointer, which gives
    an unknown of the parameter's type (`none`: a fresh scalar), or a `select` nested too deep,
    which gives an opaque pointer. -/
def chosen (ρ : Valuation) (ty : Ty) (ex : Explorer) : List (Expr × SymValue) → Option SymValue
  | [] => if ty.isPtr then some opaqueZero else none
  | [(_, v)] => some v
  | (d, v) :: w :: vals =>
    selected ρ ty d v (mergeValues ty (w :: vals) ex).1 (chosen ρ ty ex (w :: vals))

/-- The scalar is the fresh symbol `k`, however the symbols from `n` on are chosen. -/
def IsFresh (n : Nat) (ρ : Valuation) (ty : Ty) (v : SymValue) : Prop :=
  ∃ e k, v = .scalar e ∧ n ≤ k ∧ ∀ ρ', Valuation.Agree n ρ ρ' →
    e.eval ρ' = ρ' (freshName k) ty.typeWidth % 2 ^ ty.typeWidth

/-- What the merged value stands for. -/
def Stands (n : Nat) (ρ : Valuation) (ty : Ty) (v : SymValue) : Option SymValue → Prop
  | some u => v.Same ρ u
  | none => IsFresh n ρ ty v

theorem freshValue_stands {n : Nat} {ty : Ty} {o : POrigin} {ex : Explorer} (ho : o ≠ .load)
    (hn : n ≤ ex.fresh) (ρ : Valuation) :
    Stands n ρ ty (freshValue ty o ex).1 (if ty.isPtr then some opaqueZero else none) := by
  by_cases hp : ty.isPtr
  · rw [freshValue, if_pos hp, if_pos hp]
    exact same_opaqueZero ρ _ _ _ _
  · rw [freshValue, if_neg hp, if_neg hp, if_neg ho]
    exact ⟨_, ex.fresh, rfl, hn, fun _ _ => rfl⟩

theorem Expr.Below.holds_iff {n : Nat} {e : Expr} (h : e.Below n) {ρ ρ' : Valuation}
    (ha : Valuation.Agree n ρ ρ') : e.Holds ρ ↔ e.Holds ρ' := by
  rw [Expr.Holds, Expr.Holds, h.eval_eq ha]

theorem select_ptr_same {ρ : Valuation} {d : Expr} {p q : SymPointer} (hd : tooDeep p q = false)
    {ty : Ty} {ex : Explorer} :
    (select d (.ptr p) (.ptr q) ty ex).1.Same ρ (if d.Holds ρ then .ptr p else .ptr q) := by
  obtain ⟨pp, po, pa, pb⟩ := p
  obtain ⟨qp, qo, qa, qb⟩ := q
  by_cases hsame : pp.same qp = true
  · -- one provenance: the offset is the choice
    have hsel : select d (.ptr (.mk pp po pa pb)) (.ptr (.mk qp qo qa qb)) ty ex =
        (.ptr (.mk pp (.mkIte d po qo) (gcdAlign pa qa)
          (joinBorrow (.mk pp po pa pb) (.mk qp qo qa qb))), ex) := if_pos hsame
    rw [hsel]
    by_cases hh : d.Holds ρ
    · rw [if_pos hh]
      show SymPointer.resolve ρ _ = SymPointer.resolve ρ _
      rw [SymPointer.resolve, SymPointer.resolve, Expr.eval_mkIte, if_pos hh]
    · rw [if_neg hh]
      show SymPointer.resolve ρ _ = SymPointer.resolve ρ _
      rw [SymPointer.resolve, SymPointer.resolve, Expr.eval_mkIte, if_neg hh,
        Prov.resolve_eq_of_same hsame]
  · have hdepth : ¬ 8 ≤ max pp.selectDepth qp.selectDepth := by
      have hd' : (!pp.same qp && decide (8 ≤ max pp.selectDepth qp.selectDepth)) = false := hd
      rw [Bool.eq_false_iff.mpr hsame, Bool.not_false, Bool.true_and] at hd'
      exact of_decide_eq_false hd'
    have hsel : select d (.ptr (.mk pp po pa pb)) (.ptr (.mk qp qo qa qb)) ty ex =
        (.ptr (.mk (.select d (.mk pp po pa pb) (.mk qp qo qa qb)) (.int ptrWidth 0)
          (gcdAlign pa qa) (joinBorrow (.mk pp po pa pb) (.mk qp qo qa qb))), ex) :=
      (if_neg hsame).trans (if_neg hdepth)
    rw [hsel]
    by_cases hh : d.Holds ρ
    · have hlt := SymPointer.resolve_lt ρ (.mk pp po pa pb)
      rw [if_pos hh]
      show SymPointer.resolve ρ _ = SymPointer.resolve ρ _
      rw [SymPointer.resolve, Prov.resolve, if_pos hh, Expr.eval_int, Nat.zero_mod, Nat.add_zero,
        Nat.mod_eq_of_lt hlt]
    · have hlt := SymPointer.resolve_lt ρ (.mk qp qo qa qb)
      rw [if_neg hh]
      show SymPointer.resolve ρ _ = SymPointer.resolve ρ _
      rw [SymPointer.resolve, Prov.resolve, if_neg hh, Expr.eval_int, Nat.zero_mod, Nat.add_zero,
        Nat.mod_eq_of_lt hlt]

theorem select_tooDeep {ρ : Valuation} {d : Expr} {p q : SymPointer} (hd : tooDeep p q = true)
    {ty : Ty} {ex : Explorer} : (select d (.ptr p) (.ptr q) ty ex).1.Same ρ opaqueZero := by
  simp only [tooDeep, Bool.and_eq_true, Bool.not_eq_true', decide_eq_true_eq] at hd
  rw [select, if_neg (by rw [hd.1]; decide), if_pos hd.2]
  exact SymValue.Same.refl ρ _

theorem select_stands {n : Nat} {ρ : Valuation} {ty : Ty} {d : Expr} {v acc : SymValue}
    {o : Option SymValue} {ex : Explorer} (hd : d.Below n) (hn : n ≤ ex.fresh)
    (hacc : Stands n ρ ty acc o) :
    Stands n ρ ty (select d v acc ty ex).1 (selected ρ ty d v acc o) := by
  cases v with
  | scalar ea =>
    cases acc with
    | ptr q => exact freshValue_stands (by decide) hn ρ
    | scalar eb =>
      by_cases hh : d.Holds ρ
      · rw [selected, if_pos hh]
        show (Expr.mkIte d ea eb).eval ρ = ea.eval ρ
        rw [Expr.eval_mkIte, if_pos hh]
      · rw [selected, if_neg hh]
        have heval : ∀ ρ', Valuation.Agree n ρ ρ' → (Expr.mkIte d ea eb).eval ρ' = eb.eval ρ' := by
          intro ρ' hag
          rw [Expr.eval_mkIte, if_neg fun h => hh ((hd.holds_iff hag).mpr h)]
        cases o with
        | some u =>
          have hs : (SymValue.scalar (.mkIte d ea eb)).Same ρ (.scalar eb) :=
            heval ρ (Valuation.Agree.refl n ρ)
          exact hs.trans hacc
        | none =>
          obtain ⟨e, k, he, hk, hev⟩ := hacc
          obtain rfl : eb = e := SymValue.scalar.inj he
          exact ⟨_, k, rfl, hk, fun ρ' hag => (heval ρ' hag).trans (hev ρ' hag)⟩
  | ptr p =>
    cases acc with
    | scalar eb => exact freshValue_stands (by decide) hn ρ
    | ptr q =>
      cases hdeep : tooDeep p q with
      | true =>
        rw [selected, if_pos hdeep]
        exact select_tooDeep hdeep
      | false =>
        have hsel := @select_ptr_same ρ d _ _ hdeep ty ex
        rw [selected, if_neg (by rw [hdeep]; decide)]
        by_cases hh : d.Holds ρ
        · rw [if_pos hh] at hsel ⊢
          exact hsel
        · rw [if_neg hh] at hsel ⊢
          cases o with
          | some u => exact hsel.trans hacc
          | none =>
            obtain ⟨e, k, he, -⟩ := hacc
            exact absurd he (by simp)

/-! ## Counters -/

theorem freshValue_le (ty : Ty) (o : POrigin) (ex : Explorer) :
    ex.fresh ≤ (freshValue ty o ex).2.fresh := by
  unfold freshValue freshScalarNamed freshScalar
  split_ifs <;> simp

theorem select_le (d : Expr) (a b : SymValue) (ty : Ty) (ex : Explorer) :
    ex.fresh ≤ (select d a b ty ex).2.fresh := by
  unfold select
  split
  · exact Nat.le_refl _
  · split_ifs <;> exact Nat.le_refl _
  · exact freshValue_le _ _ _

theorem mergeValues_le (ty : Ty) (vals : List (Expr × SymValue)) (ex : Explorer) :
    ex.fresh ≤ (mergeValues ty vals ex).2.fresh := by
  induction vals with
  | nil => exact freshValue_le _ _ _
  | cons p vals ih =>
    cases vals with
    | nil => exact Nat.le_refl _
    | cons q vals => exact Nat.le_trans ih (select_le _ _ _ _ _)

theorem mergeValues_stands {n : Nat} {ρ : Valuation} {ty : Ty} {ex : Explorer} (hn : n ≤ ex.fresh)
    (vals : List (Expr × SymValue)) (hd : ∀ p ∈ vals, p.1.Below n) :
    Stands n ρ ty (mergeValues ty vals ex).1 (chosen ρ ty ex vals) := by
  induction vals with
  | nil => exact freshValue_stands (by decide) hn ρ
  | cons p vals ih =>
    obtain ⟨d, v⟩ := p
    cases vals with
    | nil => exact SymValue.Same.refl ρ v
    | cons w vals =>
      rw [chosen]
      exact select_stands (hd _ List.mem_cons_self)
        (Nat.le_trans hn (mergeValues_le ty (w :: vals) ex))
        (ih fun q hq => hd q (List.mem_cons_of_mem _ hq))

/-! ## One parameter -/

/-- The valuation is of a run that takes the edge. -/
structure EdgeState.Arrives (e : EdgeState) (ρ : Valuation) : Prop where
  cond : ∀ c ∈ e.conds, c.Holds ρ
  fact : ∀ c ∈ e.predState.facts, c.Holds ρ

/-- The edges are states of the executor: nothing in them is fresh from `n` on. -/
structure EdgeState.Ok (n : Nat) (e : EdgeState) : Prop where
  state : e.predState.Ok n
  cond : ∀ c ∈ e.conds, c.Below n
  fact : ∀ c ∈ e.predState.facts, c.Below n

theorem EdgeState.Ok.mono {n k : Nat} (hnk : n ≤ k) {e : EdgeState} (h : e.Ok n) : e.Ok k where
  state r v hv := (h.state r v hv).mono hnk
  cond c hc := (h.cond c hc).mono hnk
  fact c hc := (h.fact c hc).mono hnk

theorem EdgeState.Ok.disc_below {n : Nat} {e : EdgeState} (h : e.Ok n) : e.disc.Below n := by
  intro q hq k hk
  obtain ⟨c, hc, hqc⟩ := Expr.mem_symbolsOf_mkAnd hq
  exact h.cond c hc q hqc k hk

theorem EdgeState.Arrives.agree {n : Nat} {e : EdgeState} (he : e.Ok n) {ρ ρ' : Valuation}
    (hag : Valuation.Agree n ρ ρ') (h : e.Arrives ρ) : e.Arrives ρ' where
  cond c hc := ((he.cond c hc).holds_iff hag).mp (h.cond c hc)
  fact c hc := ((he.fact c hc).holds_iff hag).mp (h.fact c hc)

theorem argValue_le {j : Nat} {ty : Ty} {args : List Operand} {st : PathState} {ex : Explorer}
    (hst : st.Ok ex.fresh) : ex.fresh ≤ (argValue j ty args st ex).2.fresh := by
  unfold argValue
  cases args[j]? with
  | some a => exact (evalValue_ok hst a).2
  | none => exact freshValue_le _ _ _

section

variable {j : Nat} {ty : Ty}

theorem edgeValues_le (edges : List EdgeState) : ∀ {ex : Explorer}, (∀ e ∈ edges, e.Ok ex.fresh) →
    ex.fresh ≤ (edgeValues j ty edges ex).2.fresh := by
  induction edges with
  | nil => exact fun _ => Nat.le_refl _
  | cons e es ih =>
    intro ex hok
    have hle := @argValue_le j ty e.args _ _ (hok e List.mem_cons_self).state
    exact Nat.le_trans hle
      (ih fun e' he' => (hok e' (List.mem_cons_of_mem _ he')).mono hle)

theorem edgeValues_disc (edges : List EdgeState) : ∀ (ex : Explorer),
    (edgeValues j ty edges ex).1.map Prod.fst = edges.map EdgeState.disc := by
  induction edges with
  | nil => exact fun _ => rfl
  | cons e es ih =>
    intro ex
    show e.disc :: (edgeValues j ty es _).1.map Prod.fst = _
    rw [ih, List.map_cons]

theorem edgeValues_ok (edges : List EdgeState) : ∀ {ex : Explorer}, (∀ e ∈ edges, e.Ok ex.fresh) →
    ∀ {i : Nat} {e : EdgeState} {d : Expr} {v : SymValue}, edges[i]? = some e →
      e.args[j]? ≠ none → (edgeValues j ty edges ex).1[i]? = some (d, v) →
      v.Ok (edgeValues j ty edges ex).2.fresh := by
  induction edges with
  | nil =>
    intro ex _ i e d v he
    exact absurd he (by simp)
  | cons e₀ es ih =>
    intro ex hok i e d v he ha hv
    have hst := (hok e₀ List.mem_cons_self).state
    have hle := @argValue_le j ty e₀.args _ _ hst
    have hrest : ∀ e ∈ es, e.Ok (argValue j ty e₀.args e₀.predState ex).2.fresh :=
      fun e' he' => (hok e' (List.mem_cons_of_mem _ he')).mono hle
    cases i with
    | zero =>
      obtain rfl : e₀ = e := Option.some.inj he
      obtain ⟨a, ha'⟩ := Option.ne_none_iff_exists'.mp ha
      obtain ⟨-, rfl⟩ : _ ∧ (argValue j ty e₀.args e₀.predState ex).1 = v :=
        Prod.mk.inj (Option.some.inj hv)
      have hval : (argValue j ty e₀.args e₀.predState ex).1.Ok
          (argValue j ty e₀.args e₀.predState ex).2.fresh := by
        unfold argValue
        rw [ha']
        exact (evalValue_ok hst a).1
      exact hval.mono (edgeValues_le es hrest)
    | succ i => exact ih hrest he ha hv

theorem IsFresh.not_same {n : Nat} {ρ : Valuation} (hw : 0 < ty.typeWidth) {v w : SymValue}
    (hv : IsFresh n ρ ty v) (hok : w.Ok n) :
    ∃ ρ', Valuation.Agree n ρ ρ' ∧ ¬ v.Same ρ' w := by
  obtain ⟨e, k, rfl, hk, hev⟩ := hv
  by_contra hcon
  have hall : ∀ ρ', Valuation.Agree n ρ ρ' → (SymValue.scalar e).Same ρ' w := by
    intro ρ' hag
    by_contra hns
    exact hcon ⟨ρ', hag, hns⟩
  cases w with
  | ptr p => exact hall ρ (Valuation.Agree.refl n ρ)
  | scalar f =>
    have hset : ∀ x, f.eval ρ = x % 2 ^ ty.typeWidth := by
      intro x
      have hag := Valuation.agree_setFresh hk ρ x
      have hs : e.eval (ρ.setFresh k x) = f.eval (ρ.setFresh k x) := hall _ hag
      rw [hev _ hag, Valuation.setFresh, if_pos rfl] at hs
      rw [Expr.Below.eval_eq hok hag, hs]
    have hone : 1 % 2 ^ ty.typeWidth = 1 := Nat.mod_eq_of_lt (Nat.one_lt_two_pow hw.ne')
    exact absurd ((hset 0).symm.trans (hset 1)) (by rw [hone, Nat.zero_mod]; decide)

/-- The merged parameter agrees with every edge that arrives. -/
def ParamExact (edges : List EdgeState) (j : Nat) (ty : Ty) (ex : Explorer) : Prop :=
  ∀ (i : Nat) (e : EdgeState) (d : Expr) (v : SymValue), edges[i]? = some e → e.args[j]? ≠ none →
    (edgeValues j ty edges ex).1[i]? = some (d, v) → ∀ ρ, e.Arrives ρ →
      (mergeParam edges j ty ex).1.Same ρ v

/-- Whenever an edge arrives, the chain chooses a value that agrees with the one it passes. -/
def ParamSeparated (edges : List EdgeState) (j : Nat) (ty : Ty) (ex : Explorer) : Prop :=
  ∀ (i : Nat) (e : EdgeState) (d : Expr) (v : SymValue), edges[i]? = some e → e.args[j]? ≠ none →
    (edgeValues j ty edges ex).1[i]? = some (d, v) → ∀ ρ, e.Arrives ρ →
      ∃ u, chosen ρ ty (edgeValues j ty edges ex).2 (edgeValues j ty edges ex).1 = some u ∧
        u.Same ρ v

theorem paramExact_iff {edges : List EdgeState} {ex : Explorer} (hok : ∀ e ∈ edges, e.Ok ex.fresh)
    (hw : 0 < ty.typeWidth) : ParamExact edges j ty ex ↔ ParamSeparated edges j ty ex := by
  have hle := @edgeValues_le j ty edges _ hok
  have hdisc : ∀ p ∈ (edgeValues j ty edges ex).1, p.1.Below (edgeValues j ty edges ex).2.fresh := by
    intro p hp
    have hmem : p.1 ∈ edges.map EdgeState.disc := by
      rw [← @edgeValues_disc j ty edges ex]
      exact List.mem_map_of_mem hp
    obtain ⟨e, he, hpe⟩ := List.mem_map.mp hmem
    rw [← hpe]
    exact ((hok e he).mono hle).disc_below
  have hstands := fun ρ => @mergeValues_stands _ ρ ty _ (Nat.le_refl _) _ hdisc
  refine forall₄_congr fun i e d v => forall₃_congr fun he ha hv => ?_
  have hmem : e ∈ edges := List.mem_of_getElem? he
  constructor
  · intro hsame ρ harr
    cases hc : chosen ρ ty (edgeValues j ty edges ex).2 (edgeValues j ty edges ex).1 with
    | some u =>
      have hst := hstands ρ
      rw [hc] at hst
      exact ⟨u, rfl, hst.symm.trans (hsame ρ harr)⟩
    | none =>
      have hst := hstands ρ
      rw [hc] at hst
      obtain ⟨ρ', hag, hns⟩ := IsFresh.not_same hw hst (edgeValues_ok edges hok he ha hv)
      exact absurd (hsame ρ' (harr.agree ((hok e hmem).mono hle) hag)) hns
  · intro hsep ρ harr
    obtain ⟨u, hc, hu⟩ := hsep ρ harr
    have hst := hstands ρ
    rw [hc] at hst
    exact hst.trans hu

end

/-! ## The join -/

theorem mergeHeapFrom_le (edges : List EdgeState) (rcount : Nat) (recs : List StoreRecord) :
    ∀ (done : List SymPointer) (ex : Explorer),
      ex.fresh ≤ (mergeHeapFrom edges rcount recs done ex).2.fresh := by
  induction recs with
  | nil => exact fun _ _ => Nat.le_refl _
  | cons rec recs ih =>
    intro done ex
    unfold mergeHeapFrom
    split_ifs with hdone hkept
    · exact ih done ex
    · cases perEdge rec edges with
      | some vals => exact Nat.le_trans (mergeValues_le heapTy vals ex) (ih _ _)
      | none => exact ih _ ex
    · exact ih _ ex

/-- The explorer when the join gets to the `k`-th of the parameters that are numbered from `j`. -/
def explorerBefore (edges : List EdgeState) : Nat → List (RegId × Ty) → Nat → Explorer → Explorer
  | j, (_, pty) :: params, k + 1, ex =>
    explorerBefore edges (j + 1) params k (mergeParam edges j pty ex).2
  | _, _, _, ex => ex

theorem mergeParam_le {edges : List EdgeState} {ex : Explorer} (hok : ∀ e ∈ edges, e.Ok ex.fresh)
    (j : Nat) (ty : Ty) : ex.fresh ≤ (mergeParam edges j ty ex).2.fresh :=
  Nat.le_trans (edgeValues_le edges hok) (mergeValues_le ty _ _)

theorem explorerBefore_le (edges : List EdgeState) (params : List (RegId × Ty)) :
    ∀ (j k : Nat) {ex : Explorer}, (∀ e ∈ edges, e.Ok ex.fresh) →
      ex.fresh ≤ (explorerBefore edges j params k ex).fresh := by
  induction params with
  | nil =>
    intro j k ex _
    cases k <;> exact Nat.le_refl _
  | cons p params ih =>
    intro j k ex hok
    cases k with
    | zero => exact Nat.le_refl _
    | succ k =>
      have hle := mergeParam_le hok j p.2
      exact Nat.le_trans hle (ih (j + 1) k fun e he => (hok e he).mono hle)

theorem mergeParams_env_of_not_mem (edges : List EdgeState) (params : List (RegId × Ty)) :
    ∀ (j : Nat) (st : PathState) (ex : Explorer) {r : RegId}, r ∉ params.map Prod.fst →
      (mergeParams edges j params st ex).1.env r = st.env r := by
  induction params with
  | nil => exact fun _ _ _ _ _ => rfl
  | cons p params ih =>
    intro j st ex r hr
    rw [List.map_cons, List.mem_cons, not_or] at hr
    refine (ih (j + 1) _ _ hr.2).trans ?_
    show (if r = p.1 then _ else _) = _
    rw [if_neg hr.1]

theorem mergeParams_env (edges : List EdgeState) (params : List (RegId × Ty)) :
    ∀ (j : Nat) (st : PathState) (ex : Explorer), (params.map Prod.fst).Nodup →
      ∀ {k : Nat} {preg : RegId} {pty : Ty}, params[k]? = some (preg, pty) →
        (mergeParams edges j params st ex).1.env preg =
          some (mergeParam edges (j + k) pty (explorerBefore edges j params k ex)).1 := by
  induction params with
  | nil =>
    intro j st ex _ k preg pty hk
    exact absurd hk (by simp)
  | cons p params ih =>
    intro j st ex hnd k preg pty hk
    rw [List.map_cons, List.nodup_cons] at hnd
    cases k with
    | zero =>
      obtain rfl : p = (preg, pty) := Option.some.inj hk
      refine (mergeParams_env_of_not_mem edges params (j + 1) _ _ hnd.1).trans ?_
      exact if_pos rfl
    | succ k =>
      have h := ih (j + 1) (st.setReg p.1 (mergeParam edges j p.2 ex).1) (mergeParam edges j p.2 ex).2
        hnd.2 hk
      rw [Nat.add_assoc, Nat.add_comm 1 k] at h
      exact h

/-- The explorer when the join gets to its `j`-th parameter. -/
def joinExplorer (params : List (RegId × Ty)) (first : EdgeState) (rest : List EdgeState)
    (ex : Explorer) (j : Nat) : Explorer :=
  explorerBefore (first :: rest) 0 params j
    (mergeHeap first rest (mergeCore first rest).regions.length ex).2

/-- Every parameter of the merged state agrees with the argument of every edge that arrives. -/
def PhiExact (params : List (RegId × Ty)) (first : EdgeState) (rest : List EdgeState)
    (ex : Explorer) : Prop :=
  ∀ (j : Nat) (preg : RegId) (pty : Ty), params[j]? = some (preg, pty) →
    ∀ (i : Nat) (e : EdgeState) (d : Expr) (v : SymValue), (first :: rest)[i]? = some e →
      e.args[j]? ≠ none →
      (edgeValues j pty (first :: rest) (joinExplorer params first rest ex j)).1[i]? = some (d, v) →
      ∀ ρ, e.Arrives ρ →
        ∃ mv, (mergeMulti params first rest ex).1.env preg = some mv ∧ mv.Same ρ v

/-- Every parameter's chain chooses, whenever an edge arrives, what that edge passes. -/
def PhiSeparated (params : List (RegId × Ty)) (first : EdgeState) (rest : List EdgeState)
    (ex : Explorer) : Prop :=
  ∀ (j : Nat) (preg : RegId) (pty : Ty), params[j]? = some (preg, pty) →
    ParamSeparated (first :: rest) j pty (joinExplorer params first rest ex j)

theorem mergeMulti_phiExact_iff {params : List (RegId × Ty)} {first : EdgeState}
    {rest : List EdgeState} {ex : Explorer} (hok : ∀ e ∈ first :: rest, e.Ok ex.fresh)
    (hnd : (params.map Prod.fst).Nodup) (hw : ∀ p ∈ params, 0 < p.2.typeWidth) :
    PhiExact params first rest ex ↔ PhiSeparated params first rest ex := by
  have hheap : ex.fresh ≤ (mergeHeap first rest (mergeCore first rest).regions.length ex).2.fresh :=
    mergeHeapFrom_le _ _ _ _ _
  refine forall₄_congr fun j preg pty hj => ?_
  have hok' : ∀ e ∈ first :: rest, e.Ok (joinExplorer params first rest ex j).fresh := by
    intro e he
    have hle := explorerBefore_le (first :: rest) params 0 j
      fun e he => (hok e he).mono hheap
    exact (hok e he).mono (Nat.le_trans hheap hle)
  have henv : (mergeMulti params first rest ex).1.env preg =
      some (mergeParam (first :: rest) j pty (joinExplorer params first rest ex j)).1 := by
    have h := mergeParams_env (first :: rest) params 0
      { mergeCore first rest with
        heap := (mergeHeap first rest (mergeCore first rest).regions.length ex).1 }
      (mergeHeap first rest (mergeCore first rest).regions.length ex).2 hnd hj
    rw [Nat.zero_add] at h
    exact h
  rw [← paramExact_iff hok' (hw _ (List.mem_of_getElem? hj))]
  refine forall₄_congr fun i e d v => forall₃_congr fun _ _ _ => forall₂_congr fun ρ _ => ?_
  rw [henv]
  simp

/-! ## A join that separates its edges, and one that does not -/

/-- An edge that passes one byte under the given path condition. -/
def byteEdge (pathcond : List Expr) (x : Nat) (h : x < 2 ^ 8) : EdgeState where
  predState := ⟨fun _ => none, [], pathcond, [], [], true⟩
  guard := none
  args := [.const (.int ⟨8, x, BitVector.pos8, BitVector.le8, h⟩)]

def branchCond : Expr := .sym "arg0" 1

theorem byteEdge_ok {pathcond : List Expr} {x : Nat} (h : x < 2 ^ 8)
    (hp : ∀ c ∈ pathcond, c.Below 0) : (byteEdge pathcond x h).Ok 0 where
  state r v hv := absurd hv (by simp [byteEdge])
  cond c hc := hp c (by simpa [EdgeState.conds, byteEdge] using hc)
  fact c hc := absurd hc (by simp [byteEdge])

theorem branchCond_below : branchCond.Below 0 := by
  intro q hq k _
  rw [List.mem_singleton.mp hq]
  exact ne_freshName (by decide : 'a' ≠ '?') rfl k

/-- The two sides of one branch: their conditions exclude each other. -/
theorem mergeMulti_phiExact_diamond :
    PhiExact [(0, .int 8)] (byteEdge [branchCond] 1 (by decide))
      [byteEdge [.not branchCond] 2 (by decide)] Explorer.initial := by
  refine (mergeMulti_phiExact_iff ?_ (by decide) (by decide)).mpr ?_
  · intro e he
    rw [List.mem_cons, List.mem_singleton] at he
    rcases he with rfl | rfl
    · exact byteEdge_ok _ (by simpa using branchCond_below)
    · refine byteEdge_ok _ fun c hc => ?_
      rw [List.mem_singleton.mp hc]
      exact branchCond_below
  · intro j preg pty hj i e d v he ha hv ρ harr
    match j, hj with
    | 0, hj =>
      obtain ⟨rfl, rfl⟩ : 0 = preg ∧ Ty.int 8 = pty := Prod.mk.inj (Option.some.inj hj)
      match i, he, hv with
      | 0, he, hv =>
        obtain rfl := Option.some.inj he
        obtain ⟨rfl, rfl⟩ := Prod.mk.inj (Option.some.inj hv)
        refine ⟨_, if_pos ?_, rfl⟩
        exact (Expr.holds_mkAnd _).mpr harr.cond
      | 1, he, hv =>
        obtain rfl := Option.some.inj he
        obtain ⟨rfl, rfl⟩ := Prod.mk.inj (Option.some.inj hv)
        refine ⟨_, if_neg ?_, rfl⟩
        intro hd
        have hc := (Expr.holds_mkAnd _).mp hd branchCond (by simp [byteEdge, EdgeState.conds])
        exact (Expr.holds_not _).mp (harr.cond _ (by simp [byteEdge, EdgeState.conds])) hc

/-- The first edge's condition was lost at an earlier join; the second one's excludes nothing any
    more, and the parameter is always the first edge's argument. -/
theorem mergeMulti_phi_wrong_weakened :
    ¬ PhiExact [(0, .int 8)] (byteEdge [] 1 (by decide))
      [byteEdge [.not branchCond] 2 (by decide)] Explorer.initial := by
  intro h
  obtain ⟨mv, hmv, hs⟩ := h 0 0 (.int 8) rfl 1 _ _ _ rfl (by simp [byteEdge]) rfl (fun _ _ => 0)
    ⟨by decide, by decide⟩
  have henv : (mergeMulti [(0, .int 8)] (byteEdge [] 1 (by decide))
      [byteEdge [.not branchCond] 2 (by decide)] Explorer.initial).1.env 0 =
        some (.scalar (.const 8 1)) := rfl
  rw [henv] at hmv
  rw [← Option.some.inj hmv] at hs
  have hbytes : (1 : Nat) % 2 ^ 8 = 2 % 2 ^ 8 := hs
  exact absurd hbytes (by decide)

end Csolver
