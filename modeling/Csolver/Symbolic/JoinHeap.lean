import Csolver.Symbolic.Load
import Csolver.Symbolic.Phi
import Mathlib.Data.List.Induction

/-!
# What the joined heap says of the edges' memories

A load that a record of the joined heap decides returns the record's value. On an edge that value is the
one of the edge's last store to the record's address, if the chain of `select`s picks it, if the address
is that of the store and not of another opaque pointer, and if no later store of the edge reaches the
bytes. The join sees to none of the three: opaque pointers are all equal to it, it drops a store that only
some edges have, and it lists the records the other way round, so that of two overlapping stores that
both survive the older one is found.
-/

namespace Csolver

open Lib

variable {ρ : Valuation} {pl : Placement}

/-! ## The chain of values -/

/-- `select` keeps the kind. -/
def SymValue.OneKind : SymValue → SymValue → Prop
  | .scalar _, .scalar _ => True
  | .ptr _, .ptr _ => True
  | _, _ => False

/-- Provenances that the executor takes as equal start from one place, as far as the `else` side goes. -/
def SymValue.Joins (ρ : Valuation) (pl : Placement) : SymValue → SymValue → Prop
  | .scalar _, .scalar _ => True
  | .ptr p, .ptr q => p.prov.same q.prov = true → ∀ l, q.prov.Loc ρ pl l → p.prov.Loc ρ pl l
  | _, _ => False

/-- The chain picks the value of the `i`-th edge: no earlier discriminator holds, and no `select` on the
    way mixes a scalar with a pointer or one opaque pointer with another. -/
def Picks (ρ : Valuation) (pl : Placement) : List (Expr × SymValue) → Nat → Prop
  | [], _ => False
  | [_], i => i = 0
  | (_, v) :: w :: vals, 0 => ∀ ex, v.OneKind (mergeValues heapTy (w :: vals) ex).1
  | (d, v) :: w :: vals, i + 1 => ¬ d.Holds ρ ∧
      (∀ ex, v.Joins ρ pl (mergeValues heapTy (w :: vals) ex).1) ∧ Picks ρ pl (w :: vals) i

theorem SymPointer.Loc.normal {p : SymPointer} {l : Place} (h : p.Loc ρ pl l) : l = shift l 0 := by
  obtain ⟨_, o, _, _⟩ := p
  obtain ⟨b, _, rfl⟩ := h
  simp [shift]

/-- The pointer that `select` gives is where the alternative is that the valuation picks. -/
theorem select_loc (d : Expr) (p q : SymPointer) (ty : Ty) (ex : Explorer) :
    ∃ s, (select d (.ptr p) (.ptr q) ty ex).1 = .ptr s ∧ ∀ l,
      (d.Holds ρ → p.Loc ρ pl l → s.Loc ρ pl l) ∧
      (¬ d.Holds ρ → SymValue.Joins ρ pl (.ptr p) (.ptr q) → q.Loc ρ pl l → s.Loc ρ pl l) := by
  rw [select]
  split_ifs with hsame hdeep
  · refine ⟨_, rfl, fun l => ⟨fun hd h => ?_, fun hd hjoin h => ?_⟩⟩
    · obtain ⟨pp, po, pa, pb⟩ := p
      obtain ⟨b, hb, rfl⟩ := h
      exact ⟨b, hb, by rw [Expr.eval_mkIte, if_pos hd]; rfl⟩
    · obtain ⟨qp, qo, qa, qb⟩ := q
      obtain ⟨b, hb, rfl⟩ := h
      exact ⟨b, hjoin hsame b hb, by rw [Expr.eval_mkIte, if_neg hd]; rfl⟩
  · exact ⟨_, rfl, fun l => ⟨fun _ h => ⟨l, trivial, h.normal⟩, fun _ _ h => ⟨l, trivial, h.normal⟩⟩⟩
  · refine ⟨_, rfl, fun l => ⟨fun hd h => ?_, fun hd _ h => ?_⟩⟩
    · exact ⟨l, ⟨fun _ => h, fun hn => absurd hd hn⟩, h.normal⟩
    · exact ⟨l, ⟨fun hp => absurd hp hd, fun _ => h⟩, h.normal⟩

theorem select_denotes_then {d : Expr} {v w : SymValue} (hd : d.Holds ρ) (hkind : v.OneKind w)
    {c : Content} (h : v.Denotes ρ pl c) (ty : Ty) (ex : Explorer) :
    (select d v w ty ex).1.Denotes ρ pl c := by
  cases v with
  | scalar a =>
    cases w with
    | scalar b =>
      show c = .num ((Expr.mkIte d a b).eval ρ)
      rw [Expr.eval_mkIte, if_pos hd]
      exact h
    | ptr q => exact absurd hkind id
  | ptr p =>
    cases w with
    | scalar b => exact absurd hkind id
    | ptr q =>
      obtain ⟨l, hl, rfl⟩ := h
      obtain ⟨s, hs, hloc⟩ := @select_loc ρ pl d p q ty ex
      rw [hs]
      exact ⟨l, (hloc l).1 hd hl, rfl⟩

theorem select_denotes_else {d : Expr} {v w : SymValue} (hd : ¬ d.Holds ρ) (hjoin : v.Joins ρ pl w)
    {c : Content} (h : w.Denotes ρ pl c) (ty : Ty) (ex : Explorer) :
    (select d v w ty ex).1.Denotes ρ pl c := by
  cases v with
  | scalar a =>
    cases w with
    | scalar b =>
      show c = .num ((Expr.mkIte d a b).eval ρ)
      rw [Expr.eval_mkIte, if_neg hd]
      exact h
    | ptr q => exact absurd hjoin id
  | ptr p =>
    cases w with
    | scalar b => exact absurd hjoin id
    | ptr q =>
      obtain ⟨l, hl, rfl⟩ := h
      obtain ⟨s, hs, hloc⟩ := @select_loc ρ pl d p q ty ex
      rw [hs]
      exact ⟨l, (hloc l).2 hd hjoin hl, rfl⟩

theorem mergeValues_denotes {vals : List (Expr × SymValue)} {i : Nat} (hpick : Picks ρ pl vals i)
    {d : Expr} {v : SymValue} (hv : vals[i]? = some (d, v)) (hd : d.Holds ρ) {c : Content}
    (h : v.Denotes ρ pl c) (ex : Explorer) : (mergeValues heapTy vals ex).1.Denotes ρ pl c := by
  induction vals generalizing i with
  | nil => exact absurd hpick id
  | cons p vals ih =>
    obtain ⟨d', v'⟩ := p
    cases vals with
    | nil =>
      obtain rfl : i = 0 := hpick
      obtain ⟨rfl, rfl⟩ := Prod.mk.inj (Option.some.inj hv)
      exact h
    | cons w vals =>
      cases i with
      | zero =>
        obtain ⟨rfl, rfl⟩ := Prod.mk.inj (Option.some.inj hv)
        exact select_denotes_then hd (hpick ex) h heapTy _
      | succ i =>
        obtain ⟨hd', hjoin, hpick⟩ := hpick
        exact select_denotes_else hd' (hjoin ex) (ih hpick hv) heapTy _

/-! ## The history of an edge -/

theorem Written.inv {μ μ'' : Mem} {heap : List StoreRecord} {r : StoreRecord}
    (h : Written ρ pl μ (heap ++ [r]) μ'') :
    ∃ μ' l c, Written ρ pl μ heap μ' ∧ r.target.Loc ρ pl l ∧ r.value.Denotes ρ pl c ∧
      μ'' = write μ' l r.size c.byte := by
  generalize hg : heap ++ [r] = g at h
  cases h with
  | nil => exact absurd hg (by simp)
  | snoc hw hl hc =>
    obtain ⟨rfl, hr⟩ := List.append_inj' hg rfl
    obtain rfl := List.singleton_inj.mp hr
    exact ⟨_, _, _, hw, hl, hc, rfl⟩

theorem Written.bytes {μ μ' : Mem} {pre : List StoreRecord} {r : StoreRecord} {post : List StoreRecord}
    (h : Written ρ pl μ (pre ++ r :: post) μ') {l : Place} {n : Nat} (hn : n ≤ r.size) (hsize : n < 2 ^ 64)
    (hplace : ∀ l', r.target.Loc ρ pl l' → l' = l)
    (hpost : ∀ r' ∈ post, ∀ l', r'.target.Loc ρ pl l' → Apart l n l' r'.size) :
    ∃ c, r.value.Denotes ρ pl c ∧ ∀ i < n, μ' (shift l i) = c.byte i := by
  induction post using List.reverseRecOn generalizing μ' with
  | nil =>
    obtain ⟨μ', l', c, _, hl, hc, rfl⟩ := h.inv
    obtain rfl := hplace l' hl
    exact ⟨c, hc, fun i hi => write_shift (lt_of_lt_of_le hi hn) (lt_trans hi hsize)⟩
  | append_singleton post r' ih =>
    rw [← List.cons_append, ← List.append_assoc] at h
    obtain ⟨μ₁, l', c', hw, hl, _, rfl⟩ := h.inv
    obtain ⟨c, hc, hbytes⟩ := ih hw fun r₁ hr₁ => hpost r₁ (List.mem_append_left _ hr₁)
    have hapart := hpost r' (by simp) l' hl
    exact ⟨c, hc, fun i hi => (write_of_apart hapart hi).trans (hbytes i hi)⟩

/-! ## The records of the join -/

theorem perEdge_spec {rec : StoreRecord} {edges : List EdgeState} {vals : List (Expr × SymValue)}
    (h : perEdge rec edges = some vals) {i : Nat} {e : EdgeState} (he : edges[i]? = some e) :
    ∃ r, lastFor e.predState.heap rec.target = some r ∧ r.size = rec.size ∧
      vals[i]? = some (e.disc, r.value) := by
  rw [perEdge] at h
  induction edges generalizing vals i with
  | nil => exact absurd he (by simp)
  | cons e' edges ih =>
    rw [List.mapM_cons] at h
    obtain ⟨p, hp, h⟩ := Option.bind_eq_some_iff.mp h
    obtain ⟨ps, hps, h⟩ := Option.bind_eq_some_iff.mp h
    obtain rfl := Option.some.inj h
    cases i with
    | succ i => exact ih hps he
    | zero =>
      obtain rfl := Option.some.inj he
      split at hp
      · next r hr =>
        split at hp
        · next hsize => exact ⟨r, hr, hsize, hp.symm⟩
        · exact absurd hp (by simp)
      · exact absurd hp (by simp)

theorem mem_mergeHeapFrom {edges : List EdgeState} {rcount : Nat} {recs : List StoreRecord}
    {done : List SymPointer} {ex : Explorer} {out : StoreRecord}
    (h : out ∈ (mergeHeapFrom edges rcount recs done ex).1) :
    ∃ rec ∈ recs, ∃ vals ex', perEdge rec edges = some vals ∧
      out = ⟨rec.target, (mergeValues heapTy vals ex').1, rec.size⟩ := by
  induction recs generalizing done ex with
  | nil => exact absurd h List.not_mem_nil
  | cons rec recs ih =>
    have hrest {done : List SymPointer} {ex : Explorer}
        (h : out ∈ (mergeHeapFrom edges rcount recs done ex).1) :
        ∃ rec' ∈ rec :: recs, ∃ vals ex', perEdge rec' edges = some vals ∧
          out = ⟨rec'.target, (mergeValues heapTy vals ex').1, rec'.size⟩ := by
      obtain ⟨rec', hmem, hspec⟩ := ih h
      exact ⟨rec', List.mem_cons_of_mem _ hmem, hspec⟩
    unfold mergeHeapFrom at h
    split at h
    · exact hrest h
    · split at h
      · split at h
        · next vals hvals =>
          change out ∈ if (mergeValues heapTy vals ex).1.regionsKept rcount = true then
            ⟨rec.target, (mergeValues heapTy vals ex).1, rec.size⟩ ::
              (mergeHeapFrom edges rcount recs (done ++ [rec.target]) (mergeValues heapTy vals ex).2).1
            else (mergeHeapFrom edges rcount recs (done ++ [rec.target]) (mergeValues heapTy vals ex).2).1 at h
          split at h
          · rcases List.mem_cons.mp h with rfl | h
            · exact ⟨rec, List.mem_cons_self, vals, ex, hvals, rfl⟩
            · exact hrest h
          · exact hrest h
        · exact hrest h
      · exact hrest h

/-! ## Loads -/

section

variable {pr : Prover} {a b : SymPointer} {sizea sizeb : Nat} {st : PathState}

theorem offsetsAlias_must (h : offsetsAlias pr a b sizea sizeb st = .must) :
    sizeb ≤ sizea ∧ pr.prove (.mkCmp .eq a.offset b.offset) st = true := by
  rw [offsetsAlias] at h
  split at h
  · next hcond =>
    rw [Bool.and_eq_true] at hcond
    exact ⟨of_decide_eq_true hcond.1, hcond.2⟩
  · simp only at h
    split at h
    · exact absurd h (by simp)
    · exact absurd h (by simp)

theorem loc_of_eq (hw : a.offset.width = 64) (heq : (Expr.mkCmp .eq a.offset b.offset).Holds ρ)
    (base : Place) : shift base (a.offset.eval ρ) = shift base (b.offset.eval ρ) := by
  rw [Expr.holds_mkCmp, hw] at heq
  have hbv : BitVec.ofNat 64 (a.offset.eval ρ) = BitVec.ofNat 64 (b.offset.eval ρ) := eq_of_beq heq
  have hmod : a.offset.eval ρ % 2 ^ 64 = b.offset.eval ρ % 2 ^ 64 := congrArg BitVec.toNat hbv
  rw [shift, shift, Nat.add_mod, hmod, ← Nat.add_mod]

theorem aliasCheck_must (h : aliasCheck pr a b sizea sizeb st = .must) (hw : a.offset.width = 64)
    (hst : ∀ c ∈ st.pathcond ++ st.facts, c.Holds ρ) {l : Place} (hl : b.Loc ρ pl l) :
    sizeb ≤ sizea ∧ ∀ l', a.Loc ρ pl l' ↔ l' = l := by
  -- both start from one place, and the offsets are equal
  have hone {base : Place} (hoff : offsetsAlias pr a b sizea sizeb st = .must)
      (ha : ∀ b', a.prov.Loc ρ pl b' ↔ b' = base) (hb : ∀ b', b.prov.Loc ρ pl b' ↔ b' = base) :
      sizeb ≤ sizea ∧ ∀ l', a.Loc ρ pl l' ↔ l' = l := by
    obtain ⟨hsize, hprove⟩ := offsetsAlias_must hoff
    have hshift := loc_of_eq hw (pr.sound _ _ hprove ρ hst) base
    obtain ⟨ap, ao, aa, ab⟩ := a
    obtain ⟨bp, bo, ba, bb⟩ := b
    obtain ⟨b', hb', rfl⟩ := hl
    obtain rfl := (hb b').mp hb'
    refine ⟨hsize, fun l' => ⟨?_, ?_⟩⟩
    · rintro ⟨a', ha', rfl⟩
      rw [(ha a').mp ha']
      exact hshift
    · rintro rfl
      exact ⟨b', (ha b').mpr rfl, hshift.symm⟩
  rw [aliasCheck] at h
  split at h
  · next r₁ r₂ ha hb =>
    split at h
    · next heq =>
      subst heq
      exact hone h (fun b' => by rw [ha]; rfl) (fun b' => by rw [hb]; rfl)
    · exact absurd h (by simp)
  · next i₁ _ i₂ ha hb =>
    split at h
    · next heq =>
      subst heq
      exact hone h (fun b' => by rw [ha]; rfl) (fun b' => by rw [hb]; rfl)
    · exact absurd h (by simp)
  · exact absurd h (by simp)

end

theorem EdgeState.Arrives.joined {first : EdgeState} {rest : List EdgeState} {e : EdgeState}
    (he : e ∈ first :: rest) (harr : e.Arrives ρ) :
    ∀ c ∈ (mergeCore first rest).pathcond ++ (mergeCore first rest).facts, c.Holds ρ := by
  have hpath (k : Nat) (cs : List Expr) : ∀ c ∈ mergePathcond (first :: rest) k cs, c.Holds ρ := by
    induction cs generalizing k with
    | nil => exact fun c hc => absurd hc List.not_mem_nil
    | cons c' cs ih =>
      rw [mergePathcond]
      split
      · next hall =>
        intro c hc
        rcases List.mem_cons.mp hc with rfl | hc
        · have hget : e.predState.pathcond[k]? = some c := by simpa using List.all_eq_true.mp hall e he
          exact harr.cond c (List.mem_append_left _ (List.mem_of_getElem? hget))
        · exact ih (k + 1) c hc
      · exact fun c hc => absurd hc List.not_mem_nil
  intro c hc
  rcases List.mem_append.mp hc with hc | hc
  · exact hpath 0 _ c hc
  · obtain ⟨_, hall⟩ := List.mem_filter.mp hc
    exact harr.fact c (by simpa using List.all_eq_true.mp hall e he)

theorem mergeParams_frame (edges : List EdgeState) (params : List (RegId × Ty)) :
    ∀ (j : Nat) (st : PathState) (ex : Explorer), ((mergeParams edges j params st ex).1).heap = st.heap ∧
      ((mergeParams edges j params st ex).1).pathcond = st.pathcond ∧
      ((mergeParams edges j params st ex).1).facts = st.facts := by
  induction params with
  | nil => exact fun _ _ _ => ⟨rfl, rfl, rfl⟩
  | cons p params ih =>
    intro j st ex
    exact ih (j + 1) (st.setReg p.1 (mergeParam edges j p.2 ex).1) (mergeParam edges j p.2 ex).2

theorem mergeMulti_frame (params : List (RegId × Ty)) (first : EdgeState) (rest : List EdgeState)
    (ex : Explorer) :
    (mergeMulti params first rest ex).1.heap =
        (mergeHeap first rest (mergeCore first rest).regions.length ex).1 ∧
      (mergeMulti params first rest ex).1.pathcond = (mergeCore first rest).pathcond ∧
      (mergeMulti params first rest ex).1.facts = (mergeCore first rest).facts :=
  mergeParams_frame (first :: rest) params 0 _ _

/-! ## The claim -/

/-- What a load from the joined heap takes from a record is in the memory of every edge. -/
def LoadsRight (pr : Prover) (params : List (RegId × Ty)) (first : EdgeState) (rest : List EdgeState)
    (ex : Explorer) (p : SymPointer) (asize : Nat) : Prop :=
  ∀ rec, resolveStore pr p asize (mergeMulti params first rest ex).1 = some rec →
    aliasCheck pr rec.target p rec.size asize (mergeMulti params first rest ex).1 = .must →
    ∀ e ∈ first :: rest, ∀ ρ pl, e.Arrives ρ → ∀ μ₀ μ, Written ρ pl μ₀ e.predState.heap μ →
      ∀ l, p.Loc ρ pl l → Contains ρ pl μ l asize rec.value

/-- The last store to `t` in a history is at the place of `t`, and no later one reaches the `n` bytes. -/
structure Lasts (ρ : Valuation) (pl : Placement) (heap : List StoreRecord) (t : SymPointer) (n : Nat) : Prop where
  place : ∀ r, lastFor heap t = some r → ∀ l, r.target.Loc ρ pl l → t.Loc ρ pl l
  kept : ∀ pre r post, heap = pre ++ r :: post → sameAddr r.target t = true →
    (∀ r' ∈ post, sameAddr r'.target t = false) → ∀ r' ∈ post, ∀ l, t.Loc ρ pl l →
    ∀ l', r'.target.Loc ρ pl l' → Apart l n l' r'.size

/-- What the join leaves to its edges: for each address that survives and is read, the chain picks the
    edge's value, and the edge's last store to the address is still in memory. -/
def HeapsJoin (first : EdgeState) (rest : List EdgeState) (p : SymPointer) (asize : Nat) : Prop :=
  ∀ rec ∈ first.predState.heap, ∀ vals, perEdge rec (first :: rest) = some vals → asize ≤ rec.size →
    ∀ i e, (first :: rest)[i]? = some e → ∀ ρ pl, e.Arrives ρ →
    ∀ l, p.Loc ρ pl l → rec.target.Loc ρ pl l →
      Picks ρ pl vals i ∧ Lasts ρ pl e.predState.heap rec.target asize

theorem lastFor_split {heap : List StoreRecord} {t : SymPointer} {r : StoreRecord}
    (h : lastFor heap t = some r) : ∃ pre post, heap = pre ++ r :: post ∧ sameAddr r.target t = true ∧
      ∀ r' ∈ post, sameAddr r'.target t = false := by
  obtain ⟨hr, as, bs, hsplit, hnone⟩ := List.find?_eq_some_iff_append.mp h
  refine ⟨bs.reverse, as.reverse, ?_, hr, fun r' hr' => ?_⟩
  · rw [← List.reverse_reverse heap, hsplit]
    simp
  · simpa using hnone r' (List.mem_reverse.mp hr')

/-- Nothing is entailed but what folds to true. -/
def foldProver : Prover where
  entails _ g := g.asBool == some true
  sound _ g h ρ _ := by
    cases g with
    | bool b =>
      obtain rfl : b = true := Option.some.inj (eq_of_beq h)
      rfl
    | _ => exact absurd h (by simp [Expr.asBool])

def inRegion (off : Nat) : SymPointer := .mk (.region 0) (.int ptrWidth off) 1 none

/-- An edge with a region of eight bytes, under the given condition and with the given stores. -/
def storeEdge (cond : Expr) (heap : List StoreRecord) : EdgeState where
  predState := ⟨fun _ => none, [.plain .stack (.int 64 8)], [cond], [], heap, true⟩
  guard := none
  args := []

def storeInt (off size x : Nat) : StoreRecord := ⟨inRegion off, .scalar (.int (8 * size) x), size⟩

end Csolver
