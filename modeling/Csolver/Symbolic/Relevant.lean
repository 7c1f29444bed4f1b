import Csolver.Lib.Cone
import Csolver.Solver.Symbols

/-!
# The relevance filters (`relevant_assumptions` and `branch_infeasible` of `symbolic/src/exec/mergecore.rs`)

A goal is asked under the assumptions in its cone of influence only. On a satisfiable path that is the same
question; on any path it is a harder one.
-/

namespace Csolver.ExprCtx

open Lib

def relevantAssumptions (c : ExprCtx) (goal : ExprId) (all : List ExprId) : Option (List ExprId) :=
  if (c.symbolsOf goal).isEmpty ∨ all.isEmpty then some []
  else (Cone.relevant c.symbolsOf (c.symbolsOf goal) all).map sortDedup

/-- `sorted_share`: the two sorted lists are walked together. -/
def sortedShare : List ExprId → List ExprId → Bool
  | [], _ => false
  | _ :: _, [] => false
  | a :: as, b :: bs =>
    if a = b then true
    else if a < b then sortedShare as (b :: bs)
    else sortedShare (a :: as) bs

/-- The assumptions `branch_infeasible` asks under: none, if all of them are about other symbols. -/
def branchAssumptions (c : ExprCtx) (cond : ExprId) (all : List ExprId) : List ExprId :=
  if ¬ (c.symbolsOf cond).isEmpty ∧ ¬ all.any fun a => sortedShare (c.symbolsOf a) (c.symbolsOf cond) then []
  else all

def Assumed (c : ExprCtx) (as : List ExprId) (ρ : Valuation) : Prop := ∀ a ∈ as, (c.expr a).Holds ρ

def Satisfiable (c : ExprCtx) (as : List ExprId) : Prop := ∃ ρ, c.Assumed as ρ

def Entails (c : ExprCtx) (as : List ExprId) (goal : ExprId) : Prop :=
  ∀ ρ, c.Assumed as ρ → (c.expr goal).Holds ρ

/-- No valuation makes the condition true. -/
def Excludes (c : ExprCtx) (as : List ExprId) (cond : ExprId) : Prop :=
  ∀ ρ, c.Assumed as ρ → ¬ (c.expr cond).Holds ρ

variable {c : ExprCtx}

/-- The truth of a handle, with the valuation as a function of the symbol. -/
def HoldsAt (c : ExprCtx) (a : ExprId) (ρ : String × Nat → Nat) : Prop := (c.expr a).Holds (Function.curry ρ)

def treeSymbols (c : ExprCtx) (a : ExprId) : Set (String × Nat) := fun p => p ∈ (c.expr a).symbolsOf

def named (c : ExprCtx) (cone : Finset ExprId) : Set (String × Nat) :=
  fun p => ∃ x ∈ cone, c.node x = .sym p.1 p.2

theorem holdsAt_congr (a : ExprId) (ρ ρ' : String × Nat → Nat) (h : ∀ p ∈ c.treeSymbols a, ρ p = ρ' p) :
    c.HoldsAt a ρ ↔ c.HoldsAt a ρ' := by
  have heval : (c.expr a).eval (Function.curry ρ) = (c.expr a).eval (Function.curry ρ') :=
    Expr.eval_congr _ fun p hp => h p hp
  rw [HoldsAt, HoldsAt, Expr.Holds, Expr.Holds, heval]

theorem treeSymbols_sub (h : c.Ok) {a : ExprId} (ha : a < c.len) {cone : Finset ExprId}
    (hsub : ∀ x ∈ c.symbolsOf a, x ∈ cone) : c.treeSymbols a ⊆ c.named cone := by
  intro p hp
  obtain ⟨x, hx, hn⟩ := exists_mem_symbolsOf h ha hp
  exact ⟨x, hsub x hx, hn⟩

theorem lt_of_node_sym {x : ExprId} {name : String} {w : Nat} (hn : c.node x = .sym name w) : x < c.len := by
  by_contra hge
  rw [node, List.getD_eq_getElem?_getD, List.getElem?_eq_none (Nat.not_lt.mp hge)] at hn
  exact absurd hn (by simp)

theorem treeSymbols_disjoint (h : c.Ok) (hd : c.Distinct) {a : ExprId} (ha : a < c.len) {cone : Finset ExprId}
    (hdis : ∀ x ∈ c.symbolsOf a, x ∉ cone) : ∀ p ∈ c.treeSymbols a, p ∉ c.named cone := by
  intro p hp hcone
  obtain ⟨x, hx, hn⟩ := exists_mem_symbolsOf h ha hp
  obtain ⟨y, hy, hm⟩ := hcone
  have heq : x = y := hd x y (lt_of_node_sym hn) (lt_of_node_sym hm) (hn.trans hm.symm)
  exact hdis x hx (heq ▸ hy)

theorem cut_of_handles (h : c.Ok) (hd : c.Distinct) {all kept : List ExprId} (hall : ∀ a ∈ all, a < c.len)
    {cone : Finset ExprId} (hsub : ∀ a ∈ kept, a ∈ all) (hin : ∀ a ∈ kept, ∀ x ∈ c.symbolsOf a, x ∈ cone)
    (hout : ∀ a ∈ all, a ∈ kept ∨ ∀ x ∈ c.symbolsOf a, x ∉ cone) :
    Cone.Cut c.treeSymbols all kept (c.named cone) where
  sub := hsub
  inside a ha := treeSymbols_sub h (hall a (hsub a ha)) (hin a ha)
  outside a ha := (hout a ha).imp_right fun hfar => treeSymbols_disjoint h hd (hall a ha) hfar

theorem forall_iff_of_cut {all kept : List ExprId} {cone : Finset ExprId} {goal : ExprId}
    (hcut : Cone.Cut c.treeSymbols all kept (c.named cone)) (hgoal : c.treeSymbols goal ⊆ c.named cone)
    (hsat : c.Satisfiable all) (P : Prop → Prop) :
    (∀ ρ, c.Assumed all ρ → P ((c.expr goal).Holds ρ)) ↔ ∀ ρ, c.Assumed kept ρ → P ((c.expr goal).Holds ρ) := by
  obtain ⟨ρ₀, hρ₀⟩ := hsat
  have hglue := Cone.entails_iff c.HoldsAt (fun ρ => P (c.HoldsAt goal ρ)) holdsAt_congr hcut
    (fun ρ ρ' hagree => by rw [holdsAt_congr goal ρ ρ' fun p hp => hagree p (hgoal hp)])
    ⟨Function.uncurry ρ₀, hρ₀⟩
  exact ⟨fun hall ρ => hglue.mp (fun σ => hall (Function.curry σ)) (Function.uncurry ρ),
    fun hkept ρ => hglue.mpr (fun σ => hkept (Function.curry σ)) (Function.uncurry ρ)⟩

/-! ## The pre-filter of the branches -/

theorem sortDedup_sorted (xs : List ExprId) : (sortDedup xs).Pairwise (· < ·) := by
  have hle : (sortDedup xs).Pairwise (· ≤ ·) := by
    refine List.Pairwise.sublist (List.dedup_sublist _) ?_
    have htrans (x y z : Nat) (hxy : decide (x ≤ y) = true) (hyz : decide (y ≤ z) = true) :
        decide (x ≤ z) = true :=
      decide_eq_true (Nat.le_trans (of_decide_eq_true hxy) (of_decide_eq_true hyz))
    have htotal (x y : Nat) : (decide (x ≤ y) || decide (y ≤ x)) = true := by
      simpa using Nat.le_total x y
    exact (List.pairwise_mergeSort htrans htotal xs).imp fun hab => of_decide_eq_true hab
  exact hle.imp₂ (fun a b hab hne => Nat.lt_of_le_of_ne hab hne) (List.nodup_dedup _)

theorem sortedShare_iff {as bs : List ExprId} (ha : as.Pairwise (· < ·)) (hb : bs.Pairwise (· < ·)) :
    sortedShare as bs = true ↔ ∃ x ∈ as, x ∈ bs := by
  fun_induction sortedShare as bs with
  | case1 bs => simp
  | case2 a as => simp
  | case3 a as bs => simp
  | case4 a as b bs hne hlt ih =>
    rw [ih (List.pairwise_cons.mp ha).2 hb]
    obtain ⟨hb', _⟩ := List.pairwise_cons.mp hb
    constructor
    · rintro ⟨x, hx, hxb⟩
      exact ⟨x, List.mem_cons_of_mem a hx, hxb⟩
    · rintro ⟨x, hx, hxb⟩
      rcases List.mem_cons.mp hx with rfl | hx
      · rcases List.mem_cons.mp hxb with rfl | hxb
        · exact absurd rfl hne
        · exact absurd (Nat.lt_trans hlt (hb' x hxb)) (Nat.lt_irrefl x)
      · exact ⟨x, hx, hxb⟩
  | case5 a as b bs hne hlt ih =>
    rw [ih ha (List.pairwise_cons.mp hb).2]
    obtain ⟨ha', _⟩ := List.pairwise_cons.mp ha
    constructor
    · rintro ⟨x, hx, hxb⟩
      exact ⟨x, hx, List.mem_cons_of_mem b hxb⟩
    · rintro ⟨x, hx, hxb⟩
      rcases List.mem_cons.mp hxb with rfl | hxb
      · rcases List.mem_cons.mp hx with rfl | hx
        · exact absurd rfl hne
        · exact absurd (ha' x hx) hlt
      · exact ⟨x, hx, hxb⟩

/-- The branch pre-filter answers as the full query does on a satisfiable path, and never excludes more. -/
theorem excludes_branchAssumptions (h : c.Ok) (hd : c.Distinct) {cond : ExprId} {all : List ExprId}
    (hcond : cond < c.len) (hall : ∀ a ∈ all, a < c.len) :
    (c.Excludes (c.branchAssumptions cond all) cond → c.Excludes all cond) ∧
      (c.Satisfiable all → (c.Excludes all cond ↔ c.Excludes (c.branchAssumptions cond all) cond)) := by
  rw [branchAssumptions]
  split
  · next hfar =>
    refine ⟨fun hnone ρ _ => hnone ρ fun a ha => absurd ha List.not_mem_nil, fun hsat => ?_⟩
    have hout : ∀ a ∈ all, a ∈ [] ∨ ∀ x ∈ c.symbolsOf a, x ∉ (c.symbolsOf cond).toFinset := by
      intro a ha
      refine .inr fun x hx hxc => hfar.2 (List.any_eq_true.mpr ⟨a, ha, ?_⟩)
      exact (sortedShare_iff (sortDedup_sorted _) (sortDedup_sorted _)).mpr ⟨x, hx, List.mem_toFinset.mp hxc⟩
    have hcut := cut_of_handles h hd hall (by simp) (by simp) hout
    refine forall_iff_of_cut hcut (treeSymbols_sub h hcond fun x hx => ?_) hsat Not
    exact List.mem_toFinset.mpr hx
  · exact ⟨id, fun _ => Iff.rfl⟩

/-! ## The cone -/

theorem relevantAssumptions_cut {c : ExprCtx} (hbuilt : Built c) (goal : ExprId) {all : List ExprId}
    (hall : ∀ a ∈ all, a < c.len) :
    ∃ kept cone, c.relevantAssumptions goal all = some kept ∧ Cone.Cut c.treeSymbols all kept (c.named cone) ∧
      ∀ x ∈ c.symbolsOf goal, x ∈ cone := by
  have h := hbuilt.ok
  have hd := hbuilt.distinct
  -- without symbols in the goal, or without assumptions, the cone is empty
  rw [relevantAssumptions]
  split
  · next hempty =>
    refine ⟨[], (c.symbolsOf goal).toFinset, rfl, cut_of_handles h hd hall (by simp) (by simp) ?_,
      fun x hx => List.mem_toFinset.mpr hx⟩
    intro a ha
    rcases hempty with hno | hno
    · rw [List.isEmpty_iff.mp hno]
      exact .inr fun _ _ => by simp
    · rw [List.isEmpty_iff.mp hno] at ha
      exact absurd ha List.not_mem_nil
  · obtain ⟨kept, cone, hkept, hsub, hin, hmem, hout⟩ := Cone.relevant_spec c.symbolsOf (c.symbolsOf goal) all
    refine ⟨sortDedup kept, cone, by rw [hkept]; rfl, cut_of_handles h hd hall ?_ ?_ ?_, hin⟩
    · exact fun a ha => hsub a (mem_sortDedup.mp ha)
    · exact fun a ha => hmem a (mem_sortDedup.mp ha)
    · exact fun a ha => (hout a ha).imp_left mem_sortDedup.mpr

/-- **Cone-of-influence filtering.** In every arena a client can build the filter returns. What the subset it
    returns entails, all assumptions entail; if these are satisfiable, the converse holds too. The value of an
    expression depends on its `symbols_of` only. -/
theorem relevantAssumptions_exact {c : ExprCtx} (hbuilt : Built c) {goal : ExprId} {all : List ExprId}
    (hgoal : goal < c.len) (hall : ∀ a ∈ all, a < c.len) :
    (∃ kept, c.relevantAssumptions goal all = some kept ∧ (c.Entails kept goal → c.Entails all goal) ∧
      (c.Satisfiable all → (c.Entails all goal ↔ c.Entails kept goal))) ∧
    ∀ e < c.len, ∀ ρ ρ' : Valuation,
      (∀ x ∈ c.symbolsOf e, ∀ name w, c.node x = .sym name w → ρ name w = ρ' name w) →
        (c.expr e).eval ρ = (c.expr e).eval ρ' := by
  have h := hbuilt.ok
  refine ⟨?_, fun e he ρ ρ' => eval_congr_symbolsOf h he⟩
  obtain ⟨kept, cone, hkept, hcut, hin⟩ := relevantAssumptions_cut hbuilt goal hall
  refine ⟨kept, hkept, fun hent ρ hρ => hent ρ fun a ha => hρ a (hcut.sub a ha), fun hsat => ?_⟩
  exact forall_iff_of_cut hcut (treeSymbols_sub h hgoal hin) hsat id

/-- `x`, `y`, `x < y`, `z` and `y < z`. -/
def chain : ExprCtx :=
  ⟨[(.sym "x" 8, 8), (.sym "y" 8, 8), (.cmp .ult 0 1, 1), (.sym "z" 8, 8), (.cmp .ult 1 3, 1)]⟩

theorem chain_built : Built chain := by
  have hx : Built ⟨chain.nodes.take 1⟩ := .symbol "x" 8 .empty rfl
  have hy : Built ⟨chain.nodes.take 2⟩ := .symbol "y" 8 hx rfl
  have hxy : Built ⟨chain.nodes.take 3⟩ := .cmp (a := 0) (b := 1) .ult hy (by decide) (by decide) rfl
  have hz : Built ⟨chain.nodes.take 4⟩ := .symbol "z" 8 hxy rfl
  exact .cmp (a := 1) (b := 3) .ult hz (by decide) (by decide) rfl

theorem excludes_branchAssumptions_chain :
    (chain.Excludes (chain.branchAssumptions 2 [4]) 2 → chain.Excludes [4] 2) ∧
      (chain.Satisfiable [4] → (chain.Excludes [4] 2 ↔ chain.Excludes (chain.branchAssumptions 2 [4]) 2)) :=
  excludes_branchAssumptions chain_built.ok chain_built.distinct (by decide) (by decide)

theorem relevantAssumptions_exact_chain :
    (∃ kept, chain.relevantAssumptions 2 [2, 4] = some kept ∧
      (chain.Entails kept 2 → chain.Entails [2, 4] 2) ∧
      (chain.Satisfiable [2, 4] → (chain.Entails [2, 4] 2 ↔ chain.Entails kept 2))) ∧
    ∀ e < chain.len, ∀ ρ ρ' : Valuation,
      (∀ x ∈ chain.symbolsOf e, ∀ name w, chain.node x = .sym name w → ρ name w = ρ' name w) →
        (chain.expr e).eval ρ = (chain.expr e).eval ρ' :=
  relevantAssumptions_exact chain_built (by decide) (by decide)

end Csolver.ExprCtx
