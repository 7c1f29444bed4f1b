import Csolver.Lib.Search
import Csolver.Solver.Build
import Csolver.Solver.Extend

/-!
# The symbols an expression reads (`symbols_of` of `crates/solver/src/expr.rs`)

The walk takes handles from a stack, each one once, and notes the symbols. It notes every symbol the tree of
the handle mentions (`mem_symbolsOf`), so the value of the expression depends on no other
(`eval_congr_symbolsOf`).
-/

namespace Csolver

open Lib

/-- The handles of a node, in the order they are pushed. -/
def Node.children : Node → List ExprId
  | .const _ | .sym _ _ | .bool _ => []
  | .not a | .zext a | .sext a => [a]
  | .bin _ a b | .cmp _ a b => [a, b]
  | .and xs | .or xs => xs
  | .ite c t e => [c, t, e]

namespace ExprCtx

/-- The steps of the walk carry no label. -/
def walkStep (c : ExprCtx) (x : ExprId) : List (Unit × ExprId) := (c.node x).children.map fun y => ((), y)

def walkNote (c : ExprCtx) (x : ExprId) : Option ExprId :=
  match c.node x with
  | .sym _ _ => some x
  | _ => none

/-- The handles pushed, if every node is taken once. -/
def walkBudget (c : ExprCtx) : Nat := 1 + ∑ x ∈ Finset.range c.len, (c.node x).children.length

def symbolsOf (c : ExprCtx) (root : ExprId) : List ExprId :=
  sortDedup ((explore c.walkStep c.walkNote c.walkBudget [(root, [])] [] []).map Prod.fst)

variable {c : ExprCtx}

theorem NodeOk.children_lt {n : Node} {i w : Nat} (h : NodeOk c i n w) : ∀ x ∈ n.children, x < i := by
  intro x hx
  cases n with
  | const bv => exact absurd hx List.not_mem_nil
  | sym name w => exact absurd hx List.not_mem_nil
  | bool b => exact absurd hx List.not_mem_nil
  | not a => exact List.mem_singleton.mp hx ▸ h.1
  | zext a => exact List.mem_singleton.mp hx ▸ h.1
  | sext a => exact List.mem_singleton.mp hx ▸ h.1
  | and xs => exact h.1 x hx
  | or xs => exact h.1 x hx
  | bin op a b =>
    rcases List.mem_pair.mp hx with rfl | rfl
    · exact h.1
    · exact h.2.1
  | cmp op a b =>
    rcases List.mem_pair.mp hx with rfl | rfl
    · exact h.1
    · exact h.2.1
  | ite t a b =>
    rcases List.mem_cons.mp hx with rfl | hx
    · exact h.1
    · rcases List.mem_pair.mp hx with rfl | rfl
      · exact h.2.1
      · exact h.2.2.1

/-! ## The walk -/

theorem walkNote_eq_some {x k : ExprId} : c.walkNote x = some k ↔ k = x ∧ ∃ name w, c.node x = .sym name w := by
  rw [walkNote]
  constructor
  · intro h
    split at h
    · next hn => exact ⟨(Option.some.inj h).symm, _, _, hn⟩
    · exact absurd h (by simp)
  · rintro ⟨rfl, name, w, hn⟩
    rw [hn]

theorem walkNote_eq_none {x y : ExprId} (hy : y ∈ (c.node x).children) : c.walkNote x = none := by
  rw [walkNote]
  split
  · next hn =>
    rw [hn] at hy
    exact absurd hy List.not_mem_nil
  · rfl

/-- What the walk meets below a handle. -/
def Meets (c : ExprCtx) (root x : ExprId) : Prop := ∃ path, Walk c.walkStep c.walkNote root path x

theorem Meets.refl (x : ExprId) : c.Meets x x := ⟨[], .refl⟩

theorem Meets.head {x y z : ExprId} (hy : y ∈ (c.node x).children) (h : c.Meets y z) : c.Meets x z := by
  obtain ⟨path, hwalk⟩ := h
  induction hwalk with
  | refl => exact ⟨_, Walk.refl.step (walkNote_eq_none hy) (List.mem_map.mpr ⟨y, hy, rfl⟩)⟩
  | step _ hnone he ih =>
    obtain ⟨path, hwalk⟩ := ih
    exact ⟨_, hwalk.step hnone he⟩

theorem walkStep_closed (h : c.Ok) : Closed c.walkStep c.walkNote (Finset.range c.len) := by
  intro x hx _ e he
  obtain ⟨y, hy, rfl⟩ := List.mem_map.mp he
  have hlt := Finset.mem_range.mp hx
  exact Finset.mem_range.mpr (Nat.lt_trans ((h.node hlt).children_lt y hy) hlt)

/-- **`symbols_of`** returns the symbols below the handle, and no others. -/
theorem mem_symbolsOf (h : c.Ok) {root : ExprId} (hroot : root < c.len) (x : ExprId) :
    x ∈ c.symbolsOf root ↔ c.Meets root x ∧ ∃ name w, c.node x = .sym name w := by
  rw [symbolsOf, mem_sortDedup]
  constructor
  · intro hx
    obtain ⟨e, he, rfl⟩ := List.mem_map.mp hx
    have hstart : ∀ p ∈ [(root, ([] : List Unit))], Walk c.walkStep c.walkNote root p.2 p.1 := by
      intro p hp
      rw [List.mem_singleton.mp hp]
      exact .refl
    obtain ⟨s, hwalk, hs⟩ := explore_sound hstart (fun e he => absurd he List.not_mem_nil) e he
    obtain ⟨heq, hsym⟩ := walkNote_eq_some.mp hs
    rw [heq]
    exact ⟨⟨_, hwalk⟩, hsym⟩
  · rintro ⟨⟨path, hwalk⟩, hsym⟩
    refine explore_complete (walkStep_closed h) (Finset.mem_range.mpr hroot) ?_ hwalk
      (walkNote_eq_some.mpr ⟨rfl, hsym⟩)
    refine Nat.add_le_add_left (Finset.sum_le_sum fun s _ => ?_) 1
    rw [degree]
    split
    · rw [walkStep, List.length_map]
    · exact Nat.zero_le _

/-! ## What the tree mentions -/

theorem mem_symbolsOf_nodeExpr {p : String × Nat} {w : Nat} {n : Node} (hp : p ∈ (c.nodeExpr w n).symbolsOf) :
    n = .sym p.1 p.2 ∨ ∃ y ∈ n.children, p ∈ (c.expr y).symbolsOf := by
  cases n with
  | const bv => exact absurd hp List.not_mem_nil
  | bool b => exact absurd hp List.not_mem_nil
  | sym name w =>
    rw [nodeExpr, Expr.symbolsOf, List.mem_singleton] at hp
    rw [hp]
    exact .inl rfl
  | not a => exact .inr ⟨a, List.mem_singleton_self a, hp⟩
  | zext a => exact .inr ⟨a, List.mem_singleton_self a, hp⟩
  | sext a => exact .inr ⟨a, List.mem_singleton_self a, hp⟩
  | bin op a b =>
    rcases List.mem_append.mp hp with hp | hp
    · exact .inr ⟨a, by simp [Node.children], hp⟩
    · exact .inr ⟨b, by simp [Node.children], hp⟩
  | cmp op a b =>
    rcases List.mem_append.mp hp with hp | hp
    · exact .inr ⟨a, by simp [Node.children], hp⟩
    · exact .inr ⟨b, by simp [Node.children], hp⟩
  | and xs =>
    obtain ⟨e, he, hpe⟩ := Expr.mem_symbolsOfAll.mp hp
    obtain ⟨x, hx, rfl⟩ := List.mem_map.mp he
    exact .inr ⟨x, hx, hpe⟩
  | or xs =>
    obtain ⟨e, he, hpe⟩ := Expr.mem_symbolsOfAll.mp hp
    obtain ⟨x, hx, rfl⟩ := List.mem_map.mp he
    exact .inr ⟨x, hx, hpe⟩
  | ite t a b =>
    rcases List.mem_append.mp hp with hp | hp
    · exact .inr ⟨t, by simp [Node.children], hp⟩
    · rcases List.mem_append.mp hp with hp | hp
      · exact .inr ⟨a, by simp [Node.children], hp⟩
      · exact .inr ⟨b, by simp [Node.children], hp⟩

theorem exists_meets (h : c.Ok) {p : String × Nat} (root : ExprId) :
    root < c.len → p ∈ (c.expr root).symbolsOf → ∃ x, c.Meets root x ∧ c.node x = .sym p.1 p.2 := by
  induction root using Nat.strong_induction_on with
  | _ root ih =>
    intro hroot hp
    rw [expr_eq h hroot] at hp
    rcases mem_symbolsOf_nodeExpr hp with hn | ⟨y, hy, hpy⟩
    · exact ⟨root, .refl root, hn⟩
    · have hlt : y < root := (h.node hroot).children_lt y hy
      obtain ⟨x, hx, hn⟩ := ih y hlt (Nat.lt_trans hlt hroot) hpy
      exact ⟨x, hx.head hy, hn⟩

theorem exists_mem_symbolsOf (h : c.Ok) {root : ExprId} (hroot : root < c.len) {p : String × Nat}
    (hp : p ∈ (c.expr root).symbolsOf) : ∃ x ∈ c.symbolsOf root, c.node x = .sym p.1 p.2 := by
  obtain ⟨x, hx, hn⟩ := exists_meets h root hroot hp
  exact ⟨x, (mem_symbolsOf h hroot x).mpr ⟨hx, _, _, hn⟩, hn⟩

theorem eval_congr_symbolsOf (h : c.Ok) {root : ExprId} (hroot : root < c.len) {ρ ρ' : Valuation}
    (hagree : ∀ x ∈ c.symbolsOf root, ∀ name w, c.node x = .sym name w → ρ name w = ρ' name w) :
    (c.expr root).eval ρ = (c.expr root).eval ρ' := by
  apply Expr.eval_congr
  intro p hp
  obtain ⟨x, hx, hn⟩ := exists_mem_symbolsOf h hroot hp
  exact hagree x hx p.1 p.2 hn

end ExprCtx

end Csolver
