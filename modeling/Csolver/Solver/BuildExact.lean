import Csolver.Solver.Extend
import Csolver.Solver.Fold

/-!
# What the builders return (`crates/solver/src/expr.rs`)

Every builder that simplifies returns a handle of the width and the value of the node that it was asked for. Folding
is the value of the circuit for the operator, and the identities hold at every width.
-/

namespace Csolver.ExprCtx

variable {c d : ExprCtx} {ρ : Valuation}

/-- The operands of a connective are one bit wide, and the arms of a choice equally wide. -/
def NodeTyped (c : ExprCtx) : Node → Prop
  | .not x => c.width x = 1
  | .and xs | .or xs => ∀ x ∈ xs, c.width x = 1
  | .ite _ t e => c.width t = c.width e
  | _ => True

def Typed (c : ExprCtx) : Prop := ∀ i < c.len, c.NodeTyped (c.node i)

/-- The builder succeeds, with a handle `w` bits wide that always has the value of `e`, in an arena that is still
typed. -/
def Yields (x : ExprM ExprId) (c : ExprCtx) (w : Nat) (e : Expr) : Prop :=
  ∃ id d, x c = some (id, d) ∧ d.Typed ∧ d.width id = w ∧ ∀ ρ, (d.expr id).eval ρ = e.eval ρ

theorem Yields.pure (ht : c.Typed) (x : ExprId) : Yields (Pure.pure x) c (c.width x) (c.expr x) :=
  ⟨x, c, rfl, ht, rfl, fun _ => rfl⟩

theorem Yields.congr {x : ExprM ExprId} {w : Nat} {e e' : Expr} (h : Yields x c w e)
    (he : ∀ ρ, e.eval ρ = e'.eval ρ) : Yields x c w e' := by
  obtain ⟨id, d, hx, ht, hw, hev⟩ := h
  exact ⟨id, d, hx, ht, hw, fun ρ => (hev ρ).trans (he ρ)⟩

theorem Yields.get {f : ExprCtx → ExprM ExprId} {w : Nat} {e : Expr} (h : Yields (f c) c w e) :
    Yields (do let c ← MonadState.get; f c) c w e := h

/-! ## New nodes -/

theorem nodeExpr_congr {n : Node} {i w : Nat} (hn : NodeOk c i n w) (h : ∀ x < i, d.expr x = c.expr x) :
    d.nodeExpr w n = c.nodeExpr w n := by
  cases n with
  | const bv => rfl
  | sym name w => rfl
  | bool b => rfl
  | bin op a b => rw [nodeExpr, nodeExpr, h a hn.1, h b hn.2.1]
  | cmp op a b => rw [nodeExpr, nodeExpr, h a hn.1, h b hn.2.1]
  | not x => rw [nodeExpr, nodeExpr, h x hn.1]
  | and xs => rw [nodeExpr, nodeExpr, List.map_congr_left fun x hx => h x (hn.1 x hx)]
  | or xs => rw [nodeExpr, nodeExpr, List.map_congr_left fun x hx => h x (hn.1 x hx)]
  | ite x t e => rw [nodeExpr, nodeExpr, h x hn.1, h t hn.2.1, h e hn.2.2.1]
  | zext x => rw [nodeExpr, nodeExpr, h x hn.1]
  | sext x => rw [nodeExpr, nodeExpr, h x hn.1]

theorem NodeOk.width_eq {n : Node} {i j w w' : Nat} (h : NodeOk c i n w) (h' : NodeOk c j n w')
    (hz : ∀ x, n ≠ .zext x) (hs : ∀ x, n ≠ .sext x) : w = w' := by
  cases n with
  | const bv => exact h.trans h'.symm
  | sym name v => exact h.trans h'.symm
  | bool b => exact h.trans h'.symm
  | bin op a b => exact h.2.2.trans h'.2.2.symm
  | cmp op a b => exact h.2.2.trans h'.2.2.symm
  | not x => exact h.2.trans h'.2.symm
  | and xs => exact h.2.trans h'.2.symm
  | or xs => exact h.2.trans h'.2.symm
  | ite x t e => exact h.2.2.2.trans h'.2.2.2.symm
  | zext x => exact absurd rfl (hz x)
  | sext x => exact absurd rfl (hs x)

theorem NodeTyped.append {n : Node} {i w : Nat} (hi : i ≤ c.len) (hn : NodeOk c i n w) (h : c.NodeTyped n)
    (ns : List (Node × Nat)) : (⟨c.nodes ++ ns⟩ : ExprCtx).NodeTyped n := by
  have hwidth : ∀ x < i, (⟨c.nodes ++ ns⟩ : ExprCtx).width x = c.width x :=
    fun x hx => width_append (Nat.lt_of_lt_of_le hx hi)
  cases n with
  | not x => exact (hwidth x hn.1).trans h
  | and xs => exact fun x hx => (hwidth x (hn.1 x hx)).trans (h x hx)
  | or xs => exact fun x hx => (hwidth x (hn.1 x hx)).trans (h x hx)
  | ite x t e => exact (hwidth t hn.2.1).trans (h.trans (hwidth e hn.2.2.1).symm)
  | const _ | sym _ _ | bin _ _ _ | cmp _ _ _ | bool _ | zext _ | sext _ => trivial

theorem intern_typed (hc : c.Ok) (ht : c.Typed) {n : Node} {w : Nat} (hn : NodeOk c c.len n w) (hnt : c.NodeTyped n)
    {id : ExprId} (he : ExprCtx.intern n w c = some (id, d)) : d.Typed := by
  rcases intern_cases n w c with ⟨i, _, _, hint⟩ | ⟨_, hint⟩
  · rw [hint] at he
    obtain ⟨-, rfl⟩ := Prod.mk.inj (Option.some.inj he)
    exact ht
  · rw [hint] at he
    obtain ⟨-, rfl⟩ := Prod.mk.inj (Option.some.inj he)
    intro i hi
    have hlen : (⟨c.nodes ++ [(n, w)]⟩ : ExprCtx).len = c.len + 1 := by simp [len]
    rw [hlen] at hi
    rcases Nat.lt_succ_iff_lt_or_eq.mp hi with hlt | rfl
    · rw [node_append hlt]
      exact (ht i hlt).append (Nat.le_of_lt hlt) (hc.node hlt) _
    · rw [show (⟨c.nodes ++ [(n, w)]⟩ : ExprCtx).node c.len = n from node_length c.nodes n w]
      exact hnt.append (Nat.le_refl _) hn _

theorem Yields.intern (hc : c.Built) (ht : c.Typed) {n : Node} {w : Nat} (hn : NodeOk c c.len n w) (hnt : c.NodeTyped n)
    (hz : ∀ x, n ≠ .zext x) (hs : ∀ x, n ≠ .sext x) : Yields (ExprCtx.intern n w) c w (c.nodeExpr w n) := by
  have hvalue : ∀ (d : ExprCtx) (id : ExprId), d.Ok → id < d.len → d.node id = n → d.width id = w →
      (∀ x < c.len, d.expr x = c.expr x) → ∀ ρ, (d.expr id).eval ρ = (c.nodeExpr w n).eval ρ := by
    intro d id hd hid hnode hwid hold ρ
    rw [expr_eq hd hid, hnode, hwid, nodeExpr_congr hn hold]
  have hwidth : ∀ i < c.len, c.node i = n → c.width i = w := by
    intro i hi hni
    have hok := hc.ok.node hi
    rw [hni] at hok
    exact hok.width_eq hn hz hs
  obtain ⟨id, d, he, hw, hev⟩ := (intern_extends hc.ok hc.distinct hn hvalue).mpr hwidth
  exact ⟨id, d, he, intern_typed hc.ok ht hn hnt he, hw, hev⟩

theorem Yields.boolean (hc : c.Built) (ht : c.Typed) (b : Bool) : Yields (ExprCtx.boolean b) c 1 (.bool b) :=
  Yields.intern hc ht (n := .bool b) rfl trivial (fun _ => Node.noConfusion) fun _ => Node.noConfusion

theorem Yields.int (hc : c.Built) (ht : c.Typed) {w v : Nat} (hw : 0 < w) (hle : w ≤ 128) :
    Yields (ExprCtx.int w v) c w (.int w v) := by
  let bv : BitVector := ⟨w, v % 2 ^ w, hw, hle, Nat.mod_lt _ (Nat.two_pow_pos _)⟩
  have hnew : BitVector.new w v = some bv := dif_pos ⟨hw, hle⟩
  have hint : ExprCtx.int w v c = ExprCtx.intern (.const bv) w c := by
    simp [ExprCtx.int, hnew, constant, bind, StateT.bind, liftM, monadLift, MonadLift.monadLift, StateT.lift, bv]
  have hyields := Yields.intern hc ht (n := .const bv) (w := w) rfl trivial (fun _ => Node.noConfusion)
    fun _ => Node.noConfusion
  unfold Yields at hyields ⊢
  rw [hint]
  exact hyields

/-! ## What is read of an operand -/

theorem asConst_eq_expr (h : c.Ok) {x : ExprId} (hx : x < c.len) : (c.expr x).asConst = c.asConst x := by
  rw [expr_eq h hx, asConst]
  cases hn : c.node x with
  | const bv =>
    have hnew : BitVector.new bv.width bv.value = some bv := by
      rw [BitVector.new, dif_pos ⟨bv.width_pos, bv.width_le⟩]
      simp only [Nat.mod_eq_of_lt bv.value_lt]
    exact hnew
  | _ => rfl

theorem asBool_eq_expr (h : c.Ok) {x : ExprId} (hx : x < c.len) : (c.expr x).asBool = c.asBool x := by
  rw [expr_eq h hx, asBool]
  cases c.node x <;> rfl

theorem folded_eq_expr (h : c.Ok) (op : BvOp) {a b : ExprId} (ha : a < c.len) (hb : b < c.len) :
    Expr.folded op (c.expr a) (c.expr b) = c.folded op a b := by
  rw [Expr.folded, folded, asConst_eq_expr h ha, asConst_eq_expr h hb, width_expr h a ha] <;> rfl

theorem identity_eq_expr (h : c.Ok) (op : BvOp) {a b : ExprId} (ha : a < c.len) (hb : b < c.len) :
    Expr.identity op (c.expr a) (c.expr b) = (c.identity op a b).map c.expr := by
  unfold Expr.identity identity
  rw [asConst_eq_expr h ha, asConst_eq_expr h hb]
  simp only
  split_ifs <;> rfl

theorem eval_lt_width (h : c.Ok) (ht : c.Typed) (id : ExprId) (hid : id < c.len) : (c.expr id).eval ρ < 2 ^ c.width id := by
  induction id using Nat.strong_induction_on with
  | _ id ih =>
    have hok := h.node hid
    have htyped := ht id hid
    have hbit : ∀ b : Bool, b.toNat < 2 ^ 1 := fun b => by cases b <;> decide
    rw [expr_eq h hid]
    cases hn : c.node id with
    | const bv =>
      rw [hn] at hok
      rw [show c.width id = bv.width from hok]
      exact Nat.mod_lt _ (Nat.two_pow_pos _)
    | sym name w =>
      rw [hn] at hok
      rw [show c.width id = w from hok]
      exact Nat.mod_lt _ (Nat.two_pow_pos _)
    | bin op a b =>
      rw [hn] at hok
      rw [hok.2.2, ← width_expr h a (Nat.lt_trans hok.1 hid)]
      exact BvOp.eval_lt _ _ _ _
    | cmp op a b =>
      rw [hn] at hok
      rw [hok.2.2]
      exact hbit _
    | bool b =>
      rw [hn] at hok
      rw [show c.width id = 1 from hok]
      exact hbit _
    | not x =>
      rw [hn] at hok
      rw [hok.2]
      exact hbit _
    | and xs =>
      rw [hn] at hok
      rw [hok.2]
      exact hbit _
    | or xs =>
      rw [hn] at hok
      rw [hok.2]
      exact hbit _
    | ite x t e =>
      rw [hn] at hok htyped
      rw [nodeExpr, Expr.eval, hok.2.2.2]
      split_ifs
      · exact ih t hok.2.1 (Nat.lt_trans hok.2.1 hid)
      · rw [htyped]
        exact ih e hok.2.2.1 (Nat.lt_trans hok.2.2.1 hid)
    | zext x => exact Nat.mod_lt _ (Nat.two_pow_pos _)
    | sext x => exact BitVec.isLt _

theorem eval_bool (h : c.Ok) (ht : c.Typed) {id : ExprId} (hid : id < c.len) (hw : c.width id = 1) :
    (c.expr id).eval ρ = if Expr.Holds ρ (c.expr id) then 1 else 0 := by
  have hlt := eval_lt_width (ρ := ρ) h ht id hid
  rw [hw] at hlt
  by_cases hone : Expr.Holds ρ (c.expr id)
  · rw [if_pos hone]
    exact hone
  · rw [if_neg hone]
    have hne : (c.expr id).eval ρ ≠ 1 := hone
    omega

/-! ## Operators and comparisons -/

theorem bin_yields (hc : c.Built) (ht : c.Typed) (op : BvOp) {a b : ExprId} (ha : a < c.len) (hb : b < c.len)
    (hw : c.width a = c.width b) (hpos : 0 < c.width a) (hle : c.width a ≤ 128) :
    Yields (bin op a b) c (c.width a) (.bin op (c.expr a) (c.expr b)) := by
  have h := hc.ok
  have hwa := width_expr h a ha
  refine Yields.get ?_
  cases hf : c.folded op a b with
  | some v =>
    refine (Yields.int hc ht hpos hle).congr fun ρ => ?_
    have hfold := Expr.folded_eval (ρ := ρ) ((folded_eq_expr h op ha hb).trans hf)
    rw [Expr.eval_int, Expr.eval, ← hfold, hwa]
  | none =>
    cases hi : c.identity op a b with
    | some x =>
      have hx : c.width x = c.width a ∧ x < c.len := by
        rcases identity_mem hi with rfl | rfl
        · exact ⟨rfl, ha⟩
        · exact ⟨hw.symm, hb⟩
      have hyields := Yields.pure ht x
      rw [hx.1] at hyields
      refine hyields.congr fun ρ => ?_
      have hident : Expr.identity op (c.expr a) (c.expr b) = some (c.expr x) := by
        rw [identity_eq_expr h op ha hb, hi]
        rfl
      have hlt := eval_lt_width (ρ := ρ) h ht x hx.2
      rw [hx.1, ← hwa] at hlt
      rw [Expr.eval, ← Expr.identity_eval hident (c.expr a).width, Nat.mod_eq_of_lt hlt]
    | none =>
      simp only
      split_ifs with hsub
      · obtain ⟨rfl, rfl⟩ := hsub
        refine (Yields.int hc ht hpos hle).congr fun ρ => ?_
        simp [Expr.eval_int, Expr.eval, BvOp.eval, BvOp.evalBv]
      · exact Yields.intern hc ht ⟨ha, hb, rfl⟩ trivial (fun _ => Node.noConfusion) fun _ => Node.noConfusion

theorem cmp_yields (hc : c.Built) (ht : c.Typed) (op : CmpOp) {a b : ExprId} (ha : a < c.len) (hb : b < c.len) :
    Yields (cmp op a b) c 1 (.cmp op (c.expr a) (c.expr b)) := by
  have h := hc.ok
  have hplain : Yields (if a = b then boolean (op = .eq ∨ op = .ule ∨ op = .uge ∨ op = .sle ∨ op = .sge)
      else ExprCtx.intern (.cmp op a b) 1) c 1 (.cmp op (c.expr a) (c.expr b)) := by
    split_ifs with hab
    · subst hab
      refine (Yields.boolean hc ht _).congr fun ρ => ?_
      rw [Expr.eval, Expr.eval, Expr.cmpSelf_eq]
      rfl
    · exact Yields.intern hc ht ⟨ha, hb, rfl⟩ trivial (fun _ => Node.noConfusion) fun _ => Node.noConfusion
  refine Yields.get ?_
  cases hx : c.asConst a with
  | none => exact hplain
  | some x =>
    cases hy : c.asConst b with
    | none => exact hplain
    | some y =>
      simp only
      split_ifs with hw hab
      · refine (Yields.boolean hc ht _).congr fun ρ => ?_
        have hxa := Expr.asConst_eq (ρ := ρ) ((asConst_eq_expr h ha).trans hx)
        have hyb := Expr.asConst_eq (ρ := ρ) ((asConst_eq_expr h hb).trans hy)
        rw [Expr.eval, Expr.eval, Expr.evalCmp_eq op hw, hxa.1, hxa.2, hyb.2]
      · rwa [if_pos hab] at hplain
      · rwa [if_neg hab] at hplain

/-! ## Connectives -/

theorem not_yields (hc : c.Built) (ht : c.Typed) {x : ExprId} (hx : x < c.len) (hw : c.width x = 1) :
    Yields (not x) c 1 (.not (c.expr x)) := by
  have h := hc.ok
  have hok := h.node hx
  have htyped := ht x hx
  have hnew : Yields (ExprCtx.intern (.not x) 1) c 1 (.not (c.expr x)) :=
    Yields.intern hc ht ⟨hx, rfl⟩ hw (fun _ => Node.noConfusion) fun _ => Node.noConfusion
  refine Yields.get ?_
  cases hn : c.node x with
  | bool b =>
    refine (Yields.boolean hc ht _).congr fun ρ => ?_
    rw [expr_eq h hx, hn]
    cases b <;> rfl
  | not inner =>
    rw [hn] at hok htyped
    have hlt := Nat.lt_trans hok.1 hx
    have hyields := Yields.pure ht inner
    rw [show c.width inner = 1 from htyped] at hyields
    refine hyields.congr fun ρ => ?_
    rw [expr_eq h hx, hn, nodeExpr, eval_bool h ht hlt htyped, Expr.eval, Expr.eval]
    by_cases hone : Expr.Holds ρ (c.expr inner)
    · rw [if_pos hone, show (c.expr inner).eval ρ = 1 from hone]
      rfl
    · have hne : ((c.expr inner).eval ρ != 1) = true := bne_iff_ne.mpr hone
      rw [if_neg hone, hne]
      rfl
  | cmp op a b =>
    rw [hn] at hok
    refine (cmp_yields hc ht op.negate (Nat.lt_trans hok.1 hx) (Nat.lt_trans hok.2.1 hx)).congr fun ρ => ?_
    rw [expr_eq h hx, hn, nodeExpr, Expr.eval, Expr.eval, Expr.eval, Expr.negate_eval]
    cases op.eval (c.expr a).width ((c.expr a).eval ρ) ((c.expr b).eval ρ) <;> rfl
  | const _ | sym _ _ | bin _ _ _ | and _ | or _ | ite _ _ _ | zext _ | sext _ => exact hnew

theorem flatten_eq_expr (h : c.Ok) (neutral : Bool) {sub : Node → Option (List ExprId)}
    {subExpr : Expr → Option (List Expr)} (hsub : ∀ w n, subExpr (c.nodeExpr w n) = (sub n).map (List.map c.expr)) (ps : List ExprId) (hps : ∀ p ∈ ps, p < c.len) :
    Expr.flatten neutral subExpr (ps.map c.expr) = (c.flatten neutral sub ps).map (List.map c.expr) := by
  induction ps with
  | nil => rfl
  | cons p ps ih =>
    have hp := hps p List.mem_cons_self
    have hrest := ih fun q hq => hps q (List.mem_cons_of_mem p hq)
    have hs : subExpr (c.expr p) = (sub (c.node p)).map (List.map c.expr) := by
      rw [expr_eq h hp]
      exact hsub _ _
    have hasBool := asBool_eq_expr h hp
    rw [List.map_cons, Expr.flatten, flatten, hasBool, asBool]
    cases hn : c.node p with
    | bool b =>
      simp only
      split_ifs
      · exact hrest
      · rfl
    | const _ | sym _ _ | bin _ _ _ | cmp _ _ _ | not _ | and _ | or _ | ite _ _ _ | zext _ | sext _ =>
      rw [hn] at hs
      simp only [hs, hrest]
      generalize sub _ = found
      cases found with
      | none => cases c.flatten neutral sub ps <;> rfl
      | some inner => cases c.flatten neutral sub ps <;> simp

theorem andOperands_nodeExpr (c : ExprCtx) (w : Nat) (n : Node) :
    Expr.andOperands (c.nodeExpr w n) = (andOperands n).map (List.map c.expr) := by
  cases n <;> rfl

theorem orOperands_nodeExpr (c : ExprCtx) (w : Nat) (n : Node) :
    Expr.orOperands (c.nodeExpr w n) = (orOperands n).map (List.map c.expr) := by
  cases n <;> rfl

theorem flatten_width (neutral : Bool) {sub : Node → Option (List ExprId)}
    (hsub : ∀ p < c.len, ∀ xs, sub (c.node p) = some xs → ∀ x ∈ xs, c.width x = 1) (ps : List ExprId)
    (hps : ∀ p ∈ ps, p < c.len ∧ c.width p = 1) : ∀ flat, c.flatten neutral sub ps = some flat → ∀ x ∈ flat, c.width x = 1 := by
  induction ps with
  | nil =>
    intro flat hf x hx
    rw [← Option.some.inj hf] at hx
    exact absurd hx List.not_mem_nil
  | cons p ps ih =>
    intro flat hf x hx
    obtain ⟨hp, hwp⟩ := hps p List.mem_cons_self
    have hrest := ih fun q hq => hps q (List.mem_cons_of_mem p hq)
    have hpush : ∀ inner : List ExprId, (∀ y ∈ inner, c.width y = 1) →
        (c.flatten neutral sub ps).map (inner ++ ·) = some flat → c.width x = 1 := by
      intro inner hinner he
      obtain ⟨rest, hr, rfl⟩ := Option.map_eq_some_iff.mp he
      rcases List.mem_append.mp hx with hx | hx
      · exact hinner x hx
      · exact hrest rest hr x hx
    unfold flatten at hf
    split at hf
    · split_ifs at hf
      exact hrest flat hf x hx
    · split at hf
      · rename_i inner hinner
        exact hpush inner (hsub p hp inner hinner) hf
      · exact hpush [p] (fun y hy => by rw [List.mem_singleton.mp hy, hwp]) hf

theorem eval_eq_of_holds {e e' : Expr} (h : e.eval ρ = if e.Holds ρ then 1 else 0) (h' : e'.eval ρ = if e'.Holds ρ then 1 else 0)
    (hiff : e.Holds ρ ↔ e'.Holds ρ) : e.eval ρ = e'.eval ρ := by
  rw [h, h']
  simp only [hiff]

theorem toNat_holds {e : Expr} {b : Bool} (h : e.eval ρ = b.toNat) : e.eval ρ = if e.Holds ρ then 1 else 0 := by
  unfold Expr.Holds
  cases b <;> simp [h]

theorem operands_yield (hc : c.Built) (ht : c.Typed) {flat : List ExprId} (hlt : ∀ x ∈ flat, x < c.len)
    (hw : ∀ x ∈ flat, c.width x = 1) {unit : Bool} {mk : List ExprId → Node} {e : Expr}
    (he : ∀ ρ, e.eval ρ = if e.Holds ρ then 1 else 0)
    (hnil : flat = [] → ∀ ρ, unit = true ↔ e.Holds ρ)
    (hone : ∀ x ∈ flat, (∀ y ∈ flat, y = x) → ∀ ρ, (c.expr x).Holds ρ ↔ e.Holds ρ)
    (hmany : Yields (ExprCtx.intern (mk (sortDedup flat)) 1) c 1 e) :
    Yields (match sortDedup flat with
      | [] => boolean unit
      | [x] => (Pure.pure x : ExprM ExprId)
      | xs => ExprCtx.intern (mk xs) 1) c 1 e := by
  split
  · rename_i hsort
    have hempty : flat = [] := by
      refine List.eq_nil_iff_forall_not_mem.mpr fun x hx => ?_
      rw [← mem_sortDedup, hsort] at hx
      exact absurd hx List.not_mem_nil
    refine (Yields.boolean hc ht unit).congr fun ρ => ?_
    refine eval_eq_of_holds (toNat_holds rfl) (he ρ) ?_
    rw [Expr.holds_bool]
    exact hnil hempty ρ
  · rename_i x hsort
    have hx : x ∈ flat := mem_sortDedup.mp (by rw [hsort]; exact List.mem_cons_self)
    have hall : ∀ y ∈ flat, y = x := by
      intro y hy
      rw [← mem_sortDedup, hsort] at hy
      exact List.mem_singleton.mp hy
    have hyields := Yields.pure ht x
    rw [hw x hx] at hyields
    exact hyields.congr fun ρ => eval_eq_of_holds (eval_bool hc.ok ht (hlt x hx) (hw x hx)) (he ρ) (hone x hx hall ρ)
  · exact hmany

theorem holds_and_map (xs : List ExprId) : (Expr.and (xs.map c.expr)).Holds ρ ↔ ∀ x ∈ xs, (c.expr x).Holds ρ := by
  rw [Expr.holds_and, List.forall_mem_map]

theorem holds_or_map (xs : List ExprId) : (Expr.or (xs.map c.expr)).Holds ρ ↔ ∃ x ∈ xs, (c.expr x).Holds ρ := by
  simp [Expr.holds_or]

theorem andOperands_width (ht : c.Typed) : ∀ p < c.len, ∀ xs, andOperands (c.node p) = some xs →
    ∀ x ∈ xs, c.width x = 1 := by
  intro p hp xs hxs
  have htyped := ht p hp
  cases hn : c.node p with
  | and ys =>
    rw [hn] at htyped hxs
    obtain rfl := Option.some.inj hxs
    exact htyped
  | _ =>
    rw [hn] at hxs
    exact absurd hxs (by simp [andOperands])

theorem and_yields (hc : c.Built) (ht : c.Typed) {ps : List ExprId} (hps : ∀ p ∈ ps, p < c.len ∧ c.width p = 1) :
    Yields (and ps) c 1 (.and (ps.map c.expr)) := by
  have h := hc.ok
  have hlt : ∀ p ∈ ps, p < c.len := fun p hp => (hps p hp).1
  have hflat := flatten_eq_expr h true (andOperands_nodeExpr c) ps hlt
  have hwidth := flatten_width true (andOperands_width ht) ps hps
  refine Yields.get ?_
  cases hf : c.flatten true andOperands ps with
  | none =>
    rw [hf] at hflat
    refine (Yields.boolean hc ht false).congr fun ρ => eval_eq_of_holds (toNat_holds rfl) (toNat_holds rfl) ?_
    rw [Expr.holds_bool, Expr.holds_and]
    exact iff_of_false Bool.false_ne_true ((Expr.flatten_and _).2 hflat)
  | some flat =>
    rw [hf] at hflat
    have hmem := fun ρ => (Expr.flatten_and (ρ := ρ) (ps.map c.expr)).1 _ hflat
    simp only [List.forall_mem_map] at hmem
    have hflatlt := flatten_lt h andOperands_lt ps hlt hf
    refine operands_yield hc ht hflatlt (hwidth flat hf) (fun ρ => toNat_holds rfl) (fun hnil ρ => ?_) (fun x hx hall ρ => ?_) ?_
    · rw [holds_and_map, ← hmem, hnil]
      simp
    · rw [holds_and_map, ← hmem]
      exact ⟨fun hh y hy => hall y hy ▸ hh, fun hh => hh x hx⟩
    · have hn : NodeOk c c.len (.and (sortDedup flat)) 1 := ⟨fun x hx => hflatlt x (mem_sortDedup.mp hx), rfl⟩
      refine (Yields.intern hc ht hn (fun x hx => hwidth flat hf x (mem_sortDedup.mp hx)) (fun _ => Node.noConfusion) fun _ => Node.noConfusion).congr fun ρ => ?_
      refine eval_eq_of_holds (toNat_holds rfl) (toNat_holds rfl) ?_
      rw [nodeExpr, holds_and_map, holds_and_map, ← hmem]
      simp only [mem_sortDedup]

theorem orOperands_width (ht : c.Typed) : ∀ p < c.len, ∀ xs, orOperands (c.node p) = some xs →
    ∀ x ∈ xs, c.width x = 1 := by
  intro p hp xs hxs
  have htyped := ht p hp
  cases hn : c.node p with
  | or ys =>
    rw [hn] at htyped hxs
    obtain rfl := Option.some.inj hxs
    exact htyped
  | _ =>
    rw [hn] at hxs
    exact absurd hxs (by simp [orOperands])

theorem or_yields (hc : c.Built) (ht : c.Typed) {ps : List ExprId} (hps : ∀ p ∈ ps, p < c.len ∧ c.width p = 1) :
    Yields (or ps) c 1 (.or (ps.map c.expr)) := by
  have h := hc.ok
  have hlt : ∀ p ∈ ps, p < c.len := fun p hp => (hps p hp).1
  have hflat := flatten_eq_expr h false (orOperands_nodeExpr c) ps hlt
  have hwidth := flatten_width false (orOperands_width ht) ps hps
  refine Yields.get ?_
  cases hf : c.flatten false orOperands ps with
  | none =>
    rw [hf] at hflat
    refine (Yields.boolean hc ht true).congr fun ρ => eval_eq_of_holds (toNat_holds rfl) (toNat_holds rfl) ?_
    rw [Expr.holds_bool, Expr.holds_or]
    exact iff_of_true rfl ((Expr.flatten_or _).2 hflat)
  | some flat =>
    rw [hf] at hflat
    have hmem : ∀ ρ, (∃ x ∈ flat, (c.expr x).Holds ρ) ↔ ∃ p ∈ ps, (c.expr p).Holds ρ := by
      intro ρ
      have := (Expr.flatten_or (ρ := ρ) (ps.map c.expr)).1 _ hflat
      simpa using this
    have hflatlt := flatten_lt h orOperands_lt ps hlt hf
    refine operands_yield hc ht hflatlt (hwidth flat hf) (fun ρ => toNat_holds rfl) (fun hnil ρ => ?_) (fun x hx hall ρ => ?_) ?_
    · rw [holds_or_map, ← hmem, hnil]
      simp
    · rw [holds_or_map, ← hmem]
      exact ⟨fun hh => ⟨x, hx, hh⟩, fun ⟨y, hy, hh⟩ => hall y hy ▸ hh⟩
    · have hn : NodeOk c c.len (.or (sortDedup flat)) 1 := ⟨fun x hx => hflatlt x (mem_sortDedup.mp hx), rfl⟩
      refine (Yields.intern hc ht hn (fun x hx => hwidth flat hf x (mem_sortDedup.mp hx)) (fun _ => Node.noConfusion) fun _ => Node.noConfusion).congr fun ρ => ?_
      refine eval_eq_of_holds (toNat_holds rfl) (toNat_holds rfl) ?_
      rw [nodeExpr, holds_or_map, holds_or_map, ← hmem]
      simp only [mem_sortDedup]

theorem ite_yields (hc : c.Built) (htyped : c.Typed) {x t e : ExprId} (hx : x < c.len) (ht : t < c.len) (he : e < c.len)
    (hw : c.width t = c.width e) : Yields (ite x t e) c (c.width t) (.ite (c.expr x) (c.expr t) (c.expr e)) := by
  have h := hc.ok
  refine Yields.get ?_
  cases hb : c.asBool x with
  | some b =>
    have hcond : c.expr x = .bool b := Expr.asBool_eq ((asBool_eq_expr h hx).trans hb)
    cases b with
    | true =>
      refine (Yields.pure htyped t).congr fun ρ => ?_
      rw [hcond]
      rfl
    | false =>
      have hyields := Yields.pure htyped e
      rw [← hw] at hyields
      refine hyields.congr fun ρ => ?_
      rw [hcond]
      rfl
  | none =>
    simp only
    split_ifs with hte
    · subst hte
      refine (Yields.pure htyped t).congr fun ρ => ?_
      rw [Expr.eval, ite_self]
    · exact Yields.intern hc htyped ⟨hx, ht, he, rfl⟩ hw (fun _ => Node.noConfusion) fun _ => Node.noConfusion

/-! ## Folding and the circuits -/

open Sat Sat.Blaster in
/-- The literals of two constants, and the circuit for the operator on them. -/
def binCircuit (ctx : ExprCtx) (op : BvOp) (x y : BitVector) (b : ExprId) : CnfM (List Lit) := do
  let xs ← constBits x.value x.width
  let ys ← constBits y.value y.width
  encodeBin ctx op xs ys b

open Sat Sat.Blaster in
def cmpCircuit (op : CmpOp) (x y : BitVector) : CnfM Lit := do
  let xs ← constBits x.value x.width
  let ys ← constBits y.value y.width
  Cnf.compare op xs ys

open Sat in
/-- In every solution of the clauses, and there is one, the literals spell the number. -/
def Spells (x : CnfM (List Lit)) (cnf : Cnf) (v : Nat) : Prop :=
  (∃ m, satAll m (x cnf).2.clauses) ∧ ∀ m, satAll m (x cnf).2.clauses → num m (x cnf).1 = v

open Sat Sat.Blaster in
theorem binCircuit_spells {cnf : Cnf} (h : cnf.Ok) {ctx : ExprCtx} {op : BvOp} {x y : BitVector} {b : ExprId}
    (hw : x.width = y.width) (hb : ∀ k, ctx.asConst b = some k → k.value = y.value) :
    Spells (binCircuit ctx op x y b) cnf (op.eval x.width x.value y.value) := by
  have hx : x.value % 2 ^ x.width = x.value := Nat.mod_eq_of_lt x.value_lt
  have hy : y.value % 2 ^ y.width = y.value := Nat.mod_eq_of_lt y.value_lt
  have hbuilds : Cnf.Builds (binCircuit ctx op x y b) cnf fun m r => num m r = op.eval x.width x.value y.value := by
    refine (constBits_builds h x.value x.width).bind fun xs c₁ _ h₁ hxs hq₁ => ?_
    have hlx : xs.length = x.width := h₁.fact fun m hm => (hq₁ m hm).1
    refine (constBits_builds h₁ y.value y.width).bind fun ys c₂ hx₂ h₂ hys hq₂ => ?_
    have hly : ys.length = x.width := h₂.fact fun m hm => (hq₂ m hm).1.trans hw.symm
    refine (encodeBin_builds h₂ op (Cnf.In.mono hxs hx₂) hys hlx hly x.width_pos).mono fun m r hr hny hnx => ?_
    have hny' : num m ys = y.value := hny.2.trans hy
    have hnx' : num m xs = x.value := hnx.2.trans hx
    have hbv := hr.2 fun k hk => hny'.trans (hb k hk).symm
    rw [← toNat_bv hr.1, hbv, bv, bv, hnx', hny', BvOp.eval]
  exact ⟨hbuilds.ok.sat, hbuilds.post⟩

open Sat Sat.Blaster in
theorem cmpCircuit_spells {cnf : Cnf} (h : cnf.Ok) {op : CmpOp} {x y : BitVector} (hw : x.width = y.width) :
    Spells (do return [← cmpCircuit op x y]) cnf (op.eval x.width x.value y.value).toNat := by
  have hx : x.value % 2 ^ x.width = x.value := Nat.mod_eq_of_lt x.value_lt
  have hy : y.value % 2 ^ y.width = y.value := Nat.mod_eq_of_lt y.value_lt
  have hbuilds : Cnf.Builds (cmpCircuit op x y) cnf fun m l => litVal m l = op.eval x.width x.value y.value := by
    refine (constBits_builds h x.value x.width).bind fun xs c₁ _ h₁ hxs hq₁ => ?_
    have hlx : xs.length = x.width := h₁.fact fun m hm => (hq₁ m hm).1
    refine (constBits_builds h₁ y.value y.width).bind fun ys c₂ hx₂ h₂ hys hq₂ => ?_
    have hly : ys.length = x.width := h₂.fact fun m hm => (hq₂ m hm).1.trans hw.symm
    refine (Cnf.compare_bv h₂ op (Cnf.In.mono hxs hx₂) hys hlx hly x.width_pos).mono fun m l hl hny hnx => ?_
    rw [hl, bv, bv, hnx.2, hny.2, hx, hy, CmpOp.eval]
  refine ⟨hbuilds.ok.sat, fun m hm => ?_⟩
  show num m [(cmpCircuit op x y cnf).1] = _
  rw [num_singleton, hbuilds.post m hm]

/-! ## The law -/

/-- Every call of a simplifying builder on operands of fitting widths is right. -/
structure BuildersExact (c : ExprCtx) : Prop where
  bin : ∀ op a b, a < c.len → b < c.len → c.width a = c.width b → 0 < c.width a → c.width a ≤ 128 →
    Yields (bin op a b) c (c.width a) (.bin op (c.expr a) (c.expr b))
  cmp : ∀ op a b, a < c.len → b < c.len → c.width a = c.width b → Yields (cmp op a b) c 1 (.cmp op (c.expr a) (c.expr b))
  not : ∀ x, x < c.len → c.width x = 1 → Yields (not x) c 1 (.not (c.expr x))
  and : ∀ ps, (∀ p ∈ ps, p < c.len ∧ c.width p = 1) → Yields (and ps) c 1 (.and (ps.map c.expr))
  or : ∀ ps, (∀ p ∈ ps, p < c.len ∧ c.width p = 1) → Yields (or ps) c 1 (.or (ps.map c.expr))
  ite : ∀ x t e, x < c.len → t < c.len → e < c.len → c.width x = 1 → c.width t = c.width e →
    Yields (ite x t e) c (c.width t) (.ite (c.expr x) (c.expr t) (c.expr e))

open Sat in
/-- What is folded is what the circuit computes. -/
def FoldsAsCircuit (x y : BitVector) : Prop :=
  (∀ op v, foldBin op x y x.width = some v → ∀ (cnf : Cnf) (ctx : ExprCtx) (b : ExprId), cnf.Ok →
    (∀ k, ctx.asConst b = some k → k = y) → Spells (binCircuit ctx op x y b) cnf (v % 2 ^ x.width)) ∧
  ∀ op (cnf : Cnf), cnf.Ok → Spells (do return [← cmpCircuit op x y]) cnf (evalCmp op x y).toNat

theorem productCtx_typed : Sat.Blaster.productCtx.Typed := by
  intro i hi
  match i, hi with
  | 0, _ => trivial
  | 1, _ => trivial
  | 2, _ => trivial

end Csolver.ExprCtx
