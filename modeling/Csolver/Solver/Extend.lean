import Csolver.Solver.BlasterSound

/-!
# When an extension means what it says (`crates/solver/src/expr.rs`)

The intern table is keyed by the node, and a `Zext` or `Sext` node does not carry its width. So the
first extension of a handle fixes the width of every later one: `zext` and `sext` are right exactly
when the arena holds no extension of that handle to another width.
-/

namespace Csolver.ExprCtx

/-! ## Growing an arena -/

theorem node_append {c : ExprCtx} {ns : List (Node × Nat)} {id : ExprId} (h : id < c.len) :
    (⟨c.nodes ++ ns⟩ : ExprCtx).node id = c.node id := by
  rw [node, node, List.getD_eq_getElem?_getD, List.getD_eq_getElem?_getD,
    List.getElem?_append_left h]

theorem expr_append {c : ExprCtx} (h : c.Ok) {ns : List (Node × Nat)}
    (h' : (⟨c.nodes ++ ns⟩ : ExprCtx).Ok) (id : ExprId) :
    id < c.len → (⟨c.nodes ++ ns⟩ : ExprCtx).expr id = c.expr id := by
  induction id using Nat.strong_induction_on with
  | _ id ih =>
    intro hid
    have hid' : id < (⟨c.nodes ++ ns⟩ : ExprCtx).len := by
      rw [len, List.length_append]
      exact Nat.lt_add_right _ hid
    have hok := h.node hid
    have hrec : ∀ x, x < id → (⟨c.nodes ++ ns⟩ : ExprCtx).expr x = c.expr x :=
      fun x hx => ih x hx (Nat.lt_trans hx hid)
    rw [expr_eq h' hid', expr_eq h hid, node_append hid, width_append hid]
    cases hn : c.node id with
    | const bv => rfl
    | sym name w => rfl
    | bool b => rfl
    | bin op a b => rw [hn] at hok; rw [nodeExpr, nodeExpr, hrec a hok.1, hrec b hok.2.1]
    | cmp op a b => rw [hn] at hok; rw [nodeExpr, nodeExpr, hrec a hok.1, hrec b hok.2.1]
    | not x => rw [hn] at hok; rw [nodeExpr, nodeExpr, hrec x hok.1]
    | and xs =>
      rw [hn] at hok
      rw [nodeExpr, nodeExpr, List.map_congr_left fun x hx => hrec x (hok.1 x hx)]
    | or xs =>
      rw [hn] at hok
      rw [nodeExpr, nodeExpr, List.map_congr_left fun x hx => hrec x (hok.1 x hx)]
    | ite x t e =>
      rw [hn] at hok
      rw [nodeExpr, nodeExpr, hrec x hok.1, hrec t hok.2.1, hrec e hok.2.2.1]
    | zext x => rw [hn] at hok; rw [nodeExpr, nodeExpr, hrec x hok.1]
    | sext x => rw [hn] at hok; rw [nodeExpr, nodeExpr, hrec x hok.1]

theorem findIdx_cases (n : Node) (c : ExprCtx) :
    (∃ id < c.len, c.node id = n ∧ (c.nodes.findIdx? fun p => p.1 = n) = some id) ∨
      ((∀ id < c.len, c.node id ≠ n) ∧ (c.nodes.findIdx? fun p => p.1 = n) = none) := by
  cases hf : c.nodes.findIdx? fun p => p.1 = n with
  | some id =>
    obtain ⟨hlt, hp, -⟩ := List.findIdx?_eq_some_iff_getElem.mp hf
    refine Or.inl ⟨id, hlt, ?_, rfl⟩
    rw [node, List.getD_eq_getElem?_getD, List.getElem?_eq_getElem hlt]
    exact of_decide_eq_true hp
  | none =>
    refine Or.inr ⟨fun id hid he => ?_, rfl⟩
    have hmem := List.findIdx?_eq_none_iff.mp hf (c.nodes[id]) (List.getElem_mem hid)
    rw [node, List.getD_eq_getElem?_getD, List.getElem?_eq_getElem hid] at he
    exact absurd (decide_eq_true he) (by simpa using hmem)

theorem intern_cases (n : Node) (w : Nat) (c : ExprCtx) :
    (∃ id < c.len, c.node id = n ∧ intern n w c = some (id, c)) ∨
      ((∀ id < c.len, c.node id ≠ n) ∧ intern n w c = some (c.len, ⟨c.nodes ++ [(n, w)]⟩)) := by
  unfold intern
  rcases findIdx_cases n c with ⟨id, hlt, hn, hf⟩ | ⟨hnew, hf⟩
  · exact Or.inl ⟨id, hlt, hn, by rw [hf]⟩
  · exact Or.inr ⟨hnew, by rw [hf]⟩

theorem node_length (ns : List (Node × Nat)) (n : Node) (w : Nat) :
    (⟨ns ++ [(n, w)]⟩ : ExprCtx).node ns.length = n := by
  rw [node, List.getD_eq_getElem?_getD, List.getElem?_append_right (Nat.le_refl _)]
  simp

theorem width_length (ns : List (Node × Nat)) (n : Node) (w : Nat) :
    (⟨ns ++ [(n, w)]⟩ : ExprCtx).width ns.length = w := by
  rw [width, List.getD_eq_getElem?_getD, List.getElem?_append_right (Nat.le_refl _)]
  simp

/-- Hash-consing: two handles of one node are one handle. -/
def Distinct (c : ExprCtx) : Prop :=
  ∀ i j, i < c.len → j < c.len → c.node i = c.node j → i = j

theorem intern_distinct {c d : ExprCtx} {n : Node} {w : Nat} {id : ExprId} (h : c.Distinct)
    (he : intern n w c = some (id, d)) : d.Distinct := by
  rcases intern_cases n w c with ⟨i, hi, hn, hint⟩ | ⟨hnew, hint⟩
  · rw [hint, Option.some.injEq, Prod.mk.injEq] at he
    exact he.2 ▸ h
  · rw [hint, Option.some.injEq, Prod.mk.injEq] at he
    rw [← he.2]
    have hlast : (⟨c.nodes ++ [(n, w)]⟩ : ExprCtx).node c.len = n := node_length c.nodes n w
    have hlen : (⟨c.nodes ++ [(n, w)]⟩ : ExprCtx).len = c.len + 1 := by simp [len]
    intro i j hi hj hij
    rw [hlen] at hi hj
    rcases Nat.lt_succ_iff_lt_or_eq.mp hi with hi' | rfl <;>
      rcases Nat.lt_succ_iff_lt_or_eq.mp hj with hj' | rfl
    · rw [node_append hi', node_append hj'] at hij
      exact h i j hi' hj' hij
    · rw [node_append hi', hlast] at hij
      exact absurd hij (hnew i hi')
    · rw [node_append hj', hlast] at hij
      exact absurd hij.symm (hnew j hj')
    · rfl

/-- The builder returns a handle of the arena as it is, or interns one node. -/
def Interns (x : ExprM ExprId) (c : ExprCtx) : Prop :=
  ∀ id d, x c = some (id, d) → d = c ∨ ∃ n w, intern n w c = some (id, d)

theorem Interns.intern (c : ExprCtx) (n : Node) (w : Nat) : Interns (ExprCtx.intern n w) c :=
  fun _ _ he => Or.inr ⟨n, w, he⟩

/-- The node is no extension to a width other than `W`. -/
def ExtendsOnly (W : Nat) (n : Node) (w : Nat) : Prop :=
  match n with
  | .zext _ | .sext _ => w = W
  | _ => True

/-- The same, and if the node is an extension, then one to `W` bits. -/
def Adds (W : Nat) (x : ExprM ExprId) (c : ExprCtx) : Prop :=
  ∀ id d, x c = some (id, d) → d = c ∨ ∃ n w, ExtendsOnly W n w ∧ intern n w c = some (id, d)

theorem Adds.interns {W : Nat} {x : ExprM ExprId} {c : ExprCtx} (h : Adds W x c) : Interns x c := by
  intro id d he
  rcases h id d he with rfl | ⟨n, w, -, hint⟩
  · exact Or.inl rfl
  · exact Or.inr ⟨n, w, hint⟩

section

variable {W : Nat}

theorem Adds.pure (c : ExprCtx) (x : ExprId) : Adds W (Pure.pure x) c := by
  intro id d he
  obtain ⟨-, rfl⟩ : x = id ∧ c = d := Prod.mk.inj (Option.some.inj he)
  exact Or.inl rfl

theorem Adds.intern (c : ExprCtx) {n : Node} {w : Nat} (h : ExtendsOnly W n w) : Adds W (ExprCtx.intern n w) c :=
  fun _ _ he => Or.inr ⟨n, w, h, he⟩

theorem Adds.boolean (c : ExprCtx) (b : Bool) : Adds W (ExprCtx.boolean b) c :=
  Adds.intern c trivial

theorem Adds.int (c : ExprCtx) (w v : Nat) : Adds W (ExprCtx.int w v) c := by
  intro id d he
  unfold ExprCtx.int at he
  cases hb : BitVector.new w v with
  | none => simp [hb, bind, StateT.bind, liftM, monadLift, MonadLift.monadLift, StateT.lift] at he
  | some bv =>
    refine Or.inr ⟨.const bv, bv.width, trivial, ?_⟩
    simpa [hb, constant, bind, StateT.bind, liftM, monadLift, MonadLift.monadLift, StateT.lift]
      using he

theorem Adds.get {c : ExprCtx} {f : ExprCtx → ExprM ExprId} (h : Adds W (f c) c) :
    Adds W (MonadState.get >>= f) c := h

theorem Adds.zext (c : ExprCtx) (x : ExprId) (w : Nat) : Adds w (ExprCtx.zext x w) c := by
  refine Adds.get ?_
  split_ifs
  · exact Adds.pure c x
  · cases c.asConst x with
    | some bv => exact Adds.int c w _
    | none => exact Adds.intern c rfl

theorem Adds.sext (c : ExprCtx) (x : ExprId) (w : Nat) : Adds w (ExprCtx.sext x w) c := by
  refine Adds.get ?_
  split_ifs
  · exact Adds.pure c x
  · cases c.asConst x with
    | some bv => exact Adds.int c w _
    | none => exact Adds.intern c rfl

theorem Adds.bin (c : ExprCtx) (op : BvOp) (a b : ExprId) : Adds W (ExprCtx.bin op a b) c := by
  refine Adds.get ?_
  cases c.folded op a b with
  | some v => exact Adds.int c _ v
  | none =>
    cases c.identity op a b with
    | some x => exact Adds.pure c x
    | none =>
      simp only
      split_ifs
      · exact Adds.int c _ 0
      · exact Adds.intern c trivial

theorem Adds.cmp (c : ExprCtx) (op : CmpOp) (a b : ExprId) : Adds W (ExprCtx.cmp op a b) c := by
  refine Adds.get ?_
  have hplain : Adds W (if a = b then
      ExprCtx.boolean (op = .eq ∨ op = .ule ∨ op = .uge ∨ op = .sle ∨ op = .sge)
      else ExprCtx.intern (.cmp op a b) 1) c := by
    split_ifs
    · exact Adds.boolean c _
    · exact Adds.intern c trivial
  cases c.asConst a with
  | none => exact hplain
  | some x =>
    cases c.asConst b with
    | none => exact hplain
    | some y =>
      simp only
      split_ifs
      · exact Adds.boolean c _
      · exact Adds.boolean c _
      · exact Adds.intern c trivial

theorem Adds.not (c : ExprCtx) (x : ExprId) : Adds W (ExprCtx.not x) c := by
  refine Adds.get ?_
  cases c.node x with
  | bool b => exact Adds.boolean c _
  | not inner => exact Adds.pure c inner
  | cmp op a b => exact Adds.cmp c _ a b
  | _ => exact Adds.intern c trivial

theorem Adds.and (c : ExprCtx) (ps : List ExprId) : Adds W (ExprCtx.and ps) c := by
  refine Adds.get ?_
  cases c.flatten true andOperands ps with
  | none => exact Adds.boolean c _
  | some flat =>
    match hs : sortDedup flat with
    | [] => simp only [hs]; exact Adds.boolean c _
    | [x] => simp only [hs]; exact Adds.pure c x
    | x :: y :: zs => simp only [hs]; exact Adds.intern c trivial

theorem Adds.or (c : ExprCtx) (ps : List ExprId) : Adds W (ExprCtx.or ps) c := by
  refine Adds.get ?_
  cases c.flatten false orOperands ps with
  | none => exact Adds.boolean c _
  | some flat =>
    match hs : sortDedup flat with
    | [] => simp only [hs]; exact Adds.boolean c _
    | [x] => simp only [hs]; exact Adds.pure c x
    | x :: y :: zs => simp only [hs]; exact Adds.intern c trivial

theorem Adds.ite (c : ExprCtx) (x t e : ExprId) : Adds W (ExprCtx.ite x t e) c := by
  refine Adds.get ?_
  cases c.asBool x with
  | some b => exact Adds.pure c _
  | none =>
    simp only
    split_ifs
    · exact Adds.pure c t
    · exact Adds.intern c trivial

end

theorem Interns.distinct {c d : ExprCtx} {x : ExprM ExprId} {id : ExprId} (hx : Interns x c)
    (h : c.Distinct) (he : x c = some (id, d)) : d.Distinct := by
  rcases hx id d he with rfl | ⟨n, w, hint⟩
  · exact h
  · exact intern_distinct h hint

theorem Built.distinct {c : ExprCtx} (h : Built c) : c.Distinct := by
  induction h with
  | empty => exact fun i j hi => absurd hi (Nat.not_lt_zero i)
  | constant bv _ he ih => exact (Interns.intern _ _ _).distinct ih he
  | symbol name w _ he ih => exact (Interns.intern _ _ _).distinct ih he
  | boolean b _ he ih => exact (Adds.boolean _ b (W := 0)).interns.distinct ih he
  | zext w _ _ he ih => exact (Adds.zext _ _ w).interns.distinct ih he
  | sext w _ _ he ih => exact (Adds.sext _ _ w).interns.distinct ih he
  | bin op _ _ _ he ih => exact (Adds.bin _ op _ _ (W := 0)).interns.distinct ih he
  | cmp op _ _ _ he ih => exact (Adds.cmp _ op _ _ (W := 0)).interns.distinct ih he
  | not _ _ he ih => exact (Adds.not _ _ (W := 0)).interns.distinct ih he
  | and _ _ he ih => exact (Adds.and _ _ (W := 0)).interns.distinct ih he
  | or _ _ he ih => exact (Adds.or _ _ (W := 0)).interns.distinct ih he
  | ite _ _ _ _ he ih => exact (Adds.ite _ _ _ _ (W := 0)).interns.distinct ih he

/-! ## The law -/

/-- The call returns a handle `w` bits wide whose value is always the extension of `x`'s value. -/
def ExtendsTo (ext : ExprId → Nat → ExprM ExprId) (val : Nat → Nat → Nat → Nat) (c : ExprCtx)
    (x : ExprId) (w : Nat) : Prop :=
  ∃ id d, ext x w c = some (id, d) ∧ d.width id = w ∧
    ∀ ρ, (d.expr id).eval ρ = val (c.width x) w ((c.expr x).eval ρ)

/-- Zero extension does not change the number. -/
def zeroExtend (_ w v : Nat) : Nat := v % 2 ^ w

/-- Nothing stands in the way of extending `x` to `w` bits: a constant is folded, so `w` has to be a
    width of constants; anything else must not have been extended to another width before. -/
def Extensible (mk : ExprId → Node) (c : ExprCtx) (x : ExprId) (w : Nat) : Prop :=
  match c.asConst x with
  | some _ => w ≤ 128
  | none => ∀ i < c.len, c.node i = mk x → c.width i = w

theorem asConst_expr {c : ExprCtx} (h : c.Ok) {x : ExprId} (hx : x < c.len) {bv : BitVector}
    (hb : c.asConst x = some bv) :
    c.width x = bv.width ∧ ∀ ρ, (c.expr x).eval ρ = bv.value := by
  have hn : c.node x = .const bv := by
    unfold asConst at hb
    split at hb
    · rename_i bv' hn
      rw [hn, Option.some.inj hb]
    · exact absurd hb (by simp)
  have hok := h.node hx
  rw [hn] at hok
  refine ⟨hok, fun ρ => ?_⟩
  rw [expr_eq h hx, hn, nodeExpr, Expr.eval, Nat.mod_eq_of_lt bv.value_lt]

theorem int_extends {c : ExprCtx} (h : c.Ok) {w v : Nat} (hw : 0 < w) :
    (∃ id d, int w v c = some (id, d) ∧ d.width id = w ∧ ∀ ρ, (d.expr id).eval ρ = v % 2 ^ w) ↔
      w ≤ 128 := by
  constructor
  · rintro ⟨id, d, he, -⟩
    by_contra hgt
    have hnew : BitVector.new w v = none := dif_neg fun hb => hgt hb.2
    simp [int, hnew, bind, StateT.bind, liftM, monadLift, MonadLift.monadLift, StateT.lift] at he
  · intro hle
    have hnew : BitVector.new w v = some ⟨w, v % 2 ^ w, hw, hle, Nat.mod_lt _ (Nat.two_pow_pos _)⟩ :=
      dif_pos ⟨hw, hle⟩
    have hint : ∀ r, int w v c = r ↔ intern (.const ⟨w, v % 2 ^ w, hw, hle,
        Nat.mod_lt _ (Nat.two_pow_pos _)⟩) w c = r := by
      intro r
      simp [int, hnew, constant, bind, StateT.bind, liftM, monadLift, MonadLift.monadLift,
        StateT.lift]
    obtain ⟨id, d, he⟩ : ∃ id d, int w v c = some (id, d) := by
      rcases intern_cases (.const ⟨w, v % 2 ^ w, hw, hle, Nat.mod_lt _ (Nat.two_pow_pos _)⟩) w c with
        ⟨i, -, -, hi⟩ | ⟨-, hi⟩
      · exact ⟨i, c, (hint _).mpr hi⟩
      · exact ⟨_, _, (hint _).mpr hi⟩
    obtain ⟨hd, -, hid⟩ := int_grows h w v id d he
    have hnode : d.asConst id = some ⟨w, v % 2 ^ w, hw, hle, Nat.mod_lt _ (Nat.two_pow_pos _)⟩ := by
      rcases intern_cases (.const ⟨w, v % 2 ^ w, hw, hle, Nat.mod_lt _ (Nat.two_pow_pos _)⟩) w c with
        ⟨i, -, hn, hi⟩ | ⟨-, hi⟩
      · rw [(hint _).mpr hi, Option.some.injEq, Prod.mk.injEq] at he
        obtain ⟨rfl, rfl⟩ := he
        rw [asConst, hn]
      · rw [(hint _).mpr hi, Option.some.injEq, Prod.mk.injEq] at he
        obtain ⟨rfl, rfl⟩ := he
        have hlast := node_length c.nodes (.const ⟨w, v % 2 ^ w, hw, hle,
          Nat.mod_lt _ (Nat.two_pow_pos _)⟩) w
        rw [asConst, len, hlast]
    obtain ⟨hwid, hev⟩ := asConst_expr hd hid hnode
    exact ⟨id, d, he, hwid, hev⟩

/-- An interned node of kind `mk` has the width asked for exactly when no node of that kind has
    another one. -/
theorem intern_extends {c : ExprCtx} (h : c.Ok) (hdis : c.Distinct) {n : Node} {w : Nat}
    (hn : NodeOk c c.len n w) {f : Valuation → Nat}
    (hf : ∀ (d : ExprCtx) (id : ExprId), d.Ok → id < d.len → d.node id = n → d.width id = w →
      (∀ x < c.len, d.expr x = c.expr x) → ∀ ρ, (d.expr id).eval ρ = f ρ) :
    (∃ id d, intern n w c = some (id, d) ∧ d.width id = w ∧ ∀ ρ, (d.expr id).eval ρ = f ρ) ↔
      ∀ i < c.len, c.node i = n → c.width i = w := by
  rcases intern_cases n w c with ⟨i, hi, hni, hint⟩ | ⟨hnew, hint⟩
  · constructor
    · rintro ⟨id, d, he, hw, -⟩ k hk hnk
      rw [hint, Option.some.injEq, Prod.mk.injEq] at he
      obtain ⟨rfl, rfl⟩ := he
      rw [hdis k i hk hi (hnk.trans hni.symm)]
      exact hw
    · intro hall
      exact ⟨i, c, hint, hall i hi hni, hf c i h hi hni (hall i hi hni) fun _ _ => rfl⟩
  · refine iff_of_true ?_ fun i hi hni => absurd hni (hnew i hi)
    obtain ⟨hd, -, hid⟩ := intern_grows h hn _ _ hint
    have hw := width_length c.nodes n w
    refine ⟨_, _, hint, hw, hf _ _ hd hid (node_length c.nodes n w) hw fun x hx => ?_⟩
    exact expr_append h hd x hx

theorem toU128_signed_mod {bv : BitVector} {w : Nat} (hw : w ≤ 128) :
    toU128 bv.signed % 2 ^ w = signExtend bv.width w bv.value := by
  have hdvd : (2 : Int) ^ w ∣ 2 ^ 128 := pow_dvd_pow 2 hw
  have hnn : 0 ≤ bv.signed % 2 ^ 128 := Int.emod_nonneg _ (by norm_num)
  rw [signExtend, BitVec.signExtend, BitVec.toNat_ofInt, toU128]
  zify
  rw [Int.toNat_of_nonneg hnn, Int.toNat_of_nonneg (Int.emod_nonneg _ (by positivity)),
    Int.emod_emod_of_dvd _ hdvd]
  rfl

theorem zext_of_lt {c : ExprCtx} {x : ExprId} {w : Nat} (hw : c.width x < w) :
    zext x w c = (match c.asConst x with
      | some bv => int w bv.value
      | none => intern (.zext x) w) c :=
  congrFun (if_neg (Nat.not_le.mpr hw)) c

theorem sext_of_lt {c : ExprCtx} {x : ExprId} {w : Nat} (hw : c.width x < w) :
    sext x w c = (match c.asConst x with
      | some bv => int w (toU128 bv.signed)
      | none => intern (.sext x) w) c :=
  congrFun (if_neg (Nat.not_le.mpr hw)) c

theorem zext_extends_iff {c : ExprCtx} (hc : c.Built) {x : ExprId} (hx : x < c.len) {w : Nat}
    (hw : c.width x < w) : ExtendsTo zext zeroExtend c x w ↔ Extensible .zext c x w := by
  have h := hc.ok
  unfold Extensible ExtendsTo
  cases hb : c.asConst x with
  | some bv =>
    obtain ⟨-, hev⟩ := asConst_expr h hx hb
    have hz : zext x w c = int w bv.value c := by
      rw [zext_of_lt hw, hb]
    simp only [hz, hev, zeroExtend]
    exact int_extends h (Nat.zero_lt_of_lt hw)
  | none =>
    have hz : zext x w c = intern (.zext x) w c := by
      rw [zext_of_lt hw, hb]
    simp only [hz]
    have hn : NodeOk c c.len (.zext x) w := ⟨hx, hw⟩
    refine intern_extends h hc.distinct hn fun d id hd hid hn hwid hold ρ => ?_
    rw [expr_eq hd hid, hn, nodeExpr, Expr.eval, hold x hx, hwid]
    rfl

theorem sext_extends_iff {c : ExprCtx} (hc : c.Built) {x : ExprId} (hx : x < c.len) {w : Nat}
    (hw : c.width x < w) : ExtendsTo sext signExtend c x w ↔ Extensible .sext c x w := by
  have h := hc.ok
  unfold Extensible ExtendsTo
  cases hb : c.asConst x with
  | some bv =>
    obtain ⟨hwid, hev⟩ := asConst_expr h hx hb
    have hz : sext x w c = int w (toU128 bv.signed) c := by
      rw [sext_of_lt hw, hb]
    simp only [hz, hev, hwid]
    have hint := int_extends h (v := toU128 bv.signed) (Nat.zero_lt_of_lt hw)
    constructor
    · rintro ⟨id, d, he, -⟩
      by_contra hgt
      have hnew : BitVector.new w (toU128 bv.signed) = none := dif_neg fun hb => hgt hb.2
      simp [int, hnew, bind, StateT.bind, liftM, monadLift, MonadLift.monadLift, StateT.lift] at he
    · intro hle
      obtain ⟨id, d, he, hwd, hev'⟩ := hint.mpr hle
      exact ⟨id, d, he, hwd, fun ρ => (hev' ρ).trans (toU128_signed_mod hle)⟩
  | none =>
    have hz : sext x w c = intern (.sext x) w c := by
      rw [sext_of_lt hw, hb]
    simp only [hz]
    have hn : NodeOk c c.len (.sext x) w := ⟨hx, hw⟩
    refine intern_extends h hc.distinct hn fun d id hd hid hn hwid hold ρ => ?_
    rw [expr_eq hd hid, hn, nodeExpr, Expr.eval, hold x hx, hwid, width_expr h x hx]

/-- Extension is right in every arena a client can build exactly where it is not shadowed. -/
theorem extension_exact_iff {c : ExprCtx} (hc : c.Built) {x : ExprId} (hx : x < c.len) {w : Nat}
    (hw : c.width x < w) :
    (ExtendsTo zext zeroExtend c x w ↔ Extensible .zext c x w) ∧
      (ExtendsTo sext signExtend c x w ↔ Extensible .sext c x w) :=
  ⟨zext_extends_iff hc hx hw, sext_extends_iff hc hx hw⟩

/-- A byte, zero-extended to 16 bits. -/
def byteCtx : ExprCtx := ⟨[(.sym "x" 8, 8), (.zext 0, 16)]⟩

theorem byteCtx_built : byteCtx.Built :=
  .zext (c := ⟨[(.sym "x" 8, 8)]⟩) (x := 0) 16 (.symbol "x" 8 .empty rfl)
    (by decide) rfl

/-- Extending the byte to 16 bits again is right, and sign extension is not in its way. -/
theorem extension_exact_byte :
    ExtendsTo zext zeroExtend byteCtx 0 16 ∧ ExtendsTo sext signExtend byteCtx 0 32 := by
  have hz := (extension_exact_iff byteCtx_built (x := 0) (w := 16) (by decide) (by decide)).1
  have hs := (extension_exact_iff byteCtx_built (x := 0) (w := 32) (by decide) (by decide)).2
  refine ⟨hz.mpr ?_, hs.mpr ?_⟩
  · show ∀ i < 2, byteCtx.node i = .zext 0 → byteCtx.width i = 16
    decide
  · show ∀ i < 2, byteCtx.node i = .sext 0 → byteCtx.width i = 32
    decide

/-- Extending it to 32 bits returns the 16-bit node. -/
theorem zext_wrong_twice :
    byteCtx.Built ∧ byteCtx.width 0 < 32 ∧ ¬ ExtendsTo zext zeroExtend byteCtx 0 32 := by
  refine ⟨byteCtx_built, by decide, ?_⟩
  rintro ⟨id, d, he, hw, -⟩
  have hres : zext 0 32 byteCtx = some (1, byteCtx) := rfl
  rw [hres, Option.some.injEq, Prod.mk.injEq] at he
  obtain ⟨rfl, rfl⟩ := he
  exact absurd hw (by decide)

end Csolver.ExprCtx
