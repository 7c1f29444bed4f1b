import Csolver.Solver.BuildExact
import Csolver.Solver.Widths

/-!
# Chains of builder calls

A goal is built by several calls, one after the other. A call adds nodes and leaves the trees behind old
handles alone, so what is known of a handle when it is returned (`Has`, and `Says` for a condition) is known in
every later arena (`Later`). `Gives` is the rule for such chains.
-/

namespace Csolver.ExprCtx

variable {W : Nat} {c d e : ExprCtx} {ρ : Valuation} {α β : Type}

/-! ## Later arenas -/

/-- `d` is `c` with nodes added, and still an arena that a client can build. The new extensions are to `W` bits. -/
structure Later (W : Nat) (c d : ExprCtx) : Prop where
  built : d.Built
  typed : d.Typed
  added : ∃ ns, d = ⟨c.nodes ++ ns⟩ ∧ ∀ p ∈ ns, ExtendsOnly W p.1 p.2

theorem Later.refl (hc : c.Built) (ht : c.Typed) : Later W c c := ⟨hc, ht, [], by rw [List.append_nil], by simp⟩

theorem Later.trans (h : Later W c d) (h' : Later W d e) : Later W c e := by
  obtain ⟨ns, rfl, hns⟩ := h.added
  obtain ⟨ms, hms, hms'⟩ := h'.added
  refine ⟨h'.built, h'.typed, ns ++ ms, by rw [hms, List.append_assoc], fun p hp => ?_⟩
  rcases List.mem_append.mp hp with hp | hp
  · exact hns p hp
  · exact hms' p hp

theorem Later.len_le (h : Later W c d) : c.len ≤ d.len := by
  obtain ⟨ns, rfl, -⟩ := h.added
  rw [len, len, List.length_append]
  exact Nat.le_add_right _ _

theorem Later.node {x : ExprId} (h : Later W c d) (hx : x < c.len) : d.node x = c.node x := by
  obtain ⟨ns, rfl, -⟩ := h.added
  exact node_append hx

theorem Later.width {x : ExprId} (h : Later W c d) (hx : x < c.len) : d.width x = c.width x := by
  obtain ⟨ns, rfl, -⟩ := h.added
  exact width_append hx

theorem Later.expr {x : ExprId} (hc : c.Built) (h : Later W c d) (hx : x < c.len) : d.expr x = c.expr x := by
  have hd := h.built.ok
  obtain ⟨ns, rfl, -⟩ := h.added
  exact expr_append hc.ok hd x hx

/-! ## What is known of a handle -/

/-- A handle `w` bits wide with the value `f`. -/
structure Has (c : ExprCtx) (x : ExprId) (w : Nat) (f : Valuation → Nat) : Prop where
  lt : x < c.len
  width : c.width x = w
  value : ∀ ρ, (c.expr x).eval ρ = f ρ

/-- A bit that stands for the condition `p`. -/
structure Says (c : ExprCtx) (x : ExprId) (p : Valuation → Prop) : Prop where
  lt : x < c.len
  width : c.width x = 1
  holds : ∀ ρ, (c.expr x).Holds ρ ↔ p ρ

theorem Later.has {x : ExprId} {w : Nat} {f : Valuation → Nat} (hc : c.Built) (h : Later W c d) (hx : c.Has x w f) :
    d.Has x w f where
  lt := Nat.lt_of_lt_of_le hx.lt h.len_le
  width := (h.width hx.lt).trans hx.width
  value := by rw [h.expr hc hx.lt]; exact hx.value

theorem Later.meaning {x : ExprId} {p : Valuation → Prop} (hc : c.Built) (h : Later W c d) (hx : c.Says x p) : d.Says x p where
  lt := Nat.lt_of_lt_of_le hx.lt h.len_le
  width := (h.width hx.lt).trans hx.width
  holds := by rw [h.expr hc hx.lt]; exact hx.holds

theorem Has.congr {x : ExprId} {w : Nat} {f g : Valuation → Nat} (h : c.Has x w f) (hfg : ∀ ρ, f ρ = g ρ) : c.Has x w g :=
  ⟨h.lt, h.width, fun ρ => (h.value ρ).trans (hfg ρ)⟩

theorem Says.congr {x : ExprId} {p q : Valuation → Prop} (h : c.Says x p) (hpq : ∀ ρ, p ρ ↔ q ρ) : c.Says x q :=
  ⟨h.lt, h.width, fun ρ => (h.holds ρ).trans (hpq ρ)⟩

theorem has_self {x : ExprId} (hx : x < c.len) : c.Has x (c.width x) fun ρ => (c.expr x).eval ρ := ⟨hx, rfl, fun _ => rfl⟩

open Classical in
theorem Says.value {x : ExprId} {p : Valuation → Prop} (hc : c.Built) (ht : c.Typed) (h : c.Says x p) (ρ : Valuation) :
    (c.expr x).eval ρ = if p ρ then 1 else 0 := by
  rw [eval_bool hc.ok ht h.lt h.width]
  simp only [h.holds ρ]

theorem Has.value_lt {x : ExprId} {w : Nat} {f : Valuation → Nat} (hc : c.Built) (ht : c.Typed) (h : c.Has x w f)
    (ρ : Valuation) : f ρ < 2 ^ w := by
  rw [← h.value ρ, ← h.width]
  exact eval_lt_width hc.ok ht x h.lt

/-! ## Chains -/

/-- Run on `c`, the calls succeed, only add nodes, and return what `q` says. -/
def Gives (W : Nat) (x : ExprM α) (c : ExprCtx) (q : α → ExprCtx → Prop) : Prop :=
  ∃ a d, x c = some (a, d) ∧ Later W c d ∧ q a d

theorem Gives.pure {q : α → ExprCtx → Prop} {a : α} (hc : c.Built) (ht : c.Typed) (hq : q a c) :
    Gives W (Pure.pure a) c q := ⟨a, c, rfl, .refl hc ht, hq⟩

theorem Gives.bind {x : ExprM α} {f : α → ExprM β} {q : α → ExprCtx → Prop} {r : β → ExprCtx → Prop}
    (h : Gives W x c q) (hf : ∀ a d, Later W c d → q a d → Gives W (f a) d r) : Gives W (x >>= f) c r := by
  obtain ⟨a, d, hx, hl, hq⟩ := h
  obtain ⟨b, e, hfe, hle, hr⟩ := hf a d hl hq
  refine ⟨b, e, ?_, hl.trans hle, hr⟩
  simp only [Bind.bind, StateT.bind, hx]
  exact hfe

theorem Gives.get {f : ExprCtx → ExprM β} {q : β → ExprCtx → Prop} (h : Gives W (f c) c q) :
    Gives W (MonadState.get >>= f) c q := h

theorem Gives.mono {x : ExprM α} {q r : α → ExprCtx → Prop} (h : Gives W x c q) (hqr : ∀ a d, Later W c d → q a d → r a d) :
    Gives W x c r := by
  obtain ⟨a, d, hx, hl, hq⟩ := h
  exact ⟨a, d, hx, hl, hqr a d hl hq⟩

theorem Gives.with_run {x : ExprM α} {q : α → ExprCtx → Prop} (h : Gives W x c q) :
    Gives W x c fun a d => q a d ∧ x c = some (a, d) := by
  obtain ⟨a, d, hx, hl, hq⟩ := h
  exact ⟨a, d, hx, hl, hq, hx⟩

theorem Gives.of_run {x : ExprM α} {q : α → ExprCtx → Prop} {a : α} (h : Gives W x c q) (hx : x c = some (a, d)) : q a d := by
  obtain ⟨a', d', hx', -, hq⟩ := h
  obtain ⟨rfl, rfl⟩ := Prod.mk.inj (Option.some.inj (hx'.symm.trans hx))
  exact hq

theorem Gives.lift {o : Option α} {a : α} {f : α → ExprM β} {q : β → ExprCtx → Prop} (ho : o = some a)
    (h : Gives W (f a) c q) : Gives W ((liftM o : ExprM α) >>= f) c q := by
  obtain ⟨b, d, hb, hl, hq⟩ := h
  refine ⟨b, d, ?_, hl, hq⟩
  rw [← hb, ho]
  rfl

theorem Adds.added {x : ExprM ExprId} {id : ExprId} (ha : Adds W x c) (he : x c = some (id, d)) :
    ∃ ns, d = ⟨c.nodes ++ ns⟩ ∧ ∀ p ∈ ns, ExtendsOnly W p.1 p.2 := by
  have hnone : ∃ ns, c = ⟨c.nodes ++ ns⟩ ∧ ∀ p ∈ ns, ExtendsOnly W p.1 p.2 :=
    ⟨[], by rw [List.append_nil], by simp⟩
  rcases ha id d he with rfl | ⟨n, w, hn, hint⟩
  · exact hnone
  · rcases intern_cases n w c with ⟨_, _, _, hold⟩ | ⟨_, hnew⟩
    · rw [hold, Option.some.injEq, Prod.mk.injEq] at hint
      exact hint.2 ▸ hnone
    · rw [hnew, Option.some.injEq, Prod.mk.injEq] at hint
      exact ⟨[(n, w)], hint.2.symm, fun p hp => List.mem_singleton.mp hp ▸ hn⟩

theorem Yields.gives {x : ExprM ExprId} {w : Nat} {t : Expr} (h : Yields x c w t) (ha : Adds W x c) (hg : Grows x c)
    (hb : ∀ id d, x c = some (id, d) → d.Built) : Gives W x c fun id d => d.Has id w fun ρ => t.eval ρ := by
  obtain ⟨id, d, he, htyped, hw, hev⟩ := h
  exact ⟨id, d, he, ⟨hb id d he, htyped, ha.added he⟩, (hg id d he).2.2, hw, hev⟩

/-! ## One call -/

theorem intern_node {n : Node} {w : Nat} {id : ExprId} (h : intern n w c = some (id, d)) : d.node id = n := by
  rcases intern_cases n w c with ⟨i, -, hn, hi⟩ | ⟨-, hi⟩
  · obtain ⟨rfl, rfl⟩ := Prod.mk.inj (Option.some.inj (hi.symm.trans h))
    exact hn
  · obtain ⟨rfl, rfl⟩ := Prod.mk.inj (Option.some.inj (hi.symm.trans h))
    exact node_length c.nodes n w

def constValue (c : ExprCtx) (x : ExprId) : Option Nat := (c.asConst x).map BitVector.value

theorem Later.constValue {x : ExprId} (h : Later W c d) (hx : x < c.len) : d.constValue x = c.constValue x := by
  rw [ExprCtx.constValue, ExprCtx.constValue, asConst, asConst, h.node hx]

theorem constValue_eq_none {x : ExprId} : c.constValue x = none ↔ c.asConst x = none := Option.map_eq_none_iff

theorem Has.const {x : ExprId} {w v : Nat} {f : Valuation → Nat} (hc : c.Built) (h : c.Has x w f)
    (hv : c.constValue x = some v) (ρ : Valuation) : f ρ = v := by
  obtain ⟨bv, hbv, rfl⟩ := Option.map_eq_some_iff.mp hv
  rw [← h.value, (asConst_expr hc.ok h.lt hbv).2]

theorem int_gives (hc : c.Built) (ht : c.Typed) {w v : Nat} (hw : 0 < w) (hle : w ≤ 128) :
    Gives W (int w v) c fun id d => d.Has id w (fun _ => v % 2 ^ w) ∧ d.constValue id = some (v % 2 ^ w) := by
  -- a constant of a width in range is built by `constant`
  let bv : BitVector := ⟨w, v % 2 ^ w, hw, hle, Nat.mod_lt _ (Nat.two_pow_pos _)⟩
  have hnew : BitVector.new w v = some bv := dif_pos ⟨hw, hle⟩
  have hint : int w v c = constant bv c := by
    simp [int, hnew, bind, StateT.bind, liftM, monadLift, MonadLift.monadLift, StateT.lift]
  obtain ⟨id, d, he, hl, h⟩ := (Yields.int hc ht hw hle).gives (W := W) (.int c w v) (int_grows hc.ok w v)
    fun id d he => .constant bv hc (hint ▸ he)
  refine ⟨id, d, he, hl, h.congr fun ρ => Expr.eval_int w v, ?_⟩
  rw [hint] at he
  rw [constValue, asConst, intern_node he]
  rfl

theorem bin_gives (hc : c.Built) (ht : c.Typed) (op : BvOp) {a b : ExprId} {w : Nat} {f g : Valuation → Nat}
    (ha : c.Has a w f) (hb : c.Has b w g) (hw : 0 < w) (hle : w ≤ 128) :
    Gives W (bin op a b) c fun id d => d.Has id w fun ρ => op.eval w (f ρ) (g ρ) := by
  have hy := bin_yields hc ht op ha.lt hb.lt (ha.width.trans hb.width.symm) (ha.width ▸ hw) (ha.width ▸ hle)
  rw [ha.width] at hy
  refine (hy.gives (.bin c op a b) (bin_grows hc.ok op ha.lt hb.lt) fun id d => .bin op hc ha.lt hb.lt).mono
    fun id d _ h => h.congr fun ρ => ?_
  rw [Expr.eval, width_expr hc.ok a ha.lt, ha.width, ha.value, hb.value]

theorem cmp_gives (hc : c.Built) (ht : c.Typed) (op : CmpOp) {a b : ExprId} {w v : Nat} {f g : Valuation → Nat}
    (ha : c.Has a w f) (hb : c.Has b v g) :
    Gives W (cmp op a b) c fun id d => d.Says id fun ρ => op.eval w (f ρ) (g ρ) = true := by
  refine ((cmp_yields hc ht op ha.lt hb.lt).gives (.cmp c op a b) (cmp_grows hc.ok op ha.lt hb.lt)
    fun id d => .cmp op hc ha.lt hb.lt).mono fun id d _ h => ⟨h.lt, h.width, fun ρ => ?_⟩
  rw [Expr.Holds, h.value, ← Expr.Holds, Expr.holds_cmp, width_expr hc.ok a ha.lt, ha.width, ha.value, hb.value]

theorem iff_gives (hc : c.Built) (ht : c.Typed) {a b : ExprId} {p q : Valuation → Prop} (ha : c.Says a p) (hb : c.Says b q) :
    Gives W (cmp .eq a b) c fun id d => d.Says id fun ρ => p ρ ↔ q ρ := by
  have ha' : c.Has a 1 fun ρ => (c.expr a).eval ρ := ⟨ha.lt, ha.width, fun _ => rfl⟩
  have hb' : c.Has b 1 fun ρ => (c.expr b).eval ρ := ⟨hb.lt, hb.width, fun _ => rfl⟩
  refine (cmp_gives hc ht .eq ha' hb').mono fun id d _ h => h.congr fun ρ => ?_
  simp only [ha.value hc ht, hb.value hc ht]
  by_cases hp : p ρ <;> by_cases hq : q ρ <;> simp [hp, hq, CmpOp.eval, CmpOp.evalBv]

theorem not_gives (hc : c.Built) (ht : c.Typed) {a : ExprId} {p : Valuation → Prop} (ha : c.Says a p) :
    Gives W (not a) c fun id d => d.Says id fun ρ => ¬ p ρ := by
  refine ((not_yields hc ht ha.lt ha.width).gives (.not c a) (not_grows hc.ok ha.lt)
    fun id d => .not hc ha.lt).mono fun id d _ h => ⟨h.lt, h.width, fun ρ => ?_⟩
  rw [Expr.Holds, h.value, ← Expr.Holds, Expr.holds_not, ha.holds]

theorem and_gives (hc : c.Built) (ht : c.Typed) {a b : ExprId} {p q : Valuation → Prop} (ha : c.Says a p) (hb : c.Says b q) :
    Gives W (and [a, b]) c fun id d => d.Says id fun ρ => p ρ ∧ q ρ := by
  have hps : ∀ x ∈ [a, b], x < c.len ∧ c.width x = 1 := by
    intro x hx
    rcases List.mem_pair.mp hx with rfl | rfl
    · exact ⟨ha.lt, ha.width⟩
    · exact ⟨hb.lt, hb.width⟩
  refine ((and_yields hc ht hps).gives (.and c _) (and_grows hc.ok fun x hx => (hps x hx).1)
    fun id d => .and hc fun x hx => (hps x hx).1).mono fun id d _ h => ⟨h.lt, h.width, fun ρ => ?_⟩
  rw [Expr.Holds, h.value, ← Expr.Holds, holds_and_map]
  simp only [List.forall_mem_cons, List.not_mem_nil, IsEmpty.forall_iff, implies_true, and_true, ha.holds, hb.holds]

/-! ## Extensions -/

/-- The width of the extension of `x` to `w` bits: the one at which the arena holds such a node, if it does. -/
def extWidth (mk : ExprId → Node) (c : ExprCtx) (x : ExprId) (w : Nat) : Nat :=
  match c.asConst x with
  | some _ => w
  | none =>
    match c.nodes.find? fun p => p.1 = mk x with
    | some p => p.2
    | none => w

theorem find_spec (c : ExprCtx) (n : Node) :
    (∃ i < c.len, c.node i = n ∧ ∃ p, c.nodes.find? (fun p => p.1 = n) = some p ∧ p.2 = c.width i) ∨
      ((∀ i < c.len, c.node i ≠ n) ∧ c.nodes.find? (fun p => p.1 = n) = none) := by
  cases hf : c.nodes.find? fun p => p.1 = n with
  | none =>
    refine .inr ⟨fun i hi he => ?_, rfl⟩
    have hnone := List.find?_eq_none.mp hf (c.nodes[i]) (List.getElem_mem hi)
    rw [node, List.getD_eq_getElem?_getD, List.getElem?_eq_getElem hi] at he
    exact hnone (decide_eq_true he)
  | some p =>
    obtain ⟨hp, as, bs, hsplit, -⟩ := List.find?_eq_some_iff_append.mp hf
    have hi : as.length < c.len := by rw [len, hsplit, List.length_append, List.length_cons]; omega
    have hget : c.nodes.getD as.length (.bool false, 1) = p := by
      rw [hsplit, List.getD_eq_getElem?_getD, List.getElem?_append_right (Nat.le_refl _), Nat.sub_self]
      rfl
    refine .inl ⟨as.length, hi, ?_, p, rfl, ?_⟩
    · rw [node, hget]
      exact of_decide_eq_true hp
    · rw [width, hget]

theorem extWidth_of_const {mk : ExprId → Node} {x w : Nat} {bv : BitVector} (h : c.asConst x = some bv) :
    extWidth mk c x w = w := by rw [extWidth, h]

theorem extWidth_of_node {mk : ExprId → Node} {x i w : Nat} (hd : c.Distinct) (h : c.asConst x = none) (hi : i < c.len)
    (hn : c.node i = mk x) : extWidth mk c x w = c.width i := by
  rw [extWidth, h]
  rcases find_spec c (mk x) with ⟨j, hj, hnj, p, hp, hw⟩ | ⟨hnone, -⟩
  · simp only [hp]
    rw [hw, hd j i hj hi (hnj.trans hn.symm)]
  · exact absurd hn (hnone i hi)

theorem extWidth_of_none {mk : ExprId → Node} {x w : Nat} (h : ∀ i < c.len, c.node i ≠ mk x) : extWidth mk c x w = w := by
  rw [extWidth]
  split
  · rfl
  · rcases find_spec c (mk x) with ⟨j, hj, hnj, -⟩ | ⟨-, hp⟩
    · exact absurd hnj (h j hj)
    · rw [hp]

/-- A kind of extension node: its width is above that of its operand. -/
structure Extension (mk : ExprId → Node) : Prop where
  child : ∀ (c : ExprCtx) (x i w : Nat), NodeOk c i (mk x) w → x < i
  widens : ∀ (c : ExprCtx) (x i w : Nat), NodeOk c i (mk x) w → c.width x < w
  only : ∀ (V : Nat) (x : ExprId) (w : Nat), ExtendsOnly V (mk x) w ↔ w = V

theorem extension_zext : Extension .zext := ⟨fun _ _ _ _ h => h.1, fun _ _ _ _ h => h.2, fun _ _ _ => Iff.rfl⟩

theorem extension_sext : Extension .sext := ⟨fun _ _ _ _ h => h.1, fun _ _ _ _ h => h.2, fun _ _ _ => Iff.rfl⟩

theorem lt_extWidth {mk : ExprId → Node} (hmk : Extension mk) (hc : c.Built) {x w : Nat} (hx : c.width x < w) :
    c.width x < extWidth mk c x w := by
  rw [extWidth]
  split
  · exact hx
  · rcases find_spec c (mk x) with ⟨j, hj, hnj, p, hp, hw⟩ | ⟨-, hp⟩
    · have hok := hc.ok.node hj
      rw [hnj] at hok
      simp only [hp]
      rw [hw]
      exact hmk.widens c x j _ hok
    · rw [hp]
      exact hx

theorem intern_ext_gives {mk : ExprId → Node} {x v : Nat} (hmk : Extension mk) (hc : c.Built) (ht : c.Typed)
    (hx : c.asConst x = none) (hn : NodeOk c c.len (mk x) W) (hnt : c.NodeTyped (mk x)) (hv : extWidth mk c x W = v)
    {f : Valuation → Nat} (hb : ∀ id d, ExprCtx.intern (mk x) W c = some (id, d) → d.Built)
    (hf : ∀ (d : ExprCtx) (id : ExprId), Later W c d → id < d.len → d.node id = mk x → d.width id = v →
      (∀ ρ, (d.expr id).eval ρ = f ρ) ∧ d.constValue id = none) :
    Gives W (ExprCtx.intern (mk x) W) c fun id d => d.Has id v f ∧ d.constValue id = none := by
  rcases intern_cases (mk x) W c with ⟨i, hi, hni, hint⟩ | ⟨hnew, hint⟩
  · have hwi : c.width i = v := by rw [← hv, extWidth_of_node hc.distinct hx hi hni]
    obtain ⟨hval, hconst⟩ := hf c i (.refl hc ht) hi hni hwi
    exact ⟨i, c, hint, .refl hc ht, ⟨hi, hwi, hval⟩, hconst⟩
  · have hwv : W = v := by rw [← hv, extWidth_of_none hnew]
    have hl : Later W c ⟨c.nodes ++ [(mk x, W)]⟩ := by
      refine ⟨hb _ _ hint, intern_typed hc.ok ht hn hnt hint, _, rfl, fun p hp => ?_⟩
      rw [List.mem_singleton.mp hp]
      exact (hmk.only W x W).mpr rfl
    have hlt : c.len < (⟨c.nodes ++ [(mk x, W)]⟩ : ExprCtx).len := by simp [len]
    have hwid : (⟨c.nodes ++ [(mk x, W)]⟩ : ExprCtx).width c.len = v := (width_length c.nodes _ W).trans hwv
    obtain ⟨hval, hconst⟩ := hf _ _ hl hlt (node_length c.nodes _ W) hwid
    exact ⟨c.len, _, hint, hl, ⟨hlt, hwid, hval⟩, hconst⟩

theorem zext_gives (hc : c.Built) (ht : c.Typed) {x : ExprId} {n v : Nat} {f : Valuation → Nat} (hx : c.Has x n f)
    (hw : n < W) (hle : W ≤ 128) (hv : extWidth .zext c x W = v) :
    Gives W (zext x W) c fun id d => d.Has id v (fun ρ => zeroExtend n v (f ρ)) ∧
      d.constValue id = (c.constValue x).map (zeroExtend n W) := by
  have hlt : c.width x < W := hx.width ▸ hw
  have hrun := zext_of_lt hlt
  cases hb : c.asConst x with
  | some bv =>
    rw [hb] at hrun
    obtain rfl : W = v := (extWidth_of_const hb).symm.trans hv
    obtain ⟨id, d, he, hl, hid, hconst⟩ := int_gives hc ht (v := bv.value) (Nat.zero_lt_of_lt hw) hle
    refine ⟨id, d, hrun.trans he, hl, hid.congr fun ρ => ?_, ?_⟩
    · rw [← (asConst_expr hc.ok hx.lt hb).2 ρ, hx.value]
      rfl
    · rw [hconst, constValue, hb]
      rfl
  | none =>
    rw [hb] at hrun
    obtain ⟨id, d, he, hl, hid, hconst⟩ := intern_ext_gives extension_zext hc ht hb ⟨hx.lt, hlt⟩ trivial hv
      (f := fun ρ => zeroExtend n v (f ρ)) (fun id d he => .zext W hc hx.lt (hrun.trans he)) fun d id hl hid hn hwid => by
        refine ⟨fun ρ => ?_, by rw [constValue, asConst, hn]; rfl⟩
        rw [expr_eq hl.built.ok hid, hn, nodeExpr, Expr.eval, hwid, hl.expr hc hx.lt, hx.value]
        rfl
    refine ⟨id, d, hrun.trans he, hl, hid, ?_⟩
    rw [hconst, constValue, hb]
    rfl

theorem sext_gives (hc : c.Built) (ht : c.Typed) {x : ExprId} {n v : Nat} {f : Valuation → Nat} (hx : c.Has x n f)
    (hw : n < W) (hle : W ≤ 128) (hv : extWidth .sext c x W = v) :
    Gives W (sext x W) c fun id d => d.Has id v (fun ρ => signExtend n v (f ρ)) ∧
      d.constValue id = (c.constValue x).map (signExtend n W) := by
  have hlt : c.width x < W := hx.width ▸ hw
  have hrun := sext_of_lt hlt
  cases hb : c.asConst x with
  | some bv =>
    rw [hb] at hrun
    obtain rfl : W = v := (extWidth_of_const hb).symm.trans hv
    obtain ⟨hwid, hev⟩ := asConst_expr hc.ok hx.lt hb
    obtain ⟨id, d, he, hl, hid, hconst⟩ := int_gives hc ht (v := toU128 bv.signed) (Nat.zero_lt_of_lt hw) hle
    have hn : bv.width = n := hwid.symm.trans hx.width
    refine ⟨id, d, hrun.trans he, hl, hid.congr fun ρ => ?_, ?_⟩
    · rw [toU128_signed_mod hle, ← hev ρ, hx.value, hn]
    · rw [hconst, constValue, hb, toU128_signed_mod hle, hn]
      rfl
  | none =>
    rw [hb] at hrun
    obtain ⟨id, d, he, hl, hid, hconst⟩ := intern_ext_gives extension_sext hc ht hb ⟨hx.lt, hlt⟩ trivial hv
      (f := fun ρ => signExtend n v (f ρ)) (fun id d he => .sext W hc hx.lt (hrun.trans he)) fun d id hl hid hn hwid => by
        refine ⟨fun ρ => ?_, by rw [constValue, asConst, hn]; rfl⟩
        rw [expr_eq hl.built.ok hid, hn, nodeExpr, Expr.eval, hwid, hl.expr hc hx.lt, hx.value,
          width_expr hc.ok x hx.lt, hx.width]
    refine ⟨id, d, hrun.trans he, hl, hid, ?_⟩
    rw [hconst, constValue, hb]
    rfl

theorem Later.extWidth {mk : ExprId → Node} {x : ExprId} (hmk : Extension mk) (h : Later W c d) (hx : x < c.len) :
    ExprCtx.extWidth mk d x W = ExprCtx.extWidth mk c x W := by
  have hconst : d.asConst x = c.asConst x := by rw [asConst, asConst, h.node hx]
  obtain ⟨ns, rfl, hns⟩ := h.added
  rw [ExprCtx.extWidth, ExprCtx.extWidth, hconst]
  cases c.asConst x with
  | some bv => rfl
  | none =>
    simp only [List.find?_append]
    cases hf : c.nodes.find? fun p => p.1 = mk x with
    | some p => rfl
    | none =>
      cases hg : ns.find? fun p => p.1 = mk x with
      | none => rfl
      | some p =>
        have hp : p.1 = mk x := by simpa using List.find?_some hg
        have honly := hns p (List.mem_of_find?_eq_some hg)
        rw [hp, hmk.only] at honly
        exact honly

theorem Later.extWidth_new {mk : ExprId → Node} {x : ExprId} (hmk : Extension mk) (hc : c.Built) (h : Later W c d)
    (hx : c.len ≤ x) : ExprCtx.extWidth mk d x W = W := by
  obtain ⟨ns, rfl, hns⟩ := h.added
  rw [ExprCtx.extWidth]
  split
  · rfl
  · have hold : c.nodes.find? (fun p => p.1 = mk x) = none := by
      rcases find_spec c (mk x) with ⟨i, hi, hni, -⟩ | ⟨-, hnone⟩
      · have hok := hc.ok.node hi
        rw [hni] at hok
        exact absurd (hmk.child c x i _ hok) (by omega)
      · exact hnone
    rw [List.find?_append, hold]
    cases hg : ns.find? fun p => p.1 = mk x with
    | none => rfl
    | some p =>
      have hp : p.1 = mk x := by simpa using List.find?_some hg
      have honly := hns p (List.mem_of_find?_eq_some hg)
      rw [hp, hmk.only] at honly
      exact honly

/-! ## Products of operands of different widths -/

theorem identity_mul {a b x : ExprId} {v u : Nat} {f g : Valuation → Nat} (hc : c.Built) (ht : c.Typed) (ha : c.Has a v f)
    (hb : c.Has b u g) (hi : c.identity .mul a b = some x) : (c.expr x).eval ρ = f ρ * g ρ := by
  have hident : Expr.identity .mul (c.expr a) (c.expr b) = some (c.expr x) := by
    rw [identity_eq_expr hc.ok .mul ha.lt hb.lt, hi]
    rfl
  have hxlt : (c.expr x).eval ρ < 2 ^ (v + u) := by
    rcases identity_mem hi with rfl | rfl
    · rw [ha.value]
      exact lt_of_lt_of_le (ha.value_lt hc ht ρ) (Nat.pow_le_pow_right (by decide) (Nat.le_add_right _ _))
    · rw [hb.value]
      exact lt_of_lt_of_le (hb.value_lt hc ht ρ) (Nat.pow_le_pow_right (by decide) (Nat.le_add_left _ _))
  have hlt : f ρ * g ρ < 2 ^ (v + u) := by
    rw [Nat.pow_add]
    exact Nat.mul_lt_mul'' (ha.value_lt hc ht ρ) (hb.value_lt hc ht ρ)
  have h := Expr.identity_eval (ρ := ρ) hident (v + u)
  rwa [BvOp.mul_eval, ha.value, hb.value, Nat.mod_eq_of_lt hxlt, Nat.mod_eq_of_lt hlt] at h

/-- An identity of multiplication returns the right operand for a zero there, or for a one on the left. -/
theorem identity_mul_cases {a b x : ExprId} (hi : c.identity .mul a b = some x) :
    x = a ∨ x = b ∧ (c.constValue b = some 0 ∨ c.constValue a = some 1) := by
  rcases identity_mem hi with h | h
  · exact .inl h
  · by_cases hab : a = b
    · exact .inl (h.trans hab.symm)
    · refine .inr ⟨h, ?_⟩
      subst h
      simp only [identity] at hi
      split_ifs at hi <;> simp_all [constValue]

theorem folded_widths {op : BvOp} {a b : ExprId} {z : Nat} (hc : c.Built) (ha : a < c.len) (hb : b < c.len)
    (hf : c.folded op a b = some z) : c.width a = c.width b ∧ 0 < c.width a ∧ c.width a ≤ 128 := by
  rw [folded] at hf
  split at hf
  · rename_i x y hx hy
    have hwx := (asConst_expr hc.ok ha hx).1
    have hwy := (asConst_expr hc.ok hb hy).1
    split_ifs at hf with hw
    exact ⟨hwx.trans (hw.trans hwy.symm), hwx ▸ x.width_pos, hwx ▸ x.width_le⟩
  · exact absurd hf (by simp)

/-- `bin` on a product, by what folding and the identities find. -/
def mulNode (c : ExprCtx) (a b : ExprId) (folded : Option Nat) (identity : Option ExprId) : ExprM ExprId :=
  match folded with
  | some v => int (c.width a) v
  | none =>
    match identity with
    | some x => Pure.pure x
    | none => if BvOp.mul = .sub ∧ a = b then int (c.width a) 0 else intern (.bin .mul a b) (c.width a)

theorem bin_mul_of_folded_some {a b : ExprId} {z : Nat} (hf : c.folded .mul a b = some z) :
    bin .mul a b c = int (c.width a) z c := by
  change mulNode c a b (c.folded .mul a b) (c.identity .mul a b) c = _
  rw [hf]
  rfl

theorem bin_mul_of_folded {a b : ExprId} (hf : c.folded .mul a b = none) :
    bin .mul a b c = ((c.identity .mul a b).elim (intern (.bin .mul a b) (c.width a)) Pure.pure : ExprM ExprId) c := by
  change mulNode c a b (c.folded .mul a b) (c.identity .mul a b) c = _
  rw [hf]
  cases c.identity .mul a b <;> rfl

theorem mul_gives (hc : c.Built) (ht : c.Typed) {a b : ExprId} {v u : Nat} {f g : Valuation → Nat}
    (ha : c.Has a v f) (hb : c.Has b u g) :
    Gives W (bin .mul a b) c fun id d =>
      ∃ k, d.Has id k (fun ρ => if c.constValue a = some 1 then g ρ else f ρ * g ρ % 2 ^ v) ∧
        (c.constValue a = none → c.constValue b ≠ some 0 → k = v ∧ d.constValue id = none) := by
  have hone : c.constValue a = some 1 → ∀ ρ, f ρ = 1 := fun h ρ => ha.const hc h ρ
  cases hfold : c.folded .mul a b with
  | some z =>
    -- two constants of one width
    obtain ⟨hvu, hv, hle⟩ := folded_widths hc ha.lt hb.lt hfold
    rw [ha.width] at hvu hv hle
    replace hvu := hvu.trans hb.width
    subst hvu
    have hconst : c.constValue a ≠ none := by
      intro hna
      rw [folded, constValue_eq_none.mp hna] at hfold
      exact absurd hfold (by simp)
    refine (bin_gives hc ht .mul ha hb hv hle).mono fun id d _ h => ⟨v, h.congr fun ρ => ?_, fun hna => absurd hna hconst⟩
    rw [BvOp.mul_eval]
    split_ifs with h1
    · rw [hone h1, Nat.one_mul, Nat.mod_eq_of_lt (hb.value_lt hc ht ρ)]
    · rfl
  | none =>
    have hrun := bin_mul_of_folded hfold
    have hbuilt : ∀ id d, bin .mul a b c = some (id, d) → d.Built := fun id d => .bin .mul hc ha.lt hb.lt
    unfold Gives
    rw [hrun] at hbuilt ⊢
    cases hi : c.identity .mul a b with
    | none =>
      rw [hi] at hbuilt
      have hn : NodeOk c c.len (.bin .mul a b) (c.width a) := ⟨ha.lt, hb.lt, rfl⟩
      refine ((Yields.intern hc ht hn trivial (fun _ => Node.noConfusion) fun _ => Node.noConfusion).gives
        (.intern c trivial) (intern_grows hc.ok hn) hbuilt).with_run.mono fun id d _ hpair => ?_
      obtain ⟨h, he⟩ := hpair
      refine ⟨v, ?_, fun _ _ => ⟨rfl, ?_⟩⟩
      swap
      · rw [constValue, asConst, intern_node he]
        rfl
      rw [ha.width] at h
      refine h.congr fun ρ => ?_
      have hnot : c.constValue a ≠ some 1 := by
        intro h1
        obtain ⟨bv, hbv, hval⟩ := Option.map_eq_some_iff.mp h1
        simp only [identity, hbv, Option.map_some, hval] at hi
        split_ifs at hi <;> simp_all
      rw [if_neg hnot, nodeExpr, Expr.eval, width_expr hc.ok a ha.lt, ha.width, ha.value, hb.value, BvOp.mul_eval]
    | some x =>
      have hval : ∀ ρ, (c.expr x).eval ρ = f ρ * g ρ := fun ρ => identity_mul hc ht ha hb hi
      have hx := identity_mul_cases hi
      have hlt : x < c.len := by
        rcases identity_mem hi with rfl | rfl
        · exact ha.lt
        · exact hb.lt
      refine ⟨x, c, rfl, .refl hc ht, c.width x, ⟨hlt, rfl, fun ρ => ?_⟩, fun hna hnb => ?_⟩
      · rw [hval]
        split_ifs with h1
        · rw [hone h1, Nat.one_mul]
        · symm
          apply Nat.mod_eq_of_lt
          rw [← hval]
          rcases hx with rfl | ⟨rfl, h0 | h0⟩
          · rw [ha.value]
            exact ha.value_lt hc ht ρ
          · rw [hb.value, hb.const hc h0]
            exact Nat.two_pow_pos _
          · exact absurd h0 h1
      · rcases hx with rfl | ⟨rfl, h0 | h0⟩
        · exact ⟨ha.width, hna⟩
        · exact absurd h0 hnb
        · exact absurd h0 (by rw [hna]; exact Option.some_ne_none 1 ∘ Eq.symm)

end Csolver.ExprCtx
