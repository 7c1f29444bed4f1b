import Csolver.Solver.Blaster

/-!
# Bit-blasting is exact

The invariant of a blaster (`Good`) says what its memo means and that *every* valuation of the
symbols met so far is realised by a solution of the clauses. `Enc` is the triple for `BlastM`; it
speaks about failed runs too, since they leave clauses behind. `encodeFuel_enc` is the induction: a
handle's children are below it, so the fuel that suffices for it suffices for them.
-/

namespace Csolver

open Sat

namespace ExprCtx

/-! ## Trees behind handles -/

theorem exprFuel_eq {c : ExprCtx} (h : c.Ok) (id : ExprId) :
    ∀ f g, id < c.len → id < f → id < g → exprFuel c f id = exprFuel c g id := by
  induction id using Nat.strong_induction_on with
  | _ id ih =>
    intro f g hid hf hg
    match f, g, hf, hg with
    | f + 1, g + 1, hf, hg =>
      have hok := h.node hid
      have hrec : ∀ x, x < id → exprFuel c f x = exprFuel c g x := fun x hx =>
        ih x hx f g (Nat.lt_trans hx hid) (Nat.lt_of_lt_of_le hx (Nat.lt_succ_iff.mp hf))
          (Nat.lt_of_lt_of_le hx (Nat.lt_succ_iff.mp hg))
      rw [exprFuel, exprFuel]
      cases hn : c.node id with
      | const bv => rfl
      | sym name w => rfl
      | bool b => rfl
      | bin op a b => rw [hn] at hok; simp only [hrec a hok.1, hrec b hok.2.1]
      | cmp op a b => rw [hn] at hok; simp only [hrec a hok.1, hrec b hok.2.1]
      | not x => rw [hn] at hok; simp only [hrec x hok.1]
      | and xs =>
        rw [hn] at hok
        simp only [List.map_congr_left fun x hx => hrec x (hok.1 x hx)]
      | or xs =>
        rw [hn] at hok
        simp only [List.map_congr_left fun x hx => hrec x (hok.1 x hx)]
      | ite x t e => rw [hn] at hok; simp only [hrec x hok.1, hrec t hok.2.1, hrec e hok.2.2.1]
      | zext x => rw [hn] at hok; simp only [hrec x hok.1]
      | sext x => rw [hn] at hok; simp only [hrec x hok.1]

/-- The tree of a node, in terms of the trees of its children. -/
def nodeExpr (c : ExprCtx) (w : Nat) : Node → Expr
  | .const bv => .const bv.width bv.value
  | .sym name w => .sym name w
  | .bin op a b => .bin op (c.expr a) (c.expr b)
  | .cmp op a b => .cmp op (c.expr a) (c.expr b)
  | .bool b => .bool b
  | .not x => .not (c.expr x)
  | .and xs => .and (xs.map c.expr)
  | .or xs => .or (xs.map c.expr)
  | .ite x t e => .ite (c.expr x) (c.expr t) (c.expr e)
  | .zext x => .zext w (c.expr x)
  | .sext x => .sext w (c.expr x)

theorem expr_eq {c : ExprCtx} (h : c.Ok) {id : ExprId} (hid : id < c.len) :
    c.expr id = c.nodeExpr (c.width id) (c.node id) := by
  have hok := h.node hid
  have hrec : ∀ x, x < id → exprFuel c id x = c.expr x := fun x hx =>
    exprFuel_eq h x id (x + 1) (Nat.lt_trans hx hid) hx (Nat.lt_succ_self x)
  rw [expr, exprFuel]
  cases hn : c.node id with
  | const bv => rfl
  | sym name w => rfl
  | bool b => rfl
  | bin op a b => rw [hn] at hok; simp only [nodeExpr, hrec a hok.1, hrec b hok.2.1]
  | cmp op a b => rw [hn] at hok; simp only [nodeExpr, hrec a hok.1, hrec b hok.2.1]
  | not x => rw [hn] at hok; simp only [nodeExpr, hrec x hok.1]
  | and xs =>
    rw [hn] at hok
    simp only [nodeExpr, List.map_congr_left fun x hx => hrec x (hok.1 x hx)]
  | or xs =>
    rw [hn] at hok
    simp only [nodeExpr, List.map_congr_left fun x hx => hrec x (hok.1 x hx)]
  | ite x t e =>
    rw [hn] at hok
    simp only [nodeExpr, hrec x hok.1, hrec t hok.2.1, hrec e hok.2.2.1]
  | zext x => rw [hn] at hok; simp only [nodeExpr, hrec x hok.1]
  | sext x => rw [hn] at hok; simp only [nodeExpr, hrec x hok.1]

theorem width_expr {c : ExprCtx} (h : c.Ok) (id : ExprId) :
    id < c.len → (c.expr id).width = c.width id := by
  induction id using Nat.strong_induction_on with
  | _ id ih =>
    intro hid
    have hok := h.node hid
    rw [expr_eq h hid]
    cases hn : c.node id with
    | const bv => rw [hn] at hok; exact hok.symm
    | sym name w => rw [hn] at hok; exact hok.symm
    | bool b => rw [hn] at hok; exact hok.symm
    | bin op a b =>
      rw [hn] at hok
      exact (ih a hok.1 (Nat.lt_trans hok.1 hid)).trans hok.2.2.symm
    | cmp op a b => rw [hn] at hok; exact hok.2.2.symm
    | not x => rw [hn] at hok; exact hok.2.symm
    | and xs => rw [hn] at hok; exact hok.2.symm
    | or xs => rw [hn] at hok; exact hok.2.symm
    | ite x t e =>
      rw [hn] at hok
      exact (ih t hok.2.1 (Nat.lt_trans hok.2.1 hid)).trans hok.2.2.2.symm
    | zext x => rfl
    | sext x => rfl

end ExprCtx

namespace Sat

open Lib Cnf

namespace Blaster

/-! ## Solutions of a blaster -/

/-- The symbols' bits have the values of `ρ`. -/
def SymsAre (ρ : Valuation) (m : Nat → Bool) (syms : List (String × Nat × List Lit)) : Prop :=
  ∀ s ∈ syms, num m s.2.2 = ρ s.1 s.2.1 % 2 ^ s.2.1

/-- `m` solves the clauses and gives the symbols the values of `ρ`. -/
def Sol (b : Blaster) (ρ : Valuation) (m : Nat → Bool) : Prop :=
  satAll m b.cnf.clauses ∧ SymsAre ρ m b.syms

/-- The literals `bits` spell `f` at width `w`, in every solution. -/
structure Means (b : Blaster) (bits : List Lit) (w : Nat) (f : Valuation → Nat) : Prop where
  inCnf : b.cnf.In bits
  length : bits.length = w
  spells : ∀ ρ m, b.Sol ρ m → num m bits = f ρ

/-- The state between two encodings. -/
structure Good (ctx : ExprCtx) (b : Blaster) : Prop where
  cnf : b.cnf.Ok
  syms : ∀ s ∈ b.syms, b.cnf.In s.2.2 ∧ s.2.2.length = s.2.1
  sol : ∀ ρ, ∃ m, b.Sol ρ m
  memo : ∀ id bits, b.memo id = some bits →
    0 < ctx.width id ∧ b.Means bits (ctx.width id) (ctx.expr id).eval

theorem new_good (ctx : ExprCtx) : Good ctx new where
  cnf := Cnf.empty_ok
  syms s h := absurd h List.not_mem_nil
  sol ρ := ⟨fun _ => false, fun c h => absurd h List.not_mem_nil, fun s h => absurd h List.not_mem_nil⟩
  memo id bits h := absurd h (by simp [new])

/-- `d` is a later state: more clauses, more symbols. -/
structure Le (b d : Blaster) : Prop where
  ext : b.cnf.view.Extends d.cnf.view
  syms : ∀ s ∈ b.syms, s ∈ d.syms

theorem Le.refl (b : Blaster) : Le b b := ⟨Store.Extends.refl _, fun _ h => h⟩

theorem Le.trans {a b c : Blaster} (h₁ : Le a b) (h₂ : Le b c) : Le a c :=
  ⟨h₁.ext.trans h₂.ext, fun s h => h₂.syms s (h₁.syms s h)⟩

theorem Sol.le {b d : Blaster} {ρ : Valuation} {m : Nat → Bool} (h : d.Sol ρ m) (hle : Le b d) :
    b.Sol ρ m := ⟨hle.ext.sub m h.1, fun s hs => h.2 s (hle.syms s hs)⟩

theorem Means.le {b d : Blaster} {bits : List Lit} {w : Nat} {f : Valuation → Nat}
    (h : b.Means bits w f) (hle : Le b d) : d.Means bits w f :=
  ⟨h.inCnf.mono hle.ext, h.length, fun ρ m hs => h.spells ρ m (hs.le hle)⟩

/-- Running `x` keeps the invariant, and a result satisfies `Q`. -/
def Enc {α : Type} (ctx : ExprCtx) (x : BlastM α) (b : Blaster) (Q : Blaster → α → Prop) : Prop :=
  Good ctx (x.run b).2 ∧ Le b (x.run b).2 ∧ ∀ a, (x.run b).1 = some a → Q (x.run b).2 a

theorem Enc.pure {α : Type} {ctx : ExprCtx} {b : Blaster} {Q : Blaster → α → Prop} {a : α}
    (hb : Good ctx b) (hq : Q b a) : Enc ctx (Pure.pure a) b Q := by
  refine ⟨hb, Le.refl b, fun a' he => ?_⟩
  obtain rfl : a = a' := Option.some.inj he
  exact hq

theorem Enc.fail {α : Type} {ctx : ExprCtx} {b : Blaster} {Q : Blaster → α → Prop}
    (hb : Good ctx b) : Enc ctx (failure : BlastM α) b Q :=
  ⟨hb, Le.refl b, fun a he => absurd he (by rintro ⟨⟩)⟩

theorem Enc.bind {α β : Type} {ctx : ExprCtx} {b : Blaster} {x : BlastM α} {f : α → BlastM β}
    {Q : Blaster → α → Prop} {R : Blaster → β → Prop} (hx : Enc ctx x b Q)
    (hf : ∀ a d, Good ctx d → Le b d → Q d a → Enc ctx (f a) d R) : Enc ctx (x >>= f) b R := by
  obtain ⟨hg, hle, hq⟩ := hx
  have hrun : (x >>= f).run b =
      (x.run b).1.elim (none, (x.run b).2) fun a => (f a).run (x.run b).2 := by
    rw [OptionT.run_bind]
    show ((x.run b).1.elim (Pure.pure none : StateM Blaster (Option β)) fun a => (f a).run) (x.run b).2 = _
    cases x.run b with
    | mk o d => cases o <;> rfl
  unfold Enc
  rw [hrun]
  cases hxb : x.run b with
  | mk o d =>
    rw [hxb] at hg hle hq
    cases o with
    | none => exact ⟨hg, hle, fun a he => absurd he (by simp)⟩
    | some a =>
      obtain ⟨hg', hle', hq'⟩ := hf a d hg hle (hq a rfl)
      exact ⟨hg', hle.trans hle', hq'⟩

theorem gate_enc {α : Type} [Scoped α] {ctx : ExprCtx} {b : Blaster} (hb : Good ctx b) {x : CnfM α}
    {Q : (Nat → Bool) → α → Prop} (hx : Builds x b.cnf Q) :
    Enc ctx (gate x) b fun d a => Scoped.Below d.cnf.numVars a ∧
      ∀ m, satAll m d.cnf.clauses → Q m a := by
  have hle : Le b { b with cnf := (x b.cnf).2 } := ⟨hx.ext, fun _ h => h⟩
  refine ⟨?_, hle, fun a he => ?_⟩
  · refine
      { cnf := hx.ok
        syms := fun s hs => ⟨(hb.syms s hs).1.mono hx.ext, (hb.syms s hs).2⟩
        sol := fun ρ => ?_
        memo := fun id bits he => ⟨(hb.memo id bits he).1, (hb.memo id bits he).2.le hle⟩ }
    obtain ⟨m, hm, hsyms⟩ := hb.sol ρ
    obtain ⟨m', hagree, hm'⟩ := hx.ext.extend m hm
    refine ⟨m', hm', fun s hs => ?_⟩
    rw [← hsyms s hs]
    unfold num vals
    congr 1
    exact List.map_congr_left fun l hl => litVal_congr hagree ((hb.syms s hs).1 l hl)
  · obtain rfl : (x b.cnf).1 = a := Option.some.inj he
    exact ⟨hx.below, hx.post⟩

/-! ## The leaves -/

theorem value_testBits (v w : Nat) :
    Bits.value ((List.range w).map fun i => v.testBit i) = v % 2 ^ w := by
  refine Nat.eq_of_testBit_eq fun i => ?_
  rw [Bits.testBit_value, Nat.testBit_mod_two_pow, List.getD_eq_getElem?_getD, List.getElem?_map]
  by_cases hi : i < w
  · rw [List.getElem?_range hi]
    simp [hi]
  · rw [List.getElem?_eq_none (by simpa using hi)]
    simp [hi]

instance : Scoped Nat where
  Below _ _ := True
  mono _ _ := trivial

theorem constBits_builds {c : Cnf} (h : c.Ok) (v w : Nat) :
    Builds (constBits v w) c fun m r => r.length = w ∧ num m r = v % 2 ^ w := by
  refine (mapM_builds (f := fun i => if v.testBit i then Cnf.litTrue else litFalse)
    (g := fun _ i => v.testBit i) ?_ (List.range w) (Store.Extends.refl _) h
    (fun _ _ => trivial)).mono fun m r hr => ?_
  · intro d _ hd i _
    by_cases hi : v.testBit i = true
    · simp only [hi, if_true]
      exact litTrue_builds hd
    · simp only [hi]
      exact (litFalse_builds hd).mono fun m o ho => by simpa using ho
  · refine ⟨hr.1.trans (List.length_range ..), ?_⟩
    rw [num, hr.2, value_testBits]

theorem newVars_run (xs : List Nat) : ∀ c : Cnf,
    (xs.mapM fun _ => newVar) c =
      ((List.range' c.numVars xs.length).map Lit.pos, { c with numVars := c.numVars + xs.length }) := by
  induction xs with
  | nil => intro c; rfl
  | cons x xs ih =>
    intro c
    rw [List.mapM_cons]
    show ((Lit.pos c.numVars :: ((xs.mapM fun _ => newVar) { c with numVars := c.numVars + 1 }).1),
      ((xs.mapM fun _ => newVar) { c with numVars := c.numVars + 1 }).2) = _
    rw [ih]
    simp only [List.length_cons, List.range'_succ, List.map_cons, Prod.mk.injEq, true_and]
    congr 1
    omega

/-- An assignment with the bits of `v` written from variable `n` on. -/
def writeBits (m : Nat → Bool) (n w v : Nat) : Nat → Bool := fun i =>
  if n ≤ i ∧ i < n + w then v.testBit (i - n) else m i

theorem writeBits_agree (m : Nat → Bool) (n w v : Nat) : AgreeBelow n (writeBits m n w v) m := by
  intro i hi
  rw [writeBits, if_neg (by omega)]

theorem num_writeBits (m : Nat → Bool) (n w v : Nat) :
    num (writeBits m n w v) ((List.range' n w).map Lit.pos) = v % 2 ^ w := by
  have : vals (writeBits m n w v) ((List.range' n w).map Lit.pos) =
      (List.range w).map fun i => v.testBit i := by
    rw [vals, List.map_map, List.range'_eq_map_range, List.map_map]
    refine List.map_congr_left fun i hi => ?_
    have hi' := List.mem_range.mp hi
    simp only [Function.comp_apply, litVal_pos, writeBits]
    rw [if_pos (by omega), Nat.add_sub_cancel_left]
  rw [num, this, value_testBits]

theorem symBits_enc {ctx : ExprCtx} {b : Blaster} (hb : Good ctx b) (name : String) (w : Nat) :
    Enc ctx (symBits name w) b fun d bits => d.Means bits w fun ρ => ρ name w % 2 ^ w := by
  set bits := (List.range' b.cnf.numVars w).map Lit.pos with hbits
  set d : Blaster := { b with
    cnf := { b.cnf with numVars := b.cnf.numVars + w }
    syms := b.syms ++ [(name, w, bits)] } with hd
  have hrun : (symBits name w).run b = (some bits, d) := by
    have := newVars_run (List.range w) b.cnf
    rw [List.length_range] at this
    show (some ((List.range w).mapM (fun _ => newVar) b.cnf).1,
      ({ b with
        cnf := ((List.range w).mapM (fun _ => newVar) b.cnf).2
        syms := b.syms ++ [(name, w, ((List.range w).mapM (fun _ => newVar) b.cnf).1)] } : Blaster)) = _
    rw [this]
  have hbelow : d.cnf.In bits := by
    intro l hl
    obtain ⟨i, hi, rfl⟩ := List.mem_map.mp hl
    have := List.mem_range'_1.mp hi
    exact this.2
  have hlen : bits.length = w := by rw [hbits, List.length_map, List.length_range']
  have hext : b.cnf.view.Extends d.cnf.view :=
    ⟨Nat.le_add_right _ _, fun m hm => hm, fun m hm => ⟨m, AgreeBelow.refl _ m, hm⟩⟩
  have hle : Le b d := ⟨hext, fun s hs => List.mem_append_left _ hs⟩
  have hsol : ∀ ρ, ∃ m, d.Sol ρ m := by
    intro ρ
    obtain ⟨m, hm, hsyms⟩ := hb.sol ρ
    have hagree := writeBits_agree m b.cnf.numVars w (ρ name w)
    refine ⟨writeBits m b.cnf.numVars w (ρ name w), ?_, fun s hs => ?_⟩
    · exact hb.cnf.local m _ (fun v hv => (hagree v hv).symm) hm
    · rcases List.mem_append.mp hs with hs | hs
      · rw [← hsyms s hs]
        unfold num vals
        congr 1
        exact List.map_congr_left fun l hl => litVal_congr hagree ((hb.syms s hs).1 l hl)
      · rw [List.mem_singleton.mp hs]
        exact num_writeBits m b.cnf.numVars w (ρ name w)
  unfold Enc
  rw [hrun]
  refine ⟨?_, hle, fun a he => ?_⟩
  · refine
      { cnf := ⟨?_, ?_, ?_⟩, syms := ?_, sol := hsol
        memo := fun id bits' he => ⟨(hb.memo id bits' he).1, (hb.memo id bits' he).2.le hle⟩ }
    · intro cl hcl l hl
      exact Nat.lt_of_lt_of_le (hb.cnf.bounded cl hcl l hl) (Nat.le_add_right _ _)
    · intro l hl
      obtain ⟨hlt, hmem⟩ := hb.cnf.trueLit l hl
      exact ⟨Nat.lt_of_lt_of_le hlt (Nat.le_add_right _ _), hmem⟩
    · exact hb.cnf.sat
    · intro s hs
      rcases List.mem_append.mp hs with hs | hs
      · exact ⟨(hb.syms s hs).1.mono hext, (hb.syms s hs).2⟩
      · rw [List.mem_singleton.mp hs]
        exact ⟨hbelow, hlen⟩
  · obtain rfl : bits = a := Option.some.inj he
    refine ⟨hbelow, hlen, fun ρ m hs => ?_⟩
    exact hs.2 (name, w, bits) (List.mem_append_right _ (List.mem_singleton.mpr rfl))

/-! ## Binary operations -/

theorem shiftConst_bv {c : Cnf} (h : c.Ok) {w : Nat} {op : BvOp} (hop : IsShift op) {a : List Lit}
    (ha : c.In a) (hla : a.length = w) (hw : 0 < w) (k : Nat) :
    Builds (shiftConst op a k w) c fun m r => r.length = w ∧
      bv w m r = shiftBv op (bv w m a) k := by
  refine (litFalse_builds h).bind fun zero c₁ hx₁ h₁ hz _ => ?_
  have hsign : (signBit a).var < c₁.numVars := ha.mono hx₁ _ (signBit_mem (by omega))
  have hfill : (if op = .ashr then signBit a else zero).var < c₁.numVars := by
    split_ifs
    · exact hsign
    · exact hz
  refine Builds.pure h₁ (shiftWires_in hz hfill (ha.mono hx₁)) fun m _ hzero => ?_
  refine ⟨(shiftWires_length ..).trans hla, ?_⟩
  have hfv : litVal m (if op = .ashr then signBit a else zero) = fillBv op (bv w m a) := by
    rw [fillBv, msb_bv hla hw]
    by_cases hc : op = .ashr
    · simp [hc]
    · simp [hc, hzero]
  rw [shiftWires_bv hop hla hzero hfv]
  -- clamping the amount to the width changes nothing
  rcases Nat.le_total k w with hle | hge
  · rw [Nat.min_eq_left hle]
  · rw [Nat.min_eq_right hge, shiftBv_of_le hop _ (Nat.le_refl w), shiftBv_of_le hop _ hge]

theorem shift_evalBv {w : Nat} {op : BvOp} (hop : IsShift op) (x y : BitVec w) :
    op.evalBv x y = shiftBv op x y.toNat := by
  rcases hop with rfl | rfl | rfl <;> rfl

theorem encodeShift_bv {c : Cnf} (h : c.Ok) {ctx : ExprCtx} {w : Nat} {op : BvOp}
    (hop : IsShift op) {a b : List Lit} {bId : ExprId} (ha : c.In a) (hb : c.In b)
    (hla : a.length = w) (hlb : b.length = w) (hw : 0 < w) :
    Builds (match ctx.asConst bId with
      | some k => shiftConst op a k.value a.length
      | none => shiftVar op a b) c fun m r => r.length = w ∧
        ((∀ k, ctx.asConst bId = some k → num m b = k.value) →
          bv w m r = op.evalBv (bv w m a) (bv w m b)) := by
  cases hk : ctx.asConst bId with
  | some k =>
    simp only [hla]
    refine (shiftConst_bv h hop ha hla hw k.value).mono fun m r hr => ⟨hr.1, fun hc => ?_⟩
    rw [hr.2, shift_evalBv hop, toNat_bv hlb, hc k rfl]
  | none =>
    refine (shiftVar_bv h hop ha hb hla hlb hw).mono fun m r hr => ⟨hr.1, fun _ => ?_⟩
    rw [hr.2, shift_evalBv hop, toNat_bv hlb]

theorem fst_builds {c : Cnf} {x : CnfM (List Lit × List Lit)}
    {Q : (Nat → Bool) → List Lit × List Lit → Prop} (hx : Builds x c Q)
    {R : (Nat → Bool) → List Lit → Prop} (hr : ∀ m r, Q m r → R m r.1) :
    Builds (do return (← x).1) c R := by
  refine hx.bind fun r d _ hd hb _ => ?_
  exact Builds.pure hd hb.1 fun m _ hq => hr m r hq

theorem snd_builds {c : Cnf} {x : CnfM (List Lit × List Lit)}
    {Q : (Nat → Bool) → List Lit × List Lit → Prop} (hx : Builds x c Q)
    {R : (Nat → Bool) → List Lit → Prop} (hr : ∀ m r, Q m r → R m r.2) :
    Builds (do return (← x).2) c R := by
  refine hx.bind fun r d _ hd hb _ => ?_
  exact Builds.pure hd hb.2 fun m _ hq => hr m r hq

theorem encodeBin_builds {c : Cnf} (h : c.Ok) {ctx : ExprCtx} {w : Nat} (op : BvOp)
    {a b : List Lit} {bId : ExprId} (ha : c.In a) (hb : c.In b) (hla : a.length = w)
    (hlb : b.length = w) (hw : 0 < w) :
    Builds (encodeBin ctx op a b bId) c fun m r => r.length = w ∧
      ((∀ k, ctx.asConst bId = some k → num m b = k.value) →
        bv w m r = op.evalBv (bv w m a) (bv w m b)) := by
  cases op with
  | add => exact (add_bv h ha hb hla hlb).mono fun m r hr => ⟨hr.1, fun _ => hr.2⟩
  | sub => exact (sub_bv h ha hb hla hlb).mono fun m r hr => ⟨hr.1, fun _ => hr.2⟩
  | mul => exact (mul_bv h ha hb hla hlb).mono fun m r hr => ⟨hr.1, fun _ => hr.2⟩
  | and =>
    exact (bitwise_bv h ha hb hla hlb (Or.inl rfl)).mono fun m r hr => ⟨hr.1, fun _ => hr.2⟩
  | or =>
    exact (bitwise_bv h ha hb hla hlb (Or.inr (Or.inl rfl))).mono
      fun m r hr => ⟨hr.1, fun _ => hr.2⟩
  | xor =>
    exact (bitwise_bv h ha hb hla hlb (Or.inr (Or.inr rfl))).mono
      fun m r hr => ⟨hr.1, fun _ => hr.2⟩
  | shl => exact encodeShift_bv h (Or.inl rfl) ha hb hla hlb hw
  | lshr => exact encodeShift_bv h (Or.inr (Or.inl rfl)) ha hb hla hlb hw
  | ashr => exact encodeShift_bv h (Or.inr (Or.inr rfl)) ha hb hla hlb hw
  | udiv =>
    exact fst_builds (udivrem_bv h ha hb hla hlb) fun m r hr => ⟨hr.1.1, fun _ => hr.2.1⟩
  | urem =>
    exact snd_builds (udivrem_bv h ha hb hla hlb) fun m r hr => ⟨hr.1.2, fun _ => hr.2.2⟩
  | sdiv =>
    exact fst_builds (sdivrem_bv h ha hb hla hlb hw) fun m r hr => ⟨hr.1.1, fun _ => hr.2.1⟩
  | srem =>
    exact snd_builds (sdivrem_bv h ha hb hla hlb hw) fun m r hr => ⟨hr.1.2, fun _ => hr.2.2⟩

/-! ## One node -/

def Encoded (ctx : ExprCtx) (id : ExprId) (d : Blaster) (bits : List Lit) : Prop :=
  0 < ctx.width id ∧ d.Means bits (ctx.width id) (ctx.expr id).eval

theorem Encoded.le {ctx : ExprCtx} {id : ExprId} {b d : Blaster} {bits : List Lit}
    (h : Encoded ctx id b bits) (hle : Le b d) : Encoded ctx id d bits := ⟨h.1, h.2.le hle⟩

theorem Encoded.bool {ctx : ExprCtx} {id : ExprId} {d : Blaster} {l : Lit}
    (h : Encoded ctx id d [l]) {ρ : Valuation} {m : Nat → Bool} (hs : d.Sol ρ m) :
    litVal m l = ((ctx.expr id).eval ρ == 1) := by
  have := h.2.spells ρ m hs
  rw [num_cons, num_nil] at this
  rw [← this]
  cases litVal m l <;> rfl

theorem num_singleton {m : Nat → Bool} {l : Lit} : num m [l] = (litVal m l).toNat := by
  rw [num_cons, num_nil, Nat.mul_zero, Nat.add_zero]

section Node

variable {ctx : ExprCtx} (hctx : ctx.Ok) {rec : ExprId → BlastM (List Lit)}

theorem encodeBools_enc (xs : List ExprId) : ∀ {b : Blaster}, Good ctx b →
    (∀ x ∈ xs, ∀ {b : Blaster}, Good ctx b → Enc ctx (rec x) b (Encoded ctx x)) →
      Enc ctx (encodeBools rec xs) b fun d ls => d.cnf.In ls ∧ ∀ ρ m, d.Sol ρ m →
        ls.map (litVal m) = xs.map fun x => (ctx.expr x).eval ρ == 1 := by
  induction xs with
  | nil =>
    intro b hb _
    exact Enc.pure hb ⟨fun l hl => absurd hl List.not_mem_nil, fun _ _ _ => rfl⟩
  | cons x xs ih =>
    intro b hb hrec
    refine (hrec x List.mem_cons_self hb).bind fun xv d hd _ hxv => ?_
    match xv, hxv with
    | [l], hxv =>
      refine (ih hd fun y hy => hrec y (List.mem_cons_of_mem _ hy)).bind fun ls d' hd' hle hls => ?_
      refine Enc.pure hd' ⟨?_, fun ρ m hs => ?_⟩
      · intro l' hl'
        rcases List.mem_cons.mp hl' with rfl | hl'
        · exact (hxv.le hle).2.inCnf _ (by simp)
        · exact hls.1 l' hl'
      · rw [List.map_cons, List.map_cons, hls.2 ρ m hs, (hxv.le hle).bool hs]
    | [], _ => exact Enc.fail hd
    | _ :: _ :: _, _ => exact Enc.fail hd

theorem zextBits_builds {c : Cnf} (h : c.Ok) {bits : List Lit} {w : Nat} (hb : c.In bits)
    (hle : bits.length ≤ w) :
    Builds (do
      let pad ← (List.range (w - bits.length)).mapM fun _ => litFalse
      return bits ++ pad) c fun m r => r.length = w ∧ num m r = num m bits := by
  refine (mapM_builds (f := fun _ : Nat => litFalse) (g := fun _ _ => false)
    (fun _ hd _ _ => litFalse_builds hd) (List.range (w - bits.length)) (Store.Extends.refl _) h
    (fun _ _ => trivial)).bind fun pad d hx hd hpad _ => ?_
  refine Builds.pure hd ((hb.mono hx).append hpad) fun m _ hp => ⟨?_, ?_⟩
  · rw [List.length_append, hp.1, List.length_range]
    exact Nat.add_sub_cancel' hle
  · have hz : num m pad = 0 := by
      rw [num, hp.2, List.map_const', Bits.value_replicate_false]
    rw [num_append, hz, Nat.mul_zero, Nat.add_zero]

theorem sextBits_num {m : Nat → Bool} {bits : List Lit} {v w : Nat} (hl : bits.length = v)
    (hv : 0 < v) (hle : v ≤ w) :
    num m (bits ++ List.replicate (w - bits.length) (signBit bits)) =
      signExtend v w (num m bits) := by
  have hlen : (bits ++ List.replicate (w - bits.length) (signBit bits)).length = w := by
    rw [List.length_append, List.length_replicate, hl]
    exact Nat.add_sub_cancel' hle
  rw [← toNat_bv hlen]
  show _ = ((bv v m bits).signExtend w).toNat
  congr 1
  refine bv_ext hlen fun i hi => ?_
  rw [BitVec.getLsbD_signExtend]
  by_cases hc : i < v
  · rw [if_pos hc, getLsbD_bv hl, vals, List.map_append, List.getD_append _ _ _ _ (by simpa [hl])]
    simp [hi, vals]
  · rw [if_neg hc, msb_bv hl hv, vals, List.map_append,
      List.getD_append_right _ _ _ _ (by simp [hl]; omega), List.map_replicate,
      List.getD_eq_getElem _ _ (by simp [hl]; omega), List.getElem_replicate]
    simp [hi]

theorem gateBits_enc {b : Blaster} (hb : Good ctx b) {x : CnfM (List Lit)} {w : Nat}
    {f : Valuation → Nat} {Q : (Nat → Bool) → List Lit → Prop} (hx : Builds x b.cnf Q)
    (hlen : ∀ m r, Q m r → r.length = w)
    (hspell : ∀ d, Le b d → ∀ ρ m r, d.Sol ρ m → Q m r → num m r = f ρ) :
    Enc ctx (gate x) b fun d bits => d.Means bits w f := by
  obtain ⟨hg, hle, hq⟩ := gate_enc hb hx
  refine ⟨hg, hle, fun r he => ?_⟩
  obtain ⟨hin, hall⟩ := hq r he
  obtain ⟨m₀, hm₀⟩ := hg.cnf.sat
  exact ⟨hin, hlen m₀ r (hall m₀ hm₀), fun ρ m hs => hspell _ hle ρ m r hs (hall m hs.1)⟩

theorem gateBit_enc {b : Blaster} (hb : Good ctx b) {x : CnfM Lit} {f : Valuation → Bool}
    {g : (Nat → Bool) → Bool} (hx : Builds x b.cnf fun m o => litVal m o = g m)
    (hspell : ∀ d, Le b d → ∀ ρ m, d.Sol ρ m → g m = f ρ) :
    Enc ctx (do return [← gate x]) b fun d bits => d.Means bits 1 fun ρ => (f ρ).toNat := by
  refine (gate_enc hb hx).bind fun o d hd hle ho => ?_
  refine Enc.pure hd ⟨?_, rfl, fun ρ m hs => ?_⟩
  · intro l hl
    rw [List.mem_singleton.mp hl]
    exact ho.1
  · rw [num_singleton, ho.2 m hs.1, hspell d hle ρ m hs]

include hctx in
theorem encodeNode_enc {id : ExprId} (hid : id < ctx.len) (hw : 0 < ctx.width id)
    (hrec : ∀ x < id, ∀ {b : Blaster}, Good ctx b → Enc ctx (rec x) b (Encoded ctx x))
    {b : Blaster} (hb : Good ctx b) :
    Enc ctx (encodeNode ctx rec (ctx.width id) (ctx.node id)) b fun d bits =>
      d.Means bits (ctx.width id) (ctx.expr id).eval := by
  have hok := hctx.node hid
  rw [ExprCtx.expr_eq hctx hid]
  have hwidth : ∀ x, x < id → (ctx.expr x).width = ctx.width x := fun x hx =>
    ExprCtx.width_expr hctx x (Nat.lt_trans hx hid)
  cases hn : ctx.node id with
  | const c =>
    rw [hn] at hok
    have hwc : ctx.width id = c.width := hok
    rw [hwc]
    exact gateBits_enc hb (constBits_builds hb.cnf c.value c.width) (fun m r hr => hr.1)
      fun d _ ρ m r _ hr => hr.2
  | sym name w =>
    rw [hn] at hok
    have hwc : ctx.width id = w := hok
    rw [hwc]
    exact symBits_enc hb name w
  | bool v =>
    rw [hn] at hok
    have hwc : ctx.width id = 1 := hok
    rw [hwc]
    refine gateBit_enc (g := fun _ => v) hb ?_ fun _ _ _ _ _ => rfl
    cases v with
    | true => exact litTrue_builds hb.cnf
    | false => exact litFalse_builds hb.cnf
  | bin op x y =>
    rw [hn] at hok
    obtain ⟨hx, hy, hwx⟩ := hok
    refine (hrec x hx hb).bind fun av d₁ hd₁ _ hav => ?_
    refine (hrec y hy hd₁).bind fun yv d₂ hd₂ hle₂ hyv => ?_
    have hav₂ := hav.le hle₂
    split_ifs with hlen
    · exact Enc.fail hd₂
    · have hlen' : av.length = yv.length := not_not.mp hlen
      have hla : av.length = ctx.width id := hav₂.2.length.trans hwx.symm
      refine gateBits_enc hd₂ (encodeBin_builds hd₂.cnf op hav₂.2.inCnf hyv.2.inCnf hla
        (hlen'.symm.trans hla) hw) (fun m r hr => hr.1) ?_
      intro d hle ρ m r hs hr
      have hnx := (hav₂.2.le hle).spells ρ m hs
      have hny := (hyv.2.le hle).spells ρ m hs
      -- a literal shift amount is the value the amount's bits spell
      have hconst : ∀ k, ctx.asConst y = some k → num m yv = k.value := by
        intro k hk
        have hnode : ctx.node y = .const k := by
          unfold ExprCtx.asConst at hk
          cases hny' : ctx.node y <;> simp [hny'] at hk
          rw [hk]
        rw [hny, ExprCtx.expr_eq hctx (Nat.lt_trans hy hid), hnode]
        exact Nat.mod_eq_of_lt k.value_lt
      have hbv := hr.2 hconst
      rw [← toNat_bv hr.1, hbv]
      show _ = op.eval (ctx.expr x).width ((ctx.expr x).eval ρ) ((ctx.expr y).eval ρ)
      rw [hwidth x hx, ← hwx, ← hnx, ← hny]
      rfl
  | cmp op x y =>
    rw [hn] at hok
    obtain ⟨hx, hy, hw1⟩ := hok
    rw [hw1]
    refine (hrec x hx hb).bind fun av d₁ hd₁ _ hav => ?_
    refine (hrec y hy hd₁).bind fun yv d₂ hd₂ hle₂ hyv => ?_
    have hav₂ := hav.le hle₂
    split_ifs with hlen
    · exact Enc.fail hd₂
    · have hlen' : av.length = yv.length := not_not.mp hlen
      have hla := hav₂.2.length
      refine gateBit_enc hd₂ (compare_bv hd₂.cnf op hav₂.2.inCnf hyv.2.inCnf hla
        (hlen'.symm.trans hla) hav.1) ?_
      intro d hle ρ m hs
      show _ = op.eval (ctx.expr x).width ((ctx.expr x).eval ρ) ((ctx.expr y).eval ρ)
      rw [hwidth x hx, ← (hav₂.2.le hle).spells ρ m hs, ← (hyv.2.le hle).spells ρ m hs]
      rfl
  | not x =>
    rw [hn] at hok
    obtain ⟨hx, hw1⟩ := hok
    rw [hw1]
    refine (hrec x hx hb).bind fun xv d hd _ hxv => ?_
    match xv, hxv with
    | [l], hxv =>
      refine Enc.pure hd ⟨?_, rfl, fun ρ m hs => ?_⟩
      · intro l' hl'
        rw [List.mem_singleton.mp hl']
        exact hxv.2.inCnf l (by simp)
      · rw [num_singleton, litVal_negated, hxv.bool hs]
        rfl
    | [], _ => exact Enc.fail hd
    | _ :: _ :: _, _ => exact Enc.fail hd
  | and xs =>
    rw [hn] at hok
    obtain ⟨hxs, hw1⟩ := hok
    rw [hw1]
    refine (encodeBools_enc xs hb fun x hx => hrec x (hxs x hx)).bind fun ls d hd _ hls => ?_
    refine gateBit_enc (f := fun ρ => Expr.evalAll ρ (xs.map ctx.expr)) hd
      (bigAnd_builds hd.cnf hls.1) ?_
    intro d' hle ρ m hs
    have := hls.2 ρ m (hs.le hle)
    have hmap : ls.all (litVal m) = (ls.map (litVal m)).all fun x => x := by
      rw [List.all_map]
      rfl
    rw [hmap, this, Expr.evalAll_eq, List.all_map, List.all_map]
    rfl
  | or xs =>
    rw [hn] at hok
    obtain ⟨hxs, hw1⟩ := hok
    rw [hw1]
    refine (encodeBools_enc xs hb fun x hx => hrec x (hxs x hx)).bind fun ls d hd _ hls => ?_
    refine gateBit_enc (f := fun ρ => Expr.evalAny ρ (xs.map ctx.expr)) hd
      (bigOr_builds hd.cnf hls.1) ?_
    intro d' hle ρ m hs
    have := hls.2 ρ m (hs.le hle)
    have hmap : ls.any (litVal m) = (ls.map (litVal m)).any fun x => x := by
      rw [List.any_map]
      rfl
    rw [hmap, this, Expr.evalAny_eq, List.any_map, List.any_map]
    rfl
  | ite x t e =>
    rw [hn] at hok
    obtain ⟨hx, ht, he, hwt⟩ := hok
    refine (hrec x hx hb).bind fun cv d₁ hd₁ _ hcv => ?_
    match cv, hcv with
    | [l], hcv =>
      refine (hrec t ht hd₁).bind fun tv d₂ hd₂ hle₂ htv => ?_
      refine (hrec e he hd₂).bind fun ev d₃ hd₃ hle₃ hev => ?_
      split_ifs with hlen
      · exact Enc.fail hd₃
      · have hlen' : tv.length = ev.length := not_not.mp hlen
        have hcv₃ := hcv.le (hle₂.trans hle₃)
        have htv₃ := htv.le hle₃
        have hlt : tv.length = ctx.width id := htv₃.2.length.trans hwt.symm
        refine gateBits_enc hd₃ (muxVec_bv hd₃.cnf (hcv₃.2.inCnf l (by simp)) htv₃.2.inCnf
          hev.2.inCnf hlt (hlen'.symm.trans hlt)) (fun m r hr => hr.1) ?_
        intro d hle ρ m r hs hr
        rw [← toNat_bv hr.1, hr.2, (hcv₃.le hle).bool hs]
        show _ = if (ctx.expr x).eval ρ = 1 then (ctx.expr t).eval ρ else (ctx.expr e).eval ρ
        by_cases hc : (ctx.expr x).eval ρ = 1
        · rw [if_pos (by simp [hc]), if_pos hc, toNat_bv hlt, (htv₃.2.le hle).spells ρ m hs]
        · rw [if_neg (by simp [hc]), if_neg hc, toNat_bv (hlen'.symm.trans hlt),
            (hev.2.le hle).spells ρ m hs]
    | [], _ => exact Enc.fail hd₁
    | _ :: _ :: _, _ => exact Enc.fail hd₁
  | zext x =>
    rw [hn] at hok
    obtain ⟨hx, hwx⟩ := hok
    refine (hrec x hx hb).bind fun bits d hd _ hbits => ?_
    refine gateBits_enc hd (zextBits_builds hd.cnf hbits.2.inCnf
      (by rw [hbits.2.length]; exact Nat.le_of_lt hwx)) (fun m r hr => hr.1) ?_
    intro d' hle ρ m r hs hr
    rw [hr.2, (hbits.2.le hle).spells ρ m hs]
    refine (Nat.mod_eq_of_lt ?_).symm
    rw [← (hbits.2.le hle).spells ρ m hs]
    refine Nat.lt_of_lt_of_le (num_lt m bits) (Nat.pow_le_pow_right Nat.two_pos ?_)
    rw [hbits.2.length]
    exact Nat.le_of_lt hwx
  | sext x =>
    rw [hn] at hok
    obtain ⟨hx, hwx⟩ := hok
    refine (hrec x hx hb).bind fun bits d hd _ hbits => ?_
    split_ifs with hz
    · exact Enc.fail hd
    · have hpos : 0 < bits.length := Nat.pos_of_ne_zero hz
      refine Enc.pure hd ⟨?_, ?_, fun ρ m hs => ?_⟩
      · exact hbits.2.inCnf.append (In.replicate (hbits.2.inCnf _ (signBit_mem hpos)) _)
      · rw [List.length_append, List.length_replicate, hbits.2.length]
        exact Nat.add_sub_cancel' (Nat.le_of_lt hwx)
      · rw [sextBits_num hbits.2.length hbits.1 (Nat.le_of_lt hwx)]
        show _ = signExtend (ctx.expr x).width (ctx.width id) ((ctx.expr x).eval ρ)
        rw [hwidth x hx, ← hbits.2.spells ρ m hs]

/-- The body of `encodeFuel`, by what the memo holds. -/
def encodeMemo (ctx : ExprCtx) (fuel : Nat) (id : ExprId) : Option (List Lit) → BlastM (List Lit)
  | some bits => return bits
  | none =>
    if ctx.width id = 0 ∨ maxWidth < ctx.width id then failure
    else do
      let bits ← encodeNode ctx (encodeFuel ctx fuel) (ctx.width id) (ctx.node id)
      modify fun b => { b with memo := Function.update b.memo id (some bits) }
      return bits

/-- **The induction.** With fuel beyond the handle, encoding keeps the invariant, and whatever it
    returns spells the expression. -/
theorem encodeFuel_enc {ctx : ExprCtx} (hctx : ctx.Ok) (fuel : Nat) :
    ∀ {id : ExprId} {b : Blaster}, id < ctx.len → Good ctx b →
      Enc ctx (encodeFuel ctx fuel id) b (Encoded ctx id) := by
  induction fuel with
  | zero => intro id b _ hb; exact Enc.fail hb
  | succ fuel ih =>
    intro id b hid hb
    have hget : (encodeFuel ctx (fuel + 1) id).run b = (encodeMemo ctx fuel id (b.memo id)).run b := rfl
    unfold Enc
    rw [hget]
    cases hmemo : b.memo id with
    | some bits => exact Enc.pure hb (hb.memo id bits hmemo)
    | none =>
      simp only [encodeMemo]
      by_cases hw : ctx.width id = 0 ∨ maxWidth < ctx.width id
      · rw [if_pos hw]
        exact Enc.fail hb
      · rw [if_neg hw]
        have hpos : 0 < ctx.width id := by omega
        have hnode := encodeNode_enc hctx hid hpos
          (fun x hx {b'} hb' => ih (Nat.lt_trans hx hid) hb') hb
        refine hnode.bind fun bits d hd _ hbits => ?_
        set d' : Blaster := { d with memo := Function.update d.memo id (some bits) } with hd'
        have hgood : Good ctx d' := by
          refine ⟨hd.cnf, hd.syms, hd.sol, fun id' bits' he => ?_⟩
          by_cases heq : id' = id
          · subst heq
            rw [hd'] at he
            simp only [Function.update_self, Option.some.injEq] at he
            rw [← he]
            exact ⟨hpos, hbits.inCnf, hbits.length, hbits.spells⟩
          · rw [hd'] at he
            simp only [Function.update_of_ne heq] at he
            obtain ⟨h₁, h₂⟩ := hd.memo id' bits' he
            exact ⟨h₁, h₂.inCnf, h₂.length, h₂.spells⟩
        refine ⟨hgood, ⟨Store.Extends.refl _, fun _ h => h⟩, fun a he => ?_⟩
        obtain rfl : bits = a := Option.some.inj he
        exact ⟨hpos, hbits.inCnf, hbits.length, hbits.spells⟩

end Node

/-! ## Whole runs -/

/-- The blasters a client reaches: a fresh one, then any encodings, successful or not. -/
inductive Run (ctx : ExprCtx) : Blaster → Prop
  | new : Run ctx new
  | encode {b : Blaster} {id : ExprId} : Run ctx b → id < ctx.len → Run ctx ((encode ctx id).run b).2

theorem Run.good {ctx : ExprCtx} (hctx : ctx.Ok) {b : Blaster} (h : Run ctx b) : Good ctx b := by
  induction h with
  | new => exact new_good ctx
  | encode _ hid ih => exact (encodeFuel_enc hctx _ hid ih).1

/-- **Bit-blasting is exact.** In every arena a client can build, after any encodings on one
    blaster: when `encode` returns literals, every valuation of the symbols is realised by a
    solution of the clauses, and in every solution that realises it the literals spell the value of
    the expression, at its width. -/
theorem encode_exact {ctx : ExprCtx} (hctx : ctx.Built) {b : Blaster} (hb : Run ctx b)
    {id : ExprId} (hid : id < ctx.len) {bits : List Lit} {b' : Blaster}
    (he : (encode ctx id).run b = (some bits, b')) (ρ : Valuation) :
    (∃ m, satAll m b'.cnf.clauses ∧ SymsAre ρ m b'.syms) ∧
      ∀ m, satAll m b'.cnf.clauses → SymsAre ρ m b'.syms →
        bits.length = ctx.width id ∧ num m bits = (ctx.expr id).eval ρ := by
  obtain ⟨hgood, -, hq⟩ := encodeFuel_enc hctx.ok (id + 1) hid (hb.good hctx.ok)
  rw [encode] at he
  rw [he] at hgood hq
  have henc := hq bits rfl
  refine ⟨hgood.sol ρ, fun m hm hsyms => ⟨henc.2.length, ?_⟩⟩
  exact henc.2.spells ρ m ⟨hm, hsyms⟩

/-- The product of two symbols, two bits wide. -/
def productCtx : ExprCtx := ⟨[(.sym "x" 2, 2), (.sym "y" 2, 2), (.bin .mul 0 1, 2)]⟩

theorem productCtx_built : productCtx.Built := by
  have hx : ExprCtx.Built ⟨[(.sym "x" 2, 2)]⟩ := .symbol "x" 2 .empty rfl
  have hy : ExprCtx.Built ⟨[(.sym "x" 2, 2), (.sym "y" 2, 2)]⟩ := .symbol "y" 2 hx rfl
  exact .bin .mul hy (a := 0) (b := 1) (by decide) (by decide) rfl

/-- `3 * 2`, wrapped to two bits. -/
theorem encode_exact_product :
    ((encode productCtx 2).run new).1 = some [⟨5, false⟩, ⟨8, false⟩] ∧
    ∀ m, satAll m ((encode productCtx 2).run new).2.cnf.clauses →
      SymsAre (fun name _ => if name = "x" then 3 else 2) m
        ((encode productCtx 2).run new).2.syms →
      num m [⟨5, false⟩, ⟨8, false⟩] = 2 := by
  have hrun : ((encode productCtx 2).run new).1 = some [⟨5, false⟩, ⟨8, false⟩] := by decide
  refine ⟨hrun, ?_⟩
  intro m hm hsyms
  have h := (encode_exact productCtx_built .new (by decide)
    (Prod.ext hrun rfl) fun name _ => if name = "x" then 3 else 2).2 m hm hsyms
  rw [h.2]
  decide

end Blaster

end Sat

end Csolver
