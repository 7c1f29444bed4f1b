import Csolver.Solver.BuildRuns
import Mathlib.Data.Nat.ModEq

/-!
# The no-overflow goal (`arith_no_overflow` of `exec/eval.rs`)

The sum and the difference are judged by signs and by an unsigned comparison at the operands' own width. The
product is compared with the product of the operands extended to twice the width, and there the arena has a say:
an extension that it already holds comes back at the width it was first built with.
-/

namespace Csolver

open ExprCtx

/-- `nsw` and `nuw`. -/
structure WrapFlags where
  nsw : Bool
  nuw : Bool

/-- The two ways to extend. -/
inductive ExtKind where
  | zext | sext
  deriving DecidableEq

namespace ExtKind

def run : ExtKind → ExprId → Nat → ExprM ExprId
  | zext => ExprCtx.zext
  | sext => ExprCtx.sext

def node : ExtKind → ExprId → Node
  | zext => .zext
  | sext => .sext

def value : ExtKind → Nat → Nat → Nat → Nat
  | zext => zeroExtend
  | sext => signExtend

end ExtKind

namespace Overflow

/-- The product, extended, is the product of the extended operands. -/
def mulGoal (k : ExtKind) (a b : ExprId) (w : Nat) : ExprM ExprId := do
  let pw ← bin .mul a b
  let pw2 ← k.run pw (w * 2)
  let ea ← k.run a (w * 2)
  let eb ← k.run b (w * 2)
  let full ← bin .mul ea eb
  cmp .eq pw2 full

/-- The goals that `nsw` adds. -/
def nswGoals (op : BvOp) (a b zero' : ExprId) (w : Nat) : ExprM (List ExprId) := do
  let sa ← cmp .slt a zero'
  let sb ← cmp .slt b zero'
  match op with
  | .add =>
    let s ← bin .add a b
    let ss ← cmp .slt s zero'
    let same ← cmp .eq sa sb
    let sEqA ← cmp .eq ss sa
    let diff ← not sEqA
    let ovf ← and [same, diff]
    let goal ← not ovf
    return [goal]
  | .sub =>
    let s ← bin .sub a b
    let ss ← cmp .slt s zero'
    let sameAb ← cmp .eq sa sb
    let diffAb ← not sameAb
    let sEqA ← cmp .eq ss sa
    let diffS ← not sEqA
    let ovf ← and [diffAb, diffS]
    let goal ← not ovf
    return [goal]
  | .mul =>
    if w * 2 ≤ 128 then
      let goal ← mulGoal .sext a b w
      return [goal]
    else return []
  | _ => return []

/-- The goals that `nuw` adds. -/
def nuwGoals (op : BvOp) (a b : ExprId) (w : Nat) : ExprM (List ExprId) :=
  match op with
  | .add => do
    let s ← bin .add a b
    let goal ← cmp .uge s a
    return [goal]
  | .sub => do
    let goal ← cmp .uge a b
    return [goal]
  | .mul =>
    if w * 2 ≤ 128 then do
      let goal ← mulGoal .zext a b w
      return [goal]
    else return []
  | _ => return []

def arithNoOverflow (op : BvOp) (a b : ExprId) (flags : WrapFlags) : ExprM (Option ExprId) := do
  let c ← get
  let w := c.width a
  let zero' ← int w 0
  let signed ← if flags.nsw then nswGoals op a b zero' w else pure []
  let unsigned ← if flags.nuw then nuwGoals op a b w else pure []
  match signed ++ unsigned with
  | [] => return none
  | [goal] => return some goal
  | goals =>
    let goal ← and goals
    return some goal

/-! ## The exact result -/

/-- The result on integers, with no width. -/
def exactResult (op : BvOp) (x y : Int) : Int :=
  match op with
  | .add => x + y
  | .sub => x - y
  | _ => x * y

/-- The exact signed result is a `w`-bit number. -/
def FitsSigned (op : BvOp) (w x y : Nat) : Prop :=
  let r := exactResult op (BitVec.ofNat w x).toInt (BitVec.ofNat w y).toInt
  r < 2 ^ (w - 1) ∧ -2 ^ (w - 1) ≤ r

def FitsUnsigned (op : BvOp) (w x y : Nat) : Prop := 0 ≤ exactResult op x y ∧ exactResult op x y < 2 ^ w

def Representable (op : BvOp) (flags : WrapFlags) (w x y : Nat) : Prop :=
  (flags.nsw = true → FitsSigned op w x y) ∧ (flags.nuw = true → FitsUnsigned op w x y)

/-! ## What the arena shows of a product -/

/-- The width at which the arena extends the product of `a` and `b`: it may hold the product already, or one of
the operands stands for it. -/
def productWidth (k : ExtKind) (c : ExprCtx) (a b : ExprId) (w : Nat) : Nat :=
  match c.folded .mul a b with
  | some _ => w * 2
  | none =>
    match c.identity .mul a b with
    | some x => extWidth k.node c x (w * 2)
    | none =>
      match c.nodes.findIdx? fun p => p.1 = .bin .mul a b with
      | some p => extWidth k.node c p (w * 2)
      | none => w * 2

/-- The width at which it multiplies the extended operands: the left one's, unless that is the constant one. -/
def factorWidth (k : ExtKind) (c : ExprCtx) (a b : ExprId) (w : Nat) : Nat :=
  if (c.constValue a).map (k.value w (w * 2)) = some 1 then extWidth k.node c b (w * 2)
  else extWidth k.node c a (w * 2)

/-- At these widths the two products look alike. -/
def LooksExact (k : ExtKind) (c : ExprCtx) (a b : ExprId) (w x y : Nat) : Prop :=
  k.value w (productWidth k c a b w) (x * y % 2 ^ w) =
    k.value w (extWidth k.node c a (w * 2)) x * k.value w (extWidth k.node c b (w * 2)) y %
      2 ^ factorWidth k c a b w % 2 ^ productWidth k c a b w

instance (k : ExtKind) (c : ExprCtx) (a b : ExprId) (w x y : Nat) : Decidable (LooksExact k c a b w x y) :=
  inferInstanceAs (Decidable (_ = _))

/-- What the goal for a product asks. -/
def LooksRepresentable (flags : WrapFlags) (c : ExprCtx) (a b : ExprId) (w x y : Nat) : Prop :=
  (flags.nsw = true → LooksExact .sext c a b w x y) ∧ (flags.nuw = true → LooksExact .zext c a b w x y)

/-- The arena has extended neither the operands nor their product to a width other than twice their own. -/
def Unshadowed (k : ExtKind) (c : ExprCtx) (a b : ExprId) (w : Nat) : Prop :=
  extWidth k.node c a (w * 2) = w * 2 ∧ extWidth k.node c b (w * 2) = w * 2 ∧ productWidth k c a b w = w * 2

end Overflow

/-! ## When the no-overflow goal is exact

For a sum or a difference, always. A product is judged at the widths at which the arena extends its factors and
itself, so the goal says what those widths let it see (`LooksRepresentable`), which is exact when they are twice
the operands' width.
-/

open ExprCtx

namespace ExtKind

theorem extension (k : ExtKind) : Extension k.node := by
  cases k
  · exact extension_zext
  · exact extension_sext

variable {k : ExtKind} {W : Nat} {c : ExprCtx}

theorem gives (hc : c.Built) (ht : c.Typed) {x : ExprId} {n v : Nat} {f : Valuation → Nat} (hx : c.Has x n f)
    (hw : n < W) (hle : W ≤ 128) (hv : extWidth k.node c x W = v) :
    Gives W (k.run x W) c fun id d => d.Has id v (fun ρ => k.value n v (f ρ)) ∧
      d.constValue id = (c.constValue x).map (k.value n W) := by
  cases k
  · exact zext_gives hc ht hx hw hle hv
  · exact sext_gives hc ht hx hw hle hv

theorem value_lt (k : ExtKind) (n v x : Nat) : k.value n v x < 2 ^ v := by
  cases k
  · exact Nat.mod_lt _ (Nat.two_pow_pos _)
  · exact BitVec.isLt _

end ExtKind

namespace Overflow

variable {k : ExtKind} {w : Nat} {c d e : ExprCtx} {a b : ExprId} {f g : Valuation → Nat}

/-! ## The product -/

theorem productWidth_spec (hc : c.Built) (ha : a < c.len) (hb : b < c.len) (hl : Later (w * 2) c d) {p : ExprId}
    (hde : Later (w * 2) d e) (h : bin .mul a b d = some (p, e)) : extWidth k.node e p (w * 2) = productWidth k c a b w := by
  have hconst : ∀ x < c.len, d.asConst x = c.asConst x := fun x hx => by rw [asConst, asConst, hl.node hx]
  have hfold : d.folded .mul a b = c.folded .mul a b := by
    rw [folded, folded, hconst a ha, hconst b hb, hl.width ha]
  have hident : d.identity .mul a b = c.identity .mul a b := by
    rw [identity, identity, hconst a ha, hconst b hb]
  rw [productWidth]
  cases hf : c.folded .mul a b with
  | some z =>
    obtain ⟨-, hpos, hle⟩ := folded_widths hc ha hb hf
    rw [bin_mul_of_folded_some (hfold.trans hf), hl.width ha] at h
    obtain ⟨id, e', he, -, -, hval⟩ := int_gives (W := w * 2) hl.built hl.typed (v := z) hpos hle
    obtain ⟨rfl, rfl⟩ := Prod.mk.inj (Option.some.inj (he.symm.trans h))
    obtain ⟨bv, hbv, -⟩ := Option.map_eq_some_iff.mp hval
    exact extWidth_of_const hbv
  | none =>
    rw [bin_mul_of_folded (hfold.trans hf), hident] at h
    cases hi : c.identity .mul a b with
    | some x =>
      rw [hi] at h
      obtain ⟨rfl, rfl⟩ := Prod.mk.inj (Option.some.inj (show some (x, d) = some (p, e) from h))
      have hx : x < c.len := by
        rcases identity_mem hi with rfl | rfl
        · exact ha
        · exact hb
      exact hl.extWidth k.extension hx
    | none =>
      simp only [hi] at h ⊢
      have hlate : Later (w * 2) c e := hl.trans hde
      rcases findIdx_cases (.bin .mul a b) c with ⟨j, hj, hnj, hfind⟩ | ⟨hnone, hfind⟩
      · -- the product is old: it is found again
        have hpj : p = j := by
          rcases intern_cases (.bin .mul a b) (d.width a) d with ⟨i, hi, hni, hint⟩ | ⟨hnew, -⟩
          · obtain ⟨rfl, -⟩ := Prod.mk.inj (Option.some.inj (hint.symm.trans h))
            exact hl.built.distinct i j hi (Nat.lt_of_lt_of_le hj hl.len_le) (hni.trans ((hl.node hj).trans hnj).symm)
          · exact absurd ((hl.node hj).trans hnj) (hnew j (Nat.lt_of_lt_of_le hj hl.len_le))
        rw [hfind, hpj]
        exact hlate.extWidth k.extension hj
      · -- it is new, and so is what extends it
        have hp : c.len ≤ p := by
          rcases intern_cases (.bin .mul a b) (d.width a) d with ⟨i, hi, hni, hint⟩ | ⟨-, hint⟩
          · obtain ⟨rfl, -⟩ := Prod.mk.inj (Option.some.inj (hint.symm.trans h))
            by_contra hlt
            have hi' : i < c.len := Nat.lt_of_not_le hlt
            exact hnone i hi' ((hl.node hi').symm.trans hni)
          · obtain ⟨rfl, -⟩ := Prod.mk.inj (Option.some.inj (hint.symm.trans h))
            exact hl.len_le
        rw [hfind]
        exact hlate.extWidth_new k.extension hc hp

theorem mulGoal_gives (hc : c.Built) (hl : Later (w * 2) c d) (ha : c.Has a w f) (hb : c.Has b w g) (hw : 0 < w)
    (hle : w * 2 ≤ 128) :
    Gives (w * 2) (mulGoal k a b w) d fun id e => e.Says id fun ρ => LooksExact k c a b w (f ρ) (g ρ) := by
  have hda := hl.has hc ha
  have hdb := hl.has hc hb
  have hw2 : w < w * 2 := by omega
  refine (bin_gives hl.built hl.typed .mul hda hdb hw (by omega)).with_run.bind fun pw d₁ l₁ ⟨hpw, hrun⟩ => ?_
  have hvp := productWidth_spec (k := k) hc ha.lt hb.lt hl l₁ hrun
  refine (ExtKind.gives l₁.built l₁.typed hpw hw2 hle hvp).bind fun pw2 d₂ l₂ ⟨hpw2, _⟩ => ?_
  have m₂ := (hl.trans l₁).trans l₂
  have hva := m₂.extWidth k.extension ha.lt
  refine (ExtKind.gives l₂.built l₂.typed (m₂.has hc ha) hw2 hle hva).bind fun ea d₃ l₃ ⟨hea, hone⟩ => ?_
  have m₃ := m₂.trans l₃
  have hvb := m₃.extWidth k.extension hb.lt
  refine (ExtKind.gives l₃.built l₃.typed (m₃.has hc hb) hw2 hle hvb).bind fun eb d₄ l₄ ⟨heb, _⟩ => ?_
  refine (mul_gives l₄.built l₄.typed (l₄.has l₃.built hea) heb).bind fun full d₅ l₅ ⟨_, hfull, _⟩ => ?_
  have hpw2' := ((l₃.trans l₄).trans l₅).has l₂.built hpw2
  refine (cmp_gives l₅.built l₅.typed .eq hpw2' hfull).mono fun id e _ h => h.congr fun ρ => ?_
  rw [l₄.constValue hea.lt, hone, m₂.constValue ha.lt, CmpOp.eq_eval, Nat.mod_eq_of_lt (k.value_lt _ _ _), BvOp.mul_eval, LooksExact,
    factorWidth]
  split_ifs with h1
  · -- the left factor is the constant one
    obtain ⟨v, hv, hv1⟩ := Option.map_eq_some_iff.mp h1
    obtain ⟨bv, hbv, -⟩ := Option.map_eq_some_iff.mp hv
    have hone' : k.value w (extWidth k.node c a (w * 2)) (f ρ) = 1 := by
      rw [extWidth_of_const hbv, ha.const hc hv, hv1]
    rw [hone', Nat.one_mul, Nat.mod_eq_of_lt (k.value_lt _ _ (g ρ))]
  · rfl

/-! ## The signs -/

theorem slt_zero (w x : Nat) : CmpOp.slt.eval w x (0 % 2 ^ w) = true ↔ (BitVec.ofNat w x).msb = true := by
  rw [CmpOp.eval, CmpOp.evalBv, ofNat_mod, BitVec.slt_zero_eq_msb]

theorem ofNat_eval (op : BvOp) (w x y : Nat) :
    BitVec.ofNat w (op.eval w x y) = op.evalBv (BitVec.ofNat w x) (BitVec.ofNat w y) := by
  rw [BvOp.eval, BitVec.ofNat_toNat, BitVec.setWidth_eq]

theorem fitsSigned_add (w x y : Nat) : FitsSigned .add w x y ↔
    ¬ (((BitVec.ofNat w x).msb = true ↔ (BitVec.ofNat w y).msb = true) ∧
      ¬ ((BvOp.add.evalBv (BitVec.ofNat w x) (BitVec.ofNat w y)).msb = true ↔ (BitVec.ofNat w x).msb = true)) := by
  have hfits : FitsSigned .add w x y ↔ (BitVec.ofNat w x).saddOverflow (BitVec.ofNat w y) = false := by
    simp [FitsSigned, exactResult, BitVec.saddOverflow]
  rw [hfits, BitVec.saddOverflow_eq, BvOp.evalBv]
  cases (BitVec.ofNat w x).msb <;> cases (BitVec.ofNat w y).msb <;> simp

theorem fitsSigned_sub (w x y : Nat) : FitsSigned .sub w x y ↔
    ¬ (¬ ((BitVec.ofNat w x).msb = true ↔ (BitVec.ofNat w y).msb = true) ∧
      ¬ ((BvOp.sub.evalBv (BitVec.ofNat w x) (BitVec.ofNat w y)).msb = true ↔ (BitVec.ofNat w x).msb = true)) := by
  have hfits : FitsSigned .sub w x y ↔ (BitVec.ofNat w x).ssubOverflow (BitVec.ofNat w y) = false := by
    simp [FitsSigned, exactResult, BitVec.ssubOverflow]
  rw [hfits, BitVec.ssubOverflow_eq, BvOp.evalBv]
  cases (BitVec.ofNat w x).msb <;> cases (BitVec.ofNat w y).msb <;> simp

/-! ## Unsigned comparisons -/

theorem fitsUnsigned_add {w x y : Nat} (hx : x < 2 ^ w) (hy : y < 2 ^ w) :
    CmpOp.uge.eval w (BvOp.add.eval w x y) x = true ↔ FitsUnsigned .add w x y := by
  have hfits : FitsUnsigned .add w x y ↔ x + y < 2 ^ w := by
    simp only [FitsUnsigned, exactResult]
    constructor
    · rintro ⟨-, h⟩
      exact_mod_cast h
    · intro h
      exact ⟨by omega, by exact_mod_cast h⟩
  rw [CmpOp.uge_eval, hfits, Nat.mod_eq_of_lt hx, Nat.mod_eq_of_lt (BvOp.eval_lt _ _ _ _), BvOp.eval, BvOp.evalBv,
    BitVec.toNat_add, BitVec.toNat_ofNat, BitVec.toNat_ofNat, Nat.mod_eq_of_lt hx, Nat.mod_eq_of_lt hy]
  by_cases h : x + y < 2 ^ w
  · rw [Nat.mod_eq_of_lt h]
    omega
  · have hmod : (x + y) % 2 ^ w = x + y - 2 ^ w := by
      rw [Nat.mod_eq_sub_mod (by omega), Nat.mod_eq_of_lt (by omega)]
    omega

theorem fitsUnsigned_sub {w x y : Nat} (hx : x < 2 ^ w) (hy : y < 2 ^ w) :
    CmpOp.uge.eval w x y = true ↔ FitsUnsigned .sub w x y := by
  rw [CmpOp.uge_eval, Nat.mod_eq_of_lt hx, Nat.mod_eq_of_lt hy]
  simp only [FitsUnsigned, exactResult]
  constructor
  · intro h
    have hlt : (x : Int) < 2 ^ w := by exact_mod_cast hx
    omega
  · rintro ⟨h, -⟩
    omega

/-! ## The goals -/

variable {z : ExprId} {op : BvOp}

/-- What the goal that `nsw` adds says. -/
def NswSays (op : BvOp) (c : ExprCtx) (a b : ExprId) (w x y : Nat) : Prop :=
  match op with
  | .mul => LooksExact .sext c a b w x y
  | _ => FitsSigned op w x y

/-- What the goal that `nuw` adds says. -/
def NuwSays (op : BvOp) (c : ExprCtx) (a b : ExprId) (w x y : Nat) : Prop :=
  match op with
  | .mul => LooksExact .zext c a b w x y
  | _ => FitsUnsigned op w x y

theorem sign_gives (hd : d.Built) (ht : d.Typed) (ha : d.Has a w f) (hz : d.Has z w fun _ => 0 % 2 ^ w) :
    Gives (w * 2) (cmp .slt a z) d fun id e => e.Says id fun ρ => (BitVec.ofNat w (f ρ)).msb = true :=
  (cmp_gives hd ht .slt ha hz).mono fun _ _ _ h => h.congr fun _ => slt_zero _ _

theorem nswGoals_gives (hc : c.Built) (hl : Later (w * 2) c d) (ha : c.Has a w f) (hb : c.Has b w g)
    (hz : d.Has z w fun _ => 0 % 2 ^ w) (hw : 0 < w) (hle : w * 2 ≤ 128) (hop : op = .add ∨ op = .sub ∨ op = .mul) :
    Gives (w * 2) (nswGoals op a b z w) d fun gs e =>
      ∃ id, gs = [id] ∧ e.Says id fun ρ => NswSays op c a b w (f ρ) (g ρ) := by
  have hda := hl.has hc ha
  have hdb := hl.has hc hb
  refine (sign_gives hl.built hl.typed hda hz).bind fun sa d₁ l₁ hsa => ?_
  have hz₁ := l₁.has hl.built hz
  refine (sign_gives l₁.built l₁.typed (l₁.has hl.built hdb) hz₁).bind fun sb d₂ l₂ hsb => ?_
  have m₂ := l₁.trans l₂
  have hsa₂ := l₂.meaning l₁.built hsa
  have ha₂ := m₂.has hl.built hda
  have hb₂ := m₂.has hl.built hdb
  have hz₂ := m₂.has hl.built hz
  rcases hop with rfl | rfl | rfl
  · refine (bin_gives l₂.built l₂.typed .add ha₂ hb₂ hw (by omega)).bind fun s d₃ l₃ hs => ?_
    refine (sign_gives l₃.built l₃.typed hs (l₃.has l₂.built hz₂)).bind fun ss d₄ l₄ hss => ?_
    have m₄ := l₃.trans l₄
    have hsa₄ := m₄.meaning l₂.built hsa₂
    refine (iff_gives l₄.built l₄.typed hsa₄ (m₄.meaning l₂.built hsb)).bind fun same d₅ l₅ hsame => ?_
    refine (iff_gives l₅.built l₅.typed (l₅.meaning l₄.built hss) (l₅.meaning l₄.built hsa₄)).bind fun sEqA d₆ l₆ heq => ?_
    refine (not_gives l₆.built l₆.typed heq).bind fun diff d₇ l₇ hdiff => ?_
    have hsame₇ := (l₆.trans l₇).meaning l₅.built hsame
    refine (and_gives l₇.built l₇.typed hsame₇ hdiff).bind fun ovf d₈ l₈ hovf => ?_
    refine (not_gives l₈.built l₈.typed hovf).bind fun goal d₉ l₉ hgoal => ?_
    refine Gives.pure l₉.built l₉.typed ⟨goal, rfl, hgoal.congr fun ρ => ?_⟩
    rw [ofNat_eval]
    exact (fitsSigned_add w (f ρ) (g ρ)).symm
  · refine (bin_gives l₂.built l₂.typed .sub ha₂ hb₂ hw (by omega)).bind fun s d₃ l₃ hs => ?_
    refine (sign_gives l₃.built l₃.typed hs (l₃.has l₂.built hz₂)).bind fun ss d₄ l₄ hss => ?_
    have m₄ := l₃.trans l₄
    have hsa₄ := m₄.meaning l₂.built hsa₂
    refine (iff_gives l₄.built l₄.typed hsa₄ (m₄.meaning l₂.built hsb)).bind fun sameAb d₅ l₅ hsame => ?_
    refine (not_gives l₅.built l₅.typed hsame).bind fun diffAb d₆ l₆ hdiff => ?_
    have m₆ := l₅.trans l₆
    refine (iff_gives l₆.built l₆.typed (m₆.meaning l₄.built hss) (m₆.meaning l₄.built hsa₄)).bind fun sEqA d₇ l₇ heq => ?_
    refine (not_gives l₇.built l₇.typed heq).bind fun diffS d₈ l₈ hdiffS => ?_
    have hdiff₈ := (l₇.trans l₈).meaning l₆.built hdiff
    refine (and_gives l₈.built l₈.typed hdiff₈ hdiffS).bind fun ovf d₉ l₉ hovf => ?_
    refine (not_gives l₉.built l₉.typed hovf).bind fun goal d₁₀ l₁₀ hgoal => ?_
    refine Gives.pure l₁₀.built l₁₀.typed ⟨goal, rfl, hgoal.congr fun ρ => ?_⟩
    rw [ofNat_eval]
    exact (fitsSigned_sub w (f ρ) (g ρ)).symm
  · simp only [if_pos hle]
    refine (mulGoal_gives hc (hl.trans m₂) ha hb hw hle).bind fun goal d₃ l₃ hgoal => ?_
    exact Gives.pure l₃.built l₃.typed ⟨goal, rfl, hgoal⟩

theorem nuwGoals_gives (hc : c.Built) (hl : Later (w * 2) c d) (ha : c.Has a w f) (hb : c.Has b w g)
    (hw : 0 < w) (hle : w * 2 ≤ 128) (hop : op = .add ∨ op = .sub ∨ op = .mul) :
    Gives (w * 2) (nuwGoals op a b w) d fun gs e =>
      ∃ id, gs = [id] ∧ e.Says id fun ρ => NuwSays op c a b w (f ρ) (g ρ) := by
  have hda := hl.has hc ha
  have hdb := hl.has hc hb
  rcases hop with rfl | rfl | rfl
  · refine (bin_gives hl.built hl.typed .add hda hdb hw (by omega)).bind fun s d₁ l₁ hs => ?_
    refine (cmp_gives l₁.built l₁.typed .uge hs (l₁.has hl.built hda)).bind fun goal d₂ l₂ hgoal => ?_
    refine Gives.pure l₂.built l₂.typed ⟨goal, rfl, hgoal.congr fun ρ => ?_⟩
    exact fitsUnsigned_add (hda.value_lt hl.built hl.typed ρ) (hdb.value_lt hl.built hl.typed ρ)
  · refine (cmp_gives hl.built hl.typed .uge hda hdb).bind fun goal d₁ l₁ hgoal => ?_
    refine Gives.pure l₁.built l₁.typed ⟨goal, rfl, hgoal.congr fun ρ => ?_⟩
    exact fitsUnsigned_sub (hda.value_lt hl.built hl.typed ρ) (hdb.value_lt hl.built hl.typed ρ)
  · simp only [nuwGoals, if_pos hle]
    refine (mulGoal_gives hc hl ha hb hw hle).bind fun goal d₁ l₁ hgoal => ?_
    exact Gives.pure l₁.built l₁.typed ⟨goal, rfl, hgoal⟩

theorem arithNoOverflow_gives (hc : c.Built) (ht : c.Typed) (ha : c.Has a w f) (hb : c.Has b w g) (hw : 0 < w)
    (hle : w * 2 ≤ 128) (hop : op = .add ∨ op = .sub ∨ op = .mul) {flags : WrapFlags}
    (hflags : flags.nsw = true ∨ flags.nuw = true) :
    Gives (w * 2) (arithNoOverflow op a b flags) c fun r d => ∃ id, r = some id ∧ d.Says id fun ρ =>
      (flags.nsw = true → NswSays op c a b w (f ρ) (g ρ)) ∧ (flags.nuw = true → NuwSays op c a b w (f ρ) (g ρ)) := by
  obtain rfl := ha.width
  refine Gives.get ?_
  refine (int_gives hc ht hw (by omega)).bind fun z d₁ l₁ ⟨hz, _⟩ => ?_
  obtain ⟨nsw, nuw⟩ := flags
  cases nsw with
  | true =>
    refine (nswGoals_gives hc l₁ ha hb hz hw hle hop).bind fun gs d₂ l₂ ⟨id₁, hgs, hmeans₁⟩ => ?_
    subst hgs
    cases nuw with
    | true =>
      refine (nuwGoals_gives hc (l₁.trans l₂) ha hb hw hle hop).bind fun hs d₃ l₃ ⟨id₂, hhs, hmeans₂⟩ => ?_
      subst hhs
      refine (and_gives l₃.built l₃.typed (l₃.meaning l₂.built hmeans₁) hmeans₂).bind fun id d₄ l₄ hid => ?_
      exact Gives.pure l₄.built l₄.typed ⟨id, rfl, hid.congr fun ρ => by simp⟩
    | false => exact Gives.pure l₂.built l₂.typed ⟨id₁, rfl, hmeans₁.congr fun ρ => by simp⟩
  | false =>
    obtain rfl : nuw = true := by simpa using hflags
    refine Gives.bind (q := fun gs _ => gs = []) (Gives.pure l₁.built l₁.typed rfl) fun gs d₂ l₂ hgs => ?_
    subst hgs
    refine (nuwGoals_gives hc (l₁.trans l₂) ha hb hw hle hop).bind fun hs d₃ l₃ ⟨id₂, hhs, hmeans₂⟩ => ?_
    subst hhs
    exact Gives.pure l₃.built l₃.typed ⟨id₂, rfl, hmeans₂.congr fun ρ => by simp⟩

/-! ## Twice the width -/

theorem looksExact_zext {x y : Nat} (h : Unshadowed .zext c a b w) (hx : x < 2 ^ w) (hy : y < 2 ^ w) :
    LooksExact .zext c a b w x y ↔ FitsUnsigned .mul w x y := by
  obtain ⟨ha, hb, hp⟩ := h
  have hm : factorWidth .zext c a b w = w * 2 := by
    rw [factorWidth, ha, hb, ite_self]
  have hpow : 2 ^ (w * 2) = 2 ^ w * 2 ^ w := by rw [Nat.mul_two, Nat.pow_add]
  have hxy : x * y < 2 ^ (w * 2) := hpow ▸ Nat.mul_lt_mul'' hx hy
  have hwide : ∀ z, z < 2 ^ w → z % 2 ^ (w * 2) = z := fun z hz =>
    Nat.mod_eq_of_lt (lt_of_lt_of_le hz (Nat.pow_le_pow_right (by decide) (by omega)))
  have hfits : FitsUnsigned .mul w x y ↔ x * y < 2 ^ w := by
    simp only [FitsUnsigned, exactResult]
    constructor
    · rintro ⟨-, h⟩
      exact_mod_cast h
    · intro h
      exact ⟨by positivity, by exact_mod_cast h⟩
  rw [LooksExact, ha, hb, hp, hm, hfits]
  simp only [ExtKind.value, zeroExtend, hwide x hx, hwide y hy, hwide _ (Nat.mod_lt _ (Nat.two_pow_pos w)),
    Nat.mod_eq_of_lt hxy]
  exact Nat.mod_eq_iff_lt (Nat.two_pow_pos w).ne'

theorem two_pow_half {v : Nat} (hv : 0 < v) : ((2 ^ v : Nat) : Int) = 2 * 2 ^ (v - 1) := by
  obtain ⟨n, rfl⟩ := Nat.exists_eq_succ_of_ne_zero hv.ne'
  push_cast
  rw [pow_succ]
  ring

theorem bmod_eq_self_iff {v : Nat} (hv : 0 < v) (r : Int) :
    r.bmod (2 ^ v) = r ↔ r < 2 ^ (v - 1) ∧ -2 ^ (v - 1) ≤ r := by
  have h2 := two_pow_half hv
  rw [Int.bmod_eq_iff (Nat.two_pow_pos v)]
  simp only [Int.sub_self, dvd_zero, and_true]
  omega

theorem toInt_mul_toInt_bmod {v : Nat} (x y : BitVec v) (hv : 0 < v) :
    (x.toInt * y.toInt).bmod (2 ^ (v * 2)) = x.toInt * y.toInt := by
  rw [bmod_eq_self_iff (by omega)]
  have hlt : (2 : Int) ^ (v * 2 - 2) < 2 ^ (v * 2 - 1) := Int.pow_lt_pow_of_lt (by decide) (by omega)
  have hle := BitVec.toInt_mul_toInt_le (x := x) (y := y)
  have hge := BitVec.le_toInt_mul_toInt (x := x) (y := y)
  omega

theorem looksExact_sext {x y : Nat} (h : Unshadowed .sext c a b w) (hw : 0 < w) :
    LooksExact .sext c a b w x y ↔ FitsSigned .mul w x y := by
  obtain ⟨ha, hb, hp⟩ := h
  have hm : factorWidth .sext c a b w = w * 2 := by
    rw [factorWidth, ha, hb, ite_self]
  have hle : w ≤ w * 2 := by omega
  have hxy : BitVec.ofNat w (x * y % 2 ^ w) = BitVec.ofNat w x * BitVec.ofNat w y := by
    rw [ofNat_mod, BitVec.ofNat_mul]
  rw [LooksExact, ha, hb, hp, hm, Nat.mod_mod]
  simp only [ExtKind.value, signExtend]
  rw [← BitVec.toNat_mul, BitVec.toNat_inj, ← BitVec.toInt_inj, hxy, BitVec.toInt_signExtend_of_le hle,
    BitVec.toInt_mul, BitVec.toInt_mul, BitVec.toInt_signExtend_of_le hle, BitVec.toInt_signExtend_of_le hle,
    toInt_mul_toInt_bmod _ _ hw, bmod_eq_self_iff hw]
  rfl

/-! ## The law -/

/-- At these operand values the widths in the arena do not mislead: the goal has no product, or the products look
alike exactly when the product is representable. -/
def NotMisled (op : BvOp) (flags : WrapFlags) (c : ExprCtx) (a b : ExprId) (w x y : Nat) : Prop :=
  op = .mul → (LooksRepresentable flags c a b w x y ↔ Representable .mul flags w x y)

/-- The condition in terms of the arena alone. -/
def AllUnshadowed (op : BvOp) (flags : WrapFlags) (c : ExprCtx) (a b : ExprId) (w : Nat) : Prop :=
  op = .mul → (flags.nsw = true → Unshadowed .sext c a b w) ∧ (flags.nuw = true → Unshadowed .zext c a b w)

theorem says_iff (hop : op = .add ∨ op = .sub ∨ op = .mul) (flags : WrapFlags) (x y : Nat) :
    ((flags.nsw = true → NswSays op c a b w x y) ∧ (flags.nuw = true → NuwSays op c a b w x y)) ↔
      if op = .mul then LooksRepresentable flags c a b w x y else Representable op flags w x y := by
  rcases hop with rfl | rfl | rfl
  · rfl
  · rfl
  · rfl

theorem notMisled_of_unshadowed {flags : WrapFlags} {x y : Nat} (h : AllUnshadowed op flags c a b w) (hw : 0 < w)
    (hx : x < 2 ^ w) (hy : y < 2 ^ w) : NotMisled op flags c a b w x y := by
  intro hmul
  obtain ⟨hs, hz⟩ := h hmul
  apply and_congr
  · exact imp_congr_right fun hf => looksExact_sext (hs hf) hw
  · exact imp_congr_right fun hf => looksExact_zext (hz hf) hx hy

/-- Two 32-bit counts, of which the goal for the size of an array of bytes has extended one to 40 bits. -/
def countsCtx : ExprCtx := ⟨[(.sym "n" 32, 32), (.sym "m" 32, 32), (.zext 0, 40)]⟩

theorem countsCtx_built : countsCtx.Built :=
  .zext (c := ⟨[(.sym "n" 32, 32), (.sym "m" 32, 32)]⟩) (x := 0) 40
    (.symbol (c := ⟨[(.sym "n" 32, 32)]⟩) "m" 32 (.symbol "n" 32 .empty rfl) rfl) (by decide) rfl

theorem countsCtx_typed : countsCtx.Typed := by
  intro i hi
  match i, hi with
  | 0, _ => trivial
  | 1, _ => trivial
  | 2, _ => trivial

end Overflow

end Csolver
