import Csolver.Solver.BuildRuns

/-!
# The overflow goal of an allocation's size (`size_overflow_goal` of `exec/checks.rs`)

The size is taken apart into a constant and its variable factors. One factor is compared with the limit divided by
the constant; several are multiplied at the sum of their widths first. The limit is a constant of the width at which
the comparison is made, so where that width is too small for it, only its low bits are compared.
-/

namespace Csolver

open ExprCtx

namespace SizeGoal

/-- Flatten a tree of products: the source's stack hands out the right factor first. -/
def mulFactorsFuel (c : ExprCtx) : Nat → ExprId → List ExprId
  | 0, _ => []
  | fuel + 1, x =>
    match c.node x with
    | .bin .mul a b => mulFactorsFuel c fuel b ++ mulFactorsFuel c fuel a
    | _ => [x]

/-- `mul_factors`; the factors of a handle are below it. -/
def mulFactors (c : ExprCtx) (e : ExprId) : List ExprId := mulFactorsFuel c (e + 1) e

/-- The product of the constants, and the other factors in order; `none` when it overflows a `u128`. -/
def splitFactors (c : ExprCtx) : List ExprId → Nat → List ExprId → Option (Nat × List ExprId)
  | [], k, vars => some (k, vars)
  | f :: fs, k, vars =>
    match c.asConst f with
    | some bv => if k * bv.value < 2 ^ 128 then splitFactors c fs (k * bv.value) vars else none
    | none => splitFactors c fs k (vars ++ [f])

/-- `UINT_MAX` at pointer width. -/
def umax : Nat := 2 ^ 64 - 1

/-- The factors multiplied at `total` bits, onto what there is. -/
def productOf (total : Nat) : List ExprId → ExprId → ExprM ExprId
  | [], prod => pure prod
  | v :: vs, prod => do
    let z ← zext v total
    let prod ← bin .mul z prod
    productOf total vs prod

/-- `UINT_MAX / c`; dividing by zero panics. -/
def limit (k : Nat) : Option Nat := if k = 0 then none else some (umax / k)

def sizeOverflowGoal (size : ExprId) : ExprM (Option ExprId) := do
  let c ← get
  match splitFactors c (mulFactors c size) 1 [] with
  | none => return none
  | some (k, vars) =>
    match vars with
    | [] => return none
    | [var] =>
      if k ≤ 1 then return none
      else
        let l ← (limit k : Option Nat)
        let bound ← int 64 l
        let goal ← cmp .ule var bound
        return some goal
    | vars =>
      let total := (vars.map c.width).sum
      if total = 0 ∨ 128 < total then return none
      else
        let one ← int total 1
        let prod ← productOf total vars one
        let l ← (limit k : Option Nat)
        let bound ← int total l
        let goal ← cmp .ule prod bound
        return some goal

/-! ## What is compared -/

variable (ρ : Valuation) (c : ExprCtx)

/-- The number that a factor stands for. -/
def valueOf (x : ExprId) : Nat := (c.expr x).eval ρ

/-- The product of the factors, with no width. -/
def product (vars : List ExprId) : Nat := (vars.map (valueOf ρ c)).prod

/-- The product at the widths at which the arena extends the factors to `total` bits. -/
def shownProduct (total : Nat) : List ExprId → Nat → Nat
  | [], p => p
  | v :: vs, p => shownProduct total vs (valueOf ρ c v * p % 2 ^ extWidth .zext c v total)

/-- The width of the comparison: that of the last factor multiplied. -/
def shownWidth (total : Nat) : List ExprId → Nat → Nat
  | [], n => n
  | v :: vs, _ => shownWidth total vs (extWidth .zext c v total)

def shown (vars : List ExprId) : Nat :=
  match vars with
  | [var] => valueOf ρ c var
  | vars => shownProduct ρ c (vars.map c.width).sum vars 1

def shownLimit (k : Nat) (vars : List ExprId) : Nat :=
  match vars with
  | [var] => umax / k % 2 ^ c.width var
  | vars => umax / k % 2 ^ (vars.map c.width).sum % 2 ^ shownWidth c (vars.map c.width).sum vars (vars.map c.width).sum

/-- The bits that are cut off the limit or off the product turn the comparison. -/
def Misled (k : Nat) (vars : List ExprId) : Prop :=
  shownLimit c k vars < shown ρ c vars ∧ product ρ c vars ≤ umax / k ∨
    shown ρ c vars ≤ shownLimit c k vars ∧ umax / k < product ρ c vars

/-- The limit fits the width of the comparison, and no factor has been extended to another width. -/
def Roomy (k : Nat) (vars : List ExprId) : Prop :=
  match vars with
  | [var] => umax / k < 2 ^ c.width var
  | vars => umax / k < 2 ^ (vars.map c.width).sum ∧
      ∀ v ∈ vars, extWidth .zext c v (vars.map c.width).sum = (vars.map c.width).sum

end SizeGoal

/-! ## When the overflow goal of an allocation's size is exact

The goal says that the product, as the arena shows it, is at most the limit as the comparison shows it. Both lose
bits only at the top, so the goal misleads in two ways: the limit is cut off below a product that is allowed, or the
product below the limit it exceeds.
-/

open ExprCtx

namespace SizeGoal

variable {c d e : ExprCtx} {ρ : Valuation} {k total : Nat} {vars : List ExprId}

/-! ## The factors -/

theorem mem_mulFactorsFuel (hc : c.Built) : ∀ (fuel : Nat) (x : ExprId), x < c.len →
    ∀ f ∈ mulFactorsFuel c fuel x, f < c.len
  | 0, _, _, f, hf => absurd hf List.not_mem_nil
  | fuel + 1, x, hx, f, hf => by
    rw [mulFactorsFuel] at hf
    split at hf
    · rename_i a b hn
      have hok := hc.ok.node hx
      rw [hn] at hok
      rcases List.mem_append.mp hf with hf | hf
      · exact mem_mulFactorsFuel hc fuel b (Nat.lt_trans hok.2.1 hx) f hf
      · exact mem_mulFactorsFuel hc fuel a (Nat.lt_trans hok.1 hx) f hf
    · rw [List.mem_singleton.mp hf]
      exact hx

theorem mem_splitFactors {v : ExprId} : ∀ (fs : List ExprId) (k₀ : Nat) (vs : List ExprId),
    splitFactors c fs k₀ vs = some (k, vars) → v ∈ vars → v ∈ vs ∨ v ∈ fs ∧ c.constValue v = none
  | [], k₀, vs, h, hv => by
    obtain ⟨-, rfl⟩ := Prod.mk.inj (Option.some.inj h)
    exact .inl hv
  | f :: fs, k₀, vs, h, hv => by
    rw [splitFactors] at h
    split at h
    · split_ifs at h
      rcases mem_splitFactors fs _ vs h hv with hv | ⟨hv, hn⟩
      · exact .inl hv
      · exact .inr ⟨List.mem_cons_of_mem f hv, hn⟩
    · rename_i hf
      rcases mem_splitFactors fs k₀ _ h hv with hv | ⟨hv, hn⟩
      · rcases List.mem_append.mp hv with hv | hv
        · exact .inl hv
        · rw [List.mem_singleton.mp hv]
          exact .inr ⟨List.mem_cons_self, constValue_eq_none.mpr hf⟩
      · exact .inr ⟨List.mem_cons_of_mem f hv, hn⟩

theorem mem_vars {size v : ExprId} (hc : c.Built) (hsize : size < c.len)
    (hsplit : splitFactors c (mulFactors c size) 1 [] = some (k, vars)) (hv : v ∈ vars) :
    v < c.len ∧ c.constValue v = none := by
  rcases mem_splitFactors _ _ _ hsplit hv with hv | ⟨hv, hn⟩
  · exact absurd hv List.not_mem_nil
  · exact ⟨mem_mulFactorsFuel hc _ size hsize v hv, hn⟩

/-! ## The product -/

/-- A factor of the product: an old handle that is not constant and narrower than the product. -/
structure Factor (c : ExprCtx) (total : Nat) (v : ExprId) : Prop where
  lt : v < c.len
  var : c.constValue v = none
  narrow : c.width v < total

theorem productOf_gives (hc : c.Built) (hle : total ≤ 128) : ∀ (vs : List ExprId) {d : ExprCtx} {p : ExprId} {n : Nat}
    {f : Valuation → Nat}, (∀ v ∈ vs, Factor c total v) → Later total c d → d.Has p n f → d.constValue p ≠ some 0 →
    Gives total (productOf total vs p) d fun id e =>
      e.Has id (shownWidth c total vs n) fun ρ => shownProduct ρ c total vs (f ρ)
  | [], d, p, n, f, _, hl, hp, _ => Gives.pure hl.built hl.typed hp
  | v :: vs, d, p, n, f, hvs, hl, hp, hp0 => by
    have hv := hvs v List.mem_cons_self
    have hdv := hl.has hc (has_self hv.lt)
    have hext := hl.extWidth extension_zext hv.lt
    refine (zext_gives hl.built hl.typed hdv hv.narrow hle hext).bind fun z d₁ l₁ ⟨hz, hzc⟩ => ?_
    have hz0 : d₁.constValue z = none := by
      rw [hzc, hl.constValue hv.lt, hv.var]
      rfl
    have hp0₁ : d₁.constValue p ≠ some 0 := by rwa [l₁.constValue hp.lt]
    refine (mul_gives l₁.built l₁.typed hz (l₁.has hl.built hp)).bind fun q d₂ l₂ ⟨m, hq, hqm⟩ => ?_
    obtain ⟨rfl, hqc⟩ := hqm hz0 hp0₁
    have hq' : d₂.Has q (extWidth .zext c v total) fun ρ => valueOf ρ c v * f ρ % 2 ^ extWidth .zext c v total := by
      refine hq.congr fun ρ => ?_
      have hfit : (c.expr v).eval ρ < 2 ^ extWidth .zext c v total :=
        lt_of_lt_of_le (hdv.value_lt hl.built hl.typed ρ)
          (Nat.pow_le_pow_right (by decide) (Nat.le_of_lt (lt_extWidth extension_zext hc hv.narrow)))
      rw [hz0, if_neg (by simp), zeroExtend, Nat.mod_eq_of_lt hfit]
      rfl
    exact productOf_gives hc hle vs (fun u hu => hvs u (List.mem_cons_of_mem v hu)) ((hl.trans l₁).trans l₂) hq'
      (by rw [hqc]; exact (Option.some_ne_none 0).symm)

theorem ule_meaning {x y : ExprId} {w v : Nat} {f g : Valuation → Nat} {W : Nat} (hd : d.Built) (ht : d.Typed)
    (hx : d.Has x w f) (hy : d.Has y v g) :
    Gives W (cmp .ule x y) d fun id e => e.Says id fun ρ => f ρ ≤ g ρ % 2 ^ w :=
  (cmp_gives hd ht .ule hx hy).mono fun _ _ _ h => h.congr fun ρ => by
    rw [CmpOp.ule_eval, Nat.mod_eq_of_lt (hx.value_lt hd ht ρ)]

theorem lt_sum_of_mem {f : ExprId → Nat} {x : ExprId} : ∀ {l : List ExprId}, (∀ y ∈ l, 0 < f y) → 2 ≤ l.length → x ∈ l →
    f x < (l.map f).sum
  | y :: l, hpos, hlen, hx => by
    rw [List.map_cons, List.sum_cons]
    rcases List.mem_cons.mp hx with rfl | hx
    · obtain ⟨z, l', rfl⟩ : ∃ z l', l = z :: l' := List.exists_cons_of_length_pos (Nat.le_of_succ_le_succ hlen)
      have hz := hpos z (by simp)
      rw [List.map_cons, List.sum_cons]
      omega
    · have hy := hpos y List.mem_cons_self
      have hle : f x ≤ (l.map f).sum := List.le_sum_of_mem (List.mem_map_of_mem hx)
      omega

theorem vars_ne_nil (hc : c.Built) (ht : c.Typed) {size goal : ExprId}
    (hsplit : splitFactors c (mulFactors c size) 1 [] = some (k, vars))
    (hrun : sizeOverflowGoal size c = some (some goal, d)) : vars ≠ [] := by
  rintro rfl
  have hnone : Gives 0 (sizeOverflowGoal size) c fun r _ => r = none := by
    refine Gives.get ?_
    rw [hsplit]
    exact Gives.pure hc ht rfl
  exact absurd (hnone.of_run hrun) (Option.some_ne_none goal)

theorem sizeOverflowGoal_meaning (hc : c.Built) (ht : c.Typed) {size goal : ExprId} (hsize : size < c.len)
    (hsplit : splitFactors c (mulFactors c size) 1 [] = some (k, vars)) (hk : 1 ≤ k) (hpos : ∀ v ∈ vars, 0 < c.width v)
    (hrun : sizeOverflowGoal size c = some (some goal, d)) :
    d.Says goal fun ρ => shown ρ c vars ≤ shownLimit c k vars := by
  have hvar : ∀ v ∈ vars, v < c.len ∧ c.constValue v = none := fun v => mem_vars hc hsize hsplit
  have hlimit : limit k = some (umax / k) := if_neg (by omega)
  match vars, hsplit, hvar, hpos with
  | [], hsplit, _, _ => exact absurd rfl (vars_ne_nil hc ht hsplit hrun)
  | [var], hsplit, hvar, _ =>
    obtain ⟨hlt, -⟩ := hvar var List.mem_cons_self
    have hmeans : Gives 0 (sizeOverflowGoal size) c fun r d => ∀ id, r = some id →
        d.Says id fun ρ => shown ρ c [var] ≤ shownLimit c k [var] := by
      refine Gives.get ?_
      rw [hsplit]
      simp only
      split_ifs with hone
      · exact Gives.pure hc ht (by simp)
      · refine Gives.lift hlimit ((int_gives hc ht (by decide) (by decide)).bind fun bound d₁ l₁ ⟨hbound, _⟩ => ?_)
        refine (ule_meaning l₁.built l₁.typed (l₁.has hc (has_self hlt)) hbound).bind fun goal' d₂ l₂ hgoal => ?_
        refine Gives.pure l₂.built l₂.typed fun id hid => ?_
        obtain rfl := Option.some.inj hid
        refine hgoal.congr fun ρ => ?_
        have hfit : umax / k < 2 ^ 64 := lt_of_le_of_lt (Nat.div_le_self _ _) (by decide)
        rw [shown, shownLimit, valueOf, Nat.mod_eq_of_lt hfit]
    exact hmeans.of_run hrun goal rfl
  | v :: u :: vs, hsplit, hvar, hpos =>
    have hmeans : Gives ((v :: u :: vs).map c.width).sum (sizeOverflowGoal size) c fun r d => ∀ id, r = some id →
        d.Says id fun ρ => shown ρ c (v :: u :: vs) ≤ shownLimit c k (v :: u :: vs) := by
      refine Gives.get ?_
      rw [hsplit]
      simp only
      split_ifs with htotal
      · exact Gives.pure hc ht (by simp)
      · obtain ⟨h0, hle⟩ := not_or.mp htotal
        have hle' := Nat.le_of_not_lt hle
        have hfactor : ∀ x ∈ v :: u :: vs, Factor c ((v :: u :: vs).map c.width).sum x := fun x hx =>
          ⟨(hvar x hx).1, (hvar x hx).2, lt_sum_of_mem hpos (by simp) hx⟩
        have hone : 1 % 2 ^ ((v :: u :: vs).map c.width).sum = 1 := Nat.one_mod_two_pow (Nat.pos_of_ne_zero h0)
        refine (int_gives hc ht (Nat.pos_of_ne_zero h0) hle').bind fun one d₁ l₁ ⟨h1, h1c⟩ => ?_
        refine (productOf_gives hc hle' _ hfactor l₁ h1 (by rw [h1c, hone]; simp)).bind fun prod d₂ l₂ hprod => ?_
        refine Gives.lift hlimit ((int_gives l₂.built l₂.typed (Nat.pos_of_ne_zero h0) hle').bind
          fun bound d₃ l₃ ⟨hbound, _⟩ => ?_)
        refine (ule_meaning l₃.built l₃.typed (l₃.has l₂.built hprod) hbound).bind fun goal' d₄ l₄ hgoal => ?_
        refine Gives.pure l₄.built l₄.typed fun id hid => ?_
        obtain rfl := Option.some.inj hid
        refine hgoal.congr fun ρ => ?_
        rw [hone]
        rfl
    exact hmeans.of_run hrun goal rfl

/-! ## The law -/

theorem product_cons (ρ : Valuation) (c : ExprCtx) (v : ExprId) (vs : List ExprId) :
    product ρ c (v :: vs) = valueOf ρ c v * product ρ c vs := by
  rw [product, List.map_cons, List.prod_cons, ← product]

theorem product_le (hc : c.Built) (ht : c.Typed) (ρ : Valuation) (vars : List ExprId) :
    (∀ v ∈ vars, v < c.len) → product ρ c vars ≤ 2 ^ (vars.map c.width).sum := by
  induction vars with
  | nil => exact fun _ => Nat.le_refl 1
  | cons v vs ih =>
    intro hvs
    have hv : valueOf ρ c v < 2 ^ c.width v := eval_lt_width hc.ok ht v (hvs v List.mem_cons_self)
    rw [product_cons, List.map_cons, List.sum_cons, Nat.pow_add]
    exact Nat.mul_le_mul (Nat.le_of_lt hv) (ih fun u hu => hvs u (List.mem_cons_of_mem v hu))

theorem product_lt (hc : c.Built) (ht : c.Typed) (ρ : Valuation) {v : ExprId} {vs : List ExprId}
    (hvs : ∀ u ∈ v :: vs, u < c.len) : product ρ c (v :: vs) < 2 ^ ((v :: vs).map c.width).sum := by
  have hv : valueOf ρ c v < 2 ^ c.width v := eval_lt_width hc.ok ht v (hvs v List.mem_cons_self)
  rw [product_cons, List.map_cons, List.sum_cons, Nat.pow_add]
  exact Nat.mul_lt_mul_of_lt_of_le hv (product_le hc ht ρ vs fun u hu => hvs u (List.mem_cons_of_mem v hu))
    (Nat.two_pow_pos _)

theorem shownProduct_eq : ∀ {vars : List ExprId} {p : Nat}, (∀ v ∈ vars, extWidth .zext c v total = total) → p < 2 ^ total →
    shownProduct ρ c total vars p = product ρ c vars * p % 2 ^ total
  | [], p, _, hp => by
    rw [shownProduct, product, List.map_nil, List.prod_nil, Nat.one_mul, Nat.mod_eq_of_lt hp]
  | v :: vs, p, hvs, hp => by
    rw [shownProduct, hvs v List.mem_cons_self,
      shownProduct_eq (fun u hu => hvs u (List.mem_cons_of_mem v hu)) (Nat.mod_lt _ (Nat.two_pow_pos _)), Nat.mul_mod_mod,
      product_cons]
    congr 1
    ring

theorem shownWidth_eq : ∀ {vars : List ExprId}, (∀ v ∈ vars, extWidth .zext c v total = total) →
    shownWidth c total vars total = total
  | [], _ => rfl
  | v :: vs, hvs => by
    rw [shownWidth, hvs v List.mem_cons_self]
    exact shownWidth_eq fun u hu => hvs u (List.mem_cons_of_mem v hu)

theorem not_misled_of_roomy (hc : c.Built) (ht : c.Typed) (hlt : ∀ v ∈ vars, v < c.len) (hpos : ∀ v ∈ vars, 0 < c.width v)
    (hne : vars ≠ []) (h : Roomy c k vars) (ρ : Valuation) : ¬ Misled ρ c k vars := by
  have hsame : shown ρ c vars = product ρ c vars ∧ shownLimit c k vars = umax / k := by
    match vars, hlt, hpos, h with
    | [var], _, _, h =>
      refine ⟨?_, Nat.mod_eq_of_lt h⟩
      rw [shown, product, List.map_singleton, List.prod_singleton]
    | v :: u :: vs, hlt, hpos, ⟨hfit, hext⟩ =>
      have hprod := product_lt hc ht ρ hlt
      have htotal : 0 < ((v :: u :: vs).map c.width).sum :=
        Nat.zero_lt_of_lt (lt_sum_of_mem hpos (by simp) List.mem_cons_self)
      refine ⟨?_, ?_⟩
      · rw [shown, shownProduct_eq hext (Nat.one_lt_two_pow htotal.ne'), Nat.mul_one, Nat.mod_eq_of_lt hprod]
        exact fun var he => absurd (List.tail_eq_of_cons_eq he) (by simp)
      · rw [shownLimit, shownWidth_eq hext, Nat.mod_mod, Nat.mod_eq_of_lt hfit]
        exact fun var he => absurd (List.tail_eq_of_cons_eq he) (by simp)
  rw [Misled, hsame.1, hsame.2]
  omega

theorem mul_lt_iff (hk : 1 ≤ k) (n : Nat) : k * n < 2 ^ 64 ↔ n ≤ umax / k := by
  have hpow : 2 ^ 64 = umax + 1 := by decide
  rw [Nat.le_div_iff_mul_le hk, Nat.mul_comm k n, hpow, Nat.lt_succ_iff]

/-- The size `n * m` of two 32-bit counts. -/
def wordsCtx : ExprCtx := ⟨[(.sym "n" 32, 32), (.sym "m" 32, 32), (.bin .mul 0 1, 32)]⟩

theorem wordsCtx_built : wordsCtx.Built :=
  .bin (c := ⟨[(.sym "n" 32, 32), (.sym "m" 32, 32)]⟩) (a := 0) (b := 1) .mul
    (.symbol (c := ⟨[(.sym "n" 32, 32)]⟩) "m" 32 (.symbol "n" 32 .empty rfl) rfl) (by decide) (by decide) rfl

theorem wordsCtx_typed : wordsCtx.Typed := by
  intro i hi
  match i, hi with
  | 0, _ => trivial
  | 1, _ => trivial
  | 2, _ => trivial

/-- The size `(n * m) * 3` of two one-byte counts. -/
def bytesCtx : ExprCtx :=
  ⟨[(.sym "n" 8, 8), (.sym "m" 8, 8), (.bin .mul 0 1, 8), (.const ⟨8, 3, BitVector.pos8, BitVector.le8, BitVector.three_lt8⟩, 8),
    (.bin .mul 2 3, 8)]⟩

theorem bytesCtx_built : bytesCtx.Built :=
  .bin (c := ⟨[(.sym "n" 8, 8), (.sym "m" 8, 8), (.bin .mul 0 1, 8),
      (.const ⟨8, 3, BitVector.pos8, BitVector.le8, BitVector.three_lt8⟩, 8)]⟩) (a := 2) (b := 3) .mul
    (.constant (c := ⟨[(.sym "n" 8, 8), (.sym "m" 8, 8), (.bin .mul 0 1, 8)]⟩) ⟨8, 3, BitVector.pos8, BitVector.le8, BitVector.three_lt8⟩
      (.bin (c := ⟨[(.sym "n" 8, 8), (.sym "m" 8, 8)]⟩) (a := 0) (b := 1) .mul
        (.symbol (c := ⟨[(.sym "n" 8, 8)]⟩) "m" 8 (.symbol "n" 8 .empty rfl) rfl) (by decide) (by decide) rfl) rfl)
    (by decide) (by decide) rfl

theorem bytesCtx_typed : bytesCtx.Typed := by
  intro i hi
  match i, hi with
  | 0, _ => trivial
  | 1, _ => trivial
  | 2, _ => trivial
  | 3, _ => trivial
  | 4, _ => trivial

end SizeGoal

end Csolver
