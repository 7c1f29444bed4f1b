import Csolver.Solver.Circuits

/-!
# The arithmetic circuits compute

Each circuit has one lemma: what it leaves is a conservative extension, its outputs have the
operands' width, and in every solution they spell the right number. All of it is stated on numbers
(`num`); the passage to `BitVec` is in the last module of the chain.
-/

namespace Csolver.Sat

open Csolver.Lib

namespace Cnf

/-- The literals of a list are allocated. -/
abbrev In (c : Cnf) (ls : List Lit) : Prop := ∀ l ∈ ls, l.var < c.numVars

theorem In.mono {c d : Cnf} {ls : List Lit} (h : c.In ls) (hx : c.view.Extends d.view) : d.In ls :=
  fun l hl => Nat.lt_of_lt_of_le (h l hl) hx.le

theorem In.negated {c : Cnf} {ls : List Lit} (h : c.In ls) : c.In (ls.map Lit.negated) := by
  intro l hl
  obtain ⟨l', hl', rfl⟩ := List.mem_map.mp hl
  exact h l' hl'

theorem In.replicate {c : Cnf} {l : Lit} (h : l.var < c.numVars) (n : Nat) :
    c.In (List.replicate n l) := by
  intro l' hl'
  rw [List.eq_of_mem_replicate hl']
  exact h

theorem In.take {c : Cnf} {ls : List Lit} (h : c.In ls) (n : Nat) : c.In (ls.take n) :=
  fun l hl => h l (List.mem_of_mem_take hl)

theorem In.append {c : Cnf} {as bs : List Lit} (ha : c.In as) (hb : c.In bs) : c.In (as ++ bs) := by
  intro l hl
  rcases List.mem_append.mp hl with hl | hl
  · exact ha l hl
  · exact hb l hl

/-! ## Addition -/

theorem fullAdder_builds {c : Cnf} (h : c.Ok) {a b cin : Lit} (ha : a.var < c.numVars)
    (hb : b.var < c.numVars) (hc : cin.var < c.numVars) :
    Builds (fullAdder a b cin) c fun m r =>
      (litVal m r.1).toNat + 2 * (litVal m r.2).toNat =
        (litVal m a).toNat + (litVal m b).toNat + (litVal m cin).toNat := by
  refine (xor2_builds h ha hb).bind fun axb c₁ hx₁ h₁ haxb _ => ?_
  have hc₁ := Nat.lt_of_lt_of_le hc hx₁.le
  refine (xor2_builds h₁ haxb hc₁).bind fun sum c₂ hx₂ h₂ hsum _ => ?_
  have ha₂ := Nat.lt_of_lt_of_le ha (hx₁.trans hx₂).le
  have hb₂ := Nat.lt_of_lt_of_le hb (hx₁.trans hx₂).le
  refine (and2_builds h₂ ha₂ hb₂).bind fun ab c₃ hx₃ h₃ hab _ => ?_
  have hc₃ := Nat.lt_of_lt_of_le hc₁ (hx₂.trans hx₃).le
  have haxb₃ := Nat.lt_of_lt_of_le haxb (hx₂.trans hx₃).le
  refine (and2_builds h₃ hc₃ haxb₃).bind fun cx c₄ hx₄ h₄ hcx _ => ?_
  refine (or2_builds h₄ (Nat.lt_of_lt_of_le hab hx₄.le) hcx).bind fun cout c₅ hx₅ h₅ hcout _ => ?_
  have hsum₅ := Nat.lt_of_lt_of_le hsum ((hx₃.trans hx₄).trans hx₅).le
  refine Builds.pure h₅ ⟨hsum₅, hcout⟩ fun m _ e₅ e₄ e₃ e₂ e₁ => ?_
  show (litVal m sum).toNat + 2 * (litVal m cout).toNat = _
  rw [e₅, e₄, e₃, e₂, e₁]
  cases litVal m a <;> cases litVal m b <;> cases litVal m cin <;> rfl

/-- **The ripple-carry adder** adds. -/
theorem adder_builds (as : List Lit) :
    ∀ {bs : List Lit} {cin : Lit} {c : Cnf}, c.Ok → c.In as → c.In bs → cin.var < c.numVars →
      as.length = bs.length →
      Builds (adder as bs cin) c fun m r => r.1.length = as.length ∧
        num m r.1 + 2 ^ as.length * (litVal m r.2).toNat =
          num m as + num m bs + (litVal m cin).toNat := by
  induction as with
  | nil =>
    intro bs cin c h _ _ hc hlen
    match bs, hlen with
    | [], _ =>
      refine Builds.pure h ⟨fun l hl => absurd hl List.not_mem_nil, hc⟩ fun m _ => ?_
      exact ⟨rfl, by simp⟩
  | cons a as ih =>
    intro bs cin c h ha hb hc hlen
    match bs, hlen with
    | b :: bs, hlen =>
      have ha' : c.In as := fun l hl => ha l (List.mem_cons_of_mem _ hl)
      have hb' : c.In bs := fun l hl => hb l (List.mem_cons_of_mem _ hl)
      refine (fullAdder_builds h (ha a List.mem_cons_self) (hb b List.mem_cons_self) hc).bind
        fun r c₁ hx₁ h₁ hr _ => ?_
      obtain ⟨s, co⟩ := r
      refine (ih h₁ (ha'.mono hx₁) (hb'.mono hx₁) hr.2 (Nat.succ.inj hlen)).bind
        fun r' c₂ hx₂ h₂ hr' _ => ?_
      obtain ⟨out, carry⟩ := r'
      refine Builds.pure h₂ ⟨?_, hr'.2⟩ fun m _ e₂ e₁ => ?_
      · intro l hl
        rcases List.mem_cons.mp hl with rfl | hl
        · exact Nat.lt_of_lt_of_le hr.1 hx₂.le
        · exact hr'.1 l hl
      · obtain ⟨hlen', hsum⟩ := e₂
        refine ⟨congrArg Nat.succ hlen', ?_⟩
        simp only [num_cons, List.length_cons, Nat.pow_succ] at *
        have : 2 ^ as.length * 2 * (litVal m carry).toNat =
          2 * (2 ^ as.length * (litVal m carry).toNat) := by ring
        omega

theorem add_builds {c : Cnf} (h : c.Ok) {a b : List Lit} (ha : c.In a) (hb : c.In b)
    (hlen : a.length = b.length) :
    Builds (add a b) c fun m r => r.length = a.length ∧
      num m r = (num m a + num m b) % 2 ^ a.length := by
  refine (litFalse_builds h).bind fun cin c₁ hx₁ h₁ hcin _ => ?_
  refine (adder_builds a h₁ (ha.mono hx₁) (hb.mono hx₁) hcin hlen).bind fun r c₂ hx₂ h₂ hr _ => ?_
  refine Builds.pure h₂ hr.1 fun m _ e₂ e₁ => ?_
  obtain ⟨hl, hsum⟩ := e₂
  refine ⟨hl, ?_⟩
  rw [e₁, Bool.toNat_false, Nat.add_zero] at hsum
  have hlt := num_lt m r.1
  rw [hl] at hlt
  rw [← hsum, Nat.add_mul_mod_self_left, Nat.mod_eq_of_lt hlt]

theorem subWithBorrow_builds {c : Cnf} (h : c.Ok) {a b : List Lit} (ha : c.In a) (hb : c.In b)
    (hlen : a.length = b.length) :
    Builds (subWithBorrow a b) c fun m r => r.1.length = a.length ∧
      num m r.1 = (num m a + (2 ^ a.length - num m b)) % 2 ^ a.length ∧
      (litVal m r.2 = true ↔ num m b ≤ num m a) := by
  refine (litTrue_builds h).bind fun cin c₁ hx₁ h₁ hcin _ => ?_
  have hlen' : a.length = (b.map Lit.negated).length := by rw [List.length_map]; exact hlen
  refine (adder_builds a h₁ (ha.mono hx₁) (hb.mono hx₁).negated hcin hlen').mono
    fun m r hr hc => ?_
  obtain ⟨hl, hsum⟩ := hr
  have hneg := num_negated m b
  have hlt := num_lt m r.1
  have hlta := num_lt m a
  have hltb := num_lt m b
  rw [hc, Bool.toNat_true] at hsum
  rw [hl] at hlt
  rw [← hlen] at hneg hltb
  have hval : num m r.1 + 2 ^ a.length * (litVal m r.2).toNat =
      num m a + (2 ^ a.length - num m b) := by omega
  refine ⟨hl, ?_, ?_⟩
  · rw [← hval, Nat.add_mul_mod_self_left, Nat.mod_eq_of_lt hlt]
  · cases hv : litVal m r.2 with
    | true =>
      rw [hv, Bool.toNat_true, Nat.mul_one] at hval
      exact ⟨fun _ => by omega, fun _ => rfl⟩
    | false =>
      rw [hv, Bool.toNat_false, Nat.mul_zero] at hval
      exact ⟨fun hf => absurd hf (by simp), fun _ => by omega⟩

theorem sub_builds {c : Cnf} (h : c.Ok) {a b : List Lit} (ha : c.In a) (hb : c.In b)
    (hlen : a.length = b.length) :
    Builds (sub a b) c fun m r => r.length = a.length ∧
      num m r = (num m a + (2 ^ a.length - num m b)) % 2 ^ a.length := by
  refine (subWithBorrow_builds h ha hb hlen).bind fun r c₁ _ h₁ hr _ => ?_
  exact Builds.pure h₁ hr.1 fun m _ e => ⟨e.1, e.2.1⟩

theorem negate_builds {c : Cnf} (h : c.Ok) {a : List Lit} (ha : c.In a) :
    Builds (negate a) c fun m r => r.length = a.length ∧
      num m r = (2 ^ a.length - num m a) % 2 ^ a.length := by
  refine (litFalse_builds h).bind fun zero c₁ hx₁ h₁ hz _ => ?_
  refine (litTrue_builds h₁).bind fun cin c₂ hx₂ h₂ hc _ => ?_
  have hlen : (a.map Lit.negated).length = (List.replicate a.length zero).length := by simp
  have hz₂ := In.replicate (Nat.lt_of_lt_of_le hz hx₂.le) a.length
  refine (adder_builds _ h₂ (ha.mono (hx₁.trans hx₂)).negated hz₂ hc hlen).bind
    fun r c₃ _ h₃ hr _ => ?_
  refine Builds.pure h₃ hr.1 fun m _ e₃ e₂ e₁ => ?_
  obtain ⟨hl, hsum⟩ := e₃
  rw [List.length_map] at hl hsum
  rw [num_replicate_zero e₁, e₂, Bool.toNat_true] at hsum
  have hneg := num_negated m a
  have hlt := num_lt m r.1
  rw [hl] at hlt
  have hval : num m r.1 + 2 ^ a.length * (litVal m r.2).toNat = 2 ^ a.length - num m a := by omega
  refine ⟨hl, ?_⟩
  rw [← hval, Nat.add_mul_mod_self_left, Nat.mod_eq_of_lt hlt]

/-! ## Gates position by position -/

theorem mapM_builds {α : Type} [Scoped α] {c₀ : Cnf} {f : α → CnfM Lit}
    {g : (Nat → Bool) → α → Bool}
    (hf : ∀ {c : Cnf}, c₀.view.Extends c.view → c.Ok → ∀ {x : α}, Scoped.Below c.numVars x →
      Builds (f x) c fun m o => litVal m o = g m x) (xs : List α) :
    ∀ {c : Cnf}, c₀.view.Extends c.view → c.Ok → Scoped.Below c.numVars xs →
      Builds (xs.mapM f) c fun m r => r.length = xs.length ∧ vals m r = xs.map (g m) := by
  induction xs with
  | nil =>
    intro c _ h _
    rw [List.mapM_nil]
    exact Builds.pure h (fun l hl => absurd hl List.not_mem_nil) fun _ _ => ⟨rfl, rfl⟩
  | cons x xs ih =>
    intro c hx₀ h hxs
    rw [List.mapM_cons]
    refine (hf hx₀ h (hxs x List.mem_cons_self)).bind fun o c₁ hx₁ h₁ ho _ => ?_
    have hxs₁ : Scoped.Below c₁.numVars xs := fun y hy =>
      Scoped.mono hx₁.le (hxs y (List.mem_cons_of_mem _ hy))
    refine (ih (hx₀.trans hx₁) h₁ hxs₁).bind fun os c₂ hx₂ h₂ hos _ => ?_
    refine Builds.pure h₂ ?_ fun m _ e₂ e₁ => ?_
    · intro l hl
      rcases List.mem_cons.mp hl with rfl | hl
      · exact Nat.lt_of_lt_of_le ho hx₂.le
      · exact hos l hl
    · refine ⟨congrArg Nat.succ e₂.1, ?_⟩
      rw [vals, List.map_cons, e₁, List.map_cons]
      exact congrArg _ e₂.2

theorem below_zip {c : Cnf} {as bs : List Lit} (ha : c.In as) (hb : c.In bs) :
    Scoped.Below c.numVars (as.zip bs) := by
  intro p hp
  obtain ⟨h₁, h₂⟩ := List.of_mem_zip hp
  exact ⟨ha p.1 h₁, hb p.2 h₂⟩

theorem muxVec_builds {c : Cnf} (h : c.Ok) {s : Lit} {as bs : List Lit} (hs : s.var < c.numVars)
    (ha : c.In as) (hb : c.In bs) (hlen : as.length = bs.length) :
    Builds (muxVec s as bs) c fun m r => r.length = as.length ∧
      vals m r = if litVal m s then vals m as else vals m bs := by
  have hmap := mapM_builds (f := fun p : Lit × Lit => mux s p.1 p.2)
    (g := fun m p => if litVal m s then litVal m p.1 else litVal m p.2)
    (fun hx hd p (hp : p.1.var < _ ∧ p.2.var < _) =>
      mux_builds hd (Nat.lt_of_lt_of_le hs hx.le) hp.1 hp.2)
    (as.zip bs) (Store.Extends.refl _) h (below_zip ha hb)
  refine hmap.mono fun m r hr => ?_
  have hzip : (as.zip bs).length = as.length := by rw [List.length_zip, hlen, Nat.min_self]
  refine ⟨hr.1.trans hzip, ?_⟩
  rw [hr.2]
  cases litVal m s with
  | true =>
    have := List.map_fst_zip (Nat.le_of_eq hlen)
    simp only [if_true]
    rw [vals, ← this, List.map_map]
    rw [this]
    rfl
  | false =>
    have := List.map_snd_zip (Nat.le_of_eq hlen.symm)
    simp only [Bool.false_eq_true, if_false]
    rw [vals, ← this, List.map_map]
    rw [this]
    rfl

/-! ## Multiplication -/

theorem value_map_and (bs : List Bool) (x : Bool) :
    Bits.value (bs.map (· && x)) = Bits.value bs * x.toNat := by
  cases x with
  | true =>
    have : bs.map (· && true) = bs := by simp
    rw [this, Bool.toNat_true, Nat.mul_one]
  | false =>
    have : bs.map (· && false) = List.replicate bs.length false := by simp
    rw [this, Bits.value_replicate_false, Bool.toNat_false, Nat.mul_zero]

theorem partialProduct_builds {c : Cnf} (h : c.Ok) {zero bj : Lit} {a : List Lit} {j : Nat}
    (hz : zero.var < c.numVars) (ha : c.In a) (hb : bj.var < c.numVars) (hj : j ≤ a.length) :
    Builds (partialProduct zero a j bj) c fun m r => r.length = a.length ∧
      (litVal m zero = false → num m r = 2 ^ j * num m a * (litVal m bj).toNat % 2 ^ a.length) := by
  refine (mapM_builds (f := fun ai => and2 ai bj)
    (g := fun m ai => litVal m ai && litVal m bj)
    (fun hx hd _ hp => and2_builds hd hp (Nat.lt_of_lt_of_le hb hx.le)) _
    (Store.Extends.refl _) h (ha.take _)).bind fun high c₁ hx₁ h₁ hhigh _ => ?_
  refine Builds.pure h₁ ((In.replicate (Nat.lt_of_lt_of_le hz hx₁.le) j).append hhigh) ?_
  intro m _ hr
  obtain ⟨hl, hv⟩ := hr
  have hlen : (a.take (a.length - j)).length = a.length - j := by
    rw [List.length_take]
    exact Nat.min_eq_left (Nat.sub_le _ _)
  refine ⟨?_, fun hzero => ?_⟩
  · rw [List.length_append, List.length_replicate, hl, hlen]
    omega
  · have hhigh' : num m high = num m a % 2 ^ (a.length - j) * (litVal m bj).toNat := by
      rw [← num_take]
      unfold num
      rw [hv, ← value_map_and]
      congr 1
      unfold vals
      rw [List.map_map]
      rfl
    rw [num_append, num_replicate_zero hzero, List.length_replicate, hhigh', Nat.zero_add,
      ← Nat.mul_assoc, ← Nat.mul_mod_mul_left, ← Nat.pow_add, Nat.add_sub_cancel' hj]
    cases litVal m bj with
    | true => simp
    | false => simp

theorem mulLoop_builds {zero : Lit} {a : List Lit} (bs : List Lit) :
    ∀ {c : Cnf} {j : Nat} {acc : List Lit}, c.Ok → zero.var < c.numVars → c.In a → c.In bs →
      c.In acc → acc.length = a.length → j + bs.length ≤ a.length →
      Builds (mulLoop zero a bs j acc) c fun m r => r.length = a.length ∧
        (litVal m zero = false →
          num m r = (num m acc + 2 ^ j * num m a * num m bs) % 2 ^ a.length) := by
  induction bs with
  | nil =>
    intro c j acc h _ _ _ hacc hl _
    refine Builds.pure h hacc fun m _ => ⟨hl, fun _ => ?_⟩
    have hlt := num_lt m acc
    rw [hl] at hlt
    rw [num_nil, Nat.mul_zero, Nat.add_zero, Nat.mod_eq_of_lt hlt]
  | cons bj bs ih =>
    intro c j acc h hz ha hb hacc hl hj
    rw [List.length_cons] at hj
    refine (partialProduct_builds h hz ha (hb bj List.mem_cons_self) (by omega)).bind
      fun pp c₁ hx₁ h₁ hpp hq₁ => ?_
    have hlen : pp.length = a.length := h₁.fact fun m hm => (hq₁ m hm).1
    refine (add_builds h₁ (hacc.mono hx₁) hpp (hl.trans hlen.symm)).bind
      fun acc' c₂ hx₂ h₂ hacc' hq₂ => ?_
    have hlen' : acc'.length = a.length := h₂.fact fun m hm => (hq₂ m hm).1.trans hl
    have hb' : c₂.In bs := fun l hl' =>
      Nat.lt_of_lt_of_le (hb l (List.mem_cons_of_mem _ hl')) (hx₁.trans hx₂).le
    refine (ih h₂ (Nat.lt_of_lt_of_le hz (hx₁.trans hx₂).le) (ha.mono (hx₁.trans hx₂)) hb' hacc'
      hlen' (by omega)).mono fun m r hr hsum hprod => ?_
    refine ⟨hr.1, fun hzero => ?_⟩
    rw [hr.2 hzero, hsum.2, hprod.2 hzero, hl, num_cons]
    have hring : num m acc + 2 ^ j * num m a * ((litVal m bj).toNat + 2 * num m bs) =
        num m acc + 2 ^ j * num m a * (litVal m bj).toNat +
          2 ^ (j + 1) * num m a * num m bs := by
      rw [Nat.pow_succ]
      ring
    rw [hring, Nat.add_mod_mod, Nat.mod_add_mod]

theorem mul_builds {c : Cnf} (h : c.Ok) {a b : List Lit} (ha : c.In a) (hb : c.In b)
    (hlen : a.length = b.length) :
    Builds (mul a b) c fun m r => r.length = a.length ∧
      num m r = num m a * num m b % 2 ^ a.length := by
  refine (litFalse_builds h).bind fun zero c₁ hx₁ h₁ hz _ => ?_
  refine (mulLoop_builds b (j := 0) h₁ hz (ha.mono hx₁) (hb.mono hx₁) (In.replicate hz _)
    (List.length_replicate ..) (by omega)).mono fun m r hr hzero => ?_
  refine ⟨hr.1, ?_⟩
  rw [hr.2 hzero, num_replicate_zero hzero, Nat.zero_add, Nat.pow_zero, Nat.one_mul]

/-! ## Unsigned division -/

/-- The quotient of a `k`-bit dividend, all ones for a zero divisor. -/
def quotient (B A k : Nat) : Nat := if B = 0 then 2 ^ k - 1 else A / B

/-- The remainder, the dividend itself for a zero divisor. -/
def remainder (B A : Nat) : Nat := if B = 0 then A else A % B

theorem division_step {B A k : Nat} {x : Nat} (hx : x ≤ 1) :
    let S := x + 2 * remainder B A
    quotient B (x + 2 * A) (k + 1) = (if B ≤ S then 1 else 0) + 2 * quotient B A k ∧
      remainder B (x + 2 * A) = if B ≤ S then S - B else S := by
  intro S
  by_cases hB : B = 0
  · subst hB
    have hpow : 1 ≤ 2 ^ k := Nat.one_le_two_pow
    refine ⟨?_, by simp [remainder, S]⟩
    simp only [quotient, if_true, Nat.zero_le, Nat.pow_succ]
    omega
  · have hB' : 0 < B := Nat.pos_of_ne_zero hB
    have hR : remainder B A = A % B := if_neg hB
    have hlt : A % B < B := Nat.mod_lt A hB'
    have hsplit : x + 2 * A = S + B * (2 * (A / B)) := by
      have := Nat.div_add_mod A B
      have hmul : B * (2 * (A / B)) = 2 * (B * (A / B)) := by ring
      simp only [S, hR]
      omega
    simp only [quotient, if_neg hB]
    rw [show remainder B (x + 2 * A) = (x + 2 * A) % B from if_neg hB, hsplit,
      Nat.add_mul_div_left _ _ hB', Nat.add_mul_mod_self_left]
    have hS : S < 2 * B := by
      simp only [S, hR]
      omega
    by_cases hle : B ≤ S
    · rw [if_pos hle, if_pos hle, Nat.mod_eq_sub_mod hle, Nat.mod_eq_of_lt (by omega),
        Nat.div_eq_of_lt_le (k := 1) (by omega) (by omega)]
      exact ⟨rfl, rfl⟩
    · rw [if_neg hle, if_neg hle, Nat.mod_eq_of_lt (by omega), Nat.div_eq_of_lt (by omega)]
      exact ⟨rfl, rfl⟩

theorem remainder_lt {B A k w : Nat} (hA : A < 2 ^ k) (hk : k ≤ w) (hB : B < 2 ^ w) :
    remainder B A < 2 ^ w := by
  unfold remainder
  by_cases hz : B = 0
  · rw [if_pos hz]
    exact Nat.lt_of_lt_of_le hA (Nat.pow_le_pow_right Nat.two_pos hk)
  · rw [if_neg hz]
    exact Nat.lt_trans (Nat.mod_lt _ (Nat.pos_of_ne_zero hz)) hB

theorem udivStep_builds {c : Cnf} (h : c.Ok) {bext rem : List Lit} {ai : Lit} (hb : c.In bext)
    (hr : c.In rem) (ha : ai.var < c.numVars) (hlen : bext.length = rem.length + 1) :
    Builds (udivStep bext ai rem) c fun m r => r.2.length = rem.length ∧
      (litVal m r.1 = true ↔ num m bext ≤ num m (ai :: rem)) ∧
      num m r.2 = (if num m bext ≤ num m (ai :: rem) then num m (ai :: rem) - num m bext
        else num m (ai :: rem)) % 2 ^ rem.length := by
  have hsh : c.In (ai :: rem) := by
    intro l hl
    rcases List.mem_cons.mp hl with rfl | hl
    · exact ha
    · exact hr l hl
  refine (subWithBorrow_builds h hsh hb hlen.symm).bind fun r c₁ hx₁ h₁ hr₁ hq₁ => ?_
  obtain ⟨diff, carry⟩ := r
  have hdl : diff.length = (ai :: rem).length := h₁.fact fun m hm => (hq₁ m hm).1
  refine (muxVec_builds h₁ hr₁.2 hr₁.1 (hsh.mono hx₁) hdl).bind fun newrem c₂ hx₂ h₂ hn _ => ?_
  refine Builds.pure h₂ ⟨Nat.lt_of_lt_of_le hr₁.2 hx₂.le, In.take hn _⟩ fun m _ e₂ e₁ => ?_
  obtain ⟨-, hdiff, hcarry⟩ := e₁
  obtain ⟨hnl, hnv⟩ := e₂
  refine ⟨?_, hcarry, ?_⟩
  · rw [List.length_take, hnl, hdl, List.length_cons]
    exact Nat.min_eq_left (Nat.le_succ _)
  · show num m (newrem.take rem.length) = _
    rw [num_take]
    congr 1
    have hltS := num_lt m (ai :: rem)
    have hltB := num_lt m bext
    unfold num at *
    by_cases hle : Bits.value (vals m bext) ≤ Bits.value (vals m (ai :: rem))
    · rw [if_pos hle, hnv, if_pos (hcarry.mpr hle), hdiff]
      rw [show Bits.value (vals m (ai :: rem)) +
          (2 ^ (ai :: rem).length - Bits.value (vals m bext)) =
          Bits.value (vals m (ai :: rem)) - Bits.value (vals m bext) + 2 ^ (ai :: rem).length by
        rw [hlen] at hltB
        rw [List.length_cons] at *
        omega, Nat.add_mod_right, Nat.mod_eq_of_lt (by omega)]
    · have hc : litVal m carry = false := by
        cases hv : litVal m carry with
        | false => rfl
        | true => exact absurd (hcarry.mp hv) hle
      rw [if_neg hle, hnv, hc]
      rfl

theorem udivLoop_builds {bext : List Lit} {w : Nat} (hblen : bext.length = w + 1) (as : List Lit) :
    ∀ {c : Cnf} {quot rem : List Lit}, c.Ok → c.In bext → c.In as → c.In quot → c.In rem →
      rem.length = w → quot.length + as.length ≤ w →
      Builds (udivLoop bext as quot rem) c fun m r =>
        r.1.length = quot.length + as.length ∧ r.2.length = w ∧
        (num m bext < 2 ^ w → ∀ A, A < 2 ^ quot.length →
          num m quot = quotient (num m bext) A quot.length → num m rem = remainder (num m bext) A →
          num m r.1 = quotient (num m bext) (A * 2 ^ as.length + num m as.reverse) r.1.length ∧
          num m r.2 = remainder (num m bext) (A * 2 ^ as.length + num m as.reverse)) := by
  induction as with
  | nil =>
    intro c quot rem h _ _ hq hr hl _
    refine Builds.pure h ⟨hq, hr⟩ fun m _ => ⟨rfl, hl, fun _ A _ h₁ h₂ => ?_⟩
    simp only [List.length_nil, Nat.pow_zero, Nat.mul_one, List.reverse_nil, num_nil, Nat.add_zero]
    exact ⟨h₁, h₂⟩
  | cons a as ih =>
    intro c quot rem h hb has hq hr hl hle
    rw [List.length_cons] at hle
    refine (udivStep_builds h hb hr (has a List.mem_cons_self) (by rw [hblen, hl])).bind
      fun r c₁ hx₁ h₁ hr₁ hq₁ => ?_
    obtain ⟨q, rem'⟩ := r
    have hl' : rem'.length = w := h₁.fact fun m hm => (hq₁ m hm).1.trans hl
    have hquot : c₁.In (q :: quot) := by
      intro l hl
      rcases List.mem_cons.mp hl with rfl | hl
      · exact hr₁.1
      · exact Nat.lt_of_lt_of_le (hq l hl) hx₁.le
    have has' : c₁.In as := fun l hl' =>
      Nat.lt_of_lt_of_le (has l (List.mem_cons_of_mem _ hl')) hx₁.le
    refine (ih h₁ (hb.mono hx₁) has' hquot hr₁.2 hl' (by rw [List.length_cons]; omega)).mono
      fun m r hres hstep => ?_
    obtain ⟨hlen₁, hlen₂, hval⟩ := hres
    obtain ⟨-, hqv, hrv⟩ := hstep
    refine ⟨by rw [hlen₁, List.length_cons, List.length_cons]; omega, hlen₂, ?_⟩
    intro hB A hA hquotv hremv
    have hx := Bits.toNat_le_one (litVal m a)
    obtain ⟨hdq, hdr⟩ := division_step (B := num m bext) (A := A) (k := quot.length) hx
    rw [num_cons, hremv] at hqv hrv
    have hA' : (litVal m a).toNat + 2 * A < 2 ^ (q :: quot).length := by
      rw [List.length_cons, Nat.pow_succ]
      omega
    have hrem' : num m rem' = remainder (num m bext) ((litVal m a).toNat + 2 * A) := by
      rw [hrv, ← hdr, hl]
      refine Nat.mod_eq_of_lt (remainder_lt hA' ?_ hB)
      rw [List.length_cons]
      omega
    have hquot' : num m (q :: quot) =
        quotient (num m bext) ((litVal m a).toNat + 2 * A) (q :: quot).length := by
      rw [List.length_cons, hdq, num_cons, hquotv]
      congr 1
      cases hqc : litVal m q with
      | true => rw [if_pos (hqv.mp hqc)]; rfl
      | false => rw [if_neg fun hc => absurd (hqv.mpr hc) (by simp [hqc])]; rfl
    obtain ⟨h₁', h₂'⟩ := hval hB _ hA' hquot' hrem'
    have hsum : ((litVal m a).toNat + 2 * A) * 2 ^ as.length + num m as.reverse =
        A * 2 ^ (a :: as).length + num m (a :: as).reverse := by
      rw [List.reverse_cons, num_append, List.length_reverse, num_cons, num_nil, List.length_cons,
        Nat.pow_succ]
      ring
    rw [hsum] at h₁' h₂'
    exact ⟨h₁', h₂'⟩

/-- **Restoring division** is SMT-LIB division. -/
theorem udivrem_builds {c : Cnf} (h : c.Ok) {a b : List Lit} (ha : c.In a) (hb : c.In b)
    (hlen : a.length = b.length) :
    Builds (udivrem a b) c fun m r => r.1.length = a.length ∧ r.2.length = a.length ∧
      num m r.1 = quotient (num m b) (num m a) a.length ∧
      num m r.2 = remainder (num m b) (num m a) := by
  refine (litFalse_builds h).bind fun zero c₁ hx₁ h₁ hz _ => ?_
  have hbext : c₁.In (b ++ [zero]) := (hb.mono hx₁).append (by
    intro l hl
    rw [List.mem_singleton.mp hl]
    exact hz)
  have hrev : c₁.In a.reverse := fun l hl => ha.mono hx₁ l (List.mem_reverse.mp hl)
  refine (udivLoop_builds (w := a.length) (by rw [List.length_append, hlen]; rfl) a.reverse h₁ hbext
    hrev (fun l hl => absurd hl List.not_mem_nil) (In.replicate hz _) (List.length_replicate ..)
    (by simp)).mono fun m r hr hzero => ?_
  obtain ⟨hl₁, hl₂, hval⟩ := hr
  have hB : num m (b ++ [zero]) = num m b := by
    rw [num_append, num_cons, num_nil, hzero]
    simp
  have hlt := num_lt m b
  rw [← hlen] at hlt
  rw [hB] at hval
  have hlen₁ : r.1.length = a.length := by simpa using hl₁
  obtain ⟨h₁', h₂'⟩ := hval hlt 0 Nat.one_pos (by simp [quotient])
    (by rw [num_replicate_zero hzero]; simp [remainder])
  rw [Nat.zero_mul, Nat.zero_add, List.reverse_reverse] at h₁' h₂'
  rw [hlen₁] at h₁'
  exact ⟨hlen₁, hl₂, h₁', h₂'⟩

end Cnf

end Csolver.Sat
