import Csolver.Solver.BlasterBlind
import Csolver.Solver.Extend
import Csolver.Solver.SatSound

/-!
# Bit-precise entailment (`crates/solver/src/bitprecise.rs`)

`assumptions ⟹ goal` is refuted by encoding the assumptions and the negated goal into one CNF,
each asserted by a unit clause, and running the SAT solver. The units are pushed while later
operands are still to be encoded; `encode_blind` says that this is the same as pushing them at the
end.

A model is read back symbol by symbol. That it describes a valuation at all needs each symbol to
have one entry (`SymsOwned`): it is encoded once, under the one handle interning gives it.
-/

namespace Csolver.Sat

open Csolver.Lib Csolver.Core

namespace Blaster

/-! ## One entry for each symbol -/

/-- Every entry of the symbol table is the memo of the handle of its symbol, whose width the encoder
    accepted. -/
def SymsOwned (ctx : ExprCtx) (b : Blaster) : Prop :=
  ∀ s ∈ b.syms, (0 < s.2.1 ∧ s.2.1 ≤ maxWidth) ∧
    ∃ id < ctx.len, ctx.node id = .sym s.1 s.2.1 ∧ b.memo id = some s.2.2

def Keeps {α : Type} (P : Blaster → Prop) (x : BlastM α) : Prop := ∀ b, P b → P (x.run b).2

theorem run_bind {α β : Type} (x : BlastM α) (f : α → BlastM β) (b : Blaster) :
    (x >>= f).run b = (match (x.run b).1 with
      | some a => (f a).run
      | none => Pure.pure none : StateM Blaster (Option β)) (x.run b).2 := rfl

theorem run_bind_some {α β : Type} {x : BlastM α} {f : α → BlastM β} {b b' : Blaster} {c : β}
    (h : (x >>= f).run b = (some c, b')) :
    ∃ a d, x.run b = (some a, d) ∧ (f a).run d = (some c, b') := by
  rw [run_bind] at h
  cases hx : x.run b with
  | mk o d =>
    rw [hx] at h
    cases o with
    | none => exact absurd (congrArg Prod.fst h) (by rintro ⟨⟩)
    | some a => exact ⟨a, d, rfl, h⟩

section

variable {P : Blaster → Prop}

theorem Keeps.pure {α : Type} (a : α) : Keeps P (Pure.pure a : BlastM α) := fun _ h => h

theorem Keeps.fail {α : Type} : Keeps P (failure : BlastM α) := fun _ h => h

theorem Keeps.bind {α β : Type} {x : BlastM α} {f : α → BlastM β} (hx : Keeps P x)
    (hf : ∀ a, Keeps P (f a)) : Keeps P (x >>= f) := by
  intro b hb
  rw [run_bind]
  cases (x.run b).1 with
  | some a => exact hf a _ (hx b hb)
  | none => exact hx b hb

theorem Keeps.ite {α : Type} {p : Prop} [Decidable p] {x y : BlastM α} (hx : Keeps P x)
    (hy : Keeps P y) : Keeps P (if p then x else y) := by
  by_cases h : p
  · rw [if_pos h]
    exact hx
  · rw [if_neg h]
    exact hy

end

theorem gate_keeps {α : Type} (ctx : ExprCtx) (x : CnfM α) : Keeps (SymsOwned ctx) (gate x) :=
  fun _ h => h

theorem encodeBools_keeps {P : Blaster → Prop} {rec : ExprId → BlastM (List Lit)}
    (hrec : ∀ x, Keeps P (rec x)) (xs : List ExprId) : Keeps P (encodeBools rec xs) := by
  induction xs with
  | nil => exact .pure _
  | cons x xs ih =>
    refine (hrec x).bind fun xv => ?_
    match xv with
    | [] => exact .fail
    | [l] => exact ih.bind fun _ => .pure _
    | _ :: _ :: _ => exact .fail

theorem encodeNode_keeps {ctx : ExprCtx} {rec : ExprId → BlastM (List Lit)}
    (hrec : ∀ x, Keeps (SymsOwned ctx) (rec x)) (w : Nat) {n : Node}
    (hn : ∀ name w', n ≠ .sym name w') : Keeps (SymsOwned ctx) (encodeNode ctx rec w n) := by
  cases n with
  | sym name w' => exact absurd rfl (hn name w')
  | const bv => exact gate_keeps ctx _
  | bool b => exact (gate_keeps ctx _).bind fun _ => .pure _
  | bin op a b =>
    exact (hrec a).bind fun av => (hrec b).bind fun bv => .ite .fail (gate_keeps ctx _)
  | cmp op a b =>
    exact (hrec a).bind fun av => (hrec b).bind fun bv =>
      .ite .fail ((gate_keeps ctx _).bind fun _ => .pure _)
  | not x =>
    refine (hrec x).bind fun xv => ?_
    match xv with
    | [] => exact .fail
    | [l] => exact .pure _
    | _ :: _ :: _ => exact .fail
  | and xs =>
    exact (encodeBools_keeps hrec xs).bind fun ls => (gate_keeps ctx _).bind fun _ => .pure _
  | or xs =>
    exact (encodeBools_keeps hrec xs).bind fun ls => (gate_keeps ctx _).bind fun _ => .pure _
  | ite c t e =>
    refine (hrec c).bind fun cv => ?_
    match cv with
    | [] => exact .fail
    | [l] =>
      exact (hrec t).bind fun tv => (hrec e).bind fun ev => .ite .fail (gate_keeps ctx _)
    | _ :: _ :: _ => exact .fail
  | zext x => exact (hrec x).bind fun bits => gate_keeps ctx _
  | sext x => exact (hrec x).bind fun bits => .ite .fail (.pure _)

theorem symBits_run (name : String) (w : Nat) (b : Blaster) :
    ∃ bits, (symBits name w).run b = (some bits, { b with
      cnf := { b.cnf with numVars := b.cnf.numVars + w }
      syms := b.syms ++ [(name, w, bits)] }) := by
  have hrun := newVars_run (List.range w) b.cnf
  rw [List.length_range] at hrun
  refine ⟨((List.range w).mapM (fun _ => Cnf.newVar) b.cnf).1, ?_⟩
  show (some ((List.range w).mapM (fun _ => Cnf.newVar) b.cnf).1,
    ({ b with
      cnf := ((List.range w).mapM (fun _ => Cnf.newVar) b.cnf).2
      syms := b.syms ++ [(name, w, ((List.range w).mapM (fun _ => Cnf.newVar) b.cnf).1)] } :
        Blaster)) = _
  rw [hrun]

theorem SymsOwned.setMemo {ctx : ExprCtx} {b : Blaster} (h : SymsOwned ctx b) {id : ExprId}
    (hid : ∀ name w, ctx.node id ≠ .sym name w) (bits : List Lit) :
    SymsOwned ctx { b with memo := Function.update b.memo id (some bits) } := by
  intro s hs
  obtain ⟨hw, i, hi, hn, hm⟩ := h s hs
  refine ⟨hw, i, hi, hn, ?_⟩
  have hne : i ≠ id := fun he => hid _ _ (he ▸ hn)
  show Function.update b.memo id (some bits) i = _
  rw [Function.update_of_ne hne, hm]

theorem SymsOwned.addSym {ctx : ExprCtx} {b : Blaster} (h : SymsOwned ctx b) {id : ExprId}
    (hid : id < ctx.len) {name : String} {w : Nat} (hn : ctx.node id = .sym name w)
    (hw : 0 < w ∧ w ≤ maxWidth) (hm : b.memo id = none) (c : Cnf) (bits : List Lit) :
    SymsOwned ctx ⟨c, Function.update b.memo id (some bits), b.syms ++ [(name, w, bits)]⟩ := by
  intro s hs
  rcases List.mem_append.mp hs with hs | hs
  · obtain ⟨hws, i, hi, hni, hmi⟩ := h s hs
    refine ⟨hws, i, hi, hni, ?_⟩
    have hne : i ≠ id := by
      rintro rfl
      rw [hm] at hmi
      exact absurd hmi (by simp)
    show Function.update b.memo id (some bits) i = _
    rw [Function.update_of_ne hne, hmi]
  · rw [List.mem_singleton.mp hs]
    exact ⟨hw, id, hid, hn, Function.update_self ..⟩

theorem encodeFuel_keeps {ctx : ExprCtx} (hctx : ctx.Ok) (fuel : Nat) :
    ∀ id, Keeps (SymsOwned ctx) (encodeFuel ctx fuel id) := by
  induction fuel with
  | zero => exact fun _ => .fail
  | succ fuel ih =>
    intro id b hb
    have hget : (encodeFuel ctx (fuel + 1) id).run b = (encodeMemo ctx fuel id (b.memo id)).run b := rfl
    rw [hget]
    cases hmemo : b.memo id with
    | some bits => exact hb
    | none =>
      by_cases hw : ctx.width id = 0 ∨ maxWidth < ctx.width id
      · simp only [encodeMemo, if_pos hw]
        exact hb
      · simp only [encodeMemo, if_neg hw]
        by_cases hsym : ∃ name w, ctx.node id = .sym name w
        · -- a symbol: its entry and its memo are made together
          obtain ⟨name, w, hn⟩ := hsym
          have hid : id < ctx.len := by
            by_contra hge
            have hlen : ctx.nodes.length ≤ id := Nat.not_lt.mp hge
            have hdef : ctx.node id = .bool false := by
              rw [ExprCtx.node, List.getD_eq_getElem?_getD, List.getElem?_eq_none hlen]
              rfl
            rw [hdef] at hn
            exact absurd hn (by simp)
          have hwid : ctx.width id = w := by
            have hok := hctx.node hid
            rw [hn] at hok
            exact hok
          obtain ⟨bits, hrun⟩ := symBits_run name w b
          have hall : (encodeNode ctx (encodeFuel ctx fuel) (ctx.width id) (ctx.node id) >>=
              fun bits => (do
                modify fun b => { b with memo := Function.update b.memo id (some bits) }
                return bits : BlastM (List Lit))).run b =
              (some bits, ⟨{ b.cnf with numVars := b.cnf.numVars + w },
                Function.update b.memo id (some bits), b.syms ++ [(name, w, bits)]⟩) := by
            rw [hn, hwid]
            rw [OptionT.run_bind]
            show ((((symBits name w).run b).1).elim (Pure.pure none) fun a => (do
                modify fun b => { b with memo := Function.update b.memo id (some a) }
                return a : BlastM (List Lit)).run : StateM Blaster (Option (List Lit)))
                ((symBits name w).run b).2 = _
            rw [hrun]
            rfl
          rw [hall]
          have hrange : 0 < w ∧ w ≤ maxWidth := by
            rw [hwid] at hw
            exact ⟨Nat.pos_of_ne_zero fun h => hw (.inl h), Nat.not_lt.mp fun h => hw (.inr h)⟩
          exact hb.addSym hid hn hrange hmemo _ bits
        · have hns : ∀ name w, ctx.node id ≠ .sym name w := fun name w h => hsym ⟨name, w, h⟩
          refine (Keeps.bind (encodeNode_keeps ih _ hns) fun bits d hd => ?_) b hb
          exact hd.setMemo hns bits

theorem Run.symsOwned {ctx : ExprCtx} (hctx : ctx.Ok) {b : Blaster} (h : Run ctx b) :
    SymsOwned ctx b := by
  induction h with
  | new => exact fun s hs => absurd hs List.not_mem_nil
  | encode _ _ ih => exact encodeFuel_keeps hctx _ _ _ ih

theorem SymsOwned.unique {ctx : ExprCtx} (hctx : ctx.Distinct) {b : Blaster} (h : SymsOwned ctx b)
    {s t : String × Nat × List Lit} (hs : s ∈ b.syms) (ht : t ∈ b.syms) (hname : s.1 = t.1)
    (hw : s.2.1 = t.2.1) : s = t := by
  obtain ⟨-, i, hi, hni, hmi⟩ := h s hs
  obtain ⟨-, j, hj, hnj, hmj⟩ := h t ht
  have hij : i = j := hctx i j hi hj (by rw [hni, hnj, hname, hw])
  subst hij
  have hbits : s.2.2 = t.2.2 := Option.some.inj (hmi.symm.trans hmj)
  exact Prod.ext hname (Prod.ext hw hbits)

/-! ## The query -/

def oneBit : List Lit → BlastM Lit
  | [l] => return l
  | _ => failure

def encodeBool (ctx : ExprCtx) (id : ExprId) : BlastM Lit := do
  let bits ← encode ctx id
  oneBit bits

/-- `blaster.cnf.clauses.push(vec![lit])`. -/
def assertLit (l : Lit) : BlastM Unit :=
  modify fun b => { b with cnf := { b.cnf with clauses := b.cnf.clauses ++ [[l]] } }

def assertAll (ctx : ExprCtx) : List ExprId → BlastM Unit
  | [] => return ()
  | a :: rest => do
    assertLit (← encodeBool ctx a)
    assertAll ctx rest

/-- The assumptions and the negated goal, asserted. -/
def assertQuery (ctx : ExprCtx) (assumptions : List ExprId) (goal : ExprId) : BlastM Unit := do
  assertAll ctx assumptions
  let g ← encodeBool ctx goal
  assertLit g.negated

/-! ## What the asserted clauses say

`b` is the blaster with the units, `g` the one that made the same encodings without them. -/

/-- The solutions of `b` are those of `g` whose symbols satisfy `P`. -/
structure Mirrors (ctx : ExprCtx) (b g : Blaster) (P : Valuation → Prop) : Prop where
  run : Run ctx g
  same : b = blasterLog.set b.cnf.clauses g
  bounded : ∀ c ∈ b.cnf.clauses, ∀ l ∈ c, l.var < g.cnf.numVars
  sat : ∀ ρ m, SymsAre ρ m g.syms →
    (satAll m b.cnf.clauses ↔ satAll m g.cnf.clauses ∧ P ρ)

theorem new_mirrors (ctx : ExprCtx) : Mirrors ctx new new fun _ => True where
  run := .new
  same := rfl
  bounded _ h := absurd h List.not_mem_nil
  sat _ _ _ := (and_iff_left trivial).symm

theorem Mirrors.encodeBool {ctx : ExprCtx} (hctx : ctx.Ok) {b g : Blaster} {P : Valuation → Prop}
    (h : Mirrors ctx b g P) {id : ExprId} (hid : id < ctx.len) {l : Lit} {b' : Blaster}
    (he : (Blaster.encodeBool ctx id).run b = (some l, b')) :
    ∃ g', Mirrors ctx b' g' P ∧ Encoded ctx id g' [l] := by
  obtain ⟨added, hadd, hblind⟩ := encode_blind ctx id g
  obtain ⟨hgood, hle, hq⟩ := encodeFuel_enc hctx (id + 1) hid (h.run.good hctx)
  have hrun : (encode ctx id).run b = (((encode ctx id).run g).1,
      blasterLog.set (b.cnf.clauses ++ added) ((encode ctx id).run g).2) := by
    conv_lhs => rw [h.same]
    exact hblind _
  -- the result of the encoding is the one literal
  have hbits : ((encode ctx id).run g).1 = some [l] ∧
      b' = blasterLog.set (b.cnf.clauses ++ added) ((encode ctx id).run g).2 := by
    have hbind : Blaster.encodeBool ctx id = encode ctx id >>= oneBit := rfl
    rw [hbind, run_bind, hrun] at he
    cases hres : ((encode ctx id).run g).1 with
    | none =>
      rw [hres] at he
      exact absurd (congrArg Prod.fst he) (by rintro ⟨⟩)
    | some bits =>
      rw [hres] at he
      match bits, he with
      | [], he => exact absurd (congrArg Prod.fst he) (by rintro ⟨⟩)
      | [l'], he =>
        have hl : l' = l := Option.some.inj (congrArg Prod.fst he)
        exact ⟨by rw [hl], (congrArg Prod.snd he).symm⟩
      | _ :: _ :: _, he => exact absurd (congrArg Prod.fst he) (by rintro ⟨⟩)
  obtain ⟨hres, rfl⟩ := hbits
  have hclauses : ((encode ctx id).run g).2.cnf.clauses = g.cnf.clauses ++ added := hadd
  refine ⟨((encode ctx id).run g).2, ⟨.encode h.run hid, rfl, ?_, ?_⟩, hq [l] hres⟩
  · intro c hc k hk
    rcases List.mem_append.mp hc with hc | hc
    · exact Nat.lt_of_lt_of_le (h.bounded c hc k hk) hle.ext.le
    · apply hgood.cnf.bounded c _ k hk
      show c ∈ ((encode ctx id).run g).2.cnf.clauses
      rw [hclauses]
      exact List.mem_append_right _ hc
  · intro ρ m hsyms
    have hold := h.sat ρ m fun s hs => hsyms s (hle.syms s hs)
    show satAll m (b.cnf.clauses ++ added) ↔ _
    rw [hclauses, Cnf.satAll_append, Cnf.satAll_append, hold]
    tauto

theorem Mirrors.push {ctx : ExprCtx} {b g : Blaster} {P Q : Valuation → Prop}
    (h : Mirrors ctx b g P) {l : Lit} (hl : l.var < g.cnf.numVars)
    (hmeans : ∀ ρ m, g.Sol ρ m → (litVal m l = true ↔ Q ρ)) :
    Mirrors ctx ((assertLit l).run b).2 g fun ρ => P ρ ∧ Q ρ := by
  have hunit : ∀ m, satAll m [[l]] ↔ litVal m l = true := by
    intro m
    rw [← litTrue_iff]
    constructor
    · intro hs
      obtain ⟨k, hk, ht⟩ := hs [l] (List.mem_singleton.mpr rfl)
      rwa [List.mem_singleton.mp hk] at ht
    · intro ht c hc
      rw [List.mem_singleton.mp hc]
      exact ⟨l, List.mem_singleton.mpr rfl, ht⟩
  refine ⟨h.run, ?_, ?_, ?_⟩
  · show ({ b with cnf := { b.cnf with clauses := b.cnf.clauses ++ [[l]] } } : Blaster) = _
    conv_lhs => rw [h.same]
    rfl
  · intro c hc k hk
    rcases List.mem_append.mp hc with hc | hc
    · exact h.bounded c hc k hk
    · rw [List.mem_singleton.mp hc] at hk
      rwa [List.mem_singleton.mp hk]
  · intro ρ m hsyms
    show satAll m (b.cnf.clauses ++ [[l]]) ↔ _
    rw [Cnf.satAll_append, h.sat ρ m hsyms, hunit]
    constructor
    · rintro ⟨⟨hg, hp⟩, ht⟩
      exact ⟨hg, hp, (hmeans ρ m ⟨hg, hsyms⟩).mp ht⟩
    · rintro ⟨hg, hp, hq⟩
      exact ⟨⟨hg, hp⟩, (hmeans ρ m ⟨hg, hsyms⟩).mpr hq⟩

theorem Mirrors.assertAll {ctx : ExprCtx} (hctx : ctx.Ok) (as : List ExprId)
    (has : ∀ a ∈ as, a < ctx.len) : ∀ {b g b' : Blaster} {P : Valuation → Prop},
      Mirrors ctx b g P → (Blaster.assertAll ctx as).run b = (some (), b') →
      ∃ g', Mirrors ctx b' g' fun ρ => P ρ ∧ ∀ a ∈ as, (ctx.expr a).eval ρ = 1 := by
  induction as with
  | nil =>
    intro b g b' P h he
    obtain rfl : b = b' := congrArg Prod.snd he
    refine ⟨g, h.run, h.same, h.bounded, fun ρ m hsyms => ?_⟩
    rw [h.sat ρ m hsyms]
    simp
  | cons a as ih =>
    intro b g b' P h he
    obtain ⟨l, d, hl, he⟩ := run_bind_some he
    obtain ⟨u, d', hd', he⟩ := run_bind_some he
    obtain ⟨g₁, h₁, henc⟩ := h.encodeBool hctx (has a List.mem_cons_self) hl
    have hpush : Mirrors ctx d' g₁ fun ρ => P ρ ∧ (ctx.expr a).eval ρ = 1 := by
      have hd : d' = ((assertLit l).run d).2 := (congrArg Prod.snd hd').symm
      rw [hd]
      apply h₁.push (henc.2.inCnf l (List.mem_singleton.mpr rfl))
      intro ρ m hs
      rw [henc.bool hs, beq_iff_eq]
    obtain ⟨g₂, h₂⟩ := ih (fun x hx => has x (List.mem_cons_of_mem _ hx)) hpush he
    refine ⟨g₂, h₂.run, h₂.same, h₂.bounded, fun ρ m hsyms => ?_⟩
    rw [h₂.sat ρ m hsyms, List.forall_mem_cons, and_assoc]

/-- **What a query asserts.** The solutions of its clauses are, on the symbols, the valuations that
    make every assumption true and the goal false. -/
theorem assertQuery_mirrors {ctx : ExprCtx} (hctx : ctx.Ok) {as : List ExprId}
    (has : ∀ a ∈ as, a < ctx.len) {goal : ExprId} (hgoal : goal < ctx.len) {b : Blaster}
    (he : (assertQuery ctx as goal).run new = (some (), b)) :
    (∃ g, Mirrors ctx b g fun ρ =>
      (∀ a ∈ as, (ctx.expr a).eval ρ = 1) ∧ (ctx.expr goal).eval ρ = 0) ∧
    ∀ ρ, (ctx.expr goal).eval ρ = 0 ∨ (ctx.expr goal).eval ρ = 1 := by
  obtain ⟨_, d, hd, he⟩ := run_bind_some he
  obtain ⟨l, d', hl, he⟩ := run_bind_some he
  obtain ⟨g₁, h₁⟩ := (new_mirrors ctx).assertAll hctx as has hd
  obtain ⟨g₂, h₂, henc⟩ := h₁.encodeBool hctx hgoal hl
  have hb : b = ((assertLit l.negated).run d').2 := (congrArg Prod.snd he).symm
  have hpush := h₂.push (l := l.negated) (Q := fun ρ => (ctx.expr goal).eval ρ = 0)
    (henc.2.inCnf l (List.mem_singleton.mpr rfl)) fun ρ m hs => by
      rw [litVal_negated, ← henc.2.spells ρ m hs, num_singleton]
      cases litVal m l <;> decide
  rw [hb]
  refine ⟨⟨g₂, hpush.run, hpush.same, hpush.bounded, fun ρ m hsyms => ?_⟩, fun ρ => ?_⟩
  · rw [hpush.sat ρ m hsyms, true_and]
  · obtain ⟨m, hm⟩ := (h₂.run.good hctx).sol ρ
    rw [← henc.2.spells ρ m hm, num_singleton]
    cases litVal m l <;> decide

end Blaster

namespace Bitprecise

open Blaster Solver

def maxClauses : Nat := 300000

/-- `prove_implies_budget`; `none` would be a SAT search that never ends. -/
def proveImpliesBudget (rd : Rounding) (expired : Nat → Bool) (ctx : ExprCtx)
    (assumptions : List ExprId) (goal : ExprId) (budget : Nat) : Option Bool :=
  match (assertQuery ctx assumptions goal).run Blaster.new with
  | (none, _) => some false
  | (some (), b) =>
    if maxClauses < b.cnf.clauses.length then some false
    else do
      let r ← solve rd (Solver.new b.cnf.numVars b.cnf.clauses) budget expired
      return r == .unsat

def proveImplies (rd : Rounding) (expired : Nat → Bool) (ctx : ExprCtx)
    (assumptions : List ExprId) (goal : ExprId) : Option Bool :=
  proveImpliesBudget rd expired ctx assumptions goal defaultBudget

structure Assignment where
  name : String
  value : BitVector
  deriving DecidableEq

/-- The value a model gives to literals, lowest bit first. -/
def readBits (model : List Bool) : List Lit → Nat → Nat → Nat
  | [], _, value => value
  | lit :: bits, i, value =>
    let bit := model.getD lit.var false != lit.neg
    readBits model bits (i + 1) (if bit then value ||| 1 <<< i else value)

def readSym (model : List Bool) (s : String × Nat × List Lit) : Option Assignment := do
  return ⟨s.1, ← BitVector.new s.2.1 (readBits model s.2.2 0 0)⟩

/-- `find_counterexample`; the outer `none` would be an endless search or a symbol whose width
    `BitVector::new` rejects. -/
def findCounterexample (rd : Rounding) (expired : Nat → Bool) (ctx : ExprCtx)
    (assumptions : List ExprId) (goal : ExprId) : Option (Option (List Assignment)) :=
  match (assertQuery ctx assumptions goal).run Blaster.new with
  | (none, _) => some none
  | (some (), b) =>
    if maxClauses < b.cnf.clauses.length then some none
    else do
      match ← solve rd (Solver.new b.cnf.numVars b.cnf.clauses) defaultBudget expired with
      | .sat model => return some (← b.syms.mapM (readSym model))
      | _ => return none

/-! ## Reading a model back -/

theorem readBits_eq (model : List Bool) (bits : List Lit) : ∀ (i value : Nat), value < 2 ^ i →
    readBits model bits i value = value + 2 ^ i * num (fun v => model.getD v false) bits := by
  induction bits with
  | nil =>
    intro i value _
    rw [readBits, num_nil, Nat.mul_zero, Nat.add_zero]
  | cons lit bits ih =>
    intro i value hv
    have hlit : (model.getD lit.var false != lit.neg) = litVal (fun v => model.getD v false) lit := rfl
    rw [readBits, hlit, num_cons]
    cases litVal (fun v => model.getD v false) lit with
    | false =>
      have hlt : value < 2 ^ (i + 1) := Nat.lt_of_lt_of_le hv (Nat.pow_le_pow_right (by decide) (by simp))
      rw [if_neg (by decide), ih (i + 1) value hlt, Bool.toNat_false, Nat.pow_succ]
      ring
    | true =>
      -- the new bit lies above the value read so far
      have hor : value ||| 1 <<< i = value + 2 ^ i := by
        have := Nat.two_pow_add_eq_or_of_lt hv 1
        rw [Nat.mul_one] at this
        rw [Nat.one_shiftLeft, Nat.or_comm, ← this, Nat.add_comm]
      have hlt : value + 2 ^ i < 2 ^ (i + 1) := by
        rw [Nat.pow_succ]
        omega
      rw [if_pos rfl, hor, ih (i + 1) _ hlt, Bool.toNat_true, Nat.pow_succ]
      ring

/-- `ρ` gives the symbols of the model the model's values; it is free on every other symbol. -/
def Describes (ρ : Valuation) (model : List Assignment) : Prop :=
  ∀ a ∈ model, ρ a.name a.value.width = a.value.value

theorem readSym_some {model : List Bool} {s : String × Nat × List Lit}
    (hw : 0 < s.2.1 ∧ s.2.1 ≤ maxWidth) (hl : s.2.2.length = s.2.1) :
    ∃ a, readSym model s = some a ∧ a.name = s.1 ∧ a.value.width = s.2.1 ∧
      a.value.value = num (fun v => model.getD v false) s.2.2 := by
  have hlt := num_lt (fun v => model.getD v false) s.2.2
  rw [hl] at hlt
  have hread : readBits model s.2.2 0 0 = num (fun v => model.getD v false) s.2.2 := by
    rw [readBits_eq model s.2.2 0 0 (by decide), Nat.zero_add, Nat.pow_zero, Nat.one_mul]
  refine ⟨⟨s.1, ⟨s.2.1, num (fun v => model.getD v false) s.2.2, hw.1, hw.2, hlt⟩⟩, ?_, rfl, rfl, rfl⟩
  have hw128 : 0 < s.2.1 ∧ s.2.1 ≤ 128 := hw
  rw [readSym, hread, BitVector.new, dif_pos hw128]
  simp only [Nat.mod_eq_of_lt hlt]
  rfl

theorem mapM_readSym {model : List Bool} (syms : List (String × Nat × List Lit))
    (hsyms : ∀ s ∈ syms, (0 < s.2.1 ∧ s.2.1 ≤ maxWidth) ∧ s.2.2.length = s.2.1) :
    ∃ as, syms.mapM (readSym model) = some as ∧
      (∀ a ∈ as, ∃ s ∈ syms, a.name = s.1 ∧ a.value.width = s.2.1 ∧
        a.value.value = num (fun v => model.getD v false) s.2.2) ∧
      ∀ s ∈ syms, ∃ a ∈ as, a.name = s.1 ∧ a.value.width = s.2.1 ∧
        a.value.value = num (fun v => model.getD v false) s.2.2 := by
  induction syms with
  | nil =>
    exact ⟨[], rfl, fun _ h => absurd h List.not_mem_nil, fun _ h => absurd h List.not_mem_nil⟩
  | cons s syms ih =>
    obtain ⟨hw, hl⟩ := hsyms s List.mem_cons_self
    obtain ⟨a, ha, hread⟩ := readSym_some hw hl
    obtain ⟨as, has, honly, hall⟩ := ih fun t ht => hsyms t (List.mem_cons_of_mem _ ht)
    refine ⟨a :: as, ?_, ?_, ?_⟩
    · rw [List.mapM_cons, ha, has]
      rfl
    · intro x hx
      rcases List.mem_cons.mp hx with rfl | hx
      · exact ⟨s, List.mem_cons_self, hread⟩
      · obtain ⟨t, ht, hxt⟩ := honly x hx
        exact ⟨t, List.mem_cons_of_mem _ ht, hxt⟩
    · intro t ht
      rcases List.mem_cons.mp ht with rfl | ht
      · exact ⟨a, List.mem_cons_self, hread⟩
      · obtain ⟨x, hx, hxt⟩ := hall t ht
        exact ⟨x, List.mem_cons_of_mem _ hx, hxt⟩

/-! ## Correctness -/

/-- Every valuation the read-back model describes gives the symbols the bits of the SAT model, and
    there is one: no symbol is listed twice. -/
theorem describes_symsAre {ctx : ExprCtx} (hdis : ctx.Distinct) {g : Blaster} (hown : SymsOwned ctx g)
    (hlen : ∀ s ∈ g.syms, s.2.2.length = s.2.1) (model : List Bool) :
    ∃ as, g.syms.mapM (readSym model) = some as ∧ (∃ ρ, Describes ρ as) ∧
      ∀ ρ, Describes ρ as → SymsAre ρ (fun v => model.getD v false) g.syms := by
  obtain ⟨as, has, honly, hall⟩ := mapM_readSym g.syms
    fun s hs => ⟨(hown s hs).1, hlen s hs⟩
  refine ⟨as, has, ?_, ?_⟩
  · classical
    refine ⟨fun name w => if h : ∃ a ∈ as, a.name = name ∧ a.value.width = w
      then h.choose.value.value else 0, fun a ha => ?_⟩
    have hex : ∃ x ∈ as, x.name = a.name ∧ x.value.width = a.value.width := ⟨a, ha, rfl, rfl⟩
    simp only [dif_pos hex]
    obtain ⟨hx, hname, hwidth⟩ := hex.choose_spec
    -- the chosen entry and `a` come from one symbol
    obtain ⟨s, hs, hs1, hs2, hs3⟩ := honly a ha
    obtain ⟨t, ht, ht1, ht2, ht3⟩ := honly _ hx
    have hst : t = s := hown.unique hdis ht hs (by rw [← ht1, hname, hs1]) (by rw [← ht2, hwidth, hs2])
    rw [ht3, hst, ← hs3]
  · intro ρ hρ s hs
    obtain ⟨a, ha, ha1, ha2, ha3⟩ := hall s hs
    have hval := hρ a ha
    rw [ha1, ha2, ha3] at hval
    have hlt := num_lt (fun v => model.getD v false) s.2.2
    rw [hlen s hs] at hlt
    rw [hval, Nat.mod_eq_of_lt hlt]

theorem proveImpliesBudget_spec {ctx : ExprCtx} (hctx : ctx.Built) {assumptions : List ExprId}
    (has : ∀ a ∈ assumptions, a < ctx.len) {goal : ExprId} (hgoal : goal < ctx.len) (rd : Rounding)
    (expired : Nat → Bool) (budget : Nat) :
    ∃ r, proveImpliesBudget rd expired ctx assumptions goal budget = some r ∧ (r = true →
      ∀ ρ, (∀ a ∈ assumptions, (ctx.expr a).eval ρ = 1) → (ctx.expr goal).eval ρ = 1) := by
  unfold proveImpliesBudget
  cases hq : (assertQuery ctx assumptions goal).run Blaster.new with
  | mk o b =>
  cases o with
  | none =>
    -- an operand the encoder rejects
    exact ⟨false, rfl, fun h => absurd h (by decide)⟩
  | some u =>
    obtain ⟨⟨g, hg⟩, hbit⟩ := assertQuery_mirrors hctx.ok has hgoal hq
    have hvars : b.cnf.numVars = g.cnf.numVars := by rw [hg.same]; rfl
    have hbound : ∀ c ∈ b.cnf.clauses, ∀ l ∈ c, l.var < b.cnf.numVars := by
      rw [hvars]
      exact hg.bounded
    by_cases hbig : maxClauses < b.cnf.clauses.length
    · simp only [if_pos hbig]
      exact ⟨false, rfl, fun h => absurd h (by decide)⟩
    · simp only [if_neg hbig]
      obtain ⟨r, hr, hun⟩ := solve_verdict rd hbound budget expired
      refine ⟨r == .unsat, by rw [hr]; rfl, fun hrt ρ hρ => ?_⟩
      rw [beq_iff_eq.mp hrt] at hun
      obtain ⟨m, hm⟩ := (hg.run.good hctx.ok).sol ρ
      refine (hbit ρ).resolve_left fun hzero => ?_
      exact hun m ((hg.sat ρ m hm.2).mpr ⟨hm.1, hρ, hzero⟩)

theorem findCounterexample_spec {ctx : ExprCtx} (hctx : ctx.Built) {assumptions : List ExprId}
    (has : ∀ a ∈ assumptions, a < ctx.len) {goal : ExprId} (hgoal : goal < ctx.len) (rd : Rounding)
    (expired : Nat → Bool) :
    ∃ r, findCounterexample rd expired ctx assumptions goal = some r ∧ ∀ model, r = some model →
      (∃ ρ, Describes ρ model) ∧ ∀ ρ, Describes ρ model →
        (∀ a ∈ assumptions, (ctx.expr a).eval ρ = 1) ∧ (ctx.expr goal).eval ρ = 0 := by
  unfold findCounterexample
  cases hq : (assertQuery ctx assumptions goal).run Blaster.new with
  | mk o b =>
  cases o with
  | none => exact ⟨none, rfl, fun _ h => absurd h (by simp)⟩
  | some u =>
    obtain ⟨⟨g, hg⟩, -⟩ := assertQuery_mirrors hctx.ok has hgoal hq
    have hgood := hg.run.good hctx.ok
    have hvars : b.cnf.numVars = g.cnf.numVars := by rw [hg.same]; rfl
    have hsyms : b.syms = g.syms := by rw [hg.same]; rfl
    have hbound : ∀ c ∈ b.cnf.clauses, ∀ l ∈ c, l.var < b.cnf.numVars := by
      rw [hvars]
      exact hg.bounded
    by_cases hbig : maxClauses < b.cnf.clauses.length
    · simp only [if_pos hbig]
      exact ⟨none, rfl, fun _ h => absurd h (by simp)⟩
    · simp only [if_neg hbig]
      obtain ⟨r, hr, hv⟩ := solve_verdict rd hbound defaultBudget expired
      rw [hr]
      cases r with
      | unsat => exact ⟨none, rfl, fun _ h => absurd h (by simp)⟩
      | unknown => exact ⟨none, rfl, fun _ h => absurd h (by simp)⟩
      | sat m =>
        have hsat : satAll (fun v => m.getD v false) b.cnf.clauses := hv.2
        obtain ⟨as, hread, hex, hdesc⟩ := describes_symsAre hctx.distinct
          (hg.run.symsOwned hctx.ok) (fun s hs => (hgood.syms s hs).2) m
        refine ⟨some as, ?_, fun model hmodel => ?_⟩
        · rw [hsyms]
          show (do return some (← g.syms.mapM (readSym m)) : Option (Option (List Assignment))) = _
          rw [hread]
          rfl
        · obtain rfl : as = model := Option.some.inj hmodel
          refine ⟨hex, fun ρ hρ => ?_⟩
          exact ((hg.sat ρ _ (hdesc ρ hρ)).mp hsat).2

/-- **Bit-precise entailment is correct in both directions.** For every arena a client can build, all
    its handles, every budget, every behaviour of the clock and every rounding, both queries return.
    `true` means that every valuation satisfying the assumptions satisfies the goal; a returned model
    describes a valuation, and every valuation it describes makes the assumptions true and the goal
    false. -/
theorem entailment_correct {ctx : ExprCtx} (hctx : ctx.Built) {assumptions : List ExprId}
    (has : ∀ a ∈ assumptions, a < ctx.len) {goal : ExprId} (hgoal : goal < ctx.len) (rd : Rounding)
    (expired : Nat → Bool) (budget : Nat) :
    (∃ r, proveImpliesBudget rd expired ctx assumptions goal budget = some r ∧ (r = true →
      ∀ ρ, (∀ a ∈ assumptions, (ctx.expr a).eval ρ = 1) → (ctx.expr goal).eval ρ = 1)) ∧
    ∃ r, findCounterexample rd expired ctx assumptions goal = some r ∧ ∀ model, r = some model →
      (∃ ρ, Describes ρ model) ∧ ∀ ρ, Describes ρ model →
        (∀ a ∈ assumptions, (ctx.expr a).eval ρ = 1) ∧ (ctx.expr goal).eval ρ = 0 :=
  ⟨proveImpliesBudget_spec hctx has hgoal rd expired budget, findCounterexample_spec hctx has hgoal rd expired⟩

/-- `x < 2` for a two-bit `x`, and `x < 1`. -/
def boundsCtx : ExprCtx := ⟨[(.sym "x" 2, 2), (.const ⟨2, 2, by decide, by decide, by decide⟩, 2),
  (.const ⟨2, 1, by decide, by decide, by decide⟩, 2), (.cmp .ult 0 1, 1), (.cmp .ult 0 2, 1)]⟩

theorem boundsCtx_built : boundsCtx.Built := by
  have hx : ExprCtx.Built ⟨[(.sym "x" 2, 2)]⟩ := .symbol "x" 2 .empty rfl
  have h2 : ExprCtx.Built ⟨[(.sym "x" 2, 2),
      (.const ⟨2, 2, by decide, by decide, by decide⟩, 2)]⟩ :=
    .constant _ hx rfl
  have h1 : ExprCtx.Built ⟨[(.sym "x" 2, 2), (.const ⟨2, 2, by decide, by decide, by decide⟩, 2),
      (.const ⟨2, 1, by decide, by decide, by decide⟩, 2)]⟩ :=
    .constant ⟨2, 1, by decide, by decide, by decide⟩ h2 rfl
  have hlt2 : ExprCtx.Built ⟨[(.sym "x" 2, 2), (.const ⟨2, 2, by decide, by decide, by decide⟩, 2),
      (.const ⟨2, 1, by decide, by decide, by decide⟩, 2), (.cmp .ult 0 1, 1)]⟩ :=
    .cmp .ult h1 (a := 0) (b := 1) (by decide) (by decide) rfl
  exact .cmp .ult hlt2 (a := 0) (b := 2) (by decide) (by decide) rfl

/-- `x < 1` entails `x < 2`; the converse has the counterexample `x = 1`. -/
theorem entailment_correct_bounds :
    (∀ ρ, (boundsCtx.expr 4).eval ρ = 1 → (boundsCtx.expr 3).eval ρ = 1) ∧
    ∀ ρ : Valuation, ρ "x" 2 = 1 →
      (boundsCtx.expr 3).eval ρ = 1 ∧ (boundsCtx.expr 4).eval ρ = 0 := by
  obtain ⟨⟨r, hr, hproved⟩, -⟩ := @entailment_correct _ boundsCtx_built [4] (by decide) 3 (by decide)
    Rounding.exact (fun _ => false) 10
  obtain ⟨-, r', hr', hmodel⟩ := @entailment_correct _ boundsCtx_built [3] (by decide) 4 (by decide)
    Rounding.exact (fun _ => false) 10
  constructor
  · have hrun : proveImpliesBudget Rounding.exact (fun _ => false) boundsCtx [4] 3 10 = some true := by
      decide +kernel
    rw [hrun] at hr
    intro ρ hρ
    exact hproved (Option.some.inj hr).symm ρ fun a ha => by rw [List.mem_singleton.mp ha, hρ]
  · have hrun : findCounterexample Rounding.exact (fun _ => false) boundsCtx [3] 4 =
        some (some [⟨"x", ⟨2, 1, by decide, by decide, by decide⟩⟩]) := by
      decide +kernel
    rw [hrun] at hr'
    intro ρ hρ
    obtain ⟨hall, hgoal⟩ := (hmodel _ (Option.some.inj hr').symm).2 ρ fun a ha => by
      rw [List.mem_singleton.mp ha, hρ]
    exact ⟨hall 3 (List.mem_singleton.mpr rfl), hgoal⟩

end Bitprecise

end Csolver.Sat
