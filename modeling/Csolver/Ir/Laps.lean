import Csolver.Cfg.Loops
import Csolver.Ir.Ssa

/-!
# Rounds of a loop

An execution of a loop comes to the head of the header, goes round and comes back to it along a back edge
(`Func.Lap`). On the way it stays in the body: what it visits leads to a latch around the header. So a
register that nothing in the body writes keeps its value from visit to visit, and a parameter of the header
keeps its value until the next visit.
-/

namespace Csolver.Func

open Lib

variable {f : Func} {Γ : RegId → Nat}

/-- At the head of the block at `h`. -/
def Visits (f : Func) (h : Nat) (p : Point) : Prop := f.blocks[h]? = some p.blk ∧ p.rest = p.blk.insts

/-- On the way, without coming to the head of the block at `h` again. -/
def Between (f : Func) (Γ : RegId → Nat) (h : Nat) : Point → Point → Prop :=
  Relation.ReflTransGen fun p q => f.Step Γ p q ∧ ¬ f.Visits h q

/-- From one visit of the header to the next, along a back edge. -/
structure Lap (f : Func) (Γ : RegId → Nat) (l : Loop) (p q : Point) : Prop where
  start : f.Visits l.header p
  back : ∃ e n, f.Between Γ l.header p e ∧ n ∈ l.latches ∧ f.blocks[n]? = some e.blk ∧ e.rest = [] ∧
    f.Step Γ e q
  finish : f.Visits l.header q

/-- The registers that the blocks of the body write. -/
def WrittenIn (f : Func) (l : Loop) (r : RegId) : Prop :=
  ∃ n ∈ l.body, ∃ b k, f.blocks[n]? = some b ∧ b.Writes r k

/-! ## Positions -/

theorem position_inj (hwf : f.WellFormed) {n m : Nat} {b : BasicBlock} (hn : f.blocks[n]? = some b)
    (hm : f.blocks[m]? = some b) : n = m := by
  refine (List.getElem?_inj (l := f.blocks.map (·.id)) ?_ hwf.ids).mp ?_
  · rw [List.length_map]
    exact (List.getElem?_eq_some_iff.mp hn).1
  · rw [List.getElem?_map, List.getElem?_map, hn, hm]

theorem Located.next (hwf : f.WellFormed) {p q : Point} {n k : Nat} (h : f.Located p n k) (hs : f.Step Γ p q) :
    ∃ m j, f.Located q m j := by
  rcases h.step hwf hs with ⟨_, _, _, _, hq⟩ | ⟨m, _, _, _, _, _, _, _, _, _, _, _, hq⟩
  · exact ⟨_, _, hq⟩
  · exact ⟨_, _, hq⟩

theorem Reaches.located (hwf : f.WellFormed) {args : List Nat} {p : Point} (h : f.Reaches Γ args p) :
    ∃ n k, f.Located p n k := by
  apply h.induction
  · exact fun p hp => ⟨_, _, start_located hwf hp⟩
  · rintro p q ⟨n, k, hloc⟩ hs
    exact hloc.next hwf hs

theorem Reaches.settled (hwf : f.WellFormed) {m j : Nat} {a : BasicBlock} {i : Inst} {dst : RegId}
    {reads : RegId → Prop} {V : Regs → Nat → Prop} (ha : f.blocks[m]? = some a) (hj : a.insts[j]? = some i)
    (hc : Computes Γ i dst reads V) (hs : f.Dominates m m → f.Single m j dst reads) {args : List Nat}
    {p : Point} (h : f.Reaches Γ args p) : ∃ n k, f.Located p n k ∧ f.Settled m j dst V n k p.regs := by
  apply h.induction
  · exact fun p hp => ⟨_, _, start_located hwf hp, Settled.start f m j dst V p.regs⟩
  · rintro p q ⟨n, k, hloc, hset⟩ hstep
    rcases hloc.step hwf hstep with ⟨i', hi', hex, -, hq⟩ |
      ⟨n', _, _, xs, hk, _, _, _, _, hregs, _, hedge, hq⟩
    · exact ⟨n, k + 1, hq, hset.inst ha hj hc hs hloc.blk hi' hex⟩
    · refine ⟨n', 0, hq, ?_⟩
      rw [hregs]
      exact hset.jump ha hj hc hs hloc.blk hloc.live hk hq.blk hedge

theorem Between.reaches {args : List Nat} {h : Nat} {p q : Point} (hp : f.Reaches Γ args p)
    (hpq : f.Between Γ h p q) : f.Reaches Γ args q := by
  induction hpq with
  | refl => exact hp
  | tail _ hstep ih => exact ih.step hstep.1

theorem Lap.reaches {args : List Nat} {l : Loop} {p q : Point} (hp : f.Reaches Γ args p) (h : f.Lap Γ l p q) :
    f.Reaches Γ args q := by
  obtain ⟨e, n, hpe, -, -, -, hstep⟩ := h.back
  exact (hpe.reaches hp).step hstep

/-! ## What the way round keeps -/

theorem Between.stays (hwf : f.WellFormed) {l : Loop} (hl : Loops.Filled f.cfg l) {n : Nat}
    (hn : n ∈ l.latches) {p e : Point} (hpe : f.Between Γ l.header p e) (he : f.blocks[n]? = some e.blk) :
    ∀ m k, f.Located p m k → m ∈ l.body := by
  induction hpe using Relation.ReflTransGen.head_induction_on with
  | refl =>
    intro m k hloc
    obtain rfl := position_inj hwf hloc.blk he
    apply (hl m).mpr
    by_cases hm : m = l.header
    · exact .inl hm
    · exact .inr ⟨m, hn, Avoids.refl hm⟩
  | @head p q hstep _ ih =>
    intro m k hloc
    rcases hloc.step hwf hstep.1 with ⟨_, _, _, _, hq⟩ | ⟨m', _, _, _, _, _, _, _, _, _, _, hedge, hq⟩
    · exact ih _ _ hq
    · have hne : m' ≠ l.header := by
        rintro rfl
        exact hstep.2 ⟨hq.blk, by rw [hq.rest, List.drop_zero]⟩
      apply (hl m).mpr
      by_cases hm : m = l.header
      · exact .inl hm
      · rcases (hl m').mp (ih _ _ hq) with heq | ⟨n', hn', hav⟩
        · exact absurd heq hne
        · exact .inr ⟨n', hn', hav.head hm hedge⟩

theorem Between.inside (hwf : f.WellFormed) {l : Loop} (hl : Loops.Filled f.cfg l) {n : Nat}
    (hn : n ∈ l.latches) {r : RegId} (hr : ¬ f.WrittenIn l r) {p e : Point}
    (hpe : f.Between Γ l.header p e) (he : f.blocks[n]? = some e.blk) :
    ∀ m k, f.Located p m k → e.regs r = p.regs r := by
  induction hpe using Relation.ReflTransGen.head_induction_on with
  | refl => exact fun _ _ _ => rfl
  | @head p q hstep hqe ih =>
    intro m k hloc
    have hm := Between.stays hwf hl hn (.head hstep hqe) he m k hloc
    rcases hloc.step hwf hstep.1 with ⟨i, hi, hex, -, hq⟩ | ⟨m', _, _, xs, _, _, _, _, _, hregs, _, _, hq⟩
    · refine (ih _ _ hq).trans (exec_frame hex fun hw => hr ?_)
      exact ⟨m, hm, p.blk, k + 1, hloc.blk, .inr ⟨k, i, rfl, hi, hw⟩⟩
    · have hm' := Between.stays hwf hl hn hqe he m' 0 hq
      rw [ih _ _ hq, hregs]
      apply bind_frame
      exact fun hp => hr ⟨m', hm', q.blk, 0, hq.blk, .inl ⟨rfl, hp⟩⟩

theorem Between.keeps (hwf : f.WellFormed) {h : Nat} {r : RegId}
    (hr : ∀ (m : Nat) c k, f.blocks[m]? = some c → c.Writes r k → m = h ∧ k = 0) {p e : Point}
    (hpe : f.Between Γ h p e) (hp : ∃ m k, f.Located p m k) : e.regs r = p.regs r := by
  have hboth : e.regs r = p.regs r ∧ ∃ m k, f.Located e m k := by
    induction hpe with
    | refl => exact ⟨rfl, hp⟩
    | @tail e q _ hstep ih =>
      obtain ⟨hkeep, m, k, hloc⟩ := ih
      refine ⟨?_, hloc.next hwf hstep.1⟩
      rcases hloc.step hwf hstep.1 with ⟨i, hi, hex, -, -⟩ | ⟨m', _, _, xs, _, _, _, _, _, hregs, _, _, hq⟩
      · refine (exec_frame hex fun hw => ?_).trans hkeep
        have := (hr m e.blk (k + 1) hloc.blk (.inr ⟨k, i, rfl, hi, hw⟩)).2
        exact absurd this (Nat.succ_ne_zero k)
      · rw [hregs]
        refine (bind_frame fun hmem => hstep.2 ?_).trans hkeep
        obtain ⟨rfl, -⟩ := hr m' q.blk 0 hq.blk (.inl ⟨rfl, hmem⟩)
        exact ⟨hq.blk, by rw [hq.rest, List.drop_zero]⟩
  exact hboth.1

theorem Lap.last (hwf : f.WellFormed) {args : List Nat} {l : Loop} {p q : Point} (hp : f.Reaches Γ args p)
    (h : f.Lap Γ l p q) :
    ∃ e n, n ∈ l.latches ∧ f.Between Γ l.header p e ∧ f.Reaches Γ args e ∧ f.Located e n e.blk.insts.length ∧
      ∃ target as xs, e.blk.term.Goes e.regs target as ∧ f.block target = some q.blk ∧
        List.Forall₂ (Operand.Evals e.regs) as xs ∧ as.length = q.blk.params.length ∧
        q.regs = e.regs.bind q.blk.params xs := by
  obtain ⟨e, n, hpe, hn, hblk, hnil, hstep⟩ := h.back
  have he := hpe.reaches hp
  obtain ⟨m, k, hloc⟩ := he.located hwf
  obtain rfl := position_inj hwf hblk hloc.blk
  refine ⟨e, n, hn, hpe, he, ⟨hblk, by rw [hnil, List.drop_length], hloc.live⟩, ?_⟩
  rcases hloc.step hwf hstep with ⟨i, hi, _⟩ | ⟨_, target, as, xs, _, hgoes, htb, hxs, hlen, hregs, _⟩
  · -- nothing is left of the block
    have hle : e.blk.insts.length ≤ k := List.drop_eq_nil_iff.mp (hloc.rest.symm.trans hnil)
    rw [List.getElem?_eq_none hle] at hi
    exact absurd hi (by simp)
  · exact ⟨target, as, xs, hgoes, htb, hxs, hlen, hregs⟩

/-- Where a round goes on from the header: the end of the header, and the block of the body that comes
    next. -/
theorem Lap.leaves (hwf : f.WellFormed) {args : List Nat} {l : Loop} (hl : Loops.Filled f.cfg l) {p q : Point}
    (hp : f.Reaches Γ args p) (h : f.Lap Γ l p q) :
    ∃ e m, f.Between Γ l.header p e ∧ f.Located e l.header e.blk.insts.length ∧ m ∈ l.body ∧
      (∃ target as, e.blk.term.Goes e.regs target as ∧ f.indexOf target = some m) ∧
      ∀ r, ¬ f.WrittenIn l r → e.regs r = p.regs r := by
  obtain ⟨hstart, ⟨e, n, hpe, hn, hblk, hnil, hstep⟩, hfinish⟩ := h
  have hloc : ∃ k, f.Located p l.header k := by
    obtain ⟨m, k, hloc⟩ := hp.located hwf
    exact ⟨k, position_inj hwf hloc.blk hstart.1 ▸ hloc⟩
  have hkeep : ∀ r, ¬ f.WrittenIn l r → ∀ e', f.Between Γ l.header p e' → f.Between Γ l.header e' e →
      e'.regs r = p.regs r := by
    intro r hr e' hpe' hee'
    obtain ⟨k, hloc⟩ := hloc
    obtain ⟨m', k', hloc'⟩ := (hpe'.reaches hp).located hwf
    exact (hee'.inside hwf hl hn hr hblk m' k' hloc').symm.trans (hpe.inside hwf hl hn hr hblk _ k hloc)
  -- the first point at the end of the header on the way to the latch
  have hfirst : ∃ e' m, f.Between Γ l.header p e' ∧ f.Between Γ l.header e' e ∧
      f.Located e' l.header e'.blk.insts.length ∧ m ∈ l.body ∧
      ∃ target as, e'.blk.term.Goes e'.regs target as ∧ f.indexOf target = some m := by
    clear hkeep hp hstart
    induction hpe using Relation.ReflTransGen.head_induction_on with
    | refl =>
      obtain ⟨k, hloc⟩ := hloc
      have hhead : l.header ∈ l.body := (hl _).mpr (.inl rfl)
      rcases hloc.step hwf hstep with ⟨i, hi, _⟩ | ⟨m, target, as, _, _, hgoes, _, _, _, _, hm, _, hq⟩
      · have hle : e.blk.insts.length ≤ k := List.drop_eq_nil_iff.mp (hloc.rest.symm.trans hnil)
        rw [List.getElem?_eq_none hle] at hi
        exact absurd hi (by simp)
      · obtain rfl := position_inj hwf hq.blk hfinish.1
        exact ⟨e, l.header, .refl, .refl, ⟨hloc.blk, by rw [hnil, List.drop_length], hloc.live⟩, hhead, target,
          as, hgoes, hm⟩
    | @head p s hps hse ih =>
      obtain ⟨k, hloc⟩ := hloc
      rcases hloc.step hwf hps.1 with ⟨_, _, _, _, hs⟩ | ⟨m, target, as, _, hk, hgoes, _, _, _, _, hm, _, hs⟩
      · obtain ⟨e', m, hse', hrest⟩ := ih ⟨_, hs⟩
        exact ⟨e', m, .head hps hse', hrest⟩
      · have hnone : p.rest = [] := hloc.rest.trans (List.drop_eq_nil_of_le hk)
        exact ⟨p, m, .refl, .head hps hse, ⟨hloc.blk, by rw [hnone, List.drop_length], hloc.live⟩,
          Between.stays hwf hl hn hse hblk m 0 hs, target, as, hgoes, hm⟩
  obtain ⟨e', m, hpe', hee', hloc', hm, hgoes⟩ := hfirst
  exact ⟨e', m, hpe', hloc', hm, hgoes, fun r hr => hkeep r hr e' hpe' hee'⟩

/-- **A round keeps** what the body does not write. -/
theorem Lap.keeps (hwf : f.WellFormed) {args : List Nat} {l : Loop} (hl : Loops.Filled f.cfg l) {p q : Point}
    (hp : f.Reaches Γ args p) (h : f.Lap Γ l p q) {r : RegId} (hr : ¬ f.WrittenIn l r) :
    q.regs r = p.regs r := by
  obtain ⟨m, k, hloc⟩ := hp.located hwf
  obtain ⟨e, n, hn, hpe, -, hloce, _, _, xs, _, _, _, _, hregs⟩ := h.last hwf hp
  rw [hregs]
  refine (bind_frame fun hmem => hr ?_).trans (hpe.inside hwf hl hn hr hloce.blk m k hloc)
  exact ⟨l.header, (hl _).mpr (.inl rfl), q.blk, 0, h.finish.1, .inl ⟨rfl, hmem⟩⟩

theorem bind_param {regs : Regs} {ps : List (RegId × Ty)} (hnd : (ps.map (·.1)).Nodup) {xs : List Nat} {pos : Nat}
    {r : RegId} {ty : Ty} {x : Nat} (hr : ps[pos]? = some (r, ty)) (hx : xs[pos]? = some x) :
    regs.bind ps xs r = some x := by
  induction ps generalizing regs xs pos with
  | nil => exact absurd hr (by simp)
  | cons a ps ih =>
    obtain ⟨hnotin, hnd⟩ := List.nodup_cons.mp hnd
    cases xs with
    | nil => exact absurd hx (by simp)
    | cons y ys =>
      cases pos with
      | zero =>
        obtain rfl := Option.some.inj hr
        obtain rfl := Option.some.inj hx
        rw [Regs.bind, bind_frame hnotin]
        exact Regs.set_self ..
      | succ pos => exact ih hnd hr hx

end Csolver.Func
