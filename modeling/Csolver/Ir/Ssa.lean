import Csolver.Cfg.OfFunc

/-!
# What single assignment gives along an execution

In strict SSA the definition of a register dominates its uses. An assignment is then an equation
between registers that stays true for as long as the execution is in blocks its own block dominates
(`Func.Equations`): neither the register nor an operand can be written there without the assignment
being executed again. No history of the execution is needed, since dominance passes from a block to
its predecessors.
-/

namespace Csolver

open Lib

/-- Position `0` of a block are its parameters, position `j + 1` its `j`-th instruction. -/
def BasicBlock.Writes (b : BasicBlock) (r : RegId) (k : Nat) : Prop :=
  (k = 0 ∧ r ∈ b.params.map (·.1)) ∨ ∃ j i, k = j + 1 ∧ b.insts[j]? = some i ∧ r ∈ i.writes

namespace Func

variable {f : Func} {Γ : RegId → Nat}

def Edge (f : Func) : Nat → Nat → Prop := f.cfg.succ.Edge

def Live (f : Func) (n : Nat) : Prop := Reach f.Edge f.cfg.entry n

def Dominates (f : Func) (m n : Nat) : Prop := Dom f.Edge f.cfg.entry m n

/-- The part of strict SSA that concerns assignments, branch conditions and the outputs of inline
    assembly. -/
structure StrictSsa (f : Func) : Prop where
  use : ∀ n b, f.blocks[n]? = some b → f.Live n → ∀ (j : Nat) dst ty value,
    b.insts[j]? = some (.assign dst ty value) → ∀ r, .reg r ∈ value.operands →
    ∀ (m : Nat) c k, f.blocks[m]? = some c → c.Writes r k → f.Dominates m n ∧ (m = n → k ≤ j)
  branch : ∀ n b, f.blocks[n]? = some b → f.Live n → ∀ r t targs e eargs,
    b.term = .condBr (.reg r) t targs e eargs →
    ∀ (m : Nat) c k, f.blocks[m]? = some c → c.Writes r k → f.Dominates m n
  assign_once : ∀ (n : Nat) b (j : Nat) dst ty value, f.blocks[n]? = some b →
    b.insts[j]? = some (.assign dst ty value) →
    ∀ (m : Nat) c k, f.blocks[m]? = some c → c.Writes dst k → m = n ∧ k = j + 1
  asm_once : ∀ (n : Nat) b (j : Nat) defs, f.blocks[n]? = some b → b.insts[j]? = some (.asm defs) →
    ∀ r ∈ defs, ∀ (m : Nat) c k, f.blocks[m]? = some c → c.Writes r k → m = n ∧ k = j + 1

/-! ## Where an execution is -/

/-- The point is in the block at position `n`, with `k` instructions executed. -/
structure Located (f : Func) (p : Point) (n k : Nat) : Prop where
  blk : f.blocks[n]? = some p.blk
  rest : p.rest = p.blk.insts.drop k
  live : f.Live n

theorem block_eq_of_id (hwf : f.WellFormed) {b c : BasicBlock} (hb : b ∈ f.blocks) (hc : c ∈ f.blocks)
    (h : b.id = c.id) : b = c := List.inj_on_of_nodup_map hwf.ids hb hc h

theorem indexOf_block (hwf : f.WellFormed) {id : BlockId} {b : BasicBlock} (h : f.block id = some b) :
    ∃ n, f.indexOf id = some n ∧ f.blocks[n]? = some b := by
  obtain ⟨hb, hid⟩ := block_spec h
  obtain ⟨n, hn⟩ := indexOf_isSome hb hid
  obtain ⟨c, hc, hcid⟩ := indexOf_spec hn
  exact ⟨n, hn, by rw [hc, block_eq_of_id hwf (List.mem_of_getElem? hc) hb (hcid.trans hid.symm)]⟩

theorem start_located (hwf : f.WellFormed) {args : List Nat} {p : Point} (h : f.Start args p) :
    f.Located p f.cfg.entry 0 := by
  obtain ⟨n, hn, hb⟩ := indexOf_block hwf h.1
  have hentry : f.cfg.entry = n := by
    show (f.indexOf f.entry).getD 0 = n
    rw [hn]
    rfl
  rw [hentry]
  exact ⟨hb, by rw [h.2.1, List.drop_zero], hentry ▸ Reach.root⟩

theorem edge_of_successor {n m : Nat} {b : BasicBlock} {id : BlockId} (hb : f.blocks[n]? = some b)
    (hid : id ∈ b.term.successors) (hm : f.indexOf id = some m) : f.Edge n m := by
  show m ∈ f.succ.row n
  rw [Adj.row, List.getD_eq_getElem?_getD, succ, List.getElem?_map, hb]
  exact List.mem_filterMap.mpr ⟨id, hid, hm⟩

/-- A step executes the next instruction, or jumps from the end of a block to the start of the
    next. -/
theorem Located.step (hwf : f.WellFormed) {p q : Point} {n k : Nat} (h : f.Located p n k)
    (hs : f.Step Γ p q) :
    (∃ i, p.blk.insts[k]? = some i ∧ i.Exec Γ p.regs q.regs ∧ q.blk = p.blk ∧
      f.Located q n (k + 1)) ∨
    ∃ m target args xs, p.blk.insts.length ≤ k ∧ p.blk.term.Goes p.regs target args ∧
      f.block target = some q.blk ∧ List.Forall₂ (Operand.Evals p.regs) args xs ∧
      args.length = q.blk.params.length ∧ q.regs = p.regs.bind q.blk.params xs ∧
      f.indexOf target = some m ∧ f.Edge n m ∧ f.Located q m 0 := by
  cases hs with
  | @inst b i is regs regs' hex =>
    have hdrop : b.insts.drop k = i :: is := h.rest.symm
    have hk : b.insts[k]? = some i := by rw [← List.head?_drop, hdrop]; rfl
    refine .inl ⟨i, hk, hex, rfl, h.blk, ?_, h.live⟩
    rw [← List.tail_drop, hdrop]
    rfl
  | @jump b tb regs target args xs hgoes htb hargs hlen =>
    have hnil : b.insts.drop k = [] := h.rest.symm
    obtain ⟨m, hm, hbm⟩ := indexOf_block hwf htb
    have hmem : target ∈ b.term.successors := by
      rw [← Terminator.edges_fst]
      exact List.mem_map_of_mem (f := (·.1)) hgoes.mem_edges
    have hedge := edge_of_successor h.blk hmem hm
    exact .inr ⟨m, target, args, xs, List.drop_eq_nil_iff.mp hnil, hgoes, htb, hargs, hlen, rfl, hm,
      hedge, hbm, rfl, h.live.step hedge⟩

/-! ## Equations -/

theorem evals_congr {op : Operand} {regs regs' : Regs} {x : Nat}
    (h : ∀ r, op = .reg r → regs' r = regs r) (hop : op.Evals regs x) : op.Evals regs' x := by
  cases op with
  | reg r => exact (h r rfl).trans hop
  | const c => cases c <;> exact hop

theorem rvalue_evals_congr {rv : RValue} {regs regs' : Regs} {w x : Nat}
    (h : ∀ r, .reg r ∈ rv.operands → regs' r = regs r) (hrv : rv.Evals Γ regs w x) :
    rv.Evals Γ regs' w x := by
  obtain ⟨xs, hxs, hx⟩ := hrv
  refine ⟨xs, ?_, hx⟩
  generalize rv.operands = ops at h hxs
  clear hx
  induction hxs with
  | nil => exact .nil
  | @cons op y ops ys hop _ ih =>
    refine .cons (evals_congr (fun r hr => h r (hr ▸ List.mem_cons_self)) hop) ?_
    exact ih fun r hr => h r (List.mem_cons_of_mem _ hr)

/-- Executing `i` gives `dst` a value that `V` relates to the registers it `reads`, and changes nothing
    else. -/
structure Computes (Γ : RegId → Nat) (i : Inst) (dst : RegId) (reads : RegId → Prop)
    (V : Regs → Nat → Prop) : Prop where
  exec : ∀ regs regs', i.Exec Γ regs regs' → ∃ y, V regs y ∧ regs' = regs.set dst y
  congr : ∀ regs regs' x, (∀ r, reads r → regs' r = regs r) → V regs x → V regs' x

theorem assign_computes (Γ : RegId → Nat) (dst : RegId) (ty : Ty) (value : RValue) :
    Computes Γ (.assign dst ty value) dst (fun r => .reg r ∈ value.operands)
      fun regs x => value.Evals Γ regs ty.typeWidth x where
  exec regs regs' hex := by
    cases hex with
    | assign hy => exact ⟨_, hy, rfl⟩
    | other ha _ _ => exact absurd rfl (ha dst ty value)
  congr _ _ _ h hx := rvalue_evals_congr h hx

/-- Single assignment for the `j`-th instruction of the block at `m`. -/
structure Single (f : Func) (m j : Nat) (dst : RegId) (reads : RegId → Prop) : Prop where
  use : ∀ r, reads r → ∀ (m' : Nat) c k, f.blocks[m']? = some c → c.Writes r k →
    f.Dominates m' m ∧ (m' = m → k ≤ j)
  once : ∀ (m' : Nat) c k, f.blocks[m']? = some c → c.Writes dst k → m' = m ∧ k = j + 1

/-- After `k` instructions of the block at `n`: where the `j`-th instruction of the block at `m` has been
    executed, the register still stands for what it reads. -/
def Settled (f : Func) (m j : Nat) (dst : RegId) (V : Regs → Nat → Prop) (n k : Nat) (regs : Regs) : Prop :=
  f.Dominates m n → (m = n → j < k) → ∀ x, regs dst = some x → V regs x

theorem exec_frame {i : Inst} {regs regs' : Regs} (h : i.Exec Γ regs regs') {r : RegId}
    (hr : r ∉ i.writes) : regs' r = regs r := by
  cases h with
  | @assign dst ty value _ x _ =>
    exact Regs.set_of_ne (by simpa [Inst.writes, Inst.definedReg] using hr) x
  | @ptrOffset dst base index elem _ b i _ _ =>
    exact Regs.set_of_ne (by simpa [Inst.writes, Inst.definedReg] using hr) _
  | other _ _ hframe => exact hframe r hr

theorem bind_frame {regs : Regs} {ps : List (RegId × Ty)} {xs : List Nat} {r : RegId}
    (h : r ∉ ps.map (·.1)) : regs.bind ps xs r = regs r := by
  induction ps generalizing regs xs with
  | nil => rfl
  | cons p ps ih =>
    simp only [List.map_cons, List.mem_cons, not_or] at h
    cases xs with
    | nil => rfl
    | cons x xs =>
      rw [Regs.bind, ih h.2]
      exact Regs.set_of_ne h.1 x

theorem dominates_live {m n : Nat} (h : f.Dominates m n) : f.Live m := by
  obtain ⟨l, hl⟩ := h.1
  obtain ⟨l', hl', _⟩ := hl.upto (h.2 l hl)
  exact ⟨l', hl'⟩

section settled

variable {m j : Nat} {a : BasicBlock} {i₀ : Inst} {dst : RegId} {reads : RegId → Prop} {V : Regs → Nat → Prop}

theorem Settled.start (f : Func) (m j : Nat) (dst : RegId) (V : Regs → Nat → Prop) (regs : Regs) :
    f.Settled m j dst V f.cfg.entry 0 regs := by
  intro hdom hlt
  exact absurd (hlt (Dom.eq_root hdom)) (Nat.not_lt_zero j)

theorem Settled.inst (ha : f.blocks[m]? = some a) (hj : a.insts[j]? = some i₀)
    (hc : Computes Γ i₀ dst reads V) (hs : f.Dominates m m → f.Single m j dst reads) {n k : Nat}
    {b : BasicBlock} (hb : f.blocks[n]? = some b) {i : Inst} (hi : b.insts[k]? = some i) {regs regs' : Regs}
    (hex : i.Exec Γ regs regs') (h : f.Settled m j dst V n k regs) :
    f.Settled m j dst V n (k + 1) regs' := by
  intro hdom hlt x hx
  have hsingle := hs (Dom.refl (dominates_live hdom))
  have hwrite : ∀ r, r ∈ i.writes → b.Writes r (k + 1) := fun r hr => .inr ⟨k, i, rfl, hi, hr⟩
  by_cases hself : m = n ∧ j = k
  · -- the instruction itself: what it reads does not include the register it defines
    obtain ⟨rfl, rfl⟩ := hself
    obtain rfl : b = a := Option.some.inj (hb.symm.trans ha)
    obtain rfl : i = i₀ := Option.some.inj (hi.symm.trans hj)
    obtain ⟨y, hy, hset⟩ := hc.exec _ _ hex
    rw [hset, Regs.set_self] at hx
    rw [← Option.some.inj hx]
    refine hc.congr _ _ _ (fun r hr => exec_frame hex fun hw => ?_) hy
    have := (hsingle.use r hr m b (j + 1) hb (hwrite r hw)).2 rfl
    omega
  · have hlt' : m = n → j < k := by
      intro hmn
      have := hlt hmn
      have : j ≠ k := fun hjk => hself ⟨hmn, hjk⟩
      omega
    have hdst : regs' dst = regs dst := by
      refine exec_frame hex fun hw => hself ?_
      obtain ⟨hnm, hkj⟩ := hsingle.once n b (k + 1) hb (hwrite dst hw)
      exact ⟨hnm.symm, by omega⟩
    rw [hdst] at hx
    refine hc.congr _ _ _ (fun r hr => exec_frame hex fun hw => ?_) (h hdom hlt' x hx)
    obtain ⟨hdom', hle⟩ := hsingle.use r hr n b (k + 1) hb (hwrite r hw)
    have hnm := Dom.antisymm hdom' hdom
    have := hle hnm
    have := hlt' hnm.symm
    omega

theorem Settled.jump (ha : f.blocks[m]? = some a) (hj : a.insts[j]? = some i₀)
    (hc : Computes Γ i₀ dst reads V) (hs : f.Dominates m m → f.Single m j dst reads) {n n' k : Nat}
    {b tb : BasicBlock} (hb : f.blocks[n]? = some b) (hn : f.Live n) (hk : b.insts.length ≤ k)
    (htb : f.blocks[n']? = some tb) (hedge : f.Edge n n') {regs : Regs} {xs : List Nat}
    (h : f.Settled m j dst V n k regs) : f.Settled m j dst V n' 0 (regs.bind tb.params xs) := by
  intro hdom hlt x hx
  have hne : m ≠ n' := fun he => absurd (hlt he) (Nat.not_lt_zero j)
  have hdomn : f.Dominates m n := Dom.pred hdom hne hn hedge
  have hsingle := hs (Dom.refl (dominates_live hdom))
  have hlt' : m = n → j < k := by
    rintro rfl
    obtain rfl : b = a := Option.some.inj (hb.symm.trans ha)
    exact lt_of_lt_of_le (List.getElem?_eq_some_iff.mp hj).1 hk
  have hdst : regs.bind tb.params xs dst = regs dst := by
    refine bind_frame fun hp => hne ?_
    exact (hsingle.once n' tb 0 htb (.inl ⟨rfl, hp⟩)).1.symm
  rw [hdst] at hx
  refine hc.congr _ _ _ (fun r hr => bind_frame fun hp => hne ?_) (h hdomn hlt' x hx)
  exact Dom.antisymm hdom (hsingle.use r hr n' tb 0 htb (.inl ⟨rfl, hp⟩)).1

end settled

/-- What the assignments executed so far, in the blocks that dominate the point, have made true. -/
def Equations (f : Func) (Γ : RegId → Nat) (n k : Nat) (regs : Regs) : Prop :=
  ∀ (m : Nat) b (j : Nat) dst ty value, f.blocks[m]? = some b →
    b.insts[j]? = some (.assign dst ty value) → f.Dominates m n → (m = n → j < k) →
    ∀ x, regs dst = some x → value.Evals Γ regs ty.typeWidth x

theorem StrictSsa.single (hssa : f.StrictSsa) {m j : Nat} {b : BasicBlock} (hb : f.blocks[m]? = some b)
    {dst : RegId} {ty : Ty} {value : RValue} (hj : b.insts[j]? = some (.assign dst ty value))
    (h : f.Dominates m m) : f.Single m j dst fun r => .reg r ∈ value.operands where
  use r hr m' c k hc hw := hssa.use m b hb (dominates_live h) j dst ty value hj r hr m' c k hc hw
  once m' c k hc hw := hssa.assign_once m b j dst ty value hb hj m' c k hc hw

theorem Equations.inst (hssa : f.StrictSsa) {n k : Nat} {b : BasicBlock} (hb : f.blocks[n]? = some b)
    {i : Inst} (hi : b.insts[k]? = some i) {regs regs' : Regs} (hex : i.Exec Γ regs regs')
    (h : f.Equations Γ n k regs) : f.Equations Γ n (k + 1) regs' := by
  intro m c j dst ty value hc hj
  apply Settled.inst hc hj (assign_computes Γ dst ty value) (hssa.single hc hj) hb hi hex
  exact h m c j dst ty value hc hj

theorem Equations.jump (hssa : f.StrictSsa) {n m k : Nat} {b tb : BasicBlock}
    (hb : f.blocks[n]? = some b) (hn : f.Live n) (hk : b.insts.length ≤ k)
    (htb : f.blocks[m]? = some tb) (hedge : f.Edge n m) {regs : Regs} {xs : List Nat}
    (h : f.Equations Γ n k regs) : f.Equations Γ m 0 (regs.bind tb.params xs) := by
  intro l c j dst ty value hc hj
  apply Settled.jump hc hj (assign_computes Γ dst ty value) (hssa.single hc hj) hb hn hk htb hedge
  exact h l c j dst ty value hc hj

theorem Equations.start (f : Func) (Γ : RegId → Nat) (regs : Regs) :
    f.Equations Γ f.cfg.entry 0 regs := by
  intro m b j dst ty value _ _
  exact Settled.start f m j dst (fun regs x => value.Evals Γ regs ty.typeWidth x) regs

end Func

end Csolver
