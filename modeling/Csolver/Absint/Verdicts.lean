import Csolver.Absint.Reading

/-!
# The verdicts along a whole execution

Two inductions. The first is on the ways through the graph: where inline assembly is met for the first
time nothing is known about the registers it writes, and since the analysis writes them nowhere, what
it knows there at the end is nothing. The second is on the execution.
-/

namespace Csolver

open Lib

namespace Condition

mutual

/-- A condition on the machine, with the values of its operands. -/
def holds (Γ : RegId → Nat) (ν : Operand → Nat) : Condition → Bool
  | .tt => true
  | .cmp op lhs rhs => op.eval (lhs.width Γ) (ν lhs) (ν rhs)
  | .and cs => allHold Γ ν cs
  | .or cs => anyHolds Γ ν cs
  | .not c => !holds Γ ν c

def allHold (Γ : RegId → Nat) (ν : Operand → Nat) : List Condition → Bool
  | [] => true
  | c :: cs => holds Γ ν c && allHold Γ ν cs

def anyHolds (Γ : RegId → Nat) (ν : Operand → Nat) : List Condition → Bool
  | [] => false
  | c :: cs => holds Γ ν c || anyHolds Γ ν cs

end

mutual

/-- The comparisons a condition is made of. -/
def comparisons : Condition → List (CmpOp × Operand × Operand)
  | .tt => []
  | .cmp op lhs rhs => [(op, lhs, rhs)]
  | .and cs => allComparisons cs
  | .or cs => allComparisons cs
  | .not c => comparisons c

def allComparisons : List Condition → List (CmpOp × Operand × Operand)
  | [] => []
  | c :: cs => comparisons c ++ allComparisons cs

end

end Condition

namespace Intervals

variable {f : Func} {Γ : RegId → Nat} {regs : Regs} {s : IntervalState}

/-! ## Registers the analysis does not touch -/

theorem get_set_of_ne {r q : RegId} (h : q ≠ r) (v : Interval) : (s.set r v).get q = s.get q := by
  cases s with
  | unreachable => rfl
  | reachable m =>
    show (m.set r v).get q = m.get q
    rw [DefaultMap.get_set, if_neg h]

theorem applyInst_get {i : Inst} {r : RegId} (h : i.definedReg ≠ some r) :
    (applyInst s i).get r = s.get r := by
  unfold applyInst
  split
  · rename_i dst ty value
    exact get_set_of_ne (fun he => h (by rw [he]; rfl)) _
  · split
    · rename_i d hd
      exact get_set_of_ne (fun he => h (by rw [hd, he])) _
    · rfl

theorem foldl_applyInst_get {r : RegId} {is : List Inst} (h : ∀ i ∈ is, i.definedReg ≠ some r) :
    (is.foldl applyInst s).get r = s.get r := by
  induction is generalizing s with
  | nil => rfl
  | cons i is ih =>
    rw [List.foldl_cons, ih fun j hj => h j (List.mem_cons_of_mem _ hj)]
    exact applyInst_get (h i List.mem_cons_self)

theorem isReachable_applyInst (i : Inst) : (applyInst s i).isReachable = s.isReachable := by
  unfold applyInst
  split
  · exact isReachable_set _ _
  · split
    · exact isReachable_set _ _
    · rfl

theorem isReachable_foldl (is : List Inst) : (is.foldl applyInst s).isReachable = s.isReachable := by
  induction is generalizing s with
  | nil => rfl
  | cons i is ih => rw [List.foldl_cons, ih, isReachable_applyInst]

theorem refineReg_get (hssa : f.StrictSsa) {n : Nat} {q : RegId} (hq : ¬WrittenAbove f n q)
    {iv : Interval} (fuel : Nat) : ∀ {s : IntervalState} {r : RegId}, WrittenAbove f n r →
      (refineReg (collectCopies f) iv fuel s r).get q = s.get q := by
  induction fuel with
  | zero => exact fun _ => rfl
  | succ fuel ih =>
    intro s r hr
    have hne : q ≠ r := fun he => hq (he ▸ hr)
    simp only [refineReg]
    split
    · rename_i src hsrc
      split_ifs
      · obtain ⟨ty, hi⟩ := collectCopies_spec hsrc
        obtain ⟨m, b, j, hb, hj⟩ := exists_site hi
        have hdom : f.Dominates m n :=
          hr m b (j + 1) hb (.inr ⟨j, _, rfl, hj, by simp [Inst.writes, Inst.definedReg]⟩)
        rw [ih (WrittenAbove.operand hssa hb hj hdom (List.mem_singleton.mpr rfl))]
        exact get_set_of_ne hne _
      · exact get_set_of_ne hne _
    · exact get_set_of_ne hne _

theorem refineOperand_get (hssa : f.StrictSsa) {n : Nat} {q : RegId} (hq : ¬WrittenAbove f n q)
    {op : Operand} {iv : Interval} (hop : ∀ r, op = .reg r → WrittenAbove f n r) :
    (refineOperand (collectCopies f) s op iv).get q = s.get q := by
  cases op with
  | const c => rfl
  | reg r => exact refineReg_get hssa hq 64 (hop r rfl)

theorem refineEdge_get (hssa : f.StrictSsa) {n : Nat} {b : BasicBlock} (hb : f.blocks[n]? = some b)
    (hn : f.Live n) {q : RegId} (hq : ¬WrittenAbove f n q) (target : BlockId) :
    (refineEdge f b.term target s).get q = s.get q := by
  generalize hterm : b.term = term
  unfold refineEdge
  split
  · rename_i c t targs e eargs
    split
    · rename_i op lhs rhs hcmps
      split_ifs
      · obtain ⟨ty, hi⟩ := collectCmps_spec hcmps
        obtain ⟨m, a, j, ha, hj⟩ := exists_site hi
        have hdom : f.Dominates m n := hssa.branch n b hb hn c t targs e eargs hterm m a (j + 1) ha
          (.inr ⟨j, _, rfl, hj, by simp [Inst.writes, Inst.definedReg]⟩)
        have hop : ∀ op ∈ [lhs, rhs], ∀ r, op = .reg r → WrittenAbove f n r := by
          intro op hop r hr
          exact WrittenAbove.operand hssa ha hj hdom (by rw [← hr]; exact hop)
        unfold refineByCmp
        simp only
        split
        · rw [refineOperand_get hssa hq (hop rhs (by simp)),
            refineOperand_get hssa hq (hop lhs (by simp))]
        · rfl
      · rfl
    · rfl
  · rfl

theorem bindParams_get {src : IntervalState} {args : List Operand} {q : RegId} :
    ∀ (ps : List (RegId × Ty)) (i : Nat) {s : IntervalState}, q ∉ ps.map (·.1) →
      (bindParams args src i ps s).get q = s.get q := by
  intro ps
  induction ps with
  | nil => exact fun _ _ _ => rfl
  | cons p ps ih =>
    intro i s hq
    rw [List.map_cons, List.mem_cons, not_or] at hq
    rw [bindParams, ih (i + 1) hq.2]
    exact get_set_of_ne hq.1 _

/-! ## The registers that inline assembly writes -/

theorem isReachable_of_get_top {r : RegId} (h : s.get r = .top) : s.isReachable = true := by
  cases s with
  | unreachable => exact absurd h (by simp [IntervalState.get, Interval.top])
  | reachable m => rfl

theorem get_top_of_leq {t : IntervalState} {r : RegId} (h : s.leq t = true) (hs : s.get r = .top) :
    t.get r = .top := by
  have hle := get_leq h r
  rw [hs] at hle
  exact Interval.eq_top_of_leq hle

theorem transferEdge_get_top (hwf : f.WellFormed) (hssa : f.StrictSsa) {n m : Nat} {b tb : BasicBlock}
    (hb : f.blocks[n]? = some b) (htb : f.blocks[m]? = some tb) (hn : f.Live n) {q : RegId}
    (hq : ¬WrittenAbove f n q) (hparam : q ∉ tb.params.map (·.1)) (h : s.get q = .top) :
    (transferEdge f n m s).get q = .top := by
  have href : (refineEdge f b.term tb.id s).get q = .top :=
    (refineEdge_get hssa hb hn hq tb.id).trans h
  rw [transferEdge, if_pos (isReachable_of_get_top h), blockAt_eq hwf.ids hb, blockAt_eq hwf.ids htb]
  simp only
  split
  · exact href
  · rename_i hne
    obtain ⟨args, rest, hcons⟩ := List.exists_cons_of_ne_nil hne
    refine get_top_of_leq ((Engine.leq_foldl (f := fun args => bindParams args
      (refineEdge f b.term tb.id s) 0 tb.params (refineEdge f b.term tb.id s))
      (matchingArgs b.term tb.id) .unreachable).2 args ?_) ?_
    · rw [hcons]
      exact List.mem_cons_self
    · show (bindParams args _ 0 tb.params _).get q = .top
      rw [bindParams_get tb.params 0 hparam, href]

theorem writes_of_definedReg {i : Inst} {r : RegId} (h : i.definedReg = some r) : r ∈ i.writes := by
  cases i <;> simp_all [Inst.writes, Inst.definedReg]

theorem live_lt {n : Nat} {b : BasicBlock} (hb : f.blocks[n]? = some b) : n < f.cfg.nodeCount := by
  show n < f.succ.length
  rw [Func.succ, List.length_map]
  exact (List.getElem?_eq_some_iff.mp hb).1

theorem edge_block {n m : Nat} (h : f.Edge n m) :
    (∃ b, f.blocks[n]? = some b) ∧ ∃ tb, f.blocks[m]? = some tb := by
  have hmem : m ∈ f.succ.row n := h
  rw [Adj.row, List.getD_eq_getElem?_getD, Func.succ, List.getElem?_map] at hmem
  cases hb : f.blocks[n]? with
  | none =>
    rw [hb] at hmem
    exact absurd hmem List.not_mem_nil
  | some b =>
    rw [hb] at hmem
    obtain ⟨id, _, hid⟩ := List.mem_filterMap.mp hmem
    obtain ⟨tb, htb, _⟩ := Func.indexOf_spec hid
    exact ⟨⟨b, rfl⟩, ⟨tb, htb⟩⟩

variable {headers : List Nat} {sol : Engine.Solution IntervalState}

/-- On a way that has not been through the only block that writes a register, nothing is known of it. -/
theorem path_get_top (hwf : f.WellFormed) (hssa : f.StrictSsa)
    (hpost : Engine.PostFixpoint (problem f headers) sol) (hentry : 0 < f.cfg.nodeCount)
    {n₀ : Nat} {b₀ : BasicBlock} {k₀ : Nat} {q : RegId} (hb₀ : f.blocks[n₀]? = some b₀)
    (hk₀ : b₀.Writes q k₀)
    (honce : ∀ (m : Nat) c k, f.blocks[m]? = some c → c.Writes q k → m = n₀ ∧ k ≠ 0) {u : Nat}
    {l : List Nat} (hl : Path f.Edge f.cfg.entry u l) :
    ∀ t, l = u :: t → n₀ ∉ t → (sol.inStates u).get q = .top := by
  induction hl with
  | root => exact fun _ _ _ => get_top_of_leq (hpost.entry hentry) (IntervalState.get_top q)
  | @step p u l hp hpu ih =>
    intro t ht hnot
    obtain rfl := (List.cons.inj ht).2
    obtain ⟨t', rfl⟩ := hp.head
    have hin := ih t' rfl fun hm => hnot (List.mem_cons_of_mem _ hm)
    have hne : n₀ ≠ p := fun he => hnot (he ▸ List.mem_cons_self)
    obtain ⟨⟨b, hb⟩, tb, htb⟩ := edge_block hpu
    -- block `p` is not the one that writes the register
    have hout : (sol.outStates p).get q = .top := by
      rw [hpost.blocks p ⟨live_lt hb, hp.reach⟩]
      show (transferBlock f p (sol.inStates p)).get q = .top
      rw [transferBlock, if_pos (isReachable_of_get_top hin), blockAt_eq hwf.ids hb]
      simp only
      rw [foldl_applyInst_get fun i hi hdef => ?_, hin]
      obtain ⟨j, hj⟩ := List.mem_iff_getElem?.mp hi
      exact hne (honce p b (j + 1) hb (.inr ⟨j, i, rfl, hj, writes_of_definedReg hdef⟩)).1.symm
    refine get_top_of_leq (hpost.edges p u ⟨live_lt hb, hp.reach⟩ hpu) ?_
    refine transferEdge_get_top hwf hssa hb htb hp.reach (fun habove => ?_) (fun hparam => ?_) hout
    · have hdom := habove n₀ b₀ k₀ hb₀ hk₀
      exact hnot (hdom.2 _ hp)
    · exact absurd rfl (honce u tb 0 htb (.inl ⟨rfl, hparam⟩)).2

theorem entry_get_top (hwf : f.WellFormed) (hssa : f.StrictSsa)
    (hpost : Engine.PostFixpoint (problem f headers) sol) {n k : Nat} {b : BasicBlock} {q : RegId}
    (hb : f.blocks[n]? = some b) (hn : f.Live n) (hk : b.Writes q k)
    (honce : ∀ (m : Nat) c k, f.blocks[m]? = some c → c.Writes q k → m = n ∧ k ≠ 0) :
    (sol.inStates n).get q = .top := by
  obtain ⟨t, hpath, hnot⟩ := hn.first_visit
  have hentry : 0 < f.cfg.nodeCount := Nat.zero_lt_of_lt (live_lt hb)
  exact path_get_top hwf hssa hpost hentry hb hk honce hpath t rfl hnot

theorem asm_get_top (hwf : f.WellFormed) (hssa : f.StrictSsa)
    (hpost : Engine.PostFixpoint (problem f headers) sol) {n : Nat} {b : BasicBlock} {k : Nat}
    {defs : List RegId} (hb : f.blocks[n]? = some b) (hn : f.Live n)
    (hk : b.insts[k]? = some (.asm defs)) {q : RegId} (hq : q ∈ defs) :
    ((b.insts.take k).foldl applyInst (sol.inStates n)).get q = .top := by
  have honce := hssa.asm_once n b k defs hb hk q hq
  rw [foldl_applyInst_get fun i hi hdef => ?_]
  · refine entry_get_top hwf hssa hpost hb hn (.inr ⟨k, _, rfl, hk, hq⟩) fun m c k' hc hw => ?_
    obtain ⟨hm, hk'⟩ := honce m c k' hc hw
    exact ⟨hm, hk' ▸ Nat.succ_ne_zero k⟩
  · obtain ⟨j, hj⟩ := List.mem_iff_getElem?.mp hi
    have hlt : j < k := by
      have := (List.getElem?_eq_some_iff.mp hj).1
      rw [List.length_take] at this
      omega
    rw [List.getElem?_take_of_lt hlt] at hj
    have := (hssa.asm_once n b k defs hb hk q hq n b (j + 1) hb
      (.inr ⟨j, i, rfl, hj, writes_of_definedReg hdef⟩)).2
    omega

/-! ## Executions -/

/-- What the next step asks of a point: an instruction that reads and computes as integers do, or a
    jump whose guard and arguments are read so. -/
def PointOk (f : Func) (Γ : RegId → Nat) (p : Point) : Prop :=
  match p.rest with
  | i :: _ => InstOk Γ p.regs i
  | [] => TermOk f Γ p.blk.term ∧
    ∀ target args, p.blk.term.Goes p.regs target args → ∀ op ∈ args, Plain op

/-- The points reached by an execution all of whose steps so far were as `PointOk` asks. -/
inductive ReachesOk (f : Func) (Γ : RegId → Nat) (args : List Nat) : Point → Prop
  | start {p : Point} : f.Start args p → ReachesOk f Γ args p
  | step {p q : Point} : ReachesOk f Γ args p → PointOk f Γ p → f.Step Γ p q → ReachesOk f Γ args q

/-- The state of the analysis describes the registers. -/
def Tracked (f : Func) (Γ : RegId → Nat) (sol : Engine.Solution IntervalState) (p : Point) : Prop :=
  ∃ n k, f.Located p n k ∧ f.Equations Γ n k p.regs ∧
    Described Γ ((p.blk.insts.take k).foldl applyInst (sol.inStates n)) p.regs

theorem Tracked.start (hwf : f.WellFormed) (hpost : Engine.PostFixpoint (problem f headers) sol)
    {args : List Nat} {p : Point} (h : f.Start args p) : Tracked f Γ sol p := by
  have hloc := Func.start_located hwf h
  refine ⟨f.cfg.entry, 0, hloc, .start f Γ p.regs, ?_⟩
  exact Described.top.mono (hpost.entry (Nat.zero_lt_of_lt (live_lt hloc.blk)))

theorem Tracked.step (hwf : f.WellFormed) (hssa : f.StrictSsa) (hty : f.WellTyped Γ)
    (hpost : Engine.PostFixpoint (problem f headers) sol) {p q : Point} (h : Tracked f Γ sol p)
    (hok : PointOk f Γ p) (hs : f.Step Γ p q) : Tracked f Γ sol q := by
  obtain ⟨n, k, hloc, heq, hdesc⟩ := h
  rcases hloc.step hwf hs with ⟨i, hi, hex, hblk, hloc'⟩ |
    ⟨m, target, args, xs, hk, hgoes, htb, hargs, hlen, hregs, hm, hedge, hloc'⟩
  · refine ⟨n, k + 1, hloc', heq.inst hssa hloc.blk hi hex, ?_⟩
    have hinst : InstOk Γ p.regs i := by
      have hrest : p.rest = i :: p.blk.insts.drop (k + 1) := by
        rw [hloc.rest]
        obtain ⟨hlt, hget⟩ := List.getElem?_eq_some_iff.mp hi
        rw [List.drop_eq_getElem_cons hlt, hget]
      rw [PointOk, hrest] at hok
      exact hok
    rw [hblk, List.take_add_one, hi, Option.toList_some, List.foldl_append, List.foldl_cons,
      List.foldl_nil]
    refine applyInst_described hdesc (fun dst ty value he => ?_) (fun defs he r hr => ?_) hinst hex
    · exact hty.assign p.blk (List.mem_of_getElem? hloc.blk) dst ty value
        (he ▸ List.mem_of_getElem? hi)
    · exact asm_get_top hwf hssa hpost hloc.blk hloc.live (he ▸ hi) hr
  · have hrest : p.rest = [] := by rw [hloc.rest, List.drop_eq_nil_of_le hk]
    rw [PointOk, hrest] at hok
    obtain ⟨hterm, hplain⟩ := hok
    obtain ⟨_, hid⟩ := Func.block_spec htb
    rw [List.take_of_length_le hk] at hdesc
    -- the exit state of the block is the state the loop over its instructions ends in
    have hout : sol.outStates n = p.blk.insts.foldl applyInst (sol.inStates n) := by
      rw [hpost.blocks n ⟨live_lt hloc.blk, hloc.live⟩]
      show transferBlock f n (sol.inStates n) = _
      have hreach := hdesc.reachable
      rw [isReachable_foldl] at hreach
      rw [transferBlock, if_pos hreach, blockAt_eq hwf.ids hloc.blk]
    have hend : AtEnd f Γ n p.regs := by
      refine ⟨hssa, hty, fun m' c j dst ty value hc hj hdom x hx => ?_⟩
      refine heq m' c j dst ty value hc hj hdom (fun he => ?_) x hx
      subst he
      obtain rfl : p.blk = c := Option.some.inj (hloc.blk.symm.trans hc)
      exact lt_of_lt_of_le (List.getElem?_eq_some_iff.mp hj).1 hk
    refine ⟨m, 0, hloc', ?_, ?_⟩
    · rw [hregs]
      exact heq.jump hssa hloc.blk hloc.live hk hloc'.blk hedge
    · have hedge_desc : Described Γ (transferEdge f n m (sol.outStates n)) q.regs := by
        rw [hregs, hout]
        exact transferEdge_described hwf hend hloc.blk hloc'.blk hloc.live hdesc hterm
          (hid ▸ hgoes) (hid ▸ htb) (hplain target args hgoes) hargs hlen
      exact hedge_desc.mono (hpost.edges n m ⟨live_lt hloc.blk, hloc.live⟩ hedge)

theorem ReachesOk.tracked (hwf : f.WellFormed) (hssa : f.StrictSsa) (hty : f.WellTyped Γ)
    (hpost : Engine.PostFixpoint (problem f headers) sol) {args : List Nat} {p : Point}
    (h : ReachesOk f Γ args p) : Tracked f Γ sol p := by
  induction h with
  | start hs => exact Tracked.start hwf hpost hs
  | step _ hok hs ih => exact ih.step hwf hssa hty hpost hok hs

theorem analyzeIntervals_postFixpoint {fuel : Nat} (h : analyzeIntervals f headers fuel = some sol) :
    Engine.PostFixpoint (problem f headers) sol :=
  (Engine.solve_covers h).2 fun _ _ => .inl rfl

/-! ## Conditions -/

/-- What a comparison asks of the values of its operands. -/
structure ComparisonOk (Γ : RegId → Nat) (ν : Operand → Nat) (op : CmpOp) (lhs rhs : Operand) :
    Prop where
  plain : Plain lhs ∧ Plain rhs
  width : lhs.width Γ = rhs.width Γ
  exact : CmpOk op (lhs.width Γ) (ν lhs) (ν rhs)

/-- The operands of a comparison have these values. -/
def Valued (regs : Regs) (ν : Operand → Nat) (lhs rhs : Operand) : Prop :=
  lhs.Evals regs (ν lhs) ∧ rhs.Evals regs (ν rhs)

variable {ν : Operand → Nat}

theorem cmp_sound (h : Described Γ s regs) {op : CmpOp} {lhs rhs : Operand} (hval : Valued regs ν lhs rhs)
    (hok : ComparisonOk Γ ν op lhs rhs) :
    (evalConditionIn s (.cmp op lhs rhs) = .true → op.eval (lhs.width Γ) (ν lhs) (ν rhs) = true) ∧
      (evalConditionIn s (.cmp op lhs rhs) = .false →
        op.eval (lhs.width Γ) (ν lhs) (ν rhs) = false) := by
  have hl := evalOperand_mem h hok.plain.1 hval.1
  have hr := evalOperand_mem h hok.plain.2 hval.2
  rw [← hok.width] at hr
  rw [eval_eq_cmpInt hok.exact]
  exact compareIntervals_sound hl hr

mutual

theorem evalConditionIn_sound (h : Described Γ s regs) (c : Condition)
    (hc : ∀ p ∈ c.comparisons, Valued regs ν p.2.1 p.2.2 ∧ ComparisonOk Γ ν p.1 p.2.1 p.2.2) :
    (evalConditionIn s c = .true → c.holds Γ ν = true) ∧
      (evalConditionIn s c = .false → c.holds Γ ν = false) := by
  cases c with
  | tt => exact ⟨fun _ => rfl, fun hf => absurd hf (by simp [evalConditionIn])⟩
  | cmp op lhs rhs =>
    obtain ⟨hval, hok⟩ := hc (op, lhs, rhs) (List.mem_singleton.mpr rfl)
    exact cmp_sound h hval hok
  | and cs =>
    have hall := evalAll_sound h cs true hc
    exact ⟨fun ht => (hall.1 ht).2, hall.2⟩
  | or cs =>
    have hany := evalAny_sound h cs true hc
    exact ⟨hany.1, fun hf => (hany.2 hf).2⟩
  | not c =>
    obtain ⟨htrue, hfalse⟩ := evalConditionIn_sound h c hc
    simp only [evalConditionIn, Condition.holds]
    cases hv : evalConditionIn s c with
    | true => simp [Trivalent.negate, htrue hv]
    | false => simp [Trivalent.negate, hfalse hv]
    | unknown => simp [Trivalent.negate]

theorem evalAll_sound (h : Described Γ s regs) (cs : List Condition) (allTrue : Bool)
    (hc : ∀ p ∈ Condition.allComparisons cs,
      Valued regs ν p.2.1 p.2.2 ∧ ComparisonOk Γ ν p.1 p.2.1 p.2.2) :
    (evalAll s allTrue cs = .true → allTrue = true ∧ Condition.allHold Γ ν cs = true) ∧
      (evalAll s allTrue cs = .false → Condition.allHold Γ ν cs = false) := by
  cases cs with
  | nil => cases allTrue <;> simp [evalAll, Condition.allHold]
  | cons c cs =>
    obtain ⟨htrue, hfalse⟩ := evalConditionIn_sound h c fun p hp => hc p (List.mem_append_left _ hp)
    have hrest := fun a => evalAll_sound h cs a fun p hp => hc p (List.mem_append_right _ hp)
    simp only [evalAll, Condition.allHold]
    cases hv : evalConditionIn s c with
    | true => simpa [htrue hv] using hrest allTrue
    | false => simp [hfalse hv]
    | unknown =>
      refine ⟨fun ht => absurd ((hrest false).1 ht).1 (by decide), fun hf => ?_⟩
      rw [(hrest false).2 hf, Bool.and_false]

theorem evalAny_sound (h : Described Γ s regs) (cs : List Condition) (allFalse : Bool)
    (hc : ∀ p ∈ Condition.allComparisons cs,
      Valued regs ν p.2.1 p.2.2 ∧ ComparisonOk Γ ν p.1 p.2.1 p.2.2) :
    (evalAny s allFalse cs = .true → Condition.anyHolds Γ ν cs = true) ∧
      (evalAny s allFalse cs = .false →
        allFalse = true ∧ Condition.anyHolds Γ ν cs = false) := by
  cases cs with
  | nil => cases allFalse <;> simp [evalAny, Condition.anyHolds]
  | cons c cs =>
    obtain ⟨htrue, hfalse⟩ := evalConditionIn_sound h c fun p hp => hc p (List.mem_append_left _ hp)
    have hrest := fun a => evalAny_sound h cs a fun p hp => hc p (List.mem_append_right _ hp)
    simp only [evalAny, Condition.anyHolds]
    cases hv : evalConditionIn s c with
    | true => simp [htrue hv]
    | false => simpa [hfalse hv] using hrest allFalse
    | unknown =>
      refine ⟨fun ht => ?_, fun hf => absurd ((hrest false).2 hf).1 (by decide)⟩
      rw [(hrest false).1 ht, Bool.or_true]

end

theorem stateAt_eq (hwf : f.WellFormed) {p : Point} {n k : Nat} (hloc : f.Located p n k)
    {index : Nat} (hindex : p.rest = p.blk.insts.drop index) :
    f.indexOf p.blk.id = some n ∧
      stateAt f sol p.blk.id n index = (p.blk.insts.take k).foldl applyInst (sol.inStates n) := by
  have hblock : f.block p.blk.id = some p.blk := by
    have := blockAt_eq hwf.ids hloc.blk
    rw [blockAt, hloc.blk] at this
    exact this
  have htake : p.blk.insts.take index = p.blk.insts.take k := by
    have happ : p.blk.insts.take index ++ p.rest = p.blk.insts.take k ++ p.rest := by
      rw [hindex, List.take_append_drop, ← hindex, hloc.rest, List.take_append_drop]
    exact List.append_cancel_right happ
  obtain ⟨m, hm, hbm⟩ := Func.indexOf_block hwf hblock
  have hnm : m = n := by
    have hlt := (List.getElem?_eq_some_iff.mp hbm).1
    have hid : (f.blocks.map (·.id))[m]? = (f.blocks.map (·.id))[n]? := by
      rw [List.getElem?_map, List.getElem?_map, hbm, hloc.blk]
    exact (List.getElem?_inj (by simpa using hlt) hwf.ids).mp hid
  refine ⟨hnm ▸ hm, ?_⟩
  simp only [stateAt, hblock, htake]

def oneI8 : BitVector := ⟨8, 1, BitVector.pos8, BitVector.le8, BitVector.one_lt8⟩

def maxI8 : BitVector := ⟨8, 127, BitVector.pos8, BitVector.le8, BitVector.maxI8_lt8⟩

/-- `fn() { x = a + 1; return }` in 8 bits. -/
def succFn (a : BitVector) : Func where
  name := "succ"
  params := []
  retTy := .unit
  blocks := [⟨0, [], [.assign 1 (.int 8) (.bin .add (.const (.int a)) (.const (.int oneI8)))], .ret none⟩]
  entry := 0

/-- `x > 0`, signed. -/
def positive : Condition :=
  .cmp .sgt (.reg 1) (.const (.int ⟨8, 0, BitVector.pos8, BitVector.le8, BitVector.zero_lt8⟩))

theorem succFn_wellFormed (a : BitVector) : (succFn a).WellFormed where
  ids := by simp [succFn]
  params := by simp [succFn]
  param_def := by simp [succFn]
  asm_param := by simp [succFn]
  asm_def := by simp [succFn]

theorem succFn_site {a : BitVector} {n : Nat} {b : BasicBlock} (hb : (succFn a).blocks[n]? = some b)
    {j : Nat} {i : Inst} (hj : b.insts[j]? = some i) :
    n = 0 ∧ j = 0 ∧ i = .assign 1 (.int 8) (.bin .add (.const (.int a)) (.const (.int oneI8))) := by
  obtain ⟨rfl, rfl⟩ : n = 0 ∧ _ = b := by simpa [succFn, List.getElem?_singleton] using hb
  obtain ⟨rfl, rfl⟩ : j = 0 ∧ _ = i := by simpa [List.getElem?_singleton] using hj
  exact ⟨rfl, rfl, rfl⟩

theorem succFn_strictSsa (a : BitVector) : (succFn a).StrictSsa where
  use := by
    intro n b hb _ j dst ty value hj r hr
    obtain ⟨_, _, hi⟩ := succFn_site hb hj
    obtain ⟨_, _, rfl⟩ := Inst.assign.inj hi
    simp [RValue.operands] at hr
  branch := by
    intro n b hb _ r t targs e eargs hterm
    obtain ⟨_, rfl⟩ : n = 0 ∧ _ = b := by simpa [succFn, List.getElem?_singleton] using hb
    simp at hterm
  assign_once := by
    intro n b j dst ty value hb hj m c k hc hw
    obtain ⟨rfl, rfl, _⟩ := succFn_site hb hj
    rcases hw with ⟨_, hp⟩ | ⟨j', i, rfl, hj', _⟩
    · obtain ⟨_, rfl⟩ : m = 0 ∧ _ = c := by simpa [succFn, List.getElem?_singleton] using hc
      simp at hp
    · obtain ⟨rfl, rfl, _⟩ := succFn_site hc hj'
      exact ⟨rfl, rfl⟩
  asm_once := by
    intro n b j defs hb hj
    obtain ⟨_, _, hi⟩ := succFn_site hb hj
    exact Inst.noConfusion hi

theorem succFn_wellTyped {a : BitVector} (ha : a.width = 8) : (succFn a).WellTyped fun _ => 8 where
  param := by simp [succFn]
  assign := by
    intro b hb dst ty value hi
    obtain ⟨n, hn⟩ := List.mem_iff_getElem?.mp hb
    obtain ⟨j, hj⟩ := List.mem_iff_getElem?.mp hi
    obtain ⟨_, _, he⟩ := succFn_site hn hj
    obtain ⟨_, rfl, rfl⟩ := Inst.assign.inj he
    exact ⟨rfl, ha, rfl⟩
  ptrOffset := by simp [succFn]
  edge := by simp [succFn, Terminator.edges]
  ret := by simp [succFn]

/-- The end of `succFn`. -/
def succEnd (a : BitVector) (x : Nat) : Point where
  blk := ⟨0, [], [.assign 1 (.int 8) (.bin .add (.const (.int a)) (.const (.int oneI8)))], .ret none⟩
  rest := []
  regs := Regs.set (fun _ => none) 1 x

theorem succFn_step (a : BitVector) (ha : a.width = 8) :
    (succFn a).Step (fun _ => 8) ⟨(succEnd a 0).blk, (succEnd a 0).blk.insts, fun _ => none⟩
      (succEnd a ((a.value + 1) % 2 ^ 8)) := by
  refine .inst (.assign ⟨[a.value, 1], .cons rfl (.cons rfl .nil), ?_⟩)
  show _ = BvOp.eval .add 8 (a.value % 2 ^ a.width) (1 % 2 ^ 8)
  rw [ha, BvOp.eval_mod]
  simp [BvOp.eval, BvOp.evalBv, Nat.add_mod]

/-- What the analysis says of `x > 0` at the end. -/
def succVerdict (a : BitVector) : Option Trivalent :=
  (analyzeIntervals (succFn a) [] 2).map fun sol => evalCondition (succFn a) sol 0 1 positive

/-- The register holds `x`. -/
def succValue (x : Nat) : Operand → Nat
  | .reg _ => x
  | .const _ => 0

end Intervals

end Csolver
