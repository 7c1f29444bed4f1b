import Csolver.Llvm.Blocks

/-!
# Labels as LLVM numbers them

LLVM numbers, in the order of the text, the parameters, the blocks and the results that have no name. The guess
of the parser is right for an entry that has a label, or whose parameters are all numbered.
-/

namespace Csolver

namespace Llvm

/-- A name that LLVM gives by counting. -/
def isNumber (name : String) : Bool := name.toList.all Char.isDigit

section

variable {V W : Type}

/-- The labels of the blocks, from the number that is next. -/
def labelsFrom : Nat → List (RawBlock V W) → List String
  | _, [] => []
  | n, b :: bs =>
    match b.label with
    | some l => l :: labelsFrom (n + (if isNumber l then 1 else 0) + b.numbered) bs
    | none => toString n :: labelsFrom (n + 1 + b.numbered) bs

/-- The labels that LLVM gives to the blocks of a function. -/
def RawFunc.llvmLabels (f : RawFunc V W) : List String := labelsFrom (f.params.countP isNumber) f.blocks

/-- The labels that the text spells out. -/
def RawFunc.spelled (f : RawFunc V W) : List String :=
  f.blocks.filterMap (·.label) ++ f.blocks.flatMap (·.term.targets) ++
    f.blocks.flatMap fun b => b.phis.flatMap fun phi => phi.incomings.map (·.2)

/-- The guess of the parser is right, and the text does not use a label that the parser makes up. -/
structure RawFunc.Guessed (f : RawFunc V W) : Prop where
  entry : ∀ b, f.blocks.head? = some b → b.label = none → ∀ p ∈ f.params, isNumber p = true
  auto : ∀ n, autoLabel n ∉ f.spelled

/-! ## Labels that are made up -/

theorem toList_autoLabel (n : Nat) : (autoLabel n).toList = '_' :: '_' :: 'b' :: 'b' :: Nat.toDigits 10 n := by
  simp [autoLabel, Nat.toString_eq_repr, Nat.repr_eq_ofList_toDigits]

theorem autoLabel_inj {j k : Nat} (h : autoLabel j = autoLabel k) : j = k := by
  have hl := congrArg String.toList h
  rw [toList_autoLabel, toList_autoLabel] at hl
  simp only [List.cons.injEq, true_and] at hl
  have hd := congrArg (fun ds => Nat.ofDigitChars 10 ds 0) hl
  simpa only [Nat.ofDigitChars_toDigits (by decide : 1 < 10) (by decide : 10 ≤ 10)] using hd

theorem autoLabel_ne_toString (j k : Nat) : autoLabel j ≠ toString k := by
  intro h
  have hl := congrArg String.toList h
  have hk : (toString k).toList = Nat.toDigits 10 k := by
    simp [Nat.toString_eq_repr, Nat.repr_eq_ofList_toDigits]
  rw [toList_autoLabel, hk] at hl
  have hmem : '_' ∈ Nat.toDigits 10 k := hl ▸ List.mem_cons_self ..
  have hdigit := Nat.isDigit_of_mem_toDigits (by decide) (by decide) hmem
  exact absurd hdigit (by decide)

/-! ## The guess -/

variable {f : RawFunc V W} {b : RawBlock V W} {lb : LBlock V W} {bs : List (RawBlock V W)} {i auto n : Nat} {l : String}

theorem labelRest_length (auto : Nat) (bs : List (RawBlock V W)) : (labelRest auto bs).length = bs.length := by
  induction bs generalizing auto with
  | nil => rfl
  | cons b bs ih =>
    rw [labelRest]
    split <;> simp [ih]

theorem labelsFrom_length (n : Nat) (bs : List (RawBlock V W)) : (labelsFrom n bs).length = bs.length := by
  induction bs generalizing n with
  | nil => rfl
  | cons b bs ih =>
    rw [labelsFrom]
    split <;> simp [ih]

/-- A block after the entry has the label of the text, which is that of LLVM, or one that is made up. -/
theorem labelRest_cases (h : (labelRest auto bs)[i]? = some lb) :
    ∃ b, bs[i]? = some b ∧ lb = b.toLBlock lb.label ∧
      (b.label = some lb.label ∧ (labelsFrom n bs)[i]? = some lb.label ∨
        b.label = none ∧ ∃ k, auto ≤ k ∧ lb.label = autoLabel k) := by
  induction bs generalizing auto n i with
  | nil => exact absurd h (by simp [labelRest])
  | cons b bs ih =>
    cases hb : b.label with
    | some l =>
      simp only [labelRest, hb] at h
      cases i with
      | zero =>
        obtain rfl := Option.some.inj h
        exact ⟨b, rfl, rfl, .inl ⟨hb, by simp [labelsFrom, hb, RawBlock.toLBlock]⟩⟩
      | succ i =>
        obtain ⟨b', hb', heq, hcase⟩ := ih (n := n + (if isNumber l then 1 else 0) + b.numbered) h
        refine ⟨b', hb', heq, ?_⟩
        simpa [labelsFrom, hb] using hcase
    | none =>
      simp only [labelRest, hb] at h
      cases i with
      | zero =>
        obtain rfl := Option.some.inj h
        exact ⟨b, rfl, rfl, .inr ⟨hb, auto, Nat.le_refl _, rfl⟩⟩
      | succ i =>
        obtain ⟨b', hb', heq, hcase⟩ := ih (n := n + 1 + b.numbered) h
        refine ⟨b', hb', heq, ?_⟩
        rcases hcase with hcase | ⟨hnone, k, hk, hl⟩
        · exact .inl (by simpa [labelsFrom, hb] using hcase)
        · exact .inr ⟨hnone, k, Nat.le_of_succ_le hk, hl⟩

theorem mem_labelRest (hlb : lb ∈ labelRest auto bs) (n : Nat) :
    lb.label ∈ bs.filterMap (·.label) ∧ lb.label ∈ labelsFrom n bs ∨ ∃ k, auto ≤ k ∧ lb.label = autoLabel k := by
  obtain ⟨i, hi⟩ := List.mem_iff_getElem?.mp hlb
  obtain ⟨b, hb, -, hcase⟩ := labelRest_cases (n := n) hi
  rcases hcase with ⟨hl, hn⟩ | ⟨-, k, hk, hl⟩
  · exact .inl ⟨List.mem_filterMap.mpr ⟨b, List.mem_of_getElem? hb, hl⟩, List.mem_of_getElem? hn⟩
  · exact .inr ⟨k, hk, hl⟩

theorem labelRest_nodup (hn : (labelsFrom n bs).Nodup) (hauto : ∀ k, autoLabel k ∉ bs.filterMap (·.label)) :
    ((labelRest auto bs).map (·.label)).Nodup := by
  induction bs generalizing auto n with
  | nil => simp [labelRest]
  | cons b bs ih =>
    have hauto' : ∀ k, autoLabel k ∉ bs.filterMap (·.label) := by
      intro k hk
      apply hauto k
      obtain ⟨c, hc, hl⟩ := List.mem_filterMap.mp hk
      exact List.mem_filterMap.mpr ⟨c, List.mem_cons_of_mem _ hc, hl⟩
    cases hb : b.label with
    | some l =>
      simp only [labelsFrom, hb, List.nodup_cons] at hn
      simp only [labelRest, hb, List.map_cons, List.nodup_cons]
      refine ⟨fun hmem => ?_, ih hn.2 hauto'⟩
      obtain ⟨lb, hlb, heq⟩ := List.mem_map.mp hmem
      change lb.label = l at heq
      rcases mem_labelRest hlb (n + (if isNumber l then 1 else 0) + b.numbered) with ⟨-, hl⟩ | ⟨k, -, hl⟩
      · exact hn.1 (heq ▸ hl)
      · apply hauto k
        rw [← hl, heq]
        exact List.mem_filterMap.mpr ⟨b, List.mem_cons_self .., hb⟩
    | none =>
      simp only [labelsFrom, hb, List.nodup_cons] at hn
      simp only [labelRest, hb, List.map_cons, List.nodup_cons]
      refine ⟨fun hmem => ?_, ih hn.2 hauto'⟩
      obtain ⟨lb, hlb, heq⟩ := List.mem_map.mp hmem
      change lb.label = autoLabel auto at heq
      rcases mem_labelRest hlb (n + 1 + b.numbered) with ⟨hl, -⟩ | ⟨k, hk, hl⟩
      · exact hauto' auto (heq ▸ hl)
      · -- the labels are counted on
        have hne := autoLabel_inj (hl.symm.trans heq)
        omega

theorem RawFunc.Guessed.parsed_cases (hg : f.Guessed) (h : f.parsed[i]? = some lb) :
    ∃ b, f.blocks[i]? = some b ∧ lb = b.toLBlock lb.label ∧
      (f.llvmLabels[i]? = some lb.label ∨ ∃ k, lb.label = autoLabel k) := by
  have hentry := hg.entry
  rw [RawFunc.parsed] at h
  rw [RawFunc.llvmLabels]
  cases hbs : f.blocks with
  | nil =>
    rw [hbs] at h
    exact absurd h (by simp [labelBlocks])
  | cons b bs =>
    rw [hbs] at h hentry
    rw [labelBlocks] at h
    cases i with
    | zero =>
      obtain rfl := Option.some.inj h
      refine ⟨b, rfl, rfl, .inl ?_⟩
      cases hb : b.label with
      | some l => simp [labelsFrom, hb, RawBlock.toLBlock]
      | none =>
        have hcount := List.countP_eq_length.mpr (hentry b rfl hb)
        simp [labelsFrom, hb, RawBlock.toLBlock, hcount]
    | succ i =>
      rw [List.getElem?_cons_succ] at h
      rw [labelsFrom]
      cases hb : b.label with
      | some l =>
        obtain ⟨b', hb', heq, hcase⟩ := labelRest_cases
          (n := f.params.countP isNumber + (if isNumber l then 1 else 0) + b.numbered) h
        refine ⟨b', hb', heq, ?_⟩
        rcases hcase with ⟨-, hl⟩ | ⟨-, k, -, hl⟩
        · exact .inl hl
        · exact .inr ⟨k, hl⟩
      | none =>
        obtain ⟨b', hb', heq, hcase⟩ := labelRest_cases (n := f.params.countP isNumber + 1 + b.numbered) h
        refine ⟨b', hb', heq, ?_⟩
        rcases hcase with ⟨-, hl⟩ | ⟨-, k, -, hl⟩
        · exact .inl hl
        · exact .inr ⟨k, hl⟩

theorem mem_spelled_label {l : String} (h : l ∈ f.blocks.filterMap (·.label)) : l ∈ f.spelled :=
  List.mem_append_left _ (List.mem_append_left _ h)

theorem RawFunc.Guessed.nodup (hg : f.Guessed) (hn : f.llvmLabels.Nodup) : (f.parsed.map (·.label)).Nodup := by
  have hauto : ∀ k, autoLabel k ∉ f.blocks.filterMap (·.label) := fun k hk => hg.auto k (mem_spelled_label hk)
  have hentry : ∀ lb, f.parsed.head? = some lb → f.llvmLabels[0]? = some lb.label ∧ ∀ k, lb.label ≠ autoLabel k := by
    intro lb hlb
    rw [List.head?_eq_getElem?] at hlb
    obtain ⟨b, hb, heq, hcase⟩ := hg.parsed_cases hlb
    rw [RawFunc.parsed] at hlb
    rw [← List.head?_eq_getElem?] at hb
    obtain ⟨bs, hbs⟩ : ∃ bs, f.blocks = b :: bs := List.head?_eq_some_iff.mp hb
    rw [hbs, labelBlocks] at hlb
    obtain rfl := Option.some.inj hlb
    have hne : ∀ k, (b.label.getD (toString f.params.length)) ≠ autoLabel k := by
      intro k hk
      cases hl : b.label with
      | some l =>
        rw [hl, Option.getD_some] at hk
        exact hauto k (List.mem_filterMap.mpr ⟨b, hbs ▸ List.mem_cons_self .., by rw [hl, hk]⟩)
      | none =>
        rw [hl, Option.getD_none] at hk
        exact autoLabel_ne_toString _ _ hk.symm
    rcases hcase with h | ⟨k, h⟩
    · exact ⟨h, hne⟩
    · exact absurd h (hne k)
  rw [RawFunc.parsed] at hentry ⊢
  rw [RawFunc.llvmLabels] at hentry hn
  cases hbs : f.blocks with
  | nil => simp [labelBlocks]
  | cons b bs =>
    rw [hbs] at hentry hauto hn
    rw [labelBlocks] at hentry ⊢
    obtain ⟨hfirst, hne⟩ := hentry _ rfl
    have hauto' : ∀ k, autoLabel k ∉ bs.filterMap (·.label) := by
      intro k hk
      obtain ⟨c, hc, hl⟩ := List.mem_filterMap.mp hk
      exact hauto k (List.mem_filterMap.mpr ⟨c, List.mem_cons_of_mem _ hc, hl⟩)
    -- LLVM's labels of the other blocks start from some number
    obtain ⟨m, x, hm⟩ : ∃ m x, labelsFrom (f.params.countP isNumber) (b :: bs) = x :: labelsFrom m bs := by
      rw [labelsFrom]
      split
      · exact ⟨_, _, rfl⟩
      · exact ⟨_, _, rfl⟩
    rw [hm] at hfirst hn
    obtain rfl := Option.some.inj hfirst
    rw [List.nodup_cons] at hn
    rw [List.map_cons, List.nodup_cons]
    refine ⟨fun hmem => ?_, labelRest_nodup hn.2 hauto'⟩
    obtain ⟨lb, hlb, heq⟩ := List.mem_map.mp hmem
    rcases mem_labelRest hlb m with ⟨-, hl⟩ | ⟨k, -, hl⟩
    · exact hn.1 (heq ▸ hl)
    · exact hne k (heq.symm.trans hl)

/-! ## Targets -/

theorem blockIds_sound {blocks : List (LBlock V W)} {j : BlockId} (h : blockIds blocks l = some j) :
    ∃ b, blocks[j]? = some b ∧ b.label = l := by
  have hfold : ∀ (ps : List (LBlock V W × Nat)) (ids : String → Option BlockId),
      (∀ p ∈ ps, blocks[p.2]? = some p.1) → (∀ x j, ids x = some j → ∃ b, blocks[j]? = some b ∧ b.label = x) →
      ∀ x j, ps.foldl (fun ids b l => if l = b.1.label then some b.2 else ids l) ids x = some j →
        ∃ b, blocks[j]? = some b ∧ b.label = x := by
    intro ps
    induction ps with
    | nil => exact fun ids _ hids x j h => hids x j h
    | cons p ps ih =>
      intro ids hps hids
      apply ih _ (fun q hq => hps q (List.mem_cons_of_mem _ hq))
      intro x j hx
      dsimp only at hx
      split at hx
      · next heq =>
        obtain rfl := Option.some.inj hx
        exact ⟨p.1, hps p (List.mem_cons_self ..), heq.symm⟩
      · exact hids x j hx
  refine hfold _ _ (fun p hp => List.mem_zipIdx_iff_getElem?.mp hp) (fun x j hx => ?_) l j h
  exact absurd hx (by simp)

theorem RawFunc.Guessed.resolves (hg : f.Guessed) (hl : l ∈ f.spelled) {j : BlockId}
    (h : blockIds f.parsed l = some j) :
    f.llvmLabels[j]? = some l ∧ ∃ b, f.parsed[j]? = some b ∧ b.label = l := by
  obtain ⟨b, hb, rfl⟩ := blockIds_sound h
  obtain ⟨-, -, -, hcase⟩ := hg.parsed_cases hb
  rcases hcase with hcase | ⟨k, hk⟩
  · exact ⟨hcase, b, hb, rfl⟩
  · exact absurd (hk ▸ hl) (hg.auto k)

theorem find?_label {blocks : List (LBlock V W)} {j : BlockId} {b c : LBlock V W} (hn : (blocks.map (·.label)).Nodup)
    (hb : blocks[j]? = some b) (hc : blocks.find? (·.label = b.label) = some c) : c = b := by
  have hcl : c.label = b.label := by simpa using List.find?_some hc
  exact List.inj_on_of_nodup_map hn (List.mem_of_find?_eq_some hc) (List.mem_of_getElem? hb) hcl

end

end Llvm

/-! ## Running phis and running block parameters

In the form of LLVM a block assigns its phis, all at once, the values that they list for the predecessor. In the
lowered form a branch binds the parameters of its target to the arguments, and a parameter that is passed nothing
is unknown. The lowered form runs on registers, in which the values of the names are found.
-/

namespace Llvm

/-- What constants, conditions and case constants mean. -/
structure Sem (V : Type) where
  const : Const → V
  truth : V → Bool
  isCase : V → BitVector → Bool

section

variable {V W : Type} [Inhabited V]

/-! ## The form of LLVM -/

/-- The value of an operand; a constant does not depend on the names. -/
def Sem.value (S : Sem V) (σ : String → V) (width : Nat) (v : LValue) : V :=
  match v with
  | .local name => σ name
  | v =>
    match Ctx.operand ⟨fun _ => none, 0⟩ v width with
    | .ok (.const c) => S.const c
    | _ => default

def Sem.pickCase (S : Sem V) (x : V) (width : Nat) (default : String) : List (Int × String) → String
  | [] => default
  | (n, dest) :: cases =>
    match caseConst width n with
    | .ok bv => if S.isCase x bv then dest else S.pickCase x width default cases
    | .error _ => S.pickCase x width default cases

/-- The label to which a terminator goes. -/
def LTerm.Takes (S : Sem V) (σ : String → V) : LTerm → String → Prop
  | .br target, l => l = target
  | .condBr cond t f, l => l = if S.truth (S.value σ 1 cond) then t else f
  | .switch value width default cases, l =>
    l = S.pickCase (S.value σ (min (max width 1) 128) value) (min (max width 1) 128) default cases
  | .invoke ok cleanup, l => l = ok ∨ l = cleanup
  | .callBr target others, l => l ∈ target :: others
  | .ret _, _ | .unreachable, _ => False

def runInsts : List (LInst V W) → (String → V) → W → (String → V) × W
  | [], σ, w => (σ, w)
  | i :: is, σ, w =>
    let (v, w) := i.effect σ w
    match i.dst with
    | some name => runInsts is (fun x => if x = name then v else σ x) w
    | none => runInsts is σ w

/-- The values that the phis list for a predecessor. -/
def Sem.phiValues (S : Sem V) (σ : String → V) (pred : String) : List LPhi → Option (List V)
  | [] => some []
  | phi :: phis => do
    let v ← phi.incoming pred
    let vs ← S.phiValues σ pred phis
    return S.value σ (typeWidth phi.ty) v :: vs

/-- The phis take the values at once. -/
def assignPhis (σ : String → V) : List LPhi → List V → String → V
  | phi :: phis, v :: vs => fun x => if x = phi.dst then v else assignPhis σ phis vs x
  | _, _ => σ

/-- A block is run, and control goes on to the block that has the label. -/
inductive RawFunc.Step (S : Sem V) (f : RawFunc V W) : Nat × (String → V) × W → Nat × (String → V) × W → Prop
  | step {i j b t pred l σ w vs} : f.blocks[i]? = some b → f.llvmLabels[i]? = some pred →
    b.term.Takes S (runInsts b.insts σ w).1 l → f.llvmLabels[j]? = some l → f.blocks[j]? = some t →
    S.phiValues (runInsts b.insts σ w).1 pred t.phis = some vs →
    Step S f (i, σ, w) (j, assignPhis (runInsts b.insts σ w).1 t.phis vs, (runInsts b.insts σ w).2)

/-! ## The lowered form -/

def Sem.operand (S : Sem V) (regs : RegId → V) : Operand → V
  | .reg r => regs r
  | .const c => S.const c

def Sem.pickBlock (S : Sem V) (x : V) (default : BlockId) : List (BitVector × BlockId) → BlockId
  | [] => default
  | (bv, id) :: cases => if S.isCase x bv then id else S.pickBlock x default cases

/-- The edge that a terminator takes; a register that nothing defines has no certain value. -/
def MTakes (S : Sem V) (free : RegId → Prop) (regs : RegId → V) : Terminator → BlockId × List Operand → Prop
  | .br target args, e => e = (target, args)
  | .condBr cond t targs f fargs, e =>
    e = (if S.truth (S.operand regs cond) then (t, targs) else (f, fargs)) ∨
      (∃ r, cond = .reg r ∧ free r) ∧ (e = (t, targs) ∨ e = (f, fargs))
  | .switch value cases default, e =>
    e = (S.pickBlock (S.operand regs value) default cases, []) ∨
      (∃ r, value = .reg r ∧ free r) ∧ e ∈ (Terminator.switch value cases default).edges
  | .ret _, _ | .unreachable, _ => False

def runMInsts : List (MInst V W) → (RegId → V) → W → (RegId → V) × W
  | [], regs, w => (regs, w)
  | i :: is, regs, w =>
    let (v, w) := i.effect regs w
    match i.dst with
    | some r => runMInsts is (fun q => if q = r then v else regs q) w
    | none => runMInsts is regs w

/-- The parameters take the values at once. -/
def bindParams (regs : RegId → V) : List (RegId × Ty) → List V → RegId → V
  | p :: ps, v :: vs => fun q => if q = p.1 then v else bindParams regs ps vs q
  | _, _ => regs

/-- A block is entered with the arguments; a parameter without one has any value. -/
def Enters (S : Sem V) (regs : RegId → V) (ps : List (RegId × Ty)) (args : List Operand) (vs : List V) : Prop :=
  vs.length = ps.length ∧ ∀ (k : Nat) (a : Operand), args[k]? = some a → vs[k]? = some (S.operand regs a)

inductive MStep (S : Sem V) (free : RegId → Prop) (ms : List (MBlock V W)) :
    Nat × (RegId → V) × W → Nat × (RegId → V) × W → Prop
  | step {i j m t args regs w vs} : ms[i]? = some m →
    MTakes S free (runMInsts m.insts regs w).1 m.term (j, args) → ms[j]? = some t →
    Enters S (runMInsts m.insts regs w).1 t.params args vs →
    MStep S free ms (i, regs, w) (j, bindParams (runMInsts m.insts regs w).1 t.params vs, (runMInsts m.insts regs w).2)

/-! ## Values -/

def Ctx.Inj (ctx : Ctx) : Prop := ∀ name name' r, ctx.regs name = some r → ctx.regs name' = some r → name = name'

variable {S : Sem V} {ctx : Ctx} {regs : RegId → V} {v : LValue} {op : Operand} {width : Nat} {w : W}

theorem value_eq (h : ctx.operand v width = .ok op) : S.value (ctx.pull regs) width v = S.operand regs op := by
  cases v with
  | «local» name =>
    simp only [Ctx.operand, Ctx.reg] at h
    cases hr : ctx.regs name with
    | none => exact absurd h (by simp [hr, Except.map])
    | some r =>
      rw [hr] at h
      obtain rfl := Except.ok.inj h
      simp [Sem.value, Sem.operand, Ctx.pull, hr]
  | int n =>
    have hop : ∃ c, op = .const c := by
      simp only [Ctx.operand, Ctx.intOperand] at h
      obtain rfl := Except.ok.inj h
      split
      · exact ⟨_, rfl⟩
      · split <;> exact ⟨_, rfl⟩
    obtain ⟨c, rfl⟩ := hop
    have hc : Ctx.operand ⟨fun _ => none, 0⟩ (.int n) width = .ok (.const c) := h
    simp only [Sem.value, hc, Sem.operand]
  | globalOff name elem index =>
    have hop : ∃ c, op = .const c := by
      simp only [Ctx.operand] at h
      obtain rfl := Except.ok.inj h
      split
      · split <;> exact ⟨_, rfl⟩
      · exact ⟨_, rfl⟩
    obtain ⟨c, rfl⟩ := hop
    have hc : Ctx.operand ⟨fun _ => none, 0⟩ (.globalOff name elem index) width = .ok (.const c) := h
    simp only [Sem.value, hc, Sem.operand]
  | _ =>
    obtain rfl := Except.ok.inj h
    rfl

theorem pull_set (hinj : ctx.Inj) {name : String} {r : RegId} (hr : ctx.regs name = some r) (x : V) :
    ctx.pull (fun q => if q = r then x else regs q) = fun y => if y = name then x else ctx.pull regs y := by
  funext y
  by_cases hy : y = name
  · subst hy
    simp [Ctx.pull, hr]
  · rw [if_neg hy]
    simp only [Ctx.pull]
    cases hq : ctx.regs y with
    | none => rfl
    | some q =>
      have hne : q ≠ r := fun heq => hy (hinj y name r (heq ▸ hq) hr)
      simp only [if_neg hne]

/-! ## Blocks -/

theorem except_bind_ok {α β : Type} {x : Except LowerError α} {g : α → Except LowerError β} {b : β}
    (h : (x >>= g) = .ok b) : ∃ a, x = .ok a ∧ g a = .ok b := by
  cases x with
  | error e => exact absurd h (by simp [bind, Except.bind])
  | ok a => exact ⟨a, rfl, h⟩

theorem reg_eq_ok {name : String} {r : RegId} (h : ctx.reg name = .ok r) : ctx.regs name = some r := by
  rw [Ctx.reg] at h
  split at h
  · next r' hr => exact Except.ok.inj h ▸ hr
  · exact absurd h (by simp)

theorem runInsts_eq (hinj : ctx.Inj) {is : List (LInst V W)} {ms : List (MInst V W)}
    (h : lowerInsts ctx is = .ok ms) :
    runInsts is (ctx.pull regs) w = (ctx.pull (runMInsts ms regs w).1, (runMInsts ms regs w).2) := by
  induction is generalizing ms regs w with
  | nil =>
    obtain rfl := Except.ok.inj h
    rfl
  | cons i is ih =>
    obtain ⟨m, hm, h⟩ := except_bind_ok h
    obtain ⟨ms', hms, h⟩ := except_bind_ok h
    obtain rfl := Except.ok.inj h
    rw [lowerInst] at hm
    cases hd : i.dst with
    | none =>
      simp only [hd] at hm
      obtain rfl := Except.ok.inj hm
      simp only [runInsts, runMInsts, hd]
      exact ih hms
    | some name =>
      simp only [hd] at hm
      cases hr : ctx.reg name with
      | error e => exact absurd hm (by simp [hr, Except.map])
      | ok r =>
        rw [hr] at hm
        obtain rfl := Except.ok.inj hm
        simp only [runInsts, runMInsts, hd]
        rw [← pull_set hinj (reg_eq_ok hr)]
        exact ih hms

/-- The operands are, in the order of the phis, what each of them lists for the predecessor. -/
def Listed (ctx : Ctx) (pred : String) : List LPhi → List Operand → Prop :=
  List.Forall₂ fun phi op => ∃ v, phi.incoming pred = some v ∧ ctx.operand v (typeWidth phi.ty) = .ok op

omit [Inhabited V] in
theorem phiArgs_listed {src : String} {phis : List LPhi} {ops : List Operand} (h : phiArgs ctx src phis = .ok ops) :
    Listed ctx src phis ops := by
  induction phis generalizing ops with
  | nil =>
    obtain rfl := Except.ok.inj h
    exact .nil
  | cons phi phis ih =>
    rw [phiArgs] at h
    cases hv : phi.incoming src with
    | none => exact absurd h (by simp [hv])
    | some v =>
      simp only [hv] at h
      obtain ⟨op, hop, h⟩ := except_bind_ok h
      obtain ⟨ops', hops, h⟩ := except_bind_ok h
      obtain rfl := Except.ok.inj h
      exact .cons ⟨v, hv, hop⟩ (ih hops)

theorem phiValues_eq {pred : String} {phis : List LPhi} {ops : List Operand} (h : Listed ctx pred phis ops) :
    S.phiValues (ctx.pull regs) pred phis = some (ops.map (S.operand regs)) := by
  induction h with
  | nil => rfl
  | cons hphi _ ih =>
    obtain ⟨v, hv, hop⟩ := hphi
    simp only [Sem.phiValues, hv, ih, Option.bind_eq_bind, Option.bind_some, value_eq hop, List.map_cons]
    rfl

theorem phiValues_length {σ : String → V} {src : String} {phis : List LPhi} {vs : List V}
    (h : S.phiValues σ src phis = some vs) : vs.length = phis.length := by
  induction phis generalizing vs with
  | nil =>
    obtain rfl := Option.some.inj h
    rfl
  | cons phi phis ih =>
    rw [Sem.phiValues] at h
    obtain ⟨v, _, h⟩ := Option.bind_eq_some_iff.mp h
    obtain ⟨vs', hvs, h⟩ := Option.bind_eq_some_iff.mp h
    obtain rfl := Option.some.inj h
    rw [List.length_cons, List.length_cons, ih hvs]

theorem lowerPhis_length {phis : List LPhi} {ps : List (RegId × Ty)} (h : lowerPhis ctx phis = .ok ps) :
    ps.length = phis.length := by
  induction phis generalizing ps with
  | nil =>
    obtain rfl := Except.ok.inj h
    rfl
  | cons phi phis ih =>
    obtain ⟨r, _, h⟩ := except_bind_ok h
    obtain ⟨ps', hps, h⟩ := except_bind_ok h
    obtain rfl := Except.ok.inj h
    rw [List.length_cons, List.length_cons, ih hps]

theorem bindParams_eq (hinj : ctx.Inj) {phis : List LPhi} {ps : List (RegId × Ty)} (h : lowerPhis ctx phis = .ok ps)
    (vs : List V) : ctx.pull (bindParams regs ps vs) = assignPhis (ctx.pull regs) phis vs := by
  induction phis generalizing ps vs with
  | nil =>
    obtain rfl := Except.ok.inj h
    rfl
  | cons phi phis ih =>
    obtain ⟨r, hr, h⟩ := except_bind_ok h
    obtain ⟨ps', hps, h⟩ := except_bind_ok h
    obtain rfl := Except.ok.inj h
    cases vs with
    | nil => rfl
    | cons v vs =>
      simp only [bindParams, assignPhis]
      rw [pull_set hinj (reg_eq_ok hr), ih hps]

end

end Llvm

end Csolver
