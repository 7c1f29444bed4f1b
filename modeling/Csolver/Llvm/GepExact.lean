import Csolver.Llvm.GepSound

/-!
# The address of a `getelementptr`

A chain is executed from the state in which its base and its indices are read. If the types are laid out as
LLVM has it, every variable index is wide enough or not negative, and no constant overflows, the pointer in the
last register is the base moved by the offset that LLVM defines.
-/

namespace Csolver

namespace Llvm

/-! ## The condition -/

/-- The executor moves by the allocation size of the element: it does not know sizes that do not fit, and takes
at least one byte. -/
def StrideOk (elem : LType) (z : Int) : Prop :=
  z = 0 ∨ Laid false elem ∧ (lowerType elem).strideBytes .lp64 ≠ none ∧ elem.allocSize ≠ 0

def ArrayOk (elem : LType) (idx : GepIndex) (z : Int) : Prop :=
  idx.Plain z ∧ match constIdx idx.value with
    | some k => k = 0 ∨ Laid false elem ∧ k * elem.allocSize < 2 ^ 64
    | none => StrideOk elem z

/-- An index of a vector, whose elements are integers or pointers. -/
def VectorOk (elem : LType) (idx : GepIndex) (z : Int) : Prop :=
  idx.Plain z ∧ match constIdx idx.value with
    | some k => (lowerType elem).sizeBytes .lp64 = some elem.storeBytes ∧ k * elem.storeBytes < 2 ^ 64
    | none => StrideOk elem z ∧ elem.storeBytes = elem.allocSize

def FieldOk (packed : Bool) (fields : List LType) (z : Int) : Prop :=
  0 ≤ z ∧ z < 2 ^ 32 ∧ LaidAll (!packed) (fields.take z.toNat) ∧
    (packed = false → ∀ f, fields[z.toNat]? = some f → (lowerType f).alignBytes .lp64 = f.abiAlign)

/-- The walk through a type meets nothing that is laid out or read differently. -/
def NavOk : LType → List (GepIndex × Int) → Prop
  | _, [] => True
  | .struct fields, (idx, z) :: rest => idx.value = .int z ∧ FieldOk false fields z ∧
      ∀ f, fields[z.toNat]? = some f → NavOk f rest
  | .packedStruct fields, (idx, z) :: rest => idx.value = .int z ∧ FieldOk true fields z ∧
      ∀ f, fields[z.toNat]? = some f → NavOk f rest
  | .array elem _, (idx, z) :: rest => ArrayOk elem idx z ∧ NavOk elem rest
  | .vector elem _, (idx, z) :: rest => VectorOk elem idx z ∧ NavOk elem rest
  | _, _ :: _ => True

theorem orUnsupported_eq_ok {α : Type} {ctx ctx' : Ctx} {a : α} {o : Option α} {msg : String}
    (h : orUnsupported o msg ctx = .ok (a, ctx')) : o = some a ∧ ctx = ctx' := by
  cases o with
  | none => exact absurd h (by simp [orUnsupported, throw, throwThe, MonadExceptOf.throw, StateT.lift])
  | some x =>
    have heq : (Except.ok (x, ctx) : Except LowerError _) = .ok (a, ctx') := h
    simp_all

/-! ## Strides -/

theorem StrideOk.mul_eq {elem : LType} {z : Int} (h : StrideOk elem z) :
    z * execStride (lowerType elem) = z * elem.allocSize := by
  rcases h with rfl | ⟨hl, hs, hne⟩
  · rw [zero_mul, zero_mul]
  · obtain ⟨stride, hstride⟩ := Option.ne_none_iff_exists'.mp hs
    have hsome := hstride
    rw [Ty.strideBytes] at hstride
    obtain ⟨size, hsize, hstride⟩ := Option.bind_eq_some_iff.mp hstride
    have heq := (laid_agrees elem hl hsize).stride hstride
    rw [execStride, hsome, Option.getD_some, heq, Nat.max_eq_left (Nat.pos_of_ne_zero hne)]

theorem saturatingMulU64_eq {k sz size : Nat} (h : k = 0 ∨ sz = size ∧ k * size < 2 ^ 64) :
    saturatingMulU64 k sz = k * size := by
  rw [saturatingMulU64]
  rcases h with rfl | ⟨rfl, hlt⟩
  · simp
  · omega

/-! ## The walk -/

section Walk

variable {ρ : Valuation} {ctx ctx' : Ctx} {state : PathState} {idx : GepIndex} {z v : Int} {cur dst : RegId} {P : Prov}

/-- The registers below `n` are not written. -/
structure Keeps (n : RegId) (state state' : PathState) : Prop where
  env : ∀ r < n, state'.env r = state.env r
  regions : state'.regions = state.regions

theorem Keeps.trans {n : RegId} {state₁ state₂ : PathState} (h₁ : Keeps n state state₁) (h₂ : Keeps n state₁ state₂) :
    Keeps n state state₂ :=
  ⟨fun r hr => (h₂.env r hr).trans (h₁.env r hr), h₂.regions.trans h₁.regions⟩

theorem Keeps.mono {n k : RegId} {state' : PathState} (h : Keeps k state state') (hn : n ≤ k) : Keeps n state state' :=
  ⟨fun r hr => h.env r (Nat.lt_of_lt_of_le hr hn), h.regions⟩

theorem keeps_setReg {n : RegId} (hn : n ≤ dst) (q : SymValue) : Keeps n state (state.setReg dst q) := by
  refine ⟨fun r hr => ?_, rfl⟩
  have hne : r ≠ dst := (Nat.lt_of_lt_of_le hr hn).ne
  simp only [PathState.setReg, if_neg hne]

theorem GepIndex.Denotes.keeps {n : RegId} {state' : PathState} (h : idx.Denotes ctx state ρ z) (hfits : ctx.Fits n)
    (hkeeps : Keeps n state state') (hregs : ctx'.regs = ctx.regs) : idx.Denotes ctx' state' ρ z := by
  obtain ⟨w, value⟩ := idx
  cases value with
  | «local» name =>
    obtain ⟨r, e, hreg, henv, hlt, hz⟩ := h
    refine ⟨r, e, hregs ▸ hreg, ?_, hlt, hz⟩
    rw [hkeeps.env r (hfits name r hreg), henv]
  | int n => exact h
  | _ => exact h.elim

theorem PointsAt.step {index : Operand} {x : Int} (h : PointsAt ρ state cur P v) (hx : ReadsAs ρ state index x)
    (elem : Ty) (dst : RegId) :
    ∃ q, (∀ ex, stepPtrOffset dst (.reg cur) index elem state ex = (state.setReg dst (.ptr q), ex)) ∧
      PointsAt ρ (state.setReg dst (.ptr q)) dst P (v + x * execStride elem) := by
  obtain ⟨p, hp, hprov, hw, hv⟩ := h.evalPointer
  obtain ⟨e, he, hex⟩ := hx
  obtain ⟨hq, hqw, hqv⟩ := movedBy_spec elem hw hex
  refine ⟨movedBy elem e p, fun ex => stepPtrOffset_eq (hp ex) he, PointsAt.setReg_self ?_ hqw ?_⟩
  · -- the base was read, so its provenance is kept by another read
    obtain ⟨q', -, hP, -⟩ := h
    rw [hq, hprov, ← hP, keptProv_idem]
  · exact hqv.trans (Int.ModEq.add_right _ hv)

theorem runChain_append (as bs : List Inst) (state : PathState) (ex : Explorer) :
    runChain (as ++ bs) state ex = runChain bs (runChain as state ex).1 (runChain as state ex).2 := by
  induction as generalizing state ex with
  | nil => rfl
  | cons i is ih =>
    cases i with
    | ptrOffset dst base index elem =>
      simp only [List.cons_append, runChain, bind, StateT.bind]
      exact ih _ _
    | _ =>
      simp only [List.cons_append, runChain]
      exact ih _ _

/-- The instructions, run after the context `ctx`, leave a pointer in the last register. -/
structure Walked (ρ : Valuation) (ctx ctx' : Ctx) (state : PathState) (insts : List Inst) (last : RegId) (P : Prov)
    (v : Int) : Prop where
  regs : ctx'.regs = ctx.regs
  next : ctx.nextReg ≤ ctx'.nextReg
  run : ∃ state', (∀ ex, runChain insts state ex = (state', ex)) ∧ Keeps ctx.nextReg state state' ∧
    PointsAt ρ state' last P v

theorem Walked.nil (h : PointsAt ρ state cur P v) : Walked ρ ctx ctx state [] cur P v :=
  ⟨rfl, Nat.le_refl _, state, fun _ => rfl, ⟨fun _ _ => rfl, rfl⟩, h⟩

theorem Walked.fresh {index : Operand} {x : Int} {n : RegId} (elem : Ty) (h : PointsAt ρ state cur P v)
    (hx : ReadsAs ρ state index x) (hn : Llvm.fresh ctx = .ok (n, ctx')) :
    Walked ρ ctx ctx' state [.ptrOffset n (.reg cur) index elem] n P (v + x * execStride elem) := by
  obtain ⟨rfl, rfl⟩ := fresh_eq_ok hn
  obtain ⟨q, hstep, hp⟩ := h.step hx elem ctx.nextReg
  refine ⟨rfl, Nat.le_succ _, _, fun ex => ?_, keeps_setReg (Nat.le_refl _) _, hp⟩
  simp only [runChain, bind, StateT.bind, hstep]
  rfl

theorem flush_walked {acc : Nat} {insts : List Inst} {cur' : RegId} (h : PointsAt ρ state cur P v)
    (hf : flush cur acc ctx = .ok ((insts, cur'), ctx')) : Walked ρ ctx ctx' state insts cur' P (v + acc) := by
  rw [flush] at hf
  split at hf
  · obtain ⟨n, ctx₁, hn, hf⟩ := bind_eq_ok hf
    obtain ⟨heq, rfl⟩ := pure_eq_ok hf
    obtain ⟨rfl, rfl⟩ := Prod.mk.inj heq
    have hw := Walked.fresh (.int 8) h (intOperand_reads state acc) hn
    have hone : execStride (.int 8) = 1 := by decide
    rwa [hone, Nat.cast_one, mul_one] at hw
  · obtain ⟨heq, rfl⟩ := pure_eq_ok hf
    obtain ⟨rfl, rfl⟩ := Prod.mk.inj heq
    have hzero : acc = 0 := by omega
    rw [hzero, Nat.cast_zero, add_zero]
    exact Walked.nil h

theorem Walked.append {ctx₁ : Ctx} {state₁ : PathState} {as bs : List Inst} {last : RegId}
    (hregs : ctx₁.regs = ctx.regs) (hnext : ctx.nextReg ≤ ctx₁.nextReg)
    (hrun : ∀ ex, runChain as state ex = (state₁, ex)) (hkeeps : Keeps ctx.nextReg state state₁)
    (h : Walked ρ ctx₁ ctx' state₁ bs last P v) : Walked ρ ctx ctx' state (as ++ bs) last P v := by
  obtain ⟨state₂, hrun₂, hkeeps₂, hp⟩ := h.run
  refine ⟨h.regs.trans hregs, hnext.trans h.next, state₂, fun ex => ?_, hkeeps.trans (hkeeps₂.mono hnext), hp⟩
  rw [runChain_append, hrun, hrun₂]

theorem field_step {α : Type} {packed : Bool} {fields : List LType} {acc : Nat}
    {k : Ty → Nat → LowerM α} {a : α} (hok : FieldOk packed fields z)
    (h : (do
      let i ← orUnsupported (constIdx (.int z)) "variable struct-field gep index"
      let off ← orUnsupported (structFieldOffset (.struct (lowerTypes fields) packed) (i % 2 ^ 32))
        "struct-field gep with an unsizable offset"
      let acc ← orUnsupported (checkedU64 (acc + off)) "gep offset overflow"
      let ty ← orUnsupported (lowerTypes fields)[i]? "struct-field gep index out of range"
      k ty acc) ctx = .ok (a, ctx')) :
    ∃ f o, fields[z.toNat]? = some f ∧ fieldOffset packed fields 0 z.toNat = some o ∧
      k (lowerType f) (acc + o) ctx = .ok (a, ctx') := by
  obtain ⟨hz, hlt, hlaid, halign⟩ := hok
  obtain ⟨i, ctx₁, hm, h⟩ := bind_eq_ok h
  obtain ⟨hi, rfl⟩ := orUnsupported_eq_ok hm
  have hiz : i = z.toNat := by
    rw [constIdx, if_pos ⟨hz, by omega⟩] at hi
    exact (Option.some.inj hi).symm
  subst hiz
  obtain ⟨off, ctx₁, hm, h⟩ := bind_eq_ok h
  obtain ⟨hoff, rfl⟩ := orUnsupported_eq_ok hm
  rw [Nat.mod_eq_of_lt (by omega), structFieldOffset] at hoff
  obtain ⟨acc₁, ctx₁, hm, h⟩ := bind_eq_ok h
  obtain ⟨hacc, rfl⟩ := orUnsupported_eq_ok hm
  obtain ⟨ty, ctx₁, hm, h⟩ := bind_eq_ok h
  obtain ⟨hty, rfl⟩ := orUnsupported_eq_ok hm
  rw [lowerTypes_eq, List.getElem?_map, Option.map_eq_some_iff] at hty
  obtain ⟨f, hf, rfl⟩ := hty
  refine ⟨f, off, hf, ?_, eq_of_checkedU64 hacc ▸ h⟩
  have hoff' := fieldOffsetFrom_eq (!packed) hlaid (fun ha => halign (by simpa using ha))
    (by rwa [Bool.not_not])
  rwa [Bool.not_not] at hoff'

/-- The index of an array or a vector whose elements take `size` bytes. -/
structure ElemOk (elem : Ty) (size : Nat) (idx : GepIndex) (z : Int) : Prop where
  plain : idx.Plain z
  const : ∀ k sz, constIdx idx.value = some k → elem.sizeBytes .lp64 = some sz → saturatingMulU64 k sz = k * size
  var : constIdx idx.value = none → z * execStride elem = z * size

theorem ArrayOk.elemOk {elem : LType} (h : ArrayOk elem idx z) : ElemOk (lowerType elem) elem.allocSize idx z := by
  obtain ⟨hplain, h⟩ := h
  refine ⟨hplain, fun k sz hk hsz => ?_, fun hk => ?_⟩
  · rw [hk] at h
    apply saturatingMulU64_eq
    rcases h with rfl | ⟨hl, hlt⟩
    · exact .inl rfl
    · exact .inr ⟨(laid_agrees elem hl hsz).size_eq, hlt⟩
  · rw [hk] at h
    exact StrideOk.mul_eq h

theorem VectorOk.elemOk {elem : LType} (h : VectorOk elem idx z) :
    ElemOk (lowerType elem) elem.storeBytes idx z := by
  obtain ⟨hplain, h⟩ := h
  refine ⟨hplain, fun k sz hk hsz => ?_, fun hk => ?_⟩
  · rw [hk] at h
    rw [h.1] at hsz
    exact saturatingMulU64_eq (.inr ⟨(Option.some.inj hsz).symm, h.2⟩)
  · rw [hk] at h
    rw [h.2, h.1.mul_eq]

theorem constIdx_modEq {k : Nat} (h : idx.Plain z) (hk : constIdx idx.value = some k) : (k : Int) ≡ z [ZMOD 2 ^ 64] := by
  obtain ⟨w, value⟩ := idx
  cases value with
  | int n =>
    simp only [constIdx] at hk
    split at hk
    · next hn =>
      obtain rfl := Option.some.inj hk
      rw [Int.toNat_of_nonneg hn.1]
      exact h
    · exact absurd hk (by simp)
  | _ => exact absurd hk (by simp [constIdx])

/-- An element is walked to: a constant index is added to the pending offset, a variable one emits it first. -/
theorem elem_step {elem : Ty} {size n acc acc' : Nat} {rest : List LValue} {insts : List Inst} {last : RegId}
    (hok : ElemOk elem size idx z) (hp : PointsAt ρ state cur P v) (hd : idx.Denotes ctx state ρ z)
    (hfits : ctx.Fits ctx.nextReg)
    (h : gepSteps (.array elem n) acc cur (idx.value :: rest) ctx = .ok ((insts, last, acc'), ctx')) :
    ∃ pre post, ∃ acc₁ : Nat, ∃ cur₁ ctx₁ v₁, insts = pre ++ post ∧ Walked ρ ctx ctx₁ state pre cur₁ P v₁ ∧
      v₁ + acc₁ ≡ v + acc + z * size [ZMOD 2 ^ 64] ∧
      gepSteps elem acc₁ cur₁ rest ctx₁ = .ok ((post, last, acc'), ctx') := by
  rw [gepSteps] at h
  cases hk : constIdx idx.value with
  | some k =>
    simp only [hk] at h
    obtain ⟨sz, ctx₁, hm, h⟩ := bind_eq_ok h
    obtain ⟨hsz, rfl⟩ := orUnsupported_eq_ok hm
    obtain ⟨acc₁, ctx₁, hm, h⟩ := bind_eq_ok h
    obtain ⟨hacc, rfl⟩ := orUnsupported_eq_ok hm
    refine ⟨[], insts, acc₁, cur, ctx, v, rfl, Walked.nil hp, ?_, h⟩
    rw [eq_of_checkedU64 hacc, hok.const k sz hk hsz]
    push_cast
    rw [← add_assoc]
    exact ((constIdx_modEq hok.plain hk).mul_right _).add_left _
  | none =>
    simp only [hk] at h
    obtain ⟨⟨flushed, cur₁⟩, ctx₁, hm, h⟩ := bind_eq_ok h
    have hw := flush_walked hp hm
    obtain ⟨state₁, hrun, hkeeps, hp₁⟩ := hw.run
    obtain ⟨r, ctx₂, hr, h⟩ := bind_eq_ok h
    obtain ⟨i, ctx₃, hm, h⟩ := bind_eq_ok h
    obtain ⟨hi, rfl⟩ := operandM_eq_ok hm
    have hregs : ctx₂.regs = ctx₁.regs := by rw [(fresh_eq_ok hr).2]
    -- the index is read after the flush, which writes a fresh register
    have hd₁ : idx.Denotes ctx₂ state₁ ρ z := hd.keeps hfits hkeeps (hregs.trans hw.regs)
    have hreads := (hok.plain.reads hd₁ hi).1
    have hstep := Walked.fresh elem hp₁ hreads hr
    obtain ⟨⟨post, last', acc₂⟩, ctx₄, hm, h⟩ := bind_eq_ok h
    obtain ⟨heq, rfl⟩ := pure_eq_ok h
    simp only [Prod.mk.injEq] at heq
    obtain ⟨rfl, rfl, rfl⟩ := heq
    refine ⟨flushed ++ [.ptrOffset r (.reg cur₁) i elem], post, 0, r, ctx₂, v + acc + z * execStride elem, by simp,
      Walked.append hw.regs hw.next hrun hkeeps hstep, ?_, hm⟩
    rw [hok.var hk, Nat.cast_zero, add_zero]

theorem gepSteps_walked {idxs : List (GepIndex × Int)} : ∀ {ty : LType} {ctx : Ctx} {state : PathState} {cur : RegId}
    {v : Int} {acc acc' : Nat} {insts : List Inst} {last : RegId}, NavOk ty idxs → PointsAt ρ state cur P v →
    (∀ p ∈ idxs, p.1.Denotes ctx state ρ p.2) → ctx.Fits ctx.nextReg →
    gepSteps (lowerType ty) acc cur (idxs.map (·.1.value)) ctx = .ok ((insts, last, acc'), ctx') →
    ∃ off v', navOffset ty (idxs.map (·.2)) = some off ∧ Walked ρ ctx ctx' state insts last P v' ∧
      v' + acc' ≡ v + acc + off [ZMOD 2 ^ 64] := by
  induction idxs with
  | nil =>
    intro ty ctx state cur v acc acc' insts last _ hp _ _ h
    rw [List.map_nil, gepSteps] at h
    obtain ⟨heq, rfl⟩ := pure_eq_ok h
    simp only [Prod.mk.injEq] at heq
    obtain ⟨rfl, rfl, rfl⟩ := heq
    refine ⟨0, v, by rw [List.map_nil, navOffset], Walked.nil hp, ?_⟩
    rw [add_zero]
  | cons p idxs ih =>
    obtain ⟨idx, z⟩ := p
    intro ty ctx state cur v acc acc' insts last hok hp hd hfits h
    have hd₀ := hd (idx, z) (List.mem_cons_self ..)
    have hd' : ∀ p ∈ idxs, p.1.Denotes ctx state ρ p.2 := fun p hp => hd p (List.mem_cons_of_mem _ hp)
    rw [List.map_cons] at h
    -- the element of an array or of a vector
    have helem {elem : LType} {size n : Nat} (hok : ElemOk (lowerType elem) size idx z) (hnav : NavOk elem idxs)
        (h : gepSteps (.array (lowerType elem) n) acc cur (idx.value :: idxs.map (·.1.value)) ctx =
          .ok ((insts, last, acc'), ctx')) :
        ∃ off v', navOffset elem (idxs.map (·.2)) = some off ∧ Walked ρ ctx ctx' state insts last P v' ∧
          v' + acc' ≡ v + acc + (z * size + off) [ZMOD 2 ^ 64] := by
      obtain ⟨pre, post, acc₁, cur₁, ctx₁, v₁, rfl, hw, hv₁, h⟩ := elem_step hok hp hd₀ hfits h
      obtain ⟨state₁, hrun, hkeeps, hp₁⟩ := hw.run
      have hfits₁ : ctx₁.Fits ctx₁.nextReg := fun name r hr =>
        Nat.lt_of_lt_of_le (hfits name r (hw.regs ▸ hr)) hw.next
      obtain ⟨off, v', hoff, hw', hv'⟩ := ih hnav hp₁ (fun p hp => (hd' p hp).keeps hfits hkeeps hw.regs) hfits₁ h
      refine ⟨off, v', hoff, Walked.append hw.regs hw.next hrun hkeeps hw', hv'.trans ?_⟩
      rw [← add_assoc]
      exact hv₁.add_right _
    -- the field of a struct
    have hfield {packed : Bool} {fields : List LType} (hidx : idx.value = .int z) (hok : FieldOk packed fields z)
        (hnav : ∀ f, fields[z.toNat]? = some f → NavOk f idxs)
        (h : gepSteps (.struct (lowerTypes fields) packed) acc cur (idx.value :: idxs.map (·.1.value)) ctx =
          .ok ((insts, last, acc'), ctx')) :
        ∃ f o off v', fields[z.toNat]? = some f ∧ fieldOffset packed fields 0 z.toNat = some o ∧
          navOffset f (idxs.map (·.2)) = some off ∧ Walked ρ ctx ctx' state insts last P v' ∧
          v' + acc' ≡ v + acc + (o + off) [ZMOD 2 ^ 64] := by
      rw [hidx, gepSteps] at h
      obtain ⟨f, o, hf, ho, h⟩ := field_step hok h
      obtain ⟨off, v', hoff, hw, hv'⟩ := ih (hnav f hf) hp hd' hfits h
      refine ⟨f, o, off, v', hf, ho, hoff, hw, ?_⟩
      rwa [Nat.cast_add, ← add_assoc, add_assoc _ (o : Int)] at hv'
    cases ty with
    | struct fields =>
      rw [NavOk] at hok
      obtain ⟨f, o, off, v', hf, ho, hoff, hw, hv⟩ := hfield hok.1 hok.2.1 hok.2.2 h
      refine ⟨o + off, v', ?_, hw, hv⟩
      simp [navOffset, hok.2.1.1, hf, ho, hoff]
    | packedStruct fields =>
      rw [NavOk] at hok
      obtain ⟨f, o, off, v', hf, ho, hoff, hw, hv⟩ := hfield hok.1 hok.2.1 hok.2.2 h
      refine ⟨o + off, v', ?_, hw, hv⟩
      simp [navOffset, hok.2.1.1, hf, ho, hoff]
    | array elem n =>
      rw [NavOk] at hok
      obtain ⟨off, v', hoff, hw, hv⟩ := helem hok.1.elemOk hok.2 h
      refine ⟨z * elem.allocSize + off, v', ?_, hw, hv⟩
      simp [navOffset, hoff]
    | vector elem n =>
      rw [NavOk] at hok
      obtain ⟨off, v', hoff, hw, hv⟩ := helem hok.1.elemOk hok.2 h
      refine ⟨z * elem.storeBytes + off, v', ?_, hw, hv⟩
      simp [navOffset, hoff]
    | _ => exact absurd h (by simp [lowerType, gepSteps, throw, throwThe, MonadExceptOf.throw, StateT.lift])

end Walk

/-! ## Whole instructions -/

/-- The byte offset that LLVM defines. -/
def gepOffset (agg : LType) (first : Int) (rest : List Int) : Option Int := do
  let off ← navOffset agg rest
  return first * agg.allocSize + off

/-- The instructions leave the base, moved by the offset, in the register of the name. -/
def Lands (ρ : Valuation) (ctx : Ctx) (state : PathState) (ex : Explorer) (insts : List Inst) (dst : String)
    (base : LValue) (off : Int) : Prop :=
  ∃ b d state' ex', ctx.operand base 64 = .ok b ∧ ctx.regs dst = some d ∧ runChain insts state ex = (state', ex') ∧
    PointsAt ρ state' d (keptProv state.regions.length (evalPointer b state ex).1.prov)
      ((evalPointer b state ex).1.offset.eval ρ + off)

/-- The first index strides over the whole type. -/
def FirstOk (agg : LType) (idx : GepIndex) (z : Int) : Prop := idx.Plain z ∧ StrideOk agg z

section Whole

variable {ρ : Valuation} {ctx ctx' : Ctx} {state : PathState} {ex : Explorer} {agg : LType} {dst : String}
  {base : LValue} {first : GepIndex} {z₀ : Int} {idxs : List (GepIndex × Int)} {insts : List Inst}

theorem evalPointer_width (hst : state.Ok ex.fresh) (b : Operand) : 64 ≤ (evalPointer b state ex).1.offset.width := by
  have hok := (evalValue_ok hst b).1
  simp only [evalPointer, bind, StateT.bind]
  generalize evalValue b state ex = out at hok
  obtain ⟨val, ex'⟩ := out
  cases val with
  | scalar e => exact Nat.le_refl 64
  | ptr p =>
    obtain ⟨prov, o, al, bo⟩ := p
    exact hok.2.ge

theorem first_step {i : Operand} (b : Operand) (cur : RegId) (hst : state.Ok ex.fresh) (hok : FirstOk agg first z₀)
    (hd : first.Denotes ctx state ρ z₀) (hi : ctx.operand first.value 64 = .ok i) :
    ∃ q ex', stepPtrOffset cur b i (lowerType agg) state ex = (state.setReg cur (.ptr q), ex') ∧
      PointsAt ρ (state.setReg cur (.ptr q)) cur (keptProv state.regions.length (evalPointer b state ex).1.prov)
        ((evalPointer b state ex).1.offset.eval ρ + z₀ * agg.allocSize) := by
  obtain ⟨e, he, hex⟩ := (hok.1.reads hd hi).1
  obtain ⟨hq, hqw, hqv⟩ := movedBy_spec (lowerType agg) (evalPointer_width hst b) hex
  have hp : evalPointer b state ex = ((evalPointer b state ex).1, (evalPointer b state ex).2) := rfl
  refine ⟨_, _, stepPtrOffset_eq hp he, PointsAt.setReg_self ?_ hqw ?_⟩
  · rw [hq]
  · rwa [hok.2.mul_eq] at hqv

theorem lowerGep_lands (hst : state.Ok ex.fresh) (hok : FirstOk agg first z₀) (hd : first.Denotes ctx state ρ z₀)
    (h : lowerGep dst agg base first.value ctx = .ok (insts, ctx')) :
    Lands ρ ctx state ex insts dst base (z₀ * agg.allocSize) := by
  obtain ⟨d, ctx₁, hm, h⟩ := bind_eq_ok h
  obtain ⟨hreg, rfl⟩ := regM_eq_ok hm
  obtain ⟨b, ctx₁, hm, h⟩ := bind_eq_ok h
  obtain ⟨hb, rfl⟩ := operandM_eq_ok hm
  obtain ⟨i, ctx₁, hm, h⟩ := bind_eq_ok h
  obtain ⟨hi, rfl⟩ := operandM_eq_ok hm
  obtain ⟨rfl, rfl⟩ := pure_eq_ok h
  obtain ⟨q, ex', hstep, hp⟩ := first_step b d hst hok hd hi
  refine ⟨b, d, _, ex', hb, hreg, ?_, hp⟩
  simp only [runChain, bind, StateT.bind, hstep]
  rfl

theorem last_step {cur : RegId} {P : Prov} {v : Int} {state₁ : PathState} (d : RegId) (acc : Nat)
    (hp : PointsAt ρ state₁ cur P v) :
    ∃ state₂, (∀ ex, runChain [.ptrOffset d (.reg cur) (Ctx.intOperand 64 acc) (.int 8)] state₁ ex = (state₂, ex)) ∧
      PointsAt ρ state₂ d P (v + acc) := by
  obtain ⟨q, hstep, hq⟩ := hp.step (intOperand_reads state₁ acc) (.int 8) d
  have hone : execStride (.int 8) = 1 := by decide
  rw [hone, Nat.cast_one, mul_one] at hq
  refine ⟨_, fun ex => ?_, hq⟩
  simp only [runChain, bind, StateT.bind, hstep]
  rfl

theorem PointsAt.congr {r : RegId} {P : Prov} {v v' : Int} (h : PointsAt ρ state r P v) (hv : v ≡ v' [ZMOD 2 ^ 64]) :
    PointsAt ρ state r P v' := by
  obtain ⟨q, hq, hP, hw, hqv⟩ := h
  exact ⟨q, hq, hP, hw, hqv.trans hv⟩

theorem lowerGepField_lands {field : Nat} {packed : Bool} {fields : List LType} (hst : state.Ok ex.fresh)
    (hagg : lowerType agg = .struct (lowerTypes fields) packed) (hok : FirstOk agg first z₀)
    (hfield : FieldOk packed fields field) (hd : first.Denotes ctx state ρ z₀)
    (h : lowerGepField dst agg base first.value field ctx = .ok (insts, ctx')) :
    ∃ o, fieldOffset packed fields 0 field = some o ∧
      Lands ρ ctx state ex insts dst base (z₀ * agg.allocSize + o) := by
  obtain ⟨off, ctx₁, hm, h⟩ := bind_eq_ok h
  obtain ⟨hoff, rfl⟩ := orUnsupported_eq_ok hm
  rw [hagg, structFieldOffset] at hoff
  obtain ⟨tmp, ctx₁, hm, h⟩ := bind_eq_ok h
  obtain ⟨rfl, rfl⟩ := fresh_eq_ok hm
  obtain ⟨b, ctx₁, hm, h⟩ := bind_eq_ok h
  obtain ⟨hb, rfl⟩ := operandM_eq_ok hm
  obtain ⟨i, ctx₁, hm, h⟩ := bind_eq_ok h
  obtain ⟨hi, rfl⟩ := operandM_eq_ok hm
  obtain ⟨d, ctx₁, hm, h⟩ := bind_eq_ok h
  obtain ⟨hreg, rfl⟩ := regM_eq_ok hm
  obtain ⟨rfl, rfl⟩ := pure_eq_ok h
  obtain ⟨-, -, hlaid, halign⟩ := hfield
  rw [Int.toNat_natCast] at hlaid halign
  have ho := fieldOffsetFrom_eq (!packed) hlaid (fun ha => halign (by simpa using ha))
    (by rwa [Bool.not_not])
  rw [Bool.not_not] at ho
  refine ⟨off, ho, ?_⟩
  obtain ⟨q, ex', hstep, hp⟩ := first_step b ctx.nextReg hst hok hd hi
  obtain ⟨state₂, hrun, hp₂⟩ := last_step d off hp
  refine ⟨b, d, state₂, ex', hb, hreg, ?_, hp₂.congr (by rw [add_assoc])⟩
  simp only [runChain, bind, StateT.bind, hstep] at hrun ⊢
  exact hrun ex'

theorem lowerGepChain_lands (hst : state.Ok ex.fresh) (hfits : ctx.Fits ctx.nextReg) (hok : FirstOk agg first z₀)
    (hnav : NavOk agg idxs) (hd : first.Denotes ctx state ρ z₀) (hds : ∀ p ∈ idxs, p.1.Denotes ctx state ρ p.2)
    (h : lowerGepChain dst (lowerType agg) base first.value (idxs.map (·.1.value)) ctx = .ok (insts, ctx')) :
    ∃ off, gepOffset agg z₀ (idxs.map (·.2)) = some off ∧ Lands ρ ctx state ex insts dst base off := by
  obtain ⟨cur, ctx₁, hm, h⟩ := bind_eq_ok h
  obtain ⟨rfl, rfl⟩ := fresh_eq_ok hm
  obtain ⟨b, ctx₁, hm, h⟩ := bind_eq_ok h
  obtain ⟨hb, rfl⟩ := operandM_eq_ok hm
  obtain ⟨i, ctx₁, hm, h⟩ := bind_eq_ok h
  obtain ⟨hi, rfl⟩ := operandM_eq_ok hm
  obtain ⟨⟨walk, last, acc⟩, ctx₁, hwalk, h⟩ := bind_eq_ok h
  obtain ⟨d, ctx₂, hm, h⟩ := bind_eq_ok h
  obtain ⟨hreg, rfl⟩ := regM_eq_ok hm
  obtain ⟨rfl, rfl⟩ := pure_eq_ok h
  obtain ⟨q, ex', hstep, hp⟩ := first_step b ctx.nextReg hst hok hd hi
  have hkeeps : Keeps ctx.nextReg state (state.setReg ctx.nextReg (.ptr q)) := keeps_setReg (Nat.le_refl _) _
  have hfits₁ : Ctx.Fits { ctx with nextReg := ctx.nextReg + 1 } (ctx.nextReg + 1) :=
    fun name r hr => Nat.lt_succ_of_lt (hfits name r hr)
  have hds₁ : ∀ p ∈ idxs, p.1.Denotes { ctx with nextReg := ctx.nextReg + 1 }
      (state.setReg ctx.nextReg (.ptr q)) ρ p.2 := fun p hp => (hds p hp).keeps hfits hkeeps rfl
  obtain ⟨off, v', hoff, hw, hv'⟩ := gepSteps_walked hnav hp hds₁ hfits₁ hwalk
  obtain ⟨state₂, hrun₂, -, hp₂⟩ := hw.run
  obtain ⟨state₃, hrun₃, hp₃⟩ := last_step d acc hp₂
  refine ⟨z₀ * agg.allocSize + off, by simp [gepOffset, hoff], b, d, state₃, ex', hb, ?_, ?_, hp₃.congr ?_⟩
  · rw [← hreg, hw.regs]
  · rw [List.cons_append, runChain]
    simp only [bind, StateT.bind, hstep]
    rw [runChain_append, hrun₂, hrun₃]
  · rw [Nat.cast_zero, add_zero] at hv'
    rwa [add_assoc] at hv'

end Whole

/-! ## Folded constants -/

/-- A folded constant: its product is computed in 64 bits, and a size that is not known counts as none. -/
def FoldedOk (elem : LType) (n z : Int) : Prop :=
  n ≡ z [ZMOD 2 ^ 64] ∧ (n = 0 ∨ Laid false elem ∧ (lowerType elem).sizeBytes .lp64 ≠ none ∧
    -2 ^ 63 ≤ elem.allocSize * n ∧ elem.allocSize * n < 2 ^ 63)

theorem symbolOffset_eval {ρ : Valuation} (off : Int) :
    ((if 0 ≤ off then Expr.int ptrWidth off.toNat
      else Expr.mkBin .sub (.int ptrWidth 0) (.int ptrWidth (-off).toNat)).eval ρ : Int) ≡ off [ZMOD 2 ^ 64] := by
  split
  · next h =>
    have hint := int_eval (ρ := ρ) off.toNat
    rwa [Int.toNat_of_nonneg h] at hint
  · next h =>
    have hmod : (Expr.mkBin .sub (.int ptrWidth 0) (.int ptrWidth (-off).toNat)).eval ρ % 2 ^ 64 =
        BvOp.sub.eval 64 ((Expr.int ptrWidth 0).eval ρ) ((Expr.int ptrWidth (-off).toNat).eval ρ) :=
      mkBin_eval_mod (.inr (.inr (.inl (Nat.le_refl 64))))
    have hneg := int_eval (ρ := ρ) (-off).toNat
    rw [Int.toNat_of_nonneg (by omega)] at hneg
    have hzero : (Expr.int ptrWidth 0).eval ρ = 0 := rfl
    have hsub (k : Nat) : BvOp.sub.eval 64 0 k = (2 ^ 64 - k % 2 ^ 64) % 2 ^ 64 := by
      simp [BvOp.eval, BvOp.evalBv]
    rw [hzero, hsub] at hmod
    rw [Int.ModEq] at hneg ⊢
    omega

theorem folded_points {ρ : Valuation} {ctx : Ctx} {state : PathState} {ex : Explorer} {name : String} {elem : LType}
    {n z : Int} {rid align : Nat} (hok : FoldedOk elem n z) (hrid : ex.globalRids name = some (rid, align)) :
    ∃ op q, ctx.operand (.globalOff name elem n) 64 = .ok op ∧ evalPointer op state ex = (q, ex) ∧
      q.prov = .region rid ∧ (q.offset.eval ρ : Int) ≡ z * elem.allocSize [ZMOD 2 ^ 64] := by
  obtain ⟨hz, hok⟩ := hok
  -- the operand is the symbol with the product, or the symbol alone and the product is zero
  have hop : ∃ off : Int, off = n * elem.allocSize ∧
      (ctx.operand (.globalOff name elem n) 64 = .ok (.const (.symbolOffset name off)) ∨
        off = 0 ∧ ctx.operand (.globalOff name elem n) 64 = .ok (.const (.symbol name))) := by
    rcases hok with rfl | ⟨hl, hs, hlo, hhi⟩
    · refine ⟨0, (zero_mul _).symm, ?_⟩
      simp only [Ctx.operand]
      cases (lowerType elem).sizeBytes .lp64 with
      | some stride => exact .inl (by simp [Ctx.saturatingMulI128])
      | none => exact .inr ⟨trivial, rfl⟩
    · obtain ⟨size, hsize⟩ := Option.ne_none_iff_exists'.mp hs
      have heq := (laid_agrees elem hl hsize).size_eq
      have hsat : Ctx.saturatingMulI128 size n = elem.allocSize * n := by
        rw [Ctx.saturatingMulI128, heq]
        omega
      refine ⟨n * elem.allocSize, rfl, .inl ?_⟩
      simp only [Ctx.operand, hsize, hsat, if_pos (And.intro hlo hhi)]
      rw [mul_comm]
  obtain ⟨off, hoff, hop⟩ := hop
  have hval : off ≡ z * elem.allocSize [ZMOD 2 ^ 64] := hoff ▸ hz.mul_right _
  rcases hop with hop | ⟨rfl, hop⟩
  · have hp : evalPointer (.const (.symbolOffset name off)) state ex =
        (.mk (.region rid) (if 0 ≤ off then Expr.int ptrWidth off.toNat
          else Expr.mkBin .sub (.int ptrWidth 0) (.int ptrWidth (-off).toNat))
          (if 0 ≤ off ∧ off.toNat % align = 0 then align else 1) none, ex) := by
      simp only [evalPointer, evalValue, hrid, bind, StateT.bind]
      rfl
    exact ⟨_, _, hop, hp, rfl, (symbolOffset_eval off).trans hval⟩
  · have hp : evalPointer (.const (.symbol name)) state ex = (.mk (.region rid) (.int ptrWidth 0) align none, ex) := by
      simp only [evalPointer, evalValue, hrid, bind, StateT.bind]
      rfl
    exact ⟨_, _, hop, hp, rfl, (int_eval 0).trans hval⟩

/-! ## All forms -/

section All

variable {ρ : Valuation} {ctx : Ctx} {state : PathState} {ex : Explorer}

end All

/-! ### Two functions -/

/-- The pointer `%p` and the index `%i` of 32 bits, and the result `%q`. -/
def indexCtx : Ctx where
  regs name := if name = "p" then some 0 else if name = "i" then some 1 else if name = "q" then some 2 else none
  nextReg := 3

/-- `%i` has the value. -/
def indexState (i : Nat) : PathState where
  env r := if r = 0 then some (.ptr (.mk (.unknown .param (some 0)) (.int ptrWidth 0) 1 none))
    else if r = 1 then some (.scalar (.const 32 i)) else none
  regions := []
  pathcond := []
  facts := []
  heap := []
  exact := true

theorem indexState_ok (i n : Nat) : (indexState i).Ok n := by
  intro r v hv
  simp only [indexState] at hv
  split at hv
  · obtain rfl := Option.some.inj hv
    exact ⟨⟨trivial, Expr.below_int _ _ _⟩, rfl⟩
  · split at hv
    · obtain rfl := Option.some.inj hv
      intro p hp
      exact absurd hp (by simp [Expr.symbolsOf])
    · exact absurd hv (by simp)

theorem indexCtx_fits : indexCtx.Fits indexCtx.nextReg := by
  intro name r h
  simp only [indexCtx] at h ⊢
  split at h
  · exact (Option.some.inj h) ▸ by decide
  · split at h
    · exact (Option.some.inj h) ▸ by decide
    · split at h
      · exact (Option.some.inj h) ▸ by decide
      · exact absurd h (by simp)

theorem Lands.offset_eq {ρ : Valuation} {ctx : Ctx} {state : PathState} {ex : Explorer} {insts : List Inst}
    {dst : String} {base : LValue} {off : Int} {b : Operand} {d : RegId} {q : SymPointer}
    (h : Lands ρ ctx state ex insts dst base off) (hb : ctx.operand base 64 = .ok b) (hd : ctx.regs dst = some d)
    (hq : (runChain insts state ex).1.env d = some (.ptr q)) :
    (q.offset.eval ρ : Int) ≡ (evalPointer b state ex).1.offset.eval ρ + off [ZMOD 2 ^ 64] := by
  obtain ⟨b', d', state', ex', hb', hd', hrun, q', hq', -, -, hv⟩ := h
  obtain rfl := Except.ok.inj (hb.symm.trans hb')
  obtain rfl := Option.some.inj (hd.symm.trans hd')
  rw [hrun] at hq
  obtain rfl := SymValue.ptr.inj (Option.some.inj (hq.symm.trans hq'))
  exact hv

end Llvm

end Csolver
