import Csolver.Verifier.Fields

/-!
# Recorded fields along an execution

While a block is executed, what its scan has recorded is true of the registers and of memory: a tracked
register is at its offset from its root, and a recorded field holds a pointer that its guarantee
describes. Two things are not seen to by the scan and are asked of the execution: that a store that
records a field writes all of it, and that nothing else changes a field that stays recorded.
-/

namespace Csolver

open Lib

namespace Fields

open Contracts Program

/-! ## What one instruction of the scan does -/

section

variable {layout : DataLayout} {defs : Defs} {σ : Scan} {i : Inst}

/-- The instruction is a store to the field. -/
def StoresTo (defs : Defs) (σ : Scan) (i : Inst) (k : RegId × Nat) : Prop :=
  ∃ ty pr value volatile, i = .store ty (.reg pr) value volatile ∧ target defs σ pr = some k

theorem leak_slot {value : Operand} {k : RegId × Nat} {g : SiteGuarantee}
    (h : (σ.leak defs value).slot k = some g) : σ.slot k = some g := by
  cases value with
  | const c => exact h
  | reg vr =>
    simp only [Scan.leak] at h
    split at h
    · simp only at h
      split at h
      · exact absurd h (by simp)
      · exact h
    · exact h

theorem leak_fieldOf (value : Operand) : (σ.leak defs value).fieldOf = σ.fieldOf := by
  cases value with
  | const c => rfl
  | reg vr =>
    simp only [Scan.leak]
    split <;> rfl

theorem escape_slot {roots : List RegId} {k : RegId × Nat} {g : SiteGuarantee}
    (h : (σ.escape roots).slot k = some g) : σ.slot k = some g := by
  simp only [Scan.escape] at h
  split at h
  · exact absurd h (by simp)
  · exact h

theorem scanInst_slot {k : RegId × Nat} {g : SiteGuarantee} (h : (scanInst layout defs σ i).slot k = some g) :
    (∃ ty pr value volatile, i = .store ty (.reg pr) value volatile ∧ target defs σ pr = some k ∧
      stored defs value = some g) ∨ σ.slot k = some g ∧ ¬ StoresTo defs σ i k := by
  have hold (hs : σ.slot k = some g)
      (hno : ∀ ty pr value volatile, i ≠ .store ty (.reg pr) value volatile) :
      σ.slot k = some g ∧ ¬ StoresTo defs σ i k :=
    ⟨hs, fun ⟨ty, pr, value, volatile, heq, _⟩ => hno ty pr value volatile heq⟩
  have hclear (hs : σ.clear.slot k = some g) : False := absurd hs (by simp [Scan.clear])
  cases i with
  | ptrOffset dst base index elem =>
    refine .inr (hold ?_ (by simp))
    rw [scanInst.eq_def] at h
    split at h <;> try exact absurd h hclear
    all_goals simp_all [Scan.setField]
    split at h <;> (try split at h) <;> exact h
  | store ty ptr value volatile =>
    cases ptr with
    | const c => exact absurd h hclear
    | reg pr =>
      simp only [scanInst] at h
      split at h
      · next k' hk' =>
        by_cases hk : k = k'
        · subst hk
          refine .inl ⟨ty, pr, value, volatile, rfl, hk', ?_⟩
          simpa [Scan.setSlot] using h
        · refine .inr ⟨@leak_slot defs σ value k g ?_, ?_⟩
          · simpa [Scan.setSlot, hk] using h
          · rintro ⟨_, _, _, _, heq, htarget⟩
            obtain ⟨-, hpr, -, -⟩ := Inst.store.inj heq
            obtain rfl := Operand.reg.inj hpr
            exact hk (Option.some.inj (htarget.symm.trans hk'))
      · exact absurd h (by simp [Scan.clear])
  | call dst c args => exact .inr (hold (escape_slot h) (by simp))
  | memIntrinsic dst src len =>
    refine .inr (hold ?_ (by simp))
    cases dst with
    | const c => exact absurd h hclear
    | reg d =>
      simp only [scanInst] at h
      split at h
      · exact escape_slot h
      · exact absurd h hclear
  | intrinsic dst name args => exact absurd h hclear
  | dealloc region ptr => exact absurd h hclear
  | _ => exact .inr (hold h (by simp))

theorem delta_const {index : Operand} {elem : Ty} {d : Nat} (h : delta layout index elem = some d) :
    ∃ bv, index = .const (.int bv) := by
  cases index with
  | reg r => exact absurd h (by simp [delta])
  | const c =>
    cases c with
    | int bv => exact ⟨bv, rfl⟩
    | _ => exact absurd h (by simp [delta])

theorem scanInst_fieldOf {r : RegId} {k : RegId × Nat} (h : (scanInst layout defs σ i).fieldOf r = some k) :
    σ.fieldOf r = some k ∨ ∃ base bv elem d, i = .ptrOffset r (.reg base) (.const (.int bv)) elem ∧
      delta layout (.const (.int bv)) elem = some d ∧
      ((∃ root d₀, σ.fieldOf base = some (root, d₀) ∧ k = (root, d₀ + d)) ∨
        (defs base).isSome = true ∧ k = (base, d)) := by
  have hset {dst : RegId} {k' : RegId × Nat} (h : (σ.setField dst k').fieldOf r = some k) :
      σ.fieldOf r = some k ∨ r = dst ∧ k = k' := by
    simp only [Scan.setField] at h
    split at h
    · next heq => exact .inr ⟨heq, (Option.some.inj h).symm⟩
    · exact .inl h
  cases i with
  | ptrOffset dst base index elem =>
    cases base with
    | const c => exact .inl h
    | reg base =>
      simp only [scanInst] at h
      cases hd : delta layout index elem with
      | none =>
        rw [hd] at h
        exact .inl h
      | some d =>
        obtain ⟨bv, rfl⟩ := delta_const hd
        cases hfield : σ.fieldOf base with
        | some k' =>
          simp only [hd, hfield] at h
          split at h
          · next total htotal =>
            rcases hset h with hold | ⟨rfl, rfl⟩
            · exact .inl hold
            · obtain rfl := eq_of_checkedU64 htotal
              exact .inr ⟨base, bv, elem, d, rfl, hd, .inl ⟨k'.1, k'.2, hfield, rfl⟩⟩
          · exact .inl h
        | none =>
          cases hdefs : (defs base).isSome with
          | false =>
            simp only [hd, hfield, hdefs] at h
            exact .inl h
          | true =>
            simp only [hd, hfield, hdefs] at h
            rcases hset h with hold | ⟨rfl, rfl⟩
            · exact .inl hold
            · exact .inr ⟨base, bv, elem, d, rfl, hd, .inr ⟨hdefs, rfl⟩⟩
  | store ty ptr value volatile =>
    refine .inl ?_
    cases ptr with
    | const c => exact h
    | reg pr =>
      simp only [scanInst] at h
      split at h
      · exact (congrFun (leak_fieldOf value) r).symm.trans h
      · exact (congrFun (leak_fieldOf value) r).symm.trans h
  | memIntrinsic dst src len =>
    refine .inl ?_
    cases dst with
    | const c => exact h
    | reg d =>
      simp only [scanInst] at h
      split at h <;> exact h
  | _ => exact .inl h

/-- The registers that the scan speaks of. -/
inductive Used (σ : Scan) : RegId → Prop
  | field {r : RegId} {k : RegId × Nat} : σ.fieldOf r = some k → Used σ r
  | root {r : RegId} {k : RegId × Nat} : σ.fieldOf r = some k → Used σ k.1
  | slot {k : RegId × Nat} {g : SiteGuarantee} : σ.slot k = some g → Used σ k.1

theorem scan_snoc (pre : List Inst) (i : Inst) :
    scan layout defs (pre ++ [i]) = scanInst layout defs (scan layout defs pre) i := by
  rw [scan, List.foldl_append]
  rfl

theorem used_seen {pre : List Inst} {r : RegId} (h : Used (scan layout defs pre) r) :
    (∃ j ∈ pre, .reg r ∈ j.operands) ∨ ∃ j ∈ pre, Places j ∧ r ∈ j.writes := by
  induction pre using List.reverseRecOn generalizing r with
  | nil => cases h with
    | field h => exact absurd h (by simp [scan, Scan.empty])
    | root h => exact absurd h (by simp [scan, Scan.empty])
    | slot h => exact absurd h (by simp [scan, Scan.empty])
  | append_singleton pre i ih =>
    have hold {r : RegId} (h : Used (scan layout defs pre) r) :
        (∃ j ∈ pre ++ [i], .reg r ∈ j.operands) ∨ ∃ j ∈ pre ++ [i], Places j ∧ r ∈ j.writes := by
      rcases ih h with ⟨j, hj, hr⟩ | ⟨j, hj, hr⟩
      · exact .inl ⟨j, List.mem_append_left _ hj, hr⟩
      · exact .inr ⟨j, List.mem_append_left _ hj, hr⟩
    have hlast : i ∈ pre ++ [i] := by simp
    rw [scan_snoc] at h
    cases h with
    | field h =>
      rcases scanInst_fieldOf h with h | ⟨base, bv, elem, d, rfl, _⟩
      · exact hold (.field h)
      · exact .inr ⟨_, hlast, trivial, List.mem_singleton.mpr rfl⟩
    | root h =>
      rcases scanInst_fieldOf h with h | ⟨base, bv, elem, d, rfl, _, ⟨root, d₀, hfield, rfl⟩ | ⟨_, rfl⟩⟩
      · exact hold (.root h)
      · exact hold (Used.root (k := (root, d₀)) hfield)
      · exact .inl ⟨_, hlast, List.mem_cons_self⟩
    | slot h =>
      rcases scanInst_slot h with ⟨ty, pr, value, volatile, rfl, htarget, _⟩ | ⟨h, _⟩
      · rcases Option.or_eq_some_iff.mp htarget with hfield | ⟨_, hroot⟩
        · exact hold (.root hfield)
        · split at hroot
          · obtain rfl := Option.some.inj hroot
            exact .inl ⟨_, hlast, List.mem_cons_self⟩
          · exact absurd hroot (by simp)
      · exact hold (.slot h)

end

/-- In strict SSA no instruction of a block writes a register that an instruction up to it reads or that
    an earlier one places. -/
def LocalSsa (f : Func) : Prop :=
  ∀ b ∈ f.blocks, ∀ pre i post, b.insts = pre ++ i :: post → ∀ r ∈ i.writes,
    (∀ j ∈ pre ++ [i], .reg r ∉ j.operands) ∧ ∀ j ∈ pre, Places j → r ∉ j.writes

theorem LocalSsa.not_used {f : Func} (hf : LocalSsa f) {b : BasicBlock} (hb : b ∈ f.blocks)
    {pre : List Inst} {i : Inst} {post : List Inst} (hsplit : b.insts = pre ++ i :: post)
    {layout : DataLayout} {defs : Defs} {r : RegId} (h : Used (scan layout defs pre) r) : r ∉ i.writes := by
  intro hr
  obtain ⟨hreads, hplaces⟩ := hf b hb pre i post hsplit r hr
  rcases used_seen h with ⟨j, hj, hop⟩ | ⟨j, hj, hp, hw⟩
  · exact hreads j (List.mem_append_left _ hj) hop
  · exact hplaces j hj hp hw

/-! ## The scan and the machine -/

/-- A pointer of `n` bytes is stored at the place. -/
def HoldsAt (n : Nat) (h : Heap) (b : Nat) (off : Int) (w : Val) : Prop :=
  ∀ j < n, h.bytes b (off + (j : Nat)) = some (w, j)

/-- What the scan says is true of the registers and of memory. -/
structure ScanOk (n : Nat) (σ : Scan) (regs : Program.Regs) (h : Heap) : Prop where
  fields : ∀ r k, σ.fieldOf r = some k → ∀ v, regs r = some v →
    ∃ b o, regs k.1 = some (.ptr b o) ∧ v = .ptr b (o + (k.2 : Nat))
  slots : ∀ k g, σ.slot k = some g →
    ∃ b o w, regs k.1 = some (.ptr b o) ∧ HoldsAt n h b (o + (k.2 : Nat)) w ∧ Placed g w h

theorem scanOk_empty (n : Nat) (regs : Program.Regs) (h : Heap) : ScanOk n .empty regs h :=
  ⟨fun _ _ hk => absurd hk (by simp [Scan.empty]), fun _ _ hk => absurd hk (by simp [Scan.empty])⟩

/-- The bytes of a field are the same. -/
def SameField (n : Nat) (regs : Program.Regs) (h h' : Heap) (k : RegId × Nat) : Prop :=
  ∀ b o, regs k.1 = some (.ptr b o) → ∀ j < n,
    h'.bytes b (o + (k.2 : Nat) + (j : Nat)) = h.bytes b (o + (k.2 : Nat) + (j : Nat))

theorem ScanOk.keep {n : Nat} {σ σ' : Scan} {regs regs' : Program.Regs} {h h' : Heap} (hok : ScanOk n σ regs h)
    (he : h.Evolves h') (hfield : ∀ r k, σ'.fieldOf r = some k → σ.fieldOf r = some k)
    (hslot : ∀ k g, σ'.slot k = some g → σ.slot k = some g) (hregs : ∀ r, Used σ r → regs' r = regs r)
    (hbytes : ∀ k g, σ'.slot k = some g → SameField n regs' h h' k) : ScanOk n σ' regs' h' := by
  refine ⟨fun r k hk v hv => ?_, fun k g hk => ?_⟩
  · have hk' := hfield r k hk
    rw [hregs r (.field hk')] at hv
    obtain ⟨b, o, hroot, rfl⟩ := hok.fields r k hk' v hv
    exact ⟨b, o, (hregs _ (.root hk')).trans hroot, rfl⟩
  · have hk' := hslot k g hk
    obtain ⟨b, o, w, hroot, hholds, hplaced⟩ := hok.slots k g hk'
    have hroot' := (hregs _ (.slot hk')).trans hroot
    refine ⟨b, o, w, hroot', fun j hj => ?_, hplaced.evolves he⟩
    rw [hbytes k g hk b o hroot' j hj]
    exact hholds j hj

/-! ## Frames -/

theorem Derived.without_hints {M : Module} {prior : Overlay} {avp : Bool} {f : FuncId × Func} {r : RegId}
    {g : SiteGuarantee} (h : Derived M prior false f r g) : Derived M prior avp f r g := by
  induction h with
  | hint havp _ => exact absurd havp (by simp)
  | param hp hc => exact .param hp hc
  | alloc hi hg => exact .alloc hi hg
  | offset hi _ hg ih => exact .offset hi ih hg

section Frames

variable (M : Module) (params : Overlay)

/-- The table that the scan of a function uses. -/
def defsOf (F : Frame) : Defs := localDefs M params false (F.id, F.fn)

/-- What is left of the block. A call that code outside has entered the module from counts as run. -/
def left (F : Frame) : List Inst := if F.busy then F.rest.tail else F.rest

/-- The scan of what has been run of the block. -/
def scanOf (F : Frame) : Scan :=
  scan M.layout (defsOf M params F) (F.blk.insts.take (F.blk.insts.length - (left F).length))

/-- What a function promises to the scan: strict SSA, and that pointers are stored whole. -/
structure FieldsFormed : Prop where
  ssa : ∀ f ∈ M.functions, LocalSsa f.2
  whole : ∀ f ∈ M.functions, ∀ ty ptr vr volatile, .store ty ptr (.reg vr) volatile ∈ insts f.2 →
    (localDefs M params false f vr).isSome = true → M.layout.pointerSize ≤ (ty.sizeBytes M.layout).getD 0

/-- The next instruction of the frame is a store to the field. -/
def Stores (F : Frame) (k : RegId × Nat) : Prop :=
  ∃ i is, F.rest = i :: is ∧ StoresTo (defsOf M params F) (scanOf M params F) i k

/-- A step changes no field that an active function has recorded after it, but by the store that records
    the field. -/
structure StepOk (s s' : State) : Prop where
  top : ∀ F st F' st', s.stack = F :: st → s'.stack = F' :: st' → ∀ k g,
    (scanOf M params F').slot k = some g → ¬ Stores M params F k →
    SameField M.layout.pointerSize F'.regs s.heap s'.heap k
  below : ∀ F' ∈ s'.stack.tail, ∀ k g, (scanOf M params F').slot k = some g →
    SameField M.layout.pointerSize F'.regs s.heap s'.heap k

/-- A frame in which what the scan has recorded is true. -/
structure FrameFields (address : Symbols) (h : Heap) (F : Frame) : Prop where
  split : ∃ pre, F.blk.insts = pre ++ left F
  busy : F.busy = true → ∃ dst c args is, F.rest = .call dst c args :: is ∧ ∀ g, ¬ Enters address M F.regs c g
  ok : ScanOk M.layout.pointerSize (scanOf M params F) F.regs h

/-- The result of a frame goes to the call that its caller has just run. -/
def FieldLinked (F G : Frame) : Prop :=
  ∀ d, F.dst = some d → G.busy = false ∧ ∃ pre c args, G.blk.insts = pre ++ .call (some d) c args :: G.rest

variable {M params} {address : Symbols}

theorem scanOf_eq {F : Frame} {pre : List Inst} (h : F.blk.insts = pre ++ left F) :
    scanOf M params F = scan M.layout (defsOf M params F) pre := by
  rw [scanOf, h, List.length_append, Nat.add_sub_cancel_right, List.take_left]

theorem left_of_idle {F : Frame} (h : F.busy = false) : left F = F.rest := by
  rw [left, h]
  rfl

theorem FrameFields.fresh {h : Heap} {F : Frame} (hrest : F.rest = F.blk.insts) (hbusy : F.busy = false) :
    FrameFields M params address h F := by
  have hleft : F.blk.insts = [] ++ left F := by rw [left_of_idle hbusy, hrest, List.nil_append]
  refine ⟨⟨[], hleft⟩, fun hb => absurd (hbusy.symm.trans hb) (by simp), ?_⟩
  rw [scanOf_eq hleft]
  exact scanOk_empty _ _ _

theorem FrameFields.keep {h h' : Heap} {F : Frame} (hF : FrameFields M params address h F) (he : h.Evolves h')
    (hsame : ∀ k g, (scanOf M params F).slot k = some g →
      SameField M.layout.pointerSize F.regs h h' k) : FrameFields M params address h' F :=
  ⟨hF.split, hF.busy, hF.ok.keep he (fun _ _ hk => hk) (fun _ _ hk => hk) (fun _ _ => rfl) hsame⟩

theorem FrameFields.idle {h : Heap} {F : Frame} (hF : FrameFields M params address h F)
    (hrest : ∀ dst c args is, F.rest = .call dst c args :: is → ∃ g, Enters address M F.regs c g) :
    F.busy = false := by
  cases hbusy : F.busy with
  | false => rfl
  | true =>
    obtain ⟨dst, c, args, is, heq, hnone⟩ := hF.busy hbusy
    obtain ⟨g, hg⟩ := hrest dst c args is heq
    exact absurd hg (hnone g)

theorem call_sub {layout : DataLayout} {defs : Defs} {σ : Scan} {dst : Option RegId} {c : Callee}
    {args : List Operand} :
    (∀ r k, (scanInst layout defs σ (.call dst c args)).fieldOf r = some k → σ.fieldOf r = some k) ∧
      ∀ k g, (scanInst layout defs σ (.call dst c args)).slot k = some g → σ.slot k = some g :=
  ⟨fun _ _ h => h, fun _ _ h => escape_slot h⟩

theorem FrameFields.call {h : Heap} {F : Frame} (hF : FrameFields M params address h F)
    (hsuf : F.rest <:+ F.blk.insts) {dst : Option RegId} {c : Callee} {args : List Operand} {is : List Inst}
    (hrest : F.rest = .call dst c args :: is) :
    ∃ pre, F.blk.insts = pre ++ .call dst c args :: is ∧
      ScanOk M.layout.pointerSize (scan M.layout (defsOf M params F) (pre ++ [.call dst c args])) F.regs h := by
  obtain ⟨pre, hpre⟩ := hsuf
  rw [hrest] at hpre
  refine ⟨pre, hpre.symm, ?_⟩
  have hok := hF.ok
  cases hbusy : F.busy with
  | true =>
    have hleft : F.blk.insts = (pre ++ [.call dst c args]) ++ left F := by
      rw [left, hbusy, if_pos rfl, hrest, List.append_assoc]
      exact hpre.symm
    rwa [scanOf_eq hleft] at hok
  | false =>
    have hleft : F.blk.insts = pre ++ left F := by
      rw [left_of_idle hbusy, hrest]
      exact hpre.symm
    rw [scanOf_eq hleft] at hok
    rw [scan_snoc]
    exact hok.keep (.refl h) call_sub.1 call_sub.2 (fun _ _ => rfl) fun _ _ _ _ _ _ _ _ => rfl

theorem LocalSsa.not_used_call {f : Func} (hf : LocalSsa f) {b : BasicBlock} (hb : b ∈ f.blocks)
    {pre post : List Inst} {d : RegId} {c : Callee} {args : List Operand}
    (hsplit : b.insts = pre ++ .call (some d) c args :: post) {layout : DataLayout} {defs : Defs} {r : RegId}
    (h : Used (scan layout defs (pre ++ [.call (some d) c args])) r) : r ≠ d := by
  rintro rfl
  obtain ⟨hreads, hplaces⟩ := hf b hb pre _ post hsplit r (List.mem_singleton.mpr rfl)
  rcases used_seen h with ⟨j, hj, hop⟩ | ⟨j, hj, hp, hw⟩
  · exact hreads j hj hop
  · rcases List.mem_append.mp hj with hj | hj
    · exact hplaces j hj hp hw
    · rw [List.mem_singleton.mp hj] at hp
      exact hp

theorem split_advance {F : Frame} {pre : List Inst} {i : Inst} {is : List Inst}
    (hsplit : F.blk.insts = pre ++ i :: is) (hleft : left F = is) :
    F.blk.insts = (pre ++ [i]) ++ left F := by
  rw [hleft, hsplit, List.append_assoc]
  rfl

theorem FrameFields.advance {h : Heap} {F : Frame} {pre : List Inst} {i : Inst} {is : List Inst}
    (hsplit : F.blk.insts = pre ++ i :: is) (hleft : left F = is)
    (hbusy : F.busy = true → ∃ dst c args is, F.rest = .call dst c args :: is ∧
      ∀ g, ¬ Enters address M F.regs c g)
    (hok : ScanOk M.layout.pointerSize (scan M.layout (defsOf M params F) (pre ++ [i])) F.regs h) :
    FrameFields M params address h F := by
  refine ⟨⟨_, split_advance hsplit hleft⟩, hbusy, ?_⟩
  rw [scanOf_eq (split_advance hsplit hleft)]
  exact hok

variable {avp : Bool} {widths : FuncId → RegId → Nat}

theorem placed_of_defs {h : Heap} {F : Frame} (hF : FrameOk M params avp h F) {r : RegId} {g : SiteGuarantee}
    (hg : defsOf M params F r = some g) {v : Val} (hv : F.regs r = some v) : Placed g v h :=
  hF.placed r g (Derived.without_hints (localDefs_derived r g hg)) v hv

theorem ptr_of_defs {h : Heap} {F : Frame} (hF : FrameOk M params avp h F) {r : RegId}
    (hr : (defsOf M params F r).isSome = true) {v : Val} (hv : F.regs r = some v) : ∃ b off, v = .ptr b off := by
  obtain ⟨g, hg⟩ := Option.isSome_iff_exists.mp hr
  obtain ⟨b, off, _, hptr, _⟩ := placed_of_defs hF hg hv
  exact ⟨b, off, hptr⟩

theorem delta_eq {layout : DataLayout} {bv : BitVector} {elem : Ty} {d : Nat}
    (h : delta layout (.const (.int bv)) elem = some d) :
    ∃ size, elem.sizeBytes layout = some size ∧ d = bv.value * size := by
  simp only [delta, Option.bind_eq_bind, Option.bind_eq_some_iff] at h
  obtain ⟨n, hn, size, hsize, hd⟩ := h
  refine ⟨size, hsize, ?_⟩
  rw [eq_of_checkedU64 hd, eq_of_checkedU64 hn]

theorem target_place {h : Heap} {F : Frame} (hF : FrameOk M params avp h F) {σ : Scan}
    (hok : ScanOk M.layout.pointerSize σ F.regs h) {pr : RegId} {k : RegId × Nat}
    (ht : target (defsOf M params F) σ pr = some k) {v : Val} (hv : F.regs pr = some v) :
    ∃ b o, F.regs k.1 = some (.ptr b o) ∧ v = .ptr b (o + (k.2 : Nat)) := by
  rcases Option.or_eq_some_iff.mp ht with hfield | ⟨_, hroot⟩
  · exact hok.fields pr k hfield v hv
  · split at hroot
    · next hdefs =>
      obtain rfl := Option.some.inj hroot
      obtain ⟨b, off, rfl⟩ := ptr_of_defs hF hdefs hv
      exact ⟨b, off, hv, by simp⟩
    · exact absurd hroot (by simp)

theorem exec_fields {h h' : Heap} {F : Frame} (hM : FieldsFormed M params) (hF : FrameOk M params avp h F)
    {pre is : List Inst} {i : Inst} (hsplit : F.blk.insts = pre ++ i :: is)
    (hok : ScanOk M.layout.pointerSize (scan M.layout (defsOf M params F) pre) F.regs h)
    {regs' : Program.Regs} {bs : List Nat} (he : Exec M.layout (widths F.id) address i F.regs h regs' h' bs)
    (hoff : ∀ dst b bv elem, i = .ptrOffset dst (.reg b) (.const (.int bv)) elem → OffsetOk M bv elem)
    {r : RegId} {k : RegId × Nat}
    (hk : (scan M.layout (defsOf M params F) (pre ++ [i])).fieldOf r = some k) {v : Val}
    (hv : regs' r = some v) : ∃ b o, regs' k.1 = some (.ptr b o) ∧ v = .ptr b (o + (k.2 : Nat)) := by
  have hssa := hM.ssa _ hF.mem
  have hsame {q : RegId} (hq : Used (scan M.layout (defsOf M params F) pre) q) : regs' q = F.regs q :=
    he.regs_eq (hssa.not_used hF.blk hsplit hq)
  rw [scan_snoc] at hk
  rcases scanInst_fieldOf hk with hk | ⟨base, bv, elem, d, rfl, hd, hcase⟩
  · rw [hsame (.field hk)] at hv
    obtain ⟨b, o, hroot, rfl⟩ := hok.fields r k hk v hv
    exact ⟨b, o, (hsame (.root hk)).trans hroot, rfl⟩
  · obtain ⟨size, hsize, rfl⟩ := delta_eq hd
    -- the base is a pointer, so the instruction moves it
    have hptr {x : Val} (hx : F.regs base = some x) : ∃ b off, x = .ptr b off := by
      rcases hcase with ⟨root, d₀, hfield, _⟩ | ⟨hdefs, _⟩
      · obtain ⟨b, o, _, hptr⟩ := hok.fields base _ hfield x hx
        exact ⟨b, _, hptr⟩
      · exact ptr_of_defs hF hdefs hx
    cases he with
    | moveNum hx hne =>
      obtain ⟨b, off, rfl⟩ := hptr hx
      exact absurd rfl (hne b off)
    | other _ _ hnp _ _ _ _ _ => exact absurd rfl (hnp _ _ _ _)
    | move hb hidx =>
      next b idx off =>
      obtain rfl := Val.num.inj hidx
      have hmoved : v = .ptr b (off + ((bv.value * size : Nat) : Int)) := by
        rw [← moved_eq (hoff _ _ _ _ rfl) hsize]
        exact (Option.some.inj ((if_pos rfl).symm.trans hv)).symm
      subst hmoved
      rcases hcase with ⟨root, d₀, hfield, rfl⟩ | ⟨hdefs, rfl⟩
      · obtain ⟨b', o, hroot, heq⟩ := hok.fields base _ hfield _ hb
        obtain ⟨rfl, rfl⟩ := Val.ptr.inj heq
        refine ⟨b, o, (hsame (Used.root (k := (root, d₀)) hfield)).trans hroot, ?_⟩
        rw [add_assoc, Nat.cast_add]
      · have hne : base ≠ r := by
          rintro rfl
          obtain ⟨hreads, _⟩ := hssa _ hF.blk pre _ is hsplit base (List.mem_singleton.mpr rfl)
          exact hreads _ (List.mem_append_right _ (List.mem_singleton.mpr rfl)) List.mem_cons_self
        exact ⟨b, off, (if_neg hne).trans hb, rfl⟩

theorem exec_slots {h h' : Heap} {F : Frame} (hM : FieldsFormed M params) (hF : FrameOk M params avp h F)
    {pre is : List Inst} {i : Inst} (hsplit : F.blk.insts = pre ++ i :: is)
    (hok : ScanOk M.layout.pointerSize (scan M.layout (defsOf M params F) pre) F.regs h)
    {regs' : Program.Regs} {bs : List Nat} (he : Exec M.layout (widths F.id) address i F.regs h regs' h' bs)
    {k : RegId × Nat} {g : SiteGuarantee}
    (hk : (scan M.layout (defsOf M params F) (pre ++ [i])).slot k = some g)
    (hsame : ¬ StoresTo (defsOf M params F) (scan M.layout (defsOf M params F) pre) i k →
      SameField M.layout.pointerSize regs' h h' k) :
    ∃ b o w, regs' k.1 = some (.ptr b o) ∧ HoldsAt M.layout.pointerSize h' b (o + (k.2 : Nat)) w ∧
      Placed g w h' := by
  rw [scan_snoc] at hk
  rcases scanInst_slot hk with ⟨ty, pr, value, volatile, rfl, htarget, hstored⟩ | ⟨hk, hno⟩
  · cases value with
    | const c => exact absurd hstored (by simp [stored])
    | reg vr =>
      have hi : .store ty (.reg pr) (.reg vr) volatile ∈ insts F.fn := mem_insts hF.blk (by simp [hsplit])
      have hwhole := hM.whole _ hF.mem ty (.reg pr) vr volatile hi (Option.isSome_iff_exists.mpr ⟨g, hstored⟩)
      cases he with
      | storeNum hx hne _ =>
        obtain ⟨b, o, _, rfl⟩ := target_place hF hok htarget hx
        exact absurd rfl (hne _ _)
      | other _ _ _ hns _ _ _ _ => exact absurd rfl (hns _ _ _ _)
      | store hptr hval =>
        next b off v =>
        obtain ⟨b', o, hroot, heq⟩ := target_place hF hok htarget hptr
        obtain ⟨rfl, rfl⟩ := Val.ptr.inj heq
        refine ⟨b, o, v, hroot, fun j hj => ?_, ?_⟩
        · have hlt : (j : Int) < ((ty.sizeBytes M.layout).getD 0 : Nat) := by
            exact_mod_cast lt_of_lt_of_le hj hwhole
          rw [Heap.store]
          simp only
          rw [if_pos ⟨trivial, by omega, by omega⟩, add_sub_cancel_left, Int.toNat_natCast]
        · exact (placed_of_defs hF hstored hval).evolves (Heap.evolves_of_blocks rfl)
  · obtain ⟨b, o, w, hroot, hholds, hplaced⟩ := hok.slots k g hk
    have hroot' : regs' k.1 = some (.ptr b o) :=
      (he.regs_eq ((hM.ssa _ hF.mem).not_used hF.blk hsplit (.slot hk))).trans hroot
    refine ⟨b, o, w, hroot', fun j hj => ?_, hplaced.evolves he.evolves⟩
    rw [hsame hno b o hroot' j hj]
    exact hholds j hj

/-! ## Steps -/

variable (M params address) in
/-- What every active function has recorded is true. -/
structure FieldsOk (s : State) : Prop where
  frames : ∀ F ∈ s.stack, FrameFields M params address s.heap F
  linked : s.stack.IsChain FieldLinked

variable {closedWorld : Bool} {outside : Outside}

theorem FieldLinked.of_top {F F' : Frame} {st : List Frame} (hdst : F'.dst = F.dst)
    (h : (F :: st).IsChain FieldLinked) : (F' :: st).IsChain FieldLinked := by
  cases st with
  | nil => exact .singleton F'
  | cons G st =>
    obtain ⟨hfg, hrest⟩ := List.isChain_cons_cons.mp h
    exact List.isChain_cons_cons.mpr ⟨fun d hd => hfg d (hdst ▸ hd), hrest⟩

theorem FieldsOk.below {h h' : Heap} {F F' : Frame} {st : List Frame}
    (hI : FieldsOk M params address ⟨h, F :: st⟩) (he : h.Evolves h')
    (hkept : StepOk M params ⟨h, F :: st⟩ ⟨h', F' :: st⟩) : ∀ G ∈ st, FrameFields M params address h' G :=
  fun G hG => (hI.frames G (List.mem_cons_of_mem F hG)).keep he fun k g hk => hkept.below G hG k g hk

theorem not_stores {F : Frame} {k : RegId × Nat}
    (h : ∀ ty ptr value volatile is, F.rest ≠ .store ty ptr value volatile :: is) : ¬ Stores M params F k := by
  rintro ⟨i, is, hrest, ty, pr, value, volatile, rfl, _⟩
  exact h ty (.reg pr) value volatile is hrest

theorem FieldsOk.inst (hM : FieldsFormed M params) {h h' : Heap} {F : Frame} {st : List Frame} {i : Inst}
    {is : List Inst} {regs' : Program.Regs} {bs : List Nat} (hS : StackOk M params avp ⟨h, F :: st⟩)
    (hok : StateOk M closedWorld avp address ⟨h, F :: st⟩) (hI : FieldsOk M params address ⟨h, F :: st⟩)
    (hrest : F.rest = i :: is) (he : Exec M.layout (widths F.id) address i F.regs h regs' h' bs)
    (hkept : StepOk M params ⟨h, F :: st⟩
      ⟨h', { F with rest := is, regs := regs', owned := bs ++ F.owned } :: st⟩) :
    FieldsOk M params address ⟨h', { F with rest := is, regs := regs', owned := bs ++ F.owned } :: st⟩ := by
  have hF := hS.frames F List.mem_cons_self
  have hIF := hI.frames F List.mem_cons_self
  have hidle : F.busy = false := by
    refine hIF.idle fun dst c args is' heq => ?_
    obtain ⟨rfl, _⟩ := List.cons.inj (hrest.symm.trans heq)
    cases he with
    | other _ _ _ _ hnc _ _ _ => exact absurd rfl (hnc dst c args)
  obtain ⟨pre, hpre⟩ := hIF.split
  have hscan : scanOf M params F = scan M.layout (defsOf M params F) pre := scanOf_eq hpre
  rw [left_of_idle hidle, hrest] at hpre
  have hok' := hIF.ok
  rw [hscan] at hok'
  -- the frame after the step is one instruction further
  have hadv : scanOf M params { F with rest := is, regs := regs', owned := bs ++ F.owned } =
      scan M.layout (defsOf M params F) (pre ++ [i]) := scanOf_eq (split_advance hpre (left_of_idle hidle))
  refine ⟨List.forall_mem_cons.mpr ⟨?_, hI.below he.evolves hkept⟩, FieldLinked.of_top (F := F) rfl hI.linked⟩
  refine FrameFields.advance hpre (left_of_idle hidle) (fun hb => absurd (hidle.symm.trans hb) (by simp)) ?_
  refine ⟨fun r k hk v hv => ?_, fun k g hk => ?_⟩
  · refine exec_fields hM hF hpre hok' he (fun dst b bv elem heq => ?_) hk hv
    exact hok.offsets F st dst b bv elem is rfl (heq ▸ hrest)
  · refine exec_slots hM hF hpre hok' he hk fun hno => ?_
    refine hkept.top F st _ st rfl rfl k g (hadv ▸ hk) ?_
    rintro ⟨j, js, hjs, hstores⟩
    obtain ⟨rfl, _⟩ := List.cons.inj (hrest.symm.trans hjs)
    exact hno (hscan ▸ hstores)

theorem FieldsOk.step (hM : FieldsFormed M params) {s s' : State} (hS : StackOk M params avp s)
    (hok : StateOk M closedWorld avp address s) (hI : FieldsOk M params address s)
    (hstep : Step address M widths outside s s') (hkept : StepOk M params s s') :
    FieldsOk M params address s' := by
  have hev := hstep.evolves
  cases hstep with
  | inst hrest he => exact hI.inst hM hS hok hrest he hkept
  | jump hrest hgoes hblk hvals =>
    next h F st target args tb vals =>
    have hidle : F.busy = false :=
      (hI.frames F List.mem_cons_self).idle fun dst c args is heq => absurd (hrest.symm.trans heq) (by simp)
    refine ⟨List.forall_mem_cons.mpr ⟨?_, hI.below hev hkept⟩, FieldLinked.of_top (F := F) rfl hI.linked⟩
    exact FrameFields.fresh rfl hidle
  | call hrest hent hvals hG =>
    next h F G st dst c args is g vals =>
    have hIF := hI.frames F List.mem_cons_self
    have hidle : F.busy = false := by
      refine hIF.idle fun dst' c' args' is' heq => ?_
      obtain ⟨heq, _⟩ := List.cons.inj (hrest.symm.trans heq)
      obtain ⟨rfl, rfl, rfl⟩ := Inst.call.inj heq
      exact ⟨g, hent⟩
    obtain ⟨pre, hpre, hok'⟩ := hIF.call (hS.frames F List.mem_cons_self).rest hrest
    have hF' : FrameFields M params address h { F with rest := is } :=
      .advance hpre (left_of_idle hidle) (fun hb => absurd (hidle.symm.trans hb) (by simp)) hok'
    have hbelow (F₀ : Frame) (hF₀ : F₀ ∈ st) : FrameFields M params address h F₀ :=
      hI.frames F₀ (List.mem_cons_of_mem F hF₀)
    refine ⟨List.forall_mem_cons.mpr ⟨.fresh hG.rest hG.busy, List.forall_mem_cons.mpr ⟨hF', hbelow⟩⟩, ?_⟩
    refine List.isChain_cons_cons.mpr ⟨fun d hd => ?_, FieldLinked.of_top (F := F) rfl hI.linked⟩
    obtain rfl : dst = some d := hG.dst.symm.trans hd
    exact ⟨hidle, pre, c, args, hpre⟩
  | ret hrest hterm hregs =>
    next h F G st value regs' =>
    have hGin : G ∈ F :: G :: st := List.mem_cons_of_mem F List.mem_cons_self
    have hIG := hI.frames G hGin
    obtain ⟨hfg, hchain⟩ := List.isChain_cons_cons.mp hI.linked
    have hbelow (G' : Frame) (hG' : G' ∈ st) : FrameFields M params address (h.freeAll F.owned) G' :=
      (hI.frames G' (List.mem_cons_of_mem F (List.mem_cons_of_mem G hG'))).keep hev
        fun k g hk => hkept.below G' hG' k g hk
    -- the caller's recorded registers are not where the result goes
    have hused (r : RegId) (hr : Used (scanOf M params G) r) : regs' r = G.regs r := by
      apply hregs
      intro hd
      obtain ⟨hidle, pre, c, args, hpre⟩ := hfg r hd
      have hGok := hS.frames G hGin
      rw [scanOf_eq (split_advance hpre (left_of_idle hidle))] at hr
      exact (hM.ssa _ hGok.mem).not_used_call hGok.blk hpre hr rfl
    refine ⟨List.forall_mem_cons.mpr ⟨?_, hbelow⟩, FieldLinked.of_top (F := G) rfl hchain⟩
    refine ⟨hIG.split, fun hb => ?_, ?_⟩
    · have hnone (r : RegId) : F.dst ≠ some r := by
        intro hd
        exact absurd ((hfg r hd).1.symm.trans hb) (by simp)
      have hsame : regs' = G.regs := funext fun r => hregs r (hnone r)
      rw [hsame]
      exact hIG.busy hb
    · refine hIG.ok.keep hev (fun _ _ hk => hk) (fun _ _ hk => hk) hused fun k g hk => ?_
      refine hkept.top F (G :: st) _ st rfl rfl k g hk (not_stores fun _ _ _ _ _ heq => ?_)
      exact absurd (hrest.symm.trans heq) (by simp)
  | outside hrest hnone he hregs =>
    next h h' F st dst c args is regs' =>
    have hFok := hS.frames F List.mem_cons_self
    obtain ⟨pre, hpre, hok'⟩ := (hI.frames F List.mem_cons_self).call hFok.rest hrest
    have hused (r : RegId) (hr : Used (scan M.layout (defsOf M params F) (pre ++ [.call dst c args])) r) :
        regs' r = F.regs r := by
      apply hregs
      rintro rfl
      exact (hM.ssa _ hFok.mem).not_used_call hFok.blk hpre hr rfl
    refine ⟨List.forall_mem_cons.mpr ⟨?_, hI.below hev hkept⟩, FieldLinked.of_top (F := F) rfl hI.linked⟩
    refine .advance hpre rfl (fun hb => absurd hb (by simp)) ?_
    refine hok'.keep hev (fun _ _ hk => hk) (fun _ _ hk => hk) hused fun k g hk => ?_
    have hadv : scanOf M params { F with rest := is, regs := regs', busy := false } =
        scan M.layout (defsOf M params F) (pre ++ [.call dst c args]) :=
      scanOf_eq (split_advance (F := { F with rest := is, regs := regs', busy := false }) hpre rfl)
    refine hkept.top F st _ st rfl rfl k g (hadv ▸ hk) (not_stores fun _ _ _ _ _ heq => ?_)
    exact absurd (hrest.symm.trans heq) (by simp)
  | callback hrest hnone he ho hG =>
    next h h' F G st dst c args is g vals =>
    have hFok := hS.frames F List.mem_cons_self
    obtain ⟨pre, hpre, hok'⟩ := (hI.frames F List.mem_cons_self).call hFok.rest hrest
    have hleft : left { F with busy := true } = is := by
      rw [left, if_pos rfl, hrest]
      rfl
    have hF' : FrameFields M params address h' { F with busy := true } := by
      refine .advance hpre hleft (fun _ => ⟨dst, c, args, is, hrest, hnone⟩) ?_
      refine hok'.keep hev (fun _ _ hk => hk) (fun _ _ hk => hk) (fun _ _ => rfl) fun k g hk => ?_
      rw [← scanOf_eq (split_advance (F := { F with busy := true }) hpre hleft)] at hk
      exact hkept.below _ List.mem_cons_self k g hk
    have hbelow (F₀ : Frame) (hF₀ : F₀ ∈ st) : FrameFields M params address h' F₀ :=
      (hI.frames F₀ (List.mem_cons_of_mem F hF₀)).keep hev
        fun k g hk => hkept.below F₀ (List.mem_cons_of_mem _ hF₀) k g hk
    refine ⟨List.forall_mem_cons.mpr ⟨.fresh hG.rest hG.busy, List.forall_mem_cons.mpr ⟨hF', hbelow⟩⟩, ?_⟩
    exact List.isChain_cons_cons.mpr ⟨fun d hd => absurd (hG.dst.symm.trans hd) (by simp),
      FieldLinked.of_top (F := F) rfl hI.linked⟩

/-! ## Executions -/

variable (M params closedWorld avp address widths outside) in
/-- The states reached by an execution all of whose states are as `StateOk` asks and all of whose steps
    leave recorded fields alone. -/
inductive ReachesKept : State → Prop
  | start {s : State} : Start M outside s → StateOk M closedWorld avp address s → ReachesKept s
  | step {s s' : State} : ReachesKept s → Step address M widths outside s s' →
      StateOk M closedWorld avp address s' → StepOk M params s s' → ReachesKept s'

theorem ReachesKept.reachesOk {s : State} (h : ReachesKept M params address avp widths closedWorld outside s) :
    ReachesOk M closedWorld avp address widths outside s := by
  induction h with
  | start hs hok => exact .start hs hok
  | step _ hstep hok _ ih => exact .step ih hstep hok

theorem ReachesKept.fieldsOk (hM : WellFormed M) (hform : FieldsFormed M params)
    (hout : OutsideOk M closedWorld outside)
    (hprior : PriorSound M closedWorld avp address widths outside params) {s : State}
    (h : ReachesKept M params address avp widths closedWorld outside s) : FieldsOk M params address s := by
  induction h with
  | start hs _ =>
    obtain ⟨g, vals, F, _, hF, hstack⟩ := hs
    refine ⟨fun F' hF' => ?_, by rw [hstack]; exact .singleton F⟩
    rw [hstack] at hF'
    obtain rfl := List.mem_singleton.mp hF'
    exact .fresh hF.rest hF.busy
  | step hr hstep _ hkept ih =>
    have hr' := hr.reachesOk
    exact ih.step hform (hr'.stackOk hM hout hprior) hr'.ok hstep hkept

end Frames

/-! ## Sites -/

section Sites

variable {M : Module} {params : Overlay} {closedWorld : Bool}

theorem mem_blockEvents {defs : Defs} {σ : Scan} {pre post : List Inst} {i : Inst}
    {e : (FuncId × Nat) × (Nat → Option SiteGuarantee)}
    (h : e ∈ siteEvents M params closedWorld defs (pre.foldl (scanInst M.layout defs) σ) i) :
    e ∈ blockEvents M params closedWorld defs σ (pre ++ i :: post) := by
  induction pre generalizing σ with
  | nil => exact List.mem_append_left _ h
  | cons j pre ih => exact List.mem_append_right _ (ih h)

theorem fold_lookup (es : List ((FuncId × Nat) × (Nat → Option SiteGuarantee))) (k : FuncId × Nat) (off : Nat) :
    ((es.filter fun e => decide (e.1 = k)).foldl (fun acc e => intersectSite acc e.2) none).map (· off) =
      (foldSites weaker (es.map fun e => (e.1, e.2 off))).lookup k := by
  induction es using List.reverseRecOn with
  | nil => rfl
  | append_singleton es e ih =>
    have hfold : foldSites weaker ((es ++ [e]).map fun e => (e.1, e.2 off)) =
        (foldSites weaker (es.map fun e => (e.1, e.2 off))).insert e.1
          (joinSite weaker ((foldSites weaker (es.map fun e => (e.1, e.2 off))).lookup e.1) (e.2 off)) := by
      rw [List.map_append, foldSites, List.foldl_append]
      rfl
    rw [hfold, List.filter_append, List.foldl_append]
    by_cases hk : e.1 = k
    · subst hk
      rw [AList.lookup_insert, ← ih, List.filter_singleton, decide_eq_true rfl, cond_true]
      simp only [List.foldl_cons, List.foldl_nil]
      cases (es.filter fun e' => decide (e'.1 = e.1)).foldl (fun acc e => intersectSite acc e.2) none with
      | none => rfl
      | some cur =>
        simp only [intersectSite, Option.map_some]
        cases cur off <;> cases e.2 off <;> rfl
    · rw [AList.lookup_insert_ne (Ne.symm hk), ← ih, List.filter_singleton, decide_eq_false hk, cond_false]
      rfl

theorem scan_slot {layout : DataLayout} {defs : Defs} {pre : List Inst} {k : RegId × Nat} {g : SiteGuarantee}
    (h : (scan layout defs pre).slot k = some g) : ∃ r, defs r = some g := by
  induction pre using List.reverseRecOn with
  | nil => exact absurd h (by simp [scan, Scan.empty])
  | append_singleton pre i ih =>
    rw [scan_snoc] at h
    rcases scanInst_slot h with ⟨_, _, value, _, _, _, hstored⟩ | ⟨h, _⟩
    · cases value with
      | const c => exact absurd hstored (by simp [stored])
      | reg vr => exact ⟨vr, hstored⟩
    · exact ih h

theorem of_mem_blockEvents {defs : Defs} (pre : List Inst) {is : List Inst}
    {e : (FuncId × Nat) × (Nat → Option SiteGuarantee)}
    (h : e ∈ blockEvents M params closedWorld defs (scan M.layout defs pre) is) :
    eligible M params closedWorld e.1 = true ∧ ∀ off s, e.2 off = some s → ∃ r, defs r = some s := by
  induction is generalizing pre with
  | nil => exact absurd h List.not_mem_nil
  | cons i is ih =>
    rcases List.mem_append.mp h with h | h
    · rw [siteEvents.eq_def] at h
      split at h
      · split at h
        · obtain ⟨a, _, ha⟩ := List.mem_filterMap.mp h
          split at ha
          · next helig =>
            obtain rfl := Option.some.inj ha
            refine ⟨helig, fun off s hs => ?_⟩
            obtain ⟨op, _⟩ := a
            cases op with
            | const c => exact absurd hs (by simp [siteFields])
            | reg r =>
              simp only [siteFields] at hs
              split at hs
              · exact scan_slot hs
              · exact absurd hs (by simp)
          · exact absurd ha (by simp)
        · exact absurd h List.not_mem_nil
      · exact absurd h List.not_mem_nil
    · rw [← scan_snoc] at h
      exact ih _ h

theorem synthesizeFields_kept (hM : WellFormed M)
    (halign : ∀ k c, params.lookup k = some c → PowerOfTwo c.align) {k : FuncId × Nat} {off : Nat}
    {c : PtrContract} (h : synthesizeFields M params closedWorld k off = some c) :
    eligible M params closedWorld k = true ∧ ∃ g, c = toContract (decide (k.1 ∈ M.internal)) g ∧
      ∀ e ∈ events M params closedWorld, e.1 = k → ∃ s, e.2 off = some s ∧ Weaker g s := by
  obtain ⟨g, hg, rfl⟩ := Option.map_eq_some_iff.mp h
  obtain ⟨fields, hfields, hoff⟩ := Option.bind_eq_some_iff.mp hg
  have hlook := fold_lookup (events M params closedWorld) k off
  rw [hfields, Option.map_some, hoff] at hlook
  have hmem {e : (FuncId × Nat) × (Nat → Option SiteGuarantee)} (he : e ∈ events M params closedWorld) :
      eligible M params closedWorld e.1 = true ∧ ∀ off s, e.2 off = some s → PowerOfTwo s.align := by
    obtain ⟨f, hf, he⟩ := List.mem_flatMap.mp he
    obtain ⟨b, _, he⟩ := List.mem_flatMap.mp he
    obtain ⟨helig, hdefs⟩ := of_mem_blockEvents [] he
    refine ⟨helig, fun off s hs => ?_⟩
    obtain ⟨r, hr⟩ := hdefs off s hs
    exact (localDefs_derived r s hr).align hM hf halign
  have hkept := (foldSites_spec Weaker.refl Weaker.trans weaker_left weaker_right (fun ha hb => ha.min hb)
    ((events M params closedWorld).map fun e => (e.1, e.2 off)) (fun e he s hs => ?_) k).2 g hlook.symm
  · obtain ⟨e, he, rfl⟩ := hkept.some_site
    obtain ⟨e, he', rfl⟩ := List.mem_map.mp he
    refine ⟨(hmem he').1, g, rfl, fun e' he' hk => ?_⟩
    exact hkept.below (e'.1, e'.2 off) (List.mem_map.mpr ⟨e', he', rfl⟩) hk
  · obtain ⟨e, he', rfl⟩ := List.mem_map.mp he
    exact (hmem he').2 off s hs

end Sites

/-! ## The claim -/

/-- The value is a pointer to an object whose field at the offset holds a pointer that the contract
    describes, into a live block. -/
def FieldMeets (n : Nat) (c : PtrContract) (off : Nat) (v : Val) (h : Heap) : Prop :=
  ∃ b o w, v = .ptr b o ∧ HoldsAt n h b (o + (off : Nat)) w ∧ Meets c w h

/-- **The claim on fields**: every call that an execution reaches passes objects with the fields that the
    synthesized contracts say. -/
def FieldsHold (M : Module) (closedWorld avp : Bool) (address : Symbols) (widths : FuncId → RegId → Nat)
    (outside : Outside) : Prop :=
  ∀ s, Reaches address M widths outside s → ∀ c g ops vals, CallAt address M s c g ops vals →
    ∀ i off ct, synthesizeFields M (synthesize M closedWorld avp) closedWorld (g, i) off = some ct →
    ∃ v, vals[i]? = some v ∧ FieldMeets M.layout.pointerSize ct off v s.heap

def twoI64 : BitVector := ⟨64, 2, BitVector.pos64, BitVector.le64, BitVector.two_lt64⟩

def fourI64 : BitVector := ⟨64, 4, BitVector.pos64, BitVector.le64, by decide⟩

def zeroI32 : BitVector := ⟨32, 0, BitVector.pos32, BitVector.le32, by decide⟩

/-- `{ x; w; w.data = &x; call g(&w); return }`, with the upper half of `w.data` cleared before the call or
    without. -/
def fillBlock (partly : Bool) : BasicBlock where
  id := 0
  params := []
  insts := .alloc 1 .stack (.int 64) (.const (.int oneI64)) 8 ::
    .alloc 2 .stack (.int 64) (.const (.int twoI64)) 8 ::
    .store (.ptr (.int 64)) (.reg 2) (.reg 1) false ::
    ((if partly then [.ptrOffset 3 (.reg 2) (.const (.int fourI64)) (.int 8),
        .store (.int 32) (.reg 3) (.const (.int zeroI32)) false] else []) ++
      [.call none (.direct 1) [.reg 2]])
  term := .ret none

def fillFn (partly : Bool) : Func where
  name := "f"
  params := []
  retTy := .unit
  blocks := [fillBlock partly]
  entry := 0

def fillModule (partly : Bool) : Module where
  functions := [(0, fillFn partly), (1, takesPtr)]
  layout := .lp64
  paramContracts := ∅
  unanalyzed := []
  internal := {1}
  globals := ∅
  rawPtrHints := ∅
  provGrants := ∅
  globalFnPtrs := ∅
  globalPtrFields := ∅
  regPtrHints := ∅
  fieldPtrEvidence := ∅
  fieldLoadSites := ∅
  mmioHandlers := ∅
  ids_nodup := by simp
  calls_own := by cases partly <;> simp [fillFn, fillBlock, takesPtr, Func.callees, Inst.callee, Callee.target]
  params_own := fun _ h => absurd h List.not_mem_nil
  raw_own := fun _ h => absurd h List.not_mem_nil
  reg_own := fun _ h => absurd h List.not_mem_nil
  sites_own := fun _ h => absurd h List.not_mem_nil
  ptrs_own := by simp

theorem fillModule_forall {partly : Bool} {P : FuncId × Func → Prop} (h0 : P (0, fillFn partly))
    (h1 : P (1, takesPtr)) : ∀ f ∈ (fillModule partly).functions, P f := by
  intro f hf
  rcases List.mem_pair.mp hf with rfl | rfl
  · exact h0
  · exact h1

theorem fillModule_wellFormed (partly : Bool) : WellFormed (fillModule partly) := by
  refine ⟨fillModule_forall ?_ ?_, fillModule_forall ?_ ?_, by simp [fillModule], by simp [fillModule]⟩
  · cases partly <;>
      exact ⟨by simp [fillFn], by simp [fillFn], by simp [fillFn],
        by simp [fillFn, fillBlock, insts, Places, Inst.writes, Inst.definedReg],
        by simp [fillFn, fillBlock, insts]⟩
  · exact ⟨by simp [takesPtr], by simp [takesPtr, insts], by simp [takesPtr], by simp [takesPtr, insts],
      by simp [takesPtr, insts]⟩
  · intro dst region elem count align hi
    have halign : align = 8 := by
      cases partly <;> simp [fillFn, fillBlock, insts] at hi <;>
        rcases hi with ⟨_, _, _, _, rfl⟩ | ⟨_, _, _, _, rfl⟩ <;> rfl
    exact ⟨3, by rw [halign]; decide⟩
  · intro dst region elem count align hi
    exact absurd hi (by simp [takesPtr, insts])

theorem startsInF_fill (partly : Bool) : OutsideOk (fillModule partly) false startsInF := by
  rintro g vals h ⟨rfl, rfl⟩
  refine ⟨fun i => ?_, fun i c n v hc => absurd hc (by simp [fillModule])⟩
  cases partly <;> simp [isCandidate, fillModule, fillFn, takesPtr]

def fillContract : PtrContract := ⟨.bytes 8, 8, true, true, some internalCallContract, false, none⟩

theorem synthesizeFields_fillModule (partly : Bool) :
    synthesizeFields (fillModule partly) (synthesize (fillModule partly) false false) false (1, 0) 0 =
      some fillContract := by
  cases partly <;> decide +kernel

/-- The frame of `f` after `n` instructions. -/
def fillFrame (partly : Bool) (n : Nat) (regs : Program.Regs) (owned : List Nat) : Frame :=
  ⟨0, fillFn partly, fillBlock partly, (fillBlock partly).insts.drop n, regs, owned, none, false⟩

def xRegs : Program.Regs := Program.Regs.set (fun _ => none) 1 (.ptr 0 0)

def wRegs : Program.Regs := xRegs.set 2 (.ptr 1 0)

def xHeap : Heap := emptyHeap.alloc 0 ⟨0, 8, true, true, true⟩

def wHeap : Heap := xHeap.alloc 1 ⟨16, 16, true, true, true⟩

def filledHeap : Heap := wHeap.store 1 0 8 (.ptr 0 0)

/-- The states of `f` up to the store. -/
def fillStart (partly : Bool) : State := ⟨emptyHeap, [fillFrame partly 0 (fun _ => none) []]⟩

def fillX (partly : Bool) : State := ⟨xHeap, [fillFrame partly 1 xRegs [0]]⟩

def fillW (partly : Bool) : State := ⟨wHeap, [fillFrame partly 2 wRegs [1, 0]]⟩

def filled (partly : Bool) : State := ⟨filledHeap, [fillFrame partly 3 wRegs [1, 0]]⟩

section

variable (address : Symbols) (widths : FuncId → RegId → Nat) (partly : Bool)

theorem fillStart_start : Start (fillModule partly) startsInF (fillStart partly) :=
  ⟨0, [], _, ⟨rfl, rfl⟩, ⟨rfl, rfl, rfl, rfl, rfl, rfl, rfl, rfl⟩, rfl⟩

theorem fillStart_step : Step address (fillModule partly) widths startsInF (fillStart partly) (fillX partly) := by
  have hexec := @Exec.alloc .lp64 (widths 0) address 1 .stack (.int 64) (.const (.int oneI64)) 8 1 0 0
    (fun _ => none) emptyHeap rfl rfl (by decide)
  exact @Step.inst address (fillModule partly) widths startsInF emptyHeap _
    (fillFrame partly 0 (fun _ => none) []) [] _ _ _ _ rfl hexec

theorem fillX_step : Step address (fillModule partly) widths startsInF (fillX partly) (fillW partly) := by
  have hexec := @Exec.alloc .lp64 (widths 0) address 2 .stack (.int 64) (.const (.int twoI64)) 8 2 1 16
    xRegs xHeap rfl rfl (by decide)
  exact @Step.inst address (fillModule partly) widths startsInF xHeap _
    (fillFrame partly 1 xRegs [0]) [] _ _ _ _ rfl hexec

theorem fillW_step : Step address (fillModule partly) widths startsInF (fillW partly) (filled partly) := by
  have hexec := @Exec.store .lp64 (widths 0) address (.ptr (.int 64)) (.reg 2) (.reg 1) false 1 0 (.ptr 0 0)
    wRegs wHeap rfl rfl
  exact @Step.inst address (fillModule partly) widths startsInF wHeap _
    (fillFrame partly 2 wRegs [1, 0]) [] _ _ _ _ rfl hexec

end

theorem fillModule_formed : FieldsFormed (fillModule false) (synthesize (fillModule false) false false) := by
  refine ⟨fillModule_forall ?_ ?_, fillModule_forall ?_ ?_⟩
  · intro b hb pre i post hsplit r hr
    obtain rfl := List.mem_singleton.mp hb
    rcases pre with _ | ⟨i₁, _ | ⟨i₂, _ | ⟨i₃, _ | ⟨i₄, pre⟩⟩⟩⟩
    · obtain ⟨rfl, _⟩ := List.cons.inj hsplit
      obtain rfl := List.mem_singleton.mp hr
      simp [Inst.operands]
    · obtain ⟨rfl, htail⟩ := List.cons.inj hsplit
      obtain ⟨rfl, _⟩ := List.cons.inj htail
      obtain rfl := List.mem_singleton.mp hr
      simp [Inst.operands, Inst.writes, Inst.definedReg]
    · obtain ⟨_, hsplit⟩ := List.cons.inj hsplit
      obtain ⟨_, hsplit⟩ := List.cons.inj hsplit
      obtain ⟨rfl, _⟩ := List.cons.inj hsplit
      exact absurd hr List.not_mem_nil
    · obtain ⟨_, hsplit⟩ := List.cons.inj hsplit
      obtain ⟨_, hsplit⟩ := List.cons.inj hsplit
      obtain ⟨_, hsplit⟩ := List.cons.inj hsplit
      obtain ⟨rfl, _⟩ := List.cons.inj hsplit
      exact absurd hr List.not_mem_nil
    · exact absurd (congrArg List.length hsplit) (by simp [fillBlock])
  · intro b hb pre i post hsplit
    obtain rfl := List.mem_singleton.mp hb
    exact absurd hsplit (by simp)
  · intro ty ptr vr volatile hi _
    have hty : ty = .ptr (.int 64) := by
      simp [fillFn, fillBlock, insts] at hi
      exact hi.1
    rw [hty]
    decide
  · intro ty ptr vr volatile hi
    exact absurd hi (by simp [takesPtr, insts])

end Fields

end Csolver
