import Csolver.Verifier.Contracts

/-!
# Synthesized contracts along an execution

Every guarantee that `local_defs` gives a register has a derivation (`Derived`), and along an execution a
register that holds a value holds one that its guarantees describe: only the instruction that it is
derived from writes it. Blocks keep their size, so what was true when a register was written stays true;
whether the block is still live is another matter, and nothing in the synthesis looks at it.
-/

namespace Csolver

open Lib

namespace Contracts

open Program

/-- The value points to as many bytes as the guarantee says, with its alignment and permissions. -/
def Placed (g : SiteGuarantee) (v : Val) (h : Heap) : Prop :=
  ∃ b off blk, v = .ptr b off ∧ h.blocks b = some blk ∧ 0 ≤ off ∧ off + g.size ≤ blk.size ∧
    (g.align : Int) ∣ blk.base + off ∧ (g.readable = true → blk.readable = true) ∧
    (g.writable = true → blk.writable = true)

theorem Placed.evolves {g : SiteGuarantee} {v : Val} {h h' : Heap} (hp : Placed g v h) (he : h.Evolves h') :
    Placed g v h' := by
  obtain ⟨b, off, blk, hv, hb, hrest⟩ := hp
  obtain ⟨live, hb'⟩ := he b blk hb
  exact ⟨b, off, _, hv, hb', hrest⟩

/-- A guarantee says no more than another. -/
structure Weaker (g s : SiteGuarantee) : Prop where
  size : g.size ≤ s.size
  align : g.align ∣ s.align
  readable : g.readable = true → s.readable = true
  writable : g.writable = true → s.writable = true

theorem Placed.weaken {g s : SiteGuarantee} {v : Val} {h : Heap} (hp : Placed s v h) (hw : Weaker g s) :
    Placed g v h := by
  obtain ⟨b, off, blk, hv, hb, hoff, hsize, halign, hr, hwr⟩ := hp
  have hle : (g.size : Int) ≤ s.size := by exact_mod_cast hw.size
  refine ⟨b, off, blk, hv, hb, hoff, by omega, ?_, fun h => hr (hw.readable h), fun h => hwr (hw.writable h)⟩
  exact dvd_trans (Int.natCast_dvd_natCast.mpr hw.align) halign

def PowerOfTwo (n : Nat) : Prop := ∃ k, n = 2 ^ k

theorem PowerOfTwo.dvd_of_le {m n : Nat} (hm : PowerOfTwo m) (hn : PowerOfTwo n) (h : m ≤ n) : m ∣ n := by
  obtain ⟨j, rfl⟩ := hm
  obtain ⟨k, rfl⟩ := hn
  exact Nat.pow_dvd_pow 2 ((Nat.pow_le_pow_iff_right (by norm_num)).mp h)

theorem PowerOfTwo.min {m n : Nat} (hm : PowerOfTwo m) (hn : PowerOfTwo n) : PowerOfTwo (min m n) := by
  rcases le_total m n with h | h
  · rw [min_eq_left h]
    exact hm
  · rw [min_eq_right h]
    exact hn

theorem weaker_left {a b : SiteGuarantee} (ha : PowerOfTwo a.align) (hb : PowerOfTwo b.align) :
    Weaker (weaker a b) a where
  size := min_le_left _ _
  align := (ha.min hb).dvd_of_le ha (min_le_left _ _)
  readable h := (Bool.and_eq_true _ _ ▸ h).1
  writable h := (Bool.and_eq_true _ _ ▸ h).1

theorem weaker_right {a b : SiteGuarantee} (ha : PowerOfTwo a.align) (hb : PowerOfTwo b.align) :
    Weaker (weaker a b) b where
  size := min_le_right _ _
  align := (ha.min hb).dvd_of_le hb (min_le_right _ _)
  readable h := (Bool.and_eq_true _ _ ▸ h).2
  writable h := (Bool.and_eq_true _ _ ▸ h).2

theorem Weaker.refl (g : SiteGuarantee) : Weaker g g := ⟨le_refl _, dvd_refl _, id, id⟩

theorem Weaker.trans {a b c : SiteGuarantee} (h : Weaker a b) (h' : Weaker b c) : Weaker a c where
  size := le_trans h.size h'.size
  align := dvd_trans h.align h'.align
  readable hr := h'.readable (h.readable hr)
  writable hr := h'.writable (h.writable hr)

/-! ## Where a guarantee comes from -/

section Derivation

variable {M : Module} {prior : Overlay} {avp : Bool} {f : FuncId × Func}

inductive Derived (M : Module) (prior : Overlay) (avp : Bool) (f : FuncId × Func) :
    RegId → SiteGuarantee → Prop
  | hint {r : RegId} {g : SiteGuarantee} : avp = true → hintOf M f.1 r = some g → Derived M prior avp f r g
  | param {i : Nat} {p : RegId × Ty} {g : SiteGuarantee} : f.2.params[i]? = some p →
      contractOf M prior (f.1, i) = some g → Derived M prior avp f p.1 g
  | alloc {i : Inst} {dst : RegId} {g : SiteGuarantee} : i ∈ insts f.2 →
      allocGuarantee M i = some (dst, g) → Derived M prior avp f dst g
  | offset {dst b : RegId} {bv : BitVector} {elem : Ty} {base g : SiteGuarantee} :
      .ptrOffset dst (.reg b) (.const (.int bv)) elem ∈ insts f.2 → Derived M prior avp f b base →
      offsetFrom M base bv elem = some g → Derived M prior avp f dst g

/-- Every guarantee of the table has a derivation. -/
def AllDerived (M : Module) (prior : Overlay) (avp : Bool) (f : FuncId × Func) (defs : Defs) : Prop :=
  ∀ r g, defs r = some g → Derived M prior avp f r g

theorem AllDerived.insert {defs : Defs} (h : AllDerived M prior avp f defs) {r : RegId} {g : SiteGuarantee}
    (hg : Derived M prior avp f r g) : AllDerived M prior avp f (defs.insert r g) := by
  intro q g' hq
  rw [Defs.insert] at hq
  split at hq
  · next heq =>
    rw [heq, ← Option.some.inj hq]
    exact hg
  · exact h q g' hq

theorem AllDerived.foldl {α : Type} {step : Defs → α → Defs} {l : List α}
    (hstep : ∀ defs, ∀ x ∈ l, AllDerived M prior avp f defs → AllDerived M prior avp f (step defs x))
    {defs : Defs} (h : AllDerived M prior avp f defs) : AllDerived M prior avp f (l.foldl step defs) := by
  induction l generalizing defs with
  | nil => exact h
  | cons x l ih =>
    apply ih (fun defs y hy => hstep defs y (List.mem_cons_of_mem x hy))
    exact hstep defs x List.mem_cons_self h

theorem localDefs_derived : AllDerived M prior avp f (localDefs M prior avp f) := by
  have hhints : AllDerived M prior avp f (seedHints M avp f.1 f.2) := by
    rw [seedHints]
    split
    · next havp =>
      refine AllDerived.foldl (fun defs r _ h => ?_) fun _ _ h => absurd h (by simp)
      rw [seedHint]
      split
      · next g hg => exact h.insert (.hint havp hg)
      · exact h
    · exact fun _ _ h => absurd h (by simp)
  have hparams : AllDerived M prior avp f (f.2.params.zipIdx.foldl (seedParam M prior f.1)
      (seedHints M avp f.1 f.2)) := by
    refine AllDerived.foldl (fun defs p hp h => ?_) hhints
    rw [seedParam]
    split
    · next g hg => exact h.insert (.param (List.mem_zipIdx_iff_getElem?.mp hp) hg)
    · exact h
  have hallocs : AllDerived M prior avp f ((insts f.2).foldl (seedAlloc M)
      (f.2.params.zipIdx.foldl (seedParam M prior f.1) (seedHints M avp f.1 f.2))) := by
    refine AllDerived.foldl (fun defs i hi h => ?_) hparams
    rw [seedAlloc]
    split
    · next dst g hg => exact h.insert (.alloc hi hg)
    · exact h
  rw [localDefs]
  generalize (insts f.2).length = n
  induction n with
  | zero => exact hallocs
  | succ n ih =>
    rw [Function.iterate_succ_apply']
    refine AllDerived.foldl (fun defs i hi h => ?_) ih
    rw [growOffset]
    split
    · next dst g hg =>
      split
      · exact h
      · rw [offsetGuarantee.eq_def] at hg
        split at hg
        · next dst' b bv elem =>
          obtain ⟨g', hg', heq⟩ := Option.map_eq_some_iff.mp hg
          obtain ⟨base, hbase, hoff⟩ := Option.bind_eq_some_iff.mp hg'
          obtain ⟨rfl, rfl⟩ := Prod.mk.inj heq
          exact h.insert (.offset hi (h b base hbase) hoff)
        · exact absurd hg (by simp)
    · exact h

end Derivation

/-! ## What one instruction establishes -/

theorem two_pow_trailingZeros_dvd (bits n : Nat) : 2 ^ trailingZeros bits n ∣ n := by
  induction bits generalizing n with
  | zero => exact one_dvd n
  | succ bits ih =>
    rw [trailingZeros]
    split
    · exact one_dvd n
    · next hodd =>
      obtain ⟨k, hk⟩ := ih (n / 2)
      refine ⟨k, ?_⟩
      rw [pow_succ, mul_right_comm, ← hk]
      omega

/-- An index that is read alike with and without a sign, of an element whose stride is its size. -/
def OffsetOk (M : Module) (bv : BitVector) (elem : Ty) : Prop :=
  bv.value = 0 ∨ bv.signed = bv.value ∧ elem.strideBytes M.layout = elem.sizeBytes M.layout

theorem offsetFrom_spec {M : Module} {base g : SiteGuarantee} {bv : BitVector} {elem : Ty}
    (h : offsetFrom M base bv elem = some g) :
    ∃ elemSize, elem.sizeBytes M.layout = some elemSize ∧ bv.value * elemSize ≤ base.size ∧
      g.size = base.size - bv.value * elemSize ∧ g.readable = base.readable ∧ g.writable = base.writable ∧
      g.align = if bv.value * elemSize = 0 then base.align
        else 2 ^ min (trailingZeros 64 (bv.value * elemSize)) (trailingZeros 32 base.align) := by
  simp only [offsetFrom, Option.bind_eq_bind, Option.bind_eq_some_iff] at h
  obtain ⟨elemSize, hsize, idx, hidx, off, hoff, hg⟩ := h
  have hidx' : bv.value = idx := (eq_of_checkedU64 hidx).symm
  have hoff' : idx * elemSize = off := (eq_of_checkedU64 hoff).symm
  subst hidx'
  subst hoff'
  split at hg
  · next hle =>
    obtain rfl := Option.some.inj hg
    exact ⟨elemSize, hsize, hle, rfl, rfl, rfl, rfl⟩
  · exact absurd hg (by simp)

theorem offsetFrom_align_dvd {M : Module} {base g : SiteGuarantee} {bv : BitVector} {elem : Ty}
    (h : offsetFrom M base bv elem = some g) {elemSize : Nat} (hsize : elem.sizeBytes M.layout = some elemSize) :
    g.align ∣ base.align ∧ g.align ∣ bv.value * elemSize := by
  obtain ⟨n, hn, -, -, -, -, halign⟩ := offsetFrom_spec h
  obtain rfl : elemSize = n := Option.some.inj (hsize.symm.trans hn)
  rw [halign]
  split
  · next hzero => exact ⟨dvd_refl _, hzero ▸ dvd_zero _⟩
  · exact ⟨dvd_trans (Nat.pow_dvd_pow 2 (min_le_right _ _)) (two_pow_trailingZeros_dvd 32 _),
      dvd_trans (Nat.pow_dvd_pow 2 (min_le_left _ _)) (two_pow_trailingZeros_dvd 64 _)⟩

theorem moved_eq {M : Module} {bv : BitVector} {elem : Ty} (hok : OffsetOk M bv elem) {elemSize : Nat}
    (hsize : elem.sizeBytes M.layout = some elemSize) (off : Int) :
    moved M.layout off bv.width bv.value elem = off + ((bv.value * elemSize : Nat) : Int) := by
  rcases hok with hzero | ⟨hsigned, hstride⟩
  · simp [moved, hzero]
  · have hread : (BitVec.ofNat bv.width bv.value).toInt = bv.value := hsigned
    simp [moved, hread, hstride, hsize]

theorem Placed.offset {M : Module} {base g : SiteGuarantee} {bv : BitVector} {elem : Ty} {b : Nat} {off : Int}
    {h : Heap} (hp : Placed base (.ptr b off) h) (hg : offsetFrom M base bv elem = some g)
    (hok : OffsetOk M bv elem) : Placed g (.ptr b (moved M.layout off bv.width bv.value elem)) h := by
  obtain ⟨b', off', blk, hv, hb, hoff, hsize, halign, hr, hw⟩ := hp
  obtain ⟨rfl, rfl⟩ := Val.ptr.inj hv
  obtain ⟨elemSize, hes, hle, hgs, hgr, hgw, -⟩ := offsetFrom_spec hg
  obtain ⟨hda, hdo⟩ := offsetFrom_align_dvd hg hes
  rw [moved_eq hok hes]
  refine ⟨b, _, blk, rfl, hb, ?_, ?_, ?_, fun h => hr (hgr ▸ h), fun h => hw (hgw ▸ h)⟩
  · exact add_nonneg hoff (Int.natCast_nonneg _)
  · have hcast : (g.size : Int) = base.size - (bv.value * elemSize : Nat) := by
      rw [hgs, Nat.cast_sub hle]
    omega
  · rw [← add_assoc]
    exact Int.dvd_add (dvd_trans (Int.natCast_dvd_natCast.mpr hda) halign) (Int.natCast_dvd_natCast.mpr hdo)

theorem allocGuarantee_spec {M : Module} {i : Inst} {dst : RegId} {g : SiteGuarantee}
    (h : allocGuarantee M i = some (dst, g)) :
    ∃ region elem bv align elemSize, i = .alloc dst region elem (.const (.int bv)) align ∧
      elem.sizeBytes M.layout = some elemSize ∧ g = ⟨elemSize * bv.value, max align 1, true, true⟩ := by
  rw [allocGuarantee.eq_def] at h
  split at h
  · next dst' region elem bv align =>
    simp only [Option.bind_eq_bind, Option.bind_eq_some_iff] at h
    obtain ⟨elemSize, hsize, count, hcount, size, hmul, hg⟩ := h
    have hcount' := eq_of_checkedU64 hcount
    have hmul' := eq_of_checkedU64 hmul
    subst hcount'
    subst hmul'
    obtain ⟨rfl, rfl⟩ := Prod.mk.inj (Option.some.inj hg)
    exact ⟨region, elem, bv, align, elemSize, rfl, hsize, rfl⟩
  · exact absurd h (by simp)

/-! ## Single assignment -/

/-- The instructions that place a pointer. -/
def Places : Inst → Prop
  | .alloc _ _ _ _ _ | .ptrOffset _ _ _ _ => True
  | _ => False

/-- What single assignment says of parameters and of registers that are placed. -/
structure SingleDef (f : Func) : Prop where
  nodup : (f.params.map Prod.fst).Nodup
  param : ∀ p ∈ f.params, ∀ i ∈ insts f, p.1 ∉ i.writes
  param_block : ∀ p ∈ f.params, ∀ b ∈ f.blocks, p.1 ∉ b.params.map Prod.fst
  placed : ∀ i ∈ insts f, Places i → ∀ r ∈ i.writes, ∀ j ∈ insts f, r ∈ j.writes → j = i
  placed_block : ∀ i ∈ insts f, Places i → ∀ r ∈ i.writes, ∀ b ∈ f.blocks, r ∉ b.params.map Prod.fst

/-- What a module promises: single assignment, and alignments that are powers of two. -/
structure WellFormed (M : Module) : Prop where
  single : ∀ f ∈ M.functions, SingleDef f.2
  allocs : ∀ f ∈ M.functions, ∀ dst region elem count align,
    .alloc dst region elem count align ∈ insts f.2 → PowerOfTwo (max align 1)
  declared : ∀ k c, M.paramContracts.lookup k = some c → PowerOfTwo c.align
  hints : ∀ k h, M.regPtrHints.lookup k = some h → 0 < h.align → PowerOfTwo h.align

section Derivation

variable {M : Module} {prior : Overlay} {avp : Bool} {f : FuncId × Func}

theorem places_alloc {i : Inst} {dst : RegId} {g : SiteGuarantee} (h : allocGuarantee M i = some (dst, g)) :
    Places i ∧ dst ∈ i.writes := by
  obtain ⟨_, _, _, _, _, rfl, -⟩ := allocGuarantee_spec h
  exact ⟨trivial, List.mem_singleton.mpr rfl⟩

theorem Derived.of_write (hf : SingleDef f.2) {r : RegId} {g : SiteGuarantee} (h : Derived M prior avp f r g)
    {j : Inst} (hj : j ∈ insts f.2) (hr : r ∈ j.writes) :
    (avp = true ∧ hintOf M f.1 r = some g) ∨ allocGuarantee M j = some (r, g) ∨
      ∃ b bv elem base, j = .ptrOffset r (.reg b) (.const (.int bv)) elem ∧ Derived M prior avp f b base ∧
        offsetFrom M base bv elem = some g := by
  cases h with
  | hint havp hg => exact .inl ⟨havp, hg⟩
  | param hp _ => exact absurd hr (hf.param _ (List.mem_of_getElem? hp) j hj)
  | alloc hi hg =>
    obtain ⟨hplaces, hwrites⟩ := places_alloc hg
    rw [hf.placed _ hi hplaces r hwrites j hj hr]
    exact .inr (.inl hg)
  | offset hi hb hg =>
    rw [hf.placed _ hi trivial r (List.mem_singleton.mpr rfl) j hj hr]
    exact .inr (.inr ⟨_, _, _, _, rfl, hb, hg⟩)

theorem Derived.of_blockParam (hf : SingleDef f.2) {r : RegId} {g : SiteGuarantee}
    (h : Derived M prior avp f r g) {b : BasicBlock} (hb : b ∈ f.2.blocks) (hr : r ∈ b.params.map Prod.fst) :
    avp = true ∧ hintOf M f.1 r = some g := by
  cases h with
  | hint havp hg => exact ⟨havp, hg⟩
  | param hp _ => exact absurd hr (hf.param_block _ (List.mem_of_getElem? hp) b hb)
  | alloc hi hg =>
    obtain ⟨hplaces, hwrites⟩ := places_alloc hg
    exact absurd hr (hf.placed_block _ hi hplaces r hwrites b hb)
  | offset hi _ _ => exact absurd hr (hf.placed_block _ hi trivial r (List.mem_singleton.mpr rfl) b hb)

theorem Derived.of_entry (hf : SingleDef f.2) {r : RegId} {g : SiteGuarantee} (h : Derived M prior avp f r g)
    {vals : List Val} {v : Val} (hv : Program.Regs.bind (fun _ => none) f.2.params vals r = some v) :
    (avp = true ∧ hintOf M f.1 r = some g) ∨
      ∃ i, contractOf M prior (f.1, i) = some g ∧ vals[i]? = some v := by
  have hplaced {i : Inst} (hi : i ∈ insts f.2) (hr : r ∈ i.writes) : False := by
    have hnot : r ∉ f.2.params.map Prod.fst := by
      intro hmem
      obtain ⟨p, hp, rfl⟩ := List.mem_map.mp hmem
      exact hf.param p hp i hi hr
    rw [Program.Regs.bind_of_not_mem hnot] at hv
    exact absurd hv (by simp)
  cases h with
  | hint havp hg => exact .inl ⟨havp, hg⟩
  | param hp hc => exact .inr ⟨_, hc, Program.Regs.bind_param hf.nodup hp rfl hv⟩
  | alloc hi hg => exact absurd (hplaced hi (places_alloc hg).2) id
  | offset hi _ _ => exact absurd (hplaced hi (List.mem_singleton.mpr rfl)) id

theorem hintGuarantee_align (hM : WellFormed M) {r : RegId} {g : SiteGuarantee}
    (h : hintOf M f.1 r = some g) : PowerOfTwo g.align := by
  obtain ⟨hint, hlook, rfl⟩ := Option.map_eq_some_iff.mp h
  obtain ⟨hlook, _⟩ := Option.filter_eq_some_iff.mp hlook
  show PowerOfTwo (regionAlign hint)
  rw [regionAlign]
  split
  · next hpos => exact hM.hints _ hint hlook hpos
  · exact ⟨_, rfl⟩

theorem Derived.align (hM : WellFormed M) (hf : f ∈ M.functions)
    (hprior : ∀ k c, prior.lookup k = some c → PowerOfTwo c.align) {r : RegId} {g : SiteGuarantee}
    (h : Derived M prior avp f r g) : PowerOfTwo g.align := by
  induction h with
  | hint _ hg => exact hintGuarantee_align hM hg
  | param _ hc =>
    obtain ⟨c, hor, hg⟩ := Option.bind_eq_some_iff.mp hc
    split at hg
    · obtain rfl := Option.some.inj hg
      rcases Option.or_eq_some_iff.mp hor with hor | ⟨_, hor⟩
      · exact hM.declared _ c hor
      · exact hprior _ c hor
    · exact absurd hg (by simp)
  | alloc hi hg =>
    obtain ⟨region, elem, bv, align, _, rfl, _, rfl⟩ := allocGuarantee_spec hg
    exact hM.allocs f hf _ _ _ _ align hi
  | offset _ _ hg ih =>
    obtain ⟨_, _, _, _, _, _, halign⟩ := offsetFrom_spec hg
    rw [halign]
    split
    · exact ih
    · exact ⟨_, rfl⟩

end Derivation

/-! ## Executions -/

section Runs

variable (M : Module) (closedWorld avp : Bool) (address : Symbols) (widths : FuncId → RegId → Nat)
  (outside : Outside)

/-- The values meet the declared contracts of `g`. -/
def Declared (g : FuncId) (vals : List Val) (h : Heap) : Prop :=
  ∀ i c n v, M.paramContracts.lookup (g, i) = some c → c.size = .bytes n → vals[i]? = some v →
    Placed ⟨n, c.align, c.readable, c.writable⟩ v h

/-- What the synthesis takes for granted at a state: a function with known call sites is called by its
    id, declared contracts and trusted hints are true, and constant offsets are what they seem. -/
structure StateOk (s : State) : Prop where
  direct : ∀ c g ops vals, CallAt address M s c g ops vals →
    ∀ i, isCandidate M closedWorld ∅ (g, i) = true → c = .direct g
  declared : ∀ c g ops vals, CallAt address M s c g ops vals → Declared M g vals s.heap
  hints : avp = true → ∀ F ∈ s.stack, ∀ r g, hintOf M F.id r = some g → ∀ v, F.regs r = some v →
    Placed g v s.heap
  offsets : ∀ F st dst b bv elem is, s.stack = F :: st →
    F.rest = .ptrOffset dst (.reg b) (.const (.int bv)) elem :: is → OffsetOk M bv elem

/-- Code outside enters no function whose call sites are taken to be known, and keeps to the declared
    contracts. -/
def OutsideOk : Prop :=
  ∀ g vals h, outside g vals h → (∀ i, isCandidate M closedWorld ∅ (g, i) = false) ∧ Declared M g vals h

/-- The states reached by an execution all of whose states are as `StateOk` asks. -/
inductive ReachesOk : State → Prop
  | start {s : State} : Start M outside s → StateOk M closedWorld avp address s → ReachesOk s
  | step {s s' : State} : ReachesOk s → Step address M widths outside s s' →
      StateOk M closedWorld avp address s' → ReachesOk s'

variable {M closedWorld avp address widths outside}

theorem ReachesOk.ok {s : State} (h : ReachesOk M closedWorld avp address widths outside s) :
    StateOk M closedWorld avp address s := by
  cases h with
  | start _ hok => exact hok
  | step _ _ hok => exact hok

/-- A frame in which every register is as its guarantees say. -/
structure FrameOk (M : Module) (prior : Overlay) (avp : Bool) (h : Heap) (F : Frame) : Prop where
  mem : (F.id, F.fn) ∈ M.functions
  blk : F.blk ∈ F.fn.blocks
  rest : F.rest <:+ F.blk.insts
  placed : ∀ r g, Derived M prior avp (F.id, F.fn) r g → ∀ v, F.regs r = some v → Placed g v h

/-- The result of a frame goes where a call of its caller wants it. -/
def Linked (F G : Frame) : Prop := ∀ d, F.dst = some d → ∃ c args, .call (some d) c args ∈ insts G.fn

structure StackOk (M : Module) (prior : Overlay) (avp : Bool) (s : State) : Prop where
  frames : ∀ F ∈ s.stack, FrameOk M prior avp s.heap F
  linked : s.stack.IsChain Linked

variable {prior : Overlay}

theorem mem_of_function {g : FuncId} {fn : Func} (h : Scalars.function M g = some fn) : (g, fn) ∈ M.functions := by
  obtain ⟨f, hf, rfl⟩ := Option.map_eq_some_iff.mp h
  have hid := List.find?_some hf
  have hmem := List.mem_of_find?_eq_some hf
  rwa [← of_decide_eq_true hid]

theorem mem_insts {f : Func} {b : BasicBlock} (hb : b ∈ f.blocks) {i : Inst} (hi : i ∈ b.insts) : i ∈ insts f :=
  List.mem_flatMap.mpr ⟨b, hb, hi⟩

theorem FrameOk.next {h : Heap} {F : Frame} (hF : FrameOk M prior avp h F) {i : Inst} {is : List Inst}
    (hrest : F.rest = i :: is) : i ∈ insts F.fn ∧ is <:+ F.blk.insts := by
  have hsuf := hF.rest
  rw [hrest] at hsuf
  exact ⟨mem_insts hF.blk (hsuf.subset List.mem_cons_self), (List.suffix_cons i is).trans hsuf⟩

theorem FrameOk.evolves {h h' : Heap} {F : Frame} (hF : FrameOk M prior avp h F) (he : h.Evolves h') :
    FrameOk M prior avp h' F :=
  ⟨hF.mem, hF.blk, hF.rest, fun r g hd v hv => (hF.placed r g hd v hv).evolves he⟩

theorem FrameOk.change {h h' : Heap} {F F' : Frame} (hF : FrameOk M prior avp h F) (he : h.Evolves h')
    (hid : F'.id = F.id) (hfn : F'.fn = F.fn) (hblk : F'.blk ∈ F.fn.blocks) (hrest : F'.rest <:+ F'.blk.insts)
    (hregs : ∀ r, F'.regs r = F.regs r ∨
      ∀ g, Derived M prior avp (F.id, F.fn) r g → ∀ v, F'.regs r = some v → Placed g v h') :
    FrameOk M prior avp h' F' := by
  refine ⟨by rw [hid, hfn]; exact hF.mem, by rw [hfn]; exact hblk, hrest, ?_⟩
  intro r g hd v hv
  rw [hid, hfn] at hd
  rcases hregs r with heq | hnew
  · exact (hF.placed r g hd v (heq ▸ hv)).evolves he
  · exact hnew g hd v hv

theorem FrameOk.entry (hM : WellFormed M) {h : Heap} {F : Frame} {g : FuncId} {vals : List Val}
    {dst : Option RegId} (hF : Entry M g vals dst F)
    (hhints : avp = true → ∀ r gq, hintOf M F.id r = some gq → ∀ v, F.regs r = some v → Placed gq v h)
    (hcontracts : ∀ i gq v, contractOf M prior (g, i) = some gq → vals[i]? = some v → Placed gq v h) :
    FrameOk M prior avp h F := by
  have hmem : (F.id, F.fn) ∈ M.functions := by
    rw [hF.id]
    exact mem_of_function hF.fn
  refine ⟨hmem, (Func.block_spec hF.blk).1, hF.rest ▸ List.suffix_rfl, fun r gq hd v hv => ?_⟩
  have hv' := hv
  rw [hF.regs] at hv'
  rcases hd.of_entry (hM.single _ hmem) hv' with ⟨havp, hhint⟩ | ⟨i, hc, hval⟩
  · exact hhints havp r gq hhint v hv
  · exact hcontracts i gq v (hF.id ▸ hc) hval

theorem exec_placed {h h' : Heap} {F : Frame} (hM : WellFormed M) (hF : FrameOk M prior avp h F) {i : Inst}
    (hi : i ∈ insts F.fn) {regs' : Program.Regs} {bs : List Nat}
    (he : Exec M.layout (widths F.id) address i F.regs h regs' h' bs)
    (hoff : ∀ dst b bv elem, i = .ptrOffset dst (.reg b) (.const (.int bv)) elem → OffsetOk M bv elem)
    {r : RegId} (hr : r ∈ i.writes) {g : SiteGuarantee} (hd : Derived M prior avp (F.id, F.fn) r g) {v : Val}
    (hv : regs' r = some v) : (avp = true ∧ hintOf M F.id r = some g) ∨ Placed g v h' := by
  rcases hd.of_write (hM.single _ hF.mem) hi hr with hhint | halloc | ⟨b, bv, elem, base, rfl, hbase, hg⟩
  · exact .inl hhint
  · obtain ⟨region, elem, bv, align, elemSize, rfl, hsize, rfl⟩ := allocGuarantee_spec halloc
    cases he with
    | alloc hcount hb hbase =>
      obtain rfl := Val.num.inj hcount
      rw [Program.Regs.set, if_pos rfl] at hv
      obtain rfl := Option.some.inj hv
      refine .inr ⟨_, 0, _, rfl, if_pos rfl, le_refl _, ?_, ?_, fun _ => rfl, fun _ => rfl⟩
      · have hle : elemSize * bv.value ≤ bv.value * elemBytes M.layout elem := by
          rw [Nat.mul_comm elemSize, elemBytes, hsize]
          exact Nat.mul_le_mul_left _ (le_max_right _ _)
        show (0 : Int) + (elemSize * bv.value : Nat) ≤ _
        rw [zero_add]
        exact_mod_cast hle
      · rw [add_zero]
        exact Int.natCast_dvd_natCast.mpr hbase
    | other hna _ _ _ _ _ _ _ => exact absurd rfl (hna _ _ _ _ _)
  · have hok := hoff _ _ _ _ rfl
    cases he with
    | move hb hidx =>
      obtain rfl := Val.num.inj hidx
      rw [Program.Regs.set, if_pos rfl] at hv
      obtain rfl := Option.some.inj hv
      exact .inr ((hF.placed b base hbase _ hb).offset hg hok)
    | moveNum hx hne =>
      obtain ⟨b', off, _, hptr, _⟩ := hF.placed b base hbase _ hx
      exact absurd hptr (hne b' off)
    | other _ _ hnp _ _ _ _ _ => exact absurd rfl (hnp _ _ _ _)

theorem contractOf_cases {k : FuncId × Nat} {g : SiteGuarantee} (h : contractOf M prior k = some g) :
    ∃ c n, (M.paramContracts.lookup k = some c ∨ prior.lookup k = some c) ∧ c.size = .bytes n ∧
      g = ⟨n, c.align, c.readable, c.writable⟩ := by
  obtain ⟨c, hor, hg⟩ := Option.bind_eq_some_iff.mp h
  split at hg
  · next n hn =>
    refine ⟨c, n, ?_, hn, (Option.some.inj hg).symm⟩
    rcases Option.or_eq_some_iff.mp hor with hor | ⟨_, hor⟩
    · exact .inl hor
    · exact .inr hor
  · exact absurd hg (by simp)

/-- The contracts of an overlay hold at every call. -/
structure PriorSound (M : Module) (closedWorld avp : Bool) (address : Symbols)
    (widths : FuncId → RegId → Nat) (outside : Outside) (prior : Overlay) : Prop where
  align : ∀ k c, prior.lookup k = some c → PowerOfTwo c.align
  bytes : ∀ k c, prior.lookup k = some c → ∃ n, c.size = .bytes n
  known : ∀ k c, prior.lookup k = some c → isCandidate M closedWorld ∅ k = true
  holds : ∀ s, ReachesOk M closedWorld avp address widths outside s → ∀ c g ops vals,
    CallAt address M s c g ops vals → ∀ i ct n v, prior.lookup (g, i) = some ct → ct.size = .bytes n →
    vals[i]? = some v → Placed ⟨n, ct.align, ct.readable, ct.writable⟩ v s.heap

theorem PriorSound.of_outside (hprior : PriorSound M closedWorld avp address widths outside prior)
    (hout : OutsideOk M closedWorld outside) {g : FuncId} {vals : List Val} {h : Heap} (ho : outside g vals h)
    {i : Nat} {gq : SiteGuarantee} {v : Val} (hc : contractOf M prior (g, i) = some gq)
    (hv : vals[i]? = some v) : Placed gq v h := by
  obtain ⟨hnone, hdecl⟩ := hout g vals h ho
  obtain ⟨c, n, hct | hct, hn, rfl⟩ := contractOf_cases hc
  · exact hdecl i c n v hct hn hv
  · exact absurd (hprior.known _ c hct) (by simp [hnone i])

theorem StackOk.start (hM : WellFormed M) (hout : OutsideOk M closedWorld outside)
    (hprior : PriorSound M closedWorld avp address widths outside prior) {s : State} (hs : Start M outside s)
    (hok : StateOk M closedWorld avp address s) : StackOk M prior avp s := by
  obtain ⟨g, vals, F, ho, hF, hstack⟩ := hs
  refine ⟨fun F' hF' => ?_, by rw [hstack]; exact .singleton F⟩
  have hhints := fun havp => hok.hints havp F' hF'
  rw [hstack] at hF'
  obtain rfl := List.mem_singleton.mp hF'
  exact FrameOk.entry hM hF hhints fun i gq v hc hv => hprior.of_outside hout ho hc hv

theorem StackOk.step (hM : WellFormed M) (hout : OutsideOk M closedWorld outside)
    (hprior : PriorSound M closedWorld avp address widths outside prior) {s s' : State}
    (hr : ReachesOk M closedWorld avp address widths outside s) (hS : StackOk M prior avp s)
    (hstep : Step address M widths outside s s') (hok' : StateOk M closedWorld avp address s') :
    StackOk M prior avp s' := by
  have hev := hstep.evolves
  have hok := hr.ok
  -- the frames below the top are as before, on a heap that has evolved
  have hbelow {F : Frame} {st : List Frame} {h h' : Heap} (hS : StackOk M prior avp ⟨h, F :: st⟩)
      (he : h.Evolves h') : ∀ G ∈ st, FrameOk M prior avp h' G :=
    fun G hG => (hS.frames G (List.mem_cons_of_mem F hG)).evolves he
  have htop {F : Frame} {st : List Frame} {h : Heap} (hS : StackOk M prior avp ⟨h, F :: st⟩) :
      FrameOk M prior avp h F := hS.frames F List.mem_cons_self
  -- a frame that keeps its place in the stack keeps its link
  have hlink {F F' : Frame} {st : List Frame} (hdst : F'.dst = F.dst) (h : (F :: st).IsChain Linked) :
      (F' :: st).IsChain Linked := by
    cases st with
    | nil => exact .singleton F'
    | cons G st =>
      obtain ⟨hfg, hrest⟩ := List.isChain_cons_cons.mp h
      exact List.isChain_cons_cons.mpr ⟨fun d hd => hfg d (hdst ▸ hd), hrest⟩
  cases hstep with
  | inst hrest he =>
    next h h' F st i is regs' bs =>
    have hF := htop hS
    obtain ⟨hi, his⟩ := hF.next hrest
    have hhints := fun havp => hok'.hints havp _ List.mem_cons_self
    refine ⟨List.forall_mem_cons.mpr ⟨?_, hbelow hS hev⟩, hlink (F := F) rfl hS.linked⟩
    refine hF.change hev rfl rfl hF.blk his fun r => ?_
    by_cases hw : r ∈ i.writes
    · refine .inr fun g hd v hv => ?_
      have hoff (dst b bv elem) (heq : i = .ptrOffset dst (.reg b) (.const (.int bv)) elem) :
          OffsetOk M bv elem := hok.offsets F st dst b bv elem is rfl (heq ▸ hrest)
      rcases exec_placed hM hF hi he hoff hw hd hv with ⟨havp, hhint⟩ | hplaced
      · exact hhints havp r g hhint v hv
      · exact hplaced
    · exact .inl (he.regs_eq hw)
  | jump hrest hgoes hblk hvals =>
    next h F st target args tb vals =>
    have hF := htop hS
    have hhints := fun havp => hok'.hints havp _ List.mem_cons_self
    have htb := (Func.block_spec hblk).1
    refine ⟨List.forall_mem_cons.mpr ⟨?_, hbelow hS hev⟩, hlink (F := F) rfl hS.linked⟩
    refine hF.change hev rfl rfl htb List.suffix_rfl fun r => ?_
    by_cases hp : r ∈ tb.params.map Prod.fst
    · refine .inr fun g hd v hv => ?_
      obtain ⟨havp, hhint⟩ := hd.of_blockParam (hM.single _ hF.mem) htb hp
      exact hhints havp r g hhint v hv
    · exact .inl (Program.Regs.bind_of_not_mem hp _ _)
  | call hrest hent hvals hG =>
    next h F G st dst c args is g vals =>
    have hF := htop hS
    obtain ⟨hi, his⟩ := hF.next hrest
    have hcall : CallAt address M ⟨h, F :: st⟩ c g args vals := ⟨F, st, dst, is, rfl, hrest, hent, hvals⟩
    have hhints := fun havp => hok'.hints havp G List.mem_cons_self
    have hG' : FrameOk M prior avp h G := by
      refine FrameOk.entry hM hG hhints fun i gq v hc hv => ?_
      obtain ⟨ct, n, hct | hct, hn, rfl⟩ := contractOf_cases hc
      · exact hok.declared c g args vals hcall i ct n v hct hn hv
      · exact hprior.holds _ hr c g args vals hcall i ct n v hct hn hv
    have hF' : FrameOk M prior avp h { F with rest := is } :=
      hF.change (.refl h) rfl rfl hF.blk his fun r => .inl rfl
    refine ⟨List.forall_mem_cons.mpr ⟨hG', List.forall_mem_cons.mpr ⟨hF', hbelow hS (.refl h)⟩⟩, ?_⟩
    refine List.isChain_cons_cons.mpr ⟨fun d hd => ?_, hlink (F := F) rfl hS.linked⟩
    obtain rfl : dst = some d := hG.dst.symm.trans hd
    exact ⟨c, args, hi⟩
  | ret hrest hterm hregs =>
    next h F G st value regs' =>
    have hGF := hS.frames G (List.mem_cons_of_mem F List.mem_cons_self)
    obtain ⟨hfg, hchain⟩ := List.isChain_cons_cons.mp hS.linked
    have hhints := fun havp => hok'.hints havp _ List.mem_cons_self
    refine ⟨List.forall_mem_cons.mpr ⟨?_, ?_⟩, hlink (F := G) rfl hchain⟩
    · refine hGF.change hev rfl rfl hGF.blk hGF.rest fun r => ?_
      by_cases hd : F.dst = some r
      · -- the register of a call has no guarantee but a hint
        obtain ⟨c, args, hi⟩ := hfg r hd
        refine .inr fun g hder v hv => ?_
        rcases hder.of_write (hM.single _ hGF.mem) hi (List.mem_singleton.mpr rfl) with
          ⟨havp, hhint⟩ | halloc | ⟨_, _, _, _, heq, _⟩
        · exact hhints havp r g hhint v hv
        · exact absurd (places_alloc halloc).1 id
        · exact Inst.noConfusion heq
      · exact .inl (hregs r hd)
    · intro G' hG'
      exact (hS.frames G' (List.mem_cons_of_mem F (List.mem_cons_of_mem G hG'))).evolves hev
  | outside hrest hnone he hregs =>
    next h h' F st dst c args is regs' =>
    have hF := htop hS
    obtain ⟨hi, his⟩ := hF.next hrest
    have hhints := fun havp => hok'.hints havp _ List.mem_cons_self
    refine ⟨List.forall_mem_cons.mpr ⟨?_, hbelow hS hev⟩, hlink (F := F) rfl hS.linked⟩
    refine hF.change hev rfl rfl hF.blk his fun r => ?_
    by_cases hd : dst = some r
    · subst hd
      refine .inr fun g hder v hv => ?_
      rcases hder.of_write (hM.single _ hF.mem) hi (List.mem_singleton.mpr rfl) with
        ⟨havp, hhint⟩ | halloc | ⟨_, _, _, _, heq, _⟩
      · exact hhints havp r g hhint v hv
      · exact absurd (places_alloc halloc).1 id
      · exact Inst.noConfusion heq
    · exact .inl (hregs r hd)
  | callback hrest hnone he ho hG =>
    next h h' F G st dst c args is g vals =>
    have hhints := fun havp => hok'.hints havp G List.mem_cons_self
    have hG' : FrameOk M prior avp h' G :=
      FrameOk.entry hM hG hhints fun i gq v hc hv => hprior.of_outside hout ho hc hv
    have hF' : FrameOk M prior avp h' { F with busy := true } :=
      (htop hS).change hev rfl rfl (htop hS).blk (htop hS).rest fun r => .inl rfl
    refine ⟨List.forall_mem_cons.mpr ⟨hG', List.forall_mem_cons.mpr ⟨hF', hbelow hS hev⟩⟩, ?_⟩
    exact List.isChain_cons_cons.mpr ⟨fun d hd => absurd (hG.dst.symm.trans hd) (by simp),
      hlink (F := F) rfl hS.linked⟩

theorem ReachesOk.stackOk (hM : WellFormed M) (hout : OutsideOk M closedWorld outside)
    (hprior : PriorSound M closedWorld avp address widths outside prior) {s : State}
    (h : ReachesOk M closedWorld avp address widths outside s) : StackOk M prior avp s := by
  induction h with
  | start hs hok => exact StackOk.start hM hout hprior hs hok
  | step hr hstep hok ih => exact ih.step hM hout hprior hr hstep hok

/-! ## A round -/

theorem isCandidate_empty {k : FuncId × Nat} (h : isCandidate M closedWorld prior k = true) :
    isCandidate M closedWorld ∅ k = true := by
  rw [isCandidate, List.any_eq_true] at h ⊢
  obtain ⟨f, hf, hcond⟩ := h
  refine ⟨f, hf, ?_⟩
  simp only [Bool.and_eq_true] at hcond ⊢
  exact ⟨hcond.1, by simp⟩

theorem function_of_mem {f : FuncId × Func} (hf : f ∈ M.functions) : Scalars.function M f.1 = some f.2 := by
  rw [Scalars.function]
  cases hfind : M.functions.find? fun g => decide (g.1 = f.1) with
  | none => exact absurd (List.find?_eq_none.mp hfind f hf) (by simp)
  | some g =>
    have hid := List.find?_some hfind
    have heq := List.inj_on_of_nodup_map M.ids_nodup (List.mem_of_find?_eq_some hfind) hf (of_decide_eq_true hid)
    rw [Option.map_some, heq]

theorem lt_params_of_candidate {g : FuncId} {i : Nat} (h : isCandidate M closedWorld prior (g, i) = true)
    {callee : Func} (hcallee : Scalars.function M g = some callee) : i < callee.params.length := by
  rw [isCandidate, List.any_eq_true] at h
  obtain ⟨f, hf, hcond⟩ := h
  simp only [Bool.and_eq_true, decide_eq_true_eq] at hcond
  obtain ⟨⟨⟨⟨⟨hid, _⟩, _⟩, hptr⟩, _⟩, _⟩ := hcond
  have hfn := function_of_mem hf
  rw [hid, hcallee] at hfn
  obtain rfl := Option.some.inj hfn
  by_contra hge
  rw [List.getElem?_eq_none (not_lt.mp hge)] at hptr
  exact absurd hptr (by simp)

theorem mem_siteEvents {defs : Defs} {i : Inst} {e : (FuncId × Nat) × Option SiteGuarantee}
    (h : e ∈ siteEvents M closedWorld prior defs i) :
    isCandidate M closedWorld prior e.1 = true ∧ ∀ s, e.2 = some s → ∃ r, defs r = some s := by
  rw [siteEvents.eq_def] at h
  split at h
  · split at h
    · exact absurd h List.not_mem_nil
    · split at h
      · obtain ⟨j, _, hj⟩ := List.mem_filterMap.mp h
        split at hj
        · next hcand =>
          obtain rfl := Option.some.inj hj
          exact ⟨hcand, fun s hs => absurd hs (by simp)⟩
        · exact absurd hj (by simp)
      · obtain ⟨a, _, ha⟩ := List.mem_filterMap.mp h
        split at ha
        · next hcand =>
          obtain rfl := Option.some.inj ha
          refine ⟨hcand, fun s hs => ?_⟩
          obtain ⟨op, _⟩ := a
          cases op with
          | reg r => exact ⟨r, hs⟩
          | const c => exact absurd hs (by simp [deriveSite])
        · exact absurd ha (by simp)
  · exact absurd h List.not_mem_nil

theorem mem_events {e : (FuncId × Nat) × Option SiteGuarantee} :
    e ∈ events M closedWorld avp prior ↔ ∃ f ∈ M.functions, ∃ i ∈ insts f.2,
      e ∈ siteEvents M closedWorld prior (localDefs M prior avp f) i := by
  simp only [events, List.mem_flatMap]

theorem lookup_addRound {k : FuncId × Nat} {c : PtrContract}
    (h : (addRound M closedWorld avp prior).lookup k = some c) :
    prior.lookup k = some c ∨ synthesizeRound M closedWorld avp prior k = some c := by
  have hfold (step : Overlay → FuncId × Nat → Overlay)
      (hsome : ∀ acc k' c', synthesizeRound M closedWorld avp prior k' = some c' → step acc k' = acc.insert k' c')
      (hnone : ∀ acc k', synthesizeRound M closedWorld avp prior k' = none → step acc k' = acc)
      (ks : List (FuncId × Nat)) (acc : Overlay)
      (hacc : ∀ c, acc.lookup k = some c → prior.lookup k = some c ∨
        synthesizeRound M closedWorld avp prior k = some c) :
      ∀ c, (ks.foldl step acc).lookup k = some c →
        prior.lookup k = some c ∨ synthesizeRound M closedWorld avp prior k = some c := by
    induction ks generalizing acc with
    | nil => exact hacc
    | cons k' ks ih =>
      refine ih _ fun c hc => ?_
      cases hnew : synthesizeRound M closedWorld avp prior k' with
      | none =>
        rw [hnone acc k' hnew] at hc
        exact hacc c hc
      | some c' =>
        rw [hsome acc k' c' hnew] at hc
        by_cases hk : k = k'
        · subst hk
          rw [AList.lookup_insert] at hc
          exact .inr (hnew.trans hc)
        · rw [AList.lookup_insert_ne hk] at hc
          exact hacc c hc
  rw [addRound] at h
  exact hfold _ (fun _ _ _ hnew => by simp only [hnew]) (fun _ _ hnew => by simp only [hnew]) _ prior
    (fun c hc => .inl hc) c h

theorem synthesizeRound_kept (hM : WellFormed M)
    (halign : ∀ k c, prior.lookup k = some c → PowerOfTwo c.align) {k : FuncId × Nat} {c : PtrContract}
    (h : synthesizeRound M closedWorld avp prior k = some c) :
    ∃ g, c = toContract (decide (k.1 ∈ M.internal)) g ∧
      Kept Weaker (fun g => PowerOfTwo g.align) (events M closedWorld avp prior) k g := by
  rw [synthesizeRound] at h
  split at h
  · next g hg =>
    refine ⟨g, (Option.some.inj h).symm, ?_⟩
    refine (foldSites_spec Weaker.refl Weaker.trans weaker_left weaker_right (fun ha hb => ha.min hb) _
      (fun e he s hs => ?_) k).2 g hg
    obtain ⟨f, hf, i, _, hsite⟩ := mem_events.mp he
    obtain ⟨r, hr⟩ := (mem_siteEvents hsite).2 s hs
    exact (localDefs_derived r s hr).align hM hf halign
  · exact absurd h (by simp)

theorem PriorSound.addRound (hM : WellFormed M) (hout : OutsideOk M closedWorld outside)
    (hprior : PriorSound M closedWorld avp address widths outside prior) :
    PriorSound M closedWorld avp address widths outside (Contracts.addRound M closedWorld avp prior) := by
  refine ⟨fun k c hc => ?_, fun k c hc => ?_, fun k c hc => ?_,
    fun s hr c g ops vals hcall i ct n v hct hn hv => ?_⟩
  · rcases lookup_addRound hc with hc | hc
    · exact hprior.align k c hc
    · obtain ⟨g, rfl, hkept⟩ := synthesizeRound_kept hM hprior.align hc
      exact hkept.ok
  · rcases lookup_addRound hc with hc | hc
    · exact hprior.bytes k c hc
    · obtain ⟨g, rfl, _⟩ := synthesizeRound_kept hM hprior.align hc
      exact ⟨g.size, rfl⟩
  · rcases lookup_addRound hc with hc | hc
    · exact hprior.known k c hc
    · obtain ⟨g, _, hkept⟩ := synthesizeRound_kept hM hprior.align hc
      obtain ⟨e, he, rfl⟩ := hkept.some_site
      obtain ⟨f, _, i, _, hsite⟩ := mem_events.mp he
      exact isCandidate_empty (mem_siteEvents hsite).1
  · rcases lookup_addRound hct with hct | hct
    · exact hprior.holds s hr c g ops vals hcall i ct n v hct hn hv
    · obtain ⟨gq, rfl, hkept⟩ := synthesizeRound_kept hM hprior.align hct
      obtain rfl := SizeSpec.bytes.inj hn
      have hcand : isCandidate M closedWorld prior (g, i) = true := by
        obtain ⟨e, he, hk⟩ := hkept.some_site
        obtain ⟨f, _, j, _, hsite⟩ := mem_events.mp he
        exact hk ▸ (mem_siteEvents hsite).1
      -- the call is one of the sites
      obtain rfl := hr.ok.direct c g ops vals hcall i (isCandidate_empty hcand)
      obtain ⟨F, st, dst, is, hstack, hrest, _, hvals⟩ := hcall
      have hF := (hr.stackOk hM hout hprior).frames F (hstack ▸ List.mem_cons_self)
      obtain ⟨hi, _⟩ := hF.next hrest
      have hsite {e : (FuncId × Nat) × Option SiteGuarantee}
          (he : e ∈ siteEvents M closedWorld prior (localDefs M prior avp (F.id, F.fn))
            (.call dst (.direct g) ops)) : e ∈ events M closedWorld avp prior :=
        mem_events.mpr ⟨(F.id, F.fn), hF.mem, _, hi, he⟩
      obtain ⟨callee, hcallee⟩ : ∃ callee, Scalars.function M g = some callee := by
        rw [isCandidate, List.any_eq_true] at hcand
        obtain ⟨f, hf, hcond⟩ := hcand
        simp only [Bool.and_eq_true, decide_eq_true_eq] at hcond
        exact ⟨f.2, hcond.1.1.1.1.1 ▸ function_of_mem hf⟩
      by_cases hlen : ops.length = callee.params.length
      · obtain ⟨op, hop, hval⟩ : ∃ op, ops[i]? = some op ∧ Evals address F.regs op v := by
          obtain ⟨hlt, hget⟩ := List.getElem?_eq_some_iff.mp hv
          have hlt' : i < ops.length := hvals.length_eq ▸ hlt
          have heval := hvals.get hlt' hlt
          exact ⟨ops[i], List.getElem?_eq_getElem hlt', by simpa [hget] using heval⟩
        have he : ((g, i), deriveSite op (localDefs M prior avp (F.id, F.fn))) ∈
            events M closedWorld avp prior := by
          apply hsite
          simp only [siteEvents, hcallee, if_neg (not_not.mpr hlen)]
          apply List.mem_filterMap.mpr
          exact ⟨(op, i), List.mk_mem_zipIdx_iff_getElem?.mpr hop, by rw [if_pos hcand]⟩
        obtain ⟨s', hs', hweak⟩ := hkept.below _ he rfl
        cases op with
        | const c => exact absurd hs' (by simp [deriveSite])
        | reg r => exact (hF.placed r s' (localDefs_derived r s' hs') v hval).weaken hweak
      · have he : ((g, i), none) ∈ events M closedWorld avp prior := by
          apply hsite
          simp only [siteEvents, hcallee, if_pos hlen]
          apply List.mem_filterMap.mpr
          exact ⟨i, List.mem_range.mpr (lt_params_of_candidate hcand hcallee), by rw [if_pos hcand]⟩
        obtain ⟨s', hs', _⟩ := hkept.below _ he rfl
        exact absurd hs' (by simp)

theorem synthesize_sound (hM : WellFormed M) (hout : OutsideOk M closedWorld outside) :
    PriorSound M closedWorld avp address widths outside (synthesize M closedWorld avp) := by
  rw [synthesize]
  generalize (M.functions.map fun f => f.2.params.length).sum + 1 = n
  induction n with
  | zero => exact ⟨fun k c h => absurd h (by simp), fun k c h => absurd h (by simp),
      fun k c h => absurd h (by simp), fun s _ c g ops vals _ i ct n v h => absurd h (by simp)⟩
  | succ n ih =>
    rw [Function.iterate_succ_apply']
    exact ih.addRound hM hout

/-! ## The claim -/

/-- The value points into a live block as the contract says. -/
def Meets (c : PtrContract) (v : Val) (h : Heap) : Prop :=
  ∃ n b off blk, c.size = .bytes n ∧ v = .ptr b off ∧ h.blocks b = some blk ∧ blk.live = true ∧ 0 ≤ off ∧
    off + n ≤ blk.size ∧ (c.align : Int) ∣ blk.base + off ∧ (c.readable = true → blk.readable = true) ∧
    (c.writable = true → blk.writable = true)

variable (M closedWorld avp address widths outside) in
/-- **The claim on pointer contracts**: every call that an execution reaches passes what the synthesized
    contracts say. -/
def ContractsHold : Prop :=
  ∀ s, Reaches address M widths outside s → ∀ c g ops vals, CallAt address M s c g ops vals →
    ∀ i ct v, (synthesize M closedWorld avp).lookup (g, i) = some ct → vals[i]? = some v → Meets ct v s.heap

/-- The value is no pointer into a block that has ended. -/
def NotEnded (v : Val) (h : Heap) : Prop :=
  ∀ b off blk, v = .ptr b off → h.blocks b = some blk → blk.live = true

theorem Placed.meets {c : PtrContract} {n : Nat} (hn : c.size = .bytes n) {v : Val} {h : Heap}
    (hp : Placed ⟨n, c.align, c.readable, c.writable⟩ v h) (hlive : NotEnded v h) : Meets c v h := by
  obtain ⟨b, off, blk, hv, hb, hrest⟩ := hp
  exact ⟨n, b, off, blk, hn, hv, hb, hlive b off blk hv hb, hrest⟩

end Runs

def oneI64 : BitVector := ⟨64, 1, BitVector.pos64, BitVector.le64, BitVector.one_lt64⟩

/-- `{ p = malloc(8); free(p); g(p); return }`, or without the `free`. -/
def passBlock (freed : Bool) : BasicBlock where
  id := 0
  params := []
  insts := .alloc 1 .heap (.int 64) (.const (.int oneI64)) 8 ::
    ((if freed then [.dealloc .heap (.reg 1)] else []) ++ [.call none (.direct 1) [.reg 1]])
  term := .ret none

def passFn (freed : Bool) : Func where
  name := "f"
  params := []
  retTy := .unit
  blocks := [passBlock freed]
  entry := 0

/-- `fn g(p) { return }`. -/
def takesPtr : Func where
  name := "g"
  params := [(0, .ptr (.int 64))]
  retTy := .unit
  blocks := [⟨0, [], [], .ret none⟩]
  entry := 0

def passModule (freed : Bool) : Module where
  functions := [(0, passFn freed), (1, takesPtr)]
  layout := .lp64
  paramContracts := ∅
  unanalyzed := []
  internal := {1}
  globals := ∅
  rawPtrHints := ∅
  provGrants := ∅
  globalFnPtrs := ∅
  globalPtrFields := ∅
  regPtrHints := ∅
  fieldPtrEvidence := ∅
  fieldLoadSites := ∅
  mmioHandlers := ∅
  ids_nodup := by simp
  calls_own := by cases freed <;> simp [passFn, passBlock, takesPtr, Func.callees, Inst.callee, Callee.target]
  params_own := fun _ h => absurd h List.not_mem_nil
  raw_own := fun _ h => absurd h List.not_mem_nil
  reg_own := fun _ h => absurd h List.not_mem_nil
  sites_own := fun _ h => absurd h List.not_mem_nil
  ptrs_own := by simp

/-- The program is started in `f`. -/
def startsInF : Outside := fun g vals _ => g = 0 ∧ vals = []

theorem passModule_wellFormed (freed : Bool) : WellFormed (passModule freed) := by
  have hboth {P : FuncId × Func → Prop} (h0 : P (0, passFn freed)) (h1 : P (1, takesPtr)) :
      ∀ f ∈ (passModule freed).functions, P f := by
    intro f hf
    rcases List.mem_pair.mp hf with rfl | rfl
    · exact h0
    · exact h1
  refine ⟨hboth ?_ ?_, hboth ?_ ?_, by simp [passModule], by simp [passModule]⟩
  · cases freed <;>
      exact ⟨by simp [passFn], by simp [passFn], by simp [passFn],
        by simp [passFn, passBlock, insts, Places, Inst.writes, Inst.definedReg],
        by simp [passFn, passBlock, insts]⟩
  · exact ⟨by simp [takesPtr], by simp [takesPtr, insts], by simp [takesPtr], by simp [takesPtr, insts],
      by simp [takesPtr, insts]⟩
  · cases freed <;>
      · intro dst region elem count align hi
        have halign : align = 8 := by
          simp [passFn, passBlock, insts] at hi
          exact hi.2.2.2.2
        exact ⟨3, by rw [halign]; decide⟩
  · intro dst region elem count align hi
    exact absurd hi (by simp [takesPtr, insts])

theorem startsInF_ok (freed : Bool) : OutsideOk (passModule freed) false startsInF := by
  rintro g vals h ⟨rfl, rfl⟩
  refine ⟨fun i => ?_, fun i c n v hc => absurd hc (by simp [passModule])⟩
  cases freed <;> simp [isCandidate, passModule, passFn, takesPtr]

/-- The contract of `g`. -/
def passContract : PtrContract := ⟨.bytes 8, 8, true, true, some internalCallContract, false, none⟩

theorem synthesize_passModule (freed : Bool) :
    (synthesize (passModule freed) false false).lookup (1, 0) = some passContract := by
  cases freed <;> decide +kernel

/-- The frame of `f` with the given instructions left. -/
def passFrame (freed : Bool) (rest : List Inst) (regs : Program.Regs) : Frame :=
  ⟨0, passFn freed, passBlock freed, rest, regs, [], none, false⟩

def emptyHeap : Heap := ⟨fun _ => none, fun _ _ => none⟩

def passStart (freed : Bool) : State :=
  ⟨emptyHeap, [passFrame freed (passBlock freed).insts fun _ => none]⟩

def passAlloc (freed : Bool) : State :=
  ⟨emptyHeap.alloc 0 ⟨0, 8, true, true, true⟩,
    [passFrame freed (passBlock freed).insts.tail (Program.Regs.set (fun _ => none) 1 (.ptr 0 0))]⟩

theorem passStart_start (freed : Bool) : Start (passModule freed) startsInF (passStart freed) :=
  ⟨0, [], _, ⟨rfl, rfl⟩, ⟨rfl, rfl, rfl, rfl, rfl, rfl, rfl, rfl⟩, rfl⟩

variable (address : Symbols) (widths : FuncId → RegId → Nat)

theorem passStart_step (freed : Bool) :
    Step address (passModule freed) widths startsInF (passStart freed) (passAlloc freed) := by
  have hexec := @Exec.alloc .lp64 (widths 0) address 1 .heap (.int 64) (.const (.int oneI64)) 8 1 0 0
    (fun _ => none) emptyHeap rfl rfl (by decide)
  exact @Step.inst address (passModule freed) widths startsInF emptyHeap _
    (passFrame freed (passBlock freed).insts fun _ => none) [] _ _ _ _ rfl hexec

end Contracts

end Csolver
