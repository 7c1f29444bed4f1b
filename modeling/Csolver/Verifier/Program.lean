import Csolver.Verifier.Scalars

/-!
# Executions of a whole program

The meaning that contracts between functions are measured against. Memory is a set of blocks; a pointer
is a place in a block. A block is live from its allocation until it is freed, its frame returns or code
outside of the module frees it, and keeps its base, size and permissions. The stack has a frame for every
function that is active.

What a load or an intrinsic delivers and what code outside of the module does to memory are left open.
Code outside may also enter any function of the module while it is called, and starts the program.
-/

namespace Csolver

namespace Program

/-- A machine value: a number, a place in a block, or the address of a function. -/
inductive Val where
  | num (n : Nat)
  | ptr (b : Nat) (off : Int)
  | code (f : FuncId)
  deriving DecidableEq

structure Block where
  base : Nat
  size : Nat
  readable : Bool
  writable : Bool
  live : Bool

def Block.end (blk : Block) : Block := { blk with live := false }

/-- Memory. A byte is the `i`-th byte of the value that was stored there. -/
structure Heap where
  blocks : Nat → Option Block
  bytes : Nat → Int → Option (Val × Nat)

abbrev Regs := RegId → Option Val

def Regs.set (regs : Regs) (r : RegId) (v : Val) : Regs := fun q => if q = r then some v else regs q

/-- Bind parameters from the left, a later one over an earlier. -/
def Regs.bind (regs : Regs) : List (RegId × Ty) → List Val → Regs
  | (r, _) :: ps, v :: vs => (regs.set r v).bind ps vs
  | _, _ => regs

/-- An active function: where it is, its registers, the stack blocks it allocated, where its caller
    wants the result, and whether code outside has entered the module again while it is called. -/
structure Frame where
  id : FuncId
  fn : Func
  blk : BasicBlock
  rest : List Inst
  regs : Regs
  owned : List Nat
  dst : Option RegId
  busy : Bool

structure State where
  heap : Heap
  stack : List Frame

/-! ## Blocks -/

/-- Blocks keep what they are, though they may end, and there may be new ones. -/
def Heap.Evolves (h h' : Heap) : Prop :=
  ∀ b blk, h.blocks b = some blk → ∃ live, h'.blocks b = some { blk with live := live }

def Heap.alloc (h : Heap) (b : Nat) (blk : Block) : Heap :=
  ⟨fun x => if x = b then some blk else h.blocks x, fun x => if x = b then fun _ => none else h.bytes x⟩

def Heap.free (h : Heap) (b : Nat) : Heap :=
  { h with blocks := fun x => if x = b then (h.blocks x).map Block.end else h.blocks x }

def Heap.freeAll (h : Heap) (bs : List Nat) : Heap := bs.foldl Heap.free h

/-- `n` bytes of the value are written. -/
def Heap.store (h : Heap) (b : Nat) (off : Int) (n : Nat) (v : Val) : Heap :=
  { h with bytes := fun x o =>
      if x = b ∧ off ≤ o ∧ o < off + n then some (v, (o - off).toNat) else h.bytes x o }

/-! ## Instructions -/

/-- What the loader gives a symbol with an offset. -/
abbrev Symbols := String → Int → Val

/-- The value of an operand; that of an undefined constant is any. -/
def Evals (address : Symbols) (regs : Regs) : Operand → Val → Prop
  | .reg r, v => regs r = some v
  | .const (.int bv), v => v = .num bv.value
  | .const .null, v => v = .num 0
  | .const .undef, _ => True
  | .const (.symbol name), v => v = address name 0
  | .const (.symbolOffset name off), v => v = address name off

/-- The size of an array element in an allocation: its stride, and no less than its size. -/
def elemBytes (layout : DataLayout) (elem : Ty) : Nat :=
  max ((elem.strideBytes layout).getD 1) ((elem.sizeBytes layout).getD 0)

def moved (layout : DataLayout) (off : Int) (indexWidth index : Nat) (elem : Ty) : Int :=
  off + (BitVec.ofNat indexWidth index).toInt * ((elem.strideBytes layout).getD 1 : Nat)

/-- The instructions that may write memory in a way that is not followed here. -/
def Inst.Opaque : Inst → Prop
  | .asm _ | .intrinsic _ _ _ | .memIntrinsic _ _ _ => True
  | _ => False

variable (layout : DataLayout) (Γ : RegId → Nat) (address : Symbols)

/-- One instruction that is no call, with the stack blocks it adds to the frame. -/
inductive Exec : Inst → Regs → Heap → Regs → Heap → List Nat → Prop
  | alloc {dst : RegId} {region : RegionKind} {elem : Ty} {count : Operand} {align c b base : Nat}
      {regs : Regs} {h : Heap} :
      Evals address regs count (.num c) → h.blocks b = none → max align 1 ∣ base →
      Exec (.alloc dst region elem count align) regs h (regs.set dst (.ptr b 0))
        (h.alloc b ⟨base, c * elemBytes layout elem, true, true, true⟩)
        (if region = .stack then [b] else [])
  | free {region : RegionKind} {ptr : Operand} {b : Nat} {off : Int} {regs : Regs} {h : Heap} :
      Evals address regs ptr (.ptr b off) → Exec (.dealloc region ptr) regs h regs (h.free b) []
  | freeNum {region : RegionKind} {ptr : Operand} {x : Val} {regs : Regs} {h : Heap} :
      Evals address regs ptr x → (∀ b off, x ≠ .ptr b off) → Exec (.dealloc region ptr) regs h regs h []
  | move {dst : RegId} {base index : Operand} {elem : Ty} {b i : Nat} {off : Int} {regs : Regs} {h : Heap} :
      Evals address regs base (.ptr b off) → Evals address regs index (.num i) →
      Exec (.ptrOffset dst base index elem) regs h
        (regs.set dst (.ptr b (moved layout off (index.width Γ) i elem))) h []
  | moveNum {dst : RegId} {base index : Operand} {elem : Ty} {x v : Val} {regs : Regs} {h : Heap} :
      Evals address regs base x → (∀ b off, x ≠ .ptr b off) →
      Exec (.ptrOffset dst base index elem) regs h (regs.set dst v) h []
  | store {ty : Ty} {ptr value : Operand} {volatile : Bool} {b : Nat} {off : Int} {v : Val} {regs : Regs}
      {h : Heap} :
      Evals address regs ptr (.ptr b off) → Evals address regs value v →
      Exec (.store ty ptr value volatile) regs h regs (h.store b off ((ty.sizeBytes layout).getD 0) v) []
  | storeNum {ty : Ty} {ptr value : Operand} {volatile : Bool} {x : Val} {regs : Regs} {h h' : Heap} :
      Evals address regs ptr x → (∀ b off, x ≠ .ptr b off) → h'.blocks = h.blocks →
      Exec (.store ty ptr value volatile) regs h regs h' []
  | other {i : Inst} {regs regs' : Regs} {h h' : Heap} :
      (∀ dst region elem count align, i ≠ .alloc dst region elem count align) →
      (∀ region ptr, i ≠ .dealloc region ptr) → (∀ dst base index elem, i ≠ .ptrOffset dst base index elem) →
      (∀ ty ptr value volatile, i ≠ .store ty ptr value volatile) → (∀ dst c args, i ≠ .call dst c args) →
      (∀ r, r ∉ i.writes → regs' r = regs r) → h'.blocks = h.blocks → (¬ Inst.Opaque i → h'.bytes = h.bytes) →
      Exec i regs h regs' h' []

/-- The successor that a terminator chooses. -/
inductive Goes (regs : Regs) : Terminator → BlockId → List Operand → Prop
  | br {target : BlockId} {args : List Operand} : Goes regs (.br target args) target args
  | condThen {c : Operand} {t e : BlockId} {targs eargs : List Operand} {v : Val} :
      Evals address regs c v → v ≠ .num 0 → Goes regs (.condBr c t targs e eargs) t targs
  | condElse {c : Operand} {t e : BlockId} {targs eargs : List Operand} :
      Evals address regs c (.num 0) → Goes regs (.condBr c t targs e eargs) e eargs
  | switchCase {v : Operand} {cases : List (BitVector × BlockId)} {d b : BlockId} {bv : BitVector} :
      Evals address regs v (.num bv.value) → (cases.find? fun c => c.1.value = bv.value).map (·.2) = some b →
      Goes regs (.switch v cases d) b []
  | switchDefault {v : Operand} {cases : List (BitVector × BlockId)} {d : BlockId} {x : Val} :
      Evals address regs v x → (∀ c ∈ cases, x ≠ .num c.1.value) → Goes regs (.switch v cases d) d []

/-! ## Steps of the program -/

variable (M : Module) (widths : FuncId → RegId → Nat)

/-- The function of the module that a call enters. -/
inductive Enters (regs : Regs) : Callee → FuncId → Prop
  | direct (g : FuncId) : Enters regs (.direct g) g
  | symbol {g : FuncId × Func} : g ∈ M.functions → Enters regs (.symbol g.2.name) g.1
  | indirect {op : Operand} {g : FuncId} : Evals address regs op (.code g) → Enters regs (.indirect op) g

/-- A function of the module at its start. -/
structure Entry (g : FuncId) (vals : List Val) (dst : Option RegId) (F : Frame) : Prop where
  id : F.id = g
  fn : Scalars.function M g = some F.fn
  blk : F.fn.block F.fn.entry = some F.blk
  rest : F.rest = F.blk.insts
  regs : F.regs = Regs.bind (fun _ => none) F.fn.params vals
  owned : F.owned = []
  dst : F.dst = dst
  busy : F.busy = false

/-- What code outside of the module enters the functions with. -/
abbrev Outside := FuncId → List Val → Heap → Prop

variable (outside : Outside)

inductive Step : State → State → Prop
  | inst {h h' : Heap} {F : Frame} {st : List Frame} {i : Inst} {is : List Inst} {regs' : Regs}
      {bs : List Nat} :
      F.rest = i :: is → Exec M.layout (widths F.id) address i F.regs h regs' h' bs →
      Step ⟨h, F :: st⟩ ⟨h', { F with rest := is, regs := regs', owned := bs ++ F.owned } :: st⟩
  | jump {h : Heap} {F : Frame} {st : List Frame} {target : BlockId} {args : List Operand}
      {tb : BasicBlock} {vals : List Val} :
      F.rest = [] → Goes address F.regs F.blk.term target args → F.fn.block target = some tb →
      List.Forall₂ (Evals address F.regs) args vals →
      Step ⟨h, F :: st⟩ ⟨h, { F with blk := tb, rest := tb.insts, regs := F.regs.bind tb.params vals } :: st⟩
  | call {h : Heap} {F G : Frame} {st : List Frame} {dst : Option RegId} {c : Callee} {args : List Operand}
      {is : List Inst} {g : FuncId} {vals : List Val} :
      F.rest = .call dst c args :: is → Enters address M F.regs c g →
      List.Forall₂ (Evals address F.regs) args vals → Entry M g vals dst G →
      Step ⟨h, F :: st⟩ ⟨h, G :: { F with rest := is } :: st⟩
  | ret {h : Heap} {F G : Frame} {st : List Frame} {value : Option Operand} {regs' : Regs} :
      F.rest = [] → F.blk.term = .ret value → (∀ r, F.dst ≠ some r → regs' r = G.regs r) →
      Step ⟨h, F :: G :: st⟩ ⟨h.freeAll F.owned, { G with regs := regs' } :: st⟩
  | outside {h h' : Heap} {F : Frame} {st : List Frame} {dst : Option RegId} {c : Callee}
      {args : List Operand} {is : List Inst} {regs' : Regs} :
      F.rest = .call dst c args :: is → (∀ g, ¬ Enters address M F.regs c g) → h.Evolves h' →
      (∀ r, dst ≠ some r → regs' r = F.regs r) →
      Step ⟨h, F :: st⟩ ⟨h', { F with rest := is, regs := regs', busy := false } :: st⟩
  | callback {h h' : Heap} {F G : Frame} {st : List Frame} {dst : Option RegId} {c : Callee}
      {args : List Operand} {is : List Inst} {g : FuncId} {vals : List Val} :
      F.rest = .call dst c args :: is → (∀ g, ¬ Enters address M F.regs c g) → h.Evolves h' →
      outside g vals h' → Entry M g vals none G →
      Step ⟨h, F :: st⟩ ⟨h', G :: { F with busy := true } :: st⟩

def Start (s : State) : Prop := ∃ g vals F, outside g vals s.heap ∧ Entry M g vals none F ∧ s.stack = [F]

/-- The states that an execution reaches. -/
inductive Reaches : State → Prop
  | start {s : State} : Start M outside s → Reaches s
  | step {s s' : State} : Reaches s → Step address M widths outside s s' → Reaches s'

/-- The state is before a call of `g` with the values `vals`. -/
def CallAt (s : State) (c : Callee) (g : FuncId) (ops : List Operand) (vals : List Val) : Prop :=
  ∃ F st dst is, s.stack = F :: st ∧ F.rest = .call dst c ops :: is ∧ Enters address M F.regs c g ∧
    List.Forall₂ (Evals address F.regs) ops vals

/-! ## Blocks along a run -/

variable {layout Γ address M widths outside}

theorem Heap.Evolves.refl (h : Heap) : h.Evolves h := fun _ blk hb => ⟨blk.live, hb⟩

theorem Heap.Evolves.trans {h₁ h₂ h₃ : Heap} (h : h₁.Evolves h₂) (h' : h₂.Evolves h₃) : h₁.Evolves h₃ := by
  intro b blk hb
  obtain ⟨_, hb'⟩ := h b blk hb
  obtain ⟨live, hb''⟩ := h' b _ hb'
  exact ⟨live, hb''⟩

theorem Heap.evolves_of_blocks {h h' : Heap} (hb : h'.blocks = h.blocks) : h.Evolves h' := by
  intro b blk hblk
  rw [hb]
  exact ⟨blk.live, hblk⟩

theorem Heap.evolves_free (h : Heap) (b : Nat) : h.Evolves (h.free b) := by
  intro x blk hx
  by_cases hxb : x = b
  · exact ⟨false, by simp [Heap.free, hxb ▸ hx, hxb, Block.end]⟩
  · exact ⟨blk.live, by simp [Heap.free, hxb, hx]⟩

theorem Heap.evolves_freeAll (h : Heap) (bs : List Nat) : h.Evolves (h.freeAll bs) := by
  induction bs generalizing h with
  | nil => exact .refl h
  | cons b bs ih => exact (h.evolves_free b).trans (ih (h.free b))

theorem Heap.evolves_alloc {h : Heap} {b : Nat} (hb : h.blocks b = none) (blk : Block) :
    h.Evolves (h.alloc b blk) := by
  intro x blk' hx
  have hne : x ≠ b := by
    rintro rfl
    exact absurd hx (by simp [hb])
  exact ⟨blk'.live, by simp [Heap.alloc, hne, hx]⟩

theorem Exec.evolves {i : Inst} {regs regs' : Regs} {h h' : Heap} {bs : List Nat}
    (he : Exec layout Γ address i regs h regs' h' bs) : h.Evolves h' := by
  cases he with
  | alloc _ hb _ => exact Heap.evolves_alloc hb _
  | free _ => exact h.evolves_free _
  | store _ _ => exact Heap.evolves_of_blocks rfl
  | storeNum _ _ hb => exact Heap.evolves_of_blocks hb
  | other _ _ _ _ _ _ hb _ => exact Heap.evolves_of_blocks hb
  | _ => exact .refl h

theorem Exec.regs_eq {i : Inst} {regs regs' : Regs} {h h' : Heap} {bs : List Nat}
    (he : Exec layout Γ address i regs h regs' h' bs) {r : RegId} (hr : r ∉ i.writes) : regs' r = regs r := by
  have hset {d : RegId} {v : Val} (hd : r ≠ d) : regs.set d v r = regs r := if_neg hd
  cases he with
  | alloc _ _ _ => exact hset (by simpa [Inst.writes, Inst.definedReg] using hr)
  | move _ _ => exact hset (by simpa [Inst.writes, Inst.definedReg] using hr)
  | moveNum _ _ => exact hset (by simpa [Inst.writes, Inst.definedReg] using hr)
  | other _ _ _ _ _ hregs _ _ => exact hregs r hr
  | _ => rfl

theorem Regs.bind_of_not_mem {ps : List (RegId × Ty)} {r : RegId} (hr : r ∉ ps.map Prod.fst) (regs : Regs)
    (vals : List Val) : regs.bind ps vals r = regs r := by
  induction ps generalizing regs vals with
  | nil => rfl
  | cons p ps ih =>
    obtain ⟨q, ty⟩ := p
    rw [List.map_cons, List.mem_cons, not_or] at hr
    cases vals with
    | nil => rfl
    | cons v vals => exact (ih hr.2 (regs.set q v) vals).trans (if_neg hr.1)

theorem Regs.bind_param {ps : List (RegId × Ty)} (hnd : (ps.map Prod.fst).Nodup) {i : Nat} {p : RegId × Ty}
    (hp : ps[i]? = some p) {regs : Regs} (hnone : regs p.1 = none) {vals : List Val} {v : Val}
    (hv : regs.bind ps vals p.1 = some v) : vals[i]? = some v := by
  induction ps generalizing i regs vals with
  | nil => exact absurd hp (by simp)
  | cons q ps ih =>
    obtain ⟨r, ty⟩ := q
    rw [List.map_cons, List.nodup_cons] at hnd
    cases vals with
    | nil => exact absurd (hnone.symm.trans hv) (by simp)
    | cons x vals =>
      cases i with
      | zero =>
        obtain rfl := Option.some.inj hp
        have hr := (Regs.bind_of_not_mem hnd.1 (regs.set r x) vals).symm.trans hv
        rw [Regs.set, if_pos rfl] at hr
        exact hr
      | succ i =>
        have hne : p.1 ≠ r := by
          rintro rfl
          exact hnd.1 (List.mem_map.mpr ⟨p, List.mem_of_getElem? hp, rfl⟩)
        exact ih hnd.2 hp ((if_neg hne).trans hnone) hv

theorem Step.evolves {s s' : State} (hs : Step address M widths outside s s') : s.heap.Evolves s'.heap := by
  cases hs with
  | inst _ he => exact he.evolves
  | ret _ _ _ => exact Heap.evolves_freeAll _ _
  | outside _ _ he _ => exact he
  | callback _ _ he _ _ => exact he
  | _ => exact .refl _

end Program

end Csolver
