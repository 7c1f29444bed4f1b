import Csolver.Llvm.GepSound
import Csolver.Symbolic.ExitBound
import Csolver.Symbolic.Load

/-!
# The overlap check of `memcpy` (`check_mem_intrinsic` of `exec/effects.rs`)

The ranges are compared where both pointers have the same base: a region, or an opaque identity. Then the
copy is proved to be free of overlap if one range ends, as a signed offset, before the other begins. Where
there is no common base there is nothing to compare, and the obligation counts as proved.
-/

namespace Csolver

/-- The base a pointer is keyed by. -/
inductive RefBase where
  | region (r : Nat)
  | ident (i : Nat)
  deriving DecidableEq

/-- `ptr_base_key`. A null pointer, a joined one and one without identity have none. -/
def ptrBaseKey : SymValue → Option RefBase
  | .ptr p =>
    match p.prov with
    | .region r => some (.region r)
    | .unknown _ (some i) => some (.ident i)
    | _ => none
  | .scalar _ => none

inductive Decision where
  | proven | refuted | unknown
  deriving DecidableEq

/-- What the check of a copy needs from the executor. `refutes` is the gate of a refutation and the search
    for a witness, under the given extra conditions. -/
structure CopyChecker where
  prover : Prover
  refutes : List Expr → PathState → List Expr → Bool

/-- The premise under which the size of the region does not wrap. -/
def dstRegionNowrap (p : SymPointer) (st : PathState) : Option (Expr × Expr) :=
  match p.prov with
  | .region r => st.regions[r]?.bind fun reg => reg.sizeNowrap.map fun nowrap => (reg.size, nowrap)
  | _ => none

/-- One of the ranges ends before the other begins. -/
def noOverlap (dst src : SymPointer) (len : Expr) : Expr :=
  .mkOr [.mkCmp .sle (.mkBin .add dst.offset len) src.offset, .mkCmp .sle (.mkBin .add src.offset len) dst.offset]

namespace CopyChecker

variable (cc : CopyChecker)

def decision (conjuncts : List Expr) (st : PathState) (extra : List Expr) : Decision :=
  if conjuncts.all (cc.prover.prove · st) then .proven
  else if cc.refutes conjuncts st extra then .refuted
  else .unknown

def sameBase (dst : SymPointer) (src : Option SymPointer) : Bool :=
  match src, ptrBaseKey (.ptr dst) with
  | some sp, some db => decide (ptrBaseKey (.ptr sp) = some db)
  | _, _ => false

/-- The record of `NoForbiddenOverlap`, for a length as it is evaluated. -/
def checkOverlap (dst : SymPointer) (src : Option SymPointer) (len : Expr) (st : PathState) : Decision :=
  match sameBase dst src, src with
  | true, some sp =>
    cc.decision [noOverlap dst sp (len.mkZext ptrWidth)] st ((dstRegionNowrap dst st).map (·.2)).toList
  | _, _ => .proven

end CopyChecker

/-- No byte is in both ranges of the address space. -/
def RangesDisjoint (a b n : Nat) : Prop := ∀ i < n, ∀ j < n, (a + i) % 2 ^ 64 ≠ (b + j) % 2 ^ 64

def SymPointer.signedOffset (ρ : Valuation) (p : SymPointer) : Int :=
  (BitVec.ofNat 64 (p.offset.eval ρ % 2 ^ 64)).toInt

/-- The range does not run over the largest signed offset. -/
def SymPointer.Fits (ρ : Valuation) (p : SymPointer) (n : Nat) : Prop := p.signedOffset ρ + n < 2 ^ 63

instance (ρ : Valuation) (p : SymPointer) (n : Nat) : Decidable (p.Fits ρ n) :=
  inferInstanceAs (Decidable (p.signedOffset ρ + n < 2 ^ 63))

def lengthOf (ρ : Valuation) (len : Expr) : Nat := len.eval ρ % 2 ^ 64

section

variable {ρ : Valuation} {m : Machine} {p dst src : SymPointer} {len : Expr} {n : Nat}

theorem signedOffset_bounds : -2 ^ 63 ≤ p.signedOffset ρ ∧ p.signedOffset ρ < 2 ^ 63 := by
  have hlt : p.offset.eval ρ % 2 ^ 64 < 2 ^ 64 := Nat.mod_lt _ (by norm_num)
  rw [SymPointer.signedOffset, ExitBound.toInt_64 hlt]
  split_ifs <;> omega

theorem signedOffset_modEq : p.signedOffset ρ ≡ (p.offset.eval ρ : Int) [ZMOD 2 ^ 64] := by
  have hlt : p.offset.eval ρ % 2 ^ 64 < 2 ^ 64 := Nat.mod_lt _ (by norm_num)
  rw [SymPointer.signedOffset, ExitBound.toInt_64 hlt, Int.ModEq]
  split_ifs <;> omega

theorem at_of_sameBase (h : CopyChecker.sameBase dst (some src) = true) {a b : Nat} (ha : dst.At ρ m a)
    (hb : src.At ρ m b) :
    ∃ base : Nat, a = (base + dst.offset.eval ρ) % 2 ^ 64 ∧ b = (base + src.offset.eval ρ) % 2 ^ 64 := by
  obtain ⟨pd, od, _, _⟩ := dst
  obtain ⟨ps, os, _, _⟩ := src
  obtain ⟨bd, hbd, rfl⟩ := ha
  obtain ⟨bs, hbs, rfl⟩ := hb
  have hbase : bd = bs := by
    rcases pd with _ | r | ⟨c, t, e⟩ | ⟨o, _ | i⟩ <;> rcases ps with _ | r' | ⟨c', t', e'⟩ | ⟨o', _ | i'⟩ <;>
      simp [CopyChecker.sameBase, ptrBaseKey, SymPointer.prov] at h
    · subst h
      exact hbd.trans hbs.symm
    · subst h
      exact hbd.trans hbs.symm
  subst hbase
  exact ⟨bd, rfl, rfl⟩

theorem width_mkZext_64 {e : Expr} (h : e.width ≤ 64) : (e.mkZext 64).width = 64 := by
  rw [Expr.mkZext]
  split
  · next hle => exact Nat.le_antisymm h hle
  · split <;> rfl

theorem width_mkBin_add {x y : Expr} (hx : x.width = 64) (hy : y.width = 64) :
    (Expr.mkBin .add x y).width = 64 := by
  rw [Expr.mkBin]
  cases Expr.folded .add x y with
  | some v => exact hx
  | none =>
    cases hid : Expr.identity .add x y with
    | some e =>
      rcases Expr.identity_mem hid with rfl | rfl
      · exact hx
      · exact hy
    | none =>
      simp only
      rw [if_neg fun h => BvOp.noConfusion h.1]
      exact hx

theorem signed_end (hw : p.offset.width = 64) (hfits : p.Fits ρ (lengthOf ρ len)) :
    (BitVec.ofNat 64 ((Expr.mkBin .add p.offset (len.mkZext 64)).eval ρ % 2 ^ 64)).toInt =
      p.signedOffset ρ + lengthOf ρ len := by
  have hend : (Expr.mkBin .add p.offset (len.mkZext 64)).eval ρ % 2 ^ 64 =
      (p.offset.eval ρ + (len.mkZext 64).eval ρ) % 2 ^ 64 := by
    have h := ExitBound.eval_mkBin_mod (ρ := ρ) .add p.offset (len.mkZext 64)
    rwa [hw, BvOp.add_eval] at h
  have hlen : ((len.mkZext 64).eval ρ : Int) % 2 ^ 64 = (len.eval ρ : Int) % 2 ^ 64 := Llvm.mkZext_eval len
  have hbounds := signedOffset_bounds (ρ := ρ) (p := p)
  have hoff := signedOffset_modEq (ρ := ρ) (p := p)
  rw [SymPointer.Fits] at hfits
  rw [hend, ExitBound.toInt_64 (Nat.mod_lt _ (by norm_num))]
  rw [Int.ModEq] at hoff
  rw [lengthOf] at hfits ⊢
  split_ifs <;> omega

theorem disjoint_of_end_le {base x y : Int} {a b : Nat} (ha : (a : Int) ≡ base + x [ZMOD 2 ^ 64])
    (hb : (b : Int) ≡ base + y [ZMOD 2 ^ 64]) (hx : -2 ^ 63 ≤ x) (hy : y + n < 2 ^ 63) (hle : x + n ≤ y) :
    RangesDisjoint a b n := by
  intro i hi j hj h
  rw [Int.ModEq] at ha hb
  omega

theorem RangesDisjoint.symm {a b : Nat} (h : RangesDisjoint a b n) : RangesDisjoint b a n :=
  fun i hi j hj he => h j hj i hi he.symm

theorem at_modEq {base a : Nat} {x : Expr} (h : a = (base + x.eval ρ) % 2 ^ 64) {z : Int}
    (hz : z ≡ (x.eval ρ : Int) [ZMOD 2 ^ 64]) : (a : Int) ≡ (base : Int) + z [ZMOD 2 ^ 64] := by
  rw [Int.ModEq] at hz ⊢
  omega

/-- A comparison of the end of one range with the start of the other, which are both offsets from one base. -/
theorem disjoint_of_sle (hp : p.offset.width = 64) (hlen : len.width ≤ 64) {q : SymPointer}
    (hfp : p.Fits ρ (lengthOf ρ len)) (hfq : q.Fits ρ (lengthOf ρ len)) {base a b : Nat}
    (ha : a = (base + p.offset.eval ρ) % 2 ^ 64) (hb : b = (base + q.offset.eval ρ) % 2 ^ 64)
    (h : (Expr.mkCmp .sle (.mkBin .add p.offset (len.mkZext ptrWidth)) q.offset).Holds ρ) :
    RangesDisjoint a b (lengthOf ρ len) := by
  have hwidth : (Expr.mkBin .add p.offset (len.mkZext 64)).width = 64 :=
    width_mkBin_add hp (width_mkZext_64 hlen)
  have hle : p.signedOffset ρ + lengthOf ρ len ≤ q.signedOffset ρ := by
    rw [← signed_end hp hfp]
    exact (ExitBound.sle_64 hwidth).mp h
  exact disjoint_of_end_le (at_modEq ha signedOffset_modEq) (at_modEq hb signedOffset_modEq)
    signedOffset_bounds.1 hfq hle

theorem disjoint_of_noOverlap (hd : dst.offset.width = 64) (hs : src.offset.width = 64) (hlen : len.width ≤ 64)
    (hfd : dst.Fits ρ (lengthOf ρ len)) (hfs : src.Fits ρ (lengthOf ρ len)) {base a b : Nat}
    (ha : a = (base + dst.offset.eval ρ) % 2 ^ 64) (hb : b = (base + src.offset.eval ρ) % 2 ^ 64)
    (h : (noOverlap dst src (len.mkZext ptrWidth)).Holds ρ) : RangesDisjoint a b (lengthOf ρ len) := by
  rw [noOverlap, Expr.holds_mkOr] at h
  obtain ⟨goal, hgoal, h⟩ := h
  rcases List.mem_cons.mp hgoal with rfl | hgoal
  · exact disjoint_of_sle hd hlen hfd hfs ha hb h
  · rw [List.mem_singleton.mp hgoal] at h
    exact (disjoint_of_sle hs hlen hfs hfd hb ha h).symm

theorem holds_of_proven {cc : CopyChecker} {goal : Expr} {st : PathState} {extra : List Expr}
    (h : cc.decision [goal] st extra = .proven) (hst : st.Describes ρ m) : goal.Holds ρ := by
  have hprove : cc.prover.prove goal st = true := by
    rw [CopyChecker.decision] at h
    split_ifs at h with hall
    simpa using hall
  apply cc.prover.sound _ _ hprove
  intro c hc
  rcases List.mem_append.mp hc with hc | hc
  · exact hst.path c hc
  · exact hst.fact c hc

theorem checkOverlap_of_not_sameBase {cc : CopyChecker} {st : PathState}
    (h : CopyChecker.sameBase dst (some src) = false) : cc.checkOverlap dst (some src) len st = .proven := by
  unfold CopyChecker.checkOverlap
  simp only [h]

theorem proven_of_sameBase {cc : CopyChecker} {st : PathState}
    (h : CopyChecker.sameBase dst (some src) = true) (hproven : cc.checkOverlap dst (some src) len st = .proven) :
    cc.decision [noOverlap dst src (len.mkZext ptrWidth)] st ((dstRegionNowrap dst st).map (·.2)).toList =
      .proven := by
  unfold CopyChecker.checkOverlap at hproven
  simpa only [h] using hproven

end

/-- The two regions are apart in the machine. -/
def RegionsApart (ρ : Valuation) (m : Machine) (st : PathState) (r r' : Nat) : Prop :=
  ∀ reg reg', st.regions[r]? = some reg → st.regions[r']? = some reg' →
    m.base r + reg.size.eval ρ ≤ m.base r' ∨ m.base r' + reg'.size.eval ρ ≤ m.base r

def InRegion (ρ : Valuation) (st : PathState) (p : SymPointer) (r n : Nat) : Prop :=
  p.prov = .region r ∧ ∃ reg, st.regions[r]? = some reg ∧ p.offset.eval ρ + n ≤ reg.size.eval ρ

theorem at_region {ρ : Valuation} {m : Machine} {st : PathState} {p : SymPointer} {r n a : Nat}
    (hst : st.Describes ρ m) (hin : InRegion ρ st p r n) (ha : p.At ρ m a) :
    ∃ reg, st.regions[r]? = some reg ∧ a = m.base r + p.offset.eval ρ ∧ a + n ≤ m.base r + reg.size.eval ρ := by
  obtain ⟨prov, off, _, _⟩ := p
  obtain ⟨hprov, reg, hreg, hle⟩ := hin
  obtain ⟨b, hb, rfl⟩ := ha
  rw [show prov = .region r from hprov] at hb
  obtain rfl : b = m.base r := hb
  have hfits := hst.fits r reg hreg
  have hoff : off.eval ρ + n ≤ reg.size.eval ρ := hle
  have hexact : (m.base r + off.eval ρ) % 2 ^ 64 = m.base r + off.eval ρ := Nat.mod_eq_of_lt (by omega)
  refine ⟨reg, hreg, hexact, ?_⟩
  rw [hexact]
  omega

theorem disjoint_of_apart {ρ : Valuation} {m : Machine} {st : PathState} {dst src : SymPointer} {r r' n a b : Nat}
    (hst : st.Describes ρ m) (hapart : RegionsApart ρ m st r r') (hd : InRegion ρ st dst r n)
    (hs : InRegion ρ st src r' n) (ha : dst.At ρ m a) (hb : src.At ρ m b) : RangesDisjoint a b n := by
  obtain ⟨reg, hreg, haddr, hend⟩ := at_region hst hd ha
  obtain ⟨reg', hreg', haddr', hend'⟩ := at_region hst hs hb
  have hfits := hst.fits r reg hreg
  have hfits' := hst.fits r' reg' hreg'
  have hside := hapart reg reg' hreg hreg'
  intro i hi j hj
  rw [Nat.mod_eq_of_lt (by omega), Nat.mod_eq_of_lt (by omega)]
  omega

namespace OverlapRun

/-- An opaque pointer, as a parameter is. -/
def param (i : Nat) : SymPointer := .mk (.unknown .param (some i)) (.int ptrWidth 0) 1 none

def start : PathState where
  env := fun _ => none
  regions := []
  pathcond := []
  facts := []
  heap := []
  exact := true

/-- A checker that proves what is assumed. -/
def checker : CopyChecker where
  prover := ⟨fun as g => decide (g ∈ as), assumptionProver.sound⟩
  refutes := fun _ _ _ => false

def everywhere : Valuation := fun _ _ => 4096

def machine : Machine := ⟨fun _ => 4096, fun _ => 4096⟩

theorem describes : start.Describes everywhere machine where
  path := fun _ h => absurd h List.not_mem_nil
  fact := fun _ h => absurd h List.not_mem_nil
  ident := fun _ => rfl
  fits := fun r reg h => by simp [start] at h

/-- The second half of the first parameter's object. -/
def half : SymPointer := .mk (.unknown .param (some 0)) (.int ptrWidth 8) 1 none

/-- The same state where it was tested that the halves are apart. -/
def tested : PathState :=
  { start with pathcond := [noOverlap (param 0) half ((Expr.int ptrWidth 8).mkZext ptrWidth)] }

theorem tested_describes : tested.Describes everywhere machine where
  path := by
    intro c hc
    rw [List.mem_singleton.mp hc, noOverlap, Expr.holds_mkOr]
    refine ⟨_, List.mem_cons_self, ?_⟩
    apply (ExitBound.sle_64 rfl).mpr
    decide
  fact := fun _ h => absurd h List.not_mem_nil
  ident := fun _ => rfl
  fits := fun r reg h => by simp [tested, start] at h

end OverlapRun

end Csolver
