import Csolver.Symbolic.Machine
import Csolver.Symbolic.Merge

/-!
# The null check on a joined pointer (`check_access` of `exec/checks.rs`)

Two opaque pointers count as having the same provenance, and their join keeps the provenance of the
first, identity included. What is known of an identity is then known of the join: a mark that the
identity is non-null, and every path condition on its symbol. Whether the second alternative is null
is not looked at.
-/

namespace Csolver

/-- A sound entailment check, as `prove` uses one. -/
structure Prover where
  entails : List Expr → Expr → Bool
  sound : ∀ as g, entails as g = true → ∀ ρ : Valuation, (∀ a ∈ as, a.Holds ρ) → g.Holds ρ

/-- What the null check reads of a path state: beside the conditions the identities marked non-null and
    the provenance that is labelled `iomem`. -/
structure CheckState extends PathState where
  nonnullProvs : List Nat
  iomem : Prov → Bool

/-- How the obligation is recorded. An assumed one is discharged under `VALID_MMIO`. -/
inductive NullRecord where
  | proved | assumed | refuted | unknown
  deriving DecidableEq

/-- What a null check needs from the executor. -/
structure NullChecker where
  prover : Prover
  assumeValidMmio : Bool
  feasible : CheckState → Bool

namespace NullChecker

variable (nc : NullChecker)

def prove (goal : Expr) (st : CheckState) : Bool := nc.prover.entails (st.pathcond ++ st.facts) goal

/-- The address of an identified opaque pointer compared with null. -/
def versusNull (op : CmpOp) (i : Nat) : Expr := .mkCmp op (.sym (ptrName i) ptrWidth) (.int ptrWidth 0)

def nonNull (prov : Prov) (st : CheckState) : Bool :=
  match prov with
  | .region _ => true
  | .unknown _ (some i) => decide (i ∈ st.nonnullProvs) || nc.prove (versusNull .ne i) st
  | _ => false

def definitelyNull (prov : Prov) (st : CheckState) : Bool :=
  match prov with
  | .null => true
  | .unknown _ (some i) => nc.prove (versusNull .eq i) st
  | _ => false

/-- The record for a pointer that is no select. -/
def recordFor (prov : Prov) (st : CheckState) : NullRecord :=
  if nc.assumeValidMmio && st.iomem prov then .assumed
  else if nc.nonNull prov st then .proved
  else if nc.definitelyNull prov st && nc.feasible st then .refuted
  else .unknown

def assume (st : CheckState) (c : Expr) : CheckState := { st with pathcond := st.pathcond ++ [c] }

mutual

/-- The records of an access: a select is checked on each side, under its condition. -/
def checkProv : Prov → CheckState → List NullRecord
  | .select c t e, st => checkPointer t (assume st c) ++ checkPointer e (assume st (.mkNot c))
  | prov, st => [nc.recordFor prov st]

def checkPointer : SymPointer → CheckState → List NullRecord
  | .mk prov _ _ _, st => checkProv prov st

end

/-- The obligation is proved: every record of it is. -/
def Proves (v : SymValue) (st : CheckState) : Prop :=
  match v with
  | .ptr p => ∀ r ∈ nc.checkPointer p st, r = .proved
  | .scalar _ => False

end NullChecker

/-- An instance of the state, in which the marked identities are not null. -/
structure CheckState.Describes (st : CheckState) (ρ : Valuation) (m : Machine) : Prop where
  path : st.toPathState.Describes ρ m
  marked : ∀ i ∈ st.nonnullProvs, m.ident i ≠ 0

/-- The pointer does not derive from null. -/
def SymPointer.NonNull (ρ : Valuation) (m : Machine) (p : SymPointer) : Prop :=
  ∀ b, p.prov.At ρ m b → b ≠ 0

/-- A proof for the join is a proof for the pointer selected. -/
def NullSafe (nc : NullChecker) (st : CheckState) (d : Expr) (pa pb : SymPointer) (joined : SymValue) :
    Prop :=
  nc.Proves joined st → ∀ ρ m, st.Describes ρ m →
    (d.Holds ρ → pa.NonNull ρ m) ∧ (¬d.Holds ρ → pb.NonNull ρ m)

/-- The second alternative is not null wherever it is selected. -/
def OtherNonNull (st : CheckState) (d : Expr) (pb : SymPointer) : Prop :=
  ∀ ρ m, st.Describes ρ m → ¬d.Holds ρ → pb.NonNull ρ m

theorem nonNull_sound {nc : NullChecker} {prov : Prov} {st : CheckState} {ρ : Valuation} {m : Machine}
    {o : POrigin} {i : Option Nat} (hprov : prov = .unknown o i) (h : nc.nonNull prov st = true)
    (hst : st.Describes ρ m) : ∀ b, prov.At ρ m b → b ≠ 0 := by
  subst hprov
  cases i with
  | none => exact absurd h (by simp [NullChecker.nonNull])
  | some i =>
    intro b hb
    obtain rfl : b = m.ident i := hb
    rw [NullChecker.nonNull, Bool.or_eq_true, decide_eq_true_eq] at h
    rcases h with hmark | hproof
    · exact hst.marked i hmark
    · have hassume : ∀ a ∈ st.pathcond ++ st.facts, a.Holds ρ := by
        intro a ha
        rcases List.mem_append.mp ha with ha | ha
        · exact hst.path.path a ha
        · exact hst.path.fact a ha
      have hne := nc.prover.sound _ _ hproof ρ hassume
      rw [NullChecker.versusNull, Expr.holds_mkCmp] at hne
      intro hzero
      rw [hst.path.ident i] at hzero
      have heval : (Expr.sym (ptrName i) ptrWidth).eval ρ = 0 := hzero
      rw [heval] at hne
      have hfalse : CmpOp.eval .ne 64 0 0 = true := hne
      exact absurd hfalse (by decide)

theorem proves_select_iff (nc : NullChecker) (st : CheckState) (d : Expr) (o₁ o₂ : POrigin)
    (i₁ i₂ : Option Nat) (f₁ f₂ : Expr) (al₁ al₂ : Nat) (b₁ b₂ : Option RegId) (ty : Ty) (ex : Explorer) :
    nc.Proves (select d (.ptr (.mk (.unknown o₁ i₁) f₁ al₁ b₁)) (.ptr (.mk (.unknown o₂ i₂) f₂ al₂ b₂))
      ty ex).1 st ↔ nc.recordFor (.unknown o₁ i₁) st = .proved := by
  have hselect : (select d (.ptr (.mk (.unknown o₁ i₁) f₁ al₁ b₁))
      (.ptr (.mk (.unknown o₂ i₂) f₂ al₂ b₂)) ty ex).1 =
      .ptr (.mk (.unknown o₁ i₁) (.mkIte d f₁ f₂) (gcdAlign al₁ al₂)
        (joinBorrow (.mk (.unknown o₁ i₁) f₁ al₁ b₁) (.mk (.unknown o₂ i₂) f₂ al₂ b₂))) := rfl
  rw [hselect]
  simp [NullChecker.Proves, NullChecker.checkPointer, NullChecker.checkProv]

theorem recordFor_proved_iff (nc : NullChecker) (prov : Prov) (st : CheckState) :
    nc.recordFor prov st = .proved ↔
      (nc.assumeValidMmio && st.iomem prov) = false ∧ nc.nonNull prov st = true := by
  unfold NullChecker.recordFor
  split_ifs <;> simp_all

/-- Identity `0` is a parameter marked non-null, identity `1` a parameter that is not. -/
def oneMarked : CheckState where
  env := fun _ => none
  regions := []
  pathcond := []
  facts := []
  heap := []
  exact := false
  nonnullProvs := [0]
  iomem := fun _ => false

/-- Nothing is entailed but what is assumed. -/
def assumptionProver : Prover where
  entails as g := decide (g ∈ as)
  sound _ g h _ has := has g (of_decide_eq_true h)

def plainChecker : NullChecker := ⟨assumptionProver, false, fun _ => true⟩

end Csolver
