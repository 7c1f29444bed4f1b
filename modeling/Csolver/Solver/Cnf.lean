import Csolver.Lib.Conservative
import Csolver.Solver.SatInv

/-!
# The CNF under construction and its gates (`crates/solver/src/bitblast.rs`)

`Cnf` with its cached constant literal, and the Tseitin gates with their constant folding. Builders
run in `CnfM`. Each gate has one lemma, in the shape of `Lib.Builds`: the clauses it adds define its
output and constrain nothing else.
-/

namespace Csolver.Sat

open Csolver.Lib

/-- A CNF under construction. -/
structure Cnf where
  numVars : Nat
  clauses : List (List Lit)
  trueLit : Option Lit

namespace Cnf

def empty : Cnf := ⟨0, [], none⟩

end Cnf

abbrev CnfM := StateM Cnf

namespace Cnf

/-- A fresh SAT variable, as its positive literal. -/
def newVar : CnfM Lit := fun c => (Lit.pos c.numVars, { c with numVars := c.numVars + 1 })

/-- The cached literal that is always true. -/
def litTrue : CnfM Lit := fun c =>
  match c.trueLit with
  | some l => (l, c)
  | none =>
    let l := Lit.pos c.numVars
    (l, ⟨c.numVars + 1, c.clauses ++ [[l]], some l⟩)

def litFalse : CnfM Lit := do return (← litTrue).negated

def isTrue (c : Cnf) (l : Lit) : Bool := c.trueLit == some l

def isFalse (c : Cnf) (l : Lit) : Bool := c.trueLit == some l.negated

/-- A fresh output variable with the clauses that define it. -/
def define (cls : Lit → List (List Lit)) : CnfM Lit := fun c =>
  let o := Lit.pos c.numVars
  (o, { c with numVars := c.numVars + 1, clauses := c.clauses ++ cls o })

/-- `o ↔ a ∧ b`. -/
def and2 (a b : Lit) : CnfM Lit := do
  let c ← get
  if c.isFalse a || c.isFalse b then litFalse
  else if c.isTrue a then return b
  else if c.isTrue b then return a
  else if a = b then return a
  else if a = b.negated then litFalse
  else define fun o => [[a.negated, b.negated, o], [a, o.negated], [b, o.negated]]

/-- `o ↔ a ∨ b`. -/
def or2 (a b : Lit) : CnfM Lit := do
  let c ← get
  if c.isTrue a || c.isTrue b then litTrue
  else if c.isFalse a then return b
  else if c.isFalse b then return a
  else if a = b then return a
  else if a = b.negated then litTrue
  else define fun o => [[a, b, o.negated], [a.negated, o], [b.negated, o]]

/-- `o ↔ a ⊕ b`. -/
def xor2 (a b : Lit) : CnfM Lit := do
  let c ← get
  if c.isFalse a then return b
  else if c.isFalse b then return a
  else if c.isTrue a then return b.negated
  else if c.isTrue b then return a.negated
  else if a = b then litFalse
  else if a = b.negated then litTrue
  else define fun o =>
    [[a.negated, b.negated, o.negated], [a, b, o.negated], [a, b.negated, o], [a.negated, b, o]]

/-- `o ↔ (s ? a : b)`. -/
def mux (s a b : Lit) : CnfM Lit := do
  let c ← get
  if c.isTrue s then return a
  else if c.isFalse s then return b
  else if a = b then return a
  else
    let t ← and2 s a
    let e ← and2 s.negated b
    or2 t e

/-- `o ↔ (a = b)`. -/
def iff (a b : Lit) : CnfM Lit := do return (← xor2 a b).negated

def bigAnd : List Lit → CnfM Lit
  | [] => litTrue
  | first :: rest => rest.foldlM and2 first

def bigOr : List Lit → CnfM Lit
  | [] => litFalse
  | first :: rest => rest.foldlM or2 first

end Cnf

/-! ## Meaning -/

def litVal (m : Nat → Bool) (l : Lit) : Bool := m l.var != l.neg

@[simp] theorem litVal_negated (m : Nat → Bool) (l : Lit) :
    litVal m l.negated = !litVal m l := by
  unfold litVal Lit.negated
  cases m l.var <;> cases l.neg <;> rfl

@[simp] theorem litVal_pos (m : Nat → Bool) (v : Nat) : litVal m (Lit.pos v) = m v := by
  unfold litVal Lit.pos
  cases m v <;> rfl

theorem litTrue_iff {m : Nat → Bool} {l : Lit} : Sat.litTrue m l ↔ litVal m l = true := by
  unfold Sat.litTrue litVal
  cases m l.var <;> cases l.neg <;> simp

instance : Scoped Lit where
  Below n l := l.var < n
  mono h hl := Nat.lt_of_lt_of_le hl h

theorem litVal_congr {n : Nat} {m m' : Nat → Bool} {l : Lit} (h : AgreeBelow n m m')
    (hl : l.var < n) : litVal m l = litVal m' l := by
  unfold litVal
  rw [h _ hl]

theorem clauseSat_congr {n : Nat} {m m' : Nat → Bool} {c : List Lit} (h : AgreeBelow n m m')
    (hc : ∀ l ∈ c, l.var < n) (hs : clauseSat m c) : clauseSat m' c := by
  obtain ⟨l, hl, ht⟩ := hs
  refine ⟨l, hl, ?_⟩
  rw [litTrue_iff] at ht ⊢
  rw [← litVal_congr h (hc l hl)]
  exact ht

namespace Cnf

/-- The constraints a CNF stands for. -/
def view (c : Cnf) : Store := ⟨c.numVars, fun m => satAll m c.clauses⟩

/-- Clauses mention allocated variables only, the cached constant is asserted, and there is a
    solution. -/
structure Ok (c : Cnf) : Prop where
  bounded : ∀ cl ∈ c.clauses, ∀ l ∈ cl, l.var < c.numVars
  trueLit : ∀ l, c.trueLit = some l → l.var < c.numVars ∧ [l] ∈ c.clauses
  sat : ∃ m, c.view.Models m

theorem empty_ok : Ok empty :=
  ⟨fun cl h => absurd h List.not_mem_nil, fun l h => absurd h (by simp [empty]),
    fun _ => false, fun cl h => absurd h List.not_mem_nil⟩

theorem Ok.fact {c : Cnf} (h : c.Ok) {P : Prop} (hp : ∀ m, c.view.Models m → P) : P := by
  obtain ⟨m, hm⟩ := h.sat
  exact hp m hm

theorem Ok.local {c : Cnf} (h : c.Ok) : c.view.Local := by
  intro m m' hagree hm cl hcl
  exact clauseSat_congr hagree (h.bounded cl hcl) (hm cl hcl)

abbrev Builds {α : Type} [Scoped α] (x : CnfM α) (c : Cnf) (Q : (Nat → Bool) → α → Prop) : Prop :=
  Lib.Builds view Ok x c Q

theorem isTrue_val {c : Cnf} (h : c.Ok) {l : Lit} (ht : c.isTrue l = true) {m : Nat → Bool}
    (hm : c.view.Models m) : litVal m l = true := by
  have hl := (h.trueLit l (by simpa [isTrue] using ht)).2
  obtain ⟨l', hl', hs⟩ := hm [l] hl
  rw [List.mem_singleton.mp hl'] at hs
  exact litTrue_iff.mp hs

theorem isFalse_val {c : Cnf} (h : c.Ok) {l : Lit} (ht : c.isFalse l = true) {m : Nat → Bool}
    (hm : c.view.Models m) : litVal m l = false := by
  have := isTrue_val h (l := l.negated) (by simpa [isTrue, isFalse] using ht) hm
  simpa using this

/-! ## The gates -/

theorem satAll_append {m : Nat → Bool} {F G : List (List Lit)} :
    satAll m (F ++ G) ↔ satAll m F ∧ satAll m G := by
  unfold satAll
  constructor
  · intro h
    exact ⟨fun c hc => h c (List.mem_append_left _ hc), fun c hc => h c (List.mem_append_right _ hc)⟩
  · intro h c hc
    rcases List.mem_append.mp hc with hc | hc
    · exact h.1 c hc
    · exact h.2 c hc

theorem litTrue_builds {c : Cnf} (h : c.Ok) :
    Builds litTrue c fun m l => litVal m l = true := by
  cases ht : c.trueLit with
  | some l =>
    have heq : litTrue c = (l, c) := by simp [litTrue, ht]
    refine ⟨?_, ?_, ?_, ?_⟩ <;> rw [heq]
    · exact Store.Extends.refl _
    · exact h
    · exact (h.trueLit l ht).1
    · intro m hm
      exact isTrue_val h (by simp [isTrue, ht]) hm
  | none =>
    have heq : litTrue c = (Lit.pos c.numVars,
        ⟨c.numVars + 1, c.clauses ++ [[Lit.pos c.numVars]], some (Lit.pos c.numVars)⟩) := by
      simp [litTrue, ht]
    have hmodels : ∀ m, satAll m (c.clauses ++ [[Lit.pos c.numVars]]) ↔
        satAll m c.clauses ∧ m c.numVars = true := by
      intro m
      rw [satAll_append]
      simp [satAll, clauseSat, litTrue_iff]
    have hext : c.view.Extends (litTrue c).2.view := by
      rw [heq]
      exact Store.extends_define (f := fun _ => true) h.local (fun _ _ _ => rfl) rfl hmodels
    refine ⟨hext, ?_, ?_, ?_⟩ <;> rw [heq] at *
    · refine ⟨?_, ?_, hext.sat h.sat⟩
      · intro cl hcl l hl
        rcases List.mem_append.mp hcl with hcl | hcl
        · exact Nat.lt_succ_of_lt (h.bounded cl hcl l hl)
        · rw [List.mem_singleton.mp hcl] at hl
          rw [List.mem_singleton.mp hl]
          exact Nat.lt_succ_self _
      · intro l hl
        rw [← Option.some.inj hl]
        exact ⟨Nat.lt_succ_self _, by simp⟩
    · exact Nat.lt_succ_self _
    · intro m hm
      rw [litVal_pos]
      exact ((hmodels m).mp hm).2

theorem litFalse_builds {c : Cnf} (h : c.Ok) :
    Builds litFalse c fun m l => litVal m l = false := by
  refine (litTrue_builds h).bind fun l t _ ht hb _ => ?_
  exact Builds.pure ht hb fun m _ hl => by rw [litVal_negated, hl]; rfl

/-- A fresh variable whose clauses say exactly that it is `f` of two older literals. -/
theorem define_builds {c : Cnf} (h : c.Ok) {a b : Lit} (ha : a.var < c.numVars)
    (hb : b.var < c.numVars) {cls : Lit → List (List Lit)} {f : Bool → Bool → Bool}
    (hvars : ∀ o, ∀ cl ∈ cls o, ∀ l ∈ cl, l.var = a.var ∨ l.var = b.var ∨ l.var = o.var)
    (hcls : ∀ m o, satAll m (cls o) ↔ litVal m o = f (litVal m a) (litVal m b)) :
    Builds (define cls) c fun m o => litVal m o = f (litVal m a) (litVal m b) := by
  have hext : c.view.Extends (define cls c).2.view := by
    refine Store.extends_define (f := fun m => f (litVal m a) (litVal m b)) h.local ?_ rfl ?_
    · intro m m' hagree
      rw [litVal_congr hagree ha, litVal_congr hagree hb]
    · intro m
      show satAll m (c.clauses ++ cls (Lit.pos c.numVars)) ↔ _
      rw [satAll_append, hcls, litVal_pos]
      rfl
  refine ⟨hext, ⟨?_, ?_, hext.sat h.sat⟩, Nat.lt_succ_self _, ?_⟩
  · intro cl hcl l hl
    show l.var < c.numVars + 1
    rcases List.mem_append.mp hcl with hcl | hcl
    · exact Nat.lt_succ_of_lt (h.bounded cl hcl l hl)
    · rcases hvars _ cl hcl l hl with hv | hv | hv
      · rw [hv]; exact Nat.lt_succ_of_lt ha
      · rw [hv]; exact Nat.lt_succ_of_lt hb
      · rw [hv]; exact Nat.lt_succ_self _
  · intro l hl
    exact ⟨Nat.lt_succ_of_lt (h.trueLit l hl).1, List.mem_append_left _ (h.trueLit l hl).2⟩
  · intro m hm
    have hm' : satAll m (c.clauses ++ cls (Lit.pos c.numVars)) := hm
    exact (hcls m _).mp (satAll_append.mp hm').2

theorem and2_builds {c : Cnf} (h : c.Ok) {a b : Lit} (ha : a.var < c.numVars)
    (hb : b.var < c.numVars) :
    Builds (and2 a b) c fun m o => litVal m o = (litVal m a && litVal m b) := by
  refine Builds.get ?_
  split_ifs with h₁ h₂ h₃ h₄ h₅
  · refine ⟨(litFalse_builds h).ext, (litFalse_builds h).ok, (litFalse_builds h).below, ?_⟩
    intro m hm
    rw [(litFalse_builds h).post m hm]
    have hm' := (litFalse_builds h).ext.sub m hm
    rcases Bool.or_eq_true_iff.mp h₁ with hf | hf
    · rw [isFalse_val h hf hm', Bool.false_and]
    · rw [isFalse_val h hf hm', Bool.and_false]
  · exact Builds.pure h hb fun m hm => by rw [isTrue_val h h₂ hm, Bool.true_and]
  · exact Builds.pure h ha fun m hm => by rw [isTrue_val h h₃ hm, Bool.and_true]
  · exact Builds.pure h ha fun m _ => by rw [h₄, Bool.and_self]
  · refine (litFalse_builds h).mono fun m o ho => ?_
    rw [ho, h₅, litVal_negated, Bool.not_and_self]
  · refine define_builds h ha hb (f := and) ?_ ?_
    · intro o cl hcl l hl
      simp only [List.mem_cons, List.not_mem_nil, or_false] at hcl
      rcases hcl with rfl | rfl | rfl <;> simp only [List.mem_cons, List.not_mem_nil, or_false] at hl
      · rcases hl with rfl | rfl | rfl <;> simp [Lit.negated]
      · rcases hl with rfl | rfl <;> simp [Lit.negated]
      · rcases hl with rfl | rfl <;> simp [Lit.negated]
    · intro m o
      simp only [satAll, clauseSat, litTrue_iff, List.forall_mem_cons, List.exists_mem_cons_iff,
        List.not_mem_nil, false_and, exists_false, or_false, litVal_negated]
      cases litVal m a <;> cases litVal m b <;> cases litVal m o <;> simp

theorem or2_builds {c : Cnf} (h : c.Ok) {a b : Lit} (ha : a.var < c.numVars)
    (hb : b.var < c.numVars) :
    Builds (or2 a b) c fun m o => litVal m o = (litVal m a || litVal m b) := by
  refine Builds.get ?_
  split_ifs with h₁ h₂ h₃ h₄ h₅
  · refine ⟨(litTrue_builds h).ext, (litTrue_builds h).ok, (litTrue_builds h).below, ?_⟩
    intro m hm
    rw [(litTrue_builds h).post m hm]
    have hm' := (litTrue_builds h).ext.sub m hm
    rcases Bool.or_eq_true_iff.mp h₁ with hf | hf
    · rw [isTrue_val h hf hm', Bool.true_or]
    · rw [isTrue_val h hf hm', Bool.or_true]
  · exact Builds.pure h hb fun m hm => by rw [isFalse_val h h₂ hm, Bool.false_or]
  · exact Builds.pure h ha fun m hm => by rw [isFalse_val h h₃ hm, Bool.or_false]
  · exact Builds.pure h ha fun m _ => by rw [h₄, Bool.or_self]
  · refine (litTrue_builds h).mono fun m o ho => ?_
    rw [ho, h₅, litVal_negated, Bool.not_or_self]
  · refine define_builds h ha hb (f := or) ?_ ?_
    · intro o cl hcl l hl
      simp only [List.mem_cons, List.not_mem_nil, or_false] at hcl
      rcases hcl with rfl | rfl | rfl <;> simp only [List.mem_cons, List.not_mem_nil, or_false] at hl
      · rcases hl with rfl | rfl | rfl <;> simp [Lit.negated]
      · rcases hl with rfl | rfl <;> simp [Lit.negated]
      · rcases hl with rfl | rfl <;> simp [Lit.negated]
    · intro m o
      simp only [satAll, clauseSat, litTrue_iff, List.forall_mem_cons, List.exists_mem_cons_iff,
        List.not_mem_nil, false_and, exists_false, or_false, litVal_negated]
      cases litVal m a <;> cases litVal m b <;> cases litVal m o <;> simp

theorem xor2_builds {c : Cnf} (h : c.Ok) {a b : Lit} (ha : a.var < c.numVars)
    (hb : b.var < c.numVars) :
    Builds (xor2 a b) c fun m o => litVal m o = (litVal m a ^^ litVal m b) := by
  refine Builds.get ?_
  split_ifs with h₁ h₂ h₃ h₄ h₅ h₆
  · exact Builds.pure h hb fun m hm => by rw [isFalse_val h h₁ hm, Bool.false_xor]
  · exact Builds.pure h ha fun m hm => by rw [isFalse_val h h₂ hm, Bool.xor_false]
  · exact Builds.pure h hb fun m hm => by rw [isTrue_val h h₃ hm, litVal_negated, Bool.true_xor]
  · exact Builds.pure h ha fun m hm => by rw [isTrue_val h h₄ hm, litVal_negated, Bool.xor_true]
  · refine (litFalse_builds h).mono fun m o ho => ?_
    rw [ho, h₅, Bool.xor_self]
  · refine (litTrue_builds h).mono fun m o ho => ?_
    rw [ho, h₆, litVal_negated, Bool.not_xor_self]
  · refine define_builds h ha hb (f := xor) ?_ ?_
    · intro o cl hcl l hl
      simp only [List.mem_cons, List.not_mem_nil, or_false] at hcl
      rcases hcl with rfl | rfl | rfl | rfl <;>
        simp only [List.mem_cons, List.not_mem_nil, or_false] at hl <;>
        rcases hl with rfl | rfl | rfl <;> simp [Lit.negated]
    · intro m o
      simp only [satAll, clauseSat, litTrue_iff, List.forall_mem_cons, List.exists_mem_cons_iff,
        List.not_mem_nil, false_and, exists_false, or_false, litVal_negated]
      cases litVal m a <;> cases litVal m b <;> cases litVal m o <;> simp

theorem mux_builds {c : Cnf} (h : c.Ok) {s a b : Lit} (hs : s.var < c.numVars)
    (ha : a.var < c.numVars) (hb : b.var < c.numVars) :
    Builds (mux s a b) c fun m o =>
      litVal m o = if litVal m s then litVal m a else litVal m b := by
  refine Builds.get ?_
  split_ifs with h₁ h₂ h₃
  · exact Builds.pure h ha fun m hm => by rw [isTrue_val h h₁ hm]; rfl
  · exact Builds.pure h hb fun m hm => by rw [isFalse_val h h₂ hm]; rfl
  · exact Builds.pure h ha fun m _ => by rw [h₃, ite_self]
  · refine (and2_builds h hs ha).bind fun t c₁ hx₁ h₁ ht _ => ?_
    have hs₁ := Nat.lt_of_lt_of_le hs hx₁.le
    have hb₁ := Nat.lt_of_lt_of_le hb hx₁.le
    refine (and2_builds h₁ (a := s.negated) hs₁ hb₁).bind fun e c₂ hx₂ h₂ he _ => ?_
    refine (or2_builds h₂ (Nat.lt_of_lt_of_le ht hx₂.le) he).mono fun m o ho hev htv => ?_
    rw [ho, hev, htv, litVal_negated]
    cases litVal m s <;> simp

theorem iff_builds {c : Cnf} (h : c.Ok) {a b : Lit} (ha : a.var < c.numVars)
    (hb : b.var < c.numVars) :
    Builds (iff a b) c fun m o => litVal m o = (litVal m a == litVal m b) := by
  refine (xor2_builds h ha hb).bind fun x t _ ht hx _ => ?_
  refine Builds.pure ht hx fun m _ hv => ?_
  rw [litVal_negated, hv]
  cases litVal m a <;> cases litVal m b <;> rfl

theorem foldlM_builds {gate : Lit → Lit → CnfM Lit} {f : Bool → Bool → Bool}
    (hgate : ∀ {c : Cnf}, c.Ok → ∀ {a b : Lit}, a.var < c.numVars → b.var < c.numVars →
      Builds (gate a b) c fun m o => litVal m o = f (litVal m a) (litVal m b))
    (ls : List Lit) :
    ∀ {c : Cnf}, c.Ok → ∀ {acc : Lit}, acc.var < c.numVars → (∀ l ∈ ls, l.var < c.numVars) →
      Builds (ls.foldlM gate acc) c fun m o =>
        litVal m o = (ls.map (litVal m)).foldl f (litVal m acc) := by
  induction ls with
  | nil => intro c h acc hacc _; exact Builds.pure h hacc fun _ _ => rfl
  | cons l ls ih =>
    intro c h acc hacc hls
    rw [List.foldlM_cons]
    refine (hgate h hacc (hls l List.mem_cons_self)).bind fun o t hx ht ho _ => ?_
    refine (ih ht ho fun l' hl' => Nat.lt_of_lt_of_le (hls l' (List.mem_cons_of_mem _ hl')) hx.le).mono ?_
    intro m r hr hov
    rw [hr, hov, List.map_cons, List.foldl_cons]

theorem foldl_and (bs : List Bool) (x : Bool) : bs.foldl and x = (x && bs.all id) := by
  induction bs generalizing x with
  | nil => simp
  | cons b bs ih => rw [List.foldl_cons, ih, List.all_cons, Bool.and_assoc]; rfl

theorem foldl_or (bs : List Bool) (x : Bool) : bs.foldl or x = (x || bs.any id) := by
  induction bs generalizing x with
  | nil => simp
  | cons b bs ih => rw [List.foldl_cons, ih, List.any_cons, Bool.or_assoc]; rfl

theorem bigAnd_builds {c : Cnf} (h : c.Ok) {ls : List Lit} (hls : ∀ l ∈ ls, l.var < c.numVars) :
    Builds (bigAnd ls) c fun m o => litVal m o = ls.all (litVal m) := by
  match ls with
  | [] => exact (litTrue_builds h).mono fun m o ho => ho
  | first :: rest =>
    refine (foldlM_builds (f := and) and2_builds rest h (hls first List.mem_cons_self)
      fun l hl => hls l (List.mem_cons_of_mem _ hl)).mono fun m o ho => ?_
    rw [ho, foldl_and, List.all_cons, List.all_map]
    rfl

theorem bigOr_builds {c : Cnf} (h : c.Ok) {ls : List Lit} (hls : ∀ l ∈ ls, l.var < c.numVars) :
    Builds (bigOr ls) c fun m o => litVal m o = ls.any (litVal m) := by
  match ls with
  | [] => exact (litFalse_builds h).mono fun m o ho => ho
  | first :: rest =>
    refine (foldlM_builds (f := or) or2_builds rest h (hls first List.mem_cons_self)
      fun l hl => hls l (List.mem_cons_of_mem _ hl)).mono fun m o ho => ?_
    rw [ho, foldl_or, List.any_cons, List.any_map]
    rfl

end Cnf

end Csolver.Sat
