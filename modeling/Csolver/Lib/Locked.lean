import Mathlib.Data.Finset.Basic

/-!
# Threads that take locks

Any number of threads, each with its own events in order, one event at a time. A lock that excludes is taken only
while no other thread has it; the others stand for what a thread has by itself (interrupts that are off).
The locks of a thread are those of the events it has done.
-/

namespace Csolver.Lib

/-- What the events do to the locks, and which locks exclude. -/
structure Locking (E L : Type) where
  acquires : E → Option L
  releases : E → Option L
  Excludes : L → Prop

namespace Locking

variable {T E L : Type} [DecidableEq L] (k : Locking E L)

def heldStep (held : Finset L) (e : E) : Finset L :=
  let taken := (k.acquires e).elim held (insert · held)
  (k.releases e).elim taken taken.erase

def held (es : List E) : Finset L := es.foldl k.heldStep ∅

theorem held_snoc (es : List E) (e : E) : k.held (es ++ [e]) = k.heldStep (k.held es) e :=
  List.foldl_concat k.heldStep ∅ e es

theorem mem_heldStep {held : Finset L} {e : E} {l : L} (h : l ∈ k.heldStep held e) :
    l ∈ held ∨ k.acquires e = some l := by
  have htaken : ∀ {s : Finset L}, s = (k.acquires e).elim held (insert · held) → l ∈ s →
      l ∈ held ∨ k.acquires e = some l := by
    rintro s rfl hl
    cases ha : k.acquires e with
    | none =>
      rw [ha] at hl
      exact .inl hl
    | some l' =>
      rw [ha] at hl
      rcases Finset.mem_insert.mp hl with rfl | hl
      · exact .inr rfl
      · exact .inl hl
  rw [heldStep] at h
  cases hr : k.releases e with
  | none =>
    rw [hr] at h
    exact htaken rfl h
  | some l' =>
    rw [hr] at h
    exact htaken rfl (Finset.mem_of_mem_erase h)

variable (trace : T → List E)

/-- The locks of a thread that has done so many of its events. -/
def heldAt (t : T) (n : Nat) : Finset L := k.held ((trace t).take n)

variable {trace}

theorem heldAt_succ {t : T} {n : Nat} {e : E} (he : (trace t)[n]? = some e) :
    k.heldAt trace t (n + 1) = k.heldStep (k.heldAt trace t n) e := by
  rw [heldAt, List.take_add_one, he]
  exact k.held_snoc _ e

variable (trace) [DecidableEq T]

/-- How many events each thread has done, along a run. -/
inductive Reach : (T → Nat) → Prop where
  | start : Reach fun _ => 0
  | step {done : T → Nat} {t : T} {e : E} : Reach done → (trace t)[done t]? = some e →
      (∀ l, k.acquires e = some l → k.Excludes l → ∀ u ≠ t, l ∉ k.heldAt trace u (done u)) →
      Reach (Function.update done t (done t + 1))

/-- No lock that excludes is with two threads. -/
def Exclusive (done : T → Nat) : Prop :=
  ∀ t u, t ≠ u → ∀ l, k.Excludes l → l ∈ k.heldAt trace t (done t) → l ∉ k.heldAt trace u (done u)

variable {trace} {k}

theorem Exclusive.step {done : T → Nat} {t : T} {e : E} (h : k.Exclusive trace done)
    (he : (trace t)[done t]? = some e)
    (hfree : ∀ l, k.acquires e = some l → k.Excludes l → ∀ u ≠ t, l ∉ k.heldAt trace u (done u)) :
    k.Exclusive trace (Function.update done t (done t + 1)) := by
  -- what the stepping thread has afterwards, no other one has
  have hstep : ∀ u ≠ t, ∀ l, k.Excludes l → l ∈ k.heldAt trace t (done t + 1) → l ∉ k.heldAt trace u (done u) := by
    intro u hu l hl hmem
    rw [k.heldAt_succ he] at hmem
    rcases k.mem_heldStep hmem with hold | hnew
    · exact h t u hu.symm l hl hold
    · exact hfree l hnew hl u hu
  intro a b hab l hl ha hb
  by_cases hat : a = t
  · subst hat
    rw [Function.update_self] at ha
    rw [Function.update_of_ne hab.symm] at hb
    exact hstep b hab.symm l hl ha hb
  · rw [Function.update_of_ne hat] at ha
    by_cases hbt : b = t
    · subst hbt
      rw [Function.update_self] at hb
      exact hstep a hab l hl hb ha
    · rw [Function.update_of_ne hbt] at hb
      exact h a b hab l hl ha hb

/-- **Mutual exclusion**, in every state of every run. -/
theorem Reach.exclusive {done : T → Nat} (h : k.Reach trace done) : k.Exclusive trace done := by
  induction h with
  | start => exact fun _ _ _ _ _ h => absurd h (Finset.notMem_empty _)
  | step _ he hfree ih => exact ih.step he hfree

end Locking

end Csolver.Lib
