import Csolver.Interleave.Event
import Mathlib.Data.List.Induction

/-!
# The search for lost updates (`crates/verifier/src/interleave/atomicity.rs`)

Two threads are interleaved depth first, the first thread first. A read opens a window on its location,
a write of the other thread interrupts it, and a dependent write of the first thread in an interrupted
window is a lost update. The two threads are the two values of `Bool`; the other thread of `t` is `!t`.

The mutable schedule and budget of the source are an argument and an argument with a result.
-/

namespace Csolver

namespace Interleave

namespace Atomicity

structure AtomicityWitness where
  location : String
  schedule : List (String × Event)
  deriving DecidableEq

def upd {α : Type} (f : Bool → α) (t : Bool) (v : α) : Bool → α := fun u => if u = t then v else f u

/-- `State`: for each thread the position, the locks held, the open windows and those interrupted. -/
structure State where
  ip : Bool → Nat
  held : Bool → List String
  pending : Bool → List String
  interrupted : Bool → List String

/-- `State::default`. -/
def State.init : State := ⟨fun _ => 0, fun _ => [], fun _ => [], fun _ => []⟩

/-- The push of the source, where an entry is pushed once. -/
def pushNew (l : List String) (x : String) : List String := if x ∈ l then l else l ++ [x]

def retainNot (l : List String) (x : String) : List String := l.filter fun h => decide (h ≠ x)

/-- An acquire of a lock that the other thread holds is blocked. -/
def blocked (st : State) (t : Bool) : Event → Bool
  | .acquire l => decide (l ∈ st.held (!t))
  | _ => false

/-- A write of `x` by `t`: it interrupts a window of the other thread and closes its own. -/
def State.write (st : State) (t : Bool) (x : String) : State :=
  let interrupted := if x ∈ st.pending (!t) then upd st.interrupted (!t) (pushNew (st.interrupted (!t)) x)
    else st.interrupted
  { st with pending := upd st.pending t (retainNot (st.pending t) x)
            interrupted := upd interrupted t (retainNot (interrupted t) x) }

def step (st : State) (t : Bool) (ev : Event) : State :=
  let child := { st with ip := upd st.ip t (st.ip t + 1) }
  match ev with
  | .acquire l => { child with held := upd child.held t (child.held t ++ [l]) }
  | .release l => { child with held := upd child.held t (retainNot (child.held t) l) }
  | .read x | .depRead x => { child with pending := upd child.pending t (pushNew (child.pending t) x) }
  | .rmw x | .write x => child.write t x
  | _ => child

/-- The location of the update that the event loses. -/
def lost (st : State) (t : Bool) : Event → Option String
  | .rmw x => if x ∈ st.interrupted t then some x else none
  | _ => none

section

variable (names : Bool → String) (traces : Bool → List Event)

/-- One thread of the loop in `dfs`; `deeper` is the recursive call. -/
def visit (deeper : State → List (Bool × Event) → Nat → Option AtomicityWitness × Nat) (st : State)
    (schedule : List (Bool × Event)) (t : Bool) (budget : Nat) : Option AtomicityWitness × Nat :=
  match (traces t)[st.ip t]? with
  | none => (none, budget)
  | some ev =>
    if blocked st t ev then (none, budget)
    else
      match lost st t ev with
      | some x => (some ⟨x, (schedule ++ [(t, ev)]).map fun s => (names s.1, s.2)⟩, budget)
      | none => deeper (step st t ev) (schedule ++ [(t, ev)]) budget

/-- `dfs`. It goes one event deeper with each call, so `depth` need not exceed the number of events left
    by more than one. -/
def dfs : Nat → State → List (Bool × Event) → Nat → Option AtomicityWitness × Nat
  | 0, _, _, budget => (none, budget)
  | depth + 1, st, schedule, budget =>
    if budget = 0 then (none, 0)
    else
      match visit names traces (dfs depth) st schedule false (budget - 1) with
      | (some w, budget) => (some w, budget)
      | (none, budget) => visit names traces (dfs depth) st schedule true budget

end

def pair {α : Type} (a b : α) : Bool → α := fun t => if t then b else a

def atomicityViolation (a b : Thread) : Option AtomicityWitness :=
  (dfs (pair a.name b.name) (pair a.events b.events) (a.events.length + b.events.length + 1) .init []
    (searchBudget [a.events.length, b.events.length])).1

def second (t : Thread) : Thread := ⟨t.name ++ "#2", t.events⟩

/-- The two threads share a location that one of them writes. -/
def sharesWrite (a b : Thread) : Bool :=
  a.written.any (fun w => decide (w ∈ b.touched)) || b.written.any fun w => decide (w ∈ a.touched)

/-- What a thread is searched with: a second instance of itself if it is spawned, and each later thread in
    both orders. -/
def searches (spawned : List String) (t : Thread) (later : List Thread) : List (Thread × Thread) :=
  if t.written = [] ∧ t.touched = [] then []
  else
    (if t.written ≠ [] ∧ t.name ∈ spawned then [(t, second t)] else []) ++
      (later.filter (sharesWrite t)).flatMap fun u => [(t, u), (u, t)]

def allSearches (spawned : List String) : List Thread → List (Thread × Thread)
  | [] => []
  | t :: later => searches spawned t later ++ allSearches spawned later

/-- A witness is kept if its location is new. -/
def addWitness (out : List AtomicityWitness) (w : AtomicityWitness) : List AtomicityWitness :=
  if w.location ∈ out.map AtomicityWitness.location then out else out ++ [w]

def findAtomicityViolations (threads : List Thread) : List AtomicityWitness :=
  (((allSearches (spawnedNames threads) threads).filterMap fun p => atomicityViolation p.1 p.2).foldl
    addWitness []).mergeSort fun a b => decide (a.location ≤ b.location)

end Atomicity

end Interleave

/-! ## Schedules and the search for lost updates

What a schedule is said without the search: the events of each thread are taken from the front of its
trace, no lock is held by both threads at once, and an update is lost if a dependent write closes a window
that the other thread has written in. The search meets the schedules without a lost update in
lexicographic order, so it finds one exactly if it is a step away from one of the first that the budget
allows (`dfs_isSome`).
-/

namespace Interleave

namespace Atomicity

abbrev Schedule := List (Bool × Event)

/-! ## Schedules -/

def proj (t : Bool) (s : Schedule) : List Event := (s.filter fun p => decide (p.1 = t)).map Prod.snd

/-- The thread has acquired the lock and not released it since. -/
def Holds (s : Schedule) (t : Bool) (l : String) : Prop :=
  ∃ s₀ s₁, s = s₀ ++ (t, .acquire l) :: s₁ ∧ (t, .release l) ∉ s₁

/-- The thread has not written the location. -/
def Quiet (s : Schedule) (t : Bool) (x : String) : Prop := ∀ e, (t, e) ∈ s → e.writes ≠ some x

/-- The thread has read the location and not written it since. -/
def Open (s : Schedule) (t : Bool) (x : String) : Prop :=
  ∃ s₀ r s₁, s = s₀ ++ (t, r) :: s₁ ∧ r.reads = some x ∧ Quiet s₁ t x

/-- The other thread has written the location since. -/
def Interrupted (s : Schedule) (t : Bool) (x : String) : Prop :=
  ∃ s₀ r s₁ w s₂, s = s₀ ++ (t, r) :: s₁ ++ (!t, w) :: s₂ ∧ r.reads = some x ∧ w.writes = some x ∧
    Quiet s₁ t x ∧ Quiet s₂ t x

/-- A dependent write of the thread is computed from a value that the other thread has overwritten. -/
def LosesUpdate (s : Schedule) (t : Bool) (x : String) : Prop :=
  ∃ s₀ s₁, s = s₀ ++ (t, .rmw x) :: s₁ ∧ Interrupted s₀ t x

/-- Each thread runs a part of its trace from the front. -/
def InOrder (traces : Bool → List Event) (s : Schedule) : Prop := ∀ t, proj t s <+: traces t

/-- No lock is held by both threads at once. -/
def Exclusive (s : Schedule) : Prop := ∀ p, p <+: s → ∀ l, ¬ (Holds p false l ∧ Holds p true l)

section Snoc

variable {s : Schedule} {t u : Bool} {e : Event} {x l : String}

theorem proj_snoc : proj t (s ++ [(u, e)]) = if u = t then proj t s ++ [e] else proj t s := by
  simp only [proj, List.filter_append, List.map_append, List.filter_singleton]
  by_cases h : u = t <;> simp [h]

theorem snoc_eq_cons {s₀ s₁ : Schedule} {p q : Bool × Event} (h : s ++ [p] = s₀ ++ q :: s₁) :
    (s₀ = s ∧ q = p ∧ s₁ = []) ∨ ∃ s', s₁ = s' ++ [p] ∧ s = s₀ ++ q :: s' := by
  induction s₁ using List.reverseRecOn with
  | nil =>
    obtain ⟨rfl, heq⟩ := List.append_inj' h rfl
    exact .inl ⟨rfl, (List.cons.inj heq).1.symm, rfl⟩
  | append_singleton s' p' =>
    have h' : s ++ [p] = (s₀ ++ q :: s') ++ [p'] := by rw [h, List.append_assoc]; rfl
    obtain ⟨rfl, heq⟩ := List.append_inj' h' rfl
    obtain rfl := (List.cons.inj heq).1
    exact .inr ⟨s', rfl, rfl⟩

theorem quiet_snoc : Quiet (s ++ [(u, e)]) t x ↔ Quiet s t x ∧ ¬ (u = t ∧ e.writes = some x) := by
  constructor
  · intro h
    refine ⟨fun e' he' => h e' (List.mem_append_left _ he'), ?_⟩
    rintro ⟨rfl, hw⟩
    exact h e (by simp) hw
  · rintro ⟨h, hno⟩ e' he' hw
    rcases List.mem_append.mp he' with he' | he'
    · exact h e' he' hw
    · obtain ⟨rfl, rfl⟩ := Prod.mk.inj (List.mem_singleton.mp he')
      exact hno ⟨rfl, hw⟩

theorem quiet_nil : Quiet [] t x := fun _ h => absurd h List.not_mem_nil

theorem holds_snoc : Holds (s ++ [(u, e)]) t l ↔
    (u = t ∧ e = .acquire l) ∨ (Holds s t l ∧ ¬ (u = t ∧ e = .release l)) := by
  constructor
  · rintro ⟨s₀, s₁, heq, hno⟩
    rcases snoc_eq_cons heq with ⟨_, hq, _⟩ | ⟨s', rfl, rfl⟩
    · obtain ⟨rfl, rfl⟩ := Prod.mk.inj hq
      exact .inl ⟨rfl, rfl⟩
    · refine .inr ⟨⟨s₀, s', rfl, fun h => hno (List.mem_append_left _ h)⟩, ?_⟩
      rintro ⟨rfl, rfl⟩
      exact hno (by simp)
  · rintro (⟨rfl, rfl⟩ | ⟨⟨s₀, s₁, rfl, hno⟩, hlast⟩)
    · exact ⟨s, [], rfl, List.not_mem_nil⟩
    · refine ⟨s₀, s₁ ++ [(u, e)], by simp, fun h => ?_⟩
      rcases List.mem_append.mp h with h | h
      · exact hno h
      · obtain ⟨rfl, rfl⟩ := Prod.mk.inj (List.mem_singleton.mp h)
        exact hlast ⟨rfl, rfl⟩

theorem open_snoc : Open (s ++ [(u, e)]) t x ↔
    (u = t ∧ e.reads = some x) ∨ (Open s t x ∧ ¬ (u = t ∧ e.writes = some x)) := by
  constructor
  · rintro ⟨s₀, r, s₁, heq, hr, hquiet⟩
    rcases snoc_eq_cons heq with ⟨_, hq, _⟩ | ⟨s', rfl, rfl⟩
    · obtain ⟨rfl, rfl⟩ := Prod.mk.inj hq
      exact .inl ⟨rfl, hr⟩
    · obtain ⟨hquiet, hno⟩ := quiet_snoc.mp hquiet
      exact .inr ⟨⟨s₀, r, s', rfl, hr, hquiet⟩, hno⟩
  · rintro (⟨rfl, hr⟩ | ⟨⟨s₀, r, s₁, rfl, hr, hquiet⟩, hno⟩)
    · exact ⟨s, e, [], rfl, hr, quiet_nil⟩
    · exact ⟨s₀, r, s₁ ++ [(u, e)], by simp, hr, quiet_snoc.mpr ⟨hquiet, hno⟩⟩

theorem interrupted_snoc : Interrupted (s ++ [(u, e)]) t x ↔
    (u = !t ∧ e.writes = some x ∧ Open s t x) ∨ (Interrupted s t x ∧ ¬ (u = t ∧ e.writes = some x)) := by
  constructor
  · rintro ⟨s₀, r, s₁, w, s₂, heq, hr, hw, hq₁, hq₂⟩
    rcases snoc_eq_cons heq with ⟨hs, hq, _⟩ | ⟨s', rfl, hs⟩
    · obtain ⟨rfl, rfl⟩ := Prod.mk.inj hq
      exact .inl ⟨rfl, hw, s₀, r, s₁, hs.symm, hr, hq₁⟩
    · obtain ⟨hq₂, hno⟩ := quiet_snoc.mp hq₂
      exact .inr ⟨⟨s₀, r, s₁, w, s', hs, hr, hw, hq₁, hq₂⟩, hno⟩
  · rintro (⟨rfl, hw, s₀, r, s₁, rfl, hr, hq⟩ | ⟨⟨s₀, r, s₁, w, s₂, rfl, hr, hw, hq₁, hq₂⟩, hno⟩)
    · exact ⟨s₀, r, s₁, e, [], by simp, hr, hw, hq, quiet_nil⟩
    · exact ⟨s₀, r, s₁, w, s₂ ++ [(u, e)], by simp, hr, hw, hq₁, quiet_snoc.mpr ⟨hq₂, hno⟩⟩

end Snoc

/-! ## The state of the search -/

def run (s : Schedule) : State := s.foldl (fun st p => step st p.1 p.2) .init

theorem run_snoc (s : Schedule) (t : Bool) (e : Event) : run (s ++ [(t, e)]) = step (run s) t e := by
  rw [run, List.foldl_append]
  rfl

@[simp] theorem upd_same {α : Type} (f : Bool → α) (t : Bool) (v : α) : upd f t v t = v := if_pos rfl

theorem upd_of_ne {α : Type} (f : Bool → α) {t u : Bool} (h : u ≠ t) (v : α) : upd f t v u = f u := if_neg h

@[simp] theorem mem_pushNew {l : List String} {x y : String} : y ∈ pushNew l x ↔ y ∈ l ∨ y = x := by
  rw [pushNew]
  split
  · next h =>
    refine ⟨.inl, ?_⟩
    rintro (hy | rfl)
    · exact hy
    · exact h
  · simp

@[simp] theorem mem_retainNot {l : List String} {x y : String} : y ∈ retainNot l x ↔ y ∈ l ∧ y ≠ x := by
  simp [retainNot]

section Step

variable {st : State} {t u : Bool} {e : Event} {x l : String}

theorem step_ip : (step st u e).ip t = if u = t then st.ip t + 1 else st.ip t := by
  have hip : (step st u e).ip = upd st.ip u (st.ip u + 1) := by cases e <;> rfl
  rw [hip]
  by_cases h : u = t
  · subst h
    simp
  · rw [upd_of_ne _ (Ne.symm h), if_neg h]

theorem step_held : l ∈ (step st u e).held t ↔
    (u = t ∧ e = .acquire l) ∨ (l ∈ st.held t ∧ ¬ (u = t ∧ e = .release l)) := by
  by_cases h : u = t
  · subst h
    cases e with
    | acquire l' => simp [step, or_comm, eq_comm]
    | release l' =>
      simp only [step, upd_same, mem_retainNot, true_and, reduceCtorEq, false_or, Event.release.injEq]
      exact and_congr_right fun _ => not_congr eq_comm
    | _ => simp [step, State.write]
  · cases e <;> simp [step, State.write, h, upd_of_ne _ (Ne.symm h)]

theorem step_pending : x ∈ (step st u e).pending t ↔
    (u = t ∧ e.reads = some x) ∨ (x ∈ st.pending t ∧ ¬ (u = t ∧ e.writes = some x)) := by
  by_cases h : u = t
  · subst h
    cases e with
    | read y => simp [step, Event.reads, Event.writes, or_comm, eq_comm]
    | depRead y => simp [step, Event.reads, Event.writes, or_comm, eq_comm]
    | write y =>
      simp only [step, State.write, upd_same, mem_retainNot, Event.reads, Event.writes, true_and, reduceCtorEq,
        false_or, Option.some.injEq]
      exact and_congr_right fun _ => not_congr eq_comm
    | rmw y =>
      simp only [step, State.write, upd_same, mem_retainNot, Event.reads, Event.writes, true_and, reduceCtorEq,
        false_or, Option.some.injEq]
      exact and_congr_right fun _ => not_congr eq_comm
    | _ => simp [step, Event.reads, Event.writes]
  · cases e <;> simp [step, State.write, h, upd_of_ne _ (Ne.symm h)]

theorem write_interrupted {y : String} : x ∈ (st.write u y).interrupted t ↔
    (u = !t ∧ y = x ∧ x ∈ st.pending t) ∨ (x ∈ st.interrupted t ∧ ¬ (u = t ∧ y = x)) := by
  by_cases h : u = t
  · subst h
    have hne : u ≠ !u := by cases u <;> simp
    have hcur : (if y ∈ st.pending (!u) then upd st.interrupted (!u) (pushNew (st.interrupted (!u)) y)
        else st.interrupted) u = st.interrupted u := by
      split
      · exact upd_of_ne _ hne _
      · rfl
    simp only [State.write, upd_same, hcur, mem_retainNot, hne, false_and, true_and, false_or]
    exact and_congr_right fun _ => not_congr eq_comm
  · obtain rfl : u = !t := by cases u <;> cases t <;> simp_all
    rw [State.write]
    simp only [upd_of_ne _ (Ne.symm h), Bool.not_not, h, false_and, not_false_eq_true, and_true, true_and]
    split
    · next hopen =>
      rw [upd_same, mem_pushNew, or_comm]
      refine or_congr_left ⟨?_, fun hx => hx.1.symm⟩
      rintro rfl
      exact ⟨rfl, hopen⟩
    · next hopen =>
      refine ⟨.inr, ?_⟩
      rintro (⟨rfl, hx⟩ | hx)
      · exact absurd hx hopen
      · exact hx

theorem step_interrupted : x ∈ (step st u e).interrupted t ↔
    (u = !t ∧ e.writes = some x ∧ x ∈ st.pending t) ∨
      (x ∈ st.interrupted t ∧ ¬ (u = t ∧ e.writes = some x)) := by
  cases e with
  | write y =>
    simp only [Event.writes, Option.some.injEq]
    exact write_interrupted
  | rmw y =>
    simp only [Event.writes, Option.some.injEq]
    exact write_interrupted
  | _ => simp [step, Event.writes]

end Step

theorem run_ip (s : Schedule) (t : Bool) : (run s).ip t = (proj t s).length := by
  induction s using List.reverseRecOn with
  | nil => rfl
  | append_singleton s p ih =>
    rw [run_snoc, step_ip, proj_snoc, ih]
    split <;> simp

theorem mem_run_held {s : Schedule} {t : Bool} {l : String} : l ∈ (run s).held t ↔ Holds s t l := by
  induction s using List.reverseRecOn with
  | nil => simp [run, State.init, Holds]
  | append_singleton s p ih => rw [run_snoc, step_held, holds_snoc, ih]

theorem mem_run_pending {s : Schedule} {t : Bool} {x : String} : x ∈ (run s).pending t ↔ Open s t x := by
  induction s using List.reverseRecOn with
  | nil => simp [run, State.init, Open]
  | append_singleton s p ih => rw [run_snoc, step_pending, open_snoc, ih]

theorem mem_run_interrupted {s : Schedule} {t : Bool} {x : String} :
    x ∈ (run s).interrupted t ↔ Interrupted s t x := by
  induction s using List.reverseRecOn with
  | nil => simp [run, State.init, Interrupted]
  | append_singleton s p ih => rw [run_snoc, step_interrupted, interrupted_snoc, ih, mem_run_pending]

/-! ## Legal schedules -/

section Legal

variable {traces : Bool → List Event} {s : Schedule} {t : Bool} {e : Event}

/-- The next event of a thread, if it is not blocked. -/
def next (traces : Bool → List Event) (s : Schedule) (t : Bool) : Option Event :=
  ((traces t)[(run s).ip t]?).filter fun ev => !blocked (run s) t ev

structure Legal (traces : Bool → List Event) (s : Schedule) : Prop where
  inOrder : InOrder traces s
  exclusive : Exclusive s

theorem next_eq_some : next traces s t = some e ↔
    (traces t)[(proj t s).length]? = some e ∧ blocked (run s) t e = false := by
  rw [next, Option.filter_eq_some_iff, run_ip, Bool.not_eq_true']

theorem snoc_isPrefix {α : Type} {l L : List α} {a : α} :
    l ++ [a] <+: L ↔ l <+: L ∧ L[l.length]? = some a := by
  constructor
  · rintro ⟨r, rfl⟩
    exact ⟨⟨[a] ++ r, by simp⟩, by simp⟩
  · rintro ⟨⟨r, rfl⟩, ha⟩
    rw [List.getElem?_append_right (Nat.le_refl _), Nat.sub_self] at ha
    cases r with
    | nil => exact absurd ha (by simp)
    | cons b r =>
      obtain rfl := Option.some.inj ha
      exact ⟨r, by simp⟩

theorem inOrder_snoc : InOrder traces (s ++ [(t, e)]) ↔
    InOrder traces s ∧ (traces t)[(proj t s).length]? = some e := by
  constructor
  · intro h
    have ht := h t
    rw [proj_snoc, if_pos rfl] at ht
    refine ⟨fun u => ?_, (snoc_isPrefix.mp ht).2⟩
    by_cases hu : t = u
    · exact hu ▸ (snoc_isPrefix.mp ht).1
    · have hu' := h u
      rwa [proj_snoc, if_neg hu] at hu'
  · rintro ⟨h, he⟩ u
    rw [proj_snoc]
    split
    · next hu => exact hu ▸ snoc_isPrefix.mpr ⟨h t, he⟩
    · exact h u

theorem Exclusive.not_both (h : Exclusive s) (t : Bool) (l : String) : ¬ (Holds s t l ∧ Holds s (!t) l) := by
  cases t with
  | false => exact h s List.prefix_rfl l
  | true => exact fun hb => h s List.prefix_rfl l hb.symm

theorem blocked_eq_false : blocked (run s) t e = false ↔ ∀ l, e = .acquire l → ¬ Holds s (!t) l := by
  cases e with
  | acquire l =>
    rw [blocked, decide_eq_false_iff_not, mem_run_held]
    exact ⟨fun h l' hl => Event.acquire.inj hl ▸ h, fun h => h l rfl⟩
  | _ => simp [blocked]

theorem exclusive_snoc : Exclusive (s ++ [(t, e)]) ↔ Exclusive s ∧ blocked (run s) t e = false := by
  have hne : t ≠ !t := by cases t <;> simp
  rw [blocked_eq_false]
  constructor
  · intro h
    refine ⟨fun p hp => h p (hp.trans (List.prefix_append _ _)), ?_⟩
    rintro l rfl hl
    refine h.not_both t l ⟨holds_snoc.mpr (.inl ⟨rfl, rfl⟩), holds_snoc.mpr (.inr ⟨hl, ?_⟩)⟩
    exact fun heq => hne heq.1
  · rintro ⟨h, hno⟩ p hp
    rcases List.prefix_concat_iff.mp hp with rfl | hp
    · -- the last event lets nobody into a lock that the other thread is in
      have hlast (l : String) : ¬ (Holds (s ++ [(t, e)]) t l ∧ Holds (s ++ [(t, e)]) (!t) l) := by
        rintro ⟨hmine, hother⟩
        have hother' : Holds s (!t) l := by
          rcases holds_snoc.mp hother with ⟨heq, _⟩ | ⟨hold, _⟩
          · exact absurd heq hne
          · exact hold
        rcases holds_snoc.mp hmine with ⟨_, rfl⟩ | ⟨hold, _⟩
        · exact hno l rfl hother'
        · exact h.not_both t l ⟨hold, hother'⟩
      intro l
      cases t with
      | false => exact hlast l
      | true => exact fun hb => hlast l hb.symm
    · exact h p hp

theorem legal_nil : Legal traces [] :=
  ⟨fun t => List.nil_prefix, fun p hp l hb => by
    obtain rfl := List.prefix_nil.mp hp
    obtain ⟨s₀, s₁, heq, _⟩ := hb.1
    exact absurd heq (by simp)⟩

theorem legal_snoc : Legal traces (s ++ [(t, e)]) ↔ Legal traces s ∧ next traces s t = some e := by
  rw [next_eq_some]
  constructor
  · rintro ⟨hin, hex⟩
    obtain ⟨hin, he⟩ := inOrder_snoc.mp hin
    obtain ⟨hex, hb⟩ := exclusive_snoc.mp hex
    exact ⟨⟨hin, hex⟩, he, hb⟩
  · rintro ⟨⟨hin, hex⟩, he, hb⟩
    exact ⟨inOrder_snoc.mpr ⟨hin, he⟩, exclusive_snoc.mpr ⟨hex, hb⟩⟩

theorem lost_eq_some {x : String} : lost (run s) t e = some x ↔ e = .rmw x ∧ Interrupted s t x := by
  cases e with
  | rmw y =>
    rw [lost]
    constructor
    · intro h
      split at h
      · next hy =>
        obtain rfl := Option.some.inj h
        exact ⟨rfl, mem_run_interrupted.mp hy⟩
      · exact absurd h (by simp)
    · rintro ⟨heq, hx⟩
      obtain rfl := Event.rmw.inj heq
      exact if_pos (mem_run_interrupted.mpr hx)
  | _ => simp [lost]

def Lossless (s : Schedule) : Prop := ∀ t x, ¬ LosesUpdate s t x

theorem lossless_nil : Lossless [] := by
  rintro t x ⟨s₀, s₁, heq, _⟩
  exact absurd heq (by simp)

theorem lossless_snoc : Lossless (s ++ [(t, e)]) ↔ Lossless s ∧ lost (run s) t e = none := by
  rw [Option.eq_none_iff_forall_ne_some]
  constructor
  · intro h
    refine ⟨?_, fun x hx => ?_⟩
    · rintro u x ⟨s₀, s₁, rfl, hint⟩
      exact h u x ⟨s₀, s₁ ++ [(t, e)], by simp, hint⟩
    · obtain ⟨rfl, hint⟩ := lost_eq_some.mp hx
      exact h t x ⟨s, [], rfl, hint⟩
  · rintro ⟨h, hno⟩ u x ⟨s₀, s₁, heq, hint⟩
    rcases snoc_eq_cons heq with ⟨rfl, hq, _⟩ | ⟨s', rfl, rfl⟩
    · obtain ⟨rfl, rfl⟩ := Prod.mk.inj hq
      exact hno x (lost_eq_some.mpr ⟨rfl, hint⟩)
    · exact h u x ⟨s₀, s', rfl, hint⟩

end Legal

/-! ## The order of the search -/

section Search

variable (names : Bool → String) (traces : Bool → List Event)

/-- The schedules that go on from `s` with the thread. -/
def after (deeper : Schedule → List Schedule) (s : Schedule) (t : Bool) : List Schedule :=
  match next traces s t with
  | none => []
  | some ev => if lost (run s) t ev = none then deeper (s ++ [(t, ev)]) else []

/-- The legal schedules from `s` on that lose no update, in the order of the search: first `s`, then those
    that go on with the first thread, then those that go on with the second. -/
def schedules : Nat → Schedule → List Schedule
  | 0, _ => []
  | depth + 1, s => s :: (after traces (schedules depth) s false ++ after traces (schedules depth) s true)

/-- The schedule is one event away from losing an update. -/
def AtLoss (s : Schedule) : Prop := ∃ t ev x, next traces s t = some ev ∧ lost (run s) t ev = some x

variable {names traces}

/-- What the search does with a list of schedules and a budget. -/
def Finds (traces : Bool → List Event) (ss : List Schedule) (budget : Nat)
    (result : Option AtomicityWitness × Nat) : Prop :=
  ((∃ p ∈ ss.take budget, AtLoss traces p) ∧ result.1.isSome = true) ∨
    ((∀ p ∈ ss.take budget, ¬ AtLoss traces p) ∧ result = (none, budget - ss.length))

theorem visit_eq {deeper : State → List (Bool × Event) → Nat → Option AtomicityWitness × Nat} {s : Schedule}
    {t : Bool} {budget : Nat} :
    visit names traces deeper (run s) s t budget =
      match next traces s t with
      | none => (none, budget)
      | some ev =>
        match lost (run s) t ev with
        | some x => (some ⟨x, (s ++ [(t, ev)]).map fun p => (names p.1, p.2)⟩, budget)
        | none => deeper (run (s ++ [(t, ev)])) (s ++ [(t, ev)]) budget := by
  rw [visit, next]
  cases (traces t)[(run s).ip t]? with
  | none => rfl
  | some ev =>
    cases hb : blocked (run s) t ev with
    | true => simp [Option.filter, hb]
    | false =>
      simp only [Option.filter, hb, run_snoc]
      rfl

theorem visit_spec {depth : Nat} (s : Schedule) (t : Bool) (budget : Nat)
    (hrec : ∀ s' budget, Finds traces (schedules traces depth s') budget
      (dfs names traces depth (run s') s' budget)) :
    (AtLoss traces s ∧ (visit names traces (dfs names traces depth) (run s) s t budget).1.isSome = true) ∨
      (∀ ev x, next traces s t = some ev → lost (run s) t ev ≠ some x) ∧
        Finds traces (after traces (schedules traces depth) s t) budget
          (visit names traces (dfs names traces depth) (run s) s t budget) := by
  rw [visit_eq, after]
  cases hnext : next traces s t with
  | none => exact .inr ⟨fun _ _ h => absurd h (by simp), .inr ⟨by simp, rfl⟩⟩
  | some ev =>
    cases hlost : lost (run s) t ev with
    | some x => exact .inl ⟨⟨t, ev, x, hnext, hlost⟩, by simp [hlost]⟩
    | none =>
      refine .inr ⟨fun ev' x h => ?_, ?_⟩
      · obtain rfl := Option.some.inj h
        simp [hlost]
      · simpa [hlost] using hrec (s ++ [(t, ev)]) budget

/-- **The search**: it finds a lost update exactly if one of the first schedules is at one. -/
theorem dfs_spec (depth : Nat) (s : Schedule) (budget : Nat) :
    Finds traces (schedules traces depth s) budget (dfs names traces depth (run s) s budget) := by
  induction depth generalizing s budget with
  | zero => exact .inr ⟨by simp [schedules], by simp [schedules, dfs]⟩
  | succ depth ih =>
    rw [dfs]
    cases budget with
    | zero => exact .inr ⟨by simp, by simp⟩
    | succ budget =>
      rw [if_neg (Nat.succ_ne_zero budget), Nat.add_sub_cancel]
      generalize hfirst : visit names traces (dfs names traces depth) (run s) s false budget = first
      obtain ⟨w, budget'⟩ := first
      have hspec := visit_spec s false budget ih
      rw [hfirst] at hspec
      rw [schedules, Finds, List.take_succ_cons, List.length_cons]
      rcases hspec with ⟨hloss, hsome⟩ | ⟨hno, ⟨⟨p, hp, hloss⟩, hsome⟩ | ⟨hnone, heq⟩⟩
      · obtain ⟨w, rfl⟩ := Option.isSome_iff_exists.mp hsome
        exact .inl ⟨⟨s, List.mem_cons_self, hloss⟩, rfl⟩
      · obtain ⟨w, rfl⟩ := Option.isSome_iff_exists.mp hsome
        refine .inl ⟨⟨p, List.mem_cons_of_mem _ ?_, hloss⟩, rfl⟩
        rw [List.take_append]
        exact List.mem_append_left _ hp
      · -- the first thread leaves nothing, and some of the budget
        obtain ⟨rfl, rfl⟩ := Prod.mk.inj heq
        rcases visit_spec s true (budget - (after traces (schedules traces depth) s false).length) ih with
          ⟨hloss, hsome⟩ | ⟨hno', ⟨⟨p, hp, hloss⟩, hsome⟩ | ⟨hnone', heq'⟩⟩
        · exact .inl ⟨⟨s, List.mem_cons_self, hloss⟩, hsome⟩
        · refine .inl ⟨⟨p, List.mem_cons_of_mem _ ?_, hloss⟩, hsome⟩
          rw [List.take_append]
          exact List.mem_append_right _ hp
        · refine .inr ⟨fun p hp => ?_, ?_⟩
          · rcases List.mem_cons.mp hp with rfl | hp
            · rintro ⟨t, ev, x, hev, hx⟩
              cases t with
              | false => exact hno ev x hev hx
              | true => exact hno' ev x hev hx
            · rw [List.take_append] at hp
              rcases List.mem_append.mp hp with hp | hp
              · exact hnone p hp
              · exact hnone' p hp
          · refine heq'.trans (congrArg (Prod.mk none) ?_)
            rw [List.length_append]
            omega

/-! ## What the search meets -/

theorem Legal.of_isPrefix {p q : Schedule} (h : Legal traces q) (hp : p <+: q) : Legal traces p := by
  refine ⟨fun t => ?_, fun r hr => h.exclusive r (hr.trans hp)⟩
  obtain ⟨r, rfl⟩ := hp
  refine List.IsPrefix.trans ?_ (h.inOrder t)
  exact ⟨proj t r, by simp [proj]⟩

theorem Lossless.of_isPrefix {p q : Schedule} (h : Lossless q) (hp : p <+: q) : Lossless p := by
  obtain ⟨r, rfl⟩ := hp
  rintro t x ⟨s₀, s₁, rfl, hint⟩
  exact h t x ⟨s₀, s₁ ++ r, by simp, hint⟩

theorem mem_after {deeper : Schedule → List Schedule} {s p : Schedule} {t : Bool} :
    p ∈ after traces deeper s t ↔ ∃ ev, next traces s t = some ev ∧ lost (run s) t ev = none ∧
      p ∈ deeper (s ++ [(t, ev)]) := by
  rw [after]
  cases next traces s t with
  | none => simp
  | some ev =>
    by_cases hlost : lost (run s) t ev = none
    · simp [hlost]
    · simp [hlost]

theorem mem_schedules {depth : Nat} {s p : Schedule} (hs : Legal traces s) (hl : Lossless s) :
    p ∈ schedules traces depth s ↔
      s <+: p ∧ Legal traces p ∧ Lossless p ∧ p.length < s.length + depth := by
  induction depth generalizing s with
  | zero =>
    refine ⟨fun h => absurd h List.not_mem_nil, ?_⟩
    rintro ⟨hp, _, _, hlen⟩
    exact absurd hp.length_le (by omega)
  | succ depth ih =>
    rw [schedules, List.mem_cons, List.mem_append, mem_after, mem_after]
    have hgo {t : Bool} {ev : Event} (hev : next traces s t = some ev) (hlost : lost (run s) t ev = none) :
        p ∈ schedules traces depth (s ++ [(t, ev)]) ↔
          s ++ [(t, ev)] <+: p ∧ Legal traces p ∧ Lossless p ∧ p.length < s.length + (depth + 1) := by
      rw [ih (legal_snoc.mpr ⟨hs, hev⟩) (lossless_snoc.mpr ⟨hl, hlost⟩), List.length_append]
      simp only [List.length_singleton, Nat.add_assoc, Nat.add_comm 1]
    constructor
    · have hback (t : Bool) : (∃ ev, next traces s t = some ev ∧ lost (run s) t ev = none ∧
          p ∈ schedules traces depth (s ++ [(t, ev)])) →
          s <+: p ∧ Legal traces p ∧ Lossless p ∧ p.length < s.length + (depth + 1) := by
        rintro ⟨ev, hev, hlost, hp⟩
        obtain ⟨hpre, hrest⟩ := (hgo hev hlost).mp hp
        exact ⟨(List.prefix_append _ _).trans hpre, hrest⟩
      rintro (rfl | hp | hp)
      · exact ⟨List.prefix_rfl, hs, hl, by omega⟩
      · exact hback false hp
      · exact hback true hp
    · rintro ⟨⟨r, rfl⟩, hlegal, hless, hlen⟩
      cases r with
      | nil => exact .inl (List.append_nil s)
      | cons q r =>
        obtain ⟨t, ev⟩ := q
        have hpre : s ++ [(t, ev)] <+: s ++ (t, ev) :: r := ⟨r, by simp⟩
        have hev := (legal_snoc.mp (hlegal.of_isPrefix hpre)).2
        have hlost := (lossless_snoc.mp (hless.of_isPrefix hpre)).2
        have hmem := (hgo hev hlost).mpr ⟨hpre, hlegal, hless, hlen⟩
        cases t with
        | false => exact .inr (.inl ⟨ev, hev, hlost, hmem⟩)
        | true => exact .inr (.inr ⟨ev, hev, hlost, hmem⟩)

theorem length_proj (p : Schedule) : (proj false p).length + (proj true p).length = p.length := by
  induction p using List.reverseRecOn with
  | nil => rfl
  | append_singleton p q ih =>
    obtain ⟨t, ev⟩ := q
    rw [proj_snoc, proj_snoc, List.length_append, ← ih]
    cases t <;> simp <;> omega

theorem Legal.length_le {p : Schedule} (h : Legal traces p) :
    p.length ≤ (traces false).length + (traces true).length := by
  rw [← length_proj]
  exact Nat.add_le_add (h.inOrder false).length_le (h.inOrder true).length_le

theorem exists_atLoss {s : Schedule} (hs : Legal traces s) (hl : ¬ Lossless s) :
    ∃ p, p <+: s ∧ Legal traces p ∧ Lossless p ∧ AtLoss traces p := by
  induction s using List.reverseRecOn with
  | nil => exact absurd lossless_nil hl
  | append_singleton s q ih =>
    obtain ⟨t, ev⟩ := q
    obtain ⟨hs', hev⟩ := legal_snoc.mp hs
    by_cases hless : Lossless s
    · cases hlost : lost (run s) t ev with
      | none => exact absurd (lossless_snoc.mpr ⟨hless, hlost⟩) hl
      | some x => exact ⟨s, List.prefix_append _ _, hs', hless, t, ev, x, hev, hlost⟩
    · obtain ⟨p, hp, hrest⟩ := ih hs' hless
      exact ⟨p, hp.trans (List.prefix_append _ _), hrest⟩

/-- A schedule with the names of the threads. -/
def label (names : Bool → String) (s : Schedule) : List (String × Event) := s.map fun p => (names p.1, p.2)

theorem dfs_found {depth : Nat} {s : Schedule} {budget : Nat} {w : AtomicityWitness} (hs : Legal traces s)
    (h : (dfs names traces depth (run s) s budget).1 = some w) :
    ∃ p t, Legal traces (p ++ [(t, .rmw w.location)]) ∧ Interrupted p t w.location ∧
      w.schedule = label names (p ++ [(t, .rmw w.location)]) := by
  induction depth generalizing s budget with
  | zero => exact absurd h (by simp [dfs])
  | succ depth ih =>
    have hvisit (t : Bool) (budget : Nat)
        (hw : (visit names traces (dfs names traces depth) (run s) s t budget).1 = some w) :
        ∃ p t, Legal traces (p ++ [(t, .rmw w.location)]) ∧ Interrupted p t w.location ∧
          w.schedule = label names (p ++ [(t, .rmw w.location)]) := by
      rw [visit_eq] at hw
      cases hev : next traces s t with
      | none => exact absurd hw (by simp [hev])
      | some ev =>
        cases hlost : lost (run s) t ev with
        | none =>
          simp only [hev, hlost] at hw
          exact ih (legal_snoc.mpr ⟨hs, hev⟩) hw
        | some x =>
          simp only [hev, hlost] at hw
          obtain rfl := Option.some.inj hw
          obtain ⟨rfl, hint⟩ := lost_eq_some.mp hlost
          exact ⟨s, t, legal_snoc.mpr ⟨hs, hev⟩, hint, rfl⟩
    rw [dfs] at h
    split at h
    · exact absurd h (by simp)
    · split at h
      · next w' b hfirst =>
        obtain rfl := Option.some.inj h
        exact hvisit false _ (by rw [hfirst])
      · next b hfirst => exact hvisit true b h

theorem mem_schedules_init {p : Schedule} :
    p ∈ schedules traces ((traces false).length + (traces true).length + 1) [] ↔ Legal traces p ∧ Lossless p := by
  rw [mem_schedules legal_nil lossless_nil]
  refine ⟨fun h => ⟨h.2.1, h.2.2.1⟩, fun h => ⟨List.nil_prefix, h.1, h.2, ?_⟩⟩
  have := h.1.length_le
  simp only [List.length_nil]
  omega

end Search

/-! ## Completeness -/

abbrev traces (a b : Thread) : Bool → List Event := pair a.events b.events

/-- The legal schedules of two threads that lose no update, in the order of the search. -/
def ordered (a b : Thread) : List Schedule :=
  schedules (traces a b) (a.events.length + b.events.length + 1) []

/-- Some legal schedule loses an update of the first thread. -/
def Realisable (a b : Thread) : Prop := ∃ s x, Legal (traces a b) s ∧ LosesUpdate s false x

theorem atomicityViolation_isSome (a b : Thread) :
    (atomicityViolation a b).isSome = true ↔
      ∃ p ∈ (ordered a b).take (searchBudget [a.events.length, b.events.length]), AtLoss (traces a b) p := by
  have hfinds : Finds (traces a b) (ordered a b) (searchBudget [a.events.length, b.events.length])
      (dfs (pair a.name b.name) (traces a b) (a.events.length + b.events.length + 1) (run []) []
        (searchBudget [a.events.length, b.events.length])) := dfs_spec _ _ _
  rcases hfinds with ⟨hex, hsome⟩ | ⟨hno, hnone⟩
  · exact iff_of_true hsome hex
  · refine iff_of_false ?_ fun ⟨p, hp, hloss⟩ => hno p hp hloss
    rw [atomicityViolation]
    simp only [run, List.foldl_nil] at hnone
    rw [hnone]
    simp

/-- **A search that the budget does not cut is exact**: it finds something if and only if a legal schedule loses an
    update of one of the two threads. -/
theorem atomicityViolation_exact {a b : Thread}
    (h : (ordered a b).length ≤ searchBudget [a.events.length, b.events.length]) :
    (atomicityViolation a b).isSome = true ↔ ∃ s, Legal (traces a b) s ∧ ¬Lossless s := by
  rw [atomicityViolation_isSome, List.take_of_length_le h]
  constructor
  · rintro ⟨p, hp, t, ev, x, hev, hlost⟩
    obtain ⟨hlegal, hless⟩ := mem_schedules_init.mp hp
    refine ⟨p ++ [(t, ev)], legal_snoc.mpr ⟨hlegal, hev⟩, fun hl => ?_⟩
    rw [(lossless_snoc.mp hl).2] at hlost
    cases hlost
  · rintro ⟨s, hs, hl⟩
    obtain ⟨p, _, hlegal, hless, hat⟩ := exists_atLoss hs hl
    exact ⟨p, mem_schedules_init.mpr ⟨hlegal, hless⟩, hat⟩

theorem searchBudget_of_le {l : List Nat} (h : searchEstimate l ≤ searchCeiling) :
    searchBudget l = searchEstimate l := Nat.min_eq_left h

/-- Below the ceiling the search finds a lost update that some schedule realises if and only if one of the
    first schedules, as many as are estimated, is at a lost update. -/
theorem atomicityViolation_complete_iff (a b : Thread)
    (hfits : searchEstimate [a.events.length, b.events.length] ≤ searchCeiling) :
    (Realisable a b → (atomicityViolation a b).isSome = true) ↔
      (Realisable a b → ∃ p ∈ (ordered a b).take (searchEstimate [a.events.length, b.events.length]),
        AtLoss (traces a b) p) := by
  rw [atomicityViolation_isSome, searchBudget_of_le hfits]

/-- `x = x + 1` split in two, and some barriers. -/
def splitUpdate : Thread := ⟨"a", [.read "x", .rmw "x", .fence, .fence, .fence, .fence, .fence, .fence]⟩

def lateWrite : Thread := ⟨"b", [.fence, .fence, .fence, .write "x"]⟩

/-- The write can come between the read and the update, but the schedules in which the update comes first
    use up the budget. -/
theorem atomicityViolation_incomplete :
    searchEstimate [splitUpdate.events.length, lateWrite.events.length] ≤ searchCeiling ∧
      Realisable splitUpdate lateWrite ∧ atomicityViolation splitUpdate lateWrite = none := by
  refine ⟨by decide, ?_, by decide +kernel⟩
  let s : Schedule := [(false, .read "x"), (true, .fence), (true, .fence), (true, .fence), (true, .write "x"),
    (false, .rmw "x")]
  refine ⟨s, "x", ⟨fun t => ?_, ?_⟩, s.dropLast, [], rfl, ?_⟩
  · cases t with
    | false => exact ⟨[.fence, .fence, .fence, .fence, .fence, .fence], rfl⟩
    | true => exact ⟨[], rfl⟩
  · rintro p ⟨r, hr⟩ l ⟨⟨s₀, s₁, rfl, _⟩, _⟩
    have hmem : (false, Event.acquire l) ∈ s := hr ▸ by simp
    exact absurd hmem (by simp [s])
  · refine ⟨[], .read "x", [(true, .fence), (true, .fence), (true, .fence)], .write "x", [], rfl, rfl, rfl, ?_, quiet_nil⟩
    intro e he
    exact absurd he (by simp)

def shortUpdate : Thread := ⟨"a", [.read "x", .rmw "x"]⟩

def shortWrite : Thread := ⟨"b", [.write "x"]⟩

theorem atomicityViolation_exact_short : ∃ s, Legal (traces shortUpdate shortWrite) s ∧ ¬Lossless s :=
  (atomicityViolation_exact (by decide +kernel)).mp (by decide +kernel)

theorem shortUpdate_atLoss :
    [(false, .read "x"), (true, .write "x")] ∈ (ordered shortUpdate shortWrite).take
        (searchEstimate [shortUpdate.events.length, shortWrite.events.length]) ∧
      next (traces shortUpdate shortWrite) [(false, .read "x"), (true, .write "x")] false = some (.rmw "x") ∧
      lost (run [(false, .read "x"), (true, .write "x")]) false (.rmw "x") = some "x" := by
  decide +kernel

/-- Without the barriers the search finds it. -/
theorem atomicityViolation_complete_short :
    searchEstimate [shortUpdate.events.length, shortWrite.events.length] ≤ searchCeiling ∧
      (Realisable shortUpdate shortWrite → (atomicityViolation shortUpdate shortWrite).isSome = true) := by
  have hfits : searchEstimate [shortUpdate.events.length, shortWrite.events.length] ≤ searchCeiling := by decide
  refine ⟨hfits, (atomicityViolation_complete_iff shortUpdate shortWrite hfits).mpr fun _ => ?_⟩
  exact ⟨_, shortUpdate_atLoss.1, false, .rmw "x", "x", shortUpdate_atLoss.2⟩

/-! ## Witnesses -/

/-- The thread has begun only after the other has spawned it. -/
def SpawnOrdered (names : Bool → String) (traces : Bool → List Event) (s : Schedule) : Prop :=
  ∀ t, .spawn (names (!t)) ∈ traces t → ∀ s₀ e s₁, s = s₀ ++ (!t, e) :: s₁ → (t, .spawn (names (!t))) ∈ s₀

/-- After a thread has spawned the other and joined, the other has finished. -/
def JoinOrdered (names : Bool → String) (traces : Bool → List Event) (s : Schedule) : Prop :=
  ∀ t s₀ s₁ s₂ e s₃, s = s₀ ++ (t, .spawn (names (!t))) :: s₁ ++ (t, .join) :: s₂ ++ (t, e) :: s₃ →
    proj (!t) (s₀ ++ (t, .spawn (names (!t))) :: s₁ ++ (t, .join) :: s₂) = traces (!t)

/-- **The claim on witnesses**: the schedule is one that the two threads can take, and it loses an update
    of the location. -/
structure WitnessOk (a b : Thread) (w : AtomicityWitness) : Prop where
  schedule : ∃ s t, w.schedule = label (pair a.name b.name) s ∧ Legal (traces a b) s ∧
    SpawnOrdered (pair a.name b.name) (traces a b) s ∧ JoinOrdered (pair a.name b.name) (traces a b) s ∧
    LosesUpdate s t w.location

def NoSpawn (a b : Thread) : Prop := .spawn b.name ∉ a.events ∧ .spawn a.name ∉ b.events

theorem atomicityViolation_found {a b : Thread} {w : AtomicityWitness} (h : atomicityViolation a b = some w) :
    ∃ s t, w.schedule = label (pair a.name b.name) s ∧ Legal (traces a b) s ∧ LosesUpdate s t w.location := by
  obtain ⟨p, t, hlegal, hint, hw⟩ := dfs_found (s := []) legal_nil h
  exact ⟨_, t, hw, hlegal, p, [], rfl, hint⟩

theorem NoSpawn.not_mem {a b : Thread} (h : NoSpawn a b) (t : Bool) :
    .spawn (pair a.name b.name (!t)) ∉ traces a b t := by
  cases t with
  | false => exact h.1
  | true => exact h.2

theorem mem_of_mem_proj {s : Schedule} {t : Bool} {e : Event} (h : (t, e) ∈ s) : e ∈ proj t s :=
  List.mem_map.mpr ⟨(t, e), List.mem_filter.mpr ⟨h, by simp⟩, rfl⟩

theorem NoSpawn.witnessOk {a b : Thread} (hno : NoSpawn a b) {w : AtomicityWitness}
    (h : atomicityViolation a b = some w) : WitnessOk a b w := by
  obtain ⟨s, t, hw, hlegal, hloss⟩ := atomicityViolation_found h
  refine ⟨s, t, hw, hlegal, fun t ht => absurd ht (hno.not_mem t), ?_, hloss⟩
  rintro t s₀ s₁ s₂ e s₃ rfl
  have hmem := mem_of_mem_proj (s := s₀ ++ (t, .spawn (pair a.name b.name (!t))) :: s₁ ++ (t, .join) :: s₂ ++
    (t, e) :: s₃) (t := t) (e := .spawn (pair a.name b.name (!t))) (by simp)
  exact absurd ((hlegal.inOrder t).subset hmem) (hno.not_mem t)

theorem mem_allSearches {spawned : List String} {threads : List Thread} {a b : Thread}
    (h : (a, b) ∈ allSearches spawned threads) : a ∈ threads ∧ (b ∈ threads ∨ b = second a) := by
  induction threads with
  | nil => exact absurd h List.not_mem_nil
  | cons t later ih =>
    rw [allSearches, List.mem_append] at h
    rcases h with h | h
    · rw [searches] at h
      split at h
      · exact absurd h List.not_mem_nil
      · rcases List.mem_append.mp h with h | h
        · split at h
          · obtain ⟨rfl, rfl⟩ := Prod.mk.inj (List.mem_singleton.mp h)
            exact ⟨List.mem_cons_self, .inr rfl⟩
          · exact absurd h List.not_mem_nil
        · obtain ⟨u, hu, h⟩ := List.mem_flatMap.mp h
          have hu' : u ∈ t :: later := List.mem_cons_of_mem t (List.mem_filter.mp hu).1
          rcases List.mem_pair.mp h with h | h
          · obtain ⟨rfl, rfl⟩ := Prod.mk.inj h
            exact ⟨List.mem_cons_self, .inl hu'⟩
          · obtain ⟨rfl, rfl⟩ := Prod.mk.inj h
            exact ⟨hu', .inl List.mem_cons_self⟩
    · obtain ⟨ha, hb⟩ := ih h
      exact ⟨List.mem_cons_of_mem t ha, hb.imp_left (List.mem_cons_of_mem t)⟩

theorem mem_foldl_addWitness {ws out : List AtomicityWitness} {w : AtomicityWitness}
    (h : w ∈ ws.foldl addWitness out) : w ∈ out ∨ w ∈ ws := by
  induction ws generalizing out with
  | nil => exact .inl h
  | cons v ws ih =>
    rcases ih h with h | h
    · rw [addWitness] at h
      split at h
      · exact .inl h
      · rcases List.mem_append.mp h with h | h
        · exact .inl h
        · exact .inr (List.mem_cons.mpr (.inl (List.mem_singleton.mp h)))
    · exact .inr (List.mem_cons_of_mem v h)

theorem mem_findAtomicityViolations {threads : List Thread} {w : AtomicityWitness}
    (h : w ∈ findAtomicityViolations threads) :
    ∃ a b, (a, b) ∈ allSearches (spawnedNames threads) threads ∧ atomicityViolation a b = some w := by
  rw [findAtomicityViolations, List.mem_mergeSort] at h
  rcases mem_foldl_addWitness h with h | h
  · exact absurd h List.not_mem_nil
  · obtain ⟨⟨a, b⟩, hp, hw⟩ := List.mem_filterMap.mp h
    exact ⟨a, b, hp, hw⟩

/-- Between threads of which neither spawns the other, what either search reports is a schedule that the
    threads can take. -/
theorem atomicityViolation_witness (threads : List Thread) :
    (∀ a b w, NoSpawn a b → atomicityViolation a b = some w → WitnessOk a b w) ∧
      ∀ w ∈ findAtomicityViolations threads, ∃ a b, a ∈ threads ∧ (b ∈ threads ∨ b = second a) ∧
        atomicityViolation a b = some w ∧ (NoSpawn a b → WitnessOk a b w) := by
  refine ⟨fun a b w hno h => hno.witnessOk h, fun w hw => ?_⟩
  obtain ⟨a, b, hp, h⟩ := mem_findAtomicityViolations hw
  obtain ⟨ha, hb⟩ := mem_allSearches hp
  exact ⟨a, b, ha, hb, h, fun hno => hno.witnessOk h⟩

theorem label_injective (names : Bool → String) (h : names false ≠ names true) :
    Function.Injective (label names) := by
  apply List.map_injective_iff.mpr
  rintro ⟨t, e⟩ ⟨u, f⟩ heq
  obtain ⟨hname, rfl⟩ := Prod.mk.inj heq
  cases t <;> cases u
  · rfl
  · exact absurd hname h
  · exact absurd hname.symm h
  · rfl

/-- A thread that updates and then spawns the writer. -/
def updateThenSpawn : Thread := ⟨"a", [.read "x", .rmw "x", .spawn "b"]⟩

/-- The reported schedule runs the thread that is only spawned later. -/
theorem atomicityViolation_before_spawn :
    ∃ w, atomicityViolation updateThenSpawn shortWrite = some w ∧ ¬ WitnessOk updateThenSpawn shortWrite w := by
  refine ⟨⟨"x", [("a", .read "x"), ("b", .write "x"), ("a", .rmw "x")]⟩, by decide +kernel, ?_⟩
  rintro ⟨s, t, hs, _, hspawn, _⟩
  obtain rfl : [(false, .read "x"), (true, .write "x"), (false, .rmw "x")] = s :=
    label_injective (pair "a" "b") (by decide) hs
  have hmem := hspawn false (by decide) [(false, .read "x")] (.write "x") [(false, .rmw "x")] rfl
  exact absurd hmem (by decide)

/-- Two threads that do not spawn each other. -/
theorem atomicityViolation_witness_short :
    ∃ w, atomicityViolation shortUpdate shortWrite = some w ∧ WitnessOk shortUpdate shortWrite w := by
  refine ⟨⟨"x", [("a", .read "x"), ("b", .write "x"), ("a", .rmw "x")]⟩, by decide +kernel, ?_⟩
  exact (atomicityViolation_witness []).1 shortUpdate shortWrite _ ⟨by decide, by decide⟩ (by decide +kernel)

end Atomicity

end Interleave

end Csolver
