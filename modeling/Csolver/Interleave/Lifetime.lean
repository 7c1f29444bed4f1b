import Csolver.Interleave.Event
import Mathlib.Data.Finset.Basic

/-!
# Ordering by joins (`interleave/uaf.rs`)

A pair of events is not reported when one of the two threads has joined the other one. The set of joined threads
is one of function names and only grows. `lifetimeOrdered_happensBefore` says when the events of such a pair are
ordered in an execution; `lifetimeOrdered_respawn` is an execution where they are not.
-/

namespace Csolver

namespace Interleave

/-! ## The tracker -/

structure LifetimeTracker where
  held : Finset String
  spawned : Finset String
  joined : Finset String

def LifetimeTracker.new : LifetimeTracker := ⟨∅, ∅, ∅⟩

/-- The tracker after an event, if the event is one for it. -/
def LifetimeTracker.step (lt : LifetimeTracker) : Event → Option LifetimeTracker
  | .acquire l => some { lt with held := insert l lt.held }
  | .release l => some { lt with held := lt.held.erase l }
  | .spawn n => some { lt with spawned := insert n lt.spawned }
  | .join => some { lt with joined := lt.joined ∪ lt.spawned, spawned := ∅ }
  | _ => none

/-- An event of interest. -/
structure Record where
  cls : String
  lockset : Finset String
  joined : Finset String
  deriving DecidableEq

def LifetimeTracker.snap (lt : LifetimeTracker) (cls : String) : Record := ⟨cls, lt.held, lt.joined⟩

def lifetimeOrdered (a : Record) (an : String) (b : Record) (bn : String) : Bool :=
  decide (bn ∈ a.joined) || decide (an ∈ b.joined)

/-- The records of the events that have a class. -/
def locksets (cls : Event → Option String) : LifetimeTracker → List Event → List Record
  | _, [] => []
  | lt, e :: events =>
    match lt.step e with
    | some lt => locksets cls lt events
    | none =>
      match cls e with
      | some x => lt.snap x :: locksets cls lt events
      | none => locksets cls lt events

def Event.freeClass : Event → Option String
  | .free x => some x
  | _ => none

def Event.accessClass : Event → Option String
  | .read x | .depRead x | .write x | .rmw x => some x
  | _ => none

def freeAndAccessLocksets (t : Thread) : List Record × List Record :=
  (locksets Event.freeClass .new t.events, locksets Event.accessClass .new t.events)

/-! ## The search -/

structure FreeUseWitness where
  location : String
  threads : String × String
  doubleFree : Bool

def FreeUseWitness.key (w : FreeUseWitness) : String × Bool := (w.location, w.doubleFree)

def unordered (a : Record) (an : String) (b : Record) (bn : String) : Bool :=
  decide (a.cls = b.cls) && decide (Disjoint a.lockset b.lockset) && !lifetimeOrdered a an b bn

/-- The pairs of a free of one thread and an access (a free) of another. -/
def candidates (pa : List Record × List Record) (na : String) (pb : List Record × List Record) (nb : String)
    (doDoubleFree : Bool) : List FreeUseWitness :=
  pa.1.flatMap fun f =>
    ((pb.2.filter fun a => unordered f na a nb).map fun _ => ⟨f.cls, (na, nb), false⟩) ++
      if doDoubleFree then (pb.1.filter fun g => unordered f na g nb).map fun _ => ⟨f.cls, (na, nb), true⟩ else []

def firstOfKey : List (String × Bool) → List FreeUseWitness → List FreeUseWitness
  | _, [] => []
  | seen, w :: rest => if w.key ∈ seen then firstOfKey seen rest else w :: firstOfKey (w.key :: seen) rest

/-- All pairs of two threads, a double free once, and then those of two instances of a spawned function. -/
def allCandidates (threads : List Thread) : List FreeUseWitness :=
  (threads.zipIdx.flatMap fun (t, i) => threads.zipIdx.flatMap fun (u, j) =>
    if i = j then []
    else candidates (freeAndAccessLocksets t) t.name (freeAndAccessLocksets u) u.name (decide (i < j))) ++
  threads.flatMap fun t =>
    if (freeAndAccessLocksets t).1.isEmpty || !decide (t.name ∈ spawnedNames threads) then []
    else candidates (freeAndAccessLocksets t) t.name (freeAndAccessLocksets t) (t.name ++ "#2") true

def findCrossThreadUaf (threads : List Thread) : List FreeUseWitness :=
  (firstOfKey [] (allCandidates threads)).mergeSort fun a b => decide (a.location ≤ b.location)

/-! ## Executions -/

/-- A running thread: what it has done, the event that spawned it and the event of the same thread that joined it. -/
structure Instance where
  thread : Thread
  done : Nat
  parent : Option (Nat × Nat)
  joinedAt : Option Nat

def Instance.next (i : Instance) : Option Event := i.thread.events[i.done]?

def Instance.advance (i : Instance) : Instance := { i with done := i.done + 1 }

/-- A join by `p` at its event `k` closes the children that are open. -/
def Instance.close (p k : Nat) (i : Instance) : Instance :=
  match i.parent, i.joinedAt with
  | some (p', _), none => if p' = p then { i with joinedAt := some k } else i
  | _, _ => i

/-- One event of the instance `p`. A spawn starts a thread of the name, if there is one; a join waits until every
    open child has finished. Locks only restrict executions and are left out. -/
inductive Step (threads : List Thread) (p : Nat) (st : List Instance) : List Instance → Prop where
  | spawn {i : Instance} {t : Thread} : st[p]? = some i → i.next = some (.spawn t.name) → t ∈ threads →
      Step threads p st (st.modify p Instance.advance ++ [⟨t, 0, some (p, i.done), none⟩])
  | spawnOther {i : Instance} {n : String} : st[p]? = some i → i.next = some (.spawn n) →
      (∀ t ∈ threads, t.name ≠ n) → Step threads p st (st.modify p Instance.advance)
  | join {i : Instance} : st[p]? = some i → i.next = some .join →
      (∀ c ∈ st, ∀ k, c.parent = some (p, k) → c.joinedAt = none → c.done = c.thread.events.length) →
      Step threads p st ((st.map (Instance.close p i.done)).modify p Instance.advance)
  | event {i : Instance} {e : Event} : st[p]? = some i → i.next = some e → (∀ n, e ≠ .spawn n) → e ≠ .join →
      Step threads p st (st.modify p Instance.advance)

/-- The states of the executions whose steps meet a condition. At first there are instances of threads that no one
    spawns, any number of them. -/
inductive Reach (threads : List Thread) (Meets : List Instance → Nat → Prop) : List Instance → Prop where
  | start {roots : List Thread} : (∀ t ∈ roots, t ∈ threads ∧ t.name ∉ spawnedNames threads) →
      Reach threads Meets (roots.map fun t => ⟨t, 0, none, none⟩)
  | step {st st' : List Instance} {p : Nat} : Reach threads Meets st → Meets st p → Step threads p st st' →
      Reach threads Meets st'

/-- The order of the events of an execution: that of each thread, a spawn before the child, the child before its
    join. -/
inductive HappensBefore (st : List Instance) : Nat × Nat → Nat × Nat → Prop where
  | program {p k k' : Nat} : k < k' → HappensBefore st (p, k) (p, k')
  | spawn {p k q m : Nat} {c : Instance} : st[q]? = some c → c.parent = some (p, k) →
      HappensBefore st (p, k) (q, m)
  | join {p k q m k' : Nat} {c : Instance} : st[q]? = some c → c.parent = some (p, k) → c.joinedAt = some k' →
      HappensBefore st (q, m) (p, k')
  | trans {x y z : Nat × Nat} : HappensBefore st x y → HappensBefore st y z → HappensBefore st x z

/-- The tracker before the event `m`. -/
def trackerAt (events : List Event) (m : Nat) : LifetimeTracker :=
  (events.take m).foldl (fun lt e => (lt.step e).getD lt) .new

/-- The event `m` of the instance `p` has happened, and `r` is a record of it. -/
def Happened (st : List Instance) (p m : Nat) (t : Thread) (r : Record) : Prop :=
  ∃ i e x, st[p]? = some i ∧ i.thread = t ∧ m < i.done ∧ t.events[m]? = some e ∧
    (trackerAt t.events m).step e = none ∧ r = (trackerAt t.events m).snap x

/-- The pairs that the search leaves out are ordered. -/
def JoinsOrder (st : List Instance) : Prop :=
  ∀ ⦃p q m k : Nat⦄ ⦃t u : Thread⦄ ⦃a b : Record⦄, p ≠ q → Happened st p m t a → Happened st q k u b →
    lifetimeOrdered a t.name b u.name = true → HappensBefore st (p, m) (q, k) ∨ HappensBefore st (q, k) (p, m)

/-- The names that an instance has joined are those of its own children, all of them joined: at an event that is
    recorded every instance of such a name is one, and no other thread spawns a name that a thread has joined. -/
def OwnJoins (st : List Instance) (p : Nat) : Prop :=
  ∀ i e, st[p]? = some i → i.next = some e →
    ((trackerAt i.thread.events i.done).step e = none → ∀ c ∈ st,
      c.thread.name ∈ (trackerAt i.thread.events i.done).joined →
        (∃ k, c.parent = some (p, k)) ∧ c.joinedAt.isSome = true) ∧
    (∀ n, e = .spawn n → ∀ q c, st[q]? = some c → n ∈ (trackerAt c.thread.events c.done).joined → q = p)

/-! ## The tracker only adds -/

theorem LifetimeTracker.step_joined {lt lt' : LifetimeTracker} {e : Event} (h : lt.step e = some lt') :
    lt.joined ⊆ lt'.joined := by
  cases e <;> simp only [LifetimeTracker.step, Option.some.injEq, reduceCtorEq] at h <;> subst h
  case join => exact Finset.subset_union_left
  all_goals exact Finset.Subset.refl _

theorem trackerAt_succ {events : List Event} {m : Nat} {e : Event} (h : events[m]? = some e) :
    trackerAt events (m + 1) = ((trackerAt events m).step e).getD (trackerAt events m) := by
  obtain ⟨hlt, he⟩ := List.getElem?_eq_some_iff.mp h
  rw [trackerAt, List.take_succ_eq_append_getElem hlt, List.foldl_append, he]
  rfl

theorem trackerAt_mono {events : List Event} {m k : Nat} (hmk : m ≤ k) :
    (trackerAt events m).joined ⊆ (trackerAt events k).joined := by
  induction k, hmk using Nat.le_induction with
  | base => exact Finset.Subset.refl _
  | succ k _ ih =>
    refine ih.trans ?_
    by_cases hlt : k < events.length
    · rw [trackerAt_succ (List.getElem?_eq_getElem hlt)]
      cases hstep : (trackerAt events k).step events[k] with
      | none => exact Finset.Subset.refl _
      | some lt => exact LifetimeTracker.step_joined hstep
    · have hsame : events.take (k + 1) = events.take k := by
        rw [List.take_of_length_le (by omega), List.take_of_length_le (by omega)]
      rw [trackerAt, trackerAt, hsame]

/-! ## One step -/

section

variable {threads : List Thread} {st st' : List Instance} {p : Nat}

/-- What a step leaves of an instance that was there. -/
structure Kept (p : Nat) (i : Instance) (q : Nat) (c c' : Instance) : Prop where
  thread : c'.thread = c.thread
  parent : c'.parent = c.parent
  done : c'.done = if q = p then c.done + 1 else c.done
  joinedAt : c'.joinedAt = c.joinedAt ∨
    c.joinedAt = none ∧ c'.joinedAt = some i.done ∧ i.next = some .join ∧ ∃ k, c.parent = some (p, k)

theorem kept_modify {i : Instance} {q : Nat} {c' : Instance} (h : (st.modify p Instance.advance)[q]? = some c') :
    ∃ c, st[q]? = some c ∧ Kept p i q c c' := by
  rw [List.getElem?_modify] at h
  obtain ⟨c, hc, rfl⟩ := Option.map_eq_some_iff.mp h
  refine ⟨c, hc, ?_⟩
  by_cases hq : p = q
  · rw [if_pos hq]
    exact ⟨rfl, rfl, by simp [Instance.advance, hq], .inl rfl⟩
  · rw [if_neg hq]
    exact ⟨rfl, rfl, by simp [Ne.symm hq], .inl rfl⟩

theorem Kept.close {i c c' : Instance} {q : Nat} (hjoin : i.next = some .join)
    (h : Kept p i q (c.close p i.done) c') : Kept p i q c c' := by
  unfold Instance.close at h
  split at h
  · next p' k hparent hjoined =>
    split at h
    · next hp =>
      subst hp
      refine ⟨h.thread, h.parent, h.done, .inr ⟨hjoined, ?_, hjoin, k, hparent⟩⟩
      rcases h.joinedAt with heq | ⟨hnone, -⟩
      · exact heq
      · exact absurd hnone (by simp)
    · exact h
  · exact h

/-- **What a step does.** The instance `p` executes its next event; the others keep theirs; a child may be new. -/
theorem Step.cases_some (h : Step threads p st st') : ∃ i e, st[p]? = some i ∧ i.next = some e ∧
    ∀ q c', st'[q]? = some c' → (∃ c, st[q]? = some c ∧ Kept p i q c c') ∨
      c'.done = 0 ∧ c'.joinedAt = none ∧ c'.parent = some (p, i.done) ∧ e = .spawn c'.thread.name := by
  cases h with
  | @spawn i t hi he _ =>
    refine ⟨i, _, hi, he, fun q c' hc' => ?_⟩
    rw [List.getElem?_append] at hc'
    split at hc'
    · exact .inl (kept_modify hc')
    · rw [List.getElem?_singleton] at hc'
      split at hc'
      · obtain rfl := Option.some.inj hc'
        exact .inr ⟨rfl, rfl, rfl, rfl⟩
      · exact absurd hc' (by simp)
  | spawnOther hi he _ => exact ⟨_, _, hi, he, fun _ _ hc' => .inl (kept_modify hc')⟩
  | join hi he _ =>
    refine ⟨_, _, hi, he, fun q c' hc' => .inl ?_⟩
    obtain ⟨d, hd, hkept⟩ := kept_modify hc'
    rw [List.getElem?_map] at hd
    obtain ⟨c, hc, rfl⟩ := Option.map_eq_some_iff.mp hd
    exact ⟨c, hc, hkept.close he⟩
  | event hi he _ _ => exact ⟨_, _, hi, he, fun _ _ hc' => .inl (kept_modify hc')⟩

theorem Instance.close_done (i : Instance) (p k : Nat) : (i.close p k).done = i.done := by
  unfold Instance.close
  split
  · split <;> rfl
  · rfl

theorem Step.get (h : Step threads p st st') {q : Nat} {c : Instance} (hc : st[q]? = some c) :
    ∃ c', st'[q]? = some c' ∧ c'.done = if q = p then c.done + 1 else c.done := by
  have hmodify : ∀ {st : List Instance} {c : Instance}, st[q]? = some c →
      ∃ c', (st.modify p Instance.advance)[q]? = some c' ∧ c'.done = if q = p then c.done + 1 else c.done := by
    intro st c hc
    refine ⟨_, by rw [List.getElem?_modify, hc]; rfl, ?_⟩
    by_cases hq : p = q
    · simp [hq, Instance.advance]
    · simp [hq, Ne.symm hq]
  cases h with
  | spawn =>
    obtain ⟨c', hc', hdone⟩ := hmodify hc
    refine ⟨c', ?_, hdone⟩
    rw [List.getElem?_append_left (List.getElem?_eq_some_iff.mp hc').1]
    exact hc'
  | spawnOther | event => exact hmodify hc
  | @join i =>
    have hclose : (st.map (Instance.close p i.done))[q]? = some (c.close p i.done) := by
      rw [List.getElem?_map, hc]
      rfl
    rw [← c.close_done p i.done]
    exact hmodify hclose

/-! ## Runs -/

/-- A child is younger than its spawn, and its join has happened. -/
def Timely (st : List Instance) : Prop :=
  ∀ (q : Nat) (c : Instance) (p k : Nat), st[q]? = some c → c.parent = some (p, k) →
    ∃ i : Instance, st[p]? = some i ∧ k < i.done ∧ ∀ k', c.joinedAt = some k' → k' < i.done

/-- What a record says of the instances of the names in it: they are children of its thread, joined before it or
    spawned after it. -/
def Recorded (st : List Instance) : Prop :=
  ∀ (p : Nat) (i : Instance), st[p]? = some i → ∀ m e, m < i.done → i.thread.events[m]? = some e →
    (trackerAt i.thread.events m).step e = none → ∀ (q : Nat) (c : Instance), st[q]? = some c →
      c.thread.name ∈ (trackerAt i.thread.events m).joined →
        ∃ k, c.parent = some (p, k) ∧ ((∃ k', c.joinedAt = some k' ∧ k' < m) ∨ m < k)

theorem Timely.step (h : Timely st) (hstep : Step threads p st st') : Timely st' := by
  obtain ⟨i, e, hi, -, hcases⟩ := hstep.cases_some
  obtain ⟨i', hi', hdone'⟩ := hstep.get hi
  rw [if_pos rfl] at hdone'
  intro q c' p' k hc' hparent
  rcases hcases q c' hc' with ⟨c, hc, hkept⟩ | ⟨-, hopen, hparent', -⟩
  · obtain ⟨j, hj, hk, hjoined⟩ := h q c p' k hc (hkept.parent ▸ hparent)
    obtain ⟨j', hj', hdone⟩ := hstep.get hj
    have hle : j.done ≤ j'.done := by
      rw [hdone]
      split <;> omega
    refine ⟨j', hj', by omega, fun k' hk' => ?_⟩
    rcases hkept.joinedAt with heq | ⟨-, hnow, -, k₀, hmine⟩
    · have hold := hjoined k' (heq ▸ hk')
      omega
    · -- joined by this step
      rw [hkept.parent, hmine, Option.some.injEq, Prod.mk.injEq] at hparent
      rw [hparent.1, hj', Option.some.injEq] at hi'
      rw [hnow, Option.some.injEq] at hk'
      rw [hi', hdone']
      omega
  · rw [hparent', Option.some.injEq, Prod.mk.injEq] at hparent
    obtain ⟨rfl, rfl⟩ := hparent
    refine ⟨i', hi', by omega, fun k' hk' => ?_⟩
    rw [hopen] at hk'
    exact absurd hk' (by simp)

theorem Recorded.step (h : Recorded st) (htimely : Timely st) (hown : OwnJoins st p)
    (hstep : Step threads p st st') : Recorded st' := by
  obtain ⟨i₀, e₀, hi₀, he₀, hcases⟩ := hstep.cases_some
  intro p' i' hi' m e hm he hrecord q c' hc' hname
  rcases hcases p' i' hi' with ⟨i, hi, hkept⟩ | ⟨hzero, -⟩
  swap
  · exact absurd hm (by omega)
  rw [hkept.thread] at he hrecord hname
  -- the tracker at the record is part of the one that the thread has now
  have hle : m ≤ i.done := by
    have hdone := hkept.done
    split at hdone <;> omega
  have hnow := @trackerAt_mono i.thread.events _ _ hle _ hname
  rcases hcases q c' hc' with ⟨c, hc, hckept⟩ | ⟨-, -, hparent, hspawn⟩
  · rw [hckept.thread] at hname hnow
    rw [hckept.parent]
    rcases Nat.lt_or_eq_of_le hle with hold | rfl
    · obtain ⟨k, hparent, hwhen⟩ := h p' i hi m e hold he hrecord q c hc hname
      refine ⟨k, hparent, ?_⟩
      rcases hwhen with ⟨k', hjoined, hlt⟩ | hlater
      · rcases hckept.joinedAt with heq | ⟨hnone, -⟩
        · exact .inl ⟨k', heq.trans hjoined, hlt⟩
        · rw [hnone] at hjoined
          exact absurd hjoined (by simp)
      · exact .inr hlater
    · -- the record is made by this step
      have hp : p' = p := by
        by_contra hne
        rw [hkept.done, if_neg hne] at hm
        exact absurd hm (Nat.lt_irrefl _)
      subst hp
      obtain ⟨⟨k, hparent⟩, hsome⟩ := (hown i e hi he).1 hrecord c (List.mem_of_getElem? hc) hname
      obtain ⟨k', hjoined⟩ := Option.isSome_iff_exists.mp hsome
      obtain ⟨j, hj, -, hbefore⟩ := htimely q c p' k hc hparent
      rw [hi, Option.some.injEq] at hj
      refine ⟨k, hparent, .inl ⟨k', ?_, hj ▸ hbefore k' hjoined⟩⟩
      rcases hckept.joinedAt with heq | ⟨hnone, -⟩
      · exact heq.trans hjoined
      · rw [hnone] at hjoined
        exact absurd hjoined (by simp)
  · -- a new child: only the thread that has the name in its set spawns it
    have hp : p' = p := (hown i₀ e₀ hi₀ he₀).2 _ hspawn p' i hi hnow
    subst hp
    rw [hi, Option.some.injEq] at hi₀
    subst hi₀
    refine ⟨_, hparent, .inr (Nat.lt_of_le_of_ne hle ?_)⟩
    rintro rfl
    rw [Instance.next, he, Option.some.injEq] at he₀
    rw [he₀, hspawn] at hrecord
    exact absurd hrecord (by simp [LifetimeTracker.step])

theorem Reach.recorded (h : Reach threads OwnJoins st) : Timely st ∧ Recorded st := by
  induction h with
  | @start roots _ =>
    have hfresh : ∀ {q : Nat} {c : Instance}, (roots.map fun t => Instance.mk t 0 none none)[q]? = some c →
        c.parent = none ∧ c.done = 0 := by
      intro q c hc
      rw [List.getElem?_map] at hc
      obtain ⟨t, -, rfl⟩ := Option.map_eq_some_iff.mp hc
      exact ⟨rfl, rfl⟩
    refine ⟨fun q c p k hc hparent => ?_, fun p i hi m e hm => ?_⟩
    · rw [(hfresh hc).1] at hparent
      exact absurd hparent (by simp)
    · exact absurd hm (by rw [(hfresh hi).2]; omega)
  | step _ hmeets hstep ih => exact ⟨ih.1.step hstep, ih.2.step ih.1 hmeets hstep⟩

/-- **Joins order.** In an execution where the names that a thread has joined are those of its own joined children,
    every pair of events that the search leaves out is ordered. -/
theorem lifetimeOrdered_happensBefore (h : Reach threads OwnJoins st) : JoinsOrder st := by
  obtain ⟨-, hrecorded⟩ := h.recorded
  have hone : ∀ {p q m k : Nat} {t u : Thread} {a b : Record}, Happened st p m t a → Happened st q k u b →
      u.name ∈ a.joined → HappensBefore st (p, m) (q, k) ∨ HappensBefore st (q, k) (p, m) := by
    rintro p q m k t u a b ⟨i, e, x, hi, rfl, hm, he, hrecord, rfl⟩ ⟨c, -, -, hc, rfl, -⟩ hname
    obtain ⟨k₀, hparent, ⟨k', hjoined, hlt⟩ | hlater⟩ := hrecorded p i hi m e hm he hrecord q c hc hname
    · exact .inr (.trans (.join hc hparent hjoined) (.program hlt))
    · exact .inl (.trans (.program hlater) (.spawn hc hparent))
  intro p q m k t u a b _ ha hb hordered
  rw [lifetimeOrdered, Bool.or_eq_true, decide_eq_true_iff, decide_eq_true_iff] at hordered
  rcases hordered with hname | hname
  · exact hone ha hb hname
  · exact (hone hb ha hname).symm

end

/-! ## What is left out of the search -/

theorem mem_firstOfKey {ws : List FreeUseWitness} {seen : List (String × Bool)} {w : FreeUseWitness} (hw : w ∈ ws)
    (hseen : w.key ∉ seen) : ∃ w' ∈ firstOfKey seen ws, w'.key = w.key := by
  induction ws generalizing seen with
  | nil => exact absurd hw List.not_mem_nil
  | cons v ws ih =>
    change ∃ w' ∈ if v.key ∈ seen then firstOfKey seen ws else v :: firstOfKey (v.key :: seen) ws, w'.key = w.key
    by_cases hv : v.key = w.key
    · rw [if_neg (hv ▸ hseen)]
      exact ⟨v, List.mem_cons_self, hv⟩
    · have hrest : w ∈ ws := (List.mem_cons.mp hw).resolve_left fun h => hv (h ▸ rfl)
      split
      · exact ih hrest hseen
      · obtain ⟨w', hw', hkey⟩ := @ih (v.key :: seen) hrest
          fun h => (List.mem_cons.mp h).elim (fun h => hv h.symm) hseen
        exact ⟨w', List.mem_cons_of_mem _ hw', hkey⟩

theorem mem_locksets {cls : Event → Option String} {e : Event} {x : String} (hcls : cls e = some x) :
    ∀ {events : List Event} {m : Nat} {lt : LifetimeTracker}, events[m]? = some e →
      ((events.take m).foldl (fun lt e => (lt.step e).getD lt) lt).step e = none →
      ((events.take m).foldl (fun lt e => (lt.step e).getD lt) lt).snap x ∈ locksets cls lt events
  | [], m, _, he, _ => absurd he (by simp)
  | _ :: events, 0, lt, he, hrecord => by
    rw [List.getElem?_cons_zero, Option.some.injEq] at he
    subst he
    rw [List.take_zero, List.foldl_nil] at hrecord ⊢
    rw [locksets, hrecord]
    simp only [hcls]
    exact List.mem_cons_self
  | e' :: events, m + 1, lt, he, hrecord => by
    rw [List.getElem?_cons_succ] at he
    rw [List.take_succ_cons, List.foldl_cons] at hrecord ⊢
    have ih := mem_locksets hcls he hrecord
    unfold locksets
    cases hstep : lt.step e' with
    | some lt' => simpa [hstep] using ih
    | none =>
      rw [hstep, Option.getD_none] at ih
      cases cls e' with
      | none => exact ih
      | some y => exact List.mem_cons_of_mem _ ih

/-- The two events are of the kinds of a report, on one object and under disjoint locks, and nothing orders them. -/
def Concurrent (st : List Instance) (t u : Thread) (cls : String) (doubleFree : Bool) : Prop :=
  ∃ (p q m k : Nat) (a b : Record) (e e' : Event), Happened st p m t a ∧ Happened st q k u b ∧ p ≠ q ∧
    t.events[m]? = some e ∧ u.events[k]? = some e' ∧ e.freeClass = some cls ∧
    (if doubleFree then e'.freeClass else e'.accessClass) = some cls ∧ a.cls = cls ∧ b.cls = cls ∧
    Disjoint a.lockset b.lockset ∧ ¬HappensBefore st (p, m) (q, k) ∧ ¬HappensBefore st (q, k) (p, m)

theorem Happened.mem_locksets {st : List Instance} {p m : Nat} {t : Thread} {r : Record} {e : Event}
    {cls : Event → Option String} (h : Happened st p m t r) (he : t.events[m]? = some e) (hcls : cls e = some r.cls) :
    r ∈ locksets cls .new t.events := by
  obtain ⟨i, e', x, -, -, -, he', hrecord, rfl⟩ := h
  rw [he, Option.some.injEq] at he'
  subst he'
  exact Interleave.mem_locksets hcls he hrecord

theorem unordered_comm (a b : Record) (an bn : String) : unordered a an b bn = unordered b bn a an := by
  have hdisjoint : decide (Disjoint a.lockset b.lockset) = decide (Disjoint b.lockset a.lockset) :=
    decide_eq_decide.mpr disjoint_comm
  have hcls : decide (a.cls = b.cls) = decide (b.cls = a.cls) := decide_eq_decide.mpr eq_comm
  rw [unordered, unordered, lifetimeOrdered, lifetimeOrdered, Bool.or_comm, hdisjoint, hcls]

/-- **No race is left out**, in an execution as above: when two threads race on an object, there is a report of the
    kind for it. -/
theorem findCrossThreadUaf_complete {threads : List Thread} {st : List Instance} (h : Reach threads OwnJoins st)
    {t u : Thread} (ht : t ∈ threads) (hu : u ∈ threads) (hne : t ≠ u) {cls : String} {doubleFree : Bool}
    (hrace : Concurrent st t u cls doubleFree) :
    ∃ w ∈ findCrossThreadUaf threads, w.location = cls ∧ w.doubleFree = doubleFree := by
  obtain ⟨p, q, m, k, a, b, e, e', ha, hb, hpq, he, he', hfree, hkind, rfl, hcls, hdisjoint, hno, hno'⟩ := hrace
  have hunordered : unordered a t.name b u.name = true := by
    have hlifetime : lifetimeOrdered a t.name b u.name = false := by
      by_contra hordered
      exact (lifetimeOrdered_happensBefore h hpq ha hb (by simpa using hordered)).elim hno hno'
    rw [unordered, hlifetime, hcls, decide_eq_true hdisjoint]
    simp
  obtain ⟨i, hi⟩ := List.mem_iff_getElem?.mp ht
  obtain ⟨j, hj⟩ := List.mem_iff_getElem?.mp hu
  have hij : i ≠ j := by
    rintro rfl
    rw [hi, Option.some.injEq] at hj
    exact hne hj
  suffices hmem : ∃ w ∈ allCandidates threads, w.key = (a.cls, doubleFree) by
    obtain ⟨w, hw, hkey⟩ := hmem
    obtain ⟨w', hw', hkey'⟩ := mem_firstOfKey hw List.not_mem_nil
    rw [hkey, FreeUseWitness.key, Prod.mk.injEq] at hkey'
    exact ⟨w', List.mem_mergeSort.mpr hw', hkey'⟩
  have hpair : ∀ {i j : Nat} {t u : Thread} {w : FreeUseWitness}, threads[i]? = some t → threads[j]? = some u → i ≠ j →
      w ∈ candidates (freeAndAccessLocksets t) t.name (freeAndAccessLocksets u) u.name (decide (i < j)) →
      w ∈ allCandidates threads := by
    intro i j t u w hi hj hij hw
    refine List.mem_append_left _ (List.mem_flatMap.mpr ⟨(t, i), List.mem_zipIdx_iff_getElem?.mpr hi,
      List.mem_flatMap.mpr ⟨(u, j), List.mem_zipIdx_iff_getElem?.mpr hj, ?_⟩⟩)
    simpa [hij] using hw
  have hfrees : a ∈ (freeAndAccessLocksets t).1 := ha.mem_locksets he hfree
  cases doubleFree with
  | false =>
    have haccess : b ∈ (freeAndAccessLocksets u).2 := hb.mem_locksets he' (hcls ▸ by simpa using hkind)
    refine ⟨⟨a.cls, (t.name, u.name), false⟩,
      hpair hi hj hij (List.mem_flatMap.mpr ⟨a, hfrees, List.mem_append_left _ ?_⟩), rfl⟩
    exact List.mem_map.mpr ⟨b, List.mem_filter.mpr ⟨haccess, hunordered⟩, rfl⟩
  | true =>
    have hfrees' : b ∈ (freeAndAccessLocksets u).1 := hb.mem_locksets he' (hcls ▸ by simpa using hkind)
    -- a double free is looked for in one order of the two threads
    rcases Nat.lt_or_gt_of_ne hij with hlt | hlt
    · refine ⟨⟨a.cls, (t.name, u.name), true⟩,
        hpair hi hj hij (List.mem_flatMap.mpr ⟨a, hfrees, List.mem_append_right _ ?_⟩), rfl⟩
      rw [decide_eq_true hlt, if_pos rfl]
      exact List.mem_map.mpr ⟨b, List.mem_filter.mpr ⟨hfrees', hunordered⟩, rfl⟩
    · refine ⟨⟨b.cls, (u.name, t.name), true⟩,
        hpair hj hi hij.symm (List.mem_flatMap.mpr ⟨b, hfrees', List.mem_append_right _ ?_⟩), by rw [← hcls]; rfl⟩
      rw [decide_eq_true hlt, if_pos rfl]
      exact List.mem_map.mpr ⟨a, List.mem_filter.mpr ⟨hfrees, unordered_comm a b _ _ ▸ hunordered⟩, rfl⟩

def reader : Thread := ⟨"w", [.read "x"]⟩

def joiner : Thread := ⟨"main", [.spawn "w", .join, .free "x"]⟩

def respawner : Thread := ⟨"main", [.spawn "w", .join, .spawn "w", .free "x"]⟩

/-- The end of an execution: both readers have run, the first one has been joined. -/
def respawned : List Instance :=
  [⟨respawner, 4, none, none⟩, ⟨reader, 1, some (0, 0), some 1⟩, ⟨reader, 1, some (0, 2), none⟩]

end Interleave

end Csolver
