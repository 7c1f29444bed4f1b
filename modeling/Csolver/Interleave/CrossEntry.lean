import Csolver.Interleave.Event
import Mathlib.Data.List.Dedup

/-!
# Use after free across entries (`interleave/crossentry.rs`)

An object that hangs off a global survives between calls of independent entries. The search looks at two entries
only: one that leaves the object dangling when it was live, and another one that uses or frees it when it starts
dangling. That this is enough for sequences of any length is `findCrossEntryUaf_iff`.
-/

namespace Csolver

namespace Interleave

/-! ## Classes of objects -/

def derefTag : List Char := ['d', 'e', 'r', 'e', 'f', ':']

def stripPrefix (tag s : List Char) : Option (List Char) :=
  if tag.isPrefixOf s then some (s.drop tag.length) else none

/-- The class without the dereferences in front. Each round removes characters. -/
def stripDerefs : Nat → List Char → List Char
  | 0, s => s
  | fuel + 1, s =>
    match stripPrefix derefTag s with
    | some rest => stripDerefs fuel rest
    | none => s

def isGlobalRooted (cls : String) : Bool :=
  ['g', ':'].isPrefixOf (stripDerefs cls.toList.length cls.toList)

def rootSlot (cls : String) : String :=
  match stripPrefix derefTag cls.toList with
  | some rest => String.ofList rest
  | none => cls

/-! ## One entry -/

inductive RootLife where
  | live | dangling
  deriving DecidableEq

inductive RootEff where
  | free | clear | use
  deriving DecidableEq

/-- `root_effect`. A write to the slot is looked for before one through the object. -/
def rootEffect (e : Event) (root : String) : Option RootEff :=
  match e with
  | .free x | .refPut x => if x = root then some .free else none
  | .write x | .rmw x => if x = rootSlot root then some .clear else if x = root then some .use else none
  | .read x | .depRead x | .refGet x => if x = root then some .use else none
  | _ => none

/-- The state of the simulation of an entry. -/
structure Simulation where
  life : RootLife
  uaf : Bool
  doubleFree : Bool

def simulateEvent (root : String) (s : Simulation) (e : Event) : Simulation :=
  match rootEffect e root with
  | some .free => { s with life := .dangling, doubleFree := s.doubleFree || decide (s.life = .dangling) }
  | some .clear => { s with life := .live }
  | some .use => { s with uaf := s.uaf || decide (s.life = .dangling) }
  | none => s

def simulateRoot (events : List Event) (root : String) (start : RootLife) : Simulation :=
  events.foldl (simulateEvent root) ⟨start, false, false⟩

/-- What a report of the kind says of a simulation. -/
def Simulation.flag (s : Simulation) (doubleFree : Bool) : Bool := if doubleFree then s.doubleFree else s.uaf

/-! ## The search -/

structure CrossEntryWitness where
  location : String
  entries : String × String
  doubleFree : Bool

def CrossEntryWitness.key (w : CrossEntryWitness) : String × Bool := (w.location, w.doubleFree)

/-- The witnesses so far and the keys that were reported. -/
structure Found where
  out : List CrossEntryWitness
  seen : List (String × Bool)

def Found.record (s : Found) (w : CrossEntryWitness) : Found :=
  if w.key ∈ s.seen then s else ⟨s.out ++ [w], w.key :: s.seen⟩

/-- The class that an event makes a candidate. -/
def Event.rootClass : Event → Option String
  | .free x | .refPut x | .read x | .depRead x | .refGet x | .write x | .rmw x => some x
  | _ => none

def roots (entries : List Thread) : List String :=
  ((entries.flatMap fun t => (t.events.filterMap Event.rootClass).filter isGlobalRooted).dedup).mergeSort
    fun a b => decide (a ≤ b)

/-- The entries that leave a live object dangling. -/
def freers (entries : List Thread) (root : String) : List (Thread × Nat) :=
  entries.zipIdx.filter fun e => decide ((simulateRoot e.1.events root .live).life = .dangling)

/-- The entry at `j`, if another one leaves the object dangling. -/
def visitEntry (entries : List Thread) (root : String) (s : Found) (e : Thread × Nat) : Found :=
  match (freers entries root).find? fun f => decide (f.2 ≠ e.2) with
  | none => s
  | some f =>
    let r := simulateRoot e.1.events root .dangling
    let s := if r.uaf then s.record ⟨root, (f.1.name, e.1.name), false⟩ else s
    if r.doubleFree then s.record ⟨root, (f.1.name, e.1.name), true⟩ else s

def visitRoot (entries : List Thread) (s : Found) (root : String) : Found :=
  if (freers entries root).isEmpty then s else entries.zipIdx.foldl (visitEntry entries root) s

def findCrossEntryUaf (entries : List Thread) : List CrossEntryWitness :=
  ((roots entries).foldl (visitRoot entries) ⟨[], []⟩).out.mergeSort fun a b => decide (a.location ≤ b.location)

/-! ## Sequences of calls -/

/-- The state of the object after a sequence of entries. -/
def lifeAfter (root : String) (calls : List Thread) (start : RootLife) : RootLife :=
  calls.foldl (fun life t => (simulateRoot t.events root life).life) start

/-- Some event of the entry frees the object. -/
def Frees (root : String) (t : Thread) : Prop := ∃ e ∈ t.events, rootEffect e root = some .free

/-- An attack: calls that start with the object live, one of which frees it and leaves it dangling, and a later
    one of another entry that finds it dangling and then uses it, or frees it, while it is. -/
def Attack (entries : List Thread) (root : String) (doubleFree : Bool) : Prop :=
  ∃ (pre mid : List Thread) (i j : Nat) (freer user : Thread), (∀ t ∈ pre ++ mid, t ∈ entries) ∧
    entries[i]? = some freer ∧ entries[j]? = some user ∧ i ≠ j ∧ Frees root freer ∧
    lifeAfter root (pre ++ [freer]) .live = .dangling ∧
    lifeAfter root (pre ++ freer :: mid) .live = .dangling ∧
    (simulateRoot user.events root .dangling).flag doubleFree = true

/-! ## Simulations from two states -/

section

variable {root : String}

theorem simulateEvent_life {s s' : Simulation} (h : s.life = s'.life) (e : Event) :
    (simulateEvent root s e).life = (simulateEvent root s' e).life := by
  unfold simulateEvent
  cases rootEffect e root with
  | none => exact h
  | some eff => cases eff <;> first | rfl | exact h

theorem foldl_life {s s' : Simulation} (h : s.life = s'.life) (events : List Event) :
    (events.foldl (simulateEvent root) s).life = (events.foldl (simulateEvent root) s').life := by
  induction events generalizing s s' with
  | nil => exact h
  | cons e events ih => exact ih (simulateEvent_life h e)

theorem Frees.life {t : Thread} (h : Frees root t) (start start' : RootLife) :
    (simulateRoot t.events root start).life = (simulateRoot t.events root start').life := by
  obtain ⟨e, he, heff⟩ := h
  obtain ⟨before, after, hsplit⟩ := List.append_of_mem he
  have hfree : ∀ s : Simulation, (simulateEvent root s e).life = .dangling := by
    intro s
    rw [simulateEvent, heff]
  rw [simulateRoot, simulateRoot, hsplit, List.foldl_append, List.foldl_append, List.foldl_cons, List.foldl_cons]
  exact foldl_life ((hfree _).trans (hfree _).symm) after

theorem frees_of_dangling {t : Thread} (h : (simulateRoot t.events root .live).life = .dangling) : Frees root t := by
  by_contra hno
  have hlive : ∀ (events : List Event) (s : Simulation), (∀ e ∈ events, rootEffect e root ≠ some .free) →
      s.life = .live → (events.foldl (simulateEvent root) s).life = .live := by
    intro events
    induction events with
    | nil => exact fun _ _ hs => hs
    | cons e events ih =>
      intro s hall hs
      apply ih _ fun e' he' => hall e' (List.mem_cons_of_mem _ he')
      have hne := hall e List.mem_cons_self
      unfold simulateEvent
      cases heff : rootEffect e root with
      | none => exact hs
      | some eff =>
        cases eff with
        | free => exact absurd heff hne
        | clear => rfl
        | use => exact hs
  have hend := hlive t.events ⟨.live, false, false⟩ (fun e he heff => hno ⟨e, he, heff⟩) rfl
  rw [simulateRoot, hend] at h
  exact absurd h (by decide)

theorem mem_freers {entries : List Thread} {e : Thread × Nat} :
    e ∈ freers entries root ↔ entries[e.2]? = some e.1 ∧ (simulateRoot e.1.events root .live).life = .dangling := by
  rw [freers, List.mem_filter, decide_eq_true_iff, List.mem_zipIdx_iff_getElem?]

end

/-! ## What is reported -/

/-- The pair that the search looks at. -/
def Pair (entries : List Thread) (root : String) (doubleFree : Bool) (j : Nat) (user : Thread) : Prop :=
  (∃ f ∈ freers entries root, f.2 ≠ j) ∧ (simulateRoot user.events root .dangling).flag doubleFree = true

def Found.Has (s : Found) (k : String × Bool) : Prop := ∃ w ∈ s.out, w.key = k

/-- The keys are those of the witnesses. -/
def Found.Ok (s : Found) : Prop := ∀ k, k ∈ s.seen ↔ s.Has k

theorem Found.Ok.record {s : Found} (h : s.Ok) (w : CrossEntryWitness) :
    (s.record w).Ok ∧ ∀ k, (s.record w).Has k ↔ s.Has k ∨ w.key = k := by
  unfold Found.record
  split
  · next hseen =>
    refine ⟨h, fun k => ⟨.inl, ?_⟩⟩
    rintro (hk | rfl)
    · exact hk
    · exact (h w.key).mp hseen
  · have hhas : ∀ k, (Found.mk (s.out ++ [w]) (w.key :: s.seen)).Has k ↔ s.Has k ∨ w.key = k := by
      intro k
      simp only [Found.Has, List.mem_append, List.mem_singleton]
      constructor
      · rintro ⟨x, hx | rfl, hk⟩
        · exact .inl ⟨x, hx, hk⟩
        · exact .inr hk
      · rintro (⟨x, hx, hk⟩ | hk)
        · exact ⟨x, .inl hx, hk⟩
        · exact ⟨w, .inr rfl, hk⟩
    refine ⟨fun k => ?_, hhas⟩
    rw [hhas, List.mem_cons, h k, or_comm, eq_comm]

/-- **One entry** is reported exactly for the kinds of its pairs. -/
theorem visitEntry_spec {entries : List Thread} {root : String} {s : Found} (h : s.Ok) (e : Thread × Nat) :
    (visitEntry entries root s e).Ok ∧ ∀ k, (visitEntry entries root s e).Has k ↔
      s.Has k ∨ k.1 = root ∧ Pair entries root k.2 e.2 e.1 := by
  unfold visitEntry
  cases hf : (freers entries root).find? fun f => decide (f.2 ≠ e.2) with
  | none =>
    refine ⟨h, fun k => ⟨.inl, ?_⟩⟩
    rintro (hk | ⟨-, ⟨f, hmem, hne⟩, -⟩)
    · exact hk
    · exact absurd (decide_eq_true hne) (List.find?_eq_none.mp hf f hmem)
  | some f =>
    have hother : ∃ f ∈ freers entries root, f.2 ≠ e.2 :=
      ⟨f, List.mem_of_find?_eq_some hf, by simpa using List.find?_some hf⟩
    have hcond : ∀ {s : Found} (b : Bool), s.Ok →
        (if (simulateRoot e.1.events root .dangling).flag b
          then s.record ⟨root, (f.1.name, e.1.name), b⟩ else s).Ok ∧
        ∀ k, (if (simulateRoot e.1.events root .dangling).flag b
          then s.record ⟨root, (f.1.name, e.1.name), b⟩ else s).Has k ↔
            s.Has k ∨ (root, b) = k ∧ (simulateRoot e.1.events root .dangling).flag b = true := by
      intro s b hs
      by_cases hflag : (simulateRoot e.1.events root .dangling).flag b = true
      · simp only [hflag, if_true, and_true]
        exact hs.record ⟨root, (f.1.name, e.1.name), b⟩
      · rw [if_neg hflag]
        refine ⟨hs, fun k => ⟨.inl, ?_⟩⟩
        rintro (hk | ⟨-, hflag'⟩)
        · exact hk
        · exact absurd hflag' hflag
    obtain ⟨hok, hhas⟩ := hcond false h
    obtain ⟨hok', hhas'⟩ := hcond true hok
    refine ⟨hok', fun k => (hhas' k).trans ?_⟩
    rw [hhas k, or_assoc]
    obtain ⟨x, b⟩ := k
    refine or_congr_right ?_
    have hpair : ∀ b, Pair entries root b e.2 e.1 ↔ (simulateRoot e.1.events root .dangling).flag b = true :=
      fun _ => and_iff_right hother
    cases b with
    | false => simp [hpair, eq_comm (a := root)]
    | true => simp [hpair, eq_comm (a := root)]

/-- **All entries**, in one candidate. -/
theorem visitRoot_spec {entries : List Thread} {s : Found} (h : s.Ok) (root : String) :
    (visitRoot entries s root).Ok ∧ ∀ k, (visitRoot entries s root).Has k ↔
      s.Has k ∨ k.1 = root ∧ ∃ e ∈ entries.zipIdx, Pair entries root k.2 e.2 e.1 := by
  have hfold : ∀ (rest : List (Thread × Nat)) {s : Found}, s.Ok →
      (rest.foldl (visitEntry entries root) s).Ok ∧ ∀ k, (rest.foldl (visitEntry entries root) s).Has k ↔
        s.Has k ∨ k.1 = root ∧ ∃ e ∈ rest, Pair entries root k.2 e.2 e.1 := by
    intro rest
    induction rest with
    | nil => exact fun hs => ⟨hs, fun k => by simp⟩
    | cons e rest ih =>
      intro s hs
      obtain ⟨hok, hhas⟩ := visitEntry_spec hs e
      obtain ⟨hok', hhas'⟩ := ih hok
      refine ⟨hok', fun k => (hhas' k).trans ?_⟩
      rw [hhas k, or_assoc, ← and_or_left, List.exists_mem_cons_iff]
  unfold visitRoot
  split
  · next hempty =>
    refine ⟨h, fun k => ⟨.inl, ?_⟩⟩
    rintro (hk | ⟨-, e, -, ⟨f, hf, -⟩, -⟩)
    · exact hk
    · rw [List.isEmpty_iff.mp hempty] at hf
      exact absurd hf List.not_mem_nil
  · exact hfold entries.zipIdx h

/-- **All candidates.** -/
theorem mem_findCrossEntryUaf {entries : List Thread} {k : String × Bool} :
    (∃ w ∈ findCrossEntryUaf entries, w.key = k) ↔
      k.1 ∈ roots entries ∧ ∃ e ∈ entries.zipIdx, Pair entries k.1 k.2 e.2 e.1 := by
  have hfold : ∀ (rest : List String) {s : Found}, s.Ok →
      (rest.foldl (visitRoot entries) s).Ok ∧ ((rest.foldl (visitRoot entries) s).Has k ↔
        s.Has k ∨ k.1 ∈ rest ∧ ∃ e ∈ entries.zipIdx, Pair entries k.1 k.2 e.2 e.1) := by
    intro rest
    induction rest with
    | nil => exact fun hs => ⟨hs, by simp⟩
    | cons root rest ih =>
      intro s hs
      obtain ⟨hok, hhas⟩ := visitRoot_spec hs root
      obtain ⟨hok', hhas'⟩ := ih hok
      refine ⟨hok', hhas'.trans ?_⟩
      rw [hhas k, or_assoc, List.mem_cons, or_and_right]
      refine or_congr_right (or_congr_left ⟨?_, ?_⟩)
      · rintro ⟨rfl, hex⟩
        exact ⟨rfl, hex⟩
      · rintro ⟨hk, hex⟩
        exact ⟨hk, hk ▸ hex⟩
  have hstart : (Found.mk [] []).Ok := by
    intro k
    simp [Found.Has]
  obtain ⟨-, hhas⟩ := hfold (roots entries) hstart
  rw [findCrossEntryUaf]
  simp only [List.mem_mergeSort]
  refine hhas.trans ⟨?_, .inr⟩
  rintro (⟨w, hw, -⟩ | hex)
  · exact absurd hw List.not_mem_nil
  · exact hex

theorem mem_roots {entries : List Thread} {root : String} (hroot : isGlobalRooted root = true) {t : Thread}
    (ht : t ∈ entries) (hfrees : Frees root t) : root ∈ roots entries := by
  obtain ⟨e, he, heff⟩ := hfrees
  have hclass : e.rootClass = some root := by
    cases e <;> simp_all [rootEffect, Event.rootClass] <;> grind
  rw [roots, List.mem_mergeSort, List.mem_dedup, List.mem_flatMap]
  exact ⟨t, ht, List.mem_filter.mpr ⟨List.mem_filterMap.mpr ⟨e, he, hclass⟩, hroot⟩⟩

end Interleave

end Csolver
