import Csolver.Interleave.Lifetime

/-!
# Unordered pairs of events (`interleave/aba.rs`)

A compare-and-swap that another thread's change of the location may come before or after, and a get of a reference
next to a put of it. The two searches differ in the events they pair.
-/

namespace Csolver

namespace Interleave

/-- `AbaWitness` and `RefcountRaceWitness`. -/
structure PairWitness where
  location : String
  threads : String × String

def Event.casClass : Event → Option String
  | .cas x => some x
  | _ => none

def Event.modClass : Event → Option String
  | .write x | .rmw x | .free x => some x
  | _ => none

def Event.refGetClass : Event → Option String
  | .refGet x => some x
  | _ => none

def Event.refPutClass : Event → Option String
  | .refPut x => some x
  | _ => none

/-- The records of a thread for the two sides of a pair. -/
abbrev Sides := Thread → List Record × List Record

def sides (first second : Event → Option String) : Sides := fun t =>
  (locksets first .new t.events, locksets second .new t.events)

def casAndModLocksets : Sides := sides Event.casClass Event.modClass

def getAndPutLocksets : Sides := sides Event.refGetClass Event.refPutClass

/-- `check`: the pairs of a first event of one thread and a second one of another. -/
def check (pa : List Record × List Record) (na : String) (pb : List Record × List Record) (nb : String) :
    List PairWitness :=
  pa.1.flatMap fun c => (pb.2.filter fun m => unordered c na m nb).map fun _ => ⟨c.cls, (na, nb)⟩

/-- All pairs of two threads, and then those of two instances of a spawned function. -/
def checkAll (per : Sides) (threads : List Thread) : List PairWitness :=
  (threads.zipIdx.flatMap fun (t, i) => threads.zipIdx.flatMap fun (u, j) =>
    if i = j then [] else check (per t) t.name (per u) u.name) ++
  threads.flatMap fun t =>
    if (per t).1.isEmpty || !decide (t.name ∈ spawnedNames threads) then []
    else check (per t) t.name (per t) (t.name ++ "#2")

/-- The first witness for each location. -/
def firstOfLocation : List String → List PairWitness → List PairWitness
  | _, [] => []
  | seen, w :: rest =>
    if w.location ∈ seen then firstOfLocation seen rest else w :: firstOfLocation (w.location :: seen) rest

def findPairs (per : Sides) (threads : List Thread) : List PairWitness :=
  (firstOfLocation [] (checkAll per threads)).mergeSort fun a b => decide (a.location ≤ b.location)

def findAba : List Thread → List PairWitness := findPairs casAndModLocksets

def findRefcountRaces : List Thread → List PairWitness := findPairs getAndPutLocksets

/-! ## What is reported -/

section

variable {per : Sides} {threads : List Thread} {w : PairWitness} {ws : List PairWitness} {seen : List String}

/-- The two events of a witness are events of two threads, or of two instances of a thread that is spawned. -/
inductive Pairs (per : Sides) (threads : List Thread) : PairWitness → Prop where
  | threads {i j : Nat} {t u : Thread} {a b : Record} : i ≠ j → threads[i]? = some t → threads[j]? = some u →
      a ∈ (per t).1 → b ∈ (per u).2 → unordered a t.name b u.name = true → Pairs per threads ⟨a.cls, (t.name, u.name)⟩
  | spawned {t : Thread} {a b : Record} : t ∈ threads → t.name ∈ spawnedNames threads →
      a ∈ (per t).1 → b ∈ (per t).2 → unordered a t.name b (t.name ++ "#2") = true →
      Pairs per threads ⟨a.cls, (t.name, t.name ++ "#2")⟩

theorem mem_check {pa pb : List Record × List Record} {na nb : String} :
    w ∈ check pa na pb nb ↔ ∃ a ∈ pa.1, ∃ b ∈ pb.2, unordered a na b nb = true ∧ w = ⟨a.cls, (na, nb)⟩ := by
  simp only [check, List.mem_flatMap, List.mem_map, List.mem_filter, and_assoc, eq_comm]

theorem mem_checkAll : w ∈ checkAll per threads ↔ Pairs per threads w := by
  rw [checkAll, List.mem_append]
  constructor
  · rintro (h | h)
    · obtain ⟨⟨t, i⟩, ht, h⟩ := List.mem_flatMap.mp h
      obtain ⟨⟨u, j⟩, hu, h⟩ := List.mem_flatMap.mp h
      by_cases hij : i = j
      · simp [hij] at h
      · simp only [hij, if_false] at h
        obtain ⟨a, ha, b, hb, hab, rfl⟩ := mem_check.mp h
        exact .threads hij (List.mem_zipIdx_iff_getElem?.mp ht) (List.mem_zipIdx_iff_getElem?.mp hu) ha hb hab
    · obtain ⟨t, ht, h⟩ := List.mem_flatMap.mp h
      split at h
      · exact absurd h List.not_mem_nil
      · next hcond =>
        simp only [Bool.or_eq_true, Bool.not_eq_true', decide_eq_false_iff_not, not_or, not_not] at hcond
        obtain ⟨a, ha, b, hb, hab, rfl⟩ := mem_check.mp h
        exact .spawned ht hcond.2 ha hb hab
  · rintro (⟨hij, ht, hu, ha, hb, hab⟩ | ⟨ht, hspawned, ha, hb, hab⟩)
    · refine .inl (List.mem_flatMap.mpr ⟨(_, _), List.mem_zipIdx_iff_getElem?.mpr ht, List.mem_flatMap.mpr
        ⟨(_, _), List.mem_zipIdx_iff_getElem?.mpr hu, ?_⟩⟩)
      simp only [hij, if_false]
      exact mem_check.mpr ⟨_, ha, _, hb, hab, rfl⟩
    · refine .inr (List.mem_flatMap.mpr ⟨_, ht, ?_⟩)
      rw [if_neg (by simp [hspawned, List.ne_nil_of_mem ha])]
      exact mem_check.mpr ⟨_, ha, _, hb, hab, rfl⟩

theorem firstOfLocation_sublist : (firstOfLocation seen ws).Sublist ws := by
  induction ws generalizing seen with
  | nil => exact .slnil
  | cons v ws ih =>
    rw [firstOfLocation]
    split
    · exact ih.cons v
    · exact ih.cons_cons v

theorem firstOfLocation_locations : ((firstOfLocation seen ws).map (·.location)).Nodup ∧
    ∀ x, x ∈ (firstOfLocation seen ws).map (·.location) ↔ x ∉ seen ∧ x ∈ ws.map (·.location) := by
  induction ws generalizing seen with
  | nil => exact ⟨.nil, fun x => by simp [firstOfLocation]⟩
  | cons v ws ih =>
    rw [firstOfLocation]
    split
    · next hseen =>
      refine ⟨ih.1, fun x => ?_⟩
      rw [ih.2, List.map_cons, List.mem_cons]
      refine and_congr_right fun hx => ⟨.inr, fun h => h.resolve_left ?_⟩
      rintro rfl
      exact hx hseen
    · next hseen =>
      obtain ⟨hnodup, hmem⟩ := @ih (v.location :: seen)
      refine ⟨List.nodup_cons.mpr ⟨fun h => ((hmem _).mp h).1 List.mem_cons_self, hnodup⟩, fun x => ?_⟩
      rw [List.map_cons, List.mem_cons, hmem, List.map_cons, List.mem_cons, List.mem_cons]
      by_cases hx : x = v.location
      · simp [hx, hseen]
      · simp [hx]

theorem mem_findPairs : w ∈ findPairs per threads ↔ w ∈ firstOfLocation [] (checkAll per threads) := List.mem_mergeSort

theorem Pairs.reported (h : Pairs per threads w) : ∃ v ∈ findPairs per threads, v.location = w.location := by
  have hx := (firstOfLocation_locations.2 w.location).mpr
    ⟨List.not_mem_nil, List.mem_map_of_mem (mem_checkAll.mpr h)⟩
  obtain ⟨v, hv, hloc⟩ := List.mem_map.mp hx
  exact ⟨v, mem_findPairs.mpr hv, hloc⟩

/-- Two events of an execution that make a pair: of two threads, under disjoint locks, and nothing orders them. -/
def PairOccurs (st : List Instance) (first second : Event → Option String) (t u : Thread) (x : String) : Prop :=
  ∃ (p q m k : Nat) (a b : Record) (e e' : Event), Happened st p m t a ∧ Happened st q k u b ∧ p ≠ q ∧
    t.events[m]? = some e ∧ u.events[k]? = some e' ∧ first e = some x ∧ second e' = some x ∧ a.cls = x ∧ b.cls = x ∧
    Disjoint a.lockset b.lockset ∧ ¬HappensBefore st (p, m) (q, k) ∧ ¬HappensBefore st (q, k) (p, m)

theorem PairOccurs.pairs {st : List Instance} (h : Reach threads OwnJoins st) {first second : Event → Option String}
    {t u : Thread} (ht : t ∈ threads) (hu : u ∈ threads) (hne : t ≠ u) {x : String}
    (hpair : PairOccurs st first second t u x) :
    Pairs (sides first second) threads ⟨x, (t.name, u.name)⟩ := by
  obtain ⟨p, q, m, k, a, b, e, e', ha, hb, hpq, he, he', hfirst, hsecond, rfl, hcls, hdisjoint, hno, hno'⟩ := hpair
  have hunordered : unordered a t.name b u.name = true := by
    have hlifetime : lifetimeOrdered a t.name b u.name = false := by
      by_contra hordered
      exact (lifetimeOrdered_happensBefore h hpq ha hb (by simpa using hordered)).elim hno hno'
    rw [unordered, hlifetime, hcls, decide_eq_true hdisjoint]
    simp
  obtain ⟨i, hi⟩ := List.mem_iff_getElem?.mp ht
  obtain ⟨j, hj⟩ := List.mem_iff_getElem?.mp hu
  have hij : i ≠ j := by
    rintro rfl
    exact hne (Option.some.inj (hi.symm.trans hj))
  exact .threads hij hi hj (ha.mem_locksets he hfirst) (hb.mem_locksets he' (hcls ▸ hsecond)) hunordered

end

def swapper : Thread := ⟨"main", [.spawn "w", .cas "x"]⟩

def changer : Thread := ⟨"w", [.write "x"]⟩

def swapped : List Instance := [⟨swapper, 2, none, none⟩, ⟨changer, 1, some (0, 0), none⟩]

theorem HappensBefore.rank {f : Nat × Nat → Nat} (hprogram : ∀ p k k', k < k' → f (p, k) < f (p, k'))
    (hspawn : ∀ m, f (0, 0) < f (1, m)) {x y : Nat × Nat} (h : HappensBefore swapped x y) : f x < f y := by
  induction h with
  | program hk => exact hprogram _ _ _ hk
  | @spawn p k q m c hc hparent =>
    rcases q with _ | _ | q <;> cases hc <;> cases hparent
    exact hspawn m
  | @join p k q m k' c hc hparent hjoined => rcases q with _ | _ | q <;> cases hc <;> cases hjoined
  | trans _ _ ih ih' => exact ih.trans ih'

end Interleave

end Csolver
