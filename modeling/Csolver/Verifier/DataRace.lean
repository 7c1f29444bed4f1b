import Csolver.Interleave.Event
import Csolver.Lib.Locked
import Mathlib.Data.Finset.Sort
import Mathlib.Data.List.AList
import Mathlib.Data.String.Basic

/-!
# Candidate data races (`crates/verifier/src/datarace.rs`)

For each location the locks that every access holds. A location is reported if it is written, some access holds a
lock and none is held by all, or if interrupts are off for some accesses only.
-/

namespace Csolver

namespace DataRace

/-- `DataRace`. -/
structure Race where
  location : String
  functions : List String
  irqUnsafe : Bool
  deriving DecidableEq

def irqoff : String := "@irqoff"

structure TaggedAccess where
  function : String
  location : String
  write : Bool
  lockset : List String

structure Loc where
  candidate : Option (Finset String)
  hasWrite : Bool
  anyLocked : Bool
  irqInUnion : Bool
  functions : Finset String

def Loc.new : Loc := ⟨none, false, false, false, ∅⟩

/-- The body of the loop over the accesses. -/
def Loc.fold (loc : Loc) (a : TaggedAccess) : Loc where
  candidate := some (match loc.candidate with
    | none => a.lockset.toFinset
    | some cur => cur ∩ a.lockset.toFinset)
  hasWrite := loc.hasWrite || a.write
  anyLocked := loc.anyLocked || !decide (a.lockset.toFinset = ∅)
  irqInUnion := loc.irqInUnion || decide (irqoff ∈ a.lockset.toFinset)
  functions := insert a.function loc.functions

/-- Without the oracle every access takes part. -/
def participates (concurrent : Option (Finset String)) (a : TaggedAccess) : Bool :=
  concurrent.all fun set => decide (a.function ∈ set)

abbrev Locs := AList fun _ : String => Loc

def addAccess (locs : Locs) (a : TaggedAccess) : Locs :=
  locs.insert a.location (((locs.lookup a.location).getD .new).fold a)

def locs (concurrent : Option (Finset String)) (accesses : List TaggedAccess) : Locs :=
  (accesses.filter (participates concurrent)).foldl addAccess ∅

def minFns (concurrent : Option (Finset String)) : Nat := if concurrent.isSome then 1 else 2

def Loc.race (concurrent : Option (Finset String)) (location : String) (loc : Loc) : Option Race :=
  let candidate := loc.candidate.getD ∅
  let eraser := decide (candidate = ∅) && loc.anyLocked
  let irqUnsafe := loc.irqInUnion && !decide (irqoff ∈ candidate)
  if (eraser || irqUnsafe) && loc.hasWrite && decide (minFns concurrent ≤ loc.functions.card) then
    some ⟨location, loc.functions.sort, irqUnsafe && !eraser⟩
  else none

/-- The order of the report: most functions first, then by location. -/
def Race.before (a b : Race) : Bool :=
  decide (b.functions.length < a.functions.length) ||
    decide (a.functions.length = b.functions.length) && decide (a.location ≤ b.location)

def detectRaces (accesses : List TaggedAccess) (concurrent : Option (Finset String)) : List Race :=
  ((locs concurrent accesses).entries.filterMap fun e => e.2.race concurrent e.1).mergeSort Race.before

/-! ## What is reported -/

/-- The accesses to a location that take part. -/
def accessesAt (concurrent : Option (Finset String)) (accesses : List TaggedAccess) (x : String) : List TaggedAccess :=
  (accesses.filter (participates concurrent)).filter fun a => decide (a.location = x)

/-- Some access holds a lock, and no lock is held at all of them. -/
def Unprotected (as : List TaggedAccess) : Prop :=
  (∃ a ∈ as, a.lockset ≠ []) ∧ ∀ l, ∃ a ∈ as, l ∉ a.lockset

/-- Interrupts are off for some accesses, and not for all. -/
def IrqUnsafe (as : List TaggedAccess) : Prop :=
  (∃ a ∈ as, irqoff ∈ a.lockset) ∧ ∃ a ∈ as, irqoff ∉ a.lockset

/-- What a reported race says about the accesses to its location. -/
structure Racy (concurrent : Option (Finset String)) (as : List TaggedAccess) (r : Race) : Prop where
  written : ∃ a ∈ as, a.write = true
  enough : minFns concurrent ≤ (as.map (·.function)).toFinset.card
  functions : r.functions = (as.map (·.function)).toFinset.sort
  inconsistent : Unprotected as ∨ IrqUnsafe as
  irq : r.irqUnsafe = true ↔ IrqUnsafe as ∧ ¬Unprotected as

section

variable {concurrent : Option (Finset String)} {accesses as : List TaggedAccess}

/-- What is kept for a location describes its accesses. -/
structure Loc.Describes (loc : Loc) (as : List TaggedAccess) : Prop where
  candidate : ∀ l, l ∈ loc.candidate.getD ∅ ↔ as ≠ [] ∧ ∀ a ∈ as, l ∈ a.lockset
  isSome : loc.candidate.isSome = true ↔ as ≠ []
  hasWrite : loc.hasWrite = true ↔ ∃ a ∈ as, a.write = true
  anyLocked : loc.anyLocked = true ↔ ∃ a ∈ as, a.lockset ≠ []
  irqInUnion : loc.irqInUnion = true ↔ ∃ a ∈ as, irqoff ∈ a.lockset
  functions : loc.functions = (as.map (·.function)).toFinset

theorem Loc.Describes.new : Loc.new.Describes [] where
  candidate := by simp [Loc.new]
  isSome := by simp [Loc.new]
  hasWrite := by simp [Loc.new]
  anyLocked := by simp [Loc.new]
  irqInUnion := by simp [Loc.new]
  functions := rfl

theorem Loc.Describes.fold {loc : Loc} (h : loc.Describes as) (a : TaggedAccess) :
    (loc.fold a).Describes (as ++ [a]) where
  candidate l := by
    have hold := h.candidate l
    have hsome := h.isSome
    cases hc : loc.candidate with
    | none =>
      rw [hc] at hsome
      obtain rfl : as = [] := by simpa using hsome
      simp [Loc.fold, hc]
    | some cur =>
      rw [hc] at hold hsome
      have hne : as ≠ [] := hsome.mp rfl
      simp only [Option.getD_some] at hold
      simp only [Loc.fold, hc, Option.getD_some, Finset.mem_inter, hold, List.mem_toFinset, List.mem_append,
        List.mem_singleton]
      constructor
      · rintro ⟨⟨-, hall⟩, ha⟩
        refine ⟨by simp, ?_⟩
        rintro b (hb | rfl)
        · exact hall b hb
        · exact ha
      · rintro ⟨-, hall⟩
        exact ⟨⟨hne, fun b hb => hall b (.inl hb)⟩, hall a (.inr rfl)⟩
  isSome := by simp [Loc.fold]
  hasWrite := by simp [Loc.fold, h.hasWrite, or_and_right, exists_or]
  anyLocked := by simp [Loc.fold, h.anyLocked, or_and_right, exists_or]
  irqInUnion := by simp [Loc.fold, h.irqInUnion, or_and_right, exists_or]
  functions := by
    simp only [Loc.fold, h.functions, List.map_append, List.map_cons, List.map_nil, List.toFinset_append]
    rw [Finset.union_comm]
    rfl

theorem lookup_addAccess (l : List TaggedAccess) (x : String) :
    (∀ loc, (l.foldl addAccess ∅).lookup x = some loc → loc.Describes (l.filter fun a => decide (a.location = x))) ∧
    ((l.foldl addAccess ∅).lookup x = none → l.filter (fun a => decide (a.location = x)) = []) := by
  induction l using List.reverseRecOn with
  | nil => exact ⟨fun loc h => absurd h (by simp), fun _ => rfl⟩
  | append_singleton l a ih =>
    rw [List.foldl_concat, addAccess, List.filter_append]
    by_cases hx : a.location = x
    · subst hx
      rw [AList.lookup_insert]
      refine ⟨fun loc h => ?_, fun h => absurd h (by simp)⟩
      rw [← Option.some.inj h]
      have hone : [a].filter (fun b => decide (b.location = a.location)) = [a] := by simp
      rw [hone]
      cases hlook : (l.foldl addAccess ∅).lookup a.location with
      | none =>
        rw [ih.2 hlook]
        exact Loc.Describes.new.fold a
      | some loc' => exact (ih.1 loc' hlook).fold a
    · rw [AList.lookup_insert_ne (Ne.symm hx)]
      have hnone : [a].filter (fun b => decide (b.location = x)) = [] := by simp [hx]
      rw [hnone, List.append_nil]
      exact ih

theorem race_eq_some {loc : Loc} (h : loc.Describes as) {x : String} {r : Race} :
    loc.race concurrent x = some r ↔ r.location = x ∧ Racy concurrent as r := by
  have hirq : (loc.irqInUnion && !decide (irqoff ∈ loc.candidate.getD ∅)) = true ↔ IrqUnsafe as := by
    rw [Bool.and_eq_true, h.irqInUnion, Bool.not_eq_true', decide_eq_false_iff_not, h.candidate]
    refine and_congr_right fun ⟨a, ha, _⟩ => ?_
    have hne : as ≠ [] := List.ne_nil_of_mem ha
    simp [hne]
  have heraser : (decide (loc.candidate.getD ∅ = ∅) && loc.anyLocked) = true ↔ Unprotected as := by
    rw [Bool.and_eq_true, h.anyLocked, decide_eq_true_eq, Finset.eq_empty_iff_forall_notMem, and_comm]
    refine and_congr_right fun ⟨a, ha, _⟩ => forall_congr' fun l => ?_
    have hne : as ≠ [] := List.ne_nil_of_mem ha
    simp [h.candidate, hne]
  rw [Loc.race]
  simp only [Option.ite_none_right_eq_some, Bool.and_eq_true, decide_eq_true_eq, Option.some.injEq]
  rw [Bool.or_eq_true, hirq, heraser, h.hasWrite, h.functions]
  constructor
  · rintro ⟨⟨⟨hinc, hwrite⟩, hmin⟩, rfl⟩
    refine ⟨rfl, hwrite, hmin, rfl, hinc, ?_⟩
    rw [Bool.and_eq_true, hirq, Bool.not_eq_true', ← Bool.not_eq_true, heraser]
  · rintro ⟨rfl, hr⟩
    refine ⟨⟨⟨hr.inconsistent, hr.written⟩, hr.enough⟩, ?_⟩
    obtain ⟨x, fs, irq⟩ := r
    simp only [Race.mk.injEq, true_and]
    refine ⟨hr.functions.symm, Bool.eq_iff_iff.mpr ?_⟩
    rw [hr.irq, Bool.and_eq_true, hirq, Bool.not_eq_true', ← Bool.not_eq_true, heraser]

theorem mem_detectRaces {r : Race} :
    r ∈ detectRaces accesses concurrent ↔ Racy concurrent (accessesAt concurrent accesses r.location) r := by
  rw [detectRaces, List.mem_mergeSort, List.mem_filterMap]
  have htable := lookup_addAccess (accesses.filter (participates concurrent))
  constructor
  · rintro ⟨⟨x, loc⟩, hmem, hrace⟩
    obtain ⟨rfl, hracy⟩ := (race_eq_some ((htable x).1 loc (AList.mem_lookup_iff.mpr hmem))).mp hrace
    exact hracy
  · intro hracy
    cases hlook : (locs concurrent accesses).lookup r.location with
    | none =>
      obtain ⟨a, ha, -⟩ := hracy.written
      rw [accessesAt, (htable r.location).2 hlook] at ha
      exact absurd ha List.not_mem_nil
    | some loc =>
      exact ⟨⟨r.location, loc⟩, AList.mem_lookup_iff.mp hlook, (race_eq_some ((htable _).1 loc hlook)).mpr ⟨rfl, hracy⟩⟩

theorem detectRaces_ordered : (detectRaces accesses concurrent).Pairwise fun a b => a.before b = true := by
  refine List.pairwise_mergeSort (fun a b c hab hbc => ?_) (fun a b => ?_) _
  · simp only [Race.before, Bool.or_eq_true, Bool.and_eq_true, decide_eq_true_eq] at hab hbc ⊢
    rcases hab with hab | ⟨hab, hxab⟩ <;> rcases hbc with hbc | ⟨hbc, hxbc⟩
    · exact .inl (by omega)
    · exact .inl (by omega)
    · exact .inl (by omega)
    · exact .inr ⟨by omega, hxab.trans hxbc⟩
  · simp only [Race.before, Bool.or_eq_true, Bool.and_eq_true, decide_eq_true_eq]
    rcases Nat.lt_trichotomy a.functions.length b.functions.length with h | h | h
    · exact .inr (.inl h)
    · rcases le_total a.location b.location with hx | hx
      · exact .inl (.inr ⟨h, hx⟩)
      · exact .inr (.inr ⟨h.symm, hx⟩)
    · exact .inl (.inl h)

theorem detectRaces_nodup : ((detectRaces accesses concurrent).map (·.location)).Nodup := by
  have hperm := (List.mergeSort_perm ((locs concurrent accesses).entries.filterMap fun e => e.2.race concurrent e.1)
    Race.before).map (·.location)
  refine hperm.nodup_iff.mpr ?_
  -- the races are in the order of the keys, some of them left out
  have hsub : ∀ entries : List (Sigma fun _ : String => Loc),
      ((entries.filterMap fun e => e.2.race concurrent e.1).map (·.location)).Sublist (entries.map Sigma.fst) := by
    intro entries
    induction entries with
    | nil => exact .slnil
    | cons e entries ih =>
      cases hrace : e.2.race concurrent e.1 with
      | none =>
        simp only [List.filterMap_cons, hrace, List.map_cons]
        exact .cons _ ih
      | some r =>
        have hloc : r.location = e.1 := by
          rw [Loc.race] at hrace
          simp only [Option.ite_none_right_eq_some, Option.some.injEq] at hrace
          rw [← hrace.2]
        simp only [List.filterMap_cons, hrace, List.map_cons, hloc]
        exact ih.cons_cons _
  exact (hsub _).nodup (locs concurrent accesses).nodupKeys

theorem Racy.congr {as' : List TaggedAccess} {r : Race} (h : Racy concurrent as r) (hmem : ∀ a, a ∈ as ↔ a ∈ as') :
    Racy concurrent as' r := by
  have hfns : (as.map (·.function)).toFinset = (as'.map (·.function)).toFinset := by
    ext f
    simp [hmem]
  exact
    { written := by simpa only [hmem] using h.written
      enough := hfns ▸ h.enough
      functions := hfns ▸ h.functions
      inconsistent := by simpa only [Unprotected, IrqUnsafe, hmem] using h.inconsistent
      irq := by simpa only [Unprotected, IrqUnsafe, hmem] using h.irq }

/-- **What is reported.** A location once, when the accesses that take part are inconsistent, with all its functions;
the report does not depend on the order of the accesses. -/
theorem detectRaces_exact (accesses : List TaggedAccess) (concurrent : Option (Finset String)) :
    (∀ r, r ∈ detectRaces accesses concurrent ↔ Racy concurrent (accessesAt concurrent accesses r.location) r) ∧
    ((detectRaces accesses concurrent).map (·.location)).Nodup ∧
    ∀ accesses', accesses.Perm accesses' → detectRaces accesses concurrent = detectRaces accesses' concurrent := by
  refine ⟨fun r => mem_detectRaces, detectRaces_nodup, fun accesses' hperm => ?_⟩
  have hsame : ∀ r, r ∈ detectRaces accesses concurrent ↔ r ∈ detectRaces accesses' concurrent := by
    intro r
    have hmem : ∀ a, a ∈ accessesAt concurrent accesses r.location ↔ a ∈ accessesAt concurrent accesses' r.location :=
      fun a => ((hperm.filter _).filter _).mem_iff
    rw [mem_detectRaces, mem_detectRaces]
    exact ⟨fun h => h.congr hmem, fun h => h.congr fun a => (hmem a).symm⟩
  refine List.Perm.eq_of_pairwise (fun a b ha hb hab hba => ?_) detectRaces_ordered detectRaces_ordered
    ((List.perm_ext_iff_of_nodup (.of_map _ detectRaces_nodup) (.of_map _ detectRaces_nodup)).mpr hsame)
  -- neither is before the other: one location
  simp only [Race.before, Bool.or_eq_true, Bool.and_eq_true, decide_eq_true_eq] at hab hba
  have hloc : a.location = b.location := by
    rcases hab with hab | ⟨hl, hab⟩ <;> rcases hba with hba | ⟨hl', hba⟩
    · omega
    · omega
    · omega
    · exact le_antisymm hab hba
  exact List.inj_on_of_nodup_map detectRaces_nodup ha ((hsame b).mpr hb) hloc

end

/-! ## What a silent location means -/

open Interleave

/-- The location that an event accesses, and whether it writes it. -/
def access (e : Event) : Option (String × Bool) :=
  match e.writes with
  | some x => some (x, true)
  | none => e.reads.map (·, false)

/-- Locks exclude other threads; interrupts that are off do not. -/
def locking : Lib.Locking Event String where
  acquires
    | .acquire l => some l
    | _ => none
  releases
    | .release l => some l
    | _ => none
  Excludes l := l ≠ irqoff

/-- The accesses of a trace are on record, under locks that are held. -/
def Recorded (accesses : List TaggedAccess) (t : Thread) : Prop :=
  ∀ i e x w, t.events[i]? = some e → access e = some (x, w) →
    ∃ a ∈ accesses, a.function = t.name ∧ a.location = x ∧ (w = true → a.write = true) ∧
      ∀ l ∈ a.lockset, l ∈ locking.held (t.events.take i)

theorem common_lock {accesses : List TaggedAccess} {concurrent : Finset String} {x : String}
    (hguarded : ∃ a ∈ accessesAt (some concurrent) accesses x, a.lockset ≠ [])
    (hsilent : ∀ r ∈ detectRaces accesses (some concurrent), r.location ≠ x)
    (hwritten : ∃ a ∈ accessesAt (some concurrent) accesses x, a.write = true) :
    ∃ l, ∀ a ∈ accessesAt (some concurrent) accesses x, l ∈ a.lockset := by
  classical
  by_contra hno
  simp only [not_exists, not_forall] at hno
  have hunprotected : Unprotected (accessesAt (some concurrent) accesses x) :=
    ⟨hguarded, fun l => (hno l).imp fun a ⟨ha, hl⟩ => ⟨ha, hl⟩⟩
  obtain ⟨a, ha, -⟩ := hguarded
  let r : Race := ⟨x, ((accessesAt (some concurrent) accesses x).map (·.function)).toFinset.sort, false⟩
  have hracy : Racy (some concurrent) (accessesAt (some concurrent) accesses x) r :=
    { written := hwritten
      enough := Finset.card_pos.mpr ⟨a.function, List.mem_toFinset.mpr (List.mem_map_of_mem ha)⟩
      functions := rfl
      inconsistent := .inl hunprotected
      irq := by simp [r, hunprotected] }
  exact hsilent r (mem_detectRaces.mpr hracy) rfl

/-- **Silence is safety.** Any number of concurrent threads, several of one function among them, run with exclusive
locks. Where a location that is guarded somewhere is not reported, two threads are never at accesses of it with a
write, unless turning interrupts off is all that its accesses have in common. -/
theorem detectRaces_excludes {T : Type} [DecidableEq T] {threads : T → Thread} {accesses : List TaggedAccess}
    {concurrent : Finset String} (hrecorded : ∀ t, Recorded accesses (threads t))
    (hconcurrent : ∀ t, (threads t).name ∈ concurrent) {done : T → Nat}
    (h : locking.Reach (fun t => (threads t).events) done) {x : String}
    (hguarded : ∃ a ∈ accessesAt (some concurrent) accesses x, a.lockset ≠ [])
    (hsilent : ∀ r ∈ detectRaces accesses (some concurrent), r.location ≠ x)
    {t u : T} (htu : t ≠ u) {e e' : Event} {w w' : Bool}
    (het : (threads t).events[done t]? = some e) (ht : access e = some (x, w))
    (heu : (threads u).events[done u]? = some e') (hu : access e' = some (x, w')) (hw : w = true ∨ w' = true) :
    ∀ l, (∀ a ∈ accessesAt (some concurrent) accesses x, l ∈ a.lockset) ↔ l = irqoff := by
  have hat : ∀ v e w, (threads v).events[done v]? = some e → access e = some (x, w) →
      ∃ a ∈ accessesAt (some concurrent) accesses x, (w = true → a.write = true) ∧
        ∀ l ∈ a.lockset, l ∈ locking.heldAt (fun t => (threads t).events) v (done v) := by
    intro v e w hev hacc
    obtain ⟨a, ha, hfn, hloc, hwr, hheld⟩ := hrecorded v (done v) e x w hev hacc
    refine ⟨a, List.mem_filter.mpr ⟨List.mem_filter.mpr ⟨ha, ?_⟩, by simpa using hloc⟩, hwr, hheld⟩
    simpa [participates, hfn] using hconcurrent v
  obtain ⟨a, ha, hwa, hla⟩ := hat t e w het ht
  obtain ⟨b, hb, hwb, hlb⟩ := hat u e' w' heu hu
  -- a common lock that excludes would be with both threads
  have honly : ∀ l, (∀ a ∈ accessesAt (some concurrent) accesses x, l ∈ a.lockset) → l = irqoff := by
    intro l hl
    by_contra hne
    exact h.exclusive t u htu l hne (hla l (hl a ha)) (hlb l (hl b hb))
  have hwritten : ∃ a ∈ accessesAt (some concurrent) accesses x, a.write = true :=
    hw.elim (fun hw => ⟨a, ha, hwa hw⟩) fun hw => ⟨b, hb, hwb hw⟩
  obtain ⟨l, hl⟩ := common_lock hguarded hsilent hwritten
  refine fun l' => ⟨honly l', ?_⟩
  rintro rfl
  exact honly l hl ▸ hl

/-- A handler that writes with interrupts off. -/
def irqHandler : Thread := ⟨"irq", [.acquire irqoff, .write "x"]⟩

def irqAccess : TaggedAccess := ⟨"irq", "x", true, [irqoff]⟩

/-- Two runs of the handler are both at the write: they have nothing but `irqoff` in common. -/
theorem detectRaces_excludes_irq :
    (∀ a ∈ accessesAt (some {"irq"}) [irqAccess] "x", irqoff ∈ a.lockset) ∧
      ¬∀ a ∈ accessesAt (some {"irq"}) [irqAccess] "x", "m" ∈ a.lockset := by
  have hrecorded : Recorded [irqAccess] irqHandler := by
    intro i e x w he hacc
    rcases i with _ | _ | i
    · obtain rfl := Option.some.inj he
      exact absurd hacc (by simp [access, Event.writes, Event.reads])
    · obtain rfl := Option.some.inj he
      obtain ⟨rfl, rfl⟩ := Prod.mk.inj (Option.some.inj hacc)
      exact ⟨irqAccess, by simp, rfl, rfl, fun _ => rfl, by decide⟩
    · exact absurd he (by simp [irqHandler])
  have hsilent : ∀ r ∈ detectRaces [irqAccess] (some {"irq"}), r.location ≠ "x" := by
    intro r hr hx
    have hat : accessesAt (some {"irq"}) [irqAccess] r.location = [irqAccess] := by
      rw [hx]
      rfl
    have hinconsistent := hat ▸ (mem_detectRaces.mp hr).inconsistent
    simp [Unprotected, IrqUnsafe, irqAccess] at hinconsistent
  have hrun : locking.Reach (fun _ : Bool => irqHandler.events)
      (Function.update (Function.update (fun _ => 0) false 1) true 1) := by
    refine @Lib.Locking.Reach.step _ _ _ _ _ _ _ _ true (.acquire irqoff) (.step .start rfl ?_) rfl ?_
    · exact fun l hl hex => absurd (Option.some.inj hl).symm hex
    · exact fun l hl hex => absurd (Option.some.inj hl).symm hex
  have honly := detectRaces_excludes (fun _ : Bool => hrecorded) (fun _ => by decide) hrun
    (by decide) hsilent Bool.false_ne_true rfl rfl rfl rfl (.inl rfl)
  exact ⟨(honly irqoff).mpr rfl, fun hm => absurd ((honly "m").mp hm) (by decide)⟩

end DataRace

end Csolver
