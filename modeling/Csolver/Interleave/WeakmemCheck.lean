import Csolver.Interleave.WeakmemState
import Mathlib.Tactic.IntervalCases

/-!
# The robustness check (`crates/verifier/src/interleave/weakmem_check.rs`)

The program is searched under both models, and an observation of the weak model that was not found
sequentially is a witness. Both searches have the same budget, which is estimated from the lengths of the
traces. If the sequential search ends before its budget, a witness is genuine; if it is cut, an observation
that it has not come to is reported as well.
-/

namespace Csolver

open Lib

namespace Interleave

namespace Weakmem

/-- What a search returns: each observation with a schedule. -/
abbrev Observations (threads : List Thread) := List (SortedMap Nat Nat × List (Label threads.length))

structure WeakMemoryWitness where
  threads : List String
  description : String
  schedule : List (String × String)

section

variable (threads : List Thread)

/-- The budget of `op_reachable`. -/
def opBudget : Nat := searchBudget (threads.map fun t => t.events.length)

/-- The entry that `weak_memory_nonrobustness` finds. The searches return hash maps, and `iter` is the order in
which the entries of one are visited. -/
def nonrobust (iter : Observations threads → Observations threads) :
    Option (SortedMap Nat Nat × List (Label threads.length)) :=
  if threads.length < 2 then none
  else
    let sc := opReachable threads false (opBudget threads)
    let weak := opReachable threads true (opBudget threads)
    (iter weak).find? fun e => decide (e.1 ∉ sc.map Prod.fst)

def weakMemoryNonrobustness (iter : Observations threads → Observations threads) : Option WeakMemoryWitness :=
  (nonrobust threads iter).map fun e => {
    threads := threads.map (·.name)
    description := "a read observes a value no sequentially-consistent execution allows (missing memory barrier)"
    schedule := e.2.map fun l => ((threads.get l.1).name, l.2) }

/-- The sequential search ends before its budget: there is one unit for every step between the states that are
reached, and one for the first state. -/
def Uncut : Prop :=
  ∃ R : Finset (OpState threads.length), initial threads ∈ R ∧
    Closed (fun st => successors st false) terminal R ∧
    1 + ∑ st ∈ R, degree (fun st => successors st false) terminal st ≤ opBudget threads

/-- Whenever a witness is returned, its schedule reaches an observation in the weak model that no sequential run
has. -/
def GenuineWitness (iter : Observations threads → Observations threads) : Prop :=
  ∀ w, weakMemoryNonrobustness threads iter = some w →
    ∀ obs sched, nonrobust threads iter = some (obs, sched) →
      (∃ st, Walk (fun st => successors st true) terminal (initial threads) sched st ∧ terminal st = some obs) ∧
        ¬ Observes threads false obs

end

variable {threads : List Thread}

theorem nonrobust_eq_some {iter : Observations threads → Observations threads} {e : SortedMap Nat Nat × List (Label threads.length)}
    (h : nonrobust threads iter = some e) :
    e ∈ iter (opReachable threads true (opBudget threads)) ∧
      e.1 ∉ (opReachable threads false (opBudget threads)).map Prod.fst := by
  rw [nonrobust] at h
  split at h
  · exact absurd h (by simp)
  · exact ⟨List.mem_of_find?_eq_some h, by simpa using List.find?_some h⟩

theorem Uncut.observes (h : Uncut threads) {obs : SortedMap Nat Nat} (hobs : Observes threads false obs) :
    obs ∈ (opReachable threads false (opBudget threads)).map Prod.fst := by
  obtain ⟨R, hinit, hR, hbudget⟩ := h
  obtain ⟨st, hst, hterm⟩ := hobs
  obtain ⟨path, hwalk⟩ := hst.walk
  exact explore_complete hR hinit hbudget hwalk hterm

/-- If the sequential search is not cut, a witness is genuine. -/
theorem nonrobustness_genuine (threads : List Thread) (iter : Observations threads → Observations threads)
    (hiter : ∀ m, (iter m).Perm m) (h : Uncut threads) : GenuineWitness threads iter := by
  intro w _ obs sched hfound
  obtain ⟨hmem, hnot⟩ := nonrobust_eq_some hfound
  refine ⟨opReachable_sound ((hiter _).mem_iff.mp hmem), fun hobs => ?_⟩
  exact hnot (h.observes hobs)

/-- Each thread writes one location and then reads the other one. -/
def storeBuffering : List Thread := [⟨"a", [.write "x", .read "y"]⟩, ⟨"b", [.write "y", .read "x"]⟩]

/-- The sequential runs of store buffering. -/
def storeBufferingStates : List (OpState storeBuffering.length) :=
  within (fun st => successors st false) 4 (initial storeBuffering)

theorem storeBuffering_uncut : Uncut storeBuffering := by
  have hclosed : ∀ st ∈ storeBufferingStates, ∀ e ∈ successors st false, e.2 ∈ storeBufferingStates := by
    decide +kernel
  refine ⟨storeBufferingStates.toFinset, by decide +kernel, fun st hst _ e he => ?_, by decide +kernel⟩
  exact List.mem_toFinset.mpr (hclosed st (List.mem_toFinset.mp hst) e he)

/-- Store buffering is reported, and rightly so. -/
theorem nonrobustness_genuine_sb :
    (weakMemoryNonrobustness storeBuffering id).isSome = true ∧ GenuineWitness storeBuffering id :=
  ⟨by decide +kernel, nonrobustness_genuine storeBuffering id (fun m => List.Perm.refl m) storeBuffering_uncut⟩

/-! ## A search that is cut -/

/-- A thread that reads a location four times, and one that writes it six times. -/
def cutPair : List Thread := [⟨"r", List.replicate 4 (.read "x")⟩, ⟨"w", List.replicate 6 (.write "x")⟩]

namespace Cut

/-- Nothing was written when the location was read. -/
def stale : SortedMap Nat Nat := [(0, 0), (1, 0), (2, 0), (3, 0)]

/-- The sequential states as numbers in base 8: for each read seven less the value that it found, and zero if it
was not executed, and then the number of writes. They grow along the search, which writes first. -/
def values (c : Nat) : List Nat :=
  ([c / 4096 % 8, c / 512 % 8, c / 64 % 8, c / 8 % 8].filter fun d => decide (d ≠ 0)).map (7 - ·)

def encode (values : List Nat) (writes : Nat) : Nat :=
  ((values.map (7 - ·) ++ List.replicate (4 - values.length) 0).foldl (fun c d => 8 * c + d) 0) * 8 + writes

def observed (c : Nat) : SortedMap Nat Nat := (values c).zipIdx.map fun e => (e.2, e.1)

def conc (c : Nat) : OpState cutPair.length where
  consumed :=
    let reads := (values c).length
    ⟨[List.replicate reads true ++ List.replicate (4 - reads) false,
      List.replicate (c % 8) true ++ List.replicate (6 - c % 8) false], rfl⟩
  bufs := ⟨[[], []], rfl⟩
  views :=
    let view := if c % 8 = 0 then [] else [("x", c % 8)]
    ⟨[view, view], rfl⟩
  pending := []
  held := ⟨[[], []], rfl⟩
  spawned := ⟨[true, true], rfl⟩
  obs := observed c

def abst (st : OpState cutPair.length) : Nat :=
  encode (st.obs.map Prod.snd) ((st.consumed.get ⟨1, by decide⟩).count true)

def next (c : Nat) : List Nat :=
  (if (values c).length < 4 then [encode (values c ++ [c % 8]) (c % 8)] else []) ++
    if c % 8 < 6 then [c + 1] else []

def result (c : Nat) : Option (SortedMap Nat Nat) :=
  if c % 8 = 6 ∧ (values c).length = 4 then some (observed c) else none

/-- What the sequential search takes from the stack before its budget ends. -/
def taken : List Nat := descend next result 560 [0]

/-! A step of such a state, for any observations. -/

def concAt (reads writes : Nat) (obs : SortedMap Nat Nat) : OpState cutPair.length where
  consumed :=
    ⟨[List.replicate reads true ++ List.replicate (4 - reads) false,
      List.replicate writes true ++ List.replicate (6 - writes) false], rfl⟩
  bufs := ⟨[[], []], rfl⟩
  views :=
    let view := if writes = 0 then [] else [("x", writes)]
    ⟨[view, view], rfl⟩
  pending := []
  held := ⟨[[], []], rfl⟩
  spawned := ⟨[true, true], rfl⟩
  obs := obs

theorem conc_eq (c : Nat) : conc c = concAt (values c).length (c % 8) (observed c) := rfl

theorem abst_concAt {reads writes : Nat} (hw : writes ≤ 6) (obs : SortedMap Nat Nat) :
    abst (concAt reads writes obs) = encode (obs.map Prod.snd) writes := by
  interval_cases writes <;> rfl

theorem successors_concAt {reads writes : Nat} (hr : reads ≤ 4) (hw : writes ≤ 6) (obs : SortedMap Nat Nat) :
    (successors (concAt reads writes obs) false).map Prod.snd =
      (if reads < 4 then [concAt (reads + 1) writes (obs.insert reads writes)] else []) ++
        if writes < 6 then [concAt reads (writes + 1) obs] else [] := by
  interval_cases reads <;> interval_cases writes <;> rfl

theorem terminal_concAt {reads writes : Nat} (hr : reads ≤ 4) (hw : writes ≤ 6) (obs : SortedMap Nat Nat) :
    terminal (concAt reads writes obs) = if writes = 6 ∧ reads = 4 then some obs else none := by
  interval_cases reads <;> interval_cases writes <;> rfl

def readNext (c : Nat) : Nat := encode (values c ++ [c % 8]) (c % 8)

/-- What makes a number the code of a state: it can be read back, and so can its successors. -/
def Coded (c : Nat) : Prop :=
  ((values c).length ≤ 4 ∧ c % 8 ≤ 6 ∧ encode (values c) (c % 8) = c) ∧
    ((values c).length < 4 → values (readNext c) = values c ++ [c % 8] ∧ readNext c % 8 = c % 8 ∧
      observed (readNext c) = (observed c).insert (values c).length (c % 8)) ∧
    (c % 8 < 6 → values (c + 1) = values c)

instance : DecidablePred Coded := fun _ => inferInstanceAs (Decidable (_ ∧ _))

theorem map_snd_observed (c : Nat) : (observed c).map Prod.snd = values c := by
  simp [observed, Function.comp_def]

theorem Coded.spec {c : Nat} (h : Coded c) : abst (conc c) = c ∧
    (successors (conc c) false).map Prod.snd = (next c).map conc ∧ terminal (conc c) = result c := by
  obtain ⟨⟨hr, hw, hback⟩, hread, hwrite⟩ := h
  refine ⟨?_, ?_, ?_⟩
  · rw [conc_eq, abst_concAt hw, map_snd_observed, hback]
  · rw [conc_eq, successors_concAt hr hw, next, List.map_append]
    congr 1
    · split
      · next hlt =>
        obtain ⟨hvals, hmod, hobs⟩ := hread hlt
        rw [List.map_singleton, conc_eq, ← readNext, hvals, hmod, hobs, List.length_append, List.length_singleton]
      · rfl
    · split
      · next hlt =>
        have hmod : (c + 1) % 8 = c % 8 + 1 := by omega
        rw [List.map_singleton, conc_eq, observed, observed, hwrite hlt, hmod]
      · rfl
  · rw [conc_eq, terminal_concAt hr hw, result]

/-- The kernel computes the argument before the function is unfolded. -/
def forced {α : Type} (f : Nat → α) : Nat → α
  | 0 => f 0
  | n + 1 => f (n + 1)

theorem forced_eq {α : Type} (f : Nat → α) : forced f = f := by
  funext n
  cases n <;> rfl

theorem taken_eq : taken = descend (forced next) (forced result) 560 [0] := by
  rw [taken, forced_eq, forced_eq]

set_option maxRecDepth 10000 in
theorem taken_nodup : taken.Nodup := by
  have hchain : taken.IsChain (· < ·) := by
    rw [taken_eq]
    decide +kernel
  exact (List.isChain_iff_pairwise.mp hchain).imp fun hlt => Nat.ne_of_lt hlt

set_option maxRecDepth 10000 in
theorem taken_coded : ∀ c ∈ taken, Coded c := by
  have hall : taken.all (forced fun c => decide (Coded c)) = true := by
    rw [taken_eq]
    decide +kernel
  intro c hc
  simpa [forced_eq] using List.all_eq_true.mp hall c hc

set_option maxRecDepth 10000 in
theorem taken_not_stale : ∀ c ∈ taken, result c ≠ some stale := by
  rw [taken_eq]
  decide +kernel

theorem budget_eq : opBudget cutPair = 560 := by decide

theorem stale_not_found : stale ∉ (opReachable cutPair false (opBudget cutPair)).map Prod.fst := by
  intro hmem
  rw [budget_eq] at hmem
  have hinit : [(initial cutPair, ([] : List (Label cutPair.length)))].map Prod.fst = [0].map conc := by
    decide +kernel
  rcases @explore_descend _ _ _ _ _ (fun st => successors st false) terminal _ next result conc abst 560 _ [0] _ [] _
    (fun c hc => (taken_coded c hc).spec) taken_nodup (fun c hc => absurd hc List.not_mem_nil) hinit rfl stale hmem with hout | ⟨c, hc, hres⟩
  · exact absurd hout List.not_mem_nil
  · exact taken_not_stale c hc hres

theorem stale_observed : Observes cutPair false stale := by
  have hrun : ∃ st ∈ follow false (initial cutPair) (List.replicate 10 0), terminal st = some stale := by
    decide +kernel
  obtain ⟨st, hst, hobs⟩ := hrun
  exact ⟨st, follow_reachable .init hst, hobs⟩

theorem stale_weak : stale ∈ (opReachable cutPair true (opBudget cutPair)).map Prod.fst := by
  have hfirst : stale ∈ (opReachable cutPair true 24).map Prod.fst := by decide +kernel
  rw [budget_eq]
  exact explore_mono (by decide) hfirst

/-- The order that visits the observation first. -/
def iter (m : Observations cutPair) : Observations cutPair :=
  m.filter (fun e => decide (e.1 = stale)) ++ m.filter fun e => !decide (e.1 = stale)

theorem iter_perm (m : Observations cutPair) : (iter m).Perm m := List.filter_append_perm _ m

end Cut

/-- An observation that a sequential run has is reported. -/
theorem nonrobustness_cut : ∃ iter : Observations cutPair → Observations cutPair, (∀ m, (iter m).Perm m) ∧
    (weakMemoryNonrobustness cutPair iter).isSome = true ∧ ¬ GenuineWitness cutPair iter := by
  obtain ⟨e, he, hstale⟩ := List.mem_map.mp Cut.stale_weak
  -- the entry comes first in this order, and it was not found sequentially
  have hfound : ∃ sched, nonrobust cutPair Cut.iter = some (Cut.stale, sched) := by
    have hmem := List.mem_filter (p := fun e => decide (e.1 = Cut.stale)) |>.mpr ⟨he, decide_eq_true hstale⟩
    obtain ⟨f, rest, hcons⟩ := List.exists_cons_of_ne_nil (List.ne_nil_of_mem hmem)
    have hf : f.1 = Cut.stale := by
      have hmem : f ∈ f :: rest := List.mem_cons_self
      rw [← hcons] at hmem
      simpa using (List.mem_filter.mp hmem).2
    refine ⟨f.2, ?_⟩
    rw [nonrobust, if_neg (by decide)]
    simp only [Cut.iter]
    rw [hcons, List.cons_append, List.find?_cons_of_pos (by rw [hf]; exact decide_eq_true Cut.stale_not_found), ← hf]
  obtain ⟨sched, hsched⟩ := hfound
  have hsome : (weakMemoryNonrobustness cutPair Cut.iter).isSome = true := by
    rw [weakMemoryNonrobustness, hsched]
    rfl
  obtain ⟨w, hw⟩ := Option.isSome_iff_exists.mp hsome
  refine ⟨Cut.iter, Cut.iter_perm, hsome, fun hgenuine => ?_⟩
  exact (hgenuine w hw Cut.stale sched hsched).2 Cut.stale_observed

end Weakmem

end Interleave

end Csolver
