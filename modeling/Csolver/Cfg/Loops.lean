import Csolver.Lib.Flood
import Csolver.Lib.SortedMap
import Csolver.Cfg.DominatorsSound

/-!
# Natural loops (`crates/cfg/src/loops.rs`)

A back edge is an edge whose target dominates its source. The body of a loop is found backwards from the
latches and stops at the header, so it is exactly what can reach a latch around the header
(`naturalLoopBody_spec`). The predecessors of a block are all blocks with an edge to it, also those that
the entry does not reach, and the header dominates none of these (`natural_loops_iff`).
-/

namespace Csolver

open Lib

structure Loop where
  header : Nat
  latches : List Nat
  body : Finset Nat
deriving DecidableEq

/-- The fill backwards over the predecessors, from the latches. -/
def naturalLoopBody (cfg : Cfg) (header : Nat) (latches : List Nat) : Option (Finset Nat) :=
  Flood.run cfg.pred.row (cfg.nodeCount + 1) (latches.foldl Flood.mark ({header}, []))

namespace Loops

def edges (cfg : Cfg) : List (Nat × Nat) :=
  (List.range cfg.nodeCount).flatMap fun n => (cfg.succ.row n).map fun h => (n, h)

/-- The source of an edge `n → h` is a latch of `h` when `h` dominates it. -/
def addLatch (cfg : Cfg) (t : IDom) (m : SortedMap Nat (List Nat)) (e : Nat × Nat) :
    Option (SortedMap Nat (List Nat)) := do
  if ← Dominators.dominates cfg t e.2 e.1 then
    pure (m.insert e.2 ((m.get e.2).getD [] ++ [e.1]))
  else pure m

def latchesByHeader (cfg : Cfg) (t : IDom) : Option (SortedMap Nat (List Nat)) :=
  (edges cfg).foldlM (addLatch cfg t) []

def loopOf (cfg : Cfg) (p : Nat × List Nat) : Option Loop :=
  (naturalLoopBody cfg p.1 p.2).map fun body => ⟨p.1, p.2, body⟩

def detect (cfg : Cfg) (t : IDom) : Option (List Loop) := do
  let byHeader ← latchesByHeader cfg t
  byHeader.mapM (loopOf cfg)

def BackEdge (cfg : Cfg) (n h : Nat) : Prop := cfg.succ.Edge n h ∧ Dom cfg.succ.Edge cfg.entry h n

end Loops

/-! ## The body -/

/-- **The body of a loop** is the header and what reaches a latch around the header. -/
theorem naturalLoopBody_spec (cfg : Cfg) {header : Nat} {latches : List Nat} (hh : header < cfg.nodeCount)
    (hl : ∀ n ∈ latches, n < cfg.nodeCount) :
    ∃ body, naturalLoopBody cfg header latches = some body ∧
      ∀ x, x ∈ body ↔ x = header ∨ ∃ n ∈ latches, Avoids cfg.succ.Edge header x n := by
  have hV : ∀ x ∈ Finset.range cfg.nodeCount, ∀ y ∈ cfg.pred.row x, y ∈ Finset.range cfg.nodeCount := by
    intro x _ y hy
    exact Finset.mem_range.mpr (Adj.edge_lt ((cfg.pred_iff y x).mp hy))
  obtain ⟨body, hbody, hmem⟩ := flood_spec cfg.pred.row {header} latches (cfg.nodeCount + 1) hV
    (by simpa using hh) (by simpa using hl) (by simp)
  refine ⟨body, hbody, fun x => ?_⟩
  rw [hmem, Finset.mem_singleton]
  apply or_congr_right
  constructor
  · rintro ⟨n, hn, hnh, hpath⟩
    -- the fill takes the edges from their ends
    refine ⟨n, hn, ?_⟩
    induction hpath with
    | refl => exact .refl (by simpa using hnh)
    | tail _ hstep ih => exact ih.head (by simpa using hstep.2) ((cfg.pred_iff _ _).mp hstep.1)
  · rintro ⟨n, hn, hav⟩
    refine hav.induction (fun hne => ⟨n, hn, by simpa using hne, .refl⟩) fun p x hp hpx _ ih => ?_
    exact ih.step ((cfg.pred_iff p x).mpr hpx) (by simpa using hp)

namespace Loops

/-- The body is what the header's documentation says. -/
def Filled (cfg : Cfg) (l : Loop) : Prop :=
  ∀ x, x ∈ l.body ↔ x = l.header ∨ ∃ n ∈ l.latches, Avoids cfg.succ.Edge l.header x n

theorem mem_edges {cfg : Cfg} {n h : Nat} : (n, h) ∈ edges cfg ↔ cfg.succ.Edge n h := by
  simp only [edges, List.mem_flatMap, List.mem_range, List.mem_map, Prod.mk.injEq]
  constructor
  · rintro ⟨_, _, _, he, rfl, rfl⟩
    exact he
  · exact fun he => ⟨n, Adj.edge_lt he, h, he, rfl, rfl⟩

/-- The entries of the map: under a header stand the sources of edges it dominates, at least one. -/
structure Latches (cfg : Cfg) (es : List (Nat × Nat)) (m : SortedMap Nat (List Nat)) : Prop where
  sound : ∀ p ∈ m, p.2 ≠ [] ∧ ∀ n ∈ p.2, BackEdge cfg n p.1
  complete : ∀ n h, (n, h) ∈ es → Dom cfg.succ.Edge cfg.entry h n → ∃ ls, m.get h = some ls ∧ n ∈ ls

theorem Latches.insert {cfg : Cfg} {es : List (Nat × Nat)} {m : SortedMap Nat (List Nat)} (hm : Latches cfg es m)
    {n h : Nat} (hback : BackEdge cfg n h) :
    Latches cfg (es ++ [(n, h)]) (m.insert h ((m.get h).getD [] ++ [n])) where
  sound p hp := by
    rcases SortedMap.mem_insert hp with rfl | hp
    · refine ⟨by simp, fun x hx => ?_⟩
      rcases List.mem_append.mp hx with hx | hx
      · cases hg : m.get h with
        | none =>
          rw [hg] at hx
          exact absurd hx List.not_mem_nil
        | some ls =>
          obtain ⟨q, hq, rfl⟩ := SortedMap.exists_mem_of_get hg
          rw [hg] at hx
          exact (hm.sound _ hq).2 x hx
      · obtain rfl := List.mem_singleton.mp hx
        exact hback
    · exact hm.sound p hp
  complete x k hx hdom := by
    rw [SortedMap.get_insert]
    rcases List.mem_append.mp hx with hx | hx
    · obtain ⟨ls, hls, hmem⟩ := hm.complete x k hx hdom
      by_cases hk : k = h
      · subst hk
        rw [if_pos rfl]
        exact ⟨_, rfl, by simp [hls, hmem]⟩
      · rw [if_neg hk]
        exact ⟨ls, hls, hmem⟩
    · obtain ⟨rfl, rfl⟩ : x = n ∧ k = h := by simpa using hx
      rw [if_pos rfl]
      exact ⟨_, rfl, by simp⟩

theorem Latches.skip {cfg : Cfg} {es : List (Nat × Nat)} {m : SortedMap Nat (List Nat)} (hm : Latches cfg es m)
    {n h : Nat} (hno : ¬ Dom cfg.succ.Edge cfg.entry h n) : Latches cfg (es ++ [(n, h)]) m where
  sound := hm.sound
  complete x k hx hdom := by
    rcases List.mem_append.mp hx with hx | hx
    · exact hm.complete x k hx hdom
    · obtain ⟨rfl, rfl⟩ : x = n ∧ k = h := by simpa using hx
      exact absurd hdom hno

/-- The tree answers every query about a node. -/
def Answers (cfg : Cfg) (t : IDom) : Prop := ∀ a, ∀ b < cfg.nodeCount,
  ∃ r, Dominators.dominates cfg t a b = some r ∧ (r = true ↔ Dom cfg.succ.Edge cfg.entry a b)

theorem latches_spec {cfg : Cfg} {t : IDom} (ht : Answers cfg t) (todo : List (Nat × Nat))
    {done : List (Nat × Nat)} {m : SortedMap Nat (List Nat)} (hm : Latches cfg done m)
    (htodo : ∀ e ∈ todo, cfg.succ.Edge e.1 e.2) :
    ∃ m', todo.foldlM (addLatch cfg t) m = some m' ∧ Latches cfg (done ++ todo) m' := by
  induction todo generalizing done m with
  | nil => exact ⟨m, rfl, by rwa [List.append_nil]⟩
  | cons e todo ih =>
    have he : cfg.succ.Edge e.1 e.2 := htodo e List.mem_cons_self
    have hrest : ∀ e' ∈ todo, cfg.succ.Edge e'.1 e'.2 := fun e' h => htodo e' (List.mem_cons_of_mem e h)
    obtain ⟨r, hr, hiff⟩ := ht e.2 e.1 (Adj.edge_lt he)
    rw [List.append_cons done e todo, List.foldlM_cons, addLatch, hr]
    cases r with
    | true => exact ih (hm.insert ⟨he, hiff.mp rfl⟩) hrest
    | false => exact ih (hm.skip fun h => absurd (hiff.mpr h) (by simp)) hrest

theorem loops_spec {cfg : Cfg} (m : SortedMap Nat (List Nat))
    (hm : ∀ p ∈ m, p.1 < cfg.nodeCount ∧ ∀ n ∈ p.2, n < cfg.nodeCount) :
    ∃ loops, m.mapM (loopOf cfg) = some loops ∧ loops.map (fun l => (l.header, l.latches)) = m ∧
      ∀ l ∈ loops, Filled cfg l := by
  induction m with
  | nil => exact ⟨[], rfl, rfl, by simp⟩
  | cons p m ih =>
    obtain ⟨hh, hl⟩ := hm p List.mem_cons_self
    obtain ⟨loops, hloops, hmap, hfilled⟩ := ih fun q hq => hm q (List.mem_cons_of_mem p hq)
    obtain ⟨body, hbody, hspec⟩ := naturalLoopBody_spec cfg hh hl
    refine ⟨⟨p.1, p.2, body⟩ :: loops, ?_, by rw [List.map_cons, hmap], ?_⟩
    · rw [List.mapM_cons, loopOf, hbody, hloops]
      rfl
    · intro l hmem
      rcases List.mem_cons.mp hmem with rfl | hmem
      · exact hspec
      · exact hfilled l hmem

/-- What `detect` finds: a loop for every target of a back edge, with its back edges and its body. -/
theorem detect_spec {cfg : Cfg} {t : IDom} (ht : Answers cfg t) :
    ∃ loops, detect cfg t = some loops ∧
      (∀ l ∈ loops, Filled cfg l ∧ l.latches ≠ [] ∧ ∀ n ∈ l.latches, BackEdge cfg n l.header) ∧
      ∀ n h, BackEdge cfg n h → ∃ l ∈ loops, l.header = h ∧ n ∈ l.latches := by
  have hstart : Latches cfg [] ([] : SortedMap Nat (List Nat)) := by constructor <;> simp
  obtain ⟨m, hm, hlatch⟩ := latches_spec ht (edges cfg) hstart fun e he => mem_edges.mp he
  have hin : ∀ p ∈ m, p.1 < cfg.nodeCount ∧ ∀ n ∈ p.2, n < cfg.nodeCount := by
    intro p hp
    obtain ⟨hne, hback⟩ := hlatch.sound p hp
    obtain ⟨n, hn⟩ := List.exists_mem_of_ne_nil _ hne
    exact ⟨cfg.closed _ _ (hback n hn).1, fun x hx => Adj.edge_lt (hback x hx).1⟩
  obtain ⟨loops, hloops, hmap, hfilled⟩ := loops_spec m hin
  refine ⟨loops, ?_, fun l hl => ?_, fun n h hback => ?_⟩
  · rw [detect, latchesByHeader, hm]
    exact hloops
  · have hmem : (l.header, l.latches) ∈ m := by
      rw [← hmap]
      exact List.mem_map.mpr ⟨l, hl, rfl⟩
    exact ⟨hfilled l hl, hlatch.sound _ hmem⟩
  · obtain ⟨ls, hls, hn⟩ := hlatch.complete n h (mem_edges.mpr hback.1) hback.2
    obtain ⟨p, hp, rfl⟩ := SortedMap.exists_mem_of_get hls
    rw [← hmap] at hp
    obtain ⟨l, hl, heq⟩ := List.mem_map.mp hp
    obtain ⟨rfl, rfl⟩ := Prod.mk.inj heq
    exact ⟨l, hl, rfl, hn⟩

/-! ## The latches, one for each edge -/

/-- The back edges to `h` among `es`. -/
def backEdges (cfg : Cfg) (t : IDom) (es : List (Nat × Nat)) (h : Nat) : List (Nat × Nat) :=
  es.filter fun e => e.2 == h && Dominators.dominates cfg t h e.1 == some true

theorem addLatch_get {cfg : Cfg} {t : IDom} {m m' : SortedMap Nat (List Nat)} {e : Nat × Nat}
    (h : addLatch cfg t m e = some m') (hm : m.Sorted) (k : Nat) :
    (m'.get k).getD [] = (m.get k).getD [] ++ (backEdges cfg t [e] k).map (·.1) ∧ m'.Sorted := by
  obtain ⟨r, hr, h⟩ := Option.bind_eq_some_iff.mp h
  rw [backEdges, List.filter_singleton]
  cases r with
  | true =>
    obtain rfl := Option.some.inj h
    refine ⟨?_, hm.insert _ _⟩
    rw [SortedMap.get_insert]
    by_cases hk : k = e.2
    · subst hk
      simp [hr]
    · have hne : (e.2 == k) = false := beq_eq_false_iff_ne.mpr (Ne.symm hk)
      simp [hk, hne]
  | false =>
    obtain rfl := Option.some.inj h
    refine ⟨?_, hm⟩
    by_cases hk : e.2 = k
    · subst hk
      simp [hr]
    · have hne : (e.2 == k) = false := beq_eq_false_iff_ne.mpr hk
      simp [hne]

theorem latches_get {cfg : Cfg} {t : IDom} (es : List (Nat × Nat)) {m m' : SortedMap Nat (List Nat)}
    (h : es.foldlM (addLatch cfg t) m = some m') (hm : m.Sorted) (k : Nat) :
    (m'.get k).getD [] = (m.get k).getD [] ++ (backEdges cfg t es k).map (·.1) ∧ m'.Sorted := by
  induction es generalizing m with
  | nil =>
    obtain rfl := Option.some.inj h
    exact ⟨by simp [backEdges], hm⟩
  | cons e es ih =>
    rw [List.foldlM_cons] at h
    obtain ⟨m₁, h₁, h⟩ := Option.bind_eq_some_iff.mp h
    obtain ⟨hget₁, hm₁⟩ := addLatch_get h₁ hm k
    obtain ⟨hget, hm'⟩ := ih h hm₁
    refine ⟨?_, hm'⟩
    rw [hget, hget₁, List.append_assoc, ← List.map_append]
    congr 2
    exact (List.filter_append [e] es).symm

theorem two_latches {cfg : Cfg} {t : IDom} {n h : Nat} (hrow : cfg.succ.row n = [h, h])
    (hdom : Dominators.dominates cfg t h n = some true) :
    2 ≤ ((backEdges cfg t (edges cfg) h).map (·.1)).length := by
  have hedge : cfg.succ.Edge n h := by
    show h ∈ cfg.succ.row n
    rw [hrow]
    exact List.mem_cons_self
  obtain ⟨l₁, l₂, hsplit⟩ := List.append_of_mem (List.mem_range.mpr (Adj.edge_lt hedge))
  have hedges : edges cfg = (l₁.flatMap fun n => (cfg.succ.row n).map fun h => (n, h)) ++
      ([(n, h), (n, h)] ++ l₂.flatMap fun n => (cfg.succ.row n).map fun h => (n, h)) := by
    rw [edges, Cfg.nodeCount, hsplit, List.flatMap_append, List.flatMap_cons, hrow]
    rfl
  rw [List.length_map, hedges, backEdges, List.filter_append, List.filter_append, List.length_append,
    List.length_append]
  have htwo : ([(n, h), (n, h)].filter fun e =>
      e.2 == h && Dominators.dominates cfg t h e.1 == some true).length = 2 := by
    simp [hdom]
  rw [htwo]
  omega

theorem mem_loops {cfg : Cfg} (m : SortedMap Nat (List Nat)) {loops : List Loop}
    (h : m.mapM (loopOf cfg) = some loops) {l : Loop} (hl : l ∈ loops) : (l.header, l.latches) ∈ m := by
  induction m generalizing loops with
  | nil =>
    obtain rfl := Option.some.inj h
    exact absurd hl List.not_mem_nil
  | cons p m ih =>
    rw [List.mapM_cons] at h
    obtain ⟨l', hl', h⟩ := Option.bind_eq_some_iff.mp h
    obtain ⟨ls, hls, h⟩ := Option.bind_eq_some_iff.mp h
    obtain rfl := Option.some.inj h
    rcases List.mem_cons.mp hl with rfl | hl
    · obtain ⟨body, -, rfl⟩ := Option.map_eq_some_iff.mp hl'
      exact List.mem_cons_self
    · exact List.mem_cons_of_mem _ (ih hls hl)

theorem latches_eq {cfg : Cfg} {t : IDom} {loops : List Loop} (h : detect cfg t = some loops) {l : Loop}
    (hl : l ∈ loops) : l.latches = (backEdges cfg t (edges cfg) l.header).map (·.1) := by
  obtain ⟨m, hm, hloops⟩ := Option.bind_eq_some_iff.mp h
  obtain ⟨hget, hsorted⟩ := latches_get (edges cfg) hm List.Pairwise.nil l.header
  rw [hsorted.get_of_mem (mem_loops m hloops hl)] at hget
  exact hget

/-- A loop that `detect` finds: its body, its back edges, and that a single latch has a single one. -/
theorem detect_loop {cfg : Cfg} {t : IDom} {loops : List Loop} (ht : Dominators.new cfg = some t)
    (h : detect cfg t = some loops) {l : Loop} (hl : l ∈ loops) :
    Filled cfg l ∧ l.latches ≠ [] ∧ (∀ n ∈ l.latches, BackEdge cfg n l.header) ∧
      ∀ n, l.latches = [n] → cfg.succ.row n ≠ [l.header, l.header] := by
  obtain ⟨t', ht', hanswers⟩ := Dominators.answers cfg
  obtain rfl := Option.some.inj (ht.symm.trans ht')
  obtain ⟨loops', hloops', hsound, -⟩ := detect_spec hanswers
  obtain rfl := Option.some.inj (h.symm.trans hloops')
  obtain ⟨hfilled, hne, hback⟩ := hsound l hl
  refine ⟨hfilled, hne, hback, fun n hn hrow => ?_⟩
  have hn' := hback n (by rw [hn]; exact List.mem_singleton.mpr rfl)
  obtain ⟨r, hr, hiff⟩ := hanswers l.header n (Adj.edge_lt hn'.1)
  rw [hiff.mpr hn'.2] at hr
  have htwo := two_latches hrow hr
  rw [← latches_eq h hl, hn] at htwo
  exact absurd htwo (by simp)

/-! ## Dominance -/

theorem Filled.dom {cfg : Cfg} {l : Loop} (hl : Filled cfg l)
    (hback : ∀ n ∈ l.latches, BackEdge cfg n l.header) {x : Nat} (hx : x ∈ l.body)
    (hreach : Reach cfg.succ.Edge cfg.entry x) : Dom cfg.succ.Edge cfg.entry l.header x := by
  rcases (hl x).mp hx with rfl | ⟨n, hn, hav⟩
  · exact Dom.refl hreach
  · exact (hback n hn).2.of_avoids hav hreach

theorem Filled.mem_lt {cfg : Cfg} {l : Loop} (hl : Filled cfg l) (hne : l.latches ≠ [])
    (hback : ∀ n ∈ l.latches, BackEdge cfg n l.header) {x : Nat} (hx : x ∈ l.body) : x < cfg.nodeCount := by
  rcases (hl x).mp hx with rfl | ⟨n, hn, hav⟩
  · obtain ⟨n, hn⟩ := List.exists_mem_of_ne_nil _ hne
    exact cfg.closed _ _ (hback n hn).1
  · exact Avoids.induction (P := fun x => x < cfg.nodeCount) (fun _ => Adj.edge_lt (hback n hn).1)
      (fun _ _ _ hpx _ _ => Adj.edge_lt hpx) hav

/-- What the documentation of a loop says. -/
def Natural (cfg : Cfg) (t : IDom) (l : Loop) : Prop :=
  (∀ x ∈ l.body, Dominators.dominates cfg t l.header x = some true) ∧ Filled cfg l

/-- **Natural loops.** `detect` returns on every graph, and every body is the header with what reaches a
    latch around it. The header dominates all of it, in every loop, exactly if what leads to the source of
    a back edge around its target can be reached from the entry. -/
theorem natural_loops_iff (cfg : Cfg) :
    ∃ t loops, Dominators.new cfg = some t ∧ detect cfg t = some loops ∧
      ((∀ l ∈ loops, Natural cfg t l) ↔
        ∀ n h, BackEdge cfg n h → ∀ x, Avoids cfg.succ.Edge h x n → Reach cfg.succ.Edge cfg.entry x) ∧
      ∀ l ∈ loops, Filled cfg l := by
  obtain ⟨t, ht, hanswers⟩ := Dominators.answers cfg
  obtain ⟨loops, hloops, hsound, hcomplete⟩ := detect_spec hanswers
  refine ⟨t, loops, ht, hloops, ⟨fun h n k hback x hav => ?_, fun h l hl => ?_⟩, fun l hl => (hsound l hl).1⟩
  · obtain ⟨l, hl, rfl, hn⟩ := hcomplete n k hback
    obtain ⟨hfilled, hne, hbacks⟩ := hsound l hl
    have hx : x ∈ l.body := (hfilled x).mpr (.inr ⟨n, hn, hav⟩)
    obtain ⟨r, hr, hiff⟩ := hanswers l.header x (hfilled.mem_lt hne hbacks hx)
    have htrue : r = true := Option.some.inj (hr.symm.trans ((h l hl).1 x hx))
    exact (hiff.mp htrue).1
  · obtain ⟨hfilled, hne, hbacks⟩ := hsound l hl
    refine ⟨fun x hx => ?_, hfilled⟩
    have hreach : Reach cfg.succ.Edge cfg.entry x := by
      rcases (hfilled x).mp hx with rfl | ⟨n, hn, hav⟩
      · obtain ⟨n, hn⟩ := List.exists_mem_of_ne_nil _ hne
        exact (hbacks n hn).2.reach_left
      · exact h n l.header (hbacks n hn) x hav
    obtain ⟨r, hr, hiff⟩ := hanswers l.header x (hfilled.mem_lt hne hbacks hx)
    rw [hr, hiff.mpr (hfilled.dom hbacks hx hreach)]

/-- `0 → 1 → 2 → 1`, and a block `3 → 2` that nothing leads to. -/
def strayCfg : Cfg :=
  .ofSucc [[1], [2], [1], [2]] 0 (by decide) (Adj.closed_of_rows (by decide))

/-- The stray block is in the body, and the header does not dominate it. -/
theorem stray_not_dominated :
    ¬ ∀ t loops, Dominators.new strayCfg = some t → detect strayCfg t = some loops →
      ∀ l ∈ loops, Natural strayCfg t l := by
  intro h
  have hrun : (do
      let t ← Dominators.new strayCfg
      let loops ← detect strayCfg t
      some (loops.any fun l => decide (3 ∈ l.body) &&
        (Dominators.dominates strayCfg t l.header 3 == some false))) = some true := by decide
  obtain ⟨t, ht, hrun⟩ := Option.bind_eq_some_iff.mp hrun
  obtain ⟨loops, hloops, hany⟩ := Option.bind_eq_some_iff.mp hrun
  obtain ⟨l, hl, hcond⟩ := List.any_eq_true.mp (Option.some.inj hany)
  obtain ⟨h3, hdom⟩ := Bool.and_eq_true_iff.mp hcond
  have htrue := (h t loops ht hloops l hl).1 3 (of_decide_eq_true h3)
  rw [htrue] at hdom
  exact absurd hdom (by decide)

end Loops

end Csolver
