import Csolver.Cfg.DominatorsSound
import Csolver.Ir.Ssa

/-!
# The merged exploration (`run_merged` of `exec/merge.rs`)

Each block is processed once, in reverse postorder, from the states that have arrived along its
incoming edges; a block that nothing has arrived at is passed over. Edges to a loop header that
dominates their source are cut. That every other edge arrives in time is not checked anywhere: an edge
that goes back in the order without being cut comes too late and is lost.

What happens within a block (merging the arrivals, havoc at a header, the instructions, the proof that
a branch is infeasible) is a parameter here.
-/

namespace Csolver

open Lib

namespace Merged

/-- The side of a terminator that an edge leaves by. -/
inductive Guard where
  | always
  | thenSide
  | elseSide
  | case (index : Nat)
  | default
  deriving DecidableEq

/-- The edges of a terminator, in the order they are pushed. -/
def guarded : Terminator → List (BlockId × Guard)
  | .ret _ | .unreachable => []
  | .br target _ => [(target, .always)]
  | .condBr _ t _ e _ => [(t, .thenSide), (e, .elseSide)]
  | .switch _ cases default => cases.mapIdx (fun i c => (c.2, .case i)) ++ [(default, .default)]

/-- The edges out of the block at position `n`, to blocks that exist. -/
def outEdges (f : Func) (n : Nat) : List (Nat × Guard) :=
  match f.blocks[n]? with
  | some b => (guarded b.term).filterMap fun e => (f.indexOf e.1).map (·, e.2)
  | none => []

/-- `Loops::detect`: the targets of edges that they dominate. -/
def headers (cfg : Cfg) (t : IDom) : List Nat :=
  (List.range cfg.nodeCount).flatMap fun n =>
    (cfg.succ.row n).filter fun h => Dominators.dominates cfg t h n = some true

def isBackEdge (f : Func) (u v : Nat) : Bool :=
  match Dominators.new f.cfg with
  | some t => decide (v ∈ headers f.cfg t) && decide (Dominators.dominates f.cfg t v u = some true)
  | none => false

/-- A state that has arrived along an edge, or at the start. -/
structure Arrival (St : Type) where
  source : Option (Nat × Guard)
  state : St

/-- What the exploration of a block depends on: `entry` is the initial state, `enter` gives the state
    at the end of a block from its arrivals, `infeasible` is the check before an edge that has a
    condition, and `stop` says after which number of visits the budgets are used up. -/
structure Executor (St : Type) where
  entry : St
  enter : Nat → List (Arrival St) → St
  infeasible : Nat → Guard → St → Bool
  stop : Nat → Bool

/-- A processed block. -/
structure Visit (St : Type) where
  block : Nat
  arrivals : List (Arrival St)
  state : St

/-- The exploration between two blocks; `pruned` is `pruned_succs`. -/
structure Progress (St : Type) where
  incoming : Nat → List (Arrival St)
  visits : List (Visit St)
  pruned : List Nat

variable {St : Type}

/-- The edge is taken on: it has no condition, or one not proved infeasible. -/
def takes (E : Executor St) (u : Nat) (g : Guard) (st : St) : Bool :=
  decide (g = .always) || !E.infeasible u g st

/-- One edge of `propagate_edges`. Only the sides of a conditional branch are recorded as pruned. -/
def pushEdge (f : Func) (E : Executor St) (u : Nat) (st : St) (r : Progress St) (e : Nat × Guard) :
    Progress St :=
  if isBackEdge f u e.1 then r
  else if takes E u e.2 st then
    { r with incoming := Function.update r.incoming e.1 (r.incoming e.1 ++ [⟨some (u, e.2), st⟩]) }
  else if e.2 = .thenSide ∨ e.2 = .elseSide then { r with pruned := e.1 :: r.pruned }
  else r

/-- Process a block: its arrivals are taken out and its edges pushed. -/
def process (f : Func) (E : Executor St) (r : Progress St) (n : Nat) : Progress St :=
  let st := E.enter n (r.incoming n)
  (outEdges f n).foldl (pushEdge f E n st)
    { r with
      incoming := Function.update r.incoming n []
      visits := r.visits ++ [⟨n, r.incoming n, st⟩] }

/-- One round of the loop; `none` when the budgets are used up. -/
def visitBlock (f : Func) (E : Executor St) (r : Progress St) (n : Nat) : Option (Progress St) :=
  if (r.incoming n).isEmpty then some r
  else if E.stop (r.visits.length + 1) then none
  else some (process f E r n)

def begin (f : Func) (E : Executor St) : Progress St :=
  ⟨fun n => if n = f.cfg.entry then [⟨none, E.entry⟩] else [], [], []⟩

def runMerged (f : Func) (E : Executor St) : Option (Progress St) := do
  let rpo ← f.cfg.reversePostorder
  rpo.foldlM (visitBlock f E) (begin f E)

/-- `dead_blocks`: pruned into and never entered. -/
def dead (r : Progress St) (n : Nat) : Prop := n ∈ r.pruned ∧ n ∉ r.visits.map (·.block)

/-! ## The graph -/

theorem mem_guarded {t : Terminator} {id : BlockId} : (∃ g, (id, g) ∈ guarded t) ↔ id ∈ t.successors := by
  cases t with
  | switch v cases d =>
    simp only [guarded, Terminator.successors, List.mem_append, List.mem_mapIdx, List.mem_map,
      List.mem_singleton, Prod.mk.injEq]
    constructor
    · rintro ⟨g, ⟨i, hi, hc, _⟩ | ⟨rfl, _⟩⟩
      · exact .inl ⟨_, List.getElem_mem hi, hc⟩
      · exact .inr rfl
    · rintro (⟨c, hc, rfl⟩ | rfl)
      · obtain ⟨i, hi, rfl⟩ := List.mem_iff_getElem.mp hc
        exact ⟨_, .inl ⟨i, hi, rfl, rfl⟩⟩
      · exact ⟨_, .inr ⟨rfl, rfl⟩⟩
  | br target args => simp [guarded, Terminator.successors]
  | condBr c t targs e eargs =>
    simp only [guarded, Terminator.successors, List.mem_cons, Prod.mk.injEq, List.not_mem_nil, or_false]
    constructor
    · rintro ⟨g, ⟨rfl, _⟩ | ⟨rfl, _⟩⟩
      · exact .inl rfl
      · exact .inr rfl
    · rintro (rfl | rfl)
      · exact ⟨_, .inl ⟨rfl, rfl⟩⟩
      · exact ⟨_, .inr ⟨rfl, rfl⟩⟩
  | ret v => simp [guarded, Terminator.successors]
  | unreachable => simp [guarded, Terminator.successors]

theorem mem_outEdges {f : Func} {u v : Nat} : (∃ g, (v, g) ∈ outEdges f u) ↔ f.cfg.succ.Edge u v := by
  show _ ↔ v ∈ f.succ.row u
  rw [Adj.row, List.getD_eq_getElem?_getD, Func.succ, List.getElem?_map, outEdges]
  cases f.blocks[u]? with
  | none => simp
  | some b =>
    simp only [Option.map_some, Option.getD_some, List.mem_filterMap, Option.map_eq_some_iff,
      Prod.mk.injEq, Prod.exists]
    constructor
    · rintro ⟨g, id, g', hmem, m, hm, rfl, rfl⟩
      exact ⟨id, mem_guarded.mp ⟨_, hmem⟩, hm⟩
    · rintro ⟨id, hid, hm⟩
      obtain ⟨g, hg⟩ := mem_guarded.mpr hid
      exact ⟨g, id, g, hg, v, hm, rfl, rfl⟩

theorem isBackEdge_iff {f : Func} {u v : Nat} (h : f.cfg.succ.Edge u v) :
    isBackEdge f u v = true ↔ Dom f.cfg.succ.Edge f.cfg.entry v u := by
  obtain ⟨t, ht, hdom⟩ := Dominators.answers f.cfg
  obtain ⟨r, hr, hiff⟩ := hdom v u (Adj.edge_lt h)
  have hquery : Dominators.dominates f.cfg t v u = some true ↔ Dom f.cfg.succ.Edge f.cfg.entry v u := by
    rw [hr, Option.some.injEq, hiff]
  rw [isBackEdge, ht]
  simp only [Bool.and_eq_true, decide_eq_true_eq]
  refine ⟨fun hb => hquery.mp hb.2, fun hd => ⟨?_, hquery.mpr hd⟩⟩
  refine List.mem_flatMap.mpr ⟨u, List.mem_range.mpr (Adj.edge_lt h), List.mem_filter.mpr ⟨h, ?_⟩⟩
  exact decide_eq_true (hquery.mpr hd)

/-! ## Pushing the edges of a block -/

theorem pushEdge_visits (f : Func) (E : Executor St) (u : Nat) (st : St) (es : List (Nat × Guard)) :
    ∀ r : Progress St, (es.foldl (pushEdge f E u st) r).visits = r.visits := by
  induction es with
  | nil => exact fun _ => rfl
  | cons e es ih =>
    intro r
    rw [List.foldl_cons, ih]
    unfold pushEdge
    split_ifs <;> rfl

theorem mem_incoming_push (f : Func) (E : Executor St) (u : Nat) (st : St) (es : List (Nat × Guard)) :
    ∀ (r : Progress St) (v : Nat) (a : Arrival St),
      a ∈ (es.foldl (pushEdge f E u st) r).incoming v ↔ a ∈ r.incoming v ∨
        ∃ g, (v, g) ∈ es ∧ isBackEdge f u v = false ∧ takes E u g st = true ∧ a = ⟨some (u, g), st⟩ := by
  induction es with
  | nil => simp
  | cons e es ih =>
    intro r v a
    rw [List.foldl_cons, ih]
    have hone : a ∈ (pushEdge f E u st r e).incoming v ↔ a ∈ r.incoming v ∨
        (e.1 = v ∧ isBackEdge f u v = false ∧ takes E u e.2 st = true ∧ a = ⟨some (u, e.2), st⟩) := by
      unfold pushEdge
      by_cases hback : isBackEdge f u e.1 = true
      · rw [if_pos hback]
        refine (or_iff_left ?_).symm
        rintro ⟨rfl, hb, _⟩
        exact absurd hback (by rw [hb]; decide)
      · rw [if_neg hback]
        by_cases htakes : takes E u e.2 st = true
        · rw [if_pos htakes]
          show a ∈ Function.update r.incoming e.1 _ v ↔ _
          by_cases hv : v = e.1
          · subst hv
            rw [Function.update_self, List.mem_append, List.mem_singleton]
            simp [htakes, hback]
          · rw [Function.update_of_ne hv]
            exact (or_iff_left fun h => hv h.1.symm).symm
        · rw [if_neg htakes]
          have hsame : a ∈ r.incoming v ↔ a ∈ r.incoming v ∨ (e.1 = v ∧ isBackEdge f u v = false ∧
              takes E u e.2 st = true ∧ a = ⟨some (u, e.2), st⟩) :=
            (or_iff_left fun h => htakes h.2.2.1).symm
          split_ifs <;> exact hsame
    rw [hone, or_assoc]
    refine or_congr Iff.rfl ?_
    constructor
    · rintro (⟨rfl, h⟩ | ⟨g, hg, h⟩)
      · exact ⟨e.2, List.mem_cons_self, h⟩
      · exact ⟨g, List.mem_cons_of_mem _ hg, h⟩
    · rintro ⟨g, hg, h⟩
      rcases List.mem_cons.mp hg with rfl | hg
      · exact .inl ⟨rfl, h⟩
      · exact .inr ⟨g, hg, h⟩

/-! ## The order -/

/-- Every edge between reachable blocks that is not cut goes forward in the order of processing. -/
def Forward (f : Func) : Prop :=
  ∀ rpo, f.cfg.reversePostorder = some rpo → ∀ u v, f.Live u → f.Edge u v → ¬f.Dominates v u →
    rpo.idxOf u < rpo.idxOf v

theorem mem_done_iff {rpo done todo : List Nat} {b : Nat} (hnd : rpo.Nodup)
    (h : rpo = done ++ b :: todo) {x : Nat} : x ∈ done ↔ rpo.idxOf x < rpo.idxOf b := by
  subst h
  have hb : b ∉ done := fun hm =>
    (List.nodup_append.mp hnd).2.2 b hm b List.mem_cons_self rfl
  rw [List.idxOf_append_of_notMem hb, List.idxOf_cons_self, Nat.add_zero]
  constructor
  · intro hx
    rw [List.idxOf_append_of_mem hx]
    exact List.idxOf_lt_length_of_mem hx
  · intro hlt
    by_contra hx
    rw [List.idxOf_append_of_notMem hx] at hlt
    omega

/-- The state of the exploration when the blocks in `done` have been passed. -/
structure Covers (f : Func) (E : Executor St) (done : List Nat) (r : Progress St) : Prop where
  late : ∀ x ∈ done, ∀ a, a ∉ r.incoming x
  blocks : ∀ w ∈ r.visits, w.block ∈ done
  entered : ∀ w ∈ r.visits, w.arrivals ≠ [] ∧ w.state = E.enter w.block w.arrivals
  once : ∀ w ∈ r.visits, ∀ w' ∈ r.visits, w.block = w'.block → w = w'
  seed : ⟨none, E.entry⟩ ∈ r.incoming f.cfg.entry ∨
    ∃ w ∈ r.visits, w.block = f.cfg.entry ∧ ⟨none, E.entry⟩ ∈ w.arrivals
  arrived : ∀ w ∈ r.visits, ∀ e ∈ outEdges f w.block, isBackEdge f w.block e.1 = false →
    takes E w.block e.2 w.state = true → ⟨some (w.block, e.2), w.state⟩ ∈ r.incoming e.1 ∨
      ∃ w' ∈ r.visits, w'.block = e.1 ∧ ⟨some (w.block, e.2), w.state⟩ ∈ w'.arrivals
  sources : ∀ v, ∀ a ∈ r.incoming v, v = f.cfg.entry ∨
    ∃ w ∈ r.visits, f.Edge w.block v
  paths : ∀ w ∈ r.visits, ∃ l, Path f.Edge f.cfg.entry w.block l ∧
    ∀ x ∈ l, ∃ w' ∈ r.visits, w'.block = x

theorem covers_begin (f : Func) (E : Executor St) : Covers f E [] (begin f E) where
  late := by simp
  blocks := by simp [begin]
  entered := by simp [begin]
  once := by simp [begin]
  seed := .inl (by simp [begin])
  arrived := by simp [begin]
  sources v a ha := by
    by_cases hv : v = f.cfg.entry
    · exact .inl hv
    · simp [begin, hv] at ha
  paths := by simp [begin]

theorem visitBlock_cases {f : Func} {E : Executor St} {r r' : Progress St} {b : Nat}
    (h : visitBlock f E r b = some r') :
    (r.incoming b = [] ∧ r' = r) ∨ (r.incoming b ≠ [] ∧ r' = process f E r b) := by
  unfold visitBlock at h
  split_ifs at h with hnil
  · exact .inl ⟨List.isEmpty_iff.mp hnil, (Option.some.inj h).symm⟩
  · exact .inr ⟨fun he => hnil (List.isEmpty_iff.mpr he), (Option.some.inj h).symm⟩

/-- The visit that processing a block records. -/
def visitOf (E : Executor St) (r : Progress St) (n : Nat) : Visit St :=
  ⟨n, r.incoming n, E.enter n (r.incoming n)⟩

theorem mem_visits_process {f : Func} {E : Executor St} {r : Progress St} {b : Nat} {w : Visit St} :
    w ∈ (process f E r b).visits ↔ w ∈ r.visits ∨ w = visitOf E r b := by
  rw [process, pushEdge_visits, List.mem_append, List.mem_singleton]
  rfl

theorem mem_incoming_process {f : Func} {E : Executor St} {r : Progress St} {b v : Nat} {a : Arrival St} :
    a ∈ (process f E r b).incoming v ↔ (v ≠ b ∧ a ∈ r.incoming v) ∨
      ∃ g, (v, g) ∈ outEdges f b ∧ isBackEdge f b v = false ∧
        takes E b g (visitOf E r b).state = true ∧ a = ⟨some (b, g), (visitOf E r b).state⟩ := by
  rw [process, mem_incoming_push]
  refine or_congr ?_ Iff.rfl
  show a ∈ Function.update r.incoming b [] v ↔ _
  by_cases hvb : v = b
  · rw [hvb, Function.update_self]
    simp
  · rw [Function.update_of_ne hvb]
    exact (and_iff_right hvb).symm

theorem Covers.visit {f : Func} {E : Executor St} (hfwd : Forward f) {rpo done todo : List Nat} {b : Nat}
    (hrpo : f.cfg.reversePostorder = some rpo) (hnd : rpo.Nodup) (hlive : ∀ x ∈ rpo, f.Live x)
    (hsplit : rpo = done ++ b :: todo) {r r' : Progress St} (h : Covers f E done r)
    (hv : visitBlock f E r b = some r') : Covers f E (done ++ [b]) r' := by
  have hb : f.Live b := hlive b (by rw [hsplit]; exact List.mem_append_right _ List.mem_cons_self)
  have hbdone : b ∉ done := by
    rw [mem_done_iff hnd hsplit]
    exact Nat.lt_irrefl _
  rcases visitBlock_cases hv with ⟨hnil, rfl⟩ | ⟨hne, rfl⟩
  · refine ⟨fun x hx a => ?_, fun w hw => List.mem_append_left _ (h.blocks w hw), h.entered, h.once,
      h.seed, h.arrived, h.sources, h.paths⟩
    rcases List.mem_append.mp hx with hx | hx
    · exact h.late x hx a
    · rw [List.mem_singleton.mp hx, hnil]
      exact List.not_mem_nil
  · -- what an edge of `b` that is not cut pushes goes to a block still to come
    have hpush : ∀ v g, (v, g) ∈ outEdges f b → isBackEdge f b v = false →
        v ≠ b ∧ v ∉ done := by
      intro v g hg hback
      have hedge : f.Edge b v := mem_outEdges.mp ⟨g, hg⟩
      have hdom : ¬f.Dominates v b := by
        intro hdom
        rw [(isBackEdge_iff hedge).mpr hdom] at hback
        exact absurd hback (by decide)
      have hlt := hfwd rpo hrpo b v hb hedge hdom
      refine ⟨?_, ?_⟩
      · rintro rfl
        exact Nat.lt_irrefl _ hlt
      · rw [mem_done_iff hnd hsplit]
        omega
    have hself : visitOf E r b ∈ (process f E r b).visits := mem_visits_process.mpr (.inr rfl)
    have hold : ∀ w ∈ r.visits, w ∈ (process f E r b).visits :=
      fun w hw => mem_visits_process.mpr (.inl hw)
    constructor
    · -- late
      intro x hx a ha
      have hx' : x ∈ done ∨ x = b := by simpa using hx
      rcases mem_incoming_process.mp ha with ⟨hxb, ha⟩ | ⟨g, hg, hback, _⟩
      · exact h.late x (hx'.resolve_right hxb) a ha
      · obtain ⟨hxb, hxdone⟩ := hpush x g hg hback
        exact hx'.elim hxdone hxb
    · -- blocks
      intro w hw
      rcases mem_visits_process.mp hw with hw | rfl
      · exact List.mem_append_left _ (h.blocks w hw)
      · exact List.mem_append_right _ (List.mem_singleton.mpr rfl)
    · -- entered
      intro w hw
      rcases mem_visits_process.mp hw with hw | rfl
      · exact h.entered w hw
      · exact ⟨hne, rfl⟩
    · -- once
      intro w hw w' hw' heq
      rcases mem_visits_process.mp hw with hw | rfl <;> rcases mem_visits_process.mp hw' with hw' | rfl
      · exact h.once w hw w' hw' heq
      · have hwb : w.block = b := heq
        exact absurd (hwb ▸ h.blocks w hw) hbdone
      · have hwb : b = w'.block := heq
        exact absurd (hwb ▸ h.blocks w' hw') hbdone
      · rfl
    · -- seed
      rcases h.seed with hs | ⟨w, hw, hwb, hs⟩
      · by_cases hentry : f.cfg.entry = b
        · exact .inr ⟨visitOf E r b, hself, hentry.symm, hentry ▸ hs⟩
        · exact .inl (mem_incoming_process.mpr (.inl ⟨hentry, hs⟩))
      · exact .inr ⟨w, hold w hw, hwb, hs⟩
    · -- arrived
      intro w hw e he hback htakes
      rcases mem_visits_process.mp hw with hw | rfl
      · rcases h.arrived w hw e he hback htakes with hs | ⟨w', hw', hwb, hs⟩
        · by_cases heb : e.1 = b
          · exact .inr ⟨visitOf E r b, hself, heb.symm, heb ▸ hs⟩
          · exact .inl (mem_incoming_process.mpr (.inl ⟨heb, hs⟩))
        · exact .inr ⟨w', hold w' hw', hwb, hs⟩
      · exact .inl (mem_incoming_process.mpr (.inr ⟨e.2, he, hback, htakes, rfl⟩))
    · -- sources
      intro v a ha
      rcases mem_incoming_process.mp ha with ⟨_, ha⟩ | ⟨g, hg, _⟩
      · rcases h.sources v a ha with hv | ⟨w, hw, hedge⟩
        · exact .inl hv
        · exact .inr ⟨w, hold w hw, hedge⟩
      · exact .inr ⟨visitOf E r b, hself, mem_outEdges.mp ⟨g, hg⟩⟩
    · -- paths
      have hmono : ∀ x, (∃ w' ∈ r.visits, w'.block = x) → ∃ w' ∈ (process f E r b).visits, w'.block = x :=
        fun x ⟨w', hw', hx⟩ => ⟨w', hold w' hw', hx⟩
      intro w hw
      rcases mem_visits_process.mp hw with hw | rfl
      · obtain ⟨l, hl, hall⟩ := h.paths w hw
        exact ⟨l, hl, fun x hx => hmono x (hall x hx)⟩
      · obtain ⟨a, ha⟩ := List.exists_mem_of_ne_nil _ hne
        rcases h.sources b a ha with hentry | ⟨w', hw', hedge⟩
        · refine ⟨[b], ?_, fun x hx => ⟨_, hself, (List.mem_singleton.mp hx).symm⟩⟩
          show Path f.Edge f.cfg.entry b [b]
          rw [hentry]
          exact .root
        · obtain ⟨l, hl, hall⟩ := h.paths w' hw'
          refine ⟨b :: l, hl.step hedge, fun x hx => ?_⟩
          rcases List.mem_cons.mp hx with rfl | hx
          · exact ⟨_, hself, rfl⟩
          · exact hmono x (hall x hx)

theorem runMerged_invariant {f : Func} {E : Executor St} {I : List Nat → Progress St → Prop}
    (hbegin : I [] (begin f E)) {rpo : List Nat} (hrpo : f.cfg.reversePostorder = some rpo)
    (hstep : ∀ done b todo r r', rpo = done ++ b :: todo → I done r → visitBlock f E r b = some r' →
      I (done ++ [b]) r') {r : Progress St} (hrun : runMerged f E = some r) : I rpo r := by
  have key : ∀ (todo done : List Nat) (r₀ : Progress St), rpo = done ++ todo → I done r₀ →
      todo.foldlM (visitBlock f E) r₀ = some r → I rpo r := by
    intro todo
    induction todo with
    | nil =>
      intro done r₀ hsplit h hfold
      rw [List.append_nil] at hsplit
      rw [hsplit, ← Option.some.inj hfold]
      exact h
    | cons b todo ih =>
      intro done r₀ hsplit h hfold
      rw [List.foldlM_cons] at hfold
      obtain ⟨r₁, hr₁, hfold⟩ := Option.bind_eq_some_iff.mp hfold
      exact ih (done ++ [b]) r₁ (by simpa using hsplit) (hstep done b todo r₀ r₁ hsplit h hr₁) hfold
  rw [runMerged, hrpo] at hrun
  exact key rpo [] (begin f E) rfl hbegin hrun

theorem Covers.final {f : Func} {E : Executor St} (hfwd : Forward f) {rpo : List Nat}
    (hrpo : f.cfg.reversePostorder = some rpo) (hnd : rpo.Nodup) (hlive : ∀ x ∈ rpo, f.Live x)
    {r : Progress St} (hrun : runMerged f E = some r) : Covers f E rpo r :=
  runMerged_invariant (covers_begin f E) hrpo
    (fun _ _ _ _ _ hsplit h hv => h.visit hfwd hrpo hnd hlive hsplit hv) hrun

/-! ## Every live edge arrives -/

/-- Every edge that is not cut, from a processed block and not proved infeasible there, has arrived
    at its target when that is processed. -/
def CoversEdges (f : Func) (E : Executor St) : Prop :=
  ∀ r, runMerged f E = some r → ∀ w ∈ r.visits, ∀ e ∈ outEdges f w.block,
    isBackEdge f w.block e.1 = false → takes E w.block e.2 w.state = true →
    ∃ w' ∈ r.visits, w'.block = e.1 ∧ ⟨some (w.block, e.2), w.state⟩ ∈ w'.arrivals

/-- The order of processing, as far as the argument needs it. -/
structure Ordered (f : Func) (rpo : List Nat) : Prop where
  nodup : rpo.Nodup
  mem_iff : ∀ x, x ∈ rpo ↔ x < f.cfg.nodeCount ∧ f.Live x
  parent : ∀ x ∈ rpo, x ≠ f.cfg.entry →
    ∃ q ∈ rpo, f.Edge q x ∧ rpo.idxOf q < rpo.idxOf x ∧ ¬f.Dominates x q

/-- A node has a way from the root through nodes numbered no lower, so a lower one does not dominate
    it. -/
theorem path_above {E : Nat → Nat → Prop} {root : Nat} {post : List Nat} (hn : DomTree.Numbered E root post)
    (k : Nat) : ∀ y ∈ post, post.length - post.idxOf y ≤ k →
      ∃ l, Path E root y l ∧ ∀ z ∈ l, post.idxOf y ≤ post.idxOf z := by
  induction k with
  | zero =>
    intro y hy hk
    have := List.idxOf_lt_length_of_mem hy
    omega
  | succ k ih =>
    intro y hy hk
    by_cases hroot : y = root
    · rw [hroot]
      exact ⟨[root], .root, fun z hz => by rw [List.mem_singleton.mp hz]⟩
    · obtain ⟨q, hq, hedge, hlt⟩ := hn.parent y hy hroot
      obtain ⟨l, hl, hall⟩ := ih q hq (by omega)
      refine ⟨y :: l, hl.step hedge, fun z hz => ?_⟩
      rcases List.mem_cons.mp hz with rfl | hz
      · exact Nat.le_refl _
      · exact Nat.le_of_lt (lt_of_lt_of_le hlt (hall z hz))

theorem reversePostorder_ordered (f : Func) (hpos : 0 < f.cfg.nodeCount) :
    ∃ rpo, f.cfg.reversePostorder = some rpo ∧ Ordered f rpo := by
  obtain ⟨post, hpost, hnd, hmem, hparent⟩ := postorder_spec f.cfg.closed (f.cfg.entry_lt hpos)
  have hn : DomTree.Numbered f.cfg.succ.Edge f.cfg.entry post := ⟨hnd, hmem, hparent⟩
  have hrpo : f.cfg.reversePostorder = some post.reverse := by
    rw [Cfg.reversePostorder, Cfg.postorder, if_neg (Nat.ne_of_gt hpos), hpost]
    rfl
  obtain ⟨rpo, hrpo', _, hmem'⟩ := f.cfg.reversePostorder_spec
  obtain rfl : post.reverse = rpo := Option.some.inj (hrpo.symm.trans hrpo')
  refine ⟨post.reverse, hrpo, List.nodup_reverse.mpr hnd, hmem', fun x hx hne => ?_⟩
  have hxpost := List.mem_reverse.mp hx
  obtain ⟨q, hq, hedge, hlt⟩ := hparent x hxpost hne
  refine ⟨q, List.mem_reverse.mpr hq, hedge, ?_, fun hdom => ?_⟩
  · obtain ⟨done, todo, hsplit⟩ := List.append_of_mem hx
    rw [← mem_done_iff (List.nodup_reverse.mpr hnd) hsplit, hn.mem_done hsplit]
    refine ⟨hq, ?_⟩
    rwa [DomTree.postNum_mem hxpost, DomTree.postNum_mem hq]
  · obtain ⟨l, hl, hall⟩ := path_above hn _ q hq (Nat.le_refl _)
    have := hall x (hdom.2 l hl)
    omega

/-- Nothing is pruned and there is no budget. -/
def freeExecutor : Executor Unit := ⟨(), fun _ _ => (), fun _ _ _ => false, fun _ => false⟩

theorem takes_free (u : Nat) (g : Guard) : takes freeExecutor u g () = true := by
  rw [takes]
  exact Bool.or_eq_true_iff.mpr (.inr rfl)

theorem runMerged_free (f : Func) : ∃ r, runMerged f freeExecutor = some r := by
  have hvisit : ∀ r n, ∃ r', visitBlock f freeExecutor r n = some r' := by
    intro r n
    unfold visitBlock
    split_ifs with hnil hstop
    · exact ⟨r, rfl⟩
    · exact absurd hstop (by simp [freeExecutor])
    · exact ⟨_, rfl⟩
  have hfold : ∀ (l : List Nat) (r : Progress Unit), ∃ r', l.foldlM (visitBlock f freeExecutor) r = some r' := by
    intro l
    induction l with
    | nil => exact fun r => ⟨r, rfl⟩
    | cons n l ih =>
      intro r
      obtain ⟨r₁, hr₁⟩ := hvisit r n
      rw [List.foldlM_cons, hr₁]
      exact ih r₁
  obtain ⟨rpo, hrpo, _⟩ := f.cfg.reversePostorder_spec
  rw [runMerged, hrpo]
  exact hfold rpo _

/-- The exploration that prunes nothing visits everything, and an arrival comes from an earlier
    block. -/
structure Explored (f : Func) (rpo done : List Nat) (r : Progress Unit) : Prop where
  visited : ∀ x ∈ done, ∃ w ∈ r.visits, w.block = x
  seed : f.cfg.entry ∉ done → r.incoming f.cfg.entry ≠ []
  waiting : ∀ q ∈ done, ∀ x, x ∉ done → f.Edge q x → ¬f.Dominates x q → r.incoming x ≠ []
  src : ∀ v, ∀ a ∈ r.incoming v, ∀ u g, a.source = some (u, g) → u ∈ done
  past : ∀ w ∈ r.visits, ∀ a ∈ w.arrivals, ∀ u g, a.source = some (u, g) →
    rpo.idxOf u < rpo.idxOf w.block

theorem explored_begin (f : Func) (rpo : List Nat) : Explored f rpo [] (begin f freeExecutor) where
  visited := by simp
  seed _ := by simp [begin]
  waiting := by simp
  src v a ha u g hs := by
    by_cases hv : v = f.cfg.entry
    · have ha' : a = ⟨none, ()⟩ := by simpa [begin, hv, freeExecutor] using ha
      rw [ha'] at hs
      exact absurd hs (by simp)
    · simp [begin, hv] at ha
  past := by simp [begin]

theorem Explored.visit {f : Func} {rpo done todo : List Nat} {b : Nat} (hord : Ordered f rpo)
    (hsplit : rpo = done ++ b :: todo) {r r' : Progress Unit} (h : Explored f rpo done r)
    (hv : visitBlock f freeExecutor r b = some r') : Explored f rpo (done ++ [b]) r' := by
  have hb : b ∈ rpo := by rw [hsplit]; exact List.mem_append_right _ List.mem_cons_self
  have hbdone : b ∉ done := by
    rw [mem_done_iff hord.nodup hsplit]
    exact Nat.lt_irrefl _
  -- something has arrived: the start, or the edge from the parent
  have harrived : r.incoming b ≠ [] := by
    by_cases hentry : b = f.cfg.entry
    · rw [hentry]
      exact h.seed (hentry ▸ hbdone)
    · obtain ⟨q, _, hedge, hlt, hdom⟩ := hord.parent b hb hentry
      exact h.waiting q ((mem_done_iff hord.nodup hsplit).mpr hlt) b hbdone hedge hdom
  rcases visitBlock_cases hv with ⟨hnil, _⟩ | ⟨_, rfl⟩
  · exact absurd hnil harrived
  have hkeep : ∀ x, x ≠ b → r.incoming x ≠ [] → (process f freeExecutor r b).incoming x ≠ [] := by
    intro x hxb hx
    obtain ⟨a, ha⟩ := List.exists_mem_of_ne_nil _ hx
    exact List.ne_nil_of_mem (mem_incoming_process.mpr (.inl ⟨hxb, ha⟩))
  constructor
  · intro x hx
    rcases List.mem_append.mp hx with hx | hx
    · obtain ⟨w, hw, hwx⟩ := h.visited x hx
      exact ⟨w, mem_visits_process.mpr (.inl hw), hwx⟩
    · rw [List.mem_singleton.mp hx]
      exact ⟨_, mem_visits_process.mpr (.inr rfl), rfl⟩
  · intro hentry
    rw [List.mem_append, List.mem_singleton, not_or] at hentry
    exact hkeep _ hentry.2 (h.seed hentry.1)
  · intro q hq x hx hedge hdom
    rw [List.mem_append, List.mem_singleton, not_or] at hx
    rcases List.mem_append.mp hq with hq | hq
    · exact hkeep x hx.2 (h.waiting q hq x hx.1 hedge hdom)
    · rw [List.mem_singleton.mp hq] at hedge hdom
      obtain ⟨g, hg⟩ := mem_outEdges.mpr hedge
      have hback : isBackEdge f b x = false := by
        rw [← Bool.not_eq_true, isBackEdge_iff hedge]
        exact hdom
      exact List.ne_nil_of_mem (mem_incoming_process.mpr (.inr ⟨g, hg, hback, takes_free b g, rfl⟩))
  · intro v a ha u g hs
    rcases mem_incoming_process.mp ha with ⟨_, ha⟩ | ⟨g', _, _, _, rfl⟩
    · exact List.mem_append_left _ (h.src v a ha u g hs)
    · have hub : b = u := (Prod.mk.inj (Option.some.inj hs)).1
      rw [← hub]
      exact List.mem_append_right _ (List.mem_singleton.mpr rfl)
  · intro w hw a ha u g hs
    rcases mem_visits_process.mp hw with hw | rfl
    · exact h.past w hw a ha u g hs
    · exact (mem_done_iff hord.nodup hsplit).mp (h.src b a ha u g hs)

theorem forward_of_coversEdges {f : Func} (h : CoversEdges f freeExecutor) : Forward f := by
  intro rpo hrpo u v hu hedge hdom
  have hlt : u < f.cfg.nodeCount := Adj.edge_lt hedge
  obtain ⟨rpo', hrpo', hord⟩ := reversePostorder_ordered f (Nat.zero_lt_of_lt hlt)
  obtain rfl : rpo = rpo' := Option.some.inj (hrpo.symm.trans hrpo')
  obtain ⟨r, hr⟩ := runMerged_free f
  have hexp : Explored f rpo rpo r := runMerged_invariant (explored_begin f rpo) hrpo
    (fun _ _ _ _ _ hsplit hI hv => hI.visit hord hsplit hv) hr
  obtain ⟨w, hw, hwu⟩ := hexp.visited u ((hord.mem_iff u).mpr ⟨hlt, hu⟩)
  subst hwu
  obtain ⟨g, hg⟩ := mem_outEdges.mpr hedge
  have hback : isBackEdge f w.block v = false := by
    rw [← Bool.not_eq_true, isBackEdge_iff hedge]
    exact hdom
  obtain ⟨w', hw', rfl, harr⟩ := h r hr w hw (v, g) hg hback (takes_free _ g)
  exact hexp.past w' hw' _ harr w.block g rfl

/-! ## Dead blocks -/

/-- The executions of the function, seen at the ends of blocks. -/
structure Concrete (Conc : Type) where
  start : Conc → Prop
  next : Nat → Guard → Conc → Nat → Conc → Prop

inductive Concrete.Reaches {Conc : Type} (f : Func) (M : Concrete Conc) : Nat → Conc → Prop
  | start {c : Conc} : M.start c → Reaches f M f.cfg.entry c
  | step {u v : Nat} {g : Guard} {c c' : Conc} : Reaches f M u c → (v, g) ∈ outEdges f u →
      M.next u g c v c' → Reaches f M v c'

/-- The executor is right within a block: what it makes of the arrivals describes every execution that
    came by one of them, at a header moreover every execution that came by a cut edge, and a branch
    it proves infeasible is not taken. -/
structure Describes {Conc : Type} (f : Func) (E : Executor St) (M : Concrete Conc)
    (covers : St → Conc → Prop) : Prop where
  start : ∀ as c, ⟨none, E.entry⟩ ∈ as → M.start c → covers (E.enter f.cfg.entry as) c
  edge : ∀ u g v st as c c', (v, g) ∈ outEdges f u → ⟨some (u, g), st⟩ ∈ as → covers st c →
    M.next u g c v c' → covers (E.enter v as) c'
  header : ∀ u g v as c c', (v, g) ∈ outEdges f u → isBackEdge f u v = true → as ≠ [] →
    M.Reaches f u c → M.next u g c v c' → covers (E.enter v as) c'
  infeasible : ∀ u g st c v c', E.infeasible u g st = true → covers st c → ¬M.next u g c v c'

/-- No execution enters a block that is reported dead. -/
def DeadUnreachable (f : Func) (E : Executor St) : Prop :=
  ∀ (Conc : Type) (M : Concrete Conc) (covers : St → Conc → Prop), Describes f E M covers →
    ∀ r, runMerged f E = some r → ∀ n, dead r n → ∀ c, ¬M.Reaches f n c

theorem reaches_visited {Conc : Type} {f : Func} {E : Executor St} {M : Concrete Conc}
    {covers : St → Conc → Prop} (hM : Describes f E M covers) {rpo : List Nat} (hord : Ordered f rpo)
    (hpos : 0 < f.cfg.nodeCount) {r : Progress St} (h : Covers f E rpo r) {n : Nat} {c : Conc}
    (hreach : M.Reaches f n c) : ∃ w ∈ r.visits, w.block = n ∧ covers w.state c := by
  induction hreach with
  | start hs =>
    have hentry : f.cfg.entry ∈ rpo := (hord.mem_iff _).mpr ⟨f.cfg.entry_lt hpos, Reach.root⟩
    rcases h.seed with hin | ⟨w, hw, hwb, harr⟩
    · exact absurd hin (h.late _ hentry _)
    · refine ⟨w, hw, hwb, ?_⟩
      rw [(h.entered w hw).2, hwb]
      exact hM.start _ _ harr hs
  | @step u v g c c' hu hg hnext ih =>
    obtain ⟨w, hw, rfl, hcov⟩ := ih
    have hedge : f.Edge w.block v := mem_outEdges.mp ⟨g, hg⟩
    obtain ⟨l, hl, hall⟩ := h.paths w hw
    cases hback : isBackEdge f w.block v with
    | true =>
      -- the header is on every way to the source, so it has been processed
      have hdom := (isBackEdge_iff hedge).mp hback
      obtain ⟨w', hw', rfl⟩ := hall v (hdom.2 l hl)
      refine ⟨w', hw', rfl, ?_⟩
      obtain ⟨hne, hst⟩ := h.entered w' hw'
      rw [hst]
      exact hM.header _ _ _ _ _ _ hg hback hne hu hnext
    | false =>
      have htakes : takes E w.block g w.state = true := by
        rw [takes, Bool.or_eq_true, Bool.not_eq_true']
        by_contra hnot
        rw [not_or, Bool.not_eq_false] at hnot
        exact hM.infeasible _ _ _ _ _ _ hnot.2 hcov hnext
      rcases h.arrived w hw (v, g) hg hback htakes with hin | ⟨w', hw', hwv, harr⟩
      · have hv : v ∈ rpo := (hord.mem_iff v).mpr ⟨f.cfg.closed _ _ hedge, (Path.reach hl).step hedge⟩
        exact absurd hin (h.late v hv _)
      · refine ⟨w', hw', hwv, ?_⟩
        rw [(h.entered w' hw').2, hwv]
        exact hM.edge _ _ _ _ _ _ _ hg harr hcov hnext

theorem deadUnreachable_of_forward {f : Func} (hfwd : Forward f) (E : Executor St) :
    DeadUnreachable f E := by
  intro Conc M covers hM r hr n hdead c hreach
  by_cases hpos : 0 < f.cfg.nodeCount
  · obtain ⟨rpo, hrpo, hord⟩ := reversePostorder_ordered f hpos
    have hcov := Covers.final hfwd hrpo hord.nodup (fun x hx => ((hord.mem_iff x).mp hx).2) hr
    obtain ⟨w, hw, rfl, _⟩ := reaches_visited hM hord hpos hcov hreach
    exact hdead.2 (List.mem_map_of_mem hw)
  · -- nothing is pruned where there are no blocks
    have hempty : f.cfg.reversePostorder = some [] := by
      rw [Cfg.reversePostorder, Cfg.postorder, if_pos (Nat.eq_zero_of_not_pos hpos)]
      rfl
    rw [runMerged, hempty] at hr
    rw [← Option.some.inj hr] at hdead
    exact absurd hdead.1 List.not_mem_nil

theorem coversEdges_of_forward {f : Func} (hfwd : Forward f) (E : Executor St) : CoversEdges f E := by
  intro r hr w hw e he hback htakes
  have hedge : f.Edge w.block e.1 := mem_outEdges.mp ⟨e.2, he⟩
  obtain ⟨rpo, hrpo, hord⟩ := reversePostorder_ordered f (Nat.zero_lt_of_lt (Adj.edge_lt hedge))
  have hcov := Covers.final hfwd hrpo hord.nodup (fun x hx => ((hord.mem_iff x).mp hx).2) hr
  rcases hcov.arrived w hw e he hback htakes with hin | harr
  · have hlive := ((hord.mem_iff _).mp (hcov.blocks w hw)).2
    have hv : e.1 ∈ rpo := (hord.mem_iff _).mpr ⟨f.cfg.closed _ _ hedge, hlive.step hedge⟩
    exact absurd hin (hcov.late _ hv _)
  · exact harr

/-- **Coverage.** Whatever happens within the blocks: every edge that is not cut and not proved
    infeasible arrives in time and the blocks reported dead are never entered, exactly if every
    edge between reachable blocks that does not lead to a dominator of its source goes forward in
    reverse postorder. -/
theorem runMerged_covers_iff (f : Func) :
    (∀ (St : Type) (E : Executor St), CoversEdges f E ∧ DeadUnreachable f E) ↔ Forward f := by
  constructor
  · exact fun h => forward_of_coversEdges (h Unit freeExecutor).1
  · exact fun hfwd St E => ⟨coversEdges_of_forward hfwd E, deadUnreachable_of_forward hfwd E⟩

/-- A loop that is entered at both of its blocks: `0 → 1 | 2`, `1 → 2`, `2 → 1 | 3`. -/
def twoEntries : Func where
  name := "two_entries"
  params := [(0, .bool), (1, .bool)]
  retTy := .unit
  blocks := [⟨0, [], [], .condBr (.reg 0) 1 [] 2 []⟩, ⟨1, [], [], .br 2 []⟩,
    ⟨2, [], [], .condBr (.reg 1) 1 [] 3 []⟩, ⟨3, [], [], .ret none⟩]
  entry := 0

/-- The first condition is known to be false. -/
def knownFalse : Executor Unit :=
  ⟨(), fun _ _ => (), fun u g _ => decide (u = 0) && decide (g = .thenSide), fun _ => false⟩

/-- The executions that do not take it. -/
def notTaken : Concrete Unit :=
  ⟨fun _ => True, fun u g _ _ _ => ¬(u = 0 ∧ g = .thenSide)⟩

/-- Block 1 is reported dead, and is entered from block 2. -/
theorem runMerged_dead_reachable : ¬DeadUnreachable twoEntries knownFalse := by
  intro h
  have hdesc : Describes twoEntries knownFalse notTaken fun _ _ => True := by
    refine ⟨fun _ _ _ _ => trivial, fun _ _ _ _ _ _ _ _ _ _ _ => trivial,
      fun _ _ _ _ _ _ _ _ _ _ _ => trivial, fun u g st c v c' hinf _ hnext => hnext ?_⟩
    simpa [knownFalse] using hinf
  have hrun : ∃ r, runMerged twoEntries knownFalse = some r ∧ dead r 1 := by
    refine ⟨(runMerged twoEntries knownFalse).get (by decide +kernel), by simp, ?_, ?_⟩
    · decide +kernel
    · decide +kernel
  obtain ⟨r, hr, hdead⟩ := hrun
  refine h Unit notTaken _ hdesc r hr 1 hdead () ?_
  refine .step (u := 2) (g := .thenSide) (c := ()) ?_ (by decide +kernel) (by simp [notTaken])
  refine .step (u := 0) (g := .elseSide) (c := ()) ?_ (by decide +kernel) (by simp [notTaken])
  exact .start trivial

end Merged

end Csolver
