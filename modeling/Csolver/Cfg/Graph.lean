import Csolver.Lib.Paths
import Mathlib.Algebra.Order.BigOperators.Group.Finset
import Mathlib.Algebra.Order.Ring.Int

/-!
# Control-flow graphs (`crates/cfg/src/graph.rs`)

Nodes are dense indices. The postorder walk is the source's explicit-stack depth-first search; the
same code stands a second time in `dominators.rs`. What later analyses need of it is
`postorder_spec`: it returns, it lists each reachable node once, and every node but the root has a
predecessor that comes later.
-/

namespace Csolver

open Lib

abbrev Adj := List (List Nat)

namespace Adj

def row (succ : Adj) (node : Nat) : List Nat := succ.getD node []

def Edge (succ : Adj) (a b : Nat) : Prop := b ∈ succ.row a

def Closed (succ : Adj) : Prop := ∀ a b, succ.Edge a b → b < succ.length

/-- The predecessor lists, as pushing the edges one after the other makes them. -/
def reverse (succ : Adj) : Adj :=
  (List.range succ.length).map fun b =>
    (List.range succ.length).flatMap fun a => ((succ.row a).filter (· = b)).map fun _ => a

theorem edge_lt {succ : Adj} {a b : Nat} (h : succ.Edge a b) : a < succ.length := by
  by_contra hge
  rw [Edge, row, List.getD_eq_getElem?_getD, List.getElem?_eq_none (Nat.not_lt.mp hge)] at h
  exact absurd h List.not_mem_nil

theorem row_map_range {f : Nat → List Nat} {n i : Nat} (h : i < n) :
    row ((List.range n).map f) i = f i := by
  rw [row, List.getD_eq_getElem?_getD, List.getElem?_map, List.getElem?_range h]
  rfl

theorem length_reverse (succ : Adj) : succ.reverse.length = succ.length := by simp [reverse]

theorem reverse_edge {succ : Adj} (h : succ.Closed) (a b : Nat) :
    succ.reverse.Edge b a ↔ succ.Edge a b := by
  by_cases hb : b < succ.length
  · rw [Edge, reverse, row_map_range hb]
    simp only [List.mem_flatMap, List.mem_range, List.mem_map, List.mem_filter, decide_eq_true_eq]
    constructor
    · rintro ⟨x, -, y, ⟨hy, rfl⟩, rfl⟩
      exact hy
    · exact fun he => ⟨a, edge_lt he, b, ⟨he, rfl⟩, rfl⟩
  · refine iff_of_false (fun he => hb ?_) fun he => hb (h a b he)
    rw [← length_reverse succ]
    exact edge_lt he

theorem closed_of_rows {succ : Adj} (h : ∀ r ∈ succ, ∀ b ∈ r, b < succ.length) : succ.Closed := by
  intro a b hab
  have ha := edge_lt hab
  have hrow : succ.row a = succ[a] := by
    rw [row, List.getD_eq_getElem?_getD, List.getElem?_eq_getElem ha, Option.getD_some]
  refine h _ (List.getElem_mem ha) b ?_
  rw [← hrow]
  exact hab

end Adj

/-- A control-flow graph; `pred` lists the edges of `succ` backwards. -/
structure Cfg where
  succ : Adj
  pred : Adj
  entry : Nat
  entry_lt : 0 < succ.length → entry < succ.length
  closed : succ.Closed
  pred_iff : ∀ a b, pred.Edge b a ↔ succ.Edge a b

namespace Cfg

/-- The graph of the successor lists. -/
def ofSucc (succ : Adj) (entry : Nat) (hentry : 0 < succ.length → entry < succ.length)
    (hclosed : succ.Closed) : Cfg :=
  ⟨succ, succ.reverse, entry, hentry, hclosed, fun a b => Adj.reverse_edge hclosed a b⟩

def nodeCount (cfg : Cfg) : Nat := cfg.succ.length

def exits (cfg : Cfg) : List Nat := (List.range cfg.nodeCount).filter fun n => (cfg.succ.row n).isEmpty

end Cfg

/-! ## Postorder -/

/-- The state of the walk: a frame holds a node and the next successor to look at, the top frame
    first. -/
structure Dfs where
  visited : Nat → Bool
  order : List Nat
  stack : List (Nat × Nat)

namespace Dfs

def start (root : Nat) : Dfs := ⟨fun x => x == root, [], [(root, 0)]⟩

def step (succ : Adj) (d : Dfs) : Option Dfs :=
  match d.stack with
  | [] => none
  | (node, next) :: rest =>
    match (succ.row node)[next]? with
    | some s =>
      if d.visited s then some { d with stack := (node, next + 1) :: rest }
      else some { d with
        visited := Function.update d.visited s true
        stack := (s, 0) :: (node, next + 1) :: rest }
    | none => some { d with order := d.order ++ [node], stack := rest }

def run (succ : Adj) : Nat → Dfs → Option (List Nat)
  | 0, _ => none
  | fuel + 1, d =>
    match d.step succ with
    | none => some d.order
    | some d => run succ fuel d

end Dfs

/-- `postorder`; every step looks at an edge or leaves a node. -/
def postorder (root : Nat) (succ : Adj) : Option (List Nat) :=
  Dfs.run succ ((List.range succ.length).map fun i => (succ.row i).length + 1).sum.succ
    (Dfs.start root)

/-- `Cfg::postorder`, empty on an empty graph. -/
def Cfg.postorder (cfg : Cfg) : Option (List Nat) :=
  if cfg.nodeCount = 0 then some [] else Csolver.postorder cfg.entry cfg.succ

def Cfg.reversePostorder (cfg : Cfg) : Option (List Nat) := cfg.postorder.map List.reverse

namespace Dfs

/-! ### The step, by its three cases -/

theorem step_cases {succ : Adj} {d d' : Dfs} (h : d.step succ = some d') :
    ∃ node next rest, d.stack = (node, next) :: rest ∧
      ((∃ s, (succ.row node)[next]? = some s ∧ d.visited s = true ∧
          d' = { d with stack := (node, next + 1) :: rest }) ∨
        (∃ s, (succ.row node)[next]? = some s ∧ d.visited s = false ∧
          d' = { d with
            visited := Function.update d.visited s true
            stack := (s, 0) :: (node, next + 1) :: rest }) ∨
        ((succ.row node).length ≤ next ∧
          d' = { d with order := d.order ++ [node], stack := rest })) := by
  unfold step at h
  cases hst : d.stack with
  | nil =>
    rw [hst] at h
    exact absurd h (by simp)
  | cons f rest =>
    obtain ⟨node, next⟩ := f
    rw [hst] at h
    refine ⟨node, next, rest, rfl, ?_⟩
    cases hs : (succ.row node)[next]? with
    | none =>
      simp only [hs, Option.some.injEq] at h
      exact .inr (.inr ⟨List.getElem?_eq_none_iff.mp hs, h.symm⟩)
    | some s =>
      simp only [hs] at h
      cases hv : d.visited s with
      | true =>
        simp only [hv, if_true, Option.some.injEq] at h
        exact .inl ⟨s, rfl, hv, h.symm⟩
      | false =>
        simp only [hv, Bool.false_eq_true, if_false, Option.some.injEq] at h
        exact .inr (.inl ⟨s, rfl, hv, h.symm⟩)

theorem step_none {succ : Adj} {d : Dfs} (h : d.step succ = none) : d.stack = [] := by
  unfold step at h
  cases hst : d.stack with
  | nil => rfl
  | cons f rest =>
    rw [hst] at h
    cases hs : (succ.row f.1)[f.2]? with
    | none =>
      simp only [hs] at h
      exact absurd h (by simp)
    | some s =>
      simp only [hs] at h
      cases hv : d.visited s <;> simp [hv] at h

/-! ### The invariant -/

/-- The nodes on the stack, the innermost first. -/
def active (d : Dfs) : List Nat := d.stack.map (·.1)

/-- What holds between two steps of a walk from `root`. -/
structure Walk (succ : Adj) (root : Nat) (d : Dfs) : Prop where
  visited_iff : ∀ x, d.visited x = true ↔ x ∈ d.order ∨ x ∈ d.active
  nodup : (d.order ++ d.active).Nodup
  reach : ∀ x, d.visited x = true → Reach succ.Edge root x
  rooted : d.visited root = true
  /-- everything a finished node leads to has been visited, -/
  finished : ∀ x ∈ d.order, ∀ s, succ.Edge x s → d.visited s = true
  /-- and everything an open node led to so far. -/
  begun : ∀ f ∈ d.stack, ∀ i < f.2, ∀ s, (succ.row f.1)[i]? = some s → d.visited s = true
  /-- An open node was entered from the one below it, -/
  entered : d.active.IsChain fun s v => succ.Edge v s
  bottom : ∀ x, d.active.getLast? = some x → x = root
  /-- and a finished one from a node that is still open or finished later. -/
  parent : ∀ x ∈ d.order, x ≠ root → ∃ q, succ.Edge q x ∧
    (q ∈ d.active ∨ q ∈ d.order ∧ d.order.idxOf x < d.order.idxOf q)

theorem start_walk (succ : Adj) (root : Nat) : Walk succ root (start root) where
  visited_iff x := by simp [start, active]
  nodup := by simp [start, active]
  reach x h := by
    obtain rfl : x = root := beq_iff_eq.mp h
    exact Reach.root
  rooted := beq_self_eq_true root
  finished x h := absurd h List.not_mem_nil
  begun f h i hi := by
    rw [List.mem_singleton.mp h] at hi
    exact absurd hi (Nat.not_lt_zero i)
  entered := List.isChain_singleton _
  bottom x h := by simpa [start, active] using h.symm
  parent x h := absurd h List.not_mem_nil

theorem edge_of_getElem? {succ : Adj} {v i s : Nat} (h : (succ.row v)[i]? = some s) :
    succ.Edge v s := List.mem_of_getElem? h

theorem Walk.advance {succ : Adj} {root : Nat} {d : Dfs} (h : Walk succ root d) {node next s : Nat}
    {rest : List (Nat × Nat)} (hst : d.stack = (node, next) :: rest)
    (hs : (succ.row node)[next]? = some s) (hv : d.visited s = true) :
    Walk succ root { d with stack := (node, next + 1) :: rest } := by
  have hopen : active { d with stack := (node, next + 1) :: rest } = d.active := by
    simp only [active, hst, List.map_cons]
  refine
    { visited_iff := by rw [hopen]; exact h.visited_iff
      nodup := by rw [hopen]; exact h.nodup
      reach := h.reach
      rooted := h.rooted
      finished := h.finished
      begun := ?_
      entered := by rw [hopen]; exact h.entered
      bottom := by rw [hopen]; exact h.bottom
      parent := by rw [hopen]; exact h.parent }
  intro f hf i hi t ht
  rcases List.mem_cons.mp hf with rfl | hf
  · rcases Nat.lt_succ_iff_lt_or_eq.mp hi with hi | rfl
    · exact h.begun (node, next) (by rw [hst]; exact List.mem_cons_self) i hi t ht
    · rw [Option.some.inj (ht.symm.trans hs)]
      exact hv
  · exact h.begun f (by rw [hst]; exact List.mem_cons_of_mem _ hf) i hi t ht

theorem Walk.enter {succ : Adj} {root : Nat} {d : Dfs} (h : Walk succ root d) {node next s : Nat}
    {rest : List (Nat × Nat)} (hst : d.stack = (node, next) :: rest)
    (hs : (succ.row node)[next]? = some s) (hv : d.visited s = false) :
    Walk succ root { d with
      visited := Function.update d.visited s true
      stack := (s, 0) :: (node, next + 1) :: rest } := by
  have hnew : ¬(s ∈ d.order ∨ s ∈ d.active) := by
    rw [← h.visited_iff, hv]
    decide
  have hold : d.active = node :: rest.map (·.1) := by rw [active, hst, List.map_cons]
  have hmono : ∀ x, d.visited x = true → Function.update d.visited s true x = true := by
    intro x hx
    rw [Function.update_apply]
    split
    · rfl
    · exact hx
  have hnode : d.visited node = true :=
    (h.visited_iff node).mpr (.inr (by rw [hold]; exact List.mem_cons_self))
  refine
    { visited_iff := ?_
      nodup := ?_
      reach := ?_
      rooted := hmono _ h.rooted
      finished := fun x hx t ht => hmono t (h.finished x hx t ht)
      begun := ?_
      entered := ?_
      bottom := ?_
      parent := ?_ }
  · intro x
    show Function.update d.visited s true x = true ↔ x ∈ d.order ∨ x ∈ s :: node :: rest.map (·.1)
    rw [← hold, List.mem_cons, Function.update_apply]
    by_cases hx : x = s
    · simp [hx]
    · rw [if_neg hx, h.visited_iff]
      simp [hx]
  · show (d.order ++ s :: node :: rest.map (·.1)).Nodup
    rw [← hold]
    refine List.nodup_middle.mpr (List.nodup_cons.mpr ⟨?_, h.nodup⟩)
    exact fun hmem => hnew (List.mem_append.mp hmem)
  · intro x hx
    by_cases he : x = s
    · rw [he]
      exact (h.reach node hnode).step (edge_of_getElem? hs)
    · have hx' : Function.update d.visited s true x = true := hx
      rw [Function.update_of_ne he] at hx'
      exact h.reach x hx'
  · intro f hf i hi t ht
    rcases List.mem_cons.mp hf with rfl | hf
    · exact absurd hi (Nat.not_lt_zero i)
    · rcases List.mem_cons.mp hf with rfl | hf
      · rcases Nat.lt_succ_iff_lt_or_eq.mp hi with hi | rfl
        · exact hmono t (h.begun (node, next) (by rw [hst]; exact List.mem_cons_self) i hi t ht)
        · rw [Option.some.inj (ht.symm.trans hs)]
          exact Function.update_self ..
      · exact hmono t (h.begun f (by rw [hst]; exact List.mem_cons_of_mem _ hf) i hi t ht)
  · show (s :: node :: rest.map (·.1)).IsChain _
    rw [List.isChain_cons_cons, ← hold]
    exact ⟨edge_of_getElem? hs, h.entered⟩
  · intro x hx
    apply h.bottom
    rw [hold]
    exact hx
  · intro x hx hne
    obtain ⟨q, hq, hplace⟩ := h.parent x hx hne
    refine ⟨q, hq, hplace.imp_left fun hq => ?_⟩
    show q ∈ s :: node :: rest.map (·.1)
    rw [← hold]
    exact List.mem_cons_of_mem _ hq

theorem Walk.leave {succ : Adj} {root : Nat} {d : Dfs} (h : Walk succ root d) {node next : Nat}
    {rest : List (Nat × Nat)} (hst : d.stack = (node, next) :: rest)
    (hlen : (succ.row node).length ≤ next) :
    Walk succ root { d with order := d.order ++ [node], stack := rest } := by
  have hold : d.active = node :: rest.map (·.1) := by rw [active, hst, List.map_cons]
  have hfresh : node ∉ d.order := by
    have hnd := h.nodup
    rw [hold] at hnd
    exact fun hmem => (List.nodup_append.mp hnd).2.2 node hmem node List.mem_cons_self rfl
  have hidx : ∀ x ∈ d.order, (d.order ++ [node]).idxOf x = d.order.idxOf x := fun x hx =>
    List.idxOf_append_of_mem hx
  have hlast : (d.order ++ [node]).idxOf node = d.order.length := by
    rw [List.idxOf_append_of_notMem hfresh, List.idxOf_cons_self, Nat.add_zero]
  refine
    { visited_iff := ?_
      nodup := ?_
      reach := h.reach
      rooted := h.rooted
      finished := ?_
      begun := fun f hf => h.begun f (by rw [hst]; exact List.mem_cons_of_mem _ hf)
      entered := ?_
      bottom := ?_
      parent := ?_ }
  · intro x
    show d.visited x = true ↔ x ∈ d.order ++ [node] ∨ x ∈ rest.map (·.1)
    rw [h.visited_iff, hold, List.mem_append, List.mem_singleton, List.mem_cons, or_assoc]
  · show ((d.order ++ [node]) ++ rest.map (·.1)).Nodup
    rw [List.append_assoc, List.singleton_append, ← hold]
    exact h.nodup
  · intro x hx s hs
    rcases List.mem_append.mp hx with hx | hx
    · exact h.finished x hx s hs
    · rw [List.mem_singleton.mp hx] at hs
      obtain ⟨i, hi, he⟩ := List.mem_iff_getElem.mp hs
      refine h.begun (node, next) (by rw [hst]; exact List.mem_cons_self) i
        (Nat.lt_of_lt_of_le hi hlen) s ?_
      rw [List.getElem?_eq_getElem hi, he]
  · have hchain := h.entered
    rw [hold] at hchain
    exact hchain.tail
  · intro x hx
    apply h.bottom
    rw [hold]
    have hne : rest.map (·.1) ≠ [] := by
      rintro he
      have : (rest.map (·.1)).getLast? = some x := hx
      rw [he] at this
      exact absurd this (by simp)
    rw [List.getLast?_cons_of_ne_nil hne]
    exact hx
  · intro x hx hne
    rcases List.mem_append.mp hx with hxo | hx
    · -- an older node: its parent may be the one that is left now
      obtain ⟨q, hq, hplace⟩ := h.parent x hxo hne
      refine ⟨q, hq, ?_⟩
      rcases hplace with hact | ⟨hord, hlt⟩
      · rw [hold] at hact
        rcases List.mem_cons.mp hact with rfl | hact
        · refine .inr ⟨List.mem_append_right _ List.mem_cons_self, ?_⟩
          show (d.order ++ [q]).idxOf x < (d.order ++ [q]).idxOf q
          rw [hidx x hxo, hlast]
          exact List.idxOf_lt_length_of_mem hxo
        · exact .inl hact
      · refine .inr ⟨List.mem_append_left _ hord, ?_⟩
        show (d.order ++ [node]).idxOf x < (d.order ++ [node]).idxOf q
        rw [hidx x hxo, hidx q hord]
        exact hlt
    · -- the node itself was entered from the one below
      rw [List.mem_singleton.mp hx] at hne ⊢
      have hchain := h.entered
      rw [hold] at hchain
      cases hrest : rest.map (·.1) with
      | nil =>
        refine absurd (h.bottom node ?_) hne
        rw [hold, hrest]
        rfl
      | cons q below =>
        rw [hrest, List.isChain_cons_cons] at hchain
        refine ⟨q, hchain.1, .inl ?_⟩
        show q ∈ rest.map (·.1)
        rw [hrest]
        exact List.mem_cons_self

theorem Walk.step {succ : Adj} {root : Nat} {d d' : Dfs} (h : Walk succ root d)
    (hstep : d.step succ = some d') : Walk succ root d' := by
  obtain ⟨node, next, rest, hst, ⟨s, hs, hv, rfl⟩ | ⟨s, hs, hv, rfl⟩ | ⟨hlen, rfl⟩⟩ :=
    step_cases hstep
  · exact h.advance hst hs hv
  · exact h.enter hst hs hv
  · exact h.leave hst hlen

/-! ### Termination -/

/-- The edges and nodes still to be looked at. -/
def work (succ : Adj) (d : Dfs) : Nat :=
  (∑ x ∈ Finset.range succ.length, if d.visited x then 0 else (succ.row x).length + 1) +
    (d.stack.map fun f => (succ.row f.1).length - f.2 + 1).sum

theorem work_mark {succ : Adj} {visited : Nat → Bool} {s : Nat} (hs : s < succ.length)
    (hv : visited s = false) :
    (∑ x ∈ Finset.range succ.length,
      if Function.update visited s true x then 0 else (succ.row x).length + 1) +
        ((succ.row s).length + 1) =
    ∑ x ∈ Finset.range succ.length, if visited x then 0 else (succ.row x).length + 1 := by
  have hmem : s ∈ Finset.range succ.length := Finset.mem_range.mpr hs
  rw [← Finset.sum_erase_add _ _ hmem, ← Finset.sum_erase_add _ _ hmem]
  have hrest : ∀ x ∈ (Finset.range succ.length).erase s,
      (if Function.update visited s true x then 0 else (succ.row x).length + 1) =
        if visited x then 0 else (succ.row x).length + 1 := by
    intro x hx
    rw [Function.update_of_ne (Finset.ne_of_mem_erase hx)]
  rw [Finset.sum_congr rfl hrest, Function.update_self, hv]
  simp

theorem step_work {succ : Adj} (hclosed : succ.Closed) {d d' : Dfs}
    (hstep : d.step succ = some d') : d'.work succ + 1 = d.work succ := by
  obtain ⟨node, next, rest, hst, ⟨s, hs, -, rfl⟩ | ⟨s, hs, hv, rfl⟩ | ⟨hlen, rfl⟩⟩ :=
    step_cases hstep
  · have hlt : next < (succ.row node).length := (List.getElem?_eq_some_iff.mp hs).1
    simp only [work, hst, List.map_cons, List.sum_cons]
    omega
  · have hlt : next < (succ.row node).length := (List.getElem?_eq_some_iff.mp hs).1
    have hmark := work_mark (hclosed node s (edge_of_getElem? hs)) hv
    simp only [work, hst, List.map_cons, List.sum_cons]
    omega
  · simp only [work, hst, List.map_cons, List.sum_cons]
    omega

theorem run_spec {succ : Adj} (hclosed : succ.Closed) {root : Nat} (fuel : Nat) : ∀ {d : Dfs},
    Walk succ root d → d.work succ < fuel →
    ∃ d', run succ fuel d = some d'.order ∧ Walk succ root d' ∧ d'.stack = [] := by
  induction fuel with
  | zero => exact fun _ h => absurd h (Nat.not_lt_zero _)
  | succ fuel ih =>
    intro d h hlt
    rw [run]
    cases hstep : d.step succ with
    | none => exact ⟨d, rfl, h, step_none hstep⟩
    | some d' =>
      have hwork := step_work hclosed hstep
      exact ih (h.step hstep) (by omega)

end Dfs

/-- **The postorder walk** returns; it lists the nodes that can be reached from the root, each once,
    and every other node than the root after one of its predecessors' later entries. -/
theorem postorder_spec {succ : Adj} (hclosed : succ.Closed) {root : Nat} (hroot : root < succ.length) :
    ∃ order, postorder root succ = some order ∧ order.Nodup ∧
      (∀ x, x ∈ order ↔ Reach succ.Edge root x) ∧
      ∀ x ∈ order, x ≠ root → ∃ q ∈ order, succ.Edge q x ∧ order.idxOf x < order.idxOf q := by
  have hwork : (Dfs.start root).work succ <
      ((List.range succ.length).map fun i => (succ.row i).length + 1).sum.succ := by
    have hmark := @Dfs.work_mark succ (fun _ => false) root hroot rfl
    have hstart : (Dfs.start root).visited = Function.update (fun _ => false) root true := by
      funext x
      rw [Function.update_apply]
      by_cases hx : x = root <;> simp [Dfs.start, hx]
    have hsum : (∑ x ∈ Finset.range succ.length, ((succ.row x).length + 1)) =
        ((List.range succ.length).map fun i => (succ.row i).length + 1).sum := rfl
    simp only [Bool.false_eq_true, if_false] at hmark
    rw [Dfs.work, hstart]
    simp only [Dfs.start, List.map_cons, List.map_nil, List.sum_cons, List.sum_nil]
    omega
  obtain ⟨d, hrun, hd, hstack⟩ := Dfs.run_spec hclosed _ (Dfs.start_walk succ root) hwork
  have hactive : d.active = [] := by rw [Dfs.active, hstack, List.map_nil]
  have hvisited : ∀ x, d.visited x = true ↔ x ∈ d.order := by
    intro x
    rw [hd.visited_iff, hactive]
    simp
  refine ⟨d.order, hrun, ?_, fun x => ⟨fun hx => hd.reach x ((hvisited x).mpr hx), ?_⟩, ?_⟩
  · have hnd := hd.nodup
    rwa [hactive, List.append_nil] at hnd
  · apply Reach.induction
    · exact (hvisited root).mp hd.rooted
    · exact fun p b hp hpb => (hvisited b).mp (hd.finished p hp b hpb)
  · intro x hx hne
    obtain ⟨q, hq, hplace⟩ := hd.parent x hx hne
    rw [hactive] at hplace
    obtain ⟨hord, hlt⟩ := hplace.resolve_left List.not_mem_nil
    exact ⟨q, hord, hq, hlt⟩

theorem Cfg.reversePostorder_spec (cfg : Cfg) :
    ∃ rpo, cfg.reversePostorder = some rpo ∧ rpo.Nodup ∧
      ∀ x, x ∈ rpo ↔ x < cfg.nodeCount ∧ Reach cfg.succ.Edge cfg.entry x := by
  unfold Cfg.reversePostorder Cfg.postorder
  by_cases hn : cfg.nodeCount = 0
  · rw [if_pos hn, hn]
    exact ⟨[], rfl, List.nodup_nil, fun x => by simp⟩
  · rw [if_neg hn]
    have hentry := cfg.entry_lt (Nat.pos_of_ne_zero hn)
    obtain ⟨post, hpost, hnd, hmem, -⟩ := postorder_spec cfg.closed hentry
    refine ⟨post.reverse, by rw [hpost]; rfl, List.nodup_reverse.mpr hnd, fun x => ?_⟩
    rw [List.mem_reverse, hmem]
    refine ⟨fun hx => ⟨?_, hx⟩, fun hx => hx.2⟩
    rcases hx.cases with rfl | ⟨p, -, hpx⟩
    · exact hentry
    · exact cfg.closed p x hpx

end Csolver
