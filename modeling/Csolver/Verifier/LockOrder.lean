import Csolver.Lib.Components
import Mathlib.Algebra.Order.Ring.Int
import Mathlib.Data.List.Dedup
import Mathlib.Data.List.Pairwise
import Mathlib.Data.String.Basic

/-!
# Lock-order cycles (`crates/verifier/src/lockorder.rs`)

The edges `held class → acquired class` of all functions form a graph over lock classes. Its strongly
connected components of two or more classes are reported, each with the functions that contributed an edge
inside it. The components are found by Tarjan's algorithm with an explicit work stack.
-/

namespace Csolver.LockOrder

/-! ## The graph -/

/-- An observed lock-order edge, tagged with the function it was seen in. -/
structure TaggedEdge where
  function : String
  fromClass : String
  toClass : String

structure LockOrderCycle where
  /-- The classes of the cycle, sorted. -/
  classes : List String
  /-- The functions that contribute an edge within it, sorted and without repetitions. -/
  functions : List String
deriving DecidableEq, Repr

/-- The graph under construction. The number of a class, which the source also keeps in a map, is its
position in `names`. -/
structure Graph where
  names : List String
  adj : List (List Nat)
  edgeFns : List ((Nat × Nat) × List String)

def Graph.empty : Graph := ⟨[], [], []⟩

/-- The number of a class, and the names with it. -/
def node (s : String) (names : List String) : Nat × List String :=
  match names.findIdx? (· == s) with
  | some i => (i, names)
  | none => (names.length, names ++ [s])

def ensure (adj : List (List Nat)) (n : Nat) : List (List Nat) :=
  adj ++ List.replicate (n + 1 - adj.length) []

/-- `edge_fns.entry(uv).or_default().push(f)`. -/
def pushFn (uv : Nat × Nat) (f : String) :
    List ((Nat × Nat) × List String) → List ((Nat × Nat) × List String)
  | [] => [(uv, [f])]
  | (k, fns) :: rest => if k = uv then (k, fns ++ [f]) :: rest else (k, fns) :: pushFn uv f rest

def addEdge (g : Graph) (e : TaggedEdge) : Graph :=
  let u := node e.fromClass g.names
  let v := node e.toClass u.2
  { names := v.2
    adj := (ensure g.adj (max u.1 v.1)).modify u.1 (· ++ [v.1])
    edgeFns := pushFn (u.1, v.1) e.function g.edgeFns }

def graphOf (edges : List TaggedEdge) : Graph := edges.foldl addEdge .empty

/-! ## `tarjan_scc` -/

def succs (adj : List (List Nat)) (v : Nat) : List Nat := adj.getD v []

/-- A node and the index of its next neighbour. -/
abbrev Frame := Nat × Nat

structure State where
  /-- `none` is the `usize::MAX` of a node that was not visited. -/
  index : Nat → Option Nat
  low : Nat → Nat
  onStack : Nat → Bool
  /-- The last pushed node first. -/
  stack : List Nat
  nextIndex : Nat
  out : List (List Nat)

def State.init : State := ⟨fun _ => none, fun _ => 0, fun _ => false, [], 0, []⟩

def State.num (s : State) (v : Nat) : Nat := (s.index v).getD 0

def enter (v : Nat) (s : State) : State :=
  { s with
    index := Function.update s.index v (some s.nextIndex)
    low := Function.update s.low v s.nextIndex
    nextIndex := s.nextIndex + 1
    stack := v :: s.stack
    onStack := Function.update s.onStack v true }

/-- The nodes popped up to and with `v`, and what stays. -/
def popTo (v : Nat) : List Nat → List Nat × List Nat
  | [] => ([], [])
  | w :: rest => if w = v then ([w], rest) else (w :: (popTo v rest).1, (popTo v rest).2)

/-- The component of a root `v` leaves the stack. -/
def popComp (v : Nat) (s : State) : State :=
  let comp := (popTo v s.stack).1
  { s with
    onStack := fun w => s.onStack w && !comp.contains w
    stack := (popTo v s.stack).2
    out := s.out ++ [comp] }

def lowerLow (v l : Nat) (s : State) : State :=
  { s with low := Function.update s.low v (min (s.low v) l) }

/-- The top frame after its arrival: one neighbour is looked at, or the node is finished. -/
def visit (adj : List (List Nat)) (v pi : Nat) (rest : List Frame) (s : State) : List Frame × State :=
  match (succs adj v)[pi]? with
  | some w =>
    if s.index w = none then ((w, 0) :: (v, pi + 1) :: rest, s)
    else if s.onStack w then ((v, pi + 1) :: rest, lowerLow v (s.num w) s)
    else ((v, pi + 1) :: rest, s)
  | none =>
    let s := if s.low v = s.num v then popComp v s else s
    match rest with
    | [] => ([], s)
    | (parent, _) :: _ => (rest, lowerLow parent (s.low v) s)

/-- A frame whose cursor is still at `0` numbers its node. -/
def arrive (s : State) : List Frame → State
  | (v, 0) :: _ => enter v s
  | _ => s

/-- The loop over the work stack, for at most `fuel` iterations. -/
def run (adj : List (List Nat)) : Nat → List Frame → State → Option State
  | _, [], s => some s
  | 0, _ :: _, _ => none
  | fuel + 1, (v, pi) :: rest, s =>
    let r := visit adj v pi rest (arrive s ((v, pi) :: rest))
    run adj fuel r.1 r.2

def startAt (adj : List (List Nat)) (fuel : Nat) (s : State) (start : Nat) : Option State :=
  if s.index start = none then run adj fuel [(start, 0)] s else some s

def tarjanScc (fuel : Nat) (adj : List (List Nat)) : Option (List (List Nat)) :=
  ((List.range adj.length).foldlM (startAt adj fuel) .init).map State.out

/-! ## `detect_cycles` -/

def sorted (xs : List String) : List String := xs.mergeSort fun a b => decide (a ≤ b)

def cycleOf (g : Graph) (scc : List Nat) : LockOrderCycle where
  classes := sorted (scc.map fun i => g.names.getD i "")
  functions := (sorted ((g.edgeFns.filter fun e =>
    scc.contains e.1.1 && scc.contains e.1.2).flatMap Prod.snd)).dedup

def detectCycles (fuel : Nat) (edges : List TaggedEdge) : Option (List LockOrderCycle) :=
  let g := graphOf edges
  (tarjanScc fuel g.adj).map fun sccs =>
    ((sccs.filter fun scc => decide (2 ≤ scc.length)).map (cycleOf g)).mergeSort
      fun a b => decide (a.classes ≤ b.classes)

/-! ## What Tarjan's algorithm keeps

A node is on the stack, in `out`, or not visited. Of the nodes on the stack the gray ones have a frame;
the last gray node at or below a node *governs* it. The number `low` of a gray node is a bound for all
edges that leave the nodes it governs, as far as they were looked at (`Inv.edges`), and it is the number of a
node that it reaches. So at a finished node whose `low` is its own number, no edge leaves what it governs,
but into `out`: the component is complete.
-/

open Lib Relation

variable {adj : List (List Nat)}

def Edge (adj : List (List Nat)) (u v : Nat) : Prop := v ∈ succs adj u

/-! ## The invariant -/

/-- What holds of the visited nodes, whatever frames are open. -/
structure Base (adj : List (List Nat)) (s : State) : Prop where
  fresh : ∀ {v i}, s.index v = some i → i < s.nextIndex
  bound : ∀ {v}, s.index v ≠ none → v < adj.length
  sorted : s.stack.Pairwise fun x y => s.num y < s.num x
  flag : ∀ v, s.onStack v = true ↔ v ∈ s.stack
  seen : ∀ v, s.index v ≠ none ↔ v ∈ s.stack ∨ v ∈ s.out.flatten
  apart : ∀ v ∈ s.stack, v ∉ s.out.flatten
  up : ∀ x ∈ s.stack, ∀ y ∈ s.stack, s.num x ≤ s.num y → ReflTransGen (Edge adj) x y
  closed : NoExit (Edge adj) {v | v ∈ s.out.flatten}
  comps : ∀ c ∈ s.out, IsComponent (Edge adj) {v | v ∈ c}
  nodup : s.out.flatten.Nodup

/-- The last gray node at or below `x`. -/
structure Governs (s : State) (gray : List Nat) (g x : Nat) : Prop where
  mem : g ∈ gray
  le : s.num g ≤ s.num x
  last : ∀ h ∈ gray, s.num h ≤ s.num x → s.num h ≤ s.num g

/-- The invariant with the gray nodes, the last one first, and the number of neighbours of each node that
were looked at. -/
structure Inv (adj : List (List Nat)) (s : State) (gray : List Nat) (looked : Nat → Nat) : Prop where
  base : Base adj s
  onStack : ∀ g ∈ gray, g ∈ s.stack
  order : gray.Pairwise fun g h => s.num h < s.num g
  back : ∀ x ∈ s.stack, ∃ g ∈ gray, s.num g ≤ s.num x ∧ ReflTransGen (Edge adj) x g
  low : ∀ g ∈ gray, s.low g ≤ s.num g ∧
    ∃ t ∈ s.stack, s.num t = s.low g ∧ ReflTransGen (Edge adj) g t
  edges : ∀ x ∈ s.stack, ∀ g, Governs s gray g x → ∀ w ∈ (succs adj x).take (looked x),
    w ∈ s.out.flatten ∨ w ∈ s.stack ∧ s.low g ≤ s.num w
  full : ∀ x ∈ s.stack, x ∉ gray → (succs adj x).length ≤ looked x
  untouched : ∀ x, s.index x = none → looked x = 0

theorem Inv.init : Inv adj .init [] fun _ => 0 where
  base :=
    { fresh := fun h => nomatch h
      bound := fun h => absurd rfl h
      sorted := .nil
      flag := fun v => by simp [State.init]
      seen := fun v => by simp [State.init]
      apart := fun v h => nomatch h
      up := fun x h => nomatch h
      closed := fun h => nomatch h
      comps := fun c h => nomatch h
      nodup := .nil }
  onStack := fun g h => nomatch h
  order := .nil
  back := fun x h => nomatch h
  low := fun g h => nomatch h
  edges := fun x h => nomatch h
  full := fun x h => nomatch h
  untouched := fun _ _ => rfl

section

variable {s : State} {gray : List Nat} {looked : Nat → Nat} {v : Nat}

theorem Inv.num_lt (h : Inv adj s (v :: gray) looked) {g : Nat} (hg : g ∈ gray) : s.num g < s.num v :=
  List.rel_of_pairwise_cons h.order hg

theorem Inv.num_le (h : Inv adj s (v :: gray) looked) {g : Nat} (hg : g ∈ v :: gray) :
    s.num g ≤ s.num v := by
  rcases List.mem_cons.mp hg with rfl | hg
  · exact le_rfl
  · exact (h.num_lt hg).le

theorem Inv.governs_top (h : Inv adj s (v :: gray) looked) {x : Nat} (hx : s.num v ≤ s.num x) :
    Governs s (v :: gray) v x :=
  ⟨List.mem_cons_self, hx, fun _ hg _ => h.num_le hg⟩

theorem Governs.cons {g x : Nat} (hg : Governs s gray g x) (hx : s.num x < s.num v) :
    Governs s (v :: gray) g x where
  mem := List.mem_cons_of_mem _ hg.mem
  le := hg.le
  last := by
    intro h hh hle
    rcases List.mem_cons.mp hh with rfl | hh
    · exact absurd hle (Nat.not_le.mpr hx)
    · exact hg.last h hh hle

theorem Base.inj (h : Base adj s) {x y : Nat} (hx : x ∈ s.stack) (hy : y ∈ s.stack)
    (hn : s.num x = s.num y) : x = y := by
  by_contra hne
  have hsymm : Std.Symm fun x y => s.num x ≠ s.num y := ⟨fun _ _ => Ne.symm⟩
  have hall : s.stack.Pairwise fun x y => s.num x ≠ s.num y := h.sorted.imp fun hlt => hlt.ne'
  exact hall.forall hx hy hne hn

end

/-! ## Entering a node -/

section

variable {s : State} {gray : List Nat} {looked : Nat → Nat} {v : Nat}

theorem Base.visited (h : Base adj s) {x : Nat} (hx : x ∈ s.stack) : s.index x ≠ none :=
  (h.seen x).mpr (.inl hx)

theorem Base.num_lt_next (h : Base adj s) {x : Nat} (hx : x ∈ s.stack) : s.num x < s.nextIndex := by
  obtain ⟨i, hi⟩ := Option.ne_none_iff_exists'.mp (h.visited hx)
  have hlt := h.fresh hi
  simpa [State.num, hi] using hlt

@[simp] theorem enter_num_self (v : Nat) (s : State) : (enter v s).num v = s.nextIndex := by
  simp [State.num, enter]

theorem enter_num_of_ne {x : Nat} (hx : x ≠ v) : (enter v s).num x = s.num x := by
  simp [State.num, enter, hx]

theorem enter_index_of_ne {x : Nat} (hx : x ≠ v) : (enter v s).index x = s.index x := by
  simp [enter, hx]

theorem enter_low_of_ne {x : Nat} (hx : x ≠ v) : (enter v s).low x = s.low x := by
  simp [enter, hx]

theorem enter_visited (v : Nat) (s : State) {x : Nat} (hx : s.index x ≠ none) :
    (enter v s).index x ≠ none := by
  by_cases hxv : x = v
  · simp [enter, hxv]
  · rwa [enter_index_of_ne hxv]

theorem Base.ne_of_mem (h : Base adj s) (hv : s.index v = none) {x : Nat} (hx : x ∈ s.stack) : x ≠ v := by
  rintro rfl
  exact h.visited hx hv

theorem Base.enter (h : Base adj s) (hv : s.index v = none) (hbound : v < adj.length)
    (hto : ∀ x ∈ s.stack, ReflTransGen (Edge adj) x v) : Base adj (enter v s) where
  fresh := by
    intro x i hi
    by_cases hxv : x = v
    · subst hxv
      have : i = s.nextIndex := by simpa [LockOrder.enter, eq_comm] using hi
      exact this ▸ Nat.lt_succ_self _
    · rw [enter_index_of_ne hxv] at hi
      exact Nat.lt_succ_of_lt (h.fresh hi)
  bound := by
    intro x hx
    by_cases hxv : x = v
    · exact hxv ▸ hbound
    · rw [enter_index_of_ne hxv] at hx
      exact h.bound hx
  sorted := by
    refine List.pairwise_cons.mpr ⟨fun x hx => ?_, ?_⟩
    · rw [enter_num_self, enter_num_of_ne (h.ne_of_mem hv hx)]
      exact h.num_lt_next hx
    · refine h.sorted.imp_of_mem fun hx hy hlt => ?_
      rwa [enter_num_of_ne (h.ne_of_mem hv hx), enter_num_of_ne (h.ne_of_mem hv hy)]
  flag := by
    intro x
    by_cases hxv : x = v
    · simp [LockOrder.enter, hxv]
    · simp [LockOrder.enter, hxv, h.flag x]
  seen := by
    intro x
    by_cases hxv : x = v
    · simp [LockOrder.enter, hxv]
    · rw [enter_index_of_ne hxv, h.seen x]
      simp [LockOrder.enter, hxv]
  apart := by
    intro x hx
    rcases List.mem_cons.mp hx with rfl | hx
    · exact fun hout => (h.seen x).mpr (.inr hout) hv
    · exact h.apart x hx
  up := by
    intro x hx y hy hle
    rcases List.mem_cons.mp hx with rfl | hxs <;> rcases List.mem_cons.mp hy with rfl | hys
    · exact .refl
    · rw [enter_num_self, enter_num_of_ne (h.ne_of_mem hv hys)] at hle
      exact absurd hle (Nat.not_le.mpr (h.num_lt_next hys))
    · exact hto x hxs
    · rw [enter_num_of_ne (h.ne_of_mem hv hxs), enter_num_of_ne (h.ne_of_mem hv hys)] at hle
      exact h.up x hxs y hys hle
  closed := h.closed
  comps := h.comps
  nodup := h.nodup

theorem Inv.enter (h : Inv adj s gray looked) (hv : s.index v = none) (hbound : v < adj.length)
    (hparent : ∀ p ∈ gray.head?, Edge adj p v) : Inv adj (enter v s) (v :: gray) looked := by
  have hne : ∀ {x}, x ∈ s.stack → x ≠ v := fun hx => h.base.ne_of_mem hv hx
  have hnum : ∀ {x}, x ∈ s.stack → (LockOrder.enter v s).num x = s.num x := fun hx =>
    enter_num_of_ne (hne hx)
  have hto : ∀ x ∈ s.stack, ReflTransGen (Edge adj) x v := by
    intro x hx
    obtain ⟨g, hg, -, hxg⟩ := h.back x hx
    cases gray with
    | nil => cases hg
    | cons p t =>
      have hgp := h.base.up g (h.onStack g hg) p (h.onStack p List.mem_cons_self) (h.num_le hg)
      exact (hxg.trans hgp).tail (hparent p rfl)
  refine
    { base := h.base.enter hv hbound hto
      onStack := fun g hg => ?_
      order := List.pairwise_cons.mpr ⟨fun g hg => ?_, ?_⟩
      back := fun x hx => ?_
      low := fun g hg => ?_
      edges := fun x hx g hg w hw => ?_
      full := fun x hx hgray => ?_
      untouched := fun x hx => ?_ }
  · rcases List.mem_cons.mp hg with rfl | hg
    · exact List.mem_cons_self
    · exact List.mem_cons_of_mem _ (h.onStack g hg)
  · rw [enter_num_self, hnum (h.onStack g hg)]
    exact h.base.num_lt_next (h.onStack g hg)
  · refine h.order.imp_of_mem fun hx hy hlt => ?_
    rwa [hnum (h.onStack _ hx), hnum (h.onStack _ hy)]
  · rcases List.mem_cons.mp hx with rfl | hx
    · exact ⟨x, List.mem_cons_self, le_rfl, .refl⟩
    · obtain ⟨g, hg, hle, hr⟩ := h.back x hx
      refine ⟨g, List.mem_cons_of_mem _ hg, ?_, hr⟩
      rwa [hnum hx, hnum (h.onStack g hg)]
  · rcases List.mem_cons.mp hg with rfl | hg
    · have hlow : (LockOrder.enter g s).low g = s.nextIndex := by simp [LockOrder.enter]
      rw [hlow, enter_num_self]
      exact ⟨le_rfl, g, List.mem_cons_self, enter_num_self g s, .refl⟩
    · obtain ⟨hle, t, ht, hn, hr⟩ := h.low g hg
      rw [enter_low_of_ne (hne (h.onStack g hg)), hnum (h.onStack g hg)]
      refine ⟨hle, t, List.mem_cons_of_mem _ ht, ?_, hr⟩
      rwa [hnum ht]
  · rcases List.mem_cons.mp hx with rfl | hxs
    · rw [h.untouched x hv] at hw
      cases hw
    · have hgv : g ∈ gray := by
        rcases List.mem_cons.mp hg.mem with rfl | hgray
        · have hle := hg.le
          rw [enter_num_self, hnum hxs] at hle
          exact absurd hle (Nat.not_le.mpr (h.base.num_lt_next hxs))
        · exact hgray
      have hgov : Governs s gray g x := by
        refine ⟨hgv, ?_, fun k hk hle => ?_⟩
        · have hle := hg.le
          rwa [hnum hxs, hnum (h.onStack g hgv)] at hle
        · have hlast := hg.last k (List.mem_cons_of_mem _ hk)
          rw [hnum hxs, hnum (h.onStack k hk), hnum (h.onStack g hgv)] at hlast
          exact hlast hle
      rcases h.edges x hxs g hgov w hw with hout | ⟨hst, hle⟩
      · exact .inl hout
      · refine .inr ⟨List.mem_cons_of_mem _ hst, ?_⟩
        rwa [enter_low_of_ne (hne (h.onStack g hgv)), hnum hst]
  · rcases List.mem_cons.mp hx with rfl | hx
    · exact absurd List.mem_cons_self hgray
    · exact h.full x hx fun hmem => hgray (List.mem_cons_of_mem _ hmem)
  · by_cases hxv : x = v
    · subst hxv
      exact h.untouched x hv
    · rw [enter_index_of_ne hxv] at hx
      exact h.untouched x hx

end

/-! ## Looking at a neighbour -/

section

variable {s : State} {gray : List Nat} {looked : Nat → Nat} {v w : Nat}

theorem Inv.look (h : Inv adj s gray looked) (hv : v ∈ gray) (hnext : (succs adj v)[looked v]? = some w)
    (hw : w ∈ s.out.flatten ∨ w ∈ s.stack ∧ s.low v ≤ s.num w) :
    Inv adj s gray (Function.update looked v (looked v + 1)) where
  base := h.base
  onStack := h.onStack
  order := h.order
  back := h.back
  low := h.low
  edges := by
    intro x hx g hg u hu
    by_cases hxv : x = v
    · subst hxv
      -- `x` is gray, so it is the one that governs itself
      have hgx : g = x :=
        h.base.inj (h.onStack g hg.mem) hx (le_antisymm hg.le (hg.last x hv le_rfl))
      rw [Function.update_self, List.take_add_one, hnext] at hu
      rcases List.mem_append.mp hu with hu | hu
      · exact h.edges x hx g hg u hu
      · have huw : u = w := by simpa using hu
        subst huw hgx
        exact hw
    · rw [Function.update_of_ne hxv] at hu
      exact h.edges x hx g hg u hu
  full := by
    intro x hx hgray
    have hxv : x ≠ v := fun hxv => hgray (hxv ▸ hv)
    rw [Function.update_of_ne hxv]
    exact h.full x hx hgray
  untouched := by
    intro x hx
    have hxv : x ≠ v := fun hxv => h.base.visited (h.onStack v hv) (hxv ▸ hx)
    rw [Function.update_of_ne hxv]
    exact h.untouched x hx

@[simp] theorem lowerLow_num (v l : Nat) (s : State) : (lowerLow v l s).num = s.num := rfl

theorem lowerLow_low_self (v l : Nat) (s : State) : (lowerLow v l s).low v = min (s.low v) l := by
  simp [lowerLow]

theorem lowerLow_low_of_ne {g : Nat} (hg : g ≠ v) (l : Nat) (s : State) :
    (lowerLow v l s).low g = s.low g := by
  simp [lowerLow, hg]

theorem lowerLow_eq_self {l : Nat} (h : s.low v ≤ l) : lowerLow v l s = s := by
  rw [lowerLow, min_eq_left h, Function.update_eq_self]

theorem lowerLow_low_le (v l : Nat) (s : State) (g : Nat) : (lowerLow v l s).low g ≤ s.low g := by
  by_cases hg : g = v
  · rw [hg, lowerLow_low_self]
    exact min_le_left _ _
  · rw [lowerLow_low_of_ne hg]

theorem Inv.lowerLow (h : Inv adj s gray looked) {l t : Nat} (ht : t ∈ s.stack) (hl : s.num t = l)
    (hr : v ∈ gray → ReflTransGen (Edge adj) v t) : Inv adj (lowerLow v l s) gray looked where
  base := ⟨h.base.fresh, h.base.bound, h.base.sorted, h.base.flag, h.base.seen, h.base.apart, h.base.up,
    h.base.closed, h.base.comps, h.base.nodup⟩
  onStack := h.onStack
  order := h.order
  back := h.back
  low := by
    intro g hg
    obtain ⟨hle, u, hu, hn, hru⟩ := h.low g hg
    refine ⟨(lowerLow_low_le v l s g).trans hle, ?_⟩
    by_cases hgv : g = v
    · subst hgv
      rw [lowerLow_low_self, lowerLow_num]
      rcases le_total (s.low g) l with hmin | hmin
      · exact ⟨u, hu, by rw [min_eq_left hmin, hn], hru⟩
      · exact ⟨t, ht, by rw [min_eq_right hmin, hl], hr hg⟩
    · rw [lowerLow_low_of_ne hgv]
      exact ⟨u, hu, hn, hru⟩
  edges := by
    intro x hx g hg u hu
    rcases h.edges x hx g ⟨hg.mem, hg.le, hg.last⟩ u hu with hout | ⟨hst, hle⟩
    · exact .inl hout
    · exact .inr ⟨hst, (lowerLow_low_le v l s g).trans hle⟩
  full := h.full
  untouched := h.untouched

end

/-! ## Finishing a node -/

section

variable {s : State} {gray : List Nat} {looked : Nat → Nat} {v : Nat}

theorem Governs.mono {x g p : Nat} (hg : Governs s (p :: gray) g x) (hp : s.num p ≤ s.num x)
    (horder : ∀ k ∈ gray, s.num k < s.num p) : g = p := by
  rcases List.mem_cons.mp hg.mem with rfl | hgray
  · rfl
  · exact absurd (hg.last p List.mem_cons_self hp) (Nat.not_le.mpr (horder g hgray))

/-- A node that is not the root of a component stays on the stack; the gray node before it governs in its
place. -/
theorem Inv.finish {p : Nat} (h : Inv adj s (v :: p :: gray) looked)
    (hdone : (succs adj v).length ≤ looked v) (hroot : s.low v < s.num v) (hlow : s.low p ≤ s.low v) :
    Inv adj s (p :: gray) looked where
  base := h.base
  onStack := fun g hg => h.onStack g (List.mem_cons_of_mem _ hg)
  order := h.order.of_cons
  back := by
    intro x hx
    obtain ⟨g, hg, hle, hr⟩ := h.back x hx
    rcases List.mem_cons.mp hg with rfl | hg
    · -- on by the node whose number the bound is
      obtain ⟨-, t, ht, hn, hrt⟩ := h.low g List.mem_cons_self
      obtain ⟨k, hk, hkt, hrk⟩ := h.back t ht
      have hlt : s.num k < s.num g := hkt.trans_lt (hn.trans_lt hroot)
      rcases List.mem_cons.mp hk with rfl | hk
      · exact absurd hlt (Nat.lt_irrefl _)
      · exact ⟨k, hk, hlt.le.trans hle, (hr.trans hrt).trans hrk⟩
    · exact ⟨g, hg, hle, hr⟩
  low := fun g hg => h.low g (List.mem_cons_of_mem _ hg)
  edges := by
    intro x hx g hg w hw
    rcases Nat.lt_or_ge (s.num x) (s.num v) with hlt | hge
    · exact h.edges x hx g (hg.cons hlt) w hw
    · have hpx : s.num p ≤ s.num x := (h.num_lt List.mem_cons_self).le.trans hge
      have hgp : g = p := hg.mono hpx fun k hk => List.rel_of_pairwise_cons h.order.of_cons hk
      subst hgp
      rcases h.edges x hx v (h.governs_top hge) w hw with hout | ⟨hst, hle⟩
      · exact .inl hout
      · exact .inr ⟨hst, hlow.trans hle⟩
  full := by
    intro x hx hgray
    by_cases hxv : x = v
    · exact hxv ▸ hdone
    · exact h.full x hx (by simpa [hxv] using hgray)
  untouched := h.untouched

/-! ## Popping a component -/

theorem popTo_append (v : Nat) (xs : List Nat) : (popTo v xs).1 ++ (popTo v xs).2 = xs := by
  induction xs with
  | nil => rfl
  | cons w rest ih =>
    rw [popTo]
    split
    · rfl
    · rw [List.cons_append, ih]

theorem mem_popTo {num : Nat → Nat} {xs : List Nat} (hs : xs.Pairwise fun x y => num y < num x)
    (hv : v ∈ xs) (x : Nat) :
    (x ∈ (popTo v xs).1 ↔ x ∈ xs ∧ num v ≤ num x) ∧ (x ∈ (popTo v xs).2 ↔ x ∈ xs ∧ num x < num v) := by
  induction xs with
  | nil => cases hv
  | cons w rest ih =>
    have hbelow : ∀ y ∈ rest, num y < num w := fun y hy => List.rel_of_pairwise_cons hs hy
    rw [popTo]
    split
    case isTrue hwv =>
      subst hwv
      constructor
      · constructor
        · intro hx
          have hxw : x = w := List.mem_singleton.mp hx
          exact hxw ▸ ⟨List.mem_cons_self, le_rfl⟩
        · intro ⟨hx, hle⟩
          rcases List.mem_cons.mp hx with rfl | hx
          · exact List.mem_singleton.mpr rfl
          · exact absurd hle (Nat.not_le.mpr (hbelow x hx))
      · constructor
        · intro hx
          exact ⟨List.mem_cons_of_mem _ hx, hbelow x hx⟩
        · intro ⟨hx, hlt⟩
          rcases List.mem_cons.mp hx with rfl | hx
          · exact absurd hlt (Nat.lt_irrefl _)
          · exact hx
    case isFalse hwv =>
      have hv' : v ∈ rest := (List.mem_cons.mp hv).resolve_left fun hvw => hwv hvw.symm
      have hvw : num v < num w := hbelow v hv'
      obtain ⟨ih₁, ih₂⟩ := ih hs.of_cons hv'
      constructor
      · rw [List.mem_cons, List.mem_cons, ih₁]
        constructor
        · rintro (rfl | hx)
          · exact ⟨.inl rfl, hvw.le⟩
          · exact ⟨.inr hx.1, hx.2⟩
        · rintro ⟨rfl | hx, hle⟩
          · exact .inl rfl
          · exact .inr ⟨hx, hle⟩
      · rw [List.mem_cons, ih₂]
        constructor
        · intro hx
          exact ⟨.inr hx.1, hx.2⟩
        · rintro ⟨rfl | hx, hlt⟩
          · exact absurd hlt (Nat.lt_asymm hvw)
          · exact ⟨hx, hlt⟩

@[simp] theorem popComp_out (v : Nat) (s : State) :
    (popComp v s).out = s.out ++ [(popTo v s.stack).1] := rfl

theorem Base.mem_popped (h : Base adj s) (hv : v ∈ s.stack) (x : Nat) :
    x ∈ (popTo v s.stack).1 ↔ x ∈ s.stack ∧ s.num v ≤ s.num x := (mem_popTo h.sorted hv x).1

theorem Base.mem_kept (h : Base adj s) (hv : v ∈ s.stack) (x : Nat) :
    x ∈ (popComp v s).stack ↔ x ∈ s.stack ∧ s.num x < s.num v := (mem_popTo h.sorted hv x).2

theorem Base.nodup_stack (h : Base adj s) : s.stack.Nodup :=
  h.sorted.imp fun {x y} (hlt : s.num y < s.num x) (hxy : x = y) => by
    subst hxy
    exact Nat.lt_irrefl _ hlt

theorem mem_popComp_out {x : Nat} :
    x ∈ (popComp v s).out.flatten ↔ x ∈ s.out.flatten ∨ x ∈ (popTo v s.stack).1 := by
  rw [popComp_out, List.flatten_append, List.mem_append]
  simp

theorem Base.popComp (h : Base adj s) (hv : v ∈ s.stack)
    (hcomp : IsComponent (Edge adj) {x | x ∈ (popTo v s.stack).1})
    (hexit : NoExit (Edge adj) ({x | x ∈ s.out.flatten} ∪ {x | x ∈ (popTo v s.stack).1})) :
    Base adj (popComp v s) where
  fresh := h.fresh
  bound := h.bound
  sorted := by
    have hsub : (LockOrder.popComp v s).stack.Sublist s.stack := by
      conv => rhs; rw [← popTo_append v s.stack]
      exact List.sublist_append_right _ _
    exact h.sorted.sublist hsub
  flag := by
    intro x
    rw [h.mem_kept hv]
    simp only [LockOrder.popComp, Bool.and_eq_true, Bool.not_eq_true', List.contains_eq_mem, decide_eq_false_iff_not,
      h.flag x, h.mem_popped hv]
    constructor
    · intro ⟨hx, hnot⟩
      exact ⟨hx, Nat.not_le.mp fun hle => hnot ⟨hx, hle⟩⟩
    · intro ⟨hx, hlt⟩
      exact ⟨hx, fun hp => absurd hp.2 (Nat.not_le.mpr hlt)⟩
  seen := by
    intro x
    rw [h.mem_kept hv, mem_popComp_out, h.mem_popped hv]
    refine (h.seen x).trans ⟨fun hx => ?_, fun hx => ?_⟩
    · rcases hx with hx | hx
      · rcases Nat.lt_or_ge (s.num x) (s.num v) with hlt | hge
        · exact .inl ⟨hx, hlt⟩
        · exact .inr (.inr ⟨hx, hge⟩)
      · exact .inr (.inl hx)
    · rcases hx with hx | hx | hx
      · exact .inl hx.1
      · exact .inr hx
      · exact .inl hx.1
  apart := by
    intro x hx hout
    obtain ⟨hxs, hlt⟩ := (h.mem_kept hv x).mp hx
    rcases mem_popComp_out.mp hout with hout | hout
    · exact h.apart x hxs hout
    · exact absurd ((h.mem_popped hv x).mp hout).2 (Nat.not_le.mpr hlt)
  up := fun x hx y hy => h.up x ((h.mem_kept hv x).mp hx).1 y ((h.mem_kept hv y).mp hy).1
  closed := by
    intro a b ha hab
    exact mem_popComp_out.mpr (hexit (mem_popComp_out.mp ha) hab)
  comps := by
    intro c hc
    rcases List.mem_append.mp hc with hc | hc
    · exact h.comps c hc
    · have : c = (popTo v s.stack).1 := List.mem_singleton.mp hc
      exact this ▸ hcomp
  nodup := by
    rw [popComp_out, List.flatten_append, List.flatten_singleton]
    refine List.nodup_append'.mpr ⟨h.nodup, ?_, fun x hx hx' => ?_⟩
    · have hnd := h.nodup_stack
      rw [← popTo_append v s.stack] at hnd
      exact hnd.of_append_left
    · exact h.apart x ((h.mem_popped hv x).mp hx').1 hx

theorem Inv.popped_component (h : Inv adj s (v :: gray) looked)
    (hdone : (succs adj v).length ≤ looked v) (hroot : s.low v = s.num v) :
    IsComponent (Edge adj) {x | x ∈ (popTo v s.stack).1} ∧
      NoExit (Edge adj) ({x | x ∈ s.out.flatten} ∪ {x | x ∈ (popTo v s.stack).1}) := by
  have hv : v ∈ s.stack := h.onStack v List.mem_cons_self
  have hmem := h.base.mem_popped hv
  have hexit : NoExit (Edge adj) ({x | x ∈ s.out.flatten} ∪ {x | x ∈ (popTo v s.stack).1}) := by
    intro a b ha hab
    rcases ha with ha | ha
    · exact .inl (h.base.closed ha hab)
    · obtain ⟨has, hle⟩ := (hmem a).mp ha
      have hall : (succs adj a).length ≤ looked a := by
        by_cases hav : a = v
        · exact hav ▸ hdone
        · refine h.full a has fun hgray => ?_
          rcases List.mem_cons.mp hgray with hgray | hgray
          · exact hav hgray
          · exact absurd hle (Nat.not_le.mpr (h.num_lt hgray))
      have hb : b ∈ (succs adj a).take (looked a) := by
        rw [List.take_of_length_le hall]
        exact hab
      rcases h.edges a has v (h.governs_top hle) b hb with hout | ⟨hbs, hlow⟩
      · exact .inl hout
      · exact .inr ((hmem b).mpr ⟨hbs, hroot ▸ hlow⟩)
  refine ⟨isComponent_of_closed h.base.closed hexit (fun a ha => ?_) ((hmem v).mpr ⟨hv, le_rfl⟩)
    fun a ha => ?_, hexit⟩
  · exact h.base.apart a ((hmem a).mp ha).1
  · obtain ⟨has, hle⟩ := (hmem a).mp ha
    obtain ⟨g, hg, -, hag⟩ := h.back a has
    have hgv := h.base.up g (h.onStack g hg) v hv (h.num_le hg)
    exact ⟨h.base.up v hv a has hle, hag.trans hgv⟩

theorem Inv.popComp (h : Inv adj s (v :: gray) looked) (hdone : (succs adj v).length ≤ looked v)
    (hroot : s.low v = s.num v) : Inv adj (popComp v s) gray looked := by
  have hv : v ∈ s.stack := h.onStack v List.mem_cons_self
  obtain ⟨hcomp, hexit⟩ := h.popped_component hdone hroot
  have hkept := h.base.mem_kept hv
  refine
    { base := h.base.popComp hv hcomp hexit
      onStack := fun g hg => ?_
      order := h.order.of_cons
      back := fun x hx => ?_
      low := fun g hg => ?_
      edges := fun x hx g hg w hw => ?_
      full := fun x hx hgray => ?_
      untouched := h.untouched }
  · exact (hkept g).mpr ⟨h.onStack g (List.mem_cons_of_mem _ hg), h.num_lt hg⟩
  · obtain ⟨hxs, hlt⟩ := (hkept x).mp hx
    obtain ⟨g, hg, hle, hr⟩ := h.back x hxs
    rcases List.mem_cons.mp hg with rfl | hg
    · exact absurd hle (Nat.not_le.mpr hlt)
    · exact ⟨g, hg, hle, hr⟩
  · obtain ⟨hle, t, ht, hn, hr⟩ := h.low g (List.mem_cons_of_mem _ hg)
    exact ⟨hle, t, (hkept t).mpr ⟨ht, hn.trans_lt (hle.trans_lt (h.num_lt hg))⟩, hn, hr⟩
  · obtain ⟨hxs, hlt⟩ := (hkept x).mp hx
    have hgov : Governs s gray g x := ⟨hg.mem, hg.le, hg.last⟩
    rcases h.edges x hxs g (hgov.cons hlt) w hw with hout | ⟨hws, hle⟩
    · exact .inl (mem_popComp_out.mpr (.inl hout))
    · rcases Nat.lt_or_ge (s.num w) (s.num v) with hwv | hwv
      · exact .inr ⟨(hkept w).mpr ⟨hws, hwv⟩, hle⟩
      · exact .inl (mem_popComp_out.mpr (.inr ((h.base.mem_popped hv w).mpr ⟨hws, hwv⟩)))
  · obtain ⟨hxs, hlt⟩ := (hkept x).mp hx
    refine h.full x hxs fun hmem => ?_
    rcases List.mem_cons.mp hmem with rfl | hmem
    · exact Nat.lt_irrefl _ hlt
    · exact hgray hmem

end

end Csolver.LockOrder
