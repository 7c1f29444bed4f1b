import Csolver.Verifier.LockOrder
import Mathlib.Algebra.Order.BigOperators.Group.Finset

/-!
# Runs of Tarjan's algorithm

Every iteration either looks at one more neighbour of the node of the top frame, or finishes it. So the
neighbours still to be looked at, with one more for each unfinished node, bound the iterations
(`toGo`), and a run from any state that keeps the invariant ends in one (`run_spec`).
-/

namespace Csolver.LockOrder

open Lib Relation

variable {adj : List (List Nat)}

/-! ## What is left to do -/

/-- The iterations still to come for a node. -/
def rem (adj : List (List Nat)) (s : State) (gray : List Nat) (looked : Nat → Nat) (v : Nat) : Nat :=
  if s.index v ≠ none ∧ v ∉ gray then 0 else (succs adj v).length - looked v + 1

def toGo (adj : List (List Nat)) (s : State) (gray : List Nat) (looked : Nat → Nat) : Nat :=
  ∑ v ∈ Finset.range adj.length, rem adj s gray looked v

section

variable {s s' : State} {gray gray' : List Nat} {looked looked' : Nat → Nat} {v w : Nat}

theorem toGo_lt (hle : ∀ x, rem adj s' gray' looked' x ≤ rem adj s gray looked x)
    (hv : v < adj.length) (hlt : rem adj s' gray' looked' v < rem adj s gray looked v) :
    toGo adj s' gray' looked' < toGo adj s gray looked :=
  Finset.sum_lt_sum (fun x _ => hle x) ⟨v, Finset.mem_range.mpr hv, hlt⟩

theorem rem_gray (hv : v ∈ gray) : rem adj s gray looked v = (succs adj v).length - looked v + 1 :=
  if_neg fun h => h.2 hv

theorem rem_new (hv : s.index v = none) :
    rem adj s gray looked v = (succs adj v).length - looked v + 1 := if_neg fun h => h.1 hv

theorem rem_look_lt (hv : v ∈ gray) (hnext : (succs adj v)[looked v]? = some w) :
    rem adj s gray (Function.update looked v (looked v + 1)) v < rem adj s gray looked v := by
  have hlt := (List.getElem?_eq_some_iff.mp hnext).1
  rw [rem_gray hv, rem_gray hv, Function.update_self]
  omega

theorem rem_look_le (x : Nat) :
    rem adj s gray (Function.update looked v (looked v + 1)) x ≤ rem adj s gray looked x := by
  by_cases hxv : x = v
  · subst hxv
    rw [rem, rem, Function.update_self]
    split
    · exact le_rfl
    · omega
  · rw [rem, rem, Function.update_of_ne hxv]

theorem rem_enter (hw : s.index w = none) (x : Nat) :
    rem adj (enter w s) (w :: gray) looked x = rem adj s gray looked x := by
  by_cases hxw : x = w
  · subst hxw
    rw [rem_gray List.mem_cons_self, rem_new hw]
  · rw [rem, rem, enter_index_of_ne hxw]
    simp [hxw]

theorem rem_finish_lt (hindex : s'.index = s.index) (hv : s.index v ≠ none) (hgray : v ∉ gray) :
    rem adj s' gray looked v < rem adj s (v :: gray) looked v := by
  have hzero : rem adj s' gray looked v = 0 := if_pos ⟨hindex ▸ hv, hgray⟩
  rw [hzero, rem_gray List.mem_cons_self]
  exact Nat.succ_pos _

theorem rem_finish_le (hindex : s'.index = s.index) (hv : s.index v ≠ none) (hgray : v ∉ gray) (x : Nat) :
    rem adj s' gray looked x ≤ rem adj s (v :: gray) looked x := by
  by_cases hxv : x = v
  · subst hxv
    exact (rem_finish_lt hindex hv hgray).le
  · rw [rem, rem, hindex]
    simp [hxv]

end

/-! ## One iteration -/

/-- What holds after the arrival at the top frame: the cursors are the numbers of neighbours that were
looked at, only the top one can be `0`, and no more than `m` iterations are left. -/
structure Entered (adj : List (List Nat)) (seen : Nat → Prop) (work : List Frame) (s : State) (m : Nat)
    (looked : Nat → Nat) : Prop where
  inv : Inv adj s (work.map Prod.fst) looked
  cursor : ∀ f ∈ work, looked f.1 = f.2
  moved : ∀ f ∈ work.tail, f.2 ≠ 0
  seen : ∀ v, seen v → s.index v ≠ none
  budget : toGo adj s (work.map Prod.fst) looked ≤ m

theorem arrive_of_moved {work : List Frame} (h : ∀ f ∈ work, f.2 ≠ 0) (s : State) : arrive s work = s := by
  match work with
  | [] => rfl
  | (v, 0) :: _ => exact absurd rfl (h (v, 0) List.mem_cons_self)
  | (v, k + 1) :: _ => rfl

section

variable {seen : Nat → Prop} {s : State} {m v pi : Nat} {rest : List Frame} {looked : Nat → Nat}

theorem Entered.ne (h : Entered adj seen ((v, pi) :: rest) s m looked) {f : Frame} (hf : f ∈ rest) :
    f.1 ≠ v := by
  intro hfv
  have hlt := h.inv.num_lt (List.mem_map_of_mem (f := Prod.fst) hf)
  exact Nat.lt_irrefl _ (hfv ▸ hlt)

theorem Entered.not_mem (h : Entered adj seen ((v, pi) :: rest) s m looked) : v ∉ rest.map Prod.fst := by
  intro hv
  obtain ⟨f, hf, hfv⟩ := List.mem_map.mp hv
  exact h.ne hf hfv

theorem Entered.top_mem (h : Entered adj seen ((v, pi) :: rest) s m looked) : v ∈ s.stack :=
  h.inv.onStack v List.mem_cons_self

theorem Entered.cursor_next (h : Entered adj seen ((v, pi) :: rest) s m looked) :
    ∀ f ∈ (v, pi + 1) :: rest, Function.update looked v (looked v + 1) f.1 = f.2 := by
  intro f hf
  rcases List.mem_cons.mp hf with rfl | hf
  · rw [Function.update_self, h.cursor _ List.mem_cons_self]
  · rw [Function.update_of_ne (h.ne hf), h.cursor f (List.mem_cons_of_mem _ hf)]

theorem Entered.push (hadj : ∀ u w, Edge adj u w → w < adj.length)
    (h : Entered adj seen ((v, pi) :: rest) s m looked) {w : Nat} (hnext : (succs adj v)[pi]? = some w)
    (hw : s.index w = none) :
    ∃ m', m = m' + 1 ∧ Entered adj seen ((w, 0) :: (v, pi + 1) :: rest) (enter w s) m'
      (Function.update looked v (looked v + 1)) := by
  have hvw : v ≠ w := h.inv.base.ne_of_mem hw h.top_mem
  have hedge : Edge adj v w := List.mem_of_getElem? hnext
  have hnext' : (succs adj v)[looked v]? = some w := by rw [h.cursor _ List.mem_cons_self, hnext]
  have hgray : v ∈ w :: v :: rest.map Prod.fst := List.mem_cons_of_mem _ List.mem_cons_self
  have henter := h.inv.enter hw (hadj v w hedge) fun p hp => by
    obtain rfl : v = p := Option.some.inj hp
    exact hedge
  have hlow : (enter w s).low v ≤ (enter w s).num w := by
    rw [enter_low_of_ne hvw, enter_num_self]
    exact (h.inv.low v List.mem_cons_self).1.trans (h.inv.base.num_lt_next h.top_mem).le
  have hlt : toGo adj (enter w s) (w :: v :: rest.map Prod.fst)
      (Function.update looked v (looked v + 1)) < toGo adj s (v :: rest.map Prod.fst) looked := by
    refine toGo_lt (fun x => ?_) (h.inv.base.bound (h.inv.base.visited h.top_mem)) ?_
    · exact (rem_look_le x).trans (rem_enter hw x).le
    · exact (rem_look_lt hgray hnext').trans_eq (rem_enter hw v)
  obtain ⟨m', rfl⟩ := Nat.exists_eq_add_one_of_ne_zero (hlt.trans_le h.budget).ne_bot
  refine ⟨m', rfl, ?_⟩
  exact
    { inv := henter.look hgray hnext' (.inr ⟨List.mem_cons_self, hlow⟩)
      cursor := by
        intro f hf
        rcases List.mem_cons.mp hf with rfl | hf
        · rw [Function.update_of_ne hvw.symm, h.inv.untouched w hw]
        · exact h.cursor_next f hf
      moved := by
        intro f hf
        rcases List.mem_cons.mp hf with rfl | hf
        · exact Nat.succ_ne_zero pi
        · exact h.moved f hf
      seen := fun x hx => enter_visited w s (h.seen x hx)
      budget := Nat.lt_succ_iff.mp (hlt.trans_le h.budget) }

theorem Entered.advance (h : Entered adj seen ((v, pi) :: rest) s m looked) {w : Nat}
    (hnext : (succs adj v)[pi]? = some w) (hw : w ∈ s.out.flatten ∨ w ∈ s.stack ∧ s.low v ≤ s.num w) :
    ∃ m', m = m' + 1 ∧ Entered adj seen ((v, pi + 1) :: rest) s m'
      (Function.update looked v (looked v + 1)) := by
  have hnext' : (succs adj v)[looked v]? = some w := by rw [h.cursor _ List.mem_cons_self, hnext]
  have hgray : v ∈ v :: rest.map Prod.fst := List.mem_cons_self
  have hlt : toGo adj s (v :: rest.map Prod.fst) (Function.update looked v (looked v + 1)) <
      toGo adj s (v :: rest.map Prod.fst) looked :=
    toGo_lt rem_look_le (h.inv.base.bound (h.inv.base.visited h.top_mem)) (rem_look_lt hgray hnext')
  obtain ⟨m', rfl⟩ := Nat.exists_eq_add_one_of_ne_zero (hlt.trans_le h.budget).ne_bot
  exact ⟨m', rfl, h.inv.look hgray hnext' hw, h.cursor_next, h.moved, h.seen,
    Nat.lt_succ_iff.mp (hlt.trans_le h.budget)⟩

theorem Entered.close (h : Entered adj seen ((v, pi) :: rest) s m looked) {s' : State}
    (hindex : s'.index = s.index) (hinv : Inv adj s' (rest.map Prod.fst) looked) :
    ∃ m', m = m' + 1 ∧ Entered adj seen rest s' m' looked := by
  have hv := h.inv.base.visited h.top_mem
  have hlt : toGo adj s' (rest.map Prod.fst) looked < toGo adj s (v :: rest.map Prod.fst) looked :=
    toGo_lt (rem_finish_le hindex hv h.not_mem) (h.inv.base.bound hv) (rem_finish_lt hindex hv h.not_mem)
  obtain ⟨m', rfl⟩ := Nat.exists_eq_add_one_of_ne_zero (hlt.trans_le h.budget).ne_bot
  exact ⟨m', rfl, hinv, fun f hf => h.cursor f (List.mem_cons_of_mem _ hf),
    fun f hf => h.moved f (List.mem_of_mem_tail hf), fun x hx => hindex ▸ h.seen x hx,
    Nat.lt_succ_iff.mp (hlt.trans_le h.budget)⟩

theorem Entered.finished (h : Entered adj seen ((v, pi) :: rest) s m looked)
    (hnext : (succs adj v)[pi]? = none) : (succs adj v).length ≤ looked v := by
  rw [h.cursor _ List.mem_cons_self]
  exact List.getElem?_eq_none_iff.mp hnext

theorem Entered.close_root (h : Entered adj seen ((v, pi) :: rest) s m looked)
    (hnext : (succs adj v)[pi]? = none) (hroot : s.low v = s.num v) :
    ∃ m', m = m' + 1 ∧ ∃ looked, Entered adj seen (visit adj v pi rest s).1 (visit adj v pi rest s).2 m' looked := by
  have hinv := h.inv.popComp (h.finished hnext) hroot
  obtain ⟨m', hm, hent⟩ := h.close (show (popComp v s).index = s.index from rfl) hinv
  refine ⟨m', hm, looked, ?_⟩
  cases rest with
  | nil => simpa only [visit, hnext, if_pos hroot] using hent
  | cons f rest =>
    have hlow : (popComp v s).low f.1 ≤ (popComp v s).low v := by
      have hlt := h.inv.num_lt (List.mem_map_of_mem (f := Prod.fst) (List.mem_cons_self (a := f)))
      have hle := (h.inv.low f.1 (List.mem_cons_of_mem _ (List.mem_map_of_mem List.mem_cons_self))).1
      exact hle.trans (hlt.le.trans_eq hroot.symm)
    simpa only [visit, hnext, if_pos hroot, lowerLow_eq_self hlow] using hent

theorem Entered.close_other (h : Entered adj seen ((v, pi) :: rest) s m looked)
    (hnext : (succs adj v)[pi]? = none) (hroot : s.low v ≠ s.num v) :
    ∃ m', m = m' + 1 ∧ ∃ looked, Entered adj seen (visit adj v pi rest s).1 (visit adj v pi rest s).2 m' looked := by
  obtain ⟨hle, t, ht, hn, hvt⟩ := h.inv.low v List.mem_cons_self
  have hlt : s.low v < s.num v := lt_of_le_of_ne hle hroot
  cases rest with
  | nil =>
    -- what `t` leads back to can only be `v`
    obtain ⟨g, hg, hgt, -⟩ := h.inv.back t ht
    obtain rfl : g = v := List.mem_singleton.mp hg
    exact absurd (hgt.trans_eq hn) (Nat.not_le.mpr hlt)
  | cons f rest =>
    have hfv : f.1 ≠ v := h.ne List.mem_cons_self
    have hf : f.1 ∈ s.stack :=
      h.inv.onStack f.1 (List.mem_cons_of_mem _ (List.mem_map_of_mem List.mem_cons_self))
    have hnum : s.num f.1 < s.num v :=
      h.inv.num_lt (List.mem_map_of_mem (f := Prod.fst) (List.mem_cons_self (a := f)))
    have hreach : ReflTransGen (Edge adj) f.1 t :=
      (h.inv.base.up f.1 hf v h.top_mem hnum.le).trans hvt
    have hlowered := h.inv.lowerLow (v := f.1) ht hn fun _ => hreach
    have hv : (lowerLow f.1 (s.low v) s).low v = s.low v := lowerLow_low_of_ne hfv.symm _ _
    have hstill : (lowerLow f.1 (s.low v) s).low v < (lowerLow f.1 (s.low v) s).num v := hv.trans_lt hlt
    have hbelow : (lowerLow f.1 (s.low v) s).low f.1 ≤ (lowerLow f.1 (s.low v) s).low v := by
      rw [hv, lowerLow_low_self]
      exact min_le_right _ _
    have hinv := hlowered.finish (h.finished hnext) hstill hbelow
    obtain ⟨m', hm, hent⟩ := h.close (show (lowerLow f.1 (s.low v) s).index = s.index from rfl) hinv
    refine ⟨m', hm, looked, ?_⟩
    simpa only [visit, hnext, if_neg hroot] using hent

theorem Entered.visit (hadj : ∀ u w, Edge adj u w → w < adj.length)
    (h : Entered adj seen ((v, pi) :: rest) s m looked) :
    ∃ m', m = m' + 1 ∧ ∃ looked, Entered adj seen (visit adj v pi rest s).1
      (arrive (visit adj v pi rest s).2 (visit adj v pi rest s).1) m' looked := by
  have hmoved : ∀ f ∈ (v, pi + 1) :: rest, f.2 ≠ 0 := by
    intro f hf
    rcases List.mem_cons.mp hf with rfl | hf
    · exact Nat.succ_ne_zero pi
    · exact h.moved f hf
  cases hnext : (succs adj v)[pi]? with
  | some w =>
    by_cases hw : s.index w = none
    · obtain ⟨m', hm, hent⟩ := h.push hadj hnext hw
      refine ⟨m', hm, Function.update looked v (looked v + 1), ?_⟩
      simpa only [LockOrder.visit, hnext, if_pos hw, arrive] using hent
    · by_cases hon : s.onStack w = true
      · have hws := (h.inv.base.flag w).mp hon
        have hlowered : Entered adj seen ((v, pi) :: rest) (lowerLow v (s.num w) s) m looked :=
          { inv := h.inv.lowerLow hws rfl fun _ => .single (List.mem_of_getElem? hnext)
            cursor := h.cursor
            moved := h.moved
            seen := h.seen
            budget := h.budget }
        have hle : (lowerLow v (s.num w) s).low v ≤ s.num w := by
          rw [lowerLow_low_self]
          exact min_le_right _ _
        obtain ⟨m', hm, hent⟩ := hlowered.advance hnext (.inr ⟨hws, hle⟩)
        refine ⟨m', hm, Function.update looked v (looked v + 1), ?_⟩
        simpa only [LockOrder.visit, hnext, if_neg hw, if_pos hon, arrive_of_moved hmoved] using hent
      · have hout : w ∈ s.out.flatten :=
          ((h.inv.base.seen w).mp hw).resolve_left fun hws => hon ((h.inv.base.flag w).mpr hws)
        obtain ⟨m', hm, hent⟩ := h.advance hnext (.inl hout)
        refine ⟨m', hm, Function.update looked v (looked v + 1), ?_⟩
        simpa only [LockOrder.visit, hnext, if_neg hw, if_neg hon, arrive_of_moved hmoved] using hent
  | none =>
    have hwork : (LockOrder.visit adj v pi rest s).1 = rest := by
      cases rest <;> simp only [LockOrder.visit, hnext]
    have hrest : ∀ f ∈ (LockOrder.visit adj v pi rest s).1, f.2 ≠ 0 := by
      intro f hf
      rw [hwork] at hf
      exact h.moved f hf
    rw [arrive_of_moved hrest]
    by_cases hroot : s.low v = s.num v
    · exact h.close_root hnext hroot
    · exact h.close_other hnext hroot

theorem run_spec (hadj : ∀ u w, Edge adj u w → w < adj.length) (work : List Frame) (fuel : Nat) (s : State)
    (m : Nat) (looked : Nat → Nat) (h : Entered adj seen work (arrive s work) m looked) (hfuel : m ≤ fuel) :
    ∃ s', run adj fuel work s = some s' ∧ ∃ looked, Entered adj seen [] s' m looked := by
  induction fuel generalizing work s m looked with
  | zero =>
    match work with
    | [] => exact ⟨s, by rw [run], looked, h⟩
    | (v, pi) :: rest =>
      obtain ⟨m', rfl, -⟩ := h.visit hadj
      exact absurd hfuel (Nat.not_succ_le_zero m')
  | succ fuel ih =>
    match work with
    | [] => exact ⟨s, by rw [run], looked, h⟩
    | (v, pi) :: rest =>
      obtain ⟨m', rfl, looked', h'⟩ := h.visit hadj
      obtain ⟨s', hrun, looked'', hend⟩ := ih _ _ m' looked' h' (Nat.succ_le_succ_iff.mp hfuel)
      exact ⟨s', by rw [run]; exact hrun, looked'', hend.inv, hend.cursor, hend.moved, hend.seen,
        hend.budget.trans (Nat.le_succ m')⟩

end

/-! ## Lock-order cycles are the components of two or more classes

`tarjan_scc` returns the strongly connected components of the graph, each once (`tarjanScc_spec`). The graph
has an edge between two numbers when there is an observed edge between their classes, tagged with the
functions that contribute it (`Numbered`). So the reported cycles are the components of the classes
themselves.
-/

open Lib Relation

/-! ## All starts -/

section

variable {adj : List (List Nat)}

/-- The size of the graph: nodes and edges. -/
def size (adj : List (List Nat)) : Nat := (adj.map fun ws => ws.length + 1).sum

theorem sum_range_getD {β : Type} (f : List β → Nat) (xs : List (List β)) :
    ∑ v ∈ Finset.range xs.length, f (xs.getD v []) = (xs.map f).sum := by
  induction xs with
  | nil => rfl
  | cons x xs ih =>
    rw [List.length_cons, Finset.sum_range_succ', List.map_cons, List.sum_cons, ← ih, Nat.add_comm]
    rfl

theorem toGo_init (adj : List (List Nat)) : toGo adj .init [] (fun _ => 0) = size adj := by
  rw [size, ← sum_range_getD fun ws => ws.length + 1]
  refine Finset.sum_congr rfl fun v _ => ?_
  rw [rem_new rfl, succs, Nat.sub_zero]

theorem Entered.start {s : State} {m start : Nat} {looked : Nat → Nat}
    (h : Entered adj (· < start) [] s m looked) (hstart : start < adj.length) (hnew : s.index start = none) :
    Entered adj (· < start + 1) [(start, 0)] (enter start s) m looked where
  inv := h.inv.enter hnew hstart fun _ hp => nomatch hp
  cursor := by
    intro f hf
    obtain rfl : f = (start, 0) := List.mem_singleton.mp hf
    exact h.inv.untouched start hnew
  moved := fun f hf => nomatch hf
  seen := by
    intro v hv
    rcases Nat.lt_succ_iff_lt_or_eq.mp hv with hv | rfl
    · exact enter_visited start s (h.seen v hv)
    · simp [enter]
  budget := by
    have hsame : toGo adj (enter start s) [start] looked = toGo adj s [] looked :=
      Finset.sum_congr rfl fun x _ => rem_enter hnew x
    exact hsame.trans_le h.budget

theorem startAt_spec (hadj : ∀ u w, Edge adj u w → w < adj.length) {s : State} {m start fuel : Nat}
    {looked : Nat → Nat} (h : Entered adj (· < start) [] s m looked) (hstart : start < adj.length)
    (hfuel : m ≤ fuel) :
    ∃ s', startAt adj fuel s start = some s' ∧ ∃ looked, Entered adj (· < start + 1) [] s' m looked := by
  by_cases hnew : s.index start = none
  · rw [startAt, if_pos hnew]
    exact run_spec hadj [(start, 0)] fuel s m looked (h.start hstart hnew) hfuel
  · rw [startAt, if_neg hnew]
    refine ⟨s, rfl, looked, h.inv, h.cursor, h.moved, fun v hv => ?_, h.budget⟩
    rcases Nat.lt_succ_iff_lt_or_eq.mp hv with hv | rfl
    · exact h.seen v hv
    · exact hnew

theorem starts_spec (hadj : ∀ u w, Edge adj u w → w < adj.length) {fuel : Nat} (hfuel : size adj ≤ fuel)
    (k : Nat) (hk : k ≤ adj.length) :
    ∃ s, (List.range k).foldlM (startAt adj fuel) .init = some s ∧
      ∃ looked, Entered adj (· < k) [] s (size adj) looked := by
  induction k with
  | zero =>
    refine ⟨.init, rfl, fun _ => 0, ?_⟩
    exact
      { inv := .init
        cursor := fun f hf => nomatch hf
        moved := fun f hf => nomatch hf
        seen := fun v hv => absurd hv (Nat.not_lt_zero v)
        budget := (toGo_init adj).le }
  | succ k ih =>
    obtain ⟨s, hs, looked, hent⟩ := ih (Nat.le_of_succ_le hk)
    obtain ⟨s', hs', hent'⟩ := startAt_spec hadj hent hk hfuel
    refine ⟨s', ?_, hent'⟩
    rw [List.range_succ, List.foldlM_append, hs]
    simpa using hs'

/-- Each strongly connected component once, and no other. -/
structure Components (adj : List (List Nat)) (sccs : List (List Nat)) : Prop where
  comps : ∀ c ∈ sccs, IsComponent (Edge adj) {v | v ∈ c}
  nodup : sccs.flatten.Nodup
  mem_iff : ∀ v, v ∈ sccs.flatten ↔ v < adj.length

theorem tarjanScc_spec (hadj : ∀ u w, Edge adj u w → w < adj.length) {fuel : Nat}
    (hfuel : size adj ≤ fuel) : ∃ sccs, tarjanScc fuel adj = some sccs ∧ Components adj sccs := by
  obtain ⟨s, hs, looked, hent⟩ := starts_spec hadj hfuel adj.length le_rfl
  refine ⟨s.out, by rw [tarjanScc, hs]; rfl, hent.inv.base.comps, hent.inv.base.nodup, fun v => ?_⟩
  constructor
  · intro hv
    exact hent.inv.base.bound ((hent.inv.base.seen v).mpr (.inr hv))
  · intro hv
    refine ((hent.inv.base.seen v).mp (hent.seen v hv)).resolve_left fun hst => ?_
    -- without gray nodes the stack is empty
    obtain ⟨g, hg, -⟩ := hent.inv.back v hst
    cases hg

end

/-! ## The graph of the classes -/

def ClassEdge (edges : List TaggedEdge) (a b : String) : Prop :=
  ∃ e ∈ edges, e.fromClass = a ∧ e.toClass = b

/-- The numbers stand for the classes of the edges. -/
structure Numbered (edges : List TaggedEdge) (g : Graph) : Prop where
  nodup : g.names.Nodup
  length : g.adj.length = g.names.length
  size : size g.adj ≤ 3 * edges.length
  named : ∀ e ∈ edges, e.fromClass ∈ g.names ∧ e.toClass ∈ g.names
  edge : ∀ u v, Edge g.adj u v ↔
    ∃ e ∈ edges, g.names[u]? = some e.fromClass ∧ g.names[v]? = some e.toClass
  fns : ∀ u v f, (∃ fns, ((u, v), fns) ∈ g.edgeFns ∧ f ∈ fns) ↔
    ∃ e ∈ edges, g.names[u]? = some e.fromClass ∧ g.names[v]? = some e.toClass ∧ e.function = f

theorem getElem?_inj {names : List String} (h : names.Nodup) {i j : Nat} {a : String}
    (hi : names[i]? = some a) (hj : names[j]? = some a) : i = j := by
  obtain ⟨hlt, hi⟩ := List.getElem?_eq_some_iff.mp hi
  obtain ⟨hlt', hj⟩ := List.getElem?_eq_some_iff.mp hj
  exact (List.Nodup.getElem_inj_iff h).mp (hi.trans hj.symm)

theorem getElem?_of_extends {names names' : List String} (hpre : names <+: names') {i : Nat} {a : String}
    (hi : names[i]? = some a) : names'[i]? = some a := by
  obtain ⟨more, rfl⟩ := hpre
  rw [List.getElem?_append_left (List.getElem?_eq_some_iff.mp hi).1, hi]

theorem getElem?_extends_iff {names names' : List String} (h : names'.Nodup) (hpre : names <+: names')
    {a : String} (ha : a ∈ names) (u : Nat) : names'[u]? = some a ↔ names[u]? = some a := by
  constructor
  · intro hu
    obtain ⟨i, hi⟩ := List.mem_iff_getElem?.mp ha
    exact getElem?_inj h hu (getElem?_of_extends hpre hi) ▸ hi
  · exact getElem?_of_extends hpre

theorem node_spec (s : String) {names : List String} (h : names.Nodup) :
    names <+: (node s names).2 ∧ (node s names).2[(node s names).1]? = some s ∧
      (node s names).2.Nodup ∧ (node s names).2.length = max names.length ((node s names).1 + 1) ∧
      (node s names).2.length ≤ names.length + 1 := by
  rw [node]
  cases hfind : names.findIdx? (· == s) with
  | some i =>
    obtain ⟨hlt, hi, -⟩ := List.findIdx?_eq_some_iff_getElem.mp hfind
    refine ⟨List.prefix_rfl, ?_, h, (max_eq_left hlt).symm, Nat.le_succ _⟩
    rw [List.getElem?_eq_getElem hlt, eq_of_beq hi]
  | none =>
    have hnew : s ∉ names := fun hs => by
      have := List.findIdx?_eq_none_iff.mp hfind s hs
      simp at this
    refine ⟨List.prefix_append _ _, by simp, ?_, by simp, by simp⟩
    exact List.nodup_append.mpr ⟨h, List.nodup_singleton s, fun a ha b hb hab =>
      hnew (List.mem_singleton.mp hb ▸ hab ▸ ha)⟩

theorem ensure_length (adj : List (List Nat)) (n : Nat) : (ensure adj n).length = max adj.length (n + 1) := by
  rw [ensure, List.length_append, List.length_replicate]
  omega

theorem ensure_size (adj : List (List Nat)) (n : Nat) :
    size (ensure adj n) = size adj + (n + 1 - adj.length) := by
  simp [ensure, size]

theorem succs_ensure (adj : List (List Nat)) (n u : Nat) : succs (ensure adj n) u = succs adj u := by
  rw [succs, succs, ensure, List.getD_eq_getElem?_getD, List.getD_eq_getElem?_getD]
  rcases Nat.lt_or_ge u adj.length with hlt | hge
  · rw [List.getElem?_append_left hlt]
  · rw [List.getElem?_append_right hge, List.getElem?_eq_none hge, List.getElem?_replicate]
    split <;> rfl

theorem size_push {adj : List (List Nat)} {u : Nat} (hu : u < adj.length) (v : Nat) :
    size (adj.modify u (· ++ [v])) = size adj + 1 := by
  induction adj generalizing u with
  | nil => cases hu
  | cons ws adj ih =>
    cases u with
    | zero =>
      simp only [size, List.modify_zero_cons, List.map_cons, List.sum_cons, List.length_append, List.length_singleton]
      omega
    | succ u =>
      have := ih (Nat.lt_of_succ_lt_succ hu)
      simp only [size, List.modify_succ_cons, List.map_cons, List.sum_cons] at this ⊢
      omega

theorem edge_push {adj : List (List Nat)} {u : Nat} (hu : u < adj.length) (v x y : Nat) :
    Edge (adj.modify u (· ++ [v])) x y ↔ Edge adj x y ∨ x = u ∧ y = v := by
  rw [Edge, Edge, succs, succs, List.getD_eq_getElem?_getD, List.getD_eq_getElem?_getD, List.getElem?_modify]
  by_cases hxu : u = x
  · subst hxu
    simp [hu]
  · have hne : x ≠ u := fun h => hxu h.symm
    simp [hxu, hne]

theorem mem_pushFn (uv : Nat × Nat) (f : String) (tbl : List ((Nat × Nat) × List String)) (k : Nat × Nat)
    (x : String) : (∃ fns, (k, fns) ∈ pushFn uv f tbl ∧ x ∈ fns) ↔
      (∃ fns, (k, fns) ∈ tbl ∧ x ∈ fns) ∨ k = uv ∧ x = f := by
  induction tbl with
  | nil => simp [pushFn]
  | cons e tbl ih =>
    obtain ⟨k', fns'⟩ := e
    rw [pushFn]
    split
    case isTrue hk =>
      subst hk
      simp only [List.mem_cons, Prod.mk.injEq]
      constructor
      · rintro ⟨fns, ⟨rfl, rfl⟩ | hmem, hx⟩
        · rcases List.mem_append.mp hx with hx | hx
          · exact .inl ⟨fns', .inl ⟨rfl, rfl⟩, hx⟩
          · exact .inr ⟨rfl, List.mem_singleton.mp hx⟩
        · exact .inl ⟨fns, .inr hmem, hx⟩
      · rintro (⟨fns, ⟨rfl, rfl⟩ | hmem, hx⟩ | ⟨rfl, rfl⟩)
        · exact ⟨_, .inl ⟨rfl, rfl⟩, List.mem_append_left _ hx⟩
        · exact ⟨fns, .inr hmem, hx⟩
        · exact ⟨_, .inl ⟨rfl, rfl⟩, List.mem_append_right _ List.mem_cons_self⟩
    case isFalse hk =>
      simp only [List.mem_cons, or_and_right, exists_or, ih, or_assoc]

theorem Numbered.addEdge {edges : List TaggedEdge} {g : Graph} (h : Numbered edges g) (e : TaggedEdge) :
    Numbered (edges ++ [e]) (addEdge g e) := by
  obtain ⟨hpre₁, hu, hnd₁, hlen₁, hle₁⟩ := node_spec e.fromClass h.nodup
  obtain ⟨hpre₂, hv, hnd₂, hlen₂, hle₂⟩ := node_spec e.toClass hnd₁
  rw [LockOrder.addEdge]
  generalize hu' : node e.fromClass g.names = nu at *
  generalize hv' : node e.toClass nu.2 = nv at *
  have hpre : g.names <+: nv.2 := hpre₁.trans hpre₂
  have hu₂ : nv.2[nu.1]? = some e.fromClass := getElem?_of_extends hpre₂ hu
  have hmax : max g.adj.length (max nu.1 nv.1 + 1) = nv.2.length := by
    have := h.length
    omega
  have hlt : nu.1 < (ensure g.adj (max nu.1 nv.1)).length := by
    rw [ensure_length]
    omega
  -- an old edge or the new one, by the numbers of its classes
  have hold : ∀ (P : TaggedEdge → Prop) (x y : Nat),
      (∃ d ∈ edges ++ [e], nv.2[x]? = some d.fromClass ∧ nv.2[y]? = some d.toClass ∧ P d) ↔
        (∃ d ∈ edges, g.names[x]? = some d.fromClass ∧ g.names[y]? = some d.toClass ∧ P d) ∨
          (x = nu.1 ∧ y = nv.1) ∧ P e := by
    intro P x y
    constructor
    · intro ⟨d, hd, hx, hy, hP⟩
      rcases List.mem_append.mp hd with hd | hd
      · have hnamed := h.named d hd
        exact .inl ⟨d, hd, (getElem?_extends_iff hnd₂ hpre hnamed.1 x).mp hx,
          (getElem?_extends_iff hnd₂ hpre hnamed.2 y).mp hy, hP⟩
      · obtain rfl : d = e := List.mem_singleton.mp hd
        exact .inr ⟨⟨getElem?_inj hnd₂ hx hu₂, getElem?_inj hnd₂ hy hv⟩, hP⟩
    · rintro (⟨d, hd, hx, hy, hP⟩ | ⟨⟨rfl, rfl⟩, hP⟩)
      · exact ⟨d, List.mem_append_left _ hd, getElem?_of_extends hpre hx, getElem?_of_extends hpre hy, hP⟩
      · exact ⟨e, List.mem_append_right _ List.mem_cons_self, hu₂, hv, hP⟩
  exact
    { nodup := hnd₂
      length := by rw [List.length_modify, ensure_length, hmax]
      size := by
        have hsize := h.size
        have hlen := h.length
        rw [size_push hlt, ensure_size, List.length_append, List.length_singleton]
        omega
      named := by
        intro d hd
        rcases List.mem_append.mp hd with hd | hd
        · exact ⟨hpre.subset (h.named d hd).1, hpre.subset (h.named d hd).2⟩
        · obtain rfl : d = e := List.mem_singleton.mp hd
          exact ⟨List.mem_of_getElem? hu₂, List.mem_of_getElem? hv⟩
      edge := by
        intro x y
        have hall := hold (fun _ => True) x y
        simp only [and_true] at hall
        rw [edge_push hlt, hall, ← h.edge, Edge, Edge, succs_ensure]
      fns := by
        intro x y f
        rw [mem_pushFn, h.fns, hold (fun d => d.function = f) x y, Prod.mk.injEq, @eq_comm _ f] }

theorem numbered_empty : Numbered [] .empty where
  nodup := .nil
  length := rfl
  size := le_rfl
  named := fun e he => nomatch he
  edge := fun u v => by simp [Edge, succs, Graph.empty]
  fns := fun u v f => by simp [Graph.empty]

theorem graphOf_numbered (edges : List TaggedEdge) : Numbered edges (graphOf edges) := by
  induction edges using List.reverseRecOn with
  | nil => exact numbered_empty
  | append_singleton edges e ih =>
    rw [graphOf, List.foldl_append]
    exact ih.addEdge e

/-! ## Between numbers and classes -/

section

variable {edges : List TaggedEdge} {g : Graph}

theorem Numbered.lt_of_edge (h : Numbered edges g) (u w : Nat) (huw : Edge g.adj u w) : w < g.adj.length := by
  obtain ⟨e, -, -, hw⟩ := (h.edge u w).mp huw
  rw [h.length]
  exact (List.getElem?_eq_some_iff.mp hw).1

theorem Numbered.reach (h : Numbered edges g) {u v : Nat} {a b : String} (ha : g.names[u]? = some a)
    (hb : g.names[v]? = some b) (hr : ReflTransGen (Edge g.adj) u v) : ReflTransGen (ClassEdge edges) a b := by
  induction hr generalizing b with
  | refl =>
    rw [ha] at hb
    exact Option.some.inj hb ▸ .refl
  | tail _ hvw ih =>
    obtain ⟨e, he, hv, hw⟩ := (h.edge _ _).mp hvw
    rw [hw] at hb
    exact (ih hv).tail ⟨e, he, rfl, Option.some.inj hb⟩

theorem Numbered.lift (h : Numbered edges g) {u : Nat} {a b : String} (ha : g.names[u]? = some a)
    (hr : ReflTransGen (ClassEdge edges) a b) :
    ∃ v, g.names[v]? = some b ∧ ReflTransGen (Edge g.adj) u v := by
  induction hr with
  | refl => exact ⟨u, ha, .refl⟩
  | tail _ hbc ih =>
    obtain ⟨v, hv, hr⟩ := ih
    obtain ⟨e, he, rfl, rfl⟩ := hbc
    obtain ⟨w, hw⟩ := List.mem_iff_getElem?.mp (h.named e he).2
    exact ⟨w, hw, hr.tail ((h.edge v w).mpr ⟨e, he, hv, hw⟩)⟩

theorem Numbered.mutual_iff (h : Numbered edges g) {u v : Nat} {a b : String} (ha : g.names[u]? = some a)
    (hb : g.names[v]? = some b) : Mutual (Edge g.adj) u v ↔ Mutual (ClassEdge edges) a b := by
  constructor
  · intro ⟨huv, hvu⟩
    exact ⟨h.reach ha hb huv, h.reach hb ha hvu⟩
  · intro ⟨hab, hba⟩
    obtain ⟨v', hv', hr⟩ := h.lift ha hab
    obtain ⟨u', hu', hr'⟩ := h.lift hb hba
    exact ⟨getElem?_inj h.nodup hv' hb ▸ hr, getElem?_inj h.nodup hu' ha ▸ hr'⟩

theorem Numbered.exists_number (h : Numbered edges g) {a b : String} (hne : a ≠ b)
    (hr : ReflTransGen (ClassEdge edges) a b) : ∃ u : Nat, g.names[u]? = some a := by
  rcases ReflTransGen.cases_head hr with hab | ⟨c, ⟨e, he, rfl, -⟩, -⟩
  · exact absurd hab hne
  · exact List.mem_iff_getElem?.mp (h.named e he).1

end

/-! ## The report -/

section

variable {edges : List TaggedEdge} {g : Graph} {sccs : List (List Nat)}

theorem mem_sorted {xs : List String} {a : String} : a ∈ sorted xs ↔ a ∈ xs := List.mem_mergeSort

theorem sorted_perm (xs : List String) : (sorted xs).Perm xs := List.mergeSort_perm xs _

theorem getD_of_lt {i : Nat} (hi : i < g.names.length) : g.names[i]? = some (g.names.getD i "") := by
  rw [List.getD_eq_getElem?_getD, List.getElem?_eq_getElem hi, Option.getD_some]

theorem Components.lt (hc : Components g.adj sccs) (h : Numbered edges g) {scc : List Nat} (hscc : scc ∈ sccs)
    {i : Nat} (hi : i ∈ scc) : i < g.names.length := by
  rw [← h.length]
  exact (hc.mem_iff i).mp (List.mem_flatten_of_mem hscc hi)

theorem mem_classes (hc : Components g.adj sccs) (h : Numbered edges g) {scc : List Nat} (hscc : scc ∈ sccs)
    {a : String} : a ∈ (cycleOf g scc).classes ↔ ∃ i ∈ scc, g.names[i]? = some a := by
  rw [cycleOf, mem_sorted, List.mem_map]
  constructor
  · rintro ⟨i, hi, rfl⟩
    exact ⟨i, hi, getD_of_lt (hc.lt h hscc hi)⟩
  · intro ⟨i, hi, ha⟩
    refine ⟨i, hi, ?_⟩
    rw [getD_of_lt (hc.lt h hscc hi)] at ha
    exact Option.some.inj ha

theorem mem_classes_iff (hc : Components g.adj sccs) (h : Numbered edges g) {scc : List Nat}
    (hscc : scc ∈ sccs) {i : Nat} {a : String} (ha : g.names[i]? = some a) :
    a ∈ (cycleOf g scc).classes ↔ i ∈ scc := by
  rw [mem_classes hc h hscc]
  constructor
  · intro ⟨j, hj, ha'⟩
    exact getElem?_inj h.nodup ha' ha ▸ hj
  · intro hi
    exact ⟨i, hi, ha⟩

theorem nodup_classes (hc : Components g.adj sccs) (h : Numbered edges g) {scc : List Nat}
    (hscc : scc ∈ sccs) : (cycleOf g scc).classes.Nodup := by
  refine (sorted_perm _).nodup_iff.mpr (List.Nodup.map_on ?_ ((List.nodup_flatten.mp hc.nodup).1 scc hscc))
  intro i hi j hj hij
  refine getElem?_inj h.nodup (getD_of_lt (hc.lt h hscc hi)) ?_
  rw [hij]
  exact getD_of_lt (hc.lt h hscc hj)

theorem mem_functions (hc : Components g.adj sccs) (h : Numbered edges g) {scc : List Nat}
    (hscc : scc ∈ sccs) (f : String) : f ∈ (cycleOf g scc).functions ↔ ∃ e ∈ edges, e.function = f ∧
      e.fromClass ∈ (cycleOf g scc).classes ∧ e.toClass ∈ (cycleOf g scc).classes := by
  have hmem : f ∈ (cycleOf g scc).functions ↔
      ∃ u ∈ scc, ∃ v ∈ scc, ∃ fns, ((u, v), fns) ∈ g.edgeFns ∧ f ∈ fns := by
    rw [cycleOf, List.mem_dedup, mem_sorted, List.mem_flatMap]
    constructor
    · intro ⟨⟨⟨u, v⟩, fns⟩, hin, hf⟩
      obtain ⟨htbl, hboth⟩ := List.mem_filter.mp hin
      obtain ⟨hu, hv⟩ := Bool.and_eq_true_iff.mp hboth
      exact ⟨u, List.contains_iff_mem.mp hu, v, List.contains_iff_mem.mp hv, fns, htbl, hf⟩
    · intro ⟨u, hu, v, hv, fns, htbl, hf⟩
      refine ⟨((u, v), fns), List.mem_filter.mpr ⟨htbl, ?_⟩, hf⟩
      exact Bool.and_eq_true_iff.mpr ⟨List.contains_iff_mem.mpr hu, List.contains_iff_mem.mpr hv⟩
  rw [hmem]
  constructor
  · intro ⟨u, hu, v, hv, hf⟩
    obtain ⟨e, he, hfrom, hto, hfun⟩ := (h.fns u v f).mp hf
    exact ⟨e, he, hfun, (mem_classes_iff hc h hscc hfrom).mpr hu, (mem_classes_iff hc h hscc hto).mpr hv⟩
  · intro ⟨e, he, hfun, hfrom, hto⟩
    obtain ⟨u, hu, hfrom⟩ := (mem_classes hc h hscc).mp hfrom
    obtain ⟨v, hv, hto⟩ := (mem_classes hc h hscc).mp hto
    exact ⟨u, hu, v, hv, (h.fns u v f).mpr ⟨e, he, hfrom, hto, hfun⟩⟩

/-- Two different classes are in one reported component exactly when each is reachable from the other. -/
theorem together_iff (hc : Components g.adj sccs) (h : Numbered edges g) {a b : String} (hne : a ≠ b) :
    (∃ scc ∈ sccs, 2 ≤ scc.length ∧ a ∈ (cycleOf g scc).classes ∧ b ∈ (cycleOf g scc).classes) ↔
      Mutual (ClassEdge edges) a b := by
  constructor
  · intro ⟨scc, hscc, _, ha, hb⟩
    obtain ⟨u, hu, hua⟩ := (mem_classes hc h hscc).mp ha
    obtain ⟨v, hv, hvb⟩ := (mem_classes hc h hscc).mp hb
    exact (h.mutual_iff hua hvb).mp (((hc.comps scc hscc).mem_iff hu).mp hv)
  · intro hab
    obtain ⟨u, hu⟩ := h.exists_number hne hab.1
    obtain ⟨v, hv⟩ := h.exists_number hne.symm hab.2
    have huadj : u < g.adj.length := h.length ▸ (List.getElem?_eq_some_iff.mp hu).1
    obtain ⟨scc, hscc, huscc⟩ := List.mem_flatten.mp ((hc.mem_iff u).mpr huadj)
    have hvscc : v ∈ scc := ((hc.comps scc hscc).mem_iff huscc).mpr ((h.mutual_iff hu hv).mpr hab)
    refine ⟨scc, hscc, ?_, (mem_classes_iff hc h hscc hu).mpr huscc,
      (mem_classes_iff hc h hscc hv).mpr hvscc⟩
    have huv : u ≠ v := by
      rintro rfl
      exact hne (Option.some.inj (hu.symm.trans hv))
    match scc, huscc, hvscc with
    | [w], hu, hv => exact absurd ((List.mem_singleton.mp hu).trans (List.mem_singleton.mp hv).symm) huv
    | _ :: _ :: _, _, _ => exact Nat.le_add_left 2 _

end

/-- Twice as many iterations as there are edges, and one for each edge again, are enough. The reported cycles
are the components of two or more classes, each class in at most one of them, with the functions of the
edges inside. -/
theorem detectCycles_exact (edges : List TaggedEdge) (more : Nat) :
    ∃ cycles, detectCycles (3 * edges.length + more) edges = some cycles ∧
      (∀ a b, a ≠ b → ((∃ c ∈ cycles, a ∈ c.classes ∧ b ∈ c.classes) ↔
        ReflTransGen (ClassEdge edges) a b ∧ ReflTransGen (ClassEdge edges) b a)) ∧
      (cycles.map LockOrderCycle.classes).flatten.Nodup ∧
      (∀ c ∈ cycles, 2 ≤ c.classes.length) ∧
      ∀ c ∈ cycles, c.functions.Nodup ∧ ∀ f, f ∈ c.functions ↔
        ∃ e ∈ edges, e.function = f ∧ e.fromClass ∈ c.classes ∧ e.toClass ∈ c.classes := by
  have h := graphOf_numbered edges
  obtain ⟨sccs, hrun, hc⟩ := tarjanScc_spec h.lt_of_edge (h.size.trans (Nat.le_add_right _ more))
  have hmem : ∀ c, c ∈ (((sccs.filter fun scc => decide (2 ≤ scc.length)).map
      (cycleOf (graphOf edges))).mergeSort fun a b => decide (a.classes ≤ b.classes)) ↔
        ∃ scc ∈ sccs, 2 ≤ scc.length ∧ cycleOf (graphOf edges) scc = c := by
    intro c
    simp only [List.mem_mergeSort, List.mem_map, List.mem_filter, decide_eq_true_eq, and_assoc]
  refine ⟨_, by rw [detectCycles, hrun]; rfl, ?_, ?_, ?_, ?_⟩
  · intro a b hne
    rw [← Mutual, ← together_iff hc h hne]
    constructor
    · intro ⟨c, hcm, hab⟩
      obtain ⟨scc, hscc, hlen, rfl⟩ := (hmem c).mp hcm
      exact ⟨scc, hscc, hlen, hab⟩
    · intro ⟨scc, hscc, hlen, hab⟩
      exact ⟨cycleOf (graphOf edges) scc, (hmem _).mpr ⟨scc, hscc, hlen, rfl⟩, hab⟩
  · refine List.nodup_flatten.mpr ⟨?_, ?_⟩
    · intro cs hcs
      obtain ⟨c, hcm, rfl⟩ := List.mem_map.mp hcs
      obtain ⟨scc, hscc, -, rfl⟩ := (hmem c).mp hcm
      exact nodup_classes hc h hscc
    · refine (((List.mergeSort_perm _ _).map _).pairwise_iff List.Disjoint.symm).mpr ?_
      rw [List.map_map]
      refine List.pairwise_map.mpr ?_
      refine ((List.nodup_flatten.mp hc.nodup).2.sublist List.filter_sublist).imp_of_mem ?_
      intro c c' hcm hcm' hdisj a ha ha'
      have hscc := (List.mem_filter.mp hcm).1
      have hscc' := (List.mem_filter.mp hcm').1
      obtain ⟨i, hi, hia⟩ := (mem_classes hc h hscc).mp ha
      exact hdisj hi ((mem_classes_iff hc h hscc' hia).mp ha')
  · intro c hcm
    obtain ⟨scc, -, hlen, rfl⟩ := (hmem c).mp hcm
    rw [cycleOf, (sorted_perm _).length_eq, List.length_map]
    exact hlen
  · intro c hcm
    obtain ⟨scc, hscc, -, rfl⟩ := (hmem c).mp hcm
    exact ⟨List.nodup_dedup _, mem_functions hc h hscc⟩

end Csolver.LockOrder
