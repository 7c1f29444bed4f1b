import Csolver.Interleave.WeakmemState
import Mathlib.Algebra.Order.BigOperators.Group.List

/-!
# The weak model contains sequential consistency

A run in which every write is flushed at once and then reaches every other view before anything else
happens is a sequentially consistent run. A write is dropped from the list of pending writes by the
propagation that reaches the last view. A thread that is alone has no other view to reach, so its writes stay
on their way for ever, and a run in which it writes is never complete.
-/

namespace Csolver

open Lib

namespace Interleave

namespace Weakmem

variable {threads : List Thread}

abbrev Moves (weak : Bool) : OpState threads.length → OpState threads.length → Prop :=
  Relation.ReflTransGen fun st st' => ∃ act, Move weak st act st'

theorem Reachable.moves {weak : Bool} {st st' : OpState threads.length} (h : Reachable threads weak st)
    (hm : Moves weak st st') : Reachable threads weak st' := by
  induction hm with
  | refl => exact h
  | tail _ hstep ih =>
    obtain ⟨act, hmove⟩ := hstep
    exact .step ih hmove

/-! ## Empty buffers -/

theorem bufsEmpty_iff_total {st : OpState threads.length} {t : Fin threads.length} :
    bufsEmpty st t = true ↔ (st.bufs.get t).total List.length = 0 := by
  rw [bufsEmpty, SortedMap.total, List.all_eq_true, List.sum_eq_zero_iff_forall_eq_nat]
  simp only [List.mem_map, List.isEmpty_iff]
  constructor
  · rintro h n ⟨e, he, rfl⟩
    rw [h e he]
    rfl
  · intro h e he
    exact List.eq_nil_of_length_eq_zero (h _ ⟨e, he, rfl⟩)

/-- Nothing is buffered or on its way. -/
def Quiet (st : OpState threads.length) : Prop := (∀ t, bufsEmpty st t = true) ∧ st.pending = []

theorem Quiet.drained {st : OpState threads.length} (h : Quiet st) (t : Fin threads.length) :
    drained st t = true := by
  rw [Weakmem.drained, noPendingFrom, h.1 t, h.2]
  rfl

/-! ## Reaching every view -/

theorem missing_eq_zero {p : Pending threads.length} : p.missing = 0 ↔ ∀ u, p.delivered.get u = true := by
  rw [Pending.missing, List.count_eq_zero]
  constructor
  · intro h u
    by_contra hu
    have hfalse : p.delivered.get u = false := by simpa using hu
    exact h (hfalse ▸ List.mem_of_getElem? (getElem?_toList p.delivered u))
  · intro h hmem
    obtain ⟨i, hi⟩ := List.mem_iff_getElem?.mp hmem
    have hlt : i < threads.length := by
      have := (List.getElem?_eq_some_iff.mp hi).1
      simpa using this
    have hget := getElem?_toList p.delivered ⟨i, hlt⟩
    rw [h ⟨i, hlt⟩, hi] at hget
    exact absurd hget (by simp)

theorem reached_eq {p : Pending threads.length} {u : Fin threads.length} (h : p.delivered.get u = false) :
    reached p u = if p.missing = 1 then [] else [{ p with delivered := p.delivered.set u true }] := by
  have hset := missing_set h
  have hall : (p.delivered.set u true).toList.all id = true ↔ p.missing = 1 := by
    rw [← hset, Nat.succ_inj, Pending.missing, List.count_eq_zero, List.all_eq_true]
    constructor
    · intro h hmem
      exact absurd (h _ hmem) (by simp)
    · intro h b hb
      cases b with
      | true => rfl
      | false => exact absurd hb h
  simp only [reached, hall]

/-- The views once the write has reached every one. -/
def spread (st : OpState threads.length) (p : Pending threads.length) :
    List.Vector (SortedMap String Nat) threads.length :=
  .ofFn fun u => if p.delivered.get u then st.views.get u else (st.views.get u).insert p.loc p.tag

section Spread

variable {st : OpState threads.length} {p : Pending threads.length} {u : Fin threads.length}

theorem exists_not_delivered (h : p.missing ≠ 0) : ∃ u, p.delivered.get u = false := by
  by_contra hno
  simp only [not_exists, Bool.not_eq_false] at hno
  exact h (missing_eq_zero.mpr hno)

theorem observed_single (hp : st.pending = [p]) :
    (st.observed 0 p u).pending = reached p u := by
  obtain ⟨post, hsplit, hdel⟩ := pending_split (u := u) (show st.pending[0]? = some p by rw [hp]; rfl)
  have hpost : post = [] := by
    rw [hp] at hsplit
    simpa using hsplit.symm
  rw [OpState.observed]
  simp only
  rw [hdel, hpost, List.append_nil]
  rfl

theorem spread_observed (hu : p.delivered.get u = false) :
    spread (st.observed 0 p u) { p with delivered := p.delivered.set u true } = spread st p := by
  apply List.Vector.ext
  intro w
  simp only [spread, OpState.observed, List.Vector.get_ofFn, List.Vector.get_set_eq_if]
  by_cases hw : u = w
  · subst hw
    simp [hu]
  · simp [hw]

theorem spread_done (h : ∀ u, p.delivered.get u = true) : spread st p = st.views := by
  apply List.Vector.ext
  intro w
  simp [spread, h w]

theorem propagate_all (k : Nat) (hp : st.pending = [p]) (hk : p.missing = k + 1) :
    Moves true st { st with views := spread st p, pending := [] } := by
  induction k generalizing st p with
  | zero =>
    obtain ⟨u, hu⟩ := exists_not_delivered (p := p) (by omega)
    have hmove : Move true st (.observe p u) (st.observed 0 p u) :=
      .observe rfl (by rw [hp]; rfl) hu (by simp [blocked])
    -- the write is dropped, and it had reached all other views before
    have hpending : (st.observed 0 p u).pending = [] := by
      rw [observed_single hp, reached_eq hu, if_pos hk]
    have hmissing := missing_set hu
    have hviews : (st.observed 0 p u).views = spread st p := by
      rw [← spread_observed hu]
      exact (spread_done (missing_eq_zero.mp (by omega))).symm
    have hst : st.observed 0 p u = { st with views := spread st p, pending := [] } := by
      rw [← hviews, ← hpending]
      rfl
    rw [← hst]
    exact .single ⟨_, hmove⟩
  | succ k ih =>
    obtain ⟨u, hu⟩ := exists_not_delivered (p := p) (by omega)
    have hmove : Move true st (.observe p u) (st.observed 0 p u) :=
      .observe rfl (by rw [hp]; rfl) hu (by simp [blocked])
    have hpending : (st.observed 0 p u).pending = [{ p with delivered := p.delivered.set u true }] := by
      rw [observed_single hp, reached_eq hu, if_neg (by omega)]
    have hmissing := missing_set hu
    have hrest := ih hpending (by omega)
    rw [spread_observed hu] at hrest
    exact .head ⟨_, hmove⟩ hrest

end Spread

/-! ## The simulation -/

section Simulation

variable {S W : OpState threads.length} {t : Fin threads.length} {i : Nat} {ev : Event} {x : String}

/-- The two states differ in nothing that can be observed, and nothing is on its way in either. -/
structure Copies (S W : OpState threads.length) : Prop where
  consumed : W.consumed = S.consumed
  views : W.views = S.views
  held : W.held = S.held
  spawned : W.spawned = S.spawned
  obs : W.obs = S.obs
  quietS : Quiet S
  quietW : Quiet W

theorem takeable_mono {events : List Event} {consumed : List Bool} (h : takeable events consumed i false = true) :
    takeable events consumed i true = true := by
  rw [takeable] at h ⊢
  split at h
  · exact h
  · simp only [Bool.and_eq_true, List.all_eq_true] at h ⊢
    refine ⟨h.1, fun j hj => ?_⟩
    have := h.2 j hj
    simp only [Bool.false_and, Bool.and_false, Bool.or_false] at this
    rw [this, Bool.true_or]

theorem Copies.opRead_eq (h : Copies S W) : opRead W t x = opRead S t x := by
  rw [Weakmem.opRead_eq, Weakmem.opRead_eq, bufsEmpty_buf (h.quietS.1 t), bufsEmpty_buf (h.quietW.1 t)]
  simp [view, h.views]

theorem Copies.ready (h : Copies S W) (hr : Ready S t ev) : Ready W t ev := by
  cases ev with
  | fence =>
    refine ⟨h.quietW.drained t, ?_⟩
    rw [noPendingTo, h.quietW.2]
    rfl
  | wfence => exact h.quietW.drained t
  | spawn name => exact h.quietW.drained t
  | release l => exact h.quietW.drained t
  | acquire l =>
    refine ⟨fun o ho => ?_, h.quietW.drained t⟩
    rw [h.held]
    exact hr.1 o ho
  | join =>
    refine ⟨?_, h.quietW.drained t⟩
    have hc := hr.1
    rw [childrenOk, List.all_eq_true] at hc ⊢
    intro c hmem
    have := hc c hmem
    rw [h.quietS.drained c] at this
    rw [h.quietW.drained c, h.consumed]
    exact this
  | _ => trivial

theorem effect_views_none (hw : ev.writes = none) {weak : Bool} : (effect S weak t i ev).views = S.views := by
  cases ev with
  | write x => exact absurd hw (by simp [Event.writes])
  | rmw x => exact absurd hw (by simp [Event.writes])
  | spawn name =>
    rw [effect]
    split <;> rfl
  | _ => rfl

theorem effect_bufs_none (hw : ev.writes = none) {weak : Bool} : (effect S weak t i ev).bufs = S.bufs := by
  rw [effect_bufs, hw]
  cases weak <;> rfl

theorem Copies.effect_none (h : Copies S W) (hw : ev.writes = none) :
    Copies ((effect S false t i ev).mark t i) ((effect W true t i ev).mark t i) := by
  have hquiet {st : OpState threads.length} {weak : Bool} (hq : Quiet st) :
      Quiet ((effect st weak t i ev).mark t i) := by
    refine ⟨fun u => ?_, ?_⟩
    · have := hq.1 u
      simpa [OpState.mark, bufsEmpty, effect_bufs_none hw] using this
    · simp only [OpState.mark, effect_pending]
      exact hq.2
  constructor
  · simp [OpState.mark, h.consumed]
  · simp [OpState.mark, effect_views_none hw, h.views]
  · simp only [OpState.mark, effect_held, h.held]
  · simp only [OpState.mark, effect_spawned, h.spawned]
  · simp only [OpState.mark, effect_obs, h.obs, h.opRead_eq]
  · exact hquiet h.quietS
  · exact hquiet h.quietW

/-! ### A write -/

theorem effect_views_some (hw : ev.writes = some x) :
    (effect S false t i ev).views = S.views.map fun m => m.insert x (writeTag threads t i) := by
  cases ev with
  | write y =>
    obtain rfl : y = x := by simpa [Event.writes] using hw
    rfl
  | rmw y =>
    obtain rfl : y = x := by simpa [Event.writes] using hw
    rfl
  | _ => exact absurd hw (by simp [Event.writes])

theorem effect_bufs_some (hw : ev.writes = some x) : (effect W true t i ev).bufs =
    W.bufs.set t (pushBuf (W.bufs.get t) x (writeTag threads t i)) := by
  rw [effect_bufs, hw]

theorem pushBuf_get_self {m : SortedMap String (List Nat)} {tag : Nat} (h : (m.get x).getD [] = []) :
    (pushBuf m x tag).get x = some [tag] := by
  rw [pushBuf]
  split
  · next b hb =>
    have hnil : b = [] := by simpa [hb] using h
    simp [hb, hnil]
  · simp

theorem flush_total (m : SortedMap String (List Nat)) (tag : Nat) (h : m.total List.length = 0)
    (hx : (m.get x).getD [] = []) : ((pushBuf m x tag).modify List.tail x).total List.length = 0 := by
  have hself : (pushBuf m x tag).get x = some [tag] := pushBuf_get_self hx
  have hmod := SortedMap.total_modify List.length List.tail hself
  have hpush := total_pushBuf m x tag
  simp at hmod
  omega

theorem Copies.effect_some (h : Copies S W) (hw : ev.writes = some x) (hn : 2 ≤ threads.length) :
    ∃ W', Moves true ((effect W true t i ev).mark t i) W' ∧ Copies ((effect S false t i ev).mark t i) W' := by
  have hempty : ((W.bufs.get t).get x).getD [] = [] := bufsEmpty_buf (h.quietW.1 t) x
  have hbufs : ((effect W true t i ev).mark t i).bufs = _ := effect_bufs_some hw
  have hhead : ((((effect W true t i ev).mark t i).bufs.get t)).get x = some [writeTag threads t i] := by
    rw [hbufs, List.Vector.get_set_same]
    exact pushBuf_get_self hempty
  have hflush : Move true ((effect W true t i ev).mark t i) (.flush t x (writeTag threads t i)) _ :=
    .flush rfl hhead
  have hfresh := missing_fresh t x (writeTag threads t i)
  have hpending : (((effect W true t i ev).mark t i).flushed t x (writeTag threads t i)).pending =
      [⟨t, x, writeTag threads t i, (List.Vector.replicate _ false).set t true⟩] := by
    simp [OpState.flushed, OpState.mark, h.quietW.2]
  have hspread := propagate_all (threads.length - 2) hpending (by omega)
  refine ⟨_, .head ⟨_, hflush⟩ hspread, ?_⟩
  constructor
  · simp [OpState.flushed, OpState.mark, h.consumed]
  · apply List.Vector.ext
    intro u
    simp only [spread, OpState.flushed, OpState.mark, effect_views_weak, effect_views_some hw, h.views,
      List.Vector.get_ofFn, List.Vector.get_map, List.Vector.get_set_eq_if]
    by_cases hu : t = u
    · simp [hu]
    · simp [hu]
  · simp only [OpState.flushed, OpState.mark, effect_held, h.held]
  · simp only [OpState.flushed, OpState.mark, effect_spawned, h.spawned]
  · simp only [OpState.flushed, OpState.mark, effect_obs, h.obs, h.opRead_eq]
  · refine ⟨fun u => ?_, ?_⟩
    · have hS := h.quietS.1 u
      simpa [OpState.mark, bufsEmpty, effect_bufs] using hS
    · simpa [OpState.mark] using h.quietS.2
  · refine ⟨fun u => ?_, rfl⟩
    rw [bufsEmpty_iff_total]
    simp only [OpState.flushed]
    rw [hbufs, List.Vector.get_set_same, List.Vector.get_set_eq_if]
    split
    · exact flush_total _ _ (bufsEmpty_iff_total.mp (h.quietW.1 t)) hempty
    · next hu =>
      rw [List.Vector.get_set_of_ne hu]
      exact bufsEmpty_iff_total.mp (h.quietW.1 u)

/-! ### Runs -/

variable (threads) in
/-- A thread that writes is not alone. -/
def Accompanied : Prop := (∃ t ∈ threads, t.written ≠ []) → threads.length ≠ 1

theorem Accompanied.two_le (h : Accompanied threads) (hev : (threads.get t).events[i]? = some ev)
    (hw : ev.writes = some x) : 2 ≤ threads.length := by
  have hne := h ⟨threads.get t, List.get_mem threads t, List.ne_nil_of_mem
    (List.mem_filterMap.mpr ⟨ev, List.mem_of_getElem? hev, hw⟩)⟩
  have := t.2
  omega

theorem Copies.step {act : Act threads.length} {S' : OpState threads.length} (h : Copies S W)
    (hn : Accompanied threads) (hmove : Move false S act S') : ∃ W', Moves true W W' ∧ Copies S' W' := by
  cases act with
  | flush t x v => cases hmove with | flush hweak => exact absurd hweak (by simp)
  | observe p u => cases hmove with | observe hweak => exact absurd hweak (by simp)
  | exec t i =>
    obtain ⟨ev, hs, ht, hev, hready, rfl⟩ := hmove.of_exec
    have hexec : Move true W (.exec t i) ((effect W true t i ev).mark t i) := by
      apply Move.exec_of
      · rw [h.spawned]
        exact hs
      · rw [h.consumed]
        exact takeable_mono ht
      · exact hev
      · exact h.ready hready
    cases hw : ev.writes with
    | none => exact ⟨_, .single ⟨_, hexec⟩, h.effect_none hw⟩
    | some x =>
      obtain ⟨W', hrest, hcopies⟩ := h.effect_some (t := t) (i := i) hw (hn.two_le hev hw)
      exact ⟨W', .head ⟨_, hexec⟩ hrest, hcopies⟩

theorem quiet_initial : Quiet (initial threads) := by
  refine ⟨fun t => ?_, rfl⟩
  simp [bufsEmpty, initial]

theorem exists_copies (hn : Accompanied threads) (h : Reachable threads false S) :
    ∃ W, Reachable threads true W ∧ Copies S W := by
  induction h with
  | init => exact ⟨initial threads, .init, ⟨rfl, rfl, rfl, rfl, rfl, quiet_initial, quiet_initial⟩⟩
  | step _ hmove ih =>
    obtain ⟨W, hW, hcopies⟩ := ih
    obtain ⟨W', hrest, hcopies'⟩ := hcopies.step hn hmove
    exact ⟨W', hW.moves hrest, hcopies'⟩

theorem observes_weak (hn : Accompanied threads) {obs : SortedMap Nat Nat} (h : Observes threads false obs) :
    Observes threads true obs := by
  obtain ⟨S, hS, hobs⟩ := h
  obtain ⟨W, hW, hcopies⟩ := exists_copies hn hS
  obtain ⟨⟨hc, _, _⟩, rfl⟩ := terminal_eq_some.mp hobs
  refine ⟨W, hW, terminal_eq_some.mpr ⟨⟨?_, hcopies.quietW.1, hcopies.quietW.2⟩, hcopies.obs⟩⟩
  rw [hcopies.consumed]
  exact hc

end Simulation

end Weakmem

end Interleave

end Csolver
