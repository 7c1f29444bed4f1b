import Csolver.Interleave.Contains

/-!
# Programs that lock are robust

If a location that one thread writes and another one touches is accessed under its lock only, then what the
weak model observes is observed sequentially. While a write is on its way, its writer holds the lock, since
a release waits for the write; so nobody else can read or write the location in the meantime, and a thread
that reads sees what was written last. A read that is taken early is repeated, in the sequential run, when
its turn comes: the lock is still held, and the location has not changed.
-/

namespace Csolver

open Lib

namespace Interleave

namespace Weakmem

variable {threads : List Thread}

/-! ## The discipline -/

variable (threads) in
/-- One thread writes the location, and another one touches it. -/
def Contested (x : String) : Prop :=
  ∃ t u : Fin threads.length, t ≠ u ∧ x ∈ (threads.get t).written ∧ x ∈ (threads.get u).touched

def Event.Accesses (ev : Event) (x : String) : Prop := ev.reads = some x ∨ ev.writes = some x

variable (threads) in
/-- Every access to a contested location is made while holding the lock of the location. -/
def Disciplined (lock : String → String) : Prop :=
  ∀ (st st' : OpState threads.length) (t : Fin threads.length) (i : Nat) (ev : Event) (x : String),
    Reachable threads true st → Move true st (.exec t i) st' → (threads.get t).events[i]? = some ev →
    Event.Accesses ev x → Contested threads x → lock x ∈ st.held.get t

section

variable {t : Fin threads.length} {i : Nat} {ev : Event} {x : String}

theorem mem_written (hev : (threads.get t).events[i]? = some ev) (hw : ev.writes = some x) :
    x ∈ (threads.get t).written :=
  List.mem_filterMap.mpr ⟨ev, List.mem_of_getElem? hev, hw⟩

theorem mem_touched (hev : (threads.get t).events[i]? = some ev) (ha : Event.Accesses ev x) :
    x ∈ (threads.get t).touched := by
  refine List.mem_filterMap.mpr ⟨ev, List.mem_of_getElem? hev, ?_⟩
  rcases ha with h | h
  · simp [h]
  · cases ev with
    | write y => simpa [Event.reads, Event.writes] using h
    | rmw y => simpa [Event.reads, Event.writes] using h
    | _ => exact absurd h (by simp [Event.writes])

end

/-! ## Writes on their way -/

section Memory

variable (lock : String → String) (mem : String → Nat) (W : OpState threads.length)

/-- Some write of the thread to the location is buffered or on its way. -/
def InFlight (w : Fin threads.length) (x : String) : Prop :=
  buf W w x ≠ [] ∨ ∃ q ∈ W.pending, q.loc = x

/-- Only the thread has writes to the location on their way, and every view comes to the last write. -/
structure Flight (w : Fin threads.length) (x : String) : Prop where
  buffered : ∀ u, u ≠ w → buf W u x = []
  writer : ∀ q ∈ W.pending, q.loc = x → q.writer = w
  locked : InFlight W w x → x ∈ (threads.get w).written ∧ (Contested threads x → lock x ∈ W.held.get w)
  latest : ∀ u, (undelivered W u x ++ buf W w x).getLastD (view W u x) = mem x

/-- What holds of locks, buffers and views, if memory is what was written last. -/
structure Settles : Prop where
  own : ∀ q ∈ W.pending, q.delivered.get q.writer = true
  exclusive : ∀ l t u, l ∈ W.held.get t → l ∈ W.held.get u → t = u
  flight : ∀ x, ∃ w, Flight lock mem W w x

end Memory

section Access

variable {lock : String → String} {mem : String → Nat} {W : OpState threads.length}
  {t w : Fin threads.length} {x : String}

theorem Settles.undelivered_own (h : Settles lock mem W) (hf : Flight lock mem W w x) : undelivered W w x = [] := by
  rw [undelivered, List.map_eq_nil_iff, List.filter_eq_nil_iff]
  intro q hq howed
  rw [owed, Bool.and_eq_true, decide_eq_true_eq] at howed
  have hown := h.own q hq
  rw [hf.writer q hq howed.1] at hown
  simp [hown] at howed

theorem undelivered_eq_nil {u : Fin threads.length} (h : ¬ InFlight W w x) : undelivered W u x = [] := by
  rw [undelivered, List.map_eq_nil_iff, List.filter_eq_nil_iff]
  intro q hq howed
  rw [owed, Bool.and_eq_true, decide_eq_true_eq] at howed
  exact h (.inr ⟨q, hq, howed.1⟩)

theorem Settles.access (h : Settles lock mem W) (hf : Flight lock mem W w x) (hin : InFlight W w x)
    (htouch : x ∈ (threads.get t).touched) (hlock : Contested threads x → lock x ∈ W.held.get t) : t = w := by
  by_contra hne
  obtain ⟨hwritten, hheld⟩ := hf.locked hin
  have hcontested : Contested threads x := ⟨w, t, Ne.symm hne, hwritten, htouch⟩
  exact hne (h.exclusive _ _ _ (hlock hcontested) (hheld hcontested))

theorem Settles.opRead_eq (h : Settles lock mem W) (htouch : x ∈ (threads.get t).touched)
    (hlock : Contested threads x → lock x ∈ W.held.get t) : opRead W t x = mem x := by
  obtain ⟨w, hf⟩ := h.flight x
  have hlatest := hf.latest t
  rw [Weakmem.opRead_eq]
  by_cases hin : InFlight W w x
  · obtain rfl := h.access hf hin htouch hlock
    rw [h.undelivered_own hf, List.nil_append, List.getLastD_eq_getLast?] at hlatest
    exact hlatest
  · have hbuf : buf W w x = [] := not_not.mp fun hne => hin (.inl hne)
    have hown : buf W t x = [] := by
      by_cases ht : t = w
      · rw [ht]
        exact hbuf
      · exact hf.buffered t ht
    rw [undelivered_eq_nil hin, hbuf] at hlatest
    rw [hown]
    exact hlatest

/-! ### Steps of the memory -/

theorem Settles.flush {v : Nat} {b : List Nat} (h : Settles lock mem W)
    (hb : (W.bufs.get t).get x = some (v :: b)) : Settles lock mem (W.flushed t x v) := by
  have hbuf : buf W t x = v :: b := by rw [buf, hb]; rfl
  refine ⟨fun q hq => ?_, h.exclusive, fun y => ?_⟩
  · rcases List.mem_append.mp hq with hq | hq
    · exact h.own q hq
    · rw [List.mem_singleton.mp hq]
      simp
  · obtain ⟨w, hf⟩ := h.flight y
    refine ⟨w, ?_⟩
    by_cases hy : y = x
    · subst hy
      -- only the writer has anything in its buffer
      have htw : t = w := by
        by_contra hne
        exact absurd (hf.buffered t hne) (by simp [hbuf])
      subst htw
      refine ⟨fun u hu => ?_, fun q hq hloc => ?_, fun _ => hf.locked (.inl (by simp [hbuf])), fun u => ?_⟩
      · rw [flushed_buf hb]
        simp [hu, hf.buffered u hu]
      · rcases List.mem_append.mp hq with hq | hq
        · exact hf.writer q hq hloc
        · rw [List.mem_singleton.mp hq]
      · have hlatest := hf.latest u
        rw [hbuf] at hlatest
        rw [flushed_undelivered, flushed_buf hb, flushed_view]
        by_cases hu : u = t
        · subst hu
          rw [h.undelivered_own hf] at hlatest ⊢
          simpa [List.getLastD_eq_getLast?, List.getLast?_cons] using hlatest
        · simpa [hu] using hlatest
    · refine ⟨fun u hu => ?_, fun q hq hloc => ?_, fun hin => ?_, fun u => ?_⟩
      · rw [flushed_buf hb]
        simp [hy, hf.buffered u hu]
      · rcases List.mem_append.mp hq with hq | hq
        · exact hf.writer q hq hloc
        · rw [List.mem_singleton.mp hq] at hloc
          exact absurd hloc.symm hy
      · apply hf.locked
        rcases hin with hin | ⟨q, hq, hloc⟩
        · rw [flushed_buf hb] at hin
          exact .inl (by simpa [hy] using hin)
        · rcases List.mem_append.mp hq with hq | hq
          · exact .inr ⟨q, hq, hloc⟩
          · rw [List.mem_singleton.mp hq] at hloc
            exact absurd hloc.symm hy
      · have hlatest := hf.latest u
        rw [flushed_undelivered, flushed_buf hb, flushed_view]
        simpa [hy] using hlatest

theorem Settles.observe {pi : Nat} {p : Pending threads.length} {u : Fin threads.length} (h : Settles lock mem W)
    (hp : W.pending[pi]? = some p) (hd : p.delivered.get u = false)
    (hblocked : blocked (W.pending.take pi) p u = false) : Settles lock mem (W.observed pi p u) := by
  refine ⟨fun q hq => ?_, h.exclusive, fun y => ?_⟩
  · obtain ⟨q', hq', hwriter, _, _, hmono⟩ := mem_observed_pending hp hq
    rw [hwriter]
    exact hmono _ (h.own q' hq')
  · obtain ⟨w, hf⟩ := h.flight y
    refine ⟨w, hf.buffered, fun q hq hloc => ?_, fun hin => ?_, fun u' => ?_⟩
    · obtain ⟨q', hq', hwriter, hloc', _, _⟩ := mem_observed_pending hp hq
      rw [hwriter]
      exact hf.writer q' hq' (hloc' ▸ hloc)
    · apply hf.locked
      rcases hin with hin | ⟨q, hq, hloc⟩
      · exact .inl hin
      · obtain ⟨q', hq', _, hloc', _, _⟩ := mem_observed_pending hp hq
        exact .inr ⟨q', hq', hloc' ▸ hloc⟩
    · have hlatest := hf.latest u'
      rw [observed_buf, observed_view]
      by_cases hself : u' = u ∧ y = p.loc
      · obtain ⟨rfl, rfl⟩ := hself
        -- all writes to the location are of one thread, so an earlier one would block this one
        have hfirst : ∀ q ∈ W.pending.take pi, owed u' p.loc q = false := by
          intro q hq
          rw [blocked, List.any_eq_false] at hblocked
          have hno := hblocked q hq
          by_cases hloc : q.loc = p.loc
          · have hsame : q.writer = p.writer := by
              rw [hf.writer q (List.mem_of_mem_take hq) hloc, hf.writer p (List.mem_of_getElem? hp) rfl]
            simpa [owed, hloc, hsame] using hno
          · simp [owed, hloc]
        rw [observed_undelivered_self hp hd hfirst] at hlatest
        simpa [List.getLastD_eq_getLast?, List.getLast?_cons] using hlatest
      · rw [observed_undelivered hp hself, if_neg hself]
        exact hlatest

section Event

variable {i : Nat} {ev : Event}

theorem inFlight_of_drained (hd : drained W t = true) (hf : Flight lock mem W t x) : ¬ InFlight W t x := by
  obtain ⟨hb, hp⟩ := drained_spec hd
  rintro (hne | ⟨q, hq, hloc⟩)
  · exact hne (hb x)
  · exact hp q hq (hf.writer q hq hloc)

theorem effect_held_spec (hready : Ready W t ev) (h : Settles lock mem W) :
    (∀ l v u, l ∈ (effect W true t i ev).held.get v → l ∈ (effect W true t i ev).held.get u → v = u) ∧
      ∀ w x, Flight lock mem W w x → InFlight W w x →
        ∀ l ∈ W.held.get w, l ∈ (effect W true t i ev).held.get w := by
  rw [effect_held]
  cases ev with
  | acquire k =>
    obtain ⟨hfree, _⟩ := hready
    refine ⟨fun l v u hv hu => ?_, fun w x _ _ l hl => ?_⟩
    · simp only [List.Vector.get_set_eq_if] at hv hu
      by_cases htv : t = v <;> by_cases htu : t = u
      · rw [← htv, htu]
      · rw [if_pos htv] at hv
        rw [if_neg htu] at hu
        rcases List.mem_append.mp hv with hv | hv
        · exact htv ▸ h.exclusive l t u hv hu
        · rw [List.mem_singleton.mp hv] at hu
          exact absurd hu (hfree u (Ne.symm htu))
      · rw [if_neg htv] at hv
        rw [if_pos htu] at hu
        rcases List.mem_append.mp hu with hu | hu
        · exact htu ▸ h.exclusive l v t hv hu
        · rw [List.mem_singleton.mp hu] at hv
          exact absurd hv (hfree v (Ne.symm htv))
      · rw [if_neg htv] at hv
        rw [if_neg htu] at hu
        exact h.exclusive l v u hv hu
    · simp only [List.Vector.get_set_eq_if]
      split
      · next htw =>
        rw [htw]
        exact List.mem_append_left _ hl
      · exact hl
  | release k =>
    have hsub (l : String) (v : Fin threads.length)
        (hv : l ∈ (W.held.set t ((W.held.get t).filter fun h => decide (h ≠ k))).get v) : l ∈ W.held.get v := by
      rw [List.Vector.get_set_eq_if] at hv
      split at hv
      · next htv => exact htv ▸ (List.mem_filter.mp hv).1
      · exact hv
    refine ⟨fun l v u hv hu => h.exclusive l v u (hsub l v hv) (hsub l u hu), fun w x hf hin l hl => ?_⟩
    have htw : t ≠ w := by
      rintro rfl
      exact inFlight_of_drained hready hf hin
    simp only [List.Vector.get_set_of_ne htw]
    exact hl
  | _ => exact ⟨h.exclusive, fun _ _ _ _ _ hl => hl⟩

theorem undelivered_effect {u : Fin threads.length} {y : String} :
    undelivered ((effect W true t i ev).mark t i) u y = undelivered W u y := by
  rw [undelivered, undelivered, OpState.mark]
  simp only [effect_pending]

theorem view_effect {u : Fin threads.length} {y : String} :
    view ((effect W true t i ev).mark t i) u y = view W u y := by
  rw [view, view, OpState.mark]
  simp only [effect_views_weak]

theorem mem_pending_effect {q : Pending threads.length} :
    q ∈ ((effect W true t i ev).mark t i).pending ↔ q ∈ W.pending := by
  simp [OpState.mark]

theorem Flight.exec_other (h : Settles lock mem W) (hready : Ready W t ev) (hf : Flight lock mem W w x)
    (hw : ev.writes ≠ some x) : Flight lock mem ((effect W true t i ev).mark t i) w x := by
  have hbuf (u : Fin threads.length) : buf ((effect W true t i ev).mark t i) u x = buf W u x := by
    have heff : buf (effect W true t i ev) u x = _ := effect_buf
    rw [if_neg fun hc => hw hc.2] at heff
    exact heff
  refine ⟨fun u hu => ?_, fun q hq hloc => ?_, fun hin => ?_, fun u => ?_⟩
  · rw [hbuf]
    exact hf.buffered u hu
  · exact hf.writer q (mem_pending_effect.mp hq) hloc
  · have hin' : InFlight W w x := by
      rcases hin with hin | ⟨q, hq, hloc⟩
      · exact .inl (hbuf w ▸ hin)
      · exact .inr ⟨q, mem_pending_effect.mp hq, hloc⟩
    obtain ⟨hwritten, hheld⟩ := hf.locked hin'
    exact ⟨hwritten, fun hc => (effect_held_spec hready h).2 w x hf hin' _ (hheld hc)⟩
  · rw [undelivered_effect, hbuf, view_effect]
    exact hf.latest u

theorem Settles.exec_none (h : Settles lock mem W) (hready : Ready W t ev) (hw : ev.writes = none) :
    Settles lock mem ((effect W true t i ev).mark t i) := by
  refine ⟨fun q hq => h.own q (mem_pending_effect.mp hq), (effect_held_spec hready h).1, fun y => ?_⟩
  obtain ⟨w, hf⟩ := h.flight y
  exact ⟨w, hf.exec_other h hready (by simp [hw])⟩

theorem Settles.exec_some (h : Settles lock mem W) (hev : (threads.get t).events[i]? = some ev)
    (hw : ev.writes = some x) (hlock : Contested threads x → lock x ∈ W.held.get t) :
    Settles lock (Function.update mem x (writeTag threads t i)) ((effect W true t i ev).mark t i) := by
  have hready : Ready W t ev := by
    cases ev with
    | write y => trivial
    | rmw y => trivial
    | _ => exact absurd hw (by simp [Event.writes])
  refine ⟨fun q hq => h.own q (mem_pending_effect.mp hq), (effect_held_spec hready h).1, fun y => ?_⟩
  obtain ⟨w, hf⟩ := h.flight y
  by_cases hy : y = x
  · subst hy
    have hin : InFlight W w y → t = w := fun hin => h.access hf hin (mem_touched hev (.inr hw)) hlock
    have hbuf (u : Fin threads.length) : buf ((effect W true t i ev).mark t i) u y =
        if u = t ∧ ev.writes = some y then buf W u y ++ [writeTag threads t i] else buf W u y := effect_buf
    refine ⟨t, fun u hu => ?_, fun q hq hloc => ?_, fun _ => ?_, fun u => ?_⟩
    · rw [hbuf, if_neg fun hc => hu hc.1]
      by_cases huw : u = w
      · subst huw
        by_contra hne
        exact hu (hin (.inl hne)).symm
      · exact hf.buffered u huw
    · have hq' := mem_pending_effect.mp hq
      rw [hin (.inr ⟨q, hq', hloc⟩)]
      exact hf.writer q hq' hloc
    · refine ⟨mem_written hev hw, fun hc => ?_⟩
      have hheld : ((effect W true t i ev).mark t i).held = W.held := by
        rw [OpState.mark]
        simp only [effect_held]
        cases ev with
        | write y => rfl
        | rmw y => rfl
        | _ => exact absurd hw (by simp [Event.writes])
      rw [hheld]
      exact hlock hc
    · rw [hbuf, if_pos ⟨rfl, hw⟩, ← List.append_assoc]
      simp
  · refine ⟨w, ?_⟩
    have hother := hf.exec_other (i := i) h hready (by rw [hw]; simpa using Ne.symm hy)
    refine ⟨hother.buffered, hother.writer, hother.locked, fun u => ?_⟩
    rw [Function.update_of_ne hy]
    exact hother.latest u

end Event

end Access

end Weakmem

end Interleave

end Csolver
