import Csolver.Interleave.WeakmemRuns
import Mathlib.Order.Fin.Basic

/-!
# Buffers, views and writes on their way

What a state says of one thread and one location: what is in the buffer, what is in the view, and which
writes have not reached the view yet. Each kind of step is described by what it does to these.
-/

namespace Csolver

open Lib

namespace Interleave

namespace Weakmem

variable {threads : List Thread} {st : OpState threads.length}

/-! ## One thread and one location -/

def buf (st : OpState threads.length) (t : Fin threads.length) (x : String) : List Nat :=
  ((st.bufs.get t).get x).getD []

def view (st : OpState threads.length) (t : Fin threads.length) (x : String) : Nat :=
  ((st.views.get t).get x).getD 0

/-- The write is to the location and has not reached the view. -/
def owed (u : Fin threads.length) (x : String) (p : Pending threads.length) : Bool :=
  decide (p.loc = x) && !p.delivered.get u

/-- The writes to the location that have not reached the view, in the order of their flushes. -/
def undelivered (st : OpState threads.length) (u : Fin threads.length) (x : String) : List Nat :=
  (st.pending.filter (owed u x)).map Pending.tag

theorem opRead_eq (t : Fin threads.length) (x : String) :
    opRead st t x = ((buf st t x).getLast?).getD (view st t x) := by
  rw [opRead, buf, view]
  cases (st.bufs.get t).get x with
  | none => rfl
  | some b => cases h : b.getLast? <;> simp [h]

theorem bufsEmpty_buf {t : Fin threads.length} (h : bufsEmpty st t = true) (x : String) : buf st t x = [] := by
  rw [bufsEmpty, List.all_eq_true] at h
  rw [buf]
  cases hget : (st.bufs.get t).get x with
  | none => rfl
  | some b =>
    obtain ⟨e, he, rfl⟩ := SortedMap.exists_mem_of_get hget
    simpa using h _ he

theorem noPendingFrom_iff {t : Fin threads.length} :
    noPendingFrom st t = true ↔ ∀ p ∈ st.pending, p.writer ≠ t := by
  simp [noPendingFrom]

theorem drained_spec {t : Fin threads.length} (h : drained st t = true) :
    (∀ x, buf st t x = []) ∧ ∀ p ∈ st.pending, p.writer ≠ t := by
  obtain ⟨hb, hp⟩ := Bool.and_eq_true_iff.mp h
  exact ⟨bufsEmpty_buf hb, noPendingFrom_iff.mp hp⟩

/-! ## A flush -/

section Flush

variable {t u : Fin threads.length} {x y : String} {v : Nat} {b : List Nat}

theorem flushed_buf (h : (st.bufs.get t).get x = some (v :: b)) :
    buf (st.flushed t x v) u y = if u = t ∧ y = x then b else buf st u y := by
  simp only [buf, OpState.flushed, List.Vector.get_set_eq_if]
  by_cases hu : t = u
  · subst hu
    by_cases hy : y = x
    · subst hy
      simp [h]
    · simp [hy]
  · simp [hu, Ne.symm hu]

theorem flushed_view : view (st.flushed t x v) u y = if u = t ∧ y = x then v else view st u y := by
  simp only [view, OpState.flushed, List.Vector.get_set_eq_if]
  by_cases hu : t = u
  · subst hu
    by_cases hy : y = x <;> simp [hy]
  · simp [hu, Ne.symm hu]

theorem flushed_undelivered : undelivered (st.flushed t x v) u y =
    if y = x ∧ u ≠ t then undelivered st u y ++ [v] else undelivered st u y := by
  simp only [undelivered, OpState.flushed, List.filter_append, List.map_append]
  by_cases hy : y = x
  · subst hy
    by_cases hu : u = t
    · subst hu
      simp [owed]
    · simp [owed, hu, List.Vector.get_set_of_ne (Ne.symm hu)]
  · simp [owed, hy, Ne.symm hy]

end Flush

/-! ## A propagation -/

section Observe

variable {pi : Nat} {p : Pending threads.length} {u w : Fin threads.length} {y : String}

/-- The write in the list, once it has reached the view. -/
def reached (p : Pending threads.length) (u : Fin threads.length) : List (Pending threads.length) :=
  let p' := { p with delivered := p.delivered.set u true }
  if p'.delivered.toList.all id then [] else [p']

theorem pending_split (hp : st.pending[pi]? = some p) :
    ∃ post, st.pending = st.pending.take pi ++ p :: post ∧
      deliver st.pending pi u = st.pending.take pi ++ (reached p u ++ post) := by
  obtain ⟨hlt, heq⟩ := List.getElem?_eq_some_iff.mp hp
  refine ⟨st.pending.drop (pi + 1), ?_, ?_⟩
  · rw [← heq, ← List.drop_eq_getElem_cons hlt, List.take_append_drop]
  · rw [deliver, hp, reached]
    simp only
    split
    · rw [List.nil_append, List.eraseIdx_eq_take_drop_succ]
    · rw [List.set_eq_take_append_cons_drop, if_pos hlt, List.singleton_append]

theorem mem_reached {q : Pending threads.length} (h : q ∈ reached p u) :
    q = { p with delivered := p.delivered.set u true } := by
  rw [reached] at h
  simp only at h
  split at h
  · exact absurd h List.not_mem_nil
  · exact List.mem_singleton.mp h

theorem reached_filter (h : ¬ (w = u ∧ y = p.loc)) :
    ((reached p u).filter (owed w y)).map Pending.tag = ([p].filter (owed w y)).map Pending.tag := by
  have howed : owed w y { p with delivered := p.delivered.set u true } = owed w y p := by
    by_cases hy : p.loc = y
    · have hw : u ≠ w := fun heq => h ⟨heq.symm, hy.symm⟩
      simp [owed, List.Vector.get_set_of_ne hw]
    · simp [owed, hy]
  rw [reached]
  simp only
  split
  · next hall =>
    have hw : (p.delivered.set u true).get w = true := by
      rw [List.all_eq_true] at hall
      exact hall _ (List.mem_of_getElem? (getElem?_toList _ w))
    have hno : owed w y p = false := by
      rw [← howed, owed, hw]
      simp
    simp [hno]
  · simp only [List.filter_singleton, howed]
    cases owed w y p <;> rfl

theorem observed_undelivered (hp : st.pending[pi]? = some p) (h : ¬ (w = u ∧ y = p.loc)) :
    undelivered (st.observed pi p u) w y = undelivered st w y := by
  obtain ⟨post, hsplit, hdel⟩ := pending_split (u := u) hp
  rw [undelivered, undelivered, OpState.observed]
  simp only
  rw [hdel]
  conv_rhs => rw [hsplit]
  have hcons : p :: post = [p] ++ post := rfl
  simp only [hcons, List.filter_append, List.map_append, reached_filter h]

theorem observed_undelivered_self (hp : st.pending[pi]? = some p) (hd : p.delivered.get u = false)
    (hfirst : ∀ q ∈ st.pending.take pi, owed u p.loc q = false) :
    undelivered st u p.loc = p.tag :: undelivered (st.observed pi p u) u p.loc := by
  obtain ⟨post, hsplit, hdel⟩ := pending_split (u := u) hp
  have hpre : (st.pending.take pi).filter (owed u p.loc) = [] := by
    apply List.filter_eq_nil_iff.mpr
    intro q hq
    simp [hfirst q hq]
  have hgone : (reached p u).filter (owed u p.loc) = [] := by
    apply List.filter_eq_nil_iff.mpr
    intro q hq
    rw [mem_reached hq]
    simp [owed]
  have howed : owed u p.loc p = true := by simp [owed, hd]
  rw [undelivered, undelivered, OpState.observed]
  simp only
  rw [hdel]
  conv_lhs => rw [hsplit]
  simp [List.filter_append, hpre, hgone, howed]

theorem mem_observed_pending (hp : st.pending[pi]? = some p) {q : Pending threads.length}
    (hq : q ∈ (st.observed pi p u).pending) :
    ∃ q' ∈ st.pending, q.writer = q'.writer ∧ q.loc = q'.loc ∧ q.tag = q'.tag ∧
      ∀ w, q'.delivered.get w = true → q.delivered.get w = true := by
  obtain ⟨post, hsplit, hdel⟩ := pending_split (u := u) hp
  simp only [OpState.observed] at hq
  rw [hdel] at hq
  rcases List.mem_append.mp hq with hq | hq
  · exact ⟨q, List.mem_of_mem_take hq, rfl, rfl, rfl, fun _ h => h⟩
  · rcases List.mem_append.mp hq with hq | hq
    · rw [mem_reached hq]
      refine ⟨p, List.mem_of_getElem? hp, rfl, rfl, rfl, fun w hw => ?_⟩
      rw [List.Vector.get_set_eq_if]
      split
      · rfl
      · exact hw
    · refine ⟨q, ?_, rfl, rfl, rfl, fun _ h => h⟩
      rw [hsplit]
      exact List.mem_append_right _ (List.mem_cons_of_mem p hq)

theorem observed_buf : buf (st.observed pi p u) w y = buf st w y := rfl

theorem observed_view :
    view (st.observed pi p u) w y = if w = u ∧ y = p.loc then p.tag else view st w y := by
  simp only [view, OpState.observed, List.Vector.get_set_eq_if]
  by_cases hu : u = w
  · subst hu
    by_cases hy : y = p.loc <;> simp [hy]
  · simp [hu, Ne.symm hu]

end Observe

/-! ## An event -/

section Exec

variable {t u : Fin threads.length} {i : Nat} {ev : Event} {x y : String} {tag : Nat} {weak : Bool}

theorem pushBuf_get (m : SortedMap String (List Nat)) :
    ((pushBuf m x tag).get y).getD [] = if y = x then (m.get x).getD [] ++ [tag] else (m.get y).getD [] := by
  rw [pushBuf]
  split
  · next b hb => by_cases hy : y = x <;> simp [hy, hb]
  · next hb => by_cases hy : y = x <;> simp [hy, hb]

theorem effect_buf : buf (effect st true t i ev) u y =
    if u = t ∧ ev.writes = some y then buf st u y ++ [writeTag threads t i] else buf st u y := by
  rw [buf, effect_bufs]
  cases hw : ev.writes with
  | none => simp [buf]
  | some x =>
    simp only [Option.some.injEq, List.Vector.get_set_eq_if]
    by_cases hu : t = u
    · subst hu
      simp only [if_true, true_and, pushBuf_get]
      by_cases hy : y = x
      · subst hy
        simp [buf]
      · simp [hy, Ne.symm hy, buf]
    · simp [hu, Ne.symm hu, buf]

theorem effect_views_weak : (effect st true t i ev).views = st.views := by
  cases ev with
  | spawn name =>
    rw [effect]
    split <;> rfl
  | _ => rfl

theorem effect_view : view (effect st false t i ev) u y =
    if ev.writes = some y then writeTag threads t i else view st u y := by
  have hwrite (x : String) : view (st.written false t x (writeTag threads t i)) u y =
      if x = y then writeTag threads t i else view st u y := by
    simp only [view, OpState.written, Bool.false_eq_true, if_false, List.Vector.get_map, SortedMap.get_insert]
    by_cases hy : y = x
    · subst hy
      simp
    · simp [hy, Ne.symm hy]
  cases ev with
  | write x => exact (hwrite x).trans (by simp [Event.writes])
  | rmw x => exact (hwrite x).trans (by simp [Event.writes])
  | spawn name =>
    rw [effect]
    split <;> rfl
  | _ => rfl

theorem effect_obs : (effect st weak t i ev).obs = match ev.reads with
    | some x => st.obs.insert (readId threads t i) (opRead st t x)
    | none => st.obs := by
  cases ev with
  | spawn name =>
    rw [effect]
    split <;> rfl
  | _ => cases weak <;> rfl

theorem effect_held : (effect st weak t i ev).held = match ev with
    | .acquire l => st.held.set t (st.held.get t ++ [l])
    | .release l => st.held.set t ((st.held.get t).filter fun h => decide (h ≠ l))
    | _ => st.held := by
  cases ev with
  | spawn name =>
    rw [effect]
    split <;> rfl
  | _ => cases weak <;> rfl

theorem effect_spawned : (effect st weak t i ev).spawned = match spawnTarget threads t ev with
    | some c => st.spawned.set c true
    | none => st.spawned := by
  cases ev with
  | spawn name =>
    simp only [effect]
    cases spawnTarget threads t (.spawn name) <;> rfl
  | _ => cases weak <;> rfl

end Exec

/-! ## Numbers of reads and writes -/

section Numbers

variable {t u : Fin threads.length} {i j : Nat} {e f : Event}

theorem before_mono_of_lt (h : t < u) : before threads t (threads.get t).events.length <+: before threads u 0 := by
  have hsplit : threads.take u = threads.take t ++ (threads.drop t).take (u - t) := by
    rw [← List.take_add]
    congr 1
    omega
  have hdrop : threads.drop t = threads.get t :: threads.drop (t + 1) := List.drop_eq_getElem_cons t.2
  obtain ⟨k, hk⟩ : ∃ k, u.1 - t.1 = k + 1 := ⟨u.1 - t.1 - 1, by omega⟩
  rw [before, before, hsplit, hdrop, hk, List.take_succ_cons, List.take_length, List.take_zero, List.append_nil,
    List.flatMap_append, List.flatMap_cons, ← List.append_assoc]
  exact List.prefix_append _ _

theorem before_mono (h : i ≤ j) : before threads t i <+: before threads t j := by
  rw [before, before]
  exact List.prefix_append_right_inj _ |>.mpr (List.take_prefix_take_left h)

theorem before_succ (h : (threads.get t).events[i]? = some e) :
    before threads t (i + 1) = before threads t i ++ [e] := by
  obtain ⟨hlt, rfl⟩ := List.getElem?_eq_some_iff.mp h
  rw [before, before, List.append_assoc, List.take_succ_eq_append_getElem hlt]

theorem before_later (he : (threads.get t).events[i]? = some e) (hf : (threads.get u).events[j]? = some f)
    (h : t < u ∨ t = u ∧ i < j) : before threads t i ++ [e] <+: before threads u j := by
  rw [← before_succ he]
  have hi : i < (threads.get t).events.length := (List.getElem?_eq_some_iff.mp he).1
  rcases h with h | ⟨rfl, h⟩
  · exact ((before_mono hi).trans (before_mono_of_lt h)).trans (before_mono (Nat.zero_le j))
  · exact before_mono h

theorem count_before_lt {p : Event → Bool} (he : (threads.get t).events[i]? = some e)
    (hf : (threads.get u).events[j]? = some f) (hpe : p e = true) (h : t < u ∨ t = u ∧ i < j) :
    (before threads t i).countP p < (before threads u j).countP p := by
  have hle := (before_later he hf h).sublist.countP_le (p := p)
  rw [List.countP_append, List.countP_singleton, if_pos hpe] at hle
  omega

theorem count_before_inj {p : Event → Bool} (he : (threads.get t).events[i]? = some e)
    (hf : (threads.get u).events[j]? = some f) (hpe : p e = true) (hpf : p f = true)
    (h : (before threads t i).countP p = (before threads u j).countP p) : t = u ∧ i = j := by
  rcases lt_trichotomy t u with htu | rfl | htu
  · exact absurd h (Nat.ne_of_lt (count_before_lt he hf hpe (.inl htu)))
  · rcases lt_trichotomy i j with hij | rfl | hij
    · exact absurd h (Nat.ne_of_lt (count_before_lt he hf hpe (.inr ⟨rfl, hij⟩)))
    · exact ⟨rfl, rfl⟩
    · exact absurd h.symm (Nat.ne_of_lt (count_before_lt hf he hpf (.inr ⟨rfl, hij⟩)))
  · exact absurd h.symm (Nat.ne_of_lt (count_before_lt hf he hpf (.inl htu)))

theorem writeTag_lt (he : (threads.get t).events[i]? = some e) (hf : (threads.get t).events[j]? = some f)
    (hwe : e.writes.isSome = true) (h : i < j) : writeTag threads t i < writeTag threads t j :=
  Nat.succ_lt_succ (count_before_lt (p := fun e => e.writes.isSome) he hf hwe (.inr ⟨rfl, h⟩))

theorem readId_inj (he : (threads.get t).events[i]? = some e) (hf : (threads.get u).events[j]? = some f)
    (hre : e.reads.isSome = true) (hrf : f.reads.isSome = true) (h : readId threads t i = readId threads u j) :
    t = u ∧ i = j := count_before_inj (p := fun e => e.reads.isSome) he hf hre hrf h

theorem writeTag_inj (he : (threads.get t).events[i]? = some e) (hf : (threads.get u).events[j]? = some f)
    (hwe : e.writes.isSome = true) (hwf : f.writes.isSome = true)
    (h : writeTag threads t i = writeTag threads u j) : t = u ∧ i = j :=
  count_before_inj (p := fun e => e.writes.isSome) he hf hwe hwf (Nat.succ.inj h)

end Numbers

end Weakmem

end Interleave

/-! ## Executed events

The events of a thread are executed in program order, except that reads may be taken before earlier reads.
So the locks that a thread holds when it executes an event can be read off its text.
-/

open Lib

namespace Interleave

namespace Weakmem

variable {threads : List Thread}

def Taken (st : OpState threads.length) (t : Fin threads.length) (j : Nat) : Prop :=
  (st.consumed.get t)[j]? = some true

section Events

variable {st st' : OpState threads.length} {weak : Bool} {t u : Fin threads.length} {i j : Nat} {ev : Event}
  {x : String}

theorem not_taken_initial : ¬ Taken (initial threads) t j := by
  intro h
  rw [Taken, initial, List.Vector.get_ofFn, List.getElem?_replicate] at h
  split at h <;> exact absurd h (by simp)

theorem taken_mark (hc : st.consumed = st'.consumed) (h : Taken (st.mark t i) u j) :
    Taken st' u j ∨ u = t ∧ j = i := by
  rw [Taken, OpState.mark, List.Vector.get_set_eq_if, hc] at h
  split at h
  · next htu =>
    subst htu
    rw [List.getElem?_set] at h
    split at h
    · next heq => exact .inr ⟨rfl, heq.symm⟩
    · exact .inl h
  · exact .inl h

theorem Taken.mark (hc : st.consumed = st'.consumed) (h : Taken st' u j) :
    Taken (st.mark t i) u j := by
  rw [Taken, OpState.mark, List.Vector.get_set_eq_if, hc]
  split
  · next htu =>
    subst htu
    rw [List.getElem?_set]
    split
    · next heq =>
      subst heq
      have hlt := (List.getElem?_eq_some_iff.mp h).1
      simp [hlt]
    · exact h
  · exact h

theorem mark_taken (hlt : i < (st.consumed.get t).length) : Taken (st.mark t i) t i := by
  rw [Taken, OpState.mark, List.Vector.get_set_same, List.getElem?_set]
  simp [hlt]

theorem takeable_earlier {events : List Event} {consumed : List Bool} (hev : events[i]? = some ev)
    (h : takeable events consumed i true = true) (hj : j < i) :
    consumed[j]? = some true ∨ (∃ x, events[j]?.bind Event.reads = some x) ∧ ev.isPlainRead = true := by
  rw [takeable, hev] at h
  simp only [Bool.and_eq_true, List.all_eq_true, List.mem_range] at h
  have hj' := h.2 j hj
  rw [Bool.or_eq_true, List.getD_eq_getElem?_getD] at hj'
  rcases hj' with hc | hr
  · left
    cases hget : consumed[j]? with
    | none => exact absurd hc (by simp [hget])
    | some c =>
      rw [hget] at hc
      simpa using hc
  · right
    rw [Bool.and_eq_true, Option.isSome_iff_exists] at hr
    simpa using hr

theorem Shaped.all_iff (h : Shaped st) :
    (st.consumed.get t).all id = true ↔ ∀ j, j < (threads.get t).events.length → Taken st t j := by
  rw [List.all_eq_true]
  constructor
  · intro hall j hj
    have hlt : j < (st.consumed.get t).length := by rw [h t]; exact hj
    rw [Taken, List.getElem?_eq_getElem hlt]
    exact congrArg some (hall _ (List.getElem_mem hlt))
  · intro hall c hc
    obtain ⟨j, hj⟩ := List.mem_iff_getElem?.mp hc
    have hlt : j < (threads.get t).events.length := by
      rw [← h t]
      exact (List.getElem?_eq_some_iff.mp hj).1
    have htk := hall j hlt
    rw [Taken, hj] at htk
    exact Option.some.inj htk

theorem effect_read (hr : ev.reads = some x) :
    effect st weak t i ev = { st with obs := st.obs.insert (readId threads t i) (opRead st t x) } := by
  cases ev with
  | read y =>
    obtain rfl : y = x := by simpa [Event.reads] using hr
    rfl
  | depRead y =>
    obtain rfl : y = x := by simpa [Event.reads] using hr
    rfl
  | _ => exact absurd hr (by simp [Event.reads])

theorem ready_read (hr : ev.reads = some x) : Ready st t ev := by
  cases ev with
  | read y => trivial
  | depRead y => trivial
  | _ => exact absurd hr (by simp [Event.reads])

theorem bind_reads (hev : (threads.get t).events[i]? = some ev) :
    (threads.get t).events[i]?.bind Event.reads = ev.reads := by rw [hev]; rfl

theorem readId_ne {y : String}
    (hi : (threads.get t).events[i]?.bind Event.reads = some x)
    (hj : (threads.get u).events[j]?.bind Event.reads = some y) (hne : ¬ (u = t ∧ j = i)) :
    readId threads u j ≠ readId threads t i := by
  obtain ⟨e, he, hre⟩ := Option.bind_eq_some_iff.mp hi
  obtain ⟨f, hf, hrf⟩ := Option.bind_eq_some_iff.mp hj
  intro heq
  obtain ⟨rfl, rfl⟩ := readId_inj hf he (by simp [hrf]) (by simp [hre]) heq
  exact hne ⟨rfl, rfl⟩

theorem effect_held_other (hu : u ≠ t) :
    (effect st weak t i ev).held.get u = st.held.get u := by
  rw [effect_held]
  cases ev with
  | acquire l => exact List.Vector.get_set_of_ne (Ne.symm hu) _
  | release l => exact List.Vector.get_set_of_ne (Ne.symm hu) _
  | _ => rfl

theorem effect_spawned_mono (h : st.spawned.get u = true) :
    (effect st weak t i ev).spawned.get u = true := by
  rw [effect_spawned]
  split
  · rw [List.Vector.get_set_eq_if]
    split
    · rfl
    · exact h
  · exact h

end Events

/-! ## The locks that a thread holds -/

section Static

variable {t : Fin threads.length} {i : Nat} {ev : Event}

def heldStep (held : List String) : Event → List String
  | .acquire l => held ++ [l]
  | .release l => held.filter fun h => decide (h ≠ l)
  | _ => held

/-- The locks that the text of a thread holds before an event. -/
def heldAt (events : List Event) (i : Nat) : List String := (events.take i).foldl heldStep []

theorem heldStep_read {x : String} {held : List String} (hr : ev.reads = some x) : heldStep held ev = held := by
  cases ev with
  | read y => rfl
  | depRead y => rfl
  | _ => exact absurd hr (by simp [Event.reads])

theorem heldAt_succ {events : List Event} (h : events[i]? = some ev) :
    heldAt events (i + 1) = heldStep (heldAt events i) ev := by
  obtain ⟨hlt, rfl⟩ := List.getElem?_eq_some_iff.mp h
  rw [heldAt, heldAt, List.take_succ_eq_append_getElem hlt, List.foldl_append]
  rfl

theorem heldAt_reads {events : List Event} {k : Nat} (hk : k ≤ i)
    (h : ∀ j, k ≤ j → j < i → ∃ x, events[j]?.bind Event.reads = some x) : heldAt events i = heldAt events k := by
  induction i, hk using Nat.le_induction with
  | base => rfl
  | succ i hki ih =>
    obtain ⟨x, hx⟩ := h i hki (Nat.lt_succ_self i)
    obtain ⟨e, he, hr⟩ := Option.bind_eq_some_iff.mp hx
    rw [heldAt_succ he, heldStep_read hr]
    exact ih fun j hkj hji => h j hkj (hji.trans (Nat.lt_succ_self i))

/-- The thread has executed the first `k` events, and only reads of the others. -/
structure Turn (st : OpState threads.length) (t : Fin threads.length) (k : Nat) : Prop where
  first : ∀ j, j < k → Taken st t j
  rest : ∀ j, k ≤ j → Taken st t j → ∃ x, (threads.get t).events[j]?.bind Event.reads = some x
  held : st.held.get t = heldAt (threads.get t).events k

theorem Turn.held_eq {st : OpState threads.length} {k : Nat} (h : Turn st t k) (hs : Shaped st)
    (ht : takeable (threads.get t).events (st.consumed.get t) i true = true)
    (hev : (threads.get t).events[i]? = some ev) :
    k ≤ i ∧ st.held.get t = heldAt (threads.get t).events i := by
  have hk : k ≤ i := by
    refine not_lt.mp fun hlt => ?_
    have htk := h.first i hlt
    rw [Taken, takeable_unconsumed (hs t) ht] at htk
    exact absurd htk (by simp)
  refine ⟨hk, ?_⟩
  rw [h.held]
  refine (heldAt_reads hk fun j hkj hji => ?_).symm
  rcases takeable_earlier hev ht hji with hc | ⟨hread, _⟩
  · exact h.rest j hkj hc
  · exact hread

theorem effect_held_self {st : OpState threads.length} {weak : Bool} :
    (effect st weak t i ev).held.get t = heldStep (st.held.get t) ev := by
  rw [effect_held]
  cases ev with
  | acquire l => exact List.Vector.get_set_same _ _ _
  | release l => exact List.Vector.get_set_same _ _ _
  | _ => rfl

theorem Turn.exec {st : OpState threads.length} {u : Fin threads.length} {k : Nat} (h : Turn st u k)
    (hs : Shaped st) (ht : takeable (threads.get t).events (st.consumed.get t) i true = true)
    (hev : (threads.get t).events[i]? = some ev) : ∃ k', Turn ((effect st true t i ev).mark t i) u k' := by
  have hfirst (j : Nat) (hj : j < k) : Taken ((effect st true t i ev).mark t i) u j :=
    (h.first j hj).mark effect_consumed
  by_cases hu : u = t
  · subst hu
    obtain ⟨hk, hheld⟩ := h.held_eq hs ht hev
    cases hr : ev.reads with
    | some x =>
      refine ⟨k, hfirst, fun j hj htk => ?_, ?_⟩
      · rcases taken_mark effect_consumed htk with htk | ⟨_, rfl⟩
        · exact h.rest j hj htk
        · exact ⟨x, (bind_reads hev).trans hr⟩
      · refine Eq.trans effect_held_self ?_
        rw [heldStep_read hr, h.held]
    | none =>
      refine ⟨i + 1, fun j hj => ?_, fun j hj htk => ?_, ?_⟩
      · rcases Nat.lt_succ_iff_lt_or_eq.mp hj with hlt | rfl
        · rcases takeable_earlier hev ht hlt with hc | ⟨_, hplain⟩
          · exact Taken.mark effect_consumed hc
          · cases ev with
            | read y => exact absurd hr (by simp [Event.reads])
            | _ => exact absurd hplain (by simp [Event.isPlainRead])
        · apply mark_taken
          rw [effect_consumed]
          exact (List.getElem?_eq_some_iff.mp (takeable_unconsumed (hs u) ht)).1
      · rcases taken_mark effect_consumed htk with htk | ⟨_, rfl⟩
        · exact h.rest j (by omega) htk
        · omega
      · rw [heldAt_succ hev, ← hheld]
        exact effect_held_self
  · refine ⟨k, hfirst, fun j hj htk => ?_, ?_⟩
    · rcases taken_mark effect_consumed htk with htk | ⟨heq, _⟩
      · exact h.rest j hj htk
      · exact absurd heq hu
    · rw [← h.held]
      exact effect_held_other hu

theorem Reachable.turn {st : OpState threads.length} (h : Reachable threads true st) (u : Fin threads.length) :
    ∃ k, Turn st u k := by
  induction h with
  | init =>
    refine ⟨0, fun j hj => absurd hj (Nat.not_lt_zero j), fun j _ htk => absurd htk not_taken_initial, ?_⟩
    simp [initial, heldAt]
  | step hr hmove ih =>
    obtain ⟨k, hk⟩ := ih
    cases hmove with
    | flush _ _ => exact ⟨k, hk.first, hk.rest, hk.held⟩
    | observe _ _ _ _ => exact ⟨k, hk.first, hk.rest, hk.held⟩
    | exec hs ht hev hperform =>
      obtain ⟨_, rfl⟩ := perform_iff.mp ⟨_, hperform⟩
      exact hk.exec hr.shaped ht hev

end Static

end Weakmem

end Interleave

end Csolver
