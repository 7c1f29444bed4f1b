import Csolver.Interleave.Weakmem

/-!
# Runs of the weak-memory model

What a step can do is said once (`Move`); the list of successors is exactly this (`mem_successors`). Every
step uses something up, so a search without a budget comes to an end and finds what can be observed
(`opReachable_unlimited`).
-/

namespace Csolver

open Lib

namespace Interleave

namespace Weakmem

variable {threads : List Thread}

/-- What a step is. -/
inductive Act (n : Nat) where
  | flush (t : Fin n) (x : String) (v : Nat)
  | observe (p : Pending n) (u : Fin n)
  | exec (t : Fin n) (i : Nat)

/-- The state after the head of a buffer was flushed. -/
def OpState.flushed (st : OpState threads.length) (t : Fin threads.length) (x : String) (v : Nat) :
    OpState threads.length :=
  { st with
    bufs := st.bufs.set t ((st.bufs.get t).modify List.tail x)
    views := st.views.set t ((st.views.get t).insert x v)
    pending := st.pending ++ [⟨t, x, v, (List.Vector.replicate _ false).set t true⟩] }

/-- The state after a write has reached a view. -/
def OpState.observed (st : OpState threads.length) (pi : Nat) (p : Pending threads.length)
    (u : Fin threads.length) : OpState threads.length :=
  { st with
    views := st.views.set u ((st.views.get u).insert p.loc p.tag)
    pending := deliver st.pending pi u }

def OpState.mark (st : OpState threads.length) (t : Fin threads.length) (i : Nat) : OpState threads.length :=
  { st with consumed := st.consumed.set t ((st.consumed.get t).set i true) }

inductive Move (weak : Bool) : OpState threads.length → Act threads.length → OpState threads.length → Prop
  | flush {st : OpState threads.length} {t : Fin threads.length} {x : String} {v : Nat} {b : List Nat} :
      weak = true → (st.bufs.get t).get x = some (v :: b) → Move weak st (.flush t x v) (st.flushed t x v)
  | observe {st : OpState threads.length} {pi : Nat} {p : Pending threads.length} {u : Fin threads.length} :
      weak = true → st.pending[pi]? = some p → p.delivered.get u = false →
      blocked (st.pending.take pi) p u = false → Move weak st (.observe p u) (st.observed pi p u)
  | exec {st r : OpState threads.length} {t : Fin threads.length} {i : Nat} {ev : Event} {label : String} :
      st.spawned.get t = true → takeable (threads.get t).events (st.consumed.get t) i weak = true →
      (threads.get t).events[i]? = some ev → perform st weak t i ev = some (r, label) →
      Move weak st (.exec t i) (r.mark t i)

theorem flush_eq_some {st st' : OpState threads.length} {t : Fin threads.length} {x : String} :
    flush st t x = some st' ↔ ∃ v b, (st.bufs.get t).get x = some (v :: b) ∧ st' = st.flushed t x v := by
  rw [flush]
  split
  · next v b h =>
    constructor
    · intro heq
      exact ⟨v, b, h, (Option.some.inj heq).symm⟩
    · rintro ⟨v', b', h', rfl⟩
      obtain ⟨rfl, rfl⟩ := List.cons.inj (Option.some.inj (h.symm.trans h'))
      rfl
  · next hno =>
    refine ⟨fun h => absurd h (by simp), ?_⟩
    rintro ⟨v, b, h, _⟩
    exact absurd h (hno v b)

theorem propagate_eq_some {st st' : OpState threads.length} {pi : Nat} {u : Fin threads.length} {x : String} :
    propagate st pi u = some (st', x) ↔ ∃ p, st.pending[pi]? = some p ∧ p.delivered.get u = false ∧
      blocked (st.pending.take pi) p u = false ∧ st' = st.observed pi p u ∧ x = p.loc := by
  rw [propagate]
  cases st.pending[pi]? with
  | none => simp
  | some p =>
    by_cases hb : (p.delivered.get u || blocked (st.pending.take pi) p u) = true
    · simp only [hb, if_true]
      refine ⟨fun h => absurd h (by simp), ?_⟩
      rintro ⟨p', hp, hd, hbl, _⟩
      obtain rfl := Option.some.inj hp
      simp [hd, hbl] at hb
    · simp only [hb]
      obtain ⟨hd, hbl⟩ := Bool.or_eq_false_iff.mp (Bool.eq_false_iff.mpr hb)
      constructor
      · intro h
        obtain ⟨rfl, rfl⟩ := Prod.mk.inj (Option.some.inj h)
        exact ⟨p, rfl, hd, hbl, rfl, rfl⟩
      · rintro ⟨p', hp, _, _, rfl, rfl⟩
        obtain rfl := Option.some.inj hp
        rfl

theorem consume_eq_some {st st' : OpState threads.length} {weak : Bool} {t : Fin threads.length} {i : Nat}
    {label : String} : consume st weak t i = some (st', label) ↔ st.spawned.get t = true ∧
      takeable (threads.get t).events (st.consumed.get t) i weak = true ∧
      ∃ ev r, (threads.get t).events[i]? = some ev ∧ perform st weak t i ev = some (r, label) ∧
        st' = r.mark t i := by
  rw [consume]
  split
  · next h =>
    obtain ⟨hs, ht⟩ := Bool.and_eq_true_iff.mp h
    rw [Option.map_eq_some_iff]
    constructor
    · rintro ⟨⟨r, l⟩, hbind, heq⟩
      obtain ⟨ev, hev, hr⟩ := Option.bind_eq_some_iff.mp hbind
      obtain ⟨rfl, rfl⟩ := Prod.mk.inj heq
      exact ⟨hs, ht, ev, r, hev, hr, rfl⟩
    · rintro ⟨_, _, ev, r, hev, hr, rfl⟩
      exact ⟨(r, label), Option.bind_eq_some_iff.mpr ⟨ev, hev, hr⟩, rfl⟩
  · next h =>
    refine ⟨fun heq => absurd heq (by simp), ?_⟩
    rintro ⟨hs, ht, _⟩
    exact absurd (Bool.and_eq_true_iff.mpr ⟨hs, ht⟩) h

theorem mem_successors {st st' : OpState threads.length} {weak : Bool} :
    (∃ l, (l, st') ∈ successors st weak) ↔ ∃ act, Move weak st act st' := by
  constructor
  · rintro ⟨l, h⟩
    rcases List.mem_append.mp h with h | h
    · split at h
      · next hweak =>
        rcases List.mem_append.mp h with h | h
        · obtain ⟨t, _, h⟩ := List.mem_flatMap.mp h
          obtain ⟨x, _, h⟩ := List.mem_filterMap.mp h
          obtain ⟨ns, hns, heq⟩ := Option.map_eq_some_iff.mp h
          obtain ⟨v, b, hb, rfl⟩ := flush_eq_some.mp hns
          obtain ⟨_, rfl⟩ := Prod.mk.inj heq
          exact ⟨_, .flush hweak hb⟩
        · obtain ⟨pi, _, h⟩ := List.mem_flatMap.mp h
          obtain ⟨u, _, h⟩ := List.mem_filterMap.mp h
          obtain ⟨⟨ns, x⟩, hns, heq⟩ := Option.map_eq_some_iff.mp h
          obtain ⟨p, hp, hd, hb, rfl, rfl⟩ := propagate_eq_some.mp hns
          obtain ⟨_, rfl⟩ := Prod.mk.inj heq
          exact ⟨_, .observe hweak hp hd hb⟩
      · exact absurd h List.not_mem_nil
    · obtain ⟨t, _, h⟩ := List.mem_flatMap.mp h
      obtain ⟨i, _, h⟩ := List.mem_filterMap.mp h
      obtain ⟨⟨ns, label⟩, hns, heq⟩ := Option.map_eq_some_iff.mp h
      obtain ⟨hs, ht, ev, r, hev, hr, rfl⟩ := consume_eq_some.mp hns
      obtain ⟨_, rfl⟩ := Prod.mk.inj heq
      exact ⟨_, .exec hs ht hev hr⟩
  · rintro ⟨act, hmove⟩
    cases hmove with
    | flush hweak hb =>
      next t x v b =>
      refine ⟨(t, "flush " ++ x), List.mem_append_left _ ?_⟩
      rw [if_pos hweak]
      apply List.mem_append_left
      refine List.mem_flatMap.mpr ⟨t, List.mem_finRange t, List.mem_filterMap.mpr ⟨x, ?_, ?_⟩⟩
      · exact SortedMap.mem_keys_of_get hb
      · rw [flush_eq_some.mpr ⟨v, b, hb, rfl⟩]
        rfl
    | observe hweak hp hd hb =>
      next pi p u =>
      refine ⟨(u, "observe " ++ p.loc), List.mem_append_left _ ?_⟩
      rw [if_pos hweak]
      apply List.mem_append_right
      have hlt : pi < st.pending.length := (List.getElem?_eq_some_iff.mp hp).1
      refine List.mem_flatMap.mpr ⟨pi, List.mem_range.mpr hlt, List.mem_filterMap.mpr ⟨u, List.mem_finRange u, ?_⟩⟩
      rw [propagate_eq_some.mpr ⟨p, hp, hd, hb, rfl, rfl⟩]
      rfl
    | exec hs ht hev hr =>
      next r t i ev label =>
      refine ⟨(t, label), List.mem_append_right _ ?_⟩
      have hlt : i < (threads.get t).events.length := (List.getElem?_eq_some_iff.mp hev).1
      refine List.mem_flatMap.mpr ⟨t, List.mem_finRange t, List.mem_filterMap.mpr ⟨i, List.mem_range.mpr hlt, ?_⟩⟩
      rw [consume_eq_some.mpr ⟨hs, ht, ev, r, hev, hr, rfl⟩]
      rfl

/-! ## Events -/

def Ready (st : OpState threads.length) (t : Fin threads.length) : Event → Prop
  | .fence => drained st t = true ∧ noPendingTo st t = true
  | .wfence | .spawn _ | .release _ => drained st t = true
  | .join => childrenOk st t = true ∧ drained st t = true
  | .acquire l => (∀ o, o ≠ t → l ∉ st.held.get o) ∧ drained st t = true
  | _ => True

def OpState.written (st : OpState threads.length) (weak : Bool) (t : Fin threads.length) (x : String)
    (tag : Nat) : OpState threads.length :=
  if weak then { st with bufs := st.bufs.set t (pushBuf (st.bufs.get t) x tag) }
  else { st with views := st.views.map fun m => m.insert x tag }

def effect (st : OpState threads.length) (weak : Bool) (t : Fin threads.length) (i : Nat) :
    Event → OpState threads.length
  | .write x | .rmw x => st.written weak t x (writeTag threads t i)
  | .read x | .depRead x => { st with obs := st.obs.insert (readId threads t i) (opRead st t x) }
  | .spawn name => match spawnTarget threads t (.spawn name) with
    | some c => { st with spawned := st.spawned.set c true }
    | none => st
  | .acquire l => { st with held := st.held.set t (st.held.get t ++ [l]) }
  | .release l => { st with held := st.held.set t ((st.held.get t).filter fun h => decide (h ≠ l)) }
  | _ => st

theorem perform_iff {st r : OpState threads.length} {weak : Bool} {t : Fin threads.length} {i : Nat} {ev : Event} :
    (∃ label, perform st weak t i ev = some (r, label)) ↔ Ready st t ev ∧ r = effect st weak t i ev := by
  cases ev with
  | acquire l =>
    simp only [perform, Ready, effect]
    by_cases hno : ∀ o, o ≠ t → l ∉ st.held.get o
    · have hany : (List.finRange threads.length).any (fun o => decide (o ≠ t) && decide (l ∈ st.held.get o)) =
          false := by
        rw [List.any_eq_false]
        intro o _
        simpa using hno o
      rw [hany]
      by_cases hd : drained st t = true
      · simp only [hd, Bool.not_true, Bool.or_false, Bool.false_eq_true, if_false]
        constructor
        · rintro ⟨label, h⟩
          exact ⟨⟨hno, trivial⟩, (Prod.mk.inj (Option.some.inj h)).1.symm⟩
        · rintro ⟨_, rfl⟩
          exact ⟨_, rfl⟩
      · simp [hd]
    · have hany : (List.finRange threads.length).any (fun o => decide (o ≠ t) && decide (l ∈ st.held.get o)) =
          true := by
        rw [List.any_eq_true]
        obtain ⟨o, ho⟩ := not_forall.mp hno
        obtain ⟨hne, hmem⟩ := Classical.not_imp.mp ho
        exact ⟨o, List.mem_finRange o, by simpa [hne] using hmem⟩
      rw [hany]
      simp [hno]
  | release l => by_cases hd : drained st t = true <;> simp [perform, Ready, effect, hd, eq_comm]
  | spawn name =>
    by_cases hd : drained st t = true
    · cases htarget : spawnTarget threads t (.spawn name) <;>
        simp [perform, Ready, effect, hd, htarget, eq_comm]
    · simp [perform, Ready, hd]
  | wfence => by_cases hd : drained st t = true <;> simp [perform, Ready, effect, hd, eq_comm]
  | fence =>
    by_cases hd : drained st t = true <;> by_cases hp : noPendingTo st t = true <;>
      simp [perform, Ready, effect, hd, hp, eq_comm]
  | join =>
    by_cases hd : drained st t = true <;> by_cases hp : childrenOk st t = true <;>
      simp [perform, Ready, effect, hd, hp, eq_comm]
  | _ => simp [perform, Ready, effect, OpState.written, eq_comm]

theorem Move.of_exec {weak : Bool} {st st' : OpState threads.length} {t : Fin threads.length} {i : Nat}
    (h : Move weak st (.exec t i) st') : ∃ ev, st.spawned.get t = true ∧
      takeable (threads.get t).events (st.consumed.get t) i weak = true ∧
      (threads.get t).events[i]? = some ev ∧ Ready st t ev ∧ st' = (effect st weak t i ev).mark t i := by
  cases h with
  | exec hs ht hev hr =>
    obtain ⟨hready, rfl⟩ := perform_iff.mp ⟨_, hr⟩
    exact ⟨_, hs, ht, hev, hready, rfl⟩

theorem Move.exec_of {weak : Bool} {st : OpState threads.length} {t : Fin threads.length} {i : Nat} {ev : Event}
    (hs : st.spawned.get t = true) (ht : takeable (threads.get t).events (st.consumed.get t) i weak = true)
    (hev : (threads.get t).events[i]? = some ev) (hready : Ready st t ev) :
    Move weak st (.exec t i) ((effect st weak t i ev).mark t i) := by
  obtain ⟨label, hr⟩ := perform_iff.mpr ⟨hready, rfl⟩
  exact .exec hs ht hev hr

section Effect

variable {st : OpState threads.length} {weak : Bool} {t : Fin threads.length} {i : Nat} {ev : Event}

@[simp] theorem effect_consumed : (effect st weak t i ev).consumed = st.consumed := by
  cases ev with
  | spawn name =>
    rw [effect]
    split <;> rfl
  | _ => cases weak <;> rfl

@[simp] theorem effect_pending : (effect st weak t i ev).pending = st.pending := by
  cases ev with
  | spawn name =>
    rw [effect]
    split <;> rfl
  | _ => cases weak <;> rfl

theorem effect_bufs : (effect st weak t i ev).bufs = match weak, ev.writes with
    | true, some x => st.bufs.set t (pushBuf (st.bufs.get t) x (writeTag threads t i))
    | _, _ => st.bufs := by
  cases ev with
  | spawn name =>
    rw [effect]
    cases weak <;> split <;> rfl
  | _ => cases weak <;> rfl

end Effect

/-! ## Every step uses something up -/

section Rank

variable {α : Type} {n : Nat}

theorem sum_map_set (f : α → Nat) {l : List α} {i : Nat} {b : α} (h : l[i]? = some b) (a : α) :
    ((l.set i a).map f).sum + f b = (l.map f).sum + f a := by
  induction l generalizing i with
  | nil => exact absurd h (by simp)
  | cons c l ih =>
    cases i with
    | zero =>
      obtain rfl := Option.some.inj h
      simp only [List.set_cons_zero, List.map_cons, List.sum_cons]
      omega
    | succ i =>
      have := ih h
      simp only [List.set_cons_succ, List.map_cons, List.sum_cons]
      omega

theorem sum_map_eraseIdx (f : α → Nat) {l : List α} {i : Nat} {b : α} (h : l[i]? = some b) :
    ((l.eraseIdx i).map f).sum + f b = (l.map f).sum := by
  induction l generalizing i with
  | nil => exact absurd h (by simp)
  | cons c l ih =>
    cases i with
    | zero =>
      obtain rfl := Option.some.inj h
      simp only [List.eraseIdx_cons_zero, List.map_cons, List.sum_cons]
      omega
    | succ i =>
      have := ih h
      simp only [List.eraseIdx_cons_succ, List.map_cons, List.sum_cons]
      omega

/-- What the entries of a vector add up to. -/
def weigh (f : α → Nat) (v : List.Vector α n) : Nat := (v.toList.map f).sum

theorem getElem?_toList (v : List.Vector α n) (t : Fin n) : v.toList[t.1]? = some (v.get t) := by
  rw [List.Vector.get_eq_get_toList]
  exact List.getElem?_eq_getElem _

theorem weigh_set (f : α → Nat) (v : List.Vector α n) (t : Fin n) (a : α) :
    weigh f (v.set t a) + f (v.get t) = weigh f v + f a := by
  rw [weigh, weigh, List.Vector.toList_set]
  exact sum_map_set f (getElem?_toList v t) a

/-- The events of a thread that are left. -/
def leftover (c : List Bool) : Nat := c.count false

/-- The views that a write has not reached. -/
def Pending.missing (p : Pending n) : Nat := p.delivered.toList.count false

theorem count_set_true {l : List Bool} {i : Nat} (h : l[i]? = some false) :
    (l.set i true).count false + 1 = l.count false := by
  obtain ⟨hlt, heq⟩ := List.getElem?_eq_some_iff.mp h
  have hpos : 0 < l.count false := List.count_pos_iff.mpr (heq ▸ List.getElem_mem hlt)
  rw [List.count_set hlt, heq]
  simp
  omega

theorem missing_set {p : Pending n} {u : Fin n} (h : p.delivered.get u = false) :
    (Pending.missing { p with delivered := p.delivered.set u true }) + 1 = p.missing := by
  rw [Pending.missing, List.Vector.toList_set]
  exact count_set_true (h ▸ getElem?_toList p.delivered u)

/-- What a state has left to do: an event, then a write in a buffer, then one view after the other. -/
def rank (st : OpState n) : Nat :=
  weigh leftover st.consumed * (n + 2) + weigh (SortedMap.total List.length) st.bufs * (n + 1) +
    (st.pending.map fun p => p.missing + 1).sum

theorem missing_fresh (t : Fin n) (x : String) (v : Nat) :
    (Pending.missing ⟨t, x, v, (List.Vector.replicate n false).set t true⟩) + 1 = n := by
  have h := missing_set (p := ⟨t, x, v, List.Vector.replicate n false⟩) (u := t) (by simp)
  rw [h, Pending.missing]
  exact List.count_replicate_self

theorem deliver_cost {pending : List (Pending threads.length)} {pi : Nat} {p : Pending threads.length}
    {u : Fin threads.length} (hp : pending[pi]? = some p) (hd : p.delivered.get u = false) :
    ((deliver pending pi u).map fun p => p.missing + 1).sum < (pending.map fun p => p.missing + 1).sum := by
  rw [deliver, hp]
  simp only
  split
  · have := sum_map_eraseIdx (fun p => p.missing + 1) hp
    omega
  · have := sum_map_set (fun p => p.missing + 1) hp { p with delivered := p.delivered.set u true }
    have := missing_set hd
    omega

/-- Each thread has a mark for each of its events. -/
def Shaped (st : OpState threads.length) : Prop :=
  ∀ t, (st.consumed.get t).length = (threads.get t).events.length

theorem takeable_unconsumed {events : List Event} {consumed : List Bool} {i : Nat} {reorder : Bool}
    (hlen : consumed.length = events.length) (h : takeable events consumed i reorder = true) :
    consumed[i]? = some false := by
  rw [takeable] at h
  split at h
  · exact absurd h (by simp)
  · next ev hev =>
    have hlt : i < consumed.length := hlen ▸ (List.getElem?_eq_some_iff.mp hev).1
    simp only [Bool.and_eq_true, Bool.not_eq_true'] at h
    rw [List.getD_eq_getElem?_getD, List.getElem?_eq_getElem hlt] at h
    rw [List.getElem?_eq_getElem hlt]
    exact congrArg some h.1

theorem total_pushBuf (m : SortedMap String (List Nat)) (x : String) (tag : Nat) :
    (pushBuf m x tag).total List.length = m.total List.length + 1 := by
  rw [pushBuf]
  split
  · next b hb =>
    have h := SortedMap.total_modify List.length (· ++ [tag]) hb
    simp only [List.length_append, List.length_singleton] at h
    omega
  · next hb => exact SortedMap.total_insert List.length hb [tag]

theorem Move.rank_lt {weak : Bool} {st st' : OpState threads.length} {act : Act threads.length}
    (h : Move weak st act st') (hs : Shaped st) : Shaped st' ∧ rank st' < rank st := by
  cases h with
  | flush hweak hb =>
    next t x v b =>
    refine ⟨hs, ?_⟩
    have hbufs := weigh_set (SortedMap.total List.length) st.bufs t ((st.bufs.get t).modify List.tail x)
    have htotal := SortedMap.total_modify List.length List.tail hb
    have hfresh := missing_fresh t x v
    simp only [List.length_cons, List.tail_cons] at htotal
    simp only [rank, OpState.flushed, List.map_append, List.sum_append, List.map_cons, List.map_nil,
      List.sum_cons, List.sum_nil]
    have hone : weigh (SortedMap.total List.length) st.bufs =
        weigh (SortedMap.total List.length) (st.bufs.set t ((st.bufs.get t).modify List.tail x)) + 1 := by omega
    rw [hone, Nat.add_mul, Nat.one_mul]
    omega
  | observe hweak hp hd hb =>
    refine ⟨hs, ?_⟩
    have := deliver_cost hp hd
    simp only [rank, OpState.observed]
    omega
  | exec hspawned htake hev hr =>
    next r t i ev label =>
    obtain ⟨_, rfl⟩ := perform_iff.mp ⟨_, hr⟩
    have hfalse := takeable_unconsumed (hs t) htake
    constructor
    · intro u
      simp only [OpState.mark, effect_consumed, List.Vector.get_set_eq_if]
      split
      · next heq =>
        rw [List.length_set, ← heq]
        exact hs t
      · exact hs u
    · have hcons := weigh_set leftover st.consumed t ((st.consumed.get t).set i true)
      have hcount := count_set_true hfalse
      have hone : weigh leftover st.consumed =
          weigh leftover (st.consumed.set t ((st.consumed.get t).set i true)) + 1 := by
        simp only [leftover] at hcons ⊢
        omega
      have hbufs : weigh (SortedMap.total List.length) (effect st weak t i ev).bufs ≤
          weigh (SortedMap.total List.length) st.bufs + 1 := by
        rw [effect_bufs]
        split
        · next x hx =>
          have := weigh_set (SortedMap.total List.length) st.bufs t
            (pushBuf (st.bufs.get t) x (writeTag threads t i))
          have := total_pushBuf (st.bufs.get t) x (writeTag threads t i)
          omega
        · omega
      have hmul := Nat.mul_le_mul_right (threads.length + 1) hbufs
      simp only [rank, OpState.mark, effect_consumed, effect_pending]
      rw [hone]
      simp only [Nat.add_mul, Nat.one_mul] at hmul ⊢
      omega

end Rank

/-! ## What can be observed -/

variable (threads) in
/-- The states that a run reaches. -/
inductive Reachable (weak : Bool) : OpState threads.length → Prop
  | init : Reachable weak (initial threads)
  | step {st st' : OpState threads.length} {act : Act threads.length} : Reachable weak st →
      Move weak st act st' → Reachable weak st'

variable (threads) in
/-- Some complete run has the observation. -/
def Observes (weak : Bool) (obs : SortedMap Nat Nat) : Prop :=
  ∃ st, Reachable threads weak st ∧ terminal st = some obs

theorem initial_shaped : Shaped (initial threads) := by
  intro t
  simp [initial]

theorem Reachable.shaped {weak : Bool} {st : OpState threads.length} (h : Reachable threads weak st) : Shaped st := by
  induction h with
  | init => exact initial_shaped
  | step _ hmove ih => exact (hmove.rank_lt ih).1

theorem terminal_eq_some {st : OpState threads.length} {obs : SortedMap Nat Nat} :
    terminal st = some obs ↔
      ((∀ t, ∀ c ∈ st.consumed.get t, c = true) ∧ (∀ t, bufsEmpty st t = true) ∧ st.pending = []) ∧ st.obs = obs := by
  rw [terminal]
  split
  · next h =>
    simp only [Bool.and_eq_true, List.all_eq_true, List.mem_finRange, true_implies, id, List.isEmpty_iff] at h
    refine ⟨fun heq => ⟨⟨fun t => (h.1 t).1, fun t => (h.1 t).2, h.2⟩, Option.some.inj heq⟩, ?_⟩
    rintro ⟨_, rfl⟩
    rfl
  · next h =>
    refine ⟨fun heq => absurd heq (by simp), ?_⟩
    rintro ⟨⟨hc, hb, hp⟩, _⟩
    refine absurd ?_ h
    simp only [Bool.and_eq_true, List.all_eq_true, List.mem_finRange, true_implies, id, List.isEmpty_iff]
    exact ⟨fun t => ⟨hc t, hb t⟩, hp⟩

theorem Move.not_terminal {weak : Bool} {st st' : OpState threads.length} {act : Act threads.length}
    (h : Move weak st act st') (hs : Shaped st) : terminal st = none := by
  rw [Option.eq_none_iff_forall_ne_some]
  intro obs hobs
  obtain ⟨⟨hc, hb, hp⟩, _⟩ := terminal_eq_some.mp hobs
  cases h with
  | @flush t x v b _ hbuf =>
    have hempty := hb t
    rw [bufsEmpty, List.all_eq_true] at hempty
    obtain ⟨e, he, rfl⟩ := SortedMap.exists_mem_of_get hbuf
    exact absurd (hempty (x, v :: b) he) (by simp)
  | observe _ hpi _ _ =>
    rw [hp] at hpi
    exact absurd hpi (by simp)
  | @exec r t i ev label _ htake _ _ =>
    have hfalse := takeable_unconsumed (hs t) htake
    exact absurd (hc t false (List.mem_of_getElem? hfalse)) (by simp)

theorem Walk.reachable {weak : Bool} {path : List (Label threads.length)} {st : OpState threads.length}
    (h : Walk (fun st => successors st weak) terminal (initial threads) path st) : Reachable threads weak st := by
  induction h with
  | refl => exact .init
  | step _ _ hmem ih =>
    obtain ⟨act, hmove⟩ := mem_successors.mp ⟨_, hmem⟩
    exact .step ih hmove

theorem Reachable.walk {weak : Bool} {st : OpState threads.length} (h : Reachable threads weak st) :
    ∃ path, Walk (fun st => successors st weak) terminal (initial threads) path st := by
  induction h with
  | init => exact ⟨[], .refl⟩
  | step hr hmove ih =>
    obtain ⟨path, hwalk⟩ := ih
    obtain ⟨l, hl⟩ := mem_successors.mpr ⟨_, hmove⟩
    exact ⟨path ++ [l], .step hwalk (hmove.not_terminal hr.shaped) hl⟩

/-- Follow the successors with the given numbers. -/
def follow (weak : Bool) (st : OpState threads.length) : List Nat → Option (OpState threads.length)
  | [] => some st
  | k :: ks => (successors st weak)[k]?.bind fun e => follow weak e.2 ks

theorem follow_reachable {weak : Bool} {st st' : OpState threads.length} {ks : List Nat} (hst : Reachable threads weak st)
    (h : follow weak st ks = some st') : Reachable threads weak st' := by
  induction ks generalizing st with
  | nil =>
    obtain rfl := Option.some.inj h
    exact hst
  | cons k ks ih =>
    obtain ⟨e, he, hrest⟩ := Option.bind_eq_some_iff.mp h
    obtain ⟨act, hmove⟩ := mem_successors.mp ⟨e.1, List.mem_of_getElem? he⟩
    exact ih (.step hst hmove) hrest

/-- **The search is sound**: what it records can be observed. -/
theorem opReachable_sound {weak : Bool} {budget : Nat} {e : SortedMap Nat Nat × List (Label threads.length)}
    (h : e ∈ opReachable threads weak budget) :
    ∃ st, Walk (fun st => successors st weak) terminal (initial threads) e.2 st ∧ terminal st = some e.1 := by
  refine explore_sound (fun p hp => ?_) (fun e he => absurd he List.not_mem_nil) e h
  rw [List.mem_singleton.mp hp]
  exact .refl

/-- **Without a budget it is complete**: from some budget on it records exactly what can be observed. -/
theorem opReachable_unlimited (threads : List Thread) (weak : Bool) :
    ∃ B, ∀ budget, B ≤ budget → ∀ obs,
      obs ∈ (opReachable threads weak budget).map Prod.fst ↔ Observes threads weak obs := by
  have hstep (st : OpState threads.length) (hs : Shaped st) (e : Label threads.length × OpState threads.length)
      (he : e ∈ successors st weak) : Shaped e.2 ∧ rank e.2 < rank st := by
    obtain ⟨act, hmove⟩ := mem_successors.mp ⟨e.1, he⟩
    exact hmove.rank_lt hs
  obtain ⟨R, hinit, hclosed⟩ : ∃ R, initial threads ∈ R ∧ Closed (fun st => successors st weak) terminal R :=
    exists_closed rank hstep initial_shaped
  refine ⟨1 + ∑ s ∈ R, degree (fun st => successors st weak) terminal s, fun budget hle obs => ⟨fun h => ?_, ?_⟩⟩
  · obtain ⟨e, he, rfl⟩ := List.mem_map.mp h
    obtain ⟨st, hwalk, hterm⟩ := opReachable_sound he
    exact ⟨st, Walk.reachable hwalk, hterm⟩
  · rintro ⟨st, hr, hterm⟩
    obtain ⟨path, hwalk⟩ := hr.walk
    exact explore_complete hclosed hinit hle hwalk hterm

end Weakmem

end Interleave

end Csolver
