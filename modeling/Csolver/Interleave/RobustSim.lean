import Csolver.Interleave.Robust

/-!
# The sequential run of a program that locks

The sequential run follows the weak one: a thread has executed the first events in program order, and the
weak run may have taken some of the reads that come next.
-/

namespace Csolver

open Lib

namespace Interleave

namespace Weakmem

variable {threads : List Thread}

/-- The sequential state has executed the first `p t` events of each thread, memory is `mem`, and the weak
state has executed some of the reads that follow, and these found what is in memory. -/
structure Follows (lock : String → String) (mem : String → Nat) (p : Fin threads.length → Nat)
    (S W : OpState threads.length) : Prop where
  settles : Settles lock mem W
  held : S.held = W.held
  spawned : S.spawned = W.spawned
  quiet : Quiet S
  memory : ∀ u x, view S u x = mem x
  executed : ∀ t j, j < (threads.get t).events.length → (S.consumed.get t)[j]? = some (decide (j < p t))
  bound : ∀ t, p t ≤ (threads.get t).events.length
  done : ∀ t j, j < p t → Taken W t j
  started : ∀ t j, Taken W t j → W.spawned.get t = true
  reads : ∀ t j k, p t ≤ k → k ≤ j → Taken W t j → ∃ x, (threads.get t).events[k]?.bind Event.reads = some x
  early : ∀ t j x, p t ≤ j → Taken W t j → (threads.get t).events[j]?.bind Event.reads = some x →
    W.obs.get (readId threads t j) = some (mem x) ∧ (Contested threads x → lock x ∈ W.held.get t)
  agree : ∀ t j x, j < p t → (threads.get t).events[j]?.bind Event.reads = some x →
    S.obs.get (readId threads t j) = W.obs.get (readId threads t j)
  observedS : ∀ k v, S.obs.get k = some v →
    ∃ t j x, j < p t ∧ (threads.get t).events[j]?.bind Event.reads = some x ∧ k = readId threads t j
  observedW : ∀ k v, W.obs.get k = some v →
    ∃ t j x, Taken W t j ∧ (threads.get t).events[j]?.bind Event.reads = some x ∧ k = readId threads t j
  sortedS : S.obs.Sorted
  sortedW : W.obs.Sorted

/-! ## One more event of a thread -/

section Advance

variable {lock : String → String} {mem : String → Nat} {p : Fin threads.length → Nat}
  {S W : OpState threads.length} {t : Fin threads.length} {ev : Event} {x : String}

theorem Follows.takeable (h : Follows lock mem p S W) (hev : (threads.get t).events[p t]? = some ev) :
    takeable (threads.get t).events (S.consumed.get t) (p t) false = true := by
  have hlt : p t < (threads.get t).events.length := (List.getElem?_eq_some_iff.mp hev).1
  rw [Weakmem.takeable, hev]
  simp only [Bool.and_eq_true, List.all_eq_true, List.mem_range]
  refine ⟨?_, fun j hj => ?_⟩
  · rw [List.getD_eq_getElem?_getD, h.executed t _ hlt]
    simp
  · rw [List.getD_eq_getElem?_getD, h.executed t j (hj.trans hlt)]
    simp [hj]

theorem Follows.executed_mark (h : Follows lock mem p S W) (t u : Fin threads.length) (j : Nat)
    (hj : j < (threads.get u).events.length) : ((S.consumed.set t ((S.consumed.get t).set (p t) true)).get u)[j]? =
      some (decide (j < Function.update p t (p t + 1) u)) := by
  rw [List.Vector.get_set_eq_if]
  split
  · next htu =>
    subst htu
    rw [Function.update_self, List.getElem?_set]
    have hex := h.executed t j hj
    split
    · next heq =>
      subst heq
      have hlen : p t < (S.consumed.get t).length := (List.getElem?_eq_some_iff.mp hex).1
      simp [hlen]
    · rw [hex]
      congr 2
      simp
      omega
  · next hne =>
    rw [Function.update_of_ne (Ne.symm hne)]
    exact h.executed u j hj

theorem update_le (u : Fin threads.length) {j : Nat} (hj : j < p u) : j < Function.update p t (p t + 1) u := by
  by_cases hu : u = t
  · subst hu
    rw [Function.update_self]
    omega
  · rw [Function.update_of_ne hu]
    exact hj

theorem lt_update {u : Fin threads.length} {j : Nat} (hj : j < Function.update p t (p t + 1) u) :
    j < p u ∨ u = t ∧ j = p t := by
  by_cases hu : u = t
  · subst hu
    rw [Function.update_self] at hj
    omega
  · rw [Function.update_of_ne hu] at hj
    exact .inl hj

theorem Follows.read (h : Follows lock mem p S W) (htaken : Taken W t (p t)) :
    ∃ S' act, Move false S act S' ∧ Follows lock mem (Function.update p t (p t + 1)) S' W := by
  obtain ⟨x, hx⟩ := h.reads t (p t) (p t) le_rfl le_rfl htaken
  obtain ⟨ev, hev, hr⟩ := Option.bind_eq_some_iff.mp hx
  have hmove : Move false S (.exec t (p t)) ((effect S false t (p t) ev).mark t (p t)) := by
    apply Move.exec_of
    · rw [h.spawned]
      exact h.started t _ htaken
    · exact h.takeable hev
    · exact hev
    · exact ready_read hr
  have hval : opRead S t x = mem x := by
    rw [opRead_eq, bufsEmpty_buf (h.quiet.1 t), h.memory]
    rfl
  obtain ⟨hfound, _⟩ := h.early t (p t) x le_rfl htaken hx
  rw [effect_read hr, hval] at hmove
  refine ⟨_, _, hmove, ?_⟩
  constructor
  case settles => exact h.settles
  case held => exact h.held
  case spawned => exact h.spawned
  case quiet => exact h.quiet
  case memory => exact h.memory
  case executed => exact h.executed_mark t
  case bound =>
    intro u
    by_cases hu : u = t
    · subst hu
      rw [Function.update_self]
      exact (List.getElem?_eq_some_iff.mp hev).1
    · rw [Function.update_of_ne hu]
      exact h.bound u
  case done =>
    intro u j hj
    rcases lt_update hj with hj | ⟨rfl, rfl⟩
    · exact h.done u j hj
    · exact htaken
  case started => exact h.started
  case reads =>
    intro u j k hk hkj htk
    refine h.reads u j k ?_ hkj htk
    exact not_lt.mp fun hlt => absurd (update_le (t := t) u hlt) (not_lt.mpr hk)
  case early =>
    intro u j y hj htk hy
    refine h.early u j y ?_ htk hy
    exact not_lt.mp fun hlt => absurd (update_le (t := t) u hlt) (not_lt.mpr hj)
  case agree =>
    intro u j y hj hy
    rcases lt_update hj with hlt | ⟨rfl, rfl⟩
    · have hne : ¬ (u = t ∧ j = p t) := by
        rintro ⟨rfl, rfl⟩
        exact absurd hlt (lt_irrefl _)
      simp only [OpState.mark, SortedMap.get_insert]
      rw [if_neg (readId_ne hx hy hne)]
      exact h.agree u j y hlt hy
    · simp [OpState.mark, hfound]
  case observedS =>
    intro k v hk
    simp only [OpState.mark, SortedMap.get_insert] at hk
    split at hk
    · next heq => exact ⟨t, p t, x, by simp, hx, heq⟩
    · obtain ⟨u, j, y, hj, hy, heq⟩ := h.observedS k v hk
      exact ⟨u, j, y, update_le u hj, hy, heq⟩
  case observedW => exact h.observedW
  case sortedS => exact h.sortedS.insert _ _
  case sortedW => exact h.sortedW

theorem Follows.catchUp (h : Follows lock mem p S W) (hshaped : Shaped S) :
    ∃ p' S', Moves false S S' ∧ Follows lock mem p' S' W ∧ ∀ t, ¬ Taken W t (p' t) := by
  induction hr : rank S using Nat.strong_induction_on generalizing S p with
  | _ r ih =>
    by_cases hcaught : ∀ t, ¬ Taken W t (p t)
    · exact ⟨p, S, .refl, h, hcaught⟩
    · obtain ⟨t, htaken⟩ := not_forall_not.mp hcaught
      obtain ⟨S', act, hmove, h'⟩ := h.read htaken
      obtain ⟨hshaped', hlt⟩ := hmove.rank_lt hshaped
      obtain ⟨p', S'', hmoves, hfollows, hdone⟩ := ih (rank S') (hr ▸ hlt) h' hshaped' rfl
      exact ⟨p', S'', .head ⟨act, hmove⟩ hmoves, hfollows, hdone⟩

/-! ## Steps of the weak run -/

section Weak

variable {i : Nat} {u : Fin threads.length} {j : Nat}

theorem Follows.exec_read (h : Follows lock mem p S W) (hshaped : Shaped W)
    (hs : W.spawned.get t = true) (ht : Weakmem.takeable (threads.get t).events (W.consumed.get t) i true = true)
    (hev : (threads.get t).events[i]? = some ev) (hr : ev.reads = some x)
    (hlock : Contested threads x → lock x ∈ W.held.get t) :
    Follows lock mem p S ((effect W true t i ev).mark t i) := by
  have hx : (threads.get t).events[i]?.bind Event.reads = some x := (bind_reads hev).trans hr
  have hval : opRead W t x = mem x := h.settles.opRead_eq (mem_touched hev (.inl hr)) hlock
  have hnot : ¬ Taken W t i := by
    intro htaken
    rw [Taken, takeable_unconsumed (hshaped t) ht] at htaken
    exact absurd htaken (by simp)
  have hsettles : Settles lock mem ((effect W true t i ev).mark t i) := by
    apply h.settles.exec_none (ready_read hr)
    cases ev with
    | read y => rfl
    | depRead y => rfl
    | _ => exact absurd hr (by simp [Event.reads])
  have heff : effect W true t i ev = _ := effect_read hr
  rw [hval] at heff
  rw [heff] at hsettles ⊢
  constructor
  case settles => exact hsettles
  case held => exact h.held
  case spawned => exact h.spawned
  case quiet => exact h.quiet
  case memory => exact h.memory
  case executed => exact h.executed
  case bound => exact h.bound
  case done =>
    intro u j hj
    apply Taken.mark rfl
    exact h.done u j hj
  case started =>
    intro u j htk
    rcases taken_mark rfl htk with htk | ⟨rfl, rfl⟩
    · exact h.started u j htk
    · exact hs
  case reads =>
    intro u j k hk hkj htk
    rcases taken_mark rfl htk with htk | ⟨rfl, rfl⟩
    · exact h.reads u j k hk hkj htk
    · rcases Nat.lt_or_eq_of_le hkj with hlt | rfl
      · rcases takeable_earlier hev ht hlt with hc | ⟨hread, _⟩
        · exact h.reads u k k hk le_rfl hc
        · exact hread
      · exact ⟨x, hx⟩
  case early =>
    intro u j y hj htk hy
    simp only [OpState.mark, SortedMap.get_insert]
    by_cases hself : u = t ∧ j = i
    · obtain ⟨rfl, rfl⟩ := hself
      obtain rfl := Option.some.inj (hx.symm.trans hy)
      exact ⟨if_pos rfl, hlock⟩
    · have htk' : Taken W u j := (taken_mark rfl htk).resolve_right hself
      rw [if_neg (readId_ne hx hy hself)]
      exact h.early u j y hj htk' hy
  case agree =>
    intro u j y hj hy
    have hself : ¬ (u = t ∧ j = i) := by
      rintro ⟨rfl, rfl⟩
      exact hnot (h.done u j hj)
    simp only [OpState.mark, SortedMap.get_insert]
    rw [if_neg (readId_ne hx hy hself)]
    exact h.agree u j y hj hy
  case observedS => exact h.observedS
  case observedW =>
    intro k v hk
    simp only [OpState.mark, SortedMap.get_insert] at hk
    split at hk
    · next heq =>
      refine ⟨t, i, x, mark_taken ?_, hx, heq⟩
      exact (List.getElem?_eq_some_iff.mp (takeable_unconsumed (hshaped t) ht)).1
    · obtain ⟨u, j, y, hj, hy, heq⟩ := h.observedW k v hk
      exact ⟨u, j, y, Taken.mark rfl hj, hy, heq⟩
  case sortedS => exact h.sortedS
  case sortedW => exact h.sortedW.insert _ _

/-! ### The other events -/

theorem Follows.finished (h : Follows lock mem p S W) (hS : Shaped S) (hW : Shaped W)
    (hcaught : ∀ t, ¬ Taken W t (p t)) (hall : (W.consumed.get u).all id = true) :
    p u = (threads.get u).events.length ∧ (S.consumed.get u).all id = true := by
  rw [hW.all_iff] at hall
  have hp : p u = (threads.get u).events.length := by
    refine le_antisymm (h.bound u) (not_lt.mp fun hlt => ?_)
    exact hcaught u (hall _ hlt)
  refine ⟨hp, hS.all_iff.mpr fun j hj => ?_⟩
  rw [Taken, h.executed u j hj, decide_eq_true (hp ▸ hj)]

theorem Follows.ready (h : Follows lock mem p S W) (hS : Shaped S) (hW : Shaped W)
    (hcaught : ∀ t, ¬ Taken W t (p t)) (hready : Ready W t ev) : Ready S t ev := by
  cases ev with
  | fence =>
    refine ⟨h.quiet.drained t, ?_⟩
    rw [noPendingTo, h.quiet.2]
    rfl
  | wfence => exact h.quiet.drained t
  | spawn name => exact h.quiet.drained t
  | release l => exact h.quiet.drained t
  | acquire l =>
    refine ⟨fun o ho => ?_, h.quiet.drained t⟩
    rw [h.held]
    exact hready.1 o ho
  | join =>
    refine ⟨?_, h.quiet.drained t⟩
    have hc := hready.1
    rw [childrenOk, List.all_eq_true] at hc ⊢
    intro c hmem
    have hchild := hc c hmem
    simp only [Bool.or_eq_true, Bool.and_eq_true] at hchild ⊢
    exact hchild.imp_right fun hfin => ⟨(h.finished hS hW hcaught hfin.1).2, h.quiet.drained c⟩
  | _ => trivial

theorem Follows.exec_settles (h : Follows lock mem p S W) (hev : (threads.get t).events[i]? = some ev)
    (hready : Ready W t ev) (hlock : ∀ x, ev.writes = some x → Contested threads x → lock x ∈ W.held.get t) :
    Settles lock (fun y => if ev.writes = some y then writeTag threads t i else mem y)
      ((effect W true t i ev).mark t i) := by
  cases hw : ev.writes with
  | none =>
    have hmem := h.settles.exec_none (i := i) hready hw
    simpa using hmem
  | some x =>
    have hmem := h.settles.exec_some hev hw (hlock x hw)
    have hupdate : Function.update mem x (writeTag threads t i) =
        fun y => if some x = some y then writeTag threads t i else mem y := by
      funext y
      by_cases hy : y = x
      · subst hy
        simp
      · simp [hy, Ne.symm hy]
    rwa [hupdate] at hmem

theorem Follows.turn (h : Follows lock mem p S W) (hW : Shaped W) (hcaught : ∀ t, ¬ Taken W t (p t))
    (ht : Weakmem.takeable (threads.get t).events (W.consumed.get t) i true = true)
    (hev : (threads.get t).events[i]? = some ev) (hr : ev.reads = none) : p t = i := by
  rcases lt_trichotomy (p t) i with hlt | heq | hlt
  · rcases takeable_earlier hev ht hlt with hc | ⟨_, hplain⟩
    · exact absurd hc (hcaught t)
    · cases ev with
      | read y => exact absurd hr (by simp [Event.reads])
      | _ => exact absurd hplain (by simp [Event.isPlainRead])
  · exact heq
  · have htk := h.done t i hlt
    rw [Taken, takeable_unconsumed (hW t) ht] at htk
    exact absurd htk (by simp)

theorem Follows.exec_other (h : Follows lock mem p S W) (hS : Shaped S) (hW : Shaped W)
    (hcaught : ∀ t, ¬ Taken W t (p t)) (hs : W.spawned.get t = true)
    (ht : Weakmem.takeable (threads.get t).events (W.consumed.get t) i true = true)
    (hev : (threads.get t).events[i]? = some ev) (hr : ev.reads = none) (hready : Ready W t ev)
    (hlock : ∀ x, ev.writes = some x → Contested threads x → lock x ∈ W.held.get t) :
    ∃ S' mem' p', Moves false S S' ∧ Follows lock mem' p' S' ((effect W true t i ev).mark t i) := by
  obtain rfl := h.turn hW hcaught ht hev hr
  have hlt : p t < (threads.get t).events.length := (List.getElem?_eq_some_iff.mp hev).1
  have hmove : Move false S (.exec t (p t)) ((effect S false t (p t) ev).mark t (p t)) := by
    apply Move.exec_of
    · rw [h.spawned]
      exact hs
    · exact h.takeable hev
    · exact hev
    · exact h.ready hS hW hcaught hready
  have hreads : (threads.get t).events[p t]?.bind Event.reads = none := (bind_reads hev).trans hr
  -- no read was taken past the event
  have hextra (u : Fin threads.length) (j : Nat) (hj : p u ≤ j) (htk : Taken W u j) : u ≠ t := by
    rintro rfl
    obtain ⟨x, hx⟩ := h.reads u j (p u) le_rfl hj htk
    rw [hreads] at hx
    exact absurd hx (by simp)
  have hback (u : Fin threads.length) (j : Nat) (hj : Function.update p t (p t + 1) u ≤ j) : p u ≤ j :=
    not_lt.mp fun hlt => absurd (update_le (t := t) u hlt) (not_lt.mpr hj)
  have hold (u : Fin threads.length) (j : Nat) (hj : Function.update p t (p t + 1) u ≤ j)
      (htk : Taken ((effect W true t (p t) ev).mark t (p t)) u j) : Taken W u j := by
    refine (taken_mark effect_consumed htk).resolve_right ?_
    rintro ⟨rfl, rfl⟩
    rw [Function.update_self] at hj
    omega
  have hobs {st : OpState threads.length} {weak : Bool} :
      ((effect st weak t (p t) ev).mark t (p t)).obs = st.obs := by
    rw [OpState.mark]
    simp only [effect_obs, hr]
  refine ⟨_, fun y => if ev.writes = some y then writeTag threads t (p t) else mem y,
    Function.update p t (p t + 1), .single ⟨_, hmove⟩, ?_⟩
  constructor
  case settles => exact h.exec_settles hev hready hlock
  case held => simp only [OpState.mark, effect_held, h.held]
  case spawned => simp only [OpState.mark, effect_spawned, h.spawned]
  case quiet =>
    refine ⟨fun u => ?_, ?_⟩
    · have hq := h.quiet.1 u
      simpa [OpState.mark, bufsEmpty, effect_bufs] using hq
    · simpa [OpState.mark] using h.quiet.2
  case memory =>
    intro u y
    rw [← h.memory u y]
    exact effect_view
  case executed =>
    have hmark := h.executed_mark t
    simpa only [OpState.mark, effect_consumed] using hmark
  case bound =>
    intro u
    by_cases hu : u = t
    · subst hu
      rw [Function.update_self]
      exact hlt
    · rw [Function.update_of_ne hu]
      exact h.bound u
  case done =>
    intro u j hj
    rcases lt_update hj with hj | ⟨rfl, rfl⟩
    · exact (h.done u j hj).mark effect_consumed
    · apply mark_taken
      rw [effect_consumed, hW u]
      exact hlt
  case started =>
    intro u j htk
    apply effect_spawned_mono
    rcases taken_mark effect_consumed htk with htk | ⟨rfl, rfl⟩
    · exact h.started u j htk
    · exact hs
  case reads =>
    intro u j k hk hkj htk
    exact h.reads u j k (hback u k hk) hkj (hold u j (hk.trans hkj) htk)
  case early =>
    intro u j y hj htk hy
    have htk' := hold u j hj htk
    have hne := hextra u j (hback u j hj) htk'
    obtain ⟨hfound, hheld⟩ := h.early u j y (hback u j hj) htk' hy
    have hheld' : ((effect W true t (p t) ev).mark t (p t)).held.get u = W.held.get u := effect_held_other hne
    rw [hobs, hheld']
    refine ⟨?_, hheld⟩
    -- the location is not written, since the other thread holds the lock
    have hw : ev.writes ≠ some y := by
      intro hw
      obtain ⟨e, he, hre⟩ := Option.bind_eq_some_iff.mp hy
      have hc : Contested threads y := ⟨t, u, Ne.symm hne, mem_written hev hw, mem_touched he (.inl hre)⟩
      exact hne (h.settles.exclusive _ _ _ (hheld hc) (hlock y hw hc))
    rw [hfound, if_neg hw]
  case agree =>
    intro u j y hj hy
    rw [hobs, hobs]
    rcases lt_update hj with hj | ⟨rfl, rfl⟩
    · exact h.agree u j y hj hy
    · rw [hreads] at hy
      exact absurd hy (by simp)
  case observedS =>
    intro k v hk
    rw [hobs] at hk
    obtain ⟨u, j, y, hj, hy, heq⟩ := h.observedS k v hk
    exact ⟨u, j, y, update_le u hj, hy, heq⟩
  case observedW =>
    intro k v hk
    rw [hobs] at hk
    obtain ⟨u, j, y, hj, hy, heq⟩ := h.observedW k v hk
    exact ⟨u, j, y, hj.mark effect_consumed, hy, heq⟩
  case sortedS =>
    rw [hobs]
    exact h.sortedS
  case sortedW =>
    rw [hobs]
    exact h.sortedW

theorem Follows.step {act : Act threads.length} {W' : OpState threads.length} (hdisc : Disciplined threads lock)
    (h : Follows lock mem p S W) (hS : Reachable threads false S) (hW : Reachable threads true W)
    (hmove : Move true W act W') : ∃ S' mem' p', Moves false S S' ∧ Follows lock mem' p' S' W' := by
  cases hmove with
  | flush _ hb => exact ⟨S, mem, p, .refl, { h with settles := h.settles.flush hb }⟩
  | observe _ hp hd hblocked => exact ⟨S, mem, p, .refl, { h with settles := h.settles.observe hp hd hblocked }⟩
  | @exec _ t i ev label hs ht hev hperform =>
    have hmove : Move true W (.exec t i) _ := .exec hs ht hev hperform
    obtain ⟨hready, rfl⟩ := perform_iff.mp ⟨_, hperform⟩
    have hlock (x : String) (ha : Event.Accesses ev x) (hc : Contested threads x) : lock x ∈ W.held.get t :=
      hdisc W _ t i ev x hW hmove hev ha hc
    cases hr : ev.reads with
    | some x => exact ⟨S, mem, p, .refl, h.exec_read hW.shaped hs ht hev hr (hlock x (.inl hr))⟩
    | none =>
      obtain ⟨p₁, S₁, hmoves, h₁, hcaught⟩ := h.catchUp hS.shaped
      obtain ⟨S', mem', p', hmoves', h'⟩ := h₁.exec_other (hS.moves hmoves).shaped hW.shaped hcaught hs ht hev hr
        hready fun x hw => hlock x (.inr hw)
      exact ⟨S', mem', p', hmoves.trans hmoves', h'⟩

end Weak

end Advance

/-! ## Runs -/

section Runs

variable {lock : String → String} {W : OpState threads.length}

theorem settles_initial (t₀ : Fin threads.length) : Settles lock (fun _ => 0) (initial threads) := by
  refine ⟨fun q hq => absurd hq List.not_mem_nil, fun l t u hl => ?_, fun x => ⟨t₀, ?_⟩⟩
  · simp [initial] at hl
  · have hbuf (u : Fin threads.length) : buf (initial threads) u x = [] := bufsEmpty_buf (quiet_initial.1 u) x
    refine ⟨fun u _ => hbuf u, fun q hq => absurd hq List.not_mem_nil, fun hin => ?_, fun u => ?_⟩
    · rcases hin with hin | ⟨q, hq, _⟩
      · exact absurd (hbuf t₀) hin
      · exact absurd hq List.not_mem_nil
    · rw [hbuf]
      simp [undelivered, initial, view, SortedMap.get]

theorem follows_initial (t₀ : Fin threads.length) :
    Follows lock (fun _ => 0) (fun _ => 0) (initial threads) (initial threads) where
  settles := settles_initial t₀
  held := rfl
  spawned := rfl
  quiet := quiet_initial
  memory _ _ := by simp [initial, view, SortedMap.get]
  executed t j hj := by
    rw [initial, List.Vector.get_ofFn, List.getElem?_replicate, if_pos hj]
    rfl
  bound _ := Nat.zero_le _
  done _ j hj := absurd hj (Nat.not_lt_zero j)
  started _ _ htk := absurd htk not_taken_initial
  reads _ _ _ _ _ htk := absurd htk not_taken_initial
  early _ _ _ _ htk := absurd htk not_taken_initial
  agree _ j _ hj := absurd hj (Nat.not_lt_zero j)
  observedS _ _ hk := absurd hk (by simp [initial, SortedMap.get])
  observedW _ _ hk := absurd hk (by simp [initial, SortedMap.get])
  sortedS := List.Pairwise.nil
  sortedW := List.Pairwise.nil

theorem exists_follows (hdisc : Disciplined threads lock) (t₀ : Fin threads.length) (h : Reachable threads true W) :
    ∃ S mem p, Reachable threads false S ∧ Follows lock mem p S W := by
  induction h with
  | init => exact ⟨_, _, _, .init, follows_initial t₀⟩
  | step hW hmove ih =>
    obtain ⟨S, mem, p, hS, hfollows⟩ := ih
    obtain ⟨S', mem', p', hmoves, hfollows'⟩ := hfollows.step hdisc hS hW hmove
    exact ⟨S', mem', p', hS.moves hmoves, hfollows'⟩

theorem Follows.terminal {mem : String → Nat} {p : Fin threads.length → Nat} {S : OpState threads.length}
    {obs : SortedMap Nat Nat} (h : Follows lock mem p S W) (hS : Reachable threads false S)
    (hW : Reachable threads true W) (hobs : terminal W = some obs) : Observes threads false obs := by
  obtain ⟨⟨hc, _, _⟩, rfl⟩ := terminal_eq_some.mp hobs
  obtain ⟨p', S', hmoves, h', hcaught⟩ := h.catchUp hS.shaped
  have hS' := hS.moves hmoves
  have hfinished (t : Fin threads.length) := h'.finished hS'.shaped hW.shaped hcaught
    (List.all_eq_true.mpr fun c hmem => hc t c hmem)
  refine ⟨S', hS', terminal_eq_some.mpr ⟨⟨fun t c hmem => ?_, h'.quiet.1, h'.quiet.2⟩, ?_⟩⟩
  · exact List.all_eq_true.mp (hfinished t).2 c hmem
  · apply h'.sortedS.ext h'.sortedW
    intro k
    -- every read has its turn
    have hread (t : Fin threads.length) (j : Nat) (x : String)
        (hx : (threads.get t).events[j]?.bind Event.reads = some x) :
        S'.obs.get (readId threads t j) = W.obs.get (readId threads t j) := by
      refine h'.agree t j x ?_ hx
      obtain ⟨e, he, _⟩ := Option.bind_eq_some_iff.mp hx
      rw [(hfinished t).1]
      exact (List.getElem?_eq_some_iff.mp he).1
    cases hk : W.obs.get k with
    | some v =>
      obtain ⟨t, j, x, _, hx, rfl⟩ := h'.observedW k v hk
      rw [hread t j x hx, hk]
    | none =>
      rw [Option.eq_none_iff_forall_ne_some]
      intro v hv
      obtain ⟨t, j, x, _, hx, rfl⟩ := h'.observedS k v hv
      rw [hread t j x hx, hk] at hv
      exact absurd hv (by simp)

theorem observes_sequential (hdisc : Disciplined threads lock) {obs : SortedMap Nat Nat}
    (h : Observes threads true obs) : Observes threads false obs := by
  obtain ⟨W, hW, hobs⟩ := h
  by_cases hn : threads.length = 0
  · -- without threads there are no steps
    have hinit : W = initial threads := by
      cases hW with
      | init => rfl
      | step _ hmove =>
        cases hmove with
        | @flush t => exact absurd t.2 (by omega)
        | @observe _ _ u => exact absurd u.2 (by omega)
        | @exec _ t => exact absurd t.2 (by omega)
    exact ⟨initial threads, .init, hinit ▸ hobs⟩
  · obtain ⟨S, mem, p, hS, hfollows⟩ := exists_follows hdisc ⟨0, Nat.pos_of_ne_zero hn⟩ hW
    exact hfollows.terminal hS hW hobs

end Runs

/-! ## The text of a program that locks -/

theorem disciplined_of_text {lock : String → String}
    (h : ∀ (t : Fin threads.length) (i : Nat) (ev : Event) (x : String), (threads.get t).events[i]? = some ev →
      Event.Accesses ev x → Contested threads x → lock x ∈ heldAt (threads.get t).events i) :
    Disciplined threads lock := by
  intro st st' t i ev x hst hmove hev ha hc
  obtain ⟨_, _, ht, _, _, _⟩ := hmove.of_exec
  obtain ⟨k, hk⟩ := hst.turn t
  rw [(hk.held_eq hst.shaped ht hev).2]
  exact h t i ev x hev ha hc

/-! ## The search -/

/-- With a budget that is large enough, the search in the weak model finds all that is observed sequentially
unless a thread that writes is alone, and nothing else if the program locks. -/
theorem opReachable_lock_robust (threads : List Thread) (lock : String → String) :
    ∃ B, ∀ budget, B ≤ budget → ∀ obs,
      (Accompanied threads → obs ∈ (opReachable threads false budget).map Prod.fst →
        obs ∈ (opReachable threads true budget).map Prod.fst) ∧
      (Disciplined threads lock → obs ∈ (opReachable threads true budget).map Prod.fst →
        obs ∈ (opReachable threads false budget).map Prod.fst) := by
  obtain ⟨B, hB⟩ := opReachable_unlimited threads false
  obtain ⟨B', hB'⟩ := opReachable_unlimited threads true
  refine ⟨max B B', fun budget hle obs => ?_⟩
  rw [hB budget ((le_max_left B B').trans hle) obs, hB' budget ((le_max_right B B').trans hle) obs]
  exact ⟨fun hn => observes_weak hn, fun hdisc => observes_sequential hdisc⟩

def lockedPair : List Thread :=
  [⟨"a", [.acquire "l", .write "x", .release "l"]⟩, ⟨"b", [.acquire "l", .read "x", .release "l"]⟩]

theorem lockedPair_disciplined : Disciplined lockedPair fun _ => "l" := by
  have htext : ∀ t : Fin lockedPair.length, ∀ i < (lockedPair.get t).events.length,
      ((lockedPair.get t).events[i]?.any fun e => e.reads.isSome || e.writes.isSome) = true →
        "l" ∈ heldAt (lockedPair.get t).events i := by decide
  apply disciplined_of_text
  intro t i ev x hev ha _
  refine htext t i (List.getElem?_eq_some_iff.mp hev).1 ?_
  rw [hev]
  rcases ha with h | h <;> simp [h]

/-- The two models agree on the pair. -/
theorem opReachable_lock_robust_pair : ∃ B, ∀ budget, B ≤ budget → ∀ obs,
    obs ∈ (opReachable lockedPair false budget).map Prod.fst ↔
      obs ∈ (opReachable lockedPair true budget).map Prod.fst := by
  obtain ⟨B, hB⟩ := opReachable_lock_robust lockedPair fun _ => "l"
  refine ⟨B, fun budget hle obs => ?_⟩
  obtain ⟨hweak, hsc⟩ := hB budget hle obs
  exact ⟨hweak fun _ => by decide, hsc lockedPair_disciplined⟩

theorem Reachable.mem_closed {weak : Bool} {st : OpState threads.length} {R : List (OpState threads.length)}
    (h : Reachable threads weak st) (hinit : initial threads ∈ R)
    (hclosed : ∀ s ∈ R, ∀ e ∈ successors s weak, e.2 ∈ R) : st ∈ R := by
  induction h with
  | init => exact hinit
  | step _ hmove ih =>
    obtain ⟨l, hl⟩ := mem_successors.mpr ⟨_, hmove⟩
    exact hclosed _ ih _ hl

def lonely : List Thread := [⟨"a", [.write "x"]⟩]

/-- The states of its weak runs: the write is buffered and flushed, and then nothing happens. -/
def lonelyStates : List (OpState lonely.length) :=
  let s₁ : OpState lonely.length := { initial lonely with
    consumed := ⟨[[true]], rfl⟩
    bufs := ⟨[[("x", [1])]], rfl⟩ }
  [initial lonely, s₁, s₁.flushed ⟨0, by decide⟩ "x" 1]

/-- The write of a thread that is alone never arrives. -/
theorem opReachable_lonely : ¬ ∀ threads : List Thread, ∃ B, ∀ budget, B ≤ budget → ∀ obs,
    obs ∈ (opReachable threads false budget).map Prod.fst →
      obs ∈ (opReachable threads true budget).map Prod.fst := by
  intro h
  obtain ⟨B, hB⟩ := h lonely
  obtain ⟨B₁, hB₁⟩ := opReachable_unlimited lonely false
  obtain ⟨B₂, hB₂⟩ := opReachable_unlimited lonely true
  have hmem := hB (B + B₁ + B₂) (by omega) []
  rw [hB₁ _ (by omega), hB₂ _ (by omega)] at hmem
  have hsc : Observes lonely false [] := by
    have hfound : ([], [(⟨0, by decide⟩, "write x")]) ∈ opReachable lonely false 3 := by decide +kernel
    obtain ⟨st, hwalk, hobs⟩ := opReachable_sound hfound
    exact ⟨st, Walk.reachable hwalk, hobs⟩
  obtain ⟨st, hst, hobs⟩ := hmem hsc
  have hstates := hst.mem_closed (R := lonelyStates) (by decide +kernel) (by decide +kernel)
  have hnone : ∀ s ∈ lonelyStates, terminal s = none := by decide +kernel
  exact absurd (hnone st hstates ▸ hobs) (by simp)

end Weakmem

end Interleave

end Csolver
