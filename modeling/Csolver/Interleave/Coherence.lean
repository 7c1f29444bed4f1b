import Csolver.Interleave.Contains

/-!
# One order of the writes to a location

The writes to a location are ordered by their flushes. If every view takes them in this order, and a thread
takes its reads of a location in program order, then a thread that has seen a write sees no earlier one, and
in the end all views agree. The model asks for neither: a write may reach a view before a write of another
thread that was flushed first, and a read may be taken before any earlier read.
-/

namespace Csolver

open Lib

namespace Interleave

namespace Weakmem

variable {threads : List Thread}

/-! ## Positions -/

section Pos

variable {l : List Nat} {a b v : Nat}

/-- Where a write comes: first those that are flushed, then the others, the initial value before all. -/
def pos (l : List Nat) (a : Nat) : Nat := if a = 0 then 0 else if a ∈ l then l.idxOf a + 1 else l.length + a

theorem pos_zero : pos l 0 = 0 := rfl

theorem pos_mem (h : a ∈ l) (hne : a ≠ 0) : pos l a = l.idxOf a + 1 := by rw [pos, if_neg hne, if_pos h]

theorem pos_not_mem (h : a ∉ l) (hne : a ≠ 0) : pos l a = l.length + a := by rw [pos, if_neg hne, if_neg h]

theorem pos_le_length (h : a ∈ l) : pos l a ≤ l.length := by
  by_cases hne : a = 0
  · rw [hne, pos_zero]
    exact Nat.zero_le _
  · rw [pos_mem h hne]
    exact List.idxOf_lt_length_iff.mpr h

theorem pos_pos (hne : a ≠ 0) : 0 < pos l a := by
  by_cases h : a ∈ l
  · rw [pos_mem h hne]
    exact Nat.succ_pos _
  · rw [pos_not_mem h hne]
    omega

theorem pos_inj (ha : a ≠ 0) (hb : b ≠ 0) (h : pos l a = pos l b) : a = b := by
  by_cases hal : a ∈ l <;> by_cases hbl : b ∈ l
  · rw [pos_mem hal ha, pos_mem hbl hb] at h
    exact (List.idxOf_inj hal).mp (Nat.succ.inj h)
  · have := pos_le_length hal
    rw [h, pos_not_mem hbl hb] at this
    omega
  · have := pos_le_length hbl
    rw [← h, pos_not_mem hal ha] at this
    omega
  · rw [pos_not_mem hal ha, pos_not_mem hbl hb] at h
    omega

theorem pos_append (hv : v ∉ l) (hv0 : v ≠ 0) (hle : pos l a ≤ pos l b)
    (hb : b = v → a = 0 ∨ a ∈ l ∨ a = v) : pos (l ++ [v]) a ≤ pos (l ++ [v]) b := by
  have hmem {c : Nat} (hc : c ∈ l) : pos (l ++ [v]) c = pos l c := by
    by_cases hne : c = 0
    · rw [hne, pos_zero, pos_zero]
    · rw [pos_mem hc hne, pos_mem (List.mem_append_left _ hc) hne, List.idxOf_append_of_mem hc]
  have hself : pos (l ++ [v]) v = l.length + 1 := by
    rw [pos_mem (by simp) hv0, List.idxOf_append_of_notMem hv]
    simp
  have hlater {c : Nat} (hc : c ∉ l) (hcv : c ≠ v) (hne : c ≠ 0) : pos (l ++ [v]) c = l.length + 1 + c := by
    rw [pos_not_mem (by simp [hc, hcv]) hne]
    simp
  by_cases ha0 : a = 0
  · rw [ha0, pos_zero]
    exact Nat.zero_le _
  have hapos := pos_pos (l := l) ha0
  have hb0 : b ≠ 0 := by
    rintro rfl
    rw [pos_zero] at hle
    omega
  by_cases hbv : b = v
  · rcases hb hbv with h | h | rfl
    · exact absurd h ha0
    · rw [hmem h, hbv, hself]
      exact (pos_le_length h).trans (Nat.le_succ _)
    · rw [hbv]
  by_cases hal : a ∈ l
  · rw [hmem hal]
    by_cases hbl : b ∈ l
    · rw [hmem hbl]
      exact hle
    · rw [hlater hbl hbv hb0]
      have := pos_le_length hal
      omega
  · -- what is not flushed comes after all that is
    rw [pos_not_mem hal ha0] at hle
    have hbl : b ∉ l := by
      intro hbl
      have := pos_le_length hbl
      omega
    rw [pos_not_mem hbl hb0] at hle
    rw [hlater hbl hbv hb0]
    by_cases hav : a = v
    · rw [hav, hself]
      omega
    · rw [hlater hal hav ha0]
      omega

end Pos

/-! ## The values of accesses -/

section Values

variable (st : OpState threads.length) (t : Fin threads.length) (i : Nat) (x : String)

variable (threads) in
def ReadsAt : Prop := (threads.get t).events[i]?.bind Event.reads = some x

variable (threads) in
def WritesAt : Prop := (threads.get t).events[i]?.bind Event.writes = some x

/-- The read was executed and found the value. -/
def Found (a : Nat) : Prop := Taken st t i ∧ ReadsAt threads t i x ∧ st.obs.get (readId threads t i) = some a

def Wrote : Prop := Taken st t i ∧ WritesAt threads t i x

/-- What an executed access of the thread has seen. -/
def Saw (a : Nat) : Prop := Found st t i x a ∨ Wrote st t i x ∧ a = writeTag threads t i

/-- There is an order of the writes to the location such that no thread sees a write that comes before one
it has seen, and in the end all views agree. -/
def Coherent : Prop :=
  (∃ order : Nat → Nat, order 0 = 0 ∧
    (∀ t i, WritesAt threads t i x → 0 < order (writeTag threads t i)) ∧
    (∀ t i u j, WritesAt threads t i x → WritesAt threads u j x →
      order (writeTag threads t i) = order (writeTag threads u j) → t = u ∧ i = j) ∧
    ∀ t i j a b, i < j → Saw st t i x a → Found st t j x b → order a ≤ order b) ∧
  ((terminal st).isSome = true → ∀ t u, view st t x = view st u x)

end Values

/-! ## Runs in order -/

/-- A write enters a view only after the writes to the location that were flushed before it, and a read is
taken only after the reads of the location that come before it. -/
def Orderly (st : OpState threads.length) : Act threads.length → Prop
  | .flush t x _ => undelivered st t x = []
  | .observe p u => (undelivered st u p.loc).head? = some p.tag
  | .exec t i => ∀ x j, ReadsAt threads t i x → j < i → ReadsAt threads t j x → Taken st t j

variable (threads) in
/-- The states that a run reaches whose steps all meet the condition. -/
inductive ReachableBy (C : OpState threads.length → Act threads.length → Prop) : OpState threads.length → Prop
  | init : ReachableBy C (initial threads)
  | step {st st' : OpState threads.length} {act : Act threads.length} : ReachableBy C st → C st act →
      Move true st act st' → ReachableBy C st'

theorem ReachableBy.reachable {C : OpState threads.length → Act threads.length → Prop}
    {st : OpState threads.length} (h : ReachableBy threads C st) : Reachable threads true st := by
  induction h with
  | init => exact .init
  | step _ _ hmove ih => exact .step ih hmove

/-! ## The invariant -/

/-- The value is the initial one, was flushed, or waits in the buffer of the thread. -/
def Known (F : String → List Nat) (st : OpState threads.length) (t : Fin threads.length) (x : String) (a : Nat) :
    Prop := a = 0 ∨ a ∈ F x ∨ a ∈ buf st t x

/-- `F` lists the writes to each location in the order of their flushes. -/
structure Ordered (F : String → List Nat) (st : OpState threads.length) : Prop where
  flushed : ∀ x a, a ∈ F x → ∃ t i, Wrote st t i x ∧ a = writeTag threads t i
  nodup : ∀ x, (F x).Nodup
  buffered : ∀ t x a, a ∈ buf st t x → a ∉ F x ∧ ∃ i, Wrote st t i x ∧ a = writeTag threads t i
  kept : ∀ t i x, Wrote st t i x → writeTag threads t i ∈ F x ∨ writeTag threads t i ∈ buf st t x
  sorted : ∀ t x, (buf st t x).Pairwise (· < ·)
  skipped : ∀ t i j, i < j → Taken st t j →
    Taken st t i ∨ (∃ x, ReadsAt threads t i x) ∧ ∀ x, ReadsAt threads t j x → ¬ ReadsAt threads t i x
  viewed : ∀ u x, ∃ pre, F x = pre ++ undelivered st u x ∧ view st u x = pre.getLastD 0
  known : ∀ t i x a, Saw st t i x a → Known F st t x a
  recent : ∀ t i x a, Saw st t i x a → pos (F x) a ≤ pos (F x) (opRead st t x)
  coherent : ∀ t i j x a b, i < j → Saw st t i x a → Found st t j x b → pos (F x) a ≤ pos (F x) b

section Invariant

variable {F : String → List Nat} {st : OpState threads.length} {t u : Fin threads.length} {i : Nat} {x : String}

theorem getLastD_mem {l : List Nat} : l.getLastD 0 = 0 ∨ l.getLastD 0 ∈ l := by
  cases l with
  | nil => exact .inl rfl
  | cons a l =>
    right
    rw [List.getLastD_cons]
    exact List.getLastD_mem_cons

theorem Ordered.known_opRead (h : Ordered F st) : Known F st t x (opRead st t x) := by
  rw [opRead_eq]
  cases hlast : (buf st t x).getLast? with
  | some v => exact .inr (.inr (List.mem_of_getLast? hlast))
  | none =>
    obtain ⟨pre, hF, hview⟩ := h.viewed t x
    rw [Option.getD_none, hview]
    rcases getLastD_mem (l := pre) with heq | hmem
    · exact .inl heq
    · exact .inr (.inl (hF ▸ List.mem_append_left _ hmem))

theorem writeTag_ne_zero : writeTag threads t i ≠ 0 := Nat.succ_ne_zero _

theorem Ordered.buf_inj (h : Ordered F st) {a : Nat} (ht : a ∈ buf st t x) (hu : a ∈ buf st u x) : t = u := by
  obtain ⟨_, i, ⟨_, hi⟩, rfl⟩ := h.buffered t x a ht
  obtain ⟨_, j, ⟨_, hj⟩, heq⟩ := h.buffered u x _ hu
  obtain ⟨e, he, hwe⟩ := Option.bind_eq_some_iff.mp hi
  obtain ⟨f, hf, hwf⟩ := Option.bind_eq_some_iff.mp hj
  exact (writeTag_inj he hf (by simp [hwe]) (by simp [hwf]) heq).1

theorem Ordered.buf_ne_zero (h : Ordered F st) {a : Nat} (ha : a ∈ buf st t x) : a ≠ 0 := by
  obtain ⟨_, i, _, rfl⟩ := h.buffered t x a ha
  exact writeTag_ne_zero

/-! ### A flush -/

theorem Ordered.pos_flush (h : Ordered F st) {v : Nat} {b : List Nat} (hbuf : buf st t x = v :: b) {a c : Nat}
    (ha : Known F st u x a) (hc : Known F st u x c) (hle : pos (F x) a ≤ pos (F x) c) :
    pos (F x ++ [v]) a ≤ pos (F x ++ [v]) c := by
  have hv : v ∈ buf st t x := by simp [hbuf]
  have hvF := (h.buffered t x v hv).1
  have hv0 := h.buf_ne_zero hv
  refine pos_append hvF hv0 hle fun hcv => ?_
  subst hcv
  rcases ha with h0 | hF | hb
  · exact .inl h0
  · exact .inr (.inl hF)
  · -- the thread has the write in its own buffer, and it is the first one there
    have hcb : c ∈ buf st u x := (hc.resolve_left hv0).resolve_left hvF
    obtain rfl := h.buf_inj hv hcb
    have hle' : a ≤ c := by
      rw [pos_not_mem (h.buffered t x a hb).1 (h.buf_ne_zero hb), pos_not_mem hvF hv0] at hle
      omega
    have hsorted := h.sorted t x
    rw [hbuf] at hsorted hb
    rcases List.mem_cons.mp hb with heq | hb
    · exact .inr (.inr heq)
    · have := (List.pairwise_cons.mp hsorted).1 a hb
      omega

theorem Ordered.flush {v : Nat} {b : List Nat} (h : Ordered F st) (hb : (st.bufs.get t).get x = some (v :: b))
    (hord : undelivered st t x = []) :
    Ordered (Function.update F x (F x ++ [v])) (st.flushed t x v) := by
  have hbuf : buf st t x = v :: b := by rw [buf, hb]; rfl
  have hvF := (h.buffered t x v (by simp [hbuf])).1
  have hsaw {u : Fin threads.length} {i : Nat} {y : String} {a : Nat} (hs : Saw (st.flushed t x v) u i y a) :
      Saw st u i y a := hs
  have hmem (y : String) (a : Nat) (ha : a ∈ F y) : a ∈ Function.update F x (F x ++ [v]) y := by
    by_cases hy : y = x
    · subst hy
      rw [Function.update_self]
      exact List.mem_append_left _ ha
    · rwa [Function.update_of_ne hy]
  have hread (u : Fin threads.length) (y : String) : opRead (st.flushed t x v) u y = opRead st u y := by
    rw [opRead_eq, opRead_eq, flushed_buf hb, flushed_view]
    by_cases hself : u = t ∧ y = x
    · obtain ⟨rfl, rfl⟩ := hself
      rw [if_pos ⟨rfl, rfl⟩, if_pos ⟨rfl, rfl⟩, hbuf, List.getLast?_cons]
      cases b.getLast? <;> rfl
    · rw [if_neg hself, if_neg hself]
  have hpos (u : Fin threads.length) (y : String) (a c : Nat) (ha : Known F st u y a) (hc : Known F st u y c)
      (hle : pos (F y) a ≤ pos (F y) c) : pos (Function.update F x (F x ++ [v]) y) a ≤
        pos (Function.update F x (F x ++ [v]) y) c := by
    by_cases hy : y = x
    · subst hy
      rw [Function.update_self]
      exact h.pos_flush hbuf ha hc hle
    · rwa [Function.update_of_ne hy]
  constructor
  case flushed =>
    intro y a ha
    by_cases hy : y = x
    · subst hy
      rw [Function.update_self] at ha
      rcases List.mem_append.mp ha with ha | ha
      · exact h.flushed y a ha
      · obtain ⟨_, i, hw, heq⟩ := h.buffered t y v (by simp [hbuf])
        exact ⟨t, i, hw, (List.mem_singleton.mp ha).trans heq⟩
    · rw [Function.update_of_ne hy] at ha
      exact h.flushed y a ha
  case nodup =>
    intro y
    by_cases hy : y = x
    · subst hy
      rw [Function.update_self]
      apply (h.nodup y).append (List.nodup_singleton v)
      simpa using hvF
    · rw [Function.update_of_ne hy]
      exact h.nodup y
  case buffered =>
    intro u y a ha
    rw [flushed_buf hb] at ha
    by_cases hy : y = x
    · subst hy
      rw [Function.update_self]
      by_cases hu : u = t
      · subst hu
        rw [if_pos ⟨rfl, rfl⟩] at ha
        obtain ⟨haF, hw⟩ := h.buffered u y a (by simp [hbuf, ha])
        have hsorted := h.sorted u y
        rw [hbuf] at hsorted
        have hlt := (List.pairwise_cons.mp hsorted).1 a ha
        refine ⟨?_, hw⟩
        simp [haF]
        omega
      · rw [if_neg fun hc => hu hc.1] at ha
        obtain ⟨haF, hw⟩ := h.buffered u y a ha
        refine ⟨?_, hw⟩
        have hne : a ≠ v := by
          rintro rfl
          exact hu (h.buf_inj ha (by simp [hbuf]))
        simp [haF, hne]
    · rw [if_neg fun hc => hy hc.2] at ha
      rw [Function.update_of_ne hy]
      exact h.buffered u y a ha
  case kept =>
    intro u i y hw
    rcases h.kept u i y hw with hF | hB
    · exact .inl (hmem y _ hF)
    · rw [flushed_buf hb]
      by_cases hself : u = t ∧ y = x
      · obtain ⟨rfl, rfl⟩ := hself
        rw [if_pos ⟨rfl, rfl⟩, Function.update_self]
        rw [hbuf] at hB
        rcases List.mem_cons.mp hB with heq | hB
        · exact .inl (by simp [heq])
        · exact .inr hB
      · rw [if_neg hself]
        exact .inr hB
  case sorted =>
    intro u y
    rw [flushed_buf hb]
    by_cases hself : u = t ∧ y = x
    · obtain ⟨rfl, rfl⟩ := hself
      have hsorted := h.sorted u y
      rw [hbuf] at hsorted
      rw [if_pos ⟨rfl, rfl⟩]
      exact (List.pairwise_cons.mp hsorted).2
    · rw [if_neg hself]
      exact h.sorted u y
  case skipped => exact h.skipped
  case viewed =>
    intro u y
    obtain ⟨pre, hF, hview⟩ := h.viewed u y
    rw [flushed_undelivered, flushed_view]
    by_cases hy : y = x
    · subst hy
      rw [Function.update_self]
      by_cases hu : u = t
      · subst hu
        rw [hord, List.append_nil] at hF
        refine ⟨pre ++ [v], ?_, ?_⟩
        · simp [hF, hord]
        · simp
      · refine ⟨pre, ?_, ?_⟩
        · simp [hu, hF]
        · simp [hu, hview]
    · rw [Function.update_of_ne hy]
      refine ⟨pre, ?_, ?_⟩
      · simp [hy, hF]
      · simp [hy, hview]
  case known =>
    intro u i y a hs
    rcases h.known u i y a (hsaw hs) with h0 | hF | hB
    · exact .inl h0
    · exact .inr (.inl (hmem y a hF))
    · rw [Known, flushed_buf hb]
      by_cases hself : u = t ∧ y = x
      · obtain ⟨rfl, rfl⟩ := hself
        rw [if_pos ⟨rfl, rfl⟩, Function.update_self]
        rw [hbuf] at hB
        rcases List.mem_cons.mp hB with heq | hB
        · exact .inr (.inl (by simp [heq]))
        · exact .inr (.inr hB)
      · rw [if_neg hself]
        exact .inr (.inr hB)
  case recent =>
    intro u i y a hs
    rw [hread]
    exact hpos u y a _ (h.known u i y a (hsaw hs)) h.known_opRead (h.recent u i y a (hsaw hs))
  case coherent =>
    intro u i j y a c hij hs hf
    exact hpos u y a c (h.known u i y a (hsaw hs)) (h.known u j y c (.inl hf)) (h.coherent u i j y a c hij hs hf)

/-! ### A propagation -/

theorem Ordered.observe {pi : Nat} {p : Pending threads.length} (h : Ordered F st)
    (hp : st.pending[pi]? = some p) (hd : p.delivered.get u = false)
    (hord : (undelivered st u p.loc).head? = some p.tag) : Ordered F (st.observed pi p u) := by
  obtain ⟨pre, hF, hview⟩ := h.viewed u p.loc
  have hnodup : (undelivered st u p.loc).Nodup := by
    have := h.nodup p.loc
    rw [hF] at this
    exact this.of_append_right
  -- an earlier write that is owed to the view would be the first one
  have hfirst : ∀ q ∈ st.pending.take pi, owed u p.loc q = false := by
    intro q hq
    by_contra howed
    obtain ⟨post, hsplit, _⟩ := pending_split (u := u) hp
    have hmem : q ∈ (st.pending.take pi).filter (owed u p.loc) := List.mem_filter.mpr ⟨hq, by simpa using howed⟩
    have hself : owed u p.loc p = true := by simp [owed, hd]
    rw [undelivered, hsplit, List.filter_append, List.filter_cons_of_pos hself, List.map_append,
      List.map_cons] at hnodup hord
    obtain ⟨r, rs, hcons⟩ := List.exists_cons_of_ne_nil (List.ne_nil_of_mem hmem)
    rw [hcons] at hnodup hord
    have hhead : r.tag = p.tag := by simpa using hord
    simp [hhead] at hnodup
  have hund := observed_undelivered_self hp hd hfirst
  have hother (w : Fin threads.length) (y : String) (hne : ¬ (w = u ∧ y = p.loc)) :
      undelivered (st.observed pi p u) w y = undelivered st w y ∧
        view (st.observed pi p u) w y = view st w y := by
    refine ⟨observed_undelivered hp hne, ?_⟩
    rw [observed_view, if_neg hne]
  have htag : p.tag ≠ 0 := by
    obtain ⟨t, i, _, heq⟩ := h.flushed p.loc p.tag (by rw [hF, hund]; simp)
    rw [heq]
    exact writeTag_ne_zero
  -- the view goes on to a later write
  have hgrow : pos (F p.loc) (pre.getLastD 0) ≤ pos (F p.loc) p.tag := by
    have hn := h.nodup p.loc
    rw [hF, hund] at hn ⊢
    have hnot : p.tag ∉ pre := by
      intro hmem
      exact (List.nodup_append.mp hn).2.2 _ hmem _ (List.mem_cons_self) rfl
    rw [pos_mem (a := p.tag) (by simp) htag, List.idxOf_append_of_notMem hnot]
    rcases getLastD_mem (l := pre) with heq | hmem
    · rw [heq, pos_zero]
      exact Nat.zero_le _
    · by_cases h0 : pre.getLastD 0 = 0
      · rw [h0, pos_zero]
        exact Nat.zero_le _
      · rw [pos_mem (List.mem_append_left _ hmem) h0, List.idxOf_append_of_mem hmem]
        have := List.idxOf_lt_length_iff.mpr hmem
        omega
  have hread (w : Fin threads.length) (y : String) :
      pos (F y) (opRead st w y) ≤ pos (F y) (opRead (st.observed pi p u) w y) := by
    rw [opRead_eq, opRead_eq, observed_buf]
    cases (buf st w y).getLast? with
    | some v => exact le_rfl
    | none =>
      by_cases hself : w = u ∧ y = p.loc
      · obtain ⟨rfl, rfl⟩ := hself
        rw [Option.getD_none, Option.getD_none, hview, observed_view, if_pos ⟨rfl, rfl⟩]
        exact hgrow
      · rw [(hother w y hself).2]
  constructor
  case flushed => exact h.flushed
  case nodup => exact h.nodup
  case buffered => exact h.buffered
  case kept => exact h.kept
  case sorted => exact h.sorted
  case skipped => exact h.skipped
  case viewed =>
    intro w y
    by_cases hself : w = u ∧ y = p.loc
    · obtain ⟨rfl, rfl⟩ := hself
      refine ⟨pre ++ [p.tag], ?_, ?_⟩
      · rw [hF, hund]
        simp
      · rw [observed_view, if_pos ⟨rfl, rfl⟩]
        simp
    · rw [(hother w y hself).1, (hother w y hself).2]
      exact h.viewed w y
  case known => exact h.known
  case recent =>
    intro w i y a hs
    exact (h.recent w i y a hs).trans (hread w y)
  case coherent => exact h.coherent

/-! ### An event -/

section Event

variable {ev : Event} {j : Nat} {y : String} {a : Nat}

theorem writesAt_iff (hev : (threads.get t).events[i]? = some ev) : WritesAt threads t i y ↔ ev.writes = some y := by
  rw [WritesAt, hev]
  rfl

theorem readsAt_iff (hev : (threads.get t).events[i]? = some ev) : ReadsAt threads t i y ↔ ev.reads = some y :=
  Iff.of_eq (congrArg (· = some y) (bind_reads hev))

theorem reads_of_writes (h : ev.writes = some x) : ev.reads = none := by
  cases ev with
  | write z => rfl
  | rmw z => rfl
  | _ => exact absurd h (by simp [Event.writes])

theorem not_readsAt (hw : WritesAt threads t i x) : ¬ ReadsAt threads t i y := by
  intro hr
  obtain ⟨e, he, hwe⟩ := Option.bind_eq_some_iff.mp hw
  rw [readsAt_iff he, reads_of_writes hwe] at hr
  exact absurd hr (by simp)

theorem effect_opRead : opRead ((effect st true t i ev).mark t i) u y =
    if u = t ∧ ev.writes = some y then writeTag threads t i else opRead st u y := by
  have hbuf : buf ((effect st true t i ev).mark t i) u y = _ := effect_buf
  have hview : view ((effect st true t i ev).mark t i) u y = view st u y := by
    rw [view, view, OpState.mark]
    simp only [effect_views_weak]
  rw [opRead_eq, opRead_eq, hbuf, hview]
  split
  · simp
  · rfl

theorem found_effect (hev : (threads.get t).events[i]? = some ev)
    (h : Found ((effect st true t i ev).mark t i) u j y a) :
    (Found st u j y a ∧ ¬ (u = t ∧ j = i)) ∨ (u = t ∧ j = i) ∧ ReadsAt threads t i y ∧ a = opRead st t y := by
  obtain ⟨htk, hr, hobs⟩ := h
  have hobs' : (effect st true t i ev).obs.get (readId threads u j) = some a := hobs
  rw [effect_obs] at hobs'
  by_cases hself : u = t ∧ j = i
  · obtain ⟨rfl, rfl⟩ := hself
    have hr' := (readsAt_iff hev).mp hr
    simp only [hr', SortedMap.get_insert, if_true] at hobs'
    exact .inr ⟨⟨rfl, rfl⟩, hr, (Option.some.inj hobs').symm⟩
  · have htk' := (taken_mark effect_consumed htk).resolve_right hself
    refine .inl ⟨⟨htk', hr, ?_⟩, hself⟩
    cases hreads : ev.reads with
    | none => simpa [hreads] using hobs'
    | some x =>
      simp only [hreads, SortedMap.get_insert] at hobs'
      rwa [if_neg (readId_ne ((readsAt_iff hev).mpr hreads) hr hself)] at hobs'

theorem wrote_effect (h : Wrote ((effect st true t i ev).mark t i) u j y) :
    Wrote st u j y ∨ (u = t ∧ j = i) ∧ WritesAt threads t i y := by
  obtain ⟨htk, hw⟩ := h
  rcases taken_mark effect_consumed htk with htk | ⟨rfl, rfl⟩
  · exact .inl ⟨htk, hw⟩
  · exact .inr ⟨⟨rfl, rfl⟩, hw⟩

theorem saw_effect (hev : (threads.get t).events[i]? = some ev)
    (h : Saw ((effect st true t i ev).mark t i) u j y a) :
    Saw st u j y a ∨ (u = t ∧ j = i) ∧ (ReadsAt threads t i y ∨ WritesAt threads t i y) ∧
      a = opRead ((effect st true t i ev).mark t i) t y := by
  rcases h with hf | ⟨hw, rfl⟩
  · rcases found_effect hev hf with ⟨hold, _⟩ | ⟨hself, hr, heq⟩
    · exact .inl (.inl hold)
    · refine .inr ⟨hself, .inl hr, ?_⟩
      have hw : ¬ (t = t ∧ ev.writes = some y) := fun hw => not_readsAt ((writesAt_iff hev).mpr hw.2) hr
      rw [effect_opRead, if_neg hw, heq]
  · rcases wrote_effect hw with hold | ⟨⟨rfl, rfl⟩, hw'⟩
    · exact .inl (.inr ⟨hold, rfl⟩)
    · refine .inr ⟨⟨rfl, rfl⟩, .inr hw', ?_⟩
      rw [effect_opRead, if_pos ⟨rfl, (writesAt_iff hev).mp hw'⟩]

variable (h : Ordered F st) (hnot : ¬ Taken st t i) (hev : (threads.get t).events[i]? = some ev)

include h hnot hev

theorem Ordered.fresh (hw : ev.writes = some x) : writeTag threads t i ∉ F x ∧
    ∀ a, a ∈ buf st t x → a < writeTag threads t i := by
  constructor
  · intro hmem
    obtain ⟨u, j, ⟨htk, hj⟩, heq⟩ := h.flushed x _ hmem
    obtain ⟨f, hf, hwf⟩ := Option.bind_eq_some_iff.mp hj
    obtain ⟨rfl, rfl⟩ := writeTag_inj hev hf (by simp [hw]) (by simp [hwf]) heq
    exact hnot htk
  · intro a ha
    obtain ⟨_, j, ⟨htk, hj⟩, rfl⟩ := h.buffered t x a ha
    obtain ⟨f, hf, hwf⟩ := Option.bind_eq_some_iff.mp hj
    rcases lt_trichotomy j i with hlt | rfl | hlt
    · exact writeTag_lt hf hev (by simp [hwf]) hlt
    · exact absurd htk hnot
    · -- only reads are skipped
      rcases h.skipped t i j hlt htk with htk | ⟨⟨z, hz⟩, _⟩
      · exact absurd htk hnot
      · exact absurd hz (not_readsAt ((writesAt_iff hev).mpr hw))

theorem Ordered.recent_effect {k : Nat} (hs : Saw st u k y a) :
    pos (F y) a ≤ pos (F y) (opRead ((effect st true t i ev).mark t i) u y) := by
  rw [effect_opRead]
  split
  · next hself =>
    obtain ⟨rfl, hw⟩ := hself
    obtain ⟨htagF, htag⟩ := h.fresh hnot hev hw
    rw [pos_not_mem htagF writeTag_ne_zero]
    rcases h.known u k y a hs with h0 | hF | hB
    · rw [h0, pos_zero]
      exact Nat.zero_le _
    · exact (pos_le_length hF).trans (Nat.le_add_right _ _)
    · rw [pos_not_mem (h.buffered u y a hB).1 (h.buf_ne_zero hB)]
      exact Nat.add_le_add_left (htag a hB).le _
  · exact h.recent u k y a hs

end Event

theorem Ordered.exec {ev : Event} (h : Ordered F st) (hshaped : Shaped st)
    (ht : takeable (threads.get t).events (st.consumed.get t) i true = true)
    (hev : (threads.get t).events[i]? = some ev)
    (hord : ∀ x j, ReadsAt threads t i x → j < i → ReadsAt threads t j x → Taken st t j) :
    Ordered F ((effect st true t i ev).mark t i) := by
  have hlen := takeable_unconsumed (hshaped t) ht
  have hnot : ¬ Taken st t i := by
    intro htk
    rw [Taken, hlen] at htk
    exact absurd htk (by simp)
  have hmark : Taken ((effect st true t i ev).mark t i) t i := by
    apply mark_taken
    rw [effect_consumed]
    exact (List.getElem?_eq_some_iff.mp hlen).1
  have hbuf (u : Fin threads.length) (y : String) : buf ((effect st true t i ev).mark t i) u y =
      if u = t ∧ ev.writes = some y then buf st u y ++ [writeTag threads t i] else buf st u y := effect_buf
  have hbufmono {u : Fin threads.length} {y : String} {a : Nat} (ha : a ∈ buf st u y) :
      a ∈ buf ((effect st true t i ev).mark t i) u y := by
    rw [hbuf]
    split
    · exact List.mem_append_left _ ha
    · exact ha
  have hwrote {u : Fin threads.length} {j : Nat} {y : String} (hw : Wrote st u j y) :
      Wrote ((effect st true t i ev).mark t i) u j y := ⟨hw.1.mark effect_consumed, hw.2⟩
  constructor
  case flushed =>
    intro y a ha
    obtain ⟨u, j, hw, heq⟩ := h.flushed y a ha
    exact ⟨u, j, hwrote hw, heq⟩
  case nodup => exact h.nodup
  case buffered =>
    intro u y a ha
    rw [hbuf] at ha
    split at ha
    · next hself =>
      obtain ⟨rfl, hw⟩ := hself
      rcases List.mem_append.mp ha with ha | ha
      · obtain ⟨haF, j, hj, heq⟩ := h.buffered u y a ha
        exact ⟨haF, j, hwrote hj, heq⟩
      · rw [List.mem_singleton.mp ha]
        exact ⟨(h.fresh hnot hev hw).1, i, ⟨hmark, (writesAt_iff hev).mpr hw⟩, rfl⟩
    · obtain ⟨haF, j, hj, heq⟩ := h.buffered u y a ha
      exact ⟨haF, j, hwrote hj, heq⟩
  case kept =>
    intro u j y hw
    rcases wrote_effect hw with hold | ⟨⟨rfl, rfl⟩, hw'⟩
    · exact (h.kept u j y hold).imp_right hbufmono
    · right
      rw [hbuf, if_pos ⟨rfl, (writesAt_iff hev).mp hw'⟩]
      simp
  case sorted =>
    intro u y
    rw [hbuf]
    split
    · next hself =>
      obtain ⟨rfl, hw⟩ := hself
      refine List.pairwise_append.mpr ⟨h.sorted u y, List.pairwise_singleton _ _, fun a ha b hb => ?_⟩
      rw [List.mem_singleton.mp hb]
      exact (h.fresh hnot hev hw).2 a ha
    · exact h.sorted u y
  case skipped =>
    intro u k j hkj htk
    have hmono {k : Nat} (htk : Taken st u k) : Taken ((effect st true t i ev).mark t i) u k :=
      htk.mark effect_consumed
    rcases taken_mark effect_consumed htk with htk | ⟨rfl, rfl⟩
    · exact (h.skipped u k j hkj htk).imp_left hmono
    · rcases takeable_earlier hev ht hkj with hc | ⟨hread, _⟩
      · exact .inl (hmono hc)
      · by_cases hsame : ∃ x, ReadsAt threads u j x ∧ ReadsAt threads u k x
        · obtain ⟨x, hj, hk⟩ := hsame
          exact .inl (hmono (hord x k hj hkj hk))
        · exact .inr ⟨hread, fun x hj hk => hsame ⟨x, hj, hk⟩⟩
  case viewed =>
    intro u y
    obtain ⟨pre, hF, hview⟩ := h.viewed u y
    refine ⟨pre, ?_, ?_⟩
    · rw [hF, undelivered, undelivered, OpState.mark]
      simp only [effect_pending]
    · rw [← hview, view, view, OpState.mark]
      simp only [effect_views_weak]
  case known =>
    intro u j y a hs
    have hmono {a : Nat} (hk : Known F st u y a) : Known F ((effect st true t i ev).mark t i) u y a :=
      hk.imp_right (Or.imp_right hbufmono)
    rcases saw_effect hev hs with hold | ⟨⟨rfl, rfl⟩, _, rfl⟩
    · exact hmono (h.known u j y a hold)
    · rw [effect_opRead]
      split
      · next hself =>
        refine .inr (.inr ?_)
        rw [hbuf, if_pos hself]
        simp
      · exact hmono h.known_opRead
  case recent =>
    intro u j y a hs
    rcases saw_effect hev hs with hold | ⟨⟨rfl, rfl⟩, _, rfl⟩
    · exact h.recent_effect hnot hev hold
    · exact le_rfl
  case coherent =>
    intro u j k y a b hjk hs hf
    rcases saw_effect hev hs with hold | ⟨⟨rfl, rfl⟩, haccess, _⟩
    · rcases found_effect hev hf with ⟨hf, _⟩ | ⟨⟨rfl, rfl⟩, _, rfl⟩
      · exact h.coherent u j k y a b hjk hold hf
      · exact h.recent u j y a hold
    · -- no later read of the location was taken before
      rcases found_effect hev hf with ⟨hf, _⟩ | ⟨⟨_, rfl⟩, _⟩
      · rcases h.skipped u j k hjk hf.1 with htk | ⟨⟨z, hz⟩, hdiff⟩
        · exact absurd htk hnot
        · rcases haccess with hr | hw
          · exact absurd hr (hdiff y hf.2.1)
          · exact absurd hz (not_readsAt hw)
      · exact absurd hjk (lt_irrefl _)

theorem ordered_initial : Ordered (fun _ => []) (initial threads) := by
  have hbuf (u : Fin threads.length) (x : String) : buf (initial threads) u x = [] :=
    bufsEmpty_buf (quiet_initial.1 u) x
  have hsaw {t : Fin threads.length} {i : Nat} {x : String} {a : Nat} : ¬ Saw (initial threads) t i x a := by
    rintro (⟨htk, _⟩ | ⟨⟨htk, _⟩, _⟩)
    · exact not_taken_initial htk
    · exact not_taken_initial htk
  constructor
  case flushed => exact fun _ _ ha => absurd ha List.not_mem_nil
  case nodup => exact fun _ => List.nodup_nil
  case buffered => exact fun t x a ha => absurd (hbuf t x ▸ ha) List.not_mem_nil
  case kept => exact fun _ _ _ hw => absurd hw.1 not_taken_initial
  case sorted =>
    intro t x
    rw [hbuf]
    exact List.Pairwise.nil
  case skipped => exact fun _ _ _ _ htk => absurd htk not_taken_initial
  case viewed =>
    intro u x
    refine ⟨[], rfl, ?_⟩
    simp [initial, view, SortedMap.get]
  case known => exact fun _ _ _ _ hs => absurd hs hsaw
  case recent => exact fun _ _ _ _ hs => absurd hs hsaw
  case coherent => exact fun _ _ _ _ _ _ _ hs => absurd hs hsaw

theorem ReachableBy.ordered (h : ReachableBy threads Orderly st) : ∃ F, Ordered F st := by
  induction h with
  | init => exact ⟨_, ordered_initial⟩
  | step hr hord hmove ih =>
    obtain ⟨F, hF⟩ := ih
    cases hmove with
    | flush _ hb => exact ⟨_, hF.flush hb hord⟩
    | observe _ hp hd _ => exact ⟨_, hF.observe hp hd hord⟩
    | exec _ ht hev hperform =>
      obtain ⟨_, rfl⟩ := perform_iff.mp ⟨_, hperform⟩
      exact ⟨_, hF.exec hr.reachable.shaped ht hev hord⟩

theorem Ordered.views_agree (h : Ordered F st) (hterm : (terminal st).isSome = true) :
    view st t x = view st u x := by
  obtain ⟨obs, hobs⟩ := Option.isSome_iff_exists.mp hterm
  obtain ⟨⟨_, _, hpending⟩, _⟩ := terminal_eq_some.mp hobs
  have hview (w : Fin threads.length) : view st w x = (F x).getLastD 0 := by
    obtain ⟨pre, hF, hview⟩ := h.viewed w x
    rw [hview, hF, undelivered, hpending]
    simp
  rw [hview, hview]

/-- In a run whose steps are all in order, the writes to each location have one order that all threads see. -/
theorem orderly_coherent (h : ReachableBy threads Orderly st) (x : String) : Coherent st x := by
  obtain ⟨F, hF⟩ := h.ordered
  refine ⟨⟨pos (F x), pos_zero, fun t i _ => pos_pos writeTag_ne_zero, fun t i u j hi hj heq => ?_,
    fun t i j a b hij hs hf => hF.coherent t i j x a b hij hs hf⟩, fun hterm t u => hF.views_agree hterm⟩
  have htag := pos_inj writeTag_ne_zero writeTag_ne_zero heq
  obtain ⟨e, he, hwe⟩ := Option.bind_eq_some_iff.mp hi
  obtain ⟨f, hf, hwf⟩ := Option.bind_eq_some_iff.mp hj
  exact writeTag_inj he hf (by simp [hwe]) (by simp [hwf]) htag

def writerReader : List Thread := [⟨"a", [.write "x"]⟩, ⟨"b", [.read "x"]⟩]

/-- The write goes to the buffer, to the own view and to the other one, and then it is read. -/
theorem orderly_coherent_pair :
    ∃ st, ReachableBy writerReader Orderly st ∧ (terminal st).isSome = true ∧ Coherent st "x" := by
  let a : Fin writerReader.length := ⟨0, by decide⟩
  let b : Fin writerReader.length := ⟨1, by decide⟩
  let p : Pending writerReader.length := ⟨a, "x", 1, (List.Vector.replicate _ false).set a true⟩
  let s₁ := (effect (initial writerReader) true a 0 (.write "x")).mark a 0
  let s₂ := s₁.flushed a "x" 1
  let s₃ := s₂.observed 0 p b
  let s₄ := (effect s₃ true b 0 (.read "x")).mark b 0
  have hnone {st : OpState writerReader.length} {t : Fin writerReader.length} : Orderly st (.exec t 0) :=
    fun _ j _ hj => absurd hj (Nat.not_lt_zero j)
  have h₁ : ReachableBy writerReader Orderly s₁ :=
    .step .init hnone (.exec_of (by decide +kernel) (by decide +kernel) rfl trivial)
  have hflush : Move true s₁ (.flush a "x" 1) s₂ := .flush rfl (b := []) (by decide +kernel)
  have hflushOrd : Orderly s₁ (.flush a "x" 1) := show undelivered s₁ a "x" = [] by decide +kernel
  have h₂ : ReachableBy writerReader Orderly s₂ := .step h₁ hflushOrd hflush
  have hobserve : Move true s₂ (.observe p b) s₃ :=
    .observe rfl (by decide +kernel) (by decide +kernel) (by decide +kernel)
  have hobserveOrd : Orderly s₂ (.observe p b) := show (undelivered s₂ b "x").head? = some 1 by decide +kernel
  have h₃ : ReachableBy writerReader Orderly s₃ := .step h₂ hobserveOrd hobserve
  have h₄ : ReachableBy writerReader Orderly s₄ :=
    .step h₃ hnone (.exec_of (by decide +kernel) (by decide +kernel) rfl trivial)
  exact ⟨s₄, h₄, by decide +kernel, orderly_coherent h₄ "x"⟩

end Invariant

/-! ## Two writers -/

/-- Two threads that write one location. -/
def writers : List Thread := [⟨"a", [.write "x"]⟩, ⟨"b", [.write "x"]⟩]

/-- Both write and flush, and then each one gets the write of the other. -/
def crossed : Option (OpState writers.length) := follow true (initial writers) [0, 1, 0, 0, 0, 0]

/-- The run is complete, and the views differ. -/
theorem weak_views_differ : ∃ st, Reachable writers true st ∧ ¬ Coherent st "x" := by
  have hviews : ∃ st ∈ crossed, (terminal st).isSome = true ∧
      view st ⟨0, by decide⟩ "x" ≠ view st ⟨1, by decide⟩ "x" := by decide +kernel
  obtain ⟨st, hst, hterm, hne⟩ := hviews
  refine ⟨st, follow_reachable .init hst, fun hcoherent => ?_⟩
  exact hne (hcoherent.2 hterm _ _)

end Weakmem

end Interleave

end Csolver
