import Csolver.Solver.SatAnalyze

/-!
# Backjumping, learning and deciding

A backjump forgets exactly the literals above its target level (`backtrack_litValue`), and since a
false watch is paired with a true literal assigned no later, whatever pairing held below the target
holds afterwards with nothing to repair. The learnt clause is then added with its watches already
right: its head is free, its second literal sits at the target level.
-/

namespace Csolver.Sat

open Csolver.Lib Csolver.Core
open Solver

/-! ## Backjumping -/

theorem foldr_unassign (vs : List Nat) (f : Nat → Option Bool) (v : Nat) :
    vs.foldr (fun u a => Function.update a u none) f v = if v ∈ vs then none else f v := by
  induction vs with
  | nil => simp
  | cons u vs ih =>
    rw [List.foldr_cons]
    by_cases he : v = u
    · rw [he, Function.update_self, if_pos List.mem_cons_self]
    · rw [Function.update_of_ne he, ih]
      simp [he]

theorem backtrackTo_eq {s : Solver} {bt x : Nat} (hlt : bt < s.decisionLevel)
    (hx : s.trailLim[bt]? = some x) :
    s.backtrackTo bt = { s with
      assign := (s.trail.drop x).foldr (fun v a => Function.update a v none) s.assign
      trail := s.trail.take x
      trailLim := s.trailLim.take bt
      propQueue := [] } := by
  have hget : s.trailLim.getD bt 0 = x := by
    rw [List.getD_eq_getElem?_getD, hx, Option.getD_some]
  rw [backtrackTo, if_neg (Nat.not_le_of_lt hlt), hget]

theorem getElem?_take_iff {l : List Nat} {x p v : Nat} :
    (l.take x)[p]? = some v ↔ p < x ∧ l[p]? = some v := by
  rw [List.getElem?_take]
  by_cases h : p < x <;> simp [h]

theorem Core.backtrack_assign {F : List (List Lit)} {s : Solver} (h : Core F s) {bt v : Nat}
    {b : Bool} (hlt : bt < s.decisionLevel) :
    (s.backtrackTo bt).assign v = some b ↔ s.assign v = some b ∧ s.level v ≤ bt := by
  have hx := List.getElem?_eq_getElem (l := s.trailLim) hlt
  rw [backtrackTo_eq hlt hx]
  change (s.trail.drop _).foldr _ s.assign v = some b ↔ _
  rw [foldr_unassign]
  by_cases hmem : v ∈ s.trail.drop s.trailLim[bt]
  · rw [if_pos hmem]
    obtain ⟨q, hq⟩ := List.mem_iff_getElem?.mp hmem
    rw [List.getElem?_drop] at hq
    have := (h.level_iff _ v bt _ hq hx).mp (Nat.le_add_right _ _)
    simp only [reduceCtorEq, false_iff, not_and]
    intro _
    omega
  · rw [if_neg hmem]
    constructor
    · intro hv
      refine ⟨hv, ?_⟩
      obtain ⟨p, hp⟩ := h.position hv
      refine Nat.le_of_not_lt fun hgt => hmem ?_
      have hle := (h.level_iff p v bt _ hp hx).mpr hgt
      refine List.mem_of_getElem? (i := p - s.trailLim[bt]) ?_
      rw [List.getElem?_drop, Nat.add_sub_cancel' hle]
      exact hp
    · intro hv
      exact hv.1

theorem backtrackTo_level (s : Solver) (bt : Nat) : (s.backtrackTo bt).level = s.level := by
  unfold backtrackTo
  split <;> rfl

theorem backtrackTo_numVars (s : Solver) (bt : Nat) :
    (s.backtrackTo bt).numVars = s.numVars := by
  unfold backtrackTo
  split <;> rfl

theorem backtrackTo_clauses (s : Solver) (bt : Nat) :
    (s.backtrackTo bt).clauses = s.clauses := by
  unfold backtrackTo
  split <;> rfl

theorem Core.backtrack_litValue {F : List (List Lit)} {s : Solver} (h : Core F s) {bt : Nat}
    {l : Lit} {b : Bool} (hlt : bt < s.decisionLevel) :
    (s.backtrackTo bt).litValue l = some b ↔ s.litValue l = some b ∧ s.level l.var ≤ bt := by
  cases b with
  | true => rw [litValue_eq_true, litValue_eq_true, h.backtrack_assign hlt]
  | false => rw [litValue_eq_false, litValue_eq_false, h.backtrack_assign hlt]

theorem Core.backtrack {F : List (List Lit)} {s : Solver} (h : Core F s) {bt : Nat}
    (hlt : bt < s.decisionLevel) : Core F (s.backtrackTo bt) := by
  have hx := List.getElem?_eq_getElem (l := s.trailLim) hlt
  have hassign := fun v b => h.backtrack_assign (v := v) (b := b) hlt
  have hlit := fun l b => h.backtrack_litValue (l := l) (b := b) hlt
  have heq := backtrackTo_eq hlt hx
  set x := s.trailLim[bt] with hxdef
  have hlow : ∀ {p v}, s.trail[p]? = some v → p < x → s.level v ≤ bt := by
    intro p v hp hpx
    refine Nat.le_of_not_lt fun hgt => ?_
    have := (h.level_iff p v bt x hp hx).mpr hgt
    omega
  have htrail : (s.backtrackTo bt).trail = s.trail.take x := by rw [heq]
  have hlim : (s.backtrackTo bt).trailLim = s.trailLim.take bt := by rw [heq]
  have hclauses := backtrackTo_clauses s bt
  have hlevel := backtrackTo_level s bt
  have hnum := backtrackTo_numVars s bt
  have hlen : bt ≤ s.trailLim.length := Nat.le_of_lt hlt
  refine
    { nodup := ?_, mem_trail := ?_, trail_lt := ?_, lim_sorted := ?_, lim_lt := ?_, level_iff := ?_,
      level_le := ?_, reason_ok := ?_, entails := by rw [hclauses]; exact h.entails,
      bounded := by rw [hclauses, hnum]; exact h.bounded,
      original := by rw [hclauses]; exact h.original,
      numOriginal_eq := by rw [heq]; exact h.numOriginal_eq, level_zero := ?_ }
  · rw [htrail]
    exact h.nodup.sublist (List.take_sublist _ _)
  · intro v
    rw [htrail]
    constructor
    · intro hv
      obtain ⟨p, hp⟩ := List.mem_iff_getElem?.mp hv
      obtain ⟨hpx, hp⟩ := getElem?_take_iff.mp hp
      have hne := (h.mem_trail v).mp (List.mem_of_getElem? hp)
      obtain ⟨b, hb⟩ := Option.ne_none_iff_exists'.mp hne
      rw [(hassign v b).mpr ⟨hb, hlow hp hpx⟩]
      simp
    · intro hne
      obtain ⟨b, hb⟩ := Option.ne_none_iff_exists'.mp hne
      obtain ⟨hb, hle⟩ := (hassign v b).mp hb
      obtain ⟨p, hp⟩ := h.position hb
      refine List.mem_of_getElem? (i := p) (getElem?_take_iff.mpr ⟨?_, hp⟩)
      refine Nat.lt_of_not_le fun hge => ?_
      have := (h.level_iff p v bt x hp hx).mp hge
      omega
  · intro v hv
    rw [htrail] at hv
    rw [hnum]
    exact h.trail_lt v (List.mem_of_mem_take hv)
  · rw [hlim]
    exact h.lim_sorted.sublist (List.take_sublist _ _)
  · intro y hy
    rw [hlim] at hy
    obtain ⟨j, hj⟩ := List.mem_iff_getElem?.mp hy
    obtain ⟨hjb, hj⟩ := getElem?_take_iff.mp hj
    obtain ⟨hjl, hje⟩ := List.getElem?_eq_some_iff.mp hj
    have hyx : y < x := by
      have := List.pairwise_iff_getElem.mp h.lim_sorted j bt hjl hlt hjb
      rwa [hje] at this
    rw [htrail, List.length_take]
    exact Nat.lt_min.mpr ⟨hyx, h.lim_lt y (List.mem_of_getElem? hj)⟩
  · intro p v j y hp hy
    rw [htrail] at hp
    rw [hlim] at hy
    rw [hlevel]
    exact h.level_iff p v j y (getElem?_take_iff.mp hp).2 (getElem?_take_iff.mp hy).2
  · intro v hv
    rw [htrail] at hv
    obtain ⟨p, hp⟩ := List.mem_iff_getElem?.mp hv
    obtain ⟨hpx, hp⟩ := getElem?_take_iff.mp hp
    rw [hlevel, hlim, List.length_take, Nat.min_eq_left hlen]
    exact hlow hp hpx
  · intro p v hp hpos
    rw [htrail] at hp
    rw [hlevel] at hpos
    obtain ⟨hpx, hp⟩ := getElem?_take_iff.mp hp
    have hle := hlow hp hpx
    rcases h.reason_ok p v hp hpos with hdec | ⟨ci, c, hre, hci, hok⟩
    · refine Or.inl ?_
      rw [hlevel, hlim]
      exact getElem?_take_iff.mpr ⟨by omega, hdec⟩
    · refine Or.inr ⟨ci, c, by rw [heq]; exact hre, by rw [hclauses]; exact hci, ?_⟩
      intro l hl
      rcases hok l hl with ⟨hv, ht⟩ | ⟨hf, q, hqp, hq⟩
      · exact Or.inl ⟨hv, (hlit l true).mpr ⟨ht, hv ▸ hle⟩⟩
      · have hqx := Nat.lt_trans hqp hpx
        refine Or.inr ⟨(hlit l false).mpr ⟨hf, hlow hq hqx⟩, q, hqp, ?_⟩
        rw [htrail]
        exact getElem?_take_iff.mpr ⟨hqx, hq⟩
  · intro v b hv hz
    rw [hlevel] at hz
    exact h.level_zero v b ((hassign v b).mp hv).1 hz

theorem TwoWatched.backtrack {F : List (List Lit)} {s : Solver} {ex : Nat → Lit → Prop}
    (hc : Core F s) (h : TwoWatched ex s) {bt : Nat} (hlt : bt < s.decisionLevel)
    (hex : ∀ ci w, ex ci w → s.litValue w = some false → bt < s.level w.var) :
    TwoWatched (fun _ _ => False) (s.backtrackTo bt) := by
  have hcl : ∀ ci, (s.backtrackTo bt).clause ci = s.clause ci := by
    intro ci
    rw [clause, backtrackTo_clauses]
    rfl
  intro ci i w o hi hw ho hf
  rw [hcl] at hw ho
  obtain ⟨hf, hle⟩ := (hc.backtrack_litValue hlt).mp hf
  rcases h ci i w o hi hw ho hf with he | ⟨ht, hlo⟩
  · exact absurd (hex ci w he hf) (Nat.not_lt_of_le hle)
  · refine Or.inr ⟨(hc.backtrack_litValue hlt).mpr ⟨ht, Nat.le_trans hlo hle⟩, ?_⟩
    rw [backtrackTo_level]
    exact hlo

theorem Inv.backtrack {F : List (List Lit)} {s : Solver} {ex : Nat → Lit → Prop} (hc : Core F s)
    (hcount : CountOk (fun _ _ => 0) s) (hw : TwoWatched ex s) (hu : UnitsOk F s)
    (hseen : s.seen = fun _ => false) (hact : ∀ v, (s.activity v).NonNeg) (hinc : s.varInc.NonNeg)
    {bt : Nat} (hlt : bt < s.decisionLevel)
    (hex : ∀ ci w, ex ci w → s.litValue w = some false → bt < s.level w.var) :
    Inv F (s.backtrackTo bt) ∧ (s.backtrackTo bt).propQueue = [] ∧
      (s.backtrackTo bt).decisionLevel = bt := by
  have heq := backtrackTo_eq hlt (List.getElem?_eq_getElem (l := s.trailLim) hlt)
  have hq : (s.backtrackTo bt).propQueue = [] := by rw [heq]
  refine ⟨⟨hc.backtrack hlt, ?_, ?_, ?_, ?_, ?_, ?_, ?_⟩, hq, ?_⟩
  · rw [heq]; exact hcount
  · exact (hw.backtrack hc hlt hex).mono fun _ _ hf => hf.elim
  · intro v hv
    rw [hq] at hv
    exact absurd hv List.not_mem_nil
  · refine ⟨hu.1, fun l hl => ?_⟩
    obtain ⟨ht, hz⟩ := hu.2 l hl
    refine ⟨(hc.backtrack_litValue hlt).mpr ⟨ht, ?_⟩, ?_⟩
    · rw [hz]; exact Nat.zero_le _
    · rw [backtrackTo_level]; exact hz
  · rw [heq]; exact hseen
  · rw [heq]; exact hact
  · rw [heq]; exact hinc
  · rw [decisionLevel, heq]
    change (s.trailLim.take bt).length = bt
    rw [List.length_take]
    exact Nat.min_eq_left (Nat.le_of_lt hlt)

/-! ## Learning -/

theorem addLearnt_clause (s : Solver) (c : List Lit) (lbd ci : Nat) :
    (s.addLearnt c lbd).2.clause ci = if ci = s.clauses.length then c else s.clause ci := by
  unfold addLearnt clause
  simp only [List.getD_eq_getElem?_getD]
  by_cases he : ci = s.clauses.length
  · rw [if_pos he, he, List.getElem?_concat_length, Option.getD_some]
  · rw [if_neg he]
    rcases Nat.lt_or_ge ci s.clauses.length with hlt | hge
    · rw [List.getElem?_append_left hlt]
    · rw [List.getElem?_eq_none hge, List.getElem?_eq_none]
      rw [List.length_append, List.length_singleton]
      omega

theorem clause_length (s : Solver) : s.clause s.clauses.length = [] := by
  rw [clause, List.getD_eq_getElem?_getD, List.getElem?_eq_none (Nat.le_refl _), Option.getD_none]

theorem Core.addLearnt {F : List (List Lit)} {s : Solver} (h : Core F s) {c : List Lit} {lbd : Nat}
    (hent : Entails F c) (hb : ∀ l ∈ c, l.var < s.numVars) : Core F (s.addLearnt c lbd).2 := by
  have hleft : ∀ {i : Nat} {d : List Lit}, s.clauses[i]? = some d →
      (s.clauses ++ [c])[i]? = some d := by
    intro i d hd
    rw [List.getElem?_append_left (List.getElem?_eq_some_iff.mp hd).1]
    exact hd
  refine
    { nodup := h.nodup, mem_trail := h.mem_trail, trail_lt := h.trail_lt,
      lim_sorted := h.lim_sorted, lim_lt := h.lim_lt, level_iff := h.level_iff,
      level_le := h.level_le, reason_ok := ?_, entails := ?_, bounded := ?_, original := ?_,
      numOriginal_eq := h.numOriginal_eq, level_zero := h.level_zero }
  · intro p v hp hv
    rcases h.reason_ok p v hp hv with hd | ⟨ci, d, hre, hci, hok⟩
    · exact Or.inl hd
    · exact Or.inr ⟨ci, d, hre, hleft hci, hok⟩
  · intro d hd
    rcases List.mem_append.mp hd with hd | hd
    · exact h.entails d hd
    · rw [List.mem_singleton.mp hd]; exact hent
  · intro d hd
    rcases List.mem_append.mp hd with hd | hd
    · exact h.bounded d hd
    · rw [List.mem_singleton.mp hd]; exact hb
  · intro i d hd
    obtain ⟨d', hd', hperm⟩ := h.original i d hd
    exact ⟨d', hleft hd', hperm⟩

theorem CountOk.addLearnt {s : Solver} (h : CountOk (fun _ _ => 0) s) (c : List Lit) (lbd : Nat) :
    CountOk (fun _ _ => 0) (s.addLearnt c lbd).2 := by
  intro ci l
  rw [addLearnt_clause]
  change (watchClause s.watches s.clauses.length c (litCode l)).count ci + 0 = _
  rw [count_watchClause]
  have hold := h ci l
  by_cases he : ci = s.clauses.length
  · rw [if_pos he, if_pos he.symm, Nat.add_zero]
    rw [he, clause_length] at hold
    have : (s.watches (litCode l)).count ci = 0 := by
      rw [he]
      exact Nat.eq_zero_of_add_eq_zero_right hold
    rw [this, Nat.zero_add]
  · rw [if_neg he, if_neg fun hc => he hc.symm]
    exact hold

/-- Learning an entailed clause whose head is free and whose other literals are false, the second
    one at the current level, and asserting the head. -/
theorem Inv.learn {F : List (List Lit)} {s : Solver} (h : Inv F s) (hq : s.propQueue = [])
    {a : Lit} {rest : List Lit} {lbd : Nat} (hent : Entails F (a :: rest))
    (hfree : s.assign a.var = none) (hlt : a.var < s.numVars)
    (hrest : ∀ l ∈ rest, s.litValue l = some false)
    (hsecond : ∀ b, rest[0]? = some b → s.level b.var = s.decisionLevel)
    (hunit : s.decisionLevel = 0 → rest = []) :
    Inv F (assignLit (s.addLearnt (a :: rest) lbd).2 a (some s.clauses.length) s.trailLim) := by
  set t := (s.addLearnt (a :: rest) lbd).2 with ht
  have hbound : ∀ l ∈ a :: rest, l.var < s.numVars := by
    intro l hl
    rcases List.mem_cons.mp hl with rfl | hl
    · exact hlt
    · obtain ⟨p, -, hp⟩ := h.core.position_of_false (hrest l hl)
      exact h.core.trail_lt _ (List.mem_of_getElem? hp)
  have hcore : Core F t := h.core.addLearnt hent hbound
  have hnew : t.clauses[s.clauses.length]? = some (a :: rest) := List.getElem?_concat_length
  refine ⟨?_, ?_, ?_, ?_, ?_, h.seen, h.activity, h.varInc⟩
  · refine hcore.assignLit (s := t) hfree hlt (Or.inl rfl) (fun _ => Or.inr ?_) ?_
    · refine ⟨_, _, rfl, hnew, fun l hl => ?_⟩
      rcases List.mem_cons.mp hl with rfl | hl
      · exact Or.inl rfl
      · exact Or.inr (hrest l hl)
    · intro hz m hm
      obtain ⟨l, hl, htrue⟩ := hent m hm
      rw [hunit hz] at hl
      rwa [List.mem_singleton.mp hl] at htrue
  · exact h.count.addLearnt (a :: rest) lbd
  · intro ci i w o hi hw ho hf
    change (t.clause ci)[i]? = some w at hw
    change (t.clause ci)[1 - i]? = some o at ho
    rw [ht, addLearnt_clause] at hw ho
    by_cases hv : w.var = a.var
    · refine Or.inl ?_
      change w.var ∈ a.var :: s.propQueue
      rw [hv]
      exact List.mem_cons_self
    · have hf' : s.litValue w = some false := by
        rw [litValue_eq_false] at hf ⊢
        rwa [assignLit_assign_ne hv] at hf
      by_cases he : ci = s.clauses.length
      · -- the learnt clause: the false watch is the second literal, its partner the asserted head
        rw [if_pos he] at hw ho
        refine Or.inr ?_
        match i, hi with
        | 0, _ =>
          obtain rfl : a = w := by simpa using hw
          exact absurd rfl hv
        | 1, _ =>
          obtain rfl : a = o := by simpa using ho
          refine ⟨assignLit_self, ?_⟩
          rw [assignLit_level_ne hv]
          have hlev : s.level w.var = s.decisionLevel := hsecond w (by simpa using hw)
          change Function.update t.level a.var s.trailLim.length a.var ≤ s.level w.var
          rw [Function.update_self, hlev]
          exact Nat.le_refl _
      · rw [if_neg he] at hw ho
        rcases h.watched ci i w o hi hw ho hf' with hx | ⟨htrue, hle⟩
        · rw [hq] at hx
          exact absurd hx List.not_mem_nil
        · obtain ⟨ht', hlo⟩ := assignLit_litValue (s := t) (r := some s.clauses.length)
            hfree htrue
          refine Or.inr ⟨ht', ?_⟩
          rw [hlo, assignLit_level_ne hv]
          exact hle
  · refine QueueOk.assignLit (s := t) ?_ hfree
    exact h.queue
  · refine ⟨h.units.1, fun l hl => ?_⟩
    obtain ⟨htrue, hz⟩ := h.units.2 l hl
    obtain ⟨ht', hlo⟩ := assignLit_litValue (s := t) (r := some s.clauses.length)
      hfree htrue
    exact ⟨ht', hlo.trans hz⟩

/-! ## Deciding -/

theorem decideVar_eq {s : Solver} {v : Nat} (hfree : s.assign v = none) :
    s.decideVar v = assignLit s (.pos v) none (s.trailLim ++ [s.trail.length]) := by
  have hfree' : { s with trailLim := s.trailLim ++ [s.trail.length] }.assign (Lit.pos v).var =
      none := hfree
  rw [decideVar, enqueue_of_none hfree']
  rfl

theorem Inv.decide {F : List (List Lit)} {s : Solver} (h : Inv F s) (hq : s.propQueue = [])
    {v : Nat} (hfree : s.assign v = none) (hlt : v < s.numVars) : Inv F (s.decideVar v) := by
  rw [decideVar_eq hfree]
  refine ⟨?_, h.count, ?_, ?_, ?_, h.seen, h.activity, h.varInc⟩
  · refine h.core.assignLit hfree hlt (Or.inr rfl) (fun _ => Or.inl ?_) ?_
    · simp
    · intro hz
      simp at hz
  · refine (h.watched.assignLit hfree).mono fun ci w hx => ?_
    rcases hx with hx | hx
    · exact List.mem_cons_of_mem _ hx
    · exact hx ▸ List.mem_cons_self
  · intro u hu
    change u ∈ (Lit.pos v).var :: s.propQueue at hu
    rw [hq] at hu
    obtain rfl : u = v := List.mem_singleton.mp hu
    constructor
    · simp [assignLit, Lit.pos]
    · simp [assignLit, Lit.pos, decisionLevel]
  · refine ⟨h.units.1, fun l hl => ?_⟩
    obtain ⟨htrue, hz⟩ := h.units.2 l hl
    obtain ⟨ht', hlo⟩ := assignLit_litValue (l := Lit.pos v) (r := none)
      hfree htrue
    exact ⟨ht', hlo.trans hz⟩

end Csolver.Sat
