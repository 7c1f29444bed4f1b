import Csolver.Asm.Blocks

/-!
# Control flow is kept by straight lists

The blocks run as the machine that fetches by offset does if and only if the list is straight: where execution does not
go on to the instruction that follows in the list, a block ends.
-/

namespace Csolver.Asm

variable {ι : Type}

/-! ## The places in a sorted list -/

section Order

variable {ds p q : List (DecodedInsn ι)} {d e s : DecodedInsn ι}

theorem Sorted.split (hs : Sorted ds) (hds : ds = p ++ d :: q) :
    (∀ e ∈ p, e.offset < d.offset) ∧ ∀ e ∈ q, d.offset < e.offset := by
  unfold Sorted offsets at hs
  rw [hds, List.map_append, List.pairwise_append] at hs
  obtain ⟨-, htail, hcross⟩ := hs
  refine ⟨fun e he => hcross _ (List.mem_map_of_mem he) _ (List.mem_map_of_mem List.mem_cons_self), fun e he => ?_⟩
  exact List.rel_of_pairwise_cons htail (List.mem_map_of_mem he)

theorem mem_of_split (hds : ds = p ++ d :: q) : d ∈ ds := by
  rw [hds]
  exact List.mem_append_right _ List.mem_cons_self

theorem Sorted.offset_inj (hs : Sorted ds) (hd : d ∈ ds) (he : e ∈ ds) (h : d.offset = e.offset) : d = e := by
  obtain ⟨p, q, hds⟩ := List.append_of_mem hd
  obtain ⟨hbefore, hafter⟩ := hs.split hds
  rw [hds] at he
  rcases List.mem_append.mp he with hp | hq
  · exact absurd h (hbefore e hp).ne'
  · rcases List.mem_cons.mp hq with rfl | hq
    · rfl
    · exact absurd h (hafter e hq).ne

theorem fetch_eq (hs : Sorted ds) (hd : d ∈ ds) : fetch ds d.offset = some d := by
  unfold fetch
  cases hfind : ds.find? (fun x => decide (x.offset = d.offset)) with
  | none => simpa using List.find?_eq_none.mp hfind d hd
  | some e =>
    have heq := List.find?_some hfind
    rw [hs.offset_inj (List.mem_of_find?_eq_some hfind) hd (by simpa using heq)]

theorem fetch_some {o : Nat} (h : fetch ds o = some d) : d ∈ ds ∧ d.offset = o :=
  ⟨List.mem_of_find?_eq_some h, by simpa using List.find?_some h⟩

theorem exists_fetch {o : Nat} (h : o ∈ offsets ds) (hs : Sorted ds) : ∃ d ∈ ds, d.offset = o ∧ fetch ds o = some d := by
  obtain ⟨d, hd, rfl⟩ := List.mem_map.mp h
  exact ⟨d, hd, rfl, fetch_eq hs hd⟩

theorem place_lt (hs : Sorted ds) (hd : d ∈ ds) {o : Nat} (hlt : d.offset < o) (ho : o ∈ leaders ds) :
    place ds d.offset < place ds o := by
  have hone := one_le_count hs hd
  have hcount : ((leaders ds).filter (· ≤ d.offset)).length < ((leaders ds).filter (· ≤ o)).length := by
    have htwice : (leaders ds).filter (· ≤ d.offset) = ((leaders ds).filter (· ≤ o)).filter (· ≤ d.offset) := by
      rw [List.filter_filter]
      refine List.filter_congr fun x _ => ?_
      rw [← Bool.decide_and, decide_eq_decide]
      omega
    rw [htwice, List.length_filter_lt_length_iff_exists]
    exact ⟨o, List.mem_filter.mpr ⟨ho, by simp⟩, by simpa using hlt⟩
  unfold place
  omega

theorem place_eq (hs : Sorted ds) (hds : ds = p ++ d :: s :: q) (hleader : s.offset ∉ leaders ds) :
    place ds s.offset = place ds d.offset := by
  obtain ⟨hbefore, hafter⟩ := hs.split hds
  obtain ⟨-, hlast⟩ := hs.split (p := p ++ [d]) (d := s) (q := q) (by rw [hds]; simp)
  unfold place
  congr 2
  refine List.filter_congr fun o ho => ?_
  rw [decide_eq_decide]
  have hmem := (mem_leaders.mp ho).2
  obtain ⟨e, he, rfl⟩ := List.mem_map.mp hmem
  have hds' := hafter s List.mem_cons_self
  rw [hds] at he
  rcases List.mem_append.mp he with hp | hq
  · have hlt := hbefore e hp
    omega
  · rcases List.mem_cons.mp hq with rfl | hq
    · omega
    · rcases List.mem_cons.mp hq with rfl | hq
      · exact absurd ho hleader
      · have hlt := hlast e hq
        omega

theorem place_leader {j o : Nat} (h : (leaders ds)[j]? = some o) : place ds o = j := by
  have hsorted := leaders_sorted ds
  have hlt := (getElem_le_iff hsorted h).mp (le_refl o)
  have hlen := List.length_filter_le (· ≤ o) (leaders ds)
  have hle : ((leaders ds).filter (· ≤ o)).length ≤ j + 1 := by
    by_contra hmore
    have hj : j + 1 < (leaders ds).length := by omega
    have hnext : (leaders ds)[j + 1]? = some (leaders ds)[j + 1] := List.getElem?_eq_getElem hj
    have hbelow := (getElem_le_iff hsorted hnext).mpr (by omega : j + 1 < ((leaders ds).filter (· ≤ o)).length)
    obtain ⟨hj', rfl⟩ := List.getElem?_eq_some_iff.mp h
    have habove := List.pairwise_iff_getElem.mp hsorted j (j + 1) hj' hj (Nat.lt_succ_self j)
    omega
  unfold place
  omega

theorem idxOf_leader {o : Nat} (h : o ∈ leaders ds) : (leaders ds)[(leaders ds).idxOf o]? = some o :=
  List.getElem?_idxOf h

end Order

/-! ## The states of the blocks -/

section States

variable {ds p q : List (DecodedInsn ι)} {d e s : DecodedInsn ι} {st st' : Nat × List (DecodedInsn ι)}

/-- The state after an instruction: its block, and what follows it there. -/
def After (ds : List (DecodedInsn ι)) (d : DecodedInsn ι) (st : Nat × List (DecodedInsn ι)) : Prop :=
  ∃ p q, ds = p ++ d :: q ∧ st = (place ds d.offset, inBlock ds q (place ds d.offset))

theorem inBlock_cons (hs : Sorted ds) (hds : ds = p ++ d :: s :: q) :
    inBlock ds (s :: q) (place ds d.offset) =
      if s.offset ∈ leaders ds then [] else s :: inBlock ds q (place ds s.offset) := by
  have hd := mem_of_split hds
  obtain ⟨-, hafter⟩ := hs.split hds
  obtain ⟨-, hlast⟩ := hs.split (p := p ++ [d]) (d := s) (q := q) (by rw [hds]; simp)
  split_ifs with hleader
  · rw [inBlock, List.filter_eq_nil_iff]
    intro e he
    have hlt := place_lt hs hd (hafter s List.mem_cons_self) hleader
    have hle : place ds s.offset ≤ place ds e.offset := by
      rcases List.mem_cons.mp he with rfl | he
      · exact le_rfl
      · exact place_mono ds (hlast e he).le
    simp
    omega
  · have heq := place_eq hs hds hleader
    rw [inBlock, List.filter_cons_of_pos (by simpa using heq), heq]
    rfl

theorem block_begin (hs : Sorted ds) {j : Nat} (h : (leaders ds)[j]? = some d.offset) (hd : d ∈ ds) :
    ∃ rest, inBlock ds ds j = d :: rest ∧ After ds d (j, rest) := by
  have hplace := place_leader h
  obtain ⟨p, q, hds⟩ := List.append_of_mem hd
  obtain ⟨hbefore, -⟩ := hs.split hds
  refine ⟨inBlock ds q j, ?_, p, q, hds, by rw [hplace]⟩
  have hnil : inBlock ds p j = [] := by
    rw [inBlock, List.filter_eq_nil_iff]
    intro e he
    have hlt := place_lt hs (hds ▸ List.mem_append_left _ he : e ∈ ds) (hbefore e he) (List.mem_of_getElem? h)
    simp
    omega
  have hsplit : inBlock ds ds j = inBlock ds p j ++ inBlock ds (d :: q) j := by
    conv_lhs => rw [inBlock, hds, List.filter_append]
    rw [← hds]
    rfl
  rw [hsplit, hnil, List.nil_append, inBlock, List.filter_cons_of_pos (by simpa using hplace)]
  rfl

theorem blocksAfter_get {j : Nat} (hj : j < (leaders ds).length) :
    (blocksAfter ds ds)[j]? = some (blockWith ds (inBlock ds ds j)) := by
  rw [blocksAfter, List.getElem?_map, List.getElem?_range hj]
  rfl

variable (outcome : Outcomes ι) (done : List (DecodedInsn ι))

theorem follow_enter (hs : Sorted ds) (fuel : Nat) {j : Nat} (hd : d ∈ ds) (h : (leaders ds)[j]? = some d.offset) :
    ∃ rest, follow outcome (blocksAfter ds ds) done fuel
      (j, ((blocksAfter ds ds)[j]?).elim [] BasicBlock.insts) = some (d, j, rest) ∧ After ds d (j, rest) := by
  obtain ⟨rest, hbody, hafter⟩ := block_begin hs h hd
  have hj := (List.getElem?_eq_some_iff.mp h).1
  refine ⟨rest, ?_, hafter⟩
  rw [blocksAfter_get hj]
  change follow outcome (blocksAfter ds ds) done fuel (j, inBlock ds ds j) = _
  rw [hbody, follow]

theorem follow_outside (fuel : Nat) {j : Nat} (h : (leaders ds).length ≤ j) :
    follow outcome (blocksAfter ds ds) done fuel (j, ((blocksAfter ds ds)[j]?).elim [] BasicBlock.insts) = none := by
  have hnone : (blocksAfter ds ds)[j]? = none := List.getElem?_eq_none (by simpa [blocksAfter] using h)
  rw [hnone]
  cases fuel with
  | zero => rfl
  | succ fuel =>
    change follow outcome (blocksAfter ds ds) done (fuel + 1) (j, []) = none
    rw [follow, hnone]
    rfl

theorem follow_after (hs : Sorted ds) (fuel j : Nat)
    (h : follow outcome (blocksAfter ds ds) done fuel (j, ((blocksAfter ds ds)[j]?).elim [] BasicBlock.insts) =
      some (e, st')) : After ds e st' := by
  by_cases hj : j < (leaders ds).length
  · have hget : (leaders ds)[j]? = some (leaders ds)[j] := List.getElem?_eq_getElem hj
    obtain ⟨d, hd, hoff, -⟩ := exists_fetch (mem_leaders.mp (List.mem_of_getElem? hget)).2 hs
    rw [← hoff] at hget
    obtain ⟨rest, hfollow, hafter⟩ := follow_enter outcome done hs fuel hd hget
    obtain ⟨rfl, rfl⟩ := Prod.mk.inj (Option.some.inj (h.symm.trans hfollow))
    exact hafter
  · rw [follow_outside outcome done fuel (Nat.not_lt.mp hj)] at h
    cases h

theorem blockStep_cons (i : Nat) (rest : List (DecodedInsn ι)) :
    blockStep outcome (blocksAfter ds ds) (i, s :: rest) done = some (s, i, rest) := by
  rw [blockStep, follow]

theorem blockStep_nil {i : Nat} (hi : i < (leaders ds).length) :
    blockStep outcome (blocksAfter ds ds) (i, []) done =
      match lastTerm ds (inBlock ds ds i) with
      | .ret => none
      | .br j => follow outcome (blocksAfter ds ds) done (blocksAfter ds ds).length
          (j, ((blocksAfter ds ds)[j]?).elim [] BasicBlock.insts)
      | .condBr cond t e => follow outcome (blocksAfter ds ds) done (blocksAfter ds ds).length
          (if outcome done cond then t else e,
            ((blocksAfter ds ds)[if outcome done cond then t else e]?).elim [] BasicBlock.insts) := by
  rw [blockStep, follow, blocksAfter_get hi]
  rfl

theorem place_lt_length (hs : Sorted ds) (hd : d ∈ ds) : place ds d.offset < (leaders ds).length := by
  have hone := one_le_count hs hd
  have hlen := List.length_filter_le (· ≤ d.offset) (leaders ds)
  unfold place
  omega

theorem blockStep_after (hs : Sorted ds) (h : After ds d st)
    (hstep : blockStep outcome (blocksAfter ds ds) st done = some (e, st')) : After ds e st' := by
  obtain ⟨p, q, hds, rfl⟩ := h
  have hi := place_lt_length hs (mem_of_split hds)
  cases hrest : inBlock ds q (place ds d.offset) with
  | nil =>
    rw [hrest, blockStep_nil outcome done hi] at hstep
    cases hterm : lastTerm ds (inBlock ds ds (place ds d.offset)) with
    | ret => rw [hterm] at hstep; cases hstep
    | br j => rw [hterm] at hstep; exact follow_after outcome done hs _ _ hstep
    | condBr cond t e => rw [hterm] at hstep; exact follow_after outcome done hs _ _ hstep
  | cons s rest =>
    rw [hrest, blockStep_cons] at hstep
    obtain ⟨rfl, rfl⟩ := Prod.mk.inj (Option.some.inj hstep)
    cases q with
    | nil => cases hrest
    | cons x q =>
      rw [inBlock_cons hs hds] at hrest
      split_ifs at hrest with hleader
      obtain ⟨rfl, rfl⟩ := List.cons.inj hrest
      exact ⟨p ++ [d], q, by rw [hds]; simp, by rw [place_eq hs hds hleader]⟩

theorem lastTerm_of_last (hds : ds = p ++ d :: q) (hrest : inBlock ds q (place ds d.offset) = []) :
    lastTerm ds (inBlock ds ds (place ds d.offset)) = if isBlockEnd (offsets ds) (leaders ds) d then
      terminator (leaders ds) d else lastTerm ds (inBlock ds p (place ds d.offset)) := by
  have hsplit : inBlock ds ds (place ds d.offset) = inBlock ds p (place ds d.offset) ++ [d] := by
    have happend : inBlock ds ds (place ds d.offset) = inBlock ds (p ++ d :: q) (place ds d.offset) := by rw [← hds]
    rw [happend, inBlock, List.filter_append, List.filter_cons_of_pos (by simp)]
    change inBlock ds p _ ++ d :: inBlock ds q _ = _
    rw [hrest]
  rw [hsplit, lastTerm, List.foldl_append]
  rfl

end States

/-! ## Straight lists -/

section Straight

variable {ds p q : List (DecodedInsn ι)} {d e s : DecodedInsn ι} {st st' : Nat × List (DecodedInsn ι)}

/-- An instruction falls through to the one that follows in the list, or a block begins there and wherever it falls
through to. -/
def StraightAt (ds : List (DecodedInsn ι)) (d : DecodedInsn ι) (q : List (DecodedInsn ι)) : Prop :=
  match q with
  | [] => d.ctrl = .fall → d.next ∈ leaders ds
  | s :: _ => (d.ctrl = .fall ∧ d.next = s.offset) ∨
      (s.offset ∈ leaders ds ∧ (d.ctrl = .fall → d.next ∈ leaders ds))

instance (ds : List (DecodedInsn ι)) (d : DecodedInsn ι) (q : List (DecodedInsn ι)) : Decidable (StraightAt ds d q) :=
  match q with
  | [] => inferInstanceAs (Decidable (d.ctrl = .fall → d.next ∈ leaders ds))
  | s :: _ => inferInstanceAs (Decidable ((d.ctrl = .fall ∧ d.next = s.offset) ∨
      (s.offset ∈ leaders ds ∧ (d.ctrl = .fall → d.next ∈ leaders ds))))

theorem straight_iff : (∀ p d q, ds = p ++ d :: q → StraightAt ds d q) ↔
    ∀ i : Fin ds.length, StraightAt ds ds[i] (ds.drop (i + 1)) := by
  constructor
  · intro h i
    exact h (ds.take i) ds[i] (ds.drop (i + 1)) (by simp)
  · rintro h p d q hds
    have hlen : p.length < ds.length := by rw [hds]; simp
    have hi := h ⟨p.length, hlen⟩
    have hget : ds[p.length] = d := by simp [hds]
    have hdrop : ds.drop (p.length + 1) = q := by simp [hds]
    change StraightAt ds ds[p.length] (ds.drop (p.length + 1)) at hi
    rwa [hget, hdrop] at hi

/-- The list is straight, and its blocks can be numbered. -/
def Straight (ds : List (DecodedInsn ι)) : Prop :=
  (∀ p d q, ds = p ++ d :: q → StraightAt ds d q) ∧ (leaders ds).length ≤ 2 ^ 32

/-- The instruction after one is the same for the blocks. -/
def AgreesAt (ds : List (DecodedInsn ι)) (β : RegId → Bool) (d : DecodedInsn ι) (st : Nat × List (DecodedInsn ι)) : Prop :=
  (blockStep (fun _ => β) (blocksAfter ds ds) st []).map Prod.fst = fetchNext (fun _ => β) ds [] d

def Agrees (ds : List (DecodedInsn ι)) : Prop := ∀ β d st, After ds d st → AgreesAt ds β d st

theorem follow_target (hs : Sorted ds) (β : RegId → Bool) (fuel : Nat) {o : Nat} (ho : o ∈ leaders ds)
    (hlen : (leaders ds).length ≤ 2 ^ 32) :
    (follow (fun _ => β) (blocksAfter ds ds) [] fuel ((leaders ds).idxOf o % 2 ^ 32,
      ((blocksAfter ds ds)[(leaders ds).idxOf o % 2 ^ 32]?).elim [] BasicBlock.insts)).map Prod.fst = fetch ds o := by
  obtain ⟨d, hd, rfl, hfetch⟩ := exists_fetch (mem_leaders.mp ho).2 hs
  have hget := idxOf_leader ho
  have hlt := (List.getElem?_eq_some_iff.mp hget).1
  rw [Nat.mod_eq_of_lt (by omega)]
  obtain ⟨rest, hfollow, -⟩ := follow_enter (fun _ => β) [] hs fuel hd hget
  rw [hfollow, hfetch]
  rfl

theorem agreesAt_of_end (hs : Sorted ds) (hclosed : Closed ds) (hlen : (leaders ds).length ≤ 2 ^ 32)
    (hds : ds = p ++ d :: q) (hrest : inBlock ds q (place ds d.offset) = [])
    (hend : isBlockEnd (offsets ds) (leaders ds) d) (β : RegId → Bool) :
    AgreesAt ds β d (place ds d.offset, inBlock ds q (place ds d.offset)) := by
  have hd := mem_of_split hds
  have hts : ∀ t ∈ d.targets, t ∈ leaders ds := ends_iff_closed.mpr hclosed d hd hend
  unfold AgreesAt fetchNext
  rw [hrest, blockStep_nil _ _ (place_lt_length hs hd), lastTerm_of_last hds hrest, if_pos hend]
  unfold terminator
  unfold DecodedInsn.targets at hts
  cases hc : d.ctrl with
  | ret => rfl
  | fall =>
    rw [hc] at hts
    exact follow_target hs β _ (hts _ List.mem_cons_self) hlen
  | jmp t =>
    rw [hc] at hts
    exact follow_target hs β _ (hts _ List.mem_cons_self) hlen
  | jcc t cond =>
    rw [hc] at hts
    by_cases hβ : β cond = true
    · simp only [hβ, if_true]
      exact follow_target hs β _ (hts t List.mem_cons_self) hlen
    · simp only [hβ, if_false]
      exact follow_target hs β _ (hts d.next (List.mem_cons_of_mem _ List.mem_cons_self)) hlen

theorem isBlockEnd_of_leads (hd : d ∈ ds) (h : d.ctrl = .fall → d.next ∈ leaders ds) :
    isBlockEnd (offsets ds) (leaders ds) d := by
  by_cases hc : d.ctrl = .fall
  · exact isBlockEnd_iff.mpr (.inr (h hc))
  · exact isBlockEnd_of_branch hd hc

theorem agrees_of_straight (hs : Sorted ds) (hclosed : Closed ds) (h : Straight ds) : Agrees ds := by
  rintro β d st ⟨p, q, hds, rfl⟩
  have hd := mem_of_split hds
  have hstraight := h.1 p d q hds
  cases q with
  | nil => exact agreesAt_of_end hs hclosed h.2 hds rfl (isBlockEnd_of_leads hd hstraight) β
  | cons s q =>
    have hrest := inBlock_cons hs hds
    by_cases hleader : s.offset ∈ leaders ds
    · rw [if_pos hleader] at hrest
      apply agreesAt_of_end hs hclosed h.2 hds hrest (isBlockEnd_of_leads hd _) β
      intro hc
      rcases hstraight with ⟨-, hnext⟩ | ⟨-, hfall⟩
      · rwa [hnext]
      · exact hfall hc
    · rw [if_neg hleader] at hrest
      rcases hstraight with ⟨hc, hnext⟩ | ⟨hmem, -⟩
      · unfold AgreesAt fetchNext
        rw [hrest, blockStep_cons, hc, hnext, fetch_eq hs (by rw [hds]; simp)]
        rfl
      · exact absurd hmem hleader

theorem fall_of_agrees (hs : Sorted ds) (hclosed : Closed ds) (h : Agrees ds) (hds : ds = p ++ d :: s :: q)
    (hleader : s.offset ∉ leaders ds) : d.ctrl = .fall ∧ d.next = s.offset := by
  have hd := mem_of_split hds
  have hrest := inBlock_cons hs hds
  rw [if_neg hleader] at hrest
  have hagree (β : RegId → Bool) : fetchNext (fun _ => β) ds [] d = some s := by
    have hat := h β d _ ⟨p, s :: q, hds, rfl⟩
    unfold AgreesAt at hat
    rw [hrest, blockStep_cons] at hat
    exact hat.symm
  -- a target of a branch is a leader
  have hbranch (t : Nat) (hc : d.ctrl ≠ .fall) (ht : t ∈ d.targets) (hfetch : fetch ds t = some s) : False := by
    obtain ⟨-, hoff⟩ := fetch_some hfetch
    exact hleader (mem_leaders.mpr ⟨marks_mem_marked hd (mem_marks hc (.inl (hoff ▸ ht))), hoff ▸ hclosed d hd t ht⟩)
  unfold fetchNext at hagree
  cases hc : d.ctrl with
  | fall =>
    simp only [hc] at hagree
    exact ⟨rfl, (fetch_some (hagree fun _ => true)).2.symm⟩
  | ret =>
    simp only [hc] at hagree
    cases hagree fun _ => true
  | jmp t =>
    simp only [hc] at hagree
    exact (hbranch t (by simp [hc]) (by simp [DecodedInsn.targets, hc]) (hagree fun _ => true)).elim
  | jcc t cond =>
    simp only [hc] at hagree
    exact (hbranch t (by simp [hc]) (by simp [DecodedInsn.targets, hc]) (hagree fun _ => true)).elim

theorem lastTerm_before (hs : Sorted ds) (hclosed : Closed ds) (h : Agrees ds) (hds : ds = p ++ d :: q) :
    lastTerm ds (inBlock ds p (place ds d.offset)) = .ret := by
  have hno : ∀ e ∈ inBlock ds p (place ds d.offset), ¬isBlockEnd (offsets ds) (leaders ds) e := by
    intro e he
    obtain ⟨hp, hplace⟩ := List.mem_filter.mp he
    have hplace' : place ds e.offset = place ds d.offset := by simpa using hplace
    obtain ⟨p1, p2, hp12⟩ := List.append_of_mem hp
    obtain ⟨s, q', hsplit, hle⟩ : ∃ s q', ds = p1 ++ e :: s :: q' ∧ s.offset ≤ d.offset := by
      cases p2 with
      | nil => exact ⟨d, q, by rw [hds, hp12]; simp, le_rfl⟩
      | cons s p2 =>
        refine ⟨s, p2 ++ d :: q, by rw [hds, hp12]; simp, ?_⟩
        exact ((hs.split hds).1 s (by rw [hp12]; simp)).le
    have hleader : s.offset ∉ leaders ds := by
      intro hmem
      have hlt := place_lt hs (mem_of_split hsplit) ((hs.split hsplit).2 s List.mem_cons_self) hmem
      have hmono := place_mono ds hle
      omega
    obtain ⟨-, hnext⟩ := fall_of_agrees hs hclosed h hsplit hleader
    rw [isBlockEnd_iff, hnext]
    rintro (hmem | hmem)
    · exact hmem (List.mem_map_of_mem (by rw [hsplit]; simp))
    · exact hleader hmem
  have hfold (seg : List (DecodedInsn ι)) (hseg : ∀ e ∈ seg, ¬isBlockEnd (offsets ds) (leaders ds) e) :
      lastTerm ds seg = .ret := by
    induction seg with
    | nil => rfl
    | cons e seg ih =>
      rw [lastTerm, List.foldl_cons, if_neg (hseg e List.mem_cons_self)]
      exact ih fun x hx => hseg x (List.mem_cons_of_mem _ hx)
  exact hfold _ hno

/-- Reached along the targets of the instructions, as the decoder reaches what it decodes. -/
inductive Reach (ds : List (DecodedInsn ι)) : DecodedInsn ι → Prop
  | first {d : DecodedInsn ι} (h : ds.head? = some d) : Reach ds d
  | step {d e : DecodedInsn ι} {t : Nat} (h : Reach ds d) (ht : t ∈ d.targets) (he : fetch ds t = some e) : Reach ds e

theorem Reach.mem (h : Reach ds d) : d ∈ ds := by
  cases h with
  | first h => exact List.mem_of_head? h
  | step h ht he => exact (fetch_some he).1

theorem exists_outcome {t : Nat} (ht : t ∈ d.targets) (he : fetch ds t = some e) :
    ∃ β : RegId → Bool, fetchNext (fun _ => β) ds [] d = some e := by
  unfold DecodedInsn.targets at ht
  unfold fetchNext
  cases hc : d.ctrl with
  | ret => simp [hc] at ht
  | fall =>
    obtain rfl : t = d.next := by simpa [hc] using ht
    exact ⟨fun _ => true, he⟩
  | jmp t' =>
    obtain rfl : t = t' := by simpa [hc] using ht
    exact ⟨fun _ => true, he⟩
  | jcc t' cond =>
    rw [hc] at ht
    rcases List.mem_cons.mp ht with rfl | ht
    · exact ⟨fun _ => true, he⟩
    · obtain rfl := List.mem_singleton.mp ht
      exact ⟨fun _ => false, he⟩

theorem length_leaders_of_agrees (hs : Sorted ds) (hclosed : Closed ds) (hreach : ∀ d ∈ ds, Reach ds d)
    (h : Agrees ds) : (leaders ds).length ≤ 2 ^ 32 := by
  by_contra hlong
  obtain ⟨o, hget⟩ : ∃ o, (leaders ds)[2 ^ 32]? = some o := ⟨_, List.getElem?_eq_getElem (by omega)⟩
  obtain ⟨e, he, hoff, hfetch⟩ := exists_fetch (mem_leaders.mp (List.mem_of_getElem? hget)).2 hs
  rw [← hoff] at hget hfetch
  have hleader := List.mem_of_getElem? hget
  have hplace := place_leader hget
  -- the instruction of the first block
  have hzero : 0 < (leaders ds).length := by omega
  have hget0 : (leaders ds)[0]? = some (leaders ds)[0] := List.getElem?_eq_getElem hzero
  obtain ⟨x, hx, hxoff, -⟩ := exists_fetch (mem_leaders.mp (List.mem_of_getElem? hget0)).2 hs
  rw [← hxoff] at hget0
  have hxe : x ≠ e := by
    rintro rfl
    have hplace0 := place_leader hget0
    omega
  cases hreach e he with
  | first hfirst =>
    have hle := head_le hs hx hfirst
    have hlt := place_leader hget0
    have hmono := place_mono ds hle
    omega
  | @step d _ t hd ht hte =>
    obtain ⟨β, hnext⟩ := exists_outcome ht hte
    obtain ⟨p, q, hds⟩ := List.append_of_mem hd.mem
    have hagree := h β d _ ⟨p, q, hds, rfl⟩
    have hto : t = e.offset := (fetch_some hte).2.symm
    have hend : isBlockEnd (offsets ds) (leaders ds) d := by
      refine isBlockEnd_of_leads hd.mem fun hc => ?_
      have hnext' : t = d.next := by simpa [DecodedInsn.targets, hc] using ht
      rw [← hnext', hto]
      exact hleader
    unfold AgreesAt at hagree
    rw [hnext] at hagree
    cases hrest : inBlock ds q (place ds d.offset) with
    | cons s rest =>
      -- what follows in the block is no leader
      cases q with
      | nil => cases hrest
      | cons s' q =>
        rw [hrest, blockStep_cons] at hagree
        rw [inBlock_cons hs hds] at hrest
        split_ifs at hrest with hs'
        obtain ⟨rfl, -⟩ := List.cons.inj hrest
        obtain rfl : s' = e := Option.some.inj hagree
        exact hs' hleader
    | nil =>
      have hidx : (leaders ds).idxOf e.offset = 2 ^ 32 := by
        rw [← place_leader (idxOf_leader hleader), hplace]
      have hwrap (fuel : Nat) : (follow (fun _ => β) (blocksAfter ds ds) [] fuel ((leaders ds).idxOf e.offset % 2 ^ 32,
          ((blocksAfter ds ds)[(leaders ds).idxOf e.offset % 2 ^ 32]?).elim [] BasicBlock.insts)).map Prod.fst =
            some x := by
        obtain ⟨rest, hfollow, -⟩ := follow_enter (fun _ => β) [] hs fuel hx hget0
        rw [hidx, Nat.mod_self, hfollow]
        rfl
      have hwrong {fuel o : Nat} (hfetch : fetch ds o = some e)
          (hfollow : (follow (fun _ => β) (blocksAfter ds ds) [] fuel ((leaders ds).idxOf o % 2 ^ 32,
            ((blocksAfter ds ds)[(leaders ds).idxOf o % 2 ^ 32]?).elim [] BasicBlock.insts)).map Prod.fst = some e) :
          False := by
        obtain rfl := (fetch_some hfetch).2
        exact hxe (Option.some.inj ((hwrap fuel).symm.trans hfollow))
      rw [hrest, blockStep_nil _ _ (place_lt_length hs hd.mem), lastTerm_of_last hds hrest, if_pos hend] at hagree
      unfold terminator at hagree
      unfold fetchNext at hnext
      cases hc : d.ctrl with
      | ret =>
        rw [hc] at hnext
        cases hnext
      | fall =>
        simp only [hc] at hnext hagree
        exact hwrong hnext hagree
      | jmp t' =>
        simp only [hc] at hnext hagree
        exact hwrong hnext hagree
      | jcc t' cond =>
        by_cases hβ : β cond = true
        · simp only [hc, hβ, if_true] at hnext hagree
          exact hwrong hnext hagree
        · simp only [hc, hβ, if_false] at hnext hagree
          exact hwrong hnext hagree

theorem straight_of_agrees (hs : Sorted ds) (hclosed : Closed ds) (hreach : ∀ d ∈ ds, Reach ds d)
    (h : Agrees ds) : Straight ds := by
  refine ⟨fun p d q hds => ?_, length_leaders_of_agrees hs hclosed hreach h⟩
  have hd := mem_of_split hds
  -- a fall through that ends a block goes to a leader
  have hfall (hrest : inBlock ds q (place ds d.offset) = []) (hc : d.ctrl = .fall) : d.next ∈ leaders ds := by
    by_contra hnext
    have hmem := hclosed d hd d.next (by simp [DecodedInsn.targets, hc])
    have hend : ¬isBlockEnd (offsets ds) (leaders ds) d := by
      rw [isBlockEnd_iff]
      rintro (hno | hleader)
      · exact hno hmem
      · exact hnext hleader
    obtain ⟨e, -, -, hfetch⟩ := exists_fetch hmem hs
    have hagree := h (fun _ => true) d _ ⟨p, q, hds, rfl⟩
    unfold AgreesAt fetchNext at hagree
    rw [hrest, blockStep_nil _ _ (place_lt_length hs hd), lastTerm_of_last hds hrest, if_neg hend,
      lastTerm_before hs hclosed h hds, hc, hfetch] at hagree
    cases hagree
  cases q with
  | nil => exact hfall rfl
  | cons s q =>
    by_cases hleader : s.offset ∈ leaders ds
    · exact .inr ⟨hleader, hfall (by rw [inBlock_cons hs hds, if_pos hleader])⟩
    · exact .inl (fall_of_agrees hs hclosed h hds hleader)

end Straight

/-! ## Runs -/

section Runs

variable {ds : List (DecodedInsn ι)} {d : DecodedInsn ι} {σ τ α : Type}

/-- The state of a run that does not stop. -/
def iter (step : σ → List α → Option (α × σ)) : Nat → σ × List α → Option (σ × List α)
  | 0, x => some x
  | n + 1, x => (iter step n x).bind fun y => (step y.1 y.2).map fun r => (r.2, y.2 ++ [r.1])

theorem fetchNext_eq (outcome : Outcomes ι) (done : List (DecodedInsn ι)) :
    fetchNext outcome ds done d = fetchNext (fun _ => outcome done) ds [] d := rfl

theorem blockStep_eq (outcome : Outcomes ι) (g : List (BasicBlock (DecodedInsn ι))) (st : Nat × List (DecodedInsn ι))
    (done : List (DecodedInsn ι)) : blockStep outcome g st done = blockStep (fun _ => outcome done) g st [] := by
  have hfollow (fuel : Nat) (st : Nat × List (DecodedInsn ι)) :
      follow outcome g done fuel st = follow (fun _ => outcome done) g [] fuel st := by
    induction fuel generalizing st with
    | zero =>
      obtain ⟨i, rest⟩ := st
      cases rest <;> rfl
    | succ fuel ih =>
      obtain ⟨i, rest⟩ := st
      cases rest with
      | nil =>
        rw [follow, follow]
        simp only [ih]
      | cons d rest => rfl
  exact hfollow _ st

theorem run_of_iter {step : σ → List α → Option (α × σ)} {n m : Nat} {s s' : σ} {done done' : List α}
    (h : iter step n (s, done) = some (s', done')) :
    run step (n + m) s done = run step m s' done' ∧ done'.length = done.length + n := by
  induction n generalizing s' done' m with
  | zero =>
    obtain ⟨rfl, rfl⟩ := Prod.mk.inj (Option.some.inj h)
    exact ⟨by rw [Nat.zero_add], rfl⟩
  | succ n ih =>
    obtain ⟨⟨s1, done1⟩, hiter, hstep⟩ := Option.bind_eq_some_iff.mp h
    obtain ⟨⟨d, s2⟩, hone, heq⟩ := Option.map_eq_some_iff.mp hstep
    obtain ⟨rfl, rfl⟩ := Prod.mk.inj heq
    obtain ⟨hrun, hlen⟩ := ih (m := m + 1) hiter
    refine ⟨?_, by rw [List.length_append, hlen]; rfl⟩
    rw [Nat.add_assoc, Nat.add_comm 1 m, hrun, run, hone]

theorem iter_of_run {step : σ → List α → Option (α × σ)} {n : Nat} {s : σ} {done : List α}
    (h : (run step n s done).length = done.length + n) : ∃ s', iter step n (s, done) = some (s', run step n s done) := by
  have hshort (n : Nat) (s : σ) (done : List α) : (run step n s done).length ≤ done.length + n := by
    induction n generalizing s done with
    | zero => exact le_rfl
    | succ n ih =>
      rw [run]
      split
      · exact Nat.le_add_right _ _
      · next d s' _ =>
        have hle := ih s' (done ++ [d])
        rw [List.length_append, List.length_singleton] at hle
        omega
  have hfirst (n : Nat) (s s' : σ) (done : List α) (d : α) (hone : step s done = some (d, s')) :
      iter step (n + 1) (s, done) = iter step n (s', done ++ [d]) := by
    induction n with
    | zero =>
      change (step s done).map _ = _
      rw [hone]
      rfl
    | succ n ih => rw [iter, ih, iter]
  induction n generalizing s done with
  | zero => exact ⟨s, rfl⟩
  | succ n ih =>
    rw [run] at h ⊢
    cases hone : step s done with
    | none =>
      simp only [hone] at h
      omega
    | some r =>
      simp only [hone] at h ⊢
      rw [hfirst n s r.2 done r.1 hone]
      exact ih (by rw [h, List.length_append, List.length_singleton, Nat.add_assoc, Nat.add_comm 1 n])

theorem entry_eq (hs : Sorted ds) {first : DecodedInsn ι} (hfirst : ds.head? = some first) :
    ∃ rest, ((blocksAfter ds ds)[0]?).elim [] BasicBlock.insts = first :: rest ∧ After ds first (0, rest) := by
  have hd := List.mem_of_head? hfirst
  have hleader : first.offset ∈ leaders ds := by
    rw [mem_leaders]
    exact ⟨by simp [marked, hfirst], List.mem_map_of_mem hd⟩
  have hget := idxOf_leader hleader
  have hidx : (leaders ds).idxOf first.offset = 0 := by
    by_contra hne
    have hlt := (List.getElem?_eq_some_iff.mp hget).1
    have hget0 : (leaders ds)[0]? = some (leaders ds)[0] := List.getElem?_eq_getElem (by omega)
    obtain ⟨x, hx, hxoff, -⟩ := exists_fetch (mem_leaders.mp (List.mem_of_getElem? hget0)).2 hs
    rw [← hxoff] at hget0
    have hle := place_mono ds (head_le hs hx hfirst)
    rw [place_leader hget, place_leader hget0] at hle
    omega
  rw [hidx] at hget
  obtain ⟨rest, hbody, hafter⟩ := block_begin hs hget hd
  refine ⟨rest, ?_, hafter⟩
  rw [blocksAfter_get (List.getElem?_eq_some_iff.mp hget).1]
  exact hbody

theorem run_eq_of_agrees (hs : Sorted ds) (h : Agrees ds) (outcome : Outcomes ι) (n : Nat)
    (st : Nat × List (DecodedInsn ι)) (done : List (DecodedInsn ι)) (hafter : After ds d st) :
    run (fetchStep outcome ds) n (some d) done = run (blockStep outcome (blocksAfter ds ds)) n st done := by
  induction n generalizing d st done with
  | zero => rfl
  | succ n ih =>
    have hagree := h (outcome done) d st hafter
    unfold AgreesAt at hagree
    rw [← blockStep_eq, ← fetchNext_eq] at hagree
    have hfetch : fetchStep outcome ds (some d) done = (fetchNext outcome ds done d).map fun e => (e, some e) := rfl
    rw [run, run, hfetch, ← hagree]
    cases hstep : blockStep outcome (blocksAfter ds ds) st done with
    | none => rfl
    | some r => exact ih r.2 (done ++ [r.1]) (blockStep_after outcome done hs hafter hstep)

theorem sameRuns_of_agrees (hs : Sorted ds) (hne : ds ≠ []) (h : Agrees ds) : SameRuns ds (blocksAfter ds ds) 0 := by
  obtain ⟨first, hfirst⟩ : ∃ first, ds.head? = some first := ⟨ds.head hne, List.head?_eq_some_head hne⟩
  obtain ⟨rest, hentry, hafter⟩ := entry_eq hs hfirst
  intro outcome n
  rw [hentry]
  cases n with
  | zero => rfl
  | succ n =>
    have hfetch : fetchStep outcome ds none [] = some (first, some first) := by
      change (ds.head?).map _ = _
      rw [hfirst]
      rfl
    rw [run, run, hfetch, blockStep_cons]
    exact run_eq_of_agrees hs h outcome n (0, rest) [first] hafter

theorem Reach.exists_iter (h : Reach ds d) : ∃ (done : List (DecodedInsn ι)) (o : Outcomes ι), done ≠ [] ∧
    ∀ o' : Outcomes ι, (∀ x, x.length < done.length → o' x = o x) →
      iter (fetchStep o' ds) done.length (none, []) = some (some d, done) := by
  induction h with
  | @first d hfirst =>
    refine ⟨[d], fun _ _ => true, by simp, fun o' _ => ?_⟩
    change (fetchStep o' ds none []).map _ = _
    have hfetch : fetchStep o' ds none [] = (ds.head?).map fun e => (e, some e) := rfl
    rw [hfetch, hfirst]
    rfl
  | @step d e t hd ht he ih =>
    obtain ⟨done, o, -, hiter⟩ := ih
    obtain ⟨β, hnext⟩ := exists_outcome ht he
    refine ⟨done ++ [e], fun x => if x.length < done.length then o x else β, by simp, fun o' ho' => ?_⟩
    have hbefore : ∀ x, x.length < done.length → o' x = o x := by
      intro x hx
      exact (ho' x (by rw [List.length_append]; omega)).trans (if_pos hx)
    have hat : o' done = β := by
      exact (ho' done (by rw [List.length_append, List.length_singleton]; omega)).trans (if_neg (lt_irrefl _))
    have hfetch : fetchStep o' ds (some d) done = (fetchNext o' ds done d).map fun e => (e, some e) := rfl
    rw [List.length_append, List.length_singleton, iter, hiter o' hbefore]
    change (fetchStep o' ds (some d) done).map _ = _
    rw [hfetch, fetchNext_eq, hat, hnext]
    rfl

theorem after_of_iter (hs : Sorted ds) {first : DecodedInsn ι} (hfirst : ds.head? = some first) (outcome : Outcomes ι)
    (n : Nat) {st : Nat × List (DecodedInsn ι)} {done : List (DecodedInsn ι)}
    (h : iter (blockStep outcome (blocksAfter ds ds)) (n + 1)
      ((0, ((blocksAfter ds ds)[0]?).elim [] BasicBlock.insts), []) = some (st, done)) :
    ∃ d, After ds d st ∧ done.getLast? = some d := by
  obtain ⟨rest, hentry, hafter⟩ := entry_eq hs hfirst
  rw [hentry] at h
  induction n generalizing st done with
  | zero =>
    have hstep : (blockStep outcome (blocksAfter ds ds) (0, first :: rest) []).map (fun r => (r.2, [] ++ [r.1])) =
        some (st, done) := h
    rw [blockStep_cons] at hstep
    obtain ⟨rfl, rfl⟩ := Prod.mk.inj (Option.some.inj hstep)
    exact ⟨first, hafter, rfl⟩
  | succ n ih =>
    obtain ⟨⟨st1, done1⟩, hiter, hstep⟩ := Option.bind_eq_some_iff.mp h
    obtain ⟨⟨e, st2⟩, hone, heq⟩ := Option.map_eq_some_iff.mp hstep
    obtain ⟨rfl, rfl⟩ := Prod.mk.inj heq
    obtain ⟨d, hd, -⟩ := ih hiter
    exact ⟨e, blockStep_after outcome done1 hs hd hone, by simp⟩

theorem last_of_iter (outcome : Outcomes ι) {n : Nat} {done : List (DecodedInsn ι)}
    (h : iter (fetchStep outcome ds) (n + 1) (none, []) = some (some d, done)) : done.getLast? = some d := by
  obtain ⟨⟨s1, done1⟩, -, hstep⟩ := Option.bind_eq_some_iff.mp h
  obtain ⟨⟨e, s2⟩, hone, heq⟩ := Option.map_eq_some_iff.mp hstep
  obtain ⟨hs2, rfl⟩ := Prod.mk.inj heq
  obtain ⟨e', -, he'⟩ := Option.map_eq_some_iff.mp hone
  obtain ⟨rfl, rfl⟩ := Prod.mk.inj he'
  obtain rfl := Option.some.inj hs2
  simp

theorem After.unique (hs : Sorted ds) {st st' : Nat × List (DecodedInsn ι)} (h : After ds d st) (h' : After ds d st') :
    st = st' := by
  have hrest {p q : List (DecodedInsn ι)} (hds : ds = p ++ d :: q) : q = ds.filter (d.offset < ·.offset) := by
    obtain ⟨hbefore, hafter⟩ := hs.split hds
    have hp : p.filter (d.offset < ·.offset) = [] := by
      rw [List.filter_eq_nil_iff]
      intro e he
      have hlt := hbefore e he
      simp
      omega
    have hq : q.filter (d.offset < ·.offset) = q := by
      rw [List.filter_eq_self]
      intro e he
      simpa using hafter e he
    conv_rhs => rw [hds, List.filter_append, hp, List.nil_append, List.filter_cons_of_neg (by simp), hq]
  obtain ⟨p, q, hds, rfl⟩ := h
  obtain ⟨p', q', hds', rfl⟩ := h'
  rw [hrest hds, hrest hds']

/-- Where the instructions that are executed are the same, every instruction is followed by the same one. -/
theorem agrees_of_sameRuns (hs : Sorted ds) (hreach : ∀ d ∈ ds, Reach ds d) (h : SameRuns ds (blocksAfter ds ds) 0) :
    Agrees ds := by
  intro β d st hafter
  obtain ⟨p, q, hds, hst⟩ := hafter
  have hd := mem_of_split hds
  obtain ⟨first, hfirst⟩ : ∃ first, ds.head? = some first :=
    ⟨ds.head (List.ne_nil_of_mem hd), List.head?_eq_some_head _⟩
  obtain ⟨done, o, hne, hiter⟩ := (hreach d hd).exists_iter
  obtain ⟨n, hn⟩ := Nat.exists_eq_succ_of_ne_zero (mt List.length_eq_zero_iff.mp hne)
  let outcome : Outcomes ι := fun x => if x.length < done.length then o x else β
  have hfetch := hiter outcome fun x hx => if_pos hx
  have hat : outcome done = β := if_neg (lt_irrefl _)
  -- the blocks get to the same place
  have hblocks := h outcome done.length
  rw [← Nat.add_zero done.length, (run_of_iter hfetch).1] at hblocks
  change done = _ at hblocks
  obtain ⟨st1, hiter1⟩ := @iter_of_run _ _ (blockStep outcome (blocksAfter ds ds)) done.length
    (0, ((blocksAfter ds ds)[0]?).elim [] BasicBlock.insts) []
    (by rw [Nat.add_zero] at hblocks; rw [← hblocks]; exact (Nat.zero_add _).symm)
  rw [Nat.add_zero] at hblocks
  rw [← hblocks] at hiter1
  have hlast := hfetch
  rw [hn] at hlast
  have hiter1' := hiter1
  rw [hn] at hiter1'
  obtain ⟨d', hd', hlast'⟩ := after_of_iter hs hfirst outcome n hiter1'
  obtain rfl := Option.some.inj (hlast'.symm.trans (last_of_iter outcome hlast))
  obtain rfl := hd'.unique hs ⟨p, q, hds, hst⟩
  -- and on to the same instruction
  have hnext := h outcome (done.length + 1)
  rw [(run_of_iter hfetch).1, (run_of_iter hiter1).1] at hnext
  unfold AgreesAt
  rw [← hat, ← blockStep_eq, ← fetchNext_eq]
  have hstep : fetchStep outcome ds (some d') done = (fetchNext outcome ds done d').map fun e => (e, some e) := rfl
  rw [run, run, hstep] at hnext
  cases hf : fetchNext outcome ds done d' with
  | none =>
    cases hb : blockStep outcome (blocksAfter ds ds) st1 done with
    | none => rfl
    | some r =>
      rw [hf, hb] at hnext
      have hlen := congrArg List.length hnext
      change done.length = (done ++ [r.1]).length at hlen
      rw [List.length_append, List.length_singleton] at hlen
      omega
  | some e =>
    cases hb : blockStep outcome (blocksAfter ds ds) st1 done with
    | none =>
      rw [hf, hb] at hnext
      have hlen := congrArg List.length hnext
      change (done ++ [e]).length = done.length at hlen
      rw [List.length_append, List.length_singleton] at hlen
      omega
    | some r =>
      rw [hf, hb] at hnext
      change done ++ [e] = done ++ [r.1] at hnext
      rw [List.singleton_inj.mp (List.append_cancel_left hnext)]
      rfl

end Runs

/-- Assembly fails exactly where a target is no instruction, and otherwise keeps control flow if and only if the list is
straight. -/
theorem buildGraph_sound (ds : List (DecodedInsn ι)) (hs : Sorted ds) :
    ((∃ e, buildGraph ds = .error e) ↔ ¬Closed ds) ∧
      ∀ g entry, buildGraph ds = .ok (g, entry) → (Straight ds → SameRuns ds g entry) ∧
        ((∀ d ∈ ds, Reach ds d) → SameRuns ds g entry → Straight ds) := by
  by_cases hne : ds = []
  · subst hne
    have hclosed : Closed ([] : List (DecodedInsn ι)) := fun d hd => by cases hd
    refine ⟨⟨fun ⟨_, he⟩ => (nomatch he), fun hno => absurd hclosed hno⟩, fun g entry hg => ?_⟩
    obtain ⟨rfl, rfl⟩ := Prod.mk.inj (Except.ok.inj hg)
    refine ⟨fun _ outcome n => ?_, fun _ _ => ⟨fun p d q hds => by simp at hds, Nat.zero_le _⟩⟩
    cases n <;> rfl
  · rcases buildGraph_eq hs hne with ⟨hok, hclosed⟩ | ⟨⟨e, he⟩, hno⟩
    · refine ⟨⟨fun ⟨_, he⟩ => (nomatch hok.symm.trans he), fun hno => absurd hclosed hno⟩, fun g entry hg => ?_⟩
      obtain ⟨rfl, rfl⟩ := Prod.mk.inj (Except.ok.inj (hok.symm.trans hg))
      exact ⟨fun h => sameRuns_of_agrees hs hne (agrees_of_straight hs hclosed h),
        fun hreach h => straight_of_agrees hs hclosed hreach (agrees_of_sameRuns hs hreach h)⟩
    · refine ⟨⟨fun _ => hno, fun _ => ⟨e, he⟩⟩, fun g entry hg => ?_⟩
      rw [he] at hg
      cases hg

/-- Data in the list's middle: a jump back, and a jump over the gap. -/
def gapped : List (DecodedInsn Nat) := [⟨0, 5, [0], .fall⟩, ⟨5, 7, [1], .jcc 5 0⟩, ⟨7, 9, [2], .jmp 12⟩, ⟨12, 13, [3], .ret⟩]

theorem buildGraph_sound_gapped : ∃ g, buildGraph gapped = .ok (g, 0) ∧ SameRuns gapped g 0 := by
  refine ⟨_, rfl, ((buildGraph_sound gapped (by unfold Sorted; decide)).2 _ _ rfl).1 ⟨?_, by decide⟩⟩
  rw [straight_iff]
  decide

end Csolver.Asm
