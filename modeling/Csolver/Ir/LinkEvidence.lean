import Csolver.Ir.Link

/-!
# Field evidence and the order of the observations

What `merge_field_evidence` makes of the observations of one field. The size is found in any order;
what is left to the order is the alignment, which is the one of the first observation or of the last
whose struct name did not fit, and an observation of size 0 that comes first and is kept as it is.
-/

namespace Csolver

open Lib

namespace Evidence

/-- The marker of conflicting evidence. -/
def poison : Evidence := ⟨0, 0, ""⟩

/-- Two observations give different names. -/
def Ambiguous (l : List Evidence) : Prop := ∃ o ∈ l, ∃ p ∈ l, o.pointee ≠ p.pointee

/-- At most one name is given, by some of the observations. -/
def Uniform (l : List Evidence) : Prop :=
  ∀ o ∈ l, ∀ p ∈ l, o.pointee ≠ "" → p.pointee ≠ "" → o.pointee = p.pointee

/-- The observations can be folded in any order: one of size 0 is the marker itself unless there is no
    other observation, and where all sizes agree so do the alignments, those of the observations
    without a name apart if two different names are given. -/
structure Agree (l : List Evidence) : Prop where
  sizeless : ∀ o ∈ l, o.size = 0 → o = poison ∨ ∀ p ∈ l, p = o
  aligned : (∀ o ∈ l, ∀ p ∈ l, o.size = p.size ∧ o.size ≠ 0) → ∀ o ∈ l, ∀ p ∈ l,
    o.pointee ≠ "" ∧ p.pointee ≠ "" ∨ Uniform l → o.align = p.align

/-- What the folded evidence `r` says of the observations. -/
structure Summary (l : List Evidence) (r : Evidence) : Prop where
  sized : r.size ≠ 0 → ∀ o ∈ l, o.size = r.size
  sizeless : r.size = 0 → l.head? = some r ∨ r = poison ∧ ∃ o ∈ l, o.size ≠ 0
  conflict : r.size = 0 → ∃ o ∈ l, ∃ p ∈ l, o.size = p.size → o.size = 0
  named : r.size ≠ 0 → (∀ o ∈ l, o.pointee = r.pointee) ∨ r.pointee = "" ∧ Ambiguous l
  aligned : r.size ≠ 0 → ∃ o ∈ l, o.align = r.align
  aligned_named : r.size ≠ 0 → ¬Uniform l → ∃ o ∈ l, o.pointee ≠ "" ∧ o.align = r.align

theorem summary_single (e : Evidence) : Summary [e] e := by
  have hmem {o : Evidence} (ho : o ∈ [e]) : o = e := List.mem_singleton.mp ho
  refine ⟨fun _ o ho => by rw [hmem ho], fun _ => .inl rfl, fun h => ?_, fun _ => .inl ?_,
    fun _ => ⟨e, List.mem_singleton_self e, rfl⟩, fun _ hu => absurd ?_ hu⟩
  · exact ⟨e, List.mem_singleton_self e, e, List.mem_singleton_self e, fun _ => h⟩
  · exact fun o ho => by rw [hmem ho]
  · exact fun o ho p hp _ _ => by rw [hmem ho, hmem hp]

theorem Summary.snoc {l : List Evidence} {r : Evidence} (h : Summary l r) (hne : l ≠ []) (e : Evidence) :
    Summary (l ++ [e]) (mergeFieldEvidence (some r) e) := by
  have he : e ∈ l ++ [e] := List.mem_append_right l (List.mem_singleton_self e)
  have hl {o : Evidence} (ho : o ∈ l) : o ∈ l ++ [e] := List.mem_append_left _ ho
  have hcases {o : Evidence} (ho : o ∈ l ++ [e]) : o ∈ l ∨ o = e := by
    simpa using ho
  obtain ⟨first, hfirst⟩ := List.exists_mem_of_ne_nil l hne
  have hhead : (l ++ [e]).head? = l.head? := by
    cases l with
    | nil => exact absurd rfl hne
    | cons a l => rfl
  rw [mergeFieldEvidence]
  by_cases hr : r.size = 0
  · -- The marker, or a first observation of size 0, stays.
    rw [if_pos hr]
    refine ⟨fun h0 => absurd hr h0, fun _ => ?_, fun _ => ?_, fun h0 => absurd hr h0,
      fun h0 => absurd hr h0, fun h0 => absurd hr h0⟩
    · rcases h.sizeless hr with hf | ⟨hp, o, ho, hs⟩
      · exact .inl (hhead.trans hf)
      · exact .inr ⟨hp, o, hl ho, hs⟩
    · obtain ⟨o, ho, p, hp, hop⟩ := h.conflict hr
      exact ⟨o, hl ho, p, hl hp, hop⟩
  rw [if_neg hr]
  have hsized := h.sized hr
  by_cases hs : r.size ≠ e.size ∨ e.size = 0
  · rw [if_pos hs]
    refine ⟨fun h0 => absurd rfl h0, fun _ => .inr ⟨rfl, first, hl hfirst, ?_⟩,
      fun _ => ⟨e, he, first, hl hfirst, fun heq => ?_⟩, fun h0 => absurd rfl h0,
      fun h0 => absurd rfl h0, fun h0 => absurd rfl h0⟩
    · rw [hsized first hfirst]
      exact hr
    · rw [hsized first hfirst] at heq
      exact hs.resolve_left fun hne => hne heq.symm
  rw [if_neg hs]
  obtain ⟨hse, he0⟩ := not_or.mp hs
  have hse : r.size = e.size := not_not.mp hse
  have hall : ∀ o ∈ l ++ [e], o.size = r.size := by
    intro o ho
    rcases hcases ho with ho | rfl
    · exact hsized o ho
    · exact hse.symm
  by_cases hn : r.pointee = e.pointee
  · rw [if_neg (not_not.mpr hn)]
    refine ⟨fun _ => hall, fun h0 => absurd h0 hr, fun h0 => absurd h0 hr, fun _ => ?_, fun _ => ?_,
      fun _ hu => ?_⟩
    · rcases h.named hr with hnames | ⟨hempty, o, ho, p, hp, hop⟩
      · refine .inl fun o ho => ?_
        rcases hcases ho with ho | rfl
        · exact hnames o ho
        · exact hn.symm
      · exact .inr ⟨hempty, o, hl ho, p, hl hp, hop⟩
    · obtain ⟨o, ho, ha⟩ := h.aligned hr
      exact ⟨o, hl ho, ha⟩
    · -- Two names are given before `e`: otherwise `e` gives one of them, and that is the name so far.
      have hul : ¬Uniform l := by
        intro hul
        refine hu fun o ho p hp hone hpne => ?_
        rcases h.named hr with hnames | ⟨hempty, -⟩
        · have hname {q : Evidence} (hq : q ∈ l ++ [e]) : q.pointee = r.pointee := by
            rcases hcases hq with hq | rfl
            · exact hnames q hq
            · exact hn.symm
          rw [hname ho, hname hp]
        · have hname {q : Evidence} (hq : q ∈ l ++ [e]) (hqne : q.pointee ≠ "") : q ∈ l := by
            rcases hcases hq with hq | rfl
            · exact hq
            · exact absurd (hn.symm.trans hempty) hqne
          exact hul o (hname ho hone) p (hname hp hpne) hone hpne
      obtain ⟨o, ho, hone, ha⟩ := h.aligned_named hr hul
      exact ⟨o, hl ho, hone, ha⟩
  · rw [if_pos hn]
    refine ⟨fun _ o ho => (hall o ho).trans hse, fun h0 => absurd h0 he0, fun h0 => absurd h0 he0,
      fun _ => .inr ⟨rfl, ?_⟩, fun _ => ⟨e, he, rfl⟩, fun _ hu => ?_⟩
    · rcases h.named hr with hnames | ⟨-, o, ho, p, hp, hop⟩
      · refine ⟨first, hl hfirst, e, he, fun heq => hn ?_⟩
        rw [← heq, hnames first hfirst]
      · exact ⟨o, hl ho, p, hl hp, hop⟩
    · -- `e` has a name: otherwise the name so far is the only one that is given.
      refine ⟨e, he, fun hempty => hu fun o ho p hp hone hpne => ?_, rfl⟩
      have hname {q : Evidence} (hq : q ∈ l ++ [e]) (hqne : q.pointee ≠ "") : q.pointee = r.pointee := by
        rcases hcases hq with hq | rfl
        · rcases h.named hr with hnames | ⟨hrempty, -⟩
          · exact hnames q hq
          · exact absurd (hrempty.trans hempty.symm) hn
        · exact absurd hempty hqne
      rw [hname ho hone, hname hp hpne]

theorem mergeValues_snoc (l : List Evidence) (e : Evidence) :
    mergeValues mergeFieldEvidence (l ++ [e]) =
      some (mergeFieldEvidence (mergeValues mergeFieldEvidence l) e) := by
  rw [mergeValues, List.foldl_append]
  rfl

/-- **The folded evidence summarises the observations.** -/
theorem exists_summary {l : List Evidence} (hne : l ≠ []) :
    ∃ r, mergeValues mergeFieldEvidence l = some r ∧ Summary l r := by
  induction l using List.reverseRecOn with
  | nil => exact absurd rfl hne
  | append_singleton l e ih =>
    by_cases hl : l = []
    · subst hl
      exact ⟨e, rfl, summary_single e⟩
    · obtain ⟨r, hr, hsum⟩ := ih hl
      rw [mergeValues_snoc, hr]
      exact ⟨_, rfl, hsum.snoc hl e⟩

theorem Summary.unique {l l' : List Evidence} {r r' : Evidence} (h : Summary l r) (h' : Summary l' r')
    (hmem : ∀ o, o ∈ l' ↔ o ∈ l) (hagree : Agree l) (hne : l ≠ []) : r' = r := by
  obtain ⟨first, hfirst⟩ := List.exists_mem_of_ne_nil l hne
  by_cases hr : r.size = 0
  · have hr' : r'.size = 0 := by
      by_contra hr'
      obtain ⟨o, ho, p, hp, hop⟩ := h.conflict hr
      have hso := h'.sized hr' o ((hmem o).mpr ho)
      have hsp := h'.sized hr' p ((hmem p).mpr hp)
      exact hr' (hso.symm.trans (hop (hso.trans hsp.symm)))
    have hkept {s : Evidence} (hs : s.size = 0) (hsum : s ∈ l ∨ s = poison ∧ ∃ o ∈ l, o.size ≠ 0) :
        s = poison ∨ s ∈ l ∧ ∀ p ∈ l, p = s := by
      rcases hsum with hin | ⟨hp, -⟩
      · exact (hagree.sizeless s hin hs).imp_right fun hall => ⟨hin, hall⟩
      · exact .inl hp
    have hsum : r ∈ l ∨ r = poison ∧ ∃ o ∈ l, o.size ≠ 0 :=
      (h.sizeless hr).imp_left List.mem_of_head?
    have hsum' : r' ∈ l ∨ r' = poison ∧ ∃ o ∈ l, o.size ≠ 0 := by
      rcases h'.sizeless hr' with hin | ⟨hp, o, ho, hs⟩
      · exact .inl ((hmem _).mp (List.mem_of_head? hin))
      · exact .inr ⟨hp, o, (hmem o).mp ho, hs⟩
    -- If all observations are the same one of size 0, neither order ends in the marker.
    have hstuck {s t : Evidence} (hs : s.size = 0) (hall : ∀ p ∈ l, p = s)
        (ht : t ∈ l ∨ t = poison ∧ ∃ o ∈ l, o.size ≠ 0) : t = s := by
      rcases ht with ht | ⟨-, o, ho, hos⟩
      · exact hall t ht
      · rw [hall o ho] at hos
        exact absurd hs hos
    rcases hkept hr hsum with hp | ⟨-, hall⟩
    · rcases hkept hr' hsum' with hp' | ⟨-, hall'⟩
      · rw [hp, hp']
      · exact (hstuck hr' hall' hsum).symm
    · exact hstuck hr hall hsum'
  · have hsized := h.sized hr
    have hr' : r'.size ≠ 0 := by
      intro hr'
      obtain ⟨o, ho, p, hp, hop⟩ := h'.conflict hr'
      have hso := hsized o ((hmem o).mp ho)
      have hsp := hsized p ((hmem p).mp hp)
      exact hr (hso.symm.trans (hop (hso.trans hsp.symm)))
    have hsize : r'.size = r.size :=
      (h'.sized hr' first ((hmem _).mpr hfirst)).symm.trans (hsized first hfirst)
    have hname : r'.pointee = r.pointee := by
      rcases h.named hr with hn | ⟨he, o, ho, p, hp, hop⟩
      · rcases h'.named hr' with hn' | ⟨-, o, ho, p, hp, hop⟩
        · exact (hn' first ((hmem _).mpr hfirst)).symm.trans (hn first hfirst)
        · exact absurd ((hn o ((hmem o).mp ho)).trans (hn p ((hmem p).mp hp)).symm) hop
      · rcases h'.named hr' with hn' | ⟨he', -⟩
        · exact absurd ((hn' o ((hmem o).mpr ho)).trans (hn' p ((hmem p).mpr hp)).symm) hop
        · rw [he, he']
    have hsizes : ∀ o ∈ l, ∀ p ∈ l, o.size = p.size ∧ o.size ≠ 0 := fun o ho p hp =>
      ⟨(hsized o ho).trans (hsized p hp).symm, hsized o ho ▸ hr⟩
    have halign : r'.align = r.align := by
      by_cases hu : Uniform l
      · obtain ⟨o, ho, ha⟩ := h.aligned hr
        obtain ⟨o', ho', ha'⟩ := h'.aligned hr'
        rw [← ha, ← ha']
        exact hagree.aligned hsizes o' ((hmem _).mp ho') o ho (.inr hu)
      · have hu' : ¬Uniform l' := fun hu' => hu fun o ho p hp =>
          hu' o ((hmem o).mpr ho) p ((hmem p).mpr hp)
        obtain ⟨o, ho, hone, ha⟩ := h.aligned_named hr hu
        obtain ⟨o', ho', hone', ha'⟩ := h'.aligned_named hr' hu'
        rw [← ha, ← ha']
        exact hagree.aligned hsizes o' ((hmem _).mp ho') o ho (.inl ⟨hone', hone⟩)
    cases r
    cases r'
    simp_all

theorem Agree.perm {l l' : List Evidence} (h : Agree l) (hperm : l'.Perm l) :
    mergeValues mergeFieldEvidence l' = mergeValues mergeFieldEvidence l := by
  by_cases hne : l = []
  · subst hne
    rw [List.perm_nil.mp hperm]
  · have hne' : l' ≠ [] := fun he => hne (List.nil_perm.mp (he ▸ hperm))
    obtain ⟨r, hr, hsum⟩ := exists_summary hne
    obtain ⟨r', hr', hsum'⟩ := exists_summary hne'
    rw [hr, hr', hsum.unique hsum' (fun o => hperm.mem_iff) h hne]

/-! ### Orders that disagree -/

/-- Every order of the observations is folded to the same evidence. -/
def OrderFree (l : List Evidence) : Prop :=
  ∀ l' : List Evidence, l'.Perm l → mergeValues mergeFieldEvidence l' = mergeValues mergeFieldEvidence l

theorem mergeValues_sizeless_first {o : Evidence} (ho : o.size = 0) (l : List Evidence) :
    mergeValues mergeFieldEvidence (o :: l) = some o := by
  induction l using List.reverseRecOn with
  | nil => rfl
  | append_singleton l e ih =>
    rw [← List.cons_append, mergeValues_snoc, ih, mergeFieldEvidence, if_pos ho]

theorem mergeValues_append_same {r : Evidence} {l l' : List Evidence}
    (hl : mergeValues mergeFieldEvidence l = some r) (hr : r.size ≠ 0)
    (hsame : ∀ p ∈ l', p.size = r.size ∧ p.pointee = r.pointee) :
    mergeValues mergeFieldEvidence (l ++ l') = some r := by
  induction l' using List.reverseRecOn with
  | nil => rw [List.append_nil, hl]
  | append_singleton l' e ih =>
    obtain ⟨hs, hn⟩ := hsame e (by simp)
    rw [← List.append_assoc, mergeValues_snoc, ih fun p hp => hsame p (by simp [hp]), mergeFieldEvidence,
      if_neg hr, if_neg (by simp [hs, hr]), if_neg (by simp [hn])]

theorem OrderFree.sizeless {l : List Evidence} (h : OrderFree l) :
    ∀ o ∈ l, o.size = 0 → o = poison ∨ ∀ p ∈ l, p = o := by
  intro o ho hs
  by_contra hnot
  obtain ⟨hpoison, hother⟩ := not_or.mp hnot
  obtain ⟨p, hp, hpo⟩ : ∃ p ∈ l, p ≠ o := by simpa using hother
  have hfirst := h _ (List.perm_cons_erase ho).symm
  rw [mergeValues_sizeless_first hs] at hfirst
  have hsecond := (h _ (List.perm_cons_erase hp).symm).trans hfirst.symm
  by_cases hps : p.size = 0
  · rw [mergeValues_sizeless_first hps] at hsecond
    exact hpo (Option.some.inj hsecond)
  · obtain ⟨r, hr, hsum⟩ := exists_summary (List.cons_ne_nil p (l.erase p))
    rw [hr] at hsecond
    have hro := Option.some.inj hsecond
    rw [hro] at hsum
    rcases hsum.sizeless hs with hhead | ⟨hp', -⟩
    · exact hpo (Option.some.inj hhead)
    · exact hpoison hp'

theorem Summary.size_ne_zero {l : List Evidence} {r : Evidence} (h : Summary l r)
    (hsizes : ∀ o ∈ l, ∀ p ∈ l, o.size = p.size ∧ o.size ≠ 0) : r.size ≠ 0 := by
  intro hr
  obtain ⟨o, ho, p, hp, hop⟩ := h.conflict hr
  exact (hsizes o ho p hp).2 (hop (hsizes o ho p hp).1)

theorem mergeFieldEvidence_rename {r q : Evidence} (hr : r.size ≠ 0) (hs : r.size = q.size)
    (hn : r.pointee ≠ q.pointee) : mergeFieldEvidence (some r) q = ⟨q.size, q.align, ""⟩ := by
  rw [mergeFieldEvidence, if_neg hr, if_neg (by simp [← hs, hr]), if_pos hn]

/-- Where names differ, the alignment of any observation with a name can be the last one to count, and
    that of one without a name too unless two names are given. -/
theorem exists_order_aligned {l : List Evidence}
    (hsizes : ∀ o ∈ l, ∀ p ∈ l, o.size = p.size ∧ o.size ≠ 0) (hamb : Ambiguous l) {q : Evidence}
    (hq : q ∈ l) (hcond : q.pointee ≠ "" ∨ Uniform l) :
    ∃ l' : List Evidence, l'.Perm l ∧ ∃ r, mergeValues mergeFieldEvidence l' = some r ∧ r.align = q.align := by
  obtain ⟨o, ho, p, hp, hop⟩ := hamb
  by_cases hqn : q.pointee = ""
  · -- The named ones first, then `q`, which drops the name, then the others without a name.
    have hu := hcond.resolve_left (not_not.mpr hqn)
    have hperm : (l.filter (fun e => e.pointee ≠ "") ++
        (q :: (l.filter fun e => !decide (e.pointee ≠ "")).erase q)).Perm l := by
      have hqf : q ∈ l.filter fun e => !decide (e.pointee ≠ "") := by simp [hq, hqn]
      exact ((List.perm_cons_erase hqf).symm.append_left _).trans (List.filter_append_perm _ l)
    refine ⟨_, hperm, ?_⟩
    have hnamed : l.filter (fun e => e.pointee ≠ "") ≠ [] := by
      by_cases hoe : o.pointee = ""
      · exact List.ne_nil_of_mem (a := p) (by simp [hp, hoe ▸ hop.symm])
      · exact List.ne_nil_of_mem (a := o) (by simp [ho, hoe])
    have hsub {e : Evidence} (he : e ∈ l.filter fun e => e.pointee ≠ "") : e ∈ l ∧ e.pointee ≠ "" := by
      simpa using he
    obtain ⟨r, hr, hsum⟩ := exists_summary hnamed
    obtain ⟨e, he⟩ := List.exists_mem_of_ne_nil _ hnamed
    have hrs := hsum.size_ne_zero fun o ho p hp => hsizes o (hsub ho).1 p (hsub hp).1
    have hrn : r.pointee ≠ q.pointee := by
      rcases hsum.named hrs with hn | ⟨-, a, ha, b, hb, hab⟩
      · rw [← hn e he, hqn]
        exact (hsub he).2
      · exact absurd (hu a (hsub ha).1 b (hsub hb).1 (hsub ha).2 (hsub hb).2) hab
    have hsq : r.size = q.size := (hsum.sized hrs e he).symm.trans (hsizes e (hsub he).1 q hq).1
    have hstep : mergeValues mergeFieldEvidence (l.filter (fun e => e.pointee ≠ "") ++ [q]) =
        some ⟨q.size, q.align, ""⟩ := by
      rw [mergeValues_snoc, hr, mergeFieldEvidence_rename hrs hsq hrn]
    refine ⟨⟨q.size, q.align, ""⟩, ?_, rfl⟩
    rw [← List.singleton_append, ← List.append_assoc]
    refine mergeValues_append_same hstep (hsizes q hq q hq).2 fun e he => ?_
    have hel := List.mem_of_mem_erase he
    simp only [ne_eq, decide_not, Bool.not_not, List.mem_filter, decide_eq_true_eq] at hel
    exact ⟨(hsizes e hel.1 q hq).1, hel.2⟩
  · -- `q` last.
    have hperm : (l.erase q ++ [q]).Perm l :=
      (List.perm_append_singleton q _).trans (List.perm_cons_erase hq).symm
    refine ⟨_, hperm, ?_⟩
    have hmem {e : Evidence} (he : e ∈ l) : e ∈ l.erase q ∨ e = q := by
      simpa using hperm.mem_iff.mpr he
    have hne : l.erase q ≠ [] := by
      intro hnil
      rw [hnil] at hmem
      have hall {e : Evidence} (he : e ∈ l) : e = q := (hmem he).resolve_left List.not_mem_nil
      exact hop (by rw [hall ho, hall hp])
    obtain ⟨r, hr, hsum⟩ := exists_summary hne
    obtain ⟨e, he⟩ := List.exists_mem_of_ne_nil _ hne
    have hrs := hsum.size_ne_zero fun o ho p hp =>
      hsizes o (List.mem_of_mem_erase ho) p (List.mem_of_mem_erase hp)
    have hsq : r.size = q.size :=
      (hsum.sized hrs e he).symm.trans (hsizes e (List.mem_of_mem_erase he) q hq).1
    have hrn : r.pointee ≠ q.pointee := by
      intro heq
      rcases hsum.named hrs with hn | ⟨hempty, -⟩
      · have hname {e : Evidence} (he : e ∈ l) : e.pointee = q.pointee := by
          rcases hmem he with he | rfl
          · exact (hn e he).trans heq
          · rfl
        exact hop ((hname ho).trans (hname hp).symm)
      · exact hqn (heq.symm.trans hempty)
    rw [mergeValues_snoc, hr, mergeFieldEvidence_rename hrs hsq hrn]
    exact ⟨_, rfl, rfl⟩

/-- **Exactly the observations that agree can be folded in any order.** -/
theorem orderFree_iff (l : List Evidence) : OrderFree l ↔ Agree l := by
  refine ⟨fun h => ⟨h.sizeless, fun hsizes o ho p hp hcond => ?_⟩, fun h l' hl' => h.perm hl'⟩
  by_cases hamb : Ambiguous l
  · have hoc : o.pointee ≠ "" ∨ Uniform l := hcond.imp_left And.left
    have hpc : p.pointee ≠ "" ∨ Uniform l := hcond.imp_left And.right
    obtain ⟨l₁, hl₁, r₁, hr₁, ha₁⟩ := exists_order_aligned hsizes hamb ho hoc
    obtain ⟨l₂, hl₂, r₂, hr₂, ha₂⟩ := exists_order_aligned hsizes hamb hp hpc
    have heq := (h l₁ hl₁).trans (h l₂ hl₂).symm
    rw [hr₁, hr₂] at heq
    rw [← ha₁, ← ha₂, Option.some.inj heq]
  · have hname {a b : Evidence} (ha : a ∈ l) (hb : b ∈ l) : a.pointee = b.pointee := by
      by_contra hab
      exact hamb ⟨a, ha, b, hb, hab⟩
    have hfirst {a : Evidence} (ha : a ∈ l) : mergeValues mergeFieldEvidence l = some a := by
      rw [← h _ (List.perm_cons_erase ha).symm]
      refine mergeValues_append_same (l := [a]) rfl (hsizes a ha a ha).2 fun b hb => ?_
      have hbl := List.mem_of_mem_erase hb
      exact ⟨(hsizes b hbl a ha).1, hname hbl ha⟩
    have heq := (hfirst ho).symm.trans (hfirst hp)
    rw [Option.some.inj heq]

end Evidence

end Csolver
