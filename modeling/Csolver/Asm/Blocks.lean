import Mathlib.Algebra.Order.Ring.Int
import Mathlib.Data.List.Dedup
import Mathlib.Data.List.Sort

/-!
# Block assembly (`crates/asm/src/blocks.rs`, `x86.rs`)

The decoder gives a list of instructions in the order of their offsets, which is cut into basic blocks. A block keeps
its instructions whole here; what the code stores in it are their `insts`, one after the other.
-/

namespace Csolver.Asm

abbrev RegId := Nat

inductive Ctrl where
  | fall
  | ret
  | jmp (target : Nat)
  | jcc (target : Nat) (cond : RegId)
deriving DecidableEq, Repr

structure DecodedInsn (ι : Type) where
  offset : Nat
  next : Nat
  insts : List ι
  ctrl : Ctrl
deriving DecidableEq

inductive Terminator where
  | ret
  | br (target : Nat)
  | condBr (cond : RegId) (thenBlk elseBlk : Nat)
deriving DecidableEq, Repr

structure BasicBlock (α : Type) where
  insts : List α
  term : Terminator
deriving DecidableEq

inductive AsmError where
  | badTarget
  | dangling
deriving DecidableEq, Repr

def AsmError.message : AsmError → String
  | badTarget => "asm: branch target is not an instruction boundary"
  | dangling => "asm: dangling branch target"

variable {ι : Type}

/-- The offsets that an instruction makes leaders. -/
def DecodedInsn.marks (d : DecodedInsn ι) : List Nat :=
  match d.ctrl with
  | .jmp t | .jcc t _ => [t, d.next]
  | .ret => [d.next]
  | .fall => []

def DecodedInsn.target? (d : DecodedInsn ι) : Option Nat :=
  match d.ctrl with
  | .jmp t | .jcc t _ => some t
  | .ret | .fall => none

def offsets (ds : List (DecodedInsn ι)) : List Nat := ds.map DecodedInsn.offset

/-- The loop that collects the leaders. -/
def collect (offs : List Nat) : List (DecodedInsn ι) → List Nat → Except AsmError (List Nat)
  | [], marked => .ok marked
  | d :: ds, marked =>
    if d.target?.all (· ∈ offs) then collect offs ds (marked ++ d.marks) else .error .badTarget

/-- The leaders that are instructions, in order. -/
def sortLeaders (offs marked : List Nat) : List Nat := (marked.dedup.insertionSort (· ≤ ·)).filter (· ∈ offs)

/-- `block_of`: the place of a leader, as `u32`. -/
def blockOf (leaders : List Nat) (o : Nat) : Option Nat :=
  if o ∈ leaders then some (leaders.idxOf o % 2 ^ 32) else none

def targetBlock (leaders : List Nat) (o : Nat) : Except AsmError Nat :=
  match blockOf leaders o with
  | some b => .ok b
  | none => .error .dangling

def terminatorFor (leaders : List Nat) (d : DecodedInsn ι) : Except AsmError Terminator :=
  match d.ctrl with
  | .ret => .ok .ret
  | .jmp t => do
    let b ← targetBlock leaders t
    return .br b
  | .jcc t cond => do
    let thenBlk ← targetBlock leaders t
    let elseBlk ← targetBlock leaders d.next
    return .condBr cond thenBlk elseBlk
  | .fall => do
    let b ← targetBlock leaders d.next
    return .br b

/-- The loop that goes on to the block of an offset. -/
def advance (leaders : List Nat) (o : Nat) : Nat → Nat → Nat
  | 0, cur => cur
  | fuel + 1, cur => if (leaders[cur + 1]?).any (· ≤ o) then advance leaders o fuel (cur + 1) else cur

def isBlockEnd (offs leaders : List Nat) (d : DecodedInsn ι) : Bool := d.next ∉ offs || (blockOf leaders d.next).isSome

/-- One turn of the loop over the instructions. -/
def placeInsn (offs leaders : List Nat) (st : Nat × List (BasicBlock (DecodedInsn ι))) (d : DecodedInsn ι) :
    Except AsmError (Nat × List (BasicBlock (DecodedInsn ι))) :=
  let cur := advance leaders d.offset leaders.length st.1
  let blocks := st.2.modify cur fun b => { b with insts := b.insts ++ [d] }
  if isBlockEnd offs leaders d then do
    let term ← terminatorFor leaders d
    return (cur, blocks.modify cur fun b => { b with term := term })
  else return (cur, blocks)

/-- The graph of the blocks, with its entry. -/
def buildGraph (ds : List (DecodedInsn ι)) : Except AsmError (List (BasicBlock (DecodedInsn ι)) × Nat) :=
  match ds with
  | [] => .ok ([⟨[], .ret⟩], 0)
  | first :: _ => do
    let marked ← collect (offsets ds) ds [first.offset]
    let leaders := sortLeaders (offsets ds) marked
    let (_, blocks) ← ds.foldlM (placeInsn (offsets ds) leaders) (0, leaders.map fun _ => ⟨[], .ret⟩)
    return (blocks, 0)

def buildBlocks (ds : List (DecodedInsn ι)) : Except AsmError (List (BasicBlock ι) × Nat) :=
  (buildGraph ds).map fun g => (g.1.map fun b => ⟨b.insts.flatMap DecodedInsn.insts, b.term⟩, g.2)

/-! ## Running -/

/-- Runs of a machine that goes on from its state and what it has executed. -/
def run {σ α : Type} (step : σ → List α → Option (α × σ)) : Nat → σ → List α → List α
  | 0, _, done => done
  | n + 1, s, done =>
    match step s done with
    | none => done
    | some (d, s) => run step n s (done ++ [d])

section Machines

/-- What the conditions give, after the instructions that have been executed. -/
abbrev Outcomes (ι : Type) := List (DecodedInsn ι) → RegId → Bool

variable (outcome : Outcomes ι)

def fetch (ds : List (DecodedInsn ι)) (o : Nat) : Option (DecodedInsn ι) := ds.find? (·.offset = o)

/-- The instruction after one, if it is not a return. -/
def fetchNext (ds : List (DecodedInsn ι)) (done : List (DecodedInsn ι)) (d : DecodedInsn ι) : Option (DecodedInsn ι) :=
  match d.ctrl with
  | .fall => fetch ds d.next
  | .ret => none
  | .jmp t => fetch ds t
  | .jcc t cond => fetch ds (if outcome done cond then t else d.next)

/-- The machine that fetches by offset; before the first instruction there is no last one. -/
def fetchStep (ds : List (DecodedInsn ι)) (last : Option (DecodedInsn ι)) (done : List (DecodedInsn ι)) :
    Option (DecodedInsn ι × Option (DecodedInsn ι)) :=
  ((match last with
    | none => ds.head?
    | some d => fetchNext outcome ds done d) : Option (DecodedInsn ι)).map fun d => (d, some d)

/-- The rest of a block, or the blocks after it until there is an instruction. -/
def follow (g : List (BasicBlock (DecodedInsn ι))) (done : List (DecodedInsn ι)) :
    Nat → Nat × List (DecodedInsn ι) → Option (DecodedInsn ι × Nat × List (DecodedInsn ι))
  | _, (i, d :: rest) => some (d, i, rest)
  | 0, (_, []) => none
  | fuel + 1, (i, []) =>
    let enter (j : Nat) := follow g done fuel (j, (g[j]?).elim [] BasicBlock.insts)
    match (g[i]?).elim .ret BasicBlock.term with
    | .ret => none
    | .br j => enter j
    | .condBr cond t e => enter (if outcome done cond then t else e)

def blockStep (g : List (BasicBlock (DecodedInsn ι))) (s : Nat × List (DecodedInsn ι)) (done : List (DecodedInsn ι)) :
    Option (DecodedInsn ι × Nat × List (DecodedInsn ι)) := follow outcome g done (g.length + 1) s

end Machines

/-- The instructions that are executed are the same. -/
def SameRuns (ds : List (DecodedInsn ι)) (g : List (BasicBlock (DecodedInsn ι))) (entry : Nat) : Prop :=
  ∀ (outcome : Outcomes ι) (n : Nat), run (fetchStep outcome ds) n none [] =
    run (blockStep outcome g) n (entry, (g[entry]?).elim [] BasicBlock.insts) []

/-! ## Where the instructions are placed

In a list that is sorted by offset the block of an instruction is given by the leaders up to its offset, and a block has
the terminator of the last instruction that ends it.
-/

variable {ι : Type}

/-! ## The leaders -/

section Leaders

variable {ds : List (DecodedInsn ι)}

/-- The targets of an instruction: where it may go on. -/
def DecodedInsn.targets (d : DecodedInsn ι) : List Nat :=
  match d.ctrl with
  | .fall => [d.next]
  | .ret => []
  | .jmp t => [t]
  | .jcc t _ => [t, d.next]

/-- Every target of every instruction is an instruction. -/
def Closed (ds : List (DecodedInsn ι)) : Prop := ∀ d ∈ ds, ∀ t ∈ d.targets, t ∈ offsets ds

def marked (ds : List (DecodedInsn ι)) : List Nat := (ds.head?.map DecodedInsn.offset).toList ++ ds.flatMap DecodedInsn.marks

def leaders (ds : List (DecodedInsn ι)) : List Nat := sortLeaders (offsets ds) (marked ds)

theorem collect_eq (offs : List Nat) (ds : List (DecodedInsn ι)) (m : List Nat) :
    collect offs ds m = if ∀ d ∈ ds, ∀ t ∈ d.target?, t ∈ offs then .ok (m ++ ds.flatMap DecodedInsn.marks)
      else .error .badTarget := by
  induction ds generalizing m with
  | nil => simp [collect]
  | cons d ds ih =>
    rw [collect, ih]
    by_cases hd : d.target?.all (· ∈ offs)
    · have hd' : ∀ t ∈ d.target?, t ∈ offs := by simpa [Option.all_eq_true] using hd
      rw [if_pos hd]
      simp only [List.forall_mem_cons, List.flatMap_cons, List.append_assoc]
      by_cases hds : ∀ e ∈ ds, ∀ t ∈ e.target?, t ∈ offs
      · rw [if_pos hds, if_pos ⟨hd', hds⟩]
      · rw [if_neg hds, if_neg fun h => hds h.2]
    · have hd' : ¬∀ t ∈ d.target?, t ∈ offs := by simpa [Option.all_eq_true] using hd
      rw [if_neg hd, if_neg fun h => hd' (h d List.mem_cons_self)]

theorem mem_leaders {o : Nat} : o ∈ leaders ds ↔ o ∈ marked ds ∧ o ∈ offsets ds := by
  rw [leaders, sortLeaders, List.mem_filter, decide_eq_true_eq, List.mem_insertionSort, List.mem_dedup]

theorem leaders_sorted (ds : List (DecodedInsn ι)) : (leaders ds).Pairwise (· < ·) := by
  have hsorted : ((marked ds).dedup.insertionSort (· ≤ ·)).Pairwise (· ≤ ·) := List.pairwise_insertionSort _ _
  have hnodup : ((marked ds).dedup.insertionSort (· ≤ ·)).Nodup :=
    (List.perm_insertionSort _ _).nodup_iff.mpr (List.nodup_dedup _)
  have hlt : ((marked ds).dedup.insertionSort (· ≤ ·)).Pairwise (· < ·) :=
    (hsorted.and hnodup).imp fun h => lt_of_le_of_ne h.1 h.2
  exact hlt.filter _

theorem getElem_le_iff {ls : List Nat} (hsorted : ls.Pairwise (· < ·)) {j o l : Nat} (h : ls[j]? = some l) :
    l ≤ o ↔ j < (ls.filter (· ≤ o)).length := by
  induction ls generalizing j with
  | nil => cases h
  | cons x ls ih =>
    rw [List.pairwise_cons] at hsorted
    cases j with
    | zero =>
      obtain rfl : x = l := Option.some.inj h
      by_cases hle : x ≤ o
      · simp [hle]
      · have hnil : ls.filter (· ≤ o) = [] := by
          rw [List.filter_eq_nil_iff]
          intro y hy
          have hlt := hsorted.1 y hy
          simp
          omega
        simp [hle, hnil]
    | succ j =>
      have hmem : l ∈ ls := List.mem_of_getElem? h
      have hxl := hsorted.1 l hmem
      by_cases hle : x ≤ o
      · rw [List.filter_cons_of_pos (by simpa using hle), List.length_cons, Nat.succ_lt_succ_iff]
        exact ih hsorted.2 h
      · have hnil : (x :: ls).filter (· ≤ o) = [] := by
          rw [List.filter_eq_nil_iff]
          intro y hy
          rcases List.mem_cons.mp hy with rfl | hy
          · simpa using hle
          · have hlt := hsorted.1 y hy
            simp
            omega
        rw [hnil]
        simp
        omega

theorem advance_eq {ls : List Nat} (hsorted : ls.Pairwise (· < ·)) {o fuel cur : Nat}
    (hcur : cur + 1 ≤ (ls.filter (· ≤ o)).length) (hfuel : (ls.filter (· ≤ o)).length ≤ cur + 1 + fuel) :
    advance ls o fuel cur = (ls.filter (· ≤ o)).length - 1 := by
  induction fuel generalizing cur with
  | zero =>
    rw [advance]
    omega
  | succ fuel ih =>
    rw [advance]
    cases hget : ls[cur + 1]? with
    | none =>
      have hlen : ls.length ≤ cur + 1 := List.getElem?_eq_none_iff.mp hget
      have hfilter := List.length_filter_le (· ≤ o) ls
      rw [Option.any_none, if_neg Bool.false_ne_true]
      omega
    | some l =>
      have hiff := getElem_le_iff hsorted (o := o) hget
      by_cases hle : l ≤ o
      · rw [Option.any_some, if_pos (decide_eq_true hle)]
        exact ih (hiff.mp hle) (by omega)
      · rw [Option.any_some, if_neg (by simpa using hle)]
        have hcount := mt hiff.mpr hle
        omega

end Leaders

/-! ## Which lists are built -/

section Built

variable {ds : List (DecodedInsn ι)} {d : DecodedInsn ι}

theorem target?_mem_targets {t : Nat} (h : t ∈ d.target?) : t ∈ d.targets := by
  unfold DecodedInsn.target? at h
  unfold DecodedInsn.targets
  cases hc : d.ctrl <;> rw [hc] at h <;> simp_all

theorem mem_marks (hd : d.ctrl ≠ .fall) {o : Nat} (h : o ∈ d.targets ∨ o = d.next) : o ∈ d.marks := by
  unfold DecodedInsn.targets at h
  unfold DecodedInsn.marks
  cases hc : d.ctrl <;> rw [hc] at h <;> simp_all

theorem marks_mem_marked {o : Nat} (hd : d ∈ ds) (h : o ∈ d.marks) : o ∈ marked ds :=
  List.mem_append_right _ (List.mem_flatMap.mpr ⟨d, hd, h⟩)

theorem blockOf_eq_some {ls : List Nat} {o : Nat} (h : o ∈ ls) : blockOf ls o = some (ls.idxOf o % 2 ^ 32) := if_pos h

theorem isBlockEnd_iff {offs ls : List Nat} : isBlockEnd offs ls d ↔ d.next ∉ offs ∨ d.next ∈ ls := by
  unfold isBlockEnd blockOf
  rw [Bool.or_eq_true, decide_eq_true_eq]
  by_cases h : d.next ∈ ls
  · simp [h]
  · simp [h]

theorem isBlockEnd_of_branch (hd : d ∈ ds) (hc : d.ctrl ≠ .fall) : isBlockEnd (offsets ds) (leaders ds) d := by
  rw [isBlockEnd_iff]
  by_cases hmem : d.next ∈ offsets ds
  · exact .inr (mem_leaders.mpr ⟨marks_mem_marked hd (mem_marks hc (.inr rfl)), hmem⟩)
  · exact .inl hmem

theorem targetBlock_of_mem {ls : List Nat} {o : Nat} (h : o ∈ ls) : targetBlock ls o = .ok (ls.idxOf o % 2 ^ 32) := by
  rw [targetBlock, blockOf_eq_some h]

theorem targetBlock_of_not_mem {ls : List Nat} {o : Nat} (h : o ∉ ls) : targetBlock ls o = .error .dangling := by
  rw [targetBlock, blockOf, if_neg h]

/-- The terminator that an instruction has if its targets are leaders. -/
def terminator (ls : List Nat) (d : DecodedInsn ι) : Terminator :=
  match d.ctrl with
  | .ret => .ret
  | .jmp t => .br (ls.idxOf t % 2 ^ 32)
  | .jcc t cond => .condBr cond (ls.idxOf t % 2 ^ 32) (ls.idxOf d.next % 2 ^ 32)
  | .fall => .br (ls.idxOf d.next % 2 ^ 32)

theorem terminatorFor_eq (ls : List Nat) (d : DecodedInsn ι) :
    terminatorFor ls d = if ∀ t ∈ d.targets, t ∈ ls then .ok (terminator ls d) else .error .dangling := by
  unfold terminatorFor terminator DecodedInsn.targets
  cases d.ctrl with
  | ret => simp
  | fall =>
    by_cases h : d.next ∈ ls
    · simp [h, targetBlock_of_mem]
    · simp [h, targetBlock_of_not_mem]
  | jmp t =>
    by_cases h : t ∈ ls
    · simp [h, targetBlock_of_mem]
    · simp [h, targetBlock_of_not_mem]
  | jcc t cond =>
    by_cases h : t ∈ ls
    · by_cases h' : d.next ∈ ls
      · simp [h, h', targetBlock_of_mem]; rfl
      · simp [h, h', targetBlock_of_mem, targetBlock_of_not_mem]; rfl
    · simp [h, targetBlock_of_not_mem]; rfl

theorem ends_iff_closed :
    (∀ d ∈ ds, isBlockEnd (offsets ds) (leaders ds) d → ∀ t ∈ d.targets, t ∈ leaders ds) ↔ Closed ds := by
  constructor
  · intro hends d hd t ht
    by_cases hc : d.ctrl = .fall
    · obtain rfl : t = d.next := by simpa [DecodedInsn.targets, hc] using ht
      by_cases hmem : d.next ∈ offsets ds
      · exact hmem
      · exact absurd (mem_leaders.mp (hends d hd (isBlockEnd_iff.mpr (.inl hmem)) _ ht)).2 hmem
    · exact (mem_leaders.mp (hends d hd (isBlockEnd_of_branch hd hc) t ht)).2
  · intro hclosed d hd hend t ht
    have hmem := hclosed d hd t ht
    by_cases hc : d.ctrl = .fall
    · obtain rfl : t = d.next := by simpa [DecodedInsn.targets, hc] using ht
      exact (isBlockEnd_iff.mp hend).resolve_left fun h => h hmem
    · exact mem_leaders.mpr ⟨marks_mem_marked hd (mem_marks hc (.inl ht)), hmem⟩

end Built

/-! ## The blocks -/

section Place

variable {ds p q : List (DecodedInsn ι)} {d : DecodedInsn ι}

/-- Strictly in the order of the offsets. -/
def Sorted (ds : List (DecodedInsn ι)) : Prop := (offsets ds).Pairwise (· < ·)

/-- The place of the block of an offset. -/
def place (ds : List (DecodedInsn ι)) (o : Nat) : Nat := ((leaders ds).filter (· ≤ o)).length - 1

/-- The terminator of the last instruction that ends a block. -/
def lastTerm (ds : List (DecodedInsn ι)) (seg : List (DecodedInsn ι)) : Terminator :=
  seg.foldl (fun term d => if isBlockEnd (offsets ds) (leaders ds) d then terminator (leaders ds) d else term) .ret

def blockWith (ds seg : List (DecodedInsn ι)) : BasicBlock (DecodedInsn ι) := ⟨seg, lastTerm ds seg⟩

/-- Those of the instructions that belong to a block. -/
def inBlock (ds p : List (DecodedInsn ι)) (i : Nat) : List (DecodedInsn ι) := p.filter fun d => place ds d.offset = i

/-- The blocks after some of the instructions. -/
def blocksAfter (ds p : List (DecodedInsn ι)) : List (BasicBlock (DecodedInsn ι)) :=
  (List.range (leaders ds).length).map fun i => blockWith ds (inBlock ds p i)

theorem modify_map_range {α : Type} (n i : Nat) (f : Nat → α) (g : α → α) :
    ((List.range n).map f).modify i g = (List.range n).map fun j => if j = i then g (f j) else f j := by
  apply List.ext_getElem?
  intro j
  rw [List.getElem?_modify, List.getElem?_map, List.getElem?_map]
  by_cases hj : j < n
  · rw [List.getElem?_range hj]
    by_cases hij : i = j
    · subst hij
      simp
    · simp [hij, Ne.symm hij]
  · have hnone : (List.range n)[j]? = none := List.getElem?_eq_none (by simpa using Nat.not_lt.mp hj)
    rw [hnone]
    by_cases hij : i = j <;> simp [hij]

theorem place_mono (ds : List (DecodedInsn ι)) {a b : Nat} (h : a ≤ b) : place ds a ≤ place ds b := by
  apply Nat.sub_le_sub_right
  apply List.Sublist.length_le
  exact List.monotone_filter_right _ fun x hx => by simp at hx ⊢; omega

theorem head_mem_leaders {first : DecodedInsn ι} : first.offset ∈ leaders (first :: ds) := by
  rw [mem_leaders]
  exact ⟨by simp [marked], by simp [offsets]⟩

theorem head_le (hs : Sorted ds) (hd : d ∈ ds) {first : DecodedInsn ι} (hfirst : ds.head? = some first) :
    first.offset ≤ d.offset := by
  cases ds with
  | nil => cases hd
  | cons x ds =>
    obtain rfl : x = first := Option.some.inj hfirst
    rcases List.mem_cons.mp hd with rfl | hd
    · exact le_rfl
    · exact (List.rel_of_pairwise_cons hs (List.mem_map_of_mem hd)).le

theorem one_le_count (hs : Sorted ds) (hd : d ∈ ds) : 1 ≤ ((leaders ds).filter (· ≤ d.offset)).length := by
  cases ds with
  | nil => cases hd
  | cons first ds =>
    have hmem : first.offset ∈ (leaders (first :: ds)).filter (· ≤ d.offset) :=
      List.mem_filter.mpr ⟨head_mem_leaders, by simpa using head_le hs hd rfl⟩
    exact List.length_pos_of_mem hmem

theorem placeInsn_eq (hs : Sorted ds) (hds : ds = p ++ d :: q) {cur : Nat} (hcur : cur ≤ place ds d.offset) :
    placeInsn (offsets ds) (leaders ds) (cur, blocksAfter ds p) d =
      if isBlockEnd (offsets ds) (leaders ds) d → ∀ t ∈ d.targets, t ∈ leaders ds then
        .ok (place ds d.offset, blocksAfter ds (p ++ [d])) else .error .dangling := by
  have hd : d ∈ ds := by rw [hds]; simp
  have hone := one_le_count hs hd
  have hlen := List.length_filter_le (· ≤ d.offset) (leaders ds)
  have hadv : advance (leaders ds) d.offset (leaders ds).length cur = place ds d.offset := by
    unfold place at hcur ⊢
    exact advance_eq (leaders_sorted ds) (by omega) (by omega)
  have hnext (i : Nat) : inBlock ds (p ++ [d]) i = if i = place ds d.offset then inBlock ds p i ++ [d] else inBlock ds p i := by
    unfold inBlock
    rw [List.filter_append]
    by_cases hi : i = place ds d.offset
    · simp [hi]
    · simp [hi, Ne.symm hi]
  unfold placeInsn
  simp only [hadv, blocksAfter, modify_map_range]
  by_cases hend : isBlockEnd (offsets ds) (leaders ds) d
  · rw [if_pos hend, terminatorFor_eq]
    by_cases hts : ∀ t ∈ d.targets, t ∈ leaders ds
    · rw [if_pos hts, if_pos fun _ => hts]
      change Except.ok (_, _) = Except.ok (_, _)
      congr 2
      refine List.map_congr_left fun i _ => ?_
      rw [hnext]
      by_cases hi : i = place ds d.offset
      · simp [hi, blockWith, lastTerm, List.foldl_append, hend]
      · simp [hi]
    · rw [if_neg hts, if_neg fun h => hts (h hend)]
      rfl
  · rw [if_neg hend, if_pos fun h => absurd h hend]
    change Except.ok (_, _) = Except.ok (_, _)
    congr 2
    refine List.map_congr_left fun i _ => ?_
    rw [hnext]
    by_cases hi : i = place ds d.offset
    · simp [hi, blockWith, lastTerm, List.foldl_append, hend]
    · simp [hi]

theorem foldlM_placeInsn (hs : Sorted ds) (hds : ds = p ++ q) {cur : Nat} (hcur : ∀ d ∈ q, cur ≤ place ds d.offset) :
    ∃ last, q.foldlM (placeInsn (offsets ds) (leaders ds)) (cur, blocksAfter ds p) =
      if ∀ d ∈ q, isBlockEnd (offsets ds) (leaders ds) d → ∀ t ∈ d.targets, t ∈ leaders ds then
        .ok (last, blocksAfter ds ds) else .error .dangling := by
  induction q generalizing p cur with
  | nil =>
    rw [List.append_nil] at hds
    exact ⟨cur, by rw [if_pos (by simp), ← hds]; rfl⟩
  | cons d q ih =>
    have hlater : ∀ e ∈ q, place ds d.offset ≤ place ds e.offset := by
      intro e he
      have hpair : (offsets (d :: q)).Pairwise (· < ·) := by
        unfold Sorted at hs
        rw [hds, offsets, List.map_append] at hs
        exact (List.pairwise_append.mp hs).2.1
      exact place_mono ds (List.rel_of_pairwise_cons hpair (List.mem_map_of_mem he)).le
    obtain ⟨last, hrest⟩ := ih (p := p ++ [d]) (by rw [List.append_assoc]; exact hds) hlater
    refine ⟨last, ?_⟩
    rw [List.foldlM_cons, placeInsn_eq hs hds (hcur d List.mem_cons_self)]
    by_cases hd : isBlockEnd (offsets ds) (leaders ds) d → ∀ t ∈ d.targets, t ∈ leaders ds
    · rw [if_pos hd]
      change q.foldlM (placeInsn (offsets ds) (leaders ds)) (place ds d.offset, blocksAfter ds (p ++ [d])) = _
      rw [hrest]
      by_cases hq : ∀ e ∈ q, isBlockEnd (offsets ds) (leaders ds) e → ∀ t ∈ e.targets, t ∈ leaders ds
      · rw [if_pos hq, if_pos (List.forall_mem_cons.mpr ⟨hd, hq⟩)]
      · rw [if_neg hq, if_neg fun h => hq (List.forall_mem_cons.mp h).2]
    · rw [if_neg hd, if_neg fun h => hd (List.forall_mem_cons.mp h).1]
      rfl

theorem buildGraph_eq (hs : Sorted ds) (hne : ds ≠ []) :
    buildGraph ds = .ok (blocksAfter ds ds, 0) ∧ Closed ds ∨ (∃ e, buildGraph ds = .error e) ∧ ¬Closed ds := by
  cases ds with
  | nil => exact absurd rfl hne
  | cons first ds =>
    have hcollect : buildGraph (first :: ds) = (collect (offsets (first :: ds)) (first :: ds) [first.offset]).bind
        fun m => ((first :: ds).foldlM (placeInsn (offsets (first :: ds)) (sortLeaders (offsets (first :: ds)) m))
          (0, (sortLeaders (offsets (first :: ds)) m).map fun _ => ⟨[], .ret⟩)).bind fun x => .ok (x.2, 0) := rfl
    rw [hcollect, collect_eq]
    by_cases htargets : ∀ d ∈ first :: ds, ∀ t ∈ d.target?, t ∈ offsets (first :: ds)
    · have hstart : (leaders (first :: ds)).map (fun _ => (⟨[], .ret⟩ : BasicBlock (DecodedInsn ι))) =
          blocksAfter (first :: ds) [] := by
        unfold blocksAfter
        apply List.ext_getElem <;> simp [blockWith, inBlock, lastTerm]
      obtain ⟨last, hfold⟩ := foldlM_placeInsn (p := []) hs rfl fun d _ => Nat.zero_le (place (first :: ds) d.offset)
      rw [if_pos htargets]
      change ((((first :: ds).foldlM (placeInsn (offsets (first :: ds)) (leaders (first :: ds)))
        (0, (leaders (first :: ds)).map fun _ => ⟨[], .ret⟩)).bind fun x => .ok (x.2, 0)) = _ ∧ _) ∨ (∃ e,
          (((first :: ds).foldlM (placeInsn (offsets (first :: ds)) (leaders (first :: ds)))
            (0, (leaders (first :: ds)).map fun _ => ⟨[], .ret⟩)).bind fun x => .ok (x.2, 0)) = _) ∧ _
      rw [hstart, hfold]
      by_cases hclosed : Closed (first :: ds)
      · rw [if_pos (ends_iff_closed.mpr hclosed)]
        exact .inl ⟨rfl, hclosed⟩
      · rw [if_neg (mt ends_iff_closed.mp hclosed)]
        exact .inr ⟨⟨_, rfl⟩, hclosed⟩
    · rw [if_neg htargets]
      exact .inr ⟨⟨_, rfl⟩, fun hclosed => htargets fun d hd t ht => hclosed d hd t (target?_mem_targets ht)⟩

end Place

end Csolver.Asm
