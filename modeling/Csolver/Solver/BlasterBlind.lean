import Csolver.Lib.WriteOnly
import Csolver.Solver.BlasterSound

/-!
# The encoder never reads its clauses

Clients push clauses of their own between two encodings. That changes nothing about what the encoder
does next: it only ever appends clauses. So an encoding with assertions in between mirrors the one
without, for which `Run.good` holds.
-/

namespace Csolver.Sat

open Csolver.Lib

def cnfLog : Log Cnf (List Lit) where
  get c := c.clauses
  set l c := { c with clauses := l }
  get_set _ _ := rfl
  set_get _ := rfl
  set_set _ _ _ := rfl

namespace Cnf

/-! ## Gates -/

theorem newVar_blind : Blind cnfLog newVar :=
  fun _ => ⟨[], (List.append_nil _).symm, fun l => by rw [List.append_nil]; rfl⟩

theorem litTrue_blind : Blind cnfLog litTrue := by
  intro c
  cases h : c.trueLit with
  | some l =>
    refine ⟨[], ?_, fun C => ?_⟩
    · rw [litTrue, h, List.append_nil]
    · rw [litTrue, litTrue, h, List.append_nil]
      simp [cnfLog, h]
  | none =>
    refine ⟨[[Lit.pos c.numVars]], ?_, fun C => ?_⟩
    · rw [litTrue, h]
      rfl
    · rw [litTrue, litTrue, h]
      simp [cnfLog, h]

theorem litFalse_blind : Blind cnfLog litFalse := litTrue_blind.bind fun _ => Blind.pure _

theorem define_blind (cls : Lit → List (List Lit)) : Blind cnfLog (define cls) :=
  fun c => ⟨cls (Lit.pos c.numVars), rfl, fun _ => rfl⟩

theorem and2_blind (a b : Lit) : Blind cnfLog (and2 a b) :=
  Blind.get (fun _ => .ite litFalse_blind (.ite (.pure b) (.ite (.pure a) (.ite (.pure a)
    (.ite litFalse_blind (define_blind _)))))) fun _ _ => rfl

theorem or2_blind (a b : Lit) : Blind cnfLog (or2 a b) :=
  Blind.get (fun _ => .ite litTrue_blind (.ite (.pure b) (.ite (.pure a) (.ite (.pure a)
    (.ite litTrue_blind (define_blind _)))))) fun _ _ => rfl

theorem xor2_blind (a b : Lit) : Blind cnfLog (xor2 a b) :=
  Blind.get (fun _ => .ite (.pure b) (.ite (.pure a) (.ite (.pure _) (.ite (.pure _)
    (.ite litFalse_blind (.ite litTrue_blind (define_blind _))))))) fun _ _ => rfl

theorem mux_blind (s a b : Lit) : Blind cnfLog (mux s a b) :=
  Blind.get (fun _ => .ite (.pure a) (.ite (.pure b) (.ite (.pure a)
    ((and2_blind s a).bind fun t => (and2_blind s.negated b).bind fun e => or2_blind t e))))
    fun _ _ => rfl

theorem iff_blind (a b : Lit) : Blind cnfLog (iff a b) := (xor2_blind a b).bind fun _ => .pure _

theorem bigAnd_blind (ls : List Lit) : Blind cnfLog (bigAnd ls) := by
  cases ls with
  | nil => exact litTrue_blind
  | cons l ls => exact Blind.foldlM and2_blind ls l

theorem bigOr_blind (ls : List Lit) : Blind cnfLog (bigOr ls) := by
  cases ls with
  | nil => exact litFalse_blind
  | cons l ls => exact Blind.foldlM or2_blind ls l

/-! ## Circuits -/

theorem fullAdder_blind (a b cin : Lit) : Blind cnfLog (fullAdder a b cin) :=
  (xor2_blind a b).bind fun axb => (xor2_blind axb cin).bind fun _ => (and2_blind a b).bind fun ab =>
    (and2_blind cin axb).bind fun cx => (or2_blind ab cx).bind fun _ => .pure _

theorem adder_blind (as : List Lit) : ∀ (bs : List Lit) (cin : Lit),
    Blind cnfLog (adder as bs cin) := by
  induction as with
  | nil => exact fun bs cin => by cases bs <;> exact .pure _
  | cons a as ih =>
    intro bs cin
    cases bs with
    | nil => exact .pure _
    | cons b bs =>
      exact (fullAdder_blind a b cin).bind fun p => (ih bs p.2).bind fun _ => .pure _

theorem add_blind (a b : List Lit) : Blind cnfLog (add a b) :=
  litFalse_blind.bind fun cin => (adder_blind a b cin).bind fun _ => .pure _

theorem subWithBorrow_blind (a b : List Lit) : Blind cnfLog (subWithBorrow a b) :=
  litTrue_blind.bind fun cin => adder_blind a _ cin

theorem sub_blind (a b : List Lit) : Blind cnfLog (sub a b) :=
  (subWithBorrow_blind a b).bind fun _ => .pure _

theorem mulLoop_blind (zero : Lit) (a bs : List Lit) : ∀ (j : Nat) (acc : List Lit),
    Blind cnfLog (mulLoop zero a bs j acc) := by
  induction bs with
  | nil => exact fun _ _ => .pure _
  | cons b bs ih =>
    intro j acc
    have hpp : Blind cnfLog (partialProduct zero a j b) :=
      (Blind.mapM (fun ai => and2_blind ai b) _).bind fun _ => .pure _
    exact hpp.bind fun pp => (add_blind acc pp).bind fun acc => ih (j + 1) acc

theorem mul_blind (a b : List Lit) : Blind cnfLog (mul a b) :=
  litFalse_blind.bind fun zero => mulLoop_blind zero a b 0 _

theorem negate_blind (a : List Lit) : Blind cnfLog (negate a) :=
  litFalse_blind.bind fun _ => litTrue_blind.bind fun cin => (adder_blind _ _ cin).bind fun _ =>
    .pure _

theorem muxVec_blind (s : Lit) (as bs : List Lit) : Blind cnfLog (muxVec s as bs) :=
  Blind.mapM (fun p : Lit × Lit => mux_blind s p.1 p.2) (as.zip bs)

theorem absSign_blind (a : List Lit) : Blind cnfLog (absSign a) :=
  (negate_blind a).bind fun nega => (muxVec_blind _ nega a).bind fun _ => .pure _

theorem udivLoop_blind (bext as : List Lit) : ∀ quot rem : List Lit,
    Blind cnfLog (udivLoop bext as quot rem) := by
  induction as with
  | nil => exact fun _ _ => .pure _
  | cons a as ih =>
    intro quot rem
    have hstep : Blind cnfLog (udivStep bext a rem) :=
      (subWithBorrow_blind _ bext).bind fun p => (muxVec_blind p.2 p.1 _).bind fun _ => .pure _
    exact hstep.bind fun p => ih (p.1 :: quot) p.2

theorem udivrem_blind (a b : List Lit) : Blind cnfLog (udivrem a b) :=
  litFalse_blind.bind fun _ => udivLoop_blind _ _ _ _

theorem sdivrem_blind (a b : List Lit) : Blind cnfLog (sdivrem a b) :=
  (absSign_blind a).bind fun p => (absSign_blind b).bind fun q => (udivrem_blind p.1 q.1).bind
    fun r => (xor2_blind p.2 q.2).bind fun qs => (negate_blind r.1).bind fun nq =>
      (muxVec_blind qs nq r.1).bind fun _ => (negate_blind r.2).bind fun nr =>
        (muxVec_blind p.2 nr r.2).bind fun _ => .pure _

theorem shiftStages_blind (op : BvOp) (zero fill : Lit) (cs : List Lit) :
    ∀ (k : Nat) (x : List Lit), Blind cnfLog (shiftStages op zero fill cs k x) := by
  induction cs with
  | nil => exact fun _ _ => .pure _
  | cons c cs ih => exact fun k x => (muxVec_blind c _ x).bind fun x => ih (k + 1) x

theorem shiftVar_blind (op : BvOp) (a b : List Lit) : Blind cnfLog (shiftVar op a b) :=
  litFalse_blind.bind fun _ => (shiftStages_blind op _ _ _ 0 a).bind fun _ =>
    (bigOr_blind _).bind fun _ => muxVec_blind _ _ _

theorem bitwise_blind (op : BvOp) (a b : List Lit) : Blind cnfLog (bitwise op a b) := by
  refine Blind.mapM (fun p : Lit × Lit => ?_) (a.zip b)
  cases op <;> first | exact and2_blind _ _ | exact or2_blind _ _ | exact xor2_blind _ _

theorem eq_blind (a b : List Lit) : Blind cnfLog (eq a b) :=
  (Blind.mapM (fun p : Lit × Lit => iff_blind p.1 p.2) (a.zip b)).bind bigAnd_blind

theorem ult_blind (a b : List Lit) : Blind cnfLog (ult a b) :=
  (subWithBorrow_blind a b).bind fun _ => .pure _

theorem slt_blind (a b : List Lit) : Blind cnfLog (slt a b) :=
  (xor2_blind _ _).bind fun d => (ult_blind a b).bind fun u => mux_blind d _ u

theorem compare_blind (op : CmpOp) (a b : List Lit) : Blind cnfLog (compare op a b) := by
  cases op with
  | eq => exact eq_blind a b
  | ne => exact (eq_blind a b).bind fun _ => .pure _
  | ult => exact ult_blind a b
  | ule => exact (ult_blind b a).bind fun _ => .pure _
  | ugt => exact ult_blind b a
  | uge => exact (ult_blind a b).bind fun _ => .pure _
  | slt => exact slt_blind a b
  | sle => exact (slt_blind b a).bind fun _ => .pure _
  | sgt => exact slt_blind b a
  | sge => exact (slt_blind a b).bind fun _ => .pure _

end Cnf

/-! ## The encoder -/

def blasterLog : Log Blaster (List Lit) where
  get b := b.cnf.clauses
  set l b := { b with cnf := { b.cnf with clauses := l } }
  get_set _ _ := rfl
  set_get _ := rfl
  set_set _ _ _ := rfl

namespace Blaster

open Cnf

/-- `Blind` for `BlastM`, whose failure is a result like any other. -/
def BlindM {α : Type} (x : BlastM α) : Prop := Blind blasterLog x.run

theorem BlindM.pure {α : Type} (a : α) : BlindM (Pure.pure a : BlastM α) :=
  Blind.pure (L := blasterLog) (some a)

theorem BlindM.fail {α : Type} : BlindM (failure : BlastM α) := Blind.pure (L := blasterLog) none

theorem BlindM.bind {α β : Type} {x : BlastM α} {f : α → BlastM β} (hx : BlindM x)
    (hf : ∀ a, BlindM (f a)) : BlindM (x >>= f) := by
  have hrun : (x >>= f).run = x.run >>= fun o =>
      (o.elim (Pure.pure none) fun a => (f a).run : StateM Blaster (Option β)) :=
    OptionT.run_bind f
  unfold BlindM
  rw [hrun]
  refine Blind.bind hx fun o => ?_
  cases o with
  | some a => exact hf a
  | none => exact Blind.pure none

theorem BlindM.ite {α : Type} {p : Prop} [Decidable p] {x y : BlastM α} (hx : BlindM x)
    (hy : BlindM y) : BlindM (if p then x else y) := by
  by_cases h : p
  · rw [if_pos h]
    exact hx
  · rw [if_neg h]
    exact hy

theorem gate_blind {α : Type} {x : CnfM α} (hx : Blind cnfLog x) : BlindM (gate x) := by
  intro b
  obtain ⟨u, hu, hxu⟩ := hx b.cnf
  refine ⟨u, hu, fun l => ?_⟩
  have h := hxu l
  show (some (x { b.cnf with clauses := l }).1, _) = _
  have h' : x { b.cnf with clauses := l } = ((x b.cnf).1, { (x b.cnf).2 with clauses := l ++ u }) := h
  rw [h']
  show (some (x b.cnf).1, ({ b with cnf := (x { b.cnf with clauses := l }).2 } : Blaster)) = _
  rw [h']
  rfl

theorem modify_blind {f : Blaster → Blaster} (hf : ∀ b, (f b).cnf = b.cnf)
    (hset : ∀ l b, f (blasterLog.set l b) = blasterLog.set l (f b)) :
    BlindM (modify f : BlastM PUnit) := by
  intro b
  refine ⟨[], ?_, fun l => ?_⟩
  · show (f b).cnf.clauses = _
    rw [hf, List.append_nil]
    rfl
  · rw [List.append_nil]
    exact Prod.ext rfl (hset l b)

theorem constBits_blind (v w : Nat) : Blind cnfLog (constBits v w) :=
  Blind.mapM (fun _ => .ite litTrue_blind litFalse_blind) _

theorem symBits_blind (name : String) (w : Nat) : BlindM (symBits name w) :=
  (gate_blind (Blind.mapM (fun _ => newVar_blind) _)).bind fun bits =>
    (modify_blind (f := fun b => { b with syms := b.syms ++ [(name, w, bits)] }) (fun _ => rfl)
      fun _ _ => rfl).bind fun _ => .pure _

theorem encodeBin_blind (ctx : ExprCtx) (op : BvOp) (a b : List Lit) (id : ExprId) :
    Blind cnfLog (encodeBin ctx op a b id) := by
  cases op with
  | add => exact add_blind a b
  | sub => exact sub_blind a b
  | mul => exact mul_blind a b
  | udiv => exact (udivrem_blind a b).bind fun _ => .pure _
  | sdiv => exact (sdivrem_blind a b).bind fun _ => .pure _
  | urem => exact (udivrem_blind a b).bind fun _ => .pure _
  | srem => exact (sdivrem_blind a b).bind fun _ => .pure _
  | and => exact bitwise_blind .and a b
  | or => exact bitwise_blind .or a b
  | xor => exact bitwise_blind .xor a b
  | shl | lshr | ashr =>
    unfold encodeBin
    cases ctx.asConst id with
    | some k => exact litFalse_blind.bind fun _ => .pure _
    | none => exact shiftVar_blind _ a b

theorem encodeBools_blind {rec : ExprId → BlastM (List Lit)} (hrec : ∀ x, BlindM (rec x))
    (xs : List ExprId) : BlindM (encodeBools rec xs) := by
  induction xs with
  | nil => exact .pure _
  | cons x xs ih =>
    refine (hrec x).bind fun xv => ?_
    match xv with
    | [] => exact .fail
    | [l] => exact ih.bind fun _ => .pure _
    | _ :: _ :: _ => exact .fail

theorem encodeNode_blind (ctx : ExprCtx) {rec : ExprId → BlastM (List Lit)}
    (hrec : ∀ x, BlindM (rec x)) (w : Nat) (n : Node) : BlindM (encodeNode ctx rec w n) := by
  cases n with
  | const bv => exact gate_blind (constBits_blind _ _)
  | sym name _ => exact symBits_blind name w
  | bool b =>
    refine (gate_blind ?_).bind fun _ => .pure _
    cases b
    · exact litFalse_blind
    · exact litTrue_blind
  | bin op a b =>
    exact (hrec a).bind fun av => (hrec b).bind fun bv =>
      .ite .fail (gate_blind (encodeBin_blind ctx op av bv b))
  | cmp op a b =>
    exact (hrec a).bind fun av => (hrec b).bind fun bv =>
      .ite .fail ((gate_blind (compare_blind op av bv)).bind fun _ => .pure _)
  | not x =>
    refine (hrec x).bind fun xv => ?_
    match xv with
    | [] => exact .fail
    | [l] => exact .pure _
    | _ :: _ :: _ => exact .fail
  | and xs =>
    exact (encodeBools_blind hrec xs).bind fun ls => (gate_blind (bigAnd_blind ls)).bind fun _ =>
      .pure _
  | or xs =>
    exact (encodeBools_blind hrec xs).bind fun ls => (gate_blind (bigOr_blind ls)).bind fun _ =>
      .pure _
  | ite c t e =>
    refine (hrec c).bind fun cv => ?_
    match cv with
    | [] => exact .fail
    | [l] =>
      exact (hrec t).bind fun tv => (hrec e).bind fun ev =>
        .ite .fail (gate_blind (muxVec_blind l tv ev))
    | _ :: _ :: _ => exact .fail
  | zext x =>
    exact (hrec x).bind fun bits =>
      gate_blind ((Blind.mapM (fun _ => litFalse_blind) _).bind fun _ => .pure _)
  | sext x => exact (hrec x).bind fun bits => .ite .fail (.pure _)

theorem encodeFuel_blind (ctx : ExprCtx) (fuel : Nat) : ∀ id, BlindM (encodeFuel ctx fuel id) := by
  induction fuel with
  | zero => exact fun _ => .fail
  | succ fuel ih =>
    intro id
    -- reading the memo is the only look at the state
    refine Blind.get (L := blasterLog) (f := fun b => (encodeMemo ctx fuel id (b.memo id)).run) (fun b => ?_) fun _ _ => rfl
    cases b.memo id with
    | some bits => exact BlindM.pure bits
    | none =>
      exact BlindM.ite .fail ((encodeNode_blind ctx ih _ _).bind fun bits =>
        (modify_blind (f := fun b => { b with memo := Function.update b.memo id (some bits) })
          (fun _ => rfl) fun _ _ => rfl).bind fun _ => .pure _)

theorem encode_blind (ctx : ExprCtx) (id : ExprId) : BlindM (encode ctx id) :=
  encodeFuel_blind ctx _ id

end Blaster

end Csolver.Sat
