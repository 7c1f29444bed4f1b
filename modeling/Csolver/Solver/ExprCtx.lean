import Csolver.Solver.Expr
import Mathlib.Data.List.Dedup

/-!
# The hash-consing arena (`crates/solver/src/expr.rs`)

`ExprCtx` keeps the interned nodes in order of creation; the intern table is the inverse of that
list, so it is looked up there. Builders simplify as they go and run in `ExprM`, whose failure is
the panic of `BitVector::new` on a width outside `1..=128`.

Handles only point backwards (`ExprCtx.Ok`), which is what lets a handle be followed to a tree
(`ExprCtx.expr`).
-/

namespace Csolver

/-- A fixed-width constant, `0 < width ≤ 128`, reduced modulo `2 ^ width`. -/
structure BitVector where
  width : Nat
  value : Nat
  width_pos : 0 < width
  width_le : width ≤ 128
  value_lt : value < 2 ^ width
  deriving DecidableEq

namespace BitVector

-- The bounds of the constants that the development writes out.
theorem pos8 : 0 < 8 := by decide

theorem le8 : 8 ≤ 128 := by decide

theorem pos32 : 0 < 32 := by decide

theorem le32 : 32 ≤ 128 := by decide

theorem pos64 : 0 < 64 := by decide

theorem le64 : 64 ≤ 128 := by decide

theorem zero_lt8 : 0 < 2 ^ 8 := by decide

theorem one_lt8 : 1 < 2 ^ 8 := by decide

theorem three_lt8 : 3 < 2 ^ 8 := by decide

theorem maxI8_lt8 : 127 < 2 ^ 8 := by decide

theorem one_lt32 : 1 < 2 ^ 32 := by decide

theorem zero_lt64 : 0 < 2 ^ 64 := by decide

theorem one_lt64 : 1 < 2 ^ 64 := by decide

theorem two_lt64 : 2 < 2 ^ 64 := by decide

/-- `BitVector::new`, which panics on a width out of range. -/
def new (width value : Nat) : Option BitVector :=
  if h : 0 < width ∧ width ≤ 128 then
    some ⟨width, value % 2 ^ width, h.1, h.2, Nat.mod_lt _ (Nat.two_pow_pos _)⟩
  else none

def signed (x : BitVector) : Int := (BitVec.ofNat x.width x.value).toInt

end BitVector

abbrev ExprId := Nat

/-- An interned node; its children are handles. -/
inductive Node where
  | const (bv : BitVector)
  | sym (name : String) (width : Nat)
  | bin (op : BvOp) (a b : ExprId)
  | cmp (op : CmpOp) (a b : ExprId)
  | bool (b : Bool)
  | not (x : ExprId)
  | and (xs : List ExprId)
  | or (xs : List ExprId)
  | ite (c t e : ExprId)
  | zext (x : ExprId)
  | sext (x : ExprId)
  deriving DecidableEq

/-- The arena: each node with its width. -/
structure ExprCtx where
  nodes : List (Node × Nat)

namespace ExprCtx

def empty : ExprCtx := ⟨[]⟩

def len (c : ExprCtx) : Nat := c.nodes.length

def node (c : ExprCtx) (id : ExprId) : Node := (c.nodes.getD id (.bool false, 1)).1

def width (c : ExprCtx) (id : ExprId) : Nat := (c.nodes.getD id (.bool false, 1)).2

def asConst (c : ExprCtx) (id : ExprId) : Option BitVector :=
  match c.node id with
  | .const bv => some bv
  | _ => none

def asBool (c : ExprCtx) (id : ExprId) : Option Bool :=
  match c.node id with
  | .bool b => some b
  | _ => none

end ExprCtx

/-- Builders: the arena grows, or the process panics. -/
abbrev ExprM := StateT ExprCtx Option

/-- `0..2^128`: the low 128 bits of an integer, as a cast to `u128` keeps them. -/
def toU128 (x : Int) : Nat := (x % 2 ^ 128).toNat

/-- `fold_bin`: a binary operation over two constants, on 128-bit words; `none` on division by
    zero. -/
def foldBin (op : BvOp) (x y : BitVector) (w : Nat) : Option Nat :=
  let xu := x.value
  let yu := y.value
  match op with
  | .add => some ((xu + yu) % 2 ^ 128)
  | .sub => some ((xu + (2 ^ 128 - yu)) % 2 ^ 128)
  | .mul => some (xu * yu % 2 ^ 128)
  | .udiv => if yu = 0 then none else some (xu / yu)
  | .urem => if yu = 0 then none else some (xu % yu)
  | .sdiv => if y.signed = 0 then none else some (toU128 (x.signed.tdiv y.signed))
  | .srem => if y.signed = 0 then none else some (toU128 (x.signed.tmod y.signed))
  | .and => some (xu &&& yu)
  | .or => some (xu ||| yu)
  | .xor => some (xu ^^^ yu)
  | .shl => some (if w ≤ yu then 0 else (xu <<< yu) % 2 ^ 128)
  | .lshr => some (if w ≤ yu then 0 else xu >>> yu)
  | .ashr => some (if w ≤ yu then (if x.signed < 0 then 2 ^ 128 - 1 else 0)
      else toU128 (x.signed >>> yu))

def evalCmp (op : CmpOp) (x y : BitVector) : Bool :=
  match op with
  | .eq => x.value == y.value
  | .ne => x.value != y.value
  | .ult => decide (x.value < y.value)
  | .ule => decide (x.value ≤ y.value)
  | .ugt => decide (y.value < x.value)
  | .uge => decide (y.value ≤ x.value)
  | .slt => decide (x.signed < y.signed)
  | .sle => decide (x.signed ≤ y.signed)
  | .sgt => decide (y.signed < x.signed)
  | .sge => decide (y.signed ≤ x.signed)

namespace ExprCtx

/-- `intern`: the table is keyed by the node alone, so a hit returns the width of the first
    interning. -/
def intern (n : Node) (w : Nat) : ExprM ExprId := fun c =>
  match c.nodes.findIdx? fun p => p.1 = n with
  | some id => some (id, c)
  | none => some (c.len, ⟨c.nodes ++ [(n, w)]⟩)

def constant (bv : BitVector) : ExprM ExprId := intern (.const bv) bv.width

def int (w v : Nat) : ExprM ExprId := do
  let bv ← (BitVector.new w v : Option BitVector)
  constant bv

def symbol (name : String) (w : Nat) : ExprM ExprId := intern (.sym name w) w

def boolean (b : Bool) : ExprM ExprId := intern (.bool b) 1

def zext (val : ExprId) (w : Nat) : ExprM ExprId := do
  let c ← get
  if w ≤ c.width val then return val
  else match c.asConst val with
    | some bv => int w bv.value
    | none => intern (.zext val) w

def sext (val : ExprId) (w : Nat) : ExprM ExprId := do
  let c ← get
  if w ≤ c.width val then return val
  else match c.asConst val with
    | some bv => int w (toU128 bv.signed)
    | none => intern (.sext val) w

/-- What constant folding makes of a binary operation, if both operands are constants of one
    width. -/
def folded (c : ExprCtx) (op : BvOp) (a b : ExprId) : Option Nat :=
  match c.asConst a, c.asConst b with
  | some x, some y => if x.width = y.width then foldBin op x y (c.width a) else none
  | _, _ => none

/-- The identities of `bin`: the operand it collapses to, in the source's order. -/
def identity (c : ExprCtx) (op : BvOp) (a b : ExprId) : Option ExprId :=
  let zero := (c.asConst a).map fun v => v.value == 0
  let zeroB := (c.asConst b).map fun v => v.value == 0
  let one := (c.asConst a).map fun v => v.value == 1
  let oneB := (c.asConst b).map fun v => v.value == 1
  if (op = .add ∨ op = .sub ∨ op = .or ∨ op = .xor) ∧ zeroB = some true then some a
  else if (op = .add ∨ op = .or) ∧ zero = some true then some b
  else if (op = .mul ∨ op = .and) ∧ zeroB = some true then some b
  else if (op = .mul ∨ op = .and) ∧ zero = some true then some a
  else if op = .mul ∧ oneB = some true then some a
  else if op = .mul ∧ one = some true then some b
  else none

def bin (op : BvOp) (a b : ExprId) : ExprM ExprId := do
  let c ← get
  match c.folded op a b with
  | some v => int (c.width a) v
  | none =>
    match c.identity op a b with
    | some x => return x
    | none => if op = .sub ∧ a = b then int (c.width a) 0 else intern (.bin op a b) (c.width a)

def cmp (op : CmpOp) (a b : ExprId) : ExprM ExprId := do
  let c ← get
  let plain : ExprM ExprId :=
    if a = b then boolean (op = .eq ∨ op = .ule ∨ op = .uge ∨ op = .sle ∨ op = .sge)
    else intern (.cmp op a b) 1
  match c.asConst a, c.asConst b with
  | some x, some y => if x.width = y.width then boolean (evalCmp op x y) else plain
  | _, _ => plain

def not (e : ExprId) : ExprM ExprId := do
  let c ← get
  match c.node e with
  | .bool b => boolean !b
  | .not inner => return inner
  | .cmp op a b => cmp op.negate a b
  | _ => intern (.not e) 1

/-- `sort_unstable` and `dedup`. -/
def sortDedup (xs : List ExprId) : List ExprId := (xs.mergeSort fun a b => decide (a ≤ b)).dedup

/-- The operands of a connective with its neutral literals dropped and its nested occurrences opened
    by `sub`; `none` when an operand is the absorbing literal. -/
def flatten (c : ExprCtx) (neutral : Bool) (sub : Node → Option (List ExprId)) :
    List ExprId → Option (List ExprId)
  | [] => some []
  | p :: ps =>
    match c.node p with
    | .bool b => if b = neutral then flatten c neutral sub ps else none
    | n =>
      match sub n with
      | some inner => (flatten c neutral sub ps).map (inner ++ ·)
      | none => (flatten c neutral sub ps).map (p :: ·)

def andOperands : Node → Option (List ExprId)
  | .and inner => some inner
  | _ => none

def orOperands : Node → Option (List ExprId)
  | .or inner => some inner
  | _ => none

def and (parts : List ExprId) : ExprM ExprId := do
  let c ← get
  match c.flatten true andOperands parts with
  | none => boolean false
  | some flat =>
    match sortDedup flat with
    | [] => boolean true
    | [x] => return x
    | xs => intern (.and xs) 1

def or (parts : List ExprId) : ExprM ExprId := do
  let c ← get
  match c.flatten false orOperands parts with
  | none => boolean true
  | some flat =>
    match sortDedup flat with
    | [] => boolean false
    | [x] => return x
    | xs => intern (.or xs) 1

def ite (cond t e : ExprId) : ExprM ExprId := do
  let c ← get
  match c.asBool cond with
  | some b => return if b then t else e
  | none => if t = e then return t else intern (.ite cond t e) (c.width t)

/-! ## Well-formed arenas -/

/-- A node at position `i`: its handles point backwards and its width is the one its kind fixes. -/
def NodeOk (c : ExprCtx) (i : Nat) : Node → Nat → Prop
  | .const bv, w => w = bv.width
  | .sym _ w', w => w = w'
  | .bin _ a b, w => a < i ∧ b < i ∧ w = c.width a
  | .cmp _ a b, w => a < i ∧ b < i ∧ w = 1
  | .bool _, w => w = 1
  | .not x, w => x < i ∧ w = 1
  | .and xs, w => (∀ x ∈ xs, x < i) ∧ w = 1
  | .or xs, w => (∀ x ∈ xs, x < i) ∧ w = 1
  | .ite cond t e, w => cond < i ∧ t < i ∧ e < i ∧ w = c.width t
  | .zext x, w => x < i ∧ c.width x < w
  | .sext x, w => x < i ∧ c.width x < w

def Ok (c : ExprCtx) : Prop :=
  ∀ (i : Nat) (n : Node) (w : Nat), c.nodes[i]? = some (n, w) → NodeOk c i n w

theorem empty_ok : Ok empty := fun i n w h => absurd h (by simp [empty])

theorem getElem?_nodes {c : ExprCtx} {id : ExprId} (h : id < c.len) :
    c.nodes[id]? = some (c.node id, c.width id) := by
  rw [node, width, List.getD_eq_getElem?_getD, List.getElem?_eq_getElem h, Option.getD_some]

theorem Ok.node {c : ExprCtx} (h : c.Ok) {id : ExprId} (hid : id < c.len) :
    NodeOk c id (c.node id) (c.width id) := h id _ _ (getElem?_nodes hid)

theorem width_append {c : ExprCtx} {ns : List (Node × Nat)} {id : ExprId} (h : id < c.len) :
    (⟨c.nodes ++ ns⟩ : ExprCtx).width id = c.width id := by
  rw [width, width, List.getD_eq_getElem?_getD, List.getD_eq_getElem?_getD,
    List.getElem?_append_left h]

theorem NodeOk.append {c : ExprCtx} {ns : List (Node × Nat)} {i w : Nat} {n : Node}
    (hi : i ≤ c.len) (h : NodeOk c i n w) : NodeOk ⟨c.nodes ++ ns⟩ i n w := by
  cases n with
  | bin op a b =>
    exact ⟨h.1, h.2.1, by rw [width_append (Nat.lt_of_lt_of_le h.1 hi)]; exact h.2.2⟩
  | ite cond t e =>
    exact ⟨h.1, h.2.1, h.2.2.1,
      by rw [width_append (Nat.lt_of_lt_of_le h.2.1 hi)]; exact h.2.2.2⟩
  | zext x => exact ⟨h.1, by rw [width_append (Nat.lt_of_lt_of_le h.1 hi)]; exact h.2⟩
  | sext x => exact ⟨h.1, by rw [width_append (Nat.lt_of_lt_of_le h.1 hi)]; exact h.2⟩
  | const bv => exact h
  | sym name w' => exact h
  | cmp op a b => exact h
  | bool b => exact h
  | not x => exact h
  | and xs => exact h
  | or xs => exact h

/-- Run on `c`, the builder keeps the arena well formed, only adds to it, and returns a handle of
    it. -/
def Grows (x : ExprM ExprId) (c : ExprCtx) : Prop :=
  ∀ id d, x c = some (id, d) → d.Ok ∧ c.len ≤ d.len ∧ id < d.len

theorem Grows.pure {c : ExprCtx} (h : c.Ok) {x : ExprId} (hx : x < c.len) :
    Grows (Pure.pure x) c := by
  intro id d he
  obtain ⟨rfl, rfl⟩ : x = id ∧ c = d := Prod.mk.inj (Option.some.inj he)
  exact ⟨h, Nat.le_refl _, hx⟩

theorem intern_grows {c : ExprCtx} (h : c.Ok) {n : Node} {w : Nat} (hn : NodeOk c c.len n w) :
    Grows (intern n w) c := by
  intro id d he
  unfold intern at he
  cases hf : c.nodes.findIdx? fun p => p.1 = n with
  | some k =>
    simp only [hf, Option.some.injEq, Prod.mk.injEq] at he
    obtain ⟨rfl, rfl⟩ := he
    exact ⟨h, Nat.le_refl _, (List.findIdx?_eq_some_iff_getElem.mp hf).1⟩
  | none =>
    simp only [hf, Option.some.injEq, Prod.mk.injEq] at he
    obtain ⟨rfl, rfl⟩ := he
    have hlen : (⟨c.nodes ++ [(n, w)]⟩ : ExprCtx).len = c.len + 1 := by simp [len]
    refine ⟨?_, hlen ▸ Nat.le_succ _, hlen ▸ Nat.lt_succ_self _⟩
    intro i n' w' hi
    rcases Nat.lt_or_ge i c.len with hlt | hge
    · have hi' : (c.nodes ++ [(n, w)])[i]? = some (n', w') := hi
      rw [List.getElem?_append_left hlt] at hi'
      exact (h i n' w' hi').append (Nat.le_of_lt hlt)
    · have hi' : (c.nodes ++ [(n, w)])[i]? = some (n', w') := hi
      rw [List.getElem?_append_right hge] at hi'
      obtain ⟨hz, he'⟩ := List.getElem?_eq_some_iff.mp hi'
      have hzero : i - c.nodes.length = 0 := by simpa using hz
      have hic : i = c.len := by
        have : c.nodes.length = c.len := rfl
        omega
      simp only [hzero, List.getElem_cons_zero, Prod.mk.injEq] at he'
      obtain ⟨rfl, rfl⟩ := he'
      rw [hic]
      exact hn.append (Nat.le_refl _)

theorem constant_grows {c : ExprCtx} (h : c.Ok) (bv : BitVector) : Grows (constant bv) c :=
  intern_grows h rfl

theorem int_grows {c : ExprCtx} (h : c.Ok) (w v : Nat) : Grows (int w v) c := by
  intro id d he
  unfold int at he
  cases hb : BitVector.new w v with
  | none => simp [hb, bind, StateT.bind, liftM, monadLift, MonadLift.monadLift, StateT.lift] at he
  | some bv =>
    refine constant_grows h bv id d ?_
    simpa [hb, bind, StateT.bind, liftM, monadLift, MonadLift.monadLift, StateT.lift] using he

theorem boolean_grows {c : ExprCtx} (h : c.Ok) (b : Bool) : Grows (boolean b) c :=
  intern_grows h rfl

theorem symbol_grows {c : ExprCtx} (h : c.Ok) (name : String) (w : Nat) :
    Grows (symbol name w) c :=
  intern_grows h rfl

theorem Grows.get {c : ExprCtx} {f : ExprCtx → ExprM ExprId} (h : Grows (f c) c) :
    Grows (MonadState.get >>= f) c := h

theorem zext_grows {c : ExprCtx} (h : c.Ok) {x : ExprId} (hx : x < c.len) (w : Nat) :
    Grows (zext x w) c := by
  refine Grows.get ?_
  split_ifs with hw
  · exact Grows.pure h hx
  · cases c.asConst x with
    | some bv => exact int_grows h w bv.value
    | none => exact intern_grows h ⟨hx, by omega⟩

theorem sext_grows {c : ExprCtx} (h : c.Ok) {x : ExprId} (hx : x < c.len) (w : Nat) :
    Grows (sext x w) c := by
  refine Grows.get ?_
  split_ifs with hw
  · exact Grows.pure h hx
  · cases c.asConst x with
    | some bv => exact int_grows h w _
    | none => exact intern_grows h ⟨hx, by omega⟩

theorem identity_mem {c : ExprCtx} {op : BvOp} {a b x : ExprId} (h : c.identity op a b = some x) :
    x = a ∨ x = b := by
  unfold identity at h
  simp only at h
  split_ifs at h <;> simp_all

theorem bin_grows {c : ExprCtx} (h : c.Ok) (op : BvOp) {a b : ExprId} (ha : a < c.len)
    (hb : b < c.len) : Grows (bin op a b) c := by
  refine Grows.get ?_
  cases c.folded op a b with
  | some v => exact int_grows h _ v
  | none =>
    cases hi : c.identity op a b with
    | some x =>
      refine Grows.pure h ?_
      rcases identity_mem hi with rfl | rfl
      · exact ha
      · exact hb
    | none =>
      simp only
      split_ifs
      · exact int_grows h _ 0
      · exact intern_grows h ⟨ha, hb, rfl⟩

theorem cmp_grows {c : ExprCtx} (h : c.Ok) (op : CmpOp) {a b : ExprId} (ha : a < c.len)
    (hb : b < c.len) : Grows (cmp op a b) c := by
  refine Grows.get ?_
  have hplain : Grows (if a = b then boolean (op = .eq ∨ op = .ule ∨ op = .uge ∨ op = .sle ∨ op = .sge)
      else intern (.cmp op a b) 1) c := by
    split_ifs
    · exact boolean_grows h _
    · exact intern_grows h ⟨ha, hb, rfl⟩
  cases c.asConst a with
  | none => exact hplain
  | some x =>
    cases c.asConst b with
    | none => exact hplain
    | some y =>
      simp only
      split_ifs
      · exact boolean_grows h _
      · exact boolean_grows h _
      · exact intern_grows h ⟨ha, hb, rfl⟩

theorem not_grows {c : ExprCtx} (h : c.Ok) {e : ExprId} (he : e < c.len) : Grows (not e) c := by
  refine Grows.get ?_
  have hok := h.node he
  cases hn : c.node e with
  | bool b => exact boolean_grows h _
  | not inner =>
    rw [hn] at hok
    exact Grows.pure h (Nat.lt_trans hok.1 he)
  | cmp op a b =>
    rw [hn] at hok
    exact cmp_grows h _ (Nat.lt_trans hok.1 he) (Nat.lt_trans hok.2.1 he)
  | const bv => exact intern_grows h ⟨he, rfl⟩
  | sym name w => exact intern_grows h ⟨he, rfl⟩
  | bin op a b => exact intern_grows h ⟨he, rfl⟩
  | and xs => exact intern_grows h ⟨he, rfl⟩
  | or xs => exact intern_grows h ⟨he, rfl⟩
  | ite x t e => exact intern_grows h ⟨he, rfl⟩
  | zext x => exact intern_grows h ⟨he, rfl⟩
  | sext x => exact intern_grows h ⟨he, rfl⟩

theorem mem_sortDedup {xs : List ExprId} {x : ExprId} : x ∈ sortDedup xs ↔ x ∈ xs := by
  rw [sortDedup, List.mem_dedup, List.mem_mergeSort]

theorem flatten_lt {c : ExprCtx} (h : c.Ok) {neutral : Bool} {sub : Node → Option (List ExprId)}
    (hsub : ∀ {i n w xs}, sub n = some xs → NodeOk c i n w → ∀ x ∈ xs, x < i) (ps : List ExprId) :
    ∀ {flat : List ExprId}, (∀ p ∈ ps, p < c.len) → c.flatten neutral sub ps = some flat →
      ∀ x ∈ flat, x < c.len := by
  induction ps with
  | nil =>
    intro flat _ hf x hx
    obtain rfl : [] = flat := by simpa [flatten] using hf
    exact absurd hx List.not_mem_nil
  | cons p ps ih =>
    intro flat hps hf
    have hp : p < c.len := hps p List.mem_cons_self
    have hrest : ∀ q ∈ ps, q < c.len := fun q hq => hps q (List.mem_cons_of_mem _ hq)
    have hok := h.node hp
    have hpush : ∀ {ys : List ExprId}, (∀ y ∈ ys, y < c.len) →
        (c.flatten neutral sub ps).map (ys ++ ·) = some flat → ∀ x ∈ flat, x < c.len := by
      intro ys hys hm x hx
      obtain ⟨zs, hzs, rfl⟩ := Option.map_eq_some_iff.mp hm
      rcases List.mem_append.mp hx with hx | hx
      · exact hys x hx
      · exact ih hrest hzs x hx
    have hself : ∀ y ∈ [p], y < c.len := fun y hy => by rw [List.mem_singleton.mp hy]; exact hp
    by_cases hbool : ∃ b, c.node p = .bool b
    · obtain ⟨b, hb⟩ := hbool
      rw [flatten, hb] at hf
      by_cases hn : b = neutral
      · exact ih hrest (by simpa [hn] using hf)
      · simp [hn] at hf
    · have hstep : c.flatten neutral sub (p :: ps) =
          match sub (c.node p) with
          | some inner => (c.flatten neutral sub ps).map (inner ++ ·)
          | none => (c.flatten neutral sub ps).map (p :: ·) := by
        rw [flatten]
        cases hn : c.node p <;> first | rfl | exact absurd ⟨_, hn⟩ hbool
      rw [hstep] at hf
      cases hs : sub (c.node p) with
      | some inner =>
        rw [hs] at hf
        exact hpush (fun y hy => Nat.lt_trans (hsub hs hok y hy) hp) hf
      | none =>
        rw [hs] at hf
        exact hpush hself hf

theorem andOperands_lt {c : ExprCtx} {i w : Nat} {n : Node} {xs : List ExprId}
    (h : andOperands n = some xs) (hn : NodeOk c i n w) : ∀ x ∈ xs, x < i := by
  cases n with
  | and ys =>
    obtain rfl : ys = xs := Option.some.inj h
    exact hn.1
  | _ => exact absurd h (by simp [andOperands])

theorem orOperands_lt {c : ExprCtx} {i w : Nat} {n : Node} {xs : List ExprId}
    (h : orOperands n = some xs) (hn : NodeOk c i n w) : ∀ x ∈ xs, x < i := by
  cases n with
  | or ys =>
    obtain rfl : ys = xs := Option.some.inj h
    exact hn.1
  | _ => exact absurd h (by simp [orOperands])

theorem and_grows {c : ExprCtx} (h : c.Ok) {ps : List ExprId} (hps : ∀ p ∈ ps, p < c.len) :
    Grows (and ps) c := by
  refine Grows.get ?_
  cases hf : c.flatten true andOperands ps with
  | none => exact boolean_grows h _
  | some flat =>
    have hlt : ∀ x ∈ sortDedup flat, x < c.len := fun x hx =>
      flatten_lt h andOperands_lt ps hps hf x (mem_sortDedup.mp hx)
    match hs : sortDedup flat with
    | [] => simp only [hs]; exact boolean_grows h _
    | [x] => simp only [hs]; exact Grows.pure h (hlt x (by rw [hs]; simp))
    | x :: y :: zs => simp only [hs]; exact intern_grows h ⟨hs ▸ hlt, rfl⟩

theorem or_grows {c : ExprCtx} (h : c.Ok) {ps : List ExprId} (hps : ∀ p ∈ ps, p < c.len) :
    Grows (or ps) c := by
  refine Grows.get ?_
  cases hf : c.flatten false orOperands ps with
  | none => exact boolean_grows h _
  | some flat =>
    have hlt : ∀ x ∈ sortDedup flat, x < c.len := fun x hx =>
      flatten_lt h orOperands_lt ps hps hf x (mem_sortDedup.mp hx)
    match hs : sortDedup flat with
    | [] => simp only [hs]; exact boolean_grows h _
    | [x] => simp only [hs]; exact Grows.pure h (hlt x (by rw [hs]; simp))
    | x :: y :: zs => simp only [hs]; exact intern_grows h ⟨hs ▸ hlt, rfl⟩

theorem ite_grows {c : ExprCtx} (h : c.Ok) {cond t e : ExprId} (hc : cond < c.len)
    (ht : t < c.len) (he : e < c.len) : Grows (ite cond t e) c := by
  refine Grows.get ?_
  cases c.asBool cond with
  | some b => cases b <;> exact Grows.pure h ‹_›
  | none =>
    simp only
    split_ifs
    · exact Grows.pure h ht
    · exact intern_grows h ⟨hc, ht, he, rfl⟩

/-- The arenas a client can build: by builder calls on handles it holds. -/
inductive Built : ExprCtx → Prop
  | empty : Built empty
  | constant {c d id} (bv : BitVector) : Built c → constant bv c = some (id, d) → Built d
  | symbol {c d id} (name : String) (w : Nat) : Built c → symbol name w c = some (id, d) → Built d
  | boolean {c d id} (b : Bool) : Built c → boolean b c = some (id, d) → Built d
  | zext {c d id} {x : ExprId} (w : Nat) : Built c → x < c.len → zext x w c = some (id, d) → Built d
  | sext {c d id} {x : ExprId} (w : Nat) : Built c → x < c.len → sext x w c = some (id, d) → Built d
  | bin {c d id} {a b : ExprId} (op : BvOp) :
      Built c → a < c.len → b < c.len → bin op a b c = some (id, d) → Built d
  | cmp {c d id} {a b : ExprId} (op : CmpOp) :
      Built c → a < c.len → b < c.len → cmp op a b c = some (id, d) → Built d
  | not {c d id} {x : ExprId} : Built c → x < c.len → not x c = some (id, d) → Built d
  | and {c d id} {ps : List ExprId} :
      Built c → (∀ p ∈ ps, p < c.len) → and ps c = some (id, d) → Built d
  | or {c d id} {ps : List ExprId} :
      Built c → (∀ p ∈ ps, p < c.len) → or ps c = some (id, d) → Built d
  | ite {c d id} {x t e : ExprId} :
      Built c → x < c.len → t < c.len → e < c.len → ite x t e c = some (id, d) → Built d

theorem Built.ok {c : ExprCtx} (h : Built c) : c.Ok := by
  induction h with
  | empty => exact empty_ok
  | constant bv _ he ih => exact (constant_grows ih bv _ _ he).1
  | symbol name w _ he ih => exact (symbol_grows ih name w _ _ he).1
  | boolean b _ he ih => exact (boolean_grows ih b _ _ he).1
  | zext w _ hx he ih => exact (zext_grows ih hx w _ _ he).1
  | sext w _ hx he ih => exact (sext_grows ih hx w _ _ he).1
  | bin op _ ha hb he ih => exact (bin_grows ih op ha hb _ _ he).1
  | cmp op _ ha hb he ih => exact (cmp_grows ih op ha hb _ _ he).1
  | not _ hx he ih => exact (not_grows ih hx _ _ he).1
  | and _ hps he ih => exact (and_grows ih hps _ _ he).1
  | or _ hps he ih => exact (or_grows ih hps _ _ he).1
  | ite _ hc ht he' he ih => exact (ite_grows ih hc ht he' _ _ he).1

/-! ## Following handles -/

/-- The tree behind a handle; enough fuel is one more than the handle. -/
def exprFuel (c : ExprCtx) : Nat → ExprId → Expr
  | 0, _ => .bool false
  | fuel + 1, id =>
    match c.node id with
    | .const bv => .const bv.width bv.value
    | .sym name w => .sym name w
    | .bin op a b => .bin op (exprFuel c fuel a) (exprFuel c fuel b)
    | .cmp op a b => .cmp op (exprFuel c fuel a) (exprFuel c fuel b)
    | .bool b => .bool b
    | .not x => .not (exprFuel c fuel x)
    | .and xs => .and (xs.map (exprFuel c fuel))
    | .or xs => .or (xs.map (exprFuel c fuel))
    | .ite x t e => .ite (exprFuel c fuel x) (exprFuel c fuel t) (exprFuel c fuel e)
    | .zext x => .zext (c.width id) (exprFuel c fuel x)
    | .sext x => .sext (c.width id) (exprFuel c fuel x)

def expr (c : ExprCtx) (id : ExprId) : Expr := exprFuel c (id + 1) id

end ExprCtx

end Csolver
