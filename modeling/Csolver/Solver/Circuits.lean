import Csolver.Lib.Bits
import Csolver.Solver.Cnf
import Csolver.Solver.Expr

/-!
# Bit-vector circuits (`crates/solver/src/bitblast.rs`)

Operands are literal lists, least significant first. Loops over bit positions are recursions over
the lists: the divider walks the dividend from its top bit, so its recursion is over the reversed
list and pushes quotient bits in front.
-/

namespace Csolver.Sat

open Csolver.Lib

namespace Cnf

/-- One full adder: `(sum, carry_out)`. -/
def fullAdder (a b cin : Lit) : CnfM (Lit × Lit) := do
  let axb ← xor2 a b
  let sum ← xor2 axb cin
  let ab ← and2 a b
  let cx ← and2 cin axb
  let cout ← or2 ab cx
  return (sum, cout)

/-- Ripple-carry addition with an incoming carry. -/
def adder : List Lit → List Lit → Lit → CnfM (List Lit × Lit)
  | a :: as, b :: bs, cin => do
    let (s, c) ← fullAdder a b cin
    let (out, carry) ← adder as bs c
    return (s :: out, carry)
  | _, _, cin => return ([], cin)

def add (a b : List Lit) : CnfM (List Lit) := do
  let cin ← litFalse
  return (← adder a b cin).1

/-- `a - b` as `a + ¬b + 1`; the carry is set when there is no borrow. -/
def subWithBorrow (a b : List Lit) : CnfM (List Lit × Lit) := do
  let cin ← litTrue
  adder a (b.map Lit.negated) cin

def sub (a b : List Lit) : CnfM (List Lit) := do
  return (← subWithBorrow a b).1

/-- The partial product of `a` shifted up by `j` and masked by `bj`. -/
def partialProduct (zero : Lit) (a : List Lit) (j : Nat) (bj : Lit) : CnfM (List Lit) := do
  let high ← (a.take (a.length - j)).mapM fun ai => and2 ai bj
  return List.replicate j zero ++ high

def mulLoop (zero : Lit) (a : List Lit) : List Lit → Nat → List Lit → CnfM (List Lit)
  | [], _, acc => return acc
  | bj :: bs, j, acc => do
    let pp ← partialProduct zero a j bj
    let acc ← add acc pp
    mulLoop zero a bs (j + 1) acc

def mul (a b : List Lit) : CnfM (List Lit) := do
  let zero ← litFalse
  mulLoop zero a b 0 (List.replicate a.length zero)

def negate (a : List Lit) : CnfM (List Lit) := do
  let zero ← litFalse
  let cin ← litTrue
  return (← adder (a.map Lit.negated) (List.replicate a.length zero) cin).1

/-- `mux` position by position. -/
def muxVec (s : Lit) (as bs : List Lit) : CnfM (List Lit) :=
  (as.zip bs).mapM fun p => mux s p.1 p.2

/-- The sign bit `a[w - 1]`. -/
def signBit (a : List Lit) : Lit := a.getLastD default

def absSign (a : List Lit) : CnfM (List Lit × Lit) := do
  let nega ← negate a
  let mag ← muxVec (signBit a) nega a
  return (mag, signBit a)

/-- One step of the restoring division: shift the next dividend bit in and subtract if it goes. -/
def udivStep (bext : List Lit) (ai : Lit) (rem : List Lit) : CnfM (Lit × List Lit) := do
  let shifted := ai :: rem
  let (diff, carry) ← subWithBorrow shifted bext
  let newrem ← muxVec carry diff shifted
  return (carry, newrem.take rem.length)

/-- The dividend's bits from the top down; quotient bits come out in the same order. -/
def udivLoop (bext : List Lit) : List Lit → List Lit → List Lit → CnfM (List Lit × List Lit)
  | [], quot, rem => return (quot, rem)
  | ai :: as, quot, rem => do
    let (q, rem) ← udivStep bext ai rem
    udivLoop bext as (q :: quot) rem

/-- Unsigned division: `(quotient, remainder)`. -/
def udivrem (a b : List Lit) : CnfM (List Lit × List Lit) := do
  let zero ← litFalse
  udivLoop (b ++ [zero]) a.reverse [] (List.replicate a.length zero)

/-- Signed division, rounding toward zero: divide the magnitudes, then fix the signs. -/
def sdivrem (a b : List Lit) : CnfM (List Lit × List Lit) := do
  let (ma, sa) ← absSign a
  let (mb, sb) ← absSign b
  let (uq, ur) ← udivrem ma mb
  let qsign ← xor2 sa sb
  let negUq ← negate uq
  let quot ← muxVec qsign negUq uq
  let negUr ← negate ur
  let rem ← muxVec sa negUr ur
  return (quot, rem)

/-- `x` moved by `amt` positions, `fill` coming in. -/
def shiftWires (op : BvOp) (zero fill : Lit) (amt : Nat) (x : List Lit) : List Lit :=
  (List.range x.length).map fun i =>
    match op with
    | .shl => if amt ≤ i then x.getD (i - amt) default else zero
    | _ => if i + amt < x.length then x.getD (i + amt) default else fill

/-- The barrel: one stage for each control bit, the `k`-th shifting by `2 ^ k`. -/
def shiftStages (op : BvOp) (zero fill : Lit) : List Lit → Nat → List Lit → CnfM (List Lit)
  | [], _, x => return x
  | ctrl :: cs, k, x => do
    let x ← muxVec ctrl (shiftWires op zero fill (2 ^ k) x) x
    shiftStages op zero fill cs (k + 1) x

/-- The number of stages: `(w - 1).ilog2() + 1`. -/
def stages (w : Nat) : Nat := if w ≤ 1 then 0 else Nat.log2 (w - 1) + 1

def shiftVar (op : BvOp) (a b : List Lit) : CnfM (List Lit) := do
  let zero ← litFalse
  let fill := if op = .ashr then signBit a else zero
  let x ← shiftStages op zero fill (b.take (stages a.length)) 0 a
  let oob ← bigOr (b.drop (min (stages a.length) a.length))
  muxVec oob (List.replicate a.length fill) x

/-- `a & b`, `a | b` and `a ^ b`, bit by bit. -/
def bitwise (op : BvOp) (a b : List Lit) : CnfM (List Lit) :=
  (a.zip b).mapM fun p =>
    match op with
    | .and => and2 p.1 p.2
    | .or => or2 p.1 p.2
    | _ => xor2 p.1 p.2

def eq (a b : List Lit) : CnfM Lit := do
  let bits ← (a.zip b).mapM fun p => iff p.1 p.2
  bigAnd bits

/-- Unsigned `a < b`: the subtraction borrows. -/
def ult (a b : List Lit) : CnfM Lit := do
  return (← subWithBorrow a b).2.negated

def slt (a b : List Lit) : CnfM Lit := do
  let diffSign ← xor2 (signBit a) (signBit b)
  let unsignedLt ← ult a b
  mux diffSign (signBit a) unsignedLt

def compare (op : CmpOp) (a b : List Lit) : CnfM Lit :=
  match op with
  | .eq => eq a b
  | .ne => do return (← eq a b).negated
  | .ult => ult a b
  | .ule => do return (← ult b a).negated
  | .ugt => ult b a
  | .uge => do return (← ult a b).negated
  | .slt => slt a b
  | .sle => do return (← slt b a).negated
  | .sgt => slt b a
  | .sge => do return (← slt a b).negated

end Cnf

/-! ## Meaning of literal lists -/

/-- The bits a literal list has under an assignment. -/
def vals (m : Nat → Bool) (ls : List Lit) : List Bool := ls.map (litVal m)

def num (m : Nat → Bool) (ls : List Lit) : Nat := Bits.value (vals m ls)

@[simp] theorem vals_length (m : Nat → Bool) (ls : List Lit) : (vals m ls).length = ls.length :=
  List.length_map ..

@[simp] theorem num_nil (m : Nat → Bool) : num m [] = 0 := rfl

@[simp] theorem num_cons (m : Nat → Bool) (l : Lit) (ls : List Lit) :
    num m (l :: ls) = (litVal m l).toNat + 2 * num m ls := rfl

theorem num_lt (m : Nat → Bool) (ls : List Lit) : num m ls < 2 ^ ls.length := by
  have := Bits.value_lt (vals m ls)
  rwa [vals_length] at this

theorem vals_negated (m : Nat → Bool) (ls : List Lit) :
    vals m (ls.map Lit.negated) = (vals m ls).map (! ·) := by
  unfold vals
  rw [List.map_map, List.map_map]
  exact List.map_congr_left fun l _ => litVal_negated m l

theorem num_negated (m : Nat → Bool) (ls : List Lit) :
    num m (ls.map Lit.negated) + num m ls + 1 = 2 ^ ls.length := by
  unfold num
  rw [vals_negated, Bits.value_map_not, vals_length]

theorem num_replicate_zero {m : Nat → Bool} {zero : Lit} (h : litVal m zero = false) (n : Nat) :
    num m (List.replicate n zero) = 0 := by
  unfold num vals
  rw [List.map_replicate, h, Bits.value_replicate_false]

theorem num_append (m : Nat → Bool) (as bs : List Lit) :
    num m (as ++ bs) = num m as + 2 ^ as.length * num m bs := by
  unfold num vals
  rw [List.map_append, Bits.value_append, List.length_map]

theorem num_take (m : Nat → Bool) (ls : List Lit) (n : Nat) :
    num m (ls.take n) = num m ls % 2 ^ n := by
  unfold num vals
  rw [List.map_take, Bits.value_take]

end Csolver.Sat
