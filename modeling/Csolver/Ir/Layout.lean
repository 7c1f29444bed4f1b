import Csolver.Core.Checked
import Csolver.Ir.Ops

/-!
# Sizes and strides of types (`crates/ir/src/ty.rs`)

All sizes are `u64` and every step is checked, so that a type too large to address has no size.
-/

namespace Csolver

/-- Target-specific sizes and alignments. -/
structure DataLayout where
  pointerSize : Nat
  pointerAlign : Nat
  maxIntAlign : Nat

def DataLayout.lp64 : DataLayout := ⟨8, 8, 8⟩

/-- Round up to a multiple of `align`, a power of two. -/
def alignUp (value align : Nat) : Option Nat :=
  (checkedU64 (value + (align - 1))).map fun v => v / align * align

def nextPowerOfTwo (n : Nat) : Nat := if n ≤ 1 then 1 else 2 ^ (Nat.log2 (n - 1) + 1)

namespace Ty

mutual

def alignBytes (layout : DataLayout) : Ty → Nat
  | unit => 1
  | bool => 1
  | int bits => min (nextPowerOfTwo (max ((bits + 7) / 8) 1)) layout.maxIntAlign
  | opq _ align => align
  | ptr _ => layout.pointerAlign
  | array elem _ => elem.alignBytes layout
  | struct fields packed => if packed then 1 else fieldsAlign layout fields

/-- The largest alignment of the fields, at least one. -/
def fieldsAlign (layout : DataLayout) : List Ty → Nat
  | [] => 1
  | f :: fs => max (f.alignBytes layout) (fieldsAlign layout fs)

end

mutual

def sizeBytes (layout : DataLayout) : Ty → Option Nat
  | unit => some 0
  | bool => some 1
  | int bits => some ((bits + 7) / 8)
  | opq bytes _ => some bytes
  | ptr _ => some layout.pointerSize
  | array elem len => do
    let size ← elem.sizeBytes layout
    let stride ← alignUp size (elem.alignBytes layout)
    checkedU64 (stride * len)
  | struct fields packed => do
    let offset ← fieldsEnd layout packed fields 0
    -- tail padding to the alignment of the whole
    alignUp offset (if packed then 1 else fieldsAlign layout fields)

/-- Where the fields end when the first is placed at or after `offset`. -/
def fieldsEnd (layout : DataLayout) (packed : Bool) : List Ty → Nat → Option Nat
  | [], offset => some offset
  | f :: fs, offset => do
    let start ← alignUp offset (if packed then 1 else f.alignBytes layout)
    let size ← f.sizeBytes layout
    let stop ← checkedU64 (start + size)
    fieldsEnd layout packed fs stop

end

/-- The stride between array elements. -/
def strideBytes (layout : DataLayout) (ty : Ty) : Option Nat := do
  let size ← ty.sizeBytes layout
  alignUp size (ty.alignBytes layout)

example : strideBytes .lp64 (.struct [.int 32, .int 8] false) = some 8 := by decide

end Ty

end Csolver
