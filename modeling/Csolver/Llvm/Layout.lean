import Csolver.Llvm.Gep
import Mathlib.Tactic.Ring

/-!
# Sizes and offsets as LLVM defines them, and as they are computed

LLVM strides array elements and struct fields by their allocation size, which is a multiple of the alignment.
The lowering knows the alignment of the elements of a vector only, and strides a field by its size without
padding; the two agree on types whose integers have no padding, and whose vectors stand in no struct.
-/

namespace Csolver

namespace Llvm

/-! ## LLVM's layout of an LP64 target -/

def roundUp (n align : Nat) : Nat := (n + (align - 1)) / align * align

/-- The bytes of an element of a vector. -/
def LType.storeBytes : LType → Nat
  | .int bits => (bits + 7) / 8
  | .ptr => 8
  | _ => 0

mutual

def LType.abiAlign : LType → Nat
  | .int bits => min (nextPowerOfTwo (max ((bits + 7) / 8) 1)) 8
  | .ptr => 8
  | .array elem _ => elem.abiAlign
  -- a vector is aligned as a whole
  | .vector elem n => nextPowerOfTwo (n * elem.storeBytes)
  | .struct fields => abiAlignAll fields
  | .packedStruct _ | .void | .named _ | .metadata => 1

def abiAlignAll : List LType → Nat
  | [] => 1
  | f :: fs => max f.abiAlign (abiAlignAll fs)

end

mutual

def LType.allocSize : LType → Nat
  | .int bits => roundUp ((bits + 7) / 8) (LType.abiAlign (.int bits))
  | .ptr => 8
  | .array elem n => elem.allocSize * n
  | .vector elem n => roundUp (n * elem.storeBytes) (LType.abiAlign (.vector elem n))
  | .struct fields => roundUp (fieldsEnd false fields 0) (abiAlignAll fields)
  | .packedStruct fields => fieldsEnd true fields 0
  | .void | .named _ | .metadata => 0

def fieldsEnd (packed : Bool) : List LType → Nat → Nat
  | [], offset => offset
  | f :: fs, offset => fieldsEnd packed fs (roundUp offset (if packed then 1 else f.abiAlign) + f.allocSize)

end

def fieldOffset (packed : Bool) : List LType → Nat → Nat → Option Nat
  | [], _, _ => none
  | f :: fs, offset, k =>
    let start := roundUp offset (if packed then 1 else f.abiAlign)
    match k with
    | 0 => some start
    | k + 1 => fieldOffset packed fs (start + f.allocSize) k

/-- The byte offset of a walk through a type. -/
def navOffset : LType → List Int → Option Int
  | _, [] => some 0
  | .struct fields, z :: zs =>
    if 0 ≤ z then do
      let f ← fields[z.toNat]?
      let o ← fieldOffset false fields 0 z.toNat
      let r ← navOffset f zs
      return o + r
    else none
  | .packedStruct fields, z :: zs =>
    if 0 ≤ z then do
      let f ← fields[z.toNat]?
      let o ← fieldOffset true fields 0 z.toNat
      let r ← navOffset f zs
      return o + r
    else none
  | .array elem _, z :: zs => do
    let r ← navOffset elem zs
    return z * elem.allocSize + r
  | .vector elem _, z :: zs => do
    let r ← navOffset elem zs
    return z * elem.storeBytes + r
  | _, _ :: _ => none

/-! ## Types without hidden padding -/

mutual

/-- The lowered type has LLVM's size, and with `aligned` also its alignment: integers fill a multiple of their
alignment, and a vector has the size of a power of two, to which it is aligned if that matters. -/
def Laid (aligned : Bool) : LType → Prop
  | .int bits => (bits + 7) / 8 % LType.abiAlign (.int bits) = 0
  | .ptr => True
  | .array elem _ => Laid aligned elem
  | .vector elem n => (aligned = true → elem.abiAlign = nextPowerOfTwo (n * elem.storeBytes)) ∧ Laid true elem ∧
      elem.storeBytes = elem.allocSize ∧ nextPowerOfTwo (n * elem.storeBytes) = n * elem.storeBytes
  | .struct fields => LaidAll true fields
  | .packedStruct fields => LaidAll false fields
  | .void | .named _ | .metadata => False

def LaidAll (aligned : Bool) : List LType → Prop
  | [] => True
  | f :: fs => Laid aligned f ∧ LaidAll aligned fs

end

/-! ## Rounding -/

theorem alignUp_eq {n align r : Nat} (h : alignUp n align = some r) : r = roundUp n align := by
  rw [alignUp, Option.map_eq_some_iff] at h
  obtain ⟨v, hv, rfl⟩ := h
  rw [eq_of_checkedU64 hv, roundUp]

theorem roundUp_of_dvd {n align : Nat} (hpos : 0 < align) (h : align ∣ n) : roundUp n align = n := by
  obtain ⟨k, rfl⟩ := h
  rw [roundUp, Nat.mul_add_div hpos, Nat.div_eq_of_lt (by omega), Nat.add_zero, Nat.mul_comm]

theorem dvd_roundUp (n align : Nat) : align ∣ roundUp n align := Dvd.intro_left _ rfl

theorem le_roundUp {n align : Nat} (hpos : 0 < align) : n ≤ roundUp n align := by
  rw [roundUp]
  have h := Nat.div_add_mod (n + (align - 1)) align
  have hlt := Nat.mod_lt (n + (align - 1)) hpos
  have hcomm := Nat.mul_comm align ((n + (align - 1)) / align)
  omega

theorem roundUp_one (n : Nat) : roundUp n 1 = n := by simp [roundUp]

theorem nextPowerOfTwo_pos (n : Nat) : 0 < nextPowerOfTwo n := by
  rw [nextPowerOfTwo]
  split
  · exact Nat.one_pos
  · exact Nat.two_pow_pos _

/-! ## The two layouts -/

mutual

theorem alignBytes_pos : ∀ ty : LType, 0 < (lowerType ty).alignBytes .lp64
  | .int bits => by
    rw [lowerType, Ty.alignBytes]
    exact Nat.lt_min.mpr ⟨nextPowerOfTwo_pos _, by decide⟩
  | .array elem _ | .vector elem _ => by
    rw [lowerType, Ty.alignBytes]
    exact alignBytes_pos elem
  | .struct fields => by
    rw [lowerType, Ty.alignBytes, if_neg (by decide)]
    exact fieldsAlign_pos fields
  | .void | .metadata | .ptr | .named _ | .packedStruct _ => by simp [lowerType, Ty.alignBytes, DataLayout.lp64]

theorem fieldsAlign_pos : ∀ fields : List LType, 0 < Ty.fieldsAlign .lp64 (lowerTypes fields)
  | [] => by simp [lowerTypes, Ty.fieldsAlign]
  | f :: fs => by
    rw [lowerTypes, Ty.fieldsAlign]
    exact Nat.lt_of_lt_of_le (alignBytes_pos f) (Nat.le_max_left _ _)

end

mutual

theorem laid_align : ∀ ty : LType, Laid true ty → (lowerType ty).alignBytes .lp64 = ty.abiAlign
  | .int _, _ | .ptr, _ => rfl
  | .array elem _, h => by
    rw [Laid] at h
    exact laid_align elem h
  | .vector elem n, h => by
    rw [Laid] at h
    rw [lowerType, Ty.alignBytes, laid_align elem h.2.1, h.1 rfl, LType.abiAlign]
  | .struct fields, h => by
    rw [Laid] at h
    rw [lowerType, Ty.alignBytes, if_neg (by decide)]
    exact laidAll_align fields h
  | .packedStruct _, _ => by rw [lowerType, Ty.alignBytes, if_pos rfl, LType.abiAlign]
  | .void, h | .named _, h | .metadata, h => by
    rw [Laid] at h
    exact h.elim

theorem laidAll_align : ∀ fields : List LType, LaidAll true fields →
    Ty.fieldsAlign .lp64 (lowerTypes fields) = abiAlignAll fields
  | [], _ => rfl
  | f :: fs, h => by
    rw [LaidAll] at h
    rw [lowerTypes, Ty.fieldsAlign, abiAlignAll, laid_align f h.1, laidAll_align fs h.2]

end

/-- The size is that of LLVM, and no padding is missing. -/
structure Agrees (ty : LType) (size : Nat) : Prop where
  size_eq : size = ty.allocSize
  dvd : (lowerType ty).alignBytes .lp64 ∣ size

theorem Agrees.stride {ty : LType} {size stride : Nat} (h : Agrees ty size)
    (hs : alignUp size ((lowerType ty).alignBytes .lp64) = some stride) : stride = ty.allocSize := by
  rw [alignUp_eq hs, roundUp_of_dvd (alignBytes_pos ty) h.dvd, h.size_eq]

theorem place_eq {aligned : Bool} {f : LType} (h : Laid aligned f) (offset : Nat) :
    roundUp offset (if (!aligned) = true then 1 else (lowerType f).alignBytes .lp64) =
      roundUp offset (if (!aligned) = true then 1 else f.abiAlign) := by
  cases aligned with
  | true => rw [laid_align f h]
  | false => rfl

mutual

theorem laid_agrees : ∀ (ty : LType) {aligned : Bool} {size : Nat}, Laid aligned ty →
    (lowerType ty).sizeBytes .lp64 = some size → Agrees ty size
  | .int bits, aligned, size, h, hs => by
    rw [lowerType, Ty.sizeBytes] at hs
    obtain rfl := Option.some.inj hs
    rw [Laid] at h
    have hdvd := Nat.dvd_of_mod_eq_zero h
    have halign : (lowerType (.int bits)).alignBytes .lp64 = LType.abiAlign (.int bits) := rfl
    refine ⟨?_, halign ▸ hdvd⟩
    rw [LType.allocSize, roundUp_of_dvd (halign ▸ alignBytes_pos (.int bits)) hdvd]
  | .ptr, aligned, size, _, hs => by
    rw [lowerType, Ty.sizeBytes] at hs
    obtain rfl := Option.some.inj hs
    exact ⟨rfl, by simp [lowerType, Ty.alignBytes, DataLayout.lp64]⟩
  | .array elem n, aligned, size, h, hs => by
    rw [Laid] at h
    rw [lowerType, Ty.sizeBytes] at hs
    obtain ⟨es, hes, hs⟩ := Option.bind_eq_some_iff.mp hs
    obtain ⟨stride, hstride, hs⟩ := Option.bind_eq_some_iff.mp hs
    have helem := laid_agrees elem h hes
    have heq := helem.stride hstride
    refine ⟨?_, ?_⟩
    · rw [eq_of_checkedU64 hs, heq, LType.allocSize]
    · rw [eq_of_checkedU64 hs, heq, ← helem.size_eq]
      exact Dvd.dvd.mul_right helem.dvd n
  | .vector elem n, aligned, size, h, hs => by
    rw [Laid] at h
    obtain ⟨_, hl, hstore, hpow⟩ := h
    rw [lowerType, Ty.sizeBytes] at hs
    obtain ⟨es, hes, hs⟩ := Option.bind_eq_some_iff.mp hs
    obtain ⟨stride, hstride, hs⟩ := Option.bind_eq_some_iff.mp hs
    have helem := laid_agrees elem hl hes
    have heq := helem.stride hstride
    refine ⟨?_, ?_⟩
    · have hpos : 0 < elem.allocSize * n := by
        have := nextPowerOfTwo_pos (n * elem.storeBytes)
        rw [hpow, hstore, Nat.mul_comm] at this
        exact this
      rw [eq_of_checkedU64 hs, heq, LType.allocSize, LType.abiAlign, hpow, hstore, Nat.mul_comm n]
      exact (roundUp_of_dvd hpos (Nat.dvd_refl _)).symm
    · rw [eq_of_checkedU64 hs, heq, ← helem.size_eq]
      exact Dvd.dvd.mul_right helem.dvd n
  | .struct fields, aligned, size, h, hs => by
    rw [Laid] at h
    rw [lowerType, Ty.sizeBytes] at hs
    obtain ⟨stop, hstop, hs⟩ := Option.bind_eq_some_iff.mp hs
    have hend : stop = fieldsEnd false fields 0 := laidAll_agrees fields h hstop
    rw [if_neg (by decide), laidAll_align fields h] at hs
    refine ⟨?_, ?_⟩
    · rw [alignUp_eq hs, hend, LType.allocSize]
    · rw [lowerType, Ty.alignBytes, if_neg (by decide), laidAll_align fields h, alignUp_eq hs]
      exact dvd_roundUp _ _
  | .packedStruct fields, aligned, size, h, hs => by
    rw [Laid] at h
    rw [lowerType, Ty.sizeBytes] at hs
    obtain ⟨stop, hstop, hs⟩ := Option.bind_eq_some_iff.mp hs
    have hend : stop = fieldsEnd true fields 0 := laidAll_agrees fields h hstop
    rw [if_pos rfl] at hs
    refine ⟨?_, ?_⟩
    · rw [alignUp_eq hs, roundUp_one, hend, LType.allocSize]
    · rw [lowerType, Ty.alignBytes, if_pos rfl]
      exact Nat.one_dvd _
  | .void, _, _, h, _ | .named _, _, _, h, _ | .metadata, _, _, h, _ => by
    rw [Laid] at h
    exact h.elim

theorem laidAll_agrees : ∀ (fields : List LType) {aligned : Bool} {offset stop : Nat}, LaidAll aligned fields →
    Ty.fieldsEnd .lp64 (!aligned) (lowerTypes fields) offset = some stop →
    stop = fieldsEnd (!aligned) fields offset
  | [], aligned, offset, stop, _, hs => by
    rw [lowerTypes, Ty.fieldsEnd] at hs
    exact (Option.some.inj hs).symm
  | f :: fs, aligned, offset, stop, h, hs => by
    rw [LaidAll] at h
    rw [lowerTypes, Ty.fieldsEnd] at hs
    obtain ⟨start, hstart, hs⟩ := Option.bind_eq_some_iff.mp hs
    obtain ⟨size, hsize, hs⟩ := Option.bind_eq_some_iff.mp hs
    obtain ⟨next, hnext, hs⟩ := Option.bind_eq_some_iff.mp hs
    rw [laidAll_agrees fs h.2 hs, fieldsEnd, eq_of_checkedU64 hnext, alignUp_eq hstart, place_eq h.1,
      (laid_agrees f h.1 hsize).size_eq]

end

theorem lowerTypes_eq (fields : List LType) : lowerTypes fields = fields.map lowerType := by
  induction fields with
  | nil => rfl
  | cons f fs ih => rw [lowerTypes, ih, List.map_cons]

theorem fieldOffsetFrom_eq (aligned : Bool) {fields : List LType} {offset k o : Nat}
    (h : LaidAll aligned (fields.take k))
    (hk : aligned = true → ∀ f, fields[k]? = some f → (lowerType f).alignBytes .lp64 = f.abiAlign)
    (ho : fieldOffsetFrom (!aligned) (lowerTypes fields) offset k = some o) :
    fieldOffset (!aligned) fields offset k = some o := by
  induction fields generalizing offset k with
  | nil => exact absurd ho (by simp [lowerTypes, fieldOffsetFrom])
  | cons f fs ih =>
    rw [lowerTypes, fieldOffsetFrom] at ho
    obtain ⟨start, hstart, ho⟩ := Option.bind_eq_some_iff.mp ho
    have hplace : start = roundUp offset (if (!aligned) = true then 1 else (lowerType f).alignBytes .lp64) := by
      obtain ⟨v, hv, rfl⟩ := Option.map_eq_some_iff.mp hstart
      rw [eq_of_checkedU64 hv, Nat.max_eq_left (alignBytes_pos f)]
      rfl
    cases k with
    | zero =>
      obtain rfl := Option.some.inj ho
      rw [fieldOffset, hplace]
      cases aligned with
      | true => rw [hk rfl f rfl]
      | false => rfl
    | succ k =>
      rw [List.take_succ_cons, LaidAll] at h
      obtain ⟨size, hsize, ho⟩ := Option.bind_eq_some_iff.mp ho
      obtain ⟨stop, hstop, ho⟩ := Option.bind_eq_some_iff.mp ho
      have hrest := ih h.2 (fun ha g hg => hk ha g (by simpa using hg)) ho
      rw [eq_of_checkedU64 hstop, hplace, place_eq h.1, (laid_agrees f h.1 hsize).size_eq] at hrest
      rw [fieldOffset]
      exact hrest

/-! ## Sizes, alignments and field offsets -/

section Fields

variable {packed : Bool} {fields : List LType} {f : LType} {offset stop i o : Nat}

theorem start_eq (packed : Bool) (f : LType) (offset : Nat) :
    (checkedU64 (offset + ((if packed then 1 else max ((lowerType f).alignBytes .lp64) 1) - 1))).map
      (fun v => v / (if packed then 1 else max ((lowerType f).alignBytes .lp64) 1) *
        (if packed then 1 else max ((lowerType f).alignBytes .lp64) 1)) =
      alignUp offset (if packed then 1 else (lowerType f).alignBytes .lp64) := by
  rw [Nat.max_eq_left (alignBytes_pos f)]
  rfl

/-- What a placed field takes. -/
structure FieldAt (packed : Bool) (fields : List LType) (offset stop i : Nat) (f : LType) (o size : Nat) : Prop where
  offset_eq : fieldOffsetFrom packed (lowerTypes fields) offset i = some o
  size_eq : (lowerType f).sizeBytes .lp64 = some size
  after : offset ≤ o
  inside : o + size ≤ stop
  aligned : packed = false → (lowerType f).alignBytes .lp64 ∣ o
  before : ∀ j o', i < j → fieldOffsetFrom packed (lowerTypes fields) offset j = some o' → o + size ≤ o'

theorem fieldOffsetFrom_le (h : fieldOffsetFrom packed (lowerTypes fields) offset i = some o) : offset ≤ o := by
  induction fields generalizing offset i with
  | nil => exact absurd h (by simp [lowerTypes, fieldOffsetFrom])
  | cons f fs ih =>
    rw [lowerTypes, fieldOffsetFrom] at h
    obtain ⟨start, hstart, h⟩ := Option.bind_eq_some_iff.mp h
    rw [start_eq] at hstart
    have hle : offset ≤ start := by
      rw [alignUp_eq hstart]
      apply le_roundUp
      split
      · exact Nat.one_pos
      · exact alignBytes_pos f
    cases i with
    | zero => exact Option.some.inj h ▸ hle
    | succ i =>
      obtain ⟨size, _, h⟩ := Option.bind_eq_some_iff.mp h
      obtain ⟨next, hnext, h⟩ := Option.bind_eq_some_iff.mp h
      have hrest := ih h
      rw [eq_of_checkedU64 hnext] at hrest
      omega

theorem fieldsEnd_le (h : Ty.fieldsEnd .lp64 packed (lowerTypes fields) offset = some stop) : offset ≤ stop := by
  induction fields generalizing offset with
  | nil =>
    rw [lowerTypes, Ty.fieldsEnd] at h
    exact (Option.some.inj h).le
  | cons f fs ih =>
    rw [lowerTypes, Ty.fieldsEnd] at h
    obtain ⟨start, hstart, h⟩ := Option.bind_eq_some_iff.mp h
    obtain ⟨size, _, h⟩ := Option.bind_eq_some_iff.mp h
    obtain ⟨next, hnext, h⟩ := Option.bind_eq_some_iff.mp h
    have hrest := ih h
    have hle : offset ≤ start := by
      rw [alignUp_eq hstart]
      apply le_roundUp
      split
      · exact Nat.one_pos
      · exact alignBytes_pos f
    rw [eq_of_checkedU64 hnext] at hrest
    omega

theorem fieldsEnd_field (h : Ty.fieldsEnd .lp64 packed (lowerTypes fields) offset = some stop)
    (hf : fields[i]? = some f) : ∃ o size, FieldAt packed fields offset stop i f o size := by
  induction fields generalizing offset i with
  | nil => exact absurd hf (by simp)
  | cons g fs ih =>
    rw [lowerTypes, Ty.fieldsEnd] at h
    obtain ⟨start, hstart, h⟩ := Option.bind_eq_some_iff.mp h
    obtain ⟨size, hsize, h⟩ := Option.bind_eq_some_iff.mp h
    obtain ⟨next, hnext, h⟩ := Option.bind_eq_some_iff.mp h
    have hpos : 0 < (if packed then 1 else (lowerType g).alignBytes .lp64) := by
      split
      · exact Nat.one_pos
      · exact alignBytes_pos g
    have hle : offset ≤ start := by
      rw [alignUp_eq hstart]
      exact le_roundUp hpos
    have hnext' := eq_of_checkedU64 hnext
    -- a later field is placed behind this one
    have hstep (k o' : Nat) (ho : fieldOffsetFrom packed (lowerTypes (g :: fs)) offset (k + 1) = some o') :
        fieldOffsetFrom packed (lowerTypes fs) next k = some o' := by
      rw [lowerTypes, fieldOffsetFrom, start_eq, hstart] at ho
      simpa [hsize, hnext] using ho
    cases i with
    | zero =>
      obtain rfl := Option.some.inj hf
      refine ⟨start, size, ?_, hsize, hle, ?_, fun hp => ?_, fun j o' hj ho => ?_⟩
      · rw [lowerTypes, fieldOffsetFrom, start_eq, hstart]
        rfl
      · have := fieldsEnd_le h
        omega
      · rw [alignUp_eq hstart, hp]
        exact dvd_roundUp _ _
      · obtain ⟨k, rfl⟩ : ∃ k, j = k + 1 := ⟨j - 1, by omega⟩
        have := fieldOffsetFrom_le (hstep k o' ho)
        omega
    | succ i =>
      obtain ⟨o, size', hat⟩ := ih h (by simpa using hf)
      refine ⟨o, size', ?_, hat.size_eq, ?_, hat.inside, hat.aligned, fun j o' hj ho => ?_⟩
      · rw [lowerTypes, fieldOffsetFrom, start_eq, hstart]
        simpa [hsize, hnext] using hat.offset_eq
      · have := hat.after
        omega
      · obtain ⟨k, rfl⟩ : ∃ k, j = k + 1 := ⟨j - 1, by omega⟩
        exact hat.before k o' (by omega) (hstep k o' ho)

/-- In a struct that has a size, every field has an offset that respects its alignment, lies inside, and ends
before the next one starts. -/
theorem struct_fields {n : Nat} (h : (Ty.struct (lowerTypes fields) packed).sizeBytes .lp64 = some n)
    (hf : fields[i]? = some f) : ∃ o size, FieldAt packed fields 0 n i f o size := by
  rw [Ty.sizeBytes] at h
  obtain ⟨stop, hstop, hn⟩ := Option.bind_eq_some_iff.mp h
  obtain ⟨o, size, hat⟩ := fieldsEnd_field hstop hf
  have hle : stop ≤ n := by
    rw [alignUp_eq hn]
    apply le_roundUp
    split
    · exact Nat.one_pos
    · exact fieldsAlign_pos fields
  exact ⟨o, size, hat.offset_eq, hat.size_eq, hat.after, hat.inside.trans hle, hat.aligned, hat.before⟩

end Fields

end Llvm

end Csolver
