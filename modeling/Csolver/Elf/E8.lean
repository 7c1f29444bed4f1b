import Csolver.Elf.Bytes

/-!
# E8 translation (`crates/elf/src/lzx.rs`)

The compressor makes the targets of calls absolute; `undo_e8` makes them relative again. Both scan the bytes for
`0xE8` in the same way, and differ in what they do to a target.
-/

namespace Csolver.Elf

def magic : Int := 12000000

/-- The scan from the position `i` on, over the bytes from there on: the last ten bytes are not looked at, and the
    four bytes of a target are passed over. -/
def e8From (target : Nat → Int → Int) (i : Nat) : List Byte → List Byte
  | b :: a₀ :: a₁ :: a₂ :: a₃ :: rest =>
    if 10 < rest.length + 5 then
      if b = 0xE8 then b :: (leBytesOfI32 (target i (i32OfLeBytes a₀ a₁ a₂ a₃)) ++ e8From target (i + 5) rest)
      else b :: e8From target (i + 1) (a₀ :: a₁ :: a₂ :: a₃ :: rest)
    else b :: a₀ :: a₁ :: a₂ :: a₃ :: rest
  | bytes => bytes

/-- The relative target of an absolute one. -/
def undoTarget (i : Nat) (abs : Int) : Int :=
  if -i ≤ abs ∧ abs < magic then if 0 ≤ abs then abs - i else abs + magic else abs

def undoE8 (out : List Byte) : List Byte := e8From undoTarget 0 out

/-- The absolute target of a relative one. -/
def doTarget (i : Nat) (rel : Int) : Int :=
  if -i ≤ rel ∧ rel < magic then if rel < magic - i then rel + i else rel - magic else rel

/-- The pre-processing of the compressor. -/
def doE8 (out : List Byte) : List Byte := e8From doTarget 0 out

theorem e8From_length (target : Nat → Int → Int) (i : Nat) (bytes : List Byte) :
    (e8From target i bytes).length = bytes.length := by
  fun_induction e8From target i bytes with
  | case1 i a₀ a₁ a₂ a₃ rest hlen ih => simp [leBytesOfI32, ih]
  | case2 i b a₀ a₁ a₂ a₃ rest hlen hb ih => simp [ih]
  | case3 => rfl
  | case4 => rfl

/-- A map of targets at every position up to a bound is undone by another. -/
def UndoneBy (bound : Nat) (f g : Nat → Int → Int) : Prop :=
  ∀ i r, i ≤ bound → -2 ^ 31 ≤ r ∧ r < 2 ^ 31 → (-2 ^ 31 ≤ f i r ∧ f i r < 2 ^ 31) ∧ g i (f i r) = r

theorem e8From_undone {bound : Nat} {f g : Nat → Int → Int} (hfg : UndoneBy bound f g) (i : Nat) (bytes : List Byte)
    (hi : i + bytes.length ≤ bound) : e8From g i (e8From f i bytes) = bytes := by
  fun_induction e8From f i bytes with
  | case1 i a₀ a₁ a₂ a₃ rest hlen ih =>
    simp only [List.length_cons] at hi
    obtain ⟨hbounds, hundo⟩ := hfg i (i32OfLeBytes a₀ a₁ a₂ a₃) (by omega) (i32OfLeBytes_bounds a₀ a₁ a₂ a₃)
    obtain ⟨c₀, c₁, c₂, c₃, hbytes⟩ : ∃ c₀ c₁ c₂ c₃, leBytesOfI32 (f i (i32OfLeBytes a₀ a₁ a₂ a₃)) = [c₀, c₁, c₂, c₃] :=
      ⟨_, _, _, _, rfl⟩
    have hread : i32OfLeBytes c₀ c₁ c₂ c₃ = f i (i32OfLeBytes a₀ a₁ a₂ a₃) := i32OfLeBytes_leByte hbounds hbytes
    rw [hbytes, List.cons_append, List.cons_append, List.cons_append, List.cons_append, List.nil_append, e8From,
      e8From_length, if_pos hlen, if_pos rfl, hread, hundo, leBytesOfI32_i32OfLeBytes, ih (by omega)]
    rfl
  | case2 i b a₀ a₁ a₂ a₃ rest hlen hb ih =>
    simp only [List.length_cons] at hi
    have hlen' := e8From_length f (i + 1) (a₀ :: a₁ :: a₂ :: a₃ :: rest)
    have hih := ih (by simp only [List.length_cons]; omega)
    -- what follows the byte has the same length
    match hrest : e8From f (i + 1) (a₀ :: a₁ :: a₂ :: a₃ :: rest), hlen', hih with
    | c₀ :: c₁ :: c₂ :: c₃ :: rest', hlen', hih =>
      simp only [List.length_cons] at hlen'
      rw [e8From, if_pos (by omega), if_neg hb, hih]
  | case3 i b a₀ a₁ a₂ a₃ rest hlen => rw [e8From, if_neg hlen]
  | case4 i bytes hshort => rw [e8From]; exact hshort

theorem doTarget_undone : UndoneBy 32768 doTarget undoTarget := by
  intro i r hi hr
  unfold doTarget undoTarget magic
  split_ifs <;> omega

theorem undoTarget_undone : UndoneBy 32768 undoTarget doTarget := by
  intro i r hi hr
  unfold doTarget undoTarget magic
  split_ifs <;> omega

/-- The pre-processing of a chunk is undone, and every chunk is the pre-processing of one. -/
theorem undoE8_bijective (n : Nat) (hn : n ≤ 32768) :
    (∀ s : List Byte, s.length = n → undoE8 (doE8 s) = s) ∧
      Set.BijOn undoE8 {s : List Byte | s.length = n} {s : List Byte | s.length = n} := by
  have hundo (s : List Byte) (hs : s.length = n) : undoE8 (doE8 s) = s :=
    e8From_undone doTarget_undone 0 s (by omega)
  have hdo (s : List Byte) (hs : s.length = n) : doE8 (undoE8 s) = s :=
    e8From_undone undoTarget_undone 0 s (by omega)
  refine ⟨hundo, ?_, ?_, ?_⟩
  · intro s hs
    exact (e8From_length undoTarget 0 s).trans hs
  · intro s hs t ht heq
    rw [← hdo s hs, heq, hdo t ht]
  · intro s hs
    exact ⟨doE8 s, (e8From_length doTarget 0 s).trans hs, hundo s hs⟩

/-- A chunk with a call whose target is made absolute. -/
theorem undoE8_bijective_call : doE8 [0xE8, 1, 0, 0, 0, 0xE8, 1, 0, 0, 0, 0, 0, 0, 0, 0, 0, 0] =
      [0xE8, 1, 0, 0, 0, 0xE8, 6, 0, 0, 0, 0, 0, 0, 0, 0, 0, 0] ∧
    undoE8 (doE8 [0xE8, 1, 0, 0, 0, 0xE8, 1, 0, 0, 0, 0, 0, 0, 0, 0, 0, 0]) =
      [0xE8, 1, 0, 0, 0, 0xE8, 1, 0, 0, 0, 0, 0, 0, 0, 0, 0, 0] :=
  ⟨by decide, (undoE8_bijective 17 (by decide)).1 _ rfl⟩

end Csolver.Elf
