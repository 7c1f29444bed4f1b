import Csolver.Asm.BlocksSound

/-!
# Recursive-descent decoding (`crates/asm/src/x86.rs`)

What is decoded is what is reached from the start. The decoder of one instruction, with the flags of the straight-line
run that it is in, is a parameter.
-/

namespace Csolver.Asm

structure Decoded (ι : Type) where
  insts : List ι
  next : Nat
  ctrl : Ctrl

inductive DecodeError (E : Type) where
  | decode (e : E)
  | outOfFuel
deriving DecidableEq

variable {ι Φ E : Type}

def Decoded.at (pos : Nat) (d : Decoded ι) : DecodedInsn ι := ⟨pos, d.next, d.insts, d.ctrl⟩

/-- Insert into the map of what is decoded. -/
def insertInsn (d : DecodedInsn ι) (decoded : List (DecodedInsn ι)) : List (DecodedInsn ι) :=
  decoded.orderedInsert (fun a b => a.offset ≤ b.offset) d

section Decode

variable (len : Nat) (decode : Nat → Φ → Except E (Decoded ι × Φ))

def decodeLine : Nat → Nat → Φ → List Nat → List (DecodedInsn ι) →
    Except (DecodeError E) (List Nat × List (DecodedInsn ι))
  | fuel, pos, flags, work, decoded =>
    if pos < len ∧ pos ∉ offsets decoded then
      match fuel with
      | 0 => .error .outOfFuel
      | fuel + 1 =>
        match decode pos flags with
        | .error e => .error (.decode e)
        | .ok (d, flags) =>
          let decoded := insertInsn (d.at pos) decoded
          match d.ctrl with
          | .ret => .ok (work, decoded)
          | .jmp t => .ok (t :: work, decoded)
          | .jcc t _ => decodeLine fuel d.next flags (t :: work) decoded
          | .fall => decodeLine fuel d.next flags work decoded
    else .ok (work, decoded)

/-- The runs from what is left to do. -/
def decodeWork (noFlags : Φ) : Nat → List Nat → List (DecodedInsn ι) → Except (DecodeError E) (List (DecodedInsn ι))
  | _, [], decoded => .ok decoded
  | 0, _ :: _, _ => .error .outOfFuel
  | fuel + 1, start :: work, decoded =>
    match decodeLine len decode (len + 1) start noFlags work decoded with
    | .ok (work, decoded) => decodeWork noFlags fuel work decoded
    | .error e => .error e

/-- `decode_cfg`. Every turn decodes another offset, and leaves at most one to do. -/
def decodeCfg (noFlags : Φ) : Except (DecodeError E) (List (DecodedInsn ι)) :=
  decodeWork len decode noFlags (len + 2) [0] []

end Decode

/-! ## What is decoded is what is reached -/

section Reached

variable {len : Nat} {decode : Nat → Φ → Except E (Decoded ι × Φ)}
variable {decoded decoded' : List (DecodedInsn ι)} {work work' : List Nat} {d e : DecodedInsn ι}

/-- Reached from offset zero along what is decoded. -/
inductive Linked (decoded : List (DecodedInsn ι)) : DecodedInsn ι → Prop
  | zero {d : DecodedInsn ι} (hd : d ∈ decoded) (h : d.offset = 0) : Linked decoded d
  | step {d e : DecodedInsn ι} (h : Linked decoded d) (he : e ∈ decoded) (ht : e.offset ∈ d.targets) : Linked decoded e

theorem Linked.mono (hsub : ∀ x ∈ decoded, x ∈ decoded') (h : Linked decoded d) : Linked decoded' d := by
  induction h with
  | zero hd h0 => exact .zero (hsub _ hd) h0
  | step _ he ht ih => exact .step ih (hsub _ he) ht

def Wanted (decoded : List (DecodedInsn ι)) (o : Nat) : Prop := o = 0 ∨ ∃ d, Linked decoded d ∧ o ∈ d.targets

/-- What holds between two instructions that are decoded. -/
structure Decoding (len : Nat) (decoded : List (DecodedInsn ι)) (work : List Nat) : Prop where
  sorted : Sorted decoded
  inside : ∀ o ∈ offsets decoded, o < len
  linked : ∀ d ∈ decoded, Linked decoded d
  wanted : ∀ o ∈ work, Wanted decoded o
  closed : ∀ o, Wanted decoded o → o < len → o ∈ offsets decoded ∨ o ∈ work

theorem Decoding.length_le (h : Decoding len decoded work) : decoded.length ≤ len := by
  have hnodup : (offsets decoded).Nodup := h.sorted.imp Nat.ne_of_lt
  have hsub : offsets decoded ⊆ List.range len := fun o ho => List.mem_range.mpr (h.inside o ho)
  simpa [offsets] using (List.subperm_of_subset hnodup hsub).length_le

theorem mem_insertInsn : e ∈ insertInsn d decoded ↔ e = d ∨ e ∈ decoded := List.mem_orderedInsert _

theorem length_insertInsn : (insertInsn d decoded).length = decoded.length + 1 := List.orderedInsert_length _ _ _

theorem sorted_insertInsn (hs : Sorted decoded) (hd : d.offset ∉ offsets decoded) : Sorted (insertInsn d decoded) := by
  induction decoded with
  | nil => exact List.pairwise_singleton _ _
  | cons x decoded ih =>
    have hpair : (∀ o ∈ offsets decoded, x.offset < o) ∧ Sorted decoded := List.pairwise_cons.mp hs
    have hne : d.offset ≠ x.offset := fun h => hd (by rw [h]; exact List.mem_cons_self)
    have hrest : d.offset ∉ offsets decoded := fun h => hd (List.mem_cons_of_mem _ h)
    unfold insertInsn
    rw [List.orderedInsert_cons]
    split_ifs with hle
    · refine List.pairwise_cons.mpr ⟨fun o ho => ?_, hs⟩
      rcases List.mem_cons.mp ho with rfl | ho
      · omega
      · have hlt := hpair.1 o ho
        omega
    · refine List.pairwise_cons.mpr ⟨fun o ho => ?_, ih hpair.2 hrest⟩
      obtain ⟨e, he, rfl⟩ := List.mem_map.mp ho
      rcases mem_insertInsn.mp he with rfl | he
      · omega
      · exact hpair.1 _ (List.mem_map_of_mem he)

theorem Decoding.insert (h : Decoding len decoded (d.offset :: work)) (hlt : d.offset < len)
    (hnew : d.offset ∉ offsets decoded) (hwork : ∀ o, o ∈ work' ↔ o ∈ d.targets ∨ o ∈ work) :
    Decoding len (insertInsn d decoded) work' := by
  have hsub : ∀ x ∈ decoded, x ∈ insertInsn d decoded := fun x hx => mem_insertInsn.mpr (.inr hx)
  have hoffset : d.offset ∈ offsets (insertInsn d decoded) := List.mem_map_of_mem (mem_insertInsn.mpr (.inl rfl))
  have hlinked : ∀ x ∈ insertInsn d decoded, Linked (insertInsn d decoded) x := by
    intro x hx
    rcases mem_insertInsn.mp hx with rfl | hx
    · rcases h.wanted _ List.mem_cons_self with h0 | ⟨e, he, ho⟩
      · exact .zero hx h0
      · exact .step (he.mono hsub) hx ho
    · exact (h.linked x hx).mono hsub
  refine ⟨sorted_insertInsn h.sorted hnew, fun o ho => ?_, hlinked, fun o ho => ?_, fun o hwanted ho => ?_⟩
  · obtain ⟨x, hx, rfl⟩ := List.mem_map.mp ho
    rcases mem_insertInsn.mp hx with rfl | hx
    · exact hlt
    · exact h.inside _ (List.mem_map_of_mem hx)
  · rcases (hwork o).mp ho with ho | ho
    · exact .inr ⟨d, hlinked d (mem_insertInsn.mpr (.inl rfl)), ho⟩
    · exact (h.wanted o (List.mem_cons_of_mem _ ho)).imp id fun ⟨x, hx, hox⟩ => ⟨x, hx.mono hsub, hox⟩
  · have hold (hwanted : Wanted decoded o) : o ∈ offsets (insertInsn d decoded) ∨ o ∈ work' := by
      rcases h.closed o hwanted ho with hin | hin
      · obtain ⟨x, hx, rfl⟩ := List.mem_map.mp hin
        exact .inl (List.mem_map_of_mem (hsub x hx))
      · rcases List.mem_cons.mp hin with rfl | hin
        · exact .inl hoffset
        · exact .inr ((hwork o).mpr (.inr hin))
    rcases hwanted with rfl | ⟨x, hx, hox⟩
    · exact hold (.inl rfl)
    · have hmem : x ∈ insertInsn d decoded := by
        cases hx with
        | zero hx => exact hx
        | step _ hx => exact hx
      rcases mem_insertInsn.mp hmem with rfl | hx
      · exact .inr ((hwork o).mpr (.inl hox))
      · exact hold (.inr ⟨x, h.linked x hx, hox⟩)

/-- What a straight-line run leaves: an instruction it decodes adds at most one offset to what is left to do. -/
def LineOk (len : Nat) (decoded : List (DecodedInsn ι)) (work : List Nat) :
    Except (DecodeError E) (List Nat × List (DecodedInsn ι)) → Prop
  | .ok (work', decoded') => Decoding len decoded' work' ∧
    work'.length + decoded.length ≤ work.length + decoded'.length
  | .error e => e ≠ .outOfFuel

theorem decodeLine_spec {fuel pos : Nat} {flags : Φ} (h : Decoding len decoded (pos :: work))
    (hfuel : len < fuel + decoded.length) : LineOk len decoded work (decodeLine len decode fuel pos flags work decoded) := by
  induction fuel generalizing pos flags work decoded with
  | zero =>
    have hle := h.length_le
    omega
  | succ fuel ih =>
    unfold decodeLine
    split
    · next hnew =>
      cases hd : decode pos flags with
      | error e =>
        show DecodeError.decode e ≠ .outOfFuel
        rintro ⟨⟩
      | ok r =>
        have hinsert (work' : List Nat) (hwork : ∀ o, o ∈ work' ↔ o ∈ (r.1.at pos).targets ∨ o ∈ work) :
            Decoding len (insertInsn (r.1.at pos) decoded) work' := h.insert hnew.1 hnew.2 hwork
        have hlen : (insertInsn (r.1.at pos) decoded).length = decoded.length + 1 := length_insertInsn
        have hgo (work' : List Nat) (hwork : ∀ o, o ∈ r.1.next :: work' ↔ o ∈ (r.1.at pos).targets ∨ o ∈ work)
            (hle : work'.length ≤ work.length + 1) : LineOk len decoded work
              (decodeLine len decode fuel r.1.next r.2 work' (insertInsn (r.1.at pos) decoded)) := by
          have hrest := @ih _ _ _ r.2 (hinsert _ hwork) (by omega)
          cases hrun : decodeLine len decode fuel r.1.next r.2 work' (insertInsn (r.1.at pos) decoded) with
          | error e =>
            rw [hrun] at hrest
            exact hrest
          | ok s =>
            rw [hrun] at hrest
            exact ⟨hrest.1, by have := hrest.2; omega⟩
        simp only
        cases hc : r.1.ctrl with
        | ret => exact ⟨hinsert work (by simp [DecodedInsn.targets, Decoded.at, hc]), by simp only [hlen]; omega⟩
        | jmp t =>
          exact ⟨hinsert (t :: work) (by simp [DecodedInsn.targets, Decoded.at, hc]), by
            simp only [hlen, List.length_cons]; omega⟩
        | jcc t cond =>
          refine hgo (t :: work) (fun o => ?_) (by simp)
          simp only [DecodedInsn.targets, Decoded.at, hc, List.mem_cons, List.not_mem_nil, or_false]
          tauto
        | fall => exact hgo work (by simp [DecodedInsn.targets, Decoded.at, hc]) (by simp)
    · next hold =>
      refine ⟨⟨h.sorted, h.inside, h.linked, fun o ho => h.wanted o (List.mem_cons_of_mem _ ho), fun o hw ho => ?_⟩,
        le_rfl⟩
      rcases h.closed o hw ho with hin | hin
      · exact .inl hin
      · rcases List.mem_cons.mp hin with rfl | hin
        · exact .inl (by_contra fun hout => hold ⟨ho, hout⟩)
        · exact .inr hin

theorem decodeWork_spec {noFlags : Φ} {fuel : Nat} (h : Decoding len decoded work)
    (hfuel : work.length + len ≤ fuel + decoded.length) :
    (∃ e, decodeWork len decode noFlags fuel work decoded = .error (.decode e)) ∨
      ∃ ds, decodeWork len decode noFlags fuel work decoded = .ok ds ∧ Decoding len ds [] := by
  induction fuel generalizing work decoded with
  | zero =>
    cases work with
    | nil => exact .inr ⟨decoded, rfl, h⟩
    | cons o work =>
      have hle := h.length_le
      simp only [List.length_cons] at hfuel
      omega
  | succ fuel ih =>
    cases work with
    | nil => exact .inr ⟨decoded, rfl, h⟩
    | cons o work =>
      have hline := @decodeLine_spec ι Φ E len decode decoded work (len + 1) o noFlags h (by omega)
      rw [decodeWork]
      cases hrun : decodeLine len decode (len + 1) o noFlags work decoded with
      | error e =>
        rw [hrun] at hline
        cases e with
        | decode e => exact .inl ⟨e, rfl⟩
        | outOfFuel => exact absurd rfl hline
      | ok r =>
        rw [hrun] at hline
        have hle := hline.2
        simp only [List.length_cons] at hfuel
        exact ih hline.1 (by omega)

/-- **The decoding is what is reached.** For every decoder of single instructions `decode_cfg` ends. Unless an
instruction on the way is refused, it returns instructions in order, all of them reached from the first one along
branches and fall-throughs, and the start and the targets of all of them are among them, as far as they are in the
code. -/
theorem decodeCfg_exact (len : Nat) (decode : Nat → Φ → Except E (Decoded ι × Φ)) (noFlags : Φ) :
    (∃ e, decodeCfg len decode noFlags = .error (.decode e)) ∨
      ∃ ds, decodeCfg len decode noFlags = .ok ds ∧ Sorted ds ∧ (∀ d ∈ ds, Reach ds d) ∧
        (0 < len → 0 ∈ offsets ds) ∧ ∀ d ∈ ds, ∀ t ∈ d.targets, t < len → t ∈ offsets ds := by
  have hstart : Decoding len ([] : List (DecodedInsn ι)) [0] := by
    refine ⟨List.Pairwise.nil, fun o ho => absurd ho List.not_mem_nil, fun d hd => absurd hd List.not_mem_nil,
      fun o ho => .inl (List.mem_singleton.mp ho), fun o hw _ => ?_⟩
    rcases hw with rfl | ⟨d, hd, -⟩
    · exact .inr List.mem_cons_self
    · cases hd with
      | zero hd => exact absurd hd List.not_mem_nil
      | step _ hd => exact absurd hd List.not_mem_nil
  refine (decodeWork_spec hstart (by simp; omega)).imp_right fun ⟨ds, hds, hdec⟩ => ⟨ds, hds, hdec.sorted, fun d hd => ?_, ?_, ?_⟩
  · have hreach {d : DecodedInsn ι} (hlinked : Linked ds d) : Reach ds d := by
      induction hlinked with
      | @zero d hd h0 =>
        cases ds with
        | nil => cases hd
        | cons first ds =>
          have hle := head_le hdec.sorted hd rfl
          obtain rfl := hdec.sorted.offset_inj hd List.mem_cons_self (by omega)
          exact .first rfl
      | step _ he ht ih => exact .step ih ht (fetch_eq hdec.sorted he)
    exact hreach (hdec.linked d hd)
  · exact fun hlen => (hdec.closed 0 (.inl rfl) hlen).resolve_right List.not_mem_nil
  · exact fun d hd t ht hlt => (hdec.closed t (.inr ⟨d, hdec.linked d hd, ht⟩) hlt).resolve_right List.not_mem_nil

end Reached

/-! ## Overlapping decodings -/

/-- The decoder of the bytes b8 00 48 89 c0 75 fb c3: the first instruction has the second one as its operand. -/
def overlapDecode : Nat → Unit → Except Unit (Decoded Nat × Unit)
  | 0, _ => .ok (⟨[0], 5, .fall⟩, ())
  | 2, _ => .ok (⟨[1], 5, .fall⟩, ())
  | 5, _ => .ok (⟨[2], 7, .jcc 2 0⟩, ())
  | 7, _ => .ok (⟨[3], 8, .ret⟩, ())
  | _, _ => .error ()

def overlapping : List (DecodedInsn Nat) :=
  [⟨0, 5, [0], .fall⟩, ⟨2, 5, [1], .fall⟩, ⟨5, 7, [2], .jcc 2 0⟩, ⟨7, 8, [3], .ret⟩]

/-- The block of the first instruction returns, where the machine goes on. -/
theorem overlapping_lost : decodeCfg 8 overlapDecode () = .ok overlapping ∧
    ∃ g, buildGraph overlapping = .ok (g, 0) ∧ ¬SameRuns overlapping g 0 := by
  refine ⟨by decide, _, rfl, fun h => ?_⟩
  have hrun := h (fun _ _ => false) 2
  revert hrun
  decide

end Csolver.Asm
