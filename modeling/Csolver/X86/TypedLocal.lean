import Csolver.X86.Opcode

/-!
# The typed decoder stays in its bytes

Every reader stays inside the input, has no access out of range and depends only on the bytes that it passes; the
decoder looks back at most as far as it has come. The proofs follow the text of the readers.
-/

namespace Csolver.X86

open Csolver.Lib (Cursor)
open Csolver.Lib.Cursor (Local Agree)

/-- A reader with no access out of range. -/
abbrev Stays {α : Type} (behind : Nat) (d : Decoder α) (adv : Nat) : Prop := Local .outOfRange behind d adv

section

variable {α γ : Type} {n k : Nat} {rex : Rex} {width : Width}

theorem Stays.parseError {message : String} : Stays n (parseError message : Decoder α) k := Local.fail (by simp)

theorem Stays.unsupported {what : String} : Stays n (unsupported what : Decoder α) k := Local.fail (by simp)

theorem Stays.last {d : Decoder α} {f : α → γ} (h : Stays n d k) : Stays n (d >>= fun a => pure (f a)) k :=
  h.lead fun _ => Local.pure _

/-! ## Operands -/

theorem nextByte_stays {what : String} : Stays n (nextByte what) 1 := Stays.last (Local.next (by simp))

theorem readModrm_stays {r b : Bool} : Stays n (readModrm r b) 1 := Stays.last nextByte_stays

theorem regOf_stays {idx : Nat} {message : String} : Stays n (regOf idx message) 0 := Local.ofOption (by simp) _

theorem baseOf_stays {idx : Nat} : Stays n (baseOf idx) 0 := Local.ofOption (by simp) _

theorem xmmOf_stays {idx : Nat} {message : String} : Stays n (xmmOf idx message) 0 := Local.ofOption (by simp) _

theorem condition_stays {cc : Nat} {message : String} : Stays n (condition cc message) 0 :=
  Local.ofOption (by simp) _

theorem readImmU8_stays : Stays n readImmU8 1 := Local.next (by simp)

theorem readImmI8_stays : Stays n readImmI8 1 := Stays.last readImmU8_stays

theorem readImmI32_stays : Stays n readImmI32 4 := Stays.last (Local.take (by simp) (by omega))

theorem readImm64_stays {len : Nat} (h : 0 < len) : Stays n (readImm64 len) len :=
  Stays.last (Local.take (by simp) h)

theorem readDisp_stays {mode : Nat} : Stays n (readDisp mode) 0 := by
  unfold readDisp
  apply Local.ite (fun _ => Local.pure _) fun _ => ?_
  apply Local.ite (fun _ => readImmI8_stays.mono (Nat.zero_le _)) fun _ => ?_
  exact Local.ite (fun _ => readImmI32_stays.mono (Nat.zero_le _)) fun _ => Stays.parseError

theorem sibIndex_stays {sib : Nat} {x : Bool} : Stays n (sibIndex sib x) 0 :=
  Local.ite (fun _ => regOf_stays.last) fun _ => Local.pure _

theorem readMem_stays {m : TypedModRm} {x b : Bool} : Stays n (readMem m x b) 0 := by
  unfold readMem
  apply Local.ite
  · intro _
    apply Local.mono _ (Nat.zero_le 1)
    apply nextByte_stays.lead fun sib => ?_
    apply sibIndex_stays.keep fun index => ?_
    apply Local.ite
    · exact fun _ => readImmI32_stays.last.mono (Nat.zero_le _)
    · exact fun _ => baseOf_stays.keep fun _ => readDisp_stays.last
  · intro _
    apply Local.ite
    · exact fun _ => readImmI32_stays.last.mono (Nat.zero_le _)
    · exact fun _ => baseOf_stays.keep fun _ => readDisp_stays.last

theorem rmOperand_stays {m : TypedModRm} {x b : Bool} {message : String} :
    Stays n (rmOperand m x b width message) 0 :=
  Local.ite (fun _ => regOf_stays.last) fun _ => readMem_stays.last

theorem readRmOperand_stays : Stays n (readRmOperand rex width) 1 :=
  readModrm_stays.lead fun _ => rmOperand_stays

theorem regAndRm_stays {regMessage rmMessage : String} : Stays n (regAndRm rex width regMessage rmMessage) 1 :=
  readModrm_stays.lead fun _ => regOf_stays.keep fun _ => rmOperand_stays.last

theorem registerForm_stays {memory : String} : Stays n (registerForm rex memory) 1 :=
  readModrm_stays.lead fun _ => Local.ite (fun _ => Stays.unsupported) fun _ => Local.pure _

/-! ## Forms -/

theorem decodeAlu_stays {op : Nat} : Stays n (decodeAlu op rex width) 1 := by
  apply regAndRm_stays.lead
  rintro ⟨m, src, dst⟩
  exact Local.ite (fun _ => Local.ite (fun _ => Local.pure _) fun _ => Local.pure _) fun _ => Local.pure _

theorem decodeLea_stays : Stays n (decodeLea rex width) 1 := by
  apply readModrm_stays.lead
  exact fun m => Local.ite (fun _ => Stays.parseError) fun _ => regOf_stays.keep fun _ => readMem_stays.last

theorem decodeGroup1_stays {imm : Decoder (BitVec 64)} {back : Nat} {message : String} (hback : 0 < back)
    (h : ∀ n, Stays n imm (back - 1)) : Stays n (decodeGroup1 rex width imm back message) 1 := by
  apply readRmOperand_stays.lead fun operand => ?_
  apply Local.mono _ (Nat.zero_le (back - 1))
  apply (h _).lead fun imm => ?_
  apply (Local.back (by simp) hback (by omega)).keep fun byte => ?_
  split
  · exact Local.pure _
  · exact Stays.unsupported

theorem decodeGroup2_stays {count : Decoder Byte} {back : Nat} {name : String} (hback : 0 < back)
    (h : ∀ n, Stays n count (back - 1)) : Stays n (decodeGroup2 rex width count back name) 1 := by
  apply readRmOperand_stays.lead fun operand => ?_
  apply Local.mono _ (Nat.zero_le (back - 1))
  apply (h _).lead fun imm => ?_
  apply (Local.back (by simp) hback (by omega)).keep fun byte => ?_
  split
  · exact Local.pure _
  · exact Stays.unsupported

theorem peekModrm_stays {message : String} {f : Nat → Decoder α} (h : ∀ byte, Stays n (f byte) 1) :
    Stays n (peekModrm message >>= f) 1 := by
  intro code start p hp hlen
  have hpeek : ∀ code : List Byte, (peekModrm message >>= f).run code p =
      (code[p]?).elim (.error (.parse message)) fun b => (f b.toNat).run code p := by
    intro code
    rw [Cursor.bind_apply, Cursor.run, peekModrm]
    cases code[p]? <;> rfl
  rw [hpeek]
  cases hget : code[p]? with
  | none => exact ⟨by simp, fun _ _ h => absurd h (by simp)⟩
  | some b =>
    obtain ⟨hsafe, hok⟩ := h b.toNat code start p hp hlen
    refine ⟨hsafe, fun a q hd => ?_⟩
    obtain ⟨hmove, hq, hsame⟩ := hok a q hd
    refine ⟨hmove, hq, fun code' hagree => ?_⟩
    rw [hpeek, hagree p (by omega) (by omega), hget]
    exact hsame code' hagree

theorem decodeGroup3_stays {isByte : Bool} : Stays n (decodeGroup3 isByte rex width) 1 := by
  apply peekModrm_stays fun peek => ?_
  apply Local.ite (fun _ => Stays.unsupported) fun _ => ?_
  apply readRmOperand_stays.lead fun o1 => ?_
  apply (Local.back (by simp) (by omega) (by omega)).keep fun byte => ?_
  split
  · refine Local.mono (readImm64_stays ?_).last (Nat.zero_le _)
    split
    · omega
    · split <;> omega
  all_goals first | exact Local.pure _ | exact Stays.unsupported

theorem decodeRegReg_stays {op : BinaryOp} {swap : Bool} {memory message : String} :
    Stays n (decodeRegReg op swap rex width memory message) 1 :=
  registerForm_stays.lead fun _ => regOf_stays.keep fun _ => regOf_stays.last

theorem decodeGroup4_stays : Stays n (decodeGroup4 rex) 1 := by
  apply registerForm_stays.lead fun m => ?_
  apply regOf_stays.keep fun dst => ?_
  split <;> first | exact Local.pure _ | exact Stays.unsupported

theorem decodeGroup5_stays : Stays n (decodeGroup5 rex width) 1 := by
  apply registerForm_stays.lead fun m => ?_
  apply regOf_stays.keep fun dst => ?_
  split <;> first | exact Local.pure _ | exact Stays.unsupported

/-! ## The SSE maps -/

theorem readXmmRmOperand_stays : Stays n (readXmmRmOperand rex) 1 :=
  readModrm_stays.lead fun _ => Local.ite (fun _ => xmmOf_stays.last) fun _ => readMem_stays.last

theorem sseOperands_stays {name : String} {store : Bool} : Stays n (sseOperands rex name store) 1 := by
  apply readXmmRmOperand_stays.lead
  rintro ⟨rm, m⟩
  exact xmmOf_stays.last

theorem readImm8_stays {message : String} : Stays n (readImm8 message) 1 := Local.next (by simp)

theorem decodeSse0fOp_stays {op pp : Nat} : Stays n (decodeSse0fOp op pp rex) 1 := by
  unfold decodeSse0fOp
  split
  · exact Stays.unsupported
  · apply sseOperands_stays.lead
    rintro ⟨dst, src⟩
    apply Local.ite
    · intro _
      apply Local.mono _ (Nat.zero_le 1)
      apply readImm8_stays.lead fun imm => ?_
      split <;> first | exact Local.pure _ | exact Stays.unsupported
    · intro _
      split <;> first | exact Local.pure _ | exact Stays.unsupported

theorem parseVex_stays {isTwoByte : Bool} : Stays n (parseVex isTwoByte) 1 := by
  apply Local.ite
  · exact fun _ => Stays.last (Local.next (by simp))
  · intro _
    apply (Local.next (by simp)).lead fun b₁ => ?_
    apply Local.mono _ (Nat.zero_le 1)
    apply (Local.next (by simp)).lead fun b₂ => ?_
    exact Local.ite (fun _ => Stays.unsupported) fun _ => Local.pure _

theorem decodeVex0f_stays {vex : VexInfo} : Stays n (decodeVex0f vex) 1 :=
  nextByte_stays.lead fun _ => decodeSse0fOp_stays.mono (Nat.zero_le _)

theorem decodeVex0f38_stays {vex : VexInfo} : Stays n (decodeVex0f38 vex) 1 := by
  apply nextByte_stays.lead fun op => ?_
  split
  · exact Stays.unsupported
  · apply Local.mono _ (Nat.zero_le 1)
    apply sseOperands_stays.lead
    rintro ⟨dst, src⟩
    exact Local.pure _

theorem decodeGprXmm_stays {vex : VexInfo} {name : String} {extract : Bool} {op : BinaryImmOp} :
    Stays n (decodeGprXmm vex width name extract op) 1 := by
  have hops : Stays n (gprAndXmm vex width name) 1 :=
    readModrm_stays.lead fun _ => rmOperand_stays.keep fun _ => xmmOf_stays.last
  apply hops.lead
  rintro ⟨rm, reg⟩
  exact readImm8_stays.last.mono (Nat.zero_le _)

theorem decodeVex0f3a_stays {vex : VexInfo} : Stays n (decodeVex0f3a vex) 1 := by
  apply nextByte_stays.lead fun op => ?_
  apply Local.ite (fun _ => Stays.unsupported) fun _ => ?_
  apply Local.mono _ (Nat.zero_le 1)
  split
  iterate 4 exact decodeGprXmm_stays
  split
  · exact Stays.unsupported
  · apply sseOperands_stays.lead
    rintro ⟨dst, src⟩
    exact readImm8_stays.last.mono (Nat.zero_le _)

theorem decodeVex_stays {isTwoByte : Bool} : Stays n (decodeVex isTwoByte) 1 := by
  apply parseVex_stays.lead fun vex => ?_
  apply Local.mono _ (Nat.zero_le 1)
  apply Local.ite (fun _ => decodeVex0f_stays.last) fun _ => ?_
  apply Local.ite (fun _ => decodeVex0f38_stays.last) fun _ => ?_
  exact Local.ite (fun _ => decodeVex0f3a_stays.last) fun _ => Stays.unsupported

/-! ## The opcodes -/

theorem decodeCmovcc_stays {cc : Nat} : Stays n (decodeCmovcc cc rex width) 1 :=
  condition_stays.keep fun _ => regAndRm_stays.lead fun ⟨_, _, _⟩ => Local.pure _

theorem decodeSetcc_stays {cc : Nat} : Stays n (decodeSetcc cc rex) 1 :=
  condition_stays.keep fun _ => readModrm_stays.lead fun _ => rmOperand_stays.last

theorem decodeNop_stays : Stays n (decodeNop rex) 1 :=
  readModrm_stays.lead fun _ => Local.ite (fun _ => Local.pure _) fun _ => readMem_stays.last

theorem decodeBitTest_stays {op : BinaryOp} {message : String} : Stays n (decodeBitTest op rex width message) 1 :=
  regAndRm_stays.lead fun ⟨_, _, _⟩ => Local.pure _

theorem decodeWiden_stays {op : BinaryOp} {src : Width} {name : String} :
    Stays n (decodeWiden op rex width src name) 1 :=
  readModrm_stays.lead fun _ => regOf_stays.keep fun _ => rmOperand_stays.last

/-- **The map `0F`**, one opcode after the other. -/
theorem decode0f_stays {ssePp : Nat} : Stays n (decode0f rex width ssePp) 1 := by
  apply nextByte_stays.lead fun op2 => ?_
  apply Local.ite (fun _ => Local.pure _) fun _ => ?_
  apply Local.ite (fun _ => decodeCmovcc_stays.mono (Nat.zero_le _)) fun _ => ?_
  apply Local.ite (fun _ => ?_) fun _ => ?_
  · exact Local.mono (readImmI32_stays.lead fun _ => condition_stays.last) (Nat.zero_le _)
  apply Local.ite (fun _ => decodeSetcc_stays.mono (Nat.zero_le _)) fun _ => ?_
  apply Local.ite (fun _ => decodeNop_stays.mono (Nat.zero_le _)) fun _ => ?_
  iterate 4 apply Local.ite (fun _ => decodeBitTest_stays.mono (Nat.zero_le _)) fun _ => ?_
  iterate 6 apply Local.ite (fun _ => decodeWiden_stays.mono (Nat.zero_le _)) fun _ => ?_
  exact Local.ite (fun _ => decodeSse0fOp_stays.mono (Nat.zero_le _)) fun _ => Stays.unsupported

theorem decodeMovStore_stays : Stays n (decodeMovStore rex width) 1 :=
  regAndRm_stays.lead fun ⟨_, _, _⟩ => Local.pure _

theorem decodeMovLoad_stays : Stays n (decodeMovLoad rex width) 1 :=
  regAndRm_stays.lead fun ⟨_, _, _⟩ => Local.pure _

theorem decodeMovsxd_stays : Stays n (decodeMovsxd rex) 1 :=
  regAndRm_stays.lead fun ⟨_, _, _⟩ => Local.pure _

theorem opcodeReg_stays {field : Nat} {message : String} : Stays n (opcodeReg field rex message) 0 := regOf_stays

theorem immU8_stays : Stays n immU8 1 := Stays.last readImmU8_stays

theorem immI8_stays : Stays n immI8 1 := Stays.last readImmU8_stays

theorem immI32_stays : Stays n immI32 4 := Stays.last readImmI32_stays

/-- **The opcodes**, one after the other. -/
theorem decodeTypedOpcode_stays {op ssePp : Nat} : Stays n (decodeTypedOpcode op rex width ssePp) 0 := by
  unfold decodeTypedOpcode
  split
  · exact Local.pure _
  apply Local.ite (fun _ => ?_) fun _ => ?_
  · apply opcodeReg_stays.keep fun r => ?_
    refine Local.mono (readImm64_stays ?_).last (Nat.zero_le _)
    split <;> omega
  apply Local.ite (fun _ => decodeAlu_stays.mono (Nat.zero_le _)) fun _ => ?_
  apply Local.ite (fun _ => decodeMovStore_stays.mono (Nat.zero_le _)) fun _ => ?_
  apply Local.ite (fun _ => decodeMovLoad_stays.mono (Nat.zero_le _)) fun _ => ?_
  apply Local.ite (fun _ => decodeLea_stays.mono (Nat.zero_le _)) fun _ => ?_
  apply Local.ite (fun _ => ?_) fun _ => ?_
  · exact (decodeGroup1_stays (by omega) fun _ => immU8_stays).mono (Nat.zero_le _)
  apply Local.ite (fun _ => ?_) fun _ => ?_
  · exact (decodeGroup1_stays (by omega) fun _ => immI32_stays).mono (Nat.zero_le _)
  apply Local.ite (fun _ => ?_) fun _ => ?_
  · exact (decodeGroup1_stays (by omega) fun _ => immI8_stays).mono (Nat.zero_le _)
  iterate 2 apply Local.ite (fun _ => decodeRegReg_stays.mono (Nat.zero_le _)) fun _ => ?_
  apply Local.ite (fun _ => Local.mono (readImm64_stays (by omega)).last (Nat.zero_le _)) fun _ => ?_
  apply Local.ite (fun _ => decodeRegReg_stays.mono (Nat.zero_le _)) fun _ => ?_
  apply Local.ite (fun _ => readImmI8_stays.last.mono (Nat.zero_le _)) fun _ => ?_
  apply Local.ite (fun _ => readImmI32_stays.last.mono (Nat.zero_le _)) fun _ => ?_
  apply Local.ite (fun _ => ?_) fun _ => ?_
  · exact Local.mono (readImmI8_stays.lead fun _ => condition_stays.last) (Nat.zero_le _)
  iterate 2 apply Local.ite (fun _ => opcodeReg_stays.last) fun _ => ?_
  apply Local.ite (fun _ => immI32_stays.last.mono (Nat.zero_le _)) fun _ => ?_
  apply Local.ite (fun _ => immI8_stays.last.mono (Nat.zero_le _)) fun _ => ?_
  apply Local.ite (fun _ => decodeRegReg_stays.mono (Nat.zero_le _)) fun _ => ?_
  apply Local.ite (fun _ => opcodeReg_stays.last) fun _ => ?_
  apply Local.ite (fun _ => decodeMovsxd_stays.mono (Nat.zero_le _)) fun _ => ?_
  apply Local.ite (fun _ => readImmI32_stays.last.mono (Nat.zero_le _)) fun _ => ?_
  apply Local.ite (fun _ => decodeGroup4_stays.mono (Nat.zero_le _)) fun _ => ?_
  apply Local.ite (fun _ => decodeGroup5_stays.mono (Nat.zero_le _)) fun _ => ?_
  apply Local.ite (fun _ => ?_) fun _ => ?_
  · exact Local.mono (readRmOperand_stays.lead fun _ => readImmU8_stays.last.mono (Nat.zero_le _)) (Nat.zero_le _)
  apply Local.ite (fun _ => ?_) fun _ => ?_
  · refine Local.mono (readRmOperand_stays.lead fun _ => ?_) (Nat.zero_le _)
    exact (readImm64_stays (by omega)).last.mono (Nat.zero_le _)
  apply Local.ite (fun _ => ?_) fun _ => ?_
  · exact (decodeGroup2_stays (by omega) fun _ => readImmU8_stays).mono (Nat.zero_le _)
  apply Local.ite (fun _ => ?_) fun _ => ?_
  · exact (decodeGroup2_stays (by omega) fun _ => Local.pure _).mono (Nat.zero_le _)
  apply Local.ite (fun _ => decodeGroup3_stays.mono (Nat.zero_le _)) fun _ => ?_
  exact Local.ite (fun _ => decode0f_stays.mono (Nat.zero_le _)) fun _ => Stays.unsupported

end

/-! ## Instructions -/

/-- **The prefixes** end at a byte that is none; nothing after it matters. -/
theorem parsePrefixes_spec (s : PrefixState) (p : Nat) (rest : List Byte) :
    p ≤ (parsePrefixes s p rest).2 ∧ ∀ rest' : List Byte,
      (∀ i, p + i ≤ (parsePrefixes s p rest).2 → rest'[i]? = rest[i]?) →
        parsePrefixes s p rest' = parsePrefixes s p rest := by
  induction rest generalizing s p with
  | nil =>
    refine ⟨Nat.le_refl _, fun rest' hagree => ?_⟩
    have hnil := hagree 0 (Nat.le_refl _)
    rw [List.getElem?_nil, List.getElem?_eq_none_iff] at hnil
    rw [List.length_eq_zero_iff.mp (Nat.le_zero.mp hnil)]
  | cons b rest ih =>
    cases hstep : s.step b.toNat with
    | none =>
      have hstop : ∀ rest : List Byte, parsePrefixes s p (b :: rest) = (s, p) := by
        intro rest
        rw [parsePrefixes, hstep]
      rw [hstop]
      refine ⟨Nat.le_refl _, fun rest' hagree => ?_⟩
      have hfirst := hagree 0 (Nat.le_refl _)
      cases rest' with
      | nil => exact absurd hfirst (by simp)
      | cons b' rest' =>
        rw [List.getElem?_cons_zero, List.getElem?_cons_zero, Option.some.injEq] at hfirst
        rw [hfirst, hstop]
    | some s' =>
      have hgo : ∀ rest : List Byte, parsePrefixes s p (b :: rest) = parsePrefixes s' (p + 1) rest := by
        intro rest
        rw [parsePrefixes, hstep]
      rw [hgo]
      obtain ⟨hle, hsame⟩ := ih s' (p + 1)
      refine ⟨by omega, fun rest' hagree => ?_⟩
      have hfirst := hagree 0 (by omega)
      cases rest' with
      | nil => exact absurd hfirst (by simp)
      | cons b' rest' =>
        rw [List.getElem?_cons_zero, List.getElem?_cons_zero, Option.some.injEq] at hfirst
        rw [hfirst, hgo]
        apply hsame
        intro i hi
        have hnext := hagree (i + 1) (by omega)
        rwa [List.getElem?_cons_succ, List.getElem?_cons_succ] at hnext

theorem decodeBody_stays {s : PrefixState} {op n : Nat} : Stays n (decodeBody s op) 0 :=
  Local.ite (fun _ => Local.mono (decodeVex_stays.lead fun ⟨_, _⟩ => Local.pure _) (Nat.zero_le _)) fun _ =>
    decodeTypedOpcode_stays.last

theorem decodeInstruction_some {code : List Byte} {offset p : Nat} {s : PrefixState} {op : Byte}
    (hs : parsePrefixes .none offset (code.drop offset) = (s, p)) (hop : code[p]? = some op) :
    decodeInstruction code offset = ((decodeBody s op.toNat).run code (p + 1)).map fun r =>
      ⟨offset, r.2 - offset, r.1.1, r.1.2⟩ := by
  rw [decodeInstruction, hs]
  dsimp only
  rw [hop]

/-- **One instruction.** The decoder has no access out of range; an instruction is a byte long at least and lies in
    the input, and every other input with its bytes has the same instruction there, so that none is a proper prefix
    of another. -/
theorem decodeInstruction_bounded (code : List Byte) (offset : Nat) :
    decodeInstruction code offset ≠ .error .outOfRange ∧
    ∀ d, decodeInstruction code offset = .ok d → 1 ≤ d.length ∧ offset + d.length ≤ code.length ∧
      (∀ code', Agree code code' offset (offset + d.length) → decodeInstruction code' offset = .ok d) ∧
      ∀ rest, decodeInstruction (code ++ rest) offset = .ok d := by
  obtain ⟨hp, hsame⟩ := parsePrefixes_spec .none offset (code.drop offset)
  obtain ⟨⟨s, p⟩, hs⟩ : ∃ r, parsePrefixes .none offset (code.drop offset) = r := ⟨_, rfl⟩
  rw [hs] at hp hsame
  dsimp only at hp
  cases hop : code[p]? with
  | none =>
    have hnone : decodeInstruction code offset = .error (.parse ("x86: truncated opcode at offset " ++ toString p)) := by
      rw [decodeInstruction, hs]
      dsimp only
      rw [hop]
    rw [hnone]
    exact ⟨by simp, fun d hd => absurd hd (by simp)⟩
  | some op =>
    obtain ⟨hsafe, hok⟩ :=
      @decodeBody_stays s op.toNat 1 code offset (p + 1) (by omega) (List.getElem?_eq_some_iff.mp hop).1
    rw [decodeInstruction_some hs hop]
    cases hrun : (decodeBody s op.toNat).run code (p + 1) with
    | error e => exact ⟨fun h => hsafe (by rw [hrun, Except.error.inj h]), fun d hd => absurd hd (by simp [Except.map])⟩
    | ok r =>
      obtain ⟨a, q⟩ := r
      obtain ⟨hmove, hq, hlocal⟩ := hok a q hrun
      refine ⟨by simp [Except.map], fun d hd => ?_⟩
      obtain rfl : (⟨offset, q - offset, a.1, a.2⟩ : DecodedInstruction) = d := Except.ok.inj hd
      have hagree : ∀ code', Agree code code' offset (offset + (q - offset)) →
          decodeInstruction code' offset = .ok ⟨offset, q - offset, a.1, a.2⟩ := by
        intro code' hagree
        have hs' : parsePrefixes .none offset (code'.drop offset) = (s, p) := by
          apply hsame
          intro i hi
          rw [List.getElem?_drop, List.getElem?_drop]
          exact hagree _ (by omega) (by omega)
        have hop' : code'[p]? = some op := (hagree p hp (by omega)).trans hop
        rw [decodeInstruction_some hs' hop', hlocal code' (hagree.mono (by omega))]
        rfl
      refine ⟨by dsimp only; omega, by dsimp only; omega, hagree, fun rest => hagree _ fun i _ hi => ?_⟩
      exact List.getElem?_append_left (by omega)

end Csolver.X86
