import Csolver.Llvm.AsmMachine

/-!
# When the register semantics of inline assembly is right

The layout of the decoder numbers arguments as LLVM does where no register output looks like a memory operand. An
operation that is at least as wide as the output then computes what the representation computes.
-/

namespace Csolver.Llvm.Asm

/-! ## The layout -/

/-- A source of the decoder, and the operand that it stands for. -/
def SourceOf : OperandSrc → AsmOperand → Prop
  | .ret, o => o.arg = none ∧ o.tied = none
  | .retTied j, o => o.arg = some j ∧ o.memory = false ∧ o.tied = none
  | .arg j, o => o.arg = some j

structure Agrees (l : AsmLayout) (ops : List AsmOperand) : Prop where
  sources : List.Forall₂ SourceOf l.sources ops
  tied : ∀ n j, l.tiedIn n = some j →
    ∃ (k : Nat) (o : AsmOperand), ops[k]? = some o ∧ o.arg = some j ∧ o.memory = false ∧ place ops k = n

theorem place_append_left {ops more : List AsmOperand} {k : Nat} {o : AsmOperand} (h : ops[k]? = some o) :
    (ops ++ more)[k]? = some o ∧ place (ops ++ more) k = place ops k := by
  have hk : (ops ++ more)[k]? = some o := by
    rw [List.getElem?_append_left (List.getElem?_eq_some_iff.mp h).1]
    exact h
  exact ⟨hk, by rw [place, place, hk, h]⟩

theorem Agrees.push {l l' : AsmLayout} {ops : List AsmOperand} {s : OperandSrc} {o : AsmOperand} (h : Agrees l ops)
    (hs : SourceOf s o) (hsources : l'.sources = l.sources ++ [s])
    (htied : ∀ n j, l'.tiedIn n = some j → l.tiedIn n = some j ∨
      o.arg = some j ∧ o.memory = false ∧ o.tied.getD ops.length = n) : Agrees l' (ops ++ [o]) := by
  refine ⟨?_, ?_⟩
  · rw [hsources]
    exact List.rel_append h.sources (.cons hs .nil)
  · intro n j hn
    rcases htied n j hn with hold | ⟨harg, hmem, hplace⟩
    · obtain ⟨k, o', hk, hj, hm, hp⟩ := h.tied n j hold
      obtain ⟨hk', hp'⟩ := @place_append_left _ [o] _ _ hk
      exact ⟨k, o', hk', hj, hm, hp'.trans hp⟩
    · have hk : (ops ++ [o])[ops.length]? = some o := by simp
      exact ⟨ops.length, o, hk, harg, hmem, by rw [place, hk]; exact hplace⟩

theorem parseUsize_head {c : Char} {t : Text} (h : c.isDigit = false) (hplus : c ≠ '+') : parseUsize (c :: t) = none := by
  simp [parseUsize, hplus, h]

theorem hasMemory_of_plus {t : Text} {n : Nat} (h : parseUsize ('+' :: t) = some n) : hasMemory ('+' :: t) = false := by
  have hall : t.all Char.isDigit = true := by
    simp only [parseUsize] at h
    split_ifs at h with h₁
    exact h₁.2
  have hdigit := List.all_eq_true.mp hall
  have hstar : '*' ∉ t := fun hm => absurd (hdigit _ hm) (by decide)
  have hletter : 'm' ∉ t := fun hm => absurd (hdigit _ hm) (by decide)
  simp [hasMemory, hstar, hletter]

theorem argument_agrees {l : AsmLayout} {ops : List AsmOperand} {arg : Nat} {t : Text} {o : AsmOperand}
    (h : Agrees l ops) (hout : ¬(t.head? = some '=' ∧ hasMemory t = false))
    (hrw : ¬(t.head? = some '+' ∧ hasMemory t = false)) (ho : o.arg = some arg)
    (htied : ∀ n, parseUsize t = some n → o.memory = false ∧ o.tied = some n) :
    Agrees (layoutStep (l, arg) t).1 (ops ++ [o]) ∧
      (layoutStep (l, arg) t).2 = if o.arg.isSome then arg + 1 else arg := by
  simp only [layoutStep, if_neg hout, if_neg hrw, ho, Option.isSome_some, if_true]
  cases hn : parseUsize t with
  | none => exact ⟨h.push (s := .arg arg) ho rfl fun n j hj => .inl hj, rfl⟩
  | some n =>
    obtain ⟨hmem, hto⟩ := htied n hn
    refine ⟨h.push (s := .arg arg) ho rfl ?_, rfl⟩
    intro m j hj
    by_cases hm : m = n
    · subst hm
      have hj' : arg = j := by simpa [AsmLayout.push, AsmLayout.tie] using hj
      exact .inr ⟨hj' ▸ ho, hmem, by rw [hto]; rfl⟩
    · exact .inl (by simpa [AsmLayout.push, AsmLayout.tie, hm] using hj)

theorem layoutStep_agrees {l : AsmLayout} {ops : List AsmOperand} {arg : Nat} {t : Text} (h : Agrees l ops)
    (ht : AsmCall.Numbered t) : Agrees (layoutStep (l, arg) t).1 (ops ++ [operandOf arg t]) ∧
      (layoutStep (l, arg) t).2 = if (operandOf arg t).arg.isSome then arg + 1 else arg := by
  have hlen : l.sources.length = ops.length := h.sources.length_eq
  obtain ⟨hout, hlabel⟩ := ht
  unfold operandOf
  split
  · next t =>
    -- an output in memory
    exact argument_agrees h (by simp [hasMemory]) (by simp) rfl
      fun n hn => absurd hn (by rw [parseUsize_head (by decide) (by decide)]; simp)
  · next t hstar =>
    -- an output in a register
    have hmem : hasMemory ('=' :: t) = false := by
      apply hout rfl
      cases t with
      | nil => simp
      | cons c t =>
        rintro ⟨⟩
        exact hstar t rfl
    simp only [layoutStep, List.head?_cons, hmem, and_self, if_true, Option.isSome_none, Bool.false_eq_true, if_false]
    exact ⟨h.push (s := .ret) ⟨rfl, rfl⟩ rfl fun n j hj => .inl hj, trivial⟩
  · next t =>
    cases hmem : hasMemory ('+' :: t) with
    | true =>
      refine argument_agrees h (by simp) (by simp [hmem]) rfl fun n hn => ?_
      rw [hasMemory_of_plus hn] at hmem
      cases hmem
    | false =>
      simp only [layoutStep, List.head?_cons, hmem, Option.some.injEq, Char.reduceEq, false_and, if_false, and_self,
        if_true, Option.isSome_some]
      refine ⟨h.push (s := .retTied arg) ⟨rfl, rfl, rfl⟩ rfl ?_, trivial⟩
      intro n j hj
      by_cases hn : n = ops.length
      · have hj' : arg = j := by simpa [AsmLayout.push, AsmLayout.tie, hlen, hn] using hj
        exact .inr ⟨by rw [hj'], rfl, hn.symm⟩
      · exact .inl (by simpa [AsmLayout.push, AsmLayout.tie, hlen, hn] using hj)
  · exact absurd rfl hlabel
  · next t =>
    exact argument_agrees h (by simp) (by simp) rfl
      fun n hn => absurd hn (by rw [parseUsize_head (by decide) (by decide)]; simp)
  · next hstar heq hplus hbang hind =>
    have hne (c : Char) (hc : ∀ u, t ≠ c :: u) : t.head? ≠ some c := by
      intro hhead
      cases t with
      | nil => cases hhead
      | cons d u =>
        obtain rfl : d = c := Option.some.inj hhead
        exact hc u rfl
    exact argument_agrees h (fun hh => hne '=' heq hh.1) (fun hh => hne '+' hplus hh.1) rfl
      fun n hn => ⟨rfl, hn⟩

theorem foldl_agrees {ts : List Text} (hts : ∀ t ∈ ts, AsmCall.Numbered t) {l : AsmLayout} {ops : List AsmOperand}
    {arg : Nat} (h : Agrees l ops) : Agrees (ts.foldl layoutStep (l, arg)).1 (ops ++ operandsFrom arg ts) := by
  induction ts generalizing l ops arg with
  | nil => simpa [operandsFrom] using h
  | cons t ts ih =>
    obtain ⟨hstep, harg⟩ := @layoutStep_agrees _ _ arg _ h (hts t List.mem_cons_self)
    have hrest := @ih (fun u hu => hts u (List.mem_cons_of_mem _ hu)) _ _ (layoutStep (l, arg) t).2 hstep
    rw [List.foldl_cons, operandsFrom, List.append_cons, ← harg]
    exact hrest

theorem asmOperandLayout_agrees {constraints : Text}
    (h : ∀ t ∈ (tokens constraints).filter (!skipped ·), AsmCall.Numbered t) :
    Agrees (asmOperandLayout constraints) (operands constraints) :=
  @foldl_agrees _ h _ [] _ ⟨.nil, fun _ _ hj => nomatch hj⟩

namespace Agrees

variable {l : AsmLayout} {ops : List AsmOperand} {s : OperandSrc} {k j : Nat}

theorem source (h : Agrees l ops) (hs : l.source k = some s) : ∃ o, ops[k]? = some o ∧ SourceOf s o := by
  obtain ⟨hk, rfl⟩ := List.getElem?_eq_some_iff.mp hs
  have hk' : k < ops.length := h.sources.length_eq ▸ hk
  exact ⟨ops[k], List.getElem?_eq_getElem hk', (List.forall₂_iff_get.mp h.sources).2 k hk hk'⟩

theorem place_output (h : Agrees l ops) (hs : l.source k = some s) (hout : s.isOutput = true) : place ops k = k := by
  obtain ⟨o, ho, hrel⟩ := h.source hs
  have htied : o.tied = none := by
    cases s with
    | ret => exact hrel.2
    | retTied j => exact hrel.2.2
    | arg j => cases hout
  rw [place, ho, Option.bind_some, htied, Option.getD_none]

theorem value (h : Agrees l ops) (hs : l.source k = some s) (hj : s.valueArg = some j) :
    ∃ o, ops[k]? = some o ∧ o.arg = some j := by
  obtain ⟨o, ho, hrel⟩ := h.source hs
  cases s with
  | ret => cases hj
  | retTied i =>
    obtain rfl := Option.some.inj hj
    exact ⟨o, ho, hrel.1⟩
  | arg i =>
    obtain rfl := Option.some.inj hj
    exact ⟨o, ho, hrel⟩

theorem incoming (h : Agrees l ops) (hj : l.incomingArg k = some j) :
    ∃ (k' : Nat) (o : AsmOperand), ops[k']? = some o ∧ o.arg = some j ∧ o.memory = false ∧ place ops k' = k := by
  unfold AsmLayout.incomingArg at hj
  split at hj
  · next i hs =>
    obtain rfl := Option.some.inj hj
    obtain ⟨o, ho, harg, hmem, -⟩ := h.source hs
    exact ⟨k, o, ho, harg, hmem, h.place_output hs rfl⟩
  · exact h.tied k j hj
  · cases hj

end Agrees

/-! ## Registers and their parts -/

section Parts

variable {r : Ref} {s w : Nat}

theorem Ref.read_low (h : r.isHigh = false) (v : Nat) : r.read s v = v % 2 ^ s := by simp [Ref.read, h]

theorem Ref.write_mod (h : r.isHigh = false) (hw : w ≤ s) (old v : Nat) : r.write s old v % 2 ^ w = v % 2 ^ w := by
  have hdvd : 2 ^ w ∣ 2 ^ s := pow_dvd_pow 2 hw
  rw [Ref.write]
  split_ifs with h₁ h₂
  · exact Nat.mod_mod_of_dvd v hdvd
  · exact absurd h₂.1 (by simp [h])
  · have hold : old - old % 2 ^ s = 2 ^ s * (old / 2 ^ s) := by
      have := Nat.div_add_mod old (2 ^ s)
      omega
    obtain ⟨q, hq⟩ := hdvd
    rw [hold, hq, mul_assoc, ← hq, Nat.mul_add_mod, Nat.mod_mod_of_dvd v ⟨q, hq⟩]

end Parts

/-! ## Operators -/

section Operators

open BvOp

variable {op : BvOp} {s w : Nat}

theorem eval_congr (op : BvOp) (w : Nat) {x x' y y' : Nat} (hx : x % 2 ^ w = x' % 2 ^ w)
    (hy : y % 2 ^ w = y' % 2 ^ w) : op.eval w x y = op.eval w x' y' := by
  rw [← BvOp.eval_mod op w x y, hx, hy, BvOp.eval_mod]

theorem eval_low (hlow : op.lowBits = true) (hw : w ≤ s) (x y : Nat) :
    op.eval s (x % 2 ^ s) (y % 2 ^ s) % 2 ^ w = op.eval w x y := by
  rw [BvOp.eval_mod op s x y]
  exact (lowBits_eval hlow hw x y).symm

theorem eval_self {x : Nat} (h : op = .xor ∨ op = .sub) : op.eval w x x = 0 := by
  rcases h with rfl | rfl <;> simp [BvOp.eval, BvOp.evalBv]

theorem ones_mod (hw : w ≤ s) : (2 ^ s - 1) % 2 ^ w = 2 ^ w - 1 := by
  obtain ⟨q, hq⟩ := pow_dvd_pow 2 hw
  have hpos := Nat.two_pow_pos w
  have hqpos : 0 < q := by
    rcases Nat.eq_zero_or_pos q with rfl | hq'
    · have := Nat.two_pow_pos s
      omega
    · exact hq'
  obtain ⟨p, rfl⟩ := Nat.exists_eq_add_of_lt hqpos
  have heq : 2 ^ s - 1 = 2 ^ w * p + (2 ^ w - 1) := by
    rw [hq, Nat.zero_add, Nat.mul_succ]
    omega
  rw [heq, Nat.mul_add_mod, Nat.mod_eq_of_lt (by omega)]

theorem ones_emod (hw : w ≤ 128) : (((2 : Int) ^ 128 - 1) % 2 ^ w).toNat = 2 ^ w - 1 := by
  have h := ones_mod hw
  have hcast : (2 : Int) ^ 128 - 1 = ((2 ^ 128 - 1 : Nat) : Int) := rfl
  have hpow : (2 : Int) ^ w = ((2 ^ w : Nat) : Int) := by simp
  rw [hcast, hpow, ← Int.natCast_mod, Int.toNat_natCast, h]

theorem eval_past (h : isShift op = true) {x c d : Nat} (hc : w ≤ c % 2 ^ w) (hd : w ≤ d % 2 ^ w) :
    op.eval w x c = op.eval w x d := by
  simp only [isShift, Bool.or_eq_true, decide_eq_true_eq] at h
  simp only [BvOp.eval]
  congr 1
  ext i hi
  rcases h with (rfl | rfl) | rfl
  · simp only [evalBv, BitVec.toNat_ofNat, BitVec.getElem_shiftLeft]
    rw [decide_eq_true (by omega : i < c % 2 ^ w), decide_eq_true (by omega : i < d % 2 ^ w)]
    rfl
  · simp only [evalBv, BitVec.toNat_ofNat, BitVec.getElem_ushiftRight]
    rw [BitVec.getLsbD_of_ge _ _ (by omega), BitVec.getLsbD_of_ge _ _ (by omega)]
  · simp only [evalBv, BitVec.toNat_ofNat, BitVec.getElem_sshiftRight]
    rw [dif_neg (by omega), dif_neg (by omega)]

theorem shift_low {x d : Nat} (hsize : w = s ∨ op = .shl ∧ w ≤ s) (hd : d < 2 ^ w) :
    op.eval s (x % 2 ^ s) d % 2 ^ w = op.eval w x d := by
  have hx : op.eval s (x % 2 ^ s) d = op.eval s x d := eval_congr op s (Nat.mod_mod _ _) rfl
  rw [hx]
  rcases hsize with rfl | ⟨rfl, hle⟩
  · exact Nat.mod_eq_of_lt (eval_lt op w x d)
  · exact (shl_eval hle hd).symm

theorem shift_count {x x' n c d m : Nat} (hshift : isShift op = true) (hx : x' % 2 ^ w = x % 2 ^ w) (hm : 2 ^ m < 2 ^ w)
    (hd : d = n % 2 ^ m) (hc : c % 2 ^ w % 2 ^ m = n % 2 ^ m) (hlt : n < 2 ^ m → c % 2 ^ w = n)
    (hcount : n < 2 ^ m ∨ w ≤ n % 2 ^ m) : op.eval w x' c = op.eval w x d := by
  have hdlt : d < 2 ^ w := hd ▸ (Nat.mod_lt _ (Nat.two_pow_pos _)).trans hm
  rw [eval_congr op w hx (rfl : c % 2 ^ w = c % 2 ^ w)]
  rcases hcount with hn | hw
  · refine eval_congr op w rfl ?_
    rw [hlt hn, hd, Nat.mod_eq_of_lt hn, Nat.mod_eq_of_lt (hn.trans hm)]
  · apply eval_past hshift
    · have := Nat.mod_le (c % 2 ^ w) (2 ^ m)
      omega
    · rw [Nat.mod_eq_of_lt hdlt]
      omega

end Operators

/-! ## Values -/

namespace AsmState

variable {st : AsmState} {u w x : Nat} {a : LValue} {op : Operand}

theorem read_intAt (hpos : 0 < w) (hw : w ≤ 64) (n : Int) : st.read (intAt w n) = some ((n % 2 ^ w).toNat) ∧
    (intAt w n).width st.Γ = w := by
  have hnew : BitVector.new w (n % 2 ^ 128).toNat =
      some ⟨w, (n % 2 ^ 128).toNat % 2 ^ w, hpos, by omega, Nat.mod_lt _ (Nat.two_pow_pos _)⟩ := dif_pos ⟨hpos, by omega⟩
  rw [intAt, Ctx.intOperand, hnew]
  refine ⟨congrArg some ?_, rfl⟩
  change (n % 2 ^ 128).toNat % 2 ^ w = _
  rw [toNat_emod_pow, emod_pow_of_le (by omega)]

/-- The number that the representation reads for an argument, and the argument's value: they are the same, or both
    are parts of one constant. -/
theorem Holds.reads (h : st.Holds u a x) (hop : st.ctx.operand a w = .ok op) (hpos : 0 < w) (hw : w ≤ 64) :
    ∃ y, st.read op = some y ∧ (y % 2 ^ op.width st.Γ = x ∨
      ∃ n : Int, Literal u n ∧ x = (n % 2 ^ u).toNat ∧ y % 2 ^ op.width st.Γ = (n % 2 ^ w).toNat) := by
  have hother (hsame : st.ctx.operand a w = st.ctx.operand a u)
      (hx : ∃ op, st.ctx.operand a u = .ok op ∧ st.read op = some x ∧ x < 2 ^ u ∧ u ≤ op.width st.Γ) :
      ∃ y, st.read op = some y ∧ (y % 2 ^ op.width st.Γ = x ∨
        ∃ n : Int, Literal u n ∧ x = (n % 2 ^ u).toNat ∧ y % 2 ^ op.width st.Γ = (n % 2 ^ w).toNat) := by
    obtain ⟨op', hop', hread, hlt, hwide⟩ := hx
    obtain rfl : op = op' := Except.ok.inj (hop.symm.trans (hsame.trans hop'))
    exact ⟨x, hread, .inl (Nat.mod_eq_of_lt (lt_of_lt_of_le hlt (Nat.pow_le_pow_right (by decide) hwide)))⟩
  cases a with
  | int n =>
    obtain ⟨hlit, rfl⟩ := h
    have hop' : op = intAt w n := by
      have := Except.ok.inj hop
      rw [if_neg (by omega), Nat.max_eq_left hpos] at this
      exact this.symm
    obtain ⟨hread, hwidth⟩ := @read_intAt st _ hpos hw n
    rw [hop', hwidth]
    refine ⟨_, hread, .inr ⟨n, hlit, rfl, ?_⟩⟩
    rw [toNat_emod_pow, emod_pow_of_le le_rfl]
  | «local» name => exact hother rfl h
  | null => exact hother rfl h
  | undef => exact hother rfl h
  | global name => exact hother rfl h
  | globalOff name elem index => exact hother rfl h

theorem Holds.low (h : st.Holds u a x) (hop : st.ctx.operand a w = .ok op) (hpos : 0 < w) (hw : w ≤ 64)
    (hwide : w ≤ u) : ∃ y, st.read op = some y ∧ y % 2 ^ op.width st.Γ % 2 ^ w = x % 2 ^ w := by
  obtain ⟨y, hread, hy | ⟨n, -, rfl, hy⟩⟩ := h.reads hop hpos hw
  · exact ⟨y, hread, by rw [hy]⟩
  · refine ⟨y, hread, ?_⟩
    rw [hy, toNat_emod_pow, toNat_emod_pow, emod_pow_of_le hwide, emod_pow_of_le le_rfl]

theorem Holds.count {m : Nat} (h : st.Holds u a x) (hop : st.ctx.operand a w = .ok op) (hw : 8 ≤ w) (hw' : w ≤ 64)
    (hu : 8 ≤ u) (hm : m ≤ 6) : ∃ y, st.read op = some y ∧ y % 2 ^ op.width st.Γ % 2 ^ w % 2 ^ m = x % 2 ^ m ∧
      (x < 2 ^ m → y % 2 ^ op.width st.Γ % 2 ^ w = x) := by
  have hm6 : (2 : Nat) ^ m ≤ 64 := Nat.pow_le_pow_right (by decide) hm
  have hw8 : (256 : Nat) ≤ 2 ^ w := Nat.pow_le_pow_right (n := 2) (by decide) hw
  obtain ⟨y, hread, hy | ⟨n, hlit, rfl, hy⟩⟩ := h.reads hop (by omega) hw'
  · refine ⟨y, hread, ?_⟩
    rw [hy]
    exact ⟨Nat.mod_mod_of_dvd x (pow_dvd_pow 2 (by omega)), fun hx => Nat.mod_eq_of_lt (by omega)⟩
  · refine ⟨y, hread, ?_, ?_⟩
    · rw [hy, toNat_emod_pow, emod_pow_of_le le_rfl, toNat_emod_pow, toNat_emod_pow, emod_pow_of_le (by omega),
        emod_pow_of_le (by omega)]
    · -- a small count is not the value of a negative constant
      intro hx
      have hu8 : (128 : Int) ≤ 2 ^ (u - 1) := by
        calc (128 : Int) = 2 ^ 7 := rfl
          _ ≤ 2 ^ (u - 1) := pow_le_pow_right₀ (by decide) (by omega)
      have hpow := hlit.pow
      have hlo := hlit.2.1
      have hn : 0 ≤ n ∧ n < 64 := by
        rw [hlit.emod] at hx
        split at hx <;> omega
      rw [hy, toNat_emod_pow, emod_pow_of_le le_rfl, hlit.emod, if_pos hn.1, Int.emod_eq_of_lt hn.1]
      have : (256 : Int) ≤ 2 ^ w := by exact_mod_cast hw8
      omega

theorem value_use (hread : st.read op = some x) : st.value w (.use op) = some (x % 2 ^ op.width st.Γ % 2 ^ w) := by
  simp [value, RValue.operands, hread, RValue.machine]

theorem value_bin {op₁ op₂ : Operand} {x₁ x₂ : Nat} (bop : BvOp) (h₁ : st.read op₁ = some x₁)
    (h₂ : st.read op₂ = some x₂) : st.value w (.bin bop op₁ op₂) =
      some (bop.eval w (x₁ % 2 ^ op₁.width st.Γ) (x₂ % 2 ^ op₂.width st.Γ)) := by
  simp [value, RValue.operands, h₁, h₂, RValue.machine]

end AsmState

/-! ## Instructions -/

namespace AsmCall

variable {c : AsmCall} {st : AsmState}

theorem Start.holds (h : c.Start st) {k j : Nat} {o : AsmOperand} {op : Operand} (ho : c.ops[k]? = some o)
    (hj : o.arg = some j) (hmem : o.memory = false) (hop : ArgIs st.ctx c.args c.width j op) :
    ∃ a, st.ctx.operand a c.width = .ok op ∧
      st.Holds (c.widths k) a (st.contents (c.place k) % 2 ^ c.widths k) := by
  obtain ⟨a, ha, hop⟩ := hop
  exact ⟨a, hop, h k o j a ho hj hmem ha⟩

section

variable {ins : Insn} {k j : Nat} {op : Operand} {r : Ref} {s : OperandSrc}

theorem Start.low (h : c.Start st) {o : AsmOperand} (hb : 0 < c.width ∧ c.width ≤ 64) (ho : c.ops[k]? = some o)
    (hj : o.arg = some j) (hmem : o.memory = false) (hop : ArgIs st.ctx c.args c.width j op)
    (hwide : c.width ≤ c.widths k) :
    ∃ y, st.read op = some y ∧ y % 2 ^ op.width st.Γ % 2 ^ c.width = st.contents (c.place k) % 2 ^ c.width := by
  obtain ⟨a, ha, hholds⟩ := h.holds ho hj hmem hop
  obtain ⟨y, hread, hy⟩ := hholds.low ha hb.1 hb.2 hwide
  exact ⟨y, hread, hy.trans (Nat.mod_mod_of_dvd _ (pow_dvd_pow 2 hwide))⟩

variable (hp : c.Plain st ins)
include hp

theorem Plain.agrees : Agrees (asmOperandLayout c.constraints) c.ops := asmOperandLayout_agrees hp.numbered

theorem Plain.source_low (h : c.Start st) (hsrc : source ins = some r)
    (hs : (asmOperandLayout c.constraints).source r.num = some s) (hj : s.valueArg = some j)
    (hop : ArgIs st.ctx c.args c.width j op) (hwide : c.width ≤ c.widths r.num) :
    ∃ y, st.read op = some y ∧ y % 2 ^ op.width st.Γ % 2 ^ c.width = st.contents (c.place r.num) % 2 ^ c.width := by
  obtain ⟨o, ho, harg⟩ := hp.agrees.value hs hj
  exact h.low hp.bounds ho harg (hp.register r o hsrc ho) hop hwide

theorem Plain.incoming_low (h : c.Start st) (hj : (asmOperandLayout c.constraints).incomingArg ins.dst.num = some j)
    (hs : (asmOperandLayout c.constraints).source ins.dst.num = some s) (hout : s.isOutput = true)
    (hop : ArgIs st.ctx c.args c.width j op) :
    ∃ y, st.read op = some y ∧
      y % 2 ^ op.width st.Γ % 2 ^ c.width = st.contents (c.place ins.dst.num) % 2 ^ c.width := by
  obtain ⟨k, o, ho, harg, hmem, hplace⟩ := hp.agrees.incoming hj
  have hk : c.place k = ins.dst.num := hplace
  have hdst : c.place ins.dst.num = ins.dst.num := hp.agrees.place_output hs hout
  rw [hdst, ← hk]
  exact h.low hp.bounds ho harg hmem hop (hp.tied k o ho (by simp [harg]) hk)

end

section

variable {sem : Sem} {rv : RValue} {z : Option Nat} {src dst : Ref} {j jd js : Nat} {op : BvOp}

/-- The value of a right-hand side is the result of the instruction. -/
def Computes (c : AsmCall) (st : AsmState) (ins : Insn) (rv : RValue) : Prop :=
  st.value c.width rv = some (ins.exec c.widths st.contents c.place % 2 ^ c.width)

theorem mov_computes (hp : c.Plain st (.mov z src dst)) (h : c.Start st)
    (henc : Encodes (asmOperandLayout c.constraints) (.mov z src dst) (.copy j))
    (hgives : Gives st.ctx c.args c.width (.copy j) rv) : c.Computes st (.mov z src dst) rv := by
  obtain ⟨⟨s, hs, hj⟩, -⟩ := henc
  obtain ⟨o, ho, rfl⟩ := hgives
  obtain ⟨hsize, hwide⟩ := hp.fits
  obtain ⟨y, hread, hy⟩ := hp.source_low h rfl hs hj ho hwide
  have hsrc : src.isHigh = false := hp.low src (by simp [Insn.refs])
  have hdst : dst.isHigh = false := hp.low dst (by simp [Insn.refs])
  rw [Computes, st.value_use hread, hy, Insn.exec, Ref.write_mod hdst hsize, Ref.read_low hsrc,
    Nat.mod_mod_of_dvd _ (pow_dvd_pow 2 hsize)]

theorem lea_computes (hp : c.Plain st (.lea z src dst)) (h : c.Start st)
    (henc : Encodes (asmOperandLayout c.constraints) (.lea z src dst) (.copy j))
    (hgives : Gives st.ctx c.args c.width (.copy j) rv) : c.Computes st (.lea z src dst) rv := by
  obtain ⟨⟨s, hs, hj⟩, -⟩ := henc
  obtain ⟨o, ho, rfl⟩ := hgives
  obtain ⟨hsize, hbase, hwide⟩ := hp.fits
  obtain ⟨y, hread, hy⟩ := hp.source_low h rfl hs hj ho hwide
  have hsrc : src.isHigh = false := hp.low src (by simp [Insn.refs])
  have hdst : dst.isHigh = false := hp.low dst (by simp [Insn.refs])
  rw [Computes, st.value_use hread, hy, Insn.exec, Ref.write_mod hdst hsize, Ref.read_low hsrc,
    Nat.mod_mod_of_dvd _ (pow_dvd_pow 2 hbase)]

theorem neg_computes (hp : c.Plain st (.neg z dst)) (h : c.Start st)
    (henc : Encodes (asmOperandLayout c.constraints) (.neg z dst) (.neg j))
    (hgives : Gives st.ctx c.args c.width (.neg j) rv) : c.Computes st (.neg z dst) rv := by
  obtain ⟨⟨d, hd, hout⟩, hj⟩ := henc
  obtain ⟨o, ho, rfl⟩ := hgives
  have hsize : c.width ≤ opSize c.widths z dst := hp.fits
  obtain ⟨y, hread, hy⟩ := hp.incoming_low h hj hd hout ho
  have hdst : dst.isHigh = false := hp.low dst (by simp [Insn.refs])
  obtain ⟨hzero, hwidth⟩ := @AsmState.read_intAt st _ hp.bounds.1 hp.bounds.2 0
  have hlow := @eval_low .sub _ _ rfl hsize 0 (st.contents (c.place dst.num))
  rw [Nat.zero_mod] at hlow
  rw [Computes, st.value_bin _ hzero hread, hwidth, Insn.exec, Ref.write_mod hdst hsize, Ref.read_low hdst, hlow]
  exact congrArg some (eval_congr .sub _ (by simp) hy)

theorem not_computes (hp : c.Plain st (.not z dst)) (h : c.Start st)
    (henc : Encodes (asmOperandLayout c.constraints) (.not z dst) (.not j))
    (hgives : Gives st.ctx c.args c.width (.not j) rv) : c.Computes st (.not z dst) rv := by
  obtain ⟨⟨d, hd, hout⟩, hj⟩ := henc
  obtain ⟨o, ho, rfl⟩ := hgives
  have hsize : c.width ≤ opSize c.widths z dst := hp.fits
  obtain ⟨y, hread, hy⟩ := hp.incoming_low h hj hd hout ho
  have hdst : dst.isHigh = false := hp.low dst (by simp [Insn.refs])
  obtain ⟨hones, hwidth⟩ := @AsmState.read_intAt st _ hp.bounds.1 hp.bounds.2 (2 ^ 128 - 1)
  have hlow := @eval_low .xor _ _ rfl hsize (st.contents (c.place dst.num)) (2 ^ opSize c.widths z dst - 1)
  rw [Nat.mod_eq_of_lt (Nat.sub_lt (Nat.two_pow_pos _) Nat.one_pos)] at hlow
  rw [Computes, st.value_bin _ hread hones, hwidth, Insn.exec, Ref.write_mod hdst hsize, Ref.read_low hdst, hlow]
  refine congrArg some (eval_congr .xor _ hy ?_)
  -- all ones at either width
  have hw : c.width ≤ 128 := le_trans hp.bounds.2 (by decide)
  rw [ones_mod hsize, ones_emod hw, Nat.mod_mod, Nat.mod_eq_of_lt (Nat.sub_lt (Nat.two_pow_pos _) Nat.one_pos)]

theorem zero_computes (hp : c.Plain st (.bin op z src dst))
    (henc : Encodes (asmOperandLayout c.constraints) (.bin op z src dst) .zero)
    (hgives : Gives st.ctx c.args c.width .zero rv) : c.Computes st (.bin op z src dst) rv := by
  obtain ⟨hidiom, -⟩ := henc
  obtain rfl : rv = .use (intAt c.width 0) := hgives
  have hsize : c.width ≤ opSize c.widths z dst ∨ opSize c.widths z dst = 32 ∧ c.width ≤ 64 := by
    have hfits := hp.fits
    simp only [Fits] at hfits
    rwa [if_pos hidiom] at hfits
  have hsrc : src.isHigh = false := hp.low src (by simp [Insn.refs])
  have hdst : dst.isHigh = false := hp.low dst (by simp [Insn.refs])
  obtain ⟨hzero, hwidth⟩ := @AsmState.read_intAt st _ hp.bounds.1 hp.bounds.2 0
  have hshift : isShift op = false := by
    rcases hidiom.1 with rfl | rfl <;> rfl
  rw [Computes, st.value_use hzero, Insn.exec, hshift, if_neg (by simp), Ref.read_low hsrc, Ref.read_low hdst, hidiom.2,
    eval_self hidiom.1]
  rcases hsize with hsize | ⟨h32, -⟩
  · rw [Ref.write_mod hdst hsize]
    simp
  · -- the upper half is cleared
    simp [Ref.write, h32]

theorem arith_computes (hp : c.Plain st (.bin op z src dst)) (h : c.Start st)
    (henc : Encodes (asmOperandLayout c.constraints) (.bin op z src dst) (.bin op jd js))
    (hgives : Gives st.ctx c.args c.width (.bin op jd js) rv) (hlow : op.lowBits = true) (hshift : isShift op = false) :
    c.Computes st (.bin op z src dst) rv := by
  obtain ⟨hidiom, -, -, ⟨d, hd, hout⟩, hjd, s, hs, hjs⟩ := henc
  obtain ⟨x, y, hx, hy, rfl⟩ := hgives
  have hfits := hp.fits
  simp only [Fits, if_neg hidiom, hshift, Bool.false_eq_true, if_false] at hfits
  obtain ⟨hsize, hwide⟩ := hfits
  obtain ⟨u, hu, hueq⟩ := hp.incoming_low h hjd hd hout hx
  obtain ⟨v, hv, hveq⟩ := hp.source_low h (by rw [source, if_neg hidiom]) hs hjs hy hwide
  have hsrc : src.isHigh = false := hp.low src (by simp [Insn.refs])
  have hdst : dst.isHigh = false := hp.low dst (by simp [Insn.refs])
  rw [Computes, st.value_bin _ hu hv, Insn.exec, hshift, if_neg (by simp), Ref.write_mod hdst hsize,
    Ref.read_low hsrc, Ref.read_low hdst, eval_low hlow hsize]
  exact congrArg some (eval_congr op _ hueq hveq)

theorem countModulus_eq (s : Nat) : ∃ m, countModulus s = 2 ^ m ∧ m ≤ 6 ∧ 5 ≤ m := by
  unfold countModulus
  split
  · exact ⟨6, rfl, by decide, by decide⟩
  · exact ⟨5, rfl, by decide, by decide⟩

theorem shift_computes (hp : c.Plain st (.bin op z src dst)) (h : c.Start st)
    (henc : Encodes (asmOperandLayout c.constraints) (.bin op z src dst) (.bin op jd js))
    (hgives : Gives st.ctx c.args c.width (.bin op jd js) rv) (hshift : isShift op = true) :
    c.Computes st (.bin op z src dst) rv := by
  obtain ⟨hidiom, -, -, ⟨d, hd, hout⟩, hjd, s, hs, hjs⟩ := henc
  obtain ⟨x, y, hx, hy, rfl⟩ := hgives
  have hfits := hp.fits
  simp only [Fits, if_neg hidiom, hshift, if_true] at hfits
  obtain ⟨hsize, hw8, hu8, hcount⟩ := hfits
  obtain ⟨u, hu, hueq⟩ := hp.incoming_low h hjd hd hout hx
  obtain ⟨o, ho, harg⟩ := hp.agrees.value hs hjs
  have hmem : o.memory = false := hp.register src o (by rw [source, if_neg hidiom]) ho
  obtain ⟨a, ha, hholds⟩ := h.holds ho harg hmem hy
  obtain ⟨m, hm, hm6, hm5⟩ := countModulus_eq (opSize c.widths z dst)
  obtain ⟨v, hv, hvmod, hvlt⟩ := hholds.count ha hw8 hp.bounds.2 hu8 hm6
  have hsrc : src.isHigh = false := hp.low src (by simp [Insn.refs])
  have hdst : dst.isHigh = false := hp.low dst (by simp [Insn.refs])
  have hpow : 2 ^ m < 2 ^ c.width := Nat.pow_lt_pow_right (by decide) (by omega)
  have hcnt : st.contents (c.place src.num) % 2 ^ 8 % 2 ^ m =
      st.contents (c.place src.num) % 2 ^ c.widths src.num % 2 ^ m := by
    rw [Nat.mod_mod_of_dvd _ (pow_dvd_pow 2 (by omega)), Nat.mod_mod_of_dvd _ (pow_dvd_pow 2 (by omega))]
  rw [hm] at hcount
  have hle : c.width ≤ opSize c.widths z dst := by
    rcases hsize with heq | ⟨-, hle⟩
    · exact heq.le
    · exact hle
  rw [Computes, st.value_bin _ hu hv, Insn.exec, hshift, if_pos rfl, Ref.write_mod hdst hle, Ref.read_low hsrc,
    Ref.read_low hdst, hm, shift_low hsize ((Nat.mod_lt _ (Nat.two_pow_pos _)).trans hpow)]
  exact congrArg some (shift_count hshift hueq hpow hcnt hvmod hvlt hcount)

theorem encoded_computes {ins : Insn} (hp : c.Plain st ins) (h : c.Start st)
    (henc : Encodes (asmOperandLayout c.constraints) ins sem) (hgives : Gives st.ctx c.args c.width sem rv) :
    c.Computes st ins rv := by
  cases ins with
  | mov z src dst =>
    cases sem with
    | copy j => exact mov_computes hp h henc hgives
    | _ => exact henc.elim
  | lea z src dst =>
    cases sem with
    | copy j => exact lea_computes hp h henc hgives
    | _ => exact henc.elim
  | neg z dst =>
    cases sem with
    | neg j => exact neg_computes hp h henc hgives
    | _ => exact henc.elim
  | not z dst =>
    cases sem with
    | not j => exact not_computes hp h henc hgives
    | _ => exact henc.elim
  | bin op z src dst =>
    cases sem with
    | zero => exact zero_computes hp henc hgives
    | bin op' jd js =>
      obtain rfl : op' = op := henc.2.1
      have hletter : asmBinop (letter op') = some op' := henc.2.2.1
      cases hshift : isShift op' with
      | true => exact shift_computes hp h henc hgives hshift
      | false =>
        refine arith_computes hp h henc hgives ?_ hshift
        cases op' <;> first | rfl | exact absurd hshift (by decide) | exact absurd hletter (by decide)
    | _ => exact henc.elim

end

theorem typeWidth_lowerType (ty : LType) : (lowerType ty).typeWidth = typeWidth ty := by cases ty <;> rfl

/-- An addition in place, of two 32-bit numbers. -/
def addCall : AsmCall where
  template := "addl $1, $0".toList
  constraints := "=r,r,0".toList
  intel := false
  args := [.local "a", .local "b"]
  dst := "d"
  ret := .int 32
  widths := fun _ => 32

def addState : AsmState where
  ctx := ⟨fun name => if name = "a" then some 0 else if name = "b" then some 1 else some 2, 3⟩
  Γ := fun _ => 32
  regs := fun r => if r = 0 then some 7 else some 5
  addr := fun _ => 0
  contents := fun k => if k = 0 then 5 else 7

theorem addCall_ops : addCall.ops =
    [⟨none, false, none, true⟩, ⟨some 0, false, none, false⟩, ⟨some 1, false, some 0, false⟩] := by decide +kernel

theorem addCall_start : addCall.Start addState := by
  intro k o j a ho hj hmem ha
  rw [addCall_ops] at ho
  match k, ho with
  | 0, ho =>
    obtain rfl := Option.some.inj ho
    cases hj
  | 1, ho =>
    obtain rfl := Option.some.inj ho
    obtain rfl := Option.some.inj hj
    obtain rfl := Option.some.inj ha
    have hplace : addCall.place 1 = 1 := by rw [place, Asm.place, addCall_ops]; rfl
    rw [hplace]
    exact ⟨.reg 0, rfl, rfl, by decide, le_refl 32⟩
  | 2, ho =>
    obtain rfl := Option.some.inj ho
    obtain rfl := Option.some.inj hj
    obtain rfl := Option.some.inj ha
    have hplace : addCall.place 2 = 0 := by rw [place, Asm.place, addCall_ops]; rfl
    rw [hplace]
    exact ⟨.reg 1, rfl, rfl, by decide, le_refl 32⟩

/-- A move from memory: the argument is the address. -/
def loadCall : AsmCall where
  template := "mov $1, $0".toList
  constraints := "=r,*m".toList
  intel := false
  args := [.local "p"]
  dst := "d"
  ret := .int 64
  widths := fun _ => 64

def loadState : AsmState where
  ctx := ⟨fun name => if name = "p" then some 0 else some 1, 2⟩
  Γ := fun _ => 64
  regs := fun _ => some 4096
  addr := fun _ => 0
  contents := fun k => if k = 1 then 7 else 0

end AsmCall

end Csolver.Llvm.Asm
