import Csolver.Llvm.Ast

/-!
# The type parser (`crates/llvm/src/parser/lex.rs`)

The cursor of the parser is the list of the tokens from it on. A token is taken from its front, but the last
one stays, as `bump` leaves it; a token list that ends with `eof` is never empty.
-/

namespace Csolver.Llvm.TypeParser

/-- `Tok` (`lexer.rs`). -/
inductive Tok where
  | local (name : String)
  | global (name : String)
  | word (w : String)
  | int (n : Int)
  | float (text : String)
  | punct (c : Char)
  | newline
  | eof
deriving DecidableEq, Repr

/-- An error of the parser, with what its message names. -/
inductive ParseError where
  | expected (what : String) (found : Tok)
  | expectedInteger (found : Tok)
  | badIntegerType (w : String)
  | typeName (w : String)
  | typeStart (found : Tok)
  | namedCycle
  | unknownNamed (name : String)
deriving DecidableEq, Repr

inductive Fail where
  | error (e : ParseError)
  /-- An index past the token list. -/
  | outOfBounds
  | outOfFuel
deriving DecidableEq, Repr

/-- A parser takes the tokens from the cursor on. -/
abbrev P (α : Type) := StateT (List Tok) (Except Fail) α

def fail {α : Type} (e : ParseError) : P α := fun _ => .error (.error e)

def outOfFuel {α : Type} : P α := fun _ => .error .outOfFuel

def peek : P Tok := fun ts =>
  match ts with
  | [] => .error .outOfBounds
  | t :: _ => .ok (t, ts)

def bump : P Tok := fun ts =>
  match ts with
  | [] => .error .outOfBounds
  | [t] => .ok (t, [t])
  | t :: u :: rest => .ok (t, u :: rest)

/-- `self.pos += 1`. -/
def skip : P Unit := fun ts => .ok ((), ts.tail)

def expectPunct (c : Char) : P Unit := do
  let t ← bump
  if t = .punct c then pure () else fail (.expected c.toString t)

def expectWord (w : String) : P Unit := do
  let t ← bump
  if t = .word w then pure () else fail (.expected w t)

def int : P Int := do
  match ← bump with
  | .int n => pure n
  | other => fail (.expectedInteger other)

/-- `is_int_type`: an `i` and digits. -/
def isIntType (w : String) : Bool :=
  match w.toList with
  | 'i' :: d :: ds => (d :: ds).all fun c => c.isDigit
  | _ => false

/-- `int_bits`: the digits as a `u32`. -/
def intBits (w : String) : Option Nat :=
  let n := Nat.ofDigitChars 10 (w.toList.drop 1) 0
  if n < 2 ^ 32 then some n else none

def floatBits (w : String) : Option Nat :=
  match w with
  | "half" | "bfloat" => some 16
  | "float" => some 32
  | "double" => some 64
  | "x86_fp80" => some 80
  | "fp128" | "ppc_fp128" => some 128
  | _ => none

/-- `n as u64`. -/
def asU64 (n : Int) : Nat := (n % 2 ^ 64).toNat

/-- The word of a type that is one word. -/
def wordType (w : String) : P LType :=
  if w = "void" then pure .void
  else if w = "metadata" then pure .metadata
  else if w = "ptr" then pure .ptr
  else if isIntType w then
    match intBits w with
    | some bits => pure (.int bits)
    | none => fail (.badIntegerType w)
  else
    match floatBits w with
    | some bits => pure (.int bits)
    | none => fail (.typeName w)

/-- The legacy pointer suffixes: any number of them makes a `ptr`. -/
def stars (ty : LType) : P LType
  | [] => .error .outOfBounds
  | .punct '*' :: rest => stars .ptr rest
  | t :: rest => .ok (ty, t :: rest)

mutual

def ltypeRaw : Nat → P LType
  | 0 => outOfFuel
  | fuel + 1 => do
    match ← bump with
    | .word w => stars (← wordType w)
    | .local n => stars (.named n)
    | .punct '[' =>
      let n ← int
      expectWord "x"
      let elem ← ltypeRaw fuel
      expectPunct ']'
      stars (.array elem (asU64 n))
    | .punct '<' =>
      if (← peek) = .punct '{' then
        skip
        -- returned at once, without the suffixes
        return .packedStruct (← structFields fuel)
      let n ← int
      expectWord "x"
      let elem ← ltypeRaw fuel
      expectPunct '>'
      stars (.vector elem (asU64 n))
    | .punct '{' => stars (.struct (← structFields fuel))
    | other => fail (.typeStart other)

/-- `struct_fields`: the opening bracket is consumed already. -/
def structFields : Nat → P (List LType)
  | 0 => outOfFuel
  | fuel + 1 => do
    let fields ← if (← peek) = .punct '}' then pure [] else fieldList fuel
    expectPunct '}'
    return fields

/-- The loop of `struct_fields`. -/
def fieldList : Nat → P (List LType)
  | 0 => outOfFuel
  | fuel + 1 => do
    let field ← ltypeRaw fuel
    if (← peek) = .punct ',' then
      skip
      return field :: (← fieldList fuel)
    return [field]

end

mutual

def resolveNamed (types : String → Option LType) : Nat → LType → Nat → Except Fail LType
  | 0, _, _ => .error .outOfFuel
  | fuel + 1, ty, depth =>
    if 32 < depth then .error (.error .namedCycle)
    else
      match ty with
      | .named n =>
        match types n with
        | some d => resolveNamed types fuel d (depth + 1)
        | none => .error (.error (.unknownNamed n))
      | .array e n => return .array (← resolveNamed types fuel e (depth + 1)) n
      | .vector e n => return .vector (← resolveNamed types fuel e (depth + 1)) n
      | .struct fs => return .struct (← resolveFields types fuel fs (depth + 1))
      | .packedStruct fs => return .packedStruct (← resolveFields types fuel fs (depth + 1))
      | other => return other
termination_by fuel _ _ => (fuel, 0)

def resolveFields (types : String → Option LType) (fuel : Nat) (fs : List LType) (depth : Nat) :
    Except Fail (List LType) :=
  match fs with
  | [] => return []
  | f :: fs => return (← resolveNamed types fuel f depth) :: (← resolveFields types fuel fs depth)
termination_by (fuel, fs.length + 1)

end

/-- `ltype`: one call for each depth up to the limit, and the one that is refused. -/
def ltype (types : String → Option LType) (fuel : Nat) : P LType := do
  let raw ← ltypeRaw fuel
  match resolveNamed types 34 raw 0 with
  | .ok ty => pure ty
  | .error e => fun _ => .error e

/-! ## Printing and parsing types

The types of the grammar, as they are written. A type without packed structs is read back, with any pointer
suffixes that follow it (`ltypeRaw_tokens`). After a packed struct the closing `>` is still there, and
whatever the struct is nested in fails or leaves it in turn (`ltypeRaw_packed`).
-/

/-! ## Types as they are written -/

inductive FloatKind where
  | half | bfloat | float | double | x86Fp80 | fp128 | ppcFp128

def FloatKind.word : FloatKind → String
  | .half => "half"
  | .bfloat => "bfloat"
  | .float => "float"
  | .double => "double"
  | .x86Fp80 => "x86_fp80"
  | .fp128 => "fp128"
  | .ppcFp128 => "ppc_fp128"

def FloatKind.bits : FloatKind → Nat
  | .half | .bfloat => 16
  | .float => 32
  | .double => 64
  | .x86Fp80 => 80
  | .fp128 | .ppcFp128 => 128

inductive TypeText where
  | void
  | metadata
  | ptr
  | int (bits : UInt32)
  | float (kind : FloatKind)
  | array (n : UInt64) (elem : TypeText)
  | vector (n : UInt64) (elem : TypeText)
  | struct (fields : List TypeText)
  | packed (fields : List TypeText)
  | named (name : String)
  /-- A legacy pointer type. -/
  | star (pointee : TypeText)

mutual

def TypeText.tokens : TypeText → List Tok
  | .void => [.word "void"]
  | .metadata => [.word "metadata"]
  | .ptr => [.word "ptr"]
  | .int bits => [.word ("i" ++ bits.toNat.repr)]
  | .float kind => [.word kind.word]
  | .array n e => .punct '[' :: .int n.toNat :: .word "x" :: (e.tokens ++ [.punct ']'])
  | .vector n e => .punct '<' :: .int n.toNat :: .word "x" :: (e.tokens ++ [.punct '>'])
  | .struct fs => .punct '{' :: (fieldTokens fs ++ [.punct '}'])
  | .packed fs => .punct '<' :: .punct '{' :: (fieldTokens fs ++ [.punct '}', .punct '>'])
  | .named n => [.local n]
  | .star t => t.tokens ++ [.punct '*']

def fieldTokens : List TypeText → List Tok
  | [] => []
  | f :: fs => f.tokens ++ laterTokens fs

def laterTokens : List TypeText → List Tok
  | [] => []
  | f :: fs => .punct ',' :: (f.tokens ++ laterTokens fs)

end

mutual

def TypeText.type : TypeText → LType
  | .void => .void
  | .metadata => .metadata
  | .ptr | .star _ => .ptr
  | .int bits => .int bits.toNat
  | .float kind => .int kind.bits
  | .array n e => .array e.type n.toNat
  | .vector n e => .vector e.type n.toNat
  | .struct fs => .struct (fieldTypes fs)
  | .packed fs => .packedStruct (fieldTypes fs)
  | .named n => .named n

def fieldTypes : List TypeText → List LType
  | [] => []
  | f :: fs => f.type :: fieldTypes fs

end

mutual

def TypeText.unpacked : TypeText → Bool
  | .array _ e | .vector _ e | .star e => e.unpacked
  | .struct fs => allUnpacked fs
  | .packed _ => false
  | _ => true

def allUnpacked : List TypeText → Bool
  | [] => true
  | f :: fs => f.unpacked && allUnpacked fs

end

/-! ## Steps of the parser -/

theorem bind_ok {α β : Type} {x : P α} {f : α → P β} {ts ts' : List Tok} {a : α} (h : x ts = .ok (a, ts')) :
    (x >>= f) ts = f a ts' := by
  change (x ts >>= fun r => f r.1 r.2) = f a ts'
  rw [h]
  rfl

theorem bind_error {α β : Type} {x : P α} {f : α → P β} {ts : List Tok} {e : Fail} (h : x ts = .error e) :
    (x >>= f) ts = .error e := by
  change (x ts >>= fun r => f r.1 r.2) = .error e
  rw [h]
  rfl

theorem bind_eq_ok {α β : Type} {x : P α} {f : α → P β} {ts ts'' : List Tok} {b : β}
    (h : (x >>= f) ts = .ok (b, ts'')) : ∃ a ts', x ts = .ok (a, ts') ∧ f a ts' = .ok (b, ts'') := by
  cases hx : x ts with
  | error e =>
    rw [bind_error hx] at h
    cases h
  | ok r => exact ⟨r.1, r.2, rfl, by rwa [bind_ok hx] at h⟩

theorem bump_cons (t u : Tok) (rest : List Tok) : bump (t :: u :: rest) = .ok (t, u :: rest) := rfl

theorem peek_cons (t : Tok) (rest : List Tok) : peek (t :: rest) = .ok (t, t :: rest) := rfl

theorem expectPunct_cons (c : Char) (u : Tok) (rest : List Tok) :
    expectPunct c (.punct c :: u :: rest) = .ok ((), u :: rest) := by
  rw [expectPunct, bind_ok (bump_cons _ _ _), if_pos rfl]
  rfl

theorem expectPunct_ne {c : Char} {t : Tok} (h : t ≠ .punct c) (rest : List Tok) (ts : List Tok) :
    expectPunct c (t :: rest) ≠ .ok ((), ts) := by
  cases rest with
  | nil =>
    rw [expectPunct, bind_ok (show bump [t] = .ok (t, [t]) from rfl), if_neg h]
    exact fun h => nomatch h
  | cons u rest =>
    rw [expectPunct, bind_ok (bump_cons _ _ _), if_neg h]
    exact fun h => nomatch h

theorem expectWord_cons (w : String) (u : Tok) (rest : List Tok) :
    expectWord w (.word w :: u :: rest) = .ok ((), u :: rest) := by
  rw [expectWord, bind_ok (bump_cons _ _ _), if_pos rfl]
  rfl

theorem int_cons (n : Int) (u : Tok) (rest : List Tok) :
    int (.int n :: u :: rest) = .ok (n, u :: rest) := by
  rw [int, bind_ok (bump_cons _ _ _)]
  rfl

theorem stars_of_ne {t : Tok} (h : t ≠ .punct '*') (ty : LType) (rest : List Tok) :
    stars ty (t :: rest) = .ok (ty, t :: rest) := by
  unfold stars
  split
  · rename_i heq
    cases heq
  · rename_i heq
    exact absurd (List.cons.inj heq).1 h
  · rename_i heq
    rw [← heq]

theorem stars_star (ty : LType) (rest : List Tok) : stars ty (.punct '*' :: rest) = stars .ptr rest := rfl

theorem stars_length {ty ty' : LType} {ts ts' : List Tok} (h : stars ty ts = .ok (ty', ts')) :
    ts'.length ≤ ts.length := by
  induction ts generalizing ty with
  | nil => cases h
  | cons t rest ih =>
    by_cases ht : t = .punct '*'
    · rw [ht, stars_star] at h
      exact (ih h).trans (Nat.le_succ _)
    · rw [stars_of_ne ht] at h
      cases h
      exact le_rfl

/-! ## Words -/

theorem isIntType_repr (n : Nat) : isIntType ("i" ++ n.repr) = true := by
  have hlist : ("i" ++ n.repr).toList = 'i' :: Nat.toDigits 10 n := by simp
  have hdigits : ∀ c ∈ Nat.toDigits 10 n, c.isDigit = true := fun c hc =>
    Nat.isDigit_of_mem_toDigits (by decide) (by decide) hc
  rw [isIntType, hlist]
  match hd : Nat.toDigits 10 n with
  | [] => exact absurd hd Nat.toDigits_ne_nil
  | d :: ds =>
    rw [hd] at hdigits
    exact List.all_eq_true.mpr hdigits

theorem intBits_repr (bits : UInt32) : intBits ("i" ++ bits.toNat.repr) = some bits.toNat := by
  have hlist : ("i" ++ bits.toNat.repr).toList.drop 1 = Nat.toDigits 10 bits.toNat := by simp
  simp only [intBits, hlist, Nat.ofDigitChars_toDigits (show 1 < 10 by decide) le_rfl]
  exact if_pos bits.toNat_lt

theorem wordType_int (bits : UInt32) (ts : List Tok) :
    wordType ("i" ++ bits.toNat.repr) ts = .ok (.int bits.toNat, ts) := by
  have hne : ∀ w : String, isIntType w = false → "i" ++ bits.toNat.repr ≠ w := by
    rintro w hw rfl
    rw [isIntType_repr] at hw
    cases hw
  rw [wordType, if_neg (hne "void" rfl), if_neg (hne "metadata" rfl), if_neg (hne "ptr" rfl),
    if_pos (isIntType_repr _), intBits_repr]
  rfl

theorem wordType_float (kind : FloatKind) (ts : List Tok) :
    wordType kind.word ts = .ok (.int kind.bits, ts) := by
  cases kind <;> rfl

theorem asU64_toNat (n : UInt64) : asU64 n.toNat = n.toNat := by
  have hlt := n.toNat_lt
  rw [asU64]
  omega

theorem ltypeRaw_word {w : String} {ty : LType} (hw : ∀ ts, wordType w ts = .ok (ty, ts)) (fuel : Nat)
    (r : Tok) (rest : List Tok) : ltypeRaw (fuel + 1) (.word w :: r :: rest) = stars ty (r :: rest) := by
  rw [ltypeRaw, bind_ok (bump_cons _ _ _)]
  exact bind_ok (hw _)

/-! ## A type without packed structs is read back -/

theorem TypeText.tokens_pos (t : TypeText) : 0 < t.tokens.length := by
  cases t <;> simp [TypeText.tokens]

theorem TypeText.head_tokens (t : TypeText) (follow : List Tok) :
    ∃ u rest, t.tokens ++ follow = u :: rest ∧ u ≠ .punct '}' := by
  match t with
  | .void | .metadata | .ptr | .int _ | .float _ | .named _ => exact ⟨_, _, rfl, by simp⟩
  | .array .. | .vector .. | .struct _ | .packed _ => exact ⟨_, _, rfl, by simp⟩
  | .star t =>
    rw [TypeText.tokens, List.append_assoc]
    exact t.head_tokens _

theorem structFields_of {fs : List TypeText} {fuel : Nat} {r : Tok} {rest : List Tok}
    (hrec : fs ≠ [] → fieldList fuel (fieldTokens fs ++ .punct '}' :: r :: rest) =
      .ok (fieldTypes fs, .punct '}' :: r :: rest)) :
    structFields (fuel + 1) (fieldTokens fs ++ .punct '}' :: r :: rest) = .ok (fieldTypes fs, r :: rest) := by
  rw [structFields]
  match fs with
  | [] =>
    simp only [fieldTokens, List.nil_append]
    rw [bind_ok (peek_cons _ _), if_pos rfl]
    refine (bind_ok (show (pure [] : P (List LType)) (.punct '}' :: r :: rest) = .ok ([], .punct '}' :: r :: rest)
      from rfl)).trans ?_
    refine (bind_ok (expectPunct_cons _ _ _)).trans ?_
    rfl
  | f :: fs =>
    have hrec := hrec (List.cons_ne_nil f fs)
    obtain ⟨u, us, hus, hne⟩ := f.head_tokens (laterTokens fs ++ .punct '}' :: r :: rest)
    simp only [fieldTokens, List.append_assoc] at hrec ⊢
    rw [hus] at hrec ⊢
    rw [bind_ok (peek_cons _ _), if_neg hne]
    refine (bind_ok hrec).trans ?_
    refine (bind_ok (expectPunct_cons _ _ _)).trans ?_
    rfl

mutual

theorem ltypeRaw_tokens (t : TypeText) (h : t.unpacked = true) (fuel : Nat)
    (hfuel : 2 * t.tokens.length ≤ fuel) (r : Tok) (rest : List Tok) : ltypeRaw fuel (t.tokens ++ r :: rest) = stars t.type (r :: rest) := by
  obtain ⟨fuel, rfl⟩ := Nat.exists_eq_add_one_of_ne_zero (show fuel ≠ 0 by have := t.tokens_pos; omega)
  match t with
  | .void => exact ltypeRaw_word (fun _ => rfl) fuel r rest
  | .metadata => exact ltypeRaw_word (fun _ => rfl) fuel r rest
  | .ptr => exact ltypeRaw_word (fun _ => rfl) fuel r rest
  | .int bits => exact ltypeRaw_word (wordType_int bits) fuel r rest
  | .float kind => exact ltypeRaw_word (wordType_float kind) fuel r rest
  | .named n =>
    rw [ltypeRaw, TypeText.tokens, List.singleton_append, bind_ok (bump_cons _ _ _)]
    rfl
  | .packed fs => cases h
  | .star t =>
    have ht : 2 * t.tokens.length ≤ fuel + 1 := by
      rw [TypeText.tokens, List.length_append] at hfuel
      omega
    rw [TypeText.tokens, List.append_assoc, List.singleton_append, ltypeRaw_tokens t h _ ht _ _, stars_star]
    rfl
  | .array n e =>
    have he : 2 * e.tokens.length ≤ fuel := by
      simp only [TypeText.tokens, List.length_cons, List.length_append] at hfuel
      omega
    have hrec := ltypeRaw_tokens e h fuel he (.punct ']') (r :: rest)
    rw [stars_of_ne (by simp)] at hrec
    simp only [TypeText.tokens, List.cons_append, List.append_assoc, List.nil_append]
    rw [ltypeRaw, bind_ok (bump_cons _ _ _)]
    refine (bind_ok (int_cons _ _ _)).trans ?_
    obtain ⟨u, us, hus, -⟩ := e.head_tokens (.punct ']' :: r :: rest)
    rw [hus] at hrec ⊢
    rw [bind_ok (expectWord_cons _ _ _), bind_ok hrec, bind_ok (expectPunct_cons _ _ _), asU64_toNat]
    rfl
  | .vector n e =>
    have he : 2 * e.tokens.length ≤ fuel := by
      simp only [TypeText.tokens, List.length_cons, List.length_append] at hfuel
      omega
    have hrec := ltypeRaw_tokens e h fuel he (.punct '>') (r :: rest)
    rw [stars_of_ne (by simp)] at hrec
    simp only [TypeText.tokens, List.cons_append, List.append_assoc, List.nil_append]
    rw [ltypeRaw, bind_ok (bump_cons _ _ _)]
    refine (bind_ok (peek_cons _ _)).trans ?_
    rw [if_neg (by simp)]
    refine (bind_ok (int_cons _ _ _)).trans ?_
    obtain ⟨u, us, hus, -⟩ := e.head_tokens (.punct '>' :: r :: rest)
    rw [hus] at hrec ⊢
    rw [bind_ok (expectWord_cons _ _ _), bind_ok hrec, bind_ok (expectPunct_cons _ _ _), asU64_toNat]
    rfl
  | .struct fs =>
    have hfs : 2 * (fieldTokens fs).length + 2 ≤ fuel := by
      simp only [TypeText.tokens, List.length_cons, List.length_append, List.length_nil] at hfuel
      omega
    obtain ⟨fuel, rfl⟩ := Nat.exists_eq_add_one_of_ne_zero (show fuel ≠ 0 by omega)
    have hrec := structFields_of fun hne => fieldList_tokens fs hne h fuel (Nat.le_of_succ_le_succ hfs) r rest
    simp only [TypeText.tokens, List.cons_append, List.append_assoc, List.nil_append]
    obtain ⟨u, us, hus⟩ : ∃ u us, fieldTokens fs ++ .punct '}' :: r :: rest = u :: us :=
      List.exists_cons_of_ne_nil (by simp)
    rw [hus] at hrec ⊢
    rw [ltypeRaw, bind_ok (bump_cons _ _ _)]
    exact bind_ok hrec

theorem fieldList_tokens (fs : List TypeText) (hne : fs ≠ []) (h : allUnpacked fs = true) (fuel : Nat)
    (hfuel : 2 * (fieldTokens fs).length + 1 ≤ fuel) (r : Tok) (rest : List Tok) :
    fieldList fuel (fieldTokens fs ++ .punct '}' :: r :: rest) =
      .ok (fieldTypes fs, .punct '}' :: r :: rest) := by
  obtain ⟨fuel, rfl⟩ := Nat.exists_eq_add_one_of_ne_zero (show fuel ≠ 0 by omega)
  match fs with
  | [] => exact absurd rfl hne
  | f :: later =>
    obtain ⟨hf, hlater⟩ := Bool.and_eq_true_iff.mp h
    have hlen : 2 * f.tokens.length ≤ fuel := by
      rw [fieldTokens, List.length_append] at hfuel
      omega
    have hhead := ltypeRaw_tokens f hf fuel hlen
    have htail := fun hne => fieldList_tokens later hne hlater fuel
    rw [fieldTokens, List.append_assoc, fieldList]
    cases later with
    | nil =>
      refine (bind_ok ((hhead (.punct '}') (r :: rest)).trans (stars_of_ne (by simp) _ _))).trans ?_
      refine (bind_ok (peek_cons _ _)).trans ?_
      rw [if_neg (by simp)]
      rfl
    | cons g gs =>
      have hfuel' : 2 * (fieldTokens (g :: gs)).length + 1 ≤ fuel := by
        simp only [fieldTokens, laterTokens, List.length_append, List.length_cons] at hfuel ⊢
        omega
      have hhead := hhead (.punct ',') (fieldTokens (g :: gs) ++ .punct '}' :: r :: rest)
      refine (bind_ok (hhead.trans (stars_of_ne (by simp) _ _))).trans ?_
      refine (bind_ok (peek_cons _ _)).trans ?_
      rw [if_pos rfl]
      refine (bind_ok (a := ()) rfl).trans ?_
      exact bind_ok (htail (List.cons_ne_nil g gs) hfuel' r rest)

end

/-! ## A packed struct leaves its `>` -/

/-- What is left over: a `>`, and after it only closing angles and stars. -/
def LeftOver (follow ts : List Tok) : Prop :=
  ∃ mid, (∀ m ∈ mid, m = .punct '>' ∨ m = .punct '*') ∧ ts = .punct '>' :: (mid ++ follow)

theorem LeftOver.length {follow ts : List Tok} (h : LeftOver follow ts) : follow.length < ts.length := by
  obtain ⟨mid, -, rfl⟩ := h
  simp only [List.length_cons, List.length_append]
  omega

theorem LeftOver.append_star {follow ts : List Tok} (h : LeftOver (.punct '*' :: follow) ts) :
    LeftOver follow ts := by
  obtain ⟨mid, hmid, rfl⟩ := h
  refine ⟨mid ++ [.punct '*'], fun m hm => ?_, by simp⟩
  rcases List.mem_append.mp hm with hm | hm
  · exact hmid m hm
  · exact .inr (List.mem_singleton.mp hm)

theorem stars_leftOver {mid follow ts : List Tok} (hmid : ∀ m ∈ mid, m = .punct '>' ∨ m = .punct '*')
    {ty ty' : LType} (h : stars ty (mid ++ .punct '>' :: follow) = .ok (ty', ts)) : LeftOver follow ts := by
  induction mid generalizing ty with
  | nil =>
    rw [List.nil_append, stars_of_ne (by simp)] at h
    cases h
    exact ⟨[], (fun m hm => nomatch hm), rfl⟩
  | cons m mid ih =>
    have hrest : ∀ m ∈ mid, m = .punct '>' ∨ m = .punct '*' := fun m hm => hmid m (List.mem_cons_of_mem _ hm)
    rcases hmid m List.mem_cons_self with rfl | rfl
    · rw [List.cons_append, stars_of_ne (by simp)] at h
      cases h
      refine ⟨mid ++ [.punct '>'], fun m hm => ?_, by simp⟩
      rcases List.mem_append.mp hm with hm | hm
      · exact hrest m hm
      · exact .inl (List.mem_singleton.mp hm)
    · exact ih hrest h

theorem ltypeRaw_array_ok {fuel : Nat} {n : Int} {u : Tok} {us ts : List Tok} {ty : LType}
    (h : ltypeRaw (fuel + 1) (.punct '[' :: .int n :: .word "x" :: u :: us) = .ok (ty, ts)) :
    ∃ e ts₁ ts₂, ltypeRaw fuel (u :: us) = .ok (e, ts₁) ∧ expectPunct ']' ts₁ = .ok ((), ts₂) := by
  rw [ltypeRaw, bind_ok (bump_cons _ _ _)] at h
  replace h := (bind_ok (int_cons _ _ _)).symm.trans h
  replace h := (bind_ok (expectWord_cons _ _ _)).symm.trans h
  obtain ⟨e, ts₁, he, h⟩ := bind_eq_ok h
  obtain ⟨_, ts₂, hclose, -⟩ := bind_eq_ok h
  exact ⟨e, ts₁, ts₂, he, hclose⟩

theorem ltypeRaw_vector_ok {fuel : Nat} {n : Int} {u : Tok} {us ts : List Tok} {ty : LType}
    (h : ltypeRaw (fuel + 1) (.punct '<' :: .int n :: .word "x" :: u :: us) = .ok (ty, ts)) :
    ∃ e ts₁ ts₂, ltypeRaw fuel (u :: us) = .ok (e, ts₁) ∧ expectPunct '>' ts₁ = .ok ((), ts₂) ∧
      stars (.vector e (asU64 n)) ts₂ = .ok (ty, ts) := by
  rw [ltypeRaw, bind_ok (bump_cons _ _ _)] at h
  replace h := (bind_ok (peek_cons _ _)).symm.trans h
  rw [if_neg (by simp)] at h
  replace h := (bind_ok (int_cons _ _ _)).symm.trans h
  replace h := (bind_ok (expectWord_cons _ _ _)).symm.trans h
  obtain ⟨e, ts₁, he, h⟩ := bind_eq_ok h
  obtain ⟨_, ts₂, hclose, h⟩ := bind_eq_ok h
  exact ⟨e, ts₁, ts₂, he, hclose, h⟩

theorem structFields_refused {fs : List TypeText} (hne : fs ≠ []) {fuel : Nat} {follow ts : List Tok}
    {tys : List LType} (hfields : ∀ {tys ts}, fieldList fuel (fieldTokens fs ++ follow) = .ok (tys, ts) →
      ∃ s, ts = .punct '>' :: s) :
    structFields (fuel + 1) (fieldTokens fs ++ follow) ≠ .ok (tys, ts) := by
  intro h
  match fs with
  | [] => exact hne rfl
  | f :: fs =>
    obtain ⟨u, us, hus, hbrace⟩ := f.head_tokens (laterTokens fs ++ follow)
    simp only [fieldTokens, List.append_assoc] at hfields h
    rw [hus] at hfields h
    rw [structFields, bind_ok (peek_cons _ _), if_neg hbrace] at h
    obtain ⟨fields, ts₁, hlist, h⟩ := bind_eq_ok h
    obtain ⟨s, rfl⟩ := hfields hlist
    obtain ⟨_, ts₂, hclose, -⟩ := bind_eq_ok h
    exact expectPunct_ne (by simp) _ _ hclose

theorem ne_nil_of_packed {fs : List TypeText} (h : allUnpacked fs = false) : fs ≠ [] := by
  rintro rfl
  cases h

mutual

theorem ltypeRaw_packed (t : TypeText) (h : t.unpacked = false) (fuel : Nat) (hfuel : 2 * t.tokens.length ≤ fuel)
    (r : Tok) (rest : List Tok) {ty : LType} {ts : List Tok}
    (hok : ltypeRaw fuel (t.tokens ++ r :: rest) = .ok (ty, ts)) : LeftOver (r :: rest) ts := by
  obtain ⟨fuel, rfl⟩ := Nat.exists_eq_add_one_of_ne_zero (show fuel ≠ 0 by have := t.tokens_pos; omega)
  match t with
  | .void | .metadata | .ptr | .int _ | .float _ | .named _ => cases h
  | .star t =>
    have ht : 2 * t.tokens.length ≤ fuel + 1 := by
      rw [TypeText.tokens, List.length_append] at hfuel
      omega
    rw [TypeText.tokens, List.append_assoc, List.singleton_append] at hok
    exact (ltypeRaw_packed t h _ ht _ _ hok).append_star
  | .array n e =>
    have he : 2 * e.tokens.length ≤ fuel := by
      simp only [TypeText.tokens, List.length_cons, List.length_append] at hfuel
      omega
    have hrec := @ltypeRaw_packed e h fuel he (.punct ']') (r :: rest)
    simp only [TypeText.tokens, List.cons_append, List.append_assoc, List.nil_append] at hok
    obtain ⟨u, us, hus, -⟩ := e.head_tokens (.punct ']' :: r :: rest)
    rw [hus] at hrec hok
    obtain ⟨x, ts₁, ts₂, helem, hclose⟩ := ltypeRaw_array_ok hok
    obtain ⟨mid, -, rfl⟩ := hrec helem
    exact absurd hclose (expectPunct_ne (by simp) _ _)
  | .vector n e =>
    have he : 2 * e.tokens.length ≤ fuel := by
      simp only [TypeText.tokens, List.length_cons, List.length_append] at hfuel
      omega
    have hrec := @ltypeRaw_packed e h fuel he (.punct '>') (r :: rest)
    simp only [TypeText.tokens, List.cons_append, List.append_assoc, List.nil_append] at hok
    obtain ⟨u, us, hus, -⟩ := e.head_tokens (.punct '>' :: r :: rest)
    rw [hus] at hrec hok
    obtain ⟨x, ts₁, ts₂, helem, hclose, hstars⟩ := ltypeRaw_vector_ok hok
    obtain ⟨mid, hmid, rfl⟩ := hrec helem
    -- the `>` of the element is taken for that of the vector
    obtain ⟨w, ws, hws⟩ : ∃ w ws, mid ++ .punct '>' :: r :: rest = w :: ws :=
      List.exists_cons_of_ne_nil (by simp)
    rw [hws, expectPunct_cons, ← hws] at hclose
    cases hclose
    exact stars_leftOver hmid hstars
  | .struct fs =>
    have hfs : 2 * (fieldTokens fs).length + 2 ≤ fuel := by
      simp only [TypeText.tokens, List.length_cons, List.length_append, List.length_nil] at hfuel
      omega
    obtain ⟨fuel, rfl⟩ := Nat.exists_eq_add_one_of_ne_zero (show fuel ≠ 0 by omega)
    simp only [TypeText.tokens, List.cons_append, List.append_assoc, List.nil_append] at hok
    have hrefused := fun tys ts => @structFields_refused fs (ne_nil_of_packed h) fuel (.punct '}' :: r :: rest)
      ts tys (fieldList_packed fs h fuel (Nat.le_of_succ_le_succ hfs) r rest)
    obtain ⟨u, us, hus⟩ : ∃ u us, fieldTokens fs ++ .punct '}' :: r :: rest = u :: us :=
      List.exists_cons_of_ne_nil (by simp)
    rw [hus] at hok hrefused
    rw [ltypeRaw, bind_ok (bump_cons _ _ _)] at hok
    obtain ⟨tys, ts₁, hfields, -⟩ := bind_eq_ok hok
    exact absurd hfields (hrefused _ _)
  | .packed fs =>
    have hfs : 2 * (fieldTokens fs).length + 2 ≤ fuel := by
      simp only [TypeText.tokens, List.length_cons, List.length_append, List.length_nil] at hfuel
      omega
    obtain ⟨fuel, rfl⟩ := Nat.exists_eq_add_one_of_ne_zero (show fuel ≠ 0 by omega)
    simp only [TypeText.tokens, List.cons_append, List.append_assoc, List.nil_append] at hok
    rw [ltypeRaw, bind_ok (bump_cons _ _ _)] at hok
    replace hok := (bind_ok (peek_cons _ _)).symm.trans hok
    rw [if_pos rfl] at hok
    replace hok := (bind_ok (a := ()) rfl).symm.trans hok
    obtain ⟨tys, ts₁, hfields, hret⟩ := bind_eq_ok hok
    cases hret
    cases hall : allUnpacked fs with
    | false =>
      exact absurd hfields (structFields_refused (ne_nil_of_packed hall)
        (fieldList_packed fs hall fuel (Nat.le_of_succ_le_succ hfs) (.punct '>') (r :: rest)))
    | true =>
      have hgood := structFields_of fun hne =>
        fieldList_tokens fs hne hall fuel (Nat.le_of_succ_le_succ hfs) (.punct '>') (r :: rest)
      cases hgood.symm.trans hfields
      exact ⟨[], (fun m hm => nomatch hm), rfl⟩

theorem fieldList_packed (fs : List TypeText) (h : allUnpacked fs = false) (fuel : Nat)
    (hfuel : 2 * (fieldTokens fs).length + 1 ≤ fuel) (r : Tok) (rest : List Tok) {tys : List LType}
    {ts : List Tok} (hok : fieldList fuel (fieldTokens fs ++ .punct '}' :: r :: rest) = .ok (tys, ts)) :
    ∃ s, ts = .punct '>' :: s := by
  obtain ⟨fuel, rfl⟩ := Nat.exists_eq_add_one_of_ne_zero (show fuel ≠ 0 by omega)
  match fs with
  | [] => cases h
  | f :: later =>
    have hlen : 2 * f.tokens.length ≤ fuel := by
      rw [fieldTokens, List.length_append] at hfuel
      omega
    have hhead := @ltypeRaw_packed f
    have htail := @fieldList_packed later
    rw [fieldTokens, List.append_assoc, fieldList] at hok
    cases hf : f.unpacked with
    | false =>
      obtain ⟨u, us, hus⟩ : ∃ u us, laterTokens later ++ .punct '}' :: r :: rest = u :: us :=
        List.exists_cons_of_ne_nil (by simp)
      rw [hus] at hok
      obtain ⟨x, ts₁, hty, hok⟩ := bind_eq_ok hok
      obtain ⟨mid, -, rfl⟩ := hhead hf fuel hlen u us hty
      replace hok := (bind_ok (peek_cons _ _)).symm.trans hok
      rw [if_neg (by simp)] at hok
      cases hok
      exact ⟨_, rfl⟩
    | true =>
      have hlater : allUnpacked later = false := by
        rw [allUnpacked, hf, Bool.true_and] at h
        exact h
      cases later with
      | nil => cases hlater
      | cons g gs =>
        have hfuel' : 2 * (fieldTokens (g :: gs)).length + 1 ≤ fuel := by
          simp only [fieldTokens, laterTokens, List.length_append, List.length_cons] at hfuel ⊢
          omega
        have hgood := ltypeRaw_tokens f hf fuel hlen (.punct ',') (fieldTokens (g :: gs) ++ .punct '}' :: r :: rest)
        replace hok := (bind_ok (hgood.trans (stars_of_ne (by simp) _ _))).symm.trans hok
        replace hok := (bind_ok (peek_cons _ _)).symm.trans hok
        rw [if_pos rfl] at hok
        replace hok := (bind_ok (a := ()) rfl).symm.trans hok
        obtain ⟨more, ts₁, hmore, hok⟩ := bind_eq_ok hok
        cases hok
        exact htail hlater fuel hfuel' r rest hmore

end

/-! ## Named types -/

theorem map_returns {α β : Type} {x : Except Fail α} {f : α → Except Fail β} (h : x ≠ .error .outOfFuel)
    (hf : ∀ a, f a ≠ .error .outOfFuel) : (x >>= f) ≠ .error .outOfFuel := by
  cases x with
  | error e =>
    intro he
    cases he
    exact h rfl
  | ok a => exact hf a

mutual

theorem resolveNamed_returns (types : String → Option LType) (fuel : Nat) (ty : LType) (depth : Nat)
    (hdepth : depth ≤ 33) (hfuel : 34 ≤ fuel + depth) : resolveNamed types fuel ty depth ≠ .error .outOfFuel := by
  match fuel with
  | 0 => omega
  | fuel + 1 =>
    rcases Nat.lt_or_ge 32 depth with hdeep | hle
    · unfold resolveNamed
      rw [if_pos hdeep]
      exact fun h => nomatch h
    · have hrec := fun t => resolveNamed_returns types fuel t (depth + 1) (by omega) (by omega)
      have hrecs := fun ts => resolveFields_returns types fuel ts (depth + 1) (by omega) (by omega)
      unfold resolveNamed
      rw [if_neg (Nat.not_lt.mpr hle)]
      match ty with
      | .named n =>
        cases hn : types n with
        | none =>
          simp only [hn]
          exact fun h => nomatch h
        | some d =>
          simp only [hn]
          exact hrec d
      | .array e n => exact map_returns (hrec e) fun _ h => nomatch h
      | .vector e n => exact map_returns (hrec e) fun _ h => nomatch h
      | .struct fs => exact map_returns (hrecs fs) fun _ h => nomatch h
      | .packedStruct fs => exact map_returns (hrecs fs) fun _ h => nomatch h
      | .void | .int _ | .ptr | .metadata => exact fun h => nomatch h
termination_by (fuel, 0)

theorem resolveFields_returns (types : String → Option LType) (fuel : Nat) (fs : List LType) (depth : Nat)
    (hdepth : depth ≤ 33) (hfuel : 34 ≤ fuel + depth) : resolveFields types fuel fs depth ≠ .error .outOfFuel := by
  match fs with
  | [] =>
    rw [resolveFields]
    exact fun h => nomatch h
  | f :: fs =>
    have hf := resolveNamed_returns types fuel f depth hdepth hfuel
    have hfs := resolveFields_returns types fuel fs depth hdepth hfuel
    rw [resolveFields]
    exact map_returns hf fun _ => map_returns hfs fun _ h => nomatch h
termination_by (fuel, fs.length + 1)

end

/-! ## The round trip -/

/-- A type that is written, and any tokens after it, are read as that type with the cursor on the first of these,
exactly when the type has no packed struct and the first token after it is not a further pointer suffix.
Named references are resolved, or refused, after 34 nested calls. -/
theorem ltypeRaw_exact_iff (t : TypeText) (r : Tok) (rest : List Tok) (more : Nat) :
    (ltypeRaw (2 * t.tokens.length + more) (t.tokens ++ r :: rest) = .ok (t.type, r :: rest) ↔
      t.unpacked = true ∧ r ≠ .punct '*') ∧
      ∀ types ty, resolveNamed types 34 ty 0 ≠ .error .outOfFuel := by
  refine ⟨⟨fun h => ?_, fun ⟨hu, hr⟩ => ?_⟩, fun types ty => ?_⟩
  · cases hu : t.unpacked with
    | false =>
      have hleft := ltypeRaw_packed t hu _ (Nat.le_add_right _ more) r rest h
      exact absurd hleft.length (Nat.lt_irrefl _)
    | true =>
      refine ⟨rfl, ?_⟩
      rintro rfl
      rw [ltypeRaw_tokens t hu _ (Nat.le_add_right _ more), stars_star] at h
      exact absurd (stars_length h) (Nat.not_le.mpr (Nat.lt_succ_self rest.length))
  · rw [ltypeRaw_tokens t hu _ (Nat.le_add_right _ more), stars_of_ne hr]
  · exact resolveNamed_returns types 34 ty 0 (Nat.zero_le _) le_rfl

/-- `<{ i8 }>` before a comma: the cursor stays on the `>`. -/
theorem ltypeRaw_packed_angle : ¬ ∀ (t : TypeText) (rest : List Tok),
    ltypeRaw (2 * t.tokens.length) (t.tokens ++ .punct ',' :: rest) = .ok (t.type, .punct ',' :: rest) := by
  intro h
  have hbad := h (.packed [.int 8]) [.word "ptr", .eof]
  have hleft := ltypeRaw_packed (.packed [.int 8]) rfl _ le_rfl _ _ hbad
  exact absurd hleft.length (Nat.lt_irrefl _)

end Csolver.Llvm.TypeParser
