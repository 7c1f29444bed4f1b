import Mathlib.Data.List.Basic

/-!
# Readers with a cursor

A reader takes an input and a place in it and leaves a value and a later place, or fails. `Local` says that a reader
stays inside the input, moves on and depends on nothing but what it has passed; it follows the text of a reader.
-/

namespace Csolver.Lib

/-- A reader of an input of `β`. -/
def Cursor (β ε α : Type) : Type := List β → Nat → Except ε (α × Nat)

namespace Cursor

variable {β ε α γ : Type}

def run (d : Cursor β ε α) (code : List β) (p : Nat) : Except ε (α × Nat) := d code p

def pure (a : α) : Cursor β ε α := fun _ p => .ok (a, p)

def bind (d : Cursor β ε α) (f : α → Cursor β ε γ) : Cursor β ε γ := fun code p =>
  match d.run code p with
  | .error e => .error e
  | .ok (a, q) => (f a).run code q

instance : Monad (Cursor β ε) where
  pure := Cursor.pure
  bind := Cursor.bind

theorem bind_apply (d : Cursor β ε α) (f : α → Cursor β ε γ) (code : List β) (p : Nat) :
    (d >>= f).run code p = match d.run code p with
      | .error e => .error e
      | .ok (a, q) => (f a).run code q := rfl

def fail (e : ε) : Cursor β ε α := fun _ _ => .error e

/-- The element at the cursor, which moves past it. The error may name the place. -/
def next (e : Nat → ε) : Cursor β ε β := fun code p =>
  match code[p]? with
  | some b => .ok (b, p + 1)
  | none => .error (e p)

/-- The element `k` before the cursor. A place before the input is a fault. -/
def back (k : Nat) (fault : ε) (e : Nat → ε) : Cursor β ε β := fun code p =>
  if p < k then .error fault
  else match code[p - k]? with
    | some b => .ok (b, p)
    | none => .error (e (p - k))

/-- The next `n` elements. -/
def take (n : Nat) (e : Nat → ε) : Cursor β ε (List β) := fun code p =>
  if p + n ≤ code.length then .ok ((code.drop p).take n, p + n) else .error (e p)

/-- A value that may be missing. The error may name the place. -/
def ofOption (e : Nat → ε) (o : Option α) : Cursor β ε α := fun _ p =>
  match o with
  | some a => .ok (a, p)
  | none => .error (e p)

/-- Two inputs agree from `s` up to `t`. -/
def Agree (code code' : List β) (s t : Nat) : Prop := ∀ i, s ≤ i → i < t → code'[i]? = code[i]?

theorem Agree.mono {code code' : List β} {s t t' : Nat} (h : Agree code code' s t) (ht : t' ≤ t) :
    Agree code code' s t' :=
  fun i hs hi => h i hs (Nat.lt_of_lt_of_le hi ht)

/-- A reader that starts `behind` places into what may be looked at does not fail with a fault, moves by `adv` at
    least, stays inside and does the same on every input with the same elements so far. -/
def Local (fault : ε) (behind : Nat) (d : Cursor β ε α) (adv : Nat) : Prop :=
  ∀ (code : List β) (start p : Nat), start + behind ≤ p → p ≤ code.length →
    d.run code p ≠ .error fault ∧ ∀ a q, d.run code p = .ok (a, q) → p + adv ≤ q ∧ q ≤ code.length ∧
      ∀ code', Agree code code' start q → d.run code' p = .ok (a, q)

section

variable {fault : ε} {behind adv adv' : Nat}

theorem Local.mono {d : Cursor β ε α} (h : Local fault behind d adv) (hadv : adv' ≤ adv) :
    Local fault behind d adv' := by
  intro code start p hp hlen
  obtain ⟨hsafe, hok⟩ := h code start p hp hlen
  refine ⟨hsafe, fun a q hd => ?_⟩
  obtain ⟨hmove, hrest⟩ := hok a q hd
  exact ⟨by omega, hrest⟩

theorem Local.pure (a : α) : Local fault behind (Pure.pure a : Cursor β ε α) 0 := by
  intro code start p _ hlen
  refine ⟨nofun, fun b q hd => ?_⟩
  obtain ⟨rfl, rfl⟩ : a = b ∧ p = q := by simpa [Pure.pure, Cursor.run, Cursor.pure] using hd
  exact ⟨Nat.le_refl _, hlen, fun _ _ => rfl⟩

theorem Local.fail {e : ε} (h : e ≠ fault) : Local fault behind (Cursor.fail e : Cursor β ε α) adv := by
  intro code start p _ _
  exact ⟨fun hd => h (Except.error.inj hd), fun a q hd => nomatch hd⟩

theorem Local.bind {d : Cursor β ε α} {f : α → Cursor β ε γ} (hd : Local fault behind d adv)
    (hf : ∀ a, Local fault (behind + adv) (f a) adv') : Local fault behind (d >>= f) (adv + adv') := by
  intro code start p hp hlen
  obtain ⟨hsafe, hok⟩ := hd code start p hp hlen
  rw [bind_apply]
  cases hres : d.run code p with
  | error e => exact ⟨fun h => hsafe (by rw [hres, Except.error.inj h]), nofun⟩
  | ok r =>
    obtain ⟨a, q⟩ := r
    obtain ⟨hmove, hq, hsame⟩ := hok a q hres
    obtain ⟨hsafe', hok'⟩ := hf a code start q (by omega) hq
    refine ⟨hsafe', fun b r hb => ?_⟩
    obtain ⟨hmove', hr, hsame'⟩ := hok' b r hb
    refine ⟨by omega, hr, fun code' hagree => ?_⟩
    rw [bind_apply, hsame code' (hagree.mono (by omega))]
    exact hsame' code' hagree

theorem Local.seq {d : Cursor β ε α} {f : α → Cursor β ε γ} {n : Nat} (hd : Local fault behind d adv)
    (hf : ∀ a, Local fault (behind + adv) (f a) adv') (hn : n ≤ adv + adv') : Local fault behind (d >>= f) n :=
  (hd.bind hf).mono hn

theorem Local.lead {d : Cursor β ε α} {f : α → Cursor β ε γ} (hd : Local fault behind d adv)
    (hf : ∀ a, Local fault (behind + adv) (f a) 0) : Local fault behind (d >>= f) adv :=
  hd.seq hf (Nat.le_refl _)

theorem Local.keep {d : Cursor β ε α} {f : α → Cursor β ε γ} (hd : Local fault behind d 0)
    (hf : ∀ a, Local fault behind (f a) adv) : Local fault behind (d >>= f) adv :=
  hd.seq hf (by omega)

theorem Local.next {e : Nat → ε} (h : ∀ p, e p ≠ fault) : Local fault behind (Cursor.next e : Cursor β ε β) 1 := by
  intro code start p hp hlen
  unfold run Cursor.next
  cases hget : code[p]? with
  | none => exact ⟨fun hd => h p (Except.error.inj hd), nofun⟩
  | some b =>
    refine ⟨nofun, fun c q hd => ?_⟩
    obtain ⟨rfl, rfl⟩ : b = c ∧ p + 1 = q := by simpa using hd
    refine ⟨Nat.le_refl _, (List.getElem?_eq_some_iff.mp hget).1, fun code' hagree => ?_⟩
    rw [hagree p (by omega) (Nat.lt_succ_self p), hget]

theorem Local.back {e : Nat → ε} {k : Nat} (h : ∀ p, e p ≠ fault) (hk : 0 < k) (hle : k ≤ behind) :
    Local fault behind (Cursor.back k fault e : Cursor β ε β) 0 := by
  intro code start p hp hlen
  unfold run Cursor.back
  rw [if_neg (by omega)]
  cases hget : code[p - k]? with
  | none => exact ⟨fun hd => h (p - k) (Except.error.inj hd), nofun⟩
  | some b =>
    refine ⟨nofun, fun c q hd => ?_⟩
    obtain ⟨rfl, rfl⟩ : b = c ∧ p = q := by simpa using hd
    refine ⟨Nat.le_refl _, hlen, fun code' hagree => ?_⟩
    rw [if_neg (by omega), hagree (p - k) (by omega) (by omega), hget]

theorem Local.take {e : Nat → ε} {n : Nat} (h : ∀ p, e p ≠ fault) (hpos : 0 < n) :
    Local fault behind (Cursor.take n e : Cursor β ε (List β)) n := by
  intro code start p hp hlen
  unfold run Cursor.take
  by_cases hn : p + n ≤ code.length
  · rw [if_pos hn]
    refine ⟨nofun, fun c q hd => ?_⟩
    obtain ⟨rfl, rfl⟩ : (code.drop p).take n = c ∧ p + n = q := by simpa using hd
    refine ⟨Nat.le_refl _, hn, fun code' hagree => ?_⟩
    have hlen' : p + n ≤ code'.length := by
      by_contra hshort
      have hlast := hagree (p + n - 1) (by omega) (by omega)
      rw [List.getElem?_eq_none (by omega), List.getElem?_eq_getElem (by omega)] at hlast
      exact absurd hlast (by simp)
    rw [if_pos hlen']
    congr 2
    apply List.ext_getElem?
    intro i
    rw [List.getElem?_take, List.getElem?_take, List.getElem?_drop, List.getElem?_drop]
    split
    · exact hagree (p + i) (by omega) (by omega)
    · rfl
  · rw [if_neg hn]
    exact ⟨fun hd => h p (Except.error.inj hd), nofun⟩

theorem Local.ofOption {e : Nat → ε} (h : ∀ p, e p ≠ fault) (o : Option α) :
    Local fault behind (Cursor.ofOption e o : Cursor β ε α) 0 := by
  cases o with
  | some a => exact Local.pure a
  | none => exact fun _ _ p _ _ => ⟨fun hd => h p (Except.error.inj hd), nofun⟩

theorem Local.ite {c : Prop} [Decidable c] {d d' : Cursor β ε α} (h : c → Local fault behind d adv)
    (h' : ¬c → Local fault behind d' adv) : Local fault behind (if c then d else d') adv := by
  split
  · exact h ‹_›
  · exact h' ‹_›

end

end Cursor

end Csolver.Lib
