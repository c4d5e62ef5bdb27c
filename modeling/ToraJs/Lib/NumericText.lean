import Mathlib.Data.List.TakeWhile
import ToraJs.Lib.Ieee754

/-!
# Numbers written out

A number is written as digits in some radix, or as decimal digits with a point and an exponent.
What is written denotes an integer, or a mantissa and a power of ten, and rounds to the nearest
binary64 number.

The decimal forms are a grammar, `Number`, and a reader from the left accepts exactly it.
-/

namespace NumericText

open Ieee754

/-! ### Digits -/

/-- The value of a digit, letters of either case standing behind `9`. -/
def digitOf (c : ℕ) : Option ℕ :=
  if 0x30 ≤ c ∧ c ≤ 0x39 then some (c - 0x30)
  else if 0x41 ≤ c ∧ c ≤ 0x5A then some (c - 0x41 + 10)
  else if 0x61 ≤ c ∧ c ≤ 0x7A then some (c - 0x61 + 10)
  else none

/-- The value of a digit of a radix. -/
def digitIn (radix c : ℕ) : Option ℕ := (digitOf c).filter (· < radix)

/-- Some digits of a radix, one at least. -/
def IsDigits (radix : ℕ) (ds : List ℕ) : Prop := ds ≠ [] ∧ ∀ c ∈ ds, (digitIn radix c).isSome = true

/-- One digit more. -/
def putDigit (radix v c : ℕ) : ℕ := v * radix + (digitIn radix c).getD 0

/-- The number some digits denote. -/
def digitsValue (radix : ℕ) (ds : List ℕ) : ℕ := ds.foldl (putDigit radix) 0

/-- A decimal digit. -/
def isDigit (c : ℕ) : Bool := (digitIn 10 c).isSome

lemma isDigit_iff {c : ℕ} : isDigit c = true ↔ 0x30 ≤ c ∧ c ≤ 0x39 := by
  rw [isDigit, digitIn, digitOf]
  split_ifs with h1 h2 h3
  · have hlt : c - 0x30 < 10 := by omega
    simp [Option.filter, hlt, h1]
  · have hge : ¬ c - 0x41 + 10 < 10 := by omega
    simp [Option.filter, hge, h1]
  · have hge : ¬ c - 0x61 + 10 < 10 := by omega
    simp [Option.filter, hge, h1]
  · simp [Option.filter, h1]

/-- A digit of any radix is a letter or a figure. -/
lemma digitIn_ascii {radix c : ℕ} (h : (digitIn radix c).isSome = true) : 0x30 ≤ c ∧ c ≤ 0x7A := by
  rw [digitIn, digitOf] at h
  split_ifs at h with h1 h2 h3
  · omega
  · omega
  · omega
  · cases h

/-- A run of digits in front of something else is taken. -/
lemma takeWhile_digits {ds rest : List ℕ} (hds : ∀ c ∈ ds, isDigit c = true)
    (hrest : ∀ c ∈ rest.head?, isDigit c = false) :
    (ds ++ rest).takeWhile isDigit = ds ∧ (ds ++ rest).dropWhile isDigit = rest := by
  have htake : rest.takeWhile isDigit = [] := by
    cases rest with
    | nil => rfl
    | cons c rest => rw [List.takeWhile_cons, hrest c rfl]; rfl
  have hdrop : rest.dropWhile isDigit = rest := by
    cases rest with
    | nil => rfl
    | cons c rest => rw [List.dropWhile_cons, hrest c rfl]; rfl
  rw [List.takeWhile_append_of_pos hds, List.dropWhile_append_of_pos hds, htake, hdrop,
    List.append_nil]
  exact ⟨rfl, rfl⟩

lemma head_dropWhile {s : List ℕ} {c : ℕ} (h : c ∈ (s.dropWhile isDigit).head?) :
    isDigit c = false := by
  have hnot := List.head?_dropWhile_not isDigit s
  rw [show (s.dropWhile isDigit).head? = some c from h] at hnot
  simpa using hnot

/-! ### Decimal numbers -/

/-- The mark of an exponent. -/
def IsMark (c : ℕ) : Prop := c = 0x65 ∨ c = 0x45

instance (c : ℕ) : Decidable (IsMark c) := inferInstanceAs (Decidable (_ ∨ _))

/-- An exponent that may be there. -/
inductive Exponent : List ℕ → ℤ → Prop
  | absent : Exponent [] 0
  | bare {c : ℕ} {ds : List ℕ} : IsMark c → IsDigits 10 ds → Exponent (c :: ds) (digitsValue 10 ds)
  | plus {c : ℕ} {ds : List ℕ} : IsMark c → IsDigits 10 ds →
      Exponent (c :: 0x2B :: ds) (digitsValue 10 ds)
  | minus {c : ℕ} {ds : List ℕ} : IsMark c → IsDigits 10 ds →
      Exponent (c :: 0x2D :: ds) (-(digitsValue 10 ds : ℤ))

/-- A decimal number without a sign, its mantissa and its power of ten: digits, or digits with a
point among them, in front or behind. -/
inductive Number : List ℕ → ℕ → ℤ → Prop
  | integer {i x : List ℕ} {e : ℤ} : IsDigits 10 i → Exponent x e →
      Number (i ++ x) (digitsValue 10 i) e
  | point {i f x : List ℕ} {e : ℤ} : IsDigits 10 (i ++ f) → Exponent x e →
      Number (i ++ 0x2E :: (f ++ x)) (digitsValue 10 (i ++ f)) (e - f.length)

/-- The number nearest to a mantissa times a power of ten, with a sign. -/
def decimal (s : Bool) (m : ℕ) (e : ℤ) : F64 :=
  F64.ofRatio s (m * 10 ^ e.toNat * one) (10 ^ (-e).toNat)

/-! ### Reading them -/

/-- A sign that may be in front, and what follows. -/
def readSign : List ℕ → Bool × List ℕ
  | [] => (false, [])
  | c :: r => if c = 0x2B then (false, r) else if c = 0x2D then (true, r) else (false, c :: r)

/-- The exponent that is all that is left. -/
def readExponent : List ℕ → Option ℤ
  | [] => some 0
  | c :: r =>
    if IsMark c then
      let t := readSign r
      if t.2 ≠ [] ∧ t.2.all isDigit = true then
        some (if t.1 then -(digitsValue 10 t.2 : ℤ) else digitsValue 10 t.2)
      else none
    else none

/-- The digits behind a point, and what follows. -/
def readFraction : List ℕ → List ℕ × List ℕ
  | [] => ([], [])
  | c :: r => if c = 0x2E then (r.takeWhile isDigit, r.dropWhile isDigit) else ([], c :: r)

/-- A decimal number without a sign: the mantissa and the power of ten. -/
def readNumber (s : List ℕ) : Option (ℕ × ℤ) :=
  let i := s.takeWhile isDigit
  let t := readFraction (s.dropWhile isDigit)
  if i ++ t.1 = [] then none
  else (readExponent t.2).map fun e => (digitsValue 10 (i ++ t.1), e - t.1.length)

lemma isDigits_iff {ds : List ℕ} : IsDigits 10 ds ↔ ds ≠ [] ∧ ds.all isDigit = true := by
  rw [IsDigits, List.all_eq_true]
  exact Iff.rfl

lemma readSign_cases (s : List ℕ) : (∃ r, s = 0x2B :: r ∧ readSign s = (false, r)) ∨
    (∃ r, s = 0x2D :: r ∧ readSign s = (true, r)) ∨ readSign s = (false, s) := by
  cases s with
  | nil => exact Or.inr (Or.inr rfl)
  | cons c r =>
    rw [readSign]
    split_ifs with hplus hminus
    · exact Or.inl ⟨r, by rw [hplus], rfl⟩
    · exact Or.inr (Or.inl ⟨r, by rw [hminus], rfl⟩)
    · exact Or.inr (Or.inr rfl)

/-- A sign is no digit. -/
lemma readSign_digits {ds : List ℕ} (h : IsDigits 10 ds) : readSign ds = (false, ds) := by
  obtain ⟨c, r, rfl⟩ := List.exists_cons_of_ne_nil h.1
  have hc := isDigit_iff.mp (h.2 c List.mem_cons_self)
  rw [readSign, if_neg (by omega), if_neg (by omega)]

/-- **An exponent is read exactly where one stands.** -/
theorem readExponent_eq_some {x : List ℕ} {e : ℤ} : readExponent x = some e ↔ Exponent x e := by
  constructor
  · intro h
    cases x with
    | nil =>
      obtain rfl := Option.some.inj h
      exact Exponent.absent
    | cons c r =>
      rw [readExponent] at h
      obtain ⟨hmark, h⟩ := Option.ite_none_right_eq_some.mp h
      obtain ⟨hds, h⟩ := Option.ite_none_right_eq_some.mp h
      have hdigits := isDigits_iff.mpr hds
      obtain rfl := Option.some.inj h
      rcases readSign_cases r with ⟨t, rfl, ht⟩ | ⟨t, rfl, ht⟩ | ht
      · rw [ht] at hdigits ⊢
        exact Exponent.plus hmark hdigits
      · rw [ht] at hdigits ⊢
        exact Exponent.minus hmark hdigits
      · rw [ht] at hdigits ⊢
        exact Exponent.bare hmark hdigits
  · intro h
    cases h with
    | absent => rfl
    | bare hmark hds =>
      rw [readExponent, if_pos hmark, readSign_digits hds]
      exact if_pos (isDigits_iff.mp hds)
    | @plus c ds hmark hds =>
      have hsign : readSign (0x2B :: ds) = (false, ds) := rfl
      rw [readExponent, if_pos hmark, hsign]
      exact if_pos (isDigits_iff.mp hds)
    | @minus c ds hmark hds =>
      have hsign : readSign (0x2D :: ds) = (true, ds) := rfl
      rw [readExponent, if_pos hmark, hsign]
      exact if_pos (isDigits_iff.mp hds)

/-- No digit and no point begins an exponent. -/
lemma Exponent.head {x : List ℕ} {e : ℤ} (h : Exponent x e) :
    ∀ c ∈ x.head?, isDigit c = false ∧ c ≠ 0x2E := by
  have hmark : ∀ {c : ℕ}, IsMark c → isDigit c = false ∧ c ≠ 0x2E := by
    rintro c (rfl | rfl)
    · exact ⟨by decide, by decide⟩
    · exact ⟨by decide, by decide⟩
  intro c hc
  cases h with
  | absent => cases hc
  | bare hm _ => exact Option.some.inj hc ▸ hmark hm
  | plus hm _ => exact Option.some.inj hc ▸ hmark hm
  | minus hm _ => exact Option.some.inj hc ▸ hmark hm

/-- **A decimal number is read exactly where one stands.** -/
theorem readNumber_eq_some {s : List ℕ} {m : ℕ} {e : ℤ} :
    readNumber s = some (m, e) ↔ Number s m e := by
  constructor
  · intro h
    have hs := (List.takeWhile_append_dropWhile (p := isDigit) (l := s)).symm
    have htake : ∀ c ∈ s.takeWhile isDigit, isDigit c = true := fun c hc => List.mem_takeWhile_imp hc
    rw [readNumber] at h
    obtain ⟨hne, h⟩ := Option.ite_none_left_eq_some.mp h
    obtain ⟨x, hx, hv⟩ := Option.map_eq_some_iff.mp h
    obtain ⟨rfl, rfl⟩ := Prod.mk.inj hv
    have hexp := readExponent_eq_some.mp hx
    generalize s.takeWhile isDigit = i at hs htake hne hexp ⊢
    generalize s.dropWhile isDigit = rest at hs hne hexp ⊢
    subst hs
    cases rest with
    | nil =>
      rw [readFraction, List.append_nil] at hne ⊢
      have hnum := Number.integer ⟨hne, htake⟩ hexp
      rw [List.length_nil, Nat.cast_zero, sub_zero]
      rw [readFraction, List.append_nil] at hnum
      exact hnum
    | cons c r =>
      rw [readFraction] at hne hexp ⊢
      split_ifs at hne hexp ⊢ with hpoint
      · rw [hpoint]
        have hr := (List.takeWhile_append_dropWhile (p := isDigit) (l := r)).symm
        have hds : IsDigits 10 (i ++ r.takeWhile isDigit) := by
          refine ⟨hne, fun c hc => ?_⟩
          rcases List.mem_append.mp hc with hc | hc
          · exact htake c hc
          · exact List.mem_takeWhile_imp (p := isDigit) hc
        have hnum := Number.point hds hexp
        rw [← hr] at hnum
        exact hnum
      · rw [List.append_nil] at hne ⊢
        have hnum := Number.integer ⟨hne, htake⟩ hexp
        rw [List.length_nil, Nat.cast_zero, sub_zero]
        exact hnum
  · intro h
    cases h with
    | @integer i x _ hi hexp =>
      obtain ⟨htake, hdrop⟩ := takeWhile_digits hi.2 fun c hc => (hexp.head c hc).1
      have hfrac : readFraction x = ([], x) := by
        cases x with
        | nil => rfl
        | cons c x => rw [readFraction, if_neg (hexp.head c rfl).2]
      rw [readNumber, htake, hdrop, hfrac]
      dsimp only
      rw [List.append_nil, if_neg hi.1, readExponent_eq_some.mpr hexp, Option.map_some,
        List.length_nil, Nat.cast_zero, sub_zero]
    | @point i f x e hds hexp =>
      have hi : ∀ c ∈ i, isDigit c = true := fun c hc => hds.2 c (List.mem_append_left _ hc)
      have hf : ∀ c ∈ f, isDigit c = true := fun c hc => hds.2 c (List.mem_append_right _ hc)
      have hpoint : ∀ c ∈ (0x2E :: (f ++ x)).head?, isDigit c = false := fun c hc =>
        Option.some.inj hc ▸ (by decide)
      obtain ⟨htake, hdrop⟩ := takeWhile_digits hi hpoint
      obtain ⟨htakef, hdropf⟩ := takeWhile_digits hf fun c hc => (hexp.head c hc).1
      rw [readNumber, htake, hdrop, readFraction, if_pos rfl, htakef, hdropf]
      dsimp only
      rw [if_neg hds.1, readExponent_eq_some.mpr hexp, Option.map_some]

end NumericText
