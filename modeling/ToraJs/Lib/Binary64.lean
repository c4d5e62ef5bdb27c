import ToraJs.Lib.RoundNearest

/-!
# Binary64 bit patterns

A double is given by its 64-bit pattern, a natural number: a sign bit, eleven bits of
biased exponent and fifty-two bits of fraction.  Every finite double is an integer
multiple of the least subnormal `2 ^ (-1074)`, so its value is given exactly by an integer
count of that unit.

The file proves that a pattern is determined by its value away from zero and NaN, and that
an integer of at most 53 bits is represented exactly.
-/

namespace Binary64

/-- The fraction field. -/
def fraction (b : ℕ) : ℕ := b % 2 ^ 52

/-- The biased exponent field. -/
def biasedExp (b : ℕ) : ℕ := b / 2 ^ 52 % 2 ^ 11

/-- The sign bit. -/
def signBit (b : ℕ) : Bool := b / 2 ^ 63 % 2 == 1

/-- The magnitude of a finite pattern, in units of the least subnormal. -/
def magnitude (b : ℕ) : ℕ :=
  if biasedExp b = 0 then fraction b else (2 ^ 52 + fraction b) * 2 ^ (biasedExp b - 1)

/-- The numbers that patterns denote; the two zeros denote one number, and so do all NaNs. -/
inductive Num
  | nan
  | infinite (negative : Bool)
  | finite (units : ℤ)
deriving DecidableEq, Repr

/-- The number one, in units of the least subnormal. -/
@[irreducible] def one : ℤ := 2 ^ 1074

/-- The unit count of the number one. -/
lemma one_eq : one = ((2 ^ 1074 : ℕ) : ℤ) := by
  unfold one
  push_cast
  rfl

/-- The number one is not zero. -/
lemma one_ne_zero : one ≠ 0 := by
  rw [one_eq]
  exact_mod_cast (Nat.two_pow_pos 1074).ne'

/-- The number that a pattern denotes. -/
def value (b : ℕ) : Num :=
  if biasedExp b = 2047 then
    if fraction b = 0 then .infinite (signBit b) else .nan
  else .finite (if signBit b then -(magnitude b : ℤ) else magnitude b)

/-- Whether a pattern is a NaN. -/
def isNaN (b : ℕ) : Bool := biasedExp b == 2047 && fraction b != 0

/-- The NaN patterns are those that denote NaN. -/
lemma isNaN_iff (b : ℕ) : isNaN b = true ↔ value b = .nan := by
  unfold isNaN value
  split_ifs with h1 h2 <;> simp [*]

/-! ### A pattern is determined by its value -/

/-- The three fields make up the pattern. -/
lemma eq_of_fields {a b : ℕ} (ha : a < 2 ^ 64) (hb : b < 2 ^ 64) (hs : signBit a = signBit b)
    (he : biasedExp a = biasedExp b) (hf : fraction a = fraction b) : a = b := by
  have hs' : a / 2 ^ 63 % 2 = 1 ↔ b / 2 ^ 63 % 2 = 1 := by
    rw [← beq_iff_eq, ← beq_iff_eq (a := b / 2 ^ 63 % 2)]
    exact Bool.eq_iff_iff.mp hs
  unfold biasedExp at he
  unfold fraction at hf
  omega

/-- Fractions are below `2 ^ 52`. -/
lemma fraction_lt (b : ℕ) : fraction b < 2 ^ 52 := Nat.mod_lt _ (Nat.two_pow_pos 52)

/-- A larger exponent is a larger magnitude. -/
lemma magnitude_lt_of_biasedExp_lt {a b : ℕ} (h : biasedExp a < biasedExp b) :
    magnitude a < magnitude b := by
  have hb : biasedExp b ≠ 0 := by omega
  have hfa := fraction_lt a
  have hlow : 2 ^ 52 * 2 ^ (biasedExp b - 1) ≤ magnitude b := by
    rw [magnitude, if_neg hb]
    exact Nat.mul_le_mul_right _ (Nat.le_add_right _ _)
  refine lt_of_lt_of_le ?_ hlow
  by_cases ha : biasedExp a = 0
  · rw [magnitude, if_pos ha]
    calc fraction a < 2 ^ 52 * 1 := by omega
      _ ≤ 2 ^ 52 * 2 ^ (biasedExp b - 1) := Nat.mul_le_mul_left _ Nat.one_le_two_pow
  · rw [magnitude, if_neg ha]
    have hpow : 2 ^ (biasedExp a - 1) * 2 ≤ 2 ^ (biasedExp b - 1) := by
      rw [← pow_succ]
      exact Nat.pow_le_pow_right (by norm_num) (by omega)
    calc (2 ^ 52 + fraction a) * 2 ^ (biasedExp a - 1)
        < (2 ^ 52 * 2) * 2 ^ (biasedExp a - 1) :=
          Nat.mul_lt_mul_of_pos_right (by omega) (Nat.two_pow_pos _)
      _ = 2 ^ 52 * (2 ^ (biasedExp a - 1) * 2) := by ring
      _ ≤ 2 ^ 52 * 2 ^ (biasedExp b - 1) := Nat.mul_le_mul_left _ hpow

/-- Equal magnitudes have equal exponent and fraction fields. -/
lemma fields_of_magnitude_eq {a b : ℕ} (h : magnitude a = magnitude b) :
    biasedExp a = biasedExp b ∧ fraction a = fraction b := by
  have he : biasedExp a = biasedExp b := by
    rcases Nat.lt_trichotomy (biasedExp a) (biasedExp b) with hlt | heq | hgt
    · exact absurd h (magnitude_lt_of_biasedExp_lt hlt).ne
    · exact heq
    · exact absurd h (magnitude_lt_of_biasedExp_lt hgt).ne'
  refine ⟨he, ?_⟩
  unfold magnitude at h
  rw [he] at h
  split_ifs at h
  · exact h
  · have := Nat.eq_of_mul_eq_mul_right (Nat.two_pow_pos _) h
    omega

/-- Away from zero and NaN a pattern is determined by the number it denotes. -/
theorem eq_of_value_eq {a b : ℕ} (ha : a < 2 ^ 64) (hb : b < 2 ^ 64) (h : value a = value b)
    (hnan : value a ≠ .nan) (hzero : value a ≠ .finite 0) : a = b := by
  by_cases hea : biasedExp a = 2047
  · have hfa : fraction a = 0 := by
      by_contra hf
      exact hnan (by rw [value, if_pos hea, if_neg hf])
    have hva : value a = .infinite (signBit a) := by rw [value, if_pos hea, if_pos hfa]
    rw [hva, value] at h
    split_ifs at h with heb hfb
    · exact eq_of_fields ha hb (by simpa using h) (by rw [hea, heb]) (by rw [hfa, hfb])
  · have hva : value a = .finite (if signBit a then -(magnitude a : ℤ) else magnitude a) := by
      rw [value, if_neg hea]
    have hvb : value b = .finite (if signBit b then -(magnitude b : ℤ) else magnitude b) := by
      rw [value]
      by_cases heb : biasedExp b = 2047
      · rw [hva, value, if_pos heb] at h
        split_ifs at h
      · rw [if_neg heb]
    rw [hva] at hzero
    rw [hva, hvb] at h
    simp only [Num.finite.injEq, ne_eq] at h hzero
    have hsign : signBit a = signBit b := by
      cases hsa : signBit a <;> cases hsb : signBit b <;>
        simp only [hsa, hsb, if_true, Bool.false_eq_true, if_false] at h hzero ⊢ <;> omega
    have hmag : magnitude a = magnitude b := by
      rw [hsign] at h
      cases hsb : signBit b <;>
        simp only [hsb, if_true, Bool.false_eq_true, if_false] at h <;> omega
    obtain ⟨he, hf⟩ := fields_of_magnitude_eq hmag
    exact eq_of_fields ha hb hsign he hf

/-! ### Integers -/

/-- The pattern of an integer rounded to nearest, ties to even. -/
def ofInt (z : ℤ) : ℕ :=
  if z = 0 then 0
  else
    let m := RoundNearest.roundNat 53 z.natAbs
    let e := m.log2
    (if z < 0 then 2 ^ 63 else 0) + (e + 1023) * 2 ^ 52 + (m * 2 ^ 52 / 2 ^ e - 2 ^ 52)

/-- The integer that a pattern denotes, when it denotes one. -/
def toInt? (b : ℕ) : Option ℤ :=
  match value b with
  | .finite u => if u % one = 0 then some (u / one) else none
  | _ => none

/-- A pattern denotes the integer read off it. -/
lemma toInt?_eq_some {b : ℕ} {z : ℤ} : toInt? b = some z ↔ value b = .finite (z * one) := by
  unfold toInt?
  cases hv : value b with
  | nan => simp
  | infinite s => simp
  | finite u =>
    simp only [Num.finite.injEq]
    constructor
    · intro h
      split_ifs at h with hmod
      rw [← Option.some_inj.mp h]
      exact (Int.ediv_mul_cancel (Int.dvd_of_emod_eq_zero hmod)).symm
    · rintro rfl
      rw [if_pos (Int.mul_emod_left _ _), Int.mul_ediv_cancel _ one_ne_zero]

/-- The pattern of an integer of at most 53 bits fits 64 bits. -/
lemma ofInt_lt {z : ℤ} (h : z.natAbs ≤ 2 ^ 53) : ofInt z < 2 ^ 64 := by
  unfold ofInt
  split_ifs with hz hneg
  · norm_num
  all_goals
    have hround : RoundNearest.roundNat 53 z.natAbs = z.natAbs :=
      RoundNearest.roundNat_of_le (by norm_num) h
    simp only [hround]
    have hmpos : z.natAbs ≠ 0 := by omega
    set e := z.natAbs.log2 with he
    have hlow : 2 ^ e ≤ z.natAbs := Nat.log2_self_le hmpos
    have he53 : e ≤ 53 := by
      by_contra hgt
      have : 2 ^ 54 ≤ 2 ^ e := Nat.pow_le_pow_right (by norm_num) (by omega)
      omega
    have hq : z.natAbs * 2 ^ 52 / 2 ^ e < 2 ^ 53 := by
      rw [Nat.div_lt_iff_lt_mul (Nat.two_pow_pos e)]
      calc z.natAbs * 2 ^ 52 < 2 ^ (e + 1) * 2 ^ 52 :=
            Nat.mul_lt_mul_of_pos_right Nat.lt_log2_self (by norm_num)
        _ = 2 ^ 53 * 2 ^ e := by ring
    omega

/-- Integers of at most 53 bits are represented exactly. -/
theorem value_ofInt {z : ℤ} (h : z.natAbs ≤ 2 ^ 53) : value (ofInt z) = .finite (z * one) := by
  by_cases hz : z = 0
  · subst hz
    simp [ofInt, value, biasedExp, fraction, magnitude, signBit]
  · set m := z.natAbs with hm
    have hround : RoundNearest.roundNat 53 m = m := RoundNearest.roundNat_of_le (by norm_num) h
    have hmpos : m ≠ 0 := by omega
    set e := m.log2 with he
    have hlow : 2 ^ e ≤ m := Nat.log2_self_le hmpos
    have hhigh : m < 2 ^ (e + 1) := Nat.lt_log2_self
    have he53 : e ≤ 53 := by
      by_contra hgt
      have : 2 ^ 54 ≤ 2 ^ e := Nat.pow_le_pow_right (by norm_num) (by omega)
      omega
    -- the shifted significand is exact: below 53 bits it only gains zeros
    have hdvd : 2 ^ e ∣ m * 2 ^ 52 := by
      rcases Nat.lt_or_ge e 53 with hlt | hge
      · exact (pow_dvd_pow 2 (by omega)).mul_left m
      · have heq : e = 53 := by omega
        have hm53 : m = 2 ^ 53 := by rw [heq] at hlow; omega
        rw [heq, hm53]
        exact Dvd.intro _ rfl
    set q := m * 2 ^ 52 / 2 ^ e with hq
    have hqm : q * 2 ^ e = m * 2 ^ 52 := Nat.div_mul_cancel hdvd
    have hqlow : 2 ^ 52 ≤ q := by
      rw [hq, Nat.le_div_iff_mul_le (Nat.two_pow_pos e), mul_comm]
      exact Nat.mul_le_mul_right _ hlow
    have hqhigh : q < 2 ^ 53 := by
      rw [hq, Nat.div_lt_iff_lt_mul (Nat.two_pow_pos e)]
      calc m * 2 ^ 52 < 2 ^ (e + 1) * 2 ^ 52 := Nat.mul_lt_mul_of_pos_right hhigh (by norm_num)
        _ = 2 ^ 53 * 2 ^ e := by ring
    have hbits : ofInt z = (if z < 0 then 2 ^ 63 else 0) + (e + 1023) * 2 ^ 52 + (q - 2 ^ 52) := by
      simp only [ofInt, if_neg hz, hround, ← hm, ← he, ← hq]
    have hfrac : fraction (ofInt z) = q - 2 ^ 52 := by
      rw [hbits]
      unfold fraction
      split_ifs <;> omega
    have hexp : biasedExp (ofInt z) = e + 1023 := by
      rw [hbits]
      unfold biasedExp
      split_ifs <;> omega
    have hsign : signBit (ofInt z) = decide (z < 0) := by
      rw [hbits]
      unfold signBit
      by_cases hneg : z < 0
      · rw [if_pos hneg, decide_eq_true hneg, beq_iff_eq]
        omega
      · rw [if_neg hneg, decide_eq_false hneg, beq_eq_false_iff_ne]
        omega
    have hmag : (magnitude (ofInt z) : ℤ) = m * one := by
      have hnat : magnitude (ofInt z) = m * 2 ^ 1074 := by
        rw [magnitude, if_neg (by omega), hfrac, hexp, Nat.add_sub_cancel' hqlow]
        calc q * 2 ^ (e + 1023 - 1) = q * 2 ^ e * 2 ^ 1022 := by
              rw [mul_assoc, ← pow_add]; rfl
          _ = m * 2 ^ 1074 := by rw [hqm, mul_assoc, ← pow_add]
      rw [hnat, one_eq, Nat.cast_mul]
    rw [value, if_neg (by omega), hsign, hmag]
    congr 1
    by_cases hneg : z < 0
    · have hzm : z = -(m : ℤ) := by omega
      simp only [hneg, decide_true, if_true]
      rw [hzm]
      ring
    · have hzm : z = (m : ℤ) := by omega
      simp only [hneg, decide_false, Bool.false_eq_true, if_false]
      rw [← hzm]

/-! ### The order of the numbers -/

/-- The comparison "greater"; a NaN is greater than nothing, and nothing than a NaN. -/
def Num.gt : Num → Num → Bool
  | .infinite s, .infinite t => !s && t
  | .infinite s, .finite _ => !s
  | .finite _, .infinite t => t
  | .finite a, .finite b => decide (b < a)
  | _, _ => false

/-- Of two numbers at most one is greater than the other. -/
lemma Num.gt_asymm {a b : Num} (h : a.gt b = true) : b.gt a = false := by
  cases a with
  | nan => exact absurd h (by simp [Num.gt])
  | infinite s => cases b <;> simp_all [Num.gt]
  | finite x =>
    cases b with
    | nan => rfl
    | infinite t => simp_all [Num.gt]
    | finite y =>
      simp only [Num.gt, decide_eq_true_eq, decide_eq_false_iff_not] at h ⊢
      omega

/-- Not being greater passes on over a number that is not NaN. -/
lemma Num.gt_negTrans {a b c : Num} (hb : b ≠ .nan) (hab : a.gt b = false)
    (hbc : b.gt c = false) : a.gt c = false := by
  cases b with
  | nan => exact absurd rfl hb
  | infinite s => cases a <;> cases c <;> cases s <;> simp_all [Num.gt]
  | finite y =>
    cases a with
    | nan => rfl
    | infinite s => cases c <;> simp_all [Num.gt]
    | finite x =>
      cases c with
      | nan => rfl
      | infinite t => simp_all [Num.gt]
      | finite z =>
        simp only [Num.gt, decide_eq_false_iff_not] at hab hbc ⊢
        omega

end Binary64
