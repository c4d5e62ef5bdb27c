import ToraJs.Lib.Binary64
import ToraJs.Lib.Ieee754

/-!
# Binary64 numbers and their bit patterns

The number a pattern denotes, and a pattern for each number; of the NaNs the quiet one
without a payload is taken.  A number is what its pattern denotes.
-/

namespace Ieee754

open Binary64 (biasedExp fraction signBit magnitude)
open RoundNearest (excess roundNat)

/-! ### From patterns -/

lemma magnitude_eq (b : ℕ) : ∃ q k, q < 2 ^ 53 ∧ k ≤ biasedExp b - 1 ∧ magnitude b = q * 2 ^ k := by
  have hfrac := Binary64.fraction_lt b
  rw [magnitude]
  split
  · exact ⟨fraction b, 0, by omega, Nat.zero_le _, by rw [pow_zero, Nat.mul_one]⟩
  · exact ⟨2 ^ 52 + fraction b, biasedExp b - 1, by omega, le_rfl, rfl⟩

/-- A magnitude has at most 53 significant bits. -/
lemma roundNat_magnitude (b : ℕ) : roundNat 53 (magnitude b) = magnitude b := by
  obtain ⟨q, k, hq, _, heq⟩ := magnitude_eq b
  rw [heq]
  exact RoundNearest.roundNat_mul_two_pow (by norm_num) hq.le

lemma fractionBits_eq : fractionBits = 1074 := by
  rw [fractionBits]

lemma overflow_eq : overflow = 2 ^ 53 * 2 ^ (fractionBits + 971) := by
  have hbits : fractionBits + 1024 = 53 + (fractionBits + 971) := by omega
  calc overflow = 2 ^ (53 + (fractionBits + 971)) := congrArg (fun k => 2 ^ k) hbits
    _ = 2 ^ 53 * 2 ^ (fractionBits + 971) := pow_add 2 53 (fractionBits + 971)

/-- A pattern with an exponent below the largest is finite. -/
lemma magnitude_lt_overflow {b : ℕ} (h : biasedExp b ≠ 2047) : magnitude b < overflow := by
  obtain ⟨q, k, hq, hk, heq⟩ := magnitude_eq b
  have hexp : biasedExp b < 2 ^ 11 := Nat.mod_lt _ (Nat.two_pow_pos 11)
  rw [heq, overflow_eq]
  calc q * 2 ^ k < 2 ^ 53 * 2 ^ k := (Nat.mul_lt_mul_right (Nat.two_pow_pos k)).mpr hq
    _ ≤ 2 ^ 53 * 2 ^ (fractionBits + 971) := by
      refine Nat.mul_le_mul_left _ (Nat.pow_le_pow_right (by norm_num) ?_)
      rw [fractionBits_eq]
      omega

/-- `f64::from_bits`. -/
def F64.ofBits (b : ℕ) : F64 :=
  if h : biasedExp b = 2047 then
    if fraction b = 0 then .inf (signBit b) else .nan
  else .finite (signBit b) ⟨magnitude b, roundNat_magnitude b, magnitude_lt_overflow h⟩

/-! ### To patterns -/

/-- The exponent and fraction fields of a magnitude. -/
def fieldsOf (units : ℕ) : ℕ :=
  if units < 2 ^ 52 then units
  else (excess 53 units + 1) * 2 ^ 52 + (units / 2 ^ excess 53 units - 2 ^ 52)

/-- The sign field. -/
def signField (s : Bool) : ℕ := if s then 2 ^ 63 else 0

/-- `f64::to_bits`. -/
def F64.toBits : F64 → ℕ
  | .nan => 2047 * 2 ^ 52 + 2 ^ 51
  | .inf s => signField s + 2047 * 2 ^ 52
  | .finite s m => signField s + fieldsOf m.units

/-- The fields below a sign are read back. -/
lemma fields_add {s : Bool} {e : ℕ} (he : e < 2 ^ 63) :
    signBit (signField s + e) = s ∧ biasedExp (signField s + e) = e / 2 ^ 52 ∧
      fraction (signField s + e) = e % 2 ^ 52 := by
  cases s <;> simp only [signField, Bool.false_eq_true, if_false, if_true, signBit, biasedExp, fraction]
  · refine ⟨?_, by omega, by omega⟩
    rw [beq_eq_false_iff_ne]
    omega
  · refine ⟨?_, by omega, by omega⟩
    rw [beq_iff_eq]
    omega

/-- A magnitude that is not subnormal is a significand of 53 bits, shifted. -/
lemma Mag.normal (m : Mag) (h : 2 ^ 52 ≤ m.units) :
    2 ^ 52 ≤ m.units / 2 ^ excess 53 m.units ∧ m.units / 2 ^ excess 53 m.units < 2 ^ 53 ∧
      m.units / 2 ^ excess 53 m.units * 2 ^ excess 53 m.units = m.units ∧
      excess 53 m.units ≤ fractionBits + 971 := by
  have hne : m.units ≠ 0 := by
    have := Nat.two_pow_pos 52
    omega
  have hlog : 52 ≤ m.units.log2 := (Nat.le_log2 hne).mpr h
  refine ⟨?_, RoundNearest.div_excess_lt 53 m.units, ?_, ?_⟩
  · rw [Nat.le_div_iff_mul_le (Nat.two_pow_pos _), ← pow_add]
    refine le_trans (Nat.pow_le_pow_right (by norm_num) ?_) (Nat.log2_self_le hne)
    unfold excess
    omega
  · refine Nat.div_mul_cancel ?_
    rcases RoundNearest.roundNat_eq_or 53 m.units with heq | heq
    · exact Dvd.intro_left _ (heq.symm.trans m.fixed)
    · exact Dvd.intro_left _ (heq.symm.trans m.fixed)
  · refine RoundNearest.excess_le_of_lt (by norm_num) ?_
    rw [pow_add, ← overflow_eq]
    exact m.finite

/-- The fields of a magnitude denote it. -/
lemma fieldsOf_spec (m : Mag) : fieldsOf m.units < 2047 * 2 ^ 52 ∧
    (if fieldsOf m.units / 2 ^ 52 = 0 then fieldsOf m.units % 2 ^ 52
      else (2 ^ 52 + fieldsOf m.units % 2 ^ 52) * 2 ^ (fieldsOf m.units / 2 ^ 52 - 1)) = m.units := by
  rw [fieldsOf]
  by_cases hsub : m.units < 2 ^ 52
  · rw [if_pos hsub, if_pos (Nat.div_eq_of_lt hsub)]
    exact ⟨by omega, Nat.mod_eq_of_lt hsub⟩
  · obtain ⟨hlow, hhigh, hshift, hk⟩ := m.normal (Nat.le_of_not_lt hsub)
    rw [if_neg hsub]
    generalize hq : m.units / 2 ^ excess 53 m.units = q at *
    generalize hke : excess 53 m.units = k at *
    have hdiv : ((k + 1) * 2 ^ 52 + (q - 2 ^ 52)) / 2 ^ 52 = k + 1 := by omega
    have hmod : ((k + 1) * 2 ^ 52 + (q - 2 ^ 52)) % 2 ^ 52 = q - 2 ^ 52 := by omega
    rw [hdiv, hmod, if_neg (Nat.succ_ne_zero k), Nat.add_sub_cancel' hlow, Nat.add_sub_cancel]
    rw [fractionBits_eq] at hk
    exact ⟨by omega, hshift⟩

/-- **A number is what its pattern denotes.** -/
theorem F64.ofBits_toBits (x : F64) : F64.ofBits x.toBits = x := by
  cases x with
  | nan =>
    have hexp : biasedExp (2047 * 2 ^ 52 + 2 ^ 51) = 2047 := by
      norm_num [biasedExp]
    have hfrac : fraction (2047 * 2 ^ 52 + 2 ^ 51) ≠ 0 := by
      rw [fraction]
      omega
    rw [F64.toBits, F64.ofBits, dif_pos hexp, if_neg hfrac]
  | inf s =>
    obtain ⟨hsign, hexp, hfrac⟩ := fields_add (s := s) (e := 2047 * 2 ^ 52) (by norm_num)
    have hexp' : biasedExp (signField s + 2047 * 2 ^ 52) = 2047 := by
      rw [hexp, Nat.mul_div_cancel _ (Nat.two_pow_pos 52)]
    have hfrac' : fraction (signField s + 2047 * 2 ^ 52) = 0 := by
      rw [hfrac, Nat.mul_mod_left]
    rw [F64.toBits, F64.ofBits, dif_pos hexp', if_pos hfrac', hsign]
  | finite s m =>
    obtain ⟨hlt, hunits⟩ := fieldsOf_spec m
    obtain ⟨hsign, hexp, hfrac⟩ := fields_add (s := s) (e := fieldsOf m.units) (by omega)
    have hexp' : biasedExp (signField s + fieldsOf m.units) ≠ 2047 := by
      rw [hexp]
      omega
    have hmag : magnitude (signField s + fieldsOf m.units) = m.units := by
      rw [magnitude, hexp, hfrac]
      exact hunits
    rw [F64.toBits, F64.ofBits, dif_neg hexp', hsign]
    obtain ⟨units, hfixed, hfinite⟩ := m
    simp only at hmag
    simp only [hmag]

/-- A pattern has 64 bits. -/
lemma F64.toBits_lt (x : F64) : x.toBits < 2 ^ 64 := by
  cases x with
  | nan => norm_num [F64.toBits]
  | inf s => cases s <;> norm_num [F64.toBits, signField]
  | finite s m =>
    have := (fieldsOf_spec m).1
    rw [F64.toBits, signField]
    split <;> omega

end Ieee754
