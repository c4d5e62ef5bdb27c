import Mathlib.Data.Nat.Log
import Mathlib.Data.Nat.Size
import Mathlib.Data.Int.Order.Basic
import Mathlib.Tactic.Linarith
import Mathlib.Tactic.Ring

/-!
# Rounding integers to a binary significand

An integer is rounded to the nearest multiple of a power of two that leaves `p`
significant bits, a tie going to the even multiple.  This is the rounding an
IEEE 754 operation applies when its exact result is an integer, for any precision
`p`; the exponent range is a separate test on the rounded magnitude.

The file proves the three facts an error analysis over integers needs: short
integers are fixed, rounding is monotone, and it is idempotent.
-/

namespace RoundNearest

/-! ### Natural numbers -/

/-- The number of low bits of `n` that do not fit a significand of `p` bits. -/
def excess (p n : ℕ) : ℕ := n.log2 + 1 - p

/-- `n` rounded to `p` significant bits, to nearest, ties to the even significand. -/
def roundNat (p n : ℕ) : ℕ :=
  let k := excess p n
  let q := n / 2 ^ k
  let r := n % 2 ^ k
  if 2 * r < 2 ^ k ∨ (2 * r = 2 ^ k ∧ q % 2 = 0) then q * 2 ^ k else (q + 1) * 2 ^ k

/-- A multiple of the unit in the last place is not moved. -/
lemma roundNat_of_dvd {p n : ℕ} (h : 2 ^ excess p n ∣ n) : roundNat p n = n := by
  have hr : n % 2 ^ excess p n = 0 := Nat.mod_eq_zero_of_dvd h
  have hpos : 0 < 2 ^ excess p n := Nat.two_pow_pos _
  simp only [roundNat, hr, mul_zero]
  rw [if_pos (Or.inl hpos)]
  exact Nat.div_mul_cancel h

/-- The dropped bits of a number below `2 ^ (p + k)` are at most `k`. -/
lemma excess_le_of_lt {p k n : ℕ} (hp : 0 < p) (h : n < 2 ^ (p + k)) : excess p n ≤ k := by
  rcases Nat.eq_zero_or_pos n with rfl | hn
  · simp [excess]; omega
  · have hlog : n.log2 < p + k := (Nat.log2_lt hn.ne').mpr h
    unfold excess
    omega

/-- A significand of at most `p` bits, shifted, is fixed by rounding. -/
lemma roundNat_mul_two_pow {p m k : ℕ} (hp : 0 < p) (hm : m ≤ 2 ^ p) :
    roundNat p (m * 2 ^ k) = m * 2 ^ k := by
  apply roundNat_of_dvd
  rcases hm.lt_or_eq with hlt | rfl
  · have hle : excess p (m * 2 ^ k) ≤ k := by
      apply excess_le_of_lt hp
      rw [pow_add]
      exact (Nat.mul_lt_mul_right (Nat.two_pow_pos k)).mpr hlt
    exact (pow_dvd_pow 2 hle).mul_left m
  · have hle : excess p (2 ^ p * 2 ^ k) ≤ k + 1 := by
      apply excess_le_of_lt hp
      rw [← pow_add]
      exact Nat.pow_lt_pow_right (by norm_num) (by omega)
    rw [← pow_add] at hle ⊢
    exact pow_dvd_pow 2 (by omega)

/-- Numbers of at most `p` bits, and `2 ^ p` itself, are fixed by rounding. -/
lemma roundNat_of_le {p n : ℕ} (hp : 0 < p) (h : n ≤ 2 ^ p) : roundNat p n = n := by
  simpa using roundNat_mul_two_pow (k := 0) hp h

/-- Either choice of the rounding is the quotient or its successor. -/
lemma roundNat_eq_or (p n : ℕ) :
    roundNat p n = n / 2 ^ excess p n * 2 ^ excess p n ∨
      roundNat p n = (n / 2 ^ excess p n + 1) * 2 ^ excess p n := by
  simp only [roundNat]
  split
  · exact Or.inl rfl
  · exact Or.inr rfl

/-- The quotient kept by rounding has at most `p` bits. -/
lemma div_excess_lt (p n : ℕ) : n / 2 ^ excess p n < 2 ^ p := by
  rcases Nat.eq_zero_or_pos n with rfl | hn
  · simp
  · have h : n < 2 ^ (n.log2 + 1) := Nat.lt_log2_self
    rw [Nat.div_lt_iff_lt_mul (Nat.two_pow_pos _), ← pow_add]
    refine lt_of_lt_of_le h (Nat.pow_le_pow_right (by norm_num) ?_)
    unfold excess
    omega

/-- Rounding stays below the next power of two. -/
lemma roundNat_le_two_pow {p n : ℕ} (hp : 0 < p) : roundNat p n ≤ 2 ^ (n.log2 + 1) := by
  rcases le_or_gt n (2 ^ p) with hle | hgt
  · rw [roundNat_of_le hp hle]
    exact Nat.lt_log2_self.le
  · have hq : n / 2 ^ excess p n + 1 ≤ 2 ^ p := Nat.succ_le_of_lt (div_excess_lt p n)
    have hn : n ≠ 0 := Nat.ne_of_gt (lt_of_le_of_lt (Nat.zero_le _) hgt)
    have hlog : p ≤ n.log2 := (Nat.le_log2 hn).mpr hgt.le
    have hpow : 2 ^ p * 2 ^ excess p n = 2 ^ (n.log2 + 1) := by
      rw [← pow_add]
      congr 1
      unfold excess
      omega
    have hup : (n / 2 ^ excess p n + 1) * 2 ^ excess p n ≤ 2 ^ (n.log2 + 1) := by
      rw [← hpow]
      exact Nat.mul_le_mul_right _ hq
    rcases roundNat_eq_or p n with h | h <;> rw [h]
    · exact le_trans (Nat.mul_le_mul_right _ (Nat.le_succ _)) hup
    · exact hup

/-- Rounding does not fall below the leading power of two. -/
lemma two_pow_log2_le_roundNat {p n : ℕ} (hp : 0 < p) (hn : n ≠ 0) :
    2 ^ n.log2 ≤ roundNat p n := by
  have hdvd : 2 ^ excess p n ∣ 2 ^ n.log2 := by
    apply pow_dvd_pow
    unfold excess
    omega
  have hq : 2 ^ n.log2 ≤ n / 2 ^ excess p n * 2 ^ excess p n := by
    obtain ⟨c, hc⟩ := hdvd
    have hc' : c ≤ n / 2 ^ excess p n := by
      rw [Nat.le_div_iff_mul_le (Nat.two_pow_pos _), mul_comm, ← hc]
      exact Nat.log2_self_le hn
    rw [hc, mul_comm]
    exact Nat.mul_le_mul_right _ hc'
  rcases roundNat_eq_or p n with h | h <;> rw [h]
  · exact hq
  · exact le_trans hq (Nat.mul_le_mul_right _ (Nat.le_succ _))

/-- Rounding is monotone between numbers of one binade. -/
lemma roundNat_mono_of_excess_eq {p m n : ℕ} (hmn : m ≤ n) (hk : excess p m = excess p n) :
    roundNat p m ≤ roundNat p n := by
  simp only [roundNat, hk]
  set k := excess p n
  have hpos : 0 < 2 ^ k := Nat.two_pow_pos k
  have hm := Nat.div_add_mod m (2 ^ k)
  have hn := Nat.div_add_mod n (2 ^ k)
  have hq : m / 2 ^ k ≤ n / 2 ^ k := Nat.div_le_div_right hmn
  rcases hq.lt_or_eq with hlt | heq
  · -- the quotients differ, so even the upper choice below reaches the lower choice above
    have h1 : (m / 2 ^ k + 1) * 2 ^ k ≤ n / 2 ^ k * 2 ^ k := Nat.mul_le_mul_right _ hlt
    have h2 : m / 2 ^ k * 2 ^ k ≤ (m / 2 ^ k + 1) * 2 ^ k := Nat.mul_le_mul_right _ (Nat.le_succ _)
    have h3 : n / 2 ^ k * 2 ^ k ≤ (n / 2 ^ k + 1) * 2 ^ k := Nat.mul_le_mul_right _ (Nat.le_succ _)
    split <;> split <;> omega
  · rw [heq] at hm ⊢
    have hr : m % 2 ^ k ≤ n % 2 ^ k := by omega
    have h3 : n / 2 ^ k * 2 ^ k ≤ (n / 2 ^ k + 1) * 2 ^ k := Nat.mul_le_mul_right _ (Nat.le_succ _)
    split <;> split <;> omega

/-- Rounding is monotone. -/
theorem roundNat_mono {p m n : ℕ} (hp : 0 < p) (hmn : m ≤ n) : roundNat p m ≤ roundNat p n := by
  rcases Nat.eq_zero_or_pos m with rfl | hm
  · rw [roundNat_of_le hp (Nat.zero_le _)]
    exact Nat.zero_le _
  · have hn : n ≠ 0 := by omega
    have hlog : m.log2 ≤ n.log2 := by
      rw [Nat.le_log2 hn]
      exact le_trans (Nat.log2_self_le hm.ne') hmn
    rcases hlog.lt_or_eq with hlt | heq
    · calc roundNat p m ≤ 2 ^ (m.log2 + 1) := roundNat_le_two_pow hp
        _ ≤ 2 ^ n.log2 := Nat.pow_le_pow_right (by norm_num) hlt
        _ ≤ roundNat p n := two_pow_log2_le_roundNat hp hn
    · exact roundNat_mono_of_excess_eq hmn (by simp [excess, heq])

/-- Rounding an already rounded number changes nothing. -/
theorem roundNat_idem {p n : ℕ} (hp : 0 < p) : roundNat p (roundNat p n) = roundNat p n := by
  have hq : n / 2 ^ excess p n < 2 ^ p := div_excess_lt p n
  rcases roundNat_eq_or p n with h | h <;> rw [h]
  · exact roundNat_mul_two_pow hp hq.le
  · exact roundNat_mul_two_pow hp hq

/-! ### Integers -/

/-- `x` rounded to `p` significant bits: the magnitude is rounded, the sign kept. -/
def roundInt (p : ℕ) : ℤ → ℤ
  | .ofNat n => roundNat p n
  | .negSucc n => -(roundNat p (n + 1) : ℤ)

/-- Rounding a non-negative integer. -/
lemma roundInt_natCast (p n : ℕ) : roundInt p (n : ℤ) = roundNat p n := rfl

/-- Rounding is symmetric about zero. -/
lemma roundInt_neg {p : ℕ} (hp : 0 < p) (x : ℤ) : roundInt p (-x) = -roundInt p x := by
  rcases x with n | n
  · rcases n with _ | n
    · simp [roundInt, roundNat_of_le hp (Nat.zero_le _)]
    · rfl
  · simp only [roundInt, neg_neg]
    rfl

/-- Integers of magnitude at most `2 ^ p` are fixed by rounding. -/
lemma roundInt_of_abs_le {p : ℕ} (hp : 0 < p) {x : ℤ} (h : |x| ≤ 2 ^ p) : roundInt p x = x := by
  have hn : x.natAbs ≤ 2 ^ p := by
    have : (x.natAbs : ℤ) ≤ ((2 ^ p : ℕ) : ℤ) := by simpa [Int.natCast_natAbs] using h
    exact_mod_cast this
  rcases Int.natAbs_eq x with hx | hx
  · rw [hx, roundInt_natCast, roundNat_of_le hp hn]
  · rw [hx, roundInt_neg hp, roundInt_natCast, roundNat_of_le hp hn]

/-- Rounding a non-negative integer is non-negative. -/
lemma roundInt_nonneg {p : ℕ} {x : ℤ} (h : 0 ≤ x) : 0 ≤ roundInt p x := by
  obtain ⟨n, rfl⟩ := Int.eq_ofNat_of_zero_le h
  rw [roundInt_natCast]
  exact Int.natCast_nonneg _

/-- Rounding is monotone on non-negative integers. -/
lemma roundInt_mono_of_nonneg {p : ℕ} (hp : 0 < p) {x y : ℤ} (hx : 0 ≤ x) (hxy : x ≤ y) :
    roundInt p x ≤ roundInt p y := by
  obtain ⟨m, rfl⟩ := Int.eq_ofNat_of_zero_le hx
  obtain ⟨n, rfl⟩ := Int.eq_ofNat_of_zero_le (le_trans hx hxy)
  rw [roundInt_natCast, roundInt_natCast]
  exact_mod_cast roundNat_mono hp (by exact_mod_cast hxy)

/-- Rounding is monotone. -/
theorem roundInt_mono {p : ℕ} (hp : 0 < p) {x y : ℤ} (hxy : x ≤ y) :
    roundInt p x ≤ roundInt p y := by
  have hneg : ∀ z : ℤ, z ≤ 0 → roundInt p z ≤ 0 := fun z hz => by
    have := roundInt_nonneg (p := p) (x := -z) (by omega)
    rw [roundInt_neg hp] at this
    omega
  rcases le_total 0 x with hx | hx
  · exact roundInt_mono_of_nonneg hp hx hxy
  · rcases le_total 0 y with hy | hy
    · exact le_trans (hneg x hx) (roundInt_nonneg hy)
    · have := roundInt_mono_of_nonneg hp (x := -y) (y := -x) (by omega) (by omega)
      rw [roundInt_neg hp, roundInt_neg hp] at this
      omega

/-- Rounding an already rounded integer changes nothing. -/
theorem roundInt_idem {p : ℕ} (hp : 0 < p) (x : ℤ) :
    roundInt p (roundInt p x) = roundInt p x := by
  rcases x with n | n
  · change roundInt p ((roundNat p n : ℕ) : ℤ) = ((roundNat p n : ℕ) : ℤ)
    rw [roundInt_natCast, roundNat_idem hp]
  · change roundInt p (-(roundNat p (n + 1) : ℤ)) = -(roundNat p (n + 1) : ℤ)
    rw [roundInt_neg hp, roundInt_natCast, roundNat_idem hp]

/-! ### Exactly representable integers -/

/-- `x` is fixed by rounding exactly when it is a short significand times a power of two. -/
theorem roundInt_eq_self_iff {p : ℕ} (hp : 0 < p) {x : ℤ} :
    roundInt p x = x ↔ ∃ m k : ℕ, m ≤ 2 ^ p ∧ x.natAbs = m * 2 ^ k := by
  have hcast : roundInt p x = x ↔ roundNat p x.natAbs = x.natAbs := by
    rcases Int.natAbs_eq x with hx | hx
    · rw [hx, roundInt_natCast, Int.natAbs_natCast]
      exact Nat.cast_inj
    · rw [hx, roundInt_neg hp, roundInt_natCast, Int.natAbs_neg, Int.natAbs_natCast, neg_inj]
      exact Nat.cast_inj
  rw [hcast]
  constructor
  · intro h
    have hq := div_excess_lt p x.natAbs
    rcases roundNat_eq_or p x.natAbs with h' | h' <;> rw [h] at h'
    · exact ⟨_, _, hq.le, h'⟩
    · exact ⟨_, _, hq, h'⟩
  · rintro ⟨m, k, hm, hx⟩
    rw [hx]
    exact roundNat_mul_two_pow hp hm

/-- The truncated remainder of two representable integers is representable: it is a
multiple of the smaller unit and below the operand that has this unit. -/
theorem roundInt_tmod {p : ℕ} (hp : 0 < p) {x y : ℤ} (hx : roundInt p x = x)
    (hy : roundInt p y = y) (hy0 : y ≠ 0) : roundInt p (x.tmod y) = x.tmod y := by
  obtain ⟨m, k, hm, hxk⟩ := (roundInt_eq_self_iff hp).mp hx
  obtain ⟨n, l, hn, hyl⟩ := (roundInt_eq_self_iff hp).mp hy
  rw [roundInt_eq_self_iff hp, Int.natAbs_tmod]
  have hy0' : 0 < y.natAbs := Int.natAbs_pos.mpr hy0
  have hmod : x.natAbs % y.natAbs < y.natAbs := Nat.mod_lt _ hy0'
  have hle : x.natAbs % y.natAbs ≤ x.natAbs := Nat.mod_le _ _
  rcases le_total k l with hkl | hlk
  · have hdvd : 2 ^ k ∣ x.natAbs % y.natAbs := by
      refine (Nat.dvd_mod_iff ?_).mpr ?_
      · exact hyl ▸ (pow_dvd_pow 2 hkl).mul_left n
      · exact hxk ▸ Nat.dvd_mul_left _ _
    obtain ⟨c, hc⟩ := hdvd
    refine ⟨c, k, ?_, by rw [hc, mul_comm]⟩
    have : c * 2 ^ k ≤ m * 2 ^ k := by rw [mul_comm, ← hc, ← hxk]; exact hle
    exact le_trans (Nat.le_of_mul_le_mul_right this (Nat.two_pow_pos k)) hm
  · have hdvd : 2 ^ l ∣ x.natAbs % y.natAbs := by
      refine (Nat.dvd_mod_iff ?_).mpr ?_
      · exact hyl ▸ Nat.dvd_mul_left _ _
      · exact hxk ▸ (pow_dvd_pow 2 hlk).mul_left m
    obtain ⟨c, hc⟩ := hdvd
    refine ⟨c, l, ?_, by rw [hc, mul_comm]⟩
    have : c * 2 ^ l ≤ n * 2 ^ l := by rw [mul_comm, ← hc, ← hyl]; exact hmod.le
    exact le_trans (Nat.le_of_mul_le_mul_right this (Nat.two_pow_pos l)) hn

/-- Half of a representable integer, truncated, is representable. -/
theorem roundInt_tdiv_two {p : ℕ} (hp : 0 < p) {x : ℤ} (hx : roundInt p x = x) :
    roundInt p (x.tdiv 2) = x.tdiv 2 := by
  obtain ⟨m, k, hm, hxk⟩ := (roundInt_eq_self_iff hp).mp hx
  rw [roundInt_eq_self_iff hp, Int.natAbs_tdiv, hxk]
  rcases k with _ | k
  · refine ⟨m / 2, 0, le_trans (Nat.div_le_self m 2) hm, ?_⟩
    rw [pow_zero, mul_one, mul_one]
    rfl
  · refine ⟨m, k, hm, ?_⟩
    rw [pow_succ, ← mul_assoc]
    exact Nat.mul_div_cancel _ (by norm_num)

end RoundNearest
