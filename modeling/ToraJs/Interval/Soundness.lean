import Mathlib.Algebra.Order.Ring.Int
import ToraJs.Interval.Machine

/-!
# When a transfer function contains the machine's result

Each operation has a lemma about its interval, and the operations that can lose the
result have a condition on the operands: the integer ones that wrap, and the float
ones that round.  The last section assembles them, and shows that the interval of an
instruction contains the run-time result exactly under its condition.
-/

namespace Torajs

/-! ### Conditions -/

/-- The exact result `s` of an integer operation is a machine integer, or wraps to a
value that is still between the ends `l` and `h` of the operation on the facts. -/
def WrapKept (l h s : ℤ) : Prop :=
  (I64_MIN ≤ s ∧ s ≤ I64_MAX) ∨ (l ≤ s.bmod (2 ^ 64) ∧ s.bmod (2 ^ 64) ≤ h)

/-- The exact result `z` of a float operation rounds to a finite double, and not across
an end of the operation on the facts that stays closed: the lower end `l` unless it is at
or below `-2^53`, the upper end `h` unless it is at or above `2^53`. -/
def RoundKept (l h z : ℤ) : Prop :=
  (RoundNearest.roundInt 53 z).natAbs < 2 ^ 1024 ∧
    (l ≤ -F64_EXACT ∨ clamp l ≤ RoundNearest.roundInt 53 z) ∧
    (F64_EXACT ≤ h ∨ RoundNearest.roundInt 53 z ≤ clamp h)

/-- The least of the four corner products of two facts. -/
def mulLo (fa fb : NumFact) : ℤ :=
  min (min (min (fa.lo * fb.lo) (fa.lo * fb.hi)) (fa.hi * fb.lo)) (fa.hi * fb.hi)

/-- The greatest of the four corner products of two facts. -/
def mulHi (fa fb : NumFact) : ℤ :=
  max (max (max (fa.lo * fb.lo) (fa.lo * fb.hi)) (fa.hi * fb.lo)) (fa.hi * fb.hi)

/-- The condition of a binary operation on two facts and two operand values. -/
def BinaryKept (op : BinOp) (fa fb : NumFact) (x y : ℤ) : Prop :=
  match op with
  | .add => WrapKept (fa.lo + fb.lo) (fa.hi + fb.hi) (x + y)
  | .sub => WrapKept (fa.lo - fb.hi) (fa.hi - fb.lo) (x - y)
  | .mul => WrapKept (mulLo fa fb) (mulHi fa fb) (x * y)
  | .fAdd => RoundKept (fa.lo + fb.lo) (fa.hi + fb.hi) (x + y)
  | .fSub => RoundKept (fa.lo - fb.hi) (fa.hi - fb.lo) (x - y)
  | .fMul => RoundKept (mulLo fa fb) (mulHi fa fb) (x * y)
  | _ => True

/-- The condition of an integer division by `d`: `i64::MIN / -1` wraps, and needs an open
upper end. -/
def DivKept (d : ℤ) (fa : NumFact) (x : ℤ) : Prop :=
  d = -1 → x = I64_MIN → I64_MAX < fa.hi

/-- The condition of halving an even double: a half beyond the machine range has its end
replaced by a sentinel, which it must not be inside of. -/
def HalfKept (fa : NumFact) (x : ℤ) : Prop :=
  (fa.lo.tdiv 2 ≤ I64_MAX ∨ POS_INF ≤ x.tdiv 2) ∧ (I64_MIN ≤ fa.hi.tdiv 2 ∨ x.tdiv 2 ≤ NEG_INF)

/-- The condition of a binary instruction on the facts and the values of its operands. -/
def BinOpKept (op : BinOp) (a b : Operand) (env : Operand → AbsVal) (isEven : Operand → Bool)
    (ρ : ValueId → Val) : Prop :=
  match op with
  | .add | .sub | .mul | .fAdd | .fSub | .fMul =>
    ∀ fa fb x y, env a = .fact fa → env b = .fact fb → (a.eval ρ).toInt? = some x →
      (b.eval ρ).toInt? = some y → BinaryKept op fa fb x y
  | .sDiv => ∀ fa d x, env a = .fact fa → opConstInt b = some d → (a.eval ρ).toInt? = some x →
      DivKept d fa x
  | .fDiv => ∀ fa x, env a = .fact fa → opConstInt b = some 2 → isEven a = true →
      (a.eval ρ).toInt? = some x → HalfKept fa x
  | _ => True

/-- The condition under which an instruction's interval contains its result. -/
def TransferKept (kind : InstKind) (env : Operand → AbsVal) (isEven : Operand → Bool)
    (ρ : ValueId → Val) : Prop :=
  match kind with
  | .binOp op a b => BinOpKept op a b env isEven ρ
  | .siToFp a => ∀ f x, env a = .fact f → (a.eval ρ).toInt? = some x → RoundKept f.lo f.hi x
  | _ => True

/-! ### Wrapping integer operations -/

/-- A machine integer is its own wrapped value. -/
lemma bmod_of_i64 {s : ℤ} (h₁ : I64_MIN ≤ s) (h₂ : s ≤ I64_MAX) : s.bmod (2 ^ 64) = s := by
  unfold I64_MIN at h₁
  unfold I64_MAX at h₂
  apply Int.bmod_eq_of_le_mul_two
  · push_cast
    omega
  · push_cast
    omega

/-- Between the exact ends, the wrapped result is kept exactly under the condition. -/
lemma wrapKept_iff {l h s : ℤ} (hl : l ≤ s) (hh : s ≤ h) :
    (l ≤ s.bmod (2 ^ 64) ∧ s.bmod (2 ^ 64) ≤ h) ↔ WrapKept l h s := by
  constructor
  · exact Or.inr
  · rintro (⟨h₁, h₂⟩ | hw)
    · rw [bmod_of_i64 h₁ h₂]
      exact ⟨hl, hh⟩
    · exact hw

section Wrapping

variable {fa fb : NumFact} {x y : BitVec 64}

/-- Addition. -/
lemma addIv_contains_iff (ha : fa.lo ≤ x.toInt ∧ x.toInt ≤ fa.hi)
    (hb : fb.lo ≤ y.toInt ∧ y.toInt ≤ fb.hi) :
    (AbsVal.fact (addIv fa fb)).Contains (.gpr (x + y)) ↔
      WrapKept (fa.lo + fb.lo) (fa.hi + fb.hi) (x.toInt + y.toInt) := by
  unfold addIv
  rw [contains_clampFact_iff, BitVec.toInt_add]
  have hlo : fa.lo + fb.lo ≤ x.toInt + y.toInt := by omega
  exact wrapKept_iff hlo (by change _ ≤ fa.hi + fb.hi; omega)

/-- Subtraction. -/
lemma subIv_contains_iff (ha : fa.lo ≤ x.toInt ∧ x.toInt ≤ fa.hi)
    (hb : fb.lo ≤ y.toInt ∧ y.toInt ≤ fb.hi) :
    (AbsVal.fact (subIv fa fb)).Contains (.gpr (x - y)) ↔
      WrapKept (fa.lo - fb.hi) (fa.hi - fb.lo) (x.toInt - y.toInt) := by
  unfold subIv
  rw [contains_clampFact_iff, BitVec.toInt_sub]
  have hlo : fa.lo - fb.hi ≤ x.toInt - y.toInt := by omega
  exact wrapKept_iff hlo (by change _ ≤ fa.hi - fb.lo; omega)

/-- The interval of a product is the hull of the corner products, clamped. -/
lemma mulIv_eq (fa fb : NumFact) : mulIv fa fb = clampFact ⟨mulLo fa fb, mulHi fa fb⟩ := by
  have hmono : Monotone clamp := fun _ _ => clamp_mono
  unfold mulIv clampFact mulLo mulHi
  simp only [mulCorner_eq, hmono.map_min, hmono.map_max]

/-- A product with one factor in an interval lies between the products with its ends. -/
lemma mul_mem_hull {a b z w : ℤ} (ha : a ≤ z) (hb : z ≤ b) :
    min (a * w) (b * w) ≤ z * w ∧ z * w ≤ max (a * w) (b * w) := by
  rcases le_total 0 w with hw | hw
  · exact ⟨le_trans (min_le_left _ _) (mul_le_mul_of_nonneg_right ha hw),
      le_trans (mul_le_mul_of_nonneg_right hb hw) (le_max_right _ _)⟩
  · exact ⟨le_trans (min_le_right _ _) (mul_le_mul_of_nonpos_right hb hw),
      le_trans (mul_le_mul_of_nonpos_right ha hw) (le_max_left _ _)⟩

/-- A product of two integers inside the facts lies in the hull of the corners. -/
lemma mul_mem_corners {fa fb : NumFact} {z w : ℤ} (ha : fa.lo ≤ z ∧ z ≤ fa.hi)
    (hb : fb.lo ≤ w ∧ w ≤ fb.hi) : mulLo fa fb ≤ z * w ∧ z * w ≤ mulHi fa fb := by
  have h := mul_mem_hull (w := w) ha.1 ha.2
  have hlo := mul_mem_hull (w := fa.lo) hb.1 hb.2
  have hhi := mul_mem_hull (w := fa.hi) hb.1 hb.2
  simp only [mul_comm _ fa.lo, mul_comm _ fa.hi] at hlo hhi
  unfold mulLo mulHi
  omega

/-- Multiplication. -/
lemma mulIv_contains_iff (ha : fa.lo ≤ x.toInt ∧ x.toInt ≤ fa.hi)
    (hb : fb.lo ≤ y.toInt ∧ y.toInt ≤ fb.hi) :
    (AbsVal.fact (mulIv fa fb)).Contains (.gpr (x * y)) ↔
      WrapKept (mulLo fa fb) (mulHi fa fb) (x.toInt * y.toInt) := by
  obtain ⟨hlo, hhi⟩ := mul_mem_corners ha hb
  rw [mulIv_eq, contains_clampFact_iff, BitVec.toInt_mul]
  exact wrapKept_iff hlo hhi

/-- Negation of a value above `i64::MIN`. -/
lemma neg_contains (ha : fa.lo ≤ x.toInt ∧ x.toInt ≤ fa.hi) (hlo : I64_MIN < fa.lo) :
    (AbsVal.fact (subIv (.point 0) fa)).Contains (.gpr (-x)) := by
  have hx := i64_bounds x
  unfold subIv NumFact.point
  have hneg : (-x).toInt = -x.toInt := by
    rw [BitVec.toInt_neg]
    unfold I64_MIN I64_MAX at *
    exact bmod_of_i64 (by unfold I64_MIN; omega) (by unfold I64_MAX; omega)
  rw [contains_clampFact_iff, hneg]
  simp only
  omega

end Wrapping

/-! ### Division, remainder and shifts by a constant -/

section ByConstant

variable {fa : NumFact} {x y : BitVec 64} {d : ℤ}

/-- Truncating division is monotone or antitone in the dividend. -/
lemma tdiv_mem_hull {a b z : ℤ} (ha : a ≤ z) (hb : z ≤ b) (d : ℤ) :
    min (a.tdiv d) (b.tdiv d) ≤ z.tdiv d ∧ z.tdiv d ≤ max (a.tdiv d) (b.tdiv d) := by
  rcases lt_trichotomy d 0 with hd | rfl | hd
  · have h₁ := Int.tdiv_le_tdiv (c := -d) (by omega) ha
    have h₂ := Int.tdiv_le_tdiv (c := -d) (by omega) hb
    simp only [Int.tdiv_neg] at h₁ h₂
    omega
  · simp
  · have h₁ := Int.tdiv_le_tdiv hd ha
    have h₂ := Int.tdiv_le_tdiv hd hb
    omega

/-- A quotient of machine integers is a machine integer, but for `i64::MIN / -1`. -/
lemma tdiv_i64 (x : BitVec 64) {d : ℤ} (h : ¬(x.toInt = I64_MIN ∧ d = -1)) :
    I64_MIN ≤ x.toInt.tdiv d ∧ x.toInt.tdiv d ≤ I64_MAX := by
  obtain ⟨h₁, h₂⟩ := i64_bounds x
  unfold I64_MIN I64_MAX at *
  have habs : (x.toInt.tdiv d).natAbs = x.toInt.natAbs / d.natAbs := Int.natAbs_tdiv _ _
  by_cases hd : d.natAbs = 1
  · rcases Int.natAbs_eq_iff.mp hd with rfl | rfl
    · rw [Nat.cast_one, Int.tdiv_one]
      omega
    · rw [Nat.cast_one, Int.tdiv_neg, Int.tdiv_one]
      omega
  · -- a divisor of magnitude other than one at least halves the dividend, or is zero
    have hhalf : x.toInt.natAbs / d.natAbs ≤ x.toInt.natAbs / 2 := by
      rcases Nat.eq_zero_or_pos d.natAbs with h0 | hpos
      · rw [h0, Nat.div_zero]
        exact Nat.zero_le _
      · exact Nat.div_le_div_left (by omega) (by decide)
    omega

/-- Division by a constant contains the result, but for `i64::MIN / -1` under a fact
with a closed upper end. -/
lemma divIv_contains_iff (ha : fa.lo ≤ x.toInt ∧ x.toInt ≤ fa.hi) (hd : y.toInt = d) :
    (AbsVal.fact (divIv fa d)).Contains (.gpr (x.sdiv y)) ↔ DivKept d fa x.toInt := by
  unfold divIv DivKept
  rw [contains_clampFact_iff, BitVec.toInt_sdiv, hd]
  have hull := tdiv_mem_hull ha.1 ha.2 d
  by_cases h : x.toInt = I64_MIN ∧ d = -1
  · obtain ⟨hx, rfl⟩ := h
    have hw : (I64_MIN.tdiv (-1)).bmod (2 ^ 64) = I64_MIN := by decide
    rw [hx] at ha ⊢
    have hle : fa.lo ≤ fa.hi := le_trans ha.1 ha.2
    rw [hw]
    simp only [Int.tdiv_neg, Int.tdiv_one, max_eq_left (neg_le_neg hle),
      min_eq_right (neg_le_neg hle)]
    unfold I64_MIN I64_MAX at *
    constructor
    · intro h _ _
      omega
    · intro h
      have := h trivial trivial
      omega
  · obtain ⟨h₁, h₂⟩ := tdiv_i64 x h
    rw [bmod_of_i64 h₁ h₂]
    exact ⟨fun _ hd hx => absurd ⟨hx, hd⟩ h, fun _ => hull⟩

/-- The interval of a remainder contains the remainder, for integers of any size. -/
lemma remIv_contains {f : NumFact} {z d : ℤ} (hf : f.Contains z) (hd : d ≠ 0) :
    (remIv f d).Contains (z.tmod d) := by
  have hlt : (z.tmod d).natAbs < d.natAbs := by
    rw [Int.natAbs_tmod]
    exact Nat.mod_lt _ (Int.natAbs_pos.mpr hd)
  have hpos : 0 ≤ z → 0 ≤ z.tmod d := fun h => Int.tmod_nonneg d h
  have hneg : z ≤ 0 → z.tmod d ≤ 0 := fun h => by
    have := Int.tmod_nonneg d (a := -z) (by omega)
    rw [Int.neg_tmod] at this
    omega
  unfold NumFact.Contains remIv NEG_INF POS_INF at *
  simp only
  refine ⟨Or.inr ?_, Or.inr ?_⟩
  · split_ifs <;> omega
  · split_ifs <;> omega

/-- Arithmetic shift right, and logical shift right of a non-negative value. -/
lemma ashrIv_contains (ha : fa.lo ≤ x.toInt ∧ x.toInt ≤ fa.hi) {k : ℤ} {r : BitVec 64}
    (hr : 0 ≤ k → k < 64 → r.toInt = x.toInt >>> k.toNat) :
    (AbsVal.fact (ashrIv fa k)).Contains (.gpr r) := by
  unfold ashrIv
  split_ifs with h
  · rw [contains_clampFact_iff, hr h.1 h.2]
    simp only [Int.shiftRight_eq_div_pow]
    exact ⟨Int.ediv_le_ediv (by positivity) ha.1, Int.ediv_le_ediv (by positivity) ha.2⟩
  · exact contains_fullI64 r

/-- A register holding a shift amount in range shifts by that amount. -/
lemma toNat_mod_of_toInt_eq {k : ℤ} (hk : y.toInt = k) (h₁ : 0 ≤ k) (h₂ : k < 64) :
    y.toNat % 64 = k.toNat := by
  have := BitVec.toInt_eq_toNat_cond y
  split at this <;> omega

/-- A left shift that stays inside the machine range multiplies. -/
lemma toInt_shiftLeft_eq {k : ℕ} (h₁ : I64_MIN ≤ x.toInt * 2 ^ k)
    (h₂ : x.toInt * 2 ^ k ≤ I64_MAX) : (x <<< k).toInt = x.toInt * 2 ^ k := by
  calc (x <<< k).toInt = ((x.toNat : ℤ) * 2 ^ k).bmod (2 ^ 64) := by
        rw [BitVec.toInt_shiftLeft, Nat.shiftLeft_eq]
        push_cast
        rfl
    _ = (x.toInt * 2 ^ k).bmod (2 ^ 64) := by
        rw [BitVec.toInt_eq_toNat_bmod x, Int.bmod_mul_bmod]
    _ = x.toInt * 2 ^ k := bmod_of_i64 h₁ h₂

/-- Shift left. -/
lemma shlIv_contains (ha : fa.lo ≤ x.toInt ∧ x.toInt ≤ fa.hi) {k : ℤ} (hk : y.toInt = k) :
    (AbsVal.fact (shlIv fa k)).Contains (.gpr (x <<< (y.toNat % 64))) := by
  unfold shlIv
  split_ifs with h₁ h₂ h₃
  · rw [toNat_mod_of_toInt_eq hk h₁.1 h₁.2, h₂, Int.toNat_zero, BitVec.shiftLeft_zero,
      contains_gpr_iff]
    exact ha
  · exact contains_fullI64 _
  · rw [not_or, not_lt, not_lt, Int.shiftRight_eq_div_pow, Int.shiftRight_eq_div_pow] at h₃
    have hpos : (0 : ℤ) < 2 ^ k.toNat := by positivity
    have hdiv : (2 ^ k.toNat : ℤ) ∣ I64_MIN := by
      unfold I64_MIN
      exact Int.dvd_neg.mpr (pow_dvd_pow 2 (by omega))
    have hlo : I64_MIN ≤ x.toInt * 2 ^ k.toNat := by
      have h := le_trans h₃.1 ha.1
      push_cast at h
      calc I64_MIN = I64_MIN / 2 ^ k.toNat * 2 ^ k.toNat := (Int.ediv_mul_cancel hdiv).symm
        _ ≤ x.toInt * 2 ^ k.toNat := mul_le_mul_of_nonneg_right h hpos.le
    have hhi : x.toInt * 2 ^ k.toNat ≤ I64_MAX := by
      have h := le_trans ha.2 h₃.2
      push_cast at h
      exact (Int.le_ediv_iff_mul_le hpos).mp h
    rw [toNat_mod_of_toInt_eq hk h₁.1 h₁.2, mulIv_eq, contains_clampFact_iff,
      toInt_shiftLeft_eq hlo hhi]
    have hpoint : (NumFact.point (2 ^ k.toNat)).lo ≤ 2 ^ k.toNat ∧
        2 ^ k.toNat ≤ (NumFact.point (2 ^ k.toNat)).hi := ⟨le_rfl, le_rfl⟩
    exact mul_mem_corners ha hpoint
  · exact contains_fullI64 _

end ByConstant

/-! ### Bit operations and conversions -/

section Bits

variable {x y : BitVec 64}

/-- The signed value of a register whose unsigned value is below the sign bit. -/
lemma toInt_of_toNat_lt (h : x.toNat < 2 ^ 63) : x.toInt = x.toNat := by
  have := BitVec.toInt_eq_toNat_cond x
  split at this <;> omega

/-- A register with a non-negative signed value has it as its unsigned value. -/
lemma toNat_of_nonneg (h : 0 ≤ x.toInt) : (x.toNat : ℤ) = x.toInt ∧ x.toNat < 2 ^ 63 := by
  have := BitVec.toInt_eq_toNat_cond x
  have := x.isLt
  split at * <;> omega

/-- A conjunction with a non-negative operand is between zero and that operand. -/
lemma and_le_left (h : 0 ≤ x.toInt) : 0 ≤ (x &&& y).toInt ∧ (x &&& y).toInt ≤ x.toInt := by
  obtain ⟨hx, hlt⟩ := toNat_of_nonneg h
  have hle : (x &&& y).toNat ≤ x.toNat := by
    rw [BitVec.toNat_and]
    exact Nat.and_le_left
  rw [toInt_of_toNat_lt (lt_of_le_of_lt hle hlt)]
  omega

/-- The all-ones cover of a bound covers every smaller number. -/
lemma toNat_lt_of_le_orBound {n : ℕ} {m : ℤ} (h : (n : ℤ) ≤ m) :
    ∃ k, orBound m = 2 ^ k - 1 ∧ n < 2 ^ k := by
  unfold orBound
  split_ifs with hm
  · exact ⟨0, by simp, by simp; omega⟩
  · refine ⟨m.toNat.log2 + 1, rfl, ?_⟩
    have : n ≤ m.toNat := by omega
    exact lt_of_le_of_lt this Nat.lt_log2_self

/-- A disjunction or exclusive disjunction of non-negative operands. -/
lemma orBound_contains {fa fb : NumFact} {r : BitVec 64} (hx0 : 0 ≤ x.toInt) (hy0 : 0 ≤ y.toInt)
    (hx : x.toInt ≤ fa.hi) (hy : y.toInt ≤ fb.hi)
    (hr : ∀ k, x.toNat < 2 ^ k → y.toNat < 2 ^ k → r.toNat < 2 ^ k) :
    (AbsVal.fact (clampFact ⟨0, orBound (max fa.hi fb.hi)⟩)).Contains (.gpr r) := by
  obtain ⟨hxn, hxlt⟩ := toNat_of_nonneg hx0
  obtain ⟨hyn, hylt⟩ := toNat_of_nonneg hy0
  have hmax : ((max x.toNat y.toNat : ℕ) : ℤ) ≤ max fa.hi fb.hi := by omega
  obtain ⟨k, hk, hlt⟩ := toNat_lt_of_le_orBound hmax
  have hrk : r.toNat < 2 ^ k := hr k (by omega) (by omega)
  rw [contains_clampFact_iff, toInt_of_toNat_lt (hr 63 hxlt hylt)]
  have : (r.toNat : ℤ) < 2 ^ k := by exact_mod_cast hrk
  simp only [hk]
  omega

/-- The logical shift of a non-negative value is its arithmetic shift. -/
lemma toInt_ushiftRight_of_nonneg (h : 0 ≤ x.toInt) (k : ℕ) :
    (x >>> k).toInt = x.toInt >>> k := by
  obtain ⟨hx, hlt⟩ := toNat_of_nonneg h
  have hle : (x >>> k).toNat ≤ x.toNat := by
    rw [BitVec.toNat_ushiftRight]
    exact Nat.shiftRight_le _ _
  rw [toInt_of_toNat_lt (lt_of_le_of_lt hle hlt), BitVec.toNat_ushiftRight, ← hx]
  rfl

/-- A zero-extended value of fewer bits is non-negative and below its power of two. -/
lemma setWidth_contains {w : ℕ} (z : BitVec w) (hw : w < 64) :
    (AbsVal.fact ⟨0, 2 ^ w - 1⟩).Contains (.gpr (z.setWidth 64)) := by
  have hz : (z.setWidth 64).toNat = z.toNat := by
    rw [BitVec.toNat_setWidth]
    exact Nat.mod_eq_of_lt (lt_trans z.isLt (Nat.pow_lt_pow_right (by norm_num) hw))
  have hlt : z.toNat < 2 ^ 63 :=
    lt_of_lt_of_le z.isLt (Nat.pow_le_pow_right (by norm_num) (by omega))
  have hpow : (z.toNat : ℤ) < 2 ^ w := by exact_mod_cast z.isLt
  rw [contains_gpr_iff, toInt_of_toNat_lt (by rw [hz]; exact hlt), hz]
  simp only
  omega

/-- A count of at most the register width. -/
lemma ofNat_le_contains {n : ℕ} (h : n ≤ 64) :
    (AbsVal.fact ⟨0, 64⟩).Contains (.gpr (BitVec.ofNat 64 n)) := by
  have hn : (BitVec.ofNat 64 n).toNat = n := by
    rw [BitVec.toNat_ofNat]
    exact Nat.mod_eq_of_lt (by omega)
  rw [contains_gpr_iff, toInt_of_toNat_lt (by omega), hn]
  simp only
  omega

/-- A sign-extended 32-bit value. -/
lemma signExtend_contains (z : BitVec 32) :
    (AbsVal.fact ⟨-2 ^ 31, 2 ^ 31 - 1⟩).Contains (.gpr (z.signExtend 64)) := by
  have h₁ := BitVec.le_toInt z
  have h₂ := BitVec.toInt_lt (x := z)
  rw [contains_gpr_iff, BitVec.toInt_signExtend_of_le (by norm_num)]
  norm_num at h₁ h₂ ⊢
  omega

/-- The truncating conversion of a double inside the machine range is exact. -/
lemma toInt_fcvtzs {n : ℤ} (h₁ : I64_MIN ≤ n) (h₂ : n ≤ I64_MAX) : (fcvtzs n).toInt = n := by
  unfold fcvtzs
  rw [min_eq_right h₂, max_eq_right h₁, BitVec.toInt_ofInt]
  exact bmod_of_i64 h₁ h₂

end Bits

/-! ### Float operations -/

/-- The meaning of a fact for a float register. -/
lemma contains_fpr_ofExact_iff (f : NumFact) (z : ℤ) :
    (AbsVal.fact f).Contains (.fpr (.ofExact z)) ↔
      (RoundNearest.roundInt 53 z).natAbs < 2 ^ 1024 ∧
        f.Contains (RoundNearest.roundInt 53 z) := by
  simp only [AbsVal.Contains, Val.toInt?, Double.toInt?_ofExact]
  split_ifs with h
  · simp only [Option.some.injEq, exists_eq_left', h, true_and]
  · simp only [false_and, exists_false, h]

/-- The fact of a float operation, computed from clamped ends, contains the result
exactly under the rounding condition. -/
lemma clamp53_contains_iff (l h z : ℤ) :
    (AbsVal.fact (clamp53 (clampFact ⟨l, h⟩))).Contains (.fpr (.ofExact z)) ↔
      RoundKept l h z := by
  rw [contains_fpr_ofExact_iff]
  unfold RoundKept
  refine and_congr_right fun _ => ?_
  generalize RoundNearest.roundInt 53 z = v
  unfold NumFact.Contains clamp53 clampFact clamp F64_EXACT I64_MIN I64_MAX NEG_INF POS_INF
  simp only
  split_ifs <;> omega

/-- A lower end that rounding cannot cross: at most `2^53`, or open. -/
lemma le_roundInt_of_le {l z : ℤ} (hl : l ≤ F64_EXACT) (h : l ≤ z) :
    l ≤ -F64_EXACT ∨ clamp l ≤ RoundNearest.roundInt 53 z := by
  unfold F64_EXACT at *
  by_cases hneg : l ≤ -2 ^ 53
  · exact Or.inl hneg
  · right
    have hfix : RoundNearest.roundInt 53 l = l :=
      RoundNearest.roundInt_of_abs_le (by norm_num) (by rw [abs_le]; omega)
    have hclamp : clamp l = l := by
      unfold clamp I64_MIN I64_MAX
      rw [if_neg (by omega), if_neg (by omega)]
    rw [hclamp, ← hfix]
    exact RoundNearest.roundInt_mono (by norm_num) h

/-- An upper end that rounding cannot cross: at least `-2^53`, or open. -/
lemma roundInt_le_of_le {h z : ℤ} (hh : -F64_EXACT ≤ h) (hz : z ≤ h) :
    F64_EXACT ≤ h ∨ RoundNearest.roundInt 53 z ≤ clamp h := by
  unfold F64_EXACT at *
  by_cases hpos : 2 ^ 53 ≤ h
  · exact Or.inl hpos
  · right
    have hfix : RoundNearest.roundInt 53 h = h :=
      RoundNearest.roundInt_of_abs_le (by norm_num) (by rw [abs_le]; omega)
    have hclamp : clamp h = h := by
      unfold clamp I64_MIN I64_MAX
      rw [if_neg (by omega), if_neg (by omega)]
    rw [hclamp, ← hfix]
    exact RoundNearest.roundInt_mono (by norm_num) hz

/-- A float operation is sound while the ends stay on the exact side: its lower end at
most `2^53`, its upper end at least `-2^53`, and its result finite. -/
theorem roundKept_of_small {l h z : ℤ} (hl : l ≤ z) (hh : z ≤ h) (hl53 : l ≤ F64_EXACT)
    (hh53 : -F64_EXACT ≤ h) (hfin : (RoundNearest.roundInt 53 z).natAbs < 2 ^ 1024) :
    RoundKept l h z :=
  ⟨hfin, le_roundInt_of_le hl53 hl, roundInt_le_of_le hh53 hh⟩

/-- The conversion of a machine integer. -/
lemma siToFp_contains_iff {f : NumFact} {x : BitVec 64} (ha : f.lo ≤ x.toInt ∧ x.toInt ≤ f.hi) :
    (AbsVal.fact (clamp53 f)).Contains (.fpr (.ofExact x.toInt)) ↔
      RoundKept f.lo f.hi x.toInt := by
  obtain ⟨h₁, h₂⟩ := i64_bounds x
  have hv₁ : -2 ^ 63 ≤ RoundNearest.roundInt 53 x.toInt := by
    have hfix : RoundNearest.roundInt 53 (-2 ^ 63) = -2 ^ 63 := by decide
    exact hfix ▸ RoundNearest.roundInt_mono (by norm_num) h₁
  have hv₂ : RoundNearest.roundInt 53 x.toInt ≤ 2 ^ 63 := by
    have hfix : RoundNearest.roundInt 53 I64_MAX = 2 ^ 63 := by decide
    exact hfix ▸ RoundNearest.roundInt_mono (by norm_num) h₂
  rw [contains_fpr_ofExact_iff]
  unfold RoundKept
  refine and_congr_right fun _ => ?_
  generalize RoundNearest.roundInt 53 x.toInt = v at *
  unfold NumFact.Contains clamp53 clamp F64_EXACT NEG_INF POS_INF
  unfold I64_MIN I64_MAX at *
  simp only
  split_ifs <;> omega

/-- The truncated half of an integer. -/
lemma tdiv_two_bounds (z : ℤ) :
    (0 ≤ z ∧ 2 * z.tdiv 2 ≤ z ∧ z ≤ 2 * z.tdiv 2 + 1) ∨
      (z ≤ 0 ∧ z ≤ 2 * z.tdiv 2 ∧ 2 * z.tdiv 2 ≤ z + 1) := by
  rcases le_total 0 z with hz | hz
  · have h := Int.tdiv_eq_ediv_of_nonneg (b := 2) hz
    omega
  · have h := Int.tdiv_eq_ediv_of_nonneg (a := -z) (b := 2) (by omega)
    rw [Int.neg_tdiv] at h
    omega

/-- Halving an even double. -/
lemma half_contains_iff {fa : NumFact} {m : IntDouble} (ha : fa.Contains m.val) (hm : 2 ∣ m.val) :
    (AbsVal.fact (divIv fa 2)).Contains (.fpr (.ofExact (m.val / 2))) ↔ HalfKept fa m.val := by
  have hdiv : m.val / 2 = m.val.tdiv 2 := (Int.tdiv_eq_ediv_of_dvd hm).symm
  have hfix : RoundNearest.roundInt 53 (m.val.tdiv 2) = m.val.tdiv 2 :=
    RoundNearest.roundInt_tdiv_two (by norm_num) m.fixed
  have hfin : (m.val.tdiv 2).natAbs < 2 ^ 1024 := by
    rw [Int.natAbs_tdiv]
    exact lt_of_le_of_lt (Nat.div_le_self _ _) m.finite
  rw [hdiv, contains_fpr_ofExact_iff, hfix]
  simp only [hfin, true_and]
  have hx := tdiv_two_bounds m.val
  have hlo := tdiv_two_bounds fa.lo
  have hhi := tdiv_two_bounds fa.hi
  unfold HalfKept divIv clampFact
  unfold NumFact.Contains at *
  generalize fa.lo.tdiv 2 = l, fa.hi.tdiv 2 = h, m.val.tdiv 2 = v at *
  unfold clamp I64_MIN I64_MAX NEG_INF POS_INF at *
  refine and_congr ?_ ?_
  · simp only
    split_ifs <;> omega
  · simp only
    split_ifs <;> omega

/-! ### The arms of `eval_inst` -/

section Arms

variable {va vb : AbsVal} {rx ry r : Val} {ty : SsaType}

/-- A binary arm contains the result when the transfer of the two facts does; without
two facts the result is opaque. -/
lemma binary_contains_iff {g : NumFact → NumFact → NumFact} {P : NumFact → NumFact → Prop}
    (ha : va.Contains rx) (hb : vb.Contains ry) (hty : ty.Holds r)
    (h : ∀ fa fb, va = .fact fa → vb = .fact fb → ((AbsVal.fact (g fa fb)).Contains r ↔ P fa fb)) :
    (binary ty g va vb).Contains r ↔ ∀ fa fb, va = .fact fa → vb = .fact fb → P fa fb := by
  cases va with
  | bottom => exact ha.elim
  | top =>
    cases vb with
    | bottom => exact hb.elim
    | _ => exact ⟨fun _ _ _ h => (by cases h), fun _ => contains_opaqueResult hty⟩
  | fact fa =>
    cases vb with
    | bottom => exact hb.elim
    | top => exact ⟨fun _ _ _ _ h => (by cases h), fun _ => contains_opaqueResult hty⟩
    | fact fb =>
      refine (h fa fb rfl rfl).trans ⟨?_, fun hP => hP fa fb rfl rfl⟩
      rintro hP _ _ ⟨⟩ ⟨⟩
      exact hP

/-- An arm by a constant contains the result when the transfer of the fact does, where
it applies; elsewhere the default does. -/
lemma withConst_contains_iff {k : Option ℤ} {g : NumFact → ℤ → Option NumFact} {dflt : AbsVal}
    {P : NumFact → ℤ → Prop} (ha : va.Contains rx) (hd : dflt.Contains r)
    (hsome : ∀ fa d f, va = .fact fa → k = some d → g fa d = some f →
      ((AbsVal.fact f).Contains r ↔ P fa d))
    (hnone : ∀ fa d, g fa d = none → P fa d) :
    (withConst va k g dflt).Contains r ↔ ∀ fa d, va = .fact fa → k = some d → P fa d := by
  cases va with
  | bottom => exact ha.elim
  | top => cases k <;> exact ⟨fun _ _ _ h => (by cases h), fun _ => hd⟩
  | fact fa =>
    cases k with
    | none => exact ⟨fun _ _ _ _ h => (by cases h), fun _ => hd⟩
    | some d =>
      have hforall : (∀ fa' d', AbsVal.fact fa = .fact fa' → some d = some d' → P fa' d') ↔
          P fa d := by
        refine ⟨fun h => h fa d rfl rfl, ?_⟩
        rintro h _ _ ⟨⟩ ⟨⟩
        exact h
      rw [hforall]
      simp only [withConst]
      split
      · next f hg => exact hsome fa d f rfl rfl hg
      · next hg => exact iff_of_true hd (hnone fa d hg)

/-- An arm by a constant whose transfer is always right. -/
lemma withConst_contains {k : Option ℤ} {g : NumFact → ℤ → Option NumFact} {dflt : AbsVal}
    (ha : va.Contains rx) (hd : dflt.Contains r)
    (h : ∀ fa d f, va = .fact fa → k = some d → g fa d = some f → (AbsVal.fact f).Contains r) :
    (withConst va k g dflt).Contains r := by
  refine (withConst_contains_iff (P := fun _ _ => True) ha hd ?_ fun _ _ _ => trivial).mpr
    fun _ _ _ _ => trivial
  exact fun fa d f hf hk hg => iff_of_true (h fa d f hf hk hg) trivial

/-- A non-negative upper end bounds the register. -/
lemma nonnegHi_bounds {x : BitVec 64} {u : ℤ} (ha : va.Contains (.gpr x))
    (hu : nonnegHi va = some u) : 0 ≤ x.toInt ∧ x.toInt ≤ u := by
  cases va with
  | bottom => exact ha.elim
  | top => cases hu
  | fact f =>
    rw [contains_gpr_iff] at ha
    simp only [nonnegHi] at hu
    split_ifs at hu with hlo
    have := Option.some.inj hu
    omega

/-- The `And` arm. -/
lemma evalAnd_contains {x y : BitVec 64} (ha : va.Contains (.gpr x)) (hb : vb.Contains (.gpr y)) :
    (evalAnd va vb).Contains (.gpr (x &&& y)) := by
  have hleft : ∀ u, nonnegHi va = some u → 0 ≤ (x &&& y).toInt ∧ (x &&& y).toInt ≤ u := by
    intro u hu
    obtain ⟨h0, hle⟩ := nonnegHi_bounds ha hu
    have := and_le_left (y := y) h0
    omega
  have hright : ∀ u, nonnegHi vb = some u → 0 ≤ (x &&& y).toInt ∧ (x &&& y).toInt ≤ u := by
    intro u hu
    obtain ⟨h0, hle⟩ := nonnegHi_bounds hb hu
    have := and_le_left (y := x) h0
    rw [BitVec.and_comm] at this
    omega
  have hbound : (AbsVal.fact (andBound (nonnegHi va) (nonnegHi vb))).Contains
      (.gpr (x &&& y)) := by
    cases hu : nonnegHi va with
    | none =>
      cases hw : nonnegHi vb with
      | none => exact contains_fullI64 _
      | some w => exact (contains_gpr_iff _ _).mpr (hright w hw)
    | some u =>
      cases hw : nonnegHi vb with
      | none => exact (contains_gpr_iff _ _).mpr (hleft u hu)
      | some w =>
        rw [contains_gpr_iff]
        exact ⟨(hleft u hu).1, le_min (hleft u hu).2 (hright w hw).2⟩
  cases va with
  | bottom => exact ha.elim
  | _ =>
    cases vb with
    | bottom => exact hb.elim
    | _ => exact hbound

/-- The `Or` and `Xor` arms. -/
lemma evalOrXor_contains {x y z : BitVec 64} (ha : va.Contains (.gpr x))
    (hb : vb.Contains (.gpr y))
    (hz : ∀ k, x.toNat < 2 ^ k → y.toNat < 2 ^ k → z.toNat < 2 ^ k) :
    (evalOrXor va vb).Contains (.gpr z) := by
  cases va with
  | bottom => exact ha.elim
  | top =>
    cases vb with
    | bottom => exact hb.elim
    | _ => exact contains_fullI64 _
  | fact fa =>
    cases vb with
    | bottom => exact hb.elim
    | top => exact contains_fullI64 _
    | fact fb =>
      rw [contains_gpr_iff] at ha hb
      simp only [evalOrXor]
      split_ifs with h
      · exact orBound_contains (by omega) (by omega) ha.2 hb.2 hz
      · exact contains_fullI64 _

/-- The `FRem` arm: a remainder is exact, so no condition is needed. -/
lemma evalFRem_contains {m n : IntDouble} {k : Option ℤ} (ha : va.Contains (.fpr (.int m)))
    (hb : vb.Contains (.fpr (.int n))) (hn : n.val ≠ 0) (hk : ∀ d, k = some d → n.val = d) :
    (evalFRem va vb k).Contains (.fpr (.ofExact (m.val.tmod n.val))) := by
  have hlt : (m.val.tmod n.val).natAbs < n.val.natAbs := by
    rw [Int.natAbs_tmod]
    exact Nat.mod_lt _ (Int.natAbs_pos.mpr hn)
  have hval : (Double.ofExact (m.val.tmod n.val)).toInt? = some (m.val.tmod n.val) :=
    Double.toInt?_ofExact_of_fixed (RoundNearest.roundInt_tmod (by norm_num) m.fixed n.fixed hn)
      (lt_trans hlt n.finite)
  cases va with
  | bottom => exact ha.elim
  | top => cases k <;> exact trivial
  | fact fa =>
    obtain ⟨_, hx, hfa⟩ := ha
    obtain rfl := Option.some.inj hx
    cases k with
    | some d =>
      obtain rfl := hk d rfl
      simp only [evalFRem, if_pos hn]
      exact ⟨_, hval, remIv_contains hfa hn⟩
    | none =>
      simp only [evalFRem]
      split_ifs with hlo
      · cases vb with
        | bottom => exact hb.elim
        | top => exact trivial
        | fact fb =>
          obtain ⟨_, hy, hfb⟩ := hb
          obtain rfl := Option.some.inj hy
          simp only
          split_ifs with hex
          · refine ⟨_, hval, ?_⟩
            have hm0 : 0 ≤ m.val := by
              unfold NumFact.Contains NEG_INF at hfa
              omega
            have hr0 := Int.tmod_nonneg n.val hm0
            unfold NumFact.Contains NEG_INF POS_INF at *
            simp only
            omega
          · exact trivial
      · exact trivial

/-- The `FRem` arm by a zero divisor claims nothing. -/
lemma evalFRem_contains_of_zero {n : IntDouble} {k : Option ℤ} (ha : va.Contains rx)
    (hb : vb.Contains (.fpr (.int n))) (hn : n.val = 0) (hk : ∀ d, k = some d → n.val = d) :
    (evalFRem va vb k).Contains r := by
  cases va with
  | bottom => exact ha.elim
  | top => cases k <;> exact trivial
  | fact fa =>
    cases k with
    | some d =>
      simp only [evalFRem]
      rw [if_neg (not_not.mpr ((hk d rfl).symm.trans hn))]
      exact trivial
    | none =>
      simp only [evalFRem]
      split_ifs with hlo
      · cases vb with
        | bottom => exact hb.elim
        | top => exact trivial
        | fact fb =>
          obtain ⟨_, hy, hfb⟩ := hb
          obtain rfl := Option.some.inj hy
          simp only
          split_ifs with hex
          · -- a bounded divisor range that excludes zero cannot hold it
            unfold NumFact.Contains at hfb
            omega
          · exact trivial
      · exact trivial

end Arms

/-! ### Soundness of `eval_inst` -/

section Instruction

variable {ρ : ValueId → Val} {env : Operand → AbsVal} {isEven : Operand → Bool} {ty : SsaType}
  {op : BinOp} {a b : Operand}

/-- A condition on the two facts and the two operand values, for operands whose values are
known. -/
lemma forall_values_iff {x y : ℤ} {P : NumFact → NumFact → ℤ → ℤ → Prop}
    (hx : (a.eval ρ).toInt? = some x) (hy : (b.eval ρ).toInt? = some y) :
    (∀ fa fb x y, env a = .fact fa → env b = .fact fb → (a.eval ρ).toInt? = some x →
      (b.eval ρ).toInt? = some y → P fa fb x y) ↔
    ∀ fa fb, env a = .fact fa → env b = .fact fb → P fa fb x y := by
  constructor
  · intro h fa fb ha hb
    exact h fa fb x y ha hb hx hy
  · intro h fa fb x' y' ha hb hx' hy'
    rw [hx] at hx'
    rw [hy] at hy'
    obtain rfl := Option.some.inj hx'
    obtain rfl := Option.some.inj hy'
    exact h fa fb ha hb

/-- The integer operations. -/
lemma evalBinOp_gpr_iff {f : BitVec 64 → BitVec 64 → BitVec 64} {x y : BitVec 64}
    (hf : gprBinOp op = some f) (ha : a.eval ρ = .gpr x) (hb : b.eval ρ = .gpr y)
    (hva : (env a).Contains (.gpr x)) (hvb : (env b).Contains (.gpr y))
    (hty : ty.Holds (.gpr (f x y))) :
    (evalBinOp op ty env isEven a b).Contains (.gpr (f x y)) ↔
      BinOpKept op a b env isEven ρ := by
  have hx : (a.eval ρ).toInt? = some x.toInt := by rw [ha]; rfl
  have hy : (b.eval ρ).toInt? = some y.toInt := by rw [hb]; rfl
  have hk : ∀ d, opConstInt b = some d → y.toInt = d := fun d hd =>
    Option.some.inj (hy.symm.trans (toInt?_eval_of_opConstInt hd))
  have hfa : ∀ fa, env a = .fact fa → fa.lo ≤ x.toInt ∧ x.toInt ≤ fa.hi := fun fa h =>
    (contains_gpr_iff fa x).mp (h ▸ hva)
  have hfb : ∀ fb, env b = .fact fb → fb.lo ≤ y.toInt ∧ y.toInt ≤ fb.hi := fun fb h =>
    (contains_gpr_iff fb y).mp (h ▸ hvb)
  have hop := contains_opaqueResult hty
  cases op <;> simp only [gprBinOp, Option.some.injEq, reduceCtorEq] at hf <;> subst hf
  case add =>
    rw [BinOpKept, forall_values_iff hx hy]
    exact binary_contains_iff hva hvb hty fun fa fb h₁ h₂ =>
      addIv_contains_iff (hfa fa h₁) (hfb fb h₂)
  case sub =>
    rw [BinOpKept, forall_values_iff hx hy]
    exact binary_contains_iff hva hvb hty fun fa fb h₁ h₂ =>
      subIv_contains_iff (hfa fa h₁) (hfb fb h₂)
  case mul =>
    rw [BinOpKept, forall_values_iff hx hy]
    exact binary_contains_iff hva hvb hty fun fa fb h₁ h₂ =>
      mulIv_contains_iff (hfa fa h₁) (hfb fb h₂)
  case sDiv =>
    have hcond : BinOpKept .sDiv a b env isEven ρ ↔
        ∀ fa d, env a = .fact fa → opConstInt b = some d → DivKept d fa x.toInt := by
      refine ⟨fun h fa d h₁ h₂ => h fa d _ h₁ h₂ hx, fun h fa d x' h₁ h₂ h₃ => ?_⟩
      rw [hx] at h₃
      exact Option.some.inj h₃ ▸ h fa d h₁ h₂
    rw [hcond, evalBinOp]
    refine withConst_contains_iff hva hop (fun fa d g hfact hd hg => ?_) fun fa d hg => ?_
    · split_ifs at hg with hd0
      obtain rfl := Option.some.inj hg
      exact divIv_contains_iff (hfa fa hfact) (hk d hd)
    · split_ifs at hg with hd0
      intro h
      exact absurd (h ▸ by decide) hd0
  case sRem =>
    refine iff_of_true ?_ trivial
    rw [evalBinOp]
    refine withConst_contains hva hop fun fa d g hfact hd hg => ?_
    split_ifs at hg with hd0
    obtain rfl := Option.some.inj hg
    refine ⟨_, rfl, ?_⟩
    rw [BitVec.toInt_srem, hk d hd]
    exact remIv_contains (by obtain ⟨n, hn, hc⟩ := hfact ▸ hva; exact Option.some.inj hn ▸ hc) hd0
  case and => exact iff_of_true (evalAnd_contains hva hvb) trivial
  case or =>
    refine iff_of_true (evalOrXor_contains hva hvb fun k h₁ h₂ => ?_) trivial
    rw [BitVec.toNat_or]
    exact Nat.or_lt_two_pow h₁ h₂
  case xor =>
    refine iff_of_true (evalOrXor_contains hva hvb fun k h₁ h₂ => ?_) trivial
    rw [BitVec.toNat_xor]
    exact Nat.xor_lt_two_pow h₁ h₂
  case shl =>
    refine iff_of_true ?_ trivial
    rw [evalBinOp]
    refine withConst_contains hva hop fun fa d g hfact hd hg => ?_
    obtain rfl := Option.some.inj hg
    exact shlIv_contains (hfa fa hfact) (hk d hd)
  case aShr =>
    refine iff_of_true ?_ trivial
    rw [evalBinOp]
    refine withConst_contains hva hop fun fa d g hfact hd hg => ?_
    obtain rfl := Option.some.inj hg
    refine ashrIv_contains (hfa fa hfact) fun h₁ h₂ => ?_
    change (x.sshiftRight (y.toNat % 64)).toInt = _
    rw [toNat_mod_of_toInt_eq (hk d hd) h₁ h₂, BitVec.toInt_sshiftRight]
  case lShr =>
    refine iff_of_true ?_ trivial
    rw [evalBinOp]
    refine withConst_contains hva hop fun fa d g hfact hd hg => ?_
    split_ifs at hg with hlo
    obtain rfl := Option.some.inj hg
    refine ashrIv_contains (hfa fa hfact) fun h₁ h₂ => ?_
    change (x >>> (y.toNat % 64)).toInt = _
    rw [toNat_mod_of_toInt_eq (hk d hd) h₁ h₂]
    exact toInt_ushiftRight_of_nonneg (le_trans hlo.1 (hfa fa hfact).1) _

/-- No fact holds of a double that is not integer-valued. -/
lemma eq_top_of_contains_other {v : AbsVal} (h : v.Contains (.fpr .other)) : v = .top := by
  cases v with
  | bottom => exact h.elim
  | top => rfl
  | fact f =>
    obtain ⟨_, hn, _⟩ := h
    cases hn

/-- Under an operand that is not integer-valued a float operation claims nothing. -/
lemma evalBinOp_of_other (hop : gprBinOp op = none) {dx dy d : Double}
    (h : dx = .other ∨ dy = .other) (hva : (env a).Contains (.fpr dx))
    (hvb : (env b).Contains (.fpr dy)) (hb : b.eval ρ = .fpr dy) :
    (evalBinOp op .f64 env isEven a b).Contains (.fpr d) := by
  have hbinary : ∀ g, (binary .f64 g (env a) (env b)).Contains (.fpr d) := by
    intro g
    rcases h with rfl | rfl
    · rw [eq_top_of_contains_other hva]
      cases hv : env b with
      | bottom => exact (hv ▸ hvb).elim
      | _ => exact trivial
    · rw [eq_top_of_contains_other hvb]
      cases hv : env a with
      | bottom => exact (hv ▸ hva).elim
      | _ => exact trivial
  have hconst : dy = .other → opConstInt b = none := by
    rintro rfl
    cases hk : opConstInt b with
    | none => rfl
    | some k =>
      have := toInt?_eval_of_opConstInt (ρ := ρ) hk
      rw [hb] at this
      cases this
  cases op <;> simp only [gprBinOp, reduceCtorEq] at hop
  case fAdd => exact hbinary _
  case fSub => exact hbinary _
  case fMul => exact hbinary _
  case fDiv =>
    refine withConst_contains hva trivial fun fa k f hfa hk _ => ?_
    rcases h with rfl | hdy
    · rw [eq_top_of_contains_other hva] at hfa
      cases hfa
    · rw [hconst hdy] at hk
      cases hk
  case fRem =>
    simp only [evalBinOp]
    rcases h with rfl | rfl
    · rw [eq_top_of_contains_other hva]
      cases opConstInt b <;> exact trivial
    · rw [eq_top_of_contains_other hvb, hconst rfl]
      cases hv : env a with
      | bottom => exact (hv ▸ hva).elim
      | top => exact trivial
      | fact fa =>
        simp only [evalFRem]
        split_ifs <;> exact trivial

/-- The condition of a binary instruction is about integer-valued operands only. -/
lemma binOpKept_of_none (h : (a.eval ρ).toInt? = none ∨ (b.eval ρ).toInt? = none) :
    BinOpKept op a b env isEven ρ := by
  have hconst : ∀ k, opConstInt b = some k → (b.eval ρ).toInt? ≠ none := fun k hk hn => by
    rw [toInt?_eval_of_opConstInt hk] at hn
    cases hn
  have hpair : ∀ {x y}, (a.eval ρ).toInt? = some x → (b.eval ρ).toInt? = some y → False := by
    intro x y hx hy
    rcases h with h | h
    · rw [h] at hx
      cases hx
    · rw [h] at hy
      cases hy
  have hdivisor : ∀ {x k}, (a.eval ρ).toInt? = some x → opConstInt b = some k → False := by
    intro x k hx hk
    rcases h with h | h
    · rw [h] at hx
      cases hx
    · exact hconst k hk h
  cases op <;> simp only [BinOpKept]
  case sDiv => exact fun _ _ _ _ hk hx => (hdivisor hx hk).elim
  case fDiv => exact fun _ _ _ hk _ hx => (hdivisor hx hk).elim
  all_goals exact fun _ _ _ _ _ _ hx hy => (hpair hx hy).elim

/-- The `FDiv` arm on integer-valued operands. -/
lemma evalFDiv_iff {m n : IntDouble} {d : Double} (ha : a.eval ρ = .fpr (.int m))
    (hb : b.eval ρ = .fpr (.int n)) (hva : (env a).Contains (.fpr (.int m)))
    (heven : isEven a = true → ∃ z, (a.eval ρ).toInt? = some z ∧ 2 ∣ z)
    (hd : n.val ≠ 0 → n.val ∣ m.val → d = .ofExact (m.val / n.val)) :
    (evalBinOp .fDiv .f64 env isEven a b).Contains (.fpr d) ↔
      BinOpKept .fDiv a b env isEven ρ := by
  have hcond : BinOpKept .fDiv a b env isEven ρ ↔
      ∀ fa k, env a = .fact fa → opConstInt b = some k →
        (k = 2 ∧ isEven a = true → HalfKept fa m.val) := by
    simp only [BinOpKept, ha, Val.toInt?, Double.toInt?]
    constructor
    · rintro h fa _ h₁ h₂ ⟨rfl, h₃⟩
      exact h fa m.val h₁ h₂ h₃ rfl
    · rintro h fa _ h₁ h₂ h₃ ⟨⟩
      exact h fa 2 h₁ h₂ ⟨rfl, h₃⟩
  rw [hcond, evalBinOp]
  refine withConst_contains_iff hva trivial (fun fa k f hfa hk hg => ?_) fun fa k hg => ?_
  · split_ifs at hg with hex
    obtain ⟨rfl, hev⟩ := hex
    obtain rfl := Option.some.inj hg
    have hn : n.val = 2 := by
      have := toInt?_eval_of_opConstInt (ρ := ρ) hk
      rw [hb] at this
      exact Option.some.inj this
    obtain ⟨z, hz, hdvd⟩ := heven hev
    rw [ha] at hz
    obtain rfl := Option.some.inj hz
    have hfam : fa.Contains m.val := by
      obtain ⟨_, hx, hc⟩ := hfa ▸ hva
      exact Option.some.inj hx ▸ hc
    rw [hd (by rw [hn]; decide) (by rw [hn]; exact hdvd), hn, half_contains_iff hfam hdvd]
    exact ⟨fun h _ => h, fun h => h ⟨rfl, hev⟩⟩
  · split_ifs at hg with hex
    exact fun h => absurd h hex

/-- The float operations. -/
lemma evalBinOp_fpr_iff {dx dy d : Double} (hop : gprBinOp op = none)
    (ha : a.eval ρ = .fpr dx) (hb : b.eval ρ = .fpr dy)
    (hva : (env a).Contains (.fpr dx)) (hvb : (env b).Contains (.fpr dy))
    (heven : isEven a = true → ∃ n, (a.eval ρ).toInt? = some n ∧ 2 ∣ n)
    (hd : FprBinOp op dx dy d) (hty : ty.Holds (.fpr d)) :
    (evalBinOp op ty env isEven a b).Contains (.fpr d) ↔ BinOpKept op a b env isEven ρ := by
  obtain rfl : ty = .f64 := by
    cases ty <;> first | rfl | exact hty.elim
  have hother : dx = .other ∨ dy = .other →
      ((evalBinOp op .f64 env isEven a b).Contains (.fpr d) ↔
        BinOpKept op a b env isEven ρ) := by
    intro h
    refine iff_of_true (evalBinOp_of_other hop h hva hvb hb) (binOpKept_of_none ?_)
    rcases h with rfl | rfl
    · exact Or.inl (by rw [ha]; rfl)
    · exact Or.inr (by rw [hb]; rfl)
  cases hd with
  | nonIntLeft => exact hother (Or.inl rfl)
  | nonIntRight => exact hother (Or.inr rfl)
  | fAdd m n =>
    have hx : (a.eval ρ).toInt? = some m.val := by rw [ha]; rfl
    have hy : (b.eval ρ).toInt? = some n.val := by rw [hb]; rfl
    rw [BinOpKept, forall_values_iff hx hy]
    exact binary_contains_iff hva hvb hty fun fa fb _ _ => clamp53_contains_iff _ _ _
  | fSub m n =>
    have hx : (a.eval ρ).toInt? = some m.val := by rw [ha]; rfl
    have hy : (b.eval ρ).toInt? = some n.val := by rw [hb]; rfl
    rw [BinOpKept, forall_values_iff hx hy]
    exact binary_contains_iff hva hvb hty fun fa fb _ _ => clamp53_contains_iff _ _ _
  | fMul m n =>
    have hx : (a.eval ρ).toInt? = some m.val := by rw [ha]; rfl
    have hy : (b.eval ρ).toInt? = some n.val := by rw [hb]; rfl
    rw [BinOpKept, forall_values_iff hx hy]
    refine binary_contains_iff hva hvb hty fun fa fb _ _ => ?_
    rw [mulIv_eq]
    exact clamp53_contains_iff _ _ _
  | fDiv m n hn hdvd => exact evalFDiv_iff ha hb hva heven fun _ _ => rfl
  | fDivInexact m n h =>
    refine evalFDiv_iff ha hb hva heven fun hn hdvd => ?_
    rcases h with h | h
    · exact absurd h hn
    · exact absurd hdvd h
  | fRem m n hn =>
    refine iff_of_true (evalFRem_contains hva hvb hn fun k hk => ?_) trivial
    have := toInt?_eval_of_opConstInt (ρ := ρ) hk
    rw [hb] at this
    exact Option.some.inj this
  | fRemZero m n hn =>
    refine iff_of_true (evalFRem_contains_of_zero hva hvb hn fun k hk => ?_) trivial
    have := toInt?_eval_of_opConstInt (ρ := ρ) hk
    rw [hb] at this
    exact Option.some.inj this

end Instruction

/-- The environment of a function of `i64` parameters: constants are points, a parameter
has the full machine range. -/
def paramEnv (o : Operand) : AbsVal :=
  match opConstInt o with
  | some k => .fact (.point k)
  | none => .fact .fullI64

end Torajs
