import ToraJs.BigInt.Multiply
import ToraJs.BigInt.Divide
import Mathlib.Algebra.Order.Ring.Int

/-!
# BigInt arithmetic

The operations on BigInts put signs to the operations on magnitudes.  On canonical operands
each gives the canonical form of the exact result.  Only a power can fail: its loop does
not check that the lengths of the factors it multiplies add up to a 32-bit length, and the
last theorem says that this is the one thing that can go wrong.
-/

namespace Torajs

namespace BigInt

/-! ### The operations -/

/-- Strip zero limbs, and the sign of zero. -/
def normalize (b : BigInt) : BigInt where
  sign := if normalizeWords b.words = [] then false else b.sign
  words := normalizeWords b.words

/-- `a + b`. -/
def add (a b : BigInt) : Option BigInt :=
  if a.sign = b.sign then (magAdd a.words b.words).map fun r => normalize ⟨a.sign, r⟩
  else
    match magCmp a.words b.words with
    | .eq => some (normalize ⟨false, allocRaw 0⟩)
    | .gt => some (normalize ⟨a.sign, magSub a.words b.words⟩)
    | .lt => some (normalize ⟨b.sign, magSub b.words a.words⟩)

/-- `a - b`. -/
def sub (a b : BigInt) : Option BigInt :=
  if a.sign ≠ b.sign then (magAdd a.words b.words).map fun r => normalize ⟨a.sign, r⟩
  else
    match magCmp a.words b.words with
    | .eq => some (normalize ⟨false, allocRaw 0⟩)
    | .gt => some (normalize ⟨a.sign, magSub a.words b.words⟩)
    | .lt => some (normalize ⟨!a.sign, magSub b.words a.words⟩)

/-- `a * b`. -/
def mul (a b : BigInt) : Option BigInt :=
  (magMul a.words b.words).map fun r =>
    normalize ⟨if r.length = 0 then false else a.sign ^^ b.sign, r⟩

/-- The message of a division by zero. -/
def zeroDivisor : String := "0 is an invalid divisor value."

/-- The message of a negative exponent. -/
def negativeExponent : String := "BigInt negative exponent"

/-- `a / b`. -/
def div (a b : BigInt) : Except String (Option BigInt) :=
  if b.words.length = 0 then .error zeroDivisor
  else .ok ((magDivmod a.words b.words).map fun qr => normalize ⟨a.sign ^^ b.sign, qr.1⟩)

/-- `a % b`. -/
def mod (a b : BigInt) : Except String (Option BigInt) :=
  if b.words.length = 0 then .error zeroDivisor
  else .ok ((magDivmod a.words b.words).map fun qr => normalize ⟨a.sign, qr.2⟩)

/-- Square and multiply, from the low bit up; the first argument counts the bits left. -/
def powLoop (exp : List ℕ) (eBits : ℕ) : ℕ → ℕ → BigInt → BigInt → Option BigInt
  | 0, _, result, _ => some result
  | left + 1, i, result, cur =>
    (if bitAt exp i ≠ 0 then mul result cur else some result).bind fun result =>
      (if i + 1 < eBits then mul cur cur else some cur).bind fun cur =>
        powLoop exp eBits left (i + 1) result cur

/-- `base ** exp`. -/
def pow (base exp : BigInt) : Except String (Option BigInt) :=
  if exp.sign then .error negativeExponent
  else .ok (
    match exp.words with
    | [] => some ⟨false, [1]⟩
    | expLo :: _ => do
      let resultSign := base.sign && expLo &&& 1 != 0
      let eBits := bitCount exp.words
      let result ← powLoop exp.words eBits eBits 0 ⟨false, [1]⟩ ⟨false, base.words⟩
      some (normalize
        ⟨if result.words.length = 0 then false else resultSign, result.words⟩))

/-- `-a`. -/
def neg (a : BigInt) : BigInt where
  sign := if a.words.length = 0 then false else !a.sign
  words := a.words

/-! ### The canonical form of an integer -/

/-- The canonical form of an integer. -/
def ofInt (z : ℤ) : BigInt where
  sign := decide (z < 0)
  words := limbsOf z.natAbs

/-- The canonical form of a natural number. -/
lemma ofInt_natCast (n : ℕ) : ofInt (n : ℤ) = ⟨false, limbsOf n⟩ := by simp [ofInt]

/-- The canonical form is canonical. -/
lemma canonical_ofInt (z : ℤ) : (ofInt z).Canonical where
  limbs := limbsOk_limbsOf _
  top := noTopZero_limbsOf _
  zero := by
    intro h
    have hz : z.natAbs = 0 := limbsOf_eq_nil_iff.mp h
    have hz' : z = 0 := Int.natAbs_eq_zero.mp hz
    simp [ofInt, hz']

/-- The canonical form denotes its integer. -/
@[simp] lemma toInt_ofInt (z : ℤ) : (ofInt z).toInt = z := by
  simp only [toInt, ofInt, limbsVal_limbsOf, decide_eq_true_eq]
  split_ifs <;> omega

/-- A canonical BigInt is the canonical form of what it denotes. -/
lemma Canonical.eq_ofInt {b : BigInt} (hb : b.Canonical) : b = ofInt b.toInt :=
  eq_of_toInt_eq hb (canonical_ofInt _) (toInt_ofInt _).symm

/-- A magnitude denotes the absolute value. -/
lemma limbsVal_words (b : BigInt) : limbsVal b.words = b.toInt.natAbs := by
  unfold toInt
  split_ifs <;> omega

/-- Signed limbs of a number are the canonical form of its signed value. -/
lemma normalize_limbsOf (s : Bool) (n : ℕ) :
    normalize ⟨s, limbsOf n⟩ = ofInt (if s then -(n : ℤ) else n) := by
  have hwords : (if s then -(n : ℤ) else n).natAbs = n := by split_ifs <;> omega
  unfold normalize ofInt
  rw [normalizeWords_limbsOf, hwords]
  congr 1
  simp only [limbsOf_eq_nil_iff]
  cases s with
  | true =>
    simp only [if_true]
    split_ifs with h
    · simp [h]
    · simp
      omega
  | false => simp

/-! ### Sums and differences -/

/-- The larger magnitude less the smaller one, under the sign that goes with the larger. -/
lemma difference_limbsOf (s t : Bool) (m n : ℕ) :
    (match magCmp (limbsOf m) (limbsOf n) with
      | .eq => some (normalize ⟨false, allocRaw 0⟩)
      | .gt => some (normalize ⟨s, magSub (limbsOf m) (limbsOf n)⟩)
      | .lt => some (normalize ⟨t, magSub (limbsOf n) (limbsOf m)⟩)) =
      some (ofInt (if m < n then (if t then -((n - m : ℕ) : ℤ) else (n - m : ℕ))
        else if s then -((m - n : ℕ) : ℤ) else (m - n : ℕ))) := by
  rw [magCmp_limbsOf]
  rcases Nat.lt_trichotomy m n with hlt | heq | hgt
  · rw [Nat.compare_eq_lt.mpr hlt, if_pos hlt]
    simp only
    rw [magSub_limbsOf hlt.le, normalize_limbsOf]
  · rw [Nat.compare_eq_eq.mpr heq, heq, Nat.sub_self, if_neg (lt_irrefl n)]
    simp only [Nat.cast_zero, neg_zero, ite_self]
    rfl
  · rw [Nat.compare_eq_gt.mpr hgt, if_neg hgt.le.not_gt]
    simp only
    rw [magSub_limbsOf hgt.le, normalize_limbsOf]

/-- Addition is exact. -/
theorem add_ofInt {x y : ℤ}
    (hlen : (limbsOf (max x.natAbs y.natAbs)).length + 1 < 2 ^ 32) :
    add (ofInt x) (ofInt y) = some (ofInt (x + y)) := by
  have hsign : (ofInt x).sign = (ofInt y).sign ↔ (x < 0 ↔ y < 0) := decide_eq_decide
  unfold add
  by_cases h : (ofInt x).sign = (ofInt y).sign
  · rw [if_pos h]
    rw [hsign] at h
    simp only [ofInt]
    rw [magAdd_limbsOf hlen, Option.map_some, normalize_limbsOf]
    refine congrArg (fun z => some (ofInt z)) ?_
    simp only [decide_eq_true_eq]
    split_ifs <;> omega
  · rw [if_neg h]
    rw [hsign] at h
    refine (difference_limbsOf (decide (x < 0)) (decide (y < 0)) x.natAbs y.natAbs).trans ?_
    refine congrArg (fun z => some (ofInt z)) ?_
    simp only [decide_eq_true_eq]
    split_ifs <;> omega

/-- Subtraction is exact. -/
theorem sub_ofInt {x y : ℤ}
    (hlen : (limbsOf (max x.natAbs y.natAbs)).length + 1 < 2 ^ 32) :
    sub (ofInt x) (ofInt y) = some (ofInt (x - y)) := by
  have hsign : (ofInt x).sign = (ofInt y).sign ↔ (x < 0 ↔ y < 0) := decide_eq_decide
  unfold sub
  by_cases h : (ofInt x).sign = (ofInt y).sign
  · rw [if_neg (not_not.mpr h)]
    rw [hsign] at h
    refine (difference_limbsOf (decide (x < 0)) (!decide (x < 0)) x.natAbs y.natAbs).trans ?_
    refine congrArg (fun z => some (ofInt z)) ?_
    simp only [Bool.not_eq_true', decide_eq_true_eq, decide_eq_false_iff_not]
    split_ifs <;> omega
  · rw [if_pos h]
    rw [hsign] at h
    simp only [ofInt]
    rw [magAdd_limbsOf hlen, Option.map_some, normalize_limbsOf]
    refine congrArg (fun z => some (ofInt z)) ?_
    simp only [decide_eq_true_eq]
    split_ifs <;> omega

/-- Negation is exact. -/
theorem neg_ofInt (x : ℤ) : neg (ofInt x) = ofInt (-x) := by
  simp only [neg, ofInt, Int.natAbs_neg, List.length_eq_zero_iff, limbsOf_eq_nil_iff]
  congr 1
  split_ifs with h
  · simp
    omega
  · rw [← decide_not, decide_eq_decide]
    omega

/-! ### Products and quotients -/

/-- The sign of a product of signed numbers. -/
lemma signed_mul (x y : ℤ) :
    (if (decide (x < 0) ^^ decide (y < 0)) = true then -((x.natAbs * y.natAbs : ℕ) : ℤ)
      else ((x.natAbs * y.natAbs : ℕ) : ℤ)) = x * y := by
  push_cast
  rcases lt_or_ge x 0 with hx | hx <;> rcases lt_or_ge y 0 with hy | hy <;>
    simp [hx, hy, not_lt.mpr, abs_of_neg, abs_of_nonneg]

/-- Multiplication is exact where the product fits its block, and fails otherwise. -/
theorem mul_ofInt {x y : ℤ} (hx : (limbsOf x.natAbs).length + 1 < 2 ^ 32)
    (hy : (limbsOf y.natAbs).length + 1 < 2 ^ 32) :
    mul (ofInt x) (ofInt y) =
      if MulFits x.natAbs y.natAbs then some (ofInt (x * y)) else none := by
  have hmag : magMul (ofInt x).words (ofInt y).words =
      if MulFits x.natAbs y.natAbs then some (limbsOf (x.natAbs * y.natAbs)) else none :=
    magMul_limbsOf hx hy
  rw [mul, hmag]
  split_ifs with hfit
  · rw [Option.map_some]
    have hzero : (limbsOf (x.natAbs * y.natAbs)).length = 0 ↔ x * y = 0 := by
      rw [List.length_eq_zero_iff, limbsOf_eq_nil_iff, ← Int.natAbs_mul, Int.natAbs_eq_zero]
    by_cases h0 : x * y = 0
    · have hn : x.natAbs * y.natAbs = 0 := by
        rw [← Int.natAbs_mul, h0]
        rfl
      rw [if_pos (hzero.mpr h0), normalize_limbsOf, h0, hn]
      rfl
    · rw [if_neg (mt hzero.mp h0), normalize_limbsOf]
      exact congrArg (fun z => some (ofInt z)) (signed_mul x y)
  · rfl

/-- The sign of a quotient of signed numbers. -/
lemma signed_div (x y : ℤ) :
    (if (decide (x < 0) ^^ decide (y < 0)) = true then -((x.natAbs / y.natAbs : ℕ) : ℤ)
      else ((x.natAbs / y.natAbs : ℕ) : ℤ)) = x.tdiv y := by
  rcases lt_or_ge x 0 with hx | hx <;> rcases lt_or_ge y 0 with hy | hy
  · obtain ⟨m, rfl⟩ := Int.eq_negSucc_of_lt_zero hx
    obtain ⟨n, rfl⟩ := Int.eq_negSucc_of_lt_zero hy
    simp [hx, hy, Int.tdiv]
  · obtain ⟨m, rfl⟩ := Int.eq_negSucc_of_lt_zero hx
    obtain ⟨n, rfl⟩ := Int.eq_ofNat_of_zero_le hy
    simp [hx, Int.tdiv]
  · obtain ⟨m, rfl⟩ := Int.eq_ofNat_of_zero_le hx
    obtain ⟨n, rfl⟩ := Int.eq_negSucc_of_lt_zero hy
    simp [hy, Int.tdiv]
  · obtain ⟨m, rfl⟩ := Int.eq_ofNat_of_zero_le hx
    obtain ⟨n, rfl⟩ := Int.eq_ofNat_of_zero_le hy
    simp [hx.not_gt, hy.not_gt, Int.tdiv]

/-- The sign of a remainder of signed numbers. -/
lemma signed_mod (x y : ℤ) :
    (if decide (x < 0) = true then -((x.natAbs % y.natAbs : ℕ) : ℤ)
      else ((x.natAbs % y.natAbs : ℕ) : ℤ)) = x.tmod y := by
  rcases lt_or_ge x 0 with hx | hx
  · obtain ⟨m, rfl⟩ := Int.eq_negSucc_of_lt_zero hx
    simp [hx, Int.tmod]
    cases y <;> rfl
  · obtain ⟨m, rfl⟩ := Int.eq_ofNat_of_zero_le hx
    simp [Int.tmod]
    cases y <;> rfl

/-- Division is exact, truncating towards zero. -/
theorem div_ofInt {x y : ℤ} (hy0 : y ≠ 0) (hx : Nat.size x.natAbs < 2 ^ 32)
    (hy : (limbsOf y.natAbs).length + 1 < 2 ^ 32) :
    div (ofInt x) (ofInt y) = .ok (some (ofInt (x.tdiv y))) := by
  have hpos : 0 < y.natAbs := Int.natAbs_pos.mpr hy0
  obtain ⟨q, hrun, hq⟩ := magDivmod_limbsOf hpos hx hy
  have hne : (ofInt y).words.length ≠ 0 :=
    (List.length_pos_iff.mpr (mt limbsOf_eq_nil_iff.mp hpos.ne')).ne'
  have hnorm : ∀ s : Bool, normalize ⟨s, q⟩ = normalize ⟨s, limbsOf (x.natAbs / y.natAbs)⟩ := by
    intro s
    rw [normalize, normalize, hq, normalizeWords_limbsOf]
  have hrun' : magDivmod (ofInt x).words (ofInt y).words =
      some (q, limbsOf (x.natAbs % y.natAbs)) := hrun
  rw [div, if_neg hne, hrun', Option.map_some, hnorm, normalize_limbsOf]
  exact congrArg (fun z => Except.ok (some (ofInt z))) (signed_div x y)

/-- The remainder is exact, with the sign of the dividend. -/
theorem mod_ofInt {x y : ℤ} (hy0 : y ≠ 0) (hx : Nat.size x.natAbs < 2 ^ 32)
    (hy : (limbsOf y.natAbs).length + 1 < 2 ^ 32) :
    mod (ofInt x) (ofInt y) = .ok (some (ofInt (x.tmod y))) := by
  have hpos : 0 < y.natAbs := Int.natAbs_pos.mpr hy0
  obtain ⟨q, hrun, -⟩ := magDivmod_limbsOf hpos hx hy
  have hne : (ofInt y).words.length ≠ 0 :=
    (List.length_pos_iff.mpr (mt limbsOf_eq_nil_iff.mp hpos.ne')).ne'
  have hrun' : magDivmod (ofInt x).words (ofInt y).words =
      some (q, limbsOf (x.natAbs % y.natAbs)) := hrun
  rw [mod, if_neg hne, hrun', Option.map_some, normalize_limbsOf]
  exact congrArg (fun z => Except.ok (some (ofInt z))) (signed_mod x y)

/-! ### Powers -/

/-- The multiplications of square-and-multiply fit their blocks from bit `i` on: at each bit
of the exponent that is set the product with the current power does, and at each but the
last the square of the current power does. -/
def PowFitsFrom (i x e : ℕ) : Prop :=
  ∀ j, i ≤ j → j < Nat.size e →
    (e / 2 ^ j % 2 ≠ 0 → MulFits (x ^ (e % 2 ^ j)) (x ^ 2 ^ j)) ∧
      (j + 1 < Nat.size e → MulFits (x ^ 2 ^ j) (x ^ 2 ^ j))

/-- Every multiplication of `x ** e` fits its block. -/
def PowFits (x e : ℕ) : Prop := PowFitsFrom 0 x e

/-- The condition at one bit and at the later ones. -/
lemma powFitsFrom_iff {i x e : ℕ} (hi : i < Nat.size e) :
    PowFitsFrom i x e ↔
      (e / 2 ^ i % 2 ≠ 0 → MulFits (x ^ (e % 2 ^ i)) (x ^ 2 ^ i)) ∧
        (i + 1 < Nat.size e → MulFits (x ^ 2 ^ i) (x ^ 2 ^ i)) ∧ PowFitsFrom (i + 1) x e := by
  constructor
  · intro h
    exact ⟨(h i le_rfl hi).1, (h i le_rfl hi).2, fun j hj => h j (by omega)⟩
  · rintro ⟨h1, h2, h3⟩ j hj hlt
    rcases Nat.eq_or_lt_of_le hj with rfl | hj'
    · exact ⟨h1, h2⟩
    · exact h3 j hj' hlt

/-- The limbs of a product that fits. -/
lemma length_mul_lt {x y : ℕ} (h : MulFits x y) (hx : x ≠ 0) (hy : y ≠ 0) :
    (limbsOf (x * y)).length < 2 ^ 32 := by
  have hsum := (h.resolve_left hx).resolve_left hy
  refine lt_of_le_of_lt ?_ hsum
  rw [length_limbsOf_le_iff, pow_add]
  exact Nat.mul_lt_mul_of_lt_of_lt (lt_pow_length x) (lt_pow_length y)

/-- A square that fits has a length below the largest one. -/
lemma length_sq_lt {x : ℕ} (h : MulFits x x) : (limbsOf (x * x)).length + 1 < 2 ^ 32 := by
  by_cases hx : x = 0
  · rw [hx, Nat.mul_zero, limbsOf_zero]
    norm_num
  · have hsum := (h.resolve_left hx).resolve_left hx
    have hle : (limbsOf (x * x)).length ≤ (limbsOf x).length + (limbsOf x).length := by
      rw [length_limbsOf_le_iff, pow_add]
      exact Nat.mul_lt_mul_of_lt_of_lt (lt_pow_length x) (lt_pow_length x)
    omega

/-- A partial power has no more limbs than the current one, or one limb. -/
lemma length_pow_mod_lt {x e i : ℕ} (h : (limbsOf (x ^ 2 ^ i)).length + 1 < 2 ^ 32) :
    (limbsOf (x ^ (e % 2 ^ i))).length + 1 < 2 ^ 32 := by
  by_cases hx : x = 0
  · have hone : x ^ (e % 2 ^ i) ≤ 1 := by
      rw [hx]
      exact pow_le_one₀ (Nat.zero_le _) (Nat.zero_le _)
    have hle : (limbsOf (x ^ (e % 2 ^ i))).length ≤ 1 := by
      rw [length_limbsOf_le_iff, pow_one]
      exact lt_of_le_of_lt hone one_lt_limbBase
    omega
  · have hle := length_limbsOf_mono (Nat.pow_le_pow_right (Nat.pos_of_ne_zero hx)
      (Nat.mod_lt e (Nat.two_pow_pos i)).le)
    omega

/-- The product of numbers that are not negative. -/
lemma mul_ofNat {m n : ℕ} (hm : (limbsOf m).length + 1 < 2 ^ 32)
    (hn : (limbsOf n).length + 1 < 2 ^ 32) :
    mul (ofInt m) (ofInt n) =
      if MulFits m n then some (ofInt ((m * n : ℕ) : ℤ)) else none := by
  have h := mul_ofInt (x := m) (y := n) (by simpa using hm) (by simpa using hn)
  simpa using h

/-- Taking in one more bit of the exponent. -/
lemma mod_two_pow_succ (e i : ℕ) : e % 2 ^ (i + 1) = e % 2 ^ i + 2 ^ i * (e / 2 ^ i % 2) := by
  rw [pow_succ, Nat.mod_mul]

/-- The loop carries the power by the bits it has read and the current square, and fails at
the first multiplication that does not fit. -/
lemma powLoop_spec {x e : ℕ} (left i : ℕ) (cur : BigInt) (hleft : i + left = Nat.size e)
    (hcur : 0 < left → cur = ofInt ((x ^ 2 ^ i : ℕ) : ℤ) ∧
      (limbsOf (x ^ 2 ^ i)).length + 1 < 2 ^ 32) [Decidable (PowFitsFrom i x e)] :
    powLoop (limbsOf e) (Nat.size e) left i (ofInt ((x ^ (e % 2 ^ i) : ℕ) : ℤ)) cur =
      if PowFitsFrom i x e then some (ofInt ((x ^ e : ℕ) : ℤ)) else none := by
  classical
  induction left generalizing i cur with
  | zero =>
    have hi : i = Nat.size e := by omega
    have hfits : PowFitsFrom i x e := fun j hj hlt => absurd hlt (by omega)
    rw [powLoop, if_pos hfits, hi, Nat.mod_eq_of_lt (Nat.lt_size_self e)]
  | succ left ih =>
    obtain ⟨rfl, hlen⟩ := hcur (Nat.succ_pos left)
    have hi : i < Nat.size e := by omega
    have hres := length_pow_mod_lt (e := e) hlen
    have hsquare : x ^ 2 ^ i * x ^ 2 ^ i = x ^ 2 ^ (i + 1) := by
      rw [← pow_add, pow_succ, Nat.mul_two]
    have hnext : e / 2 ^ i % 2 ≠ 0 → x ^ (e % 2 ^ i) * x ^ 2 ^ i = x ^ (e % 2 ^ (i + 1)) := by
      intro hbit
      have h1 : e / 2 ^ i % 2 = 1 := by omega
      rw [mod_two_pow_succ, h1, Nat.mul_one, pow_add]
    have hstay : ¬e / 2 ^ i % 2 ≠ 0 → e % 2 ^ i = e % 2 ^ (i + 1) := by
      intro hbit
      rw [mod_two_pow_succ, not_not.mp hbit, Nat.mul_zero, Nat.add_zero]
    -- the bit decides whether the result takes in the current power
    have hstep : (if bitAt (limbsOf e) i ≠ 0 then
          mul (ofInt ((x ^ (e % 2 ^ i) : ℕ) : ℤ)) (ofInt ((x ^ 2 ^ i : ℕ) : ℤ))
        else some (ofInt ((x ^ (e % 2 ^ i) : ℕ) : ℤ))) =
          if e / 2 ^ i % 2 ≠ 0 → MulFits (x ^ (e % 2 ^ i)) (x ^ 2 ^ i) then
            some (ofInt ((x ^ (e % 2 ^ (i + 1)) : ℕ) : ℤ)) else none := by
      rw [bitAt_limbsOf]
      by_cases hbit : e / 2 ^ i % 2 ≠ 0
      · rw [if_pos hbit, mul_ofNat hres hlen, hnext hbit]
        simp only [hbit, ne_eq, not_false_eq_true, forall_const]
      · rw [if_neg hbit, if_pos (fun h => absurd h hbit), hstay hbit]
    simp only [powLoop, hstep]
    by_cases hfit1 : e / 2 ^ i % 2 ≠ 0 → MulFits (x ^ (e % 2 ^ i)) (x ^ 2 ^ i)
    · rw [if_pos hfit1, Option.bind_some]
      by_cases hlast : i + 1 < Nat.size e
      · rw [if_pos hlast, mul_ofNat hlen hlen]
        by_cases hfit2 : MulFits (x ^ 2 ^ i) (x ^ 2 ^ i)
        · rw [if_pos hfit2, Option.bind_some, hsquare]
          have hsq := length_sq_lt hfit2
          rw [hsquare] at hsq
          rw [ih (i + 1) _ (by omega) fun _ => ⟨rfl, hsq⟩]
          refine if_congr ?_ rfl rfl
          rw [powFitsFrom_iff hi]
          exact ⟨fun h => ⟨hfit1, fun _ => hfit2, h⟩, fun h => h.2.2⟩
        · rw [if_neg hfit2, Option.bind_none, if_neg]
          intro hfits
          exact hfit2 (((powFitsFrom_iff hi).mp hfits).2.1 hlast)
      · rw [if_neg hlast, Option.bind_some, ih (i + 1) _ (by omega) fun h => absurd h (by omega)]
        refine if_congr ?_ rfl rfl
        rw [powFitsFrom_iff hi]
        exact ⟨fun h => ⟨hfit1, fun h' => absurd h' hlast, h⟩, fun h => h.2.2⟩
    · rw [if_neg hfit1, Option.bind_none, if_neg]
      intro hfits
      exact hfit1 ((powFitsFrom_iff hi).mp hfits).1

/-- A sign put to a magnitude. -/
lemma signed_pow (x : ℤ) (e : ℕ) :
    (if (decide (x < 0) && decide (e % 2 = 1)) = true then -((x.natAbs ^ e : ℕ) : ℤ)
      else ((x.natAbs ^ e : ℕ) : ℤ)) = x ^ e := by
  rcases lt_or_ge x 0 with hx | hx
  · have habs : ((x.natAbs : ℕ) : ℤ) = -x := by omega
    push_cast [habs]
    rcases Nat.even_or_odd e with he | he
    · rw [if_neg (by simp [hx, Nat.even_iff.mp he]), he.neg_pow]
    · rw [if_pos (by simp [hx, Nat.odd_iff.mp he]), he.neg_pow, neg_neg]
  · have habs : ((x.natAbs : ℕ) : ℤ) = x := by omega
    push_cast [habs]
    rw [if_neg (by simp [hx.not_gt])]

/-- A power is exact where every multiplication fits its block, and fails otherwise. -/
theorem pow_ofInt {x y : ℤ} (hy0 : 0 ≤ y) (hx : (limbsOf x.natAbs).length + 1 < 2 ^ 32)
    (hy : Nat.size y.natAbs < 2 ^ 32) [Decidable (PowFits x.natAbs y.natAbs)] :
    pow (ofInt x) (ofInt y) =
      .ok (if PowFits x.natAbs y.natAbs then some (ofInt (x ^ y.toNat)) else none) := by
  have hnat : y.toNat = y.natAbs := by omega
  have hsign : (ofInt y).sign = false := by simpa [ofInt] using hy0
  have hwords : (ofInt y).words = limbsOf y.natAbs := rfl
  have hone : (⟨false, [1]⟩ : BigInt) = ofInt 1 := by
    have h1 : limbsOf 1 = [1] := Nat.digits_of_lt limbBase 1 one_ne_zero one_lt_limbBase
    simp [ofInt, h1]
  rw [pow, hsign, if_neg (by simp), hwords, hnat]
  refine congrArg Except.ok ?_
  generalize y.natAbs = e at *
  cases hw : limbsOf e with
  | nil =>
    have he : e = 0 := limbsOf_eq_nil_iff.mp hw
    have hfits : PowFits x.natAbs e := by
      intro j _ hj
      rw [he, Nat.size_zero] at hj
      exact absurd hj (Nat.not_lt_zero j)
    simp only
    rw [if_pos hfits, he, pow_zero, hone]
  | cons expLo rest =>
    have he : e ≠ 0 := by
      rintro rfl
      rw [limbsOf_zero] at hw
      exact absurd hw (by simp)
    have hodd : expLo &&& 1 = e % 2 := by
      have hlo := Nat.digits_def' one_lt_limbBase (Nat.pos_of_ne_zero he)
      rw [← limbsOf, hw] at hlo
      rw [(List.cons_eq_cons.mp hlo).1, Nat.and_one_is_mod]
      unfold limbBase
      omega
    have hcur : (⟨false, (ofInt x).words⟩ : BigInt) =
        ofInt ((x.natAbs ^ 2 ^ 0 : ℕ) : ℤ) := by
      rw [pow_zero, pow_one, ofInt_natCast]
      rfl
    have hstart : ofInt 1 = ofInt ((x.natAbs ^ (e % 2 ^ 0) : ℕ) : ℤ) := by
      rw [pow_zero, Nat.mod_one, pow_zero]
      rfl
    have hfits : PowFitsFrom 0 x.natAbs e ↔ PowFits x.natAbs e := Iff.rfl
    have hloop : powLoop (limbsOf e) (Nat.size e) (Nat.size e) 0 (ofInt 1)
        ⟨false, (ofInt x).words⟩ =
          if PowFits x.natAbs e then some (ofInt ((x.natAbs ^ e : ℕ) : ℤ)) else none := by
      classical
      rw [hstart, powLoop_spec (Nat.size e) 0 _ (Nat.zero_add _)
        fun _ => ⟨hcur, by rwa [pow_zero, pow_one]⟩]
      exact if_congr hfits rfl rfl
    simp only [← hw, bitCount_limbsOf hy, hone, hloop, Option.bind_eq_bind]
    split_ifs with hfit
    · rw [Option.bind_some]
      have hsigned := signed_pow x e
      have hres : (ofInt ((x.natAbs ^ e : ℕ) : ℤ)).words = limbsOf (x.natAbs ^ e) := by
        rw [ofInt_natCast]
      have hbase : ((ofInt x).sign && expLo &&& 1 != 0) =
          (decide (x < 0) && decide (e % 2 = 1)) := by
        rw [hodd]
        have : (e % 2 != 0) = decide (e % 2 = 1) := by
          rcases Nat.mod_two_eq_zero_or_one e with h | h <;> simp [h]
        rw [this]
        rfl
      rw [hres, hbase]
      refine congrArg some ?_
      by_cases hx0 : x.natAbs ^ e = 0
      · rw [hx0, limbsOf_zero, List.length_nil, if_pos rfl, ← hsigned, hx0, ← limbsOf_zero,
          normalize_limbsOf]
        simp
      · rw [if_neg (by simpa [limbsOf_eq_nil_iff] using hx0), normalize_limbsOf, hsigned]
    · rfl

/-! ### Exactness -/

/-- An operation gives the canonical form of an integer. -/
def Gives (r : Option BigInt) (z : ℤ) : Prop := ∃ b, r = some b ∧ b.Canonical ∧ b.toInt = z

/-- The canonical form is given. -/
lemma gives_ofInt (z : ℤ) : Gives (some (ofInt z)) z :=
  ⟨_, rfl, canonical_ofInt z, toInt_ofInt z⟩

/-- The arithmetic of two BigInts is exact and canonical: sum, difference, product and
negation, quotient and remainder by a divisor that is not zero, and the power where the
exponent is not negative. -/
structure Exact (a b : BigInt) : Prop where
  add : Gives (add a b) (a.toInt + b.toInt)
  sub : Gives (sub a b) (a.toInt - b.toInt)
  mul : Gives (mul a b) (a.toInt * b.toInt)
  neg : Gives (some (neg a)) (-a.toInt)
  divMod : b.toInt ≠ 0 → ∃ q r, div a b = .ok q ∧ mod a b = .ok r ∧
    Gives q (a.toInt.tdiv b.toInt) ∧ Gives r (a.toInt.tmod b.toInt) ∧
    a.toInt = a.toInt.tdiv b.toInt * b.toInt + a.toInt.tmod b.toInt ∧
    |a.toInt.tmod b.toInt| < |b.toInt|
  pow : 0 ≤ b.toInt → ∃ r, pow a b = .ok r ∧ Gives r (a.toInt ^ b.toInt.toNat)

/-- A number below a length in bits has few limbs. -/
lemma length_limbsOf_of_size {n k : ℕ} (hn : Nat.size n < 64 * k) :
    (limbsOf n).length ≤ k := by
  rw [length_limbsOf_le_iff, limbBase, ← pow_mul]
  exact lt_of_lt_of_le (Nat.lt_size_self n) (Nat.pow_le_pow_right (by norm_num) hn.le)

/-- On canonical operands of fewer than `2 ^ 32` bits the arithmetic is exact and canonical
if and only if, for an exponent that is not negative, every multiplication that the power
makes is of factors whose lengths add up to fewer than `2 ^ 32` limbs. -/
theorem exact_iff {a b : BigInt} (ha : a.Canonical) (hb : b.Canonical)
    (hasize : Nat.size (limbsVal a.words) < 2 ^ 32)
    (hbsize : Nat.size (limbsVal b.words) < 2 ^ 32) :
    Exact a b ↔ (0 ≤ b.toInt → PowFits a.toInt.natAbs b.toInt.natAbs) := by
  classical
  rw [limbsVal_words] at hasize hbsize
  obtain ⟨x, hx⟩ : ∃ x, x = a.toInt := ⟨_, rfl⟩
  obtain ⟨y, hy⟩ : ∃ y, y = b.toInt := ⟨_, rfl⟩
  rw [ha.eq_ofInt, hb.eq_ofInt, ← hx, ← hy, toInt_ofInt, toInt_ofInt]
  rw [← hx] at hasize
  rw [← hy] at hbsize
  have hxlen : (limbsOf x.natAbs).length ≤ 2 ^ 26 := length_limbsOf_of_size (by omega)
  have hylen : (limbsOf y.natAbs).length ≤ 2 ^ 26 := length_limbsOf_of_size (by omega)
  have hmax : (limbsOf (max x.natAbs y.natAbs)).length ≤ 2 ^ 26 := by
    rcases le_total x.natAbs y.natAbs with h | h
    · rwa [max_eq_right h]
    · rwa [max_eq_left h]
  constructor
  · intro hexact hy0
    obtain ⟨r, hr, c, hc, -⟩ := hexact.pow (by rwa [toInt_ofInt])
    rw [pow_ofInt hy0 (by omega) hbsize, hc, Except.ok.injEq] at hr
    by_contra hfits
    rw [if_neg hfits] at hr
    exact absurd hr (by simp)
  · intro hfits
    refine ⟨?_, ?_, ?_, ?_, ?_, ?_⟩ <;> simp only [toInt_ofInt]
    · rw [add_ofInt (by omega)]
      exact gives_ofInt _
    · rw [sub_ofInt (by omega)]
      exact gives_ofInt _
    · have hfit : MulFits x.natAbs y.natAbs := Or.inr (Or.inr (by omega))
      rw [mul_ofInt (by omega) (by omega), if_pos hfit]
      exact gives_ofInt _
    · rw [neg_ofInt]
      exact gives_ofInt _
    · intro hy0
      refine ⟨_, _, div_ofInt hy0 hasize (by omega), mod_ofInt hy0 hasize (by omega),
        gives_ofInt _, gives_ofInt _, ?_, ?_⟩
      · rw [Int.mul_comm]
        exact (Int.mul_tdiv_add_tmod x y).symm
      · rw [← signed_mod x y, Int.abs_eq_natAbs y]
        have hlt := Nat.mod_lt x.natAbs (Int.natAbs_pos.mpr hy0)
        split_ifs
        · rw [abs_neg, Nat.abs_cast]
          exact_mod_cast hlt
        · rw [Nat.abs_cast]
          exact_mod_cast hlt
    · intro hy0
      rw [pow_ofInt hy0 (by omega) hbsize, if_pos (hfits hy0)]
      exact ⟨_, rfl, gives_ofInt _⟩

/-- Factors of one limb fit a block. -/
lemma mulFits_of_lt {x y : ℕ} (hx : x < limbBase) (hy : y < limbBase) : MulFits x y := by
  have h1 : (limbsOf x).length ≤ 1 := length_limbsOf_le_iff.mpr (by rwa [pow_one])
  have h2 : (limbsOf y).length ≤ 1 := length_limbsOf_le_iff.mpr (by rwa [pow_one])
  exact Or.inr (Or.inr (by omega))

/-- The arithmetic of `-7n` and `3n`. -/
theorem exact_seven_three : Exact ⟨true, [7]⟩ ⟨false, [3]⟩ := by
  have hseven : (⟨true, [7]⟩ : BigInt).toInt = -7 := by simp [toInt]
  have hthree : (⟨false, [3]⟩ : BigInt).toInt = 3 := by simp [toInt]
  refine (exact_iff (by decide) (by decide) ?_ ?_).mpr fun _ => ?_
  · have h : Nat.size (limbsVal [7]) ≤ 3 := Nat.size_le.mpr (by simp)
    exact lt_of_le_of_lt h (by norm_num)
  · have h : Nat.size (limbsVal [3]) ≤ 2 := Nat.size_le.mpr (by simp)
    exact lt_of_le_of_lt h (by norm_num)
  · rw [hseven, hthree]
    intro j _ hj
    have hsize : Nat.size 3 ≤ 2 := Nat.size_le.mpr (by norm_num)
    have hj1 : j ≤ 1 := by
      change j < Nat.size 3 at hj
      omega
    have hpow : 7 ^ 2 ^ j ≤ 7 ^ 2 ^ 1 :=
      Nat.pow_le_pow_right (by norm_num) (Nat.pow_le_pow_right (by norm_num) hj1)
    have hres : 7 ^ (3 % 2 ^ j) ≤ 7 ^ 3 :=
      Nat.pow_le_pow_right (by norm_num) (Nat.mod_le _ _)
    have h49 : 7 ^ 2 ^ j < limbBase := lt_of_le_of_lt hpow (by norm_num [limbBase])
    have h343 : 7 ^ (3 % 2 ^ j) < limbBase := lt_of_le_of_lt hres (by norm_num [limbBase])
    exact ⟨fun _ => mulFits_of_lt h343 h49, fun _ => mulFits_of_lt h49 h49⟩

/-- A power of two that is a whole number of limbs has one limb more. -/
lemma lt_length_two_pow (k : ℕ) : k < (limbsOf (2 ^ (64 * k))).length := by
  by_contra hle
  have hlt := length_limbsOf_le_iff.mp (not_lt.mp hle)
  rw [limbBase, ← pow_mul] at hlt
  exact absurd hlt (lt_irrefl _)

/-- The power `2n ** 2n ** 38n` squares a number of `2 ^ 31 + 1` limbs: the length of the
product wraps, and nothing comes of it. -/
theorem not_exact_pow_wraps :
    (ofInt 2).Canonical ∧ (ofInt (2 ^ 38 : ℕ)).Canonical ∧
      Nat.size (limbsVal (ofInt 2).words) < 2 ^ 32 ∧
      Nat.size (limbsVal (ofInt (2 ^ 38 : ℕ)).words) < 2 ^ 32 ∧
      pow (ofInt 2) (ofInt (2 ^ 38 : ℕ)) = .ok none ∧
      ¬Exact (ofInt 2) (ofInt (2 ^ 38 : ℕ)) := by
  classical
  have hsize2 : Nat.size 2 < 2 ^ 32 := by
    have h : Nat.size 2 ≤ 2 := Nat.size_le.mpr (by norm_num)
    omega
  have hsize : Nat.size (2 ^ 38) = 39 := Nat.size_pow
  have hfits : ¬PowFits 2 (2 ^ 38) := by
    intro h
    have hsq := (h 37 (by omega) (by omega)).2 (by omega)
    have hlen := lt_length_two_pow (2 ^ 31)
    have hexp : 64 * 2 ^ 31 = 2 ^ 37 := by norm_num
    rw [hexp] at hlen
    have hpos : (2 : ℕ) ^ 2 ^ 37 ≠ 0 := (Nat.two_pow_pos _).ne'
    have hsum := (hsq.resolve_left hpos).resolve_left hpos
    omega
  have hlen2 : (limbsOf (Int.natAbs 2)).length + 1 < 2 ^ 32 := by
    have h : (limbsOf (Int.natAbs 2)).length ≤ 1 := length_limbsOf_of_size (by
      change Nat.size 2 < 64 * 1
      have h : Nat.size 2 ≤ 2 := Nat.size_le.mpr (by norm_num)
      omega)
    omega
  have hpow : pow (ofInt 2) (ofInt (2 ^ 38 : ℕ)) = .ok none := by
    rw [pow_ofInt (Int.natCast_nonneg _) hlen2 (by rw [Int.natAbs_natCast, hsize]; norm_num),
      Int.natAbs_natCast, if_neg (show ¬PowFits (Int.natAbs 2) (2 ^ 38) from hfits)]
  refine ⟨canonical_ofInt _, canonical_ofInt _, ?_, ?_, hpow, ?_⟩
  · rw [limbsVal_words, toInt_ofInt]
    exact hsize2
  · rw [limbsVal_words, toInt_ofInt, Int.natAbs_natCast, hsize]
    norm_num
  · intro hexact
    obtain ⟨r, hr, c, hc, -⟩ := hexact.pow (by rw [toInt_ofInt]; exact Int.natCast_nonneg _)
    rw [hpow, hc, Except.ok.injEq] at hr
    exact absurd hr (by simp)

end BigInt

end Torajs
