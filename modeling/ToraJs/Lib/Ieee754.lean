import ToraJs.Lib.RoundNearest

/-!
# Arithmetic on binary64 numbers

A finite magnitude is counted in units of the least positive number, so it is a natural
number of at most 53 significant bits, below the power of two at which the format overflows.
Each operation rounds its exact result, a ratio of such numbers, to the nearest magnitude, a
tie going to the even significand.  Signed zeros and infinities are kept; the payload of a
NaN is not.
-/

namespace Ieee754

/-- The exponent of the least positive number, negated. -/
@[irreducible] def fractionBits : ℕ := 1074

/-- The number one, in units of the least positive number. -/
def one : ℕ := 2 ^ fractionBits

lemma one_pos : 0 < one := Nat.two_pow_pos fractionBits

/-- The number of units at which the format overflows. -/
def overflow : ℕ := 2 ^ (fractionBits + 1024)

/-- A finite magnitude. -/
structure Mag where
  units : ℕ
  fixed : RoundNearest.roundNat 53 units = units
  finite : units < overflow
  deriving DecidableEq

/-- A binary64 number; a sign is set on negative numbers. -/
inductive F64 where
  | nan
  | inf (s : Bool)
  | finite (s : Bool) (m : Mag)
  deriving DecidableEq

/-! ### Rounding -/

/-- `n / d` rounded to `p` significant bits, or to an integer when it has fewer; to nearest,
ties to the even significand. -/
def roundRatio (p n d : ℕ) : ℕ :=
  let k := RoundNearest.excess p (n / d)
  let q := n / (d * 2 ^ k)
  let r := n % (d * 2 ^ k)
  if 2 * r < d * 2 ^ k ∨ (2 * r = d * 2 ^ k ∧ q % 2 = 0) then q * 2 ^ k else (q + 1) * 2 ^ k

/-- A rounded ratio has at most `p` significant bits. -/
lemma roundNat_roundRatio {p : ℕ} (hp : 0 < p) (n d : ℕ) :
    RoundNearest.roundNat p (roundRatio p n d) = roundRatio p n d := by
  have hq : n / (d * 2 ^ RoundNearest.excess p (n / d)) < 2 ^ p := by
    rw [← Nat.div_div_eq_div_mul]
    exact RoundNearest.div_excess_lt p (n / d)
  unfold roundRatio
  simp only
  split_ifs
  · exact RoundNearest.roundNat_mul_two_pow hp hq.le
  · exact RoundNearest.roundNat_mul_two_pow hp hq

/-- The rounding of a ratio to an integer is that of the integer. -/
lemma roundRatio_one (p n : ℕ) : roundRatio p n 1 = RoundNearest.roundNat p n := by
  unfold roundRatio RoundNearest.roundNat
  simp only [Nat.div_one, Nat.one_mul]

/-- A common factor of a ratio does not matter to its rounding. -/
lemma roundRatio_mul_right {p n d c : ℕ} (hc : 0 < c) :
    roundRatio p (n * c) (d * c) = roundRatio p n d := by
  unfold roundRatio
  have hdiv : n * c / (d * c) = n / d := Nat.mul_div_mul_right n d hc
  have hcomm : ∀ k, d * c * 2 ^ k = d * 2 ^ k * c := fun k => by ring
  simp only [hdiv, hcomm, Nat.mul_div_mul_right _ _ hc, Nat.mul_mod_mul_right]
  have hlt : ∀ r m, 2 * (r * c) < m * c ↔ 2 * r < m := by
    intro r m
    rw [← Nat.mul_assoc, Nat.mul_lt_mul_right hc]
  have heq : ∀ r m, 2 * (r * c) = m * c ↔ 2 * r = m := by
    intro r m
    rw [← Nat.mul_assoc, Nat.mul_left_inj hc.ne']
  simp only [hlt, heq]

namespace F64

/-- The number nearest to a ratio of units, an infinity past the finite range. -/
def ofRatio (s : Bool) (n d : ℕ) : F64 :=
  if h : roundRatio 53 n d < overflow then
    .finite s ⟨roundRatio 53 n d, roundNat_roundRatio (by norm_num) n d, h⟩
  else .inf s

/-- A common factor of a ratio does not matter. -/
lemma ofRatio_mul_right (s : Bool) {n d c : ℕ} (hc : 0 < c) :
    ofRatio s (n * c) (d * c) = ofRatio s n d := by
  unfold ofRatio
  simp only [roundRatio_mul_right hc]

/-- A ratio is a number. -/
lemma ofRatio_ne_nan (s : Bool) (n d : ℕ) : ofRatio s n d ≠ .nan := by
  unfold ofRatio
  split_ifs
  · exact F64.noConfusion
  · exact F64.noConfusion

/-- The number nearest to an integer. -/
def ofInt (z : ℤ) : F64 := ofRatio (decide (z < 0)) (z.natAbs * one) 1

/-! ### Operations -/

/-- The negative of a number. -/
def neg : F64 → F64
  | .nan => .nan
  | .inf s => .inf (!s)
  | .finite s m => .finite (!s) m

lemma neg_ofRatio (s : Bool) (n d : ℕ) : neg (ofRatio s n d) = ofRatio (!s) n d := by
  unfold ofRatio
  split_ifs
  · rfl
  · rfl

/-- `a + b`; an exact zero of different signs is positive. -/
def add : F64 → F64 → F64
  | .nan, _ => .nan
  | _, .nan => .nan
  | .inf s, .inf t => if s = t then .inf s else .nan
  | .inf s, .finite _ _ => .inf s
  | .finite _ _, .inf t => .inf t
  | .finite s m, .finite t n =>
    if s = t then ofRatio s (m.units + n.units) 1
    else if n.units < m.units then ofRatio s (m.units - n.units) 1
    else if m.units < n.units then ofRatio t (n.units - m.units) 1
    else ofRatio false 0 1

/-- `a - b`. -/
def sub (a b : F64) : F64 := add a (neg b)

/-- `a * b`. -/
def mul : F64 → F64 → F64
  | .nan, _ => .nan
  | _, .nan => .nan
  | .inf s, .inf t => .inf (s ^^ t)
  | .inf s, .finite t n => if n.units = 0 then .nan else .inf (s ^^ t)
  | .finite s m, .inf t => if m.units = 0 then .nan else .inf (s ^^ t)
  | .finite s m, .finite t n => ofRatio (s ^^ t) (m.units * n.units) one

/-- `a / b`. -/
def div : F64 → F64 → F64
  | .nan, _ => .nan
  | _, .nan => .nan
  | .inf _, .inf _ => .nan
  | .inf s, .finite t _ => .inf (s ^^ t)
  | .finite s _, .inf t => ofRatio (s ^^ t) 0 1
  | .finite s m, .finite t n =>
    if n.units = 0 then if m.units = 0 then .nan else .inf (s ^^ t)
    else ofRatio (s ^^ t) (m.units * one) n.units

/-- The truncating remainder of `a / b`, with the sign of `a`. -/
def rem : F64 → F64 → F64
  | .nan, _ => .nan
  | _, .nan => .nan
  | .inf _, _ => .nan
  | .finite s m, .inf _ => .finite s m
  | .finite s m, .finite _ n => if n.units = 0 then .nan else ofRatio s (m.units % n.units) 1

/-- A finite number as an integer number of units. -/
def signedUnits (s : Bool) (m : Mag) : ℤ := if s then -(m.units : ℤ) else m.units

/-- The order of two numbers; there is none with NaN. -/
def partialCmp : F64 → F64 → Option Ordering
  | .nan, _ => none
  | _, .nan => none
  | .inf s, .inf t => some (if s = t then .eq else if s then .lt else .gt)
  | .inf s, .finite _ _ => some (if s then .lt else .gt)
  | .finite _ _, .inf t => some (if t then .gt else .lt)
  | .finite s m, .finite t n => some (compare (signedUnits s m) (signedUnits t n))

/-! ### Doubling -/

/-- The number two is exact. -/
lemma ofInt_two : ∃ h₁ h₂, ofInt 2 = .finite false ⟨2 * one, h₁, h₂⟩ := by
  have htwo : 2 * one = 2 ^ (fractionBits + 1) := by
    rw [one, Nat.pow_succ, Nat.mul_comm]
  have hround : roundRatio 53 (2 * one) 1 = 2 * one := by
    rw [roundRatio_one, htwo, ← Nat.one_mul (2 ^ _)]
    exact RoundNearest.roundNat_mul_two_pow (by norm_num) Nat.one_le_two_pow
  have hfin : roundRatio 53 (2 * one) 1 < overflow := by
    rw [hround, htwo]
    exact Nat.pow_lt_pow_right (by norm_num) (by omega)
  refine ⟨by rw [← hround]; exact roundNat_roundRatio (by norm_num) _ _, hround ▸ hfin, ?_⟩
  have hof : ofInt 2 = ofRatio false (2 * one) 1 := rfl
  rw [hof, ofRatio, dif_pos hfin]
  simp only [hround]

/-- Only two compares equal to two. -/
lemma eq_two_of_partialCmp {c : F64} (h : partialCmp c (ofInt 2) = some .eq) : c = ofInt 2 := by
  obtain ⟨h₁, h₂, htwo⟩ := ofInt_two
  rw [htwo] at h ⊢
  cases c with
  | nan => cases h
  | inf s => cases s <;> cases h
  | finite s m =>
    have heq : signedUnits s m = signedUnits false ⟨2 * one, h₁, h₂⟩ := by
      simpa [partialCmp, compare_eq_iff_eq] using h
    have hpos := one_pos
    cases s with
    | true =>
      simp only [signedUnits, if_true, Bool.false_eq_true, if_false] at heq
      omega
    | false =>
      simp only [signedUnits, Bool.false_eq_true, if_false, Nat.cast_inj] at heq
      obtain ⟨units, hfixed, hfin⟩ := m
      subst heq
      rfl

/-- A product by two is a sum, for zeros, infinities and NaN too. -/
theorem mul_two (x : F64) : mul x (ofInt 2) = add x x := by
  obtain ⟨h₁, h₂, htwo⟩ := ofInt_two
  have hpos := one_pos
  rw [htwo]
  cases x with
  | nan => rfl
  | inf s => simp [mul, add, hpos.ne']
  | finite s m =>
    have hsum : m.units * (2 * one) = (m.units + m.units) * one := by ring
    have hscale := ofRatio_mul_right s (n := m.units + m.units) (d := 1) hpos
    simp only [mul, add, Bool.xor_false, if_true, hsum]
    rw [← hscale, Nat.one_mul]

/-- A product by two on the left is a sum. -/
theorem two_mul (x : F64) : mul (ofInt 2) x = add x x := by
  rw [← mul_two]
  obtain ⟨h₁, h₂, htwo⟩ := ofInt_two
  rw [htwo]
  cases x with
  | nan => rfl
  | inf s => simp [mul]
  | finite s m => simp [mul, Nat.mul_comm]

end F64

end Ieee754
