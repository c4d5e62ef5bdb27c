import ToraJs.BigInt.Shift
import Mathlib.Data.Int.ModEq

/-!
# Truncation of BigInts to a width

`asUintN` and `asIntN` reduce a BigInt modulo a power of two, into the unsigned and the signed
range of a width.  A number that already fits is copied; otherwise its low limbs are copied,
the top one is masked, and the two's complement of the block is taken where a sign asks for
it.  The last theorem says that the results are the projections modulo the power of two.
-/

namespace Torajs

namespace BigInt

/-! ### Blocks -/

/-- The zero bits above the highest bit of a limb. -/
def leadingZeros (w : ℕ) : ℕ := 64 - hiBits w

/-- The bit length of a magnitude. -/
def magnitudeBitlen (words : List ℕ) : ℕ :=
  match words.getLast? with
  | none => 0
  | some top => words.length * 64 - leadingZeros top

/-- The limbs that a width spans. -/
def limbsFor (bits : ℕ) : ℕ := (bits + 63) / 64

/-- Mask the top limb of a block to the bits of a width; the limb must be there. -/
def maskTopLimb (b : List ℕ) (bits : ℕ) : Option (List ℕ) :=
  let rem := bits % 64
  if rem ≠ 0 then
    b[limbsFor bits - 1]?.map fun top =>
      b.set (limbsFor bits - 1) (top &&& ((1 <<< rem) - 1))
  else some b

/-- A fresh block with the low bits of a magnitude. -/
def allocTrunc (value : List ℕ) (bits : ℕ) : Option (List ℕ) :=
  let b := allocRaw (limbsFor bits)
  let copy := min value.length b.length
  maskTopLimb (value.take copy ++ b.drop copy) bits

/-- The loop of a two's complement. -/
def complementLoop : List ℕ → ℕ → List ℕ
  | [], _ => []
  | w :: ws, carry =>
    let sum := notLimb w + carry
    sum % limbBase :: complementLoop ws (sum / limbBase)

/-- The two's complement of a block in place, within a width. -/
def twosComplementInPlace (b : List ℕ) (bits : ℕ) : Option (List ℕ) :=
  let nl := limbsFor bits
  if nl ≤ b.length then maskTopLimb (complementLoop (b.take nl) 1 ++ b.drop nl) bits else none

/-- The sign bit of a block, as a two's complement word of a width. -/
def signBitSet (b : List ℕ) (bits : ℕ) : Option Bool :=
  b[(bits - 1) / 64]?.map fun w => w &&& (1 <<< ((bits - 1) % 64)) != 0

/-! ### The operations -/

/-- The widest unsigned result of a negative number. -/
def maxBits : ℤ := 1 <<< 30

/-- The message of a negative width. -/
def negativeBits : String := "number of bits cannot be negative"

/-- The message of a result that is too wide. -/
def sizeExceeded : String := "Maximum BigInt size exceeded"

/-- `BigInt.asUintN(bits, value)`. -/
def asUintN (bits : ℤ) (value : BigInt) : Except String (Option BigInt) :=
  if bits < 0 then .error negativeBits
  else if bits = 0 then .ok (some ⟨false, allocRaw 0⟩)
  else if !value.sign ∧ magnitudeBitlen value.words ≤ bits.toNat then .ok (some value)
  else if value.sign ∧ maxBits < bits then .error sizeExceeded
  else .ok (do
    let b ← allocTrunc value.words bits.toNat
    let b ← (if value.sign then twosComplementInPlace b bits.toNat else some b)
    some (normalize ⟨false, b⟩))

/-- `BigInt.asIntN(bits, value)`. -/
def asIntN (bits : ℤ) (value : BigInt) : Except String (Option BigInt) :=
  if bits < 0 then .error negativeBits
  else if bits = 0 then .ok (some ⟨false, allocRaw 0⟩)
  else if magnitudeBitlen value.words < bits.toNat then .ok (some value)
  else .ok (do
    let b ← allocTrunc value.words bits.toNat
    let b ← (if value.sign then twosComplementInPlace b bits.toNat else some b)
    let negative ← signBitSet b bits.toNat
    let b ← (if negative then twosComplementInPlace b bits.toNat else some b)
    some (normalize ⟨negative, b⟩))

/-! ### Bit lengths -/

/-- The bit length of a number. -/
lemma magnitudeBitlen_limbsOf (x : ℕ) : magnitudeBitlen (limbsOf x) = Nat.size x := by
  by_cases h0 : x = 0
  · rw [h0, limbsOf_zero, Nat.size_zero]
    rfl
  obtain ⟨hi, hlast, hlt, hpos, hsize⟩ := size_limbsOf h0
  have hlen : 0 < (limbsOf x).length := List.length_pos_of_ne_nil (mt limbsOf_eq_nil_iff.mp h0)
  have hle : Nat.size hi ≤ 64 := Nat.size_le.mpr hlt
  unfold magnitudeBitlen leadingZeros
  rw [hlast]
  simp only [hiBits_eq]
  omega

/-- The limbs of a width span it. -/
lemma limbsFor_spec {bits : ℕ} (h0 : bits ≠ 0) :
    0 < limbsFor bits ∧ bits ≤ 64 * limbsFor bits ∧ 64 * (limbsFor bits - 1) < bits := by
  unfold limbsFor
  omega

/-! ### Masking -/

/-- Masking the top limb of a block reduces its value modulo the power of two. -/
lemma maskTopLimb_spec {b : List ℕ} {bits : ℕ} (hok : LimbsOk b) (h0 : bits ≠ 0)
    (hlen : b.length = limbsFor bits) :
    ∃ r, maskTopLimb b bits = some r ∧ LimbsOk r ∧ r.length = limbsFor bits ∧
      limbsVal r = limbsVal b % 2 ^ bits := by
  obtain ⟨hpos, hle, hlt⟩ := limbsFor_spec h0
  unfold maskTopLimb
  by_cases hrem : bits % 64 = 0
  · have hval : limbsVal b < 2 ^ bits := by
      have hpow : limbBase ^ b.length = 2 ^ bits := by
        rw [limbBase, ← pow_mul, hlen]
        congr 1
        unfold limbsFor at *
        omega
      rw [← hpow]
      exact limbsVal_lt hok
    refine ⟨b, by simp [hrem], hok, hlen, ?_⟩
    rw [Nat.mod_eq_of_lt hval]
  · -- the top limb and those under it
    obtain ⟨ws, top, rfl⟩ : ∃ ws top, b = ws ++ [top] :=
      ⟨_, _, (List.dropLast_append_getLast (List.ne_nil_of_length_pos (by omega))).symm⟩
    have hws : ws.length = limbsFor bits - 1 := by
      rw [List.length_append, List.length_singleton] at hlen
      omega
    obtain ⟨hokws, hoktop⟩ := limbsOk_append.mp hok
    have hbits : bits = 64 * ws.length + bits % 64 := by
      rw [hws]
      unfold limbsFor
      omega
    have hmask : top &&& ((1 <<< (bits % 64)) - 1) = top % 2 ^ (bits % 64) := by
      rw [Nat.one_shiftLeft, Nat.and_two_pow_sub_one_eq_mod]
    refine ⟨ws ++ [top % 2 ^ (bits % 64)], ?_, ?_, ?_, ?_⟩
    · simp only [ne_eq, hrem, not_false_eq_true, if_true, ← hws, List.getElem?_concat_length,
        Option.map_some, hmask]
      rw [List.set_append_right _ _ le_rfl, Nat.sub_self, List.set_cons_zero]
    · refine limbsOk_append.mpr ⟨hokws, limbsOk_cons.mpr ⟨?_, limbsOk_nil⟩⟩
      exact lt_of_le_of_lt (Nat.mod_le _ _) (limbsOk_cons.mp hoktop).1
    · rw [List.length_append, List.length_singleton]
      omega
    · have hpow : 2 ^ bits = limbBase ^ ws.length * 2 ^ (bits % 64) := by
        conv_lhs => rw [hbits, pow_add, pow_mul]
        rfl
      have hlow := limbsVal_lt hokws
      rw [limbsVal_append, limbsVal_append, limbsVal_cons, limbsVal_cons, limbsVal_nil,
        Nat.mul_zero, Nat.add_zero, Nat.add_zero, hpow, Nat.mod_mul, Nat.add_mul_mod_self_left,
        Nat.mod_eq_of_lt hlow, Nat.add_mul_div_left _ _ (Nat.pow_pos limbBase_pos),
        Nat.div_eq_of_lt hlow, Nat.zero_add]

/-- A power of two divides the power of the base that its limbs span. -/
lemma two_pow_dvd {bits : ℕ} (h0 : bits ≠ 0) : 2 ^ bits ∣ limbBase ^ limbsFor bits := by
  rw [limbBase, ← pow_mul]
  exact pow_dvd_pow 2 (limbsFor_spec h0).2.1

/-- The fresh block holds a magnitude modulo the power of two. -/
lemma allocTrunc_spec (x : ℕ) {bits : ℕ} (h0 : bits ≠ 0) (hlen : limbsFor bits < 2 ^ 32) :
    ∃ r, allocTrunc (limbsOf x) bits = some r ∧ LimbsOk r ∧ r.length = limbsFor bits ∧
      limbsVal r = x % 2 ^ bits := by
  have hok := limbsOk_limbsOf x
  have hblock : allocRaw (limbsFor bits) = List.replicate (limbsFor bits) 0 := by
    rw [allocRaw, lenField, Nat.mod_eq_of_lt hlen]
  obtain ⟨copy, hcopy⟩ : ∃ copy, copy = min (limbsOf x).length (limbsFor bits) := ⟨_, rfl⟩
  obtain ⟨b, hb⟩ : ∃ b, b = (limbsOf x).take copy ++ List.replicate (limbsFor bits - copy) 0 :=
    ⟨_, rfl⟩
  have htrunc : allocTrunc (limbsOf x) bits = maskTopLimb b bits := by
    unfold allocTrunc
    rw [hblock]
    simp only [List.length_replicate, ← hcopy, List.drop_replicate, hb]
  have htake : LimbsOk ((limbsOf x).take copy) := fun w hw => hok w (List.mem_of_mem_take hw)
  have hokb : LimbsOk b := by
    rw [hb]
    exact limbsOk_append.mpr ⟨htake, limbsOk_replicate _⟩
  have hlenb : b.length = limbsFor bits := by
    rw [hb, List.length_append, List.length_take, List.length_replicate]
    omega
  have hval : limbsVal b % 2 ^ bits = x % 2 ^ bits := by
    have hsum : limbsVal b = limbsVal ((limbsOf x).take copy) := by
      rw [hb, limbsVal_append, limbsVal_replicate, Nat.mul_zero, Nat.add_zero]
    rw [hsum]
    rcases le_total (limbsOf x).length (limbsFor bits) with h | h
    · rw [hcopy, min_eq_left h, List.take_length, limbsVal_limbsOf]
    · -- the limbs that are cut off are a multiple of the power of two
      have hcut : x = limbsVal ((limbsOf x).take copy) +
          limbBase ^ limbsFor bits * limbsVal ((limbsOf x).drop copy) := by
        conv_lhs => rw [← limbsVal_limbsOf x, ← List.take_append_drop copy (limbsOf x),
          limbsVal_append, List.length_take_of_le (by omega), hcopy, min_eq_right h]
        rw [hcopy, min_eq_right h]
      obtain ⟨m, hm⟩ := two_pow_dvd h0
      conv_rhs => rw [hcut, hm, Nat.mul_assoc, Nat.add_mul_mod_self_left]
  obtain ⟨r, hr, hokr, hlenr, hvalr⟩ := maskTopLimb_spec hokb h0 hlenb
  exact ⟨r, htrunc.trans hr, hokr, hlenr, hvalr.trans hval⟩

/-! ### Two's complement -/

/-- The loop of a two's complement subtracts from the power of the base; a carry comes out
of it when nothing is subtracted. -/
lemma complementLoop_spec (ws : List ℕ) (carry : ℕ) (hok : LimbsOk ws) :
    LimbsOk (complementLoop ws carry) ∧ (complementLoop ws carry).length = ws.length ∧
      ∃ out, limbsVal (complementLoop ws carry) + limbBase ^ ws.length * out + limbsVal ws + 1 =
        limbBase ^ ws.length + carry := by
  induction ws generalizing carry with
  | nil => exact ⟨limbsOk_nil, rfl, carry, by simp [complementLoop, Nat.add_comm]⟩
  | cons w ws ih =>
    obtain ⟨hw, hws⟩ := limbsOk_cons.mp hok
    obtain ⟨hok', hlen, out, hval⟩ := ih ((notLimb w + carry) / limbBase) hws
    refine ⟨limbsOk_cons.mpr ⟨Nat.mod_lt _ limbBase_pos, hok'⟩, by simp [complementLoop, hlen],
      out, ?_⟩
    have hsplit := limb_add_carry (notLimb w + carry)
    have hnot : notLimb w + w + 1 = limbBase := by
      unfold notLimb
      omega
    rw [complementLoop, limbsVal_cons, limbsVal_cons, List.length_cons, pow_succ]
    have hmul := congrArg (limbBase * ·) hval
    simp only [Nat.mul_add] at hmul
    nlinarith

/-- The two's complement of a block is the negative of its value modulo the power of two. -/
lemma twosComplement_spec {b : List ℕ} {bits : ℕ} (hok : LimbsOk b) (h0 : bits ≠ 0)
    (hlen : b.length = limbsFor bits) :
    ∃ r, twosComplementInPlace b bits = some r ∧ LimbsOk r ∧ r.length = limbsFor bits ∧
      (limbsVal r : ℤ) = -(limbsVal b : ℤ) % 2 ^ bits := by
  obtain ⟨hokc, hlenc, out, hval⟩ := complementLoop_spec b 1 hok
  obtain ⟨r, hr, hokr, hlenr, hvalr⟩ := maskTopLimb_spec hokc h0 (hlenc.trans hlen)
  refine ⟨r, ?_, hokr, hlenr, ?_⟩
  · unfold twosComplementInPlace
    simp only
    rw [if_pos hlen.ge, ← hlen, List.take_length, List.drop_length, List.append_nil, hr]
  · obtain ⟨m, hm⟩ := two_pow_dvd h0
    rw [hlen, hm] at hval
    have hvalz : (limbsVal (complementLoop b 1) : ℤ) =
        -(limbsVal b : ℤ) + 2 ^ bits * (m * (1 - out)) := by
      have hcast := congrArg (fun n : ℕ => (n : ℤ)) hval
      push_cast at hcast
      linarith
    rw [hvalr, Int.natCast_mod, hvalz]
    push_cast
    rw [Int.add_mul_emod_self_left]

/-- The sign bit of a block says whether its value reaches half the power of two. -/
lemma signBitSet_spec {b : List ℕ} {bits : ℕ} (hok : LimbsOk b) (h0 : bits ≠ 0)
    (hlen : b.length = limbsFor bits) (hval : limbsVal b < 2 ^ bits) :
    signBitSet b bits = some (decide (2 ^ (bits - 1) ≤ limbsVal b)) := by
  have hidx : (bits - 1) / 64 < b.length := by
    rw [hlen]
    unfold limbsFor
    omega
  have hbit : (limbsVal b).testBit (bits - 1) = decide (2 ^ (bits - 1) ≤ limbsVal b) := by
    have hsucc : 2 ^ bits = 2 ^ (bits - 1) * 2 := by
      rw [← pow_succ]
      congr 1
      omega
    have hdiv : limbsVal b / 2 ^ (bits - 1) < 2 := by
      rw [Nat.div_lt_iff_lt_mul (Nat.two_pow_pos _), Nat.mul_comm, ← hsucc]
      exact hval
    rw [Nat.testBit_eq_decide_div_mod_eq, Nat.mod_eq_of_lt hdiv, decide_eq_decide,
      ← Nat.one_le_div_iff (Nat.two_pow_pos _)]
    omega
  unfold signBitSet
  rw [← hbit, testBit_limbsVal hok, List.getElem?_eq_getElem hidx]
  simp only [Option.map_some, Option.getD_some, Nat.one_shiftLeft]
  congr 1
  rw [Nat.and_two_pow]
  cases b[(bits - 1) / 64].testBit ((bits - 1) % 64) <;> simp

/-! ### The operations on canonical forms -/

/-- A block that denotes a number normalizes to the limbs of the number. -/
lemma normalize_of_limbsVal {b : List ℕ} (s : Bool) (hok : LimbsOk b) :
    normalize ⟨s, b⟩ = ofInt (if s then -(limbsVal b : ℤ) else limbsVal b) := by
  rw [← normalize_limbsOf]
  unfold normalize
  simp only [normalizeWords_eq hok, normalizeWords_limbsOf]

/-- The width of a block that is cut from a number is no more than the number has. -/
lemma limbsFor_lt {x w : ℕ} (hlen : (limbsOf x).length < 2 ^ 32) (hw : w ≤ Nat.size x) :
    limbsFor w < 2 ^ 32 := by
  have hsize : Nat.size x ≤ 64 * (limbsOf x).length := by
    rw [Nat.size_le, pow_mul]
    exact lt_pow_length x
  unfold limbsFor
  omega

/-- The low bits of a number, as an unsigned number. -/
lemma lowBits_spec (x : ℤ) {w : ℕ} (h0 : w ≠ 0) (hlen : limbsFor w < 2 ^ 32) :
    ∃ b, ((allocTrunc (ofInt x).words w).bind fun b =>
        if (ofInt x).sign then twosComplementInPlace b w else some b) = some b ∧
      LimbsOk b ∧ b.length = limbsFor w ∧ (limbsVal b : ℤ) = x % 2 ^ w := by
  obtain ⟨t, ht, hokt, hlent, hvalt⟩ := allocTrunc_spec x.natAbs h0 hlen
  have hbind : (allocTrunc (ofInt x).words w).bind (fun b =>
      if (ofInt x).sign then twosComplementInPlace b w else some b) =
        if (ofInt x).sign then twosComplementInPlace t w else some t := by
    change (allocTrunc (limbsOf x.natAbs) w).bind _ = _
    rw [ht, Option.bind_some]
  rw [hbind]
  by_cases hx : x < 0
  · obtain ⟨b, hb, hokb, hlenb, hvalb⟩ := twosComplement_spec hokt h0 hlent
    refine ⟨b, by rw [if_pos (by simpa [ofInt] using hx), hb], hokb, hlenb, ?_⟩
    rw [hvalb, hvalt]
    push_cast
    have hneg := (Int.mod_modEq (-x) (2 ^ w)).neg
    rw [neg_neg] at hneg
    rw [abs_of_neg hx]
    exact hneg
  · refine ⟨t, by rw [if_neg (by simpa [ofInt] using hx)], hokt, hlent, ?_⟩
    rw [hvalt]
    push_cast
    rw [abs_of_nonneg (not_lt.mp hx)]

/-- A number in a range of the length of a power of two, congruent to another modulo it. -/
def IsUintN (w : ℕ) (a x : ℤ) : Prop := 0 ≤ x ∧ x < 2 ^ w ∧ x ≡ a [ZMOD 2 ^ w]

/-- The signed range of a width; for no bits only zero. -/
def IsIntN (w : ℕ) (a x : ℤ) : Prop :=
  if w = 0 then x = 0 else -2 ^ (w - 1) ≤ x ∧ x < 2 ^ (w - 1) ∧ x ≡ a [ZMOD 2 ^ w]

/-- The unsigned projection is the remainder. -/
lemma isUintN_iff {w : ℕ} {a x : ℤ} : IsUintN w a x ↔ x = a % 2 ^ w := by
  have hpow : (0 : ℤ) < 2 ^ w := by positivity
  constructor
  · rintro ⟨hlo, hhi, hmod⟩
    rw [← hmod, Int.emod_eq_of_lt hlo hhi]
  · rintro rfl
    exact ⟨Int.emod_nonneg a hpow.ne', Int.emod_lt_of_pos a hpow, Int.mod_modEq a _⟩

/-- There is one signed projection. -/
lemma IsIntN.unique {w : ℕ} {a x y : ℤ} (hx : IsIntN w a x) (hy : IsIntN w a y) : x = y := by
  unfold IsIntN at hx hy
  by_cases h0 : w = 0
  · rw [if_pos h0] at hx hy
    rw [hx, hy]
  · rw [if_neg h0] at hx hy
    obtain ⟨hx₁, hx₂, hx₃⟩ := hx
    obtain ⟨hy₁, hy₂, hy₃⟩ := hy
    have hpow : (2 : ℤ) ^ w = 2 ^ (w - 1) * 2 := by
      rw [← pow_succ]
      congr 1
      omega
    -- numbers of the range shifted to start at zero are their remainders
    have hshift : x + 2 ^ (w - 1) ≡ y + 2 ^ (w - 1) [ZMOD 2 ^ w] :=
      (hx₃.trans hy₃.symm).add_right _
    have hrem : x + 2 ^ (w - 1) = y + 2 ^ (w - 1) := by
      rw [Int.ModEq, Int.emod_eq_of_lt (by linarith) (by linarith),
        Int.emod_eq_of_lt (by linarith) (by linarith)] at hshift
      exact hshift
    linarith

/-- The signed projection of a number, from its unsigned one. -/
lemma isIntN_of_uintN {w : ℕ} (h0 : w ≠ 0) (a : ℤ) :
    IsIntN w a (if 2 ^ (w - 1) ≤ a % 2 ^ w then -(-(a % 2 ^ w) % 2 ^ w) else a % 2 ^ w) := by
  obtain ⟨hlo, hhi, hmod⟩ := isUintN_iff.mpr (rfl : a % 2 ^ w = a % 2 ^ w)
  have hpow : (2 : ℤ) ^ w = 2 ^ (w - 1) * 2 := by
    rw [← pow_succ]
    congr 1
    omega
  have hhalf : (0 : ℤ) < 2 ^ (w - 1) := by positivity
  unfold IsIntN
  rw [if_neg h0]
  split_ifs with hsign
  · have hneg : -(a % 2 ^ w) % 2 ^ w = 2 ^ w - a % 2 ^ w := by
      rw [← Int.add_emod_right, Int.emod_eq_of_lt (by linarith) (by linarith)]
      ring
    rw [hneg]
    refine ⟨by linarith, by linarith, ?_⟩
    have hsub : -(2 ^ w - a % 2 ^ w) = a % 2 ^ w - 2 ^ w := by ring
    rw [hsub]
    exact (Int.sub_modulus_modEq_iff).mpr hmod
  · exact ⟨by linarith, not_le.mp hsign, hmod⟩

/-- The unsigned truncation of a number. -/
lemma asUintN_ofInt {x : ℤ} {w : ℕ} (h0 : w ≠ 0) (hlen : (limbsOf x.natAbs).length < 2 ^ 32)
    (hw : 0 ≤ x ∨ (w : ℤ) ≤ maxBits) :
    asUintN w (ofInt x) = .ok (some (ofInt (x % 2 ^ w))) := by
  have hbits : magnitudeBitlen (ofInt x).words = Nat.size x.natAbs := magnitudeBitlen_limbsOf _
  have hsign : (ofInt x).sign = decide (x < 0) := rfl
  unfold asUintN
  rw [if_neg (by omega), if_neg (by omega), hbits, Int.toNat_natCast]
  by_cases hfast : !(ofInt x).sign ∧ Nat.size x.natAbs ≤ w
  · have hx : 0 ≤ x := by simpa [hsign] using hfast.1
    have hlt : x < 2 ^ w := by
      have hnat : x.natAbs < 2 ^ w := Nat.size_le.mp hfast.2
      have hcast : ((x.natAbs : ℕ) : ℤ) < 2 ^ w := by exact_mod_cast hnat
      omega
    rw [if_pos hfast, Int.emod_eq_of_lt hx hlt]
  · have hmax : ¬((ofInt x).sign ∧ maxBits < (w : ℤ)) := by
      rintro ⟨hneg, hlt⟩
      have hx : x < 0 := by simpa [hsign] using hneg
      omega
    have hblock : limbsFor w < 2 ^ 32 := by
      by_cases hx : 0 ≤ x
      · have hsize : ¬Nat.size x.natAbs ≤ w := by
          intro hle
          exact hfast ⟨by simpa [hsign] using hx, hle⟩
        exact limbsFor_lt hlen (by omega)
      · have hle : (w : ℤ) ≤ maxBits := hw.resolve_left hx
        have hval : maxBits = 2 ^ 30 := rfl
        unfold limbsFor
        omega
    obtain ⟨b, hb, hok, -, hval⟩ := lowBits_spec x h0 hblock
    rw [if_neg hfast, if_neg hmax]
    change Except.ok ((allocTrunc (ofInt x).words w).bind fun b =>
      (if (ofInt x).sign then twosComplementInPlace b w else some b).bind fun b =>
        some (normalize ⟨false, b⟩)) = _
    rw [← Option.bind_assoc, hb, Option.bind_some, normalize_of_limbsVal false hok,
      if_neg (by simp), hval]

/-- The signed truncation of a number. -/
lemma asIntN_ofInt {x : ℤ} {w : ℕ} (h0 : w ≠ 0) (hlen : (limbsOf x.natAbs).length < 2 ^ 32) :
    ∃ z, asIntN w (ofInt x) = .ok (some (ofInt z)) ∧ IsIntN w x z := by
  have hbits : magnitudeBitlen (ofInt x).words = Nat.size x.natAbs := magnitudeBitlen_limbsOf _
  unfold asIntN
  rw [if_neg (by omega), if_neg (by omega), hbits, Int.toNat_natCast]
  by_cases hfast : Nat.size x.natAbs < w
  · refine ⟨x, by rw [if_pos hfast], ?_⟩
    have hnat : x.natAbs < 2 ^ (w - 1) := Nat.size_le.mp (by omega)
    have hcast : ((x.natAbs : ℕ) : ℤ) < 2 ^ (w - 1) := by exact_mod_cast hnat
    unfold IsIntN
    rw [if_neg h0]
    exact ⟨by omega, by omega, rfl⟩
  · have hblock : limbsFor w < 2 ^ 32 := limbsFor_lt hlen (not_lt.mp hfast)
    obtain ⟨b, hb, hok, hlenb, hval⟩ := lowBits_spec x h0 hblock
    obtain ⟨c, hc, hokc, -, hvalc⟩ := twosComplement_spec hok h0 hlenb
    have hlt : limbsVal b < 2 ^ w := by
      have hpow : (0 : ℤ) < 2 ^ w := by positivity
      have hcast : (limbsVal b : ℤ) < 2 ^ w := hval ▸ Int.emod_lt_of_pos x hpow
      exact_mod_cast hcast
    have hbit := signBitSet_spec hok h0 hlenb hlt
    have hhalf : (2 ^ (w - 1) ≤ limbsVal b) ↔ (2 : ℤ) ^ (w - 1) ≤ x % 2 ^ w := by
      rw [← hval]
      exact_mod_cast Iff.rfl
    refine ⟨_, ?_, isIntN_of_uintN h0 x⟩
    rw [if_neg hfast]
    change Except.ok ((allocTrunc (ofInt x).words w).bind fun b =>
      (if (ofInt x).sign then twosComplementInPlace b w else some b).bind fun b =>
        (signBitSet b w).bind fun negative =>
          (if negative then twosComplementInPlace b w else some b).bind fun b =>
            some (normalize ⟨negative, b⟩)) = _
    rw [← Option.bind_assoc, hb, Option.bind_some, hbit, Option.bind_some]
    congr 2
    by_cases hsign : 2 ^ (w - 1) ≤ limbsVal b
    · rw [decide_eq_true hsign, if_pos rfl, hc, Option.bind_some, normalize_of_limbsVal true hokc,
        if_pos rfl, hvalc, hval, if_pos (hhalf.mp hsign)]
    · rw [decide_eq_false hsign, if_neg (by simp), Option.bind_some,
        normalize_of_limbsVal false hok, if_neg (by simp), hval, if_neg (mt hhalf.mpr hsign)]

/-! ### Projections -/

/-- No error is raised. -/
def Accepts (r : Except String (Option BigInt)) : Prop := ∀ e, r ≠ .error e

/-- The result is canonical and the one number with a property. -/
def Projects (r : Except String (Option BigInt)) (p : ℤ → Prop) : Prop :=
  ∃ b, r = .ok (some b) ∧ b.Canonical ∧ ∀ x, p x ↔ x = b.toInt

/-- The truncations of a BigInt to a width: the widths that are accepted, and what the results
are. -/
structure TruncatesTo (w : ℤ) (a : BigInt) : Prop where
  acceptsUint : Accepts (asUintN w a) ↔ 0 ≤ w ∧ (0 ≤ a.toInt ∨ w ≤ maxBits)
  uint : Accepts (asUintN w a) → Projects (asUintN w a) (IsUintN w.toNat a.toInt)
  acceptsInt : Accepts (asIntN w a) ↔ 0 ≤ w
  int : Accepts (asIntN w a) → Projects (asIntN w a) (IsIntN w.toNat a.toInt)

/-- The result of an operation that raises no error. -/
lemma accepts_ok (r : Option BigInt) : Accepts (.ok r) := by
  intro e he
  cases he

/-- A canonical result that is the one number with a property. -/
lemma projects_ofInt {p : ℤ → Prop} {z : ℤ} (h : ∀ x, p x ↔ x = z) :
    Projects (.ok (some (ofInt z))) p :=
  ⟨_, rfl, canonical_ofInt z, fun x => by rw [toInt_ofInt, h]⟩

/-- `asUintN` and `asIntN` on a canonical BigInt whose length is a 32-bit number are the
projections into the ranges of the width, modulo the power of two. -/
theorem truncatesTo {a : BigInt} (ha : a.Canonical) (hlen : a.words.length < 2 ^ 32) (w : ℤ) :
    TruncatesTo w a := by
  obtain ⟨x, rfl⟩ : ∃ x, a = ofInt x := ⟨_, ha.eq_ofInt⟩
  have hx := toInt_ofInt x
  rcases lt_or_ge w 0 with hw | hw
  · have huint : asUintN w (ofInt x) = .error negativeBits := if_pos hw
    have hint : asIntN w (ofInt x) = .error negativeBits := if_pos hw
    have herror : ¬Accepts (.error negativeBits) := fun h => h _ rfl
    rw [← huint] at herror
    have herror' := herror
    rw [huint, ← hint] at herror'
    refine ⟨?_, fun h => absurd h herror, ?_, fun h => absurd h herror'⟩
    · exact iff_of_false herror fun h => absurd h.1 (not_le.mpr hw)
    · exact iff_of_false herror' (not_le.mpr hw)
  obtain ⟨n, rfl⟩ : ∃ n : ℕ, w = n := ⟨w.toNat, by omega⟩
  by_cases h0 : n = 0
  · subst h0
    have huint : asUintN 0 (ofInt x) = .ok (some (ofInt 0)) := rfl
    have hint : asIntN 0 (ofInt x) = .ok (some (ofInt 0)) := rfl
    refine ⟨?_, fun _ => ?_, ?_, fun _ => ?_⟩
    · exact iff_of_true (huint ▸ accepts_ok _) ⟨le_rfl, .inr (by decide)⟩
    · refine huint ▸ projects_ofInt fun z => ?_
      rw [isUintN_iff, Int.toNat_natCast, pow_zero, Int.emod_one]
    · exact iff_of_true (hint ▸ accepts_ok _) le_rfl
    · exact hint ▸ projects_ofInt fun z => by simp [IsIntN]
  · obtain ⟨z, hz, hrange⟩ := asIntN_ofInt (x := x) h0 hlen
    have huint : 0 ≤ x ∨ (n : ℤ) ≤ maxBits → asUintN n (ofInt x) = .ok (some (ofInt (x % 2 ^ n))) :=
      asUintN_ofInt h0 hlen
    have hacc : Accepts (asUintN n (ofInt x)) ↔ 0 ≤ (n : ℤ) ∧ (0 ≤ x ∨ (n : ℤ) ≤ maxBits) := by
      constructor
      · intro h
        refine ⟨hw, ?_⟩
        by_contra hwide
        obtain ⟨hneg, hlt⟩ := not_or.mp hwide
        have hsign : (ofInt x).sign = true := decide_eq_true (not_le.mp hneg)
        refine h sizeExceeded ?_
        unfold asUintN
        rw [if_neg (by omega), if_neg (by omega), if_neg (by simp [hsign]),
          if_pos ⟨hsign, not_le.mp hlt⟩]
      · rintro ⟨-, h⟩
        exact huint h ▸ accepts_ok _
    refine ⟨by rw [hx, hacc], fun h => ?_, ?_, fun _ => ?_⟩
    · rw [huint (hacc.mp h).2, hx, Int.toNat_natCast]
      exact projects_ofInt fun y => isUintN_iff
    · exact iff_of_true (hz ▸ accepts_ok _) hw
    · rw [hz, hx, Int.toNat_natCast]
      exact projects_ofInt fun y => ⟨fun h => h.unique hrange, fun h => h ▸ hrange⟩

/-- The truncations of `-1n` to 100 bits. -/
theorem truncatesTo_hundred : TruncatesTo 100 ⟨true, [1]⟩ :=
  truncatesTo (by decide) (by decide) 100

end BigInt

end Torajs
