import ToraJs.BigInt.Bitwise

/-!
# BigInt shifts

A shift count is split into whole limbs and bits.  The number of whole limbs is kept in 32
bits, so a count acts through its remainder modulo `2 ^ 38`; the last theorem says exactly
when that and the length of the block make a shift give something other than the product or
the floored quotient by the power of two.
-/

namespace Torajs

namespace BigInt

/-! ### Magnitudes -/

/-- The loop of a left shift by fewer bits than a limb has; the carry comes last. -/
def shlBits (bitShift : ℕ) : List ℕ → ℕ → List ℕ
  | [], carry => [carry]
  | v :: as, carry =>
    (v <<< bitShift % limbBase ||| carry) :: shlBits bitShift as (v >>> (64 - bitShift))

/-- The whole limbs of a shift count, in 32 bits. -/
def limbShift (n : ℕ) : ℕ := lenField (n / 64)

/-- `|a| << n`. -/
def magShl (a : List ℕ) (n : ℕ) : Option (List ℕ) :=
  if a.length = 0 ∨ n = 0 then some a
  else
    let bitShift := n % 64
    let limbs := if bitShift = 0 then a else shlBits bitShift a 0
    (writeLimbs (allocRaw (a.length + limbShift n + 1))
      (List.replicate (limbShift n) 0 ++ limbs)).map normalizeWords

/-- The loop of a right shift by fewer bits than a limb has. -/
def shrBits (bitShift : ℕ) : List ℕ → List ℕ
  | [] => []
  | v :: as =>
    let hi := match as with
      | w :: _ => w <<< (64 - bitShift) % limbBase
      | [] => 0
    (v >>> bitShift ||| hi) :: shrBits bitShift as

/-- `|a| >> n`. -/
def magShr (a : List ℕ) (n : ℕ) : List ℕ :=
  if a.length ≤ limbShift n then allocRaw 0
  else
    let bitShift := n % 64
    normalizeWords (if bitShift = 0 then a.drop (limbShift n)
      else shrBits bitShift (a.drop (limbShift n)))

/-! ### The operations -/

/-- The largest `i64`. -/
def i64Max : ℕ := 2 ^ 63 - 1

/-- The message of a shift count that is not an `i64`. -/
def shiftTooLarge : String := "BigInt shift amount too large"

/-- A shift count as an `i64`. -/
def toI64ForShift (n : BigInt) : Except String ℤ :=
  match n.words with
  | [] => .ok 0
  | [v] => if i64Max < v then .error shiftTooLarge else .ok (if n.sign then -(v : ℤ) else v)
  | _ :: _ :: _ => .error shiftTooLarge

/-- Only a count with a sign is negative. -/
lemma sign_of_toI64ForShift {n : BigInt} {shift : ℤ} (h : toI64ForShift n = .ok shift)
    (hneg : shift < 0) : n.sign = true := by
  unfold toI64ForShift at h
  split at h
  · cases h
    exact absurd hneg (lt_irrefl 0)
  · split_ifs at h with _ hs
    · exact hs
    · cases h
      omega
  · cases h

mutual

/-- `a << n`; a negative count shifts right. -/
def shl (a n : BigInt) : Except String (Option BigInt) :=
  match h : toI64ForShift n with
  | .error e => .error e
  | .ok shift =>
    if shift = 0 then .ok (some a)
    else if _ : shift < 0 then shr a ⟨false, n.words⟩
    else .ok ((magShl a.words shift.toNat).map fun r =>
      ⟨if r.length = 0 then false else a.sign, r⟩)
termination_by n.sign.toNat
decreasing_by
  rw [sign_of_toI64ForShift h ‹_›]
  exact Nat.zero_lt_one

/-- `a >> n`; a negative count shifts left, and a negative number is rounded down. -/
def shr (a n : BigInt) : Except String (Option BigInt) :=
  match _h : toI64ForShift n with
  | .error e => .error e
  | .ok shift =>
    if shift = 0 then .ok (some a)
    else if _ : shift < 0 then shl a ⟨false, n.words⟩
    else if !a.sign then .ok (some ⟨false, magShr a.words shift.toNat⟩)
    else
      let shifted := magShr (magDec1 a.words) shift.toNat
      .ok ((magInc1 shifted).map signed)
termination_by n.sign.toNat
decreasing_by
  rw [sign_of_toI64ForShift _h ‹_›]
  exact Nat.zero_lt_one

end

/-! ### Shifting by bits -/

/-- The base is a multiple of a power of two below it. -/
lemma limbBase_eq {b : ℕ} (hb : b < 64) : limbBase = 2 ^ (64 - b) * 2 ^ b := by
  rw [← pow_add, Nat.sub_add_cancel hb.le]
  rfl

/-- A limb shifted left, with a carry in the bits it left. -/
lemma shl_or_carry {b v carry : ℕ} (hb : b < 64) (hc : carry < 2 ^ b) :
    (v <<< b % limbBase ||| carry) = v * 2 ^ b % limbBase + carry := by
  have hmod : v <<< b % limbBase = 2 ^ b * (v % 2 ^ (64 - b)) := by
    rw [Nat.shiftLeft_eq, Nat.mul_comm v, limbBase_eq hb, Nat.mul_comm _ (2 ^ b),
      Nat.mul_mod_mul_left]
  rw [← Nat.shiftLeft_eq, hmod, Nat.two_pow_add_eq_or_of_lt hc]

/-- The bits that leave a limb. -/
lemma shiftRight_eq_carry {b v : ℕ} (hb : b < 64) : v >>> (64 - b) = v * 2 ^ b / limbBase := by
  rw [Nat.shiftRight_eq_div_pow, limbBase_eq hb, Nat.mul_div_mul_right _ _ (Nat.two_pow_pos b)]

/-- The loop of a left shift multiplies. -/
lemma shlBits_spec {b : ℕ} (hb : b < 64) (ws : List ℕ) (carry : ℕ) (hok : LimbsOk ws)
    (hc : carry < 2 ^ b) :
    limbsVal (shlBits b ws carry) = limbsVal ws * 2 ^ b + carry ∧
      LimbsOk (shlBits b ws carry) ∧ (shlBits b ws carry).length = ws.length + 1 := by
  have hpow : 2 ^ b < limbBase := Nat.pow_lt_pow_right (by norm_num) hb
  induction ws generalizing carry with
  | nil => exact ⟨by simp [shlBits], limbsOk_cons.mpr ⟨hc.trans hpow, limbsOk_nil⟩, rfl⟩
  | cons w ws ih =>
    obtain ⟨hw, hws⟩ := limbsOk_cons.mp hok
    have hcarry : w >>> (64 - b) < 2 ^ b := by
      rw [shiftRight_eq_carry hb, Nat.div_lt_iff_lt_mul limbBase_pos, Nat.mul_comm]
      exact Nat.mul_lt_mul_of_pos_left hw (Nat.two_pow_pos b)
    obtain ⟨hval, hok', hlen⟩ := ih _ hws hcarry
    have hsplit := limb_add_carry (w * 2 ^ b)
    refine ⟨?_, limbsOk_cons.mpr ⟨?_, hok'⟩, by simpa [shlBits] using hlen⟩
    · rw [shlBits, limbsVal_cons, hval, limbsVal_cons, shl_or_carry hb hc, shiftRight_eq_carry hb]
      linarith
    · exact Nat.or_lt_two_pow (Nat.mod_lt _ limbBase_pos) (hc.trans hpow)

/-- A limb shifted right, with the low bits of the next limb above it. -/
lemma shr_or_high {b v w : ℕ} (hb : b < 64) (hv : v < limbBase) :
    (v >>> b ||| w <<< (64 - b) % limbBase) = v / 2 ^ b + 2 ^ (64 - b) * (w % 2 ^ b) := by
  have hlow : v / 2 ^ b < 2 ^ (64 - b) := by
    rw [Nat.div_lt_iff_lt_mul (Nat.two_pow_pos b), ← limbBase_eq hb]
    exact hv
  rw [Nat.shiftRight_eq_div_pow, Nat.shiftLeft_eq, Nat.mul_comm w, limbBase_eq hb,
    Nat.mul_mod_mul_left, Nat.or_comm, ← Nat.two_pow_add_eq_or_of_lt hlow, Nat.add_comm]

/-- The loop of a right shift divides. -/
lemma shrBits_spec {b : ℕ} (hb : b < 64) (ws : List ℕ) (hok : LimbsOk ws) :
    limbsVal (shrBits b ws) = limbsVal ws / 2 ^ b ∧ LimbsOk (shrBits b ws) := by
  induction ws with
  | nil => exact ⟨by simp [shrBits], limbsOk_nil⟩
  | cons v ws ih =>
    obtain ⟨hv, hws⟩ := limbsOk_cons.mp hok
    obtain ⟨hval, hok'⟩ := ih hws
    have hcomm : ∀ n, limbBase * n = 2 ^ (64 - b) * n * 2 ^ b := by
      intro n
      rw [limbBase_eq hb]
      ring
    have hdiv : (v + limbBase * limbsVal ws) / 2 ^ b =
        v / 2 ^ b + 2 ^ (64 - b) * limbsVal ws := by
      rw [hcomm, Nat.add_mul_div_right _ _ (Nat.two_pow_pos b)]
    -- the low bits of what follows are those of its first limb
    have hcons : shrBits b (v :: ws) =
        (v / 2 ^ b + 2 ^ (64 - b) * (limbsVal ws % 2 ^ b)) :: shrBits b ws := by
      cases ws with
      | nil => simp [shrBits, Nat.shiftRight_eq_div_pow]
      | cons w ws =>
        have hlow : limbsVal (w :: ws) % 2 ^ b = w % 2 ^ b := by
          rw [limbsVal_cons, hcomm, Nat.add_mul_mod_self_right]
        rw [hlow, ← shr_or_high hb hv]
        rfl
    have hlimb : v / 2 ^ b + 2 ^ (64 - b) * (limbsVal ws % 2 ^ b) < limbBase := by
      have hlow : v / 2 ^ b < 2 ^ (64 - b) := by
        rw [Nat.div_lt_iff_lt_mul (Nat.two_pow_pos b), ← limbBase_eq hb]
        exact hv
      have hmul : 2 ^ (64 - b) * (limbsVal ws % 2 ^ b + 1) ≤ 2 ^ (64 - b) * 2 ^ b :=
        Nat.mul_le_mul_left _ (Nat.mod_lt _ (Nat.two_pow_pos b))
      rw [← limbBase_eq hb, Nat.mul_add, Nat.mul_one] at hmul
      omega
    refine ⟨?_, ?_⟩
    · rw [hcons, limbsVal_cons, hval, limbsVal_cons, hdiv, limbBase_eq hb]
      have hsplit := Nat.mod_add_div (limbsVal ws) (2 ^ b)
      have hmul := congrArg (2 ^ (64 - b) * ·) hsplit
      simp only [Nat.mul_add] at hmul
      linarith
    · rw [hcons]
      exact limbsOk_cons.mpr ⟨hlimb, hok'⟩

/-! ### Shifting magnitudes -/

/-- A count acts through its remainder modulo `2 ^ 38`. -/
def effective (n : ℕ) : ℕ := n % 2 ^ 38

/-- The whole limbs and the bits of a count make its remainder. -/
lemma limbShift_add (n : ℕ) : 64 * limbShift n + n % 64 = effective n := by
  unfold limbShift lenField effective
  omega

/-- Room for a left shift: the limbs of the number, those of the count and one for the carry
fit the length field. -/
def ShlRoom (x n : ℕ) : Prop := (limbsOf x).length + limbShift n + 1 < 2 ^ 32

instance (x n : ℕ) : Decidable (ShlRoom x n) := inferInstanceAs (Decidable (_ < _))

/-- A left shift of the limbs of a number that is not zero. -/
theorem magShl_limbsOf {x n : ℕ} (hx : x ≠ 0) (hn : n ≠ 0) :
    magShl (limbsOf x) n =
      if ShlRoom x n then some (limbsOf (x * 2 ^ effective n)) else none := by
  have hpos : 0 < (limbsOf x).length := List.length_pos_of_ne_nil (mt limbsOf_eq_nil_iff.mp hx)
  have hb : n % 64 < 64 := Nat.mod_lt _ (by norm_num)
  obtain ⟨limbs, hlimbs⟩ : ∃ limbs,
      limbs = if n % 64 = 0 then limbsOf x else shlBits (n % 64) (limbsOf x) 0 := ⟨_, rfl⟩
  -- the limbs written, above the zeros of the whole limbs
  have hspec : limbsVal limbs = x * 2 ^ (n % 64) ∧ LimbsOk limbs ∧
      (limbsOf x).length ≤ limbs.length ∧ limbs.length ≤ (limbsOf x).length + 1 := by
    rw [hlimbs]
    split_ifs with h0
    · rw [h0, pow_zero, Nat.mul_one]
      exact ⟨limbsVal_limbsOf x, limbsOk_limbsOf x, le_rfl, Nat.le_succ _⟩
    · obtain ⟨hval, hok, hlen⟩ :=
        shlBits_spec hb (limbsOf x) 0 (limbsOk_limbsOf x) (Nat.two_pow_pos _)
      rw [limbsVal_limbsOf, Nat.add_zero] at hval
      exact ⟨hval, hok, by omega, by omega⟩
  obtain ⟨hval, hok, hlo, hhi⟩ := hspec
  have hshl : magShl (limbsOf x) n =
      (writeLimbs (allocRaw ((limbsOf x).length + limbShift n + 1))
        (List.replicate (limbShift n) 0 ++ limbs)).map normalizeWords := by
    rw [magShl, if_neg (by omega), hlimbs]
  rw [hshl]
  by_cases hroom : ShlRoom x n
  · have hblock : (allocRaw ((limbsOf x).length + limbShift n + 1)).length =
        (limbsOf x).length + limbShift n + 1 := by
      rw [allocRaw, List.length_replicate, lenField, Nat.mod_eq_of_lt hroom]
    rw [if_pos hroom, writeLimbs, if_pos]
    · rw [Option.map_some]
      congr 1
      have hrest : LimbsOk ((allocRaw ((limbsOf x).length + limbShift n + 1)).drop
          (List.replicate (limbShift n) 0 ++ limbs).length) :=
        fun w hw => limbsOk_replicate _ w (List.mem_of_mem_drop hw)
      have hzero : limbsVal ((allocRaw ((limbsOf x).length + limbShift n + 1)).drop
          (List.replicate (limbShift n) 0 ++ limbs).length) = 0 := by
        rw [allocRaw, List.drop_replicate, limbsVal_replicate]
      rw [normalizeWords_eq (limbsOk_append.mpr
        ⟨limbsOk_append.mpr ⟨limbsOk_replicate _, hok⟩, hrest⟩), limbsVal_append, hzero,
        limbsVal_append, limbsVal_replicate, hval, List.length_replicate, ← limbShift_add,
        pow_add, pow_mul]
      congr 1
      rw [Nat.mul_zero, Nat.add_zero, Nat.zero_add, limbBase]
      ring
    · rw [hblock, List.length_append, List.length_replicate]
      omega
  · have hblock : (allocRaw ((limbsOf x).length + limbShift n + 1)).length <
        limbShift n + (limbsOf x).length := by
      rw [allocRaw, List.length_replicate, lenField]
      have hshift : limbShift n < 2 ^ 32 := Nat.mod_lt _ (by norm_num)
      unfold ShlRoom at hroom
      omega
    rw [if_neg hroom, writeLimbs, if_neg, Option.map_none]
    rw [List.length_append, List.length_replicate]
    omega

/-- A right shift of the limbs of a number. -/
theorem magShr_limbsOf (x n : ℕ) : magShr (limbsOf x) n = limbsOf (x / 2 ^ effective n) := by
  have hb : n % 64 < 64 := Nat.mod_lt _ (by norm_num)
  have hpow : 2 ^ effective n = limbBase ^ limbShift n * 2 ^ (n % 64) := by
    rw [← limbShift_add, pow_add, pow_mul]
    rfl
  unfold magShr
  split_ifs with hlen
  · have hzero : x / 2 ^ effective n = 0 := by
      refine Nat.div_eq_of_lt ?_
      calc x < limbBase ^ (limbsOf x).length := lt_pow_length x
        _ ≤ limbBase ^ limbShift n := Nat.pow_le_pow_right limbBase_pos hlen
        _ ≤ 2 ^ effective n := by
          rw [hpow]
          exact Nat.le_mul_of_pos_right _ (Nat.two_pow_pos _)
    rw [hzero, limbsOf_zero]
    rfl
  · have hdrop : LimbsOk ((limbsOf x).drop (limbShift n)) :=
      fun w hw => limbsOk_limbsOf x w (List.mem_of_mem_drop hw)
    have hval : limbsVal ((limbsOf x).drop (limbShift n)) = x / limbBase ^ limbShift n := by
      have hsplit := congrArg Prod.snd (magSplitAt_limbsOf x (limbShift n))
      change normalizeWords _ = limbsOf _ at hsplit
      rw [normalizeWords_eq hdrop] at hsplit
      rw [← limbsVal_limbsOf (limbsVal _), hsplit, limbsVal_limbsOf]
    obtain ⟨hshr, hok⟩ := shrBits_spec hb _ hdrop
    rw [hpow, ← Nat.div_div_eq_div_mul, ← hval]
    simp only
    split_ifs with h0
    · rw [h0, pow_zero, Nat.div_one, normalizeWords_eq hdrop]
    · rw [normalizeWords_eq hok, hshr]

/-! ### The operations on canonical forms -/

/-- A number of one limb. -/
lemma limbsOf_of_lt {m : ℕ} (h0 : m ≠ 0) (hm : m < limbBase) : limbsOf m = [m] :=
  Nat.digits_of_lt limbBase m h0 hm

/-- A count that is an `i64` is read as itself. -/
lemma toI64ForShift_ofInt {n : ℤ} (hn : n.natAbs ≤ i64Max) : toI64ForShift (ofInt n) = .ok n := by
  by_cases h0 : n = 0
  · rw [h0]
    rfl
  · have hlt : n.natAbs < limbBase := lt_of_le_of_lt hn (by norm_num [i64Max, limbBase])
    have hwords : (ofInt n).words = [n.natAbs] := limbsOf_of_lt (Int.natAbs_ne_zero.mpr h0) hlt
    unfold toI64ForShift
    rw [hwords]
    simp only
    rw [if_neg (not_lt.mpr hn)]
    congr 1
    by_cases hneg : n < 0
    · rw [if_pos (by simpa [ofInt] using hneg)]
      omega
    · rw [if_neg (by simpa [ofInt] using hneg)]
      omega

/-- What a left shift does once its count is read. -/
lemma shl_of_shift {a n : BigInt} {shift : ℤ} (hn : toI64ForShift n = .ok shift) :
    shl a n =
      if shift = 0 then .ok (some a)
      else if shift < 0 then shr a ⟨false, n.words⟩
      else .ok ((magShl a.words shift.toNat).map fun r =>
        ⟨if r.length = 0 then false else a.sign, r⟩) := by
  rw [shl]
  split
  · next e he =>
    rw [hn] at he
    cases he
  · next s hs =>
    rw [hn] at hs
    cases hs
    simp only [dite_eq_ite]

/-- What a right shift does once its count is read. -/
lemma shr_of_shift {a n : BigInt} {shift : ℤ} (hn : toI64ForShift n = .ok shift) :
    shr a n =
      if shift = 0 then .ok (some a)
      else if shift < 0 then shl a ⟨false, n.words⟩
      else if !a.sign then .ok (some ⟨false, magShr a.words shift.toNat⟩)
      else .ok ((magInc1 (magShr (magDec1 a.words) shift.toNat)).map signed) := by
  rw [shr]
  split
  · next e he =>
    rw [hn] at he
    cases he
  · next s hs =>
    rw [hn] at hs
    cases hs
    simp only [dite_eq_ite]

/-- A left shift by a count that is positive. -/
lemma shl_ofInt {x : ℤ} {k : ℕ} (hk0 : k ≠ 0) (hk : k ≤ i64Max) :
    shl (ofInt x) (ofInt k) =
      .ok (if x = 0 ∨ ShlRoom x.natAbs k then some (ofInt (x * 2 ^ effective k)) else none) := by
  rw [shl_of_shift (toI64ForShift_ofInt (by simpa using hk)), if_neg (by omega), if_neg (by omega),
    Int.toNat_natCast]
  congr 1
  by_cases hx : x = 0
  · subst hx
    have hzero : magShl (ofInt 0).words k = some [] := by
      rw [magShl, if_pos (.inl rfl)]
      rfl
    rw [hzero, if_pos (.inl rfl), Int.zero_mul]
    rfl
  · change (magShl (limbsOf x.natAbs) k).map _ = _
    rw [magShl_limbsOf (Int.natAbs_ne_zero.mpr hx) hk0]
    by_cases hroom : ShlRoom x.natAbs k
    · have hpos : 0 < x.natAbs * 2 ^ effective k :=
        Nat.mul_pos (Int.natAbs_pos.mpr hx) (Nat.two_pow_pos _)
      have habs : (x * 2 ^ effective k).natAbs = x.natAbs * 2 ^ effective k := by
        rw [Int.natAbs_mul, Int.natAbs_pow]
        rfl
      have hsign : decide (x * 2 ^ effective k < 0) = decide (x < 0) := by
        have hpow : (0 : ℤ) < 2 ^ effective k := by positivity
        rw [decide_eq_decide]
        exact ⟨fun h => neg_of_mul_neg_left h hpow.le, fun h => mul_neg_of_neg_of_pos h hpow⟩
      have hlen : (limbsOf (x.natAbs * 2 ^ effective k)).length ≠ 0 := by
        rw [Ne, List.length_eq_zero_iff, limbsOf_eq_nil_iff]
        exact hpos.ne'
      rw [if_pos hroom, if_pos (.inr hroom), Option.map_some, if_neg hlen]
      simp only [ofInt, habs, hsign]
    · rw [if_neg hroom, if_neg (not_or.mpr ⟨hx, hroom⟩), Option.map_none]

/-- A right shift by a count that is positive. -/
lemma shr_ofInt {x : ℤ} {k : ℕ} (hk0 : k ≠ 0) (hk : k ≤ i64Max) :
    shr (ofInt x) (ofInt k) =
      .ok (if 0 ≤ x ∨ IncFits ((x.natAbs - 1) / 2 ^ effective k)
        then some (ofInt (x / 2 ^ effective k)) else none) := by
  rw [shr_of_shift (toI64ForShift_ofInt (by simpa using hk)), if_neg (by omega), if_neg (by omega),
    Int.toNat_natCast]
  cases x with
  | ofNat m =>
    rw [Int.ofNat_eq_natCast, ofInt_natCast, if_pos (by simp), if_pos (.inl (Int.natCast_nonneg m)),
      magShr_limbsOf, ← ofInt_natCast]
    push_cast
    rfl
  | negSucc m =>
    have hneg : ¬0 ≤ Int.negSucc m := not_le.mpr (Int.negSucc_lt_zero m)
    have hquot : Int.negSucc m / 2 ^ effective k = Int.negSucc (m / 2 ^ effective k) := by
      have hpow : (0 : ℤ) < 2 ^ effective k := by positivity
      rw [Int.negSucc_ediv m hpow, Int.negSucc_eq]
      push_cast
      rfl
    have habs : (Int.negSucc m).natAbs - 1 = m := rfl
    rw [ofInt_negSucc, if_neg (by simp), magDec1_limbsOf, magShr_limbsOf, magInc1_limbsOf, habs,
      hquot, ofInt_negSucc]
    congr 1
    by_cases hfit : IncFits (m / 2 ^ effective k)
    · have hpos : 0 < (limbsOf (m / 2 ^ effective k + 1)).length :=
        List.length_pos_of_ne_nil (mt limbsOf_eq_nil_iff.mp (Nat.succ_ne_zero _))
      rw [if_pos hfit, if_pos (.inr hfit), Option.map_some, signed, decide_eq_true hpos]
    · rw [if_neg hfit, if_neg (not_or.mpr ⟨hneg, hfit⟩), Option.map_none]

/-! ### Powers of two -/

/-- The number that a shift of `z` by `n` bits to the left stands for; to the right when `n` is
negative. -/
def shifted (z n : ℤ) : ℤ := if 0 ≤ n then z * 2 ^ n.toNat else z / 2 ^ (-n).toNat

/-- A shift raises an error or gives a number in canonical form. -/
def ShiftGives (r : Except String (Option BigInt)) (z : ℤ) : Prop :=
  (∃ e, r = .error e) ∨ ∃ b, r = .ok (some b) ∧ b.Canonical ∧ b.toInt = z

/-- A left shift of `z` by `k` bits is exact: the count is below `2 ^ 38` and the block has room. -/
def LeftOk (z : ℤ) (k : ℕ) : Prop :=
  z = 0 ∨ k = 0 ∨ (k < 2 ^ 38 ∧ (limbsOf z.natAbs).length + k / 64 + 1 < 2 ^ 32)

/-- A right shift of `z` by `k` bits is exact: a count from `2 ^ 38` on must leave nothing of
the number even as its remainder, and the quotient of a negative number needs room for one
more. -/
def RightOk (z : ℤ) (k : ℕ) : Prop :=
  if k < 2 ^ 38 then 0 ≤ z ∨ k = 0 ∨ IncFits ((z.natAbs - 1) / 2 ^ k)
  else -2 ^ (k % 2 ^ 38) ≤ z ∧ z < 2 ^ (k % 2 ^ 38)

/-- A shift of `z` by `n` bits to the left is exact; to the right when `n` is negative. -/
def ShiftOk (z n : ℤ) : Prop := if 0 ≤ n then LeftOk z n.toNat else RightOk z (-n).toNat

/-- A result that is there when `p` holds. -/
lemma shiftGives_ite {p : Prop} [Decidable p] {z z' : ℤ} :
    ShiftGives (.ok (if p then some (ofInt z) else none)) z' ↔ p ∧ z = z' := by
  unfold ShiftGives
  constructor
  · rintro (⟨e, he⟩ | ⟨b, hb, -, rfl⟩)
    · cases he
    · by_cases hp : p
      · rw [if_pos hp] at hb
        cases hb
        exact ⟨hp, (toInt_ofInt z).symm⟩
      · rw [if_neg hp] at hb
        cases hb
  · rintro ⟨hp, rfl⟩
    rw [if_pos hp]
    exact .inr ⟨_, rfl, canonical_ofInt z, toInt_ofInt z⟩

/-- A count acts as itself below `2 ^ 38`. -/
lemma effective_eq_iff {k : ℕ} : effective k = k ↔ k < 2 ^ 38 := by
  unfold effective
  omega

/-- Products by different powers of two differ. -/
lemma mul_two_pow_inj {z : ℤ} (hz : z ≠ 0) {j k : ℕ} : z * 2 ^ j = z * 2 ^ k ↔ j = k := by
  rw [mul_right_inj' hz]
  exact pow_right_inj₀ (by norm_num) (by norm_num)

/-- A number has the same quotient by two powers of two when the smaller leaves nothing of it. -/
lemma ediv_two_pow_eq_iff {z : ℤ} {j k : ℕ} (hjk : j < k) :
    z / 2 ^ j = z / 2 ^ k ↔ -2 ^ j ≤ z ∧ z < 2 ^ j := by
  have hj : (0 : ℤ) < 2 ^ j := by positivity
  have hsplit : (2 : ℤ) ^ k = 2 ^ j * 2 ^ (k - j) := by
    rw [← pow_add, Nat.add_sub_cancel' hjk.le]
  have htwo : (2 : ℤ) ≤ 2 ^ (k - j) := by
    calc (2 : ℤ) = 2 ^ 1 := (pow_one 2).symm
      _ ≤ 2 ^ (k - j) := pow_le_pow_right₀ (by norm_num) (by omega)
  rw [hsplit, ← Int.ediv_ediv_of_nonneg hj.le]
  obtain ⟨q, hq⟩ : ∃ q, q = z / 2 ^ j := ⟨_, rfl⟩
  have hrange : (-2 ^ j ≤ z ∧ z < 2 ^ j) ↔ -1 ≤ q ∧ q < 1 := by
    rw [hq, Int.le_ediv_iff_mul_le hj, Int.ediv_lt_iff_lt_mul hj]
    simp
  rw [hrange, ← hq]
  constructor
  · intro h
    have hle := Int.ediv_mul_le q (show (2 : ℤ) ^ (k - j) ≠ 0 by positivity)
    have hlt := Int.lt_ediv_add_one_mul_self q (show (0 : ℤ) < 2 ^ (k - j) by positivity)
    rw [← h] at hle hlt
    constructor <;> nlinarith
  · rintro ⟨hlo, hhi⟩
    rcases (show q = -1 ∨ q = 0 by omega) with rfl | rfl
    · exact (Int.ediv_eq_neg_one_of_neg_of_le (by norm_num) (by linarith)).symm
    · exact (Int.zero_ediv _).symm

/-- A left shift of an integer by a natural number of bits is exact just when `LeftOk` holds. -/
lemma shl_natCast_iff {x : ℤ} {k : ℕ} (hk : k ≤ i64Max) :
    ShiftGives (shl (ofInt x) (ofInt k)) (x * 2 ^ k) ↔ LeftOk x k := by
  by_cases hk0 : k = 0
  · have hzero : shl (ofInt x) (ofInt (k : ℤ)) =
        .ok (if True then some (ofInt x) else none) := by
      rw [shl_of_shift (toI64ForShift_ofInt (by simpa using hk)), if_pos (by omega), if_pos trivial]
    rw [hzero, shiftGives_ite, hk0]
    simp [LeftOk]
  · rw [shl_ofInt hk0 hk, shiftGives_ite]
    by_cases hx : x = 0
    · simp [hx, LeftOk]
    · rw [mul_two_pow_inj hx, effective_eq_iff]
      unfold LeftOk
      rw [or_iff_right hx, or_iff_right hx, or_iff_right hk0, and_comm]
      refine and_congr_right fun hlt => ?_
      unfold ShlRoom limbShift lenField
      omega

/-- A right shift of an integer by a natural number of bits is exact just when `RightOk`
holds. -/
lemma shr_natCast_iff {x : ℤ} {k : ℕ} (hk : k ≤ i64Max) :
    ShiftGives (shr (ofInt x) (ofInt k)) (x / 2 ^ k) ↔ RightOk x k := by
  by_cases hk0 : k = 0
  · have hzero : shr (ofInt x) (ofInt (k : ℤ)) =
        .ok (if True then some (ofInt x) else none) := by
      rw [shr_of_shift (toI64ForShift_ofInt (by simpa using hk)), if_pos (by omega), if_pos trivial]
    rw [hzero, shiftGives_ite, hk0]
    simp [RightOk]
  · rw [shr_ofInt hk0 hk, shiftGives_ite]
    unfold RightOk
    by_cases hlt : k < 2 ^ 38
    · rw [effective_eq_iff.mpr hlt, if_pos hlt, and_iff_left rfl, or_iff_right hk0]
    · have heff : effective k < k := by
        unfold effective
        omega
      rw [if_neg hlt, ediv_two_pow_eq_iff heff]
      refine and_iff_right_of_imp ?_
      rintro ⟨hlo, -⟩
      -- what is left of a negative number is nothing, and one can be added to it
      by_cases hx : 0 ≤ x
      · exact .inl hx
      · have hquot : (x.natAbs - 1) / 2 ^ effective k = 0 := by
          refine Nat.div_eq_of_lt ?_
          have hpow : ((2 ^ effective k : ℕ) : ℤ) = 2 ^ effective k := by push_cast; rfl
          omega
        rw [hquot]
        exact .inr (incFits_of_lt limbBase_pos)

/-- A negative count shifts the other way. -/
lemma shl_neg {a : BigInt} {k : ℕ} (hk0 : k ≠ 0) (hk : k ≤ i64Max) :
    shl a (ofInt (-k)) = shr a (ofInt k) := by
  have hread : toI64ForShift (ofInt (-k)) = .ok (-k : ℤ) := toI64ForShift_ofInt (by simpa using hk)
  rw [shl_of_shift hread, if_neg (by omega), if_pos (by omega), ofInt_natCast]
  simp [ofInt]

/-- A negative count shifts the other way. -/
lemma shr_neg {a : BigInt} {k : ℕ} (hk0 : k ≠ 0) (hk : k ≤ i64Max) :
    shr a (ofInt (-k)) = shl a (ofInt k) := by
  have hread : toI64ForShift (ofInt (-k)) = .ok (-k : ℤ) := toI64ForShift_ofInt (by simpa using hk)
  rw [shr_of_shift hread, if_neg (by omega), if_pos (by omega), ofInt_natCast]
  simp [ofInt]

end BigInt

end Torajs
