import ToraJs.BigInt.Magnitude
import Mathlib.Data.Nat.Size
import Mathlib.Data.Nat.Bitwise

/-!
# Division of magnitudes

Quotient and remainder are found bit by bit: the remainder takes in the next bit of the
dividend, and where it reaches the divisor the divisor is subtracted and the bit of the
quotient set.
-/

namespace Torajs

namespace BigInt

/-! ### Bits -/

/-- The number of bits of a limb. -/
def hiBits (hi : ℕ) : ℕ := if hi = 0 then 0 else hiBits (hi >>> 1) + 1
termination_by hi
decreasing_by
  rw [Nat.shiftRight_one]
  omega

/-- The number of bits of a magnitude, in a 32-bit register. -/
def bitCount (b : List ℕ) : ℕ :=
  match b.getLast? with
  | none => 0
  | some hi => lenField ((b.length - 1) * 64 + hiBits hi)

/-- A bit of a magnitude; past its end it is zero. -/
def bitAt (b : List ℕ) (bit : ℕ) : ℕ :=
  match b[bit / 64]? with
  | none => 0
  | some w => w >>> (bit % 64) &&& 1

/-- The loop of a shift by one bit: the limbs shifted, and the bit shifted out. -/
def shlLoop : List ℕ → ℕ → List ℕ × ℕ
  | [], carry => ([], carry)
  | w :: ws, carry =>
    let next := w >>> 63 &&& 1
    let rest := shlLoop ws next
    ((w <<< 1 % limbBase ||| carry) :: rest.1, rest.2)

/-- Shift a magnitude left by one bit, into a longer block when a bit is shifted out. -/
def shlInplaceOne (r : List ℕ) : Option (List ℕ) :=
  let (ws, carry) := shlLoop r 0
  if carry ≠ 0 then writeLimbs (allocRaw (r.length + 1)) (ws ++ [carry]) else some ws

/-- Set a bit, unless it is past the end. -/
def setBit (b : List ℕ) (bit : ℕ) : List ℕ := b.modify (bit / 64) (· ||| 1 <<< (bit % 64))

/-- Set the lowest bit; an empty magnitude becomes one limb. -/
def orOne : List ℕ → List ℕ
  | [] => [1]
  | w :: ws => (w ||| 1) :: ws

/-! ### Long division -/

/-- The loop over the bits of the dividend, from the one below `i` down. -/
def divmodLoop (a b : List ℕ) : ℕ → List ℕ → List ℕ → Option (List ℕ × List ℕ)
  | 0, q, r => some (q, r)
  | i + 1, q, r => do
    let r ← shlInplaceOne r
    let r := if bitAt a i ≠ 0 then orOne r else r
    if magCmp r b ≠ .lt then divmodLoop a b i (setBit q i) (magSub r b)
    else divmodLoop a b i q r

/-- Quotient and remainder of magnitudes; the divisor is not zero. -/
def magDivmod (a b : List ℕ) : Option (List ℕ × List ℕ) :=
  if magCmp a b = .lt then some (allocRaw a.length, a)
  else do
    let (q, r) ← divmodLoop a b (bitCount a) (allocRaw a.length) []
    some (normalizeWords q, normalizeWords r)

/-! ### The bits of limbs -/

/-- The loop counts the bits. -/
lemma hiBits_eq (n : ℕ) : hiBits n = Nat.size n := by
  induction n using Nat.strong_induction_on with
  | _ n ih =>
    rw [hiBits]
    split_ifs with h
    · rw [h, Nat.size_zero]
    · rw [Nat.shiftRight_one, ih (n / 2) (by omega)]
      rcases Nat.even_or_odd' n with ⟨k, hk | hk⟩
      · have hhalf : n / 2 = k := by omega
        rw [hhalf, hk, ← Nat.bit_false_apply k,
          Nat.size_bit (by rw [Nat.bit_false_apply]; omega)]
      · have hhalf : n / 2 = k := by omega
        rw [hhalf, hk, ← Nat.bit_true_apply k,
          Nat.size_bit (by rw [Nat.bit_true_apply]; omega)]

/-- The bits of a number, limb by limb. -/
lemma testBit_limbsVal {ws : List ℕ} (hok : LimbsOk ws) (k : ℕ) :
    (limbsVal ws).testBit k = (ws[k / 64]?.getD 0).testBit (k % 64) := by
  induction ws generalizing k with
  | nil => simp
  | cons w ws ih =>
    obtain ⟨hw, hws⟩ := limbsOk_cons.mp hok
    rw [limbsVal_cons, Nat.add_comm, limbBase, Nat.testBit_two_pow_mul_add _ hw]
    split_ifs with hk
    · rw [Nat.div_eq_of_lt hk, Nat.mod_eq_of_lt hk]
      rfl
    · have hdiv : k / 64 = (k - 64) / 64 + 1 := by omega
      have hmod : k % 64 = (k - 64) % 64 := by omega
      rw [ih hws, hdiv, hmod, List.getElem?_cons_succ]

/-- Reading a bit of the limbs of a number. -/
lemma bitAt_limbsOf (x i : ℕ) : bitAt (limbsOf x) i = x / 2 ^ i % 2 := by
  have hbit := testBit_limbsVal (limbsOk_limbsOf x) i
  rw [limbsVal_limbsOf] at hbit
  have hval : ∀ n k : ℕ, n / 2 ^ k % 2 = (n.testBit k).toNat := by
    intro n k
    rw [Nat.testBit_eq_decide_div_mod_eq]
    rcases Nat.mod_two_eq_zero_or_one (n / 2 ^ k) with h | h <;> simp [h]
  rw [hval, hbit]
  unfold bitAt
  cases (limbsOf x)[i / 64]? with
  | none => simp
  | some w =>
    simp only [Option.getD_some]
    rw [Nat.and_one_is_mod, Nat.shiftRight_eq_div_pow, hval]

/-- Setting a bit of a block sets it in its value. -/
lemma setBit_spec {ws : List ℕ} (hok : LimbsOk ws) {k : ℕ} (hk : k / 64 < ws.length) :
    limbsVal (setBit ws k) = limbsVal ws ||| 2 ^ k ∧ LimbsOk (setBit ws k) ∧
      (setBit ws k).length = ws.length := by
  have hok' : LimbsOk (setBit ws k) := by
    intro w hw
    obtain ⟨j, hj, rfl⟩ := List.getElem_of_mem hw
    unfold setBit at hj ⊢
    rw [List.getElem_modify]
    have hjlt : j < ws.length := by simpa using hj
    have hjw : ws[j] < limbBase := hok _ (List.getElem_mem _)
    have hbit : 1 <<< (k % 64) < limbBase := by
      rw [Nat.one_shiftLeft]
      exact Nat.pow_lt_pow_right (by norm_num) (Nat.mod_lt _ (by norm_num))
    split_ifs
    · exact Nat.or_lt_two_pow hjw hbit
    · exact hjw
  refine ⟨?_, hok', by simp [setBit]⟩
  refine Nat.eq_of_testBit_eq fun j => ?_
  rw [testBit_limbsVal hok', Nat.testBit_or, testBit_limbsVal hok, Nat.testBit_two_pow, setBit,
    List.getElem?_modify]
  by_cases hlimb : k / 64 = j / 64
  · have hj : j / 64 < ws.length := hlimb ▸ hk
    rw [List.getElem?_eq_getElem hj]
    simp only [if_pos hlimb, Option.map_eq_map, Option.map_some, Option.getD_some, Nat.testBit_or,
      Nat.one_shiftLeft, Nat.testBit_two_pow]
    congr 1
    rw [decide_eq_decide]
    omega
  · have hne : k ≠ j := fun h => hlimb (by rw [h])
    simp [hlimb, hne]

/-- The bits of a number are those of its top limb above whole limbs. -/
lemma size_limbsOf {x : ℕ} (h0 : x ≠ 0) :
    ∃ hi, (limbsOf x).getLast? = some hi ∧ hi < limbBase ∧ 0 < Nat.size hi ∧
      Nat.size x = ((limbsOf x).length - 1) * 64 + Nat.size hi := by
  have hne : limbsOf x ≠ [] := mt limbsOf_eq_nil_iff.mp h0
  obtain ⟨ws, hi, hsplit⟩ : ∃ ws hi, limbsOf x = ws ++ [hi] :=
    ⟨_, _, (List.dropLast_append_getLast hne).symm⟩
  have hok := limbsOk_limbsOf x
  rw [hsplit, limbsOk_append] at hok
  have hhi : hi ≠ 0 := by
    have htop := noTopZero_limbsOf x
    rw [hsplit, NoTopZero, List.getLast?_append_of_ne_nil _ (by simp)] at htop
    simpa using htop
  have hval : x = limbsVal ws + limbBase ^ ws.length * hi := by
    conv_lhs => rw [← limbsVal_limbsOf x, hsplit, limbsVal_append]
    simp
  have hlow := limbsVal_lt hok.1
  have hpow : limbBase ^ ws.length = 2 ^ (64 * ws.length) := by
    rw [limbBase, ← pow_mul]
  have hpos : 0 < Nat.size hi := Nat.size_pos.mpr (Nat.pos_of_ne_zero hhi)
  have hsize : Nat.size x = ws.length * 64 + Nat.size hi := by
    refine le_antisymm ?_ ?_
    · rw [Nat.size_le, hval, pow_add, Nat.mul_comm ws.length 64, ← hpow]
      have hlt : hi + 1 ≤ 2 ^ Nat.size hi := Nat.lt_size_self hi
      calc limbsVal ws + limbBase ^ ws.length * hi
          < limbBase ^ ws.length + limbBase ^ ws.length * hi := Nat.add_lt_add_right hlow _
        _ = limbBase ^ ws.length * (hi + 1) := by ring
        _ ≤ limbBase ^ ws.length * 2 ^ Nat.size hi := Nat.mul_le_mul_left _ hlt
    · have hle : 2 ^ (Nat.size hi - 1) ≤ hi := Nat.lt_size.mp (by omega)
      have hlt : ws.length * 64 + (Nat.size hi - 1) < Nat.size x := by
        rw [Nat.lt_size, pow_add, Nat.mul_comm ws.length 64, ← hpow, hval]
        exact (Nat.mul_le_mul_left _ hle).trans (Nat.le_add_left _ _)
      omega
  refine ⟨hi, ?_, (limbsOk_cons.mp hok.2).1, hpos, ?_⟩
  · rw [hsplit, List.getLast?_append_of_ne_nil _ (by simp), List.getLast?_singleton]
  · rw [hsplit, List.length_append, List.length_singleton, Nat.add_sub_cancel, hsize]

/-- The bits of a number are counted, where the count fits its register. -/
lemma bitCount_limbsOf {x : ℕ} (hx : Nat.size x < 2 ^ 32) :
    bitCount (limbsOf x) = Nat.size x := by
  by_cases h0 : x = 0
  · simp [h0, bitCount]
  obtain ⟨hi, hlast, -, -, hsize⟩ := size_limbsOf h0
  unfold bitCount
  rw [hlast]
  simp only [hiBits_eq]
  rw [lenField, ← hsize, Nat.mod_eq_of_lt hx]

/-! ### Shifting -/

/-- Limbs that reach the power of the base at the top one are the limbs of their value. -/
lemma eq_limbsOf_of_le {ws : List ℕ} (hok : LimbsOk ws)
    (hle : ws ≠ [] → limbBase ^ (ws.length - 1) ≤ limbsVal ws) : ws = limbsOf (limbsVal ws) := by
  refine eq_limbsOf hok ?_
  intro htop
  obtain ⟨ys, rfl⟩ := List.getLast?_eq_some_iff.mp htop
  have h1 := hle (by simp)
  have h2 := limbsVal_lt (limbsOk_append.mp hok).1
  rw [limbsVal_append] at h1
  simp at h1
  omega

/-- The loop of a shift doubles. -/
lemma shlLoop_spec (ws : List ℕ) (carry : ℕ) (hok : LimbsOk ws) (hc : carry ≤ 1) :
    limbsVal (shlLoop ws carry).1 + limbBase ^ ws.length * (shlLoop ws carry).2 =
        2 * limbsVal ws + carry ∧
      LimbsOk (shlLoop ws carry).1 ∧ (shlLoop ws carry).2 ≤ 1 ∧
      (shlLoop ws carry).1.length = ws.length := by
  induction ws generalizing carry with
  | nil => exact ⟨by simp [shlLoop], limbsOk_nil, hc, rfl⟩
  | cons w ws ih =>
    obtain ⟨hw, hws⟩ := limbsOk_cons.mp hok
    have hnext : w >>> 63 &&& 1 = 2 * w / limbBase := by
      rw [Nat.and_one_is_mod, Nat.shiftRight_eq_div_pow]
      unfold limbBase at *
      omega
    have hnext1 : w >>> 63 &&& 1 ≤ 1 := by
      rw [Nat.and_one_is_mod]
      omega
    have hlimb : (w <<< 1 % limbBase ||| carry) = 2 * w % limbBase + carry := by
      have heven : w <<< 1 % limbBase = 2 ^ 1 * (2 * w % limbBase / 2) := by
        rw [Nat.shiftLeft_eq]
        unfold limbBase
        omega
      rw [heven, ← Nat.two_pow_add_eq_or_of_lt (by omega)]
      unfold limbBase
      omega
    obtain ⟨hval, hok', hc', hlen⟩ := ih _ hws hnext1
    refine ⟨?_, ?_, hc', by simpa [shlLoop] using hlen⟩
    · simp only [shlLoop, limbsVal_cons, List.length_cons, hlimb, pow_succ']
      have hdouble := limb_add_carry (2 * w)
      rw [hnext] at hval
      rw [hnext]
      have hmul := congrArg (limbBase * ·) hval
      simp only [Nat.mul_add] at hmul
      linarith
    · refine limbsOk_cons.mpr ⟨?_, hok'⟩
      rw [hlimb]
      unfold limbBase at *
      omega

/-- Shifting the limbs of a number doubles it. -/
lemma shlInplaceOne_limbsOf {x : ℕ} (hx : (limbsOf x).length + 1 < 2 ^ 32) :
    shlInplaceOne (limbsOf x) = some (limbsOf (2 * x)) := by
  obtain ⟨hval, hok, hc, hlen⟩ := shlLoop_spec (limbsOf x) 0 (limbsOk_limbsOf x) (by omega)
  rw [limbsVal_limbsOf, Nat.add_zero] at hval
  have hge : limbsOf x ≠ [] → limbBase ^ ((limbsOf x).length - 1) ≤ x :=
    fun hne => pow_length_le (mt limbsOf_eq_nil_iff.mpr hne)
  unfold shlInplaceOne
  simp only
  split_ifs with hcarry
  · have h1 : (shlLoop (limbsOf x) 0).2 = 1 := by omega
    rw [writeLimbs_allocRaw (by simp [hlen]) (by omega), h1]
    rw [h1, Nat.mul_one] at hval
    have hwhole : limbsVal ((shlLoop (limbsOf x) 0).1 ++ [1]) = 2 * x := by
      rw [limbsVal_append, hlen, ← hval]
      simp
    rw [← hwhole]
    refine congrArg some (eq_limbsOf_of_le ?_ ?_)
    · exact limbsOk_append.mpr ⟨hok, limbsOk_cons.mpr ⟨one_lt_limbBase, limbsOk_nil⟩⟩
    · intro _
      rw [hwhole, List.length_append, hlen, List.length_singleton, Nat.add_sub_cancel]
      omega
  · have h0 : (shlLoop (limbsOf x) 0).2 = 0 := by omega
    rw [h0, Nat.mul_zero, Nat.add_zero] at hval
    rw [← hval]
    refine congrArg some (eq_limbsOf_of_le hok ?_)
    intro hne
    have hne' : limbsOf x ≠ [] := by
      rw [← List.length_pos_iff] at hne ⊢
      omega
    have := hge hne'
    rw [hval, hlen]
    omega

/-- Setting the lowest bit of an even number. -/
lemma orOne_limbsOf (x : ℕ) : orOne (limbsOf (2 * x)) = limbsOf (2 * x + 1) := by
  by_cases h0 : x = 0
  · subst h0
    have h1 : limbsOf 1 = [1] := Nat.digits_of_lt limbBase 1 one_ne_zero one_lt_limbBase
    simp [orOne, h1]
  have hodd : ∀ n : ℕ, n ≠ 0 → limbsOf n = n % limbBase :: limbsOf (n / limbBase) :=
    fun n hn => Nat.digits_def' one_lt_limbBase (Nat.pos_of_ne_zero hn)
  rw [hodd (2 * x) (by omega), hodd (2 * x + 1) (by omega), orOne]
  have heven : 2 * x % limbBase = 2 ^ 1 * (2 * x % limbBase / 2) := by
    unfold limbBase
    omega
  have hor : 2 * x % limbBase ||| 1 = (2 * x + 1) % limbBase := by
    rw [heven, ← Nat.two_pow_add_eq_or_of_lt (by omega)]
    unfold limbBase
    omega
  have hdiv : 2 * x / limbBase = (2 * x + 1) / limbBase := by
    unfold limbBase
    omega
  rw [hor, hdiv]

/-! ### Long division -/

/-- Taking in the next bit: quotient and remainder of the longer beginning of the
dividend. -/
lemma divmod_step (n y : ℕ) (bit : ℕ) (hy : 0 < y) (hbit : bit ≤ 1) :
    (y ≤ 2 * (n % y) + bit → (2 * n + bit) / y = 2 * (n / y) + 1 ∧
      (2 * n + bit) % y = 2 * (n % y) + bit - y) ∧
    (2 * (n % y) + bit < y → (2 * n + bit) / y = 2 * (n / y) ∧
      (2 * n + bit) % y = 2 * (n % y) + bit) := by
  have hmod := Nat.mod_lt n hy
  have hdm := Nat.mod_add_div n y
  constructor
  · intro hle
    refine (Nat.div_mod_unique hy).mpr ⟨?_, by omega⟩
    have hexp : y * (2 * (n / y) + 1) = 2 * (y * (n / y)) + y := by ring
    rw [hexp]
    omega
  · intro hlt
    refine (Nat.div_mod_unique hy).mpr ⟨?_, hlt⟩
    have hexp : y * (2 * (n / y)) = 2 * (y * (n / y)) := by ring
    rw [hexp]
    omega

/-- The loop carries the quotient and the remainder of the beginning of the dividend that
it has read. -/
lemma divmodLoop_spec {x y : ℕ} (hy : 0 < y) (hlen : (limbsOf y).length + 1 < 2 ^ 32) (i : ℕ)
    (hi : i ≤ Nat.size x) (q : List ℕ) (hq : LimbsOk q)
    (hqlen : q.length = (limbsOf x).length)
    (hqval : limbsVal q = x / 2 ^ i / y * 2 ^ i) :
    ∃ q', divmodLoop (limbsOf x) (limbsOf y) i q (limbsOf (x / 2 ^ i % y)) =
        some (q', limbsOf (x % y)) ∧ LimbsOk q' ∧ limbsVal q' = x / y := by
  induction i generalizing q with
  | zero =>
    refine ⟨q, ?_, hq, by simpa using hqval⟩
    simp [divmodLoop]
  | succ i ih =>
    have hmod := Nat.mod_lt (x / 2 ^ (i + 1)) hy
    have hshl : shlInplaceOne (limbsOf (x / 2 ^ (i + 1) % y)) =
        some (limbsOf (2 * (x / 2 ^ (i + 1) % y))) := by
      refine shlInplaceOne_limbsOf ?_
      have := length_limbsOf_mono hmod.le
      omega
    have hhalf : x / 2 ^ (i + 1) = x / 2 ^ i / 2 := by rw [pow_succ, Nat.div_div_eq_div_mul]
    obtain ⟨bit, hbit⟩ : ∃ bit, bit = x / 2 ^ i % 2 := ⟨_, rfl⟩
    have hbit1 : bit ≤ 1 := by omega
    have hnext : 2 * (x / 2 ^ (i + 1)) + bit = x / 2 ^ i := by omega
    have hin : (if bitAt (limbsOf x) i ≠ 0 then orOne (limbsOf (2 * (x / 2 ^ (i + 1) % y)))
        else limbsOf (2 * (x / 2 ^ (i + 1) % y))) =
          limbsOf (2 * (x / 2 ^ (i + 1) % y) + bit) := by
      rw [bitAt_limbsOf, ← hbit]
      split_ifs with hb
      · have h1 : bit = 1 := by omega
        rw [orOne_limbsOf, h1]
      · have h0 : bit = 0 := not_not.mp hb
        rw [h0]
        rfl
    obtain ⟨hreach, hshort⟩ := divmod_step (x / 2 ^ (i + 1)) y bit hy hbit1
    rw [hnext] at hreach hshort
    simp only [divmodLoop, hshl, Option.bind_eq_bind, Option.bind_some, hin, magCmp_limbsOf]
    by_cases hle : y ≤ 2 * (x / 2 ^ (i + 1) % y) + bit
    · obtain ⟨hdiv, hrem⟩ := hreach hle
      rw [if_pos (by rw [Ne, Nat.compare_eq_lt]; omega), magSub_limbsOf hle, ← hrem]
      have hlimb : i / 64 < q.length := by
        have hpow : 2 ^ i ≤ x := Nat.lt_size.mp hi
        have hlt := lt_of_le_of_lt hpow (lt_pow_length x)
        rw [limbBase, ← pow_mul, Nat.pow_lt_pow_iff_right (by norm_num)] at hlt
        rw [hqlen]
        omega
      obtain ⟨hsval, hsok, hslen⟩ := setBit_spec hq hlimb
      refine ih (by omega) _ hsok (by rw [hslen, hqlen]) ?_
      have hpow : 2 ^ i < 2 ^ (i + 1) := Nat.pow_lt_pow_right (by norm_num) (Nat.lt_succ_self i)
      rw [hsval, hqval, hdiv, Nat.mul_comm, ← Nat.two_pow_add_eq_or_of_lt hpow]
      ring
    · obtain ⟨hdiv, hrem⟩ := hshort (not_le.mp hle)
      rw [if_neg (by rw [not_not, Nat.compare_eq_lt]; omega), ← hrem]
      refine ih (by omega) q hq hqlen ?_
      rw [hqval, hdiv]
      ring

/-- Dividing the limbs of numbers gives the limbs of the remainder, and those of the
quotient once they are stripped. -/
theorem magDivmod_limbsOf {x y : ℕ} (hy : 0 < y) (hx : Nat.size x < 2 ^ 32)
    (hlen : (limbsOf y).length + 1 < 2 ^ 32) :
    ∃ q, magDivmod (limbsOf x) (limbsOf y) = some (q, limbsOf (x % y)) ∧
      normalizeWords q = limbsOf (x / y) := by
  unfold magDivmod
  rw [magCmp_limbsOf]
  have hblock : LimbsOk (allocRaw (limbsOf x).length) := limbsOk_replicate _
  have hbval : limbsVal (allocRaw (limbsOf x).length) = 0 := limbsVal_replicate _
  split_ifs with hlt
  · have hxy : x < y := Nat.compare_eq_lt.mp hlt
    refine ⟨_, by rw [Nat.mod_eq_of_lt hxy], ?_⟩
    rw [normalizeWords_eq hblock, hbval, Nat.div_eq_of_lt hxy]
  · have hzero : x / 2 ^ Nat.size x = 0 := Nat.div_eq_of_lt (Nat.lt_size_self x)
    have hfield : (limbsOf x).length < 2 ^ 32 := by
      have hle : (limbsOf x).length ≤ Nat.size x := by
        rw [length_limbsOf_le_iff, limbBase, ← pow_mul]
        exact lt_of_lt_of_le (Nat.lt_size_self x)
          (Nat.pow_le_pow_right (by norm_num) (Nat.le_mul_of_pos_left _ (by norm_num)))
      omega
    obtain ⟨q, hq, hqok, hqval⟩ := divmodLoop_spec hy hlen (Nat.size x) le_rfl
      (allocRaw (limbsOf x).length) hblock
      (by rw [allocRaw, List.length_replicate, lenField, Nat.mod_eq_of_lt hfield])
      (by rw [hbval, hzero, Nat.zero_div, Nat.zero_mul])
    rw [hzero, Nat.zero_mod, limbsOf_zero] at hq
    rw [bitCount_limbsOf hx, hq]
    refine ⟨normalizeWords q, ?_, ?_⟩
    · simp only [Option.bind_eq_bind, Option.bind_some, normalizeWords_limbsOf]
    · rw [normalizeWords_eq hqok, hqval, normalizeWords_limbsOf]

end BigInt

end Torajs
