import ToraJs.BigInt.Magnitude
import Mathlib.Data.Option.Basic

/-!
# Products of magnitudes

Small magnitudes are multiplied row by row, large ones by splitting them in two and
recursing on three products of the halves.  Both give the limbs of the product when the
lengths of the factors add up to a 32-bit length.  When they do not, the block of the product
is reserved too short, and both write past its end.
-/

namespace Torajs

namespace BigInt

/-! ### The schoolbook product -/

/-- One row: add `ai * b` to the block from here on, with the carry behind it.  Nothing
comes of it where the row passes the end of the block. -/
def mulRow (ai : ℕ) : List ℕ → List ℕ → ℕ → Option (List ℕ)
  | [], r :: rs, carry => some ((r + carry) % limbBase :: rs)
  | b :: bs, r :: rs, carry =>
    let cur := r + ai * b + carry
    (mulRow ai bs rs (cur / limbBase)).map (cur % limbBase :: ·)
  | _, [], _ => none

/-- The rows of the product, each one limb further up the block. -/
def schoolbookLoop (b : List ℕ) : List ℕ → List ℕ → Option (List ℕ)
  | [], r => some r
  | ai :: as, r =>
    match mulRow ai b r 0 with
    | none => none
    | some [] => none
    | some (w :: ws) => (schoolbookLoop b as ws).map (w :: ·)

/-- Multiply magnitudes row by row. -/
def magMulSchoolbook (a b : List ℕ) : Option (List ℕ) :=
  (schoolbookLoop b a (allocRaw (a.length + b.length))).map normalizeWords

/-! ### Split, add and subtract in place -/

/-- The limbs below `m` and those from it on. -/
def magSplitAt (a : List ℕ) (m : ℕ) : List ℕ × List ℕ :=
  (normalizeWords (a.take m), normalizeWords (a.drop m))

/-- Carry on through the block, to its end at most. -/
def carryLoop : List ℕ → ℕ → List ℕ
  | [], _ => []
  | r :: rs, carry =>
    if carry = 0 then r :: rs
    else
      let sum := r + carry
      sum % limbBase :: carryLoop rs (sum / limbBase)

/-- Add to a block from its start. -/
def addInPlace : List ℕ → List ℕ → ℕ → Option (List ℕ)
  | rs, [], carry => some (carryLoop rs carry)
  | [], _ :: _, _ => none
  | r :: rs, a :: as, carry =>
    let sum := r + a + carry
    (addInPlace rs as (sum / limbBase)).map (sum % limbBase :: ·)

/-- Add to a block from the limb `off` on. -/
def magAddInPlaceAt (result addend : List ℕ) (off : ℕ) : Option (List ℕ) :=
  (addInPlace (result.drop off) addend 0).map (result.take off ++ ·)

/-- Borrow on through the block, to its end at most. -/
def borrowLoop : List ℕ → ℕ → List ℕ
  | [], _ => []
  | r :: rs, borrow =>
    if borrow = 0 then r :: rs
    else
      let diff := wrappingSub r borrow
      diff % limbBase :: borrowLoop rs (diff / limbBase % 2)

/-- The loop of a subtraction in place. -/
def subInPlaceLoop : List ℕ → List ℕ → ℕ → Option (List ℕ)
  | rs, [], borrow => some (borrowLoop rs borrow)
  | [], _ :: _, _ => none
  | r :: rs, b :: bs, borrow =>
    let diff := limbDiff r b borrow
    (subInPlaceLoop rs bs (diff / limbBase % 2)).map (diff % limbBase :: ·)

/-- Subtract from a block in place; the block is at least what is subtracted. -/
def magSubInPlace (result b : List ℕ) : Option (List ℕ) := subInPlaceLoop result b 0

/-! ### Karatsuba -/

/-- The length from which on magnitudes are split. -/
def karatsubaThreshold : ℕ := 32

/-- Where operands of these lengths are split: half the longer one, rounded up. -/
def splitPoint (na nb : ℕ) : ℕ := (max na nb + 1) / 2

/-- Put the three partial products into a block. -/
def karatsubaSum (na nb m : ℕ) (z0 z1 z2 : List ℕ) : Option (List ℕ) := do
  let r ← magAddInPlaceAt (allocRaw (na + nb)) z0 0
  let r ← magAddInPlaceAt r z1 m
  let r ← magAddInPlaceAt r z2 (lenField (2 * m))
  some (normalizeWords r)

/-- Multiply magnitudes by three products of their halves. -/
def magMulKaratsuba (mul : List ℕ → List ℕ → Option (List ℕ)) (a b : List ℕ) :
    Option (List ℕ) := do
  let m := splitPoint a.length b.length
  let (al, ah) := magSplitAt a m
  let (bl, bh) := magSplitAt b m
  let z0 ← mul al bl
  let z2 ← mul ah bh
  let sumA ← magAdd al ah
  let sumB ← magAdd bl bh
  let z1 ← mul sumA sumB
  let z1 ← magSubInPlace z1 z0
  let z1 ← magSubInPlace z1 z2
  karatsubaSum a.length b.length m z0 (normalizeWords z1) z2

/-- Multiply magnitudes.  The guard on the recursive calls is there for termination only;
`magMul_eq` shows that it always passes. -/
def magMul (a b : List ℕ) : Option (List ℕ) :=
  if a.length = 0 ∨ b.length = 0 then some (allocRaw 0)
  else if min a.length b.length < karatsubaThreshold then magMulSchoolbook a b
  else
    magMulKaratsuba (fun x y =>
      if max x.length y.length < max a.length b.length then magMul x y else none) a b
termination_by max a.length b.length

/-! ### Rows -/

/-- A row adds the product where the limb behind it is still zero. -/
lemma mulRow_spec {ai : ℕ} (hai : ai < limbBase) (b lo hi : List ℕ) (carry : ℕ)
    (hb : LimbsOk b) (hlo : LimbsOk lo) (hlen : lo.length = b.length)
    (hc : carry < limbBase) :
    ∃ lo', mulRow ai b (lo ++ 0 :: hi) carry = some (lo' ++ hi) ∧ LimbsOk lo' ∧
      lo'.length = b.length + 1 ∧ limbsVal lo' = limbsVal lo + ai * limbsVal b + carry := by
  induction b generalizing lo carry with
  | nil =>
    obtain rfl : lo = [] := List.length_eq_zero_iff.mp hlen
    refine ⟨[carry], ?_, limbsOk_cons.mpr ⟨hc, limbsOk_nil⟩, rfl, by simp⟩
    simp [mulRow, Nat.mod_eq_of_lt hc]
  | cons b bs ih =>
    cases lo with
    | nil => simp at hlen
    | cons r rs =>
      obtain ⟨hb1, hb2⟩ := limbsOk_cons.mp hb
      obtain ⟨hr1, hr2⟩ := limbsOk_cons.mp hlo
      have hprod : ai * b ≤ (limbBase - 1) * (limbBase - 1) :=
        Nat.mul_le_mul (by omega) (by omega)
      have hcarry : (r + ai * b + carry) / limbBase < limbBase := by
        rw [Nat.div_lt_iff_lt_mul limbBase_pos]
        unfold limbBase at *
        omega
      obtain ⟨lo', hrun, hok, hlen', hval⟩ :=
        ih rs ((r + ai * b + carry) / limbBase) hb2 hr2 (by simpa using hlen) hcarry
      refine ⟨(r + ai * b + carry) % limbBase :: lo', ?_, ?_, ?_, ?_⟩
      · simp only [List.cons_append, mulRow, hrun, Option.map_some]
      · exact limbsOk_cons.mpr ⟨Nat.mod_lt _ limbBase_pos, hok⟩
      · rw [List.length_cons, hlen', List.length_cons]
      · rw [limbsVal_cons, hval, limbsVal_cons, limbsVal_cons]
        have := limb_add_carry (r + ai * b + carry)
        linarith

/-- A row that does not fit its block fails. -/
lemma mulRow_eq_none (ai : ℕ) (b r : List ℕ) (carry : ℕ) (hlen : r.length ≤ b.length) :
    mulRow ai b r carry = none := by
  fun_induction mulRow ai b r carry with
  | case1 r rs carry => simp at hlen
  | case2 b bs r rs carry cur ih =>
    rw [ih (by simpa using hlen)]
    rfl
  | case3 => rfl

/-- A row keeps the length of its block. -/
lemma mulRow_length {ai : ℕ} (b r : List ℕ) {r' : List ℕ} {carry : ℕ}
    (h : mulRow ai b r carry = some r') : r'.length = r.length := by
  induction b generalizing r r' carry with
  | nil =>
    cases r with
    | nil => simp [mulRow] at h
    | cons w rs =>
      rw [← Option.some_inj.mp h]
      rfl
  | cons b bs ih =>
    cases r with
    | nil => simp [mulRow] at h
    | cons w rs =>
      obtain ⟨ws, hws, rfl⟩ := Option.map_eq_some_iff.mp h
      rw [List.length_cons, ih rs hws, List.length_cons]

/-- The rows add up to the product. -/
lemma schoolbookLoop_spec {b : List ℕ} (hb : LimbsOk b) (as lo : List ℕ) (has : LimbsOk as)
    (hlo : LimbsOk lo) (hlen : lo.length = b.length) :
    ∃ r, schoolbookLoop b as (lo ++ List.replicate as.length 0) = some r ∧ LimbsOk r ∧
      limbsVal r = limbsVal lo + limbsVal as * limbsVal b := by
  induction as generalizing lo with
  | nil => exact ⟨lo, by simp [schoolbookLoop], hlo, by simp⟩
  | cons ai as ih =>
    obtain ⟨ha1, ha2⟩ := limbsOk_cons.mp has
    obtain ⟨lo', hrun, hok, hlen', hval⟩ :=
      mulRow_spec ha1 b lo (List.replicate as.length 0) 0 hb hlo hlen limbBase_pos
    cases lo' with
    | nil => simp at hlen'
    | cons w ws =>
      obtain ⟨hw1, hw2⟩ := limbsOk_cons.mp hok
      obtain ⟨r, hr, hrok, hrval⟩ := ih ws ha2 hw2 (by simpa using hlen')
      refine ⟨w :: r, ?_, limbsOk_cons.mpr ⟨hw1, hrok⟩, ?_⟩
      · simp only [List.length_cons, List.replicate_succ, schoolbookLoop, hrun, List.cons_append,
          hr, Option.map_some]
      · rw [limbsVal_cons] at hval
        rw [limbsVal_cons, hrval, limbsVal_cons]
        linarith

/-- Rows that do not fit their block fail. -/
lemma schoolbookLoop_eq_none {b : List ℕ} (as r : List ℕ) (has : as ≠ [])
    (hlen : r.length < as.length + b.length) : schoolbookLoop b as r = none := by
  induction as generalizing r with
  | nil => exact absurd rfl has
  | cons ai as ih =>
    unfold schoolbookLoop
    cases hrow : mulRow ai b r 0 with
    | none => rfl
    | some r' =>
      have hlen' := mulRow_length b r hrow
      cases r' with
      | nil => rfl
      | cons w ws =>
        have hpos : b.length < r.length := by
          by_contra hle
          rw [mulRow_eq_none ai b r 0 (not_lt.mp hle)] at hrow
          simp at hrow
        rw [List.length_cons] at hlen hlen'
        have hne : as ≠ [] := by
          rintro rfl
          simp at hlen
          omega
        simp only [ih ws hne (by omega), Option.map_none]

/-- The schoolbook product of the limbs of numbers. -/
theorem magMulSchoolbook_limbsOf {x y : ℕ}
    (hlen : (limbsOf x).length + (limbsOf y).length < 2 ^ 32) :
    magMulSchoolbook (limbsOf x) (limbsOf y) = some (limbsOf (x * y)) := by
  have hblock : allocRaw ((limbsOf x).length + (limbsOf y).length) =
      List.replicate (limbsOf y).length 0 ++ List.replicate (limbsOf x).length 0 := by
    rw [allocRaw, lenField, Nat.mod_eq_of_lt hlen, Nat.add_comm, List.replicate_add]
  obtain ⟨r, hr, hok, hval⟩ := schoolbookLoop_spec (limbsOk_limbsOf y) (limbsOf x)
    (List.replicate (limbsOf y).length 0) (limbsOk_limbsOf x) (limbsOk_replicate _)
    List.length_replicate
  rw [limbsVal_replicate, Nat.zero_add, limbsVal_limbsOf, limbsVal_limbsOf] at hval
  rw [magMulSchoolbook, hblock, hr, Option.map_some, normalizeWords_eq hok, hval]

/-- The schoolbook product fails when its block is reserved too short. -/
lemma magMulSchoolbook_eq_none {a b : List ℕ} (ha : a ≠ [])
    (hlen : 2 ^ 32 ≤ a.length + b.length) : magMulSchoolbook a b = none := by
  have hblock : (allocRaw (a.length + b.length)).length < a.length + b.length := by
    rw [allocRaw, List.length_replicate]
    exact lt_of_lt_of_le (Nat.mod_lt _ (Nat.two_pow_pos 32)) hlen
  rw [magMulSchoolbook, schoolbookLoop_eq_none a _ ha hblock, Option.map_none]

/-! ### In place -/

/-- A carry that does not pass the end of the block is added. -/
lemma carryLoop_spec (rs : List ℕ) (carry : ℕ) (hok : LimbsOk rs)
    (hfit : limbsVal rs + carry < limbBase ^ rs.length) :
    limbsVal (carryLoop rs carry) = limbsVal rs + carry ∧ LimbsOk (carryLoop rs carry) ∧
      (carryLoop rs carry).length = rs.length := by
  induction rs generalizing carry with
  | nil =>
    have hc : carry = 0 := by simpa using hfit
    exact ⟨by simp [carryLoop, hc], hok, rfl⟩
  | cons r rs ih =>
    obtain ⟨hr1, hr2⟩ := limbsOk_cons.mp hok
    unfold carryLoop
    split_ifs with hc
    · exact ⟨by rw [hc, Nat.add_zero], hok, rfl⟩
    · have hsum := limb_add_carry (r + carry)
      have hfit' : limbsVal rs + (r + carry) / limbBase < limbBase ^ rs.length := by
        rw [limbsVal_cons, List.length_cons, pow_succ'] at hfit
        have hmul : limbBase * (limbsVal rs + (r + carry) / limbBase) <
            limbBase * limbBase ^ rs.length := by
          rw [Nat.mul_add]
          omega
        exact lt_of_mul_lt_mul_left hmul (Nat.zero_le _)
      obtain ⟨hval, hok', hlen⟩ := ih _ hr2 hfit'
      refine ⟨?_, limbsOk_cons.mpr ⟨Nat.mod_lt _ limbBase_pos, hok'⟩, by simpa using hlen⟩
      rw [limbsVal_cons, hval, limbsVal_cons]
      linarith

/-- An addition that does not pass the end of the block adds. -/
lemma addInPlace_spec (rs as : List ℕ) (carry : ℕ) (hrs : LimbsOk rs) (has : LimbsOk as)
    (hlen : as.length ≤ rs.length)
    (hfit : limbsVal rs + limbsVal as + carry < limbBase ^ rs.length) :
    ∃ r', addInPlace rs as carry = some r' ∧ LimbsOk r' ∧ r'.length = rs.length ∧
      limbsVal r' = limbsVal rs + limbsVal as + carry := by
  induction as generalizing rs carry with
  | nil =>
    obtain ⟨hval, hok, hl⟩ := carryLoop_spec rs carry hrs (by simpa using hfit)
    exact ⟨_, by cases rs <;> rfl, hok, hl, by simpa using hval⟩
  | cons a as ih =>
    cases rs with
    | nil => simp at hlen
    | cons r rs =>
      obtain ⟨hr1, hr2⟩ := limbsOk_cons.mp hrs
      obtain ⟨ha1, ha2⟩ := limbsOk_cons.mp has
      have hsum := limb_add_carry (r + a + carry)
      have hfit' : limbsVal rs + limbsVal as + (r + a + carry) / limbBase <
          limbBase ^ rs.length := by
        rw [limbsVal_cons, limbsVal_cons, List.length_cons, pow_succ'] at hfit
        have hmul : limbBase * (limbsVal rs + limbsVal as + (r + a + carry) / limbBase) <
            limbBase * limbBase ^ rs.length := by
          rw [Nat.mul_add, Nat.mul_add]
          omega
        exact lt_of_mul_lt_mul_left hmul (Nat.zero_le _)
      obtain ⟨r', hrun, hok, hl, hval⟩ := ih rs _ hr2 ha2 (by simpa using hlen) hfit'
      refine ⟨(r + a + carry) % limbBase :: r', by simp [addInPlace, hrun],
        limbsOk_cons.mpr ⟨Nat.mod_lt _ limbBase_pos, hok⟩, by simpa using hl, ?_⟩
      rw [limbsVal_cons, hval, limbsVal_cons, limbsVal_cons]
      linarith

/-- An addition that succeeds has not passed the end of the block, whose length it keeps. -/
lemma addInPlace_length (rs as : List ℕ) (carry : ℕ) {r' : List ℕ}
    (h : addInPlace rs as carry = some r') : as.length ≤ rs.length ∧ r'.length = rs.length := by
  have hcarry : ∀ (rs : List ℕ) (carry : ℕ), (carryLoop rs carry).length = rs.length := by
    intro rs
    induction rs with
    | nil => exact fun _ => rfl
    | cons r rs ih =>
      intro carry
      unfold carryLoop
      split_ifs
      · rfl
      · simp [ih]
  induction as generalizing rs carry r' with
  | nil =>
    have hr : r' = carryLoop rs carry := by
      cases rs <;> exact (Option.some_inj.mp h).symm
    rw [hr]
    exact ⟨Nat.zero_le _, hcarry rs carry⟩
  | cons a as ih =>
    cases rs with
    | nil => simp [addInPlace] at h
    | cons r rs =>
      obtain ⟨ws, hws, rfl⟩ := Option.map_eq_some_iff.mp h
      obtain ⟨h1, h2⟩ := ih rs _ hws
      simp [h1, h2]

/-- Adding at a limb adds that many places up. -/
lemma magAddInPlaceAt_spec {r : List ℕ} (z off : ℕ) (hr : LimbsOk r) (hoff : off ≤ r.length)
    (hfit : limbsVal r + limbBase ^ off * z < limbBase ^ r.length) :
    ∃ r', magAddInPlaceAt r (limbsOf z) off = some r' ∧ LimbsOk r' ∧ r'.length = r.length ∧
      limbsVal r' = limbsVal r + limbBase ^ off * z := by
  have hcut : limbsVal r = limbsVal (r.take off) + limbBase ^ off * limbsVal (r.drop off) := by
    conv_lhs => rw [← List.take_append_drop off r, limbsVal_append,
      List.length_take_of_le hoff]
  have hpow : limbBase ^ r.length = limbBase ^ off * limbBase ^ (r.drop off).length := by
    rw [← pow_add, List.length_drop, Nat.add_sub_cancel' hoff]
  have hdrop : LimbsOk (r.drop off) := fun w hw => hr w (List.mem_of_mem_drop hw)
  have hfit' : limbsVal (r.drop off) + z < limbBase ^ (r.drop off).length := by
    have hmul : limbBase ^ off * (limbsVal (r.drop off) + z) <
        limbBase ^ off * limbBase ^ (r.drop off).length := by
      rw [← hpow, Nat.mul_add]
      omega
    exact lt_of_mul_lt_mul_left hmul (Nat.zero_le _)
  have hlen : (limbsOf z).length ≤ (r.drop off).length :=
    length_limbsOf_le_iff.mpr (lt_of_le_of_lt (Nat.le_add_left _ _) hfit')
  obtain ⟨r', hrun, hok, hl, hval⟩ := addInPlace_spec (r.drop off) (limbsOf z) 0 hdrop
    (limbsOk_limbsOf z) hlen (by rwa [limbsVal_limbsOf])
  refine ⟨r.take off ++ r', by rw [magAddInPlaceAt, hrun, Option.map_some], ?_, ?_, ?_⟩
  · exact limbsOk_append.mpr ⟨fun w hw => hr w (List.mem_of_mem_take hw), hok⟩
  · rw [List.length_append, hl, ← List.length_append, List.take_append_drop]
  · rw [limbsVal_append, hval, limbsVal_limbsOf, List.length_take_of_le hoff, hcut]
    linarith

/-- Adding at a limb that succeeds has not passed the end of the block. -/
lemma magAddInPlaceAt_length {r z r' : List ℕ} {off : ℕ} (hz : z ≠ [])
    (h : magAddInPlaceAt r z off = some r') :
    off + z.length ≤ r.length ∧ r'.length = r.length := by
  obtain ⟨ws, hws, rfl⟩ := Option.map_eq_some_iff.mp h
  obtain ⟨h1, h2⟩ := addInPlace_length _ _ _ hws
  have hpos := List.length_pos_iff.mpr hz
  rw [List.length_drop] at h1
  refine ⟨by omega, ?_⟩
  rw [List.length_append, h2, ← List.length_append, List.take_append_drop]

/-- Adding nothing leaves a block as it is. -/
lemma magAddInPlaceAt_nil (r : List ℕ) (off : ℕ) : magAddInPlaceAt r [] off = some r := by
  have hzero : ∀ rs : List ℕ, addInPlace rs [] 0 = some rs := by
    intro rs
    cases rs <;> simp [addInPlace, carryLoop]
  rw [magAddInPlaceAt, hzero, Option.map_some, List.take_append_drop]

/-- A borrow that the block can bear is subtracted. -/
lemma borrowLoop_spec (rs : List ℕ) (borrow : ℕ) (hok : LimbsOk rs) (hc : borrow ≤ 1)
    (hle : borrow ≤ limbsVal rs) :
    limbsVal (borrowLoop rs borrow) + borrow = limbsVal rs ∧ LimbsOk (borrowLoop rs borrow) ∧
      (borrowLoop rs borrow).length = rs.length := by
  induction rs generalizing borrow with
  | nil =>
    have h0 : borrow = 0 := by simpa using hle
    exact ⟨by simp [borrowLoop, h0], hok, rfl⟩
  | cons r rs ih =>
    obtain ⟨hr1, hr2⟩ := limbsOk_cons.mp hok
    unfold borrowLoop
    split_ifs with h0
    · exact ⟨by rw [h0, Nat.add_zero], hok, rfl⟩
    · have hwrap : wrappingSub r borrow = limbDiff r 0 borrow := by
        have hr : wrappingSub r 0 = r := by
          unfold wrappingSub
          unfold limbBase at hr1
          omega
        rw [limbDiff, hr]
      obtain ⟨hdiff, hb1⟩ := limbDiff_spec hr1 limbBase_pos hc
      rw [limbsVal_cons] at hle
      have hrec : limbDiff r 0 borrow / limbBase % 2 ≤ limbsVal rs := by
        have hmod := Nat.mod_lt (limbDiff r 0 borrow) limbBase_pos
        by_contra hlt
        have hz : limbsVal rs = 0 := by omega
        have h1 : limbDiff r 0 borrow / limbBase % 2 = 1 := by omega
        rw [h1] at hdiff
        rw [hz] at hle
        omega
      obtain ⟨hval, hok', hlen⟩ := ih _ hr2 hb1 hrec
      rw [hwrap]
      refine ⟨?_, limbsOk_cons.mpr ⟨Nat.mod_lt _ limbBase_pos, hok'⟩, by simpa using hlen⟩
      rw [limbsVal_cons, limbsVal_cons, ← hval]
      linarith

/-- A subtraction in place of no more than the block holds subtracts. -/
lemma subInPlaceLoop_spec (rs bs : List ℕ) (borrow : ℕ) (hrs : LimbsOk rs) (hbs : LimbsOk bs)
    (hc : borrow ≤ 1) (hlen : bs.length ≤ rs.length)
    (hle : limbsVal bs + borrow ≤ limbsVal rs) :
    ∃ r', subInPlaceLoop rs bs borrow = some r' ∧ LimbsOk r' ∧ r'.length = rs.length ∧
      limbsVal r' + limbsVal bs + borrow = limbsVal rs := by
  induction bs generalizing rs borrow with
  | nil =>
    obtain ⟨hval, hok, hl⟩ := borrowLoop_spec rs borrow hrs hc (by simpa using hle)
    exact ⟨_, by cases rs <;> rfl, hok, hl, by simpa using hval⟩
  | cons b bs ih =>
    cases rs with
    | nil => simp at hlen
    | cons r rs =>
      obtain ⟨hr1, hr2⟩ := limbsOk_cons.mp hrs
      obtain ⟨hb1, hb2⟩ := limbsOk_cons.mp hbs
      obtain ⟨hdiff, hb3⟩ := limbDiff_spec hr1 hb1 hc
      rw [limbsVal_cons, limbsVal_cons] at hle
      have hrec : limbsVal bs + limbDiff r b borrow / limbBase % 2 ≤ limbsVal rs := by
        have hmod := Nat.mod_lt (limbDiff r b borrow) limbBase_pos
        by_contra hlt
        have hmul : limbBase * (limbsVal rs + 1) ≤
            limbBase * (limbsVal bs + limbDiff r b borrow / limbBase % 2) :=
          Nat.mul_le_mul_left _ (by omega)
        rw [Nat.mul_add, Nat.mul_add, Nat.mul_one] at hmul
        omega
      obtain ⟨r', hrun, hok, hl, hval⟩ := ih rs _ hr2 hb2 hb3 (by simpa using hlen) hrec
      refine ⟨limbDiff r b borrow % limbBase :: r', by simp [subInPlaceLoop, hrun],
        limbsOk_cons.mpr ⟨Nat.mod_lt _ limbBase_pos, hok⟩, by simpa using hl, ?_⟩
      rw [limbsVal_cons, limbsVal_cons, limbsVal_cons, ← hval]
      linarith

/-- Subtracting a number of no more than the block holds. -/
lemma magSubInPlace_spec {r : List ℕ} {z : ℕ} (hr : LimbsOk r)
    (hlen : (limbsOf z).length ≤ r.length) (hle : z ≤ limbsVal r) :
    ∃ r', magSubInPlace r (limbsOf z) = some r' ∧ LimbsOk r' ∧ r'.length = r.length ∧
      limbsVal r' = limbsVal r - z := by
  obtain ⟨r', hrun, hok, hl, hval⟩ := subInPlaceLoop_spec r (limbsOf z) 0 hr (limbsOk_limbsOf z)
    (by omega) hlen (by simpa using hle)
  rw [limbsVal_limbsOf] at hval
  exact ⟨r', hrun, hok, hl, by omega⟩

/-! ### The recursion -/

/-- The halves of the limbs of a number are the limbs of its halves. -/
lemma magSplitAt_limbsOf (x m : ℕ) :
    magSplitAt (limbsOf x) m = (limbsOf (x % limbBase ^ m), limbsOf (x / limbBase ^ m)) := by
  have hok := limbsOk_limbsOf x
  have htake : LimbsOk ((limbsOf x).take m) := fun w hw => hok w (List.mem_of_mem_take hw)
  have hdrop : LimbsOk ((limbsOf x).drop m) := fun w hw => hok w (List.mem_of_mem_drop hw)
  have hcut : limbsVal ((limbsOf x).take m) + limbBase ^ m * limbsVal ((limbsOf x).drop m) =
      x := by
    conv_rhs => rw [← limbsVal_limbsOf x, ← List.take_append_drop m (limbsOf x), limbsVal_append]
    rcases Nat.le_total m (limbsOf x).length with hle | hge
    · rw [List.length_take_of_le hle]
    · rw [List.drop_eq_nil_of_le hge, limbsVal_nil, Nat.mul_zero, Nat.mul_zero]
  have hlt : limbsVal ((limbsOf x).take m) < limbBase ^ m :=
    lt_of_lt_of_le (limbsVal_lt htake)
      (Nat.pow_le_pow_right limbBase_pos (List.length_take_le m _))
  obtain ⟨hdiv, hmod⟩ := (Nat.div_mod_unique (Nat.pow_pos limbBase_pos)).mpr ⟨hcut, hlt⟩
  rw [magSplitAt, normalizeWords_eq htake, normalizeWords_eq hdrop, hdiv, hmod]

/-- Partial products that fit the block add up. -/
lemma karatsubaSum_spec {na nb m z0 z1 z2 : ℕ} (hN : na + nb < 2 ^ 32) (hm : 2 * m ≤ na + nb)
    (hfit : z0 + limbBase ^ m * z1 + limbBase ^ (2 * m) * z2 < limbBase ^ (na + nb)) :
    karatsubaSum na nb m (limbsOf z0) (limbsOf z1) (limbsOf z2) =
      some (limbsOf (z0 + limbBase ^ m * z1 + limbBase ^ (2 * m) * z2)) := by
  have hblock : allocRaw (na + nb) = List.replicate (na + nb) 0 := by
    rw [allocRaw, lenField, Nat.mod_eq_of_lt hN]
  have hoff : lenField (2 * m) = 2 * m := Nat.mod_eq_of_lt (by omega)
  obtain ⟨r0, hr0, hok0, hl0, hv0⟩ := magAddInPlaceAt_spec z0 0
    (limbsOk_replicate (na + nb)) (Nat.zero_le _) (by
      rw [limbsVal_replicate, List.length_replicate, pow_zero]
      omega)
  rw [limbsVal_replicate, pow_zero, Nat.zero_add, Nat.one_mul] at hv0
  rw [List.length_replicate] at hl0
  obtain ⟨r1, hr1, hok1, hl1, hv1⟩ := magAddInPlaceAt_spec z1 m hok0
    (by rw [hl0]; omega) (by rw [hv0, hl0]; omega)
  obtain ⟨r2, hr2, hok2, -, hv2⟩ := magAddInPlaceAt_spec z2 (2 * m) hok1
    (by rw [hl1, hl0]; exact hm) (by rw [hv1, hv0, hl1, hl0]; exact hfit)
  simp only [karatsubaSum, hblock, hoff, hr0, hr1, hr2, Option.bind_eq_bind, Option.bind_some]
  rw [normalizeWords_eq hok2, hv2, hv1, hv0]

/-- Partial products do not fit a block that is reserved too short. -/
lemma karatsubaSum_eq_none {na nb m : ℕ} {z0 z1 z2 : List ℕ} (hN : 2 ^ 32 ≤ na + nb)
    (ha : na + 1 < 2 ^ 32) (hb : nb + 1 < 2 ^ 32) (hm : m = splitPoint na nb)
    (hz : z2 ≠ [] ∨ z1 ≠ [] ∧ (na ≤ m ∨ nb ≤ m)) : karatsubaSum na nb m z0 z1 z2 = none := by
  have hblock : (allocRaw (na + nb)).length + 2 ^ 32 = na + nb := by
    rw [allocRaw, List.length_replicate, lenField]
    omega
  have hoff : lenField (2 * m) = 2 * m := by
    rw [hm, splitPoint, lenField]
    omega
  have hlen : ∀ {r z r' : List ℕ} {off : ℕ}, magAddInPlaceAt r z off = some r' →
      r'.length = r.length := by
    intro r z r' off h
    by_cases hz : z = []
    · rw [hz, magAddInPlaceAt_nil] at h
      rw [Option.some_inj.mp h]
    · exact (magAddInPlaceAt_length hz h).2
  rw [Option.eq_none_iff_forall_ne_some]
  intro res hres
  simp only [karatsubaSum, Option.bind_eq_bind, Option.bind_eq_some_iff] at hres
  obtain ⟨r0, hr0, r1, hr1, r2, hr2, -⟩ := hres
  rw [hoff] at hr2
  have hl0 := hlen hr0
  have hl1 := hlen hr1
  rw [splitPoint] at hm
  rcases hz with hz2 | ⟨hz1, hside⟩
  · have h2 := (magAddInPlaceAt_length hz2 hr2).1
    omega
  · have h1 := (magAddInPlaceAt_length hz1 hr1).1
    have hpos := List.length_pos_iff.mpr hz1
    omega

/-- The lower half is below the power of the base at the split. -/
lemma low_lt (x m : ℕ) : x % limbBase ^ m < limbBase ^ m :=
  Nat.mod_lt _ (Nat.pow_pos limbBase_pos)

/-- The upper half is below it too, where the split is at half the length or above. -/
lemma high_lt {x m : ℕ} (hm : (limbsOf x).length ≤ 2 * m) : x / limbBase ^ m < limbBase ^ m := by
  rw [Nat.div_lt_iff_lt_mul (Nat.pow_pos limbBase_pos), ← pow_add, ← two_mul]
  exact length_limbsOf_le_iff.mp hm

/-- A sum of halves has at most one limb more than a half. -/
lemma length_half_sum {x m : ℕ} (hm : (limbsOf x).length ≤ 2 * m) :
    (limbsOf (x % limbBase ^ m + x / limbBase ^ m)).length ≤ m + 1 := by
  rw [length_limbsOf_le_iff, pow_succ]
  have h1 := low_lt x m
  have h2 := high_lt hm
  have h3 : limbBase ^ m * 2 ≤ limbBase ^ m * limbBase :=
    Nat.mul_le_mul_left _ one_lt_limbBase
  omega

/-- Adding the halves. -/
lemma magAdd_halves {x m : ℕ} (hm : (limbsOf x).length ≤ 2 * m) (hm32 : m + 1 < 2 ^ 32) :
    magAdd (limbsOf (x % limbBase ^ m)) (limbsOf (x / limbBase ^ m)) =
      some (limbsOf (x % limbBase ^ m + x / limbBase ^ m)) := by
  refine magAdd_limbsOf (lt_of_le_of_lt (Nat.add_le_add_right ?_ 1) hm32)
  exact length_limbsOf_le_iff.mpr (max_lt (low_lt x m) (high_lt hm))

/-- With the right partial products, the splitting step comes down to adding them up. -/
lemma magMulKaratsuba_eq {mul : List ℕ → List ℕ → Option (List ℕ)} {x y m : ℕ}
    (hm : m = splitPoint (limbsOf x).length (limbsOf y).length) (hm32 : m + 1 < 2 ^ 32)
    (h0 : mul (limbsOf (x % limbBase ^ m)) (limbsOf (y % limbBase ^ m)) =
      some (limbsOf ((x % limbBase ^ m) * (y % limbBase ^ m))))
    (h2 : mul (limbsOf (x / limbBase ^ m)) (limbsOf (y / limbBase ^ m)) =
      some (limbsOf ((x / limbBase ^ m) * (y / limbBase ^ m))))
    (h1 : mul (limbsOf (x % limbBase ^ m + x / limbBase ^ m))
        (limbsOf (y % limbBase ^ m + y / limbBase ^ m)) =
      some (limbsOf ((x % limbBase ^ m + x / limbBase ^ m) *
        (y % limbBase ^ m + y / limbBase ^ m)))) :
    magMulKaratsuba mul (limbsOf x) (limbsOf y) =
      karatsubaSum (limbsOf x).length (limbsOf y).length m
        (limbsOf ((x % limbBase ^ m) * (y % limbBase ^ m)))
        (limbsOf ((x % limbBase ^ m) * (y / limbBase ^ m) +
          (x / limbBase ^ m) * (y % limbBase ^ m)))
        (limbsOf ((x / limbBase ^ m) * (y / limbBase ^ m))) := by
  have hx : (limbsOf x).length ≤ 2 * m := by
    rw [hm, splitPoint]
    omega
  have hy : (limbsOf y).length ≤ 2 * m := by
    rw [hm, splitPoint]
    omega
  have haddx := magAdd_halves hx hm32
  have haddy := magAdd_halves hy hm32
  generalize hxl : x % limbBase ^ m = xl at *
  generalize hxh : x / limbBase ^ m = xh at *
  generalize hyl : y % limbBase ^ m = yl at *
  generalize hyh : y / limbBase ^ m = yh at *
  have hexpand : (xl + xh) * (yl + yh) = xl * yl + (xl * yh + xh * yl) + xh * yh := by ring
  have hle0 : xl * yl ≤ (xl + xh) * (yl + yh) := by
    rw [hexpand]
    omega
  obtain ⟨r1, hr1, hok1, hl1, hv1⟩ := magSubInPlace_spec (z := xl * yl)
    (limbsOk_limbsOf ((xl + xh) * (yl + yh))) (length_limbsOf_mono hle0)
    (by rwa [limbsVal_limbsOf])
  rw [limbsVal_limbsOf] at hv1
  have hle2 : xh * yh ≤ (xl + xh) * (yl + yh) := by
    rw [hexpand]
    omega
  obtain ⟨r2, hr2, hok2, -, hv2⟩ := magSubInPlace_spec (z := xh * yh) hok1
    (by rw [hl1]; exact length_limbsOf_mono hle2) (by rw [hv1, hexpand]; omega)
  have hmid : limbsVal r2 = xl * yh + xh * yl := by
    rw [hv2, hv1, hexpand]
    omega
  simp only [magMulKaratsuba, ← hm, magSplitAt_limbsOf, hxl, hxh, hyl, hyh, h0, h1, h2, haddx,
    haddy, hr1, hr2, Option.bind_eq_bind, Option.bind_some]
  rw [normalizeWords_eq hok2, hmid]

/-- Magnitudes whose product fits a block: one of them is zero, or their lengths add up to a
32-bit length. -/
def MulFits (x y : ℕ) : Prop :=
  x = 0 ∨ y = 0 ∨ (limbsOf x).length + (limbsOf y).length < 2 ^ 32

instance (x y : ℕ) : Decidable (MulFits x y) := by
  unfold MulFits
  infer_instance

/-- A product of smaller factors fits too. -/
lemma MulFits.mono {x y u v : ℕ} (h : MulFits x y) (hu : u ≤ x) (hv : v ≤ y) :
    MulFits u v := by
  rcases h with rfl | rfl | h
  · exact Or.inl (Nat.le_zero.mp hu)
  · exact Or.inr (Or.inl (Nat.le_zero.mp hv))
  · have h1 := length_limbsOf_mono hu
    have h2 := length_limbsOf_mono hv
    exact Or.inr (Or.inr (by omega))

/-- The sum of the halves is at most the number. -/
lemma half_sum_le (x m : ℕ) : x % limbBase ^ m + x / limbBase ^ m ≤ x := by
  conv_rhs => rw [← Nat.mod_add_div x (limbBase ^ m)]
  exact Nat.add_le_add_left (Nat.le_mul_of_pos_left _ (Nat.pow_pos limbBase_pos)) _

/-- Stripping zero limbs does not lengthen. -/
lemma length_normalizeWords_le (ws : List ℕ) : (normalizeWords ws).length ≤ ws.length :=
  (List.rdropWhile_prefix _ _).length_le

/-- A sum has at most one limb more than its longer operand. -/
lemma length_magAdd_le {a b r : List ℕ} (h : magAdd a b = some r) :
    r.length ≤ max a.length b.length + 1 := by
  obtain ⟨ws, hws, rfl⟩ := Option.map_eq_some_iff.mp h
  unfold writeLimbs at hws
  split_ifs at hws with hlen
  have hlen' : (allocRaw (max a.length b.length + 1)).length ≤ max a.length b.length + 1 := by
    rw [allocRaw, List.length_replicate]
    exact Nat.mod_le _ _
  have hw : ws.length = (allocRaw (max a.length b.length + 1)).length := by
    rw [← Option.some_inj.mp hws, List.length_append, List.length_drop]
    omega
  have := length_normalizeWords_le ws
  omega

/-- The multiplication is the one of the source: the guard on its recursive calls passes. -/
theorem magMul_eq (a b : List ℕ) : magMul a b =
    if a.length = 0 ∨ b.length = 0 then some (allocRaw 0)
    else if min a.length b.length < karatsubaThreshold then magMulSchoolbook a b
    else magMulKaratsuba magMul a b := by
  rw [magMul]
  split_ifs with hzero hsmall
  · rfl
  · rfl
  · have hm : splitPoint a.length b.length + 1 < max a.length b.length := by
      unfold splitPoint
      unfold karatsubaThreshold at hsmall
      omega
    have hhalf : max a.length b.length ≤ 2 * splitPoint a.length b.length := by
      unfold splitPoint
      omega
    have hlow : ∀ c : List ℕ, (magSplitAt c (splitPoint a.length b.length)).1.length ≤
        splitPoint a.length b.length := fun c =>
      (length_normalizeWords_le _).trans (List.length_take_le _ _)
    have hhigh : ∀ c : List ℕ, c.length ≤ max a.length b.length →
        (magSplitAt c (splitPoint a.length b.length)).2.length ≤
          splitPoint a.length b.length := by
      intro c hc
      refine (length_normalizeWords_le _).trans ?_
      rw [List.length_drop]
      omega
    have ha1 := hlow a
    have hb1 := hlow b
    have ha2 := hhigh a (le_max_left _ _)
    have hb2 := hhigh b (le_max_right _ _)
    simp only [magMulKaratsuba, Option.bind_eq_bind]
    rw [if_pos]
    · refine Option.bind_congr fun z0 _ => ?_
      rw [if_pos]
      · refine Option.bind_congr fun z2 _ => Option.bind_congr fun sumA hA =>
          Option.bind_congr fun sumB hB => ?_
        have hsumA := length_magAdd_le hA
        have hsumB := length_magAdd_le hB
        rw [if_pos]
        omega
      · omega
    · omega

/-- The three products of the halves make up the product. -/
lemma karatsuba_identity (x y m : ℕ) :
    x % limbBase ^ m * (y % limbBase ^ m) +
        limbBase ^ m * (x % limbBase ^ m * (y / limbBase ^ m) +
          x / limbBase ^ m * (y % limbBase ^ m)) +
        limbBase ^ (2 * m) * (x / limbBase ^ m * (y / limbBase ^ m)) = x * y := by
  have hx := Nat.mod_add_div x (limbBase ^ m)
  have hy := Nat.mod_add_div y (limbBase ^ m)
  conv_rhs => rw [← hx, ← hy]
  ring

/-- Of long factors the upper halves, or the mixed ones, have a product that is not zero. -/
lemma products_ne_nil {x y m : ℕ} (hx32 : (limbsOf x).length + 1 < 2 ^ 32)
    (hy32 : (limbsOf y).length + 1 < 2 ^ 32)
    (hlong : 2 ^ 32 ≤ (limbsOf x).length + (limbsOf y).length)
    (hm : m = splitPoint (limbsOf x).length (limbsOf y).length) :
    limbsOf (x / limbBase ^ m * (y / limbBase ^ m)) ≠ [] ∨
      limbsOf (x % limbBase ^ m * (y / limbBase ^ m) + x / limbBase ^ m * (y % limbBase ^ m)) ≠
          [] ∧
        ((limbsOf x).length ≤ m ∨ (limbsOf y).length ≤ m) := by
  have hdiv : ∀ z : ℕ, z / limbBase ^ m = 0 ↔ (limbsOf z).length ≤ m := by
    intro z
    rw [Nat.div_eq_zero_iff_lt (Nat.pow_pos limbBase_pos), length_limbsOf_le_iff]
  have hne : ∀ {z : ℕ}, (limbsOf z).length ≤ m → 0 < (limbsOf z).length →
      z % limbBase ^ m ≠ 0 := by
    intro z hz hpos
    rw [Nat.mod_eq_of_lt (length_limbsOf_le_iff.mp hz)]
    exact mt limbsOf_eq_nil_iff.mpr (List.length_pos_iff.mp hpos)
  rw [splitPoint] at hm
  by_cases hx : (limbsOf x).length ≤ m
  · right
    have hy : ¬(limbsOf y).length ≤ m := by omega
    refine ⟨mt limbsOf_eq_nil_iff.mp ?_, Or.inl hx⟩
    have h1 := Nat.mul_ne_zero (hne hx (by omega)) (mt (hdiv y).mp hy)
    omega
  · by_cases hy : (limbsOf y).length ≤ m
    · right
      refine ⟨mt limbsOf_eq_nil_iff.mp ?_, Or.inr hy⟩
      have h1 := Nat.mul_ne_zero (mt (hdiv x).mp hx) (hne hy (by omega))
      omega
    · left
      exact mt limbsOf_eq_nil_iff.mp
        (Nat.mul_ne_zero (mt (hdiv x).mp hx) (mt (hdiv y).mp hy))

/-- A conditional that gives something gives its first branch. -/
lemma eq_some_of_ite {p : Prop} [Decidable p] {o : Option (List ℕ)} {r z : List ℕ}
    (h : o = if p then some r else none) (hz : o = some z) : o = some r := by
  split_ifs at h with hp
  · exact h
  · rw [h] at hz
    simp at hz

/-- The product of the limbs of numbers, by either method: the limbs of the product where it
fits its block, nothing otherwise. -/
theorem magMul_limbsOf {x y : ℕ} (hx : (limbsOf x).length + 1 < 2 ^ 32)
    (hy : (limbsOf y).length + 1 < 2 ^ 32) :
    magMul (limbsOf x) (limbsOf y) = if MulFits x y then some (limbsOf (x * y)) else none := by
  induction hn : max (limbsOf x).length (limbsOf y).length using Nat.strong_induction_on
    generalizing x y with
  | _ n ih =>
    rw [magMul_eq]
    by_cases hx0 : x = 0
    · have hfit : MulFits x y := Or.inl hx0
      rw [if_pos (Or.inl (by simp [hx0])), if_pos hfit, hx0, Nat.zero_mul, limbsOf_zero]
      rfl
    by_cases hy0 : y = 0
    · have hfit : MulFits x y := Or.inr (Or.inl hy0)
      rw [if_pos (Or.inr (by simp [hy0])), if_pos hfit, hy0, Nat.mul_zero, limbsOf_zero]
      rfl
    have hxpos := List.length_pos_iff.mpr (mt limbsOf_eq_nil_iff.mp hx0)
    have hypos := List.length_pos_iff.mpr (mt limbsOf_eq_nil_iff.mp hy0)
    have hfits : MulFits x y ↔ (limbsOf x).length + (limbsOf y).length < 2 ^ 32 := by
      simp [MulFits, hx0, hy0]
    rw [if_neg (by omega)]
    split_ifs with hsmall hfit hfit
    · exact magMulSchoolbook_limbsOf (hfits.mp hfit)
    · exact magMulSchoolbook_eq_none (mt limbsOf_eq_nil_iff.mp hx0)
        (not_lt.mp (mt hfits.mpr hfit))
    all_goals
      unfold karatsubaThreshold at hsmall
      obtain ⟨m, hm⟩ : ∃ m, m = splitPoint (limbsOf x).length (limbsOf y).length := ⟨_, rfl⟩
      have hm' := hm
      rw [splitPoint] at hm'
      have hlowlen : ∀ z, (limbsOf (z % limbBase ^ m)).length ≤ m := fun z =>
        length_limbsOf_le_iff.mpr (low_lt z m)
      have hhighlen : ∀ {z}, (limbsOf z).length ≤ 2 * m →
          (limbsOf (z / limbBase ^ m)).length ≤ m := fun hz =>
        length_limbsOf_le_iff.mpr (high_lt hz)
      have hx2 : (limbsOf x).length ≤ 2 * m := by omega
      have hy2 : (limbsOf y).length ≤ 2 * m := by omega
      have hxl := hlowlen x
      have hyl := hlowlen y
      have hxh := hhighlen hx2
      have hyh := hhighlen hy2
      have hxs := length_half_sum hx2
      have hys := length_half_sum hy2
      have h0 := ih (max (limbsOf (x % limbBase ^ m)).length
        (limbsOf (y % limbBase ^ m)).length) (by omega) (by omega) (by omega) rfl
      have h2 := ih (max (limbsOf (x / limbBase ^ m)).length
        (limbsOf (y / limbBase ^ m)).length) (by omega) (by omega) (by omega) rfl
      have h1 := ih (max (limbsOf (x % limbBase ^ m + x / limbBase ^ m)).length
        (limbsOf (y % limbBase ^ m + y / limbBase ^ m)).length) (by omega) (by omega)
        (by omega) rfl
    · rw [if_pos (hfit.mono (Nat.mod_le _ _) (Nat.mod_le _ _))] at h0
      rw [if_pos (hfit.mono (Nat.div_le_self _ _) (Nat.div_le_self _ _))] at h2
      rw [if_pos (hfit.mono (half_sum_le x m) (half_sum_le y m))] at h1
      have hsum := hfits.mp hfit
      rw [magMulKaratsuba_eq hm (by omega) h0 h2 h1, karatsubaSum_spec hsum (by omega)]
      · rw [karatsuba_identity x y m]
      · rw [karatsuba_identity x y m, pow_add]
        exact Nat.mul_lt_mul_of_lt_of_lt (lt_pow_length x) (lt_pow_length y)
    · have hlong := not_lt.mp (mt hfits.mpr hfit)
      rw [Option.eq_none_iff_forall_ne_some]
      intro res hres
      have hsteps := hres
      simp only [magMulKaratsuba, magSplitAt_limbsOf, ← hm, magAdd_halves hx2 (by omega),
        magAdd_halves hy2 (by omega), Option.bind_eq_bind, Option.bind_some,
        Option.bind_eq_some_iff] at hsteps
      obtain ⟨z0, hz0, z2, hz2, z1, hz1, -⟩ := hsteps
      rw [magMulKaratsuba_eq hm (by omega)
        (eq_some_of_ite h0 hz0) (eq_some_of_ite h2 hz2) (eq_some_of_ite h1 hz1),
        karatsubaSum_eq_none hlong hx hy hm (products_ne_nil hx hy hlong hm)] at hres
      simp at hres

end BigInt

end Torajs
