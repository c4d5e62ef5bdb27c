import ToraJs.BigInt.Arith
import Mathlib.Data.Int.Bitwise

/-!
# Bitwise operations on BigInts

The operations read a BigInt as an infinite two's complement word.  The bits of a negative
number are the complement of the bits of its magnitude less one, so each operation works on
such magnitudes limb by limb and adds one back where its result is negative.  Adding one
needs a block one limb longer, and the last theorem says that the results are exact unless
the length of that block wraps.
-/

namespace Torajs

namespace BigInt

/-! ### Magnitudes -/

/-- Combine two magnitudes limb by limb to the end of the longer; a missing limb is zero. -/
def zipPad (f : ℕ → ℕ → ℕ) : List ℕ → List ℕ → List ℕ
  | [], [] => []
  | a :: as, [] => f a 0 :: zipPad f as []
  | [], b :: bs => f 0 b :: zipPad f [] bs
  | a :: as, b :: bs => f a b :: zipPad f as bs

/-- The complement of a limb. -/
def notLimb (w : ℕ) : ℕ := limbBase - 1 - w

/-- `a & b`, as long as the shorter. -/
def magAnd (a b : List ℕ) : List ℕ := normalizeWords (List.zipWith (· &&& ·) a b)

/-- `a | b`. -/
def magOr (a b : List ℕ) : List ℕ := normalizeWords (zipPad (· ||| ·) a b)

/-- `a ^ b`. -/
def magXor (a b : List ℕ) : List ℕ := normalizeWords (zipPad (· ^^^ ·) a b)

/-- The loop of `a & !b`, as long as `a`. -/
def andnotLoop : List ℕ → List ℕ → List ℕ
  | [], _ => []
  | a :: as, [] => (a &&& notLimb 0) :: andnotLoop as []
  | a :: as, b :: bs => (a &&& notLimb b) :: andnotLoop as bs

/-- `a & !b`. -/
def magAndnot (a b : List ℕ) : List ℕ := normalizeWords (andnotLoop a b)

/-- The loop of an increment; the carry comes last. -/
def incLoop : List ℕ → ℕ → List ℕ
  | [], carry => [carry]
  | a :: as, carry =>
    let sum := a + carry
    sum % limbBase :: incLoop as (sum / limbBase)

/-- `|x| + 1`. -/
def magInc1 (a : List ℕ) : Option (List ℕ) :=
  (writeLimbs (allocRaw (a.length + 1)) (incLoop a 1)).map normalizeWords

/-- The loop of a decrement. -/
def decLoop : List ℕ → ℕ → List ℕ
  | [], _ => []
  | a :: as, borrow =>
    let diff := wrappingSub a borrow
    diff % limbBase :: decLoop as (diff / limbBase % 2)

/-- `|x| - 1`; the magnitude is not zero. -/
def magDec1 (a : List ℕ) : List ℕ := normalizeWords (decLoop a 1)

/-! ### The operations -/

/-- The sign of a result that has limbs. -/
def signed (r : List ℕ) : BigInt := ⟨decide (r.length > 0), r⟩

/-- `~a`, as `-(a + 1)`. -/
def not (a : BigInt) : Option BigInt := (add a ⟨false, [1]⟩).map neg

/-- `a & b`. -/
def and (a b : BigInt) : Option BigInt :=
  if !a.sign && !b.sign then some (normalize ⟨false, magAnd a.words b.words⟩)
  else if a.sign && b.sign then
    (magInc1 (magOr (magDec1 a.words) (magDec1 b.words))).map fun r => normalize (signed r)
  else
    let (p, n) := if a.sign then (b, a) else (a, b)
    some (normalize ⟨false, magAndnot p.words (magDec1 n.words)⟩)

/-- `a | b`. -/
def or (a b : BigInt) : Option BigInt :=
  if !a.sign && !b.sign then some (normalize ⟨false, magOr a.words b.words⟩)
  else if a.sign && b.sign then
    (magInc1 (magAnd (magDec1 a.words) (magDec1 b.words))).map fun r => normalize (signed r)
  else
    let (p, n) := if a.sign then (b, a) else (a, b)
    (magInc1 (magAndnot (magDec1 n.words) p.words)).map fun r => normalize (signed r)

/-- `a ^ b`. -/
def xor (a b : BigInt) : Option BigInt :=
  if !a.sign && !b.sign then some (normalize ⟨false, magXor a.words b.words⟩)
  else if a.sign && b.sign then
    some (normalize ⟨false, magXor (magDec1 a.words) (magDec1 b.words)⟩)
  else
    let (p, n) := if a.sign then (b, a) else (a, b)
    (magInc1 (magXor p.words (magDec1 n.words))).map fun r => normalize (signed r)

/-! ### Limb by limb -/

/-- The limb of a list at an index; there are zeros above its end. -/
def limbAt (ws : List ℕ) (i : ℕ) : ℕ := ws[i]?.getD 0

/-- Every limb of a magnitude fits its word. -/
lemma limbAt_lt {ws : List ℕ} (hok : LimbsOk ws) (i : ℕ) : limbAt ws i < limbBase := by
  unfold limbAt
  rcases Option.eq_none_or_eq_some ws[i]? with h | ⟨w, h⟩
  · rw [h]
    exact limbBase_pos
  · rw [h]
    exact hok w (List.mem_of_getElem? h)

/-- Limbs combined by a bitwise operation denote the numbers combined by it. -/
lemma testBit_of_limbwise {f : ℕ → ℕ → ℕ} {g : Bool → Bool → Bool} {a b r : List ℕ}
    (ha : LimbsOk a) (hb : LimbsOk b) (hr : ∀ i, limbAt r i = f (limbAt a i) (limbAt b i))
    (hlt : ∀ x y, x < limbBase → y < limbBase → f x y < limbBase)
    (hf : ∀ x y j, x < limbBase → y < limbBase → j < 64 →
      (f x y).testBit j = g (x.testBit j) (y.testBit j)) :
    LimbsOk r ∧
      ∀ k, (limbsVal r).testBit k = g ((limbsVal a).testBit k) ((limbsVal b).testBit k) := by
  have hok : LimbsOk r := by
    intro w hw
    obtain ⟨i, hi⟩ := List.getElem?_of_mem hw
    have hw' : limbAt r i = w := by
      unfold limbAt
      rw [hi]
      rfl
    rw [← hw', hr]
    exact hlt _ _ (limbAt_lt ha i) (limbAt_lt hb i)
  refine ⟨hok, fun k => ?_⟩
  rw [testBit_limbsVal hok, testBit_limbsVal ha, testBit_limbsVal hb]
  change (limbAt r (k / 64)).testBit (k % 64) = _
  rw [hr, hf _ _ _ (limbAt_lt ha _) (limbAt_lt hb _) (Nat.mod_lt _ (by norm_num))]
  rfl

@[simp] lemma limbAt_nil (i : ℕ) : limbAt [] i = 0 := rfl

@[simp] lemma limbAt_cons_zero (w : ℕ) (ws : List ℕ) : limbAt (w :: ws) 0 = w := rfl

@[simp] lemma limbAt_cons_succ (w : ℕ) (ws : List ℕ) (i : ℕ) :
    limbAt (w :: ws) (i + 1) = limbAt ws i := by
  unfold limbAt
  rw [List.getElem?_cons_succ]

/-- The limbs of a combination to the end of the longer list. -/
lemma limbAt_zipPad {f : ℕ → ℕ → ℕ} (h0 : f 0 0 = 0) (a b : List ℕ) (i : ℕ) :
    limbAt (zipPad f a b) i = f (limbAt a i) (limbAt b i) := by
  fun_induction zipPad f a b generalizing i with
  | case1 => simp [h0]
  | case2 a as ih => cases i <;> simp [ih]
  | case3 b bs ih => cases i <;> simp [ih]
  | case4 a as b bs ih => cases i <;> simp [ih]

/-- The limbs of a combination to the end of the shorter list. -/
lemma limbAt_zipWith {f : ℕ → ℕ → ℕ} (hl : ∀ y, f 0 y = 0) (hr : ∀ x, f x 0 = 0)
    (a b : List ℕ) (i : ℕ) : limbAt (List.zipWith f a b) i = f (limbAt a i) (limbAt b i) := by
  induction a generalizing b i with
  | nil => simp [hl]
  | cons a as ih =>
    cases b with
    | nil => simp [hr]
    | cons b bs => cases i <;> simp [ih]

/-- The limbs of `a & !b`. -/
lemma limbAt_andnotLoop (a b : List ℕ) (i : ℕ) :
    limbAt (andnotLoop a b) i = limbAt a i &&& notLimb (limbAt b i) := by
  fun_induction andnotLoop a b generalizing i with
  | case1 b => simp
  | case2 a as ih => cases i <;> simp [ih]
  | case3 a as b bs ih => cases i <;> simp [ih]

/-- The bits of the complement of a limb. -/
lemma testBit_notLimb {w j : ℕ} (hw : w < limbBase) (hj : j < 64) :
    (notLimb w).testBit j = !w.testBit j := by
  have hsucc : notLimb w = 2 ^ 64 - (w + 1) := by
    unfold notLimb limbBase
    omega
  rw [hsucc, Nat.testBit_two_pow_sub_succ hw, decide_eq_true hj, Bool.true_and]

/-- The complement of a limb is a limb. -/
lemma notLimb_lt (w : ℕ) : notLimb w < limbBase := by
  unfold notLimb limbBase
  omega

section Magnitudes

variable (x y : ℕ)

/-- Limbs whose bits are those of a number are its limbs once stripped. -/
lemma normalizeWords_of_testBit {r : List ℕ} {z : ℕ}
    (h : LimbsOk r ∧ ∀ k, (limbsVal r).testBit k = z.testBit k) : normalizeWords r = limbsOf z := by
  rw [normalizeWords_eq h.1, Nat.eq_of_testBit_eq h.2]

/-- The conjunction of the limbs of numbers. -/
theorem magAnd_limbsOf : magAnd (limbsOf x) (limbsOf y) = limbsOf (x &&& y) := by
  refine normalizeWords_of_testBit ?_
  have h := testBit_of_limbwise (g := Bool.and) (limbsOk_limbsOf x) (limbsOk_limbsOf y)
    (limbAt_zipWith (f := (· &&& ·)) Nat.zero_and Nat.and_zero _ _)
    (fun u v hu _ => lt_of_le_of_lt Nat.and_le_left hu) (fun u v j _ _ _ => Nat.testBit_and u v j)
  refine ⟨h.1, fun k => ?_⟩
  rw [h.2, limbsVal_limbsOf, limbsVal_limbsOf, Nat.testBit_and]

/-- The disjunction of the limbs of numbers. -/
theorem magOr_limbsOf : magOr (limbsOf x) (limbsOf y) = limbsOf (x ||| y) := by
  refine normalizeWords_of_testBit ?_
  have h := testBit_of_limbwise (g := Bool.or) (limbsOk_limbsOf x) (limbsOk_limbsOf y)
    (limbAt_zipPad (f := (· ||| ·)) rfl _ _)
    (fun u v hu hv => Nat.or_lt_two_pow hu hv) (fun u v j _ _ _ => Nat.testBit_or u v j)
  refine ⟨h.1, fun k => ?_⟩
  rw [h.2, limbsVal_limbsOf, limbsVal_limbsOf, Nat.testBit_or]

/-- The exclusive disjunction of the limbs of numbers. -/
theorem magXor_limbsOf : magXor (limbsOf x) (limbsOf y) = limbsOf (x ^^^ y) := by
  refine normalizeWords_of_testBit ?_
  have h := testBit_of_limbwise (g := Bool.xor) (limbsOk_limbsOf x) (limbsOk_limbsOf y)
    (limbAt_zipPad (f := (· ^^^ ·)) rfl _ _)
    (fun u v hu hv => Nat.xor_lt_two_pow hu hv) (fun u v j _ _ _ => Nat.testBit_xor u v j)
  refine ⟨h.1, fun k => ?_⟩
  rw [h.2, limbsVal_limbsOf, limbsVal_limbsOf, Nat.testBit_xor]

/-- The difference of the bits of numbers. -/
theorem magAndnot_limbsOf : magAndnot (limbsOf x) (limbsOf y) = limbsOf (Nat.ldiff x y) := by
  refine normalizeWords_of_testBit ?_
  have h := testBit_of_limbwise (g := fun p q => p && !q) (limbsOk_limbsOf x) (limbsOk_limbsOf y)
    (limbAt_andnotLoop _ _) (fun u v hu _ => lt_of_le_of_lt Nat.and_le_left hu)
    (fun u v j _ hv hj => by rw [Nat.testBit_and, testBit_notLimb hv hj])
  refine ⟨h.1, fun k => ?_⟩
  rw [h.2, limbsVal_limbsOf, limbsVal_limbsOf, Nat.testBit_ldiff]

end Magnitudes

/-! ### One more and one less -/

/-- The loop of an increment adds its carry. -/
lemma incLoop_spec (ws : List ℕ) (carry : ℕ) (hok : LimbsOk ws) (hc : carry ≤ 1) :
    limbsVal (incLoop ws carry) = limbsVal ws + carry ∧ LimbsOk (incLoop ws carry) ∧
      (incLoop ws carry).length = ws.length + 1 := by
  induction ws generalizing carry with
  | nil =>
    refine ⟨by simp [incLoop], ?_, rfl⟩
    exact limbsOk_cons.mpr ⟨lt_of_le_of_lt hc one_lt_limbBase, limbsOk_nil⟩
  | cons w ws ih =>
    obtain ⟨hw, hws⟩ := limbsOk_cons.mp hok
    have hcarry : (w + carry) / limbBase ≤ 1 := by
      unfold limbBase at *
      omega
    obtain ⟨hval, hok', hlen⟩ := ih _ hws hcarry
    refine ⟨?_, limbsOk_cons.mpr ⟨Nat.mod_lt _ limbBase_pos, hok'⟩, by simpa [incLoop] using hlen⟩
    rw [incLoop, limbsVal_cons, hval, limbsVal_cons]
    have := limb_add_carry (w + carry)
    linarith

/-- Nothing comes of a write past the end of a block whose length wrapped. -/
lemma writeLimbs_allocRaw_wrap {n : ℕ} {limbs : List ℕ} (hlen : limbs.length = n)
    (hn : 2 ^ 32 ≤ n) : writeLimbs (allocRaw n) limbs = none := by
  have hmod := Nat.mod_lt n (show 0 < 2 ^ 32 by norm_num)
  rw [writeLimbs, if_neg]
  rw [hlen, allocRaw, List.length_replicate, lenField]
  omega

/-- A magnitude to which one can be added: its length leaves room for a limb. -/
def IncFits (x : ℕ) : Prop := (limbsOf x).length + 1 < 2 ^ 32

instance (x : ℕ) : Decidable (IncFits x) := inferInstanceAs (Decidable (_ < _))

/-- Adding one to the limbs of a number, as long as the block fits. -/
theorem magInc1_limbsOf (x : ℕ) :
    magInc1 (limbsOf x) = if IncFits x then some (limbsOf (x + 1)) else none := by
  obtain ⟨hval, hok, hlen⟩ := incLoop_spec (limbsOf x) 1 (limbsOk_limbsOf x) le_rfl
  unfold magInc1
  by_cases hfit : IncFits x
  · rw [if_pos hfit, writeLimbs_allocRaw hlen hfit, Option.map_some, normalizeWords_eq hok, hval,
      limbsVal_limbsOf]
  · rw [if_neg hfit, writeLimbs_allocRaw_wrap hlen (not_lt.mp hfit), Option.map_none]

/-- The loop of a decrement is that of a subtraction of nothing. -/
lemma decLoop_eq_subLoop (ws : List ℕ) (borrow : ℕ) (hok : LimbsOk ws) :
    decLoop ws borrow = subLoop ws [] borrow := by
  induction ws generalizing borrow with
  | nil => rfl
  | cons w ws ih =>
    obtain ⟨hw, hws⟩ := limbsOk_cons.mp hok
    have hzero : wrappingSub w 0 = w := by
      rw [wrappingSub, Nat.sub_zero, Nat.add_mod_right, Nat.mod_eq_of_lt]
      exact lt_of_lt_of_le hw (by norm_num [limbBase])
    rw [decLoop, subLoop, limbDiff, hzero, ih _ hws]

/-- Taking one from the limbs of a number. -/
theorem magDec1_limbsOf (x : ℕ) : magDec1 (limbsOf (x + 1)) = limbsOf x := by
  have hok := limbsOk_limbsOf (x + 1)
  obtain ⟨hval, hok', -⟩ := subLoop_spec (limbsOf (x + 1)) [] 1 hok limbsOk_nil le_rfl
    (by rw [limbsVal_limbsOf, limbsVal_nil]; omega)
  rw [limbsVal_limbsOf, limbsVal_nil] at hval
  rw [magDec1, decLoop_eq_subLoop _ _ hok, normalizeWords_eq hok']
  congr 1
  omega

/-- A sum whose block wraps: nothing comes of it. -/
lemma magAdd_limbsOf_wrap {x y : ℕ} (hlen : 2 ^ 32 ≤ (limbsOf (max x y)).length + 1) :
    magAdd (limbsOf x) (limbsOf y) = none := by
  obtain ⟨-, -, hl⟩ :=
    addLoop_spec (limbsOf x) (limbsOf y) 0 (limbsOk_limbsOf x) (limbsOk_limbsOf y) (by omega)
  have hmax : (limbsOf (max x y)).length ≤ max (limbsOf x).length (limbsOf y).length := by
    rcases le_total x y with h | h
    · rw [max_eq_right h]
      exact le_max_right _ _
    · rw [max_eq_left h]
      exact le_max_left _ _
  rw [magAdd, writeLimbs_allocRaw_wrap hl (by omega), Option.map_none]

/-! ### Signs -/

/-- The canonical form of a negative number. -/
lemma ofInt_negSucc (n : ℕ) : ofInt (Int.negSucc n) = ⟨true, limbsOf (n + 1)⟩ := by
  simp [ofInt, Int.negSucc_lt_zero]

/-- The limbs of a number that is not zero, under the sign, are a canonical form. -/
lemma normalize_signed (n : ℕ) : normalize (signed (limbsOf (n + 1))) = ofInt (Int.negSucc n) := by
  have hpos : 0 < (limbsOf (n + 1)).length :=
    List.length_pos_of_ne_nil (mt limbsOf_eq_nil_iff.mp (Nat.succ_ne_zero n))
  rw [signed, decide_eq_true hpos, normalize_limbsOf, if_pos rfl]
  rfl

/-- Limbs without a sign are a canonical form. -/
lemma normalize_unsigned (n : ℕ) : normalize ⟨false, limbsOf n⟩ = ofInt (n : ℤ) := by
  rw [normalize_limbsOf, if_neg (by simp)]

/-- A magnitude to which one is added, under the sign. -/
lemma inc_negSucc (n : ℕ) :
    (magInc1 (limbsOf n)).map (fun r => normalize (signed r)) =
      if IncFits n then some (ofInt (Int.negSucc n)) else none := by
  rw [magInc1_limbsOf]
  split_ifs
  · rw [Option.map_some, normalize_signed]
  · rfl

/-- The limbs that the complement of a number needs: a number that is not negative is
increased first. -/
def NotFits : ℤ → Prop
  | .ofNat m => IncFits (max m 1)
  | .negSucc _ => True

/-- The limbs that a conjunction needs. -/
def AndFits : ℤ → ℤ → Prop
  | .negSucc m, .negSucc n => IncFits (m ||| n)
  | _, _ => True

/-- The limbs that a disjunction needs. -/
def OrFits : ℤ → ℤ → Prop
  | .ofNat _, .ofNat _ => True
  | .ofNat m, .negSucc n => IncFits (Nat.ldiff n m)
  | .negSucc m, .ofNat n => IncFits (Nat.ldiff m n)
  | .negSucc m, .negSucc n => IncFits (m &&& n)

/-- The limbs that an exclusive disjunction needs. -/
def XorFits : ℤ → ℤ → Prop
  | .ofNat m, .negSucc n => IncFits (m ^^^ n)
  | .negSucc m, .ofNat n => IncFits (m ^^^ n)
  | _, _ => True

instance : (x : ℤ) → Decidable (NotFits x)
  | .ofNat m => inferInstanceAs (Decidable (IncFits (max m 1)))
  | .negSucc _ => isTrue trivial

instance : (x y : ℤ) → Decidable (AndFits x y)
  | .ofNat _, .ofNat _ => isTrue trivial
  | .ofNat _, .negSucc _ => isTrue trivial
  | .negSucc _, .ofNat _ => isTrue trivial
  | .negSucc m, .negSucc n => inferInstanceAs (Decidable (IncFits (m ||| n)))

instance : (x y : ℤ) → Decidable (OrFits x y)
  | .ofNat _, .ofNat _ => isTrue trivial
  | .ofNat m, .negSucc n => inferInstanceAs (Decidable (IncFits (Nat.ldiff n m)))
  | .negSucc m, .ofNat n => inferInstanceAs (Decidable (IncFits (Nat.ldiff m n)))
  | .negSucc m, .negSucc n => inferInstanceAs (Decidable (IncFits (m &&& n)))

instance : (x y : ℤ) → Decidable (XorFits x y)
  | .ofNat _, .ofNat _ => isTrue trivial
  | .ofNat m, .negSucc n => inferInstanceAs (Decidable (IncFits (m ^^^ n)))
  | .negSucc m, .ofNat n => inferInstanceAs (Decidable (IncFits (m ^^^ n)))
  | .negSucc _, .negSucc _ => isTrue trivial

/-! ### The results -/

/-- The complement of a number, as long as its block fits. -/
theorem not_ofInt (x : ℤ) :
    not (ofInt x) = if NotFits x then some (ofInt (Int.lnot x)) else none := by
  have hone : (⟨false, [1]⟩ : BigInt) = ofInt 1 :=
    (Canonical.eq_ofInt (by decide)).trans (congrArg ofInt (by simp [toInt]))
  have hlnot : Int.lnot x = -(x + 1) := by
    cases x with
    | ofNat m =>
      rw [Int.lnot, Int.negSucc_eq]
      rfl
    | negSucc m =>
      rw [Int.lnot, Int.negSucc_eq]
      omega
  unfold not
  rw [hone]
  cases x with
  | ofNat m =>
    by_cases hfit : NotFits (.ofNat m)
    · have hsum : add (ofInt (.ofNat m)) (ofInt 1) = some (ofInt (.ofNat m + 1)) := add_ofInt hfit
      rw [if_pos hfit, hsum, Option.map_some, neg_ofInt, hlnot]
    · have hsum : add (ofInt (.ofNat m)) (ofInt 1) = none := by
        have hsign : (ofInt (.ofNat m)).sign = (ofInt 1).sign := by simp [ofInt]
        unfold add
        rw [if_pos hsign]
        have hwrap : magAdd (ofInt (.ofNat m)).words (ofInt 1).words = none :=
          magAdd_limbsOf_wrap (not_lt.mp hfit)
        rw [hwrap, Option.map_none]
      rw [if_neg hfit, hsum, Option.map_none]
  | negSucc m =>
    have hsum : add (ofInt (.negSucc m)) (ofInt 1) = some (ofInt (.negSucc m + 1)) := by
      -- of different signs: the magnitudes are subtracted
      have hwords : ofInt 1 = ⟨false, limbsOf 1⟩ := ofInt_natCast 1
      rw [ofInt_negSucc, hwords, add, if_neg (by simp)]
      refine (difference_limbsOf true false (m + 1) 1).trans ?_
      refine congrArg (fun z => some (ofInt z)) ?_
      rw [Int.negSucc_eq, if_neg (by omega), if_pos rfl]
      omega
    rw [if_pos (show NotFits (.negSucc m) from trivial), hsum, Option.map_some, neg_ofInt, hlnot]

/-- The conjunction of numbers, as long as its block fits. -/
theorem and_ofInt (x y : ℤ) :
    and (ofInt x) (ofInt y) = if AndFits x y then some (ofInt (Int.land x y)) else none := by
  cases x with
  | ofNat m =>
    cases y with
    | ofNat n =>
      rw [Int.ofNat_eq_natCast, Int.ofNat_eq_natCast, ofInt_natCast, ofInt_natCast]
      simp only [and, Bool.not_false, Bool.and_self, if_true, magAnd_limbsOf, normalize_unsigned]
      rfl
    | negSucc n =>
      rw [Int.ofNat_eq_natCast, ofInt_natCast, ofInt_negSucc]
      simp only [and, Bool.not_false, Bool.not_true, Bool.and_false, Bool.false_eq_true, if_false,
        Bool.and_true, magDec1_limbsOf, magAndnot_limbsOf, normalize_unsigned]
      rfl
  | negSucc m =>
    cases y with
    | ofNat n =>
      rw [Int.ofNat_eq_natCast, ofInt_natCast, ofInt_negSucc]
      simp only [and, Bool.not_false, Bool.not_true, Bool.and_false, Bool.false_eq_true, if_false,
        if_true, Bool.and_true, magDec1_limbsOf, magAndnot_limbsOf, normalize_unsigned]
      rfl
    | negSucc n =>
      rw [ofInt_negSucc, ofInt_negSucc]
      simp only [and, Bool.not_true, Bool.and_false, Bool.false_eq_true, if_false, if_true,
        Bool.and_true, magDec1_limbsOf, magOr_limbsOf, inc_negSucc]
      rfl

/-- The disjunction of numbers, as long as its block fits. -/
theorem or_ofInt (x y : ℤ) :
    or (ofInt x) (ofInt y) = if OrFits x y then some (ofInt (Int.lor x y)) else none := by
  cases x with
  | ofNat m =>
    cases y with
    | ofNat n =>
      rw [Int.ofNat_eq_natCast, Int.ofNat_eq_natCast, ofInt_natCast, ofInt_natCast]
      simp only [or, Bool.not_false, Bool.and_self, if_true, magOr_limbsOf, normalize_unsigned]
      rfl
    | negSucc n =>
      rw [Int.ofNat_eq_natCast, ofInt_natCast, ofInt_negSucc]
      simp only [or, Bool.not_false, Bool.not_true, Bool.and_false, Bool.false_eq_true, if_false,
        Bool.and_true, magDec1_limbsOf, magAndnot_limbsOf, inc_negSucc]
      rfl
  | negSucc m =>
    cases y with
    | ofNat n =>
      rw [Int.ofNat_eq_natCast, ofInt_natCast, ofInt_negSucc]
      simp only [or, Bool.not_false, Bool.not_true, Bool.and_false, Bool.false_eq_true, if_false,
        if_true, Bool.and_true, magDec1_limbsOf, magAndnot_limbsOf, inc_negSucc]
      rfl
    | negSucc n =>
      rw [ofInt_negSucc, ofInt_negSucc]
      simp only [or, Bool.not_true, Bool.and_false, Bool.false_eq_true, if_false, if_true,
        Bool.and_true, magDec1_limbsOf, magAnd_limbsOf, inc_negSucc]
      rfl

/-- The exclusive disjunction of numbers, as long as its block fits. -/
theorem xor_ofInt (x y : ℤ) :
    xor (ofInt x) (ofInt y) = if XorFits x y then some (ofInt (Int.xor x y)) else none := by
  cases x with
  | ofNat m =>
    cases y with
    | ofNat n =>
      rw [Int.ofNat_eq_natCast, Int.ofNat_eq_natCast, ofInt_natCast, ofInt_natCast]
      simp only [xor, Bool.not_false, Bool.and_self, if_true, magXor_limbsOf, normalize_unsigned]
      rfl
    | negSucc n =>
      rw [Int.ofNat_eq_natCast, ofInt_natCast, ofInt_negSucc]
      simp only [xor, Bool.not_false, Bool.not_true, Bool.and_false, Bool.false_eq_true, if_false,
        Bool.and_true, magDec1_limbsOf, magXor_limbsOf, inc_negSucc]
      rfl
  | negSucc m =>
    cases y with
    | ofNat n =>
      rw [Int.ofNat_eq_natCast, ofInt_natCast, ofInt_negSucc]
      simp only [xor, Bool.not_false, Bool.not_true, Bool.and_false, Bool.false_eq_true, if_false,
        if_true, Bool.and_true, magDec1_limbsOf, magXor_limbsOf, inc_negSucc]
      rw [Nat.xor_comm n m]
      rfl
    | negSucc n =>
      rw [ofInt_negSucc, ofInt_negSucc]
      simp only [xor, Bool.not_true, Bool.and_false, Bool.false_eq_true, if_false, if_true,
        Bool.and_true, magDec1_limbsOf, magXor_limbsOf, normalize_unsigned]
      rfl

/-! ### Bits -/

/-- An operation gives a canonical BigInt with the bits `bit`, as an infinite two's complement
word. -/
def GivesBits (r : Option BigInt) (bit : ℕ → Bool) : Prop :=
  ∃ b, r = some b ∧ b.Canonical ∧ ∀ i, b.toInt.testBit i = bit i

/-- A result that is there whenever its block fits gives its bits exactly then. -/
lemma givesBits_ite {p : Prop} [Decidable p] {z : ℤ} {bit : ℕ → Bool}
    (h : ∀ i, z.testBit i = bit i) : GivesBits (if p then some (ofInt z) else none) bit ↔ p := by
  constructor
  · rintro ⟨b, hb, -⟩
    by_contra hp
    rw [if_neg hp] at hb
    cases hb
  · intro hp
    rw [if_pos hp]
    exact ⟨_, rfl, canonical_ofInt z, fun i => by rw [toInt_ofInt, h]⟩

/-- The bitwise operations on two BigInts work on the bits of their operands. -/
structure BitwiseExact (a b : BigInt) : Prop where
  not : GivesBits (not a) fun i => !a.toInt.testBit i
  and : GivesBits (and a b) fun i => a.toInt.testBit i && b.toInt.testBit i
  or : GivesBits (or a b) fun i => a.toInt.testBit i || b.toInt.testBit i
  xor : GivesBits (xor a b) fun i => Bool.xor (a.toInt.testBit i) (b.toInt.testBit i)

/-- The blocks of all the results fit: each magnitude to which an operation adds one has
fewer than `2 ^ 32 - 1` limbs. -/
structure BitwiseFits (x y : ℤ) : Prop where
  not : NotFits x
  and : AndFits x y
  or : OrFits x y
  xor : XorFits x y

/-- On canonical operands the bitwise operations are exact and canonical if and only if the
blocks of the magnitudes that are increased fit. -/
theorem bitwise_iff {a b : BigInt} (ha : a.Canonical) (hb : b.Canonical) :
    BitwiseExact a b ↔ BitwiseFits a.toInt b.toInt := by
  obtain ⟨x, hx⟩ : ∃ x, x = a.toInt := ⟨_, rfl⟩
  obtain ⟨y, hy⟩ : ∃ y, y = b.toInt := ⟨_, rfl⟩
  rw [ha.eq_ofInt, hb.eq_ofInt, ← hx, ← hy]
  have hnot := givesBits_ite (p := NotFits x) (fun i => Int.testBit_lnot x i)
  have hand := givesBits_ite (p := AndFits x y) (fun i => Int.testBit_land x y i)
  have hor := givesBits_ite (p := OrFits x y) (fun i => Int.testBit_lor x y i)
  have hxor := givesBits_ite (p := XorFits x y) (fun i => Int.testBit_lxor x y i)
  rw [← not_ofInt] at hnot
  rw [← and_ofInt] at hand
  rw [← or_ofInt] at hor
  rw [← xor_ofInt] at hxor
  constructor
  · intro h
    have h₁ := h.not
    have h₂ := h.and
    have h₃ := h.or
    have h₄ := h.xor
    simp only [toInt_ofInt] at h₁ h₂ h₃ h₄ ⊢
    exact ⟨hnot.mp h₁, hand.mp h₂, hor.mp h₃, hxor.mp h₄⟩
  · intro h
    simp only [toInt_ofInt] at h
    refine ⟨?_, ?_, ?_, ?_⟩ <;> simp only [toInt_ofInt]
    · exact hnot.mpr h.not
    · exact hand.mpr h.and
    · exact hor.mpr h.or
    · exact hxor.mpr h.xor

/-- A number of one limb can be increased. -/
lemma incFits_of_lt {x : ℕ} (hx : x < limbBase) : IncFits x := by
  have h : (limbsOf x).length ≤ 1 := length_limbsOf_le_iff.mpr (by rwa [pow_one])
  unfold IncFits
  omega

/-- The bitwise operations on `-7n` and `-4n`. -/
theorem bitwise_seven_four : BitwiseExact ⟨true, [7]⟩ ⟨true, [4]⟩ := by
  have hseven : (⟨true, [7]⟩ : BigInt).toInt = Int.negSucc 6 := by simp [toInt, Int.negSucc_eq]
  have hfour : (⟨true, [4]⟩ : BigInt).toInt = Int.negSucc 3 := by simp [toInt, Int.negSucc_eq]
  refine (bitwise_iff (by decide) (by decide)).mpr ?_
  rw [hseven, hfour]
  exact ⟨trivial, incFits_of_lt (by decide), incFits_of_lt (by decide), trivial⟩

/-- A power of two that is a whole number of limbs has one limb more. -/
lemma length_two_pow (k : ℕ) : (limbsOf (2 ^ (64 * k))).length = k + 1 := by
  have hlt := lt_length_two_pow k
  have hle : (limbsOf (2 ^ (64 * k))).length ≤ k + 1 := by
    rw [length_limbsOf_le_iff, limbBase, ← pow_mul]
    exact Nat.pow_lt_pow_right (by norm_num) (by omega)
  omega

/-- The complement of a number that is as long as the length field allows: one limb more does
not fit, and nothing comes of it. -/
lemma not_eq_none {k : ℕ} (hk : k + 2 = 2 ^ 32) : not (ofInt (2 ^ (64 * k) : ℕ)) = none := by
  have hfits : ¬NotFits (2 ^ (64 * k) : ℕ) := by
    intro h
    have h' : (limbsOf (max (2 ^ (64 * k)) 1)).length + 1 < 2 ^ 32 := h
    rw [max_eq_left Nat.one_le_two_pow, length_two_pow] at h'
    omega
  rw [not_ofInt, if_neg hfits]

/-- The complement of a number of `2 ^ 32 - 1` limbs is lost. -/
theorem not_bitwise_wraps :
    (ofInt (2 ^ (64 * (2 ^ 32 - 2)) : ℕ)).Canonical ∧
      (ofInt (2 ^ (64 * (2 ^ 32 - 2)) : ℕ)).words.length < 2 ^ 32 ∧
      not (ofInt (2 ^ (64 * (2 ^ 32 - 2)) : ℕ)) = none ∧
      ¬BitwiseExact (ofInt (2 ^ (64 * (2 ^ 32 - 2)) : ℕ)) (ofInt 0) := by
  obtain ⟨k, hk⟩ : ∃ k : ℕ, k = 2 ^ 32 - 2 := ⟨_, rfl⟩
  rw [← hk]
  have hnone := not_eq_none (k := k) (by omega)
  have hlen : (ofInt (2 ^ (64 * k) : ℕ)).words.length = k + 1 := by
    rw [ofInt_natCast]
    exact length_two_pow k
  refine ⟨canonical_ofInt _, by omega, hnone, ?_⟩
  intro hexact
  obtain ⟨b, hb, -⟩ := hexact.not
  rw [hnone] at hb
  cases hb

end BigInt

end Torajs
