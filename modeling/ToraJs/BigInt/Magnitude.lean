import ToraJs.BigInt.Layout
import Mathlib.Data.List.DropRight
import Mathlib.Data.Nat.Digits.Lemmas

/-!
# Magnitudes

The operations on magnitudes that work limb by limb: stripping zero limbs, comparing, adding
and subtracting.  On the limbs of numbers each gives the limbs of the result, as long as the
length of its block fits the 32-bit length field.
-/

namespace Torajs

namespace BigInt

/-! ### Blocks -/

/-- A length as the 32-bit field of a block holds it. -/
def lenField (n : ℕ) : ℕ := n % 2 ^ 32

/-- The limbs of a fresh block: zeros, as many as its length field says. -/
def allocRaw (n : ℕ) : List ℕ := List.replicate (lenField n) 0

/-- Strip the zero limbs at the top. -/
def normalizeWords (ws : List ℕ) : List ℕ := ws.rdropWhile (· == 0)

/-- Write limbs from the start of a block; nothing comes of it where they pass its end. -/
def writeLimbs (block limbs : List ℕ) : Option (List ℕ) :=
  if limbs.length ≤ block.length then some (limbs ++ block.drop limbs.length) else none

/-! ### Loops -/

/-- The walk of a comparison, from the top limbs down. -/
def cmpLoop : List ℕ → List ℕ → Ordering
  | a :: as, b :: bs => if a ≠ b then (if a < b then .lt else .gt) else cmpLoop as bs
  | _, _ => .eq

/-- Compare magnitudes: by length, then from the top limb down. -/
def magCmp (a b : List ℕ) : Ordering :=
  if a.length ≠ b.length then (if a.length < b.length then .lt else .gt)
  else cmpLoop a.reverse b.reverse

/-- The loop of an addition; a missing limb counts as zero and the carry comes last. -/
def addLoop : List ℕ → List ℕ → ℕ → List ℕ
  | [], [], carry => [carry]
  | a :: as, [], carry =>
    let sum := a + 0 + carry
    sum % limbBase :: addLoop as [] (sum / limbBase)
  | [], b :: bs, carry =>
    let sum := 0 + b + carry
    sum % limbBase :: addLoop [] bs (sum / limbBase)
  | a :: as, b :: bs, carry =>
    let sum := a + b + carry
    sum % limbBase :: addLoop as bs (sum / limbBase)

/-- Add magnitudes. -/
def magAdd (a b : List ℕ) : Option (List ℕ) :=
  (writeLimbs (allocRaw (max a.length b.length + 1)) (addLoop a b 0)).map normalizeWords

/-- Subtraction of 128-bit numbers, wrapping. -/
def wrappingSub (x y : ℕ) : ℕ := (x + 2 ^ 128 - y) % 2 ^ 128

/-- The difference of two limbs and a borrow, as a 128-bit number. -/
def limbDiff (a b borrow : ℕ) : ℕ := wrappingSub (wrappingSub a b) borrow

/-- The loop of a subtraction. -/
def subLoop : List ℕ → List ℕ → ℕ → List ℕ
  | [], _, _ => []
  | a :: as, [], borrow =>
    let diff := limbDiff a 0 borrow
    diff % limbBase :: subLoop as [] (diff / limbBase % 2)
  | a :: as, b :: bs, borrow =>
    let diff := limbDiff a b borrow
    diff % limbBase :: subLoop as bs (diff / limbBase % 2)

/-- Subtract magnitudes; the first is at least the second. -/
def magSub (a b : List ℕ) : List ℕ := normalizeWords (subLoop a b 0)

/-! ### The limbs of a number -/

/-- The limbs of a natural number, without a zero at the top. -/
def limbsOf (n : ℕ) : List ℕ := Nat.digits limbBase n

lemma one_lt_limbBase : 1 < limbBase := by norm_num [limbBase]

/-- The limbs of a number denote it. -/
@[simp] lemma limbsVal_limbsOf (n : ℕ) : limbsVal (limbsOf n) = n :=
  Nat.ofDigits_digits limbBase n

/-- The limbs of a number fit their words. -/
lemma limbsOk_limbsOf (n : ℕ) : LimbsOk (limbsOf n) :=
  fun _ hw => Nat.digits_lt_base one_lt_limbBase hw

/-- The limbs of a number have no zero at the top. -/
lemma noTopZero_limbsOf (n : ℕ) : NoTopZero (limbsOf n) := by
  intro h
  have hne : limbsOf n ≠ [] := by
    intro hnil
    rw [hnil] at h
    simp at h
  have hn : n ≠ 0 := by
    rintro rfl
    exact hne (Nat.digits_zero limbBase)
  rw [List.getLast?_eq_some_getLast hne] at h
  exact Nat.getLast_digit_ne_zero limbBase hn (Option.some_inj.mp h)

/-- Limbs in range without a zero at the top are the limbs of their value. -/
lemma eq_limbsOf {ws : List ℕ} (hok : LimbsOk ws) (htop : NoTopZero ws) :
    ws = limbsOf (limbsVal ws) := (digits_limbsVal hok htop).symm

@[simp] lemma limbsOf_zero : limbsOf 0 = [] := Nat.digits_zero limbBase

/-- Only zero has no limbs. -/
lemma limbsOf_eq_nil_iff {n : ℕ} : limbsOf n = [] ↔ n = 0 := Nat.digits_eq_nil_iff_eq_zero

/-- The number of limbs. -/
lemma length_limbsOf_le_iff {n k : ℕ} : (limbsOf n).length ≤ k ↔ n < limbBase ^ k :=
  Nat.digits_length_le_iff one_lt_limbBase n

/-- A number is below the power of the base that its limbs span. -/
lemma lt_pow_length (n : ℕ) : n < limbBase ^ (limbsOf n).length :=
  length_limbsOf_le_iff.mp le_rfl

/-- A number with a limb is at least the power of the base at the top one. -/
lemma pow_length_le {n : ℕ} (hn : n ≠ 0) : limbBase ^ ((limbsOf n).length - 1) ≤ n := by
  have hpos : 0 < (limbsOf n).length :=
    List.length_pos_iff.mpr (mt limbsOf_eq_nil_iff.mp hn)
  by_contra hlt
  have hle := length_limbsOf_le_iff.mpr (not_le.mp hlt)
  omega

/-- A larger number has no fewer limbs. -/
lemma length_limbsOf_mono {m n : ℕ} (h : m ≤ n) :
    (limbsOf m).length ≤ (limbsOf n).length :=
  length_limbsOf_le_iff.mpr (lt_of_le_of_lt h (lt_pow_length n))

/-! ### Values of lists -/

/-- Limbs in range stay in range where the list is cut. -/
lemma limbsOk_cons {w : ℕ} {ws : List ℕ} : LimbsOk (w :: ws) ↔ w < limbBase ∧ LimbsOk ws :=
  List.forall_mem_cons

lemma limbsOk_nil : LimbsOk [] := fun _ hw => absurd hw List.not_mem_nil

/-- Limbs in range on both sides. -/
lemma limbsOk_append {ws vs : List ℕ} : LimbsOk (ws ++ vs) ↔ LimbsOk ws ∧ LimbsOk vs :=
  List.forall_mem_append

/-- The value of one list of limbs above another. -/
lemma limbsVal_append (ws vs : List ℕ) :
    limbsVal (ws ++ vs) = limbsVal ws + limbBase ^ ws.length * limbsVal vs :=
  Nat.ofDigits_append

/-- The value of limbs in range is below the power of the base they span. -/
lemma limbsVal_lt {ws : List ℕ} (hok : LimbsOk ws) : limbsVal ws < limbBase ^ ws.length :=
  Nat.ofDigits_lt_base_pow_length one_lt_limbBase hok

/-- Zero limbs denote zero. -/
@[simp] lemma limbsVal_replicate (k : ℕ) : limbsVal (List.replicate k 0) = 0 := by
  induction k with
  | zero => rfl
  | succ k ih => rw [List.replicate_succ, limbsVal_cons, ih, Nat.mul_zero]

/-- Zero limbs are in range. -/
lemma limbsOk_replicate (k : ℕ) : LimbsOk (List.replicate k 0) := by
  intro w hw
  rw [List.eq_of_mem_replicate hw]
  exact limbBase_pos

/-- Stripping zero limbs leaves the limbs of the value. -/
theorem normalizeWords_eq {ws : List ℕ} (hok : LimbsOk ws) :
    normalizeWords ws = limbsOf (limbsVal ws) := by
  have hval : limbsVal (normalizeWords ws) = limbsVal ws := by
    induction ws using List.reverseRecOn with
    | nil => simp [normalizeWords]
    | append_singleton ws w ih =>
      by_cases hw : w = 0
      · subst hw
        rw [normalizeWords, List.rdropWhile_concat_pos _ _ _ (by simp)]
        rw [show limbsVal (ws ++ [0]) = limbsVal ws by simp [limbsVal_append]]
        exact ih (limbsOk_append.mp hok).1
      · rw [normalizeWords, List.rdropWhile_concat_neg _ _ _ (by simpa using hw)]
  have hok' : LimbsOk (normalizeWords ws) :=
    fun w hw => hok w ((List.rdropWhile_prefix _ _).subset hw)
  have htop : NoTopZero (normalizeWords ws) := by
    intro h
    have hne : normalizeWords ws ≠ [] := by
      intro hnil
      rw [hnil] at h
      simp at h
    have hlast := List.rdropWhile_last_not _ _ hne
    rw [List.getLast?_eq_some_getLast hne, Option.some_inj] at h
    exact hlast (by simpa [normalizeWords] using h)
  rw [← hval]
  exact eq_limbsOf hok' htop

/-- The limbs of a number are already stripped. -/
lemma normalizeWords_limbsOf (n : ℕ) : normalizeWords (limbsOf n) = limbsOf n := by
  rw [normalizeWords_eq (limbsOk_limbsOf n), limbsVal_limbsOf]

/-! ### Comparing -/

/-- Lists of one length compare from the top limb down as their values do. -/
lemma cmpLoop_spec {as bs : List ℕ} (hlen : as.length = bs.length)
    (ha : LimbsOk as) (hb : LimbsOk bs) :
    cmpLoop as bs = compare (limbsVal as.reverse) (limbsVal bs.reverse) := by
  induction as generalizing bs with
  | nil =>
    cases bs with
    | nil => rfl
    | cons b bs => simp at hlen
  | cons a as ih =>
    cases bs with
    | nil => simp at hlen
    | cons b bs =>
      have hlen' : as.length = bs.length := by simpa using hlen
      obtain ⟨ha1, ha2⟩ := limbsOk_cons.mp ha
      obtain ⟨hb1, hb2⟩ := limbsOk_cons.mp hb
      have hrec := ih hlen' ha2 hb2
      have hra : LimbsOk as.reverse := fun w hw => ha2 w (List.mem_reverse.mp hw)
      have hrb : LimbsOk bs.reverse := fun w hw => hb2 w (List.mem_reverse.mp hw)
      have hla := limbsVal_lt hra
      have hlb := limbsVal_lt hrb
      rw [List.length_reverse] at hla hlb
      rw [cmpLoop, List.reverse_cons, List.reverse_cons, limbsVal_append, limbsVal_append,
        List.length_reverse, List.length_reverse, ← hlen']
      rw [← hlen'] at hlb
      simp only [limbsVal_cons, limbsVal_nil, Nat.mul_zero, Nat.add_zero]
      split_ifs with hne hlt
      · symm
        rw [Nat.compare_eq_lt]
        have hmul : limbBase ^ as.length * (a + 1) ≤ limbBase ^ as.length * b :=
          Nat.mul_le_mul_left _ hlt
        rw [Nat.mul_add, Nat.mul_one] at hmul
        omega
      · symm
        rw [Nat.compare_eq_gt]
        have hlt' : b < a := by omega
        have hmul : limbBase ^ as.length * (b + 1) ≤ limbBase ^ as.length * a :=
          Nat.mul_le_mul_left _ hlt'
        rw [Nat.mul_add, Nat.mul_one] at hmul
        omega
      · obtain rfl : a = b := not_not.mp hne
        rw [hrec]
        simp only [Nat.compare_eq_ite_lt, Nat.add_lt_add_iff_right]

/-- Comparing the limbs of numbers compares the numbers. -/
theorem magCmp_limbsOf (x y : ℕ) : magCmp (limbsOf x) (limbsOf y) = compare x y := by
  unfold magCmp
  have hshort : ∀ m n : ℕ, (limbsOf m).length < (limbsOf n).length → m < n := by
    intro m n h
    by_contra hle
    exact absurd (length_limbsOf_mono (not_lt.mp hle)) (not_le.mpr h)
  split_ifs with hne hlt
  · exact (Nat.compare_eq_lt.mpr (hshort x y hlt)).symm
  · exact (Nat.compare_eq_gt.mpr (hshort y x (by omega))).symm
  · rw [cmpLoop_spec (by simpa using not_not.mp hne), List.reverse_reverse, List.reverse_reverse,
      limbsVal_limbsOf, limbsVal_limbsOf]
    · exact fun w hw => limbsOk_limbsOf x w (List.mem_reverse.mp hw)
    · exact fun w hw => limbsOk_limbsOf y w (List.mem_reverse.mp hw)

/-! ### Adding -/

/-- A sum splits into its limb and its carry. -/
lemma limb_add_carry (n : ℕ) : n % limbBase + limbBase * (n / limbBase) = n :=
  Nat.mod_add_div n limbBase

/-- The loop of an addition adds. -/
lemma addLoop_spec (a b : List ℕ) (carry : ℕ) (ha : LimbsOk a) (hb : LimbsOk b)
    (hc : carry ≤ 1) :
    limbsVal (addLoop a b carry) = limbsVal a + limbsVal b + carry ∧
      LimbsOk (addLoop a b carry) ∧
      (addLoop a b carry).length = max a.length b.length + 1 := by
  have hcarry : ∀ s : ℕ, s < 2 * limbBase → s / limbBase ≤ 1 := by
    intro s hs
    have := Nat.div_lt_of_lt_mul (by rwa [Nat.mul_comm] at hs)
    omega
  have hbase := one_lt_limbBase
  fun_induction addLoop a b carry with
  | case1 carry =>
    refine ⟨by simp, ?_, rfl⟩
    exact limbsOk_cons.mpr ⟨lt_of_le_of_lt hc one_lt_limbBase, limbsOk_nil⟩
  | case2 a as carry sum ih =>
    obtain ⟨ha1, ha2⟩ := limbsOk_cons.mp ha
    obtain ⟨hval, hok, hlen⟩ := ih ha2 hb (hcarry _ (by omega))
    refine ⟨?_, limbsOk_cons.mpr ⟨Nat.mod_lt _ limbBase_pos, hok⟩, ?_⟩
    · rw [limbsVal_cons, hval, limbsVal_cons, limbsVal_nil]
      have hsum : sum = a + 0 + carry := rfl
      have := limb_add_carry sum
      linarith
    · simpa using hlen
  | case3 b bs carry sum ih =>
    obtain ⟨hb1, hb2⟩ := limbsOk_cons.mp hb
    obtain ⟨hval, hok, hlen⟩ := ih ha hb2 (hcarry _ (by omega))
    refine ⟨?_, limbsOk_cons.mpr ⟨Nat.mod_lt _ limbBase_pos, hok⟩, ?_⟩
    · rw [limbsVal_cons, hval, limbsVal_cons, limbsVal_nil]
      have hsum : sum = 0 + b + carry := rfl
      have := limb_add_carry sum
      linarith
    · simpa using hlen
  | case4 a as b bs carry sum ih =>
    obtain ⟨ha1, ha2⟩ := limbsOk_cons.mp ha
    obtain ⟨hb1, hb2⟩ := limbsOk_cons.mp hb
    obtain ⟨hval, hok, hlen⟩ := ih ha2 hb2 (hcarry _ (by omega))
    refine ⟨?_, limbsOk_cons.mpr ⟨Nat.mod_lt _ limbBase_pos, hok⟩, ?_⟩
    · rw [limbsVal_cons, hval, limbsVal_cons, limbsVal_cons]
      have hsum : sum = a + b + carry := rfl
      have := limb_add_carry sum
      linarith
    · rw [List.length_cons, hlen, List.length_cons, List.length_cons]
      omega

/-- A block that is written in full holds what was written. -/
lemma writeLimbs_allocRaw {n : ℕ} {limbs : List ℕ} (hlen : limbs.length = n)
    (hn : n < 2 ^ 32) : writeLimbs (allocRaw n) limbs = some limbs := by
  have hblock : (allocRaw n).length = n := by
    rw [allocRaw, List.length_replicate, lenField, Nat.mod_eq_of_lt hn]
  rw [writeLimbs, if_pos (by rw [hlen, hblock]), List.drop_eq_nil_of_le (by rw [hlen, hblock]),
    List.append_nil]

/-- Adding the limbs of numbers adds the numbers. -/
theorem magAdd_limbsOf {x y : ℕ} (hlen : (limbsOf (max x y)).length + 1 < 2 ^ 32) :
    magAdd (limbsOf x) (limbsOf y) = some (limbsOf (x + y)) := by
  obtain ⟨hval, hok, hl⟩ :=
    addLoop_spec (limbsOf x) (limbsOf y) 0 (limbsOk_limbsOf x) (limbsOk_limbsOf y) (by omega)
  have hx := length_limbsOf_mono (le_max_left x y)
  have hy := length_limbsOf_mono (le_max_right x y)
  rw [magAdd, writeLimbs_allocRaw hl (by omega), Option.map_some, normalizeWords_eq hok, hval,
    limbsVal_limbsOf, limbsVal_limbsOf, Nat.add_zero]

/-! ### Subtracting -/

/-- A difference of limbs splits into its limb and its borrow. -/
lemma limbDiff_spec {a b borrow : ℕ} (ha : a < limbBase) (hb : b < limbBase)
    (hc : borrow ≤ 1) :
    limbDiff a b borrow % limbBase + b + borrow =
        a + limbBase * (limbDiff a b borrow / limbBase % 2) ∧
      limbDiff a b borrow / limbBase % 2 ≤ 1 := by
  unfold limbDiff wrappingSub
  unfold limbBase at *
  omega

/-- The loop of a subtraction subtracts. -/
lemma subLoop_spec (a b : List ℕ) (borrow : ℕ) (ha : LimbsOk a) (hb : LimbsOk b)
    (hc : borrow ≤ 1) (hle : limbsVal b + borrow ≤ limbsVal a) :
    limbsVal (subLoop a b borrow) + limbsVal b + borrow = limbsVal a ∧
      LimbsOk (subLoop a b borrow) ∧ (subLoop a b borrow).length = a.length := by
  fun_induction subLoop a b borrow with
  | case1 b borrow =>
    rw [limbsVal_nil] at hle
    refine ⟨by rw [limbsVal_nil]; omega, limbsOk_nil, rfl⟩
  | case2 a as borrow diff ih =>
    obtain ⟨ha1, ha2⟩ := limbsOk_cons.mp ha
    obtain ⟨hdiff, hb1⟩ := limbDiff_spec ha1 limbBase_pos hc
    rw [limbsVal_cons, limbsVal_nil] at hle
    have hrec : limbsVal [] + limbDiff a 0 borrow / limbBase % 2 ≤ limbsVal as := by
      rw [limbsVal_nil]
      have hmod := Nat.mod_lt (limbDiff a 0 borrow) limbBase_pos
      by_contra hlt
      have h0 : limbsVal as = 0 := by omega
      have h1 : limbDiff a 0 borrow / limbBase % 2 = 1 := by omega
      rw [h1] at hdiff
      rw [h0] at hle
      omega
    obtain ⟨hval, hok, hlen⟩ := ih ha2 limbsOk_nil hb1 hrec
    refine ⟨?_, limbsOk_cons.mpr ⟨Nat.mod_lt _ limbBase_pos, hok⟩, by simpa using hlen⟩
    rw [limbsVal_nil] at hval
    rw [limbsVal_cons, limbsVal_cons, limbsVal_nil, ← hval]
    have hd : diff = limbDiff a 0 borrow := rfl
    rw [hd]
    linarith
  | case3 a as b bs borrow diff ih =>
    obtain ⟨ha1, ha2⟩ := limbsOk_cons.mp ha
    obtain ⟨hb1, hb2⟩ := limbsOk_cons.mp hb
    obtain ⟨hdiff, hb3⟩ := limbDiff_spec ha1 hb1 hc
    rw [limbsVal_cons, limbsVal_cons] at hle
    have hrec : limbsVal bs + limbDiff a b borrow / limbBase % 2 ≤ limbsVal as := by
      have hmod := Nat.mod_lt (limbDiff a b borrow) limbBase_pos
      by_contra hlt
      have hmul : limbBase * (limbsVal as + 1) ≤
          limbBase * (limbsVal bs + limbDiff a b borrow / limbBase % 2) :=
        Nat.mul_le_mul_left _ (by omega)
      rw [Nat.mul_add, Nat.mul_add, Nat.mul_one] at hmul
      omega
    obtain ⟨hval, hok, hlen⟩ := ih ha2 hb2 hb3 hrec
    refine ⟨?_, limbsOk_cons.mpr ⟨Nat.mod_lt _ limbBase_pos, hok⟩, by simpa using hlen⟩
    rw [limbsVal_cons, limbsVal_cons, limbsVal_cons, ← hval]
    have hd : diff = limbDiff a b borrow := rfl
    rw [hd]
    linarith

/-- Subtracting the limbs of numbers subtracts the numbers. -/
theorem magSub_limbsOf {x y : ℕ} (h : y ≤ x) : magSub (limbsOf x) (limbsOf y) = limbsOf (x - y) := by
  obtain ⟨hval, hok, -⟩ := subLoop_spec (limbsOf x) (limbsOf y) 0 (limbsOk_limbsOf x)
    (limbsOk_limbsOf y) (by omega) (by simpa using h)
  rw [limbsVal_limbsOf, limbsVal_limbsOf] at hval
  rw [magSub, normalizeWords_eq hok]
  congr 1
  omega

end BigInt

end Torajs
