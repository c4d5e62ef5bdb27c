import ToraJs.BigInt.Layout
import ToraJs.Lib.Binary64

/-!
# Map and Set keys

A key reaches the collections as a `(tag, payload)` pair and is stored as a NaN box, from
which a lookup decodes a pair again.  Hashing and comparing dispatch on the tag; a number
has two representations, a 64-bit integer and a double, that must hash and compare alike.

The meaning of a pair is a value of the language, with numbers, strings and BigInts taken
by value and every other cell by identity, so that equality of meanings is SameValueZero.
The file proves that the comparison decides it and that the hash respects it.
-/

namespace Torajs.Collections

/-- A heap cell as far as hashing and comparing a key read it.  Strings are compared by
their code units and BigInts by value; of any other cell only the address is read. -/
inductive HeapCell
  | str (units : List ℕ)
  | bigint (b : {b : BigInt // b.Canonical})
  | other (addr : BitVec 64)
deriving DecidableEq

/-- A tagged pair: the tags `ANY_NULL` to `ANY_UNDEF`, each with its payload. -/
inductive AnyPair
  | null
  | bool (b : Bool)
  | i64 (payload : BitVec 64)
  | f64 (bits : BitVec 64)
  | heap (p : Option HeapCell)
  | undef
deriving DecidableEq

/-! ### Hashing -/

/-- SplitMix64 finalizer, truncated to 32 bits. -/
def mapMixU64 (x : BitVec 64) : BitVec 32 :=
  let x := x ^^^ (x >>> 33)
  let x := x * 0xff51afd7ed558ccd#64
  let x := x ^^^ (x >>> 33)
  let x := x * 0xc4ceb9fe1a85ec53#64
  let x := x ^^^ (x >>> 33)
  x.truncate 32

/-- FNV-1a over a list of input words. -/
def fnv1a (ws : List ℕ) : BitVec 64 :=
  ws.foldl (fun h w => (h ^^^ BitVec.ofNat 64 w) * 0x100000001b3#64) 0xcbf29ce484222325#64

/-- The little-endian bytes of a limb. -/
def limbBytes (w : ℕ) : List ℕ := (List.range 8).map fun i => w / 256 ^ i % 256

/-- FNV-1a over a byte slice, finalized through SplitMix. -/
def mapHashBytes (bytes : List ℕ) : BitVec 32 := mapMixU64 (fnv1a bytes)

/-- The content hash of a string cell, over its code units. -/
def strHash (units : List ℕ) : BitVec 64 := fnv1a units

/-- The integer a double denotes exactly, when it is in the range of `i64`. -/
def f64AsExactI64 (bits : BitVec 64) : Option (BitVec 64) :=
  match Binary64.toInt? bits.toNat with
  | some z => if -2 ^ 63 ≤ z ∧ z < 2 ^ 63 then some (BitVec.ofInt 64 z) else none
  | none => none

/-- The hash of a heap cell. -/
def hashCell : HeapCell → BitVec 32
  | .str units => mapMixU64 (strHash units)
  | .bigint b =>
    let limbs := mapHashBytes (b.1.words.flatMap limbBytes)
    let sign : BitVec 64 := if b.1.sign then 1#64 else 0#64
    mapMixU64 (limbs.zeroExtend 64 ^^^ (sign <<< 32) ^^^ 0xb16#64)
  | .other addr => mapMixU64 (addr ^^^ 0xf00d#64)

/-- The hash of a pair before zero is avoided. -/
def hashPair : AnyPair → BitVec 32
  | .null => 0xa5a5a5a5#32
  | .undef => 0x5a5a5a5a#32
  | .bool b => mapMixU64 ((if b then 1#64 else 0#64) ^^^ 0xb001#64)
  | .i64 payload => mapMixU64 (payload ^^^ 0xa11#64)
  | .f64 bits =>
    if Binary64.isNaN bits.toNat then 0xdeadbeef#32
    else
      match f64AsExactI64 bits with
      | some i => mapMixU64 (i ^^^ 0xa11#64)
      | none => mapMixU64 (bits ^^^ 0xa11#64)
  | .heap none => 0x12345678#32
  | .heap (some c) => hashCell c

/-- The hash of a key; zero marks a deleted entry and is never returned. -/
def mapHashKey (k : AnyPair) : ℕ :=
  let h := (hashPair k).toNat
  if h = 0 then 1 else h

/-- A key never hashes to the mark of a deleted entry. -/
lemma mapHashKey_ne_zero (k : AnyPair) : mapHashKey k ≠ 0 := by
  simp only [mapHashKey]
  split_ifs with h
  · exact one_ne_zero
  · exact h

/-! ### Comparing -/

/-- Comparison of heap cells.  The address test the code makes first answers for one and
the same cell, whose contents agree. -/
def cellsEqual : HeapCell → HeapCell → Bool
  | .str s, .str t => s == t
  | .bigint a, .bigint b => a.1.sign == b.1.sign && a.1.words == b.1.words
  | .other p, .other q => p == q
  | _, _ => false

/-- IEEE equality of two doubles that are not NaN. -/
def f64Eq (a b : BitVec 64) : Bool := Binary64.value a.toNat == Binary64.value b.toNat

/-- Comparison of two doubles: NaN equals NaN, else IEEE equality. -/
def f64KeysEqual (a b : BitVec 64) : Bool :=
  if Binary64.isNaN a.toNat then Binary64.isNaN b.toNat
  else if Binary64.isNaN b.toNat then false
  else f64Eq a b

/-- SameValueZero comparison of two pairs. -/
def mapKeysEqual (a b : AnyPair) : Bool :=
  match a with
  | .null => b == .null
  | .undef => b == .undef
  | .bool x => match b with
    | .bool y => x == y
    | _ => false
  | .i64 x => match b with
    | .i64 y => x == y
    | .f64 y => f64AsExactI64 y == some x
    | _ => false
  | .f64 x => match b with
    | .i64 y => f64AsExactI64 x == some y
    | .f64 y => f64KeysEqual x y
    | _ => false
  | .heap none => b == .heap none
  | .heap (some c) => match b with
    | .heap (some d) => cellsEqual c d
    | _ => false

/-! ### Values of the language -/

/-- The values of the language, two of which are equal exactly when SameValueZero holds:
both zeros are one number and so are all NaNs, strings and BigInts are taken by content.
A null heap reference is kept apart from `null`. -/
inductive JsValue
  | undefined
  | null
  | nullRef
  | bool (b : Bool)
  | number (n : Binary64.Num)
  | string (units : List ℕ)
  | bigint (z : ℤ)
  | object (addr : BitVec 64)
deriving DecidableEq

/-- The value a heap cell stands for. -/
def cellValue : HeapCell → JsValue
  | .str units => .string units
  | .bigint b => .bigint b.1.toInt
  | .other addr => .object addr

/-- The value a pair stands for. -/
def jsValue : AnyPair → JsValue
  | .null => .null
  | .undef => .undefined
  | .bool b => .bool b
  | .i64 payload => .number (.finite (payload.toInt * Binary64.one))
  | .f64 bits => .number (Binary64.value bits.toNat)
  | .heap none => .nullRef
  | .heap (some c) => cellValue c

/-- Comparing cells decides equality of the values they stand for. -/
lemma cellsEqual_iff (a b : HeapCell) : cellsEqual a b = true ↔ cellValue a = cellValue b := by
  cases a with
  | str s => cases b <;> simp [cellsEqual, cellValue]
  | other p => cases b <;> simp [cellsEqual, cellValue]
  | bigint x =>
    cases b with
    | str t => simp [cellsEqual, cellValue]
    | other q => simp [cellsEqual, cellValue]
    | bigint y =>
      simp only [cellsEqual, cellValue, Bool.and_eq_true, beq_iff_eq, JsValue.bigint.injEq]
      constructor
      · rintro ⟨hs, hw⟩
        simp only [BigInt.toInt, hs, hw]
      · intro h
        have heq := BigInt.eq_of_toInt_eq x.2 y.2 h
        exact ⟨by rw [heq], by rw [heq]⟩

/-- A double denotes an integer of the range exactly when the conversion says so. -/
lemma f64AsExactI64_eq_some {bits p : BitVec 64} :
    f64AsExactI64 bits = some p ↔
      Binary64.value bits.toNat = .finite (p.toInt * Binary64.one) := by
  rw [← Binary64.toInt?_eq_some]
  unfold f64AsExactI64
  have hlo : -2 ^ 63 ≤ p.toInt := by simpa using BitVec.le_toInt p
  have hhi : p.toInt < 2 ^ 63 := by simpa using BitVec.toInt_lt (x := p)
  cases hz : Binary64.toInt? bits.toNat with
  | none => simp
  | some z =>
    simp only [Option.some.injEq]
    constructor
    · intro h
      split_ifs at h with hr
      rw [← Option.some_inj.mp h, BitVec.toInt_ofInt_eq_self (by norm_num) (by simpa using hr.1)
        (by simpa using hr.2)]
    · rintro rfl
      rw [if_pos ⟨hlo, hhi⟩, BitVec.ofInt_toInt]

/-- The comparison decides SameValueZero. -/
theorem mapKeysEqual_iff (a b : AnyPair) : mapKeysEqual a b = true ↔ jsValue a = jsValue b := by
  have hcell : ∀ c : HeapCell, cellValue c ≠ .null ∧ cellValue c ≠ .undefined ∧
      cellValue c ≠ .nullRef ∧ (∀ x, cellValue c ≠ .bool x) ∧ (∀ n, cellValue c ≠ .number n) := by
    intro c
    cases c <;> simp [cellValue]
  cases a with
  | null => cases b with
    | heap p => cases p <;> simp [mapKeysEqual, jsValue, (hcell _).1.symm]
    | _ => simp [mapKeysEqual, jsValue]
  | undef => cases b with
    | heap p => cases p <;> simp [mapKeysEqual, jsValue, (hcell _).2.1.symm]
    | _ => simp [mapKeysEqual, jsValue]
  | bool x => cases b with
    | heap p => cases p <;> simp [mapKeysEqual, jsValue, ((hcell _).2.2.2.1 _).symm]
    | _ => simp [mapKeysEqual, jsValue]
  | i64 x => cases b with
    | heap p => cases p <;> simp [mapKeysEqual, jsValue, ((hcell _).2.2.2.2 _).symm]
    | i64 y =>
      simp only [mapKeysEqual, jsValue, beq_iff_eq, JsValue.number.injEq,
        Binary64.Num.finite.injEq,
        mul_left_inj' Binary64.one_ne_zero, BitVec.toInt_inj]
    | f64 y =>
      rw [mapKeysEqual, beq_iff_eq, f64AsExactI64_eq_some, jsValue, jsValue,
        JsValue.number.injEq, eq_comm]
    | _ => simp only [mapKeysEqual, jsValue, Bool.false_eq_true, reduceCtorEq]
  | f64 x => cases b with
    | heap p => cases p <;> simp [mapKeysEqual, jsValue, ((hcell _).2.2.2.2 _).symm]
    | i64 y =>
      rw [mapKeysEqual, beq_iff_eq, f64AsExactI64_eq_some, jsValue, jsValue,
        JsValue.number.injEq]
    | f64 y =>
      simp only [mapKeysEqual, f64KeysEqual, jsValue, f64Eq, JsValue.number.injEq]
      by_cases hx : Binary64.isNaN x.toNat = true
      · rw [if_pos hx, Binary64.isNaN_iff, (Binary64.isNaN_iff _).mp hx, eq_comm]
      · rw [if_neg hx]
        by_cases hy : Binary64.isNaN y.toNat = true
        · rw [if_pos hy, (Binary64.isNaN_iff _).mp hy]
          simpa [Binary64.isNaN_iff] using hx
        · rw [if_neg hy, beq_iff_eq]
    | _ => simp only [mapKeysEqual, jsValue, Bool.false_eq_true, reduceCtorEq]
  | heap p => cases p with
    | none => cases b with
      | heap q => cases q <;> simp [mapKeysEqual, jsValue, (hcell _).2.2.1.symm]
      | _ => simp [mapKeysEqual, jsValue]
    | some c => cases b with
      | heap q => cases q with
        | none => simp [mapKeysEqual, jsValue, (hcell _).2.2.1]
        | some d => simp only [mapKeysEqual, jsValue, cellsEqual_iff]
      | null => simp [mapKeysEqual, jsValue, (hcell _).1]
      | undef => simp [mapKeysEqual, jsValue, (hcell _).2.1]
      | bool x => simp [mapKeysEqual, jsValue, (hcell _).2.2.2.1]
      | i64 x => simp [mapKeysEqual, jsValue, (hcell _).2.2.2.2]
      | f64 x => simp [mapKeysEqual, jsValue, (hcell _).2.2.2.2]

/-- Cells that stand for one value hash alike. -/
lemma hashCell_congr {a b : HeapCell} (h : cellValue a = cellValue b) : hashCell a = hashCell b := by
  cases a <;> cases b <;> simp_all [cellValue]
  rename_i x y
  have heq := BigInt.eq_of_toInt_eq x.2 y.2 h
  simp only [hashCell, heq]

/-- An integer and a double that denote one number hash alike. -/
lemma hashPair_i64_f64 {p bits : BitVec 64}
    (h : Binary64.value bits.toNat = .finite (p.toInt * Binary64.one)) :
    hashPair (.f64 bits) = hashPair (.i64 p) := by
  have hnan : ¬ Binary64.isNaN bits.toNat = true := by
    rw [Binary64.isNaN_iff, h]
    simp
  simp only [hashPair, if_neg hnan, f64AsExactI64_eq_some.mpr h]

/-- Two doubles that denote one number hash alike. -/
lemma hashPair_f64_f64 {x y : BitVec 64}
    (h : Binary64.value x.toNat = Binary64.value y.toNat) :
    hashPair (.f64 x) = hashPair (.f64 y) := by
  simp only [hashPair]
  by_cases hx : Binary64.isNaN x.toNat = true
  · have hy : Binary64.isNaN y.toNat = true := by
      rw [Binary64.isNaN_iff] at hx ⊢
      rw [← h, hx]
    rw [if_pos hx, if_pos hy]
  · have hy : ¬ Binary64.isNaN y.toNat = true := by
      rw [Binary64.isNaN_iff] at hx ⊢
      rwa [← h]
    rw [if_neg hx, if_neg hy]
    have hsame : f64AsExactI64 x = f64AsExactI64 y := by
      simp only [f64AsExactI64, Binary64.toInt?, h]
    rw [← hsame]
    cases hi : f64AsExactI64 x with
    | some i => rfl
    | none =>
      -- neither NaN nor an integer, so not zero: one number has one pattern
      have hzero : Binary64.value x.toNat ≠ .finite 0 := by
        intro hz
        have hsome : f64AsExactI64 x = some 0 := by
          rw [f64AsExactI64_eq_some, hz]
          simp
        simp [hi] at hsome
      have hnan : Binary64.value x.toNat ≠ .nan := fun hv => hx ((Binary64.isNaN_iff _).mpr hv)
      have hbits : x.toNat = y.toNat := Binary64.eq_of_value_eq x.isLt y.isLt h hnan hzero
      rw [BitVec.eq_of_toNat_eq hbits]

/-- Keys that stand for one value hash alike. -/
theorem mapHashKey_congr {a b : AnyPair} (h : jsValue a = jsValue b) :
    mapHashKey a = mapHashKey b := by
  have hpair : hashPair a = hashPair b := by
    cases a with
    | i64 x => cases b with
      | f64 y =>
        exact (hashPair_i64_f64 (by simpa [jsValue] using h.symm)).symm
      | i64 y =>
        have hxy := (mapKeysEqual_iff (.i64 x) (.i64 y)).mpr h
        simp only [mapKeysEqual, beq_iff_eq] at hxy
        rw [hxy]
      | heap p => cases p with
        | none => simp [jsValue] at h
        | some c => cases c <;> simp [jsValue, cellValue] at h
      | _ => simp [jsValue] at h
    | f64 x => cases b with
      | f64 y => exact hashPair_f64_f64 (by simpa [jsValue] using h)
      | i64 y => exact hashPair_i64_f64 (by simpa [jsValue] using h)
      | heap p => cases p with
        | none => simp [jsValue] at h
        | some c => cases c <;> simp [jsValue, cellValue] at h
      | _ => simp [jsValue] at h
    | heap p => cases p with
      | none => cases b with
        | heap q => cases q with
          | none => rfl
          | some c => cases c <;> simp [jsValue, cellValue] at h
        | _ => simp [jsValue] at h
      | some c => cases b with
        | heap q => cases q with
          | none => cases c <;> simp [jsValue, cellValue] at h
          | some d => exact hashCell_congr (by simpa [jsValue] using h)
        | _ => cases c <;> simp [jsValue, cellValue] at h
    | _ => cases b with
      | heap q => cases q with
        | none => simp [jsValue] at h
        | some d => cases d <;> simp [jsValue, cellValue] at h
      | _ => simp_all [jsValue]
  simp only [mapHashKey, hpair]

/-! ### NaN boxes -/

/-- A NaN box by what it encodes; the bit ranges of the kinds are disjoint. -/
inductive AnyValue
  | int32 (n : BitVec 32)
  | double (bits : BitVec 64)
  | bool (b : Bool)
  | null
  | undefined
  | cell (c : HeapCell)
deriving DecidableEq

/-- The pattern of `f64::NAN`. -/
def canonicalNaN : BitVec 64 := 0x7ff8000000000000#64

/-- Whether a word is in the range of encoded doubles, from its top 16 bits. -/
def isDouble (v : BitVec 64) : Bool :=
  let top16 := v.toNat / 2 ^ 48
  decide (2 ≤ top16) && top16 != 0xfffe

/-- Box a double; a NaN whose encoding would leave the range of doubles is replaced by the
canonical one. -/
def boxDouble (bits : BitVec 64) : AnyValue :=
  if isDouble (bits + 0x0007000000000000#64) then .double bits else .double canonicalNaN

/-- Box an integer: as an `i32` where it fits, else as a double. -/
def boxI64 (payload : BitVec 64) : AnyValue :=
  if -2 ^ 31 ≤ payload.toInt ∧ payload.toInt < 2 ^ 31 then .int32 (payload.truncate 32)
  else boxDouble (BitVec.ofNat 64 (Binary64.ofInt payload.toInt))

/-- Box a pair. -/
def boxFromPair : AnyPair → AnyValue
  | .null => .null
  | .bool b => .bool b
  | .i64 payload => boxI64 payload
  | .f64 bits => boxDouble bits
  | .heap none => .null
  | .heap (some c) => .cell c
  | .undef => .undefined

/-- The pair of a stored box. -/
def storedPair : AnyValue → AnyPair
  | .int32 n => .i64 (n.signExtend 64)
  | .double bits => .f64 bits
  | .cell c => .heap (some c)
  | .null => .null
  | .undefined => .undef
  | .bool b => .bool b

/-- A pair that its box keeps: it stands for a value of the language.  An integer that no
double represents and a null heap reference are the pairs that do not. -/
def IsValue (k : AnyPair) : Prop := mapKeysEqual (storedPair (boxFromPair k)) k = true

instance (k : AnyPair) : Decidable (IsValue k) := inferInstanceAs (Decidable (_ = true))

/-- The stored form of a value stands for the same value. -/
lemma IsValue.jsValue_stored {k : AnyPair} (h : IsValue k) :
    jsValue (storedPair (boxFromPair k)) = jsValue k := (mapKeysEqual_iff _ _).mp h

/-- Only NaNs have encodings outside the range of doubles. -/
lemma isNaN_of_not_isDouble {bits : BitVec 64}
    (h : isDouble (bits + 0x0007000000000000#64) = false) : Binary64.isNaN bits.toNat = true := by
  have hsum : (bits + 0x0007000000000000#64).toNat = (bits.toNat + 7 * 2 ^ 48) % 2 ^ 64 :=
    BitVec.toNat_add _ _
  simp only [isDouble, hsum, Bool.and_eq_false_iff, decide_eq_false_iff_not, bne_eq_false_iff_eq,
    not_le] at h
  have hlt := bits.isLt
  rw [Binary64.isNaN, Bool.and_eq_true, beq_iff_eq, bne_iff_ne, Binary64.biasedExp,
    Binary64.fraction]
  omega

/-- The canonical NaN is one. -/
lemma value_canonicalNaN : Binary64.value canonicalNaN.toNat = .nan := by
  rw [← Binary64.isNaN_iff]
  decide

/-- Boxing a double keeps the number it denotes. -/
lemma value_boxDouble (bits : BitVec 64) :
    jsValue (storedPair (boxDouble bits)) = jsValue (.f64 bits) := by
  unfold boxDouble
  split_ifs with h
  · rfl
  · have hnan := isNaN_of_not_isDouble (Bool.eq_false_iff.mpr h)
    rw [Binary64.isNaN_iff] at hnan
    simp only [storedPair, jsValue, value_canonicalNaN, hnan]

/-- Every double is a value. -/
lemma isValue_f64 (bits : BitVec 64) : IsValue (.f64 bits) :=
  (mapKeysEqual_iff _ _).mpr (value_boxDouble bits)

/-- Every integer that a double represents exactly is a value. -/
lemma isValue_i64 {payload : BitVec 64} (h : payload.toInt.natAbs ≤ 2 ^ 53) :
    IsValue (.i64 payload) := by
  refine (mapKeysEqual_iff _ _).mpr ?_
  simp only [boxFromPair, boxI64]
  split_ifs with hr
  · have hsmall : ((payload.truncate 32).signExtend 64).toInt = payload.toInt := by
      have h32 : (payload.truncate 32).toInt = payload.toInt := by
        have hmod : (BitVec.truncate 32 payload) = BitVec.ofInt 32 payload.toInt := by
          apply BitVec.eq_of_toNat_eq
          simp only [BitVec.truncate_eq_setWidth, BitVec.toNat_setWidth, BitVec.toNat_ofInt]
          have hlt := payload.isLt
          rw [BitVec.toInt_eq_toNat_cond]
          split_ifs <;> omega
        rw [hmod]
        exact BitVec.toInt_ofInt_eq_self (by norm_num) (by simpa using hr.1) (by simpa using hr.2)
      rw [BitVec.toInt_signExtend_of_le (by norm_num), h32]
    simp only [storedPair, jsValue, hsmall]
  · rw [value_boxDouble]
    have hbits : Binary64.ofInt payload.toInt < 2 ^ 64 := Binary64.ofInt_lt h
    simp only [jsValue, BitVec.toNat_ofNat, Nat.mod_eq_of_lt hbits, Binary64.value_ofInt h]

/-- Every pair but a large integer and a null reference is a value. -/
lemma isValue_of_not_number {k : AnyPair} (hi : ∀ p, k ≠ .i64 p) (hf : ∀ b, k ≠ .f64 b)
    (hn : k ≠ .heap none) : IsValue k := by
  refine (mapKeysEqual_iff _ _).mpr ?_
  cases k with
  | i64 p => exact absurd rfl (hi p)
  | f64 b => exact absurd rfl (hf b)
  | heap p => cases p with
    | none => exact absurd rfl hn
    | some c => rfl
  | _ => rfl

end Torajs.Collections
