import Mathlib.Data.List.DropRight
import ToraJs.Lib.NumericText
import ToraJs.Str.Uri

/-!
# Strings as numbers

`to_number.rs` reads a one-byte payload byte by byte; a two-byte payload is trimmed by code units
and narrowed to the same reader.  Most forms are left to the parsers of the library, which follow
their documentation here: `u64::from_str_radix` takes a plus sign and refuses what does not fit,
`f64::from_str` takes the decimal forms and the words for infinity and NaN in any case.

A byte is the number it is.
-/

namespace Torajs.ToNumber

open Ieee754 NumericText

/-! ### Whitespace -/

/-- `is_trim_ws`. -/
def isTrimWs (c : ℕ) : Bool := (0x09 ≤ c && c ≤ 0x0D) || c = 0x20 || c = 0xA0

/-- `is_trim_ws_u16`. -/
def isTrimWsU16 (u : ℕ) : Bool :=
  (0x09 ≤ u && u ≤ 0x0D) || u = 0x20 || u = 0xA0 || u = 0x1680 || (0x2000 ≤ u && u ≤ 0x200A) ||
    u = 0x2028 || u = 0x2029 || u = 0x202F || u = 0x205F || u = 0x3000 || u = 0xFEFF

/-- The two loops that trim. -/
def trim (ws : ℕ → Bool) (s : List ℕ) : List ℕ := (s.dropWhile ws).rdropWhile ws

/-! ### The parsers of the library -/

/-- `as f64`, of an integer. -/
def asF64 (n : ℕ) : F64 := F64.ofInt n

/-- A digit more in `u64::from_str_radix`. -/
def radixStep (radix acc c : ℕ) : Option ℕ :=
  (digitIn radix c).bind fun d =>
    if acc * radix + d < 2 ^ 64 then some (acc * radix + d) else none

/-- `u64::from_str_radix`. -/
def fromStrRadix (radix : ℕ) (src : List ℕ) : Option ℕ :=
  let digits := if src.head? = some 0x2B then src.tail else src
  if digits = [] then none else digits.foldlM (radixStep radix) 0

/-- `to_ascii_lowercase`. -/
def toAsciiLowercase (c : ℕ) : ℕ := if 0x41 ≤ c ∧ c ≤ 0x5A then c + 32 else c

/-- `Infinity`. -/
def infinityText : List ℕ := [0x49, 0x6E, 0x66, 0x69, 0x6E, 0x69, 0x74, 0x79]

/-- `NaN`. -/
def nanText : List ℕ := [0x4E, 0x61, 0x4E]

/-- `f64::from_str`. -/
def fromStr (s : List ℕ) : Option F64 :=
  let t := readSign s
  let word := t.2.map toAsciiLowercase
  if word = [0x69, 0x6E, 0x66] ∨ word = infinityText.map toAsciiLowercase then some (.inf t.1)
  else if word = nanText.map toAsciiLowercase then some .nan
  else (readNumber t.2).map fun r => decimal t.1 r.1 r.2

/-- `is_ascii_alphabetic`. -/
def isAsciiAlphabetic (c : ℕ) : Bool := (0x41 ≤ c && c ≤ 0x5A) || (0x61 ≤ c && c ≤ 0x7A)

/-- `core::str::from_utf8`, of bytes. -/
def isUtf8 (bytes : List ℕ) : Bool := (Uri.fromUtf8From bytes.length bytes).isSome

/-! ### The reader -/

/-- The loop of `decimal_integer`. -/
def decimalDigits : ℕ → List ℕ → Option ℕ
  | acc, [] => some acc
  | acc, b :: digits =>
    let d := (b + 256 - 0x30) % 256
    if 9 < d then none else decimalDigits (acc * 10 + d) digits

/-- `decimal_integer`. -/
def decimalInteger (bytes : List ℕ) : Option F64 :=
  let t := readSign bytes
  if t.2 = [] ∨ 15 < t.2.length then none
  else (decimalDigits 0 t.2).map fun acc => if t.1 then (asF64 acc).neg else asF64 acc

/-- The radix of a prefix letter. -/
def radixOf (c : ℕ) : Option ℕ :=
  if c = 0x78 ∨ c = 0x58 then some 16
  else if c = 0x62 ∨ c = 0x42 then some 2
  else if c = 0x6F ∨ c = 0x4F then some 8
  else none

/-- The radix of a prefix, and the digits behind it. -/
def radixPrefixed : List ℕ → Option (ℕ × List ℕ)
  | a :: c :: d :: ds => if a = 0x30 then (radixOf c).map fun r => (r, d :: ds) else none
  | _ => none

/-- What is left of `parse_number` behind the trimming of a string that is not empty. -/
def parseBody (slice : List ℕ) : F64 :=
  if slice = infinityText ∨ slice = 0x2B :: infinityText then .inf false
  else if slice = 0x2D :: infinityText then .inf true
  else if slice = nanText then .nan
  else
    match radixPrefixed slice with
    | some (r, digits) =>
      if isUtf8 digits then ((fromStrRadix r digits).map asF64).getD .nan else .nan
    | none =>
      if slice.any (fun c => isAsciiAlphabetic c && c ≠ 0x65 && c ≠ 0x45) then .nan
      else if isUtf8 slice then (fromStr slice).getD .nan
      else .nan

/-- `parse_number`, of bytes as numbers. -/
def parseNumberOf (bytes : List ℕ) : F64 :=
  match decimalInteger bytes with
  | some v => v
  | none =>
    let slice := trim isTrimWs bytes
    if slice = [] then asF64 0 else parseBody slice

/-- `parse_number`. -/
def parseNumber (bytes : List UInt8) : F64 := parseNumberOf (bytes.map UInt8.toNat)

/-- The code units of a two-byte payload; an odd byte at the end is none. -/
def unitsOf : List UInt8 → List ℕ
  | lo :: hi :: rest => (lo.toNat + 256 * hi.toNat) :: unitsOf rest
  | _ => []

/-- `parse_number_utf16`. -/
def parseNumberUtf16 (payload : List UInt8) : F64 :=
  let body := trim isTrimWsU16 (unitsOf payload)
  if body.any (fun u => 0x7F < u) then .nan else parseNumber (body.map UInt8.ofNat)

/-! ### What a string stands for -/

/-- The code points of `WhiteSpace` below `2 ^ 16`. -/
def IsWhiteSpace (u : ℕ) : Prop :=
  u = 0x09 ∨ u = 0x0B ∨ u = 0x0C ∨ u = 0xFEFF ∨ u = 0x20 ∨ u = 0xA0 ∨ u = 0x1680 ∨
    (0x2000 ≤ u ∧ u ≤ 0x200A) ∨ u = 0x202F ∨ u = 0x205F ∨ u = 0x3000

/-- The code points of `LineTerminator`. -/
def IsLineTerminator (u : ℕ) : Prop := u = 0x0A ∨ u = 0x0D ∨ u = 0x2028 ∨ u = 0x2029

/-- The characters of `StrWhiteSpace`. -/
def IsBlank (u : ℕ) : Prop := IsWhiteSpace u ∨ IsLineTerminator u

/-- `StrUnsignedDecimalLiteral` behind a sign, with its value. -/
inductive UnsignedDecimal (s : Bool) : List ℕ → F64 → Prop
  | infinity : UnsignedDecimal s infinityText (.inf s)
  | number {t : List ℕ} {m : ℕ} {e : ℤ} : Number t m e → UnsignedDecimal s t (decimal s m e)

/-- `StrNumericLiteral`, with its value. -/
inductive NumericLiteral : List ℕ → F64 → Prop
  | bare {t : List ℕ} {v : F64} : UnsignedDecimal false t v → NumericLiteral t v
  | plus {t : List ℕ} {v : F64} : UnsignedDecimal false t v → NumericLiteral (0x2B :: t) v
  | minus {t : List ℕ} {v : F64} : UnsignedDecimal true t v → NumericLiteral (0x2D :: t) v
  | radix {c r : ℕ} {ds : List ℕ} : radixOf c = some r → IsDigits r ds →
      NumericLiteral (0x30 :: c :: ds) (F64.ofInt (digitsValue r ds))

/-- A text between blanks. -/
def Between (units body : List ℕ) : Prop :=
  ∃ pre post, units = pre ++ body ++ post ∧ (∀ u ∈ pre, IsBlank u) ∧ ∀ u ∈ post, IsBlank u

/-- `StringNumericLiteral`, with its value. -/
def StringNumeric (units : List ℕ) (v : F64) : Prop :=
  ∃ body, Between units body ∧ (body = [] ∧ v = F64.ofInt 0 ∨ NumericLiteral body v)

/-- The number a string stands for: NaN, when it is no literal. -/
def StringToNumber (units : List ℕ) (v : F64) : Prop :=
  StringNumeric units v ∨ (∀ w, ¬ StringNumeric units w) ∧ v = .nan

/-- What the library takes or refuses against the grammar behind a prefix: a plus sign before
digits that fit in 64 bits, and digits that do not. -/
def Overreaches (body : List ℕ) : Prop :=
  ∃ c r ds, body = 0x30 :: c :: ds ∧ radixOf c = some r ∧
    ((∃ digits, ds = 0x2B :: digits ∧ IsDigits r digits ∧ digitsValue r digits < 2 ^ 64) ∨
      (IsDigits r ds ∧ 2 ^ 64 ≤ digitsValue r ds))

/-- A string whose text is such a one. -/
def Misread (units : List ℕ) : Prop := ∃ body, Between units body ∧ Overreaches body

end Torajs.ToNumber
