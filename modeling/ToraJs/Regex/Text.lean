import Mathlib.Data.List.Basic
import Mathlib.Data.Int.Basic

/-!
# Text the matchers read

The byte-level helpers of the regex crate: flag bits, UTF-8 lengths and decoding, line
terminators and word bytes.  A haystack is the list of its bytes.
-/

namespace Torajs.Regex

/-! ### Flags -/

/-- `RE_FLAG_I`. -/
def RE_FLAG_I : UInt8 := 0x01

/-- `RE_FLAG_M`. -/
def RE_FLAG_M : UInt8 := 0x04

/-- `RE_FLAG_S`. -/
def RE_FLAG_S : UInt8 := 0x08

/-- `RE_FLAG_U`. -/
def RE_FLAG_U : UInt8 := 0x10

/-- `RE_FLAG_V`. -/
def RE_FLAG_V : UInt8 := 0x40

/-- A flag word has a bit. -/
def hasFlag (flags bit : UInt8) : Bool := flags &&& bit != 0

/-- `unicode_mode`. -/
def unicodeMode (flags : UInt8) : Bool := hasFlag flags (RE_FLAG_U ||| RE_FLAG_V)

/-! ### Bytes -/

/-- The byte at `pos`.  Every use is guarded by `pos < s.length`, where the source indexes. -/
def byteAt (s : List UInt8) (pos : ℕ) : UInt8 := s.getD pos 0

/-- `u8::is_ascii_uppercase`. -/
def isAsciiUppercase (b : UInt8) : Bool := 0x41 ≤ b && b ≤ 0x5A

/-- `u8::is_ascii_lowercase`. -/
def isAsciiLowercase (b : UInt8) : Bool := 0x61 ≤ b && b ≤ 0x7A

/-- `u8::is_ascii_digit`. -/
def isAsciiDigit (b : UInt8) : Bool := 0x30 ≤ b && b ≤ 0x39

/-- `is_word_byte`. -/
def isWordByte (b : UInt8) : Bool :=
  isAsciiUppercase b || isAsciiLowercase b || isAsciiDigit b || b == 0x5F

/-- `char_eq`: byte equality, up to ASCII case under the `i` bit. -/
def charEq (a b flags : UInt8) : Bool :=
  a == b || (hasFlag flags RE_FLAG_I &&
    ((isAsciiUppercase a && b == a + 32) || (isAsciiLowercase a && b == a - 32)))

/-- `ascii_case_pair`. -/
def asciiCasePair (b : UInt8) : Option UInt8 :=
  if isAsciiUppercase b then some (b ||| 0x20)
  else if isAsciiLowercase b then some (b &&& 0xDF)
  else none

/-! ### UTF-8 -/

/-- `utf8_len_for`: the length a lead byte declares, `1` for a byte that leads nothing. -/
def utf8LenFor (b : UInt8) : ℕ :=
  if b &&& 0x80 == 0x00 then 1
  else if b &&& 0xE0 == 0xC0 then 2
  else if b &&& 0xF0 == 0xE0 then 3
  else if b &&& 0xF8 == 0xF0 then 4
  else 1

/-- `utf8_decode_cp` at `pos`: the code point there and its length. -/
def utf8DecodeCp (s : List UInt8) (pos : ℕ) : ℕ × ℕ :=
  let b := byteAt s pos
  let cont (i : ℕ) : ℕ := (byteAt s (pos + i) &&& 0x3F).toNat
  if b &&& 0x80 == 0 then (b.toNat, 1)
  else if b &&& 0xE0 == 0xC0 then ((b &&& 0x1F).toNat <<< 6 ||| cont 1, 2)
  else if b &&& 0xF0 == 0xE0 then
    ((b &&& 0x0F).toNat <<< 12 ||| cont 1 <<< 6 ||| cont 2, 3)
  else if b &&& 0xF8 == 0xF0 then
    ((b &&& 0x07).toNat <<< 18 ||| cont 1 <<< 12 ||| cont 2 <<< 6 ||| cont 3, 4)
  else (b.toNat, 1)

/-! ### Line terminators -/

namespace LineTerminator

/-- `line_terminator::at`: a line terminator begins at byte `pos`. -/
def atPos (s : List UInt8) (pos : ℕ) : Bool :=
  match s[pos]? with
  | some 0x0A => true
  | some 0x0D => true
  | some 0xE2 => s[pos + 1]? == some 0x80 && (s[pos + 2]? == some 0xA8 || s[pos + 2]? == some 0xA9)
  | _ => false

/-- `line_terminator::before`: a line terminator ends at byte `pos`. -/
def before (s : List UInt8) (pos : ℕ) : Bool :=
  if pos = 0 then false
  else
    match byteAt s (pos - 1) with
    | 0x0A => true
    | 0x0D => true
    | 0xA8 => decide (pos ≥ 3) && byteAt s (pos - 3) == 0xE2 && byteAt s (pos - 2) == 0x80
    | 0xA9 => decide (pos ≥ 3) && byteAt s (pos - 3) == 0xE2 && byteAt s (pos - 2) == 0x80
    | _ => false

end LineTerminator

/-- The declared length of a lead byte is between one and four. -/
lemma utf8LenFor_pos (b : UInt8) : 1 ≤ utf8LenFor b := by
  unfold utf8LenFor
  split_ifs <;> omega

/-- Decoding consumes at least one byte. -/
lemma utf8DecodeCp_len_pos (s : List UInt8) (pos : ℕ) : 1 ≤ (utf8DecodeCp s pos).2 := by
  unfold utf8DecodeCp
  simp only
  split_ifs <;> simp

end Torajs.Regex
