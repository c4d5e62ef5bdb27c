import ToraJs.Lib.Unicode

/-!
# URI encoding and decoding

The two kernels of `uri.rs` over the code units of a string, either encoding, with a flag for the
component forms: the encoder assembles code points from surrogate pairs, the decoder reads runs of
escaped octets and lets the UTF-8 check of the library judge them.

The URIErrors are the kernels' own; the length limit of a built string is checked behind them.
-/

namespace Torajs.Uri

open Unicode

/-! ### The sets -/

/-- `is_unescaped_component`. -/
def isUnescapedComponent (b : UInt8) : Bool :=
  (0x30 ≤ b && b ≤ 0x39) || (0x41 ≤ b && b ≤ 0x5A) || (0x61 ≤ b && b ≤ 0x7A) || b == 0x2D ||
    b == 0x5F || b == 0x2E || b == 0x21 || b == 0x7E || b == 0x2A || b == 0x27 || b == 0x28 ||
    b == 0x29

/-- `is_reserved_or_hash`. -/
def isReservedOrHash (b : UInt8) : Bool :=
  b == 0x3B || b == 0x2F || b == 0x3F || b == 0x3A || b == 0x40 || b == 0x26 || b == 0x3D ||
    b == 0x2B || b == 0x24 || b == 0x2C || b == 0x23

/-- `HEX_UPPER`. -/
def hexUpper (n : ℕ) : UInt8 := if n < 10 then UInt8.ofNat (0x30 + n) else UInt8.ofNat (0x37 + n)

/-- `hex_val`. -/
def hexVal (unit : UInt16) : Option ℕ :=
  let u := unit.toNat
  if 0x30 ≤ u ∧ u ≤ 0x39 then some (u - 0x30)
  else if 0x41 ≤ u ∧ u ≤ 0x46 then some (u - 0x37)
  else if 0x61 ≤ u ∧ u ≤ 0x66 then some (u - 0x57)
  else none

/-! ### Characters -/

/-- A code point that is a character. -/
def IsScalar (cp : ℕ) : Prop := cp ≤ 0x10FFFF ∧ ¬ IsHigh cp ∧ ¬ IsLow cp

instance (cp : ℕ) : Decidable (IsScalar cp) := inferInstanceAs (Decidable (_ ∧ _ ∧ _))

/-- `char::from_u32` and `encode_utf8`. -/
def encodeUtf8 (cp : ℕ) : Option (List UInt8) :=
  if IsScalar cp then some ((enc cp).map UInt8.ofNat) else none

/-- The loop of `core::str::from_utf8`, at most as often as there are bytes: the characters. -/
def fromUtf8From : ℕ → List ℕ → Option (List ℕ)
  | _, [] => some []
  | 0, _ :: _ => none
  | n + 1, b :: bytes =>
    (readPoint (b :: bytes)).bind fun r =>
      if IsScalar r.1 then (fromUtf8From n r.2).map (r.1 :: ·) else none

/-- `core::str::from_utf8`. -/
def fromUtf8 (bytes : List UInt8) : Option (List ℕ) :=
  fromUtf8From bytes.length (bytes.map UInt8.toNat)

/-! ### Encoding -/

/-- The escapes of a code point. -/
def escape (cp : ℕ) : Option (List UInt8) :=
  (encodeUtf8 cp).map fun enc =>
    enc.flatMap fun b => [0x25, hexUpper (b.toNat >>> 4), hexUpper (b.toNat &&& 0xF)]

/-- A code unit that the encoder copies. -/
def isCopied (component : Bool) (unit : ℕ) : Bool :=
  decide (unit < 0x80) && (isUnescapedComponent (UInt8.ofNat unit) ||
    (!component && isReservedOrHash (UInt8.ofNat unit)))

/-- `encode_units`: the Latin-1 output, or the URIError of a lone surrogate. -/
def encodeUnits (component : Bool) : List UInt16 → Option (List UInt8)
  | [] => some []
  | u :: rest =>
    if isCopied component u.toNat then
      (encodeUnits component rest).map (UInt8.ofNat u.toNat :: ·)
    else if 0xD800 ≤ u.toNat ∧ u.toNat ≤ 0xDBFF then
      match rest with
      | [] => none
      | lo :: rest =>
        if ¬ (0xDC00 ≤ lo.toNat ∧ lo.toNat ≤ 0xDFFF) then none
        else
          (escape (0x10000 + (u.toNat - 0xD800) <<< 10 + (lo.toNat - 0xDC00))).bind fun out =>
            (encodeUnits component rest).map (out ++ ·)
    else if 0xDC00 ≤ u.toNat ∧ u.toNat ≤ 0xDFFF then none
    else
      (escape u.toNat).bind fun out => (encodeUnits component rest).map (out ++ ·)

/-! ### Decoding -/

/-- A percent sign with two hex digits, and what follows it. -/
def octetAt : List UInt16 → Option (UInt8 × List UInt16)
  | p :: a :: b :: rest =>
    if p.toNat = 0x25 then
      (hexVal a).bind fun h1 => (hexVal b).map fun h2 => (UInt8.ofNat (h1 <<< 4 ||| h2), rest)
    else none
  | _ => none

/-- The loop over the continuation octets. -/
def continuations : ℕ → List UInt16 → Option (List UInt8 × List UInt16)
  | 0, t => some ([], t)
  | k + 1, t =>
    (octetAt t).bind fun o =>
      if o.1 &&& 0xC0 != 0x80 then none
      else (continuations k o.2).map fun r => (o.1 :: r.1, r.2)

/-- `u8::leading_ones`. -/
def leadingOnes (b : UInt8) : ℕ :=
  if b < 0x80 then 0
  else if b < 0xC0 then 1
  else if b < 0xE0 then 2
  else if b < 0xF0 then 3
  else if b < 0xF8 then 4
  else if b < 0xFC then 5
  else if b < 0xFE then 6
  else if b < 0xFF then 7
  else 8

/-- The code units the decoder writes for a code point. -/
def writeUnits (cp : ℕ) : List UInt16 :=
  if cp ≤ 0xFFFF then [UInt16.ofNat cp]
  else
    let v := cp - 0x10000
    [UInt16.ofNat (0xD800 + v >>> 10), UInt16.ofNat (0xDC00 + (v &&& 0x3FF))]

/-- The decoder at a percent sign: what it writes, and what follows the run of escapes. -/
def decodeEscape (component : Bool) (t : List UInt16) : Option (List UInt16 × List UInt16) :=
  (octetAt t).bind fun o =>
    if o.1 < 0x80 then
      if !component && isReservedOrHash o.1 then some (t.take 3, o.2)
      else some ([o.1.toUInt16], o.2)
    else
      let n := leadingOnes o.1
      if ¬ (2 ≤ n ∧ n ≤ 4) then none
      else
        (continuations (n - 1) o.2).bind fun r =>
          match fromUtf8 (o.1 :: r.1) with
          | some [c] => some (writeUnits c, r.2)
          | _ => none

/-- The loop of `decode_units`, at most as often as there are units. -/
def decodeFrom (component : Bool) : ℕ → List UInt16 → Option (List UInt16)
  | _, [] => some []
  | 0, _ :: _ => none
  | n + 1, u :: rest =>
    if u.toNat ≠ 0x25 then (decodeFrom component n rest).map (u :: ·)
    else
      (decodeEscape component (u :: rest)).bind fun r =>
        (decodeFrom component n r.2).map (r.1 ++ ·)

/-- `decode_units`: the output, or the URIError of a malformed escape. -/
def decodeUnits (component : Bool) (t : List UInt16) : Option (List UInt16) :=
  decodeFrom component t.length t

/-- The code units of Latin-1 bytes. -/
def latin1Units (bytes : List UInt8) : List UInt16 := bytes.map UInt8.toUInt16

/-! ### Escapes -/

/-- Code units that spell octets, each as a percent sign with two hex digits. -/
inductive Escaped : List UInt16 → List ℕ → Prop
  | nil : Escaped [] []
  | cons {p a b : UInt16} {h1 h2 : ℕ} {w : List UInt16} {bs : List ℕ} : p.toNat = 0x25 →
      hexVal a = some h1 → hexVal b = some h2 → Escaped w bs →
      Escaped (p :: a :: b :: w) ((h1 * 16 + h2) :: bs)

/-- A run of escapes that spells the UTF-8 bytes of a character. -/
def EscapedChar (w : List UInt16) (cp : ℕ) : Prop := IsScalar cp ∧ Escaped w (enc cp)

/-- The characters whose escapes are kept. -/
def Kept (component : Bool) (cp : ℕ) : Prop :=
  component = false ∧ cp < 0x80 ∧ isReservedOrHash (UInt8.ofNat cp) = true

/-- A string read from the left as units other than the percent sign and escaped characters, with
what it stands for. -/
inductive Decodes (component : Bool) : List UInt16 → List UInt16 → Prop
  | nil : Decodes component [] []
  | unit {u : UInt16} {t out : List UInt16} : u.toNat ≠ 0x25 → Decodes component t out →
      Decodes component (u :: t) (u :: out)
  | escaped {w t out : List UInt16} {cp : ℕ} : EscapedChar w cp → ¬ Kept component cp →
      Decodes component t out → Decodes component (w ++ t) (writeUnits cp ++ out)
  | kept {w t out : List UInt16} {cp : ℕ} : EscapedChar w cp → Kept component cp →
      Decodes component t out → Decodes component (w ++ t) (w ++ out)

end Torajs.Uri
