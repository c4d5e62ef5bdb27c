import ToraJs.Json.Source
import ToraJs.Lib.Unicode

/-!
# Quoting and reading strings

`json.rs` quotes the payload of a string in two passes, one that sizes the result and one that
writes it, and `json_parse/parse_string.rs` reads a string literal in two passes as well.  A block
is made by the first pass, with its length and width, and filled by the second.

What a sequence of characters of a JSON string stands for is `JsonChars`.
-/

namespace Torajs.Json

open Unicode

/-! ### Blocks -/

/-- `STR_MAX_LEN`. -/
def strMaxLen : ℕ := 2 ^ 31 - 1

/-- The bytes of code units written one by one. -/
def writtenBytes (latin1 : Bool) (units : List ℕ) : List UInt8 :=
  if latin1 then units.map UInt8.ofNat
  else units.flatMap fun u => [UInt8.ofNat u, UInt8.ofNat (u / 256)]

/-- The bytes a code unit takes. -/
def stride (latin1 : Bool) : ℕ := if latin1 then 1 else 2

/-! ### Quoting -/

/-- `HEX`. -/
def hexLower (n : ℕ) : ℕ := if n < 10 then 0x30 + n else 0x57 + n

/-- `surrogate_is_paired`. -/
def surrogateIsPaired (unit : ℕ → ℕ) (n i : ℕ) : Bool :=
  if 0xD800 ≤ unit i ∧ unit i ≤ 0xDBFF then
    decide (i + 1 < n ∧ 0xDC00 ≤ unit (i + 1) ∧ unit (i + 1) ≤ 0xDFFF)
  else if 0xDC00 ≤ unit i ∧ unit i ≤ 0xDFFF then
    decide (0 < i ∧ 0xD800 ≤ unit (i - 1) ∧ unit (i - 1) ≤ 0xDBFF)
  else false

/-- A surrogate that the walk over code units escapes. -/
def isLoneAt (unit : ℕ → ℕ) (n i : ℕ) : Bool :=
  decide (0xD800 ≤ unit i ∧ unit i ≤ 0xDFFF) && !surrogateIsPaired unit n i

/-- The units of the sizing pass that take two. -/
def isShort (u : ℕ) : Bool :=
  u = 0x22 || u = 0x5C || u = 0x0A || u = 0x0D || u = 0x09 || u = 0x08 || u = 0x0C

/-- One step of the sizing pass of `quote_utf16`. -/
def unitSize (unit : ℕ → ℕ) (n i : ℕ) : ℕ :=
  if isShort (unit i) then 2
  else if unit i < 0x20 then 6
  else if isLoneAt unit n i then 6
  else 1

/-- The letter of a short escape. -/
def shortEscape (u : ℕ) : Option ℕ :=
  if u = 0x22 then some 0x22
  else if u = 0x5C then some 0x5C
  else if u = 0x0A then some 0x6E
  else if u = 0x0D then some 0x72
  else if u = 0x09 then some 0x74
  else if u = 0x08 then some 0x62
  else if u = 0x0C then some 0x66
  else none

/-- A `\uXXXX` escape. -/
def hexEscape (u : ℕ) : List ℕ :=
  [0x5C, 0x75, hexLower (u >>> 12), hexLower (u >>> 8 &&& 0xF), hexLower (u >>> 4 &&& 0xF),
    hexLower (u &&& 0xF)]

/-- One step of the writing pass of `quote_utf16`. -/
def unitPiece (unit : ℕ → ℕ) (n i : ℕ) : List ℕ :=
  match shortEscape (unit i) with
  | some e => [0x5C, e]
  | none => if unit i < 0x20 ∨ isLoneAt unit n i = true then hexEscape (unit i) else [unit i]

/-- `quote_utf16`; nothing is the RangeError. -/
def quoteUtf16 (data : JsonSrc) : Option JsonSrc :=
  let n := data.len
  let outUnits := (List.range n).foldl (fun out i => out + unitSize data.unit n i) 2
  if strMaxLen < outUnits then none
  else
    some ⟨writtenBytes false
      (0x22 :: ((List.range n).flatMap fun i => unitPiece data.unit n i) ++ [0x22]), outUnits, false⟩

/-- `needs_escape`. -/
def needsEscape (s : List UInt8) : Bool :=
  s.any fun c => c.toNat < 0x20 || c.toNat = 0x22 || c.toNat = 0x5C

/-- `escaped_len`. -/
def escapedLen (s : List UInt8) : ℕ :=
  s.foldl (fun out c => out + if isShort c.toNat then 2 else if c.toNat < 0x20 then 6 else 1) 2

/-- One byte in `write_escaped`. -/
def bytePiece (c : ℕ) : List ℕ :=
  match shortEscape c with
  | some e => [0x5C, e]
  | none =>
    if c < 0x20 then [0x5C, 0x75, 0x30, 0x30, hexLower (c >>> 4), hexLower (c &&& 0xF)] else [c]

/-- `write_escaped`. -/
def writeEscaped (s : List UInt8) : List ℕ :=
  0x22 :: (s.flatMap fun c => bytePiece c.toNat) ++ [0x22]

/-- `__torajs_json_quote_str`, of a string that is there; nothing is the RangeError. -/
def quoteStr (data : JsonSrc) : Option JsonSrc :=
  if data.latin1 then
    let bytes := data.base.take data.len
    if needsEscape bytes then
      if strMaxLen < escapedLen bytes then none
      else some ⟨writtenBytes true (writeEscaped bytes), escapedLen bytes, true⟩
    else if strMaxLen < data.len + 2 then none
    else some ⟨0x22 :: bytes ++ [0x22], data.len + 2, true⟩
  else quoteUtf16 data

/-! ### Reading -/

/-- `hex_digit`. -/
def hexDigit (c : ℕ) : Option ℕ :=
  if 0x30 ≤ c ∧ c ≤ 0x39 then some (c - 0x30)
  else if 0x61 ≤ c ∧ c ≤ 0x66 then some (c - 0x61 + 10)
  else if 0x41 ≤ c ∧ c ≤ 0x46 then some (c - 0x41 + 10)
  else none

/-- `u_escape_unit`, with the backslash at `i`. -/
def uEscapeUnit (data : JsonSrc) (i : ℕ) : ℕ :=
  (List.range 4).foldl (fun v k => match hexDigit (data.ascii (i + 2 + k)) with
    | some d => v <<< 4 ||| d
    | none => v <<< 4) 0 % 2 ^ 16

/-- The letters of the escapes that are no `\u`. -/
def isEscapeChar (u : ℕ) : Bool :=
  u = 0x22 || u = 0x5C || u = 0x2F || u = 0x62 || u = 0x66 || u = 0x6E || u = 0x72 || u = 0x74

/-- The first pass: where it stops, the units counted and the widest of them. -/
def scanFrom (data : JsonSrc) : ℕ → ℕ → ℕ → ℕ → Except JsonError (ℕ × ℕ × ℕ)
  | 0, scan, outLen, widest => .ok (scan, outLen, widest)
  | fuel + 1, scan, outLen, widest =>
    if scan < data.len then
      let c := data.unit scan
      if c = 0x22 then .ok (scan, outLen, widest)
      else if c = 0x5C then
        if data.len ≤ scan + 1 then .error ⟨"JSON.parse: bad escape", scan⟩
        else if data.ascii (scan + 1) = 0x75 then
          if data.len < scan + 6 ∨
              (List.range 4).any (fun k => (hexDigit (data.ascii (scan + 2 + k))).isNone) = true then
            .error ⟨"JSON.parse: bad \\u escape", scan⟩
          else scanFrom data fuel (scan + 6) (outLen + 1) (max widest (uEscapeUnit data scan))
        else if isEscapeChar (data.unit (scan + 1)) = false then
          .error ⟨"JSON.parse: bad escape", scan⟩
        else scanFrom data fuel (scan + 2) (outLen + 1) (max widest (data.unit (scan + 1)))
      else if c < 0x20 then .error ⟨"JSON.parse: bad control character in string", scan⟩
      else scanFrom data fuel (scan + 1) (outLen + 1) (max widest c)
    else .ok (scan, outLen, widest)

/-- What an escape that is no `\u` stands for. -/
def escapeValue (e : ℕ) : Option ℕ :=
  if e = 0x22 then some 0x22
  else if e = 0x5C then some 0x5C
  else if e = 0x2F then some 0x2F
  else if e = 0x62 then some 0x08
  else if e = 0x66 then some 0x0C
  else if e = 0x6E then some 0x0A
  else if e = 0x72 then some 0x0D
  else if e = 0x74 then some 0x09
  else none

/-- The second pass: the units it puts. -/
def writeFrom (data : JsonSrc) (stop : ℕ) : ℕ → ℕ → List ℕ
  | 0, _ => []
  | fuel + 1, i =>
    if i < stop then
      if data.unit i ≠ 0x5C then data.unit i :: writeFrom data stop fuel (i + 1)
      else
        match escapeValue (data.ascii (i + 1)) with
        | some v => v :: writeFrom data stop fuel (i + 2)
        | none =>
          if data.ascii (i + 1) = 0x75 then uEscapeUnit data i :: writeFrom data stop fuel (i + 6)
          else data.unit (i + 1) :: writeFrom data stop fuel (i + 2)
    else []

/-- A string that was read: its block, and the cursor. -/
structure StrResult where
  block : JsonSrc
  pos : ℕ

/-- `__torajs_json_parse_string`. -/
def parseString (data : JsonSrc) (pos : ℕ) : Except JsonError StrResult :=
  let start := skipWs data pos
  if data.len ≤ start ∨ data.ascii start ≠ 0x22 then .error ⟨"JSON.parse: expected string", start⟩
  else
    match scanFrom data (data.len - (start + 1)) (start + 1) 0 0 with
    | .error e => .error e
    | .ok (scan, outLen, widest) =>
      if data.len ≤ scan then .error ⟨"JSON.parse: unterminated string", start⟩
      else
        let latin1 := decide (widest ≤ 0xFF)
        let units := writeFrom data scan (scan - (start + 1)) (start + 1)
        .ok ⟨⟨writtenBytes latin1 units, outLen, latin1⟩, scan + 1⟩

/-! ### JSON strings -/

/-- The characters between the quotes of a JSON string, as code units, and the code units they
stand for. -/
inductive JsonChars : List ℕ → List ℕ → Prop
  | nil : JsonChars [] []
  | unescaped {c : ℕ} {s out : List ℕ} : 0x20 ≤ c → c ≠ 0x22 → c ≠ 0x5C → JsonChars s out →
      JsonChars (c :: s) (c :: out)
  | escape {e v : ℕ} {s out : List ℕ} : escapeValue e = some v → JsonChars s out →
      JsonChars (0x5C :: e :: s) (v :: out)
  | hex {a b c d va vb vc vd : ℕ} {s out : List ℕ} : hexDigit a = some va → hexDigit b = some vb →
      hexDigit c = some vc → hexDigit d = some vd → JsonChars s out →
      JsonChars (0x5C :: 0x75 :: a :: b :: c :: d :: s)
        ((((va * 16 + vb) * 16 + vc) * 16 + vd) :: out)

/-- A JSON string begins some units: its text, what it stands for, and what follows. -/
def BeginsString (s text out rest : List ℕ) : Prop :=
  ∃ chars, text = 0x22 :: chars ++ [0x22] ∧ s = text ++ rest ∧ JsonChars chars out

end Torajs.Json
