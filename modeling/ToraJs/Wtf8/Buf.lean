import ToraJs.Lib.Unicode
import ToraJs.Regex.Utf8

/-!
# The WTF-8 buffer

`decode.rs` and `buf.rs`: the decoder, the encoder and the validator of generalized UTF-8, and the
pushes of the buffer, which put a surrogate pair that meets at a seam into its four byte spelling.
-/

namespace Torajs.Wtf8

open Unicode

/-! ### Decoding and encoding -/

/-- `CodePoints::next`, at a lead byte and what follows it: the code point and what is left; it
panics where the sequence is cut short. -/
def next (lead : UInt8) (rest : List UInt8) : Option (ℕ × List UInt8) :=
  if lead < 0x80 then some (lead.toNat, rest)
  else if lead < 0xE0 then
    match rest with
    | b1 :: rest => some ((lead &&& 0x1F).toNat <<< 6 ||| (b1 &&& 0x3F).toNat, rest)
    | _ => none
  else if lead < 0xF0 then
    match rest with
    | b1 :: b2 :: rest =>
      some ((lead &&& 0x0F).toNat <<< 12 ||| (b1 &&& 0x3F).toNat <<< 6 ||| (b2 &&& 0x3F).toNat,
        rest)
    | _ => none
  else
    match rest with
    | b1 :: b2 :: b3 :: rest =>
      some ((lead &&& 0x07).toNat <<< 18 ||| (b1 &&& 0x3F).toNat <<< 12 |||
        (b2 &&& 0x3F).toNat <<< 6 ||| (b3 &&& 0x3F).toNat, rest)
    | _ => none

/-- The iterator run to the end, at most as often as there are bytes. -/
def codePointsFrom : ℕ → List UInt8 → Option (List ℕ)
  | _, [] => some []
  | 0, _ :: _ => none
  | n + 1, lead :: rest =>
    (next lead rest).bind fun r => (codePointsFrom n r.2).map (r.1 :: ·)

/-- `Wtf8::code_points`. -/
def codePoints (bytes : List UInt8) : Option (List ℕ) := codePointsFrom bytes.length bytes

/-- `encode_cp`. -/
def encodeCp (cp : ℕ) : List UInt8 :=
  let lead (bits : UInt8) (n : ℕ) : UInt8 := bits ||| UInt8.ofNat n
  let cont (n : ℕ) : UInt8 := 0x80 ||| UInt8.ofNat (n &&& 0x3F)
  if cp < 0x80 then [UInt8.ofNat cp]
  else if cp < 0x800 then [lead 0xC0 (cp >>> 6), cont cp]
  else if cp < 0x10000 then [lead 0xE0 (cp >>> 12), cont (cp >>> 6), cont cp]
  else [lead 0xF0 (cp >>> 18), cont (cp >>> 12), cont (cp >>> 6), cont cp]

/-- `cp_to_units`. -/
def cpToUnits (cp : ℕ) : List ℕ :=
  if cp ≤ 0xFFFF then [cp]
  else
    let off := cp - 0x10000
    [0xD800 ||| off >>> 10 % 2 ^ 16, 0xDC00 ||| off &&& 0x3FF]

/-- `Wtf8::code_units`. -/
def codeUnits (bytes : List UInt8) : Option (List ℕ) :=
  (codePoints bytes).map (·.flatMap cpToUnits)

/-! ### The validator -/

/-- The width a lead byte announces. -/
def width (lead : UInt8) : Option ℕ :=
  if lead ≤ 0x7F then some 1
  else if 0xC2 ≤ lead ∧ lead ≤ 0xDF then some 2
  else if 0xE0 ≤ lead ∧ lead ≤ 0xEF then some 3
  else if 0xF0 ≤ lead ∧ lead ≤ 0xF4 then some 4
  else none

/-- The sequence at the front in `is_well_formed`: its width, and whether it spells a high or a
low surrogate. -/
def sequenceAt : List UInt8 → Option (ℕ × Bool × Bool)
  | [] => none
  | lead :: rest =>
    match width lead with
    | none => none
    | some w =>
      if rest.length + 1 < w ∨ (rest.take (w - 1)).any (fun c => c &&& 0xC0 != 0x80) then none
      else
        let b1 := if 1 < w then rest.headD 0 else 0
        let overlongOrRange :=
          if w = 3 ∧ lead = 0xE0 then decide (b1 < 0xA0)
          else if w = 4 ∧ lead = 0xF0 then decide (b1 < 0x90)
          else if w = 4 ∧ lead = 0xF4 then decide (0x8F < b1)
          else false
        if overlongOrRange then none
        else some (w, decide (w = 3 ∧ lead = 0xED ∧ 0xA0 ≤ b1 ∧ b1 ≤ 0xAF),
          decide (w = 3 ∧ lead = 0xED ∧ 0xB0 ≤ b1 ∧ b1 ≤ 0xBF))

/-- The loop of `is_well_formed`, at most as often as there are bytes. -/
def isWellFormedFrom : ℕ → Bool → List UInt8 → Bool
  | _, _, [] => true
  | 0, _, _ :: _ => false
  | n + 1, prevHi, b :: bytes =>
    match sequenceAt (b :: bytes) with
    | none => false
    | some (w, hi, lo) =>
      if prevHi && lo then false else isWellFormedFrom n hi ((b :: bytes).drop w)

/-- `is_well_formed`. -/
def isWellFormed (bytes : List UInt8) : Bool := isWellFormedFrom bytes.length false bytes

/-! ### The buffer -/

/-- `Wtf8::ends_with_high_surrogate`. -/
def endsWithHighSurrogate (bytes : List UInt8) : Bool :=
  match bytes.reverse with
  | _ :: b1 :: lead :: _ => decide (lead = 0xED ∧ 0xA0 ≤ b1 ∧ b1 ≤ 0xAF)
  | _ => false

/-- `Wtf8::starts_with_low_surrogate`. -/
def startsWithLowSurrogate : List UInt8 → Bool
  | lead :: b1 :: _ :: _ => decide (lead = 0xED ∧ 0xB0 ≤ b1 ∧ b1 ≤ 0xBF)
  | _ => false

/-- The code point of a pair in `push_code_point`, of the last two bytes of the high surrogate. -/
def joinedCp (b1 b2 : UInt8) (cp : ℕ) : ℕ :=
  0x10000 + ((b1 &&& 0x0F).toNat <<< 6 ||| (b2 &&& 0x3F).toNat) <<< 10 + (cp - 0xDC00)

/-- `push_code_point`. -/
def pushCodePoint (bytes : List UInt8) (cp : ℕ) : List UInt8 :=
  if (0xDC00 ≤ cp ∧ cp ≤ 0xDFFF) ∧ endsWithHighSurrogate bytes = true then
    match bytes.reverse with
    | b2 :: b1 :: _ :: init => init.reverse ++ encodeCp (joinedCp b1 b2 cp)
    | _ => bytes ++ encodeCp cp
  else bytes ++ encodeCp cp

/-- `push_str`, of the UTF-8 bytes of a string. -/
def pushStr (bytes : List UInt8) (s : List Char) : List UInt8 :=
  bytes ++ s.flatMap fun c => encodeCp c.toNat

/-- `push_wtf8`: across the seam the first code point is pushed and the rest copied. -/
def pushWtf8 (bytes other : List UInt8) : Option (List UInt8) :=
  if endsWithHighSurrogate bytes && startsWithLowSurrogate other then
    match other with
    | [] => none
    | lead :: rest =>
      (next lead rest).map fun r => pushCodePoint bytes r.1 ++ (lead :: rest).drop 3
  else some (bytes ++ other)

/-- The buffers that pushes build from the empty one, with the code units pushed. -/
inductive Built : List UInt8 → List ℕ → Prop
  | empty : Built [] []
  | codePoint {b : List UInt8} {u : List ℕ} {cp : ℕ} : Built b u → cp ≤ 0x10FFFF →
      Built (pushCodePoint b cp) (u ++ cpToUnits cp)
  | str {b : List UInt8} {u : List ℕ} (s : List Char) : Built b u →
      Built (pushStr b s) (u ++ s.flatMap fun c => cpToUnits c.toNat)
  | wtf8 {b other b' : List UInt8} {u v : List ℕ} : Built b u → Built other v →
      pushWtf8 b other = some b' → Built b' (u ++ v)

end Torajs.Wtf8
