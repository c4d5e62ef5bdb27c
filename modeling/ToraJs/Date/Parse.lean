import ToraJs.Date.Format

/-!
# Parsed dates

The two readers of `Date.parse`: ISO 8601 first, then the two texts that `toString` and
`toUTCString` print.  A reader works on the rest of the text from its index on.
-/

namespace Torajs.Date

open Decimal

/-- Reads exactly `n` digits. -/
def readInt (n : ℕ) (s : Bytes) : Option (ℤ × Bytes) :=
  if s.length < n then none
  else if (s.take n).all isDigit then some (readDigits (s.take n), s.drop n)
  else none

/-- Milliseconds since the epoch of the fields of a date in UTC; the month is counted from 0. -/
def utcComponentsToMs (year month day hour minute second milli : ℤ) : ℤ :=
  let year := if 0 ≤ year ∧ year < 100 then year + 1900 else year
  let y := year + month / 12
  let m := month % 12
  let y := if m < 0 then y - 1 else y
  let days := daysFromCivil (asI32 y) (asU32 (m + 1)) (asU32 day)
  days * 86400000 + hour * 3600000 + minute * 60000 + second * 1000 + milli

/-- Milliseconds since the epoch of the fields of a local date; the month is counted from 0.
The offset is looked up twice. -/
def componentsToLocalMs (zone : HostZone) (year month day hour minute second milli : ℤ) : ℤ :=
  let year := if 0 ≤ year ∧ year < 100 then year + 1900 else year
  let totalMonths := year * 12 + month
  let y := totalMonths / 12
  let m0 := totalMonths % 12
  let baseDays := daysFromCivil (asI32 y) (asU32 (m0 + 1)) 1
  let localSecs := baseDays * 86400 + (day - 1) * 86400 + hour * 3600 + minute * 60 + second
  let off1 := zone.localUtoff localSecs
  let off2 := zone.localUtoff (localSecs - off1)
  (localSecs - off2) * 1000 + milli

/-! ### ISO 8601 -/

/-- The year: six digits after a sign, else four digits. -/
def parseYear (s : Bytes) : Option (ℤ × Bytes) :=
  if s.head? = some (ch '+') then readInt 6 s.tail
  else if s.head? = some (ch '-') then (readInt 6 s.tail).map fun r => (-r.1, r.2)
  else readInt 4 s

/-- The month and the day, where they are present. -/
def parseMonthDay (s : Bytes) : Option (ℤ × ℤ × Bytes) :=
  if s.head? = some (ch '-') then do
    let (mon, s) ← readInt 2 s.tail
    if s.head? = some (ch '-') then do
      let (day, s) ← readInt 2 s.tail
      some (mon, day, s)
    else some (mon, 1, s)
  else some (1, 1, s)

/-- The digits of the milliseconds: at most `n` more are read, missing ones count as zeros, and
digits in excess are skipped. -/
def parseMilli : ℕ → ℤ → Bytes → ℤ × Bytes
  | 0, milli, s => (milli, s.dropWhile isDigit)
  | n + 1, milli, [] => (milli * 10 ^ (n + 1), [])
  | n + 1, milli, c :: s =>
    if isDigit c then parseMilli n (milli * 10 + digitVal c) s
    else (milli * 10 ^ (n + 1), c :: s)

/-- The hour, and the minute, the second and the milliseconds where they are present. -/
def parseClock (s : Bytes) : Option (ℤ × ℤ × ℤ × ℤ × Bytes) := do
  let (hour, s) ← readInt 2 s
  if s.head? = some (ch ':') then do
    let (minute, s) ← readInt 2 s.tail
    if s.head? = some (ch ':') then do
      let (second, s) ← readInt 2 s.tail
      if s.head? = some (ch '.') then
        let (milli, s) := parseMilli 3 0 s.tail
        some (hour, minute, second, milli, s)
      else some (hour, minute, second, 0, s)
    else some (hour, minute, 0, 0, s)
  else some (hour, 0, 0, 0, s)

/-- The zone of an ISO text: none, `Z`, or an offset. -/
inductive IsoZone where
  | absent
  | utc
  | offset (sign hours minutes : ℤ)
deriving Repr, DecidableEq

/-- The zone, where it is present. -/
def parseIsoZone (s : Bytes) : Option (IsoZone × Bytes) :=
  if s.head? = some (ch 'Z') then some (.utc, s.tail)
  else if s.head? = some (ch '+') ∨ s.head? = some (ch '-') then do
    let sign : ℤ := if s.head? = some (ch '+') then 1 else -1
    let (tzH, s) ← readInt 2 s.tail
    let s := if s.head? = some (ch ':') then s.tail else s
    match readInt 2 s with
    | some (tzM, s) => some (.offset sign tzH tzM, s)
    | none => some (.offset sign tzH 0, s)
  else some (.absent, s)

/-- A text in the ISO format, to its end. -/
def parseIsoBytes (zone : HostZone) (s : Bytes) : Option ℤ := do
  let (year, s) ← parseYear s
  let (mon, day, s) ← parseMonthDay s
  if s.head? = some (ch 'T') ∨ s.head? = some (ch ' ') then do
    let (hour, minute, second, milli, s) ← parseClock s.tail
    let (isoZone, s) ← parseIsoZone s
    if s ≠ [] then none
    else
      match isoZone with
      | .utc => some (utcComponentsToMs year (mon - 1) day hour minute second milli)
      | .offset sign tzH tzM =>
        some (utcComponentsToMs year (mon - 1) day hour minute second milli -
          (tzH * 60 + tzM) * 60 * 1000 * sign)
      | .absent =>
        some (componentsToLocalMs zone year (mon - 1) day hour minute second milli)
  else if s ≠ [] then none
  else some (utcComponentsToMs year (mon - 1) day 0 0 0 0)

/-! ### The texts of `toString` and `toUTCString` -/

/-- The month of a name, counted from 0. -/
def monthFromName (s : Bytes) : Option (ℤ × Bytes) :=
  if s.length < 3 then none
  else
    match monthNames.findIdx? fun n => n == s.take 3 with
    | none => none
    | some m => some ((m : ℤ), s.drop 3)

/-- Takes a literal. -/
def eat (lit s : Bytes) : Option Bytes :=
  if lit.length ≤ s.length ∧ s.take lit.length = lit then some (s.drop lit.length) else none

/-- Is the byte a letter? -/
def isAsciiAlphabetic (c : UInt8) : Bool :=
  (decide (ch 'A' ≤ c) && decide (c ≤ ch 'Z')) || (decide (ch 'a' ≤ c) && decide (c ≤ ch 'z'))

/-- The date of `toUTCString` after its comma, or that of `toString`: day, month, year. -/
def parseDayMonthYear (s : Bytes) : Option (ℤ × ℤ × ℤ × Bytes) :=
  if s.head? = some (ch ',') then do
    let s ← eat [ch ' '] s.tail
    let (day, s) ← readInt 2 s
    let s ← eat [ch ' '] s
    let (mon, s) ← monthFromName s
    let s ← eat [ch ' '] s
    let (year, s) ← readInt 4 s
    some (day, mon, year, s)
  else do
    let s ← eat [ch ' '] s
    let (mon, s) ← monthFromName s
    let s ← eat [ch ' '] s
    let (day, s) ← readInt 2 s
    let s ← eat [ch ' '] s
    let (year, s) ← readInt 4 s
    some (day, mon, year, s)

/-- The offset after `GMT`, in milliseconds, where it is present. -/
def parseGmtOffset (s : Bytes) : Option (ℤ × Bytes) :=
  if s.head? = some (ch '+') ∨ s.head? = some (ch '-') then do
    let sign : ℤ := if s.head? = some (ch '+') then 1 else -1
    let (h, s) ← readInt 2 s.tail
    let (m, s) ← readInt 2 s
    some ((h * 60 + m) * 60000 * sign, s)
  else some (0, s)

/-- Skips the name of a zone in parentheses at the end of the text. -/
def skipZoneName (s : Bytes) : Bytes :=
  if s.head? = some (ch ' ') ∧ s.tail.head? = some (ch '(') ∧ s.getLast? = some (ch ')') then []
  else s

/-- The time of the day and the offset, to the end of the text, for a date read before. -/
def parseTimeGmt (day mon year : ℤ) (s : Bytes) : Option ℤ := do
  let (hour, s) ← readInt 2 s
  let s ← eat [ch ':'] s
  let (minute, s) ← readInt 2 s
  let s ← eat [ch ':'] s
  let (second, s) ← readInt 2 s
  let s ← eat (ascii [' ', 'G', 'M', 'T']) s
  let (offMs, s) ← parseGmtOffset s
  if skipZoneName s ≠ [] then none
  else some (utcComponentsToMs year mon day hour minute second 0 - offMs)

/-- A text of `toString` or `toUTCString`, to its end. -/
def parseTostringBytes (s : Bytes) : Option ℤ :=
  if s.length < 3 then none
  else if (s.take 3).all isAsciiAlphabetic then do
    let (day, mon, year, s) ← parseDayMonthYear (s.drop 3)
    let s ← eat [ch ' '] s
    parseTimeGmt day mon year s
  else none

/-- The time value of a text, `dateParseFail` when it is neither. -/
def parseIso (zone : HostZone) (s : Bytes) : ℤ :=
  ((parseIsoBytes zone s).or (parseTostringBytes s)).getD dateParseFail

end Torajs.Date
