import ToraJs.Lib.Decimal
import ToraJs.Date.Civil

/-!
# Printed dates

The fields of a time value, in UTC and in the zone of the host, and the three texts made of
them: `toISOString`, `toUTCString` and `toString`.  A text is a list of bytes.  The zone of the
host is a parameter: the offset in force at a second of UTC, and the long name of the zone.
-/

namespace Torajs.Date

open Decimal

/-- A text, as its bytes. -/
abbrev Bytes := List UInt8

/-- The byte of an ASCII character. -/
def ch (c : Char) : UInt8 := UInt8.ofNat c.toNat

/-- The bytes of an ASCII literal. -/
def ascii (cs : List Char) : Bytes := cs.map ch

/-- The time value of an invalid date. -/
def dateInvalid : ℤ := -9223372036854775808

/-- The answer of a parser that fails. -/
def dateParseFail : ℤ := -9223372036854775808

/-- The time value of a date, unless the date is invalid. -/
def validMs (ms : ℤ) : Option ℤ := if ms = dateInvalid then none else some ms

/-! ### Fields -/

/-- The fields of a time value; the month is counted from 1. -/
structure Fields where
  year : ℤ
  month : ℤ
  day : ℤ
  hour : ℤ
  minute : ℤ
  second : ℤ
  milli : ℤ
deriving Repr, DecidableEq

/-- The fields of a time value in UTC. -/
def decompose (ms : ℤ) : Fields :=
  let dayMs := 86400000
  let days := ms / dayMs
  let tod := ms - days * dayMs
  let tod := if tod < 0 then tod + dayMs else tod
  let civil := civilFromDays days
  let hour := tod / 3600000
  let rem := tod - hour * 3600000
  let minute := rem / 60000
  let rem := rem - minute * 60000
  let second := rem / 1000
  let milli := rem - second * 1000
  ⟨civil.1, civil.2.1, civil.2.2, hour, minute, second, milli⟩

/-- The zone of the host: the offset from UTC in seconds, and the long name of the zone, at a
second of UTC.  The offset is of type `i32`. -/
structure HostZone where
  localUtoff : ℤ → ℤ
  localUtoff_mem : ∀ utcSecs,
    -2147483648 ≤ localUtoff utcSecs ∧ localUtoff utcSecs < 2147483648
  zoneLongName : ℤ → Option Bytes

/-- The broken-down local time, as `struct tm` has it. -/
structure Tm where
  tmSec : ℤ
  tmMin : ℤ
  tmHour : ℤ
  tmMday : ℤ
  tmMon : ℤ
  tmYear : ℤ
  tmWday : ℤ
  tmYday : ℤ
  tmIsdst : ℤ
deriving Repr, DecidableEq

/-- The broken-down local time of a time value. -/
def localtimeDecompose (zone : HostZone) (ms : ℤ) : Tm :=
  let utcSecs := ms / 1000
  let localSecs := utcSecs + zone.localUtoff utcSecs
  let days := localSecs / 86400
  let tod := localSecs % 86400
  let civil := civilFromDays days
  { tmSec := tod % 60
    tmMin := tod / 60 % 60
    tmHour := tod / 3600
    tmMday := civil.2.2
    tmMon := civil.2.1 - 1
    tmYear := civil.1 - 1900
    tmWday := (days % 7 + 4) % 7
    tmYday := 0
    tmIsdst := 0 }

/-! ### Texts -/

/-- An integer printed with zeros up to the width `w`, in which a sign counts. -/
def padded (w : ℕ) (x : ℤ) : Bytes :=
  if x < 0 then ch '-' :: zeroPadded (w - 1) x.natAbs else zeroPadded w x.natAbs

/-- The names of the days of the week. -/
def dayNames : List Bytes :=
  [ascii ['S', 'u', 'n'], ascii ['M', 'o', 'n'], ascii ['T', 'u', 'e'], ascii ['W', 'e', 'd'],
    ascii ['T', 'h', 'u'], ascii ['F', 'r', 'i'], ascii ['S', 'a', 't']]

/-- The names of the months. -/
def monthNames : List Bytes :=
  [ascii ['J', 'a', 'n'], ascii ['F', 'e', 'b'], ascii ['M', 'a', 'r'], ascii ['A', 'p', 'r'],
    ascii ['M', 'a', 'y'], ascii ['J', 'u', 'n'], ascii ['J', 'u', 'l'], ascii ['A', 'u', 'g'],
    ascii ['S', 'e', 'p'], ascii ['O', 'c', 't'], ascii ['N', 'o', 'v'], ascii ['D', 'e', 'c']]

/-- The year of `toString` and `toUTCString`. -/
def fmtYearPadded (y : ℤ) : Bytes :=
  if y < 0 then ch '-' :: padded 4 (-y) else padded 4 y

/-- The year of `toISOString`: four digits, or a sign and six digits. -/
def fmtIsoYear (y : ℤ) : Bytes :=
  if 0 ≤ y ∧ y ≤ 9999 then padded 4 y
  else if y < 0 then ch '-' :: padded 6 (-y)
  else ch '+' :: padded 6 y

/-- `HH:MM:SS`, followed by the rest of the text. -/
def fmtClock (hour minute second : ℤ) (rest : Bytes) : Bytes :=
  padded 2 hour ++ ch ':' :: (padded 2 minute ++ ch ':' :: (padded 2 second ++ rest))

/-- The text of an invalid date. -/
def invalidDate : Bytes := ascii ['I', 'n', 'v', 'a', 'l', 'i', 'd', ' ', 'D', 'a', 't', 'e']

/-- The text of `toISOString`; an invalid date is a range error. -/
def dateToIsoString (ms : ℤ) : Except Bytes Bytes :=
  match validMs ms with
  | none => .error invalidDate
  | some ms =>
    let f := decompose ms
    .ok (fmtIsoYear f.year ++ ch '-' :: (padded 2 f.month ++ ch '-' :: (padded 2 f.day ++
      ch 'T' :: fmtClock f.hour f.minute f.second (ch '.' :: (padded 3 f.milli ++ [ch 'Z'])))))

/-- The text of `toUTCString`. -/
def dateToGmtString (ms : ℤ) : Bytes :=
  match validMs ms with
  | none => invalidDate
  | some ms =>
    let dayMs := 86400000
    let days := ms / dayMs
    let tod := ms - days * dayMs
    let shifted := decide (tod < 0)
    let tod := if shifted then tod + dayMs else tod
    let days := if shifted then days - 1 else days
    let civil := civilFromDays days
    let hour := tod / 3600000
    let rem := tod - hour * 3600000
    let minute := rem / 60000
    let rem := rem - minute * 60000
    let second := rem / 1000
    let dow := (days.tmod 7 + 4 + 7).tmod 7
    dayNames.getD dow.toNat [] ++ ascii [',', ' '] ++ (padded 2 civil.2.2 ++ ch ' ' ::
      (monthNames.getD (civil.2.1 - 1).toNat [] ++ ch ' ' :: (fmtYearPadded civil.1 ++ ch ' ' ::
        fmtClock hour minute second (ascii [' ', 'G', 'M', 'T']))))

/-- The numeric form of a zone offset. -/
def fmtGmt (offs : ℤ) : Bytes :=
  let sign := if offs < 0 then ch '-' else ch '+'
  let abs : ℤ := offs.natAbs
  ascii ['G', 'M', 'T'] ++ sign :: (padded 2 (abs / 3600) ++ padded 2 (abs / 60 % 60))

/-- The text of `toString`. -/
def dateToString (zone : HostZone) (ms : ℤ) : Bytes :=
  match validMs ms with
  | none => invalidDate
  | some ms =>
    let tm := localtimeDecompose zone ms
    let utcSecs := ms / 1000
    let gmt := fmtGmt (zone.localUtoff utcSecs)
    let name := (zone.zoneLongName utcSecs).getD gmt
    dayNames.getD tm.tmWday.toNat [] ++ ch ' ' :: (monthNames.getD tm.tmMon.toNat [] ++ ch ' ' ::
      (padded 2 tm.tmMday ++ ch ' ' :: (fmtYearPadded (tm.tmYear + 1900) ++ ch ' ' ::
        fmtClock tm.tmHour tm.tmMin tm.tmSec
          (ch ' ' :: (gmt ++ ascii [' ', '('] ++ name ++ [ch ')'])))))

end Torajs.Date
