import ToraJs.Date.RoundTrip

/-!
# The elements of a date text

What the readers of `Date.parse` read off a text, before any arithmetic; when such elements are
legal, and the instant that they denote by the calendar; and the arithmetic of the source with
every operation checked against its type.  The readers check no element, so illegal ones are
carried over, and a year below 100 is taken for one of the twentieth century.
-/

namespace Torajs.Date

open Decimal

/-! ### Elements -/

/-- The elements of a date text; the month is counted from 1.  `minus` says that the year is
written with a minus sign. -/
structure Elements where
  minus : Bool
  year : ℤ
  month : ℤ
  day : ℤ
  hour : ℤ
  minute : ℤ
  second : ℤ
  milli : ℤ
  zone : IsoZone
deriving Repr, DecidableEq

/-- The elements of a text in the ISO format. -/
def isoElements (s : Bytes) : Option Elements := do
  let minus := decide (s.head? = some (ch '-'))
  let (year, s) ← parseYear s
  let (mon, day, s) ← parseMonthDay s
  if s.head? = some (ch 'T') ∨ s.head? = some (ch ' ') then do
    let (hour, minute, second, milli, s) ← parseClock s.tail
    let (isoZone, s) ← parseIsoZone s
    if s ≠ [] then none
    else some ⟨minus, year, mon, day, hour, minute, second, milli, isoZone⟩
  else if s ≠ [] then none
  else some ⟨minus, year, mon, day, 0, 0, 0, 0, .utc⟩

/-- The zone after `GMT`. -/
def gmtZone (s : Bytes) : Option (IsoZone × Bytes) :=
  if s.head? = some (ch '+') ∨ s.head? = some (ch '-') then do
    let sign : ℤ := if s.head? = some (ch '+') then 1 else -1
    let (h, s) ← readInt 2 s.tail
    let (m, s) ← readInt 2 s
    some (.offset sign h m, s)
  else some (.utc, s)

/-- The elements from the time of the day on, for a date read before. -/
def timeGmtElements (day mon year : ℤ) (s : Bytes) : Option Elements := do
  let (hour, s) ← readInt 2 s
  let s ← eat [ch ':'] s
  let (minute, s) ← readInt 2 s
  let s ← eat [ch ':'] s
  let (second, s) ← readInt 2 s
  let s ← eat (ascii [' ', 'G', 'M', 'T']) s
  let (zone, s) ← gmtZone s
  if skipZoneName s ≠ [] then none
  else some ⟨false, year, mon + 1, day, hour, minute, second, 0, zone⟩

/-- The elements of a text of `toString` or `toUTCString`. -/
def tostringElements (s : Bytes) : Option Elements :=
  if s.length < 3 then none
  else if (s.take 3).all isAsciiAlphabetic then do
    let (day, mon, year, s) ← parseDayMonthYear (s.drop 3)
    let s ← eat [ch ' '] s
    timeGmtElements day mon year s
  else none

/-- The time value that the readers make of the elements. -/
def Elements.toMs (host : HostZone) (e : Elements) : ℤ :=
  match e.zone with
  | .utc => utcComponentsToMs e.year (e.month - 1) e.day e.hour e.minute e.second e.milli
  | .offset sign tzH tzM =>
    utcComponentsToMs e.year (e.month - 1) e.day e.hour e.minute e.second e.milli -
      (tzH * 60 + tzM) * 60 * 1000 * sign
  | .absent =>
    componentsToLocalMs host e.year (e.month - 1) e.day e.hour e.minute e.second e.milli

/-- An ISO text is read to its elements, and these to a time value. -/
lemma parseIsoBytes_eq_map (host : HostZone) (s : Bytes) :
    parseIsoBytes host s = (isoElements s).map (Elements.toMs host) := by
  unfold parseIsoBytes isoElements
  rcases parseYear s with _ | ⟨year, s⟩
  · rfl
  simp only [Option.bind_eq_bind, Option.bind_some]
  rcases parseMonthDay s with _ | ⟨mon, day, s⟩
  · rfl
  simp only [Option.bind_some]
  split_ifs with htime
  · rcases parseClock s.tail with _ | ⟨hour, minute, second, milli, s⟩
    · rfl
    simp only [Option.bind_some]
    rcases parseIsoZone s with _ | ⟨zone, s⟩
    · rfl
    simp only [Option.bind_some]
    split_ifs with hend
    · rfl
    · cases zone <;> rfl
  · rfl
  · rfl

/-- The offset of a zone in milliseconds. -/
def IsoZone.offsetMs : IsoZone → ℤ
  | .offset sign h m => (h * 60 + m) * 60 * 1000 * sign
  | _ => 0

/-- The offset in milliseconds is that of the zone. -/
lemma parseGmtOffset_eq_map (s : Bytes) :
    parseGmtOffset s = (gmtZone s).map fun r => (r.1.offsetMs, r.2) := by
  unfold parseGmtOffset gmtZone
  by_cases hsign : s.head? = some (ch '+') ∨ s.head? = some (ch '-')
  · rw [if_pos hsign, if_pos hsign]
    rcases readInt 2 s.tail with _ | ⟨h, s'⟩
    · rfl
    simp only [Option.bind_eq_bind, Option.bind_some]
    rcases readInt 2 s' with _ | ⟨m, s''⟩
    · rfl
    simp only [Option.bind_some, Option.map_some, IsoZone.offsetMs]
    congr 2
    ring
  · rw [if_neg hsign, if_neg hsign]
    rfl

/-- A zone after `GMT` is never missing. -/
lemma gmtZone_ne_absent {s s' : Bytes} {zone : IsoZone} (h : gmtZone s = some (zone, s')) :
    zone ≠ .absent := by
  rintro rfl
  unfold gmtZone at h
  by_cases hsign : s.head? = some (ch '+') ∨ s.head? = some (ch '-')
  · rw [if_pos hsign] at h
    simp [Option.bind_eq_some_iff] at h
  · rw [if_neg hsign] at h
    simp at h

/-- A text of `toString` is read to its elements, and these to a time value. -/
lemma parseTostringBytes_eq_map (host : HostZone) (s : Bytes) :
    parseTostringBytes s = (tostringElements s).map (Elements.toMs host) := by
  unfold parseTostringBytes tostringElements
  split_ifs with hshort halpha
  · rfl
  · rcases parseDayMonthYear (s.drop 3) with _ | ⟨day, mon, year, s⟩
    · rfl
    simp only [Option.bind_eq_bind, Option.bind_some]
    rcases eat [ch ' '] s with _ | s
    · rfl
    simp only [Option.bind_some, parseTimeGmt, timeGmtElements]
    rcases readInt 2 s with _ | ⟨hour, s⟩
    · rfl
    simp only [Option.bind_eq_bind, Option.bind_some]
    rcases eat [ch ':'] s with _ | s
    · rfl
    simp only [Option.bind_some]
    rcases readInt 2 s with _ | ⟨minute, s⟩
    · rfl
    simp only [Option.bind_some]
    rcases eat [ch ':'] s with _ | s
    · rfl
    simp only [Option.bind_some]
    rcases readInt 2 s with _ | ⟨second, s⟩
    · rfl
    simp only [Option.bind_some]
    rcases eat (ascii [' ', 'G', 'M', 'T']) s with _ | s
    · rfl
    simp only [Option.bind_some]
    rw [parseGmtOffset_eq_map]
    rcases hzone : gmtZone s with _ | ⟨zone, s'⟩
    · rfl
    simp only [Option.map_some, Option.bind_some]
    split_ifs with hend
    · rfl
    · have hne := gmtZone_ne_absent hzone
      cases zone
      · exact absurd rfl hne
      · simp [Elements.toMs, IsoZone.offsetMs]
      · simp [Elements.toMs, IsoZone.offsetMs]
  · rfl

/-! ### The calendar -/

/-- A leap year. -/
def LeapYear (y : ℤ) : Prop := y % 4 = 0 ∧ (y % 100 ≠ 0 ∨ y % 400 = 0)

instance (y : ℤ) : Decidable (LeapYear y) := inferInstanceAs (Decidable (_ ∧ _))

/-- The days before a month of a year that is no leap year. -/
def commonDaysBefore (m : ℤ) : ℤ :=
  [0, 31, 59, 90, 120, 151, 181, 212, 243, 273, 304, 334].getD (m - 1).toNat 0

/-- The days of a year before a month. -/
def daysBeforeMonth (y m : ℤ) : ℤ :=
  commonDaysBefore m + if 2 < m ∧ LeapYear y then 1 else 0

/-- The last day of a month. -/
def daysInMonth (y m : ℤ) : ℤ :=
  if m = 2 then (if LeapYear y then 29 else 28)
  else if m = 4 ∨ m = 6 ∨ m = 9 ∨ m = 11 then 30 else 31

/-- The day of the first of January of a year, counted from 1970. -/
def dayFromYear (y : ℤ) : ℤ :=
  365 * (y - 1970) + (y - 1969) / 4 - (y - 1901) / 100 + (y - 1601) / 400

/-- The day of a date, counted from 1970-01-01. -/
def calendarDay (y m d : ℤ) : ℤ := dayFromYear y + daysBeforeMonth y m + (d - 1)

/-- The day that the code computes is the day of the calendar. -/
lemma daysFromCivil_eq_calendarDay {y m d : ℤ} (hm : 1 ≤ m ∧ m ≤ 12) (hd : 1 ≤ d ∧ d ≤ 31) :
    daysFromCivil y m d = calendarDay y m d := by
  have hleap : (2 < m ∧ LeapYear y) ↔ 2 < m ∧ y % 4 = 0 ∧ (y % 100 ≠ 0 ∨ y % 400 = 0) := Iff.rfl
  rw [daysFromCivil_eq hm hd, calendarDay, daysBeforeMonth, dayFromYear, daysToYear, daysToMonth]
  by_cases h2 : m ≤ 2
  · have hbefore : commonDaysBefore m = 31 * (m - 1) := by
      rcases (by omega : m = 1 ∨ m = 2) with rfl | rfl <;> rfl
    rw [if_pos h2, if_neg (by omega : ¬ 2 < m), if_neg (fun h => by omega), hbefore]
    omega
  · have hbefore : commonDaysBefore m = (153 * (m - 3) + 2) / 5 + 59 := by
      rcases (by omega : m = 3 ∨ m = 4 ∨ m = 5 ∨ m = 6 ∨ m = 7 ∨ m = 8 ∨ m = 9 ∨ m = 10 ∨
        m = 11 ∨ m = 12) with rfl | rfl | rfl | rfl | rfl | rfl | rfl | rfl | rfl | rfl <;> rfl
    rw [if_neg h2, if_pos (by omega : 2 < m), hbefore]
    by_cases hl : LeapYear y
    · rw [if_pos ⟨by omega, hl⟩]
      unfold LeapYear at hl
      omega
    · rw [if_neg fun h => hl h.2]
      unfold LeapYear at hl
      omega

/-- A month has at least 28 days and at most 31. -/
lemma daysInMonth_mem (y m : ℤ) : 28 ≤ daysInMonth y m ∧ daysInMonth y m ≤ 31 := by
  unfold daysInMonth
  split_ifs <;> omega

/-! ### Legal elements -/

/-- The hours and the minutes of an offset are in range. -/
def IsoZone.InRange : IsoZone → Prop
  | .offset sign h m => (sign = 1 ∨ sign = -1) ∧ (0 ≤ h ∧ h ≤ 23) ∧ 0 ≤ m ∧ m ≤ 59
  | _ => True

/-- The elements are legal: each is in its range, the hour 24 stands at the end of the day only,
and the year is not written as minus zero. -/
structure Elements.InRange (e : Elements) : Prop where
  year : ¬ (e.minus = true ∧ e.year = 0)
  month : 1 ≤ e.month ∧ e.month ≤ 12
  day : 1 ≤ e.day ∧ e.day ≤ daysInMonth e.year e.month
  hour : (0 ≤ e.hour ∧ e.hour ≤ 23) ∨
    (e.hour = 24 ∧ e.minute = 0 ∧ e.second = 0 ∧ e.milli = 0)
  minute : 0 ≤ e.minute ∧ e.minute ≤ 59
  second : 0 ≤ e.second ∧ e.second ≤ 59
  milli : 0 ≤ e.milli ∧ e.milli ≤ 999
  zone : e.zone.InRange

/-- The time value of the elements by the calendar, as if they were in UTC. -/
def Elements.calendarMs (e : Elements) : ℤ :=
  calendarDay e.year e.month e.day * 86400000 + e.hour * 3600000 + e.minute * 60000 +
    e.second * 1000 + e.milli

/-- The instant that the elements denote: an offset is taken away, and a local time is converted
by the host. -/
def Elements.instant (host : HostZone) (e : Elements) : ℤ :=
  match e.zone with
  | .utc => e.calendarMs
  | .offset sign h m => e.calendarMs - sign * (h * 60 + m) * 60000
  | .absent =>
    e.calendarMs - 1000 * host.localUtoff
      (e.calendarMs / 1000 - host.localUtoff (e.calendarMs / 1000))

/-- The year is one that the readers take for another. -/
def Elements.FirstCentury (e : Elements) : Prop := 0 ≤ e.year ∧ e.year < 100

/-- The fields of a local time, as the parser composes them: their time value by the calendar,
and the conversion of the host. -/
lemma componentsToLocalMs_eq (host : HostZone) {y m d : ℤ} (hy : -1000000 ≤ y ∧ y ≤ 1000000)
    (hm : 1 ≤ m ∧ m ≤ 12) (hd : 1 ≤ d ∧ d ≤ 31) (hour minute second : ℤ) {milli L : ℤ}
    (hmilli : 0 ≤ milli ∧ milli ≤ 999)
    (hL : L = daysFromCivil (if 0 ≤ y ∧ y < 100 then y + 1900 else y) m d * 86400000 +
      hour * 3600000 + minute * 60000 + second * 1000 + milli) :
    componentsToLocalMs host y (m - 1) d hour minute second milli =
      L - 1000 * host.localUtoff (L / 1000 - host.localUtoff (L / 1000)) := by
  obtain ⟨w, hw⟩ : ∃ w, (if 0 ≤ y ∧ y < 100 then y + 1900 else y) = w := ⟨_, rfl⟩
  have hw' : -1000000 ≤ w ∧ w ≤ 1001900 := by split_ifs at hw <;> omega
  have hdiv : (w * 12 + (m - 1)) / 12 = w := by omega
  have hmod : (w * 12 + (m - 1)) % 12 = m - 1 := by omega
  have hfirst : daysFromCivil w m 1 = daysFromCivil w m d - (d - 1) := by
    rw [daysFromCivil_eq hm hd, daysFromCivil_eq hm ⟨le_refl _, by omega⟩]
    ring
  rw [hw] at hL
  simp only [componentsToLocalMs, hw, hdiv, hmod, sub_add_cancel]
  rw [asI32_of_mem (by omega) (by omega), asU32_of_mem (x := m) (by omega) (by omega), hfirst]
  obtain ⟨s, hs⟩ : ∃ s, (daysFromCivil w m d - (d - 1)) * 86400 + (d - 1) * 86400 + hour * 3600 +
    minute * 60 + second = s := ⟨_, rfl⟩
  have hsecs : L / 1000 = s := by omega
  rw [hs, hsecs]
  omega

/-- The elements with the year that the readers take. -/
def Elements.taken (e : Elements) : Elements :=
  { e with year := if 0 ≤ e.year ∧ e.year < 100 then e.year + 1900 else e.year }

@[simp] lemma Elements.taken_zone (e : Elements) : e.taken.zone = e.zone := rfl

/-- The year of the elements has at most six digits. -/
def Elements.SixDigits (e : Elements) : Prop := -1000000 ≤ e.year ∧ e.year ≤ 1000000

/-- Legal elements are read as the instant that they denote with the year that is taken. -/
lemma Elements.toMs_eq_instant_taken (host : HostZone) {e : Elements} (h : e.InRange)
    (hy : e.SixDigits) : e.toMs host = e.taken.instant host := by
  have hdays := daysInMonth_mem e.year e.month
  have hd : 1 ≤ e.day ∧ e.day ≤ 31 := ⟨h.day.1, h.day.2.trans hdays.2⟩
  have hutc : utcComponentsToMs e.year (e.month - 1) e.day e.hour e.minute e.second e.milli =
      e.taken.calendarMs := by
    rw [utcComponentsToMs_eq hy h.month hd, daysFromCivil_eq_calendarDay h.month hd]
    rfl
  cases hzone : e.zone with
  | absent =>
    simp only [toMs, instant, taken_zone, hzone]
    refine componentsToLocalMs_eq host hy h.month hd _ _ _ h.milli ?_
    rw [daysFromCivil_eq_calendarDay h.month hd]
    rfl
  | utc =>
    simp only [toMs, instant, taken_zone, hzone]
    exact hutc
  | offset sign tzH tzM =>
    simp only [toMs, instant, taken_zone, hzone, hutc]
    ring

/-- The year of the last century is another instant. -/
lemma Elements.instant_taken_ne (host : HostZone) {e : Elements} (h : e.InRange)
    (hcent : e.FirstCentury) : e.taken.instant host ≠ e.instant host := by
  have hdays := daysInMonth_mem e.year e.month
  have hd : 1 ≤ e.day ∧ e.day ≤ 31 := ⟨h.day.1, h.day.2.trans hdays.2⟩
  have hfar : calendarDay e.year e.month e.day + 1900 * 365 ≤
      calendarDay (e.year + 1900) e.month e.day := by
    rw [← daysFromCivil_eq_calendarDay h.month hd, ← daysFromCivil_eq_calendarDay h.month hd,
      daysFromCivil_eq h.month hd, daysFromCivil_eq h.month hd]
    unfold daysToYear
    split_ifs <;> omega
  have hms : e.calendarMs + 59918400000000 ≤ e.taken.calendarMs := by
    have hyear : (if 0 ≤ e.year ∧ e.year < 100 then e.year + 1900 else e.year) =
        e.year + 1900 := if_pos hcent
    simp only [calendarMs, taken, hyear]
    omega
  cases hzone : e.zone with
  | absent =>
    simp only [instant, taken_zone, hzone]
    have hoff := host.localUtoff_mem
      (e.taken.calendarMs / 1000 - host.localUtoff (e.taken.calendarMs / 1000))
    have hoff' := host.localUtoff_mem
      (e.calendarMs / 1000 - host.localUtoff (e.calendarMs / 1000))
    omega
  | utc =>
    simp only [instant, taken_zone, hzone]
    omega
  | offset sign tzH tzM =>
    simp only [instant, taken_zone, hzone]
    omega

/-! ### Checked arithmetic -/

/-- The result of an operation, when it is in a range. -/
def inRange (lo hi x : ℤ) : Option ℤ := if lo ≤ x ∧ x ≤ hi then some x else none

/-- The result of an operation on `u32`. -/
def inU32 (x : ℤ) : Option ℤ := inRange 0 4294967295 x

/-- The result of an operation on `i32`. -/
def inI32 (x : ℤ) : Option ℤ := inRange (-2147483648) 2147483647 x

/-- The result of an operation on `i64`. -/
def inI64 (x : ℤ) : Option ℤ := inRange (-9223372036854775808) 9223372036854775807 x

/-- A result in the range is given. -/
lemma inRange_of_mem {lo hi x : ℤ} (h : lo ≤ x ∧ x ≤ hi) : inRange lo hi x = some x := if_pos h

/-- A result in the range of `u32` is passed on. -/
lemma inU32_bind {x : ℤ} (h : 0 ≤ x ∧ x ≤ 4294967295) (f : ℤ → Option ℤ) :
    (inU32 x).bind f = f x := by
  rw [inU32, inRange_of_mem h]
  rfl

/-- A result in the range of `i32` is passed on. -/
lemma inI32_bind {x : ℤ} (h : -2147483648 ≤ x ∧ x ≤ 2147483647) (f : ℤ → Option ℤ) :
    (inI32 x).bind f = f x := by
  rw [inI32, inRange_of_mem h]
  rfl

/-- A result in the range of `i64` is passed on. -/
lemma inI64_bind {x : ℤ} (h : -9223372036854775808 ≤ x ∧ x ≤ 9223372036854775807)
    (f : ℤ → Option ℤ) : (inI64 x).bind f = f x := by
  rw [inI64, inRange_of_mem h]
  rfl

/-- The era of a year, each operation checked. -/
def checkedEra (y : ℤ) : Option ℤ :=
  if 0 ≤ y then some (y.tdiv 400)
  else (inI64 (y - 399)).map fun y => y.tdiv 400

/-- The day of a date, each operation checked. -/
def checkedDaysFromCivil (y m d : ℤ) : Option ℤ := do
  let y ← inI32 (if m ≤ 2 then y - 1 else y)
  let era ← checkedEra y
  let eraYears ← inI64 (era * 400)
  let yoe ← (inI64 (y - eraYears)).map asU32
  let mp ← inU32 (if 2 < m then m - 3 else m + 9)
  let days ← inU32 (153 * mp)
  let days ← inU32 (days + 2)
  let doy ← inU32 (days / 5 + d)
  let doy ← inU32 (doy - 1)
  let doe ← inU32 (yoe * 365)
  let doe ← inU32 (doe + yoe / 4)
  let doe ← inU32 (doe - yoe / 100)
  let doe ← inU32 (doe + doy)
  let days ← inI64 (era * 146097)
  let days ← inI64 (days + doe)
  inI64 (days - 719468)

/-- The year that counts, the addition checked. -/
def checkedYear (year : ℤ) : Option ℤ :=
  if 0 ≤ year ∧ year < 100 then inI64 (year + 1900) else some year

/-- The sum of three terms on `i64`, each operation checked. -/
def checkedSum (a : ℤ) (bs : List ℤ) : Option ℤ := bs.foldlM (fun sum b => do
  let b ← inI64 b
  inI64 (sum + b)) a

/-- The fields of a date in UTC, each operation checked. -/
def checkedUtcComponents (year month day hour minute second milli : ℤ) : Option ℤ := do
  let year ← checkedYear year
  let y ← inI64 (year + month / 12)
  let m := month % 12
  let y ← inI64 (if m < 0 then y - 1 else y)
  let m ← inI64 (m + 1)
  let days ← checkedDaysFromCivil (asI32 y) (asU32 m) (asU32 day)
  let ms ← inI64 (days * 86400000)
  checkedSum ms [hour * 3600000, minute * 60000, second * 1000, milli]

/-- The fields of a local date, each operation checked. -/
def checkedLocalComponents (host : HostZone) (year month day hour minute second milli : ℤ) :
    Option ℤ := do
  let year ← checkedYear year
  let months ← inI64 (year * 12)
  let totalMonths ← inI64 (months + month)
  let m ← inI64 (totalMonths % 12 + 1)
  let baseDays ← checkedDaysFromCivil (asI32 (totalMonths / 12)) (asU32 m) 1
  let secs ← inI64 (baseDays * 86400)
  let day ← inI64 (day - 1)
  let localSecs ← checkedSum secs [day * 86400, hour * 3600, minute * 60, second]
  let guess ← inI64 (localSecs - host.localUtoff localSecs)
  let utcSecs ← inI64 (localSecs - host.localUtoff guess)
  let ms ← inI64 (utcSecs * 1000)
  inI64 (ms + milli)

/-- The offset of a zone in milliseconds, each operation checked. -/
def checkedOffset (sign h m : ℤ) : Option ℤ := do
  let minutes ← inI64 (h * 60)
  let minutes ← inI64 (minutes + m)
  let seconds ← inI64 (minutes * 60)
  let ms ← inI64 (seconds * 1000)
  inI64 (ms * sign)

/-- The time value of the elements, each operation checked. -/
def Elements.checkedToMs (host : HostZone) (e : Elements) : Option ℤ := do
  let month ← inI64 (e.month - 1)
  match e.zone with
  | .utc => checkedUtcComponents e.year month e.day e.hour e.minute e.second e.milli
  | .offset sign tzH tzM => do
    let base ← checkedUtcComponents e.year month e.day e.hour e.minute e.second e.milli
    let offMs ← checkedOffset sign tzH tzM
    inI64 (base - offMs)
  | .absent =>
    checkedLocalComponents host e.year month e.day e.hour e.minute e.second e.milli

/-- The era of a year, checked. -/
lemma checkedEra_eq {w : ℤ} (hw : -2000000 ≤ w) : checkedEra w = some (w / 400) := by
  have hfloor := floor_of_tdiv w 400 (by omega)
  unfold checkedEra
  split_ifs at hfloor ⊢ with h0
  · rw [hfloor]
  · rw [inI64, inRange_of_mem ⟨by omega, by omega⟩, Option.map_some, ← hfloor]
    rfl

/-- The day of a date is computed without overflow. -/
lemma checkedDaysFromCivil_eq {y m d : ℤ} (hy : -1000000 ≤ y ∧ y ≤ 1001900)
    (hm : 1 ≤ m ∧ m ≤ 12) (hd : 1 ≤ d ∧ d ≤ 31) :
    checkedDaysFromCivil y m d = some (daysFromCivil y m d) := by
  rw [daysFromCivil_eq hm hd]
  obtain ⟨w, hw⟩ : ∃ w, (if m ≤ 2 then y - 1 else y) = w := ⟨_, rfl⟩
  obtain ⟨mp, hmp⟩ : ∃ mp, (if 2 < m then m - 3 else m + 9) = mp := ⟨_, rfl⟩
  have hw' : -1000001 ≤ w ∧ w ≤ 1001900 := by split_ifs at hw <;> omega
  have hmp' : 0 ≤ mp ∧ mp ≤ 11 := by split_ifs at hmp <;> omega
  have hera := checkedEra_eq (w := w) (by omega)
  obtain ⟨era, hera'⟩ : ∃ era, w / 400 = era := ⟨_, rfl⟩
  obtain ⟨yoe, hyoe⟩ : ∃ yoe, w - era * 400 = yoe := ⟨_, rfl⟩
  have hyoe' : 0 ≤ yoe ∧ yoe < 400 := by omega
  rw [hera'] at hera
  unfold checkedDaysFromCivil
  simp only [Option.bind_eq_bind, hw, hmp]
  have hcast : (inI64 (w - era * 400)).map asU32 = some yoe := by
    rw [inI64, inRange_of_mem (by omega), Option.map_some, hyoe, asU32_of_mem (by omega) (by omega)]
  rw [inI32_bind (by omega), hera, Option.bind_some, inI64_bind (by omega), hcast,
    Option.bind_some, inU32_bind (by omega), inU32_bind (by omega),
    inU32_bind (by omega), inU32_bind (by omega), inU32_bind (by omega), inU32_bind (by omega),
    inU32_bind (by omega), inU32_bind (by omega), inU32_bind (by omega), inI64_bind (by omega),
    inI64_bind (by omega), inI64, inRange_of_mem (by omega)]
  rw [show w = yoe + era * 400 by omega, daysToYear_add_era]
  unfold daysToYear daysToMonth
  congr 1
  omega

/-- The year that counts is computed without overflow. -/
lemma checkedYear_eq (y : ℤ) :
    checkedYear y = some (if 0 ≤ y ∧ y < 100 then y + 1900 else y) := by
  unfold checkedYear
  split_ifs with hcent
  · exact inRange_of_mem ⟨by omega, by omega⟩
  · rfl

/-- The days of legal elements are few enough for all the arithmetic. -/
lemma daysFromCivil_mem {y m d : ℤ} (hy : -1000000 ≤ y ∧ y ≤ 1001900)
    (hm : 1 ≤ m ∧ m ≤ 12) (hd : 1 ≤ d ∧ d ≤ 31) :
    -400000000 ≤ daysFromCivil y m d ∧ daysFromCivil y m d ≤ 400000000 := by
  rw [daysFromCivil_eq hm hd]
  unfold daysToYear daysToMonth
  split_ifs <;> omega

/-- The fields of a date in UTC are composed without overflow. -/
lemma checkedUtcComponents_eq {y m d hour minute second milli : ℤ}
    (hy : -1000000 ≤ y ∧ y ≤ 1000000) (hm : 1 ≤ m ∧ m ≤ 12) (hd : 1 ≤ d ∧ d ≤ 31)
    (hh : 0 ≤ hour ∧ hour ≤ 24) (hmi : 0 ≤ minute ∧ minute ≤ 59)
    (hs : 0 ≤ second ∧ second ≤ 59) (hml : 0 ≤ milli ∧ milli ≤ 999) :
    checkedUtcComponents y (m - 1) d hour minute second milli =
      some (utcComponentsToMs y (m - 1) d hour minute second milli) := by
  rw [utcComponentsToMs_eq hy hm hd]
  obtain ⟨w, hw⟩ : ∃ w, (if 0 ≤ y ∧ y < 100 then y + 1900 else y) = w := ⟨_, rfl⟩
  have hw' : -1000000 ≤ w ∧ w ≤ 1001900 := by split_ifs at hw <;> omega
  have hdiv : (m - 1) / 12 = 0 := by omega
  have hmod : (m - 1) % 12 = m - 1 := by omega
  have hdays := daysFromCivil_mem hw' hm hd
  unfold checkedUtcComponents
  simp only [Option.bind_eq_bind, checkedYear_eq, hw, Option.bind_some, hdiv, hmod, add_zero]
  rw [inI64_bind (by omega), if_neg (by omega), inI64_bind (by omega), sub_add_cancel,
    inI64_bind (by omega), asI32_of_mem (by omega) (by omega),
    asU32_of_mem (x := m) (by omega) (by omega), asU32_of_mem (x := d) (by omega) (by omega),
    checkedDaysFromCivil_eq hw' hm hd, Option.bind_some, inI64_bind (by omega)]
  simp only [checkedSum, List.foldlM_cons, List.foldlM_nil, Option.bind_eq_bind, Option.pure_def,
    Option.bind_assoc]
  rw [inI64_bind (by omega), inI64_bind (by omega), inI64_bind (by omega), inI64_bind (by omega),
    inI64_bind (by omega), inI64_bind (by omega), inI64_bind (by omega), inI64_bind (by omega)]

/-- The fields of a local date are composed without overflow. -/
lemma checkedLocalComponents_eq (host : HostZone) {y m d hour minute second milli : ℤ}
    (hy : -1000000 ≤ y ∧ y ≤ 1000000) (hm : 1 ≤ m ∧ m ≤ 12) (hd : 1 ≤ d ∧ d ≤ 31)
    (hh : 0 ≤ hour ∧ hour ≤ 24) (hmi : 0 ≤ minute ∧ minute ≤ 59)
    (hs : 0 ≤ second ∧ second ≤ 59) (hml : 0 ≤ milli ∧ milli ≤ 999) :
    checkedLocalComponents host y (m - 1) d hour minute second milli =
      some (componentsToLocalMs host y (m - 1) d hour minute second milli) := by
  obtain ⟨w, hw⟩ : ∃ w, (if 0 ≤ y ∧ y < 100 then y + 1900 else y) = w := ⟨_, rfl⟩
  have hw' : -1000000 ≤ w ∧ w ≤ 1001900 := by split_ifs at hw <;> omega
  have hdiv : (w * 12 + (m - 1)) / 12 = w := by omega
  have hmod : (w * 12 + (m - 1)) % 12 = m - 1 := by omega
  obtain ⟨days, hdays'⟩ : ∃ days, daysFromCivil w m 1 = days := ⟨_, rfl⟩
  have hdays := daysFromCivil_mem (d := 1) hw' hm (by omega)
  rw [hdays'] at hdays
  unfold checkedLocalComponents componentsToLocalMs
  simp only [Option.bind_eq_bind, checkedYear_eq, hw, Option.bind_some]
  rw [inI64_bind (by omega), inI64_bind (by omega), hdiv, hmod, sub_add_cancel,
    inI64_bind (by omega), asI32_of_mem (by omega) (by omega),
    asU32_of_mem (x := m) (by omega) (by omega), checkedDaysFromCivil_eq hw' hm (by omega),
    Option.bind_some, hdays', inI64_bind (by omega), inI64_bind (by omega)]
  simp only [checkedSum, List.foldlM_cons, List.foldlM_nil, Option.bind_eq_bind, Option.pure_def,
    Option.bind_assoc]
  rw [inI64_bind (by omega), inI64_bind (by omega), inI64_bind (by omega), inI64_bind (by omega),
    inI64_bind (by omega), inI64_bind (by omega), inI64_bind (by omega), inI64_bind (by omega),
    Option.bind_some]
  obtain ⟨secs, hsecs⟩ : ∃ secs, days * 86400 + (d - 1) * 86400 + hour * 3600 + minute * 60 +
    second = secs := ⟨_, rfl⟩
  rw [hsecs]
  have hoff := host.localUtoff_mem secs
  have hoff' := host.localUtoff_mem (secs - host.localUtoff secs)
  rw [inI64_bind (by omega), inI64_bind (by omega), inI64_bind (by omega), inI64,
    inRange_of_mem (by omega)]

/-- An offset in range is computed without overflow. -/
lemma checkedOffset_eq {sign h m : ℤ} (hsign : sign = 1 ∨ sign = -1) (hh : 0 ≤ h ∧ h ≤ 23)
    (hm : 0 ≤ m ∧ m ≤ 59) :
    checkedOffset sign h m = some ((h * 60 + m) * 60 * 1000 * sign) := by
  unfold checkedOffset
  simp only [Option.bind_eq_bind]
  rw [inI64_bind (by omega), inI64_bind (by omega), inI64_bind (by omega), inI64_bind (by omega),
    inI64, inRange_of_mem]
  rcases hsign with rfl | rfl <;> omega

/-- The time value of legal elements is computed without overflow. -/
lemma Elements.checkedToMs_eq (host : HostZone) {e : Elements} (h : e.InRange)
    (hy : e.SixDigits) : e.checkedToMs host = some (e.toMs host) := by
  have hdays := daysInMonth_mem e.year e.month
  have hd : 1 ≤ e.day ∧ e.day ≤ 31 := ⟨h.day.1, h.day.2.trans hdays.2⟩
  have hhour : 0 ≤ e.hour ∧ e.hour ≤ 24 := by
    have := h.hour
    omega
  have hmonth := h.month
  have hutc := checkedUtcComponents_eq hy h.month hd hhour h.minute h.second h.milli
  have hzone := h.zone
  unfold checkedToMs toMs
  rw [Option.bind_eq_bind, inI64_bind (by omega)]
  cases hz : e.zone with
  | absent => exact checkedLocalComponents_eq host hy h.month hd hhour h.minute h.second h.milli
  | utc => exact hutc
  | offset sign tzH tzM =>
    rw [hz] at hzone
    obtain ⟨hsign, hh, hm⟩ := hzone
    simp only [hutc, Option.bind_some, checkedOffset_eq hsign hh hm]
    have hms : -40000000000000000 ≤ utcComponentsToMs e.year (e.month - 1) e.day e.hour e.minute
        e.second e.milli ∧ utcComponentsToMs e.year (e.month - 1) e.day e.hour e.minute
        e.second e.milli ≤ 40000000000000000 := by
      rw [utcComponentsToMs_eq hy h.month hd]
      have hw' : -1000000 ≤ (if 0 ≤ e.year ∧ e.year < 100 then e.year + 1900 else e.year) ∧
          (if 0 ≤ e.year ∧ e.year < 100 then e.year + 1900 else e.year) ≤ 1001900 := by
        have := hy.1
        have := hy.2
        split_ifs <;> omega
      have := daysFromCivil_mem hw' h.month hd
      have := h.minute
      have := h.second
      have := h.milli
      omega
    rw [inI64, inRange_of_mem]
    rcases hsign with rfl | rfl <;> omega

end Torajs.Date
