import ToraJs.Date.Elements

/-!
# Legal date texts

The date time strings of the standard and their elements, and what the readers of `Date.parse`
do with them: every legal one is accepted.  A text is treated as the standard demands exactly
when the elements read off it are legal and its year is none of the first century.
-/

namespace Torajs.Date

open Decimal

/-! ### The numbers that are read -/

/-- A digit is at most nine. -/
lemma digitVal_le {c : UInt8} (hc : isDigit c = true) : digitVal c ≤ 9 := by
  unfold isDigit at hc
  unfold digitVal
  rw [Bool.and_eq_true, decide_eq_true_eq, decide_eq_true_eq] at hc
  have h57 : c.toNat ≤ 57 := hc.2
  have h48 : 48 ≤ c.toNat := hc.1
  rw [UInt8.toNat_sub_of_le _ _ hc.1]
  change c.toNat - 48 ≤ 9
  omega

/-- The number of a string of digits is below the power of ten of its length. -/
lemma readDigits_lt {ds : Bytes} (hds : ds.all isDigit = true) :
    readDigits ds < 10 ^ ds.length := by
  induction ds using List.reverseRecOn with
  | nil => decide
  | append_singleton ds c ih =>
    rw [List.all_append, Bool.and_eq_true] at hds
    have ih := ih hds.1
    have hc := digitVal_le (List.all_eq_true.mp hds.2 c List.mem_cons_self)
    rw [readDigits, List.foldl_append, List.length_append, List.length_singleton, pow_succ]
    simp only [List.foldl_cons, List.foldl_nil]
    unfold readDigits at ih
    omega

/-- A number that is read has at most the digits that are read. -/
lemma readInt_mem {n : ℕ} {s rest : Bytes} {v : ℤ} (h : readInt n s = some (v, rest)) :
    0 ≤ v ∧ v < 10 ^ n := by
  unfold readInt at h
  split_ifs at h with hshort hall
  obtain ⟨rfl, -⟩ := Prod.mk.injEq _ _ _ _ ▸ Option.some.inj h
  have hlt := readDigits_lt hall
  rw [List.length_take_of_le (by omega)] at hlt
  exact ⟨Int.natCast_nonneg _, by exact_mod_cast hlt⟩

/-- The milliseconds that are read have at most as many digits as are read. -/
lemma parseMilli_mem {n k : ℕ} {v : ℤ} (hv : 0 ≤ v ∧ v < 10 ^ k) (s : Bytes) :
    0 ≤ (parseMilli n v s).1 ∧ (parseMilli n v s).1 < 10 ^ (k + n) := by
  have hpad : ∀ j : ℕ, 0 ≤ v * 10 ^ j ∧ v * 10 ^ j < 10 ^ (k + j) := fun j => by
    have hpos : (0 : ℤ) < 10 ^ j := by positivity
    rw [pow_add]
    exact ⟨mul_nonneg hv.1 hpos.le, mul_lt_mul_of_pos_right hv.2 hpos⟩
  induction n generalizing k v s with
  | zero => exact hv
  | succ n ih =>
    cases s with
    | nil => exact hpad (n + 1)
    | cons c s =>
      rw [parseMilli]
      split_ifs with hc
      · have hdigit := digitVal_le hc
        have hnext : 0 ≤ v * 10 + digitVal c ∧ v * 10 + digitVal c < 10 ^ (k + 1) := by
          rw [pow_succ]
          omega
        have := ih hnext s (fun j => by
          have hpos : (0 : ℤ) < 10 ^ j := by positivity
          rw [pow_add]
          exact ⟨mul_nonneg hnext.1 hpos.le, mul_lt_mul_of_pos_right hnext.2 hpos⟩)
        rw [show k + (n + 1) = k + 1 + n by omega]
        exact this
      · exact hpad (n + 1)

/-- The year that is read has at most six digits. -/
lemma parseYear_mem {s rest : Bytes} {y : ℤ} (h : parseYear s = some (y, rest)) :
    -1000000 ≤ y ∧ y ≤ 1000000 := by
  unfold parseYear at h
  split_ifs at h
  · have := readInt_mem h
    omega
  · obtain ⟨⟨v, r⟩, hr, heq⟩ := Option.map_eq_some_iff.mp h
    obtain ⟨rfl, -⟩ := Prod.mk.injEq _ _ _ _ ▸ heq
    have := readInt_mem hr
    simp only
    omega
  · have := readInt_mem h
    omega

/-- The year of the elements of an ISO text has at most six digits. -/
lemma isoElements_sixDigits {s : Bytes} {e : Elements} (h : isoElements s = some e) :
    e.SixDigits := by
  unfold isoElements at h
  obtain ⟨⟨year, s'⟩, hyear, h⟩ := Option.bind_eq_some_iff.mp h
  dsimp only at h
  obtain ⟨⟨mon, day, s''⟩, -, h⟩ := Option.bind_eq_some_iff.mp h
  dsimp only at h
  have hy : e.year = year := by
    by_cases htime : s''.head? = some (ch 'T') ∨ s''.head? = some (ch ' ')
    · rw [if_pos htime] at h
      obtain ⟨⟨hour, minute, second, milli, r⟩, -, h⟩ := Option.bind_eq_some_iff.mp h
      dsimp only at h
      obtain ⟨⟨zone, r'⟩, -, h⟩ := Option.bind_eq_some_iff.mp h
      dsimp only at h
      split_ifs at h
      rw [← Option.some.inj h]
    · rw [if_neg htime] at h
      split_ifs at h
      rw [← Option.some.inj h]
  rw [Elements.SixDigits, hy]
  exact parseYear_mem hyear

/-- The year of the date in a text of `toString` has four digits. -/
lemma parseDayMonthYear_mem {s rest : Bytes} {day mon year : ℤ}
    (h : parseDayMonthYear s = some (day, mon, year, rest)) : 0 ≤ year ∧ year < 10000 := by
  have hread : ∃ r r', readInt 4 r = some (year, r') := by
    unfold parseDayMonthYear at h
    by_cases hcomma : s.head? = some (ch ',')
    · rw [if_pos hcomma] at h
      simp only [Option.bind_eq_bind, Option.bind_eq_some_iff, Option.some.injEq,
        Prod.mk.injEq] at h
      obtain ⟨_, -, _, -, _, -, _, -, r, -, ⟨y, r'⟩, hy, -, -, rfl, -⟩ := h
      exact ⟨r, r', hy⟩
    · rw [if_neg hcomma] at h
      simp only [Option.bind_eq_bind, Option.bind_eq_some_iff, Option.some.injEq,
        Prod.mk.injEq] at h
      obtain ⟨_, -, _, -, _, -, _, -, r, -, ⟨y, r'⟩, hy, -, -, rfl, -⟩ := h
      exact ⟨r, r', hy⟩
  obtain ⟨r, r', hy⟩ := hread
  exact readInt_mem hy

/-- The year of the elements of a text of `toString` has four digits. -/
lemma tostringElements_sixDigits {s : Bytes} {e : Elements} (h : tostringElements s = some e) :
    e.SixDigits := by
  unfold tostringElements at h
  split_ifs at h
  obtain ⟨⟨day, mon, year, s'⟩, hdate, h⟩ := Option.bind_eq_some_iff.mp h
  dsimp only at h
  obtain ⟨s'', -, h⟩ := Option.bind_eq_some_iff.mp h
  have hy : e.year = year := by
    unfold timeGmtElements at h
    obtain ⟨⟨hour, r⟩, -, h⟩ := Option.bind_eq_some_iff.mp h
    dsimp only at h
    obtain ⟨r, -, h⟩ := Option.bind_eq_some_iff.mp h
    obtain ⟨⟨minute, r⟩, -, h⟩ := Option.bind_eq_some_iff.mp h
    dsimp only at h
    obtain ⟨r, -, h⟩ := Option.bind_eq_some_iff.mp h
    obtain ⟨⟨second, r⟩, -, h⟩ := Option.bind_eq_some_iff.mp h
    dsimp only at h
    obtain ⟨r, -, h⟩ := Option.bind_eq_some_iff.mp h
    obtain ⟨⟨zone, r⟩, -, h⟩ := Option.bind_eq_some_iff.mp h
    dsimp only at h
    split_ifs at h
    rw [← Option.some.inj h]
  have := parseDayMonthYear_mem hdate
  unfold Elements.SixDigits
  omega

/-! ### The date time strings of the standard -/

/-- The date of a date time string: a year, with a month, with a month and a day. -/
inductive EsDate where
  | year
  | month (month : ℤ)
  | day (month day : ℤ)

/-- The time of a date time string: an hour and a minute, with a second, with milliseconds. -/
inductive EsTime where
  | minute (hour minute : ℤ)
  | second (hour minute second : ℤ)
  | milli (hour minute second milli : ℤ)

/-- The zone of a date time string: `Z` or an offset. -/
inductive EsZone where
  | utc
  | offset (minus : Bool) (hours minutes : ℤ)

/-- A date time string of the standard that has no time or a time with a zone.  `expanded` says
that the year is written with a sign and six digits. -/
structure EsDateTime where
  expanded : Bool
  year : ℤ
  date : EsDate
  time : Option (EsTime × EsZone)

/-- The text of a year. -/
def esYear (expanded : Bool) (year : ℤ) : Bytes :=
  if expanded then (if year < 0 then ch '-' else ch '+') :: padded 6 |year| else padded 4 year

/-- The text of a date after its year. -/
def EsDate.text : EsDate → Bytes
  | .year => []
  | .month m => ch '-' :: padded 2 m
  | .day m d => ch '-' :: (padded 2 m ++ ch '-' :: padded 2 d)

/-- The text of a time. -/
def EsTime.text : EsTime → Bytes
  | .minute h m => padded 2 h ++ ch ':' :: padded 2 m
  | .second h m s => padded 2 h ++ ch ':' :: (padded 2 m ++ ch ':' :: padded 2 s)
  | .milli h m s ms =>
    padded 2 h ++ ch ':' :: (padded 2 m ++ ch ':' :: (padded 2 s ++ ch '.' :: padded 3 ms))

/-- The text of a zone. -/
def EsZone.text : EsZone → Bytes
  | .utc => [ch 'Z']
  | .offset minus h m => (if minus then ch '-' else ch '+') :: (padded 2 h ++ ch ':' :: padded 2 m)

/-- The text of a time and its zone. -/
def esTail : Option (EsTime × EsZone) → Bytes
  | none => []
  | some (time, zone) => ch 'T' :: (time.text ++ zone.text)

/-- The text of a date time string. -/
def EsDateTime.text (x : EsDateTime) : Bytes :=
  esYear x.expanded x.year ++ (x.date.text ++ esTail x.time)

/-- The month and the day of a date. -/
def EsDate.elements : EsDate → ℤ × ℤ
  | .year => (1, 1)
  | .month m => (m, 1)
  | .day m d => (m, d)

/-- The hour, the minute, the second and the milliseconds of a time. -/
def EsTime.elements : EsTime → ℤ × ℤ × ℤ × ℤ
  | .minute h m => (h, m, 0, 0)
  | .second h m s => (h, m, s, 0)
  | .milli h m s ms => (h, m, s, ms)

/-- The zone, as the reader has it. -/
def EsZone.elements : EsZone → IsoZone
  | .utc => .utc
  | .offset minus h m => .offset (if minus then -1 else 1) h m

/-- The elements of a date time string. -/
def EsDateTime.elements (x : EsDateTime) : Elements :=
  match x.time with
  | none => ⟨decide (x.year < 0), x.year, x.date.elements.1, x.date.elements.2, 0, 0, 0, 0, .utc⟩
  | some (time, zone) =>
    ⟨decide (x.year < 0), x.year, x.date.elements.1, x.date.elements.2, time.elements.1,
      time.elements.2.1, time.elements.2.2.1, time.elements.2.2.2, zone.elements⟩

/-- The date time string is legal: its year fits, and its elements are in range. -/
structure EsDateTime.Legal (x : EsDateTime) : Prop where
  year : if x.expanded then -999999 ≤ x.year ∧ x.year ≤ 999999 else 0 ≤ x.year ∧ x.year ≤ 9999
  elements : x.elements.InRange

/-- The year is read. -/
lemma parseYear_esYear {expanded : Bool} {y : ℤ}
    (hy : if expanded then -999999 ≤ y ∧ y ≤ 999999 else 0 ≤ y ∧ y ≤ 9999) (rest : Bytes) :
    parseYear (esYear expanded y ++ rest) = some (y, rest) ∧
      ((esYear expanded y ++ rest).head? = some (ch '-') ↔ y < 0) := by
  cases expanded with
  | true =>
    simp only [if_true] at hy
    have hread := readInt_padded (w := 6) (x := |y|) (abs_nonneg y)
      (by rw [abs_lt]; constructor <;> omega) rest
    by_cases hneg : y < 0
    · rw [abs_of_neg hneg] at hread
      simp [esYear, hneg, parseYear, abs_of_neg hneg, hread, show ¬ ch '-' = ch '+' by decide]
    · rw [abs_of_nonneg (by omega)] at hread
      simp [esYear, hneg, parseYear, abs_of_nonneg (not_lt.mp hneg), hread,
        show ¬ ch '+' = ch '-' by decide]
  | false =>
    simp only [Bool.false_eq_true, if_false] at hy
    obtain ⟨c, s, hcons, hc⟩ := exists_zeroPadded_eq_cons (w := 4) (by omega) y.natAbs
    have hread := readInt_padded (w := 4) hy.1 (by omega) rest
    have hp := ne_of_isDigit hc (b := ch '+') (by decide)
    have hm := ne_of_isDigit hc (b := ch '-') (by decide)
    rw [padded_of_nonneg 4 hy.1, hcons, List.cons_append] at hread
    simp only [esYear, Bool.false_eq_true, if_false, padded_of_nonneg 4 hy.1, hcons,
      List.cons_append, List.head?_cons, Option.some.injEq, hm, false_iff, parseYear, hp]
    exact ⟨hread, by omega⟩

/-- The date is read, in front of a text that does not begin with a hyphen. -/
lemma parseMonthDay_esDate {date : EsDate} (hm : 1 ≤ date.elements.1 ∧ date.elements.1 ≤ 12)
    (hd : 1 ≤ date.elements.2 ∧ date.elements.2 ≤ 31) {r : Bytes}
    (hrest : r.head? ≠ some (ch '-')) :
    parseMonthDay (date.text ++ r) = some (date.elements.1, date.elements.2, r) := by
  cases date with
  | year => simp [EsDate.text, EsDate.elements, parseMonthDay, hrest]
  | month m =>
    simp only [EsDate.elements] at hm
    simp [EsDate.text, EsDate.elements, parseMonthDay, hrest,
      readInt_padded (w := 2) (x := m) (by omega) (by omega)]
  | day m d =>
    simp only [EsDate.elements] at hm hd
    simp [EsDate.text, EsDate.elements, parseMonthDay,
      readInt_padded (w := 2) (x := m) (by omega) (by omega),
      readInt_padded (w := 2) (x := d) (by omega) (by omega)]

/-- A zone begins with none of the bytes that continue a time. -/
lemma head_esZone (zone : EsZone) :
    ∃ b s, zone.text = b :: s ∧ isDigit b = false ∧ b ≠ ch ':' ∧ b ≠ ch '.' := by
  cases zone with
  | utc => exact ⟨_, _, rfl, by decide, by decide, by decide⟩
  | offset minus h m =>
    cases minus
    · exact ⟨_, _, rfl, by decide, by decide, by decide⟩
    · exact ⟨_, _, rfl, by decide, by decide, by decide⟩

/-- The time is read, in front of a zone. -/
lemma parseClock_esTime {time : EsTime}
    (hh : 0 ≤ time.elements.1 ∧ time.elements.1 ≤ 24)
    (hmi : 0 ≤ time.elements.2.1 ∧ time.elements.2.1 ≤ 59)
    (hs : 0 ≤ time.elements.2.2.1 ∧ time.elements.2.2.1 ≤ 59)
    (hml : 0 ≤ time.elements.2.2.2 ∧ time.elements.2.2.2 ≤ 999) (zone : EsZone) :
    parseClock (time.text ++ zone.text) =
      some (time.elements.1, time.elements.2.1, time.elements.2.2.1, time.elements.2.2.2,
        zone.text) := by
  obtain ⟨b, rest, hzone, hdigit, hcolon, hdot⟩ := head_esZone zone
  rw [hzone]
  cases time with
  | minute h m =>
    simp only [EsTime.elements] at hh hmi
    simp [EsTime.text, EsTime.elements, parseClock, hcolon,
      readInt_padded (w := 2) (x := h) (by omega) (by omega),
      readInt_padded (w := 2) (x := m) (by omega) (by omega)]
  | second h m s =>
    simp only [EsTime.elements] at hh hmi hs
    simp [EsTime.text, EsTime.elements, parseClock, hdot,
      readInt_padded (w := 2) (x := h) (by omega) (by omega),
      readInt_padded (w := 2) (x := m) (by omega) (by omega),
      readInt_padded (w := 2) (x := s) (by omega) (by omega)]
  | milli h m s ms =>
    simp only [EsTime.elements] at hh hmi hs hml
    simp [EsTime.text, EsTime.elements, parseClock,
      readInt_padded (w := 2) (x := h) (by omega) (by omega),
      readInt_padded (w := 2) (x := m) (by omega) (by omega),
      readInt_padded (w := 2) (x := s) (by omega) (by omega),
      parseMilli_padded hml.1 (by omega) hdigit]

/-- The zone is read, at the end of the text. -/
lemma parseIsoZone_esZone {zone : EsZone} (h : zone.elements.InRange) :
    parseIsoZone zone.text = some (zone.elements, []) := by
  cases zone with
  | utc => rfl
  | offset minus hours minutes =>
    obtain ⟨-, hh, hm⟩ := h
    have hhour := readInt_padded (w := 2) (x := hours) hh.1 (by omega)
      (ch ':' :: padded 2 minutes)
    have hminute := readInt_padded (w := 2) (x := minutes) hm.1 (by omega) []
    rw [List.append_nil] at hminute
    cases minus
    · simp [EsZone.text, EsZone.elements, parseIsoZone, hhour, hminute,
        show ¬ ch '+' = ch 'Z' by decide]
    · simp [EsZone.text, EsZone.elements, parseIsoZone, hhour, hminute,
        show ¬ ch '-' = ch 'Z' by decide, show ¬ ch '-' = ch '+' by decide]

/-- A legal date time string is read to its elements. -/
theorem isoElements_text {x : EsDateTime} (h : x.Legal) : isoElements x.text = some x.elements := by
  obtain ⟨hyear, hlegal⟩ := h
  have hmonth := hlegal.month
  have hday : 1 ≤ x.elements.day ∧ x.elements.day ≤ 31 :=
    ⟨hlegal.day.1, hlegal.day.2.trans (daysInMonth_mem _ _).2⟩
  unfold isoElements EsDateTime.text
  obtain ⟨hread, hminus⟩ := parseYear_esYear hyear (x.date.text ++ esTail x.time)
  have hsign : decide ((esYear x.expanded x.year ++ (x.date.text ++ esTail x.time)).head? =
      some (ch '-')) = decide (x.year < 0) := decide_eq_decide.mpr hminus
  rw [hread, hsign]
  simp only [Option.bind_eq_bind, Option.bind_some]
  rcases htime : x.time with _ | ⟨time, zone⟩
  · simp only [EsDateTime.elements, htime] at hmonth hday ⊢
    have hdate := parseMonthDay_esDate hmonth hday (r := []) (by simp)
    rw [List.append_nil] at hdate
    simp [esTail, hdate]
  · have hhour := hlegal.hour
    have hminute := hlegal.minute
    have hsecond := hlegal.second
    have hmilli := hlegal.milli
    have hzone := hlegal.zone
    simp only [EsDateTime.elements, htime] at hmonth hday hhour hminute hsecond hmilli hzone ⊢
    have hdate := parseMonthDay_esDate hmonth hday
      (r := ch 'T' :: (time.text ++ zone.text))
      (by simp [show ¬ ch 'T' = ch '-' by decide])
    have hclock := parseClock_esTime ⟨by omega, by omega⟩ hminute hsecond hmilli zone
    simp [esTail, hdate, hclock, parseIsoZone_esZone hzone]

/-! ### Illegal elements -/

/-- What the standard demands of the two readers on a text: what they read is in range, and the
time value is the instant that the elements denote; a legal date time string is accepted; and no
operation leaves the range of its type. -/
structure RefusesIllegal (host : HostZone) (s : Bytes) : Prop where
  iso : ∀ t, parseIsoBytes host s = some t →
    ∃ e, isoElements s = some e ∧ e.InRange ∧ t = e.instant host
  tostring : ∀ t, parseTostringBytes s = some t →
    ∃ e, tostringElements s = some e ∧ e.InRange ∧ t = e.instant host
  accepted : ∀ x : EsDateTime, x.Legal → x.text = s → (parseIsoBytes host s).isSome
  arithmetic : ∀ e, isoElements s = some e ∨ tostringElements s = some e →
    e.checkedToMs host = some (e.toMs host)
  digits : ∀ r, r <:+ s → ∀ n ≤ 6, ∀ v rest, readInt n r = some (v, rest) → 0 ≤ v ∧ v < 1000000
  milli : ∀ r, r <:+ s → 0 ≤ (parseMilli 3 0 r).1 ∧ (parseMilli 3 0 r).1 < 1000

/-- The elements are legal, and their year is not taken for another. -/
def Elements.Legal (e : Elements) : Prop := e.InRange ∧ ¬ e.FirstCentury

/-- Elements are read as the instant that they denote exactly when they are legal, as far as
they are in range. -/
lemma Elements.legal_iff (host : HostZone) {e : Elements} (hy : e.SixDigits) :
    e.Legal ↔ e.InRange ∧ e.toMs host = e.instant host := by
  refine and_congr_right fun h => ?_
  rw [toMs_eq_instant_taken host h hy]
  constructor
  · intro hcent
    have hyear : (if 0 ≤ e.year ∧ e.year < 100 then e.year + 1900 else e.year) = e.year :=
      if_neg hcent
    have htaken : e.taken = e := by
      unfold taken
      rw [hyear]
    rw [htaken]
  · intro heq hcent
    exact instant_taken_ne host h hcent heq

end Torajs.Date
