import ToraJs.Date.Parse

/-!
# Parsing printed dates

What the readers of `Date.parse` make of the texts that the three printers write.  A printed
field is read back as a field; the fields of a time value add up to it again.  The years that
the readers map to another century, and the ones that are printed in more than the four digits
they read, are the only ones that do not come back.
-/

namespace Torajs.Date

open Decimal

/-! ### Reading a printed number -/

/-- A number that is not negative is printed as its digits. -/
lemma padded_of_nonneg (w : ℕ) {x : ℤ} (h : 0 ≤ x) : padded w x = zeroPadded w x.natAbs :=
  if_neg (by omega)

/-- A nonempty numeral begins with a digit. -/
lemma exists_zeroPadded_eq_cons {w : ℕ} (hw : 0 < w) (n : ℕ) :
    ∃ c s, zeroPadded w n = c :: s ∧ isDigit c = true := by
  have hlen := length_zeroPadded w n
  obtain ⟨c, s, h⟩ : ∃ c s, zeroPadded w n = c :: s :=
    List.exists_cons_of_length_pos (by omega)
  refine ⟨c, s, h, isDigit_of_mem_zeroPadded (w := w) (n := n) ?_⟩
  rw [h]
  exact List.mem_cons_self

/-- Digits in front of a text are read. -/
lemma readInt_append {n : ℕ} {ds : Bytes} (hds : ∀ c ∈ ds, isDigit c = true) (hn : n ≤ ds.length)
    (rest : Bytes) :
    readInt n (ds ++ rest) = some ((readDigits (ds.take n) : ℤ), ds.drop n ++ rest) := by
  have hall : ((ds ++ rest).take n).all isDigit = true := by
    rw [List.take_append_of_le_length hn, List.all_eq_true]
    exact fun c hc => hds c (List.mem_of_mem_take hc)
  rw [readInt, if_neg (by rw [List.length_append]; omega), if_pos hall,
    List.take_append_of_le_length hn, List.drop_append_of_le_length hn]

/-- A number that fits into its width is read back. -/
lemma readInt_padded {w : ℕ} {x : ℤ} (h0 : 0 ≤ x) (h : x < 10 ^ w) (rest : Bytes) :
    readInt w (padded w x ++ rest) = some (x, rest) := by
  have hlt : x.natAbs < 10 ^ w := by
    zify
    rwa [abs_of_nonneg h0]
  have hlen := length_zeroPadded_of_lt hlt
  rw [padded_of_nonneg w h0, readInt_append (fun c hc => isDigit_of_mem_zeroPadded hc) hlen.ge,
    List.take_of_length_le hlen.le, List.drop_of_length_le hlen.le, readDigits_zeroPadded,
    List.nil_append, Int.natAbs_of_nonneg h0]

/-- A text that begins with no digit has no number. -/
lemma readInt_cons_eq_none {n : ℕ} (hn : 0 < n) {c : UInt8} (hc : isDigit c = false) (s : Bytes) :
    readInt n (c :: s) = none := by
  unfold readInt
  split_ifs with h1 h2
  · rfl
  · obtain ⟨n, rfl⟩ : ∃ m, n = m + 1 := ⟨n - 1, by omega⟩
    rw [List.take_succ_cons, List.all_cons, hc, Bool.false_and] at h2
    exact absurd h2 (by decide)
  · rfl

/-- A literal in front of a text is taken. -/
lemma eat_append (lit rest : Bytes) : eat lit (lit ++ rest) = some rest := by
  rw [eat, if_pos ⟨by rw [List.length_append]; omega, List.take_left⟩, List.drop_left]

/-- A literal of one byte in front of a text is taken. -/
lemma eat_cons (c : UInt8) (rest : Bytes) : eat [c] (c :: rest) = some rest :=
  eat_append [c] rest

/-- A literal of one byte is not taken where another byte stands. -/
lemma eat_cons_eq_none {c b : UInt8} (h : b ≠ c) (rest : Bytes) : eat [c] (b :: rest) = none := by
  refine if_neg fun hlit => h ?_
  simpa using hlit.2

/-- The digits of the milliseconds are read. -/
lemma parseMilli_append {ds : Bytes} (hds : ∀ c ∈ ds, isDigit c = true) (v : ℕ) {b : UInt8}
    (hb : isDigit b = false) (rest : Bytes) :
    parseMilli ds.length v (ds ++ b :: rest) =
      (((ds.foldl (fun v c => v * 10 + digitVal c) v : ℕ) : ℤ), b :: rest) := by
  induction ds generalizing v with
  | nil => simp [parseMilli, hb]
  | cons c ds ih =>
    rw [List.length_cons, List.cons_append, parseMilli, if_pos (hds c List.mem_cons_self),
      List.foldl_cons]
    have ih := ih (fun x hx => hds x (List.mem_cons_of_mem c hx)) (v * 10 + digitVal c)
    push_cast at ih
    exact ih

/-- The printed milliseconds are read back. -/
lemma parseMilli_padded {x : ℤ} (h0 : 0 ≤ x) (h : x < 1000) {b : UInt8} (hb : isDigit b = false)
    (rest : Bytes) : parseMilli 3 0 (padded 3 x ++ b :: rest) = (x, b :: rest) := by
  have hlt : x.natAbs < 10 ^ 3 := by omega
  have hlen := length_zeroPadded_of_lt hlt
  have hrun := parseMilli_append (fun c hc => isDigit_of_mem_zeroPadded (w := 3) (n := x.natAbs) hc)
    0 hb rest
  have hval : (zeroPadded 3 x.natAbs).foldl (fun v c => v * 10 + digitVal c) 0 = x.natAbs :=
    readDigits_zeroPadded 3 x.natAbs
  rw [hlen, hval, Int.natAbs_of_nonneg h0] at hrun
  rw [padded_of_nonneg 3 h0]
  exact hrun

/-! ### The fields of a time value -/

/-- A time value is valid when it is at most 100000000 days from the epoch. -/
def ValidTime (t : ℤ) : Prop := -8640000000000000 ≤ t ∧ t ≤ 8640000000000000

/-- A valid time value is that of a date that is not invalid. -/
lemma ValidTime.validMs {t : ℤ} (ht : ValidTime t) : validMs t = some t :=
  if_neg (by unfold ValidTime dateInvalid at *; omega)

/-- A valid time value is no failure. -/
lemma ValidTime.ne_dateParseFail {t : ℤ} (ht : ValidTime t) : dateParseFail ≠ t := by
  unfold ValidTime dateParseFail at *
  omega

/-- The fields of a time value in UTC: the day of the epoch and the time of the day. -/
lemma decompose_spec (t : ℤ) :
    ∃ hour minute second milli, (0 ≤ hour ∧ hour < 24) ∧ (0 ≤ minute ∧ minute < 60) ∧
      (0 ≤ second ∧ second < 60) ∧ (0 ≤ milli ∧ milli < 1000) ∧
      t = t / 86400000 * 86400000 + hour * 3600000 + minute * 60000 + second * 1000 + milli ∧
      decompose t = ⟨(civilFromDays (t / 86400000)).1, (civilFromDays (t / 86400000)).2.1,
        (civilFromDays (t / 86400000)).2.2, hour, minute, second, milli⟩ := by
  obtain ⟨tod, htod⟩ : ∃ tod, t - t / 86400000 * 86400000 = tod := ⟨_, rfl⟩
  have hnn : ¬ tod < 0 := by omega
  obtain ⟨hour, hhour⟩ : ∃ hour, tod / 3600000 = hour := ⟨_, rfl⟩
  obtain ⟨minute, hminute⟩ : ∃ minute, (tod - hour * 3600000) / 60000 = minute := ⟨_, rfl⟩
  obtain ⟨second, hsecond⟩ :
    ∃ second, (tod - hour * 3600000 - minute * 60000) / 1000 = second := ⟨_, rfl⟩
  refine ⟨hour, minute, second, tod - hour * 3600000 - minute * 60000 - second * 1000, by omega,
    by omega, by omega, by omega, by omega, ?_⟩
  simp only [decompose, htod, if_neg hnn, hhour, hminute, hsecond]

/-- The days of a valid time value are within the range of the calendar. -/
lemma ValidTime.days {t : ℤ} (ht : ValidTime t) :
    -200000000 ≤ t / 86400000 ∧ t / 86400000 ≤ 200000000 := by
  unfold ValidTime at ht
  omega

/-- The fields of a date in UTC add up to the days of the date and the time of the day; the
years of the first century count as those of the twentieth. -/
lemma utcComponentsToMs_eq {y m d : ℤ} (hy : -1000000 ≤ y ∧ y ≤ 1000000) (hm : 1 ≤ m ∧ m ≤ 12)
    (hd : 1 ≤ d ∧ d ≤ 31) (hour minute second milli : ℤ) :
    utcComponentsToMs y (m - 1) d hour minute second milli =
      daysFromCivil (if 0 ≤ y ∧ y < 100 then y + 1900 else y) m d * 86400000 +
        hour * 3600000 + minute * 60000 + second * 1000 + milli := by
  obtain ⟨w, hw⟩ : ∃ w, (if 0 ≤ y ∧ y < 100 then y + 1900 else y) = w := ⟨_, rfl⟩
  have hw' : -1000000 ≤ w ∧ w ≤ 1001900 := by split_ifs at hw <;> omega
  have hdiv : (m - 1) / 12 = 0 := by omega
  have hmod : (m - 1) % 12 = m - 1 := by omega
  simp only [utcComponentsToMs, hw, hdiv, hmod, add_zero]
  rw [if_neg (by omega), sub_add_cancel, asI32_of_mem (by omega) (by omega),
    asU32_of_mem (x := m) (by omega) (by omega), asU32_of_mem (by omega) (by omega)]

/-- The fields of a number of days and a time of the day, composed again: they give the time
value exactly when the year is none of the first century. -/
lemma utcComponentsToMs_civilFromDays {z : ℤ} (hz : -200000000 ≤ z ∧ z ≤ 200000000)
    {hour minute second milli v : ℤ}
    (hv : v = z * 86400000 + hour * 3600000 + minute * 60000 + second * 1000 + milli) :
    utcComponentsToMs (civilFromDays z).1 ((civilFromDays z).2.1 - 1) (civilFromDays z).2.2
        hour minute second milli = v ↔
      ¬ (0 ≤ (civilFromDays z).1 ∧ (civilFromDays z).1 ≤ 99) := by
  have hmem := civilFromDays_mem hz
  have hyear := civilFromDays_year hz
  have hback := daysFromCivil_civilFromDays hz
  rw [utcComponentsToMs_eq ⟨by omega, by omega⟩ hmem.1 hmem.2]
  by_cases hcent : 0 ≤ (civilFromDays z).1 ∧ (civilFromDays z).1 < 100
  · have hlt := daysFromCivil_lt hmem.1 hmem.2
      (by omega : (civilFromDays z).1 < (civilFromDays z).1 + 1900)
    rw [if_pos hcent]
    constructor
    · intro h
      omega
    · intro h
      exact absurd ⟨hcent.1, by omega⟩ h
  · rw [if_neg hcent, hback]
    constructor
    · intro _ h
      exact hcent ⟨h.1, by omega⟩
    · intro _
      omega

/-! ### `toISOString` -/

/-- A digit is none of the bytes that stand between fields. -/
lemma ne_of_isDigit {c b : UInt8} (hc : isDigit c = true) (hb : isDigit b = false) : c ≠ b := by
  rintro rfl
  rw [hc] at hb
  exact absurd hb (by decide)

/-- The printed ISO year is read back. -/
lemma parseYear_fmtIsoYear {y : ℤ} (hy : -999999 ≤ y ∧ y ≤ 999999) (rest : Bytes) :
    parseYear (fmtIsoYear y ++ rest) = some (y, rest) := by
  unfold fmtIsoYear
  split_ifs with hfour hneg
  · obtain ⟨c, s, hcons, hc⟩ := exists_zeroPadded_eq_cons (w := 4) (by omega) y.natAbs
    have hread := readInt_padded (w := 4) hfour.1 (by omega) rest
    rw [padded_of_nonneg 4 hfour.1, hcons, List.cons_append] at *
    rw [parseYear, List.head?_cons,
      if_neg (by simpa using ne_of_isDigit hc (b := ch '+') (by decide)),
      if_neg (by simpa using ne_of_isDigit hc (b := ch '-') (by decide))]
    exact hread
  · rw [List.cons_append, parseYear, List.head?_cons, if_neg (by decide), if_pos rfl,
      List.tail_cons, readInt_padded (by omega) (by omega)]
    simp
  · rw [List.cons_append, parseYear, List.head?_cons, if_pos rfl, List.tail_cons,
      readInt_padded (by omega) (by omega)]

/-- The printed month and day are read back. -/
lemma parseMonthDay_padded {m d : ℤ} (hm : 1 ≤ m ∧ m ≤ 12) (hd : 1 ≤ d ∧ d ≤ 31) (rest : Bytes) :
    parseMonthDay (ch '-' :: (padded 2 m ++ ch '-' :: (padded 2 d ++ rest))) =
      some (m, d, rest) := by
  simp [parseMonthDay, readInt_padded (w := 2) (x := m) (by omega) (by omega),
    readInt_padded (w := 2) (x := d) (by omega) (by omega)]

/-- The printed time of the day is read back. -/
lemma parseClock_fmtClock {hour minute second milli : ℤ} (hh : 0 ≤ hour ∧ hour < 24)
    (hmi : 0 ≤ minute ∧ minute < 60) (hs : 0 ≤ second ∧ second < 60)
    (hml : 0 ≤ milli ∧ milli < 1000) (rest : Bytes) :
    parseClock (fmtClock hour minute second
        (ch '.' :: (padded 3 milli ++ ch 'Z' :: rest))) =
      some (hour, minute, second, milli, ch 'Z' :: rest) := by
  simp [parseClock, fmtClock, readInt_padded (w := 2) (x := hour) (by omega) (by omega),
    readInt_padded (w := 2) (x := minute) (by omega) (by omega),
    readInt_padded (w := 2) (x := second) (by omega) (by omega),
    parseMilli_padded hml.1 hml.2 (b := ch 'Z') (by decide)]

/-- A printed ISO text is read as its fields. -/
lemma parseIsoBytes_printed (zone : HostZone) {y m d hour minute second milli : ℤ}
    (hy : -999999 ≤ y ∧ y ≤ 999999) (hm : 1 ≤ m ∧ m ≤ 12) (hd : 1 ≤ d ∧ d ≤ 31)
    (hh : 0 ≤ hour ∧ hour < 24) (hmi : 0 ≤ minute ∧ minute < 60)
    (hs : 0 ≤ second ∧ second < 60) (hml : 0 ≤ milli ∧ milli < 1000) :
    parseIsoBytes zone (fmtIsoYear y ++ ch '-' :: (padded 2 m ++ ch '-' :: (padded 2 d ++
        ch 'T' :: fmtClock hour minute second (ch '.' :: (padded 3 milli ++ [ch 'Z']))))) =
      some (utcComponentsToMs y (m - 1) d hour minute second milli) := by
  rw [parseIsoBytes, parseYear_fmtIsoYear hy]
  simp only [Option.bind_eq_bind, Option.bind_some, parseMonthDay_padded hm hd, List.head?_cons,
    List.tail_cons, parseClock_fmtClock hh hmi hs hml]
  simp [parseIsoZone]

/-- The parser reads the text of `toISOString` back to its time value exactly when the year is
none of the first century. -/
lemma parseIso_dateToIsoString (zone : HostZone) {t : ℤ} (ht : ValidTime t) :
    ∃ s, dateToIsoString t = .ok s ∧
      (parseIso zone s = t ↔ ¬ (0 ≤ (decompose t).year ∧ (decompose t).year ≤ 99)) := by
  obtain ⟨hour, minute, second, milli, hh, hmi, hs, hml, hsum, heq⟩ := decompose_spec t
  have hyear := civilFromDays_year ht.days
  have hmem := civilFromDays_mem ht.days
  refine ⟨_, by rw [dateToIsoString, ht.validMs], ?_⟩
  rw [parseIso, heq, parseIsoBytes_printed zone ⟨by linarith, by linarith⟩ hmem.1 hmem.2 hh hmi hs hml,
    Option.some_or, Option.getD_some]
  exact utcComponentsToMs_civilFromDays ht.days hsum

/-! ### `toUTCString` and `toString` -/

/-- The name of a day of the week: three letters. -/
lemma dayNames_spec {k : ℕ} (hk : k < 7) :
    ∃ a b c, dayNames.getD k [] = [a, b, c] ∧ isDigit a = false ∧ a ≠ ch '+' ∧ a ≠ ch '-' ∧
      [a, b, c].all isAsciiAlphabetic = true := by
  have hall : ∀ k < 7, ∃ n ∈ dayNames, dayNames.getD k [] = n := by decide
  have hname : ∀ n ∈ dayNames, n = [n.getD 0 0, n.getD 1 0, n.getD 2 0] ∧
      isDigit (n.getD 0 0) = false ∧ n.getD 0 0 ≠ ch '+' ∧ n.getD 0 0 ≠ ch '-' ∧
      [n.getD 0 0, n.getD 1 0, n.getD 2 0].all isAsciiAlphabetic = true := by decide
  obtain ⟨n, hn, heq⟩ := hall k hk
  obtain ⟨hcons, h⟩ := hname n hn
  exact ⟨_, _, _, heq.trans hcons, h⟩

/-- The name of a month is read as the month. -/
lemma monthFromName_append {k : ℤ} (h0 : 0 ≤ k) (h : k < 12) (rest : Bytes) :
    monthFromName (monthNames.getD k.toNat [] ++ rest) = some (k, rest) := by
  have hall : ∀ j < 12, (monthNames.getD j []).length = 3 ∧
      (monthNames.findIdx? fun n => n == monthNames.getD j []) = some j := by decide
  obtain ⟨hlen, hfind⟩ := hall k.toNat (by omega)
  rw [monthFromName, if_neg (by rw [List.length_append]; omega), ← hlen, List.take_left,
    List.drop_left, hfind]
  simp only [Int.toNat_of_nonneg h0]

/-- A text that begins with a letter is no ISO text. -/
lemma parseIsoBytes_cons_eq_none (zone : HostZone) {a : UInt8} (hd : isDigit a = false)
    (hp : a ≠ ch '+') (hm : a ≠ ch '-') (s : Bytes) : parseIsoBytes zone (a :: s) = none := by
  rw [parseIsoBytes, parseYear, List.head?_cons, if_neg (by simpa using hp),
    if_neg (by simpa using hm), readInt_cons_eq_none (by omega) hd]
  rfl

/-- The printed year in front of a blank: four digits are read back, and no other year is
read. -/
lemma readYear_fmtYearPadded (y : ℤ) (rest : Bytes) (f : ℤ → Bytes → Option ℤ) :
    ((readInt 4 (fmtYearPadded y ++ ch ' ' :: rest)).bind fun r =>
      (eat [ch ' '] r.2).bind fun s => f r.1 s) =
      if 0 ≤ y ∧ y ≤ 9999 then f y rest else none := by
  unfold fmtYearPadded
  by_cases hneg : y < 0
  · rw [if_pos hneg, List.cons_append, readInt_cons_eq_none (by omega) (by decide),
      if_neg (by omega)]
    rfl
  · rw [if_neg hneg]
    by_cases hfour : y ≤ 9999
    · rw [readInt_padded (by omega) (by omega), if_pos ⟨by omega, hfour⟩, Option.bind_some,
        eat_cons]
      rfl
    · -- a fifth digit stands where the blank is expected
      have hlen := lt_length_zeroPadded (w := 4) (n := y.natAbs) (by omega)
      have hdig : ∀ c ∈ zeroPadded 4 y.natAbs, isDigit c = true :=
        fun c hc => isDigit_of_mem_zeroPadded hc
      obtain ⟨b, s, hdrop⟩ : ∃ b s, (zeroPadded 4 y.natAbs).drop 4 = b :: s :=
        List.exists_cons_of_length_pos (by rw [List.length_drop]; omega)
      have hb : isDigit b = true :=
        hdig b (List.mem_of_mem_drop (by rw [hdrop]; exact List.mem_cons_self))
      rw [padded_of_nonneg 4 (by omega), readInt_append hdig hlen.le, Option.bind_some, hdrop,
        List.cons_append, eat_cons_eq_none (ne_of_isDigit hb (by decide)), if_neg (by omega)]
      rfl

/-- The date of `toUTCString` in front of a text: the date is read when its year has four
digits. -/
lemma parseTostringBytes_gmt {y m d : ℤ} (hm : 1 ≤ m ∧ m ≤ 12) (hd : 1 ≤ d ∧ d ≤ 31) {k : ℕ}
    (hk : k < 7) (rest : Bytes) :
    parseTostringBytes (dayNames.getD k [] ++ ascii [',', ' '] ++ (padded 2 d ++ ch ' ' ::
        (monthNames.getD (m - 1).toNat [] ++ ch ' ' :: (fmtYearPadded y ++ ch ' ' :: rest)))) =
      if 0 ≤ y ∧ y ≤ 9999 then parseTimeGmt d (m - 1) y rest else none := by
  obtain ⟨a, b, c, hname, -, -, -, hall⟩ := dayNames_spec hk
  have hday := readInt_padded (w := 2) (x := d) (by omega) (by omega)
  have hmon := monthFromName_append (k := m - 1) (by omega) (by omega)
  rw [hname, parseTostringBytes, if_neg (by simp), if_pos (by simpa using hall)]
  simp only [ascii, List.map_cons, List.map_nil, List.cons_append, List.nil_append,
    List.drop_succ_cons, List.drop_zero, parseDayMonthYear, List.head?_cons, if_true,
    List.tail_cons, eat_cons, Option.bind_eq_bind, Option.bind_some, hday, hmon,
    Option.bind_assoc]
  exact readYear_fmtYearPadded y rest (parseTimeGmt d (m - 1))

/-- The date of `toString` in front of a text: the date is read when its year has four
digits. -/
lemma parseTostringBytes_local {y m d : ℤ} (hm : 0 ≤ m ∧ m < 12) (hd : 1 ≤ d ∧ d ≤ 31) {k : ℕ}
    (hk : k < 7) (rest : Bytes) :
    parseTostringBytes (dayNames.getD k [] ++ ch ' ' :: (monthNames.getD m.toNat [] ++
        ch ' ' :: (padded 2 d ++ ch ' ' :: (fmtYearPadded y ++ ch ' ' :: rest)))) =
      if 0 ≤ y ∧ y ≤ 9999 then parseTimeGmt d m y rest else none := by
  obtain ⟨a, b, c, hname, -, -, -, hall⟩ := dayNames_spec hk
  have hday := readInt_padded (w := 2) (x := d) (by omega) (by omega)
  have hmon := monthFromName_append hm.1 hm.2
  have hcomma : ¬ some (ch ' ') = some (ch ',') := by decide
  rw [hname, parseTostringBytes, if_neg (by simp), if_pos (by simpa using hall)]
  simp only [List.cons_append, List.nil_append, List.drop_succ_cons, List.drop_zero,
    parseDayMonthYear, List.head?_cons, if_neg hcomma, eat_cons, Option.bind_eq_bind,
    Option.bind_some, hday, hmon, Option.bind_assoc]
  exact readYear_fmtYearPadded y rest (parseTimeGmt d m)

/-- The printed time of the day is read back, in front of what follows `GMT`. -/
lemma parseTimeGmt_fmtClock {hour minute second : ℤ} (hh : 0 ≤ hour ∧ hour < 24)
    (hmi : 0 ≤ minute ∧ minute < 60) (hs : 0 ≤ second ∧ second < 60) (day mon year : ℤ)
    (rest : Bytes) :
    parseTimeGmt day mon year
        (fmtClock hour minute second (ascii [' ', 'G', 'M', 'T'] ++ rest)) =
      (parseGmtOffset rest).bind fun r =>
        if skipZoneName r.2 ≠ [] then none
        else some (utcComponentsToMs year mon day hour minute second 0 - r.1) := by
  have hhour := readInt_padded (w := 2) (x := hour) (by omega) (by omega)
  have hminute := readInt_padded (w := 2) (x := minute) (by omega) (by omega)
  have hsecond := readInt_padded (w := 2) (x := second) (by omega) (by omega)
  simp only [parseTimeGmt, fmtClock, hhour, hminute, hsecond, eat_cons, eat_append,
    Option.bind_eq_bind, Option.bind_some]

/-- The text of `toUTCString`, by the fields of the time value. -/
lemma dateToGmtString_eq {t : ℤ} (ht : ValidTime t) :
    ∃ k < 7, dateToGmtString t = dayNames.getD k [] ++ ascii [',', ' '] ++
      (padded 2 (decompose t).day ++ ch ' ' ::
        (monthNames.getD ((decompose t).month - 1).toNat [] ++ ch ' ' ::
          (fmtYearPadded (decompose t).year ++ ch ' ' ::
            fmtClock (decompose t).hour (decompose t).minute (decompose t).second
              (ascii [' ', 'G', 'M', 'T'])))) := by
  have hnn : ¬ t - t / 86400000 * 86400000 < 0 := by omega
  refine ⟨(((t / 86400000).tmod 7 + 4 + 7).tmod 7).toNat, ?_, ?_⟩
  · have h0 : -7 < (t / 86400000).tmod 7 :=
      Int.neg_lt_of_neg_lt (by have := Int.tmod_lt_of_pos (-(t / 86400000)) (b := 7) (by omega)
                               rwa [Int.neg_tmod] at this)
    have hlt := Int.tmod_lt_of_pos ((t / 86400000).tmod 7 + 4 + 7) (b := 7) (by omega)
    omega
  · simp only [dateToGmtString, ht.validMs, decompose, hnn, decide_false, Bool.false_eq_true,
      if_false]

/-- The text of `toUTCString` is no ISO text, and its offset is none: the parser reads it back
to its time value exactly when its year has four digits and is none of the first century. -/
lemma parseIso_dateToGmtString (zone : HostZone) {t : ℤ} (ht : ValidTime t)
    (hsec : t % 1000 = 0) :
    parseIso zone (dateToGmtString t) = t ↔
      100 ≤ (decompose t).year ∧ (decompose t).year ≤ 9999 := by
  obtain ⟨hour, minute, second, milli, hh, hmi, hs, hml, hsum, heq⟩ := decompose_spec t
  have hmem := civilFromDays_mem ht.days
  obtain ⟨k, hk, htext⟩ := dateToGmtString_eq ht
  obtain ⟨a, b, c, hname, had, hap, ham, -⟩ := dayNames_spec hk
  have hmilli : milli = 0 := by omega
  have hiso : parseIsoBytes zone (dateToGmtString t) = none := by
    rw [htext, hname]
    exact parseIsoBytes_cons_eq_none zone had hap ham _
  have hclock := parseTimeGmt_fmtClock hh hmi hs (decompose t).day ((decompose t).month - 1)
    (decompose t).year []
  rw [List.append_nil] at hclock
  rw [parseIso, hiso, Option.none_or, htext, heq]
  rw [heq] at hclock
  dsimp only at hclock ⊢
  rw [parseTostringBytes_gmt hmem.1 hmem.2 hk, hclock]
  have hback := utcComponentsToMs_civilFromDays ht.days hsum
  rw [hmilli] at hback
  by_cases hfour : 0 ≤ (civilFromDays (t / 86400000)).1 ∧ (civilFromDays (t / 86400000)).1 ≤ 9999
  · rw [if_pos hfour]
    have hval : (parseGmtOffset []).bind (fun r => if skipZoneName r.2 ≠ [] then none
        else some (utcComponentsToMs (civilFromDays (t / 86400000)).1
          ((civilFromDays (t / 86400000)).2.1 - 1) (civilFromDays (t / 86400000)).2.2
            hour minute second 0 - r.1)) =
        some (utcComponentsToMs (civilFromDays (t / 86400000)).1
          ((civilFromDays (t / 86400000)).2.1 - 1) (civilFromDays (t / 86400000)).2.2
            hour minute second 0) := by
      simp [parseGmtOffset, skipZoneName]
    rw [hval, Option.getD_some, hback]
    omega
  · rw [if_neg hfour, Option.getD_none]
    constructor
    · intro h
      exact absurd h ht.ne_dateParseFail
    · intro h
      omega

/-! ### The offset of a zone -/

/-- The rest of the text of `toString` after the offset. -/
lemma skipZoneName_zone (name : Bytes) :
    skipZoneName (ascii [' ', '('] ++ name ++ [ch ')']) = [] := by
  have hlast : (ascii [' ', '('] ++ name ++ [ch ')']).getLast? = some (ch ')') := by
    rw [List.getLast?_append, List.getLast?_singleton]
    rfl
  exact if_pos ⟨rfl, rfl, hlast⟩

/-- A whole number of minutes, from its hours and minutes. -/
lemma offset_eq {offs : ℤ} (h : offs % 60 = 0) :
    ((offs.natAbs : ℤ) / 3600 * 60 + (offs.natAbs : ℤ) / 60 % 60) * 60000 *
      (if offs < 0 then -1 else 1) = offs * 1000 := by
  split_ifs <;> omega

/-- A text whose rest begins with a digit is not read to its end. -/
lemma skipZoneName_cons {c : UInt8} (hc : isDigit c = true) (s : Bytes) :
    skipZoneName (c :: s) = c :: s := by
  refine if_neg fun h => ne_of_isDigit hc (b := ch ' ') (by decide) ?_
  simpa using h.1

/-- The printed offset is read back when its hours have two digits; else the text is refused. -/
lemma parseGmtOffset_printed {offs : ℤ} (h : offs % 60 = 0) (name : Bytes)
    (f : ℤ → Option ℤ) :
    ((parseGmtOffset ((if offs < 0 then ch '-' else ch '+') ::
        (padded 2 ((offs.natAbs : ℤ) / 3600) ++ (padded 2 ((offs.natAbs : ℤ) / 60 % 60) ++
          (ascii [' ', '('] ++ name ++ [ch ')']))))).bind fun r =>
        if skipZoneName r.2 ≠ [] then none else f r.1) =
      if offs.natAbs < 360000 then f (offs * 1000) else none := by
  have hoff := offset_eq h
  obtain ⟨hh, hhh⟩ : ∃ hh, (offs.natAbs : ℤ) / 3600 = hh := ⟨_, rfl⟩
  obtain ⟨mm, hmm⟩ : ∃ mm, (offs.natAbs : ℤ) / 60 % 60 = mm := ⟨_, rfl⟩
  obtain ⟨tail, htail⟩ : ∃ tail, ascii [' ', '('] ++ name ++ [ch ')'] = tail := ⟨_, rfl⟩
  have hskip : skipZoneName tail = [] := by rw [← htail, skipZoneName_zone]
  rw [hhh, hmm] at hoff
  rw [hhh, hmm, htail]
  obtain ⟨sign, hsign⟩ : ∃ sign, (if offs < 0 then ch '-' else ch '+') = sign := ⟨_, rfl⟩
  have hsgn : (some sign = some (ch '+') ∨ some sign = some (ch '-')) ∧
      (if some sign = some (ch '+') then (1 : ℤ) else -1) = if offs < 0 then -1 else 1 := by
    split_ifs at hsign with hneg <;> subst hsign <;> simp only [hneg, if_true, if_false] <;> decide
  rw [hsign, parseGmtOffset, List.head?_cons, if_pos hsgn.1, hsgn.2, List.tail_cons]
  by_cases hlt : offs.natAbs < 360000
  · have hhour := readInt_padded (w := 2) (x := hh) (by omega) (by omega)
    have hminute := readInt_padded (w := 2) (x := mm) (by omega) (by omega)
    simp only [hhour, hminute, Option.bind_eq_bind, Option.bind_some, hskip, hoff, if_pos hlt,
      ne_eq, not_true_eq_false, if_false]
  · -- the third digit of the hours is left over
    have hds : ∀ c ∈ zeroPadded 2 hh.natAbs ++ zeroPadded 2 mm.natAbs, isDigit c = true := by
      intro c hc
      rcases List.mem_append.mp hc with hc | hc <;> exact isDigit_of_mem_zeroPadded hc
    obtain ⟨ds, hdef⟩ : ∃ ds, zeroPadded 2 hh.natAbs ++ zeroPadded 2 mm.natAbs = ds := ⟨_, rfl⟩
    have hlen : 4 < ds.length := by
      have h1 := lt_length_zeroPadded (w := 2) (n := hh.natAbs) (by omega)
      have h2 := length_zeroPadded 2 mm.natAbs
      rw [← hdef, List.length_append]
      omega
    rw [hdef] at hds
    obtain ⟨c, s, hcons⟩ : ∃ c s, (ds.drop 2).drop 2 = c :: s :=
      List.exists_cons_of_length_pos (by rw [List.length_drop, List.length_drop]; omega)
    have hc : isDigit c = true :=
      hds c (List.mem_of_mem_drop (List.mem_of_mem_drop (by rw [hcons]; exact List.mem_cons_self)))
    have hrest : ∀ c ∈ ds.drop 2, isDigit c = true := fun x hx => hds x (List.mem_of_mem_drop hx)
    have hhour := readInt_append (n := 2) hds (by omega) tail
    have hminute := readInt_append (n := 2) hrest (by rw [List.length_drop]; omega) tail
    rw [if_neg hlt, padded_of_nonneg 2 (by omega), padded_of_nonneg 2 (by omega),
      ← List.append_assoc, hdef]
    simp only [hhour, hminute, Option.bind_eq_bind, Option.bind_some, hcons, List.cons_append,
      skipZoneName_cons hc, ne_eq, List.cons_ne_nil, not_false_eq_true, if_true]

/-- The local time of a valid time value: the day and the time of the day of the shifted
second. -/
lemma localtimeDecompose_spec (zone : HostZone) (t : ℤ) :
    ∃ z hour minute second, (0 ≤ hour ∧ hour < 24) ∧ (0 ≤ minute ∧ minute < 60) ∧
      (0 ≤ second ∧ second < 60) ∧
      t / 1000 + zone.localUtoff (t / 1000) = z * 86400 + hour * 3600 + minute * 60 + second ∧
      localtimeDecompose zone t = ⟨second, minute, hour, (civilFromDays z).2.2,
        (civilFromDays z).2.1 - 1, (civilFromDays z).1 - 1900, (z % 7 + 4) % 7, 0, 0⟩ := by
  obtain ⟨l, hl⟩ : ∃ l, t / 1000 + zone.localUtoff (t / 1000) = l := ⟨_, rfl⟩
  refine ⟨l / 86400, l % 86400 / 3600, l % 86400 / 60 % 60, l % 86400 % 60, by omega, by omega,
    by omega, by omega, ?_⟩
  simp only [localtimeDecompose, hl]

/-- The parser reads the text of `toString` back to its time value exactly when its year has four
digits and is none of the first century, and the hours of its offset have two digits. -/
lemma parseIso_dateToString (zone : HostZone) {t : ℤ} (ht : ValidTime t) (hsec : t % 1000 = 0)
    (hoff : zone.localUtoff (t / 1000) % 60 = 0) :
    parseIso zone (dateToString zone t) = t ↔
      (100 ≤ (localtimeDecompose zone t).tmYear + 1900 ∧
        (localtimeDecompose zone t).tmYear + 1900 ≤ 9999) ∧
          (zone.localUtoff (t / 1000)).natAbs < 360000 := by
  obtain ⟨z, hour, minute, second, hh, hmi, hs, hsum, heq⟩ := localtimeDecompose_spec zone t
  obtain ⟨offs, hoffs⟩ : ∃ offs, zone.localUtoff (t / 1000) = offs := ⟨_, rfl⟩
  have hmemOff := zone.localUtoff_mem (t / 1000)
  obtain ⟨name, hname⟩ : ∃ name, (zone.zoneLongName (t / 1000)).getD (fmtGmt offs) = name :=
    ⟨_, rfl⟩
  rw [hoffs] at hoff hsum hmemOff
  have hz : -200000000 ≤ z ∧ z ≤ 200000000 := by
    unfold ValidTime at ht
    omega
  have hmem := civilFromDays_mem hz
  have htext : dateToString zone t = dayNames.getD ((z % 7 + 4) % 7).toNat [] ++ ch ' ' ::
      (monthNames.getD ((civilFromDays z).2.1 - 1).toNat [] ++ ch ' ' ::
        (padded 2 (civilFromDays z).2.2 ++ ch ' ' :: (fmtYearPadded (civilFromDays z).1 ++ ch ' ' ::
          fmtClock hour minute second (ascii [' ', 'G', 'M', 'T'] ++
            ((if offs < 0 then ch '-' else ch '+') ::
              (padded 2 ((offs.natAbs : ℤ) / 3600) ++ (padded 2 ((offs.natAbs : ℤ) / 60 % 60) ++
                (ascii [' ', '('] ++ name ++ [ch ')'])))))))) := by
    simp only [dateToString, ht.validMs, hoffs, heq, hname, sub_add_cancel]
    simp [fmtGmt, ascii, List.append_assoc]
  obtain ⟨a, b, c, hday, had, hap, ham, -⟩ := dayNames_spec (k := ((z % 7 + 4) % 7).toNat) (by omega)
  have hiso : parseIsoBytes zone (dateToString zone t) = none := by
    rw [htext, hday]
    exact parseIsoBytes_cons_eq_none zone had hap ham _
  have hread := parseGmtOffset_printed hoff name fun offMs =>
    some (utcComponentsToMs (civilFromDays z).1 ((civilFromDays z).2.1 - 1) (civilFromDays z).2.2
      hour minute second 0 - offMs)
  rw [parseIso, hiso, Option.none_or, htext, parseTostringBytes_local ⟨by omega, by omega⟩ hmem.2
    (by omega), parseTimeGmt_fmtClock hh hmi hs, hread, heq, hoffs]
  dsimp only
  rw [sub_add_cancel]
  have hback : utcComponentsToMs (civilFromDays z).1 ((civilFromDays z).2.1 - 1)
        (civilFromDays z).2.2 hour minute second 0 = t + offs * 1000 ↔
      ¬ (0 ≤ (civilFromDays z).1 ∧ (civilFromDays z).1 ≤ 99) :=
    utcComponentsToMs_civilFromDays hz (by omega)
  by_cases hfour : 0 ≤ (civilFromDays z).1 ∧ (civilFromDays z).1 ≤ 9999
  · rw [if_pos hfour]
    by_cases hlt : offs.natAbs < 360000
    · rw [if_pos hlt, Option.getD_some, sub_eq_iff_eq_add, hback]
      omega
    · rw [if_neg hlt, Option.getD_none]
      exact ⟨fun h => absurd h ht.ne_dateParseFail, fun h => absurd h.2 hlt⟩
  · rw [if_neg hfour, Option.getD_none]
    exact ⟨fun h => absurd h ht.ne_dateParseFail, fun h => by omega⟩

/-! ### The three round trips -/

/-- For every valid time value: the text of `toISOString` is read back exactly when the UTC year
is none of the first century; and for a whole number of seconds, the text of `toUTCString` is
read back exactly when the UTC year is from 100 to 9999, and the text of `toString`, whatever
whole-minute offset is in force, exactly when the local year is from 100 to 9999 and the hours
of the offset have two digits. -/
theorem parse_format_iff {t : ℤ} (ht : ValidTime t) (zone : HostZone) :
    (∃ s, dateToIsoString t = .ok s ∧
      (parseIso zone s = t ↔ ¬ (0 ≤ (decompose t).year ∧ (decompose t).year ≤ 99))) ∧
    (t % 1000 = 0 →
      (parseIso zone (dateToGmtString t) = t ↔
        100 ≤ (decompose t).year ∧ (decompose t).year ≤ 9999) ∧
      (zone.localUtoff (t / 1000) % 60 = 0 →
        (parseIso zone (dateToString zone t) = t ↔
          (100 ≤ (localtimeDecompose zone t).tmYear + 1900 ∧
            (localtimeDecompose zone t).tmYear + 1900 ≤ 9999) ∧
              (zone.localUtoff (t / 1000)).natAbs < 360000))) :=
  ⟨parseIso_dateToIsoString zone ht, fun hsec =>
    ⟨parseIso_dateToGmtString zone ht hsec, fun hoff => parseIso_dateToString zone ht hsec hoff⟩⟩

/-- The zone of Tokyo. -/
def tokyo : HostZone where
  localUtoff := fun _ => 32400
  localUtoff_mem := fun _ => by decide
  zoneLongName := fun _ => some (ascii ['J', 'S', 'T'])

/-- The round trips at noon of the first of January 2000 in Tokyo. -/
theorem parse_format_iff_tokyo :
    ValidTime 946695600000 ∧ (946695600000 : ℤ) % 1000 = 0 ∧
      tokyo.localUtoff (946695600000 / 1000) % 60 = 0 ∧
      ((parseIso tokyo (dateToGmtString 946695600000) = 946695600000 ↔
          100 ≤ (decompose 946695600000).year ∧ (decompose 946695600000).year ≤ 9999) ∧
        (parseIso tokyo (dateToString tokyo 946695600000) = 946695600000 ↔
          (100 ≤ (localtimeDecompose tokyo 946695600000).tmYear + 1900 ∧
            (localtimeDecompose tokyo 946695600000).tmYear + 1900 ≤ 9999) ∧
              (tokyo.localUtoff (946695600000 / 1000)).natAbs < 360000)) := by
  have ht : ValidTime 946695600000 := ⟨by decide, by decide⟩
  have hsec : (946695600000 : ℤ) % 1000 = 0 := by decide
  have hoff : tokyo.localUtoff (946695600000 / 1000) % 60 = 0 := by decide
  obtain ⟨hgmt, hlocal⟩ := (parse_format_iff ht tokyo).2 hsec
  exact ⟨ht, hsec, hoff, hgmt, hlocal hoff⟩

/-- The first instant of the year 0 is not read back from its ISO text. -/
theorem not_parse_format :
    ¬ ∀ t : ℤ, ValidTime t →
      (∃ s, dateToIsoString t = .ok s ∧ parseIso tokyo s = t) ∧
        (t % 1000 = 0 → parseIso tokyo (dateToGmtString t) = t ∧
          parseIso tokyo (dateToString tokyo t) = t) := by
  intro h
  obtain ⟨⟨s, hs, hparse⟩, -⟩ := h (-62167219200000) ⟨by decide, by decide⟩
  have hval : (dateToIsoString (-62167219200000)).map (parseIso tokyo) =
      .ok (-2208988800000) := by
    decide +kernel
  rw [hs] at hval
  have heq : parseIso tokyo s = -2208988800000 := Except.ok.inj hval
  rw [hparse] at heq
  exact absurd heq (by decide)

end Torajs.Date
