import Mathlib.Tactic.Ring

/-!
# Civil dates

Days since 1970-01-01 and dates of the proleptic Gregorian calendar, both ways, as `civil.rs`
computes them, and the split of a time value into the fields of a date.  A year of the
computation begins in March, and eras of 400 years repeat.
-/

namespace Torajs.Date

/-- The conversion to `u32`, and the result of an operation on `u32`. -/
def asU32 (x : ℤ) : ℤ := x % 4294967296

/-- The conversion to `i32`. -/
def asI32 (x : ℤ) : ℤ := (x + 2147483648) % 4294967296 - 2147483648

/-- A number in the range of `u32` is its own conversion. -/
lemma asU32_of_mem {x : ℤ} (h0 : 0 ≤ x) (h1 : x < 4294967296) : asU32 x = x :=
  Int.emod_eq_of_lt h0 h1

/-- A number in the range of `i32` is its own conversion. -/
lemma asI32_of_mem {x : ℤ} (h0 : -2147483648 ≤ x) (h1 : x < 2147483648) : asI32 x = x := by
  unfold asI32
  omega

/-- Days since 1970-01-01 of a date; the month is counted from 1. -/
def daysFromCivil (y m d : ℤ) : ℤ :=
  let y := if m ≤ 2 then y - 1 else y
  let era := if 0 ≤ y then y.tdiv 400 else (y - 399).tdiv 400
  let yoe := asU32 (y - era * 400)
  let doy := asU32 ((153 * (if 2 < m then m - 3 else m + 9) + 2) / 5 + d - 1)
  let doe := asU32 (yoe * 365 + yoe / 4 - yoe / 100 + doy)
  era * 146097 + doe - 719468

/-- The date of a number of days since 1970-01-01: year, month from 1, day. -/
def civilFromDays (z : ℤ) : ℤ × ℤ × ℤ :=
  let z := z + 719468
  let era := if 0 ≤ z then z.tdiv 146097 else (z - 146096).tdiv 146097
  let doe := asU32 (z - era * 146097)
  let yoe := (doe - doe / 1460 + doe / 36524 - doe / 146096) / 365
  let y := asI32 yoe + asI32 (era * 400)
  let doy := doe - (365 * yoe + yoe / 4 - yoe / 100)
  let mp := (5 * doy + 2) / 153
  let d := doy - (153 * mp + 2) / 5 + 1
  let m := if mp < 10 then mp + 3 else mp - 9
  (if m ≤ 2 then y + 1 else y, m, d)

/-- The truncating division that the code corrects for negative numbers is the floor. -/
lemma floor_of_tdiv (y k : ℤ) (hk : 0 < k) :
    (if 0 ≤ y then y.tdiv k else (y - (k - 1)).tdiv k) = y / k := by
  split_ifs with h
  · exact Int.tdiv_eq_ediv_of_nonneg h
  · have hneg : y - (k - 1) = -(k - 1 - y) := by ring
    have hnn : 0 ≤ k - 1 - y := by omega
    rw [hneg, Int.neg_tdiv, Int.tdiv_eq_ediv_of_nonneg hnn]
    have hsum := Int.emod_add_mul_ediv y k
    have h0 := Int.emod_nonneg y hk.ne'
    have h1 := Int.emod_lt_of_pos y hk
    have hval : k - 1 - y = (k - 1 - y % k) + k * -(y / k) := by
      rw [mul_neg]
      omega
    rw [hval, Int.add_mul_ediv_left _ _ hk.ne', Int.ediv_eq_zero_of_lt (by omega) (by omega)]
    ring

/-- Years of an era, from the day of the era: the day lies in its year. -/
lemma yearOfEra_spec {doe : ℤ} (h0 : 0 ≤ doe) (h1 : doe < 146097) {yoe : ℤ}
    (hyoe : yoe = (doe - doe / 1460 + doe / 36524 - doe / 146096) / 365) :
    0 ≤ yoe ∧ yoe < 400 ∧ 365 * yoe + yoe / 4 - yoe / 100 ≤ doe ∧
      doe ≤ 365 * yoe + yoe / 4 - yoe / 100 + 365 := by
  obtain ⟨q, hq⟩ : ∃ q, doe / 1460 = q := ⟨_, rfl⟩
  obtain ⟨c, hc⟩ : ∃ c, doe / 36524 = c := ⟨_, rfl⟩
  obtain ⟨e, he⟩ : ∃ e, doe / 146096 = e := ⟨_, rfl⟩
  rw [hq, hc, he] at hyoe
  have hlow : 365 * yoe ≤ doe - q + c - e := by omega
  have hhigh : doe - q + c - e ≤ 365 * yoe + 364 := by omega
  -- the leap days counted by the quotients are those of the years before
  have hcq : c ≤ q := by omega
  have hq100 : q ≤ 100 := by omega
  have hfour : yoe / 4 ≤ q := by omega
  have hfour' : q ≤ yoe / 4 + 1 := by omega
  have hhundred : yoe / 100 = c - e := by
    rcases (by omega : c = 0 ∨ c = 1 ∨ c = 2 ∨ c = 3 ∨ c = 4) with rfl | rfl | rfl | rfl | rfl <;>
      omega
  omega

/-! ### The two directions -/

/-- Days from the beginning of year 0, which is in March, to the beginning of the year `y`. -/
def daysToYear (y : ℤ) : ℤ := 365 * y + y / 4 - y / 100 + y / 400

/-- Days from the first of March to the first of a month, counted from March. -/
def daysToMonth (mp : ℤ) : ℤ := (153 * mp + 2) / 5

/-- An era has 146097 days. -/
lemma daysToYear_add_era (yoe era : ℤ) :
    daysToYear (yoe + era * 400) = daysToYear yoe + era * 146097 := by
  have h4 : (yoe + era * 400) / 4 = yoe / 4 + era * 100 := by omega
  have h100 : (yoe + era * 400) / 100 = yoe / 100 + era * 4 := by omega
  have h400 : (yoe + era * 400) / 400 = yoe / 400 + era := by omega
  rw [daysToYear, daysToYear, h4, h100, h400]
  ring

/-- The days of a date, with the year and the month counted from March. -/
lemma daysFromCivil_eq {y m d : ℤ} (hm : 1 ≤ m ∧ m ≤ 12) (hd : 1 ≤ d ∧ d ≤ 31) :
    daysFromCivil y m d = daysToYear (if m ≤ 2 then y - 1 else y) +
      daysToMonth (if 2 < m then m - 3 else m + 9) + (d - 1) - 719468 := by
  obtain ⟨w, hw⟩ : ∃ w, (if m ≤ 2 then y - 1 else y) = w := ⟨_, rfl⟩
  obtain ⟨mp, hmp⟩ : ∃ mp, (if 2 < m then m - 3 else m + 9) = mp := ⟨_, rfl⟩
  have hmp' : 0 ≤ mp ∧ mp ≤ 11 := by split_ifs at hmp <;> omega
  have hfloor := floor_of_tdiv w 400 (by omega)
  obtain ⟨era, hera⟩ : ∃ era, w / 400 = era := ⟨_, rfl⟩
  obtain ⟨yoe, hyoe⟩ : ∃ yoe, w - era * 400 = yoe := ⟨_, rfl⟩
  have hyoe' : 0 ≤ yoe ∧ yoe < 400 := by omega
  simp only [daysFromCivil, hw, hmp]
  rw [show w - 399 = w - (400 - 1) by ring, hfloor, hera, hyoe,
    asU32_of_mem (x := yoe) (by omega) (by omega),
    asU32_of_mem (x := (153 * mp + 2) / 5 + d - 1) (by omega) (by omega),
    asU32_of_mem (by omega) (by omega), show w = yoe + era * 400 by omega, daysToYear_add_era]
  unfold daysToYear daysToMonth
  omega

/-- The date of a number of days, with the year and the month counted from March: the days of
the years, those of the months and the day add up to it. -/
lemma civilFromDays_spec {z : ℤ} (hz : -200000000 ≤ z ∧ z ≤ 200000000) :
    ∃ w mp d, 0 ≤ mp ∧ mp ≤ 11 ∧ 1 ≤ d ∧ d ≤ 31 ∧
      z = daysToYear w + daysToMonth mp + (d - 1) - 719468 ∧
      civilFromDays z =
        (if mp < 10 then w else w + 1, if mp < 10 then mp + 3 else mp - 9, d) := by
  obtain ⟨s, hs⟩ : ∃ s, z + 719468 = s := ⟨_, rfl⟩
  obtain ⟨era, hera⟩ : ∃ era, s / 146097 = era := ⟨_, rfl⟩
  have hfloor := floor_of_tdiv s 146097 (by omega)
  have hdoe : 0 ≤ s - era * 146097 ∧ s - era * 146097 < 146097 := by omega
  obtain ⟨doe, hdoe'⟩ : ∃ doe, s - era * 146097 = doe := ⟨_, rfl⟩
  rw [hdoe'] at hdoe
  obtain ⟨yoe, hyoe⟩ : ∃ yoe, (doe - doe / 1460 + doe / 36524 - doe / 146096) / 365 = yoe :=
    ⟨_, rfl⟩
  obtain ⟨h0, h400, hle, hge⟩ := yearOfEra_spec hdoe.1 hdoe.2 hyoe.symm
  obtain ⟨doy, hdoy⟩ : ∃ doy, doe - (365 * yoe + yoe / 4 - yoe / 100) = doy := ⟨_, rfl⟩
  obtain ⟨mp, hmp⟩ : ∃ mp, (5 * doy + 2) / 153 = mp := ⟨_, rfl⟩
  refine ⟨yoe + era * 400, mp, doy - (153 * mp + 2) / 5 + 1, by omega, by omega, by omega,
    by omega, ?_, ?_⟩
  · rw [daysToYear_add_era]
    unfold daysToYear daysToMonth
    omega
  · simp only [civilFromDays, hs]
    rw [show s - 146096 = s - (146097 - 1) by ring, hfloor, hera, asU32_of_mem (by omega) (by omega),
      hdoe', hyoe, hdoy, hmp, asI32_of_mem (by omega) (by omega),
      asI32_of_mem (by omega) (by omega)]
    by_cases h10 : mp < 10
    · rw [if_pos h10, if_pos h10, if_neg (by omega)]
    · rw [if_neg h10, if_neg h10, if_pos (by omega)]

/-- The month and the day of a date are those of a calendar. -/
lemma civilFromDays_mem {z : ℤ} (hz : -200000000 ≤ z ∧ z ≤ 200000000) :
    (1 ≤ (civilFromDays z).2.1 ∧ (civilFromDays z).2.1 ≤ 12) ∧
      (1 ≤ (civilFromDays z).2.2 ∧ (civilFromDays z).2.2 ≤ 31) := by
  obtain ⟨w, mp, d, hmp0, hmp, hd, hd', -, heq⟩ := civilFromDays_spec hz
  rw [heq]
  refine ⟨?_, hd, hd'⟩
  dsimp only
  split_ifs <;> omega

/-- The days of the date of a number of days are that number. -/
theorem daysFromCivil_civilFromDays {z : ℤ} (hz : -200000000 ≤ z ∧ z ≤ 200000000) :
    daysFromCivil (civilFromDays z).1 (civilFromDays z).2.1 (civilFromDays z).2.2 = z := by
  have hmem := civilFromDays_mem hz
  rw [daysFromCivil_eq hmem.1 hmem.2]
  obtain ⟨w, mp, d, hmp0, hmp, hd, hd', hsum, heq⟩ := civilFromDays_spec hz
  rw [heq]
  by_cases h10 : mp < 10
  · simp only [if_pos h10]
    rw [if_neg (by omega), if_pos (by omega), hsum]
    simp
  · simp only [if_neg h10]
    rw [if_pos (by omega), if_neg (by omega), hsum]
    simp

/-- The year of a number of days. -/
lemma civilFromDays_year {z : ℤ} (hz : -200000000 ≤ z ∧ z ≤ 200000000) :
    -546000 ≤ (civilFromDays z).1 ∧ (civilFromDays z).1 ≤ 550000 := by
  obtain ⟨w, mp, d, hmp0, hmp, hd, hd', hsum, heq⟩ := civilFromDays_spec hz
  rw [heq]
  unfold daysToYear daysToMonth at hsum
  dsimp only
  split_ifs <;> omega

/-- The same day of another year is another day. -/
lemma daysFromCivil_lt {y y' m d : ℤ} (hm : 1 ≤ m ∧ m ≤ 12) (hd : 1 ≤ d ∧ d ≤ 31) (h : y < y') :
    daysFromCivil y m d < daysFromCivil y' m d := by
  rw [daysFromCivil_eq hm hd, daysFromCivil_eq hm hd]
  unfold daysToYear
  split_ifs <;> omega

end Torajs.Date
