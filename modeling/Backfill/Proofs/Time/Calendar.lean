import Backfill.Time.Calendar

/-!
# Days and dates

The date of a day number is found from the top down: the era, the year of it, the month and the day.
The year of an era is estimated by one division, after the leap days before it are taken off. The
estimate is right on every day of an era, so the day of the year is one of 366, and the months from
March on are read off it.

Results:
* `yearOfEra_spec`: the estimated year has the day.
* `dayNumber_ofDayNumber`: the date of a day number has that day number.
* `month_ofDayNumber`, `day_ofDayNumber`: months and days have two digits.
* `ofParts?_ofDayNumber`: the date of a day number is one of the calendar.
-/
namespace Backfill.Time.Date

/-- The year of an era that a day lies in: one of 400, and the day is one of the 366 after those of
the years before. -/
theorem yearOfEra_spec {d y : Int} (hd : 0 ≤ d ∧ d < 146097)
    (hy : y = (d - d / 1460 + d / 36524 - d / 146096) / 365) :
    (0 ≤ y ∧ y < 400) ∧ 0 ≤ d - (365 * y + y / 4 - y / 100) ∧
      d - (365 * y + y / 4 - y / 100) ≤ 365 := by
  have hyear : 0 ≤ y ∧ y < 400 := by omega
  -- leap years follow another rule in each century, and in each year of four
  have hcentury : d / 36524 = 0 ∨ d / 36524 = 1 ∨ d / 36524 = 2 ∨ d / 36524 = 3 ∨
      d / 36524 = 4 := by
    omega
  have hhundred : y / 100 = 0 ∨ y / 100 = 1 ∨ y / 100 = 2 ∨ y / 100 = 3 := by omega
  have hfour : y % 4 = 0 ∨ y % 4 = 1 ∨ y % 4 = 2 ∨ y % 4 = 3 := by omega
  refine ⟨hyear, ?_, ?_⟩ <;> omega

theorem monthFromMarch_spec {d m : Int} (hd : 0 ≤ d ∧ d ≤ 365) (hm : m = (5 * d + 2) / 153) :
    (0 ≤ m ∧ m ≤ 11) ∧ 0 ≤ d - (153 * m + 2) / 5 ∧ d - (153 * m + 2) / 5 ≤ 30 := by
  omega

/-- A date from the parts that are counted from March: the era and year of it, the month, and the
day of the year. -/
private theorem ofDayNumber_spec (n : Int) : ∃ era y m d : Int,
    n + 719468 = era * 146097 + (365 * y + y / 4 - y / 100) + d ∧ (0 ≤ y ∧ y < 400) ∧
      (0 ≤ m ∧ m ≤ 11) ∧ (0 ≤ d - (153 * m + 2) / 5 ∧ d - (153 * m + 2) / 5 ≤ 30) ∧
      ofDayNumber n =
        { year := if m < 10 then y + era * 400 else y + era * 400 + 1
          month := (if m < 10 then m + 3 else m - 9).toNat
          day := (d - (153 * m + 2) / 5 + 1).toNat } := by
  obtain ⟨e, he⟩ : ∃ e, e = (n + 719468) % 146097 := ⟨_, rfl⟩
  obtain ⟨y, hy⟩ : ∃ y, y = (e - e / 1460 + e / 36524 - e / 146096) / 365 := ⟨_, rfl⟩
  obtain ⟨d, hd⟩ : ∃ d, d = e - (365 * y + y / 4 - y / 100) := ⟨_, rfl⟩
  obtain ⟨m, hm⟩ : ∃ m, m = (5 * d + 2) / 153 := ⟨_, rfl⟩
  obtain ⟨hyear, hday⟩ := yearOfEra_spec (by omega) hy
  rw [← hd] at hday
  obtain ⟨hmonth, hdate⟩ := monthFromMarch_spec hday hm
  refine ⟨(n + 719468) / 146097, y, m, d, by omega, hyear, hmonth, hdate, ?_⟩
  simp only [ofDayNumber, ← he, ← hy, ← hd, ← hm]
  by_cases h : m < 10
  · have hafter : ¬ m + 3 ≤ 2 := by omega
    simp only [h, if_true, hafter, if_false]
  · have hafter : m - 9 ≤ 2 := by omega
    simp only [h, if_true, hafter, if_false]

/-- The date of a day number has that day number. -/
theorem dayNumber_ofDayNumber (n : Int) : (ofDayNumber n).dayNumber = n := by
  obtain ⟨era, y, m, d, hn, hy, hm, hd, hdate⟩ := ofDayNumber_spec n
  rw [hdate, dayNumber]
  by_cases h : m < 10
  · have hmonth : ¬ (m + 3).toNat ≤ 2 := by omega
    have hera : (y + era * 400) / 400 = era ∧ (y + era * 400) % 400 = y := by omega
    have hback : ((m + 3).toNat : Int) - 3 = m := by omega
    simp only [h, if_true, hmonth, if_false, hera.1, hera.2, hback]
    omega
  · have hmonth : (m - 9).toNat ≤ 2 := by omega
    have hera : (y + era * 400 + 1 - 1) / 400 = era ∧ (y + era * 400 + 1 - 1) % 400 = y := by omega
    have hback : ((m - 9).toNat : Int) + 9 = m := by omega
    simp only [h, if_true, hmonth, if_false, hera.1, hera.2, hback]
    omega

theorem month_ofDayNumber (n : Int) :
    1 ≤ (ofDayNumber n).month ∧ (ofDayNumber n).month ≤ 12 := by
  obtain ⟨era, y, m, d, -, -, hm, -, hdate⟩ := ofDayNumber_spec n
  rw [hdate]
  dsimp only
  split <;> omega

theorem day_ofDayNumber (n : Int) : 1 ≤ (ofDayNumber n).day ∧ (ofDayNumber n).day ≤ 31 := by
  obtain ⟨era, y, m, d, -, -, -, hd, hdate⟩ := ofDayNumber_spec n
  rw [hdate]
  dsimp only
  omega

theorem ofParts?_ofDayNumber (n : Int) :
    ofParts? (ofDayNumber n).year (ofDayNumber n).month (ofDayNumber n).day =
      some (ofDayNumber n) :=
  if_pos (congrArg ofDayNumber (dayNumber_ofDayNumber n))

end Backfill.Time.Date
