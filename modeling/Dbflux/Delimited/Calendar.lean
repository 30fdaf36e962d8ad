import Mathlib

/-!
# Day numbers of dates

Models of `is_leap_year`, `days_in_month` and `days_from_civil` of
`dbflux_delimited/src/profile.rs` (lines 482–506). The `i64` sums and products wrap around, as in a
release build.
-/

namespace Dbflux.Delimited

/-- An `i64` result: the number of its 64 low bits. -/
def wrap (n : ℤ) : ℤ := (n + 2 ^ 63) % 2 ^ 64 - 2 ^ 63

def isLeapYear (year : ℤ) : Bool :=
  (year.tmod 4 = 0 && year.tmod 100 ≠ 0) || year.tmod 400 = 0

def daysInMonth (year : ℤ) : ℕ → ℕ
  | 1 | 3 | 5 | 7 | 8 | 10 | 12 => 31
  | 4 | 6 | 9 | 11 => 30
  | 2 => if isLeapYear year then 29 else 28
  | _ => 28

def daysFromCivil (year : ℤ) (month day : ℕ) : ℤ :=
  let year := if month ≤ 2 then wrap (year - 1) else year
  let era := year / 400
  let yearOfEra := wrap (year - wrap (era * 400))
  let dayOfYear := (153 * ((month : ℤ) + if month > 2 then -3 else 9) + 2) / 5 + day - 1
  let dayOfEra := yearOfEra * 365 + yearOfEra / 4 - yearOfEra / 100 + dayOfYear
  wrap (wrap (wrap (era * 146097) + dayOfEra) - 719468)

/-- The date behind a date. -/
def nextDate (year : ℤ) (month day : ℕ) : ℤ × ℕ × ℕ :=
  if day < daysInMonth year month then (year, month, day + 1)
  else if month < 12 then (year, month + 1, 1)
  else (year + 1, 1, 1)

/-- `daysFromCivil` in unbounded integers. -/
def dayNumber (year : ℤ) (month day : ℕ) : ℤ :=
  let year := if month ≤ 2 then year - 1 else year
  year / 400 * 146097 + (year % 400 * 365 + year % 400 / 4 - year % 400 / 100) +
    ((153 * ((month : ℤ) + if month > 2 then -3 else 9) + 2) / 5 + day - 1) - 719468

/-- The day number fits in an `i64`. -/
def Fits (year : ℤ) (month day : ℕ) : Prop :=
  -2 ^ 63 ≤ dayNumber year month day ∧ dayNumber year month day < 2 ^ 63

variable {year : ℤ} {month day : ℕ}

theorem isLeapYear_iff : isLeapYear year ↔ (4 ∣ year ∧ ¬ 100 ∣ year) ∨ 400 ∣ year := by
  simp [isLeapYear, ← Int.dvd_iff_tmod_eq_zero]

/-- No step of `daysFromCivil` wraps around then, or the wraps cancel. -/
theorem daysFromCivil_eq (hmonth : 1 ≤ month ∧ month ≤ 12) (hday : day ≤ 31)
    (hfits : Fits year month day) : daysFromCivil year month day = dayNumber year month day := by
  unfold Fits dayNumber at hfits
  dsimp only at hfits
  have hyear : (if month ≤ 2 then wrap (year - 1) else year) =
      if month ≤ 2 then year - 1 else year := by
    unfold wrap
    split_ifs at * <;> omega
  unfold daysFromCivil dayNumber
  simp only [hyear]
  generalize (if month ≤ 2 then year - 1 else year) = shifted at hfits
  have hera : wrap (shifted - wrap (shifted / 400 * 400)) = shifted % 400 := by
    unfold wrap
    omega
  rw [hera]
  unfold wrap
  omega

theorem daysInMonth_le (year : ℤ) (month : ℕ) : daysInMonth year month ≤ 31 := by
  unfold daysInMonth
  split <;> try split
  all_goals decide

theorem dayNumber_next (hmonth : 1 ≤ month ∧ month ≤ 12) (hday : day ≤ daysInMonth year month)
    {year' : ℤ} {month' day' : ℕ} (hnext : nextDate year month day = (year', month', day')) :
    dayNumber year' month' day' = dayNumber year month day + 1 := by
  obtain ⟨hfirst, hlast⟩ := hmonth
  rcases Nat.lt_or_eq_of_le hday with hbefore | rfl
  · rw [nextDate, if_pos hbefore] at hnext
    cases hnext
    simp only [dayNumber]
    omega
  · rw [nextDate, if_neg (lt_irrefl _)] at hnext
    have hleap := @isLeapYear_iff year
    interval_cases month
    case «2» =>
      -- March begins the shifted year: the leap day decides how far February reaches.
      cases hnext
      by_cases hyear : isLeapYear year <;>
      simp [dayNumber, daysInMonth, hyear] at hleap ⊢ <;> omega
    all_goals
      cases hnext
      simp [dayNumber, daysInMonth]
      omega

/-- **Day numbers follow the calendar** as far as they fit in an `i64`. -/
theorem daysFromCivil_follows_calendar : daysFromCivil 1970 1 1 = 0 ∧
    ∀ (year year' : ℤ) (month month' day day' : ℕ), 1 ≤ month ∧ month ≤ 12 →
      1 ≤ day ∧ day ≤ daysInMonth year month →
      nextDate year month day = (year', month', day') →
      Fits year month day → Fits year' month' day' →
      daysFromCivil year' month' day' = daysFromCivil year month day + 1 := by
  refine ⟨by decide, ?_⟩
  intro year year' month month' day day' hmonth hday hnext hfits hfits'
  have hlast := daysInMonth_le year month
  rw [daysFromCivil_eq hmonth (hday.2.trans hlast) hfits, ← dayNumber_next hmonth hday.2 hnext]
  refine daysFromCivil_eq ?_ ?_ hfits' <;>
  · unfold nextDate at hnext
    split_ifs at hnext <;> cases hnext <;> omega

theorem daysFromCivil_leap_day : nextDate 2000 2 29 = (2000, 3, 1) ∧
    daysFromCivil 2000 3 1 = daysFromCivil 2000 2 29 + 1 :=
  ⟨by decide, daysFromCivil_follows_calendar.2 _ _ _ _ _ _ (by decide) (by decide) (by decide)
    ⟨by decide, by decide⟩ ⟨by decide, by decide⟩⟩

/-- The date numbered `i64::MAX`; the next one is numbered `i64::MIN`. -/
theorem daysFromCivil_wraps : nextDate 25252734927768524 7 27 = (25252734927768524, 7, 28) ∧
    daysFromCivil 25252734927768524 7 27 = 2 ^ 63 - 1 ∧
    daysFromCivil 25252734927768524 7 28 = -2 ^ 63 := by
  decide

end Dbflux.Delimited
