import Mathlib.Tactic.SplitIfs

/-!
# The civil calendar

Dates and times of day of the proleptic Gregorian calendar against seconds since 1970. A year
is counted from its March on, so that the day of a leap year comes last.
-/

namespace Calendar

structure Civil where
  year : Int
  month : Int
  day : Int
  hour : Int
  minute : Int
  second : Int
  deriving DecidableEq, Repr

/-- The days before the month that is `mp` months after March. -/
def daysBefore (mp : Int) : Int := (153 * mp + 2) / 5

/-- The days of the cycle of 400 years before its year `yoe`. -/
def daysOfYears (yoe : Int) : Int :=
  36524 * (yoe / 100) + 1461 * (yoe % 100 / 4) + 365 * (yoe % 4)

/-- The days from 1970-01-01 on. -/
def daysOf (year month day : Int) : Int :=
  let y := if month ≤ 2 then year - 1 else year
  let mp := (month + 9) % 12
  146097 * (y / 400) + daysOfYears (y % 400) + daysBefore mp + day - 1 - 719468

/-- The year of the cycle that has the day `doe` of the cycle. -/
def yearOf (doe : Int) : Int :=
  let century := min (doe / 36524) 3
  let doc := doe - 36524 * century
  let leap := doc / 1461
  100 * century + 4 * leap + min ((doc - 1461 * leap) / 365) 3

/-- The date of a day of a year of a cycle. -/
def dateIn (cycle yoe doy : Int) : Int × Int × Int :=
  let mp := (5 * doy + 2) / 153
  let month := if mp < 10 then mp + 3 else mp - 9
  let year := 400 * cycle + yoe
  (if month ≤ 2 then year + 1 else year, month, doy - daysBefore mp + 1)

/-- The date that is so many days after 1970-01-01. -/
def dateOf (days : Int) : Int × Int × Int :=
  let z := days + 719468
  let doe := z % 146097
  dateIn (z / 146097) (yearOf doe) (doe - daysOfYears (yearOf doe))

theorem yearOf_parts {doe : Int} (lo : 0 ≤ doe) (hi : doe < 146097) :
    ∃ century leap year : Int, yearOf doe = 100 * century + 4 * leap + year ∧
      0 ≤ century ∧ century ≤ 3 ∧ 0 ≤ leap ∧ leap ≤ 24 ∧ 0 ≤ year ∧ year ≤ 3 ∧
      36524 * century + 1461 * leap + 365 * year ≤ doe ∧
      doe ≤ 36524 * century + 1461 * leap + 365 * year + 365 := by
  refine ⟨_, _, _, rfl, ?_⟩
  omega

theorem yearOf_bounds {doe : Int} (lo : 0 ≤ doe) (hi : doe < 146097) :
    0 ≤ yearOf doe ∧ yearOf doe < 400 := by
  obtain ⟨century, leap, year, same, _⟩ := yearOf_parts lo hi
  omega

theorem dayOfYear_bounds {doe : Int} (lo : 0 ≤ doe) (hi : doe < 146097) :
    0 ≤ doe - daysOfYears (yearOf doe) ∧ doe - daysOfYears (yearOf doe) ≤ 365 := by
  obtain ⟨century, leap, year, same, _⟩ := yearOf_parts lo hi
  have days : daysOfYears (yearOf doe) = 36524 * century + 1461 * leap + 365 * year := by
    have h₁ : yearOf doe / 100 = century := by omega
    have h₂ : yearOf doe % 100 / 4 = leap := by omega
    have h₃ : yearOf doe % 4 = year := by omega
    rw [daysOfYears, h₁, h₂, h₃]
  omega

theorem daysOf_dateIn (cycle : Int) {yoe doy : Int} (years : 0 ≤ yoe ∧ yoe < 400)
    (days : 0 ≤ doy ∧ doy ≤ 365) :
    daysOf (dateIn cycle yoe doy).1 (dateIn cycle yoe doy).2.1 (dateIn cycle yoe doy).2.2 =
      146097 * cycle + daysOfYears yoe + doy - 719468 := by
  have mp : 0 ≤ (5 * doy + 2) / 153 ∧ (5 * doy + 2) / 153 < 12 := by omega
  have year : (400 * cycle + yoe) / 400 = cycle ∧ (400 * cycle + yoe) % 400 = yoe := by omega
  by_cases early : (5 * doy + 2) / 153 < 10
  · have month : ((5 * doy + 2) / 153 + 3 + 9) % 12 = (5 * doy + 2) / 153 := by omega
    have late : ¬ (5 * doy + 2) / 153 + 3 ≤ 2 := by omega
    simp only [daysOf, dateIn, early, ↓reduceIte, late, month, year]
    omega
  · have month : ((5 * doy + 2) / 153 - 9 + 9) % 12 = (5 * doy + 2) / 153 := by omega
    have late : (5 * doy + 2) / 153 - 9 ≤ 2 := by omega
    simp only [daysOf, dateIn, early, ↓reduceIte, late, month, Int.add_sub_cancel, year]
    omega

theorem daysOf_dateOf (days : Int) :
    daysOf (dateOf days).1 (dateOf days).2.1 (dateOf days).2.2 = days := by
  have lo : 0 ≤ (days + 719468) % 146097 := Int.emod_nonneg _ (by decide)
  have hi : (days + 719468) % 146097 < 146097 := Int.emod_lt_of_pos _ (by decide)
  rw [dateOf, daysOf_dateIn _ (yearOf_bounds lo hi) (dayOfYear_bounds lo hi)]
  omega

/-- The seconds since 1970-01-01 00:00:00 of the same calendar. -/
def secondsOf (c : Civil) : Int :=
  86400 * daysOf c.year c.month c.day + 3600 * c.hour + 60 * c.minute + c.second

def civilOf (seconds : Int) : Civil :=
  let date := dateOf (seconds / 86400)
  let time := seconds % 86400
  { year := date.1
    month := date.2.1
    day := date.2.2
    hour := time / 3600
    minute := time % 3600 / 60
    second := time % 60 }

theorem secondsOf_civilOf (seconds : Int) : secondsOf (civilOf seconds) = seconds := by
  simp only [secondsOf, civilOf, daysOf_dateOf]
  omega

/-- The last day of a leap year and the day after it. -/
example : dateOf 11016 = (2000, 2, 29) ∧ dateOf 11017 = (2000, 3, 1) := by decide

end Calendar
