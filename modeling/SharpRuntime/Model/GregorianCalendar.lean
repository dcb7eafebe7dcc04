import SharpRuntime.Model.Calendar

/-!
# `GregorianCalendar`

The operations of `Calendar` as `GregorianCalendar` has them: it overrides none of those below but
`isLeapYear`, by the same test.

An `int` is an integer: no sum here leaves `int`, since months, years and days are checked first.
-/

set_option autoImplicit false

namespace SharpRuntime.Model.GregorianCalendar

open Machine DateTime

/-- SOURCE: GregorianCalendar.hpp:114-117 -/
def isLeapYear (year : ℤ) : Bool :=
  decide (year.tmod 4 = 0 ∧ year.tmod 100 ≠ 0) || decide (year.tmod 400 = 0)

/-- SOURCE: Calendar.hpp:322-327 -/
def getDaysInMonth (year month : ℤ) : Run Exception ℤ :=
  if month < 1 ∨ month > 12 then Run.throwing (.outOfRange "month")
  else if month = 2 ∧ isLeapYear year then pure 29
  else pure ([0, 31, 28, 31, 30, 31, 30, 31, 31, 30, 31, 30, 31].getD month.toNat 0)

/-- SOURCE: Calendar.hpp:487-498 -/
def addMonths (time : DateTime) (months : ℤ) : Run Exception DateTime :=
  if months < -120000 ∨ months > 120000 then
    Run.throwing (.argumentOutOfRange "months"
      "Valid values are between -120000 and 120000, inclusive.")
  else do
    let totalMonths := (time.getYearProperty - 1) * 12 + (time.getMonthProperty - 1) + months
    let year := totalMonths.tdiv 12 + 1
    let month := totalMonths.tmod 12 + 1
    let days ← getDaysInMonth year month
    let day := min time.getDayProperty days
    DateTime.ofComponents year month day time.getHourProperty time.getMinuteProperty
      time.getSecondProperty 0

/-- SOURCE: Calendar.hpp:464-469 -/
def addYears (time : DateTime) (years : ℤ) : Run Exception DateTime :=
  if years < -10000 ∨ years > 10000 then
    Run.throwing (.argumentOutOfRange "years"
      "Valid values are between -10000 and 10000, inclusive.")
  else addMonths time (years * 12)

/-- SOURCE: Calendar.hpp:533-538 -/
def addDays (time : DateTime) (days : ℤ) : Run Exception DateTime := do
  let result ← time.addDays days
  DateTime.specifyKind result DateTimeKind.unspecified

/-- The rules for the first week, by the number the enumeration gives them. -/
def firstDay : ℤ := 0

def firstFullWeek : ℤ := 1

def firstFourDayWeek : ℤ := 2

/-- SOURCE: Calendar.hpp:343-348 -/
def getFirstDayWeekOfYear (time : DateTime) (firstDayOfWeek : ℤ) : ℤ :=
  let dayOfYear := time.getDayOfYearProperty - 1
  let dayForJan1 := time.getDayOfWeekProperty - dayOfYear.tmod 7
  let offset := (dayForJan1 - firstDayOfWeek + 14).tmod 7
  (dayOfYear + offset).tdiv 7 + 1

/-- The days of the year before the first one that is supported.
SOURCE: Calendar.hpp:403 -/
def daysInYearBeforeMinSupportedYear : ℤ := 365

/-- `DateTime(1, 1, 1)`.
SOURCE: Calendar.hpp:115-117 -/
def minSupportedDateTime : Run Exception DateTime := DateTime.ofComponents 1 1 1 0 0 0 0

/-- SOURCE: Calendar.hpp:351-371 -/
def getWeekOfYearOfMinSupportedDateTime (firstDayOfWeek minimumDaysInFirstWeek : ℤ) :
    Run Exception ℤ := do
  let minSupported ← minSupportedDateTime
  let dayOfYear := minSupported.getDayOfYearProperty - 1
  let dayOfWeekOfFirstOfYear := minSupported.getDayOfWeekProperty - dayOfYear.tmod 7
  let offset := (firstDayOfWeek + 7 - dayOfWeekOfFirstOfYear).tmod 7
  if offset = 0 ∨ offset ≥ minimumDaysInFirstWeek then pure 1
  else
    let daysInYear := daysInYearBeforeMinSupportedYear - 1
    let dayOfWeekOfFirstOfPreviousYear := dayOfWeekOfFirstOfYear - 1 - daysInYear.tmod 7
    let daysInInitialPartialWeek := (firstDayOfWeek - dayOfWeekOfFirstOfPreviousYear + 14).tmod 7
    let day := daysInYear - daysInInitialPartialWeek
    let day := if daysInInitialPartialWeek ≥ minimumDaysInFirstWeek then day + 7 else day
    pure (day.tdiv 7 + 1)

/-- The function calls itself with the last day of the year before; `fuel` bounds these calls.
SOURCE: Calendar.hpp:374-393 -/
def getWeekOfYearFullDays : (fuel : ℕ) → (time : DateTime) → (firstDayOfWeek fullDays : ℤ) →
    Run Exception ℤ
  | 0, _, _, _ => Run.diverging
  | fuel + 1, time, firstDayOfWeek, fullDays =>
    let dayOfYear := time.getDayOfYearProperty - 1
    let dayForJan1 := time.getDayOfWeekProperty - dayOfYear.tmod 7
    let offset := (firstDayOfWeek - dayForJan1 + 14).tmod 7
    let offset := if offset ≠ 0 ∧ offset ≥ fullDays then offset - 7 else offset
    let day := dayOfYear - offset
    if day ≥ 0 then pure (day.tdiv 7 + 1)
    else do
      let minSupported ← minSupportedDateTime
      let sameDay ← addDays minSupported dayOfYear
      if time.ticks ≤ sameDay.ticks then
        getWeekOfYearOfMinSupportedDateTime firstDayOfWeek fullDays
      else do
        let previous ← addDays time (-(dayOfYear + 1))
        getWeekOfYearFullDays fuel previous firstDayOfWeek fullDays

/-- SOURCE: Calendar.hpp:416-437 -/
def getWeekOfYear (fuel : ℕ) (time : DateTime) (rule firstDayOfWeek : ℤ) : Run Exception ℤ :=
  if firstDayOfWeek < 0 ∨ firstDayOfWeek > 6 then
    Run.throwing (.argumentOutOfRange "firstDayOfWeek"
      "Value must be within the range for the DayOfWeek enumeration.")
  else if rule = firstDay then pure (getFirstDayWeekOfYear time firstDayOfWeek)
  else if rule = firstFullWeek then getWeekOfYearFullDays fuel time firstDayOfWeek 7
  else if rule = firstFourDayWeek then getWeekOfYearFullDays fuel time firstDayOfWeek 4
  else Run.throwing (.argumentOutOfRange "rule"
    "Value must be within the range for the CalendarWeekRule enumeration.")

end SharpRuntime.Model.GregorianCalendar
