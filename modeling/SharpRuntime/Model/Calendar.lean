import SharpRuntime.Model.DateTime

/-!
# `Calendar`

What the calendar classes of `modules/globalization` share: the absolute date of a Gregorian date,
the sum of a time of day, and the carry of an addition of months.  Each class has its own copy of
these in the source.

An `int` is an integer; the sums and products of the conversions stay far inside `int` and `long
long`, and only the time of day, which the caller gives, is added in 64 bits. Bare line numbers are
of the file named last.
-/

set_option autoImplicit false

namespace SharpRuntime.Model.Calendar

open Machine DateTime

/-- SOURCE: Calendar.hpp:47 -/
def currentEra : ℤ := 0

/-- SOURCE: HebrewCalendar.cpp:203; UmAlQuraCalendar.cpp:83 -/
def daysBeforeMonth : List ℕ := [0, 0, 31, 59, 90, 120, 151, 181, 212, 243, 273, 304, 334]

/-- The days up to a date of the Gregorian calendar.
SOURCE: HebrewCalendar.cpp:202-212; UmAlQuraCalendar.cpp:82-88 -/
def absoluteDate (year month day : ℤ) : Run Exception ℤ := do
  let y := year - 1
  let days := y * 365 + y.tdiv 4 - y.tdiv 100 + y.tdiv 400
  Run.observe (0 ≤ month ∧ month < 13)
  let days := days + (daysBeforeMonth.getD month.toNat 0 : ℕ)
  let leap := decide (year.tmod 4 = 0 ∧ year.tmod 100 ≠ 0) || decide (year.tmod 400 = 0)
  let days := if 2 < month ∧ leap then days + 1 else days
  pure (days + day)

/-- The seconds from the start of 1970; no sum of `int` components leaves `long long`.
SOURCE: TimeZonePosixSupport.hpp:72-82 -/
def utcSecondsFromCivil (year month day hour minute second : ℤ) : ℤ :=
  let y := year - if month ≤ 2 then 1 else 0
  let era := (if 0 ≤ y then y else y - 399).tdiv 400
  let yoe := y - era * 400
  let mp := if 2 < month then month - 3 else month + 9
  let doy := (153 * mp + 2).tdiv 5 + day - 1
  let doe := yoe * 365 + yoe.tdiv 4 - yoe.tdiv 100 + doy
  let days := era * 146097 + doe - 719468
  ((days * 24 + hour) * 60 + minute) * 60 + second

/-- `ticks + n * unit`. -/
def addUnits (ticks n : ℤ) (unit : ℕ) : Run Exception ℤ := do
  let part ← Run.signed 64 (n * unit)
  Run.signed 64 (ticks + part)

/-- The sum of a time of day, from left to right.
SOURCE: HebrewCalendar.cpp:285-288; UmAlQuraCalendar.cpp:248-253; HijriCalendar.cpp:141-145;
JulianCalendar.hpp:190-194 -/
def addTimeOfDay (ticks hour minute second millisecond : ℤ) : Run Exception ℤ := do
  let ticks ← addUnits ticks hour ticksPerHour
  let ticks ← addUnits ticks minute ticksPerMinute
  let ticks ← addUnits ticks second ticksPerSecond
  addUnits ticks millisecond ticksPerMillisecond

/-- The year and the month a number of months later.
SOURCE: UmAlQuraCalendar.cpp:220-222; HijriCalendar.cpp:112-114; JulianCalendar.hpp:219-226 -/
def shiftMonths (y m months : ℤ) : ℤ × ℤ :=
  let i := m - 1 + months
  if 0 ≤ i then (y + i.tdiv 12, i.tmod 12 + 1)
  else (y + (i - 11).tdiv 12, 12 + (i + 1).tmod 12)

end SharpRuntime.Model.Calendar

/-!
# `HijriCalendar`

`modules/globalization/src/System/Globalization/HijriCalendar.cpp`, under the source's names.
-/

namespace SharpRuntime.Model.HijriCalendar

open Machine DateTime Calendar

/-- SOURCE: HijriCalendar.hpp:27 -/
def maxCalendarYear : ℤ := 9666

/-- SOURCE: 174 -/
def hijriEpoch : ℤ := 227013

/-- SOURCE: 186 -/
def s_monthDays : List ℕ := [0, 30, 59, 89, 118, 148, 177, 207, 236, 266, 295, 325, 355]

/-- `s_monthDays[index]`. -/
def monthDays (index : ℤ) : Run Exception ℤ := do
  Run.observe (0 ≤ index ∧ index < 13)
  pure (s_monthDays.getD index.toNat 0 : ℕ)

/-- SOURCE: HijriCalendar.cpp:92-96 -/
def isLeapYear (year : ℤ) : Run Exception Bool :=
  if year < 1 ∨ maxCalendarYear < year then Run.throwing (.outOfRange "year")
  else pure (decide ((year * 11 + 14).tmod 30 < 11))

/-- SOURCE: 98-102 -/
def getDaysInMonth (year month : ℤ) : Run Exception ℤ :=
  if month < 1 ∨ 12 < month then Run.throwing (.outOfRange "month")
  else if month = 12 then do
    let leap ← isLeapYear year
    pure (if leap then 30 else 29)
  else pure (if month.tmod 2 = 1 then 30 else 29)

/-- SOURCE: 104-106 -/
def getDaysInYear (year : ℤ) : Run Exception ℤ := do
  let leap ← isLeapYear year
  pure (if leap then 355 else 354)

/-- The days of the years that are left of a cycle, counted down.
SOURCE: 23-26 -/
def addYearDays : (yearsLeft : ℕ) → (days : ℤ) → Run Exception ℤ
  | 0, days => pure days
  | yearsLeft + 1, days => do
    let leap ← isLeapYear (yearsLeft + 1 : ℕ)
    addYearDays yearsLeft (days + (354 + (if leap then 1 else 0)))

/-- SOURCE: 17-28 -/
def daysUpToHijriYear (year : ℤ) : Run Exception ℤ :=
  let numYear30 := (year - 1).tdiv 30 * 30
  let yearsLeft := year - numYear30 - 1
  let days := (numYear30 * 10631).tdiv 30 + hijriEpoch
  addYearDays yearsLeft.toNat days

/-- SOURCE: 30-32 -/
def absoluteDateHijri (y m d : ℤ) : Run Exception ℤ := do
  let year ← daysUpToHijriYear y
  let month ← monthDays (m - 1)
  pure (year + month + d - 1)

/-- The year of a day and the days up to it: a guess, and its correction.
SOURCE: 34-54 -/
def findYear (numDays : ℤ) : Run Exception (ℤ × ℤ) := do
  let hijriYear := ((numDays - hijriEpoch) * 30).tdiv 10631 + 1
  let hijriYear := if hijriYear < 1 then 1 else hijriYear
  let daysToYear ← daysUpToHijriYear hijriYear
  let daysInYear ← getDaysInYear hijriYear
  if numDays < daysToYear then do
    let days ← getDaysInYear (hijriYear - 1)
    pure (hijriYear - 1, daysToYear - days)
  else if numDays = daysToYear then do
    let days ← getDaysInYear (hijriYear - 1)
    pure (hijriYear - 1, daysToYear - days)
  else if daysToYear + daysInYear < numDays then pure (hijriYear + 1, daysToYear + daysInYear)
  else pure (hijriYear, daysToYear)

/-- The first month that the table puts after the day; at most thirteen rounds.
SOURCE: 61-63 -/
def scanMonth (numDays : ℤ) : (fuel : ℕ) → (hijriMonth : ℤ) → Run Exception ℤ
  | 0, _ => Run.diverging
  | fuel + 1, hijriMonth =>
    if hijriMonth ≤ 12 then do
      let days ← monthDays (hijriMonth - 1)
      if days < numDays then scanMonth numDays fuel (hijriMonth + 1) else pure hijriMonth
    else pure hijriMonth

/-- The absolute day of a number of ticks, counted from one. -/
def numDaysOf (ticks : ℤ) : ℤ := ticks.tdiv ticksPerDay + 1

/-- SOURCE: 34-56 -/
def getYear (time : DateTime) : Run Exception ℤ := do
  let (hijriYear, _) ← findYear (numDaysOf time.ticks)
  pure hijriYear

/-- SOURCE: 34-60 -/
def getDayOfYear (time : DateTime) : Run Exception ℤ := do
  let (_, daysToYear) ← findYear (numDaysOf time.ticks)
  pure (numDaysOf time.ticks - daysToYear)

/-- The month of a day of the year.
SOURCE: 58-65 -/
def monthOf (numDays : ℤ) : Run Exception ℤ := do
  let hijriMonth ← scanMonth numDays 13 1
  pure (hijriMonth - 1)

/-- SOURCE: 34-65 -/
def getMonth (time : DateTime) : Run Exception ℤ := do
  let (_, daysToYear) ← findYear (numDaysOf time.ticks)
  monthOf (numDaysOf time.ticks - daysToYear)

/-- SOURCE: 34-68 -/
def getDayOfMonth (time : DateTime) : Run Exception ℤ := do
  let (_, daysToYear) ← findYear (numDaysOf time.ticks)
  let numDays := numDaysOf time.ticks - daysToYear
  let hijriMonth ← monthOf numDays
  let days ← monthDays (hijriMonth - 1)
  pure (numDays - days)

/-- SOURCE: 108-121 -/
def addMonths (time : DateTime) (months : ℤ) : Run Exception DateTime :=
  if months < -120000 ∨ 120000 < months then Run.throwing (.outOfRange "months")
  else do
    let y ← getYear time
    let m ← getMonth time
    let d ← getDayOfMonth time
    let (y, m) := shiftMonths y m months
    let maxDay ← getDaysInMonth y m
    let d := if maxDay < d then maxDay else d
    let date ← absoluteDateHijri y m d
    DateTime.ofTicks (date * ticksPerDay + time.ticks % ticksPerDay)

/-- SOURCE: 123-132 -/
def addYears (time : DateTime) (years : ℤ) : Run Exception DateTime :=
  if years < -10000 ∨ 10000 < years then Run.throwing (.outOfRange "years")
  else addMonths time (years * 12)

/-- SOURCE: 134-147 -/
def toDateTime (year month day hour minute second millisecond : ℤ) : Run Exception DateTime := do
  let daysInMonth ← getDaysInMonth year month
  if day < 1 ∨ daysInMonth < day then Run.throwing (.outOfRange "day")
  else do
    let absoluteDate ← absoluteDateHijri year month day
    if absoluteDate < 0 then Run.throwing (.outOfRange "year")
    else do
      let ticks ← addTimeOfDay (absoluteDate * ticksPerDay) hour minute second millisecond
      DateTime.ofTicks ticks

end SharpRuntime.Model.HijriCalendar

/-!
# `JulianCalendar`

`modules/globalization/include/System/Globalization/JulianCalendar.hpp`, under the source's names.
-/

namespace SharpRuntime.Model.JulianCalendar

open Machine DateTime Calendar

/-- SOURCE: JulianCalendar.hpp:110-112 -/
def isLeapYear (year : ℤ) : Bool := decide (year.tmod 4 = 0)

/-- SOURCE: 125 -/
def daysPerMonth : List ℕ := [0, 31, 28, 31, 30, 31, 30, 31, 31, 30, 31, 30, 31]

/-- SOURCE: 124-128 -/
def getDaysInMonth (year month : ℤ) : Run Exception ℤ :=
  if month = 2 ∧ isLeapYear year then pure 29
  else do
    Run.observe (0 ≤ month ∧ month < 13)
    pure (daysPerMonth.getD month.toNat 0 : ℕ)

/-- SOURCE: 259-260 -/
def julianDaysPerYear : ℤ := 365

def julianDaysPer4Years : ℤ := julianDaysPerYear * 4 + 1

/-- The table of a year, `days[index]`.
SOURCE: 263-264 -/
def daysToMonth (leapYear : Bool) (index : ℤ) : Run Exception ℤ := do
  Run.observe (0 ≤ index ∧ index < 13)
  pure ((if leapYear then daysToMonth366 else daysToMonth365).getD index.toNat 0 : ℕ)

/-- The year of a day and the days of the year before it.
SOURCE: 268-277 -/
def findYear (ticks : ℤ) : ℤ × ℤ × ℤ :=
  let julianTicks := ticks + ticksPerDay * 2
  let n := julianTicks.tdiv ticksPerDay
  let y4 := n.tdiv julianDaysPer4Years
  let n := n - y4 * julianDaysPer4Years
  let y1 := n.tdiv julianDaysPerYear
  let y1 := if y1 = 4 then 3 else y1
  (y4 * 4 + y1 + 1, y1, n - y1 * julianDaysPerYear)

/-- SOURCE: 283-284 -/
def scanMonth (leapYear : Bool) (n : ℤ) : (fuel : ℕ) → (m : ℤ) → Run Exception ℤ
  | 0, _ => Run.diverging
  | fuel + 1, m => do
    let days ← daysToMonth leapYear m
    if days ≤ n then scanMonth leapYear n fuel (m + 1) else pure m

/-- SOURCE: 268-275 -/
def getYear (time : DateTime) : Run Exception ℤ := pure (findYear time.ticks).1

/-- SOURCE: 268-278 -/
def getDayOfYear (time : DateTime) : Run Exception ℤ := pure ((findYear time.ticks).2.2 + 1)

/-- SOURCE: 268-286 -/
def getMonth (time : DateTime) : Run Exception ℤ :=
  let (_, y1, n) := findYear time.ticks
  scanMonth (decide (y1 = 3)) n 13 (n / 32 + 1)

/-- SOURCE: 268-287 -/
def getDayOfMonth (time : DateTime) : Run Exception ℤ := do
  let (_, y1, n) := findYear time.ticks
  let m ← scanMonth (decide (y1 = 3)) n 13 (n / 32 + 1)
  let days ← daysToMonth (decide (y1 = 3)) (m - 1)
  pure (n - days + 1)

/-- SOURCE: 291-297 -/
def dateToTicks (year month day : ℤ) : Run Exception ℤ := do
  let days ← daysToMonth (decide (year.tmod 4 = 0)) (month - 1)
  let y := year - 1
  let n := y * 365 + y.tdiv 4 + days + day - 1
  pure ((n - 2) * ticksPerDay)

/-- SOURCE: 188-196 -/
def toDateTime (year month day hour minute second millisecond : ℤ) : Run Exception DateTime := do
  let ticks ← dateToTicks year month day
  let ticks ← addTimeOfDay ticks hour minute second millisecond
  DateTime.ofTicks ticks

/-- SOURCE: 211-232 -/
def addMonths (time : DateTime) (months : ℤ) : Run Exception DateTime :=
  if months < -120000 ∨ 120000 < months then
    Run.throwing (.argumentOutOfRange "months"
      "Valid values are between -120000 and 120000, inclusive.")
  else do
    let y ← getYear time
    let m ← getMonth time
    let d ← getDayOfMonth time
    let (y, m) := shiftMonths y m months
    let days ← getDaysInMonth y m
    let d := if days < d then days else d
    let newTicks ← dateToTicks y m d
    DateTime.ofTicks (newTicks + time.ticks % ticksPerDay)

/-- SOURCE: 245-250 -/
def addYears (time : DateTime) (years : ℤ) : Run Exception DateTime :=
  if years < -10000 ∨ 10000 < years then
    Run.throwing (.argumentOutOfRange "years"
      "Valid values are between -10000 and 10000, inclusive.")
  else addMonths time (years * 12)

end SharpRuntime.Model.JulianCalendar
