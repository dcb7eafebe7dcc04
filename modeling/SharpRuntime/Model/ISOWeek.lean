import SharpRuntime.Model.DateTime

/-!
# ISO 8601 weeks

Weeks begin on Monday, and week 1 of a year is the one with its first Thursday.  A day of the week
is the number the enumeration gives it, Sunday being `0`; `toDateTime` takes `7` for it as well.
-/

set_option autoImplicit false

namespace SharpRuntime.Model.ISOWeek

open Machine

def sunday : ℤ := 0

def monday : ℤ := 1

def minYear : ℤ := 1

def maxYear : ℤ := 9999

def minWeek : ℤ := 1

def maxWeek : ℤ := 53

/-- SOURCE: ISOWeek.hpp:164-166 -/
def isoWeekday (dayOfWeek : ℤ) : ℤ := if dayOfWeek = sunday then 7 else dayOfWeek

/-- The week in the calendar year of the date: `0` is the last week of the year before, and `53`
may be the first one of the year after.
SOURCE: ISOWeek.hpp:174-176 -/
def getWeekNumber (date : DateTime) : ℤ :=
  (date.getDayOfYearProperty - isoWeekday date.getDayOfWeekProperty + 10).tdiv 7

/-- The day of the week of December 31.
SOURCE: ISOWeek.hpp:91-94 -/
def p (y : ℤ) : ℤ :=
  let cent := y.tdiv 100
  (y + y.tdiv 4 - cent + cent.tdiv 4).tmod 7

/-- SOURCE: ISOWeek.hpp:89-97 -/
def getWeeksInYear (year : ℤ) : Run Exception ℤ :=
  if year < minYear ∨ year > maxYear then Run.throwing (.outOfRange "year")
  else if p year = 4 ∨ p (year - 1) = 3 then pure 53
  else pure 52

/-- SOURCE: ISOWeek.hpp:36-41 -/
def getWeekOfYear (date : DateTime) : Run Exception ℤ :=
  let week := getWeekNumber date
  if week < minWeek then getWeeksInYear (date.getYearProperty - 1)
  else if week > 52 then do
    let weeks ← getWeeksInYear date.getYearProperty
    pure (if weeks = 52 then minWeek else week)
  else pure week

/-- SOURCE: ISOWeek.hpp:61-67 -/
def getYear (date : DateTime) : Run Exception ℤ :=
  let week := getWeekNumber date
  let year := date.getYearProperty
  if week < minWeek then pure (year - 1)
  else if week > 52 then do
    let weeks ← getWeeksInYear year
    pure (if weeks = 52 then year + 1 else year)
  else pure year

/-- SOURCE: ISOWeek.hpp:109-120 -/
def toDateTime (year week dayOfWeek : ℤ) : Run Exception DateTime :=
  if year < minYear ∨ year > maxYear then Run.throwing (.outOfRange "year")
  else if week < minWeek ∨ week > maxWeek then Run.throwing (.outOfRange "week")
  else if dayOfWeek < 0 ∨ dayOfWeek > 7 then Run.throwing (.outOfRange "dayOfWeek")
  else do
    let jan4 ← DateTime.ofComponents year 1 4 0 0 0 0
    let correction := isoWeekday jan4.getDayOfWeekProperty + 3
    let ordinal := week * 7 + isoWeekday dayOfWeek - correction
    jan4.addDays (ordinal - 4)

/-- SOURCE: ISOWeek.hpp:142-144 -/
def getYearStart (year : ℤ) : Run Exception DateTime := toDateTime year minWeek monday

end SharpRuntime.Model.ISOWeek
