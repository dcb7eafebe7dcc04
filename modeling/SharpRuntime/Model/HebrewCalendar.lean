import SharpRuntime.Model.Calendar

/-!
# `HebrewCalendar`

`modules/globalization/src/System/Globalization/HebrewCalendar.cpp`, under the source's names.

Every read of a table observes that the index is inside the table. Bare line numbers are of
`HebrewCalendar.cpp`.
-/

set_option autoImplicit false

namespace SharpRuntime.Model.HebrewCalendar

open Machine DateTime Calendar

/-- SOURCE: HebrewCalendar.hpp:26-28, 162-164 -/
def hebrewEra : ℤ := 1

def minHebrewYear : ℤ := 5343

def maxHebrewYear : ℤ := 5999

def hebrewYearOf1AD : ℤ := 3760

def firstGregorianTableYear : ℤ := 1583

def lastGregorianTableYear : ℤ := 2239

/-- The code of the Hebrew date of January 1 and the year type, for the years 1583 to 2240.
SOURCE: 21-153 -/
def s_hebrewTable : List ℕ :=
  [7, 3, 17, 3, 0, 4, 11, 2, 21, 6, 1, 3, 13, 2, 25, 4, 5, 3, 16, 2, 27, 6, 9, 1, 20, 2, 0, 6, 11,
   3, 23, 4, 4, 2, 14, 3, 27, 4, 8, 2, 18, 3, 28, 6, 11, 1, 22, 5, 2, 3, 12, 3, 25, 4, 6, 2, 16,
   3, 26, 6, 8, 2, 20, 1, 0, 6, 11, 2, 24, 4, 4, 3, 15, 2, 25, 6, 8, 1, 19, 2, 29, 6, 9, 3, 22, 4,
   3, 2, 13, 3, 25, 4, 6, 3, 17, 2, 27, 6, 7, 3, 19, 2, 31, 4, 11, 3, 23, 4, 5, 2, 15, 3, 25, 6,
   6, 2, 19, 1, 29, 6, 10, 2, 22, 4, 3, 3, 14, 2, 24, 6, 6, 1, 17, 3, 28, 5, 8, 3, 20, 1, 32, 5,
   12, 3, 22, 6, 4, 1, 16, 2, 26, 6, 6, 3, 17, 2, 0, 4, 10, 3, 22, 4, 3, 2, 14, 3, 24, 6, 5, 2,
   17, 1, 28, 6, 9, 2, 19, 3, 31, 4, 13, 2, 23, 6, 3, 3, 15, 1, 27, 5, 7, 3, 17, 3, 29, 4, 11, 2,
   21, 6, 3, 1, 14, 2, 25, 6, 5, 3, 16, 2, 28, 4, 9, 3, 20, 2, 0, 6, 12, 1, 23, 6, 4, 2, 14, 3,
   26, 4, 8, 2, 18, 3, 0, 4, 10, 3, 21, 5, 1, 3, 13, 1, 24, 5, 5, 3, 15, 3, 27, 4, 8, 2, 19, 3,
   29, 6, 10, 2, 22, 4, 3, 3, 14, 2, 26, 4, 6, 3, 18, 2, 28, 6, 10, 1, 20, 6, 2, 2, 12, 3, 24, 4,
   5, 2, 16, 3, 28, 4, 8, 3, 19, 2, 0, 6, 12, 1, 23, 5, 3, 3, 14, 3, 26, 4, 7, 2, 17, 3, 28, 6, 9,
   2, 21, 4, 1, 3, 13, 2, 25, 4, 5, 3, 16, 2, 27, 6, 9, 1, 19, 3, 0, 5, 11, 3, 23, 4, 4, 2, 14, 3,
   25, 6, 7, 1, 18, 2, 28, 6, 9, 3, 21, 4, 2, 2, 12, 3, 25, 4, 6, 2, 16, 3, 26, 6, 8, 2, 20, 1, 0,
   6, 11, 2, 22, 6, 4, 1, 15, 2, 25, 6, 6, 3, 18, 1, 29, 5, 9, 3, 22, 4, 2, 3, 13, 2, 23, 6, 4, 3,
   15, 2, 27, 4, 7, 3, 19, 2, 31, 4, 11, 3, 21, 6, 3, 2, 15, 1, 25, 6, 6, 2, 17, 3, 29, 4, 10, 2,
   20, 6, 3, 1, 13, 3, 24, 5, 4, 3, 16, 1, 27, 5, 7, 3, 17, 3, 0, 4, 11, 2, 21, 6, 1, 3, 13, 2,
   25, 4, 5, 3, 16, 2, 29, 4, 9, 3, 19, 6, 30, 2, 13, 1, 23, 6, 4, 2, 14, 3, 27, 4, 8, 2, 18, 3,
   0, 4, 11, 3, 22, 5, 2, 3, 14, 1, 26, 5, 6, 3, 16, 3, 28, 4, 10, 2, 20, 6, 30, 3, 11, 2, 24, 4,
   4, 3, 15, 2, 25, 6, 8, 1, 19, 2, 29, 6, 9, 3, 22, 4, 3, 2, 13, 3, 25, 4, 7, 2, 17, 3, 27, 6, 9,
   1, 21, 5, 1, 3, 11, 3, 23, 4, 5, 2, 15, 3, 25, 6, 6, 2, 19, 1, 29, 6, 10, 2, 22, 4, 3, 3, 14,
   2, 24, 6, 6, 1, 18, 2, 28, 6, 8, 3, 20, 4, 2, 2, 12, 3, 24, 4, 4, 3, 16, 2, 26, 6, 6, 3, 17, 2,
   0, 4, 10, 3, 22, 4, 3, 2, 14, 3, 24, 6, 5, 2, 17, 1, 28, 6, 9, 2, 21, 4, 1, 3, 13, 2, 23, 6, 5,
   1, 15, 3, 27, 5, 7, 3, 19, 1, 0, 5, 10, 3, 22, 4, 2, 3, 13, 2, 24, 6, 4, 3, 15, 2, 27, 4, 8, 3,
   20, 4, 1, 2, 11, 3, 22, 6, 3, 2, 15, 1, 25, 6, 7, 2, 17, 3, 29, 4, 10, 2, 21, 6, 1, 3, 13, 1,
   24, 5, 5, 3, 15, 3, 27, 4, 8, 2, 19, 6, 1, 1, 12, 2, 22, 6, 3, 3, 14, 2, 26, 4, 6, 3, 18, 2,
   28, 6, 10, 1, 20, 6, 2, 2, 12, 3, 24, 4, 5, 2, 16, 3, 28, 4, 9, 2, 19, 6, 30, 3, 12, 1, 23, 5,
   3, 3, 14, 3, 26, 4, 7, 2, 17, 3, 28, 6, 9, 2, 21, 4, 1, 3, 13, 2, 25, 4, 5, 3, 16, 2, 27, 6, 9,
   1, 19, 6, 30, 2, 11, 3, 23, 4, 4, 2, 14, 3, 27, 4, 7, 3, 18, 2, 28, 6, 11, 1, 22, 5, 2, 3, 12,
   3, 25, 4, 6, 2, 16, 3, 26, 6, 8, 2, 20, 4, 30, 3, 11, 2, 24, 4, 4, 3, 15, 2, 25, 6, 8, 1, 18,
   3, 29, 5, 9, 3, 22, 4, 3, 2, 13, 3, 23, 6, 6, 1, 17, 2, 27, 6, 7, 3, 20, 4, 1, 2, 11, 3, 23, 4,
   5, 2, 15, 3, 25, 6, 6, 2, 19, 1, 29, 6, 10, 2, 20, 6, 3, 1, 14, 2, 24, 6, 4, 3, 17, 1, 28, 5,
   8, 3, 20, 4, 1, 3, 12, 2, 22, 6, 2, 3, 14, 2, 26, 4, 6, 3, 17, 2, 0, 4, 10, 3, 20, 6, 1, 2, 14,
   1, 24, 6, 5, 2, 15, 3, 28, 4, 9, 2, 19, 6, 1, 1, 12, 3, 23, 5, 3, 3, 15, 1, 27, 5, 7, 3, 17, 3,
   29, 4, 11, 2, 21, 6, 1, 3, 12, 2, 25, 4, 5, 3, 16, 2, 28, 4, 9, 3, 19, 6, 30, 2, 12, 1, 23, 6,
   4, 2, 14, 3, 26, 4, 8, 2, 18, 3, 0, 4, 10, 3, 22, 5, 2, 3, 14, 1, 25, 5, 6, 3, 16, 3, 28, 4, 9,
   2, 20, 6, 30, 3, 11, 2, 23, 4, 4, 3, 15, 2, 27, 4, 7, 3, 19, 2, 29, 6, 11, 1, 21, 6, 3, 2, 13,
   3, 25, 4, 6, 2, 17, 3, 27, 6, 9, 1, 20, 5, 30, 3, 10, 3, 22, 4, 3, 2, 14, 3, 24, 6, 5, 2, 17,
   1, 28, 6, 9, 2, 21, 4, 1, 3, 13, 2, 23, 6, 5, 1, 16, 2, 27, 6, 7, 3, 19, 4, 30, 2, 11, 3, 23,
   4, 3, 3, 14, 2, 25, 6, 5, 3, 16, 2, 28, 4, 9, 3, 21, 4, 2, 2, 12, 3, 23, 6, 4, 2, 16, 1, 26, 6,
   8, 2, 20, 4, 30, 3, 11, 2, 22, 6, 4, 1, 14, 3, 25, 5, 6, 3, 18, 1, 29, 5, 9, 3, 22, 4, 2, 3,
   13, 2, 23, 6, 4, 3, 15, 2, 27, 4, 7, 3, 20, 4, 1, 2, 11, 3, 21, 6, 3, 2, 15, 1, 25, 6, 6, 2,
   17, 3, 29, 4, 10, 2, 20, 6, 3, 1, 13, 3, 24, 5, 4, 3, 17, 1, 28, 5, 8, 3, 18, 6, 1, 1, 12, 2,
   22, 6, 2, 3, 14, 2, 26, 4, 6, 3, 17, 2, 28, 6, 10, 1, 20, 6, 1, 2, 12, 3, 24, 4, 5, 2, 15, 3,
   28, 4, 9, 2, 19, 6, 33, 3, 12, 1, 23, 5, 3, 3, 13, 3, 25, 4, 6, 2, 16, 3, 26, 6, 8, 2, 20, 4,
   30, 3, 11, 2, 24, 4, 4, 3, 15, 2, 25, 6, 8, 1, 18, 6, 33, 2, 9, 3, 22, 4, 3, 2, 13, 3, 25, 4,
   6, 3, 17, 2, 27, 6, 9, 1, 21, 5, 1, 3, 11, 3, 23, 4, 5, 2, 15, 3, 25, 6, 6, 2, 19, 4, 33, 3,
   10, 2, 22, 4, 3, 3, 14, 2, 24, 6, 6, 1]

/-- The lengths of the months for each year type.
SOURCE: 159-167 -/
def s_lunarMonthLen : List (List ℕ) :=
  [[0, 0, 0, 0, 0, 0, 0, 0, 0, 0, 0, 0, 0, 0],
   [0, 30, 29, 29, 29, 30, 29, 30, 29, 30, 29, 30, 29, 0],
   [0, 30, 29, 30, 29, 30, 29, 30, 29, 30, 29, 30, 29, 0],
   [0, 30, 30, 30, 29, 30, 29, 30, 29, 30, 29, 30, 29, 0],
   [0, 30, 29, 29, 29, 30, 30, 29, 30, 29, 30, 29, 30, 29],
   [0, 30, 29, 30, 29, 30, 30, 29, 30, 29, 30, 29, 30, 29],
   [0, 30, 30, 30, 29, 30, 30, 29, 30, 29, 30, 29, 30, 29]]

/-- `s_hebrewTable[index]`. -/
def hebrewTable (index : ℤ) : Run Exception ℤ := do
  Run.observe (0 ≤ index ∧ index < 1316)
  pure (s_hebrewTable.getD index.toNat 0 : ℕ)

/-- `s_lunarMonthLen[yearType][month]`. -/
def lunarMonthLen (yearType month : ℤ) : Run Exception ℤ := do
  Run.observe ((0 ≤ yearType ∧ yearType < 7) ∧ 0 ≤ month ∧ month < 14)
  pure ((s_lunarMonthLen.getD yearType.toNat []).getD month.toNat 0 : ℕ)

/-- SOURCE: HebrewCalendar.hpp:167 -/
structure DateBuffer where
  year : ℤ
  month : ℤ
  day : ℤ
deriving DecidableEq

/-- The `switch` over the code of January 1.
SOURCE: 182-189 -/
def decodeMonth (lunarDate : DateBuffer) : DateBuffer :=
  if lunarDate.day = 0 then { lunarDate with month := 5, day := 1 }
  else if lunarDate.day = 30 then { lunarDate with month := 3 }
  else if lunarDate.day = 31 then { lunarDate with month := 5, day := 2 }
  else if lunarDate.day = 32 then { lunarDate with month := 5, day := 3 }
  else if lunarDate.day = 33 then { lunarDate with month := 3, day := 29 }
  else { lunarDate with month := 4 }

/-- The year type, and the buffer with the month and day of January 1.
SOURCE: 173-191 -/
def getLunarMonthDay (gregorianYear : ℤ) (lunarDate : DateBuffer) : Run Exception (ℤ × DateBuffer) :=
  let index := gregorianYear - firstGregorianTableYear
  if index < 0 ∨ lastGregorianTableYear - firstGregorianTableYear < index then
    Run.throwing (.outOfRange "year")
  else do
    let day ← hebrewTable (index * 2)
    let yearType ← hebrewTable (index * 2 + 1)
    pure (yearType, decodeMonth { lunarDate with day })

/-- SOURCE: 193-199 -/
def getHebrewYearType (year era : ℤ) : Run Exception ℤ :=
  if era ≠ currentEra ∧ era ≠ hebrewEra then Run.throwing (.outOfRange "era")
  else if year < minHebrewYear ∨ maxHebrewYear < year then Run.throwing (.outOfRange "year")
  else hebrewTable ((year - hebrewYearOf1AD - firstGregorianTableYear) * 2 + 1)

/-- SOURCE: 202-212 -/
def getAbsoluteDate (year month day : ℤ) : Run Exception ℤ := absoluteDate year month day

/-- SOURCE: 214-224 -/
def getDayDifference (yearType m1 d1 m2 d2 : ℤ) : Run Exception ℤ :=
  if m1 = m2 then pure (d1 - d2)
  else do
    let swap := decide (m2 < m1)
    let (m1, d1, m2, d2) := if swap then (m2, d2, m1, d1) else (m1, d1, m2, d2)
    let len ← lunarMonthLen yearType m1
    let (_, days) ← Run.whileLoop (fun p : ℤ × ℤ => decide (p.1 < m2))
      (fun (m1, days) => do
        let len ← lunarMonthLen yearType m1
        pure (m1 + 1, days + len))
      (m2 - m1).toNat (m1 + 1, len - d1)
    let days := days + d2
    pure (if swap then days else -days)

/-- Whether a year of the type has no such month.
SOURCE: 265 -/
def pastYear (yearType month : ℤ) : Run Exception Bool :=
  if 13 < month then pure true else (fun len : ℤ => len == 0) <$> lunarMonthLen yearType month

/-- The walk over the months after the one of January 1; every round takes at least a day.
SOURCE: 263-270 -/
def walkMonths (gYear : ℤ) : (fuel : ℕ) → (numDays yearType : ℤ) → (result : DateBuffer) →
    Run Exception (ℤ × DateBuffer)
  | 0, _, _, _ => Run.diverging
  | fuel + 1, numDays, yearType, result => do
    let len ← lunarMonthLen yearType result.month
    if len < numDays then do
      let numDays := numDays - len
      let result := { result with month := result.month + 1 }
      let past ← pastYear yearType result.month
      if past then do
        let yearType ← hebrewTable ((gYear + 1 - firstGregorianTableYear) * 2 + 1)
        walkMonths gYear fuel numDays yearType { result with year := result.year + 1, month := 1 }
      else walkMonths gYear fuel numDays yearType result
    else pure (numDays, result)

/-- The date a number of days after January 1.
SOURCE: 249-272 -/
def daysAfter (gYear yearType : ℤ) (lunarDate : DateBuffer) (numDays : ℤ) :
    Run Exception DateBuffer := do
  let len ← lunarMonthLen yearType lunarDate.month
  if numDays + lunarDate.day ≤ len then
    pure { lunarDate with day := lunarDate.day + numDays }
  else do
    let numDays := numDays - (len - lunarDate.day)
    let result : DateBuffer := { lunarDate with month := lunarDate.month + 1, day := 1 }
    if 1 < numDays then do
      let (numDays, result) ← walkMonths gYear numDays.toNat numDays yearType result
      pure { result with day := result.day + (numDays - 1) }
    else pure result

/-- The date whose parts `getDatePart` returns.
SOURCE: 226-277 -/
def hebrewDate (ticks : ℤ) : Run Exception DateBuffer := do
  let dt ← DateTime.ofTicks ticks
  let gYear := dt.getYearProperty
  let gMonth := dt.getMonthProperty
  let gDay := dt.getDayProperty
  let (yearType, lunarDate) ← getLunarMonthDay gYear ⟨gYear + hebrewYearOf1AD, 0, 0⟩
  let absDate ← getAbsoluteDate gYear gMonth gDay
  let absJan1 ← getAbsoluteDate gYear 1 1
  if gMonth = 1 ∧ gDay = 1 then pure lunarDate
  else daysAfter gYear yearType lunarDate (absDate - absJan1)

/-- The parts of a date that are asked for.
SOURCE: HebrewCalendar.hpp:178-180 -/
inductive Part where
  | year
  | month
  | day

/-- SOURCE: 226-277 -/
def getDatePart (ticks : ℤ) (part : Part) : Run Exception ℤ := do
  let result ← hebrewDate ticks
  pure (match part with
    | .year => result.year
    | .month => result.month
    | .day => result.day)

/-- SOURCE: 279-298 -/
def hebrewToGregorian (hy hm hd hour min sec ms : ℤ) : Run Exception DateTime := do
  let gregorianYear := hy - hebrewYearOf1AD
  let (yearType, jan1) ← getLunarMonthDay gregorianYear ⟨0, 0, 0⟩
  let timeTicks ← addTimeOfDay 0 hour min sec ms
  let first ← getAbsoluteDate gregorianYear 1 1
  let jan1Ticks := (first - 1) * ticksPerDay
  if hm = jan1.month ∧ hd = jan1.day then do
    let ticks ← Run.signed 64 (jan1Ticks + timeTicks)
    DateTime.ofTicks ticks
  else do
    let days ← getDayDifference yearType hm hd jan1.month jan1.day
    let ticks ← Run.signed 64 (jan1Ticks + days * ticksPerDay + timeTicks)
    DateTime.ofTicks ticks

/-- SOURCE: 304-306 -/
def getYear (time : DateTime) : Run Exception ℤ := getDatePart time.ticks .year

/-- SOURCE: 308-310 -/
def getMonth (time : DateTime) : Run Exception ℤ := getDatePart time.ticks .month

/-- SOURCE: 312-314 -/
def getDayOfMonth (time : DateTime) : Run Exception ℤ := getDatePart time.ticks .day

/-- The first day of a year; the first year of all starts before the years of the table.
SOURCE: 318-324 -/
def beginOfYear (year : ℤ) : Run Exception DateTime :=
  if year = minHebrewYear then DateTime.ofComponents 1582 9 27 0 0 0 0
  else hebrewToGregorian year 1 1 0 0 0 0

/-- SOURCE: 316-327 -/
def getDayOfYear (time : DateTime) : Run Exception ℤ := do
  let year ← getYear time
  let beginOfYear ← beginOfYear year
  pure (((time.ticks : ℤ) - beginOfYear.ticks).tdiv ticksPerDay + 1)

/-- SOURCE: 329-335 -/
def isLeapYear (year era : ℤ) : Run Exception Bool :=
  if era ≠ currentEra ∧ era ≠ hebrewEra then Run.throwing (.outOfRange "era")
  else if year < minHebrewYear ∨ maxHebrewYear < year then Run.throwing (.outOfRange "year")
  else pure (decide ((7 * year + 1).tmod 19 < 7))

/-- SOURCE: 337-339 -/
def getMonthsInYear (year era : ℤ) : Run Exception ℤ := do
  let leap ← isLeapYear year era
  pure (if leap then 13 else 12)

/-- SOURCE: 341-348 -/
def getDaysInMonth (year month era : ℤ) : Run Exception ℤ := do
  let yearType ← getHebrewYearType year era
  let leap ← isLeapYear year era
  let maxMonth : ℤ := if leap then 13 else 12
  if month < 1 ∨ maxMonth < month then Run.throwing (.outOfRange "month")
  else do
    let days ← lunarMonthLen yearType month
    if days = 0 then Run.throwing (.outOfRange "month") else pure days

/-- SOURCE: 350-353 -/
def getDaysInYear (year era : ℤ) : Run Exception ℤ := do
  let yearType ← getHebrewYearType year era
  pure (if yearType < 4 then 352 + yearType else 382 + yearType - 3)

/-- The loop of `addMonths` that goes forward; no year has less than twelve months.
SOURCE: 370 -/
def forward : (fuel : ℕ) → (i y : ℤ) → Run Exception (ℤ × ℤ)
  | 0, _, _ => Run.diverging
  | fuel + 1, i, y => do
    let n ← getMonthsInYear y currentEra
    if n < i then forward fuel (i - n) (y + 1) else pure (i, y)

/-- The loop of `addMonths` that goes back.
SOURCE: 377 -/
def backward : (fuel : ℕ) → (months y : ℤ) → Run Exception (ℤ × ℤ)
  | 0, _, _ => Run.diverging
  | fuel + 1, months, y => do
    let n ← getMonthsInYear y currentEra
    if n < months then backward fuel (months - n) (y - 1) else pure (months, y)

/-- The year and month of `addMonths`.
SOURCE: 367-382 -/
def carry (y m months : ℤ) : Run Exception (ℤ × ℤ) :=
  let i := m + months
  if 0 ≤ months then do
    let (i, y) ← forward (i.toNat + 1) i y
    pure (y, i)
  else if i ≤ 0 then do
    let (months, y) ← backward ((-months - m).toNat + 1) (-months - m) (y - 1)
    let n ← getMonthsInYear y currentEra
    pure (y, n - months)
  else pure (y, i)

/-- SOURCE: 383-387, 404-408 -/
def clampDay (time : DateTime) (y m d : ℤ) : Run Exception DateTime := do
  let maxDay ← getDaysInMonth y m currentEra
  let d := if maxDay < d then maxDay else d
  let day ← hebrewToGregorian y m d 0 0 0 0
  DateTime.ofTicks (day.ticks + time.ticks % ticksPerDay)

/-- SOURCE: 355-388 -/
def addMonths (time : DateTime) (months : ℤ) : Run Exception DateTime :=
  if months < -120000 ∨ 120000 < months then
    Run.throwing (.argumentOutOfRange "months"
      "Valid values are between -120000 and 120000, inclusive.")
  else do
    let y ← getYear time
    let m ← getMonth time
    let d ← getDayOfMonth time
    let (y, m) ← carry y m months
    clampDay time y m d

/-- SOURCE: 390-409 -/
def addYears (time : DateTime) (years : ℤ) : Run Exception DateTime := do
  let y ← getYear time
  let y64 := y + years
  if y64 < minHebrewYear ∨ maxHebrewYear < y64 then Run.throwing (.outOfRange "years")
  else do
    let m ← getMonth time
    let d ← getDayOfMonth time
    let n ← getMonthsInYear y64 currentEra
    clampDay time y64 (if n < m then n else m) d

/-- SOURCE: 411-424 -/
def toDateTime (year month day hour minute second millisecond era : ℤ) : Run Exception DateTime := do
  let daysInMonth ← getDaysInMonth year month era
  if day < 1 ∨ daysInMonth < day then Run.throwing (.outOfRange "day")
  else hebrewToGregorian year month day hour minute second millisecond

end SharpRuntime.Model.HebrewCalendar
