import SharpRuntime.Model.Exception

/-!
# `System::DateTime`

The packed word, the calendar conversions and the arithmetic of
`modules/core/src/System/DateTime.cpp` (bare line numbers are of this file) and
`modules/core/include/System/DateTime.hpp`, under the source's names: 62 bits of ticks of 100 ns
below two bits of kind.  Signed operations that could leave their type are recorded by `Run.signed`.
`toTm` works on a tick count below `2 ^ 62`, whose day count fits an `int`.  The clock (`Now`,
`Today`) is not modelled.
-/

set_option autoImplicit false

namespace SharpRuntime.Model

open Machine

/-- `TimeSpan`: a signed number of ticks. -/
structure TimeSpan where
  ticks : Int64
deriving DecidableEq

/-- `DateTimeKind`; the source's enumeration can hold any `int`. -/
structure DateTimeKind where
  raw : BitVec 32
deriving DecidableEq

namespace DateTimeKind

def unspecified : DateTimeKind := ⟨0⟩

def utc : DateTimeKind := ⟨1⟩

def local_ : DateTimeKind := ⟨2⟩

end DateTimeKind

/-- The word `dateData_`. -/
structure DateTime where
  dateData : BitVec 64
deriving DecidableEq

/-- The fields of `std::tm` that `toTm` sets. -/
structure Tm where
  tm_sec : ℤ
  tm_min : ℤ
  tm_hour : ℤ
  tm_mday : ℤ
  tm_mon : ℤ
  tm_year : ℤ
  tm_wday : ℤ
  tm_yday : ℤ
deriving DecidableEq

/-- What a `DateTime` asks of a time zone.
SOURCE: ILocalTimeZone.hpp:49-67 -/
structure ILocalTimeZone where
  getUtcOffset : DateTime → TimeSpan
  getUtcOffsetFromUniversalTime : DateTime → TimeSpan

namespace DateTime

def ticksPerMillisecond : ℕ := 10000

def ticksPerSecond : ℕ := 10000000

def ticksPerMinute : ℕ := 600000000

def ticksPerHour : ℕ := 36000000000

def ticksPerDay : ℕ := 864000000000

def maxTicks : ℕ := 3155378975999999999

def maxDays : ℕ := maxTicks / ticksPerDay

def maxHours : ℕ := maxTicks / ticksPerHour

def ticksMask : BitVec 64 := 0x3FFFFFFFFFFFFFFF#64

def flagsMask : BitVec 64 := 0xC000000000000000#64

def kKindShift : ℕ := 62

/-- The tick count without the kind bits.
SOURCE: DateTime.hpp:105-107 -/
def ticks (x : DateTime) : ℕ := (x.dateData &&& ticksMask).toNat

def daysPerYear : ℕ := 365

def daysPer4Years : ℕ := daysPerYear * 4 + 1

def daysPer100Years : ℕ := daysPer4Years * 25 - 1

def daysPer400Years : ℕ := daysPer100Years * 4 + 1

def daysToMonth365 : List ℕ := [0, 31, 59, 90, 120, 151, 181, 212, 243, 273, 304, 334, 365]

def daysToMonth366 : List ℕ := [0, 31, 60, 91, 121, 152, 182, 213, 244, 274, 305, 335, 366]

/-- The year of a day number, the days of that year before it, and whether the year is a
leap year.
SOURCE: 47-61 -/
def yearOfDays (absoluteDays : ℕ) : ℕ × ℕ × Bool :=
  let years400 := absoluteDays / daysPer400Years
  let remainingDays := absoluteDays - years400 * daysPer400Years
  let years100 := if remainingDays / daysPer100Years = 4 then 3 else remainingDays / daysPer100Years
  let remainingDays := remainingDays - years100 * daysPer100Years
  let years4 := remainingDays / daysPer4Years
  let remainingDays := remainingDays - years4 * daysPer4Years
  let years1 := if remainingDays / daysPerYear = 4 then 3 else remainingDays / daysPerYear
  let year := years400 * 400 + years100 * 100 + years4 * 4 + years1 + 1
  let remainingDays := remainingDays - years1 * daysPerYear
  let leap := decide (years1 = 3) && (decide (years4 ≠ 24) || decide (years100 = 3))
  (year, remainingDays, leap)

/-- The loop `while (remainingDays >= daysToMonth[month]) ++month`, over the entries of the
table from `month` on.
SOURCE: 64 -/
def scanMonth (remainingDays : ℕ) : ℕ → List ℕ → ℕ
  | month, [] => month
  | month, bound :: rest =>
    if remainingDays ≥ bound then scanMonth remainingDays (month + 1) rest else month

/-- The month of a day of the year.
SOURCE: 63-64 -/
def monthOfDays (daysToMonth : List ℕ) (remainingDays : ℕ) : ℕ :=
  let month := (remainingDays >>> 5) + 1
  scanMonth remainingDays month (daysToMonth.drop month)

/-- The calendar components of a `DateTime`.
SOURCE: 36-80 -/
def toTm (x : DateTime) : Tm :=
  let rawTicks := x.ticks
  let absoluteDays := rawTicks / ticksPerDay
  let (year, remainingDays, leap) := yearOfDays absoluteDays
  let daysToMonth := if leap then daysToMonth366 else daysToMonth365
  let month := monthOfDays daysToMonth remainingDays
  let timeTicks := rawTicks % ticksPerDay
  { tm_year := (year : ℤ) - 1900
    tm_mon := (month : ℤ) - 1
    tm_mday := (remainingDays : ℤ) - (daysToMonth.getD (month - 1) 0 : ℕ) + 1
    tm_yday := remainingDays
    tm_wday := ((absoluteDays + 1) % 7 : ℕ)
    tm_hour := (timeTicks / ticksPerHour : ℕ)
    tm_min := (timeTicks % ticksPerHour / ticksPerMinute : ℕ)
    tm_sec := (timeTicks % ticksPerHour % ticksPerMinute / ticksPerSecond : ℕ) }

def getYearProperty (x : DateTime) : ℤ := x.toTm.tm_year + 1900

def getMonthProperty (x : DateTime) : ℤ := x.toTm.tm_mon + 1

def getDayProperty (x : DateTime) : ℤ := x.toTm.tm_mday

def getHourProperty (x : DateTime) : ℤ := x.toTm.tm_hour

def getMinuteProperty (x : DateTime) : ℤ := x.toTm.tm_min

def getSecondProperty (x : DateTime) : ℤ := x.toTm.tm_sec

def getMillisecondProperty (x : DateTime) : ℤ := (x.ticks % ticksPerSecond / ticksPerMillisecond : ℕ)

def getDayOfWeekProperty (x : DateTime) : ℤ := x.toTm.tm_wday

def getDayOfYearProperty (x : DateTime) : ℤ := x.toTm.tm_yday + 1

/-- The test of a leap year, as `dateToTicks` and `isLeapYear` write it. -/
def isLeap (year : ℤ) : Bool :=
  decide (year % 4 = 0) && (decide (year % 100 ≠ 0) || decide (year % 400 = 0))

/-- The tick count of calendar components, all of them `int`s.
SOURCE: 84-147 -/
def dateToTicks (year month day hour minute second millisecond : ℤ) : Run Exception ℤ :=
  if year < 1 ∨ year > 9999 ∨ month < 1 ∨ month > 12 ∨ day < 1 then
    Run.throwing (.argumentOutOfRange "year" "DateTime: date component out of range")
  else
    let d := if isLeap year then daysToMonth366 else daysToMonth365
    if day > (d.getD month.toNat 0 : ℤ) - d.getD (month - 1).toNat 0 then
      Run.throwing (.argumentOutOfRange "day" "DateTime: day out of range for given month")
    else if wrap 32 hour ≥ 24 ∨ wrap 32 minute ≥ 60 ∨ wrap 32 second ≥ 60 then
      Run.throwing (.argumentOutOfRange ""
        "Hour, Minute, and Second parameters describe an un-representable DateTime.")
    else if wrap 32 millisecond ≥ 1000 then
      Run.throwing (.argumentOutOfRange "millisecond"
        "Valid values are between 0 and 999, inclusive.")
    else
      let y := year - 1
      let days := y * 365 + y / 4 - y / 100 + y / 400 + d.getD (month - 1).toNat 0 + day - 1
      Run.signed 64 (days * ticksPerDay + hour * ticksPerHour + minute * ticksPerMinute
        + second * ticksPerSecond + millisecond * ticksPerMillisecond)

/-- SOURCE: 350-354 -/
def isLeapYear (year : ℤ) : Run Exception Bool :=
  if year < 1 ∨ year > 9999 then
    Run.throwing (.argumentOutOfRange "year" "DateTime: year out of range")
  else
    pure (isLeap year)

/-- SOURCE: 356-362 -/
def daysInMonth (year month : ℤ) : Run Exception ℤ :=
  if month < 1 ∨ month > 12 then
    Run.throwing (.argumentOutOfRange "month" "DateTime: month out of range")
  else do
    let leap ← isLeapYear year
    let dpm := if leap then [31, 29, 31, 30, 31, 30, 31, 31, 30, 31, 30, 31]
      else [31, 28, 31, 30, 31, 30, 31, 31, 30, 31, 30, 31]
    pure (dpm.getD (month - 1).toNat 0)

/-- `DateTime()`. -/
def default : DateTime := ⟨0⟩

/-- `DateTime(longcs ticks)`.
SOURCE: 183-187 -/
def ofTicks (ticks : ℤ) : Run Exception DateTime :=
  if ticks < 0 ∨ ticks > maxTicks then
    Run.throwing (.argumentOutOfRange "ticks"
      "Ticks must be between DateTime.MinValue.Ticks and DateTime.MaxValue.Ticks.")
  else
    pure ⟨BitVec.ofInt 64 ticks⟩

/-- SOURCE: 160-164 -/
def throwIfInvalidKind (kind : DateTimeKind) : Run Exception Unit :=
  if kind.raw > DateTimeKind.local_.raw then
    Run.throwing (.argument "Invalid DateTimeKind value." "kind")
  else
    pure ()

/-- `DateTime(longcs ticks, DateTimeKind kind)`.
SOURCE: 189-198 -/
def ofTicksKind (ticks : ℤ) (kind : DateTimeKind) : Run Exception DateTime :=
  if ticks < 0 ∨ ticks > maxTicks then
    Run.throwing (.argumentOutOfRange "ticks"
      "Ticks must be between DateTime.MinValue.Ticks and DateTime.MaxValue.Ticks.")
  else do
    throwIfInvalidKind kind
    pure ⟨BitVec.ofInt 64 ticks ||| (kind.raw.setWidth 64 <<< kKindShift)⟩

/-- SOURCE: 200-208 -/
def getKindProperty (x : DateTime) : DateTimeKind :=
  let kind := (x.dateData >>> kKindShift).setWidth 32
  ⟨kind &&& ~~~(kind >>> 1)⟩

/-- SOURCE: 210-213 -/
def specifyKind (value : DateTime) (kind : DateTimeKind) : Run Exception DateTime := do
  throwIfInvalidKind kind
  ofTicksKind value.ticks kind

/-- `DateTime(int year, int month, int day, int hour, int minute, int second,
int millisecond)`; the shorter constructors leave the last components zero.
SOURCE: 215-223 -/
def ofComponents (year month day hour minute second millisecond : ℤ) : Run Exception DateTime := do
  let ticks ← dateToTicks year month day hour minute second millisecond
  pure ⟨BitVec.ofInt 64 ticks⟩

/-- SOURCE: 231-238 -/
def withTicksPreservingKind (x : DateTime) (replacementTicks : ℤ) : Run Exception DateTime := do
  let result ← ofTicks replacementTicks
  pure ⟨result.dateData ||| (x.dateData &&& flagsMask)⟩

/-- The exception of an addition that leaves the range. -/
def valueOutOfRange : Exception :=
  .argumentOutOfRange "value" "Value to add was out of range."

/-- SOURCE: 311-322 -/
def addTicks (x : DateTime) (value : ℤ) : Run Exception DateTime :=
  let newTicks := BitVec.ofNat 64 x.ticks + BitVec.ofInt 64 value
  if newTicks > BitVec.ofNat 64 maxTicks then
    Run.throwing valueOutOfRange
  else
    x.withTicksPreservingKind newTicks.toInt

/-- SOURCE: 263-265 -/
def add (x : DateTime) (value : TimeSpan) : Run Exception DateTime :=
  x.addTicks value.ticks.toInt

/-- SOURCE: 267-271 -/
def addDays (x : DateTime) (days : ℤ) : Run Exception DateTime :=
  if days < -(maxDays : ℤ) ∨ days > maxDays then
    Run.throwing valueOutOfRange
  else do
    let value ← Run.signed 64 (days * ticksPerDay)
    x.addTicks value

/-- SOURCE: 273-277 -/
def addHours (x : DateTime) (hours : ℤ) : Run Exception DateTime :=
  if hours < -(maxHours : ℤ) ∨ hours > maxHours then
    Run.throwing valueOutOfRange
  else do
    let value ← Run.signed 64 (hours * ticksPerHour)
    x.addTicks value

/-- SOURCE: 279-284 -/
def addMinutes (x : DateTime) (minutes : ℤ) : Run Exception DateTime := do
  let value ← Run.signed 64 (minutes * ticksPerMinute)
  x.addTicks value

/-- SOURCE: 286-288 -/
def addSeconds (x : DateTime) (seconds : ℤ) : Run Exception DateTime := do
  let value ← Run.signed 64 (seconds * ticksPerSecond)
  x.addTicks value

/-- SOURCE: 290-292 -/
def addMilliseconds (x : DateTime) (milliseconds : ℤ) : Run Exception DateTime := do
  let value ← Run.signed 64 (milliseconds * ticksPerMillisecond)
  x.addTicks value

/-- `Subtract(const TimeSpan& value)`.
SOURCE: 294-305 -/
def subtract (x : DateTime) (value : TimeSpan) : Run Exception DateTime :=
  let diff := BitVec.ofNat 64 x.ticks - value.ticks.toBitVec
  if diff > BitVec.ofNat 64 maxTicks then
    Run.throwing valueOutOfRange
  else
    x.withTicksPreservingKind diff.toInt

/-- The shift of a month by a number of months: the years to carry, rounded down, and the
month that remains. -/
def carryMonths (month months : ℤ) : ℤ × ℤ :=
  let m := month + months
  let q := if m > 0 then (m - 1).tdiv 12 else m.tdiv 12 - 1
  (q, m - q * 12)

/-- SOURCE: 324-342 -/
def addMonths (x : DateTime) (months : ℤ) : Run Exception DateTime :=
  if months < -120000 ∨ months > 120000 then
    Run.throwing (.argumentOutOfRange "months" "DateTime: months out of range")
  else
    let (q, m) := carryMonths x.getMonthProperty months
    let y := x.getYearProperty + q
    if y < 1 ∨ y > 9999 then
      Run.throwing (.argumentOutOfRange "months" "DateTime: resulting year out of range")
    else do
      let dim ← daysInMonth y m
      let timeOfDay := x.ticks % ticksPerDay
      let days ← dateToTicks y m (min x.getDayProperty dim) 0 0 0 0
      let sum ← Run.signed 64 (days + timeOfDay)
      x.withTicksPreservingKind sum

/-- SOURCE: 344-348 -/
def addYears (x : DateTime) (value : ℤ) : Run Exception DateTime :=
  if value < -10000 ∨ value > 10000 then
    Run.throwing (.argumentOutOfRange "value" "DateTime: years out of range")
  else
    x.addMonths (value * 12)

/-- SOURCE: 422-435 -/
def toLocalTime (x : DateTime) (zone : ILocalTimeZone) : Run Exception DateTime :=
  if x.getKindProperty = DateTimeKind.local_ then
    pure x
  else do
    let offset := (zone.getUtcOffsetFromUniversalTime x).ticks.toInt
    let currentTicks : ℤ := x.ticks
    let headroom ← Run.signed 64 (maxTicks - currentTicks)
    if offset > headroom then
      ofTicksKind maxTicks DateTimeKind.local_
    else if offset < -currentTicks then
      ofTicksKind 0 DateTimeKind.local_
    else do
      let shifted ← Run.signed 64 (currentTicks + offset)
      ofTicksKind shifted DateTimeKind.local_

/-- SOURCE: 437-448 -/
def toUniversalTime (x : DateTime) (zone : ILocalTimeZone) : Run Exception DateTime :=
  if x.getKindProperty = DateTimeKind.utc then
    pure x
  else do
    let offset := (zone.getUtcOffset x).ticks.toInt
    let currentTicks : ℤ := x.ticks
    if offset > currentTicks then
      ofTicksKind 0 DateTimeKind.utc
    else do
      let floor ← Run.signed 64 (currentTicks - maxTicks)
      if offset < floor then
        ofTicksKind maxTicks DateTimeKind.utc
      else do
        let shifted ← Run.signed 64 (currentTicks - offset)
        ofTicksKind shifted DateTimeKind.utc

end DateTime

end SharpRuntime.Model
