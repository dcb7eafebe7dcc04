import SharpRuntime.Model.TimeSpan

/-!
# `System::DateTimeOffset`

The constructors, the arithmetic, the Unix time conversions, the parsers and the round trip format
of `modules/core/src/System/DateTimeOffset.cpp`, under the source's names; bare line numbers are of
this file.  A `DateTimeOffset` is a clock `DateTime` and its offset from UTC.  The current offset of
the process's time zone is an argument; the clock of the system (`Now`, `UtcNow`) is not modelled.
-/

set_option autoImplicit false

namespace SharpRuntime.Model

open Machine
open DateTime

structure DateTimeOffset where
  dateTime_ : DateTime
  offset_ : TimeSpan
deriving DecidableEq

namespace DateTimeOffset

def unixEpochTicks : ℕ := 621355968000000000

/-- SOURCE: 116-128 -/
def validateOffset (offset : TimeSpan) : Run Exception Unit :=
  let maxOffsetMinutes : ℤ := 14 * 60
  if offset.ticks.toInt.tmod TimeSpan.ticksPerMinute ≠ 0 then
    Run.throwing (.argument "Offset must be specified in whole minutes." "offset")
  else
    let offsetMinutes := offset.ticks.toInt.tdiv TimeSpan.ticksPerMinute
    if offsetMinutes < -maxOffsetMinutes ∨ offsetMinutes > maxOffsetMinutes then
      Run.throwing (.argumentOutOfRange "offset" "Offset must be within plus or minus 14 hours.")
    else pure ()

/-- SOURCE: 132-138 -/
def validateUtcRange (clockDateTime : DateTime) (offset : TimeSpan) : Run Exception Unit := do
  let utcTicks ← Run.signed 64 (clockDateTime.ticks - offset.ticks.toInt)
  if utcTicks < 0 ∨ utcTicks > maxTicks then
    Run.throwing (.argumentOutOfRange "offset"
      "The UTC time represented when the offset is applied must be between year 0 and 10,000.")
  else pure ()

/-- SOURCE: 140-143 -/
def validateOffsetAndRange (clockDateTime : DateTime) (offset : TimeSpan) : Run Exception Unit := do
  validateOffset offset
  validateUtcRange clockDateTime offset

/-- The styles without those that are accepted and then ignored.
SOURCE: 66-95 -/
def validateDateTimeOffsetStyles (styles : DateTimeStyles) : Run Exception DateTimeStyles :=
  let kAllowed : DateTimeStyles := .allowLeadingWhite ||| .allowTrailingWhite ||| .allowInnerWhite |||
    .adjustToUniversal ||| .assumeLocal ||| .assumeUniversal ||| .roundtripKind
  let assumeBoth : DateTimeStyles := .assumeLocal ||| .assumeUniversal
  if styles &&& ~~~kAllowed ≠ 0 then
    Run.throwing (.argument ("An undefined or unsupported DateTimeStyles value is being used for "
      ++ "DateTimeOffset.") "styles")
  else if styles &&& assumeBoth = assumeBoth then
    Run.throwing (.argument ("The DateTimeStyles values AssumeLocal and AssumeUniversal cannot be "
      ++ "used together.") "styles")
  else
    let ignored : DateTimeStyles := .roundtripKind ||| .assumeLocal
    pure (styles &&& ~~~ignored)

/-- `DateTimeOffset()`. -/
def default : DateTimeOffset := ⟨DateTime.default, TimeSpan.zero⟩

/-- `DateTimeOffset(const DateTime& dateTime, const TimeSpan& offset)`.
SOURCE: 179-202 -/
def ofDateTimeOffset (currentLocalOffsetTicks : Int64) (dateTime : DateTime) (offset : TimeSpan) :
    Run Exception DateTimeOffset :=
  if dateTime.getKindProperty = DateTimeKind.local_ ∧ offset.ticks ≠ currentLocalOffsetTicks then
    Run.throwing (.argument
      "The UTC Offset of the local dateTime parameter does not match the offset argument." "offset")
  else if dateTime.getKindProperty = DateTimeKind.utc ∧ offset.ticks ≠ 0 then
    Run.throwing (.argument "The UTC Offset for Utc DateTime instances must be 0." "offset")
  else do
    validateOffsetAndRange dateTime offset
    let dateTime_ ← specifyKind dateTime .unspecified
    pure ⟨dateTime_, offset⟩

/-- `DateTimeOffset(const DateTime& dateTime)`.
SOURCE: 204-213 -/
def ofDateTime (currentLocalOffsetTicks : Int64) (dateTime : DateTime) :
    Run Exception DateTimeOffset := do
  let dateTime_ ← specifyKind dateTime .unspecified
  let offset_ : TimeSpan :=
    if dateTime.getKindProperty = DateTimeKind.utc then ⟨0⟩ else ⟨currentLocalOffsetTicks⟩
  validateOffsetAndRange dateTime_ offset_
  pure ⟨dateTime_, offset_⟩

/-- `DateTimeOffset(longcs ticks, const TimeSpan& offset)`; the offset is checked first.
SOURCE: 167-170, 215-216 -/
def ofTicks (currentLocalOffsetTicks : Int64) (ticks : ℤ) (offset : TimeSpan) :
    Run Exception DateTimeOffset := do
  validateOffset offset
  let clock ← DateTime.ofTicks ticks
  ofDateTimeOffset currentLocalOffsetTicks clock offset

/-- `DateTimeOffset(intcs year, intcs month, intcs day, intcs hour, intcs minute, intcs second,
intcs millisecond, const TimeSpan& offset)`; the shorter constructor leaves the milliseconds zero.
SOURCE: 161-165, 218-226 -/
def ofComponents (currentLocalOffsetTicks : Int64)
    (year month day hour minute second millisecond : ℤ) (offset : TimeSpan) :
    Run Exception DateTimeOffset := do
  validateOffset offset
  let clock ← DateTime.ofComponents year month day hour minute second millisecond
  ofDateTimeOffset currentLocalOffsetTicks clock offset

def minValue : DateTimeOffset := ⟨DateTime.minValue, ⟨0⟩⟩

/-- SOURCE: 271-273 -/
def getUtcTicksProperty (x : DateTimeOffset) : Run Exception ℤ :=
  Run.signed 64 (x.dateTime_.ticks - x.offset_.ticks.toInt)

/-- SOURCE: 291-293 -/
def getUtcDateTimeProperty (x : DateTimeOffset) : Run Exception DateTime := do
  let utcTicks ← x.getUtcTicksProperty
  ofTicksKind utcTicks .utc

/-- SOURCE: 300-310 -/
def toOffset (currentLocalOffsetTicks : Int64) (x : DateTimeOffset) (offset : TimeSpan) :
    Run Exception DateTimeOffset := do
  let utcTicks ← x.getUtcTicksProperty
  let utc ← DateTime.ofTicks utcTicks
  let clock ← utc.add offset
  ofDateTimeOffset currentLocalOffsetTicks clock offset

/-- SOURCE: 370-372 -/
def toUniversalTime (currentLocalOffsetTicks : Int64) (x : DateTimeOffset) :
    Run Exception DateTimeOffset := do
  let utc ← x.getUtcDateTimeProperty
  ofDateTimeOffset currentLocalOffsetTicks utc TimeSpan.zero

/-- The shifted clock is computed in unsigned words, and clamped where it leaves the range.
SOURCE: 374-390 -/
def toLocalTime (currentLocalOffsetTicks : Int64) (x : DateTimeOffset) :
    Run Exception DateTimeOffset := do
  let offsetTicks := currentLocalOffsetTicks.toInt
  let utcTicks ← x.getUtcTicksProperty
  let shifted := wrap 64 (utcTicks + offsetTicks)
  let clockTicks : ℤ :=
    if shifted > DateTime.maxTicks then (if offsetTicks < 0 then 0 else DateTime.maxTicks) else shifted
  let clock ← DateTime.ofTicks clockTicks
  ofDateTimeOffset currentLocalOffsetTicks clock ⟨currentLocalOffsetTicks⟩

section Arithmetic

variable (currentLocalOffsetTicks : Int64) (x : DateTimeOffset)

/-- SOURCE: 316-318 -/
def add (ts : TimeSpan) : Run Exception DateTimeOffset := do
  let clock ← x.dateTime_.add ts
  ofDateTimeOffset currentLocalOffsetTicks clock x.offset_

/-- SOURCE: 320-322 -/
def addDays (days : Float) : Run Exception DateTimeOffset := do
  let ts ← TimeSpan.fromSeconds (days * Binary64.ofInt 86400)
  x.add currentLocalOffsetTicks ts

/-- SOURCE: 324-326 -/
def addHours (hours : Float) : Run Exception DateTimeOffset := do
  let ts ← TimeSpan.fromHours hours
  x.add currentLocalOffsetTicks ts

/-- SOURCE: 328-330 -/
def addMinutes (minutes : Float) : Run Exception DateTimeOffset := do
  let ts ← TimeSpan.fromMinutes minutes
  x.add currentLocalOffsetTicks ts

/-- SOURCE: 332-334 -/
def addSeconds (seconds : Float) : Run Exception DateTimeOffset := do
  let ts ← TimeSpan.fromSeconds seconds
  x.add currentLocalOffsetTicks ts

/-- SOURCE: 336-338 -/
def addMilliseconds (ms : Float) : Run Exception DateTimeOffset := do
  let ts ← TimeSpan.fromSeconds (ms / Binary64.ofInt 1000)
  x.add currentLocalOffsetTicks ts

/-- SOURCE: 340-351 -/
def addMonths (months : ℤ) : Run Exception DateTimeOffset := do
  let clock ← x.dateTime_.addMonths months
  ofDateTimeOffset currentLocalOffsetTicks clock x.offset_

/-- SOURCE: 353-356 -/
def addYears (years : ℤ) : Run Exception DateTimeOffset := do
  let clock ← x.dateTime_.addYears years
  ofDateTimeOffset currentLocalOffsetTicks clock x.offset_

/-- SOURCE: 358-360 -/
def addTicks (ticks : ℤ) : Run Exception DateTimeOffset := do
  let clock ← x.dateTime_.addTicks ticks
  ofDateTimeOffset currentLocalOffsetTicks clock x.offset_

/-- `Subtract(const TimeSpan& ts)`.
SOURCE: 366-368 -/
def subtract (ts : TimeSpan) : Run Exception DateTimeOffset := do
  let clock ← x.dateTime_.subtract ts
  ofDateTimeOffset currentLocalOffsetTicks clock x.offset_

end Arithmetic

/-- The exception of a Unix time, with the bounds and the value in its message.
SOURCE: 399-403, 412-416; ArgumentOutOfRangeException.cpp:52-61 -/
def unixTimeOutOfRange (paramName : String) (value min max : ℤ) : Exception :=
  .argumentOutOfRange paramName ("Valid values are between " ++ toString min ++ " and " ++
    toString max ++ ", inclusive." ++ "\nActual value was " ++ toString value ++ ".")

/-- The conversion from a number of units since 1970. -/
def fromUnixTime (currentLocalOffsetTicks : Int64) (paramName : String) (unit : ℕ) (value : ℤ) :
    Run Exception DateTimeOffset :=
  let unixEpoch : ℤ := (unixEpochTicks / unit : ℕ)
  let min : ℤ := 0 - unixEpoch
  let max : ℤ := (maxTicks / unit : ℕ) - unixEpoch
  if value < min ∨ value > max then Run.throwing (unixTimeOutOfRange paramName value min max)
  else do
    let product ← Run.signed 64 (value * unit)
    let ticks ← Run.signed 64 (product + unixEpochTicks)
    let clock ← DateTime.ofTicks ticks
    ofDateTimeOffset currentLocalOffsetTicks clock TimeSpan.zero

/-- SOURCE: 395-406 -/
def fromUnixTimeSeconds (currentLocalOffsetTicks : Int64) (seconds : ℤ) :
    Run Exception DateTimeOffset :=
  fromUnixTime currentLocalOffsetTicks "seconds" ticksPerSecond seconds

/-- SOURCE: 408-419 -/
def fromUnixTimeMilliseconds (currentLocalOffsetTicks : Int64) (milliseconds : ℤ) :
    Run Exception DateTimeOffset :=
  fromUnixTime currentLocalOffsetTicks "milliseconds" ticksPerMillisecond milliseconds

/-- The conversion to a number of units since 1970. -/
def toUnixTime (unit : ℕ) (x : DateTimeOffset) : Run Exception ℤ := do
  let utcTicks ← x.getUtcTicksProperty
  Run.signed 64 (utcTicks.tdiv unit - (unixEpochTicks / unit : ℕ))

/-- SOURCE: 421-424 -/
def toUnixTimeSeconds (x : DateTimeOffset) : Run Exception ℤ :=
  x.toUnixTime ticksPerSecond

/-- SOURCE: 426-429 -/
def toUnixTimeMilliseconds (x : DateTimeOffset) : Run Exception ℤ :=
  x.toUnixTime ticksPerMillisecond

/-- `DateTime::ToString()`.
SOURCE: DateTime.cpp:450-458 -/
def clockText (x : DateTime) : List Char :=
  pad x.getYearProperty.toNat 4 ++ '-' :: (pad x.getMonthProperty.toNat 2 ++ '-' ::
    (pad x.getDayProperty.toNat 2 ++ ' ' :: (pad x.getHourProperty.toNat 2 ++ ':' ::
    (pad x.getMinuteProperty.toNat 2 ++ ':' :: pad x.getSecondProperty.toNat 2))))

/-- SOURCE: 534-542; TimeSpan.cpp:180 -/
def formatOffset (off : TimeSpan) : List Char :=
  let totalMinutes := Binary64.ofInt off.ticks.toInt / Binary64.ofInt TimeSpan.ticksPerMinute
  let totalMin := (Binary64.toInt64 totalMinutes).toInt
  let sign := if totalMin < 0 then '-' else '+'
  let hh := totalMin.natAbs / 60
  let mm := totalMin.natAbs % 60
  sign :: (pad hh 2 ++ ':' :: pad mm 2)

/-- `ToString(const std::string& format)`.
SOURCE: 544-589 -/
def toString (x : DateTimeOffset) (format : List Char) : Run Exception (List Char) :=
  let info := DateTimeFormatInfo.getInstance none
  if format = [] then pure (clockText x.dateTime_ ++ formatOffset x.offset_)
  else if format = ['O'] ∨ format = ['o'] then
    x.dateTime_.formatCustom "yyyy-MM-ddTHH:mm:ss.fffffffzzz".toList info (some x.offset_)
  else if format = ['R'] ∨ format = ['r'] then do
    let utc ← x.getUtcDateTimeProperty
    let text ← utc.toString "ddd, dd MMM yyyy HH:mm:ss".toList none
    pure (text ++ " GMT".toList)
  else if format = ['u'] then do
    let utc ← x.getUtcDateTimeProperty
    utc.toString "yyyy-MM-dd HH:mm:ssZ".toList none
  else if format = ['U'] then Run.throwing invalidFormat
  else if format.length = 1 then x.dateTime_.toString format none
  else x.dateTime_.formatCustom format info (some x.offset_)

/-- The offset after a date and a time, and what is left: the current one of the process where the
text ends.
SOURCE: 459-497 -/
def takeOffset (currentLocalOffsetTicks : Int64) (text : List Char) :
    Run Exception (Option (TimeSpan × List Char)) :=
  match (take 'Z' text).or (take 'z' text) with
  | some text => pure (some (TimeSpan.zero, text))
  | none =>
    if text = [] then pure (some (⟨currentLocalOffsetTicks⟩, text))
    else
      match takeUtcOffsetMinutes text with
      | none => pure none
      | some (signedMinutes, text) =>
        if signedMinutes < -14 * 60 ∨ signedMinutes > 14 * 60 then pure none
        else do
          let offset ← TimeSpan.fromMinutes (Binary64.ofInt signedMinutes)
          pure (some (offset, text))

/-- The parts and the offset of a text, if the whole text is a date, a time and an offset.
SOURCE: 442-498 -/
def parseParts (currentLocalOffsetTicks : Int64) (s : List Char) :
    Run Exception (Option (DateTimeParts × TimeSpan)) :=
  match takeDateTimeParts (trimDateTimeText s) with
  | none => pure none
  | some (parts, text) => do
    match ← takeOffset currentLocalOffsetTicks text with
    | none => pure none
    | some (offset, text) => pure (if text = [] then some (parts, offset) else none)

/-- The clock of the parts; `none` where its construction throws.
SOURCE: 500-507 -/
def clockOfParts (parts : DateTime.DateTimeParts) : Run Exception (Option DateTime) :=
  Run.catching (do
    let dt ← DateTime.ofComponents parts.year parts.month parts.day parts.hour parts.minute
      parts.second 0
    let dt ← dt.addTicks parts.fractionTicks
    pure (some dt)) none

/-- `tryParse`: whether it succeeded, and the value of `result`.
SOURCE: 435-521 -/
def tryParse (currentLocalOffsetTicks : Int64) (s : List Char) :
    Run Exception (Bool × DateTimeOffset) := do
  match ← parseParts currentLocalOffsetTicks s with
  | none => pure (false, minValue)
  | some (parts, offset) => do
    match ← clockOfParts parts with
    | none => pure (false, minValue)
    | some dt =>
      Run.catching (do
        let result ← ofDateTimeOffset currentLocalOffsetTicks dt offset
        pure (true, result)) (false, minValue)

/-- The offset of the bound fields: the one they state, or zero or the zone's; `none` where the
source returns `false`.
SOURCE: 712-733 -/
def offsetOfFields (styles : DateTimeStyles) (zone : Option ILocalTimeZone)
    (fields : ExactDateTimeFields) (candidate : DateTime) : Run Exception (Option TimeSpan) :=
  if fields.hasOffset then
    if fields.offsetMinutes < -14 * 60 ∨ fields.offsetMinutes > 14 * 60 then pure none
    else some <$> TimeSpan.fromMinutes (Binary64.ofInt fields.offsetMinutes)
  else if styles.has .assumeUniversal then pure (some ⟨0⟩)
  else
    match zone with
    | none =>
      Run.throwing (.argumentNull "zone" ("A local time zone is required because the format carries "
        ++ "no offset token, so the offset defaults to local. Pass "
        ++ "System::TimeZone::CurrentTimeZone(), use a format with `zzz` or `K`, or use "
        ++ "DateTimeStyles::AssumeUniversal."))
    | some zone => pure (some (zone.getUtcOffset candidate))

/-- The value of a clock and an offset, where both and the instant they represent are in range.
SOURCE: 735-758 -/
def valueOfOffset (currentLocalOffsetTicks : Int64) (styles : DateTimeStyles) (candidate : DateTime)
    (offset : TimeSpan) : Run Exception (Option DateTimeOffset) :=
  let offsetTicks := offset.ticks.toInt
  if offsetTicks.tmod TimeSpan.ticksPerMinute ≠ 0 ∨ offsetTicks < -14 * TimeSpan.ticksPerHour ∨
      offsetTicks > 14 * TimeSpan.ticksPerHour then pure none
  else
    let utcTicks := wrap 64 (candidate.ticks - offsetTicks)
    if utcTicks > DateTime.maxTicks then pure none
    else if styles.has .adjustToUniversal then do
      let candidate ← DateTime.ofTicks utcTicks
      some <$> ofDateTimeOffset currentLocalOffsetTicks candidate TimeSpan.zero
    else some <$> ofDateTimeOffset currentLocalOffsetTicks candidate offset

/-- The value `tryParseExact` assigns to its result after the styles have been validated; `none`
where it returns `false`.  Up to the zone its checks are those of `DateTime::TryParseExact`.
SOURCE: 661-758 -/
def parseExactCore (currentLocalOffsetTicks : Int64) (input format : List Char)
    (provider : Option DateTimeFormatInfo) (styles : DateTimeStyles) (zone : Option ILocalTimeZone) :
    Run Exception (Option DateTimeOffset) :=
  match exactPattern format >>= fun pattern =>
    matchExactFormat input pattern .dateAndTime {} (exactOptions provider styles) with
  | none => pure none
  | some fields => do
    match ← candidateOfFields fields with
    | none => pure none
    | some candidate => do
      match ← offsetOfFields styles zone fields candidate with
      | none => pure none
      | some offset => valueOfOffset currentLocalOffsetTicks styles candidate offset

/-- What `tryParseExact` leaves: the run, and the value of `result`.  Rejected styles leave the
latter alone; any other failure leaves the default.
SOURCE: 655-661 -/
def withStyles (styles : DateTimeStyles) (result : DateTimeOffset)
    (parse : DateTimeStyles → Run Exception (Option DateTimeOffset)) :
    Run Exception Bool × DateTimeOffset :=
  match (validateDateTimeOffsetStyles styles).outcome with
  | .returned styles =>
    (Option.isSome <$> parse styles,
      match (parse styles).outcome with
      | .returned (some value) => value
      | _ => default)
  | _ => (validateDateTimeOffsetStyles styles >>= fun _ => pure false, result)

/-- SOURCE: 648-760 -/
def tryParseExact (currentLocalOffsetTicks : Int64) (input format : List Char)
    (provider : Option DateTimeFormatInfo) (styles : DateTimeStyles) (result : DateTimeOffset)
    (zone : Option ILocalTimeZone) : Run Exception Bool × DateTimeOffset :=
  withStyles styles result fun styles =>
    parseExactCore currentLocalOffsetTicks input format provider styles zone

/-- The first of the formats that `tryOne` accepts; an empty format ends the loop.
SOURCE: InvariantExactDateTimeParser.hpp:167-173 -/
def firstOf (tryOne : List Char → Run Exception (Option DateTimeOffset)) :
    List (List Char) → Run Exception (Option DateTimeOffset)
  | [] => pure none
  | format :: formats =>
    if format = [] then pure none
    else do
      match ← tryOne format with
      | some value => pure (some value)
      | none => firstOf tryOne formats

/-- `tryParseExact` over several formats; each one is tried with the styles that are left.
SOURCE: 768-788; InvariantExactDateTimeParser.hpp:155-174 -/
def tryParseExactMany (currentLocalOffsetTicks : Int64) (input : List Char)
    (formats : List (List Char)) (provider : Option DateTimeFormatInfo) (styles : DateTimeStyles)
    (result : DateTimeOffset) (zone : Option ILocalTimeZone) : Run Exception Bool × DateTimeOffset :=
  withStyles styles result fun styles =>
    if formats = [] ∨ input = [] then pure none
    else
      firstOf (fun format => do
        let (returned, candidate) :=
          tryParseExact currentLocalOffsetTicks input format provider styles default zone
        let matched ← returned
        pure (if matched then some candidate else none)) formats

end DateTimeOffset

end SharpRuntime.Model
