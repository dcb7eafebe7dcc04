import SharpRuntime.Interface.DateTimeValue
import SharpRuntime.Model.DateTimeOffset

/-!
# What a `DateTimeOffset` denotes

The clock and the offset of a `DateTimeOffset` name an instant (`utcTicks`).  The offset is a number
of whole minutes up to 14 hours, and both the clock and the instant are ticks of a date (`InRange`).
`Produced` are the values the public operations make, from one another and from valid dates,
wherever the local time zone stands at each call; `OffsetLaws` is what a caller may rely on.
-/

set_option autoImplicit false

namespace SharpRuntime.Model.DateTimeOffset

open Machine

def utcTicks (x : DateTimeOffset) : ℤ := x.dateTime_.ticks - x.offset_.ticks.toInt

/-- A number of whole minutes, of at most 14 hours. -/
structure WholeMinutes (offset : TimeSpan) : Prop where
  dvd : (TimeSpan.ticksPerMinute : ℤ) ∣ offset.ticks.toInt
  lower : -14 * (TimeSpan.ticksPerHour : ℤ) ≤ offset.ticks.toInt
  upper : offset.ticks.toInt ≤ 14 * (TimeSpan.ticksPerHour : ℤ)

/-- The class invariant. -/
structure InRange (x : DateTimeOffset) : Prop where
  clock_le : x.dateTime_.ticks ≤ DateTime.maxTicks
  unspecified : x.dateTime_.kindBits = 0
  offset : WholeMinutes x.offset_
  utc_nonneg : 0 ≤ x.utcTicks
  utc_le : x.utcTicks ≤ DateTime.maxTicks

end SharpRuntime.Model.DateTimeOffset

namespace SharpRuntime.Interface

open Machine Model

/-- The constructors, conversions, arithmetic and parsers of `DateTimeOffset`. -/
inductive OffsetOperation where
  | default
  | ofDateTimeOffset (dateTime : DateTime) (offset : TimeSpan)
  | ofDateTime (dateTime : DateTime)
  | ofTicks (ticks : Int64) (offset : TimeSpan)
  | ofComponents (year month day hour minute second : Int32) (offset : TimeSpan)
  | ofComponentsMillisecond (year month day hour minute second millisecond : Int32)
      (offset : TimeSpan)
  | toOffset (receiver : DateTimeOffset) (offset : TimeSpan)
  | toUniversalTime (receiver : DateTimeOffset)
  | toLocalTime (receiver : DateTimeOffset)
  | add (receiver : DateTimeOffset) (ts : TimeSpan)
  | addDays (receiver : DateTimeOffset) (days : Float)
  | addHours (receiver : DateTimeOffset) (hours : Float)
  | addMinutes (receiver : DateTimeOffset) (minutes : Float)
  | addSeconds (receiver : DateTimeOffset) (seconds : Float)
  | addMilliseconds (receiver : DateTimeOffset) (ms : Float)
  | addMonths (receiver : DateTimeOffset) (months : Int32)
  | addYears (receiver : DateTimeOffset) (years : Int32)
  | addTicks (receiver : DateTimeOffset) (ticks : Int64)
  | subtract (receiver : DateTimeOffset) (ts : TimeSpan)
  | fromUnixTimeSeconds (seconds : Int64)
  | fromUnixTimeMilliseconds (milliseconds : Int64)
  | tryParse (text : List Char)
  | tryParseExact (input format : List Char) (provider : Option DateTimeFormatInfo)
      (styles : DateTimeStyles) (result : DateTimeOffset) (zone : Option ILocalTimeZone)
  | tryParseExactMany (input : List Char) (formats : List (List Char))
      (provider : Option DateTimeFormatInfo) (styles : DateTimeStyles) (result : DateTimeOffset)
      (zone : Option ILocalTimeZone)

namespace OffsetOperation

def dateTime : OffsetOperation → Option DateTime
  | ofDateTimeOffset dateTime _ | ofDateTime dateTime => some dateTime
  | _ => none

def receiver : OffsetOperation → Option DateTimeOffset
  | toOffset receiver _ | toUniversalTime receiver | toLocalTime receiver | add receiver _
  | addDays receiver _ | addHours receiver _ | addMinutes receiver _ | addSeconds receiver _
  | addMilliseconds receiver _ | addMonths receiver _ | addYears receiver _ | addTicks receiver _
  | subtract receiver _ => some receiver
  | tryParseExact _ _ _ _ result _ | tryParseExactMany _ _ _ _ result _ => some result
  | _ => none

def exactParse (currentLocalOffsetTicks : Int64) :
    OffsetOperation → Option (Run Exception Bool × DateTimeOffset)
  | tryParseExact input format provider styles result zone =>
    some (DateTimeOffset.tryParseExact currentLocalOffsetTicks input format provider styles result
      zone)
  | tryParseExactMany input formats provider styles result zone =>
    some (DateTimeOffset.tryParseExactMany currentLocalOffsetTicks input formats provider styles
      result zone)
  | _ => none

def evaluate (currentLocalOffsetTicks : Int64) : OffsetOperation → Run Exception DateTimeOffset
  | default => pure DateTimeOffset.default
  | ofDateTimeOffset dateTime offset =>
    DateTimeOffset.ofDateTimeOffset currentLocalOffsetTicks dateTime offset
  | ofDateTime dateTime => DateTimeOffset.ofDateTime currentLocalOffsetTicks dateTime
  | ofTicks ticks offset => DateTimeOffset.ofTicks currentLocalOffsetTicks ticks.toInt offset
  | ofComponents y mo d h mi s offset =>
    DateTimeOffset.ofComponents currentLocalOffsetTicks y.toInt mo.toInt d.toInt h.toInt mi.toInt
      s.toInt 0 offset
  | ofComponentsMillisecond y mo d h mi s ms offset =>
    DateTimeOffset.ofComponents currentLocalOffsetTicks y.toInt mo.toInt d.toInt h.toInt mi.toInt
      s.toInt ms.toInt offset
  | toOffset x offset => x.toOffset currentLocalOffsetTicks offset
  | toUniversalTime x => x.toUniversalTime currentLocalOffsetTicks
  | toLocalTime x => x.toLocalTime currentLocalOffsetTicks
  | add x ts => x.add currentLocalOffsetTicks ts
  | addDays x days => x.addDays currentLocalOffsetTicks days
  | addHours x hours => x.addHours currentLocalOffsetTicks hours
  | addMinutes x minutes => x.addMinutes currentLocalOffsetTicks minutes
  | addSeconds x seconds => x.addSeconds currentLocalOffsetTicks seconds
  | addMilliseconds x ms => x.addMilliseconds currentLocalOffsetTicks ms
  | addMonths x months => x.addMonths currentLocalOffsetTicks months.toInt
  | addYears x years => x.addYears currentLocalOffsetTicks years.toInt
  | addTicks x ticks => x.addTicks currentLocalOffsetTicks ticks.toInt
  | subtract x ts => x.subtract currentLocalOffsetTicks ts
  | fromUnixTimeSeconds seconds =>
    DateTimeOffset.fromUnixTimeSeconds currentLocalOffsetTicks seconds.toInt
  | fromUnixTimeMilliseconds milliseconds =>
    DateTimeOffset.fromUnixTimeMilliseconds currentLocalOffsetTicks milliseconds.toInt
  | tryParse text => Prod.snd <$> DateTimeOffset.tryParse currentLocalOffsetTicks text
  | tryParseExact input format provider styles result zone =>
    let (returned, value) := DateTimeOffset.tryParseExact currentLocalOffsetTicks input format
      provider styles result zone
    returned >>= fun _ => pure value
  | tryParseExactMany input formats provider styles result zone =>
    let (returned, value) := DateTimeOffset.tryParseExactMany currentLocalOffsetTicks input formats
      provider styles result zone
    returned >>= fun _ => pure value

end OffsetOperation

/-- The values a caller can hold: each was returned by an operation, or left behind by an exact
parse, which writes its result even where it throws. -/
inductive Produced : DateTimeOffset → Prop
  | returned {x : DateTimeOffset} (currentLocalOffsetTicks : Int64) (op : OffsetOperation)
      (hdate : ∀ d ∈ op.dateTime, d.Valid) (hreceiver : ∀ y ∈ op.receiver, Produced y)
      (hreturn : (op.evaluate currentLocalOffsetTicks).outcome = .returned x) : Produced x
  | left {run : Run Exception Bool} {x : DateTimeOffset} (currentLocalOffsetTicks : Int64)
      (op : OffsetOperation) (hreceiver : ∀ y ∈ op.receiver, Produced y)
      (hparse : op.exactParse currentLocalOffsetTicks = some (run, x)) : Produced x

/-- The styles that an exact parse accepts, and that leave the offset as it is stated: `None` is one. -/
structure KeepsOffset (styles : DateTimeStyles) : Prop where
  accepted : ∃ kept, DateTimeOffset.validateDateTimeOffsetStyles styles = pure kept
  adjust : styles.has .adjustToUniversal = false

/-- What holds of a value: it is in range; its round trip text is read back by both parsers; a change
of its offset keeps the instant, or throws; and its Unix time is the floor of the exact one. -/
structure OffsetLaws (x : DateTimeOffset) : Prop where
  inRange : x.InRange
  getUtcTicksProperty : x.getUtcTicksProperty = pure x.utcTicks
  roundTrip : ∃ text, x.toString ['o'] = pure text ∧
    (∀ currentLocalOffsetTicks,
      DateTimeOffset.tryParse currentLocalOffsetTicks text = pure (true, x)) ∧
    ∀ currentLocalOffsetTicks provider styles result zone, KeepsOffset styles →
      DateTimeOffset.tryParseExact currentLocalOffsetTicks text ['o'] provider styles result zone =
        (pure true, x)
  toOffset : ∀ currentLocalOffsetTicks offset,
    (x.toOffset currentLocalOffsetTicks offset).Ensures fun y =>
      y.offset_ = offset ∧ y.utcTicks = x.utcTicks
  toUnixTimeSeconds : x.toUnixTimeSeconds =
    pure ⌊((x.utcTicks - DateTimeOffset.unixEpochTicks : ℤ) : ℚ) / DateTime.ticksPerSecond⌋
  toUnixTimeMilliseconds : x.toUnixTimeMilliseconds =
    pure ⌊((x.utcTicks - DateTimeOffset.unixEpochTicks : ℤ) : ℚ) / DateTime.ticksPerMillisecond⌋

/-- A Unix time that is accepted is given back. -/
structure UnixTimeLaws : Prop where
  seconds : ∀ currentLocalOffsetTicks (seconds : Int64) x,
    (DateTimeOffset.fromUnixTimeSeconds currentLocalOffsetTicks seconds.toInt).outcome =
      .returned x → x.toUnixTimeSeconds = pure seconds.toInt
  milliseconds : ∀ currentLocalOffsetTicks (milliseconds : Int64) x,
    (DateTimeOffset.fromUnixTimeMilliseconds currentLocalOffsetTicks milliseconds.toInt).outcome =
      .returned x → x.toUnixTimeMilliseconds = pure milliseconds.toInt

end SharpRuntime.Interface
