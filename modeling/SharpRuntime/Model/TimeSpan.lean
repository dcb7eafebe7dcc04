import SharpRuntime.Machine.Binary64
import SharpRuntime.Machine.Scan
import SharpRuntime.Model.ExactDateTime

/-!
# `TimeSpan`

`toString` and `parse`, the conversions from doubles, the arithmetic on ticks and the constructor
from components, of `modules/core/src/System/TimeSpan.cpp`, under the source's names.

A C string is the list of its characters up to the first NUL, and a pointer into one is what is
left of it.  The source's `result` parameter, which is written only on success, is the value
that `TimeSpanParseOutcome.Ok` carries. Bare line numbers are of `TimeSpan.cpp`.
-/

set_option autoImplicit false

namespace SharpRuntime.Model.TimeSpan

open Machine

def ticksPerSecond : ℕ := 10000000

def ticksPerMinute : ℕ := ticksPerSecond * 60

def ticksPerHour : ℕ := ticksPerMinute * 60

def ticksPerDay : ℕ := ticksPerHour * 24

/-- The largest number of days `parse` admits. -/
def kParseMaxDays : ℕ := 10675199

/-- The longest run of digits `parse` admits. -/
def kParseMaxDigitRun : ℕ := 18

/-- The absolute value of the ticks, as an unsigned word; that of the smallest value is not a
signed one.
SOURCE: 313-318 -/
def magnitude (x : TimeSpan) : Run Exception ℕ :=
  if x.ticks < 0 then do
    let successor ← Run.signed 64 (x.ticks.toInt + 1)
    let negated ← Run.signed 64 (-successor)
    Run.word 64 (wrap 64 negated + 1)
  else pure (wrap 64 x.ticks.toInt)

/-- `std::setw(w)` with the fill character `0`. -/
def setw (w n : ℕ) : List Char := Printed.text (Printed.padded 10 w n)

/-- SOURCE: 309-349 -/
def toString (x : TimeSpan) : Run Exception (List Char) := do
  let magnitude ← x.magnitude
  let days := magnitude / ticksPerDay
  let magnitude := magnitude % ticksPerDay
  let hours := magnitude / ticksPerHour
  let magnitude := magnitude % ticksPerHour
  let minutes := magnitude / ticksPerMinute
  let magnitude := magnitude % ticksPerMinute
  let seconds := magnitude / ticksPerSecond
  let magnitude := magnitude % ticksPerSecond
  pure ((if x.ticks < 0 then ['-'] else []) ++
    (if days ≠ 0 then DateTime.toText days ++ '.' :: setw 2 hours else DateTime.toText hours) ++
    ':' :: (setw 2 minutes ++ ':' :: (setw 2 seconds ++ '.' :: setw 7 magnitude)))

/-- How `parseTimeSpanCore` ends. -/
inductive TimeSpanParseOutcome where
  | ok (result : TimeSpan)
  | badFormat
  | overflow
deriving DecidableEq

/-- Whether some run of digits, the first one going on after `run` digits, is too long. -/
def overlongFrom : (run : ℕ) → List Char → Bool
  | _, [] => false
  | run, ch :: s =>
    if Printed.isDigit ch then
      if run + 1 > kParseMaxDigitRun then true else overlongFrom (run + 1) s
    else overlongFrom 0 s

/-- SOURCE: 475-484 -/
def hasOverlongDigitRun (s : List Char) : Bool := overlongFrom 0 s

/-- The input without white space around it.
SOURCE: 496-506 -/
def trimInput (s : List Char) : List Char :=
  if s.head?.any DateTime.isWhitespace ∨ s.getLast?.any DateTime.isWhitespace then
    DateTime.trimDateTimeText s
  else s

/-- The days, hours, minutes and seconds, if the scan converts all of them: there is a day part
where a dot comes before the first colon.
SOURCE: 512-530 -/
def scanFields (p : List Char) : Run Exception (Option (ℤ × ℤ × ℤ × ℤ)) :=
  let hasDot : Bool := (p.takeWhile (· ≠ ':')).elem '.'
  if hasDot then do
    match ← Scan.sscanf [.longLong, .char '.', .longLong, .char ':', .longLong, .char ':', .longLong] p with
    | [days, hours, minutes, seconds] => pure (some (days, hours, minutes, seconds))
    | _ => pure none
  else do
    match ← Scan.sscanf [.longLong, .char ':', .longLong, .char ':', .longLong] p with
    | [hours, minutes, seconds] => pure (some (0, hours, minutes, seconds))
    | _ => pure none

/-- What is left after so many colons. -/
def afterColons : (colons : ℕ) → List Char → List Char
  | 0, p => p
  | _ + 1, [] => []
  | colons + 1, c :: p => if c = ':' then afterColons colons p else afterColons (colons + 1) p

/-- The ticks of the fraction of a second, and what is left after it.
SOURCE: 545-562 -/
def takeSubsecond (p : List Char) : ℕ × List Char :=
  let afterSec := (afterColons 2 p).dropWhile Printed.isDigit
  match DateTime.take '.' afterSec with
  | none => (0, afterSec)
  | some afterSec =>
    let (fracVal, fracDigits, afterSec) := DateTime.scanDigits 7 0 0 afterSec
    (fracVal * 10 ^ (7 - fracDigits), afterSec)

/-- The value of a magnitude; on the negative side there is one more.
SOURCE: 593-603 -/
def ofMagnitude (negative : Bool) (magnitude : ℕ) : TimeSpanParseOutcome :=
  let kMaxPositiveMagnitude := 2 ^ 63 - 1
  if negative then
    if magnitude > kMaxPositiveMagnitude + 1 then .overflow
    else .ok ⟨Int64.ofInt (-magnitude)⟩
  else if magnitude > kMaxPositiveMagnitude then .overflow
  else .ok ⟨Int64.ofInt magnitude⟩

/-- The checks on the fields, and the value; the magnitude is accumulated in unsigned words.
SOURCE: 531-603 -/
def ofFields (negative : Bool) (p : List Char) (days hours minutes seconds : ℤ) :
    TimeSpanParseOutcome :=
  if hours < 0 ∨ hours > 23 ∨ minutes < 0 ∨ minutes > 59 ∨ seconds < 0 ∨ seconds > 59 then .badFormat
  else if days < 0 then .badFormat
  else if days > kParseMaxDays then .overflow
  else
    let (subsecTicks, afterSec) := takeSubsecond p
    if afterSec ≠ [] then .badFormat
    else
      ofMagnitude negative (wrap 64 (days * ticksPerDay + hours * ticksPerHour +
        minutes * ticksPerMinute + seconds * ticksPerSecond + subsecTicks))

/-- SOURCE: 490-604 -/
def parseTimeSpanCore (s : List Char) : Run Exception TimeSpanParseOutcome :=
  if s = [] then pure .badFormat
  else
    let input := trimInput s
    if input = [] then pure .badFormat
    else if hasOverlongDigitRun input then pure .overflow
    else
      let p := input.takeWhile (· ≠ '\x00')
      let negative : Bool := p.head? = some '-'
      let p := if negative then p.tail else p
      do
        match ← scanFields p with
        | none => pure .badFormat
        | some (days, hours, minutes, seconds) => pure (ofFields negative p days hours minutes seconds)

/-- SOURCE: 610-627 -/
def parse (s : List Char) : Run Exception TimeSpan := do
  match ← parseTimeSpanCore s with
  | .ok result => pure result
  | .overflow =>
    Run.throwing (.overflow ("The TimeSpan string '" ++ String.ofList s ++ "' could not be parsed "
      ++ "because at least one of the numeric components is out of range or contains too many digits."))
  | .badFormat =>
    Run.throwing (.format ("String was not recognized as a valid TimeSpan: " ++ String.ofList s))

end SharpRuntime.Model.TimeSpan

/-!
# Exact parsing of a `TimeSpan`

`matchExactTimeSpanFormat` of `modules/core/include/System/detail/ExactTimeSpanParser.hpp` and
`tryParseExact` of `modules/core/src/System/TimeSpan.cpp`, under the source's names.  The matcher
reads its format from the left; `none` stands for `return false`.  The characters of a token are
counted in an `int`, so that a format here stands for one of fewer than `2 ^ 31` characters.
-/

namespace SharpRuntime.Model

open Machine

/-- `TimeSpanStyles`; the source's enumeration can hold any `int`. -/
abbrev TimeSpanStyles := BitVec 32

def TimeSpanStyles.none : TimeSpanStyles := 0#32

def TimeSpanStyles.assumeNegative : TimeSpanStyles := 1#32

namespace TimeSpan

/-- The components an exact format binds.
SOURCE: ExactTimeSpanParser.hpp:41-44 -/
structure ExactTimeSpanFields where
  days : ℕ := 0
  hours : ℕ := 0
  minutes : ℕ := 0
  seconds : ℕ := 0
  fractionTicks : ℕ := 0
deriving DecidableEq

/-- The matcher between two tokens: what is left of the format and of the input, the fields bound so
far, and which components have been seen. -/
structure ExactTimeSpanState where
  format : List Char
  input : List Char
  fields : ExactTimeSpanFields := {}
  seenDays : Bool := false
  seenHours : Bool := false
  seenMinutes : Bool := false
  seenSeconds : Bool := false
  seenFraction : Bool := false

/-- The digits of a component `h`, `m` or `s` with `tokenLen` specifiers.
SOURCE: ExactTimeSpanParser.hpp:97-104 -/
def takeComponent (tokenLen : ℕ) (seen : Bool) (input : List Char) : Option (ℕ × List Char) :=
  if tokenLen > 2 ∨ seen then none
  else (DateTime.takeDigits tokenLen tokenLen input).map fun (out, _, input) => (out, input)

/-- The digits of the component `d`: one specifier means one to eight of them.
SOURCE: ExactTimeSpanParser.hpp:105-112 -/
def takeDays (tokenLen : ℕ) (seen : Bool) (input : List Char) : Option (ℕ × List Char) :=
  if tokenLen > 8 ∨ seen then none
  else
    let minDigits := if tokenLen < 2 then 1 else tokenLen
    let maxDigits := if tokenLen < 2 then 8 else tokenLen
    (DateTime.takeDigits minDigits maxDigits input).map fun (out, _, input) => (out, input)

/-- The digits of a fraction, scaled to ticks by their number; `F` goes on without them, past those
it has read.
SOURCE: ExactTimeSpanParser.hpp:113-131 -/
def takeFraction (c : Char) (tokenLen : ℕ) (s : ExactTimeSpanState) : Option ExactTimeSpanState :=
  if tokenLen > 7 ∨ s.seenFraction then none
  else
    let (raw, digitsRead, input) := DateTime.scanDigits tokenLen 0 0 s.input
    if digitsRead < tokenLen then
      if c = 'f' then none else some { s with input, seenFraction := true }
    else
      some { s with
        input
        fields := { s.fields with fractionTicks := raw * 10 ^ (7 - digitsRead) }
        seenFraction := true }

/-- One token of the format, at the front of `c :: tail`.
SOURCE: ExactTimeSpanParser.hpp:93-157 -/
def matchToken (c : Char) (tail : List Char) (s : ExactTimeSpanState) : Option ExactTimeSpanState :=
  let tokenLen := DateTime.runOf false c tail
  let rest := tail.drop (tokenLen - 1)
  if c = 'h' then
    (takeComponent tokenLen s.seenHours s.input).map fun (hours, input) =>
      { s with format := rest, input, fields := { s.fields with hours }, seenHours := true }
  else if c = 'm' then
    (takeComponent tokenLen s.seenMinutes s.input).map fun (minutes, input) =>
      { s with format := rest, input, fields := { s.fields with minutes }, seenMinutes := true }
  else if c = 's' then
    (takeComponent tokenLen s.seenSeconds s.input).map fun (seconds, input) =>
      { s with format := rest, input, fields := { s.fields with seconds }, seenSeconds := true }
  else if c = 'd' then
    (takeDays tokenLen s.seenDays s.input).map fun (days, input) =>
      { s with format := rest, input, fields := { s.fields with days }, seenDays := true }
  else if c = 'f' ∨ c = 'F' then
    takeFraction c tokenLen { s with format := rest }
  else if c = '\'' ∨ c = '"' then
    let quoted := tail.takeWhile (· ≠ c)
    match tail.drop quoted.length with
    | [] => none
    | _ :: rest => (DateTime.takeAll quoted s.input).map fun input => { s with format := rest, input }
  else if c = '%' then
    match tail with
    | [] => none
    | d :: _ => if d = '%' then none else some { s with format := tail }
  else if c = '\\' then
    match tail with
    | [] => none
    | d :: rest => (DateTime.take d s.input).map fun input => { s with format := rest, input }
  else none

/-- The matcher's loop, of at most `fuel` iterations. -/
def matchTokens : (fuel : ℕ) → ExactTimeSpanState → Option ExactTimeSpanState
  | 0, s => if s.format.isEmpty then some s else none
  | fuel + 1, s =>
    match s.format with
    | [] => some s
    | c :: tail => matchToken c tail s >>= matchTokens fuel

/-- SOURCE: ExactTimeSpanParser.hpp:82-171 -/
def matchExactTimeSpanFormat (input format : List Char) : Option ExactTimeSpanFields := do
  let s ← matchTokens format.length { format, input }
  if s.input ≠ [] then none
  else if s.fields.days > kParseMaxDays ∨ s.fields.hours > 23 ∨ s.fields.minutes > 59 ∨
      s.fields.seconds > 59 then none
  else some s.fields

/-- SOURCE: 711-717 -/
def validateTimeSpanStyles (styles : TimeSpanStyles) : Run Exception Unit :=
  if styles.toInt ≠ 0 ∧ styles.toInt ≠ 1 then
    Run.throwing (.argument "An undefined TimeSpanStyles value is being used." "styles")
  else pure ()

/-- The ticks of the fields, with the sign of the style.
SOURCE: 761-769 -/
def exactTicks (styles : TimeSpanStyles) (fields : ExactTimeSpanFields) : Run Exception ℤ := do
  let sign : ℤ := if styles = .assumeNegative then -1 else 1
  let days ← Run.signed 64 (fields.days * ticksPerDay)
  let hours ← Run.signed 64 (fields.hours * ticksPerHour)
  let sum ← Run.signed 64 (days + hours)
  let minutes ← Run.signed 64 (fields.minutes * ticksPerMinute)
  let sum ← Run.signed 64 (sum + minutes)
  let seconds ← Run.signed 64 (fields.seconds * ticksPerSecond)
  let sum ← Run.signed 64 (sum + seconds)
  let sum ← Run.signed 64 (sum + fields.fractionTicks)
  Run.signed 64 (sign * sum)

/-- `tryParse`: whether it succeeded, and the value of `result`, which only a success writes.
SOURCE: 606-608 -/
def tryParse (s : List Char) (result : TimeSpan) : Run Exception (Bool × TimeSpan) := do
  match ← parseTimeSpanCore s with
  | .ok value => pure (true, value)
  | _ => pure (false, result)

/-- `tryParseExact`: whether it succeeded, and the value of `result`; a rejected style leaves that
alone.
SOURCE: 727-774 -/
def tryParseExact (input format : List Char) (styles : TimeSpanStyles) :
    Run Exception (Bool × TimeSpan) := do
  validateTimeSpanStyles styles
  let result : TimeSpan := ⟨0⟩
  if format = [] then pure (false, result)
  else if format.length = 1 then
    if format ∈ [['c'], ['t'], ['T']] then tryParse input result else pure (false, result)
  else
    match matchExactTimeSpanFormat input format with
    | none => pure (false, result)
    | some fields => do
      let ticks ← exactTicks styles fields
      pure (true, ⟨Int64.ofInt ticks⟩)

def zero : TimeSpan := ⟨0⟩

def maxValue : TimeSpan := ⟨Int64.maxValue⟩

/-- The largest `longcs` rounds up to `2 ^ 63`, which is no `longcs`; a number between the bounds is
cut off after the point.
SOURCE: 236-242 -/
def intervalFromDoubleTicks (ticks : Float) : Run Exception TimeSpan :=
  if ticks.isNaN ∨ Binary64.ofInt (2 ^ 63 - 1) < ticks ∨ ticks < Binary64.ofInt (-2 ^ 63) then
    Run.throwing (.overflow "TimeSpan overflowed because the duration is too long.")
  else if ticks == Binary64.ofInt (2 ^ 63 - 1) then pure maxValue
  else pure ⟨Binary64.toInt64 ticks⟩

/-- SOURCE: 229-234 -/
def interval (value scale : Float) : Run Exception TimeSpan :=
  if value.isNaN then
    Run.throwing (.argument "TimeSpan does not accept floating point Not-a-Number values." "")
  else intervalFromDoubleTicks (value * scale)

/-- SOURCE: 225-227 -/
def fromHours (value : Float) : Run Exception TimeSpan := interval value (Binary64.ofInt ticksPerHour)

/-- SOURCE: 252-254 -/
def fromMinutes (value : Float) : Run Exception TimeSpan :=
  interval value (Binary64.ofInt ticksPerMinute)

/-- SOURCE: 262-264 -/
def fromSeconds (value : Float) : Run Exception TimeSpan :=
  interval value (Binary64.ofInt ticksPerSecond)

def minValue : TimeSpan := ⟨Int64.minValue⟩

def durationTooLong : Exception :=
  .overflow "TimeSpan overflowed because the duration is too long."

def noDurationOfMinValue : Exception :=
  .overflow ("The duration cannot be returned for TimeSpan.MinValue because the absolute value " ++
    "of TimeSpan.MinValue exceeds the value of TimeSpan.MaxValue.")

def noNegationOfMinValue : Exception :=
  .overflow "Negating the minimum value of a twos complement number is invalid."

/-- A positive `ts` leaves too little room above.
SOURCE: 185 -/
def overflowsAbove (x ts : TimeSpan) : Run Exception Bool :=
  if 0 < ts.ticks.toInt then do
    let room ← Run.signed 64 (Int64.maxValue.toInt - ts.ticks.toInt)
    pure (decide (room < x.ticks.toInt))
  else pure false

/-- A negative `ts` leaves too little room below.
SOURCE: 186 -/
def overflowsBelow (x ts : TimeSpan) : Run Exception Bool :=
  if ts.ticks.toInt < 0 then do
    let room ← Run.signed 64 (Int64.minValue.toInt - ts.ticks.toInt)
    pure (decide (x.ticks.toInt < room))
  else pure false

/-- The sum is formed only after a look at the room that `ts` leaves.
SOURCE: 184-191 -/
def add (x ts : TimeSpan) : Run Exception TimeSpan := do
  let above ← x.overflowsAbove ts
  let overflows ← (if above then pure true else x.overflowsBelow ts)
  if overflows then Run.throwing durationTooLong
  else do
    let sum ← Run.signed 64 (x.ticks.toInt + ts.ticks.toInt)
    pure ⟨Int64.ofInt sum⟩

/-- SOURCE: 207-211 -/
def duration (x : TimeSpan) : Run Exception TimeSpan :=
  if x.ticks = minValue.ticks then Run.throwing noDurationOfMinValue
  else if 0 ≤ x.ticks.toInt then pure ⟨x.ticks⟩
  else do
    let negated ← Run.signed 64 (-x.ticks.toInt)
    pure ⟨Int64.ofInt negated⟩

/-- SOURCE: 248-252 -/
def negate (x : TimeSpan) : Run Exception TimeSpan :=
  if x.ticks = minValue.ticks then Run.throwing noNegationOfMinValue
  else do
    let negated ← Run.signed 64 (-x.ticks.toInt)
    pure ⟨Int64.ofInt negated⟩

/-- The difference wraps in unsigned words, and the sign bits of the three words tell whether it
did.
SOURCE: 258-283 -/
def subtract (x ts : TimeSpan) : Run Exception TimeSpan :=
  let result := (x.ticks.toUInt64 - ts.ticks.toUInt64).toInt64
  let signShift : Int64 := 63
  if x.ticks >>> signShift ≠ ts.ticks >>> signShift ∧ x.ticks >>> signShift ≠ result >>> signShift then
    Run.throwing durationTooLong
  else pure ⟨result⟩

def ticksPerMicrosecond : ℤ := 10

def maxMicroSeconds : Int64 := Int64.maxValue / 10

def minMicroSeconds : Int64 := Int64.minValue / 10

/-- The number of microseconds; the sum is meant to wrap, and is checked afterwards.
SOURCE: 66-90 -/
def timeToTicks (days hours minutes seconds milliseconds microseconds : Int32) :
    Run Exception Int64 :=
  let totalMicroseconds : UInt64 :=
    ((days.toInt64.toUInt64 * 86400 + hours.toInt64.toUInt64 * 3600 +
      minutes.toInt64.toUInt64 * 60 + seconds.toInt64.toUInt64) * 1000 +
      milliseconds.toInt64.toUInt64) * 1000 + microseconds.toInt64.toUInt64
  let result := totalMicroseconds.toInt64
  if result > maxMicroSeconds ∨ result < minMicroSeconds then
    Run.throwing (.argumentOutOfRange "" "TimeSpan overflowed because the duration is too long.")
  else pure result

/-- `TimeSpan(intcs days, intcs hours, intcs minutes, intcs seconds, intcs milliseconds,
intcs microseconds)`.
SOURCE: 55-58 -/
def ofComponents (days hours minutes seconds milliseconds microseconds : Int32) :
    Run Exception TimeSpan := do
  let total ← timeToTicks days hours minutes seconds milliseconds microseconds
  let ticks ← Run.signed 64 (total.toInt * ticksPerMicrosecond)
  pure ⟨Int64.ofInt ticks⟩

end TimeSpan

end SharpRuntime.Model
