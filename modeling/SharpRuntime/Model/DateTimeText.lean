import SharpRuntime.Machine.Printed
import SharpRuntime.Model.DateTime

/-!
# The text of a `DateTime`

`toString`, `tryParse` and `tryParseExact` of `modules/core/src/System/DateTime.cpp`, with
`Globalization/DateTimeFormatInfo.hpp`, `detail/DateTimeTextScanner.hpp` and
`detail/InvariantExactDateTimeParser.hpp`, under the source's names; bare line numbers are of the
file named last.  A cursor into a string is what is left of it.  A loop over a format has as many
iterations as the format has characters.  A provider is the information it resolves to, `none` for a
null pointer.
-/

set_option autoImplicit false

namespace SharpRuntime.Model

open Machine

/-- The patterns and names of a `DateTimeFormatInfo`; the defaults are the invariant ones.
SOURCE: DateTimeFormatInfo.hpp:510-536 -/
structure DateTimeFormatInfo where
  fullDateTimePattern : List Char := "dddd, dd MMMM yyyy HH:mm:ss".toList
  longDatePattern : List Char := "dddd, dd MMMM yyyy".toList
  longTimePattern : List Char := "HH:mm:ss".toList
  shortDatePattern : List Char := "MM/dd/yyyy".toList
  shortTimePattern : List Char := "HH:mm".toList
  monthDayPattern : List Char := "MMMM dd".toList
  yearMonthPattern : List Char := "yyyy MMMM".toList
  amDesignator : List Char := "AM".toList
  pmDesignator : List Char := "PM".toList
  abbreviatedDayNames : Vector (List Char) 7 :=
    #v["Sun", "Mon", "Tue", "Wed", "Thu", "Fri", "Sat"].map String.toList
  dayNames : Vector (List Char) 7 :=
    #v["Sunday", "Monday", "Tuesday", "Wednesday", "Thursday", "Friday", "Saturday"].map
      String.toList
  abbreviatedMonthNames : Vector (List Char) 13 :=
    #v["Jan", "Feb", "Mar", "Apr", "May", "Jun", "Jul", "Aug", "Sep", "Oct", "Nov", "Dec", ""].map
      String.toList
  monthNames : Vector (List Char) 13 :=
    #v["January", "February", "March", "April", "May", "June", "July", "August", "September",
      "October", "November", "December", ""].map String.toList

namespace DateTimeFormatInfo

/-- SOURCE: 119-136 -/
def getInstance (provider : Option DateTimeFormatInfo) : DateTimeFormatInfo := provider.getD {}

def rfc1123Pattern : List Char := "ddd, dd MMM yyyy HH':'mm':'ss 'GMT'".toList

def sortableDateTimePattern : List Char := "yyyy'-'MM'-'dd'T'HH':'mm':'ss".toList

def universalSortableDateTimePattern : List Char := "yyyy'-'MM'-'dd HH':'mm':'ss'Z'".toList

/-- The patterns of a standard format; there is always one.
SOURCE: 484-505 -/
def getAllDateTimePatterns (info : DateTimeFormatInfo) (format : Char) : Run Exception (List Char) :=
  match format with
  | 'd' => pure info.shortDatePattern
  | 'D' => pure info.longDatePattern
  | 'f' => pure (info.longDatePattern ++ ' ' :: info.shortTimePattern)
  | 'F' | 'U' => pure info.fullDateTimePattern
  | 'g' => pure (info.shortDatePattern ++ ' ' :: info.shortTimePattern)
  | 'G' => pure (info.shortDatePattern ++ ' ' :: info.longTimePattern)
  | 'm' | 'M' => pure info.monthDayPattern
  | 'o' | 'O' => pure "yyyy'-'MM'-'dd'T'HH':'mm':'ss.fffffffK".toList
  | 'r' | 'R' => pure rfc1123Pattern
  | 's' => pure sortableDateTimePattern
  | 't' => pure info.shortTimePattern
  | 'T' => pure info.longTimePattern
  | 'u' => pure universalSortableDateTimePattern
  | 'y' | 'Y' => pure info.yearMonthPattern
  | _ => Run.throwing (.argument "Format specifier was invalid." "format")

end DateTimeFormatInfo

namespace DateTime

def minValue : DateTime := ⟨0⟩

/-- The exception of a malformed format. -/
def invalidFormat : Exception := .format "Format specifier was invalid."

/-- `std::to_string`, of a number that is not negative. -/
def toText (n : ℕ) : List Char := Printed.text (Printed.numeral 10 n)

/-- `pad`: a number with zeros in front up to a width.
SOURCE: DateTime.cpp:533-537 -/
def pad (n w : ℕ) : List Char := Printed.text (Printed.padded 10 w n)

/-- SOURCE: 539-563 -/
def appendOffset (offset : TimeSpan) (width : ℕ) : Run Exception (List Char) :=
  let totalMinutes := offset.ticks.toInt.tdiv ticksPerMinute
  let sign := if totalMinutes < 0 then '-' else '+'
  let hours := totalMinutes.natAbs / 60
  let minutes := totalMinutes.natAbs % 60
  if width = 1 then pure (sign :: toText hours)
  else if width = 2 then pure (sign :: pad hours 2)
  else if width = 3 then pure (sign :: (pad hours 2 ++ ':' :: pad minutes 2))
  else Run.throwing invalidFormat

/-- The formatter between two tokens: what is left of the format, and the text so far. -/
structure FormatState where
  rest : List Char
  result : List Char

/-- The length of the run of `ch` that starts a format, `tail` being what follows the first.
SOURCE: 578-583 -/
def runOf (forceSingleToken : Bool) (ch : Char) (tail : List Char) : ℕ :=
  if forceSingleToken then 1 else (tail.takeWhile (· = ch)).length + 1

/-- A component written with a run of `n` specifiers: padded from two on. -/
def numberText (n value : ℕ) : List Char := if n ≥ 2 then pad value 2 else toText value

/-- The fraction of a second without its trailing zeros. -/
def trimZeros (fraction : List Char) : List Char := fraction.rdropWhile (· = '0')

/-- The text after a token `F`: an empty fraction takes the decimal point before it back.
SOURCE: 634-647 -/
def appendOptionalFraction (result fraction : List Char) : List Char :=
  if fraction = [] ∧ result.getLast? = some '.' then result.dropLast else result ++ fraction

/-- One token `c` of the format, at the front of `c :: tail`.
SOURCE: 584-683 -/
def formatToken (x : DateTime) (info : DateTimeFormatInfo) (offset : Option TimeSpan)
    (forceSingleToken : Bool) (c : Char) (tail result : List Char) : Run Exception FormatState :=
  let n := runOf forceSingleToken c tail
  let next := tail.drop (n - 1)
  let yr := x.getYearProperty.toNat
  let mo := x.getMonthProperty.toNat
  let dy := x.getDayProperty.toNat
  let hr := x.getHourProperty.toNat
  let fractionTicks := x.ticks % ticksPerSecond
  if c = 'y' then
    pure ⟨next, result ++ if n ≥ 4 then pad yr 4 else pad (yr % 100) 2⟩
  else if c = 'M' then
    pure ⟨next, result ++
      if n ≥ 4 then info.monthNames.toList.getD (mo - 1) []
      else if n = 3 then info.abbreviatedMonthNames.toList.getD (mo - 1) []
      else numberText n mo⟩
  else if c = 'd' then
    let dayIndex := x.getDayOfWeekProperty.toNat
    pure ⟨next, result ++
      if n ≥ 4 then info.dayNames.toList.getD dayIndex []
      else if n = 3 then info.abbreviatedDayNames.toList.getD dayIndex []
      else numberText n dy⟩
  else if c = 'H' then
    pure ⟨next, result ++ numberText n hr⟩
  else if c = 'h' then
    pure ⟨next, result ++ numberText n (if hr % 12 = 0 then 12 else hr % 12)⟩
  else if c = 'm' then
    pure ⟨next, result ++ numberText n x.getMinuteProperty.toNat⟩
  else if c = 's' then
    pure ⟨next, result ++ numberText n x.getSecondProperty.toNat⟩
  else if c = 'f' then
    if n > 7 then Run.throwing invalidFormat
    else pure ⟨next, result ++ (pad fractionTicks 7).take n⟩
  else if c = 'F' then
    if n > 7 then Run.throwing invalidFormat
    else pure ⟨next, appendOptionalFraction result (trimZeros ((pad fractionTicks 7).take n))⟩
  else if c = 't' then
    let designator := if hr < 12 then info.amDesignator else info.pmDesignator
    pure ⟨next, result ++ if n = 1 then designator.take 1 else designator⟩
  else if c = 'z' then
    match offset with
    | none =>
      Run.throwing (.format ("The custom time-zone offset format requires a local time zone and is "
        ++ "not supported by DateTime.ToString in Core.Base."))
    | some offset => do
      let text ← appendOffset offset (min n 3)
      pure ⟨next, result ++ text⟩
  else if c = 'K' then
    match offset with
    | none => pure ⟨tail, result ++ if x.getKindProperty = DateTimeKind.utc then ['Z'] else []⟩
    | some offset => do
      let text ← appendOffset offset 3
      pure ⟨tail, result ++ text⟩
  else if c = '\'' ∨ c = '"' then
    let quoted := tail.takeWhile (· ≠ c)
    match tail.drop quoted.length with
    | [] => Run.throwing invalidFormat
    | _ :: rest => pure ⟨rest, result ++ quoted⟩
  else
    pure ⟨tail, result ++ [c]⟩

/-- One iteration of the formatter's loop.
SOURCE: 565-683 -/
def formatStep (x : DateTime) (info : DateTimeFormatInfo) (offset : Option TimeSpan)
    (s : FormatState) : Run Exception FormatState :=
  match s.rest with
  | [] => pure s
  | c :: tail =>
    if c = '%' then
      match tail with
      | [] => Run.throwing invalidFormat
      | d :: tail =>
        if d = '%' then Run.throwing invalidFormat
        else formatToken x info offset true d tail s.result
    else formatToken x info offset false c tail s.result

/-- SOURCE: 512-686 -/
def formatCustom (x : DateTime) (format : List Char) (info : DateTimeFormatInfo)
    (offset : Option TimeSpan) : Run Exception (List Char) := do
  let s ← Run.whileLoop (fun s : FormatState => !s.rest.isEmpty) (formatStep x info offset)
    format.length ⟨format, []⟩
  pure s.result

/-- The pattern a format stands for: a single character names a standard one.
SOURCE: 491-509 -/
def expandFormat (format : List Char) (info : DateTimeFormatInfo) : Run Exception (List Char) :=
  match format with
  | [c] =>
    if c = 'U' then
      Run.throwing (.format ("The universal full-date format requires a local time zone and is not "
        ++ "supported by this overload."))
    else if c ∉ "dDfFgGmMoOrRstTuyY".toList then Run.throwing invalidFormat
    else info.getAllDateTimePatterns c
  | _ => pure format

/-- `ToString(const std::string& format, const IFormatProvider* provider)`.
SOURCE: 468-510 -/
def toString (x : DateTime) (format : List Char) (provider : Option DateTimeFormatInfo) :
    Run Exception (List Char) := do
  let info := DateTimeFormatInfo.getInstance provider
  let expanded ← expandFormat format info
  x.formatCustom expanded info none

/-- `isDateTimeTextWhitespace`, which is `std::isspace` in the C locale. -/
def isWhitespace (c : Char) : Bool :=
  c = ' ' || c = '\t' || c = '\n' || c = '\r' || c = '\x0c' || c = '\x0b'

/-- SOURCE: DateTimeTextScanner.hpp:50-54 -/
def trimDateTimeText (text : List Char) : List Char :=
  (text.dropWhile isWhitespace).rdropWhile isWhitespace

/-- What is left after the character `c`, if the text starts with it. -/
def take (c : Char) : List Char → Option (List Char)
  | [] => none
  | d :: rest => if d = c then some rest else none

/-- Up to `max` digits: the number accumulated, how many there were, and what is left. -/
def scanDigits : (max acc count : ℕ) → List Char → ℕ × ℕ × List Char
  | 0, acc, count, text => (acc, count, text)
  | _ + 1, acc, count, [] => (acc, count, [])
  | max + 1, acc, count, c :: text =>
    if Printed.isDigit c then scanDigits max (acc * 10 + Printed.charDigit c) (count + 1) text
    else (acc, count, c :: text)

/-- Between `minDigits` and `maxDigits` digits: the number, how many there were, and what is
left.
SOURCE: 90-107 -/
def takeDigits (minDigits maxDigits : ℕ) (text : List Char) : Option (ℕ × ℕ × List Char) :=
  let (value, count, rest) := scanDigits maxDigits 0 0 text
  if count < minDigits then none else some (value, count, rest)

/-- SOURCE: 120-129 -/
structure DateTimeParts where
  year : ℕ := 0
  month : ℕ := 0
  day : ℕ := 0
  hour : ℕ := 0
  minute : ℕ := 0
  second : ℕ := 0
  fractionTicks : ℕ := 0

/-- The fraction of `takeDateTimeParts`, if there is a decimal point.
SOURCE: 177-181 -/
def takeFraction (text : List Char) (parts : DateTimeParts) :
    Option (DateTimeParts × List Char) :=
  match take '.' text with
  | none => some (parts, text)
  | some text => do
    let (value, digits, text) ← takeDigits 1 7 text
    some ({ parts with fractionTicks := value * 10 ^ (7 - digits) }, text)

/-- The time of day of `takeDateTimeParts`.
SOURCE: 172-181 -/
def takeTimeParts (text : List Char) (parts : DateTimeParts) :
    Option (DateTimeParts × List Char) := do
  let (hour, _, text) ← takeDigits 1 2 text
  let text ← take ':' text
  let (minute, _, text) ← takeDigits 1 2 text
  let text ← take ':' text
  let (second, _, text) ← takeDigits 1 2 text
  takeFraction text { parts with hour, minute, second }

/-- SOURCE: 164-184 -/
def takeDateTimeParts (text : List Char) : Option (DateTimeParts × List Char) := do
  let (year, _, text) ← takeDigits 4 4 text
  let text ← take '-' text
  let (month, _, text) ← takeDigits 1 2 text
  let text ← take '-' text
  let (day, _, text) ← takeDigits 1 2 text
  let parts : DateTimeParts := { year, month, day }
  match (take ' ' text).or (take 'T' text) with
  | none => some (parts, text)
  | some text => takeTimeParts text parts

/-- The sign of an offset: whether it is negative, and what is left. -/
def takeSign (text : List Char) : Option (Bool × List Char) :=
  match take '-' text with
  | some text => some (true, text)
  | none => (take '+' text).map fun text => (false, text)

/-- The minutes of an offset whose hours had at most two digits.
SOURCE: 226-228 -/
def takeOffsetMinutes (text : List Char) : Option (ℕ × List Char) :=
  match take ':' text with
  | none => some (0, text)
  | some text => (takeDigits 1 2 text).map fun (minutes, _, text) => (minutes, text)

/-- The hours and minutes of an offset that began with `digits` digits of value `value`: three or
four of them hold both.
SOURCE: 224-233 -/
def splitOffset (value digits : ℕ) (text : List Char) : Option (ℕ × ℕ × List Char) :=
  if digits ≤ 2 then (takeOffsetMinutes text).map fun (minutes, text) => (value, minutes, text)
  else some (value / 100, value % 100, text)

/-- SOURCE: 210-240 -/
def takeUtcOffsetMinutes (text : List Char) : Option (ℤ × List Char) := do
  let (negative, text) ← takeSign text
  let (value, digits, text) ← takeDigits 1 4 text
  let (hours, minutes, text) ← splitOffset value digits text
  if minutes ≥ 60 then none
  else
    let signedMinutes : ℤ := hours * 60 + minutes
    some (if negative then -signedMinutes else signedMinutes, text)

/-- The trailing zone of `tryParse`, which is read and dropped.
SOURCE: DateTime.cpp:746-753 -/
def dropZone (text : List Char) : Option (List Char) :=
  match (take 'Z' text).or (take 'z' text) with
  | some text => some text
  | none =>
    if text = [] then some text
    else (takeUtcOffsetMinutes text).map Prod.snd

/-- The parts of a general date and time, if the whole text is one.
SOURCE: 731-754 -/
def parseParts (s : List Char) : Option DateTimeParts := do
  let (parts, text) ← takeDateTimeParts (trimDateTimeText s)
  let text ← dropZone text
  if text = [] then some parts else none

/-- `tryParse`: whether it succeeded, and the value of `result`.
SOURCE: 688-761 -/
def tryParse (s : List Char) : Run Exception (Bool × DateTime) :=
  match parseParts s with
  | none => pure (false, minValue)
  | some parts =>
    Run.catching (do
      let ticks ← dateToTicks parts.year parts.month parts.day parts.hour parts.minute
        parts.second 0
      let sum ← Run.signed 64 (ticks + parts.fractionTicks)
      let result ← ofTicks sum
      pure (true, result)) (false, minValue)

end DateTime

end SharpRuntime.Model
