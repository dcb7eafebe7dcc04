import SharpRuntime.Model.DateTimeText

/-!
# Exact parsing of a `DateTime`

`matchExactFormat` of `modules/core/include/System/detail/InvariantExactDateTimeParser.hpp` and
`tryParseExact` of `modules/core/src/System/DateTime.cpp`, under the source's names.

The matcher reads its format from the left and the input along with it; `none` stands for the
source's `return false`.  A flags enumeration is its underlying 32-bit value. Lines cited without a
file are those of the file named last.
-/

set_option autoImplicit false

namespace SharpRuntime.Model

open Machine

/-- `DateTimeStyles`; the source's enumeration can hold any `int`. -/
abbrev DateTimeStyles := BitVec 32

namespace DateTimeStyles

def none : DateTimeStyles := 0x00#32

def allowLeadingWhite : DateTimeStyles := 0x01#32

def allowTrailingWhite : DateTimeStyles := 0x02#32

def allowInnerWhite : DateTimeStyles := 0x04#32

def noCurrentDateDefault : DateTimeStyles := 0x08#32

def adjustToUniversal : DateTimeStyles := 0x10#32

def assumeLocal : DateTimeStyles := 0x20#32

def assumeUniversal : DateTimeStyles := 0x40#32

def roundtripKind : DateTimeStyles := 0x80#32

/-- The test `has` of the source. -/
def has (styles flag : DateTimeStyles) : Bool := styles &&& flag ≠ 0

end DateTimeStyles

/-- Which families of tokens a format may use. -/
inductive ExactTokenSet where
  | date
  | time
  | dateAndTime
deriving DecidableEq

/-- The fields a format binds; `-1` for one it has not.
SOURCE: InvariantExactDateTimeParser.hpp:35-50 -/
structure ExactDateTimeFields where
  year : ℤ := -1
  month : ℤ := -1
  day : ℤ := -1
  hour : ℤ := -1
  minute : ℤ := -1
  second : ℤ := -1
  fractionTicks : ℤ := 0
  weekday : ℤ := -1
  amPm : ℤ := -1
  twelveHour : Bool := false
  hasOffset : Bool := false
  zoneIsUtc : Bool := false
  offsetMinutes : ℤ := 0
deriving DecidableEq

/-- SOURCE: 78-95 -/
structure ExactParseOptions where
  abbreviatedMonths : List (List Char)
  fullMonths : List (List Char)
  abbreviatedDays : List (List Char)
  fullDays : List (List Char)
  allowLeadingWhite : Bool := false
  allowTrailingWhite : Bool := false
  allowInnerWhite : Bool := false
  allowZoneToken : Bool := false

namespace DateTime

/-- A field of a format with `specifierCount` specifiers: one means one or two digits, more mean
exactly that many.
SOURCE: 308-321 -/
def takeNumber (specifierCount : ℕ) (text : List Char) : Option (ℤ × List Char) :=
  let maxDigits := if specifierCount = 1 then 2 else specifierCount
  (takeDigits specifierCount maxDigits text).map fun (value, _, text) => (value, text)

/-- Exactly `digits` digits.
SOURCE: 324-337 -/
def takeFixedDigits (digits : ℕ) (text : List Char) : Option (ℕ × List Char) :=
  (takeDigits digits digits text).map fun (value, _, text) => (value, text)

/-- Up to `maxDigits` digits: the number, how many there were, and what is left.
SOURCE: 340-350 -/
def takeUpToDigits (maxDigits : ℕ) (text : List Char) : ℕ × ℕ × List Char :=
  scanDigits maxDigits 0 0 text

/-- What is left after a word, if the text starts with it; the empty word is never taken.
SOURCE: 354-360 -/
def takeWord (word text : List Char) : Option (List Char) :=
  if word ≠ [] ∧ word.isPrefixOf text then some (text.drop word.length) else none

/-- What is left after the characters of `literal`, if the text starts with them. -/
def takeAll : (literal text : List Char) → Option (List Char)
  | [], text => some text
  | c :: literal, text => take c text >>= takeAll literal

/-- The longest of the names that the text starts with: its index, and what is left.
SOURCE: 410-440 -/
def matchName (names : List (List Char)) (text : List Char) : Option (ℕ × List Char) :=
  let best := names.zipIdx.foldl (fun (best : Option (ℕ × List Char)) (name, i) =>
    let bestLen := (best.map fun b => b.2.length).getD 0
    if name.length ≤ bestLen then best
    else if (takeWord name text).isSome then some (i, name) else best) none
  best.map fun (i, name) => (i, text.drop name.length)

/-- A numeric field with `n` specifiers, of at most `max`, that was not bound before. -/
def matchNumber (n max : ℕ) (bound : ℤ) (text : List Char) : Option (ℤ × List Char) :=
  if n > max ∨ bound ≥ 0 then none else takeNumber n text

/-- The minutes of a zone token: `K` and `zzz` have them, `z` and `zz` do not.
SOURCE: 633-639 -/
def takeZoneMinutes (c : Char) (zoneRun : ℕ) (text : List Char) : Option (ℤ × List Char) :=
  if c = 'K' ∨ zoneRun = 3 then take ':' text >>= takeNumber 2 else some (0, text)

/-- The tokens `K`, `z`, `zz` and `zzz`.
SOURCE: 602-644 -/
def matchZone (c : Char) (zoneRun : ℕ) (text : List Char) (fields : ExactDateTimeFields) :
    Option (ExactDateTimeFields × List Char) :=
  if (c = 'z' ∧ zoneRun > 3) ∨ (c = 'K' ∧ zoneRun > 1) then none
  else if fields.hasOffset ∨ fields.zoneIsUtc then none
  else
    match (if c = 'K' then take 'Z' text else none) with
    | some text => some ({ fields with zoneIsUtc := true, hasOffset := true }, text)
    | none =>
      match takeSign text with
      | none => if c = 'K' then some (fields, text) else none
      | some (negative, text) => do
        let (hours, text) ← takeNumber (if c = 'z' ∧ zoneRun = 1 then 1 else 2) text
        let (minutes, text) ← takeZoneMinutes c zoneRun text
        if hours > 14 ∨ minutes > 59 then none
        else
          let offset := hours * 60 + minutes
          some ({ fields with hasOffset := true, offsetMinutes := if negative then -offset else offset },
            text)

/-- The tokens `t` and `tt`.
SOURCE: 572-585 -/
def matchDesignator (n : ℕ) (text : List Char) : Option (ℤ × List Char) :=
  let (am, pm) := if n = 1 then ("A".toList, "P".toList) else ("AM".toList, "PM".toList)
  match takeWord am text with
  | some text => some (0, text)
  | none => (takeWord pm text).map fun text => (1, text)

/-- The specifiers of the time tokens. -/
def isTimeToken (c : Char) : Bool := c ∈ ['H', 'h', 'm', 's', 'f', 'F', 't']

/-- A run of `n` characters `c` of the format that is not a quotation or an escape: a token, or
a literal.
SOURCE: 473-659 -/
def matchField (tokens : ExactTokenSet) (options : ExactParseOptions) (c : Char) (n : ℕ)
    (text : List Char) (fields : ExactDateTimeFields) : Option (ExactDateTimeFields × List Char) :=
  let allowDate : Bool := tokens ≠ .time
  let allowTime : Bool := tokens ≠ .date
  if allowDate ∧ c = 'y' then do
    let (value, text) ← matchNumber n 4 fields.year text
    let year := if n ≤ 2 ∧ value ≤ 99 then (if value ≤ 49 then 2000 + value else 1900 + value)
      else value
    some ({ fields with year }, text)
  else if allowDate ∧ c = 'M' then
    if n > 4 ∨ fields.month ≥ 0 then none
    else if n ≤ 2 then (takeNumber n text).map fun (month, text) => ({ fields with month }, text)
    else (matchName (if n = 3 then options.abbreviatedMonths else options.fullMonths) text).map
      fun (index, text) => ({ fields with month := index + 1 }, text)
  else if allowDate ∧ c = 'd' then
    if n ≤ 2 then (matchNumber n 2 fields.day text).map fun (day, text) => ({ fields with day }, text)
    else if n > 4 ∨ fields.weekday ≥ 0 then none
    else (matchName (if n = 3 then options.abbreviatedDays else options.fullDays) text).map
      fun (index, text) => ({ fields with weekday := index }, text)
  else if c = 'g' then none
  else if !options.allowZoneToken ∧ (c = 'z' ∨ c = 'K') then none
  else if isTimeToken c ∧ !allowTime then none
  else if c = 'H' ∨ c = 'h' then
    (matchNumber n 2 fields.hour text).map fun (hour, text) =>
      ({ fields with hour, twelveHour := c = 'h' }, text)
  else if c = 'm' then
    (matchNumber n 2 fields.minute text).map fun (minute, text) => ({ fields with minute }, text)
  else if c = 's' then
    (matchNumber n 2 fields.second text).map fun (second, text) => ({ fields with second }, text)
  else if c = 'f' then
    if n > 7 ∨ fields.fractionTicks ≠ 0 then none
    else (takeFixedDigits n text).map fun (value, text) =>
      ({ fields with fractionTicks := value * 10 ^ (7 - n) }, text)
  else if c = 'F' then
    if n > 7 ∨ fields.fractionTicks ≠ 0 then none
    else
      let (value, read, text) := takeUpToDigits n text
      some ({ fields with fractionTicks := value * 10 ^ (7 - read) }, text)
  else if c = 't' then
    if n > 2 ∨ fields.amPm ≥ 0 then none
    else (matchDesignator n text).map fun (amPm, text) => ({ fields with amPm }, text)
  else if !allowDate ∧ (c = 'y' ∨ c = 'M' ∨ c = 'd') then none
  else if options.allowZoneToken ∧ (c = 'K' ∨ c = 'z') then matchZone c n text fields
  else (takeAll (List.replicate n c) text).map fun text => (fields, text)

/-- The matcher between two tokens: what is left of the format and of the input, and the fields
bound so far. -/
structure MatchState where
  format : List Char
  text : List Char
  fields : ExactDateTimeFields

/-- One iteration of the matcher's loop.
SOURCE: 442-660 -/
def matchStep (tokens : ExactTokenSet) (options : ExactParseOptions) (s : MatchState) :
    Option MatchState :=
  let text := if options.allowInnerWhite then s.text.dropWhile isWhitespace else s.text
  match s.format with
  | [] => some s
  | c :: tail =>
    if c = '%' then
      match tail with
      | [] => none
      | d :: _ => if d = '%' then none else some ⟨tail, text, s.fields⟩
    else if c = '\\' then
      match tail with
      | [] => none
      | d :: rest => (take d text).map fun text => ⟨rest, text, s.fields⟩
    else if c = '\'' ∨ c = '"' then
      let quoted := tail.takeWhile (· ≠ c)
      match tail.drop quoted.length with
      | [] => none
      | _ :: rest => (takeAll quoted text).map fun text => ⟨rest, text, s.fields⟩
    else
      let n := runOf false c tail
      (matchField tokens options c n text s.fields).map fun (fields, text) =>
        ⟨tail.drop (n - 1), text, fields⟩

/-- The matcher's loop, of at most `fuel` iterations. -/
def matchLoop (tokens : ExactTokenSet) (options : ExactParseOptions) :
    (fuel : ℕ) → MatchState → Option MatchState
  | 0, s => if s.format.isEmpty then some s else none
  | fuel + 1, s =>
    if s.format.isEmpty then some s
    else matchStep tokens options s >>= matchLoop tokens options fuel

/-- SOURCE: 380-663 -/
def matchExactFormat (input format : List Char) (tokens : ExactTokenSet)
    (fields : ExactDateTimeFields) (options : ExactParseOptions) : Option ExactDateTimeFields :=
  if format = [] then none
  else do
    let trimmed := if options.allowLeadingWhite then input.dropWhile isWhitespace else input
    let trimmed := if options.allowTrailingWhite then trimmed.rdropWhile isWhitespace else trimmed
    let s ← matchLoop tokens options format.length ⟨format, trimmed, fields⟩
    if s.text.isEmpty then some s.fields else none

/-- SOURCE: 191-222 -/
def validateDateTimeStyles (styles : DateTimeStyles) (paramName : String) : Run Exception Unit :=
  let kValid : DateTimeStyles := .allowLeadingWhite ||| .allowTrailingWhite ||| .allowInnerWhite |||
    .noCurrentDateDefault ||| .adjustToUniversal ||| .assumeLocal ||| .assumeUniversal |||
    .roundtripKind
  let assumeBoth : DateTimeStyles := .assumeLocal ||| .assumeUniversal
  if styles &&& ~~~kValid ≠ 0 then
    Run.throwing (.argument "An undefined DateTimeStyles value is being used." paramName)
  else if styles &&& assumeBoth = assumeBoth then
    Run.throwing (.argument ("The DateTimeStyles values AssumeLocal and AssumeUniversal cannot be "
      ++ "used together.") paramName)
  else if styles.has .roundtripKind ∧ styles.has (assumeBoth ||| .adjustToUniversal) then
    Run.throwing (.argument ("The DateTimeStyles value RoundtripKind cannot be used with the values "
      ++ "AssumeLocal, AssumeUniversal or AdjustToUniversal.") paramName)
  else pure ()

/-- SOURCE: 694-723 -/
def resolveExactParseOptions (provider : Option DateTimeFormatInfo) (style : DateTimeStyles) :
    ExactParseOptions :=
  let info := DateTimeFormatInfo.getInstance provider
  { abbreviatedMonths := info.abbreviatedMonthNames.toList.take 12
    fullMonths := info.monthNames.toList.take 12
    abbreviatedDays := info.abbreviatedDayNames.toList
    fullDays := info.dayNames.toList
    allowLeadingWhite := style.has .allowLeadingWhite
    allowTrailingWhite := style.has .allowTrailingWhite
    allowInnerWhite := style.has .allowInnerWhite }

/-- The pattern of a standard format; empty for any other.
SOURCE: 262-275 -/
def expandStandardDateTimeFormat (format : List Char) : List Char :=
  match format with
  | ['O'] | ['o'] => "yyyy-MM-ddTHH:mm:ss.fffffffK".toList
  | ['R'] | ['r'] => "ddd, dd MMM yyyy HH:mm:ss 'GMT'".toList
  | ['s'] => "yyyy-MM-ddTHH:mm:ss".toList
  | ['u'] => "yyyy-MM-dd HH:mm:ss'Z'".toList
  | _ => []

/-- The hour of the bound fields, on the 24-hour clock; `none` for an hour a 12-hour clock does
not have.
SOURCE: DateTime.cpp:843-854 -/
def hourOfFields (fields : ExactDateTimeFields) : Option ℤ :=
  let hour := if fields.hour < 0 then 0 else fields.hour
  if fields.twelveHour then
    if hour < 1 ∨ hour > 12 then none
    else if fields.amPm = 1 then some (if hour = 12 then 12 else hour + 12)
    else if fields.amPm = 0 then some (if hour = 12 then 0 else hour)
    else some hour
  else some hour

/-- The fraction of a second, added where there is one.
SOURCE: 864 -/
def addFraction (candidate : DateTime) (fractionTicks : ℤ) : Run Exception DateTime :=
  if fractionTicks ≠ 0 then candidate.addTicks fractionTicks else pure candidate

/-- The value of the bound fields before any zone is applied; `none` where they are not those of
a date and a time.
SOURCE: 837-869 -/
def candidateOfFields (fields : ExactDateTimeFields) : Run Exception (Option DateTime) :=
  if fields.year < 0 ∨ fields.month < 0 ∨ fields.day < 0 then pure none
  else if fields.year < 1 ∨ fields.year > 9999 then pure none
  else if fields.month < 1 ∨ fields.month > 12 then pure none
  else do
    let dim ← daysInMonth fields.year fields.month
    if fields.day < 1 ∨ fields.day > dim then pure none
    else
      let minute := if fields.minute < 0 then 0 else fields.minute
      let second := if fields.second < 0 then 0 else fields.second
      match hourOfFields fields with
      | none => pure none
      | some hour =>
        if hour < 0 ∨ hour > 23 ∨ minute < 0 ∨ minute > 59 ∨ second < 0 ∨ second > 59 then pure none
        else do
          let built ← Run.catching
            (some <$> ofComponents fields.year fields.month fields.day hour minute second 0) none
          match built with
          | none => pure none
          | some candidate => do
            let candidate ← addFraction candidate fields.fractionTicks
            if fields.weekday ≥ 0 ∧ candidate.getDayOfWeekProperty ≠ fields.weekday then pure none
            else pure (some candidate)

/-- SOURCE: 878-886 -/
def requireZone (zone : Option ILocalTimeZone) (why : String) : Run Exception ILocalTimeZone :=
  match zone with
  | none => Run.throwing (.argumentNull "zone" ("A local time zone is required because " ++ why ++
      ". Pass System::TimeZone::CurrentTimeZone(), or use a style that does not convert."))
  | some zone => pure zone

/-- The adjustment of a value whose input carried no zone.
SOURCE: 892-917 -/
def adjustAssumed (styles : DateTimeStyles) (zone : Option ILocalTimeZone) (candidate : DateTime) :
    Run Exception DateTime :=
  if styles.has .assumeLocal then
    if styles.has .adjustToUniversal then do
      let asLocal ← specifyKind candidate .local_
      let zone ← requireZone zone "AssumeLocal with AdjustToUniversal converts a local value to UTC"
      asLocal.toUniversalTime zone
    else specifyKind candidate .local_
  else if styles.has .assumeUniversal then
    if styles.has .adjustToUniversal then specifyKind candidate .utc
    else do
      let asUtc ← specifyKind candidate .utc
      let zone ← requireZone zone
        "AssumeUniversal without AdjustToUniversal converts a UTC value to local"
      asUtc.toLocalTime zone
  else pure candidate

/-- The adjustment of a value whose input carried a zone.
SOURCE: 918-942 -/
def adjustZoned (styles : DateTimeStyles) (zone : Option ILocalTimeZone)
    (fields : ExactDateTimeFields) (candidate : DateTime) : Run Exception (Option DateTime) :=
  if styles.has .roundtripKind ∧ fields.zoneIsUtc then
    some <$> specifyKind candidate .utc
  else
    let offsetTicks := fields.offsetMinutes * ticksPerMinute
    let utcTicks := BitVec.ofNat 64 candidate.ticks - BitVec.ofInt 64 offsetTicks
    if utcTicks > BitVec.ofNat 64 maxTicks then pure none
    else do
      let asUtc ← ofTicksKind utcTicks.toInt .utc
      if styles.has .adjustToUniversal then pure (some asUtc)
      else do
        let zone ← requireZone zone
          "a zone-qualified input is converted to local time unless AdjustToUniversal or RoundtripKind is used"
        some <$> asUtc.toLocalTime zone

/-- The options of `tryParseExact`, which admits the zone tokens.
SOURCE: 810-813 -/
def exactOptions (provider : Option DateTimeFormatInfo) (styles : DateTimeStyles) :
    ExactParseOptions :=
  { resolveExactParseOptions provider styles with allowZoneToken := true }

/-- The pattern of a format; `none` for a single character that names no standard one.
SOURCE: 817-825 -/
def exactPattern (format : List Char) : Option (List Char) :=
  let expanded := expandStandardDateTimeFormat format
  if expanded = [] then
    if format.length = 1 then none else some format
  else some expanded

/-- The value `tryParseExact` assigns to its result after the styles have been validated; `none`
where it returns `false`.
SOURCE: 796-946 -/
def parseExactCore (input format : List Char) (provider : Option DateTimeFormatInfo)
    (styles : DateTimeStyles) (zone : Option ILocalTimeZone) : Run Exception (Option DateTime) :=
  match exactPattern format >>= fun pattern =>
    matchExactFormat input pattern .dateAndTime {} (exactOptions provider styles) with
  | none => pure none
  | some fields => do
    match ← candidateOfFields fields with
    | none => pure none
    | some candidate =>
      if fields.hasOffset ∧ (fields.offsetMinutes < -14 * 60 ∨ fields.offsetMinutes > 14 * 60) then
        pure none
      else if fields.hasOffset then adjustZoned styles zone fields candidate
      else some <$> adjustAssumed styles zone candidate

/-- `tryParseExact`: the run, and the value `result` is left with.  A rejected style leaves it
alone; any other failure leaves the earliest date.
SOURCE: 796-946 -/
def tryParseExact (input format : List Char) (provider : Option DateTimeFormatInfo)
    (styles : DateTimeStyles) (result : DateTime) (zone : Option ILocalTimeZone) :
    Run Exception Bool × DateTime :=
  match (validateDateTimeStyles styles "style").outcome with
  | .threw e => (Run.throwing e, result)
  | _ =>
    let parsed := parseExactCore input format provider styles zone
    (Option.isSome <$> parsed,
      match parsed.outcome with
      | .returned (some value) => value
      | _ => minValue)

end DateTime

end SharpRuntime.Model
