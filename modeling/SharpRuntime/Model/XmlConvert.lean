import SharpRuntime.Model.TimeSpan

/-!
# The names of `XmlConvert`

The encoding of names in `modules/xml/src/System/Xml/XmlConvert.cpp`, under the source's names.  A
string is the list of its bytes; what the source looks up at `i + 1`, …, `i + 6` stands behind the
byte at `i`. Bare line numbers are of `XmlConvert.cpp`.
-/

set_option autoImplicit false

namespace SharpRuntime.Model.XmlConvert

open Machine

/-- A `char` as a `charcs`: it is signed, and widened to sixteen bits. -/
def charcs (ch : UInt8) : ℕ := if ch < 128 then ch.toNat else ch.toNat + 0xFF00

/-- `std::isalpha` in the C locale. -/
def isalpha (c : ℕ) : Bool :=
  decide ('A'.toNat ≤ c ∧ c ≤ 'Z'.toNat) || decide ('a'.toNat ≤ c ∧ c ≤ 'z'.toNat)

/-- `std::isalnum` in the C locale. -/
def isalnum (c : ℕ) : Bool := isalpha c || decide ('0'.toNat ≤ c ∧ c ≤ '9'.toNat)

def isxdigit (c : UInt8) : Bool :=
  decide ('0'.toUInt8 ≤ c ∧ c ≤ '9'.toUInt8) || decide ('A'.toUInt8 ≤ c ∧ c ≤ 'F'.toUInt8) ||
    decide ('a'.toUInt8 ≤ c ∧ c ≤ 'f'.toUInt8)

/-- SOURCE: 279-283 -/
def isStartNCNameChar (ch : ℕ) : Bool :=
  if 128 ≤ ch then true else isalpha ch || ch == '_'.toNat

/-- SOURCE: 285-289 -/
def isNCNameChar (ch : ℕ) : Bool :=
  if 128 ≤ ch then true
  else isalnum ch || ch == '_'.toNat || ch == '-'.toNat || ch == '.'.toNat

/-- `"_x....._"` with four hexadecimal digits, at the front of a text.
SOURCE: 331-336 -/
def looksLikeEscape : (name : List UInt8) → Bool
  | u :: x :: a :: b :: c :: d :: v :: _ =>
    u == '_'.toUInt8 && x == 'x'.toUInt8 && isxdigit a && isxdigit b && isxdigit c && isxdigit d &&
      v == '_'.toUInt8
  | _ => false

/-- A digit of `%X`. -/
def upperHex (d : ℕ) : UInt8 := if d < 10 then UInt8.ofNat (48 + d) else UInt8.ofNat (55 + d)

/-- `snprintf` with the format `_x%04X_`.
SOURCE: 340-342 -/
def escape (ch : UInt8) : List UInt8 :=
  '_'.toUInt8 :: 'x'.toUInt8 :: ((Printed.padded 16 4 ch.toNat).map upperHex ++ ['_'.toUInt8])

/-- The loop from a position on; at the first one of a name another check is made.
SOURCE: 324-344 -/
def encodeFrom : (isFirst : Bool) → (name : List UInt8) → List UInt8
  | _, [] => []
  | isFirst, ch :: name =>
    let valid := if isFirst then isStartNCNameChar (charcs ch) else isNCNameChar (charcs ch)
    (if valid && !looksLikeEscape (ch :: name) then [ch] else escape ch) ++ encodeFrom false name

/-- SOURCE: 320-346 -/
def encodeNameImpl (name : List UInt8) (isNmToken isLocal : Bool) : List UInt8 :=
  if name.isEmpty then name else encodeFrom (!isLocal && !isNmToken) name

/-- SOURCE: 348 -/
def encodeName (name : List UInt8) : List UInt8 := encodeNameImpl name false false

/-- SOURCE: 349 -/
def encodeNmToken (name : List UInt8) : List UInt8 := encodeNameImpl name true false

/-- SOURCE: 350 -/
def encodeLocalName (name : List UInt8) : List UInt8 := encodeNameImpl name false true

/-- The value of a hexadecimal digit. -/
def hexDigit (c : UInt8) : ℕ :=
  if c ≤ '9'.toUInt8 then c.toNat - 48 else if c ≤ 'F'.toUInt8 then c.toNat - 55 else c.toNat - 87

/-- The number that `sscanf` reads with `%4x` behind the two characters `_x`.
SOURCE: 363-364 -/
def escapeCode (name : List UInt8) : ℕ := Printed.value 16 ((name.drop 2).take 4 |>.map hexDigit)

/-- The loop, where `skip` characters of an escape are still to be passed over.
SOURCE: 357-371 -/
def decodeFrom : (skip : ℕ) → (name : List UInt8) → List UInt8
  | _, [] => []
  | skip + 1, _ :: name => decodeFrom skip name
  | 0, ch :: name =>
    if looksLikeEscape (ch :: name) then
      UInt8.ofNat (escapeCode (ch :: name)) :: decodeFrom 6 name
    else ch :: decodeFrom 0 name

/-- SOURCE: 352-373 -/
def decodeName (name : List UInt8) : List UInt8 := if name.isEmpty then name else decodeFrom 0 name

end SharpRuntime.Model.XmlConvert

/-!
# The XSD duration of `XmlConvert`

The text of a `TimeSpan` in `modules/xml/src/System/Xml/XmlConvert.cpp`, under the source's names.

A position in a text is what is left of it, and a parser that has returned carries what it returned:
the duration it leaves in `result`, or nothing.  The components are never negative.
-/

namespace SharpRuntime.Model.XmlConvert

open Machine

/-- SOURCE: 49-58 -/
structure XsdDuration where
  negative : Bool := false
  years : ℕ := 0
  months : ℕ := 0
  days : ℕ := 0
  hours : ℕ := 0
  minutes : ℕ := 0
  seconds : ℕ := 0
  nanoseconds : ℕ := 0
deriving DecidableEq

/-- The digits in front of a text: their value, their number, and what is left.
SOURCE: 69-79 -/
def durationDigits (eatDigits : Bool) : (value count : ℕ) → List Char → Option (ℕ × ℕ × List Char)
  | value, count, [] => some (value, count, [])
  | value, count, c :: s =>
    if Printed.isDigit c then
      let digit := Printed.charDigit c
      if (2147483647 - digit) / 10 < value then
        if eatDigits then durationDigits eatDigits value (count + 1) s else none
      else durationDigits eatDigits (value * 10 + digit) (count + 1) s
    else some (value, count, c :: s)

/-- SOURCE: 65-82 -/
def tryParseDurationDigits (s : List Char) (eatDigits : Bool) : Option (ℕ × ℤ × List Char) := do
  let (value, count, s) ← durationDigits eatDigits 0 0 s
  some (value, (count : ℤ).bmod (2 ^ 32), s)

/-- The locals of `tryParseXsdDuration`. -/
structure DurationState where
  s : List Char
  value : ℕ
  numDigits : ℤ
  result : XsdDuration
  anyPart : Bool

/-- `return false`. -/
def notDuration {α : Type} : Except (Option XsdDuration) α := .error none

/-- The digits of the next component, which something has to follow.
SOURCE: 102-103 -/
def nextDigits (s : List Char) (result : XsdDuration) (anyPart : Bool) :
    Except (Option XsdDuration) DurationState :=
  match tryParseDurationDigits s false with
  | none => notDuration
  | some (value, numDigits, s) =>
    if s = [] then notDuration else .ok ⟨s, value, numDigits, result, anyPart⟩

/-- The component with a designator, if the digits are its digits.
SOURCE: 105-111 -/
def component (designator : Char) (set : XsdDuration → ℕ → XsdDuration) (st : DurationState) :
    Except (Option XsdDuration) DurationState :=
  if st.s.head? = some designator then
    if st.numDigits = 0 then notDuration
    else
      let result := set st.result st.value
      if st.s.tail = [] then .error (some result) else nextDigits st.s.tail result true
  else .ok st

def years : DurationState → Except (Option XsdDuration) DurationState :=
  component 'Y' fun result value => { result with years := value }

def months : DurationState → Except (Option XsdDuration) DurationState :=
  component 'M' fun result value => { result with months := value }

def days : DurationState → Except (Option XsdDuration) DurationState :=
  component 'D' fun result value => { result with days := value }

def hours : DurationState → Except (Option XsdDuration) DurationState :=
  component 'H' fun result value => { result with hours := value }

def minutes : DurationState → Except (Option XsdDuration) DurationState :=
  component 'M' fun result value => { result with minutes := value }

/-- SOURCE: 98-124 -/
def datePart (s : List Char) : Except (Option XsdDuration) DurationState := do
  let (result, s) := if s.head? = some '-' then ({ negative := true }, s.tail)
    else (({} : XsdDuration), s)
  if s.head? ≠ some 'P' then notDuration
  else do
    let st ← nextDigits s.tail result false
    let st ← years st
    let st ← months st
    days st

/-- No trailing characters, and at least one component.
SOURCE: 173-174 -/
def endOfDuration (st : DurationState) : Option XsdDuration :=
  if st.s ≠ [] then none else if st.anyPart then some st.result else none

/-- `for (; numDigits < 9; ++numDigits) value *= 10`. -/
def scaleUp : (times : ℕ) → (value : ℤ) → Run Exception ℤ
  | 0, value => pure value
  | times + 1, value => do
    let value ← Run.signed 64 (value * 10)
    scaleUp times value

/-- The nanoseconds of a fraction.
SOURCE: 152-155 -/
def fractionValue (value : ℕ) (numDigits : ℤ) : Run Exception ℤ :=
  let value := if numDigits = 0 then 0 else value
  let value := value / 10 ^ (numDigits - 9).toNat
  scaleUp (9 - numDigits).toNat value

/-- SOURCE: 147-160 -/
def fractionalSeconds (st : DurationState) : Run Exception (Option XsdDuration) :=
  let result := { st.result with seconds := st.value }
  match tryParseDurationDigits st.s.tail true with
  | none => pure none
  | some (value, numDigits, s) => do
    let value ← fractionValue value numDigits
    let result := { result with nanoseconds := value.toNat }
    if s.head? ≠ some 'S' then pure none
    else if s.tail = [] then pure (some result)
    else pure (endOfDuration ⟨s.tail, 0, 0, result, true⟩)

/-- SOURCE: 147-166 -/
def secondsPart (st : DurationState) : Run Exception (Option XsdDuration) :=
  if st.s.head? = some '.' then fractionalSeconds st
  else if st.s.head? = some 'S' then
    if st.numDigits = 0 then pure none
    else
      let result := { st.result with seconds := st.value }
      if st.s.tail = [] then pure (some result)
      else pure (endOfDuration ⟨st.s.tail, 0, 0, result, true⟩)
  else pure (endOfDuration st)

/-- SOURCE: 127-146 -/
def timePart (st : DurationState) : Except (Option XsdDuration) DurationState :=
  if st.numDigits ≠ 0 then notDuration
  else do
    let st ← nextDigits st.s.tail st.result st.anyPart
    let st ← hours st
    minutes st

/-- What has been returned, or what the rest of the parser returns. -/
def returnOr (x : Except (Option XsdDuration) DurationState)
    (rest : DurationState → Run Exception (Option XsdDuration)) : Run Exception (Option XsdDuration) :=
  match x with
  | .error r => pure r
  | .ok st => rest st

/-- SOURCE: 90-175 -/
def tryParseXsdDuration (s : List Char) : Run Exception (Option XsdDuration) :=
  returnOr (datePart s) fun st =>
    if st.s.head? = some 'T' then returnOr (timePart st) secondsPart else pure (endOfDuration st)

def longcsMax : ℕ := 2 ^ 63 - 1

/-- The ticks of the components, in unsigned words.
SOURCE: 186-195 -/
def durationTicks (d : XsdDuration) : UInt64 :=
  let t : UInt64 := (UInt64.ofNat d.years + UInt64.ofNat d.months / 12) * 365
  let t := t + UInt64.ofNat d.months % 12 * 30
  let t := t + UInt64.ofNat d.days
  let t := t * 24 + UInt64.ofNat d.hours
  let t := t * 60 + UInt64.ofNat d.minutes
  let t := t * 60 + UInt64.ofNat d.seconds
  let t := t * UInt64.ofNat TimeSpan.ticksPerSecond
  t + UInt64.ofNat d.nanoseconds / 100

/-- SOURCE: 185-208 -/
def tryXsdDurationToTicks (d : XsdDuration) : Option ℤ :=
  let t := (durationTicks d).toNat
  if d.negative then
    if t = longcsMax + 1 then some (-2 ^ 63)
    else if longcsMax < t then none
    else some (-t)
  else if longcsMax < t then none
  else some t

/-- SOURCE: 222-225 -/
def magnitude (ticks : Int64) : ℕ :=
  (if ticks < 0 then ~~~ticks.toUInt64 + 1 else ticks.toUInt64).toNat

/-- A component that is not zero, and its designator. -/
def componentText (value : ℕ) (designator : Char) : List Char :=
  if value ≠ 0 then DateTime.toText value ++ [designator] else []

/-- The nine digits of the fraction, without the zeros at the end.
SOURCE: 248-255 -/
def fractionText (nanoseconds : ℕ) : List Char :=
  '.' :: DateTime.trimZeros (Printed.text (Printed.fixed 10 9 nanoseconds))

/-- SOURCE: 245-258 -/
def secondsText (seconds nanoseconds : ℕ) : List Char :=
  if seconds ≠ 0 ∨ nanoseconds ≠ 0 then
    DateTime.toText seconds ++ (if nanoseconds ≠ 0 then fractionText nanoseconds else []) ++ ['S']
  else []

/-- SOURCE: 241-259 -/
def timeText (hours minutes seconds nanoseconds : ℕ) : List Char :=
  if hours ≠ 0 ∨ minutes ≠ 0 ∨ seconds ≠ 0 ∨ nanoseconds ≠ 0 then
    'T' :: (componentText hours 'H' ++ componentText minutes 'M' ++ secondsText seconds nanoseconds)
  else []

/-- SOURCE: 219-262 -/
def formatXsdDuration (value : TimeSpan) : List Char :=
  let magnitude := magnitude value.ticks
  let nanoseconds := magnitude % TimeSpan.ticksPerSecond * 100
  let days := magnitude / TimeSpan.ticksPerDay
  let hours := magnitude / TimeSpan.ticksPerHour % 24
  let minutes := magnitude / TimeSpan.ticksPerMinute % 60
  let seconds := magnitude / TimeSpan.ticksPerSecond % 60
  let out := (if value.ticks < 0 then ['-'] else []) ++ ['P'] ++ componentText days 'D' ++
    timeText hours minutes seconds nanoseconds
  if out.getLast? = some 'P' then out ++ "T0S".toList else out

/-- SOURCE: 468-470 -/
def toString (value : TimeSpan) : List Char := formatXsdDuration value

/-- SOURCE: 816-823 -/
def toTimeSpan (s : List Char) : Run Exception TimeSpan := do
  let duration ← tryParseXsdDuration s
  match duration.bind tryXsdDurationToTicks with
  | none =>
    Run.throwing
      (.format (String.ofList ("The string '".toList ++ s ++ "' is not a valid TimeSpan value.".toList)))
  | some ticks => pure ⟨Int64.ofInt ticks⟩

end SharpRuntime.Model.XmlConvert
