import SharpRuntime.Model.Exception

/-!
# `Utf8Formatter`, for integers

The integer overloads of `modules/buffers/include/System/Buffers/Text/Utf8Formatter.hpp`, and the
`StandardFormat` they take, under the source's names.

A local buffer is the list of the characters stored in it so far; copying it out records whether
they fit its array.  The digits that `while (v > 0)` pushes are `Nat.digits`. Lines cited without a
file are those of the file named last.
-/

set_option autoImplicit false

namespace SharpRuntime.Model

open Machine

/-- SOURCE: StandardFormat.hpp:23-52 -/
structure StandardFormat where
  symbol : UInt8
  precision : UInt8
  admitted : precision = 255 ∨ precision ≤ 99

namespace StandardFormat

/-- SOURCE: 29 -/
def noPrecision : UInt8 := 255

/-- The default format, of no symbol. -/
def default : StandardFormat := ⟨0, 0, Or.inr (by decide)⟩

/-- SOURCE: 59 -/
def getHasPrecisionProperty (f : StandardFormat) : Bool := f.precision ≠ noPrecision

/-- SOURCE: 61 -/
def getIsDefaultProperty (f : StandardFormat) : Bool := f.symbol = 0 ∧ f.precision = 0

end StandardFormat

/-- The integer types that have overloads. -/
inductive IntegerType where
  | uint8 | int8 | uint16 | int16 | uint32 | int32 | uint64 | int64
deriving DecidableEq

namespace IntegerType

def isSigned : IntegerType → Bool
  | int8 | int16 | int32 | int64 => true
  | uint8 | uint16 | uint32 | uint64 => false

def byteWidth : IntegerType → ℕ
  | uint8 | int8 => 1
  | uint16 | int16 => 2
  | uint32 | int32 => 4
  | uint64 | int64 => 8

def bits (t : IntegerType) : ℕ := t.byteWidth * 8

/-- The numbers the type holds. -/
def Contains (t : IntegerType) (v : ℤ) : Prop :=
  if t.isSigned then -2 ^ (t.bits - 1) ≤ v ∧ v < 2 ^ (t.bits - 1) else 0 ≤ v ∧ v < 2 ^ t.bits

instance (t : IntegerType) (v : ℤ) : Decidable (t.Contains v) :=
  inferInstanceAs (Decidable (if t.isSigned then _ ∧ _ else _ ∧ _))

/-- A value of the type. -/
def Value (t : IntegerType) : Type := { v : ℤ // t.Contains v }

end IntegerType

namespace Utf8Formatter

/-- What `tryFormat` returns, `bytesWritten`, and the destination after the call. -/
structure Formatted where
  success : Bool
  bytesWritten : ℕ
  destination : List UInt8
deriving DecidableEq

/-- The end of each of the writers: the text in `buf`, an array of `capacity`, goes to the
destination, if that is long enough.
SOURCE: Utf8Formatter.hpp:166-169, 187-190, 209-212, 241-244 -/
def copyOut (capacity : ℕ) (buf destination : List UInt8) : Run Exception Formatted := do
  Run.observe (buf.length ≤ capacity)
  if destination.length < buf.length then pure ⟨false, 0, destination⟩
  else pure ⟨true, buf.length, buf ++ destination.drop buf.length⟩

/-- The digits a writer pushes, the least significant one first, padded with zeros to
`minDigits`. -/
def pushed (base v minDigits : ℕ) : List ℕ :=
  let buf := if v = 0 then [0] else Nat.digits base v
  buf ++ List.replicate (minDigits - buf.length) 0

/-- The character of a decimal digit. -/
def decimalDigit (d : ℕ) : UInt8 := '0'.toUInt8 + UInt8.ofNat d

/-- SOURCE: 151-170 -/
def tryFormatUnsignedDecimal (v minDigits : ℕ) (destination : List UInt8) :
    Run Exception Formatted :=
  let buf := (pushed 10 v minDigits).map decimalDigit
  copyOut 100 buf.reverse destination

/-- The magnitude of a signed number, as the writers of signed numbers take it.
SOURCE: 173-174, 273-276 -/
def magnitude (v : ℤ) : Run Exception ℕ :=
  if v < 0 then do
    let next ← Run.signed 64 (v + 1)
    let opposite ← Run.signed 64 (-next)
    Run.word 64 (wrap 64 opposite + 1 : ℤ)
  else pure (wrap 64 v)

/-- SOURCE: 172-191 -/
def tryFormatSignedDecimal (v : ℤ) (minDigits : ℕ) (destination : List UInt8) :
    Run Exception Formatted := do
  let neg := v < 0
  let u ← magnitude v
  let buf := (pushed 10 u minDigits).map decimalDigit
  let buf := if neg then buf ++ ['-'.toUInt8] else buf
  copyOut 101 buf.reverse destination

/-- The digits of a hexadecimal number.
SOURCE: 197 -/
def hexDigits (uppercase : Bool) : List UInt8 :=
  (if uppercase then "0123456789ABCDEF" else "0123456789abcdef").toList.map Char.toUInt8

/-- SOURCE: 193-213 -/
def tryFormatUnsignedHex (v byteWidth : ℕ) (uppercase : Bool) (minDigits : ℕ)
    (destination : List UInt8) : Run Exception Formatted :=
  let mask := if 8 ≤ byteWidth then 2 ^ 64 - 1 else 2 ^ (byteWidth * 8) - 1
  let v := v &&& mask
  let buf := (pushed 16 v minDigits).map fun d => (hexDigits uppercase).getD d 0
  copyOut 100 buf.reverse destination

/-- The digits, with a comma before every group of three but one that comes first.
SOURCE: 233-236 -/
def groupDigits : (first : Bool) → List UInt8 → List UInt8
  | _, [] => []
  | first, d :: digits =>
    if ¬ first ∧ (digits.length + 1) % 3 = 0 then ','.toUInt8 :: d :: groupDigits false digits
    else d :: groupDigits false digits

/-- SOURCE: 215-245 -/
def tryFormatGrouped (neg : Bool) (magnitude decimalDigits : ℕ) (destination : List UInt8) :
    Run Exception Formatted := do
  let digitsBuf := ((pushed 10 magnitude 0).map decimalDigit).reverse
  Run.observe (digitsBuf.length ≤ 24)
  let out := if neg then ['-'.toUInt8] else []
  let out := out ++ groupDigits true digitsBuf
  let out := if 0 < decimalDigits then
    out ++ '.'.toUInt8 :: List.replicate decimalDigits '0'.toUInt8 else out
  copyOut 150 out destination

/-- SOURCE: 249-294 -/
def tryFormatIntegerCore (isSigned : Bool) (signedValue : ℤ) (unsignedValue byteWidth : ℕ)
    (destination : List UInt8) (format : StandardFormat) : Run Exception Formatted :=
  if format.getIsDefaultProperty then
    if isSigned then tryFormatSignedDecimal signedValue 0 destination
    else tryFormatUnsignedDecimal unsignedValue 0 destination
  else
    let symbol := format.symbol
    let hasPrecision := format.getHasPrecisionProperty
    let precision := if hasPrecision then format.precision.toNat else 0
    if symbol ||| 0x20 = 'd'.toUInt8 then
      if isSigned then tryFormatSignedDecimal signedValue precision destination
      else tryFormatUnsignedDecimal unsignedValue precision destination
    else if symbol ||| 0x20 = 'x'.toUInt8 then
      let uppercase := symbol = 'X'.toUInt8
      let bits := if isSigned then wrap 64 signedValue else unsignedValue
      tryFormatUnsignedHex bits byteWidth uppercase precision destination
    else if symbol ||| 0x20 = 'n'.toUInt8 then do
      let neg := isSigned && decide (signedValue < 0)
      let mag ← if isSigned then magnitude signedValue else pure unsignedValue
      let decimalDigits := if hasPrecision then precision else 2
      tryFormatGrouped neg mag decimalDigits destination
    else if symbol ||| 0x20 = 'g'.toUInt8 ∨ symbol ||| 0x20 = 'r'.toUInt8 then
      if hasPrecision then
        Run.throwing (.notSupported
          "Precision is not supported for the 'G' format specifier for integer types since it could result in a value that cannot be re-parsed unambiguously.")
      else if isSigned then tryFormatSignedDecimal signedValue 0 destination
      else tryFormatUnsignedDecimal unsignedValue 0 destination
    else Run.throwing (.format "Format specifier was invalid.")

/-- The overload of each type.
SOURCE: 75-148 -/
def tryFormat (t : IntegerType) (value : t.Value) (destination : List UInt8)
    (format : StandardFormat) : Run Exception Formatted :=
  if t.isSigned then
    tryFormatIntegerCore true value.val 0 t.byteWidth destination format
  else tryFormatIntegerCore false 0 value.val.toNat t.byteWidth destination format

end Utf8Formatter

end SharpRuntime.Model

/-!
# `Utf8Parser`, for integers

The integer overloads of `modules/buffers/include/System/Buffers/Text/Utf8Parser.hpp`, under the
source's names.

A function that reports success by a `bool` and its results by references returns an option.  What
is left of the source stands for the source and a cursor into it; `n` counts the bytes before.
-/

namespace SharpRuntime.Model.Utf8Parser

open Machine

def isDigit (c : UInt8) : Bool := '0'.toUInt8 ≤ c ∧ c ≤ '9'.toUInt8

def uint64Max : ℕ := 2 ^ 64 - 1

def int64Max : ℕ := 2 ^ 63 - 1

/-- The loop of `tryParseUInt`.
SOURCE: Utf8Parser.hpp:245-257 -/
def scanUInt : (v n : ℕ) → List UInt8 → Option (ℕ × ℕ)
  | v, n, [] => some (v, n)
  | v, n, c :: src =>
    if isDigit c then
      let digit := c.toNat - '0'.toNat
      if v > (uint64Max - digit) / 10 then none else scanUInt (v * 10 + digit) (n + 1) src
    else some (v, n)

/-- SOURCE: 241-259 -/
def tryParseUInt (src : List UInt8) : Option (ℕ × ℕ) :=
  match src with
  | [] => none
  | c :: _ => if isDigit c then scanUInt 0 0 src else none

/-- The signed number of a magnitude, if `int64_t` holds it: the negation is one of unsigned words.
SOURCE: 289-306, 431-445 -/
def withSign (neg : Bool) (v : ℕ) : Option ℤ :=
  if neg then
    if v > int64Max + 1 then none else some ((wrap 64 (-v) : ℤ).bmod (2 ^ 64))
  else if v > int64Max then none else some v

/-- SOURCE: 281-309 -/
def tryParseInt (src : List UInt8) : Option (ℤ × ℕ) := do
  let neg := src.head? = some '-'.toUInt8
  let plus := src.head? = some '+'.toUInt8
  let signLength := if neg ∨ plus then 1 else 0
  let (v, digits) ← tryParseUInt (src.drop signLength)
  let out ← withSign neg v
  pure (out, digits + signLength)

/-- SOURCE: 315-320 -/
def hexVal (c : UInt8) : Option ℕ :=
  if '0'.toUInt8 ≤ c ∧ c ≤ '9'.toUInt8 then some (c.toNat - '0'.toNat)
  else if 'a'.toUInt8 ≤ c ∧ c ≤ 'f'.toUInt8 then some (c.toNat - 'a'.toNat + 10)
  else if 'A'.toUInt8 ≤ c ∧ c ≤ 'F'.toUInt8 then some (c.toNat - 'A'.toNat + 10)
  else none

/-- The loop of `tryParseHex`.
SOURCE: 325-331 -/
def scanHex (widthMaxValue : ℕ) : (v i : ℕ) → List UInt8 → Option (ℕ × ℕ)
  | v, i, [] => some (v, i)
  | v, i, c :: src =>
    match hexVal c with
    | none => some (v, i)
    | some d =>
      if v > widthMaxValue >>> 4 then none else scanHex widthMaxValue (v <<< 4 ||| d) (i + 1) src

/-- SOURCE: 311-334 -/
def tryParseHex (src : List UInt8) (widthMaxValue : ℕ) : Option (ℕ × ℕ) :=
  match src with
  | [] => none
  | c :: src => do
    let d0 ← hexVal c
    scanHex widthMaxValue d0 1 src

/-- `fractionalDigits`: `index` is that of the `.` or of a zero after it, and `src` what follows.
SOURCE: 383-390 -/
def fractionalDigits (answer : ℕ) : (index : ℕ) → List UInt8 → Option (ℕ × ℕ)
  | index, [] => some (answer, index + 1)
  | index, c :: src =>
    if c = '0'.toUInt8 then fractionalDigits answer (index + 1) src
    else if isDigit c then none
    else some (answer, index + 1)

/-- `fractionalNoLeading`.
SOURCE: 377-381 -/
def fractionalNoLeading (index : ℕ) : List UInt8 → Option (ℕ × ℕ)
  | [] => none
  | c :: src => if c ≠ '0'.toUInt8 then none else fractionalDigits 0 (index + 1) src

/-- The loop over the integral digits: `index` is that of the one before `src`.
SOURCE: 361-375 -/
def integralDigits : (answer index : ℕ) → List UInt8 → Option (ℕ × ℕ)
  | answer, index, [] => some (answer, index + 1)
  | answer, index, c :: src =>
    if c = ','.toUInt8 then integralDigits answer (index + 1) src
    else if c = '.'.toUInt8 then fractionalDigits answer (index + 1) src
    else if ¬ isDigit c then some (answer, index + 1)
    else
      let digit := c.toNat - '0'.toNat
      if answer > (uint64Max - digit) / 10 then none
      else integralDigits (answer * 10 + digit) (index + 1) src

/-- The magnitude, whether there was a minus sign, and the bytes read.
SOURCE: 337-396 -/
def tryParseGrouped (src : List UInt8) (allowMinus : Bool) : Option (ℕ × Bool × ℕ) :=
  let neg := allowMinus ∧ src.head? = some '-'.toUInt8
  let signed := neg ∨ src.head? = some '+'.toUInt8
  let index := if signed then 1 else 0
  match src.drop index with
  | [] => none
  | c :: rest =>
    let scanned :=
      if c = '.'.toUInt8 then fractionalNoLeading index rest
      else if ¬ isDigit c then none
      else integralDigits (c.toNat - '0'.toNat) index rest
    scanned.map fun (magnitude, n) => (magnitude, decide neg, n)

/-- The number an integer of `byteWidth` bytes has in two's complement. -/
def asSigned (byteWidth v : ℕ) : ℤ := (v : ℤ).bmod (2 ^ (byteWidth * 8))

/-- The number, in `signedOut` or `unsignedOut`, and the bytes consumed.
SOURCE: 401-454 -/
def tryParseIntegerCore (source : List UInt8) (standardFormat : UInt8) (byteWidth : ℕ)
    (isSigned : Bool) : Run Exception (Option (ℤ × ℕ)) :=
  let symbol := if standardFormat = 0 then 'G'.toUInt8 else standardFormat
  if symbol ||| 0x20 = 'g'.toUInt8 ∨ symbol ||| 0x20 = 'd'.toUInt8 ∨
      symbol ||| 0x20 = 'r'.toUInt8 then
    if isSigned then pure (tryParseInt source)
    else pure ((tryParseUInt source).map fun (v, n) => ((v : ℤ), n))
  else if symbol ||| 0x20 = 'x'.toUInt8 then
    let widthMax := if 8 ≤ byteWidth then 2 ^ 64 - 1 else 2 ^ (byteWidth * 8) - 1
    pure do
      let (v, consumed) ← tryParseHex source widthMax
      if v > widthMax then none
      else if isSigned then some (asSigned byteWidth v, consumed)
      else some ((v : ℤ), consumed)
  else if symbol ||| 0x20 = 'n'.toUInt8 then
    pure do
      let (magnitude, neg, consumed) ← tryParseGrouped source isSigned
      if isSigned then do
        let out ← withSign neg magnitude
        pure (out, consumed)
      else if neg then none
      else some ((magnitude : ℤ), consumed)
  else Run.throwing (.format "Format specifier was invalid.")

/-- What `tryParse` returns, the value, and `bytesConsumed`. -/
structure Parsed where
  success : Bool
  value : ℤ
  bytesConsumed : ℕ
deriving DecidableEq

/-- SOURCE: 234-239 -/
def fail : Parsed := ⟨false, 0, 0⟩

/-- The overload of each type: what the core parses has to fit a type narrower than its results.
SOURCE: 105-213 -/
def tryParse (t : IntegerType) (source : List UInt8) (standardFormat : UInt8) :
    Run Exception Parsed := do
  match ← tryParseIntegerCore source standardFormat t.byteWidth t.isSigned with
  | none => pure fail
  | some (value, n) =>
    if t.byteWidth < 8 ∧ ¬ t.Contains value then pure fail else pure ⟨true, value, n⟩

end SharpRuntime.Model.Utf8Parser
