import SharpRuntime.Model.Exception

/-!
# Parsing integers by number style

`modules/core/include/System/detail/IntegerNumberStylesParser.hpp`, under the source's names; bare
line numbers are of this file.  An index into a string is what is left of it.  The increments of the
`int`s `digitsCount` and `pendingZeros` are recorded by `Run.signed`; the `long long`s `scale` and
`exponent` are bounded by the length of a string and are integers.  The character classes are those
of the C locale.
-/

set_option autoImplicit false

namespace SharpRuntime.Model

open Machine

/-- `NumberStyles`; the source's enumeration can hold any `int`. -/
abbrev NumberStyles := BitVec 32

namespace NumberStyles

def allowLeadingWhite : NumberStyles := 0x001#32

def allowTrailingWhite : NumberStyles := 0x002#32

def allowLeadingSign : NumberStyles := 0x004#32

def allowTrailingSign : NumberStyles := 0x008#32

def allowParentheses : NumberStyles := 0x010#32

def allowDecimalPoint : NumberStyles := 0x020#32

def allowThousands : NumberStyles := 0x040#32

def allowExponent : NumberStyles := 0x080#32

def allowCurrencySymbol : NumberStyles := 0x100#32

/-- The test `(style & flag) != None`. -/
def has (style flag : NumberStyles) : Bool := style &&& flag ≠ 0

end NumberStyles

namespace IntegerNumberStylesParser

def isdigit (c : UInt8) : Bool := '0'.toUInt8 ≤ c && c ≤ '9'.toUInt8

def isspace (c : UInt8) : Bool := c = ' '.toUInt8 || (9 ≤ c && c ≤ 13)

/-- `s[i] - '0'`, of a digit. -/
def digit (c : UInt8) : ℕ := c.toNat - 48

def uint64Max : ℕ := 2 ^ 64 - 1

def kGroupSeparator : UInt8 := ','.toUInt8

def kDecimalSeparator : UInt8 := '.'.toUInt8

def kCurrencySymbol : List UInt8 := [0xC2, 0xA4]

def kMaxSignificantScale : ℤ := 20

/-- SOURCE: 166-173 -/
structure DigitScan where
  magnitude : ℕ := 0
  digitsCount : ℤ := 0
  scale : ℤ := 0
  any : Bool := false
  sawDecimal : Bool := false
  overflowed : Bool := false
deriving DecidableEq

/-- The scan of the digits: the state, and the two local variables of the loop. -/
structure MantissaState where
  scan : DigitScan := {}
  sawNonZero : Bool := false
  pendingZeros : ℤ := 0
deriving DecidableEq

/-- One digit stored behind the others; a zero that has become significant is one.
SOURCE: 203-209 -/
def storeDigit (digit : ℕ) (scan : DigitScan) : Run Exception DigitScan := do
  let digitsCount ← Run.signed 32 (scan.digitsCount + 1)
  pure (if scan.magnitude > (uint64Max - digit) / 10 then
      { scan with digitsCount, overflowed := true }
    else { scan with digitsCount, magnitude := scan.magnitude * 10 + digit })

/-- The loop that stores the pending zeros.
SOURCE: 202-206 -/
def storeZeros : (pendingZeros : ℕ) → DigitScan → Run Exception DigitScan
  | 0, scan => pure scan
  | pendingZeros + 1, scan => storeDigit 0 scan >>= storeZeros pendingZeros

/-- A digit that is not a leading zero.
SOURCE: 200-212, 214 -/
def enterDigit (digit : ℕ) (st : MantissaState) : Run Exception MantissaState :=
  if digit ≠ 0 then do
    let scan ← storeZeros st.pendingZeros.toNat st.scan
    let scan ← storeDigit digit scan
    pure { scan, sawNonZero := true, pendingZeros := min st.pendingZeros 0 }
  else do
    let pendingZeros ← Run.signed 32 (st.pendingZeros + 1)
    pure { st with sawNonZero := true, pendingZeros }

/-- One digit of the input.
SOURCE: 197-217 -/
def takeDigit (digit : ℕ) (st : MantissaState) : Run Exception MantissaState :=
  let st := { st with scan := { st.scan with any := true } }
  if digit ≠ 0 ∨ st.sawNonZero then do
    let st ← enterDigit digit st
    pure (if st.scan.sawDecimal then st
      else { st with scan := { st.scan with scale := st.scan.scale + 1 } })
  else if st.scan.sawDecimal then
    pure { st with scan := { st.scan with scale := st.scan.scale - 1 } }
  else pure st

/-- The loop over digits, separators and the decimal point, and what it leaves.
SOURCE: 195-224 -/
def scanMantissa (style : NumberStyles) :
    List UInt8 → MantissaState → Run Exception (MantissaState × List UInt8)
  | [], st => pure (st, [])
  | c :: s, st =>
    if isdigit c then takeDigit (digit c) st >>= scanMantissa style s
    else if style.has .allowDecimalPoint ∧ !st.scan.sawDecimal ∧ c = kDecimalSeparator then
      scanMantissa style s { st with scan := { st.scan with sawDecimal := true } }
    else if style.has .allowThousands ∧ st.scan.any ∧ !st.scan.sawDecimal ∧ c = kGroupSeparator then
      scanMantissa style s st
    else pure (st, c :: s)

/-- The digits of an exponent: the exponent, the scale, which the cap resets, and what is left.
SOURCE: 240-252 -/
def takeExponent : List UInt8 → (exponent scale : ℤ) → ℤ × ℤ × List UInt8
  | [], exponent, scale => (exponent, scale, [])
  | c :: s, exponent, scale =>
    if isdigit c then
      if exponent ≥ 100000000 then (2147483647, 0, (c :: s).dropWhile isdigit)
      else takeExponent s (exponent * 10 + digit c) scale
    else (exponent, scale, c :: s)

/-- The sign of an exponent: whether it is a minus, and what is left. -/
def takeExponentSign (s : List UInt8) : Bool × List UInt8 :=
  if s.head? = some '+'.toUInt8 ∨ s.head? = some '-'.toUInt8 then
    (s.head? = some '-'.toUInt8, s.tail)
  else (false, s)

/-- The exponent, if there is one; an `E` without digits is left where it is.
SOURCE: 227-253 -/
def scanExponent (scan : DigitScan) (s : List UInt8) : DigitScan × List UInt8 :=
  if s.head? ≠ some 'E'.toUInt8 ∧ s.head? ≠ some 'e'.toUInt8 then (scan, s)
  else
    let (negativeExponent, digits) := takeExponentSign s.tail
    if !digits.head?.any isdigit then (scan, s)
    else
      let (exponent, scale, rest) := takeExponent digits 0 scan.scale
      ({ scan with scale := scale + if negativeExponent then -exponent else exponent }, rest)

/-- SOURCE: 186-254 -/
def scanDigitsAndExponent (s : List UInt8) (style : NumberStyles) :
    Run Exception (DigitScan × List UInt8) := do
  let (st, rest) ← scanMantissa style s {}
  pure (if !st.scan.any ∨ !style.has .allowExponent then (st.scan, rest)
    else scanExponent st.scan rest)

/-- The loop of `tryFoldScale`. -/
def foldZeros : (k : ℕ) → (magnitude : ℕ) → Option ℕ
  | 0, magnitude => some magnitude
  | k + 1, magnitude => if magnitude > uint64Max / 10 then none else foldZeros k (magnitude * 10)

/-- The magnitude with its trailing zeros; `none` where the source returns `false`.
SOURCE: 324-333 -/
def tryFoldScale (scan : DigitScan) : Option ℕ :=
  if scan.overflowed then none
  else if scan.scale > kMaxSignificantScale then none
  else if scan.scale < scan.digitsCount then none
  else foldZeros (scan.scale - scan.digitsCount).toNat scan.magnitude

/-- Which tokens have been read. -/
structure TokenFlags where
  negative : Bool := false
  haveSign : Bool := false
  haveParen : Bool := false
  haveCurrency : Bool := false
deriving DecidableEq

/-- One iteration of the leading loop; `none` where nothing matches.
SOURCE: 364-377, 504-517 -/
def leadingToken (style : NumberStyles) (f : TokenFlags) (s : List UInt8) :
    Option (TokenFlags × List UInt8) :=
  if style.has .allowLeadingWhite ∧ s.head?.any isspace then some (f, s.dropWhile isspace)
  else if style.has .allowLeadingSign ∧ !f.haveSign ∧
      (s.head? = some '+'.toUInt8 ∨ s.head? = some '-'.toUInt8) then
    some ({ f with negative := s.head? = some '-'.toUInt8, haveSign := true }, s.tail)
  else if style.has .allowParentheses ∧ !f.haveSign ∧ s.head? = some '('.toUInt8 then
    some ({ f with haveParen := true, haveSign := true, negative := true }, s.tail)
  else if style.has .allowCurrencySymbol ∧ !f.haveCurrency ∧ kCurrencySymbol.isPrefixOf s then
    some ({ f with haveCurrency := true }, s.drop kCurrencySymbol.length)
  else none

/-- One iteration of the trailing loop; `none` where nothing matches.
SOURCE: 391-404, 530-543 -/
def trailingToken (style : NumberStyles) (f : TokenFlags) (s : List UInt8) :
    Option (TokenFlags × List UInt8) :=
  if style.has .allowTrailingSign ∧ !f.haveSign ∧
      (s.head? = some '+'.toUInt8 ∨ s.head? = some '-'.toUInt8) then
    some ({ f with negative := s.head? = some '-'.toUInt8, haveSign := true }, s.tail)
  else if f.haveParen ∧ s.head? = some ')'.toUInt8 then
    some ({ f with haveParen := false }, s.tail)
  else if style.has .allowCurrencySymbol ∧ !f.haveCurrency ∧ kCurrencySymbol.isPrefixOf s then
    some ({ f with haveCurrency := true }, s.drop kCurrencySymbol.length)
  else if style.has .allowTrailingWhite ∧ s.head?.any isspace then some (f, s.dropWhile isspace)
  else none

/-- A token loop: it stops where nothing matches, after at most `fuel` tokens. -/
def takeTokens (token : TokenFlags → List UInt8 → Option (TokenFlags × List UInt8)) :
    (fuel : ℕ) → TokenFlags → List UInt8 → TokenFlags × List UInt8
  | 0, f, s => (f, s)
  | fuel + 1, f, s =>
    match token f s with
    | none => (f, s)
    | some (f, s) => takeTokens token fuel f s

/-- The all-zero normalisation.
SOURCE: 429-432, 555-558 -/
def normalize (negative : Bool) (scan : DigitScan) : Bool × DigitScan :=
  if scan.digitsCount = 0 then
    (if scan.sawDecimal then negative else false, { scan with scale := 0 })
  else (negative, scan)

/-- What both cores do before they fold the scale: the sign and the scan, normalised; `none` where
they return `false`.
SOURCE: 342-432, 477-558 -/
def scanNumber (s : List UInt8) (style : NumberStyles) : Run Exception (Option (Bool × DigitScan)) := do
  let (f, s) := takeTokens (leadingToken style) s.length {} s
  let (scan, s) ← scanDigitsAndExponent s style
  pure (
    if !scan.any then none
    else
      let s := if style.has .allowTrailingWhite then s.dropWhile isspace else s
      let (f, s) := takeTokens (trailingToken style) s.length f s
      if f.haveParen then none
      else if s ≠ [] then none
      else some (normalize f.negative scan))

/-- How a core ends: it returns `false`; it returns `true` and reports an overflow; or it returns
`true` with a result. -/
inductive ParseOutcome (α : Type) where
  | rejected
  | overflowed
  | parsed (result : α)
deriving DecidableEq

/-- The signed value of a magnitude.
SOURCE: 442-453 -/
def signedResult (negative : Bool) (magnitude : ℕ) : ParseOutcome Int64 :=
  let kInt64MinMagnitude := 9223372036854775808
  if negative then
    if magnitude > kInt64MinMagnitude then .overflowed
    else .parsed (if magnitude = kInt64MinMagnitude then Int64.minValue else -Int64.ofNat magnitude)
  else if magnitude > 9223372036854775807 then .overflowed
  else .parsed (Int64.ofNat magnitude)

/-- SOURCE: 342-455 -/
def tryParseSignedCore (s : List UInt8) (style : NumberStyles) :
    Run Exception (ParseOutcome Int64) := do
  match ← scanNumber s style with
  | none => pure .rejected
  | some (negative, scan) =>
    match tryFoldScale scan with
    | none => pure .overflowed
    | some magnitude => pure (signedResult negative magnitude)

/-- SOURCE: 477-569 -/
def tryParseUnsignedCore (s : List UInt8) (style : NumberStyles) :
    Run Exception (ParseOutcome UInt64) := do
  match ← scanNumber s style with
  | none => pure .rejected
  | some (negative, scan) =>
    if negative then pure .overflowed
    else
      match tryFoldScale scan with
      | none => pure .overflowed
      | some magnitude => pure (.parsed (UInt64.ofNat magnitude))

end IntegerNumberStylesParser

end SharpRuntime.Model
