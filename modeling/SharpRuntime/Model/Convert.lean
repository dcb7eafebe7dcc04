import SharpRuntime.Model.Base64
import SharpRuntime.Machine.Printed

/-!
# `Convert`

The conversions to Base64 and to the bases 2, 8, 10 and 16 of
`modules/core/src/System/Convert.cpp`, under the source's names.  A string
is the list of its bytes. Bare line numbers are of `Convert.cpp`.
-/

set_option autoImplicit false

namespace SharpRuntime.Model.Convert

open Machine

/-- SOURCE: 290-291 -/
def kB64Chars : List UInt8 :=
  "ABCDEFGHIJKLMNOPQRSTUVWXYZabcdefghijklmnopqrstuvwxyz0123456789+/".toList.map Char.toUInt8

/-- The four characters of a triple of which the last bytes may be missing.
SOURCE: 302-305 -/
def quad (triple : ℕ) (second third : Bool) : List UInt8 :=
  [Base64.letterAt kB64Chars triple 18, Base64.letterAt kB64Chars triple 12,
    if second then Base64.letterAt kB64Chars triple 6 else '='.toUInt8,
    if third then Base64.letterAt kB64Chars triple 0 else '='.toUInt8]

/-- SOURCE: 293-308 -/
def toBase64String : (inArray : List UInt8) → List UInt8
  | [] => []
  | [a] => quad (a.toNat <<< 16) false false
  | [a, b] => quad (a.toNat <<< 16 ||| b.toNat <<< 8) true false
  | a :: b :: c :: inArray =>
    quad (a.toNat <<< 16 ||| b.toNat <<< 8 ||| c.toNat) true true ++ toBase64String inArray

/-- SOURCE: 325-332 -/
def b64val (c : UInt8) : Run Exception ℕ :=
  if 'A'.toUInt8 ≤ c ∧ c ≤ 'Z'.toUInt8 then pure (c - 'A'.toUInt8).toNat
  else if 'a'.toUInt8 ≤ c ∧ c ≤ 'z'.toUInt8 then pure ((c - 'a'.toUInt8).toNat + 26)
  else if '0'.toUInt8 ≤ c ∧ c ≤ '9'.toUInt8 then pure ((c - '0'.toUInt8).toNat + 52)
  else if c = '+'.toUInt8 then pure 62
  else if c = '/'.toUInt8 then pure 63
  else Run.throwing (.format "Invalid Base64 character.")

/-- The text without its white space.
SOURCE: 336-342 -/
def pack (s : List UInt8) : List UInt8 :=
  s.filter fun c =>
    !(c == ' '.toUInt8 || c == '\t'.toUInt8 || c == '\r'.toUInt8 || c == '\n'.toUInt8)

/-- The `=` at the end, two at most.
SOURCE: 351-353 -/
def countPadding (packed : List UInt8) : (fuel padding : ℕ) → ℕ
  | 0, padding => padding
  | fuel + 1, padding =>
    if padding < packed.length ∧
        packed.getD (packed.length - 1 - padding) 0 = '='.toUInt8 then
      countPadding packed fuel (padding + 1)
    else padding

/-- A character that is not read if padding stands in its place. -/
def b64valUnless (pad : Bool) (c : UInt8) : Run Exception ℕ := if pad then pure 0 else b64val c

/-- The quads; the length of the text is a multiple of four.
SOURCE: 367-378 -/
def decodeQuads (padding : ℕ) : (packed out : List UInt8) → Run Exception (List UInt8)
  | c₀ :: c₁ :: c₂ :: c₃ :: packed, out => do
    let twoPad := packed.isEmpty && padding == 2
    let onePad := packed.isEmpty && padding == 1
    let v₀ ← b64val c₀
    let v₁ ← b64val c₁
    let v₂ ← b64valUnless twoPad c₂
    let v₃ ← b64valUnless (twoPad || onePad) c₃
    decodeQuads padding packed
      (out ++ [UInt8.ofNat (v₀ <<< 2 ||| v₁ >>> 4)] ++
        (if twoPad then [] else [UInt8.ofNat ((v₁ &&& 0xF) <<< 4 ||| v₂ >>> 2)]) ++
        (if twoPad || onePad then [] else [UInt8.ofNat ((v₂ &&& 0x3) <<< 6 ||| v₃)]))
  | _, out => pure out

/-- The text without white space: its padding is at the end, and the rest is decoded.
SOURCE: 351-378 -/
def decodePacked (packed : List UInt8) : Run Exception (List UInt8) :=
  let padding := countPadding packed 2 0
  let dataLength := packed.length - padding
  if (packed.take dataLength).contains '='.toUInt8 then
    Run.throwing (.format "Invalid Base64 character.")
  else decodeQuads padding packed []

/-- SOURCE: 310-379 -/
def fromBase64String (s : List UInt8) : Run Exception (List UInt8) :=
  let packed := pack s
  if packed.length % 4 ≠ 0 then
    Run.throwing (.format "Base64 string length must be a multiple of 4.")
  else decodePacked packed

/-- A digit of a base up to sixteen, in lower case. -/
def digitByte (d : ℕ) : UInt8 := if d < 10 then UInt8.ofNat (48 + d) else UInt8.ofNat (87 + d)

/-- What the stream inserters and `std::to_string` print for a number that is not negative. -/
def unsignedText (base n : ℕ) : List UInt8 := (Printed.numeral base n).map digitByte

/-- The loop `while (uv)`: a bit in front of the result and a shift, at most 32 rounds.
SOURCE: 190-191 -/
def binaryLoop : (fuel uv : ℕ) → (result : List UInt8) → List UInt8
  | 0, _, result => result
  | fuel + 1, uv, result =>
    if uv = 0 then result
    else binaryLoop fuel (uv >>> 1) (('0'.toUInt8 + UInt8.ofNat (uv &&& 1)) :: result)

/-- In the bases 8 and 16 a stream inserter prints the two's complement of 32 bits.
SOURCE: 179-201 -/
def toString (value toBase : ℤ) : Run Exception (List UInt8) :=
  if toBase = 10 then
    pure (if value < 0 then '-'.toUInt8 :: unsignedText 10 (-value).toNat
      else unsignedText 10 value.toNat)
  else if toBase = 16 then pure (unsignedText 16 (wrap 32 value))
  else if toBase = 2 then
    pure (if value = 0 then ['0'.toUInt8] else binaryLoop 32 (wrap 32 value) [])
  else if toBase = 8 then pure (unsignedText 8 (wrap 32 value))
  else Run.throwing (.format "Invalid base.")

/-- The digit that a letter or a figure stands for, in the bases up to 36. -/
def digitValue (c : UInt8) : Option ℕ :=
  if '0'.toUInt8 ≤ c ∧ c ≤ '9'.toUInt8 then some (c - '0'.toUInt8).toNat
  else if 'a'.toUInt8 ≤ c ∧ c ≤ 'z'.toUInt8 then some ((c - 'a'.toUInt8).toNat + 10)
  else if 'A'.toUInt8 ≤ c ∧ c ≤ 'Z'.toUInt8 then some ((c - 'A'.toUInt8).toNat + 10)
  else none

def isBaseDigit (base : ℕ) (c : UInt8) : Bool := (digitValue c).any fun d => decide (d < base)

def isspace (c : UInt8) : Bool := c == 0x20 || decide (0x09 ≤ c ∧ c ≤ 0x0D)

/-- `0x` in front of a digit of base 16 is skipped. -/
def skipPrefix (base : ℕ) : List UInt8 → List UInt8
  | z :: x :: d :: s =>
    if base = 16 ∧ z = '0'.toUInt8 ∧ (x = 'x'.toUInt8 ∨ x = 'X'.toUInt8) ∧ isBaseDigit base d then
      d :: s
    else z :: x :: d :: s
  | s => s

/-- What `strtoll` answers: the number, what is left of the string, whether there was a number, and
whether it was out of range. -/
structure Converted where
  result : ℤ
  rest : List UInt8
  number : Bool
  erange : Bool

def llongMax : ℤ := 2 ^ 63 - 1

def llongMin : ℤ := -2 ^ 63

/-- `std::strtoll` of the C standard: white space, a sign, digits. -/
def strtoll (s : List UInt8) (base : ℕ) : Converted :=
  let text := s.dropWhile isspace
  let negative := text.head? = some '-'.toUInt8
  let text := if negative ∨ text.head? = some '+'.toUInt8 then text.drop 1 else text
  let text := skipPrefix base text
  let digits := text.takeWhile (isBaseDigit base)
  let magnitude := Printed.value base (digits.map fun c => (digitValue c).getD 0)
  let exact : ℤ := if negative then -magnitude else magnitude
  if digits = [] then ⟨0, s, false, false⟩
  else if exact < llongMin then ⟨llongMin, text.drop digits.length, true, true⟩
  else if exact > llongMax then ⟨llongMax, text.drop digits.length, true, true⟩
  else ⟨exact, text.drop digits.length, true, false⟩

/-- SOURCE: 40-52 -/
def parseIntBase (value : List UInt8) (base : ℤ) : Run Exception ℤ :=
  if base ≠ 2 ∧ base ≠ 8 ∧ base ≠ 10 ∧ base ≠ 16 then
    Run.throwing (.argument "Invalid Base." "")
  else if value = [] then
    Run.throwing (.format "Input string was not in a correct format.")
  else
    -- `c_str()` ends at the first NUL
    let converted := strtoll (value.takeWhile (· ≠ 0)) base.toNat
    if !converted.number || !converted.rest.isEmpty then
      Run.throwing (.format "Input string was not in a correct format.")
    else if converted.erange ∨ converted.result > 2147483647 ∨ converted.result < -2147483648 then
      Run.throwing (.overflow "Value was either too large or too small for an Int32.")
    else pure converted.result

/-- `ToInt32(const std::string& value, intcs fromBase)`.
SOURCE: 86-88 -/
def toInt32 (value : List UInt8) (fromBase : ℤ) : Run Exception ℤ := parseIntBase value fromBase

end SharpRuntime.Model.Convert
