import SharpRuntime.Machine.Printed
import SharpRuntime.Model.Utf8Text
import SharpRuntime.Model.NumberStyles

/-!
# The grammars of integer text

What the text of an integer stands for under each of the standard formats: `D` and `G` are decimal
digits, `N` decimal digits in groups with a fraction of zeros, `X` hexadecimal digits.  A sign may
come first where the type has one; grouped digits take a plus sign also where it has not.
-/

set_option autoImplicit false

namespace SharpRuntime.Interface

open Machine Model

/-- The notations of the standard formats. -/
inductive IntegerNotation where
  | decimal
  | grouped
  | hexadecimal
deriving DecidableEq

namespace IntegerNotation

/-- The notation a format symbol, of either case, names; none is `G`. -/
def ofSymbol (symbol : UInt8) : Option IntegerNotation :=
  if symbol ∈ [0, 'G'.toUInt8, 'g'.toUInt8, 'D'.toUInt8, 'd'.toUInt8, 'R'.toUInt8, 'r'.toUInt8] then
    some decimal
  else if symbol ∈ ['N'.toUInt8, 'n'.toUInt8] then some grouped
  else if symbol ∈ ['X'.toUInt8, 'x'.toUInt8] then some hexadecimal
  else none

def digitIn (alphabet : String) (c : UInt8) : Option ℕ :=
  (alphabet.toList.map Char.toUInt8).idxOf? c

def decimalDigit? (c : UInt8) : Option ℕ := digitIn "0123456789" c

def hexDigit? (c : UInt8) : Option ℕ :=
  (digitIn "0123456789abcdef" c).or (digitIn "0123456789ABCDEF" c)

def signs : IntegerNotation → (isSigned : Bool) → List (List UInt8 × ℤ)
  | decimal, true => [([], 1), (['+'.toUInt8], 1), (['-'.toUInt8], -1)]
  | decimal, false => [([], 1)]
  | grouped, true => [([], 1), (['+'.toUInt8], 1), (['-'.toUInt8], -1)]
  | grouped, false => [([], 1), (['+'.toUInt8], 1)]
  | hexadecimal, _ => [([], 1)]

def Spelled (digit? : UInt8 → Option ℕ) (text : List UInt8) (ds : List ℕ) : Prop :=
  text.map digit? = ds.map some

/-- The text is digits with commas among them, a digit the first, and perhaps a point and zeros
after it; or it is a point and at least one zero. -/
def Grouped (text : List UInt8) (ds : List ℕ) : Prop :=
  ∃ (body : List UInt8) (zeros : ℕ) (point : Bool),
    text = body ++ (if point then '.'.toUInt8 :: List.replicate zeros '0'.toUInt8 else []) ∧
    Spelled decimalDigit? (body.filter (· ≠ ','.toUInt8)) ds ∧
    (body = [] ∧ point = true ∧ 0 < zeros ∨ ∃ c rest, body = c :: rest ∧ c ≠ ','.toUInt8)

def Body : IntegerNotation → List UInt8 → ℕ → Prop
  | decimal, text, n => ∃ ds, ds ≠ [] ∧ Spelled decimalDigit? text ds ∧ n = Printed.value 10 ds
  | hexadecimal, text, n => ∃ ds, ds ≠ [] ∧ Spelled hexDigit? text ds ∧ n = Printed.value 16 ds
  | grouped, text, n => ∃ ds, Grouped text ds ∧ n = Printed.value 10 ds

/-- The text belongs to the grammar, and stands for the number. -/
def Denotes (notation_ : IntegerNotation) (isSigned : Bool) (text : List UInt8) (v : ℤ) : Prop :=
  ∃ sign ∈ notation_.signs isSigned, ∃ body n,
    text = sign.1 ++ body ∧ notation_.Body body n ∧ v = sign.2 * n

end IntegerNotation

/-- The value of the text under the format: what it stands for, or in hexadecimal a number that
agrees with it modulo two to the width of the type. -/
def HasValue (t : IntegerType) (symbol : UInt8) (text : List UInt8) (v : ℤ) : Prop :=
  ∃ n ∈ IntegerNotation.ofSymbol symbol, ∃ number, n.Denotes t.isSigned text number ∧
    if n = .hexadecimal then v ≡ number [ZMOD 2 ^ t.bits] else v = number

/-!
# The grammar of the number styles

What a number style admits, apart from any parser.  A `Numeral` is a number taken apart: affixes
in front of it and behind it, the digits of its whole part with group separators between them,
its fraction and its exponent.  `WellFormed` says which parts a style admits, `text` writes it,
and `number` is the rational number it denotes.
-/

open Model.IntegerNumberStylesParser

/-- What stands in front of a number or behind it. -/
inductive Affix where
  | white (c : UInt8)
  | sign (negative : Bool)
  | opening
  | closing
  | currency
deriving DecidableEq

namespace Affix

def text : Affix → List UInt8
  | white c => [c]
  | sign negative => [if negative then '-'.toUInt8 else '+'.toUInt8]
  | opening => ['('.toUInt8]
  | closing => [')'.toUInt8]
  | currency => kCurrencySymbol

def MayLead (style : NumberStyles) : Affix → Prop
  | white c => isspace c = true ∧ style.has .allowLeadingWhite = true
  | sign _ => style.has .allowLeadingSign = true
  | opening => style.has .allowParentheses = true
  | closing => False
  | currency => style.has .allowCurrencySymbol = true

def MayTrail (style : NumberStyles) : Affix → Prop
  | white c => isspace c = true ∧ style.has .allowTrailingWhite = true
  | sign _ => style.has .allowTrailingSign = true
  | opening => False
  | closing => True
  | currency => style.has .allowCurrencySymbol = true

/-- The affixes that give a number its sign; a closing parenthesis belongs to its opening one. -/
def isSign : Affix → Bool
  | sign _ => true
  | opening => true
  | _ => false

def isNegative : Affix → Bool
  | sign negative => negative
  | opening => true
  | _ => false

end Affix

def spellAffixes (affixes : List Affix) : List UInt8 := affixes.flatMap Affix.text

def digitsOf (bytes : List UInt8) : List ℕ := (bytes.filter isdigit).map digit

/-- An exponent: the letter, the sign, if there is one, and the digits. -/
structure Exponent where
  letter : UInt8
  sign : Option Bool
  digits : List UInt8
deriving DecidableEq

namespace Exponent

def text (e : Exponent) : List UInt8 :=
  e.letter :: ((e.sign.map fun negative => (Affix.sign negative).text).getD [] ++ e.digits)

structure WellFormed (e : Exponent) : Prop where
  letter : e.letter = 'E'.toUInt8 ∨ e.letter = 'e'.toUInt8
  nonempty : e.digits ≠ []
  digits : ∀ c ∈ e.digits, isdigit c = true

def value (e : Exponent) : ℤ :=
  let magnitude : ℤ := Printed.value 10 (digitsOf e.digits)
  if e.sign = some true then -magnitude else magnitude

end Exponent

def pointText (fraction : Option (List UInt8)) : List UInt8 :=
  (fraction.map (kDecimalSeparator :: ·)).getD []

def exponentText (exponent : Option Exponent) : List UInt8 := (exponent.map Exponent.text).getD []

def mantissaDigits (whole : List UInt8) (fraction : Option (List UInt8)) : List ℕ :=
  digitsOf whole ++ digitsOf (fraction.getD [])

/-- A number, taken apart. -/
structure Numeral where
  leading : List Affix
  whole : List UInt8
  fraction : Option (List UInt8)
  exponent : Option Exponent
  trailing : List Affix

namespace Numeral

variable (p : Numeral)

def text : List UInt8 :=
  spellAffixes p.leading ++
    (p.whole ++ (pointText p.fraction ++ (exponentText p.exponent ++ spellAffixes p.trailing)))

def digits : List ℕ := mantissaDigits p.whole p.fraction

def negative : Bool := (p.leading ++ p.trailing).any Affix.isNegative

def exponentValue : ℤ := (p.exponent.map Exponent.value).getD 0

def exponentDigits : ℕ := (p.exponent.map fun e => e.digits.length).getD 0

/-- The number without its sign: the digits, moved by the exponent and the decimal point. -/
def magnitude : ℚ :=
  (Printed.value 10 p.digits : ℚ) * 10 ^ (p.exponentValue - (p.fraction.getD []).length)

def number : ℚ := (if p.negative then -1 else 1) * p.magnitude

/-- The grammar of a style: affixes in any order, with at most one sign or one pair of
parentheses, and at most one currency symbol; digits, with group separators behind the first
of them and at most one decimal point; and an exponent. -/
structure WellFormed (style : NumberStyles) : Prop where
  leading : ∀ a ∈ p.leading, a.MayLead style
  trailing : ∀ a ∈ p.trailing, a.MayTrail style
  oneSign : (p.leading ++ p.trailing).countP Affix.isSign ≤ 1
  oneCurrency : (p.leading ++ p.trailing).count .currency ≤ 1
  paired : p.leading.count .opening = p.trailing.count .closing
  whole : ∀ c ∈ p.whole, isdigit c = true ∨
    (c = kGroupSeparator ∧ style.has .allowThousands = true)
  wholeHead : p.whole.head? ≠ some kGroupSeparator
  fraction : ∀ f ∈ p.fraction, style.has .allowDecimalPoint = true ∧ ∀ c ∈ f, isdigit c = true
  nonempty : p.digits ≠ []
  exponent : ∀ e ∈ p.exponent, style.has .allowExponent = true ∧ e.WellFormed

end Numeral

def InGrammar (style : NumberStyles) (s : List UInt8) : Prop :=
  ∃ p : Numeral, p.WellFormed style ∧ p.text = s

/-- What a signed parser owes a number: its value, or an overflow where no 64-bit integer is
equal to it. -/
def SignedResult (p : Numeral) : ParseOutcome Int64 → Prop
  | .rejected => False
  | .overflowed => ∀ v : Int64, (v.toInt : ℚ) ≠ p.number
  | .parsed v => (v.toInt : ℚ) = p.number

def UnsignedResult (p : Numeral) : ParseOutcome UInt64 → Prop
  | .rejected => False
  | .overflowed => ∀ v : UInt64, (v.toNat : ℚ) ≠ p.number
  | .parsed v => (v.toNat : ℚ) = p.number

/-- An unsigned parser that does not take a negative zero with a decimal point. -/
def StrictUnsignedResult (p : Numeral) : ParseOutcome UInt64 → Prop
  | .rejected => False
  | .overflowed => (p.negative = true ∧ p.fraction.isSome) ∨ ∀ v : UInt64, (v.toNat : ℚ) ≠ p.number
  | .parsed v => ¬ (p.negative = true ∧ p.fraction.isSome) ∧ (v.toNat : ℚ) = p.number

/-- A parser's run on a string is right: it ends, it accepts the strings of the grammar and no
others, and its result is the one it owes to the number, for an exponent of at most eight
digits. -/
def Parses {α : Type} (run : Run Exception (ParseOutcome α)) (Result : Numeral → ParseOutcome α → Prop)
    (style : NumberStyles) (s : List UInt8) : Prop :=
  ∃ outcome, run = pure outcome ∧ (outcome ≠ .rejected ↔ InGrammar style s) ∧
    ∀ p : Numeral, p.WellFormed style → p.text = s → p.exponentDigits ≤ 8 → Result p outcome

end SharpRuntime.Interface
