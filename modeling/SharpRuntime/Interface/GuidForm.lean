import SharpRuntime.Model.Guid

/-!
# Forms of a `Guid`

The five formats, and what a text of the format `X` is: hexadecimal components between commas and
braces, each with `0x` in front, with leading zeros, and with at most eight digits behind them.
-/

set_option autoImplicit false

namespace SharpRuntime.Interface

open Machine Model

/-- The formats. -/
inductive GuidFormat where
  | n
  | d
  | b
  | p
  | x
deriving DecidableEq

namespace GuidFormat

def letter : GuidFormat → (upper : Bool) → UInt8
  | n, upper => if upper then 'N'.toUInt8 else 'n'.toUInt8
  | d, upper => if upper then 'D'.toUInt8 else 'd'.toUInt8
  | b, upper => if upper then 'B'.toUInt8 else 'b'.toUInt8
  | p, upper => if upper then 'P'.toUInt8 else 'p'.toUInt8
  | x, upper => if upper then 'X'.toUInt8 else 'x'.toUInt8

def parser : GuidFormat → (s : List UInt8) → Except Guid.GuidParseFailure (Vector UInt8 16)
  | n => Guid.tryParseExactN
  | d => Guid.tryParseExactD
  | b => Guid.tryParseExactB
  | p => Guid.tryParseExactP
  | x => Guid.tryParseExactX

end GuidFormat

/-- The value of a hexadecimal digit of either case. -/
def hexDigit (c : UInt8) : Option ℕ :=
  ("0123456789abcdef".toUTF8.data.toList.idxOf? c).or
    ("0123456789ABCDEF".toUTF8.data.toList.idxOf? c)

theorem hexDigit_eq : hexDigit = Guid.hexVal := by
  have hall : ∀ c, hexDigit c = Guid.hexVal c := by decide +kernel
  exact funext hall

/-- A component of the format `X`. -/
structure GuidComponent where
  mark : UInt8
  digits : List UInt8
  mark_eq : mark = 'x'.toUInt8 ∨ mark = 'X'.toUInt8
  ne_nil : digits ≠ []
  hex : ∀ c ∈ digits, (hexDigit c).isSome = true
  significant : (digits.dropWhile (· == '0'.toUInt8)).length ≤ 8

namespace GuidComponent

def text (c : GuidComponent) : List UInt8 := '0'.toUInt8 :: c.mark :: c.digits

def value (c : GuidComponent) : ℕ :=
  Printed.value 16 (c.digits.map fun d => (hexDigit d).getD 0)

theorem isSome_hexVal (c : GuidComponent) : ∀ d ∈ c.digits, (Guid.hexVal d).isSome = true :=
  hexDigit_eq ▸ c.hex

end GuidComponent

def componentsText : List GuidComponent → List UInt8
  | [] => []
  | [c] => c.text ++ ['}'.toUInt8]
  | c :: cs => c.text ++ ','.toUInt8 :: componentsText cs

/-- The components of a text of the format `X`. -/
structure GuidComponents where
  a : GuidComponent
  b : GuidComponent
  c : GuidComponent
  ds : List GuidComponent
  length_ds : ds.length = 8

namespace GuidComponents

def text (cs : GuidComponents) : List UInt8 :=
  '{'.toUInt8 :: (cs.a.text ++ ','.toUInt8 :: (cs.b.text ++ ','.toUInt8 :: (cs.c.text ++
    ','.toUInt8 :: '{'.toUInt8 :: (componentsText cs.ds ++ ['}'.toUInt8]))))

/-- The components of a `Guid`: the second and the third one are cut to sixteen bits, and the last
eight are bytes. -/
structure Denotes (cs : GuidComponents) (g : Guid) : Prop where
  first : g.getAProperty = cs.a.value
  second : g.getBProperty = cs.b.value % 2 ^ 16
  third : g.getCProperty = cs.c.value % 2 ^ 16
  last : (g.bytes_.toList.drop 8).map UInt8.toNat = cs.ds.map GuidComponent.value

end GuidComponents

/-- A text, without its white space, is one of the format `X` and stands for a `Guid`. -/
def XForm (s : List UInt8) (g : Guid) : Prop :=
  ∃ cs : GuidComponents, s.filter (· ∉ Printed.blanks.map Char.toUInt8) = cs.text ∧ cs.Denotes g

end SharpRuntime.Interface
