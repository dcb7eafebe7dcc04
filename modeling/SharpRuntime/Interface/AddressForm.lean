import SharpRuntime.Model.IPAddress

/-!
# The text of addresses

An IPv4 address is written in one to four parts between dots, each of them decimal, octal or
hexadecimal, and the last one fills the octets that are left (`Dotted`).  An IPv6 address is written
in eight groups, where `::` stands for the first of the longest runs of zeros, if there is one of
two groups or more (`IPv6Text`).
-/

set_option autoImplicit false

namespace SharpRuntime.Interface.AddressForm

open Machine Model

def digit? (c : UInt8) : Option ℕ :=
  if '0'.toUInt8 ≤ c ∧ c ≤ '9'.toUInt8 then some (c.toNat - 48)
  else if 'a'.toUInt8 ≤ c ∧ c ≤ 'f'.toUInt8 then some (c.toNat - 87)
  else if 'A'.toUInt8 ≤ c ∧ c ≤ 'F'.toUInt8 then some (c.toNat - 55)
  else none

/-- The characters are these digits. -/
structure Digits (base : ℕ) (cs : List UInt8) (ds : List ℕ) : Prop where
  digits : cs.map digit? = ds.map some
  lt : ∀ d ∈ ds, d < base

/-- A part and its value. -/
inductive PartText : List UInt8 → ℕ → Prop where
  | decimal {cs : List UInt8} {ds : List ℕ} (hcs : Digits 10 cs ds) (hne : cs ≠ [])
      (hzero : cs.head? ≠ some '0'.toUInt8) : PartText cs (Printed.value 10 ds)
  | octal {cs : List UInt8} {ds : List ℕ} (hcs : Digits 8 cs ds) :
      PartText ('0'.toUInt8 :: cs) (Printed.value 8 ds)
  | hex {x : UInt8} {cs : List UInt8} {ds : List ℕ} (hcs : Digits 16 cs ds) (hne : cs ≠ [])
      (hx : x = 'x'.toUInt8 ∨ x = 'X'.toUInt8) :
      PartText ('0'.toUInt8 :: x :: cs) (Printed.value 16 ds)

/-- A text with the parts before its dots, and the last one. -/
inductive DottedText : List UInt8 → (parts : List ℕ) → (last : ℕ) → Prop where
  | last {part : List UInt8} {v : ℕ} (hpart : PartText part v) : DottedText part [] v
  | cons {part s : List UInt8} {v last : ℕ} {parts : List ℕ} (hpart : PartText part v)
      (hrest : DottedText s parts last) : DottedText (part ++ '.'.toUInt8 :: s) (v :: parts) last

/-- The parts before the dots are an octet each, and the last one fills what is left. -/
def Dotted (s : List UInt8) (address : ℕ) : Prop :=
  ∃ parts last, DottedText s parts last ∧ parts.length ≤ 3 ∧ (∀ p ∈ parts, p < 256) ∧
    last < 256 ^ (4 - parts.length) ∧
    address = Printed.value 256 parts * 256 ^ (4 - parts.length) + last

def joined (groups : List UInt16) : List UInt8 :=
  List.intercalate [':'.toUInt8] (groups.map fun g => IPAddress.lowerHex g.toNat)

def isZero (g : UInt16) : Bool := g == 0

/-- The text of an IPv6 address without its scope.  The last two groups of an address that maps an IPv4
address are written as its four octets. -/
inductive IPv6Text : (groups : List UInt16) → List UInt8 → Prop where
  | plain {groups : List UInt16} (h : ∀ start len, IsRun isZero groups start len → len < 2) :
      IPv6Text groups (joined groups)
  | compressed {groups : List UInt16} {start len : ℕ} (h : FirstLongest isZero groups start len)
      (htwo : 2 ≤ len) (hmapped : groups.take 6 ≠ [0, 0, 0, 0, 0, 0xFFFF]) :
      IPv6Text groups (joined (groups.take start) ++ ':'.toUInt8 :: ':'.toUInt8 ::
        joined (groups.drop (start + len)))
  | mapped {g h : UInt16} (hfirst : FirstLongest isZero [0, 0, 0, 0, 0, 0xFFFF, g, h] 0 5) :
      IPv6Text [0, 0, 0, 0, 0, 0xFFFF, g, h] ([':', ':', 'f', 'f', 'f', 'f', ':'].map Char.toUInt8 ++
        IPAddress.dotted (g.toNat / 256) (g.toNat % 256) (h.toNat / 256) (h.toNat % 256))

def scopeText (scopeId : UInt32) : List UInt8 :=
  if scopeId = 0 then [] else '%'.toUInt8 :: IPAddress.decimal scopeId.toNat

end SharpRuntime.Interface.AddressForm
