import SharpRuntime.Model.Exception

/-!
# `Half`

The conversions between `float` and `Half` of `modules/core/include/System/Half.hpp`, under the
source's names.

A `float` is the word that `std::memcpy` makes of it, and a `Half` is its bits.  The words are
unfolded to natural numbers: no operation on them leaves the range of its type.
-/

set_option autoImplicit false

namespace SharpRuntime.Model.Half

open Machine

/-- The significand without its dropped bits, to nearest and at half a unit to the even one.
SOURCE: Half.hpp:126-132 -/
def dropLow (significand dropBits : ℕ) : ℕ :=
  let dropMask := 1 <<< dropBits - 1
  let lowPart := significand &&& dropMask
  let halfway := 1 <<< (dropBits - 1)
  let rounded := significand >>> dropBits
  if lowPart > halfway ∨ (lowPart = halfway ∧ rounded &&& 1 ≠ 0) then rounded + 1 else rounded

/-- The exponent field and the mantissa field after a carry of the rounding.
SOURCE: Half.hpp:134-141 -/
def fields (finalExpField rounded : ℕ) : ℕ × ℕ :=
  if finalExpField = 0 then
    if rounded = 0x400 then (1, 0) else (0, rounded)
  else if rounded = 0x800 then (finalExpField + 1, 0x400 &&& 0x3FF)
  else (finalExpField, rounded &&& 0x3FF)

/-- SOURCE: Half.hpp:83-148 -/
def fromSingle (value : UInt32) : UInt16 :=
  let f := value.toNat
  let sign16 := (f >>> 16) &&& 0x8000
  let absF := f &&& 0x7FFFFFFF
  if absF > 0x7F800000 then UInt16.ofNat (sign16 ||| 0x7E00)
  else if absF ≥ 0x7F800000 then UInt16.ofNat (sign16 ||| 0x7C00)
  else if absF = 0 then UInt16.ofNat sign16
  else if absF < 0x00800000 then UInt16.ofNat sign16
  else
    let exp : ℤ := ((absF >>> 23 &&& 0xFF : ℕ) : ℤ) - 127
    let significand := absF &&& 0x7FFFFF ||| 0x800000
    let targetExp := exp + 15
    if targetExp ≥ 31 then UInt16.ofNat (sign16 ||| 0x7C00)
    else
      let dropBits : ℤ := if targetExp ≤ 0 then 13 + (1 - targetExp) else 13
      let finalExpField : ℤ := if targetExp ≤ 0 then 0 else targetExp
      if dropBits ≥ 25 then UInt16.ofNat sign16
      else
        let rounded := dropLow significand dropBits.toNat
        let (finalExpField, mantissaField) := fields finalExpField.toNat rounded
        if finalExpField ≥ 31 then UInt16.ofNat (sign16 ||| 0x7C00)
        else UInt16.ofNat (sign16 ||| finalExpField <<< 10 ||| mantissaField)

/-- `while ((m & 0x400u) == 0u) { m <<= 1; ++shift; }`.
SOURCE: Half.hpp:163-165 -/
def renormalize (mant : ℕ) : Run Exception (ℕ × ℕ) :=
  Run.whileLoop (fun s => s.1 &&& 0x400 == 0) (fun s => pure (s.1 <<< 1, s.2 + 1)) 10 (mant, 0)

/-- SOURCE: Half.hpp:151-176 -/
def toSingle (bits : UInt16) : Run Exception UInt32 :=
  let sign := (bits.toNat <<< 16) &&& 0x80000000
  let exp := (bits.toNat >>> 10) &&& 0x1F
  let mant := bits.toNat &&& 0x3FF
  if exp = 0x1F then pure (UInt32.ofNat (sign ||| 0x7F800000 ||| mant <<< 13))
  else if exp = 0 then
    if mant = 0 then pure (UInt32.ofNat sign)
    else do
      let (m, shift) ← renormalize mant
      let m := m &&& 0x3FF
      let unbiasedExp : ℤ := -14 - shift
      pure (UInt32.ofNat (sign ||| (unbiasedExp + 127).toNat <<< 23 ||| m <<< 13))
  else pure (UInt32.ofNat (sign ||| (exp + 112) <<< 23 ||| mant <<< 13))

end SharpRuntime.Model.Half
