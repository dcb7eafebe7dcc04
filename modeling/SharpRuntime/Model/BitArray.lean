import SharpRuntime.Model.Exception

/-!
# `BitArray` and `BitVector32`

The classes of `modules/collections/include/System/Collections/BitArray.hpp` and
`modules/collections/include/System/Collections/Specialized/BitVector32.hpp`, under the source's
names.

A `std::vector<bool>` is the list of its bits.  A `shortcs` is a word of 16 bits.
-/

set_option autoImplicit false

namespace SharpRuntime.Model

open Machine

/-- The bits, and the number of mutations so far. -/
structure BitArray where
  bits_ : List Bool
  version_ : UInt64
deriving DecidableEq

namespace BitArray

/-- `for (i = …; i >= 0; --i)`, with `i + 1` bits to go.
SOURCE: BitArray.hpp:300-301 -/
def leftShiftLoop (count : ℤ) : (rest : ℕ) → List Bool → List Bool
  | 0, bits => bits
  | i + 1, bits =>
    leftShiftLoop count i
      (bits.set i (if (i : ℤ) ≥ count then bits.getD ((i : ℤ) - count).toNat false else false))

/-- The size is cut to an `intcs`, and so is the index that the loop begins with.
SOURCE: BitArray.hpp:297-304 -/
def leftShift (x : BitArray) (count : ℤ) : Run Exception BitArray :=
  if count < 0 then
    Run.throwing (.argumentOutOfRange "count" "Non-negative number required.")
  else do
    let len := toIntcs x.bits_.length
    let last ← Run.signed 32 (len - 1)
    pure ⟨leftShiftLoop count (last + 1).toNat x.bits_, x.version_ + 1⟩

/-- `for (; i < len; ++i)`, with `rest` bits to go; a sum that overflows is a negative index into
the vector, from which the model reads `false`.
SOURCE: BitArray.hpp:316-317 -/
def rightShiftLoop (count len : ℤ) : (rest i : ℕ) → List Bool → Run Exception (List Bool)
  | 0, _, bits => pure bits
  | rest + 1, i, bits => do
    let j ← Run.signed 32 ((i : ℤ) + count)
    let bit := if j < len then decide (0 ≤ j) && bits.getD j.toNat false else false
    rightShiftLoop count len rest (i + 1) (bits.set i bit)

/-- SOURCE: BitArray.hpp:313-320 -/
def rightShift (x : BitArray) (count : ℤ) : Run Exception BitArray :=
  if count < 0 then
    Run.throwing (.argumentOutOfRange "count" "Non-negative number required.")
  else do
    let len := toIntcs x.bits_.length
    let bits ← rightShiftLoop count len len.toNat 0 x.bits_
    pure ⟨bits, x.version_ + 1⟩

end BitArray

end SharpRuntime.Model

namespace SharpRuntime.Model.BitVector32

open Machine

/-- `BitVector32::Section`.
SOURCE: BitVector32.hpp:31-46 -/
structure Section where
  mask_ : BitVec 16
  offset_ : BitVec 16
deriving DecidableEq

/-- `operator[](const Section& section)` of a vector with the bits `data_`.
SOURCE: BitVector32.hpp:203-205 -/
def get (data_ : BitVec 32) (s : Section) : BitVec 32 :=
  (data_ >>> s.offset_.toNat) &&& s.mask_.setWidth 32

/-- SOURCE: BitVector32.hpp:214-217 -/
def set (data_ : BitVec 32) (s : Section) (value : BitVec 32) : BitVec 32 :=
  (data_ &&& ~~~(s.mask_.setWidth 32 <<< s.offset_.toNat)) |||
    ((value &&& s.mask_.setWidth 32) <<< s.offset_.toNat)

/-- `std::popcount` of a word of 16 bits. -/
def popcount (v : BitVec 16) : ℕ := (List.range 16).countP v.getLsbD

/-- `while (v > 0) { mask = (mask << 1) | 1; v >>= 1; }`.
SOURCE: BitVector32.hpp:272-274 -/
def maskLoop (mask v : BitVec 16) : BitVec 16 :=
  if v = 0 then mask else maskLoop (mask <<< 1 ||| 1) (v >>> 1)
termination_by v.toNat
decreasing_by
  rename_i hv
  have hpos : v.toNat ≠ 0 := fun h => hv (BitVec.eq_of_toNat_eq h)
  rw [BitVec.toNat_ushiftRight, Nat.shiftRight_eq_div_pow]
  omega

/-- SOURCE: BitVector32.hpp:263-276 -/
def createSection (maxValue : BitVec 16) (previous : Section) : Run Exception Section :=
  if maxValue.toInt ≤ 0 then Run.throwing (.outOfRange "maxValue")
  else
    let offset := BitVec.ofInt 16 (previous.offset_.toInt + popcount previous.mask_)
    if offset.toInt ≥ 32 then Run.throwing (.invalidOperation "Bit vector is full.")
    else pure ⟨maskLoop 0 maxValue, offset⟩

/-- `CreateSection(m₁)`, `CreateSection(m₂, s₁)` and so on, the first one after `previous`. -/
def createSections (previous : Section) : List (BitVec 16) → Run Exception (List Section)
  | [] => pure []
  | maxValue :: maxValues => do
    let s ← createSection maxValue previous
    let sections ← createSections s maxValues
    pure (s :: sections)

/-- The first section follows the empty one.
SOURCE: BitVector32.hpp:251 -/
def firstSections (maxValues : List (BitVec 16)) : Run Exception (List Section) :=
  createSections ⟨0, 0⟩ maxValues

end SharpRuntime.Model.BitVector32
