import SharpRuntime.Machine.TwosComplement
import SharpRuntime.Model.BigInteger

/-!
# What a `BigInteger` denotes

`value` reads a sign-magnitude representation as an integer.  The class invariant is
`Canonical`: the limbs form a canonical numeral and zero carries no sign.  On canonical
representations the value determines the representation (`Canonical.ext`), which is what
lets the source compare values by comparing fields.
-/

set_option autoImplicit false

namespace SharpRuntime.Model.BigInteger

open Machine

def magnitude (mag : List ℕ) : ℕ := Nat.ofDigits base mag

def value (x : BigInteger) : ℤ :=
  if x.negative then -(magnitude x.mag : ℤ) else magnitude x.mag

/-- The invariant every constructor and operator establishes. -/
structure Canonical (x : BigInteger) : Prop where
  numeral : IsNumeral base x.mag
  zero_not_negative : x.mag = [0] → x.negative = false

/-- An `int` counts the limbs. -/
def Counted (x : BigInteger) : Prop := x.mag.length ≤ intcsMax

instance (x : BigInteger) : Decidable x.Counted := inferInstanceAs (Decidable (_ ≤ _))

theorem canonical_iff {x : BigInteger} :
    x.Canonical ↔ IsNumeral base x.mag ∧ (x.mag = [0] → x.negative = false) :=
  ⟨fun h => ⟨h.1, h.2⟩, fun h => ⟨h.1, h.2⟩⟩

instance (x : BigInteger) : Decidable x.Canonical :=
  decidable_of_iff _ canonical_iff.symm

/-- A string that denotes an integer: white space around an optional sign and digits. -/
def IntegerText (s : List Char) (negative : Bool) (digits : List Char) : Prop :=
  ∃ lead sign trail, s = lead ++ (sign ++ digits ++ trail) ∧
    (∀ c ∈ lead, c ∈ Printed.blanks) ∧ (∀ c ∈ trail, c ∈ Printed.blanks) ∧
    ((negative = false ∧ (sign = [] ∨ sign = ['+'])) ∨ (negative = true ∧ sign = ['-'])) ∧
    digits ≠ [] ∧ ∀ c ∈ digits, Printed.isDigit c = true

def textValue (negative : Bool) (digits : List Char) : ℤ :=
  if negative then -(stoul digits : ℤ) else stoul digits

def textLength (x : BigInteger) : ℕ :=
  (if x.negative then 1 else 0) + (Printed.numeral 10 (magnitude x.mag)).length

theorem one_lt_base : 1 < base := by decide

theorem natAbs_value (x : BigInteger) : x.value.natAbs = magnitude x.mag := by
  unfold value
  split <;> simp

@[simp] theorem magnitude_zero : magnitude [0] = 0 := by simp [magnitude]

namespace Canonical

variable {x y : BigInteger}

theorem magnitude_eq_zero_iff (h : x.Canonical) : magnitude x.mag = 0 ↔ x.mag = [0] :=
  h.numeral.value_eq_zero_iff (by decide)

theorem value_eq_zero_iff (h : x.Canonical) : x.value = 0 ↔ x.mag = [0] := by
  rw [← h.magnitude_eq_zero_iff, ← natAbs_value, Int.natAbs_eq_zero]

theorem negative_iff (h : x.Canonical) : x.negative = true ↔ x.value < 0 := by
  constructor
  · intro hneg
    have hpos : 0 < magnitude x.mag := by
      rw [Nat.pos_iff_ne_zero, ne_eq, h.magnitude_eq_zero_iff]
      intro hz
      simp [h.zero_not_negative hz] at hneg
    rw [value, if_pos hneg]
    omega
  · intro hlt
    by_contra hneg
    rw [value, if_neg hneg] at hlt
    omega

theorem ext (hx : x.Canonical) (hy : y.Canonical) (h : x.value = y.value) : x = y := by
  have hneg : x.negative = y.negative := by
    rw [Bool.eq_iff_iff, hx.negative_iff, hy.negative_iff, h]
  have hmag : magnitude x.mag = magnitude y.mag := by
    rw [← natAbs_value, ← natAbs_value, h]
  obtain ⟨xn, xm⟩ := x
  have := hx.numeral.eq_of_value_eq one_lt_base hy.numeral hmag
  simp_all

end Canonical

end SharpRuntime.Model.BigInteger
