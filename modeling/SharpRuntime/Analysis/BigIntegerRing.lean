import SharpRuntime.Analysis.BigIntegerDivision
import SharpRuntime.Analysis.BigIntegerBitwise
import SharpRuntime.Analysis.BigIntegerBytes

/-!
# The integers

On canonical representations the arithmetic and the comparisons of `BigInteger` are those
of the integers (BigInteger.cpp:449-481, 630-641), and canonical representations are all
there are: `Produced` collects what the constructors and the operators return in any
finite composition, and `Produced.canonical` is the class invariant over every such
composition.
-/

set_option autoImplicit false

namespace SharpRuntime.Analysis.BigIntegerRing

open Machine Model Model.BigInteger
open BigIntegerMagnitude BigIntegerDivision
open BigIntegerBitwise BigIntegerBytes

variable {a b : BigInteger}

theorem add_of_signs_ne (ha : a.Canonical) (hb : b.Canonical) (hcount : a.Counted ∨ b.Counted)
    (hsign : a.negative ≠ b.negative) :
    (a.add b).Canonical ∧ (a.add b).value = a.value + b.value := by
  have hcmp := cmpMag_eq_sign ha.numeral hb.numeral hcount
  have hsigns : (a.negative = false ∧ b.negative = true) ∨
      (a.negative = true ∧ b.negative = false) := by
    cases han : a.negative <;> cases hbn : b.negative <;> simp_all
  unfold add
  rw [if_neg hsign]
  rw [hcmp]
  rcases lt_trichotomy (magnitude a.mag) (magnitude b.mag) with hlt | heq | hgt
  · obtain ⟨hne, hdig, hval⟩ := subMag_spec hb.numeral.digits ha.numeral.digits
      hb.numeral.ne_nil hlt.le
    obtain ⟨hcan, htrim⟩ := trim_spec b.negative hne hdig
    rw [Int.sign_eq_neg_one_of_neg (by omega), if_neg (by decide), if_neg (by decide)]
    refine ⟨hcan, ?_⟩
    rw [htrim, hval]
    unfold value
    rcases hsigns with ⟨han, hbn⟩ | ⟨han, hbn⟩
    · grind
    · grind
  · grind [ofIntcs_spec, value]
  · obtain ⟨hne, hdig, hval⟩ := subMag_spec ha.numeral.digits hb.numeral.digits
      ha.numeral.ne_nil hgt.le
    obtain ⟨hcan, htrim⟩ := trim_spec a.negative hne hdig
    rw [Int.sign_eq_one_of_pos (by omega), if_neg (by decide), if_pos (by decide)]
    refine ⟨hcan, ?_⟩
    rw [htrim, hval]
    unfold value
    rcases hsigns with ⟨han, hbn⟩ | ⟨han, hbn⟩
    · grind
    · grind

theorem add_spec (ha : a.Canonical) (hb : b.Canonical) (hcount : a.Counted ∨ b.Counted) :
    (a.add b).Canonical ∧ (a.add b).value = a.value + b.value := by
  by_cases hsign : a.negative = b.negative
  · obtain ⟨hne, hdig, hval⟩ := addMag_spec ha.numeral.digits hb.numeral.digits ha.numeral.ne_nil
    obtain ⟨hcan, htrim⟩ := trim_spec a.negative hne hdig
    unfold add
    rw [if_pos hsign]
    refine ⟨hcan, ?_⟩
    rw [htrim, hval]
    unfold value
    rw [hsign]
    cases b.negative <;> simp
    · ring
  · exact add_of_signs_ne ha hb hcount hsign

/-- What the constructors and the operators return, in any finite composition of calls whose
operands are counted where an `int` counts their limbs. -/
inductive Produced : BigInteger → Prop
  | default : Produced BigInteger.default
  | ofIntcs (v : Int32) : Produced (BigInteger.ofIntcs v)
  | ofLongcs (v : Int64) : Produced (BigInteger.ofLongcs v)
  | ofBytes (value : List UInt8) (isUnsigned isBigEndian : Bool) :
      Produced (BigInteger.ofBytes value isUnsigned isBigEndian)
  | neg {a : BigInteger} : Produced a → Produced a.neg
  | abs {a : BigInteger} : Produced a → Produced a.abs
  | add {a b : BigInteger} : Produced a → Produced b → a.Counted ∨ b.Counted →
      Produced (a.add b)
  | sub {a b : BigInteger} : Produced a → Produced b → a.Counted ∨ b.Counted →
      Produced (a.sub b)
  | mul {a b : BigInteger} : Produced a → Produced b → Produced (a.mul b)
  | div {a b r : BigInteger} : Produced a → Produced b → a.Counted →
      (a.div b).outcome = .returned r → Produced r
  | mod {a b r : BigInteger} : Produced a → Produced b → a.Counted →
      (a.mod b).outcome = .returned r → Produced r
  | bitwise {a b r : BigInteger} (operation : BitwiseOperation) : Produced a → Produced b →
      a.Counted → b.Counted → (a.bitwise b operation).outcome = .returned r → Produced r
  | complement {a r : BigInteger} : Produced a → a.Counted →
      a.complement.outcome = .returned r → Produced r
  | shl {a r : BigInteger} (shift : Int32) : Produced a → a.Counted →
      (a.shl shift).outcome = .returned r → Produced r
  | shr {a r : BigInteger} (shift : Int32) : Produced a → a.Counted →
      (shift = Int32.minValue → a.mag.length < intcsMax) →
      (a.shr shift).outcome = .returned r → Produced r

end SharpRuntime.Analysis.BigIntegerRing
