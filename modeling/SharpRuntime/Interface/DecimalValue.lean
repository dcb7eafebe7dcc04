import SharpRuntime.Machine.HalfUp
import SharpRuntime.Machine.Rounding
import SharpRuntime.Model.Decimal

/-!
# What a `Decimal` denotes

A `Decimal` stands for the rational `(-1)^negative * mantissa / 10^scale` (Decimal.hpp:32-34).
The class invariant `Valid` bounds the mantissa by 96 bits and the scale by 28.
`Representable` rationals are those some valid `Decimal` stands for.
-/

set_option autoImplicit false

namespace SharpRuntime.Model.Decimal

open Machine

def value (x : Decimal) : ℚ :=
  if x.negative then -(x.mantissa / 10 ^ x.scale) else x.mantissa / 10 ^ x.scale

def withSign (negative : Bool) (q : ℚ) : ℚ := if negative then -q else q

theorem value_eq_withSign (x : Decimal) :
    x.value = withSign x.negative (x.mantissa / 10 ^ x.scale) := rfl

variable (n : Bool) (p q : ℚ)

theorem abs_withSign {q : ℚ} (hq : 0 ≤ q) : |withSign n q| = q := by grind [withSign]

theorem withSign_sub : withSign n p - withSign n q = withSign n (p - q) := by
  grind [withSign]

theorem abs_withSign_sub : |withSign n p - withSign n q| = |p - q| := by
  rw [withSign_sub, withSign]
  cases n with
  | false => rfl
  | true => exact abs_neg _

theorem withSign_div (n' : Bool) (p q : ℚ) :
    withSign n p / withSign n' q = withSign (n != n') (p / q) := by
  unfold withSign
  cases n <;> cases n' <;> simp [neg_div, div_neg]

theorem withSign_mul (n' : Bool) (p q : ℚ) :
    withSign n p * withSign n' q = withSign (n != n') (p * q) := by
  unfold withSign
  cases n <;> cases n' <;> simp

theorem withSign_add_not :
    withSign n p + withSign (!n) q = withSign n (p - q) := by grind [withSign]

/-- The class invariant. -/
structure Valid (x : Decimal) : Prop where
  mantissa_le : x.mantissa ≤ maxMantissa
  scale_le : x.scale ≤ 28

theorem maxMantissa_lt : maxMantissa < 2 ^ 96 := by decide

variable {x : Decimal}

theorem Valid.mantissa_lt (h : x.Valid) : x.mantissa < 2 ^ 96 :=
  h.mantissa_le.trans_lt maxMantissa_lt

theorem valid_iff : x.Valid ↔ x.mantissa ≤ maxMantissa ∧ x.scale ≤ 28 :=
  ⟨fun h => ⟨h.1, h.2⟩, fun h => ⟨h.1, h.2⟩⟩

instance (x : Decimal) : Decidable x.Valid := decidable_of_iff _ valid_iff.symm

/-- A rational that a 96-bit mantissa and a scale up to 28 express exactly. -/
def Representable (q : ℚ) : Prop :=
  ∃ (m : ℤ) (s : ℕ), |m| ≤ maxMantissa ∧ s ≤ 28 ∧ q = m / 10 ^ s

def nearest (q : ℚ) : ℤ := ⌊q + 1 / 2⌋

def ThrewOverflow {α : Type} (r : Run Exception α) : Prop :=
  ∃ message, r.outcome = .threw (.overflow message)

def Rounds : MidpointRounding → ℚ → ℤ → Prop
  | .toEven, q, n => NearestEven q n
  | .awayFromZero, q, n => NearestAway q n
  | .toZero, q, n => n = integerPart q
  | .toNegativeInfinity, q, n => n = ⌊q⌋
  | .toPositiveInfinity, q, n => n = ⌈q⌉

theorem abs_value (x : Decimal) : |x.value| = x.mantissa / 10 ^ x.scale := by
  rw [value_eq_withSign, abs_withSign _ (by positivity)]

theorem value_eq_zero_iff (x : Decimal) : x.value = 0 ↔ x.mantissa = 0 := by
  rw [← abs_eq_zero, abs_value, div_eq_zero_iff]
  simp

theorem value_eq_of_sign {m s : ℕ} (h : (x.mantissa : ℚ) / 10 ^ x.scale = m / 10 ^ s) :
    x.value = (⟨m, s, x.negative⟩ : Decimal).value := by
  unfold value
  rw [h]

theorem div_pow_scale_up (m : ℚ) (s k : ℕ) : m / 10 ^ s = m * 10 ^ k / 10 ^ (s + k) := by
  rw [pow_add]
  field_simp

theorem Valid.representable (h : x.Valid) : Representable x.value := by
  unfold value
  split
  · refine ⟨-(x.mantissa : ℤ), x.scale, ?_, h.scale_le, by push_cast; ring⟩
    rw [abs_neg, abs_of_nonneg (by omega)]
    exact_mod_cast h.mantissa_le
  · refine ⟨x.mantissa, x.scale, ?_, h.scale_le, by push_cast; ring⟩
    exact_mod_cast h.mantissa_le

theorem abs_sub_value (m s m' s' : ℕ) (n : Bool) :
    |(⟨m, s, n⟩ : Decimal).value - (⟨m', s', n⟩ : Decimal).value| =
      |(m : ℚ) / 10 ^ s - m' / 10 ^ s'| :=
  abs_withSign_sub n _ _

theorem abs_sub_div_le_iff (h n s t : ℕ) :
    |(h : ℚ) / 10 ^ s - n / 10 ^ (s + t)| ≤ 1 / 2 / 10 ^ s ↔
      2 * |((h * 10 ^ t : ℕ) : ℤ) - n| ≤ ((10 ^ t : ℕ) : ℤ) := by
  have hs : (0 : ℚ) < 10 ^ s := by positivity
  have ht : (0 : ℚ) < 10 ^ t := by positivity
  have hdiff : (h : ℚ) / 10 ^ s - n / 10 ^ (s + t) =
      ((h : ℚ) * 10 ^ t - n) / (10 ^ s * 10 ^ t) := by
    rw [div_pow_scale_up (h : ℚ) s t, pow_add, sub_div]
  have hcast : ((|((h * 10 ^ t : ℕ) : ℤ) - n| : ℤ) : ℚ) = |(h : ℚ) * 10 ^ t - n| := by
    push_cast
    rfl
  rw [hdiff, abs_div, abs_of_pos (mul_pos hs ht), div_le_iff₀ (mul_pos hs ht),
    ← Int.cast_le (R := ℚ)]
  rw [Int.cast_mul, hcast]
  push_cast
  have hunit : (1 : ℚ) / 2 / 10 ^ s * (10 ^ s * 10 ^ t) = 10 ^ t / 2 := by
    field_simp
  rw [hunit]
  constructor
  · intro hle
    linarith
  · intro hle
    linarith

theorem lt_nearest_div_iff (M n : ℕ) {d : ℕ} (hd : 0 < d) :
    (M : ℤ) < nearest ((n : ℚ) / d) ↔ (2 * M + 1) * d ≤ 2 * n := by
  have hd' : (0 : ℚ) < d := by exact_mod_cast hd
  rw [nearest, Int.lt_iff_add_one_le, Int.le_floor, div_add_div _ _ hd'.ne' two_ne_zero,
    le_div_iff₀ (by positivity), ← Nat.cast_le (α := ℚ)]
  push_cast
  constructor
  · intro h
    linarith
  · intro h
    linarith

theorem lt_round_div_iff (M n s : ℕ) :
    (M : ℤ) < nearest ((n : ℚ) / 10 ^ s) ↔ (2 * M + 1) * 10 ^ s ≤ 2 * n := by
  have h := lt_nearest_div_iff M n (show 0 < 10 ^ s by positivity)
  push_cast at h
  exact h

theorem representable_value_iff (m s : ℕ) (n : Bool) :
    Representable (⟨m, s, n⟩ : Decimal).value ↔
      ∃ m' s', m' ≤ maxMantissa ∧ s' ≤ 28 ∧ m * 10 ^ s' = m' * 10 ^ s := by
  constructor
  · rintro ⟨z, s', hz, hs', heq⟩
    rw [Int.abs_eq_natAbs] at hz
    refine ⟨z.natAbs, s', by exact_mod_cast hz, hs', ?_⟩
    have habs : (m : ℚ) / 10 ^ s = (z.natAbs : ℚ) / 10 ^ s' := by
      have h := abs_value ⟨m, s, n⟩
      rw [← h, heq, abs_div, abs_of_pos (show (0 : ℚ) < 10 ^ s' by positivity), ← Int.cast_abs,
        Int.abs_eq_natAbs, Int.cast_natCast]
    rw [div_eq_div_iff (by positivity) (by positivity)] at habs
    exact_mod_cast habs
  · rintro ⟨m', s', hm', hs', heq⟩
    have habs : (m : ℚ) / 10 ^ s = m' / 10 ^ s' := by
      rw [div_eq_div_iff (by positivity) (by positivity)]
      exact_mod_cast heq
    have hval : (⟨m, s, n⟩ : Decimal).value = (⟨m', s', n⟩ : Decimal).value := by
      unfold value
      rw [habs]
    rw [hval]
    exact Valid.representable ⟨hm', hs'⟩

end SharpRuntime.Model.Decimal
