import SharpRuntime.Analysis.DecimalShortening

/-!
# Multiplication of `Decimal`s

`operator*` forms the 192-bit product of two mantissas and drops decimal digits, rounding at each,
until the product fits 96 bits and its scale 28 (Decimal.cpp:451-463).  The limb arithmetic is exact
(`mul96x96_eq`, `div192by10_eq`), so the operator is `shorten` on the product of the mantissas
(`mul_eq`), which is not always rounding once (`roundsOnce_iff`).
-/

set_option autoImplicit false

namespace SharpRuntime.Analysis.DecimalMultiplication

open Machine Model Model.Decimal
open DecimalShortening

def limbsOf (n : ℕ) : UInt192 := ⟨n % 2 ^ 64, n / 2 ^ 64 % 2 ^ 64, n / 2 ^ 128⟩

theorem shifted_or {h l : ℕ} (hl : l < 2 ^ 64) : h * 2 ^ 64 ||| l = h * 2 ^ 64 + l := by
  rw [← Nat.shiftLeft_eq, ← Nat.shiftLeft_add_eq_or_of_lt hl]

theorem limbsOf_eq {lo mid hi : ℕ} (hlo : lo < 2 ^ 64) (hmid : mid < 2 ^ 64) :
    limbsOf (hi * 2 ^ 128 + mid * 2 ^ 64 + lo) = ⟨lo, mid, hi⟩ := by
  unfold limbsOf
  rw [UInt192.mk.injEq]
  omega

/-- The limbs of the product; no partial sum wraps. -/
theorem mul96x96_eq {a b : ℕ} (ha : a < 2 ^ 96) (hb : b < 2 ^ 96) :
    mul96x96 a b = pure (limbsOf (a * b)) := by
  have ha0 : wrap 64 (a : ℤ) = a % 2 ^ 64 := wrap_natCast 64 a
  have hb0 : wrap 64 (b : ℤ) = b % 2 ^ 64 := wrap_natCast 64 b
  have ha1 : wrap 64 ((a >>> 64 : ℕ) : ℤ) = a / 2 ^ 64 := by
    rw [Nat.shiftRight_eq_div_pow, wrap_of_lt (by omega)]
  have hb1 : wrap 64 ((b >>> 64 : ℕ) : ℤ) = b / 2 ^ 64 := by
    rw [Nat.shiftRight_eq_div_pow, wrap_of_lt (by omega)]
  have hprod : a * b = a % 2 ^ 64 * (b % 2 ^ 64) +
      2 ^ 64 * (a % 2 ^ 64 * (b / 2 ^ 64) + a / 2 ^ 64 * (b % 2 ^ 64)) +
      2 ^ 128 * (a / 2 ^ 64 * (b / 2 ^ 64)) := by
    conv_lhs => rw [← Nat.mod_add_div a (2 ^ 64), ← Nat.mod_add_div b (2 ^ 64)]
    ring
  have h00 : a % 2 ^ 64 * (b % 2 ^ 64) ≤ (2 ^ 64 - 1) * (2 ^ 64 - 1) :=
    Nat.mul_le_mul (by omega) (by omega)
  have h01 : a % 2 ^ 64 * (b / 2 ^ 64) ≤ (2 ^ 64 - 1) * (2 ^ 32 - 1) :=
    Nat.mul_le_mul (by omega) (by omega)
  have h10 : a / 2 ^ 64 * (b % 2 ^ 64) ≤ (2 ^ 32 - 1) * (2 ^ 64 - 1) :=
    Nat.mul_le_mul (by omega) (by omega)
  have h11 : a / 2 ^ 64 * (b / 2 ^ 64) ≤ (2 ^ 32 - 1) * (2 ^ 32 - 1) :=
    Nat.mul_le_mul (by omega) (by omega)
  unfold mul96x96
  dsimp only
  rw [ha0, ha1, hb0, hb1, Run.word_mul (by omega), pure_bind, Run.word_mul (by omega), pure_bind,
    Run.word_mul (by omega), pure_bind, Run.word_mul (by omega), pure_bind]
  generalize a % 2 ^ 64 * (b % 2 ^ 64) = p00 at *
  generalize a % 2 ^ 64 * (b / 2 ^ 64) = p01 at *
  generalize a / 2 ^ 64 * (b % 2 ^ 64) = p10 at *
  generalize a / 2 ^ 64 * (b / 2 ^ 64) = p11 at *
  rw [Nat.shiftRight_eq_div_pow, Run.word_add (by omega), pure_bind, Run.word_add (by omega),
    pure_bind, Nat.shiftRight_eq_div_pow, Run.word_add (by omega), pure_bind, hprod, limbsOf]
  have hlo : wrap 64 (p00 : ℤ) = (p00 + 2 ^ 64 * (p01 + p10) + 2 ^ 128 * p11) % 2 ^ 64 := by
    rw [wrap_natCast]
    omega
  have hmid : wrap 64 ((p00 / 2 ^ 64 + p01 + p10 : ℕ) : ℤ) =
      (p00 + 2 ^ 64 * (p01 + p10) + 2 ^ 128 * p11) / 2 ^ 64 % 2 ^ 64 := by
    rw [wrap_natCast]
    omega
  have hhi : wrap 64 (((p00 / 2 ^ 64 + p01 + p10) / 2 ^ 64 + p11 : ℕ) : ℤ) =
      (p00 + 2 ^ 64 * (p01 + p10) + 2 ^ 128 * p11) / 2 ^ 128 := by
    rw [wrap_of_lt (by omega)]
    omega
  rw [hlo, hmid, hhi]

theorem exists_div_ten (n : ℕ) : ∃ q r, n / 10 = q ∧ n % 10 = r ∧ n = 10 * q + r ∧ r < 10 :=
  ⟨n / 10, n % 10, rfl, rfl, by omega, by omega⟩

theorem div192Limb_eq {r l q r' : ℕ} (hr : r < 10) (hl : l < 2 ^ 64)
    (hq : r * 2 ^ 64 + l = 10 * q + r') (hr' : r' < 10) :
    wrap 64 (((r * 2 ^ 64 + l) / 10 : ℕ) : ℤ) = q ∧ (r * 2 ^ 64 + l) % 10 = r' ∧ q < 2 ^ 64 := by
  have hlt : q < 2 ^ 64 := by omega
  have hdiv : (r * 2 ^ 64 + l) / 10 = q := by omega
  rw [hdiv]
  exact ⟨wrap_of_lt hlt, by omega, hlt⟩

theorem div192by10_limbs {lo mid hi : ℕ} (hlo : lo < 2 ^ 64) (hmid : mid < 2 ^ 64)
    (hhi : hi < 2 ^ 64) :
    div192by10 ⟨lo, mid, hi⟩ = pure (limbsOf ((hi * 2 ^ 128 + mid * 2 ^ 64 + lo) / 10),
      (hi * 2 ^ 128 + mid * 2 ^ 64 + lo) % 10) := by
  obtain ⟨q1, r1, hq1, hr1, h1, hlt1⟩ := exists_div_ten hi
  have hb1 : q1 < 2 ^ 64 := by omega
  obtain ⟨q2, r2, -, -, h2, hlt2⟩ := exists_div_ten (r1 * 2 ^ 64 + mid)
  obtain ⟨q3, r3, -, -, h3, hlt3⟩ := exists_div_ten (r2 * 2 ^ 64 + lo)
  obtain ⟨hw2, hm2, hb2⟩ := div192Limb_eq hlt1 hmid h2 hlt2
  obtain ⟨hw3, hm3, hb3⟩ := div192Limb_eq hlt2 hlo h3 hlt3
  unfold div192by10
  dsimp only
  rw [hq1, hr1, wrap_of_lt hb1,
    Run.word_of_eq (r1 * 2 ^ 64) (by push_cast; rfl) (by omega), pure_bind, shifted_or hmid, hw2,
    hm2, Run.word_of_eq (r2 * 2 ^ 64) (by push_cast; rfl) (by omega), pure_bind, shifted_or hlo,
    hw3, hm3]
  have hsum : hi * 2 ^ 128 + mid * 2 ^ 64 + lo =
      10 * (q1 * 2 ^ 128 + q2 * 2 ^ 64 + q3) + r3 := by
    calc
      hi * 2 ^ 128 + mid * 2 ^ 64 + lo
        = 10 * q1 * 2 ^ 128 + (r1 * 2 ^ 64 + mid) * 2 ^ 64 + lo := by rw [h1]; ring
      _ = 10 * q1 * 2 ^ 128 + 10 * q2 * 2 ^ 64 + (r2 * 2 ^ 64 + lo) := by rw [h2]; ring
      _ = 10 * (q1 * 2 ^ 128 + q2 * 2 ^ 64 + q3) + r3 := by rw [h3]; ring
  rw [hsum, Nat.mul_add_div (by decide), Nat.mul_add_mod, Nat.div_eq_of_lt hlt3,
    Nat.mod_eq_of_lt hlt3, Nat.add_zero, limbsOf_eq hb3 hb2]

variable {n : ℕ}

theorem exists_limbs (hn : n < 2 ^ 192) : ∃ lo mid hi, lo < 2 ^ 64 ∧ mid < 2 ^ 64 ∧ hi < 2 ^ 64 ∧
      n = hi * 2 ^ 128 + mid * 2 ^ 64 + lo ∧ limbsOf n = ⟨lo, mid, hi⟩ :=
  ⟨n % 2 ^ 64, n / 2 ^ 64 % 2 ^ 64, n / 2 ^ 128, by omega, by omega, by omega, by omega, rfl⟩

/-- Division by ten, limb by limb. -/
theorem div192by10_eq (hn : n < 2 ^ 192) :
    div192by10 (limbsOf n) = pure (limbsOf (n / 10), n % 10) := by
  obtain ⟨lo, mid, hi, hlo, hmid, hhi, rfl, hlimbs⟩ := exists_limbs hn
  rw [hlimbs, div192by10_limbs hlo hmid hhi]

theorem increment192_eq (hn : n + 1 < 2 ^ 192) : increment192 (limbsOf n) = limbsOf (n + 1) := by
  obtain ⟨lo, mid, hi, hlo, hmid, hhi, rfl, hlimbs⟩ := exists_limbs (show n < 2 ^ 192 by omega)
  have hwrap : ∀ k : ℕ, wrap 64 ((k : ℤ) + 1) = (k + 1) % 2 ^ 64 := by
    intro k
    rfl
  rw [hlimbs]
  unfold increment192
  dsimp only
  rw [hwrap, hwrap, hwrap]
  by_cases hl : (lo + 1) % 2 ^ 64 = 0
  · rw [if_pos hl, hl]
    by_cases hm : (mid + 1) % 2 ^ 64 = 0
    · rw [if_pos hm, hm, Nat.mod_eq_of_lt (by omega)]
      have heq : hi * 2 ^ 128 + mid * 2 ^ 64 + lo + 1 = (hi + 1) * 2 ^ 128 + 0 * 2 ^ 64 + 0 := by
        omega
      rw [heq, limbsOf_eq (by decide) (by decide)]
    · rw [if_neg hm, Nat.mod_eq_of_lt (by omega)]
      have heq : hi * 2 ^ 128 + mid * 2 ^ 64 + lo + 1 = hi * 2 ^ 128 + (mid + 1) * 2 ^ 64 + 0 := by
        omega
      rw [heq, limbsOf_eq (by decide) (by omega)]
  · rw [if_neg hl, Nat.mod_eq_of_lt (by omega), Nat.add_assoc, limbsOf_eq (by omega) hmid]

theorem fits96_limbsOf (n : ℕ) : fits96 (limbsOf n) = decide (n ≤ maxMantissa) := by
  unfold fits96 limbsOf
  rw [Nat.shiftRight_eq_div_pow, Bool.eq_iff_iff, Bool.and_eq_true, decide_eq_true_eq,
    decide_eq_true_eq, decide_eq_true_eq]
  simp only [maxMantissa]
  omega

theorem to128_limbsOf (hn : n ≤ maxMantissa) : to128 (limbsOf n) = pure n := by
  simp only [maxMantissa] at hn
  unfold to128 limbsOf
  dsimp only
  rw [Run.word_of_eq (n / 2 ^ 64 % 2 ^ 64 * 2 ^ 64) (by push_cast; rfl) (by omega), pure_bind,
    shifted_or (by omega)]
  congr 1
  omega

variable {s : ℕ}

theorem mulStep_limbsOf (hn : n < 2 ^ 192) :
    mulStep (limbsOf n, s + 1) = pure (limbsOf (halfUp 1 n), s) := by
  unfold mulStep
  dsimp only
  rw [if_neg (by omega), div192by10_eq hn, pure_bind, halfUp_one_eq]
  rw [Nat.add_sub_cancel]
  by_cases h5 : 5 ≤ n % 10
  · rw [if_pos h5, if_pos h5, increment192_eq (by omega)]
  · rw [if_neg h5, if_neg h5]

def mulTest (p : UInt192 × ℕ) : Bool := !fits96 p.1 || decide (28 < p.2)

theorem mulTest_eq_false (h : n ≤ maxMantissa ∧ s ≤ 28) : mulTest (limbsOf n, s) = false := by
  grind [mulTest, fits96_limbsOf]

theorem mulTest_eq_true (h : ¬ (n ≤ maxMantissa ∧ s ≤ 28)) : mulTest (limbsOf n, s) = true := by
  simp [mulTest, fits96_limbsOf]
  omega

theorem mulLoop_eq (hn : n < 2 ^ 192) : Run.whileLoop mulTest mulStep (s + 1) (limbsOf n, s) =
      match shorten maxMantissa 28 s n with
      | some (m, s') => pure (limbsOf m, s')
      | none => Run.throwing (.overflow "Decimal overflow.") := by
  induction s generalizing n with
  | zero =>
    by_cases hfit : n ≤ maxMantissa
    · rw [Run.whileLoop_of_not (mulTest_eq_false ⟨hfit, by omega⟩), shorten, if_pos hfit]
    · have hstep : mulStep (limbsOf n, 0) = Run.throwing (.overflow "Decimal overflow.") :=
        if_pos rfl
      rw [shorten, if_neg hfit, Run.whileLoop, if_pos (mulTest_eq_true (fun h => hfit h.1)), hstep,
        Run.throwing_bind]
  | succ s ih =>
    by_cases hfit : n ≤ maxMantissa ∧ s + 1 ≤ 28
    · rw [Run.whileLoop_of_not (mulTest_eq_false hfit), shorten_of_fits hfit.1 hfit.2]
    · have hhalf : halfUp 1 n < 2 ^ 192 := by rw [halfUp_one]; omega
      rw [Run.whileLoop_step (mulTest_eq_true hfit) (mulStep_limbsOf hn), ih hhalf, shorten,
        if_neg hfit]

/-- The exact product, shortened once. -/
theorem mul_eq {x y : Decimal} (hx : x.Valid) (hy : y.Valid) (hx0 : x.mantissa ≠ 0)
    (hy0 : y.mantissa ≠ 0) :
    x.mul y =
      match shorten maxMantissa 28 (x.scale + y.scale) (x.mantissa * y.mantissa) with
      | some (m, s) => pure ⟨m, s, x.negative != y.negative⟩
      | none => Run.throwing (.overflow "Decimal overflow.") := by
  have hprod : x.mantissa * y.mantissa < 2 ^ 192 := by
    calc
      x.mantissa * y.mantissa < 2 ^ 96 * 2 ^ 96 := Nat.mul_lt_mul'' hx.mantissa_lt hy.mantissa_lt
      _ = 2 ^ 192 := by norm_num
  unfold mul
  rw [if_neg (by omega), mul96x96_eq hx.mantissa_lt hy.mantissa_lt, pure_bind]
  change (Run.whileLoop mulTest mulStep _ _ >>= _) = _
  rw [mulLoop_eq hprod]
  cases hsh : shorten maxMantissa 28 (x.scale + y.scale) (x.mantissa * y.mantissa) with
  | none => rfl
  | some p =>
    obtain ⟨hm, hs, -⟩ := shorten_some hsh
    dsimp only
    rw [pure_bind]
    rw [to128_limbsOf hm, pure_bind, wrap_of_lt (by omega)]

theorem value_mul (x y : Decimal) :
    x.value * y.value = (⟨x.mantissa * y.mantissa, x.scale + y.scale,
      x.negative != y.negative⟩ : Decimal).value := by
  simp [value_eq_withSign, withSign_mul, div_mul_div_comm, pow_add, Nat.cast_mul]

/-- The product is the rounded exact product, or an overflow says that the exact one is out
of range; a representable product is exact. -/
def RoundsOnce (x y : Decimal) : Prop :=
  (∃ r, x.mul y = pure r ∧ |r.value - x.value * y.value| ≤ 1 / 2 / 10 ^ r.scale ∧
    (Representable (x.value * y.value) → r.value = x.value * y.value)) ∨
  (ThrewOverflow (x.mul y) ∧ maxMantissa < nearest |x.value * y.value|)

theorem roundsOnce_iff_near {x y : Decimal} (hx : x.Valid) (hy : y.Valid) (hx0 : x.mantissa ≠ 0)
    (hy0 : y.mantissa ≠ 0) :
    RoundsOnce x y ↔ Near (x.mantissa * y.mantissa) (x.scale + y.scale)
      (shorten maxMantissa 28 (x.scale + y.scale) (x.mantissa * y.mantissa)) := by
  unfold RoundsOnce
  rw [mul_eq hx hy hx0 hy0, value_mul]
  generalize x.mantissa * y.mantissa = n
  generalize x.scale + y.scale = s
  generalize (x.negative != y.negative) = neg
  cases hsh : shorten maxMantissa 28 s n with
  | none =>
    rw [abs_value, lt_round_div_iff]
    constructor
    · rintro (⟨r, hr, -⟩ | ⟨-, h⟩)
      · cases congrArg Run.outcome hr
      · exact h
    · intro h
      exact Or.inr ⟨⟨_, rfl⟩, h⟩
  | some p =>
    rw [← near_some_iff neg hsh]
    constructor
    · rintro (⟨r, hr, h, -⟩ | ⟨⟨message, h⟩, -⟩)
      · rw [← Run.pure_inj.mp hr] at h
        exact h
      · cases h
    · intro h
      exact Or.inl ⟨_, rfl, h, shorten_value_exact hsh⟩

/-- **Multiplication.**  The product is rounded once exactly when the digits it drops are not
rounded twice. -/
theorem roundsOnce_iff {x y : Decimal} (hx : x.Valid) (hy : y.Valid) :
    RoundsOnce x y ↔ ¬ Doubly (x.mantissa * y.mantissa) (x.scale + y.scale) := by
  by_cases h0 : x.mantissa = 0 ∨ y.mantissa = 0
  · have hprod : x.mantissa * y.mantissa = 0 := Nat.mul_eq_zero.mpr h0
    have hrun : x.mul y = pure {} := if_pos h0
    have hval : x.value * y.value = ({} : Decimal).value := by
      rw [value_mul, hprod]
      unfold value
      simp
    rw [hprod]
    constructor
    · rintro - ⟨t, -, -, -, hd, -⟩
      exact not_doubleRounds_of_mod_eq_zero (Nat.zero_mod _) hd
    · intro _
      refine Or.inl ⟨{}, hrun, ?_, fun _ => hval.symm⟩
      rw [hval, sub_self, abs_zero]
      positivity
  · rw [not_or] at h0
    rw [roundsOnce_iff_near hx hy h0.1 h0.2, near_shorten_iff]

/-- Three halves of the smallest scale: the product is exact up to its one rounding. -/
theorem roundsOnce_half :
    RoundsOnce ⟨15, 28, true⟩ ⟨5, 1, false⟩ ↔ ¬ Doubly (15 * 5) (28 + 1) :=
  roundsOnce_iff (by decide) (by decide)

/-- `445e-28 * 0.001` is `0.445` of the last unit and is returned as one whole unit. -/
theorem roundsOnce_doubled :
    (⟨445, 28, false⟩ : Decimal).Valid ∧ (⟨1, 3, false⟩ : Decimal).Valid ∧
      ¬ RoundsOnce ⟨445, 28, false⟩ ⟨1, 3, false⟩ := by
  have hrun : (⟨445, 28, false⟩ : Decimal).mul ⟨1, 3, false⟩ = pure ⟨1, 28, false⟩ := by decide
  refine ⟨by decide, by decide, ?_⟩
  unfold RoundsOnce
  rw [hrun]
  rintro (⟨r, hr, h, -⟩ | ⟨⟨message, h⟩, -⟩)
  · rw [← Run.pure_inj.mp hr] at h
    norm_num [value, abs_of_pos] at h
  · cases h

end SharpRuntime.Analysis.DecimalMultiplication
