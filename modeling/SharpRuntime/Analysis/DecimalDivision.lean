import SharpRuntime.Analysis.DecimalShortening

/-!
# Division of `Decimal`s

`operator/` appends zeros to the dividend while it fits 96 bits and the scale of the quotient is
below 28, and rounds one integer quotient (Decimal.cpp:465-478).  The quotient carries only the
digits the dividend had room for (`div_eq_of_le`), and when the room does not even bring the scale
to zero it is divided where it should be multiplied (`div_eq_of_lt`).
-/

set_option autoImplicit false

namespace SharpRuntime.Analysis.DecimalDivision

open Machine Model Model.Decimal
open DecimalShortening

variable {x y : Decimal}

variable {m : ℕ}

/-- The induction is on the distance of the scale from 28. -/
theorem scaleUp_gap {d : ℕ} {s : ℤ} (hd : s + d = 28) (hm : m ≤ maxMantissa) :
    Run.whileLoop (fun p => decide (p.2 < 28) && decide (p.1 ≤ maxMantissa / 10)) scaleUpStep d
        (m, s) =
      pure (m * 10 ^ headroom maxMantissa d m, s + headroom maxMantissa d m) := by
  induction d generalizing m s with
  | zero =>
    rw [Run.whileLoop_of_not (by simp; omega), headroom, pow_zero, Nat.mul_one, Nat.cast_zero,
      add_zero]
  | succ d ih =>
    by_cases hroom : m * 10 ≤ maxMantissa
    · have hstep : scaleUpStep (m, s) = pure (m * 10, s + 1) := by
        unfold scaleUpStep
        rw [Run.word_of_eq (m * 10) (by push_cast; rfl) (by simp only [maxMantissa] at *; omega),
          pure_bind]
      have hk : headroom maxMantissa (d + 1) m = headroom maxMantissa d (m * 10) + 1 := by
        rw [headroom, if_pos hroom]
      have hlt : s < 28 := by omega
      rw [Run.whileLoop_step (by simp [le_div_ten_iff, hroom, hlt]) hstep,
        ih (by push_cast at hd; omega) hroom, hk, pow_succ', ← Nat.mul_assoc]
      congr 2
      push_cast
      ring
    · rw [Run.whileLoop_of_not (by simp [le_div_ten_iff]; omega), headroom_of_lt (by omega),
        pow_zero, Nat.mul_one, Nat.cast_zero, add_zero]

variable {n : ℕ}

theorem roundedQuotient_eq (hn : n ≤ maxMantissa) (hm : m ≤ maxMantissa)
    (h0 : 0 < m) : roundedQuotient n m = pure (nearestDiv n m) := by
  have hmax := maxMantissa_lt
  have hlt := Nat.mod_lt n h0
  have hle := Nat.div_le_self n m
  unfold roundedQuotient
  rw [Run.word_of_eq (n % m * 2) (by push_cast; rfl) (by omega), pure_bind, nearestDiv_eq n h0,
    Nat.mul_comm]
  split
  · exact Run.word_of_eq (n / m + 1) (by push_cast; rfl) (by omega)
  · rfl

theorem scaleDown_neg (q e : ℕ) : scaleDown q (-(e : ℤ)) = pure (q / 10 ^ e, 0) := by
  unfold scaleDown
  rw [neg_neg, Int.toNat_natCast]
  induction e generalizing q with
  | zero =>
    rw [Run.whileLoop_of_not (by simp), pow_zero, Nat.div_one]
    rfl
  | succ e ih =>
    have hnext : -((e + 1 : ℕ) : ℤ) + 1 = -(e : ℤ) := by
      push_cast
      ring
    rw [Run.whileLoop, if_pos (by rw [decide_eq_true_eq]; dsimp only; omega), pure_bind, hnext, ih,
      Nat.div_div_eq_div_mul, pow_succ']

theorem scaleDown_nonneg (q s : ℕ) : scaleDown q (s : ℤ) = pure (q, (s : ℤ)) :=
  Run.whileLoop_of_not (by simp)

def dividendRoom (x y : Decimal) : ℕ := headroom maxMantissa (28 + y.scale - x.scale) x.mantissa

def dividend (x y : Decimal) : ℕ := x.mantissa * 10 ^ dividendRoom x y

theorem dividend_le (hx : x.Valid) : dividend x y ≤ maxMantissa :=
  (headroom_spec _ _ _).2.1 hx.mantissa_le

theorem div_eq (hx : x.Valid) (hy : y.Valid) (hx0 : x.mantissa ≠ 0) (hy0 : y.mantissa ≠ 0) :
    x.div y = (do
      let (q, scale) ← scaleDown (nearestDiv (dividend x y) y.mantissa)
        ((x.scale : ℤ) - y.scale + dividendRoom x y)
      fitMantissa ⟨q, wrap 8 (min scale 28), x.negative != y.negative⟩) := by
  have hsx := hx.scale_le
  have hup : scaleUp x.mantissa ((x.scale : ℤ) - y.scale) =
      pure (dividend x y, (x.scale : ℤ) - y.scale + dividendRoom x y) := by
    unfold scaleUp
    rw [show (28 - ((x.scale : ℤ) - y.scale)).toNat = 28 + y.scale - x.scale by omega]
    exact scaleUp_gap (by omega) hx.mantissa_le
  unfold div
  rw [if_neg hy0, if_neg hx0, hup, pure_bind]
  dsimp only
  rw [roundedQuotient_eq (dividend_le hx) hy.mantissa_le (by omega), pure_bind]

/-- The quotient at the scale that is reached, rounded once. -/
theorem div_eq_of_le (hx : x.Valid) (hy : y.Valid) (hx0 : x.mantissa ≠ 0) (hy0 : y.mantissa ≠ 0)
    (h : y.scale ≤ x.scale + dividendRoom x y) :
    x.div y = pure ⟨nearestDiv (dividend x y) y.mantissa, x.scale + dividendRoom x y - y.scale,
      x.negative != y.negative⟩ := by
  have hroom : dividendRoom x y ≤ 28 + y.scale - x.scale := (headroom_spec _ _ _).1
  have hsx := hx.scale_le
  rw [div_eq hx hy hx0 hy0, show (x.scale : ℤ) - y.scale + dividendRoom x y =
      ((x.scale + dividendRoom x y - y.scale : ℕ) : ℤ) by omega, scaleDown_nonneg, pure_bind]
  dsimp only
  rw [min_eq_left (by omega), wrap_of_lt (by omega), fitMantissa_of_le
    ((nearestDiv_le _ (by omega)).trans (dividend_le hx)) (by omega)]

/-- A quotient of negative scale is cut to scale zero after it was rounded. -/
theorem div_eq_of_lt (hx : x.Valid) (hy : y.Valid) (hx0 : x.mantissa ≠ 0) (hy0 : y.mantissa ≠ 0)
    (h : x.scale + dividendRoom x y < y.scale) :
    x.div y = pure ⟨nearestDiv (dividend x y) y.mantissa /
        10 ^ (y.scale - (x.scale + dividendRoom x y)), 0, x.negative != y.negative⟩ := by
  rw [div_eq hx hy hx0 hy0, show (x.scale : ℤ) - y.scale + dividendRoom x y =
      -((y.scale - (x.scale + dividendRoom x y) : ℕ) : ℤ) by omega, scaleDown_neg, pure_bind]
  have hle : nearestDiv (dividend x y) y.mantissa / 10 ^ (y.scale - (x.scale + dividendRoom x y)) ≤
      maxMantissa :=
    (Nat.div_le_self _ _).trans ((nearestDiv_le _ (by omega)).trans (dividend_le hx))
  have hwrap : wrap 8 (min 0 28) = 0 := by decide
  dsimp only
  rw [hwrap, fitMantissa_of_le hle (by omega)]

variable {s : ℕ}

theorem div_div_pow (a b : ℚ) {s' k t : ℕ} (hb : b ≠ 0) (h : s' + t = s + k) :
    a / 10 ^ s / (b / 10 ^ s') = a * 10 ^ k / (b * 10 ^ t) := by
  have hpow : (10 : ℚ) ^ s' * 10 ^ t = 10 ^ s * 10 ^ k := by rw [← pow_add, ← pow_add, h]
  rw [div_div_div_eq, div_eq_div_iff (by positivity) (by positivity)]
  calc
    a * 10 ^ s' * (b * 10 ^ t) = a * b * (10 ^ s' * 10 ^ t) := by ring
    _ = a * b * (10 ^ s * 10 ^ k) := by rw [hpow]
    _ = a * 10 ^ k * (10 ^ s * b) := by ring

theorem value_div {k t : ℕ} (hy0 : y.mantissa ≠ 0) (h : y.scale + t = x.scale + k) :
    x.value / y.value =
      withSign (x.negative != y.negative)
        ((x.mantissa * 10 ^ k : ℕ) / (y.mantissa * 10 ^ t : ℕ)) := by
  have hy0' : (y.mantissa : ℚ) ≠ 0 := by exact_mod_cast hy0
  rw [value_eq_withSign, value_eq_withSign, withSign_div, div_div_pow _ _ hy0' h]
  push_cast
  rfl

theorem abs_quotient_sub_le_iff (hm : 0 < m) (s e : ℕ) :
    |(nearestDiv n m : ℚ) / 10 ^ s - (n : ℕ) / (m * 10 ^ s : ℕ)| ≤ 1 / 2 / 10 ^ (s + e) ↔
      2 * 10 ^ e * min (n % m) (m - n % m) ≤ m := by
  have herr : |(nearestDiv n m : ℚ) * m - n| = (min (n % m) (m - n % m) : ℕ) := by
    have h := congrArg (Int.cast (R := ℚ)) (nearestDiv_error n hm)
    push_cast at h
    push_cast
    exact h
  generalize min (n % m) (m - n % m) = r at *
  have hdiff : (nearestDiv n m : ℚ) / 10 ^ s - (n : ℕ) / (m * 10 ^ s : ℕ) =
      ((nearestDiv n m : ℚ) * m - n) / (m * 10 ^ s) := by
    push_cast
    field_simp
  rw [hdiff, abs_div, abs_of_pos (by positivity : (0 : ℚ) < m * 10 ^ s), herr, div_div,
    div_le_div_iff₀ (by positivity) (by positivity), ← Nat.cast_le (α := ℚ)]
  push_cast
  have hs : (0 : ℚ) < 10 ^ s := by positivity
  rw [pow_add, one_mul, show (r : ℚ) * (2 * (10 ^ s * 10 ^ e)) = 2 * 10 ^ e * r * 10 ^ s by ring,
    mul_le_mul_iff_left₀ hs]

/-- The finest scale at which a magnitude, rounded, is still a mantissa. -/
def FinestScale (q : ℚ) (s : ℕ) : Prop :=
  s ≤ 28 ∧ nearest (q * 10 ^ s) ≤ maxMantissa ∧
    ∀ s' ≤ 28, nearest (q * 10 ^ s') ≤ maxMantissa → s' ≤ s

/-- The quotient is rounded at the finest scale possible, or an overflow says that the exact
one is out of range; a representable quotient is exact. -/
def DividesRounded (x y : Decimal) : Prop :=
  (ThrewOverflow (x.div y) ∧ maxMantissa < nearest |x.value / y.value|) ∨
  ∃ r s, x.div y = pure r ∧ FinestScale |x.value / y.value| s ∧
    |r.value - x.value / y.value| ≤ 1 / 2 / 10 ^ s ∧
    (Representable (x.value / y.value) → r.value = x.value / y.value)

variable {q : ℚ}

theorem exists_finestScale {s₀ : ℕ} (hs₀ : s₀ ≤ 28)
    (h : nearest (q * 10 ^ s₀) ≤ maxMantissa) : ∃ s, s₀ ≤ s ∧ FinestScale q s := by
  refine ⟨Nat.findGreatest (fun s => nearest (q * 10 ^ s) ≤ maxMantissa) 28,
    Nat.le_findGreatest hs₀ h, Nat.findGreatest_le 28,
    Nat.findGreatest_spec (P := fun s => nearest (q * 10 ^ s) ≤ maxMantissa) hs₀ h, ?_⟩
  intro s' hs' h'
  exact Nat.le_findGreatest hs' h'

theorem nearest_natCast (n : ℕ) : nearest (n : ℚ) = n := by
  unfold nearest
  rw [Int.floor_eq_iff]
  push_cast
  constructor <;> linarith

theorem FinestScale.exists_natCast (h : FinestScale |q| s)
    (hrep : Representable q) : ∃ n : ℕ, |q| = n / 10 ^ s := by
  obtain ⟨m, s', hm, hs', heq⟩ := hrep
  have habs : |q| = (m.natAbs : ℚ) / 10 ^ s' := by
    rw [heq, abs_div, abs_of_pos (show (0 : ℚ) < 10 ^ s' by positivity), ← Int.cast_abs,
      Int.abs_eq_natAbs, Int.cast_natCast]
  have hle : s' ≤ s := by
    apply h.2.2 s' hs'
    rw [habs, div_mul_cancel₀ _ (by positivity), nearest_natCast, ← Int.abs_eq_natAbs]
    exact hm
  refine ⟨m.natAbs * 10 ^ (s - s'), ?_⟩
  rw [habs, div_pow_scale_up _ s' (s - s'), Nat.add_sub_cancel' hle]
  push_cast
  rfl

theorem div_pow_eq_of_abs_sub_le
    (h : |(m : ℚ) / 10 ^ s - n / 10 ^ s| ≤ 1 / 2 / 10 ^ s) : m = n := by
  have hs : (0 : ℚ) < 10 ^ s := by positivity
  rw [← sub_div, abs_div, abs_of_pos hs, div_le_div_iff_of_pos_right hs] at h
  have hint : |(m : ℤ) - n| < 1 := by
    have : ((|(m : ℤ) - n| : ℤ) : ℚ) < 1 := by
      push_cast
      linarith
    exact_mod_cast this
  have := abs_lt.mp hint
  omega

theorem FinestScale.value_eq_of_near {e : ℕ} {n : Bool}
    (hfine : FinestScale |q| (s + e)) (hq : withSign n |q| = q)
    (hnear : |(⟨m, s, n⟩ : Decimal).value - q| ≤ 1 / 2 / 10 ^ (s + e))
    (hrep : Representable q) : (⟨m, s, n⟩ : Decimal).value = q := by
  obtain ⟨k, hk⟩ := hfine.exists_natCast hrep
  rw [value_eq_withSign] at hnear ⊢
  rw [← hq, hk, div_pow_scale_up _ s e] at hnear ⊢
  rw [abs_withSign_sub] at hnear
  have heq : m * 10 ^ e = k := by
    apply div_pow_eq_of_abs_sub_le (s := s + e)
    push_cast
    exact hnear
  rw [← heq]
  push_cast
  rfl

/-- The digits the quotient carries are all that fit: at each finer scale that fits, the
remainder is too small to show. -/
def KeepsDigits (x y : Decimal) : Prop :=
  y.scale ≤ x.scale + dividendRoom x y ∧
    ∀ e ≤ 28 + y.scale - (x.scale + dividendRoom x y),
      2 * (dividend x y * 10 ^ e) < (2 * maxMantissa + 1) * y.mantissa →
        2 * 10 ^ e * min (dividend x y % y.mantissa) (y.mantissa - dividend x y % y.mantissa) ≤
          y.mantissa

theorem nearest_scaled_le_iff (hm : 0 < m) (M s e : ℕ) :
    nearest ((n : ℕ) / (m * 10 ^ s : ℕ) * 10 ^ (s + e)) ≤ M ↔
      2 * (n * 10 ^ e) < (2 * M + 1) * m := by
  have hscale : ((n : ℕ) : ℚ) / (m * 10 ^ s : ℕ) * 10 ^ (s + e) = (n * 10 ^ e : ℕ) / m := by
    push_cast
    rw [pow_add]
    field_simp
  rw [hscale, ← not_lt, lt_nearest_div_iff M _ hm, not_le]

theorem dividend_fits (hx : x.Valid) (hy0 : y.mantissa ≠ 0) :
    2 * (dividend x y * 10 ^ 0) < (2 * maxMantissa + 1) * y.mantissa := by
  have hle := dividend_le (y := y) hx
  calc
    2 * (dividend x y * 10 ^ 0) < 2 * maxMantissa + 1 := by omega
    _ ≤ (2 * maxMantissa + 1) * y.mantissa := Nat.le_mul_of_pos_right _ (by omega)

theorem dividesRounded_iff_of_le (hx : x.Valid) (hy : y.Valid) (hx0 : x.mantissa ≠ 0)
    (hy0 : y.mantissa ≠ 0) (h : y.scale ≤ x.scale + dividendRoom x y) :
    DividesRounded x y ↔ KeepsDigits x y := by
  have hm : 0 < y.mantissa := by omega
  have hroom : dividendRoom x y ≤ 28 + y.scale - x.scale := (headroom_spec _ _ _).1
  have hsx := hx.scale_le
  have hquot := value_div (x := x) (k := dividendRoom x y)
    (t := x.scale + dividendRoom x y - y.scale) hy0 (by omega)
  have hrun := div_eq_of_le hx hy hx0 hy0 h
  have hgap : 28 + y.scale - (x.scale + dividendRoom x y) =
      28 - (x.scale + dividendRoom x y - y.scale) := by omega
  have hsmall : x.scale + dividendRoom x y - y.scale ≤ 28 := by omega
  rw [← dividend] at hquot
  generalize x.scale + dividendRoom x y - y.scale = s at *
  have habs : |x.value / y.value| = (dividend x y : ℕ) / (y.mantissa * 10 ^ s : ℕ) := by
    rw [hquot, abs_withSign _ (by positivity)]
  have hdist : ∀ e, |(⟨nearestDiv (dividend x y) y.mantissa, s, x.negative != y.negative⟩ :
      Decimal).value - x.value / y.value| ≤ 1 / 2 / 10 ^ (s + e) ↔
      2 * 10 ^ e * min (dividend x y % y.mantissa) (y.mantissa - dividend x y % y.mantissa) ≤
        y.mantissa := by
    intro e
    rw [value_eq_withSign, hquot, abs_withSign_sub, abs_quotient_sub_le_iff hm]
  constructor
  · rintro (⟨⟨message, hthrew⟩, -⟩ | ⟨r, s', hr, hfine, hnear, -⟩)
    · rw [hrun] at hthrew
      cases hthrew
    · refine ⟨h, ?_⟩
      intro e he hfits
      have hle : s + e ≤ s' := by
        apply hfine.2.2 (s + e) (by omega)
        rw [habs]
        exact (nearest_scaled_le_iff hm _ s e).mpr hfits
      rw [← hdist e, ← show r = _ from (Run.pure_inj.mp (hrun.symm.trans hr)).symm]
      refine hnear.trans ?_
      have hpow : (10 : ℚ) ^ (s + e) ≤ 10 ^ s' := pow_le_pow_right₀ (by norm_num) hle
      exact div_le_div_of_nonneg_left (by norm_num) (by positivity) hpow
  · rintro ⟨-, hkeep⟩
    have hbase : nearest (|x.value / y.value| * 10 ^ s) ≤ maxMantissa := by
      rw [habs]
      exact (nearest_scaled_le_iff hm _ s 0).mpr (dividend_fits hx hy0)
    obtain ⟨s', hss', hfine⟩ := exists_finestScale hsmall hbase
    obtain ⟨e, rfl⟩ := Nat.exists_eq_add_of_le hss'
    have hfits := hfine.2.1
    rw [habs, nearest_scaled_le_iff hm] at hfits
    have hnear := (hdist e).mpr (hkeep e (by have := hfine.1; omega) hfits)
    refine Or.inr ⟨_, s + e, hrun, hfine, hnear, ?_⟩
    exact hfine.value_eq_of_near (by rw [habs, ← hquot]) hnear

theorem far_of_stop (e : ℕ) (hstop : m < n * 10) :
    2 * (nearestDiv n m / 10 ^ (e + 1) * m) + m < 2 * (n * 10 ^ (e + 1)) := by
  have hpow : 10 ≤ 10 ^ (e + 1) := Nat.le_self_pow (by omega) 10
  have hq : nearestDiv n m * (2 * m) ≤ 2 * n + m := Nat.div_mul_le_self _ _
  have hcut : nearestDiv n m / 10 ^ (e + 1) * 10 ≤ nearestDiv n m := by
    calc
      _ ≤ nearestDiv n m / 10 ^ (e + 1) * 10 ^ (e + 1) := Nat.mul_le_mul_left _ hpow
      _ ≤ nearestDiv n m := Nat.div_mul_le_self _ _
  have hup : n * 10 ≤ n * 10 ^ (e + 1) := Nat.mul_le_mul_left n hpow
  have hdown : 20 * (nearestDiv n m / 10 ^ (e + 1) * m) ≤ 2 * n + m := by
    calc
      20 * (nearestDiv n m / 10 ^ (e + 1) * m) =
          nearestDiv n m / 10 ^ (e + 1) * 10 * (2 * m) := by ring
      _ ≤ nearestDiv n m * (2 * m) := Nat.mul_le_mul_right _ hcut
      _ ≤ 2 * n + m := hq
  omega

theorem not_dividesRounded_of_lt (hx : x.Valid) (hy : y.Valid) (hx0 : x.mantissa ≠ 0)
    (hy0 : y.mantissa ≠ 0) (h : x.scale + dividendRoom x y < y.scale) :
    ¬ DividesRounded x y := by
  have hrun := div_eq_of_lt hx hy hx0 hy0 h
  obtain ⟨e, he⟩ : ∃ e, y.scale - (x.scale + dividendRoom x y) = e + 1 :=
    ⟨y.scale - (x.scale + dividendRoom x y) - 1, by omega⟩
  have hquot := value_div (x := x) (k := dividendRoom x y + (e + 1)) (t := 0) hy0 (by omega)
  rw [he] at hrun
  have hstop : maxMantissa < dividend x y * 10 := (headroom_spec _ _ _).2.2 (by
    change dividendRoom x y < _
    omega)
  rw [pow_add, ← Nat.mul_assoc, ← dividend, pow_zero, Nat.mul_one] at hquot
  have hm : 0 < y.mantissa := by omega
  have hmle := hy.mantissa_le
  rintro (⟨⟨message, hthrew⟩, -⟩ | ⟨r, s', hr, -, hnear, -⟩)
  · rw [hrun] at hthrew
    cases hthrew
  · rw [← Run.pure_inj.mp (hrun.symm.trans hr), value_eq_withSign, hquot, abs_withSign_sub,
      pow_zero, div_one] at hnear
    have hhalf : (1 : ℚ) / 2 / 10 ^ s' ≤ 1 / 2 :=
      div_le_self (by norm_num) (one_le_pow₀ (by norm_num))
    have hle := neg_le_of_abs_le (hnear.trans hhalf)
    have hm' : (0 : ℚ) < y.mantissa := by exact_mod_cast hm
    have hfar : 2 * ((nearestDiv (dividend x y) y.mantissa / 10 ^ (e + 1) : ℕ) * y.mantissa : ℚ) +
        y.mantissa < 2 * (dividend x y * 10 ^ (e + 1) : ℕ) := by
      exact_mod_cast far_of_stop e (by omega)
    generalize nearestDiv (dividend x y) y.mantissa / 10 ^ (e + 1) = q at *
    generalize dividend x y * 10 ^ (e + 1) = n at *
    have hquot' : (n : ℚ) / y.mantissa ≤ q + 1 / 2 := by linarith
    rw [div_le_iff₀ hm'] at hquot'
    linarith

/-- **Division.**  The quotient is rounded at the finest scale possible exactly when its
dividend is zero, or has room to bring the quotient to a scale of zero or above and no finer
scale that fits would show the remainder. -/
theorem dividesRounded_iff (hx : x.Valid) (hy : y.Valid) (hy0 : y.mantissa ≠ 0) :
    DividesRounded x y ↔ x.mantissa = 0 ∨ KeepsDigits x y := by
  by_cases hx0 : x.mantissa = 0
  · have hrun : x.div y = pure {} := by
      unfold div
      rw [if_neg hy0, if_pos hx0]
    have hquot : x.value / y.value = 0 := by rw [(value_eq_zero_iff x).mpr hx0, zero_div]
    have hzero : ({} : Decimal).value = 0 := (value_eq_zero_iff _).mpr rfl
    have hfine : FinestScale |x.value / y.value| 28 := by
      rw [hquot, abs_zero]
      refine ⟨le_rfl, ?_, fun s' hs' _ => hs'⟩
      rw [zero_mul]
      exact (nearest_natCast 0).le.trans (by positivity)
    refine ⟨fun _ => Or.inl hx0, fun _ => Or.inr ⟨{}, 28, hrun, hfine, ?_, ?_⟩⟩
    · rw [hzero, hquot, sub_zero, abs_zero]
      positivity
    · intro _
      rw [hzero, hquot]
  · rw [or_iff_right hx0]
    by_cases hle : y.scale ≤ x.scale + dividendRoom x y
    · exact dividesRounded_iff_of_le hx hy hx0 hy0 hle
    · constructor
      · intro h
        exact absurd h (not_dividesRounded_of_lt hx hy hx0 hy0 (by omega))
      · intro h
        exact absurd h.1 hle

/-- One third: the quotient carries all the digits it can. -/
theorem dividesRounded_third :
    DividesRounded ⟨1, 0, false⟩ ⟨3, 0, true⟩ ↔
      (⟨1, 0, false⟩ : Decimal).mantissa = 0 ∨ KeepsDigits ⟨1, 0, false⟩ ⟨3, 0, true⟩ :=
  dividesRounded_iff (by decide) (by decide) (by decide)

/-- `(2^96 - 1) / 10` is representable with one decimal and is returned as an integer. -/
theorem dividesRounded_truncated :
    (⟨79228162514264337593543950335, 0, false⟩ : Decimal).Valid ∧
      (⟨10, 0, false⟩ : Decimal).Valid ∧ (⟨10, 0, false⟩ : Decimal).mantissa ≠ 0 ∧
      ¬ DividesRounded ⟨79228162514264337593543950335, 0, false⟩ ⟨10, 0, false⟩ := by
  have hrun : (⟨79228162514264337593543950335, 0, false⟩ : Decimal).div ⟨10, 0, false⟩ =
      pure ⟨7922816251426433759354395034, 0, false⟩ := by decide
  refine ⟨by decide, by decide, by decide, ?_⟩
  have hrep : Representable ((⟨79228162514264337593543950335, 0, false⟩ : Decimal).value /
      (⟨10, 0, false⟩ : Decimal).value) :=
    ⟨79228162514264337593543950335, 1, by decide, by decide, by norm_num [value]⟩
  rintro (⟨⟨message, hthrew⟩, -⟩ | ⟨r, s, hr, -, -, hexact⟩)
  · cases hthrew
  · have h := hexact hrep
    rw [← Run.pure_inj.mp (hrun.symm.trans hr)] at h
    norm_num [value] at h

end SharpRuntime.Analysis.DecimalDivision
