import SharpRuntime.Analysis.DecimalAddition
import SharpRuntime.Analysis.DecimalMultiplication
import SharpRuntime.Analysis.DecimalDivision

/-!
# The remainder of `Decimal`s

`operator%` is `x - Truncate(x / y) * y` (Decimal.cpp:480-482).  With the exact integer
quotient the product and the difference are exact (`mod_of_exact`).  A quotient that
`operator/` rounds up to the next integer makes the product too large, and the difference
then has the wrong sign or is a zero that is not the remainder (`mod_of_roundsUp`).  A
quotient that lost its digits leaves a remainder larger than the divisor (`mod_of_lost`).
-/

set_option autoImplicit false

namespace SharpRuntime.Analysis.DecimalRemainder

open Machine Model Model.Decimal
open DecimalShortening DecimalAddition
open DecimalMultiplication DecimalDivision

variable {x y : Decimal}

theorem bne_bne_self (b c : Bool) : ((b != c) != c) = b := by
  cases b <;> cases c <;> rfl

theorem dropFraction_eq (m s : ℕ) : dropFraction m s = pure (m / 10 ^ s, 0) := by
  unfold dropFraction
  induction s generalizing m with
  | zero => rw [Run.whileLoop_of_not (by simp), pow_zero, Nat.div_one]
  | succ s ih =>
    simp [Run.whileLoop, ih, Nat.div_div_eq_div_mul, pow_succ']

theorem truncate_eq (d : Decimal) :
    ∃ n, d.truncate = pure ⟨d.mantissa / 10 ^ d.scale, 0, n⟩ ∧
      (d.mantissa / 10 ^ d.scale ≠ 0 → n = d.negative) := by
  unfold truncate
  by_cases hs : d.scale = 0
  · refine ⟨d.negative, ?_, fun _ => rfl⟩
    rw [if_pos hs, hs, pow_zero, Nat.div_one, ← hs]
  · refine ⟨d.negative && decide (d.mantissa / 10 ^ d.scale ≠ 0), ?_, ?_⟩
    · rw [if_neg hs, dropFraction_eq, pure_bind]
    · intro hne
      simp [hne]

theorem mod_of_zero {q : Decimal} (hdiv : x.div y = pure q) (hq : q.mantissa / 10 ^ q.scale = 0) :
    x.mod y = pure x := by
  obtain ⟨n, htrunc, -⟩ := truncate_eq q
  grind [mod, mul, sub]

theorem mod_of_ne_zero {q : Decimal} (hdiv : x.div y = pure q)
    (hq : q.mantissa / 10 ^ q.scale ≠ 0) :
    x.mod y = (do
      let p ← (⟨q.mantissa / 10 ^ q.scale, 0, q.negative⟩ : Decimal).mul y
      x.sub p) := by
  obtain ⟨n, htrunc, hn⟩ := truncate_eq q
  grind [mod]

theorem mul_of_fits {t : ℕ} {n : Bool} (hy : y.Valid) (ht0 : t ≠ 0) (hy0 : y.mantissa ≠ 0)
    (hfit : t * y.mantissa ≤ maxMantissa) :
    (⟨t, 0, n⟩ : Decimal).mul y = pure ⟨t * y.mantissa, y.scale, n != y.negative⟩ := by
  have ht : (⟨t, 0, n⟩ : Decimal).Valid := by
    refine ⟨?_, Nat.zero_le _⟩
    exact (Nat.le_mul_of_pos_right t (by omega)).trans hfit
  rw [mul_eq ht hy ht0 hy0]
  rw [Nat.zero_add, shorten_of_fits hfit hy.scale_le]

theorem sub_eq_add {m s : ℕ} (hm : m ≠ 0) (n : Bool) :
    x.sub ⟨m, s, n⟩ = x.add ⟨m, s, !n⟩ := by
  unfold sub
  rw [if_neg hm]

theorem droppedDigits_eq_zero (hx : x.Valid)
    (h : x.mantissa * 10 ^ (y.scale - x.scale) ≤ maxMantissa) : droppedDigits x y = 0 := by
  have hroom := (le_headroom_iff hx.mantissa_le).mpr ⟨le_refl (y.scale - x.scale), h⟩
  unfold droppedDigits
  omega

theorem add_exact_of_room (hx : x.Valid) (hy : y.Valid) (hle : x.scale ≤ y.scale)
    (hsign : x.negative ≠ y.negative)
    (hroom : x.mantissa * 10 ^ (y.scale - x.scale) ≤ maxMantissa) :
    ∃ r, x.add y = pure r ∧ r.value = x.value + y.value := by
  obtain ⟨r, hrun, -, -, hval⟩ := add_opposite hx hy hle hsign
  rw [droppedDigits_eq_zero hx hroom, halfUp_zero, Nat.sub_zero] at hval
  exact ⟨r, hrun, hval⟩

theorem add_opposite_sign (hx : x.Valid) (hy : y.Valid) (hsign : x.negative ≠ y.negative)
    (hlt : (x.mantissa : ℚ) / 10 ^ x.scale < y.mantissa / 10 ^ y.scale) :
    ∃ r, x.add y = pure r ∧ r.value * x.value ≤ 0 := by
  have hflip : y.negative = !x.negative := Bool.eq_not.mpr hsign.symm
  -- the sum of a value with the sign of `x` and a larger one with the other sign
  have hfold : ∀ {p q : ℚ}, p ≤ q →
      (withSign x.negative p + withSign y.negative q) * x.value ≤ 0 := by
    intro p q hpq
    have hnn : (0 : ℚ) ≤ x.mantissa / 10 ^ x.scale := by positivity
    rw [hflip, withSign_add_not, value_eq_withSign x, withSign_mul, bne_self_eq_false]
    exact mul_nonpos_of_nonpos_of_nonneg (sub_nonpos.mpr hpq) hnn
  rcases Nat.le_total x.scale y.scale with hle | hle
  · obtain ⟨r, hrun, -, -, hval⟩ := add_opposite hx hy hle hsign
    have hdrop : droppedDigits x y = 0 := by
      by_contra hne
      obtain ⟨hbig, -⟩ := lt_of_droppedDigits_ne_zero hx hy hle hne
      have hs : y.scale = x.scale + (y.scale - x.scale) := by omega
      rw [div_pow_scale_up _ x.scale (y.scale - x.scale), ← hs,
        div_lt_div_iff_of_pos_right (by positivity)] at hlt
      have hlt' : x.mantissa * 10 ^ (y.scale - x.scale) < y.mantissa := by exact_mod_cast hlt
      omega
    refine ⟨r, hrun, ?_⟩
    rw [hval, hdrop, halfUp_zero, Nat.sub_zero]
    exact hfold hlt.le
  · obtain ⟨r, hrun, -, -, hval⟩ := add_opposite hy hx hle (Ne.symm hsign)
    refine ⟨r, by rw [add_swap hx hy, hrun], ?_⟩
    rw [hval, add_comm]
    apply hfold
    obtain ⟨k, t, hkt, htd, -, -, -, -⟩ :=
      @aligned_split ⟨y.mantissa, y.scale⟩ ⟨x.mantissa, x.scale⟩ hle hy.mantissa_le
    dsimp only at hkt htd
    have htd' : t = droppedDigits y x := htd
    rw [← htd']
    have hcommon : x.scale - t = y.scale + k := by omega
    have hs : x.scale = y.scale + (k + t) := by omega
    -- rounding both at the same digit keeps their order
    have hround : halfUp t x.mantissa ≤ y.mantissa * 10 ^ k := by
      have hmono : x.mantissa ≤ y.mantissa * 10 ^ k * 10 ^ t := by
        rw [div_pow_scale_up _ y.scale (k + t), ← hs,
          div_lt_div_iff_of_pos_right (by positivity)] at hlt
        have hlt' : x.mantissa < y.mantissa * 10 ^ (k + t) := by exact_mod_cast hlt
        rw [Nat.mul_assoc, ← pow_add]
        exact hlt'.le
      calc
        halfUp t x.mantissa ≤ halfUp t (y.mantissa * 10 ^ k * 10 ^ t) := halfUp_mono t hmono
        _ = y.mantissa * 10 ^ k := halfUp_mul_pow t _
    rw [hcommon, div_pow_scale_up _ y.scale k, div_le_div_iff_of_pos_right (by positivity)]
    exact_mod_cast hround

def quotientScale (x y : Decimal) : ℕ := x.scale + dividendRoom x y - y.scale

def integerQuotient (x y : Decimal) : ℕ := dividend x y / y.mantissa / 10 ^ quotientScale x y

/-- The quotient is so close below an integer that it is rounded up to it. -/
def RoundsUp (x y : Decimal) : Prop :=
  y.mantissa ≤ 2 * (dividend x y % y.mantissa) ∧
    10 ^ quotientScale x y ∣ dividend x y / y.mantissa + 1

instance (x y : Decimal) : Decidable (RoundsUp x y) := inferInstanceAs (Decidable (_ ∧ _))

theorem integerQuotient_mul_le (x y : Decimal) :
    integerQuotient x y * y.mantissa * 10 ^ quotientScale x y ≤ dividend x y := by
  rw [integerQuotient, Nat.div_div_eq_div_mul, Nat.mul_assoc]
  exact Nat.div_mul_le_self _ _

theorem lt_integerQuotient_mul (hy0 : y.mantissa ≠ 0) :
    dividend x y < (integerQuotient x y + 1) * y.mantissa * 10 ^ quotientScale x y := by
  rw [integerQuotient, Nat.div_div_eq_div_mul, Nat.mul_assoc, Nat.mul_comm]
  exact Nat.lt_mul_div_succ _ (by positivity)

theorem truncated_quotient (hy0 : y.mantissa ≠ 0) :
    nearestDiv (dividend x y) y.mantissa / 10 ^ quotientScale x y =
      integerQuotient x y + if RoundsUp x y then 1 else 0 :=
  nearestDiv_div _ _ (Nat.pos_of_ne_zero hy0)

theorem magnitude_eq (h : y.scale ≤ x.scale + dividendRoom x y) :
    (x.mantissa : ℚ) / 10 ^ x.scale = dividend x y / 10 ^ (y.scale + quotientScale x y) := by
  rw [div_pow_scale_up _ x.scale (dividendRoom x y), dividend, quotientScale,
    Nat.add_sub_cancel' h]
  push_cast
  rfl

theorem integerQuotient_le (h : y.scale ≤ x.scale + dividendRoom x y) :
    (integerQuotient x y * (y.mantissa / 10 ^ y.scale) : ℚ) ≤ x.mantissa / 10 ^ x.scale := by
  rw [magnitude_eq h, ← mul_div_assoc, div_pow_scale_up _ y.scale (quotientScale x y),
    div_le_div_iff_of_pos_right (by positivity)]
  exact_mod_cast integerQuotient_mul_le x y

theorem lt_integerQuotient_succ (hy0 : y.mantissa ≠ 0) (h : y.scale ≤ x.scale + dividendRoom x y) :
    (x.mantissa : ℚ) / 10 ^ x.scale <
      (integerQuotient x y + 1 : ℕ) * (y.mantissa / 10 ^ y.scale) := by
  rw [magnitude_eq h, ← mul_div_assoc, div_pow_scale_up _ y.scale (quotientScale x y),
    div_lt_div_iff_of_pos_right (by positivity)]
  exact_mod_cast lt_integerQuotient_mul hy0

theorem dividend_room (hx : x.Valid) (h : y.scale ≤ x.scale + dividendRoom x y) :
    x.mantissa * 10 ^ (y.scale - x.scale) ≤ maxMantissa := by
  calc
    x.mantissa * 10 ^ (y.scale - x.scale) ≤ dividend x y :=
      Nat.mul_le_mul_left _ (Nat.pow_le_pow_right (by decide) (by omega))
    _ ≤ maxMantissa := dividend_le hx

/-- With an integer quotient that is not rounded up, the remainder is the exact one. -/
theorem mod_of_exact (hx : x.Valid) (hy : y.Valid) (hx0 : x.mantissa ≠ 0) (hy0 : y.mantissa ≠ 0)
    (h : y.scale ≤ x.scale + dividendRoom x y) (hup : ¬ RoundsUp x y) :
    ∃ r, x.mod y = pure r ∧ r.value = withSign x.negative
      (x.mantissa / 10 ^ x.scale - integerQuotient x y * (y.mantissa / 10 ^ y.scale)) := by
  have hdiv := div_eq_of_le hx hy hx0 hy0 h
  have htrunc : nearestDiv (dividend x y) y.mantissa / 10 ^ quotientScale x y =
      integerQuotient x y := by
    rw [truncated_quotient hy0, if_neg hup, Nat.add_zero]
  by_cases hzero : integerQuotient x y = 0
  · refine ⟨x, mod_of_zero hdiv (htrunc.trans hzero), ?_⟩
    rw [hzero, Nat.cast_zero, zero_mul, sub_zero]
    rfl
  · have hle := integerQuotient_mul_le x y
    have hfit : integerQuotient x y * y.mantissa ≤ maxMantissa :=
      (Nat.le_mul_of_pos_right _ (by positivity)).trans (hle.trans (dividend_le hx))
    have hprod : integerQuotient x y * y.mantissa ≠ 0 := Nat.mul_ne_zero hzero hy0
    rw [mod_of_ne_zero hdiv (by rw [← quotientScale, htrunc]; exact hzero)]
    rw [← quotientScale, htrunc, mul_of_fits hy hzero hy0 hfit, pure_bind, bne_bne_self,
      sub_eq_add hprod]
    have hvalid : (⟨integerQuotient x y * y.mantissa, y.scale, !x.negative⟩ : Decimal).Valid :=
      ⟨hfit, hy.scale_le⟩
    have hadd : ∃ r, x.add ⟨integerQuotient x y * y.mantissa, y.scale, !x.negative⟩ = pure r ∧
        r.value = x.value +
          (⟨integerQuotient x y * y.mantissa, y.scale, !x.negative⟩ : Decimal).value := by
      rcases Nat.le_total x.scale y.scale with hs | hs
      · exact add_exact_of_room hx hvalid hs (Bool.not_ne_self _).symm (dividend_room hx h)
      · have hroom :
            integerQuotient x y * y.mantissa * 10 ^ (x.scale - y.scale) ≤ maxMantissa := by
          apply le_trans _ hx.mantissa_le
          apply Nat.le_of_mul_le_mul_right _ (show 0 < 10 ^ dividendRoom x y by positivity)
          rw [Nat.mul_assoc, ← pow_add, show x.scale - y.scale + dividendRoom x y =
            quotientScale x y by unfold quotientScale; omega]
          exact hle
        obtain ⟨r, hrun, hval⟩ := add_exact_of_room hvalid hx hs (Bool.not_ne_self _) hroom
        exact ⟨r, by rw [add_swap hx hvalid, hrun], by rw [hval, add_comm]⟩
    obtain ⟨r, hrun, hval⟩ := hadd
    refine ⟨r, hrun, ?_⟩
    rw [hval, value_eq_withSign x, value_eq_withSign ⟨_, _, !x.negative⟩, withSign_add_not]
    push_cast
    rw [mul_div_assoc]

theorem product_of_roundsUp (hy0 : y.mantissa ≠ 0) (hup : RoundsUp x y) :
    (integerQuotient x y + 1) * y.mantissa * 10 ^ quotientScale x y =
      dividend x y + (y.mantissa - dividend x y % y.mantissa) := by
  obtain ⟨-, c, hc⟩ := hup
  have hpos : 0 < 10 ^ quotientScale x y := by positivity
  have hq : integerQuotient x y + 1 = c := by
    have hdvd : 10 ^ quotientScale x y ∣ dividend x y / y.mantissa + 1 := ⟨c, hc⟩
    have hsucc := Nat.succ_div (a := dividend x y / y.mantissa) (b := 10 ^ quotientScale x y)
    rw [if_pos hdvd, ← integerQuotient, hc, Nat.mul_div_cancel_left _ hpos] at hsucc
    exact hsucc.symm
  have hlt := Nat.mod_lt (dividend x y) (Nat.pos_of_ne_zero hy0)
  have hsplit : dividend x y / y.mantissa * y.mantissa + dividend x y % y.mantissa = dividend x y :=
    Nat.div_add_mod' _ _
  calc
    (integerQuotient x y + 1) * y.mantissa * 10 ^ quotientScale x y =
        10 ^ quotientScale x y * c * y.mantissa := by rw [hq]; ring
    _ = dividend x y / y.mantissa * y.mantissa + y.mantissa := by rw [← hc, Nat.succ_mul]
    _ = dividend x y + (y.mantissa - dividend x y % y.mantissa) := by omega

theorem mul_of_roundsUp (hx : x.Valid) (hy : y.Valid) (hy0 : y.mantissa ≠ 0)
    (h : y.scale ≤ x.scale + dividendRoom x y) (hup : RoundsUp x y) (n : Bool) :
    if y.scale = 0 ∧ maxMantissa < (integerQuotient x y + 1) * y.mantissa then
      (⟨integerQuotient x y + 1, 0, n⟩ : Decimal).mul y =
        Run.throwing (.overflow "Decimal overflow.")
    else
      ∃ m s, (⟨integerQuotient x y + 1, 0, n⟩ : Decimal).mul y = pure ⟨m, s, n != y.negative⟩ ∧
        m ≤ maxMantissa ∧ s ≤ 28 ∧ (x.mantissa : ℚ) / 10 ^ x.scale < m / 10 ^ s := by
  have hprod := product_of_roundsUp hy0 hup
  have hN := dividend_le (y := y) hx
  have hm := hy.mantissa_le
  by_cases hfit : (integerQuotient x y + 1) * y.mantissa ≤ maxMantissa
  · rw [if_neg (by omega)]
    refine ⟨_, _, mul_of_fits hy (by omega) hy0 hfit, hfit, hy.scale_le, ?_⟩
    have hlt := lt_integerQuotient_succ hy0 h
    grind
  · -- past the largest mantissa the quotient has no fraction, and one digit of the product goes
    have hscale : quotientScale x y = 0 := by
      by_contra hne
      have hten : 10 ≤ 10 ^ quotientScale x y := Nat.le_self_pow hne 10
      have hbig := Nat.mul_le_mul_left ((integerQuotient x y + 1) * y.mantissa) hten
      omega
    rw [hscale, pow_zero, Nat.mul_one] at hprod
    have hvalid : (⟨integerQuotient x y + 1, 0, n⟩ : Decimal).Valid := by
      refine ⟨?_, Nat.zero_le _⟩
      have htrunc := truncated_quotient (x := x) hy0
      rw [if_pos hup] at htrunc
      rw [← htrunc]
      exact (Nat.div_le_self _ _).trans ((nearestDiv_le _ (by omega)).trans hN)
    rw [mul_eq hvalid hy (by dsimp only; omega) hy0]
    dsimp only
    rw [Nat.zero_add]
    cases hs : y.scale with
    | zero =>
      rw [if_pos ⟨rfl, by omega⟩, shorten, if_neg hfit]
    | succ s =>
      rw [if_neg (by omega), shorten, if_neg (by omega)]
      have hsy := hy.scale_le
      have hnext : halfUp 1 ((integerQuotient x y + 1) * y.mantissa) ≤ maxMantissa := by
        rw [halfUp_one]
        omega
      rw [shorten_of_fits hnext (by omega)]
      refine ⟨_, _, rfl, hnext, by omega, ?_⟩
      have hmax : maxMantissa < 10 * halfUp 1 (maxMantissa + 1) := by decide
      have hmono : halfUp 1 (maxMantissa + 1) ≤
          halfUp 1 ((integerQuotient x y + 1) * y.mantissa) := halfUp_mono 1 (by omega)
      rw [magnitude_eq h, hscale, Nat.add_zero, hs, div_pow_scale_up _ s 1,
        div_lt_div_iff_of_pos_right (by positivity), pow_one]
      have hlt : dividend x y < halfUp 1 ((integerQuotient x y + 1) * y.mantissa) * 10 := by omega
      exact_mod_cast hlt

/-- A quotient that is rounded up to an integer gives a remainder of the wrong sign, or overflows. -/
theorem mod_of_roundsUp (hx : x.Valid) (hy : y.Valid) (hx0 : x.mantissa ≠ 0)
    (hy0 : y.mantissa ≠ 0) (h : y.scale ≤ x.scale + dividendRoom x y) (hup : RoundsUp x y) :
    if y.scale = 0 ∧ maxMantissa < (integerQuotient x y + 1) * y.mantissa then
      x.mod y = Run.throwing (.overflow "Decimal overflow.")
    else ∃ r, x.mod y = pure r ∧ r.value * x.value ≤ 0 := by
  have hdiv := div_eq_of_le hx hy hx0 hy0 h
  have htrunc := truncated_quotient (x := x) hy0
  rw [if_pos hup] at htrunc
  have hmod := mod_of_ne_zero hdiv (by rw [← quotientScale, htrunc]; omega)
  rw [← quotientScale, htrunc] at hmod
  have hmul := mul_of_roundsUp hx hy hy0 h hup (x.negative != y.negative)
  by_cases hover : y.scale = 0 ∧ maxMantissa < (integerQuotient x y + 1) * y.mantissa
  · rw [if_pos hover] at hmul ⊢
    rw [hmod, hmul]
    rfl
  · rw [if_neg hover] at hmul ⊢
    obtain ⟨m, s, hrun, hm, hs, hlt⟩ := hmul
    have hm0 : m ≠ 0 := by
      rintro rfl
      have hnn : (0 : ℚ) ≤ x.mantissa / 10 ^ x.scale := by positivity
      rw [Nat.cast_zero, zero_div] at hlt
      linarith
    rw [hmod, hrun, pure_bind, bne_bne_self, sub_eq_add hm0]
    exact add_opposite_sign hx ⟨hm, hs⟩ (Bool.not_ne_self _).symm hlt

theorem droppedDigits_of_lost {p : ℕ} {n : Bool} (hx : x.Valid)
    (h : x.scale + dividendRoom x y < y.scale) :
    droppedDigits x ⟨p, y.scale, n⟩ = y.scale - (x.scale + dividendRoom x y) := by
  have hroom := (le_headroom_iff (d := 28 + y.scale - x.scale) (k := dividendRoom x y)
    hx.mantissa_le).mp le_rfl
  have hheadroom := (le_headroom_iff (d := y.scale - x.scale)
    (k := headroom maxMantissa (y.scale - x.scale) x.mantissa) hx.mantissa_le).mp le_rfl
  have hle : dividendRoom x y ≤ headroom maxMantissa (y.scale - x.scale) x.mantissa :=
    (le_headroom_iff hx.mantissa_le).mpr ⟨by omega, hroom.2⟩
  have hge : headroom maxMantissa (y.scale - x.scale) x.mantissa ≤ dividendRoom x y :=
    (le_headroom_iff hx.mantissa_le).mpr ⟨by omega, hheadroom.2⟩
  unfold droppedDigits
  dsimp only
  omega

theorem le_of_lost {n m t p e : ℕ} (hstop : m < n * 10) (hp : p ≤ t * m)
    (ht : t = nearestDiv n m / 10 ^ (e + 1)) : p ≤ n ∧ m ≤ (n - p) * 10 ^ (e + 1) := by
  have hpow : 10 ≤ 10 ^ (e + 1) := Nat.le_self_pow (by omega) 10
  rcases Nat.eq_zero_or_pos t with hzero | hpos
  · rw [hzero, Nat.zero_mul] at hp
    obtain rfl : p = 0 := by omega
    have hle := Nat.mul_le_mul_left n hpow
    exact ⟨Nat.zero_le n, by rw [Nat.sub_zero]; omega⟩
  · have hq : nearestDiv n m * (2 * m) ≤ 2 * n + m := Nat.div_mul_le_self _ _
    have hcut : t * 10 ≤ nearestDiv n m := by
      calc
        t * 10 ≤ t * 10 ^ (e + 1) := Nat.mul_le_mul_left _ hpow
        _ ≤ nearestDiv n m := by rw [ht]; exact Nat.div_mul_le_self _ _
    have hprod : 20 * (t * m) ≤ 2 * n + m := by
      calc
        20 * (t * m) = t * 10 * (2 * m) := by ring
        _ ≤ nearestDiv n m * (2 * m) := Nat.mul_le_mul_right _ hcut
        _ ≤ 2 * n + m := hq
    have hone : m ≤ t * m := Nat.le_mul_of_pos_left m hpos
    have hle := Nat.mul_le_mul_left (n - p) hpow
    exact ⟨by omega, by omega⟩

/-- A quotient that loses digits leaves a remainder no smaller than the divisor. -/
theorem mod_of_lost (hx : x.Valid) (hy : y.Valid) (hx0 : x.mantissa ≠ 0) (hy0 : y.mantissa ≠ 0)
    (h : x.scale + dividendRoom x y < y.scale) :
    ∃ r, x.mod y = pure r ∧ |y.value| ≤ |r.value| := by
  obtain ⟨e, he⟩ : ∃ e, y.scale - (x.scale + dividendRoom x y) = e + 1 :=
    ⟨y.scale - (x.scale + dividendRoom x y) - 1, by omega⟩
  have hscale : y.scale = x.scale + dividendRoom x y + (e + 1) := by omega
  have hmy := hy.mantissa_le
  have hstop : maxMantissa < dividend x y * 10 := (headroom_spec _ _ _).2.2 (by
    change dividendRoom x y < _
    omega)
  have hxval : (x.mantissa : ℚ) / 10 ^ x.scale =
      dividend x y / 10 ^ (x.scale + dividendRoom x y) := by
    rw [div_pow_scale_up _ x.scale (dividendRoom x y), dividend]
    push_cast
    rfl
  -- a result that takes `p` away from the scaled dividend
  have hlarge : ∀ {p : ℕ}, p ≤ dividend x y → y.mantissa ≤ (dividend x y - p) * 10 ^ (e + 1) →
      |y.value| ≤ |withSign x.negative ((dividend x y : ℚ) / 10 ^ (x.scale + dividendRoom x y) -
        p / 10 ^ (x.scale + dividendRoom x y))| := by
    intro p hp hle
    rw [← sub_div, ← Nat.cast_sub hp, abs_withSign _ (by positivity), abs_value,
      div_pow_scale_up ((dividend x y - p : ℕ) : ℚ) _ (e + 1), ← hscale,
      div_le_div_iff_of_pos_right (by positivity)]
    exact_mod_cast hle
  have hdiv := div_eq_of_lt hx hy hx0 hy0 h
  rw [he] at hdiv
  have hcut := fun p hp => @le_of_lost (dividend x y) y.mantissa _ p e (by omega) hp rfl
  by_cases hzero : nearestDiv (dividend x y) y.mantissa / 10 ^ (e + 1) = 0
  · refine ⟨x, mod_of_zero hdiv (by dsimp only; rw [pow_zero, Nat.div_one]; exact hzero), ?_⟩
    obtain ⟨h1, h2⟩ := hcut 0 (Nat.zero_le _)
    have hbound := hlarge h1 h2
    rw [Nat.cast_zero, zero_div, sub_zero, ← hxval] at hbound
    exact hbound
  · have hmod := mod_of_ne_zero hdiv (by dsimp only; rw [pow_zero, Nat.div_one]; exact hzero)
    rw [pow_zero, Nat.div_one] at hmod
    generalize nearestDiv (dividend x y) y.mantissa / 10 ^ (e + 1) = t at *
    have hN := dividend_le (y := y) hx
    have hfit : t * y.mantissa ≤ maxMantissa := (hcut _ le_rfl).1.trans hN
    rw [hmod, mul_of_fits hy hzero hy0 hfit, pure_bind, bne_bne_self,
      sub_eq_add (Nat.mul_ne_zero hzero hy0)]
    obtain ⟨r, hrun, -, -, hval⟩ := add_opposite hx
      (show (⟨t * y.mantissa, y.scale, !x.negative⟩ : Decimal).Valid from ⟨hfit, hy.scale_le⟩)
      (by dsimp only; omega) (Bool.not_ne_self _).symm
    refine ⟨r, hrun, ?_⟩
    rw [droppedDigits_of_lost hx h, he] at hval
    have hround : halfUp (e + 1) (t * y.mantissa) ≤ t * y.mantissa := halfUp_le_self _ _
    obtain ⟨h1, h2⟩ := hcut _ hround
    have hbound := hlarge h1 h2
    rw [hval, show y.scale - (e + 1) = x.scale + dividendRoom x y by omega, value_eq_withSign x,
      value_eq_withSign ⟨_, _, !x.negative⟩, hxval, withSign_add_not]
    exact hbound

def IsRemainder (x y r : Decimal) : Prop :=
  |r.value| < |y.value| ∧ (r.value = 0 ∨ 0 < r.value * x.value) ∧
    ∃ n : ℤ, x.value - r.value = n * y.value

/-- What the operator returns, when it returns, is the remainder. -/
def RemainderCorrect (x y : Decimal) : Prop :=
  ∀ r, (x.mod y).outcome = .returned r → IsRemainder x y r

/-- The dividend has room for the scale of the divisor, and its quotient is not rounded up to
an integer unless the product with that integer overflows. -/
def RemainderExact (x y : Decimal) : Prop :=
  y.scale ≤ x.scale + dividendRoom x y ∧
    (¬ RoundsUp x y ∨
      (y.scale = 0 ∧ maxMantissa < (integerQuotient x y + 1) * y.mantissa))

theorem remainderCorrect_pure {r : Decimal} (hrun : x.mod y = pure r) :
    RemainderCorrect x y ↔ IsRemainder x y r := by simp [hrun, RemainderCorrect]

theorem isRemainder_of_value {r : Decimal} (hx0 : x.mantissa ≠ 0) (hy0 : y.mantissa ≠ 0)
    (h : y.scale ≤ x.scale + dividendRoom x y)
    (hval : r.value = withSign x.negative
      (x.mantissa / 10 ^ x.scale - integerQuotient x y * (y.mantissa / 10 ^ y.scale))) :
    IsRemainder x y r := by
  have hle := integerQuotient_le h
  have hlt := lt_integerQuotient_succ hy0 h
  rw [Nat.cast_succ, add_mul, one_mul] at hlt
  have hpos : (0 : ℚ) < x.mantissa / 10 ^ x.scale := by
    positivity
  refine ⟨?_, ?_, (if x.negative != y.negative then -(integerQuotient x y : ℤ)
    else integerQuotient x y), ?_⟩
  · rw [hval, abs_withSign _ (by linarith), abs_value]
    linarith
  · rw [hval, value_eq_withSign x, withSign_mul, bne_self_eq_false]
    rcases hle.eq_or_lt with heq | hgt
    · left
      rw [heq, sub_self, withSign, neg_zero, ite_self]
    · right
      exact mul_pos (by linarith) hpos
  · have hcast : (((if x.negative != y.negative then -(integerQuotient x y : ℤ)
        else integerQuotient x y) : ℤ) : ℚ) =
        withSign (x.negative != y.negative) (integerQuotient x y) := by
      unfold withSign
      split <;> push_cast <;> rfl
    rw [hcast, hval, value_eq_withSign x, value_eq_withSign y, withSign_mul, bne_bne_self, withSign_sub,
      sub_sub_cancel]

theorem not_roundsUp_of_multiple (hy0 : y.mantissa ≠ 0) (h : y.scale ≤ x.scale + dividendRoom x y)
    {n : ℤ} (hn : x.value = n * y.value) : ¬ RoundsUp x y := by
  rintro ⟨hhalf, -⟩
  have habs : (x.mantissa : ℚ) / 10 ^ x.scale = n.natAbs * (y.mantissa / 10 ^ y.scale) := by
    rw [← abs_value, hn, abs_mul, abs_value, ← Int.cast_abs, Int.abs_eq_natAbs, Int.cast_natCast]
  rw [magnitude_eq h, ← mul_div_assoc, div_pow_scale_up _ y.scale (quotientScale x y),
    div_left_inj' (by positivity)] at habs
  have hN : dividend x y = n.natAbs * y.mantissa * 10 ^ quotientScale x y := by exact_mod_cast habs
  have hzero : dividend x y % y.mantissa = 0 := by
    rw [hN, Nat.mul_right_comm, Nat.mul_mod_left]
  omega

/-- **Remainder.**  The operator returns the remainder, or overflows, exactly when its dividend
is zero or its integer quotient is the exact one. -/
theorem remainderCorrect_iff (hx : x.Valid) (hy : y.Valid) (hy0 : y.mantissa ≠ 0) :
    RemainderCorrect x y ↔ x.mantissa = 0 ∨ RemainderExact x y := by
  by_cases hx0 : x.mantissa = 0
  · have hdiv : x.div y = pure {} := by
      unfold div
      rw [if_neg hy0, if_pos hx0]
    have hzero : x.value = 0 := (value_eq_zero_iff x).mpr hx0
    have hy' : y.value ≠ 0 := fun hv => hy0 ((value_eq_zero_iff y).mp hv)
    rw [remainderCorrect_pure (mod_of_zero hdiv rfl)]
    refine ⟨fun _ => Or.inl hx0, fun _ => ⟨?_, Or.inl hzero, 0, ?_⟩⟩
    · grind
    · rw [sub_self, Int.cast_zero, zero_mul]
  · rw [or_iff_right hx0]
    unfold RemainderExact
    by_cases hle : y.scale ≤ x.scale + dividendRoom x y
    · by_cases hup : RoundsUp x y
      · have hmod := mod_of_roundsUp hx hy hx0 hy0 hle hup
        by_cases hover : y.scale = 0 ∧ maxMantissa < (integerQuotient x y + 1) * y.mantissa
        · rw [if_pos hover] at hmod
          refine ⟨fun _ => ⟨hle, Or.inr hover⟩, fun _ r hr => ?_⟩
          rw [hmod] at hr
          cases hr
        · rw [if_neg hover] at hmod
          obtain ⟨r, hrun, hsign⟩ := hmod
          rw [remainderCorrect_pure hrun]
          constructor
          · -- a result without the sign of the dividend would have to be zero
            rintro ⟨-, hr | hr, n, hn⟩
            · rw [hr, sub_zero] at hn
              exact absurd hup (not_roundsUp_of_multiple hy0 hle hn)
            · exact absurd hr (not_lt.mpr hsign)
          · grind
      · obtain ⟨r, hrun, hval⟩ := mod_of_exact hx hy hx0 hy0 hle hup
        rw [remainderCorrect_pure hrun]
        exact ⟨fun _ => ⟨hle, Or.inl hup⟩, fun _ => isRemainder_of_value hx0 hy0 hle hval⟩
    · obtain ⟨r, hrun, hlarge⟩ := mod_of_lost hx hy hx0 hy0 (by omega)
      rw [remainderCorrect_pure hrun]
      constructor
      · rintro ⟨hlt, -⟩
        exact absurd hlt (not_lt.mpr hlarge)
      · intro h
        exact absurd h.1 hle

/-- Minus seven and a half by two. -/
theorem remainderCorrect_mixed :
    RemainderCorrect ⟨75, 1, true⟩ ⟨2, 0, false⟩ ↔
      (⟨75, 1, true⟩ : Decimal).mantissa = 0 ∨ RemainderExact ⟨75, 1, true⟩ ⟨2, 0, false⟩ :=
  remainderCorrect_iff (by decide) (by decide) (by decide)

/-- `(2^96 - 2) % (2^96 - 1)` is returned as `-1`. -/
theorem remainderCorrect_roundedUp :
    (⟨79228162514264337593543950334, 0, false⟩ : Decimal).Valid ∧
      (⟨79228162514264337593543950335, 0, false⟩ : Decimal).Valid ∧
      (⟨79228162514264337593543950335, 0, false⟩ : Decimal).mantissa ≠ 0 ∧
      ¬ RemainderCorrect ⟨79228162514264337593543950334, 0, false⟩
        ⟨79228162514264337593543950335, 0, false⟩ := by
  have hrun : ((⟨79228162514264337593543950334, 0, false⟩ : Decimal).mod
      ⟨79228162514264337593543950335, 0, false⟩) = pure ⟨1, 0, true⟩ := by decide
  refine ⟨by decide, by decide, by decide, ?_⟩
  rw [remainderCorrect_pure hrun]
  rintro ⟨-, hsign, -⟩
  norm_num [value] at hsign

end SharpRuntime.Analysis.DecimalRemainder
