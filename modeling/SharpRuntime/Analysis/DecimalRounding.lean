import SharpRuntime.Analysis.DecimalInvariant

/-!
# Rounding of `Decimal`s

`Round` divides the mantissa by a power of ten and lets the remainder, and for one convention the
parity of the quotient, decide on the last unit (Decimal.cpp:551-601).  Sign and magnitude are
rounded apart (`rounds_withSign`).  `Floor` and `Ceiling` compare their operand with its truncation
(`ne_truncate`), and the unit they add or take is exact (`add_integers`).
-/

set_option autoImplicit false

namespace SharpRuntime.Analysis.DecimalRounding

open Machine Model Model.Decimal
open DecimalShortening DecimalAddition
open DecimalRemainder DecimalCompare
open DecimalInvariant

variable {d : Decimal}

def signed (negative : Bool) (n : ℕ) : ℤ := if negative then -n else n

theorem signed_cast (negative : Bool) (n : ℕ) :
    ((signed negative n : ℤ) : ℚ) = withSign negative n := by
  unfold signed withSign
  cases negative <;> simp

theorem Rounds.unique {mode : MidpointRounding} {q : ℚ} {m n : ℤ} (hm : Rounds mode q m)
    (hn : Rounds mode q n) : m = n := by
  cases mode with
  | toEven => exact NearestEven.unique hm hn
  | awayFromZero => exact NearestAway.unique hm hn
  | toZero | toNegativeInfinity | toPositiveInfinity => exact Eq.trans hm (Eq.symm hn)

theorem rounds_intCast (mode : MidpointRounding) (z : ℤ) : Rounds mode z z := by
  cases mode with
  | toEven => exact nearestEven_intCast z
  | awayFromZero => exact nearestAway_intCast z
  | toZero => exact (integerPart_intCast z).symm
  | toNegativeInfinity => exact (Int.floor_intCast z).symm
  | toPositiveInfinity => exact (Int.ceil_intCast z).symm

/-- The quotient `Round` ends with: one more where its `switch` says so. -/
def roundedUnits (mode : MidpointRounding) (negative : Bool) (m divisor : ℕ) : ℕ :=
  if roundsUp mode negative (m / divisor) (m % divisor) (divisor / 2) then m / divisor + 1
  else m / divisor

theorem rounds_roundedUnits (mode : MidpointRounding) (negative : Bool) (m : ℕ) {h : ℕ}
    (hh : 0 < h) :
    Rounds mode (withSign negative ((m : ℚ) / (2 * h : ℕ)))
      (signed negative (roundedUnits mode negative m (2 * h))) := by
  have hd : 0 < 2 * h := by omega
  have hhalf : 2 * h / 2 = h := by omega
  have hnonneg : (0 : ℚ) ≤ (m : ℚ) / (2 * h : ℕ) := by positivity
  have hfloor : ⌊(m : ℚ) / (2 * h : ℕ)⌋ = (m / (2 * h) : ℕ) := by
    rw [Int.floor_div_natCast, Int.floor_natCast, Int.natCast_div]
  have hceil := ceil_div (K := ℚ) m hd
  unfold roundedUnits
  rw [hhalf]
  cases mode with
  | toEven =>
    have hup : (if roundsUp .toEven negative (m / (2 * h)) (m % (2 * h)) h then m / (2 * h) + 1
        else m / (2 * h)) = if 2 * (m % (2 * h)) < 2 * h ∨
          (2 * (m % (2 * h)) = 2 * h ∧ Even (m / (2 * h))) then m / (2 * h)
        else m / (2 * h) + 1 := by
      simp only [roundsUp, Nat.even_iff]
      split_ifs <;> simp_all <;> omega
    rw [hup]
    cases negative with
    | false => exact nearestEven_div m hd
    | true => exact (nearestEven_div m hd).neg
  | awayFromZero =>
    have hup : (if roundsUp .awayFromZero negative (m / (2 * h)) (m % (2 * h)) h then
        m / (2 * h) + 1 else m / (2 * h)) =
          if 2 * (m % (2 * h)) < 2 * h then m / (2 * h) else m / (2 * h) + 1 := by
      simp only [roundsUp, decide_eq_true_eq]
      split_ifs <;> omega
    rw [hup]
    cases negative with
    | false => exact nearestAway_div m hd
    | true => exact (nearestAway_div m hd).neg
  | toZero =>
    cases negative with
    | false => exact ((integerPart_of_nonneg hnonneg).trans hfloor).symm
    | true =>
      have hpart := integerPart_neg ((m : ℚ) / (2 * h : ℕ))
      rw [integerPart_of_nonneg hnonneg, hfloor] at hpart
      exact hpart.symm
  | toNegativeInfinity =>
    cases negative with
    | false => exact hfloor.symm
    | true =>
      have hneg : ⌊-((m : ℚ) / (2 * h : ℕ))⌋ = -⌈(m : ℚ) / (2 * h : ℕ)⌉ := Int.floor_neg
      refine Eq.symm (hneg.trans ?_)
      rw [hceil]
      by_cases h0 : m % (2 * h) = 0 <;> simp [roundsUp, signed, h0]
  | toPositiveInfinity =>
    cases negative with
    | false =>
      refine Eq.symm (hceil.trans ?_)
      by_cases h0 : m % (2 * h) = 0 <;> simp [roundsUp, signed, h0]
    | true =>
      have hneg : ⌈-((m : ℚ) / (2 * h : ℕ))⌉ = -⌊(m : ℚ) / (2 * h : ℕ)⌋ := Int.ceil_neg
      exact Eq.symm (hneg.trans (by rw [hfloor]; rfl))

def places (decimals : Int32) : ℕ := decimals.toInt.toNat

/-- A convention of the enumeration and a number of decimals in range. -/
def Accepted (decimals mode : Int32) (convention : MidpointRounding) : Prop :=
  0 ≤ decimals.toInt ∧ decimals.toInt ≤ 28 ∧ MidpointRounding.ofInt mode.toInt = some convention

instance (decimals mode : Int32) (convention : MidpointRounding) :
    Decidable (Accepted decimals mode convention) := inferInstanceAs (Decidable (_ ∧ _ ∧ _))

variable {decimals mode : Int32} {convention : MidpointRounding}

theorem round_of_accepted (h : Accepted decimals mode convention) (d : Decimal) :
    d.round decimals mode =
      if d.scale ≤ places decimals then pure d
      else (do
        let divisor ← powerOfTen (d.scale - places decimals)
        let quotient := d.mantissa / divisor
        let quotient ← bumpIf (roundsUp convention d.negative quotient (d.mantissa % divisor)
          (divisor / 2)) quotient
        pure ⟨quotient, places decimals, d.negative && decide (quotient ≠ 0)⟩) := by
  obtain ⟨hlo, hhi, hmode⟩ := h
  have h0 : (0 : Int32).toInt = 0 := rfl
  have h28 : (28 : Int32).toInt = 28 := rfl
  have hrange : ¬ (decimals < 0 ∨ 28 < decimals) := by
    rw [not_or, Int32.lt_iff_toInt_lt, Int32.lt_iff_toInt_lt]
    omega
  unfold Decimal.round
  rw [if_neg hrange, hmode]
  rfl

theorem round_of_le (h : Accepted decimals mode convention) (hle : d.scale ≤ places decimals) :
    d.round decimals mode = pure d := by
  rw [round_of_accepted h, if_pos hle]

theorem round_of_lt (h : Accepted decimals mode convention) (hd : d.Valid)
    (hlt : places decimals < d.scale) :
    d.round decimals mode = pure ⟨roundedUnits convention d.negative d.mantissa
      (10 ^ (d.scale - places decimals)), places decimals, d.negative && decide
        (roundedUnits convention d.negative d.mantissa (10 ^ (d.scale - places decimals)) ≠ 0)⟩ := by
  have hmax := maxMantissa_lt
  have hm := hd.mantissa_le
  have hs := hd.scale_le
  have hquot := Nat.div_le_self d.mantissa (10 ^ (d.scale - places decimals))
  rw [round_of_accepted h, if_neg (by omega), powerOfTen_eq (by omega), pure_bind]
  unfold bumpIf roundedUnits
  dsimp only
  split
  · rw [Run.word_of_eq (d.mantissa / 10 ^ (d.scale - places decimals) + 1) (by push_cast; rfl)
      (by omega), pure_bind]
  · rw [pure_bind]

theorem value_unsigned (m s : ℕ) (negative : Bool) :
    (⟨m, s, negative && decide (m ≠ 0)⟩ : Decimal).value = (⟨m, s, negative⟩ : Decimal).value := by
  by_cases h0 : m = 0
  · rw [(value_eq_zero_iff _).mpr h0, (value_eq_zero_iff _).mpr h0]
  · rw [decide_eq_true h0, Bool.and_true]

theorem value_units (m s : ℕ) (negative : Bool) :
    (⟨m, s, negative⟩ : Decimal).value = signed negative m / 10 ^ s := by
  rw [signed_cast]
  unfold value withSign
  cases negative <;> simp [neg_div]

theorem value_mul_pow {k : ℕ} (hle : k ≤ d.scale) :
    d.value * 10 ^ k = withSign d.negative ((d.mantissa : ℚ) / (10 ^ (d.scale - k) : ℕ)) := by
  have hs : d.scale = k + (d.scale - k) := by omega
  have hmag : (d.mantissa : ℚ) / 10 ^ d.scale * 10 ^ k =
      (d.mantissa : ℚ) / (10 ^ (d.scale - k) : ℕ) := by
    rw [hs, pow_add, Nat.add_sub_cancel_left]
    push_cast
    field_simp
  rw [← hmag]
  unfold value withSign
  cases d.negative <;> simp

theorem round_rounds (h : Accepted decimals mode convention) (hd : d.Valid) :
    ∃ r n, d.round decimals mode = pure r ∧ r.scale ≤ places decimals ∧
      Rounds convention (d.value * 10 ^ places decimals) n ∧
        r.value = n / 10 ^ places decimals := by
  rcases Nat.lt_or_ge (places decimals) d.scale with hlt | hle
  · obtain ⟨j, hj⟩ : ∃ j, d.scale - places decimals = j + 1 :=
      ⟨d.scale - places decimals - 1, by omega⟩
    have hten : 10 ^ (j + 1) = 2 * (5 * 10 ^ j) := by
      ring
    refine ⟨_, signed d.negative (roundedUnits convention d.negative d.mantissa
      (10 ^ (d.scale - places decimals))), round_of_lt h hd hlt, le_rfl, ?_, ?_⟩
    · rw [value_mul_pow hlt.le, hj, hten]
      exact rounds_roundedUnits convention d.negative d.mantissa (by positivity)
    · rw [value_unsigned, value_units]
  · -- the value is a whole number of the last units already
    have hunits : d.value * 10 ^ places decimals =
        ((signed d.negative d.mantissa * 10 ^ (places decimals - d.scale) : ℤ) : ℚ) := by
      have hk : places decimals = d.scale + (places decimals - d.scale) := by omega
      rw [value_units, hk, pow_add, Nat.add_sub_cancel_left]
      push_cast
      field_simp
    refine ⟨d, signed d.negative d.mantissa * 10 ^ (places decimals - d.scale),
      round_of_le h hle, hle, ?_, ?_⟩
    · rw [hunits]
      exact rounds_intCast convention _
    · rw [← hunits, mul_div_cancel_right₀]
      positivity

theorem integerPart_value (d : Decimal) :
    integerPart d.value = signed d.negative (d.mantissa / 10 ^ d.scale) := by
  have hfloor : integerPart ((d.mantissa : ℚ) / 10 ^ d.scale) =
      (d.mantissa / 10 ^ d.scale : ℕ) := by
    rw [integerPart_of_nonneg (by positivity)]
    have h := Int.floor_div_natCast (d.mantissa : ℚ) (10 ^ d.scale)
    push_cast at h ⊢
    exact h
  unfold value signed
  cases d.negative with
  | false => exact hfloor
  | true =>
    simp only [if_true]
    rw [integerPart_neg, hfloor]

theorem truncate_spec (d : Decimal) :
    ∃ t, d.truncate = pure t ∧ t.scale = 0 ∧ t.mantissa = d.mantissa / 10 ^ d.scale ∧
      t.value = integerPart d.value := by
  obtain ⟨n, hrun, hsign⟩ := truncate_eq d
  refine ⟨_, hrun, rfl, rfl, ?_⟩
  rw [integerPart_value, value_units, pow_zero, div_one, Int.cast_inj]
  by_cases h0 : d.mantissa / 10 ^ d.scale = 0
  · rw [h0]
    cases n <;> cases d.negative <;> rfl
  · rw [hsign h0]

variable {t : Decimal}

/-- Whether a value differs from its integral part is decided exactly. -/
theorem ne_truncate (hd : d.Valid) (hs : t.scale = 0)
    (hm : t.mantissa = d.mantissa / 10 ^ d.scale) : d.ne t = pure (decide (t.value ≠ d.value)) := by
  have ht : t.Valid := ⟨hm ▸ (Nat.div_le_self _ _).trans hd.mantissa_le, by omega⟩
  obtain ⟨b, hrun, hb⟩ := eq_spec hd ht
  have hno : ¬ (Confused d t ∨ Confused t d) := by
    rintro (⟨-, -, -, h⟩ | ⟨-, hnear, hmax, h⟩)
    · omega
    · -- the truncation of the largest mantissa with one place is one short
      rw [hm, h, hs, hmax] at hnear
      exact absurd hnear (by decide)
  rw [or_iff_left hno] at hb
  unfold ne
  rw [hrun, pure_bind]
  congr 1
  by_cases heq : t.value = d.value
  · rw [hb.mpr heq.symm]
    simp [heq]
  · have hfalse : b = false := by grind
    simp [heq, hfalse]

variable {x : Decimal}

/-- Integers that fit are added exactly. -/
theorem add_integers {y : Decimal} (hx : x.scale = 0) (hy : y.scale = 0)
    (hsum : x.mantissa + y.mantissa ≤ maxMantissa) :
    ∃ r, x.add y = pure r ∧ r.scale = 0 ∧ r.value = x.value + y.value := by
  have hxv : x.Valid := ⟨by omega, by omega⟩
  have hyv : y.Valid := ⟨by omega, by omega⟩
  have hle : x.scale ≤ y.scale := by omega
  by_cases hsign : x.negative = y.negative
  · have hfit : sumMantissa x y ≤ maxMantissa := by grind [sumMantissa]
    refine ⟨unsignZero ⟨sumMantissa x y, y.scale, x.negative⟩, ?_, ?_, ?_⟩
    · rw [add_same hxv hyv hle hsign, shorten_of_fits hfit (by omega)]
    · rw [unsignZero_scale, hy]
    · rw [unsignZero_value, value_add_same hle hsign]
  · have hdrop : droppedDigits x y = 0 := by
      rw [droppedDigits, hx, hy]
      exact Nat.zero_sub _
    obtain ⟨r, hrun, -, hscale, hval⟩ := add_opposite hxv hyv hle hsign
    rw [hdrop, halfUp_zero, Nat.sub_zero] at hval
    exact ⟨r, hrun, by omega, hval⟩

theorem one_eq : one = pure ⟨1, 0, false⟩ := rfl

theorem increment_integer (hx : x.scale = 0) (hm : x.mantissa < maxMantissa) :
    ∃ r, x.increment = pure r ∧ r.scale = 0 ∧ r.value = x.value + 1 := by
  obtain ⟨r, hrun, hs, hval⟩ := add_integers (y := ⟨1, 0, false⟩) hx rfl (by dsimp only; omega)
  refine ⟨r, ?_, hs, ?_⟩
  · unfold increment
    rw [one_eq, pure_bind, hrun]
  · rw [hval]
    norm_num [value]

theorem decrement_integer (hx : x.scale = 0) (hm : x.mantissa < maxMantissa) :
    ∃ r, x.decrement = pure r ∧ r.scale = 0 ∧ r.value = x.value - 1 := by
  obtain ⟨r, hrun, hs, hval⟩ := add_integers (y := ⟨1, 0, true⟩) hx rfl (by dsimp only; omega)
  refine ⟨r, ?_, hs, ?_⟩
  · simp [decrement, sub, one_eq, hrun]
  · rw [hval]
    norm_num [value]
    ring

theorem lt_max_of_ne (hd : d.Valid)
    (hm : t.mantissa = d.mantissa / 10 ^ d.scale) (hval : t.value = integerPart d.value)
    (hne : t.value ≠ d.value) : t.mantissa < maxMantissa := by
  have hscale : d.scale ≠ 0 := by
    intro h0
    apply hne
    rw [hval, integerPart_value, value_units, h0, pow_zero, Nat.div_one, pow_zero, div_one]
  have hten : 10 ≤ 10 ^ d.scale := Nat.le_self_pow hscale 10
  have hquot : d.mantissa / 10 ^ d.scale ≤ d.mantissa / 10 := Nat.div_le_div_left hten (by decide)
  have hmant := hd.mantissa_le
  simp only [maxMantissa] at *
  omega

theorem value_nonneg (h : d.negative = false) : 0 ≤ d.value := by
  unfold value
  rw [h]
  exact magnitude_nonneg d

theorem value_nonpos (h : d.negative = true) : d.value ≤ 0 := by
  unfold value
  rw [h]
  exact neg_nonpos.mpr (magnitude_nonneg d)

theorem floor_spec (hd : d.Valid) : ∃ r, d.floor = pure r ∧ r.scale = 0 ∧ r.value = ⌊d.value⌋ := by
  obtain ⟨t, hrun, hs, hm, hval⟩ := truncate_spec d
  unfold floor
  rw [hrun, pure_bind]
  cases hneg : d.negative with
  | false =>
    refine ⟨t, rfl, hs, ?_⟩
    rw [hval, integerPart_of_nonneg (value_nonneg hneg)]
  | true =>
    have hfloor := floor_of_nonpos (value_nonpos hneg)
    simp only [if_true, ne_truncate hd hs hm, pure_bind, decide_eq_true_eq]
    by_cases heq : t.value = d.value
    · grind
    · obtain ⟨r, hdec, hrs, hrv⟩ := decrement_integer hs (lt_max_of_ne hd hm hval heq)
      refine ⟨r, by rw [if_pos heq, hdec], hrs, ?_⟩
      rw [hfloor, if_neg (hval ▸ heq), hrv, hval]
      push_cast
      rfl

theorem ceiling_spec (hd : d.Valid) :
    ∃ r, d.ceiling = pure r ∧ r.scale = 0 ∧ r.value = ⌈d.value⌉ := by
  obtain ⟨t, hrun, hs, hm, hval⟩ := truncate_spec d
  unfold ceiling
  rw [hrun, pure_bind]
  cases hneg : d.negative with
  | false =>
    have hceil := ceil_of_nonneg (value_nonneg hneg)
    simp only [Bool.not_false, if_true, ne_truncate hd hs hm, pure_bind, decide_eq_true_eq]
    by_cases heq : t.value = d.value
    · grind
    · obtain ⟨r, hinc, hrs, hrv⟩ := increment_integer hs (lt_max_of_ne hd hm hval heq)
      refine ⟨r, by rw [if_pos heq, hinc], hrs, ?_⟩
      rw [hceil, if_neg (hval ▸ heq), hrv, hval]
      push_cast
      rfl
  | true =>
    refine ⟨t, rfl, hs, ?_⟩
    have hpart := integerPart_neg (-d.value)
    rw [neg_neg, integerPart_of_nonneg (neg_nonneg.mpr (value_nonpos hneg)), Int.floor_neg,
      neg_neg] at hpart
    rw [hval, hpart]

/-- **Rounding.**  For every convention and every number of places up to 28, `Round` returns
the multiple of a unit of the last place that the convention prescribes; it returns its
operand when that has no more places, keeps the value of one that needs none, and changes
nothing the second time.  `Floor`, `Ceiling` and `Truncate` are those of the value. -/
theorem rounds_value (hd : d.Valid) :
    (∀ decimals mode convention, Accepted decimals mode convention →
      ∃ r, d.round decimals mode = pure r ∧ r.Valid ∧
        (∃ n : ℤ, Rounds convention (d.value * 10 ^ places decimals) n ∧
          r.value = n / 10 ^ places decimals) ∧
        (d.scale ≤ places decimals → r = d) ∧
        ((∃ n : ℤ, d.value = n / 10 ^ places decimals) → r.value = d.value) ∧
        r.round decimals mode = pure r) ∧
    (∃ r, d.floor = pure r ∧ r.Valid ∧ r.value = ⌊d.value⌋) ∧
    (∃ r, d.ceiling = pure r ∧ r.Valid ∧ r.value = ⌈d.value⌉) ∧
    ∃ r, d.truncate = pure r ∧ r.Valid ∧ r.value = integerPart d.value := by
  refine ⟨fun decimals mode convention h => ?_, ?_, ?_, ?_⟩
  · obtain ⟨r, n, hrun, hscale, hn, hval⟩ := round_rounds h hd
    refine ⟨r, hrun, (round_ensures hd decimals mode).of_eq_pure hrun, ⟨n, hn, hval⟩, ?_, ?_,
      round_of_le h hscale⟩
    · intro hle
      exact Run.pure_inj.mp (hrun.symm.trans (round_of_le h hle))
    · rintro ⟨z, hz⟩
      have hpow : (10 : ℚ) ^ places decimals ≠ 0 := by positivity
      have hunits : d.value * 10 ^ places decimals = (z : ℤ) := by
        rw [hz, div_mul_cancel₀ _ hpow]
      rw [hunits] at hn
      rw [hval, Rounds.unique hn (rounds_intCast convention z), hz]
  · obtain ⟨r, hrun, -, hval⟩ := floor_spec hd
    exact ⟨r, hrun, (floor_ensures hd).of_eq_pure hrun, hval⟩
  · obtain ⟨r, hrun, -, hval⟩ := ceiling_spec hd
    exact ⟨r, hrun, (ceiling_ensures hd).of_eq_pure hrun, hval⟩
  · obtain ⟨t, hrun, -, -, hval⟩ := truncate_spec d
    exact ⟨t, hrun, (truncate_ensures hd).of_eq_pure hrun, hval⟩

/-- Rounding `-2.5`: down to `-3`, and to one place unchanged. -/
theorem rounds_value_half :
    (∃ r, (⟨25, 1, true⟩ : Decimal).floor = pure r ∧ r.value = -3) ∧
      (⟨25, 1, true⟩ : Decimal).round 1 0 = pure ⟨25, 1, true⟩ := by
  obtain ⟨hround, ⟨r, hrun, -, hval⟩, -⟩ := rounds_value (d := ⟨25, 1, true⟩) (by decide)
  refine ⟨⟨r, hrun, ?_⟩, ?_⟩
  · rw [hval]
    norm_num [value]
  · obtain ⟨s, hrun', -, -, hsame, -⟩ := hround 1 0 .toEven (by decide)
    rw [hrun', hsame (by decide)]

end SharpRuntime.Analysis.DecimalRounding
