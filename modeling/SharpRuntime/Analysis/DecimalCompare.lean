import SharpRuntime.Analysis.DecimalShortening

/-!
# Comparison of `Decimal`s

`operator==` and `operator<` compare aligned mantissas (Decimal.cpp:498-522).  Aligning rounds the
finer operand only when the coarser has no headroom, and then the coarser is the larger by far: the
two can meet at a single pair, `7922816251426433759354395034` and `2^96 - 1` one scale finer
(`alignedMantissa_compare`).  Away from it every comparison is one of values, and equal values have
equal hash codes.
-/

set_option autoImplicit false

namespace SharpRuntime.Analysis.DecimalCompare

open Machine Model Model.Decimal
open DecimalShortening

def noHeadroom : ℕ := 7922816251426433759354395034

theorem lt_mul_ten_iff (m : ℕ) : maxMantissa < m * 10 ↔ noHeadroom ≤ m := by
  simp only [maxMantissa, noHeadroom]
  omega

/-- The pair of mantissas that alignment makes equal although their values differ. -/
def Meet (a b : Scaled) : Prop :=
  a.mantissa = noHeadroom ∧ b.mantissa = maxMantissa ∧ b.scale = a.scale + 1

instance (a b : Scaled) : Decidable (Meet a b) := inferInstanceAs (Decidable (_ ∧ _))

theorem rounded_lt_or_meet {m n k t : ℕ} (hn : n ≤ maxMantissa) (ht : t ≠ 0)
    (hbig : maxMantissa < m * 10 ^ k * 10) :
    halfUp t n < m * 10 ^ k ∨ (m = noHeadroom ∧ n = maxMantissa ∧ k = 0 ∧ t = 1) := by
  rw [lt_mul_ten_iff] at hbig
  obtain ⟨t, rfl⟩ : ∃ u, t = u + 1 := ⟨t - 1, by omega⟩
  have hone : halfUp 1 n ≤ noHeadroom := by
    rw [halfUp_one]
    simp only [maxMantissa, noHeadroom] at *
    omega
  rw [halfUp_succ']
  by_cases hlt : halfUp t (halfUp 1 n) < m * 10 ^ k
  · exact Or.inl hlt
  · right
    -- no room is left: only one digit was dropped, and no zero was appended
    have ht0 : t = 0 := by
      by_contra hne
      obtain ⟨u, rfl⟩ : ∃ u, t = u + 1 := ⟨t - 1, by omega⟩
      rw [halfUp_succ'] at hlt
      have h1 := halfUp_le_self u (halfUp 1 (halfUp 1 n))
      have h2 : halfUp 1 (halfUp 1 n) < noHeadroom := by
        rw [halfUp_one (halfUp 1 n)]
        simp only [noHeadroom] at *
        omega
      omega
    subst ht0
    rw [halfUp_zero] at hlt
    have hm : m * 10 ^ k = noHeadroom := by omega
    have hk : k = 0 := by
      by_contra hne
      obtain ⟨u, rfl⟩ : ∃ u, k = u + 1 := ⟨k - 1, by omega⟩
      rw [pow_succ, ← Nat.mul_assoc] at hm
      simp only [noHeadroom] at hm
      omega
    subst hk
    refine ⟨by simpa using hm, ?_, rfl, rfl⟩
    rw [halfUp_one] at hlt
    simp only [maxMantissa, noHeadroom] at *
    omega

/-- Aligned mantissas compare as the values do, but for pairs that meet by rounding. -/
theorem alignedMantissa_compare {a b : Scaled} (hle : a.scale ≤ b.scale)
    (ha : a.mantissa ≤ maxMantissa) (hb : b.mantissa ≤ maxMantissa) :
    ((aligned a b).mantissa = (rounded a b).mantissa ↔
        a.mantissa * 10 ^ (b.scale - a.scale) = b.mantissa ∨ Meet a b) ∧
      ((aligned a b).mantissa < (rounded a b).mantissa ↔
        a.mantissa * 10 ^ (b.scale - a.scale) < b.mantissa) ∧
      ((rounded a b).mantissa < (aligned a b).mantissa ↔
        b.mantissa < a.mantissa * 10 ^ (b.scale - a.scale) ∧ ¬ Meet a b) := by
  obtain ⟨k, t, hkt, -, hA, hB, hfit, hstop⟩ := aligned_split hle ha
  rw [hA, hB, ← hkt]
  dsimp only
  by_cases ht : t = 0
  · subst ht
    -- a zero appended at the meeting pair would leave the 96 bits
    have hmeet : ¬ Meet a b := by
      rintro ⟨h1, h2, h3⟩
      obtain rfl : k = 1 := by omega
      rw [h1] at hfit
      exact absurd hfit (by decide)
    simp [hmeet]
  · have hbig := hstop ht
    have hexact : b.mantissa < a.mantissa * 10 ^ (k + t) := lt_mul_pow_of_stop hb ht hbig
    rcases rounded_lt_or_meet hb ht hbig with hlt | ⟨hm, hn, rfl, rfl⟩
    · have hmeet : ¬ Meet a b := by
        rintro ⟨h1, h2, h3⟩
        obtain ⟨rfl, rfl⟩ : k = 0 ∧ t = 1 := by omega
        rw [h1, h2] at hlt
        exact absurd hlt (by decide)
      refine ⟨?_, ?_, ?_⟩
      · grind
      · omega
      · exact ⟨fun _ => ⟨hexact, hmeet⟩, fun _ => hlt⟩
    · have hmeet : Meet a b := ⟨hm, hn, by omega⟩
      have heq : halfUp 1 b.mantissa = a.mantissa * 10 ^ 0 := by
        rw [hm, hn]
        decide
      rw [heq]
      refine ⟨⟨fun _ => Or.inr hmeet, fun _ => rfl⟩, ⟨fun h => by omega, fun h => by omega⟩, ?_⟩
      exact ⟨fun h => by omega, fun h => absurd hmeet h.2⟩

theorem div_pow_lt_iff {m n s s' : ℕ} (h : s ≤ s') :
    ((m : ℚ) / 10 ^ s < n / 10 ^ s' ↔ m * 10 ^ (s' - s) < n) ∧
      ((m : ℚ) / 10 ^ s = n / 10 ^ s' ↔ m * 10 ^ (s' - s) = n) ∧
      ((n : ℚ) / 10 ^ s' < m / 10 ^ s ↔ n < m * 10 ^ (s' - s)) := by
  have hup : (m : ℚ) / 10 ^ s = (m * 10 ^ (s' - s) : ℕ) / 10 ^ s' := by
    rw [div_pow_scale_up m s (s' - s), Nat.add_sub_cancel' h]
    push_cast
    rfl
  have hpos : (0 : ℚ) < 10 ^ s' := by positivity
  rw [hup, div_lt_div_iff_of_pos_right hpos, div_lt_div_iff_of_pos_right hpos,
    div_left_inj' hpos.ne']
  exact ⟨Nat.cast_lt, Nat.cast_inj, Nat.cast_lt⟩

def Confused (x y : Decimal) : Prop :=
  x.negative = y.negative ∧ x.mantissa = noHeadroom ∧ y.mantissa = maxMantissa ∧
    y.scale = x.scale + 1

instance (x y : Decimal) : Decidable (Confused x y) := inferInstanceAs (Decidable (_ ∧ _))

variable {x y : Decimal}

theorem alignScales_compare (hx : x.Valid) (hy : y.Valid) :
    ∃ a b : Scaled, alignScales ⟨x.mantissa, x.scale⟩ ⟨y.mantissa, y.scale⟩ = pure (a, b) ∧
      (x.negative = y.negative → (a.mantissa = b.mantissa ↔
        (x.mantissa : ℚ) / 10 ^ x.scale = y.mantissa / 10 ^ y.scale ∨ Confused x y ∨
          Confused y x)) ∧
      (x.negative = y.negative → (a.mantissa < b.mantissa ↔
        (x.mantissa : ℚ) / 10 ^ x.scale < y.mantissa / 10 ^ y.scale ∧ ¬ Confused y x)) ∧
      (x.negative = y.negative → (b.mantissa < a.mantissa ↔
        (y.mantissa : ℚ) / 10 ^ y.scale < x.mantissa / 10 ^ x.scale ∧ ¬ Confused x y)) := by
  rcases Nat.le_total x.scale y.scale with hle | hle
  · obtain ⟨heq, hlt, hgt⟩ := alignedMantissa_compare (a := ⟨x.mantissa, x.scale⟩)
      (b := ⟨y.mantissa, y.scale⟩) hle hx.mantissa_le hy.mantissa_le
    obtain ⟨vlt, veq, vgt⟩ := div_pow_lt_iff (m := x.mantissa) (n := y.mantissa) hle
    refine ⟨_, _, alignScales_of_le hle hy.scale_le hx.mantissa_le hy.mantissa_le, ?_, ?_, ?_⟩
    all_goals
      intro hsign
      have hmeet : Meet ⟨x.mantissa, x.scale⟩ ⟨y.mantissa, y.scale⟩ ↔ Confused x y := by
        simp [Meet, Confused, hsign]
      have hother : ¬ Confused y x := by
        rintro ⟨-, -, -, h⟩
        omega
    · grind
    · grind
    · rw [hgt, hmeet, vgt]
  · obtain ⟨heq, hlt, hgt⟩ := alignedMantissa_compare (a := ⟨y.mantissa, y.scale⟩)
      (b := ⟨x.mantissa, x.scale⟩) hle hy.mantissa_le hx.mantissa_le
    obtain ⟨vlt, veq, vgt⟩ := div_pow_lt_iff (m := y.mantissa) (n := x.mantissa) hle
    refine ⟨_, _, alignScales_of_ge hle hx.scale_le hx.mantissa_le hy.mantissa_le, ?_, ?_, ?_⟩
    all_goals
      intro hsign
      have hmeet : Meet ⟨y.mantissa, y.scale⟩ ⟨x.mantissa, x.scale⟩ ↔ Confused y x := by
        simp [Meet, Confused, hsign]
      have hother : ¬ Confused x y := by
        rintro ⟨-, -, -, h⟩
        omega
    · grind
    · rw [hgt, hmeet, vgt]
    · grind

theorem Confused.lt (h : Confused x y) :
    (y.mantissa : ℚ) / 10 ^ y.scale < x.mantissa / 10 ^ x.scale := by
  obtain ⟨-, hm, hn, hs⟩ := h
  rw [(div_pow_lt_iff (by omega)).2.2, hm, hn, hs, Nat.add_sub_cancel_left]
  decide

theorem magnitude_nonneg (x : Decimal) : (0 : ℚ) ≤ x.mantissa / 10 ^ x.scale := by positivity

theorem magnitude_eq_zero_iff (x : Decimal) :
    (x.mantissa : ℚ) / 10 ^ x.scale = 0 ↔ x.mantissa = 0 := by
  rw [← abs_value, abs_eq_zero, value_eq_zero_iff]

theorem eq_spec (hx : x.Valid) (hy : y.Valid) :
    ∃ b, x.eq y = pure b ∧
      (b = true ↔ x.value = y.value ∨ Confused x y ∨ Confused y x) := by
  unfold Decimal.eq
  by_cases hsign : x.negative = y.negative
  · obtain ⟨a, b, hrun, heq, -, -⟩ := alignScales_compare hx hy
    rw [if_neg (not_not.mpr hsign), hrun, pure_bind]
    refine ⟨_, rfl, ?_⟩
    rw [decide_eq_true_eq, heq hsign]
    unfold value
    rw [hsign]
    cases y.negative <;> simp
  · -- values of different signs are equal only at zero
    rw [if_pos hsign]
    refine ⟨_, rfl, ?_⟩
    have hconf : ¬ (Confused x y ∨ Confused y x) := by
      rintro (h | h)
      · exact hsign h.1
      · exact hsign h.1.symm
    have hX := magnitude_nonneg x
    have hY := magnitude_nonneg y
    rw [Bool.and_eq_true, decide_eq_true_eq, decide_eq_true_eq, ← magnitude_eq_zero_iff,
      ← magnitude_eq_zero_iff]
    unfold value
    cases hxn : x.negative <;> cases hyn : y.negative
    · exact absurd (hxn.trans hyn.symm) hsign
    · grind
    · grind
    · exact absurd (hxn.trans hyn.symm) hsign

theorem lt_spec (hx : x.Valid) (hy : y.Valid) :
    ∃ b, x.lt y = pure b ∧
      (b = true ↔ x.value < y.value ∧ ¬ Confused x y ∧ ¬ Confused y x) := by
  have hX := magnitude_nonneg x
  have hY := magnitude_nonneg y
  unfold Decimal.lt
  by_cases hsign : x.negative = y.negative
  · obtain ⟨a, b, hrun, -, hlt, hgt⟩ := alignScales_compare hx hy
    rw [if_neg (not_not.mpr hsign), hrun, pure_bind]
    refine ⟨_, rfl, ?_⟩
    unfold value
    rw [hsign]
    cases y.negative with
    | false =>
      simp only [Bool.false_eq_true, if_false]
      rw [decide_eq_true_eq, hlt hsign]
      constructor
      · rintro ⟨h1, h2⟩
        exact ⟨h1, fun h => absurd h1 h.lt.le.not_gt, h2⟩
      · rintro ⟨h1, -, h2⟩
        exact ⟨h1, h2⟩
    | true =>
      simp only [if_true]
      rw [decide_eq_true_eq, hgt hsign, neg_lt_neg_iff]
      constructor
      · rintro ⟨h1, h2⟩
        exact ⟨h1, h2, fun h => absurd h1 h.lt.le.not_gt⟩
      · rintro ⟨h1, h2, -⟩
        exact ⟨h1, h2⟩
  · -- the negative operand is the smaller, unless both are zero
    rw [if_pos hsign]
    refine ⟨_, rfl, ?_⟩
    have h1 : ¬ Confused x y := fun h => hsign h.1
    have h2 : ¬ Confused y x := fun h => hsign h.1.symm
    have hx0 := magnitude_eq_zero_iff x
    have hy0 := magnitude_eq_zero_iff y
    unfold value
    cases hxn : x.negative <;> cases hyn : y.negative
    · exact absurd (hxn.trans hyn.symm) hsign
    · grind
    · grind
    · exact absurd (hxn.trans hyn.symm) hsign

theorem stripZeros_spec (m s : ℕ) :
    (stripZeros m s).2 ≤ s ∧ m = (stripZeros m s).1 * 10 ^ (s - (stripZeros m s).2) ∧
      ((stripZeros m s).2 = 0 ∨ (stripZeros m s).1 % 10 ≠ 0) := by
  induction s generalizing m with
  | zero => simp [stripZeros]
  | succ s ih =>
    rw [stripZeros]
    by_cases h0 : m % 10 = 0
    · obtain ⟨hle, hm, hstop⟩ := ih (m / 10)
      rw [if_pos h0]
      refine ⟨by omega, ?_, hstop⟩
      rw [Nat.succ_sub hle, pow_succ, ← Nat.mul_assoc, ← hm]
      omega
    · simp [h0]

theorem stripZeros_eq {m n s s' : ℕ} (h : (m : ℚ) / 10 ^ s = n / 10 ^ s') :
    stripZeros m s = stripZeros n s' := by
  obtain ⟨hs, hm, hstop⟩ := stripZeros_spec m s
  obtain ⟨hs', hn, hstop'⟩ := stripZeros_spec n s'
  generalize stripZeros m s = p at *
  generalize stripZeros n s' = q at *
  obtain ⟨p1, p2⟩ := p
  obtain ⟨q1, q2⟩ := q
  have hval : (p1 : ℚ) / 10 ^ p2 = q1 / 10 ^ q2 := by
    have hp := div_pow_scale_up p1 p2 (s - p2)
    have hq := div_pow_scale_up q1 q2 (s' - q2)
    rw [Nat.add_sub_cancel' hs] at hp
    rw [Nat.add_sub_cancel' hs'] at hq
    rw [hp, hq]
    rw [hm, hn] at h
    push_cast at h
    exact h
  -- a remaining zero would have been stripped
  have hnot : ∀ {a b i j : ℕ}, i < j → (j = 0 ∨ b % 10 ≠ 0) →
      (a : ℚ) / 10 ^ i ≠ b / 10 ^ j := by
    intro a b i j hij hb heq
    rw [(div_pow_lt_iff hij.le).2.1] at heq
    obtain ⟨e, he⟩ : ∃ e, j - i = e + 1 := ⟨j - i - 1, by omega⟩
    rw [he, pow_succ, ← Nat.mul_assoc] at heq
    omega
  rcases Nat.lt_trichotomy p2 q2 with hlt | rfl | hlt
  · exact absurd hval (hnot hlt hstop')
  · have hpos : (10 : ℚ) ^ p2 ≠ 0 := by positivity
    rw [div_left_inj' hpos] at hval
    rw [Nat.cast_inj.mp hval]
  · exact absurd hval.symm (hnot hlt hstop)

theorem getHashCode_eq (hash : StdHash) (h : x.value = y.value) :
    x.getHashCode hash = y.getHashCode hash := by
  have habs : (x.mantissa : ℚ) / 10 ^ x.scale = y.mantissa / 10 ^ y.scale := by
    rw [← abs_value, ← abs_value, h]
  have hstrip := stripZeros_eq habs
  -- the sign enters only for a nonzero value
  have hneg : (x.negative && decide ((stripZeros x.mantissa x.scale).1 ≠ 0)) =
      (y.negative && decide ((stripZeros y.mantissa y.scale).1 ≠ 0)) := by
    by_cases hz : (stripZeros y.mantissa y.scale).1 = 0
    · rw [hstrip]
      simp [hz]
    · have hy0 : 0 < (y.mantissa : ℚ) / 10 ^ y.scale := by
        have hm := (stripZeros_spec y.mantissa y.scale).2.1
        have hne : y.mantissa ≠ 0 := by
          intro h0
          rw [h0, eq_comm, Nat.mul_eq_zero] at hm
          rcases hm with hm | hm
          · rw [h0] at hz
            exact hz hm
          · exact absurd hm (by positivity)
        have : (y.mantissa : ℚ) / 10 ^ y.scale ≠ 0 := by rwa [ne_eq, magnitude_eq_zero_iff]
        exact lt_of_le_of_ne (magnitude_nonneg y) this.symm
      have hsign : x.negative = y.negative := by grind [value]
      rw [hstrip, hsign]
  unfold getHashCode
  generalize stripZeros x.mantissa x.scale = p at *
  subst hstrip
  dsimp only at hneg ⊢
  rw [hneg]

/-- The comparisons of two operands are comparisons of their values, and equal operands have
equal hash codes. -/
def ComparesByValue (hash : StdHash) (x y : Decimal) : Prop :=
  (∃ b, x.eq y = pure b ∧ (b = true ↔ x.value = y.value)) ∧
  (∃ b, x.lt y = pure b ∧ (b = true ↔ x.value < y.value)) ∧
  (∃ b, x.le y = pure b ∧ (b = true ↔ x.value ≤ y.value)) ∧
  (∃ c, x.compareTo y = pure c ∧ (c = -1 ↔ x.value < y.value) ∧ (c = 0 ↔ x.value = y.value) ∧
    (c = 1 ↔ y.value < x.value)) ∧
  (x.eq y = pure true → x.getHashCode hash = y.getHashCode hash)

theorem compareTo_spec (hx : x.Valid) (hy : y.Valid) (h : ¬ (Confused x y ∨ Confused y x)) :
    ∃ c, x.compareTo y = pure c ∧ (c = -1 ↔ x.value < y.value) ∧ (c = 0 ↔ x.value = y.value) ∧
      (c = 1 ↔ y.value < x.value) := by
  obtain ⟨e, herun, he⟩ := eq_spec hx hy
  obtain ⟨l, hlrun, hl⟩ := lt_spec hx hy
  rw [not_or] at h
  simp only [h.1, h.2, or_false, not_false_eq_true, and_true] at he hl
  unfold compareTo
  rw [herun, pure_bind]
  cases e with
  | true =>
    have heq := he.mp rfl
    refine ⟨0, rfl, ?_⟩
    simp [heq]
  | false =>
    have hne : x.value ≠ y.value := fun heq => by simpa using he.mpr heq
    rw [hlrun, pure_bind]
    refine ⟨_, rfl, ?_⟩
    cases l with
    | true =>
      have hlt := hl.mp rfl
      simp [hlt, hne, hlt.le]
    | false => grind

/-- **Comparison.**  Two valid operands compare by value, and equal ones hash alike, except
for one pair of mantissas at each scale: `7922816251426433759354395034` against `2^96 - 1` one
scale finer, with the same sign. -/
theorem comparesByValue_iff (hash : StdHash) (hx : x.Valid) (hy : y.Valid) :
    ComparesByValue hash x y ↔ ¬ (Confused x y ∨ Confused y x) := by
  obtain ⟨e, herun, he⟩ := eq_spec hx hy
  constructor
  · -- a confused pair is reported equal although its values differ
    rintro ⟨⟨b, hb, hbv⟩, -⟩ hconf
    have hbe : b = e := Run.pure_inj.mp (hb.symm.trans herun)
    have heq : x.value = y.value := by grind
    have habs : (x.mantissa : ℚ) / 10 ^ x.scale = y.mantissa / 10 ^ y.scale := by
      rw [← abs_value, ← abs_value, heq]
    rcases hconf with h | h
    · exact h.lt.ne habs.symm
    · exact h.lt.ne habs
  · intro h
    obtain ⟨l, hlrun, hl⟩ := lt_spec hx hy
    obtain ⟨g, hgrun, hg⟩ := lt_spec hy hx
    have h' := not_or.mp h
    simp only [h'.1, h'.2, or_false, not_false_eq_true, and_true] at he hl hg
    refine ⟨⟨e, herun, he⟩, ⟨l, hlrun, hl⟩, ⟨!g, ?_, ?_⟩, compareTo_spec hx hy h, ?_⟩
    · unfold le
      rw [hgrun, pure_bind]
    · rw [Bool.not_eq_true', ← Bool.not_eq_true, hg, not_lt]
    · intro htrue
      apply getHashCode_eq
      rw [← he]
      exact Run.pure_inj.mp (herun.symm.trans htrue)

def identityHash : StdHash := ⟨id, UInt8.toUInt64, fun b => if b then 1 else 0⟩

/-- The comparison theorem at a negative zero and a positive one. -/
theorem comparesByValue_zero :
    ComparesByValue identityHash ⟨0, 3, true⟩ ⟨0, 0, false⟩ ↔
      ¬ (Confused ⟨0, 3, true⟩ ⟨0, 0, false⟩ ∨ Confused ⟨0, 0, false⟩ ⟨0, 3, true⟩) :=
  comparesByValue_iff identityHash (by decide) (by decide)

/-- `7922816251426433759354395034` and `7922816251426433759354395033.5` are valid and
compare equal. -/
theorem comparesByValue_confused :
    (⟨7922816251426433759354395034, 0, false⟩ : Decimal).Valid ∧
      (⟨79228162514264337593543950335, 1, false⟩ : Decimal).Valid ∧
      ¬ ComparesByValue identityHash ⟨7922816251426433759354395034, 0, false⟩
        ⟨79228162514264337593543950335, 1, false⟩ := by
  refine ⟨by decide, by decide, ?_⟩
  rintro ⟨⟨b, hb, hbv⟩, -⟩
  have hrun : (⟨7922816251426433759354395034, 0, false⟩ : Decimal).eq
      ⟨79228162514264337593543950335, 1, false⟩ = pure true := by decide
  rw [Run.pure_inj.mp (hb.symm.trans hrun)] at hbv
  have heq := hbv.mp rfl
  norm_num [value] at heq

end SharpRuntime.Analysis.DecimalCompare
