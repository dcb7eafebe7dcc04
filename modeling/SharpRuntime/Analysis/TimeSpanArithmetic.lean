import SharpRuntime.Model.TimeSpan

/-!
# Arithmetic on spans of time

Each operation gives the exact number of ticks or throws (`ExactOr`), though no two of them look for
the overflow in the same way.  The constructor from components lets its total wrap before it looks
at the range (`ofComponents_eq`), so it does so where the total is a word (`ofComponents_exact`).
-/

set_option autoImplicit false

namespace SharpRuntime.Analysis.TimeSpanArithmetic

open Machine Model Model.TimeSpan

def IsTicks (n : ℤ) : Prop := -2 ^ 63 ≤ n ∧ n < 2 ^ 63

instance (n : ℤ) : Decidable (IsTicks n) := inferInstanceAs (Decidable (_ ∧ _))

/-- The exact number of ticks where that is a word, and the exception where it is not. -/
def ExactOr (fault : Exception) (exact : ℤ) (x : Run Exception TimeSpan) : Prop :=
  (IsTicks exact → ∃ t, x = pure t ∧ t.ticks.toInt = exact) ∧
    (¬ IsTicks exact → x = Run.throwing fault)

section Operations

variable {fault : Exception} {n : ℤ}

theorem ExactOr.of_isTicks {t : TimeSpan} (h : t.ticks.toInt = n) :
    ExactOr fault n (pure t) := by
  refine ⟨fun _ => ⟨t, rfl, h⟩, fun hn => absurd ?_ hn⟩
  exact h ▸ ⟨t.ticks.le_toInt, t.ticks.toInt_lt⟩

theorem ExactOr.of_not {x : Run Exception TimeSpan} (h : ¬ IsTicks n)
    (hx : x = Run.throwing fault) : ExactOr fault n x :=
  ⟨fun hn => absurd hn h, fun _ => hx⟩

theorem ExactOr.of_signed (h : IsTicks n) :
    ExactOr fault n (do let ticks ← Run.signed 64 n; pure ⟨Int64.ofInt ticks⟩) := by
  rw [Run.signed_eq_pure (by decide) h.1 h.2, pure_bind]
  exact ExactOr.of_isTicks (Int64.toInt_ofInt_of_le h.1 h.2)

variable (x ts : TimeSpan)

theorem overflowsAbove_eq :
    x.overflowsAbove ts = pure (decide (2 ^ 63 ≤ x.ticks.toInt + ts.ticks.toInt)) := by
  have hxhi := x.ticks.toInt_lt
  have hhi := ts.ticks.toInt_lt
  have hmax : Int64.maxValue.toInt = 2 ^ 63 - 1 := by decide
  rw [overflowsAbove, hmax]
  by_cases hpos : 0 < ts.ticks.toInt
  · rw [if_pos hpos, Run.signed_eq_pure (by decide) (by omega) (by omega), pure_bind, Run.pure_inj,
      decide_eq_decide]
    omega
  · simp [hpos, Run.pure_inj]
    omega

theorem overflowsBelow_eq :
    x.overflowsBelow ts = pure (decide (x.ticks.toInt + ts.ticks.toInt < -2 ^ 63)) := by
  have hxlo := x.ticks.le_toInt
  have hlo := ts.ticks.le_toInt
  have hmin : Int64.minValue.toInt = -2 ^ 63 := by decide
  rw [overflowsBelow, hmin]
  by_cases hneg : ts.ticks.toInt < 0
  · rw [if_pos hneg, Run.signed_eq_pure (by decide) (by omega) (by omega), pure_bind, Run.pure_inj,
      decide_eq_decide]
    omega
  · simp [hneg, Run.pure_inj]
    omega

theorem add_exact : ExactOr durationTooLong (x.ticks.toInt + ts.ticks.toInt) (x.add ts) := by
  rw [TimeSpan.add, overflowsAbove_eq, overflowsBelow_eq, pure_bind]
  by_cases habove : 2 ^ 63 ≤ x.ticks.toInt + ts.ticks.toInt
  · rw [decide_eq_true habove, if_pos rfl, pure_bind, if_pos rfl]
    exact ExactOr.of_not (fun h => by have := h.2; omega) rfl
  · rw [decide_eq_false habove, if_neg (by decide), pure_bind]
    by_cases hbelow : x.ticks.toInt + ts.ticks.toInt < -2 ^ 63
    · rw [decide_eq_true hbelow, if_pos rfl]
      exact ExactOr.of_not (fun h => by have := h.1; omega) rfl
    · rw [decide_eq_false hbelow, if_neg (by decide)]
      exact ExactOr.of_signed ⟨by omega, by omega⟩

theorem ticks_eq_minValue_iff : x.ticks = minValue.ticks ↔ ¬ IsTicks (-x.ticks.toInt) := by
  have hlo := x.ticks.le_toInt
  have hhi := x.ticks.toInt_lt
  have hmin : minValue.ticks.toInt = -2 ^ 63 := by decide
  rw [← Int64.toInt_inj, hmin]
  unfold IsTicks
  omega

theorem negate_exact : ExactOr noNegationOfMinValue (-x.ticks.toInt) x.negate := by
  rw [negate]
  by_cases hmin : x.ticks = minValue.ticks
  · rw [if_pos hmin]
    exact ExactOr.of_not ((ticks_eq_minValue_iff x).mp hmin) rfl
  · rw [if_neg hmin]
    exact ExactOr.of_signed (by_contra fun h => hmin ((ticks_eq_minValue_iff x).mpr h))

theorem duration_exact : ExactOr noDurationOfMinValue |x.ticks.toInt| x.duration := by
  rw [duration]
  by_cases hmin : x.ticks = minValue.ticks
  · rw [if_pos hmin]
    refine ExactOr.of_not ?_ rfl
    rw [hmin]
    decide
  · rw [if_neg hmin]
    by_cases hsign : 0 ≤ x.ticks.toInt
    · rw [if_pos hsign]
      exact ExactOr.of_isTicks (abs_of_nonneg hsign).symm
    · rw [if_neg hsign, abs_of_neg (by omega)]
      exact ExactOr.of_signed (by_contra fun h => hmin ((ticks_eq_minValue_iff x).mpr h))

theorem shiftRight_eq_iff (a b : Int64) :
    a >>> (63 : Int64) = b >>> (63 : Int64) ↔ (a.toInt < 0 ↔ b.toInt < 0) := by
  have hsign : ∀ c : Int64, (c >>> (63 : Int64)).toInt = c.toInt / 2 ^ 63 := by
    intro c
    rw [← Int64.toInt_toBitVec, Int64.toBitVec_shiftRight, BitVec.sshiftRight_eq',
      BitVec.toInt_sshiftRight, Int.shiftRight_eq_div_pow]
    rfl
  have halo := a.le_toInt
  have hahi := a.toInt_lt
  have hblo := b.le_toInt
  have hbhi := b.toInt_lt
  rw [← Int64.toInt_inj, hsign, hsign]
  omega

theorem subtract_exact :
    ExactOr durationTooLong (x.ticks.toInt - ts.ticks.toInt) (x.subtract ts) := by
  have hxlo := x.ticks.le_toInt
  have hxhi := x.ticks.toInt_lt
  have hlo := ts.ticks.le_toInt
  have hhi := ts.ticks.toInt_lt
  have hresult : (x.ticks.toUInt64 - ts.ticks.toUInt64).toInt64.toInt =
      (x.ticks.toInt - ts.ticks.toInt).bmod (2 ^ 64) := by simp
  have hbmod := Int.bmod_def (x.ticks.toInt - ts.ticks.toInt) (2 ^ 64)
  simp only [subtract, ne_eq, shiftRight_eq_iff, hresult]
  by_cases hfits : IsTicks (x.ticks.toInt - ts.ticks.toInt)
  · have hexact : (x.ticks.toInt - ts.ticks.toInt).bmod (2 ^ 64) =
        x.ticks.toInt - ts.ticks.toInt := Int.bmod_eq_of_le hfits.1 hfits.2
    rw [if_neg (by rw [hexact]; omega)]
    exact ExactOr.of_isTicks (hresult.trans hexact)
  · refine ExactOr.of_not hfits ?_
    unfold IsTicks at hfits
    rw [if_pos (by omega)]

end Operations

def totalOf (days hours minutes seconds milliseconds microseconds : Int32) : ℤ :=
  (((days.toInt * 24 + hours.toInt) * 60 + minutes.toInt) * 60 + seconds.toInt) * 1000000 +
    milliseconds.toInt * 1000 + microseconds.toInt

def componentsTooLong : Exception :=
  .argumentOutOfRange "" "TimeSpan overflowed because the duration is too long."

def FitsMicroseconds (n : ℤ) : Prop := minMicroSeconds.toInt ≤ n ∧ n ≤ maxMicroSeconds.toInt

instance (n : ℤ) : Decidable (FitsMicroseconds n) := inferInstanceAs (Decidable (_ ∧ _))

section Components

variable (days hours minutes seconds milliseconds microseconds : Int32)

theorem totalMicroseconds_eq :
    (((days.toInt64.toUInt64 * 86400 + hours.toInt64.toUInt64 * 3600 +
      minutes.toInt64.toUInt64 * 60 + seconds.toInt64.toUInt64) * 1000 +
      milliseconds.toInt64.toUInt64) * 1000 + microseconds.toInt64.toUInt64).toInt64 =
    Int64.ofInt (totalOf days hours minutes seconds milliseconds microseconds) := by
  have hcast : ∀ c : Int32, c.toInt64 = Int64.ofInt c.toInt := fun _ => rfl
  have hliteral : (86400 : UInt64).toInt64 = Int64.ofInt 86400 ∧
      (3600 : UInt64).toInt64 = Int64.ofInt 3600 ∧ (60 : UInt64).toInt64 = Int64.ofInt 60 ∧
      (1000 : UInt64).toInt64 = Int64.ofInt 1000 := by decide
  simp only [UInt64.toInt64_add, UInt64.toInt64_mul, Int64.toInt64_toUInt64, hcast, hliteral,
    ← Int64.ofInt_add, ← Int64.ofInt_mul]
  congr 1
  unfold totalOf
  ring

theorem ofComponents_eq :
    let residue := (totalOf days hours minutes seconds milliseconds microseconds).bmod (2 ^ 64)
    (FitsMicroseconds residue → ∃ t : TimeSpan,
      ofComponents days hours minutes seconds milliseconds microseconds = pure t ∧
        t.ticks.toInt = residue * 10) ∧
    (¬ FitsMicroseconds residue →
      ofComponents days hours minutes seconds milliseconds microseconds =
        Run.throwing componentsTooLong) := by
  intro residue
  have hresult : (Int64.ofInt
      (totalOf days hours minutes seconds milliseconds microseconds)).toInt = residue :=
    Int64.toInt_ofInt
  have hmax : maxMicroSeconds.toInt = (2 ^ 63 - 1) / 10 := by decide
  have hmin : minMicroSeconds.toInt = -(2 ^ 63 / 10) := by decide
  rw [ofComponents, timeToTicks, totalMicroseconds_eq]
  simp only [Int64.lt_iff_toInt_lt, gt_iff_lt, hresult]
  unfold FitsMicroseconds
  constructor
  · intro hfits
    rw [if_neg (by omega), pure_bind, hresult, ticksPerMicrosecond,
      Run.signed_eq_pure (by decide) (by omega) (by omega), pure_bind]
    exact ⟨_, rfl, Int64.toInt_ofInt_of_le (by omega) (by omega)⟩
  · intro hfits
    rw [if_pos (by omega)]
    rfl

/-- Components whose total is in range give it exactly; others are refused. -/
theorem ofComponents_exact
    (htotal : IsTicks (totalOf days hours minutes seconds milliseconds microseconds)) :
    ExactOr componentsTooLong
      (totalOf days hours minutes seconds milliseconds microseconds * 10)
      (ofComponents days hours minutes seconds milliseconds microseconds) := by
  have hresidue : (totalOf days hours minutes seconds milliseconds microseconds).bmod (2 ^ 64) =
      totalOf days hours minutes seconds milliseconds microseconds :=
    Int.bmod_eq_of_le htotal.1 htotal.2
  have hmax : maxMicroSeconds.toInt = (2 ^ 63 - 1) / 10 := by decide
  have hmin : minMicroSeconds.toInt = -(2 ^ 63 / 10) := by decide
  have hcomponents := ofComponents_eq days hours minutes seconds milliseconds microseconds
  rw [hresidue] at hcomponents
  refine ⟨fun hfits => hcomponents.1 ?_, fun hfits => hcomponents.2 ?_⟩
  · unfold IsTicks at hfits
    constructor <;> omega
  · unfold IsTicks at hfits
    rintro ⟨hlo, hhi⟩
    omega

/-- **Integer arithmetic.**  Sums, differences, negatives and absolute values are exact, or throw
exactly where they are no number of ticks.  The constructor from components gives the residue of
the total number of microseconds, read as a signed word, or throws where that has no number of
ticks; where the total itself is a word, it is exact or throws. -/
theorem integer_arithmetic (x ts : TimeSpan) :
    (ExactOr durationTooLong (x.ticks.toInt + ts.ticks.toInt) (x.add ts) ∧
      ExactOr durationTooLong (x.ticks.toInt - ts.ticks.toInt) (x.subtract ts) ∧
      ExactOr noNegationOfMinValue (-x.ticks.toInt) x.negate ∧
      ExactOr noDurationOfMinValue |x.ticks.toInt| x.duration) ∧
    (let total := totalOf days hours minutes seconds milliseconds microseconds
      let made := ofComponents days hours minutes seconds milliseconds microseconds
      (FitsMicroseconds (total.bmod (2 ^ 64)) →
        ∃ t, made = pure t ∧ t.ticks.toInt = total.bmod (2 ^ 64) * 10) ∧
      (¬ FitsMicroseconds (total.bmod (2 ^ 64)) → made = Run.throwing componentsTooLong) ∧
      (IsTicks total → ExactOr componentsTooLong (total * 10) made)) := by
  have hcomponents := ofComponents_eq days hours minutes seconds milliseconds microseconds
  exact ⟨⟨add_exact x ts, subtract_exact x ts, negate_exact x, duration_exact x⟩,
    hcomponents.1, hcomponents.2,
    ofComponents_exact days hours minutes seconds milliseconds microseconds⟩

end Components

/-- More days than a word can count microseconds of give a third of a day, backwards: the
constructor neither throws nor is exact. -/
theorem components_wrap :
    ¬ ((∃ paramName message, ofComponents 213503982 0 0 0 0 0 =
        Run.throwing (.argumentOutOfRange paramName message)) ∨
      ∃ t, ofComponents 213503982 0 0 0 0 0 = pure t ∧
        t.ticks.toInt = totalOf 213503982 0 0 0 0 0 * 10) := by
  have hmade : ofComponents 213503982 0 0 0 0 0 = pure ⟨-289095516160⟩ := by decide
  rw [hmade]
  rintro (⟨paramName, message, h⟩ | ⟨t, ht, hticks⟩)
  · cases h
  · rw [Run.pure_inj] at ht
    rw [← ht] at hticks
    revert hticks
    decide

end SharpRuntime.Analysis.TimeSpanArithmetic
