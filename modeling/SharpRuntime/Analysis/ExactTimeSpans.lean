import SharpRuntime.Model.TimeSpan

/-!
# The ticks of an exactly parsed `TimeSpan`

`tryParseExact` forms the sum of the components in signed 64-bit arithmetic.  Below `2 ^ 63` the sum
is exact (`exactTicks_eq`); from there on some step overflows (`exactTicks_overflows`), and the
parser still reports success (`exact_iff`).  `parse` and `tryParse` form the sum in unsigned
arithmetic and compare it with the limit.
-/

set_option autoImplicit false

namespace SharpRuntime.Analysis.ExactTimeSpans

open Machine Model Model.TimeSpan

def total (fields : ExactTimeSpanFields) : ℕ :=
  fields.days * ticksPerDay + fields.hours * ticksPerHour + fields.minutes * ticksPerMinute +
    fields.seconds * ticksPerSecond + fields.fractionTicks

def exactTotal (styles : TimeSpanStyles) (fields : ExactTimeSpanFields) : ℤ :=
  if styles = .assumeNegative then -(total fields : ℤ) else total fields

variable {n : ℕ}

theorem signed_of_lt (h : n < 2 ^ 63) : (Run.signed 64 (n : ℤ) : Run Exception ℤ) = pure (n : ℤ) :=
  Run.signed_eq_pure (by decide) (by omega) (by omega)

variable {fields : ExactTimeSpanFields}

/-- Below `2 ^ 63` no step overflows. -/
theorem exactTicks_eq (styles : TimeSpanStyles)
    (h : total fields < 2 ^ 63) : exactTicks styles fields = pure (exactTotal styles fields) := by
  unfold total at h
  have hneg : (Run.signed 64 (-1 * (total fields : ℤ)) : Run Exception ℤ) =
      pure (-1 * (total fields : ℤ)) :=
    Run.signed_eq_pure (by decide) (by unfold total; omega) (by unfold total; omega)
  simp only [exactTicks, ← Nat.cast_mul]
  rw [signed_of_lt (by omega), pure_bind, signed_of_lt (by omega), pure_bind, ← Nat.cast_add,
    signed_of_lt (by omega), pure_bind, signed_of_lt (by omega), pure_bind, ← Nat.cast_add,
    signed_of_lt (by omega), pure_bind, signed_of_lt (by omega), pure_bind, ← Nat.cast_add,
    signed_of_lt (by omega), pure_bind, ← Nat.cast_add, signed_of_lt (by omega), pure_bind]
  change Run.signed 64 ((if styles = .assumeNegative then -1 else 1) * (total fields : ℤ)) = _
  rw [exactTotal]
  split
  case isTrue => rw [hneg, neg_one_mul]
  case isFalse => rw [one_mul, signed_of_lt (by unfold total; omega)]

theorem signed_bind_not_clean {α : Type} {f : ℤ → Run Exception α}
    (h : n < 2 ^ 63 → (f n).clean = false) : (Run.signed 64 (n : ℤ) >>= f).clean = false := by
  grind [signed_of_lt, Run.signed, Run.clean_bind_of_not]

/-- From `2 ^ 63` on some step overflows, and there is an answer all the same. -/
theorem exactTicks_overflows (styles : TimeSpanStyles) (h : ¬ total fields < 2 ^ 63) :
    (exactTicks styles fields).clean = false ∧
      ∃ ticks, (exactTicks styles fields).outcome = .returned ticks := by
  refine ⟨?_, _, rfl⟩
  refine signed_bind_not_clean fun _ => signed_bind_not_clean fun _ => ?_
  refine signed_bind_not_clean fun _ => signed_bind_not_clean fun _ => ?_
  refine signed_bind_not_clean fun _ => signed_bind_not_clean fun _ => ?_
  refine signed_bind_not_clean fun _ => ?_
  exact signed_bind_not_clean fun hlt => absurd hlt h

variable {styles : TimeSpanStyles}

theorem validateTimeSpanStyles_eq
    (h : styles = .none ∨ styles = .assumeNegative) : validateTimeSpanStyles styles = pure () := by
  rcases h with rfl | rfl <;> rfl

theorem tryParseExact_custom {format : List Char} (hformat : 2 ≤ format.length)
    (hstyles : styles = .none ∨ styles = .assumeNegative)
    (input : List Char) :
    tryParseExact input format styles =
      match matchExactTimeSpanFormat input format with
      | none => pure (false, ⟨0⟩)
      | some fields => exactTicks styles fields >>= fun ticks => pure (true, ⟨Int64.ofInt ticks⟩) := by
  grind [tryParseExact, validateTimeSpanStyles_eq]

/-- The duration returned is the exact one, formed without overflow, and a duration of no 64-bit
number of ticks is refused. -/
structure ExactlyTimed (input format : List Char) (styles : TimeSpanStyles) : Prop where
  accepted : ∀ y, (tryParseExact input format styles).outcome = .returned (true, y) →
    (tryParseExact input format styles).clean = true ∧
      ∃ fields, matchExactTimeSpanFormat input format = some fields ∧
        y.ticks.toInt = exactTotal styles fields
  refused : ∀ fields, matchExactTimeSpanFormat input format = some fields →
    ¬ (-2 ^ 63 ≤ exactTotal styles fields ∧ exactTotal styles fields < 2 ^ 63) →
      ∃ y, (tryParseExact input format styles).outcome = .returned (false, y)

/-- **The duration is right exactly where its components are short of `2 ^ 63` ticks.** -/
theorem exact_iff (input format : List Char) (styles : TimeSpanStyles)
    (hformat : 2 ≤ format.length) (hstyles : styles = .none ∨ styles = .assumeNegative) :
    ExactlyTimed input format styles ↔
      ∀ fields, matchExactTimeSpanFormat input format = some fields → total fields < 2 ^ 63 := by
  have hrun := tryParseExact_custom hformat hstyles input
  constructor
  · intro h fields hfields
    by_contra hover
    rw [hfields] at hrun
    obtain ⟨hclean, ticks, hticks⟩ := exactTicks_overflows styles hover
    have hout : (tryParseExact input format styles).outcome =
        .returned (true, ⟨Int64.ofInt ticks⟩) := by
      rw [hrun]
      change (Run.andThen _ _).outcome = _
      rw [Run.andThen, hticks]
      rfl
    have hbad := (h.accepted _ hout).1
    rw [hrun, Run.clean_bind_of_not hclean] at hbad
    cases hbad
  · intro h
    cases hmatch : matchExactTimeSpanFormat input format with
    | none =>
      rw [hmatch] at hrun
      refine ⟨fun y hy => ?_, fun fields hfields => ?_⟩
      · rw [hrun] at hy
        cases hy
      · rw [hmatch] at hfields
        cases hfields
    | some fields =>
      have hlt := h fields hmatch
      have hrange : -2 ^ 63 ≤ exactTotal styles fields ∧ exactTotal styles fields < 2 ^ 63 := by
        rw [exactTotal]
        split
        all_goals omega
      rw [hmatch] at hrun
      simp only [exactTicks_eq styles hlt, pure_bind] at hrun
      refine ⟨fun y hy => ?_, fun fields' hfields' hout => ?_⟩
      · rw [hrun, Run.outcome_pure, Outcome.returned.injEq, Prod.mk.injEq] at hy
        obtain ⟨-, rfl⟩ := hy
        refine ⟨by rw [hrun]; rfl, fields, hmatch, ?_⟩
        exact Int64.toInt_ofInt_of_le (by omega) (by omega)
      · grind

/-- The largest duration. -/
theorem exact_iff_max : ExactlyTimed "10675199.02:48:05.4775807".toList
    "d\\.hh\\:mm\\:ss\\.fffffff".toList .none := by
  refine (exact_iff _ _ _ (by decide) (Or.inl rfl)).mpr fun fields hfields => ?_
  have hmatch : matchExactTimeSpanFormat "10675199.02:48:05.4775807".toList
      "d\\.hh\\:mm\\:ss\\.fffffff".toList = some ⟨10675199, 2, 48, 5, 4775807⟩ := by decide +kernel
  rw [hmatch, Option.some.injEq] at hfields
  rw [← hfields]
  decide

/-- One tick more is accepted, with a sum that has overflowed; `tryParse` refuses it. -/
theorem not_exact :
    ¬ ExactlyTimed "10675199.02:48:05.4775808".toList "d\\.hh\\:mm\\:ss\\.fffffff".toList .none ∧
      (tryParseExact "10675199.02:48:05.4775808".toList "d\\.hh\\:mm\\:ss\\.fffffff".toList
        .none).outcome = .returned (true, ⟨-9223372036854775808⟩) ∧
      (TimeSpan.tryParse "10675199.02:48:05.4775808".toList ⟨0⟩).outcome = .returned (false, ⟨0⟩) := by
  have hmatch : matchExactTimeSpanFormat "10675199.02:48:05.4775808".toList
      "d\\.hh\\:mm\\:ss\\.fffffff".toList = some ⟨10675199, 2, 48, 5, 4775808⟩ := by decide +kernel
  have hrun : (tryParseExact "10675199.02:48:05.4775808".toList
      "d\\.hh\\:mm\\:ss\\.fffffff".toList .none).outcome =
        .returned (true, ⟨-9223372036854775808⟩) := by decide +kernel
  refine ⟨fun h => ?_, hrun, by decide +kernel⟩
  obtain ⟨y, hy⟩ := h.refused _ hmatch (by decide)
  rw [hrun] at hy
  cases hy

end SharpRuntime.Analysis.ExactTimeSpans
