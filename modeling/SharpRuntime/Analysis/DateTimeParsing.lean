import SharpRuntime.Analysis.DateTimeScanning

/-!
# What `DateTime::TryParse` accepts

A text is accepted exactly where it belongs to the grammar and its parts are a date of the calendar
and a time of day, and the value then has these parts (`tryParse_grammar`).  The scanner is the
grammar (`DateTimeScanning.lean`); what is left is the construction of the value, which throws on
any other parts (`dateToTicks_throws`).
-/

set_option autoImplicit false
set_option maxRecDepth 20000

namespace SharpRuntime.Analysis.DateTimeParsing

open Machine Machine.Gregorian Machine.Scan Model Model.DateTime
open Interface DateTimeCalendar
open DateTimeArithmetic DateTimeScanning

def dateOf {parts : DateTimeParts} (h : ValidParts parts) : Date where
  year := parts.year
  month := parts.month
  day := parts.day
  year_pos := h.year_pos
  month_pos := h.month_pos
  month_le := h.month_le
  day_pos := h.day_pos
  day_le := h.day_le

variable {parts : DateTimeParts}

/-- Parts that are no date and time are refused. -/
theorem dateToTicks_throws (h : ¬ ValidParts parts)
    (hhour : parts.hour < 2 ^ 32) (hminute : parts.minute < 2 ^ 32) (hsecond : parts.second < 2 ^ 32) :
    ∃ e, dateToTicks parts.year parts.month parts.day parts.hour parts.minute parts.second 0 =
      Run.throwing e := by
  rw [dateToTicks]
  split
  case isTrue => exact ⟨_, rfl⟩
  case isFalse hdate =>
    have hprev : ((parts.month : ℤ) - 1).toNat = parts.month - 1 := by omega
    have hstart := daysToMonth_getD parts.year _ (show 1 ≤ parts.month by omega) (by omega)
    have hnext := daysToMonth_getD parts.year (parts.month + 1) (by omega) (by omega)
    rw [Nat.add_sub_cancel, daysBeforeMonth_succ parts.year (by omega)] at hnext
    simp only [isLeap_natCast, Int.toNat_natCast, hprev, hstart, hnext]
    split
    case isTrue => exact ⟨_, rfl⟩
    case isFalse hday =>
      rw [wrap_of_lt hhour, wrap_of_lt hminute, wrap_of_lt hsecond]
      refine ⟨_, if_pos ?_⟩
      by_contra htime
      exact h ⟨by omega, by omega, by omega, by omega, by omega, by omega, by omega, by omega, by omega⟩

theorem partsText_bounds {l : List Char} (h : PartsText l parts) :
    parts.hour < 100 ∧ parts.minute < 100 ∧ parts.second < 100 ∧
      parts.fractionTicks < ticksPerSecond := by
  have htwo : ∀ {l : List Char} {n : ℕ}, Field 1 2 l n → n < 100 := fun {l n} hfield =>
    calc n < 10 ^ l.length := hfield.lt
      _ ≤ 10 ^ 2 := Nat.pow_le_pow_right (by decide) hfield.le_hi
  cases h with
  | date hdate => exact ⟨by simp, by simp, by simp, by simp [ticksPerSecond]⟩
  | clock hdate hsep hclock =>
    obtain ⟨h, m, s, f, -, hh, hm, hs, hf⟩ := hclock
    refine ⟨htwo hh, htwo hm, htwo hs, ?_⟩
    rcases hf with ⟨-, hticks⟩ | ⟨f, n, -, hn, hticks⟩
    · simp only [hticks]
      decide
    · simp only [hticks]
      calc n * 10 ^ (7 - f.length)
          < 10 ^ f.length * 10 ^ (7 - f.length) :=
            Nat.mul_lt_mul_of_pos_right hn.lt (Nat.pow_pos (by decide))
        _ = 10 ^ 7 := by rw [← pow_add, Nat.add_sub_cancel' hn.le_hi]

def valueOf {parts : DateTimeParts} (h : ValidParts parts) : DateTime :=
  packed (ticksOf (dateOf h) parts.hour parts.minute parts.second 0 + parts.fractionTicks) 0

theorem valueOf_bound (h : ValidParts parts) (hfraction : parts.fractionTicks < ticksPerSecond) :
    ticksOf (dateOf h) parts.hour parts.minute parts.second 0 + parts.fractionTicks ≤ maxTicks := by
  have hday := dayNumber_lt (d := dateOf h) h.year_le
  have hhour := h.hour_lt
  have hminute := h.minute_lt
  have hsecond := h.second_lt
  simp only [ticksOf, ticksPerDay, ticksPerHour, ticksPerMinute, ticksPerSecond,
    ticksPerMillisecond, maxTicks] at hfraction ⊢
  omega

theorem valueOf_components (h : ValidParts parts)
    (hfraction : parts.fractionTicks < ticksPerSecond) :
    (valueOf h).ticks ≤ maxTicks ∧ (valueOf h).kindBits = 0 ∧
      (valueOf h).getYearProperty = parts.year ∧ (valueOf h).getMonthProperty = parts.month ∧
      (valueOf h).getDayProperty = parts.day ∧ (valueOf h).getHourProperty = parts.hour ∧
      (valueOf h).getMinuteProperty = parts.minute ∧ (valueOf h).getSecondProperty = parts.second ∧
      (valueOf h).ticks % ticksPerSecond = parts.fractionTicks := by
  have hbound := valueOf_bound h hfraction
  have hlt := lt_of_le_of_lt hbound maxTicks_lt
  have hticks : (valueOf h).ticks =
      ticksOf (dateOf h) parts.hour parts.minute parts.second 0 + parts.fractionTicks :=
    ticks_packed hlt (by decide)
  have hsplit : (valueOf h).ticks = (dateOf h).dayNumber * ticksPerDay + parts.hour * ticksPerHour
      + parts.minute * ticksPerMinute + parts.second * ticksPerSecond + parts.fractionTicks := by
    rw [hticks, ticksOf, Nat.zero_mul, Nat.add_zero]
  obtain ⟨hday, hhour, hminute, hsecond, hrest⟩ :=
    ticks_parts h.hour_lt h.minute_lt h.second_lt hfraction hsplit
  have hdate : (valueOf h).date = dateOf h := by
    rw [DateTime.date, hday, Date.ofDayNumber_dayNumber]
  have htm := toTm_eq (valueOf h)
  refine ⟨by rw [hticks]; exact hbound, kindBits_packed hlt (by decide), ?_, ?_, ?_, ?_, ?_, ?_, ?_⟩
  · rw [getYearProperty, htm, sub_add_cancel, hdate]
    rfl
  · rw [getMonthProperty, htm, sub_add_cancel, hdate]
    rfl
  · rw [getDayProperty, htm, hdate]
    rfl
  · exact congrArg Nat.cast hhour
  · exact congrArg Nat.cast hminute
  · exact congrArg Nat.cast hsecond
  · exact hrest

theorem tryParse_valid {s : List Char} (hparse : parseParts s = some parts)
    (h : ValidParts parts) (hfraction : parts.fractionTicks < ticksPerSecond) :
    tryParse s = pure (true, valueOf h) := by
  have hbound := valueOf_bound h hfraction
  have hticks := dateToTicks_date (d := dateOf h) h.year_le h.hour_lt h.minute_lt h.second_lt
    (by decide : 0 < 1000)
  have hmax : maxTicks < 2 ^ 63 := by decide
  simp only [Nat.cast_zero] at hticks
  rw [tryParse, hparse]
  change Run.catching (dateToTicks (dateOf h).year (dateOf h).month (dateOf h).day parts.hour
    parts.minute parts.second 0 >>= _) _ = _
  rw [hticks, pure_bind, ← Nat.cast_add, Run.signed_eq_pure (by decide) (by omega) (by omega),
    pure_bind, ofTicks_eq hbound, pure_bind, Run.catching_pure, valueOf]

/-- **`tryParse` accepts the grammar.**  A text of the grammar whose parts are a date and a time of
day gives the value with exactly these parts; every other text is refused, and leaves the earliest
date. -/
theorem tryParse_grammar (s : List Char) :
    (∀ parts zone, DateTimeText s parts zone → ValidParts parts →
      ∃ y, tryParse s = pure (true, y) ∧ y.ticks ≤ maxTicks ∧ y.kindBits = 0 ∧
        y.getYearProperty = parts.year ∧ y.getMonthProperty = parts.month ∧
        y.getDayProperty = parts.day ∧ y.getHourProperty = parts.hour ∧
        y.getMinuteProperty = parts.minute ∧ y.getSecondProperty = parts.second ∧
        y.ticks % ticksPerSecond = parts.fractionTicks) ∧
    ((¬ ∃ parts zone, DateTimeText s parts zone ∧ ValidParts parts) →
      tryParse s = pure (false, minValue)) := by
  constructor
  · intro parts zone htext hvalid
    obtain ⟨_, body, _, _, _, _, _, hbody, _⟩ := id htext
    obtain ⟨-, -, -, hfraction⟩ := partsText_bounds hbody
    exact ⟨_, tryParse_valid (parseParts_iff.mpr ⟨zone, htext⟩) hvalid hfraction,
      valueOf_components hvalid hfraction⟩
  · intro hnone
    rw [tryParse]
    cases hparse : parseParts s with
    | none => rfl
    | some parts =>
      obtain ⟨zone, htext⟩ := parseParts_iff.mp hparse
      obtain ⟨_, body, _, _, _, _, _, hbody, _⟩ := id htext
      obtain ⟨hhour, hminute, hsecond, -⟩ := partsText_bounds hbody
      have hbad : ¬ ValidParts parts := fun h => hnone ⟨parts, zone, htext, h⟩
      obtain ⟨e, he⟩ := dateToTicks_throws hbad (by omega) (by omega) (by omega)
      simp only [he]
      rfl

/-- The last of February of 2024, with a zone. -/
theorem tryParse_grammar_leap :
    ∃ y, tryParse "2024-2-29Z".toList = pure (true, y) ∧ y.getDayProperty = 29 := by
  have hyear : Scan.Field 4 4 "2024".toList 2024 :=
    Scan.field_fixed (le_refl 4) (le_refl 4) (by decide : 2024 < 10 ^ 4)
  have hmonth : Scan.Field 1 2 "2".toList 2 :=
    Scan.field_fixed (le_refl 1) (by decide) (by decide : 2 < 10 ^ 1)
  have hday : Scan.Field 1 2 "29".toList 29 :=
    Scan.field_fixed (by decide) (le_refl 2) (by decide : 29 < 10 ^ 2)
  have htext : DateTimeText "2024-2-29Z".toList { year := 2024, month := 2, day := 29 } (some 0) :=
    ⟨[], "2024-2-29".toList, ['Z'], [], rfl, by simp, by simp,
      .date ⟨"2024".toList, "2".toList, "29".toList, rfl, hyear, hmonth, hday⟩, .utc (Or.inl rfl)⟩
  obtain ⟨y, hy, -, -, -, -, hday, -⟩ := (tryParse_grammar "2024-2-29Z".toList).1 _ _ htext
    ⟨by decide, by decide, by decide, by decide, by decide, by decide, by decide, by decide, by decide⟩
  exact ⟨y, hy, hday⟩

/-- One-digit fields, three digits of offset, and white space around them. -/
example : (tryParse " 2024-2-9T7:05:3.5+800\n".toList).outcome =
    .returned (true, ⟨638430591035000000⟩) := by decide

end SharpRuntime.Analysis.DateTimeParsing
