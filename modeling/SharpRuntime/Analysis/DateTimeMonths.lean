import SharpRuntime.Analysis.DateTimeArithmetic

/-!
# Months of a `DateTime`

The month `12 * year + (month - 1)` of a value and the months to add make a number whose quotient
and remainder by twelve are the year and the month of the result (`addMonths_cases`), with the day
cut to the length of that month.  The laws of an addition of months follow (`month_arithmetic`), but
not that it keeps the order of instants (`not_monotone`).
-/

set_option autoImplicit false

namespace SharpRuntime.Analysis.DateTimeMonths

open Machine Machine.Gregorian Model Model.DateTime
open DateTimeCalendar DateTimeArithmetic

/-- The number of the month an addition of months leads to, twelve to a year.
SOURCE: DateTime.cpp:328-335 -/
def targetMonth (x : DateTime) (months : ℤ) : ℤ :=
  12 * x.getYearProperty + (x.getMonthProperty - 1) + months

theorem targetMonth_eq (x : DateTime) (months : ℤ) :
    targetMonth x months = x.date.monthIndex + months := by
  have hm := x.date.month_pos
  obtain ⟨hyear, hmonth, -⟩ := components_eq x
  rw [targetMonth, hyear, hmonth, Date.monthIndex]
  omega

theorem components_of_monthIndex {d : Date} {t : ℤ} (h : (d.monthIndex : ℤ) = t) :
    (d.year : ℤ) = t / 12 ∧ (d.month : ℤ) = t % 12 + 1 := by
  have hm := d.month_pos
  have hm' := d.month_le
  unfold Date.monthIndex at h
  omega

theorem packed_date {d : Date} (hyear : d.year ≤ 9999) (x : DateTime) :
    (packed (d.dayNumber * ticksPerDay + x.ticks % ticksPerDay) x.kindBits).date = d ∧
      (packed (d.dayNumber * ticksPerDay + x.ticks % ticksPerDay) x.kindBits).ticks =
        d.dayNumber * ticksPerDay + x.ticks % ticksPerDay := by
  have hlt : d.dayNumber * ticksPerDay + x.ticks % ticksPerDay < 2 ^ 62 :=
    lt_of_le_of_lt (ticksOfDay_le hyear x.ticks) maxTicks_lt
  have hticks := ticks_packed hlt x.kindBits_lt
  refine ⟨?_, hticks⟩
  have hday : (d.dayNumber * ticksPerDay + x.ticks % ticksPerDay) / ticksPerDay = d.dayNumber := by
    simp only [ticksPerDay]
    omega
  rw [DateTime.date, hticks, hday, Date.ofDayNumber_dayNumber]

/-- What an addition of months returns: the date in the target month with the day cut to its
length, and the time of day and the kind of `x`. -/
structure Shifted (x : DateTime) (months : ℤ) (y : DateTime) : Prop where
  ticks_le : y.ticks ≤ maxTicks
  monthIndex_eq : (y.date.monthIndex : ℤ) = targetMonth x months
  day_eq : y.date.day = min x.date.day (monthLength y.date.year y.date.month)
  timeOfDay_eq : y.ticks % ticksPerDay = x.ticks % ticksPerDay
  kindBits_eq : y.kindBits = x.kindBits

variable {x : DateTime}

/-- Months are added within the years 1 to 9999, and refused outside of them. -/
theorem addMonths_cases (hx : x.ticks ≤ maxTicks) (months : ℤ) :
    (12 ≤ targetMonth x months ∧ targetMonth x months < 120000 ∧
      ∃ y, x.addMonths months = pure y ∧ Shifted x months y) ∨
    (¬ (12 ≤ targetMonth x months ∧ targetMonth x months < 120000) ∧
      ∃ e, x.addMonths months = Run.throwing e) := by
  rw [targetMonth_eq]
  rcases addMonths_exact hx months with ⟨d, hd, hyear, hr⟩ | ⟨hnone, hr⟩
  · obtain ⟨hindex, hday⟩ := Date.addMonths_eq_some hd
    have hy := d.year_pos
    have hm' := d.month_le
    obtain ⟨hdate, hticks⟩ := packed_date hyear x
    have hlt : d.dayNumber * ticksPerDay + x.ticks % ticksPerDay < 2 ^ 62 :=
      lt_of_le_of_lt (ticksOfDay_le hyear x.ticks) maxTicks_lt
    refine Or.inl ⟨?_, ?_, _, hr, ?_, ?_, ?_, ?_, ?_⟩
    · rw [← hindex, Date.monthIndex]
      omega
    · rw [← hindex, Date.monthIndex]
      omega
    · rw [hticks]
      exact ticksOfDay_le hyear x.ticks
    · rw [hdate, hindex, targetMonth_eq]
    · rw [hdate, hday]
    · rw [hticks]
      simp only [ticksPerDay]
      omega
    · exact kindBits_packed hlt x.kindBits_lt
  · refine Or.inr ⟨?_, hr⟩
    rintro ⟨hlo, hhi⟩
    obtain ⟨d, hd⟩ := Date.exists_addMonths hlo
    have hindex := (Date.addMonths_eq_some hd).1
    have hfar := hnone d hd
    unfold Date.monthIndex at hindex hhi
    omega

variable {y : DateTime} {months : ℤ}

theorem Shifted.of_returned (hx : x.ticks ≤ maxTicks)
    (h : x.addMonths months = pure y) : Shifted x months y := by
  rcases addMonths_cases hx months with ⟨-, -, z, hz, hshifted⟩ | ⟨-, e, he⟩
  · rw [h] at hz
    have hyz : y = z := by injection congrArg Run.outcome hz
    rw [hyz]
    exact hshifted
  · rw [h] at he
    cases congrArg Run.outcome he

theorem Shifted.ticks_eq (h : Shifted x months y) :
    y.ticks = y.date.dayNumber * ticksPerDay + x.ticks % ticksPerDay := by
  rw [dayNumber_date, ← h.timeOfDay_eq]
  simp only [ticksPerDay]
  omega

theorem Shifted.unique {z : DateTime} (hy : Shifted x months y)
    (hz : Shifted x months z) : y = z := by
  have hindex : y.date.monthIndex = z.date.monthIndex := by
    have h1 := hy.monthIndex_eq
    have h2 := hz.monthIndex_eq
    omega
  obtain ⟨hyear, hmonth⟩ := Date.monthIndex_eq_iff.mp hindex
  have hday : y.date.day = z.date.day := by rw [hy.day_eq, hz.day_eq, hyear, hmonth]
  have hdate : y.date = z.date := Date.ext hyear hmonth hday
  refine ext_ticks_kindBits ?_ (by rw [hy.kindBits_eq, hz.kindBits_eq])
  rw [hy.ticks_eq, hz.ticks_eq, hdate]

theorem addMonths_zero (hx : x.ticks ≤ maxTicks) : x.addMonths 0 = pure x := by
  have hself : Shifted x 0 x :=
    ⟨hx, by rw [targetMonth_eq, add_zero], by rw [min_eq_left x.date.day_le], rfl, rfl⟩
  have hyear := date_year_le hx
  have hpos := x.date.year_pos
  have hm := x.date.month_le
  rcases addMonths_cases hx 0 with ⟨-, -, y, hy, hshifted⟩ | ⟨hout, -⟩
  · rw [hy, hself.unique hshifted]
  · rw [targetMonth_eq, Date.monthIndex] at hout
    omega

theorem addMonths_add {z : DateTime} (hx : x.ticks ≤ maxTicks) (hday : x.date.day ≤ 28)
    {a b : ℤ} (hy : x.addMonths a = pure y) (hz : y.addMonths b = pure z) :
    x.addMonths (a + b) = pure z := by
  have hxy := Shifted.of_returned hx hy
  have hyz := Shifted.of_returned hxy.ticks_le hz
  have hyday : y.date.day = x.date.day := by
    rw [hxy.day_eq, min_eq_left (hday.trans (monthLength_ge _ _))]
  have hindex : (z.date.monthIndex : ℤ) = targetMonth x (a + b) := by
    rw [hyz.monthIndex_eq, targetMonth_eq, hxy.monthIndex_eq, targetMonth_eq, targetMonth_eq, add_assoc]
  have hxz : Shifted x (a + b) z :=
    ⟨hyz.ticks_le, hindex, by rw [hyz.day_eq, hyday], by rw [hyz.timeOfDay_eq, hxy.timeOfDay_eq],
      by rw [hyz.kindBits_eq, hxy.kindBits_eq]⟩
  rcases addMonths_cases hx (a + b) with ⟨-, -, w, hw, hshifted⟩ | ⟨hout, -⟩
  · rw [hw, hxz.unique hshifted]
  · have hyear := date_year_le hyz.ticks_le
    have hpos := z.date.year_pos
    have hm := z.date.month_le
    rw [← hindex, Date.monthIndex] at hout
    omega

/-- The day of `x` is cut, that of `x'` too, and the cut leaves the times of day in the wrong
order: the two are in one month, on different days. -/
def CutApart (x x' y : DateTime) : Prop :=
  x.getYearProperty = x'.getYearProperty ∧ x.getMonthProperty = x'.getMonthProperty ∧
    x.getDayProperty < x'.getDayProperty ∧
    (∃ dim, daysInMonth y.getYearProperty y.getMonthProperty = pure dim ∧ dim ≤ x.getDayProperty) ∧
    x'.ticks % ticksPerDay < x.ticks % ticksPerDay

theorem daysInMonth_date (hy : y.ticks ≤ maxTicks) :
    daysInMonth y.getYearProperty y.getMonthProperty =
      pure (monthLength y.date.year y.date.month : ℤ) := by
  obtain ⟨hyear, hmonth, -⟩ := components_eq y
  rw [hyear, hmonth, daysInMonth_eq ⟨y.date.year_pos, date_year_le hy⟩
    ⟨y.date.month_pos, y.date.month_le⟩]

theorem cutApart_iff {x' : DateTime} (hy : y.ticks ≤ maxTicks) :
    CutApart x x' y ↔ x.date.monthIndex = x'.date.monthIndex ∧ x.date.day < x'.date.day ∧
      monthLength y.date.year y.date.month ≤ x.date.day ∧
      x'.ticks % ticksPerDay < x.ticks % ticksPerDay := by
  obtain ⟨hyear, hmonth, hday⟩ := components_eq x
  obtain ⟨hyear', hmonth', hday'⟩ := components_eq x'
  have hdim : (∃ dim, daysInMonth y.getYearProperty y.getMonthProperty = pure dim ∧
      dim ≤ x.getDayProperty) ↔ monthLength y.date.year y.date.month ≤ x.date.day := by
    rw [daysInMonth_date hy, hday]
    constructor
    · rintro ⟨dim, heq, hle⟩
      have hval : (monthLength y.date.year y.date.month : ℤ) = dim := by
        injection congrArg Run.outcome heq
      omega
    · exact fun hle => ⟨_, rfl, by exact_mod_cast hle⟩
  rw [CutApart, hdim, hyear, hyear', hmonth, hmonth', hday, hday', Date.monthIndex_eq_iff]
  norm_cast
  tauto

theorem shifted_order {x' y' : DateTime} (hxy : Shifted x months y)
    (hxy' : Shifted x' months y') (hle : x.ticks ≤ x'.ticks) :
    y.ticks / ticksPerDay ≤ y'.ticks / ticksPerDay ∧ (y.ticks ≤ y'.ticks ↔ ¬ CutApart x x' y) := by
  have hday : x.date.dayNumber ≤ x'.date.dayNumber := by
    rw [dayNumber_date, dayNumber_date]
    exact Nat.div_le_div_right hle
  have hx := dayNumber_date x
  have hx' := dayNumber_date x'
  have hindex := hxy.monthIndex_eq
  have hindex' := hxy'.monthIndex_eq
  rw [targetMonth_eq] at hindex hindex'
  have hcut := hxy.day_eq
  have hcut' := hxy'.day_eq
  have hticks := hxy.ticks_eq
  have hticks' := hxy'.ticks_eq
  rw [cutApart_iff hxy.ticks_le, ← dayNumber_date, ← dayNumber_date]
  simp only [ticksPerDay] at hx hx' hticks hticks' ⊢
  rcases Date.dayNumber_le_iff.mp hday with hmonth | ⟨hmonth, hdays⟩
  · -- the months keep their order
    have hlt : y.date.dayNumber < y'.date.dayNumber :=
      Date.dayNumber_lt_of_monthIndex_lt (by omega)
    omega
  · -- in one month the days keep their order, unless both are cut
    have hsame : y.date.monthIndex = y'.date.monthIndex := by omega
    obtain ⟨hyear, hmonth'⟩ := Date.monthIndex_eq_iff.mp hsame
    have hxday := Date.dayNumber_add_day hmonth
    have hyday := Date.dayNumber_add_day hsame
    grind

/-- **Months are added by the calendar.**  An addition throws exactly where the target month is
not of the years 1 to 9999, and returns the target year and month otherwise, with the day cut to
the length of the month and the time of day and the kind unchanged.  Adding no months changes
nothing; on days up to the 28th two additions are one; and the order of two values is kept, but for
two of one month whose days are both cut with their times of day the other way round. -/
theorem month_arithmetic (x : DateTime) (hx : x.ticks ≤ maxTicks) :
    (∀ months : ℤ, -120000 ≤ months → months ≤ 120000 →
      ((∃ e, x.addMonths months = Run.throwing e) ↔
        ¬ (1 ≤ targetMonth x months / 12 ∧ targetMonth x months / 12 ≤ 9999)) ∧
      (1 ≤ targetMonth x months / 12 → targetMonth x months / 12 ≤ 9999 →
        ∃ y dim, x.addMonths months = pure y ∧ y.ticks ≤ maxTicks ∧
          daysInMonth (targetMonth x months / 12) (targetMonth x months % 12 + 1) = pure dim ∧
          y.getYearProperty = targetMonth x months / 12 ∧
          y.getMonthProperty = targetMonth x months % 12 + 1 ∧
          y.getDayProperty = min x.getDayProperty dim ∧
          y.ticks % ticksPerDay = x.ticks % ticksPerDay ∧ y.kindBits = x.kindBits)) ∧
    x.addMonths 0 = pure x ∧
    (∀ (a b : ℤ) (y z : DateTime), x.getDayProperty ≤ 28 → x.addMonths a = pure y →
      y.addMonths b = pure z → x.addMonths (a + b) = pure z) ∧
    ∀ (x' y y' : DateTime) (months : ℤ), x'.ticks ≤ maxTicks → x.ticks ≤ x'.ticks →
      x.addMonths months = pure y → x'.addMonths months = pure y' →
      y.ticks / ticksPerDay ≤ y'.ticks / ticksPerDay ∧
        (y.ticks ≤ y'.ticks ↔ ¬ CutApart x x' y) := by
  refine ⟨fun months _ _ => ?_, addMonths_zero hx, ?_, ?_⟩
  · generalize ht : targetMonth x months = t
    rcases addMonths_cases hx months with ⟨hlo, hhi, y, hy, hshifted⟩ | ⟨hout, e, he⟩
    · constructor
      · refine iff_of_false ?_ (by omega)
        rintro ⟨e, he⟩
        rw [hy] at he
        cases congrArg Run.outcome he
      · intro _ _
        obtain ⟨hyear, hmonth⟩ := components_of_monthIndex (hshifted.monthIndex_eq.trans ht)
        obtain ⟨hY, hM, hD⟩ := components_eq y
        have hdim := daysInMonth_date hshifted.ticks_le
        rw [hY, hM, hyear, hmonth] at hdim
        refine ⟨y, _, hy, hshifted.ticks_le, hdim, by rw [hY, hyear], by rw [hM, hmonth], ?_,
          hshifted.timeOfDay_eq, hshifted.kindBits_eq⟩
        rw [hD, hshifted.day_eq, (components_eq x).2.2]
        push_cast
        rfl
    · grind
  · intro a b y z hday hy hz
    rw [(components_eq x).2.2] at hday
    exact addMonths_add hx (by omega) hy hz
  · intro x' y y' months hx' hle hy hy'
    exact shifted_order (Shifted.of_returned hx hy) (Shifted.of_returned hx' hy') hle

/-- January 31 of 2024 goes to February 29. -/
theorem month_arithmetic_leap :
    ∃ y, (⟨638422560000000000⟩ : DateTime).addMonths 1 = pure y ∧ y.getDayProperty = 29 := by
  obtain ⟨y, dim, hy, -, hdim, -, -, hday, -⟩ :=
    ((month_arithmetic ⟨638422560000000000⟩ (by decide)).1 1 (by decide) (by decide)).2
      (by decide) (by decide)
  have hlength : (29 : ℤ) = dim := by
    injection congrArg Run.outcome hdim
  exact ⟨y, hy, by rw [hday, ← hlength]; decide⟩

/-- The 30th of January 2023 at 23:00 comes before the 31st at 01:00, and a month later it comes
after it. -/
theorem not_monotone :
    ¬ ∀ (x x' y y' : DateTime) (months : ℤ), x.ticks ≤ maxTicks → x'.ticks ≤ maxTicks →
      -120000 ≤ months → months ≤ 120000 → x.addMonths months = pure y →
      x'.addMonths months = pure y' → x.ticks ≤ x'.ticks → y.ticks ≤ y'.ticks := by
  intro h
  have hle := h ⟨638107164000000000⟩ ⟨638107236000000000⟩ ⟨638132220000000000⟩ ⟨638131428000000000⟩ 1
    (by decide) (by decide) (by decide) (by decide) (by decide) (by decide) (by decide)
  exact absurd hle (by decide)

end SharpRuntime.Analysis.DateTimeMonths
