import SharpRuntime.Model.GregorianCalendar
import SharpRuntime.Analysis.DateTimeArithmetic

/-!
# The months of `GregorianCalendar`

`GregorianCalendar` adds months by a flat count of the months from the year 1 and builds the result
from its components, the seconds being the last one.  So it answers what `DateTime` answers, but for
the part of the time of day below a second (`addMonths_exact`).
-/

set_option autoImplicit false

namespace SharpRuntime.Analysis.GregorianMonths

open Machine Machine.Gregorian Model Model.DateTime
open DateTimeCalendar DateTimeArithmetic

def Throws {α : Type} (r : Run Exception α) : Prop := ∃ e, r = Run.throwing e

theorem not_throws_pure {α : Type} (a : α) : ¬ Throws (pure a : Run Exception α) := by
  rintro ⟨e, h⟩
  cases congrArg Run.outcome h

theorem isLeapYear_natCast (year : ℕ) : GregorianCalendar.isLeapYear year = leap year := by
  have hmod (n : ℤ) : (year : ℤ).tmod n = year % n := Int.tmod_eq_emod_of_nonneg (by omega)
  rw [GregorianCalendar.isLeapYear, Bool.eq_iff_iff, leap_eq_true, hmod, hmod, hmod]
  simp only [Bool.or_eq_true, decide_eq_true_eq]
  omega

theorem getDaysInMonth_eq {year month : ℕ} (hm : 1 ≤ month) (hm' : month ≤ 12) :
    GregorianCalendar.getDaysInMonth year month = pure (monthLength year month : ℤ) := by
  rw [GregorianCalendar.getDaysInMonth, if_neg (by omega), isLeapYear_natCast]
  interval_cases month
  all_goals simp [monthLength]
  split <;> rfl

/-- What an addition of months does: the result has the shifted date, and the time of day without
the part below a second. -/
def MonthsWhole (x : DateTime) (months : ℤ) (r : Run Exception DateTime) : Prop :=
  (∃ d, x.date.addMonths months = some d ∧ d.year ≤ 9999 ∧
    r = pure (packed (d.dayNumber * ticksPerDay + (x.ticks % ticksPerDay -
      x.ticks % ticksPerSecond)) 0)) ∨
  ((∀ d, x.date.addMonths months = some d → 9999 < d.year) ∧ Throws r)

theorem ofComponents_throws {year : ℤ} (h : year < 1 ∨ year > 9999)
    (month day hour minute second millisecond : ℤ) :
    Throws (DateTime.ofComponents year month day hour minute second millisecond) := by
  rw [DateTime.ofComponents, dateToTicks, if_pos (by omega)]
  exact ⟨_, rfl⟩

variable (x : DateTime)

theorem addMonths_before {total : ℤ} (h : total < 0) :
    Throws (GregorianCalendar.getDaysInMonth (total.tdiv 12 + 1) (total.tmod 12 + 1) >>= fun days =>
      DateTime.ofComponents (total.tdiv 12 + 1) (total.tmod 12 + 1) (min x.getDayProperty days)
        x.getHourProperty x.getMinuteProperty x.getSecondProperty 0) := by
  have hmod := Int.mul_tdiv_add_tmod total 12
  rw [GregorianCalendar.getDaysInMonth]
  by_cases hmonth : total.tmod 12 + 1 < 1 ∨ total.tmod 12 + 1 > 12
  · rw [if_pos hmonth]
    exact ⟨_, rfl⟩
  · have hyear : total.tdiv 12 + 1 < 1 ∨ total.tdiv 12 + 1 > 9999 := by omega
    rw [if_neg hmonth]
    split
    all_goals
      rw [pure_bind]
      exact ofComponents_throws hyear _ _ _ _ _ _

variable {months : ℤ}

/-- `addMonths` shifts the date and drops the part of the time below a second. -/
theorem addMonths_exact (hlo : -120000 ≤ months) (hhi : months ≤ 120000) :
    MonthsWhole x months (GregorianCalendar.addMonths x months) := by
  obtain ⟨hy, hm, hd⟩ := components_eq x
  have hpos := x.date.month_pos
  have htotal : (x.getYearProperty - 1) * 12 + (x.getMonthProperty - 1) + months =
      x.date.monthIndex + months - 12 := by
    rw [hy, hm, Date.monthIndex]
    omega
  rw [GregorianCalendar.addMonths, if_neg (by omega)]
  simp only [htotal]
  by_cases hfirst : (x.date.monthIndex : ℤ) + months < 12
  · refine Or.inr ⟨fun d hsome => ?_, addMonths_before x (by omega)⟩
    have hindex := (Date.addMonths_eq_some hsome).1
    have hyear := d.year_pos
    unfold Date.monthIndex at hindex hfirst
    omega
  · obtain ⟨d, hsome⟩ := Date.exists_addMonths (not_lt.mp hfirst)
    obtain ⟨hindex, hday⟩ := Date.addMonths_eq_some hsome
    have hmonth := d.month_pos
    have hmonth' := d.month_le
    have hyear : ((x.date.monthIndex : ℤ) + months - 12).tdiv 12 + 1 = d.year := by
      unfold Date.monthIndex at hindex
      rw [Int.tdiv_eq_ediv_of_nonneg (by omega)]
      omega
    have hmonths : ((x.date.monthIndex : ℤ) + months - 12).tmod 12 + 1 = d.month := by
      unfold Date.monthIndex at hindex
      rw [Int.tmod_eq_emod_of_nonneg (by omega)]
      omega
    have hmin : min x.getDayProperty (monthLength d.year d.month : ℤ) = (d.day : ℤ) := by
      rw [hd, hday]
      push_cast
      rfl
    rw [hyear, hmonths, getDaysInMonth_eq hmonth hmonth', pure_bind, hmin]
    by_cases hlast : d.year ≤ 9999
    · have hticks := dateToTicks_date (d := d) hlast (hourOf_lt x.ticks) (minuteOf_lt x.ticks)
        (secondOf_lt x.ticks) (by decide : 0 < 1000)
      have hsplit := ticks_split x.ticks
      have hwhole : ticksOf d (hourOf x.ticks) (minuteOf x.ticks) (secondOf x.ticks) 0 =
          d.dayNumber * ticksPerDay + (x.ticks % ticksPerDay - x.ticks % ticksPerSecond) := by
        have hdiv := Nat.div_add_mod x.ticks ticksPerDay
        rw [ticksOf]
        rw [Nat.mul_comm] at hdiv
        omega
      rw [hwhole] at hticks
      refine Or.inl ⟨d, hsome, hlast, ?_⟩
      refine (congrArg (· >>= _) hticks).trans ?_
      rw [pure_bind, BitVec.ofInt_natCast, packed, Nat.zero_mul, Nat.zero_add]
    · refine Or.inr ⟨fun e he => ?_, ofComponents_throws (by omega) _ _ _ _ _ _⟩
      obtain rfl := Option.some.inj (hsome.symm.trans he)
      omega

/-- The calendar throws where `DateTime` does, and answers its instant with no kind elsewhere. -/
def AgreesWithDateTime (x : DateTime) (months : ℤ) : Prop :=
  (Throws (x.addMonths months) ∧ Throws (GregorianCalendar.addMonths x months)) ∨
  ∃ y r, x.addMonths months = pure y ∧ GregorianCalendar.addMonths x months = pure r ∧
    r.ticks = y.ticks ∧ r.getKindProperty = DateTimeKind.unspecified

theorem agrees_iff {x : DateTime} (hx : x.ticks ≤ maxTicks) (hlo : -120000 ≤ months)
    (hhi : months ≤ 120000) : AgreesWithDateTime x months ↔
      x.ticks % ticksPerSecond = 0 ∨ Throws (x.addMonths months) := by
  rcases DateTimeArithmetic.addMonths_exact hx months with ⟨d, hd, hyear, hr⟩ | ⟨hnone, hr⟩ <;>
    rcases addMonths_exact x hlo hhi with ⟨e, he, hyear', hr'⟩ | ⟨hnone', hr'⟩
  · obtain rfl := Option.some.inj (hd.symm.trans he)
    have hsum := ticksOfDay_le hyear x.ticks
    have hmax := maxTicks_lt
    have hle : x.ticks % ticksPerSecond ≤ x.ticks % ticksPerDay := by
      unfold ticksPerSecond ticksPerDay
      omega
    have hthrows : ¬ Throws (x.addMonths months) := hr ▸ not_throws_pure _
    have hwhole : d.dayNumber * ticksPerDay + (x.ticks % ticksPerDay -
        x.ticks % ticksPerSecond) < 2 ^ 62 := by omega
    constructor
    · rintro (⟨hfail, -⟩ | ⟨y, r, hy, hr'', hticks, -⟩)
      · exact absurd hfail hthrows
      · obtain rfl := Run.pure_inj.mp (hr.symm.trans hy)
        obtain rfl := Run.pure_inj.mp (hr'.symm.trans hr'')
        rw [ticks_packed hwhole (by decide), ticks_packed (by omega) x.kindBits_lt] at hticks
        exact Or.inl (by omega)
    · rintro (hzero | hfail)
      · refine Or.inr ⟨_, _, hr, hr', ?_, (getKindProperty_eq _ (Nat.zero_le 2)).mpr
        (by rw [kindBits_packed hwhole (by decide)]; rfl)⟩
        rw [ticks_packed hwhole (by decide), ticks_packed (by omega) x.kindBits_lt, hzero,
          Nat.sub_zero]
      · exact absurd hfail hthrows
  · exact absurd (hnone' d hd) (by omega)
  · exact absurd (hnone e he) (by omega)
  · exact iff_of_true (Or.inl ⟨hr, hr'⟩) (Or.inr hr)

theorem addYears_cases (years : ℤ) :
    GregorianCalendar.addYears x years = GregorianCalendar.addMonths x (12 * years) ∨
      (Throws (GregorianCalendar.addYears x years) ∧
        Throws (GregorianCalendar.addMonths x (12 * years)) ∧ 10000 < |years|) := by
  rw [GregorianCalendar.addYears]
  split
  case isTrue hfar =>
    refine Or.inr ⟨⟨_, rfl⟩, ?_, lt_abs.mpr (by omega)⟩
    rw [GregorianCalendar.addMonths, if_pos (by omega)]
    exact ⟨_, rfl⟩
  case isFalse hnear => exact Or.inl (by rw [mul_comm])

/-- **The calendar adds months like `DateTime`, down to a second**: it agrees exactly where the
time of day is in whole seconds, or the sum is refused by both.  Years are added as twelve months
each, and nothing is refused by only one of the two. -/
theorem gregorian_addMonths (x : DateTime) (hx : x.Valid) :
    (∀ months : ℤ, -120000 ≤ months → months ≤ 120000 → (AgreesWithDateTime x months ↔
      x.ticks % ticksPerSecond = 0 ∨ Throws (x.addMonths months))) ∧
    (∀ months : ℤ, -120000 ≤ months → months ≤ 120000 →
      (Throws (GregorianCalendar.addMonths x months) ↔ Throws (x.addMonths months))) ∧
    ∀ years : ℤ, GregorianCalendar.addYears x years =
      GregorianCalendar.addMonths x (12 * years) ∨ (Throws (GregorianCalendar.addYears x years) ∧
        Throws (GregorianCalendar.addMonths x (12 * years)) ∧ 10000 < |years|) := by
  refine ⟨fun months hlo hhi => agrees_iff hx.ticks_le hlo hhi, fun months hlo hhi => ?_,
    addYears_cases x⟩
  rcases DateTimeArithmetic.addMonths_exact hx.ticks_le months with
    ⟨d, hd, hyear, hr⟩ | ⟨hnone, hr⟩ <;>
    rcases addMonths_exact x hlo hhi with ⟨e, he, hyear', hr'⟩ | ⟨hnone', hr'⟩
  · rw [hr, hr']
    exact iff_of_false (not_throws_pure _) (not_throws_pure _)
  · exact absurd (hnone' d hd) (by omega)
  · exact absurd (hnone e he) (by omega)
  · exact iff_of_true hr' hr

/-- One tick after the first midnight: the sum with no months is the midnight. -/
theorem not_agrees_tick : (⟨1⟩ : DateTime).Valid ∧ ¬ AgreesWithDateTime ⟨1⟩ 0 ∧
    GregorianCalendar.addMonths ⟨1⟩ 0 = pure ⟨0⟩ := by
  have hcalendar : GregorianCalendar.addMonths ⟨1⟩ 0 = pure ⟨0⟩ := by decide +kernel
  refine ⟨⟨by decide, by decide⟩, ?_, hcalendar⟩
  rintro (⟨-, hfail⟩ | ⟨y, r, hy, hr, hticks, -⟩)
  · exact not_throws_pure _ (hcalendar ▸ hfail)
  · have hdate : (⟨1⟩ : DateTime).addMonths 0 = pure ⟨1⟩ := by decide +kernel
    obtain rfl := Run.pure_inj.mp (hdate.symm.trans hy)
    obtain rfl := Run.pure_inj.mp (hcalendar.symm.trans hr)
    exact absurd hticks (by decide)

/-- The theorem one tick after the first midnight. -/
theorem gregorian_addMonths_tick :
    (AgreesWithDateTime ⟨1⟩ 5 ↔ (⟨1⟩ : DateTime).ticks % ticksPerSecond = 0 ∨
      Throws ((⟨1⟩ : DateTime).addMonths 5)) :=
  (gregorian_addMonths ⟨1⟩ ⟨by decide, by decide⟩).1 5 (by decide) (by decide)

end SharpRuntime.Analysis.GregorianMonths
