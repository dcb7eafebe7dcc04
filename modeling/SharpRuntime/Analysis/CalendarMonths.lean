import SharpRuntime.Analysis.HijriDates
import SharpRuntime.Analysis.JulianDates

/-!
# The Hijri and the Julian calendar

Both convert every day that they support.  Neither looks at the year before it adds months: the
Hijri calendar answers most months before its first year with a day after it, and either refuses the
days of a month that a `DateTime` can be in when it cannot have them there.
-/

set_option autoImplicit false

namespace SharpRuntime.Analysis.CalendarMonths

open Machine Model Model.DateTime Interface
open HijriDates JulianDates

def hijriMin : Gregorian.Date :=
  ⟨622, 7, 18, by decide, by decide, by decide, by decide, by decide⟩

theorem dayNumber_hijriMin : hijriMin.dayNumber = 227013 := by
  have hclosed := DateTimeCalendar.dayNumber_closed hijriMin
  have hmonths : Gregorian.daysBeforeMonth 622 7 = 181 := by decide
  change (hijriMin.dayNumber : ℤ) = ((622 : ℕ) - 1) * 365 + ((622 : ℕ) - 1) / 4 -
    ((622 : ℕ) - 1) / 100 + ((622 : ℕ) - 1) / 400 + Gregorian.daysBeforeMonth 622 7 + (18 : ℕ) - 1
    at hclosed
  omega

theorem dayOf_lt {x : DateTime} (hx : x.Valid) : dayOf x < 3652059 := by
  have hticks := hx.ticks_le
  unfold dayOf
  unfold ticksPerDay maxTicks at *
  omega

theorem exists_hijriDate {n : ℕ} (hlo : 227013 ≤ n) (hhi : n < 3652059) :
    ∃ d : HijriDate.calendar.Date, d.dayNumber = n := by
  apply MonthCalendar.Date.exists_dayNumber
  · decide
  · change ((HijriDate.start 1 : ℕ) : ℤ) ≤ n
    have hstart : HijriDate.start 1 = 227013 := rfl
    omega
  · have hlast := HijriDates.isLast_lastDay.number
    exact (show (n : ℤ) ≤ _ by omega).trans_lt HijriDates.lastDay.dayNumber_lt

theorem exists_julianDate {n : ℕ} (hhi : n < 3652059) :
    ∃ d : JulianDate.calendar.Date, d.dayNumber = n := by
  apply MonthCalendar.Date.exists_dayNumber
  · decide
  · change JulianDate.start 1 ≤ n
    have hstart : JulianDate.start 1 = -2 := by decide
    omega
  · have hlast := JulianDates.isLast_lastDay.number
    exact (show (n : ℤ) ≤ _ by omega).trans_lt JulianDates.lastDay.dayNumber_lt

/-- **The Hijri and the Julian calendar convert the days that they support, and add months as they
should exactly when no year before the first is counted and no day is refused in a month that has
others.** -/
theorem hijri_julian_months (x : DateTime) (hx : x.Valid) :
    (hijriMin.dayNumber ≤ dayOf x → ∃ d : HijriDate.calendar.Date, hijriClass.Converts x d ∧
      ∀ months : ℤ, -120000 ≤ months → months ≤ 120000 →
        (hijriClass.AddsMonths x d months ↔ HijriDates.MonthsMet d months)) ∧
    ∃ d : JulianDate.calendar.Date, julianClass.Converts x d ∧
      ∀ months : ℤ, -120000 ≤ months → months ≤ 120000 →
        (julianClass.AddsMonths x d months ↔ JulianDates.MonthsMet d months) := by
  have hbound := dayOf_lt hx
  constructor
  · intro hmin
    rw [dayNumber_hijriMin] at hmin
    obtain ⟨d, hd⟩ := exists_hijriDate hmin hbound
    have hconverts := HijriDates.converts_of_number hd hbound
    exact ⟨d, hconverts, fun _ hlo hhi => HijriDates.addsMonths_iff hconverts hlo hhi⟩
  · obtain ⟨d, hd⟩ := exists_julianDate hbound
    have hconverts := JulianDates.converts_of_number hd hbound
    exact ⟨d, hconverts, fun _ hlo hhi => JulianDates.addsMonths_iff hconverts hlo hhi⟩

def hijriFirst : HijriDate.calendar.Date :=
  HijriDate.ofParts 1 1 1 Gregorian.Date.first.year_pos HijriDates.lastDay.first_le
    Gregorian.Date.first.month_pos Gregorian.Date.first.month_le Gregorian.Date.first.day_pos (by decide)

/-- The theorem at the first day of the Hijri calendar, and the month after it. -/
theorem hijri_julian_months_first_day : hijriClass.Converts (midnight 227013) hijriFirst ∧
    hijriClass.AddsMonths (midnight 227013) hijriFirst 1 := by
  have hday : dayOf (midnight 227013) = 227013 := by decide
  obtain ⟨d, hd, hadds⟩ := (hijri_julian_months (midnight 227013)
    (valid_packed (by decide) (by decide))).1 (by rw [dayNumber_hijriMin, hday])
  have hfirst : hijriFirst.dayNumber = 227013 := by decide
  obtain rfl : d = hijriFirst :=
    MonthCalendar.Date.dayNumber_injective (by rw [hd.number, hday, hfirst]; rfl)
  refine ⟨hd, (hadds 1 (by decide) (by decide)).mpr ⟨?_, ?_⟩⟩
  · decide
  · decide

/-- Two months before its first day the Hijri calendar is in the year zero, and the addition answers
a day ten months later. -/
theorem not_hijri_months_before :
    (midnight 227013).Valid ∧ hijriMin.dayNumber ≤ dayOf (midnight 227013) ∧
      hijriClass.Converts (midnight 227013) hijriFirst ∧
      CalendarClass.monthsLater hijriFirst (-2) = (0, 11) ∧
      hijriClass.addMonths (midnight 227013) (-2) = pure (midnight 227308) ∧
      ¬ hijriClass.AddsMonths (midnight 227013) hijriFirst (-2) := by
  have hday : dayOf (midnight 227013) = 227013 := by decide
  have hconverts : hijriClass.Converts (midnight 227013) hijriFirst := by
    apply HijriDates.converts_of_number
    · decide
    · decide
  have hadd := @HijriDates.addMonths_eq hijriFirst (midnight 227013) (-2) hconverts (by decide)
    (by decide)
  refine ⟨valid_packed (by decide) (by decide), by rw [dayNumber_hijriMin, hday], hconverts, by decide,
    ?_, ?_⟩
  · rw [hadd]
    rfl
  · rw [HijriDates.addsMonths_iff hconverts (by decide) (by decide)]
    rintro ⟨hnot, -⟩
    exact hnot (by decide)

variable {K : CalendarClass} {addYears : DateTime → ℤ → Run Exception DateTime}
variable {C : MonthCalendar} {x : DateTime} {d : C.Date} {years : ℤ}

/-- The addition of years to the day with the date `d` answers its month in the year that many
years later, and refuses exactly the months that are outside of the calendar. -/
structure AddsYears (K : CalendarClass) (addYears : DateTime → ℤ → Run Exception DateTime)
    (x : DateTime) (d : C.Date) (years : ℤ) : Prop where
  inside : CalendarClass.Representable C (d.year + years, d.month) → ∃ result e,
    addYears x years = pure result ∧ K.Reaches x d (d.year + years, d.month) result e
  outside : ¬ CalendarClass.Representable C (d.year + years, d.month) → OutOfRange (addYears x years)

/-- The years that the Hijri calendar adds: no year before the first is counted, and the last month
is not refused for a day that a `DateTime` cannot have there. -/
def HijriYearsMet (d : HijriDate.calendar.Date) (years : ℤ) : Prop :=
  ¬ (-10000 ≤ years ∧ -658 ≤ d.year + years ∧ d.year + years ≤ 0 ∧ d.month ≠ 12) ∧
  ¬ (d.year + years = 9666 ∧ d.month = 4 ∧ 3 < d.day)

def JulianYearsMet (d : JulianDate.calendar.Date) (years : ℤ) : Prop :=
  ¬ (d.year + years = 1 ∧ d.month = 1 ∧ d.day < 3) ∧
  ¬ (d.year + years = 9999 ∧ d.month = 10 ∧ 19 < d.day)

theorem monthsLater_years (hle : d.month ≤ 12) :
    CalendarClass.monthsLater d (years * 12) = (d.year + years, (d.month : ℤ)) := by
  have hpos := d.month_pos
  unfold CalendarClass.monthsLater
  apply Prod.ext <;> dsimp only <;> omega

theorem addsYears_iff_addsMonths (hle : d.month ≤ 12)
    (heq : addYears x years = K.addMonths x (years * 12)) :
    AddsYears K addYears x d years ↔ K.AddsMonths x d (years * 12) := by
  have hmonth := @monthsLater_years C d years hle
  constructor
  · rintro ⟨hinside, houtside⟩
    constructor
    · rwa [hmonth, ← heq]
    · rwa [hmonth, ← heq]
  · rintro ⟨hinside, houtside⟩
    rw [hmonth, ← heq] at hinside houtside
    exact ⟨hinside, houtside⟩

/-- What is refused for its number of years is outside of a calendar of so many years. -/
theorem addsYears_of_throws (hfirst : 1 ≤ C.first) (hlast : C.last ≤ 10000)
    (hfar : years < -10000 ∨ 10000 < years) (hthrows : OutOfRange (addYears x years)) :
    AddsYears K addYears x d years where
  inside hrep := by
    refine absurd hrep (CalendarClass.not_representable ?_)
    have hd' := d.le_last
    omega
  outside _ := hthrows

/-- **The Hijri and the Julian calendar add years, any number of them, exactly where they add the
months of these years.** -/
theorem hijri_julian_years (x : DateTime) (years : ℤ) :
    (∀ d, hijriClass.Converts x d →
      (AddsYears hijriClass HijriCalendar.addYears x d years ↔ HijriYearsMet d years)) ∧
    (∀ d, julianClass.Converts x d →
      (AddsYears julianClass JulianCalendar.addYears x d years ↔ JulianYearsMet d years)) := by
  constructor
  · intro d h
    have hle : d.month ≤ 12 := d.month_le
    have hlast : d.year ≤ 9666 := d.le_last
    unfold HijriYearsMet
    by_cases hfar : years < -10000 ∨ 10000 < years
    · have hthrows : OutOfRange (HijriCalendar.addYears x years) := by
        rw [HijriCalendar.addYears, if_pos hfar]
        exact OutOfRange.intro "years"
      refine iff_of_true (addsYears_of_throws (by decide) (by decide) hfar hthrows) ?_
      omega
    · have heq : HijriCalendar.addYears x years = hijriClass.addMonths x (years * 12) := by
        rw [HijriCalendar.addYears, if_neg hfar]
        rfl
      rw [addsYears_iff_addsMonths hle heq, HijriDates.addsMonths_iff h (by omega) (by omega),
        HijriDates.MonthsMet, monthsLater_years hle, Prod.mk.injEq]
      omega
  · intro d h
    have hle : d.month ≤ 12 := d.month_le
    have hlast : d.year ≤ 9999 := d.le_last
    unfold JulianYearsMet
    by_cases hfar : years < -10000 ∨ 10000 < years
    · have hthrows : OutOfRange (JulianCalendar.addYears x years) := by
        rw [JulianCalendar.addYears, if_pos hfar]
        exact ⟨_, _, rfl⟩
      refine iff_of_true (addsYears_of_throws (by decide) (by decide) hfar hthrows) ?_
      omega
    · have heq : JulianCalendar.addYears x years = julianClass.addMonths x (years * 12) := by
        rw [JulianCalendar.addYears, if_neg hfar]
        rfl
      rw [addsYears_iff_addsMonths hle heq, JulianDates.addsMonths_iff h (by omega) (by omega),
        JulianDates.MonthsMet, monthsLater_years hle, Prod.mk.injEq, Prod.mk.injEq]
      omega

/-- The first day of the Hijri calendar, and the year before it. -/
theorem hijri_julian_years_first_day :
    ¬ AddsYears hijriClass HijriCalendar.addYears (midnight 227013) hijriFirst (-1) := by
  have hday : dayOf (midnight 227013) = 227013 := by decide
  have hconverts : hijriClass.Converts (midnight 227013) hijriFirst := by
    apply HijriDates.converts_of_number <;> rw [hday] <;> decide
  rw [(hijri_julian_years _ _).1 hijriFirst hconverts]
  exact fun hmet => hmet.1 (by decide)

end SharpRuntime.Analysis.CalendarMonths
