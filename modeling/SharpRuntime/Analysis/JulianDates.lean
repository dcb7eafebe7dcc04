import SharpRuntime.Analysis.CalendarArithmetic

/-!
# Conversion of days to Julian dates

A day is divided into a cycle of four years and a year of it (`findYear_eq`), and the scan for the
month starts from a guess that is not too late (`scanMonth_eq`).  The addition of months goes by the
ticks of the day that it reaches, and refuses the days that a `DateTime` cannot hold
(`addsMonths_iff`).
-/

set_option autoImplicit false

namespace SharpRuntime.Analysis.JulianDates

open Machine Model Model.Calendar Model.JulianCalendar
open Model.DateTime (ticksPerDay)
open Interface Interface.JulianDate CalendarArithmetic
open Interface.CalendarClass hiding getYear getMonth getDayOfMonth getDayOfYear addMonths toDateTime

def julianClass : CalendarClass where
  getYear := getYear
  getMonth := getMonth
  getDayOfMonth := getDayOfMonth
  getDayOfYear := getDayOfYear
  addMonths := JulianCalendar.addMonths
  toDateTime := toDateTime

theorem daysToMonth_eq {year index : ℕ} (hle : index ≤ 12) :
    daysToMonth (decide (year % 4 = 0)) index = pure (monthTotal (monthLength year) index : ℤ) := by
  have htable := DateTimeCalendar.daysToMonth_getD (likeYear year) (index + 1)
    (Nat.le_add_left 1 index) (by omega)
  have hleap : decide (year % 4 = 0) = Gregorian.leap (likeYear year) := by
    unfold likeYear
    split
    · rw [decide_eq_true (by assumption)]
      rfl
    · rw [decide_eq_false (by assumption)]
      rfl
  rw [daysToMonth, Run.observe_eq_pure (by omega), pure_bind, Run.pure_inj, monthTotal_eq, ← htable,
    hleap, Int.toNat_natCast, Nat.add_sub_cancel]

theorem isLeapYear_eq (year : ℤ) : isLeapYear year = decide (year % 4 = 0) := by
  rw [isLeapYear, decide_eq_decide, ← Int.dvd_iff_tmod_eq_zero, Int.dvd_iff_emod_eq_zero]

theorem getDaysInMonth_eq {year month : ℕ} (hpos : 1 ≤ month) (hle : month ≤ 12) :
    getDaysInMonth year month = pure (monthLength year month : ℤ) := by
  rw [getDaysInMonth, isLeapYear_eq, monthLength, likeYear]
  by_cases h : year % 4 = 0
  · rw [if_pos h]
    by_cases htwo : month = 2
    · rw [if_pos ⟨by omega, decide_eq_true (by omega)⟩, htwo]
      rfl
    · interval_cases month <;> first | rfl | exact absurd rfl htwo
  · have hnot : ¬ ((month : ℤ) = 2 ∧ decide ((year : ℤ) % 4 = 0) = true) := by
      rw [decide_eq_true_eq]
      omega
    rw [if_neg hnot, if_neg h, Run.observe_eq_pure (by omega), pure_bind, Run.pure_inj]
    interval_cases month <;> rfl

variable {month : ℤ}

theorem daysToMonth_bounds (leapYear : Bool) (hpos : 1 ≤ month) (hle : month ≤ 12) :
    ∃ days : ℤ, 0 ≤ days ∧ days ≤ 335 ∧ daysToMonth leapYear (month - 1) = pure days := by
  refine ⟨_, Int.natCast_nonneg _, ?_, by rw [daysToMonth, Run.observe_eq_pure (by omega), pure_bind]⟩
  obtain ⟨index, hindex⟩ : ∃ index, (month - 1).toNat = index := ⟨_, rfl⟩
  have hlt : index ≤ 11 := by omega
  rw [hindex]
  cases leapYear <;> interval_cases index <;> decide

theorem getDaysInMonth_bounds (year : ℤ) (hpos : 1 ≤ month) (hle : month ≤ 12) :
    ∃ length : ℤ, 28 ≤ length ∧ length ≤ 31 ∧ getDaysInMonth year month = pure length := by
  rw [getDaysInMonth]
  split
  · exact ⟨29, by decide, by decide, rfl⟩
  · refine ⟨_, ?_, ?_, by rw [Run.observe_eq_pure (by omega), pure_bind]⟩
    · interval_cases month <;> decide
    · interval_cases month <;> decide

variable (year : ℕ)

theorem yearLength_calendar : calendar.yearLength year = yearLength year :=
  monthTotal_year year

variable {x : DateTime} {d : calendar.Date}

/-- The four-year cycles find the year and the day of the year. -/
theorem findYear_eq (h : d.dayNumber = dayOf x) :
    findYear x.ticks = ((d.year : ℤ), ((d.year : ℤ) - 1) % 4, (d.dayOfYear : ℤ)) := by
  have hday : ((x.ticks : ℤ) + ticksPerDay * 2).tdiv ticksPerDay = (dayOf x : ℤ) + 2 := by
    grind [dayOf, ticksPerDay]
  have hlo : start d.year ≤ d.dayNumber := d.start_le_dayNumber
  have hhi := d.dayNumber_lt
  have hnumber : d.dayNumber = start d.year + d.dayOfYear := rfl
  rw [yearLength_calendar, yearLength_eq, calendar_start] at hhi
  simp only [findYear, hday, julianDaysPer4Years, julianDaysPerYear]
  unfold start at hlo hhi hnumber
  rw [Int.tdiv_eq_ediv_of_nonneg (by omega), Int.tdiv_eq_ediv_of_nonneg (by omega)]
  have hyear : (((dayOf x : ℤ) + 2 - ((d.year : ℤ) - 1) / 4 * (365 * 4 + 1)) / 365 =
        ((d.year : ℤ) - 1) % 4 ∧ ((d.year : ℤ) - 1) % 4 ≠ 4) ∨
      (((dayOf x : ℤ) + 2 - ((d.year : ℤ) - 1) / 4 * (365 * 4 + 1)) / 365 = 4 ∧
        ((d.year : ℤ) - 1) % 4 = 3) := by
    split at hhi <;> omega
  rcases hyear with ⟨hyear, hne⟩ | ⟨hyear, hthree⟩
  · grind
  · grind

theorem leap_of_year : decide (((year : ℤ) - 1) % 4 = 3) = decide (year % 4 = 0) := by
  rw [decide_eq_decide]
  omega

/-- The walk over the month table ends at the month of the day. -/
theorem scanMonth_eq (d : calendar.Date) {fuel j : ℕ} (hj : j ≤ d.month)
    (hfuel : d.month < fuel + j) :
    scanMonth (decide (d.year % 4 = 0)) d.dayOfYear fuel j = pure (d.month : ℤ) := by
  have hle : d.month ≤ 12 := d.month_le
  induction fuel generalizing j with
  | zero => omega
  | succ fuel ih =>
    rw [scanMonth, daysToMonth_eq (by omega), pure_bind]
    by_cases hlt : j < d.month
    · have hmono := monthTotal_mono (monthLength d.year) (show j ≤ d.month - 1 by omega)
      have hday : d.dayOfYear = monthTotal (monthLength d.year) (d.month - 1) + (d.day - 1) := rfl
      grind
    · have hnext : d.dayOfYear < monthTotal (monthLength d.year) d.month := d.dayOfYear_lt_next
      obtain rfl : j = d.month := by omega
      rw [if_neg (by omega)]

theorem monthTotal_le (k : ℕ) : monthTotal (monthLength year) k ≤ 31 * k := by
  induction k with
  | zero => exact Nat.le_refl 0
  | succ k ih =>
    have hlength : monthLength year (k + 1) ≤ 31 := by
      unfold monthLength Gregorian.monthLength
      split
      · split <;> decide
      all_goals decide
    rw [monthTotal_succ]
    omega

theorem scanMonth_guess (d : calendar.Date) :
    scanMonth (decide (d.year % 4 = 0)) d.dayOfYear 13 ((d.dayOfYear : ℤ) / 32 + 1) =
      pure (d.month : ℤ) := by
  have hle : d.month ≤ 12 := d.month_le
  have hguess : d.dayOfYear / 32 + 1 ≤ d.month := by
    have hnext : d.dayOfYear < monthTotal (monthLength d.year) d.month := d.dayOfYear_lt_next
    have hlong := monthTotal_le d.year d.month
    omega
  have hscan := @scanMonth_eq d 13 _ hguess (by omega)
  rw [← hscan]
  rfl

theorem dateToTicks_eq (d : calendar.Date) :
    dateToTicks d.year d.month d.day = pure (d.dayNumber * ticksPerDay) := by
  have hfirst : 1 ≤ d.year := d.first_le
  have hpos := d.day_pos
  have hmonth := d.month_pos
  have hmonth12 : d.month ≤ 12 := d.month_le
  have hleap : decide ((d.year : ℤ).tmod 4 = 0) = decide (d.year % 4 = 0) := by grind
  have hindex : (d.month : ℤ) - 1 = (d.month - 1 : ℕ) := by omega
  have hnumber : d.dayNumber =
      start d.year + (monthTotal (monthLength d.year) (d.month - 1) + (d.day - 1) : ℕ) := rfl
  simp only [dateToTicks, hleap, hindex]
  rw [daysToMonth_eq (by omega), pure_bind, Run.pure_inj,
    Int.tdiv_eq_ediv_of_nonneg (show (0 : ℤ) ≤ (d.year : ℤ) - 1 by omega)]
  apply congrArg (· * (ticksPerDay : ℤ))
  rw [hnumber, start]
  omega

theorem toDateTime_midnight {n : ℕ} (hn : d.dayNumber = n)
    (hbound : n < 3652059) : toDateTime d.year d.month d.day 0 0 0 0 = pure (midnight n) := by
  rw [toDateTime, dateToTicks_eq, pure_bind, hn,
    addTimeOfDay_noTime (by unfold ticksPerDay; omega) (by unfold ticksPerDay; omega), pure_bind,
    ofTicks_midnight hbound]

theorem converts_of_number (h : d.dayNumber = dayOf x)
    (hbound : dayOf x < 3652059) : julianClass.Converts x d := by
  have hyear := findYear_eq h
  have hleap := leap_of_year d.year
  refine ⟨h, ?_, ?_, ?_, ?_, toDateTime_midnight h hbound⟩
  · change getYear x = _
    rw [getYear, hyear]
  · change getMonth x = _
    rw [getMonth, hyear]
    dsimp only
    rw [hleap, scanMonth_guess]
  · change getDayOfMonth x = _
    have hmonth := d.month_pos
    have hmonth12 : d.month ≤ 12 := d.month_le
    have hindex : (d.month : ℤ) - 1 = (d.month - 1 : ℕ) := by omega
    have hday : d.dayOfYear = monthTotal (monthLength d.year) (d.month - 1) + (d.day - 1) := rfl
    have hpos := d.day_pos
    rw [getDayOfMonth, hyear]
    dsimp only
    rw [hleap, scanMonth_guess, pure_bind, hindex, daysToMonth_eq (by omega), pure_bind, Run.pure_inj]
    omega
  · change getDayOfYear x = _
    rw [getDayOfYear, hyear]

/-- The months that are added as the calendar adds them: all but the first and the last one that a
`DateTime` can be in on a day that it cannot have there. -/
def MonthsMet (d : calendar.Date) (months : ℤ) : Prop :=
  ¬ (monthsLater d months = (1, 1) ∧ d.day < 3) ∧
  ¬ (monthsLater d months = (9999, 10) ∧ 19 < d.day)

variable {months : ℤ}

theorem addMonths_eq (h : julianClass.Converts x d)
    (hlo : -120000 ≤ months) (hhi : months ≤ 120000) :
    julianClass.addMonths x months = (do
      let days ← getDaysInMonth (monthsLater d months).1 (monthsLater d months).2
      let newTicks ← dateToTicks (monthsLater d months).1 (monthsLater d months).2
        (if days < d.day then days else d.day)
      DateTime.ofTicks (newTicks + (x.ticks : ℤ) % ticksPerDay)) := by
  have hyear : getYear x = pure (d.year : ℤ) := h.year
  have hmonth : getMonth x = pure (d.month : ℤ) := h.month
  have hday : getDayOfMonth x = pure (d.day : ℤ) := h.dayOfMonth
  change JulianCalendar.addMonths x months = _
  rw [JulianCalendar.addMonths, if_neg (by omega), hyear, pure_bind, hmonth, pure_bind, hday, pure_bind,
    shiftMonths_date]

theorem monthLength_pos (y m : ℕ) : 1 ≤ monthLength y m := Gregorian.monthLength_pos _ _

/-- The date of a month of the calendar, on the day of `d` or on the last day. -/
def clamped (d : calendar.Date) (y m : ℕ) (hfirst : 1 ≤ y) (hlast : y ≤ 9999) (hpos : 1 ≤ m)
    (hle : m ≤ 12) : calendar.Date :=
  ofParts y m (min d.day (monthLength y m)) hfirst hlast hpos hle
    (Nat.le_min.mpr ⟨d.day_pos, monthLength_pos y m⟩) (Nat.min_le_right _ _)

variable {m : ℕ}

theorem addMonths_inside (h : julianClass.Converts x d) (hlo : -120000 ≤ months)
    (hhi : months ≤ 120000) {y : ℕ} (hfirst : 1 ≤ y)
    (hlast : y ≤ 9999) (hpos : 1 ≤ m) (hle : m ≤ 12)
    (htarget : monthsLater d months = ((y : ℤ), (m : ℤ))) :
    julianClass.addMonths x months =
      DateTime.ofTicks ((clamped d y m hfirst hlast hpos hle).dayNumber * ticksPerDay +
        (x.ticks : ℤ) % ticksPerDay) := by
  have hdate := dateToTicks_eq (clamped d y m hfirst hlast hpos hle)
  have hday : (if (monthLength y m : ℤ) < d.day then (monthLength y m : ℤ) else d.day) =
      (clamped d y m hfirst hlast hpos hle).day := by
    change _ = ((min d.day (monthLength y m) : ℕ) : ℤ)
    split <;> omega
  rw [addMonths_eq h hlo hhi, htarget]
  rw [getDaysInMonth_eq hpos hle, pure_bind, hday]
  change dateToTicks y m (clamped d y m hfirst hlast hpos hle).day = _ at hdate
  rw [hdate, pure_bind]

theorem first_month_of_negative {e : calendar.Date} (h : e.dayNumber < 0) :
    e.year = 1 ∧ e.month = 1 ∧ e.day < 3 := by
  have hfirst : 1 ≤ e.year := e.first_le
  have hpos := e.month_pos
  have hday : e.dayOfYear = monthTotal (monthLength e.year) (e.month - 1) + (e.day - 1) := rfl
  have hnumber : e.dayNumber = start e.year + e.dayOfYear := rfl
  unfold start at hnumber
  have hmonth : e.month = 1 := by
    by_contra hne
    have hmono := monthTotal_mono (monthLength e.year) (show 1 ≤ e.month - 1 by omega)
    have hone : monthTotal (monthLength e.year) 1 = 31 := by
      rfl
    omega
  omega

def lastDay : calendar.Date :=
  ofParts 9999 10 19 (by decide) (by decide) (by decide) (by decide) (by decide) (by decide)

theorem isLast_lastDay : IsLast lastDay := ⟨rfl, by decide⟩

theorem representable_first : Representable calendar (1, 1) := by
  refine ⟨ofParts 1 1 3 (by decide) (by decide) (by decide) (by decide) (by decide) (by decide), rfl, ?_⟩
  decide

theorem addsMonths_inside_iff (h : julianClass.Converts x d) (hlo : -120000 ≤ months)
    (hhi : months ≤ 120000) {y : ℕ} (hfirst : 1 ≤ y)
    (hlast : y ≤ 9999) (hpos : 1 ≤ m) (hle : m ≤ 12)
    (htarget : monthsLater d months = ((y : ℤ), (m : ℤ))) :
    julianClass.AddsMonths x d months ↔ MonthsMet d months := by
  have hadd := addMonths_inside h hlo hhi hfirst hlast hpos hle htarget
  by_cases hrange : 0 ≤ (clamped d y m hfirst hlast hpos hle).dayNumber ∧
      (clamped d y m hfirst hlast hpos hle).dayNumber < 3652059
  · obtain ⟨hnonneg, hbound⟩ := hrange
    obtain ⟨result, hresult, hday, htime⟩ := ofTicks_day hnonneg hbound x
    rw [hresult] at hadd
    refine iff_of_true (addsMonths_of_reaches hadd
      ⟨converts_of_number hday.symm (by omega), htarget.symm, rfl, htime⟩
      ⟨_, htarget.symm, hnonneg, hbound⟩) ⟨?_, ?_⟩
    · rintro ⟨hone, hd⟩
      rw [htarget, Prod.mk.injEq] at hone
      obtain rfl : y = 1 := by omega
      obtain rfl : m = 1 := by omega
      have hstart : start 1 = -2 := by decide
      rw [clamped, dayNumber_ofParts, hstart] at hnonneg
      simp only [Nat.sub_self, monthTotal] at hnonneg
      omega
    · rintro ⟨hten, hd⟩
      rw [htarget, Prod.mk.injEq] at hten
      obtain rfl : y = 9999 := by omega
      obtain rfl : m = 10 := by omega
      have hday : min d.day 31 ≤ 19 := isLast_lastDay.day_le hbound rfl rfl
      omega
  · have hthrows : OutOfRange (julianClass.addMonths x months) := by
      rw [hadd]
      exact ofTicks_outside (by omega) x
    rw [addsMonths_iff_of_throws hthrows, htarget, MonthsMet, htarget]
    by_cases hneg : (clamped d y m hfirst hlast hpos hle).dayNumber < 0
    · obtain ⟨hyear, hmonth, hday⟩ := first_month_of_negative hneg
      change min d.day (monthLength y m) < 3 at hday
      subst hyear hmonth
      have hlength : monthLength 1 1 = 31 := rfl
      refine iff_of_false (not_not.mpr representable_first) fun hmet => hmet.1 ⟨rfl, by omega⟩
    · obtain ⟨hyear, hmonth, hten⟩ := isLast_lastDay.of_outside
        (e := clamped d y m hfirst hlast hpos hle) (by omega)
      change y = 9999 at hyear
      change 10 ≤ m at hmonth
      change m = 10 → 19 < min d.day (monthLength y m) at hten
      have hrep : Representable calendar ((9999 : ℕ), (m : ℤ)) ↔ m ≤ 10 :=
        isLast_lastDay.representable_iff (by decide) hpos hle
      constructor
      · intro hm
        grind
      · grind

theorem dateToTicks_outside {year : ℤ} (day : ℤ) (h : year ≤ 0 ∨ 10000 ≤ year)
    (hpos : 1 ≤ month) (hle : month ≤ 12) (hday : 1 ≤ day) (hday31 : day ≤ 31) :
    ∃ n : ℤ, (n < 0 ∨ 3652059 ≤ n) ∧ dateToTicks year month day = pure (n * ticksPerDay) := by
  obtain ⟨days, hdays0, hdays, hmonth⟩ :=
    daysToMonth_bounds (decide (year.tmod 4 = 0)) hpos hle
  refine ⟨(year - 1) * 365 + (year - 1).tdiv 4 + days + day - 1 - 2, ?_, ?_⟩
  · grind
  · rw [dateToTicks, hmonth, pure_bind]

/-- **Months are added as the calendar adds them, but for the ends of the first and the last month
that a `DateTime` can be in.** -/
theorem addsMonths_iff (h : julianClass.Converts x d)
    (hlo : -120000 ≤ months) (hhi : months ≤ 120000) :
    julianClass.AddsMonths x d months ↔ MonthsMet d months := by
  obtain ⟨hpos, hle⟩ := monthsLater_month d months
  by_cases hinside : 1 ≤ (monthsLater d months).1 ∧ (monthsLater d months).1 ≤ 9999
  · obtain ⟨y, hy⟩ := Int.eq_ofNat_of_zero_le (show 0 ≤ (monthsLater d months).1 by omega)
    obtain ⟨m, hm⟩ := Int.eq_ofNat_of_zero_le (show 0 ≤ (monthsLater d months).2 by omega)
    exact addsMonths_inside_iff h hlo hhi (y := y) (m := m) (by omega) (by omega) (by omega)
      (by omega) (Prod.ext hy hm)
  · have houtside : (monthsLater d months).1 ≤ 0 ∨ 10000 ≤ (monthsLater d months).1 := by omega
    have hd := d.day_pos
    have hthrows : OutOfRange (julianClass.addMonths x months) := by
      obtain ⟨length, hshort, hlong, hlength⟩ :=
        getDaysInMonth_bounds (monthsLater d months).1 hpos hle
      rw [addMonths_eq h hlo hhi, hlength, pure_bind]
      obtain ⟨n, hn, hticks⟩ := dateToTicks_outside
        (if length < (d.day : ℤ) then length else (d.day : ℤ)) houtside hpos hle
        (by split <;> omega) (by split <;> omega)
      rw [hticks, pure_bind]
      exact ofTicks_outside hn x
    rw [addsMonths_iff_of_throws hthrows]
    refine iff_of_true (not_representable (show _ < (1 : ℤ) ∨ (9999 : ℤ) < _ by omega)) ⟨?_, ?_⟩
    · rintro ⟨heq, -⟩
      grind
    · rintro ⟨heq, -⟩
      grind

end SharpRuntime.Analysis.JulianDates
