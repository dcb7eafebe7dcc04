import SharpRuntime.Analysis.CalendarArithmetic

/-!
# Conversion of days to Hijri dates

The year of a day is guessed from the mean length of a year, and the guess is the year or the one
after it (`findYear_eq`).  The addition of months counts the days of the month that it reaches, and
looks at the year only for the length of the last month of a year, so that most months before the
first year are answered with a day after it (`addsMonths_iff`).
-/

set_option autoImplicit false

namespace SharpRuntime.Analysis.HijriDates

open Machine Model Model.Calendar Model.HijriCalendar
open Model.DateTime (ticksPerDay)
open Interface Interface.HijriDate CalendarArithmetic
open Interface.CalendarClass hiding getYear getMonth getDayOfMonth getDayOfYear addMonths toDateTime

def hijriClass : CalendarClass where
  getYear := getYear
  getMonth := getMonth
  getDayOfMonth := getDayOfMonth
  getDayOfYear := getDayOfYear
  addMonths := HijriCalendar.addMonths
  toDateTime := toDateTime

variable {year : ℕ}

theorem isLeapYear_eq (hfirst : 1 ≤ year) (hlast : year ≤ 9666) :
    isLeapYear year = pure (leap year) := by
  rw [isLeapYear, if_neg (by unfold maxCalendarYear; omega), Run.pure_inj, leap, decide_eq_decide,
    Int.tmod_eq_emod_of_nonneg (by omega)]
  exact_mod_cast Iff.rfl

theorem getDaysInYear_eq (hfirst : 1 ≤ year) (hlast : year ≤ 9666) :
    getDaysInYear year = pure (yearLength year : ℤ) := by
  rw [getDaysInYear, isLeapYear_eq hfirst hlast, pure_bind, Run.pure_inj, yearLength]
  split <;> rfl

variable {month : ℕ}

theorem getDaysInMonth_eq (hfirst : 1 ≤ year) (hlast : year ≤ 9666)
    (hpos : 1 ≤ month) (hle : month ≤ 12) :
    getDaysInMonth year month = pure (monthLength year month : ℤ) := by
  grind [getDaysInMonth, monthLength, isLeapYear_eq]

theorem monthDays_eq (year : ℕ) (hpos : 1 ≤ month) (hle : month ≤ 12) :
    monthDays ((month : ℤ) - 1) = pure (monthTotal (monthLength year) (month - 1) : ℤ) := by
  interval_cases month <;> rfl

theorem addYearDays_eq {k : ℕ} (hk : k ≤ 9666) (days : ℤ) :
    addYearDays k days = pure (days + monthTotal yearLength k) := by
  induction k generalizing days with
  | zero => simp [addYearDays, monthTotal]
  | succ k ih => grind [addYearDays, isLeapYear_eq, monthTotal_succ, yearLength]

theorem daysUpToHijriYear_eq (hpos : 1 ≤ year) :
    daysUpToHijriYear year = pure (start year : ℤ) := by
  obtain ⟨k, rfl⟩ : ∃ k, year = k + 1 := ⟨year - 1, by omega⟩
  have hk : ((k + 1 : ℕ) : ℤ) - 1 = k := by omega
  have hleft : ((k : ℤ) - (k : ℤ) / 30 * 30).toNat = k % 30 := by omega
  simp only [daysUpToHijriYear, hk]
  rw [show ((k + 1 : ℕ) : ℤ) - (k : ℤ).tdiv 30 * 30 - 1 = k - (k : ℤ).tdiv 30 * 30 by omega,
    Int.tdiv_eq_ediv_of_nonneg (Int.natCast_nonneg k), hleft,
    Int.tdiv_eq_ediv_of_nonneg (by omega), addYearDays_eq (by omega), Run.pure_inj, start,
    yearsTotal_eq, yearsTotal_eq, Nat.add_sub_cancel]
  unfold hijriEpoch
  omega

variable {year : ℤ}

theorem daysUpToHijriYear_before (h : year ≤ 0) :
    daysUpToHijriYear year = pure (227013 - 10631 * ((1 - year) / 30)) := by
  obtain ⟨k, hk⟩ : ∃ k : ℕ, year - 1 = -(k : ℤ) := ⟨(1 - year).toNat, by omega⟩
  have hleft : (year - -((k : ℤ) / 30) * 30 - 1).toNat = 0 := by omega
  simp only [daysUpToHijriYear, hk]
  rw [Int.neg_tdiv, Int.tdiv_eq_ediv_of_nonneg (Int.natCast_nonneg k), hleft]
  have hdays : (-((k : ℤ) / 30) * 30 * 10631).tdiv 30 = -(10631 * ((k : ℤ) / 30)) := by grind
  rw [hdays, addYearDays, Run.pure_inj]
  unfold hijriEpoch
  omega

theorem absoluteDateHijri_eq (d : calendar.Date) :
    absoluteDateHijri d.year d.month d.day = pure d.dayNumber := by
  have hfirst : 1 ≤ d.year := d.first_le
  have hpos := d.day_pos
  rw [absoluteDateHijri, daysUpToHijriYear_eq hfirst, pure_bind,
    monthDays_eq d.year d.month_pos d.month_le, pure_bind, Run.pure_inj]
  have hnumber : d.dayNumber =
      start d.year + (monthTotal (monthLength d.year) (d.month - 1) + (d.day - 1) : ℕ) := rfl
  omega

theorem start_eq (k : ℕ) : start (k + 1) = 227013 + (10631 * k + 14) / 30 := by
  rw [start, Nat.add_sub_cancel, yearsTotal_eq]

theorem year_bounds (d : calendar.Date) :
    (start d.year : ℤ) ≤ d.dayNumber ∧ d.dayNumber < start (d.year + 1) := by
  have hfirst : 1 ≤ d.year := d.first_le
  have hlt := d.dayNumber_lt
  have hlength : calendar.yearLength d.year = yearLength d.year :=
    monthTotal_eq (Nat.le_refl 12)
  rw [hlength] at hlt
  refine ⟨d.start_le_dayNumber, ?_⟩
  rw [start_succ hfirst]
  exact hlt

/-- The guess and its corrections find the year of the day. -/
theorem findYear_eq (d : calendar.Date) :
    findYear (d.dayNumber + 1) = pure ((d.year : ℤ), (start d.year : ℤ)) := by
  have hfirst : 1 ≤ d.year := d.first_le
  have hlast : d.year ≤ 9666 := d.le_last
  obtain ⟨hlo, hhi⟩ := year_bounds d
  obtain ⟨k, hk⟩ : ∃ k, d.year = k + 1 := ⟨d.year - 1, by omega⟩
  have hstart := start_eq k
  have hnext : start (k + 2) = 227013 + (10631 * (k + 1) + 14) / 30 := start_eq (k + 1)
  have hsucc : start (k + 2) = start (k + 1) + yearLength (k + 1) := start_succ (Nat.le_add_left 1 k)
  rw [hk] at hlo
  have hhi' : d.dayNumber < start (k + 2) := by rwa [hk] at hhi
  have hguess : ((d.dayNumber + 1 - hijriEpoch) * 30).tdiv 10631 + 1 = (k + 1 : ℕ) ∨
      (((d.dayNumber + 1 - hijriEpoch) * 30).tdiv 10631 + 1 = (k + 2 : ℕ) ∧ k + 2 ≤ 9666) := by
    grind [hijriEpoch]
  rcases hguess with hguess | ⟨hguess, hle⟩
  · -- the guess is the year
    simp only [findYear, hguess]
    rw [if_neg (by omega), daysUpToHijriYear_eq (Nat.le_add_left 1 k), pure_bind,
      getDaysInYear_eq (Nat.le_add_left 1 k) (by omega), pure_bind, if_neg (by omega),
      if_neg (by omega), if_neg (by omega), hk]
  · -- the guess is the year after it
    have hprev : ((k + 2 : ℕ) : ℤ) - 1 = (k + 1 : ℕ) := by omega
    have hresult : (((k + 1 : ℕ) : ℤ), (start (k + 2) : ℤ) - yearLength (k + 1)) =
        ((d.year : ℤ), (start d.year : ℤ)) := by
      rw [hk, Prod.mk.injEq]
      omega
    simp only [findYear, hguess]
    rw [if_neg (by omega), daysUpToHijriYear_eq (show 1 ≤ k + 2 by omega), pure_bind,
      getDaysInYear_eq (show 1 ≤ k + 2 by omega) hle, pure_bind, hprev,
      getDaysInYear_eq (Nat.le_add_left 1 k) (by omega), pure_bind, hresult]
    split
    · rfl
    · rw [if_pos (by omega)]

variable {m : ℕ}

theorem scanMonth_eq {numDays : ℤ} (year : ℕ) (hm : m ≤ 12)
    (hbelow : ∀ i < m, (monthTotal (monthLength year) i : ℤ) < numDays)
    (hend : m < 12 → numDays ≤ monthTotal (monthLength year) m) {fuel j : ℕ} (hpos : 1 ≤ j)
    (hj : j ≤ m + 1) (hfuel : m + 1 < fuel + j) :
    scanMonth numDays fuel j = pure ((m : ℤ) + 1) := by
  induction fuel generalizing j with
  | zero => omega
  | succ fuel ih =>
    rw [scanMonth]
    by_cases hle : j ≤ 12
    · rw [if_pos (by omega), monthDays_eq year hpos hle, pure_bind]
      by_cases hlt : j ≤ m
      · have hnext := ih (j := j + 1) (by omega) (by omega) (by omega)
        grind
      · grind
    · grind

theorem monthOf_eq (d : calendar.Date) : monthOf ((d.dayOfYear : ℤ) + 1) = pure (d.month : ℤ) := by
  have hle : d.month ≤ 12 := d.month_le
  have hscan : scanMonth ((d.dayOfYear : ℤ) + 1) 13 (1 : ℕ) = pure ((d.month : ℤ) + 1) := by
    refine scanMonth_eq d.year hle ?_ ?_ (Nat.le_refl 1) (by omega) (by omega)
    · intro i hi
      have hmono := monthTotal_mono (monthLength d.year) (show i ≤ d.month - 1 by omega)
      have hday : d.dayOfYear = monthTotal (monthLength d.year) (d.month - 1) + (d.day - 1) := rfl
      omega
    · intro _
      have hlt : d.dayOfYear < monthTotal (monthLength d.year) d.month := d.dayOfYear_lt_next
      omega
  change (scanMonth ((d.dayOfYear : ℤ) + 1) 13 (1 : ℕ) >>= fun hijriMonth => pure (hijriMonth - 1)) = _
  rw [hscan, pure_bind, Run.pure_inj]
  omega

variable {d : calendar.Date}

theorem toDateTime_midnight {n : ℕ} (hn : d.dayNumber = n)
    (hbound : n < 3652059) : toDateTime d.year d.month d.day 0 0 0 0 = pure (midnight n) := by
  have hlength : d.day ≤ monthLength d.year d.month := d.day_le
  have hpos := d.day_pos
  rw [toDateTime, getDaysInMonth_eq d.first_le d.le_last d.month_pos d.month_le, pure_bind,
    if_neg (by omega), absoluteDateHijri_eq, pure_bind, if_neg (by omega), hn,
    addTimeOfDay_noTime (by unfold ticksPerDay; omega) (by unfold ticksPerDay; omega), pure_bind,
    ofTicks_midnight hbound]

theorem numDaysOf_eq (x : DateTime) : numDaysOf x.ticks = (dayOf x : ℤ) + 1 := by rfl

variable {x : DateTime}

theorem converts_of_number (h : d.dayNumber = dayOf x)
    (hbound : dayOf x < 3652059) : hijriClass.Converts x d := by
  have hyear : findYear (numDaysOf x.ticks) = pure ((d.year : ℤ), (start d.year : ℤ)) := by
    rw [numDaysOf_eq, ← h]
    exact findYear_eq d
  have hdays : numDaysOf x.ticks - start d.year = (d.dayOfYear : ℤ) + 1 := by
    have hnumber : d.dayNumber = start d.year + d.dayOfYear := rfl
    rw [numDaysOf_eq]
    omega
  refine ⟨h, ?_, ?_, ?_, ?_, toDateTime_midnight h hbound⟩
  · change getYear x = _
    rw [getYear, hyear, pure_bind]
  · change getMonth x = _
    simp only [getMonth, hyear, pure_bind, hdays, monthOf_eq]
  · change getDayOfMonth x = _
    have hday : d.dayOfYear = monthTotal (monthLength d.year) (d.month - 1) + (d.day - 1) := rfl
    have hpos := d.day_pos
    simp only [getDayOfMonth, hyear, pure_bind, hdays, monthOf_eq,
      monthDays_eq d.year d.month_pos d.month_le, Run.pure_inj]
    omega
  · change getDayOfYear x = _
    simp only [getDayOfYear, hyear, pure_bind, hdays]

/-- The months that are added as the calendar adds them: all but the ones before the first year that
are taken for days after it, and the last month that a `DateTime` can be in on a day that it cannot
have there. -/
def MonthsMet (d : calendar.Date) (months : ℤ) : Prop :=
  ¬ (-658 ≤ (monthsLater d months).1 ∧ (monthsLater d months).1 ≤ 0 ∧
    (monthsLater d months).2 ≠ 12) ∧
  ¬ (monthsLater d months = (9666, 4) ∧ 3 < d.day)

variable {months : ℤ}

theorem addMonths_eq (h : hijriClass.Converts x d)
    (hlo : -120000 ≤ months) (hhi : months ≤ 120000) :
    hijriClass.addMonths x months = (do
      let maxDay ← getDaysInMonth (monthsLater d months).1 (monthsLater d months).2
      let date ← absoluteDateHijri (monthsLater d months).1 (monthsLater d months).2
        (if maxDay < d.day then maxDay else d.day)
      DateTime.ofTicks (date * ticksPerDay + (x.ticks : ℤ) % ticksPerDay)) := by
  have hyear : getYear x = pure (d.year : ℤ) := h.year
  have hmonth : getMonth x = pure (d.month : ℤ) := h.month
  have hday : getDayOfMonth x = pure (d.day : ℤ) := h.dayOfMonth
  change HijriCalendar.addMonths x months = _
  rw [HijriCalendar.addMonths, if_neg (by omega), hyear, pure_bind, hmonth, pure_bind, hday, pure_bind,
    shiftMonths_date]

/-- The date of a month of the calendar, on the day of `d` or on the last day. -/
def clamped (d : calendar.Date) (y m : ℕ) (hfirst : 1 ≤ y) (hlast : y ≤ 9666) (hpos : 1 ≤ m)
    (hle : m ≤ 12) : calendar.Date :=
  ofParts y m (min d.day (monthLength y m)) hfirst hlast hpos hle
    (Nat.le_min.mpr ⟨d.day_pos, monthLength_pos y m⟩) (Nat.min_le_right _ _)

variable {y : ℕ}

theorem addMonths_inside (h : hijriClass.Converts x d)
    (hlo : -120000 ≤ months) (hhi : months ≤ 120000) (hfirst : 1 ≤ y) (hlast : y ≤ 9666)
    (hpos : 1 ≤ m) (hle : m ≤ 12) (htarget : monthsLater d months = ((y : ℤ), (m : ℤ))) :
    hijriClass.addMonths x months =
      DateTime.ofTicks ((clamped d y m hfirst hlast hpos hle).dayNumber * ticksPerDay +
        (x.ticks : ℤ) % ticksPerDay) := by
  have hdate := absoluteDateHijri_eq (clamped d y m hfirst hlast hpos hle)
  have hday : (if (monthLength y m : ℤ) < d.day then (monthLength y m : ℤ) else d.day) =
      (clamped d y m hfirst hlast hpos hle).day := by
    change _ = ((min d.day (monthLength y m) : ℕ) : ℤ)
    split <;> omega
  rw [addMonths_eq h hlo hhi, htarget]
  rw [getDaysInMonth_eq hfirst hlast hpos hle, pure_bind, hday]
  change absoluteDateHijri y m (clamped d y m hfirst hlast hpos hle).day = _ at hdate
  rw [hdate, pure_bind]

theorem start_last : start 9666 = 3651967 := (start_eq 9665).trans (by decide)

def lastDay : calendar.Date :=
  ofParts 9666 4 3 (by decide) (by decide) (by decide) (by decide) (by decide) (by decide)

theorem isLast_lastDay : IsLast lastDay := by
  refine ⟨rfl, ?_⟩
  have hmonths : monthTotal (monthLength 9666) (4 - 1) = 89 := monthTotal_eq (by decide)
  rw [lastDay, dayNumber_ofParts, start_last, hmonths]
  rfl

theorem addsMonths_inside_iff (h : hijriClass.Converts x d) (hlo : -120000 ≤ months)
    (hhi : months ≤ 120000) (hfirst : 1 ≤ y)
    (hlast : y ≤ 9666) (hpos : 1 ≤ m) (hle : m ≤ 12)
    (htarget : monthsLater d months = ((y : ℤ), (m : ℤ))) :
    hijriClass.AddsMonths x d months ↔ MonthsMet d months := by
  have hadd := addMonths_inside h hlo hhi hfirst hlast hpos hle htarget
  have hstart : (227013 : ℤ) ≤ (clamped d y m hfirst hlast hpos hle).dayNumber := by
    have hbounds := (year_bounds (clamped d y m hfirst hlast hpos hle)).1
    unfold start at hbounds
    omega
  by_cases hbound : (clamped d y m hfirst hlast hpos hle).dayNumber < 3652059
  · obtain ⟨result, hresult, hday, htime⟩ := ofTicks_day (by omega) hbound x
    rw [hresult] at hadd
    refine iff_of_true (addsMonths_of_reaches hadd
      ⟨converts_of_number hday.symm (by omega), htarget.symm, rfl, htime⟩
      ⟨_, htarget.symm, by omega, hbound⟩) ⟨?_, ?_⟩
    · rw [htarget]
      omega
    · rintro ⟨hfour, hd⟩
      rw [htarget, Prod.mk.injEq] at hfour
      obtain rfl : y = 9666 := by omega
      obtain rfl : m = 4 := by omega
      have hday : min d.day 29 ≤ 3 := isLast_lastDay.day_le hbound rfl rfl
      omega
  · have hthrows : OutOfRange (hijriClass.addMonths x months) := by
      rw [hadd]
      exact ofTicks_outside (by omega) x
    obtain ⟨hyear, hmonth, hfour⟩ := isLast_lastDay.of_outside (not_lt.mp hbound)
    change y = 9666 at hyear
    change 4 ≤ m at hmonth
    change m = 4 → 3 < min d.day (monthLength y m) at hfour
    subst hyear
    have hrep : Representable calendar ((9666 : ℕ), (m : ℤ)) ↔ m ≤ 4 :=
      isLast_lastDay.representable_iff (Int.natCast_nonneg _) hpos hle
    rw [addsMonths_iff_of_throws hthrows, htarget, hrep, MonthsMet, htarget]
    constructor
    · grind
    · grind

theorem getDaysInMonth_short (year : ℤ) {month : ℤ} (hpos : 1 ≤ month) (hlt : month < 12) :
    ∃ length : ℤ, 29 ≤ length ∧ length ≤ 30 ∧ getDaysInMonth year month = pure length := by
  refine ⟨if month.tmod 2 = 1 then 30 else 29, ?_, ?_, ?_⟩
  · split <;> decide
  · split <;> decide
  · rw [getDaysInMonth, if_neg (by omega), if_neg (by omega)]

theorem getDaysInMonth_outside (h : year ≤ 0 ∨ 9667 ≤ year) :
    OutOfRange (getDaysInMonth year 12) := by
  rw [getDaysInMonth, if_neg (by decide), if_pos rfl, isLeapYear,
    if_pos (by unfold maxCalendarYear; omega)]
  exact (OutOfRange.intro "year").bind _

theorem monthDays_bounds {month : ℤ} (hpos : 1 ≤ month) (hle : month ≤ 12) :
    ∃ days : ℤ, 0 ≤ days ∧ days ≤ 325 ∧ monthDays (month - 1) = pure days := by
  lift month to ℕ using by omega
  refine ⟨_, Int.natCast_nonneg _, ?_, monthDays_eq 1 (by omega) (by omega)⟩
  have hmono := monthTotal_mono (monthLength 1) (show month - 1 ≤ 11 by omega)
  have htotal : monthTotal (monthLength 1) 11 = 325 := monthTotal_eq (by decide)
  omega

/-- **Months are added as the calendar adds them, but for most months before the first year and the
end of the last month that a `DateTime` can be in.** -/
theorem addsMonths_iff (h : hijriClass.Converts x d)
    (hlo : -120000 ≤ months) (hhi : months ≤ 120000) :
    hijriClass.AddsMonths x d months ↔ MonthsMet d months := by
  obtain ⟨hpos, hle⟩ := monthsLater_month d months
  by_cases hinside : 1 ≤ (monthsLater d months).1 ∧ (monthsLater d months).1 ≤ 9666
  · obtain ⟨y, hy⟩ := Int.eq_ofNat_of_zero_le (show 0 ≤ (monthsLater d months).1 by omega)
    obtain ⟨m, hm⟩ := Int.eq_ofNat_of_zero_le (show 0 ≤ (monthsLater d months).2 by omega)
    exact addsMonths_inside_iff h hlo hhi (y := y) (m := m) (by omega) (by omega) (by omega)
      (by omega) (Prod.ext hy hm)
  · have houtside : (monthsLater d months).1 ≤ 0 ∨ 9667 ≤ (monthsLater d months).1 := by omega
    have hnot : ¬ Representable calendar (monthsLater d months) :=
      not_representable (show _ < (1 : ℤ) ∨ (9666 : ℤ) < _ by omega)
    have hlast : ¬ (monthsLater d months = (9666, 4) ∧ 3 < d.day) := by
      rintro ⟨heq, -⟩
      rw [heq] at houtside
      omega
    have hadd := addMonths_eq h hlo hhi
    by_cases htwelve : (monthsLater d months).2 = 12
    · -- the year of the last month is looked at
      have hthrows : OutOfRange (hijriClass.addMonths x months) := by
        rw [hadd, htwelve]
        exact (getDaysInMonth_outside houtside).bind _
      rw [addsMonths_iff_of_throws hthrows]
      exact iff_of_true hnot ⟨fun hwrong => hwrong.2.2 htwelve, hlast⟩
    · obtain ⟨length, hshort, hlong, hlength⟩ :=
        getDaysInMonth_short (monthsLater d months).1 hpos (by omega)
      obtain ⟨days, hdays0, hdays, hmonth⟩ := monthDays_bounds hpos hle
      have hd := d.day_pos
      rw [hlength, pure_bind] at hadd
      generalize hclamp : (if length < (d.day : ℤ) then length else (d.day : ℤ)) = day at hadd
      rcases houtside with hbefore | hafter
      · rw [absoluteDateHijri, daysUpToHijriYear_before hbefore, pure_bind, hmonth, pure_bind,
          pure_bind] at hadd
        by_cases hwrong : -658 ≤ (monthsLater d months).1
        · obtain ⟨result, hresult, -⟩ := ofTicks_day
            (n := 227013 - 10631 * ((1 - (monthsLater d months).1) / 30) + days + day - 1) (by omega)
            (by omega) x
          rw [hresult] at hadd
          exact iff_of_false (not_addsMonths_of_returns hadd hnot)
            fun hmet => hmet.1 ⟨hwrong, hbefore, htwelve⟩
        · have hthrows : OutOfRange (hijriClass.addMonths x months) := by
            rw [hadd]
            exact ofTicks_outside (by omega) x
          rw [addsMonths_iff_of_throws hthrows]
          exact iff_of_true hnot ⟨fun hw => hwrong hw.1, hlast⟩
      · obtain ⟨y, hy⟩ := Int.eq_ofNat_of_zero_le (show 0 ≤ (monthsLater d months).1 by omega)
        have hstart : (3652059 : ℤ) ≤ start y := by
          obtain ⟨k, rfl⟩ : ∃ k, y = k + 1 := ⟨y - 1, by omega⟩
          rw [start_eq]
          omega
        simp only [absoluteDateHijri, hmonth, hy, daysUpToHijriYear_eq (show 1 ≤ y by omega),
          pure_bind] at hadd
        have hthrows : OutOfRange (hijriClass.addMonths x months) := by
          rw [hadd]
          exact ofTicks_outside (by omega) x
        rw [addsMonths_iff_of_throws hthrows]
        exact iff_of_true hnot ⟨fun hw => by omega, hlast⟩

end SharpRuntime.Analysis.HijriDates
