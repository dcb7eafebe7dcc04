import SharpRuntime.Model.ISOWeek
import SharpRuntime.Analysis.CalendarArithmetic

/-!
# The weeks of a year

The days are numbered from a Monday, so that `n / 7` is the week of the day `n`, and the weeks of a
year are those of its Thursdays.  `firstMonday` is the day they begin with; each of the three
formulas of `ISOWeek` is a function of it (`getWeeksInYear_eq`, `year_and_week`, `toDateTime_eq`).
-/

set_option autoImplicit false

namespace SharpRuntime.Analysis.ISOWeeks

open Machine Machine.Gregorian Model Model.DateTime
open Model.ISOWeek Interface
open DateTimeCalendar DateTimeArithmetic

def FirstThursday (y t : ℕ) : Prop :=
  IsLeast {day | day % 7 = 3 ∧ (Date.ofDayNumber day).year = y} t

/-- The day is in week `w` of the year `y`: week 1 has the first Thursday of the year, and the last
week is the one before that of the next year. -/
structure InWeek (n y w : ℕ) : Prop where
  one_le : 1 ≤ w
  number {t : ℕ} (ht : FirstThursday y t) : n / 7 + 1 = t / 7 + w
  last {t : ℕ} (ht : FirstThursday (y + 1) t) : n / 7 < t / 7

def firstMonday (y : ℕ) : ℕ := 7 * ((daysBeforeYear y + 3) / 7)

variable {y : ℕ}

theorem year_eq_iff {day : ℕ} :
    (Date.ofDayNumber day).year = y ↔ daysBeforeYear y ≤ day ∧ day < daysBeforeYear (y + 1) := by
  have hlt := (Date.ofDayNumber day).year_lt_iff (y := y)
  have hle := (Date.ofDayNumber day).year_lt_iff (y := y + 1)
  rw [Date.dayNumber_ofDayNumber] at hlt hle
  omega

theorem year_succ (hy : 1 ≤ y) : daysBeforeYear (y + 1) = daysBeforeYear y + 365 ∨
      daysBeforeYear (y + 1) = daysBeforeYear y + 366 := by
  rw [daysBeforeYear_succ hy, yearLength]
  split <;> simp

theorem FirstThursday.div_eq {t : ℕ} (ht : FirstThursday y t) :
    7 * (t / 7) = firstMonday y := by
  obtain ⟨⟨hthursday, hyear⟩, hleast⟩ := ht
  rw [year_eq_iff] at hyear
  have hfirst := hleast (a := firstMonday y + 3)
    ⟨by unfold firstMonday; omega, year_eq_iff.mpr (by unfold firstMonday; omega)⟩
  unfold firstMonday at hfirst ⊢
  omega

variable {n : ℕ}

theorem inWeek_of_bounds (hlo : firstMonday y ≤ n)
    (hhi : n < firstMonday (y + 1)) : InWeek n y ((n - firstMonday y) / 7 + 1) where
  one_le := Nat.le_add_left 1 _
  number := by
    intro t ht
    have hmonday := ht.div_eq
    omega
  last := by
    intro t ht
    have hmonday := ht.div_eq
    omega

theorem p_eq (y : ℕ) : p y = (daysBeforeYear (y + 1) % 7 : ℕ) := by
  have h := daysBeforeYear_eq y
  have hcent : (y : ℤ) / 100 / 4 = y / 400 := by omega
  simp only [p]
  rw [Int.tdiv_eq_ediv_of_nonneg (by omega), Int.tdiv_eq_ediv_of_nonneg (by omega),
    Int.tdiv_eq_ediv_of_nonneg (by omega), hcent, Int.tmod_eq_emod_of_nonneg (by omega)]
  omega

/-- The weeks between the first Mondays of two years. -/
theorem getWeeksInYear_eq (hy : 1 ≤ y) (hle : y ≤ 9999) :
    getWeeksInYear y = pure (((firstMonday (y + 1) - firstMonday y) / 7 : ℕ) : ℤ) := by
  have hrange : ¬ ((y : ℤ) < minYear ∨ (y : ℤ) > maxYear) := by
    unfold minYear maxYear
    omega
  have hp := p_eq y
  have hp' := p_eq (y - 1)
  rw [Nat.sub_add_cancel hy, Nat.cast_pred hy] at hp'
  have hnext := year_succ hy
  rw [getWeeksInYear, if_neg hrange, hp, hp']
  unfold firstMonday
  split
  all_goals
    congr 1
    omega

theorem dayOfWeek_eq (x : DateTime) : x.getDayOfWeekProperty = ((dayOf x + 1) % 7 : ℕ) := by
  rfl

theorem getWeekNumber_eq (x : DateTime) :
    getWeekNumber x + (daysBeforeYear x.date.year + 3) / 7 = (dayOf x : ℤ) / 7 + 1 := by
  have hnumber := dayNumber_date x
  rw [Date.dayNumber] at hnumber
  have hday : x.getDayOfYearProperty = x.date.dayOfYear + 1 := by
    rw [getDayOfYearProperty, toTm_eq]
  have hdef : dayOf x = x.ticks / ticksPerDay := rfl
  rw [getWeekNumber, dayOfWeek_eq, hday, isoWeekday, sunday]
  split
  all_goals
    rw [Int.tdiv_eq_ediv_of_nonneg (by omega)]
    omega

variable {x : DateTime}

theorem dayOf_bounds (hx : x.ticks ≤ maxTicks) :
    x.date.year ≤ 9999 ∧ dayOf x < 3652059 ∧ daysBeforeYear x.date.year ≤ dayOf x ∧
      dayOf x < daysBeforeYear (x.date.year + 1) := by
  have hyear := date_year_le hx
  have hnumber := dayNumber_date x
  have hlt := dayNumber_lt hyear
  have hin := x.date.dayOfYear_lt
  have hnext := daysBeforeYear_succ x.date.year_pos
  rw [Date.dayNumber] at hnumber hlt
  unfold dayOf
  omega

/-- Every day is between two first Mondays, and `getYear` and `getWeekOfYear` answer the year of
the earlier one and the weeks from it. -/
theorem year_and_week (hx : x.ticks ≤ maxTicks) :
    ∃ y, 1 ≤ y ∧ y ≤ 9999 ∧ firstMonday y ≤ dayOf x ∧ dayOf x < firstMonday (y + 1) ∧
      getYear x = pure (y : ℤ) ∧
      getWeekOfYear x = pure (((dayOf x - firstMonday y) / 7 + 1 : ℕ) : ℤ) := by
  obtain ⟨hyear, hbound, hlo, hhi⟩ := dayOf_bounds hx
  have hweek := getWeekNumber_eq x
  have hY : x.getYearProperty = x.date.year := (components_eq x).1
  have hpos := x.date.year_pos
  have hnext := year_succ hpos
  generalize x.date.year = Y at *
  rw [getYear, getWeekOfYear, hY]
  generalize getWeekNumber x = week at *
  by_cases hfirst : week < minWeek
  · -- the last week of the year before, which is not the year 0: day 0 is a Monday
    rw [if_pos hfirst, if_pos hfirst]
    unfold minWeek at hfirst
    have htwo : 2 ≤ Y := by
      by_contra hone
      rw [show Y = 1 by omega, show daysBeforeYear 1 = 0 from rfl] at hweek
      omega
    have hprev := year_succ (y := Y - 1) (by omega)
    have hweeks := getWeeksInYear_eq (y := Y - 1) (by omega) (by omega)
    rw [Nat.sub_add_cancel hpos] at hprev hweeks
    rw [Nat.cast_pred hpos] at hweeks
    refine ⟨Y - 1, by omega, by omega, ?_, ?_, by rw [Nat.cast_pred hpos], ?_⟩
    · unfold firstMonday
      omega
    · rw [Nat.sub_add_cancel hpos]
      unfold firstMonday
      omega
    · rw [hweeks]
      unfold firstMonday
      congr 2
      omega
  · rw [if_neg hfirst, if_neg hfirst]
    unfold minWeek at hfirst ⊢
    by_cases hlast : week > 52
    · rw [if_pos hlast, if_pos hlast, getWeeksInYear_eq hpos hyear, pure_bind, pure_bind]
      by_cases hshort : (((firstMonday (Y + 1) - firstMonday Y) / 7 : ℕ) : ℤ) = 52
      · -- the first week of the year after, which is not 10000: the last day is a Friday
        rw [if_pos hshort, if_pos hshort]
        have hnine : Y + 1 ≤ 9999 := by
          by_contra hten
          have hend : daysBeforeYear (Y + 1) = 3652059 := by
            rw [show Y + 1 = 10000 by omega, daysBeforeYear_tenThousand]
          unfold firstMonday at hshort
          omega
        have hafter := year_succ (y := Y + 1) (by omega)
        refine ⟨Y + 1, by omega, hnine, ?_, ?_, rfl, ?_⟩
        all_goals unfold firstMonday at hshort ⊢
        · omega
        · omega
        · congr 1
          omega
      · rw [if_neg hshort, if_neg hshort]
        unfold firstMonday at hshort ⊢
        refine ⟨Y, hpos, hyear, by omega, by omega, rfl, ?_⟩
        congr 1
        omega
    · rw [if_neg hlast, if_neg hlast]
      unfold firstMonday
      refine ⟨Y, hpos, hyear, by omega, by omega, rfl, ?_⟩
      congr 1
      omega

def jan4 (y : ℕ) (hy : 1 ≤ y) : Date where
  year := y
  month := 1
  day := 4
  year_pos := hy
  month_pos := Date.first.month_pos
  month_le := Date.first.month_le
  day_pos := Date.one_le_four
  day_le := (by decide : 4 ≤ 31)

theorem ticks_midnight (hn : n < 3652059) : (midnight n).ticks = n * ticksPerDay :=
  ticks_packed (by unfold ticksPerDay; omega) (by decide)

theorem dayOf_midnight (hn : n < 3652059) : dayOf (midnight n) = n := by
  rw [dayOf, ticks_midnight hn]
  exact Nat.mul_div_cancel n (by decide)

theorem addDays_near (x : DateTime) {days : ℤ} (hlo : -400 ≤ days) (hhi : days ≤ 400) :
    x.addDays days = sumOrThrow x (x.ticks + days * ticksPerDay) := by
  have hmax : maxDays = 3652058 := by decide
  have hunit : (ticksPerDay : ℤ) = 864000000000 := rfl
  rw [addDays, if_neg (by omega), addProduct_eq x (by rw [hunit]; omega) (by rw [hunit]; omega)]

theorem sumOrThrow_midnight (hx : x.kindBits = 0) (n : ℕ) :
    sumOrThrow x ((n * ticksPerDay : ℕ) : ℤ) =
      if n < 3652059 then pure (midnight n) else Run.throwing DateTime.valueOutOfRange := by
  have hlast : n * ticksPerDay ≤ maxTicks ↔ n < 3652059 := by
    unfold ticksPerDay maxTicks
    omega
  rw [sumOrThrow, Int.toNat_natCast, hx]
  simp only [Int.natCast_nonneg, true_and, Nat.cast_le, hlast]
  rfl

variable {w : ℕ} {dayOfWeek : ℤ}

/-- Weeks are counted from the first Monday; days past the calendar are refused. -/
theorem toDateTime_eq {k : ℕ} (hy : 1 ≤ y) (hle : y ≤ 9999) (hw : 1 ≤ w)
    (hw' : w ≤ 53) (hdow : 0 ≤ dayOfWeek ∧ dayOfWeek ≤ 7) (hk : isoWeekday dayOfWeek = k + 1)
    (hk' : k ≤ 6) :
    toDateTime y w dayOfWeek =
      if firstMonday y + 7 * (w - 1) + k < 3652059 then
        pure (midnight (firstMonday y + 7 * (w - 1) + k))
      else Run.throwing DateTime.valueOutOfRange := by
  have hyears : ¬ ((y : ℤ) < minYear ∨ (y : ℤ) > maxYear) := by
    unfold minYear maxYear
    omega
  have hweeks : ¬ ((w : ℤ) < minWeek ∨ (w : ℤ) > maxWeek) := by
    unfold minWeek maxWeek
    omega
  have hdays : ¬ (dayOfWeek < 0 ∨ dayOfWeek > 7) := by omega
  have hnear : -400 ≤ (w : ℤ) * 7 + ((k : ℤ) + 1) -
        (((daysBeforeYear y + 3) % 7 : ℕ) + 1 + 3) - 4 ∧
      (w : ℤ) * 7 + ((k : ℤ) + 1) - (((daysBeforeYear y + 3) % 7 : ℕ) + 1 + 3) - 4 ≤ 400 := by
    omega
  have hnumber : (jan4 y hy).dayNumber = daysBeforeYear y + 3 := rfl
  have hbound := dayNumber_lt (d := jan4 y hy) hle
  rw [hnumber] at hbound
  have hticks : dateToTicks y 1 4 0 0 0 0 = pure (ticksOf (jan4 y hy) 0 0 0 0 : ℤ) :=
    dateToTicks_date (d := jan4 y hy) hle (by decide) (by decide) (by decide) (by decide)
  have hjan4 : DateTime.ofComponents y 1 4 0 0 0 0 = pure (midnight (daysBeforeYear y + 3)) := by
    grind [DateTime.ofComponents, ticksOf, midnight, packed]
  have hkind : (midnight (daysBeforeYear y + 3)).kindBits = 0 :=
    kindBits_packed (by unfold ticksPerDay; omega) (by decide)
  have hweekday : isoWeekday (midnight (daysBeforeYear y + 3)).getDayOfWeekProperty =
      ((daysBeforeYear y + 3) % 7 : ℕ) + 1 := by
    rw [dayOfWeek_eq, dayOf_midnight hbound, isoWeekday, sunday]
    split <;> omega
  rw [toDateTime, if_neg hyears, if_neg hweeks, if_neg hdays, hjan4, pure_bind, hk, hweekday]
  have hsum : ((midnight (daysBeforeYear y + 3)).ticks : ℤ) + ((w : ℤ) * 7 + ((k : ℤ) + 1) -
      (((daysBeforeYear y + 3) % 7 : ℕ) + 1 + 3) - 4) * ticksPerDay =
      ((firstMonday y + 7 * (w - 1) + k) * ticksPerDay : ℕ) := by
    rw [ticks_midnight hbound, Nat.cast_mul, Nat.cast_mul, ← add_mul]
    congr 1
    unfold firstMonday
    omega
  rw [addDays_near _ hnear.1 hnear.2, hsum, sumOrThrow_midnight hkind]

/-- The queries answer a week of an ISO year, and the week leads back to the day. -/
structure WeekDate (x : DateTime) (y w weeks : ℕ) : Prop where
  year : getYear x = pure (y : ℤ)
  week : getWeekOfYear x = pure (w : ℤ)
  count : getWeeksInYear y = pure (weeks : ℤ)
  le : w ≤ weeks
  inWeek : InWeek (dayOf x) y w
  back : toDateTime y w x.getDayOfWeekProperty = pure (midnight (dayOf x))

theorem weekDate_of_bounds (hx : x.ticks ≤ maxTicks) (hy : 1 ≤ y)
    (hle : y ≤ 9999) (hlo : firstMonday y ≤ dayOf x) (hhi : dayOf x < firstMonday (y + 1))
    (hyear : getYear x = pure (y : ℤ))
    (hweek : getWeekOfYear x = pure (((dayOf x - firstMonday y) / 7 + 1 : ℕ) : ℤ)) :
    WeekDate x y ((dayOf x - firstMonday y) / 7 + 1) ((firstMonday (y + 1) - firstMonday y) / 7) := by
  have hbound := (dayOf_bounds hx).2.1
  have hnext := year_succ hy
  have hmonday : firstMonday y % 7 = 0 := Nat.mul_mod_right 7 _
  have hweekday := dayOfWeek_eq x
  have hlast : firstMonday (y + 1) ≤ firstMonday y + 7 * 53 ∧ firstMonday (y + 1) % 7 = 0 := by
    unfold firstMonday
    omega
  refine ⟨hyear, hweek, getWeeksInYear_eq hy hle, by omega, inWeek_of_bounds hlo hhi, ?_⟩
  have hk : isoWeekday x.getDayOfWeekProperty = (dayOf x % 7 : ℕ) + 1 := by
    rw [hweekday, isoWeekday, sunday]
    split <;> omega
  have hday : firstMonday y + 7 * ((dayOf x - firstMonday y) / 7 + 1 - 1) + dayOf x % 7 = dayOf x := by
    omega
  rw [toDateTime_eq hy hle (by omega) (by omega) (by omega) hk (by omega), hday, if_pos hbound]

theorem firstMonday_mono {y' : ℕ} (h : y ≤ y') : firstMonday y ≤ firstMonday y' := by
  have hle := daysBeforeYear_mono h
  unfold firstMonday
  omega

theorem getWeeksInYear_returns {weeks : ℤ} (h : getWeeksInYear y = pure weeks) :
    1 ≤ y ∧ y ≤ 9999 := by
  by_contra hout
  rw [getWeeksInYear, if_pos (by unfold minYear maxYear; omega)] at h
  exact not_outOfRange_pure _ (h ▸ OutOfRange.intro "year")

theorem weekDate_of_toDateTime {weeks : ℕ} {r : DateTime}
    (hweeks : getWeeksInYear y = pure (weeks : ℤ)) (hw : 1 ≤ w) (hle : w ≤ weeks)
    (hdow : 0 ≤ dayOfWeek ∧ dayOfWeek ≤ 6) (hr : toDateTime y w dayOfWeek = pure r) :
    WeekDate r y w weeks ∧ r.getDayOfWeekProperty = dayOfWeek := by
  obtain ⟨hy, hy'⟩ := getWeeksInYear_returns hweeks
  have hcount := hweeks
  rw [getWeeksInYear_eq hy hy', Run.pure_inj, Nat.cast_inj] at hcount
  have hnext := year_succ hy
  have hspan : firstMonday (y + 1) = firstMonday y + 7 * weeks ∧ weeks ≤ 53 ∧
      firstMonday y % 7 = 0 := by
    unfold firstMonday at hcount ⊢
    omega
  obtain ⟨k, hk, hk'⟩ : ∃ k : ℕ, isoWeekday dayOfWeek = k + 1 ∧ k ≤ 6 := by
    refine ⟨(isoWeekday dayOfWeek - 1).toNat, ?_⟩
    unfold isoWeekday sunday
    split <;> omega
  rw [toDateTime_eq hy hy' hw (by omega) ⟨hdow.1, by omega⟩ hk hk'] at hr
  split at hr
  case isFalse hout => exact absurd ⟨_, _, hr.symm⟩ (not_outOfRange_pure r)
  case isTrue hin =>
    obtain rfl := Run.pure_inj.mp hr
    have hday := dayOf_midnight hin
    have hticks : (midnight (firstMonday y + 7 * (w - 1) + k)).ticks ≤ maxTicks := by
      rw [ticks_midnight hin]
      unfold ticksPerDay maxTicks
      omega
    obtain ⟨y', hpos, hlast, hlo, hhi, hyear, hweek⟩ := year_and_week hticks
    have hdate := weekDate_of_bounds hticks hpos hlast hlo hhi hyear hweek
    rw [hday] at hlo hhi hdate
    obtain rfl : y' = y := by
      rcases lt_trichotomy y' y with hlt | heq | hgt
      · have hmono := firstMonday_mono (show y' + 1 ≤ y from hlt)
        omega
      · exact heq
      · have hmono := firstMonday_mono (show y + 1 ≤ y' from hgt)
        omega
    rw [show (firstMonday y' + 7 * (w - 1) + k - firstMonday y') / 7 + 1 = w by omega,
      hcount] at hdate
    refine ⟨hdate, ?_⟩
    rw [dayOfWeek_eq, hday]
    unfold isoWeekday sunday at hk
    split at hk <;> omega

theorem getYearStart_eq (hy : 1 ≤ y) (hle : y ≤ 9999) :
    getYearStart y = pure (midnight (firstMonday y)) ∧ firstMonday y < 3652059 := by
  have hbound : firstMonday y < 3652059 := by
    have hnumber := dayNumber_lt (d := jan4 y hy) hle
    rw [show (jan4 y hy).dayNumber = daysBeforeYear y + 3 from rfl] at hnumber
    unfold firstMonday
    omega
  refine ⟨?_, hbound⟩
  have h := toDateTime_eq (k := 0) hy hle (le_refl 1) (by decide)
    (show 0 ≤ monday ∧ monday ≤ 7 by decide) (by decide) (by decide)
  exact h.trans (if_pos hbound)

/-- **The ISO week dates are the days**: every day has one week of one ISO year, counted from the
week with the first Thursday, which leads back to it; every week of a year and day of the week
is the one of the day it leads to; and a year is as many weeks long as it has. -/
theorem iso_week_dates :
    (∀ x : DateTime, x.Valid → ∃ y w weeks, WeekDate x y w weeks) ∧
    (∀ (y w weeks : ℕ) (dayOfWeek : ℤ) (r : DateTime), getWeeksInYear y = pure (weeks : ℤ) →
      1 ≤ w → w ≤ weeks → 0 ≤ dayOfWeek ∧ dayOfWeek ≤ 6 → toDateTime y w dayOfWeek = pure r →
      WeekDate r y w weeks ∧ r.getDayOfWeekProperty = dayOfWeek) ∧
    (∀ y : ℕ, 1 ≤ y → y ≤ 9998 → ∃ (weeks : ℕ) (start next : DateTime),
      getWeeksInYear y = pure (weeks : ℤ) ∧ getYearStart y = pure start ∧
        getYearStart (y + 1) = pure next ∧
        next.ticks = start.ticks + weeks * 7 * ticksPerDay) := by
  refine ⟨fun x hx => ?_, fun y w weeks dayOfWeek r hweeks hw hle hdow hr =>
    weekDate_of_toDateTime hweeks hw hle hdow hr, fun y hy hle => ?_⟩
  · obtain ⟨y, hy, hle, hlo, hhi, hyear, hweek⟩ := year_and_week hx.ticks_le
    exact ⟨y, _, _, weekDate_of_bounds hx.ticks_le hy hle hlo hhi hyear hweek⟩
  · obtain ⟨hstart, hbound⟩ := getYearStart_eq hy (by omega)
    obtain ⟨hnext, hbound'⟩ := getYearStart_eq (y := y + 1) (by omega) (by omega)
    refine ⟨_, _, _, getWeeksInYear_eq hy (by omega), hstart, hnext, ?_⟩
    rw [ticks_midnight hbound, ticks_midnight hbound', ← add_mul]
    congr 1
    have hmono := firstMonday_mono (Nat.le_add_right y 1)
    unfold firstMonday at hmono ⊢
    omega

/-- The theorem on Monday, December 29 of 2025, the first day of the ISO year 2026. -/
theorem iso_week_dates_monday :
    (midnight 739613).Valid ∧ (∃ y w weeks, WeekDate (midnight 739613) y w weeks) ∧
      WeekDate (midnight 739613) 2026 1 53 ∧
      ∃ (weeks : ℕ) (start next : DateTime), getWeeksInYear (2026 : ℕ) = pure (weeks : ℤ) ∧
        getYearStart (2026 : ℕ) = pure start ∧ getYearStart ((2026 : ℕ) + 1) = pure next ∧
        next.ticks = start.ticks + weeks * 7 * ticksPerDay := by
  have hvalid : (midnight 739613).Valid := valid_packed (by decide) (by decide)
  exact ⟨hvalid, iso_week_dates.1 _ hvalid, (iso_week_dates.2.1 2026 1 53 monday _ (by decide)
    (by decide) (by decide) (by decide) (by decide +kernel)).1,
    iso_week_dates.2.2 2026 (by decide) (by decide)⟩

end SharpRuntime.Analysis.ISOWeeks
