import SharpRuntime.Interface.DateTimeValue

/-!
# The calendar of a `DateTime`

`toTm` takes a tick count apart by cycles of 400, 100, 4 and 1 years and finds the month by a scan
that starts at an estimate; `dateToTicks` adds the components up with the closed form of the leap
years.  Both agree with counting days from 0001-01-01 (`toTm_eq`, `dateToTicks_date`), which makes
the decomposition a bijection (`calendar_bijection`).
-/

set_option autoImplicit false

namespace SharpRuntime.Analysis.DateTimeCalendar

open Machine Machine.Gregorian Model Model.DateTime

/-- The cycles find the year and the day in it; the two clamps are what keeps the last day of
a leap century and of a leap year in the year it belongs to. -/
theorem yearOfDays_spec (n : ℕ) :
    1 ≤ (yearOfDays n).1 ∧
      (yearOfDays n).2.1 < yearLength (yearOfDays n).1 ∧
      daysBeforeYear (yearOfDays n).1 + (yearOfDays n).2.1 = n ∧
      (yearOfDays n).2.2 = leap (yearOfDays n).1 := by
  have h1 : daysPerYear = 365 := rfl
  have h4 : daysPer4Years = 1461 := rfl
  have h100 : daysPer100Years = 36524 := rfl
  have h400 : daysPer400Years = 146097 := rfl
  simp only [yearOfDays, h1, h4, h100, h400]
  generalize ha : n / 146097 = a
  generalize hr : n - a * 146097 = r
  generalize hb : (if r / 36524 = 4 then 3 else r / 36524) = b
  generalize hs : r - b * 36524 = s
  generalize hc : s / 1461 = c
  generalize hu : s - c * 1461 = u
  generalize hd : (if u / 365 = 4 then 3 else u / 365) = d
  have hb3 : b ≤ 3 ∧ b * 36524 ≤ r ∧ s ≤ 36524 ∧ (b < 3 → s < 36524) := by
    split at hb <;> omega
  have hc24 : c ≤ 24 ∧ u < 1461 ∧ (c = 24 → b < 3 → u < 1460) := by omega
  have hd3 : d ≤ 3 ∧ d * 365 ≤ u ∧ u - d * 365 ≤ 365 ∧ (d < 3 → u - d * 365 < 365) := by
    split at hd <;> omega
  have hyear : a * 400 + b * 100 + c * 4 + d + 1 = 400 * a + 100 * b + 4 * c + d + 1 := by omega
  rw [hyear, daysBeforeYear_cycles hb3.1 hc24.1 hd3.1, yearLength, leap_cycles hb3.1 hc24.1 hd3.1]
  refine ⟨by omega, ?_, by omega, rfl⟩
  split
  case isTrue hleap => omega
  case isFalse hleap =>
    -- a year of 365 days: not the last of its cycle, or the last of a century that is not
    grind

theorem daysToMonth_getD (year month : ℕ) (h1 : 1 ≤ month) (h13 : month ≤ 13) :
    (if leap year then daysToMonth366 else daysToMonth365).getD (month - 1) 0 =
      daysBeforeMonth year month := by
  cases hleap : leap year <;> interval_cases month <;>
    simp [daysBeforeMonth, Finset.sum_range_succ, monthLength, hleap, daysToMonth365, daysToMonth366]

theorem scanMonth_spec {r : ℕ} {table : List ℕ} (hend : ∃ b ∈ table, r < b) (month : ℕ) :
    month ≤ scanMonth r month table ∧ scanMonth r month table < month + table.length ∧
      (∀ i, month + i < scanMonth r month table → table.getD i 0 ≤ r) ∧
      r < table.getD (scanMonth r month table - month) 0 := by
  induction table generalizing month with
  | nil => simp at hend
  | cons b rest ih =>
    rw [scanMonth]
    split
    case isFalse hlt => grind
    case isTrue hge =>
      have hrest : ∃ b ∈ rest, r < b := by grind
      obtain ⟨hle, hlt, hbelow, habove⟩ := ih hrest (month + 1)
      refine ⟨by omega, by simp only [List.length_cons]; omega, ?_, ?_⟩
      · intro i hi
        cases i with
        | zero => simpa using hge
        | succ i => simpa using hbelow i (by omega)
      · grind

theorem guess_le (year : ℕ) {k : ℕ} (hk : k ≤ 12) : daysBeforeMonth year (k + 1) ≤ 32 * k := by
  induction k with
  | zero => simp [daysBeforeMonth]
  | succ k ih =>
    have hle : monthLength year (k + 1) ≤ 32 := by
      unfold monthLength
      split
      · split <;> decide
      all_goals decide
    rw [daysBeforeMonth_succ year (by omega)]
    omega

theorem monthOfDays_spec {year r : ℕ} (hr : r < yearLength year) :
    1 ≤ monthOfDays (if leap year then daysToMonth366 else daysToMonth365) r ∧
      monthOfDays (if leap year then daysToMonth366 else daysToMonth365) r ≤ 12 ∧
      daysBeforeMonth year (monthOfDays (if leap year then daysToMonth366 else daysToMonth365) r)
        ≤ r ∧
      r < daysBeforeMonth year
        (monthOfDays (if leap year then daysToMonth366 else daysToMonth365) r + 1) := by
  have hget := fun m => daysToMonth_getD year m
  have hlen : (if leap year then daysToMonth366 else daysToMonth365).length = 13 := by
    split <;> rfl
  generalize (if leap year then daysToMonth366 else daysToMonth365) = table at hget hlen ⊢
  have hguess : r >>> 5 = r / 32 := Nat.shiftRight_eq_div_pow r 5
  have hr366 : r < 366 := by
    unfold yearLength at hr
    split at hr <;> omega
  simp only [monthOfDays, hguess]
  have hdrop : ∀ i, (table.drop (r / 32 + 1)).getD i 0 = table.getD (r / 32 + 1 + i) 0 := by
    intro i
    simp only [List.getD_eq_getElem?_getD, List.getElem?_drop]
  have hlast : table.getD 12 0 = yearLength year := by
    rw [hget 13 (by omega) (by omega), daysBeforeMonth_thirteen]
  have hend : ∃ b ∈ table.drop (r / 32 + 1), r < b := by
    refine ⟨yearLength year, ?_, hr⟩
    rw [← hlast, List.getD_eq_getElem table 0 (by omega), List.mem_iff_getElem]
    refine ⟨12 - (r / 32 + 1), by rw [List.length_drop]; omega, ?_⟩
    rw [List.getElem_drop]
    congr 1
    omega
  obtain ⟨hle, hlt, hbelow, habove⟩ := scanMonth_spec hend (r / 32 + 1)
  generalize scanMonth r (r / 32 + 1) (table.drop (r / 32 + 1)) = m at hle hlt hbelow habove ⊢
  rw [List.length_drop, hlen] at hlt
  refine ⟨by omega, by omega, ?_, ?_⟩
  · by_cases hm : m = r / 32 + 1
    · have h := guess_le year (k := r / 32) (by omega)
      rw [hm]
      omega
    · have h := hbelow (m - 1 - (r / 32 + 1)) (by omega)
      rw [hdrop] at h
      have hidx : r / 32 + 1 + (m - 1 - (r / 32 + 1)) = m - 1 := by omega
      rwa [hidx, hget m (by omega) (by omega)] at h
  · grind

/-- **The components of a `DateTime` are those of the date it falls on**, and of the time of
day. -/
theorem toTm_eq (x : DateTime) :
    x.toTm = {
      tm_year := (x.date.year : ℤ) - 1900
      tm_mon := (x.date.month : ℤ) - 1
      tm_mday := x.date.day
      tm_yday := x.date.dayOfYear
      tm_wday := ((x.ticks / ticksPerDay + 1) % 7 : ℕ)
      tm_hour := (x.ticks % ticksPerDay / ticksPerHour : ℕ)
      tm_min := (x.ticks % ticksPerDay % ticksPerHour / ticksPerMinute : ℕ)
      tm_sec := (x.ticks % ticksPerDay % ticksPerHour % ticksPerMinute / ticksPerSecond : ℕ) } := by
  obtain ⟨hy, hr, hsum, hleap⟩ := yearOfDays_spec (x.ticks / ticksPerDay)
  have hnumber := dayNumber_date x
  obtain ⟨hyear, hday⟩ :=
    year_unique hy x.date.year_pos hr x.date.dayOfYear_lt (hsum.trans hnumber.symm)
  have hlt := x.date.dayOfYear_lt
  obtain ⟨hm1, hm12, hbelow, habove⟩ := monthOfDays_spec hlt
  simp only [toTm]
  rw [hleap, hyear, hday]
  generalize hm : monthOfDays (if leap x.date.year then daysToMonth366 else daysToMonth365)
    x.date.dayOfYear = m at hm1 hm12 hbelow habove ⊢
  rw [daysToMonth_getD x.date.year _ hm1 (by omega)]
  rw [daysBeforeMonth_succ _ hm1] at habove
  have hpos := x.date.day_pos
  have hle := x.date.day_le
  obtain ⟨hmonth, hd⟩ := month_unique hm1 x.date.month_pos
    (show x.date.dayOfYear - daysBeforeMonth x.date.year m < monthLength x.date.year m by omega)
    (show x.date.day - 1 < monthLength x.date.year x.date.month by omega)
    (by rw [Nat.add_sub_cancel' hbelow, Date.dayOfYear])
  rw [hmonth] at hd hbelow ⊢
  have hmday : (x.date.dayOfYear : ℤ) - (daysBeforeMonth x.date.year x.date.month : ℕ) + 1 =
      x.date.day := by omega
  rw [hmday]

theorem isLeap_natCast (y : ℕ) : isLeap (y : ℤ) = leap y := by grind [leap_eq_true, isLeap]

theorem daysInMonth_eq {year month : ℕ} (hy : 1 ≤ year ∧ year ≤ 9999)
    (hm : 1 ≤ month ∧ month ≤ 12) :
    daysInMonth year month = pure (monthLength year month : ℤ) := by
  have hy' : ¬ ((year : ℤ) < 1 ∨ (year : ℤ) > 9999) := by omega
  have hm' : ¬ ((month : ℤ) < 1 ∨ (month : ℤ) > 12) := by omega
  rw [daysInMonth, if_neg hm', isLeapYear, if_neg hy', pure_bind, isLeap_natCast]
  obtain ⟨h1, h12⟩ := hm
  cases hleap : leap year <;> interval_cases month <;> simp [monthLength, hleap]

theorem exists_date {year month day dim : ℤ} (h : daysInMonth year month = pure dim)
    (h1 : 1 ≤ day) (hday : day ≤ dim) :
    ∃ d : Date, d.year ≤ 9999 ∧ year = d.year ∧ month = d.month ∧ day = d.day := by
  have hm : ¬ (month < 1 ∨ month > 12) := by
    intro hc
    rw [daysInMonth, if_pos hc] at h
    cases h
  have hy : ¬ (year < 1 ∨ year > 9999) := by
    intro hc
    rw [daysInMonth, if_neg hm, isLeapYear, if_pos hc] at h
    cases h
  lift year to ℕ using by omega
  lift month to ℕ using by omega
  lift day to ℕ using by omega
  rw [daysInMonth_eq (by omega) (by omega), Run.pure_inj] at h
  exact ⟨⟨year, month, day, by omega, by omega, by omega, by omega, by omega⟩,
    by simp only; omega, rfl, rfl, rfl⟩

theorem dayNumber_closed (d : Date) :
    (d.dayNumber : ℤ) = ((d.year : ℤ) - 1) * 365 + ((d.year : ℤ) - 1) / 4 - ((d.year : ℤ) - 1) / 100
      + ((d.year : ℤ) - 1) / 400 + daysBeforeMonth d.year d.month + d.day - 1 := by
  obtain ⟨y, hy⟩ : ∃ y, d.year = y + 1 := ⟨d.year - 1, by have := d.year_pos; omega⟩
  have hyears := daysBeforeYear_eq y
  have hpos := d.day_pos
  rw [← hy] at hyears
  rw [Date.dayNumber, Date.dayOfYear]
  omega

def ticksOf (d : Date) (hour minute second millisecond : ℕ) : ℕ :=
  d.dayNumber * ticksPerDay + hour * ticksPerHour + minute * ticksPerMinute
    + second * ticksPerSecond + millisecond * ticksPerMillisecond

variable {d : Date}

theorem dayNumber_lt (hyear : d.year ≤ 9999) : d.dayNumber < 3652059 := by
  rw [← daysBeforeYear_tenThousand]
  exact d.year_lt_iff.mp (by omega)

variable {hour minute second millisecond : ℕ}

theorem ticksOf_le (hyear : d.year ≤ 9999)
    (hh : hour < 24) (hm : minute < 60) (hs : second < 60) (hms : millisecond < 1000) :
    ticksOf d hour minute second millisecond ≤ maxTicks := by
  have hd := dayNumber_lt hyear
  simp only [ticksOf, ticksPerDay, ticksPerHour, ticksPerMinute, ticksPerSecond,
    ticksPerMillisecond, maxTicks]
  omega

/-- **`dateToTicks` counts the days before the date**, and adds the time of day. -/
theorem dateToTicks_date (hyear : d.year ≤ 9999) (hh : hour < 24) (hm : minute < 60) (hs : second < 60)
    (hms : millisecond < 1000) :
    dateToTicks d.year d.month d.day hour minute second millisecond =
      pure (ticksOf d hour minute second millisecond : ℤ) := by
  have hy1 := d.year_pos
  have hm1 := d.month_pos
  have hm12 := d.month_le
  have hd1 := d.day_pos
  have hle := d.day_le
  have hrange : ¬ ((d.year : ℤ) < 1 ∨ (d.year : ℤ) > 9999 ∨ (d.month : ℤ) < 1 ∨
      (d.month : ℤ) > 12 ∨ (d.day : ℤ) < 1) := by omega
  have hthis : ((d.month : ℤ) - 1).toNat = d.month - 1 := by omega
  have hstart := daysToMonth_getD d.year _ hm1 (by omega)
  have hnext := daysToMonth_getD d.year (d.month + 1) (by omega) (by omega)
  rw [Nat.add_sub_cancel, daysBeforeMonth_succ d.year hm1] at hnext
  have hday : ¬ ((d.day : ℤ) > ((daysBeforeMonth d.year d.month + monthLength d.year d.month : ℕ) : ℤ)
      - (daysBeforeMonth d.year d.month : ℕ)) := by omega
  have htime : ¬ (wrap 32 (hour : ℤ) ≥ 24 ∨ wrap 32 (minute : ℤ) ≥ 60 ∨ wrap 32 (second : ℤ) ≥ 60) := by
    rw [wrap_of_lt (by omega), wrap_of_lt (by omega), wrap_of_lt (by omega)]
    omega
  have hmilli : ¬ (wrap 32 (millisecond : ℤ) ≥ 1000) := by
    rw [wrap_of_lt (by omega)]
    omega
  have hsum := ticksOf_le hyear hh hm hs hms
  have hmax : maxTicks < 2 ^ 63 := by decide
  rw [dateToTicks, if_neg hrange]
  simp only [isLeap_natCast, Int.toNat_natCast, hthis, hstart, hnext]
  rw [if_neg hday, if_neg htime, if_neg hmilli, ← dayNumber_closed]
  have hcast : (d.dayNumber : ℤ) * ticksPerDay + hour * ticksPerHour + minute * ticksPerMinute
      + second * ticksPerSecond + millisecond * ticksPerMillisecond =
      (ticksOf d hour minute second millisecond : ℤ) := by
    rw [ticksOf]
    push_cast
    ring
  exact Run.signed_eq_pure (by decide) (by omega) (by omega)

variable (ticks : ℕ)

theorem hourOf_lt : hourOf ticks < 24 := by
  simp only [hourOf, ticksPerDay, ticksPerHour]
  omega

theorem minuteOf_lt : minuteOf ticks < 60 := by
  simp only [minuteOf, ticksPerDay, ticksPerHour, ticksPerMinute]
  omega

theorem secondOf_lt : secondOf ticks < 60 := by
  simp only [secondOf, ticksPerDay, ticksPerHour, ticksPerMinute, ticksPerSecond]
  omega

theorem ticks_split : ticks / ticksPerDay * ticksPerDay + hourOf ticks * ticksPerHour
      + minuteOf ticks * ticksPerMinute + secondOf ticks * ticksPerSecond
      + ticks % ticksPerSecond = ticks := by
  simp only [hourOf, minuteOf, secondOf, ticksPerDay, ticksPerHour, ticksPerMinute, ticksPerSecond]
  omega

theorem ticks_parts {n rest : ℕ} (hh : hour < 24) (hm : minute < 60)
    (hs : second < 60) (hr : rest < ticksPerSecond) {ticks : ℕ}
    (h : ticks = n * ticksPerDay + hour * ticksPerHour + minute * ticksPerMinute
      + second * ticksPerSecond + rest) :
    ticks / ticksPerDay = n ∧ hourOf ticks = hour ∧ minuteOf ticks = minute ∧
      secondOf ticks = second ∧ ticks % ticksPerSecond = rest := by
  simp only [ticksPerSecond] at hr
  simp only [hourOf, minuteOf, secondOf, ticksPerDay, ticksPerHour, ticksPerMinute,
    ticksPerSecond] at h ⊢
  omega

theorem dateToTicks_toTm {x : DateTime} (hx : x.ticks ≤ maxTicks) :
    dateToTicks x.getYearProperty x.getMonthProperty x.getDayProperty x.getHourProperty
        x.getMinuteProperty x.getSecondProperty 0 =
      pure ((x.ticks - x.ticks % ticksPerSecond : ℕ) : ℤ) := by
  have hsplit := ticks_split x.ticks
  have h := dateToTicks_date (d := x.date) (date_year_le hx) (hourOf_lt x.ticks)
    (minuteOf_lt x.ticks) (secondOf_lt x.ticks) (by decide : 0 < 1000)
  have hticks : ticksOf x.date (hourOf x.ticks) (minuteOf x.ticks) (secondOf x.ticks) 0 =
      x.ticks - x.ticks % ticksPerSecond := by
    rw [ticksOf, dayNumber_date]
    omega
  rw [hticks] at h
  rw [← h]
  simp only [getYearProperty, getMonthProperty, getDayProperty, getHourProperty,
    getMinuteProperty, getSecondProperty, toTm_eq, sub_add_cancel]
  rfl

theorem toTm_ticksOf {x : DateTime}
    (hh : hour < 24) (hm : minute < 60) (hs : second < 60) (hms : millisecond < 1000)
    (h : x.ticks = ticksOf d hour minute second millisecond) :
    x.toTm = {
      tm_year := (d.year : ℤ) - 1900
      tm_mon := (d.month : ℤ) - 1
      tm_mday := d.day
      tm_yday := d.dayOfYear
      tm_wday := ((d.dayNumber + 1) % 7 : ℕ)
      tm_hour := hour
      tm_min := minute
      tm_sec := second } ∧ x.getMillisecondProperty = millisecond := by
  have hrest : millisecond * ticksPerMillisecond < ticksPerSecond := by
    simp only [ticksPerMillisecond, ticksPerSecond]
    omega
  obtain ⟨hdays, hhour, hminute, hsecond, hbelow⟩ := ticks_parts hh hm hs hrest h
  have hdate : x.date = d := by
    rw [date, hdays, Date.ofDayNumber_dayNumber]
  constructor
  · grind [toTm_eq, hourOf, minuteOf, secondOf]
  · rw [getMillisecondProperty, hbelow, Nat.mul_div_cancel _ (by decide)]

/-- **The calendar decomposition is a bijection.**  The components of any tick count up to
`maxTicks` are valid, go back to the count, and are those of the date reached by counting
days from Monday, 0001-01-01; and the tick count of any valid components decomposes into them. -/
theorem calendar_bijection :
    (∀ x : DateTime, x.ticks ≤ maxTicks →
      (1 ≤ x.getYearProperty ∧ x.getYearProperty ≤ 9999 ∧
        1 ≤ x.getMonthProperty ∧ x.getMonthProperty ≤ 12 ∧
        (∃ dim, daysInMonth x.getYearProperty x.getMonthProperty = pure dim ∧
          1 ≤ x.getDayProperty ∧ x.getDayProperty ≤ dim) ∧
        0 ≤ x.getHourProperty ∧ x.getHourProperty < 24 ∧
        0 ≤ x.getMinuteProperty ∧ x.getMinuteProperty < 60 ∧
        0 ≤ x.getSecondProperty ∧ x.getSecondProperty < 60) ∧
      (∃ n : ℤ, dateToTicks x.getYearProperty x.getMonthProperty x.getDayProperty
          x.getHourProperty x.getMinuteProperty x.getSecondProperty 0 = pure n ∧
        n + (x.ticks % ticksPerSecond : ℕ) = x.ticks) ∧
      ∃ d : Date, d = Date.tomorrow^[x.ticks / ticksPerDay] Date.first ∧
        x.getYearProperty = d.year ∧ x.getMonthProperty = d.month ∧ x.getDayProperty = d.day ∧
        x.getDayOfYearProperty = d.dayOfYear + 1 ∧
        x.getDayOfWeekProperty = (1 + (x.ticks / ticksPerDay : ℕ)) % 7) ∧
    ∀ year month day dim hour minute second millisecond : ℤ,
      daysInMonth year month = pure dim → 1 ≤ day → day ≤ dim →
      0 ≤ hour → hour < 24 → 0 ≤ minute → minute < 60 → 0 ≤ second → second < 60 →
      0 ≤ millisecond → millisecond < 1000 →
      ∃ n : ℕ, n ≤ maxTicks ∧
        dateToTicks year month day hour minute second millisecond = pure (n : ℤ) ∧
        ∀ x : DateTime, x.ticks = n →
          x.getYearProperty = year ∧ x.getMonthProperty = month ∧ x.getDayProperty = day ∧
          x.getHourProperty = hour ∧ x.getMinuteProperty = minute ∧
          x.getSecondProperty = second ∧ x.getMillisecondProperty = millisecond := by
  constructor
  · intro x hx
    have hyear := date_year_le hx
    have hpos := x.date.year_pos
    have hm1 := x.date.month_pos
    have hm12 := x.date.month_le
    have hd1 := x.date.day_pos
    have hday := x.date.day_le
    have hback := dateToTicks_toTm hx
    have htm := toTm_eq x
    have hh := hourOf_lt x.ticks
    have hm := minuteOf_lt x.ticks
    have hs := secondOf_lt x.ticks
    have hY : x.getYearProperty = x.date.year := by rw [getYearProperty, htm, sub_add_cancel]
    have hM : x.getMonthProperty = x.date.month := by rw [getMonthProperty, htm, sub_add_cancel]
    have hD : x.getDayProperty = x.date.day := by rw [getDayProperty, htm]
    have hH : x.getHourProperty = hourOf x.ticks := by rw [getHourProperty, htm]; rfl
    have hMin : x.getMinuteProperty = minuteOf x.ticks := by rw [getMinuteProperty, htm]; rfl
    have hS : x.getSecondProperty = secondOf x.ticks := by rw [getSecondProperty, htm]; rfl
    have hmod : x.ticks % ticksPerSecond ≤ x.ticks := Nat.mod_le _ _
    refine ⟨?_, ⟨_, hback, by push_cast [hmod]; omega⟩, ?_⟩
    · grind [daysInMonth_eq]
    · refine ⟨x.date, rfl, hY, hM, hD, ?_, ?_⟩
      · rw [getDayOfYearProperty, htm]
      · grind [getDayOfWeekProperty]
  · intro year month day dim hour minute second millisecond hdim h1 hday hh0 hh hm0 hm hs0 hs hms0 hms
    obtain ⟨d, hyear, rfl, rfl, rfl⟩ := exists_date hdim h1 hday
    lift hour to ℕ using hh0
    lift minute to ℕ using hm0
    lift second to ℕ using hs0
    lift millisecond to ℕ using hms0
    refine ⟨ticksOf d hour minute second millisecond,
      ticksOf_le hyear (by omega) (by omega) (by omega) (by omega),
      dateToTicks_date hyear (by omega) (by omega) (by omega) (by omega), ?_⟩
    intro x hx
    obtain ⟨htm, hmilli⟩ := toTm_ticksOf (by omega) (by omega) (by omega) (by omega) hx
    grind [getYearProperty, getMonthProperty, getDayProperty, getHourProperty,
      getMinuteProperty, getSecondProperty]

/-- February 29 of 2000, the last day of a century that is a leap year's. -/
theorem calendar_bijection_leap_century :
    (∃ n : ℤ, dateToTicks 2000 2 29 23 59 59 999 = pure n) ∧
      (DateTime.mk 0).getDayOfWeekProperty = 1 := by
  constructor
  · obtain ⟨n, -, hn, -⟩ := calendar_bijection.2 2000 2 29 29 23 59 59 999 rfl (by decide)
      (by decide) (by decide) (by decide) (by decide) (by decide) (by decide) (by decide)
      (by decide) (by decide)
    exact ⟨n, hn⟩
  · obtain ⟨-, -, d, -, -, -, -, -, hweek⟩ := calendar_bijection.1 (DateTime.mk 0) (by decide)
    exact hweek

end SharpRuntime.Analysis.DateTimeCalendar
