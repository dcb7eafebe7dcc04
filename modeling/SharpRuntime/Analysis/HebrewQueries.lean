import SharpRuntime.Analysis.HebrewDates

/-!
# Queries of the Hebrew calendar

The queries of a day answer the date with its number for all Gregorian years of the table, also for
the last days of 2239, which are past the range that the class documents (`MeetsRange`).
-/

set_option autoImplicit false
set_option maxRecDepth 20000

namespace SharpRuntime.Analysis.HebrewQueries

open Machine Model Model.DateTime Model.HebrewCalendar
open Model.Calendar Interface Interface.HebrewDate
open CalendarArithmetic HebrewDates
open OutOfRange

def hebrewClass : CalendarClass where
  getYear := getYear
  getMonth := getMonth
  getDayOfMonth := getDayOfMonth
  getDayOfYear := getDayOfYear
  addMonths := HebrewCalendar.addMonths
  toDateTime year month day hour minute second millisecond :=
    toDateTime year month day hour minute second millisecond currentEra

/-! ## The documented range -/

/-- SOURCE: HebrewCalendar.hpp:20 -/
def minSupported : Gregorian.Date :=
  ⟨1583, 1, 1, by decide, Gregorian.Date.first.month_pos, Gregorian.Date.first.month_le,
    Gregorian.Date.first.day_pos, by decide⟩

def maxSupported : Gregorian.Date :=
  ⟨2239, 9, 29, by decide, by decide, by decide, by decide, by decide⟩

def Supported (x : DateTime) : Prop :=
  minSupported.dayNumber ≤ dayOf x ∧ dayOf x ≤ maxSupported.dayNumber

theorem minSupported_dayNumber : minSupported.dayNumber = 577813 := by
  have h := Gregorian.daysBeforeYear_eq 1582
  rw [Gregorian.Date.dayNumber, show minSupported.year = 1582 + 1 from rfl,
    show minSupported.dayOfYear = 0 from rfl]
  omega

theorem maxSupported_dayNumber : maxSupported.dayNumber = 817683 := by
  have h := Gregorian.daysBeforeYear_eq 2238
  rw [Gregorian.Date.dayNumber, show maxSupported.year = 2238 + 1 from rfl,
    show maxSupported.dayOfYear = 271 from by decide]
  omega

theorem start_first : start 5343 = 577717 := by
  have h := Gregorian.daysBeforeYear_eq 1582
  have hposition : position (code 5343) (yearType 5343) = 96 := by decide
  rw [start, gregorianYear_eq (g := 1582 + 1) rfl, hposition]
  omega

theorem start_last : start 6000 = 817684 := by
  have h := Gregorian.daysBeforeYear_eq 2239
  have hposition : position (code 6000) (yearType 6000) = 93 := by decide
  rw [start, gregorianYear_eq (g := 2239 + 1) rfl, hposition]
  omega

variable (d : calendar.Date) (y : ℤ)

theorem dayNumber_bounds (h : d.year ≤ 5999) : 577717 ≤ d.dayNumber ∧ d.dayNumber < 817684 := by
  have hlo := d.first_le_dayNumber
  have hhi := d.dayNumber_lt_of_year (y := 6000) (by omega) (Nat.le_refl 6000)
  rw [calendar_first, calendar_start, start_first] at hlo
  rw [calendar_start, start_last] at hhi
  exact ⟨hlo, hhi⟩

theorem year_le_iff : d.year ≤ 5999 ↔ d.dayNumber < 817684 := by
  constructor
  · intro h
    exact (dayNumber_bounds d h).2
  · intro h
    by_contra hlt
    have hlast : d.year ≤ 6000 := d.le_last
    have hstart := d.start_le_dayNumber
    rw [show d.year = 6000 by omega, calendar_start, start_last] at hstart
    omega

/-! ## One day -/

theorem hebrewToGregorian_midnight (h : d.year ≤ 5999) :
    hebrewToGregorian d.year d.month d.day 0 0 0 0 = pure (midnight d.dayNumber.toNat) := by
  have hbounds := dayNumber_bounds d h
  rw [hebrewToGregorian_eq d h, addTimeOfDay_zero, pure_bind, signed_midnight (by omega) (by omega)]

variable {year : ℕ} {era : ℤ}

theorem getHebrewYearType_eq (hfirst : 5343 ≤ year) (hlast : year ≤ 5999)
    (hera : era = currentEra ∨ era = hebrewEra) :
    getHebrewYearType year era = pure (yearType year : ℤ) := by
  rw [getHebrewYearType, if_neg (by tauto),
    if_neg (by unfold minHebrewYear maxHebrewYear; omega),
    hebrewTable_type hfirst (by omega) (by unfold hebrewYearOf1AD firstGregorianTableYear; omega)]

theorem isLeapYear_eq (hfirst : 5343 ≤ year) (hlast : year ≤ 5999)
    (hera : era = currentEra ∨ era = hebrewEra) :
    HebrewCalendar.isLeapYear year era = pure (leap year) := by
  have hcast : (7 * (year : ℤ) + 1).tmod 19 = ((7 * year + 1) % 19 : ℕ) := by rfl
  rw [HebrewCalendar.isLeapYear, if_neg (by tauto),
    if_neg (by unfold minHebrewYear maxHebrewYear; omega), hcast, Run.pure_inj, leap]
  congr 1
  rw [eq_iff_iff]
  exact Nat.cast_lt_ofNat

theorem getMonthsInYear_eq (hfirst : 5343 ≤ year) (hlast : year ≤ 5999)
    (hera : era = currentEra ∨ era = hebrewEra) :
    getMonthsInYear year era = pure (months year : ℤ) := by
  rw [getMonthsInYear, isLeapYear_eq hfirst hlast hera, pure_bind, months]
  cases leap year <;> rfl

theorem getDaysInMonth_eq (hfirst : 5343 ≤ year) (hlast : year ≤ 5999)
    (hera : era = currentEra ∨ era = hebrewEra) {month : ℕ} (hpos : 1 ≤ month)
    (hle : month ≤ months year) :
    getDaysInMonth year month era = pure (monthLength year month : ℤ) := by
  have hlength := monthLength_pos hfirst (show year ≤ 6000 by omega) hpos hle
  have hmax : (if leap year = true then (13 : ℤ) else 12) = (months year : ℕ) := by
    unfold months
    split <;> rfl
  simp only [getDaysInMonth, getHebrewYearType_eq hfirst hlast hera, isLeapYear_eq hfirst hlast hera,
    pure_bind, hmax]
  rw [if_neg (by omega), lunarMonthLen_eq hfirst (by omega) (by omega), pure_bind,
    if_neg (by omega)]

theorem getDaysInYear_eq (hfirst : 5343 ≤ year) (hlast : year ≤ 5999)
    (hera : era = currentEra ∨ era = hebrewEra) :
    getDaysInYear year era = pure (monthTotal (monthLength year) (months year) : ℤ) := by
  have htable : ∀ t : Fin 7, 1 ≤ t.val →
      (if (t.val : ℤ) < 4 then 352 + (t.val : ℤ) else 382 + t.val - 3) =
        (monthTotal (typeLength t) (if 4 ≤ t.val then 13 else 12) : ℕ) := by decide
  have htype := yearType_bounds hfirst (show year ≤ 6000 by omega)
  rw [getDaysInYear, getHebrewYearType_eq hfirst hlast hera, pure_bind, Run.pure_inj,
    months_eq hfirst (by omega)]
  exact htable ⟨yearType year, htype.2⟩ htype.1

theorem toDateTime_date (h : d.year ≤ 5999)
    (hera : era = currentEra ∨ era = hebrewEra) (hour minute second millisecond : ℤ) :
    toDateTime d.year d.month d.day hour minute second millisecond era =
      hebrewToGregorian d.year d.month d.day hour minute second millisecond := by
  have hlength : d.day ≤ monthLength d.year d.month := d.day_le
  have hpos := d.day_pos
  rw [toDateTime, getDaysInMonth_eq d.first_le h hera d.month_pos d.month_le, pure_bind,
    if_neg (by omega)]

theorem beginOfYear_eq (h : d.year ≤ 5999) :
    beginOfYear d.year = pure (midnight (start d.year).toNat) := by
  have hfirst : 5343 ≤ d.year := d.first_le
  unfold beginOfYear
  by_cases hmin : d.year = 5343
  · have hcomponents : DateTime.ofComponents 1582 9 27 0 0 0 0 = pure (midnight 577717) := by
      rfl
    rw [if_pos (by unfold minHebrewYear; omega), hmin, start_first, hcomponents]
    rfl
  · have hdate := hebrewToGregorian_midnight (firstDay d.year hfirst (by omega)) h
    rw [if_neg (by unfold minHebrewYear; omega)]
    rw [dayNumber_firstDay] at hdate
    exact hdate

variable {x : DateTime}

theorem converts_of_date {d : calendar.Date} (hnumber : d.dayNumber = dayOf x)
    (hdate : hebrewDate x.ticks = pure ⟨d.year, d.month, d.day⟩) (h : d.year ≤ 5999) :
    hebrewClass.Converts x d where
  number := hnumber
  year := by
    change getYear x = _
    rw [getYear, getDatePart, hdate, pure_bind]
  month := by
    change getMonth x = _
    rw [getMonth, getDatePart, hdate, pure_bind]
  dayOfMonth := by
    change getDayOfMonth x = _
    rw [getDayOfMonth, getDatePart, hdate, pure_bind]
  dayOfYear := by
    change getDayOfYear x = _
    have hyear : getYear x = pure (d.year : ℤ) := by
      rw [getYear, getDatePart, hdate, pure_bind]
    have hthis : d.dayNumber = calendar.start d.year + d.dayOfYear := rfl
    have hbounds := dayNumber_bounds d h
    have hfirst : 5343 ≤ d.year := d.first_le
    have hlo := (firstDay d.year hfirst (by omega)).first_le_dayNumber
    rw [dayNumber_firstDay, calendar_first, calendar_start, start_first] at hlo
    rw [calendar_start] at hthis
    obtain ⟨s, hs⟩ : ∃ s : ℕ, start d.year = s := ⟨(start d.year).toNat, by omega⟩
    have hticks : (midnight s).ticks = s * ticksPerDay :=
      ticks_packed (by unfold ticksPerDay; omega) (by decide)
    have hdays : (x.ticks : ℤ) - (s * ticksPerDay : ℕ) =
        ((d.dayOfYear * ticksPerDay + x.ticks % ticksPerDay : ℕ) : ℤ) := by
      have hsplit : x.ticks / ticksPerDay = s + d.dayOfYear := by
        unfold dayOf at hnumber
        omega
      unfold ticksPerDay at *
      omega
    have hdiv : (d.dayOfYear * ticksPerDay + x.ticks % ticksPerDay) / ticksPerDay = d.dayOfYear := by
      unfold ticksPerDay
      omega
    rw [getDayOfYear, hyear, pure_bind, beginOfYear_eq d h, pure_bind, Run.pure_inj, hs,
      Int.toNat_natCast, hticks, hdays, ← Int.ofNat_tdiv, hdiv]
  back := by
    change toDateTime _ _ _ _ _ _ _ _ = _
    rw [toDateTime_date d h (Or.inl rfl), hebrewToGregorian_midnight d h, hnumber, Int.toNat_natCast]

theorem hebrewDate_throws (hx : x.ticks ≤ maxTicks)
    (h : x.date.year < 1583 ∨ 2239 < x.date.year) : OutOfRange (hebrewDate x.ticks) := by
  have hsame : (packed x.ticks 0).date = x.date := by
    rw [date, date, ticks_packed (Nat.lt_of_le_of_lt hx maxTicks_lt) (by decide)]
  have hy := (DateTimeArithmetic.components_eq (packed x.ticks 0)).1
  rw [hsame] at hy
  simp only [hebrewDate, DateTimeArithmetic.ofTicks_eq hx, pure_bind, hy]
  rw [getLunarMonthDay_throws (by omega)]
  exact (intro "year").bind _

/-! ## Years and months that are given -/

theorem getHebrewYearType_outOfRange {year : ℤ} (h : year < 5343 ∨ 5999 < year) (era : ℤ) :
    OutOfRange (getHebrewYearType year era) := by
  rw [getHebrewYearType]
  split
  · exact intro "era"
  · rw [if_pos (by unfold minHebrewYear maxHebrewYear; omega)]
    exact intro "year"

theorem isLeapYear_outOfRange {year : ℤ} (h : year < 5343 ∨ 5999 < year) (era : ℤ) :
    OutOfRange (HebrewCalendar.isLeapYear year era) := by
  rw [HebrewCalendar.isLeapYear]
  split
  · exact intro "era"
  · rw [if_pos (by unfold minHebrewYear maxHebrewYear; omega)]
    exact intro "year"

theorem era_outOfRange (h : ¬ (era = currentEra ∨ era = hebrewEra)) (year : ℤ) :
    OutOfRange (getHebrewYearType year era) ∧ OutOfRange (HebrewCalendar.isLeapYear year era) := by
  rw [getHebrewYearType, HebrewCalendar.isLeapYear, if_pos (by tauto), if_pos (by tauto)]
  exact ⟨intro "era", intro "era"⟩

theorem getDaysInMonth_cases (year month era : ℤ) :
    OutOfRange (getDaysInMonth year month era) ∨
      ∃ y m : ℕ, (year = y ∧ month = m ∧ (era = currentEra ∨ era = hebrewEra)) ∧
        (5343 ≤ y ∧ y ≤ 5999 ∧ 1 ≤ m ∧ m ≤ months y) ∧
        getDaysInMonth year month era = pure (monthLength y m : ℤ) := by
  by_cases hera : era = currentEra ∨ era = hebrewEra
  swap
  · exact Or.inl ((era_outOfRange hera year).1.bind _)
  by_cases hyear : year < 5343 ∨ 5999 < year
  · exact Or.inl ((getHebrewYearType_outOfRange hyear era).bind _)
  lift year to ℕ using by omega
  have hfirst : 5343 ≤ year := by omega
  have hlast : year ≤ 5999 := by omega
  by_cases hmonth : month < 1 ∨ (months year : ℤ) < month
  · have hmax : (if leap year = true then (13 : ℤ) else 12) = (months year : ℕ) := by
      unfold months
      split <;> rfl
    left
    simp [getDaysInMonth, getHebrewYearType_eq hfirst hlast hera, isLeapYear_eq hfirst hlast hera,
      hmax, hmonth, intro "month"]
  · lift month to ℕ using by omega
    exact Or.inr ⟨year, month, ⟨rfl, rfl, hera⟩, ⟨hfirst, hlast, by omega, by omega⟩,
      getDaysInMonth_eq hfirst hlast hera (by omega) (by omega)⟩

theorem getMonthsInYear_cases (year era : ℤ) :
    OutOfRange (getMonthsInYear year era) ∨
      ∃ n : ℤ, 12 ≤ n ∧ getMonthsInYear year era = pure n := by
  by_cases hera : era = currentEra ∨ era = hebrewEra
  swap
  · exact Or.inl ((era_outOfRange hera year).2.bind _)
  by_cases hyear : year < 5343 ∨ 5999 < year
  · exact Or.inl ((isLeapYear_outOfRange hyear era).bind _)
  lift year to ℕ using by omega
  refine Or.inr ⟨months year, ?_, getMonthsInYear_eq (by omega) (by omega) hera⟩
  unfold months
  split <;> decide

theorem toDateTime_cases (year month day hour minute second millisecond era : ℤ) :
    OutOfRange (toDateTime year month day hour minute second millisecond era) ∨
      ∃ d : calendar.Date, d.year ≤ 5999 ∧ (year = d.year ∧ month = d.month ∧ day = d.day) ∧
        toDateTime year month day hour minute second millisecond era =
          (addTimeOfDay 0 hour minute second millisecond >>= fun t =>
            Run.signed 64 (d.dayNumber * ticksPerDay + t) >>= fun ticks =>
              DateTime.ofTicks ticks) := by
  rcases getDaysInMonth_cases year month era with
    hthrows | ⟨y, m, ⟨hy, hm, hera⟩, ⟨hfirst, hlast, hpos, hle⟩, hlength⟩
  · exact Or.inl (hthrows.bind _)
  · by_cases hday : day < 1 ∨ (monthLength y m : ℤ) < day
    · left
      rw [toDateTime, hlength, pure_bind, if_pos hday]
      exact intro "day"
    · lift day to ℕ using by omega
      subst hy hm
      have hdate := toDateTime_date (ofParts y m day hfirst (by omega) hpos hle (by omega) (by omega))
        hlast hera hour minute second millisecond
      rw [hebrewToGregorian_eq _ hlast] at hdate
      exact Or.inr ⟨_, hlast, ⟨rfl, rfl, rfl⟩, hdate⟩

/-! ## Shifts by months and years -/

theorem forward_ensures {fuel : ℕ} {i : ℤ} (h : i ≤ fuel) :
    (forward (fuel + 1) i y).Ensures fun _ => True := by
  induction fuel generalizing i y with
  | zero =>
    rcases getMonthsInYear_cases y currentEra with hthrows | ⟨n, hn, hmonths⟩
    · exact ensures_of_outOfRange (hthrows.bind _)
    · rw [forward, hmonths, pure_bind, if_neg (by omega)]
      exact Run.Ensures.pure trivial
  | succ fuel ih =>
    rcases getMonthsInYear_cases y currentEra with hthrows | ⟨n, hn, hmonths⟩
    · exact ensures_of_outOfRange (hthrows.bind _)
    · rw [forward, hmonths, pure_bind]
      exact Run.Ensures.ite (fun _ => ih (y + 1) (by omega)) (fun _ => Run.Ensures.pure trivial)

theorem backward_ensures {fuel : ℕ} {months : ℤ} (h : months ≤ fuel) :
    (backward (fuel + 1) months y).Ensures fun _ => True := by
  induction fuel generalizing months y with
  | zero =>
    rcases getMonthsInYear_cases y currentEra with hthrows | ⟨n, hn, hmonths⟩
    · exact ensures_of_outOfRange (hthrows.bind _)
    · rw [backward, hmonths, pure_bind, if_neg (by omega)]
      exact Run.Ensures.pure trivial
  | succ fuel ih =>
    rcases getMonthsInYear_cases y currentEra with hthrows | ⟨n, hn, hmonths⟩
    · exact ensures_of_outOfRange (hthrows.bind _)
    · rw [backward, hmonths, pure_bind]
      exact Run.Ensures.ite (fun _ => ih (y - 1) (by omega)) (fun _ => Run.Ensures.pure trivial)

theorem carry_ensures (m months : ℤ) : (carry y m months).Ensures fun _ => True := by
  refine Run.Ensures.ite (fun _ => ?_) (fun _ => Run.Ensures.ite (fun _ => ?_) (fun _ => ?_))
  · exact (forward_ensures y (Int.self_le_toNat _)).bind fun _ _ => Run.Ensures.pure trivial
  · refine (backward_ensures (y - 1) (Int.self_le_toNat _)).bind ?_
    rintro ⟨rest, year⟩ _
    rcases getMonthsInYear_cases year currentEra with hthrows | ⟨n, hn, hmonths⟩
    · exact ensures_of_outOfRange (hthrows.bind _)
    · simp only [hmonths, pure_bind]
      exact Run.Ensures.pure trivial
  · exact Run.Ensures.pure trivial

theorem clampDay_ensures (time : DateTime) (y m : ℤ) {d : ℤ} (hd : 1 ≤ d) :
    (clampDay time y m d).Ensures fun _ => True := by
  rcases getDaysInMonth_cases y m currentEra with
    hthrows | ⟨year, month, ⟨hy, hm, _⟩, ⟨hfirst, hlast, hpos, hle⟩, hlength⟩
  · exact ensures_of_outOfRange (hthrows.bind _)
  · have hmax := monthLength_pos hfirst (show year ≤ 6000 by omega) hpos hle
    obtain ⟨day, hday⟩ : ∃ day : ℕ, (if (monthLength year month : ℤ) < d then
        (monthLength year month : ℤ) else d) = day := by
      refine ⟨(if (monthLength year month : ℤ) < d then
        (monthLength year month : ℤ) else d).toNat, ?_⟩
      split <;> omega
    have hdayPos : 1 ≤ day ∧ day ≤ monthLength year month := by
      split at hday <;> omega
    have hdate := hebrewToGregorian_midnight
      (ofParts year month day hfirst (by omega) hpos hle hdayPos.1 hdayPos.2) hlast
    subst hy hm
    simp only [clampDay, hlength, pure_bind, hday]
    change hebrewToGregorian year month day 0 0 0 0 = _ at hdate
    rw [hdate, pure_bind]
    exact ofTicks_ensures _

theorem hebrewDate_cases (hx : x.ticks ≤ maxTicks) : OutOfRange (hebrewDate x.ticks) ∨
      ∃ d : calendar.Date, d.dayNumber = dayOf x ∧
        hebrewDate x.ticks = pure ⟨d.year, d.month, d.day⟩ := by
  by_cases hyear : x.date.year < 1583 ∨ 2239 < x.date.year
  · exact Or.inl (hebrewDate_throws hx hyear)
  · exact Or.inr (hebrewDate_eq hx (by omega) (by omega))

theorem addMonths_ensures (hx : x.ticks ≤ maxTicks) (months : ℤ) :
    (HebrewCalendar.addMonths x months).Ensures fun _ => True := by
  refine Run.Ensures.ite (fun _ => Run.Ensures.throwing _) (fun _ => ?_)
  rcases hebrewDate_cases hx with hthrows | ⟨d, _, hdate⟩
  · exact ensures_of_outOfRange ((hthrows.bind _).bind _)
  · have hpos := d.day_pos
    simp only [getYear, getMonth, getDayOfMonth, getDatePart, hdate, pure_bind]
    exact (carry_ensures _ _ _).bind fun p _ => clampDay_ensures x p.1 p.2 (by omega)

theorem addYears_ensures (hx : x.ticks ≤ maxTicks) (years : ℤ) :
    (HebrewCalendar.addYears x years).Ensures fun _ => True := by
  rw [HebrewCalendar.addYears]
  rcases hebrewDate_cases hx with hthrows | ⟨d, _, hdate⟩
  · exact ensures_of_outOfRange ((hthrows.bind _).bind _)
  · have hpos := d.day_pos
    simp only [getYear, getMonth, getDayOfMonth, getDatePart, hdate, pure_bind]
    refine Run.Ensures.ite (fun _ => Run.Ensures.throwing _) (fun _ => ?_)
    rcases getMonthsInYear_cases ((d.year : ℤ) + years) currentEra with
      hthrows | ⟨n, hn, hmonths⟩
    · exact ensures_of_outOfRange (hthrows.bind _)
    · rw [hmonths, pure_bind]
      exact clampDay_ensures x _ _ (by omega)

/-! ## The documented range -/

/-- What the class owes for a day: inside the range the queries answer its date, and that of the next
day follows; outside no query answers. -/
structure MeetsRange (x : DateTime) : Prop where
  inside : Supported x → ∃ d : calendar.Date, d.year ≤ 5999 ∧ hebrewClass.Converts x d ∧
    ∀ y : DateTime, y.Valid → Supported y → dayOf y = dayOf x + 1 →
      ∃ e : calendar.Date, e.year ≤ 5999 ∧ hebrewClass.Converts y e ∧ d.Follows e
  outside : ¬ Supported x → hebrewClass.Refuses x

/-- The days of the last Gregorian year of the table that are past the range. -/
def PastRange (x : DateTime) : Prop :=
  maxSupported.dayNumber < dayOf x ∧ x.date.year ≤ 2239

theorem dayOf_bounds (x : DateTime) :
    (x.date.year < 1583 ↔ dayOf x < 577813) ∧ (x.date.year ≤ 2239 ↔ dayOf x < 817777) := by
  have hnumber := dayNumber_date x
  have h1583 := Gregorian.daysBeforeYear_eq 1582
  have h2240 := Gregorian.daysBeforeYear_eq 2239
  have hlo := x.date.year_lt_iff (y := 1582 + 1)
  have hhi := x.date.year_lt_iff (y := 2239 + 1)
  unfold dayOf
  omega

theorem converts_of_supported (hx : x.Valid) (h : Supported x) :
    ∃ d : calendar.Date, d.year ≤ 5999 ∧ hebrewClass.Converts x d := by
  have hbounds := dayOf_bounds x
  obtain ⟨hlo, hhi⟩ := h
  rw [minSupported_dayNumber] at hlo
  rw [maxSupported_dayNumber] at hhi
  obtain ⟨d, hnumber, hdate⟩ := hebrewDate_eq hx.ticks_le (by omega) (by omega)
  have hyear := (year_le_iff d).mpr (by rw [hnumber]; unfold dayOf at hhi; omega)
  exact ⟨d, hyear, converts_of_date hnumber hdate hyear⟩

theorem refuses_of_year (hx : x.Valid) (h : x.date.year < 1583 ∨ 2239 < x.date.year) :
    hebrewClass.Refuses x := by
  have hthrows := hebrewDate_throws hx.ticks_le h
  exact {
    year := hthrows.bind _
    month := hthrows.bind _
    dayOfMonth := hthrows.bind _
    dayOfYear := (hthrows.bind _).bind _
    addMonths := fun months => by
      change OutOfRange (HebrewCalendar.addMonths x months)
      rw [HebrewCalendar.addMonths]
      split
      · exact ⟨_, _, rfl⟩
      · exact (hthrows.bind _).bind _ }

theorem getYear_of_pastRange (hx : x.Valid) (h : PastRange x) : getYear x = pure 6000 := by
  have hbounds := dayOf_bounds x
  obtain ⟨hlo, hhi⟩ := h
  rw [maxSupported_dayNumber] at hlo
  obtain ⟨d, hnumber, hdate⟩ := hebrewDate_eq hx.ticks_le (by omega) hhi
  have hyear : ¬ d.year ≤ 5999 := by
    rw [year_le_iff, hnumber]
    unfold dayOf at hlo
    omega
  have hlast : d.year ≤ 6000 := d.le_last
  grind [getYear, getDatePart]

theorem meetsRange_iff (hx : x.Valid) : MeetsRange x ↔ ¬ PastRange x := by
  have hbounds := dayOf_bounds x
  constructor
  · intro h hpast
    have hyear := (h.outside (fun hin => by
      have hlt := hpast.1
      have hle := hin.2
      omega)).year
    change OutOfRange (getYear x) at hyear
    rw [getYear_of_pastRange hx hpast] at hyear
    exact not_outOfRange_pure _ hyear
  · intro h
    constructor
    · intro hin
      obtain ⟨d, hyear, hd⟩ := converts_of_supported hx hin
      refine ⟨d, hyear, hd, fun y hy hyin hnext => ?_⟩
      obtain ⟨e, heyear, he⟩ := converts_of_supported hy hyin
      exact ⟨e, heyear, he, hd.follows he hnext⟩
    · intro hout
      apply refuses_of_year hx
      have hout' : ¬ (577813 ≤ dayOf x ∧ dayOf x ≤ 817683) := by
        rw [← minSupported_dayNumber, ← maxSupported_dayNumber]
        exact hout
      have hpast : ¬ (817683 < dayOf x ∧ x.date.year ≤ 2239) := by
        rw [← maxSupported_dayNumber]
        exact h
      omega

/-! ## Years -/

/-- The answers about a year agree: the type of the table with the leap rule, and the length of the
year with its months and with the start of the next year. -/
structure YearAgrees (year : ℕ) (era : ℤ) : Prop where
  leap : HebrewCalendar.isLeapYear year era = pure (decide (4 ≤ yearType year))
  lengths : ∃ (months start : ℕ) (length : ℕ → ℕ),
    getMonthsInYear year era = pure (months : ℤ) ∧
    (∀ m : ℕ, 1 ≤ m → m ≤ months → getDaysInMonth year m era = pure (length m : ℤ)) ∧
    getDaysInYear year era = pure (monthTotal length months : ℤ) ∧
    toDateTime year 1 1 0 0 0 0 era = pure (midnight start) ∧
    (year < 5999 → toDateTime (year + 1 : ℕ) 1 1 0 0 0 0 era =
      pure (midnight (start + monthTotal length months))) ∧
    (year = 5999 → start + monthTotal length months = maxSupported.dayNumber + 1)

theorem toDateTime_start (hfirst : 5343 ≤ year) (hlast : year ≤ 5999)
    (hera : era = currentEra ∨ era = hebrewEra) :
    toDateTime year 1 1 0 0 0 0 era = pure (midnight (start year).toNat) := by
  have hdate := toDateTime_date (firstDay year hfirst (by omega)) hlast hera 0 0 0 0
  rw [hebrewToGregorian_midnight _ hlast, dayNumber_firstDay] at hdate
  exact hdate

theorem yearAgrees (hfirst : 5343 ≤ year) (hlast : year ≤ 5999)
    (hera : era = currentEra ∨ era = hebrewEra) : YearAgrees year era := by
  have hstart := calendar.start_succ (y := year) hfirst (by rw [calendar_last]; omega)
  have hlo := (firstDay year hfirst (by omega)).first_le_dayNumber
  rw [dayNumber_firstDay, calendar_first, calendar_start, start_first] at hlo
  rw [calendar_start, calendar_months, calendar_monthLength] at hstart
  have hnext : (start (year + 1)).toNat =
      (start year).toNat + monthTotal (monthLength year) (months year) := by
    omega
  constructor
  · rw [isLeapYear_eq hfirst hlast hera, leap_eq hfirst (by omega)]
  · refine ⟨months year, (start year).toNat, monthLength year, getMonthsInYear_eq hfirst hlast hera,
      fun m hpos hle => getDaysInMonth_eq hfirst hlast hera hpos hle,
      getDaysInYear_eq hfirst hlast hera, toDateTime_start hfirst hlast hera, fun hlt => ?_,
      fun heq => ?_⟩
    · rw [← hnext]
      exact toDateTime_start (by omega) hlt hera
    · rw [← hnext, heq, start_last, maxSupported_dayNumber]
      rfl

/-- The years that the class does not support. -/
structure YearRefused (year era : ℤ) : Prop where
  isLeapYear : OutOfRange (HebrewCalendar.isLeapYear year era)
  monthsInYear : OutOfRange (getMonthsInYear year era)
  daysInYear : OutOfRange (getDaysInYear year era)
  daysInMonth (month : ℤ) : OutOfRange (getDaysInMonth year month era)
  toDateTime (month day hour minute second millisecond : ℤ) :
    OutOfRange (toDateTime year month day hour minute second millisecond era)

theorem yearRefused {year : ℤ} (h : year < 5343 ∨ 5999 < year) (era : ℤ) : YearRefused year era where
  isLeapYear := isLeapYear_outOfRange h era
  monthsInYear := (isLeapYear_outOfRange h era).bind _
  daysInYear := (getHebrewYearType_outOfRange h era).bind _
  daysInMonth _ := (getHebrewYearType_outOfRange h era).bind _
  toDateTime _ _ _ _ _ _ := ((getHebrewYearType_outOfRange h era).bind _).bind _

/-! ## Tables -/

/-- No operation on a day reads a table outside its bounds. -/
structure DayInBounds (x : DateTime) : Prop where
  year : (getYear x).clean = true
  month : (getMonth x).clean = true
  dayOfMonth : (getDayOfMonth x).clean = true
  dayOfYear : (getDayOfYear x).clean = true
  addMonths (months : ℤ) : (HebrewCalendar.addMonths x months).clean = true
  addYears (years : ℤ) : (HebrewCalendar.addYears x years).clean = true

theorem beginOfYear_ensures : (beginOfYear d.year).Ensures fun _ => True := by
  by_cases h : d.year ≤ 5999
  · rw [beginOfYear_eq d h]
    exact Run.Ensures.pure trivial
  · rw [beginOfYear, if_neg (by unfold minHebrewYear; omega), hebrewToGregorian,
      getLunarMonthDay_throws (by unfold hebrewYearOf1AD; omega)]
    exact Run.Ensures.throwing _

theorem dayInBounds (hx : x.Valid) : DayInBounds x := by
  rcases hebrewDate_cases hx.ticks_le with hthrows | ⟨d, _, hdate⟩
  · exact {
      year := (hthrows.bind _).clean
      month := (hthrows.bind _).clean
      dayOfMonth := (hthrows.bind _).clean
      dayOfYear := ((hthrows.bind _).bind _).clean
      addMonths := fun months => (addMonths_ensures hx.ticks_le months).clean
      addYears := fun years => (addYears_ensures hx.ticks_le years).clean }
  · have hyear : (getDayOfYear x).Ensures fun _ => True := by
      rw [getDayOfYear, getYear, getDatePart, hdate, pure_bind, pure_bind]
      exact (beginOfYear_ensures d).bind fun _ _ => Run.Ensures.pure trivial
    exact {
      year := by rw [getYear, getDatePart, hdate]; rfl
      month := by rw [getMonth, getDatePart, hdate]; rfl
      dayOfMonth := by rw [getDayOfMonth, getDatePart, hdate]; rfl
      dayOfYear := hyear.clean
      addMonths := fun months => (addMonths_ensures hx.ticks_le months).clean
      addYears := fun years => (addYears_ensures hx.ticks_le years).clean }

/-- No operation on a year and a month reads a table outside its bounds, whatever is given; the only
thing that may go wrong in `toDateTime` is the sum of the time of day, which reads no table. -/
structure YearInBounds (year month era : ℤ) : Prop where
  isLeapYear : (HebrewCalendar.isLeapYear year era).clean = true
  monthsInYear : (getMonthsInYear year era).clean = true
  daysInYear : (getDaysInYear year era).clean = true
  daysInMonth : (getDaysInMonth year month era).clean = true
  toDateTime (day hour minute second millisecond : ℤ) :
    OutOfRange (toDateTime year month day hour minute second millisecond era) ∨
      ∃ n : ℤ, toDateTime year month day hour minute second millisecond era =
        (addTimeOfDay 0 hour minute second millisecond >>= fun t =>
          Run.signed 64 (n * ticksPerDay + t) >>= fun ticks => DateTime.ofTicks ticks)

theorem yearInBounds (year month era : ℤ) : YearInBounds year month era where
  isLeapYear := by
    rw [HebrewCalendar.isLeapYear]
    split
    · rfl
    · split <;> rfl
  monthsInYear := by
    rcases getMonthsInYear_cases year era with hthrows | ⟨n, _, hmonths⟩
    · exact hthrows.clean
    · rw [hmonths]
      rfl
  daysInYear := by
    by_cases hera : era = currentEra ∨ era = hebrewEra
    · by_cases hyear : year < 5343 ∨ 5999 < year
      · exact ((getHebrewYearType_outOfRange hyear era).bind _).clean
      · lift year to ℕ using by omega
        rw [getDaysInYear_eq (by omega) (by omega) hera]
        rfl
    · exact ((era_outOfRange hera year).1.bind _).clean
  daysInMonth := by
    rcases getDaysInMonth_cases year month era with hthrows | ⟨y, m, _, _, hlength⟩
    · exact hthrows.clean
    · rw [hlength]
      rfl
  toDateTime day hour minute second millisecond := by
    rcases toDateTime_cases year month day hour minute second millisecond era with
      hthrows | ⟨d, _, _, hdate⟩
    · exact Or.inl hthrows
    · exact Or.inr ⟨d.dayNumber, hdate⟩

/-- **The Hebrew calendar converts the days of its range, but it does not refuse all others**: in
the last days of 2239 the queries answer the year 6000. -/
theorem hebrew_conversion (x : DateTime) (hx : x.Valid) :
    (MeetsRange x ↔ ¬ PastRange x) ∧
    (∀ (year : ℕ) (era : ℤ), 5343 ≤ year → year ≤ 5999 → (era = currentEra ∨ era = hebrewEra) →
      YearAgrees year era) ∧
    (∀ year era : ℤ, (year < 5343 ∨ 5999 < year) → YearRefused year era) ∧
    DayInBounds x ∧
    (∀ year month era : ℤ, YearInBounds year month era) :=
  ⟨meetsRange_iff hx, fun _ _ hfirst hlast hera => yearAgrees hfirst hlast hera,
    fun _ era h => yearRefused h era, dayInBounds hx, yearInBounds⟩

/-- The theorem at 2239-09-29, the last day of the range. -/
theorem hebrew_conversion_last_day :
    (midnight 817683).Valid ∧ MeetsRange (midnight 817683) := by
  have hvalid : (midnight 817683).Valid := valid_packed (by decide) (by decide)
  have hday : dayOf (midnight 817683) = 817683 := by decide
  refine ⟨hvalid, (hebrew_conversion _ hvalid).1.mpr fun h => ?_⟩
  have hlt := h.1
  rw [hday, maxSupported_dayNumber] at hlt
  omega

/-- October 1 of 2239 is past the range, and its year is answered. -/
theorem year_past_range :
    (midnight 817685).Valid ∧ ¬ Supported (midnight 817685) ∧
      getYear (midnight 817685) = pure 6000 ∧ ¬ MeetsRange (midnight 817685) := by
  have hvalid : (midnight 817685).Valid := valid_packed (by decide) (by decide)
  have hday : dayOf (midnight 817685) = 817685 := by decide
  have hpast : PastRange (midnight 817685) := by
    refine ⟨?_, ?_⟩
    · rw [hday, maxSupported_dayNumber]
      decide
    · rw [(dayOf_bounds _).2, hday]
      decide
  refine ⟨hvalid, fun h => ?_, getYear_of_pastRange hvalid hpast,
    fun h => (meetsRange_iff hvalid).mp h hpast⟩
  have hle := h.2
  rw [hday, maxSupported_dayNumber] at hle
  omega

end SharpRuntime.Analysis.HebrewQueries
