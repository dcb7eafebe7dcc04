import SharpRuntime.Analysis.CalendarArithmetic

/-!
# Conversions of the Um Al Qura calendar

`gregorianToHijri` estimates the row of a day by years of 355 days, which is never too late, goes on
to the last row that starts by then, and uses up the bits of that row month by month.
`hijriToGregorian` adds the months up again.  Both are the numbering of the days of
`UmAlQuraDate.calendar`.
-/

set_option autoImplicit false
set_option maxRecDepth 20000

namespace SharpRuntime.Analysis.UmAlQuraDates

open Machine Model Model.DateTime Model.Calendar
open Model.UmAlQuraCalendar Interface Interface.UmAlQuraDate
open CalendarArithmetic

theorem numberOf_date (d : Gregorian.Date) : numberOf d.year d.month d.day = d.dayNumber := by
  obtain ⟨y, hy⟩ : ∃ y, d.year = y + 1 := ⟨d.year - 1, by have := d.year_pos; omega⟩
  have hyears := Gregorian.daysBeforeYear_eq y
  have hmonths := daysBeforeMonth_getD d.year d.month d.month_pos d.month_le
  unfold numberOf
  rw [hmonths, Gregorian.Date.dayNumber, Gregorian.Date.dayOfYear, hy, Nat.add_sub_cancel]
  omega

variable {year : ℕ}

theorem absoluteDate_row (hlast : year ≤ 1501) :
    absoluteDate (row year).gYear (row year).gMonth (row year).gDay =
      pure ((start year : ℤ) + 1) := by
  obtain ⟨hyear, hmonth, hmonth', hday, hday'⟩ := row_valid hlast
  have hdate := absoluteDate_eq ⟨(row year).gYear, (row year).gMonth, (row year).gDay, hyear, hmonth,
    hmonth', hday, hday'⟩
  rw [← numberOf_date] at hdate
  exact hdate

theorem yearInfo_eq (hfirst : 1318 ≤ year) (hlast : year ≤ 1501) {index : ℤ}
    (h : index = (year : ℤ) - 1318) : yearInfo index = pure (row year) := by
  rw [yearInfo, Run.observe_eq_pure (by omega), pure_bind, h]
  rfl

theorem yearInfo_year (hfirst : 1318 ≤ year) (hlast : year ≤ 1501) :
    yearInfo ((year : ℤ) - minCalendarYear) = pure (row year) :=
  yearInfo_eq hfirst hlast rfl

theorem startTicks_eq (hlast : year ≤ 1501) :
    startTicks (row year) = pure ((start year * ticksPerDay : ℕ) : ℤ) := by
  rw [startTicks, absoluteDate_row hlast, pure_bind, add_sub_cancel_right, Nat.cast_mul]

theorem start_mono {y y' : ℕ} (hfirst : 1318 ≤ y) (hle : y ≤ y') (hlast : y' ≤ 1501) :
    start y ≤ start y' := by
  induction y', hle using Nat.le_induction with
  | base => exact Nat.le_refl _
  | succ z hz ih =>
    have hprev := ih (by omega)
    rw [(row_joined (show 1318 ≤ z by omega) (by omega)).1]
    exact Nat.le_trans hprev (Nat.le_add_right _ _)

theorem start_le {k : ℕ} (hk : k ≤ 183) : start (1318 + k) ≤ start 1318 + 355 * k := by
  induction k with
  | zero => exact Nat.le_refl _
  | succ k ih =>
    obtain ⟨hnext, hlength⟩ := row_joined (show 1318 ≤ 1318 + k by omega) (by omega)
    rw [← Nat.add_assoc, hnext]
    omega

theorem start_first : start 1318 = 693714 := by decide

theorem start_last : start 1501 = 758564 := by decide

variable {fuel : ℕ}

theorem advance_eq {ticks : ℕ} (hlast : year ≤ 1501)
    (hlo : year ≠ 1318 → start year * ticksPerDay ≤ ticks)
    (hhi : year ≤ 1500 → ticks < start (year + 1) * ticksPerDay) {y : ℕ} (hfirst : 1318 ≤ y)
    (hle : y ≤ year) (hfuel : year < y + fuel) {index : ℤ} (h : index = (y : ℤ) - 1318) :
    advance ticks fuel index = pure ((year : ℤ) - 1318) := by
  induction fuel generalizing y index with
  | zero => omega
  | succ fuel ih =>
    rw [advance]
    by_cases hend : y = 1501
    · rw [if_neg (by omega), Run.pure_inj]
      omega
    · rw [if_pos (by omega), yearInfo_eq (show 1318 ≤ y + 1 by omega) (by omega) (by omega), pure_bind,
        startTicks_eq (by omega), pure_bind]
      by_cases hsame : y = year
      · have hlt := hhi (by omega)
        rw [hsame, if_pos (by exact_mod_cast hlt), Run.pure_inj]
        omega
      · have hstart := start_mono (show 1318 ≤ y + 1 by omega) (show y + 1 ≤ year by omega) hlast
        have hle' := Nat.mul_le_mul_right ticksPerDay hstart
        have hticks := hlo (by omega)
        rw [if_neg (by push_cast; exact_mod_cast Nat.not_lt.mpr (Nat.le_trans hle' hticks))]
        exact ih (y := y + 1) (by omega) (by omega) (by omega) (by omega)

theorem estimate_spec (ticks : ℕ) :
    ∃ k : ℕ, estimate ticks (start 1318 * ticksPerDay) = k ∧ k ≤ 182 ∧
      (k = 0 ∨ (start 1318 + 355 * k) * ticksPerDay ≤ ticks) := by
  rw [start_first]
  unfold estimate ticksPerDay
  by_cases hlt : (ticks : ℤ) < 693714 * 864000000000
  · refine ⟨0, ?_, by decide, Or.inl rfl⟩
    obtain ⟨b, hb, hpos⟩ : ∃ b : ℤ,
        (ticks : ℤ) - 693714 * 864000000000 = -b ∧ 0 < b :=
      ⟨693714 * 864000000000 - ticks, by ring, by omega⟩
    have hnonneg : 0 ≤ (b.tdiv 864000000000).tdiv 355 :=
      Int.tdiv_nonneg (Int.tdiv_nonneg hpos.le (by decide)) (by decide)
    simp only [Nat.cast_ofNat, hb, Int.neg_tdiv]
    split_ifs <;> omega
  · obtain ⟨n, hn⟩ : ∃ n : ℕ, (ticks : ℤ) - 693714 * 864000000000 = n :=
      ⟨ticks - 693714 * 864000000000, by omega⟩
    refine ⟨min 182 (n / 864000000000 / 355), ?_, Nat.min_le_left _ _, ?_⟩
    · simp only [Nat.cast_ofNat, hn]
      rw [Int.tdiv_eq_ediv_of_nonneg (Int.natCast_nonneg n), Int.tdiv_eq_ediv_of_nonneg (by omega)]
      split_ifs <;> omega
    · omega

theorem findIndex_eq {ticks : ℕ} (hfirst : 1318 ≤ year) (hlast : year ≤ 1501)
    (hlo : year ≠ 1318 → start year * ticksPerDay ≤ ticks)
    (hhi : year ≤ 1500 → ticks < start (year + 1) * ticksPerDay) :
    findIndex ticks =
      pure (if ticks < start year * ticksPerDay then (year : ℤ) - 1319 else (year : ℤ) - 1318) := by
  have hdate : absoluteDate 1900 4 30 = pure ((start 1318 : ℤ) + 1) :=
    absoluteDate_row (show 1318 ≤ 1501 by decide)
  obtain ⟨k, hk, hle, hstart⟩ := estimate_spec ticks
  have hbefore : 1318 + k ≤ year := by
    rcases hstart with rfl | hstart
    · omega
    · by_contra hlt
      have hmono := start_mono (show 1318 ≤ year + 1 by omega) (show year + 1 ≤ 1318 + k by omega) (by omega)
      have hestimate := start_le (k := k) (by omega)
      have hmul := Nat.mul_le_mul_right ticksPerDay (Nat.le_trans hmono hestimate)
      omega
  simp only [findIndex, hdate, pure_bind, add_sub_cancel_right, hk]
  rw [advance_eq (y := 1318 + k) hlast hlo hhi (by omega) hbefore (by omega) (by omega), pure_bind,
    yearInfo_eq hfirst hlast rfl, pure_bind, startTicks_eq hlast, pure_bind, Run.pure_inj]
  by_cases hlt : ticks < start year * ticksPerDay
  · omega
  · rw [if_neg hlt, if_neg (by exact_mod_cast hlt)]

theorem shiftRight_month {flags m : ℕ} (hpos : 1 ≤ m) :
    (flags >>> (m - 1)) >>> 1 = flags >>> (m + 1 - 1) := by
  rw [← Nat.shiftRight_add, Nat.add_sub_cancel, Nat.sub_add_cancel hpos]

variable (d : calendar.Date)

/-- The walk over the months of the year ends in the month of the date: at every round the bits that
are left start with that of the month. -/
theorem walkMonths_eq {m nDays : ℕ} (hpos : 1 ≤ m) (hle : m ≤ 12) (hfuel : nDays < fuel)
    (h : start d.year + monthTotal (monthLength d.year) (m - 1) + nDays = d.dayNumber) :
    walkMonths fuel nDays ((row d.year).flags >>> (m - 1)) m =
      pure (((d.day - 1 : ℕ) : ℤ), (d.month : ℤ)) := by
  have hfirst : 1318 ≤ d.year := d.first_le
  have hlast : d.year ≤ 1500 := d.le_last
  induction fuel generalizing m nDays with
  | zero => omega
  | succ fuel ih =>
    have hsucc := monthTotal_succ (monthLength d.year) (m - 1)
    rw [Nat.sub_add_cancel hpos] at hsucc
    have hlen : 1 ≤ monthLength d.year m := bitLength_pos _ _
    have hbit : daysPerMonth ((row d.year).flags >>> (m - 1)) = monthLength d.year m := rfl
    rw [walkMonths, hbit]
    by_cases hmore : monthLength d.year m ≤ nDays
    · have hlt : m < 12 := by
        by_contra hge
        have hnumber := d.dayNumber_lt
        have hlength : calendar.yearLength d.year = monthTotal (monthLength d.year) m := by
          rw [show m = 12 by omega]
          rfl
        rw [hlength, calendar_start] at hnumber
        omega
      rw [if_pos (by exact_mod_cast hmore), shiftRight_month hpos]
      have hrest := ih (show 1 ≤ m + 1 by omega) hlt (show nDays - monthLength d.year m < fuel by omega)
        (by rw [Nat.add_sub_cancel]; omega)
      push_cast [hmore] at hrest
      exact hrest
    · rw [if_neg (by exact_mod_cast hmore), Run.pure_inj]
      have hdate : ofParts d.year m (nDays + 1) hfirst hlast hpos hle (by omega) (by omega) = d := by
        apply MonthCalendar.Date.dayNumber_injective
        rw [dayNumber_ofParts]
        omega
      have hmonth : m = d.month := congrArg MonthCalendar.Date.month hdate
      have hday : nDays + 1 = d.day := congrArg MonthCalendar.Date.day hdate
      rw [← hmonth, ← hday, Nat.add_sub_cancel]

theorem walkMonths_returns {nDays : ℕ} (hfuel : nDays < fuel) (b : ℕ) (hm : ℤ) :
    ∃ p, walkMonths fuel nDays b hm = pure p := by
  induction fuel generalizing nDays b hm with
  | zero => omega
  | succ fuel ih =>
    rw [walkMonths]
    split
    case isTrue hmore =>
      have hpos : 1 ≤ daysPerMonth b := by
        unfold daysPerMonth
        omega
      have hrest := ih (show nDays - daysPerMonth b < fuel by omega) (b >>> 1) (hm + 1)
      rw [Nat.cast_sub (by omega)] at hrest
      exact hrest
    case isFalse hdone => exact ⟨_, rfl⟩

variable {x : DateTime}

theorem daysSince {s : ℕ} (h : s ≤ dayOf x) :
    ((x.ticks : ℤ) - (s * ticksPerDay : ℕ)).tdiv ticksPerDay = ((dayOf x - s : ℕ) : ℤ) := by
  have hticks : s * ticksPerDay ≤ x.ticks := by
    exact Nat.le_trans (Nat.mul_le_mul_right _ h) (Nat.div_mul_le_self _ _)
  rw [← Nat.cast_sub hticks, ← Int.ofNat_tdiv]
  unfold dayOf ticksPerDay at *
  omega

/-- **The conversion of a date finds the date with the same number.** -/
theorem gregorianToHijri_eq (h : d.dayNumber = dayOf x) :
    gregorianToHijri x = pure ((d.year : ℤ), (d.month : ℤ), (d.day : ℤ)) := by
  have hfirst : 1318 ≤ d.year := d.first_le
  have hlast : d.year ≤ 1500 := d.le_last
  have hstart := d.start_le_dayNumber
  have hnumber := d.dayNumber_lt
  have hlength : calendar.yearLength d.year = monthTotal (monthLength d.year) 12 := rfl
  have hnext := (row_joined hfirst hlast).1
  have hdaypos := d.day_pos
  rw [calendar_start] at hstart hnumber
  have hlo : start d.year * ticksPerDay ≤ x.ticks :=
    Nat.le_trans (Nat.mul_le_mul_right _ (show start d.year ≤ dayOf x by omega))
      (Nat.div_mul_le_self _ _)
  have hhi : x.ticks < start (d.year + 1) * ticksPerDay := by
    unfold dayOf ticksPerDay at *
    omega
  have hindex := findIndex_eq hfirst (by omega) (fun _ => hlo) (fun _ => hhi)
  rw [if_neg (by omega)] at hindex
  have hwalk := walkMonths_eq d (Nat.le_refl 1) (by decide) (Nat.lt_add_one (dayOf x - start d.year))
    (by rw [Nat.sub_self, monthTotal]; omega)
  rw [Nat.sub_self, Nat.shiftRight_zero, Nat.cast_one] at hwalk
  simp only [gregorianToHijri, hindex, pure_bind, yearInfo_eq hfirst (by omega) rfl,
    startTicks_eq (show d.year ≤ 1501 by omega), daysSince (show start d.year ≤ dayOf x by omega),
    Int.toNat_natCast, hwalk, Run.pure_inj, Prod.mk.injEq]
  refine ⟨?_, trivial, ?_⟩
  · unfold minCalendarYear
    omega
  · omega

theorem gregorianToHijri_before (h : dayOf x < 693714) : (gregorianToHijri x).clean = false := by
  have hticks : x.ticks < start 1318 * ticksPerDay := by
    rw [start_first]
    unfold dayOf ticksPerDay at *
    omega
  have hnext : start 1318 ≤ start (1318 + 1) := start_mono (by decide) (by decide) (by decide)
  have hindex := findIndex_eq (show 1318 ≤ 1318 by decide) (by decide)
    (fun hne => absurd rfl hne)
    (fun _ => Nat.lt_of_lt_of_le hticks (Nat.mul_le_mul_right _ hnext))
  rw [if_pos hticks] at hindex
  have hread : yearInfo (((1318 : ℕ) : ℤ) - 1319) =
      (⟨.returned ⟨0x02EA, 1900, 4, 30⟩, false⟩ : Run Exception DateMapping) := by
    rfl
  simp only [gregorianToHijri, hindex, pure_bind]
  apply Run.clean_bind_of_not
  rw [hread]

theorem gregorianToHijri_after (h : 758564 ≤ dayOf x) :
    ∃ hm hd, gregorianToHijri x = pure (1501, hm, hd) := by
  have hday : start 1501 ≤ dayOf x := by
    rw [start_last]
    exact h
  have hlo : start 1501 * ticksPerDay ≤ x.ticks :=
    Nat.le_trans (Nat.mul_le_mul_right _ hday) (Nat.div_mul_le_self _ _)
  have hindex := findIndex_eq (show 1318 ≤ 1501 by decide) (by decide)
    (fun _ => hlo) (fun hle => absurd hle (by decide))
  rw [if_neg (by omega)] at hindex
  have hsince := daysSince hday
  obtain ⟨days, hdays⟩ : ∃ days, dayOf x - start 1501 = days := ⟨_, rfl⟩
  rw [hdays] at hsince
  obtain ⟨⟨rest, month⟩, hwalk⟩ := walkMonths_returns (Nat.lt_succ_self days) (row 1501).flags 1
  have hyear : ((1501 : ℕ) : ℤ) - 1318 + minCalendarYear = 1501 := by
    unfold minCalendarYear
    omega
  refine ⟨month, 1 + rest, ?_⟩
  simp only [gregorianToHijri, hindex, pure_bind, yearInfo_eq (show 1318 ≤ 1501 by decide) (by decide) rfl,
    startTicks_eq (show 1501 ≤ 1501 by decide), hsince, Int.toNat_natCast, hwalk, hyear]

theorem addMonthDays_eq (flags k n : ℕ) (days : ℤ) :
    addMonthDays n days (flags >>> k) =
      days + monthTotal (bitLength flags) (k + n) - monthTotal (bitLength flags) k := by
  induction n generalizing k days with
  | zero => rw [addMonthDays, Nat.add_zero, add_sub_cancel_right]
  | succ n ih =>
    have hsucc := monthTotal_succ (bitLength flags) k
    have hbit : bitLength flags (k + 1) = daysPerMonth (flags >>> k) := by
      rw [bitLength, Nat.add_sub_cancel]
    rw [hbit] at hsucc
    rw [addMonthDays, ← Nat.shiftRight_add, ih, hsucc, Nat.add_right_comm k 1 n, Nat.add_assoc]
    push_cast
    ring

theorem absoluteDateUAQ_eq : absoluteDateUAQ d.year d.month d.day = pure (d.dayNumber + 1) := by
  have hfirst : 1318 ≤ d.year := d.first_le
  have hlast : d.year ≤ 1500 := d.le_last
  have hthis : d.dayNumber = start d.year +
      (monthTotal (monthLength d.year) (d.month - 1) + (d.day - 1) : ℕ) := rfl
  have hdaypos := d.day_pos
  have hnumber := d.dayNumber_lt
  have hlength : calendar.yearLength d.year = monthTotal (monthLength d.year) 12 := rfl
  have hnext := (row_joined hfirst hlast).1
  have hmono := start_mono (show 1318 ≤ d.year + 1 by omega) (show d.year + 1 ≤ 1501 by omega) (by omega)
  rw [start_last] at hmono
  rw [calendar_start, hlength] at hnumber
  have hsum := addMonthDays_eq (row d.year).flags 0 (d.month - 1) ((d.day : ℤ) - 1)
  rw [Nat.shiftRight_zero, Nat.zero_add, monthTotal, Nat.cast_zero, sub_zero] at hsum
  obtain ⟨n, hn⟩ : ∃ n : ℕ, d.dayNumber = n := ⟨d.dayNumber.toNat, by omega⟩
  have hbound : n < 3652059 := by omega
  have hday : start d.year + 1 + ((d.day : ℤ) - 1 + (monthTotal (bitLength (row d.year).flags)
      (d.month - 1) : ℕ)) = n + 1 := by
    change (d.dayNumber : ℤ) = start d.year +
      (monthTotal (bitLength (row d.year).flags) (d.month - 1) + (d.day - 1) : ℕ) at hthis
    omega
  have hmonths : ((d.month : ℤ) - 1).toNat = d.month - 1 := by omega
  have hticks : ((n : ℤ) + 1) * ticksPerDay - ticksPerDay = n * ticksPerDay := by ring
  obtain ⟨hy, hm, hd⟩ := DateTimeArithmetic.components_eq (midnight n)
  have hmidnight : (midnight n).date.dayNumber = n := by
    rw [dayNumber_date, midnight, ticks_packed (by unfold ticksPerDay; omega) (by decide),
      Nat.mul_div_cancel _ (by decide)]
  simp only [absoluteDateUAQ, hijriToGregorian, yearInfo_year hfirst (show d.year ≤ 1501 by omega),
    pure_bind, absoluteDate_row (show d.year ≤ 1501 by omega), hmonths, hsum, hday, hticks,
    ofTicks_midnight hbound,
    hy, hm, hd, absoluteDate_eq, hmidnight, hn]

end SharpRuntime.Analysis.UmAlQuraDates

/-!
# Queries of the Um Al Qura calendar

The queries answer the date of a day from 1900-04-30 to 2077-11-16.  Nothing refuses the other days:
before the first row the table is read at `-1`, and after the last year the sentinel of the table
answers a year 1501.
-/

namespace SharpRuntime.Analysis.UmAlQuraQueries

open Machine Model Model.DateTime Model.Calendar
open Model.UmAlQuraCalendar Interface Interface.UmAlQuraDate
open CalendarArithmetic UmAlQuraDates

def umAlQuraClass : CalendarClass where
  getYear := getYear
  getMonth := getMonth
  getDayOfMonth := getDayOfMonth
  getDayOfYear := getDayOfYear
  addMonths := UmAlQuraCalendar.addMonths
  toDateTime year month day hour minute second millisecond :=
    toDateTime year month day hour minute second millisecond currentEra

/-- SOURCE: UmAlQuraCalendar.hpp:17 -/
def minSupported : Gregorian.Date :=
  ⟨1900, 4, 30, by decide, Gregorian.Date.one_le_four, Gregorian.Date.four_le_twelve, by decide,
    by decide⟩

def maxSupported : Gregorian.Date :=
  ⟨2077, 11, 16, by decide, by decide, by decide, by decide, by decide⟩

def Supported (x : DateTime) : Prop :=
  minSupported.dayNumber ≤ dayOf x ∧ dayOf x ≤ maxSupported.dayNumber

theorem supported_iff (x : DateTime) : Supported x ↔ 693714 ≤ dayOf x ∧ dayOf x < 758564 := by
  have hmin : minSupported.dayNumber = 693714 := by
    rw [← numberOf_date]
    decide
  have hmax : maxSupported.dayNumber = 758563 := by
    rw [← numberOf_date]
    decide
  rw [Supported, hmin, hmax]
  omega

variable {year : ℕ} {era : ℤ}

theorem checkYear_eq (hfirst : 1318 ≤ year) (hlast : year ≤ 1500)
    (hera : era = currentEra ∨ era = umAlQuraEra) : checkYear year era = pure () := by
  rw [checkYear, if_neg (by tauto), if_neg (by unfold minCalendarYear maxCalendarYear; omega)]

theorem checkYearMonth_eq {month : ℕ} (hfirst : 1318 ≤ year) (hlast : year ≤ 1500)
    (hera : era = currentEra ∨ era = umAlQuraEra) (hpos : 1 ≤ month) (hle : month ≤ 12) :
    checkYearMonth year month era = pure () := by
  rw [checkYearMonth, checkYear_eq hfirst hlast hera, pure_bind, if_neg (by omega)]

theorem getDaysInMonth_eq {month : ℕ} (hfirst : 1318 ≤ year) (hlast : year ≤ 1500)
    (hera : era = currentEra ∨ era = umAlQuraEra) (hpos : 1 ≤ month) (hle : month ≤ 12) :
    getDaysInMonth year month era = pure (monthLength year month : ℤ) := by
  have hindex : ((month : ℤ) - 1).toNat = month - 1 := by omega
  rw [getDaysInMonth, checkYearMonth_eq hfirst hlast hera hpos hle, pure_bind,
    yearInfo_year hfirst (by omega), pure_bind, hindex, Run.pure_inj]
  unfold monthLength bitLength daysPerMonth
  split <;> omega

theorem daysInYear_eq (hfirst : 1318 ≤ year) (hlast : year ≤ 1500) :
    daysInYear year = pure ((start (year + 1) : ℤ) - start year) := by
  have hsum := addMonthDays_eq (row year).flags 0 12 0
  rw [Nat.shiftRight_zero, Nat.zero_add] at hsum
  rw [daysInYear, yearInfo_year hfirst (by omega), pure_bind, hsum, (row_joined hfirst hlast).1,
    Run.pure_inj]
  change 0 + ((monthTotal (monthLength year) 12 : ℕ) : ℤ) - (0 : ℕ) = _
  omega

/-- The length of a year of the table is the distance to the next entry. -/
structure RowAgrees (year : ℕ) : Prop where
  entries : ∃ (dm dm' : DateMapping) (date date' : ℤ),
    yearInfo ((year : ℤ) - minCalendarYear) = pure dm ∧
    yearInfo ((year : ℤ) - minCalendarYear + 1) = pure dm' ∧
    absoluteDate dm.gYear dm.gMonth dm.gDay = pure date ∧
    absoluteDate dm'.gYear dm'.gMonth dm'.gDay = pure date' ∧
    daysInYear year = pure (date' - date)

theorem rowAgrees (hfirst : 1318 ≤ year) (hlast : year ≤ 1500) : RowAgrees year := by
  refine ⟨row year, row (year + 1), (start year : ℤ) + 1, (start (year + 1) : ℤ) + 1,
    yearInfo_year hfirst (by omega), yearInfo_eq (by omega) (by omega) ?_,
    absoluteDate_row (by omega), absoluteDate_row (by omega), ?_⟩
  · unfold minCalendarYear
    omega
  · rw [daysInYear_eq hfirst hlast, add_sub_add_right_eq_sub]

theorem toDateTime_midnight (d : calendar.Date) {n : ℕ} (hn : d.dayNumber = n) (hbound : n < 3652059) :
    toDateTime d.year d.month d.day 0 0 0 0 currentEra = pure (midnight n) := by
  have hlength : d.day ≤ monthLength d.year d.month := d.day_le
  have hpos := d.day_pos
  have hticks : ((n : ℤ) + 1) * ticksPerDay - ticksPerDay = n * ticksPerDay := by ring
  rw [toDateTime, checkYearMonth_eq d.first_le d.le_last (Or.inl rfl) d.month_pos d.month_le, pure_bind,
    getDaysInMonth_eq d.first_le d.le_last (Or.inl rfl) d.month_pos d.month_le, pure_bind,
    if_neg (by omega), absoluteDateUAQ_eq, pure_bind, hn, hticks,
    addTimeOfDay_noTime (by unfold ticksPerDay; omega) (by unfold ticksPerDay; omega), pure_bind,
    ofTicks_midnight hbound]

variable {x : DateTime}

theorem converts_of_number {d : calendar.Date} (h : d.dayNumber = dayOf x)
    (hbound : dayOf x < 3652059) : umAlQuraClass.Converts x d where
  number := h
  year := by
    change getYear x = _
    rw [getYear, gregorianToHijri_eq d h, pure_bind]
  month := by
    change getMonth x = _
    rw [getMonth, gregorianToHijri_eq d h, pure_bind]
  dayOfMonth := by
    change getDayOfMonth x = _
    rw [getDayOfMonth, gregorianToHijri_eq d h, pure_bind]
  dayOfYear := by
    change getDayOfYear x = _
    have hfirst := absoluteDateUAQ_eq (MonthCalendar.Date.ofYear d.year d.first_le d.le_last)
    rw [MonthCalendar.Date.dayNumber_ofYear] at hfirst
    change absoluteDateUAQ d.year 1 1 = _ at hfirst
    have hthis : d.dayNumber = calendar.start d.year + d.dayOfYear := rfl
    simp only [getDayOfYear, gregorianToHijri_eq d h, pure_bind, absoluteDateUAQ_eq, hfirst,
      Run.pure_inj]
    omega
  back := toDateTime_midnight d h hbound

theorem exists_date {n : ℕ} (hlo : 693714 ≤ n) (hhi : n < 758564) :
    ∃ d : calendar.Date, d.dayNumber = n := by
  have hlast := (row_joined (show 1318 ≤ 1500 by decide) (by decide)).1
  have hlength : calendar.yearLength calendar.last = monthTotal (monthLength 1500) 12 := rfl
  rw [start_last] at hlast
  apply MonthCalendar.Date.exists_dayNumber
  · decide
  · rw [calendar_first, calendar_start, start_first]
    omega
  · rw [hlength, calendar_last, calendar_start]
    omega

/-- What the class owes for a day: inside the range the queries answer its date, and that of the next
day follows; outside no query answers. -/
structure MeetsRange (x : DateTime) : Prop where
  inside : Supported x → ∃ d : calendar.Date, umAlQuraClass.Converts x d ∧ d.month ≤ 12 ∧
    (∃ length : ℕ, getDaysInMonth d.year d.month currentEra = pure (length : ℤ) ∧ d.day ≤ length) ∧
    ∀ y : DateTime, y.Valid → Supported y → dayOf y = dayOf x + 1 →
      ∃ e : calendar.Date, umAlQuraClass.Converts y e ∧ d.Follows e
  outside : ¬ Supported x → umAlQuraClass.Refuses x

theorem converts_of_supported (h : Supported x) :
    ∃ d : calendar.Date, umAlQuraClass.Converts x d := by
  obtain ⟨hlo, hhi⟩ := (supported_iff x).mp h
  obtain ⟨d, hd⟩ := exists_date hlo hhi
  exact ⟨d, converts_of_number hd (by omega)⟩

theorem not_refuses (h : ¬ Supported x) : ¬ OutOfRange (getYear x) := by
  rw [supported_iff] at h
  by_cases hlo : dayOf x < 693714
  · intro hthrows
    have hclean := hthrows.clean
    have hread := gregorianToHijri_before hlo
    rw [getYear, Run.clean_bind_of_not hread] at hclean
    exact absurd hclean (by decide)
  · obtain ⟨hm, hd, hyear⟩ := gregorianToHijri_after (x := x) (by omega)
    rw [getYear, hyear, pure_bind]
    exact not_outOfRange_pure _

theorem meetsRange_iff (x : DateTime) : MeetsRange x ↔ Supported x := by
  constructor
  · intro h
    by_contra hout
    exact not_refuses hout (h.outside hout).year
  · intro hin
    refine ⟨fun _ => ?_, fun hout => absurd hin hout⟩
    obtain ⟨d, hd⟩ := converts_of_supported hin
    refine ⟨d, hd, d.month_le, ⟨monthLength d.year d.month,
      getDaysInMonth_eq d.first_le d.le_last (Or.inl rfl) d.month_pos d.month_le, d.day_le⟩,
      fun y _ hyin hnext => ?_⟩
    obtain ⟨e, he⟩ := converts_of_supported hyin
    exact ⟨e, he, hd.follows he hnext⟩

/-- **The Um Al Qura calendar converts the days of its range, and refuses no other day.** -/
theorem umAlQura_conversion (x : DateTime) :
    (MeetsRange x ↔ Supported x) ∧
    (∀ year : ℕ, 1318 ≤ year → year ≤ 1500 → RowAgrees year) :=
  ⟨meetsRange_iff x, fun _ hfirst hlast => rowAgrees hfirst hlast⟩

/-- The theorem at 2077-11-16, the last day of the range. -/
theorem umAlQura_conversion_last_day : MeetsRange (midnight 758563) := by
  have hday : dayOf (midnight 758563) = 758563 := by decide
  refine (umAlQura_conversion _).1.mpr ?_
  rw [supported_iff, hday]
  decide

/-- April 29 of 1900 is before the range, and the table is read outside its bounds; November 17 of
2077 is after it, and its year is answered. -/
theorem year_outside_range :
    ((midnight 693713).Valid ∧ ¬ Supported (midnight 693713) ∧
      (getYear (midnight 693713)).clean = false) ∧
    ((midnight 758564).Valid ∧ ¬ Supported (midnight 758564) ∧
      getYear (midnight 758564) = pure 1501) := by
  have hbefore : dayOf (midnight 693713) = 693713 := by decide
  have hafter : dayOf (midnight 758564) = 758564 := by decide
  refine ⟨⟨valid_packed (by decide) (by decide), ?_, ?_⟩, valid_packed (by decide) (by decide), ?_, ?_⟩
  · rw [supported_iff, hbefore]
    decide
  · exact Run.clean_bind_of_not (gregorianToHijri_before (by rw [hbefore]; decide)) _
  · rw [supported_iff, hafter]
    decide
  · obtain ⟨hm, hd, hyear⟩ := gregorianToHijri_after (x := midnight 758564) (by rw [hafter])
    rw [getYear, hyear, pure_bind]

end SharpRuntime.Analysis.UmAlQuraQueries
