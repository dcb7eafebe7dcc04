import SharpRuntime.Analysis.CalendarArithmetic
import SharpRuntime.Interface.HebrewDate

/-!
# Conversions of the Hebrew calendar

`getDatePart` starts at the Hebrew date of January 1 and walks over the months to the date asked
for, and `hebrewToGregorian` adds up the months between the two.  Both are the numbering of the
days of `HebrewDate.calendar`.
-/

set_option autoImplicit false

namespace SharpRuntime.Analysis.HebrewDates

open Machine Model Model.DateTime Model.HebrewCalendar
open Model.Calendar Interface.HebrewDate CalendarArithmetic
open DateTimeCalendar

theorem getAbsoluteDate_eq (d : Gregorian.Date) :
    getAbsoluteDate d.year d.month d.day = pure ((d.dayNumber : ℤ) + 1) :=
  absoluteDate_eq d

variable {year : ℕ}

theorem getAbsoluteDate_january (h : 1 ≤ year) :
    getAbsoluteDate year 1 1 = pure ((Gregorian.daysBeforeYear year : ℤ) + 1) :=
  absoluteDate_january h

theorem hebrewTable_code (hfirst : 5343 ≤ year) (hlast : year ≤ 6000) {index : ℤ}
    (h : index = (year : ℤ) - 5343) : hebrewTable (index * 2) = pure (code year : ℤ) := by
  rw [hebrewTable, Run.observe_eq_pure (by omega), pure_bind,
    show (index * 2).toNat = 2 * row year by rw [row]; omega]
  rfl

theorem hebrewTable_type (hfirst : 5343 ≤ year) (hlast : year ≤ 6000) {index : ℤ}
    (h : index = (year : ℤ) - 5343) : hebrewTable (index * 2 + 1) = pure (yearType year : ℤ) := by
  rw [hebrewTable, Run.observe_eq_pure (by omega), pure_bind,
    show (index * 2 + 1).toNat = 2 * row year + 1 by rw [row]; omega]
  rfl

theorem lunarMonthLen_eq (hfirst : 5343 ≤ year) (hlast : year ≤ 6000) {month : ℕ} (h : month < 14) :
    lunarMonthLen (yearType year) month = pure (monthLength year month : ℤ) := by
  have htype := yearType_bounds hfirst hlast
  rw [lunarMonthLen, Run.observe_eq_pure (by omega), pure_bind]
  rfl

theorem decodeMonth_eq (year : ℤ) (month : ℤ) (code : ℕ) :
    decodeMonth ⟨year, month, code⟩ = ⟨year, (january code).1, (january code).2⟩ := by
  unfold january
  split
  · rfl
  · rfl
  · rfl
  · rfl
  · rfl
  · rename_i h0 h30 h31 h32 h33
    grind [decodeMonth]

theorem getLunarMonthDay_eq (hfirst : 5343 ≤ year) (hlast : year ≤ 5999)
    (lunarDate : DateBuffer) {gregorianYear : ℤ} (h : gregorianYear = (year : ℤ) - 3760) :
    getLunarMonthDay gregorianYear lunarDate =
      pure ((yearType year : ℤ),
        ⟨lunarDate.year, (january (code year)).1, (january (code year)).2⟩) := by
  have hindex : gregorianYear - firstGregorianTableYear = (year : ℤ) - 5343 := by
    unfold firstGregorianTableYear
    omega
  simp only [getLunarMonthDay, hindex]
  rw [if_neg (by unfold lastGregorianTableYear firstGregorianTableYear; omega),
    hebrewTable_code hfirst (by omega) rfl, hebrewTable_type hfirst (by omega) rfl, pure_bind,
    pure_bind, decodeMonth_eq]

theorem getLunarMonthDay_throws {gregorianYear : ℤ} (h : gregorianYear < 1583 ∨ 2239 < gregorianYear)
    (lunarDate : DateBuffer) :
    getLunarMonthDay gregorianYear lunarDate = Run.throwing (.outOfRange "year") := by
  simp only [getLunarMonthDay]
  rw [if_pos (by unfold lastGregorianTableYear firstGregorianTableYear; omega)]

theorem thirteenth_month {type : ℕ} (h : 1 ≤ type ∧ type < 7) :
    typeLength type 13 = 0 ↔ type < 4 := by
  have htable : ∀ t : Fin 7, 1 ≤ t.val → (typeLength t 13 = 0 ↔ t.val < 4) := by decide
  exact htable ⟨type, h.2⟩ h.1

variable {y m : ℕ}

theorem pastYear_eq (hfirst : 5343 ≤ y) (hlast : y ≤ 6000) (hpos : 1 ≤ m)
    (hle : m ≤ months y) : pastYear (yearType y) (m + 1) = pure (decide (m = months y)) := by
  have htype := yearType_bounds hfirst hlast
  have hmonths := months_eq hfirst hlast
  have hthirteen := thirteenth_month htype
  have hle13 : months y ≤ 13 := by
    rw [hmonths]
    split <;> omega
  rw [pastYear]
  by_cases hend : m = 13
  · grind
  · rw [if_neg (by omega), show (m : ℤ) + 1 = (m + 1 : ℕ) by omega,
      lunarMonthLen_eq hfirst hlast (by omega), map_pure, Run.pure_inj, Bool.eq_iff_iff,
      beq_iff_eq, decide_eq_true_eq]
    by_cases htwelve : m = 12
    · subst htwelve
      change ((typeLength (yearType y) 13 : ℕ) : ℤ) = 0 ↔ _
      rw [hmonths]
      split <;> omega
    · have hlen := twentyNine_le_typeLength htype (show 1 ≤ m + 1 by omega) (by split <;> omega)
      change ((typeLength (yearType y) (m + 1) : ℕ) : ℤ) = 0 ↔ _
      rw [hmonths]
      constructor
      · intro h
        omega
      · intro h
        split at h <;> omega

/-- The walk over the months ends in the month of the date: at every round the first day of the
month is known, and the days that remain are those up to the date. -/
theorem walkMonths_eq {gYear : ℤ} {y0 : ℕ} (hg : gYear = (y0 : ℤ) - 3760) (d : calendar.Date)
    (hyear : d.year ≤ y0 + 1) {fuel numDays : ℕ} (hy : y = y0 ∨ y = y0 + 1)
    (hfirst : 5343 ≤ y0) (hlast : y0 < 6000) (hpos : 1 ≤ m) (hle : m ≤ months y)
    (hdays : 1 ≤ numDays) (hfuel : numDays ≤ fuel)
    (h : start y + monthTotal (monthLength y) (m - 1) + numDays = d.dayNumber + 1) :
    walkMonths gYear fuel numDays (yearType y) ⟨y, m, 1⟩ = pure ((d.day : ℤ), ⟨d.year, d.month, 1⟩) := by
  induction fuel generalizing y m numDays with
  | zero => omega
  | succ fuel ih =>
    have hyfirst : 5343 ≤ y := by omega
    have hylast : y ≤ 6000 := by omega
    have hmonths := months_eq hyfirst hylast
    have hle13 : months y ≤ 13 := by
      rw [hmonths]
      split <;> omega
    have hsucc := monthTotal_succ (monthLength y) (m - 1)
    rw [Nat.sub_add_cancel hpos] at hsucc
    have hlen := monthLength_pos hyfirst hylast hpos hle
    rw [walkMonths, lunarMonthLen_eq hyfirst hylast (by omega), pure_bind]
    by_cases hlt : monthLength y m < numDays
    · have hrest : 1 ≤ numDays - monthLength y m := by omega
      have hless : numDays - monthLength y m ≤ fuel := by omega
      simp only [pastYear_eq hyfirst hylast hpos hle, pure_bind]
      by_cases hend : m = months y
      · -- the walk leaves the year of January 1, not the one after it
        have hlength : calendar.yearLength y = monthTotal (monthLength y) m := by
          rw [hend]
          rfl
        have hafter : y < d.year := by
          apply d.lt_year hylast
          rw [hlength, calendar_start]
          omega
        have hsame : y = y0 := by omega
        subst hsame
        have hnext := calendar.start_succ (y := y) hfirst hlast
        rw [calendar_start, calendar_months, calendar_monthLength, ← hend] at hnext
        have hindex : gYear + 1 - firstGregorianTableYear = ((y + 1 : ℕ) : ℤ) - 5343 := by
          unfold firstGregorianTableYear
          omega
        rw [decide_eq_true hend, if_pos rfl, hebrewTable_type (by omega) (by omega) hindex, pure_bind]
        have hstart : start (y + 1) + monthTotal (monthLength (y + 1)) (1 - 1) +
            (numDays - monthLength y m : ℕ) = d.dayNumber + 1 := by
          rw [hnext, Nat.sub_self, monthTotal]
          omega
        have hrec := ih (Or.inr rfl) (Nat.le_refl 1)
          (calendar.months_pos (y := y + 1) (Nat.le_succ_of_le hfirst) hlast) hrest hless hstart
        grind
      · have hrec := ih hy (show 1 ≤ m + 1 by omega) (show m + 1 ≤ months y by omega) hrest hless
          (by rw [Nat.add_sub_cancel]; omega)
        grind
    · rw [if_neg (by exact_mod_cast hlt)]
      have hdate : ofParts y m numDays hyfirst hylast hpos hle hdays (by omega) = d := by
        apply MonthCalendar.Date.dayNumber_injective
        rw [dayNumber_ofParts]
        omega
      rw [← hdate]
      rfl

theorem exists_date {n g : ℕ} (hfirst : 1583 ≤ g) (hlast : g ≤ 2239)
    (hlo : Gregorian.daysBeforeYear g ≤ n) (hhi : n < Gregorian.daysBeforeYear (g + 1)) :
    ∃ d : calendar.Date, d.dayNumber = n ∧ d.year ≤ g + 3760 + 1 := by
  have hstart := (januaryDate 5343 (by omega) (by omega)).start_le_dayNumber
  have hend := (januaryDate 6000 (by omega) (by omega)).dayNumber_lt
  have hnext := (januaryDate (g + 3760 + 1) (by omega) (by omega)).dayNumber_lt
  rw [dayNumber_januaryDate, gregorianYear_eq (g := 1583) rfl] at hstart
  rw [dayNumber_januaryDate, gregorianYear_eq (g := 2240) rfl] at hend
  rw [dayNumber_januaryDate, gregorianYear_eq (g := g + 1) (by omega)] at hnext
  have hmono : Gregorian.daysBeforeYear 1583 ≤ Gregorian.daysBeforeYear g :=
    Gregorian.daysBeforeYear_mono hfirst
  have hmono' : Gregorian.daysBeforeYear (g + 1) ≤ Gregorian.daysBeforeYear 2240 :=
    Gregorian.daysBeforeYear_mono (by omega)
  change calendar.start 5343 ≤ _ at hstart
  change _ < calendar.start 6000 + calendar.yearLength 6000 at hend
  change _ < calendar.start (g + 3760 + 1) + calendar.yearLength (g + 3760 + 1) at hnext
  obtain ⟨d, hd⟩ := MonthCalendar.Date.exists_dayNumber (C := calendar) (n := n)
    (show 5343 ≤ 6000 by omega) (by rw [calendar_first]; omega) (by rw [calendar_last]; omega)
  exact ⟨d, hd, d.year_le (show 5343 ≤ g + 3760 + 1 by omega) (by omega)⟩

theorem daysAfter_eq {g r : ℕ} (hfirst : 1583 ≤ g) (hlast : g ≤ 2239) {d : calendar.Date}
    (hd : d.dayNumber = (Gregorian.daysBeforeYear g + r : ℕ)) (hyear : d.year ≤ g + 3760 + 1) :
    daysAfter g (yearType (g + 3760))
      ⟨(g + 3760 : ℕ), (january (code (g + 3760))).1, (january (code (g + 3760))).2⟩ r =
      pure ⟨d.year, d.month, d.day⟩ := by
  have hyfirst : 5343 ≤ g + 3760 := by omega
  have hylast : g + 3760 ≤ 6000 := by omega
  have hnumber := dayNumber_januaryDate hyfirst hylast
  have hmonth := january_month (code (g + 3760))
  have hnext := january_month_le hyfirst hylast
  have hday := january_day hyfirst hylast
  rw [januaryDate, dayNumber_ofParts, gregorianYear_eq rfl] at hnumber
  generalize hy : g + 3760 = y at *
  generalize (january (code y)).1 = m at *
  generalize (january (code y)).2 = j at *
  have hsucc := monthTotal_succ (monthLength y) (m - 1)
  rw [Nat.sub_add_cancel (by omega)] at hsucc
  simp only [daysAfter]
  rw [lunarMonthLen_eq hyfirst hylast (by omega), pure_bind]
  by_cases hin : r + j ≤ monthLength y m
  · rw [if_pos (by exact_mod_cast hin)]
    have hdate : ofParts y m (j + r) hyfirst hylast (by omega) (by omega) (by omega) (by omega) = d := by
      apply MonthCalendar.Date.dayNumber_injective
      rw [dayNumber_ofParts]
      omega
    rw [← hdate]
    rfl
  · rw [if_neg (by exact_mod_cast hin)]
    obtain ⟨k, hk⟩ : ∃ k : ℕ, r + j = monthLength y m + k := ⟨r + j - monthLength y m, by omega⟩
    rw [show (r : ℤ) - ((monthLength y m : ℕ) - (j : ℤ)) = (k : ℕ) by omega, Int.toNat_natCast]
    by_cases hmore : 1 < k
    · have hwalk := walkMonths_eq (show (g : ℤ) = (y : ℤ) - 3760 by omega) d hyear (Or.inl rfl) hyfirst
        (by omega) (show 1 ≤ m + 1 by omega) hnext (show 1 ≤ k by omega) (Nat.le_refl k)
        (by rw [Nat.add_sub_cancel]; omega)
      grind
    · rw [if_neg (by exact_mod_cast hmore)]
      have hdate : ofParts y (m + 1) 1 hyfirst hylast (by omega) hnext (Nat.le_refl 1)
          (monthLength_pos hyfirst hylast (by omega) hnext) = d := by
        apply MonthCalendar.Date.dayNumber_injective
        rw [dayNumber_ofParts, Nat.add_sub_cancel]
        omega
      rw [← hdate]
      rfl

/-- **The conversion of a date finds the Hebrew date with the same number.** -/
theorem hebrewDate_eq {x : DateTime} (hx : x.ticks ≤ maxTicks) (hfirst : 1583 ≤ x.date.year)
    (hlast : x.date.year ≤ 2239) :
    ∃ d : calendar.Date, d.dayNumber = (x.ticks / ticksPerDay : ℕ) ∧
      hebrewDate x.ticks = pure ⟨d.year, d.month, d.day⟩ := by
  obtain ⟨g, hg⟩ : ∃ g, x.date.year = g := ⟨_, rfl⟩
  rw [hg] at hfirst hlast
  have hnumber := dayNumber_date x
  have hbefore : x.date.dayNumber = Gregorian.daysBeforeYear g + x.date.dayOfYear := by
    rw [← hg]
    rfl
  have hinside : x.date.dayNumber < Gregorian.daysBeforeYear (g + 1) :=
    x.date.year_lt_iff.mp (by omega)
  obtain ⟨d, hd, hyear⟩ := exists_date (n := x.date.dayNumber) hfirst hlast (by omega) hinside
  refine ⟨d, by rw [hd, hnumber], ?_⟩
  have hyfirst : 5343 ≤ g + 3760 := by omega
  have hylast : g + 3760 ≤ 5999 := by omega
  have habs := getAbsoluteDate_eq x.date
  have hjan := getAbsoluteDate_january (show 1 ≤ g by omega)
  have hgregorian : (g : ℤ) = ((g + 3760 : ℕ) : ℤ) - 3760 := by omega
  have hrow := getLunarMonthDay_eq hyfirst hylast ⟨(g + 3760 : ℕ), 0, 0⟩ hgregorian
  have hyearOf : (g : ℤ) + hebrewYearOf1AD = (g + 3760 : ℕ) := by
    unfold hebrewYearOf1AD
    omega
  have hnumDays : (x.date.dayNumber : ℤ) + 1 - (Gregorian.daysBeforeYear g + 1) =
      (x.date.dayOfYear : ℕ) := by omega
  have hsame : (packed x.ticks 0).date = x.date := by
    rw [date, date, ticks_packed (Nat.lt_of_le_of_lt hx maxTicks_lt) (by decide)]
  obtain ⟨hy, hm, hday⟩ := DateTimeArithmetic.components_eq (packed x.ticks 0)
  rw [hsame] at hy hm hday
  rw [hg] at habs hy
  simp only [hebrewDate, DateTimeArithmetic.ofTicks_eq hx, pure_bind, hy, hm, hday, hrow, habs, hjan,
    hyearOf]
  by_cases hfirstDay : x.date.month = 1 ∧ x.date.day = 1
  · have hzero : x.date.dayOfYear = 0 := by
      rw [Gregorian.Date.dayOfYear, hfirstDay.1, hfirstDay.2]
      rfl
    have hdate : januaryDate (g + 3760) hyfirst (Nat.le_succ_of_le hylast) = d := by
      apply MonthCalendar.Date.dayNumber_injective
      rw [dayNumber_januaryDate, gregorianYear_eq rfl, hd, hbefore, hzero, Nat.add_zero]
    obtain ⟨hpartYear, hpartMonth, hpartDay⟩ :=
      januaryDate_parts hyfirst (Nat.le_succ_of_le hylast)
    grind
  · rw [if_neg (by exact_mod_cast hfirstDay), hnumDays]
    exact daysAfter_eq hfirst hlast (by rw [hd, hbefore]) hyear

theorem sumMonths_eq (hfirst : 5343 ≤ y) (hlast : y ≤ 6000) {fuel k : ℕ} (hm : m < 14)
    (hpos : 1 ≤ k) (hk : k ≤ m) (hfuel : m ≤ k + fuel) (days : ℤ) :
    (Run.whileLoop (fun p : ℤ × ℤ => decide (p.1 < m))
      (fun (m1, days) => do
        let len ← lunarMonthLen (yearType y) m1
        pure (m1 + 1, days + len)) fuel (k, days) : Run Exception (ℤ × ℤ)) =
      pure ((m : ℤ), days + monthTotal (monthLength y) (m - 1) - monthTotal (monthLength y) (k - 1)) := by
  induction fuel generalizing k days with
  | zero =>
    have heq : k = m := by omega
    subst heq
    rw [Run.whileLoop_exit (p := fun p : ℤ × ℤ => p.1 < k) (by simp), Run.pure_inj]
    simp
  | succ fuel ih =>
    by_cases hlt : k < m
    · have hsucc := monthTotal_succ (monthLength y) (k - 1)
      rw [Nat.sub_add_cancel hpos] at hsucc
      have hrest := ih (k := k + 1) (by omega) (by omega) (by omega) (days + monthLength y k)
      rw [Nat.add_sub_cancel, hsucc] at hrest
      rw [Run.whileLoop_enter (p := fun p : ℤ × ℤ => p.1 < m) (by simpa using hlt)]
      simp only [lunarMonthLen_eq hfirst hlast (show k < 14 by omega), pure_bind]
      push_cast at hrest
      rw [hrest, Run.pure_inj, Prod.mk.injEq]
      exact ⟨rfl, by ring⟩
    · have heq : k = m := by omega
      subst heq
      rw [Run.whileLoop_exit (p := fun p : ℤ × ℤ => p.1 < k) (by simp), Run.pure_inj]
      simp

theorem getDayDifference_eq (hfirst : 5343 ≤ y) (hlast : y ≤ 6000) {m1 m2 : ℕ}
    (h1 : 1 ≤ m1 ∧ m1 < 14) (h2 : 1 ≤ m2 ∧ m2 < 14) (d1 d2 : ℤ) :
    getDayDifference (yearType y) m1 d1 m2 d2 =
      pure ((monthTotal (monthLength y) (m1 - 1) + d1) -
        (monthTotal (monthLength y) (m2 - 1) + d2)) := by
  by_cases heq : m1 = m2
  · subst heq
    rw [getDayDifference, if_pos rfl, Run.pure_inj]
    ring
  · have hne : ¬ (m1 : ℤ) = m2 := by omega
    rw [getDayDifference, if_neg hne]
    by_cases hlt : m2 < m1
    · have hsucc := monthTotal_succ (monthLength y) (m2 - 1)
      rw [Nat.sub_add_cancel h2.1] at hsucc
      have hlt' : (m2 : ℤ) < m1 := by omega
      have hsum := sumMonths_eq hfirst hlast h1.2 (show 1 ≤ m2 + 1 by omega) (show m2 + 1 ≤ m1 by omega)
        (show m1 ≤ m2 + 1 + (m1 - m2) by omega) ((monthLength y m2 : ℤ) - d2)
      rw [Nat.add_sub_cancel, hsucc] at hsum
      push_cast at hsum
      have hfuel : ((m1 : ℤ) - m2).toNat = m1 - m2 := by omega
      simp only [hlt', decide_true, if_true, lunarMonthLen_eq hfirst hlast h2.2, pure_bind, hfuel,
        hsum, Run.pure_inj]
      ring
    · have hsucc := monthTotal_succ (monthLength y) (m1 - 1)
      rw [Nat.sub_add_cancel h1.1] at hsucc
      have hlt' : ¬ (m2 : ℤ) < m1 := by omega
      have hsum := sumMonths_eq hfirst hlast h2.2 (show 1 ≤ m1 + 1 by omega) (show m1 + 1 ≤ m2 by omega)
        (show m2 ≤ m1 + 1 + (m2 - m1) by omega) ((monthLength y m1 : ℤ) - d1)
      rw [Nat.add_sub_cancel, hsucc] at hsum
      push_cast at hsum
      have hfuel : ((m2 : ℤ) - m1).toNat = m2 - m1 := by omega
      simp only [hlt', decide_false, Bool.false_eq_true, if_false,
        lunarMonthLen_eq hfirst hlast h1.2, pure_bind, hfuel, hsum, Run.pure_inj]
      ring

/-- **The conversion from a date adds the time of day to its day number**; only the time of day can
leave 64 bits. -/
theorem hebrewToGregorian_eq (d : calendar.Date) (hyear : d.year ≤ 5999) (hour min sec ms : ℤ) :
    hebrewToGregorian d.year d.month d.day hour min sec ms =
      (addTimeOfDay 0 hour min sec ms >>= fun t =>
        Run.signed 64 (d.dayNumber * ticksPerDay + t) >>= fun ticks => DateTime.ofTicks ticks) := by
  have hfirst : 5343 ≤ d.year := d.first_le
  have hlast : d.year ≤ 6000 := by omega
  have hmonth := january_month (code d.year)
  have hday := january_day hfirst hlast
  have hmonthsLe := months_le hfirst hlast
  have hmle : d.month ≤ months d.year := d.month_le
  have hnumber := dayNumber_januaryDate hfirst hlast
  rw [januaryDate, dayNumber_ofParts] at hnumber
  have hthis : d.dayNumber = start d.year +
      (monthTotal (monthLength d.year) (d.month - 1) + (d.day - 1) : ℕ) := rfl
  have hg : (d.year : ℤ) - hebrewYearOf1AD = (gregorianYear d.year : ℕ) := by
    unfold hebrewYearOf1AD gregorianYear
    omega
  have hrow := getLunarMonthDay_eq hfirst hyear ⟨0, 0, 0⟩ hg.symm
  have hjan := getAbsoluteDate_january (show 1 ≤ gregorianYear d.year by unfold gregorianYear; omega)
  have hdiff := getDayDifference_eq hfirst hlast ⟨d.month_pos, by omega⟩
    (show 1 ≤ (january (code d.year)).1 ∧ _ by omega) d.day (january (code d.year)).2
  have hdpos := d.day_pos
  simp only [hebrewToGregorian, hrow, pure_bind, hg, hjan, hdiff]
  congr 1
  funext t
  split
  case isTrue hsame => grind
  case isFalse hother => grind

theorem marchDays_eq {month : ℕ} (hpos : 1 ≤ month) (hle : month ≤ 12) :
    (153 * (if 2 < (month : ℤ) then (month : ℤ) - 3 else month + 9) + 2).tdiv 5 =
      daysBeforeMonth.getD month 0 + if 2 < month then -59 else 306 := by
  interval_cases month <;> decide

theorem daysOfMarchYears (y : ℕ) :
    (y : ℤ).tdiv 400 * 146097 + (((y : ℤ) - (y : ℤ).tdiv 400 * 400) * 365 +
      ((y : ℤ) - (y : ℤ).tdiv 400 * 400).tdiv 4 - ((y : ℤ) - (y : ℤ).tdiv 400 * 400).tdiv 100) =
      y * 365 + y / 4 - y / 100 + y / 400 := by
  have hera : (y : ℤ).tdiv 400 = y / 400 := Int.tdiv_eq_ediv_of_nonneg (by omega)
  rw [hera, Int.tdiv_eq_ediv_of_nonneg (by omega), Int.tdiv_eq_ediv_of_nonneg (by omega)]
  omega

theorem utcSecondsFromCivil_eq (d : Gregorian.Date) (hour minute second : ℤ) :
    utcSecondsFromCivil d.year d.month d.day hour minute second =
      (((d.dayNumber : ℤ) - 719162) * 24 + hour) * 3600 + minute * 60 + second := by
  have hyear := d.year_pos
  have hclosed := dayNumber_closed d
  have htable := daysBeforeMonth_getD d.year d.month d.month_pos d.month_le
  have hleap := @Gregorian.leap_eq_true d.year
  have hmarch := marchDays_eq d.month_pos d.month_le
  -- the years are counted from March, so the leap day is the last of its year
  obtain hmonth | hmonth := Nat.lt_or_ge 2 d.month
  · have hyears := daysOfMarchYears d.year
    have hnot : ¬ (d.month : ℤ) ≤ 2 := by omega
    simp only [utcSecondsFromCivil, hmarch, if_neg hnot, sub_zero,
      if_pos (Int.natCast_nonneg d.year)]
    by_cases hl : Gregorian.leap d.year = true
    · rw [if_pos ⟨hmonth, hl⟩] at htable
      have hdiv := hleap.mp hl
      omega
    · rw [if_neg (fun h => hl h.2)] at htable
      have hdiv := mt hleap.mpr hl
      omega
  · have hyears := daysOfMarchYears (d.year - 1)
    rw [Nat.cast_sub hyear, Nat.cast_one] at hyears
    rw [if_neg (fun h => not_lt.mpr hmonth h.1)] at htable
    simp only [utcSecondsFromCivil, hmarch, if_pos (show (d.month : ℤ) ≤ 2 by omega),
      if_pos (show (0 : ℤ) ≤ (d.year : ℤ) - 1 by omega)]
    omega

/-- **The four counts of days agree**: the seconds of the epoch and the absolute dates are those of
the ticks. -/
theorem civil_dates (d : Gregorian.Date) (hyear : d.year ≤ 9999) {hour minute second : ℕ}
    (hhour : hour < 24) (hminute : minute < 60) (hsecond : second < 60) :
    ∃ ticks epoch : ℤ,
      dateToTicks d.year d.month d.day hour minute second 0 = pure ticks ∧
      dateToTicks 1970 1 1 0 0 0 0 = pure epoch ∧
      utcSecondsFromCivil d.year d.month d.day hour minute second * 10000000 = ticks - epoch ∧
      getAbsoluteDate d.year d.month d.day = pure (ticks / ticksPerDay + 1) ∧
      absoluteDate d.year d.month d.day = pure (ticks / ticksPerDay + 1) := by
  have hticks := dateToTicks_date hyear hhour hminute hsecond
    (show 0 < 1000 by decide)
  have hepoch := dateToTicks_date (d := januaryFirst 1970 (by decide))
    (show 1970 ≤ 9999 by decide) (show 0 < 24 by decide) (show 0 < 60 by decide)
    (show 0 < 60 by decide) (show 0 < 1000 by decide)
  have hnumber : (januaryFirst 1970 (by decide)).dayNumber = 719162 := by
    have hyears : Gregorian.daysBeforeYear 1970 + 1969 / 100 = 1969 * 365 + 1969 / 4 + 1969 / 400 :=
      Gregorian.daysBeforeYear_eq 1969
    rw [dayNumber_january]
    omega
  have hhours : (hour : ℤ) * ticksPerHour + minute * ticksPerMinute + second * ticksPerSecond <
      ticksPerDay := by
    simp only [ticksPerDay, ticksPerHour, ticksPerMinute, ticksPerSecond]
    omega
  have hday : (ticksOf d hour minute second 0 : ℤ) / ticksPerDay = d.dayNumber := by
    simp only [ticksOf, ticksPerDay, ticksPerHour, ticksPerMinute, ticksPerSecond,
      ticksPerMillisecond] at hhours ⊢
    omega
  refine ⟨_, _, hticks, hepoch, ?_, ?_, ?_⟩
  · rw [utcSecondsFromCivil_eq, ticksOf, ticksOf, hnumber]
    simp only [ticksPerDay, ticksPerHour, ticksPerMinute, ticksPerSecond, ticksPerMillisecond]
    push_cast
    ring
  · rw [hday, getAbsoluteDate_eq]
  · rw [hday, absoluteDate_eq]

/-- The last second of the last day. -/
theorem civil_dates_last :
    ∃ ticks epoch : ℤ,
      dateToTicks 9999 12 31 23 59 59 0 = pure ticks ∧
      dateToTicks 1970 1 1 0 0 0 0 = pure epoch ∧
      utcSecondsFromCivil 9999 12 31 23 59 59 * 10000000 = ticks - epoch ∧
      getAbsoluteDate 9999 12 31 = pure (ticks / ticksPerDay + 1) ∧
      absoluteDate 9999 12 31 = pure (ticks / ticksPerDay + 1) :=
  civil_dates ⟨9999, 12, 31, by decide, by decide, by decide, by decide, by decide⟩ (le_refl _)
    (by decide) (by decide) (by decide)

end SharpRuntime.Analysis.HebrewDates
