import SharpRuntime.Analysis.HebrewQueries

/-!
# Months of the Hebrew calendar

`addMonths` walks year by year from the month of a date, forward and back.  The forward walk stops
in the year of the month that is wanted (`forward_cases`).  The walk back stops a year early when
that month is the last one of its year: what is left to go back then is the whole year
(`backward_cases`), so that the month would have the number zero and is refused.
-/

set_option autoImplicit false

namespace SharpRuntime.Analysis.HebrewMonths

open Machine Model Model.DateTime Model.HebrewCalendar
open Model.Calendar Interface Interface.HebrewDate
open CalendarArithmetic HebrewDates HebrewQueries

/-- A month of the years that the class supports.
SOURCE: HebrewCalendar.hpp:162-164 -/
def SupportedMonth (y m : ℕ) : Prop := calendar.IsMonth y m ∧ y ≤ 5999

variable {y : ℕ}

theorem monthsBefore_succ (h : 5343 ≤ y) :
    calendar.monthsBefore (y + 1) = calendar.monthsBefore y + months y :=
  calendar.monthsBefore_succ h

theorem monthIndex_eq (y m : ℕ) : calendar.monthIndex y m = calendar.monthsBefore y + m := rfl

theorem twelve_le_months (y : ℕ) : 12 ≤ months y := by
  unfold months
  split
  case isTrue => decide
  case isFalse => decide

variable {m : ℕ}

theorem SupportedMonth.bounds (h : SupportedMonth y m) :
    0 < calendar.monthIndex y m ∧ calendar.monthIndex y m ≤ calendar.monthsBefore 6000 := by
  obtain ⟨⟨hfirst, -, hpos, hle⟩, hlast⟩ := h
  have hsucc := monthsBefore_succ hfirst
  have hmono := calendar.monthsBefore_mono (show y + 1 ≤ 6000 by omega)
  rw [calendar_months] at hle
  rw [monthIndex_eq]
  omega

theorem getMonthsInYear_supported (hfirst : 5343 ≤ y) (hlast : y ≤ 5999) :
    getMonthsInYear y currentEra = pure (months y : ℤ) :=
  getMonthsInYear_eq hfirst hlast (Or.inl rfl)

theorem getMonthsInYear_throws {y : ℤ} (h : y < 5343 ∨ 5999 < y) :
    OutOfRange (getMonthsInYear y currentEra) :=
  (isLeapYear_outOfRange h currentEra).bind _

/-- The walk over the years ends at the month of the same number, or leaves the calendar. -/
theorem forward_cases {fuel i : ℕ} (hfirst : 5343 ≤ y) (hlast : y ≤ 6000) (hpos : 1 ≤ i)
    (hfuel : i < fuel) :
    (∃ y' i' : ℕ, forward fuel i y = pure ((i' : ℤ), (y' : ℤ)) ∧ SupportedMonth y' i' ∧
      calendar.monthIndex y' i' = calendar.monthIndex y i) ∨
    (OutOfRange (forward fuel i y) ∧
      (calendar.monthsBefore 6000 : ℤ) < calendar.monthIndex y i) := by
  induction fuel generalizing i y with
  | zero => omega
  | succ fuel ih =>
    rw [forward]
    by_cases hend : y = 6000
    · subst hend
      refine Or.inr ⟨(getMonthsInYear_throws (by decide)).bind _, ?_⟩
      rw [monthIndex_eq]
      omega
    · have hmonths := twelve_le_months y
      rw [getMonthsInYear_supported hfirst (by omega), pure_bind]
      by_cases hmore : months y < i
      · have hindex : calendar.monthIndex (y + 1) (i - months y) = calendar.monthIndex y i := by
          rw [monthIndex_eq, monthIndex_eq, monthsBefore_succ hfirst]
          omega
        have hwalk : forward fuel ((i : ℤ) - months y) ((y : ℤ) + 1) =
            forward fuel ((i - months y : ℕ) : ℤ) ((y + 1 : ℕ) : ℤ) := by
          rw [Nat.cast_sub hmore.le, Nat.cast_succ]
        rw [if_pos (Int.ofNat_lt.mpr hmore), hwalk, ← hindex]
        exact ih (by omega) (by omega) (by omega) (by omega)
      · rw [if_neg (fun h => hmore (Int.ofNat_lt.mp h))]
        refine Or.inl ⟨y, i, rfl, ⟨⟨hfirst, ?_, hpos, Nat.not_lt.mp hmore⟩, by omega⟩, rfl⟩
        exact hlast

/-- The walk back ends in the year of the month that is wanted or, when this is the last month of a
year, in the year after it, with a whole year left; or it goes past the first year. -/
theorem backward_cases {fuel k : ℕ} (hfirst : 5342 ≤ y) (hlast : y ≤ 5999) (hfuel : k < fuel) :
    (∃ y' k' : ℕ, backward fuel k y = pure ((k' : ℤ), (y' : ℤ)) ∧ 5343 ≤ y' ∧ y' ≤ y ∧
      k' ≤ months y' ∧ calendar.monthsBefore (y' + 1) + k = calendar.monthsBefore (y + 1) + k' ∧
      (k' = 0 → y' = y)) ∨
    (OutOfRange (backward fuel k y) ∧ calendar.monthsBefore (y + 1) ≤ k) := by
  induction fuel generalizing k y with
  | zero => omega
  | succ fuel ih =>
    rw [backward]
    by_cases hend : y = 5342
    · subst hend
      have hnone : calendar.monthsBefore (5342 + 1) = 0 := calendar.monthsBefore_first
      exact Or.inr ⟨(getMonthsInYear_throws (by decide)).bind _, by omega⟩
    · have hmonths := twelve_le_months y
      have hsucc := monthsBefore_succ (show 5343 ≤ y by omega)
      rw [getMonthsInYear_supported (by omega) hlast, pure_bind]
      by_cases hmore : months y < k
      · have hprev : y - 1 + 1 = y := by omega
        have hwalk : backward fuel ((k : ℤ) - months y) ((y : ℤ) - 1) =
            backward fuel ((k - months y : ℕ) : ℤ) ((y - 1 : ℕ) : ℤ) := by
          rw [Nat.cast_sub hmore.le, Nat.cast_sub (by omega), Nat.cast_one]
        rw [if_pos (Int.ofNat_lt.mpr hmore), hwalk]
        have hrest := ih (k := k - months y) (y := y - 1) (by omega) (by omega) (by omega)
        rw [hprev] at hrest
        rcases hrest with ⟨y', k', hreturns, hfirst', hle, hk, hindex, hzero⟩ | ⟨hthrows, hless⟩
        · grind
        · exact Or.inr ⟨hthrows, by omega⟩
      · grind

/-- There is a month with this position in the supported years. -/
def HasMonth (index : ℤ) : Prop := ∃ y m, SupportedMonth y m ∧ calendar.monthIndex y m = index

/-- The position is that of the last month of a year two years before `y` or more. -/
def EndsEarlierYear (y : ℕ) (index : ℤ) : Prop :=
  ∃ z, 5343 ≤ z ∧ z + 2 ≤ y ∧ calendar.monthIndex z (months z) = index

theorem monthIndex_last {z : ℕ} (h : 5343 ≤ z) :
    calendar.monthIndex z (months z) = calendar.monthsBefore (z + 1) := by
  rw [monthIndex_eq, monthsBefore_succ h, Nat.cast_add]

theorem monthIndex_two_years {z : ℕ} (h : 5343 ≤ z) :
    calendar.monthIndex (z + 2) 1 = calendar.monthIndex z (months z) + months (z + 1) + 1 := by
  grind [monthIndex_eq, monthsBefore_succ]

theorem not_endsEarlierYear {index : ℤ} (h : (calendar.monthsBefore (y - 1) : ℤ) < index) :
    ¬ EndsEarlierYear y index := by
  rintro ⟨z, hfirst, hle, rfl⟩
  rw [monthIndex_last hfirst] at h
  have hmono := calendar.monthsBefore_mono (show z + 1 ≤ y - 1 by omega)
  omega

/-- The walk of `addMonths` gives the month that is wanted.  It is refused, or comes out as a month
of the number zero, when there is no such month, and when the month is the last one of a year two
years before or more. -/
theorem carry_cases (h : SupportedMonth y m) (n : ℤ) :
    (∃ y' m' : ℕ, carry y m n = pure ((y' : ℤ), (m' : ℤ)) ∧ SupportedMonth y' m' ∧
      calendar.monthIndex y' m' = calendar.monthIndex y m + n ∧
      ¬ EndsEarlierYear y (calendar.monthIndex y m + n)) ∨
    ((OutOfRange (carry y m n) ∨ ∃ y' : ℤ, carry y m n = pure (y', 0)) ∧
      (HasMonth (calendar.monthIndex y m + n) → EndsEarlierYear y (calendar.monthIndex y m + n))) := by
  obtain ⟨⟨hfirst, -, hpos, hle⟩, hlast⟩ := h
  have hfirst' : 5343 ≤ y := hfirst
  have hnone : ∀ {index : ℤ}, index ≤ 0 ∨ (calendar.monthsBefore 6000 : ℤ) < index →
      HasMonth index → EndsEarlierYear y index := by
    rintro index hout ⟨y', m', hmonth, rfl⟩
    have hbounds := hmonth.bounds
    omega
  have hprev : y - 1 + 1 = y := by omega
  have hbefore := calendar.monthsBefore_mono (show y - 1 ≤ y by omega)
  have hindex : calendar.monthIndex y m = calendar.monthsBefore y + m := rfl
  simp only [carry]
  by_cases hforward : 0 ≤ n
  · obtain ⟨k, rfl⟩ := Int.eq_ofNat_of_zero_le hforward
    have hsum : (m : ℤ) + k = ((m + k : ℕ) : ℤ) := (Nat.cast_add m k).symm
    have htotal : calendar.monthIndex y (m + k) = calendar.monthIndex y m + k := by
      rw [monthIndex_eq, monthIndex_eq, Nat.cast_add, add_assoc]
    rw [if_pos hforward, hsum, Int.toNat_natCast, ← htotal]
    rcases forward_cases hfirst (by omega) (show 1 ≤ m + k by omega) (Nat.lt_succ_self _) with
      ⟨y', i', hreturns, hmonth, hreached⟩ | ⟨hthrows, hlate⟩
    · rw [hreturns, pure_bind]
      refine Or.inl ⟨y', i', rfl, hmonth, hreached, not_endsEarlierYear ?_⟩
      omega
    · exact Or.inr ⟨Or.inl (hthrows.bind _), hnone (Or.inr hlate)⟩
  · rw [if_neg hforward]
    by_cases hback : (m : ℤ) + n ≤ 0
    · obtain ⟨k, hk⟩ := Int.eq_ofNat_of_zero_le (show 0 ≤ -n - m by omega)
      have hyear' : (y : ℤ) - 1 = ((y - 1 : ℕ) : ℤ) := by omega
      have htotal : calendar.monthIndex y m + n = calendar.monthsBefore y - k := by
        omega
      rw [if_pos hback, hk, hyear', Int.toNat_natCast, htotal]
      rcases backward_cases (show 5342 ≤ y - 1 by omega) (by omega) (Nat.lt_succ_self k) with
        ⟨y', k', hreturns, hfirst', hle', hk', hreached, hzero⟩ | ⟨hthrows, hearly⟩
      · rw [hprev] at hreached
        have hsucc := monthsBefore_succ hfirst'
        simp only [hreturns, pure_bind, getMonthsInYear_supported hfirst' (show y' ≤ 5999 by omega)]
        by_cases hwhole : k' = months y'
        · -- a whole year is left: the month before it is the last one of the year before
          refine Or.inr ⟨Or.inr ⟨y', by rw [hwhole, sub_self]⟩, ?_⟩
          rintro ⟨z, m', hmonth, hz⟩
          have hposition := hmonth.bounds.1
          have hlater : 5343 < y' := by
            by_contra hless
            have hnil : calendar.monthsBefore 5343 = 0 := calendar.monthsBefore_first
            rw [show y' = 5343 by omega] at hsucc hreached hwhole
            omega
          refine ⟨y' - 1, by omega, by omega, ?_⟩
          rw [monthIndex_last (by omega), show y' - 1 + 1 = y' by omega]
          omega
        · refine Or.inl ⟨y', months y' - k', ?_, ⟨⟨hfirst', ?_, ?_, Nat.sub_le _ _⟩, by omega⟩, ?_, ?_⟩
          · rw [Nat.cast_sub hk']
          · change y' ≤ 6000
            omega
          · omega
          · rw [monthIndex_eq]
            omega
          · rintro ⟨z, hz, hzy, hlastmonth⟩
            rw [monthIndex_last hz] at hlastmonth
            have hafter := monthsBefore_succ (show 5343 ≤ y' + 1 by omega)
            have hnotless : y' ≤ z := by
              by_contra hless
              have hmono := calendar.monthsBefore_mono (show z + 1 ≤ y' by omega)
              omega
            have hnotmore : z ≤ y' := by
              by_contra hmore
              have hmono := calendar.monthsBefore_mono (show y' + 1 + 1 ≤ z + 1 by omega)
              omega
            obtain rfl : z = y' := by omega
            omega
      · rw [hprev] at hearly
        exact Or.inr ⟨Or.inl (hthrows.bind _), hnone (Or.inl (by omega))⟩
    · rw [if_neg hback]
      lift (m : ℤ) + n to ℕ using by omega with i hi
      refine Or.inl ⟨y, i, rfl, ⟨⟨hfirst, ?_, by omega, ?_⟩, hlast⟩, ?_, not_endsEarlierYear ?_⟩
      · change y ≤ 6000
        omega
      · omega
      · rw [monthIndex_eq]
        omega
      · omega

def atTimeOf (e : calendar.Date) (x : DateTime) : DateTime :=
  packed (e.dayNumber.toNat * ticksPerDay + x.ticks % ticksPerDay) 0

/-- What is owed for the addition of `n` months to the day with the date `d`: the month `n` positions
later, the day clamped to its length, the time of day kept; or the refusal of a month that is outside
the supported years. -/
structure ShiftsMonths (x : DateTime) (d : calendar.Date) (n : ℤ) : Prop where
  inside : HasMonth (calendar.monthIndex d.year d.month + n) → ∃ e : calendar.Date,
    HebrewCalendar.addMonths x n = pure (atTimeOf e x) ∧ e.year ≤ 5999 ∧
      calendar.monthIndex e.year e.month = calendar.monthIndex d.year d.month + n ∧
      e.day = min d.day (monthLength e.year e.month)
  outside : ¬ HasMonth (calendar.monthIndex d.year d.month + n) →
    OutOfRange (HebrewCalendar.addMonths x n)

variable {e : calendar.Date}

theorem ticks_le (he : e.year ≤ 5999) (x : DateTime) :
    e.dayNumber.toNat * ticksPerDay + x.ticks % ticksPerDay ≤ maxTicks := by
  have hbounds := dayNumber_bounds e he
  unfold ticksPerDay maxTicks at *
  omega

theorem ticks_atTimeOf (he : e.year ≤ 5999) (x : DateTime) :
    (atTimeOf e x).ticks = e.dayNumber.toNat * ticksPerDay + x.ticks % ticksPerDay :=
  ticks_packed (Nat.lt_of_le_of_lt (ticks_le he x) maxTicks_lt) (by decide)

theorem dayOf_atTimeOf (he : e.year ≤ 5999) (x : DateTime) :
    (dayOf (atTimeOf e x) : ℤ) = e.dayNumber := by
  have hbounds := dayNumber_bounds e he
  have htime : x.ticks % ticksPerDay < ticksPerDay := Nat.mod_lt _ (by decide)
  rw [dayOf, ticks_atTimeOf he, Nat.mul_comm, Nat.mul_add_div (by decide), Nat.div_eq_of_lt htime,
    Nat.add_zero]
  omega

theorem time_atTimeOf (he : e.year ≤ 5999) (x : DateTime) :
    (atTimeOf e x).ticks % ticksPerDay = x.ticks % ticksPerDay := by
  rw [ticks_atTimeOf he, Nat.mul_comm, Nat.mul_add_mod, Nat.mod_mod]

theorem clampDay_eq (x : DateTime) {day : ℕ} (h : SupportedMonth y m) (hday : 1 ≤ day) :
    ∃ e : calendar.Date, clampDay x y m day = pure (atTimeOf e x) ∧ e.year = y ∧ e.month = m ∧
      e.day = min day (monthLength y m) := by
  obtain ⟨⟨hfirst, hlast, hpos, hle⟩, hyear⟩ := h
  have hlength := monthLength_pos hfirst hlast hpos hle
  have hmin : 1 ≤ min day (monthLength y m) := Nat.le_min.mpr ⟨hday, hlength⟩
  have hclamp : (if (monthLength y m : ℤ) < day then (monthLength y m : ℤ) else day) =
      (min day (monthLength y m) : ℕ) := by
    split
    case isTrue h => omega
    case isFalse h => omega
  refine ⟨ofParts y m (min day (monthLength y m)) hfirst hlast hpos hle hmin (Nat.min_le_right _ _),
    ?_, rfl, rfl, rfl⟩
  generalize he : ofParts y m (min day (monthLength y m)) hfirst hlast hpos hle hmin
    (Nat.min_le_right _ _) = e
  have hdate : hebrewToGregorian y m (min day (monthLength y m) : ℕ) 0 0 0 0 =
      pure (midnight e.dayNumber.toNat) := by
    subst he
    exact hebrewToGregorian_midnight (ofParts y m _ hfirst hlast hpos hle hmin _) hyear
  have hnumber : e.year ≤ 5999 := by
    subst he
    exact hyear
  have hbounds := dayNumber_bounds e hnumber
  have hticks : (midnight e.dayNumber.toNat).ticks = e.dayNumber.toNat * ticksPerDay :=
    ticks_packed (by unfold ticksPerDay; omega) (by decide)
  have hsum : ((e.dayNumber.toNat * ticksPerDay : ℕ) : ℤ) + (x.ticks : ℤ) % ticksPerDay =
      ((e.dayNumber.toNat * ticksPerDay + x.ticks % ticksPerDay : ℕ) : ℤ) := by
    rfl
  simp only [clampDay, getDaysInMonth_eq hfirst hyear (Or.inl rfl) hpos hle, pure_bind, hclamp, hdate,
    hticks, hsum]
  exact DateTimeArithmetic.ofTicks_eq (ticks_le hnumber x)

theorem clampDay_zero (x : DateTime) (y day : ℤ) : OutOfRange (clampDay x y 0 day) := by
  rcases getDaysInMonth_cases y 0 currentEra with hthrows | ⟨_, m, ⟨_, hm, _⟩, ⟨_, _, hpos, _⟩, _⟩
  · exact hthrows.bind _
  · omega

theorem date_of_supported {x : DateTime} (hx : x.Valid) (h : Supported x) :
    ∃ d : calendar.Date, d.year ≤ 5999 ∧ hebrewClass.Converts x d ∧
      hebrewDate x.ticks = pure ⟨d.year, d.month, d.day⟩ := by
  obtain ⟨d, hyear, hd⟩ := converts_of_supported hx h
  rcases hebrewDate_cases hx.ticks_le with hthrows | ⟨e, hnumber, hdate⟩
  · have hrefused : OutOfRange (getYear x) := hthrows.bind _
    have hanswered : getYear x = pure (d.year : ℤ) := hd.year
    rw [hanswered] at hrefused
    exact absurd hrefused (not_outOfRange_pure _)
  · obtain rfl := MonthCalendar.Date.dayNumber_injective (hnumber.trans hd.number.symm)
    exact ⟨e, hyear, hd, hdate⟩

section Shift

variable {x : DateTime} {d : calendar.Date} {n : ℤ}

theorem addMonths_eq (hdate : hebrewDate x.ticks = pure ⟨d.year, d.month, d.day⟩)
    (hlo : -120000 ≤ n) (hhi : n ≤ 120000) :
    HebrewCalendar.addMonths x n =
      carry d.year d.month n >>= fun p => clampDay x p.1 p.2 d.day := by
  rw [HebrewCalendar.addMonths, if_neg (by omega)]
  simp only [getYear, getMonth, getDayOfMonth, getDatePart, hdate, pure_bind]

theorem supportedMonth_date (hyear : d.year ≤ 5999) : SupportedMonth d.year d.month :=
  ⟨⟨d.first_le, d.le_last, d.month_pos, d.month_le⟩, hyear⟩

/-- Where `addMonths` returns, it has reached the month that is wanted; and where this is refused
though there is such a month, it is the last one of an earlier year. -/
theorem addMonths_cases (hdate : hebrewDate x.ticks = pure ⟨d.year, d.month, d.day⟩)
    (hyear : d.year ≤ 5999) (hlo : -120000 ≤ n) (hhi : n ≤ 120000) :
    (∃ e : calendar.Date, HebrewCalendar.addMonths x n = pure (atTimeOf e x) ∧ e.year ≤ 5999 ∧
      calendar.monthIndex e.year e.month = calendar.monthIndex d.year d.month + n ∧
      e.day = min d.day (monthLength e.year e.month) ∧
      ¬ EndsEarlierYear d.year (calendar.monthIndex d.year d.month + n)) ∨
    (OutOfRange (HebrewCalendar.addMonths x n) ∧
      (HasMonth (calendar.monthIndex d.year d.month + n) →
        EndsEarlierYear d.year (calendar.monthIndex d.year d.month + n))) := by
  rw [addMonths_eq hdate hlo hhi]
  rcases carry_cases (supportedMonth_date hyear) n with
    ⟨y', m', hreturns, hmonth, hindex, hlate⟩ | ⟨hrefused, hend⟩
  · obtain ⟨e, hclamp, rfl, rfl, hday⟩ := clampDay_eq x hmonth d.day_pos
    rw [hreturns, pure_bind]
    exact Or.inl ⟨e, hclamp, hmonth.2, hindex, hday, hlate⟩
  · refine Or.inr ⟨?_, hend⟩
    rcases hrefused with hthrows | ⟨y', hreturns⟩
    · exact hthrows.bind _
    · rw [hreturns, pure_bind]
      exact clampDay_zero x y' d.day

theorem shiftsMonths_iff (hdate : hebrewDate x.ticks = pure ⟨d.year, d.month, d.day⟩)
    (hyear : d.year ≤ 5999) (hlo : -120000 ≤ n) (hhi : n ≤ 120000) :
    ShiftsMonths x d n ↔ ¬ EndsEarlierYear d.year (calendar.monthIndex d.year d.month + n) := by
  rcases addMonths_cases hdate hyear hlo hhi with
    ⟨e, hreturns, he, hindex, hday, hlate⟩ | ⟨hthrows, hend⟩
  · refine iff_of_true ⟨fun _ => ⟨e, hreturns, he, hindex, hday⟩, fun hnone => ?_⟩ hlate
    exact absurd ⟨e.year, e.month, supportedMonth_date he, hindex⟩ hnone
  · constructor
    · rintro hshifts ⟨z, hz, hzy, hindex⟩
      have hmonth : HasMonth (calendar.monthIndex d.year d.month + n) := by
        refine ⟨z, months z, ⟨⟨hz, ?_, ?_, Nat.le_refl _⟩, by omega⟩, hindex⟩
        · change z ≤ 6000
          omega
        · exact Nat.le_trans (by decide) (twelve_le_months z)
      obtain ⟨e, hreturns, -⟩ := hshifts.inside hmonth
      rw [hreturns] at hthrows
      exact not_outOfRange_pure _ hthrows
    · intro hlate
      exact ⟨fun hmonth => absurd (hend hmonth) hlate, fun _ => hthrows⟩

end Shift

/-- Where two additions and the one of their sum all return, they lead to the same day, if no month
is too short for it on the way. -/
theorem addMonths_add {x r s t : DateTime} {d : calendar.Date} {a b : ℤ}
    (hdate : hebrewDate x.ticks = pure ⟨d.year, d.month, d.day⟩) (hyear : d.year ≤ 5999)
    (hday : d.day ≤ 29) (ha : HebrewCalendar.addMonths x a = pure r)
    (hb : HebrewCalendar.addMonths r b = pure s)
    (hab : HebrewCalendar.addMonths x (a + b) = pure t) : s = t := by
  have hreached : ∀ {x : DateTime} {d : calendar.Date} {n : ℤ} {r : DateTime},
      hebrewDate x.ticks = pure ⟨d.year, d.month, d.day⟩ → d.year ≤ 5999 → d.day ≤ 29 →
      HebrewCalendar.addMonths x n = pure r → ∃ e : calendar.Date, r = atTimeOf e x ∧
        e.year ≤ 5999 ∧ e.day = d.day ∧
        calendar.monthIndex e.year e.month = calendar.monthIndex d.year d.month + n := by
    intro x d n r hdate hyear hday hreturns
    have hrange : -120000 ≤ n ∧ n ≤ 120000 := by
      by_contra hout
      rw [HebrewCalendar.addMonths, if_pos (by omega)] at hreturns
      cases hreturns
    rcases addMonths_cases hdate hyear hrange.1 hrange.2 with
      ⟨e, hadd, he, hindex, heday, -⟩ | ⟨hthrows, -⟩
    · have hlength := twentyNine_le_monthLength e.first_le e.le_last e.month_pos e.month_le
      exact ⟨e, Run.pure_inj.mp (hreturns.symm.trans hadd), he, by omega, hindex⟩
    · rw [hreturns] at hthrows
      exact absurd hthrows (not_outOfRange_pure r)
  obtain ⟨e, rfl, he, heday, heindex⟩ := hreached hdate hyear hday ha
  obtain ⟨g, rfl, hg, hgday, hgindex⟩ := hreached hdate hyear hday hab
  have hdate' : hebrewDate (atTimeOf e x).ticks = pure ⟨e.year, e.month, e.day⟩ := by
    rcases hebrewDate_cases ((ticks_atTimeOf he x).le.trans (ticks_le he x)) with
      hthrows | ⟨e', hnumber, hdate'⟩
    · have hrefused : OutOfRange (HebrewCalendar.addMonths (atTimeOf e x) b) := by
        rw [HebrewCalendar.addMonths]
        split
        case isTrue => exact ⟨_, _, rfl⟩
        case isFalse => exact (hthrows.bind _).bind _
      rw [hb] at hrefused
      exact absurd hrefused (not_outOfRange_pure s)
    · rw [dayOf_atTimeOf he] at hnumber
      obtain rfl := MonthCalendar.Date.dayNumber_injective hnumber
      exact hdate'
  obtain ⟨f, rfl, hf, hfday, hfindex⟩ := hreached hdate' he (heday.trans_le hday) hb
  obtain ⟨hsameYear, hsameMonth⟩ := MonthCalendar.month_unique (supportedMonth_date hf).1
    (supportedMonth_date hg).1 (by rw [hfindex, heindex, hgindex, add_assoc])
  obtain rfl := MonthCalendar.Date.ext hsameYear hsameMonth
    (hfday.trans (heday.trans hgday.symm))
  rw [atTimeOf, time_atTimeOf he]
  rfl

/-- **Months are added along the sequence of the Hebrew months, but the last month of a year is
missed**: `addMonths` reaches the month that is the given number of positions away, or refuses one
outside the supported years, exactly when this month is not the last one of a year two years before
that of the date or more.  Two additions that return are the one of their sum where this returns. -/
theorem hebrew_addMonths (x : DateTime) (hx : x.Valid) (hsupported : Supported x) :
    ∃ d : calendar.Date, d.year ≤ 5999 ∧ hebrewClass.Converts x d ∧
      (∀ n : ℤ, -120000 ≤ n → n ≤ 120000 → (ShiftsMonths x d n ↔
        ¬ EndsEarlierYear d.year (calendar.monthIndex d.year d.month + n))) ∧
      (d.day ≤ 29 → ∀ (a b : ℤ) (r s t : DateTime), HebrewCalendar.addMonths x a = pure r →
        HebrewCalendar.addMonths r b = pure s → HebrewCalendar.addMonths x (a + b) = pure t →
        s = t) := by
  obtain ⟨d, hyear, hd, hdate⟩ := date_of_supported hx hsupported
  exact ⟨d, hyear, hd, fun n hlo hhi => shiftsMonths_iff hdate hyear hlo hhi,
    fun hday a b r s t ha hb hab => addMonths_add hdate hyear hday ha hb hab⟩

theorem newYear_supported : (midnight 739516).Valid ∧ Supported (midnight 739516) := by
  have hday : dayOf (midnight 739516) = 739516 := by decide
  refine ⟨valid_packed (by decide) (by decide), ?_, ?_⟩
  · rw [hday, minSupported_dayNumber]
    decide
  · rw [hday, maxSupported_dayNumber]
    decide

/-- The theorem on the first day of 5786. -/
theorem hebrew_addMonths_newYear : ∃ d : calendar.Date, d.year ≤ 5999 ∧
    hebrewClass.Converts (midnight 739516) d ∧
      (∀ n : ℤ, -120000 ≤ n → n ≤ 120000 → (ShiftsMonths (midnight 739516) d n ↔
        ¬ EndsEarlierYear d.year (calendar.monthIndex d.year d.month + n))) ∧
      (d.day ≤ 29 → ∀ (a b : ℤ) (r s t : DateTime),
        HebrewCalendar.addMonths (midnight 739516) a = pure r →
        HebrewCalendar.addMonths r b = pure s →
        HebrewCalendar.addMonths (midnight 739516) (a + b) = pure t → s = t) :=
  hebrew_addMonths _ newYear_supported.1 newYear_supported.2

/-- Thirteen months before the first month of 5786 comes the last one of 5784, and it is refused. -/
theorem last_month_refused :
    (midnight 739516).Valid ∧ Supported (midnight 739516) ∧
      ∃ d : calendar.Date, hebrewClass.Converts (midnight 739516) d ∧
        calendar.monthIndex 5784 13 = calendar.monthIndex d.year d.month - 13 ∧
        OutOfRange (HebrewCalendar.addMonths (midnight 739516) (-13)) ∧
        ¬ ShiftsMonths (midnight 739516) d (-13) := by
  obtain ⟨hvalid, hsupported⟩ := newYear_supported
  obtain ⟨d, hlast, hd, hdate⟩ := date_of_supported hvalid hsupported
  have hparts : hebrewDate (midnight 739516).ticks = pure ⟨5786, 1, 1⟩ := by decide +kernel
  obtain ⟨hyear, hmonth, hday⟩ := DateBuffer.mk.inj (Run.pure_inj.mp (hparts.symm.trans hdate))
  have hmonths : months 5784 = 13 ∧ months (5784 + 1) = 12 := by decide
  have hindex : calendar.monthIndex 5784 13 = calendar.monthIndex d.year d.month - 13 := by
    have htwo := monthIndex_two_years (show 5343 ≤ 5784 by decide)
    rw [hmonths.1, hmonths.2] at htwo
    rw [show d.year = 5784 + 2 by omega, show d.month = 1 by omega, htwo]
    omega
  have hends : EndsEarlierYear d.year (calendar.monthIndex d.year d.month + -13) :=
    ⟨5784, by decide, by omega, hindex⟩
  refine ⟨hvalid, hsupported, d, hd, hindex, ?_, ?_⟩
  · rcases addMonths_cases hdate hlast (n := -13) (by decide) (by decide) with
      ⟨-, -, -, -, -, hlate⟩ | ⟨hthrows, -⟩
    · exact absurd hends hlate
    · exact hthrows
  · intro hshifts
    exact (shiftsMonths_iff hdate hlast (by decide) (by decide)).mp hshifts hends

end SharpRuntime.Analysis.HebrewMonths
