import Mathlib

/-!
# The Gregorian calendar

A `Date` is a day of the proleptic Gregorian calendar, from January 1 of the year 1 on.  `dayNumber`
counts the days before a date by years and months, and agrees with the day after
(`dayNumber_tomorrow`); a date is determined by its number (`dayNumber_injective`).  The years'
total has a closed form (`daysBeforeYear_eq`) and repeats in cycles of 400, 100 and 4 years.
-/

set_option autoImplicit false

namespace Machine.Gregorian

open Finset

/-- Every fourth year is a leap year, but of the years that end a century only every fourth. -/
def leap (year : ℕ) : Bool :=
  decide (year % 4 = 0) && (decide (year % 100 ≠ 0) || decide (year % 400 = 0))

def monthLength (year month : ℕ) : ℕ :=
  match month with
  | 2 => if leap year then 29 else 28
  | 4 | 6 | 9 | 11 => 30
  | _ => 31

def yearLength (year : ℕ) : ℕ := if leap year then 366 else 365

def daysBeforeYear (year : ℕ) : ℕ := ∑ y ∈ range (year - 1), yearLength (y + 1)

def daysBeforeMonth (year month : ℕ) : ℕ := ∑ m ∈ range (month - 1), monthLength year (m + 1)

/-- A day of the calendar. -/
@[ext]
structure Date where
  year : ℕ
  month : ℕ
  day : ℕ
  year_pos : 1 ≤ year
  month_pos : 1 ≤ month
  month_le : month ≤ 12
  day_pos : 1 ≤ day
  day_le : day ≤ monthLength year month
deriving DecidableEq

variable (year : ℕ)

theorem monthLength_ge (month : ℕ) : 28 ≤ monthLength year month := by
  unfold monthLength
  split
  · split <;> decide
  all_goals decide

theorem monthLength_pos (month : ℕ) : 1 ≤ monthLength year month :=
  le_trans (by decide) (monthLength_ge year month)

theorem leap_eq_true {year : ℕ} :
    leap year = true ↔ year % 4 = 0 ∧ (year % 100 ≠ 0 ∨ year % 400 = 0) := by
  simp only [leap, Bool.and_eq_true, Bool.or_eq_true, decide_eq_true_eq]

theorem daysBeforeYear_succ {year : ℕ} (h : 1 ≤ year) :
    daysBeforeYear (year + 1) = daysBeforeYear year + yearLength year := by
  obtain ⟨y, rfl⟩ : ∃ y, year = y + 1 := ⟨year - 1, by omega⟩
  simp only [daysBeforeYear, Nat.add_sub_cancel]
  rw [sum_range_succ]

/-- The days of the first `y` years: one more for every fourth year, but not for every
hundredth, and again for every four-hundredth. -/
theorem daysBeforeYear_eq (y : ℕ) :
    daysBeforeYear (y + 1) + y / 100 = y * 365 + y / 4 + y / 400 := by
  induction y with
  | zero => rfl
  | succ y ih =>
    rw [daysBeforeYear_succ (by omega), yearLength, Nat.succ_div, Nat.succ_div, Nat.succ_div]
    simp only [leap_eq_true, Nat.dvd_iff_mod_eq_zero]
    split_ifs <;> omega

variable {a b : ℕ}

theorem daysBeforeYear_mono (h : a ≤ b) : daysBeforeYear a ≤ daysBeforeYear b :=
  sum_le_sum_of_subset (range_mono (by omega))

theorem year_unique {y y' r r' : ℕ} (hy : 1 ≤ y) (hy' : 1 ≤ y')
    (hr : r < yearLength y) (hr' : r' < yearLength y')
    (h : daysBeforeYear y + r = daysBeforeYear y' + r') : y = y' ∧ r = r' := by
  have hle : ¬ y < y' := by
    intro hlt
    have h1 := daysBeforeYear_succ hy
    have h2 : daysBeforeYear (y + 1) ≤ daysBeforeYear y' := daysBeforeYear_mono hlt
    omega
  have hge : ¬ y' < y := by
    intro hlt
    have h1 := daysBeforeYear_succ hy'
    have h2 : daysBeforeYear (y' + 1) ≤ daysBeforeYear y := daysBeforeYear_mono hlt
    omega
  have heq : y = y' := by omega
  subst heq
  exact ⟨rfl, by omega⟩

theorem daysBeforeMonth_succ {month : ℕ} (h : 1 ≤ month) :
    daysBeforeMonth year (month + 1) = daysBeforeMonth year month + monthLength year month := by
  obtain ⟨m, rfl⟩ : ∃ m, month = m + 1 := ⟨month - 1, by omega⟩
  simp only [daysBeforeMonth, Nat.add_sub_cancel]
  rw [sum_range_succ]

theorem daysBeforeMonth_mono (h : a ≤ b) : daysBeforeMonth year a ≤ daysBeforeMonth year b :=
  sum_le_sum_of_subset (range_mono (by omega))

theorem daysBeforeMonth_thirteen : daysBeforeMonth year 13 = yearLength year := by
  simp only [daysBeforeMonth, yearLength, monthLength, sum_range_succ, sum_range_zero]
  cases leap year <;> rfl

variable {d : ℕ}

theorem month_unique {y m m' d' : ℕ} (hm : 1 ≤ m) (hm' : 1 ≤ m')
    (hd : d < monthLength y m) (hd' : d' < monthLength y m')
    (h : daysBeforeMonth y m + d = daysBeforeMonth y m' + d') : m = m' ∧ d = d' := by
  have hle : ¬ m < m' := by
    intro hlt
    have h1 := daysBeforeMonth_succ y hm
    have h2 : daysBeforeMonth y (m + 1) ≤ daysBeforeMonth y m' := daysBeforeMonth_mono y hlt
    omega
  have hge : ¬ m' < m := by
    intro hlt
    have h1 := daysBeforeMonth_succ y hm'
    have h2 : daysBeforeMonth y (m' + 1) ≤ daysBeforeMonth y m := daysBeforeMonth_mono y hlt
    omega
  have heq : m = m' := by omega
  subst heq
  exact ⟨rfl, by omega⟩

namespace Date

def dayOfYear (d : Date) : ℕ := daysBeforeMonth d.year d.month + (d.day - 1)

def dayNumber (d : Date) : ℕ := daysBeforeYear d.year + d.dayOfYear

theorem dayOfYear_lt (d : Date) : d.dayOfYear < yearLength d.year := by
  have hday := d.day_le
  have hpos := d.day_pos
  have hstep := daysBeforeMonth_succ d.year d.month_pos
  have hend : daysBeforeMonth d.year (d.month + 1) ≤ daysBeforeMonth d.year 13 :=
    daysBeforeMonth_mono d.year (Nat.succ_le_succ d.month_le)
  rw [daysBeforeMonth_thirteen] at hend
  rw [dayOfYear]
  omega

variable {d e : Date}

/-- A day number belongs to one date. -/
theorem dayNumber_injective (h : d.dayNumber = e.dayNumber) : d = e := by
  obtain ⟨hy, hr⟩ := year_unique d.year_pos e.year_pos d.dayOfYear_lt e.dayOfYear_lt h
  have hd := d.day_le
  have hd' := e.day_le
  have hp := d.day_pos
  have hp' := e.day_pos
  rw [dayOfYear, dayOfYear, hy] at hr
  rw [hy] at hd
  obtain ⟨hm, hday⟩ := month_unique d.month_pos e.month_pos (by omega) (by omega) hr
  exact Date.ext hy hm (by omega)

theorem one_le_four : 1 ≤ 4 := by decide

theorem four_le_twelve : 4 ≤ 12 := by decide

def first : Date where
  year := 1
  month := 1
  day := 1
  year_pos := by decide
  month_pos := by decide
  month_le := by decide
  day_pos := by decide
  day_le := by decide

def tomorrow (d : Date) : Date :=
  if hday : d.day + 1 ≤ monthLength d.year d.month then
    { d with day := d.day + 1, day_pos := by omega, day_le := hday }
  else if hmonth : d.month + 1 ≤ 12 then
    { d with
      month := d.month + 1, day := 1, month_pos := by omega, month_le := hmonth
      day_pos := by omega, day_le := monthLength_pos _ _ }
  else
    { d with
      year := d.year + 1, month := 1, day := 1, year_pos := by omega, month_pos := by omega
      month_le := by omega, day_pos := by omega, day_le := monthLength_pos _ _ }

theorem dayNumber_first : first.dayNumber = 0 := rfl

theorem dayNumber_tomorrow (d : Date) : d.tomorrow.dayNumber = d.dayNumber + 1 := by
  have hpos := d.day_pos
  have hle := d.day_le
  have hstep := daysBeforeMonth_succ d.year d.month_pos
  unfold tomorrow
  split
  case isTrue hday =>
    simp only [dayNumber, dayOfYear]
    omega
  case isFalse hday =>
    split
    case isTrue hmonth =>
      simp only [dayNumber, dayOfYear]
      omega
    case isFalse hmonth =>
      -- the last day of December: the months of the year add up to the year
      have hdec : d.month = 12 := by
        have := d.month_le
        omega
      have hyear : daysBeforeMonth d.year 12 + monthLength d.year 12 = yearLength d.year :=
        (daysBeforeMonth_succ d.year (by decide)).symm.trans (daysBeforeMonth_thirteen d.year)
      have hnext := daysBeforeYear_succ d.year_pos
      have hfirst : daysBeforeMonth (d.year + 1) 1 = 0 := rfl
      rw [hdec] at hle hday
      simp only [dayNumber, dayOfYear, hdec]
      omega

def ofDayNumber (n : ℕ) : Date := tomorrow^[n] first

@[simp] theorem dayNumber_ofDayNumber (n : ℕ) : (ofDayNumber n).dayNumber = n := by
  unfold ofDayNumber
  induction n with
  | zero => exact dayNumber_first
  | succ n ih => rw [Function.iterate_succ_apply', dayNumber_tomorrow, ih]

theorem ofDayNumber_dayNumber (d : Date) : ofDayNumber d.dayNumber = d :=
  dayNumber_injective (dayNumber_ofDayNumber d.dayNumber)

theorem year_lt_iff (d : Date) {y : ℕ} :
    d.year < y ↔ d.dayNumber < daysBeforeYear y := by
  have hlt := d.dayOfYear_lt
  have hnext := daysBeforeYear_succ d.year_pos
  constructor
  · intro h
    have hle : daysBeforeYear (d.year + 1) ≤ daysBeforeYear y := daysBeforeYear_mono h
    rw [dayNumber]
    omega
  · intro h
    by_contra hge
    have hle : daysBeforeYear y ≤ daysBeforeYear d.year := daysBeforeYear_mono (by omega)
    rw [dayNumber] at h
    omega

/-- The date a number of months later, or earlier: the same day of the month, or the last one of
a month that is too short.  There is none before the year 1. -/
def addMonths (d : Date) (months : ℤ) : Option Date :=
  let index : ℤ := d.year * 12 + (d.month - 1) + months
  if h : 12 ≤ index then
    some
      { year := (index / 12).toNat
        month := (index % 12).toNat + 1
        day := min d.day (monthLength (index / 12).toNat ((index % 12).toNat + 1))
        year_pos := by omega
        month_pos := by omega
        month_le := by omega
        day_pos := le_min d.day_pos (monthLength_pos _ _)
        day_le := min_le_right _ _ }
  else none

def monthIndex (d : Date) : ℕ := d.year * 12 + (d.month - 1)

theorem monthIndex_eq_iff : d.monthIndex = e.monthIndex ↔ d.year = e.year ∧ d.month = e.month := by
  have hd := d.month_pos
  have hd' := d.month_le
  have he := e.month_pos
  have he' := e.month_le
  unfold monthIndex
  omega

theorem dayNumber_lt_of_monthIndex_lt (h : d.monthIndex < e.monthIndex) :
    d.dayNumber < e.dayNumber := by
  have hday := d.day_le
  have hpos := d.day_pos
  have hd := d.month_pos
  have he' := e.month_le
  unfold monthIndex at h
  by_cases hyear : d.year < e.year
  · grind [dayNumber, year_lt_iff]
  · have hsame : d.year = e.year := by omega
    have hstep := daysBeforeMonth_succ d.year hd
    have hmono : daysBeforeMonth d.year (d.month + 1) ≤ daysBeforeMonth d.year e.month :=
      daysBeforeMonth_mono _ (by omega)
    rw [dayNumber, dayNumber, dayOfYear, dayOfYear, ← hsame]
    omega

theorem dayNumber_add_day (h : d.monthIndex = e.monthIndex) :
    d.dayNumber + e.day = e.dayNumber + d.day := by
  obtain ⟨hyear, hmonth⟩ := monthIndex_eq_iff.mp h
  have hd := d.day_pos
  have he := e.day_pos
  rw [dayNumber, dayNumber, dayOfYear, dayOfYear, hyear, hmonth]
  omega

theorem dayNumber_le_iff : d.dayNumber ≤ e.dayNumber ↔
      d.monthIndex < e.monthIndex ∨ (d.monthIndex = e.monthIndex ∧ d.day ≤ e.day) := by
  rcases lt_trichotomy d.monthIndex e.monthIndex with h | h | h
  · have hlt := dayNumber_lt_of_monthIndex_lt h
    omega
  · have hsame := dayNumber_add_day h
    omega
  · have hlt := dayNumber_lt_of_monthIndex_lt h
    omega

theorem addMonths_eq_some {months : ℤ} (h : d.addMonths months = some e) :
    (e.monthIndex : ℤ) = d.monthIndex + months ∧ e.day = min d.day (monthLength e.year e.month) := by
  have hd := d.month_pos
  simp only [addMonths] at h
  split at h
  case isTrue hle => grind [monthIndex]
  case isFalse hgt => cases h

theorem exists_addMonths {months : ℤ} (h : 12 ≤ (d.monthIndex : ℤ) + months) :
    ∃ e, d.addMonths months = some e := by
  have hd := d.month_pos
  unfold monthIndex at h
  unfold addMonths
  rw [dif_pos (by omega)]
  exact ⟨_, rfl⟩

end Date

theorem daysBeforeYear_cycles {c : ℕ} (hb : b ≤ 3) (hc : c ≤ 24) (hd : d ≤ 3) :
    daysBeforeYear (400 * a + 100 * b + 4 * c + d + 1) =
      146097 * a + 36524 * b + 1461 * c + 365 * d := by
  have h := daysBeforeYear_eq (400 * a + 100 * b + 4 * c + d)
  omega

theorem leap_cycles {c : ℕ} (hb : b ≤ 3) (hc : c ≤ 24) (hd : d ≤ 3) :
    leap (400 * a + 100 * b + 4 * c + d + 1) =
      (decide (d = 3) && (decide (c ≠ 24) || decide (b = 3))) := by grind [leap_eq_true]

end Machine.Gregorian
