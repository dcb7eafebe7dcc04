import SharpRuntime.Machine.Gregorian
import SharpRuntime.Machine.MonthCalendar
import SharpRuntime.Model.HebrewCalendar

/-!
# Hebrew dates

The table of the Hebrew calendar gives, for each Gregorian year from 1583 on, the Hebrew date of
January 1 and the type of its Hebrew year.  It describes a calendar when the days from one January 1
to the next, those of a Gregorian year, are also the days of the Hebrew months between the two
dates.  `rows` checks this for every row; `calendar` is the calendar of the years 5343 to 6000.
-/

set_option autoImplicit false
set_option maxRecDepth 20000

namespace SharpRuntime.Interface.HebrewDate

open Machine Model Model.HebrewCalendar

/-- The year of the table whose January 1 falls in a Hebrew year. -/
def gregorianYear (year : ℕ) : ℕ := ((year : ℤ) - 3760).toNat

variable {year : ℕ}

theorem gregorianYear_eq {g : ℕ} (h : year = g + 3760) : gregorianYear year = g := by
  rw [gregorianYear]
  omega

def row (year : ℕ) : ℕ := ((year : ℤ) - 5343).toNat

def january (code : ℕ) : ℕ × ℕ :=
  match code with
  | 0 => (5, 1)
  | 30 => (3, 30)
  | 31 => (5, 2)
  | 32 => (5, 3)
  | 33 => (3, 29)
  | code => (4, code)

def typeLength (type month : ℕ) : ℕ := (s_lunarMonthLen.getD type []).getD month 0

/-- Seven of the years of a cycle of nineteen have a thirteenth month. -/
def leap (year : ℕ) : Bool := decide ((7 * year + 1) % 19 < 7)

def months (year : ℕ) : ℕ := if leap year then 13 else 12

def position (code type : ℕ) : ℕ :=
  monthTotal (typeLength type) ((january code).1 - 1) + ((january code).2 - 1)

/-- A row has one of the six types, the leap years have the last three, and its date exists. -/
def rowOK (year code type : ℕ) : Bool :=
  decide (1 ≤ type ∧ type < 7) && (leap year == decide (4 ≤ type)) &&
    decide (1 ≤ (january code).2 ∧ (january code).2 ≤ typeLength type (january code).1)

def joinOK (year code type code' type' : ℕ) : Bool :=
  decide (position code type + Gregorian.yearLength (gregorianYear year) =
    monthTotal (typeLength type) (months year) + position code' type')

def rowsOK : (year : ℕ) → (table : List ℕ) → Bool
  | year, code :: type :: code' :: type' :: rest =>
    rowOK year code type && (joinOK year code type code' type' &&
      rowsOK (year + 1) (code' :: type' :: rest))
  | year, [code, type] => rowOK year code type
  | _, _ => false

/-- The rows of the table fit the calendar from the year 5343 on. -/
theorem rows : rowsOK 5343 s_hebrewTable = true := by decide

variable {table : List ℕ} {i : ℕ}

theorem rowOK_of_rowsOK (h : rowsOK year table = true) (hi : 2 * i + 1 < table.length) :
    rowOK (year + i) (table.getD (2 * i) 0) (table.getD (2 * i + 1) 0) = true := by
  induction i generalizing year table with
  | zero =>
    match table, h with
    | [code, type], h => exact h
    | code :: type :: code' :: type' :: rest, h =>
      rw [rowsOK, Bool.and_eq_true] at h
      exact h.1
  | succ i ih =>
    match table, h with
    | [code, type], h =>
      simp only [List.length_cons, List.length_nil] at hi
      omega
    | code :: type :: code' :: type' :: rest, h => grind [rowsOK]

theorem joinOK_of_rowsOK (h : rowsOK year table = true) (hi : 2 * i + 3 < table.length) :
    joinOK (year + i) (table.getD (2 * i) 0) (table.getD (2 * i + 1) 0)
      (table.getD (2 * (i + 1)) 0) (table.getD (2 * (i + 1) + 1) 0) = true := by
  induction i generalizing year table with
  | zero =>
    match table, h with
    | [code, type], h =>
      simp only [List.length_cons, List.length_nil] at hi
      omega
    | code :: type :: code' :: type' :: rest, h =>
      rw [rowsOK, Bool.and_eq_true, Bool.and_eq_true] at h
      exact h.2.1
  | succ i ih =>
    match table, h with
    | [code, type], h =>
      simp only [List.length_cons, List.length_nil] at hi
      omega
    | code :: type :: code' :: type' :: rest, h => grind [rowsOK]

def code (year : ℕ) : ℕ := s_hebrewTable.getD (2 * row year) 0

def yearType (year : ℕ) : ℕ := s_hebrewTable.getD (2 * row year + 1) 0

def monthLength (year month : ℕ) : ℕ := typeLength (yearType year) month

def start (year : ℕ) : ℤ :=
  Gregorian.daysBeforeYear (gregorianYear year) - position (code year) (yearType year)

theorem length_hebrewTable : s_hebrewTable.length = 1316 := by decide

theorem rowOK_year (hfirst : 5343 ≤ year) (hlast : year ≤ 6000) :
    rowOK year (code year) (yearType year) = true := by
  have h := rowOK_of_rowsOK rows (i := row year) (by rw [length_hebrewTable, row]; omega)
  rw [show 5343 + row year = year by rw [row]; omega] at h
  exact h

theorem yearType_bounds (hfirst : 5343 ≤ year) (hlast : year ≤ 6000) :
    1 ≤ yearType year ∧ yearType year < 7 := by
  have h := rowOK_year hfirst hlast
  rw [rowOK, Bool.and_eq_true, Bool.and_eq_true, decide_eq_true_eq] at h
  exact h.1.1

theorem leap_eq (hfirst : 5343 ≤ year) (hlast : year ≤ 6000) :
    leap year = decide (4 ≤ yearType year) := by
  have h := rowOK_year hfirst hlast
  rw [rowOK, Bool.and_eq_true, Bool.and_eq_true, beq_iff_eq] at h
  exact h.1.2

theorem january_day (hfirst : 5343 ≤ year) (hlast : year ≤ 6000) : 1 ≤ (january (code year)).2 ∧
      (january (code year)).2 ≤ monthLength year (january (code year)).1 := by
  have h := rowOK_year hfirst hlast
  rw [rowOK, Bool.and_eq_true, decide_eq_true_eq] at h
  exact h.2

theorem january_month (code : ℕ) : 3 ≤ (january code).1 ∧ (january code).1 ≤ 5 := by
  unfold january
  split <;> simp

variable {month : ℕ}

theorem twentyNine_le_typeLength {type : ℕ} (htype : 1 ≤ type ∧ type < 7)
    (hpos : 1 ≤ month) (hle : month ≤ if 4 ≤ type then 13 else 12) :
    29 ≤ typeLength type month := by
  have htable : ∀ t : Fin 7, ∀ m : Fin 14, 1 ≤ t.val → 1 ≤ m.val →
      m.val ≤ (if 4 ≤ t.val then 13 else 12) → 29 ≤ typeLength t m := by decide
  have hm : month < 14 := by
    split at hle <;> omega
  exact htable ⟨type, htype.2⟩ ⟨month, hm⟩ htype.1 hpos hle

theorem months_eq (hfirst : 5343 ≤ year) (hlast : year ≤ 6000) :
    months year = if 4 ≤ yearType year then 13 else 12 := by
  rw [months, leap_eq hfirst hlast]
  simp only [decide_eq_true_eq]

theorem months_le (hfirst : 5343 ≤ year) (hlast : year ≤ 6000) : months year ≤ 13 := by
  rw [months_eq hfirst hlast]
  split <;> omega

theorem twentyNine_le_monthLength (hfirst : 5343 ≤ year) (hlast : year ≤ 6000)
    (hpos : 1 ≤ month) (hle : month ≤ months year) : 29 ≤ monthLength year month := by
  rw [months_eq hfirst hlast] at hle
  exact twentyNine_le_typeLength (yearType_bounds hfirst hlast) hpos hle

theorem monthLength_pos (hfirst : 5343 ≤ year) (hlast : year ≤ 6000)
    (hpos : 1 ≤ month) (hle : month ≤ months year) : 1 ≤ monthLength year month :=
  Nat.le_trans (by decide) (twentyNine_le_monthLength hfirst hlast hpos hle)

def calendar : MonthCalendar where
  first := 5343
  last := 6000
  months := months
  monthLength := monthLength
  start := start
  months_pos {y} hfirst hlast := by
    rw [months_eq hfirst hlast]
    split <;> decide
  monthLength_pos hfirst hlast hpos hle := monthLength_pos hfirst hlast hpos hle
  start_succ {y} hfirst hlast := by
    have h := joinOK_of_rowsOK rows (i := row y) (by rw [length_hebrewTable, row]; omega)
    rw [show 5343 + row y = y by rw [row]; omega, show row y + 1 = row (y + 1) by rw [row, row]; omega,
      joinOK, decide_eq_true_eq] at h
    have hnext := Gregorian.daysBeforeYear_succ
      (show 1 ≤ gregorianYear y by rw [gregorianYear]; omega)
    rw [show gregorianYear y + 1 = gregorianYear (y + 1) by rw [gregorianYear, gregorianYear]; omega]
      at hnext
    have hjoin : position (code y) (yearType y) + Gregorian.yearLength (gregorianYear y) =
        monthTotal (monthLength y) (months y) + position (code (y + 1)) (yearType (y + 1)) := h
    unfold start
    omega

@[simp] theorem calendar_first : calendar.first = 5343 := rfl

@[simp] theorem calendar_last : calendar.last = 6000 := rfl

@[simp] theorem calendar_months : calendar.months = months := rfl

@[simp] theorem calendar_monthLength : calendar.monthLength = monthLength := rfl

@[simp] theorem calendar_start : calendar.start = start := rfl

def ofParts (y m d : ℕ) (hfirst : 5343 ≤ y) (hlast : y ≤ 6000) (hpos : 1 ≤ m) (hle : m ≤ months y)
    (hday : 1 ≤ d) (hlen : d ≤ monthLength y m) : calendar.Date :=
  ⟨y, m, d, hfirst, hlast, hpos, hle, hday, hlen⟩

theorem dayNumber_ofParts {y m d : ℕ} (hfirst : 5343 ≤ y) (hlast : y ≤ 6000) (hpos : 1 ≤ m)
    (hle : m ≤ months y) (hday : 1 ≤ d) (hlen : d ≤ monthLength y m) :
    (ofParts y m d hfirst hlast hpos hle hday hlen).dayNumber =
      start y + (monthTotal (monthLength y) (m - 1) + (d - 1) : ℕ) := rfl

def firstDay (year : ℕ) (hfirst : 5343 ≤ year) (hlast : year ≤ 6000) : calendar.Date :=
  MonthCalendar.Date.ofYear year hfirst hlast

theorem dayNumber_firstDay (hfirst : 5343 ≤ year) (hlast : year ≤ 6000) :
    (firstDay year hfirst hlast).dayNumber = start year :=
  MonthCalendar.Date.dayNumber_ofYear (C := calendar) hfirst hlast

theorem january_month_le (hfirst : 5343 ≤ year) (hlast : year ≤ 6000) :
    (january (code year)).1 + 1 ≤ months year := by
  have hmonth := january_month (code year)
  rw [months_eq hfirst hlast]
  split <;> omega

def januaryDate (year : ℕ) (hfirst : 5343 ≤ year) (hlast : year ≤ 6000) : calendar.Date :=
  ofParts year (january (code year)).1 (january (code year)).2 hfirst hlast
    (Nat.le_trans (by decide) (january_month (code year)).1)
    (Nat.le_of_succ_le (january_month_le hfirst hlast))
    (january_day hfirst hlast).1 (january_day hfirst hlast).2

theorem januaryDate_parts (hfirst : 5343 ≤ year) (hlast : year ≤ 6000) :
    (januaryDate year hfirst hlast).year = year ∧
      (januaryDate year hfirst hlast).month = (january (code year)).1 ∧
      (januaryDate year hfirst hlast).day = (january (code year)).2 :=
  ⟨rfl, rfl, rfl⟩

theorem dayNumber_januaryDate (hfirst : 5343 ≤ year) (hlast : year ≤ 6000) :
    (januaryDate year hfirst hlast).dayNumber =
      Gregorian.daysBeforeYear (gregorianYear year) := by
  rw [januaryDate, dayNumber_ofParts, start]
  exact Int.sub_add_cancel _ _

end SharpRuntime.Interface.HebrewDate
