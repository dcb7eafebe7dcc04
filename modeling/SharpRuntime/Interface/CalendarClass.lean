import SharpRuntime.Interface.DateTimeValue
import SharpRuntime.Machine.MonthCalendar
import SharpRuntime.Model.UmAlQuraCalendar

/-!
# Calendar classes

What a class that converts to a calendar of months owes: its queries answer the date with the
number of the day (`Converts`), and the days it does not support are refused (`Refuses`).  Dates
that are answered for consecutive days follow each other (`Converts.follows`).
-/

set_option autoImplicit false
set_option maxRecDepth 20000

namespace SharpRuntime.Interface

open Machine Model Model.DateTime

def OutOfRange {α : Type} (r : Run Exception α) : Prop :=
  ∃ paramName message, r = Run.throwing (.argumentOutOfRange paramName message)

theorem OutOfRange.intro {α : Type} (paramName : String) :
    OutOfRange (Run.throwing (.outOfRange paramName) : Run Exception α) :=
  ⟨paramName, _, rfl⟩

theorem OutOfRange.bind {α β : Type} {r : Run Exception α} (h : OutOfRange r)
    (f : α → Run Exception β) : OutOfRange (r >>= f) := by
  obtain ⟨paramName, message, rfl⟩ := h
  exact ⟨paramName, message, by simp⟩

theorem OutOfRange.clean {α : Type} {r : Run Exception α} (h : OutOfRange r) : r.clean = true := by
  obtain ⟨paramName, message, rfl⟩ := h
  rfl

theorem not_outOfRange_pure {α : Type} (a : α) : ¬ OutOfRange (pure a : Run Exception α) := by
  rintro ⟨paramName, message, h⟩
  have houtcome := congrArg Run.outcome h
  simp at houtcome

def dayOf (x : DateTime) : ℕ := x.ticks / ticksPerDay

def midnight (n : ℕ) : DateTime := packed (n * ticksPerDay) 0

/-- The operations of a calendar class. -/
structure CalendarClass where
  getYear : (time : DateTime) → Run Exception ℤ
  getMonth : (time : DateTime) → Run Exception ℤ
  getDayOfMonth : (time : DateTime) → Run Exception ℤ
  getDayOfYear : (time : DateTime) → Run Exception ℤ
  addMonths : (time : DateTime) → (months : ℤ) → Run Exception DateTime
  toDateTime : (year month day hour minute second millisecond : ℤ) → Run Exception DateTime

namespace CalendarClass

variable (K : CalendarClass) {C : MonthCalendar}

/-- The queries answer the date `d`, and the conversion of `d` leads back to the day. -/
structure Converts (x : DateTime) (d : C.Date) : Prop where
  number : d.dayNumber = dayOf x
  year : K.getYear x = pure (d.year : ℤ)
  month : K.getMonth x = pure (d.month : ℤ)
  dayOfMonth : K.getDayOfMonth x = pure (d.day : ℤ)
  dayOfYear : K.getDayOfYear x = pure ((d.dayOfYear : ℤ) + 1)
  back : K.toDateTime d.year d.month d.day 0 0 0 0 = pure (midnight (dayOf x))

/-- No query answers. -/
structure Refuses (x : DateTime) : Prop where
  year : OutOfRange (K.getYear x)
  month : OutOfRange (K.getMonth x)
  dayOfMonth : OutOfRange (K.getDayOfMonth x)
  dayOfYear : OutOfRange (K.getDayOfYear x)
  addMonths (months : ℤ) : OutOfRange (K.addMonths x months)

variable {K}

/-- Following days have following dates. -/
theorem Converts.follows {x y : DateTime} {d e : C.Date} (hx : K.Converts x d)
    (hy : K.Converts y e) (h : dayOf y = dayOf x + 1) : d.Follows e := by
  rw [MonthCalendar.Date.follows_iff, hx.number, hy.number, h]
  exact Int.natCast_succ _

/-- The year and the month that come `months` after the month of a date, twelve months a year. -/
def monthsLater (d : C.Date) (months : ℤ) : ℤ × ℤ :=
  let index := (d.year : ℤ) * 12 + d.month - 1 + months
  (index / 12, index % 12 + 1)

def Representable (C : MonthCalendar) (month : ℤ × ℤ) : Prop :=
  ∃ e : C.Date, ((e.year : ℤ), (e.month : ℤ)) = month ∧ 0 ≤ e.dayNumber ∧ e.dayNumber < 3652059

theorem monthsLater_month (d : C.Date) (months : ℤ) :
    1 ≤ (monthsLater d months).2 ∧ (monthsLater d months).2 ≤ 12 := by
  unfold monthsLater
  dsimp only
  omega

theorem not_representable {month : ℤ × ℤ} (h : month.1 < C.first ∨ C.last < month.1) :
    ¬ Representable C month := by
  rintro ⟨e, rfl, -⟩
  have hfirst := e.first_le
  have hlast := e.le_last
  omega

/-- A day of the last year is the last one that a `DateTime` can be in. -/
structure IsLast (l : C.Date) : Prop where
  year : l.year = C.last
  number : l.dayNumber = 3652058

variable {l : C.Date}

theorem IsLast.day_le (hl : IsLast l) {e : C.Date} (h : e.dayNumber < 3652059)
    (hyear : e.year = l.year) (hmonth : e.month = l.month) : e.day ≤ l.day :=
  MonthCalendar.Date.day_le_of_le ((Int.le_of_lt_add_one h).trans_eq hl.number.symm) hyear hmonth

theorem IsLast.of_outside (hl : IsLast l) {e : C.Date} (h : 3652059 ≤ e.dayNumber) :
    e.year = C.last ∧ l.month ≤ e.month ∧ (e.month = l.month → l.day < e.day) := by
  have hnumber := hl.number
  have hle : l.dayNumber ≤ e.dayNumber := by omega
  have hyear : l.year = e.year :=
    le_antisymm (MonthCalendar.Date.year_le_of_le hle) (e.le_last.trans_eq hl.year.symm)
  refine ⟨hyear.symm.trans hl.year, MonthCalendar.Date.month_le_of_le hle hyear, fun hmonth =>
    lt_of_le_of_ne (MonthCalendar.Date.day_le_of_le hle hyear hmonth.symm) fun hday => ?_⟩
  rw [MonthCalendar.Date.ext hyear hmonth.symm hday] at hnumber
  omega

theorem IsLast.representable_iff (hl : IsLast l) (hstart : 0 ≤ C.start C.last) {m : ℕ}
    (hpos : 1 ≤ m) (hle : m ≤ C.months C.last) : Representable C (C.last, m) ↔ m ≤ l.month := by
  have hfirst : C.first ≤ C.last := hl.year ▸ l.first_le
  constructor
  · rintro ⟨e, hmonth, -, hbound⟩
    rw [Prod.mk.injEq, Nat.cast_inj, Nat.cast_inj] at hmonth
    obtain ⟨hyear, rfl⟩ := hmonth
    refine MonthCalendar.Date.month_le_of_le ?_ (hyear.trans hl.year.symm)
    have hnumber := hl.number
    omega
  · intro hmonth
    let e : C.Date := ⟨C.last, m, 1, hfirst, le_refl _, hpos, hle, le_refl _,
      C.monthLength_pos hfirst (le_refl _) hpos hle⟩
    refine ⟨e, rfl, hstart.trans e.start_le_dayNumber, ?_⟩
    by_contra hlt
    obtain ⟨-, hge, hday⟩ := hl.of_outside (not_lt.mp hlt)
    exact absurd (hday (le_antisymm hmonth hge)) l.day_pos.not_gt

variable (K)

/-- The day of `d` in the month, or the last day of the month if it is shorter, at the time of `x`. -/
structure Reaches (x : DateTime) (d : C.Date) (month : ℤ × ℤ) (result : DateTime) (e : C.Date) :
    Prop where
  converts : K.Converts result e
  month : ((e.year : ℤ), (e.month : ℤ)) = month
  day : e.day = min d.day (C.monthLength e.year e.month)
  time : result.ticks % ticksPerDay = x.ticks % ticksPerDay

/-- The addition of months to the day with the date `d` answers the month of the calendar, and
refuses exactly the months that are outside of it. -/
structure AddsMonths (x : DateTime) (d : C.Date) (months : ℤ) : Prop where
  inside : Representable C (monthsLater d months) → ∃ result e,
    K.addMonths x months = pure result ∧ K.Reaches x d (monthsLater d months) result e
  outside : ¬ Representable C (monthsLater d months) → OutOfRange (K.addMonths x months)

variable {K} {x : DateTime} {d : C.Date} {months : ℤ}

theorem addsMonths_of_reaches {result : DateTime} {e : C.Date}
    (hadd : K.addMonths x months = pure result)
    (h : K.Reaches x d (monthsLater d months) result e)
    (hrep : Representable C (monthsLater d months)) : K.AddsMonths x d months where
  inside := fun _ => ⟨result, e, hadd, h⟩
  outside := fun hnot => absurd hrep hnot

theorem addsMonths_iff_of_throws (h : OutOfRange (K.addMonths x months)) :
    K.AddsMonths x d months ↔ ¬ Representable C (monthsLater d months) := by
  constructor
  · intro hadds hrep
    obtain ⟨result, e, hadd, -⟩ := hadds.inside hrep
    rw [hadd] at h
    exact not_outOfRange_pure result h
  · intro hnot
    exact ⟨fun hrep => absurd hrep hnot, fun _ => h⟩

theorem not_addsMonths_of_returns {result : DateTime} (h : K.addMonths x months = pure result)
    (hnot : ¬ Representable C (monthsLater d months)) : ¬ K.AddsMonths x d months := by
  intro hadds
  have hthrows := hadds.outside hnot
  rw [h] at hthrows
  exact not_outOfRange_pure result hthrows

end CalendarClass

end SharpRuntime.Interface

/-!
# Um Al Qura dates

Every row of the table has the first day of a year and a bit for each of its months.  The table
describes a calendar when the bits of a year add up to the days up to the first day of the next
one.  `rows` checks this for every row.
-/

namespace SharpRuntime.Interface.UmAlQuraDate

open Machine Model Model.UmAlQuraCalendar

def bitLength (flags month : ℕ) : ℕ := daysPerMonth (flags >>> (month - 1))

/-- The number of a day of the Gregorian calendar, by the closed form of the leap years. -/
def numberOf (year month day : ℕ) : ℕ :=
  (year - 1) * 365 + (year - 1) / 4 + (year - 1) / 400 - (year - 1) / 100 +
    (Calendar.daysBeforeMonth.getD month 0 +
      if 2 < month ∧ Gregorian.leap year = true then 1 else 0) + (day - 1)

def number (dm : DateMapping) : ℕ := numberOf dm.gYear dm.gMonth dm.gDay

def RowValid (dm : DateMapping) : Prop :=
  1 ≤ dm.gYear ∧ 1 ≤ dm.gMonth ∧ dm.gMonth ≤ 12 ∧ 1 ≤ dm.gDay ∧
    dm.gDay ≤ Gregorian.monthLength dm.gYear dm.gMonth

/-- The next row is a year later, and no year is longer than 355 days. -/
def Joined (dm dm' : DateMapping) : Prop :=
  number dm + monthTotal (bitLength dm.flags) 12 = number dm' ∧
    monthTotal (bitLength dm.flags) 12 ≤ 355

instance : DecidablePred RowValid := fun _ => inferInstanceAs (Decidable (_ ∧ _))

instance : DecidableRel Joined := fun _ _ => inferInstanceAs (Decidable (_ ∧ _))

theorem rows_valid : ∀ dm ∈ s_yearInfo, RowValid dm := by decide

theorem rows_joined : s_yearInfo.IsChain Joined := by decide

theorem length_yearInfo : s_yearInfo.length = 184 := by decide

def row (year : ℕ) : DateMapping := s_yearInfo.getD ((year : ℤ) - 1318).toNat ⟨0, 0, 0, 0⟩

def monthLength (year month : ℕ) : ℕ := bitLength (row year).flags month

def start (year : ℕ) : ℕ := number (row year)

theorem row_valid {year : ℕ} (hlast : year ≤ 1501) : RowValid (row year) := by
  have hindex : ((year : ℤ) - 1318).toNat < s_yearInfo.length := by
    rw [length_yearInfo]
    omega
  rw [row, List.getD_eq_getElem _ _ hindex]
  exact rows_valid _ (List.getElem_mem hindex)

theorem row_joined {year : ℕ} (hfirst : 1318 ≤ year) (hlast : year ≤ 1500) :
    start (year + 1) = start year + monthTotal (monthLength year) 12 ∧
      monthTotal (monthLength year) 12 ≤ 355 := by
  obtain ⟨i, rfl⟩ : ∃ i, year = 1318 + i := ⟨year - 1318, by omega⟩
  have hindex : i + 1 < s_yearInfo.length := by
    rw [length_yearInfo]
    omega
  have hrow : row (1318 + i) = s_yearInfo[i] := by
    rw [row, show (((1318 + i : ℕ) : ℤ) - 1318).toNat = i by omega, List.getD_eq_getElem]
  have hnext : row (1318 + i + 1) = s_yearInfo[i + 1] := by
    rw [row, show (((1318 + i + 1 : ℕ) : ℤ) - 1318).toNat = i + 1 by omega, List.getD_eq_getElem]
  have hjoined := List.isChain_iff_getElem.mp rows_joined i hindex
  unfold start monthLength
  rw [hrow, hnext]
  exact ⟨hjoined.1.symm, hjoined.2⟩

theorem bitLength_pos (flags month : ℕ) : 1 ≤ bitLength flags month := by
  unfold bitLength daysPerMonth
  omega

def calendar : MonthCalendar where
  first := 1318
  last := 1500
  months _ := 12
  monthLength := monthLength
  start year := start year
  months_pos _ _ := by decide
  monthLength_pos _ _ _ _ := bitLength_pos _ _
  start_succ {y} hfirst hlast := by
    rw [(row_joined hfirst (Nat.le_of_lt hlast)).1]
    exact Nat.cast_add _ _

@[simp] theorem calendar_first : calendar.first = 1318 := rfl

@[simp] theorem calendar_last : calendar.last = 1500 := rfl

@[simp] theorem calendar_months (year : ℕ) : calendar.months year = 12 := rfl

@[simp] theorem calendar_monthLength : calendar.monthLength = monthLength := rfl

@[simp] theorem calendar_start (year : ℕ) : calendar.start year = start year := rfl

def ofParts (y m d : ℕ) (hfirst : 1318 ≤ y) (hlast : y ≤ 1500) (hpos : 1 ≤ m) (hle : m ≤ 12)
    (hday : 1 ≤ d) (hlen : d ≤ monthLength y m) : calendar.Date :=
  ⟨y, m, d, hfirst, hlast, hpos, hle, hday, hlen⟩

theorem dayNumber_ofParts {y m d : ℕ} (hfirst : 1318 ≤ y) (hlast : y ≤ 1500) (hpos : 1 ≤ m)
    (hle : m ≤ 12) (hday : 1 ≤ d) (hlen : d ≤ monthLength y m) :
    (ofParts y m d hfirst hlast hpos hle hday hlen).dayNumber =
      start y + (monthTotal (monthLength y) (m - 1) + (d - 1) : ℕ) := rfl

end SharpRuntime.Interface.UmAlQuraDate

/-!
# Hijri dates

The months of a Hijri year have 30 and 29 days in turn, and eleven years of a cycle of thirty have
another day at their end.  The leap years are spread evenly, so that the days of the first years are
a fraction of `10631 / 30` days a year, rounded down (`yearsTotal_eq`).
-/

namespace SharpRuntime.Interface.HijriDate

open Machine

def leap (year : ℕ) : Bool := decide ((year * 11 + 14) % 30 < 11)

def monthLength (year month : ℕ) : ℕ :=
  if month = 12 then (if leap year then 30 else 29) else (if month % 2 = 1 then 30 else 29)

def yearLength (year : ℕ) : ℕ := if leap year then 355 else 354

def start (year : ℕ) : ℕ := 227013 + monthTotal yearLength (year - 1)

theorem monthTotal_eq {year month : ℕ} (h : month ≤ 12) :
    monthTotal (monthLength year) month =
      [0, 30, 59, 89, 118, 148, 177, 207, 236, 266, 295, 325, yearLength year].getD month 0 := by
  interval_cases month <;> simp [monthTotal, monthLength]
  unfold yearLength
  split <;> rfl

/-- The days of a 30-year cycle in closed form. -/
theorem yearsTotal_eq (k : ℕ) : monthTotal yearLength k = (10631 * k + 14) / 30 := by
  induction k with
  | zero => rfl
  | succ k ih =>
    have hthis : (10631 * k + 14) / 30 = 354 * k + (11 * k + 14) / 30 := by grind
    have hnext : (10631 * (k + 1) + 14) / 30 = 354 * (k + 1) + (11 * (k + 1) + 14) / 30 := by grind
    rw [monthTotal_succ, ih, yearLength, hthis, hnext]
    by_cases h : leap (k + 1) = true
    · grind [leap]
    · grind [leap]

variable (year : ℕ)

theorem monthLength_pos (month : ℕ) : 1 ≤ monthLength year month := by
  unfold monthLength
  split <;> split <;> decide

theorem start_succ {year : ℕ} (h : 1 ≤ year) :
    start (year + 1) = start year + yearLength year := by
  obtain ⟨k, rfl⟩ : ∃ k, year = k + 1 := ⟨year - 1, by omega⟩
  rw [start, start, Nat.add_sub_cancel, Nat.add_sub_cancel, monthTotal_succ, Nat.add_assoc]

def calendar : MonthCalendar where
  first := 1
  last := 9666
  months _ := 12
  monthLength := monthLength
  start year := start year
  months_pos _ _ := by decide
  monthLength_pos _ _ _ _ := monthLength_pos _ _
  start_succ {y} hfirst _ := by
    rw [start_succ hfirst, monthTotal_eq (Nat.le_refl 12)]
    exact Nat.cast_add _ _

@[simp] theorem calendar_first : calendar.first = 1 := rfl

@[simp] theorem calendar_last : calendar.last = 9666 := rfl

@[simp] theorem calendar_months : calendar.months year = 12 := rfl

@[simp] theorem calendar_monthLength : calendar.monthLength = monthLength := rfl

@[simp] theorem calendar_start : calendar.start year = start year := rfl

def ofParts (y m d : ℕ) (hfirst : 1 ≤ y) (hlast : y ≤ 9666) (hpos : 1 ≤ m) (hle : m ≤ 12)
    (hday : 1 ≤ d) (hlen : d ≤ monthLength y m) : calendar.Date :=
  ⟨y, m, d, hfirst, hlast, hpos, hle, hday, hlen⟩

theorem dayNumber_ofParts {y m d : ℕ} (hfirst : 1 ≤ y) (hlast : y ≤ 9666) (hpos : 1 ≤ m)
    (hle : m ≤ 12) (hday : 1 ≤ d) (hlen : d ≤ monthLength y m) :
    (ofParts y m d hfirst hlast hpos hle hday hlen).dayNumber =
      start y + (monthTotal (monthLength y) (m - 1) + (d - 1) : ℕ) := rfl

end SharpRuntime.Interface.HijriDate

/-!
# Julian dates

The Julian calendar has the months of the Gregorian one, and every fourth year is a leap year.  Its
first days come before the first day of the Gregorian calendar, which is January 3 of the year 1.
-/

namespace SharpRuntime.Interface.JulianDate

open Machine

def likeYear (year : ℕ) : ℕ := if year % 4 = 0 then 4 else 1

def monthLength (year month : ℕ) : ℕ := Gregorian.monthLength (likeYear year) month

def yearLength (year : ℕ) : ℕ := Gregorian.yearLength (likeYear year)

def start (year : ℕ) : ℤ := 365 * ((year : ℤ) - 1) + ((year : ℤ) - 1) / 4 - 2

variable (year : ℕ)

theorem monthTotal_eq (month : ℕ) : monthTotal (monthLength year) month =
      Gregorian.daysBeforeMonth (likeYear year) (month + 1) := by
  induction month with
  | zero => rfl
  | succ month ih =>
    rw [monthTotal_succ, ih, Gregorian.daysBeforeMonth_succ _ (Nat.le_add_left 1 month)]
    rfl

theorem monthTotal_year : monthTotal (monthLength year) 12 = yearLength year := by
  rw [monthTotal_eq, Gregorian.daysBeforeMonth_thirteen, yearLength]

theorem yearLength_eq : yearLength year = if year % 4 = 0 then 366 else 365 := by
  unfold yearLength likeYear
  split <;> rfl

theorem start_succ : start (year + 1) = start year + yearLength year := by
  rw [yearLength_eq]
  unfold start
  split
  · omega
  · omega

def calendar : MonthCalendar where
  first := 1
  last := 9999
  months _ := 12
  monthLength := monthLength
  start := start
  months_pos _ _ := by decide
  monthLength_pos _ _ _ _ := Gregorian.monthLength_pos _ _
  start_succ {y} _ _ := by
    rw [start_succ, monthTotal_year]

@[simp] theorem calendar_first : calendar.first = 1 := rfl

@[simp] theorem calendar_last : calendar.last = 9999 := rfl

@[simp] theorem calendar_months : calendar.months year = 12 := rfl

@[simp] theorem calendar_monthLength : calendar.monthLength = monthLength := rfl

@[simp] theorem calendar_start : calendar.start = start := rfl

def ofParts (y m d : ℕ) (hfirst : 1 ≤ y) (hlast : y ≤ 9999) (hpos : 1 ≤ m) (hle : m ≤ 12)
    (hday : 1 ≤ d) (hlen : d ≤ monthLength y m) : calendar.Date :=
  ⟨y, m, d, hfirst, hlast, hpos, hle, hday, hlen⟩

theorem dayNumber_ofParts {y m d : ℕ} (hfirst : 1 ≤ y) (hlast : y ≤ 9999) (hpos : 1 ≤ m)
    (hle : m ≤ 12) (hday : 1 ≤ d) (hlen : d ≤ monthLength y m) :
    (ofParts y m d hfirst hlast hpos hle hday hlen).dayNumber =
      start y + (monthTotal (monthLength y) (m - 1) + (d - 1) : ℕ) := rfl

end SharpRuntime.Interface.JulianDate
