import Mathlib

/-!
# Calendars of months

A calendar gives the number of months of each year, the length of each month and the day number on
which each year starts; its years join on to each other (`start_succ`).  A `Date` is determined by
its day number (`Date.dayNumber_injective`), and following numbers belong to following dates
(`Date.follows_iff`).  The months of all years are counted through (`monthIndex`, `month_unique`).
-/

set_option autoImplicit false

namespace Machine

def monthTotal (length : ℕ → ℕ) : (k : ℕ) → ℕ
  | 0 => 0
  | k + 1 => monthTotal length k + length (k + 1)

theorem monthTotal_succ (length : ℕ → ℕ) (k : ℕ) :
    monthTotal length (k + 1) = monthTotal length k + length (k + 1) := rfl

theorem monthTotal_mono (length : ℕ → ℕ) {j k : ℕ} (h : j ≤ k) :
    monthTotal length j ≤ monthTotal length k :=
  monotone_nat_of_le_succ (fun k => Nat.le_add_right (monthTotal length k) (length (k + 1))) h

/-- A calendar. -/
structure MonthCalendar where
  first : ℕ
  last : ℕ
  months : ℕ → ℕ
  monthLength : (year month : ℕ) → ℕ
  start : ℕ → ℤ
  months_pos : ∀ {y}, first ≤ y → y ≤ last → 1 ≤ months y
  monthLength_pos : ∀ {y m}, first ≤ y → y ≤ last → 1 ≤ m → m ≤ months y → 1 ≤ monthLength y m
  start_succ : ∀ {y}, first ≤ y → y < last →
    start (y + 1) = start y + monthTotal (monthLength y) (months y)

namespace MonthCalendar

variable (C : MonthCalendar)

def yearLength (y : ℕ) : ℕ := monthTotal (C.monthLength y) (C.months y)

variable {y y' : ℕ}

theorem start_add_yearLength_le (hfirst : C.first ≤ y) (hlt : y < y')
    (hlast : y' ≤ C.last) : C.start y + C.yearLength y ≤ C.start y' := by
  induction y', hlt using Nat.le_induction with
  | base => exact le_of_eq (C.start_succ hfirst hlast).symm
  | succ z hz ih =>
    have hnext := C.start_succ (y := z) (by omega) (by omega)
    omega

def monthsBefore (y : ℕ) : ℕ := ∑ z ∈ Finset.Ico C.first y, C.months z

/-- The position of a month in the sequence of the months of all years, counted from one. -/
def monthIndex (y m : ℕ) : ℤ := C.monthsBefore y + m

theorem monthsBefore_first : C.monthsBefore C.first = 0 := by
  rw [monthsBefore, Finset.Ico_self, Finset.sum_empty]

theorem monthsBefore_succ (h : C.first ≤ y) :
    C.monthsBefore (y + 1) = C.monthsBefore y + C.months y :=
  Finset.sum_Ico_succ_top h _

theorem monthsBefore_mono (h : y ≤ y') : C.monthsBefore y ≤ C.monthsBefore y' :=
  Finset.sum_le_sum_of_subset (Finset.Ico_subset_Ico_right h)

/-- A month of one of the years. -/
structure IsMonth (y m : ℕ) : Prop where
  first_le : C.first ≤ y
  le_last : y ≤ C.last
  pos : 1 ≤ m
  le : m ≤ C.months y

variable {C}

/-- Months of all years are numbered without repetition. -/
theorem month_unique {m m' : ℕ} (h : C.IsMonth y m) (h' : C.IsMonth y' m')
    (heq : C.monthIndex y m = C.monthIndex y' m') : y = y' ∧ m = m' := by
  have hone : ∀ {y m y' m' : ℕ}, C.IsMonth y m → C.IsMonth y' m' →
      C.monthIndex y m = C.monthIndex y' m' → y ≤ y' := by
    intro y m y' m' h h' heq
    by_contra hlt
    have hsucc := C.monthsBefore_succ h'.first_le
    have hmono := C.monthsBefore_mono (show y' + 1 ≤ y by omega)
    have hpos := h.pos
    have hle := h'.le
    unfold monthIndex at heq
    omega
  obtain rfl := le_antisymm (hone h h' heq) (hone h' h heq.symm)
  unfold monthIndex at heq
  exact ⟨rfl, by omega⟩

variable (C)

/-- A day of the calendar. -/
@[ext]
structure Date where
  year : ℕ
  month : ℕ
  day : ℕ
  first_le : C.first ≤ year
  le_last : year ≤ C.last
  month_pos : 1 ≤ month
  month_le : month ≤ C.months year
  day_pos : 1 ≤ day
  day_le : day ≤ C.monthLength year month

namespace Date

variable {C}

def dayOfYear (d : Date C) : ℕ := monthTotal (C.monthLength d.year) (d.month - 1) + (d.day - 1)

def dayNumber (d : Date C) : ℤ := C.start d.year + d.dayOfYear

theorem dayOfYear_lt_next (d : Date C) :
    d.dayOfYear < monthTotal (C.monthLength d.year) d.month := by
  have hpos := d.month_pos
  have hday := d.day_le
  have hsucc := monthTotal_succ (C.monthLength d.year) (d.month - 1)
  have hday' := d.day_pos
  rw [Nat.sub_add_cancel hpos] at hsucc
  unfold dayOfYear
  omega

theorem dayOfYear_lt (d : Date C) : d.dayOfYear < C.yearLength d.year :=
  Nat.lt_of_lt_of_le d.dayOfYear_lt_next (monthTotal_mono _ d.month_le)

theorem start_le_dayNumber (d : Date C) : C.start d.year ≤ d.dayNumber := by
  unfold dayNumber
  omega

theorem dayNumber_lt (d : Date C) : d.dayNumber < C.start d.year + C.yearLength d.year := by
  have hlt := d.dayOfYear_lt
  unfold dayNumber
  omega

theorem first_le_dayNumber (d : Date C) : C.start C.first ≤ d.dayNumber := by
  have hstart := d.start_le_dayNumber
  rcases Nat.lt_or_eq_of_le d.first_le with hlt | heq
  · have hle := C.start_add_yearLength_le (Nat.le_refl _) hlt d.le_last
    omega
  · rw [heq]
    exact hstart

variable {y : ℕ}

theorem dayNumber_lt_of_year (d : Date C) (h : d.year < y) (hlast : y ≤ C.last) :
    d.dayNumber < C.start y :=
  lt_of_lt_of_le d.dayNumber_lt (C.start_add_yearLength_le d.first_le h hlast)

theorem year_le (d : Date C) (hfirst : C.first ≤ y)
    (h : d.dayNumber < C.start y + C.yearLength y) : d.year ≤ y := by
  by_contra hlt
  have hle := C.start_add_yearLength_le hfirst (show y < d.year by omega) d.le_last
  have hd := d.start_le_dayNumber
  omega

theorem lt_year (d : Date C) (hlast : y ≤ C.last)
    (h : C.start y + C.yearLength y ≤ d.dayNumber) : y < d.year := by
  by_contra hge
  have hd := d.dayNumber_lt
  rcases Nat.lt_or_eq_of_le (Nat.le_of_not_lt hge) with hlt | heq
  · have hle := C.start_add_yearLength_le d.first_le hlt hlast
    omega
  · rw [heq] at hd
    omega

variable {d e : Date C}

theorem year_le_of_le (h : d.dayNumber ≤ e.dayNumber) : d.year ≤ e.year :=
  d.year_le e.first_le (h.trans_lt e.dayNumber_lt)

theorem month_le_of_le (h : d.dayNumber ≤ e.dayNumber) (hyear : d.year = e.year) :
    d.month ≤ e.month := by
  by_contra hlt
  have hmono := monthTotal_mono (C.monthLength e.year) (show e.month ≤ d.month - 1 by omega)
  have he := e.dayOfYear_lt_next
  unfold dayNumber dayOfYear at h
  unfold dayOfYear at he
  rw [hyear] at h
  omega

theorem day_le_of_le (h : d.dayNumber ≤ e.dayNumber) (hyear : d.year = e.year)
    (hmonth : d.month = e.month) : d.day ≤ e.day := by
  have hdpos := d.day_pos
  have hepos := e.day_pos
  unfold dayNumber dayOfYear at h
  rw [hyear, hmonth] at h
  omega

theorem dayNumber_injective (h : d.dayNumber = e.dayNumber) : d = e := by
  have hyear := le_antisymm (year_le_of_le h.le) (year_le_of_le h.ge)
  have hmonth := le_antisymm (month_le_of_le h.le hyear) (month_le_of_le h.ge hyear.symm)
  exact Date.ext hyear hmonth
    (le_antisymm (day_le_of_le h.le hyear hmonth) (day_le_of_le h.ge hyear.symm hmonth.symm))

/-- The date `e` is the day after `d`. -/
inductive Follows (d e : Date C) : Prop where
  | day (hyear : e.year = d.year) (hmonth : e.month = d.month) (hday : e.day = d.day + 1)
  | month (hyear : e.year = d.year) (hmonth : e.month = d.month + 1) (hday : e.day = 1)
      (hend : d.day = C.monthLength d.year d.month)
  | year (hyear : e.year = d.year + 1) (hmonth : e.month = 1) (hday : e.day = 1)
      (hlast : d.month = C.months d.year) (hend : d.day = C.monthLength d.year d.month)

theorem Follows.dayNumber_eq (h : d.Follows e) : e.dayNumber = d.dayNumber + 1 := by
  have hdpos := d.month_pos
  have hddpos := d.day_pos
  have hsucc := monthTotal_succ (C.monthLength d.year) (d.month - 1)
  rw [Nat.sub_add_cancel hdpos] at hsucc
  cases h with
  | day hyear hmonth hday =>
    unfold dayNumber dayOfYear
    rw [hyear, hmonth, hday]
    omega
  | month hyear hmonth hday hend =>
    unfold dayNumber dayOfYear
    rw [hyear, hmonth, hday, Nat.add_sub_cancel, hsucc]
    omega
  | year hyear hmonth hday hlast hend =>
    have hle := e.le_last
    have hstart := C.start_succ d.first_le (by omega)
    unfold dayNumber dayOfYear
    rw [hyear, hmonth, hday, hstart, ← hlast, hsucc]
    have hzero : monthTotal (C.monthLength (d.year + 1)) (1 - 1) = 0 := rfl
    omega

theorem exists_follows (d : Date C) (h : d.dayNumber + 1 < C.start C.last + C.yearLength C.last) :
    ∃ e, d.Follows e := by
  by_cases hday : d.day < C.monthLength d.year d.month
  · exact ⟨⟨d.year, d.month, d.day + 1, d.first_le, d.le_last, d.month_pos, d.month_le,
      Nat.le_add_left _ _, hday⟩, Follows.day rfl rfl rfl⟩
  · have hend : d.day = C.monthLength d.year d.month := Nat.le_antisymm d.day_le (by omega)
    by_cases hmonth : d.month < C.months d.year
    · exact ⟨⟨d.year, d.month + 1, 1, d.first_le, d.le_last, Nat.le_add_left _ _, hmonth,
        Nat.le_refl 1, C.monthLength_pos d.first_le d.le_last (Nat.le_add_left _ _) hmonth⟩,
        Follows.month rfl rfl rfl hend⟩
    · have hlast : d.month = C.months d.year := Nat.le_antisymm d.month_le (by omega)
      have hyear : d.year < C.last := by
        by_contra hge
        have heq : d.year = C.last := Nat.le_antisymm d.le_last (by omega)
        have hsucc := monthTotal_succ (C.monthLength d.year) (d.month - 1)
        have hmpos := d.month_pos
        rw [Nat.sub_add_cancel hmpos] at hsucc
        have htotal : monthTotal (C.monthLength d.year) d.month = C.yearLength C.last := by
          rw [hlast, heq]
          rfl
        unfold dayNumber dayOfYear at h
        rw [← heq] at h htotal
        omega
      have hmonths := C.months_pos (y := d.year + 1) (by have := d.first_le; omega) hyear
      have hfirst := Nat.le_succ_of_le d.first_le
      exact ⟨⟨d.year + 1, 1, 1, hfirst, hyear, Nat.le_refl 1, hmonths,
        Nat.le_refl 1, C.monthLength_pos hfirst hyear (Nat.le_refl 1) hmonths⟩,
        Follows.year rfl rfl rfl hlast hend⟩

def ofYear (y : ℕ) (hfirst : C.first ≤ y) (hlast : y ≤ C.last) : Date C where
  year := y
  month := 1
  day := 1
  first_le := hfirst
  le_last := hlast
  month_pos := Nat.one_pos
  month_le := C.months_pos hfirst hlast
  day_pos := Nat.one_pos
  day_le := C.monthLength_pos hfirst hlast (Nat.le_refl 1) (C.months_pos hfirst hlast)

theorem dayNumber_ofYear (hfirst : C.first ≤ y) (hlast : y ≤ C.last) :
    (ofYear y hfirst hlast : Date C).dayNumber = C.start y :=
  Int.add_zero _

theorem exists_dayNumber {n : ℤ} (hyears : C.first ≤ C.last) (hlo : C.start C.first ≤ n)
    (hhi : n < C.start C.last + C.yearLength C.last) : ∃ d : Date C, d.dayNumber = n := by
  obtain ⟨k, rfl⟩ : ∃ k : ℕ, n = C.start C.first + k := ⟨(n - C.start C.first).toNat, by omega⟩
  clear hlo
  induction k with
  | zero => exact ⟨ofYear C.first (Nat.le_refl _) hyears, by rw [dayNumber_ofYear]; simp⟩
  | succ k ih =>
    obtain ⟨d, hd⟩ := ih (by omega)
    obtain ⟨e, he⟩ := d.exists_follows (by omega)
    exact ⟨e, by rw [he.dayNumber_eq, hd]; omega⟩

/-- **Day numbers that follow each other belong to dates that follow each other.** -/
theorem follows_iff : d.Follows e ↔ e.dayNumber = d.dayNumber + 1 := by
  constructor
  · exact Follows.dayNumber_eq
  · intro h
    have hlt := e.dayNumber_lt
    have hbound : e.dayNumber < C.start C.last + C.yearLength C.last := by
      rcases Nat.lt_or_eq_of_le e.le_last with hless | heq
      · have hle := C.start_add_yearLength_le e.first_le hless (Nat.le_refl _)
        omega
      · rw [heq] at hlt
        exact hlt
    obtain ⟨e', he'⟩ := d.exists_follows (by omega)
    have heq : e = e' := dayNumber_injective (h.trans he'.dayNumber_eq.symm)
    rw [heq]
    exact he'

end Date

end MonthCalendar

end Machine
