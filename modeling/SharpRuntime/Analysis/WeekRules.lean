import SharpRuntime.Model.GregorianCalendar
import SharpRuntime.Analysis.ISOWeeks

/-!
# The rules for the first week

The reference counts weeks by the days that begin one: with `FirstDay` those after January 1, and
with the other rules from the first week that has enough days of the year (`FirstWeek`).  The code
finds the same week by residues (`fullDays_eq`), and the days before it by a call for the last day
of the year before, which the first year has not; the test for it compares the time of day as
well.
-/

set_option autoImplicit false
set_option maxRecDepth 20000

namespace SharpRuntime.Analysis.WeekRules

open Machine Machine.Gregorian Model Model.DateTime
open Model.GregorianCalendar Interface
open DateTimeCalendar DateTimeArithmetic
open ISOWeeks

/-- The number of January 1; the year before the first one has the length the class documents. -/
def january (y : ℕ) : ℤ := if y = 0 then -daysInYearBeforeMinSupportedYear else daysBeforeYear y

def BeginsWeek (firstDayOfWeek day : ℤ) : Prop := (day + 1) % 7 = firstDayOfWeek

instance (firstDayOfWeek : ℤ) : DecidablePred (BeginsWeek firstDayOfWeek) := fun day =>
  inferInstanceAs (Decidable ((day + 1) % 7 = firstDayOfWeek))

/-- The week of the day `s` is the first one with `fullDays` days in the year. -/
def FirstWeek (firstDayOfWeek fullDays : ℤ) (y : ℕ) (s : ℤ) : Prop :=
  IsLeast {day | BeginsWeek firstDayOfWeek day ∧ january y + fullDays ≤ day + 7} s

/-- The day `n` of the year `y` is in the week `w`: a week from the first one on, or the last week
of the year before. -/
def InWeek (firstDayOfWeek fullDays : ℤ) (y : ℕ) (n w : ℤ) : Prop :=
  ∃ s, FirstWeek firstDayOfWeek fullDays y s ∧ ((s ≤ n ∧ w = (n - s) / 7 + 1) ∨
    (n < s ∧ ∃ s', FirstWeek firstDayOfWeek fullDays (y - 1) s' ∧
      w = (january y - 1 - s') / 7 + 1))

def firstWeek (firstDayOfWeek fullDays jan : ℤ) : ℤ :=
  jan + fullDays - 7 + (firstDayOfWeek - 1 - (jan + fullDays - 7)) % 7

variable {firstDayOfWeek : ℤ}

theorem firstWeek_isLeast (h : 0 ≤ firstDayOfWeek ∧ firstDayOfWeek ≤ 6) (fullDays : ℤ) (y : ℕ) :
    FirstWeek firstDayOfWeek fullDays y (firstWeek firstDayOfWeek fullDays (january y)) := by
  constructor
  · refine ⟨?_, ?_⟩
    all_goals
      unfold firstWeek
    · unfold BeginsWeek
      omega
    · omega
  · rintro day ⟨hbegins, hle⟩
    unfold BeginsWeek at hbegins
    unfold firstWeek
    omega

theorem card_beginsWeek {a b : ℤ} (h : 0 ≤ firstDayOfWeek ∧ firstDayOfWeek ≤ 6)
    (hab : a ≤ b) : (((Finset.Ioc a b).filter (BeginsWeek firstDayOfWeek)).card : ℤ) =
      (b - firstDayOfWeek + 1) / 7 - (a - firstDayOfWeek + 1) / 7 := by
  have hfilter : (Finset.Ioc a b).filter (BeginsWeek firstDayOfWeek) =
      (Finset.Ioc a b).filter (· ≡ firstDayOfWeek - 1 [ZMOD 7]) := by
    refine Finset.filter_congr fun day _ => ?_
    unfold BeginsWeek Int.ModEq
    omega
  have hfloor (c : ℤ) : ⌊((c - (firstDayOfWeek - 1) : ℤ) : ℚ) / (7 : ℤ)⌋ =
      (c - firstDayOfWeek + 1) / 7 := by
    have hdiv := Rat.floor_intCast_div_natCast (c - (firstDayOfWeek - 1)) 7
    rw [show c - firstDayOfWeek + 1 = c - (firstDayOfWeek - 1) by ring]
    exact_mod_cast hdiv
  have hcard := Int.Ioc_filter_modEq_card a b (r := 7) (by decide) (firstDayOfWeek - 1)
  rw [hfilter, hcard]
  push_cast at hfloor ⊢
  rw [hfloor, hfloor]
  omega

theorem dayOfYear_eq (x : DateTime) :
    x.getDayOfYearProperty - 1 = dayOf x - daysBeforeYear x.date.year := by
  have hnumber := dayNumber_date x
  rw [Date.dayNumber] at hnumber
  simp only [getDayOfYearProperty, toTm_eq, dayOf]
  omega

theorem january_eq {y : ℕ} (h : 1 ≤ y) : january y = daysBeforeYear y := if_neg (by omega)

variable {x : DateTime}

theorem getFirstDayWeekOfYear_eq (hx : x.ticks ≤ maxTicks)
    (h : 0 ≤ firstDayOfWeek ∧ firstDayOfWeek ≤ 6) :
    getFirstDayWeekOfYear x firstDayOfWeek = 1 +
      ((Finset.Ioc (january x.date.year) (dayOf x)).filter (BeginsWeek firstDayOfWeek)).card := by
  obtain ⟨-, -, hlo, -⟩ := dayOf_bounds hx
  have hi : (0 : ℤ) ≤ dayOf x - daysBeforeYear x.date.year := by omega
  rw [getFirstDayWeekOfYear, dayOfYear_eq, dayOfWeek_eq, january_eq x.date.year_pos,
    card_beginsWeek h (by omega), Int.tmod_eq_emod_of_nonneg hi, Int.tmod_eq_emod_of_nonneg (by omega),
    Int.tdiv_eq_ediv_of_nonneg (by omega)]
  omega

variable {fullDays : ℤ}

/-- The offset that the source computes leads to the first week of the reference count. -/
theorem fullDays_eq {n i : ℤ} (hi : 0 ≤ i)
    (h : 0 ≤ firstDayOfWeek ∧ firstDayOfWeek ≤ 6) (hfull : fullDays = 7 ∨ fullDays = 4) :
    (if (firstDayOfWeek - ((n + 1) % 7 - i.tmod 7) + 14).tmod 7 ≠ 0 ∧
        (firstDayOfWeek - ((n + 1) % 7 - i.tmod 7) + 14).tmod 7 ≥ fullDays then
      (firstDayOfWeek - ((n + 1) % 7 - i.tmod 7) + 14).tmod 7 - 7
    else (firstDayOfWeek - ((n + 1) % 7 - i.tmod 7) + 14).tmod 7) =
      firstWeek firstDayOfWeek fullDays (n - i) - (n - i) := by
  rw [Int.tmod_eq_emod_of_nonneg hi, Int.tmod_eq_emod_of_nonneg (by omega)]
  unfold firstWeek
  rcases hfull with rfl | rfl <;> split <;> omega

variable {days : ℤ}

theorem addDays_eq (hlo : -400 ≤ days) (hhi : days ≤ 400) :
    (0 ≤ x.ticks + days * ticksPerDay → x.ticks + days * ticksPerDay ≤ maxTicks →
      GregorianCalendar.addDays x days = pure (packed (x.ticks + days * ticksPerDay).toNat 0)) ∧
    (x.ticks + days * ticksPerDay < 0 →
      GregorianCalendar.addDays x days = Run.throwing DateTime.valueOutOfRange) := by
  rw [GregorianCalendar.addDays, addDays_near x hlo hhi, sumOrThrow]
  constructor
  · intro h0 hmax
    have hle : (x.ticks + days * ticksPerDay).toNat ≤ maxTicks := by omega
    rw [if_pos ⟨h0, hmax⟩, pure_bind, specifyKind_eq _ (by decide),
      ticks_packed (lt_of_le_of_lt hle maxTicks_lt) x.kindBits_lt]
    · rfl
    · rw [ticks_packed (lt_of_le_of_lt hle maxTicks_lt) x.kindBits_lt]
      exact hle
  · intro h
    rw [if_neg (by omega)]
    rfl

theorem getWeekOfYearFullDays_succ (hx : x.ticks ≤ maxTicks)
    (h : 0 ≤ firstDayOfWeek ∧ firstDayOfWeek ≤ 6) (hfull : fullDays = 7 ∨ fullDays = 4)
    (fuel : ℕ) : getWeekOfYearFullDays (fuel + 1) x firstDayOfWeek fullDays =
      if firstWeek firstDayOfWeek fullDays (january x.date.year) ≤ dayOf x then
        pure ((dayOf x - firstWeek firstDayOfWeek fullDays (january x.date.year)) / 7 + 1)
      else (do
        let minSupported ← minSupportedDateTime
        let sameDay ← GregorianCalendar.addDays minSupported
          (dayOf x - january x.date.year)
        if x.ticks ≤ sameDay.ticks then
          getWeekOfYearOfMinSupportedDateTime firstDayOfWeek fullDays
        else do
          let previous ← GregorianCalendar.addDays x (-(dayOf x - january x.date.year + 1))
          getWeekOfYearFullDays fuel previous firstDayOfWeek fullDays) := by
  obtain ⟨-, -, hlo, -⟩ := dayOf_bounds hx
  have hjan := january_eq x.date.year_pos
  have hweek := fullDays_eq (n := dayOf x) (i := dayOf x - january x.date.year) (by omega) h hfull
  rw [getWeekOfYearFullDays, dayOfYear_eq, dayOfWeek_eq, ← hjan]
  push_cast
  rw [hweek]
  by_cases hin : firstWeek firstDayOfWeek fullDays (january x.date.year) ≤ dayOf x
  · grind
  · rw [if_neg hin, if_neg (by rw [sub_sub_cancel]; omega)]

theorem minSupportedDateTime_eq : minSupportedDateTime = pure (midnight 0) := by decide

theorem getWeekOfYearOfMinSupportedDateTime_eq
    (h : 0 ≤ firstDayOfWeek ∧ firstDayOfWeek ≤ 6) (hfull : fullDays = 7 ∨ fullDays = 4)
    (hpos : 0 < firstWeek firstDayOfWeek fullDays 0) :
    getWeekOfYearOfMinSupportedDateTime firstDayOfWeek fullDays =
      pure ((january 1 - 1 - firstWeek firstDayOfWeek fullDays (january 0)) / 7 + 1) := by
  obtain ⟨hlo, hhi⟩ := h
  revert hpos
  rcases hfull with rfl | rfl
  all_goals interval_cases firstDayOfWeek <;> decide

theorem previousDay (hx : x.ticks ≤ maxTicks) (hyear : 2 ≤ x.date.year)
    (hdays : days = dayOf x - january x.date.year + 1) (hnear : days ≤ 7) :
    ∃ y, GregorianCalendar.addDays x (-days) = pure y ∧ y.ticks ≤ maxTicks ∧
      y.date.year = x.date.year - 1 ∧ (dayOf y : ℤ) = january x.date.year - 1 := by
  obtain ⟨-, -, hlo, -⟩ := dayOf_bounds hx
  have hjan := january_eq x.date.year_pos
  have hprev := year_succ (y := x.date.year - 1) (by omega)
  rw [Nat.sub_add_cancel x.date.year_pos] at hprev
  have hunit : (ticksPerDay : ℤ) = 864000000000 := rfl
  have hday : dayOf x = x.ticks / 864000000000 := rfl
  have hsum := (@addDays_eq x (-days) (by omega) (by omega)).1
  rw [hunit] at hsum
  have hticks : (x.ticks + -days * 864000000000).toNat ≤ maxTicks := by omega
  have hpacked := ticks_packed (lt_of_le_of_lt hticks maxTicks_lt) (by decide : 0 < 4)
  refine ⟨_, hsum (by omega) (by omega), by rw [hpacked]; exact hticks, ?_, ?_⟩
  · rw [DateTime.date, year_eq_iff, hpacked, Nat.sub_add_cancel x.date.year_pos,
      show ticksPerDay = 864000000000 from rfl]
    omega
  · rw [dayOf, hpacked, show ticksPerDay = 864000000000 from rfl]
    omega

theorem ticks_le_day_iff (x : DateTime) :
    x.ticks ≤ dayOf x * ticksPerDay ↔ x.ticks % ticksPerDay = 0 := by
  have hdiv := Nat.div_add_mod x.ticks ticksPerDay
  rw [dayOf, Nat.mul_comm]
  omega

/-- The week from the first one of the year, or the last week of the year before. -/
theorem getWeekOfYearFullDays_eq (hx : x.ticks ≤ maxTicks)
    (h : 0 ≤ firstDayOfWeek ∧ firstDayOfWeek ≤ 6) (hfull : fullDays = 7 ∨ fullDays = 4)
    (fuel : ℕ) : getWeekOfYearFullDays (fuel + 2) x firstDayOfWeek fullDays =
      if firstWeek firstDayOfWeek fullDays (january x.date.year) ≤ dayOf x then
        pure ((dayOf x - firstWeek firstDayOfWeek fullDays (january x.date.year)) / 7 + 1)
      else if x.date.year = 1 ∧ x.ticks % ticksPerDay ≠ 0 then Run.throwing DateTime.valueOutOfRange
      else pure ((january x.date.year - 1 -
        firstWeek firstDayOfWeek fullDays (january (x.date.year - 1))) / 7 + 1) := by
  rw [getWeekOfYearFullDays_succ hx h hfull]
  by_cases hin : firstWeek firstDayOfWeek fullDays (january x.date.year) ≤ dayOf x
  · rw [if_pos hin, if_pos hin]
  · obtain ⟨-, -, hlo, -⟩ := dayOf_bounds hx
    have hjan := january_eq x.date.year_pos
    have hnear : (dayOf x : ℤ) - january x.date.year ≤ 6 := by
      unfold firstWeek at hin
      omega
    have hunit : (ticksPerDay : ℤ) = 864000000000 := rfl
    have hday : dayOf x = x.ticks / 864000000000 := rfl
    have hzero : (midnight 0).ticks = 0 := ticks_midnight (by decide)
    have hsame := (@addDays_eq (midnight 0) (dayOf x - january x.date.year) (by omega)
      (by omega)).1 (by rw [hunit, hzero]; omega) (by rw [hunit, hzero]; omega)
    rw [if_neg hin, if_neg hin, minSupportedDateTime_eq, pure_bind, hsame, pure_bind,
      ticks_packed (by rw [hunit, hzero]; omega) (by decide), hzero]
    by_cases hyear : x.date.year = 1
    · rw [hyear] at hin hnear ⊢
      rw [show january 1 = 0 from rfl] at hin hnear ⊢
      rw [sub_zero, Nat.cast_zero, zero_add, ← Nat.cast_mul, Int.toNat_natCast]
      by_cases htime : x.ticks % ticksPerDay = 0
      · rw [if_pos ((ticks_le_day_iff x).mpr htime), if_neg (fun hlate => hlate.2 htime)]
        exact getWeekOfYearOfMinSupportedDateTime_eq h hfull (by omega)
      · have hthrows := (@addDays_eq x (-(dayOf x + 1)) (by omega) (by omega)).2
          (by rw [hunit]; omega)
        rw [if_neg (fun hle => htime ((ticks_le_day_iff x).mp hle)), if_pos ⟨rfl, htime⟩, hthrows]
        rfl
    · have hpos := x.date.year_pos
      have hprev := year_succ (y := x.date.year - 1) (by omega)
      rw [Nat.sub_add_cancel hpos] at hprev
      obtain ⟨y, hy, hticks, hyear', hlast⟩ := previousDay hx (by omega) rfl (by omega)
      have hjan' := january_eq (y := x.date.year - 1) (by omega)
      rw [if_neg (by rw [hunit]; omega), if_neg (fun hone => hyear hone.1), hy, pure_bind,
        getWeekOfYearFullDays_succ hticks h hfull, hyear', hlast, if_pos]
      unfold firstWeek
      omega

/-- The day is before the first week of the first year, at a time after midnight. -/
def BeforeFirstWeek (x : DateTime) (firstDayOfWeek fullDays : ℤ) : Prop :=
  x.date.year = 1 ∧ x.ticks % ticksPerDay ≠ 0 ∧
    ∃ s, FirstWeek firstDayOfWeek fullDays 1 s ∧ dayOf x < s

def NeedsDays (rule fullDays : ℤ) : Prop :=
  (rule = firstFullWeek ∧ fullDays = 7) ∨ (rule = firstFourDayWeek ∧ fullDays = 4)

variable {rule : ℤ}

theorem getWeekOfYear_eq
    (h : 0 ≤ firstDayOfWeek ∧ firstDayOfWeek ≤ 6) (hrule : NeedsDays rule fullDays) (fuel : ℕ)
    (x : DateTime) : getWeekOfYear fuel x rule firstDayOfWeek =
      getWeekOfYearFullDays fuel x firstDayOfWeek fullDays := by
  rw [getWeekOfYear, if_neg (by omega)]
  rcases hrule with ⟨rfl, rfl⟩ | ⟨rfl, rfl⟩ <;> rfl

variable {fuel : ℕ}

theorem inWeek_iff (hx : x.ticks ≤ maxTicks)
    (h : 0 ≤ firstDayOfWeek ∧ firstDayOfWeek ≤ 6) (hrule : NeedsDays rule fullDays)
    (hfuel : 2 ≤ fuel) :
    (∃ w, getWeekOfYear fuel x rule firstDayOfWeek = pure w ∧
      InWeek firstDayOfWeek fullDays x.date.year (dayOf x) w) ↔
      ¬ BeforeFirstWeek x firstDayOfWeek fullDays := by
  obtain ⟨fuel, rfl⟩ := Nat.exists_eq_add_of_le' hfuel
  have hfull : fullDays = 7 ∨ fullDays = 4 := hrule.imp And.right And.right
  have hs := firstWeek_isLeast h fullDays x.date.year
  rw [getWeekOfYear_eq h hrule, getWeekOfYearFullDays_eq hx h hfull]
  split
  case isTrue hin =>
    refine iff_of_true ⟨_, rfl, _, hs, Or.inl ⟨hin, rfl⟩⟩ ?_
    rintro ⟨hyear, -, s, hleast, hlt⟩
    rw [hyear] at hs hin
    rw [hleast.unique hs] at hlt
    omega
  case isFalse hout =>
    split
    case isTrue hlate =>
      obtain ⟨hyear, htime⟩ := hlate
      refine iff_of_false ?_ (not_not_intro ⟨hyear, htime, _, hyear ▸ hs, not_le.mp hout⟩)
      rintro ⟨w, hw, -⟩
      cases congrArg Run.outcome hw
    case isFalse hearly =>
      refine iff_of_true ⟨_, rfl, _, hs, Or.inr ⟨not_le.mp hout, _,
        firstWeek_isLeast h fullDays _, rfl⟩⟩ ?_
      rintro ⟨hyear, htime, -⟩
      exact hearly ⟨hyear, htime⟩

/-- With weeks that begin on Monday and four days in the first week, the weeks are those of
`ISOWeek`, up to the days that are already in its next year. -/
theorem iso_iff (hx : x.ticks ≤ maxTicks) (hfuel : 2 ≤ fuel) : ∃ y, ISOWeek.getYear x = pure y ∧
      (getWeekOfYear fuel x firstFourDayWeek ISOWeek.monday = ISOWeek.getWeekOfYear x ↔
        y ≠ x.date.year + 1) := by
  obtain ⟨fuel, rfl⟩ := Nat.exists_eq_add_of_le' hfuel
  obtain ⟨y, hy, hle, hlo, hhi, hyear, hweek⟩ := year_and_week hx
  obtain ⟨-, -, hdate, hdate'⟩ := dayOf_bounds hx
  have hmonday (z : ℕ) (hz : 1 ≤ z) : firstWeek ISOWeek.monday 4 (january z) = firstMonday z := by
    rw [january_eq hz, firstWeek, ISOWeek.monday, firstMonday]
    omega
  refine ⟨y, hyear, ?_⟩
  rw [hweek, getWeekOfYear_eq (by decide) (Or.inr ⟨rfl, rfl⟩),
    getWeekOfYearFullDays_eq hx (by decide) (Or.inr rfl), hmonday _ x.date.year_pos]
  have hnext := year_succ x.date.year_pos
  rcases lt_trichotomy y x.date.year with hlt | heq | hgt
  · -- the last days of the ISO year before
    obtain rfl : y = x.date.year - 1 := by
      by_contra hne
      have hmono := firstMonday_mono (show y + 1 ≤ x.date.year - 1 by omega)
      have hprev := year_succ (y := x.date.year - 1) (by omega)
      rw [Nat.sub_add_cancel x.date.year_pos] at hprev
      unfold firstMonday at hmono hhi
      omega
    rw [Nat.sub_add_cancel x.date.year_pos] at hhi
    rw [if_neg (by omega), if_neg (fun hone => by omega), hmonday _ hy, Run.pure_inj,
      january_eq x.date.year_pos]
    unfold firstMonday at hlo hhi ⊢
    omega
  · rw [← heq, if_pos (by omega), Run.pure_inj]
    omega
  · -- the first days of the next ISO year
    have hmono := firstMonday_mono (show x.date.year + 1 ≤ y from hgt)
    rw [if_pos (by unfold firstMonday at hmono hlo ⊢; omega), Run.pure_inj]
    have hsame : y = x.date.year + 1 := by
      by_contra hne
      have hmono' := firstMonday_mono (show x.date.year + 1 + 1 ≤ y by omega)
      have hafter := year_succ (y := x.date.year + 1) (by omega)
      unfold firstMonday at hmono' hlo
      omega
    subst hsame
    unfold firstMonday at hlo ⊢
    omega

/-- **A date has the week of the reference count, but for the days before the first week of the
year 1**, which are refused after midnight.  The answers come after two rounds, and `FirstDay` has
no such case; with Monday and four days they are those of `ISOWeek`, up to the days of its next
year. -/
theorem week_of_year (x : DateTime) (hx : x.Valid) (fuel : ℕ) (hfuel : 2 ≤ fuel)
    (firstDayOfWeek : ℤ) (h : 0 ≤ firstDayOfWeek ∧ firstDayOfWeek ≤ 6) :
    getWeekOfYear fuel x firstDay firstDayOfWeek = pure (1 +
      (((Finset.Ioc (january x.date.year) (dayOf x)).filter (BeginsWeek firstDayOfWeek)).card : ℤ)) ∧
    (∀ rule fullDays, NeedsDays rule fullDays →
      ((∃ w, getWeekOfYear fuel x rule firstDayOfWeek = pure w ∧
        InWeek firstDayOfWeek fullDays x.date.year (dayOf x) w) ↔
        ¬ BeforeFirstWeek x firstDayOfWeek fullDays)) ∧
    ∃ y, ISOWeek.getYear x = pure y ∧
      (getWeekOfYear fuel x firstFourDayWeek ISOWeek.monday = ISOWeek.getWeekOfYear x ↔
        y ≠ x.date.year + 1) := by
  refine ⟨?_, fun rule fullDays hrule => inWeek_iff hx.ticks_le h hrule hfuel,
    iso_iff hx.ticks_le hfuel⟩
  rw [getWeekOfYear, if_neg (by omega), if_pos rfl, getFirstDayWeekOfYear_eq hx.ticks_le h]

/-- The theorem on the first of January 2023, a Sunday: with full weeks from Monday on it is in the
last week of 2022. -/
theorem week_of_year_new_year :
    getWeekOfYear 2 (midnight 738520) firstFullWeek 1 = pure 52 ∧ InWeek 1 7 2023 738520 52 := by
  have hyear : (midnight 738520).date.year = 2023 := by
    have hget : (midnight 738520).getYearProperty = 2023 := by decide
    rw [(components_eq _).1] at hget
    exact Nat.cast_inj.mp hget
  have hday : dayOf (midnight 738520) = 738520 := by decide +kernel
  have hweek : getWeekOfYear 2 (midnight 738520) firstFullWeek 1 = pure 52 := by decide +kernel
  have hbefore : ¬ BeforeFirstWeek (midnight 738520) 1 7 := by
    rintro ⟨hfirst, -⟩
    omega
  have hrule := (week_of_year (midnight 738520) (valid_packed (by decide) (by decide)) 2 (le_refl 2)
    1 (by decide)).2.1 firstFullWeek 7 (Or.inl ⟨rfl, rfl⟩)
  obtain ⟨w, hw, hin⟩ := hrule.mpr hbefore
  obtain rfl := Run.pure_inj.mp (hw.symm.trans hweek)
  rw [hyear, hday] at hin
  exact ⟨hweek, hin⟩

/-- At noon of the first day, a Monday, with full weeks from Sunday on: the call for the day before
is refused, and there is no week. -/
theorem noon_refused : (⟨432000000000⟩ : DateTime).Valid ∧
    ¬ ∃ w, getWeekOfYear 2 ⟨432000000000⟩ firstFullWeek 0 = pure w ∧
      InWeek 0 7 (DateTime.mk 432000000000).date.year (dayOf ⟨432000000000⟩) w := by
  refine ⟨⟨by decide, by decide⟩, ?_⟩
  rintro ⟨w, hw, -⟩
  have hthrows : getWeekOfYear 2 ⟨432000000000⟩ firstFullWeek 0 =
      Run.throwing DateTime.valueOutOfRange := by decide +kernel
  rw [hthrows] at hw
  cases congrArg Run.outcome hw

end SharpRuntime.Analysis.WeekRules
