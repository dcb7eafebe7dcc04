import SharpRuntime.Analysis.DateTimeArithmetic
import SharpRuntime.Interface.CalendarClass

/-!
# The arithmetic of the calendar classes

The absolute date is the number of a day, counted from one (`absoluteDate_eq`); a sum of no time of
day is the start of the day; and the carry of an addition of months rounds down
(`shiftMonths_spec`).
-/

set_option autoImplicit false

namespace SharpRuntime.Analysis.CalendarArithmetic

open Machine Model Model.DateTime Model.Calendar
open Interface

theorem daysBeforeMonth_getD (year month : ℕ) (hpos : 1 ≤ month) (hle : month ≤ 12) :
    daysBeforeMonth.getD month 0 + (if 2 < month ∧ Gregorian.leap year = true then 1 else 0) =
      Gregorian.daysBeforeMonth year month := by
  cases hleap : Gregorian.leap year <;> interval_cases month <;>
    simp [Gregorian.daysBeforeMonth, Finset.sum_range_succ, Gregorian.monthLength, hleap, daysBeforeMonth]

/-- The absolute date of the source is the day number plus one. -/
theorem absoluteDate_eq (d : Gregorian.Date) :
    absoluteDate d.year d.month d.day = pure ((d.dayNumber : ℤ) + 1) := by
  have hyear := d.year_pos
  have hmonth := d.month_pos
  have hmonth' := d.month_le
  have hclosed := DateTimeCalendar.dayNumber_closed d
  have htable := daysBeforeMonth_getD d.year d.month hmonth hmonth'
  have hnonneg : (0 : ℤ) ≤ (d.year : ℤ) - 1 := by omega
  have hleap : (decide ((d.year : ℤ).tmod 4 = 0 ∧ (d.year : ℤ).tmod 100 ≠ 0) ||
      decide ((d.year : ℤ).tmod 400 = 0)) = Gregorian.leap d.year := by
    grind [Gregorian.leap_eq_true]
  simp only [absoluteDate, hleap]
  rw [Run.observe_eq_pure (by omega), pure_bind, Int.toNat_natCast, Run.pure_inj,
    Int.tdiv_eq_ediv_of_nonneg hnonneg, Int.tdiv_eq_ediv_of_nonneg hnonneg,
    Int.tdiv_eq_ediv_of_nonneg hnonneg]
  have hmonths : ((2 : ℤ) < (d.month : ℤ) ∧ Gregorian.leap d.year = true) ↔
      (2 < d.month ∧ Gregorian.leap d.year = true) := by
    rw [show ((2 : ℤ) < (d.month : ℤ)) ↔ 2 < d.month by omega]
  simp only [hmonths]
  split at htable <;> rename_i hcond
  · rw [if_pos hcond]
    omega
  · rw [if_neg hcond]
    omega

def januaryFirst (year : ℕ) (h : 1 ≤ year) : Gregorian.Date :=
  ⟨year, 1, 1, h, Gregorian.Date.first.month_pos, Gregorian.Date.first.month_le,
    Gregorian.Date.first.day_pos, Gregorian.monthLength_pos year 1⟩

theorem dayNumber_january {year : ℕ} (h : 1 ≤ year) :
    (januaryFirst year h).dayNumber = Gregorian.daysBeforeYear year := rfl

theorem absoluteDate_january {year : ℕ} (h : 1 ≤ year) :
    absoluteDate year 1 1 = pure ((Gregorian.daysBeforeYear year : ℤ) + 1) := by
  have heq := absoluteDate_eq (januaryFirst year h)
  rw [dayNumber_january] at heq
  exact heq

theorem ensures_of_outOfRange {α : Type} {r : Run Exception α} (h : OutOfRange r) {Q : α → Prop} :
    r.Ensures Q := by
  obtain ⟨paramName, message, rfl⟩ := h
  exact Run.Ensures.throwing _

theorem ofTicks_ensures (ticks : ℤ) : (DateTime.ofTicks ticks).Ensures fun _ => True := by
  exact Run.Ensures.ite (fun _ => Run.Ensures.throwing _) (fun _ => Run.Ensures.pure trivial)

variable {ticks : ℤ}

theorem addUnits_zero (hlo : -2 ^ 63 ≤ ticks) (hhi : ticks < 2 ^ 63) (unit : ℕ) :
    addUnits ticks 0 unit = pure ticks := by
  rw [addUnits, zero_mul, Run.signed_eq_pure (by decide) (by decide) (by decide), pure_bind, add_zero,
    Run.signed_eq_pure (by decide) hlo hhi]

theorem addTimeOfDay_noTime (hlo : -2 ^ 63 ≤ ticks) (hhi : ticks < 2 ^ 63) :
    addTimeOfDay ticks 0 0 0 0 = pure ticks := by
  simp only [addTimeOfDay, addUnits_zero hlo hhi, pure_bind]

theorem addTimeOfDay_zero : addTimeOfDay 0 0 0 0 0 = pure 0 :=
  addTimeOfDay_noTime (by decide) (by decide)

theorem ofTicks_midnight {n : ℕ} (h : n < 3652059) :
    DateTime.ofTicks ((n : ℤ) * ticksPerDay) = pure (midnight n) := by
  have hticks : n * ticksPerDay ≤ maxTicks := by
    unfold ticksPerDay maxTicks
    omega
  rw [← Nat.cast_mul, DateTimeArithmetic.ofTicks_eq hticks]
  rfl

variable {n : ℤ}

theorem signed_midnight (h0 : 0 ≤ n) (hn : n < 3652059) :
    (Run.signed 64 (n * ticksPerDay + 0) >>= fun ticks => DateTime.ofTicks ticks) =
      pure (midnight n.toNat) := by
  lift n to ℕ using h0
  rw [add_zero, Run.signed_eq_pure (by decide) (by unfold ticksPerDay; omega)
    (by unfold ticksPerDay; omega), pure_bind, ofTicks_midnight (by omega), Int.toNat_natCast]

/-- The month is in 1 to 12, and the months of all years add up. -/
theorem shiftMonths_spec (y m months : ℤ) :
    1 ≤ (shiftMonths y m months).2 ∧ (shiftMonths y m months).2 ≤ 12 ∧
      (shiftMonths y m months).1 * 12 + (shiftMonths y m months).2 = y * 12 + m + months := by
  simp only [shiftMonths]
  split
  case isTrue hnonneg =>
    grind
  case isFalse hneg => grind

theorem shiftMonths_date {C : MonthCalendar} (d : C.Date) (months : ℤ) :
    shiftMonths d.year d.month months = CalendarClass.monthsLater d months := by
  have hspec := shiftMonths_spec d.year d.month months
  unfold CalendarClass.monthsLater
  apply Prod.ext <;> dsimp only <;> omega

theorem ofTicks_day (h0 : 0 ≤ n) (hn : n < 3652059) (x : DateTime) :
    ∃ result, DateTime.ofTicks (n * ticksPerDay + (x.ticks : ℤ) % ticksPerDay) = pure result ∧
      (dayOf result : ℤ) = n ∧ result.ticks % ticksPerDay = x.ticks % ticksPerDay := by
  lift n to ℕ using h0
  have htime : x.ticks % ticksPerDay < ticksPerDay := Nat.mod_lt _ (by decide)
  have hticks : n * ticksPerDay + x.ticks % ticksPerDay ≤ maxTicks := by
    unfold ticksPerDay maxTicks at *
    omega
  have hlt : n * ticksPerDay + x.ticks % ticksPerDay < 2 ^ 62 := by
    unfold ticksPerDay at *
    omega
  refine ⟨packed (n * ticksPerDay + x.ticks % ticksPerDay) 0, ?_, ?_, ?_⟩
  · rw [← DateTimeArithmetic.ofTicks_eq hticks]
    rfl
  · rw [dayOf, ticks_packed hlt (by decide), Nat.mul_comm, Nat.mul_add_div (by decide),
      Nat.div_eq_of_lt htime, Nat.add_zero]
  · rw [ticks_packed hlt (by decide), Nat.mul_comm, Nat.mul_add_mod, Nat.mod_mod]

theorem ofTicks_outside (h : n < 0 ∨ 3652059 ≤ n) (x : DateTime) :
    OutOfRange (DateTime.ofTicks (n * ticksPerDay + (x.ticks : ℤ) % ticksPerDay)) := by
  rw [DateTime.ofTicks, if_pos]
  · exact ⟨_, _, rfl⟩
  · unfold ticksPerDay maxTicks at *
    omega

end SharpRuntime.Analysis.CalendarArithmetic
