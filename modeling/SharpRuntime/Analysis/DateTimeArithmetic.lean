import SharpRuntime.Analysis.DateTimeCalendar

/-!
# The operations of a `DateTime`

One lemma for each constructor, addition and conversion, saying what it returns for every
argument.  All of them end in `packed`, the word with given ticks and kind bits: an addition
checks its sum by one unsigned comparison (`addTicks_eq`) and keeps the kind bits of its
receiver, a conversion clamps to the range and sets the requested kind.
-/

set_option autoImplicit false

namespace SharpRuntime.Analysis.DateTimeArithmetic

open Machine Machine.Gregorian Model Model.DateTime
open DateTimeCalendar

variable {n : ℕ}

theorem ofTicks_eq (h : n ≤ maxTicks) : ofTicks n = pure (packed n 0) := by
  grind [ofTicks, packed]

variable {kind : DateTimeKind}

theorem throwIfInvalidKind_eq (h : kind.raw.toNat ≤ 2) : throwIfInvalidKind kind = pure () := by
  have hle : ¬ kind.raw > DateTimeKind.local_.raw := by
    change ¬ 2 < kind.raw.toNat
    omega
  rw [throwIfInvalidKind, if_neg hle]

theorem ofTicksKind_eq (h : n ≤ maxTicks)
    (hkind : kind.raw.toNat ≤ 2) : ofTicksKind n kind = pure (packed n kind.raw.toNat) := by
  have hrange : ¬ ((n : ℤ) < 0 ∨ (n : ℤ) > maxTicks) := by omega
  have hlt : n < 2 ^ 62 := lt_of_le_of_lt h maxTicks_lt
  have hshift : kind.raw.setWidth 64 <<< kKindShift = BitVec.ofNat 64 (kind.raw.toNat * 2 ^ 62) := by
    apply BitVec.eq_of_toNat_eq
    rw [BitVec.toNat_shiftLeft, BitVec.toNat_setWidth, BitVec.toNat_ofNat, Nat.shiftLeft_eq,
      kKindShift]
    omega
  rw [ofTicksKind, if_neg hrange, throwIfInvalidKind_eq hkind, pure_bind, hshift,
    packed_eq_or hlt (by omega)]
  rfl

variable {x : DateTime}

theorem specifyKind_eq (hx : x.ticks ≤ maxTicks) (hkind : kind.raw.toNat ≤ 2) :
    specifyKind x kind = pure (packed x.ticks kind.raw.toNat) := by
  rw [specifyKind, throwIfInvalidKind_eq hkind, pure_bind, ofTicksKind_eq hx hkind]

theorem withTicksPreservingKind_eq (x : DateTime) (h : n ≤ maxTicks) :
    x.withTicksPreservingKind n = pure (packed n x.kindBits) := by
  have hlt : n < 2 ^ 62 := lt_of_le_of_lt h maxTicks_lt
  have hmask : flagsMask = ~~~ticksMask := by decide
  have hflags : x.dateData &&& flagsMask = BitVec.ofNat 64 (x.kindBits * 2 ^ 62) := by
    have hsplit := toNat_and_add_and_not x.dateData ticksMask
    have hticks : (x.dateData &&& ticksMask).toNat = x.ticks := rfl
    rw [hticks, toNat_dateData x, ← hmask] at hsplit
    apply BitVec.eq_of_toNat_eq
    rw [BitVec.toNat_ofNat]
    omega
  rw [withTicksPreservingKind, ofTicks_eq h, pure_bind, hflags, packed_eq_or hlt x.kindBits_lt,
    packed, Nat.zero_mul, Nat.zero_add]

/-- What an addition whose exact sum is `sum` does: it returns a value with that tick count and
the kind of `x`, or it throws where the sum is out of range. -/
def sumOrThrow (x : DateTime) (sum : ℤ) : Run Exception DateTime :=
  if 0 ≤ sum ∧ sum ≤ maxTicks then pure (packed sum.toNat x.kindBits)
  else Run.throwing DateTime.valueOutOfRange

/-- One unsigned comparison of a wrapped sum with `maxTicks` is the range check, because an exact
sum below zero wraps far above `maxTicks`. -/
theorem checked_eq (x : DateTime) {sum : ℤ} {w : BitVec 64} (hw : w = BitVec.ofInt 64 sum)
    (hlo : -2 ^ 63 ≤ sum) (hhi : sum < 2 ^ 64) :
    (if w > BitVec.ofNat 64 maxTicks then Run.throwing DateTime.valueOutOfRange
      else x.withTicksPreservingKind w.toInt) = sumOrThrow x sum := by
  have hmax : (BitVec.ofNat 64 maxTicks).toNat = maxTicks := by decide
  have hmaxval : maxTicks = 3155378975999999999 := rfl
  have hnat : (w.toNat : ℤ) = sum % 2 ^ 64 := by
    rw [hw, BitVec.toNat_ofInt]
    omega
  unfold sumOrThrow
  by_cases h : 0 ≤ sum ∧ sum ≤ maxTicks
  · have hle : ¬ w > BitVec.ofNat 64 maxTicks := by
      rw [gt_iff_lt, BitVec.lt_def, hmax]
      omega
    have hint : w.toInt = (sum.toNat : ℤ) := by
      rw [BitVec.toInt_eq_toNat_cond]
      split <;> omega
    rw [if_neg hle, if_pos h, hint, withTicksPreservingKind_eq x (by omega)]
  · have hgt : w > BitVec.ofNat 64 maxTicks := by
      rw [gt_iff_lt, BitVec.lt_def, hmax]
      omega
    rw [if_pos hgt, if_neg h]

/-- The sum of the ticks, refused outside of the range. -/
theorem addTicks_eq (x : DateTime) {value : ℤ} (hlo : -2 ^ 63 ≤ value) (hhi : value < 2 ^ 63) :
    x.addTicks value = sumOrThrow x (x.ticks + value) := by
  have hlt := x.ticks_lt
  have hw : BitVec.ofNat 64 x.ticks + BitVec.ofInt 64 value = BitVec.ofInt 64 (x.ticks + value) := by
    rw [BitVec.ofInt_add, BitVec.ofInt_natCast]
  exact checked_eq x hw (by omega) (by omega)

theorem subtract_eq (x : DateTime) (value : TimeSpan) :
    x.subtract value = sumOrThrow x (x.ticks - value.ticks.toInt) := by
  have hlt := x.ticks_lt
  have hlo := value.ticks.le_toInt
  have hhi := value.ticks.toInt_lt
  have hw : BitVec.ofNat 64 x.ticks - value.ticks.toBitVec =
      BitVec.ofInt 64 (x.ticks - value.ticks.toInt) := by
    simp [Int.sub_eq_add_neg, BitVec.ofInt_add, BitVec.ofInt_natCast, BitVec.sub_eq_add_neg,
      BitVec.ofInt_neg]
  exact checked_eq x hw (by omega) (by omega)

theorem add_eq (x : DateTime) (value : TimeSpan) :
    x.add value = sumOrThrow x (x.ticks + value.ticks.toInt) :=
  addTicks_eq x value.ticks.le_toInt value.ticks.toInt_lt

theorem addProduct_eq (x : DateTime) {n unit : ℤ} (hlo : -2 ^ 63 ≤ n * unit)
    (hhi : n * unit < 2 ^ 63) :
    (Run.signed 64 (n * unit) >>= fun value => x.addTicks value) =
      sumOrThrow x (x.ticks + n * unit) := by
  rw [Run.signed_eq_pure (by decide) (by simpa using hlo) (by simpa using hhi), pure_bind,
    addTicks_eq x hlo hhi]

/-- `addDays` is exact or throws, for every `int`; the days its first check rejects are those
that leave the range from any valid receiver. -/
theorem addDays_eq (hx : x.ticks ≤ maxTicks) (days : Int32) :
    x.addDays days.toInt = sumOrThrow x (x.ticks + days.toInt * ticksPerDay) := by
  have hmax : maxTicks = 3155378975999999999 := rfl
  have hdays : maxDays = 3652058 := by decide
  have hunit : (ticksPerDay : ℤ) = 864000000000 := rfl
  rw [addDays, hunit]
  split
  case isTrue hfar =>
    rw [sumOrThrow, if_neg (by omega)]
  case isFalse hnear => exact addProduct_eq x (by omega) (by omega)

theorem addHours_eq (hx : x.ticks ≤ maxTicks) (hours : Int32) :
    x.addHours hours.toInt = sumOrThrow x (x.ticks + hours.toInt * ticksPerHour) := by
  have hmax : maxTicks = 3155378975999999999 := rfl
  have hhours : maxHours = 87649415 := by decide
  have hunit : (ticksPerHour : ℤ) = 36000000000 := rfl
  rw [addHours, hunit]
  split
  case isTrue hfar =>
    rw [sumOrThrow, if_neg (by omega)]
  case isFalse hnear => exact addProduct_eq x (by omega) (by omega)

theorem addMinutes_eq (x : DateTime) (minutes : Int32) :
    x.addMinutes minutes.toInt = sumOrThrow x (x.ticks + minutes.toInt * ticksPerMinute) := by
  have hunit : (ticksPerMinute : ℤ) = 600000000 := rfl
  have hlo := minutes.le_toInt
  have hhi := minutes.toInt_lt
  rw [addMinutes, hunit]
  exact addProduct_eq x (by omega) (by omega)

theorem addSeconds_eq (x : DateTime) (seconds : Int32) :
    x.addSeconds seconds.toInt = sumOrThrow x (x.ticks + seconds.toInt * ticksPerSecond) := by
  have hunit : (ticksPerSecond : ℤ) = 10000000 := rfl
  have hlo := seconds.le_toInt
  have hhi := seconds.toInt_lt
  rw [addSeconds, hunit]
  exact addProduct_eq x (by omega) (by omega)

theorem addMilliseconds_eq (x : DateTime) (milliseconds : Int32) :
    x.addMilliseconds milliseconds.toInt =
      sumOrThrow x (x.ticks + milliseconds.toInt * ticksPerMillisecond) := by
  have hunit : (ticksPerMillisecond : ℤ) = 10000 := rfl
  have hlo := milliseconds.le_toInt
  have hhi := milliseconds.toInt_lt
  rw [addMilliseconds, hunit]
  exact addProduct_eq x (by omega) (by omega)

theorem carryMonths_spec (month months : ℤ) :
    1 ≤ (carryMonths month months).2 ∧ (carryMonths month months).2 ≤ 12 ∧
      (carryMonths month months).1 * 12 + (carryMonths month months).2 = month + months := by
  simp only [carryMonths]
  split
  case isTrue hpos =>
    grind
  case isFalse hneg => grind

/-- What an addition of months does: it returns the shifted date with the time of day and the
kind of `x`, or it throws where there is no such date up to the year 9999. -/
def MonthsExact (x : DateTime) (months : ℤ) (r : Run Exception DateTime) : Prop :=
  (∃ d, x.date.addMonths months = some d ∧ d.year ≤ 9999 ∧
    r = pure (packed (d.dayNumber * ticksPerDay + x.ticks % ticksPerDay) x.kindBits)) ∨
  ((∀ d, x.date.addMonths months = some d → 9999 < d.year) ∧ ∃ e, r = Run.throwing e)

theorem addMonths_eq_some {d e : Date} {months : ℤ} (h : d.addMonths months = some e) :
    (e.year : ℤ) * 12 + (e.month - 1) = d.year * 12 + (d.month - 1) + months ∧
      e.day = min d.day (monthLength e.year e.month) := by
  obtain ⟨hindex, hday⟩ := Date.addMonths_eq_some h
  have hd := d.month_pos
  have he := e.month_pos
  simp only [Date.monthIndex] at hindex
  exact ⟨by omega, hday⟩

theorem ticksOfDay_le {d : Date} (hyear : d.year ≤ 9999) (ticks : ℕ) :
    d.dayNumber * ticksPerDay + ticks % ticksPerDay ≤ maxTicks := by
  have hd := dayNumber_lt hyear
  simp only [ticksPerDay, maxTicks]
  omega

theorem components_eq (x : DateTime) :
    x.getYearProperty = x.date.year ∧ x.getMonthProperty = x.date.month ∧
      x.getDayProperty = x.date.day := by
  grind [getYearProperty, toTm_eq, getMonthProperty, getDayProperty]

theorem addMonths_exact (hx : x.ticks ≤ maxTicks) (months : ℤ) :
    MonthsExact x months (x.addMonths months) := by
  have hyear := date_year_le hx
  have hm12 := x.date.month_le
  obtain ⟨hy, hm, hd⟩ := components_eq x
  rw [addMonths]
  split
  case isTrue hfar =>
    refine Or.inr ⟨fun d hsome => ?_, _, rfl⟩
    have hindex := (addMonths_eq_some hsome).1
    have h12 := d.month_le
    omega
  case isFalse hnear =>
    obtain ⟨h1, h12, hcarry⟩ := carryMonths_spec x.getMonthProperty months
    generalize carryMonths x.getMonthProperty months = c at h1 h12 hcarry
    obtain ⟨q, m⟩ := c
    simp only at h1 h12 hcarry ⊢
    rw [hy]
    split
    case isTrue hout =>
      refine Or.inr ⟨fun d hsome => ?_, _, rfl⟩
      have hindex := (addMonths_eq_some hsome).1
      have hd12 := d.month_le
      have hd1 := d.month_pos
      have hy1 := d.year_pos
      omega
    case isFalse hin =>
      -- the carried year and the month left are those of the shifted date
      have hsome : ∃ d, x.date.addMonths months = some d := by
        unfold Date.addMonths
        rw [dif_pos (by omega)]
        exact ⟨_, rfl⟩
      obtain ⟨d, hd'⟩ := hsome
      obtain ⟨hindex, hday⟩ := addMonths_eq_some hd'
      have hd12 := d.month_le
      have hd1 := d.month_pos
      have hy1 := d.year_pos
      have hyd : (x.date.year : ℤ) + q = d.year := by omega
      have hmd : m = d.month := by omega
      have hle : d.year ≤ 9999 := by omega
      refine Or.inl ⟨d, hd', hle, ?_⟩
      have hmin : min x.getDayProperty (monthLength d.year d.month : ℤ) = (d.day : ℤ) := by
        rw [hd, hday]
        push_cast
        rfl
      have hticks := dateToTicks_date (d := d) hle (by decide : 0 < 24) (by decide : 0 < 60)
        (by decide : 0 < 60) (by decide : 0 < 1000)
      have hsum := ticksOfDay_le hle x.ticks
      have hlt := maxTicks_lt
      rw [hyd, hmd, daysInMonth_eq ⟨hy1, hle⟩ ⟨hd1, hd12⟩, pure_bind, hmin]
      simp only [Nat.cast_zero] at hticks
      rw [hticks, pure_bind]
      simp only [ticksOf, Nat.zero_mul, Nat.add_zero]
      rw [← Nat.cast_add, Run.signed_eq_pure (by decide) (by omega) (by omega), pure_bind,
        withTicksPreservingKind_eq x hsum]

theorem addYears_exact (hx : x.ticks ≤ maxTicks) (years : ℤ) :
    MonthsExact x (years * 12) (x.addYears years) := by
  have hyear := date_year_le hx
  have hm12 := x.date.month_le
  rw [addYears]
  split
  case isTrue hfar =>
    refine Or.inr ⟨fun d hsome => ?_, _, rfl⟩
    have hindex := (addMonths_eq_some hsome).1
    have hd12 := d.month_le
    omega
  case isFalse hnear => exact addMonths_exact hx (years * 12)

def clamp (sum : ℤ) : ℕ := (max 0 (min sum maxTicks)).toNat

theorem clamp_le (sum : ℤ) : clamp sum ≤ maxTicks := by
  simp [clamp]

theorem kind_word (x : DateTime) :
    (x.dateData >>> kKindShift).setWidth 32 = BitVec.ofNat 32 x.kindBits := by
  rfl

/-- The kind that the two bits of a value stand for; the fourth pattern is local time too. -/
theorem getKindProperty_eq (x : DateTime) {n : ℕ} (hn : n ≤ 2) :
    x.getKindProperty = ⟨BitVec.ofNat 32 n⟩ ↔ min x.kindBits 2 = n := by
  have hlt := x.kindBits_lt
  rw [getKindProperty, kind_word]
  generalize x.kindBits = k at hlt
  interval_cases k <;> interval_cases n <;> decide

theorem toLocalTime_eq (hx : x.ticks ≤ maxTicks) (zone : ILocalTimeZone) : x.toLocalTime zone =
      if 2 ≤ x.kindBits then pure x
      else pure (packed
        (clamp (x.ticks + (zone.getUtcOffsetFromUniversalTime x).ticks.toInt)) 2) := by
  have hmax : maxTicks = 3155378975999999999 := rfl
  have hlocal : DateTimeKind.local_.raw.toNat = 2 := rfl
  unfold toLocalTime
  have hkind : x.getKindProperty = DateTimeKind.local_ ↔ 2 ≤ x.kindBits :=
    (getKindProperty_eq x le_rfl).trans min_eq_right_iff
  by_cases h : 2 ≤ x.kindBits
  · rw [if_pos (hkind.mpr h), if_pos h]
  · rw [if_neg (mt hkind.mp h), if_neg h]
    generalize (zone.getUtcOffsetFromUniversalTime x).ticks.toInt = offset
    simp only
    rw [Run.signed_eq_pure (by decide) (by omega) (by omega), pure_bind]
    split
    case isTrue hhigh =>
      have hc : clamp (x.ticks + offset) = maxTicks := by
        rw [clamp]
        omega
      rw [ofTicksKind_eq le_rfl (by decide), hc, hlocal]
    case isFalse hhigh =>
      split
      case isTrue hlow =>
        have hc : clamp (x.ticks + offset) = 0 := by
          rw [clamp]
          omega
        have hzero : ofTicksKind 0 DateTimeKind.local_ = pure (packed 0 2) :=
          ofTicksKind_eq (n := 0) (by decide) (by decide)
        rw [hzero, hc]
      case isFalse hlow =>
        have hc : (x.ticks : ℤ) + offset = (clamp (x.ticks + offset) : ℕ) := by
          rw [clamp]
          omega
        rw [Run.signed_eq_pure (by decide) (by omega) (by omega), pure_bind]
        rw [hc, ofTicksKind_eq (clamp_le _) (by decide), hlocal, ← hc]

theorem toUniversalTime_eq (hx : x.ticks ≤ maxTicks) (zone : ILocalTimeZone) :
    x.toUniversalTime zone =
      if x.kindBits = 1 then pure x
      else pure (packed (clamp (x.ticks - (zone.getUtcOffset x).ticks.toInt)) 1) := by
  have hmax : maxTicks = 3155378975999999999 := rfl
  have hutc : DateTimeKind.utc.raw.toNat = 1 := rfl
  unfold toUniversalTime
  have hkind : x.getKindProperty = DateTimeKind.utc ↔ x.kindBits = 1 :=
    (getKindProperty_eq x one_le_two).trans (by omega)
  by_cases h : x.kindBits = 1
  · rw [if_pos (hkind.mpr h), if_pos h]
  · rw [if_neg (mt hkind.mp h), if_neg h]
    generalize (zone.getUtcOffset x).ticks.toInt = offset
    simp only
    split
    case isTrue hlow =>
      have hc : clamp (x.ticks - offset) = 0 := by
        rw [clamp]
        omega
      have hzero : ofTicksKind 0 DateTimeKind.utc = pure (packed 0 1) :=
        ofTicksKind_eq (n := 0) (by decide) (by decide)
      rw [hzero, hc]
    case isFalse hlow =>
      rw [Run.signed_eq_pure (by decide) (by omega) (by omega), pure_bind]
      split
      case isTrue hhigh =>
        have hc : clamp (x.ticks - offset) = maxTicks := by
          rw [clamp]
          omega
        rw [ofTicksKind_eq le_rfl (by decide), hc, hutc]
      case isFalse hhigh =>
        have hc : (x.ticks : ℤ) - offset = (clamp (x.ticks - offset) : ℕ) := by
          rw [clamp]
          omega
        rw [Run.signed_eq_pure (by decide) (by omega) (by omega), pure_bind]
        rw [hc, ofTicksKind_eq (clamp_le _) (by decide), hutc, ← hc]

end SharpRuntime.Analysis.DateTimeArithmetic
