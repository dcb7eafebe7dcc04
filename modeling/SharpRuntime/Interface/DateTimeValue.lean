import SharpRuntime.Machine.Gregorian
import SharpRuntime.Model.TimeSpan

/-!
# What a `DateTime` denotes

The low 62 bits of a `DateTime` count ticks from the start of 0001-01-01 (`ticks_eq`): the
whole days give a date of the Gregorian calendar (`date`), the rest the time of day.  The two
bits above them are its kind.  The class invariant is that the ticks are at most `maxTicks`
and the kind is one of the three declared ones (`Valid`).
-/

set_option autoImplicit false

namespace SharpRuntime.Model.DateTime

open Machine

def kindBits (x : DateTime) : ℕ := (x.dateData >>> kKindShift).toNat

/-- The class invariant. -/
structure Valid (x : DateTime) : Prop where
  ticks_le : x.ticks ≤ maxTicks
  kindBits_le : x.kindBits ≤ 2

def date (x : DateTime) : Gregorian.Date := Gregorian.Date.ofDayNumber (x.ticks / ticksPerDay)

def hourOf (ticks : ℕ) : ℕ := ticks % ticksPerDay / ticksPerHour

def minuteOf (ticks : ℕ) : ℕ := ticks % ticksPerDay % ticksPerHour / ticksPerMinute

def secondOf (ticks : ℕ) : ℕ :=
  ticks % ticksPerDay % ticksPerHour % ticksPerMinute / ticksPerSecond

variable (x : DateTime)

theorem dayNumber_date : x.date.dayNumber = x.ticks / ticksPerDay :=
  Gregorian.Date.dayNumber_ofDayNumber _

theorem ticks_eq : x.ticks = x.dateData.toNat % 2 ^ 62 := by
  exact Nat.and_two_pow_sub_one_eq_mod _ 62

theorem kindBits_eq : x.kindBits = x.dateData.toNat / 2 ^ 62 := by
  rw [kindBits, BitVec.toNat_ushiftRight, Nat.shiftRight_eq_div_pow]
  rfl

theorem toNat_dateData : x.dateData.toNat = x.kindBits * 2 ^ 62 + x.ticks := by
  rw [ticks_eq, kindBits_eq]
  omega

theorem ext_ticks_kindBits {x y : DateTime} (ht : x.ticks = y.ticks)
    (hk : x.kindBits = y.kindBits) : x = y := by
  have h : x.dateData = y.dateData := by
    apply BitVec.eq_of_toNat_eq
    rw [toNat_dateData, toNat_dateData, ht, hk]
  cases x
  cases y
  simpa using h

theorem ticks_lt : x.ticks < 2 ^ 62 := by
  rw [ticks_eq]
  exact Nat.mod_lt _ (by decide)

theorem kindBits_lt : x.kindBits < 4 := by
  rw [kindBits_eq]
  omega

def packed (ticks kind : ℕ) : DateTime := ⟨BitVec.ofNat 64 (kind * 2 ^ 62 + ticks)⟩

variable {n k : ℕ}

theorem toNat_packed (hn : n < 2 ^ 62) (hk : k < 4) :
    (packed n k).dateData.toNat = k * 2 ^ 62 + n := by
  rw [packed, BitVec.toNat_ofNat]
  omega

@[simp] theorem ticks_packed (hn : n < 2 ^ 62) (hk : k < 4) : (packed n k).ticks = n := by
  rw [ticks_eq, toNat_packed hn hk]
  omega

@[simp] theorem kindBits_packed (hn : n < 2 ^ 62) (hk : k < 4) : (packed n k).kindBits = k := by
  rw [kindBits_eq, toNat_packed hn hk]
  omega

theorem maxTicks_lt : maxTicks < 2 ^ 62 := by decide

theorem valid_packed (hn : n ≤ maxTicks) (hk : k ≤ 2) : (packed n k).Valid := by
  have hlt : n < 2 ^ 62 := lt_of_le_of_lt hn maxTicks_lt
  constructor
  · rw [ticks_packed hlt (by omega)]
    exact hn
  · rw [kindBits_packed hlt (by omega)]
    exact hk

theorem packed_eq_or (hn : n < 2 ^ 62) (hk : k < 4) :
    packed n k = ⟨BitVec.ofNat 64 n ||| BitVec.ofNat 64 (k * 2 ^ 62)⟩ := by
  have hor : (BitVec.ofNat 64 n ||| BitVec.ofNat 64 (k * 2 ^ 62)).toNat = k * 2 ^ 62 + n := by
    rw [BitVec.toNat_or, BitVec.toNat_ofNat, BitVec.toNat_ofNat, Nat.mod_eq_of_lt (by omega),
      Nat.mod_eq_of_lt (by omega), Nat.or_comm, Nat.mul_comm]
    exact (Nat.two_pow_add_eq_or_of_lt hn k).symm
  have heq : (packed n k).dateData = BitVec.ofNat 64 n ||| BitVec.ofNat 64 (k * 2 ^ 62) :=
    BitVec.eq_of_toNat_eq ((toNat_packed hn hk).trans hor.symm)
  rw [← heq]

theorem daysBeforeYear_tenThousand : Gregorian.daysBeforeYear 10000 = 3652059 := by
  have h : ∀ y, y = 9999 → Gregorian.daysBeforeYear (y + 1) = 3652059 := by
    intro y hy
    have hyear := Gregorian.daysBeforeYear_eq y
    omega
  exact h 9999 rfl

theorem date_year_le {x : DateTime} (h : x.ticks ≤ maxTicks) : x.date.year ≤ 9999 := by
  have hlt : x.date.dayNumber < Gregorian.daysBeforeYear 10000 := by
    rw [dayNumber_date, daysBeforeYear_tenThousand]
    unfold maxTicks at h
    unfold ticksPerDay
    omega
  exact Nat.le_of_lt_succ (x.date.year_lt_iff.mpr hlt)

end SharpRuntime.Model.DateTime

/-!
# Programs over `DateTime` variables

The public operations that make a `DateTime`, as the instructions of a small machine: a
`Store` holds the variables of a program, an `Assignment` evaluates one operation and
assigns its value to a variable, and a program is a list of assignments.  An operation that
throws assigns nothing, except that `tryParseExact` resets its result before it can fail.

`amount` and `months` say which operations add a number of ticks or of months to a receiver.
-/

namespace SharpRuntime.Interface

open Machine Model

abbrev Store := ℕ → DateTime

/-- The constructors, arithmetic, conversions and parsers of `DateTime`; a receiver is the number
of a variable. -/
inductive Operation where
  | default
  | ofTicks (ticks : Int64)
  | ofTicksKind (ticks : Int64) (kind : DateTimeKind)
  | ofDate (year month day : Int32)
  | ofDateTime (year month day hour minute second : Int32)
  | ofDateTimeMillisecond (year month day hour minute second millisecond : Int32)
  | specifyKind (value : ℕ) (kind : DateTimeKind)
  | add (receiver : ℕ) (value : TimeSpan)
  | addTicks (receiver : ℕ) (value : Int64)
  | addDays (receiver : ℕ) (days : Int32)
  | addHours (receiver : ℕ) (hours : Int32)
  | addMinutes (receiver : ℕ) (minutes : Int32)
  | addSeconds (receiver : ℕ) (seconds : Int32)
  | addMilliseconds (receiver : ℕ) (milliseconds : Int32)
  | subtract (receiver : ℕ) (value : TimeSpan)
  | addMonths (receiver : ℕ) (months : Int32)
  | addYears (receiver : ℕ) (years : Int32)
  | toLocalTime (receiver : ℕ) (zone : ILocalTimeZone)
  | toUniversalTime (receiver : ℕ) (zone : ILocalTimeZone)
  | tryParse (text : List Char)
  | tryParseExact (input format : List Char) (provider : Option DateTimeFormatInfo)
      (styles : DateTimeStyles) (zone : Option ILocalTimeZone)

namespace Operation

open DateTime in
/-- The value an operation makes; `old` is what its target held. -/
def evaluate (s : Store) (old : DateTime) : Operation → Run Exception DateTime
  | .default => pure DateTime.default
  | .ofTicks t => DateTime.ofTicks t.toInt
  | .ofTicksKind t kind => DateTime.ofTicksKind t.toInt kind
  | .ofDate y mo d => ofComponents y.toInt mo.toInt d.toInt 0 0 0 0
  | .ofDateTime y mo d h mi sec =>
    ofComponents y.toInt mo.toInt d.toInt h.toInt mi.toInt sec.toInt 0
  | .ofDateTimeMillisecond y mo d h mi sec ms =>
    ofComponents y.toInt mo.toInt d.toInt h.toInt mi.toInt sec.toInt ms.toInt
  | .specifyKind v kind => DateTime.specifyKind (s v) kind
  | .add v value => (s v).add value
  | .addTicks v value => (s v).addTicks value.toInt
  | .addDays v n => (s v).addDays n.toInt
  | .addHours v n => (s v).addHours n.toInt
  | .addMinutes v n => (s v).addMinutes n.toInt
  | .addSeconds v n => (s v).addSeconds n.toInt
  | .addMilliseconds v n => (s v).addMilliseconds n.toInt
  | .subtract v value => (s v).subtract value
  | .addMonths v n => (s v).addMonths n.toInt
  | .addYears v n => (s v).addYears n.toInt
  | .toLocalTime v zone => (s v).toLocalTime zone
  | .toUniversalTime v zone => (s v).toUniversalTime zone
  | .tryParse text => Prod.snd <$> DateTime.tryParse text
  | .tryParseExact input format provider styles zone =>
    let (returned, result) := DateTime.tryParseExact input format provider styles old zone
    returned >>= fun _ => pure result

/-- Whether an operation writes its target before it can throw. -/
def isExactParse : Operation → Bool
  | .tryParseExact _ _ _ _ _ => true
  | _ => false

def afterThrow (old : DateTime) : Operation → DateTime
  | .tryParseExact input format provider styles zone =>
    (DateTime.tryParseExact input format provider styles old zone).2
  | _ => old

def assigned (s : Store) (old : DateTime) (op : Operation) : DateTime :=
  match (op.evaluate s old).outcome with
  | .returned value => value
  | _ => op.afterThrow old

/-- The receiver of an `Add*` or a `subtract`, and the exact number of ticks it adds. -/
def amount : Operation → Option (ℕ × ℤ)
  | .add v value => some (v, value.ticks.toInt)
  | .addTicks v value => some (v, value.toInt)
  | .addDays v n => some (v, n.toInt * DateTime.ticksPerDay)
  | .addHours v n => some (v, n.toInt * DateTime.ticksPerHour)
  | .addMinutes v n => some (v, n.toInt * DateTime.ticksPerMinute)
  | .addSeconds v n => some (v, n.toInt * DateTime.ticksPerSecond)
  | .addMilliseconds v n => some (v, n.toInt * DateTime.ticksPerMillisecond)
  | .subtract v value => some (v, -value.ticks.toInt)
  | _ => none

/-- The receiver of `addMonths` or `addYears`, and the number of months it adds. -/
def months : Operation → Option (ℕ × ℤ)
  | .addMonths v n => some (v, n.toInt)
  | .addYears v n => some (v, n.toInt * 12)
  | _ => none

/-- The kind an exact parse asks for, by its styles and the zone the input carried: a style that
assumes or adjusts stamps its own kind, and an input without one stays unspecified. -/
def requestedKind (styles : DateTimeStyles) (fields : ExactDateTimeFields) : ℕ :=
  if fields.hasOffset then
    if (styles.has .roundtripKind ∧ fields.zoneIsUtc) ∨ styles.has .adjustToUniversal then 1 else 2
  else if styles.has .assumeLocal ∨ styles.has .assumeUniversal then
    if styles.has .adjustToUniversal then 1 else 2
  else 0

/-- The kind of an operation that is neither arithmetic nor an exact parse. -/
def kind : Operation → Option ℕ
  | .default | .ofTicks _ | .ofDate _ _ _ | .ofDateTime _ _ _ _ _ _
  | .ofDateTimeMillisecond _ _ _ _ _ _ _ | .tryParse _ => some 0
  | .ofTicksKind _ kind | .specifyKind _ kind => some kind.raw.toNat
  | .toLocalTime _ _ => some 2
  | .toUniversalTime _ _ => some 1
  | _ => none

end Operation

/-- One statement of a program. -/
structure Assignment where
  target : ℕ
  operation : Operation

def step (s : Store) (a : Assignment) : Store :=
  Function.update s a.target (a.operation.assigned s (s a.target))

def initial : Store := fun _ => DateTime.default

def run (program : List Assignment) : Store := program.foldl step initial

/-!
# What the text of a `TimeSpan` says

A duration is a sign, a number of days and a time of day to the tick.  `Duration.text` writes it
as `toString` does: days only where there are some, and then the hours with two digits.
-/

open Model.TimeSpan

/-- A sign, days and a time of day. -/
structure Duration where
  negative : Bool
  days : ℕ
  hours : ℕ
  minutes : ℕ
  seconds : ℕ
  fraction : ℕ
  hours_lt : hours < 24
  minutes_lt : minutes < 60
  seconds_lt : seconds < 60
  fraction_lt : fraction < ticksPerSecond

namespace Duration

def magnitude (d : Duration) : ℕ :=
  d.days * ticksPerDay + d.hours * ticksPerHour + d.minutes * ticksPerMinute
    + d.seconds * ticksPerSecond + d.fraction

def ofTicks (negative : Bool) (ticks : ℕ) : Duration where
  negative := negative
  days := ticks / ticksPerDay
  hours := ticks % ticksPerDay / ticksPerHour
  minutes := ticks % ticksPerDay % ticksPerHour / ticksPerMinute
  seconds := ticks % ticksPerDay % ticksPerHour % ticksPerMinute / ticksPerSecond
  fraction := ticks % ticksPerDay % ticksPerHour % ticksPerMinute % ticksPerSecond
  hours_lt := Nat.div_lt_of_lt_mul (Nat.mod_lt _ (by decide))
  minutes_lt := Nat.div_lt_of_lt_mul (Nat.mod_lt _ (by decide))
  seconds_lt := Nat.div_lt_of_lt_mul (Nat.mod_lt _ (by decide))
  fraction_lt := Nat.mod_lt _ (by decide)

theorem magnitude_ofTicks (negative : Bool) (ticks : ℕ) : (ofTicks negative ticks).magnitude = ticks := by
  have hday := Nat.div_add_mod' ticks ticksPerDay
  have hhour := Nat.div_add_mod' (ticks % ticksPerDay) ticksPerHour
  have hminute := Nat.div_add_mod' (ticks % ticksPerDay % ticksPerHour) ticksPerMinute
  have hsecond := Nat.div_add_mod' (ticks % ticksPerDay % ticksPerHour % ticksPerMinute) ticksPerSecond
  simp only [magnitude, ofTicks]
  omega

def headText (d : Duration) : List Char :=
  if d.days ≠ 0 then
    Printed.text (Printed.numeral 10 d.days) ++ '.' :: Printed.text (Printed.fixed 10 2 d.hours)
  else Printed.text (Printed.numeral 10 d.hours)

def tailText (d : Duration) : List Char :=
  Printed.text (Printed.fixed 10 2 d.minutes) ++ ':' ::
    (Printed.text (Printed.fixed 10 2 d.seconds) ++ '.' :: Printed.text (Printed.fixed 10 7 d.fraction))

def body (d : Duration) : List Char := d.headText ++ ':' :: d.tailText

def text (d : Duration) : List Char := (if d.negative then ['-'] else []) ++ d.body

end Duration

end SharpRuntime.Interface
