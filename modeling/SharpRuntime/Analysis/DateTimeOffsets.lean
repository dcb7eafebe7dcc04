import SharpRuntime.Analysis.DateTimeInvariant
import SharpRuntime.Analysis.DateTimeRoundTrip
import SharpRuntime.Analysis.DateTimeScanning
import SharpRuntime.Interface.DateTimeOffsetValue

/-!
# Clocks, offsets and instants

Every constructor of `DateTimeOffset` ends in one check of the offset and one of the instant, and in
a clock whose kind is unspecified (`ofDateTimeOffset_ensures`), so that every value a caller can
hold is in range (`inRange_of_produced`).  The text of `o` is that of the clock, followed by the
offset; the two parsers read both back (`tryParse_roundTrip`, `tryParseExact_roundTrip`).
-/

set_option autoImplicit false

namespace SharpRuntime.Analysis.DateTimeOffsets

open Machine Model Model.DateTimeOffset Interface
open Model.DateTime (packed ticks_packed kindBits_packed maxTicks_lt)
open DateTimeArithmetic DateTimeInvariant
open DateTimeOffset

variable {currentLocalOffsetTicks : Int64} {x : DateTimeOffset} {d : DateTime} {offset : TimeSpan}

theorem wholeMinutes_iff : WholeMinutes offset ↔
    offset.ticks.toInt.tmod TimeSpan.ticksPerMinute = 0 ∧
      -(14 * 60) ≤ offset.ticks.toInt.tdiv TimeSpan.ticksPerMinute ∧
      offset.ticks.toInt.tdiv TimeSpan.ticksPerMinute ≤ 14 * 60 := by
  have hminute : (TimeSpan.ticksPerMinute : ℤ) = 600000000 := rfl
  have hhour : (TimeSpan.ticksPerHour : ℤ) = 36000000000 := rfl
  have hsplit := Int.mul_tdiv_add_tmod offset.ticks.toInt TimeSpan.ticksPerMinute
  rw [hminute] at hsplit ⊢
  constructor
  · intro h
    have hdvd := h.dvd
    have hlower := h.lower
    have hupper := h.upper
    rw [hminute] at hdvd
    rw [hhour] at hlower hupper
    have hzero := Int.tmod_eq_zero_of_dvd hdvd
    exact ⟨hzero, by omega, by omega⟩
  · rintro ⟨hzero, hlower, hupper⟩
    refine ⟨?_, ?_, ?_⟩
    · grind
    · omega
    · omega

theorem validateOffset_ok (h : WholeMinutes offset) : validateOffset offset = pure () := by
  obtain ⟨hzero, hlower, hupper⟩ := wholeMinutes_iff.mp h
  grind [validateOffset]

theorem validateOffset_ensures (offset : TimeSpan) :
    (validateOffset offset).Ensures fun _ => WholeMinutes offset := by
  by_cases h : WholeMinutes offset
  · rw [validateOffset_ok h]
    exact Run.Ensures.pure h
  · refine Run.Ensures.ite (fun _ => Run.Ensures.throwing _) fun hzero => ?_
    refine Run.Ensures.ite (fun _ => Run.Ensures.throwing _) fun hrange => ?_
    exact absurd (wholeMinutes_iff.mpr ⟨not_not.mp hzero, by omega, by omega⟩) h

theorem abs_offset_lt (h : WholeMinutes offset) : |offset.ticks.toInt| < 2 ^ 40 := by
  have hlower := h.lower
  have hupper := h.upper
  have hhour : (TimeSpan.ticksPerHour : ℤ) = 36000000000 := rfl
  rw [abs_lt]
  constructor <;> omega

theorem wholeMinutes_zero : WholeMinutes TimeSpan.zero :=
  ⟨dvd_zero _, by decide, by decide⟩

theorem utc_signed (hd : d.ticks ≤ DateTime.maxTicks) (h : WholeMinutes offset) :
    (Run.signed 64 (d.ticks - offset.ticks.toInt) : Run Exception ℤ) =
      pure (d.ticks - offset.ticks.toInt) := by
  have hoffset := abs_lt.mp (abs_offset_lt h)
  have hlt := maxTicks_lt
  exact Run.signed_eq_pure (by decide) (by omega) (by omega)

theorem validateUtcRange_ok (hd : d.ticks ≤ DateTime.maxTicks) (h : WholeMinutes offset)
    (hlo : 0 ≤ (d.ticks : ℤ) - offset.ticks.toInt)
    (hhi : (d.ticks : ℤ) - offset.ticks.toInt ≤ DateTime.maxTicks) :
    validateUtcRange d offset = pure () := by
  rw [validateUtcRange, utc_signed hd h, pure_bind]
  exact if_neg (by omega)

theorem validateUtcRange_ensures (hd : d.ticks ≤ DateTime.maxTicks) (h : WholeMinutes offset) :
    (validateUtcRange d offset).Ensures fun _ => 0 ≤ (d.ticks : ℤ) - offset.ticks.toInt ∧
      (d.ticks : ℤ) - offset.ticks.toInt ≤ DateTime.maxTicks := by
  rw [validateUtcRange, utc_signed hd h, pure_bind]
  exact Run.Ensures.ite (fun _ => Run.Ensures.throwing _) fun hrange =>
    Run.Ensures.pure ⟨by omega, by omega⟩

def valueOf (d : DateTime) (offset : TimeSpan) : DateTimeOffset := ⟨packed d.ticks 0, offset⟩

theorem utcTicks_valueOf : (valueOf d offset).utcTicks = d.ticks - offset.ticks.toInt := by
  rw [utcTicks, valueOf, ticks_packed d.ticks_lt (by decide)]

theorem inRange_valueOf (hd : d.ticks ≤ DateTime.maxTicks) (h : WholeMinutes offset)
    (hlo : 0 ≤ (d.ticks : ℤ) - offset.ticks.toInt)
    (hhi : (d.ticks : ℤ) - offset.ticks.toInt ≤ DateTime.maxTicks) :
    (valueOf d offset).InRange where
  clock_le := by
    rw [valueOf, ticks_packed d.ticks_lt (by decide)]
    exact hd
  unspecified := kindBits_packed d.ticks_lt (by decide)
  offset := h
  utc_nonneg := by rwa [utcTicks_valueOf]
  utc_le := by rwa [utcTicks_valueOf]

theorem eq_valueOf (h : x.InRange) : x = valueOf x.dateTime_ x.offset_ := by
  have hclock := DateTimeRoundTrip.eq_packed x.dateTime_
  rw [h.unspecified] at hclock
  cases x
  exact congrArg (mk · _) hclock

theorem specifyUnspecified (hd : d.ticks ≤ DateTime.maxTicks) :
    d.specifyKind .unspecified = pure (packed d.ticks 0) :=
  specifyKind_eq hd (by decide)

variable (l : Int64) (styles : DateTimeStyles) (input : List Char)

/-- The constructor returns the value it is given, in range, or throws. -/
theorem ofDateTimeOffset_ensures (hd : d.ticks ≤ DateTime.maxTicks) (offset : TimeSpan) :
    (ofDateTimeOffset l d offset).Ensures fun y => y.InRange ∧ y = valueOf d offset := by
  refine Run.Ensures.ite (fun _ => Run.Ensures.throwing _) fun _ => ?_
  refine Run.Ensures.ite (fun _ => Run.Ensures.throwing _) fun _ => ?_
  rw [validateOffsetAndRange, bind_assoc]
  refine Run.Ensures.bind (validateOffset_ensures offset) fun _ hoffset => ?_
  refine Run.Ensures.bind (validateUtcRange_ensures hd hoffset) fun _ hutc => ?_
  rw [specifyUnspecified hd, pure_bind]
  exact Run.Ensures.pure ⟨inRange_valueOf hd hoffset hutc.1 hutc.2, rfl⟩

theorem ofDateTimeOffset_ok (hd : d.ticks ≤ DateTime.maxTicks) (hkind : d.kindBits = 0)
    (hoffset : WholeMinutes offset) (hlo : 0 ≤ (d.ticks : ℤ) - offset.ticks.toInt)
    (hhi : (d.ticks : ℤ) - offset.ticks.toInt ≤ DateTime.maxTicks) :
    ofDateTimeOffset l d offset = pure (valueOf d offset) := by
  have hunspecified : d.getKindProperty = DateTimeKind.unspecified :=
    (getKindProperty_eq d (Nat.zero_le 2)).mpr (by omega)
  have hlocal : DateTimeKind.unspecified ≠ DateTimeKind.local_ := by decide
  have hutc : DateTimeKind.unspecified ≠ DateTimeKind.utc := by decide
  rw [ofDateTimeOffset, hunspecified, if_neg fun h => hlocal h.1, if_neg fun h => hutc h.1,
    validateOffsetAndRange, validateOffset_ok hoffset, pure_bind,
    validateUtcRange_ok hd hoffset hlo hhi, pure_bind, specifyUnspecified hd, pure_bind]
  rfl

theorem ofDateTime_ensures (hd : d.ticks ≤ DateTime.maxTicks) :
    (ofDateTime l d).Ensures InRange := by
  have hpacked : (packed d.ticks 0).ticks = d.ticks := ticks_packed d.ticks_lt (by decide)
  have hle : (packed d.ticks 0).ticks ≤ DateTime.maxTicks := hpacked.trans_le hd
  rw [ofDateTime, specifyUnspecified hd, pure_bind]
  dsimp only
  generalize (if d.getKindProperty = DateTimeKind.utc then (⟨0⟩ : TimeSpan) else ⟨l⟩) = offset
  rw [validateOffsetAndRange, bind_assoc]
  refine Run.Ensures.bind (validateOffset_ensures offset) fun _ hoffset => ?_
  refine Run.Ensures.bind (validateUtcRange_ensures hle hoffset) fun _ hutc => ?_
  rw [hpacked] at hutc
  exact Run.Ensures.pure (inRange_valueOf hd hoffset hutc.1 hutc.2)

theorem construct_ensures {kind : ℕ} {clock : Run Exception DateTime}
    (hclock : clock.Ensures (HasKind kind)) (offset : TimeSpan) :
    (clock >>= fun clock => ofDateTimeOffset l clock offset).Ensures InRange :=
  Run.Ensures.bind hclock fun _ hd => (ofDateTimeOffset_ensures l hd.1 offset).mono fun _ h => h.1

theorem ofTicks_ensures (ticks : ℤ) (offset : TimeSpan) :
    (ofTicks l ticks offset).Ensures InRange := by
  exact Run.Ensures.bind (validateOffset_ensures offset) fun _ _ =>
    construct_ensures l (DateTimeInvariant.ofTicks_ensures ticks) offset

theorem ofComponents_ensures (year month day : ℤ) {hour minute second millisecond : ℤ}
    (hh : IsInt hour) (hm : IsInt minute) (hs : IsInt second) (hms : IsInt millisecond)
    (offset : TimeSpan) :
    (ofComponents l year month day hour minute second millisecond offset).Ensures InRange := by
  exact Run.Ensures.bind (validateOffset_ensures offset) fun _ _ =>
    construct_ensures l (DateTimeInvariant.ofComponents_ensures hh hm hs hms) offset

theorem inRange_default : default.InRange :=
  ⟨by decide, by decide, wholeMinutes_zero, by decide, by decide⟩

theorem inRange_minValue : minValue.InRange :=
  ⟨by decide, by decide, wholeMinutes_zero, by decide, by decide⟩

theorem interval_ensures (value scale : Float) :
    (TimeSpan.interval value scale).Ensures fun _ => True := by
  refine Run.Ensures.ite (fun _ => Run.Ensures.throwing _) fun _ => ?_
  refine Run.Ensures.ite (fun _ => Run.Ensures.throwing _) fun _ => ?_
  exact Run.Ensures.ite (fun _ => Run.Ensures.pure trivial) fun _ => Run.Ensures.pure trivial

theorem fromMinutes_eq {k : ℤ} (hlo : -840 ≤ k) (hhi : k ≤ 840) :
    TimeSpan.fromMinutes (Binary64.ofInt k) = pure ⟨Int64.ofInt (k * TimeSpan.ticksPerMinute)⟩ := by
  have hminute : (TimeSpan.ticksPerMinute : ℤ) = 600000000 := rfl
  have hk : |k| < 2 ^ 53 := by
    rw [abs_lt]
    constructor <;> omega
  have hproduct : |k * TimeSpan.ticksPerMinute| < 2 ^ 53 := by
    rw [abs_lt, hminute]
    constructor <;> omega
  have hmul := Binary64.ofInt_mul (a := k) (b := TimeSpan.ticksPerMinute) (by decide) (by decide)
    hproduct
  obtain ⟨hnumber, -⟩ := Binary64.ofInt_inside hk
  obtain ⟨hnan, hupper, hlower, hbound⟩ := Binary64.ofInt_inside hproduct
  rw [TimeSpan.fromMinutes, TimeSpan.interval, if_neg (by rw [hnumber]; decide), hmul,
    TimeSpan.intervalFromDoubleTicks, if_neg, if_neg (by rw [hbound]; decide),
    Binary64.toInt64_ofInt hproduct]
  rintro (h | h | h)
  · rw [hnan] at h
    cases h
  · exact hupper h
  · exact hlower h

theorem getUtcTicksProperty_eq (hx : x.InRange) : x.getUtcTicksProperty = pure x.utcTicks :=
  utc_signed hx.clock_le hx.offset

theorem add_ensures (x : DateTimeOffset) (ts : TimeSpan) : (x.add l ts).Ensures InRange :=
  construct_ensures l (addTicks_ensures _ _) _

theorem addInterval_ensures (x : DateTimeOffset) (value scale : Float) :
    (TimeSpan.interval value scale >>= fun ts => x.add l ts).Ensures InRange :=
  Run.Ensures.bind (interval_ensures value scale) fun ts _ => add_ensures l x ts

theorem subtract_ensures (x : DateTimeOffset) (ts : TimeSpan) :
    (x.subtract l ts).Ensures InRange := by
  rw [subtract, subtract_eq]
  exact construct_ensures l (sumOrThrow_ensures _ _) _

theorem toOffset_ensures (hx : x.InRange) (offset : TimeSpan) :
    (x.toOffset l offset).Ensures fun y =>
      y.InRange ∧ y.offset_ = offset ∧ y.utcTicks = x.utcTicks := by
  obtain ⟨utc, hutc⟩ := Int.eq_ofNat_of_zero_le hx.utc_nonneg
  have hle : utc ≤ DateTime.maxTicks := by
    have := hx.utc_le
    omega
  have hlt := lt_of_le_of_lt hle maxTicks_lt
  rw [toOffset, getUtcTicksProperty_eq hx, pure_bind, hutc, ofTicks_eq hle, pure_bind, add_eq,
    sumOrThrow]
  split
  case isTrue hsum =>
    have hmax := maxTicks_lt
    rw [ticks_packed hlt (by decide)] at hsum ⊢
    have hclock : (packed ((utc : ℤ) + offset.ticks.toInt).toNat (packed utc 0).kindBits).ticks =
        ((utc : ℤ) + offset.ticks.toInt).toNat := ticks_packed (by omega) (DateTime.kindBits_lt _)
    rw [pure_bind]
    refine (ofDateTimeOffset_ensures l (hclock.trans_le (by omega)) offset).mono ?_
    rintro _ ⟨hin, rfl⟩
    refine ⟨hin, rfl, ?_⟩
    rw [utcTicks_valueOf, hclock]
    omega
  case isFalse => exact Run.Ensures.throwing _

theorem toUniversalTime_ensures (hx : x.InRange) : (x.toUniversalTime l).Ensures InRange := by
  rw [toUniversalTime, getUtcDateTimeProperty, getUtcTicksProperty_eq hx, pure_bind]
  exact Run.Ensures.bind (ofTicksKind_ensures _ _) fun _ hd =>
    (ofDateTimeOffset_ensures l hd.1.1 _).mono fun _ h => h.1

theorem toLocalTime_ensures (hx : x.InRange) : (x.toLocalTime l).Ensures InRange := by
  rw [toLocalTime, getUtcTicksProperty_eq hx, pure_bind]
  exact construct_ensures l (DateTimeInvariant.ofTicks_ensures _) _

/-- The two units of Unix time. -/
structure UnixUnit (unit : ℕ) : Prop where
  pos : 0 < unit
  dvd : unit ∣ unixEpochTicks

theorem unixUnit_second : UnixUnit DateTime.ticksPerSecond := ⟨by decide, by decide⟩

theorem unixUnit_millisecond : UnixUnit DateTime.ticksPerMillisecond := ⟨by decide, by decide⟩

variable {unit : ℕ}

theorem toUnixTime_eq (hunit : UnixUnit unit) (hx : x.InRange) :
    x.toUnixTime unit = pure ((x.utcTicks - unixEpochTicks) / unit) := by
  obtain ⟨epoch, hepoch⟩ := hunit.dvd
  have hpos : (0 : ℤ) < unit := by exact_mod_cast hunit.pos
  have hnonneg := hx.utc_nonneg
  have hle := hx.utc_le
  have hquotient : unixEpochTicks / unit = epoch := by
    rw [hepoch, Nat.mul_div_cancel_left _ hunit.pos]
  have hdiv : (x.utcTicks - unixEpochTicks) / unit = x.utcTicks / unit - epoch := by
    rw [hepoch, Nat.cast_mul, sub_eq_add_neg, ← mul_neg, Int.add_mul_ediv_left _ _ hpos.ne']
    rfl
  have hquotient_nonneg := Int.ediv_nonneg hnonneg hpos.le
  have hquotient_le := Int.ediv_le_self (unit : ℤ) hnonneg
  have hepoch_le : epoch ≤ unixEpochTicks := hquotient ▸ Nat.div_le_self _ _
  have hmax : DateTime.maxTicks < 2 ^ 62 := maxTicks_lt
  have hunix : unixEpochTicks < 2 ^ 62 := by decide
  rw [toUnixTime, getUtcTicksProperty_eq hx, pure_bind, Int.tdiv_eq_ediv_of_nonneg hnonneg,
    hquotient, hdiv]
  exact Run.signed_eq_pure (by decide) (by omega) (by omega)

theorem fromUnixTime_ensures (paramName : String) (hunit : UnixUnit unit) (value : ℤ) :
    (fromUnixTime l paramName unit value).Ensures fun y =>
      y.InRange ∧ y.utcTicks = value * unit + unixEpochTicks := by
  obtain ⟨epoch, hepoch⟩ := hunit.dvd
  have hquotient : unixEpochTicks / unit = epoch := by
    rw [hepoch, Nat.mul_div_cancel_left _ hunit.pos]
  have hmax : DateTime.maxTicks < 2 ^ 62 := maxTicks_lt
  have hunix : unixEpochTicks < 2 ^ 62 := by decide
  refine Run.Ensures.ite (fun _ => Run.Ensures.throwing _) fun hrange => ?_
  obtain ⟨units, hunits⟩ := Int.eq_ofNat_of_zero_le (show 0 ≤ value + epoch by omega)
  have hunits_le : units ≤ DateTime.maxTicks / unit := by omega
  have hticks : value * unit + unixEpochTicks = (units * unit : ℕ) := by
    rw [hepoch, Nat.cast_mul, Nat.cast_mul, ← hunits, add_mul, mul_comm (unit : ℤ)]
  have hticks_le : units * unit ≤ DateTime.maxTicks := (Nat.le_div_iff_mul_le hunit.pos).mp hunits_le
  rw [Run.signed_eq_pure (by decide) (by omega) (by omega), pure_bind, hticks,
    Run.signed_eq_pure (by decide) (by omega) (by omega), pure_bind, ofTicks_eq hticks_le, pure_bind]
  have hclock : (packed (units * unit) 0).ticks = units * unit :=
    ticks_packed (lt_of_le_of_lt hticks_le maxTicks_lt) (by decide)
  refine (ofDateTimeOffset_ensures l (hclock.trans_le hticks_le) _).mono ?_
  rintro _ ⟨hin, rfl⟩
  refine ⟨hin, ?_⟩
  rw [utcTicks_valueOf, hclock]
  exact sub_zero _

theorem toUnixTime_fromUnixTime {l : Int64} {paramName : String} (hunit : UnixUnit unit)
    {value : ℤ} (hmade : (fromUnixTime l paramName unit value).outcome = .returned x) :
    x.toUnixTime unit = pure value := by
  obtain ⟨y, hy, hin, hutc⟩ | ⟨e, hthrown⟩ := fromUnixTime_ensures l paramName hunit value
  · rw [hy] at hmade
    cases hmade
    have hpos : (unit : ℤ) ≠ 0 := by exact_mod_cast hunit.pos.ne'
    rw [toUnixTime_eq hunit hin, hutc, add_sub_cancel_right, Int.mul_ediv_cancel _ hpos]
  · rw [hthrown] at hmade
    cases hmade

theorem takeOffset_pure (text : List Char) : ∃ o, takeOffset l text = pure o := by
  rw [takeOffset]
  split
  · exact ⟨_, rfl⟩
  split
  · exact ⟨_, rfl⟩
  split
  · exact ⟨_, rfl⟩
  split
  · exact ⟨_, rfl⟩
  case isFalse minutes _ _ hrange =>
    rw [fromMinutes_eq (by omega) (by omega), pure_bind]
    exact ⟨_, rfl⟩

theorem clockOfParts_pure {text rest : List Char} {parts : DateTime.DateTimeParts}
    (h : DateTime.takeDateTimeParts text = some (parts, rest)) :
    ∃ o, clockOfParts parts = pure o ∧ ∀ dt ∈ o, HasKind 0 dt := by
  obtain ⟨hhour, hminute, hsecond, -⟩ := takeDateTimeParts_short h
  have hint : ∀ {n : ℕ}, n < 100 → IsInt (n : ℤ) := fun h => ⟨by omega, by omega⟩
  refine Run.Ensures.catching ?_ fun dt hdt => nomatch hdt
  refine Run.Ensures.bind (DateTimeInvariant.ofComponents_ensures (hint hhour) (hint hminute)
    (hint hsecond) isInt_zero) fun dt hdt => ?_
  refine Run.Ensures.bind (addTicks_ensures dt _) fun sum hsum => Run.Ensures.pure ?_
  rintro _ ⟨⟩
  exact ⟨hsum.1, hsum.2.trans hdt.2⟩

theorem tryParse_pure (s : List Char) :
    ∃ r, tryParse l s = pure r ∧ r.2.InRange := by
  rw [tryParse, parseParts]
  split
  · exact ⟨_, rfl, inRange_minValue⟩
  case h_2 parts text hparts =>
    obtain ⟨taken, htaken⟩ := takeOffset_pure l text
    obtain ⟨clock, hclock, hkind⟩ := clockOfParts_pure hparts
    rw [htaken, pure_bind]
    cases taken with
    | none => exact ⟨_, rfl, inRange_minValue⟩
    | some taken =>
      obtain ⟨offset, rest⟩ := taken
      dsimp only
      split
      · rw [pure_bind]
        dsimp only
        rw [hclock, pure_bind]
        cases clock with
        | none => exact ⟨_, rfl, inRange_minValue⟩
        | some dt =>
          exact Run.Ensures.catching (Run.Ensures.bind
            (ofDateTimeOffset_ensures l (hkind dt rfl).1 offset) fun y hy => Run.Ensures.pure hy.1)
            inRange_minValue
      · exact ⟨_, rfl, inRange_minValue⟩

def ParsesInRange (parse : Run Exception (Option DateTimeOffset)) : Prop :=
  parse.Ensures fun o => ∀ y ∈ o, y.InRange

theorem parsesInRange_none : ParsesInRange (pure none) :=
  Run.Ensures.pure fun _ hy => nomatch hy

theorem parsesInRange_some {run : Run Exception DateTimeOffset} (h : run.Ensures InRange) :
    ParsesInRange (some <$> run) :=
  h.map fun _ hy _ hz => Option.mem_some_iff.mp hz ▸ hy

theorem offsetOfFields_ensures (zone : Option ILocalTimeZone)
    (fields : ExactDateTimeFields) (candidate : DateTime) :
    (offsetOfFields styles zone fields candidate).Ensures fun _ => True := by
  refine Run.Ensures.ite (fun _ => ?_) fun _ => ?_
  · refine Run.Ensures.ite (fun _ => Run.Ensures.pure trivial) fun _ => ?_
    exact (interval_ensures _ _).map fun _ _ => trivial
  · refine Run.Ensures.ite (fun _ => Run.Ensures.pure trivial) fun _ => ?_
    cases zone with
    | none => exact Run.Ensures.throwing _
    | some zone => exact Run.Ensures.pure trivial

theorem valueOfOffset_parses {candidate : DateTime}
    (hd : candidate.ticks ≤ DateTime.maxTicks) (offset : TimeSpan) :
    ParsesInRange (valueOfOffset l styles candidate offset) := by
  refine Run.Ensures.ite (fun _ => parsesInRange_none) fun _ => ?_
  refine Run.Ensures.ite (fun _ => parsesInRange_none) fun _ => ?_
  refine Run.Ensures.ite (fun _ => ?_) fun _ => ?_
  · exact Run.Ensures.bind (DateTimeInvariant.ofTicks_ensures _) fun _ hclock =>
      parsesInRange_some ((ofDateTimeOffset_ensures l hclock.1 _).mono fun _ h => h.1)
  · exact parsesInRange_some ((ofDateTimeOffset_ensures l hd _).mono fun _ h => h.1)

theorem parseExactCore_parses (format : List Char)
    (provider : Option DateTimeFormatInfo) (styles : DateTimeStyles) (zone : Option ILocalTimeZone) :
    ParsesInRange (parseExactCore l input format provider styles zone) := by
  rw [parseExactCore]
  split
  · exact parsesInRange_none
  case h_2 fields _ =>
    refine Run.Ensures.bind (candidateOfFields_ensures fields) fun o ho => ?_
    cases o with
    | none => exact parsesInRange_none
    | some candidate =>
      refine Run.Ensures.bind (offsetOfFields_ensures styles zone fields candidate) fun o _ => ?_
      cases o with
      | none => exact parsesInRange_none
      | some offset => exact valueOfOffset_parses l styles (ho candidate rfl).1 offset

theorem validateStyles_ensures : (validateDateTimeOffsetStyles styles).Ensures fun _ => True := by
  refine Run.Ensures.ite (fun _ => Run.Ensures.throwing _) fun _ => ?_
  exact Run.Ensures.ite (fun _ => Run.Ensures.throwing _) fun _ => Run.Ensures.pure trivial

variable {result : DateTimeOffset}

theorem withStyles_leaves {styles : DateTimeStyles}
    (hresult : result.InRange) {parse : DateTimeStyles → Run Exception (Option DateTimeOffset)}
    (hparse : ∀ styles, ParsesInRange (parse styles)) :
    (withStyles styles result parse).1.Ensures (fun _ => True) ∧
      (withStyles styles result parse).2.InRange := by
  rw [withStyles]
  obtain ⟨styles', hstyles, -⟩ | ⟨e, hstyles⟩ := validateStyles_ensures styles
  · rw [hstyles]
    obtain ⟨o, ho, hin⟩ | ⟨e, he⟩ := hparse styles'
    · simp only [Run.outcome_pure, ho]
      refine ⟨Run.Ensures.pure trivial, ?_⟩
      cases o with
      | none => exact inRange_default
      | some value => exact hin value rfl
    · simp only [Run.outcome_pure, he, Run.outcome_throwing]
      exact ⟨Run.Ensures.throwing e, inRange_default⟩
  · rw [hstyles]
    exact ⟨Run.Ensures.throwing e, hresult⟩

/-- By induction on the formats. -/
theorem firstOf_parses {tryOne : List Char → Run Exception (Option DateTimeOffset)}
    (htry : ∀ format, ParsesInRange (tryOne format)) (formats : List (List Char)) :
    ParsesInRange (firstOf tryOne formats) := by
  induction formats with
  | nil => exact parsesInRange_none
  | cons format formats ih =>
    refine Run.Ensures.ite (fun _ => parsesInRange_none) fun _ => ?_
    refine Run.Ensures.bind (htry format) fun o ho => ?_
    cases o with
    | none => exact ih
    | some value => exact Run.Ensures.pure ho

theorem tryParseExact_leaves (format : List Char)
    (provider : Option DateTimeFormatInfo) (styles : DateTimeStyles)
    (hresult : result.InRange) (zone : Option ILocalTimeZone) :
    (tryParseExact l input format provider styles result zone).1.Ensures
        (fun _ => True) ∧
      (tryParseExact l input format provider styles result zone).2.InRange :=
  withStyles_leaves hresult fun styles => parseExactCore_parses l input format provider styles zone

theorem tryParseExactMany_leaves (formats : List (List Char))
    (provider : Option DateTimeFormatInfo) (styles : DateTimeStyles)
    (hresult : result.InRange) (zone : Option ILocalTimeZone) :
    (tryParseExactMany l input formats provider styles result zone).1.Ensures (fun _ => True) ∧
      (tryParseExactMany l input formats provider styles result zone).2.InRange := by
  refine withStyles_leaves hresult fun styles => ?_
  refine Run.Ensures.ite (fun _ => parsesInRange_none) fun _ => ?_
  refine firstOf_parses (fun format => ?_) formats
  obtain ⟨hrun, hin⟩ :=
    tryParseExact_leaves l input format provider styles inRange_default zone
  refine Run.Ensures.bind hrun fun matched _ => Run.Ensures.pure fun y hy => ?_
  split at hy
  · exact Option.mem_some_iff.mp hy ▸ hin
  · cases hy

theorem evaluate_ensures {op : OffsetOperation} (hdate : ∀ d ∈ op.dateTime, d.Valid)
    (hreceiver : ∀ y ∈ op.receiver, y.InRange) : (op.evaluate l).Ensures InRange := by
  cases op with
  | default => exact Run.Ensures.pure inRange_default
  | ofDateTimeOffset d offset =>
    exact (ofDateTimeOffset_ensures l (hdate d rfl).ticks_le offset).mono fun _ h => h.1
  | ofDateTime d => exact ofDateTime_ensures l (hdate d rfl).ticks_le
  | ofTicks ticks offset => exact ofTicks_ensures l _ offset
  | ofComponents y mo d h mi s offset =>
    exact ofComponents_ensures l _ _ _ (isInt_toInt h) (isInt_toInt mi) (isInt_toInt s) isInt_zero
      offset
  | ofComponentsMillisecond y mo d h mi s ms offset =>
    exact ofComponents_ensures l _ _ _ (isInt_toInt h) (isInt_toInt mi) (isInt_toInt s)
      (isInt_toInt ms) offset
  | toOffset x offset => exact (toOffset_ensures l (hreceiver x rfl) offset).mono fun _ h => h.1
  | toUniversalTime x => exact toUniversalTime_ensures l (hreceiver x rfl)
  | toLocalTime x => exact toLocalTime_ensures l (hreceiver x rfl)
  | add x ts => exact add_ensures l x ts
  | addDays x days => exact addInterval_ensures l x _ _
  | addHours x hours => exact addInterval_ensures l x _ _
  | addMinutes x minutes => exact addInterval_ensures l x _ _
  | addSeconds x seconds => exact addInterval_ensures l x _ _
  | addMilliseconds x ms => exact addInterval_ensures l x _ _
  | addMonths x months =>
    exact construct_ensures l (months_ensures (addMonths_exact (hreceiver x rfl).clock_le _)) _
  | addYears x years =>
    exact construct_ensures l (months_ensures (addYears_exact (hreceiver x rfl).clock_le _)) _
  | addTicks x ticks => exact construct_ensures l (addTicks_ensures _ _) _
  | subtract x ts => exact subtract_ensures l x ts
  | fromUnixTimeSeconds seconds =>
    exact (fromUnixTime_ensures l _ unixUnit_second _).mono fun _ h => h.1
  | fromUnixTimeMilliseconds milliseconds =>
    exact (fromUnixTime_ensures l _ unixUnit_millisecond _).mono fun _ h => h.1
  | tryParse text =>
    obtain ⟨r, hr, hin⟩ := tryParse_pure l text
    rw [OffsetOperation.evaluate, hr]
    exact Run.Ensures.pure hin
  | tryParseExact input format provider styles result zone =>
    obtain ⟨hrun, hin⟩ :=
      tryParseExact_leaves l input format provider styles (hreceiver result rfl) zone
    exact Run.Ensures.bind hrun fun _ _ => Run.Ensures.pure hin
  | tryParseExactMany input formats provider styles result zone =>
    obtain ⟨hrun, hin⟩ :=
      tryParseExactMany_leaves l input formats provider styles (hreceiver result rfl) zone
    exact Run.Ensures.bind hrun fun _ _ => Run.Ensures.pure hin

theorem exactParse_leaves {l : Int64} {op : OffsetOperation} (hreceiver : ∀ y ∈ op.receiver, y.InRange)
    {run : Run Exception Bool} (hparse : op.exactParse l = some (run, x)) : x.InRange := by
  cases op with
  | tryParseExact input format provider styles result zone =>
    have hleaves := tryParseExact_leaves l input format provider styles (hreceiver result rfl) zone
    rw [Option.some.inj hparse] at hleaves
    exact hleaves.2
  | tryParseExactMany input formats provider styles result zone =>
    have hleaves := tryParseExactMany_leaves l input formats provider styles (hreceiver result rfl) zone
    rw [Option.some.inj hparse] at hleaves
    exact hleaves.2
  | _ => cases hparse

/-- Every value a caller can hold is in range.  By induction on how it was made. -/
theorem inRange_of_produced (hx : Produced x) : x.InRange := by
  induction hx with
  | returned l op hdate _ hreturn ih =>
    obtain ⟨y, hy, hin⟩ | ⟨e, he⟩ := (evaluate_ensures l hdate ih).outcome
    · grind
    · rw [he] at hreturn
      cases hreturn
  | left l op _ hparse ih => exact exactParse_leaves ih hparse

end SharpRuntime.Analysis.DateTimeOffsets
