import SharpRuntime.Analysis.DateTimeArithmetic

/-!
# The packed state of every reachable `DateTime`

Whatever a program does with the constructors, the arithmetic, the conversions and the parsers,
every variable holds a tick count in range below a declared kind (`valid_run`): each operation
returns a valid value or throws (`evaluate_ensures`), for what a parser reads is checked before it
is packed.
-/

set_option autoImplicit false

namespace SharpRuntime.Analysis.DateTimeInvariant

open Machine Machine.Gregorian Model Model.DateTime Interface
open DateTimeCalendar DateTimeArithmetic

/-! ## Contracts of the operations -/

def HasKind (kind : ℕ) (y : DateTime) : Prop := y.ticks ≤ maxTicks ∧ y.kindBits = kind

variable {kind : ℕ}

theorem HasKind.valid {y : DateTime} (h : HasKind kind y) (hk : kind ≤ 2) : y.Valid :=
  ⟨h.1, by rw [h.2]; exact hk⟩

variable {k : ℕ}

variable {n : ℕ}

theorem hasKind_packed (hn : n ≤ maxTicks) (hk : k < 4) : HasKind k (packed n k) := by
  have hlt : n < 2 ^ 62 := lt_of_le_of_lt hn maxTicks_lt
  exact ⟨by rw [ticks_packed hlt hk]; exact hn, kindBits_packed hlt hk⟩

theorem ensures_packed (hn : n ≤ maxTicks) (hk : k < 4) :
    (pure (packed n k) : Run Exception DateTime).Ensures (HasKind k) :=
  Run.Ensures.pure (hasKind_packed hn hk)

theorem ofTicks_ensures (t : ℤ) : (ofTicks t).Ensures (HasKind 0) := by
  by_cases h : t < 0 ∨ t > maxTicks
  · rw [ofTicks, if_pos h]
    exact Run.Ensures.throwing _
  · lift t to ℕ using by omega
    rw [ofTicks_eq (by omega)]
    exact ensures_packed (by omega) (by decide)

theorem ofTicksKind_ensures (t : ℤ) (kind : DateTimeKind) :
    (ofTicksKind t kind).Ensures fun y => HasKind kind.raw.toNat y ∧ kind.raw.toNat ≤ 2 := by
  by_cases h : t < 0 ∨ t > maxTicks
  · rw [ofTicksKind, if_pos h]
    exact Run.Ensures.throwing _
  · lift t to ℕ using by omega
    by_cases hkind : kind.raw.toNat ≤ 2
    · rw [ofTicksKind_eq (by omega) hkind]
      exact Run.Ensures.pure ⟨hasKind_packed (by omega) (by omega), hkind⟩
    · have hbad : kind.raw > DateTimeKind.local_.raw := by
        change 2 < kind.raw.toNat
        omega
      rw [ofTicksKind, if_neg h, throwIfInvalidKind, if_pos hbad]
      exact Run.Ensures.throwing _

theorem specifyKind_ensures (x : DateTime) (kind : DateTimeKind) :
    (specifyKind x kind).Ensures fun y => HasKind kind.raw.toNat y ∧ kind.raw.toNat ≤ 2 := by
  unfold specifyKind throwIfInvalidKind
  split
  case isTrue h => exact Run.Ensures.throwing _
  case isFalse h => exact ofTicksKind_ensures _ kind

theorem sumOrThrow_ensures (x : DateTime) (sum : ℤ) :
    (sumOrThrow x sum).Ensures (HasKind x.kindBits) := by
  unfold sumOrThrow
  split
  case isTrue h => exact ensures_packed (by omega) x.kindBits_lt
  case isFalse h => exact Run.Ensures.throwing _

theorem addTicks_ensures (x : DateTime) (value : ℤ) :
    (x.addTicks value).Ensures (HasKind x.kindBits) := by
  unfold addTicks
  generalize BitVec.ofNat 64 x.ticks + BitVec.ofInt 64 value = w
  have hw : w = BitVec.ofInt 64 (w.toNat : ℤ) := by
    rw [BitVec.ofInt_natCast, BitVec.ofNat_toNat, BitVec.setWidth_eq]
  rw [checked_eq x hw (by omega) (by omega)]
  exact sumOrThrow_ensures x _

variable {x : DateTime}

theorem months_ensures {months : ℤ} {r : Run Exception DateTime}
    (h : MonthsExact x months r) : r.Ensures (HasKind x.kindBits) := by
  rcases h with ⟨d, -, hyear, rfl⟩ | ⟨-, e, rfl⟩
  · exact ensures_packed (ticksOfDay_le hyear x.ticks) x.kindBits_lt
  · exact Run.Ensures.throwing e

theorem toLocalTime_ensures (hx : x.Valid) (zone : ILocalTimeZone) :
    (x.toLocalTime zone).Ensures (HasKind 2) := by
  have hkind := hx.kindBits_le
  rw [toLocalTime_eq hx.ticks_le]
  split
  case isTrue h => exact Run.Ensures.pure ⟨hx.ticks_le, by omega⟩
  case isFalse h => exact ensures_packed (clamp_le _) (by decide)

theorem toUniversalTime_ensures (hx : x.ticks ≤ maxTicks) (zone : ILocalTimeZone) :
    (x.toUniversalTime zone).Ensures (HasKind 1) := by
  rw [toUniversalTime_eq hx]
  split
  case isTrue h => exact Run.Ensures.pure ⟨hx, h⟩
  case isFalse h => exact ensures_packed (clamp_le _) (by decide)

/-! ## Component constructors -/

def IsInt (n : ℤ) : Prop := -2 ^ 31 ≤ n ∧ n < 2 ^ 31

variable {n : ℤ}

theorem wrap_int_lt (h : IsInt n) (bound : ℕ) (hb : bound ≤ 2 ^ 31)
    (hw : wrap 32 n < bound) : 0 ≤ n ∧ n < bound := by
  obtain ⟨hlo, hhi⟩ := h
  unfold wrap at hw
  omega

variable {year month day : ℤ}

theorem table_day_le (hy : ¬ (year < 1 ∨ year > 9999 ∨ month < 1 ∨ month > 12 ∨
    day < 1)) (hday : ¬ day > (((if isLeap year then daysToMonth366 else daysToMonth365).getD
      month.toNat 0 : ℕ) : ℤ) - ((if isLeap year then daysToMonth366 else daysToMonth365).getD
      (month - 1).toNat 0 : ℕ)) :
    ∃ d : Date, d.year ≤ 9999 ∧ year = d.year ∧ month = d.month ∧ day = d.day := by
  lift year to ℕ using by omega
  lift month to ℕ using by omega
  lift day to ℕ using by omega
  have hprev : ((month : ℤ) - 1).toNat = month - 1 := by omega
  have hstart := daysToMonth_getD year month (by omega) (by omega)
  have hnext := daysToMonth_getD year (month + 1) (by omega) (by omega)
  rw [Nat.add_sub_cancel, daysBeforeMonth_succ year (by omega)] at hnext
  rw [isLeap_natCast, Int.toNat_natCast, hprev, hstart, hnext] at hday
  exact ⟨⟨year, month, day, by omega, by omega, by omega, by omega, by omega⟩,
    by simp only; omega, rfl, rfl, rfl⟩

variable {hour minute second millisecond : ℤ}

theorem dateToTicks_cases (year month day : ℤ)
    (hh : IsInt hour) (hm : IsInt minute) (hs : IsInt second) (hms : IsInt millisecond) :
    (∃ e, dateToTicks year month day hour minute second millisecond = Run.throwing e) ∨
    ∃ (d : Date) (h m s ms : ℕ), d.year ≤ 9999 ∧ h < 24 ∧ m < 60 ∧ s < 60 ∧ ms < 1000 ∧
      millisecond = ms ∧
      dateToTicks year month day hour minute second millisecond = pure (ticksOf d h m s ms : ℤ) := by
  by_cases hrange : year < 1 ∨ year > 9999 ∨ month < 1 ∨ month > 12 ∨ day < 1
  · left
    rw [dateToTicks, if_pos hrange]
    exact ⟨_, rfl⟩
  by_cases hday : day > (((if isLeap year then daysToMonth366 else daysToMonth365).getD
      month.toNat 0 : ℕ) : ℤ) - ((if isLeap year then daysToMonth366 else daysToMonth365).getD
      (month - 1).toNat 0 : ℕ)
  · left
    rw [dateToTicks, if_neg hrange]
    rw [if_pos hday]
    exact ⟨_, rfl⟩
  by_cases htime : wrap 32 hour ≥ 24 ∨ wrap 32 minute ≥ 60 ∨ wrap 32 second ≥ 60
  · left
    rw [dateToTicks, if_neg hrange]
    rw [if_neg hday, if_pos htime]
    exact ⟨_, rfl⟩
  by_cases hmilli : wrap 32 millisecond ≥ 1000
  · left
    rw [dateToTicks, if_neg hrange]
    rw [if_neg hday, if_neg htime, if_pos hmilli]
    exact ⟨_, rfl⟩
  right
  obtain ⟨d, hyear, rfl, rfl, rfl⟩ := table_day_le hrange hday
  obtain ⟨hh0, hh24⟩ := wrap_int_lt hh 24 (by decide) (by omega)
  obtain ⟨hm0, hm60⟩ := wrap_int_lt hm 60 (by decide) (by omega)
  obtain ⟨hs0, hs60⟩ := wrap_int_lt hs 60 (by decide) (by omega)
  obtain ⟨hms0, hms1000⟩ := wrap_int_lt hms 1000 (by decide) (by omega)
  lift hour to ℕ using hh0
  lift minute to ℕ using hm0
  lift second to ℕ using hs0
  lift millisecond to ℕ using hms0
  exact ⟨d, hour, minute, second, millisecond, hyear, by omega, by omega, by omega, by omega, rfl,
    dateToTicks_date hyear (by omega) (by omega) (by omega) (by omega)⟩

theorem ofComponents_ensures (hh : IsInt hour)
    (hm : IsInt minute) (hs : IsInt second) (hms : IsInt millisecond) :
    (ofComponents year month day hour minute second millisecond).Ensures (HasKind 0) := by
  rw [ofComponents]
  rcases dateToTicks_cases year month day hh hm hs hms with
    ⟨e, he⟩ | ⟨d, h, m, s, ms, hyear, hh', hm', hs', hms', -, heq⟩
  · rw [he]
    exact Run.Ensures.throwing e
  · have hle := ticksOf_le hyear hh' hm' hs' hms'
    rw [heq, pure_bind, BitVec.ofInt_natCast]
    have hpacked : (⟨BitVec.ofNat 64 (ticksOf d h m s ms)⟩ : DateTime) =
        packed (ticksOf d h m s ms) 0 := by
      rw [packed, Nat.zero_mul, Nat.zero_add]
    rw [hpacked]
    exact ensures_packed hle (by decide)

theorem isInt_toInt (n : Int32) : IsInt n.toInt := ⟨n.le_toInt, n.toInt_lt⟩

theorem isInt_zero : IsInt 0 := by
  constructor <;> decide

/-! ## Parsers -/

theorem scanDigits_lt (max acc count : ℕ) (text : List Char) :
    (scanDigits max acc count text).1 < (acc + 1) * 10 ^ max := by
  induction max, acc, count, text using scanDigits.induct with
  | case1 acc count text =>
    rw [scanDigits, pow_zero]
    omega
  | case2 max acc count =>
    exact Nat.lt_of_lt_of_le (Nat.lt_succ_self acc) (Nat.le_mul_of_pos_right _ (by positivity))
  | case3 max acc count c text hdigit ih =>
    have hd := Printed.charDigit_lt hdigit
    rw [scanDigits, if_pos hdigit]
    calc (scanDigits max (acc * 10 + Printed.charDigit c) (count + 1) text).1
        < (acc * 10 + Printed.charDigit c + 1) * 10 ^ max := ih
      _ ≤ ((acc + 1) * 10) * 10 ^ max := Nat.mul_le_mul_right _ (by omega)
      _ = (acc + 1) * 10 ^ (max + 1) := by ring
  | case4 max acc count c text hdigit =>
    rw [scanDigits, if_neg hdigit]
    exact Nat.lt_of_lt_of_le (Nat.lt_succ_self acc) (Nat.le_mul_of_pos_right _ (by positivity))

variable {v : ℕ} {text rest : List Char}

theorem takeDigits_lt {min max count : ℕ}
    (h : takeDigits min max text = some (v, count, rest)) : v < 10 ^ max := by
  have hlt := scanDigits_lt max 0 0 text
  simp only [takeDigits] at h
  split at h
  case isTrue hshort => cases h
  case isFalse hlong =>
    grind

/-- The clock fields of a general date and time are short numerals. -/
structure ShortParts (parts : DateTimeParts) : Prop where
  hour : parts.hour < 100
  minute : parts.minute < 100
  second : parts.second < 100
  fraction : parts.fractionTicks ≤ 10 ^ 14

variable {parts : DateTimeParts}

variable {parts' : DateTimeParts}

theorem takeFraction_short
    (hparts : ShortParts parts) (h : takeFraction text parts = some (parts', rest)) :
    ShortParts parts' := by
  unfold takeFraction at h
  split at h
  · grind
  · rename_i digits _
    cases hd : takeDigits 1 7 digits with
    | none =>
      rw [hd] at h
      cases h
    | some r =>
      obtain ⟨value, count, left⟩ := r
      rw [hd] at h
      simp only [Option.bind_eq_bind, Option.bind_some, Option.some.injEq, Prod.mk.injEq] at h
      rw [← h.1]
      refine ⟨hparts.hour, hparts.minute, hparts.second, ?_⟩
      have hvalue := takeDigits_lt hd
      calc value * 10 ^ (7 - count) ≤ 10 ^ 7 * 10 ^ 7 :=
            Nat.mul_le_mul hvalue.le (Nat.pow_le_pow_right (by decide) (by omega))
        _ = 10 ^ 14 := by decide

theorem takeTimeParts_short
    (hfraction : parts.fractionTicks = 0) (h : takeTimeParts text parts = some (parts', rest)) :
    ShortParts parts' := by
  simp only [takeTimeParts, Option.bind_eq_bind, Option.bind_eq_some_iff, Prod.exists] at h
  obtain ⟨hour, _, t1, hhour, t2, -, minute, _, t3, hminute, t4, -, second, _, t5, hsecond, h⟩ := h
  refine takeFraction_short ?_ h
  exact ⟨takeDigits_lt hhour, takeDigits_lt hminute, takeDigits_lt hsecond, by
    rw [hfraction]
    exact Nat.zero_le _⟩

theorem takeDateTimeParts_short
    (h : takeDateTimeParts text = some (parts, rest)) : ShortParts parts := by
  simp only [takeDateTimeParts, Option.bind_eq_bind, Option.bind_eq_some_iff, Prod.exists] at h
  obtain ⟨year, _, t1, -, t2, -, month, _, t3, -, t4, -, day, _, t5, -, h⟩ := h
  split at h
  · simp only [Option.some.injEq, Prod.mk.injEq] at h
    rw [← h.1]
    exact ⟨by simp, by simp, by simp, by simp⟩
  · exact takeTimeParts_short rfl h

theorem parseParts_short {s : List Char} (h : parseParts s = some parts) : ShortParts parts := by
  simp only [parseParts, Option.bind_eq_bind, Option.bind_eq_some_iff, Prod.exists] at h
  obtain ⟨parts', t, hparts, t', -, hend⟩ := h
  split at hend
  · rw [Option.some.injEq] at hend
    rw [← hend]
    exact takeDateTimeParts_short hparts
  · cases hend

theorem tryParse_ensures (s : List Char) :
    ∃ r, tryParse s = pure r ∧ HasKind 0 r.2 := by
  have hmin : HasKind 0 minValue := hasKind_packed (n := 0) (k := 0) (by decide) (by decide)
  unfold tryParse
  split
  case h_1 => exact ⟨_, rfl, hmin⟩
  case h_2 parts hparts =>
    obtain ⟨hhour, hminute, hsecond, hfraction⟩ := parseParts_short hparts
    refine Run.Ensures.catching ?_ hmin
    have hint : ∀ {n : ℕ}, n < 100 → IsInt (n : ℤ) := fun h => ⟨by omega, by omega⟩
    rcases dateToTicks_cases parts.year parts.month parts.day
      (hint hhour) (hint hminute) (hint hsecond) isInt_zero with
      ⟨e, he⟩ | ⟨d, h, m, sec, ms, hyear, hh, hm, hs, hms, -, heq⟩
    · rw [he]
      exact Run.Ensures.throwing e
    · have hle := ticksOf_le hyear hh hm hs hms
      have hlt := maxTicks_lt
      rw [heq, pure_bind, Run.signed_eq_pure (by decide) (by omega) (by omega), pure_bind]
      exact Run.Ensures.bind (ofTicks_ensures _) fun y hy => Run.Ensures.pure hy

theorem candidateOfFields_ensures (fields : ExactDateTimeFields) :
    (candidateOfFields fields).Ensures fun o => ∀ y, o = some y → HasKind 0 y := by
  have hnone : (pure none : Run Exception (Option DateTime)).Ensures
      fun o => ∀ y, o = some y → HasKind 0 y := Run.Ensures.pure fun y hy => by cases hy
  unfold candidateOfFields
  split
  case isTrue => exact hnone
  case isFalse =>
  split
  case isTrue => exact hnone
  case isFalse hyear =>
  split
  case isTrue => exact hnone
  case isFalse hmonth =>
  have hdim : daysInMonth fields.year fields.month =
      pure (monthLength fields.year.toNat fields.month.toNat : ℤ) := by grind [daysInMonth_eq]
  rw [hdim, pure_bind]
  split
  case isTrue => exact hnone
  case isFalse =>
  generalize (if fields.minute < 0 then 0 else fields.minute) = minute
  generalize (if fields.second < 0 then 0 else fields.second) = second
  cases hourOfFields fields with
  | none => exact hnone
  | some hour =>
  simp only
  split
  case isTrue => exact hnone
  case isFalse htime =>
  have hbuilt : (some <$> ofComponents fields.year fields.month fields.day hour minute second
      0).Ensures
        fun o => ∀ y, o = some y → HasKind 0 y := by
    refine Run.Ensures.map (ofComponents_ensures ⟨by omega, by omega⟩ ⟨by omega, by omega⟩
      ⟨by omega, by omega⟩ isInt_zero) fun y hy y' hy' => ?_
    grind
  obtain ⟨built, hb, hkind⟩ := Run.Ensures.catching hbuilt (a := none) fun y hy => by cases hy
  rw [hb, pure_bind]
  cases built with
  | none => exact hnone
  | some candidate =>
    have hcandidate := hkind candidate rfl
    have hadded : (addFraction candidate fields.fractionTicks).Ensures (HasKind 0) := by
      unfold addFraction
      split
      case isTrue =>
        have h := addTicks_ensures candidate fields.fractionTicks
        rwa [hcandidate.2] at h
      case isFalse => exact Run.Ensures.pure hcandidate
    refine Run.Ensures.bind hadded fun y hy => ?_
    split
    case isTrue => exact hnone
    case isFalse =>
      refine Run.Ensures.pure fun y' hy' => ?_
      grind

theorem requireZone_ensures (zone : Option ILocalTimeZone) (why : String) :
    (requireZone zone why).Ensures fun _ => True := by
  cases zone with
  | none => exact Run.Ensures.throwing _
  | some z => exact Run.Ensures.pure trivial

variable {styles : DateTimeStyles}

variable {fields : ExactDateTimeFields}

theorem adjustAssumed_ensures (hoffset : fields.hasOffset = false) (zone : Option ILocalTimeZone)
    (hx : HasKind 0 x) :
    (adjustAssumed styles zone x).Ensures (HasKind (Operation.requestedKind styles fields)) := by
  have hutc := specifyKind_ensures x DateTimeKind.utc
  have hlocal := specifyKind_ensures x DateTimeKind.local_
  unfold adjustAssumed Operation.requestedKind
  rw [hoffset]
  cases hal : styles.has .assumeLocal <;> cases hau : styles.has .assumeUniversal <;>
    cases hadj : styles.has .adjustToUniversal <;>
    simp only [if_true, if_false, Bool.false_eq_true, or_true, or_false]
  case false.false.false => exact Run.Ensures.pure hx
  case false.false.true => exact Run.Ensures.pure hx
  case false.true.false =>
    refine Run.Ensures.bind hutc fun y hy => ?_
    refine Run.Ensures.bind (requireZone_ensures _ _) fun z _ => ?_
    exact toLocalTime_ensures (hy.1.valid hy.2) z
  case false.true.true => exact hutc.mono fun y hy => hy.1
  case true.false.false => exact hlocal.mono fun y hy => hy.1
  case true.true.false => exact hlocal.mono fun y hy => hy.1
  all_goals
    refine Run.Ensures.bind hlocal fun y hy => ?_
    refine Run.Ensures.bind (requireZone_ensures _ _) fun z _ => ?_
    exact toUniversalTime_ensures hy.1.1 z

theorem adjustZoned_ensures
    (hoffset : fields.hasOffset = true) (zone : Option ILocalTimeZone) (x : DateTime) :
    (adjustZoned styles zone fields x).Ensures fun o =>
      ∀ y, o = some y → HasKind (Operation.requestedKind styles fields) y := by
  unfold adjustZoned Operation.requestedKind
  rw [hoffset, if_pos rfl]
  by_cases hround : styles.has .roundtripKind = true ∧ fields.zoneIsUtc = true
  · rw [if_pos hround, if_pos (Or.inl hround)]
    refine Run.Ensures.map (specifyKind_ensures x DateTimeKind.utc) fun y hy y' hy' => ?_
    rw [Option.some.injEq] at hy'
    exact hy' ▸ hy.1
  rw [if_neg hround]
  simp only
  split
  case isTrue => exact Run.Ensures.pure fun y hy => by cases hy
  case isFalse =>
    refine Run.Ensures.bind (ofTicksKind_ensures _ _) fun y hy => ?_
    cases hadj : styles.has .adjustToUniversal with
    | true =>
      rw [if_pos rfl, if_pos (Or.inr rfl)]
      refine Run.Ensures.pure fun y' hy' => ?_
      rw [Option.some.injEq] at hy'
      exact hy' ▸ hy.1
    | false =>
      refine Run.Ensures.bind (requireZone_ensures _ _) fun z _ => ?_
      refine Run.Ensures.map (toLocalTime_ensures (hy.1.valid hy.2) z) fun w hw w' hw' => ?_
      grind

def Matches (input format : List Char) (provider : Option DateTimeFormatInfo)
    (styles : DateTimeStyles) (fields : ExactDateTimeFields) : Prop :=
  (exactPattern format >>= fun pattern =>
    matchExactFormat input pattern .dateAndTime {} (exactOptions provider styles)) = some fields

variable (input format : List Char) (provider : Option DateTimeFormatInfo)

theorem parseExactCore_ensures (styles : DateTimeStyles) (zone : Option ILocalTimeZone) :
    (parseExactCore input format provider styles zone).Ensures fun o => ∀ y, o = some y →
      ∃ fields, Matches input format provider styles fields ∧
        HasKind (Operation.requestedKind styles fields) y := by
  have hnone : (pure none : Run Exception (Option DateTime)).Ensures fun o => ∀ y, o = some y →
      ∃ fields, Matches input format provider styles fields ∧
        HasKind (Operation.requestedKind styles fields) y :=
    Run.Ensures.pure fun y hy => by cases hy
  unfold parseExactCore
  split
  case h_1 => exact hnone
  case h_2 fields hmatch =>
  refine Run.Ensures.bind (candidateOfFields_ensures fields) fun o ho => ?_
  cases o with
  | none => exact hnone
  | some candidate =>
    simp only
    split
    case isTrue => exact hnone
    case isFalse =>
      cases hoffset : fields.hasOffset with
      | true =>
        rw [if_pos rfl]
        exact (adjustZoned_ensures hoffset zone candidate).mono
          fun o ho y hy => ⟨fields, hmatch, ho y hy⟩
      | false =>
        refine Run.Ensures.map (adjustAssumed_ensures hoffset zone (ho candidate rfl))
          fun y hy y' hy' => ?_
        rw [Option.some.injEq] at hy'
        exact ⟨fields, hmatch, hy' ▸ hy⟩

theorem requestedKind_le (styles : DateTimeStyles) (fields : ExactDateTimeFields) :
    Operation.requestedKind styles fields ≤ 2 := by grind [Operation.requestedKind]

theorem tryParseExact_cases
    (styles : DateTimeStyles) (result : DateTime) (zone : Option ILocalTimeZone) :
    (∃ e, tryParseExact input format provider styles result zone = (Run.throwing e, result)) ∨
    tryParseExact input format provider styles result zone =
      (Option.isSome <$> parseExactCore input format provider styles zone,
        match (parseExactCore input format provider styles zone).outcome with
        | .returned (some value) => value
        | _ => minValue) := by grind [tryParseExact]

variable {result : DateTime}

theorem tryParseExact_valid (styles : DateTimeStyles) (zone : Option ILocalTimeZone)
    (hresult : result.Valid) :
    (tryParseExact input format provider styles result zone).2.Valid := by
  have hmin : minValue.Valid := valid_packed (n := 0) (k := 0) (by decide) (by decide)
  rcases tryParseExact_cases input format provider styles result zone with ⟨e, he⟩ | heq
  · rw [he]
    exact hresult
  · rw [heq]
    rcases (parseExactCore_ensures input format provider styles zone).outcome with
      ⟨o, ho, hkind⟩ | ⟨e, he⟩
    · rw [ho]
      cases o with
      | none => exact hmin
      | some y =>
        obtain ⟨fields, -, hy⟩ := hkind y rfl
        exact hy.valid (requestedKind_le styles fields)
    · rw [he]
      exact hmin

/-! ## Programs -/

def ValidStore (s : Store) : Prop := ∀ v, (s v).Valid

variable {s : Store} {op : Operation}

theorem evaluate_kind (hs : ValidStore s) (old : DateTime)
    (h : op.kind = some k) : (op.evaluate s old).Ensures fun y => HasKind k y ∧ k ≤ 2 := by
  have hdeclared : ∀ {k : ℕ} {r : Run Exception DateTime}, k ≤ 2 → r.Ensures (HasKind k) →
      r.Ensures fun y => HasKind k y ∧ k ≤ 2 := fun hk hr => hr.mono fun y hy => ⟨hy, hk⟩
  cases op <;> simp only [Operation.kind, Option.some.injEq, reduceCtorEq] at h <;> subst h
  case default =>
    exact hdeclared (by decide)
      (Run.Ensures.pure (hasKind_packed (n := 0) (k := 0) (by decide) (by decide)))
  case ofTicks t => exact hdeclared (by decide) (ofTicks_ensures _)
  case ofTicksKind t kind => exact ofTicksKind_ensures _ _
  case ofDate y mo d =>
    exact hdeclared (by decide)
      (ofComponents_ensures isInt_zero isInt_zero isInt_zero isInt_zero)
  case ofDateTime y mo d h mi sec =>
    exact hdeclared (by decide)
      (ofComponents_ensures (isInt_toInt h) (isInt_toInt mi) (isInt_toInt sec) isInt_zero)
  case ofDateTimeMillisecond y mo d h mi sec ms =>
    exact hdeclared (by decide)
      (ofComponents_ensures (isInt_toInt h) (isInt_toInt mi) (isInt_toInt sec) (isInt_toInt ms))
  case specifyKind v kind => exact specifyKind_ensures _ _
  case toLocalTime v zone => exact hdeclared (by decide) (toLocalTime_ensures (hs v) zone)
  case toUniversalTime v zone =>
    exact hdeclared (by decide) (toUniversalTime_ensures (hs v).ticks_le zone)
  case tryParse text =>
    obtain ⟨r, hr, hr0⟩ := tryParse_ensures text
    simp only [Operation.evaluate]
    rw [hr]
    exact Run.Ensures.pure ⟨hr0, by decide⟩

theorem evaluate_amount (hs : ValidStore s) (old : DateTime) (h : op.amount = some (v, n)) :
    op.evaluate s old = sumOrThrow (s v) ((s v).ticks + n) := by
  cases op <;> simp only [Operation.amount, Option.some.injEq, Prod.mk.injEq, reduceCtorEq] at h <;>
    obtain ⟨rfl, rfl⟩ := h
  case add => exact add_eq _ _
  case addTicks value => exact addTicks_eq _ value.le_toInt value.toInt_lt
  case addDays => exact addDays_eq (hs _).ticks_le _
  case addHours => exact addHours_eq (hs _).ticks_le _
  case addMinutes => exact addMinutes_eq _ _
  case addSeconds => exact addSeconds_eq _ _
  case addMilliseconds => exact addMilliseconds_eq _ _
  case subtract =>
    exact subtract_eq _ _

theorem evaluate_months (hs : ValidStore s) (old : DateTime) (h : op.months = some (v, n)) :
    MonthsExact (s v) n (op.evaluate s old) := by
  cases op <;> simp only [Operation.months, Option.some.injEq, Prod.mk.injEq, reduceCtorEq] at h <;>
    obtain ⟨rfl, rfl⟩ := h
  case addMonths => exact addMonths_exact (hs _).ticks_le _
  case addYears => exact addYears_exact (hs _).ticks_le _

theorem kind_or_receiver (h : op.isExactParse = false) :
    (∃ k, op.kind = some k) ∨ (∃ v n, op.amount = some (v, n)) ∨ ∃ v n, op.months = some (v, n) := by
  cases op with
  | tryParseExact input format provider styles zone => cases h
  | add | addTicks | addDays | addHours | addMinutes | addSeconds | addMilliseconds | subtract =>
    exact Or.inr (Or.inl ⟨_, _, rfl⟩)
  | addMonths | addYears => exact Or.inr (Or.inr ⟨_, _, rfl⟩)
  | _ => exact Or.inl ⟨_, rfl⟩

/-- Every operation gives valid values from valid ones. -/
theorem evaluate_ensures (hs : ValidStore s) (old : DateTime)
    (hparse : op.isExactParse = false) : (op.evaluate s old).Ensures Valid := by
  have hreceiver : ∀ {v : ℕ} {r : Run Exception DateTime}, r.Ensures (HasKind (s v).kindBits) →
      r.Ensures Valid := fun hr => hr.mono fun y hy => hy.valid (hs _).kindBits_le
  rcases kind_or_receiver hparse with ⟨k, hk⟩ | ⟨v, n, hn⟩ | ⟨v, n, hn⟩
  · exact (evaluate_kind hs old hk).mono fun y hy => hy.1.valid hy.2
  · rw [evaluate_amount hs old hn]
    exact hreceiver (sumOrThrow_ensures _ _)
  · exact hreceiver (months_ensures (evaluate_months hs old hn))

theorem afterThrow_eq (h : op.isExactParse = false) (old : DateTime) : op.afterThrow old = old := by
  cases op with
  | tryParseExact input format provider styles zone => cases h
  | _ => rfl

theorem assigned_valid (hs : ValidStore s) {old : DateTime} (hold : old.Valid)
    (op : Operation) : (op.assigned s old).Valid := by
  cases hparse : op.isExactParse with
  | false =>
    unfold Operation.assigned
    rw [afterThrow_eq hparse]
    rcases (evaluate_ensures hs old hparse).outcome with ⟨y, hy, hvalid⟩ | ⟨e, he⟩
    · rw [hy]
      exact hvalid
    · rw [he]
      exact hold
  | true =>
    cases op with
    | tryParseExact input format provider styles zone =>
      have hresult := tryParseExact_valid input format provider styles zone hold
      simp only [Operation.assigned, Operation.evaluate, Operation.afterThrow]
      generalize tryParseExact input format provider styles old zone = r at hresult
      obtain ⟨⟨returned, clean⟩, result⟩ := r
      cases returned with
      | returned b => exact hresult
      | threw e => exact hresult
      | diverged => exact hresult
    | _ => cases hparse

theorem valid_step (hs : ValidStore s) (a : Assignment) : ValidStore (step s a) := by
  intro v
  unfold step
  by_cases hv : v = a.target
  · subst hv
    rw [Function.update_self]
    exact assigned_valid hs (hs _) a.operation
  · rw [Function.update_of_ne hv]
    exact hs v

/-- A program leaves every variable valid. -/
theorem valid_run (program : List Assignment) : ValidStore (run program) := by
  have hfold : ∀ s, ValidStore s → ValidStore (program.foldl step s) := by
    induction program with
    | nil => exact fun s hs => hs
    | cons a rest ih => exact fun s hs => ih (step s a) (valid_step hs a)
  exact hfold initial fun v => valid_packed (n := 0) (k := 0) (by decide) (by decide)

theorem step_eq_self {a : Assignment} {e : Exception} (hparse : a.operation.isExactParse = false)
    (h : (a.operation.evaluate s (s a.target)).outcome = .threw e) : step s a = s := by
  simp [step, Operation.assigned, h, afterThrow_eq hparse]

theorem tryParseExact_kind {input format : List Char} {provider : Option DateTimeFormatInfo}
    {zone : Option ILocalTimeZone} {b : Bool}
    (h : (tryParseExact input format provider styles result zone).1 = pure b) :
    if b then ∃ fields, Matches input format provider styles fields ∧
        (tryParseExact input format provider styles result zone).2.kindBits =
          Operation.requestedKind styles fields
    else (tryParseExact input format provider styles result zone).2 = minValue := by
  rcases tryParseExact_cases input format provider styles result zone with ⟨e, he⟩ | heq
  · rw [he] at h
    cases h
  · rw [heq] at h ⊢
    rcases parseExactCore_ensures input format provider styles zone with ⟨o, ho, hkind⟩ | ⟨e, he⟩
    · rw [ho, map_pure, Run.pure_inj] at h
      subst h
      rw [ho]
      cases o with
      | none => rfl
      | some y =>
        obtain ⟨fields, hmatch, hy⟩ := hkind y rfl
        exact ⟨fields, hmatch, hy.2⟩
    · rw [he] at h
      cases h

/-- The ticks a conversion ends with: those of a value that has the kind already, or the shifted
ticks clamped to the range. -/
def ConvertsTo (kind : ℕ) (x : DateTime) (shifted : ℤ) (r : Run Exception DateTime) : Prop :=
  ∃ y, r = pure y ∧ y.kindBits = kind ∧
    (y.ticks : ℤ) = if x.kindBits = kind then (x.ticks : ℤ) else max 0 (min shifted maxTicks)

theorem convertsTo_clamp (hk : kind < 4) (x : DateTime) (shifted : ℤ) : ConvertsTo kind x shifted
      (if x.kindBits = kind then pure x else pure (packed (clamp shifted) kind)) := by
  split
  case isTrue h => exact ⟨x, rfl, h, by rw [if_pos h]⟩
  case isFalse h =>
    have hlt : clamp shifted < 2 ^ 62 := lt_of_le_of_lt (clamp_le shifted) maxTicks_lt
    refine ⟨_, rfl, kindBits_packed hlt hk, ?_⟩
    rw [ticks_packed hlt hk, if_neg h, clamp, Int.toNat_of_nonneg (le_max_left _ _)]

/-- **The packed state of every reachable `DateTime` is valid**: after any program every variable
holds at most `maxTicks` ticks below a declared kind.  Every addition of ticks is exact or throws,
keeping the kind; an addition of months is the calendar's; a conversion is the shift its zone
asks for, clamped; the other operations set the kind they are asked for; and an operation that
throws leaves all variables alone. -/
theorem packed_state_invariant (program : List Assignment) :
    (∀ v, (run program v).Valid) ∧
    (∀ (op : Operation) (v : ℕ) (n : ℤ) (old : DateTime), op.amount = some (v, n) →
      if 0 ≤ ((run program v).ticks : ℤ) + n ∧ ((run program v).ticks : ℤ) + n ≤ maxTicks then
        ∃ y, op.evaluate (run program) old = pure y ∧
          (y.ticks : ℤ) = (run program v).ticks + n ∧ y.kindBits = (run program v).kindBits
      else op.evaluate (run program) old = Run.throwing DateTime.valueOutOfRange) ∧
    (∀ (op : Operation) (v : ℕ) (n : ℤ) (old : DateTime), op.months = some (v, n) →
      MonthsExact (run program v) n (op.evaluate (run program) old)) ∧
    (∀ (v : ℕ) (zone : ILocalTimeZone),
      ConvertsTo 2 (run program v) ((run program v).ticks +
          (zone.getUtcOffsetFromUniversalTime (run program v)).ticks.toInt)
        ((run program v).toLocalTime zone) ∧
      ConvertsTo 1 (run program v) ((run program v).ticks -
          (zone.getUtcOffset (run program v)).ticks.toInt)
        ((run program v).toUniversalTime zone)) ∧
    (∀ (op : Operation) (k : ℕ) (old y : DateTime), op.kind = some k →
      op.evaluate (run program) old = pure y → y.kindBits = k) ∧
    (∀ (input format : List Char) (provider : Option DateTimeFormatInfo) (styles : DateTimeStyles)
      (result : DateTime) (zone : Option ILocalTimeZone) (b : Bool),
      (tryParseExact input format provider styles result zone).1 = pure b →
      if b then ∃ fields, Matches input format provider styles fields ∧
          (tryParseExact input format provider styles result zone).2.kindBits =
            Operation.requestedKind styles fields
      else (tryParseExact input format provider styles result zone).2 = minValue) ∧
    ∀ (a : Assignment) (e : Exception), a.operation.isExactParse = false →
      (a.operation.evaluate (run program) (run program a.target)).outcome = .threw e →
      step (run program) a = run program := by
  have hs := valid_run program
  refine ⟨hs, ?_, fun op v n old h => evaluate_months hs old h, ?_, ?_,
    fun input format provider styles result zone b h => tryParseExact_kind h,
    fun a e hparse h => step_eq_self hparse h⟩
  · intro op v n old h
    rw [evaluate_amount hs old h, sumOrThrow]
    split
    case isTrue hin =>
      have hlt : ((run program v).ticks + n).toNat < 2 ^ 62 := by
        have := maxTicks_lt
        omega
      have hk := (run program v).kindBits_lt
      refine ⟨_, rfl, ?_, kindBits_packed hlt hk⟩
      rw [ticks_packed hlt hk]
      omega
    case isFalse hout => rfl
  · intro v zone
    have hle := (hs v).kindBits_le
    have hlocal : (2 ≤ (run program v).kindBits) = ((run program v).kindBits = 2) := by
      apply propext
      omega
    constructor
    · have h := toLocalTime_eq (hs v).ticks_le zone
      simp only [hlocal] at h
      rw [h]
      exact convertsTo_clamp (by decide) _ _
    · rw [toUniversalTime_eq (hs v).ticks_le zone]
      exact convertsTo_clamp (by decide) _ _
  · intro op k old y hk hy
    rcases evaluate_kind hs old hk with ⟨y', hy', hkind⟩ | ⟨e, he⟩
    · rw [hy', Run.pure_inj] at hy
      rw [← hy]
      exact hkind.1.2
    · rw [he] at hy
      cases hy

/-- The latest date, one tick later and at the offset `Int64.minValue`: the first throws and leaves
the store alone, the second is clamped. -/
theorem packed_state_invariant_latest :
    step (run [⟨0, .ofTicks 3155378975999999999⟩]) ⟨0, .addTicks 0 1⟩ =
        run [⟨0, .ofTicks 3155378975999999999⟩] ∧
      ConvertsTo 1 (run [⟨0, .ofTicks 3155378975999999999⟩] 0)
        (3155378975999999999 + 9223372036854775808)
        ((run [⟨0, .ofTicks 3155378975999999999⟩] 0).toUniversalTime
          ⟨fun _ => ⟨Int64.minValue⟩, fun _ => ⟨Int64.minValue⟩⟩) := by
  obtain ⟨-, -, -, hzone, -, -, hthrow⟩ :=
    packed_state_invariant [⟨0, .ofTicks 3155378975999999999⟩]
  constructor
  · exact hthrow ⟨0, .addTicks 0 1⟩ DateTime.valueOutOfRange rfl (by decide)
  · have h := (hzone 0 ⟨fun _ => ⟨Int64.minValue⟩, fun _ => ⟨Int64.minValue⟩⟩).2
    exact h

end SharpRuntime.Analysis.DateTimeInvariant
