import SharpRuntime.Analysis.DateTimeOffsets

/-!
# The round trip text of a `DateTimeOffset`

The text of `o` is that of the clock, followed by a sign, two digits of hours, a colon and two
digits of minutes (`toString_eq`).  The scanner of `tryParse` and the pattern of `tryParseExact`
read the clock as for a `DateTime`, and the number of minutes that was written; the constructor
accepts both, since the value was in range (`ofDateTimeOffset_self`).
-/

set_option autoImplicit false

namespace SharpRuntime.Analysis.DateTimeOffsetText

open Machine Model Model.DateTimeOffset Interface
open Model.DateTime (appendOffset exactOptions exactPattern matchExactFormat matchZone
  packed pad takeUtcOffsetMinutes)
open DateTimeFormatting DateTimeOffsets
open DateTimeRoundTrip (parserItems)
open DateTimeScanning (takeUtcOffsetMinutes_complete)
open DateTimeRoundTrip

variable {x : DateTimeOffset} {offset : TimeSpan} {k : ℤ}

/-- The offset of so many minutes. -/
structure IsMinutes (offset : TimeSpan) (k : ℤ) : Prop where
  lower : -840 ≤ k
  upper : k ≤ 840
  ticks : offset.ticks.toInt = k * TimeSpan.ticksPerMinute

theorem exists_minutes (h : WholeMinutes offset) : ∃ k, IsMinutes offset k := by
  obtain ⟨k, hk⟩ := h.dvd
  have hlower := h.lower
  have hupper := h.upper
  have hminute : (TimeSpan.ticksPerMinute : ℤ) = 600000000 := rfl
  have hhour : (TimeSpan.ticksPerHour : ℤ) = 36000000000 := rfl
  rw [hminute] at hk
  exact ⟨k, by omega, by omega, by rw [hk, mul_comm, hminute]⟩

theorem IsMinutes.eq (h : IsMinutes offset k) :
    offset = ⟨Int64.ofInt (k * TimeSpan.ticksPerMinute)⟩ := by
  rw [← h.ticks, Int64.ofInt_toInt]

theorem fromMinutes_isMinutes (h : IsMinutes offset k) :
    TimeSpan.fromMinutes (Binary64.ofInt k) = pure offset := by
  rw [fromMinutes_eq h.lower h.upper, ← h.eq]

def twoDigits (n : ℕ) : List Char := Printed.text (Printed.fixed 10 2 n)

def offsetText (k : ℤ) : List Char :=
  (if k < 0 then '-' else '+') :: (twoDigits (k.natAbs / 60) ++ ':' :: twoDigits (k.natAbs % 60))

theorem pad_two {n : ℕ} (hn : n < 100) : pad n 2 = twoDigits n := by
  rw [pad, Printed.padded_eq_fixed (by decide) (by decide) hn, twoDigits]

theorem hours_lt (h : IsMinutes offset k) : k.natAbs / 60 ≤ 14 := by
  have hlower := h.lower
  have hupper := h.upper
  omega

theorem minutes_lt (k : ℤ) : k.natAbs % 60 < 60 := Nat.mod_lt _ (by decide)

theorem appendOffset_eq (h : IsMinutes offset k) : appendOffset offset 3 = pure (offsetText k) := by
  have hhours := hours_lt h
  have htotal : offset.ticks.toInt.tdiv TimeSpan.ticksPerMinute = k := by
    rw [h.ticks, Int.mul_tdiv_cancel _ (by decide)]
  have htotal' : offset.ticks.toInt.tdiv DateTime.ticksPerMinute = k := htotal
  rw [appendOffset, htotal', if_neg (by decide), if_neg (by decide), if_pos rfl,
    pad_two (by omega), pad_two (by omega), offsetText]

/-- The round-trip text: the clock and the offset. -/
theorem toString_eq (hx : x.InRange) (h : IsMinutes x.offset_ k) :
    x.toString ['o'] = pure (render x.dateTime_ parserItems ++ offsetText k) := by
  have hpattern : "yyyy-MM-ddTHH:mm:ss.fffffffzzz".toList = spell parserItems ++ ['z', 'z', 'z'] := by
    decide
  have hzone : ∀ info r, formatFrom x.dateTime_ info (some x.offset_) ⟨['z', 'z', 'z'], r⟩ =
      pure ⟨[], r ++ offsetText k⟩ := by
    intro info r
    refine (formatFrom_of_step (List.cons_ne_nil _ _) ?_).trans (formatFrom_nil _ _ _ _)
    have hstep : DateTime.formatStep x.dateTime_ info (some x.offset_) ⟨['z', 'z', 'z'], r⟩ =
        appendOffset x.offset_ 3 >>= fun text => pure ⟨[], r ++ text⟩ := rfl
    rw [hstep, appendOffset_eq h, pure_bind]
  rw [DateTimeOffset.toString, if_neg (by decide), if_pos (Or.inr rfl), hpattern, formatCustom_from,
    formatFrom_reads _ hx.clock_le (by decide) not_hasEscape_parserItems, hzone,
    map_pure, List.nil_append]

theorem takeUtcOffsetMinutes_offsetText (h : IsMinutes offset k) :
    takeUtcOffsetMinutes (offsetText k) = some (k, []) := by
  have hhours := hours_lt h
  have hminutes := minutes_lt k
  have htext : OffsetText (twoDigits (k.natAbs / 60) ++ ':' :: twoDigits (k.natAbs % 60))
      ((k.natAbs / 60 : ℕ) * 60 + (k.natAbs % 60 : ℕ)) :=
    .minutes (Scan.field_fixed (by decide) (by decide) (by omega))
      (Scan.field_fixed (by decide) (by decide) (by omega)) hminutes
  have hread := takeUtcOffsetMinutes_complete htext (decide (k < 0))
  simp only [decide_eq_true_eq] at hread
  rw [offsetText, hread, Option.some.injEq, Prod.mk.injEq]
  refine ⟨?_, rfl⟩
  split <;> omega

variable (l : Int64)

theorem takeOffset_offsetText (h : IsMinutes offset k) :
    takeOffset l (offsetText k) = pure (some (offset, [])) := by
  have hlower := h.lower
  have hupper := h.upper
  have hsign : (DateTime.take 'Z' (offsetText k)).or (DateTime.take 'z' (offsetText k)) = none := by
    unfold offsetText
    split <;> rfl
  have hne : offsetText k ≠ [] := List.cons_ne_nil _ _
  rw [takeOffset, hsign]
  rw [if_neg hne, takeUtcOffsetMinutes_offsetText h]
  simp only
  rw [if_neg (by omega), fromMinutes_isMinutes h, pure_bind]

theorem rdropWhile_text (d : DateTime) (k : ℤ) :
    (render d parserItems ++ offsetText k).rdropWhile DateTime.isWhitespace =
      render d parserItems ++ offsetText k := by
  have hend : render d parserItems ++ offsetText k =
      (render d parserItems ++ (if k < 0 then '-' else '+') :: (twoDigits (k.natAbs / 60) ++ ':' ::
        Printed.text (Printed.fixed 10 1 (k.natAbs % 60 / 10)))) ++
          [Printed.digitChar (k.natAbs % 60 % 10)] := by rfl
  rw [hend]
  exact rdropWhile_solid (isWhitespace_digitChar (Nat.mod_lt _ (by decide))) _

theorem packed_clock (hx : x.InRange) : packed x.dateTime_.ticks 0 = x.dateTime_ := by
  have hclock := eq_packed x.dateTime_
  rw [hx.unspecified] at hclock
  exact hclock.symm

theorem clockOfParts_componentsOf (hx : x.InRange) :
    clockOfParts (componentsOf x.dateTime_) = pure (some x.dateTime_) := by
  have hwhole := ofComponents_eq hx.clock_le
  rw [clockOfParts]
  simp only [componentsOf]
  rw [hwhole, pure_bind, addTicks_fraction hx.clock_le, pure_bind,
    packed_clock hx, Run.catching_pure]

/-- A value is made again from its clock and its offset. -/
theorem ofDateTimeOffset_self (hx : x.InRange) :
    ofDateTimeOffset l x.dateTime_ x.offset_ = pure x := by
  rw [ofDateTimeOffset_ok l hx.clock_le hx.unspecified hx.offset hx.utc_nonneg hx.utc_le,
    ← eq_valueOf hx]

theorem tryParse_roundTrip (hx : x.InRange) (h : IsMinutes x.offset_ k) :
    DateTimeOffset.tryParse l (render x.dateTime_ parserItems ++ offsetText k) = pure (true, x) := by
  have hparts : parseParts l (render x.dateTime_ parserItems ++ offsetText k) =
      pure (some (componentsOf x.dateTime_, x.offset_)) := by
    rw [parseParts, trimDateTimeText_eq (dropWhile_render _ _)
      (rdropWhile_text _ _), takeDateTimeParts_render hx.clock_le]
    simp only
    rw [takeOffset_offsetText l h, pure_bind]
    rfl
  simp [DateTimeOffset.tryParse, hparts, clockOfParts_componentsOf hx, ofDateTimeOffset_self l hx,
    Run.catching_pure]

theorem takeNumber_two {n : ℕ} (hn : n < 100) (rest : List Char) :
    DateTime.takeNumber 2 (twoDigits n ++ rest) = some ((n : ℤ), rest) := by
  have hread := takeDigits_fixed (le_refl 2) hn rest
  rw [DateTime.takeNumber, if_neg (by decide), twoDigits, hread]
  rfl

def withOffset (k : ℤ) (fields : ExactDateTimeFields) : ExactDateTimeFields :=
  { fields with hasOffset := true, offsetMinutes := k }

theorem matchZone_offsetText (h : IsMinutes offset k) {fields : ExactDateTimeFields}
    (hoffset : fields.hasOffset = false) (hutc : fields.zoneIsUtc = false) :
    matchZone 'K' 1 (offsetText k) fields = some (withOffset k fields, []) := by
  have hhours := hours_lt h
  have hmark : DateTime.take 'Z' (offsetText k) = none := by
    unfold offsetText
    split <;> rfl
  have hsign : DateTime.takeSign (offsetText k) = some (decide (k < 0),
      twoDigits (k.natAbs / 60) ++ ':' :: twoDigits (k.natAbs % 60)) := by
    by_cases hk : k < 0
    · rw [offsetText, if_pos hk, decide_eq_true hk]
      rfl
    · rw [offsetText, if_neg hk, decide_eq_false hk]
      rfl
  have hzoneMinutes : DateTime.takeZoneMinutes 'K' 1 (':' :: twoDigits (k.natAbs % 60)) =
      some (((k.natAbs % 60 : ℕ) : ℤ), []) := by
    have hread := takeNumber_two (n := k.natAbs % 60) (by omega) []
    rw [List.append_nil] at hread
    exact hread
  have hvalue : (if k < 0 then -(((k.natAbs / 60 : ℕ) : ℤ) * 60 + (k.natAbs % 60 : ℕ))
      else ((k.natAbs / 60 : ℕ) : ℤ) * 60 + (k.natAbs % 60 : ℕ)) = k := by
    split <;> omega
  rw [matchZone, if_neg (by decide), if_neg (by rw [hoffset, hutc]; decide), if_pos rfl, hmark]
  rw [hsign]
  simp only [Char.reduceEq, false_and, if_false]
  rw [takeNumber_two (by omega)]
  simp only [Option.bind_eq_bind, Option.bind_some, hzoneMinutes]
  rw [if_neg (by omega)]
  simp only [decide_eq_true_eq]
  rw [hvalue, withOffset]

theorem match_text (provider : Option DateTimeFormatInfo) (styles : DateTimeStyles) {d : DateTime}
    (hd : d.ticks ≤ DateTime.maxTicks) (h : IsMinutes offset k) :
    matchExactFormat (render d parserItems ++ offsetText k) (spell parserItems ++ ['K']) .dateAndTime
        {} (exactOptions provider styles) =
      some (withOffset k (bindAll d (tokens parserItems) {})) := by
  have hsolid : ∀ item ∈ parserItems, IsSolid item := by
    simp [parserItems, IsSolid, DateTime.isWhitespace]
  have hsign : (offsetText k).dropWhile DateTime.isWhitespace = offsetText k := by
    unfold offsetText
    split <;> exact dropWhile_solid (by decide) _
  have hrun : DateTime.runOf false 'K' [] = 1 := rfl
  obtain ⟨-, -, hoffset, hutc⟩ := bindAll_default d (tokens parserItems)
  rw [matchExactFormat_eq (by decide)
      (Or.inr (dropWhile_render d _)) (Or.inr (rdropWhile_text d k)),
    matchAll_reads (Or.inr hsolid) hd (by decide) not_hasEscape_parserItems _
      (by decide) (fun t _ => by cases t <;> rfl)]
  generalize bindAll d (tokens parserItems) {} = fields at hoffset hutc
  have hmatch := matchZone_offsetText h hoffset hutc
  have hstep : DateTime.matchStep .dateAndTime (exactOptions provider styles)
      ⟨['K'], offsetText k, fields⟩ = some ⟨[], [], withOffset k fields⟩ := by
    grind [DateTime.matchStep, DateTime.matchField, exactOptions]
  rw [matchAll_of_step (List.cons_ne_nil _ _) hstep, matchAll_nil]
  rfl

variable {styles : DateTimeStyles}

theorem adjust_kept {kept : DateTimeStyles} (h : validateDateTimeOffsetStyles styles = pure kept) :
    kept.has .adjustToUniversal = styles.has .adjustToUniversal := by
  rw [validateDateTimeOffsetStyles] at h
  split at h
  · cases h
  split at h
  · cases h
  · rw [Run.pure_inj] at h
    have hmask : ~~~(DateTimeStyles.roundtripKind ||| DateTimeStyles.assumeLocal) &&&
        DateTimeStyles.adjustToUniversal = DateTimeStyles.adjustToUniversal := by
      decide
    rw [← h, DateTimeStyles.has, DateTimeStyles.has, BitVec.and_assoc, hmask]

theorem offsetOfFields_withOffset (styles : DateTimeStyles) (zone : Option ILocalTimeZone)
    (h : IsMinutes offset k) (fields : ExactDateTimeFields) (candidate : DateTime) :
    offsetOfFields styles zone (withOffset k fields) candidate = pure (some offset) := by
  have hlower := h.lower
  have hupper := h.upper
  have hstated : (withOffset k fields).hasOffset = true := rfl
  have hminutes : (withOffset k fields).offsetMinutes = k := rfl
  rw [offsetOfFields.eq_def, if_pos hstated, hminutes, if_neg (by omega), fromMinutes_isMinutes h,
    map_pure]

theorem valueOfOffset_self (hadjust : styles.has .adjustToUniversal = false) (hx : x.InRange) :
    valueOfOffset l styles x.dateTime_ x.offset_ = pure (some x) := by
  have hzero := (wholeMinutes_iff.mp hx.offset).1
  have hlower := hx.offset.lower
  have hupper := hx.offset.upper
  have hle := hx.utc_le
  have hmax := DateTime.maxTicks_lt
  obtain ⟨utc, hutc⟩ := Int.eq_ofNat_of_zero_le hx.utc_nonneg
  have hwrap : wrap 64 ((x.dateTime_.ticks : ℤ) - x.offset_.ticks.toInt) = utc := by
    rw [← utcTicks, hutc]
    exact wrap_of_lt (by omega)
  rw [valueOfOffset, if_neg (by omega), hwrap]
  simp only [hadjust, Bool.false_eq_true, if_false]
  rw [if_neg (by omega), ofDateTimeOffset_self l hx, map_pure]

theorem tryParseExact_roundTrip (provider : Option DateTimeFormatInfo)
    (hstyles : KeepsOffset styles) (result : DateTimeOffset)
    (zone : Option ILocalTimeZone) (hx : x.InRange) (h : IsMinutes x.offset_ k) :
    DateTimeOffset.tryParseExact l (render x.dateTime_ parserItems ++ offsetText k) ['o'] provider
      styles result zone = (pure true, x) := by
  obtain ⟨kept, hkept⟩ := hstyles.accepted
  have hadjust := (adjust_kept hkept).trans hstyles.adjust
  have hpattern : exactPattern ['o'] = some (spell parserItems ++ ['K']) := by decide
  have hall : ∀ t : Token, t ∈ tokens parserItems := by
    intro t
    cases t <;> decide
  have hbound := states_bindAll (x := x.dateTime_) hall
  have hstates : States x.dateTime_ (withOffset k (bindAll x.dateTime_ (tokens parserItems) {})) :=
    ⟨fun t => hbound.get t ▸ by cases t <;> rfl, hbound.twelveHour, hbound.weekday⟩
  have hcore : parseExactCore l (render x.dateTime_ parserItems ++ offsetText k) ['o'] provider kept
      zone = pure (some x) := by
    rw [parseExactCore, hpattern]
    simp only [Option.bind_eq_bind, Option.bind_some, match_text provider kept hx.clock_le h]
    rw [candidateOfFields_states hx.clock_le hstates, packed_clock hx, pure_bind]
    simp only
    rw [offsetOfFields_withOffset kept zone h, pure_bind]
    exact valueOfOffset_self l hadjust hx
  simp [DateTimeOffset.tryParseExact, withStyles, hkept, Run.outcome_pure, hcore]

theorem floor_ediv (a : ℤ) (unit : ℕ) : ⌊(a : ℚ) / unit⌋ = a / unit :=
  Rat.floor_intCast_div_natCast a unit

/-- **A `DateTimeOffset` is a clock, an offset and an instant, in range and in agreement**: every value
a caller can hold is in range, is read back from its round trip text by both parsers, keeps its instant
under another offset, and has the floor of the exact time as its Unix time; a Unix time that is
accepted is given back. -/
theorem offset_instants : (∀ x, Produced x → OffsetLaws x) ∧ UnixTimeLaws := by
  refine ⟨fun x hmade => ?_, ?_⟩
  · have hx := inRange_of_produced hmade
    obtain ⟨k, hk⟩ := exists_minutes hx.offset
    exact {
      inRange := hx
      getUtcTicksProperty := getUtcTicksProperty_eq hx
      roundTrip := ⟨_, toString_eq hx hk, fun l => tryParse_roundTrip l hx hk,
        fun l provider _ result zone hstyles =>
          tryParseExact_roundTrip l provider hstyles result zone hx hk⟩
      toOffset := fun l offset => (toOffset_ensures l hx offset).mono fun _ h => h.2
      toUnixTimeSeconds := by
        rw [floor_ediv]
        exact toUnixTime_eq unixUnit_second hx
      toUnixTimeMilliseconds := by
        rw [floor_ediv]
        exact toUnixTime_eq unixUnit_millisecond hx }
  · exact ⟨fun l _ x hmade => toUnixTime_fromUnixTime unixUnit_second hmade,
      fun l _ x hmade => toUnixTime_fromUnixTime unixUnit_millisecond hmade⟩

/-- The last tick of the year 9999, fourteen hours ahead of UTC. -/
def lastEast : DateTimeOffset := ⟨packed 3155378975999999999 0, ⟨504000000000⟩⟩

theorem produced_lastEast : Produced lastEast :=
  .returned 0 (.ofTicks 3155378975999999999 ⟨504000000000⟩) nofun nofun (by decide)

/-- The last tick of the year 9999, fourteen hours ahead of UTC, and the second before 1970. -/
theorem offset_instants_last : OffsetLaws lastEast ∧
    ∀ x, (DateTimeOffset.fromUnixTimeSeconds 0 (-1 : Int64).toInt).outcome = .returned x →
      x.toUnixTimeSeconds = pure (-1 : Int64).toInt :=
  ⟨offset_instants.1 lastEast produced_lastEast, offset_instants.2.seconds 0 (-1)⟩

end SharpRuntime.Analysis.DateTimeOffsetText
