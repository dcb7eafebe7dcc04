import SharpRuntime.Analysis.DateTimeArithmetic
import SharpRuntime.Analysis.DateTimeFormatting

/-!
# What `toString` writes, the parsers read back

The standard format `o` has one pattern for the formatter, with quoted separators, and another for
the exact parser, with plain ones; over both the text is the same (`roundtrip_text`), and so are the
fields.  A text that states every component gives back the value (`candidateOfFields_states`).
-/

set_option autoImplicit false

namespace SharpRuntime.Analysis.DateTimeRoundTrip

open Machine Model Model.DateTime Interface
open DateTimeCalendar DateTimeArithmetic
open DateTimeFormatting

theorem eq_packed (x : DateTime) : x = packed x.ticks x.kindBits :=
  ext_ticks_kindBits (ticks_packed x.ticks_lt x.kindBits_lt).symm
    (kindBits_packed x.ticks_lt x.kindBits_lt).symm

variable {x : DateTime}

theorem ofComponents_eq (hx : x.ticks ≤ maxTicks) :
    ofComponents x.date.year x.date.month x.date.day (hourOf x.ticks) (minuteOf x.ticks)
      (secondOf x.ticks) 0 = pure (packed (x.ticks - x.ticks % ticksPerSecond) 0) := by
  have h := dateToTicks_toTm hx
  obtain ⟨hy, hm, hd⟩ := components_eq x
  have hH : x.getHourProperty = hourOf x.ticks := by rw [getHourProperty, toTm_eq]; rfl
  have hMin : x.getMinuteProperty = minuteOf x.ticks := by rw [getMinuteProperty, toTm_eq]; rfl
  have hS : x.getSecondProperty = secondOf x.ticks := by rw [getSecondProperty, toTm_eq]; rfl
  grind [ofComponents, packed]

theorem addTicks_fraction (hx : x.ticks ≤ maxTicks) :
    addTicks (packed (x.ticks - x.ticks % ticksPerSecond) 0) (x.ticks % ticksPerSecond : ℕ) =
      pure (packed x.ticks 0) := by
  have hlt := maxTicks_lt
  have hle : x.ticks % ticksPerSecond ≤ x.ticks := Nat.mod_le _ _
  have hwhole : x.ticks - x.ticks % ticksPerSecond < 2 ^ 62 := by omega
  rw [addTicks_eq _ (by omega) (by omega), sumOrThrow, ticks_packed hwhole (by decide),
    kindBits_packed hwhole (by decide), if_pos (by omega)]
  congr 2
  omega

theorem addFraction_eq (hx : x.ticks ≤ maxTicks) :
    addFraction (packed (x.ticks - x.ticks % ticksPerSecond) 0) (x.ticks % ticksPerSecond : ℕ) =
      pure (packed x.ticks 0) := by grind [addFraction, addTicks_fraction]

variable {fields : ExactDateTimeFields}

/-- Fields that state a value give it back. -/
theorem candidateOfFields_states (hx : x.ticks ≤ maxTicks) (h : States x fields) :
    candidateOfFields fields = pure (some (packed x.ticks 0)) := by
  have hyear : fields.year = x.date.year := h.get .year
  have hmonth : fields.month = x.date.month := h.get .month
  have hday : fields.day = x.date.day := h.get .day
  have hhour : fields.hour = hourOf x.ticks := h.get .hour
  have hminute : fields.minute = minuteOf x.ticks := h.get .minute
  have hsecond : fields.second = secondOf x.ticks := h.get .second
  have hfraction : fields.fractionTicks = (x.ticks % ticksPerSecond : ℕ) := h.get .fraction
  have hy := date_year_le hx
  have hy1 := x.date.year_pos
  have hm1 := x.date.month_pos
  have hm12 := x.date.month_le
  have hd1 := x.date.day_pos
  have hd := x.date.day_le
  have hH := hourOf_lt x.ticks
  have hM := minuteOf_lt x.ticks
  have hS := secondOf_lt x.ticks
  have hhours : hourOfFields fields = some (hourOf x.ticks : ℤ) := by
    simp [hourOfFields, h.twelveHour, hhour]
  rw [candidateOfFields, hyear, hmonth, hday, hminute, hsecond, hhours, hfraction, h.weekday]
  rw [if_neg (by omega), if_neg (by omega), if_neg (by omega), daysInMonth_eq ⟨hy1, hy⟩ ⟨hm1, hm12⟩,
    pure_bind, if_neg (by omega)]
  simp only
  rw [if_neg (by omega), if_neg (by omega), if_neg (by omega), ofComponents_eq hx, map_pure,
    Run.catching_pure, pure_bind]
  simp only
  rw [addFraction_eq hx, pure_bind, if_neg (by omega)]

variable {input format : List Char}

theorem matchExactFormat_eq (hne : format ≠ []) {options : ExactParseOptions}
    (hlead : options.allowLeadingWhite = false ∨ input.dropWhile isWhitespace = input)
    (htrail : options.allowTrailingWhite = false ∨ input.rdropWhile isWhitespace = input)
    (fields : ExactDateTimeFields) :
    matchExactFormat input format .dateAndTime fields options =
      (matchAll .dateAndTime options ⟨format, input, fields⟩).bind fun s =>
        if s.text.isEmpty then some s.fields else none := by
  have hleading : (if options.allowLeadingWhite then input.dropWhile isWhitespace else input) = input := by
    rcases hlead with h | h <;> simp [h]
  have htrailing : (if options.allowTrailingWhite then input.rdropWhile isWhitespace else input) =
      input := by
    rcases htrail with h | h <;> simp [h]
  rw [matchExactFormat, if_neg hne, hleading]
  simp only
  rw [htrailing]
  rfl

/-- The styles of the two round trips: none at all, and `RoundtripKind`. -/
structure PlainStyles (styles : DateTimeStyles) : Prop where
  valid : validateDateTimeStyles styles "style" = pure ()
  leading : styles.has .allowLeadingWhite = false
  trailing : styles.has .allowTrailingWhite = false
  inner : styles.has .allowInnerWhite = false
  assumeLocal : styles.has .assumeLocal = false
  assumeUniversal : styles.has .assumeUniversal = false

theorem plainStyles_none : PlainStyles .none := by
  constructor <;> decide

theorem plainStyles_roundtrip : PlainStyles .roundtripKind := by
  constructor <;> decide

variable {styles : DateTimeStyles}

theorem tryParseExact_of_core
    (hstyles : PlainStyles styles) {zone : Option ILocalTimeZone} {o : Option DateTime}
    (h : parseExactCore input format none styles zone = pure o) (result : DateTime) :
    tryParseExact input format none styles result zone = (pure o.isSome, o.getD minValue) := by
  rw [tryParseExact, hstyles.valid, h]
  cases o <;> rfl

variable {pattern : List Char}

theorem parseExactCore_of_none (hpattern : exactPattern format = some pattern)
    (h : matchExactFormat input pattern .dateAndTime {} (exactOptions none styles) = none)
    (zone : Option ILocalTimeZone) : parseExactCore input format none styles zone = pure none := by
  simp [parseExactCore, hpattern, h]

theorem parseExactCore_of_states
    (hstyles : PlainStyles styles) (hpattern : exactPattern format = some pattern)
    (hx : x.ticks ≤ maxTicks) (hfields : States x fields)
    (hoffset : fields.hasOffset = false)
    (h : matchExactFormat input pattern .dateAndTime {} (exactOptions none styles) = some fields)
    (zone : Option ILocalTimeZone) :
    parseExactCore input format none styles zone = pure (some (packed x.ticks 0)) := by
  simp [parseExactCore, hpattern, h, candidateOfFields_states hx hfields, hoffset, adjustAssumed,
    hstyles.assumeLocal, hstyles.assumeUniversal]

theorem parseExactCore_of_utc
    (hpattern : exactPattern format = some pattern) (hx : x.ticks ≤ maxTicks)
    (hfields : States x fields) (hoffset : fields.hasOffset = true)
    (hutc : fields.zoneIsUtc = true) (hminutes : fields.offsetMinutes = 0)
    (h : matchExactFormat input pattern .dateAndTime {} (exactOptions none .roundtripKind) =
      some fields) (zone : Option ILocalTimeZone) :
    parseExactCore input format none .roundtripKind zone = pure (some (packed x.ticks 1)) := by
  have hlt : x.ticks < 2 ^ 62 := x.ticks_lt
  have hround : DateTimeStyles.has .roundtripKind .roundtripKind = true := by decide
  have hkind : specifyKind (packed x.ticks 0) DateTimeKind.utc = pure (packed x.ticks 1) := by
    have hticks : (packed x.ticks 0).ticks = x.ticks := ticks_packed hlt (by decide)
    rw [specifyKind_eq (by rw [hticks]; exact hx) (by decide), hticks]
    rfl
  simp [parseExactCore, hpattern, h, candidateOfFields_states hx hfields, hoffset, hminutes,
    adjustZoned, hround, hutc, hkind]

/-- The formatter's pattern of `o`, up to the `K`.
SOURCE: DateTimeFormatInfo.hpp:496 -/
def formatterItems : List Item :=
  [.token .year, .quoted '\'' ['-'], .token .month, .quoted '\'' ['-'], .token .day,
    .quoted '\'' ['T'], .token .hour, .quoted '\'' [':'], .token .minute, .quoted '\'' [':'],
    .token .second, .plain '.', .token .fraction]

/-- The exact parser's pattern of `o`, up to the `K`.
SOURCE: InvariantExactDateTimeParser.hpp:268 -/
def parserItems : List Item :=
  [.token .year, .plain '-', .token .month, .plain '-', .token .day, .plain 'T', .token .hour,
    .plain ':', .token .minute, .plain ':', .token .second, .plain '.', .token .fraction]

def marker (x : DateTime) : List Char :=
  if x.getKindProperty = DateTimeKind.utc then ['Z'] else []

theorem render_parserItems (x : DateTime) : render x parserItems = render x formatterItems := rfl

theorem not_hasEscape_formatterItems : ¬ HasEscape formatterItems := by
  rintro ⟨c, hc⟩
  simp [formatterItems] at hc

theorem not_hasEscape_parserItems : ¬ HasEscape parserItems := by
  rintro ⟨c, hc⟩
  simp [parserItems] at hc

/-- The round-trip text: the clock and the marker of the kind. -/
theorem roundtrip_text (hx : x.ticks ≤ maxTicks) :
    x.toString "o".toList none = pure (render x parserItems ++ marker x) := by
  have hpattern : expandFormat "o".toList (DateTimeFormatInfo.getInstance none) =
      pure (spell formatterItems ++ ['K']) := by
    decide
  have hK : ∀ r, formatAll x (DateTimeFormatInfo.getInstance none) ⟨['K'], r⟩ =
      pure ⟨[], r ++ marker x⟩ := fun r => rfl
  rw [DateTime.toString]
  simp only [hpattern, pure_bind]
  rw [formatCustom_eq, formatAll_reads hx (by decide) not_hasEscape_formatterItems, hK, map_pure,
    List.nil_append, render_parserItems]

theorem render_parserItems_append (x : DateTime) (rest : List Char) :
    render x parserItems ++ rest = Token.year.output x ++ '-' :: (Token.month.output x ++ '-' ::
      (Token.day.output x ++ 'T' :: (Token.hour.output x ++ ':' :: (Token.minute.output x ++ ':' ::
      (Token.second.output x ++ '.' :: (Token.fraction.output x ++ rest)))))) := by
  simp [render, parserItems, Item.output]

theorem match_roundtrip (hx : x.ticks ≤ maxTicks) :
    matchExactFormat (render x parserItems ++ marker x) (spell parserItems ++ ['K']) .dateAndTime {}
        (exactOptions none .roundtripKind) =
      some (if x.getKindProperty = DateTimeKind.utc then
        { bindAll x (tokens parserItems) {} with zoneIsUtc := true, hasOffset := true }
        else bindAll x (tokens parserItems) {}) := by
  have hwhite : (exactOptions none .roundtripKind).allowInnerWhite = false := by decide
  have hzone : (exactOptions none .roundtripKind).allowZoneToken = true := rfl
  obtain ⟨-, -, hoffset, hutc⟩ := bindAll_default x (tokens parserItems)
  rw [matchExactFormat_eq (by decide) (Or.inl rfl) (Or.inl rfl),
    matchAll_reads (Or.inl hwhite) hx (by decide) not_hasEscape_parserItems _ (by decide)
      (fun t _ => by cases t <;> rfl)]
  rw [matchAll_cons _ _ (List.cons_ne_nil _ _)]
  generalize bindAll x (tokens parserItems) {} = fields at hoffset hutc
  have hrun : runOf false 'K' [] = 1 := rfl
  unfold marker
  split
  case isTrue hkind =>
    grind [matchStep, matchField, matchZone, take, isTimeToken, matchAll_nil]
  case isFalse hkind =>
    grind [matchStep, matchField, matchZone, take, takeSign, isTimeToken, matchAll_nil]

theorem rdropWhile_solid {d : Char} (h : isWhitespace d = false) (body : List Char) :
    (body ++ [d]).rdropWhile isWhitespace = body ++ [d] :=
  List.rdropWhile_concat_neg _ _ _ (by rw [h]; decide)

variable {text : List Char}

theorem trimDateTimeText_eq (hstart : text.dropWhile isWhitespace = text)
    (hend : text.rdropWhile isWhitespace = text) : trimDateTimeText text = text := by
  rw [trimDateTimeText, hstart, hend]

theorem dropWhile_render (x : DateTime) (rest : List Char) :
    (render x parserItems ++ rest).dropWhile isWhitespace = render x parserItems ++ rest := by
  have hyear : IsSolid (.token .year) := trivial
  rw [parserItems, render_cons]
  exact dropWhile_output hyear _

theorem trim_roundtrip (x : DateTime) :
    trimDateTimeText (render x parserItems ++ marker x) = render x parserItems ++ marker x := by
  refine trimDateTimeText_eq (dropWhile_render x _) ?_
  by_cases hkind : x.getKindProperty = DateTimeKind.utc
  · have hmarker : marker x = ['Z'] := if_pos hkind
    rw [hmarker]
    exact rdropWhile_solid (by decide) _
  · have hmarker : marker x = [] := if_neg hkind
    have hlast : Token.fraction.output x =
        Printed.text (Printed.fixed 10 6 (x.ticks % ticksPerSecond / 10)) ++
          [Printed.digitChar (x.ticks % ticksPerSecond % 10)] := by rfl
    have hend := render_parserItems_append x []
    rw [hlast] at hend
    simp only [← List.cons_append, ← List.append_assoc, List.append_nil] at hend
    rw [hmarker, List.append_nil, hend]
    exact rdropWhile_solid (isWhitespace_digitChar (Nat.mod_lt _ (by decide))) _

theorem takeFraction_reads {rest : List Char} {value : ℕ}
    (h : takeDigits 1 7 text = some (value, 7, rest)) (parts : DateTimeParts) :
    takeFraction ('.' :: text) parts = some ({ parts with fractionTicks := value }, rest) := by
  rw [takeFraction, show take '.' ('.' :: text) = some text from rfl]
  simp only [h, Option.bind_eq_bind, Option.bind_some, Nat.sub_self, pow_zero, mul_one]

theorem takeTimeParts_reads {afterHour afterMinute afterSecond rest : List Char}
    {hour minute second fraction n m k : ℕ}
    (hhour : takeDigits 1 2 text = some (hour, n, ':' :: afterHour))
    (hminute : takeDigits 1 2 afterHour = some (minute, m, ':' :: afterMinute))
    (hsecond : takeDigits 1 2 afterMinute = some (second, k, '.' :: afterSecond))
    (hfraction : takeDigits 1 7 afterSecond = some (fraction, 7, rest)) (parts : DateTimeParts) :
    takeTimeParts text parts =
      some ({ parts with hour, minute, second, fractionTicks := fraction }, rest) := by
  have hcolon : ∀ t, take ':' (':' :: t) = some t := fun t => rfl
  rw [takeTimeParts]
  simp only [hhour, hminute, hsecond, hcolon, Option.bind_eq_bind, Option.bind_some]
  exact takeFraction_reads hfraction _

theorem takeDateTimeParts_reads {afterYear afterMonth afterDay : List Char}
    {year month day n m k : ℕ}
    (hyear : takeDigits 4 4 text = some (year, n, '-' :: afterYear))
    (hmonth : takeDigits 1 2 afterYear = some (month, m, '-' :: afterMonth))
    (hday : takeDigits 1 2 afterMonth = some (day, k, 'T' :: afterDay)) :
    takeDateTimeParts text = takeTimeParts afterDay { year, month, day } := by
  have hdash : ∀ t, take '-' ('-' :: t) = some t := fun t => rfl
  have hmark : (take ' ' ('T' :: afterDay)).or (take 'T' ('T' :: afterDay)) = some afterDay := rfl
  simp [takeDateTimeParts, hyear, hmonth, hday, hdash, hmark]

def componentsOf (x : DateTime) : DateTimeParts where
  year := x.date.year
  month := x.date.month
  day := x.date.day
  hour := hourOf x.ticks
  minute := minuteOf x.ticks
  second := secondOf x.ticks
  fractionTicks := x.ticks % ticksPerSecond

theorem takeDateTimeParts_render (hx : x.ticks ≤ maxTicks) (rest : List Char) :
    takeDateTimeParts (render x parserItems ++ rest) = some (componentsOf x, rest) := by
  have hread : ∀ (t : Token) (min : ℕ), min ≤ t.width → ∀ rest,
      takeDigits min t.width (t.output x ++ rest) = some (t.value x, t.width, rest) :=
    fun t min hmin rest => takeDigits_fixed hmin (value_lt hx t) rest
  have htime := takeTimeParts_reads (hread .hour 1 (by decide) _) (hread .minute 1 (by decide) _)
    (hread .second 1 (by decide) _) (hread .fraction 1 (by decide) rest)
  rw [render_parserItems_append, takeDateTimeParts_reads (hread .year 4 (by decide) _)
    (hread .month 1 (by decide) _) (hread .day 1 (by decide) _), htime]
  rfl

theorem parseParts_roundtrip (hx : x.ticks ≤ maxTicks) :
    parseParts (render x parserItems ++ marker x) = some (componentsOf x) := by
  have hzone : dropZone (marker x) = some [] := by
    unfold marker
    split <;> rfl
  simp [parseParts, trim_roundtrip, takeDateTimeParts_render hx, hzone]

theorem tryParse_roundtrip (hx : x.ticks ≤ maxTicks) :
    tryParse (render x parserItems ++ marker x) = pure (true, packed x.ticks 0) := by
  have hdate := dateToTicks_date (d := x.date) (date_year_le hx) (hourOf_lt x.ticks)
    (minuteOf_lt x.ticks) (secondOf_lt x.ticks) (by decide : 0 < 1000)
  have hsplit := ticks_split x.ticks
  have hsum : (ticksOf x.date (hourOf x.ticks) (minuteOf x.ticks) (secondOf x.ticks) 0 : ℤ) +
      (x.ticks % ticksPerSecond : ℕ) = (x.ticks : ℕ) := by
    rw [ticksOf, dayNumber_date]
    omega
  have hlt := maxTicks_lt
  rw [tryParse, parseParts_roundtrip hx]
  simp only [componentsOf, Nat.cast_zero] at hdate ⊢
  rw [hdate, pure_bind, hsum, Run.signed_eq_pure (by decide) (by omega) (by omega), pure_bind,
    ofTicks_eq hx, pure_bind, Run.catching_pure]

/-- **The standard format `o` round-trips**: for a UTC or an unspecified value the exact parser
gives back the value, kind and all, and the general parser its ticks. -/
theorem roundtrip_format (x : DateTime) (hx : x.ticks ≤ maxTicks)
    (hkind : x.getKindProperty = DateTimeKind.utc ∨
      x.getKindProperty = DateTimeKind.unspecified) :
    ∃ text, x.toString "o".toList none = pure text ∧
      (∀ result zone,
        (tryParseExact text "o".toList none .roundtripKind result zone).1 = pure true ∧
        (tryParseExact text "o".toList none .roundtripKind result zone).2.ticks = x.ticks ∧
        (tryParseExact text "o".toList none .roundtripKind result zone).2.getKindProperty =
          x.getKindProperty) ∧
      ∃ y, tryParse text = pure (true, y) ∧ y.ticks = x.ticks := by
  have hpattern : exactPattern "o".toList = some (spell parserItems ++ ['K']) := by decide
  have hmatch := match_roundtrip hx
  have hall : ∀ t : Token, t ∈ tokens parserItems := by
    intro t
    cases t <;> decide
  have hstates := states_bindAll (x := x) hall
  obtain ⟨-, -, hoffset, -⟩ := bindAll_default x (tokens parserItems)
  have hzero : (bindAll x (tokens parserItems) {}).offsetMinutes = 0 := rfl
  have hself := eq_packed x
  refine ⟨_, roundtrip_text hx, fun result zone => ?_, _, tryParse_roundtrip hx,
    ticks_packed x.ticks_lt (by decide)⟩
  rcases hkind with hutc | hunspecified
  · have hbits : x.kindBits = 1 := by
      have hmin := (getKindProperty_eq x one_le_two).mp hutc
      omega
    rw [if_pos hutc] at hmatch
    have hutcStates : States x
        { bindAll x (tokens parserItems) {} with zoneIsUtc := true, hasOffset := true } :=
      ⟨fun t => (hstates.get t ▸ by cases t <;> rfl), hstates.twelveHour, hstates.weekday⟩
    have hcore := parseExactCore_of_utc hpattern hx hutcStates rfl rfl hzero hmatch zone
    rw [tryParseExact_of_core plainStyles_roundtrip hcore, ← hbits, ← hself]
    exact ⟨rfl, rfl, rfl⟩
  · have hbits : x.kindBits = 0 := by
      have hmin := (getKindProperty_eq x (Nat.zero_le 2)).mp hunspecified
      omega
    have hnot : x.getKindProperty ≠ DateTimeKind.utc := by
      rw [hunspecified]
      decide
    rw [if_neg hnot] at hmatch
    have hcore := parseExactCore_of_states plainStyles_roundtrip hpattern hx hstates hoffset hmatch
      zone
    rw [tryParseExact_of_core plainStyles_roundtrip hcore, ← hbits, ← hself]
    exact ⟨rfl, rfl, rfl⟩

/-- The last tick of a leap century, in UTC. -/
theorem roundtrip_format_leap_century :
    ∃ text, (packed 630822815999999999 1).toString "o".toList none = pure text ∧
      ∃ y, tryParse text = pure (true, y) ∧ y.ticks = (packed 630822815999999999 1).ticks := by
  obtain ⟨text, htext, -, hparse⟩ :=
    roundtrip_format (packed 630822815999999999 1) (by decide) (Or.inl (by decide))
  exact ⟨text, htext, hparse⟩

end SharpRuntime.Analysis.DateTimeRoundTrip
