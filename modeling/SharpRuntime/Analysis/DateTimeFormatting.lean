import SharpRuntime.Analysis.DateTimeCalendar
import SharpRuntime.Interface.DateTimeFormat

/-!
# The formatter and the matcher, item by item

`formatCustom` and `matchExactFormat` read the same formats by separate loops.  Each consumes its
format from the left (`formatFrom_cons`, `matchAll_cons`), and treats a token, a plain character or
a quotation as one step.  Over items without an escape the formatter writes `render`
(`formatFrom_reads`) and the matcher, reading that text, binds the tokens' values
(`matchAll_reads`).
-/

set_option autoImplicit false

namespace SharpRuntime.Analysis.DateTimeFormatting

open Machine Model Model.DateTime Interface
open DateTimeCalendar

/-! ## Runs of a specifier -/

variable {c : Char} {rest : List Char}

theorem takeWhile_replicate_append (h : rest.head? ≠ some c) (k : ℕ) :
    (List.replicate k c ++ rest).takeWhile (fun d => decide (d = c)) = List.replicate k c := by
  induction k with
  | zero =>
    cases rest with
    | nil => rfl
    | cons d rest =>
      have hd : d ≠ c := fun hd => h (by rw [hd]; rfl)
      simp [hd]
  | succ k ih =>
    rw [List.replicate_succ, List.cons_append, List.takeWhile_cons, if_pos (by simp), ih]

theorem runOf_replicate (h : rest.head? ≠ some c) (k : ℕ) :
    runOf false c (List.replicate k c ++ rest) = k + 1 := by
  rw [runOf, if_neg (by decide), takeWhile_replicate_append h, List.length_replicate]

/-! ## The formatter's loop -/

section Format

variable (x : DateTime) (info : DateTimeFormatInfo)

theorem appendOffset_ensures (offset : TimeSpan) (width : ℕ) :
    (appendOffset offset width).Ensures fun _ => True := by
  grind [appendOffset, Run.Ensures.pure, Run.Ensures.throwing]

/-- The text may grow, or lose a decimal point it ends with: a prefix that does not end with one
stays. -/
def Keeps (r r' : List Char) : Prop := ∀ p, p <+: r → p.getLast? ≠ some '.' → p <+: r'

theorem keeps_append (r text : List Char) : Keeps r (r ++ text) :=
  fun _ hp _ => hp.trans (List.prefix_append r text)

theorem Keeps.trans {r r' r'' : List Char} (h : Keeps r r') (h' : Keeps r' r'') : Keeps r r'' :=
  fun p hp hlast => h' p (h p hp hlast) hlast

theorem keeps_appendOptionalFraction (r fraction : List Char) :
    Keeps r (appendOptionalFraction r fraction) := by
  unfold appendOptionalFraction
  split
  case isFalse => exact keeps_append r fraction
  case isTrue hpop =>
    rintro p ⟨q, rfl⟩ hlast
    cases hq : q.reverse with
    | nil =>
      grind
    | cons d q' => grind

/-- What a token does to the format and to the text. -/
structure Advances (tail result : List Char) (s : FormatState) : Prop where
  rest : s.rest.length ≤ tail.length
  keeps : Keeps result s.result

theorem formatToken_ensures (offset : Option TimeSpan) (forceSingleToken : Bool) (c : Char)
    (tail result : List Char) :
    (formatToken x info offset forceSingleToken c tail result).Ensures (Advances tail result) := by
  have hdrop : ∀ n, (tail.drop n).length ≤ tail.length := fun n => by
    rw [List.length_drop]
    omega
  have hnext : ∀ n text, (pure ⟨tail.drop n, result ++ text⟩ : Run Exception FormatState).Ensures
      (Advances tail result) := fun n text => Run.Ensures.pure ⟨hdrop n, keeps_append _ _⟩
  have hthrow : ∀ e, (Run.throwing e : Run Exception FormatState).Ensures
      (Advances tail result) := fun e => Run.Ensures.throwing e
  unfold formatToken
  simp only
  refine Run.Ensures.ite (fun _ => hnext _ _) fun _ => ?_
  refine Run.Ensures.ite (fun _ => hnext _ _) fun _ => ?_
  refine Run.Ensures.ite (fun _ => hnext _ _) fun _ => ?_
  refine Run.Ensures.ite (fun _ => hnext _ _) fun _ => ?_
  refine Run.Ensures.ite (fun _ => hnext _ _) fun _ => ?_
  refine Run.Ensures.ite (fun _ => hnext _ _) fun _ => ?_
  refine Run.Ensures.ite (fun _ => hnext _ _) fun _ => ?_
  refine Run.Ensures.ite
    (fun _ => Run.Ensures.ite (fun _ => hthrow _) fun _ => hnext _ _) fun _ => ?_
  refine Run.Ensures.ite
    (fun _ => Run.Ensures.ite (fun _ => hthrow _)
      fun _ => Run.Ensures.pure ⟨hdrop _, keeps_appendOptionalFraction _ _⟩) fun _ => ?_
  refine Run.Ensures.ite (fun _ => hnext _ _) fun _ => ?_
  refine Run.Ensures.ite (fun _ => ?_) fun _ => ?_
  · cases offset with
    | none => exact hthrow _
    | some offset => exact Run.Ensures.bind (appendOffset_ensures _ _) fun _ _ => hnext _ _
  refine Run.Ensures.ite (fun _ => ?_) fun _ => ?_
  · cases offset with
    | none => exact hnext 0 _
    | some offset => exact Run.Ensures.bind (appendOffset_ensures _ _) fun _ _ => hnext 0 _
  refine Run.Ensures.ite (fun _ => ?_) fun _ => hnext 0 _
  cases hrest : tail.drop (tail.takeWhile (· ≠ c)).length with
  | nil => exact hthrow _
  | cons quote rest =>
    have hlen := congrArg List.length hrest
    rw [List.length_drop, List.length_cons] at hlen
    exact Run.Ensures.pure ⟨by simp only; omega, keeps_append _ _⟩

variable {s : FormatState}

theorem formatStep_ensures (offset : Option TimeSpan) (h : s.rest ≠ []) :
    (formatStep x info offset s).Ensures fun s' =>
      s'.rest.length < s.rest.length ∧ Keeps s.result s'.result := by
  unfold formatStep
  split
  case h_1 hnil => exact absurd hnil h
  case h_2 c tail hcons =>
    rw [hcons]
    split
    case isTrue =>
      split
      case h_1 => exact Run.Ensures.throwing _
      case h_2 d tail =>
        split
        case isTrue => exact Run.Ensures.throwing _
        case isFalse =>
          refine (formatToken_ensures x info offset true d tail s.result).mono fun s' hs' => ?_
          have hlen := hs'.rest
          simp only [List.length_cons]
          exact ⟨by omega, hs'.keeps⟩
    case isFalse =>
      refine (formatToken_ensures x info offset false c tail s.result).mono fun s' hs' => ?_
      have hlen := hs'.rest
      simp only [List.length_cons]
      exact ⟨by omega, hs'.keeps⟩

/-- The formatter from a state on, with the offset of its value. -/
def formatFrom (offset : Option TimeSpan) (s : FormatState) : Run Exception FormatState :=
  Run.whileLoop (fun s : FormatState => !s.rest.isEmpty) (formatStep x info offset) s.rest.length s

theorem formatCustom_from (format : List Char) (offset : Option TimeSpan) :
    x.formatCustom format info offset =
      FormatState.result <$> formatFrom x info offset ⟨format, []⟩ := rfl

theorem formatFrom_nil (offset : Option TimeSpan) (result : List Char) :
    formatFrom x info offset ⟨[], result⟩ = pure ⟨[], result⟩ := rfl

/-- One step of the formatter, and the rest. -/
theorem formatFrom_cons (offset : Option TimeSpan) (h : s.rest ≠ []) :
    formatFrom x info offset s = formatStep x info offset s >>= formatFrom x info offset := by
  have hcond : ∀ s : FormatState, (!s.rest.isEmpty) = true → s.rest ≠ [] := by
    intro s hs hnil
    rw [hnil] at hs
    cases hs
  refine Run.whileLoop_unroll (μ := fun s : FormatState => s.rest.length) ?_ ?_ ?_
  · intro s hs
    exact List.length_pos_iff.mpr (hcond s hs)
  · intro s hs
    exact (formatStep_ensures x info offset (hcond s hs)).mono fun s' hs' => hs'.1
  · simpa using h

/-- The formatter from a state on, for a value without an offset. -/
def formatAll (s : FormatState) : Run Exception FormatState :=
  Run.whileLoop (fun s : FormatState => !s.rest.isEmpty) (formatStep x info none) s.rest.length s

theorem formatCustom_eq (format : List Char) :
    x.formatCustom format info none = FormatState.result <$> formatAll x info ⟨format, []⟩ := rfl

theorem formatAll_nil (result : List Char) :
    formatAll x info ⟨[], result⟩ = pure ⟨[], result⟩ := rfl

theorem formatAll_cons (h : s.rest ≠ []) :
    formatAll x info s = formatStep x info none s >>= formatAll x info :=
  formatFrom_cons x info none h

variable {x info}

variable {s' : FormatState}

theorem formatAll_keeps (h : formatAll x info s = pure s') : Keeps s.result s'.result := by
  induction hlen : s.rest.length using Nat.strong_induction_on generalizing s with
  | _ n ih =>
    by_cases hnil : s.rest = []
    · have hs : s = ⟨[], s.result⟩ := by rw [← hnil]
      rw [hs, formatAll_nil, Run.pure_inj] at h
      rw [← h]
      exact fun p hp _ => hp
    · rw [formatAll_cons x info hnil] at h
      rcases formatStep_ensures x info none hnil with ⟨t, ht, hlt, hkeep⟩ | ⟨e, he⟩
      · rw [ht, pure_bind] at h
        exact hkeep.trans (ih t.rest.length (by omega) h rfl)
      · rw [he] at h
        cases h

theorem formatFrom_of_step {offset : Option TimeSpan} (h : s.rest ≠ [])
    (hs : formatStep x info offset s = pure s') :
    formatFrom x info offset s = formatFrom x info offset s' := by
  rw [formatFrom_cons x info offset h, hs, pure_bind]

theorem formatAll_of_step (h : s.rest ≠ [])
    (hs : formatStep x info none s = pure s') : formatAll x info s = formatAll x info s' :=
  formatFrom_of_step h hs

end Format

/-! ## The values of the tokens -/

theorem monthLength_le (year month : ℕ) : Gregorian.monthLength year month ≤ 31 := by
  unfold Gregorian.monthLength
  split
  · split <;> decide
  all_goals decide

variable {x : DateTime}

theorem value_lt (hx : x.ticks ≤ maxTicks) (t : Token) : t.value x < 10 ^ t.width := by
  have hyear := date_year_le hx
  have hmonth := x.date.month_le
  have hday := x.date.day_le.trans (monthLength_le _ _)
  have hhour := hourOf_lt x.ticks
  have hminute := minuteOf_lt x.ticks
  have hsecond := secondOf_lt x.ticks
  have hfraction : x.ticks % ticksPerSecond < 10000000 := Nat.mod_lt _ (by decide)
  cases t with
  | fraction => exact hfraction
  | _ => simp only [Token.value, Token.width]; omega

theorem pad_value (hx : x.ticks ≤ maxTicks) (t : Token) : pad (t.value x) t.width = t.output x := by
  have hwidth : 0 < t.width := by cases t <;> decide
  rw [pad, Printed.padded_eq_fixed (by decide) hwidth (value_lt hx t), Token.output]

theorem components_toNat (x : DateTime) :
    x.getYearProperty.toNat = x.date.year ∧ x.getMonthProperty.toNat = x.date.month ∧
      x.getDayProperty.toNat = x.date.day ∧ x.getHourProperty.toNat = hourOf x.ticks ∧
      x.getMinuteProperty.toNat = minuteOf x.ticks ∧
      x.getSecondProperty.toNat = secondOf x.ticks := by
  refine ⟨?_, ?_, ?_, ?_, ?_, ?_⟩
  · rw [getYearProperty, toTm_eq, sub_add_cancel, Int.toNat_natCast]
  · rw [getMonthProperty, toTm_eq, sub_add_cancel, Int.toNat_natCast]
  · rw [getDayProperty, toTm_eq, Int.toNat_natCast]
  · rw [getHourProperty, toTm_eq, Int.toNat_natCast, hourOf]
  · rw [getMinuteProperty, toTm_eq, Int.toNat_natCast, minuteOf]
  · rw [getSecondProperty, toTm_eq, Int.toNat_natCast, secondOf]

/-! ## One step of the formatter -/

section FormatStep

variable {x : DateTime} {info : DateTimeFormatInfo} {offset : Option TimeSpan}

theorem formatStep_token (hx : x.ticks ≤ maxTicks) (t : Token) {rest : List Char}
    (h : rest.head? ≠ some t.specifier) (r : List Char) :
    formatStep x info offset ⟨t.spelling ++ rest, r⟩ = pure ⟨rest, r ++ t.output x⟩ := by
  obtain ⟨hy, hmo, hd, hh, hmi, hs⟩ := components_toNat x
  have hpad := pad_value hx t
  have hlen : (t.output x).length = t.width := by
    rw [Token.output, Printed.length_text, Printed.length_fixed]
  have hrun := runOf_replicate h (t.width - 1)
  have hdrop : (List.replicate (t.width - 1) t.specifier ++ rest).drop (t.width - 1) = rest := by
    simp
  have hspelling : t.spelling = t.specifier :: List.replicate (t.width - 1) t.specifier := by
    cases t <;> rfl
  have hpercent : t.specifier ≠ '%' := by cases t <;> decide
  simp only [formatStep, hspelling, List.cons_append, hpercent, if_false, formatToken, hrun,
    Nat.add_sub_cancel, hdrop, hy, hmo, hd, hh, hmi, hs]
  rw [← hpad] at hlen ⊢
  cases t with
  | fraction =>
    have htake : (pad (x.ticks % ticksPerSecond) 7).take 7 = pad (x.ticks % ticksPerSecond) 7 :=
      List.take_of_length_le (le_of_eq hlen)
    simp [Token.specifier, Token.width, Token.value, htake]
  | _ => simp [Token.specifier, Token.width, Token.value, numberText]

theorem formatStep_literal {c : Char}
    (h : c ∉ ['y', 'M', 'd', 'H', 'h', 'm', 's', 'f', 'F', 't', 'z', 'K', '%', '\'', '"'])
    (rest r : List Char) : formatStep x info offset ⟨c :: rest, r⟩ = pure ⟨rest, r ++ [c]⟩ := by
  simp only [List.mem_cons, List.not_mem_nil, or_false, not_or] at h
  simp only [formatStep, formatToken, h, if_false, or_self]

theorem formatStep_quoted {quote : Char} (hq : quote = '\'' ∨ quote = '"') {body : List Char}
    (h : quote ∉ body) (rest r : List Char) :
    formatStep x info offset ⟨quote :: (body ++ quote :: rest), r⟩ = pure ⟨rest, r ++ body⟩ := by
  have hother : quote ∉ ['y', 'M', 'd', 'H', 'h', 'm', 's', 'f', 'F', 't', 'z', 'K', '%'] := by
    rcases hq with rfl | rfl <;> decide
  simp only [List.mem_cons, List.not_mem_nil, or_false, not_or] at hother
  simp only [formatStep, formatToken, hother, hq, if_true, if_false, Scan.takeWhile_ne h,
    List.drop_left]

end FormatStep

/-! ## The formatter over a format -/

section FormatAll

variable {x : DateTime} {info : DateTimeFormatInfo}

theorem spell_cons (item : Item) (items : List Item) (rest : List Char) :
    spell (item :: items) ++ rest = item.spelling ++ (spell items ++ rest) := by simp [spell]

theorem render_cons (item : Item) (items : List Item) (text : List Char) :
    render x (item :: items) ++ text = item.output x ++ (render x items ++ text) := by simp [render]

theorem spelling_ne_nil (t : Token) (rest : List Char) : t.spelling ++ rest ≠ [] := by
  cases t <;> simp [Token.spelling, Token.width, List.replicate_succ]

theorem quoted_spelling (quote : Char) (body rest : List Char) :
    (Item.quoted quote body).spelling ++ rest = quote :: (body ++ quote :: rest) := by
  simp [Item.spelling]

variable {items : List Item} {rest : List Char}

/-- A format written from items is rendered item by item. -/
theorem formatFrom_reads (offset : Option TimeSpan) (hx : x.ticks ≤ maxTicks)
    (h : Reads items rest) (hescape : ¬ HasEscape items) (r : List Char) :
    formatFrom x info offset ⟨spell items ++ rest, r⟩ =
      formatFrom x info offset ⟨rest, r ++ render x items⟩ := by
  induction items generalizing r with
  | nil => simp [spell, render]
  | cons item items ih =>
    have htail : ¬ HasEscape items := fun ⟨c, hc⟩ => hescape ⟨c, List.mem_cons_of_mem _ hc⟩
    have hrender : r ++ render x (item :: items) = r ++ item.output x ++ render x items := by
      simp [render]
    rw [spell_cons, hrender]
    cases item with
    | token t =>
      obtain ⟨hnext, hreads⟩ := h
      exact (formatFrom_of_step (spelling_ne_nil t _) (formatStep_token hx t hnext r)).trans
        (ih hreads htail _)
    | plain c =>
      obtain ⟨hplain, -, hreads⟩ := h
      have hc : c ∉ ['y', 'M', 'd', 'H', 'h', 'm', 's', 'f', 'F', 't', 'z', 'K', '%', '\'', '"'] := by
        unfold IsPlain at hplain
        simp only [List.mem_cons, List.not_mem_nil, or_false, not_or] at hplain ⊢
        simp only [hplain, not_false_eq_true, and_self]
      exact (formatFrom_of_step (List.cons_ne_nil _ _) (formatStep_literal hc _ r)).trans
        (ih hreads htail _)
    | quoted quote body =>
      obtain ⟨hquote, hbody, hreads⟩ := h
      rw [quoted_spelling, formatFrom_of_step (List.cons_ne_nil _ _)
        (formatStep_quoted hquote hbody _ r)]
      exact ih hreads htail _
    | escaped c => exact absurd ⟨c, List.mem_cons_self⟩ hescape

theorem formatAll_reads (hx : x.ticks ≤ maxTicks)
    (h : Reads items rest) (hescape : ¬ HasEscape items) (r : List Char) :
    formatAll x info ⟨spell items ++ rest, r⟩ =
      formatAll x info ⟨rest, r ++ render x items⟩ :=
  formatFrom_reads none hx h hescape r

end FormatAll

/-! ## The matcher's loop -/

section Match

variable (tokens : ExactTokenSet) (options : ExactParseOptions)

theorem length_drop_le (n : ℕ) (tail : List Char) : (tail.drop n).length ≤ tail.length := by
  rw [List.length_drop]
  omega

variable {s : MatchState}

variable {s' : MatchState}

theorem matchStep_lt (hne : s.format ≠ []) (h : matchStep tokens options s = some s') :
    s'.format.length < s.format.length := by
  simp only [matchStep] at h
  generalize (if options.allowInnerWhite = true then s.text.dropWhile isWhitespace else s.text) = text
    at h
  cases hformat : s.format with
  | nil => exact absurd hformat hne
  | cons c tail =>
    rw [hformat] at h
    simp only at h
    split at h
    case isTrue => grind
    case isFalse =>
    split at h
    case isTrue =>
      cases tail with
      | nil => cases h
      | cons d rest =>
        simp only [Option.map_eq_some_iff] at h
        obtain ⟨t, -, rfl⟩ := h
        simp only [List.length_cons]
        omega
    case isFalse =>
    split at h
    case isTrue =>
      cases hdrop : tail.drop (tail.takeWhile (fun d => decide (d ≠ c))).length with
      | nil =>
        rw [hdrop] at h
        cases h
      | cons quote rest =>
        rw [hdrop] at h
        simp only [Option.map_eq_some_iff] at h
        have hlen := length_drop_le (tail.takeWhile (fun d => decide (d ≠ c))).length tail
        grind
    case isFalse =>
      rw [Option.map_eq_some_iff] at h
      obtain ⟨t, -, rfl⟩ := h
      exact Nat.lt_succ_of_le (length_drop_le _ tail)

def matchAll (s : MatchState) : Option MatchState := matchLoop tokens options s.format.length s

theorem matchLoop_of_le {fuel : ℕ} (h : s.format.length ≤ fuel) :
    matchLoop tokens options fuel s = matchAll tokens options s := by
  induction fuel using Nat.strong_induction_on generalizing s with
  | _ fuel ih =>
    unfold matchAll
    cases hformat : s.format with
    | nil => cases fuel <;> simp [matchLoop, hformat]
    | cons c tail =>
      obtain ⟨f, hf⟩ : ∃ f, fuel = f + 1 := ⟨fuel - 1, by
        rw [hformat, List.length_cons] at h
        omega⟩
      rw [hf, List.length_cons]
      simp only [matchLoop, hformat, List.isEmpty_cons, Bool.false_eq_true, if_false]
      cases hstep : matchStep tokens options s with
      | none => rfl
      | some s' =>
        have hlt := matchStep_lt tokens options (by rw [hformat]; exact List.cons_ne_nil _ _) hstep
        grind

theorem matchAll_nil (text : List Char) (fields : ExactDateTimeFields) :
    matchAll tokens options ⟨[], text, fields⟩ = some ⟨[], text, fields⟩ := rfl

/-- One step of the matcher, and the rest. -/
theorem matchAll_cons (h : s.format ≠ []) :
    matchAll tokens options s = matchStep tokens options s >>= matchAll tokens options := by
  cases hformat : s.format with
  | nil => exact absurd hformat h
  | cons c tail =>
    have hunfold : matchAll tokens options s =
        matchStep tokens options s >>= matchLoop tokens options tail.length := by
      simp [matchAll, hformat, matchLoop]
    rw [hunfold]
    cases hstep : matchStep tokens options s with
    | none => rfl
    | some s' =>
      have hlt := matchStep_lt tokens options h hstep
      rw [hformat, List.length_cons] at hlt
      exact matchLoop_of_le tokens options (by omega)

variable {tokens options}

theorem matchAll_of_step (h : s.format ≠ []) (hs : matchStep tokens options s = some s') :
    matchAll tokens options s = matchAll tokens options s' := by
  rw [matchAll_cons tokens options h, hs]
  rfl

end Match

/-! ## Reading digits -/

theorem scanDigits_text {ds : List ℕ} (h : ∀ d ∈ ds, d < 10) (acc count : ℕ) (rest : List Char) :
    scanDigits ds.length acc count (Printed.text ds ++ rest) =
      (Printed.accumulate 10 acc ds, count + ds.length, rest) := by
  induction ds generalizing acc count with
  | nil => rfl
  | cons d ds ih =>
    grind [Printed.text, scanDigits, Printed.isDigit_digitChar,
      Printed.charDigit_digitChar, Printed.accumulate_cons]

theorem takeDigits_fixed {min w v : ℕ} (hmin : min ≤ w) (hv : v < 10 ^ w) (rest : List Char) :
    takeDigits min w (Printed.text (Printed.fixed 10 w v) ++ rest) = some (v, w, rest) := by
  have hscan := scanDigits_text (fun d (hd : d ∈ Printed.fixed 10 w v) =>
    Printed.lt_of_mem_fixed (by decide) hd) 0 0 rest
  rw [Printed.length_fixed, Nat.zero_add] at hscan
  have hvalue : Printed.accumulate 10 0 (Printed.fixed 10 w v) = v :=
    Printed.value_fixed_of_lt hv
  grind [takeDigits]

/-! ## One step of the matcher -/

section MatchStep

variable {options : ExactParseOptions} {x : DateTime}

variable {rest : List Char}

theorem matchStep_token (hwhite : options.allowInnerWhite = false) (hx : x.ticks ≤ maxTicks)
    (t : Token) (h : rest.head? ≠ some t.specifier) (text : List Char)
    {fields : ExactDateTimeFields} (hfree : t.get fields = t.unbound) :
    matchStep .dateAndTime options ⟨t.spelling ++ rest, t.output x ++ text, fields⟩ =
      some ⟨rest, text, t.bind (t.value x) fields⟩ := by
  have hvalue := value_lt hx t
  have hrun := runOf_replicate h (t.width - 1)
  have hdrop : (List.replicate (t.width - 1) t.specifier ++ rest).drop (t.width - 1) = rest := by
    simp
  have hspelling : t.spelling = t.specifier :: List.replicate (t.width - 1) t.specifier := by
    cases t <;> rfl
  have hother : t.specifier ≠ '%' ∧ t.specifier ≠ '\\' ∧ ¬ (t.specifier = '\'' ∨ t.specifier = '"') := by
    cases t <;> decide
  have hread := takeDigits_fixed (le_refl t.width) hvalue text
  have hfield : matchField .dateAndTime options t.specifier (t.width - 1 + 1) (t.output x ++ text)
      fields = some (t.bind (t.value x) fields, text) := by
    rw [← Token.output] at hread
    cases t <;>
      simp only [Token.get, Token.unbound] at hfree <;>
      simp [matchField, matchNumber, takeNumber, takeFixedDigits, isTimeToken, Token.specifier,
        Token.width, Token.bind, hfree] at hread ⊢ <;>
      simp [hread]
  simp [matchStep, hwhite, hspelling, hother, hrun, hfield, hdrop]

theorem takeAll_append (literal text : List Char) : takeAll literal (literal ++ text) = some text := by
  induction literal with
  | nil => rfl
  | cons c literal ih =>
    grind [takeAll, take]

theorem takeAll_eq_some {literal text : List Char} (h : takeAll literal text = some rest) :
    text = literal ++ rest := by
  induction literal generalizing text with
  | nil => simpa [takeAll] using h
  | cons c literal ih =>
    cases text with
    | nil => cases h
    | cons d text => grind [takeAll, take]

theorem matchStep_plain (hwhite : options.allowInnerWhite = false) {c : Char} (hc : IsPlain c)
    (h : rest.head? ≠ some c) (text : List Char) (fields : ExactDateTimeFields) :
    matchStep .dateAndTime options ⟨c :: rest, c :: text, fields⟩ = some ⟨rest, text, fields⟩ := by
  have hrun : runOf false c rest = 1 := runOf_replicate (c := c) h 0
  have htake : takeAll [c] (c :: text) = some text := takeAll_append [c] text
  unfold IsPlain at hc
  simp only [List.mem_cons, List.not_mem_nil, or_false, not_or] at hc
  simp [matchStep, matchField, isTimeToken, hwhite, hc, hrun, htake]

theorem matchStep_quoted (hwhite : options.allowInnerWhite = false) {quote : Char}
    (hq : quote = '\'' ∨ quote = '"') {body : List Char} (h : quote ∉ body)
    (rest text : List Char) (fields : ExactDateTimeFields) :
    matchStep .dateAndTime options ⟨quote :: (body ++ quote :: rest), text, fields⟩ =
      (takeAll body text).map fun text => ⟨rest, text, fields⟩ := by
  grind [matchStep, Scan.takeWhile_ne]

theorem matchStep_escaped (hwhite : options.allowInnerWhite = false) (c : Char)
    (rest text : List Char) (fields : ExactDateTimeFields) :
    matchStep .dateAndTime options ⟨'\\' :: c :: rest, text, fields⟩ =
      (take c text).map fun text => ⟨rest, text, fields⟩ := by
  simp [matchStep, hwhite]

end MatchStep

/-! ## The matcher over a format -/

section MatchAll

variable {options : ExactParseOptions} {x : DateTime}

/-- An item whose text starts with something else than white space. -/
def IsSolid : Item → Prop
  | .token _ => True
  | .plain c => isWhitespace c = false
  | .quoted _ _ | .escaped _ => False

theorem isWhitespace_digitChar {d : ℕ} (h : d < 10) : isWhitespace (Printed.digitChar d) = false := by
  revert d
  decide

theorem dropWhile_solid {c : Char} (h : isWhitespace c = false) (text : List Char) :
    (c :: text).dropWhile isWhitespace = c :: text :=
  List.dropWhile_cons_of_neg (by rw [h]; decide)

theorem dropWhile_output {item : Item} (h : IsSolid item) (text : List Char) :
    (item.output x ++ text).dropWhile isWhitespace = item.output x ++ text := by
  cases item with
  | token t =>
    have hdigits : ∀ d ∈ Printed.fixed 10 t.width (t.value x), d < 10 :=
      fun d hd => Printed.lt_of_mem_fixed (by decide) hd
    have hlen : (Printed.fixed 10 t.width (t.value x)).length = t.width := Printed.length_fixed ..
    rw [Item.output, Token.output]
    cases hfixed : Printed.fixed 10 t.width (t.value x) with
    | nil =>
      rw [hfixed] at hlen
      cases t <;> cases hlen
    | cons d ds =>
      rw [hfixed] at hdigits
      exact dropWhile_solid (isWhitespace_digitChar (hdigits d List.mem_cons_self)) _
  | plain c => exact dropWhile_solid h text
  | quoted quote body => exact h.elim
  | escaped c => exact h.elim

theorem matchStep_solid {allowed : ExactTokenSet} {format text : List Char}
    {fields : ExactDateTimeFields}
    (h : options.allowInnerWhite = false ∨ text.dropWhile isWhitespace = text) :
    matchStep allowed options ⟨format, text, fields⟩ =
      matchStep allowed { options with allowInnerWhite := false } ⟨format, text, fields⟩ := by
  rcases h with h | h
  · simp only [matchStep, h]
    rfl
  · simp only [matchStep, h, ite_self]
    rfl

/-- The matcher binds the tokens of a format without escapes from the text the formatter writes; with
white space between the items allowed, if that text has none in front of an item. -/
theorem matchAll_reads {items : List Item}
    (hwhite : options.allowInnerWhite = false ∨ ∀ item ∈ items, IsSolid item)
    (hx : x.ticks ≤ maxTicks) {rest : List Char} (h : Reads items rest) (hescape : ¬ HasEscape items)
    (text : List Char) {fields : ExactDateTimeFields} (hnodup : (tokens items).Nodup)
    (hfree : ∀ t ∈ tokens items, t.get fields = t.unbound) :
    matchAll .dateAndTime options ⟨spell items ++ rest, render x items ++ text, fields⟩ =
      matchAll .dateAndTime options ⟨rest, text, bindAll x (tokens items) fields⟩ := by
  induction items generalizing fields with
  | nil => rfl
  | cons item items ih =>
    have htail : ¬ HasEscape items := fun ⟨c, hc⟩ => hescape ⟨c, List.mem_cons_of_mem _ hc⟩
    have hskip : options.allowInnerWhite = false ∨
        (item.output x ++ (render x items ++ text)).dropWhile isWhitespace =
          item.output x ++ (render x items ++ text) :=
      hwhite.imp_right fun hsolid => dropWhile_output (hsolid item List.mem_cons_self) _
    have ih := ih (hwhite.imp_right fun hsolid i hi => hsolid i (List.mem_cons_of_mem _ hi))
    rw [spell_cons, render_cons]
    cases item with
    | token t =>
      obtain ⟨hnext, hreads⟩ := h
      have hnot := (List.nodup_cons.mp hnodup).1
      refine (matchAll_of_step (spelling_ne_nil t _) ((matchStep_solid hskip).trans
        (matchStep_token rfl hx t hnext _ (hfree t List.mem_cons_self)))).trans
        (ih hreads htail (List.nodup_cons.mp hnodup).2 fun t' ht' => ?_)
      have hne : t' ≠ t := fun heq => hnot (heq ▸ ht')
      rw [Token.get_bind_of_ne hne]
      exact hfree t' (List.mem_cons_of_mem _ ht')
    | plain c =>
      obtain ⟨hplain, hnext, hreads⟩ := h
      exact (matchAll_of_step (List.cons_ne_nil _ _) ((matchStep_solid hskip).trans
        (matchStep_plain rfl hplain hnext _ fields))).trans (ih hreads htail hnodup hfree)
    | quoted quote body =>
      obtain ⟨hquote, hbody, hreads⟩ := h
      rw [quoted_spelling]
      refine (matchAll_of_step (List.cons_ne_nil _ _) ((matchStep_solid hskip).trans ?_)).trans
        (ih hreads htail hnodup hfree)
      rw [matchStep_quoted rfl hquote hbody]
      exact congrArg (Option.map _) (takeAll_append body _)
    | escaped c => exact absurd ⟨c, List.mem_cons_self⟩ hescape

end MatchAll

/-! ## The value of the bound fields -/

/-- The fields of a text that states every component of `x`. -/
structure States (x : DateTime) (fields : ExactDateTimeFields) : Prop where
  get : ∀ t : Token, t.get fields = t.value x
  twelveHour : fields.twelveHour = false
  weekday : fields.weekday = -1

variable {ts : List Token}

variable {t : Token}

theorem get_bindAll_of_not_mem (h : t ∉ ts)
    (fields : ExactDateTimeFields) : t.get (bindAll x ts fields) = t.get fields := by
  induction ts generalizing fields with
  | nil => rfl
  | cons t' ts ih =>
    simp only [List.mem_cons, not_or] at h
    have hstep : bindAll x (t' :: ts) fields = bindAll x ts (t'.bind (t'.value x) fields) := rfl
    rw [hstep, ih h.2, Token.get_bind_of_ne h.1]

theorem get_bindAll (h : t ∈ ts)
    (fields : ExactDateTimeFields) : t.get (bindAll x ts fields) = t.value x := by
  induction ts generalizing fields with
  | nil => cases h
  | cons t' ts ih =>
    have hstep : bindAll x (t' :: ts) fields = bindAll x ts (t'.bind (t'.value x) fields) := rfl
    by_cases hmem : t ∈ ts
    · exact ih hmem _
    · grind [get_bindAll_of_not_mem, Token.get_bind]

theorem bindAll_default (x : DateTime) (ts : List Token) :
    (bindAll x ts {}).twelveHour = false ∧ (bindAll x ts {}).weekday = -1 ∧
      (bindAll x ts {}).hasOffset = false ∧ (bindAll x ts {}).zoneIsUtc = false := by
  have hstart : ∀ fields : ExactDateTimeFields, fields.twelveHour = false → fields.weekday = -1 →
      fields.hasOffset = false → fields.zoneIsUtc = false →
      (bindAll x ts fields).twelveHour = false ∧ (bindAll x ts fields).weekday = -1 ∧
        (bindAll x ts fields).hasOffset = false ∧ (bindAll x ts fields).zoneIsUtc = false := by
    induction ts with
    | nil => exact fun fields h1 h2 h3 h4 => ⟨h1, h2, h3, h4⟩
    | cons t ts ih =>
      intro fields h1 h2 h3 h4
      exact ih (t.bind (t.value x) fields) (by cases t <;> first | exact h1 | rfl)
        (by cases t <;> exact h2) (by cases t <;> exact h3) (by cases t <;> exact h4)
  exact hstart {} rfl rfl rfl rfl

theorem states_bindAll (h : ∀ t : Token, t ∈ ts) : States x (bindAll x ts {}) :=
  ⟨fun t => get_bindAll (h t) _, (bindAll_default x ts).1, (bindAll_default x ts).2.1⟩

end SharpRuntime.Analysis.DateTimeFormatting
