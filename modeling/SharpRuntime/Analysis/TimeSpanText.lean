import SharpRuntime.Analysis.DateTimeFormatting

/-!
# A `TimeSpan` is read back from its text

`toString` writes the text of the duration that the ticks make up (`toString_eq`), and
`parseTimeSpanCore` reads the text of any duration that has no more days than it admits
(`parseTimeSpanCore_text`): nothing is trimmed, the dot in front of the first colon is there exactly
where there are days, and the second colon is found again.
-/

set_option autoImplicit false

namespace SharpRuntime.Analysis.TimeSpanText

open Machine Model Model.TimeSpan Interface
open Printed
open Scan

variable (x : TimeSpan)

theorem magnitude_eq : x.magnitude = pure x.ticks.toInt.natAbs := by
  have hlo := x.ticks.le_toInt
  have hhi := x.ticks.toInt_lt
  unfold magnitude
  split
  case isTrue hneg =>
    have hlt : x.ticks.toInt < 0 := by
      have := Int64.lt_iff_toInt_lt.mp hneg
      simpa using this
    rw [Run.signed_eq_pure (by decide) (by omega) (by omega), pure_bind,
      Run.signed_eq_pure (by decide) (by omega) (by omega), pure_bind]
    have hnegated : -(x.ticks.toInt + 1) = ((x.ticks.toInt.natAbs - 1 : ℕ) : ℤ) := by omega
    rw [hnegated, wrap_of_lt (by omega)]
    have hsucc : ((x.ticks.toInt.natAbs - 1 : ℕ) : ℤ) + 1 = (x.ticks.toInt.natAbs : ℕ) := by omega
    rw [hsucc, Run.word_eq_pure (by omega)]
  case isFalse hneg =>
    have hge : 0 ≤ x.ticks.toInt := by
      by_contra hlt
      exact hneg (Int64.lt_iff_toInt_lt.mpr (by simpa using hlt))
    have hcast : x.ticks.toInt = (x.ticks.toInt.natAbs : ℕ) := by omega
    rw [hcast, wrap_of_lt (by omega), Int.natAbs_natCast]

def durationOf (x : TimeSpan) : Duration := .ofTicks (x.ticks < 0) x.ticks.toInt.natAbs

variable {w n : ℕ}

theorem setw_eq_fixed (hw : 0 < w) (h : n < 10 ^ w) :
    setw w n = text (fixed 10 w n) := by
  rw [setw, padded_eq_fixed (by decide) hw h]

/-- What is printed is the text of the duration. -/
theorem toString_eq : x.toString = pure (durationOf x).text := by
  have hhours := (durationOf x).hours_lt
  have hminutes := (durationOf x).minutes_lt
  have hseconds := (durationOf x).seconds_lt
  have hfraction := (durationOf x).fraction_lt
  have hunit : ticksPerSecond = 10000000 := rfl
  simp only [durationOf, Duration.ofTicks] at hhours hminutes hseconds hfraction
  rw [TimeSpan.toString, magnitude_eq, pure_bind]
  simp only
  rw [setw_eq_fixed (by decide) (by omega), setw_eq_fixed (by decide) (by omega),
    setw_eq_fixed (by decide) (by omega), setw_eq_fixed (by decide) (by omega)]
  have hsign : (if x.ticks < 0 then ['-'] else []) =
      if (durationOf x).negative then ['-'] else [] := by
    by_cases h : x.ticks < 0 <;> simp [durationOf, Duration.ofTicks, h]
  rw [hsign, List.append_assoc]
  rfl

theorem fixed_digits (w n : ℕ) : ∀ d ∈ fixed 10 w n, d < 10 := fun _ hd =>
  lt_of_mem_fixed (by decide) hd

theorem numeral_digits (n : ℕ) : ∀ d ∈ numeral 10 n, d < 10 := fun _ hd =>
  lt_of_mem_numeral (by decide) hd

theorem numeral_ne_nil (n : ℕ) : numeral 10 n ≠ [] :=
  List.ne_nil_of_length_pos (numeral_length_pos 10 n)

variable {c : Char}

theorem isDigit_of_mem_fixed (h : c ∈ text (fixed 10 w n)) :
    isDigit c = true := isDigit_of_mem_text (fixed_digits w n) h

theorem isDigit_of_mem_numeral (h : c ∈ text (numeral 10 n)) :
    isDigit c = true := isDigit_of_mem_text (numeral_digits n) h

variable {d : Duration}

theorem mem_headText (h : c ∈ d.headText) : isDigit c = true ∨ (c = '.' ∧ d.days ≠ 0) := by
  unfold Duration.headText at h
  split at h
  case isTrue hdays =>
    rcases List.mem_append.mp h with h | h
    · exact Or.inl (isDigit_of_mem_numeral h)
    · rcases List.mem_cons.mp h with h | h
      · exact Or.inr ⟨h, hdays⟩
      · exact Or.inl (isDigit_of_mem_fixed h)
  case isFalse => exact Or.inl (isDigit_of_mem_numeral h)

theorem mem_body (h : c ∈ d.body) : isDigit c = true ∨ c ∈ ['.', ':'] := by
  simp only [Duration.body, Duration.tailText, List.mem_append, List.mem_cons] at h
  rcases h with hhead | rfl | h | rfl | h | rfl | h
  · rcases mem_headText hhead with hdigit | ⟨rfl, -⟩
    · exact Or.inl hdigit
    · exact Or.inr (by decide)
  · exact Or.inr (by decide)
  · exact Or.inl (isDigit_of_mem_fixed h)
  · exact Or.inr (by decide)
  · exact Or.inl (isDigit_of_mem_fixed h)
  · exact Or.inr (by decide)
  · exact Or.inl (isDigit_of_mem_fixed h)

theorem not_mem_body (hdigit : isDigit c = false)
    (hother : c ∉ ['.', ':']) : c ∉ d.body := by
  intro h
  rcases mem_body h with h | h
  · rw [hdigit] at h
    cases h
  · exact hother h

theorem not_mem_text (hdigit : isDigit c = false)
    (hother : c ∉ ['-', '.', ':']) : c ∉ d.text := by
  simp only [List.mem_cons, not_or] at hother
  unfold Duration.text
  rw [List.mem_append, not_or]
  refine ⟨?_, not_mem_body hdigit (by simp [hother])⟩
  split
  · simp [hother.1]
  · exact List.not_mem_nil

theorem text_ne_nil (d : Duration) : d.text ≠ [] := by
  simp [Duration.text, Duration.body]

theorem trimInput_text (d : Duration) : trimInput d.text = d.text := by
  have hwhite : ∀ c ∈ d.text, DateTime.isWhitespace c = false := by
    intro c hc
    by_contra hspace
    simp only [DateTime.isWhitespace, Bool.not_eq_false, Bool.or_eq_true, decide_eq_true_eq] at hspace
    rcases hspace with ((((rfl | rfl) | rfl) | rfl) | rfl) | rfl <;>
      exact not_mem_text (by decide) (by decide) hc
  have hhead : d.text.head?.any DateTime.isWhitespace = false := by
    rw [List.head?_eq_some_head (text_ne_nil d), Option.any_some]
    exact hwhite _ (List.head_mem _)
  have hlast : d.text.getLast?.any DateTime.isWhitespace = false := by grind
  rw [trimInput, hhead, hlast]
  rfl

theorem overlongFrom_digits {ds : List ℕ} (h : ∀ d ∈ ds, d < 10) {run : ℕ}
    (hshort : run + ds.length ≤ kParseMaxDigitRun) (rest : List Char) :
    overlongFrom run (text ds ++ rest) = overlongFrom (run + ds.length) rest := by
  induction ds generalizing run with
  | nil => rfl
  | cons d ds ih =>
    rw [List.length_cons] at hshort ⊢
    have hd := isDigit_digitChar (h d List.mem_cons_self)
    have hcons : text (d :: ds) ++ rest =
        digitChar d :: (text ds ++ rest) := rfl
    grind [overlongFrom]

theorem overlongFrom_separator (h : isDigit c = false) (run : ℕ) (rest : List Char) :
    overlongFrom run (c :: rest) = overlongFrom 0 rest := by
  rw [overlongFrom, if_neg (by rw [h]; decide)]

theorem overlongFrom_fixed (hw : w ≤ kParseMaxDigitRun) (n : ℕ) (rest : List Char) :
    overlongFrom 0 (text (fixed 10 w n) ++ rest) = overlongFrom w rest := by
  rw [overlongFrom_digits (fixed_digits w n) (by rw [length_fixed]; omega),
    length_fixed, Nat.zero_add]

theorem hasOverlongDigitRun_text (hdays : d.days ≤ kParseMaxDays) :
    hasOverlongDigitRun d.text = false := by
  have hmax : kParseMaxDigitRun = 18 := rfl
  have hnumeral : ∀ {n}, n < 10 ^ 8 → ∀ rest, overlongFrom 0 (text (numeral 10 n) ++ rest) =
      overlongFrom (numeral 10 n).length rest := by
    intro n hn rest
    have hlen := numeral_length_le (b := 10) (by decide) (w := 8) (by decide) hn
    rw [overlongFrom_digits (numeral_digits n) (by omega), Nat.zero_add]
  have htail : overlongFrom 0 d.tailText = false := by
    rw [Duration.tailText, overlongFrom_fixed (by decide), overlongFrom_separator (by decide),
      overlongFrom_fixed (by decide), overlongFrom_separator (by decide),
      ← List.append_nil (text (fixed 10 7 d.fraction)),
      overlongFrom_fixed (by decide)]
    rfl
  have hbody : overlongFrom 0 d.body = false := by
    have hhours := d.hours_lt
    have hlimit : kParseMaxDays = 10675199 := rfl
    unfold Duration.body Duration.headText
    split
    · rw [List.append_assoc, hnumeral (by omega), List.cons_append, overlongFrom_separator (by decide),
        overlongFrom_fixed (by decide), overlongFrom_separator (by decide), htail]
    · rw [hnumeral (by omega), overlongFrom_separator (by decide), htail]
  rw [hasOverlongDigitRun, Duration.text]
  split
  · exact (overlongFrom_separator (by decide) 0 d.body).trans hbody
  · exact hbody


theorem noDigitHead_separator (h : isDigit c = false) (rest : List Char) :
    NoDigitHead (c :: rest) := noDigitHead_cons h rest

variable {rest : List Char}

theorem sscanf_fixed (hw : 0 < w) (hw18 : w ≤ 18) (h : n < 10 ^ w)
    (hrest : NoDigitHead rest) (format : List Directive) :
    (sscanf (.longLong :: format) (text (fixed 10 w n) ++ rest) :
        Run Exception (List ℤ)) =
      (sscanf format rest >>= fun others => pure ((n : ℤ) :: others)) := by
  have hvalue := value_fixed_of_lt h
  have hfits : n < 2 ^ 63 := h.trans_le ((Nat.pow_le_pow_right (by decide) hw18).trans (by decide))
  have hne : fixed 10 w n ≠ [] := List.ne_nil_of_length_pos (by rwa [length_fixed])
  rw [sscanf_longLong (fixed_digits w n) hne (by rwa [hvalue]) hrest, hvalue]

theorem sscanf_numeral (h : n < 2 ^ 63) (hrest : NoDigitHead rest)
    (format : List Directive) :
    (sscanf (.longLong :: format) (text (numeral 10 n) ++ rest) :
        Run Exception (List ℤ)) =
      (sscanf format rest >>= fun others => pure ((n : ℤ) :: others)) := by
  have hvalue := value_numeral 10 n
  rw [sscanf_longLong (numeral_digits n) (numeral_ne_nil n) (by rwa [hvalue]) hrest, hvalue]

theorem sscanf_tailText (d : Duration) :
    (sscanf [.longLong, .char ':', .longLong] d.tailText : Run Exception (List ℤ)) =
      pure [(d.minutes : ℤ), (d.seconds : ℤ)] := by
  have hminutes := d.minutes_lt
  have hseconds := d.seconds_lt
  rw [Duration.tailText, sscanf_fixed (by decide) (by decide) (by omega)
      (noDigitHead_separator (by decide) _), sscanf_char,
    sscanf_fixed (by decide) (by decide) (by omega) (noDigitHead_separator (by decide) _)]
  rfl

theorem elem_dot_body (d : Duration) :
    (d.body.takeWhile (fun c => decide (c ≠ ':'))).elem '.' = decide (d.days ≠ 0) := by
  have hcolon : ':' ∉ d.headText := by
    intro h
    rcases mem_headText h with h | ⟨h, -⟩ <;> exact absurd h (by decide)
  rw [Duration.body, takeWhile_ne hcolon, Bool.eq_iff_iff, List.elem_iff, decide_eq_true_eq]
  constructor
  · intro h
    rcases mem_headText h with h | ⟨-, h⟩
    · exact absurd h (by decide)
    · exact h
  · intro h
    simp [Duration.headText, h]

theorem scanFields_body (hdays : d.days ≤ kParseMaxDays) :
    scanFields d.body = pure (some ((d.days : ℤ), (d.hours : ℤ), (d.minutes : ℤ), (d.seconds : ℤ))) := by
  have hlimit : kParseMaxDays = 10675199 := rfl
  have hhours := d.hours_lt
  have htail := sscanf_tailText d
  unfold scanFields
  simp only [elem_dot_body]
  by_cases hzero : d.days = 0
  · have hbody : d.body = text (numeral 10 d.hours) ++ ':' :: d.tailText := by
      rw [Duration.body, Duration.headText, if_neg (not_not.mpr hzero)]
    rw [if_neg (by simp [hzero]), hbody, sscanf_numeral (by omega)
      (noDigitHead_separator (by decide) _), sscanf_char, htail, hzero]
    rfl
  · have hbody : d.body = text (numeral 10 d.days) ++ '.' ::
        (text (fixed 10 2 d.hours) ++ ':' :: d.tailText) := by
      rw [Duration.body, Duration.headText, if_pos hzero, List.append_assoc, List.cons_append]
    rw [if_pos (by simp [hzero]), hbody, sscanf_numeral (by omega)
      (noDigitHead_separator (by decide) _), sscanf_char, sscanf_fixed (by decide) (by decide)
      (by omega) (noDigitHead_separator (by decide) _), sscanf_char, htail]
    rfl

theorem afterColons_colon {l : List Char} (h : ':' ∉ l) (n : ℕ) (rest : List Char) :
    afterColons (n + 1) (l ++ ':' :: rest) = afterColons n rest := by
  induction l with
  | nil => rw [List.nil_append, afterColons, if_pos rfl]
  | cons c l ih =>
    grind [afterColons]

theorem takeSubsecond_body (d : Duration) : takeSubsecond d.body = (d.fraction, []) := by
  have hcolonHead : ':' ∉ d.headText := by
    intro h
    rcases mem_headText h with h | ⟨h, -⟩ <;> exact absurd h (by decide)
  have hcolonMinutes : ':' ∉ text (fixed 10 2 d.minutes) :=
    Scan.not_mem_text (fixed_digits _ _) (by decide)
  have hafter : (afterColons 2 d.body).dropWhile isDigit =
      '.' :: text (fixed 10 7 d.fraction) := by
    rw [Duration.body, afterColons_colon hcolonHead, Duration.tailText,
      afterColons_colon hcolonMinutes, afterColons,
      dropWhile_text (fixed_digits _ _) (noDigitHead_separator (by decide) _)]
  have hscan := DateTimeFormatting.scanDigits_text (fixed_digits 7 d.fraction) 0 0 []
  rw [length_fixed, List.append_nil] at hscan
  have hvalue : accumulate 10 0 (fixed 10 7 d.fraction) = d.fraction :=
    value_fixed_of_lt d.fraction_lt
  grind [takeSubsecond, DateTime.take]

/-- The text of a duration is read back. -/
theorem parseTimeSpanCore_text (hdays : d.days ≤ kParseMaxDays) :
    parseTimeSpanCore d.text = pure (ofMagnitude d.negative d.magnitude) := by
  have hnul : d.text.takeWhile (fun c => decide (c ≠ '\x00')) = d.text := by
    rw [List.takeWhile_eq_self_iff]
    intro c hc
    rw [decide_eq_true_eq]
    rintro rfl
    exact not_mem_text (by decide) (by decide) hc
  have hsign : decide (d.text.head? = some '-') = d.negative := by
    unfold Duration.text
    cases d.negative with
    | true => rfl
    | false =>
      rw [decide_eq_false_iff_not]
      exact fun h => not_mem_body (by decide) (by decide) (List.mem_of_head? h)
  have hrest : (if d.negative then d.text.tail else d.text) = d.body := by
    unfold Duration.text
    cases d.negative <;> rfl
  have hlimit : kParseMaxDays = 10675199 := rfl
  have hhours := d.hours_lt
  have hminutes := d.minutes_lt
  have hseconds := d.seconds_lt
  have hfraction := d.fraction_lt
  have hsecond : ticksPerSecond = 10000000 := rfl
  have hminute : ticksPerMinute = 600000000 := rfl
  have hhour : ticksPerHour = 36000000000 := rfl
  have hday : ticksPerDay = 864000000000 := rfl
  have hmagnitude : wrap 64 ((d.days : ℤ) * ticksPerDay + d.hours * ticksPerHour
      + d.minutes * ticksPerMinute + d.seconds * ticksPerSecond + (d.fraction : ℕ)) = d.magnitude := by
    have hcast : (d.days : ℤ) * ticksPerDay + d.hours * ticksPerHour
        + d.minutes * ticksPerMinute + d.seconds * ticksPerSecond + (d.fraction : ℕ) =
        (d.magnitude : ℕ) := by rfl
    rw [hcast, wrap_of_lt]
    rw [Duration.magnitude, hday, hhour, hminute, hsecond]
    omega
  rw [parseTimeSpanCore, if_neg (text_ne_nil d), trimInput_text, if_neg (text_ne_nil d),
    hasOverlongDigitRun_text hdays]
  simp only [Bool.false_eq_true, if_false, hnul, hsign, hrest, scanFields_body hdays, pure_bind]
  rw [ofFields, if_neg (by omega), if_neg (by omega), if_neg (by omega)]
  simp only [takeSubsecond_body, ne_eq, not_true_eq_false, if_false, hmagnitude]

theorem ofMagnitude_durationOf :
    ofMagnitude (durationOf x).negative (durationOf x).magnitude = .ok x := by
  have hlo := x.ticks.le_toInt
  have hhi := x.ticks.toInt_lt
  have hneg : x.ticks < 0 ↔ x.ticks.toInt < 0 := by
    simpa using Int64.lt_iff_toInt_lt (x := x.ticks) (y := 0)
  rw [durationOf, Duration.magnitude_ofTicks, ofMagnitude, Duration.ofTicks]
  simp only [decide_eq_true_eq]
  by_cases hlt : x.ticks < 0
  · have hmagnitude : -((x.ticks.toInt.natAbs : ℕ) : ℤ) = x.ticks.toInt := by
      have := hneg.mp hlt
      omega
    rw [if_pos hlt, if_neg (by omega), hmagnitude, Int64.ofInt_toInt]
  · have hmagnitude : ((x.ticks.toInt.natAbs : ℕ) : ℤ) = x.ticks.toInt := by
      have := mt hneg.mpr hlt
      omega
    rw [if_neg hlt, if_neg (by omega), hmagnitude, Int64.ofInt_toInt]

/-- **A `TimeSpan` round-trips through its text**, the smallest one included: `toString` returns a
text, and `parse` gives the value back from it. -/
theorem parse_toString (x : TimeSpan) : x.toString >>= parse = pure x := by
  have hdays : (durationOf x).days ≤ kParseMaxDays := by
    have hlo := x.ticks.le_toInt
    have hhi := x.ticks.toInt_lt
    have hlimit : kParseMaxDays = 10675199 := rfl
    have hday : ticksPerDay = 864000000000 := rfl
    simp only [durationOf, Duration.ofTicks, hday]
    omega
  rw [toString_eq, pure_bind, parse, parseTimeSpanCore_text hdays, pure_bind,
    ofMagnitude_durationOf]

end SharpRuntime.Analysis.TimeSpanText
