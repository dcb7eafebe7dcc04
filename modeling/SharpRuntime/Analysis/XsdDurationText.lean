import SharpRuntime.Analysis.TimeSpanText
import SharpRuntime.Model.XmlConvert

/-!
# XSD durations

The text of a duration leaves out the components that are zero.  The parser looks for the components
one by one, with the digits of the next one already read: a component that is there is taken
(`component_take`), and one that is not is passed over, since the digits in front belong to another
designator (`component_skip`).
-/

set_option autoImplicit false

namespace SharpRuntime.Analysis.XsdDurationText

open Machine
open Model Model.XmlConvert
open Printed

variable {ds : List ℕ} {value : ℕ}

variable {rest : List Char}

theorem durationDigits_text (h : ∀ d ∈ ds, d < 10)
    (hrest : Scan.NoDigitHead rest) (eatDigits : Bool) (count : ℕ)
    (hfits : accumulate 10 value ds ≤ 2147483647) :
    durationDigits eatDigits value count (text ds ++ rest) =
      some (accumulate 10 value ds, count + ds.length, rest) := by
  induction ds generalizing value count with
  | nil =>
    cases rest with
    | nil => rfl
    | cons c rest =>
      have hc := hrest c rfl
      simp [durationDigits, text, hc]
  | cons d ds ih =>
    have hd : d < 10 := h d List.mem_cons_self
    have hstep := le_accumulate (b := 10) (by decide) (value * 10 + d) ds
    rw [accumulate_cons] at hfits ⊢
    have hroom : ¬ (2147483647 - d) / 10 < value := by omega
    have hcons : text (d :: ds) ++ rest = digitChar d :: (text ds ++ rest) := rfl
    rw [hcons, durationDigits, if_pos (isDigit_digitChar hd), charDigit_digitChar hd]
    rw [if_neg hroom, ih (fun e he => h e (List.mem_cons_of_mem _ he)) (count + 1) hfits,
      List.length_cons, Nat.add_assoc, Nat.add_comm 1]

theorem tryParseDurationDigits_text (h : ∀ d ∈ ds, d < 10)
    (hrest : Scan.NoDigitHead rest) (eatDigits : Bool) (hfits : Printed.value 10 ds ≤ 2147483647)
    (hlength : ds.length ≤ 10) :
    tryParseDurationDigits (Printed.text ds ++ rest) eatDigits =
      some (Printed.value 10 ds, (ds.length : ℤ), rest) := by
  have hcast : ((0 + ds.length : ℕ) : ℤ).bmod (2 ^ 32) = ds.length := by
    rw [Nat.zero_add]
    exact Int.bmod_eq_of_le (by omega) (by omega)
  rw [tryParseDurationDigits, durationDigits_text h hrest eatDigits 0 hfits]
  simp only [Option.bind_eq_bind, Option.bind_some, hcast]
  rfl

variable {s : List Char}

variable {n : ℕ} {c : Char}

theorem nextDigits_number (hn : n ≤ 2147483647) (hc : isDigit c = false)
    (rest : List Char) (result : XsdDuration) (anyPart : Bool) :
    ∃ k : ℤ, k ≠ 0 ∧ nextDigits (DateTime.toText n ++ c :: rest) result anyPart =
      .ok ⟨c :: rest, n, k, result, anyPart⟩ := by
  have hvalue := value_numeral 10 n
  have hlength := numeral_length_le (b := 10) (by decide) (w := 10) (by decide)
    (show n < 10 ^ 10 by omega)
  have hpos := numeral_length_pos 10 n
  refine ⟨(numeral 10 n).length, by omega, ?_⟩
  have hdigits := tryParseDurationDigits_text (TimeSpanText.numeral_digits n)
    (Scan.noDigitHead_cons hc rest) false (by rwa [hvalue]) hlength
  rw [XmlConvert.nextDigits, DateTime.toText, hdigits, hvalue]
  rfl

def designator (s : List Char) : Option Char := (s.dropWhile isDigit).head?

theorem designator_componentText (v : ℕ) (hc : isDigit c = false) (rest : List Char) :
    designator (componentText v c ++ rest) = if v ≠ 0 then some c else designator rest := by
  rw [componentText]
  split
  · rw [designator, DateTime.toText, List.append_assoc, List.singleton_append,
      Scan.dropWhile_text (TimeSpanText.numeral_digits v) (Scan.noDigitHead_cons hc rest)]
    rfl
  · rw [List.nil_append]

theorem dropWhile_of_durationDigits {eatDigits : Bool} {count value' count' : ℕ} {s' : List Char}
    (h : durationDigits eatDigits value count s = some (value', count', s')) :
    s' = s.dropWhile isDigit := by
  fun_induction durationDigits eatDigits value count s with
  | case1 => cases h; rfl
  | case2 value count c s hc digit hfull heat ih => rw [List.dropWhile_cons_of_pos hc, ih h]
  | case3 => cases h
  | case4 value count c s hc digit hfull ih => rw [List.dropWhile_cons_of_pos hc, ih h]
  | case5 value count c s hc =>
    rw [List.dropWhile_cons_of_neg hc]
    cases h
    rfl

/-- A component whose designator does not follow is left out. -/
theorem component_skip (h : designator s ≠ some c)
    (set : XsdDuration → ℕ → XsdDuration) (result : XsdDuration) (anyPart : Bool) :
    (nextDigits s result anyPart >>= component c set) = nextDigits s result anyPart := by
  rw [nextDigits, tryParseDurationDigits]
  cases hdigits : durationDigits false 0 0 s with
  | none => rfl
  | some digits =>
    obtain ⟨value, count, rest⟩ := digits
    have hrest := dropWhile_of_durationDigits hdigits
    simp only [Option.bind_eq_bind, Option.bind_some]
    by_cases hnil : rest = []
    · rw [if_pos hnil]
      rfl
    · rw [if_neg hnil]
      refine if_neg ?_
      rw [hrest]
      exact h

theorem designator_time (rest : List Char) : designator ('T' :: rest) = some 'T' := rfl

variable {v : ℕ}

/-- A component that follows is taken, and the next number is read. -/
theorem component_take (hv : v ≠ 0) (hmax : v ≤ 2147483647)
    (hc : isDigit c = false) (set : XsdDuration → ℕ → XsdDuration) (rest : List Char)
    (result : XsdDuration) (anyPart : Bool) :
    (nextDigits (componentText v c ++ rest) result anyPart >>= component c set) =
      if rest = [] then .error (some (set result v)) else nextDigits rest (set result v) true := by
  obtain ⟨k, hk, hdigits⟩ := nextDigits_number hmax hc rest result anyPart
  rw [componentText, if_pos hv, List.append_assoc, List.cons_append, List.nil_append, hdigits]
  exact (if_pos rfl).trans (if_neg hk)

theorem scaleUp_eq {times : ℕ} (h : value * 10 ^ times < 2 ^ 63) :
    scaleUp times value = pure ((value * 10 ^ times : ℕ) : ℤ) := by
  induction times generalizing value with
  | zero => simp [scaleUp]
  | succ times ih =>
    have hpow : value * 10 * 10 ^ times = value * 10 ^ (times + 1) := by ring
    have hpos : 1 ≤ 10 ^ times := Nat.one_le_pow _ _ (by decide)
    have hstep : value * 10 ≤ value * 10 * 10 ^ times := Nat.le_mul_of_pos_right _ hpos
    rw [scaleUp, Run.signed_eq_pure (by decide) (by omega) (by omega), pure_bind,
      show (value : ℤ) * 10 = ((value * 10 : ℕ) : ℤ) by push_cast; rfl, ih (by rwa [hpow]), hpow]

theorem trimZeros_text (h : ∀ d ∈ ds, d < 10) : ∃ es k, ds = es ++ List.replicate k 0 ∧
      DateTime.trimZeros (text ds) = text es := by
  induction ds using List.reverseRecOn with
  | nil => exact ⟨[], 0, rfl, rfl⟩
  | append_singleton ds d ih =>
    have htext : text (ds ++ [d]) = text ds ++ [digitChar d] := by
      rw [text, List.map_append]
      rfl
    rw [DateTime.trimZeros, htext]
    by_cases hd : d = 0
    · obtain ⟨es, k, hes, htrim⟩ := ih fun e he => h e (List.mem_append_left _ he)
      refine ⟨es, k + 1, ?_, ?_⟩
      · rw [hes, hd, List.replicate_succ', List.append_assoc]
      · rw [List.rdropWhile_concat_pos _ _ _ (by rw [hd]; decide)]
        exact htrim
    · refine ⟨ds ++ [d], 0, (List.append_nil _).symm, ?_⟩
      rw [List.rdropWhile_concat_neg, htext]
      have hlt : d < 10 := h d (by simp)
      have hne : digitChar d ≠ '0' := by
        intro heq
        have hdigit := charDigit_digitChar hlt
        rw [heq] at hdigit
        exact hd hdigit.symm
      simp [hne]

theorem fractionText_eq (hn : n < 10 ^ 9) (hne : n ≠ 0) :
    ∃ ds : List ℕ, fractionText n = '.' :: Printed.text ds ∧ (∀ d ∈ ds, d < 10) ∧ ds.length ≤ 9 ∧
      Printed.value 10 ds < 10 ^ 9 ∧
      fractionValue (Printed.value 10 ds) ds.length = pure (n : ℤ) := by
  have hdigits := TimeSpanText.fixed_digits 9 n
  obtain ⟨ds, k, hfixed, htrim⟩ := trimZeros_text hdigits
  have hmem : ∀ d ∈ ds, d < 10 := fun d hd => hdigits d (by rw [hfixed]; exact List.mem_append_left _ hd)
  have hlength : ds.length + k = 9 := by
    have h := length_fixed 10 9 n
    rwa [hfixed, List.length_append, List.length_replicate] at h
  have hvalue : value 10 ds * 10 ^ k = n := by
    have h := value_fixed_of_lt hn
    rwa [hfixed, value_append, value_replicate_zero, List.length_replicate,
      Nat.add_zero] at h
  have hbound := value_lt hmem
  have hpow : 10 ^ ds.length ≤ 10 ^ 9 := Nat.pow_le_pow_right (by decide) (by omega)
  have hsome : ds.length ≠ 0 := by
    intro h
    rw [List.length_eq_zero_iff.mp h, value_nil, Nat.zero_mul] at hvalue
    exact hne hvalue.symm
  refine ⟨ds, by rw [fractionText, htrim], hmem, by omega, by omega, ?_⟩
  have hdown : ((ds.length : ℤ) - 9).toNat = 0 := by omega
  have hup : (9 - (ds.length : ℤ)).toNat = k := by omega
  rw [fractionValue, if_neg (by omega), hdown, hup, Nat.pow_zero, Nat.div_one,
    scaleUp_eq (by rw [hvalue]; omega), hvalue]

theorem secondsPart_text {seconds nanoseconds : ℕ} (hseconds : seconds < 60)
    (hnano : nanoseconds < 10 ^ 9) (hne : seconds ≠ 0 ∨ nanoseconds ≠ 0) (result : XsdDuration)
    (anyPart : Bool) (hresult : result.nanoseconds = 0) :
    returnOr (nextDigits (secondsText seconds nanoseconds) result anyPart) secondsPart =
      pure (some { result with seconds := seconds, nanoseconds := nanoseconds }) := by
  rw [secondsText, if_pos hne]
  by_cases hfraction : nanoseconds = 0
  · obtain ⟨k, hk, hdigits⟩ := nextDigits_number (n := seconds) (by omega) (c := 'S') rfl [] result anyPart
    rw [if_neg (not_not.mpr hfraction), List.append_nil, hdigits]
    simp only [returnOr, secondsPart, List.head?_cons, Option.some_inj, List.tail_cons, if_neg hk,
      if_true, Char.reduceEq, if_false]
    rw [hfraction, ← hresult]
  · obtain ⟨ds, htext, hmem, hlength, hlt, hvalue⟩ := fractionText_eq hnano hfraction
    obtain ⟨k, hk, hdigits⟩ := nextDigits_number (n := seconds) (by omega) (c := '.') rfl
      (text ds ++ ['S']) result anyPart
    have hread := tryParseDurationDigits_text hmem (Scan.noDigitHead_cons (c := 'S') rfl []) true
      (by omega) (by omega)
    rw [if_pos hfraction, htext, List.append_assoc, List.cons_append, hdigits]
    simp only [returnOr, secondsPart, List.head?_cons, if_true, fractionalSeconds, List.tail_cons,
      hread, hvalue, pure_bind, ne_eq, not_true_eq_false, if_false, Int.toNat_natCast]

variable {s : ℕ}

theorem secondsText_ne_nil (h : s ≠ 0 ∨ n ≠ 0) : secondsText s n ≠ [] := by
  rw [secondsText, if_pos h]
  exact List.append_ne_nil_of_right_ne_nil _ (List.cons_ne_nil _ _)

theorem designator_secondsText (s n : ℕ) :
    designator (secondsText s n) = none ∨ designator (secondsText s n) = some 'S' ∨
      designator (secondsText s n) = some '.' := by
  by_cases h : s ≠ 0 ∨ n ≠ 0
  · have hdrop : ∀ {c : Char}, isDigit c = false → ∀ rest,
        designator (DateTime.toText s ++ c :: rest) = some c := by
      intro c hc rest
      rw [designator, DateTime.toText,
        Scan.dropWhile_text (TimeSpanText.numeral_digits s) (Scan.noDigitHead_cons hc rest)]
      rfl
    rw [secondsText, if_pos h, List.append_assoc]
    by_cases hfraction : n = 0
    · rw [if_neg (not_not.mpr hfraction)]
      exact Or.inr (Or.inl (hdrop rfl []))
    · rw [if_pos hfraction, fractionText]
      exact Or.inr (Or.inr (hdrop rfl _))
  · rw [secondsText, if_neg h]
    exact Or.inl rfl

theorem componentText_zero (c : Char) : componentText 0 c = [] := rfl

theorem componentText_ne_nil (h : v ≠ 0) (c : Char) (rest : List Char) :
    componentText v c ++ rest ≠ [] := by
  rw [componentText, if_pos h, List.append_assoc]
  exact List.append_ne_nil_of_right_ne_nil _ (List.cons_ne_nil _ _)

variable {m : ℕ}

theorem minutes_text (hm : m < 60) (hs : s < 60) (hn : n < 10 ^ 9)
    (hne : m ≠ 0 ∨ s ≠ 0 ∨ n ≠ 0) (negative : Bool) (d h : ℕ) (anyPart : Bool) :
    returnOr (nextDigits (componentText m 'M' ++ secondsText s n)
        { negative := negative, days := d, hours := h } anyPart >>= minutes) secondsPart =
      pure (some ⟨negative, 0, 0, d, h, m, s, n⟩) := by
  by_cases hzero : m = 0
  · have hskip : designator (secondsText s n) ≠ some 'M' := by
      rcases designator_secondsText s n with h | h | h <;> rw [h] <;> decide
    subst hzero
    rw [componentText_zero, List.nil_append, minutes, component_skip hskip]
    exact secondsPart_text hs hn (hne.resolve_left (not_not.mpr rfl)) _ _ rfl
  · rw [minutes, component_take hzero (by omega) (by rfl)]
    by_cases hseconds : s ≠ 0 ∨ n ≠ 0
    · rw [if_neg (secondsText_ne_nil hseconds)]
      exact secondsPart_text hs hn hseconds _ _ rfl
    · obtain ⟨rfl, rfl⟩ : s = 0 ∧ n = 0 := by omega
      rfl

variable {h : ℕ}

theorem timePart_text (hh : h < 24) (hm : m < 60) (hs : s < 60) (hn : n < 10 ^ 9)
    (hne : h ≠ 0 ∨ m ≠ 0 ∨ s ≠ 0 ∨ n ≠ 0) (negative : Bool) (d : ℕ) (anyPart : Bool) :
    returnOr (nextDigits (componentText h 'H' ++ (componentText m 'M' ++ secondsText s n))
        { negative := negative, days := d } anyPart >>= hours >>= minutes) secondsPart =
      pure (some ⟨negative, 0, 0, d, h, m, s, n⟩) := by
  by_cases hzero : h = 0
  · have hskip : designator (componentText m 'M' ++ secondsText s n) ≠ some 'H' := by
      rw [designator_componentText _ rfl]
      split
      · decide
      · rcases designator_secondsText s n with h | h | h <;> rw [h] <;> decide
    subst hzero
    rw [componentText_zero, List.nil_append, hours, component_skip hskip]
    exact minutes_text hm hs hn (hne.resolve_left (not_not.mpr rfl)) _ _ _ _
  · rw [hours, component_take hzero (by omega) (by rfl)]
    by_cases hrest : m ≠ 0 ∨ s ≠ 0 ∨ n ≠ 0
    · have hnil : componentText m 'M' ++ secondsText s n ≠ [] := by
        by_cases hminutes : m = 0
        · rw [hminutes, componentText_zero, List.nil_append]
          exact secondsText_ne_nil (hrest.resolve_left (not_not.mpr hminutes))
        · exact componentText_ne_nil hminutes _ _
      rw [if_neg hnil]
      exact minutes_text hm hs hn hrest _ _ _ _
    · obtain ⟨rfl, rfl, rfl⟩ : m = 0 ∧ s = 0 ∧ n = 0 := by omega
      rfl

def text (negative : Bool) (d h m s n : ℕ) : List Char :=
  (if negative then ['-'] else []) ++ ['P'] ++ componentText d 'D' ++
    (if d ≠ 0 ∨ h ≠ 0 ∨ m ≠ 0 ∨ s ≠ 0 ∨ n ≠ 0 then timeText h m s n else "T0S".toList)

variable {d : ℕ}

theorem tryParseXsdDuration_text (hd : d ≤ 2147483647) (hh : h < 24) (hm : m < 60)
    (hs : s < 60) (hn : n < 10 ^ 9) (negative : Bool) :
    tryParseXsdDuration (text negative d h m s n) = pure (some ⟨negative, 0, 0, d, h, m, s, n⟩) := by
  have hdate : ∀ rest, datePart ((if negative then ['-'] else []) ++ ['P'] ++ rest) =
      (nextDigits rest { negative := negative } false >>= years >>= months >>= days) := by
    intro rest
    rw [bind_assoc, bind_assoc]
    cases negative <;> rfl
  by_cases htime : h ≠ 0 ∨ m ≠ 0 ∨ s ≠ 0 ∨ n ≠ 0
  · have htail : ∀ anyPart, returnOr (nextDigits ('T' :: (componentText h 'H' ++
          (componentText m 'M' ++ secondsText s n))) { negative := negative, days := d } anyPart)
        (fun st => if st.s.head? = some 'T' then returnOr (timePart st) secondsPart
          else pure (endOfDuration st)) = pure (some ⟨negative, 0, 0, d, h, m, s, n⟩) := by
      intro anyPart
      rw [← timePart_text hh hm hs hn htime negative d anyPart, bind_assoc]
      rfl
    rw [tryParseXsdDuration, text, if_pos (Or.inr htime), timeText, if_pos htime, List.append_assoc,
      hdate, years, component_skip, months, component_skip, List.append_assoc]
    · by_cases hzero : d = 0
      · subst hzero
        exact htail _
      · rw [days, component_take hzero hd (by rfl), if_neg (List.cons_ne_nil _ _)]
        exact htail _
    all_goals
      rw [designator_componentText _ rfl, designator_time]
      split <;> decide
  · obtain ⟨rfl, rfl, rfl, rfl⟩ : h = 0 ∧ m = 0 ∧ s = 0 ∧ n = 0 := by omega
    by_cases hzero : d = 0
    · subst hzero
      cases negative <;> decide
    · have hdesignator : designator (componentText d 'D' ++ []) = some 'D' := by
        rw [designator_componentText _ rfl, if_pos hzero]
      rw [tryParseXsdDuration, text, if_pos (Or.inl hzero), timeText, if_neg htime, List.append_assoc,
        hdate, years, component_skip (by rw [hdesignator]; decide), months,
        component_skip (by rw [hdesignator]; decide), days, component_take hzero hd (by rfl)]
      rfl

theorem magnitude_eq (ticks : Int64) : magnitude ticks = ticks.toInt.natAbs := by
  have hint : ticks.toInt = if 2 * ticks.toUInt64.toNat < 2 ^ 64 then (ticks.toUInt64.toNat : ℤ)
      else (ticks.toUInt64.toNat : ℤ) - (2 ^ 64 : ℕ) := BitVec.toInt_eq_toNat_cond ticks.toBitVec
  have hlt := ticks.toUInt64.toNat_lt
  have hneg : ticks < 0 ↔ ticks.toInt < 0 := Int64.lt_iff_toInt_lt
  rw [magnitude]
  split <;> rename_i hsign <;> rw [hneg] at hsign
  · have hnot : (~~~ticks.toUInt64 + 1).toNat = (2 ^ 64 - 1 - ticks.toUInt64.toNat + 1) % 2 ^ 64 := by
      rw [UInt64.toNat_add, UInt64.toNat_not]
      rfl
    split at hint <;> omega
  · split at hint <;> omega

theorem toNat_durationTicks (hd : d ≤ 10675199) (hh : h < 24) (hm : m < 60)
    (hs : s < 60) (hn : n < 10 ^ 9) (negative : Bool) :
    (durationTicks ⟨negative, 0, 0, d, h, m, s, n⟩).toNat =
      (((d * 24 + h) * 60 + m) * 60 + s) * 10000000 + n / 100 := by
  have hword : durationTicks ⟨negative, 0, 0, d, h, m, s, n⟩ =
      UInt64.ofNat ((((d * 24 + h) * 60 + m) * 60 + s) * 10000000) + UInt64.ofNat n / 100 := by
    have hyears : (UInt64.ofNat 0 + UInt64.ofNat 0 / 12) * 365 + UInt64.ofNat 0 % 12 * 30 = 0 := by
      decide
    simp only [durationTicks, hyears, UInt64.zero_add, UInt64.ofNat_add, UInt64.ofNat_mul]
    rfl
  rw [hword, UInt64.toNat_add, UInt64.toNat_div, UInt64.toNat_ofNat', UInt64.toNat_ofNat',
    Nat.mod_eq_of_lt (show n < 2 ^ 64 by omega),
    Nat.mod_eq_of_lt (show (((d * 24 + h) * 60 + m) * 60 + s) * 10000000 < 2 ^ 64 by omega)]
  exact Nat.mod_eq_of_lt (show _ + n / 100 < 2 ^ 64 by omega)

theorem componentText_concat (h : v ≠ 0) (c : Char) : ∃ init, componentText v c = init ++ [c] := by
  rw [componentText, if_pos h]
  exact ⟨_, rfl⟩

theorem timeText_concat (hne : h ≠ 0 ∨ m ≠ 0 ∨ s ≠ 0 ∨ n ≠ 0) :
    ∃ init c, timeText h m s n = init ++ [c] ∧ c ≠ 'P' := by
  rw [timeText, if_pos hne]
  by_cases hseconds : s ≠ 0 ∨ n ≠ 0
  · rw [secondsText, if_pos hseconds, ← List.append_assoc, ← List.cons_append]
    exact ⟨_, 'S', rfl, by decide⟩
  · rw [secondsText, if_neg hseconds, List.append_nil]
    by_cases hminutes : m = 0
    · obtain ⟨init, hinit⟩ := componentText_concat (v := h) (by omega) 'H'
      rw [hminutes, componentText_zero, List.append_nil, hinit, ← List.cons_append]
      exact ⟨_, 'H', rfl, by decide⟩
    · obtain ⟨init, hinit⟩ := componentText_concat hminutes 'M'
      rw [hinit, ← List.append_assoc, ← List.cons_append]
      exact ⟨_, 'M', rfl, by decide⟩

theorem formatXsdDuration_eq (x : TimeSpan) :
    let magnitude := x.ticks.toInt.natAbs
    formatXsdDuration x = text (decide (x.ticks.toInt < 0)) (magnitude / 864000000000)
      (magnitude / 36000000000 % 24) (magnitude / 600000000 % 60) (magnitude / 10000000 % 60)
      (magnitude % 10000000 * 100) := by
  intro magnitude
  have hneg : x.ticks < 0 ↔ decide (x.ticks.toInt < 0) = true := by
    rw [decide_eq_true_iff]
    exact Int64.lt_iff_toInt_lt
  rw [formatXsdDuration, magnitude_eq]
  simp only [hneg]
  rw [show TimeSpan.ticksPerDay = 864000000000 from rfl,
    show TimeSpan.ticksPerHour = 36000000000 from rfl,
    show TimeSpan.ticksPerMinute = 600000000 from rfl,
    show TimeSpan.ticksPerSecond = 10000000 from rfl, text]
  generalize magnitude / 864000000000 = d, magnitude / 36000000000 % 24 = h,
    magnitude / 600000000 % 60 = m, magnitude / 10000000 % 60 = s,
    magnitude % 10000000 * 100 = n, decide (x.ticks.toInt < 0) = negative
  by_cases htime : h ≠ 0 ∨ m ≠ 0 ∨ s ≠ 0 ∨ n ≠ 0
  · obtain ⟨init, c, hinit, hc⟩ := timeText_concat htime
    rw [if_pos (Or.inr htime : d ≠ 0 ∨ _), hinit, ← List.append_assoc]
    refine if_neg ?_
    rw [List.getLast?_concat, Option.some_inj]
    exact hc
  · obtain ⟨rfl, rfl, rfl, rfl⟩ : h = 0 ∧ m = 0 ∧ s = 0 ∧ n = 0 := by omega
    by_cases hdays : d = 0
    · subst hdays
      cases negative <;> rfl
    · obtain ⟨init, hinit⟩ := componentText_concat hdays 'D'
      rw [if_pos (Or.inl hdays), timeText, if_neg htime, List.append_nil, hinit, ← List.append_assoc]
      refine if_neg ?_
      rw [List.getLast?_concat, Option.some_inj]
      decide

theorem ticks_of_components (x : TimeSpan) {d : XsdDuration}
    (hd : (durationTicks d).toNat = x.ticks.toInt.natAbs)
    (hsign : d.negative = decide (x.ticks.toInt < 0)) :
    tryXsdDurationToTicks d = some x.ticks.toInt := by
  have hlo : -2 ^ 63 ≤ x.ticks.toInt := x.ticks.le_toInt
  have hhi : x.ticks.toInt < 2 ^ 63 := x.ticks.toInt_lt
  have hmax : longcsMax = 2 ^ 63 - 1 := rfl
  rw [tryXsdDurationToTicks, hd, hsign, hmax]
  simp only [decide_eq_true_eq]
  split
  · split
    · rw [Option.some_inj]
      omega
    · rw [if_neg (by omega), Option.some_inj]
      omega
  · rw [if_neg (by omega), Option.some_inj]
    omega

/-- **The text of a duration is read as the duration**, that of the smallest value too. -/
theorem duration_round_trip (x : TimeSpan) :
    (∃ d, tryParseXsdDuration (formatXsdDuration x) = pure (some d) ∧
      tryXsdDurationToTicks d = some x.ticks.toInt) ∧
    toTimeSpan (XmlConvert.toString x) = pure x := by
  have hparse : ∃ d, tryParseXsdDuration (formatXsdDuration x) = pure (some d) ∧
      tryXsdDurationToTicks d = some x.ticks.toInt := by
    have hlo : -2 ^ 63 ≤ x.ticks.toInt := x.ticks.le_toInt
    have hhi : x.ticks.toInt < 2 ^ 63 := x.ticks.toInt_lt
    rw [formatXsdDuration_eq]
    refine ⟨_, tryParseXsdDuration_text (by omega) (by omega) (by omega) (by omega) (by omega) _,
      ticks_of_components x ?_ rfl⟩
    rw [toNat_durationTicks (by omega) (by omega) (by omega) (by omega) (by omega)]
    omega
  refine ⟨hparse, ?_⟩
  obtain ⟨d, hd, hticks⟩ := hparse
  rw [toTimeSpan, XmlConvert.toString, hd, pure_bind, Option.bind_some, hticks]
  simp only [Int64.ofInt_toInt]

end SharpRuntime.Analysis.XsdDurationText
