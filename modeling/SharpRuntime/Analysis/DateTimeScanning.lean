import SharpRuntime.Analysis.DateTimeArithmetic
import SharpRuntime.Interface.DateTimeFormat

/-!
# The scanner reads the grammar

The cursor of `DateTimeTextScanner.hpp` against the grammar of `DateTimeGrammar.lean`.  Whatever a
reader takes off a text is a piece of the grammar (the `_sound` lemmas), and a piece of the grammar
in front of something that does not carry it on is what the reader takes (the `_complete` lemmas).
-/

set_option autoImplicit false

namespace SharpRuntime.Analysis.DateTimeScanning

open Machine Machine.Scan Model Model.DateTime Interface

theorem scanDigits_spec (max acc count : ℕ) (text : List Char) :
    ∃ l rest, text = l ++ rest ∧ (∀ c ∈ l, Printed.isDigit c = true) ∧ l.length ≤ max ∧
      scanDigits max acc count text =
        (Printed.accumulate 10 acc (l.map Printed.charDigit), count + l.length, rest) ∧
      (l.length = max ∨ NoDigitHead rest) := by
  induction max, acc, count, text using scanDigits.induct with
  | case1 acc count text => exact ⟨[], text, rfl, by simp, le_refl _, rfl, Or.inl rfl⟩
  | case2 max acc count =>
    exact ⟨[], [], rfl, by simp, Nat.zero_le _, rfl, Or.inr noDigitHead_nil⟩
  | case3 max acc count c text hdigit ih => grind [scanDigits, Printed.accumulate_cons]
  | case4 max acc count c text hdigit => simp [scanDigits, hdigit, noDigitHead_cons]

variable {text rest : List Char}

variable {lo hi v : ℕ}

theorem takeDigits_sound {n : ℕ} (h : takeDigits lo hi text = some (v, n, rest)) :
    ∃ l, text = l ++ rest ∧ Field lo hi l v ∧ n = l.length := by
  obtain ⟨l, rest', htext, hdigits, hlen, hscan, -⟩ := scanDigits_spec hi 0 0 text
  simp only [takeDigits, hscan, Nat.zero_add] at h
  split at h
  case isTrue => cases h
  case isFalse hlo =>
    simp only [Option.some.injEq, Prod.mk.injEq] at h
    obtain ⟨hv, hn, rfl⟩ := h
    exact ⟨l, htext, ⟨hdigits, by omega, hlen, hv⟩, hn.symm⟩

variable {l : List Char}

theorem digits_unique {l' r r' : List Char} (hl : ∀ c ∈ l, Printed.isDigit c = true)
    (hl' : ∀ c ∈ l', Printed.isDigit c = true) (heq : l ++ r = l' ++ r') {max : ℕ}
    (hmax : l.length ≤ max) (hmax' : l'.length ≤ max) (h : l.length = max ∨ NoDigitHead r)
    (h' : l'.length = max ∨ NoDigitHead r') : l = l' ∧ r = r' := by
  induction l generalizing l' max with
  | nil =>
    cases l' with
    | nil => exact ⟨rfl, heq⟩
    | cons c t =>
      have hc := hl' c List.mem_cons_self
      rw [List.nil_append] at heq
      rcases h with h | h
      · grind
      · rw [heq] at h
        have := h c rfl
        rw [hc] at this
        cases this
  | cons d s ih =>
    cases l' with
    | nil =>
      have hd := hl d List.mem_cons_self
      rw [List.nil_append] at heq
      rcases h' with h' | h'
      · grind
      · rw [← heq] at h'
        have := h' d rfl
        rw [hd] at this
        cases this
    | cons c t =>
      simp only [List.cons_append, List.cons.injEq] at heq
      obtain ⟨rfl, heq⟩ := heq
      simp only [List.length_cons] at hmax hmax' h h'
      obtain ⟨rfl, rfl⟩ := ih (fun c hc => hl c (List.mem_cons_of_mem _ hc))
        (fun c hc => hl' c (List.mem_cons_of_mem _ hc)) heq
        (show s.length ≤ max - 1 by omega) (show t.length ≤ max - 1 by omega)
        (h.imp_left (by omega)) (h'.imp_left (by omega))
      exact ⟨rfl, rfl⟩

theorem takeDigits_complete (h : Field lo hi l v)
    (hrest : NoDigitHead rest) : takeDigits lo hi (l ++ rest) = some (v, l.length, rest) := by
  obtain ⟨l', rest', heq, hdigits, hlen, hscan, hstop⟩ := scanDigits_spec hi 0 0 (l ++ rest)
  obtain ⟨rfl, rfl⟩ := digits_unique h.digits hdigits heq h.le_hi hlen (Or.inr hrest) hstop
  have hlo := h.lo_le
  have hv := h.value_eq
  rw [Printed.value] at hv
  simp only [takeDigits, hscan, Nat.zero_add, hv]
  rw [if_neg (by omega)]

variable {c : Char}

theorem take_eq_some : take c text = some rest ↔ text = c :: rest := by
  cases text with
  | nil => simp [take]
  | cons d t =>
    rw [take]
    split
    case isTrue h => simp [h]
    case isFalse h => simp [h]

theorem take_cons (c : Char) (rest : List Char) : take c (c :: rest) = some rest :=
  take_eq_some.mpr rfl

theorem take_of_head_ne (h : ∀ d ∈ text.head?, d ≠ c) : take c text = none := by
  cases text with
  | nil => rfl
  | cons d t => rw [take, if_neg (h d rfl)]

theorem take_cons_of_ne {d : Char} (rest : List Char) (h : d ≠ c) : take c (d :: rest) = none :=
  take_of_head_ne fun e he => by
    cases he
    exact h

def ZoneHead (rest : List Char) : Prop := ∀ c ∈ rest.head?, c ∈ ['Z', 'z', '+', '-']

theorem ZoneHead.noDigitHead (h : ZoneHead rest) : NoDigitHead rest := by
  intro c hc
  have hmem := h c hc
  simp only [List.mem_cons, List.not_mem_nil, or_false] at hmem
  rcases hmem with rfl | rfl | rfl | rfl <;> rfl

theorem ZoneHead.take_eq_none (h : ZoneHead rest)
    (hc : c ∉ ['Z', 'z', '+', '-']) : take c rest = none :=
  take_of_head_ne fun d hd hdc => hc (hdc ▸ h d hd)

variable {z : List Char} {zone : Option ℤ}

theorem zoneHead_of_zoneText (h : ZoneText z zone) : ZoneHead z := by
  intro c hc
  cases h with
  | absent => cases hc
  | utc hutc => grind
  | east _ =>
    grind
  | west _ =>
    grind

variable {parts : DateTimeParts}

theorem takeFraction_sound {parts' : DateTimeParts}
    (hzero : parts.fractionTicks = 0) (h : takeFraction text parts = some (parts', rest)) :
    ∃ f ticks, text = f ++ rest ∧ FractionText f ticks ∧
      parts' = { parts with fractionTicks := ticks } := by
  rw [takeFraction] at h
  cases hdot : take '.' text with
  | none =>
    simp only [hdot, Option.some.injEq, Prod.mk.injEq] at h
    obtain ⟨rfl, rfl⟩ := h
    exact ⟨[], 0, rfl, Or.inl ⟨rfl, rfl⟩, by rw [← hzero]⟩
  | some afterDot =>
    simp only [hdot] at h
    cases hdigits : takeDigits 1 7 afterDot with
    | none =>
      rw [hdigits] at h
      cases h
    | some r =>
      obtain ⟨value, n, rest'⟩ := r
      rw [hdigits] at h
      obtain ⟨rfl, rfl⟩ := h
      obtain ⟨f, rfl, hf, rfl⟩ := takeDigits_sound hdigits
      exact ⟨'.' :: f, _, take_eq_some.mp hdot, Or.inr ⟨f, value, rfl, hf, rfl⟩, rfl⟩

variable {ticks : ℕ}

variable {f : List Char}

theorem takeFraction_complete (hf : FractionText f ticks)
    (hrest : ZoneHead rest) (hzero : parts.fractionTicks = 0) :
    takeFraction (f ++ rest) parts = some ({ parts with fractionTicks := ticks }, rest) := by
  rw [takeFraction]
  rcases hf with ⟨rfl, rfl⟩ | ⟨f, n, rfl, hdigits, rfl⟩
  · rw [List.nil_append, hrest.take_eq_none (by decide), ← hzero]
  · simp [take_cons, takeDigits_complete hdigits hrest.noDigitHead]

variable {year month day : ℕ}

theorem takeTimeParts_sound (h : takeTimeParts text { year, month, day } = some (parts, rest)) :
    ∃ k hour minute second fractionTicks, text = k ++ rest ∧
      ClockText k hour minute second fractionTicks ∧
      parts = { year, month, day, hour, minute, second, fractionTicks } := by
  simp only [takeTimeParts, Option.bind_eq_bind, Option.bind_eq_some_iff, Prod.exists] at h
  obtain ⟨hour, _, afterHour, hhour, afterColon, hcolon, minute, _, afterMinute, hminute,
    afterColon', hcolon', second, _, afterSecond, hsecond, hfraction⟩ := h
  obtain ⟨f, ticks, rfl, hf, rfl⟩ := takeFraction_sound rfl hfraction
  obtain ⟨s, rfl, hs, -⟩ := takeDigits_sound hsecond
  obtain ⟨m, rfl, hm, -⟩ := takeDigits_sound hminute
  obtain ⟨hr, rfl, hh, -⟩ := takeDigits_sound hhour
  rw [take_eq_some.mp hcolon, take_eq_some.mp hcolon']
  exact ⟨hr ++ ':' :: (m ++ ':' :: (s ++ f)), hour, minute, second, ticks, by simp,
    ⟨hr, m, s, f, rfl, hh, hm, hs, hf⟩, rfl⟩

theorem FractionText.noDigitHead (hf : FractionText f ticks)
    (hrest : ZoneHead rest) : NoDigitHead (f ++ rest) := by
  rcases hf with ⟨rfl, rfl⟩ | ⟨f, n, rfl, hdigits, rfl⟩
  · exact hrest.noDigitHead
  · exact noDigitHead_cons rfl _

theorem takeTimeParts_complete {k : List Char} {hour minute second : ℕ}
    (hk : ClockText k hour minute second ticks) (hrest : ZoneHead rest) :
    takeTimeParts (k ++ rest) { year, month, day } =
      some ({ year, month, day, hour, minute, second, fractionTicks := ticks }, rest) := by
  obtain ⟨h, m, s, f, rfl, hh, hm, hs, hf⟩ := hk
  have hcolon : ∀ t, NoDigitHead (':' :: t) := fun t => noDigitHead_cons rfl t
  simp only [takeTimeParts, List.append_assoc, List.cons_append, Option.bind_eq_bind,
    takeDigits_complete hh (hcolon _), takeDigits_complete hm (hcolon _),
    takeDigits_complete hs (FractionText.noDigitHead hf hrest), take_cons, Option.bind_some]
  exact takeFraction_complete hf hrest rfl

theorem takeDateTimeParts_sound (h : takeDateTimeParts text = some (parts, rest)) :
    ∃ body, text = body ++ rest ∧ PartsText body parts := by
  simp only [takeDateTimeParts, Option.bind_eq_bind, Option.bind_eq_some_iff, Prod.exists] at h
  obtain ⟨year, _, afterYear, hyear, afterDash, hdash, month, _, afterMonth, hmonth, afterDash',
    hdash', day, _, afterDay, hday, h⟩ := h
  obtain ⟨d, rfl, hd, -⟩ := takeDigits_sound hday
  obtain ⟨m, rfl, hm, -⟩ := takeDigits_sound hmonth
  obtain ⟨y, rfl, hy, -⟩ := takeDigits_sound hyear
  rw [take_eq_some.mp hdash, take_eq_some.mp hdash']
  have hdate : DateText (y ++ '-' :: (m ++ '-' :: d)) year month day := ⟨y, m, d, rfl, hy, hm, hd⟩
  cases hsep : (take ' ' afterDay).or (take 'T' afterDay) with
  | none =>
    simp only [hsep, Option.some.injEq, Prod.mk.injEq] at h
    obtain ⟨rfl, rfl⟩ := h
    exact ⟨_, by simp, .date hdate⟩
  | some afterSep =>
    simp only [hsep] at h
    obtain ⟨k, hour, minute, second, ticks, rfl, hk, rfl⟩ := takeTimeParts_sound h
    have hc : ∃ c, (c = ' ' ∨ c = 'T') ∧ afterDay = c :: (k ++ rest) := by
      rw [Option.or_eq_some_iff] at hsep
      rcases hsep with hsep | ⟨-, hsep⟩
      · exact ⟨' ', Or.inl rfl, take_eq_some.mp hsep⟩
      · exact ⟨'T', Or.inr rfl, take_eq_some.mp hsep⟩
    obtain ⟨c, hc, rfl⟩ := hc
    exact ⟨_, by simp, .clock hdate hc hk⟩

variable {body : List Char}

theorem takeDateTimeParts_complete (hbody : PartsText body parts) (hrest : ZoneHead rest) :
    takeDateTimeParts (body ++ rest) = some (parts, rest) := by
  have hdash : ∀ t, NoDigitHead ('-' :: t) := fun t => noDigitHead_cons rfl t
  cases hbody with
  | date hdate =>
    obtain ⟨y, m, d, rfl, hy, hm, hd⟩ := hdate
    simp only [takeDateTimeParts, List.append_assoc, List.cons_append, Option.bind_eq_bind,
      takeDigits_complete hy (hdash _), takeDigits_complete hm (hdash _),
      takeDigits_complete hd hrest.noDigitHead, take_cons, Option.bind_some,
      hrest.take_eq_none (show ' ' ∉ ['Z', 'z', '+', '-'] by decide),
      hrest.take_eq_none (show 'T' ∉ ['Z', 'z', '+', '-'] by decide), Option.or_none]
  | @clock _ k c _ _ _ _ _ _ _ hdate hsep hclock =>
    obtain ⟨y, m, d, rfl, hy, hm, hd⟩ := hdate
    have hc : NoDigitHead (c :: (k ++ rest)) := by
      rcases hsep with rfl | rfl <;> exact noDigitHead_cons rfl _
    have htake : (take ' ' (c :: (k ++ rest))).or (take 'T' (c :: (k ++ rest))) = some (k ++ rest) := by
      rcases hsep with rfl | rfl <;> rfl
    simp only [takeDateTimeParts, List.append_assoc, List.cons_append, Option.bind_eq_bind,
      takeDigits_complete hy (hdash _), takeDigits_complete hm (hdash _),
      takeDigits_complete hd hc, take_cons, Option.bind_some, htake]
    exact takeTimeParts_complete hclock hrest

theorem takeSign_sound {negative : Bool} (h : DateTime.takeSign text = some (negative, rest)) :
    text = (if negative then '-' else '+') :: rest := by
  rw [DateTime.takeSign] at h
  cases hminus : take '-' text with
  | some rest' =>
    simp only [hminus, Option.some.injEq, Prod.mk.injEq] at h
    obtain ⟨rfl, rfl⟩ := h
    exact take_eq_some.mp hminus
  | none =>
    simp only [hminus, Option.map_eq_some_iff, Prod.mk.injEq] at h
    obtain ⟨rest', hplus, rfl, rfl⟩ := h
    exact take_eq_some.mp hplus

theorem splitOffset_sound {v : List Char} {value hours minutes : ℕ}
    (hv : Field 1 4 v value) (h : splitOffset value v.length text = some (hours, minutes, rest))
    (hlt : minutes < 60) :
    ∃ l, v ++ text = l ++ rest ∧ OffsetText l (hours * 60 + minutes) := by
  have hlen := hv.le_hi
  rw [splitOffset] at h
  split at h
  case isTrue hshort =>
    have hhours : Field 1 2 v value := ⟨hv.digits, hv.lo_le, hshort, hv.value_eq⟩
    simp only [Option.map_eq_some_iff, Prod.exists, Prod.mk.injEq] at h
    obtain ⟨k, text', htake, rfl, rfl, rfl⟩ := h
    rw [takeOffsetMinutes] at htake
    cases hcolon : take ':' text with
    | none =>
      simp only [hcolon, Option.some.injEq, Prod.mk.injEq] at htake
      obtain ⟨rfl, rfl⟩ := htake
      exact ⟨v, rfl, by simpa using OffsetText.hours hhours⟩
    | some afterColon =>
      simp only [hcolon, Option.map_eq_some_iff, Prod.exists, Prod.mk.injEq] at htake
      obtain ⟨k', n, rest', hdigits, rfl, rfl⟩ := htake
      obtain ⟨m, rfl, hm, -⟩ := takeDigits_sound hdigits
      rw [take_eq_some.mp hcolon]
      exact ⟨v ++ ':' :: m, by simp, .minutes hhours hm hlt⟩
  case isFalse hlong =>
    obtain ⟨rfl, rfl, rfl⟩ := h
    have hdigits : Field 3 4 v value := ⟨hv.digits, by omega, hlen, hv.value_eq⟩
    exact ⟨v, rfl, .digits hdigits hlt⟩

variable {minutes : ℤ}

theorem takeUtcOffsetMinutes_sound (h : takeUtcOffsetMinutes text = some (minutes, rest)) :
    ∃ z, text = z ++ rest ∧ ZoneText z (some minutes) := by
  simp only [takeUtcOffsetMinutes, Option.bind_eq_bind, Option.bind_eq_some_iff, Prod.exists] at h
  obtain ⟨negative, afterSign, hsign, value, digits, afterDigits, hdigits, hours, k, rest', hsplit, h⟩ := h
  split at h
  case isTrue => cases h
  case isFalse hlt =>
    simp only [Option.some.injEq, Prod.mk.injEq] at h
    obtain ⟨hminutes, rfl⟩ := h
    obtain ⟨v, rfl, hv, rfl⟩ := takeDigits_sound hdigits
    obtain ⟨l, hl, hoffset⟩ := splitOffset_sound hv hsplit (by omega)
    rw [takeSign_sound hsign, hl, ← hminutes]
    cases negative with
    | true => exact ⟨'-' :: l, rfl, .west hoffset⟩
    | false => exact ⟨'+' :: l, rfl, .east hoffset⟩

theorem offsetText_split (h : OffsetText l minutes) :
    ∃ value digits text hours k, takeDigits 1 4 l = some (value, digits, text) ∧
      splitOffset value digits text = some (hours, k, []) ∧ k < 60 ∧
      minutes = ((hours : ℕ) : ℤ) * 60 + (k : ℕ) := by
  have hwiden : ∀ {lo hi : ℕ} {l : List Char} {n : ℕ}, Field lo hi l n → 1 ≤ lo → hi ≤ 4 →
      Field 1 4 l n := fun h hlo hhi =>
    ⟨h.digits, hlo.trans h.lo_le, h.le_hi.trans hhi, h.value_eq⟩
  cases h with
  | @hours _ n hhours =>
    have htake := takeDigits_complete (hwiden hhours (by decide) (by decide)) noDigitHead_nil
    rw [List.append_nil] at htake
    refine ⟨n, l.length, [], n, 0, htake, ?_, by decide, by simp⟩
    rw [splitOffset, if_pos hhours.le_hi]
    rfl
  | @minutes h m n k hhours hminutes hlt =>
    have htake := takeDigits_complete (hwiden hhours (by decide) (by decide))
      (noDigitHead_cons (c := ':') rfl m)
    have hm := takeDigits_complete hminutes noDigitHead_nil
    rw [List.append_nil] at hm
    refine ⟨n, h.length, ':' :: m, n, k, htake, ?_, hlt, rfl⟩
    rw [splitOffset, if_pos hhours.le_hi, takeOffsetMinutes, take_cons]
    simp only [hm, Option.map_some]
  | @digits _ n hdigits hlt =>
    have htake := takeDigits_complete (hwiden hdigits (by decide) (by decide)) noDigitHead_nil
    rw [List.append_nil] at htake
    refine ⟨n, l.length, [], n / 100, n % 100, htake, ?_, hlt, rfl⟩
    rw [splitOffset, if_neg (by have := hdigits.lo_le; omega)]

theorem takeUtcOffsetMinutes_complete (h : OffsetText l minutes) (negative : Bool) :
    takeUtcOffsetMinutes ((if negative then '-' else '+') :: l) =
      some (if negative then -minutes else minutes, []) := by
  obtain ⟨value, digits, text, hours, k, htake, hsplit, hlt, rfl⟩ := offsetText_split h
  have hsign : DateTime.takeSign ((if negative then '-' else '+') :: l) = some (negative, l) := by
    cases negative <;> rfl
  grind [takeUtcOffsetMinutes]

theorem partsText_ends (h : PartsText body parts) : StartsDigit body ∧ EndsDigit body := by
  cases h with
  | date hdate =>
    obtain ⟨y, m, d, rfl, hy, hm, hd⟩ := hdate
    exact ⟨(hy.startsDigit (by decide)).append _,
      (((hd.endsDigit (by decide)).cons '-').append m |>.cons '-').append y⟩
  | @clock l k c _ _ _ _ _ _ _ hdate hsep hclock =>
    obtain ⟨y, m, d, rfl, hy, hm, hd⟩ := hdate
    obtain ⟨h, mi, s, f, rfl, hh, hmi, hs, hf⟩ := hclock
    have hlast : EndsDigit (s ++ f) := by
      rcases hf with ⟨rfl, -⟩ | ⟨f, n, rfl, hdigits, -⟩
      · rw [List.append_nil]
        exact hs.endsDigit (by decide)
      · exact ((hdigits.endsDigit (by decide)).cons '.').append s
    refine ⟨?_, EndsDigit.append _ (EndsDigit.cons c
      (((hlast.cons ':').append mi |>.cons ':').append h))⟩
    rw [List.append_assoc]
    exact (hy.startsDigit (by decide)).append _

theorem offsetText_ends (h : OffsetText l minutes) : EndsDigit l := by
  cases h with
  | hours hhours => exact hhours.endsDigit (by decide)
  | @minutes h _ _ _ _ hminutes _ => exact ((hminutes.endsDigit (by decide)).cons ':').append h
  | digits hdigits _ => exact hdigits.endsDigit (by decide)

theorem isWhitespace_iff : isWhitespace c = true ↔ c ∈ Printed.blanks := by
  simp [isWhitespace, Printed.blanks]
  tauto

theorem not_isWhitespace_of_isDigit (h : Printed.isDigit c = true) : isWhitespace c = false := by
  have hne : ∀ {d : Char}, Printed.isDigit d = false → c ≠ d := fun hd => ne_of_isDigit h hd
  simp only [isWhitespace, hne (d := ' ') rfl, hne (d := '\t') rfl, hne (d := '\n') rfl,
    hne (d := '\r') rfl, hne (d := '\x0c') rfl, hne (d := '\x0b') rfl, decide_false, Bool.or_self]

theorem trimDateTimeText_eq {lead trail : List Char}
    (hlead : ∀ c ∈ lead, isWhitespace c = true) (htrail : ∀ c ∈ trail, isWhitespace c = true)
    (hbody : PartsText body parts) (hz : ZoneText z zone) :
    trimDateTimeText (lead ++ (body ++ z ++ trail)) = body ++ z := by
  obtain ⟨⟨c, t, rfl, hc⟩, ⟨k, e, hend, he⟩⟩ := partsText_ends hbody
  have hlast : ∀ d ∈ (c :: t ++ z).getLast?, isWhitespace d = false := by
    have hdigit : ∀ {l : List Char}, EndsDigit l → ∀ d ∈ (c :: t ++ l).getLast?, isWhitespace d = false := by
      rintro _ ⟨l, x, rfl, hx⟩ d hd
      rw [← List.append_assoc, List.getLast?_concat, Option.mem_some_iff] at hd
      rw [← hd]
      exact not_isWhitespace_of_isDigit hx
    cases hz with
    | absent => grind [not_isWhitespace_of_isDigit]
    | utc hutc =>
      intro d hd
      rw [List.getLast?_concat, Option.mem_some_iff] at hd
      rcases hutc with rfl | rfl <;> rw [← hd] <;> decide
    | east hoffset => exact hdigit ((offsetText_ends hoffset).cons '+')
    | west hoffset => exact hdigit ((offsetText_ends hoffset).cons '-')
  have hfirst : ∀ d ∈ (c :: t ++ z).head?, isWhitespace d = false := by
    grind [not_isWhitespace_of_isDigit]
  exact dropWhile_rdropWhile hlead htrail hfirst hlast (by simp)

theorem dropZone_sound (h : dropZone z = some rest) (hrest : rest = []) :
    ∃ zone, ZoneText z zone := by
  subst hrest
  rw [dropZone] at h
  cases hutc : (take 'Z' z).or (take 'z' z) with
  | some t =>
    simp only [hutc, Option.some.injEq] at h
    subst h
    rw [Option.or_eq_some_iff] at hutc
    rcases hutc with hz | ⟨-, hz⟩
    · exact ⟨some 0, by rw [take_eq_some.mp hz]; exact .utc (Or.inl rfl)⟩
    · exact ⟨some 0, by rw [take_eq_some.mp hz]; exact .utc (Or.inr rfl)⟩
  | none =>
    simp only [hutc] at h
    split at h
    case isTrue hnil =>
      subst hnil
      exact ⟨none, .absent⟩
    case isFalse hne =>
      rw [Option.map_eq_some_iff] at h
      obtain ⟨⟨minutes, t⟩, htake, ht⟩ := h
      obtain ⟨l, hl, hzone⟩ := takeUtcOffsetMinutes_sound htake
      grind

theorem dropZone_complete (h : ZoneText z zone) : dropZone z = some [] := by
  cases h with
  | absent => rfl
  | utc hutc => rcases hutc with rfl | rfl <;> rfl
  | east hoffset =>
    have htake := takeUtcOffsetMinutes_complete hoffset false
    simp only [Bool.false_eq_true, if_false] at htake
    simp only [dropZone, take_cons_of_ne _ (show '+' ≠ 'Z' by decide),
      take_cons_of_ne _ (show '+' ≠ 'z' by decide), Option.or_none, htake]
    rfl
  | west hoffset =>
    have htake := takeUtcOffsetMinutes_complete hoffset true
    simp only [if_true] at htake
    simp only [dropZone, take_cons_of_ne _ (show '-' ≠ 'Z' by decide),
      take_cons_of_ne _ (show '-' ≠ 'z' by decide), Option.or_none, htake]
    rfl

theorem parseParts_iff {s : List Char} :
    parseParts s = some parts ↔ ∃ zone, DateTimeText s parts zone := by
  constructor
  · intro h
    simp only [parseParts, Option.bind_eq_bind, Option.bind_eq_some_iff, Prod.exists] at h
    obtain ⟨parts', afterParts, htake, rest, hzone, h⟩ := h
    split at h
    case isFalse => cases h
    case isTrue hrest =>
      rw [Option.some.injEq] at h
      subst h
      obtain ⟨body, hbody, hparts⟩ := takeDateTimeParts_sound htake
      obtain ⟨zone, hz⟩ := dropZone_sound hzone hrest
      obtain ⟨lead, trail, hs, hlead, htrail⟩ := exists_append_trimmed isWhitespace s
      rw [← trimDateTimeText, hbody] at hs
      simp only [isWhitespace_iff] at hlead htrail
      exact ⟨zone, lead, body, afterParts, trail, hs, hlead, htrail, hparts, hz⟩
  · rintro ⟨zone, lead, body, z, trail, rfl, hlead, htrail, hbody, hz⟩
    simp only [← isWhitespace_iff] at hlead htrail
    simp only [parseParts, trimDateTimeText_eq hlead htrail hbody hz, Option.bind_eq_bind,
      takeDateTimeParts_complete hbody (zoneHead_of_zoneText hz), dropZone_complete hz,
      Option.bind_some, if_true]

end SharpRuntime.Analysis.DateTimeScanning
