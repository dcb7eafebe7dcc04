import SharpRuntime.Machine.Printed
import SharpRuntime.Machine.Run

/-!
# Formatted input

`sscanf` with the directives `%lld` and single characters, as the C standard describes it.  An
integer directive skips white space, takes an optional sign and the longest run of digits; a
character directive takes that character only.  Scanning stops at the first directive that fails,
and the result lists the numbers converted until then.  A number that `long long` does not hold
leaves the run unclean.
-/

set_option autoImplicit false

namespace Machine.Scan

open Machine.Printed

def NoDigitHead (rest : List Char) : Prop := ∀ c ∈ rest.head?, isDigit c = false

theorem noDigitHead_nil : NoDigitHead [] := fun _ h => nomatch h

variable {c : Char}

theorem noDigitHead_cons (h : isDigit c = false) (rest : List Char) : NoDigitHead (c :: rest) := by
  intro d hd
  rw [List.head?_cons, Option.mem_some_iff] at hd
  rw [← hd, h]

theorem ne_of_isDigit {d : Char} (hc : isDigit c = true) (hd : isDigit d = false) : c ≠ d := by
  rintro rfl
  rw [hc] at hd
  cases hd

variable {ds : List ℕ}

theorem isDigit_of_mem_text (h : ∀ d ∈ ds, d < 10) (hc : c ∈ text ds) : isDigit c = true := by
  obtain ⟨d, hd, rfl⟩ := List.mem_map.mp hc
  exact isDigit_digitChar (h d hd)

theorem not_mem_text (h : ∀ d ∈ ds, d < 10) (hc : isDigit c = false) : c ∉ text ds :=
  fun hmem => ne_of_isDigit (isDigit_of_mem_text h hmem) hc rfl

variable {rest : List Char}

theorem takeWhile_text (h : ∀ d ∈ ds, d < 10)
    (hrest : NoDigitHead rest) : (text ds ++ rest).takeWhile isDigit = text ds := by
  rw [List.takeWhile_append_of_pos fun c hc => isDigit_of_mem_text h hc]
  cases rest with
  | nil => exact List.append_nil _
  | cons c rest =>
    rw [List.takeWhile_cons_of_neg (by rw [hrest c rfl]; decide), List.append_nil]

theorem dropWhile_text (h : ∀ d ∈ ds, d < 10)
    (hrest : NoDigitHead rest) : (text ds ++ rest).dropWhile isDigit = rest := by
  rw [List.dropWhile_append_of_pos fun c hc => isDigit_of_mem_text h hc]
  cases rest with
  | nil => rfl
  | cons c rest => rw [List.dropWhile_cons_of_neg (by rw [hrest c rfl]; decide)]

theorem map_charDigit_text (h : ∀ d ∈ ds, d < 10) : (text ds).map charDigit = ds := by
  have hcongr : ds.map (charDigit ∘ digitChar) = ds.map id :=
    List.map_congr_left fun d hd => charDigit_digitChar (h d hd)
  rw [text, List.map_map, hcongr, List.map_id]

theorem takeWhile_ne {body : List Char} (h : c ∉ body) (rest : List Char) :
    (body ++ c :: rest).takeWhile (fun d => decide (d ≠ c)) = body := by
  have hbody : ∀ d ∈ body, decide (d ≠ c) = true := by
    intro d hd
    rw [decide_eq_true_eq]
    rintro rfl
    exact h hd
  rw [List.takeWhile_append_of_pos hbody, List.takeWhile_cons_of_neg (by simp), List.append_nil]

def isSpace (c : Char) : Bool :=
  c = ' ' || c = '\t' || c = '\n' || c = '\r' || c = '\x0c' || c = '\x0b'

/-- The sign in front of a number: whether it is a minus, and what is left. -/
def takeSign : List Char → Bool × List Char
  | [] => (false, [])
  | c :: rest => if c = '-' then (true, rest) else if c = '+' then (false, rest) else (false, c :: rest)

/-- The number a text starts with, and what is left; `none` where there is no digit. -/
def takeInteger (input : List Char) : Option (ℤ × List Char) :=
  let (negative, rest) := takeSign (input.dropWhile isSpace)
  let digits := rest.takeWhile isDigit
  if digits = [] then none
  else
    let magnitude : ℤ := value 10 (digits.map charDigit)
    some (if negative then -magnitude else magnitude, rest.dropWhile isDigit)

/-- A directive of a scan format. -/
inductive Directive where
  | longLong
  | char (c : Char)
deriving DecidableEq

def sscanf {ε : Type} : List Directive → List Char → Run ε (List ℤ)
  | [], _ => pure []
  | .char _ :: _, [] => pure []
  | .char c :: format, d :: rest => if d = c then sscanf format rest else pure []
  | .longLong :: format, input =>
    match takeInteger input with
    | none => pure []
    | some (n, rest) => do
      let converted ← Run.signed 64 n
      let others ← sscanf format rest
      pure (converted :: others)

variable {ε : Type}

theorem takeInteger_text (h : ∀ d ∈ ds, d < 10) (hne : ds ≠ [])
    (hrest : NoDigitHead rest) : takeInteger (text ds ++ rest) = some ((value 10 ds : ℤ), rest) := by
  obtain ⟨d, ds', hds⟩ := List.exists_cons_of_ne_nil hne
  have hd : isDigit (digitChar d) = true := isDigit_digitChar (h d (by rw [hds]; exact List.mem_cons_self))
  have hcons : text ds ++ rest = digitChar d :: (text ds' ++ rest) := by
    rw [hds]
    rfl
  have hspace : isSpace (digitChar d) = false := by
    have hne' : ∀ {c : Char}, isDigit c = false → digitChar d ≠ c := fun hc => ne_of_isDigit hd hc
    simp only [isSpace, hne' (c := ' ') rfl, hne' (c := '\t') rfl, hne' (c := '\n') rfl,
      hne' (c := '\r') rfl, hne' (c := '\x0c') rfl, hne' (c := '\x0b') rfl]
    rfl
  have hsign : takeSign ((text ds ++ rest).dropWhile isSpace) = (false, text ds ++ rest) := by
    rw [hcons, List.dropWhile_cons_of_neg (by rw [hspace]; decide), takeSign,
      if_neg (ne_of_isDigit hd rfl), if_neg (ne_of_isDigit hd rfl)]
  have htext : text ds ≠ [] := fun hnil => hne (List.map_eq_nil_iff.mp hnil)
  rw [takeInteger, hsign]
  simp only [takeWhile_text h hrest, dropWhile_text h hrest, map_charDigit_text h, if_neg htext]
  rfl

theorem sscanf_longLong (h : ∀ d ∈ ds, d < 10) (hne : ds ≠ [])
    (hfits : value 10 ds < 2 ^ 63) (hrest : NoDigitHead rest)
    (format : List Directive) :
    (sscanf (.longLong :: format) (text ds ++ rest) : Run ε (List ℤ)) =
      (sscanf format rest >>= fun others => pure ((value 10 ds : ℤ) :: others)) := by
  simp only [sscanf, takeInteger_text h hne hrest]
  rw [Run.signed_eq_pure (by decide) (by omega) (by omega), pure_bind]

theorem sscanf_char (c : Char) (format : List Directive) (rest : List Char) :
    (sscanf (.char c :: format) (c :: rest) : Run ε (List ℤ)) = sscanf format rest := by
  rw [sscanf, if_pos rfl]

end Machine.Scan

/-!
# Digit fields

A field of a text is a run of decimal digits of a bounded length, read as a number.  A cursor that
takes as many digits as the bound admits reads exactly the field, where the text after it does not
go on with a digit or the field has its full length.  The rules here say where a text made of
fields begins and ends.
-/

namespace Machine.Scan

open Machine.Printed

/-- A run of `lo` to `hi` digits that spells `n`. -/
structure Field (lo hi : ℕ) (l : List Char) (n : ℕ) : Prop where
  digits : ∀ c ∈ l, isDigit c = true
  lo_le : lo ≤ l.length
  le_hi : l.length ≤ hi
  value_eq : value 10 (l.map charDigit) = n

variable {lo hi n : ℕ} {l : List Char}

theorem Field.lt (h : Field lo hi l n) : n < 10 ^ l.length := by
  have hds : ∀ d ∈ l.map charDigit, d < 10 := by
    intro d hd
    obtain ⟨c, hc, rfl⟩ := List.mem_map.mp hd
    exact charDigit_lt (h.digits c hc)
  have hlt := value_lt hds
  rw [List.length_map, h.value_eq] at hlt
  exact hlt

theorem field_fixed {w : ℕ} (hlo : lo ≤ w) (hhi : w ≤ hi) (hn : n < 10 ^ w) :
    Field lo hi (text (fixed 10 w n)) n := by
  have hds : ∀ d ∈ fixed 10 w n, d < 10 := fun d hd => lt_of_mem_fixed (by decide) hd
  refine ⟨fun c hc => isDigit_of_mem_text hds hc, ?_, ?_, ?_⟩
  · rw [length_text, length_fixed]
    exact hlo
  · rw [length_text, length_fixed]
    exact hhi
  · rw [map_charDigit_text hds, value_fixed_of_lt hn]

def StartsDigit (l : List Char) : Prop := ∃ c t, l = c :: t ∧ isDigit c = true

def EndsDigit (l : List Char) : Prop := ∃ t c, l = t ++ [c] ∧ isDigit c = true

variable {l : List Char}

theorem StartsDigit.append (h : StartsDigit l) (r : List Char) : StartsDigit (l ++ r) := by
  obtain ⟨c, t, rfl, hc⟩ := h
  exact ⟨c, t ++ r, rfl, hc⟩

theorem EndsDigit.append (k : List Char) (h : EndsDigit l) : EndsDigit (k ++ l) := by
  obtain ⟨t, c, rfl, hc⟩ := h
  exact ⟨k ++ t, c, (List.append_assoc k t [c]).symm, hc⟩

theorem EndsDigit.cons (d : Char) (h : EndsDigit l) : EndsDigit (d :: l) :=
  h.append [d]

theorem Field.startsDigit (h : Field lo hi l n) (hlo : 0 < lo) : StartsDigit l := by
  cases l with
  | nil => exact absurd h.lo_le (by simp only [List.length_nil]; omega)
  | cons c t => exact ⟨c, t, rfl, h.digits c List.mem_cons_self⟩

theorem Field.endsDigit (h : Field lo hi l n) (hlo : 0 < lo) : EndsDigit l := by
  have hne : l ≠ [] := by
    rintro rfl
    exact absurd h.lo_le (by simp only [List.length_nil]; omega)
  exact ⟨l.dropLast, l.getLast hne, (List.dropLast_concat_getLast hne).symm,
    h.digits _ (List.getLast_mem hne)⟩

theorem dropWhile_rdropWhile {p : Char → Bool} {lead core trail : List Char}
    (hlead : ∀ c ∈ lead, p c = true) (htrail : ∀ c ∈ trail, p c = true)
    (hfirst : ∀ c ∈ core.head?, p c = false) (hlast : ∀ c ∈ core.getLast?, p c = false)
    (hne : core ≠ []) : ((lead ++ (core ++ trail)).dropWhile p).rdropWhile p = core := by
  obtain ⟨c, t, rfl⟩ := List.exists_cons_of_ne_nil hne
  have hc : p c = false := hfirst c rfl
  have hdrop : (lead ++ (c :: t ++ trail)).dropWhile p = c :: t ++ trail := by
    rw [List.dropWhile_append_of_pos hlead]
    exact List.dropWhile_cons_of_neg (by rw [hc]; decide)
  have hrev : (trail.reverse ++ (c :: t).reverse).dropWhile p = (c :: t).reverse := by
    rw [List.dropWhile_append_of_pos fun d hd => htrail d (List.mem_reverse.mp hd)]
    cases hr : (c :: t).reverse with
    | nil => rfl
    | cons d r =>
      have hd : d ∈ (c :: t).getLast? := by
        rw [← List.head?_reverse, hr]
        rfl
      exact List.dropWhile_cons_of_neg (by rw [hlast d hd]; decide)
  rw [hdrop, List.rdropWhile, List.reverse_append, hrev, List.reverse_reverse]

theorem exists_append_trimmed (p : Char → Bool) (s : List Char) :
    ∃ lead trail, s = lead ++ ((s.dropWhile p).rdropWhile p ++ trail) ∧
      (∀ c ∈ lead, p c = true) ∧ ∀ c ∈ trail, p c = true := by
  refine ⟨s.takeWhile p, (s.dropWhile p).rtakeWhile p, ?_, fun c hc => List.mem_takeWhile_imp hc,
    fun c hc => ?_⟩
  · simp
  · rw [List.rtakeWhile, List.mem_reverse] at hc
    exact List.mem_takeWhile_imp hc

end Machine.Scan
