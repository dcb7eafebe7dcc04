import SharpRuntime.Machine.Bytes
import SharpRuntime.Model.XmlConvert

/-!
# XML names

An encoded name is a sequence of name characters and escapes, and an escape begins with an
underscore; so a character of an encoded name that is no underscore stands for itself
(`encodeFrom_literal`).  What the decoder takes for an escape is one that the encoder has written,
or four hexadecimal digits behind `_x` in the name itself, which the escape of the next character
closes (`Completes`).
-/

set_option autoImplicit false
set_option maxRecDepth 20000

namespace SharpRuntime.Analysis.XmlNames

open Machine
open Model Model.XmlConvert

theorem isNCNameChar_underscore : isNCNameChar (charcs '_'.toUInt8) = true := by decide

theorem isStartNCNameChar_underscore : isStartNCNameChar (charcs '_'.toUInt8) = true := by decide

variable {c : UInt8}

theorem isNCNameChar_of_start (h : isStartNCNameChar (charcs c) = true) :
    isNCNameChar (charcs c) = true := by
  revert c
  decide

theorem isNCNameChar_of_isxdigit (h : isxdigit c = true) :
    isNCNameChar (charcs c) = true := by
  revert c
  decide

theorem ne_underscore_of_isxdigit (h : isxdigit c = true) : c ≠ '_'.toUInt8 := by
  rintro rfl
  revert h
  decide

def high (ch : UInt8) : UInt8 := upperHex (ch.toNat / 16)

def low (ch : UInt8) : UInt8 := upperHex (ch.toNat % 16)

theorem escape_eq (ch : UInt8) :
    escape ch = ['_'.toUInt8, 'x'.toUInt8, '0'.toUInt8, '0'.toUInt8, high ch, low ch,
      '_'.toUInt8] := by
  have hlt := ch.toNat_lt
  have hhigh : ch.toNat / 16 % 16 = ch.toNat / 16 := by omega
  have hthird : ch.toNat / 16 / 16 = 0 := by omega
  rw [escape, Printed.padded_eq_fixed (by decide) (by decide) (by omega)]
  simp only [Printed.fixed, hhigh, hthird, Nat.zero_div, Nat.zero_mod, List.nil_append,
    List.cons_append, List.map_cons, List.map_nil]
  rfl

theorem digits_of_escape (ch : UInt8) :
    isxdigit (high ch) = true ∧ isxdigit (low ch) = true ∧
      UInt8.ofNat (Printed.value 16 [0, 0, hexDigit (high ch), hexDigit (low ch)]) = ch := by
  revert ch
  decide

theorem decodeFrom_escape (ch : UInt8) (t : List UInt8) :
    decodeFrom 0 (escape ch ++ t) = ch :: decodeFrom 0 t := by
  obtain ⟨hhigh, hlow, hvalue⟩ := digits_of_escape ch
  have hzero : isxdigit '0'.toUInt8 = true := by decide
  rw [escape_eq]
  simp only [List.cons_append, List.nil_append, decodeFrom, looksLikeEscape, hzero, hhigh, hlow,
    beq_self_eq_true, Bool.and_self, if_true]
  exact congrArg (· :: decodeFrom 0 t) hvalue

variable {ch : UInt8} {t : List UInt8}

theorem decodeFrom_keep (h : looksLikeEscape (ch :: t) = false) :
    decodeFrom 0 (ch :: t) = ch :: decodeFrom 0 t := by
  rw [decodeFrom, if_neg (by rw [h]; exact Bool.false_ne_true)]

theorem looksLikeEscape_of_ne (h : ch ≠ '_'.toUInt8) (t : List UInt8) :
    looksLikeEscape (ch :: t) = false := by
  unfold looksLikeEscape
  split
  · grind
  · rfl

theorem looksLikeEscape_iff (s : List UInt8) :
    looksLikeEscape s = true ↔ ∃ a b c d rest, s = '_'.toUInt8 :: 'x'.toUInt8 :: a :: b :: c :: d ::
        '_'.toUInt8 :: rest ∧ isxdigit a = true ∧ isxdigit b = true ∧ isxdigit c = true ∧
      isxdigit d = true := by
  constructor
  · intro h
    unfold looksLikeEscape at h
    split at h
    · simp only [Bool.and_eq_true, beq_iff_eq] at h
      obtain ⟨⟨⟨⟨⟨⟨rfl, rfl⟩, ha⟩, hb⟩, hc⟩, hd⟩, rfl⟩ := h
      exact ⟨_, _, _, _, _, rfl, ha, hb, hc, hd⟩
    · cases h
  · grind [looksLikeEscape]

def keeps (isFirst : Bool) (ch : UInt8) (name : List UInt8) : Bool :=
  (if isFirst then isStartNCNameChar (charcs ch) else isNCNameChar (charcs ch)) &&
    !looksLikeEscape (ch :: name)

variable {name : List UInt8}

variable {isFirst : Bool}

theorem encodeFrom_of_keeps (h : keeps isFirst ch name = true) :
    encodeFrom isFirst (ch :: name) = ch :: encodeFrom false name := by
  exact congrArg (· ++ encodeFrom false name) (if_pos h)

theorem encodeFrom_of_not_keeps (h : keeps isFirst ch name = false) :
    encodeFrom isFirst (ch :: name) = escape ch ++ encodeFrom false name := by
  grind [encodeFrom, keeps]

/-- A character of the result other than `_` is one of the name. -/
theorem encodeFrom_literal (hc : c ≠ '_'.toUInt8)
    (h : encodeFrom false name = c :: t) : ∃ name', name = c :: name' ∧ encodeFrom false name' = t := by
  cases name with
  | nil => cases h
  | cons ch name =>
    cases hkeeps : keeps false ch name with
    | true =>
      rw [encodeFrom_of_keeps hkeeps] at h
      cases h
      exact ⟨name, rfl, rfl⟩
    | false =>
      rw [encodeFrom_of_not_keeps hkeeps, escape_eq] at h
      cases h
      exact absurd rfl hc

/-- An underscore of an encoded name stands for itself, or begins the escape of a character that is
no name character or of an underscore. -/
theorem encodeFrom_underscore (h : encodeFrom false name = '_'.toUInt8 :: t) :
    ∃ e name', name = e :: name' ∧ (e = '_'.toUInt8 ∨ isNCNameChar (charcs e) = false) := by
  cases name with
  | nil => cases h
  | cons ch name =>
    refine ⟨ch, name, rfl, ?_⟩
    cases hkeeps : keeps false ch name with
    | true =>
      rw [encodeFrom_of_keeps hkeeps] at h
      cases h
      exact Or.inl rfl
    | false => grind [keeps, looksLikeEscape_of_ne]

/-- Four hexadecimal digits behind `_x` in a name, and a character that is no name character. -/
def Completes (name : List UInt8) : Prop :=
  ∃ a b c d e rest, name = '_'.toUInt8 :: 'x'.toUInt8 :: a :: b :: c :: d :: e :: rest ∧
    isxdigit a = true ∧ isxdigit b = true ∧ isxdigit c = true ∧ isxdigit d = true ∧
    isNCNameChar (charcs e) = false

/-- What looks like an escape once encoded was completed by an inserted one. -/
theorem completes_of_encodeFrom (hname : looksLikeEscape (ch :: name) = false)
    (h : looksLikeEscape (ch :: encodeFrom false name) = true) : Completes (ch :: name) := by
  obtain ⟨a, b, c, d, rest, heq, ha, hb, hc, hd⟩ := (looksLikeEscape_iff _).mp h
  rw [List.cons.injEq] at heq
  obtain ⟨rfl, heq⟩ := heq
  obtain ⟨name₁, rfl, heq₁⟩ := encodeFrom_literal (by decide) heq
  obtain ⟨name₂, rfl, heq₂⟩ := encodeFrom_literal (ne_underscore_of_isxdigit ha) heq₁
  obtain ⟨name₃, rfl, heq₃⟩ := encodeFrom_literal (ne_underscore_of_isxdigit hb) heq₂
  obtain ⟨name₄, rfl, heq₄⟩ := encodeFrom_literal (ne_underscore_of_isxdigit hc) heq₃
  obtain ⟨name₅, rfl, heq₅⟩ := encodeFrom_literal (ne_underscore_of_isxdigit hd) heq₄
  obtain ⟨e, name₆, rfl, he⟩ := encodeFrom_underscore heq₅
  refine ⟨a, b, c, d, e, name₆, rfl, ha, hb, hc, hd, he.resolve_left ?_⟩
  rintro rfl
  have htrue := (looksLikeEscape_iff _).mpr ⟨a, b, c, d, name₆, rfl, ha, hb, hc, hd⟩
  rw [htrue] at hname
  cases hname

theorem keeps_of_isNCNameChar (h : isNCNameChar (charcs ch) = true)
    (hch : ch ≠ '_'.toUInt8) (name : List UInt8) : keeps false ch name = true := by
  rw [keeps, looksLikeEscape_of_ne hch]
  simpa using h

variable (isFirst : Bool)

theorem encodeFrom_of_completes {a b d e : UInt8} {rest : List UInt8}
    (ha : isxdigit a = true) (hb : isxdigit b = true) (hc : isxdigit c = true)
    (hd : isxdigit d = true) (he : isNCNameChar (charcs e) = false) :
    encodeFrom isFirst ('_'.toUInt8 :: 'x'.toUInt8 :: a :: b :: c :: d :: e :: rest) =
      '_'.toUInt8 :: 'x'.toUInt8 :: a :: b :: c :: d :: (escape e ++ encodeFrom false rest) := by
  have hlook : looksLikeEscape ('_'.toUInt8 :: 'x'.toUInt8 :: a :: b :: c :: d :: e :: rest) =
      false := by
    rw [Bool.eq_false_iff]
    intro hlook
    obtain ⟨a', b', c', d', rest', heq, -⟩ := (looksLikeEscape_iff _).mp hlook
    simp only [List.cons.injEq] at heq
    rw [heq.2.2.2.2.2.2.1, isNCNameChar_underscore] at he
    cases he
  have hfirst : keeps isFirst '_'.toUInt8 ('x'.toUInt8 :: a :: b :: c :: d :: e :: rest) = true := by
    rw [keeps, hlook]
    cases isFirst <;> decide
  have hdigit : ∀ {h : UInt8}, isxdigit h = true → ∀ name, keeps false h name = true :=
    fun h name => keeps_of_isNCNameChar (isNCNameChar_of_isxdigit h) (ne_underscore_of_isxdigit h) name
  have hlast : keeps false e rest = false := by
    rw [keeps]
    simp only [Bool.false_eq_true, if_false, he, Bool.false_and]
  rw [encodeFrom_of_keeps hfirst, encodeFrom_of_keeps (keeps_of_isNCNameChar (by decide) (by decide) _),
    encodeFrom_of_keeps (hdigit ha _), encodeFrom_of_keeps (hdigit hb _),
    encodeFrom_of_keeps (hdigit hc _), encodeFrom_of_keeps (hdigit hd _),
    encodeFrom_of_not_keeps hlast]

theorem decodeFrom_of_completes (h : Completes name) :
    decodeFrom 0 (encodeFrom isFirst name) ≠ name := by
  obtain ⟨a, b, c, d, e, rest, rfl, ha, hb, hc, hd, he⟩ := h
  obtain ⟨hhigh, hlow, hvalue⟩ := digits_of_escape e
  have hlook : looksLikeEscape ('_'.toUInt8 :: 'x'.toUInt8 :: a :: b :: c :: d :: '_'.toUInt8 ::
      'x'.toUInt8 :: '0'.toUInt8 :: '0'.toUInt8 :: high e :: low e :: '_'.toUInt8 ::
      encodeFrom false rest) = true :=
    (looksLikeEscape_iff _).mpr ⟨a, b, c, d, _, rfl, ha, hb, hc, hd⟩
  have hkeep : ∀ {h : UInt8} (t), isxdigit h = true → decodeFrom 0 (h :: t) = h :: decodeFrom 0 t :=
    fun t h => decodeFrom_keep (looksLikeEscape_of_ne (ne_underscore_of_isxdigit h) t)
  have hrest : ∀ t, decodeFrom 0 ('x'.toUInt8 :: '0'.toUInt8 :: '0'.toUInt8 :: high e :: low e :: t) =
      'x'.toUInt8 :: '0'.toUInt8 :: '0'.toUInt8 :: high e :: low e :: decodeFrom 0 t := by
    intro t
    rw [decodeFrom_keep (looksLikeEscape_of_ne (by decide) _), hkeep _ (by decide),
      hkeep _ (by decide), hkeep _ hhigh, hkeep _ hlow]
  intro heq
  rw [encodeFrom_of_completes isFirst ha hb hc hd he, escape_eq] at heq
  simp only [List.cons_append, List.nil_append] at heq
  rw [decodeFrom, if_pos hlook] at heq
  change _ :: decodeFrom 0 _ = _ at heq
  rw [hrest] at heq
  simp only [List.cons.injEq] at heq
  obtain ⟨hcode, -, rfl, rfl, rfl, rfl, -⟩ := heq
  have hunderscore : e = '_'.toUInt8 := hvalue.symm.trans hcode
  rw [hunderscore, isNCNameChar_underscore] at he
  cases he

/-- **An encoded name is decoded as the name exactly if no escape closes another one.** -/
theorem decodeFrom_encodeFrom_iff (name : List UInt8) :
    decodeFrom 0 (encodeFrom isFirst name) = name ↔ ∀ t, t <:+ name → ¬ Completes t := by
  induction name generalizing isFirst with
  | nil =>
    refine ⟨fun _ t ht hcompletes => ?_, fun _ => by cases isFirst <;> rfl⟩
    obtain ⟨a, b, c, d, e, rest, rfl, -⟩ := hcompletes
    cases List.suffix_nil.mp ht
  | cons ch name ih =>
    by_cases hcompletes : Completes (ch :: name)
    · exact iff_of_false (decodeFrom_of_completes isFirst hcompletes)
        fun h => h _ List.suffix_rfl hcompletes
    · have hdecode : decodeFrom 0 (encodeFrom isFirst (ch :: name)) =
          ch :: decodeFrom 0 (encodeFrom false name) := by
        cases hkeeps : keeps isFirst ch name with
        | true =>
          rw [encodeFrom_of_keeps hkeeps]
          apply decodeFrom_keep
          rw [keeps, Bool.and_eq_true, Bool.not_eq_true'] at hkeeps
          rw [Bool.eq_false_iff]
          exact fun hlook => hcompletes (completes_of_encodeFrom hkeeps.2 hlook)
        | false => rw [encodeFrom_of_not_keeps hkeeps, decodeFrom_escape]
      rw [hdecode, List.cons.injEq, eq_self, true_and, ih false]
      constructor
      · intro h t ht
        rcases List.suffix_cons_iff.mp ht with rfl | ht
        · exact hcompletes
        · exact h t ht
      · exact fun h t ht => h t (ht.trans (List.suffix_cons ch name))

theorem decodeName_eq (name : List UInt8) : decodeName name = decodeFrom 0 name := by
  cases name <;> rfl

theorem encodeNameImpl_eq (name : List UInt8) (isNmToken isLocal : Bool) :
    encodeNameImpl name isNmToken isLocal = encodeFrom (!isLocal && !isNmToken) name := by
  cases name <;> rfl

theorem encodeFrom_chars (name : List UInt8) :
    ∀ c ∈ encodeFrom isFirst name, isNCNameChar (charcs c) = true := by
  induction name generalizing isFirst with
  | nil => simp [encodeFrom]
  | cons ch name ih =>
    intro c hc
    cases hkeeps : keeps isFirst ch name with
    | true => grind [encodeFrom_of_keeps, keeps, isNCNameChar_of_start]
    | false =>
      rw [encodeFrom_of_not_keeps hkeeps, List.mem_append, escape_eq] at hc
      rcases hc with hc | hc
      · obtain ⟨hhigh, hlow, -⟩ := digits_of_escape ch
        simp only [List.mem_cons, List.not_mem_nil, or_false] at hc
        rcases hc with rfl | rfl | rfl | rfl | rfl | rfl | rfl
        · decide
        · decide
        · decide
        · decide
        · exact isNCNameChar_of_isxdigit hhigh
        · exact isNCNameChar_of_isxdigit hlow
        · decide
      · exact ih false c hc

theorem encodeFrom_start (h : name ≠ []) :
    ∃ c rest, encodeFrom true name = c :: rest ∧ isStartNCNameChar (charcs c) = true := by
  obtain ⟨ch, name, rfl⟩ := List.exists_cons_of_ne_nil h
  cases hkeeps : keeps true ch name with
  | true => grind [encodeFrom_of_keeps, keeps]
  | false =>
    rw [encodeFrom_of_not_keeps hkeeps, escape_eq]
    exact ⟨_, _, rfl, isStartNCNameChar_underscore⟩

/-- What an encoded name owes: it is a name, and it is decoded as what has been encoded. -/
structure NamesOf (s : List UInt8) : Prop where
  name : decodeName (encodeName s) = s
  localName : decodeName (encodeLocalName s) = s
  nmToken : decodeName (encodeNmToken s) = s
  chars : ∀ c ∈ encodeName s, isNCNameChar (charcs c) = true
  start : s ≠ [] → ∃ c rest, encodeName s = c :: rest ∧ isStartNCNameChar (charcs c) = true

/-- **A name is encoded and decoded as itself unless four hexadecimal digits behind `_x` stand in it
in front of a character that is no name character.**  The escape of that character closes them. -/
theorem names_of_iff (s : List UInt8) : NamesOf s ↔ ∀ t, t <:+ s → ¬ Completes t := by
  have hround : ∀ isNmToken isLocal, decodeName (encodeNameImpl s isNmToken isLocal) = s ↔
      ∀ t, t <:+ s → ¬ Completes t := by
    intro isNmToken isLocal
    rw [decodeName_eq, encodeNameImpl_eq]
    exact decodeFrom_encodeFrom_iff _ s
  constructor
  · exact fun h => (hround false false).mp h.name
  · intro h
    refine ⟨(hround false false).mpr h, (hround false true).mpr h, (hround true false).mpr h, ?_, ?_⟩
    · rw [encodeName, encodeNameImpl_eq]
      exact encodeFrom_chars _ s
    · rw [encodeName, encodeNameImpl_eq]
      exact encodeFrom_start

/-- The name `_x0041 ` with a blank at its end. -/
theorem not_names_of_blank : ¬ ∀ s, NamesOf s := by
  intro h
  have hname := (h ("_x0041 ".toList.map Char.toUInt8)).name
  revert hname
  decide

end SharpRuntime.Analysis.XmlNames
