import SharpRuntime.Analysis.DateTimeRoundTrip

/-!
# Complete custom formats

The formatter and the matcher agree on tokens, plain characters and quotations, but not on the
backslash: the matcher reads `\c` as `c`, the formatter writes the backslash and then treats `c` as
a piece of its own.  Over a complete format with an escape the text has a backslash more than the
matcher consumes (`extra_backslash`), and the parser rejects it.
-/

set_option autoImplicit false

namespace SharpRuntime.Analysis.DateTimeCustomFormat

open Machine Model Model.DateTime Interface
open DateTimeCalendar DateTimeArithmetic
open DateTimeFormatting DateTimeRoundTrip

def Literals (items : List Item) : Prop := ∀ item ∈ items, item.token? = none → item.IsLiteral

variable {items : List Item}

variable {item : Item}

theorem Literals.tail (h : Literals (item :: items)) : Literals items :=
  fun item' hmem => h item' (List.mem_cons_of_mem _ hmem)

theorem separated_tail (h : Separated (item :: items)) : Separated items := by
  cases item with
  | token t => exact h.2
  | _ => exact h

theorem head_spell_ne (hliterals : Literals items)
    (hhead : ∀ t, items.head? ≠ some (.token t)) (t : Token) :
    (spell items ++ []).head? ≠ some t.specifier := by
  cases items with
  | nil => exact fun h => nomatch h
  | cons item items =>
    rw [spell_cons]
    cases item with
    | token t' => exact absurd rfl (hhead t')
    | plain c => exact (hliterals (.plain c) List.mem_cons_self rfl).elim
    | quoted quote body =>
      obtain ⟨hquote, -⟩ := hliterals (.quoted quote body) List.mem_cons_self rfl
      rcases hquote with rfl | rfl <;> cases t <;> exact fun h => by cases h
    | escaped c => cases t <;> exact fun h => by cases h

theorem reads_of_separated (hliterals : Literals items)
    (hseparated : Separated items) : Reads items [] := by
  induction items with
  | nil => trivial
  | cons item items ih =>
    have htail := ih hliterals.tail (separated_tail hseparated)
    cases item with
    | token t => exact ⟨head_spell_ne hliterals.tail hseparated.1 t, htail⟩
    | plain c => exact (hliterals (.plain c) List.mem_cons_self rfl).elim
    | quoted quote body =>
      obtain ⟨hquote, hbody⟩ := hliterals (.quoted quote body) List.mem_cons_self rfl
      exact ⟨hquote, hbody, htail⟩
    | escaped c => exact htail

section Prefix

variable {x : DateTime} {info : DateTimeFormatInfo}

theorem formatStep_backslash (rest r : List Char) :
    formatStep x info none ⟨'\\' :: rest, r⟩ = pure ⟨rest, r ++ ['\\']⟩ :=
  formatStep_literal (by decide) rest r

variable {r : List Char} {s : FormatState}

theorem formatAll_backslash {rest : List Char} (h : formatAll x info ⟨'\\' :: rest, r⟩ = pure s) :
    formatAll x info ⟨rest, r ++ ['\\']⟩ = pure s ∧ r ++ ['\\'] <+: s.result := by
  rw [formatAll_of_step (List.cons_ne_nil _ _) (formatStep_backslash rest r)] at h
  exact ⟨h, formatAll_keeps h _ List.prefix_rfl (by simp)⟩

variable {items : List Item}

theorem prefix_result (hx : x.ticks ≤ maxTicks) (hreads : Reads items [])
    (hliterals : Literals items)
    (h : formatAll x info ⟨spell items ++ [], r⟩ = pure s) : r <+: s.result := by
  induction items generalizing r with
  | nil =>
    have hnil : formatAll x info ⟨[], r⟩ = pure s := h
    rw [formatAll_nil, Run.pure_inj] at hnil
    rw [← hnil]
  | cons item items ih =>
    rw [spell_cons] at h
    cases item with
    | token t =>
      obtain ⟨hnext, hreads⟩ := hreads
      have hstep := formatAll_of_step (spelling_ne_nil t _)
        (formatStep_token hx t hnext r : formatStep x info none _ = _)
      exact (List.prefix_append r _).trans (ih hreads hliterals.tail (hstep.symm.trans h))
    | plain c => exact (hliterals (.plain c) List.mem_cons_self rfl).elim
    | quoted quote body =>
      obtain ⟨hquote, hbody, hreads⟩ := hreads
      rw [quoted_spelling, formatAll_of_step (List.cons_ne_nil _ _)
        (formatStep_quoted hquote hbody _ r)] at h
      exact (List.prefix_append r _).trans (ih hreads hliterals.tail h)
    | escaped c =>
      have hback : formatAll x info ⟨'\\' :: (c :: (spell items ++ [])), r⟩ = pure s := h
      exact (List.prefix_append r _).trans (formatAll_backslash hback).2

theorem split_result (hx : x.ticks ≤ maxTicks) (hreads : Reads items [])
    (hliterals : Literals items) {text T : List Char}
    (h : formatAll x info ⟨spell items ++ [], r ++ text⟩ = pure s) (hs : s.result = r ++ T) :
    ∃ T', T = text ++ T' ∧ s.result = r ++ text ++ T' := by
  obtain ⟨T', hT'⟩ := prefix_result hx hreads hliterals h
  refine ⟨T', ?_, hT'.symm⟩
  rw [hs, List.append_assoc] at hT'
  exact (List.append_cancel_left hT').symm

end Prefix

variable {text : List Char}

theorem take_eq_some {c : Char} {rest : List Char} (h : take c text = some rest) :
    text = c :: rest := by
  have htake : takeAll [c] text = some rest := by
    rw [takeAll, h]
    rfl
  exact takeAll_eq_some htake

theorem takeDigits_backslash (min : ℕ) (hmin : 0 < min) (max : ℕ) (text : List Char) :
    takeDigits min max ('\\' :: text) = none := by
  have hscan : scanDigits max 0 0 ('\\' :: text) = (0, 0, '\\' :: text) := by
    cases max <;> rfl
  rw [takeDigits, hscan]
  exact if_pos hmin

section Backslash

variable {options : ExactParseOptions}

theorem matchStep_token_backslash (hwhite : options.allowInnerWhite = false) (t : Token)
    {rest : List Char} (h : rest.head? ≠ some t.specifier) (text : List Char)
    (fields : ExactDateTimeFields) :
    matchStep .dateAndTime options ⟨t.spelling ++ rest, '\\' :: text, fields⟩ = none := by
  have hrun := runOf_replicate h (t.width - 1)
  have hspelling : t.spelling = t.specifier :: List.replicate (t.width - 1) t.specifier := by
    cases t <;> rfl
  have hother : t.specifier ≠ '%' ∧ t.specifier ≠ '\\' ∧ ¬ (t.specifier = '\'' ∨ t.specifier = '"') := by
    cases t <;> decide
  have hread := takeDigits_backslash t.width (by cases t <;> decide) t.width text
  have hfield : matchField .dateAndTime options t.specifier (t.width - 1 + 1) ('\\' :: text)
      fields = none := by
    cases t <;>
      simp [matchField, matchNumber, takeNumber, takeFixedDigits, isTimeToken, Token.specifier,
        Token.width] at hread ⊢ <;>
      simp [hread]
  simp [matchStep, hwhite, hspelling, hother, hrun, hfield]

/-- Text made longer in front by copies of one character still starts with `body` only where
`body` is made of that character. -/
theorem append_replicate_comm {c : Char} {k : ℕ} {body text text' : List Char}
    (h : List.replicate k c ++ (body ++ text) = body ++ text') :
    text' = List.replicate k c ++ text := by
  induction body with
  | nil => exact h.symm
  | cons d body ih =>
    cases k with
    | zero => grind
    | succ k =>
      rw [List.replicate_succ, List.cons_append, List.cons_append, List.cons_append,
        List.cons.injEq] at h
      obtain ⟨rfl, h⟩ := h
      refine ih ?_
      rw [← h, List.replicate_succ', List.append_assoc]
      rfl

end Backslash

section Escape

variable {x : DateTime} {info : DateTimeFormatInfo} {options : ExactParseOptions}

variable {r T : List Char} {s : FormatState} {m : MatchState}

/-- In front of an escaped character, formatter and matcher part: either the matcher fails, or
the character is a backslash itself, of which the formatter writes two and the matcher reads
one. -/
theorem escape_step (hwhite : options.allowInnerWhite = false) {c : Char} {rest : List Char}
    (h : formatAll x info ⟨'\\' :: c :: rest, r⟩ = pure s) (hs : s.result = r ++ T)
    (k : ℕ) (fields : ExactDateTimeFields)
    (hm : matchAll .dateAndTime options
      ⟨'\\' :: c :: rest, List.replicate k '\\' ++ T, fields⟩ = some m) :
    ∃ T', formatAll x info ⟨rest, r ++ ['\\', '\\']⟩ = pure s ∧ s.result = r ++ ['\\', '\\'] ++ T' ∧
      matchAll .dateAndTime options ⟨rest, List.replicate (k + 1) '\\' ++ T', fields⟩ = some m := by
  obtain ⟨hnext, T1, hT1⟩ := formatAll_backslash h
  have hT : T = '\\' :: T1 := by
    rw [hs, List.append_assoc] at hT1
    exact (List.append_cancel_left hT1).symm
  rw [matchAll_cons _ _ (List.cons_ne_nil _ _), matchStep_escaped hwhite] at hm
  have hfront : List.replicate k '\\' ++ T = '\\' :: (List.replicate k '\\' ++ T1) := by
    rw [hT, ← List.cons_append, ← List.replicate_succ, List.replicate_succ', List.append_assoc]
    rfl
  cases htake : take c (List.replicate k '\\' ++ T) with
  | none =>
    rw [htake] at hm
    cases hm
  | some text =>
    have htext := take_eq_some htake
    rw [hfront, List.cons.injEq] at htext
    obtain ⟨rfl, htext⟩ := htext
    rw [htake, Option.map_some] at hm
    obtain ⟨hrest, T', hT'⟩ := formatAll_backslash hnext
    have htwo : r ++ ['\\'] ++ ['\\'] = r ++ ['\\', '\\'] := List.append_assoc r ['\\'] ['\\']
    rw [htwo] at hrest hT'
    have hT1' : T1 = '\\' :: T' := by
      rw [hs, hT, List.append_assoc] at hT'
      exact (List.cons.inj (List.append_cancel_left hT')).2.symm
    refine ⟨T', hrest, hT'.symm, ?_⟩
    rw [List.replicate_succ', List.append_assoc, List.cons_append, List.nil_append, ← hT1', htext]
    exact hm

variable {items : List Item}

/-- With a backslash too many in front of its text, a format is not matched to the end: tokens do
not read it, and literals and escapes pass it on. -/
theorem extra_backslash (hwhite : options.allowInnerWhite = false) (hx : x.ticks ≤ maxTicks)
    (hreads : Reads items []) (hliterals : Literals items)
    (h : formatAll x info ⟨spell items ++ [], r⟩ = pure s)
    (hs : s.result = r ++ T) (k : ℕ) (fields : ExactDateTimeFields)
    (hm : matchAll .dateAndTime options
      ⟨spell items ++ [], List.replicate (k + 1) '\\' ++ T, fields⟩ = some m) : m.text ≠ [] := by
  induction items generalizing r T k fields with
  | nil =>
    have hnil : some ⟨[], List.replicate (k + 1) '\\' ++ T, fields⟩ = some m := hm
    grind
  | cons item items ih =>
    rw [spell_cons] at h hm
    cases item with
    | token t =>
      rw [matchAll_cons _ _ (spelling_ne_nil t _)] at hm
      have hnone := matchStep_token_backslash hwhite t hreads.1
        (List.replicate k '\\' ++ T) fields
      have hfail := (congrArg (· >>= matchAll .dateAndTime options) hnone).symm.trans hm
      cases hfail
    | plain c => exact (hliterals (.plain c) List.mem_cons_self rfl).elim
    | quoted quote body =>
      obtain ⟨hquote, hbody, hreads⟩ := hreads
      rw [quoted_spelling, formatAll_of_step (List.cons_ne_nil _ _)
        (formatStep_quoted hquote hbody _ r)] at h
      obtain ⟨T', hT, hT'⟩ := split_result hx hreads hliterals.tail h hs
      rw [quoted_spelling, matchAll_cons _ _ (List.cons_ne_nil _ _),
        matchStep_quoted hwhite hquote hbody] at hm
      cases htake : takeAll body (List.replicate (k + 1) '\\' ++ T) with
      | none =>
        rw [htake] at hm
        cases hm
      | some text =>
        have htext := takeAll_eq_some htake
        rw [hT] at htext
        rw [htake, append_replicate_comm htext] at hm
        exact ih hreads hliterals.tail h hT' k fields hm
    | escaped c =>
      obtain ⟨T', hnext, hresult, hmatch⟩ := escape_step hwhite h hs (k + 1) fields hm
      exact ih hreads hliterals.tail hnext hresult (k + 1) fields hmatch

theorem escape_rejected (hwhite : options.allowInnerWhite = false) (hx : x.ticks ≤ maxTicks)
    (hreads : Reads items []) (hliterals : Literals items)
    (hescape : HasEscape items) (hnodup : (tokens items).Nodup)
    (h : formatAll x info ⟨spell items ++ [], r⟩ = pure s)
    (hs : s.result = r ++ T) {fields : ExactDateTimeFields}
    (hfree : ∀ t ∈ tokens items, t.get fields = t.unbound)
    (hm : matchAll .dateAndTime options ⟨spell items ++ [], T, fields⟩ = some m) :
    m.text ≠ [] := by
  induction items generalizing r T fields with
  | nil =>
    obtain ⟨c, hc⟩ := hescape
    cases hc
  | cons item items ih =>
    have htail : (∀ c, item ≠ .escaped c) → HasEscape items := by
      intro hitem
      obtain ⟨c, hc⟩ := hescape
      rcases List.mem_cons.mp hc with rfl | hc
      · exact absurd rfl (hitem c)
      · exact ⟨c, hc⟩
    rw [spell_cons] at h hm
    cases item with
    | token t =>
      obtain ⟨hnext, hreads⟩ := hreads
      have hnot := (List.nodup_cons.mp hnodup).1
      have hformat := (formatAll_of_step (spelling_ne_nil t _)
        (formatStep_token hx t hnext r : formatStep x info none _ = _)).symm.trans h
      obtain ⟨T', hT, hT'⟩ := split_result hx hreads hliterals.tail hformat hs
      rw [hT] at hm
      have hmatch := (matchAll_of_step (spelling_ne_nil t _) (matchStep_token hwhite hx t hnext T'
        (hfree t List.mem_cons_self))).symm.trans hm
      refine ih hreads hliterals.tail (htail fun c hc => nomatch hc) (List.nodup_cons.mp hnodup).2
        hformat hT' (fun t' ht' => ?_) hmatch
      have hne : t' ≠ t := fun heq => hnot (heq ▸ ht')
      rw [Token.get_bind_of_ne hne]
      exact hfree t' (List.mem_cons_of_mem _ ht')
    | plain c => exact (hliterals (.plain c) List.mem_cons_self rfl).elim
    | quoted quote body =>
      obtain ⟨hquote, hbody, hreads⟩ := hreads
      rw [quoted_spelling, formatAll_of_step (List.cons_ne_nil _ _)
        (formatStep_quoted hquote hbody _ r)] at h
      obtain ⟨T', hT, hT'⟩ := split_result hx hreads hliterals.tail h hs
      rw [quoted_spelling, matchAll_cons _ _ (List.cons_ne_nil _ _),
        matchStep_quoted hwhite hquote hbody, hT, takeAll_append] at hm
      exact ih hreads hliterals.tail (htail fun c hc => nomatch hc) hnodup h hT' hfree hm
    | escaped c =>
      have hrest : Reads items [] := hreads
      obtain ⟨T', hnext, hresult, hmatch⟩ := escape_step hwhite h hs 0 fields hm
      exact extra_backslash hwhite hx hrest hliterals.tail hnext hresult 0 fields hmatch

end Escape

theorem tokens_nodup (h : CompleteFormat items) : (tokens items).Nodup :=
  h.complete.nodup_iff.mpr (by decide)

theorem two_le_length_spell (h : CompleteFormat items) : 2 ≤ (spell items).length := by
  have hyear : Token.year ∈ tokens items := h.complete.mem_iff.mpr (by decide)
  obtain ⟨item, hitem, hget⟩ := List.mem_filterMap.mp hyear
  have hspelling : item.spelling = Token.year.spelling := by
    cases item with
    | token t =>
      rw [Item.token?, Option.some.injEq] at hget
      rw [hget, Item.spelling]
    | _ => cases hget
  have hle : item.spelling.length ≤ (spell items).length := by
    rw [spell, List.length_flatMap]
    exact List.single_le_sum (fun _ _ => Nat.zero_le _) _ (List.mem_map_of_mem hitem)
  rw [hspelling] at hle
  exact le_trans (by decide) hle

theorem spell_ne_nil (h : CompleteFormat items) : spell items ≠ [] := by
  have hlen := two_le_length_spell h
  intro hnil
  grind

theorem expandFormat_spell (h : CompleteFormat items)
    (info : DateTimeFormatInfo) : expandFormat (spell items) info = pure (spell items) := by
  have hlen := two_le_length_spell h
  rcases hspell : spell items with _ | ⟨c, _ | ⟨d, rest⟩⟩
  · rfl
  · rw [hspell] at hlen
    simp at hlen
  · rfl

theorem exactPattern_spell (h : CompleteFormat items) :
    exactPattern (spell items) = some (spell items) := by
  have hlen := two_le_length_spell h
  rcases hspell : spell items with _ | ⟨c, _ | ⟨d, rest⟩⟩
  · rfl
  · rw [hspell] at hlen
    simp at hlen
  · have hstandard : expandStandardDateTimeFormat (c :: d :: rest) = [] := by
      unfold expandStandardDateTimeFormat
      split <;> simp_all
    rw [exactPattern, hstandard]
    rfl

variable {x : DateTime}

theorem toString_eq_pure (h : CompleteFormat items) : x.toString (spell items) none = pure text ↔
      ∃ s, formatAll x (DateTimeFormatInfo.getInstance none) ⟨spell items ++ [], []⟩ = pure s ∧
        s.result = text := by
  simp [DateTime.toString, expandFormat_spell h, formatCustom_eq, Run.map_eq_pure]

theorem roundTrips_of_not_hasEscape (h : CompleteFormat items)
    (hescape : ¬ HasEscape items) (hx : x.ticks ≤ maxTicks)
    (hkind : x.getKindProperty = DateTimeKind.unspecified) : RoundTrips items x := by
  have hreads := reads_of_separated h.literals h.separated
  have hformat : formatAll x (DateTimeFormatInfo.getInstance none) ⟨spell items ++ [], []⟩ = _ :=
    formatAll_reads hx hreads hescape []
  rw [formatAll_nil, List.nil_append] at hformat
  have hmatch := matchAll_reads (Or.inl (rfl : (exactOptions none .none).allowInnerWhite = false)) hx hreads
    hescape [] (tokens_nodup h)
    (fun t _ => by cases t <;> rfl : ∀ t ∈ tokens items, t.get {} = t.unbound)
  rw [List.append_nil, List.append_nil, matchAll_nil] at hmatch
  have hfields : matchExactFormat (render x items) (spell items) .dateAndTime {}
      (exactOptions none .none) = some (bindAll x (tokens items) {}) := by
    rw [matchExactFormat_eq (spell_ne_nil h) (Or.inl rfl) (Or.inl rfl), hmatch]
    rfl
  have hall : ∀ t : Token, t ∈ tokens items := fun t =>
    h.complete.mem_iff.mpr (by cases t <;> decide)
  have hself : packed x.ticks 0 = x := by
    have hbits : x.kindBits = 0 := by
      have hmin := (getKindProperty_eq x (Nat.zero_le 2)).mp hkind
      omega
    rw [← hbits]
    exact (eq_packed x).symm
  refine ⟨render x items, (toString_eq_pure h).mpr ⟨_, hformat, rfl⟩, fun result zone => ?_⟩
  have hcore := parseExactCore_of_states plainStyles_none (exactPattern_spell h) hx
    (states_bindAll hall) (bindAll_default x (tokens items)).2.2.1 hfields zone
  rw [tryParseExact_of_core plainStyles_none hcore, hself]
  rfl

theorem not_roundTrips_of_hasEscape (h : CompleteFormat items)
    (hescape : HasEscape items) (hx : x.ticks ≤ maxTicks) : ¬ RoundTrips items x := by
  have hreads := reads_of_separated h.literals h.separated
  rintro ⟨text, htext, hparse⟩
  obtain ⟨s, hs, hresult⟩ := (toString_eq_pure h).mp htext
  have hnone : matchExactFormat text (spell items) .dateAndTime {} (exactOptions none .none) =
      none := by
    rw [matchExactFormat_eq (spell_ne_nil h) (Or.inl rfl) (Or.inl rfl)]
    cases hm : matchAll .dateAndTime (exactOptions none .none) ⟨spell items, text, {}⟩ with
    | none => rfl
    | some m =>
      rw [← List.append_nil (spell items)] at hm
      have hleft := escape_rejected rfl hx hreads h.literals hescape (tokens_nodup h) hs
        (T := text) (by rw [hresult, List.nil_append]) (fun t _ => by cases t <;> rfl) hm
      rw [Option.bind_some, if_neg (by rw [List.isEmpty_iff]; exact hleft)]
  have hcore := parseExactCore_of_none (exactPattern_spell h) hnone none
  have hfail := hparse minValue none
  rw [tryParseExact_of_core plainStyles_none hcore] at hfail
  have hfirst := Run.pure_inj.mp (congrArg Prod.fst hfail)
  cases hfirst

/-- **Formatter and exact parser agree exactly on the formats without an escape**: over a complete
custom format, `tryParseExact` gives a value back from its text if and only if no literal of
the format is written with a backslash. -/
theorem roundTrips_iff (items : List Item) (h : CompleteFormat items) (x : DateTime)
    (hx : x.ticks ≤ maxTicks) (hkind : x.getKindProperty = DateTimeKind.unspecified) :
    RoundTrips items x ↔ ¬ HasEscape items :=
  ⟨fun hround hescape => not_roundTrips_of_hasEscape h hescape hx hround,
    fun hescape => roundTrips_of_not_hasEscape h hescape hx hkind⟩

/-- The format `fffffff' 'ss":"mm"."HH'/'MM'-'dd', 'yyyy`, in an order of its own. -/
def backwards : List Item :=
  [.token .fraction, .quoted '\'' [' '], .token .second, .quoted '"' [':'], .token .minute,
    .quoted '"' ['.'], .token .hour, .quoted '\'' ['/'], .token .month, .quoted '\'' ['-'],
    .token .day, .quoted '\'' [',', ' '], .token .year]

/-- The last tick of all, written with the seconds first. -/
theorem roundTrips_iff_backwards :
    RoundTrips backwards (packed maxTicks 0) ↔ ¬ HasEscape backwards := by
  refine roundTrips_iff backwards ⟨?_, ?_, ?_⟩ (packed maxTicks 0) (by decide) (by decide)
  · simp [backwards, Item.token?, Item.IsLiteral]
  · simp [backwards, Separated]
  · decide

def dashes : List Item :=
  [.token .year, .escaped '-', .token .month, .escaped '-', .token .day, .escaped '-', .token .hour,
    .escaped '-', .token .minute, .escaped '-', .token .second, .escaped '-', .token .fraction]

theorem completeFormat_dashes : CompleteFormat dashes := by
  refine ⟨?_, ?_, ?_⟩
  · simp [dashes, Item.token?, Item.IsLiteral]
  · simp [dashes, Separated]
  · decide

/-- Not every complete format gives every unspecified value back: `dashes` rejects the first
tick. -/
theorem not_roundTrips_dashes :
    ¬ ∀ items, CompleteFormat items → ∀ x : DateTime, x.ticks ≤ maxTicks →
      x.getKindProperty = DateTimeKind.unspecified → RoundTrips items x := by
  intro h
  have hround := h dashes completeFormat_dashes minValue (by decide) (by decide)
  exact not_roundTrips_of_hasEscape completeFormat_dashes ⟨'-', by decide⟩ (by decide) hround

end SharpRuntime.Analysis.DateTimeCustomFormat
