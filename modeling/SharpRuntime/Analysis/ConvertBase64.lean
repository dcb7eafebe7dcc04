import SharpRuntime.Analysis.Base64RoundTrip
import SharpRuntime.Model.Convert

/-!
# Base64 of `Convert`

`Convert` writes the spelling that `Base64` writes (`toBase64String_eq`).  Its decoder reads the
characters of a text four at a time, and does not look at the bits of the last letter that no byte
takes: it reads the text that has these bits cleared (`decodePacked_eq`).
-/

set_option autoImplicit false
set_option maxRecDepth 20000

namespace SharpRuntime.Analysis.ConvertBase64

open Machine Machine.Sextets
open Model Model.Convert Interface

theorem kB64Chars_eq : kB64Chars = Base64.kEncTable := by decide

/-- The text is the padded spelling of the bytes. -/
theorem toBase64String_eq (bytes : List UInt8) :
    toBase64String bytes = Codec.base64.spelling bytes := by
  fun_induction toBase64String bytes with
  | case1 => rfl
  | case2 a =>
    obtain ⟨h₀, h₁, -⟩ := Base64RoundTrip.letterAt_or Base64.kEncTable a 0 0
    simp only [UInt8.toNat_zero, Nat.zero_shiftLeft, Nat.or_zero] at h₀ h₁
    simp only [quad, kB64Chars_eq, h₀, h₁]
    rfl
  | case3 a b =>
    obtain ⟨h₀, h₁, h₂, -⟩ := Base64RoundTrip.letterAt_or Base64.kEncTable a b 0
    simp only [UInt8.toNat_zero, Nat.or_zero] at h₀ h₁ h₂
    simp only [quad, kB64Chars_eq, h₀, h₁, h₂]
    rfl
  | case4 a b c bytes ih =>
    obtain ⟨h₀, h₁, h₂, h₃⟩ := Base64RoundTrip.letterAt_or Base64.kEncTable a b c
    rw [show a :: b :: c :: bytes = [a, b, c] ++ bytes from rfl,
      Base64RoundTrip.spelling_append .base64 (by simp), ih]
    simp only [quad, kB64Chars_eq, h₀, h₁, h₂, h₃]
    rfl

theorem b64val_eq (c : UInt8) :
    b64val c = match base64Dialect.value c with
      | some v => pure (v : ℕ)
      | none => Run.throwing (.format "Invalid Base64 character.") := by
  revert c
  decide

variable {c : UInt8} {v : Fin 64}

theorem b64val_of_value (h : base64Dialect.value c = some v) : b64val c = pure (v : ℕ) := by
  rw [b64val_eq, h]

theorem b64val_of_not (h : base64Dialect.value c = none) :
    b64val c = Run.throwing (.format "Invalid Base64 character.") := by
  rw [b64val_eq, h]

variable (t : List UInt8)

theorem pack_eq : pack t = base64Dialect.marks t := rfl

attribute [local instance] neZero_sextet in
def clearSpare (spare : ℕ) (c : UInt8) : UInt8 :=
  match base64Dialect.value c with
  | some v => base64Dialect.letter (Fin.ofNat 64 (v / spare * spare))
  | none => c

variable {spare : ℕ}

theorem clearSpare_letter (h : (v : ℕ) % spare = 0) :
    clearSpare spare (base64Dialect.letter v) = base64Dialect.letter v := by
  simp [clearSpare, base64Dialect.value_letter, Nat.div_mul_cancel (Nat.dvd_of_mod_eq_zero h)]

theorem letter_ne_pad (v : Fin 64) : base64Dialect.letter v ≠ '='.toUInt8 := by
  intro h
  have hvalue := base64Dialect.value_letter v
  rw [h] at hvalue
  exact absurd hvalue (by rw [base64Dialect.value_of_isPad (by rfl)]; exact Option.some_ne_none v ∘ Eq.symm)

theorem contains_letters (sexts : List (Fin 64)) :
    (base64Dialect.letters sexts).contains '='.toUInt8 = false := by
  rw [List.contains_eq_mem, decide_eq_false_iff_not]
  intro hmem
  obtain ⟨v, -, hv⟩ := List.mem_map.mp hmem
  exact letter_ne_pad v hv

/-- A text without white space whose last letter has no bits that no byte takes. -/
def clearTail (packed : List UInt8) : List UInt8 :=
  match packed.reverse with
  | x :: y :: z :: rest =>
    if x = '='.toUInt8 then
      if y = '='.toUInt8 then rest.reverse ++ [clearSpare 16 z, y, x]
      else rest.reverse ++ [z, clearSpare 4 y, x]
    else packed
  | _ => packed

variable {s : List UInt8}

theorem clearTail_append (q : List UInt8) (hs : 3 ≤ s.length) :
    clearTail (q ++ s) = q ++ clearTail s := by
  rcases hrev : s.reverse with _ | ⟨x, _ | ⟨y, _ | ⟨z, rest⟩⟩⟩
  · have hlength := congrArg List.length hrev
    grind
  · have hlength := congrArg List.length hrev
    grind
  · have hlength := congrArg List.length hrev
    grind
  · grind [clearTail]

theorem length_clearTail (s : List UInt8) : (clearTail s).length = s.length := by
  rcases hrev : s.reverse with _ | ⟨x, _ | ⟨y, _ | ⟨z, rest⟩⟩⟩
  all_goals
    have hlength := congrArg List.length hrev
    simp only [List.length_reverse, List.length_cons, List.length_nil] at hlength
    simp only [clearTail, hrev]
  split
  · split <;> simp [hlength]
  · rfl

theorem clearTail_quad (a b c d : UInt8) :
    clearTail [a, b, c, d] =
      if d = '='.toUInt8 then
        if c = '='.toUInt8 then [a, clearSpare 16 b, c, d] else [a, b, clearSpare 4 c, d]
      else [a, b, c, d] := rfl

theorem clearTail_spelling (bytes : List UInt8) :
    clearTail (Codec.base64.spelling bytes) = Codec.base64.spelling bytes := by
  fun_induction sextets bytes with
  | case1 => rfl
  | case2 a =>
    have hspelling : Codec.base64.spelling [a] = [base64Dialect.letter (sextet₀ a),
      base64Dialect.letter (sextet₁ a 0), '='.toUInt8, '='.toUInt8] := rfl
    rw [hspelling, clearTail_quad, if_pos rfl, if_pos rfl, clearSpare_letter (sextet₁_spare a)]
  | case3 a b =>
    have hspelling : Codec.base64.spelling [a, b] = [base64Dialect.letter (sextet₀ a),
      base64Dialect.letter (sextet₁ a b), base64Dialect.letter (sextet₂ b 0), '='.toUInt8] := rfl
    rw [hspelling, clearTail_quad, if_pos rfl, if_neg (letter_ne_pad _),
      clearSpare_letter (sextet₂_spare b)]
  | case4 a b c bytes ih =>
    have hsplit := Base64RoundTrip.spelling_append .base64 (q := [a, b, c]) (by simp) bytes
    rw [List.cons_append, List.cons_append, List.cons_append, List.nil_append] at hsplit
    rw [hsplit]
    by_cases hbytes : bytes = []
    · rw [hbytes]
      exact if_neg (letter_ne_pad (sextet₃ c))
    · have hpos := List.length_pos_iff.mpr hbytes
      rw [clearTail_append _ (by rw [Base64RoundTrip.length_spelling_base64]; omega), ih]

variable {a b d : UInt8}

variable {x y z w : Fin 64}

theorem content_quad (ha : base64Dialect.value a = some x)
    (hb : base64Dialect.value b = some y) (hc : base64Dialect.value c = some z)
    (hd : base64Dialect.value d = some w) (s : List UInt8) :
    base64Dialect.content (a :: b :: c :: d :: s) =
      (base64Dialect.content s).map ([octet₀ x y, octet₁ y z, octet₂ z w] ++ ·) := by
  have h := base64Dialect.content_append (q := [octet₀ x y, octet₁ y z, octet₂ z w]) (by simp) s
  have hletters : base64Dialect.letters (sextets [octet₀ x y, octet₁ y z, octet₂ z w]) =
      [a, b, c, d] := by
    grind [sextets, sextet₀_octet, sextet₁_octet, sextet₂_octet, sextet₃_octet, Dialect.letters,
      base64Dialect.letter_of_value]
  rw [hletters] at h
  exact h

theorem content_eq_none (h : base64Dialect.value a = none ∨
      base64Dialect.value b = none ∨ base64Dialect.value c = none ∨ base64Dialect.value d = none)
      (hs : s ≠ []) :
    base64Dialect.content (a :: b :: c :: d :: s) = none := by
  by_contra hsome
  obtain ⟨bytes, hbytes⟩ := Option.ne_none_iff_exists'.mp hsome
  obtain ⟨pads, hpadded, htext⟩ := base64Dialect.content_eq_some.mp hbytes
  rw [Base64RoundTrip.padded_base64, Bool.and_eq_true, beq_iff_eq, vacant] at hpadded
  have hlength := congrArg List.length htext
  simp only [List.length_append, Dialect.length_letters, List.length_cons] at hlength
  have hpos := List.length_pos_iff.mpr hs
  obtain ⟨x, y, z, w, sexts, hsexts⟩ : ∃ x y z w sexts, sextets bytes = x :: y :: z :: w :: sexts := by
    rcases hsexts : sextets bytes with _ | ⟨x, _ | ⟨y, _ | ⟨z, _ | ⟨w, sexts⟩⟩⟩⟩
    case cons.cons.cons.cons => exact ⟨x, y, z, w, sexts, rfl⟩
    all_goals grind
  rw [hsexts] at htext
  obtain ⟨rfl, rfl, rfl, rfl, -⟩ := htext
  simp only [base64Dialect.value_letter, reduceCtorEq, or_false] at h

variable {bytes : List UInt8}

theorem letters_of_content (h : base64Dialect.content [a, b, c, d] = some bytes) :
    base64Dialect.value a ≠ none ∧ base64Dialect.value b ≠ none ∧
      (base64Dialect.value c = none → c = '='.toUInt8 ∧ d = '='.toUInt8) ∧
      (base64Dialect.value d = none → d = '='.toUInt8) := by
  obtain ⟨pads, hpadded, htext⟩ := base64Dialect.content_eq_some.mp h
  rw [Base64RoundTrip.padded_base64, Bool.and_eq_true, beq_iff_eq, vacant] at hpadded
  have hlength := congrArg List.length htext
  have hsextets := length_sextets bytes
  simp only [List.length_append, Dialect.length_letters, List.length_cons, List.length_nil] at hlength
  rcases hsexts : sextets bytes with _ | ⟨x, _ | ⟨y, _ | ⟨z, _ | ⟨w, sexts⟩⟩⟩⟩
  · grind
  · grind
  · grind [Dialect.letters, base64Dialect.value_letter]
  · grind [Dialect.letters, base64Dialect.value_letter]
  · grind [Dialect.letters, base64Dialect.value_letter]

theorem content_one_pad (x y z : Fin 64) :
    base64Dialect.content [base64Dialect.letter x, base64Dialect.letter y, base64Dialect.letter z,
      '='.toUInt8] = octets [x, y, z] := by
  have hhead : base64Dialect.NoLetterHead ['='.toUInt8] := by
    rintro c ⟨⟩
    exact base64Dialect.value_of_isPad rfl
  exact base64Dialect.content_letters [x, y, z] hhead

theorem content_two_pads (x y : Fin 64) :
    base64Dialect.content [base64Dialect.letter x, base64Dialect.letter y, '='.toUInt8,
      '='.toUInt8] = octets [x, y] := by
  have hhead : base64Dialect.NoLetterHead ['='.toUInt8, '='.toUInt8] := by
    rintro c ⟨⟩
    exact base64Dialect.value_of_isPad rfl
  exact base64Dialect.content_letters [x, y] hhead

variable {padding : ℕ}

variable {fuel : ℕ}

theorem countPadding_append (q s : List UInt8) (h : padding + fuel ≤ s.length) :
    countPadding (q ++ s) fuel padding = countPadding s fuel padding := by
  induction fuel generalizing padding with
  | zero => rfl
  | succ fuel ih =>
    grind [countPadding]

theorem countPadding_le (s : List UInt8) (h : padding ≤ s.length) :
    countPadding s fuel padding ≤ s.length := by
  induction fuel generalizing padding with
  | zero => exact h
  | succ fuel ih =>
    rw [countPadding]
    split
    · exact ih (by omega)
    · exact h

/-- The rest of a text is decoded if no `=` stands before its padding. -/
def decodeRest (s out : List UInt8) : Run Exception (List UInt8) :=
  if (s.take (s.length - countPadding s 2 0)).contains '='.toUInt8 then
    Run.throwing (.format "Invalid Base64 character.")
  else decodeQuads (countPadding s 2 0) s out

/-- What decoding ends with when the text stands for `content`. -/
def ending (content : Option (List UInt8)) (out : List UInt8) : Run Exception (List UInt8) :=
  match content with
  | some bytes => pure (out ++ bytes)
  | none => Run.throwing (.format "Invalid Base64 character.")

theorem decodeQuads_letters
    (ha : base64Dialect.value a = some x) (hb : base64Dialect.value b = some y)
    (hc : base64Dialect.value c = some z) (hd : base64Dialect.value d = some w)
    (hpad : s.isEmpty = true → padding = 0) (out : List UInt8) :
    decodeQuads padding (a :: b :: c :: d :: s) out =
      decodeQuads padding s (out ++ [octet₀ x y, octet₁ y z, octet₂ z w]) := by
  have htwo : (s.isEmpty && padding == 2) = false := by
    cases h : s.isEmpty with
    | false => rfl
    | true => rw [hpad h]; rfl
  have hone : (s.isEmpty && padding == 1) = false := by
    cases h : s.isEmpty with
    | false => rfl
    | true => rw [hpad h]; rfl
  simp only [decodeQuads, htwo, hone, Bool.or_self, b64valUnless, Bool.false_eq_true, if_false,
    b64val_of_value ha, b64val_of_value hb, b64val_of_value hc, b64val_of_value hd, pure_bind,
    ofNat_or_octet₀, ofNat_or_octet₁, ofNat_or_octet₂, List.append_assoc, List.cons_append,
    List.nil_append]

def Rejected {α : Type} (x : Run Exception α) : Prop :=
  x = Run.throwing (.format "Invalid Base64 character.")

theorem Rejected.bind {α β : Type} {x : Run Exception α} {f : α → Run Exception β} (h : Rejected x) :
    Rejected (x >>= f) := by
  rw [Rejected, show x = _ from h, Run.throwing_bind]

theorem Rejected.after {pad : Bool} {β : Type} {f : ℕ → Run Exception β}
    (h : ∀ v, Rejected (f v)) : Rejected (b64valUnless pad c >>= f) := by
  cases pad with
  | true => exact h 0
  | false =>
    cases hvalue : base64Dialect.value c with
    | none =>
      exact Rejected.bind (b64val_of_not hvalue)
    | some v =>
      simp [b64valUnless, b64val_of_value hvalue, h v]

theorem decodeQuads_throws (h : base64Dialect.value a = none ∨ base64Dialect.value b = none ∨
      ((s.isEmpty && padding == 2) = false ∧ base64Dialect.value c = none) ∨
      ((s.isEmpty && padding == 2 || s.isEmpty && padding == 1) = false ∧
        base64Dialect.value d = none)) (out : List UInt8) :
    Rejected (decodeQuads padding (a :: b :: c :: d :: s) out) := by
  have hread : ∀ c, b64val c = b64valUnless false c := fun c => rfl
  rw [decodeQuads, hread a, hread b]
  rcases h with ha | hb | ⟨htwo, hc⟩ | ⟨hpads, hd⟩
  · exact Rejected.bind (b64val_of_not ha)
  · exact Rejected.after fun _ => Rejected.bind (b64val_of_not hb)
  · rw [htwo]
    exact Rejected.after fun _ => Rejected.after fun _ => Rejected.bind (b64val_of_not hc)
  · rw [hpads]
    exact Rejected.after fun _ => Rejected.after fun _ => Rejected.after fun _ =>
      Rejected.bind (b64val_of_not hd)

theorem clearSpare_of_value (h : base64Dialect.value c = some v) :
    clearSpare spare c = base64Dialect.letter (Fin.ofNat 64 (v / spare * spare)) := by
  rw [clearSpare, h]

theorem clearSpare_of_not (h : base64Dialect.value c = none) : clearSpare spare c = c := by
  rw [clearSpare, h]

theorem decodeRest_noPad (hd : d ≠ '='.toUInt8) (out : List UInt8) :
    decodeRest [a, b, c, d] out = ending (base64Dialect.content [a, b, c, d]) out := by
  have hpadding : countPadding [a, b, c, d] 2 0 = 0 := if_neg fun h => hd h.2
  rw [decodeRest, hpadding]
  by_cases hletters : base64Dialect.value a = none ∨ base64Dialect.value b = none ∨
      base64Dialect.value c = none ∨ base64Dialect.value d = none
  · have hnone : base64Dialect.content [a, b, c, d] = none := by
      by_contra hsome
      obtain ⟨bytes, hbytes⟩ := Option.ne_none_iff_exists'.mp hsome
      obtain ⟨ha', hb', hc', hd'⟩ := letters_of_content hbytes
      rcases hletters with ha | hb | hc | hd''
      · exact ha' ha
      · exact hb' hb
      · exact hd (hc' hc).2
      · exact hd (hd' hd'')
    rw [hnone]
    split
    · rfl
    · exact decodeQuads_throws (by simpa using hletters) out
  · simp only [not_or, ← ne_eq, Option.ne_none_iff_exists'] at hletters
    obtain ⟨⟨x, ha⟩, ⟨y, hb⟩, ⟨z, hc⟩, w, hd⟩ := hletters
    have hcontains : ¬ ([a, b, c, d].take ([a, b, c, d].length - 0)).contains '='.toUInt8 = true := by
      rw [← base64Dialect.letter_of_value ha, ← base64Dialect.letter_of_value hb,
        ← base64Dialect.letter_of_value hc, ← base64Dialect.letter_of_value hd]
      exact Bool.eq_false_iff.mp (contains_letters [x, y, z, w])
    rw [if_neg hcontains, decodeQuads_letters ha hb hc hd (fun _ => rfl),
      content_quad ha hb hc hd, base64Dialect.content_nil]
    rfl

theorem decodeRest_onePad (hc : c ≠ '='.toUInt8) (out : List UInt8) :
    decodeRest [a, b, c, '='.toUInt8] out =
      ending (base64Dialect.content [a, b, clearSpare 4 c, '='.toUInt8]) out := by
  have hpadding : countPadding [a, b, c, '='.toUInt8] 2 0 = 1 := by
    simp [countPadding, hc]
  rw [decodeRest, hpadding]
  by_cases hletters : base64Dialect.value a = none ∨ base64Dialect.value b = none ∨
      base64Dialect.value c = none
  · have hnone : base64Dialect.content [a, b, clearSpare 4 c, '='.toUInt8] = none := by
      by_contra hsome
      obtain ⟨bytes, hbytes⟩ := Option.ne_none_iff_exists'.mp hsome
      obtain ⟨ha', hb', hc', -⟩ := letters_of_content hbytes
      rcases hletters with ha | hb | hnot
      · exact ha' ha
      · exact hb' hb
      · rw [clearSpare_of_not hnot] at hc'
        exact hc (hc' hnot).1
    rw [hnone]
    split
    · rfl
    · refine decodeQuads_throws ?_ out
      rcases hletters with ha | hb | hnot
      · exact Or.inl ha
      · exact Or.inr (Or.inl hb)
      · exact Or.inr (Or.inr (Or.inl ⟨rfl, hnot⟩))
  · simp only [not_or, ← ne_eq, Option.ne_none_iff_exists'] at hletters
    obtain ⟨⟨x, ha⟩, ⟨y, hb⟩, z, hz⟩ := hletters
    have hcontains : ¬ ([a, b, c, '='.toUInt8].take ([a, b, c, '='.toUInt8].length - 1)).contains
        '='.toUInt8 = true := by
      rw [← base64Dialect.letter_of_value ha, ← base64Dialect.letter_of_value hb,
        ← base64Dialect.letter_of_value hz]
      exact Bool.eq_false_iff.mp (contains_letters [x, y, z])
    have hspare : ((Fin.ofNat 64 (z / 4 * 4) : Fin 64) : ℕ) = z / 4 * 4 := by
      rw [Fin.val_ofNat]
      omega
    have hoctets : octets [x, y, Fin.ofNat 64 (z / 4 * 4)] = some [octet₀ x y, octet₁ y z] := by
      rw [octets, hspare, if_pos (by omega), octet₁, octet₁, hspare, Nat.mul_div_cancel _ (by decide)]
    rw [if_neg hcontains, clearSpare_of_value hz, ← base64Dialect.letter_of_value ha,
      ← base64Dialect.letter_of_value hb, content_one_pad, hoctets, base64Dialect.letter_of_value ha,
      base64Dialect.letter_of_value hb]
    simp only [decodeQuads, List.isEmpty_nil, Bool.true_and, Nat.reduceBEq, beq_self_eq_true,
      Bool.false_or, b64valUnless, Bool.false_eq_true, if_false, if_true, b64val_of_value ha,
      b64val_of_value hb, b64val_of_value hz, pure_bind, ofNat_or_octet₀, ofNat_or_octet₁,
      List.append_assoc, List.cons_append, List.nil_append, ending]

theorem decodeRest_twoPads (a b : UInt8) (out : List UInt8) :
    decodeRest [a, b, '='.toUInt8, '='.toUInt8] out =
      ending (base64Dialect.content [a, clearSpare 16 b, '='.toUInt8, '='.toUInt8]) out := by
  have hpadding : countPadding [a, b, '='.toUInt8, '='.toUInt8] 2 0 = 2 := by
    simp [countPadding]
  rw [decodeRest, hpadding]
  by_cases hletters : base64Dialect.value a = none ∨ base64Dialect.value b = none
  · have hnone : base64Dialect.content [a, clearSpare 16 b, '='.toUInt8, '='.toUInt8] = none := by
      by_contra hsome
      obtain ⟨bytes, hbytes⟩ := Option.ne_none_iff_exists'.mp hsome
      obtain ⟨ha', hb', -, -⟩ := letters_of_content hbytes
      rcases hletters with ha | hnot
      · exact ha' ha
      · rw [clearSpare_of_not hnot] at hb'
        exact hb' hnot
    rw [hnone]
    split
    · rfl
    · refine decodeQuads_throws ?_ out
      rcases hletters with ha | hb
      · exact Or.inl ha
      · exact Or.inr (Or.inl hb)
  · simp only [not_or, ← ne_eq, Option.ne_none_iff_exists'] at hletters
    obtain ⟨⟨x, ha⟩, y, hy⟩ := hletters
    have hcontains : ¬ ([a, b, '='.toUInt8, '='.toUInt8].take
        ([a, b, '='.toUInt8, '='.toUInt8].length - 2)).contains '='.toUInt8 = true := by
      rw [← base64Dialect.letter_of_value ha, ← base64Dialect.letter_of_value hy]
      exact Bool.eq_false_iff.mp (contains_letters [x, y])
    have hoctets : octets [x, Fin.ofNat 64 (y / 16 * 16)] = some [octet₀ x y] := by
      grind [octets, octet₀]
    rw [if_neg hcontains, clearSpare_of_value hy, ← base64Dialect.letter_of_value ha,
      content_two_pads, hoctets, base64Dialect.letter_of_value ha]
    simp only [decodeQuads, List.isEmpty_nil, Bool.true_and, Nat.reduceBEq, beq_self_eq_true,
      Bool.true_or, b64valUnless, if_true, b64val_of_value ha, b64val_of_value hy, pure_bind,
      ofNat_or_octet₀, List.append_nil, ending]

theorem decodeRest_last (a b c d : UInt8) (out : List UInt8) :
    decodeRest [a, b, c, d] out = ending (base64Dialect.content (clearTail [a, b, c, d])) out := by
  rw [clearTail_quad]
  split
  case isTrue hd => grind [decodeRest_twoPads, decodeRest_onePad]
  case isFalse hd => exact decodeRest_noPad hd out

theorem decodeRest_quad (a b c d : UInt8) (hs : 4 ≤ s.length) (out : List UInt8)
    (ih : ∀ out, decodeRest s out = ending (base64Dialect.content (clearTail s)) out) :
    decodeRest (a :: b :: c :: d :: s) out =
      ending (base64Dialect.content (clearTail (a :: b :: c :: d :: s))) out := by
  have hpadding : countPadding (a :: b :: c :: d :: s) 2 0 = countPadding s 2 0 :=
    countPadding_append [a, b, c, d] s (by omega)
  have hle : countPadding s 2 0 ≤ s.length := countPadding_le s (Nat.zero_le s.length)
  have hclear : clearTail (a :: b :: c :: d :: s) = a :: b :: c :: d :: clearTail s :=
    clearTail_append [a, b, c, d] (by omega)
  have htake : (a :: b :: c :: d :: s).take ((a :: b :: c :: d :: s).length - countPadding s 2 0) =
      [a, b, c, d] ++ s.take (s.length - countPadding s 2 0) := by
    have hlength : (a :: b :: c :: d :: s).length - countPadding s 2 0 =
        [a, b, c, d].length + (s.length - countPadding s 2 0) := by
      simp
      omega
    rw [hlength, show a :: b :: c :: d :: s = [a, b, c, d] ++ s from rfl, List.take_length_add_append]
  have hne : s.isEmpty = false := by
    cases s with
    | nil => simp at hs
    | cons e s => rfl
  by_cases hletters : base64Dialect.value a = none ∨ base64Dialect.value b = none ∨
      base64Dialect.value c = none ∨ base64Dialect.value d = none
  · have hnone : base64Dialect.content (a :: b :: c :: d :: clearTail s) = none :=
      content_eq_none hletters
        (List.ne_nil_of_length_pos (by rw [length_clearTail]; omega))
    rw [hclear, hnone, decodeRest]
    split
    · rfl
    · refine decodeQuads_throws ?_ out
      grind
  · simp only [not_or, ← ne_eq, Option.ne_none_iff_exists'] at hletters
    obtain ⟨⟨x, ha⟩, ⟨y, hb⟩, ⟨z, hc⟩, w, hd⟩ := hletters
    have hstep : decodeRest (a :: b :: c :: d :: s) out =
        decodeRest s (out ++ [octet₀ x y, octet₁ y z, octet₂ z w]) := by
      have hcontains : ([a, b, c, d] ++ s.take (s.length - countPadding s 2 0)).contains
          '='.toUInt8 = (s.take (s.length - countPadding s 2 0)).contains '='.toUInt8 := by
        have hquad := contains_letters [x, y, z, w]
        simp only [Dialect.letters, List.map_cons, List.map_nil, base64Dialect.letter_of_value ha,
          base64Dialect.letter_of_value hb, base64Dialect.letter_of_value hc,
          base64Dialect.letter_of_value hd] at hquad
        rw [List.contains_append, hquad, Bool.false_or]
      rw [decodeRest, hpadding, htake, hcontains, decodeRest,
        decodeQuads_letters ha hb hc hd (fun h => absurd h (by rw [hne]; exact Bool.false_ne_true))]
    rw [hstep, ih, hclear, content_quad ha hb hc hd]
    cases base64Dialect.content (clearTail s) with
    | none => rfl
    | some bytes => simp only [ending, Option.map_some, List.append_assoc]

theorem decodeRest_eq (s out : List UInt8) (h : s.length % 4 = 0) (hs : s ≠ []) :
    decodeRest s out = ending (base64Dialect.content (clearTail s)) out := by
  match s with
  | [] => exact absurd rfl hs
  | [_] | [_, _] | [_, _, _] => simp at h
  | [a, b, c, d] => exact decodeRest_last a b c d out
  | a :: b :: c :: d :: e :: s =>
    have hrest : (e :: s).length % 4 = 0 := by grind
    have hfour : 4 ≤ (e :: s).length := by grind
    exact decodeRest_quad a b c d hfour out
      fun out => decodeRest_eq (e :: s) out hrest (List.cons_ne_nil _ _)
termination_by s.length

/-- Whole quanta are decoded as the dialect says, whatever the unused bits of the last one are. -/
theorem decodePacked_eq {packed : List UInt8} (h : packed.length % 4 = 0) :
    decodePacked packed = ending (base64Dialect.content (clearTail packed)) [] := by
  by_cases hs : packed = []
  · rw [hs]
    rfl
  · exact decodeRest_eq packed [] h hs

theorem fromBase64String_eq_pure (bytes : List UInt8) : fromBase64String t = pure bytes ↔
      base64Dialect.content (clearTail (pack t)) = some bytes := by
  rw [fromBase64String]
  by_cases hlength : (pack t).length % 4 = 0
  · simp only [hlength, ne_eq, not_true_eq_false, if_false]
    rw [decodePacked_eq hlength]
    cases base64Dialect.content (clearTail (pack t)) with
    | none => simp [ending, Run.ext_iff]
    | some bytes' => rw [ending, List.nil_append, Run.pure_inj, Option.some_inj]
  · simp only [ne_eq, hlength, not_false_eq_true, if_true]
    constructor
    · intro h
      cases congrArg Run.outcome h
    · intro h
      have hmod := base64Dialect.length_mod_of_spells rfl (base64Dialect.content_eq_some.mp h)
      rw [length_clearTail] at hmod
      exact absurd hmod hlength

theorem fromBase64String_throws : (∃ bytes, fromBase64String t = pure bytes) ∨
      ∃ message, fromBase64String t = Run.throwing (.format message) := by
  rw [fromBase64String]
  by_cases hlength : (pack t).length % 4 = 0
  · simp only [hlength, ne_eq, not_true_eq_false, if_false]
    rw [decodePacked_eq hlength]
    cases base64Dialect.content (clearTail (pack t)) with
    | none => exact Or.inr ⟨_, rfl⟩
    | some bytes => exact Or.inl ⟨_, rfl⟩
  · simp only [ne_eq, hlength, not_false_eq_true, if_true]
    exact Or.inr ⟨_, rfl⟩

variable {t : List UInt8}

theorem decodeCore_eq_done {n : ℕ} (hn : t.length ≤ n) :
    Base64.decodeCore t n true = ⟨.done, t.length, bytes.length, bytes⟩ ↔
      base64Dialect.content (pack t) = some bytes := by
  have hdecoded := Base64RoundTrip.decoded .base64 t n true
  constructor
  · intro h
    have hcontent := Base64RoundTrip.content_of_done hdecoded (congrArg Transfer.status h)
    rw [show Codec.base64.decode t n true = _ from h] at hcontent
    exact hcontent
  · intro h
    have hlength := base64Dialect.length_le_of_spells (base64Dialect.content_eq_some.mp h)
    have hmarks := base64Dialect.length_marks_le t
    rw [← pack_eq] at hmarks
    exact Base64RoundTrip.eq_of_content hdecoded h (by omega)

theorem clearTail_of_content
    (h : base64Dialect.content (pack t) = some bytes) : clearTail (pack t) = pack t := by
  have hspelling : pack t = Codec.base64.spelling bytes := Base64RoundTrip.bare_of_content .base64 h
  rw [hspelling]
  exact clearTail_spelling bytes

theorem mem_clearTail {e : UInt8} (h : e ∈ clearTail s) :
    ∃ c ∈ s, e = c ∨ ∃ spare, e = clearSpare spare c := by
  have hkeep : e ∈ s → ∃ c ∈ s, e = c ∨ ∃ spare, e = clearSpare spare c :=
    fun he => ⟨e, he, Or.inl rfl⟩
  unfold clearTail at h
  split at h
  case h_1 x y z rest hrev =>
    have hmem : ∀ c, c ∈ s ↔ c ∈ x :: y :: z :: rest := by
      intro c
      rw [← hrev, List.mem_reverse]
    split at h
    · split at h
      · grind
      · grind
    · exact hkeep h
  case h_2 => exact hkeep h

theorem pack_clearTail : pack (clearTail (pack t)) = clearTail (pack t) := by
  rw [pack_eq, pack_eq, Dialect.marks, List.filter_eq_self]
  intro e he
  obtain ⟨c, hc, heq⟩ := mem_clearTail he
  have hblank := (List.mem_filter.mp hc).2
  rcases heq with rfl | ⟨spare, rfl⟩
  · exact hblank
  · cases hvalue : base64Dialect.value c with
    | none => rwa [clearSpare_of_not hvalue]
    | some v =>
      rw [clearSpare_of_value hvalue,
        base64Dialect.not_isBlank_of_value (base64Dialect.value_letter _), Bool.not_false]

/-- **`Convert` and `Base64` write the same text, and `Convert` reads the texts that `Base64` reads
once the unused bits of their last letter are cleared.** -/
theorem base64_agrees (t : List UInt8) {n : ℕ} (hn : t.length ≤ n) :
    (∀ (bytes : List UInt8) (dstLen : ℕ), (toBase64String bytes).length ≤ dstLen →
      Base64.encodeCore bytes dstLen true =
        ⟨.done, bytes.length, (toBase64String bytes).length, toBase64String bytes⟩) ∧
    (∀ bytes : List UInt8, fromBase64String t = pure bytes ↔
      Base64.decodeCore (clearTail (pack t)) n true =
        ⟨.done, (clearTail (pack t)).length, bytes.length, bytes⟩) ∧
    (∀ bytes : List UInt8, Base64.decodeCore t n true = ⟨.done, t.length, bytes.length, bytes⟩ ↔
      fromBase64String t = pure bytes ∧ clearTail (pack t) = pack t) ∧
    ((∃ bytes, fromBase64String t = pure bytes) ∨
      ∃ message, fromBase64String t = Run.throwing (.format message)) := by
  refine ⟨fun bytes dstLen h => ?_, fun bytes => ?_, fun bytes => ?_, fromBase64String_throws t⟩
  · rw [toBase64String_eq] at h ⊢
    exact Base64RoundTrip.encode_eq .base64 bytes h
  · have hlength : (clearTail (pack t)).length ≤ n := by
      rw [length_clearTail, pack_eq]
      exact Nat.le_trans (base64Dialect.length_marks_le t) hn
    rw [decodeCore_eq_done hlength, fromBase64String_eq_pure, pack_clearTail]
  · grind [decodeCore_eq_done, fromBase64String_eq_pure, clearTail_of_content]

/-- The theorem at the text `QQ==`. -/
theorem base64_agrees_letter :
    Base64.decodeCore [81, 81, 61, 61] 4 true = ⟨.done, 4, 1, [65]⟩ ↔
      fromBase64String [81, 81, 61, 61] = pure [65] ∧
        clearTail (pack [81, 81, 61, 61]) = pack [81, 81, 61, 61] :=
  (base64_agrees [81, 81, 61, 61] (n := 4) (by decide)).2.2.1 [65]

/-- The text `AB==` has four unused bits that are not zero: `Convert` reads it as one zero byte, and
`Base64` does not read it. -/
theorem not_base64_agrees_unused_bits :
    ¬ ∀ (t : List UInt8) (n : ℕ), t.length ≤ n →
      ((∃ bytes, fromBase64String t = pure bytes) ↔ (Base64.decodeCore t n true).status = .done) := by
  intro h
  have hread : fromBase64String [65, 66, 61, 61] = pure [0] := by decide
  have hdone := (h [65, 66, 61, 61] 4 (by decide)).mp ⟨_, hread⟩
  cases hdone

end SharpRuntime.Analysis.ConvertBase64
