import SharpRuntime.Analysis.GuidComponents

/-!
# The text of a `Guid`

What a text of each format has at its front tells the formats apart (`Marks`), and the loose parser
looks at just that, so that it reads what one of the exact parsers reads (`parse_iff`).  The text of
a `Guid` in a format is read by the parser of the format.
-/

set_option autoImplicit false
set_option maxRecDepth 20000

namespace SharpRuntime.Analysis.GuidText

open Machine
open Model Model.Guid Interface
open GuidComponents

theorem stripAsciiWhitespace_append (s t : List UInt8) :
    stripAsciiWhitespace (s ++ t) = stripAsciiWhitespace s ++ stripAsciiWhitespace t :=
  List.filter_append s t

variable {s : List UInt8}

theorem stripAsciiWhitespace_eq_nil (h : ∀ c ∈ s, isAsciiWhitespace c = true) :
    stripAsciiWhitespace s = [] := by
  refine List.filter_eq_nil_iff.mpr fun c hc => ?_
  rw [h c hc]
  exact Bool.false_ne_true

theorem stripAsciiWhitespace_trim (s : List UInt8) :
    stripAsciiWhitespace (trim s) = stripAsciiWhitespace s := by
  have hfront : stripAsciiWhitespace (s.dropWhile isAsciiWhitespace) = stripAsciiWhitespace s := by
    conv_rhs => rw [← List.takeWhile_append_dropWhile (p := isAsciiWhitespace) (l := s)]
    rw [stripAsciiWhitespace_append,
      stripAsciiWhitespace_eq_nil fun c hc => List.mem_takeWhile_imp (p := isAsciiWhitespace) hc,
      List.nil_append]
  have hback : ∀ t, stripAsciiWhitespace (t.rdropWhile isAsciiWhitespace) =
      stripAsciiWhitespace t := by
    intro t
    induction t using List.reverseRecOn with
    | nil => rfl
    | append_singleton t c ih =>
      by_cases hc : isAsciiWhitespace c = true
      · rw [List.rdropWhile_concat_pos _ _ _ hc, ih, stripAsciiWhitespace_append,
          stripAsciiWhitespace_eq_nil (s := [c]) (by simpa using hc), List.append_nil]
      · rw [List.rdropWhile_concat_neg _ _ _ hc]
  rw [trim, hback, hfront]

variable {t : List UInt8} {c : UInt8}

theorem head_trim (h : trim s = c :: t) : isAsciiWhitespace c = false := by
  obtain ⟨rest, hrest⟩ := List.rdropWhile_prefix isAsciiWhitespace (s.dropWhile isAsciiWhitespace)
  rw [← trim, h] at hrest
  have hhead := List.head?_dropWhile_not isAsciiWhitespace s
  rw [← hrest] at hhead
  simpa using hhead

variable {v : Vector UInt8 16}

theorem decodeBytes_eq_ok {idx : Fin 16 → ℕ × ℕ} : decodeBytes s idx = .ok v ↔
      ∀ k : Fin 16, decodeByte (s.getD (idx k).1 0) (s.getD (idx k).2 0) = some (v.get k) := by
  rw [decodeBytes]
  constructor
  · intro h k
    split at h
    · rename_i hall
      cases h
      obtain ⟨b, hb⟩ := Option.isSome_iff_exists.mp (hall k)
      change _ = some (Vector.ofFn _)[k]
      simp only [Fin.getElem_fin, Vector.getElem_ofFn, hb, Option.getD_some]
    · cases h
  · intro h
    dsimp only
    rw [if_pos fun k => by rw [h k]; rfl]
    refine congrArg Except.ok (Vector.ext fun i hi => ?_)
    have hi' : decodeByte _ _ = some v[i] := h ⟨i, hi⟩
    grind

theorem hex_of_decodeByte {hi lo b : UInt8} (h : decodeByte hi lo = some b) :
    (hexVal hi).isSome = true := by
  cases hhi : hexVal hi with
  | none =>
    rw [decodeByte, hhi] at h
    cases h
  | some v => rfl

/-- What the text of a format has at its front. -/
inductive Marks : GuidFormat → (t : List UInt8) → Prop where
  | n {t : List UInt8} (length : t.length = 32) (first : (hexVal (t.getD 0 0)).isSome = true)
      (ninth : (hexVal (t.getD 8 0)).isSome = true) : Marks .n t
  | d {t : List UInt8} (length : t.length = 36) (first : (hexVal (t.getD 0 0)).isSome = true)
      (ninth : t.getD 8 0 = '-'.toUInt8) : Marks .d t
  | b {t : List UInt8} (length : t.length = 38) (first : t.getD 0 0 = '{'.toUInt8)
      (tenth : t.getD 9 0 = '-'.toUInt8) : Marks .b t
  | p {t : List UInt8} (length : t.length = 38) (first : t.getD 0 0 = '('.toUInt8) : Marks .p t
  | x {t : List UInt8} (length : 32 ≤ t.length) (first : t.getD 0 0 = '{'.toUInt8)
      (tenth : t.getD 9 0 ≠ '-'.toUInt8) : Marks .x t

def guess (t : List UInt8) : GuidFormat :=
  if t.getD 0 0 = '('.toUInt8 then .p
  else if t.getD 0 0 = '{'.toUInt8 then if t.getD 9 0 = '-'.toUInt8 then .b else .x
  else if t.getD 8 0 = '-'.toUInt8 then .d
  else .n

theorem tryParseLoose_eq (s : List UInt8) :
    tryParseLoose s = if (trim s).length < 32 then .error (.format msgUnrecognized)
      else (guess (trim s)).parser (trim s) := by
  rw [tryParseLoose, guess]
  split
  · rfl
  · split
    · rfl
    · split
      · split <;> rfl
      · split <;> rfl

theorem ne_of_hex {d : UInt8} (hc : (hexVal c).isSome = true) (hd : hexVal d = none) : c ≠ d := by
  rintro rfl
  rw [hd] at hc
  cases hc

variable {f : GuidFormat}

theorem guess_of_marks (h : Marks f t) : guess t = f := by
  have hbrace : hexVal '{'.toUInt8 = none := by decide
  have hparen : hexVal '('.toUInt8 = none := by decide
  have hdash : hexVal '-'.toUInt8 = none := by decide
  rw [guess]
  cases h with
  | n length first ninth =>
    grind
  | d length first ninth =>
    rw [if_neg (ne_of_hex first hparen), if_neg (ne_of_hex first hbrace), if_pos ninth]
  | b length first tenth => rw [first, if_neg (by decide), if_pos rfl, if_pos tenth]
  | p length first => rw [if_pos first]
  | x length first tenth => rw [first, if_neg (by decide), if_pos rfl, if_neg tenth]

theorem length_of_marks (h : Marks f t) : 32 ≤ t.length := by
  cases h <;> omega

theorem marks_of_D (h : tryParseExactD t = .ok v) :
    t.length = 36 ∧ (hexVal (t.getD 0 0)).isSome = true ∧ t.getD 8 0 = '-'.toUInt8 := by
  rw [tryParseExactD] at h
  split at h
  · cases h
  · rename_i hshape
    simp only [not_or, not_not] at hshape
    exact ⟨hshape.1, hex_of_decodeByte (decodeBytes_eq_ok.mp h 0), hshape.2.1⟩

theorem marks_of_betweenBrackets {front back : UInt8} (h : betweenBrackets front back t = .ok v) :
    t.length = 38 ∧ t.getD 0 0 = front ∧ t.getD 9 0 = '-'.toUInt8 := by
  rw [betweenBrackets] at h
  split at h
  · cases h
  · rename_i hshape
    simp only [not_or, not_not] at hshape
    obtain ⟨hlength, hfront, -⟩ := hshape
    obtain ⟨-, -, hdash⟩ := marks_of_D h
    refine ⟨hlength, ?_, ?_⟩
    · rw [List.getD_eq_getElem?_getD, ← List.head?_eq_getElem?, hfront]
      rfl
    · grind

def textual (c : UInt8) : Bool :=
  (hexVal c).isSome || c == 'x'.toUInt8 || c == 'X'.toUInt8 || c == ','.toUInt8 || c == '{'.toUInt8 ||
    c == '}'.toUInt8

theorem textual_of_hex (h : (hexVal c).isSome = true) : textual c = true := by
  rw [textual, h]
  rfl

theorem textual_of_mem_component {c : GuidComponent} : ∀ d ∈ c.text, textual d = true := by
  have hmark : textual c.mark = true := by
    rcases c.mark_eq with h | h <;> rw [h] <;> decide
  simp only [GuidComponent.text, List.forall_mem_cons]
  exact ⟨by decide, hmark, fun d hd => textual_of_hex (c.isSome_hexVal d hd)⟩

theorem textual_of_mem_componentsText (cs : List GuidComponent) :
    ∀ d ∈ componentsText cs, textual d = true := by
  induction cs with
  | nil => exact fun d hd => nomatch hd
  | cons c cs ih =>
    have hcons := componentsText_cons c cs []
    rw [List.append_nil, List.append_nil] at hcons
    rw [hcons, List.forall_mem_append, List.forall_mem_cons]
    refine ⟨textual_of_mem_component, ?_, ih⟩
    split <;> decide

theorem textual_of_mem (cs : GuidComponents) : ∀ d ∈ cs.text, textual d = true := by
  simp only [GuidComponents.text, List.forall_mem_cons, List.forall_mem_append]
  exact ⟨by decide, textual_of_mem_component, by decide, textual_of_mem_component, by decide,
    textual_of_mem_component, by decide, by decide, textual_of_mem_componentsText _, by decide,
    fun d hd => nomatch hd⟩

theorem length_text (c : GuidComponent) : 3 ≤ c.text.length := by
  have hpos := List.length_pos_of_ne_nil c.ne_nil
  simp only [GuidComponent.text, List.length_cons]
  omega

theorem length_componentsText (cs : List GuidComponent) :
    4 * cs.length ≤ (componentsText cs).length := by
  induction cs with
  | nil => exact Nat.zero_le _
  | cons c cs ih =>
    have hcons := congrArg List.length (componentsText_cons c cs [])
    have hc := length_text c
    grind

theorem length_le_text (cs : GuidComponents) : 32 ≤ cs.text.length := by
  have hds := length_componentsText cs.ds
  rw [cs.length_ds] at hds
  simp only [GuidComponents.text, List.length_cons, List.length_append, List.length_nil]
  omega

theorem marks_of_read (h : f.parser (trim s) = .ok v) : Marks f (trim s) := by
  cases f with
  | n =>
    change tryParseExactN (trim s) = .ok v at h
    rw [tryParseExactN] at h
    split at h
    · cases h
    · rename_i hlength
      rw [decodeBytes_eq_ok] at h
      exact .n (not_not.mp hlength) (hex_of_decodeByte (h 0)) (hex_of_decodeByte (h 4))
  | d =>
    obtain ⟨hlength, hfirst, hninth⟩ := marks_of_D h
    exact .d hlength hfirst hninth
  | b =>
    obtain ⟨hlength, hfirst, htenth⟩ := marks_of_betweenBrackets h
    exact .b hlength hfirst htenth
  | p =>
    obtain ⟨hlength, hfirst, -⟩ := marks_of_betweenBrackets h
    exact .p hlength hfirst
  | x =>
    obtain ⟨cs, htext, -⟩ := xForm_iff.mp (tryParseExactX_iff.mp h)
    have hsub : (stripAsciiWhitespace (trim s)).Sublist (trim s) := List.filter_sublist
    have hlength := length_le_text cs
    have hle := hsub.length_le
    rw [htext] at hle
    refine .x (by omega) ?_ ?_
    · cases ht : trim s with
      | nil =>
        grind
      | cons c t =>
        have hfilter : stripAsciiWhitespace (c :: t) = c :: stripAsciiWhitespace t :=
          List.filter_cons_of_pos (by rw [head_trim ht]; rfl)
        rw [ht, hfilter] at htext
        exact (List.cons.inj htext).1
    · intro htenth
      have hlt : 9 < (trim s).length := by omega
      rw [List.getD_eq_getElem?_getD, List.getElem?_eq_getElem hlt, Option.getD_some] at htenth
      have hmem : '-'.toUInt8 ∈ stripAsciiWhitespace (trim s) :=
        List.mem_filter.mpr ⟨htenth ▸ List.getElem_mem hlt, by decide⟩
      rw [htext] at hmem
      exact absurd (textual_of_mem cs _ hmem) (by decide)

/-- **The loose parser reads what the parser of some format reads, and as that one does.** -/
theorem tryParseLoose_iff :
    tryParseLoose s = .ok v ↔ ∃ f : GuidFormat, f.parser (trim s) = .ok v := by
  rw [tryParseLoose_eq]
  constructor
  · intro h
    split at h
    · cases h
    · exact ⟨_, h⟩
  · rintro ⟨f, h⟩
    have hmarks := marks_of_read h
    have hlength := length_of_marks hmarks
    rw [if_neg (by omega), guess_of_marks hmarks, h]

theorem parser_unique {f' : GuidFormat} {v' : Vector UInt8 16}
    (h : f.parser (trim s) = .ok v) (h' : f'.parser (trim s) = .ok v') : f = f' :=
  (guess_of_marks (marks_of_read h)).symm.trans (guess_of_marks (marks_of_read h'))

def text (g : Guid) : GuidFormat → List UInt8
  | .n => g.bytes_.toList.flatMap fun byte => hexFixed byte.toNat 2
  | .d => g.dashed
  | .b => '{'.toUInt8 :: (g.dashed ++ ['}'.toUInt8])
  | .p => '('.toUInt8 :: (g.dashed ++ [')'.toUInt8])
  | .x => g.braced

variable (g : Guid) (b : UInt8)

theorem toString_letter (f : GuidFormat) (upper : Bool) :
    g.toString [f.letter upper] = pure (text g f) := by
  cases f <;> cases upper <;> rfl

theorem parseExact_letter (s : List UInt8) (f : GuidFormat) (upper : Bool) :
    parseExact s [f.letter upper] = orThrow (f.parser (trim s)) := by
  cases f <;> cases upper <;> rfl

theorem orThrow_eq_pure {r : Except GuidParseFailure (Vector UInt8 16)} {g : Guid} :
    orThrow r = pure g ↔ r = .ok g.bytes_ := by
  cases r with
  | error e => cases e <;> exact ⟨nofun, nofun⟩
  | ok bytes =>
    constructor
    · intro h
      cases h
      rfl
    · intro h
      cases h
      rfl

theorem hex_kDigits {d : ℕ} (h : d < 16) : hexVal (kDigits d) = some d := by
  interval_cases d <;> decide

variable {digits : ℕ}

variable {v : ℕ}

theorem hex_of_mem_hexFixed (h : c ∈ hexFixed v digits) : (hexVal c).isSome = true := by
  obtain ⟨d, hd, rfl⟩ := List.mem_map.mp h
  rw [hex_kDigits (Printed.lt_of_mem_fixed (by decide) hd)]
  rfl

def high (b : UInt8) : UInt8 := kDigits (b.toNat / 16 % 16)

def low (b : UInt8) : UInt8 := kDigits (b.toNat % 16)

theorem decodeByte_digits : decodeByte (high b) (low b) = some b := by
  revert b
  decide

theorem hexFixed_byte : hexFixed b.toNat 2 = [high b, low b] := rfl

theorem hexFixed_add (m : ℕ) (b : UInt8) (digits : ℕ) :
    hexFixed (m * 256 + b.toNat) (digits + 2) = hexFixed m digits ++ [high b, low b] := by
  have hlt := UInt8.toNat_lt b
  rw [hexFixed, Printed.fixed, Printed.fixed, List.map_append, List.map_append, List.append_assoc,
    show (m * 256 + b.toNat) / 16 / 16 = m by omega,
    show (m * 256 + b.toNat) / 16 % 16 = b.toNat / 16 % 16 by omega,
    show (m * 256 + b.toNat) % 16 = b.toNat % 16 by omega]
  rfl

theorem hexFixed_half (x y : UInt8) :
    hexFixed (x.toNat * 256 + y.toNat) 4 = [high x, low x, high y, low y] := by
  rw [hexFixed_add _ y 2, hexFixed_byte]
  rfl

theorem hexFixed_word (x y z w : UInt8) :
    hexFixed (((x.toNat * 256 + y.toNat) * 256 + z.toNat) * 256 + w.toNat) 8 =
      [high x, low x, high y, low y, high z, low z, high w, low w] := by
  rw [hexFixed_add _ w 6, hexFixed_add _ z 4, hexFixed_half]
  rfl

theorem dashed_eq :
    g.dashed = [high (g.bytes_.get 0), low (g.bytes_.get 0), high (g.bytes_.get 1),
      low (g.bytes_.get 1), high (g.bytes_.get 2), low (g.bytes_.get 2), high (g.bytes_.get 3),
      low (g.bytes_.get 3), '-'.toUInt8, high (g.bytes_.get 4), low (g.bytes_.get 4),
      high (g.bytes_.get 5), low (g.bytes_.get 5), '-'.toUInt8, high (g.bytes_.get 6),
      low (g.bytes_.get 6), high (g.bytes_.get 7), low (g.bytes_.get 7), '-'.toUInt8,
      high (g.bytes_.get 8), low (g.bytes_.get 8), high (g.bytes_.get 9), low (g.bytes_.get 9),
      '-'.toUInt8, high (g.bytes_.get 10), low (g.bytes_.get 10), high (g.bytes_.get 11),
      low (g.bytes_.get 11), high (g.bytes_.get 12), low (g.bytes_.get 12), high (g.bytes_.get 13),
      low (g.bytes_.get 13), high (g.bytes_.get 14), low (g.bytes_.get 14), high (g.bytes_.get 15),
      low (g.bytes_.get 15)] := by
  rw [dashed, getAProperty_eq, getBProperty_eq, getCProperty_eq, hexFixed_word, hexFixed_half,
    hexFixed_half, toList_eq]
  rfl

theorem tryParseExactD_dashed : tryParseExactD g.dashed = .ok g.bytes_ := by
  rw [dashed_eq, tryParseExactD, if_neg (by simp), decodeBytes_eq_ok]
  intro k
  fin_cases k <;> exact decodeByte_digits _

theorem tryParseExactN_text : tryParseExactN (text g .n) = .ok g.bytes_ := by
  have htext : text g .n = g.bytes_.toList.flatMap fun byte => [high byte, low byte] := rfl
  rw [htext, toList_eq, tryParseExactN, if_neg (by simp), decodeBytes_eq_ok]
  intro k
  fin_cases k <;> exact decodeByte_digits _

theorem betweenBrackets_dashed (front back : UInt8) (g : Guid) :
    betweenBrackets front back (front :: (g.dashed ++ [back])) = .ok g.bytes_ := by
  have hlength : g.dashed.length = 36 := by
    rw [dashed_eq]
    rfl
  have hlast : (front :: (g.dashed ++ [back])).getLast? = some back := by
    rw [← List.cons_append, List.getLast?_append]
    rfl
  have hbetween : ((front :: (g.dashed ++ [back])).drop 1).take 36 = g.dashed := by grind
  rw [betweenBrackets, if_neg, hbetween, tryParseExactD_dashed]
  rw [List.length_cons, List.length_append, hlength, hlast]
  simp

def component (v digits : ℕ) (h : 0 < digits ∧ digits ≤ 8) : GuidComponent where
  mark := 'x'.toUInt8
  digits := hexFixed v digits
  mark_eq := .inl rfl
  ne_nil := by
    rw [← List.length_pos_iff_ne_nil, hexFixed, List.length_map, Printed.length_fixed]
    exact h.1
  hex := hexDigit_eq ▸ fun _ hc => hex_of_mem_hexFixed hc
  significant := by
    refine le_trans (List.dropWhile_sublist _).length_le ?_
    rw [hexFixed, List.length_map, Printed.length_fixed]
    exact h.2

theorem value_component (h : 0 < digits ∧ digits ≤ 8) (hv : v < 16 ^ digits) :
    (component v digits h).value = v := by
  have hdigits : (hexFixed v digits).map (fun d => (hexVal d).getD 0) =
      Printed.fixed 16 digits v := by
    rw [hexFixed, List.map_map]
    conv_rhs => rw [← List.map_id (Printed.fixed 16 digits v)]
    refine List.map_congr_left fun d hd => ?_
    rw [Function.comp_apply, hex_kDigits (Printed.lt_of_mem_fixed (by decide) hd)]
    rfl
  rw [GuidComponent.value, component, hexDigit_eq, hdigits, Printed.value_fixed_of_lt hv]

def components (g : Guid) : GuidComponents where
  a := component g.getAProperty 8 (by decide)
  b := component g.getBProperty 4 (by decide)
  c := component g.getCProperty 4 (by decide)
  ds := (g.bytes_.toList.drop 8).map fun byte => component byte.toNat 2 (by decide)
  length_ds := by
    rw [List.length_map, List.length_drop, Vector.length_toList]

theorem componentsText_map (bs : List UInt8) :
    componentsText ((b :: bs).map fun byte => component byte.toNat 2 (by decide)) =
      List.intercalate [','.toUInt8] ((b :: bs).map fun byte => prefixed byte.toNat 2) ++
        ['}'.toUInt8] := by
  induction bs generalizing b with
  | nil => rfl
  | cons b' bs ih =>
    have hcons := componentsText_cons (component b.toNat 2 (by decide))
      ((b' :: bs).map fun byte => component byte.toNat 2 (by decide)) []
    rw [List.append_nil, List.append_nil, ih b', List.map_cons, List.length_cons,
      if_neg (Nat.succ_ne_zero _)] at hcons
    rw [List.map_cons, List.map_cons, hcons]
    simp only [List.map_cons, List.intercalate_cons_cons, List.append_assoc, List.cons_append,
      List.nil_append]
    rfl

theorem braced_eq : g.braced = (components g).text := by
  have hds : componentsText (components g).ds =
      List.intercalate [','.toUInt8]
        ((g.bytes_.toList.drop 8).map fun byte => prefixed byte.toNat 2) ++ ['}'.toUInt8] := by
    rw [components]
    dsimp only
    rw [toList_eq]
    exact componentsText_map _ _
  rw [braced, GuidComponents.text, hds, List.append_assoc]
  rfl

theorem components_denotes : (components g).Denotes g := by
  have hlt : ∀ i : Fin 16, (g.bytes_.get i).toNat < 256 := fun i => UInt8.toNat_lt _
  have ha : g.getAProperty < 16 ^ 8 := by grind [getAProperty_eq]
  have hb : g.getBProperty < 16 ^ 4 := by grind [getBProperty_eq]
  have hc : g.getCProperty < 16 ^ 4 := by grind [getCProperty_eq]
  refine ⟨(value_component (by decide) ha).symm, ?_, ?_, ?_⟩
  · rw [components]
    rw [value_component _ hb, Nat.mod_eq_of_lt (show g.getBProperty < 2 ^ 16 from hb)]
  · rw [components]
    rw [value_component _ hc, Nat.mod_eq_of_lt (show g.getCProperty < 2 ^ 16 from hc)]
  · rw [components]
    rw [List.map_map]
    refine List.map_congr_left fun b _ => ?_
    exact (value_component _ (UInt8.toNat_lt b)).symm

theorem not_space_of_textual (h : textual c = true) : isAsciiWhitespace c = false := by
  revert c
  decide

theorem stripAsciiWhitespace_braced : stripAsciiWhitespace g.braced = g.braced := by
  refine List.filter_eq_self.mpr fun c hc => ?_
  rw [braced_eq] at hc
  rw [not_space_of_textual (textual_of_mem _ c hc)]
  rfl

theorem parser_text (f : GuidFormat) : f.parser (text g f) = .ok g.bytes_ := by
  cases f with
  | n => exact tryParseExactN_text g
  | d => exact tryParseExactD_dashed g
  | b => exact betweenBrackets_dashed '{'.toUInt8 '}'.toUInt8 g
  | p => exact betweenBrackets_dashed '('.toUInt8 ')'.toUInt8 g
  | x =>
    refine tryParseExactX_iff.mpr (xForm_iff.mpr ⟨components g, ?_, components_denotes g⟩)
    rw [← braced_eq]
    exact stripAsciiWhitespace_braced g

theorem not_space_hexFixed : ∀ c ∈ hexFixed v digits, isAsciiWhitespace c = false :=
  fun _ hc => not_space_of_textual (textual_of_hex (hex_of_mem_hexFixed hc))

theorem not_space_dashed : ∀ c ∈ g.dashed, isAsciiWhitespace c = false := by
  have hdash : ∀ c ∈ ['-'.toUInt8], isAsciiWhitespace c = false :=
    List.forall_mem_singleton.mpr (by decide)
  simp only [dashed, List.forall_mem_append]
  refine ⟨⟨⟨⟨⟨⟨⟨⟨⟨?_, ?_⟩, ?_⟩, ?_⟩, ?_⟩, ?_⟩, ?_⟩, ?_⟩, ?_⟩, ?_⟩
  case refine_10 => grind [not_space_hexFixed]
  all_goals first | exact hdash | exact not_space_hexFixed

theorem not_space_text (f : GuidFormat) : ∀ c ∈ text g f, isAsciiWhitespace c = false := by
  have hbetween : ∀ front back, isAsciiWhitespace front = false → isAsciiWhitespace back = false →
      ∀ c ∈ front :: (g.dashed ++ [back]), isAsciiWhitespace c = false := by
    intro front back hfront hback
    rw [List.forall_mem_cons, List.forall_mem_append, List.forall_mem_singleton]
    exact ⟨hfront, not_space_dashed g, hback⟩
  cases f with
  | n =>
    intro c hc
    obtain ⟨b, -, hb⟩ := List.mem_flatMap.mp hc
    exact not_space_hexFixed c hb
  | d => exact not_space_dashed g
  | b => exact hbetween _ _ (by decide) (by decide)
  | p => exact hbetween _ _ (by decide) (by decide)
  | x =>
    intro c hc
    rw [text, braced_eq] at hc
    exact not_space_of_textual (textual_of_mem _ c hc)

theorem trim_eq_self (h : ∀ c ∈ s, isAsciiWhitespace c = false) : trim s = s := by
  rw [trim]
  cases s with
  | nil => rfl
  | cons c s =>
    rw [List.dropWhile_cons_of_neg (by rw [h c List.mem_cons_self]; exact Bool.false_ne_true),
      List.rdropWhile_eq_self_iff]
    intro hne
    grind

/-- **The texts of a `Guid`.**  What is written in a format is read back, by the parser of the format
and by the loose one, and the loose one succeeds just on the texts that exactly one format has, with
the `Guid` of that format.  The format `X` takes hexadecimal components with any white space. -/
theorem guid_text :
    (∀ (g : Guid) (f : GuidFormat) (upper upper' : Bool), ∃ s, g.toString [f.letter upper] = pure s ∧
      parseExact s [f.letter upper'] = pure g ∧ parse s = pure g) ∧
    ∀ (s : List UInt8) (upper : Bool),
      ((∃ g, parse s = pure g) ↔ ∃! f : GuidFormat, ∃ g, parseExact s [f.letter upper] = pure g) ∧
      (∀ g, parse s = pure g ↔ ∃ f : GuidFormat, parseExact s [f.letter upper] = pure g) ∧
      ∀ g, parseExact s [GuidFormat.x.letter upper] = pure g ↔ XForm s g := by
  have hparse : ∀ (s : List UInt8) (upper : Bool) (g : Guid),
      parse s = pure g ↔ ∃ f : GuidFormat, parseExact s [f.letter upper] = pure g := by
    intro s upper g
    simp only [parse, parseExact_letter, orThrow_eq_pure, tryParseLoose_iff]
  refine ⟨fun g f upper upper' => ?_, fun s upper => ⟨?_, hparse s upper, fun g => ?_⟩⟩
  · have hexact : ∀ upper, parseExact (text g f) [f.letter upper] = pure g := by
      intro upper
      rw [parseExact_letter, orThrow_eq_pure, trim_eq_self (not_space_text g f), parser_text]
    exact ⟨text g f, toString_letter g f upper, hexact upper',
      (hparse _ upper g).mpr ⟨f, hexact upper⟩⟩
  · constructor
    · rintro ⟨g, h⟩
      obtain ⟨f, hf⟩ := (hparse s upper g).mp h
      refine ⟨f, ⟨g, hf⟩, ?_⟩
      rintro f' ⟨g', hf'⟩
      rw [parseExact_letter, orThrow_eq_pure] at hf hf'
      exact parser_unique hf' hf
    · rintro ⟨f, ⟨g, hf⟩, -⟩
      exact ⟨g, (hparse s upper g).mpr ⟨f, hf⟩⟩
  · rw [parseExact_letter, orThrow_eq_pure]
    refine tryParseExactX_iff.trans ?_
    rw [xForm_iff, xForm_iff, stripAsciiWhitespace_trim]

end SharpRuntime.Analysis.GuidText
