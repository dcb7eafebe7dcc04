import SharpRuntime.Analysis.UnicodeEncoding
import SharpRuntime.Machine.Sextets

/-!
# The round trip through UTF-7

A shifted run regroups the bytes of its units into letters, and a reader regroups the letters into
bytes; the bits that pad the last letter fill no byte (`decodeShifted_run`).  The writer sees to it
that the reader finds the end of the run, and the rest is induction on the scalars of the text.
-/

set_option autoImplicit false
set_option maxRecDepth 20000

namespace SharpRuntime.Analysis.UTF7Encoding

open Machine Machine.Printed Model Model.Utf8Scalar Model.UTF7Encoding Model.Encoding
open Analysis.Utf8Scalar Analysis.UnicodeEncoding

/-! ## Groups of bits -/

/-- The groups that came in are in the output, behind what was there before, and in the buffer. -/
def Holds (v w : ℕ) (emit : ℕ → UInt8) (output : List UInt8) (ins : List ℕ) (bits : Bits) : Prop :=
  ∃ outs, Regrouped v w ins outs bits.buffer bits.bitCount ∧ bits.output = output ++ outs.map emit

section Holds

variable {v w : ℕ} {emit : ℕ → UInt8} {output : List UInt8} {ins : List ℕ} {bits : Bits}

theorem drainLoop_holds (hw : 0 < w) (h : Holds v w emit output ins bits) {fuel : ℕ}
    (hfuel : bits.bitCount ≤ fuel) :
    Holds v w emit output ins (drainLoop w emit fuel bits) ∧
      (drainLoop w emit fuel bits).bitCount < w := by
  induction fuel generalizing bits with
  | zero => exact ⟨h, by rw [drainLoop]; omega⟩
  | succ fuel ih =>
    rw [drainLoop]
    split
    case isFalse hfew => exact ⟨h, by omega⟩
    case isTrue hmany =>
      obtain ⟨outs, hregrouped, houtput⟩ := h
      have hpop := hregrouped.pop hmany
      have hbuffer : (if bits.bitCount - w = 0 then 0
          else bits.buffer &&& (1 <<< (bits.bitCount - w) - 1)) =
          bits.buffer % 2 ^ (bits.bitCount - w) := by
        rw [Nat.one_shiftLeft, Nat.and_two_pow_sub_one_eq_mod]
        split
        case isTrue hzero => rw [hzero, pow_zero, Nat.mod_one]
        case isFalse => rfl
      refine ih ⟨outs ++ [bits.buffer / 2 ^ (bits.bitCount - w)], ?_, ?_⟩ (by dsimp only; omega)
      · grind
      · rw [houtput, List.map_append, List.map_singleton, Nat.shiftRight_eq_div_pow,
          List.append_assoc]

theorem drain_holds (hw : 0 < w) (h : Holds v w emit output ins bits) :
    Holds v w emit output ins (drain w emit bits) ∧ (drain w emit bits).bitCount < w :=
  drainLoop_holds hw h le_rfl

theorem feed_holds (hw : 0 < w) (h : Holds v w emit output ins bits) {group : ℕ}
    (hgroup : group < 2 ^ v) :
    Holds v w emit output (ins ++ [group]) (feed w emit v bits group) ∧
      (feed w emit v bits group).bitCount < w := by
  obtain ⟨outs, hregrouped, houtput⟩ := h
  refine drain_holds hw ⟨outs, ?_, houtput⟩
  rw [shiftLeft_or _ hgroup]
  exact hregrouped.push hgroup

variable {groups : List ℕ}

theorem foldl_feed_holds (hw : 0 < w) (h : Holds v w emit output ins bits)
    (hfew : bits.bitCount < w) (hgroups : ∀ g ∈ groups, g < 2 ^ v) :
    Holds v w emit output (ins ++ groups) (groups.foldl (feed w emit v) bits) ∧
      (groups.foldl (feed w emit v) bits).bitCount < w := by
  induction groups generalizing ins bits with
  | nil =>
    rw [List.append_nil]
    exact ⟨h, hfew⟩
  | cons g groups ih =>
    obtain ⟨hfeed, hless⟩ := feed_holds hw h (hgroups g List.mem_cons_self)
    have hrest := ih hfeed hless fun g' hg' => hgroups g' (List.mem_cons_of_mem g hg')
    rwa [List.append_assoc, List.singleton_append] at hrest

theorem holds_start (v w : ℕ) (emit : ℕ → UInt8) (output : List UInt8) :
    Holds v w emit output [] ⟨output, 0, 0⟩ :=
  ⟨[], Regrouped.nil v w, (List.append_nil output).symm⟩

theorem foldl_feed (hw : 0 < w) (emit : ℕ → UInt8) (hgroups : ∀ g ∈ groups, g < 2 ^ v) :
    ∃ outs buffer n, Regrouped v w groups outs buffer n ∧ n < w ∧ ∀ output,
      groups.foldl (feed w emit v) ⟨output, 0, 0⟩ = ⟨output ++ outs.map emit, buffer, n⟩ := by
  have hholds : ∀ output, Holds v w emit output groups
      (groups.foldl (feed w emit v) ⟨output, 0, 0⟩) ∧
      (groups.foldl (feed w emit v) ⟨output, 0, 0⟩).bitCount < w := fun output =>
    foldl_feed_holds hw (holds_start v w emit output) hw hgroups
  obtain ⟨⟨outs, hregrouped, -⟩, hfew⟩ := hholds []
  refine ⟨outs, _, _, hregrouped, hfew, fun output => ?_⟩
  obtain ⟨⟨outs', hregrouped', houtput⟩, hfew'⟩ := hholds output
  obtain ⟨houts, hbuffer, hcount⟩ := hregrouped'.unique hfew' hregrouped hfew
  rw [houts] at houtput
  exact Bits.ext houtput hbuffer hcount

end Holds

/-! ## Letters -/

variable {n : ℕ}

theorem base64Value_emitLetter (h : n < 64) : base64Value (emitLetter n) = some n := by
  revert n
  decide

variable {character : UInt8}

theorem of_base64Value (h : base64Value character = some n) :
    n < 64 ∧ character ≠ '-'.toUInt8 ∧ character.toNat < 0x80 := by
  have hall : ∀ c, (base64Value c).all fun n => n < 64 ∧ c ≠ '-'.toUInt8 ∧ c.toNat < 0x80 := by
    decide
  grind

theorem emitLetter_base64Value (h : base64Value character = some n) : emitLetter n = character := by
  have hall : ∀ c, (base64Value c).all fun n => emitLetter n = c := by decide
  grind

/-- The end of a shifted run: nothing, or a character that is no letter. -/
def NoLetter (data : List UInt8) : Prop := ∀ c ∈ data.head?, base64Value c = none

variable {letters : List ℕ} {data : List UInt8}

theorem scanShifted_letters (hletters : ∀ n ∈ letters, n < 64) (hdata : NoLetter data) (bits : Bits)
    (sawBase64 : Bool) :
    scanShifted bits sawBase64 (letters.map emitLetter ++ data) =
      (letters.foldl (feed 8 emitByte 6) bits, sawBase64 || !letters.isEmpty, data) := by
  induction letters generalizing bits sawBase64 with
  | nil =>
    rw [List.map_nil, List.nil_append, List.foldl_nil, List.isEmpty_nil, Bool.not_true,
      Bool.or_false]
    cases data with
    | nil => rfl
    | cons character data => rw [scanShifted, hdata character rfl]
  | cons n letters ih => grind [scanShifted, base64Value_emitLetter]

theorem exists_letters (data : List UInt8) :
    ∃ (letters : List ℕ) (rest : List UInt8), (∀ n ∈ letters, n < 64) ∧ NoLetter rest ∧
      data = letters.map emitLetter ++ rest := by
  induction data with
  | nil => exact ⟨[], [], nofun, nofun, rfl⟩
  | cons character data ih =>
    cases hvalue : base64Value character with
    | none =>
      refine ⟨[], character :: data, nofun, ?_, rfl⟩
      intro c hc
      obtain rfl := Option.some.inj hc
      exact hvalue
    | some n =>
      obtain ⟨letters, rest, hletters, hrest, rfl⟩ := ih
      refine ⟨n :: letters, rest, ?_, hrest, ?_⟩
      · rw [List.forall_mem_cons]
        exact ⟨(of_base64Value hvalue).1, hletters⟩
      · rw [List.map_cons, emitLetter_base64Value hvalue, List.cons_append]

/-! ## Units -/

variable (codeUnits : List UInt16) (e : UTF7Encoding) (s : List UInt8)

theorem lt_of_mem_unitBytes : ∀ n ∈ unitBytes codeUnits, n < 2 ^ 8 := by
  intro n hn
  obtain ⟨codeUnit, -, hn⟩ := List.mem_flatMap.mp hn
  have hlt := codeUnit.toNat_lt
  rw [Nat.shiftRight_eq_div_pow, List.mem_cons, List.mem_singleton] at hn
  omega

theorem unitBytes_cons (codeUnit : UInt16) (codeUnits : List UInt16) :
    unitBytes (codeUnit :: codeUnits) =
      codeUnit.toNat >>> 8 :: codeUnit.toNat % 256 :: unitBytes codeUnits := rfl

theorem exists_unitBytes : ∀ bytes : List ℕ, (∀ n ∈ bytes, n < 2 ^ 8) → bytes.length % 2 = 0 →
    ∃ codeUnits, bytes = unitBytes codeUnits
  | [], _, _ => ⟨[], rfl⟩
  | [_], _, heven => by simp at heven
  | m :: n :: bytes, hbytes, heven => by
    obtain ⟨codeUnits, rfl⟩ := exists_unitBytes bytes
      (fun k hk => hbytes k (List.mem_cons_of_mem m (List.mem_cons_of_mem n hk)))
      (by rw [List.length_cons, List.length_cons] at heven; omega)
    have hm := hbytes m List.mem_cons_self
    have hn := hbytes n (List.mem_cons_of_mem m List.mem_cons_self)
    refine ⟨UInt16.ofNat (m * 256 + n) :: codeUnits, ?_⟩
    rw [unitBytes_cons, Utf16.toNat_ofNat (by omega), Nat.shiftRight_eq_div_pow]
    congr
    · omega
    · omega

theorem joined_bytes (codeUnit : UInt16) :
    (emitByte (codeUnit.toNat >>> 8)).toNat <<< 8 ||| (emitByte (codeUnit.toNat % 256)).toNat =
      codeUnit.toNat := by
  have hlt := codeUnit.toNat_lt
  rw [shiftLeft_or _ (UInt8.toNat_lt _), emitByte, emitByte, UInt8.toNat_ofNat',
    UInt8.toNat_ofNat', Nat.shiftRight_eq_div_pow]
  omega

theorem appendReplacement_eq (output : List UInt8) :
    appendReplacement output = output ++ utf8.encode 0xFFFD :=
  appendUtf8Scalar_eq output (c := 0xFFFD) (by decide)

theorem appendUtf16Be_eq (output : List UInt8) :
    appendUtf16Be output ((unitBytes codeUnits).map emitByte) =
      output ++ utf8.encodeAll (utf16.replaced 0 codeUnits) := by
  induction codeUnits using utf16.step_induction 0 generalizing output with
  | nil =>
    rw [utf16.replaced_nil]
    exact (List.append_nil output).symm
  | step codeUnits hne ih =>
    rw [utf16.replaced_step 0 hne, utf8.encodeAll_cons, ← List.append_assoc]
    obtain ⟨u, us, rfl⟩ := List.exists_cons_of_ne_nil hne
    have hread := Utf16.read?_cons u us
    have hhigh : Utf16.IsHigh u ↔ 0xD800 ≤ u.toNat ∧ u.toNat ≤ 0xDBFF := by
      rw [Utf16.isHigh_iff]
      omega
    have hlow : ∀ v, Utf16.IsLow v ↔ 0xDC00 ≤ v.toNat ∧ v.toNat ≤ 0xDFFF := by
      intro v
      rw [Utf16.isLow_iff]
      omega
    have hnone : utf16.read? (u :: us) = none →
        appendUtf16Be (appendReplacement output) ((unitBytes us).map emitByte) =
          output ++ utf8.encode (utf16.step 0 (u :: us)).1 ++ utf8.encodeAll
            (utf16.replaced 0 ((u :: us).drop (utf16.step 0 (u :: us)).2)) := by
      intro hnone
      have hstep := ih (appendReplacement output)
      rw [utf16.step_of_not_read? 0 hnone] at hstep ⊢
      rw [← appendReplacement_eq]
      exact hstep
    have hsome : ∀ c n, utf16.read? (u :: us) = some (c, n) →
        appendUtf16Be (appendUtf8 c output) ((unitBytes ((u :: us).drop n)).map emitByte) =
          output ++ utf8.encode (utf16.step 0 (u :: us)).1 ++ utf8.encodeAll
            (utf16.replaced 0 ((u :: us).drop (utf16.step 0 (u :: us)).2)) := by
      intro c n hsome
      have hstep := ih (appendUtf8 c output)
      have happend : appendUtf8 c output = output ++ utf8.encode c :=
        appendUtf8Scalar_eq output (utf16.of_read? hsome).1.lt
      rw [utf16.step_of_read? 0 hsome] at hstep ⊢
      rw [← happend]
      exact hstep
    rw [hread] at hnone hsome
    rw [unitBytes_cons, List.map_cons, List.map_cons]
    by_cases h1 : Utf16.IsHigh u
    · rw [if_pos h1] at hnone hsome
      cases us with
      | nil =>
        grind [unitBytes, appendUtf16Be, joined_bytes]
      | cons v us =>
        rw [List.head?_cons, Option.bind_some] at hnone hsome
        simp only [unitBytes_cons, List.map_cons, appendUtf16Be, joined_bytes,
          if_pos (hhigh.mp h1)]
        by_cases h2 : Utf16.IsLow v
        · have hpair : 0x10000 + ((u.toNat - 0xD800) <<< 10 ||| (v.toNat - 0xDC00)) =
              Utf16.pair u v := by
            have hv := (hlow v).mp h2
            have hlt : v.toNat - 0xDC00 < 2 ^ 10 := by omega
            rw [shiftLeft_or _ hlt]
            unfold Utf16.pair
            omega
          grind
        · rw [if_neg h2] at hnone
          rw [if_neg (fun h => h2 ((hlow v).mpr h))]
          exact hnone rfl
    · grind [appendUtf16Be.eq_def, joined_bytes]

/-! ## Shifted runs -/

theorem appendCodePointAsUtf16_eq (codePoint : ℕ) (output : List UInt16) :
    appendCodePointAsUtf16 codePoint output = output ++ utf16.encode codePoint := by
  change _ = output ++ Utf16.encode codePoint
  unfold appendCodePointAsUtf16
  split
  case isTrue h => rw [Utf16.encode_one h]
  case isFalse h =>
    have hmask : codePoint - 0x10000 &&& 0x3FF = (codePoint - 0x10000) % 1024 :=
      Nat.and_two_pow_sub_one_eq_mod _ 10
    have hshift : (codePoint - 0x10000) >>> 10 = (codePoint - 0x10000) / 1024 :=
      Nat.shiftRight_eq_div_pow _ 10
    rw [Utf16.encode_two (by omega)]
    dsimp only
    rw [hmask, hshift, List.append_assoc]
    rfl

theorem appendShifted_eq : ∃ (letters : List ℕ) (pad : ℕ), (∀ n ∈ letters, n < 64) ∧
      Regrouped 6 8 letters (unitBytes codeUnits) 0 pad ∧ pad < 8 ∧
      ∀ output appendTerminator, appendShifted output codeUnits appendTerminator =
        output ++ ('+'.toUInt8 :: (letters.map emitLetter ++
          if appendTerminator then ['-'.toUInt8] else [])) := by
  obtain ⟨outs, buffer, n, hregrouped, hfew, hfeed⟩ := foldl_feed (v := 8) (w := 6) (by decide)
    emitLetter (lt_of_mem_unitBytes codeUnits)
  have hterminator : ∀ (output : List UInt8) (appendTerminator : Bool),
      (if appendTerminator then output ++ ['-'.toUInt8] else output) =
        output ++ if appendTerminator then ['-'.toUInt8] else [] := by grind
  by_cases hn : n = 0
  · subst hn
    refine ⟨outs, 0, hregrouped.lt_of_mem, hregrouped.back (lt_of_mem_unitBytes codeUnits), by decide, ?_⟩
    intro output appendTerminator
    grind [appendShifted]
  · refine ⟨outs ++ [buffer * 2 ^ (6 - n)], 6 - n, ?_, 
      hregrouped.pad hfew.le (lt_of_mem_unitBytes codeUnits), by omega, ?_⟩
    · have hlast : buffer * 2 ^ (6 - n) < 64 := by
        have hlt := Nat.mul_lt_mul_of_pos_right hregrouped.buffer_lt (Nat.two_pow_pos (6 - n))
        rwa [← pow_add, Nat.add_sub_cancel' hfew.le] at hlt
      intro m hm
      rcases List.mem_append.mp hm with hm | hm
      · exact hregrouped.lt_of_mem m hm
      · rwa [List.mem_singleton.mp hm]
    · intro output appendTerminator
      unfold appendShifted
      rw [hfeed]
      dsimp only
      rw [if_pos hn, hterminator, Nat.shiftLeft_eq, List.map_append, List.map_singleton]
      simp only [List.append_assoc, List.cons_append, List.nil_append]

theorem decodeShifted_letters (hletters : ∀ n ∈ letters, n < 64) (hdata : NoLetter data) :
    ∃ outs buffer n, Regrouped 6 8 letters outs buffer n ∧ n < 8 ∧ ∀ output,
      decodeShifted (letters.map emitLetter ++ data) output =
        (if data.head? = some '-'.toUInt8 then data.tail else data,
          if letters = [] ∨ outs = [] ∨ (n ≠ 0 ∧ buffer ≠ 0) ∨ outs.length % 2 ≠ 0 then
            appendReplacement output
          else appendUtf16Be output (outs.map emitByte)) := by
  obtain ⟨outs, buffer, n, hregrouped, hfew, hfeed⟩ := foldl_feed (v := 6) (w := 8) (by decide)
    emitByte hletters
  refine ⟨outs, buffer, n, hregrouped, hfew, fun output => ?_⟩
  have hsaw : (¬ (false || !letters.isEmpty) = true) ↔ letters = [] := by
    rw [Bool.false_or, Bool.not_eq_true', Bool.not_eq_false, List.isEmpty_iff]
  rw [decodeShifted, scanShifted_letters hletters hdata, hfeed, List.nil_append]
  simp only [hsaw, List.map_eq_nil_iff, List.length_map]
  split
  · rfl
  · rfl

variable {codeUnits : List UInt16} {pad : ℕ}

theorem letters_ne_nil
    (hregrouped : Regrouped 6 8 letters (unitBytes codeUnits) 0 pad) (hne : codeUnits ≠ []) :
    letters ≠ [] := by
  obtain ⟨u, us, rfl⟩ := List.exists_cons_of_ne_nil hne
  have hlength := hregrouped.length_eq
  rintro rfl
  rw [unitBytes_cons, List.length_cons, List.length_nil] at hlength
  omega

/-- A shifted sequence is decoded to its code units, and its terminator is swallowed. -/
theorem decodeShifted_run (hletters : ∀ n ∈ letters, n < 64)
    (hregrouped : Regrouped 6 8 letters (unitBytes codeUnits) 0 pad) (hpad : pad < 8)
    (hne : codeUnits ≠ []) (hdata : NoLetter data) (output : List UInt8) :
    decodeShifted (letters.map emitLetter ++ data) output =
      (if data.head? = some '-'.toUInt8 then data.tail else data,
        output ++ utf8.encodeAll (utf16.replaced 0 codeUnits)) := by
  obtain ⟨outs, buffer, n, hregrouped', hfew, hdecode⟩ := decodeShifted_letters hletters hdata
  obtain ⟨rfl, rfl, rfl⟩ := hregrouped'.unique hfew hregrouped hpad
  have heven : (unitBytes codeUnits).length % 2 = 0 := by
    rw [unitBytes, List.length_flatMap]
    simp
  have hgood : ¬ (letters = [] ∨ unitBytes codeUnits = [] ∨ (n ≠ 0 ∧ 0 ≠ 0) ∨
      (unitBytes codeUnits).length % 2 ≠ 0) := by
    obtain ⟨u, us, rfl⟩ := List.exists_cons_of_ne_nil hne
    rintro (h | h | h | h)
    · exact letters_ne_nil hregrouped hne h
    · exact List.cons_ne_nil _ _ h
    · exact h.2 rfl
    · exact h heven
  rw [hdecode, if_neg hgood, appendUtf16Be_eq]

theorem decodeShifted_appends (data : List UInt8) :
    ∃ (rest : List UInt8) (scalars : List ℕ), rest.length ≤ data.length ∧
      (∀ c ∈ scalars, Scalar c) ∧
      ∀ output, decodeShifted data output = (rest, output ++ utf8.encodeAll scalars) := by
  obtain ⟨letters, rest, hletters, hrest, rfl⟩ := exists_letters data
  obtain ⟨outs, buffer, n, hregrouped, hfew, hdecode⟩ := decodeShifted_letters hletters hrest
  have hlength : (if rest.head? = some '-'.toUInt8 then rest.tail else rest).length ≤
      (letters.map emitLetter ++ rest).length := by grind
  by_cases hbad : letters = [] ∨ outs = [] ∨ (n ≠ 0 ∧ buffer ≠ 0) ∨ outs.length % 2 ≠ 0
  · refine ⟨_, [0xFFFD], hlength, ?_, fun output => ?_⟩
    · rw [List.forall_mem_singleton]
      exact scalar_replacement
    · grind [appendReplacement_eq, utf8.encodeAll_cons, utf8.encodeAll_nil]
  · have heven : outs.length % 2 = 0 := by
      by_contra hodd
      exact hbad (Or.inr (Or.inr (Or.inr hodd)))
    obtain ⟨codeUnits, rfl⟩ := exists_unitBytes outs hregrouped.lt_of_mem heven
    refine ⟨_, utf16.replaced 0 codeUnits, hlength, utf16.scalar_of_mem_replaced 0,
      fun output => ?_⟩
    rw [hdecode, if_neg hbad, appendUtf16Be_eq]

/-! ## Decoding -/

theorem toUInt8_append (output : List UInt8) (h : character.toNat < 0x80) :
    output ++ [character] = output ++ utf8.encodeAll [character.toNat] := by
  have hencode : utf8.encode character.toNat = [UInt8.ofNat character.toNat] := Utf8.encode_one h
  rw [utf8.encodeAll_cons, utf8.encodeAll_nil, List.append_nil, hencode, UInt8.ofNat_toNat]

theorem decodeNext_appends (character : UInt8) (data : List UInt8) :
    ∃ (rest : List UInt8) (scalars : List ℕ), rest.length ≤ data.length ∧
      (∀ c ∈ scalars, Scalar c) ∧
      ∀ output, decodeNext (character :: data) output =
        (rest, output ++ utf8.encodeAll scalars) := by
  by_cases hplus : character = '+'.toUInt8
  · subst hplus
    by_cases hminus : data.head? = some '-'.toUInt8
    · refine ⟨data.tail, ['+'.toUInt8.toNat], ?_, by decide, fun output => ?_⟩
      · simp
      · rw [decodeNext, if_neg (not_not.mpr rfl), if_pos hminus, toUInt8_append _ (by decide)]
    · obtain ⟨rest, scalars, hle, hscalars, hdecode⟩ := decodeShifted_appends data
      refine ⟨rest, scalars, hle, hscalars, fun output => ?_⟩
      rw [decodeNext, if_neg (not_not.mpr rfl), if_neg hminus, hdecode]
  · by_cases hascii : character < 0x80
    · have hlt : character.toNat < 0x80 := UInt8.lt_iff_toNat_lt.mp hascii
      refine ⟨data, [character.toNat], le_rfl, ?_, fun output => ?_⟩
      · rw [List.forall_mem_singleton]
        exact Or.inl (by omega)
      · rw [decodeNext, if_pos hplus, if_pos hascii, toUInt8_append _ hlt]
    · refine ⟨data, [0xFFFD], le_rfl, ?_, fun output => ?_⟩
      · rw [List.forall_mem_singleton]
        exact scalar_replacement
      · grind [decodeNext, appendReplacement_eq, utf8.encodeAll_cons, utf8.encodeAll_nil]

theorem length_decodeNext_lt (character : UInt8) (data output : List UInt8) :
    (decodeNext (character :: data) output).1.length < (character :: data).length := by
  obtain ⟨rest, scalars, hle, -, hdecode⟩ := decodeNext_appends character data
  grind

def decodeText : List UInt8 → List UInt8
  | [] => []
  | character :: data =>
    (decodeNext (character :: data) []).2 ++ decodeText (decodeNext (character :: data) []).1
termination_by data => data.length
decreasing_by exact length_decodeNext_lt character data []

theorem decodeText_nil : decodeText [] = [] := by
  rw [decodeText]

variable {text : List UInt8}

theorem decodeText_of_next {rest : List UInt8}
    (h : decodeNext (character :: data) [] = (rest, text)) :
    decodeText (character :: data) = text ++ decodeText rest := by
  rw [decodeText, h]

theorem wellFormed_decodeText (data : List UInt8) : utf8.WellFormed (decodeText data) := by
  induction hn : data.length using Nat.strong_induction_on generalizing data with
  | _ n ih =>
    cases data with
    | nil =>
      rw [decodeText_nil]
      exact utf8.wellFormed_nil
    | cons character data =>
      obtain ⟨rest, scalars, hle, hscalars, hdecode⟩ := decodeNext_appends character data
      rw [decodeText_of_next (hdecode [])]
      rw [List.length_cons] at hn
      exact utf8.wellFormed_append ⟨scalars, hscalars, rfl⟩ (ih _ (by omega) rest rfl)

variable {fuel : ℕ}

theorem loop_decodeText (hfuel : data.length ≤ fuel) (output : List UInt8) :
    (Run.whileLoop (fun s : List UInt8 × List UInt8 => decide (s.1 ≠ []))
      (fun s => pure (decodeNext s.1 s.2)) fuel (data, output) : Run Exception _) =
      pure ([], output ++ decodeText data) := by
  induction fuel generalizing data output with
  | zero => grind [decodeText_nil, Run.whileLoop_of_not]
  | succ fuel ih =>
    cases data with
    | nil =>
      rw [decodeText_nil, List.append_nil]
      exact Run.whileLoop_of_not rfl
    | cons character data =>
      obtain ⟨rest, scalars, hle, -, hdecode⟩ := decodeNext_appends character data
      rw [List.length_cons] at hfuel
      have hcond : decide ((character :: data, output).1 ≠ []) = true := rfl
      simp only [Run.whileLoop, hcond, if_true, pure_bind, hdecode]
      rw [ih (by omega), decodeText_of_next (hdecode []), List.nil_append, List.append_assoc]

theorem getString_eq (bytes : List UInt8) (count : ℤ) :
    getString (some bytes) 0 count =
      if count < 0 then Run.throwing (.outOfRange "count")
      else pure (decodeText (bytes.take count.toNat)) := by
  rw [getString, validateRawDecodeRange, if_neg (by decide)]
  split
  case isTrue => rfl
  case isFalse hpos =>
    by_cases hzero : count = 0
    · simp [hzero, decodeText_nil]
    · grind [loop_decodeText]

theorem getStringOf_eq (bytes : List UInt8) :
    getStringOf bytes =
      if toIntcs bytes.length < 0 then Run.throwing (.outOfRange "count")
      else pure (decodeText (bytes.take (toIntcs bytes.length).toNat)) :=
  getString_eq bytes (toIntcs bytes.length)

theorem getStringOf_of_le {bytes : List UInt8} (h : bytes.length ≤ intcsMax) :
    getStringOf bytes = pure (decodeText bytes) := by
  rw [getStringOf_eq, toIntcs_of_le h, if_neg (by omega), Int.toNat_natCast, List.take_length]

/-! ## Encoding -/

def flush (run : List ℕ) (appendTerminator : Bool) : List UInt8 :=
  flushShifted [] (utf16.encodeAll run) appendTerminator

theorem flushShifted_eq (output : List UInt8) (shifted : List UInt16) (appendTerminator : Bool) :
    flushShifted output shifted appendTerminator =
      output ++ flushShifted [] shifted appendTerminator := by
  obtain ⟨letters, pad, -, -, -, happend⟩ := appendShifted_eq shifted
  unfold flushShifted
  split
  · rw [happend output, happend [], List.nil_append]
  · exact (List.append_nil output).symm

theorem visit_eq (output : List UInt8) (shifted : List UInt16) (c : ℕ) :
    e.visit (output, shifted) c = (output ++ (e.visit ([], shifted) c).1, (e.visit ([], shifted) c).2) := by
  grind [flushShifted_eq, visit]

theorem foldl_visit (scalars : List ℕ) (output : List UInt8) (shifted : List UInt16) :
    scalars.foldl e.visit (output, shifted) =
      (output ++ (scalars.foldl e.visit ([], shifted)).1,
        (scalars.foldl e.visit ([], shifted)).2) := by
  induction scalars generalizing output shifted with
  | nil => rw [List.foldl_nil, List.foldl_nil, List.append_nil]
  | cons c scalars ih => grind [visit_eq]

/-- What is still to be written when some scalars of the current run are not written yet. -/
def encodeFrom (e : UTF7Encoding) (run scalars : List ℕ) : List UInt8 :=
  let s := scalars.foldl e.visit ([], utf16.encodeAll run)
  flushShifted s.1 s.2 true

variable {c : ℕ}

variable {run : List ℕ}

theorem encodeFrom_of_visit {shifted : List ℕ}
    (h : e.visit ([], utf16.encodeAll run) c = (text, utf16.encodeAll shifted))
    (scalars : List ℕ) :
    encodeFrom e run (c :: scalars) = text ++ encodeFrom e shifted scalars := by
  grind [foldl_visit, flushShifted_eq, encodeFrom]

theorem encodeFrom_plus (run scalars : List ℕ) : encodeFrom e run ('+'.toNat :: scalars) =
      flush run true ++ ('+'.toUInt8 :: '-'.toUInt8 :: encodeFrom e [] scalars) := by
  have hvisit : e.visit ([], utf16.encodeAll run) '+'.toNat =
      (flush run true ++ ['+'.toUInt8] ++ ['-'.toUInt8], utf16.encodeAll []) := by rfl
  rw [encodeFrom_of_visit e hvisit, List.append_assoc, List.append_assoc]
  rfl

theorem encodeFrom_direct (hplus : c ≠ '+'.toNat)
    (hdirect : e.isDirect c = true) (run scalars : List ℕ) :
    encodeFrom e run (c :: scalars) =
      flush run (c = '-'.toNat ∨ (base64Value (UInt8.ofNat c)).isSome) ++
        (UInt8.ofNat c :: encodeFrom e [] scalars) := by
  have hvisit : e.visit ([], utf16.encodeAll run) c =
      (flush run (c = '-'.toNat ∨ (base64Value (UInt8.ofNat c)).isSome) ++ [UInt8.ofNat c],
        utf16.encodeAll []) := by
    unfold visit
    dsimp only
    rw [if_neg hplus, if_pos hdirect]
    rfl
  rw [encodeFrom_of_visit e hvisit, List.append_assoc]
  rfl

theorem encodeFrom_shifted (hplus : c ≠ '+'.toNat)
    (hdirect : ¬ e.isDirect c = true) (run scalars : List ℕ) :
    encodeFrom e run (c :: scalars) = encodeFrom e (run ++ [c]) scalars := by
  have hvisit : e.visit ([], utf16.encodeAll run) c = ([], utf16.encodeAll (run ++ [c])) := by
    grind [visit, appendCodePointAsUtf16_eq, utf16.encodeAll_append,
      utf16.encodeAll_cons, utf16.encodeAll_nil]
  rw [encodeFrom_of_visit e hvisit, List.nil_append]

theorem of_isDirect {e : UTF7Encoding} (h : e.isDirect c = true) :
    c < 0x80 ∧ c ≠ '+'.toNat := by grind [isDirect]

theorem encodeFrom_induction {P : List ℕ → List ℕ → List UInt8 → Prop}
    (nil : ∀ run, P run [] (flush run true))
    (plus : ∀ run scalars bytes, P [] scalars bytes →
      P run ('+'.toNat :: scalars) (flush run true ++ ('+'.toUInt8 :: '-'.toUInt8 :: bytes)))
    (direct : ∀ run c scalars bytes terminated, P [] scalars bytes → c < 0x80 → c ≠ '+'.toNat →
      (terminated = false → c ≠ '-'.toNat ∧ base64Value (UInt8.ofNat c) = none) →
      P run (c :: scalars) (flush run terminated ++ (UInt8.ofNat c :: bytes)))
    (shifted : ∀ run c scalars bytes, P (run ++ [c]) scalars bytes → P run (c :: scalars) bytes)
    (run scalars : List ℕ) : P run scalars (encodeFrom e run scalars) := by
  induction scalars generalizing run with
  | nil => exact nil run
  | cons c scalars ih =>
    by_cases hplus : c = '+'.toNat
    · grind [encodeFrom_plus]
    · by_cases hdirect : e.isDirect c = true
      · rw [encodeFrom_direct e hplus hdirect]
        refine direct run c scalars _ _ (ih []) (of_isDirect hdirect).1 hplus fun hend => ?_
        rw [decide_eq_false_iff_not, not_or, Option.not_isSome_iff_eq_none] at hend
        exact hend
      · grind [encodeFrom_shifted]

theorem decodeText_flush (hrun : ∀ c ∈ run, Scalar c) (terminated : Bool) (data : List UInt8)
    (hend : terminated = false → NoLetter data ∧ data.head? ≠ some '-'.toUInt8) :
    decodeText (flush run terminated ++ data) = utf8.encodeAll run ++ decodeText data := by
  by_cases hnil : utf16.encodeAll run = []
  · have hflush : flush run terminated = [] := if_neg (not_not.mpr hnil)
    have hempty : run = [] := by
      cases run with
      | nil => rfl
      | cons c run => exact absurd (List.append_eq_nil_iff.mp hnil).1 (utf16.encode_ne_nil c)
    rw [hflush, hempty]
    rfl
  · obtain ⟨letters, pad, hletters, hregrouped, hpad, happend⟩ :=
      appendShifted_eq (utf16.encodeAll run)
    have hflush : flush run terminated = '+'.toUInt8 :: (letters.map emitLetter ++
        if terminated then ['-'.toUInt8] else []) := by
      rw [flush, flushShifted, if_pos hnil, happend, List.nil_append]
    -- the end of the run is seen, and the reader stops behind it
    have hseen : NoLetter ((if terminated then ['-'.toUInt8] else []) ++ data) ∧
        (if ((if terminated then ['-'.toUInt8] else []) ++ data).head? = some '-'.toUInt8 then
          ((if terminated then ['-'.toUInt8] else []) ++ data).tail
        else ((if terminated then ['-'.toUInt8] else []) ++ data)) = data := by
      cases terminated with
      | true =>
        refine ⟨?_, rfl⟩
        intro c hc
        obtain rfl := Option.some.inj hc
        decide
      | false => grind
    have hrunDecoded := decodeShifted_run hletters hregrouped hpad hnil hseen.1 []
    rw [hseen.2, utf16.replaced_encodeAll 0 hrun, List.nil_append] at hrunDecoded
    have hhead : (letters.map emitLetter ++ ((if terminated then ['-'.toUInt8] else []) ++
        data)).head? ≠ some '-'.toUInt8 := by
      obtain ⟨n, ns, rfl⟩ := List.exists_cons_of_ne_nil (letters_ne_nil hregrouped hnil)
      have hletter := base64Value_emitLetter (hletters n List.mem_cons_self)
      rw [List.map_cons, List.cons_append, List.head?_cons, Ne, Option.some.injEq]
      exact (of_base64Value hletter).2.1
    have hnext : decodeNext ('+'.toUInt8 :: (letters.map emitLetter ++
        ((if terminated then ['-'.toUInt8] else []) ++ data))) [] =
          (data, utf8.encodeAll run) := by
      rw [decodeNext, if_neg (not_not.mpr rfl), if_neg hhead, hrunDecoded]
    rw [hflush, List.cons_append, List.append_assoc, decodeText_of_next hnext]

variable {scalars : List ℕ}

/-- **What is written is read back.** -/
theorem decodeText_encodeFrom (hscalars : ∀ c ∈ scalars, Scalar c) :
    decodeText (encodeFrom e [] scalars) = utf8.encodeAll scalars := by
  have hread := encodeFrom_induction e (P := fun run scalars bytes =>
    (∀ c ∈ run, Scalar c) → (∀ c ∈ scalars, Scalar c) →
      decodeText bytes = utf8.encodeAll (run ++ scalars)) ?_ ?_ ?_ ?_ [] scalars
  · exact hread (List.forall_mem_nil _) hscalars
  · intro run hrun _
    have hflush := decodeText_flush hrun true [] fun h => by cases h
    rw [List.append_nil, decodeText_nil, List.append_nil] at hflush
    rw [List.append_nil, hflush]
  · intro run scalars bytes ih hrun hscalars
    rw [List.forall_mem_cons] at hscalars
    have hnext : decodeNext ('+'.toUInt8 :: '-'.toUInt8 :: bytes) [] = (bytes, ['+'.toUInt8]) := rfl
    have hflush := decodeText_flush hrun true ('+'.toUInt8 :: '-'.toUInt8 :: bytes)
      fun h => by cases h
    rw [hflush, decodeText_of_next hnext, ih (List.forall_mem_nil _) hscalars.2, List.nil_append,
      utf8.encodeAll_append, utf8.encodeAll_cons]
    rfl
  · intro run c scalars bytes terminated ih hascii hplus hend hrun hscalars
    rw [List.forall_mem_cons] at hscalars
    have htoNat : (UInt8.ofNat c).toNat = c := by
      rw [UInt8.toNat_ofNat', Nat.mod_eq_of_lt (by omega)]
    have hne : ∀ d : UInt8, c ≠ d.toNat → UInt8.ofNat c ≠ d := by
      rintro d hd rfl
      exact hd htoNat.symm
    have hnext : decodeNext (UInt8.ofNat c :: bytes) [] = (bytes, [UInt8.ofNat c]) := by
      have hlt : UInt8.ofNat c < 0x80 := by
        rw [UInt8.lt_iff_toNat_lt, htoNat]
        exact hascii
      rw [decodeNext, if_pos (hne '+'.toUInt8 hplus), if_pos hlt, List.nil_append]
    have hencode : utf8.encode c = [UInt8.ofNat c] := Utf8.encode_one hascii
    rw [decodeText_flush hrun, decodeText_of_next hnext,
      ih (List.forall_mem_nil _) hscalars.2, List.nil_append,
      utf8.encodeAll_append, utf8.encodeAll_cons, hencode]
    · intro hopen
      obtain ⟨hminus, hletter⟩ := hend hopen
      refine ⟨?_, ?_⟩
      · intro d hd
        obtain rfl := Option.some.inj hd
        exact hletter
      · rw [List.head?_cons, Ne, Option.some.injEq]
        exact hne '-'.toUInt8 hminus
  · grind

theorem flush_ascii (run : List ℕ) (terminated : Bool) :
    ∀ b ∈ flush run terminated, b.toNat < 0x80 := by
  obtain ⟨letters, pad, hletters, -, -, happend⟩ := appendShifted_eq (utf16.encodeAll run)
  have hascii : ∀ b ∈ letters.map emitLetter, b.toNat < 0x80 := by
    rw [List.forall_mem_map]
    exact fun n hn => (of_base64Value (base64Value_emitLetter (hletters n hn))).2.2
  unfold flush flushShifted
  split
  · rw [happend, List.nil_append, List.forall_mem_cons, List.forall_mem_append]
    refine ⟨by decide, hascii, ?_⟩
    split
    · rw [List.forall_mem_singleton]
      decide
    · nofun
  · nofun

theorem encodeFrom_ascii (scalars : List ℕ) : ∀ b ∈ encodeFrom e [] scalars, b.toNat < 0x80 := by
  refine encodeFrom_induction e (P := fun _ _ bytes => ∀ b ∈ bytes, b.toNat < 0x80)
    (fun run => flush_ascii run true) ?_ ?_ (fun _ _ _ _ ih => ih) [] scalars
  · intro run scalars bytes ih
    rw [List.forall_mem_append, List.forall_mem_cons, List.forall_mem_cons]
    exact ⟨flush_ascii run true, by decide, by decide, ih⟩
  · intro run c scalars bytes terminated ih hascii _ _
    rw [List.forall_mem_append, List.forall_mem_cons, UInt8.toNat_ofNat',
      Nat.mod_eq_of_lt (by omega)]
    exact ⟨flush_ascii run terminated, hascii, ih⟩

/-! ## Whole strings -/

/-- The bytes that a step passes over where it reads none, after the first.
SOURCE: Rune.hpp:68-86 -/
def skipped (w : List UInt8) : ℕ := (tryDecodeUtf8Scalar w w.length 0).length - 1

theorem tryDecodeUtf8Scalar_drop (i : ℕ) :
    tryDecodeUtf8Scalar (s.drop i) (s.drop i).length 0 = tryDecodeUtf8Scalar s s.length i := by
  grind [tryDecodeUtf8Scalar]

variable {i : ℕ}

theorem tryGetRuneAt_eq {s : List UInt8} (hi : i < s.length) :
    ((Rune.tryGetRuneAt s i).codePoint.getD 0xFFFD, (Rune.tryGetRuneAt s i).length) =
        utf8.step skipped (s.drop i) ∧
      i + (Rune.tryGetRuneAt s i).length ≤ s.length := by
  have hwindow : window s s.length i = s.drop i := by rw [window, List.take_length]
  have hfollows := tryDecodeUtf8Scalar_follows hi le_rfl
  rw [hwindow] at hfollows
  rw [Rune.tryGetRuneAt, if_neg (by omega)]
  rcases hfollows with ⟨c, n, hread, hstep⟩ | ⟨hread, hstep, hpos, hle⟩
  · obtain ⟨-, hle⟩ := utf8.length_of_read? hread
    rw [List.length_drop] at hle
    rw [hstep, utf8.step_of_read? skipped hread]
    exact ⟨rfl, by dsimp only; omega⟩
  · rw [List.length_drop] at hle
    rw [utf8.step_of_not_read? skipped hread, skipped, tryDecodeUtf8Scalar_drop, hstep,
      Nat.sub_add_cancel hpos]
    exact ⟨rfl, by omega⟩

theorem loop_visit (hi : i ≤ s.length)
    (hfuel : s.length - i ≤ fuel) (state : List UInt8 × List UInt16) :
    (Run.whileLoop (fun t : ℕ × List UInt8 × List UInt16 => decide (t.1 < s.length))
      (fun t =>
        let rune := Rune.tryGetRuneAt s t.1
        if rune.length = 0 then pure (s.length, t.2)
        else pure (t.1 + rune.length, e.visit t.2 (rune.codePoint.getD 0xFFFD)))
      fuel (i, state) : Run Exception _) =
      pure (s.length, (utf8.replaced skipped (s.drop i)).foldl e.visit state) := by
  induction fuel generalizing i state with
  | zero => grind [Run.whileLoop, utf8.replaced_nil]
  | succ fuel ih =>
    by_cases hlt : i < s.length
    · have hcond : decide ((i, state).1 < s.length) = true := decide_eq_true hlt
      have hne : s.drop i ≠ [] := by
        rw [Ne, List.drop_eq_nil_iff]
        omega
      obtain ⟨hstep, hnext⟩ := tryGetRuneAt_eq hlt
      have hpos := utf8.step_pos skipped (s.drop i)
      rw [← hstep] at hpos
      have hlength : (Rune.tryGetRuneAt s i).length ≠ 0 := hpos.ne'
      rw [utf8.replaced_step skipped hne, ← hstep, List.foldl_cons, List.drop_drop]
      simp only [Run.whileLoop, hcond, if_true, if_neg hlength, pure_bind]
      exact ih hnext (by dsimp only at hpos; omega) _
    · grind [Run.whileLoop, utf8.replaced_nil]

theorem getBytes_eq : e.getBytes s = pure (encodeFrom e [] (utf8.replaced skipped s)) := by
  rw [getBytes, loop_visit e s (Nat.zero_le _) (Nat.sub_le _ _), pure_bind]
  rfl

/-- **The round trip through UTF-7**: with either setting, a string is written in bytes of seven
bits, and a well-formed one comes back from them when the count can count them.  From any bytes
that the count can count `getString` returns well-formed text, and from more it returns nothing
else. -/
theorem utf7_round_trip (allowOptionals : Bool) :
    (∀ s, ∃ bytes, (UTF7Encoding.mk allowOptionals).getBytes s = pure bytes ∧
      (∀ b ∈ bytes, b.toNat < 0x80) ∧
      (utf8.WellFormed s → bytes.length ≤ intcsMax → getStringOf bytes = pure s)) ∧
    ∀ bytes, (getStringOf bytes).Ensures utf8.WellFormed ∧
      (bytes.length ≤ intcsMax → ∃ out, getStringOf bytes = pure out) := by
  refine ⟨fun s => ⟨_, getBytes_eq _ s, encodeFrom_ascii _ _, fun hs hle => ?_⟩,
    fun bytes => ⟨?_, fun hle => ⟨_, getStringOf_of_le hle⟩⟩⟩
  · rw [getStringOf_of_le hle, decodeText_encodeFrom _ (utf8.scalar_of_mem_replaced skipped),
      (utf8.encodeAll_replaced_iff skipped).mpr hs]
  · rw [getStringOf_eq]
    exact Run.Ensures.ite (fun _ => Run.Ensures.throwing _)
      fun _ => Run.Ensures.pure (wellFormed_decodeText _)

set_option maxRecDepth 20000 in
/-- The round trip of `A≢Α.`, whose second and third characters are shifted. -/
theorem utf7_round_trip_shifted :
    getStringOf "A+ImIDkQ.".toUTF8.data.toList =
      pure [0x41, 0xE2, 0x89, 0xA2, 0xCE, 0x91, 0x2E] := by
  obtain ⟨bytes, hbytes, -, hback⟩ :=
    (utf7_round_trip false).1 [0x41, 0xE2, 0x89, 0xA2, 0xCE, 0x91, 0x2E]
  have hvalue : (UTF7Encoding.mk false).getBytes [0x41, 0xE2, 0x89, 0xA2, 0xCE, 0x91, 0x2E] =
      pure "A+ImIDkQ.".toUTF8.data.toList := by decide
  obtain rfl := Run.pure_inj.mp (hbytes.symm.trans hvalue)
  have hscalars : ∀ c ∈ [0x41, 0x2262, 0x391, 0x2E], Scalar c := by decide
  exact hback ⟨_, hscalars, by decide⟩ (by decide)

theorem getBytes_direct (hdirect : ∀ c ∈ scalars, e.isDirect c = true) :
    utf8.WellFormed (scalars.map UInt8.ofNat) ∧
      e.getBytes (scalars.map UInt8.ofNat) = pure (scalars.map UInt8.ofNat) := by
  have hscalars : ∀ c ∈ scalars, Scalar c := by
    intro c hc
    have hascii := (of_isDirect (hdirect c hc)).1
    exact Or.inl (by omega)
  have htext : scalars.map UInt8.ofNat = utf8.encodeAll scalars := by
    rw [List.map_eq_flatMap]
    refine List.flatMap_congr fun c hc => ?_
    exact (Utf8.encode_one (of_isDirect (hdirect c hc)).1).symm
  have hencode : encodeFrom e [] scalars = scalars.map UInt8.ofNat := by
    clear hscalars htext
    induction scalars with
    | nil => rfl
    | cons c scalars ih =>
      rw [List.forall_mem_cons] at hdirect
      have hflush : flush [] (c = '-'.toNat ∨ (base64Value (UInt8.ofNat c)).isSome) = [] := rfl
      rw [encodeFrom_direct e (of_isDirect hdirect.1).2 hdirect.1, hflush, ih hdirect.2]
      rfl
  refine ⟨⟨scalars, hscalars, htext⟩, ?_⟩
  rw [getBytes_eq]
  nth_rewrite 1 [htext]
  rw [utf8.replaced_encodeAll skipped hscalars, hencode]

/-- Direct characters that are many: `getString` refuses their number. -/
theorem count_is_negative :
    utf8.WellFormed (List.replicate (2 ^ 31) (UInt8.ofNat 'A'.toNat)) ∧
      ((UTF7Encoding.mk false).getBytes (List.replicate (2 ^ 31) (UInt8.ofNat 'A'.toNat)) >>=
        getStringOf) = Run.throwing (.outOfRange "count") ∧
      ((UTF7Encoding.mk false).getBytes (List.replicate (2 ^ 31) (UInt8.ofNat 'A'.toNat)) >>=
        getStringOf) ≠ pure (List.replicate (2 ^ 31) (UInt8.ofNat 'A'.toNat)) := by
  have hmany : ∀ n, toIntcs n < 0 →
      utf8.WellFormed (List.replicate n (UInt8.ofNat 'A'.toNat)) ∧
        ((UTF7Encoding.mk false).getBytes (List.replicate n (UInt8.ofNat 'A'.toNat)) >>=
          getStringOf) = Run.throwing (.outOfRange "count") := by
    intro n hn
    have hdirect : ∀ c ∈ List.replicate n 'A'.toNat,
        (UTF7Encoding.mk false).isDirect c = true := by
      intro c hc
      rw [(List.mem_replicate.mp hc).2]
      decide
    have hbytes := getBytes_direct (UTF7Encoding.mk false) hdirect
    rw [List.map_replicate] at hbytes
    refine ⟨hbytes.1, ?_⟩
    rw [hbytes.2, pure_bind, getStringOf_eq, List.length_replicate, if_pos hn]
  obtain ⟨hwellFormed, hthrows⟩ := hmany (2 ^ 31) (by decide)
  refine ⟨hwellFormed, hthrows, ?_⟩
  rw [hthrows]
  nofun

end SharpRuntime.Analysis.UTF7Encoding
