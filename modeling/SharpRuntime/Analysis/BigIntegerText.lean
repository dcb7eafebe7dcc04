import SharpRuntime.Analysis.BigIntegerMagnitude
import SharpRuntime.Machine.Scan

/-!
# The text of a `BigInteger`

`parse` cuts the digits into limbs of nine from the right, so the limbs are the digits' value in
base `10^9` (`parseLimbs_spec`); `toString` pads every limb but the top one to nine digits, so the
text is the numeral of the magnitude (`toString_eq`).  The sizes are cast to `int`: a text of
`2^31` characters or more is never read to its end (`parse_bound`), and a value with so long a
text does not come back (`textRoundTrip_iff`).
-/

set_option autoImplicit false

namespace SharpRuntime.Analysis.BigIntegerText

open Machine Machine.Printed Model Model.BigInteger
open BigIntegerMagnitude

theorem base_eq : base = 10 ^ 9 := rfl

theorem stoul_append (a b : List Char) : stoul (a ++ b) = stoul a * 10 ^ b.length + stoul b := by
  rw [stoul, List.map_append, value_append, List.length_map]
  rfl

variable {digits : List Char}

theorem stoul_lt (h : ∀ c ∈ digits, isDigit c = true) : stoul digits < 10 ^ digits.length := by
  have hlt : ∀ d ∈ digits.map charDigit, d < 10 := by grind [charDigit_lt]
  have := value_lt hlt
  rwa [List.length_map] at this

def slice (t : List Char) (start i : ℕ) : List Char := (t.drop start).take (i - start)

variable {t : List Char} {a b : ℕ}

theorem slice_append {c : ℕ} (hab : a ≤ b) (hbc : b ≤ c) :
    slice t a c = slice t a b ++ slice t b c := by
  have hlen : c - a = (b - a) + (c - b) := by omega
  have hdrop : b = a + (b - a) := by omega
  rw [slice, slice, slice, hlen, List.take_add, List.drop_drop, ← hdrop]

theorem length_slice (hb : b ≤ t.length) : (slice t a b).length = b - a := by
  grind [slice]

variable {c : Char}

theorem mem_slice (h : c ∈ slice t a b) : c ∈ t.drop a :=
  List.mem_of_mem_take h

/-- The limbs of the digits between two places, nine to a limb. -/
theorem parseLimbs_spec (start i : ℕ) (hstart : start ≤ i)
    (hi : i ≤ t.length) (hdigits : ∀ c ∈ t.drop start, isDigit c = true) :
    Digits base (parseLimbs t start i) ∧
      Nat.ofDigits base (parseLimbs t start i) = stoul (slice t start i) := by
  induction i using Nat.strong_induction_on with
  | _ i ih =>
    rw [parseLimbs]
    by_cases hlt : start < i
    · rw [if_pos (by exact_mod_cast hlt)]
      obtain ⟨chunk, hchunk⟩ : ∃ n : ℕ, n = max start (i - 9) := ⟨_, rfl⟩
      have hcast : max (start : ℤ) ((i : ℤ) - 9) = (chunk : ℕ) := by omega
      have hwidth : ((i : ℤ) - (chunk : ℕ)).toNat = i - chunk := by omega
      simp only [hcast, Int.toNat_natCast, hwidth]
      obtain ⟨hds, hval⟩ := ih chunk (by omega) (by omega) (by omega)
      have hpiece : ∀ c ∈ slice t chunk i, isDigit c = true := by
        intro c hc
        have hmem := mem_slice hc
        have hdrop : t.drop chunk = (t.drop start).drop (chunk - start) := by
          simp
          omega
        grind
      have hbound := stoul_lt hpiece
      rw [length_slice hi] at hbound
      have hlimb : stoul (slice t chunk i) < base := by
        have hpow : 10 ^ (i - chunk) ≤ 10 ^ 9 := Nat.pow_le_pow_right (by decide) (by omega)
        exact hbound.trans_le hpow
      have hwrap : wrap 32 (stoul (slice t chunk i)) = stoul (slice t chunk i) :=
        wrap_of_lt (hlimb.trans (by decide))
      change Digits base (wrap 32 (stoul (slice t chunk i)) :: _) ∧
        Nat.ofDigits base (wrap 32 (stoul (slice t chunk i)) :: _) = _
      rw [hwrap]
      refine ⟨Digits.cons_iff.mpr ⟨hlimb, hds⟩, ?_⟩
      rw [Nat.ofDigits_cons, hval, slice_append (by omega : start ≤ chunk) (by omega : chunk ≤ i),
        stoul_append, length_slice hi]
      by_cases hfull : start + 9 ≤ i
      · have hnine : i - chunk = 9 := by omega
        rw [hnine, base_eq]
        ring
      · -- the last chunk reaches the start
        have hempty : slice t start chunk = [] := by
          have hsame : chunk = start := by omega
          rw [slice, hsame, Nat.sub_self, List.take_zero]
        rw [hempty]
        simp [stoul]
    · rw [if_neg (by exact_mod_cast hlt)]
      have hempty : slice t start i = [] := by
        have hsame : i = start := by omega
        rw [slice, hsame, Nat.sub_self, List.take_zero]
      rw [hempty]
      exact ⟨Digits.nil, rfl⟩

theorem parseLimbs_of_le {start i : ℤ} (h : i ≤ start) : parseLimbs t start i = [] := by
  rw [parseLimbs, if_neg (by omega)]

theorem not_parseWhite (h : isDigit c = true ∨ c = '+' ∨ c = '-') : isParseWhite c = false := by
  rcases h with h | rfl | rfl
  · grind [isDigit, isParseWhite]
  · rfl
  · rfl

theorem isParseWhite_iff : isParseWhite c = true ↔ c ∈ blanks := by
  constructor
  · intro h
    have hchar := Char.ofNat_toNat c
    simp only [isParseWhite, Bool.or_eq_true, Bool.and_eq_true, decide_eq_true_eq] at h
    generalize c.toNat = n at h hchar
    subst hchar
    obtain rfl | ⟨hlo, hhi⟩ := h
    · decide
    · interval_cases n <;> decide
  · intro h
    simp only [blanks, List.mem_cons, List.not_mem_nil, or_false] at h
    rcases h with rfl | rfl | rfl | rfl | rfl | rfl <;> decide

def digitsStart (trimmed : List Char) : ℕ :=
  if decide (trimmed.head? = some '-') || decide (trimmed.head? = some '+') then 1 else 0

def trimmedText (s : List Char) : List Char := (s.dropWhile isParseWhite).rdropWhile isParseWhite

theorem parse_def (s : List Char) :
    parse s =
      if trimmedText s = [] then Run.throwing parseFault
      else if (trimmedText s).length ≤ digitsStart (trimmedText s) then Run.throwing parseFault
      else if ((trimmedText s).drop (digitsStart (trimmedText s))).any (fun c => !isDigit c) then
        Run.throwing parseFault
      else pure (trim ⟨decide ((trimmedText s).head? = some '-'),
        if parseLimbs (trimmedText s) (digitsStart (trimmedText s))
            (toIntcs (trimmedText s).length) = [] then [0]
        else parseLimbs (trimmedText s) (digitsStart (trimmedText s))
            (toIntcs (trimmedText s).length)⟩) := by
  rfl

variable {s : List Char} {neg : Bool}

theorem integerText_iff : IntegerText s neg digits ↔
      decide ((trimmedText s).head? = some '-') = neg ∧
        (trimmedText s).drop (digitsStart (trimmedText s)) = digits ∧ digits ≠ [] ∧
          ∀ c ∈ digits, isDigit c = true := by
  constructor
  · rintro ⟨lead, sign, trail, rfl, hlead, htrail, hsign, hne, hdigits⟩
    obtain ⟨d, ds, rfl⟩ := List.exists_cons_of_ne_nil hne
    have hd : isDigit d = true := hdigits d List.mem_cons_self
    have hminus : d ≠ '-' := by rintro rfl; exact absurd hd (by decide)
    have hplus : d ≠ '+' := by rintro rfl; exact absurd hd (by decide)
    have hplain : ∀ c ∈ sign ++ d :: ds, isParseWhite c = false := by grind [not_parseWhite]
    simp only [← isParseWhite_iff] at hlead htrail
    have htrim : trimmedText (lead ++ (sign ++ d :: ds ++ trail)) = sign ++ d :: ds :=
      Scan.dropWhile_rdropWhile hlead htrail
        (fun c hc => hplain c (List.mem_of_mem_head? hc))
        (fun c hc => hplain c (List.mem_of_mem_getLast? hc)) (by simp)
    rw [htrim]
    obtain ⟨rfl, rfl | rfl⟩ | ⟨rfl, rfl⟩ := hsign
    · refine ⟨by simp [hminus], ?_, hne, hdigits⟩
      simp [digitsStart, hminus, hplus]
    · exact ⟨rfl, rfl, hne, hdigits⟩
    · exact ⟨rfl, rfl, hne, hdigits⟩
  · rintro ⟨rfl, rfl, hne, hdigits⟩
    obtain ⟨lead, trail, hs, hlead, htrail⟩ := Scan.exists_append_trimmed isParseWhite s
    simp only [isParseWhite_iff] at hlead htrail
    refine ⟨lead, (trimmedText s).take (digitsStart (trimmedText s)), trail, ?_, hlead, htrail, ?_,
      hne, hdigits⟩
    · rw [List.take_append_drop]
      exact hs
    · cases htrim : trimmedText s with
      | nil => exact Or.inl ⟨rfl, Or.inl rfl⟩
      | cons c t => grind [digitsStart]

theorem trimmedText_length_le (s : List Char) : (trimmedText s).length ≤ s.length :=
  ((List.rdropWhile_prefix _ _).length_le).trans (List.dropWhile_suffix _).length_le

theorem parse_of_text (h : IntegerText s neg digits) : parse s = pure (trim ⟨neg,
      if parseLimbs (trimmedText s) (digitsStart (trimmedText s))
          (toIntcs (trimmedText s).length) = [] then [0]
      else parseLimbs (trimmedText s) (digitsStart (trimmedText s))
          (toIntcs (trimmedText s).length)⟩) := by
  obtain ⟨hneg, hdrop, hne, hdigits⟩ := (integerText_iff).mp h
  have hlen : digitsStart (trimmedText s) < (trimmedText s).length := by
    by_contra hge
    rw [List.drop_eq_nil_of_le (by omega)] at hdrop
    exact hne hdrop.symm
  have hnil : trimmedText s ≠ [] := by
    intro hnil
    rw [hnil] at hlen
    simp at hlen
  have hany : ((trimmedText s).drop (digitsStart (trimmedText s))).any (fun c => !isDigit c) =
      false := by
    rw [hdrop, List.any_eq_false]
    intro c hc
    simp [hdigits c hc]
  rw [parse_def, if_neg hnil, if_neg (by omega), hany, if_neg (by decide), hneg]

theorem parse_of_malformed (h : ¬ ∃ neg digits, IntegerText s neg digits) :
    parse s = Run.throwing parseFault := by
  rw [parse_def]
  split
  · rfl
  split
  · rfl
  rename_i hlen
  split
  · rfl
  · rename_i hany
    refine absurd ⟨_, _, (integerText_iff).mpr ⟨rfl, rfl, ?_, ?_⟩⟩ h
    · rw [ne_eq, List.drop_eq_nil_iff]
      omega
    · grind

theorem parse_value (h : IntegerText s neg digits) (hlen : (trimmedText s).length ≤ intcsMax) :
    ∃ r, parse s = pure r ∧ r.Canonical ∧ r.value = textValue neg digits := by
  obtain ⟨-, hdrop, hne, hdigits⟩ := (integerText_iff).mp h
  have hlt : digitsStart (trimmedText s) ≤ (trimmedText s).length := by
    by_contra hge
    rw [List.drop_eq_nil_of_le (by omega)] at hdrop
    exact hne hdrop.symm
  rw [parse_of_text h, toIntcs_of_le hlen]
  obtain ⟨hds, hval⟩ := parseLimbs_spec (t := trimmedText s) _ (trimmedText s).length hlt le_rfl
    (by rw [hdrop]; exact hdigits)
  have hslice : slice (trimmedText s) (digitsStart (trimmedText s)) (trimmedText s).length =
      digits := by
    rw [slice, hdrop, ← hdrop, List.take_of_length_le (by rw [List.length_drop])]
  rw [hslice] at hval
  generalize parseLimbs (trimmedText s) (digitsStart (trimmedText s)) (trimmedText s).length = m
    at hds hval ⊢
  have hm : (if m = [] then [0] else m) ≠ [] := by
    split
    · decide
    · assumption
  have hdsm : Digits base (if m = [] then [0] else m) := by
    split
    · exact Digits.cons_iff.mpr ⟨by decide, Digits.nil⟩
    · exact hds
  have hvalm : magnitude (if m = [] then [0] else m) = stoul digits := by
    split
    · rename_i hnil
      rw [hnil] at hval
      exact hval
    · exact hval
  obtain ⟨hcan, hvalue⟩ := trim_spec neg hm hdsm
  refine ⟨_, rfl, hcan, ?_⟩
  rw [hvalue, hvalm, textValue]

theorem parseLimbs_bound {start : ℕ} (hdigits : ∀ c ∈ t.drop start, isDigit c = true) :
    Nat.ofDigits base (parseLimbs t start (toIntcs t.length)) < 10 ^ (intcsMax - start) := by
  have hspec := toIntcs_spec t.length
  by_cases hle : toIntcs t.length ≤ start
  · rw [parseLimbs_of_le hle]
    exact Nat.one_le_pow' _ _
  · obtain ⟨i, hi⟩ : ∃ i : ℕ, toIntcs t.length = i := ⟨(toIntcs t.length).toNat, by omega⟩
    have hile : i ≤ t.length := by omega
    have hslice : ∀ c ∈ slice t start i, isDigit c = true := fun c hc => hdigits c (mem_slice hc)
    have hbound := stoul_lt hslice
    rw [length_slice hile] at hbound
    have hmax : i ≤ intcsMax := by
      unfold intcsMax
      omega
    rw [hi, (parseLimbs_spec start i (by omega) hile hdigits).2]
    exact hbound.trans_le (Nat.pow_le_pow_right (by decide) (Nat.sub_le_sub_right hmax start))

/-- What is parsed can be printed: its text is counted by an `int`. -/
theorem parse_bound {r : BigInteger} (h : parse s = pure r) : textLength r ≤ intcsMax := by
  by_cases htext : ∃ neg digits, IntegerText s neg digits
  · obtain ⟨neg, digits, htext⟩ := htext
    obtain ⟨hneg, hdrop, -, hdigits⟩ := (integerText_iff).mp htext
    rw [parse_of_text htext, Run.pure_inj] at h
    have hread := parseLimbs_bound (t := trimmedText s) (by rw [hdrop]; exact hdigits)
    generalize parseLimbs (trimmedText s) (digitsStart (trimmedText s))
      (toIntcs (trimmedText s).length) = m at h hread
    have hone : digitsStart (trimmedText s) ≤ 1 := by
      unfold digitsStart
      split <;> omega
    have hwidth : 0 < intcsMax - digitsStart (trimmedText s) := by
      unfold intcsMax
      omega
    have hmag : magnitude r.mag < 10 ^ (intcsMax - digitsStart (trimmedText s)) := by
      rw [← h]
      unfold trim
      rw [magnitude, ofDigits_popZeros]
      split
      · simp
      · exact hread
    -- a negative value was read behind its sign
    have hsign : r.negative = true → digitsStart (trimmedText s) = 1 := by grind [trim, digitsStart]
    have hlen := numeral_length_le (by decide) hwidth hmag
    unfold textLength
    cases hr : r.negative with
    | false =>
      simp
      omega
    | true =>
      grind
  · rw [parse_of_malformed htext] at h
    cases h

theorem tryParse_of_malformed (h : ¬ ∃ neg digits, IntegerText s neg digits) :
    tryParse s = (false, ⟨false, [0]⟩) := by
  unfold tryParse
  rw [parse_of_malformed h]
  rfl

theorem limbText_ne_nil (limb : ℕ) : limbText limb ≠ [] := by
  have h := numeral_length_pos 10 limb
  intro hnil
  rw [limbText, text, List.map_eq_nil_iff] at hnil
  rw [hnil] at h
  simp at h

theorem padded_limbText (limb : ℕ) :
    List.replicate (9 - (limbText limb).length) '0' ++ limbText limb = text (padded 10 9 limb) := by
  rw [limbText, length_text, padded, text, text, List.map_append, List.map_replicate]
  rfl

theorem toStringLoop_eq {mag : List ℕ} (h : Digits base mag) (i : ℕ) (hi : i ≤ mag.length) {v : ℕ}
    (hv : v = Nat.ofDigits base (mag.drop i)) (h0 : v ≠ 0) :
    toStringLoop mag i (text (numeral 10 v)) = text (numeral 10 (Nat.ofDigits base mag)) := by
  induction i generalizing v with
  | zero =>
    rw [hv, List.drop_zero]
    rfl
  | succ i ih =>
    have hlimb : mag.getD i 0 < 10 ^ 9 := h.getD_lt (by decide) i
    have hne : text (numeral 10 v) ≠ [] := limbText_ne_nil v
    have hdrop : mag.drop i = mag.getD i 0 :: mag.drop (i + 1) := by
      rw [List.drop_eq_getElem_cons (by omega), List.getD_eq_getElem _ _ (by omega)]
    have hnext : v * 10 ^ 9 + mag.getD i 0 = Nat.ofDigits base (mag.drop i) := by
      rw [hdrop, Nat.ofDigits_cons, ← hv, base_eq]
      ring
    rw [toStringLoop, if_neg hne, padded_limbText]
    have hjoin : text (numeral 10 v) ++ text (padded 10 9 (mag.getD i 0)) =
        text (numeral 10 (v * 10 ^ 9 + mag.getD i 0)) := by
      rw [← numeral_append_padded (by decide) h0 (by decide) hlimb, text, text, text,
        List.map_append]
    grind

variable {x : BigInteger}

theorem toStringLoop_magnitude (hx : x.Canonical) :
    toStringLoop x.mag x.mag.length [] = text (numeral 10 (magnitude x.mag)) := by
  obtain ⟨n, hn⟩ : ∃ n, x.mag.length = n + 1 :=
    ⟨x.mag.length - 1, by have := List.length_pos_of_ne_nil hx.numeral.ne_nil; omega⟩
  have htop : x.mag.drop n = [x.mag.getD n 0] := by
    rw [List.drop_eq_getElem_cons (by omega), List.drop_eq_nil_of_le (by omega),
      List.getD_eq_getElem _ _ (by omega)]
  rw [hn, toStringLoop, if_pos rfl]
  by_cases h0 : x.mag.getD n 0 = 0
  · -- only zero has a zero on top
    have hone : n = 0 := by
      by_contra hne
      apply hx.numeral.top_ne_zero (by omega)
      grind
    subst hone
    rw [List.drop_zero] at htop
    rw [magnitude, htop, Nat.ofDigits_singleton]
    rfl
  · exact toStringLoop_eq hx.numeral.digits n (by omega)
      (by rw [htop, Nat.ofDigits_singleton]) h0

theorem length_le_textLength (hx : x.Canonical) : 9 * x.mag.length ≤ textLength x + 8 := by
  have hlen := List.length_pos_of_ne_nil hx.numeral.ne_nil
  have hnum := numeral_length_pos 10 (magnitude x.mag)
  have hdigits : 9 * (x.mag.length - 1) < (numeral 10 (magnitude x.mag)).length ∨
      x.mag.length = 1 := by
    by_cases hone : 1 < x.mag.length
    · left
      have hlow := hx.numeral.pow_le_value one_lt_base hone
      have hhigh : value 10 (numeral 10 (magnitude x.mag)) <
          10 ^ (numeral 10 (magnitude x.mag)).length :=
        value_lt fun d hd => lt_of_mem_numeral (by decide) hd
      rw [value_numeral] at hhigh
      rw [base_eq, ← pow_mul] at hlow
      exact (Nat.pow_lt_pow_iff_right (by decide)).mp (hlow.trans_lt hhigh)
    · right
      omega
  unfold textLength
  omega

/-- The text of a canonical value is its sign and its numeral. -/
theorem toString_eq (hx : x.Canonical) (hlen : x.mag.length ≤ intcsMax) :
    x.toString = (if x.negative then ['-'] else []) ++ text (numeral 10 (magnitude x.mag)) := by
  unfold BigInteger.toString
  by_cases h0 : x.mag = [0]
  · have hneg := hx.zero_not_negative h0
    have hzero : x.getIsZeroProperty = true := decide_eq_true h0
    rw [hzero, if_pos rfl, hneg, h0, magnitude_zero]
    rfl
  · have hzero : x.getIsZeroProperty = false := decide_eq_false h0
    rw [hzero, toIntcs_of_le hlen, Int.toNat_natCast, toStringLoop_magnitude hx]
    cases x.negative <;> rfl

theorem integerText_toString (hx : x.Canonical) (hlen : x.mag.length ≤ intcsMax) :
    IntegerText x.toString x.negative (text (numeral 10 (magnitude x.mag))) := by
  have hds : ∀ d ∈ numeral 10 (magnitude x.mag), d < 10 :=
    fun d hd => lt_of_mem_numeral (by decide) hd
  refine ⟨[], if x.negative then ['-'] else [], [], ?_, by simp, by simp, ?_,
    limbText_ne_nil (magnitude x.mag), fun c hc => Scan.isDigit_of_mem_text hds hc⟩
  · rw [toString_eq hx hlen, List.append_nil, List.nil_append]
  · grind

theorem parse_toString_iff (hx : x.Canonical) :
    parse x.toString = pure x ↔ textLength x ≤ intcsMax := by
  constructor
  · exact parse_bound
  · intro hfits
    have hlimbs : x.mag.length ≤ intcsMax := by
      have := length_le_textLength hx
      omega
    have htext := integerText_toString hx hlimbs
    have hlength : x.toString.length = textLength x := by
      rw [toString_eq hx hlimbs, List.length_append, length_text, textLength]
      cases x.negative <;> rfl
    obtain ⟨r, hr, hcan, hval⟩ := parse_value htext
      ((trimmedText_length_le _).trans (hlength.trans_le hfits))
    have hds : ∀ d ∈ numeral 10 (magnitude x.mag), d < 10 :=
      fun d hd => lt_of_mem_numeral (by decide) hd
    have hsame : r = x := by
      apply hcan.ext hx
      rw [hval, textValue, stoul, Scan.map_charDigit_text hds, value_numeral]
      rfl
    rw [hr, hsame]

/-- **The text of a value.**  A canonical value comes back from its text exactly when that is
shorter than `2^31` characters.  A string of the grammar shorter than that is parsed to the value
of its digits; any other string is a format error, and leaves zero in the result of `tryParse`. -/
theorem textRoundTrip_iff {x : BigInteger} (hx : x.Canonical) (s : List Char) :
    (parse x.toString = pure x ↔ textLength x ≤ intcsMax) ∧
    (∀ neg digits, IntegerText s neg digits → s.length ≤ intcsMax →
      ∃ r, parse s = pure r ∧ r.Canonical ∧ r.value = textValue neg digits) ∧
    ((¬ ∃ neg digits, IntegerText s neg digits) →
      parse s = Run.throwing parseFault ∧ tryParse s = (false, ⟨false, [0]⟩)) := by
  refine ⟨parse_toString_iff hx, ?_, ?_⟩
  · intro neg digits htext hlen
    exact parse_value htext ((trimmedText_length_le s).trans hlen)
  · intro hno
    exact ⟨parse_of_malformed hno, tryParse_of_malformed hno⟩

/-- A value with an interior zero and a sign. -/
theorem textRoundTrip_interior :
    parse (⟨true, [5, 0, 7]⟩ : BigInteger).toString = pure ⟨true, [5, 0, 7]⟩ :=
  (textRoundTrip_iff (x := ⟨true, [5, 0, 7]⟩) (by decide) []).1.mpr (by decide)

def limbPower (n : ℕ) : BigInteger := ⟨false, List.replicate n 0 ++ [1]⟩

theorem limbPower_canonical (n : ℕ) : (limbPower n).Canonical := by
  refine ⟨⟨by simp [limbPower], ?_, ?_⟩, fun _ => rfl⟩
  · exact Digits.append_iff.mpr ⟨Digits.replicate_zero (by decide) n, by simp [base]⟩
  · intro _
    simp [limbPower]

theorem limbPower_lost {n : ℕ} (h : intcsMax ≤ 9 * n) :
    parse (limbPower n).toString ≠ pure (limbPower n) := by
  intro hback
  have hlen := length_le_textLength (limbPower_canonical n)
  have hmag : (limbPower n).mag.length = n + 1 := by simp [limbPower]
  have hfits := parse_bound hback
  omega

/-- The value `10^2147483655` is parsed back to another one. -/
theorem textRoundTrip_lost :
    (limbPower 238609295).Canonical ∧
      ¬ parse (limbPower 238609295).toString = pure (limbPower 238609295) :=
  ⟨limbPower_canonical _, limbPower_lost (by decide)⟩

end SharpRuntime.Analysis.BigIntegerText
