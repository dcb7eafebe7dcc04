import SharpRuntime.Analysis.DecimalParsing
import SharpRuntime.Analysis.DecimalRounding

/-!
# Round trips of `Decimal`s

`toString` writes the digits of the mantissa, with zeros so that one digit precedes the point
(Decimal.cpp:413-422); the parser keeps mantissa and scale (`parse_decimalToString`).  A currency
amount is divided by ten thousand and multiplied back, both exactly (`toOACurrency_fromOACurrency`).
-/

set_option autoImplicit false

namespace SharpRuntime.Analysis.DecimalText

open Machine Machine.Printed Model Model.Decimal
open DecimalShortening DecimalInvariant
open DecimalParsing DecimalRounding
open DecimalMultiplication DecimalDivision
open DecimalRemainder

theorem weight_le_next {r r' : Decimal.Reading} {c : Char} (h : r.next c = some r') :
    r.weight ≤ r'.weight := by
  have hgrow : ∀ (ds : List ℕ) (d : ℕ), Printed.value 10 ds ≤ Printed.value 10 (ds ++ [d]) := by
    intro ds d
    rw [value_concat]
    omega
  unfold Decimal.Reading.next at h
  split at h
  · split at h
    · cases h
    · cases h
      exact le_rfl
  split at h
  · split at h
    · cases h
    · cases h
      exact le_rfl
  split at h
  · cases h
    unfold Decimal.Reading.weight
    split
    · rcases Nat.lt_or_ge r.fraction.length 28 with hlt | hge
      · rw [List.take_of_length_le (by omega), List.take_of_length_le (by simp; omega),
          ← List.append_assoc]
        exact hgrow _ _
      · grind
    · grind [value_append]
  · cases h

theorem weight_le_of_prefix {q t : List Char} {r r' : Decimal.Reading} (hq : BodyText q r)
    (hp : BodyText (q ++ t) r') : r.weight ≤ r'.weight := by
  induction t using List.reverseRecOn generalizing r' with
  | nil =>
    rw [List.append_nil] at hp
    rw [hq.unique hp]
  | append_singleton t c ih =>
    rw [← List.append_assoc] at hp
    obtain ⟨a, ha, hnext⟩ := hp.of_concat
    exact (ih ha).trans (weight_le_next hnext)

theorem parse_exact {s : List Char} {neg : Bool} {r : Decimal.Reading} (h : NumberText s neg r)
    (hfrac : r.fraction.length ≤ 28) (hfit : r.digits ≤ maxMantissa) :
    parse s = pure ⟨r.digits, r.fraction.length, neg⟩ := by
  have hno : ¬ Overfull s := by
    rintro ⟨p, a, ⟨t, hp⟩, ha, hover⟩
    have hbody := (numberText_iff.mp h).2.1
    rw [← hp] at hbody
    have hle := weight_le_of_prefix ha hbody
    rw [weight_of_le hfrac] at hle
    omega
  rw [(parse_eq_finishScan hno h).1, finishScan_exact hfrac]

theorem u128strLoop_eq {fuel v : ℕ} (h : v < 10 ^ fuel) (s : List Char) :
    u128strLoop fuel v s = text (Nat.digits 10 v).reverse ++ s := by
  induction fuel generalizing v s with
  | zero =>
    obtain rfl : v = 0 := by omega
    rfl
  | succ fuel ih =>
    rw [u128strLoop]
    split
    · rename_i hpos
      rw [ih (by rw [pow_succ] at h; omega), Nat.digits_def' (by decide) hpos, List.reverse_cons,
        text, text, List.map_append, List.append_assoc]
      rfl
    · obtain rfl : v = 0 := by omega
      rfl

theorem u128str_eq {v : ℕ} (h : v ≤ maxMantissa) : u128str v = text (numeral 10 v) := by
  unfold u128str numeral
  split
  · rfl
  · have hlt : v < 10 ^ 39 := h.trans_lt (by decide)
    rw [u128strLoop_eq hlt, List.append_nil]

theorem padZeros_eq (scale v : ℕ) :
    padZeros scale (text (numeral 10 v)) = text (padded 10 (scale + 1) v) := by
  rw [padZeros, length_text, padded, text, text, List.map_append, List.map_replicate]
  rfl

theorem isDigit_text {ds : List ℕ} (h : ∀ d ∈ ds, d < 10) : ∀ c ∈ text ds, isDigit c = true :=
  fun _ hc => Scan.isDigit_of_mem_text h hc

theorem groupedText_text {ds : List ℕ} (h : ∀ d ∈ ds, d < 10) : GroupedText (text ds) ds := by
  have hdigit := isDigit_text h
  refine ⟨fun c hc => hdigit c (List.mem_of_mem_head? hc), fun c hc => Or.inl (hdigit c hc), ?_⟩
  rw [List.filter_eq_self.mpr hdigit, Scan.map_charDigit_text h]

theorem signText_sign (d : Decimal) :
    SignText (if d.negative && decide (d.mantissa ≠ 0) then ['-'] else [])
      (d.negative && decide (d.mantissa ≠ 0)) := by
  cases d.negative && decide (d.mantissa ≠ 0) with
  | false => exact Or.inl ⟨rfl, Or.inl rfl⟩
  | true => exact Or.inr ⟨rfl, rfl⟩

theorem numberText_toString {d : Decimal} (hd : d.Valid) :
    ∃ r, NumberText d.toString (d.negative && decide (d.mantissa ≠ 0)) r ∧
      r.digits = d.mantissa ∧ r.fraction.length = d.scale := by
  -- no white space around what is written
  have hwhole : ∀ {body : List Char} {r : Decimal.Reading}, BodyText body r →
      r.integer ++ r.fraction ≠ [] →
      NumberText ((if d.negative && decide (d.mantissa ≠ 0) then ['-'] else []) ++ body)
        (d.negative && decide (d.mantissa ≠ 0)) r := by
    intro body r hbody hne
    refine ⟨[], _, body, [], ?_, by simp, by simp, signText_sign d, hbody, hne⟩
    rw [List.append_nil, List.nil_append]
  unfold Decimal.toString
  dsimp only
  rw [u128str_eq hd.mantissa_le]
  split
  · rename_i h0
    have hds : ∀ e ∈ numeral 10 d.mantissa, e < 10 := fun e he => lt_of_mem_numeral (by decide) he
    have hne : numeral 10 d.mantissa ≠ [] :=
      List.ne_nil_of_length_pos (numeral_length_pos 10 d.mantissa)
    refine ⟨⟨false, numeral 10 d.mantissa, []⟩,
      hwhole ⟨_, groupedText_text hds, Or.inl ⟨rfl, rfl, rfl⟩⟩ (by rwa [List.append_nil]), ?_, h0.symm⟩
    rw [Decimal.Reading.digits, List.append_nil, value_numeral]
  · rw [padZeros_eq, length_text]
    have hds : ∀ e ∈ padded 10 (d.scale + 1) d.mantissa, e < 10 :=
      fun e he => lt_of_mem_padded (by decide) he
    have hlen : d.scale + 1 ≤ (padded 10 (d.scale + 1) d.mantissa).length := by
      simp [padded]
      omega
    have hval := value_padded 10 (d.scale + 1) d.mantissa
    generalize padded 10 (d.scale + 1) d.mantissa = ds at *
    have htake : ∀ e ∈ ds.take (ds.length - d.scale), e < 10 :=
      fun e he => hds e (List.mem_of_mem_take he)
    have hdrop : ∀ e ∈ ds.drop (ds.length - d.scale), e < 10 :=
      fun e he => hds e (List.mem_of_mem_drop he)
    have htext : ∀ n, (text ds).take n = text (ds.take n) ∧ (text ds).drop n = text (ds.drop n) :=
      fun n => ⟨List.map_take.symm, List.map_drop.symm⟩
    rw [(htext _).1, (htext _).2]
    refine ⟨⟨true, ds.take (ds.length - d.scale), ds.drop (ds.length - d.scale)⟩,
      hwhole ⟨_, groupedText_text htake, Or.inr ⟨rfl, _, rfl, isDigit_text hdrop, ?_⟩⟩ ?_, ?_, ?_⟩
    · rw [Scan.map_charDigit_text hdrop]
    · rw [List.take_append_drop]
      rintro rfl
      simp at hlen
    · rw [Decimal.Reading.digits, List.take_append_drop, hval]
    · grind

/-- Parsing undoes printing, up to the sign of zero. -/
theorem parse_decimalToString {d : Decimal} (hd : d.Valid) :
    parse d.toString = pure ⟨d.mantissa, d.scale, d.negative && decide (d.mantissa ≠ 0)⟩ := by
  obtain ⟨r, hr, hdigits, hlen⟩ := numberText_toString hd
  rw [parse_exact hr (hlen ▸ hd.scale_le) (hdigits ▸ hd.mantissa_le), hdigits, hlen]

variable (cy : Int64)

theorem ofLongLong_outcome :
    (ofLongLong cy).outcome = .returned ⟨cy.toInt.natAbs, 0, decide (cy.toInt < 0)⟩ := by
  have hle := natAbs_longLong cy
  unfold ofLongLong
  rw [ofSigned_outcome hle]
  unfold exactSigned
  split
  · rename_i hneg
    rw [decide_eq_true hneg]
    rfl
  · rename_i hneg
    have hmax := maxMantissa_lt
    unfold ofSigned magnitudeOf
    rw [if_neg hneg, Run.word_of_eq cy.toInt.natAbs (by omega) (by omega)]
    rfl

def unit : Decimal := ⟨10000, 0, false⟩

theorem ofLongLong_unit : ofLongLong 10000 = pure unit := rfl

variable {m : ℕ} {neg : Bool}

theorem natAbs_lt : cy.toInt.natAbs ≤ 2 ^ 63 := by
  have hlo := Int64.le_toInt cy
  have hhi := Int64.toInt_lt cy
  omega

theorem four_le_room (neg : Bool) (hm : m ≤ 2 ^ 63) :
    4 ≤ dividendRoom ⟨m, 0, neg⟩ unit ∧ dividendRoom ⟨m, 0, neg⟩ unit ≤ 28 := by
  obtain ⟨hle, -, hstop⟩ := headroom_spec maxMantissa (28 + 0 - 0) m
  refine ⟨?_, hle⟩
  change 4 ≤ headroom maxMantissa (28 + 0 - 0) m
  generalize headroom maxMantissa (28 + 0 - 0) m = k at *
  by_contra hlt
  have hroom := hstop (by omega)
  have hpow : 10 ^ k ≤ 10 ^ 3 := Nat.pow_le_pow_right (by decide) (by omega)
  have hmul : m * 10 ^ k * 10 ≤ 2 ^ 63 * 10 ^ 3 * 10 :=
    Nat.mul_le_mul_right _ (Nat.mul_le_mul hm hpow)
  exact absurd (hroom.trans_le hmul) (by decide)

theorem div_unit (neg : Bool) (hm : m ≤ 2 ^ 63) (h0 : m ≠ 0) :
    ∃ k, 4 ≤ k ∧ k ≤ 28 ∧ m * 10 ^ (k - 4) ≤ maxMantissa ∧
      (⟨m, 0, neg⟩ : Decimal).div unit = pure ⟨m * 10 ^ (k - 4), k, neg⟩ := by
  have hx : (⟨m, 0, neg⟩ : Decimal).Valid := ⟨hm.trans (by decide), Nat.zero_le _⟩
  have hy : unit.Valid := by decide
  obtain ⟨hlo, hhi⟩ := four_le_room neg hm
  have hdiv : dividend ⟨m, 0, neg⟩ unit =
      m * 10 ^ (dividendRoom ⟨m, 0, neg⟩ unit - 4) * 10000 := by
    have hsplit : dividendRoom ⟨m, 0, neg⟩ unit = dividendRoom ⟨m, 0, neg⟩ unit - 4 + 4 := by omega
    rw [dividend]
    conv_lhs => rw [hsplit, pow_add, ← Nat.mul_assoc]
    rfl
  have hquot : nearestDiv (dividend ⟨m, 0, neg⟩ unit) unit.mantissa =
      m * 10 ^ (dividendRoom ⟨m, 0, neg⟩ unit - 4) := by
    rw [hdiv]
    exact nearestDiv_mul _ (by decide)
  have hle := dividend_le (y := unit) hx
  refine ⟨dividendRoom ⟨m, 0, neg⟩ unit, hlo, hhi, ?_, ?_⟩
  · omega
  · rw [div_eq_of_le hx hy h0 (by decide) (Nat.zero_le _), hquot]
    simp [unit]

theorem round_unit {k : ℕ} (hk : 4 ≤ k) (hk28 : k ≤ 28) (hfit : m * 10 ^ (k - 4) ≤ maxMantissa)
    (h0 : m ≠ 0) :
    (⟨m * 10 ^ (k - 4), k, neg⟩ : Decimal).round 4 0 = pure ⟨m, 4, neg⟩ := by
  have haccepted : Accepted 4 0 .toEven := by decide
  have hplaces : places 4 = 4 := rfl
  rcases Nat.eq_or_lt_of_le hk with rfl | hlt
  · rw [round_of_le haccepted (by rw [hplaces]), Nat.sub_self, pow_zero, Nat.mul_one]
  · have hpos : 0 < 10 ^ (k - 4) := by positivity
    have hhalf : 0 < 10 ^ (k - 4) / 2 :=
      Nat.div_pos ((by decide : 2 ≤ 10).trans (Nat.le_self_pow (by omega) 10)) (by decide)
    have hunits : roundedUnits .toEven neg (m * 10 ^ (k - 4)) (10 ^ (k - 4)) = m := by
      have hdown : roundsUp .toEven neg (m * 10 ^ (k - 4) / 10 ^ (k - 4))
          (m * 10 ^ (k - 4) % 10 ^ (k - 4)) (10 ^ (k - 4) / 2) = false := by
        rw [Nat.mul_mod_left, roundsUp, if_neg (by omega), if_pos hhalf]
      unfold roundedUnits
      rw [hdown, if_neg (by decide), Nat.mul_div_cancel _ hpos]
    have hvalid : (⟨m * 10 ^ (k - 4), k, neg⟩ : Decimal).Valid := ⟨hfit, hk28⟩
    rw [round_of_lt haccepted hvalid hlt, hplaces]
    rw [hunits, decide_eq_true h0, Bool.and_true]

theorem mul_unit (hm : m ≤ 2 ^ 63) (h0 : m ≠ 0) :
    (⟨m, 4, neg⟩ : Decimal).mul unit = pure ⟨m * 10000, 4, neg⟩ := by
  have hx : (⟨m, 4, neg⟩ : Decimal).Valid := ⟨hm.trans (by decide), show 4 ≤ 28 by decide⟩
  have hfit : m * 10000 ≤ maxMantissa :=
    (Nat.mul_le_mul_right 10000 hm).trans (by decide)
  rw [mul_eq hx (by decide) h0 (by decide)]
  dsimp only [unit]
  rw [shorten_of_fits hfit (by decide)]
  simp

theorem toInt64_whole {cy : Int64} (hm : cy.toInt.natAbs = m) (hneg : decide (cy.toInt < 0) = neg)
    (h0 : m ≠ 0) : (⟨m * 10000, 4, neg⟩ : Decimal).toInt64 = pure cy := by
  have hlo := Int64.le_toInt cy
  have hhi := Int64.toInt_lt cy
  obtain ⟨n, hrun, hsign⟩ := truncate_eq ⟨m * 10000, 4, neg⟩
  have hquot : m * 10000 / 10 ^ 4 = m := Nat.mul_div_cancel m (by decide)
  rw [hquot] at hrun hsign
  obtain rfl := hsign h0
  unfold toInt64
  rw [hrun, pure_bind]
  dsimp only
  rw [if_neg (by omega)]
  cases hn : n with
  | true =>
    have hlt : cy.toInt < 0 := of_decide_eq_true (hneg.trans hn)
    rw [if_pos rfl, if_neg (by omega)]
    congr 1
    split
    · rename_i hmin
      rw [← Int64.toInt_inj]
      have : Int64.minValue.toInt = -2 ^ 63 := by decide
      omega
    · rename_i hmin
      rw [← Int64.toInt_inj, Int64.toInt_neg, Int64.toInt_ofNat_of_lt (by omega)]
      rw [Int.bmod_eq_of_le (by omega) (by omega)]
      omega
  | false =>
    have hge : ¬ cy.toInt < 0 := of_decide_eq_false (hneg.trans hn)
    rw [if_neg (by decide), if_neg (by omega)]
    congr 1
    rw [← Int64.toInt_inj, Int64.toInt_ofNat_of_lt (by omega)]
    omega

theorem currency_zero (neg : Bool) :
    (⟨0, 0, neg⟩ : Decimal).div unit = pure {} ∧ ({} : Decimal).toOACurrency = pure 0 := by
  constructor
  · cases neg <;> decide
  · decide

theorem toOACurrency_unit {k : ℕ} {cy : Int64} (hk : 4 ≤ k) (hk28 : k ≤ 28)
    (hfit : cy.toInt.natAbs * 10 ^ (k - 4) ≤ maxMantissa) (h0 : cy.toInt.natAbs ≠ 0) :
    (⟨cy.toInt.natAbs * 10 ^ (k - 4), k, decide (cy.toInt < 0)⟩ : Decimal).toOACurrency =
      pure cy := by
  unfold toOACurrency
  rw [round_unit hk hk28 hfit h0, pure_bind, ofLongLong_unit, pure_bind,
    mul_unit (natAbs_lt cy) h0, pure_bind, toInt64_whole rfl rfl h0]
  rfl

/-- Every currency comes back from its `Decimal`. -/
theorem toOACurrency_fromOACurrency :
    ∃ d, (fromOACurrency cy).outcome = .returned d ∧ d.toOACurrency = pure cy := by
  have hrun : (fromOACurrency cy).outcome =
      ((⟨cy.toInt.natAbs, 0, decide (cy.toInt < 0)⟩ : Decimal).div unit).outcome := by
    have hpure : (ofLongLong cy).outcome = (pure ⟨cy.toInt.natAbs, 0, decide (cy.toInt < 0)⟩ :
        Run Exception Decimal).outcome := ofLongLong_outcome cy
    exact Run.outcome_bind_congr hpure fun d => rfl
  rw [hrun]
  by_cases h0 : cy.toInt.natAbs = 0
  · obtain ⟨hdiv, hback⟩ := currency_zero (decide (cy.toInt < 0))
    have hcy : cy = 0 := by
      rw [← Int64.toInt_inj]
      exact Int.natAbs_eq_zero.mp h0
    rw [h0, hdiv]
    exact ⟨_, rfl, by rw [hback, hcy]⟩
  · obtain ⟨k, hlo, hhi, hfit, hdiv⟩ := div_unit (decide (cy.toInt < 0)) (natAbs_lt cy) h0
    rw [hdiv]
    exact ⟨_, rfl, toOACurrency_unit hlo hhi hfit h0⟩

/-- **Round trips.**  A valid `Decimal` is parsed back from its text with its mantissa and its
scale, and its sign where it is not zero; a currency amount is converted back to itself. -/
theorem roundTrips :
    (∀ d : Decimal, d.Valid → ∃ r, parse d.toString = pure r ∧ r.mantissa = d.mantissa ∧
      r.scale = d.scale ∧ (d.mantissa ≠ 0 → r.negative = d.negative)) ∧
    ∀ cy : Int64, ∃ d, (fromOACurrency cy).outcome = .returned d ∧ d.toOACurrency = pure cy := by
  refine ⟨fun d hd => ⟨_, parse_decimalToString hd, rfl, rfl, ?_⟩, toOACurrency_fromOACurrency⟩
  intro h0
  rw [decide_eq_true h0, Bool.and_true]

/-- The round trips at the largest mantissa with a full scale, negative, and at the least
amount. -/
theorem roundTrips_extreme :
    (∃ r, parse (⟨maxMantissa, 28, true⟩ : Decimal).toString = pure r ∧
        r.mantissa = maxMantissa ∧ r.scale = 28 ∧ r.negative = true) ∧
      ∃ d, (fromOACurrency Int64.minValue).outcome = .returned d ∧
        d.toOACurrency = pure Int64.minValue := by
  obtain ⟨htext, hcurrency⟩ := roundTrips
  obtain ⟨r, hr, hm, hs, hneg⟩ := htext ⟨maxMantissa, 28, true⟩ (by decide)
  exact ⟨⟨r, hr, hm, hs, hneg (by decide)⟩, hcurrency Int64.minValue⟩

end SharpRuntime.Analysis.DecimalText
