import SharpRuntime.Interface.DecimalText
import SharpRuntime.Machine.Scan
import SharpRuntime.Analysis.DecimalInvariant

/-!
# Parsing of `Decimal`s

The scanner keeps one mantissa for the digits up to the 28th after the point (Decimal.cpp:320-363),
so what it has read of a body is a function of the body's reading (`scanState`, `scanLoop_spec`).
The digits past the 28th round half to even, and a carry shortens the mantissa (`finishScan_fits`).
Early digits that a mantissa does not hold are refused before the value is known.
-/

set_option autoImplicit false

namespace SharpRuntime.Analysis.DecimalParsing

open Machine Machine.Printed Model Model.Decimal
open DecimalShortening DecimalInvariant

/-! ## The scanner's variables -/

def scanState (r : Decimal.Reading) : Scan where
  mantissa := r.weight
  scale := min r.fraction.length 28
  seenDot := r.pointed
  seenDigit := decide (r.integer ++ r.fraction ≠ [])
  roundDigit := r.fraction[28]?
  nonZeroTail := (r.fraction.drop 29).any fun d => decide (d ≠ 0)

theorem scanState_start : scanState {} = {} := rfl

theorem isDigit_iff (c : Char) : ('0' ≤ c ∧ c ≤ '9') ↔ isDigit c = true := by
  rw [isDigit, Bool.and_eq_true, decide_eq_true_eq, decide_eq_true_eq]
  exact Iff.rfl

variable {p : List Char} {r : Decimal.Reading}

theorem fraction_eq_nil (h : BodyText p r) (hp : r.pointed = false) : r.fraction = [] := by
  obtain ⟨l, -, ⟨-, -, hf⟩ | ⟨hp', -⟩⟩ := h
  · exact hf
  · rw [hp] at hp'
    cases hp'

theorem accumulate_digit (m : ℕ) {d : ℕ} (hd : d < 10) (s : Scan) {k : ℕ}
    (hk : k ≤ 28) (hs : (if s.seenDot then (s.scale : ℤ) + 1 else s.scale) = (k : ℕ))
    (hmant : s.mantissa = m) (hroom : ¬ (s.seenDot && decide (28 ≤ s.scale)) = true) :
    scanDigit s d = pure (if maxMantissa < m * 10 + d then .error .overflow
      else .ok { s with mantissa := m * 10 + d, scale := k, seenDigit := true }) := by
  have hmax := maxMantissa_lt
  unfold scanDigit
  rw [if_neg hroom, Run.word_of_eq k hs (by omega), pure_bind, hmant]
  by_cases hfull : maxMantissa / 10 < m
  · grind
  · rw [if_neg hfull, Run.word_of_eq (m * 10) (by push_cast; rfl) (by omega), pure_bind,
      Run.word_add (by omega), pure_bind]
    split
    · rfl
    · rfl

variable {d : ℕ}

variable {int : List ℕ}

theorem scanDigit_integer (hd : d < 10) :
    scanDigit (scanState ⟨false, int, []⟩) d =
      pure (if maxMantissa < (⟨false, int ++ [d], []⟩ : Decimal.Reading).weight then .error .overflow
        else .ok (scanState ⟨false, int ++ [d], []⟩)) := by
  have hweight : (⟨false, int ++ [d], []⟩ : Decimal.Reading).weight =
      (⟨false, int, []⟩ : Decimal.Reading).weight * 10 + d := by
    simp only [Decimal.Reading.weight, List.take_nil, List.append_nil]
    exact value_concat 10 d int
  rw [accumulate_digit (⟨false, int, []⟩ : Decimal.Reading).weight hd (scanState ⟨false, int, []⟩)
    (k := 0) (by omega) rfl rfl (by simp [scanState]), hweight]
  split
  · rfl
  · simp [scanState, hweight]

variable {frac : List ℕ}

theorem scanDigit_fraction (hd : d < 10) (hroom : frac.length < 28) :
    scanDigit (scanState ⟨true, int, frac⟩) d =
      pure (if maxMantissa < (⟨true, int, frac ++ [d]⟩ : Decimal.Reading).weight then .error .overflow
        else .ok (scanState ⟨true, int, frac ++ [d]⟩)) := by
  have hlen : (frac ++ [d]).length = frac.length + 1 := List.length_append
  have hweight : (⟨true, int, frac ++ [d]⟩ : Decimal.Reading).weight =
      (⟨true, int, frac⟩ : Decimal.Reading).weight * 10 + d := by
    simp only [Decimal.Reading.weight]
    rw [List.take_of_length_le (by omega), List.take_of_length_le (by omega), ← List.append_assoc]
    exact value_concat 10 d _
  rw [accumulate_digit (⟨true, int, frac⟩ : Decimal.Reading).weight hd
    (scanState ⟨true, int, frac⟩) (k := frac.length + 1) (by omega)
    (by simp only [scanState, if_true]; omega) rfl (by simp [scanState]; omega), hweight]
  split
  · rfl
  · -- nothing is dropped yet
    have h28 : (frac ++ [d])[28]? = none := List.getElem?_eq_none (by omega)
    have h28' : frac[28]? = none := List.getElem?_eq_none (by omega)
    have h29 : (frac ++ [d]).drop 29 = [] := List.drop_eq_nil_of_le (by omega)
    have h29' : frac.drop 29 = [] := List.drop_eq_nil_of_le (by omega)
    have hscale : min (frac.length + 1) 28 = frac.length + 1 := min_eq_left (by omega)
    simp only [scanState, hweight, h28, h28', h29, h29', hlen, hscale]
    simp

theorem scanDigit_dropped (int : List ℕ) (hfull : 28 ≤ frac.length) :
    scanDigit (scanState ⟨true, int, frac⟩) d = pure (.ok (scanState ⟨true, int, frac ++ [d]⟩)) ∧
      (⟨true, int, frac ++ [d]⟩ : Decimal.Reading).weight = (⟨true, int, frac⟩ : Decimal.Reading).weight := by
  have hlen : (frac ++ [d]).length = frac.length + 1 := List.length_append
  have hscale : min frac.length 28 = 28 := min_eq_right hfull
  have hscale' : min (frac.length + 1) 28 = 28 := min_eq_right (by omega)
  have hweight : (⟨true, int, frac ++ [d]⟩ : Decimal.Reading).weight =
      (⟨true, int, frac⟩ : Decimal.Reading).weight := by grind [Decimal.Reading.weight]
  refine ⟨?_, hweight⟩
  unfold scanDigit
  by_cases h28 : frac.length = 28
  · have hnone : frac[28]? = none := List.getElem?_eq_none (by omega)
    have hsome : (frac ++ [d])[28]? = some d := by grind
    have hdrop : (frac ++ [d]).drop 29 = [] := List.drop_eq_nil_of_le (by omega)
    have hdrop' : frac.drop 29 = [] := List.drop_eq_nil_of_le (by omega)
    simp only [scanState, hweight, hlen, hscale, hscale', hnone, hsome, hdrop, hdrop']
    simp
  · obtain ⟨e, he⟩ : ∃ e, frac[28]? = some e := ⟨_, List.getElem?_eq_getElem (by omega)⟩
    have hsome : (frac ++ [d])[28]? = some e := by
      rw [List.getElem?_append_left (by omega), he]
    have hdrop : (frac ++ [d]).drop 29 = frac.drop 29 ++ [d] :=
      List.drop_append_of_le_length (by omega)
    simp only [scanState, hweight, hlen, hscale, hscale', he, hsome, hdrop]
    simp

theorem scanChar_scanState (hr : BodyText p r) (hw : r.weight ≤ maxMantissa) (c : Char) :
    scanChar (scanState r) c =
      match r.next c with
      | none => pure (.error .malformed)
      | some r' => pure (if maxMantissa < r'.weight then .error .overflow
          else .ok (scanState r')) := by
  have hfrac := fraction_eq_nil hr
  obtain ⟨pointed, int, frac⟩ := r
  dsimp only at hfrac
  unfold scanChar Decimal.Reading.next
  dsimp only
  by_cases hpoint : c = '.'
  · rw [if_pos hpoint, if_pos hpoint]
    cases pointed with
    | true => rfl
    | false =>
      have hno : ¬ maxMantissa < (⟨true, int, frac⟩ : Decimal.Reading).weight := not_lt.mpr hw
      simp only [Bool.false_eq_true, if_false, if_neg hno]
      rfl
  rw [if_neg hpoint, if_neg hpoint]
  by_cases hcomma : c = ','
  · grind [scanState]
  rw [if_neg hcomma, if_neg hcomma]
  by_cases hdigit : isDigit c = true
  · rw [if_pos ((isDigit_iff c).mpr hdigit), if_pos hdigit]
    dsimp only
    have hd := charDigit_lt hdigit
    change scanDigit _ (charDigit c) = _
    cases pointed with
    | false =>
      obtain rfl := hfrac rfl
      exact scanDigit_integer hd
    | true =>
      rcases Nat.lt_or_ge frac.length 28 with hroom | hfull
      · exact scanDigit_fraction hd hroom
      · obtain ⟨hrun, hweight⟩ := scanDigit_dropped int (d := charDigit c) hfull
        grind
  · rw [if_neg fun h => hdigit ((isDigit_iff c).mp h), if_neg hdigit]

/-! ## The scan of a body -/

def Fits (p cs : List Char) : Prop :=
  ∀ q r, q <+: cs → BodyText (p ++ q) r → r.weight ≤ maxMantissa

/-- The loop overflows early, refuses what is no number, or holds the reading of the text. -/
theorem scanLoop_spec (cs : List Char) (hr : BodyText p r) (hw : r.weight ≤ maxMantissa) :
    (¬ Fits p cs ∧ scanLoop (scanState r) cs = pure (.error .overflow)) ∨
    (Fits p cs ∧ (¬ ∃ r', BodyText (p ++ cs) r') ∧
      scanLoop (scanState r) cs = pure (.error .malformed)) ∨
    (Fits p cs ∧ ∃ r', BodyText (p ++ cs) r' ∧
      scanLoop (scanState r) cs = pure (.ok (scanState r'))) := by
  induction cs generalizing p r with
  | nil =>
    refine Or.inr (Or.inr ⟨?_, r, by rwa [List.append_nil], rfl⟩)
    intro q r' hq hr'
    rw [List.prefix_nil.mp hq, List.append_nil] at hr'
    rw [hr'.unique hr]
    exact hw
  | cons c cs ih =>
    rw [scanLoop, scanChar_scanState hr hw c]
    cases hnext : r.next c with
    | none =>
      -- no body goes on with this character
      have hno : ∀ q r', ¬ BodyText (p ++ c :: q) r' := by
        intro q
        induction q using List.reverseRecOn with
        | nil =>
          intro r' hr'
          obtain ⟨a, ha, hstep⟩ := hr'.of_concat
          rw [ha.unique hr, hnext] at hstep
          cases hstep
        | append_singleton q e ihq =>
          intro r' hr'
          rw [← List.cons_append, ← List.append_assoc] at hr'
          obtain ⟨a, ha, -⟩ := hr'.of_concat
          exact ihq a ha
      refine Or.inr (Or.inl ⟨?_, fun hbody => hbody.elim (hno cs), rfl⟩)
      intro q r' hq hr'
      cases q with
      | nil =>
        rw [List.append_nil] at hr'
        rw [hr'.unique hr]
        exact hw
      | cons e q => grind
    | some r' =>
      have hr' := hr.concat hnext
      have hcons : ∀ q, p ++ c :: q = p ++ [c] ++ q := fun q => by
        rw [List.append_assoc, List.singleton_append]
      simp only [pure_bind]
      by_cases hover : maxMantissa < r'.weight
      · rw [if_pos hover]
        refine Or.inl ⟨fun hfits => ?_, rfl⟩
        exact not_lt.mpr (hfits [c] r' (List.cons_prefix_cons.mpr ⟨rfl, List.nil_prefix⟩) hr') hover
      · rw [if_neg hover]
        have hiff : Fits p (c :: cs) ↔ Fits (p ++ [c]) cs := by
          constructor
          · intro h q a hq ha
            exact h (c :: q) a (List.cons_prefix_cons.mpr ⟨rfl, hq⟩) (by rwa [hcons])
          · intro h q a hq ha
            cases q with
            | nil =>
              rw [List.append_nil] at ha
              rw [ha.unique hr]
              exact hw
            | cons e q =>
              obtain ⟨rfl, htail⟩ := List.cons_prefix_cons.mp hq
              exact h q a htail (by rwa [← hcons])
        grind

/-! ## The dropped digits -/

theorem BodyText.lt_ten (h : BodyText p r) : ∀ d ∈ r.integer ++ r.fraction, d < 10 := by
  obtain ⟨l, ⟨-, -, hint⟩, hcase⟩ := h
  intro d hd
  rcases List.mem_append.mp hd with hd | hd
  · grind [charDigit_lt]
  · grind [charDigit_lt]

theorem value_eq_zero_iff_any (ds : List ℕ) :
    Printed.value 10 ds = 0 ↔ (ds.any fun d => decide (d ≠ 0)) = false := by
  induction ds with
  | nil => simp
  | cons d ds ih =>
    simp [Printed.value_cons, ih]

theorem weight_of_le (h : r.fraction.length ≤ 28) : r.weight = r.digits := by
  rw [Decimal.Reading.weight, Decimal.Reading.digits, List.take_of_length_le h]

theorem digits_eq (r : Decimal.Reading) :
    r.digits = r.weight * 10 ^ (r.fraction.length - 28) +
      Printed.value 10 (r.fraction.drop 28) := by
  have hsplit : r.integer ++ r.fraction =
      (r.integer ++ r.fraction.take 28) ++ r.fraction.drop 28 := by
    rw [List.append_assoc, List.take_append_drop]
  rw [Decimal.Reading.digits, hsplit, value_append, List.length_drop]
  rfl

theorem scanRoundsUp_iff (hr : ∀ d ∈ r.fraction, d < 10) (h : 28 < r.fraction.length) :
    (if scanRoundsUp (scanState r) then r.weight + 1 else r.weight) =
      (if 2 * (r.digits % 10 ^ (r.fraction.length - 28)) < 10 ^ (r.fraction.length - 28) ∨
          (2 * (r.digits % 10 ^ (r.fraction.length - 28)) = 10 ^ (r.fraction.length - 28) ∧
            Even (r.digits / 10 ^ (r.fraction.length - 28)))
        then r.digits / 10 ^ (r.fraction.length - 28)
        else r.digits / 10 ^ (r.fraction.length - 28) + 1) := by
  obtain ⟨d, tail, hdrop⟩ : ∃ d tail, r.fraction.drop 28 = d :: tail := by
    cases hd : r.fraction.drop 28 with
    | nil =>
      rw [List.drop_eq_nil_iff] at hd
      omega
    | cons d tail => exact ⟨d, tail, rfl⟩
  have hmem : ∀ e ∈ d :: tail, e < 10 := by
    intro e he
    grind
  have hround : r.fraction[28]? = some d := by
    rw [← List.head?_drop, hdrop]
    rfl
  have htail : r.fraction.drop 29 = tail := by
    have := congrArg List.tail hdrop
    rwa [List.tail_drop] at this
  have hlen : tail.length + 1 = r.fraction.length - 28 := by
    grind
  have hlt : Printed.value 10 (d :: tail) < 10 ^ (tail.length + 1) := value_lt hmem
  have hdigits := digits_eq r
  rw [hdrop, ← hlen] at hdigits
  have hquot : r.digits / 10 ^ (tail.length + 1) = r.weight := by
    rw [hdigits, Nat.mul_comm, Nat.mul_add_div (by positivity), Nat.div_eq_of_lt hlt, Nat.add_zero]
  have hrem : r.digits % 10 ^ (tail.length + 1) = Printed.value 10 (d :: tail) := by
    rw [hdigits, Nat.mul_comm, Nat.mul_add_mod, Nat.mod_eq_of_lt hlt]
  rw [← hlen, hquot, hrem, Printed.value_cons]
  have hvt : Printed.value 10 tail < 10 ^ tail.length := value_lt fun e he => hmem e (by simp [he])
  have hzero := value_eq_zero_iff_any tail
  have hsplit : 10 ^ (tail.length + 1) = 10 * 10 ^ tail.length := by rw [pow_succ, Nat.mul_comm]
  have hup : scanRoundsUp (scanState r) = true ↔
      ¬ (2 * (d * 10 ^ tail.length + Printed.value 10 tail) < 10 ^ (tail.length + 1) ∨
        (2 * (d * 10 ^ tail.length + Printed.value 10 tail) = 10 ^ (tail.length + 1) ∧
          Even r.weight)) := by
    rw [hsplit, Nat.even_iff]
    simp only [scanRoundsUp, scanState, hround, htail]
    generalize 10 ^ tail.length = u at *
    rcases Nat.lt_trichotomy d 5 with h5 | rfl | h5
    · rw [if_neg (by omega), if_pos h5]
      have : d * u ≤ 4 * u := Nat.mul_le_mul_right u (by omega)
      simp only [Bool.false_eq_true, false_iff, not_not]
      left
      omega
    · grind
    · rw [if_pos h5]
      have : 6 * u ≤ d * u := Nat.mul_le_mul_right u (by omega)
      simp only [true_iff]
      omega
  by_cases hrounds : scanRoundsUp (scanState r) = true
  · rw [if_pos hrounds, if_neg (hup.mp hrounds)]
  · rw [if_neg hrounds, if_pos (not_not.mp fun h => hrounds (hup.mpr h))]

theorem finishScan_exact (h : r.fraction.length ≤ 28) (neg : Bool) :
    finishScan (scanState r) neg = pure ⟨r.digits, r.fraction.length, neg⟩ := by
  have hnone : (scanState r).roundDigit = none := List.getElem?_eq_none h
  have hup : scanRoundsUp (scanState r) = false := by
    unfold scanRoundsUp
    rw [hnone]
  have hscale : (scanState r).scale = r.fraction.length := min_eq_left h
  have hmant : (scanState r).mantissa = r.digits := weight_of_le h
  unfold finishScan
  rw [hup, hscale, hmant]
  rfl

theorem roundsPastMax_natCast {n : ℕ} (h : maxMantissa < n) : RoundsPastMax (n : ℚ) :=
  ⟨n, nearestEven_intCast (n : ℤ), by exact_mod_cast h⟩

theorem nearestFit_exact (h : r.fraction.length ≤ 28) (hw : r.digits ≤ maxMantissa) (neg : Bool) :
    NearestFit neg r.magnitude ⟨r.digits, r.fraction.length, neg⟩ := by
  obtain ⟨hle, hfit, hstop⟩ := headroom_spec maxMantissa (28 - r.fraction.length) r.digits
  have hfit := hfit hw
  generalize headroom maxMantissa (28 - r.fraction.length) r.digits = z at *
  -- the value in units of a scale it has digits for
  have hunits : ∀ j, r.magnitude * 10 ^ (r.fraction.length + j) = ((r.digits * 10 ^ j : ℕ) : ℚ) := by
    intro j
    rw [Decimal.Reading.magnitude, pow_add]
    push_cast
    field_simp
  refine ⟨⟨hw, h⟩, r.fraction.length + z, (r.digits * 10 ^ z : ℕ), by omega, ?_, ?_, ?_, ?_⟩
  · rw [hunits]
    exact nearestEven_intCast ((r.digits * 10 ^ z : ℕ) : ℤ)
  · exact_mod_cast hfit
  · intro k' hlt hk'
    obtain ⟨j, rfl⟩ : ∃ j, k' = r.fraction.length + j := ⟨k' - r.fraction.length, by omega⟩
    rw [hunits]
    apply roundsPastMax_natCast
    have hroom := hstop (by omega)
    calc maxMantissa < r.digits * 10 ^ z * 10 := hroom
      _ = r.digits * 10 ^ (z + 1) := by rw [pow_succ, Nat.mul_assoc]
      _ ≤ r.digits * 10 ^ j := Nat.mul_le_mul_left _ (Nat.pow_le_pow_right (by decide) (by omega))
  · rw [value_eq_withSign, div_pow_scale_up _ _ z]
    push_cast
    rfl

theorem nearestEven_carry {q : ℚ} (h : NearestEven q ((maxMantissa + 1 : ℕ) : ℤ)) :
    NearestEven (q / 10) (((maxMantissa + 6) / 10 : ℕ) : ℤ) := by
  have hle := abs_le.mp h.1
  have hmax : ((maxMantissa + 1 : ℕ) : ℤ) = 79228162514264337593543950336 := by decide
  rw [hmax] at hle
  have hnear : |q / 10 - ((7922816251426433759354395034 : ℕ) : ℤ)| < 1 / 2 := by
    rw [abs_lt]
    constructor <;> linarith
  exact ⟨hnear.le, fun htie => absurd htie hnear.ne⟩

theorem finishScan_rounded (hr : ∀ d ∈ r.fraction, d < 10)
    (hw : r.weight ≤ maxMantissa) (h : 28 < r.fraction.length) (neg : Bool) :
    ∃ d, finishScan (scanState r) neg = pure d ∧ NearestFit neg r.magnitude d := by
  have hmax := maxMantissa_lt
  have hscale : (scanState r).scale = 28 := min_eq_right h.le
  have hmant : (scanState r).mantissa = r.weight := rfl
  have hnear := nearestEven_div (K := ℚ) r.digits
    (show 0 < 10 ^ (r.fraction.length - 28) by positivity)
  rw [← scanRoundsUp_iff hr h] at hnear
  have hunits : (r.digits : ℚ) / (10 ^ (r.fraction.length - 28) : ℕ) = r.magnitude * 10 ^ 28 := by
    have hlen : r.fraction.length = 28 + (r.fraction.length - 28) := by omega
    rw [Decimal.Reading.magnitude]
    conv_rhs => rw [hlen, pow_add]
    push_cast
    field_simp
  rw [hunits] at hnear
  -- the mantissa that rounding leaves, when it fits
  have hfits : ∀ n : ℕ, NearestEven (r.magnitude * 10 ^ 28) (n : ℤ) → n ≤ maxMantissa →
      NearestFit neg r.magnitude ⟨n, 28, neg⟩ := by
    intro n hn hle
    refine ⟨⟨hle, le_rfl⟩, 28, n, le_rfl, hn, by exact_mod_cast hle, ?_, ?_⟩
    · intro k' hlt hk'
      omega
    · rw [value_eq_withSign, Int.cast_natCast]
  unfold finishScan
  rw [hscale, hmant]
  by_cases hup : scanRoundsUp (scanState r) = true
  · rw [if_pos hup] at hnear ⊢
    rw [Run.word_of_eq (r.weight + 1) (by push_cast; rfl) (by omega), pure_bind]
    by_cases hfull : maxMantissa < r.weight + 1
    · have hweight : r.weight = maxMantissa := by omega
      rw [hweight] at hnear ⊢
      have hvalid : (maxMantissa + 1 + 5) / 10 ≤ maxMantissa := by decide
      refine ⟨_, rfl, ⟨hvalid, show 27 ≤ 28 by decide⟩, 27, ((maxMantissa + 6) / 10 : ℕ),
        by decide, ?_, by decide, ?_, ?_⟩
      · have hcoarse : r.magnitude * 10 ^ 27 = r.magnitude * 10 ^ 28 / 10 := by ring
        rw [hcoarse]
        exact nearestEven_carry hnear
      · intro k' hlt hk'
        obtain rfl : k' = 28 := by omega
        exact ⟨_, hnear, by exact_mod_cast Nat.lt_succ_self maxMantissa⟩
      · rfl
    · grind
  · grind

/-- A complete reading gives the nearest `Decimal`. -/
theorem finishScan_fits (hr : BodyText p r) (hw : r.weight ≤ maxMantissa) (neg : Bool) :
    ∃ d, finishScan (scanState r) neg = pure d ∧ NearestFit neg r.magnitude d := by
  rcases Nat.lt_or_ge 28 r.fraction.length with h | h
  · exact finishScan_rounded (fun d hd => BodyText.lt_ten hr d (List.mem_append_right _ hd)) hw h neg
  · rw [weight_of_le h] at hw
    exact ⟨_, finishScan_exact h neg, nearestFit_exact h hw neg⟩

/-! ## The whole string -/

theorem BodyText.mem (h : BodyText p r) : ∀ c ∈ p, isDigit c = true ∨ c = ',' ∨ c = '.' := by
  obtain ⟨l, ⟨-, hmem, -⟩, ⟨-, rfl, -⟩ | ⟨-, t, rfl, ht, -⟩⟩ := h
  · exact fun c hc => (hmem c hc).imp_right Or.inl
  · grind

variable {c : Char}

theorem BodyText.plain (h : BodyText p r) (hc : c ∈ p) : isSpace c = false ∧ c ≠ '-' ∧ c ≠ '+' := by
  rcases BodyText.mem h c hc with hd | rfl | rfl
  · simp only [isDigit, Bool.and_eq_true, decide_eq_true_eq] at hd
    refine ⟨?_, ?_, ?_⟩
    · have hne : c ≠ ' ' := by rintro rfl; exact absurd hd.1 (by decide)
      grind [isSpace]
    · rintro rfl
      exact absurd hd.1 (by decide)
    · rintro rfl
      exact absurd hd.1 (by decide)
  · exact ⟨rfl, by decide, by decide⟩
  · exact ⟨rfl, by decide, by decide⟩

theorem ne_nil_of_digits (h : BodyText p r) (hne : r.integer ++ r.fraction ≠ []) : p ≠ [] := by
  rintro rfl
  rw [bodyText_nil_iff.mp h] at hne
  exact hne rfl

theorem takeSign_of_ne (s : List Char) (hminus : c ≠ '-') (hplus : c ≠ '+') :
    takeSign (c :: s) = (false, c :: s) := by
  unfold takeSign
  split
  · rename_i heq
    exact absurd (List.cons.inj heq).1 hminus
  · rename_i heq
    exact absurd (List.cons.inj heq).1 hplus
  · rfl

theorem takeSign_spec (s : List Char) :
    ∃ sign, s = sign ++ (takeSign s).2 ∧ SignText sign (takeSign s).1 := by
  unfold takeSign
  split
  · exact ⟨['-'], rfl, Or.inr ⟨rfl, rfl⟩⟩
  · exact ⟨['+'], rfl, Or.inl ⟨rfl, Or.inr rfl⟩⟩
  · exact ⟨[], rfl, Or.inl ⟨rfl, Or.inl rfl⟩⟩

variable {neg : Bool}

theorem takeSign_append {sign body : List Char}
    (hsign : SignText sign neg) (hbody : BodyText body r) (hne : body ≠ []) :
    takeSign (sign ++ body) = (neg, body) := by
  obtain ⟨rfl, rfl | rfl⟩ | ⟨rfl, rfl⟩ := hsign
  · obtain ⟨c, t, rfl⟩ := List.exists_cons_of_ne_nil hne
    obtain ⟨-, hminus, hplus⟩ := BodyText.plain hbody (List.mem_cons_self (a := c) (l := t))
    exact takeSign_of_ne t hminus hplus
  · rfl
  · rfl

variable {s : List Char}

theorem numberText_iff : NumberText s neg r ↔ (takeSign (trimSpace s)).1 = neg ∧
      BodyText (takeSign (trimSpace s)).2 r ∧ r.integer ++ r.fraction ≠ [] := by
  constructor
  · rintro ⟨lead, sign, body, trail, rfl, hlead, htrail, hsign, hbody, hne⟩
    have hbne := ne_nil_of_digits hbody hne
    have hcore : sign ++ body ≠ [] := fun h => hbne (List.append_eq_nil_iff.mp h).2
    have hplain : ∀ c ∈ sign ++ body, isSpace c = false := by
      intro c hc
      rcases List.mem_append.mp hc with hc | hc
      · obtain ⟨-, rfl | rfl⟩ | ⟨-, rfl⟩ := hsign
        · cases hc
        · rw [List.mem_singleton.mp hc]
          rfl
        · rw [List.mem_singleton.mp hc]
          rfl
      · exact (BodyText.plain hbody hc).1
    have htrim : trimSpace (lead ++ (sign ++ body ++ trail)) = sign ++ body :=
      Scan.dropWhile_rdropWhile hlead htrail
        (fun c hc => hplain c (List.mem_of_mem_head? hc))
        (fun c hc => hplain c (List.mem_of_mem_getLast? hc)) hcore
    rw [htrim, takeSign_append hsign hbody hbne]
    exact ⟨rfl, hbody, hne⟩
  · rintro ⟨rfl, hbody, hne⟩
    obtain ⟨lead, trail, hs, hlead, htrail⟩ := Scan.exists_append_trimmed isSpace s
    obtain ⟨sign, hsplit, hsign⟩ := takeSign_spec (trimSpace s)
    refine ⟨lead, sign, _, trail, ?_, hlead, htrail, hsign, hbody, hne⟩
    rw [← hsplit]
    exact hs

def bodyOf (s : List Char) : List Char := (takeSign (trimSpace s)).2

theorem overfull_iff (s : List Char) : Overfull s ↔ ¬ Fits [] (bodyOf s) := by
  unfold Overfull Fits
  push Not
  constructor
  · rintro ⟨p, r, hp, hr, hover⟩
    exact ⟨p, r, hp, hr, hover⟩
  · rintro ⟨p, r, hp, hr, hover⟩
    exact ⟨p, r, hp, hr, hover⟩

theorem tryParseCore_eq (s : List Char) (result : Decimal) :
    tryParseCore s result = (do
      match ← scanLoop {} (bodyOf s) with
      | .error e => pure (e, result)
      | .ok scan =>
        if !scan.seenDigit then pure (.malformed, result)
        else do
          let d ← finishScan scan (takeSign (trimSpace s)).1
          pure (.ok, d)) := by
  unfold tryParseCore bodyOf
  by_cases h : trimSpace s = []
  · rw [if_pos h, h]
    rfl
  · exact (if_neg h).trans rfl

theorem parse_of_overfull (h : Overfull s) : ThrewOverflow (parse s) := by
  rcases scanLoop_spec (bodyOf s) (bodyText_nil_iff.mpr rfl) (Nat.zero_le _) with
    ⟨-, hrun⟩ | ⟨hfits, -⟩ | ⟨hfits, -⟩
  · unfold parse
    rw [tryParseCore_eq, ← scanState_start, hrun]
    exact ⟨_, rfl⟩
  · exact absurd hfits ((overfull_iff s).mp h)
  · exact absurd hfits ((overfull_iff s).mp h)

theorem parse_eq_finishScan (h : ¬ Overfull s)
    (hr : NumberText s neg r) : parse s = finishScan (scanState r) neg ∧ r.weight ≤ maxMantissa := by
  obtain ⟨rfl, hbody, hne⟩ := numberText_iff.mp hr
  rw [overfull_iff, not_not] at h
  unfold parse
  rw [tryParseCore_eq, ← scanState_start]
  rcases scanLoop_spec (bodyOf s) (bodyText_nil_iff.mpr rfl) (Nat.zero_le _) with
    ⟨hno, -⟩ | ⟨-, hno, -⟩ | ⟨-, r', hr', hrun⟩
  · exact absurd h hno
  · exact absurd ⟨r, hbody⟩ hno
  · obtain rfl := hr'.unique hbody
    have hw : r'.weight ≤ maxMantissa := h _ r' List.prefix_rfl hr'
    have hseen : (scanState r').seenDigit = true := by simp [scanState, hne]
    obtain ⟨d, hd, -⟩ := finishScan_fits hr' hw (takeSign (trimSpace s)).1
    grind

theorem parse_of_malformed (h : ¬ Overfull s)
    (hno : ¬ ∃ neg r, NumberText s neg r) : ThrewFormat (parse s) := by
  rw [overfull_iff, not_not] at h
  unfold parse
  rw [tryParseCore_eq, ← scanState_start]
  rcases scanLoop_spec (bodyOf s) (bodyText_nil_iff.mpr rfl) (Nat.zero_le _) with
    ⟨hover, -⟩ | ⟨-, -, hrun⟩ | ⟨-, r, hr, hrun⟩
  · exact absurd h hover
  · rw [hrun]
    exact ⟨_, rfl⟩
  · by_cases hne : r.integer ++ r.fraction = []
    · have hseen : (scanState r).seenDigit = false := by simp [scanState, hne]
      rw [hrun]
      simp only [pure_bind, hseen, Bool.not_false, if_true]
      exact ⟨_, rfl⟩
    · exact absurd ⟨_, r, numberText_iff.mpr ⟨rfl, hr, hne⟩⟩ hno

theorem parsesByValue_of_threw (h : ThrewOverflow (parse s)) :
    ParsesByValue s ↔ ∃ neg r, NumberText s neg r ∧ RoundsPastMax r.magnitude := by
  obtain ⟨message, hthrew⟩ := h
  constructor
  · rintro ⟨hgrammar, hother⟩
    by_cases hnumber : ∃ neg r, NumberText s neg r
    · obtain ⟨neg, r, hr⟩ := hnumber
      rcases hgrammar neg r hr with ⟨-, hpast⟩ | ⟨d, hd, -⟩
      · exact ⟨neg, r, hr, hpast⟩
      · rw [hd] at hthrew
        cases hthrew
    · obtain ⟨message', hformat⟩ := hother hnumber
      rw [hthrew] at hformat
      cases hformat
  · rintro ⟨neg, r, hr, hpast⟩
    refine ⟨fun neg' r' hr' => Or.inl ⟨⟨message, hthrew⟩, ?_⟩, fun hno => absurd ⟨neg, r, hr⟩ hno⟩
    rw [(numberText_iff.mp hr').2.1.unique (numberText_iff.mp hr).2.1]
    exact hpast

/-- **Parsing by value.**  A string is read by its value exactly when the digits at its start, up
to the 28th one after the point, are no more than a mantissa holds, or the string denotes a
number that rounds past the largest mantissa. -/
theorem parsesByValue_iff (s : List Char) :
    ParsesByValue s ↔
      ¬ Overfull s ∨ ∃ neg r, NumberText s neg r ∧ RoundsPastMax r.magnitude := by
  by_cases h : Overfull s
  · rw [parsesByValue_of_threw (parse_of_overfull h)]
    simp only [h, not_true, false_or]
  · simp only [h, not_false_eq_true, true_or, iff_true]
    refine ⟨fun neg r hr => Or.inr ?_, parse_of_malformed h⟩
    obtain ⟨hrun, hw⟩ := parse_eq_finishScan h hr
    rw [hrun]
    exact finishScan_fits (numberText_iff.mp hr).2.1 hw neg

/-- Nine, with 28 zeros after the point, and too many digits in front of a letter: both are
reported as overflows. -/
theorem parsesByValue_overfull :
    ¬ ParsesByValue ('9' :: '.' :: List.replicate 28 '0') ∧
      ¬ ParsesByValue (List.replicate 30 '9' ++ ['x']) := by
  constructor
  · rw [parsesByValue_of_threw
      ⟨"Value was either too large or too small for a Decimal.", by decide⟩]
    rintro ⟨neg, r, hr, n, hn, hpast⟩
    have hbody := (numberText_iff.mp hr).2.1
    have hzeros : ∀ c ∈ List.replicate 28 '0', isDigit c = true := fun c hc => by
      rw [List.eq_of_mem_replicate hc]
      rfl
    have hnine : BodyText ('9' :: '.' :: List.replicate 28 '0') ⟨true, [9], List.replicate 28 0⟩ :=
      ⟨['9'], ⟨fun c hc => Option.mem_some_iff.mp hc ▸ rfl, List.forall_mem_singleton.mpr (Or.inl rfl),
        rfl⟩, Or.inr ⟨rfl, List.replicate 28 '0', rfl, hzeros, rfl⟩⟩
    rw [BodyText.unique hbody hnine] at hn
    have hdigits : (⟨true, [9], List.replicate 28 0⟩ : Decimal.Reading).digits = 9 * 10 ^ 28 := by decide
    have hmag : (⟨true, [9], List.replicate 28 0⟩ : Decimal.Reading).magnitude = ((9 : ℤ) : ℚ) := by
      rw [Decimal.Reading.magnitude, hdigits, List.length_replicate]
      norm_num
    rw [hmag] at hn
    rw [hn.unique (nearestEven_intCast 9)] at hpast
    exact absurd hpast (by decide)
  · rw [parsesByValue_of_threw
      ⟨"Value was either too large or too small for a Decimal.", by decide⟩]
    rintro ⟨neg, r, hr, -⟩
    have hbody := (numberText_iff.mp hr).2.1
    rcases BodyText.mem hbody 'x' (by decide) with h | h | h
    · exact absurd h (by decide)
    · exact absurd h (by decide)
    · exact absurd h (by decide)

end SharpRuntime.Analysis.DecimalParsing
