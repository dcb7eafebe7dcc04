import SharpRuntime.Interface.NumberGrammar

/-!
# The scan of digits and exponent

The scanner stores the significant digits of a number and counts where its decimal point is; zeros
wait until another digit makes them significant.  `Scanned` is what it knows after some digits: the
value of these, and the scale, with and without the pending zeros.  From it `foldScale_spec` decides
whether the number is a 64-bit integer.
-/

set_option autoImplicit false

namespace SharpRuntime.Analysis.NumberScan

open Machine Model Model.IntegerNumberStylesParser Interface

/-! ## Storing digits -/

/-- A magnitude and its overflow flag stand for a number: exactly, or as one that does not fit. -/
def Represents (sig magnitude : ℕ) (overflowed : Bool) : Prop :=
  if overflowed then 2 ^ 64 ≤ sig else magnitude = sig ∧ sig < 2 ^ 64

variable {sig d : ℕ}

theorem storeDigit_eq (scan : DigitScan) (hd : d < 10)
    (h : Represents sig scan.magnitude scan.overflowed) (hlo : 0 ≤ scan.digitsCount)
    (hhi : scan.digitsCount + 1 < 2 ^ 31) :
    ∃ m o, storeDigit d scan =
        pure { scan with digitsCount := scan.digitsCount + 1, magnitude := m, overflowed := o } ∧
      Represents (sig * 10 + d) m o := by
  have hmax : uint64Max = 18446744073709551615 := rfl
  rw [storeDigit, Run.signed_eq_pure (by decide) (by omega) (by omega), pure_bind]
  split
  case isTrue hbig => grind [Represents]
  case isFalse hsmall => grind [Represents]

theorem storeZeros_eq (k : ℕ) (scan : DigitScan)
    (h : Represents sig scan.magnitude scan.overflowed) (hlo : 0 ≤ scan.digitsCount)
    (hhi : scan.digitsCount + k < 2 ^ 31) :
    ∃ m o, storeZeros k scan =
        pure { scan with digitsCount := scan.digitsCount + k, magnitude := m, overflowed := o } ∧
      Represents (sig * 10 ^ k) m o := by
  induction k generalizing sig scan with
  | zero => exact ⟨scan.magnitude, scan.overflowed, by simp [storeZeros], by simpa using h⟩
  | succ k ih =>
    obtain ⟨m, o, hstore, hrep⟩ := storeDigit_eq scan (by decide : 0 < 10) h hlo (by omega)
    obtain ⟨m', o', hzeros, hrep'⟩ := ih
      { scan with digitsCount := scan.digitsCount + 1, magnitude := m, overflowed := o }
      (by simpa using hrep) (by simp only; omega) (by simp only; omega)
    refine ⟨m', o', ?_, ?_⟩
    · grind [storeZeros]
    · grind

/-! ## The digits of a number -/

/-- What the scanner knows after the digits `ds`, of which `f` stand behind the decimal point:
`sig` is the number its significant digits make. -/
structure Scanned (ds : List ℕ) (f sig : ℕ) (st : MantissaState) : Prop where
  value : Printed.value 10 ds = sig * 10 ^ st.pendingZeros.toNat
  represents : Represents sig st.scan.magnitude st.scan.overflowed
  any : st.scan.any = decide (ds ≠ [])
  nonzero : st.sawNonZero = decide (sig ≠ 0)
  zero : sig = 0 → st.scan.digitsCount = 0 ∧ st.pendingZeros = 0
  significant : sig ≠ 0 → sig % 10 ≠ 0 ∧ 1 ≤ st.scan.digitsCount ∧
    10 ^ (st.scan.digitsCount.toNat - 1) ≤ sig
  scale : st.scan.scale = st.scan.digitsCount + st.pendingZeros - f
  digitsCount_nonneg : 0 ≤ st.scan.digitsCount
  pendingZeros_nonneg : 0 ≤ st.pendingZeros
  length : st.scan.digitsCount + st.pendingZeros ≤ ds.length

theorem scanned_nil : Scanned [] 0 0 {} := by
  refine ⟨rfl, ?_, rfl, rfl, fun _ => ⟨rfl, rfl⟩, fun h => absurd rfl h, rfl, le_rfl, le_rfl, le_rfl⟩
  exact ⟨rfl, by decide⟩

/-- How many digits stand behind the decimal point after one more digit. -/
def fractionAfter (sawDecimal : Bool) (f : ℕ) : ℕ := if sawDecimal then f + 1 else f

variable {ds : List ℕ} {f : ℕ} {st : MantissaState}

theorem takeDigit_leadingZero (h : Scanned ds f 0 st) :
    ∃ st', takeDigit 0 st = pure st' ∧ st'.scan.sawDecimal = st.scan.sawDecimal ∧
      Scanned (ds ++ [0]) (fractionAfter st.scan.sawDecimal f) 0 st' := by
  have hnonzero : st.sawNonZero = false := by rw [h.nonzero]; rfl
  have hvalue : Printed.value 10 (ds ++ [0]) = 0 * 10 ^ st.pendingZeros.toNat := by
    rw [Printed.value_concat, h.value]
    simp
  have hany : decide (ds ++ [0] ≠ []) = true := by simp
  have hscale := h.scale
  obtain ⟨hcount, hpending⟩ := h.zero rfl
  unfold takeDigit fractionAfter
  simp only [hnonzero, Bool.false_eq_true, ne_eq, not_true_eq_false, or_self, if_false]
  split
  case isTrue hpoint =>
    refine ⟨_, rfl, rfl, ⟨hvalue, h.represents, hany.symm, rfl, fun _ => ⟨hcount, hpending⟩,
      fun hne => absurd rfl hne, ?_, h.digitsCount_nonneg, h.pendingZeros_nonneg, ?_⟩⟩
    · simp only
      omega
    · simp
      omega
  case isFalse hpoint =>
    refine ⟨_, rfl, rfl, ⟨hvalue, h.represents, hany.symm, rfl, fun _ => ⟨hcount, hpending⟩,
      fun hne => absurd rfl hne, hscale, h.digitsCount_nonneg, h.pendingZeros_nonneg, ?_⟩⟩
    simp
    omega

theorem scale_after {count pending scale : ℤ} (h : scale = count + pending - f)
    (sawDecimal : Bool) : (if sawDecimal then scale else scale + 1) =
      count + pending + 1 - fractionAfter sawDecimal f := by grind [fractionAfter]

theorem takeDigit_entered {st' : MantissaState} (hd : d ≠ 0 ∨ st.sawNonZero = true)
    (h : enterDigit d { st with scan := { st.scan with any := true } } = pure st')
    (hpoint : st'.scan.sawDecimal = st.scan.sawDecimal) (hscale : st'.scan.scale = st.scan.scale) :
    takeDigit d st = pure { st' with scan := { st'.scan with
      scale := if st.scan.sawDecimal then st.scan.scale else st.scan.scale + 1 } } := by
  unfold takeDigit
  rw [if_pos hd, h, pure_bind, ← hpoint, ← hscale]
  by_cases hs : st'.scan.sawDecimal = true
  · rw [if_pos hs, if_pos hs]
  · rw [if_neg hs, if_neg hs]

theorem takeDigit_zero (h : Scanned ds f sig st) (hsig : sig ≠ 0) (hlen : ds.length + 1 < 2 ^ 31) :
    ∃ st', takeDigit 0 st = pure st' ∧ st'.scan.sawDecimal = st.scan.sawDecimal ∧
      Scanned (ds ++ [0]) (fractionAfter st.scan.sawDecimal f) sig st' := by
  have hnonzero : st.sawNonZero = true := by rw [h.nonzero, decide_eq_true hsig]
  have hcount := h.digitsCount_nonneg
  have hpending := h.pendingZeros_nonneg
  have hlength := h.length
  have henter : enterDigit 0 { st with scan := { st.scan with any := true } } =
      pure { st with scan := { st.scan with any := true }, sawNonZero := true,
                     pendingZeros := st.pendingZeros + 1 } := by
    unfold enterDigit
    simp only [ne_eq, not_true_eq_false, if_false]
    rw [Run.signed_eq_pure (by decide) (by omega) (by omega), pure_bind]
  refine ⟨_, takeDigit_entered (Or.inr hnonzero) henter rfl rfl, rfl, ⟨?_, h.represents, ?_,
    (decide_eq_true hsig).symm, fun hz => absurd hz hsig, h.significant, ?_, hcount, ?_, ?_⟩⟩
  · have hsucc : (st.pendingZeros + 1).toNat = st.pendingZeros.toNat + 1 := by omega
    rw [Printed.value_concat, h.value, hsucc, pow_succ, Nat.add_zero, mul_assoc]
  · simp
  · simp only [scale_after h.scale]
    omega
  · simp only
    omega
  · simp
    omega

theorem takeDigit_nonzero (h : Scanned ds f sig st)
    (hd0 : d ≠ 0) (hd : d < 10) (hlen : ds.length + 1 < 2 ^ 31) :
    ∃ st', takeDigit d st = pure st' ∧ st'.scan.sawDecimal = st.scan.sawDecimal ∧
      Scanned (ds ++ [d]) (fractionAfter st.scan.sawDecimal f)
        (sig * 10 ^ st.pendingZeros.toNat * 10 + d) st' := by
  have hcount := h.digitsCount_nonneg
  have hpending := h.pendingZeros_nonneg
  have hlength := h.length
  obtain ⟨m, o, hzeros, hrep⟩ := storeZeros_eq st.pendingZeros.toNat
    { st.scan with any := true } h.represents hcount (by simp only; omega)
  obtain ⟨m', o', hdigit, hrep'⟩ := storeDigit_eq
    { st.scan with
      any := true
      digitsCount := st.scan.digitsCount + st.pendingZeros.toNat
      magnitude := m
      overflowed := o } hd hrep (by simp only; omega) (by simp only; omega)
  have henter : enterDigit d { st with scan := { st.scan with any := true } } =
      pure
        { scan := { st.scan with
            any := true
            digitsCount := st.scan.digitsCount + st.pendingZeros + 1
            magnitude := m'
            overflowed := o' }
          sawNonZero := true
          pendingZeros := 0 } := by grind [enterDigit]
  have hne : sig * 10 ^ st.pendingZeros.toNat * 10 + d ≠ 0 := by omega
  refine ⟨_, takeDigit_entered (Or.inl hd0) henter rfl rfl, rfl, ⟨?_, hrep', ?_,
    (decide_eq_true hne).symm, fun hz => absurd hz hne, fun _ => ⟨?_, ?_, ?_⟩, ?_, ?_, le_rfl, ?_⟩⟩
  · rw [Printed.value_concat, h.value, Int.toNat_zero, pow_zero, mul_one]
  · simp
  · omega
  · simp only
    omega
  · by_cases hsig : sig = 0
    · obtain ⟨hc, hp⟩ := h.zero hsig
      simp [hc, hp]
      omega
    · obtain ⟨-, hone, hsize⟩ := h.significant hsig
      have hexp : (st.scan.digitsCount + st.pendingZeros + 1).toNat - 1 =
          (st.scan.digitsCount.toNat - 1) + (st.pendingZeros.toNat + 1) := by omega
      rw [hexp, pow_add]
      calc 10 ^ (st.scan.digitsCount.toNat - 1) * 10 ^ (st.pendingZeros.toNat + 1)
          ≤ sig * 10 ^ (st.pendingZeros.toNat + 1) := Nat.mul_le_mul_right _ hsize
        _ = sig * 10 ^ st.pendingZeros.toNat * 10 := by rw [pow_succ, mul_assoc]
        _ ≤ sig * 10 ^ st.pendingZeros.toNat * 10 + d := Nat.le_add_right _ _
  · simp only [scale_after h.scale]
    omega
  · simp only
    omega
  · simp
    omega

theorem takeDigit_scanned (h : Scanned ds f sig st) (hd : d < 10) (hlen : ds.length + 1 < 2 ^ 31) :
    ∃ st' sig', takeDigit d st = pure st' ∧ st'.scan.sawDecimal = st.scan.sawDecimal ∧
      Scanned (ds ++ [d]) (fractionAfter st.scan.sawDecimal f) sig' st' := by
  by_cases hd0 : d = 0
  · rw [hd0]
    by_cases hsig : sig = 0
    · rw [hsig] at h
      obtain ⟨st', hst'⟩ := takeDigit_leadingZero h
      exact ⟨st', 0, hst'⟩
    · obtain ⟨st', hst'⟩ := takeDigit_zero h hsig hlen
      exact ⟨st', sig, hst'⟩
  · obtain ⟨st', hst'⟩ := takeDigit_nonzero h hd0 hd hlen
    exact ⟨st', _, hst'⟩

/-! ## The mantissa -/

variable {c : UInt8}

theorem digit_lt (h : isdigit c = true) : digit c < 10 := by
  simp only [isdigit, Bool.and_eq_true, decide_eq_true_eq, UInt8.le_iff_toNat_le] at h
  have h9 : '9'.toUInt8.toNat = 57 := rfl
  rw [digit]
  omega

theorem digitsOf_cons_digit (h : isdigit c = true) (bytes : List UInt8) :
    digitsOf (c :: bytes) = digit c :: digitsOf bytes := by grind [digitsOf]

theorem digitsOf_cons_other (h : isdigit c = false) (bytes : List UInt8) :
    digitsOf (c :: bytes) = digitsOf bytes := by grind [digitsOf]

theorem length_digitsOf (bytes : List UInt8) : (digitsOf bytes).length = bytes.countP isdigit := by
  rw [digitsOf, List.length_map, List.countP_eq_length_filter]

variable {bytes : List UInt8}

theorem digitsOf_of_all (h : ∀ c ∈ bytes, isdigit c = true) : digitsOf bytes = bytes.map digit := by
  rw [digitsOf, List.filter_eq_self.mpr h]

section Mantissa

variable {style : NumberStyles}

/-- A byte the scanner passes over: a digit, or a group separator in the whole part. -/
def Passes (style : NumberStyles) (sawDecimal : Bool) (c : UInt8) : Prop :=
  isdigit c = true ∨ (c = kGroupSeparator ∧ style.has .allowThousands = true ∧ sawDecimal = false)

variable {st : MantissaState}

theorem scanMantissa_bytes {bytes : List UInt8} {ds : List ℕ} {f sig : ℕ}
    (hbytes : ∀ c ∈ bytes, Passes style st.scan.sawDecimal c)
    (hhead : ds = [] → bytes.head? ≠ some kGroupSeparator) (h : Scanned ds f sig st)
    (hlen : ds.length + (digitsOf bytes).length < 2 ^ 31) (rest : List UInt8) :
    ∃ st' sig', scanMantissa style (bytes ++ rest) st = scanMantissa style rest st' ∧
      st'.scan.sawDecimal = st.scan.sawDecimal ∧
      Scanned (ds ++ digitsOf bytes)
        (if st.scan.sawDecimal then f + (digitsOf bytes).length else f) sig' st' := by
  induction bytes generalizing ds f sig st with
  | nil =>
    refine ⟨st, sig, rfl, rfl, ?_⟩
    simpa [digitsOf] using h
  | cons c bytes ih =>
    have htail : ∀ c ∈ bytes, Passes style st.scan.sawDecimal c :=
      fun c hc => hbytes c (List.mem_cons_of_mem _ hc)
    rw [List.cons_append, scanMantissa]
    by_cases hdigit : isdigit c = true
    · rw [digitsOf_cons_digit hdigit, List.length_cons] at hlen
      obtain ⟨st1, sig1, htake, hpoint, hscanned⟩ :=
        takeDigit_scanned h (digit_lt hdigit) (by omega)
      rw [if_pos hdigit, htake, pure_bind]
      obtain ⟨st', sig', hrun, hpoint', hscanned'⟩ := ih
        (by rw [hpoint]; exact htail) (fun hnil => absurd hnil (by simp)) hscanned
        (by rw [List.length_append, List.length_singleton]; omega)
      refine ⟨st', sig', hrun, hpoint'.trans hpoint, ?_⟩
      rw [hpoint] at hscanned'
      have hcount : (if st.scan.sawDecimal = true then
            fractionAfter st.scan.sawDecimal f + (digitsOf bytes).length
          else fractionAfter st.scan.sawDecimal f) =
          if st.scan.sawDecimal = true then f + (digitsOf (c :: bytes)).length else f := by
        unfold fractionAfter
        rw [digitsOf_cons_digit hdigit, List.length_cons]
        split <;> omega
      rw [hcount, List.append_assoc, List.singleton_append, ← digitsOf_cons_digit hdigit] at hscanned'
      exact hscanned'
    · rcases hbytes c List.mem_cons_self with hc | ⟨hc, hthousands, hpoint⟩
      · exact absurd hc hdigit
      · have hsome : ds ≠ [] := fun hnil => hhead hnil (by rw [hc]; rfl)
        have hany : st.scan.any = true := by rw [h.any, decide_eq_true hsome]
        have hother := digitsOf_cons_other (Bool.eq_false_iff.mpr hdigit) bytes
        rw [hother] at hlen ⊢
        rw [if_neg hdigit, if_neg (by rw [hc]; exact fun hand => absurd hand.2.2 (by decide)),
          if_pos ⟨hthousands, hany, by rw [hpoint]; rfl, hc⟩]
        exact ih htail (fun hnil => absurd hnil hsome) h hlen

/-- The scanner stops in front of what it does not take any more. -/
def Stops (style : NumberStyles) (any sawDecimal : Bool) (rest : List UInt8) : Prop :=
  ∀ c ∈ rest.head?, isdigit c = false ∧
    (c = kDecimalSeparator → style.has .allowDecimalPoint = true → sawDecimal = true) ∧
    (c = kGroupSeparator → style.has .allowThousands = true → any = true → sawDecimal = true)

variable {rest : List UInt8}

theorem scanMantissa_stops (h : Stops style st.scan.any st.scan.sawDecimal rest) :
    scanMantissa style rest st = pure (st, rest) := by
  cases rest with
  | nil => rfl
  | cons c rest =>
    obtain ⟨hdigit, hpoint, hgroup⟩ := h c rfl
    rw [scanMantissa, if_neg (by rw [hdigit]; decide), if_neg, if_neg]
    · rintro ⟨hthousands, hany, hsaw, hc⟩
      grind
    · rintro ⟨hallow, hsaw, hc⟩
      grind

/-- The parts of a mantissa that a style admits; there may be no digit at all. -/
structure Mantissa (style : NumberStyles) (whole : List UInt8) (fraction : Option (List UInt8)) :
    Prop where
  wholeBytes : ∀ c ∈ whole, isdigit c = true ∨ (c = kGroupSeparator ∧ style.has .allowThousands = true)
  wholeHead : whole.head? ≠ some kGroupSeparator
  fractionBytes : ∀ f ∈ fraction, style.has .allowDecimalPoint = true ∧ ∀ c ∈ f, isdigit c = true

theorem scanMantissa_text {whole : List UInt8} {fraction : Option (List UInt8)}
    (h : Mantissa style whole fraction)
    (hlen : (mantissaDigits whole fraction).length < 2 ^ 31)
    (hstops : Stops style (decide (mantissaDigits whole fraction ≠ [])) fraction.isSome rest) :
    ∃ st sig, scanMantissa style (whole ++ (pointText fraction ++ rest)) {} = pure (st, rest) ∧
      st.scan.sawDecimal = fraction.isSome ∧
      Scanned (mantissaDigits whole fraction) (fraction.getD []).length sig st := by
  unfold mantissaDigits at hlen hstops ⊢
  rw [List.length_append] at hlen
  obtain ⟨st, sig, hrun, hpoint, hscanned⟩ := scanMantissa_bytes
    (fun c hc => (h.wholeBytes c hc).imp_right fun ⟨hc, hthousands⟩ => ⟨hc, hthousands, rfl⟩ :
      ∀ c ∈ whole, Passes style ({} : MantissaState).scan.sawDecimal c)
    (fun _ => h.wholeHead) scanned_nil (by rw [List.length_nil]; omega) (pointText fraction ++ rest)
  rw [hrun]
  have hsaw : st.scan.sawDecimal = false := hpoint
  cases fraction with
  | none =>
    have hdigits : digitsOf whole ++ digitsOf ((none : Option (List UInt8)).getD []) =
        digitsOf whole := List.append_nil _
    rw [hdigits] at hstops ⊢
    refine ⟨st, sig, scanMantissa_stops ?_, hsaw, hscanned⟩
    rw [hscanned.any, hsaw]
    exact hstops
  | some bytes =>
    obtain ⟨hallow, hbytes⟩ := h.fractionBytes bytes rfl
    have hpart : pointText (some bytes) ++ rest = kDecimalSeparator :: (bytes ++ rest) := rfl
    rw [hpart, scanMantissa, if_neg (by decide), if_pos ⟨hallow, by rw [hsaw]; rfl, rfl⟩]
    have hscanned' : Scanned (digitsOf whole) 0 sig
        { st with scan := { st.scan with sawDecimal := true } } :=
      ⟨hscanned.value, hscanned.represents, hscanned.any, hscanned.nonzero, hscanned.zero,
        hscanned.significant, hscanned.scale, hscanned.digitsCount_nonneg,
        hscanned.pendingZeros_nonneg, hscanned.length⟩
    obtain ⟨st', sig', hrun', hpoint', hfinal⟩ := scanMantissa_bytes
      (fun c hc => Or.inl (hbytes c hc) : ∀ c ∈ bytes, Passes style _ c) (fun _ hhead => by
        cases bytes with
        | nil => cases hhead
        | cons c bytes =>
          have hc := hbytes c List.mem_cons_self
          rw [List.head?_cons, Option.some.injEq] at hhead
          rw [hhead] at hc
          cases hc)
      hscanned' (by simpa using hlen) rest
    have hlength : (digitsOf bytes).length = bytes.length := by
      rw [digitsOf_of_all hbytes, List.length_map]
    simp only [if_true, Nat.zero_add, hlength] at hfinal
    refine ⟨st', sig', ?_, hpoint', hfinal⟩
    rw [hrun']
    refine scanMantissa_stops ?_
    rw [hfinal.any, hpoint']
    exact hstops

theorem head_dropWhile {p : UInt8 → Bool} {s : List UInt8} :
    ∀ c ∈ (s.dropWhile p).head?, p c = false := by
  intro c hc
  have h := List.head?_dropWhile_not p s
  grind

theorem exists_whole (style : NumberStyles) (s : List UInt8) : ∃ whole rest, s = whole ++ rest ∧
    (∀ c ∈ whole, isdigit c = true ∨ (c = kGroupSeparator ∧ style.has .allowThousands = true)) ∧
    whole.head? ≠ some kGroupSeparator ∧
    ∀ c ∈ rest.head?, isdigit c = false ∧
      (c = kGroupSeparator → style.has .allowThousands = true → digitsOf whole = []) := by
  by_cases hfirst : ∃ c t, s = c :: t ∧ isdigit c = true
  · obtain ⟨c, t, rfl, hc⟩ := hfirst
    let passes : UInt8 → Bool := fun c =>
      isdigit c || (decide (c = kGroupSeparator) && style.has .allowThousands)
    have hpass : passes c = true := by simp [passes, hc]
    refine ⟨(c :: t).takeWhile passes, (c :: t).dropWhile passes,
      List.takeWhile_append_dropWhile.symm, fun d hd => ?_, ?_, fun d hd => ?_⟩
    · have hd' := List.mem_takeWhile_imp hd
      simpa [passes] using hd'
    · rw [List.takeWhile_cons_of_pos hpass, List.head?_cons]
      intro heq
      rw [Option.some.injEq] at heq
      rw [heq] at hc
      cases hc
    · grind [head_dropWhile]
  · refine ⟨[], s, rfl, fun _ hc => absurd hc List.not_mem_nil, (fun h => nomatch h),
      fun c hc => ⟨?_, fun _ _ => rfl⟩⟩
    cases s with
    | nil => cases hc
    | cons d t =>
      grind

theorem exists_mantissa (style : NumberStyles) (s : List UInt8) : ∃ whole fraction rest,
    s = whole ++ (pointText fraction ++ rest) ∧ Mantissa style whole fraction ∧
    Stops style (decide (mantissaDigits whole fraction ≠ [])) fraction.isSome rest := by
  obtain ⟨whole, r, rfl, hwhole, hhead, hr⟩ := exists_whole style s
  by_cases hpoint : style.has .allowDecimalPoint = true ∧ ∃ t, r = kDecimalSeparator :: t
  · obtain ⟨hallow, t, rfl⟩ := hpoint
    refine ⟨whole, some (t.takeWhile isdigit), t.dropWhile isdigit, ?_, ⟨hwhole, hhead, ?_⟩, ?_⟩
    · simp [pointText, List.takeWhile_append_dropWhile]
    · intro f hf
      rw [Option.mem_some_iff] at hf
      rw [← hf]
      exact ⟨hallow, fun c hc => List.mem_takeWhile_imp hc⟩
    · intro c hc
      exact ⟨head_dropWhile c hc, fun _ _ => rfl, fun _ _ _ => rfl⟩
  · refine ⟨whole, none, r, rfl, ⟨hwhole, hhead, fun f hf => nomatch hf⟩, fun c hc => ?_⟩
    obtain ⟨hdigit, hgroup⟩ := hr c hc
    refine ⟨hdigit, fun hdot hallow => ?_, fun hcomma hthousands hany => ?_⟩
    · refine absurd ⟨hallow, ?_⟩ hpoint
      cases r with
      | nil => cases hc
      | cons d t =>
        grind
    · rw [decide_eq_true_eq] at hany
      refine absurd ?_ hany
      rw [mantissaDigits, hgroup hcomma hthousands]
      rfl

end Mantissa

/-! ## The exponent -/

def NoDigitHead (rest : List UInt8) : Prop := ∀ c ∈ rest.head?, isdigit c = false

variable {rest : List UInt8}

theorem dropWhile_isdigit (h : ∀ c ∈ bytes, isdigit c = true)
    (hrest : NoDigitHead rest) : (bytes ++ rest).dropWhile isdigit = rest := by
  rw [List.dropWhile_append_of_pos h]
  cases rest with
  | nil => rfl
  | cons c rest => rw [List.dropWhile_cons_of_neg (by rw [hrest c rfl]; decide)]

theorem takeExponent_rest (h : ∀ c ∈ bytes, isdigit c = true)
    (hrest : NoDigitHead rest) (exponent scale : ℤ) :
    (takeExponent (bytes ++ rest) exponent scale).2.2 = rest := by
  induction bytes generalizing exponent scale with
  | nil =>
    cases rest with
    | nil => rfl
    | cons c rest =>
      rw [List.nil_append, takeExponent, if_neg (by rw [hrest c rfl]; decide)]
  | cons c bytes ih => grind [takeExponent, dropWhile_isdigit]

theorem takeExponent_short (h : ∀ c ∈ bytes, isdigit c = true)
    (hrest : NoDigitHead rest) {k exponent : ℕ} (hexponent : exponent < 10 ^ k)
    (hk : k + bytes.length ≤ 8) (scale : ℤ) :
    takeExponent (bytes ++ rest) exponent scale =
      ((Printed.accumulate 10 exponent (digitsOf bytes) : ℤ), scale, rest) := by
  induction bytes generalizing k exponent with
  | nil =>
    cases rest with
    | nil => rfl
    | cons c rest =>
      rw [List.nil_append, takeExponent, if_neg (by rw [hrest c rfl]; decide)]
      rfl
  | cons c bytes ih =>
    have hc := h c List.mem_cons_self
    rw [List.length_cons] at hk
    have hcap : exponent < 100000000 :=
      hexponent.trans_le ((Nat.pow_le_pow_right (by decide) (by omega : k ≤ 8)).trans (by decide))
    have hnext : exponent * 10 + digit c < 10 ^ (k + 1) := by
      have := digit_lt hc
      omega
    have hcast : (exponent : ℤ) * 10 + digit c = (exponent * 10 + digit c : ℕ) := by push_cast; rfl
    rw [List.cons_append, takeExponent, if_pos hc, if_neg (by omega), hcast,
      ih (fun d hd => h d (List.mem_cons_of_mem _ hd)) hnext (by omega), digitsOf_cons_digit hc]
    rfl

theorem isdigit_head (hne : bytes ≠ []) (h : ∀ c ∈ bytes, isdigit c = true)
    (rest : List UInt8) : ∃ c t, bytes ++ rest = c :: t ∧ isdigit c = true := by
  obtain ⟨c, t, rfl⟩ := List.exists_cons_of_ne_nil hne
  exact ⟨c, t ++ rest, rfl, h c List.mem_cons_self⟩

theorem takeExponentSign_text (sign : Option Bool) {digits : List UInt8} (hne : digits ≠ [])
    (h : ∀ c ∈ digits, isdigit c = true) (rest : List UInt8) :
    takeExponentSign (((sign.map fun negative => (Affix.sign negative).text).getD [] ++ digits) ++ rest) =
      (decide (sign = some true), digits ++ rest) := by
  cases sign with
  | none =>
    obtain ⟨c, t, hct, hc⟩ := isdigit_head hne h rest
    have hhead : ∀ d : UInt8, isdigit d = false → (digits ++ rest).head? ≠ some d := by
      intro d hd heq
      grind
    have hnone : ((none : Option Bool).map fun negative => (Affix.sign negative).text).getD [] ++ digits
        = digits := rfl
    rw [hnone, takeExponentSign, if_neg]
    · rfl
    · rintro (heq | heq)
      · exact hhead _ (by decide) heq
      · exact hhead _ (by decide) heq
  | some negative => cases negative <;> rfl

theorem scanExponent_text {e : Exponent} (h : e.WellFormed)
    (hrest : NoDigitHead rest) (scan : DigitScan) :
    ∃ scale, scanExponent scan (e.text ++ rest) = ({ scan with scale := scale }, rest) ∧
      (e.digits.length ≤ 8 → scale = scan.scale + e.value) := by
  have hletter : ¬ ((e.text ++ rest).head? ≠ some 'E'.toUInt8 ∧
      (e.text ++ rest).head? ≠ some 'e'.toUInt8) := by
    have hhead : (e.text ++ rest).head? = some e.letter := rfl
    rw [hhead]
    rintro ⟨hE, he⟩
    rcases h.letter with hl | hl
    · exact hE (by rw [hl])
    · exact he (by rw [hl])
  have hsign := takeExponentSign_text e.sign h.nonempty h.digits rest
  have htail : (e.text ++ rest).tail =
      ((e.sign.map fun negative => (Affix.sign negative).text).getD [] ++ e.digits) ++ rest := rfl
  have hdigit : (e.digits ++ rest).head?.any isdigit = true := by
    obtain ⟨c, t, hct, hc⟩ := isdigit_head h.nonempty h.digits rest
    rw [hct]
    exact hc
  have hend := takeExponent_rest h.digits hrest 0 scan.scale
  rw [scanExponent, if_neg hletter, htail, hsign]
  simp only [hdigit, Bool.not_true, Bool.false_eq_true, if_false]
  rw [hend]
  refine ⟨_, rfl, fun hshort => ?_⟩
  have htake := takeExponent_short h.digits hrest (by decide : 0 < 10 ^ 0)
    (by omega) scan.scale
  grind [Exponent.value, Printed.value]

theorem scanExponent_none (hE : rest.head? ≠ some 'E'.toUInt8)
    (he : rest.head? ≠ some 'e'.toUInt8) (scan : DigitScan) :
    scanExponent scan rest = (scan, rest) := by
  rw [scanExponent, if_pos ⟨hE, he⟩]

theorem exists_exponent (scan : DigitScan) (s : List UInt8) : ∃ (e : Option Exponent) (rest : List UInt8)
    (scale : ℤ), s = (e.map Exponent.text).getD [] ++ rest ∧ (∀ e' ∈ e, e'.WellFormed) ∧
      scanExponent scan s = ({ scan with scale := scale }, rest) := by
  have hnone : scanExponent scan s = (scan, s) → ∃ (e : Option Exponent) (rest : List UInt8)
      (scale : ℤ), s = (e.map Exponent.text).getD [] ++ rest ∧ (∀ e' ∈ e, e'.WellFormed) ∧
      scanExponent scan s = ({ scan with scale := scale }, rest) := fun h =>
    ⟨none, s, scan.scale, rfl, (fun e' he' => nomatch he'), h⟩
  by_cases hletter : s.head? ≠ some 'E'.toUInt8 ∧ s.head? ≠ some 'e'.toUInt8
  · exact hnone (by rw [scanExponent, if_pos hletter])
  obtain ⟨c, t, rfl, hc⟩ : ∃ c t, s = c :: t ∧ (c = 'E'.toUInt8 ∨ c = 'e'.toUInt8) := by
    cases s with
    | nil => exact absurd ⟨(fun h => nomatch h), (fun h => nomatch h)⟩ hletter
    | cons c t =>
      refine ⟨c, t, rfl, ?_⟩
      grind
  obtain ⟨sign, digits, ht, hsign⟩ : ∃ (sign : Option Bool) (digits : List UInt8),
      t = (sign.map fun negative => (Affix.sign negative).text).getD [] ++ digits ∧
      takeExponentSign t = (decide (sign = some true), digits) := by
    unfold takeExponentSign
    by_cases hplus : t.head? = some '+'.toUInt8
    · obtain ⟨r, rfl⟩ : ∃ r, t = '+'.toUInt8 :: r := List.head?_eq_some_iff.mp hplus
      exact ⟨some false, r, rfl, rfl⟩
    · by_cases hminus : t.head? = some '-'.toUInt8
      · obtain ⟨r, rfl⟩ : ∃ r, t = '-'.toUInt8 :: r := List.head?_eq_some_iff.mp hminus
        exact ⟨some true, r, rfl, rfl⟩
      · exact ⟨none, t, rfl, by rw [if_neg (by rintro (h | h); exacts [hplus h, hminus h])]; rfl⟩
  by_cases hdigit : digits.head?.any isdigit = true
  · have hsplit := (List.takeWhile_append_dropWhile (p := isdigit) (l := digits)).symm
    let e : Exponent := ⟨c, sign, digits.takeWhile isdigit⟩
    have hwf : e.WellFormed := by
      refine ⟨hc, ?_, fun d hd => List.mem_takeWhile_imp hd⟩
      cases digits with
      | nil => cases hdigit
      | cons d r =>
        have hd : isdigit d = true := hdigit
        simp [e, List.takeWhile_cons_of_pos hd]
    have htext : c :: t = e.text ++ digits.dropWhile isdigit := by grind [Exponent.text]
    obtain ⟨scale, hscale, -⟩ := scanExponent_text hwf
      (fun d hd => head_dropWhile d hd : NoDigitHead (digits.dropWhile isdigit)) scan
    refine ⟨some e, digits.dropWhile isdigit, scale, htext, fun e' he' => ?_, ?_⟩
    · grind
    · rw [htext]
      exact hscale
  · refine hnone ?_
    grind [scanExponent]

/-! ## Digits and exponent together -/

section Scan

variable {style : NumberStyles}

theorem length_mantissaDigits_le (whole : List UInt8) (fraction : Option (List UInt8))
    (rest : List UInt8) : (mantissaDigits whole fraction).length ≤
      (whole ++ (pointText fraction ++ rest)).countP isdigit := by
  have hfraction : (digitsOf (fraction.getD [])).length ≤ (pointText fraction).countP isdigit := by
    cases fraction with
    | none => exact Nat.zero_le _
    | some bytes =>
      rw [length_digitsOf]
      exact (List.sublist_cons_self kDecimalSeparator bytes).countP_le
  grind [mantissaDigits, length_digitsOf]

/-- A byte that ends a number: no digit, no separator and no letter of an exponent. -/
def EndsNumber (rest : List UInt8) : Prop :=
  ∀ c ∈ rest.head?, isdigit c = false ∧ c ≠ kDecimalSeparator ∧ c ≠ kGroupSeparator ∧
    c ≠ 'E'.toUInt8 ∧ c ≠ 'e'.toUInt8

variable {exponent : Option Exponent} {rest : List UInt8}

theorem stops_exponentText (hexponent : ∀ e ∈ exponent, e.WellFormed) (hrest : EndsNumber rest)
    (any sawDecimal : Bool) :
    Stops style any sawDecimal (exponentText exponent ++ rest) := by
  cases exponent with
  | none =>
    intro c hc
    obtain ⟨hdigit, hpoint, hgroup, -, -⟩ := hrest c hc
    exact ⟨hdigit, fun h => absurd h hpoint, fun h => absurd h hgroup⟩
  | some e =>
    intro c hc
    have hhead : (exponentText (some e) ++ rest).head? = some e.letter := rfl
    rw [hhead, Option.mem_some_iff] at hc
    rw [← hc]
    rcases (hexponent e rfl).letter with hl | hl <;> rw [hl] <;>
      exact ⟨by decide, fun h => absurd h (by decide), fun h => absurd h (by decide)⟩

theorem scanDigitsAndExponent_text {whole : List UInt8} {fraction : Option (List UInt8)}
    (hmantissa : Mantissa style whole fraction)
    (hexponent : ∀ e ∈ exponent, style.has .allowExponent = true ∧ e.WellFormed) (hrest : EndsNumber rest)
    (hne : mantissaDigits whole fraction ≠ []) (hlen : (mantissaDigits whole fraction).length < 2 ^ 31) :
    ∃ st sig E, scanDigitsAndExponent
        (whole ++ (pointText fraction ++ (exponentText exponent ++ rest))) style =
        pure ({ st.scan with scale := st.scan.scale + E }, rest) ∧
      st.scan.sawDecimal = fraction.isSome ∧
      Scanned (mantissaDigits whole fraction) (fraction.getD []).length sig st ∧
      ((exponent.map fun e => e.digits.length).getD 0 ≤ 8 →
        E = (exponent.map Exponent.value).getD 0) := by
  obtain ⟨st, sig, hrun, hpoint, hscanned⟩ := scanMantissa_text hmantissa hlen
    (stops_exponentText (fun e he => (hexponent e he).2) hrest _ _)
  have hany : st.scan.any = true := by rw [hscanned.any, decide_eq_true hne]
  cases exponent with
  | none =>
    refine ⟨st, sig, 0, ?_, hpoint, hscanned, fun _ => rfl⟩
    have hstay : scanExponent st.scan rest = (st.scan, rest) := by
      refine scanExponent_none ?_ ?_ st.scan
      · exact fun h => (hrest _ (Option.mem_def.mpr h)).2.2.2.1 rfl
      · exact fun h => (hrest _ (Option.mem_def.mpr h)).2.2.2.2 rfl
    have hnil : exponentText none ++ rest = rest := rfl
    rw [hnil] at hrun ⊢
    rw [scanDigitsAndExponent, hrun, pure_bind, add_zero]
    simp only [hstay, ite_self]
  | some e =>
    obtain ⟨hallow, hwf⟩ := hexponent e rfl
    obtain ⟨scale, hscan, hshort⟩ := scanExponent_text hwf
      (fun c hc => (hrest c hc).1 : NoDigitHead rest) st.scan
    have htext : exponentText (some e) ++ rest = e.text ++ rest := rfl
    refine ⟨st, sig, scale - st.scan.scale, ?_, hpoint, hscanned, fun hdigits => ?_⟩
    · grind [scanDigitsAndExponent]
    · grind

variable (style) in
theorem exists_scan {s : List UInt8} (hlen : s.countP isdigit < 2 ^ 31) :
    ∃ whole fraction exponent rest scan,
      s = whole ++ (pointText fraction ++ (exponentText exponent ++ rest)) ∧
      Mantissa style whole fraction ∧
      (∀ e ∈ exponent, style.has .allowExponent = true ∧ e.WellFormed) ∧
      scanDigitsAndExponent s style = pure (scan, rest) ∧
      scan.any = decide (mantissaDigits whole fraction ≠ []) := by
  obtain ⟨whole, fraction, rest, rfl, hmantissa, hstops⟩ := exists_mantissa style s
  have hcount := (length_mantissaDigits_le whole fraction rest).trans_lt hlen
  obtain ⟨st, sig, hrun, -, hscanned⟩ := scanMantissa_text hmantissa hcount hstops
  obtain ⟨exponent, rest', scale, hrest, hexponent, hscan⟩ := exists_exponent st.scan rest
  by_cases hstay : (!st.scan.any) = true ∨ (!style.has .allowExponent) = true
  · refine ⟨whole, fraction, none, rest, st.scan, rfl, hmantissa, (fun e he => nomatch he), ?_,
      hscanned.any⟩
    grind [scanDigitsAndExponent]
  · refine ⟨whole, fraction, exponent, rest', { st.scan with scale := scale }, ?_, hmantissa,
      fun e he => ⟨?_, hexponent e he⟩,
      ?_, hscanned.any⟩
    · rw [exponentText, ← hrest]
    · grind
    · grind [scanDigitsAndExponent]

end Scan

/-! ## Folding the scale -/

theorem foldZeros_eq (k : ℕ) {m : ℕ} (hm : m < 2 ^ 64) :
    foldZeros k m = if m * 10 ^ k < 2 ^ 64 then some (m * 10 ^ k) else none := by
  have hmax : uint64Max = 18446744073709551615 := rfl
  induction k generalizing m with
  | zero => rw [foldZeros, pow_zero, mul_one, if_pos hm]
  | succ k ih =>
    rw [foldZeros]
    split
    case isTrue hbig =>
      have hle : m * 10 ≤ m * 10 ^ (k + 1) :=
        Nat.mul_le_mul_left m (by rw [pow_succ]; exact Nat.le_mul_of_pos_left 10 (by positivity))
      rw [if_neg (by omega)]
    case isFalse hsmall =>
      have hpow : m * 10 ^ (k + 1) = m * 10 * 10 ^ k := by
        ring
      rw [ih (by omega), hpow]

variable {K : ℤ}

theorem not_integer (h : sig % 10 ≠ 0) (hK : K < 0) (m : ℕ) : (m : ℚ) ≠ sig * 10 ^ K := by
  obtain ⟨k, hk⟩ : ∃ k : ℕ, K = -((k + 1 : ℕ) : ℤ) := ⟨(-K - 1).toNat, by omega⟩
  intro heq
  rw [hk, zpow_neg, zpow_natCast, eq_mul_inv_iff_mul_eq₀ (by positivity)] at heq
  have hnat : m * 10 ^ (k + 1) = sig := by exact_mod_cast heq
  grind

theorem scaled_eq (sig : ℕ) (hK : 0 ≤ K) : (sig : ℚ) * 10 ^ K = ((sig * 10 ^ K.toNat : ℕ) : ℚ) := by
  obtain ⟨k, rfl⟩ := Int.eq_ofNat_of_zero_le hK
  push_cast
  rfl

/-- Folding the scale gives the integer the digits stand for, or none. -/
theorem foldScale_spec (h : Scanned ds f sig st)
    (E : ℤ) (negative : Bool) {q : ℚ} (hq : q = (Printed.value 10 ds : ℚ) * 10 ^ (E - f)) :
    match tryFoldScale (IntegerNumberStylesParser.normalize negative
        { st.scan with scale := st.scan.scale + E }).2 with
    | some m => m < 2 ^ 64 ∧ (m : ℚ) = q
    | none => ∀ m : ℕ, m < 2 ^ 64 → (m : ℚ) ≠ q := by
  have hrep := h.represents
  unfold Represents at hrep
  by_cases hsig : sig = 0
  · obtain ⟨hcount, -⟩ := h.zero hsig
    have hvalue : Printed.value 10 ds = 0 := by rw [h.value, hsig, Nat.zero_mul]
    have hover : st.scan.overflowed = false := by
      by_contra hover
      grind
    rw [hover, if_neg (by decide), hsig] at hrep
    rw [IntegerNumberStylesParser.normalize, if_pos hcount, tryFoldScale, hover, hcount, hrep.1]
    simp only [Bool.false_eq_true, if_false, kMaxSignificantScale, lt_self_iff_false, sub_self,
      Int.toNat_zero, foldZeros]
    simp [hq, hvalue]
  · obtain ⟨hlast, hone, hsize⟩ := h.significant hsig
    have hcount : st.scan.digitsCount ≠ 0 := by omega
    have hpending := h.pendingZeros_nonneg
    have hscale := h.scale
    -- the number is the significant digits, moved by what the scale exceeds their count by
    obtain ⟨K, hK⟩ : ∃ K, K = st.scan.scale + E - st.scan.digitsCount := ⟨_, rfl⟩
    have hqK : q = sig * 10 ^ K := by
      have hshift : K = (st.pendingZeros.toNat : ℤ) + (E - f) := by omega
      rw [hq, h.value, hshift, zpow_add₀ (by norm_num), zpow_natCast]
      push_cast
      ring
    have hbig : ∀ n : ℕ, 2 ^ 64 ≤ n → ∀ m : ℕ, m < 2 ^ 64 → (m : ℚ) ≠ (n : ℕ) := by
      intro n hn m hm heq
      have := Nat.cast_injective heq
      omega
    rw [IntegerNumberStylesParser.normalize, if_neg hcount, tryFoldScale]
    simp only [kMaxSignificantScale]
    by_cases hneg : K < 0
    · -- a digit behind the decimal point remains
      have hnone : (if st.scan.overflowed = true then none
          else if 20 < st.scan.scale + E then none
          else if st.scan.scale + E < st.scan.digitsCount then none
          else foldZeros (st.scan.scale + E - st.scan.digitsCount).toNat st.scan.magnitude) = none := by
        rw [if_pos (by omega : st.scan.scale + E < st.scan.digitsCount), ite_self, ite_self]
      rw [hnone]
      intro m _
      rw [hqK]
      exact not_integer hlast hneg m
    · rw [not_lt] at hneg
      have hqnat := hqK.trans (scaled_eq sig hneg)
      have hpow : 1 ≤ 10 ^ K.toNat := Nat.one_le_pow _ _ (by decide)
      by_cases hover : st.scan.overflowed = true
      · rw [if_pos hover] at hrep ⊢
        intro m hm
        rw [hqnat]
        exact hbig _ (hrep.trans (Nat.le_mul_of_pos_right _ hpow)) m hm
      · rw [if_neg hover] at hrep ⊢
        by_cases hlarge : 20 < st.scan.scale + E
        · rw [if_pos hlarge]
          intro m hm
          rw [hqnat]
          refine hbig _ ?_ m hm
          have hexp : 20 ≤ (st.scan.digitsCount.toNat - 1) + K.toNat := by omega
          calc 2 ^ 64 ≤ 10 ^ 20 := by norm_num
            _ ≤ 10 ^ ((st.scan.digitsCount.toNat - 1) + K.toNat) :=
              Nat.pow_le_pow_right (by decide) hexp
            _ = 10 ^ (st.scan.digitsCount.toNat - 1) * 10 ^ K.toNat := pow_add _ _ _
            _ ≤ sig * 10 ^ K.toNat := Nat.mul_le_mul_right _ hsize
        · rw [if_neg hlarge, if_neg (by omega), ← hK, hrep.1, foldZeros_eq _ hrep.2]
          by_cases hfits : sig * 10 ^ K.toNat < 2 ^ 64
          · grind
          · rw [if_neg hfits]
            intro m hm
            grind

end SharpRuntime.Analysis.NumberScan
