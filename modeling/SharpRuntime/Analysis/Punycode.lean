import SharpRuntime.Machine.Bootstring
import SharpRuntime.Machine.ScalarCode
import SharpRuntime.Model.IdnMapping

/-!
# Punycode comes back

The encoder writes the distances of a counter that visits the insertions of a label in order, and
the decoder moves the same counter by the distances it reads.  The bias of the thresholds follows
the distances on both sides, so the two stay in step.  A label of at most 63 code points keeps
every distance below `farthest`, and below it nothing overflows.
-/

set_option autoImplicit false

namespace SharpRuntime.Analysis.Punycode

open Machine Machine.Bootstring
open Model Model.IdnMapping

variable {n : ℕ}

theorem int32_eq (h : n ≤ intcsMax) : int32 n = pure n := by
  rw [int32, Run.observe_eq_pure h, pure_bind]

/-! ## The thresholds -/

variable (k start : ℕ)

theorem threshold_pos (bias : ℕ) : 0 < threshold k bias := by grind [threshold, tmin, tmax]

theorem threshold_le (bias : ℕ) : threshold k bias ≤ 26 := by grind [threshold, tmin, tmax]

variable {bias : ℕ}

theorem le_of_threshold {k : ℕ} (h : threshold k bias < 2) : k ≤ bias + 1 := by
  grind [threshold, tmin, tmax]

def thresholds (bias : ℕ) : Thresholds where
  base := base
  at' j := threshold (base * (j + 1)) bias
  pos j := threshold_pos _ bias
  lt j := Nat.lt_of_le_of_lt (threshold_le _ bias) (by decide)

theorem carry_mul_le (bias j q : ℕ) : (thresholds bias).carry j q * 10 ≤ q := by
  have hle := threshold_le (base * (j + 1)) bias
  have hmul := Nat.div_mul_le_self (q - threshold (base * (j + 1)) bias)
    (base - threshold (base * (j + 1)) bias)
  have hmono := Nat.mul_le_mul_left
    ((q - threshold (base * (j + 1)) bias) / (base - threshold (base * (j + 1)) bias))
    (show 10 ≤ base - threshold (base * (j + 1)) bias by
      have hbase : base = 36 := rfl
      omega)
  change (q - threshold (base * (j + 1)) bias) / (base - threshold (base * (j + 1)) bias) * 10 ≤ q
  omega

/-- Above every distance the coder counts for a label of at most 63 code points. -/
def farthest : ℕ := 0x110000 * 64

variable {j q : ℕ}

theorem place_lt (hq : 0 < q) (h : 10 ^ j * q ≤ farthest) : j < 8 := by
  by_contra hj
  have hpow : 10 ^ 8 ≤ 10 ^ j := Nat.pow_le_pow_right (by decide) (by omega)
  have hmul := Nat.mul_le_mul hpow hq
  have hfar : farthest < 10 ^ 8 * (0 + 1) := by decide
  omega

/-! ## The bias -/

/-- What the loop of `adapt` leaves of a distance, and what it adds to the bias. -/
def shrunk (delta : ℕ) : ℕ × ℕ :=
  if 455 < delta then ((shrunk (delta / 35)).1, (shrunk (delta / 35)).2 + 36) else (delta, 0)
termination_by delta
decreasing_by all_goals omega

def biasOf (delta numpoints : ℕ) (firsttime : Bool) : ℕ :=
  let delta := if firsttime then delta / damp else delta / 2
  let (delta, k) := shrunk (delta + delta / numpoints)
  k + 36 * delta / (delta + 38)

variable {delta : ℕ}

theorem adapt_loop {fuel : ℕ} (hfuel : delta ≤ fuel) (hk : k + (shrunk delta).2 ≤ intcsMax) :
    Run.whileLoop (fun p : ℕ × ℕ => decide ((base - tmin) * tmax / 2 < p.1)) shrink fuel (delta, k)
      = pure ((shrunk delta).1, k + (shrunk delta).2) := by
  induction fuel generalizing delta k with
  | zero =>
    obtain rfl : delta = 0 := by omega
    have hcond : ¬ (base - tmin) * tmax / 2 < 0 := by decide
    rw [Run.whileLoop_exit (p := fun p : ℕ × ℕ => _ < p.1) hcond, shrunk, if_neg (by decide)]
    rfl
  | succ fuel ih =>
    by_cases h : 455 < delta
    · have hsmall : delta / 35 ≤ fuel := by omega
      rw [shrunk, if_pos h] at hk ⊢
      have hsum : k + base + (shrunk (delta / 35)).2 ≤ intcsMax := by
        change k + ((shrunk (delta / 35)).2 + base) ≤ intcsMax at hk
        omega
      have hround : shrink (delta, k) = pure (delta / 35, k + base) := by
        rw [shrink]
        rw [int32_eq (by omega), pure_bind]
        rfl
      have hrest := ih (k + base) hsmall hsum
      rw [Run.whileLoop_enter (p := fun p : ℕ × ℕ => _ < p.1) h, hround, pure_bind]
      refine Eq.trans hrest ?_
      rw [Nat.add_assoc, Nat.add_comm base]
      rfl
    · rw [Run.whileLoop_exit (p := fun p : ℕ × ℕ => _ < p.1) h, shrunk, if_neg h]
      rfl

theorem shrunk_le (j : ℕ) (h : delta < 456 * 35 ^ j) :
    (shrunk delta).1 ≤ 455 ∧ (shrunk delta).2 ≤ 36 * j := by
  induction j generalizing delta with
  | zero =>
    rw [shrunk, if_neg (by omega)]
    exact ⟨by omega, Nat.zero_le _⟩
  | succ j ih => grind [shrunk]

theorem halved_le (delta numpoints : ℕ) (firsttime : Bool) :
    (if firsttime then delta / damp else delta / 2)
      + (if firsttime then delta / damp else delta / 2) / numpoints ≤ delta := by
  have hhalf : (if firsttime then delta / damp else delta / 2) ≤ delta / 2 := by grind [damp]
  have hdiv := Nat.div_le_self (if firsttime then delta / damp else delta / 2) numpoints
  omega

theorem skewed_le (j : ℕ) (h : delta < 456 * 35 ^ j) :
    (shrunk delta).2 + 36 * (shrunk delta).1 / ((shrunk delta).1 + 38) ≤ 36 * j + 36 := by
  obtain ⟨hfst, hsnd⟩ := shrunk_le j h
  have hquotient : 36 * (shrunk delta).1 / ((shrunk delta).1 + 38) ≤ 36 :=
    Nat.div_le_of_le_mul (by rw [Nat.mul_comm]; exact Nat.mul_le_mul_right 36 (by omega))
  omega

theorem adapt_eq (h : delta ≤ intcsMax) (numpoints : ℕ) (firsttime : Bool) :
    adapt delta numpoints firsttime = pure (biasOf delta numpoints firsttime) := by
  have hle := halved_le delta numpoints firsttime
  unfold adapt biasOf
  generalize (if firsttime then delta / damp else delta / 2) = d at hle ⊢
  have hint : intcsMax = 2147483647 := rfl
  have hsmall : d + d / numpoints < 456 * 35 ^ 5 := by omega
  obtain ⟨hfst, hsnd⟩ := shrunk_le 5 hsmall
  have hskewed := skewed_le 5 hsmall
  have hdividend : (base - tmin + 1) * (shrunk (d + d / numpoints)).1 ≤ intcsMax := by
    change 36 * _ ≤ _
    omega
  have hdivisor : (shrunk (d + d / numpoints)).1 + skew ≤ intcsMax := by
    change _ + 38 ≤ _
    omega
  have hsum : (shrunk (d + d / numpoints)).2 + (base - tmin + 1) * (shrunk (d + d / numpoints)).1
      / ((shrunk (d + d / numpoints)).1 + skew) ≤ intcsMax := by
    change (shrunk (d + d / numpoints)).2
      + 36 * (shrunk (d + d / numpoints)).1 / ((shrunk (d + d / numpoints)).1 + 38) ≤ intcsMax
    omega
  simp only []
  rw [int32_eq (by omega), pure_bind, adapt_loop 0 (Nat.le_refl _) (by omega), pure_bind,
    Nat.zero_add, int32_eq hdividend, pure_bind, int32_eq hdivisor, pure_bind, int32_eq hsum]
  rfl

theorem biasOf_le_of_lt (j : ℕ) (h : delta < 456 * 35 ^ j) (numpoints : ℕ)
    (firsttime : Bool) : biasOf delta numpoints firsttime ≤ 36 * j + 36 := by
  have hle := halved_le delta numpoints firsttime
  exact skewed_le j (Nat.lt_of_le_of_lt hle h)

theorem biasOf_le (h : delta ≤ farthest) (numpoints : ℕ) (firsttime : Bool) :
    biasOf delta numpoints firsttime ≤ 180 :=
  biasOf_le_of_lt 4 (Nat.lt_of_le_of_lt h (by decide)) numpoints firsttime

def punycode : Adaptive := ⟨thresholds, biasOf⟩

/-! ## Digits -/

variable {d : ℕ}

theorem decodeDigit_encodeDigit (h : d < 36) : decodeDigit (encodeDigit d) = pure d := by
  have hall : ∀ d < 36, decodeDigit (encodeDigit d) = pure d := by decide
  exact hall d h

theorem writeDelta_loop (bias fuel j : ℕ) (hfuel : q ≤ fuel) (hplace : 10 ^ j * q ≤ farthest)
    (out : List UInt8) :
    (do
      let (_, q, out) ← Run.whileLoop
        (fun p : ℕ × ℕ × List UInt8 => decide (threshold p.1 bias ≤ p.2.1))
        (fun (k, q, out) => do
          let t := threshold k bias
          let k ← int32 (k + base)
          pure (k, (q - t) / (base - t), out ++ [encodeDigit (t + (q - t) % (base - t))]))
        fuel (base * (j + 1), q, out)
      pure (out ++ [encodeDigit q]) : Run Exception (List UInt8))
      = pure (out ++ (digits (thresholds bias) j q).map encodeDigit) := by
  induction fuel generalizing j q out with
  | zero =>
    have hpos := threshold_pos (base * (j + 1)) bias
    have hlt : q < (thresholds bias).at' j := by
      change q < threshold (base * (j + 1)) bias
      omega
    rw [Run.whileLoop_exit (p := fun p : ℕ × ℕ × List UInt8 => threshold p.1 bias ≤ p.2.1)
      (Nat.not_le.mpr hlt), pure_bind, digits_of_lt hlt]
    rfl
  | succ fuel ih =>
    by_cases h : q < (thresholds bias).at' j
    · rw [Run.whileLoop_exit (p := fun p : ℕ × ℕ × List UInt8 => threshold p.1 bias ≤ p.2.1)
        (Nat.not_le.mpr h), pure_bind, digits_of_lt h]
      rfl
    · have hcond : threshold (base * (j + 1)) bias ≤ q := Nat.not_lt.mp h
      have hpos := threshold_pos (base * (j + 1)) bias
      have hj := place_lt (q := q) (Nat.lt_of_lt_of_le hpos hcond) hplace
      have hcarry := carry_mul_le bias j q
      have hless := (thresholds bias).carry_lt h
      have hnext : 10 ^ (j + 1) * (thresholds bias).carry j q ≤ farthest := by
        refine Nat.le_trans ?_ hplace
        rw [Nat.pow_succ, Nat.mul_assoc, Nat.mul_comm 10]
        exact Nat.mul_le_mul_left _ hcarry
      have hk : int32 (base * (j + 1) + base) = pure (base * (j + 1 + 1)) := by
        rw [int32_eq (by unfold base intcsMax; omega)]
        rfl
      rw [Run.whileLoop_enter (p := fun p : ℕ × ℕ × List UInt8 => threshold p.1 bias ≤ p.2.1) hcond]
      simp only [hk, pure_bind]
      have hrest := ih (j + 1) (q := (thresholds bias).carry j q) (by omega) hnext
        (out ++ [encodeDigit (threshold (base * (j + 1)) bias
          + (q - threshold (base * (j + 1)) bias) % (base - threshold (base * (j + 1)) bias))])
      rw [digits_of_le h, List.map_cons]
      refine Eq.trans hrest ?_
      rw [List.append_assoc]
      rfl

theorem writeDelta_eq (bias : ℕ) (h : delta ≤ farthest) (out : List UInt8) :
    writeDelta bias delta out
      = pure (out ++ (digits (thresholds bias) 0 delta).map encodeDigit) := by
  have hloop := writeDelta_loop bias delta 0 (Nat.le_refl delta)
    (by rw [Nat.pow_zero, Nat.one_mul]; exact h) out
  exact hloop

/-! ## Letters -/

variable {c : ℕ}

theorem asciiLower_of_le (h : initialN ≤ c) : asciiLower c = c := by
  unfold initialN at h
  rw [asciiLower, if_neg (by omega)]

theorem asciiLower_lt_iff (hn : initialN ≤ n) (c : ℕ) : asciiLower c < n ↔ c < n := by
  grind [initialN, asciiLower]

theorem asciiLower_eq_iff (hn : initialN ≤ n) (c : ℕ) : asciiLower c = n ↔ c = n := by
  grind [initialN, asciiLower]

theorem asciiLower_asciiLower (c : ℕ) : asciiLower (asciiLower c) = asciiLower c := by
  unfold asciiLower
  split
  case isTrue => rw [if_neg (by omega)]
  case isFalse => rfl

theorem scalar_asciiLower (h : Scalar c) : Scalar (asciiLower c) := by
  by_cases hlow : c < initialN
  · exact Or.inl (Nat.lt_trans ((asciiLower_lt_iff (Nat.le_refl initialN) c).mpr hlow) (by decide))
  · rw [asciiLower_of_le (Nat.not_lt.mp hlow)]
    exact h

variable {cs : List ℕ}

theorem scalar_map_asciiLower (h : ∀ c ∈ cs, Scalar c) : ∀ c ∈ cs.map asciiLower, Scalar c := by
  intro c hc
  obtain ⟨d, hd, rfl⟩ := List.mem_map.mp hc
  exact scalar_asciiLower (h d hd)

theorem below_map_asciiLower (hn : initialN ≤ n) (label : List ℕ) :
    below n (label.map asciiLower) = (below n label).map asciiLower := by
  rw [below, List.filter_map]
  congr 1
  exact List.filter_congr fun c _ => decide_eq_decide.mpr (asciiLower_lt_iff hn c)

/-! ## The encoder -/

theorem foldlM_encodeAt (numBasic n : ℕ) (cs : List ℕ) (e : Encoder)
    (h : e.delta + cs.length ≤ farthest) :
    cs.foldlM (encodeAt numBasic n) e = pure
      { out := e.out ++ (punycode.word numBasic e.bias e.processed (scan n e.delta cs).1).map
          encodeDigit
        delta := (scan n e.delta cs).2
        bias := punycode.biasAfter numBasic e.bias e.processed (scan n e.delta cs).1
        processed := e.processed + (scan n e.delta cs).1.length } := by
  have hfar : farthest < intcsMax := by decide
  induction cs generalizing e with
  | nil =>
    rw [List.foldlM_nil, scan, Adaptive.word, List.map_nil, List.append_nil]
    rfl
  | cons c cs ih =>
    rw [List.length_cons] at h
    rw [List.foldlM_cons]
    by_cases hlt : c < n
    · have hvisit : encodeAt numBasic n e c = pure { e with delta := e.delta + 1 } := by
        rw [encodeAt, if_pos hlt, int32_eq (by omega), pure_bind]
      rw [hvisit, pure_bind, ih _ (by change e.delta + 1 + cs.length ≤ farthest; omega), scan,
        if_pos hlt]
    · by_cases heq : c = n
      · have hvisit : encodeAt numBasic n e c = pure
            { out := e.out ++ (digits (thresholds e.bias) 0 e.delta).map encodeDigit
              delta := 0
              bias := biasOf e.delta (e.processed + 1) (e.processed == numBasic)
              processed := e.processed + 1 } := by
          rw [encodeAt, if_neg hlt, if_pos heq, writeDelta_eq e.bias (by omega), pure_bind,
            adapt_eq (by omega), pure_bind]
        rw [hvisit, pure_bind, ih _ (by change 0 + cs.length ≤ farthest; omega), scan, if_neg hlt,
          if_pos heq]
        congr 1
        rw [Encoder.mk.injEq]
        refine ⟨?_, rfl, rfl, ?_⟩
        · rw [Adaptive.word, List.map_append, ← List.append_assoc]
          rfl
        · simp
          omega
      · grind [encodeAt, scan]

theorem foldl_smallest (n : ℕ) (label : List ℕ) (m : ℕ) :
    let r := label.foldl (fun m c => if n ≤ c ∧ c < m then c else m) m
    r ≤ m ∧ (r = m ∨ r ∈ label ∧ n ≤ r) ∧ ∀ c ∈ label, n ≤ c → r ≤ c := by
  induction label generalizing m with
  | nil => exact ⟨Nat.le_refl m, Or.inl rfl, nofun⟩
  | cons c cs ih =>
    obtain ⟨hle, hfrom, hleast⟩ := ih (if n ≤ c ∧ c < m then c else m)
    rw [List.foldl_cons]
    generalize cs.foldl (fun m c => if n ≤ c ∧ c < m then c else m)
      (if n ≤ c ∧ c < m then c else m) = r at hle hfrom hleast ⊢
    refine ⟨?_, ?_, ?_⟩
    · grind
    · grind
    · grind

variable {label : List ℕ}

theorem smallest_spec (hlabel : ∀ c ∈ label, c < intcsMax) (h : ∃ c ∈ label, n ≤ c) :
    smallest n label ∈ label ∧ n ≤ smallest n label ∧
      ∀ c ∈ label, n ≤ c → smallest n label ≤ c := by
  obtain ⟨c, hc, hn⟩ := h
  obtain ⟨-, hfrom, hleast⟩ := foldl_smallest n label intcsMax
  rcases hfrom with heq | ⟨hmem, hle⟩
  · have hbound := hleast c hc hn
    have hlt := hlabel c hc
    omega
  · exact ⟨hmem, hle, hleast⟩

theorem le_smallest (hn : initialN ≤ n) (label : List ℕ) : initialN ≤ smallest n label := by
  rcases (foldl_smallest n label intcsMax).2.1 with heq | ⟨-, hle⟩
  · exact Nat.le_trans (by decide) (Nat.le_of_eq heq.symm)
  · exact Nat.le_trans hn hle

theorem smallest_map (hn : initialN ≤ n) (label : List ℕ) :
    smallest n (label.map asciiLower) = smallest n label := by
  rw [smallest, List.foldl_map]
  refine congrArg (fun f => List.foldl f intcsMax label) ?_
  funext m c
  by_cases hc : initialN ≤ c
  · rw [asciiLower_of_le hc]
  · have hlow := (asciiLower_lt_iff (Nat.le_refl initialN) c).mpr (Nat.not_le.mp hc)
    rw [if_neg (by omega), if_neg (by omega)]

variable {numBasic : ℕ}

theorem encodeAt_asciiLower (hn : initialN ≤ n) (e : Encoder) (c : ℕ) :
    encodeAt numBasic n e (asciiLower c) = encodeAt numBasic n e c := by
  simp only [encodeAt, asciiLower_lt_iff hn, asciiLower_eq_iff hn]

theorem encodeRound_map (hn : initialN ≤ n) (label : List ℕ) (numBasic : ℕ) (e : Encoder) :
    encodeRound (label.map asciiLower) numBasic (n, e) = encodeRound label numBasic (n, e) := by
  simp only [encodeRound, smallest_map hn, List.foldlM_map, encodeAt_asciiLower (le_smallest hn label)]

theorem le_of_encodeRound (hn : initialN ≤ n) {e : Encoder}
    {p : ℕ × Encoder} (h : (encodeRound label numBasic (n, e)).outcome = .returned p) :
    initialN ≤ p.1 := by
  obtain ⟨step, -, h⟩ := Run.outcome_bind_eq_returned h
  obtain ⟨delta, -, h⟩ := Run.outcome_bind_eq_returned h
  obtain ⟨e', -, h⟩ := Run.outcome_bind_eq_returned h
  obtain ⟨n', hn', h⟩ := Run.outcome_bind_eq_returned h
  cases h
  cases hn'
  exact Nat.le_succ_of_le (le_smallest hn label)

/-- **The case of the letters is lost.** -/
theorem encodeLabel_map (label : List ℕ) :
    encodeLabel (label.map asciiLower) = encodeLabel label := by
  have hbasic : ∀ label : List ℕ, label.filter isBasic = below initialN label := fun _ => rfl
  have hround : ∀ (numBasic inputLen : ℕ) (out : List UInt8),
      Run.whileLoop (fun p : ℕ × Encoder => decide (p.2.processed < inputLen))
          (encodeRound (label.map asciiLower) numBasic) inputLen
          (initialN, ⟨out, 0, initialBias, numBasic⟩)
        = Run.whileLoop (fun p : ℕ × Encoder => decide (p.2.processed < inputLen))
          (encodeRound label numBasic) inputLen (initialN, ⟨out, 0, initialBias, numBasic⟩) := by
    intro numBasic inputLen out
    refine Run.whileLoop_congr (I := fun p => initialN ≤ p.1) ?_ ?_ (Nat.le_refl initialN)
    · exact fun p hp => encodeRound_map hp label numBasic p.2
    · intro p p' hp h
      exact le_of_encodeRound hp h
  unfold encodeLabel
  simp only [hbasic, below_map_asciiLower (Nat.le_refl initialN), List.map_map, List.length_map,
    hround, Function.comp_def, asciiLower_asciiLower]

def Insertable (n : ℕ) : Prop := 0x80 ≤ n ∧ Scalar n

/-- The encoder has written the distances `ds`, which lead the counter to `s`, and goes on with the
values from `n` on. -/
structure Stands (label : List ℕ) (out : List UInt8) (n : ℕ) (e : Encoder) (ds : List ℕ)
    (s : Counter) : Prop where
  placed : Placed Insertable ⟨initialN, 0, below initialN label⟩ ds s
  sequence : s.sequence = below n label
  reached : s.reached + e.delta = n * (s.sequence.length + 1)
  processed : e.processed = s.sequence.length
  written : e.out = out ++ (punycode.word (below initialN label).length initialBias
    (below initialN label).length ds).map encodeDigit
  bias : e.bias = punycode.biasAfter (below initialN label).length initialBias
    (below initialN label).length ds

theorem below_eq {m : ℕ} (hle : n ≤ m) (h : ∀ c ∈ label, n ≤ c → m ≤ c) :
    below m label = below n label := by
  refine List.filter_congr fun c hc => ?_
  rw [decide_eq_decide]
  constructor
  · grind
  · intro hlt
    omega

theorem Scalar.lt_intcs (h : Scalar c) : c < intcsMax := by
  have hlt := h.lt
  unfold intcsMax
  omega

section Encode

variable {label : List ℕ} {out : List UInt8}

variable {n : ℕ} {e : Encoder} {ds : List ℕ} {s : Counter}

theorem Stands.complete
    (h : Stands label out n e ds s) (hdone : ¬ e.processed < label.length) : s.sequence = label := by
  rw [h.sequence]
  refine (List.filter_sublist).eq_of_length_le ?_
  rw [h.processed, h.sequence] at hdone
  exact Nat.not_lt.mp hdone

/-- One round of the encoder inserts the next code points, in order. -/
theorem encodeRound_eq (hscalar : ∀ c ∈ label, Scalar c) (hlength : label.length ≤ labelMax)
    (hn : initialN ≤ n)
    (h : Stands label out n e ds s) (hless : e.processed < label.length) :
    ∃ n' e' ds' s', encodeRound label (below initialN label).length (n, e) = pure (n', e') ∧
      initialN ≤ n' ∧ e.processed < e'.processed ∧ Stands label out n' e' ds' s' := by
  have hmore : ∃ c ∈ label, n ≤ c := by
    by_contra hnone
    push Not at hnone
    have hall : below n label = label :=
      List.filter_eq_self.mpr fun c hc => decide_eq_true (hnone c hc)
    have hproc := h.processed
    rw [h.sequence, hall] at hproc
    omega
  obtain ⟨hmem, hle, hleast⟩ :=
    smallest_spec (fun c hc => Scalar.lt_intcs (hscalar c hc)) hmore
  have hbelow := below_eq hle hleast
  have hm := (hscalar _ hmem).lt
  generalize hsmallest : smallest n label = m at hmem hle hleast hbelow hm
  -- the counter moves on to the first place of `m`
  have hlen : s.sequence.length < label.length := by rw [← h.processed]; exact hless
  have hstep : (m - n) * (e.processed + 1) + n * (s.sequence.length + 1)
      = m * (s.sequence.length + 1) := by
    rw [h.processed, ← Nat.add_mul, Nat.sub_add_cancel hle]
  have hbound : m * (s.sequence.length + 1) ≤ 0x10FFFF * 63 := by
    have hmax : labelMax = 63 := rfl
    exact Nat.mul_le_mul (by omega) (by omega)
  have hfar : 0x10FFFF * 63 + 64 ≤ farthest ∧ farthest < intcsMax := by decide
  have hreached := h.reached
  generalize hproduct : (m - n) * (e.processed + 1) = step at hstep
  have hfirst : s.reached + (e.delta + step)
      = m * (s.sequence.length + 1) + (below (m + 1) []).length := by
    change _ = _ + 0
    omega
  have hsequence : s.sequence = between m [] label := by
    rw [h.sequence, ← hbelow]
    rfl
  have hinsertable : Insertable m := ⟨Nat.le_trans hn hle, hscalar m hmem⟩
  obtain ⟨s', hplaced, hsequence', hreached'⟩ := placed_scan hinsertable hsequence hfirst
  have hlabel : label.length ≤ 64 := Nat.le_trans hlength (by decide)
  have hfold := foldlM_encodeAt (below initialN label).length m label
    { e with delta := e.delta + step }
    (by change e.delta + step + label.length ≤ farthest; omega)
  have hmlt : m + 1 ≤ intcsMax := by unfold intcsMax; omega
  have hsome := List.length_pos_iff.mpr (scan_ne_nil hmem (e.delta + step))
  have hgrown := hplaced.length
  generalize scan m (e.delta + step) label = r at hplaced hreached' hfold hsome hgrown
  have hle' : s'.sequence.length ≤ 63 := by
    rw [hsequence']
    exact Nat.le_trans (List.length_filter_le _ _) hlength
  have hbound' : m * (s'.sequence.length + 1) ≤ 0x10FFFF * 64 :=
    Nat.mul_le_mul (by omega) (by omega)
  have hlimit : 0x10FFFF * 64 + 64 < intcsMax := by decide
  have hround : encodeRound label (below initialN label).length (n, e) = pure (m + 1,
      { out := e.out ++ (punycode.word (below initialN label).length e.bias e.processed r.1).map
          encodeDigit
        delta := r.2 + 1
        bias := punycode.biasAfter (below initialN label).length e.bias e.processed r.1
        processed := e.processed + r.1.length }) := by
    have hnext : r.2 + 1 ≤ intcsMax := by omega
    simp only [encodeRound, hsmallest, hproduct]
    rw [int32_eq (by omega), pure_bind, int32_eq (by omega), pure_bind, hfold, pure_bind,
      int32_eq hnext, pure_bind, int32_eq hmlt, pure_bind]
  have hstart : (below initialN label).length + ds.length = e.processed := by
    rw [h.processed, h.placed.length]
  refine ⟨m + 1, _, ds ++ r.1, s', hround, by omega, by change e.processed < _ + _; omega, ?_⟩
  exact {
    placed := h.placed.append hplaced
    sequence := hsequence'
    reached := by
      rw [Nat.add_mul]
      change s'.reached + (r.2 + 1) = _
      omega
    processed := by
      rw [h.processed, hgrown]
    written := by grind [h.written, Adaptive.word_append, h.bias]
    bias := by
      rw [Adaptive.biasAfter_append, ← h.bias, hstart] }

theorem encodeRounds (hscalar : ∀ c ∈ label, Scalar c) (hlength : label.length ≤ labelMax)
    (fuel : ℕ) (hn : initialN ≤ n)
    (h : Stands label out n e ds s) (hfuel : label.length ≤ e.processed + fuel) :
    ∃ n' e' ds' s', Run.whileLoop (fun p : ℕ × Encoder => decide (p.2.processed < label.length))
        (encodeRound label (below initialN label).length) fuel (n, e) = pure (n', e') ∧
      Stands label out n' e' ds' s' ∧ s'.sequence = label := by
  induction fuel generalizing n e ds s with
  | zero =>
    have hdone : ¬ e.processed < label.length := by omega
    refine ⟨n, e, ds, s, Run.whileLoop_exit (p := fun p : ℕ × Encoder => p.2.processed < _) hdone,
      h, h.complete hdone⟩
  | succ fuel ih =>
    by_cases hless : e.processed < label.length
    · obtain ⟨n₁, e₁, ds₁, s₁, hround, hn₁, hmore, hstands⟩ :=
        encodeRound_eq hscalar hlength hn h hless
      rw [Run.whileLoop_enter (p := fun p : ℕ × Encoder => p.2.processed < _) hless, hround,
        pure_bind]
      exact ih hn₁ hstands (by omega)
    · refine ⟨n, e, ds, s, Run.whileLoop_exit (p := fun p : ℕ × Encoder => p.2.processed < _) hless,
        h, h.complete hless⟩

/-- What the encoder writes before the distances.
SOURCE: IdnMapping.cpp:119-131 -/
def basicPart (label : List ℕ) : List UInt8 :=
  let out := (below initialN label).map fun c => UInt8.ofNat (asciiLower c)
  if 0 < (below initialN label).length then out ++ [0x2D] else out

/-- **The encoder writes the distances of the counter that builds the label**, after the basic code
points. -/
theorem encodeLabel_eq (hscalar : ∀ c ∈ label, Scalar c) (hlength : label.length ≤ labelMax)
    (hsome : ∃ c ∈ label, initialN ≤ c) :
    ∃ ds s, encodeLabel label = pure (basicPart label
        ++ (punycode.word (below initialN label).length initialBias
          (below initialN label).length ds).map encodeDigit) ∧
      Placed Insertable ⟨initialN, 0, below initialN label⟩ ds s ∧ s.sequence = label ∧
      ds ≠ [] := by
  have hbasic : label.filter isBasic = below initialN label := rfl
  have hne : (below initialN label).length ≠ label.length := by
    intro heq
    obtain ⟨c, hc, hle⟩ := hsome
    have hall := List.length_filter_eq_length_iff.mp heq c hc
    have hlt := of_decide_eq_true hall
    omega
  have hint : label.length ≤ intcsMax := Nat.le_trans hlength (by decide)
  have hbegin : Stands label (basicPart label) initialN
      ⟨basicPart label, 0, initialBias, (below initialN label).length⟩ []
      ⟨initialN, 0, below initialN label⟩ := {
    placed := Placed.nil _
    sequence := rfl
    reached := rfl
    processed := rfl
    written := (List.append_nil _).symm
    bias := rfl }
  obtain ⟨n, e, ds, s, hloop, hstands, hdone⟩ := encodeRounds hscalar hlength label.length
    (Nat.le_refl _) hbegin (Nat.le_add_left _ _)
  have hsome' : ds ≠ [] := by
    rintro rfl
    have hcount := hstands.placed.length
    grind
  refine ⟨ds, s, ?_, hstands.placed, hdone, hsome'⟩
  unfold encodeLabel
  simp only [hbasic]
  rw [int32_eq hint, pure_bind, if_neg hne]
  refine Eq.trans (congrArg (· >>= fun p : ℕ × Encoder => pure p.2.out) hloop) ?_
  rw [pure_bind, hstands.written]

end Encode

/-! ## The decoder -/

variable {w : ℕ}

/-- The weight after a digit that is not the last fits an `int`: the digit is the threshold at
least, and while the threshold is 1 the weight has few factors. -/
theorem weight_fits (hbias : bias ≤ 180) (hw : w ≤ 35 ^ j)
    (hq : threshold (base * (j + 1)) bias ≤ q) (h : q * w ≤ farthest) :
    w * (base - threshold (base * (j + 1)) bias) ≤ intcsMax := by
  have hbase : base = 36 := rfl
  have hpos := threshold_pos (base * (j + 1)) bias
  by_cases hsmall : threshold (base * (j + 1)) bias < 2
  · have hk : 36 * (j + 1) ≤ bias + 1 := le_of_threshold hsmall
    have hw4 : w ≤ 35 ^ 4 := Nat.le_trans hw (Nat.pow_le_pow_right (by decide) (by omega))
    have hmul := Nat.mul_le_mul hw4
      (show base - threshold (base * (j + 1)) bias ≤ 35 by omega)
    exact Nat.le_trans hmul (by decide)
  · have htwo := Nat.mul_le_mul_right w (show 2 ≤ q by omega)
    have hmul := Nat.mul_le_mul_left w
      (show base - threshold (base * (j + 1)) bias ≤ 34 by omega)
    have hfar : 17 * farthest ≤ intcsMax := by decide
    omega

theorem readDelta_eq (hbias : bias ≤ 180) {i : ℕ} (hlow : 10 ^ j ≤ w)
    (hhigh : w ≤ 35 ^ j) (h : i + q * w ≤ farthest) (rest : List UInt8) :
    readDelta bias (base * (j + 1)) w i ((digits (thresholds bias) j q).map encodeDigit ++ rest)
      = pure (i + q * w, rest) := by
  have hbase : base = 36 := rfl
  have hfar : farthest < intcsMax := by decide
  have htop : bias + tmax ≤ intcsMax := by
    unfold tmax intcsMax
    omega
  induction q using Nat.strong_induction_on generalizing j w i with
  | _ q ih =>
    have hle := threshold_le (base * (j + 1)) bias
    by_cases hlast : q < threshold (base * (j + 1)) bias
    · rw [digits_of_lt hlast, List.map_singleton, List.singleton_append, readDelta,
        decodeDigit_encodeDigit (by omega), pure_bind, int32_eq (by omega), pure_bind,
        Run.observe_eq_pure htop, pure_bind]
      exact if_pos hlast
    · have hdigit := digit_lt (t := thresholds bias) (j := j) (q := q)
      have hsum := digit_add_carry (t := thresholds bias) hlast
      rw [digits_of_le hlast, List.map_cons, List.cons_append, readDelta,
        decodeDigit_encodeDigit hdigit, pure_bind]
      change _ + _ * (base - threshold (base * (j + 1)) bias) = q at hsum
      have hless := (thresholds bias).carry_lt hlast
      have hge : threshold (base * (j + 1)) bias ≤ (thresholds bias).at' j
          + (q - (thresholds bias).at' j) % ((thresholds bias).base - (thresholds bias).at' j) :=
        Nat.le_add_right _ _
      generalize (thresholds bias).at' j
        + (q - (thresholds bias).at' j) % ((thresholds bias).base - (thresholds bias).at' j) = d
        at hdigit hsum hge ⊢
      generalize hcarry : (thresholds bias).carry j q = c at hsum hless ⊢
      have hpos := threshold_pos (base * (j + 1)) bias
      have hfits := weight_fits hbias hhigh (Nat.not_lt.mp hlast) (by omega)
      have hplace : j < 8 := by
        refine place_lt (q := q) (by omega) (Nat.le_trans (Nat.mul_le_mul_right q hlow) ?_)
        rw [Nat.mul_comm]
        omega
      have htotal : i + d * w + c * (w * (base - threshold (base * (j + 1)) bias)) = i + q * w := by
        rw [← hsum]
        ring
      rw [int32_eq (by omega), pure_bind, Run.observe_eq_pure htop, pure_bind]
      simp only [if_neg (Nat.not_lt.mpr hge)]
      have hk : base * (j + 1) + base ≤ intcsMax := by
        unfold base intcsMax
        omega
      rw [int32_eq hfits, pure_bind, int32_eq hk, pure_bind]
      have hrest := ih c hless (j := j + 1) (i := i + d * w)
        (w := w * (base - threshold (base * (j + 1)) bias))
        (by rw [Nat.pow_succ]; exact Nat.mul_le_mul hlow (by omega))
        (by rw [Nat.pow_succ]; exact Nat.mul_le_mul hhigh (by omega)) (by omega)
      rw [htotal] at hrest
      exact hrest

variable {s : Counter}

theorem reach_le (hok : Insertable (s.move q).value)
    (hlength : s.sequence.length < labelMax) : s.place + q ≤ farthest := by
  have hmax : labelMax = 63 := rfl
  have hvalue : s.value + (s.place + q) / (s.sequence.length + 1) < 0x110000 := hok.2.lt
  have hlt : s.place + q < 0x110000 * (s.sequence.length + 1) :=
    (Nat.div_lt_iff_lt_mul (Nat.succ_pos _)).mp (Nat.lt_of_le_of_lt (Nat.le_add_left _ _) hvalue)
  have hdef : farthest = 0x110000 * 64 := rfl
  omega

theorem decodeNext_eq (hbias : bias ≤ 180)
    (hok : Insertable (s.move q).value) (hlength : s.sequence.length < labelMax)
    (rest : List UInt8) :
    decodeNext ⟨s.sequence, s.value, bias, s.place,
        (digits (thresholds bias) 0 q).map encodeDigit ++ rest⟩
      = pure ⟨(s.move q).sequence, (s.move q).value,
          biasOf q (s.sequence.length + 1) (s.place == 0), (s.move q).place, rest⟩ := by
  have hmax : labelMax = 63 := rfl
  have hint : intcsMax = 2147483647 := rfl
  have hfar : farthest < intcsMax := by decide
  have hreach := reach_le hok hlength
  have hread := readDelta_eq hbias (j := 0) (w := 1) (i := s.place) (q := q) (Nat.le_refl 1)
    (Nat.le_refl 1) (by omega) rest
  have hvalid : ¬ ((s.move q).value < 0x80 ∨ 0xD800 ≤ (s.move q).value ∧ (s.move q).value ≤ 0xDFFF ∨
      0x10FFFF < (s.move q).value) := by
    obtain ⟨hlow, hscalar⟩ := hok
    rw [scalar_iff] at hscalar
    omega
  have hn : s.value + (s.place + q) / (s.sequence.length + 1) = (s.move q).value := rfl
  have hplace : (s.place + q) % (s.sequence.length + 1) < s.sequence.length + 1 :=
    Nat.mod_lt _ (Nat.succ_pos _)
  unfold decodeNext
  rw [show base * (0 + 1) = base from rfl, Nat.mul_one] at hread
  rw [hread, pure_bind]
  simp only []
  rw [int32_eq (by omega), pure_bind, Nat.add_sub_cancel_left, adapt_eq (by omega), pure_bind,
    int32_eq (by omega), pure_bind, hn, if_neg hvalid, Run.observe_eq_pure (by omega), pure_bind,
    int32_eq (by omega), pure_bind]
  rfl

variable {ds : List ℕ}

variable {s' : Counter}

theorem decode_word (h : Placed Insertable s ds s')
    (hlength : s.sequence.length + ds.length ≤ labelMax) (bias fuel : ℕ) (hbias : bias ≤ 180)
    (hfirst : (s.place == 0) = (s.sequence.length == start)) (hstart : start ≤ s.sequence.length)
    (hfuel : ds.length ≤ fuel) :
    ∃ bias', Run.whileLoop (fun d : Decoder => !d.rest.isEmpty) decodeNext fuel
        ⟨s.sequence, s.value, bias, s.place,
          (punycode.word start bias s.sequence.length ds).map encodeDigit⟩
      = pure ⟨s'.sequence, s'.value, bias', s'.place, []⟩ := by
  induction h generalizing bias fuel with
  | nil s => exact ⟨bias, Run.whileLoop_of_not rfl⟩
  | @cons s s' d ds hok hplaced ih =>
    rw [List.length_cons] at hlength hfuel
    obtain ⟨fuel, rfl⟩ := Nat.exists_eq_add_of_le' (Nat.le_of_add_left_le hfuel)
    have hd : d ≤ farthest := Nat.le_of_add_left_le (reach_le hok (by omega))
    have hnext := decodeNext_eq hbias hok (by omega)
      ((punycode.word start (biasOf d (s.sequence.length + 1) (s.sequence.length == start))
        (s.sequence.length + 1) ds).map encodeDigit)
    have hgrown := s.length_move d
    have hlater : ((s.move d).place == 0) = ((s.move d).sequence.length == start) := by
      have hmoved : (s.move d).place ≠ 0 := Nat.succ_ne_zero _
      rw [hgrown, beq_eq_false_iff_ne.mpr hmoved, beq_eq_false_iff_ne.mpr (by omega)]
    obtain ⟨bias', hrest⟩ := ih (by omega) _ fuel
      (biasOf_le hd (s.sequence.length + 1) (s.place == 0)) hlater (by omega) (by omega)
    refine ⟨bias', ?_⟩
    have hmore : (punycode.word start bias s.sequence.length (d :: ds)).map encodeDigit
        = (digits (thresholds bias) 0 d).map encodeDigit
          ++ (punycode.word start (biasOf d (s.sequence.length + 1) (s.sequence.length == start))
            (s.sequence.length + 1) ds).map encodeDigit := by
      rw [Adaptive.word, List.map_append]
      rfl
    have hcond : (!((digits (thresholds bias) 0 d).map encodeDigit
        ++ (punycode.word start (biasOf d (s.sequence.length + 1) (s.sequence.length == start))
          (s.sequence.length + 1) ds).map encodeDigit).isEmpty) = true := by
      have hne : (digits (thresholds bias) 0 d).map encodeDigit ≠ [] :=
        fun hnil => digits_ne_nil 0 d (List.map_eq_nil_iff.mp hnil)
      rw [List.isEmpty_eq_false_iff.mpr (List.append_ne_nil_of_left_ne_nil hne _)]
      rfl
    rw [hmore, Run.whileLoop, if_pos hcond, hnext, pure_bind, ← hrest, hgrown, hfirst]

theorem encodeDigit_ne (h : d < 36) : encodeDigit d ≠ 0x2D := by
  have hall : ∀ d < 36, encodeDigit d ≠ 0x2D := by decide
  exact hall d h

theorem word_lt (bias length : ℕ) : ∀ d ∈ punycode.word start bias length ds, d < 36 := by
  induction ds generalizing bias length with
  | nil => nofun
  | cons q ds ih =>
    intro d hd
    rcases List.mem_append.mp hd with hd | hd
    · exact digits_lt d hd
    · exact ih _ _ d hd

theorem word_ne_nil (bias length : ℕ) (h : ds ≠ []) : punycode.word start bias length ds ≠ [] := by
  cases ds with
  | nil => exact absurd rfl h
  | cons d ds => exact List.append_ne_nil_of_left_ne_nil (digits_ne_nil 0 d) _

theorem not_mem_word {start length : ℕ} :
    0x2D ∉ (punycode.word start bias length ds).map encodeDigit := by
  intro hmem
  obtain ⟨d, hd, heq⟩ := List.mem_map.mp hmem
  exact encodeDigit_ne (word_lt _ _ _ d hd) heq

variable {w : List UInt8}

theorem lastDelimiter_of_not_mem (h : 0x2D ∉ w) : lastDelimiter w = -1 := by
  grind [lastDelimiter]

theorem lastDelimiter_append {b : List UInt8} (h : 0x2D ∉ w) :
    lastDelimiter (b ++ 0x2D :: w) = b.length := by
  grind [lastDelimiter]

theorem copyBasic_eq (h : ∀ c ∈ cs, c < initialN) :
    copyBasic (cs.map fun c => UInt8.ofNat (asciiLower c)) = pure (cs.map asciiLower) := by
  have hfold : ∀ out : List ℕ, (cs.map fun c => UInt8.ofNat (asciiLower c)).foldlM
      (fun out c => if 0x7F < c then Run.throwing (malformed "non-ASCII in basic portion.")
        else (pure (out ++ [asciiLower c.toNat]) : Run Exception (List ℕ))) out
      = pure (out ++ cs.map asciiLower) := by
    induction cs with
    | nil => exact fun out => congrArg pure (List.append_nil out).symm
    | cons c cs ih =>
      intro out
      have hc : asciiLower c < 0x80 :=
        (asciiLower_lt_iff (Nat.le_refl initialN) c).mpr (h c List.mem_cons_self)
      have hbyte : (UInt8.ofNat (asciiLower c)).toNat = asciiLower c :=
        UInt8.toNat_ofNat_of_lt' (Nat.lt_trans hc (by decide))
      have hlow : ¬ 0x7F < UInt8.ofNat (asciiLower c) := by
        rw [UInt8.lt_iff_toNat_lt, hbyte]
        exact Nat.not_lt.mpr (Nat.le_of_lt_succ hc)
      simp [hlow, hbyte, asciiLower_asciiLower, ih (fun d hd => h d (List.mem_cons_of_mem c hd))]
  exact hfold []

/-! ## The round trip -/

theorem decodeLabel_split (hne : w ≠ []) (hmem : 0x2D ∉ w)
    (hint : (basicPart label ++ w).length ≤ intcsMax) :
    decodeLabel (basicPart label ++ w)
      = Run.whileLoop (fun d : Decoder => !d.rest.isEmpty) decodeNext (basicPart label ++ w).length
          ⟨(below initialN label).map asciiLower, initialN, initialBias, 0, w⟩
        >>= fun d => pure d.out := by
  have hpos := List.length_pos_iff.mpr hne
  have hbasic : ∀ c ∈ below initialN label, c < initialN :=
    fun c hc => of_decide_eq_true (List.mem_filter.mp hc).2
  unfold decodeLabel
  rw [int32_eq hint, pure_bind]
  by_cases hsome : 0 < (below initialN label).length
  · have hpart : basicPart label
        = ((below initialN label).map fun c => UInt8.ofNat (asciiLower c)) ++ [0x2D] := if_pos hsome
    have hlast : lastDelimiter (basicPart label ++ w) = (below initialN label).length := by
      simp [hpart, lastDelimiter_append hmem]
    have hlen : (basicPart label).length = (below initialN label).length + 1 := by
      rw [hpart, List.length_append, List.length_map, List.length_singleton]
    have htake : (basicPart label ++ w).take (below initialN label).length
        = (below initialN label).map fun c => UInt8.ofNat (asciiLower c) := by simp [hpart]
    have hdrop : (basicPart label ++ w).drop ((below initialN label).length + 1) = w :=
      List.drop_left' hlen
    have hmore : (0 : ℤ) < (below initialN label).length := by exact_mod_cast hsome
    rw [List.length_append, hlen]
    simp only [hlast, if_pos hmore, Int.toNat_natCast, htake, hdrop]
    rw [if_neg (by push_cast; omega), copyBasic_eq hbasic, pure_bind]
  · have hnil : below initialN label = [] := List.length_eq_zero_iff.mp (by omega)
    have hpart : basicPart label = [] := by
      rw [basicPart, hnil]
      rfl
    rw [hpart, List.nil_append, hnil]
    simp only [lastDelimiter_of_not_mem hmem]
    rw [if_neg (by omega)]
    rfl

theorem length_digits_le (bias j : ℕ) (hj : j ≤ 8) (h : 10 ^ j * q ≤ farthest) :
    (digits (thresholds bias) j q).length + j ≤ 9 := by
  induction q using Nat.strong_induction_on generalizing j with
  | _ q ih =>
    by_cases hlast : q < (thresholds bias).at' j
    · rw [digits_of_lt hlast, List.length_singleton]
      omega
    · have hpos := (thresholds bias).pos j
      have hplace := place_lt (q := q) (by omega) h
      have hcarry := carry_mul_le bias j q
      have hnext : 10 ^ (j + 1) * (thresholds bias).carry j q ≤ farthest := by
        refine Nat.le_trans ?_ h
        rw [Nat.pow_succ, Nat.mul_assoc, Nat.mul_comm 10]
        exact Nat.mul_le_mul_left _ hcarry
      have hrest := ih _ ((thresholds bias).carry_lt hlast) (j + 1) (by omega) hnext
      rw [digits_of_le hlast, List.length_cons]
      omega

theorem length_word (bias : ℕ)
    (h : Placed Insertable s ds s') (hlength : s.sequence.length + ds.length ≤ labelMax) :
    ds.length ≤ (punycode.word start bias s.sequence.length ds).length ∧
      (punycode.word start bias s.sequence.length ds).length ≤ 9 * ds.length := by
  induction h generalizing bias with
  | nil s => exact ⟨Nat.le_refl 0, Nat.le_refl 0⟩
  | @cons s s' d ds hok hplaced ih =>
    rw [List.length_cons] at hlength ⊢
    have hgrown := s.length_move d
    have hd : d ≤ farthest := Nat.le_of_add_left_le (reach_le hok (by omega))
    have hdigits := length_digits_le bias 0 (q := d) (by decide)
      (by rw [Nat.pow_zero, Nat.one_mul]; exact hd)
    have hsome := List.length_pos_iff.mpr (digits_ne_nil (t := thresholds bias) 0 d)
    have hrest := ih (biasOf d (s.sequence.length + 1) (s.sequence.length == start)) (by omega)
    rw [hgrown] at hrest
    rw [Adaptive.word, List.length_append]
    change ds.length + 1 ≤ (digits (thresholds bias) 0 d).length + (punycode.word start
        (biasOf d (s.sequence.length + 1) (s.sequence.length == start)) _ ds).length ∧
      (digits (thresholds bias) 0 d).length + (punycode.word start
        (biasOf d (s.sequence.length + 1) (s.sequence.length == start)) _ ds).length
        ≤ 9 * (ds.length + 1)
    omega

/-- **A label comes back in lower case.** -/
theorem decodeLabel_encodeLabel (hscalar : ∀ c ∈ label, Scalar c)
    (hlength : label.length ≤ labelMax) (hsome : ∃ c ∈ label, initialN ≤ c) :
    (encodeLabel label >>= decodeLabel) = pure (label.map asciiLower) := by
  -- the lower-case label is coded alike, and its basic code points are the decoder's
  rw [← encodeLabel_map]
  have hlower : ∀ c ∈ label.map asciiLower, asciiLower c = c := by
    intro c hc
    obtain ⟨d, -, rfl⟩ := List.mem_map.mp hc
    exact asciiLower_asciiLower d
  have hscalar' := scalar_map_asciiLower hscalar
  have hsome' : ∃ c ∈ label.map asciiLower, initialN ≤ c := by
    obtain ⟨c, hc, hle⟩ := hsome
    exact ⟨c, List.mem_map.mpr ⟨c, hc, asciiLower_of_le hle⟩, hle⟩
  have hlength' : (label.map asciiLower).length ≤ labelMax := by
    rw [List.length_map]
    exact hlength
  generalize label.map asciiLower = label at hlower hscalar' hsome' hlength' ⊢
  have hbasic : (below initialN label).map asciiLower = below initialN label :=
    (List.map_congr_left fun c hc => hlower c (List.mem_of_mem_filter hc)).trans (List.map_id _)
  obtain ⟨ds, s, hencode, hplaced, hbuilt, hne⟩ := encodeLabel_eq hscalar' hlength' hsome'
  have hcount : label.length = (below initialN label).length + ds.length := by
    rw [← hplaced.length, hbuilt]
  have hword := length_word (below initialN label).length initialBias hplaced
    (Nat.le_trans (Nat.le_of_eq hcount.symm) hlength')
  have hpart : (basicPart label).length ≤ (below initialN label).length + 1 := by
    unfold basicPart
    split
    case isTrue => rw [List.length_append, List.length_map, List.length_singleton]
    case isFalse => rw [List.length_map]; omega
  have hmax : labelMax = 63 := rfl
  have hint : intcsMax = 2147483647 := rfl
  simp only [] at hword
  rw [hencode, pure_bind, decodeLabel_split ?_ not_mem_word ?_, hbasic]
  · obtain ⟨bias, hloop⟩ := decode_word (below initialN label).length hplaced
      (Nat.le_trans (Nat.le_of_eq hcount.symm) hlength') initialBias
      (basicPart label ++ (punycode.word (below initialN label).length initialBias
        (below initialN label).length ds).map encodeDigit).length (by decide)
      (beq_self_eq_true _).symm (Nat.le_refl _)
      (by rw [List.length_append, List.length_map]; omega)
    rw [hloop, pure_bind, hbuilt]
  · exact fun hnil => word_ne_nil _ _ _ hne (List.map_eq_nil_iff.mp hnil)
  · grind

end SharpRuntime.Analysis.Punycode
