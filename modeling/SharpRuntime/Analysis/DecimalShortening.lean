import SharpRuntime.Interface.DecimalValue

/-!
# The digit loops of `Decimal`

Each loop returns, no 128-bit or 8-bit operation on the way wraps, and its result is known.
`alignScales` appends zeros to the coarser operand while there is headroom and drops the remaining
digits of the finer one (`alignScales_of_le`); `fitMantissa` shortens a mantissa (`fitMantissa_eq`).
`near_shorten_iff` says when rounding at every digit is rounding once.
-/

set_option autoImplicit false

namespace SharpRuntime.Analysis.DecimalShortening

open Machine Model Model.Decimal

theorem le_div_ten_iff (m : ℕ) : m ≤ maxMantissa / 10 ↔ m * 10 ≤ maxMantissa :=
  Nat.le_div_iff_mul_le (by decide)

variable {m : ℕ}

theorem roundTenth_eq (h : m < 2 ^ 128) : roundTenth m = pure (halfUp 1 m) := by
  grind [halfUp_one_eq, roundTenth, Run.word_of_eq]

theorem headroom_of_lt {d : ℕ} (h : maxMantissa < m * 10) : headroom maxMantissa d m = 0 := by
  cases d with
  | zero => rfl
  | succ d => rw [headroom, if_neg (by omega)]

variable {a b : Scaled}

/-- The loop that raises the first scale to the second.  The induction is on the gap; once
the first mantissa has no room left it stays so, and the rest of the gap is closed by
rounding the second. -/
theorem alignLoop_gap {d : ℕ} (hd : b.scale = a.scale + d) (hs : b.scale ≤ 28)
    (ha : a.mantissa ≤ maxMantissa) (hb : b.mantissa ≤ maxMantissa) :
    Run.whileLoop (fun p => decide (p.1.scale < p.2.scale)) alignStep d (a, b) =
      pure (⟨a.mantissa * 10 ^ headroom maxMantissa d a.mantissa,
          a.scale + headroom maxMantissa d a.mantissa⟩,
        ⟨halfUp (d - headroom maxMantissa d a.mantissa) b.mantissa,
          a.scale + headroom maxMantissa d a.mantissa⟩) := by
  induction d generalizing a b with
  | zero =>
    rw [Run.whileLoop_of_not (by simp; omega)]
    simp only [headroom, pow_zero, Nat.mul_one, Nat.add_zero, Nat.sub_zero, halfUp_zero]
    rw [Nat.add_zero] at hd
    rw [show a = ⟨a.mantissa, a.scale⟩ from rfl, show b = ⟨b.mantissa, b.scale⟩ from rfl, hd]
  | succ d ih =>
    have hcond : a.scale < b.scale := by omega
    by_cases hroom : a.mantissa * 10 ≤ maxMantissa
    · have hstep : alignStep (a, b) = pure (⟨a.mantissa * 10, a.scale + 1⟩, b) := by
        unfold alignStep
        rw [if_pos ((le_div_ten_iff _).mpr hroom),
          Run.word_of_eq (a.mantissa * 10) (by push_cast; rfl)
            (by simp only [maxMantissa] at *; omega), pure_bind,
          Run.word_of_eq (a.scale + 1) (by push_cast; rfl) (by omega), pure_bind]
      rw [Run.whileLoop_step (by simpa using hcond) hstep, ih (by dsimp only; omega) hs hroom hb]
      have hk : headroom maxMantissa (d + 1) a.mantissa =
          headroom maxMantissa d (a.mantissa * 10) + 1 := by rw [headroom, if_pos hroom]
      rw [hk, pow_succ', ← Nat.mul_assoc, Nat.add_sub_add_right, Nat.add_assoc, Nat.add_comm 1]
    · have hhalf : halfUp 1 b.mantissa ≤ maxMantissa := by rw [halfUp_one]; omega
      have hstep : alignStep (a, b) = pure (a, ⟨halfUp 1 b.mantissa, b.scale - 1⟩) := by
        unfold alignStep
        dsimp only
        rw [if_neg (by rw [le_div_ten_iff]; exact hroom),
          roundTenth_eq (by simp only [maxMantissa] at *; omega), pure_bind,
          Run.word_of_eq (b.scale - 1) (by omega) (by omega), pure_bind]
      rw [Run.whileLoop_step (by simpa using hcond) hstep,
        ih (by dsimp only; omega) (by dsimp only; omega) ha hhalf, headroom_of_lt (by omega),
        headroom_of_lt (by omega)]
      simp only [Nat.sub_zero]
      rw [halfUp_succ' d]

/-- The aligned coarser operand: zeros appended as far as there is headroom. -/
def aligned (a b : Scaled) : Scaled :=
  let k := headroom maxMantissa (b.scale - a.scale) a.mantissa
  ⟨a.mantissa * 10 ^ k, a.scale + k⟩

/-- The aligned finer operand: the other digits of the gap dropped. -/
def rounded (a b : Scaled) : Scaled :=
  let k := headroom maxMantissa (b.scale - a.scale) a.mantissa
  ⟨halfUp (b.scale - a.scale - k) b.mantissa, a.scale + k⟩

theorem aligned_split (hle : a.scale ≤ b.scale) (ha : a.mantissa ≤ maxMantissa) :
    ∃ k t, k + t = b.scale - a.scale ∧
      t = b.scale - a.scale - headroom maxMantissa (b.scale - a.scale) a.mantissa ∧
      aligned a b = ⟨a.mantissa * 10 ^ k, a.scale + k⟩ ∧
      rounded a b = ⟨halfUp t b.mantissa, a.scale + k⟩ ∧ a.mantissa * 10 ^ k ≤ maxMantissa ∧
      (t ≠ 0 → maxMantissa < a.mantissa * 10 ^ k * 10) := by
  obtain ⟨hk, hfit, hstop⟩ := headroom_spec maxMantissa (b.scale - a.scale) a.mantissa
  refine ⟨headroom maxMantissa (b.scale - a.scale) a.mantissa, _, by omega, rfl, rfl, rfl,
    hfit ha, ?_⟩
  intro ht
  exact hstop (by omega)

variable {n t : ℕ}

theorem lt_mul_pow_of_stop {k : ℕ} (hn : n ≤ maxMantissa) (ht : t ≠ 0)
    (hstop : maxMantissa < m * 10 ^ k * 10) : n < m * 10 ^ (k + t) := by
  calc
    n ≤ maxMantissa := hn
    _ < m * 10 ^ k * 10 := hstop
    _ ≤ m * 10 ^ k * 10 ^ t := Nat.mul_le_mul_left _ (Nat.le_self_pow ht 10)
    _ = m * 10 ^ (k + t) := by rw [pow_add, Nat.mul_assoc]

theorem alignLoop_of_le (hle : a.scale ≤ b.scale) (hs : b.scale ≤ 28)
    (ha : a.mantissa ≤ maxMantissa) (hb : b.mantissa ≤ maxMantissa) :
    alignLoop a b = pure (aligned a b, rounded a b) :=
  alignLoop_gap (by omega) hs ha hb

theorem alignLoop_of_ge (h : b.scale ≤ a.scale) : alignLoop a b = pure (a, b) := by
  apply Run.whileLoop_of_not
  grind

/-- The operand of smaller scale is raised as far as it fits, and the other one rounded to that
scale. -/
theorem alignScales_of_le (hle : a.scale ≤ b.scale) (hs : b.scale ≤ 28)
    (ha : a.mantissa ≤ maxMantissa) (hb : b.mantissa ≤ maxMantissa) :
    alignScales a b = pure (aligned a b, rounded a b) := by
  unfold alignScales
  rw [alignLoop_of_le hle hs ha hb, pure_bind]
  dsimp only
  rw [alignLoop_of_ge (show (aligned a b).scale ≤ (rounded a b).scale from le_rfl), pure_bind]

theorem alignScales_of_ge (hle : b.scale ≤ a.scale) (hs : a.scale ≤ 28)
    (ha : a.mantissa ≤ maxMantissa) (hb : b.mantissa ≤ maxMantissa) :
    alignScales a b = pure (rounded b a, aligned b a) := by
  simp [alignScales, alignLoop_of_ge hle, alignLoop_of_le hle hs hb ha]

variable {s : ℕ}

/-- `fitMantissa` drops digits until the mantissa and the scale fit, and fails at scale zero. -/
theorem fitMantissa_eq {n : Bool} (hm : m < 2 ^ 128) (hs : s ≤ 28) : fitMantissa ⟨m, s, n⟩ =
      match shorten maxMantissa 28 s m with
      | some (m', s') => pure ⟨m', s', n⟩
      | none => Run.throwing (.overflow "Decimal overflow.") := by
  unfold fitMantissa
  induction s generalizing m with
  | zero => grind [shorten, fitStep, roundTenth_eq, Run.whileLoop, Run.throwing_bind]
  | succ s ih =>
    by_cases hfit : m ≤ maxMantissa
    · rw [Run.whileLoop_of_not (by simpa using hfit), shorten_of_fits hfit hs]
    · have hstep : fitStep ⟨m, s + 1, n⟩ = pure ⟨halfUp 1 m, s, n⟩ := by
        unfold fitStep
        dsimp only
        rw [roundTenth_eq hm, pure_bind, if_neg (by omega),
          Run.word_of_eq s (by push_cast; ring) (by omega), pure_bind]
      have hhalf : halfUp 1 m < 2 ^ 128 := by rw [halfUp_one]; omega
      rw [Run.whileLoop_step (by simpa using hfit) hstep, ih hhalf (by omega), shorten,
        if_neg (by omega)]

theorem fitMantissa_of_le {n : Bool} (hm : m ≤ maxMantissa) (hs : s ≤ 28) :
    fitMantissa ⟨m, s, n⟩ = pure ⟨m, s, n⟩ := by
  rw [fitMantissa_eq (by simp only [maxMantissa] at hm; omega) hs, shorten_of_fits hm hs]

/-! ## Rounding once

Shortening rounds at every digit it drops.  `Doubly` says when that differs from rounding
the number once at the scale reached. -/

variable {s' : ℕ}

theorem shorten_some (h : shorten maxMantissa 28 s n = some (m, s')) :
    m ≤ maxMantissa ∧ s' ≤ 28 ∧ s' ≤ s := by
  rcases shorten_cases maxMantissa 28 s n with ⟨t, -, hfit, -, heq⟩ | ⟨-, heq⟩
  · grind
  · rw [heq] at h
    cases h

/-- After `t` digits of `n` have been cut off at scale `s`, the rest fits. -/
def CutFits (n s t : ℕ) : Prop := n / 10 ^ t ≤ maxMantissa ∧ s - t ≤ 28

instance (n s t : ℕ) : Decidable (CutFits n s t) := inferInstanceAs (Decidable (_ ∧ _))

/-- The least number of digits whose cutting makes `n` fit leaves a tail that is rounded
twice.  When the cut leaves the largest mantissa and one more digit can be dropped, the carry
drops it and the result is right again. -/
def Doubly (n s : ℕ) : Prop :=
  ∃ t ≤ s, CutFits n s t ∧ (∀ t' < t, ¬ CutFits n s t') ∧ DoubleRounds t n ∧
    ¬ (n / 10 ^ t = maxMantissa ∧ t < s)

theorem div_le_of_halfUp_le {M : ℕ} (h : halfUp t n ≤ M) : n / 10 ^ t ≤ M := by
  rw [halfUp_eq] at h
  omega

theorem div_eq_of_lt_halfUp (hcut : n / 10 ^ t ≤ maxMantissa) (h : maxMantissa < halfUp t n) :
    n / 10 ^ t = maxMantissa ∧ 10 ^ t ≤ n % 10 ^ t + fives t := by grind [halfUp_eq]

theorem half_le_of_div_eq (h : n / 10 ^ t = maxMantissa) :
    10 ^ (t + 1) ≤ 2 * (n % 10 ^ (t + 1)) := by
  rw [Nat.mod_pow_succ, h, show maxMantissa % 10 = 5 from by decide, pow_succ]
  omega

theorem halfUp_succ_le_of_div_eq (h : n / 10 ^ t = maxMantissa) :
    halfUp (t + 1) n ≤ maxMantissa := by
  have hle : halfUp t n ≤ maxMantissa + 1 := by
    rw [halfUp_eq, h]
    split <;> omega
  calc
    halfUp (t + 1) n = halfUp 1 (halfUp t n) := halfUp_succ t n
    _ ≤ halfUp 1 (maxMantissa + 1) := halfUp_mono 1 hle
    _ ≤ maxMantissa := by decide

/-- What shortening keeps of `n / 10 ^ s`, in integers: half a unit of the shortened
mantissa, or a magnitude that rounds past the largest one. -/
def Near (n s : ℕ) : Option (ℕ × ℕ) → Prop
  | some (m, s') => 2 * |((m * 10 ^ (s - s') : ℕ) : ℤ) - n| ≤ ((10 ^ (s - s') : ℕ) : ℤ)
  | none => (2 * maxMantissa + 1) * 10 ^ s ≤ 2 * n

theorem rounds_past_iff (M n p : ℕ) (hp : 0 < p) :
    (2 * M + 1) * p ≤ 2 * n ↔ M < n / p ∨ (n / p = M ∧ p ≤ 2 * (n % p)) := by
  have hsplit : n / p * p + n % p = n := Nat.div_add_mod' n p
  have hlt := Nat.mod_lt n hp
  have hexp : (2 * M + 1) * p = 2 * (M * p) + p := by ring
  rcases Nat.lt_trichotomy (n / p) M with h | h | h
  · have hle : (n / p + 1) * p ≤ M * p := Nat.mul_le_mul_right p h
    rw [Nat.succ_mul] at hle
    omega
  · rw [h] at hsplit
    omega
  · have hle : (M + 1) * p ≤ n / p * p := Nat.mul_le_mul_right p h
    rw [Nat.succ_mul] at hle
    omega

/-- When the roundings before `t` do not fit but some cut before it does, that cut is the
largest mantissa and `t` comes right after it. -/
theorem cutFits_before {t' : ℕ}
    (hmin : ∀ t' < t, ¬ (halfUp t' n ≤ maxMantissa ∧ s - t' ≤ 28)) (ht' : t' < t)
    (hcut : CutFits n s t') : n / 10 ^ t' = maxMantissa ∧ t = t' + 1 := by
  have hcap := hcut.2
  have hbig : maxMantissa < halfUp t' n := by
    by_contra hle
    exact hmin t' ht' ⟨by omega, hcap⟩
  obtain ⟨hfull, -⟩ := div_eq_of_lt_halfUp hcut.1 hbig
  refine ⟨hfull, ?_⟩
  by_contra hne
  exact hmin (t' + 1) (by omega) ⟨halfUp_succ_le_of_div_eq hfull, by omega⟩

theorem doubly_iff_of_fits (ht : t ≤ s) (hfit : halfUp t n ≤ maxMantissa ∧ s - t ≤ 28)
    (hmin : ∀ t' < t, ¬ (halfUp t' n ≤ maxMantissa ∧ s - t' ≤ 28)) :
    Doubly n s ↔ DoubleRounds t n := by
  have hcut : CutFits n s t := ⟨div_le_of_halfUp_le hfit.1, hfit.2⟩
  constructor
  · rintro ⟨t₀, -, hcut₀, hmin₀, hd, hlast⟩
    rcases Nat.lt_trichotomy t₀ t with hlt | rfl | hgt
    · exact absurd ⟨(cutFits_before hmin hlt hcut₀).1, by omega⟩ hlast
    · exact hd
    · exact absurd hcut (hmin₀ t hgt)
  · intro hd
    refine ⟨t, ht, hcut, ?_, hd, ?_⟩
    · -- an earlier cut would be the largest mantissa, and the digit after it a five
      intro t' ht' hcut'
      obtain ⟨hfull, rfl⟩ := cutFits_before hmin ht' hcut'
      have hhalf := half_le_of_div_eq hfull
      exact absurd hd.2 (by omega)
    · rintro ⟨hfull, -⟩
      have hup := hfit.1
      rw [halfUp_eq, if_pos hd.1] at hup
      omega

theorem doubly_iff_of_overflow (hall : ∀ t ≤ s, ¬ (halfUp t n ≤ maxMantissa ∧ s - t ≤ 28)) :
    Doubly n s ↔ ¬ (2 * maxMantissa + 1) * 10 ^ s ≤ 2 * n := by
  have hbig : maxMantissa < halfUp s n := by
    by_contra hle
    exact hall s le_rfl ⟨by omega, by omega⟩
  have hmin : ∀ t' < s, ¬ CutFits n s t' := by
    intro t' ht' hcut'
    obtain ⟨-, hs⟩ := cutFits_before (t := s + 1) (fun t h => hall t (by omega)) (by omega) hcut'
    omega
  rw [rounds_past_iff _ _ _ (by positivity)]
  constructor
  · rintro ⟨t, ht, hcut, -, hd, -⟩ hpast
    obtain rfl : t = s := by
      by_contra hne
      exact hmin t (by omega) hcut
    have h1 := hcut.1
    have h2 := hd.2
    omega
  · intro hpast
    have hcut : n / 10 ^ s ≤ maxMantissa := by omega
    obtain ⟨hfull, hup⟩ := div_eq_of_lt_halfUp hcut hbig
    exact ⟨s, le_rfl, ⟨hcut, by omega⟩, hmin, ⟨hup, by omega⟩, by omega⟩

/-- Digit by digit rounding is the nearest one unless it rounds up twice. -/
theorem near_shorten_iff (n s : ℕ) : Near n s (shorten maxMantissa 28 s n) ↔ ¬ Doubly n s := by
  rcases shorten_cases maxMantissa 28 s n with ⟨t, ht, hfit, hmin, heq⟩ | ⟨hall, heq⟩
  · rw [heq, Near, Nat.sub_sub_self ht, halfUp_near_iff, doubly_iff_of_fits ht hfit hmin]
  · rw [heq, Near, doubly_iff_of_overflow hall, not_not]

theorem Doubly.shorten_eq_none_iff (h : Doubly n s) :
    shorten maxMantissa 28 s n = none ↔ n / 10 ^ s = maxMantissa := by
  rcases shorten_cases maxMantissa 28 s n with ⟨t, ht, hfit, hmin, heq⟩ | ⟨hall, heq⟩
  · have hup := hfit.1
    rw [halfUp_eq, if_pos ((doubly_iff_of_fits ht hfit hmin).mp h).1] at hup
    have hle : n / 10 ^ s ≤ n / 10 ^ t :=
      Nat.div_le_div_left (Nat.pow_le_pow_right (by decide) ht) (by positivity)
    rw [heq]
    constructor
    · intro hnone
      cases hnone
    · intro hfull
      omega
  · have hpast := (doubly_iff_of_overflow hall).mp h
    rw [rounds_past_iff _ _ _ (by positivity)] at hpast
    have hbig : maxMantissa < halfUp s n := by
      by_contra hle
      exact hall s le_rfl ⟨by omega, by omega⟩
    exact ⟨fun _ => (div_eq_of_lt_halfUp (by omega) hbig).1, fun _ => heq⟩

theorem exists_exact_cut {m' k : ℕ} (hm' : m' ≤ maxMantissa) (hk : k ≤ 28)
    (heq : n * 10 ^ k = m' * 10 ^ s) :
    ∃ u ≤ s, n % 10 ^ u = 0 ∧ halfUp u n ≤ maxMantissa ∧ s - u ≤ 28 := by
  rcases Nat.lt_or_ge k s with hlt | hge
  · -- the tail beyond scale `k` is zero
    have hn : n = m' * 10 ^ (s - k) := by
      have hpow : (10 : ℕ) ^ s = 10 ^ (s - k) * 10 ^ k := by
        rw [← pow_add]
        congr 1
        omega
      rw [hpow, ← Nat.mul_assoc] at heq
      exact Nat.eq_of_mul_eq_mul_right (by positivity) heq
    have hzero : n % 10 ^ (s - k) = 0 := by rw [hn, Nat.mul_mod_left]
    have hhalf : halfUp (s - k) n = m' := by rw [hn, halfUp_mul_pow]
    exact ⟨s - k, Nat.sub_le s k, hzero, by omega, by omega⟩
  · -- the number already fits
    have hn : n ≤ m' := by
      apply Nat.le_of_mul_le_mul_right _ (show 0 < 10 ^ s by positivity)
      calc
        n * 10 ^ s ≤ n * 10 ^ k := Nat.mul_le_mul_left n (Nat.pow_le_pow_right (by decide) hge)
        _ = m' * 10 ^ s := heq
    refine ⟨0, Nat.zero_le s, ?_, ?_, by omega⟩
    · rw [pow_zero, Nat.mod_one]
    · rw [halfUp_zero]
      omega

theorem shorten_value_exact {neg : Bool} (h : shorten maxMantissa 28 s n = some (m, s'))
    (hrep : Representable (⟨n, s, neg⟩ : Decimal).value) :
    (⟨m, s', neg⟩ : Decimal).value = (⟨n, s, neg⟩ : Decimal).value := by
  obtain ⟨m', k, hm', hk, heq⟩ := (representable_value_iff n s neg).mp hrep
  obtain ⟨u, -, hzero, hfit⟩ := exists_exact_cut hm' hk heq
  rcases shorten_cases maxMantissa 28 s n with ⟨t, ht, -, hmin, hrun⟩ | ⟨-, hrun⟩
  · rw [hrun, Option.some.injEq, Prod.mk.injEq] at h
    obtain ⟨rfl, rfl⟩ := h
    have htu : t ≤ u := by
      by_contra hlt
      exact hmin u (by omega) hfit
    have hexact : halfUp t n * 10 ^ t = n := by
      apply halfUp_of_mod_eq_zero
      exact Nat.mod_eq_zero_of_dvd
        ((Nat.pow_dvd_pow 10 htu).trans (Nat.dvd_of_mod_eq_zero hzero))
    apply value_eq_of_sign
    rw [div_pow_scale_up (halfUp t n : ℚ) (s - t) t, Nat.sub_add_cancel ht]
    congr 1
    exact_mod_cast hexact
  · rw [hrun] at h
    cases h

theorem not_representable_of_shorten_none (neg : Bool) (h : shorten maxMantissa 28 s n = none) :
    ¬ Representable (⟨n, s, neg⟩ : Decimal).value := by
  intro hrep
  obtain ⟨m', k, hm', hk, heq⟩ := (representable_value_iff n s neg).mp hrep
  obtain ⟨u, hu, -, hfit⟩ := exists_exact_cut hm' hk heq
  rcases shorten_cases maxMantissa 28 s n with ⟨t, -, -, -, hrun⟩ | ⟨hall, -⟩
  · rw [hrun] at h
    cases h
  · exact hall u hu hfit

theorem near_some_iff (neg : Bool) (h : shorten maxMantissa 28 s n = some (m, s')) :
    |(⟨m, s', neg⟩ : Decimal).value - (⟨n, s, neg⟩ : Decimal).value| ≤ 1 / 2 / 10 ^ s' ↔
      Near n s (some (m, s')) := by
  obtain ⟨-, -, hle⟩ := shorten_some h
  have hs : s = s' + (s - s') := by omega
  rw [abs_sub_value, Near, ← abs_sub_div_le_iff, ← hs]

end SharpRuntime.Analysis.DecimalShortening
