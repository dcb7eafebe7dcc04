import SharpRuntime.Analysis.DecimalShortening

/-!
# Addition and subtraction of `Decimal`s

`operator+` aligns its operands and adds or subtracts the aligned mantissas (Decimal.cpp:428-449),
whatever their order (`add_swap`).  With equal signs the two roundings are one shortening of the
exact sum (`add_same`).  With opposite signs only the finer operand is rounded (`add_opposite`), and
the difference can be wrong although it is representable (`addsExactly_iff`).
-/

set_option autoImplicit false

namespace SharpRuntime.Analysis.DecimalAddition

open Machine Model Model.Decimal
open DecimalShortening

variable {x y : Decimal}

def unsignZero (r : Decimal) : Decimal := if r.mantissa = 0 then ⟨r.mantissa, r.scale, false⟩ else r

variable (r : Decimal)

theorem unsignZero_value : (unsignZero r).value = r.value := by
  grind [value_eq_zero_iff, unsignZero]

theorem unsignZero_mantissa : (unsignZero r).mantissa = r.mantissa := by
  unfold unsignZero
  split <;> rfl

theorem unsignZero_scale : (unsignZero r).scale = r.scale := by
  unfold unsignZero
  split <;> rfl

theorem add_def (x o : Decimal) :
    x.add o = (do
      let (a, b) ← alignScales ⟨x.mantissa, x.scale⟩ ⟨o.mantissa, o.scale⟩
      let r ← addAligned x o a b
      pure (unsignZero r)) := rfl

theorem addAligned_comm (x o : Decimal) {a b : Scaled} (hs : a.scale = b.scale) :
    (do let r ← addAligned x o a b; pure (unsignZero r)) =
      (do let r ← addAligned o x b a; pure (unsignZero r)) := by
  unfold addAligned
  by_cases hsign : x.negative = o.negative
  · rw [if_pos hsign, if_pos hsign.symm, hs, hsign, add_comm (a.mantissa : ℤ)]
  · have hsign' : ¬ o.negative = x.negative := fun h => hsign h.symm
    rw [if_neg hsign, if_neg hsign', hs]
    rcases Nat.lt_trichotomy a.mantissa b.mantissa with h | h | h
    · rw [if_neg (by omega), if_pos h.le]
    · rw [if_pos h.ge, if_pos h.le, h, sub_self]
      rfl
    · rw [if_pos h.le, if_neg (by omega)]

theorem add_of_le (hx : x.Valid) (hy : y.Valid) (hle : x.scale ≤ y.scale) :
    x.add y = (do
      let r ← addAligned x y (aligned ⟨x.mantissa, x.scale⟩ ⟨y.mantissa, y.scale⟩)
        (rounded ⟨x.mantissa, x.scale⟩ ⟨y.mantissa, y.scale⟩)
      pure (unsignZero r)) := by
  rw [add_def, alignScales_of_le hle hy.scale_le hx.mantissa_le hy.mantissa_le, pure_bind]

theorem add_swap_of_le (hx : x.Valid) (hy : y.Valid) (hle : x.scale ≤ y.scale) :
    y.add x = x.add y := by
  rw [add_of_le hx hy hle, add_def,
    alignScales_of_ge hle hy.scale_le hy.mantissa_le hx.mantissa_le, pure_bind]
  exact addAligned_comm y x rfl

/-- Addition commutes, the sign of zero included. -/
theorem add_swap (hx : x.Valid) (hy : y.Valid) : x.add y = y.add x := by grind [add_swap_of_le]

/-- The exact sum of two mantissas at the scale of the finer one. -/
def sumMantissa (x y : Decimal) : ℕ := x.mantissa * 10 ^ (y.scale - x.scale) + y.mantissa

/-- The rounding of the finer operand and the rounding of the sum are one shortening of the
exact sum: an operand out of headroom makes every digit dropped by the alignment one that the
sum has to drop as well. -/
theorem add_same (hx : x.Valid) (hy : y.Valid) (hle : x.scale ≤ y.scale)
    (hsign : x.negative = y.negative) :
    x.add y =
      match shorten maxMantissa 28 y.scale (sumMantissa x y) with
      | some (m, s) => pure (unsignZero ⟨m, s, x.negative⟩)
      | none => Run.throwing (.overflow "Decimal overflow.") := by
  rw [add_of_le hx hy hle]
  obtain ⟨k, t, hkt, -, hA, hB, hfit, hstop⟩ :=
    @aligned_split ⟨x.mantissa, x.scale⟩ ⟨y.mantissa, y.scale⟩ hle hx.mantissa_le
  rw [hA, hB]
  dsimp only at *
  have hround : halfUp t y.mantissa ≤ maxMantissa := (halfUp_le_self _ _).trans hy.mantissa_le
  have hmax := maxMantissa_lt
  have hsum : sumMantissa x y = x.mantissa * 10 ^ k * 10 ^ t + y.mantissa := by
    rw [sumMantissa, ← hkt, pow_add, Nat.mul_assoc]
  have hdrop : shorten maxMantissa 28 y.scale (sumMantissa x y) =
      shorten maxMantissa 28 (x.scale + k)
        (x.mantissa * 10 ^ k + halfUp t y.mantissa) := by
    have hbig : ∀ j < t, maxMantissa < halfUp j (sumMantissa x y) := by
      intro j hj
      have hpow : (10 : ℕ) ^ t = 10 ^ (t - j) * 10 ^ j := by
        rw [← pow_add]
        congr 1
        omega
      rw [hsum, hpow, ← Nat.mul_assoc, halfUp_mul_add]
      calc
        maxMantissa < x.mantissa * 10 ^ k * 10 := hstop (by omega)
        _ ≤ x.mantissa * 10 ^ k * 10 ^ (t - j) :=
          Nat.mul_le_mul_left _ (Nat.le_self_pow (by omega) 10)
        _ ≤ x.mantissa * 10 ^ k * 10 ^ (t - j) + halfUp j y.mantissa := Nat.le_add_right _ _
    rw [shorten_drop (by omega) hbig, hsum, halfUp_mul_add]
    congr 1
    omega
  unfold addAligned
  rw [if_pos hsign, hdrop]
  dsimp only
  rw [Run.word_add (by omega), pure_bind,
    fitMantissa_eq (by omega) (by have := hy.scale_le; omega)]
  cases shorten maxMantissa 28 (x.scale + k) (x.mantissa * 10 ^ k + halfUp t y.mantissa) with
  | none => rfl
  | some p => rfl

theorem value_add_same (hle : x.scale ≤ y.scale) (hsign : x.negative = y.negative) :
    x.value + y.value = (⟨sumMantissa x y, y.scale, x.negative⟩ : Decimal).value := by
  have hs : y.scale = x.scale + (y.scale - x.scale) := by omega
  have hdiv : (x.mantissa : ℚ) / 10 ^ x.scale + y.mantissa / 10 ^ y.scale =
      (sumMantissa x y : ℕ) / 10 ^ y.scale := by
    rw [div_pow_scale_up (x.mantissa : ℚ) x.scale (y.scale - x.scale), ← hs, ← add_div, sumMantissa]
    push_cast
    rfl
  unfold value
  rw [← hdiv, ← hsign]
  split
  · ring
  · rfl

theorem addAligned_opposite {m n s : ℕ} (hm : m ≤ maxMantissa) (hn : n ≤ maxMantissa)
    (hsign : x.negative ≠ y.negative) :
    ∃ r, addAligned x y ⟨m, s⟩ ⟨n, s⟩ = pure r ∧ r.mantissa ≤ maxMantissa ∧ r.scale = s ∧
      r.value = (⟨m, s, x.negative⟩ : Decimal).value + (⟨n, s, y.negative⟩ : Decimal).value := by
  have hmax := maxMantissa_lt
  have hflip : y.negative = !x.negative := Bool.eq_not.mpr hsign.symm
  unfold addAligned
  rw [if_neg hsign]
  dsimp only
  by_cases hle : n ≤ m
  · refine ⟨⟨m - n, s, x.negative⟩, ?_, (Nat.sub_le m n).trans hm, rfl, ?_⟩
    · rw [if_pos hle, Run.word_of_eq (m - n) (by omega) (by omega), pure_bind]
    · rw [hflip]
      unfold value
      rw [Nat.cast_sub hle]
      cases x.negative <;> simp <;> ring
  · refine ⟨⟨n - m, s, y.negative⟩, ?_, (Nat.sub_le n m).trans hn, rfl, ?_⟩
    · rw [if_neg hle, Run.word_of_eq (n - m) (by omega) (by omega), pure_bind]
    · rw [hflip]
      unfold value
      rw [Nat.cast_sub (by omega)]
      cases x.negative <;> simp <;> ring

def droppedDigits (x y : Decimal) : ℕ :=
  y.scale - x.scale - headroom maxMantissa (y.scale - x.scale) x.mantissa

/-- With opposite signs only the operand of larger scale is rounded. -/
theorem add_opposite (hx : x.Valid) (hy : y.Valid) (hle : x.scale ≤ y.scale)
    (hsign : x.negative ≠ y.negative) :
    ∃ r, x.add y = pure r ∧ r.Valid ∧ r.scale = y.scale - droppedDigits x y ∧
      r.value = x.value + (⟨halfUp (droppedDigits x y) y.mantissa, y.scale - droppedDigits x y,
        y.negative⟩ : Decimal).value := by
  rw [add_of_le hx hy hle]
  obtain ⟨k, t, hkt, ht, hA, hB, hfit, -⟩ :=
    @aligned_split ⟨x.mantissa, x.scale⟩ ⟨y.mantissa, y.scale⟩ hle hx.mantissa_le
  rw [hA, hB]
  dsimp only at *
  have hround : halfUp t y.mantissa ≤ maxMantissa := (halfUp_le_self _ _).trans hy.mantissa_le
  obtain ⟨r, hrun, hmant, hscale, hval⟩ := addAligned_opposite (s := x.scale + k) hfit hround hsign
  have hcommon : x.scale + k = y.scale - droppedDigits x y := by
    rw [droppedDigits, ← ht]
    omega
  have hxval : (⟨x.mantissa * 10 ^ k, x.scale + k, x.negative⟩ : Decimal).value = x.value := by
    refine (value_eq_of_sign ?_).symm
    rw [div_pow_scale_up (x.mantissa : ℚ) x.scale k]
    push_cast
    rfl
  refine ⟨unsignZero r, by rw [hrun, pure_bind], ⟨?_, ?_⟩, ?_, ?_⟩
  · rw [unsignZero_mantissa]
    exact hmant
  · rw [unsignZero_scale, hscale]
    have := hy.scale_le
    omega
  · rw [unsignZero_scale, hscale, hcommon]
  · rw [unsignZero_value, hval, hxval, hcommon, show t = droppedDigits x y from ht]

/-- A representable result is returned as it is; another one is rounded once, or overflows. -/
def ExactOrRounded (e : ℚ) (run : Run Exception Decimal) : Prop :=
  (Representable e → ∃ r, run = pure r ∧ r.value = e) ∧
  (¬ Representable e → ThrewOverflow run ∨ ∃ r, run = pure r ∧ |r.value - e| ≤ 1 / 2 / 10 ^ r.scale)

theorem exactOrRounded_pure (e : ℚ) (r : Decimal) :
    ExactOrRounded e (pure r) ↔
      (Representable e → r.value = e) ∧
      (¬ Representable e → |r.value - e| ≤ 1 / 2 / 10 ^ r.scale) := by
  constructor
  · rintro ⟨hexact, hnear⟩
    constructor
    · intro hrep
      obtain ⟨r', hr', hval⟩ := hexact hrep
      rw [Run.pure_inj.mp hr', hval]
    · intro hrep
      rcases hnear hrep with ⟨message, hthrew⟩ | ⟨r', hr', hval⟩
      · cases hthrew
      · rw [Run.pure_inj.mp hr']
        exact hval
  · rintro ⟨hexact, hnear⟩
    exact ⟨fun hrep => ⟨r, rfl, hexact hrep⟩, fun hrep => Or.inr ⟨r, rfl, hnear hrep⟩⟩

theorem add_same_iff (hx : x.Valid) (hy : y.Valid) (hle : x.scale ≤ y.scale)
    (hsign : x.negative = y.negative) :
    ExactOrRounded (x.value + y.value) (x.add y) ↔ ¬ (Doubly (sumMantissa x y) y.scale ∧
      sumMantissa x y / 10 ^ y.scale ≠ maxMantissa) := by
  have hrun := add_same hx hy hle hsign
  have hval := value_add_same hle hsign
  cases hsh : shorten maxMantissa 28 y.scale (sumMantissa x y) with
  | none =>
    rw [hsh] at hrun
    have hrep := not_representable_of_shorten_none x.negative hsh
    rw [← hval] at hrep
    constructor
    · rintro - ⟨hd, hne⟩
      exact hne (hd.shorten_eq_none_iff.mp hsh)
    · intro _
      rw [hrun]
      exact ⟨fun h => absurd h hrep, fun _ => Or.inl ⟨"Decimal overflow.", rfl⟩⟩
  | some p =>
    obtain ⟨m, s⟩ := p
    rw [hsh] at hrun
    have hnear : |(unsignZero ⟨m, s, x.negative⟩).value - (x.value + y.value)| ≤
        1 / 2 / 10 ^ (unsignZero ⟨m, s, x.negative⟩).scale ↔
          ¬ Doubly (sumMantissa x y) y.scale := by
      rw [unsignZero_value, unsignZero_scale, hval, near_some_iff x.negative hsh,
        ← near_shorten_iff, hsh]
    have hdoubly : Doubly (sumMantissa x y) y.scale ↔ Doubly (sumMantissa x y) y.scale ∧
        sumMantissa x y / 10 ^ y.scale ≠ maxMantissa := by
      constructor
      · intro hd
        refine ⟨hd, fun hfull => ?_⟩
        rw [hd.shorten_eq_none_iff.mpr hfull] at hsh
        cases hsh
      · exact And.left
    rw [hrun, exactOrRounded_pure, ← hdoubly, ← hnear]
    constructor
    · rintro ⟨hexact, hclose⟩
      by_cases hrep : Representable (x.value + y.value)
      · rw [hexact hrep, sub_self, abs_zero]
        positivity
      · exact hclose hrep
    · grind [unsignZero_value, shorten_value_exact]

/-- The difference of the mantissas, at the scale of the finer operand, is a mantissa once
the zeros the finer one ends in are dropped; there are fewer of them than the alignment
drops digits. -/
def FitsShortened (x y : Decimal) : Prop :=
  ∃ j < droppedDigits x y, 10 ^ j ∣ y.mantissa ∧
    x.mantissa * 10 ^ (y.scale - x.scale) - y.mantissa ≤ maxMantissa * 10 ^ j

theorem lt_of_droppedDigits_ne_zero (hx : x.Valid) (hy : y.Valid) (hle : x.scale ≤ y.scale)
    (ht : droppedDigits x y ≠ 0) :
    y.mantissa < x.mantissa * 10 ^ (y.scale - x.scale) ∧
      droppedDigits x y ≤ y.scale - x.scale := by
  obtain ⟨k, t, hkt, htd, -, -, -, hstop⟩ :=
    @aligned_split ⟨x.mantissa, x.scale⟩ ⟨y.mantissa, y.scale⟩ hle hx.mantissa_le
  dsimp only at *
  have htd' : t = droppedDigits x y := htd
  rw [← hkt]
  exact ⟨lt_mul_pow_of_stop hy.mantissa_le (by omega) (hstop (by omega)), by omega⟩

theorem value_add_opposite (hle : x.scale ≤ y.scale) (hsign : x.negative ≠ y.negative)
    (hlt : y.mantissa < x.mantissa * 10 ^ (y.scale - x.scale)) :
    x.value + y.value = (⟨x.mantissa * 10 ^ (y.scale - x.scale) - y.mantissa, y.scale,
      x.negative⟩ : Decimal).value := by
  have hs : y.scale = x.scale + (y.scale - x.scale) := by omega
  have hdiv : (x.mantissa : ℚ) / 10 ^ x.scale - y.mantissa / 10 ^ y.scale =
      (x.mantissa * 10 ^ (y.scale - x.scale) - y.mantissa : ℕ) / 10 ^ y.scale := by
    rw [div_pow_scale_up (x.mantissa : ℚ) x.scale (y.scale - x.scale), ← hs, ← sub_div,
      Nat.cast_sub hlt.le]
    push_cast
    rfl
  have hflip : y.negative = !x.negative := Bool.eq_not.mpr hsign.symm
  unfold value
  rw [← hdiv, hflip]
  cases x.negative <;> simp <;> ring

theorem representable_opposite_iff (hx : x.Valid) (hy : y.Valid) (hle : x.scale ≤ y.scale)
    (hsign : x.negative ≠ y.negative) (htail : y.mantissa % 10 ^ droppedDigits x y ≠ 0) :
    Representable (x.value + y.value) ↔ FitsShortened x y := by
  have ht : droppedDigits x y ≠ 0 := by
    intro h
    grind
  obtain ⟨hlt, hdrop⟩ := lt_of_droppedDigits_ne_zero hx hy hle ht
  have hscale := hy.scale_le
  rw [value_add_opposite hle hsign hlt, representable_value_iff]
  -- a power of ten within the gap divides the difference exactly when it divides the finer one
  have hdvd : ∀ j ≤ droppedDigits x y,
      10 ^ j ∣ x.mantissa * 10 ^ (y.scale - x.scale) - y.mantissa ↔ 10 ^ j ∣ y.mantissa := by
    intro j hj
    have hpow : 10 ^ j ∣ x.mantissa * 10 ^ (y.scale - x.scale) :=
      Dvd.dvd.mul_left (Nat.pow_dvd_pow 10 (by omega)) _
    exact Nat.dvd_sub_iff_right hlt.le hpow
  constructor
  · rintro ⟨m', s', hm', hs', heq⟩
    obtain ⟨u, hu, hzero, hfit, -⟩ := exists_exact_cut hm' hs' heq
    have hudvd := Nat.dvd_of_mod_eq_zero hzero
    have hlt' : u < droppedDigits x y := by
      by_contra hge
      apply htail
      apply Nat.mod_eq_zero_of_dvd
      rw [← hdvd _ le_rfl]
      exact (Nat.pow_dvd_pow 10 (by omega)).trans hudvd
    refine ⟨u, hlt', (hdvd u hlt'.le).mp hudvd, ?_⟩
    calc
      _ = halfUp u (x.mantissa * 10 ^ (y.scale - x.scale) - y.mantissa) * 10 ^ u :=
        (halfUp_of_mod_eq_zero hzero).symm
      _ ≤ maxMantissa * 10 ^ u := Nat.mul_le_mul_right _ hfit
  · rintro ⟨j, hj, hjdvd, hbound⟩
    obtain ⟨q, hq⟩ := (hdvd j hj.le).mpr hjdvd
    rw [hq]
    rw [hq, Nat.mul_comm] at hbound
    refine ⟨q, y.scale - j, Nat.le_of_mul_le_mul_right hbound (by positivity), by omega, ?_⟩
    rw [Nat.mul_right_comm, ← pow_add, Nat.mul_comm]
    congr 2
    omega

theorem add_opposite_iff (hx : x.Valid) (hy : y.Valid) (hle : x.scale ≤ y.scale)
    (hsign : x.negative ≠ y.negative) :
    ExactOrRounded (x.value + y.value) (x.add y) ↔ ¬ (DoubleRounds (droppedDigits x y) y.mantissa ∨
      (y.mantissa % 10 ^ droppedDigits x y ≠ 0 ∧ FitsShortened x y)) := by
  obtain ⟨r, hrun, -, hscale, hval⟩ := add_opposite hx hy hle hsign
  have hs : y.scale = y.scale - droppedDigits x y + droppedDigits x y := by
    have hdrop : droppedDigits x y ≤ y.scale - x.scale := Nat.sub_le _ _
    omega
  have hdiff : r.value - (x.value + y.value) =
      (⟨halfUp (droppedDigits x y) y.mantissa, y.scale - droppedDigits x y,
        y.negative⟩ : Decimal).value - y.value := by
    rw [hval]
    ring
  have hnear : |r.value - (x.value + y.value)| ≤ 1 / 2 / 10 ^ r.scale ↔
      ¬ DoubleRounds (droppedDigits x y) y.mantissa := by
    rw [← halfUp_near_iff, ← abs_sub_div_le_iff _ _ (y.scale - droppedDigits x y), ← hs, hdiff,
      hscale, ← abs_sub_value]
  have hexact : r.value = x.value + y.value ↔ y.mantissa % 10 ^ droppedDigits x y = 0 := by
    have hmul : r.value = x.value + y.value ↔
        halfUp (droppedDigits x y) y.mantissa * 10 ^ droppedDigits x y = y.mantissa := by
      rw [← sub_eq_zero, hdiff, ← abs_eq_zero, abs_sub_value _ _ y.mantissa y.scale, abs_eq_zero,
        sub_eq_zero, div_pow_scale_up _ _ (droppedDigits x y), ← hs, div_left_inj' (by positivity)]
      exact_mod_cast Iff.rfl
    rw [hmul]
    constructor
    · intro h
      rw [← h, Nat.mul_mod_left]
    · exact halfUp_of_mod_eq_zero
  rw [hrun, exactOrRounded_pure, hnear, hexact]
  by_cases htail : y.mantissa % 10 ^ droppedDigits x y = 0
  · have hnd := not_doubleRounds_of_mod_eq_zero htail
    simp [htail, hnd]
  · rw [representable_opposite_iff hx hy hle hsign htail]
    tauto

/-- A coarser operand and a finer one whose sum is rounded twice, or, with opposite signs,
rounded although it is representable. -/
def Lossy (x y : Decimal) : Prop :=
  if x.negative = y.negative then
    Doubly (sumMantissa x y) y.scale ∧ sumMantissa x y / 10 ^ y.scale ≠ maxMantissa
  else
    DoubleRounds (droppedDigits x y) y.mantissa ∨
      (y.mantissa % 10 ^ droppedDigits x y ≠ 0 ∧ FitsShortened x y)

def LossyPair (x y : Decimal) : Prop := if x.scale ≤ y.scale then Lossy x y else Lossy y x

theorem add_iff_of_le (hx : x.Valid) (hy : y.Valid) (hle : x.scale ≤ y.scale) :
    ExactOrRounded (x.value + y.value) (x.add y) ↔ ¬ Lossy x y := by
  grind [Lossy, add_same_iff, add_opposite_iff]

theorem add_iff (hx : x.Valid) (hy : y.Valid) :
    ExactOrRounded (x.value + y.value) (x.add y) ↔ ¬ LossyPair x y := by
  grind [add_swap, LossyPair, add_iff_of_le]

theorem value_flip (y : Decimal) :
    (⟨y.mantissa, y.scale, !y.negative⟩ : Decimal).value = -y.value := by
  unfold value
  cases y.negative <;> simp

/-- **Addition and subtraction.**  A sum is exact or rounded once exactly when its operands
are not a lossy pair; subtracting a zero is exact, and subtracting another value is adding
its opposite. -/
theorem addsExactly_iff (hx : x.Valid) (hy : y.Valid) :
    (ExactOrRounded (x.value + y.value) (x.add y) ↔ ¬ LossyPair x y) ∧
    (ExactOrRounded (x.value - y.value) (x.sub y) ↔
      y.mantissa = 0 ∨ ¬ LossyPair x ⟨y.mantissa, y.scale, !y.negative⟩) := by
  refine ⟨add_iff hx hy, ?_⟩
  unfold sub
  by_cases h0 : y.mantissa = 0
  · rw [if_pos h0, (value_eq_zero_iff y).mpr h0, sub_zero, exactOrRounded_pure]
    have hrep := hx.representable
    simp [h0, hrep]
  · rw [if_neg h0, sub_eq_add_neg, ← value_flip,
      add_iff hx (show (⟨y.mantissa, y.scale, !y.negative⟩ : Decimal).Valid from
        ⟨hy.mantissa_le, hy.scale_le⟩)]
    simp [h0]

/-- Zero and a half: a sum and a difference that the alignment does not round. -/
theorem addsExactly_half :
    (ExactOrRounded ((⟨1, 0, false⟩ : Decimal).value + (⟨5, 1, true⟩ : Decimal).value)
        ((⟨1, 0, false⟩ : Decimal).add ⟨5, 1, true⟩) ↔ ¬ LossyPair ⟨1, 0, false⟩ ⟨5, 1, true⟩) ∧
      (ExactOrRounded ((⟨1, 0, false⟩ : Decimal).value - (⟨5, 1, true⟩ : Decimal).value)
        ((⟨1, 0, false⟩ : Decimal).sub ⟨5, 1, true⟩) ↔
          (⟨5, 1, true⟩ : Decimal).mantissa = 0 ∨
            ¬ LossyPair ⟨1, 0, false⟩ ⟨5, 1, !true⟩) :=
  addsExactly_iff (by decide) (by decide)

/-- `7922816251426433759354395034 + (-0.5)` is representable with one decimal and is returned
as `7922816251426433759354395033`. -/
theorem addsExactly_lossy :
    (⟨7922816251426433759354395034, 0, false⟩ : Decimal).Valid ∧
      (⟨5, 1, true⟩ : Decimal).Valid ∧
      ¬ ExactOrRounded ((⟨7922816251426433759354395034, 0, false⟩ : Decimal).value +
          (⟨5, 1, true⟩ : Decimal).value)
        ((⟨7922816251426433759354395034, 0, false⟩ : Decimal).add ⟨5, 1, true⟩) := by
  have hrun : (⟨7922816251426433759354395034, 0, false⟩ : Decimal).add ⟨5, 1, true⟩ =
      pure ⟨7922816251426433759354395033, 0, false⟩ := by decide
  refine ⟨by decide, by decide, ?_⟩
  rw [hrun, exactOrRounded_pure]
  rintro ⟨hexact, -⟩
  have hrep : Representable ((⟨7922816251426433759354395034, 0, false⟩ : Decimal).value +
      (⟨5, 1, true⟩ : Decimal).value) :=
    ⟨79228162514264337593543950335, 1, by decide, by decide, by norm_num [value]⟩
  have h := hexact hrep
  norm_num [value] at h

end SharpRuntime.Analysis.DecimalAddition
