import SharpRuntime.Machine.Bytes
import SharpRuntime.Machine.FloatGrid
import SharpRuntime.Model.Half

/-!
# Conversions between `float` and `Half`

The code that `fromSingle` puts together, exponent field and mantissa field, is a binade's first
code and the rounded significand, so that every carry of the rounding falls into place and the code
is the nearest one (`halfCode_nearest`).  `toSingle` keeps the value, and what is converted back is
what it was, for it is nearest to itself.
-/

set_option autoImplicit false

namespace SharpRuntime.Analysis.HalfConversions

open Machine Model Model.Half
open BinaryFormat

def half : BinaryFormat := ⟨10, 31, 24⟩

def single : BinaryFormat := ⟨23, 255, 149⟩

theorem half_infinity : half.infinity = 0x7C00 := rfl

theorem single_infinity : single.infinity = 0x7F800000 := rfl

theorem half_signBit : half.signBit = 2 ^ 15 := rfl

theorem single_signBit : single.signBit = 2 ^ 31 := rfl

theorem and_ones (n k : ℕ) : n &&& (2 ^ k - 1) = n % 2 ^ k := Nat.and_two_pow_sub_one_eq_mod n k

theorem dropLow_eq (s : ℕ) {d : ℕ} (hd : 0 < d) :
    dropLow s d =
      if 2 * (s % 2 ^ d) < 2 ^ d ∨ (2 * (s % 2 ^ d) = 2 ^ d ∧ Even (s / 2 ^ d)) then s / 2 ^ d
      else s / 2 ^ d + 1 := by
  obtain ⟨k, rfl⟩ : ∃ k, d = k + 1 := ⟨d - 1, by omega⟩
  have hodd : s / 2 ^ (k + 1) &&& 1 ≠ 0 ↔ ¬ Even (s / 2 ^ (k + 1)) := by
    rw [Nat.and_one_is_mod, Nat.even_iff]
  rw [dropLow]
  simp only [Nat.one_shiftLeft, and_ones, Nat.shiftRight_eq_div_pow, Nat.add_sub_cancel, hodd]
  by_cases hup : s % 2 ^ (k + 1) > 2 ^ k ∨ (s % 2 ^ (k + 1) = 2 ^ k ∧ ¬ Even (s / 2 ^ (k + 1)))
  · grind
  · grind

theorem dropLow_nearestEven (s : ℕ) {d : ℕ} (hd : 0 < d) :
    NearestEven ((s : ℚ) / (2 ^ d : ℕ)) ((dropLow s d : ℕ) : ℤ) := by
  rw [dropLow_eq s hd]
  exact nearestEven_div s (Nat.two_pow_pos d)

theorem dropLow_bounds {s d low high : ℕ} (hd : 0 < d) (hlow : low * 2 ^ d ≤ s)
    (hhigh : s < high * 2 ^ d) : low ≤ dropLow s d ∧ dropLow s d ≤ high := by
  have hpos : 0 < 2 ^ d := Nat.two_pow_pos d
  have hle : low ≤ s / 2 ^ d := (Nat.le_div_iff_mul_le hpos).mpr hlow
  have hlt : s / 2 ^ d < high := (Nat.div_lt_iff_lt_mul hpos).mpr hhigh
  rw [dropLow_eq s hd]
  split <;> omega

/-- A carry out of the significand goes on into the exponent field. -/
theorem fields_code {e r : ℕ} (hr : r ≤ 2048) (hlow : e = 0 ∧ r ≤ 1024 ∨ 0 < e ∧ 1024 ≤ r) :
    (fields e r).1 * 1024 + (fields e r).2 = (e - 1) * 1024 + r ∧ (fields e r).2 < 1024 := by
  have hmask : ∀ n, n &&& 0x3FF = n % 1024 := fun n => and_ones n 10
  rw [fields]
  rcases hlow with ⟨rfl, hr'⟩ | ⟨he, hr'⟩
  · grind
  · grind

/-- The code that `fromSingle` gives a finite magnitude.
SOURCE: Half.hpp:98-147 -/
def halfCode (absF : ℕ) : ℕ :=
  if absF < 2 ^ 23 then 0
  else
    let e := absF / 2 ^ 23
    let significand := 2 ^ 23 + absF % 2 ^ 23
    if 143 ≤ e then 0x7C00
    else if 113 ≤ e then (e - 113) * 1024 + dropLow significand 13
    else if e ≤ 101 then 0
    else dropLow significand (126 - e)

theorem scaled_of_le {absF : ℕ} (h : 2 ^ 23 ≤ absF) :
    scaled 23 absF = (2 ^ 23 + absF % 2 ^ 23) * 2 ^ (absF / 2 ^ 23 - 1) := by
  rw [scaled, if_neg]
  have := Nat.div_pos h (by decide)
  omega

theorem half_strictMono : StrictMono fun a => (scaled 10 a : ℚ) := fun _ _ hab =>
  Nat.cast_lt.mpr (scaled_strictMono 10 hab)

theorem nearest_zero {x : ℚ} (h : x < 1 / 2) :
    NearestOn (fun a => (scaled 10 a : ℚ)) 0x7C00 x 0 := by
  have hone : (scaled 10 (0 + 1) : ℚ) = 1 := by simp [scaled]
  refine NearestOn.of_neighbours half_strictMono (by decide) (fun d hd => by omega) (Or.inl ?_)
  grind

theorem halfCode_nearest_scaled {absF : ℕ} (h : absF < 0x7F800000) :
    NearestOn (fun a => (scaled 10 a : ℚ)) 0x7C00 ((scaled 23 absF : ℚ) / 2 ^ 125)
      (halfCode absF) := by
  rw [halfCode]
  by_cases hsub : absF < 2 ^ 23
  · -- a subnormal `float`
    rw [if_pos hsub]
    have hscaled : scaled 23 absF = absF := by
      rw [scaled, Nat.div_eq_of_lt hsub, if_pos rfl, Nat.mod_eq_of_lt hsub]
    have hlt : (absF : ℚ) < 2 ^ 23 := by exact_mod_cast hsub
    rw [hscaled]
    refine nearest_zero ?_
    linarith
  · rw [if_neg hsub, scaled_of_le (by omega)]
    obtain ⟨e, he⟩ : ∃ e, absF / 2 ^ 23 = e := ⟨_, rfl⟩
    obtain ⟨s, hs⟩ : ∃ s, 2 ^ 23 + absF % 2 ^ 23 = s := ⟨_, rfl⟩
    have hslow : 2 ^ 23 ≤ s := by omega
    have hshigh : s < 2 ^ 24 := by omega
    have hslow' : (2 ^ 23 : ℚ) ≤ s := by exact_mod_cast hslow
    have hshigh' : (s : ℚ) < 2 ^ 24 := by exact_mod_cast hshigh
    rw [he, hs]
    push_cast
    by_cases hover : 143 ≤ e
    · rw [if_pos hover]
      refine NearestOn.of_top_le half_strictMono ?_
      have htop : (scaled 10 0x7C00 : ℚ) = 2 ^ 40 := by norm_num [scaled]
      have hpow : (2 ^ 142 : ℚ) ≤ 2 ^ (e - 1) := pow_le_pow_right₀ (by norm_num) (by omega)
      nlinarith
    · rw [if_neg hover]
      by_cases hnormal : 113 ≤ e
      · rw [if_pos hnormal]
        have hbounds := @dropLow_bounds s 13 1024 2048 (by decide) (by omega) (by omega)
        have hy : (s : ℚ) * 2 ^ (e - 1) / 2 ^ 125 = (s : ℚ) / (2 ^ 13 : ℕ) * 2 ^ (e - 113) := by
          obtain ⟨k, rfl⟩ : ∃ k, e = k + 113 := ⟨e - 113, by omega⟩
          grind
        rw [hy]
        refine nearest_of_nearestEven (by decide) (Or.inr ?_) ?_ (dropLow_nearestEven s (by decide))
          (by omega)
        · linarith
        · linarith
      · rw [if_neg hnormal]
        have hy : (s : ℚ) * 2 ^ (e - 1) / 2 ^ 125 = (s : ℚ) / (2 ^ (126 - e) : ℕ) := by
          rw [div_eq_div_iff (by positivity) (by positivity), mul_assoc]
          push_cast
          rw [← pow_add, show e - 1 + (126 - e) = 125 by omega]
        by_cases hunder : e ≤ 101
        · rw [if_pos hunder, hy]
          refine nearest_zero ?_
          have hpow : (2 ^ 25 : ℚ) ≤ (2 ^ (126 - e) : ℕ) := by
            push_cast
            exact pow_le_pow_right₀ (by norm_num) (by omega)
          rw [div_lt_iff₀ (by positivity)]
          linarith
        · rw [if_neg hunder, hy]
          have hdrop : 2 ^ 14 ≤ 2 ^ (126 - e) := Nat.pow_le_pow_right (by decide) (by omega)
          have hbounds := @dropLow_bounds s (126 - e) 0 1024 (by omega) (by omega) (by omega)
          have hquotient : (s : ℚ) / (2 ^ (126 - e) : ℕ) ≤ (2 ^ 10 * 2 : ℕ) := by
            have hdrop' : (2 ^ 14 : ℚ) ≤ (2 ^ (126 - e) : ℕ) := by exact_mod_cast hdrop
            rw [div_le_iff₀ (by positivity)]
            push_cast at hdrop' ⊢
            linarith
          have hnear : NearestOn (fun a => (scaled 10 a : ℚ)) 0x7C00
              ((s : ℚ) / (2 ^ (126 - e) : ℕ) * 2 ^ 0) (0 * 2 ^ 10 + dropLow s (126 - e)) :=
            nearest_of_nearestEven (by decide) (Or.inl ⟨rfl, by positivity⟩) hquotient
              (dropLow_nearestEven s (by omega)) (by omega)
          simpa using hnear

/-- **The code is the nearest one**, the code of infinity standing for the number that would come
after the largest. -/
theorem halfCode_nearest {absF : ℕ} (h : absF < 0x7F800000) :
    NearestOn half.magnitude 0x7C00 (single.magnitude absF) (halfCode absF) := by
  have hnear := (halfCode_nearest_scaled h).div (show (0 : ℚ) < 2 ^ 24 by positivity)
  have hunit : (scaled 23 absF : ℚ) / 2 ^ 125 / 2 ^ 24 = single.magnitude absF := by
    rw [div_div, ← pow_add]
    rfl
  rwa [hunit] at hnear

theorem toNat_eq (F : BinaryFormat) {w : ℕ} (h : w < F.signBit * 2) :
    w = (if F.negative w then F.signBit else 0) + F.code w := by
  rw [negative, code]
  by_cases hneg : F.signBit ≤ w
  · rw [if_pos (decide_eq_true hneg), Nat.mod_eq_sub_mod hneg, Nat.mod_eq_of_lt (by omega)]
    omega
  · rw [if_neg (by simpa using hneg), Nat.mod_eq_of_lt (by omega), Nat.zero_add]

theorem negative_code (F : BinaryFormat) {neg : Bool} {w c : ℕ} (hc : c < F.signBit)
    (h : w = (if neg then F.signBit else 0) + c) : F.negative w = neg ∧ F.code w = c := by
  rw [negative, code, h]
  cases neg with
  | true => exact ⟨by simp, by rw [if_pos rfl, Nat.add_mod_left, Nat.mod_eq_of_lt hc]⟩
  | false => exact ⟨by simpa using hc, by simp [Nat.mod_eq_of_lt hc]⟩

theorem sign16_eq {f : ℕ} (h : f < 2 ^ 32) :
    (f >>> 16) &&& 0x8000 = if single.negative f then 0x8000 else 0 := by
  have hbit : (f >>> 16) &&& 2 ^ 15 = ((f >>> 16).testBit 15).toNat * 2 ^ 15 :=
    Nat.and_two_pow (f >>> 16) 15
  have htest : (f >>> 16).testBit 15 = single.negative f := by
    grind [negative, single_signBit]
  have hconst : (0x8000 : ℕ) = 2 ^ 15 := rfl
  rw [hconst, hbit, htest]
  cases single.negative f <;> rfl

theorem sign_or {neg : Bool} {c : ℕ} (hc : c < 0x8000) :
    (if neg then 0x8000 else 0) ||| c = (if neg then 0x8000 else 0) + c := by
  cases neg with
  | true =>
    have hor := or_add (w := 15) 1 (show c < 2 ^ 15 from hc)
    rwa [Nat.one_mul] at hor
  | false => simp

variable (f : UInt32)

theorem fromSingle_eq : (fromSingle f).toNat = (if single.negative f.toNat then 0x8000 else 0) +
      (if 0x7F800000 < single.code f.toNat then 0x7E00
        else if single.code f.toNat = 0x7F800000 then 0x7C00 else halfCode (single.code f.toNat)) := by
  have hf : f.toNat < 2 ^ 32 := f.toNat_lt
  have habs : f.toNat &&& 0x7FFFFFFF = single.code f.toNat := and_ones f.toNat 31
  have hlt : single.code f.toNat < 2 ^ 31 := Nat.mod_lt _ (by decide)
  have hword : ∀ c, c < 0x8000 →
      (UInt16.ofNat ((if single.negative f.toNat then 0x8000 else 0) ||| c)).toNat =
        (if single.negative f.toNat then 0x8000 else 0) + c := by
    intro c hc
    rw [sign_or hc, UInt16.toNat_ofNat', Nat.mod_eq_of_lt]
    split <;> omega
  have hzero : (UInt16.ofNat (if single.negative f.toNat then 0x8000 else 0)).toNat =
      (if single.negative f.toNat then 0x8000 else 0) + 0 := by
    have := hword 0 (by decide)
    rwa [Nat.or_zero] at this
  have hassemble : ∀ field mantissa, mantissa < 1024 → field * 1024 + mantissa ≤ 0x7C00 →
      (if field ≥ 31 then UInt16.ofNat ((if single.negative f.toNat then 0x8000 else 0) ||| 0x7C00)
        else UInt16.ofNat ((if single.negative f.toNat then 0x8000 else 0) ||| field <<< 10 |||
          mantissa)).toNat =
        (if single.negative f.toNat then 0x8000 else 0) + (field * 1024 + mantissa) := by
    grind [shiftLeft_or]
  rw [fromSingle]
  rw [habs, sign16_eq hf]
  obtain ⟨absF, habsF⟩ : ∃ absF, single.code f.toNat = absF := ⟨_, rfl⟩
  rw [habsF] at hlt ⊢
  by_cases hnan : 0x7F800000 < absF
  · rw [if_pos hnan, if_pos hnan, hword _ (by decide)]
  rw [if_neg hnan, if_neg hnan]
  by_cases hinf : absF = 0x7F800000
  · rw [if_pos hinf.ge, if_pos hinf, hword _ (by decide)]
  rw [if_neg (by omega), if_neg hinf, halfCode]
  by_cases hsub : absF < 2 ^ 23
  · grind
  -- a normal `float`
  have hexp : absF >>> 23 &&& 0xFF = absF / 2 ^ 23 := by
    have hmod : absF >>> 23 &&& 0xFF = absF >>> 23 % 2 ^ 8 := and_ones _ 8
    rw [hmod, Nat.shiftRight_eq_div_pow, Nat.mod_eq_of_lt (by omega)]
  have hsignificand : absF &&& 0x7FFFFF ||| 0x800000 = 2 ^ 23 + absF % 2 ^ 23 := by
    have hor := or_add (w := 23) 1 (Nat.mod_lt absF (show 0 < 2 ^ 23 by decide))
    rw [Nat.one_mul, Nat.or_comm] at hor
    rw [← hor]
    exact congrArg (· ||| 2 ^ 23) (and_ones absF 23)
  rw [if_neg (show ¬ absF = 0 by omega), if_neg (show ¬ absF < 0x00800000 from hsub), if_neg hsub,
    hexp, hsignificand]
  obtain ⟨e, he⟩ : ∃ e, absF / 2 ^ 23 = e := ⟨_, rfl⟩
  obtain ⟨s, hs⟩ : ∃ s, 2 ^ 23 + absF % 2 ^ 23 = s := ⟨_, rfl⟩
  rw [he, hs]
  dsimp only
  by_cases hover : 143 ≤ e
  · rw [if_pos (by omega), if_pos hover, hword _ (by decide)]
  by_cases hnormal : 113 ≤ e
  · have hbounds := @dropLow_bounds s 13 1024 2048 (by decide) (by omega) (by omega)
    have hcode := @fields_code (e - 112) (dropLow s 13) hbounds.2 (Or.inr ⟨by omega, hbounds.1⟩)
    grind
  · rw [if_pos (show (e : ℤ) - 127 + 15 ≤ 0 by omega),
      if_pos (show (e : ℤ) - 127 + 15 ≤ 0 by omega), if_neg hnormal]
    by_cases hunder : e ≤ 101
    · grind
    · have hdrop : 2 ^ 14 ≤ 2 ^ (126 - e) := Nat.pow_le_pow_right (by decide) (by omega)
      have hbounds := @dropLow_bounds s (126 - e) 0 1024 (by omega) (by omega) (by omega)
      have hcode := @fields_code 0 (dropLow s (126 - e)) (by omega) (Or.inl ⟨rfl, hbounds.2⟩)
      grind

theorem halfCode_lt (absF : ℕ) (h : absF < 0x7F800000) : halfCode absF ≤ 0x7C00 :=
  (halfCode_nearest h).1

theorem fromSingle_parts : half.negative (fromSingle f).toNat = single.negative f.toNat ∧
      half.code (fromSingle f).toNat =
        if 0x7F800000 < single.code f.toNat then 0x7E00
        else if single.code f.toNat = 0x7F800000 then 0x7C00 else halfCode (single.code f.toNat) := by
  refine negative_code half ?_ (fromSingle_eq f)
  rw [half_signBit]
  split_ifs with hnan hinf
  · decide
  · decide
  · have := halfCode_lt (single.code f.toNat) (by omega)
    omega

theorem implicitBit_eq {m : ℕ} (h : m < 2048) : (m &&& 0x400 == 0) = decide (m < 1024) := by
  have hbit : m &&& 2 ^ 10 = (m.testBit 10).toNat * 2 ^ 10 := Nat.and_two_pow m 10
  have htest : m.testBit 10 = decide (1024 ≤ m) := by grind
  by_cases hm : 1024 ≤ m
  · grind
  · grind

theorem renormalize_eq {mant : ℕ} (hpos : 0 < mant) (hlt : mant < 1024) :
    ∃ k ≤ 10, renormalize mant = pure (mant * 2 ^ k, k) ∧ 1024 ≤ mant * 2 ^ k ∧
      mant * 2 ^ k < 2048 := by
  have hloop : ∀ (fuel m shift : ℕ), m < 2048 → 1024 ≤ m * 2 ^ fuel →
      ∃ k ≤ fuel, Run.whileLoop (fun s : ℕ × ℕ => s.1 &&& 0x400 == 0)
        (fun s => (pure (s.1 <<< 1, s.2 + 1) : Run Exception (ℕ × ℕ))) fuel (m, shift) =
          pure (m * 2 ^ k, shift + k) ∧ 1024 ≤ m * 2 ^ k ∧ m * 2 ^ k < 2048 := by
    intro fuel
    induction fuel with
    | zero => grind [Run.whileLoop_of_not, implicitBit_eq]
    | succ fuel ih =>
      intro m shift hm hfuel
      by_cases hdone : 1024 ≤ m
      · refine ⟨0, Nat.zero_le _, ?_, by omega, by omega⟩
        rw [Run.whileLoop_of_not, pow_zero, Nat.mul_one, Nat.add_zero]
        exact (implicitBit_eq hm).trans (decide_eq_false (by omega))
      · obtain ⟨k, hk, hrun, hlow, hhigh⟩ := ih (m * 2) (shift + 1) (by omega)
          (by rw [Nat.mul_assoc, ← pow_succ']; exact hfuel)
        rw [Nat.mul_assoc, ← pow_succ'] at hrun hlow hhigh
        refine ⟨k + 1, by omega, ?_, hlow, hhigh⟩
        have hdouble : m <<< 1 = m * 2 := Nat.shiftLeft_eq m 1
        have hstep : Run.whileLoop (fun s : ℕ × ℕ => s.1 &&& 0x400 == 0)
            (fun s => (pure (s.1 <<< 1, s.2 + 1) : Run Exception (ℕ × ℕ))) (fuel + 1) (m, shift) =
            Run.whileLoop (fun s : ℕ × ℕ => s.1 &&& 0x400 == 0)
              (fun s => pure (s.1 <<< 1, s.2 + 1)) fuel (m * 2, shift + 1) :=
          Run.whileLoop_step ((implicitBit_eq hm).trans (decide_eq_true (by omega)))
            (by rw [← hdouble])
        rw [hstep, hrun, Nat.add_assoc, Nat.add_comm 1 k]
  obtain ⟨k, hk, hrun, hbounds⟩ := hloop 10 mant 0 (by omega) (by omega)
  rw [Nat.zero_add] at hrun
  exact ⟨k, hk, hrun, hbounds⟩

theorem sign_eq {bits : ℕ} (h : bits < 2 ^ 16) :
    (bits <<< 16) &&& 0x80000000 = if half.negative bits then 2 ^ 31 else 0 := by
  have hbit : (bits <<< 16) &&& 2 ^ 31 = ((bits <<< 16).testBit 31).toNat * 2 ^ 31 :=
    Nat.and_two_pow (bits <<< 16) 31
  have htest : (bits <<< 16).testBit 31 = half.negative bits := by
    grind [negative, half_signBit]
  have hconst : (0x80000000 : ℕ) = 2 ^ 31 := rfl
  rw [hconst, hbit, htest]
  cases half.negative bits <;> rfl

theorem fields_lt {field fraction : ℕ} (hfield : field < 256) (hfraction : fraction < 1024) :
    fraction * 2 ^ 13 < 2 ^ 23 ∧ field * 2 ^ 23 + fraction * 2 ^ 13 < 2 ^ 31 := by omega

theorem or_fields (neg : Bool) {field fraction : ℕ} (hfield : field < 256)
    (hfraction : fraction < 1024) :
    (if neg then 2 ^ 31 else 0) ||| field <<< 23 ||| fraction <<< 13 =
      (if neg then 2 ^ 31 else 0) + (field * 2 ^ 23 + fraction * 2 ^ 13) := by
  obtain ⟨hlow, hcode⟩ := fields_lt hfield hfraction
  have hor : field <<< 23 ||| fraction <<< 13 = field * 2 ^ 23 + fraction * 2 ^ 13 := by
    rw [Nat.shiftLeft_eq fraction]
    exact shiftLeft_or field hlow
  rw [Nat.or_assoc, hor]
  cases neg with
  | true =>
    have hone := or_add (w := 31) 1 hcode
    rwa [Nat.one_mul] at hone
  | false => simp

theorem word_parts {neg : Bool} {n field fraction : ℕ} (hfield : field < 256)
    (hfraction : fraction < 1024)
    (hn : n = (if neg then 2 ^ 31 else 0) ||| field <<< 23 ||| fraction <<< 13) :
    single.negative (UInt32.ofNat n).toNat = neg ∧
      single.code (UInt32.ofNat n).toNat = field * 2 ^ 23 + fraction * 2 ^ 13 := by
  have hcode := (fields_lt hfield hfraction).2
  rw [or_fields neg hfield hfraction] at hn
  have hfits : n < 2 ^ 32 := by
    rw [hn]
    split <;> omega
  refine negative_code single hcode ?_
  rw [UInt32.toNat_ofNat', Nat.mod_eq_of_lt hfits, hn, single_signBit]

/-- What `toSingle` returns: the sign is kept; a code that is no number stays none, infinity stays
infinity, and a finite code stands for the same number. -/
theorem toSingle_parts (h : UInt16) :
    ∃ f, toSingle h = pure f ∧ single.negative f.toNat = half.negative h.toNat ∧
      (0x7C00 < half.code h.toNat → 0x7F800000 < single.code f.toNat) ∧
      (half.code h.toNat = 0x7C00 → single.code f.toNat = 0x7F800000) ∧
      (half.code h.toNat < 0x7C00 → single.code f.toNat < 0x7F800000 ∧
        scaled 23 (single.code f.toNat) = scaled 10 (half.code h.toNat) * 2 ^ 125) := by
  have hh : h.toNat < 2 ^ 16 := h.toNat_lt
  obtain ⟨c, hc⟩ : ∃ c, half.code h.toNat = c := ⟨_, rfl⟩
  have hmod : h.toNat % 2 ^ 15 = c := hc
  have hexp : h.toNat >>> 10 &&& 0x1F = c / 1024 := by
    have hones : h.toNat >>> 10 &&& 0x1F = h.toNat >>> 10 % 2 ^ 5 := and_ones _ 5
    omega
  have hmant : h.toNat &&& 0x3FF = c % 1024 := by
    have hones : h.toNat &&& 0x3FF = h.toNat % 2 ^ 10 := and_ones _ 10
    omega
  have hmantlt : c % 1024 < 1024 := Nat.mod_lt c (by decide)
  rw [toSingle]
  rw [sign_eq hh, hexp, hmant, hc]
  by_cases hfull : c / 1024 = 0x1F
  · rw [if_pos hfull]
    obtain ⟨hneg, hcode⟩ := @word_parts (half.negative h.toNat) _ 255 (c % 1024) (by decide) hmantlt rfl
    refine ⟨_, rfl, hneg, ?_, ?_, ?_⟩
    · intro hnan
      grind
    · intro hinf
      grind
    · intro hfin
      omega
  rw [if_neg hfull]
  have hnone : 0x7C00 < c → False := fun hlt => by omega
  by_cases hzero : c / 1024 = 0
  · rw [if_pos hzero]
    have hscaled : scaled 10 c = c := by grind [scaled]
    have hself : c % 1024 = c := by omega
    rw [hself] at hmantlt ⊢
    by_cases hnil : c = 0
    · rw [if_pos hnil]
      obtain ⟨hneg, hcode⟩ := @word_parts (half.negative h.toNat)
        (if half.negative h.toNat then 2 ^ 31 else 0) 0 0 (by decide) (by decide) (by simp)
      refine ⟨_, rfl, hneg, fun hlt => (hnone hlt).elim, fun heq => by omega, fun _ => ?_⟩
      rw [hcode, hnil]
      exact ⟨by decide, by simp [scaled]⟩
    · rw [if_neg hnil]
      obtain ⟨k, hk, hrun, hlow, hhigh⟩ := renormalize_eq (Nat.pos_of_ne_zero hnil) hmantlt
      have hfield : (-14 - (k : ℤ) + 127).toNat = 113 - k := by omega
      have hmask : c * 2 ^ k &&& 0x3FF = c * 2 ^ k - 1024 := by
        have hones : c * 2 ^ k &&& 0x3FF = c * 2 ^ k % 2 ^ 10 := and_ones _ 10
        omega
      obtain ⟨hneg, hcode⟩ := @word_parts (half.negative h.toNat) _ (113 - k) (c * 2 ^ k - 1024)
        (by omega) (by omega) rfl
      rw [hrun]
      refine ⟨_, by rw [pure_bind]; dsimp only; rw [hmask, hfield], hneg,
        fun hlt => (hnone hlt).elim, fun heq => by omega, fun _ => ?_⟩
      have hbinade : (113 - k) * 2 ^ 23 + (c * 2 ^ k - 1024) * 2 ^ 13 =
          (112 - k) * 2 ^ 23 + c * 2 ^ k * 2 ^ 13 := by omega
      rw [hcode, hbinade, scaled_binade (Or.inr (by omega)) (by omega), hscaled]
      refine ⟨by omega, ?_⟩
      rw [Nat.mul_assoc, Nat.mul_assoc, ← pow_add, ← pow_add, show k + (13 + (112 - k)) = 125 by omega]
  · rw [if_neg hzero]
    obtain ⟨hneg, hcode⟩ := @word_parts (half.negative h.toNat) _ (c / 1024 + 112) (c % 1024)
      (by omega) hmantlt rfl
    refine ⟨_, rfl, hneg, fun hlt => (hnone hlt).elim, fun heq => by omega, fun _ => ?_⟩
    obtain ⟨e, he⟩ : ∃ e, c / 1024 = e + 1 := ⟨c / 1024 - 1, by omega⟩
    have hhalf : scaled 10 c = (1024 + c % 1024) * 2 ^ e := by
      have hsplit : c = e * 2 ^ 10 + (1024 + c % 1024) := by omega
      conv_lhs => rw [hsplit]
      exact scaled_binade (Or.inr (by omega)) (by omega)
    have hbinade : (e + 1 + 112) * 2 ^ 23 + c % 1024 * 2 ^ 13 =
        (e + 112) * 2 ^ 23 + (1024 + c % 1024) * 2 ^ 13 := by omega
    rw [hcode, hhalf, he, hbinade, scaled_binade (Or.inr (by omega)) (by omega)]
    refine ⟨by omega, ?_⟩
    rw [Nat.mul_assoc, Nat.mul_assoc, ← pow_add, ← pow_add, show 13 + (e + 112) = e + 125 by omega]

theorem halfCode_eq_infinity_iff {absF : ℕ} (h : absF < 0x7F800000) :
    halfCode absF = 0x7C00 ↔ 65520 ≤ single.magnitude absF := by
  have hnear := halfCode_nearest h
  have hlast : half.magnitude 0x7BFF = 65504 := by norm_num [magnitude, scaled, half]
  have hnext : half.magnitude 0x7C00 = 65536 := by norm_num [magnitude, scaled, half]
  constructor
  · intro htop
    rw [htop] at hnear
    have hle := (hnear.2 0x7BFF (by decide)).1
    rw [NearestOn.abs_sub_le_iff_upper (half.magnitude_strictMono (by decide)), hlast, hnext] at hle
    linarith
  · intro hlarge
    refine hnear.unique half.magnitude_strictMono
      (NearestOn.of_neighbours half.magnitude_strictMono le_rfl (fun d hd => ?_) (Or.inr rfl))
    grind

/-- The `Half` is nearest to the `float`, infinity from 65520 on, and no number for no number. -/
def RoundedFrom (f : UInt32) (h : UInt16) : Prop :=
  if single.IsNaN f.toNat then half.IsNaN h.toNat
  else half.negative h.toNat = single.negative f.toNat ∧
    if single.code f.toNat < single.infinity ∧ |single.finiteValue f.toNat| < 65520 then
      half.NearestFinite h.toNat (single.finiteValue f.toNat)
    else half.code h.toNat = half.infinity

theorem fromSingle_roundedFrom : RoundedFrom f (fromSingle f) := by
  obtain ⟨hneg, hcode⟩ := fromSingle_parts f
  have habs : |single.finiteValue f.toNat| = single.magnitude (single.code f.toNat) := by
    rw [finiteValue_eq]
    split
    · rw [abs_neg, abs_of_nonneg (magnitude_nonneg _)]
    · rw [abs_of_nonneg (magnitude_nonneg _)]
  rw [RoundedFrom, habs]
  by_cases hnan : single.IsNaN f.toNat
  · rw [if_pos hnan, IsNaN, hcode,
      if_pos (show 0x7F800000 < single.code f.toNat from hnan)]
    decide
  rw [if_neg hnan]
  rw [if_neg (show ¬ 0x7F800000 < single.code f.toNat from hnan)] at hcode
  refine ⟨hneg, ?_⟩
  by_cases hinf : single.code f.toNat = 0x7F800000
  · rw [if_pos hinf] at hcode
    rw [if_neg (by rw [hinf, single_infinity]; omega), hcode, half_infinity]
  rw [if_neg hinf] at hcode
  have hfin : single.code f.toNat < 0x7F800000 := by
    rw [IsNaN, single_infinity] at hnan
    omega
  by_cases hsmall : single.magnitude (single.code f.toNat) < 65520
  · rw [if_pos ⟨hfin, hsmall⟩]
    have hne : halfCode (single.code f.toNat) ≠ 0x7C00 := by
      rw [Ne, halfCode_eq_infinity_iff hfin]
      exact not_le.mpr hsmall
    have hle := halfCode_lt _ hfin
    refine nearestFinite_of_code ?_ (magnitude_nonneg _) ?_
      (hcode ▸ halfCode_nearest hfin)
    · rw [hneg, finiteValue_eq]
    · rw [hcode, half_infinity]
      omega
  · grind [half_infinity, halfCode_eq_infinity_iff]

theorem magnitude_eq {c d : ℕ} (h : scaled 23 c = scaled 10 d * 2 ^ 125) :
    single.magnitude c = half.magnitude d := by
  have hleft : single.magnitude c = scaled 23 c / 2 ^ 149 := rfl
  have hright : half.magnitude d = scaled 10 d / 2 ^ 24 := rfl
  rw [hleft, hright, h, div_eq_div_iff (by positivity) (by positivity)]
  push_cast
  ring

theorem toSingle_exact (h : UInt16) :
    ∃ f, toSingle h = pure f ∧ (half.IsNaN h.toNat → single.IsNaN f.toNat) ∧
      (¬ half.IsNaN h.toNat → ¬ single.IsNaN f.toNat ∧
        single.negative f.toNat = half.negative h.toNat ∧
        single.value f.toNat = half.value h.toNat ∧ fromSingle f = h) := by
  obtain ⟨f, hrun, hneg, hnan, hinf, hfin⟩ := toSingle_parts h
  refine ⟨f, hrun, hnan, fun hnumber => ?_⟩
  have hback : ∀ c, half.code (fromSingle f).toNat = c → half.code h.toNat = c →
      fromSingle f = h := by
    intro c hc hc'
    apply UInt16.toNat_inj.mp
    rw [toNat_eq half (fromSingle f).toNat_lt, toNat_eq half h.toNat_lt, hc, hc',
      (fromSingle_parts f).1, hneg]
  have hcode := (fromSingle_parts f).2
  rcases Nat.lt_or_ge (half.code h.toNat) 0x7C00 with hlt | hge
  · obtain ⟨hsmall, hscaled⟩ := hfin hlt
    have hmagnitude := magnitude_eq hscaled
    refine ⟨by rw [IsNaN, single_infinity]; omega, hneg, ?_, ?_⟩
    · simp [value, show single.code f.toNat < single.infinity from hsmall,
        show half.code h.toNat < half.infinity from hlt, finiteValue_eq, hneg,
        hmagnitude]
    · rw [if_neg (by omega), if_neg (by omega)] at hcode
      have hnear := halfCode_nearest hsmall
      rw [hmagnitude] at hnear
      have hself := NearestOn.self half.magnitude_strictMono hlt.le
      exact hback _ hcode (hself.unique half.magnitude_strictMono hnear)
  · grind [IsNaN, single_infinity, half_infinity, value]

/-- The code of the `Half` for a code that is no `float`'s but a number's. -/
def numberCode (c : ℕ) : ℕ := if c = 0x7F800000 then 0x7C00 else halfCode c

theorem numberCode_mono {c d : ℕ} (hcd : c ≤ d) (hd : d ≤ 0x7F800000) :
    numberCode c ≤ numberCode d := by
  rw [numberCode, numberCode]
  by_cases htop : d = 0x7F800000
  · grind [halfCode_lt]
  · rw [if_neg htop, if_neg (by omega)]
    exact (halfCode_nearest (by omega)).mono half.magnitude_strictMono (halfCode_nearest (by omega))
      (single.magnitude_strictMono.monotone hcd)

theorem fromSingle_rank {f : UInt32} (h : ¬ single.IsNaN f.toNat) :
    half.rank (fromSingle f).toNat = if single.negative f.toNat then
      -(numberCode (single.code f.toNat) : ℤ) else numberCode (single.code f.toNat) := by
  obtain ⟨hneg, hcode⟩ := fromSingle_parts f
  rw [if_neg (show ¬ 0x7F800000 < single.code f.toNat from h)] at hcode
  rw [rank, hneg, hcode, numberCode]

theorem fromSingle_number {f : UInt32} (h : ¬ single.IsNaN f.toNat) :
    ¬ half.IsNaN (fromSingle f).toNat := by
  grind [IsNaN, single_infinity, fromSingle_parts, half_infinity, halfCode_lt]

theorem fromSingle_mono {f f' : UInt32} (h : ¬ single.IsNaN f.toNat)
    (h' : ¬ single.IsNaN f'.toNat) (hle : single.value f.toNat ≤ single.value f'.toNat) :
    half.value (fromSingle f).toNat ≤ half.value (fromSingle f').toNat := by
  rw [value_le_value_iff (by decide) h h', rank,
    rank] at hle
  rw [value_le_value_iff (by decide) (fromSingle_number h) (fromSingle_number h'),
    fromSingle_rank h, fromSingle_rank h']
  rw [IsNaN, single_infinity, not_lt] at h h'
  have hzero : numberCode 0 = 0 := by decide
  cases hneg : single.negative f.toNat <;> cases hneg' : single.negative f'.toNat <;>
    simp only [hneg, hneg', Bool.false_eq_true, if_false, if_true] at hle ⊢
  · exact Int.ofNat_le.mpr (numberCode_mono (Int.ofNat_le.mp hle) h')
  · -- both are zeros
    have hc : single.code f.toNat = 0 := by omega
    have hc' : single.code f'.toNat = 0 := by omega
    rw [hc, hc', hzero]
    decide
  · omega
  · have hcodes : single.code f'.toNat ≤ single.code f.toNat := by omega
    have := numberCode_mono hcodes h
    omega

/-- **The conversions are exact.**  `fromSingle` rounds every `float` to the nearest `Half`, ties
to the even one, and keeps the order; `toSingle` keeps the value, and `fromSingle` takes it back. -/
theorem conversions_exact :
    (∀ f : UInt32, RoundedFrom f (fromSingle f)) ∧
    (∀ h : UInt16, ∃ f, toSingle h = pure f ∧ (half.IsNaN h.toNat → single.IsNaN f.toNat) ∧
      (¬ half.IsNaN h.toNat → ¬ single.IsNaN f.toNat ∧
        single.negative f.toNat = half.negative h.toNat ∧
        single.value f.toNat = half.value h.toNat ∧ fromSingle f = h)) ∧
    (∀ f f' : UInt32, ¬ single.IsNaN f.toNat → ¬ single.IsNaN f'.toNat →
      single.value f.toNat ≤ single.value f'.toNat →
      half.value (fromSingle f).toNat ≤ half.value (fromSingle f').toNat) :=
  ⟨fromSingle_roundedFrom, toSingle_exact, fun _ _ => fromSingle_mono⟩

end SharpRuntime.Analysis.HalfConversions
