import Mathlib

/-!
# Integers in double precision

A `double` is Lean's `Float`, whose logical model packs a sign, a significand and an exponent.  A
significand of 53 bits comes back from its packed form (`unpack_pack_finite`), and rounding only
drops zeros below it (`round_exact`).  So the integers below `2 ^ 53` are multiplied (`ofInt_mul`),
cut off (`toInt64_ofInt`) and compared with larger numbers (`ofInt_inside`) exactly.
-/

set_option autoImplicit false

namespace Machine.Binary64

open Float.Model Float.Model.UnpackedFloat

def ofInt (n : ℤ) : Float := .ofModel (Float.Model.ofInt n)

/-- The double of a 64-bit integer, cut off after the point; a number out of range is clamped. -/
def toInt64 (x : Float) : Int64 := x.toModel.toInt64

theorem unpackSign_packComponents {spec : Format} {s : Sign} {exponent mantissa} :
    unpackSign (packComponents spec s exponent mantissa) = s.toBitVec := by
  ext i hi
  obtain rfl : i = 0 := by omega
  simp [unpackSign, packComponents, BitVec.getLsbD_append, BitVec.getElem_append]

variable (s : Sign)

theorem ofBitVec_toBitVec : Sign.ofBitVec s.toBitVec = s := by
  cases s <;> rfl

variable {M : ℕ}

theorem toNat_implicit (hM : M.log2 = 52) (hpos : 0 < M) :
    (1#1 ++ BitVec.ofNat 52 M).toNat = M := by
  have hlow := Nat.log2_self_le hpos.ne'
  have hhigh := Nat.lt_log2_self (n := M)
  rw [hM] at hlow hhigh
  have hstored : (BitVec.ofNat 52 M).toNat = M - 2 ^ 52 := by
    rw [BitVec.toNat_ofNat, Nat.mod_eq_sub_mod hlow, Nat.mod_eq_of_lt (by omega)]
  have himplicit : (1#1).toNat <<< 52 = 2 ^ 52 := by decide
  rw [BitVec.toNat_append, ← Nat.shiftLeft_add_eq_or_of_lt (BitVec.isLt _), hstored, himplicit]
  omega

/-- A normal number survives being packed. -/
theorem unpack_pack_finite {s : Sign} {e : ℤ} (hM : M.log2 = 52) (hpos : 0 < M)
    (hlo : -1074 ≤ e) (hhi : e ≤ 971) :
    (Float.Model.pack (.finite s M e hpos)).unpack = .finite s M e hpos := by
  have hbias : (Format.binary64.exponentBias : ℤ) = 1023 := by decide
  have hbiased : (e + (Format.binary64.exponentBias : ℤ) + (52 : ℕ)).toNat = (e + 1075).toNat := by
    omega
  have hpack : UnpackedFloat.pack .binary64 (.finite s M e hpos) =
      packComponents .binary64 s (BitVec.ofNat 11 (e + 1075).toNat) (BitVec.ofNat 52 M) := by
    rw [UnpackedFloat.pack]
    simp only [hbiased, hM]
    rw [if_neg (by omega), if_pos (by decide)]
  have hexponent : (BitVec.ofNat 11 (e + 1075).toNat).toNat = (e + 1075).toNat := by
    rw [BitVec.toNat_ofNat, Nat.mod_eq_of_lt (by omega)]
  have hother : ∀ b : BitVec 11, b.toNat = 0 ∨ b.toNat = 2047 →
      BitVec.ofNat 11 (e + 1075).toNat ≠ b := fun b hb h => by
    have hvalue := congrArg BitVec.toNat h
    omega
  change UnpackedFloat.unpack .binary64 (UnpackedFloat.pack .binary64 (.finite s M e hpos)) = _
  rw [hpack, UnpackedFloat.unpack]
  simp only [unpackMantissa_packComponents, unpackExponent_packComponents,
    unpackSign_packComponents, ofBitVec_toBitVec]
  rw [if_neg (hother (-1#11) (Or.inr (by decide))), if_neg (hother 0#11 (Or.inl (by decide)))]
  simp only [toNat_implicit hM hpos, hexponent, hbias]
  congr 1
  omega

theorem targetExponent_eq (m : ℕ) (e : ℤ) :
    Format.binary64.targetExponent (totalExponent m e) = max (m.log2 + e - 52) (-1074) := by
  simp only [Format.targetExponent, totalExponent, Format.mantissaBits, Format.minExponent]
  omega

variable {m : ℕ}

theorem log2_mul_two_pow (hm : 0 < m) (k : ℕ) : (m * 2 ^ k).log2 = m.log2 + k := by
  have hlo := Nat.log2_self_le hm.ne'
  have hhi := Nat.lt_log2_self (n := m)
  have hpow : 0 < 2 ^ k := Nat.two_pow_pos k
  refine (Nat.log2_eq_iff (Nat.mul_pos hm hpow).ne').mpr ⟨?_, ?_⟩
  · rw [pow_add]
    exact Nat.mul_le_mul_right _ hlo
  · rw [add_right_comm, pow_add]
    exact Nat.mul_lt_mul_of_pos_right hhi hpow

/-- Zeros are dropped without a trace.  By induction on their number. -/
theorem shiftRight_exact (M k : ℕ) :
    (⟨M * 2 ^ k, false, false⟩ : ExtendedMantissa) >>> k = ⟨M, false, false⟩ := by
  induction k generalizing M with
  | zero =>
    rw [pow_zero, mul_one]
    rfl
  | succ k ih =>
    have hsplit : M * 2 ^ (k + 1) = M * 2 * 2 ^ k := by ring
    rw [hsplit]
    change ((⟨M * 2 * 2 ^ k, false, false⟩ : ExtendedMantissa) >>> k).shiftRightOne = _
    rw [ih, ExtendedMantissa.shiftRightOne]
    simp

/-- A significand with trailing zeros is rounded to itself. -/
theorem round_exact {k : ℕ} {e : ℤ} (hM : M.log2 = 52) (hpos : 0 < M) (he : -1074 ≤ e + k)
    (s : Sign) :
    roundWithAccuracy .binary64 s (M * 2 ^ k) e .exact = .finite s M (e + k) hpos := by
  have hlog := log2_mul_two_pow hpos k
  have hfirst : shiftToTargetExponent .binary64 (M * 2 ^ k) e .exact =
      (⟨M, false, false⟩, e + k) := by
    have hamount : (max (((M * 2 ^ k).log2 : ℤ) + e - 52) (-1074) - e).toNat = k := by omega
    rw [shiftToTargetExponent, targetExponent_eq, shiftToExponent, hamount]
    exact congrArg (·, e + (k : ℤ)) (shiftRight_exact M k)
  have hsecond : shiftToTargetExponent .binary64 M (e + k) .exact =
      (⟨M, false, false⟩, e + k) := by
    have hamount : (max ((M.log2 : ℤ) + (e + k) - 52) (-1074) - (e + k)).toNat = 0 := by omega
    rw [shiftToTargetExponent, targetExponent_eq, shiftToExponent, hamount]
    exact congrArg (_, ·) (add_zero _)
  simp only [roundWithAccuracy, hfirst, ExtendedMantissa.roundedMantissa, ExtendedMantissa.accuracy,
    Accuracy.roundToNearestEven, hsecond]
  exact dif_neg hpos.ne'

def significand (m : ℕ) : ℕ := m * 2 ^ (52 - m.log2)

theorem significand_pos (hm : 0 < m) : 0 < significand m :=
  Nat.mul_pos hm (Nat.two_pow_pos _)

theorem log2_le (hm : 0 < m) (hlt : m < 2 ^ 53) : m.log2 ≤ 52 :=
  Nat.le_of_lt_succ ((Nat.log2_lt hm.ne').mpr hlt)

theorem log2_significand (hm : 0 < m) (hlt : m < 2 ^ 53) : (significand m).log2 = 52 := by
  have hle := log2_le hm hlt
  rw [significand, log2_mul_two_pow hm]
  omega

def exactly (s : Sign) (m : ℕ) (hm : 0 < m) : UnpackedFloat :=
  .finite s (significand m) (m.log2 - 52) (significand_pos hm)

theorem unpack_pack_exactly (s : Sign) (hm : 0 < m) (hlt : m < 2 ^ 53) :
    (Float.Model.pack (exactly s m hm)).unpack = exactly s m hm := by
  have hle := log2_le hm hlt
  exact unpack_pack_finite (log2_significand hm hlt) (significand_pos hm) (by omega) (by omega)

theorem round_eq (s : Sign) (hm : 0 < m) (hlt : m < 2 ^ 53) :
    round .binary64 s m 0 = exactly s m hm := by
  have hle := log2_le hm hlt
  have hexact := round_exact (k := 0) (e := m.log2 - 52) (log2_significand hm hlt)
    (significand_pos hm) (by omega) s
  have htarget : max ((m.log2 : ℤ) + 0 - 52) (-1074) = m.log2 - 52 := by omega
  have hamount : ((0 : ℤ) - (m.log2 - 52)).toNat = 52 - m.log2 := by omega
  have hexponent : (0 : ℤ) - (52 - m.log2 : ℕ) = m.log2 - 52 := by omega
  rw [pow_zero, mul_one, Nat.cast_zero, add_zero] at hexact
  rw [UnpackedFloat.round, targetExponent_eq, htarget]
  simp only [decreaseExponent, hamount, hexponent, Nat.shiftLeft_eq]
  exact hexact

theorem normalize_apply (hm : 0 < m) :
    UnpackedFloat.ofInt .binary64 (s.apply m) = round .binary64 s m 0 := by
  rw [UnpackedFloat.ofInt, UnpackedFloat.normalize]
  cases s with
  | negative => grind [Sign.apply]
  | positive => grind [Sign.apply]

theorem ofInt_apply (hm : 0 < m) (hlt : m < 2 ^ 53) :
    Float.Model.ofInt (s.apply m) = Float.Model.pack (exactly s m hm) := by
  rw [Float.Model.ofInt, normalize_apply s hm, round_eq s hm hlt]

variable {n : ℤ}

theorem exists_apply (hn : n ≠ 0) : ∃ s, ∃ m : ℕ, 0 < m ∧ n = Sign.apply s m := by
  rcases lt_or_gt_of_ne hn with h | h
  · exact ⟨.negative, n.natAbs, by omega, by rw [Sign.apply]; omega⟩
  · exact ⟨.positive, n.natAbs, by omega, by rw [Sign.apply]; omega⟩

theorem abs_apply (m : ℕ) : |s.apply m| = m := by
  cases s with
  | negative => rw [Sign.apply, abs_neg, Nat.abs_cast]
  | positive => rw [Sign.apply, Nat.abs_cast]

theorem apply_mul_apply (t : Sign) (m n : ℕ) :
    s.apply m * t.apply n = (s * t).apply (m * n : ℕ) := by
  have hcast : ((m * n : ℕ) : ℤ) = m * n := Nat.cast_mul m n
  cases s <;> cases t
  · exact (neg_mul_neg _ _).trans hcast.symm
  · exact (neg_mul _ _).trans (congrArg Neg.neg hcast.symm)
  · exact (mul_neg _ _).trans (congrArg Neg.neg hcast.symm)
  · exact hcast.symm

theorem mul_exactly (s t : Sign) {n : ℕ} (hm : 0 < m) (hn : 0 < n) (hlt : m * n < 2 ^ 53) :
    UnpackedFloat.mul .binary64 (exactly s m hm) (exactly t n hn) =
      exactly (s * t) (m * n) (Nat.mul_pos hm hn) := by
  have hmn := Nat.mul_pos hm hn
  have hmlt : m < 2 ^ 53 := lt_of_le_of_lt (Nat.le_mul_of_pos_right m hn) hlt
  have hnlt : n < 2 ^ 53 := lt_of_le_of_lt (Nat.le_mul_of_pos_left n hm) hlt
  have hlm := log2_le hm hmlt
  have hln := log2_le hn hnlt
  have hlmn := log2_le hmn hlt
  have hsum : m.log2 + n.log2 ≤ (m * n).log2 := by
    rw [Nat.le_log2 hmn.ne', pow_add]
    exact Nat.mul_le_mul (Nat.log2_self_le hm.ne') (Nat.log2_self_le hn.ne')
  -- the zeros below the two factors are those below the product, and some more
  have hproduct : significand m * significand n =
      significand (m * n) * 2 ^ (52 + (m * n).log2 - m.log2 - n.log2) := by
    have hsplit : 52 - m.log2 + (52 - n.log2) =
        52 - (m * n).log2 + (52 + (m * n).log2 - m.log2 - n.log2) := by omega
    rw [significand, significand, significand, mul_mul_mul_comm, ← pow_add, hsplit, pow_add,
      mul_assoc (m * n)]
  have hround := round_exact (k := 52 + (m * n).log2 - m.log2 - n.log2)
    (e := (m.log2 - 52) + (n.log2 - 52)) (log2_significand hmn hlt) (significand_pos hmn)
    (by omega) (s * t)
  rw [← hproduct] at hround
  refine hround.trans ?_
  congr 1
  omega

/-- Products of integers below `2 ^ 53` are exact. -/
theorem ofInt_mul {a b : ℤ} (hb : 0 < b) (hlt : b < 2 ^ 53) (hab : |a * b| < 2 ^ 53) :
    ofInt a * ofInt b = ofInt (a * b) := by
  change Float.ofModel (Float.Model.pack (UnpackedFloat.mul .binary64 (Float.Model.ofInt a).unpack
    (Float.Model.ofInt b).unpack)) = Float.ofModel (Float.Model.ofInt (a * b))
  obtain ⟨n, rfl⟩ := Int.eq_ofNat_of_zero_le hb.le
  have hn : 0 < n := by omega
  have hofb := ofInt_apply .positive hn (by omega)
  change Float.Model.ofInt (n : ℤ) = _ at hofb
  rw [hofb, unpack_pack_exactly .positive hn (by omega)]
  by_cases ha : a = 0
  · rw [ha, zero_mul]
    rfl
  · obtain ⟨s, m, hm, rfl⟩ := exists_apply ha
    have heq := apply_mul_apply s .positive m n
    change s.apply m * (n : ℤ) = _ at heq
    rw [heq, abs_apply] at hab
    have hmn : m * n < 2 ^ 53 := by exact_mod_cast hab
    have hmlt : m < 2 ^ 53 := lt_of_le_of_lt (Nat.le_mul_of_pos_right m hn) hmn
    rw [heq, ofInt_apply s hm hmlt, unpack_pack_exactly s hm hmlt,
      ofInt_apply _ (Nat.mul_pos hm hn) hmn, mul_exactly s .positive hm hn hmn]

theorem roundToInt_exactly (hm : 0 < m) (hlt : m < 2 ^ 53) :
    roundToInt s (significand m) (m.log2 - 52) = s.apply m := by
  have hle := log2_le hm hlt
  have hnone : ((m.log2 : ℤ) - 52 - 0).toNat = 0 := by omega
  have hamount : ((0 : ℤ) - ((m.log2 : ℤ) - 52 - (0 : ℕ))).toNat = 52 - m.log2 := by omega
  have hshift := shiftRight_exact m (52 - m.log2)
  rw [roundToInt]
  simp only [decreaseExponent, shiftToExponent, hnone, hamount, Nat.shiftLeft_zero]
  exact congrArg (fun em : ExtendedMantissa => s.apply em.mantissa) hshift

/-- Integers below `2 ^ 53` come back from a double. -/
theorem toInt64_ofInt (hlt : |n| < 2 ^ 53) : toInt64 (ofInt n) = Int64.ofInt n := by
  change (Float.Model.ofInt n).unpack.toInt64 = _
  by_cases hn : n = 0
  · rw [hn]
    rfl
  · have hrange := abs_lt.mp hlt
    obtain ⟨s, m, hm, rfl⟩ := exists_apply hn
    rw [abs_apply] at hlt
    have hmlt : m < 2 ^ 53 := by exact_mod_cast hlt
    have hlo : Int64.minValue.toInt ≤ s.apply m := le_trans (by decide) hrange.1.le
    have hhi : s.apply m ≤ Int64.maxValue.toInt := le_trans hrange.2.le (by decide)
    rw [ofInt_apply s hm hmlt, unpack_pack_exactly s hm hmlt, ← Int64.ofIntLE_eq_ofInt hlo hhi,
      Int64.ofIntLE_eq_ofIntClamp, ← roundToInt_exactly s hm hmlt]
    rfl

theorem unpack_ofInt_between (hlt : |n| < 2 ^ 53) :
    (Float.Model.ofInt n).unpack.isNaN = false ∧ ∀ {M : ℕ} {e : ℤ} (hM : 0 < M), 0 < e →
      (Float.Model.ofInt n).unpack.compare (.finite .positive M e hM) = some .lt ∧
        UnpackedFloat.compare (.finite .positive M e hM) (Float.Model.ofInt n).unpack = some .gt ∧
        (Float.Model.ofInt n).unpack.compare (.finite .negative M e hM) = some .gt := by
  by_cases hn : n = 0
  · rw [hn]
    exact ⟨rfl, fun hM _ => ⟨rfl, rfl, rfl⟩⟩
  · obtain ⟨s, m, hm, rfl⟩ := exists_apply hn
    rw [abs_apply] at hlt
    have hmlt : m < 2 ^ 53 := by exact_mod_cast hlt
    have hle := log2_le hm hmlt
    rw [ofInt_apply s hm hmlt, unpack_pack_exactly s hm hmlt]
    refine ⟨rfl, fun {M e} hM he => ?_⟩
    have hbelow : compare ((m.log2 : ℤ) - 52) e = .lt := compare_lt_iff_lt.mpr (by omega)
    have habove : compare e ((m.log2 : ℤ) - 52) = .gt := compare_gt_iff_gt.mpr (by omega)
    cases s with
    | negative => exact ⟨rfl, rfl, by rw [exactly, UnpackedFloat.compare, hbelow]; rfl⟩
    | positive =>
      exact ⟨by rw [exactly, UnpackedFloat.compare, hbelow]; rfl,
        by rw [exactly, UnpackedFloat.compare, habove]; rfl, rfl⟩

theorem unpack_bounds :
    (Float.Model.ofInt (2 ^ 63 - 1)).unpack = .finite .positive (2 ^ 52) 11 (by decide) ∧
      (Float.Model.ofInt (-2 ^ 63)).unpack = .finite .negative (2 ^ 52) 11 (by decide) := ⟨rfl, rfl⟩

theorem ofInt_inside (hlt : |n| < 2 ^ 53) :
    (ofInt n).isNaN = false ∧ ¬ofInt (2 ^ 63 - 1) < ofInt n ∧ ¬ofInt n < ofInt (-2 ^ 63) ∧
      (ofInt n == ofInt (2 ^ 63 - 1)) = false := by
  obtain ⟨hnumber, hbetween⟩ := unpack_ofInt_between hlt
  obtain ⟨hupper, hlower⟩ := unpack_bounds
  obtain ⟨hbelow, habove, -⟩ := hbetween (M := 2 ^ 52) (e := 11) (by decide) (by decide)
  obtain ⟨-, -, hover⟩ := hbetween (M := 2 ^ 52) (e := 11) (by decide) (by decide)
  refine ⟨hnumber, fun h => ?_, fun h => ?_, ?_⟩
  · have hless : (UnpackedFloat.compare (Float.Model.ofInt (2 ^ 63 - 1)).unpack
        (Float.Model.ofInt n).unpack == some .lt) = true := of_decide_eq_true h
    rw [hupper, habove] at hless
    cases hless
  · have hless : (UnpackedFloat.compare (Float.Model.ofInt n).unpack
        (Float.Model.ofInt (-2 ^ 63)).unpack == some .lt) = true := of_decide_eq_true h
    rw [hlower, hover] at hless
    cases hless
  · change (UnpackedFloat.compare (Float.Model.ofInt n).unpack
      (Float.Model.ofInt (2 ^ 63 - 1)).unpack == some .eq) = false
    rw [hupper, hbelow]
    rfl

end Machine.Binary64
