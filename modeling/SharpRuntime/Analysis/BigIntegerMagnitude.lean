import SharpRuntime.Interface.BigIntegerValue

/-!
# Magnitude arithmetic

One specification for each magnitude helper of `BigInteger.cpp:17-87`: on vectors of
limbs it returns a vector of limbs with the stated value.  The loops carry at most one
unit of borrow and less than a limb of carry, which is what keeps every `uint64_t`
temporary from wrapping, so the `wrap`s disappear in these lemmas and nowhere else.
-/

set_option autoImplicit false

namespace SharpRuntime.Analysis.BigIntegerMagnitude

open Machine Model Model.BigInteger
open Digits

@[simp] theorem magnitude_nil : magnitude [] = 0 := rfl

@[simp] theorem magnitude_cons (x : ℕ) (l : List ℕ) :
    magnitude (x :: l) = x + base * magnitude l := Nat.ofDigits_cons

theorem magnitude_popZeros (l : List ℕ) : magnitude (popZeros l) = magnitude l :=
  ofDigits_popZeros base l

theorem wrap_limb {n : ℕ} (h : n < base) : wrap 32 (n : ℤ) = n :=
  wrap_of_lt (by simp only [base] at h; omega)

theorem wrap_mod_base (n : ℕ) : wrap 32 ((n % base : ℕ) : ℤ) = n % base :=
  wrap_limb (Nat.mod_lt n (by decide))

theorem trim_spec (negative : Bool) {mag : List ℕ} (hne : mag ≠ []) (h : Digits base mag) :
    (trim ⟨negative, mag⟩).Canonical ∧
      (trim ⟨negative, mag⟩).value = if negative then -(magnitude mag : ℤ) else magnitude mag := by
  unfold trim
  refine ⟨⟨isNumeral_popZeros hne h, fun hz => if_pos hz⟩, ?_⟩
  unfold value
  by_cases hz : popZeros mag = [0]
  · have h0 : magnitude mag = 0 := by rw [← magnitude_popZeros, hz, magnitude_zero]
    simp [hz, h0]
  · simp only [hz, if_false, magnitude_popZeros]

variable (v : ℕ)

theorem pushLimbs_spec : Digits base (pushLimbs v) ∧ magnitude (pushLimbs v) = v := by
  fun_induction pushLimbs v with
  | case1 => simp
  | case2 v hv ih =>
    obtain ⟨hd, hm⟩ := ih
    have hlt := Nat.mod_lt v (show 0 < base by decide)
    rw [wrap_mod_base]
    refine ⟨cons_iff.mpr ⟨hlt, hd⟩, ?_⟩
    rw [magnitude_cons, hm]
    exact Nat.mod_add_div v base

theorem pushLimbs_top_ne_zero : (pushLimbs v).getLast? ≠ some 0 := by
  fun_induction pushLimbs v with
  | case1 => simp
  | case2 v hv ih =>
    by_cases hdiv : v / base = 0
    · have hlt : v < base := by
        rwa [Nat.div_eq_zero_iff_lt (by decide)] at hdiv
      rw [hdiv, pushLimbs, if_pos rfl, wrap_mod_base, Nat.mod_eq_of_lt hlt]
      simpa using hv
    · grind [pushLimbs]

variable {a b : List ℕ}

theorem addMagLoop_spec {carry : ℕ} (ha : Digits base a) (hb : Digits base b) (hc : carry ≤ 1) :
    Digits base (addMagLoop a b carry) ∧
      magnitude (addMagLoop a b carry) = magnitude a + magnitude b + carry ∧
      (a ≠ [] → addMagLoop a b carry ≠ []) := by
  fun_induction addMagLoop a b carry with
  | case1 x a y b carry sum ih =>
    rw [cons_iff] at ha hb
    have hsum : sum = carry + x + y := by
      simp only [sum, base] at *
      rw [wrap_add (show carry + x < 2 ^ 64 by omega), wrap_add (by omega)]
    obtain ⟨hd, hm, -⟩ := ih ha.2 hb.2 (by simp only [base] at *; omega)
    rw [wrap_mod_base]
    refine ⟨cons_iff.mpr ⟨Nat.mod_lt _ (by decide), hd⟩, ?_, by simp⟩
    simp only [magnitude_cons, hm]
    simp only [base]
    omega
  | case2 x a carry sum ih =>
    rw [cons_iff] at ha
    have hsum : sum = carry + x := by
      simp only [sum, base] at *
      rw [wrap_add (by omega)]
    obtain ⟨hd, hm, -⟩ := ih ha.2 hb (by simp only [base] at *; omega)
    rw [wrap_mod_base]
    refine ⟨cons_iff.mpr ⟨Nat.mod_lt _ (by decide), hd⟩, ?_, by simp⟩
    simp only [magnitude_cons, magnitude_nil, hm]
    simp only [base]
    omega
  | case3 y b carry sum ih =>
    rw [cons_iff] at hb
    have hsum : sum = carry + y := by
      simp only [sum, base] at *
      rw [wrap_add (by omega)]
    obtain ⟨hd, hm, -⟩ := ih ha hb.2 (by simp only [base] at *; omega)
    rw [wrap_mod_base]
    refine ⟨cons_iff.mpr ⟨Nat.mod_lt _ (by decide), hd⟩, ?_, by simp⟩
    simp only [magnitude_cons, magnitude_nil, hm]
    simp only [base]
    omega
  | case4 carry =>
    obtain ⟨hd, hm⟩ := pushLimbs_spec carry
    exact ⟨hd, by simpa using hm, by simp⟩

theorem addMag_spec (ha : Digits base a) (hb : Digits base b) (hne : a ≠ []) :
    addMag a b ≠ [] ∧ Digits base (addMag a b) ∧
      magnitude (addMag a b) = magnitude a + magnitude b := by
  obtain ⟨hd, hm, hnil⟩ := addMagLoop_spec ha hb (Nat.zero_le 1)
  exact ⟨hnil hne, hd, hm⟩

theorem subMagLoop_spec {borrow : ℤ} (ha : Digits base a) (hb : Digits base b)
    (hborrow : borrow = 0 ∨ borrow = 1) (hle : magnitude b + borrow ≤ magnitude a) :
    Digits base (subMagLoop a b borrow) ∧
      (magnitude (subMagLoop a b borrow) : ℤ) + magnitude b + borrow = magnitude a ∧
      (a ≠ [] → subMagLoop a b borrow ≠ []) := by
  induction a generalizing b borrow with
  | nil =>
    simp only [subMagLoop, magnitude_nil] at *
    exact ⟨nil, by omega, by simp⟩
  | cons x a ih =>
    have hhead : b.headD 0 < base ∧ Digits base b.tail ∧
        magnitude b = b.headD 0 + base * magnitude b.tail := by
      cases b with
      | nil => simp [base]
      | cons y b => simpa using hb
    obtain ⟨hy, hbt, hbv⟩ := hhead
    rw [cons_iff] at ha
    rw [magnitude_cons, hbv] at hle
    rw [subMagLoop]
    split
    · rename_i hd
      -- the limb borrows from the rest, which is therefore strictly larger
      obtain ⟨n, hn⟩ : ∃ n : ℕ, (x : ℤ) - borrow - (b.headD 0 : ℕ) + base = n :=
        ⟨((x : ℤ) - borrow - (b.headD 0 : ℕ) + base).toNat, by
          rw [Int.toNat_of_nonneg]; simp only [base] at *; omega⟩
      have hnlt : n < base := by simp only [base] at *; omega
      obtain ⟨hdig, hval, -⟩ := ih ha.2 hbt (Or.inr rfl) (by simp only [base] at *; omega)
      rw [hn, wrap_limb hnlt]
      refine ⟨cons_iff.mpr ⟨hnlt, hdig⟩, ?_, by simp⟩
      rw [magnitude_cons, magnitude_cons, hbv]
      simp only [base] at *
      omega
    · rename_i hd
      obtain ⟨n, hn⟩ : ∃ n : ℕ, (x : ℤ) - borrow - (b.headD 0 : ℕ) = n :=
        ⟨((x : ℤ) - borrow - (b.headD 0 : ℕ)).toNat, by rw [Int.toNat_of_nonneg]; omega⟩
      have hnlt : n < base := by omega
      obtain ⟨hdig, hval, -⟩ := ih ha.2 hbt (Or.inl rfl) (by simp only [base] at *; omega)
      rw [hn, wrap_limb hnlt]
      refine ⟨cons_iff.mpr ⟨hnlt, hdig⟩, ?_, by simp⟩
      rw [magnitude_cons, magnitude_cons, hbv]
      simp only [base] at *
      omega

theorem subMag_spec (ha : Digits base a) (hb : Digits base b) (hne : a ≠ [])
    (hle : magnitude b ≤ magnitude a) :
    subMag a b ≠ [] ∧ Digits base (subMag a b) ∧
      (magnitude (subMag a b) : ℤ) = magnitude a - magnitude b := by
  obtain ⟨hd, hm, hnil⟩ := subMagLoop_spec ha hb (Or.inl rfl) (by simpa using hle)
  have hnum := isNumeral_popZeros (hnil hne) hd
  refine ⟨hnum.ne_nil, hnum.digits, ?_⟩
  rw [subMag, magnitude_popZeros]
  omega

theorem intLimbs_eq (h : a.length ≤ intcsMax) : intLimbs a = a := by
  rw [intLimbs, toIntcs_of_le h, Int.toNat_natCast, List.take_length]

theorem cmpMagLoop_eq_sign (ha : Digits base a) (hb : Digits base b) (hlen : a.length = b.length) :
    cmpMagLoop a b = Int.sign ((magnitude a : ℤ) - magnitude b) := by
  induction a generalizing b with
  | nil =>
    obtain rfl : b = [] := List.length_eq_zero_iff.mp hlen.symm
    rfl
  | cons x a ih =>
    obtain ⟨y, b, rfl⟩ := List.exists_cons_of_length_eq_add_one hlen.symm
    rw [cons_iff] at ha hb
    rw [cmpMagLoop, ih ha.2 hb.2 (by simpa using hlen)]
    simp only [magnitude_cons]
    rcases lt_trichotomy (magnitude a) (magnitude b) with hlt | heq | hgt
    · rw [Int.sign_eq_neg_one_of_neg (a := (magnitude a : ℤ) - magnitude b) (by omega)]
      rw [Int.sign_eq_neg_one_of_neg (by simp only [base] at *; push_cast; omega)]
      rfl
    · rw [heq, sub_self, Int.sign_zero]
      rcases lt_trichotomy x y with hxy | rfl | hxy
      · rw [Int.sign_eq_neg_one_of_neg (by push_cast; omega)]
        simp [hxy, hxy.ne]
      · simp
      · rw [Int.sign_eq_one_of_pos (by push_cast; omega)]
        simp [hxy.ne', hxy.not_gt]
    · rw [Int.sign_eq_one_of_pos (a := (magnitude a : ℤ) - magnitude b) (by omega)]
      rw [Int.sign_eq_one_of_pos (by simp only [base] at *; push_cast; omega)]
      rfl

/-- Only magnitudes that are both too long for an `int` are not compared. -/
theorem cmpMag_eq_sign (ha : IsNumeral base a) (hb : IsNumeral base b)
    (hcount : a.length ≤ intcsMax ∨ b.length ≤ intcsMax) :
    cmpMag a b = Int.sign ((magnitude a : ℤ) - magnitude b) := by
  unfold cmpMag
  split
  · rename_i hlen
    split
    · rename_i hlt
      have : magnitude a < magnitude b := ha.lt_of_length_lt one_lt_base hb hlt
      rw [Int.sign_eq_neg_one_of_neg (by omega)]
    · have : magnitude b < magnitude a := hb.lt_of_length_lt one_lt_base ha (by omega)
      rw [Int.sign_eq_one_of_pos (by omega)]
  · rename_i hlen
    rw [intLimbs_eq (by omega), intLimbs_eq (by omega)]
    exact cmpMagLoop_eq_sign ha.digits hb.digits (by simpa using hlen)

/-- The value with `n` limbs that are all `limb`. -/
def repeated (n limb : ℕ) : BigInteger := ⟨false, List.replicate n limb⟩

theorem fromUInt64_spec : IsNumeral base (fromUInt64 v) ∧ magnitude (fromUInt64 v) = v := by
  unfold fromUInt64
  split
  · rename_i h0
    subst h0
    exact ⟨isNumeral_singleton (by decide), magnitude_zero⟩
  · rename_i h0
    obtain ⟨hd, hm⟩ := pushLimbs_spec v
    refine ⟨⟨?_, hd, ?_⟩, hm⟩
    · rw [pushLimbs, if_neg h0]; simp
    · exact fun _ => pushLimbs_top_ne_zero v

theorem canonical_ofSign {n : ℤ} {mag : List ℕ} (hmag : IsNumeral base mag)
    (hval : magnitude mag = n.natAbs) :
    (⟨decide (n < 0), mag⟩ : BigInteger).Canonical ∧
      (⟨decide (n < 0), mag⟩ : BigInteger).value = n := by
  constructor
  · refine ⟨hmag, ?_⟩
    intro hz
    have h0 : n.natAbs = 0 := by rw [← hval, show mag = [0] from hz, magnitude_zero]
    simp only [decide_eq_false_iff_not]
    omega
  · unfold value
    simp only [decide_eq_true_eq, hval]
    split <;> omega

theorem ofIntcs_spec (v : Int32) : (ofIntcs v).Canonical ∧ (ofIntcs v).value = v.toInt := by
  have hlo := v.le_toInt
  have hhi := v.toInt_lt
  have hlt : v < 0 ↔ v.toInt < 0 := by rw [Int32.lt_iff_toInt_lt, Int32.toInt_zero]
  have hmag : (if v.toInt < 0 then wrap 64 (-v.toInt) else wrap 64 v.toInt) = v.toInt.natAbs := by
    unfold wrap
    split <;> omega
  obtain ⟨hnum, hval⟩ := fromUInt64_spec v.toInt.natAbs
  have h := canonical_ofSign (n := v.toInt) hnum hval
  unfold ofIntcs
  simpa only [decide_eq_true_eq, hlt, hmag] using h

end SharpRuntime.Analysis.BigIntegerMagnitude
