import SharpRuntime.Model.Convert

/-!
# The bases of `Convert`

Digits that are written in a base are read back by `strtoll` as their number (`parseIntBase_text`).
`toString` writes the two's complement of 32 bits in the bases 2, 8 and 16 (`toString_eq`), and that
is not the number of a negative value.
-/

set_option autoImplicit false

namespace SharpRuntime.Analysis.ConvertBase

open Machine Machine.Printed Model Model.Convert

theorem digitByte_spec {d : ℕ} (h : d < 16) :
    digitValue (digitByte d) = some d ∧ isspace (digitByte d) = false ∧ digitByte d ≠ 0 ∧
      digitByte d ≠ '-'.toUInt8 ∧ digitByte d ≠ '+'.toUInt8 ∧ digitByte d ≠ 'x'.toUInt8 ∧
      digitByte d ≠ 'X'.toUInt8 := by
  interval_cases d <;> decide

def signed (negative : Bool) (ds : List ℕ) : List UInt8 :=
  (if negative then ['-'.toUInt8] else []) ++ ds.map digitByte

def denoted (negative : Bool) (base : ℕ) (ds : List ℕ) : ℤ :=
  if negative then -(value base ds : ℤ) else value base ds

variable {base : ℕ}

theorem isBaseDigit_digitByte {d : ℕ} (hbase : base ≤ 16) (h : d < base) :
    isBaseDigit base (digitByte d) = true := by
  rw [isBaseDigit, (digitByte_spec (h.trans_le hbase)).1]
  simpa using h

variable {ds : List ℕ}

theorem takeWhile_digits (hbase : base ≤ 16) (hds : ∀ d ∈ ds, d < base) :
    (ds.map digitByte).takeWhile (isBaseDigit base) = ds.map digitByte ∧
      (ds.map digitByte).map (fun c => (digitValue c).getD 0) = ds := by
  constructor
  · refine List.takeWhile_eq_self_iff.mpr ?_
    rintro c hc
    obtain ⟨d, hd, rfl⟩ := List.mem_map.mp hc
    exact isBaseDigit_digitByte hbase (hds d hd)
  · rw [List.map_map, List.map_congr_left (g := id), List.map_id]
    intro d hd
    simp [(digitByte_spec ((hds d hd).trans_le hbase)).1]

theorem skipPrefix_digits (base : ℕ) (hds : ∀ d ∈ ds, d < 16) :
    skipPrefix base (ds.map digitByte) = ds.map digitByte := by
  match ds with
  | [] => rfl
  | [_] => rfl
  | [_, _] => rfl
  | a :: b :: c :: ds =>
    have hb := digitByte_spec (hds b (by simp))
    exact if_neg fun h => h.2.2.1.elim hb.2.2.2.2.2.1 hb.2.2.2.2.2.2

theorem strtoll_signed (negative : Bool) (hbase : base ≤ 16)
    (hds : ∀ d ∈ ds, d < base) (hne : ds ≠ []) (hvalue : value base ds < 2 ^ 33) :
    strtoll (signed negative ds) base = ⟨denoted negative base ds, [], true, false⟩ := by
  have h16 : ∀ d ∈ ds, d < 16 := fun d hd => (hds d hd).trans_le hbase
  obtain ⟨htake, hmap⟩ := takeWhile_digits hbase hds
  have hdenoted : ¬ denoted negative base ds < llongMin ∧ ¬ denoted negative base ds > llongMax := by
    unfold denoted llongMin llongMax
    split <;> omega
  obtain ⟨d, rest, rfl⟩ := List.exists_cons_of_ne_nil hne
  obtain ⟨-, hspace, -, hminus, hplus, -⟩ := digitByte_spec (h16 d List.mem_cons_self)
  have hskip := skipPrefix_digits base h16
  have hdrop : (signed negative (d :: rest)).dropWhile isspace = signed negative (d :: rest) := by
    cases negative
    · simp [signed, hspace]
    · rfl
  have htext : (if (signed negative (d :: rest)).head? = some '-'.toUInt8 ∨
      (signed negative (d :: rest)).head? = some '+'.toUInt8 then
        (signed negative (d :: rest)).drop 1 else signed negative (d :: rest)) =
      (d :: rest).map digitByte := by
    cases negative
    · simp [signed, hminus, hplus]
    · rfl
  have hsign : ((signed negative (d :: rest)).head? = some '-'.toUInt8) ↔ negative = true := by
    cases negative
    · simp [signed, hminus]
    · simp [signed]
  rw [strtoll]
  simp only [hdrop, htext, hskip, htake, hmap]
  rw [if_neg (by simp), List.drop_length]
  simp only [hsign]
  rw [← denoted, if_neg hdenoted.1, if_neg hdenoted.2]

/-- A numeral of the base is read with its sign, and refused beyond 32 bits. -/
theorem parseIntBase_text (negative : Bool)
    (hbase : base = 2 ∨ base = 8 ∨ base = 10 ∨ base = 16) (hds : ∀ d ∈ ds, d < base)
    (hne : ds ≠ []) (hvalue : value base ds < 2 ^ 33) :
    toInt32 (signed negative ds) base =
      if denoted negative base ds > 2147483647 ∨ denoted negative base ds < -2147483648 then
        Run.throwing (.overflow "Value was either too large or too small for an Int32.")
      else pure (denoted negative base ds) := by
  have hstring : (signed negative ds).takeWhile (· ≠ 0) = signed negative ds := by
    refine List.takeWhile_eq_self_iff.mpr ?_
    intro c hc
    rcases List.mem_append.mp hc with hc | hc
    · cases negative
      · simp at hc
      · simp only [if_true, List.mem_singleton] at hc
        rw [hc]
        decide
    · obtain ⟨d, hd, rfl⟩ := List.mem_map.mp hc
      simpa using (digitByte_spec (show d < 16 by have := hds d hd; omega)).2.2.1
  have hsigned : signed negative ds ≠ [] := by simp [signed, hne]
  rw [toInt32, parseIntBase, if_neg (by omega), if_neg hsigned, hstring, Int.toNat_natCast,
    strtoll_signed negative (by omega) hds hne hvalue]
  simp

theorem binaryLoop_eq {fuel uv : ℕ} (h : uv < 2 ^ fuel) (result : List UInt8) :
    binaryLoop fuel uv result = (Nat.digits 2 uv).reverse.map digitByte ++ result := by
  induction fuel generalizing uv result with
  | zero =>
    obtain rfl : uv = 0 := by omega
    rfl
  | succ fuel ih =>
    rw [binaryLoop]
    by_cases hzero : uv = 0
    · rw [if_pos hzero, hzero]
      rfl
    · have hbyte : '0'.toUInt8 + UInt8.ofNat (uv % 2) = digitByte (uv % 2) := by
        rcases Nat.mod_two_eq_zero_or_one uv with hmod | hmod <;> rw [hmod] <;> decide
      rw [if_neg hzero, Nat.shiftRight_one, Nat.and_one_is_mod, ih (by omega), hbyte,
        Nat.digits_def' (by decide) (Nat.pos_of_ne_zero hzero)]
      simp

/-- Base ten prints a sign; the other bases print the 32 bits. -/
theorem toString_eq {v : ℤ} (hlo : -2147483648 ≤ v) (hhi : v ≤ 2147483647)
    (hbase : base = 2 ∨ base = 8 ∨ base = 10 ∨ base = 16) :
    Convert.toString v base = pure (if base = 10 then signed (decide (v < 0)) (numeral 10 v.natAbs)
      else signed false (numeral base (wrap 32 v))) := by
  have hword : wrap 32 v < 2 ^ 32 := by
    unfold wrap
    omega
  rw [Convert.toString]
  rcases hbase with rfl | rfl | rfl | rfl
  · rw [if_neg (by decide), if_neg (by decide), if_pos (by decide)]
    by_cases hzero : v = 0
    · rw [hzero]
      rfl
    · have hne : wrap 32 v ≠ 0 := by
        unfold wrap
        omega
      rw [if_neg hzero, if_neg (by decide), binaryLoop_eq hword, signed, numeral, if_neg hne]
      simp
  · rfl
  · by_cases hneg : v < 0
    · rw [if_pos hneg, decide_eq_true hneg, show v.natAbs = (-v).toNat by omega]
      rfl
    · rw [if_neg hneg, decide_eq_false hneg, show v.natAbs = v.toNat by omega]
      rfl
  · rfl

/-- **A number comes back from its text unless it is negative and its base is not ten**: then the
text is the two's complement, which is read as a number that is too large. -/
theorem base_round_trip (v : Int32) (base : ℕ)
    (hbase : base = 2 ∨ base = 8 ∨ base = 10 ∨ base = 16) :
    (Convert.toString v.toInt base >>= fun text => toInt32 text base) = pure v.toInt ↔
      0 ≤ v.toInt ∨ base = 10 := by
  have hlo := v.le_toInt
  have hhi := v.toInt_lt
  have hword : wrap 32 v.toInt < 2 ^ 32 := by
    unfold wrap
    omega
  have hone : 1 < base := by omega
  rw [toString_eq hlo (by omega) hbase, pure_bind]
  by_cases hten : base = 10
  · subst hten
    rw [if_pos rfl, parseIntBase_text _ hbase (fun d hd => lt_of_mem_numeral hone hd)
      (List.ne_nil_of_length_pos (numeral_length_pos 10 _)) (by rw [value_numeral]; omega),
      denoted, value_numeral]
    have hexact : (if decide (v.toInt < 0) = true then -(v.toInt.natAbs : ℤ) else v.toInt.natAbs) =
        v.toInt := by
      simp only [decide_eq_true_eq]
      split <;> omega
    rw [hexact, if_neg (by omega)]
    exact iff_of_true rfl (Or.inr rfl)
  · rw [if_neg hten, parseIntBase_text _ hbase (fun d hd => lt_of_mem_numeral hone hd)
      (List.ne_nil_of_length_pos (numeral_length_pos base _)) (by rw [value_numeral]; omega),
      denoted, value_numeral, if_neg Bool.false_ne_true]
    by_cases hneg : v.toInt < 0
    · refine iff_of_false ?_ (by omega)
      rw [if_pos (Or.inl (by unfold wrap; omega))]
      intro h
      cases congrArg Run.outcome h
    · have hexact : (wrap 32 v.toInt : ℤ) = v.toInt := by
        unfold wrap
        omega
      rw [hexact, if_neg (by omega)]
      exact iff_of_true rfl (Or.inl (by omega))

/-- The theorem on a negative number in base ten. -/
theorem base_round_trip_ten : (Convert.toString (-1 : Int32).toInt (10 : ℕ) >>= fun text =>
    toInt32 text (10 : ℕ)) = pure (-1 : Int32).toInt ↔ 0 ≤ (-1 : Int32).toInt ∨ 10 = 10 :=
  base_round_trip (-1) 10 (by decide)

/-- The text of `-1` in base 16 is `ffffffff`, and reading it overflows. -/
theorem minus_one_hexadecimal : (Convert.toString (-1 : Int32).toInt 16 >>= fun text => toInt32 text 16) =
    Run.throwing (.overflow "Value was either too large or too small for an Int32.") ∧
    (Convert.toString (-1 : Int32).toInt 16 >>= fun text => toInt32 text 16) ≠ pure (-1 : Int32).toInt := by
  have h : (Convert.toString (-1 : Int32).toInt 16 >>= fun text => toInt32 text 16) =
      Run.throwing (.overflow "Value was either too large or too small for an Int32.") := by
    decide +kernel
  refine ⟨h, ?_⟩
  rw [h]
  intro hpure
  cases congrArg Run.outcome hpure

end SharpRuntime.Analysis.ConvertBase
