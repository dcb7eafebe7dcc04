import SharpRuntime.Interface.HashProgram

/-!
# The lookup tables of the parameter sets

Both ways of filling the table give, at each index, the class of the index times `X ^ w`: the
doubling fill adds the next power of `X` to the entries it has, and the reflected fill shifts the
index, its bits reversed, eight places up.  The swaps of `reverseBits` reverse the bits of a word
because each of them changes one binary digit of every bit's position.
-/

set_option autoImplicit false
set_option maxRecDepth 20000

namespace SharpRuntime.Analysis.CrcTables

open Machine Model Interface Polynomial
open CrcParameterSet

variable {w : ℕ}

/-- The masks of a swap by `k` places: a position comes from the place `k` above it under the mask
`high`, or from the place `k` below it under the mask `low`, never from both. -/
def Swaps (k : ℕ) (high low : BitVec w) (source : ℕ → ℕ) : Prop :=
  ∀ i < w,
    (i + k < w ∧ high.getLsbD (i + k) = true ∧ (i < k ∨ low.getLsbD (i - k) = false) ∧
        source i = i + k) ∨
      ((w ≤ i + k ∨ high.getLsbD (i + k) = false) ∧ k ≤ i ∧ low.getLsbD (i - k) = true ∧
        source i = i - k)

instance (k : ℕ) (high low : BitVec w) (source : ℕ → ℕ) : Decidable (Swaps k high low source) :=
  inferInstanceAs (Decidable (∀ i < w, _))

variable {i : ℕ}

variable {k : ℕ}

theorem getLsbD_swap (source : ℕ → ℕ) {high low : BitVec w}
    (h : Swaps k high low source) (v : BitVec w) (hi : i < w) :
    (((v &&& high) >>> k) ||| ((v &&& low) <<< k)).getLsbD i = v.getLsbD (source i) := by
  rw [BitVec.getLsbD_or, BitVec.getLsbD_ushiftRight, BitVec.getLsbD_shiftLeft, BitVec.getLsbD_and,
    BitVec.getLsbD_and, Nat.add_comm k i]
  rcases h i hi with ⟨-, hhigh, hlow, hsource⟩ | ⟨hhigh, hk, hlow, hsource⟩
  · grind
  · grind

def partner (k i : ℕ) : ℕ := if i / k % 2 = 0 then i + k else i - k

theorem getLsbD_mask {m : BitVec w} (low high : ℕ) (hhigh : high ≤ w)
    (h : ∀ i < w, m.getLsbD i = decide (low ≤ i ∧ i < high)) (n : ℕ) :
    m.getLsbD n = decide (low ≤ n ∧ n < high) := by grind

theorem getLsbD_swapBytes (v : BitVec 32) (hi : i < 32) :
    (((v &&& 0x000000FF#32) <<< 24) ||| ((v &&& 0x0000FF00#32) <<< 8)
      ||| ((v &&& 0x00FF0000#32) >>> 8) ||| ((v &&& 0xFF000000#32) >>> 24)).getLsbD i
      = v.getLsbD (24 - i / 8 * 8 + i % 8) := by
  have h0 := getLsbD_mask (m := 0x000000FF#32) 0 8 (by decide) (by decide)
  have h1 := getLsbD_mask (m := 0x0000FF00#32) 8 16 (by decide) (by decide)
  have h2 := getLsbD_mask (m := 0x00FF0000#32) 16 24 (by decide) (by decide)
  have h3 := getLsbD_mask (m := 0xFF000000#32) 24 32 (by decide) (by decide)
  simp only [BitVec.getLsbD_or, BitVec.getLsbD_and, BitVec.getLsbD_shiftLeft,
    BitVec.getLsbD_ushiftRight, h0, h1, h2, h3]
  obtain hb | hb | hb | hb : i < 8 ∨ (8 ≤ i ∧ i < 16) ∨ (16 ≤ i ∧ i < 24) ∨ 24 ≤ i := by omega
  · grind
  · grind
  · grind
  · grind

/-- **The swaps of 32 bits reverse them.** -/
theorem reverseBits32_eq (v : BitVec 32) : Crc32ParameterSet.reverseBits v = v.reverse := by
  have hbound : ∀ i < 32, 24 - i / 8 * 8 + i % 8 < 32 ∧ partner 4 (24 - i / 8 * 8 + i % 8) < 32 ∧
      partner 2 (partner 4 (24 - i / 8 * 8 + i % 8)) < 32 ∧
      partner 1 (partner 2 (partner 4 (24 - i / 8 * 8 + i % 8))) = 31 - i := by decide
  apply BitVec.eq_of_getLsbD_eq
  intro i hi
  obtain ⟨h4, h2, h1, hlast⟩ := hbound i hi
  rw [Crc32ParameterSet.reverseBits, getLsbD_swapBytes _ hi,
    getLsbD_swap (partner 4) (by decide) _ h4,
    getLsbD_swap (partner 2) (by decide) _ h2,
    getLsbD_swap (partner 1) (by decide) _ h1, hlast, BitVec.getLsbD_reverse,
    BitVec.getMsbD_eq_getLsbD, decide_eq_true hi, Bool.true_and]

/-- **The swaps of 64 bits reverse them.** -/
theorem reverseBits64_eq (v : BitVec 64) : Crc64ParameterSet.reverseBits v = v.reverse := by
  have hbound : ∀ i < 64, partner 32 i < 64 ∧ partner 16 (partner 32 i) < 64 ∧
      partner 8 (partner 16 (partner 32 i)) < 64 ∧
      partner 4 (partner 8 (partner 16 (partner 32 i))) < 64 ∧
      partner 2 (partner 4 (partner 8 (partner 16 (partner 32 i)))) < 64 ∧
      partner 1 (partner 2 (partner 4 (partner 8 (partner 16 (partner 32 i))))) = 63 - i := by
    decide
  have hhalves : ∀ (u : BitVec 64) {i : ℕ}, i < 64 →
      ((u >>> 32) ||| (u <<< 32)).getLsbD i = u.getLsbD (partner 32 i) := by
    intro u i hi
    rw [BitVec.getLsbD_or, BitVec.getLsbD_ushiftRight, BitVec.getLsbD_shiftLeft, partner]
    by_cases hlow : i < 32
    · have hzero : i / 32 % 2 = 0 := by omega
      simp [hlow, hzero, Nat.add_comm]
    · have hone : ¬ i / 32 % 2 = 0 := by omega
      have hout : u.getLsbD (32 + i) = false := BitVec.getLsbD_of_ge u _ (by omega)
      simp [hlow, hone, hout, hi]
  apply BitVec.eq_of_getLsbD_eq
  intro i hi
  obtain ⟨h32, h16, h8, h4, h2, hlast⟩ := hbound i hi
  rw [Crc64ParameterSet.reverseBits, hhalves _ hi,
    getLsbD_swap (partner 16) (by decide) _ h32, getLsbD_swap (partner 8) (by decide) _ h16,
    getLsbD_swap (partner 4) (by decide) _ h8, getLsbD_swap (partner 2) (by decide) _ h4,
    getLsbD_swap (partner 1) (by decide) _ h2, hlast, BitVec.getLsbD_reverse,
    BitVec.getMsbD_eq_getLsbD, decide_eq_true hi, Bool.true_and]

/-- The table holds at each index the class of the index times `X ^ w`. -/
structure Tabulates (polynomial : BitVec w) (reflect : Bool) (table : List (BitVec w)) : Prop where
  length_table : table.length = 256
  entry : ∀ n < 256, classOf polynomial (toPoly (oriented reflect (table.getD n 0)))
    = classOf polynomial (X ^ w * toPoly (oriented reflect (BitVec.ofNat 8 n)))

theorem shiftOut_eq (hw : 0 < w) (polynomial crc : BitVec w) :
    shiftOut (BitVec.twoPow w (w - 1)) polynomial crc = shift polynomial crc := by
  have htop : crc &&& BitVec.twoPow w (w - 1) ≠ 0 ↔ crc.msb = true := by
    rw [BitVec.and_twoPow, BitVec.msb_eq_getLsbD_last]
    have hne : BitVec.twoPow w (w - 1) ≠ 0#w := by
      intro h
      have hbit := congrArg (fun v => v.getLsbD (w - 1)) h
      simp [BitVec.getLsbD_twoPow] at hbit
      omega
    by_cases hbit : crc.getLsbD (w - 1)
    · simp [hbit, hne]
    · simp [hbit]
  rw [shiftOut, shift]
  by_cases h : crc.msb = true
  · rw [if_pos h, if_pos (htop.mpr h)]
  · rw [if_neg h, if_neg (fun hne => h (htop.mp hne))]

variable {table : List (BitVec w)}

theorem getD_set_ne (table : List (BitVec w)) {j : ℕ} (h : i ≠ j) (v : BitVec w) :
    (table.set i v).getD j 0 = table.getD j 0 := by
  rw [List.getD_eq_getElem?_getD, List.getElem?_set_ne h, List.getD_eq_getElem?_getD]

theorem fillNext_spec (crc : BitVec w) (hlength : i + i ≤ table.length) :
    (fillNext crc i table).length = table.length ∧
    (∀ j < i, (fillNext crc i table).getD j 0 = table.getD j 0) ∧
    (∀ j < i, (fillNext crc i table).getD (i + j) 0
      = crc ^^^ table.getD j 0) := by
  have hloop : ∀ m ≤ i,
      let filled := (List.range m).foldl
        (fun table j => table.set (i + j) (crc ^^^ table.getD j 0)) table
      filled.length = table.length ∧ (∀ j < i, filled.getD j 0 = table.getD j 0) ∧
        (∀ j < m, filled.getD (i + j) 0 = crc ^^^ table.getD j 0) := by
    intro m
    induction m with
    | zero => grind
    | succ m ih =>
      intro hm
      obtain ⟨hlen, hkeep, hnew⟩ := ih (by omega)
      rw [List.range_succ, List.foldl_append]
      simp only [List.foldl_cons, List.foldl_nil]
      refine ⟨?_, ?_, ?_⟩
      · rw [List.length_set, hlen]
      · intro j hj
        rw [getD_set_ne _ (by omega), hkeep j hj]
      · grind
  exact hloop i le_rfl

/-- After `k` rounds: the first `2 ^ k` entries are filled and the register has moved `k` places. -/
structure Doubled (polynomial : BitVec w) (k : ℕ) (table : List (BitVec w)) (crc : BitVec w) :
    Prop where
  length_table : table.length = 256
  register : classOf polynomial (toPoly crc) = classOf polynomial (X ^ (w - 1 + k))
  entry : ∀ n < 2 ^ k, classOf polynomial (toPoly (table.getD n 0))
    = classOf polynomial (X ^ w * toPoly (BitVec.ofNat 8 n))

theorem doubled_succ (hw : 0 < w) {polynomial : BitVec w} (hk : k < 8) {crc : BitVec w}
    (h : Doubled polynomial k table crc) :
    Doubled polynomial (k + 1)
      (fillNext (shift polynomial crc) (2 ^ k) table) (shift polynomial crc) := by
  have hjoin : ∀ k < 8, ∀ j < 2 ^ k,
      BitVec.ofNat 8 (2 ^ k + j) = BitVec.twoPow 8 k ^^^ BitVec.ofNat 8 j := by decide
  have hroom : 2 ^ k + 2 ^ k ≤ 256 := by
    have hpow := Nat.pow_le_pow_right (n := 2) (by decide) (show k + 1 ≤ 8 by omega)
    omega
  obtain ⟨hlength, hkeep, hnew⟩ := fillNext_spec (shift polynomial crc)
    (show 2 ^ k + 2 ^ k ≤ table.length by rw [h.length_table]; exact hroom)
  have hregister : classOf polynomial (toPoly (shift polynomial crc))
      = classOf polynomial (X ^ (w + k)) := by
    have hpow : (X : (ZMod 2)[X]) * X ^ (w - 1 + k) = X ^ (w + k) := by
      rw [← pow_succ']
      congr 1
      omega
    rw [classOf_shift polynomial hw, classOf_mul, h.register, ← classOf_mul, hpow]
  refine ⟨hlength.trans h.length_table, ?_, ?_⟩
  · rw [hregister]
    congr 2
    omega
  · intro n hn
    by_cases hlow : n < 2 ^ k
    · rw [hkeep n hlow, h.entry n hlow]
    · obtain ⟨j, rfl⟩ : ∃ j, n = 2 ^ k + j := ⟨n - 2 ^ k, by omega⟩
      have hj : j < 2 ^ k := by
        omega
      rw [hnew j hj, toPoly_xor, classOf_add, hregister, h.entry j hj, hjoin k hk j hj, toPoly_xor,
        toPoly_twoPow hk, mul_add, classOf_add, ← pow_add]

/-- **The doubling fill makes the table.** -/
theorem fillDoubling_loop (hw : 0 < w) {polynomial crc : BitVec w} {table : List (BitVec w)}
    {m k fuel : ℕ} (hk : k + m = 8) (hfuel : m ≤ fuel) (h : Doubled polynomial k table crc) :
    ∃ table' crc',
      Run.whileLoop (ε := Exception) (fun (_, _, i) => decide (i < 256))
        (fun (table, crc, i) =>
          let crc := shiftOut (BitVec.twoPow w (w - 1)) polynomial crc
          pure (fillNext crc i table, crc, i <<< 1))
        fuel (table, crc, 2 ^ k) = pure (table', crc', 256) ∧ Doubled polynomial 8 table' crc' := by
  induction m generalizing k fuel table crc with
  | zero =>
    obtain rfl : k = 8 := by omega
    exact ⟨table, crc, Run.whileLoop_of_not rfl, h⟩
  | succ m ih =>
    obtain ⟨fuel, rfl⟩ : ∃ f, fuel = f + 1 := ⟨fuel - 1, by omega⟩
    have hpow := Nat.pow_lt_pow_right (a := 2) (by decide) (show k < 8 by omega)
    have hless : m ≤ fuel := by omega
    obtain ⟨table', crc', hrun, hdone⟩ := ih (k := k + 1) (by omega) hless
      (doubled_succ hw (by omega) h)
    refine ⟨table', crc', ?_, hdone⟩
    rw [Run.whileLoop, if_pos (decide_eq_true hpow), pure_bind, shiftOut_eq hw, Nat.shiftLeft_eq,
      pow_one, ← pow_succ]
    exact hrun

theorem fillDoubling_eq (hw : 0 < w) (polynomial : BitVec w) :
    ∃ table, fillDoubling (BitVec.twoPow w (w - 1)) polynomial = pure table ∧
      Tabulates polynomial false table := by
  have hstart : Doubled polynomial 0 (List.replicate 256 0) (BitVec.twoPow w (w - 1)) := by
    refine ⟨List.length_replicate, ?_, ?_⟩
    · rw [toPoly_twoPow (by omega), Nat.add_zero]
    · intro n hn
      obtain rfl : n = 0 := by omega
      have hzero : toPoly (BitVec.ofNat 8 0) = 0 := toPoly_zero
      have hentry : (List.replicate 256 (0 : BitVec w)).getD 0 0 = 0#w := rfl
      rw [hentry, toPoly_zero, hzero, mul_zero]
  obtain ⟨table, crc, hrun, hdone⟩ := fillDoubling_loop hw rfl (show 8 ≤ 256 by decide) hstart
  refine ⟨table, ?_, hdone.length_table, fun n hn => ?_⟩
  · grind [fillDoubling]
  · exact hdone.entry n hn


theorem reverse_zero : (0#w).reverse = 0#w := by grind

theorem getD_foldl_set (f : ℕ → BitVec w) (table : List (BitVec w)) (m : ℕ) :
    ((List.range' 1 m).foldl (fun table i => table.set i (f i)) table).length = table.length ∧
    ∀ n < table.length, ((List.range' 1 m).foldl (fun table i => table.set i (f i)) table).getD n 0
      = if 1 ≤ n ∧ n < 1 + m then f n else table.getD n 0 := by
  induction m with
  | zero =>
    refine ⟨rfl, fun n _ => ?_⟩
    rw [if_neg (by omega)]
    rfl
  | succ m ih =>
    obtain ⟨hlength, hget⟩ := ih
    rw [List.range'_1_concat, List.foldl_append]
    simp only [List.foldl_cons, List.foldl_nil]
    refine ⟨by rw [List.length_set, hlength], fun n hn => ?_⟩
    by_cases hlast : n = 1 + m
    · grind
    · grind

theorem classOf_shifts (hw : 0 < w) (polynomial r : BitVec w) (m : ℕ) :
    classOf polynomial (toPoly ((List.range m).foldl (fun r _ => shift polynomial r) r))
      = classOf polynomial (X ^ m * toPoly r) := by
  induction m with
  | zero => rw [pow_zero, one_mul]; rfl
  | succ m ih =>
    rw [List.range_succ, List.foldl_append]
    simp only [List.foldl_cons, List.foldl_nil]
    rw [classOf_shift polynomial hw, classOf_mul, ih, ← classOf_mul, ← mul_assoc, ← pow_succ']

theorem toPoly_reverse_ofNat (hw : 8 ≤ w) {n : ℕ} (hn : n < 256) :
    toPoly (BitVec.ofNat w n).reverse = X ^ (w - 8) * toPoly (BitVec.ofNat 8 n).reverse := by
  ext i
  have hhigh : ∀ k, 8 ≤ k → n.testBit k = false := by
    intro k hk
    apply Nat.testBit_lt_two_pow
    exact lt_of_lt_of_le hn (Nat.pow_le_pow_right (n := 2) (by decide) hk)
  rw [coeff_X_pow_mul', coeff_toPoly, coeff_toPoly, BitVec.getLsbD_reverse, BitVec.getLsbD_reverse,
    BitVec.getMsbD_eq_getLsbD, BitVec.getMsbD_eq_getLsbD, BitVec.getLsbD_ofNat, BitVec.getLsbD_ofNat]
  by_cases hi : w - 8 ≤ i
  · grind
  · rw [if_neg hi, hhigh _ (by omega), Bool.and_false, Bool.and_false]
    rfl

variable {reverseBits : BitVec w → BitVec w}

/-- **The reflected fill makes the table.** -/
theorem fillReflected_eq (hw : 8 ≤ w)
    (hreverse : ∀ v, reverseBits v = v.reverse) (polynomial : BitVec w) :
    Tabulates polynomial true
      (fillReflected reverseBits (BitVec.twoPow w (w - 1)) polynomial) := by
  have hpos : 0 < w := by omega
  obtain ⟨hlength, hget⟩ := getD_foldl_set
    (fun i => reverseBits ((List.range 8).foldl
      (fun r _ => shiftOut (BitVec.twoPow w (w - 1)) polynomial r)
      (reverseBits (BitVec.ofNat w i))))
    (List.replicate 256 0) 255
  refine ⟨hlength.trans List.length_replicate, fun n hn => ?_⟩
  have hentry := hget n (by rw [List.length_replicate]; exact hn)
  unfold fillReflected
  rw [hentry]
  by_cases hzero : n = 0
  · subst hzero
    have hnil : toPoly (BitVec.ofNat 8 0).reverse = 0 := by
      have hrev : (BitVec.ofNat 8 0).reverse = 0#8 := by decide
      rw [hrev, toPoly_zero]
    have hempty : (List.replicate 256 (0 : BitVec w)).getD 0 0 = 0#w :=
      List.getD_replicate _ (by decide)
    rw [if_neg (by omega), hempty, oriented, oriented, if_pos rfl, if_pos rfl, reverse_zero,
      toPoly_zero, hnil, mul_zero]
  · have hpow : (X : (ZMod 2)[X]) ^ 8 * X ^ (w - 8) = X ^ w := by
      rw [← pow_add, Nat.add_sub_cancel' hw]
    rw [if_pos (by omega), oriented, oriented, if_pos rfl, if_pos rfl]
    simp only [hreverse, BitVec.reverse_reverse_eq, shiftOut_eq hpos]
    rw [classOf_shifts hpos, toPoly_reverse_ofNat hw hn, ← mul_assoc, hpow]

/-- **Both generators make the table.** -/
theorem generateLookupTable_eq (hw : 8 ≤ w)
    (hreverse : ∀ v, reverseBits v = v.reverse) (polynomial : BitVec w) (reflect : Bool) :
    ∃ table, generateLookupTable reverseBits (BitVec.twoPow w (w - 1)) polynomial
        reflect = pure table ∧ Tabulates polynomial reflect table := by
  cases reflect with
  | false => exact fillDoubling_eq (by omega) polynomial
  | true => exact ⟨_, rfl, fillReflected_eq hw hreverse polynomial⟩

end SharpRuntime.Analysis.CrcTables
