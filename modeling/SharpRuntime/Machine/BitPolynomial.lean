import Mathlib

/-!
# Words as polynomials over two elements

The bits of a word of `w` bits are the coefficients of a polynomial of degree below `w` over the
field of two elements.  A shift register with feedback `poly` multiplies by `X` modulo `X ^ w +
poly`; fed with the bits of a message it holds the message times `X ^ w` modulo this generator
(`toPoly_feed`). `residue` sends a word to the class of its polynomial; different words have
different classes.
-/

set_option autoImplicit false

namespace Machine

open Polynomial

variable {w : ℕ}

def coefficient (b : Bool) : ZMod 2 := if b then 1 else 0

theorem coefficient_xor (a b : Bool) : coefficient (a ^^ b) = coefficient a + coefficient b := by
  cases a <;> cases b <;> decide

theorem coefficient_injective : Function.Injective coefficient := by
  intro a b
  cases a <;> cases b <;> decide

noncomputable def toPoly (v : BitVec w) : (ZMod 2)[X] :=
  ∑ i ∈ Finset.range w, monomial i (coefficient (v.getLsbD i))

variable (v : BitVec w)

theorem coeff_toPoly (n : ℕ) : (toPoly v).coeff n = coefficient (v.getLsbD n) := by
  rw [toPoly, finsetSum_coeff]
  simp only [coeff_monomial]
  rw [Finset.sum_ite_eq']
  split
  case isTrue h => rfl
  case isFalse h =>
    have hw : w ≤ n := by rwa [Finset.mem_range, Nat.not_lt] at h
    rw [BitVec.getLsbD_of_ge v n hw]
    rfl

theorem toPoly_injective : Function.Injective (toPoly : BitVec w → (ZMod 2)[X]) := by
  intro u v h
  apply BitVec.eq_of_getLsbD_eq
  intro i _
  apply coefficient_injective
  rw [← coeff_toPoly, ← coeff_toPoly, h]

theorem degree_toPoly_lt : (toPoly v).degree < w := by
  rw [degree_lt_iff_coeff_zero]
  intro n hn
  rw [coeff_toPoly, BitVec.getLsbD_of_ge v n hn]
  rfl

theorem toPoly_xor (u v : BitVec w) : toPoly (u ^^^ v) = toPoly u + toPoly v := by
  ext n
  rw [coeff_add, coeff_toPoly, coeff_toPoly, coeff_toPoly, BitVec.getLsbD_xor, coefficient_xor]

theorem toPoly_zero : toPoly (0#w) = 0 := by
  ext n
  rw [coeff_toPoly, BitVec.getLsbD_zero, coeff_zero]
  rfl

theorem toPoly_twoPow {i : ℕ} (hi : i < w) : toPoly (BitVec.twoPow w i) = X ^ i := by
  ext n
  rw [coeff_toPoly, BitVec.getLsbD_twoPow, coeff_X_pow]
  by_cases hn : n = i
  · subst hn
    simp [hi, coefficient]
  · rw [if_neg hn]
    simp [Ne.symm hn, coefficient]

theorem toPoly_congr {w' : ℕ} {u : BitVec w} {v : BitVec w'}
    (h : ∀ n, u.getLsbD n = v.getLsbD n) : toPoly u = toPoly v := by
  ext n
  rw [coeff_toPoly, coeff_toPoly, h n]

theorem X_pow_mul_toPoly {k : ℕ} (hk : k ≤ w) (v : BitVec w) :
    X ^ k * toPoly v = toPoly (v <<< k) + X ^ w * toPoly (v >>> (w - k)) := by
  ext n
  rw [coeff_add, coeff_X_pow_mul', coeff_X_pow_mul', coeff_toPoly, coeff_toPoly, coeff_toPoly,
    BitVec.getLsbD_shiftLeft, BitVec.getLsbD_ushiftRight]
  by_cases hkn : k ≤ n
  · grind [coefficient]
  · grind [coefficient]

noncomputable def ofPoly (w : ℕ) (p : (ZMod 2)[X]) : BitVec w :=
  (BitVec.ofBoolListLE ((List.range w).map fun i => decide (p.coeff i = 1))).setWidth w

theorem ofPoly_toPoly : ofPoly w (toPoly v) = v := by
  apply BitVec.eq_of_getLsbD_eq
  intro i hi
  have hbit : ∀ b : Bool, decide (coefficient b = 1) = b := by decide
  have hlist : i < ((List.range w).map fun i => decide ((toPoly v).coeff i = 1)).length := by
    rwa [List.length_map, List.length_range]
  rw [ofPoly, BitVec.getLsbD_setWidth, BitVec.getLsbD_ofBoolListLE, decide_eq_true hi,
    Bool.true_and, List.getD_eq_getElem _ _ hlist, List.getElem_map, List.getElem_range,
    coeff_toPoly, hbit]

noncomputable def ofBits (bits : List Bool) : (ZMod 2)[X] :=
  bits.foldl (fun p b => X * p + C (coefficient b)) 0

theorem foldl_ofBits (bits : List Bool) (p : (ZMod 2)[X]) :
    bits.foldl (fun p b => X * p + C (coefficient b)) p = X ^ bits.length * p + ofBits bits := by
  induction bits generalizing p with
  | nil => simp [ofBits]
  | cons b bits ih =>
    rw [ofBits, List.foldl_cons, List.foldl_cons, ih, ih, List.length_cons]
    ring

theorem ofBits_append (s t : List Bool) : ofBits (s ++ t) = X ^ t.length * ofBits s + ofBits t := by
  rw [ofBits, List.foldl_append, foldl_ofBits]
  rfl

def bitsOf (v : BitVec w) : List Bool := (List.range w).reverse.map v.getLsbD

theorem length_bitsOf : (bitsOf v).length = w := by
  rw [bitsOf, List.length_map, List.length_reverse, List.length_range]

theorem ofBits_bitsOf : ofBits (bitsOf v) = toPoly v := by
  have hlow : ∀ n, ofBits ((List.range n).reverse.map v.getLsbD)
      = ∑ i ∈ Finset.range n, monomial i (coefficient (v.getLsbD i)) := by
    intro n
    induction n with
    | zero => rfl
    | succ n ih =>
      have hhead : ofBits [v.getLsbD n] = C (coefficient (v.getLsbD n)) := by simp [ofBits]
      rw [List.range_succ, List.reverse_append, List.reverse_singleton, List.singleton_append,
        List.map_cons, ← List.singleton_append, ofBits_append, hhead, ih, List.length_map,
        List.length_reverse, List.length_range, Finset.sum_range_succ, ← C_mul_X_pow_eq_monomial,
        mul_comm, add_comm]
  exact hlow w

noncomputable def generator (poly : BitVec w) : (ZMod 2)[X] := X ^ w + toPoly poly

theorem generator_monic (poly : BitVec w) : (generator poly).Monic :=
  monic_X_pow_add (degree_toPoly_lt poly)

theorem degree_generator (poly : BitVec w) : (generator poly).degree = w := by
  rw [generator, degree_add_eq_left_of_degree_lt, degree_X_pow]
  rw [degree_X_pow]
  exact degree_toPoly_lt poly

variable (poly : BitVec w)

noncomputable def classOf (p : (ZMod 2)[X]) : AdjoinRoot (generator poly) :=
  AdjoinRoot.mk (generator poly) p

theorem classOf_add (p q : (ZMod 2)[X]) : classOf poly (p + q) = classOf poly p + classOf poly q :=
  map_add _ p q

theorem classOf_mul (p q : (ZMod 2)[X]) : classOf poly (p * q) = classOf poly p * classOf poly q :=
  map_mul _ p q

theorem classOf_X_pow : classOf poly (X ^ w) = classOf poly (toPoly poly) := by
  rw [classOf, classOf, AdjoinRoot.mk_eq_mk]
  have hsub : (X ^ w - toPoly poly : (ZMod 2)[X]) = generator poly := by
    rw [generator, CharTwo.sub_eq_add]
  rw [hsub]

theorem toPoly_eq_mod {v : BitVec w} {p : (ZMod 2)[X]}
    (h : classOf poly (toPoly v) = classOf poly p) : toPoly v = p %ₘ generator poly := by
  have hdvd : generator poly ∣ p - toPoly v := AdjoinRoot.mk_eq_mk.mp h.symm
  have hself : toPoly v %ₘ generator poly = toPoly v := by
    rw [modByMonic_eq_self_iff (generator_monic poly), degree_generator]
    exact degree_toPoly_lt v
  rw [← hself]
  exact (modByMonic_eq_of_dvd_sub (generator_monic poly) hdvd).symm

theorem classOf_injective {u v : BitVec w}
    (h : classOf poly (toPoly u) = classOf poly (toPoly v)) : u = v := by
  apply toPoly_injective
  rw [toPoly_eq_mod poly h]
  exact (toPoly_eq_mod poly rfl).symm

def shift (c : BitVec w) : BitVec w := if c.msb then (c <<< 1) ^^^ poly else c <<< 1

def feedBit (c : BitVec w) (b : Bool) : BitVec w :=
  shift poly (c ^^^ if b then BitVec.twoPow w (w - 1) else 0)

def feed (c : BitVec w) (bits : List Bool) : BitVec w := bits.foldl (feedBit poly) c

variable (hw : 0 < w)

include hw

theorem classOf_shift (c : BitVec w) :
    classOf poly (toPoly (shift poly c)) = classOf poly (X * toPoly c) := by
  have hmul := X_pow_mul_toPoly (k := 1) hw c
  have htop : toPoly (c >>> (w - 1)) = C (coefficient c.msb) := by
    ext n
    rw [coeff_toPoly, BitVec.getLsbD_ushiftRight, coeff_C]
    cases n with
    | zero => rw [Nat.add_zero, if_pos rfl, BitVec.msb_eq_getLsbD_last]
    | succ n =>
      rw [BitVec.getLsbD_of_ge c _ (by omega), if_neg (Nat.succ_ne_zero n)]
      rfl
  rw [pow_one, htop] at hmul
  rw [hmul, classOf_add, classOf_mul, classOf_X_pow, shift]
  cases c.msb with
  | false => grind [classOf, coefficient]
  | true => grind [classOf, coefficient, toPoly_xor]

theorem classOf_feedBit (c : BitVec w) (b : Bool) :
    classOf poly (toPoly (feedBit poly c b))
      = classOf poly (X * toPoly c + X ^ w * C (coefficient b)) := by
  have hpow : (X : (ZMod 2)[X]) * X ^ (w - 1) = X ^ w := by
    rw [← pow_succ', Nat.sub_add_cancel hw]
  have hbit : toPoly (if b then BitVec.twoPow w (w - 1) else 0)
      = X ^ (w - 1) * C (coefficient b) := by
    cases b with
    | false => simp [toPoly_zero, coefficient]
    | true =>
      rw [if_pos rfl, toPoly_twoPow (by omega)]
      simp [coefficient]
  rw [feedBit, classOf_shift poly hw, toPoly_xor, mul_add, hbit, ← mul_assoc, hpow]

theorem classOf_feed (c : BitVec w) (bits : List Bool) :
    classOf poly (toPoly (feed poly c bits))
      = classOf poly (X ^ bits.length * toPoly c + X ^ w * ofBits bits) := by
  induction bits generalizing c with
  | nil => simp [feed, ofBits]
  | cons b bits ih =>
    have hsplit : ofBits (b :: bits) = X ^ bits.length * C (coefficient b) + ofBits bits := by
      rw [← List.singleton_append, ofBits_append]
      simp [ofBits]
    rw [feed, List.foldl_cons]
    rw [show bits.foldl (feedBit poly) (feedBit poly c b) = feed poly (feedBit poly c b) bits
      from rfl, ih, classOf_add, classOf_mul, classOf_feedBit poly hw, ← classOf_mul, ← classOf_add,
      hsplit, List.length_cons]
    congr 1
    ring

/-- **A register holds the remainder of its message.** -/
theorem toPoly_feed (c : BitVec w) (bits : List Bool) :
    toPoly (feed poly c bits)
      = (X ^ bits.length * toPoly c + X ^ w * ofBits bits) %ₘ generator poly :=
  toPoly_eq_mod poly (classOf_feed poly hw c bits)

end Machine
