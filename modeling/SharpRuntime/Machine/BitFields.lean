import Mathlib

/-!
# Bit fields

A field is a run of bits of a word, read by a shift and a mask and written by clearing its bits and
setting those of a value.  Bit by bit, writing touches the field only (`getLsbD_write`), so that
disjoint fields do not disturb each other (`read_write_of_disjoint`), and what is read back is what
the word has room for (`getLsbD_read_write`).
-/

set_option autoImplicit false

namespace Machine

/-- A run of bits: where it begins, and how many there are. -/
structure BitField where
  offset : ℕ
  width : ℕ
deriving DecidableEq

namespace BitField

variable {w : ℕ} (f g : BitField) (x v : BitVec w) (i : ℕ)

def mask (w : ℕ) : BitVec w := BitVec.ofNat w (2 ^ f.width - 1)

def read : BitVec w := (x >>> f.offset) &&& f.mask w

def write : BitVec w := (x &&& ~~~(f.mask w <<< f.offset)) ||| ((v &&& f.mask w) <<< f.offset)

def Disjoint : Prop := f.offset + f.width ≤ g.offset ∨ g.offset + g.width ≤ f.offset

theorem getLsbD_mask : (f.mask w).getLsbD i = (decide (i < f.width) && decide (i < w)) := by
  rw [mask, BitVec.getLsbD_ofNat, Nat.testBit_two_pow_sub_one, Bool.and_comm]

theorem getLsbD_read :
    (f.read x).getLsbD i = (decide (i < f.width) && x.getLsbD (f.offset + i)) := by
  grind [read, getLsbD_mask]

/-- What a write leaves in every bit of the word. -/
theorem getLsbD_write :
    (f.write x v).getLsbD i =
      if f.offset ≤ i ∧ i < f.offset + f.width then decide (i < w) && v.getLsbD (i - f.offset)
      else x.getLsbD i := by
  rw [write, BitVec.getLsbD_or, BitVec.getLsbD_and, BitVec.getLsbD_not, BitVec.getLsbD_shiftLeft,
    BitVec.getLsbD_shiftLeft, BitVec.getLsbD_and, getLsbD_mask]
  by_cases hw : i < w
  · grind
  · rw [BitVec.getLsbD_of_ge x i (by omega)]
    simp [hw]

variable {f : BitField}

/-- A write is not seen through a disjoint field. -/
theorem read_write_of_disjoint {g : BitField} (h : f.Disjoint g) :
    g.read (f.write x v) = g.read x := by
  apply BitVec.eq_of_getLsbD_eq
  intro i _
  rw [getLsbD_read, getLsbD_read, getLsbD_write]
  by_cases hi : i < g.width
  · rw [if_neg (by rcases h with h | h <;> omega)]
  · rw [decide_eq_false hi, Bool.false_and, Bool.false_and]

/-- What is read back is cut to the field and to the word. -/
theorem getLsbD_read_write :
    (f.read (f.write x v)).getLsbD i =
      (decide (i < f.width) && (decide (f.offset + i < w) && v.getLsbD i)) := by
  grind [getLsbD_read, getLsbD_write]

theorem read_write (hfield : f.offset + f.width ≤ w) (hv : v.toNat < 2 ^ f.width) :
    f.read (f.write x v) = v := by
  apply BitVec.eq_of_getLsbD_eq
  intro i _
  rw [getLsbD_read_write]
  by_cases hi : i < f.width
  · rw [decide_eq_true hi, decide_eq_true (by omega), Bool.true_and, Bool.true_and]
  · have hhigh : v.toNat < 2 ^ i := hv.trans_le (Nat.pow_le_pow_right (by decide) (by omega))
    rw [decide_eq_false hi, Bool.false_and, BitVec.getLsbD, Nat.testBit_lt_two_pow hhigh]

theorem read_write_ne (hbit : v.getLsbD i = true) (hpast : w ≤ f.offset + i) :
    f.read (f.write x v) ≠ v := by grind [getLsbD_read_write]

end BitField

end Machine
