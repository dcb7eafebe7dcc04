import Mathlib

/-!
# Rounding to an integer

The integers a number may be rounded to: the nearest one with ties to the even one (`NearestEven`)
or away from zero (`NearestAway`), and the one toward zero (`integerPart`); the floor and the
ceiling are Mathlib's.  Each is unique, fixes the integers and reflects with the sign, so that a
quotient is rounded by its quotient and remainder (`nearestEven_div`, `nearestAway_div`,
`ceil_div`).
-/

set_option autoImplicit false

namespace Machine

variable {K : Type*} [Field K] [LinearOrder K]

def NearestEven (q : K) (n : ℤ) : Prop := |q - n| ≤ 1 / 2 ∧ (|q - n| = 1 / 2 → Even n)

/-- An integer at most half a unit away, the one away from zero of two. -/
def NearestAway (q : K) (n : ℤ) : Prop := |q - n| ≤ 1 / 2 ∧ (|q - n| = 1 / 2 → |q| ≤ |(n : K)|)

theorem abs_neg_sub_neg (q : K) (n : ℤ) : |-q - ((-n : ℤ) : K)| = |q - n| := by
  rw [Int.cast_neg, sub_neg_eq_add, neg_add_eq_sub, abs_sub_comm]

variable {q : K} {n : ℤ}

theorem NearestEven.neg (h : NearestEven q n) : NearestEven (-q) (-n) := by
  unfold NearestEven
  rw [abs_neg_sub_neg]
  exact ⟨h.1, fun hhalf => (h.2 hhalf).neg⟩

theorem NearestAway.neg (h : NearestAway q n) : NearestAway (-q) (-n) := by
  unfold NearestAway
  rw [abs_neg_sub_neg, Int.cast_neg, abs_neg, abs_neg]
  exact h

variable [IsStrictOrderedRing K]

-- what linear arithmetic asks for, at hand rather than searched for
local instance roundingOrderedRing : IsOrderedRing K := IsStrictOrderedRing.toIsOrderedRing

local instance roundingOrderedMonoid : IsOrderedAddMonoid K := IsOrderedRing.toIsOrderedAddMonoid

local instance roundingLeftMono : AddLeftMono K := IsOrderedAddMonoid.toAddLeftMono

variable {m : ℤ}

/-- Two nearest integers can only be the neighbours of a tie, so a choice among these fixes one. -/
theorem eq_of_nearest {P : ℤ → Prop} (hchoice : ∀ a : ℤ, q = a + 1 / 2 → P a → ¬ P (a + 1))
    (hm : |q - m| ≤ 1 / 2 ∧ (|q - m| = 1 / 2 → P m))
    (hn : |q - n| ≤ 1 / 2 ∧ (|q - n| = 1 / 2 → P n)) : m = n := by
  have hno : ∀ {a b : ℤ}, (|q - a| ≤ 1 / 2 ∧ (|q - a| = 1 / 2 → P a)) →
      (|q - b| ≤ 1 / 2 ∧ (|q - b| = 1 / 2 → P b)) → ¬ a < b := by
    intro a b ha hb hlt
    have hle := abs_le.mp ha.1
    have hge := abs_le.mp hb.1
    have hgap : (b : K) - a ≤ 1 := by linarith
    have hone : b - a ≤ 1 := by exact_mod_cast hgap
    obtain rfl : b = a + 1 := by omega
    have hq : q = a + 1 / 2 := by
      push_cast at hge
      linarith
    refine hchoice a hq (ha.2 ?_) (hb.2 ?_)
    · rw [hq, add_sub_cancel_left, abs_of_pos one_half_pos]
    · push_cast
      rw [hq, abs_of_neg (by linarith)]
      ring
  exact le_antisymm (not_lt.mp (hno hn hm)) (not_lt.mp (hno hm hn))

theorem NearestEven.unique (hm : NearestEven q m) (hn : NearestEven q n) : m = n :=
  eq_of_nearest (fun _ _ ha hb => Int.even_add_one.mp hb ha) hm hn

theorem NearestAway.unique (hm : NearestAway q m) (hn : NearestAway q n) : m = n := by
  refine eq_of_nearest (P := fun z => |q| ≤ |(z : K)|) (fun a hq hea heb => ?_) hm hn
  -- a tie between two neighbours is not zero, and only one of them is farther out
  push_cast at heb
  rcases le_or_gt 0 a with h0 | h0
  · have ha0 : (0 : K) ≤ a := by exact_mod_cast h0
    rw [hq, abs_of_nonneg (by linarith), abs_of_nonneg ha0] at hea
    linarith
  · have ha0 : (a : K) + 1 ≤ 0 := by exact_mod_cast h0
    rw [hq, abs_of_neg (by linarith), abs_of_nonpos ha0] at heb
    linarith

theorem nearestEven_intCast (z : ℤ) : NearestEven (z : K) z := by
  constructor
  · rw [sub_self, abs_zero]
    exact one_half_pos.le
  · grind

theorem nearestAway_intCast (z : ℤ) : NearestAway (z : K) z := by
  constructor
  · rw [sub_self, abs_zero]
    exact one_half_pos.le
  · intro _
    exact le_rfl

section Floor

variable [FloorRing K]

/-- The integer between a number and zero nearest to the number. -/
def integerPart (q : K) : ℤ := if 0 ≤ q then ⌊q⌋ else ⌈q⌉

variable {q : K}

omit [IsStrictOrderedRing K] in
theorem integerPart_of_nonneg (h : 0 ≤ q) : integerPart q = ⌊q⌋ := if_pos h

theorem integerPart_neg (q : K) : integerPart (-q) = -integerPart q := by
  unfold integerPart
  rcases lt_trichotomy q 0 with h | rfl | h
  · rw [if_pos (by linarith), if_neg (by linarith), Int.floor_neg]
  · simp
  · rw [if_neg (by linarith), if_pos h.le, Int.ceil_neg]

@[simp] theorem integerPart_intCast (z : ℤ) : integerPart (z : K) = z := by
  unfold integerPart
  rw [Int.floor_intCast, Int.ceil_intCast, ite_self]

theorem floor_of_nonpos (h : q ≤ 0) :
    ⌊q⌋ = if (integerPart q : K) = q then integerPart q else integerPart q - 1 := by
  have hceil : integerPart q = ⌈q⌉ := by
    unfold integerPart
    split
    · rename_i h0
      rw [le_antisymm h h0, Int.floor_zero, Int.ceil_zero]
    · rfl
  split
  · rename_i hint
    rw [Int.floor_eq_iff, hint]
    exact ⟨le_rfl, lt_add_one q⟩
  · rename_i hne
    rw [hceil] at hne ⊢
    have hle := Int.le_ceil q
    have hlt := Int.ceil_lt_add_one q
    rw [Int.floor_eq_iff]
    push_cast
    exact ⟨by linarith, by rw [sub_add_cancel]; exact lt_of_le_of_ne hle (Ne.symm hne)⟩

theorem ceil_of_nonneg (h : 0 ≤ q) :
    ⌈q⌉ = if (integerPart q : K) = q then integerPart q else integerPart q + 1 := by
  have hneg := floor_of_nonpos (neg_nonpos.mpr h)
  simp only [Int.floor_neg, integerPart_neg, Int.cast_neg, neg_inj] at hneg
  rw [← neg_inj, hneg]
  split
  · rfl
  · ring

variable (m : ℕ) {d : ℕ}

omit [LinearOrder K] [IsStrictOrderedRing K] [FloorRing K] in
theorem div_eq_quotient_add [CharZero K] (hd : 0 < d) :
    (m : K) / d = (m / d : ℕ) + ((m % d : ℕ) : K) / d := by
  have hd' : (d : K) ≠ 0 := by exact_mod_cast hd.ne'
  rw [div_eq_iff hd', add_mul, div_mul_cancel₀ _ hd']
  exact_mod_cast (Nat.div_add_mod' m d).symm

theorem ceil_div (hd : 0 < d) :
    ⌈(m : K) / d⌉ = ((if m % d = 0 then m / d else m / d + 1 : ℕ) : ℤ) := by
  have hd' : (0 : K) < d := by exact_mod_cast hd
  have hrem : ((m % d : ℕ) : K) < d := by exact_mod_cast Nat.mod_lt m hd
  rw [Int.ceil_eq_iff, div_eq_quotient_add m hd]
  split
  · rename_i h0
    rw [h0, Nat.cast_zero, zero_div, add_zero, Int.cast_natCast]
    exact ⟨sub_one_lt _, le_rfl⟩
  · rename_i h0
    have hpos : (0 : K) < ((m % d : ℕ) : K) / d := by
      apply div_pos _ hd'
      exact_mod_cast Nat.pos_of_ne_zero h0
    have hlt : ((m % d : ℕ) : K) / d < 1 := (div_lt_one hd').mpr hrem
    rw [Int.cast_natCast, Nat.cast_add_one]
    constructor <;> linarith

/-- The part of a quotient behind its integer, against a half. -/
theorem exists_fraction (hd : 0 < d) : ∃ f : K, (m : K) / d = (m / d : ℕ) + f ∧ 0 ≤ f ∧ f < 1 ∧
    (f < 1 / 2 ↔ 2 * (m % d) < d) ∧ (f = 1 / 2 ↔ 2 * (m % d) = d) := by
  have hd' : (0 : K) < d := by exact_mod_cast hd
  have hrem : ((m % d : ℕ) : K) < d := by exact_mod_cast Nat.mod_lt m hd
  refine ⟨_, div_eq_quotient_add m hd, by positivity, (div_lt_one hd').mpr hrem, ?_, ?_⟩
  · rw [div_lt_div_iff₀ hd' two_pos, one_mul, mul_comm]
    exact_mod_cast Iff.rfl
  · rw [div_eq_div_iff hd'.ne' two_ne_zero, one_mul, mul_comm]
    exact_mod_cast Iff.rfl

theorem nearestEven_div (hd : 0 < d) :
    NearestEven ((m : K) / d)
      ((if 2 * (m % d) < d ∨ (2 * (m % d) = d ∧ Even (m / d)) then m / d else m / d + 1 : ℕ) :
        ℤ) := by
  obtain ⟨f, hdiv, hfrac, hone, hless, hhalf⟩ := exists_fraction (K := K) m hd
  unfold NearestEven
  rw [hdiv]
  split
  · rw [Int.cast_natCast, add_sub_cancel_left, abs_of_nonneg hfrac]
    constructor
    · grind
    · grind
  · rename_i hup
    rw [not_or, not_and] at hup
    have hge : 1 / 2 ≤ f := not_lt.mp (hless.not.mpr hup.1)
    have hdist : |((m / d : ℕ) : K) + f - (((m / d + 1 : ℕ) : ℤ) : K)| = 1 - f := by
      rw [Int.cast_natCast, Nat.cast_add_one, abs_of_nonpos (by linarith)]
      ring
    rw [hdist]
    constructor
    · linarith
    · grind

theorem nearestAway_div (hd : 0 < d) :
    NearestAway ((m : K) / d) ((if 2 * (m % d) < d then m / d else m / d + 1 : ℕ) : ℤ) := by
  obtain ⟨f, hdiv, hfrac, hone, hless, -⟩ := exists_fraction (K := K) m hd
  unfold NearestAway
  rw [hdiv]
  split
  · rename_i hdown
    have hlt := hless.mpr hdown
    rw [Int.cast_natCast, add_sub_cancel_left, abs_of_nonneg hfrac]
    exact ⟨hlt.le, fun htie => absurd htie hlt.ne⟩
  · rename_i hup
    have hge : 1 / 2 ≤ f := not_lt.mp (hless.not.mpr hup)
    have hquot : (0 : K) ≤ ((m / d : ℕ) : K) := by positivity
    rw [Int.cast_natCast, Nat.cast_add_one, abs_of_nonpos (by linarith),
      abs_of_nonneg (by linarith), abs_of_nonneg (by linarith)]
    exact ⟨by linarith, fun _ => by linarith⟩

end Floor

end Machine
