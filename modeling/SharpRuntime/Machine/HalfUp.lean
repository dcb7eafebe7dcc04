import Mathlib

/-!
# Dropping decimal digits one at a time

Rounding half up at every digit is not rounding half up once: `445` becomes `45`, then `5`, then
`1`.  `halfUp t n` is the result of `t` such steps.  It is within half a unit of the exact quotient
unless the dropped tail lies between `4…45` and half (`DoubleRounds`, `halfUp_near_iff`).  `shorten`
drops digits until a number fits a bound and its scale a cap; `headroom` counts the zeros that can
be appended below a bound.
-/

set_option autoImplicit false

namespace Machine

def fives : ℕ → ℕ
  | 0 => 0
  | t + 1 => 10 * fives t + 5

/-- `n` after `t` digits have been dropped one at a time, each rounded half up. -/
def halfUp (t n : ℕ) : ℕ := (n + fives t) / 10 ^ t

theorem nine_mul_fives (t : ℕ) : 9 * fives t + 5 = 5 * 10 ^ t := by
  induction t with
  | zero => rfl
  | succ t ih =>
    rw [fives, pow_succ]
    omega

theorem fives_succ' (t : ℕ) : fives (t + 1) = fives t + 5 * 10 ^ t := by
  have h := nine_mul_fives t
  rw [fives]
  omega

@[simp] theorem halfUp_zero (n : ℕ) : halfUp 0 n = n := by simp [halfUp, fives]

theorem halfUp_one (n : ℕ) : halfUp 1 n = (n + 5) / 10 := by simp [halfUp, fives]

theorem halfUp_one_eq (n : ℕ) : halfUp 1 n = if 5 ≤ n % 10 then n / 10 + 1 else n / 10 := by
  rw [halfUp_one]
  split <;> omega

/-- Dropping one more digit rounds what the others left. -/
theorem halfUp_succ (t n : ℕ) : halfUp (t + 1) n = halfUp 1 (halfUp t n) := by
  have hpos : 0 < 10 ^ t := by positivity
  rw [halfUp_one, halfUp, halfUp, fives_succ', pow_succ, ← Nat.div_div_eq_div_mul,
    ← Nat.add_assoc, Nat.add_mul_div_right _ _ hpos]

theorem halfUp_succ' (t n : ℕ) : halfUp (t + 1) n = halfUp t (halfUp 1 n) := by
  induction t generalizing n with
  | zero => rw [halfUp_zero]
  | succ t ih => rw [halfUp_succ, ih, ← halfUp_succ]

variable {m n : ℕ}

theorem halfUp_mono (t : ℕ) (h : m ≤ n) : halfUp t m ≤ halfUp t n :=
  Nat.div_le_div_right (Nat.add_le_add_right h _)

theorem halfUp_le_self (t n : ℕ) : halfUp t n ≤ n := by
  induction t generalizing n with
  | zero => simp
  | succ t ih => grind [halfUp_succ', halfUp_one]

theorem halfUp_mul_add (t a n : ℕ) : halfUp t (a * 10 ^ t + n) = a + halfUp t n := by
  have hpos : 0 < 10 ^ t := by positivity
  rw [halfUp, Nat.add_assoc, Nat.add_comm, Nat.add_mul_div_right _ _ hpos, ← halfUp, Nat.add_comm]

theorem fives_lt (t : ℕ) : fives t < 10 ^ t := by
  have h := nine_mul_fives t
  omega

theorem halfUp_eq (t n : ℕ) :
    halfUp t n = n / 10 ^ t + if 10 ^ t ≤ n % 10 ^ t + fives t then 1 else 0 := by
  have hpos : 0 < 10 ^ t := by positivity
  have hf := fives_lt t
  have hsplit : n + fives t = n / 10 ^ t * 10 ^ t + (n % 10 ^ t + fives t) := by
    rw [← Nat.add_assoc, Nat.div_add_mod']
  rw [halfUp, hsplit, Nat.add_comm, Nat.add_mul_div_right _ _ hpos, Nat.add_comm]
  congr 1
  split
  · rename_i hge
    rw [Nat.div_eq_iff hpos]
    omega
  · rename_i hlt'
    exact Nat.div_eq_of_lt (by omega)

variable {t : ℕ}

theorem halfUp_of_mod_eq_zero (h : n % 10 ^ t = 0) : halfUp t n * 10 ^ t = n := by
  have hf := fives_lt t
  rw [halfUp_eq, h, if_neg (by omega), Nat.add_zero]
  exact Nat.div_mul_cancel (Nat.dvd_of_mod_eq_zero h)

theorem halfUp_mul_pow (t a : ℕ) : halfUp t (a * 10 ^ t) = a := by
  have h := halfUp_of_mod_eq_zero (Nat.mul_mod_left a (10 ^ t))
  exact Nat.eq_of_mul_eq_mul_right (by positivity) h

/-- The tails on which dropping digit by digit rounds up and rounding once would not. -/
def DoubleRounds (t n : ℕ) : Prop := 10 ^ t ≤ n % 10 ^ t + fives t ∧ 2 * (n % 10 ^ t) < 10 ^ t

instance (t n : ℕ) : Decidable (DoubleRounds t n) := inferInstanceAs (Decidable (_ ∧ _))

theorem not_doubleRounds_of_mod_eq_zero (h : n % 10 ^ t = 0) : ¬ DoubleRounds t n := by
  have hf := fives_lt t
  rintro ⟨h1, -⟩
  omega

/-- **Half a unit.**  The result is within half a unit of the exact quotient exactly when
the tail is not one of those. -/
theorem halfUp_near_iff (t n : ℕ) :
    2 * |((halfUp t n * 10 ^ t : ℕ) : ℤ) - n| ≤ ((10 ^ t : ℕ) : ℤ) ↔ ¬ DoubleRounds t n := by
  have hpos : 0 < 10 ^ t := by positivity
  have hlt := Nat.mod_lt n hpos
  have hf := nine_mul_fives t
  have hsplit : n = n / 10 ^ t * 10 ^ t + n % 10 ^ t := (Nat.div_add_mod' n (10 ^ t)).symm
  unfold DoubleRounds
  rw [halfUp_eq]
  generalize n % 10 ^ t = r at *
  by_cases hup : 10 ^ t ≤ r + fives t
  · -- rounded up: the distance is the rest of the unit
    have hval : ((((n / 10 ^ t + 1) * 10 ^ t : ℕ)) : ℤ) - n = (10 ^ t : ℕ) - (r : ℤ) := by grind
    rw [if_pos hup, hval, abs_of_nonneg (by omega)]
    omega
  · -- rounded down: the distance is the tail
    have hval : (((n / 10 ^ t * 10 ^ t : ℕ)) : ℤ) - n = -(r : ℤ) := by omega
    rw [if_neg hup, Nat.add_zero, hval, abs_neg, abs_of_nonneg (by omega)]
    omega

/-- Drop digits from `n` at scale `s` until it is at most `M` and the scale at most `K`; there
is no digit to drop at scale zero. -/
def shorten (M K : ℕ) : ℕ → ℕ → Option (ℕ × ℕ)
  | 0, n => if n ≤ M then some (n, 0) else none
  | s + 1, n => if n ≤ M ∧ s + 1 ≤ K then some (n, s + 1) else shorten M K s (halfUp 1 n)

theorem shorten_cases (M K s n : ℕ) :
    (∃ t ≤ s, (halfUp t n ≤ M ∧ s - t ≤ K) ∧ (∀ t' < t, ¬ (halfUp t' n ≤ M ∧ s - t' ≤ K)) ∧
      shorten M K s n = some (halfUp t n, s - t)) ∨
    ((∀ t ≤ s, ¬ (halfUp t n ≤ M ∧ s - t ≤ K)) ∧ shorten M K s n = none) := by
  induction s generalizing n with
  | zero =>
    by_cases hn : n ≤ M
    · left
      exact ⟨0, le_rfl, by simpa using hn, by simp, by simp [shorten, hn]⟩
    · right
      refine ⟨?_, by simp [shorten, hn]⟩
      intro t ht
      obtain rfl : t = 0 := by omega
      simpa using hn
  | succ s ih =>
    by_cases hfit : n ≤ M ∧ s + 1 ≤ K
    · left
      exact ⟨0, by omega, by simpa using hfit, by simp, by simp [shorten, hfit]⟩
    · -- the first digit is dropped here, the others by the recursion
      have hstep : shorten M K (s + 1) n = shorten M K s (halfUp 1 n) := by
        rw [shorten, if_neg hfit]
      have hshift : ∀ t, (halfUp t (halfUp 1 n) ≤ M ∧ s - t ≤ K) ↔
          (halfUp (t + 1) n ≤ M ∧ s + 1 - (t + 1) ≤ K) := by
        intro t
        rw [halfUp_succ' t n, Nat.add_sub_add_right]
      rcases ih (halfUp 1 n) with ⟨t, ht, hfit', hmin, heq⟩ | ⟨hall, heq⟩
      · left
        refine ⟨t + 1, by omega, (hshift t).mp hfit', ?_, ?_⟩
        · intro t' ht'
          cases t' with
          | zero => simpa using hfit
          | succ t' =>
            rw [← hshift]
            exact hmin t' (by omega)
        · rw [hstep, heq, halfUp_succ' t n, Nat.add_sub_add_right]
      · right
        refine ⟨?_, hstep.trans heq⟩
        intro t ht
        cases t with
        | zero => simpa using hfit
        | succ t =>
          rw [← hshift]
          exact hall t (by omega)

variable {M : ℕ}

variable {K s : ℕ}

theorem shorten_of_fits (hn : n ≤ M) (hs : s ≤ K) : shorten M K s n = some (n, s) := by
  cases s with
  | zero => simp [shorten, hn]
  | succ s => simp [shorten, hn, hs]

theorem shorten_drop (ht : t ≤ s) (h : ∀ j < t, M < halfUp j n) :
    shorten M K s n = shorten M K (s - t) (halfUp t n) := by
  induction t generalizing s n with
  | zero => rw [halfUp_zero, Nat.sub_zero]
  | succ t ih =>
    obtain ⟨s, rfl⟩ : ∃ s', s = s' + 1 := ⟨s - 1, by omega⟩
    have hn : M < n := by simpa using h 0 (by omega)
    have hrest : ∀ j < t, M < halfUp j (halfUp 1 n) := by
      intro j hj
      rw [← halfUp_succ']
      exact h (j + 1) (by omega)
    rw [shorten, if_neg (by omega), ih (by omega) hrest, ← halfUp_succ', Nat.add_sub_add_right]

/-- How many zeros, at most `d` of them, can be appended to `m` below `M`. -/
def headroom (M : ℕ) : ℕ → ℕ → ℕ
  | 0, _ => 0
  | d + 1, m => if m * 10 ≤ M then headroom M d (m * 10) + 1 else 0

theorem headroom_spec (M d m : ℕ) :
    headroom M d m ≤ d ∧ (m ≤ M → m * 10 ^ headroom M d m ≤ M) ∧
      (headroom M d m < d → M < m * 10 ^ headroom M d m * 10) := by
  induction d generalizing m with
  | zero => simp [headroom]
  | succ d ih =>
    rw [headroom]
    by_cases h : m * 10 ≤ M
    · grind
    · grind

theorem le_headroom_iff {d k : ℕ} (hm : m ≤ M) : k ≤ headroom M d m ↔ k ≤ d ∧ m * 10 ^ k ≤ M := by
  obtain ⟨hle, hfit, hstop⟩ := headroom_spec M d m
  constructor
  · intro hk
    refine ⟨hk.trans hle, ?_⟩
    calc
      m * 10 ^ k ≤ m * 10 ^ headroom M d m :=
        Nat.mul_le_mul_left m (Nat.pow_le_pow_right (by decide) hk)
      _ ≤ M := hfit hm
  · rintro ⟨hkd, hk⟩
    by_contra hlt
    have hpow : m * 10 ^ headroom M d m * 10 ≤ m * 10 ^ k := by
      rw [Nat.mul_assoc, ← pow_succ]
      exact Nat.mul_le_mul_left m (Nat.pow_le_pow_right (by decide) (by omega))
    omega

def nearestDiv (n m : ℕ) : ℕ := (2 * n + m) / (2 * m)

theorem nearestDiv_eq (n : ℕ) (hm : 0 < m) :
    nearestDiv n m = if m ≤ 2 * (n % m) then n / m + 1 else n / m := by
  have hlt := Nat.mod_lt n hm
  have hsplit : 2 * n + m = n / m * (2 * m) + (2 * (n % m) + m) := by
    have h : n / m * m + n % m = n := Nat.div_add_mod' n m
    calc
      2 * n + m = 2 * (n / m * m + n % m) + m := by rw [h]
      _ = n / m * (2 * m) + (2 * (n % m) + m) := by ring
  rw [nearestDiv, hsplit, Nat.add_comm, Nat.add_mul_div_right _ _ (by omega), Nat.add_comm]
  split
  · congr 1
    rw [Nat.div_eq_iff (by omega)]
    omega
  · have hzero : (2 * (n % m) + m) / (2 * m) = 0 := Nat.div_eq_of_lt (by omega)
    rw [hzero, Nat.add_zero]

theorem nearestDiv_mul (n : ℕ) (hm : 0 < m) : nearestDiv (n * m) m = n := by
  rw [nearestDiv_eq _ hm, Nat.mul_mod_left, if_neg (by omega), Nat.mul_div_cancel _ hm]

theorem nearestDiv_error (n : ℕ) (hm : 0 < m) :
    |((nearestDiv n m * m : ℕ) : ℤ) - n| = (min (n % m) (m - n % m) : ℕ) := by
  have hlt := Nat.mod_lt n hm
  have hsplit : n / m * m + n % m = n := Nat.div_add_mod' n m
  rw [nearestDiv_eq n hm]
  split
  · grind
  · grind

theorem nearestDiv_le (n : ℕ) (hm : 0 < m) : nearestDiv n m ≤ n := by
  have hlt : (2 * n + m) / (2 * m) < n + 1 := by
    rw [Nat.div_lt_iff_lt_mul (by omega)]
    nlinarith
  rw [nearestDiv]
  omega

theorem nearestDiv_div (n : ℕ) (p : ℕ) (hm : 0 < m) : nearestDiv n m / p =
      n / m / p + if m ≤ 2 * (n % m) ∧ p ∣ n / m + 1 then 1 else 0 := by
  rw [nearestDiv_eq n hm]
  by_cases hup : m ≤ 2 * (n % m)
  · simp only [hup, true_and, if_true]
    exact Nat.succ_div
  · simp [hup]

end Machine
