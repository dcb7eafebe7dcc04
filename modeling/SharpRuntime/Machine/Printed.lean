import Mathlib

/-!
# Printed digits

The digits of a number, the most significant one first, as a printer writes them and a reader folds
them up.  `value` is what a reader accumulates; `fixed b w n` are the `w` low digits of `n`, and
`numeral b n` as many as `n` needs.  A number padded with zeros to a width it fits is `fixed`
(`padded_eq_fixed`).  `text` spells decimal digits as characters.
-/

set_option autoImplicit false

namespace Machine.Printed

variable {b : ℕ}

/-- White space, as `std::isspace` has it in the C locale. -/
def blanks : List Char := [' ', '\t', '\n', '\x0b', '\x0c', '\r']

/-- The number a reader that has accumulated `acc` ends with after the digits `ds`. -/
def accumulate (b acc : ℕ) (ds : List ℕ) : ℕ := ds.foldl (fun a d => a * b + d) acc

def value (b : ℕ) (ds : List ℕ) : ℕ := accumulate b 0 ds

@[simp] theorem accumulate_nil (b acc : ℕ) : accumulate b acc [] = acc := rfl

@[simp] theorem accumulate_cons (b acc d : ℕ) (ds : List ℕ) :
    accumulate b acc (d :: ds) = accumulate b (acc * b + d) ds := rfl

@[simp] theorem value_nil (b : ℕ) : value b [] = 0 := rfl

theorem accumulate_append (b acc : ℕ) (ds es : List ℕ) :
    accumulate b acc (ds ++ es) = accumulate b (accumulate b acc ds) es :=
  List.foldl_append

theorem accumulate_eq (b acc : ℕ) (ds : List ℕ) :
    accumulate b acc ds = acc * b ^ ds.length + value b ds := by
  induction ds generalizing acc with
  | nil => simp
  | cons d ds ih =>
    rw [value, accumulate_cons, accumulate_cons, ih, ih (0 * b + d), List.length_cons]
    ring

theorem value_cons (b d : ℕ) (ds : List ℕ) : value b (d :: ds) = d * b ^ ds.length + value b ds := by
  rw [value, accumulate_cons, accumulate_eq, Nat.zero_mul, Nat.zero_add]

theorem value_append (b : ℕ) (ds es : List ℕ) :
    value b (ds ++ es) = value b ds * b ^ es.length + value b es := by
  rw [value, accumulate_append, accumulate_eq]
  rfl

theorem value_concat (b d : ℕ) (ds : List ℕ) : value b (ds ++ [d]) = value b ds * b + d := by
  rw [value, accumulate_append]
  rfl

theorem value_replicate_zero (b w : ℕ) : value b (List.replicate w 0) = 0 := by
  induction w with
  | zero => rfl
  | succ w ih => rw [List.replicate_succ, value_cons, ih, Nat.zero_mul]

variable {ds : List ℕ}

theorem value_lt (h : ∀ d ∈ ds, d < b) : value b ds < b ^ ds.length := by
  induction ds with
  | nil => simp
  | cons d ds ih =>
    have hd : d < b := h d (by simp)
    have htail := ih fun e he => h e (by simp [he])
    rw [value_cons, List.length_cons]
    calc d * b ^ ds.length + value b ds < d * b ^ ds.length + b ^ ds.length := by omega
      _ = (d + 1) * b ^ ds.length := by ring
      _ ≤ b * b ^ ds.length := Nat.mul_le_mul_right _ hd
      _ = b ^ (ds.length + 1) := by ring

theorem le_accumulate (hb : 1 ≤ b) (acc : ℕ) (ds : List ℕ) : acc ≤ accumulate b acc ds := by
  rw [accumulate_eq]
  have hpow : 1 ≤ b ^ ds.length := Nat.one_le_pow _ _ hb
  nlinarith [Nat.mul_le_mul_left acc hpow]

def fixed (b : ℕ) : ℕ → ℕ → List ℕ
  | 0, _ => []
  | w + 1, n => fixed b w (n / b) ++ [n % b]

@[simp] theorem length_fixed (b w n : ℕ) : (fixed b w n).length = w := by
  induction w generalizing n with
  | zero => rfl
  | succ w ih => rw [fixed, List.length_append, ih, List.length_singleton]

variable {w n d : ℕ}

theorem lt_of_mem_fixed (hb : 0 < b) (h : d ∈ fixed b w n) : d < b := by
  induction w generalizing n with
  | zero => simp [fixed] at h
  | succ w ih =>
    rw [fixed, List.mem_append, List.mem_singleton] at h
    rcases h with h | rfl
    · exact ih h
    · exact Nat.mod_lt _ hb

theorem value_fixed (b w n : ℕ) : value b (fixed b w n) = n % b ^ w := by
  induction w generalizing n with
  | zero => simp [fixed, Nat.mod_one]
  | succ w ih =>
    rw [fixed, value_concat, ih, pow_succ, Nat.mul_comm (b ^ w) b, Nat.mod_mul]
    ring

theorem value_fixed_of_lt (h : n < b ^ w) : value b (fixed b w n) = n := by
  rw [value_fixed, Nat.mod_eq_of_lt h]

/-- A digit string is determined by its length and its value. -/
theorem fixed_value (h : ∀ d ∈ ds, d < b) : fixed b ds.length (value b ds) = ds := by
  induction ds using List.reverseRecOn with
  | nil => rfl
  | append_singleton ds d ih =>
    have hd : d < b := h d (by simp)
    have hb : 0 < b := by omega
    have hprefix := ih fun e he => h e (by simp [he])
    have hdiv : (value b ds * b + d) / b = value b ds := by
      rw [Nat.mul_comm, Nat.mul_add_div hb, Nat.div_eq_of_lt hd, Nat.add_zero]
    have hmod : (value b ds * b + d) % b = d := by
      rw [Nat.mul_comm, Nat.mul_add_mod, Nat.mod_eq_of_lt hd]
    rw [List.length_append, List.length_singleton, value_concat, fixed, hdiv, hmod, hprefix]

/-- The digits of `n`, without leading zeros; zero is one digit. -/
def numeral (b n : ℕ) : List ℕ := if n = 0 then [0] else (Nat.digits b n).reverse

def padded (b w n : ℕ) : List ℕ :=
  List.replicate (w - (numeral b n).length) 0 ++ numeral b n

theorem lt_of_mem_numeral (hb : 1 < b) (h : d ∈ numeral b n) : d < b := by
  unfold numeral at h
  split at h
  · rw [List.mem_singleton] at h
    omega
  · exact Nat.digits_lt_base hb (List.mem_reverse.mp h)

private theorem value_reverse (b : ℕ) (ds : List ℕ) : value b ds.reverse = Nat.ofDigits b ds := by
  induction ds with
  | nil => rfl
  | cons d ds ih =>
    rw [List.reverse_cons, value_concat, ih, Nat.ofDigits_cons]
    ring

theorem value_numeral (b n : ℕ) : value b (numeral b n) = n := by
  unfold numeral
  split
  case isTrue h =>
    rw [h]
    simp [value]
  case isFalse h => rw [value_reverse, Nat.ofDigits_digits]

theorem numeral_length_pos (b n : ℕ) : 0 < (numeral b n).length := by
  unfold numeral
  split
  case isTrue h => simp
  case isFalse h =>
    rw [List.length_reverse, List.length_pos_iff]
    exact Nat.digits_ne_nil_iff_ne_zero.mpr h

theorem numeral_length_le (hb : 1 < b) (hw : 0 < w) (h : n < b ^ w) : (numeral b n).length ≤ w := by
  unfold numeral
  split
  case isTrue h0 => exact hw
  case isFalse h0 =>
    rw [List.length_reverse]
    exact (Nat.digits_length_le_iff hb n).mpr h

theorem value_padded (b w n : ℕ) : value b (padded b w n) = n := by
  rw [padded, value_append, value_replicate_zero, value_numeral, Nat.zero_mul, Nat.zero_add]

theorem lt_of_mem_padded (hb : 1 < b) (h : d ∈ padded b w n) : d < b := by
  rcases List.mem_append.mp h with h | h
  · rw [List.eq_of_mem_replicate h]
    omega
  · exact lt_of_mem_numeral hb h

/-- A number padded with zeros to a width that it fits has just that width. -/
theorem padded_eq_fixed (hb : 1 < b) (hw : 0 < w) (h : n < b ^ w) : padded b w n = fixed b w n := by
  have hlen : (padded b w n).length = w := by
    have := numeral_length_le hb hw h
    rw [padded, List.length_append, List.length_replicate]
    omega
  have hfixed := fixed_value fun d (hd : d ∈ padded b w n) => lt_of_mem_padded hb hd
  rw [value_padded, hlen] at hfixed
  exact hfixed.symm

theorem exists_numeral_cons (b : ℕ) (h : n ≠ 0) : ∃ d ds, numeral b n = d :: ds ∧ d ≠ 0 := by
  have hne : Nat.digits b n ≠ [] := Nat.digits_ne_nil_iff_ne_zero.mpr h
  refine ⟨(Nat.digits b n).getLast hne, (Nat.digits b n).dropLast.reverse, ?_,
    Nat.getLast_digit_ne_zero b h⟩
  rw [numeral, if_neg h]
  conv_lhs => rw [← List.dropLast_append_getLast hne, List.reverse_append]
  rfl

theorem numeral_value (hb : 1 < b) (h : ∀ e ∈ d :: ds, e < b) (h0 : d ≠ 0) :
    numeral b (value b (d :: ds)) = d :: ds := by
  have hpos : value b (d :: ds) ≠ 0 := by
    rw [value_cons]
    have : 0 < d * b ^ ds.length := Nat.mul_pos (Nat.pos_of_ne_zero h0) (Nat.pow_pos (by omega))
    omega
  have hval : value b (d :: ds) = Nat.ofDigits b (d :: ds).reverse := by
    rw [← value_reverse, List.reverse_reverse]
  have hlt : ∀ e ∈ (d :: ds).reverse, e < b := fun e he => h e (List.mem_reverse.mp he)
  have hlast : ∀ hne : (d :: ds).reverse ≠ [], (d :: ds).reverse.getLast hne ≠ 0 := by
    intro hne
    rw [List.getLast_reverse]
    exact h0
  rw [numeral, if_neg hpos, hval, Nat.digits_ofDigits b hb _ hlt hlast, List.reverse_reverse]

theorem numeral_append_padded (hb : 1 < b) {v : ℕ} (hv : v ≠ 0) (hw : 0 < w) (hn : n < b ^ w) :
    numeral b v ++ padded b w n = numeral b (v * b ^ w + n) := by
  obtain ⟨d, ds, hcons, h0⟩ := exists_numeral_cons b hv
  have hval : value b (numeral b v ++ padded b w n) = v * b ^ w + n := by
    rw [value_append, value_numeral, value_padded, padded_eq_fixed hb hw hn, length_fixed]
  have hmem : ∀ e ∈ numeral b v ++ padded b w n, e < b := by
    intro e he
    rcases List.mem_append.mp he with he | he
    · exact lt_of_mem_numeral hb he
    · exact lt_of_mem_padded hb he
  rw [← hval]
  rw [hcons, List.cons_append] at hmem ⊢
  exact (numeral_value hb hmem h0).symm

def digitChar (d : ℕ) : Char := Char.ofNat (48 + d)

def charDigit (c : Char) : ℕ := c.toNat - 48

def isDigit (c : Char) : Bool := decide (48 ≤ c.toNat) && decide (c.toNat ≤ 57)

def text (ds : List ℕ) : List Char := ds.map digitChar

theorem toNat_digitChar (h : d < 10) : (digitChar d).toNat = 48 + d := by
  revert d
  decide

@[simp] theorem charDigit_digitChar (h : d < 10) : charDigit (digitChar d) = d := by
  rw [charDigit, toNat_digitChar h, Nat.add_sub_cancel_left]

@[simp] theorem isDigit_digitChar (h : d < 10) : isDigit (digitChar d) = true := by
  rw [isDigit, toNat_digitChar h]
  simp only [Bool.and_eq_true, decide_eq_true_eq]
  omega

theorem charDigit_lt {c : Char} (h : isDigit c = true) : charDigit c < 10 := by
  simp only [isDigit, Bool.and_eq_true, decide_eq_true_eq] at h
  rw [charDigit]
  omega

@[simp] theorem length_text (ds : List ℕ) : (text ds).length = ds.length := List.length_map _

end Machine.Printed
