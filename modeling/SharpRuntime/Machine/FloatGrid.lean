import SharpRuntime.Machine.Rounding

/-!
# Floating-point grids

The magnitudes of a binary floating-point format are numbered by their codes.  In units of the
smallest magnitude, code `a` stands for `scaled p a`, and a carry from the fraction into the
exponent is just the next code (`scaled_succ`).  So a number is rounded to nearest by rounding its
quotient by the unit of its binade (`nearest_of_nearestEven`).  Infinity is the first code past the
largest finite one.
-/

set_option autoImplicit false

namespace Machine

variable {K : Type*} [Field K] [LinearOrder K] [IsStrictOrderedRing K]

-- what linear arithmetic asks for, at hand rather than searched for
local instance gridOrderedRing : IsOrderedRing K := IsStrictOrderedRing.toIsOrderedRing

local instance gridOrderedMonoid : IsOrderedAddMonoid K := IsOrderedRing.toIsOrderedAddMonoid

local instance gridLeftMono : AddLeftMono K := IsOrderedAddMonoid.toAddLeftMono

/-- The point of the grid up to `top` that is nearest to `x`, with ties to the even index. -/
def NearestOn (g : ℕ → K) (top : ℕ) (x : K) (c : ℕ) : Prop :=
  c ≤ top ∧ ∀ d ≤ top, |x - g c| ≤ |x - g d| ∧ (d ≠ c → |x - g c| = |x - g d| → Even c)

namespace NearestOn

variable {g : ℕ → K} {top : ℕ} {x y : K} {c d : ℕ}

theorem abs_sub_le_iff_upper {a b : K} (hab : a < b) : |x - b| ≤ |x - a| ↔ (a + b) / 2 ≤ x := by
  rw [← sq_le_sq]
  constructor
  · intro h
    nlinarith
  · intro h
    nlinarith

theorem abs_sub_le_iff_lower {a b : K} (hab : a < b) : |x - a| ≤ |x - b| ↔ x ≤ (a + b) / 2 := by
  rw [← sq_le_sq]
  constructor
  · intro h
    nlinarith
  · intro h
    nlinarith

theorem mono (hg : StrictMono g) (hc : NearestOn g top x c) (hd : NearestOn g top y d)
    (hxy : x ≤ y) : c ≤ d := by
  by_contra hlt
  rw [not_le] at hlt
  have hgap := hg hlt
  have hx := (abs_sub_le_iff_upper hgap).mp (hc.2 d hd.1).1
  have hy := (abs_sub_le_iff_lower hgap).mp (hd.2 c hc.1).1
  -- both are the middle of the two points, which are even, so that a point between them is nearer
  have hmidx : x = (g d + g c) / 2 := le_antisymm (hxy.trans hy) hx
  have hmidy : y = (g d + g c) / 2 := le_antisymm hy (hx.trans hxy)
  have htie : |x - g c| = |x - g d| := by
    rw [hmidx, abs_of_nonpos (by linarith), abs_of_nonneg (by linarith)]
    ring
  have hcEven := (hc.2 d hd.1).2 hlt.ne htie
  have hdEven := (hd.2 c hc.1).2 hlt.ne' (by rw [hmidy, ← hmidx]; exact htie.symm)
  have hbetween : d + 1 < c := by grind
  have hlow := hg (Nat.lt_succ_self d)
  have hhigh := hg hbetween
  have hnear := (hc.2 (d + 1) (by have := hc.1; omega)).1
  rw [abs_sub_le_iff_upper hhigh] at hnear
  linarith

theorem unique (hg : StrictMono g) (hc : NearestOn g top x c) (hd : NearestOn g top x d) : c = d :=
  le_antisymm (hc.mono hg hd le_rfl) (hd.mono hg hc le_rfl)

theorem of_neighbours (hg : StrictMono g) (hc : c ≤ top)
    (hlow : ∀ d, d + 1 = c → (g d + g c) / 2 ≤ x ∧ (x = (g d + g c) / 2 → Even c))
    (hhigh : x ≤ (g c + g (c + 1)) / 2 ∧ (x = (g c + g (c + 1)) / 2 → Even c) ∨ c = top) :
    NearestOn g top x c := by
  refine ⟨hc, fun d hd => ?_⟩
  rcases lt_trichotomy d c with hdc | rfl | hdc
  · obtain ⟨b, rfl⟩ : ∃ b, c = b + 1 := ⟨c - 1, by omega⟩
    obtain ⟨hmid, htie⟩ := hlow b rfl
    have hdb : g d ≤ g b := hg.monotone (by omega)
    have hgap : g d < g (b + 1) := hg hdc
    refine ⟨(abs_sub_le_iff_upper hgap).mpr (by linarith), fun _ heq => htie ?_⟩
    have hle := (abs_sub_le_iff_lower hgap).mp heq.ge
    linarith
  · exact ⟨le_rfl, fun h => absurd rfl h⟩
  · rcases hhigh with ⟨hmid, htie⟩ | rfl
    · have hcd : g (c + 1) ≤ g d := hg.monotone (by omega)
      have hgap : g c < g d := hg hdc
      refine ⟨(abs_sub_le_iff_lower hgap).mpr (by linarith), fun _ heq => htie ?_⟩
      have hle := (abs_sub_le_iff_upper hgap).mp heq.ge
      linarith
    · omega

theorem self (hg : StrictMono g) (hc : c ≤ top) : NearestOn g top (g c) c := by
  refine of_neighbours hg hc (fun d hd => ?_) (Or.inl ?_)
  · have hlt : g d < g c := hg (by omega)
    exact ⟨by linarith, fun h => absurd h (by linarith)⟩
  · have hlt : g c < g (c + 1) := hg (Nat.lt_succ_self c)
    exact ⟨by linarith, fun h => absurd h (by linarith)⟩

theorem of_top_le (hg : StrictMono g) (hx : g top ≤ x) : NearestOn g top x top := by
  refine of_neighbours hg le_rfl (fun d hd => ?_) (Or.inr rfl)
  have hlt : g d < g top := hg (by omega)
  exact ⟨by linarith, fun h => absurd h (by linarith)⟩

theorem div {k : K} (hk : 0 < k) (h : NearestOn g top x c) :
    NearestOn (fun a => g a / k) top (x / k) c := by
  have habs : ∀ a, |x / k - g a / k| = |x - g a| / k := by
    intro a
    rw [← sub_div, abs_div, abs_of_pos hk]
  refine ⟨h.1, fun d hd => ?_⟩
  rw [habs, habs, div_le_div_iff_of_pos_right hk, div_left_inj' hk.ne']
  exact h.2 d hd

end NearestOn

/-- What a code with `p` fraction bits stands for, in units of the smallest magnitude. -/
def scaled (p a : ℕ) : ℕ :=
  if a / 2 ^ p = 0 then a % 2 ^ p else (2 ^ p + a % 2 ^ p) * 2 ^ (a / 2 ^ p - 1)

theorem scaled_binade {p e r : ℕ} (hlow : e = 0 ∨ 2 ^ p ≤ r) (hhigh : r ≤ 2 ^ p * 2) :
    scaled p (e * 2 ^ p + r) = r * 2 ^ e := by
  have hpos : 0 < 2 ^ p := Nat.two_pow_pos p
  rcases Nat.lt_or_ge r (2 ^ p) with hsub | hnormal
  · obtain rfl : e = 0 := hlow.resolve_right (by omega)
    rw [scaled, Nat.zero_mul, Nat.zero_add, Nat.div_eq_of_lt hsub, if_pos rfl,
      Nat.mod_eq_of_lt hsub, pow_zero, Nat.mul_one]
  · rcases Nat.lt_or_ge r (2 ^ p * 2) with hlt | hge
    · have hsplit : e * 2 ^ p + r = (e + 1) * 2 ^ p + (r - 2 ^ p) := by
        rw [Nat.add_mul, Nat.one_mul]
        omega
      have hdiv : (e * 2 ^ p + r) / 2 ^ p = e + 1 := by
        rw [hsplit, Nat.add_comm, Nat.add_mul_div_right _ _ hpos, Nat.div_eq_of_lt (by omega),
          Nat.zero_add]
      have hmod : (e * 2 ^ p + r) % 2 ^ p = r - 2 ^ p := by
        rw [hsplit, Nat.mul_add_mod_self_right, Nat.mod_eq_of_lt (by omega)]
      rw [scaled, hdiv, if_neg (Nat.succ_ne_zero e), hmod, Nat.add_sub_cancel]
      congr 1
      omega
    · -- a carry: the smallest code of the next binade
      obtain rfl : r = 2 ^ p * 2 := le_antisymm hhigh hge
      have hsplit : e * 2 ^ p + 2 ^ p * 2 = (e + 2) * 2 ^ p := by ring
      rw [scaled, hsplit, Nat.mul_div_cancel _ hpos, Nat.mul_mod_left, if_neg (by omega)]
      have hpred : e + 2 - 1 = e + 1 := rfl
      rw [hpred, pow_succ]
      ring

theorem exists_binade (p a : ℕ) :
    ∃ e r, a = e * 2 ^ p + r ∧ (e = 0 ∨ 2 ^ p ≤ r) ∧ r < 2 ^ p * 2 := by
  have hdiv := Nat.div_add_mod' a (2 ^ p)
  by_cases hzero : a / 2 ^ p = 0
  · rw [hzero] at hdiv
    exact ⟨0, a, by omega, Or.inl rfl, by omega⟩
  · obtain ⟨e, he⟩ := Nat.exists_eq_succ_of_ne_zero hzero
    rw [he, Nat.succ_mul] at hdiv
    exact ⟨e, 2 ^ p + a % 2 ^ p, by omega, Or.inr (by omega), by omega⟩

/-- Neighbours on the grid differ by a power of two. -/
theorem scaled_succ (p a : ℕ) : ∃ e, scaled p (a + 1) = scaled p a + 2 ^ e := by
  obtain ⟨e, r, rfl, hlow, hhigh⟩ := exists_binade p a
  refine ⟨e, ?_⟩
  rw [Nat.add_assoc, scaled_binade (by omega) (by omega), scaled_binade hlow hhigh.le, Nat.add_mul,
    Nat.one_mul]

theorem scaled_strictMono (p : ℕ) : StrictMono (scaled p) := by
  apply strictMono_nat_of_lt_succ
  intro a
  obtain ⟨e, he⟩ := scaled_succ p a
  have := Nat.two_pow_pos e
  omega

/-- Rounding the significand to the nearest integer, ties to even, gives the nearest point of the
grid. -/
theorem nearest_of_nearestEven {p e r top : ℕ} {y : K} (hp : 0 < p)
    (hlow : e = 0 ∧ 0 ≤ y ∨ (2 ^ p : ℕ) ≤ y) (hhigh : y ≤ (2 ^ p * 2 : ℕ))
    (hr : NearestEven y (r : ℤ)) (htop : e * 2 ^ p + r ≤ top) :
    NearestOn (fun a => (scaled p a : K)) top (y * 2 ^ e) (e * 2 ^ p + r) := by
  have hunit : (0 : K) < 2 ^ e := pow_pos two_pos e
  have hnear := abs_le.mp hr.1
  rw [Int.cast_natCast] at hnear
  have htie := hr.2
  rw [Int.cast_natCast, Int.even_coe_nat] at htie
  have hmono : StrictMono fun a => (scaled p a : K) := fun a b hab =>
    Nat.cast_lt.mpr (scaled_strictMono p hab)
  -- the quotient and its rounding are between the same bounds
  have hrlow : e = 0 ∨ 2 ^ p ≤ r := by
    rcases hlow with ⟨he, -⟩ | hy
    · exact Or.inl he
    · right
      by_contra hlt
      have hsucc : ((r + 1 : ℕ) : K) ≤ (2 ^ p : ℕ) := by exact_mod_cast not_le.mp hlt
      push_cast at hsucc hy
      linarith
  have hrhigh : r ≤ 2 ^ p * 2 := by
    by_contra hgt
    have hsucc : ((2 ^ p * 2 + 1 : ℕ) : K) ≤ r := by exact_mod_cast not_le.mp hgt
    push_cast at hsucc hhigh
    linarith
  have heven : Even r → Even (e * 2 ^ p + r) := by
    intro h
    exact ((Nat.even_pow.mpr ⟨even_two, hp.ne'⟩).mul_left e).add h
  have hat : ∀ k, (e = 0 ∨ 2 ^ p ≤ k) → k ≤ 2 ^ p * 2 →
      (scaled p (e * 2 ^ p + k) : K) = k * 2 ^ e := by
    intro k hk hk'
    rw [scaled_binade hk hk']
    push_cast
    ring
  have hself := hat r hrlow hrhigh
  refine NearestOn.of_neighbours hmono htop (fun d hd => ?_) (Or.inl ?_)
  · by_cases hinside : 1 ≤ r ∧ (e = 0 ∨ 2 ^ p ≤ r - 1)
    · obtain ⟨k, rfl⟩ : ∃ k, r = k + 1 := ⟨r - 1, by omega⟩
      obtain rfl : d = e * 2 ^ p + k := by omega
      have hbelow := hat k (by simpa using hinside.2) (by omega)
      rw [hself, hbelow]
      push_cast at hnear htie ⊢
      refine ⟨by nlinarith, fun h => heven (htie ?_)⟩
      have hy : y = k + 1 - 1 / 2 := by grind
      rw [hy, abs_of_nonpos (by linarith)]
      ring
    · -- the lowest code of the binade
      have hy : (r : K) ≤ y := by
        rcases hlow with ⟨he, hy⟩ | hy
        · have hzero : r = 0 := by omega
          rw [hzero]
          exact_mod_cast hy
        · have hle : r ≤ 2 ^ p := by omega
          exact (Nat.cast_le.mpr hle).trans hy
      have hlt : (scaled p d : K) < scaled p (e * 2 ^ p + r) := hmono (by omega)
      have hx : (r : K) * 2 ^ e ≤ y * 2 ^ e := mul_le_mul_of_nonneg_right hy hunit.le
      exact ⟨by linarith, fun h => absurd h (by linarith)⟩
  · by_cases hinside : r + 1 ≤ 2 ^ p * 2
    · have habove := hat (r + 1) (by omega) hinside
      rw [Nat.add_assoc, hself, habove]
      push_cast
      refine ⟨by nlinarith, fun h => heven (htie ?_)⟩
      have hy : y = r + 1 / 2 := by grind
      rw [hy, abs_of_nonneg (by linarith)]
      ring
    · have hy : y ≤ (r : K) := hhigh.trans (Nat.cast_le.mpr (by omega))
      have hlt : (scaled p (e * 2 ^ p + r) : K) < scaled p (e * 2 ^ p + r + 1) :=
        hmono (Nat.lt_succ_self _)
      have hx : y * 2 ^ e ≤ (r : K) * 2 ^ e := mul_le_mul_of_nonneg_right hy hunit.le
      exact ⟨by linarith, fun h => absurd h (by linarith)⟩

/-- A format: the bits of its fraction field, the exponent field of its infinities, and the bits of
its smallest magnitude behind the point. -/
structure BinaryFormat where
  fractionBits : ℕ
  maxExponent : ℕ
  unit : ℕ

namespace BinaryFormat

variable (F : BinaryFormat) (w : ℕ)

def infinity : ℕ := F.maxExponent * 2 ^ F.fractionBits

def signBit : ℕ := (F.maxExponent + 1) * 2 ^ F.fractionBits

def negative : Bool := decide (F.signBit ≤ w)

def code : ℕ := w % F.signBit

def IsNaN : Prop := F.infinity < F.code w

instance : Decidable (F.IsNaN w) := inferInstanceAs (Decidable (_ < _))

def magnitude (c : ℕ) : ℚ := scaled F.fractionBits c / 2 ^ F.unit

def rank : ℤ := if F.negative w then -(F.code w : ℤ) else F.code w

def signed (z : ℤ) : ℚ := z.sign * F.magnitude z.natAbs

def finiteValue : ℚ := F.signed (F.rank w)

/-- The value of a word that is a number, in the rationals with both infinities. -/
def value : WithBot (WithTop ℚ) :=
  if F.code w < F.infinity then (F.finiteValue w : WithTop ℚ)
  else if F.negative w then ⊥ else ((⊤ : WithTop ℚ) : WithBot (WithTop ℚ))

/-- The finite word is nearest to the number, with ties to the even code. -/
def NearestFinite (x : ℚ) : Prop :=
  F.code w < F.infinity ∧ ∀ w', F.code w' < F.infinity →
    |x - F.finiteValue w| ≤ |x - F.finiteValue w'| ∧
      (F.finiteValue w' ≠ F.finiteValue w → |x - F.finiteValue w| = |x - F.finiteValue w'| →
        Even (F.code w))

theorem magnitude_strictMono : StrictMono F.magnitude := by
  intro a b hab
  have hlt : (scaled F.fractionBits a : ℚ) < scaled F.fractionBits b :=
    Nat.cast_lt.mpr (scaled_strictMono _ hab)
  exact div_lt_div_of_pos_right hlt (by positivity)

theorem scaled_zero (p : ℕ) : scaled p 0 = 0 := by simp [scaled]

theorem magnitude_zero : F.magnitude 0 = 0 := by
  rw [magnitude, scaled_zero, Nat.cast_zero, zero_div]

theorem magnitude_pos {c : ℕ} (h : 0 < c) : 0 < F.magnitude c := by
  rw [← F.magnitude_zero]
  exact F.magnitude_strictMono h

theorem signed_strictMono : StrictMono F.signed := by
  apply strictMono_int_of_lt_succ
  intro z
  rcases lt_trichotomy z 0 with hneg | rfl | hpos
  · have hlt := F.magnitude_strictMono (show (z + 1).natAbs < z.natAbs by omega)
    rcases eq_or_ne (z + 1) 0 with hzero | hne
    · rw [hzero, Int.natAbs_zero, magnitude_zero] at hlt
      simp only [signed, hzero, Int.sign_eq_neg_one_of_neg hneg, Int.sign_zero, Int.cast_zero,
        zero_mul]
      push_cast
      linarith
    · simp only [signed, Int.sign_eq_neg_one_of_neg hneg,
        Int.sign_eq_neg_one_of_neg (show z + 1 < 0 by omega)]
      push_cast
      linarith
  · have hpos := F.magnitude_pos Nat.one_pos
    simpa [signed] using hpos
  · have hlt := F.magnitude_strictMono (show z.natAbs < (z + 1).natAbs by omega)
    simp only [signed, Int.sign_eq_one_of_pos hpos,
      Int.sign_eq_one_of_pos (show 0 < z + 1 by omega)]
    push_cast
    linarith

theorem finiteValue_eq :
    F.finiteValue w =
      if F.negative w then -F.magnitude (F.code w) else F.magnitude (F.code w) := by
  rw [finiteValue, rank]
  rcases Nat.eq_zero_or_pos (F.code w) with hzero | hpos
  · rw [hzero, magnitude_zero]
    cases F.negative w <;> simp [signed]
  · cases F.negative w with
    | true =>
      rw [if_pos rfl, if_pos rfl, signed, Int.sign_eq_neg_one_of_neg (by omega), Int.natAbs_neg,
        Int.natAbs_natCast]
      ring
    | false =>
      rw [if_neg Bool.false_ne_true, if_neg Bool.false_ne_true, signed,
        Int.sign_eq_one_of_pos (by omega), Int.natAbs_natCast]
      ring

variable {F w}

theorem magnitude_nonneg (c : ℕ) : 0 ≤ F.magnitude c := by
  rw [magnitude]
  positivity

theorem nearestFinite_of_code {x m : ℚ} (hx : x = if F.negative w then -m else m) (hm : 0 ≤ m)
    (hfin : F.code w < F.infinity) (h : NearestOn F.magnitude F.infinity m (F.code w)) :
    F.NearestFinite w x := by
  refine ⟨hfin, fun w' hw' => ?_⟩
  have hsame := h.2 (F.code w') hw'.le
  have hzero := h.2 0 (Nat.zero_le _)
  rw [magnitude_zero, sub_zero, abs_of_nonneg hm] at hzero
  have hnonneg : 0 ≤ F.magnitude (F.code w') := magnitude_nonneg _
  by_cases hsign : F.negative w' = F.negative w
  · grind [finiteValue_eq]
  · grind [finiteValue_eq]

theorem value_le_value_iff (hF : 0 < F.infinity) {w' : ℕ} (h : ¬ F.IsNaN w)
    (h' : ¬ F.IsNaN w') :
    F.value w ≤ F.value w' ↔ F.rank w ≤ F.rank w' := by
  rw [IsNaN, not_lt] at h h'
  have hrank : ∀ {v : ℕ}, F.code v < F.infinity →
      -(F.infinity : ℤ) < F.rank v ∧ F.rank v < F.infinity := by
    intro v hv
    rw [rank]
    split <;> omega
  have hinf : ∀ {v : ℕ}, F.code v ≤ F.infinity → ¬ F.code v < F.infinity →
      F.rank v = if F.negative v then -(F.infinity : ℤ) else F.infinity := by
    intro v hle hnot
    rw [rank, show F.code v = F.infinity by omega]
  by_cases hfin : F.code w < F.infinity
  · have hbounds := hrank hfin
    by_cases hfin' : F.code w' < F.infinity
    · rw [value, value, if_pos hfin, if_pos hfin', WithBot.coe_le_coe, WithTop.coe_le_coe,
        finiteValue, finiteValue, F.signed_strictMono.le_iff_le]
    · rw [value, value, if_pos hfin, if_neg hfin', hinf h' hfin']
      cases F.negative w' with
      | true => simpa using hbounds.1
      | false => simpa using hbounds.2.le
  · rw [hinf h hfin]
    by_cases hfin' : F.code w' < F.infinity
    · have hbounds := hrank hfin'
      rw [value, value, if_neg hfin, if_pos hfin']
      cases F.negative w with
      | true => simpa using hbounds.1.le
      | false => simpa using hbounds.2
    · rw [value, value, if_neg hfin, if_neg hfin', hinf h' hfin']
      cases F.negative w <;> cases F.negative w'
      case false.true =>
        simpa using hF.ne'
      all_goals simp

end BinaryFormat

end Machine
