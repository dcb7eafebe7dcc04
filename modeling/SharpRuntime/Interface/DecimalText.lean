import SharpRuntime.Interface.DecimalValue
import SharpRuntime.Machine.Printed

/-!
# The text of a `Decimal`

The strings that denote a number: white space around an optional sign, digits with group
separators after the first of them, and at most one point with the digits after it
(Decimal.cpp:296-345).  `BodyText` is the grammar of what follows the sign, `Reading` the
digits it spells, and `Reading.next` reads one more character.
-/

set_option autoImplicit false

namespace SharpRuntime.Model.Decimal

open Machine Machine.Printed

/-- The digits on both sides of the point, and whether there was one. -/
structure Reading where
  pointed : Bool := false
  integer : List ℕ := []
  fraction : List ℕ := []
deriving DecidableEq

def GroupedText (l : List Char) (ds : List ℕ) : Prop :=
  (∀ c ∈ l.head?, isDigit c = true) ∧ (∀ c ∈ l, isDigit c = true ∨ c = ',') ∧
    ds = (l.filter isDigit).map charDigit

def BodyText (p : List Char) (r : Reading) : Prop :=
  ∃ l, GroupedText l r.integer ∧
    ((r.pointed = false ∧ p = l ∧ r.fraction = []) ∨
      (r.pointed = true ∧ ∃ t, p = l ++ '.' :: t ∧ (∀ c ∈ t, isDigit c = true) ∧
        r.fraction = t.map charDigit))

def SignText (sign : List Char) (negative : Bool) : Prop :=
  (negative = false ∧ (sign = [] ∨ sign = ['+'])) ∨ (negative = true ∧ sign = ['-'])

def NumberText (s : List Char) (negative : Bool) (r : Reading) : Prop :=
  ∃ lead sign body trail, s = lead ++ (sign ++ body ++ trail) ∧
    (∀ c ∈ lead, isSpace c = true) ∧ (∀ c ∈ trail, isSpace c = true) ∧
    SignText sign negative ∧ BodyText body r ∧ r.integer ++ r.fraction ≠ []

namespace Reading

def digits (r : Reading) : ℕ := Printed.value 10 (r.integer ++ r.fraction)

def magnitude (r : Reading) : ℚ := r.digits / 10 ^ r.fraction.length

/-- The digits up to the 28th one after the point, as a number. -/
def weight (r : Reading) : ℕ := Printed.value 10 (r.integer ++ r.fraction.take 28)

def next (r : Reading) (c : Char) : Option Reading :=
  if c = '.' then if r.pointed then none else some { r with pointed := true }
  else if c = ',' then if r.pointed = true ∨ r.integer = [] then none else some r
  else if isDigit c then
    some (if r.pointed then { r with fraction := r.fraction ++ [charDigit c] }
      else { r with integer := r.integer ++ [charDigit c] })
  else none

end Reading

def RoundsPastMax (q : ℚ) : Prop := ∃ n, NearestEven q n ∧ (maxMantissa : ℤ) < n

/-- The value is the nearest one on the finest scale that has room for the number. -/
def NearestFit (negative : Bool) (q : ℚ) (r : Decimal) : Prop :=
  r.Valid ∧ ∃ (k : ℕ) (n : ℤ), k ≤ 28 ∧ NearestEven (q * 10 ^ k) n ∧ n ≤ maxMantissa ∧
    (∀ k', k < k' → k' ≤ 28 → RoundsPastMax (q * 10 ^ k')) ∧
    r.value = withSign negative (n / 10 ^ k)

def ThrewFormat {α : Type} (r : Run Exception α) : Prop :=
  ∃ message, r.outcome = .threw (.format message)

/-- A string of the grammar is read by its value, with an overflow only past the range; any
other string is a format error. -/
def ParsesByValue (s : List Char) : Prop :=
  (∀ negative r, NumberText s negative r →
    (ThrewOverflow (parse s) ∧ RoundsPastMax r.magnitude) ∨
      ∃ d, parse s = pure d ∧ NearestFit negative r.magnitude d) ∧
  ((¬ ∃ negative r, NumberText s negative r) → ThrewFormat (parse s))

/-- The digits at the start of the body, up to the 28th one after the point, are more than a
mantissa holds. -/
def Overfull (s : List Char) : Prop :=
  ∃ p r, p <+: (takeSign (trimSpace s)).2 ∧ BodyText p r ∧ maxMantissa < r.weight

theorem groupedText_nil : GroupedText [] [] := ⟨by simp, by simp, rfl⟩

variable {r : Reading}

theorem bodyText_nil_iff : BodyText [] r ↔ r = {} := by
  constructor
  · rintro ⟨l, ⟨-, -, hint⟩, ⟨hp, rfl, hf⟩ | ⟨-, t, h, -⟩⟩
    · obtain ⟨pointed, int, frac⟩ := r
      dsimp only at hint hp hf
      rw [hint, hp, hf]
      rfl
    · exact absurd h (by simp)
  · rintro rfl
    exact ⟨[], groupedText_nil, Or.inl ⟨rfl, rfl, rfl⟩⟩

theorem GroupedText.eq_nil {l : List Char} (h : GroupedText l []) : l = [] := by
  obtain ⟨hhead, -, hds⟩ := h
  cases l with
  | nil => rfl
  | cons c l =>
    rw [List.filter_cons_of_pos (hhead c rfl)] at hds
    cases hds

theorem not_isDigit_comma : isDigit ',' = false := rfl

theorem not_isDigit_point : isDigit '.' = false := rfl

variable {p : List Char} {r' : Reading}

variable {c : Char}

theorem BodyText.of_concat (h : BodyText (p ++ [c]) r') :
    ∃ r, BodyText p r ∧ r.next c = some r' := by
  obtain ⟨l, hl, ⟨hp, rfl, hf⟩ | ⟨hp, t, heq, ht, hf⟩⟩ := h
  · -- still before the point
    obtain ⟨hhead, hmem, hds⟩ := hl
    have hstart : GroupedText p ((p.filter isDigit).map charDigit) := by
      refine ⟨?_, fun d hd => hmem d (List.mem_append_left _ hd), rfl⟩
      intro d hd
      apply hhead
      cases p with
      | nil => cases hd
      | cons e p => exact hd
    refine ⟨⟨false, (p.filter isDigit).map charDigit, []⟩, ⟨p, hstart, Or.inl ⟨rfl, rfl, rfl⟩⟩, ?_⟩
    obtain ⟨pointed, int, frac⟩ := r'
    subst hp hf hds
    rcases hmem c (by simp) with hc | rfl
    · grind [not_isDigit_point, not_isDigit_comma, Reading.next]
    · have hne : (p.filter isDigit).map charDigit ≠ [] := by
        intro hnil
        rw [hnil] at hstart
        rw [hstart.eq_nil] at hhead
        exact absurd (hhead ',' rfl) (by decide)
      simp only [Reading.next, Bool.false_eq_true, false_or, if_neg hne, List.filter_append]
      simp [not_isDigit_comma]
  · rcases List.eq_nil_or_concat t with rfl | ⟨t, d, rfl⟩
    · -- the point itself
      obtain ⟨rfl, hc⟩ := List.append_inj' heq rfl
      cases hc
      refine ⟨⟨false, r'.integer, []⟩, ⟨p, hl, Or.inl ⟨rfl, rfl, rfl⟩⟩, ?_⟩
      obtain ⟨pointed, int, frac⟩ := r'
      subst hp hf
      rfl
    · rw [List.concat_eq_append] at *
      rw [← List.cons_append, ← List.append_assoc] at heq
      obtain ⟨rfl, hc⟩ := List.append_inj' heq rfl
      cases hc
      refine ⟨⟨true, r'.integer, t.map charDigit⟩, ⟨l, hl, Or.inr ⟨rfl, t, rfl,
        fun e he => ht e (List.mem_append_left _ he), rfl⟩⟩, ?_⟩
      have hc : isDigit c = true := ht c (by simp)
      have hpoint : c ≠ '.' := by rintro rfl; simp [not_isDigit_point] at hc
      have hcomma : c ≠ ',' := by rintro rfl; simp [not_isDigit_comma] at hc
      obtain ⟨pointed, int, frac⟩ := r'
      subst hp hf
      simp [Reading.next, hpoint, hcomma, hc]

theorem BodyText.concat (h : BodyText p r)
    (hnext : r.next c = some r') : BodyText (p ++ [c]) r' := by
  obtain ⟨l, hl, hcase⟩ := h
  obtain ⟨pointed, int, frac⟩ := r
  dsimp only at hl hcase
  unfold Reading.next at hnext
  dsimp only at hnext
  split at hnext
  · -- a point
    rename_i hc
    subst hc
    split at hnext
    · cases hnext
    · rename_i hp
      obtain ⟨-, rfl, rfl⟩ | ⟨hp', -⟩ := hcase
      · cases hnext
        exact ⟨p, hl, Or.inr ⟨rfl, [], rfl, by simp, rfl⟩⟩
      · exact absurd hp' hp
  split at hnext
  · -- a separator
    rename_i hc
    subst hc
    split at hnext
    · cases hnext
    · rename_i hno
      rw [not_or] at hno
      obtain ⟨hp, rfl, rfl⟩ | ⟨hp', -⟩ := hcase
      · cases hnext
        refine ⟨p ++ [','], ⟨?_, ?_, ?_⟩, Or.inl ⟨hp, rfl, rfl⟩⟩
        · intro d hd
          apply hl.1
          cases p with
          | nil => exact absurd hl.2.2 hno.2
          | cons e p => exact hd
        · intro d hd
          rcases List.mem_append.mp hd with hd | hd
          · exact hl.2.1 d hd
          · exact Or.inr (List.mem_singleton.mp hd)
        · rw [List.filter_append, hl.2.2]
          simp [not_isDigit_comma]
      · exact absurd hp' hno.1
  split at hnext
  · -- a digit
    rename_i hc
    rw [Option.some.injEq] at hnext
    obtain ⟨rfl, rfl, rfl⟩ | ⟨rfl, t, rfl, ht, rfl⟩ := hcase
    · subst hnext
      refine ⟨p ++ [c], ⟨?_, ?_, ?_⟩, Or.inl ⟨rfl, rfl, rfl⟩⟩
      · intro d hd
        cases p with
        | nil =>
          cases hd
          exact hc
        | cons e p => exact hl.1 d hd
      · intro d hd
        rcases List.mem_append.mp hd with hd | hd
        · exact hl.2.1 d hd
        · rw [List.mem_singleton.mp hd]
          exact Or.inl hc
      · rw [List.filter_append, hl.2.2]
        simp [hc]
    · subst hnext
      refine ⟨l, hl, Or.inr ⟨rfl, t ++ [c], by simp, ?_, by simp⟩⟩
      intro d hd
      rcases List.mem_append.mp hd with hd | hd
      · exact ht d hd
      · rw [List.mem_singleton.mp hd]
        exact hc
  · cases hnext

theorem BodyText.unique (h : BodyText p r) (h' : BodyText p r') : r = r' := by
  induction p using List.reverseRecOn generalizing r r' with
  | nil => rw [bodyText_nil_iff.mp h, bodyText_nil_iff.mp h']
  | append_singleton p c ih =>
    obtain ⟨a, ha, hnext⟩ := h.of_concat
    obtain ⟨b, hb, hnext'⟩ := h'.of_concat
    rw [ih ha hb, hnext', Option.some.injEq] at hnext
    exact hnext.symm

end SharpRuntime.Model.Decimal
