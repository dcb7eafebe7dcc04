import Mathlib

/-!
# Codes of Unicode scalars

A code writes a Unicode scalar value as a few units (bytes, or words of 16 bits) and reads the
scalar in front of a sequence of units.  It reads what it writes and nothing else, so no encoding
is a prefix of another one, a well-formed text has one reading, and to put U+FFFD where nothing can
be read changes the ill-formed texts only.
-/

set_option autoImplicit false

namespace Machine

def Scalar (c : ℕ) : Prop := c < 0xD800 ∨ 0xE000 ≤ c ∧ c < 0x110000

instance (c : ℕ) : Decidable (Scalar c) :=
  inferInstanceAs (Decidable (c < 0xD800 ∨ 0xE000 ≤ c ∧ c < 0x110000))

variable {c : ℕ}

theorem scalar_iff : Scalar c ↔ c < 0xD800 ∨ 0xE000 ≤ c ∧ c < 0x110000 := Iff.rfl

theorem Scalar.lt (h : Scalar c) : c < 0x110000 := by
  rw [scalar_iff] at h
  omega

theorem not_scalar_iff : ¬ Scalar c ↔ 0x10FFFF < c ∨ 0xD800 ≤ c ∧ c ≤ 0xDFFF := by
  rw [scalar_iff]
  omega

theorem scalar_replacement : Scalar 0xFFFD := Or.inr ⟨by decide, by decide⟩

/-- A code: how a scalar is written, and how the scalar in front of a sequence is read, with the
number of units it takes. -/
structure ScalarCode (β : Type) where
  encode : ℕ → List β
  read? : List β → Option (ℕ × ℕ)
  length_encode_pos : ∀ c, 0 < (encode c).length
  read?_encode : ∀ {c : ℕ}, Scalar c → ∀ rest, read? (encode c ++ rest) = some (c, (encode c).length)
  of_read? : ∀ {s : List β} {c n : ℕ}, read? s = some (c, n) →
    Scalar c ∧ n = (encode c).length ∧ ∃ rest, s = encode c ++ rest

namespace ScalarCode

variable {β : Type} (code : ScalarCode β)

theorem encode_ne_nil (c : ℕ) : code.encode c ≠ [] :=
  List.length_pos_iff.mp (code.length_encode_pos c)

theorem read?_nil : code.read? [] = none := by
  cases hread : code.read? [] with
  | none => rfl
  | some r =>
    obtain ⟨-, -, rest, hnil⟩ := code.of_read? hread
    exact absurd (List.append_eq_nil_iff.mp hnil.symm).1 (code.encode_ne_nil r.1)

variable {s : List β} {c n : ℕ}

theorem read?_eq_some_iff : code.read? s = some (c, n) ↔
      Scalar c ∧ n = (code.encode c).length ∧ ∃ rest, s = code.encode c ++ rest := by
  constructor
  · exact code.of_read?
  · rintro ⟨hc, rfl, rest, rfl⟩
    exact code.read?_encode hc rest

theorem length_of_read? (h : code.read? s = some (c, n)) : 0 < n ∧ n ≤ s.length := by
  obtain ⟨-, rfl, rest, rfl⟩ := code.of_read? h
  refine ⟨code.length_encode_pos c, ?_⟩
  rw [List.length_append]
  exact Nat.le_add_right _ _

theorem read?_append (h : code.read? s = some (c, n)) (t : List β) :
    code.read? (s ++ t) = some (c, n) := by
  obtain ⟨hc, rfl, rest, rfl⟩ := code.of_read? h
  rw [List.append_assoc]
  exact code.read?_encode hc _

variable {t : List β}

theorem encode_append_inj {d : ℕ} (hc : Scalar c) (hd : Scalar d)
    (h : code.encode c ++ s = code.encode d ++ t) : c = d ∧ s = t := by
  have hread := code.read?_encode hc s
  rw [h, code.read?_encode hd t] at hread
  obtain ⟨rfl, -⟩ := Prod.mk.inj (Option.some.inj hread)
  exact ⟨rfl, List.append_cancel_left h⟩

def encodeAll (cs : List ℕ) : List β := cs.flatMap code.encode

@[simp] theorem encodeAll_nil : code.encodeAll [] = [] := rfl

@[simp] theorem encodeAll_cons (c : ℕ) (cs : List ℕ) :
    code.encodeAll (c :: cs) = code.encode c ++ code.encodeAll cs := List.flatMap_cons

@[simp] theorem encodeAll_append (cs ds : List ℕ) :
    code.encodeAll (cs ++ ds) = code.encodeAll cs ++ code.encodeAll ds := List.flatMap_append

def WellFormed (s : List β) : Prop := ∃ cs, (∀ c ∈ cs, Scalar c) ∧ s = code.encodeAll cs

theorem wellFormed_nil : code.WellFormed [] := ⟨[], nofun, rfl⟩

theorem wellFormed_encode (h : Scalar c) : code.WellFormed (code.encode c) :=
  ⟨[c], fun _ hd => List.mem_singleton.mp hd ▸ h, (List.append_nil _).symm⟩

theorem wellFormed_append (hs : code.WellFormed s) (ht : code.WellFormed t) :
    code.WellFormed (s ++ t) := by
  obtain ⟨cs, hcs, rfl⟩ := hs
  obtain ⟨ds, hds, rfl⟩ := ht
  refine ⟨cs ++ ds, ?_, (code.encodeAll_append cs ds).symm⟩
  intro c hc
  rcases List.mem_append.mp hc with hc | hc
  · exact hcs c hc
  · exact hds c hc

theorem wellFormed_iff :
    code.WellFormed s ↔ s = [] ∨ ∃ c n, code.read? s = some (c, n) ∧ code.WellFormed (s.drop n) := by
  constructor
  · rintro ⟨cs, hcs, rfl⟩
    cases cs with
    | nil => exact Or.inl rfl
    | cons c cs =>
      have hread := code.read?_encode (hcs c List.mem_cons_self) (code.encodeAll cs)
      refine Or.inr ⟨c, (code.encode c).length, hread, cs, ?_, ?_⟩
      · exact fun d hd => hcs d (List.mem_cons_of_mem c hd)
      · rw [code.encodeAll_cons, List.drop_left]
  · rintro (rfl | ⟨c, n, hread, hrest⟩)
    · exact code.wellFormed_nil
    · obtain ⟨hc, rfl, rest, rfl⟩ := code.of_read? hread
      rw [List.drop_left] at hrest
      exact code.wellFormed_append (code.wellFormed_encode hc) hrest

theorem encodeAll_inj {cs ds : List ℕ} (hcs : ∀ c ∈ cs, Scalar c) (hds : ∀ d ∈ ds, Scalar d)
    (h : code.encodeAll cs = code.encodeAll ds) : cs = ds := by
  induction cs generalizing ds with
  | nil =>
    cases ds with
    | nil => rfl
    | cons d ds =>
      exact absurd (List.append_eq_nil_iff.mp h.symm).1 (code.encode_ne_nil d)
  | cons c cs ih =>
    cases ds with
    | nil =>
      exact absurd (List.append_eq_nil_iff.mp h).1 (code.encode_ne_nil c)
    | cons d ds =>
      obtain ⟨rfl, hrest⟩ := code.encode_append_inj (hcs c List.mem_cons_self)
        (hds d List.mem_cons_self) h
      rw [ih (fun e he => hcs e (List.mem_cons_of_mem c he))
        (fun e he => hds e (List.mem_cons_of_mem c he)) hrest]

section Replacement

variable (skip : List β → ℕ)

/-- The first step through a text: the scalar that is read and the units it takes; where none is
read, U+FFFD, for one unit and those that `skip` adds. -/
def step (s : List β) : ℕ × ℕ := (code.read? s).getD (0xFFFD, skip s + 1)

variable {s : List β} {c : ℕ}

variable {n : ℕ}

theorem step_of_read? (h : code.read? s = some (c, n)) : code.step skip s = (c, n) := by
  rw [step, h, Option.getD_some]

theorem step_of_not_read? (h : code.read? s = none) : code.step skip s = (0xFFFD, skip s + 1) := by
  rw [step, h, Option.getD_none]

theorem step_pos (s : List β) : 0 < (code.step skip s).2 := by
  cases h : code.read? s with
  | none =>
    rw [code.step_of_not_read? skip h]
    exact Nat.succ_pos _
  | some r =>
    rw [code.step_of_read? skip h]
    exact (code.length_of_read? h).1

theorem scalar_step (s : List β) : Scalar (code.step skip s).1 := by
  cases h : code.read? s with
  | none =>
    rw [code.step_of_not_read? skip h]
    exact scalar_replacement
  | some r =>
    rw [code.step_of_read? skip h]
    exact (code.of_read? h).1

def replaced : List β → List ℕ
  | [] => []
  | b :: s =>
    (code.step skip (b :: s)).1 :: replaced (s.drop ((code.step skip (b :: s)).2 - 1))
termination_by s => s.length
decreasing_by
  rw [List.length_drop, List.length_cons]
  omega

@[simp] theorem replaced_nil : code.replaced skip [] = [] := by
  rw [replaced]

theorem replaced_step (h : s ≠ []) : code.replaced skip s =
      (code.step skip s).1 :: code.replaced skip (s.drop (code.step skip s).2) := by
  obtain ⟨b, s, rfl⟩ := List.exists_cons_of_ne_nil h
  obtain ⟨n, hn⟩ := Nat.exists_eq_succ_of_ne_zero (code.step_pos skip (b :: s)).ne'
  rw [replaced, hn, List.drop_succ_cons, Nat.succ_sub_one]

/-- Induction along the steps through a text. -/
theorem step_induction {P : List β → Prop} (nil : P [])
    (step : ∀ s, s ≠ [] → P (s.drop (code.step skip s).2) → P s) (s : List β) : P s := by
  induction hn : s.length using Nat.strong_induction_on generalizing s with
  | _ n ih =>
    by_cases hs : s = []
    · rw [hs]
      exact nil
    · have hpos := code.step_pos skip s
      have hlength := List.length_pos_iff.mpr hs
      exact step s hs (ih _ (by rw [List.length_drop]; omega) _ rfl)

theorem scalar_of_mem_replaced : ∀ c ∈ code.replaced skip s, Scalar c := by
  induction s using code.step_induction skip with
  | nil =>
    rw [code.replaced_nil]
    nofun
  | step s hs ih =>
    rw [code.replaced_step skip hs, List.forall_mem_cons]
    exact ⟨code.scalar_step skip s, ih⟩

theorem replaced_of_read? (h : code.read? s = some (c, n)) :
    code.replaced skip s = c :: code.replaced skip (s.drop n) := by
  have hs : s ≠ [] := by
    rintro rfl
    rw [code.read?_nil] at h
    cases h
  rw [code.replaced_step skip hs, code.step_of_read? skip h]

theorem head?_replaced_iff (hc : Scalar c) (hne : c ≠ 0xFFFD) :
    (code.replaced skip s).head? = some c ↔ code.encode c <+: s := by
  constructor
  · intro h
    have hs : s ≠ [] := by
      rintro rfl
      rw [code.replaced_nil] at h
      cases h
    rw [code.replaced_step skip hs, List.head?_cons, Option.some.injEq] at h
    cases hread : code.read? s with
    | none =>
      rw [code.step_of_not_read? skip hread] at h
      exact absurd h.symm hne
    | some r =>
      obtain ⟨-, -, rest, hrest⟩ := code.of_read? hread
      rw [code.step_of_read? skip hread] at h
      rw [← h]
      exact ⟨rest, hrest.symm⟩
  · rintro ⟨rest, rfl⟩
    rw [code.replaced_of_read? skip (code.read?_encode hc rest), List.head?_cons]

variable {cs : List ℕ}

theorem replaced_append (h : ∀ c ∈ cs, Scalar c) (s : List β) :
    code.replaced skip (code.encodeAll cs ++ s) = cs ++ code.replaced skip s := by
  induction cs with
  | nil => rfl
  | cons c cs ih =>
    have hread := code.read?_encode (h c List.mem_cons_self) (code.encodeAll cs ++ s)
    rw [code.encodeAll_cons, List.append_assoc, code.replaced_of_read? skip hread, List.drop_left,
      ih fun d hd => h d (List.mem_cons_of_mem c hd), List.cons_append]

theorem replaced_encodeAll (h : ∀ c ∈ cs, Scalar c) :
    code.replaced skip (code.encodeAll cs) = cs := by
  have happend := code.replaced_append skip h []
  rwa [List.append_nil, code.replaced_nil, List.append_nil] at happend

/-- **Replacement changes the ill-formed texts only.** -/
theorem encodeAll_replaced_iff : code.encodeAll (code.replaced skip s) = s ↔ code.WellFormed s := by
  constructor
  · intro h
    exact ⟨code.replaced skip s, code.scalar_of_mem_replaced skip, h.symm⟩
  · rintro ⟨cs, hcs, rfl⟩
    rw [code.replaced_encodeAll skip hcs]

theorem length_replaced_le (s : List β) : (code.replaced skip s).length ≤ s.length := by
  induction s using code.step_induction skip with
  | nil =>
    rw [code.replaced_nil]
    exact Nat.zero_le _
  | step s hs ih =>
    have hpos := code.step_pos skip s
    have hlength := List.length_pos_iff.mpr hs
    rw [List.length_drop] at ih
    rw [code.replaced_step skip hs, List.length_cons]
    omega

variable {bound : ℕ}

theorem length_le_replaced (hbound : ∀ s, (code.step skip s).2 ≤ bound) (s : List β) :
    s.length ≤ bound * (code.replaced skip s).length := by
  induction s using code.step_induction skip with
  | nil => exact Nat.zero_le _
  | step s hs ih =>
    have hstep := hbound s
    rw [List.length_drop] at ih
    rw [code.replaced_step skip hs, List.length_cons, Nat.mul_succ]
    omega

variable {extra k : ℕ}

theorem step_take (h : (code.step (fun _ => extra) s).2 ≤ k) :
    code.step (fun _ => extra) (s.take k) = code.step (fun _ => extra) s := by
  cases hread : code.read? s with
  | some r =>
    obtain ⟨hc, hn, rest, hs⟩ := code.of_read? hread
    rw [code.step_of_read? _ hread, hn] at h
    have htake : s.take k = code.encode r.1 ++ rest.take (k - (code.encode r.1).length) := by
      rw [hs, List.take_append, List.take_of_length_le h]
    rw [code.step_of_read? _ hread, htake, code.step_of_read? _ (code.read?_encode hc _), ← hn]
  | none =>
    have hnone : code.read? (s.take k) = none := by
      cases htake : code.read? (s.take k) with
      | none => rfl
      | some r =>
        have hsome := code.read?_append htake (s.drop k)
        rw [List.take_append_drop, hread] at hsome
        cases hsome
    rw [code.step_of_not_read? _ hread, code.step_of_not_read? _ hnone]

theorem length_replaced_take (hbound : ∀ s, (code.step (fun _ => extra) s).2 ≤ bound)
    (hk : k ≤ s.length) :
    bound * (code.replaced (fun _ => extra) (s.take k)).length + (s.length - k) ≤
      bound * (code.replaced (fun _ => extra) s).length + bound * bound := by
  induction s using code.step_induction (fun _ => extra) generalizing k with
  | nil =>
    rw [List.take_nil, List.length_nil, Nat.zero_sub]
    omega
  | step s hs ih =>
    by_cases hstep : (code.step (fun _ => extra) s).2 ≤ k
    · have hpos := code.step_pos (fun _ => extra) s
      have htake : s.take k ≠ [] := by
        rw [← List.length_pos_iff, List.length_take]
        omega
      have hrest := ih (k := k - (code.step (fun _ => extra) s).2)
        (by rw [List.length_drop]; omega)
      rw [code.replaced_step _ htake, code.replaced_step _ hs, code.step_take hstep,
        List.drop_take, List.length_cons, List.length_cons, Nat.mul_succ, Nat.mul_succ]
      rw [List.length_drop] at hrest
      omega
    · have hfew : (code.replaced (fun _ => extra) (s.take k)).length ≤ bound := by
        have hle := code.length_replaced_le (fun _ => extra) (s.take k)
        have hstep' := hbound s
        rw [List.length_take] at hle
        omega
      have hfew' := Nat.mul_le_mul_left bound hfew
      have hmany := code.length_le_replaced _ hbound s
      omega

end Replacement

end ScalarCode

end Machine
