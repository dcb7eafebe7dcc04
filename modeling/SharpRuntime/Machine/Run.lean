import Mathlib

/-!
# Machine runs

A `Run ε α` is one execution of machine code: how it ended (`outcome`), and whether every operation
on the way stayed inside its type (`clean`).  Words wrap as the hardware wraps them, so that the
flag, once cleared, is the only trace an overflow leaves.  A loop that is still going when the bound
on its iterations is spent ends in `diverged`: `loop fuel s = pure s'` says that the loop ends, that
nothing wraps, and what it computes.
-/

set_option autoImplicit false

namespace Machine

def wrap (bits : ℕ) (n : ℤ) : ℕ := (n % 2 ^ bits).toNat

theorem wrap_natCast (bits n : ℕ) : wrap bits (n : ℤ) = n % 2 ^ bits := by grind [wrap]

variable {bits n : ℕ}

theorem wrap_of_lt (h : n < 2 ^ bits) : wrap bits (n : ℤ) = n := by
  rw [wrap_natCast, Nat.mod_eq_of_lt h]

theorem wrap_lt (bits : ℕ) (n : ℤ) : wrap bits n < 2 ^ bits := by
  have hpos : (0 : ℤ) < 2 ^ bits := Int.pow_pos (by decide)
  have hlt := Int.emod_lt_of_pos n hpos
  rw [wrap, Int.toNat_lt (Int.emod_nonneg n hpos.ne')]
  exact_mod_cast hlt

variable {m : ℕ}

theorem wrap_add (h : m + n < 2 ^ bits) : wrap bits ((m : ℤ) + n) = m + n := by
  rw [← Nat.cast_add, wrap_of_lt h]

theorem toNat_and_add_and_not {w : ℕ} (a t : BitVec w) :
    (a &&& t).toNat + (a &&& ~~~t).toNat = a.toNat := by
  have hdisjoint : (a &&& t) &&& (a &&& ~~~t) = 0#w := by grind
  have hjoin : (a &&& t) ||| (a &&& ~~~t) = a := by grind
  rw [← BitVec.toNat_add_of_and_eq_zero hdisjoint, BitVec.add_eq_or_of_and_eq_zero _ _ hdisjoint,
    hjoin]

/-- How a run ends. -/
inductive Outcome (ε α : Type) where
  | returned (a : α)
  | threw (e : ε)
  | diverged
deriving DecidableEq

/-- One execution: its outcome, and whether it stayed in range throughout. -/
@[ext]
structure Run (ε α : Type) where
  outcome : Outcome ε α
  clean : Bool
deriving DecidableEq

namespace Run

variable {ε α β σ : Type}

/-- Run `x`, then `f` on what it returned; an exception or a divergence ends both. -/
def andThen (x : Run ε α) (f : α → Run ε β) : Run ε β :=
  match x.outcome with
  | .returned a => ⟨(f a).outcome, x.clean && (f a).clean⟩
  | .threw e => ⟨.threw e, x.clean⟩
  | .diverged => ⟨.diverged, x.clean⟩

instance : Monad (Run ε) where
  pure a := ⟨.returned a, true⟩
  bind := andThen

private theorem andThen_pure (x : Run ε α) : x.andThen (fun a => ⟨.returned a, true⟩) = x := by
  obtain ⟨o, c⟩ := x
  cases o <;> simp [andThen]

private theorem andThen_assoc {γ : Type} (x : Run ε α) (f : α → Run ε β) (g : β → Run ε γ) :
    (x.andThen f).andThen g = x.andThen fun a => (f a).andThen g := by grind [andThen]

instance : LawfulMonad (Run ε) :=
  LawfulMonad.mk' (Run ε) (fun x => andThen_pure x)
    (fun a f => by simp [bind, pure, andThen]) (fun x f g => andThen_assoc x f g)

def throwing (e : ε) : Run ε α := ⟨.threw e, true⟩

def catching (x : Run ε α) (a : α) : Run ε α :=
  match x.outcome with
  | .threw _ => ⟨.returned a, x.clean⟩
  | _ => x

def diverging : Run ε α := ⟨.diverged, true⟩

@[simp] theorem outcome_pure (a : α) : (pure a : Run ε α).outcome = .returned a := rfl

@[simp] theorem clean_pure (a : α) : (pure a : Run ε α).clean = true := rfl

variable (e : ε)

@[simp] theorem outcome_throwing : (throwing e : Run ε α).outcome = .threw e := rfl

@[simp] theorem throwing_bind (f : α → Run ε β) : (throwing e >>= f : Run ε β) = throwing e := rfl

@[simp] theorem catching_pure (a b : α) : (pure a : Run ε α).catching b = pure a := rfl

variable {a : α}

theorem pure_inj {b : α} : (pure a : Run ε α) = pure b ↔ a = b := by
  constructor
  · intro h
    have := congrArg Run.outcome h
    simpa using this
  · rintro rfl; rfl

variable {x : Run ε α}

theorem clean_bind_of_not (h : x.clean = false) (f : α → Run ε β) : (x >>= f).clean = false := by
  obtain ⟨o, c⟩ := x
  have hc : c = false := h
  rw [hc]
  cases o <;> rfl

variable {b : β}

theorem map_eq_pure {f : α → β} : f <$> x = pure b ↔ ∃ a, x = pure a ∧ f a = b := by
  constructor
  · intro h
    obtain ⟨o, c⟩ := x
    cases o with
    | returned a =>
      have hclean : c = true := by
        have := congrArg Run.clean h
        simpa [Functor.map, bind, andThen, pure] using this
      have hvalue : f a = b := by
        have := congrArg Run.outcome h
        simpa [Functor.map, bind, andThen, pure] using this
      exact ⟨a, by rw [hclean]; rfl, hvalue⟩
    | threw e => cases h
    | diverged => cases h
  · rintro ⟨a, rfl, rfl⟩
    exact map_pure f a

/-- The result of an unsigned operation on words of `bits` bits whose exact integer
result is `n`: the residue is kept, and the run is clean only if nothing was lost. -/
def word (bits : ℕ) (n : ℤ) : Run ε ℕ :=
  ⟨.returned (wrap bits n), decide (0 ≤ n ∧ n < 2 ^ bits)⟩

/-- The result of a signed operation on words of `bits` bits whose exact integer
result is `n`, in two's complement. -/
def signed (bits : ℕ) (n : ℤ) : Run ε ℤ :=
  ⟨.returned (n.bmod (2 ^ bits)), decide (-2 ^ (bits - 1) ≤ n ∧ n < 2 ^ (bits - 1))⟩

def observe (p : Prop) [Decidable p] : Run ε Unit := ⟨.returned (), decide p⟩

variable {bits n : ℕ}

theorem word_eq_pure (h : n < 2 ^ bits) : (word bits (n : ℤ) : Run ε ℕ) = pure n := by
  have h' : (n : ℤ) < 2 ^ bits := by exact_mod_cast h
  ext1
  · simp [word, wrap_of_lt h]
  · simp [word, h']

theorem word_of_eq {z : ℤ} (n : ℕ) (hz : z = n) (h : n < 2 ^ bits) :
    (word bits z : Run ε ℕ) = pure n := by
  rw [hz, word_eq_pure h]

variable {m : ℕ}

theorem word_add (h : m + n < 2 ^ bits) : (word bits ((m : ℤ) + n) : Run ε ℕ) = pure (m + n) := by
  rw [← Nat.cast_add, word_eq_pure h]

theorem word_mul (h : m * n < 2 ^ bits) : (word bits ((m : ℤ) * n) : Run ε ℕ) = pure (m * n) := by
  rw [← Nat.cast_mul, word_eq_pure h]

theorem signed_eq_pure {n : ℤ} (hbits : 0 < bits)
    (hlo : -2 ^ (bits - 1) ≤ n) (hhi : n < 2 ^ (bits - 1)) :
    (signed bits n : Run ε ℤ) = pure n := by
  obtain ⟨k, rfl⟩ : ∃ k, bits = k + 1 := ⟨bits - 1, by omega⟩
  simp only [Nat.add_sub_cancel] at hlo hhi
  have hpow : ((2 ^ (k + 1) : ℕ) : ℤ) = 2 * 2 ^ k := by push_cast; ring
  have hmod : n.bmod (2 ^ (k + 1)) = n := by
    apply Int.bmod_eq_of_le
    · omega
    · omega
  ext1
  · simp [signed, hmod]
  · simp [signed, hlo, hhi]

theorem observe_eq_pure {p : Prop} [Decidable p] (h : p) :
    (observe p : Run ε Unit) = pure () := by
  ext1
  · rfl
  · simp [observe, h]

def whileLoop (cond : σ → Bool) (body : σ → Run ε σ) : ℕ → σ → Run ε σ
  | 0, s => if cond s then diverging else pure s
  | fuel + 1, s => if cond s then body s >>= whileLoop cond body fuel else pure s

variable {cond : σ → Bool} {body : σ → Run ε σ} {fuel : ℕ} {s : σ}

theorem whileLoop_of_not (h : cond s = false) : whileLoop cond body fuel s = pure s := by
  cases fuel <;> simp [whileLoop, h]

theorem whileLoop_step {s' : σ} (h : cond s = true) (hs : body s = pure s') :
    whileLoop cond body (fuel + 1) s = whileLoop cond body fuel s' := by
  simp [whileLoop, h, hs]

variable {p : σ → Prop}

theorem whileLoop_exit [DecidablePred p]
    (h : ¬ p s) : whileLoop (fun s => decide (p s)) body fuel s = pure s :=
  whileLoop_of_not (decide_eq_false h)

theorem whileLoop_enter [DecidablePred p]
    (h : p s) : whileLoop (fun s => decide (p s)) body (fuel + 1) s
      = body s >>= whileLoop (fun s => decide (p s)) body fuel := by
  rw [whileLoop, if_pos (decide_eq_true h)]

theorem whileLoop_congr {body' : σ → Run ε σ} {I : σ → Prop} (hbody : ∀ s, I s → body s = body' s)
    (hkeep : ∀ s s', I s → (body s).outcome = .returned s' → I s') (hs : I s) :
    whileLoop cond body fuel s = whileLoop cond body' fuel s := by
  induction fuel generalizing s with
  | zero => rfl
  | succ fuel ih =>
    unfold whileLoop
    split
    case isTrue =>
      rw [← hbody s hs]
      have hkept := hkeep s
      generalize body s = x at hkept ⊢
      obtain ⟨o, c⟩ := x
      cases o with
      | returned s' =>
        change andThen _ _ = andThen _ _
        simp only [andThen, ih (hkept s' hs rfl)]
      | threw e => rfl
      | diverged => rfl
    case isFalse => rfl

/-- The run ends in range, with a value that satisfies `Q` or with an exception. -/
def Ensures (x : Run ε α) (Q : α → Prop) : Prop :=
  (∃ a, x = pure a ∧ Q a) ∨ ∃ e, x = throwing e

variable {Q : α → Prop}

theorem Ensures.pure (h : Q a) : (pure a : Run ε α).Ensures Q :=
  Or.inl ⟨a, rfl, h⟩

theorem Ensures.throwing : (throwing e : Run ε α).Ensures Q :=
  Or.inr ⟨e, rfl⟩

variable {P : α → Prop} {f : α → Run ε β}

theorem Ensures.bind {Q : β → Prop}
    (hx : x.Ensures P) (hf : ∀ a, P a → (f a).Ensures Q) : (x >>= f).Ensures Q := by
  rcases hx with ⟨a, rfl, ha⟩ | ⟨e, rfl⟩
  · exact hf a ha
  · exact Or.inr ⟨e, rfl⟩

theorem Ensures.ite {c : Prop} [Decidable c] {y : Run ε α} (hx : c → x.Ensures Q)
    (hy : ¬ c → y.Ensures Q) : (if c then x else y).Ensures Q := by
  split
  case isTrue h => exact hx h
  case isFalse h => exact hy h

theorem Ensures.catching (h : x.Ensures Q) (ha : Q a) : ∃ b, x.catching a = Pure.pure b ∧ Q b := by
  rcases h with ⟨b, rfl, hb⟩ | ⟨e, rfl⟩
  · exact ⟨b, rfl, hb⟩
  · exact ⟨a, rfl, ha⟩

theorem Ensures.mono (h : x.Ensures P) (hPQ : ∀ a, P a → Q a) : x.Ensures Q := by
  rcases h with ⟨a, rfl, ha⟩ | ⟨e, rfl⟩
  · exact Or.inl ⟨a, rfl, hPQ a ha⟩
  · exact Or.inr ⟨e, rfl⟩

theorem Ensures.map {Q : β → Prop} {f : α → β} (h : x.Ensures P)
    (hf : ∀ a, P a → Q (f a)) : (f <$> x).Ensures Q := by
  rcases h with ⟨a, rfl, ha⟩ | ⟨e, rfl⟩
  · exact Or.inl ⟨f a, rfl, hf a ha⟩
  · exact Or.inr ⟨e, rfl⟩

/-- Such a run does nothing that C++ leaves undefined. -/
theorem Ensures.clean (h : x.Ensures Q) : x.clean = true := by
  rcases h with ⟨a, rfl, -⟩ | ⟨e, rfl⟩
  · rfl
  · rfl

theorem Ensures.outcome (h : x.Ensures Q) :
    (∃ a, x.outcome = .returned a ∧ Q a) ∨ ∃ e, x.outcome = .threw e := by
  rcases h with ⟨a, rfl, ha⟩ | ⟨e, rfl⟩
  · exact Or.inl ⟨a, rfl, ha⟩
  · exact Or.inr ⟨e, rfl⟩

theorem Ensures.of_eq_pure (h : x.Ensures Q) (hx : x = Pure.pure a) : Q a := by
  rcases h with ⟨b, hb, hQ⟩ | ⟨e, he⟩
  · rw [hb, pure_inj] at hx
    exact hx ▸ hQ
  · rw [he] at hx
    cases hx

section Measure

variable {cond : σ → Bool} {body : σ → Run ε σ} {μ : σ → ℕ}

variable {s : σ}

theorem whileLoop_eq_of_measure (hpos : ∀ s, cond s = true → 0 < μ s)
    (hbody : ∀ s, cond s = true → (body s).Ensures fun s' => μ s' < μ s) {fuel : ℕ}
    (hfuel : μ s ≤ fuel) : whileLoop cond body fuel s = whileLoop cond body (μ s) s := by
  induction fuel using Nat.strong_induction_on generalizing s with
  | _ fuel ih =>
    cases hc : cond s with
    | false => rw [whileLoop_of_not hc, whileLoop_of_not hc]
    | true =>
      obtain ⟨m, hm⟩ : ∃ m, μ s = m + 1 := ⟨μ s - 1, by have := hpos s hc; omega⟩
      obtain ⟨f, hf⟩ : ∃ f, fuel = f + 1 := ⟨fuel - 1, by omega⟩
      rw [hm, hf]
      simp only [whileLoop, hc, if_true]
      rcases hbody s hc with ⟨s', hs', hlt⟩ | ⟨e, he⟩
      · grind
      · rw [he]
        rfl

theorem whileLoop_unroll (hpos : ∀ s, cond s = true → 0 < μ s)
    (hbody : ∀ s, cond s = true → (body s).Ensures fun s' => μ s' < μ s)
    (hc : cond s = true) :
    whileLoop cond body (μ s) s = body s >>= fun s' => whileLoop cond body (μ s') s' := by
  obtain ⟨m, hm⟩ : ∃ m, μ s = m + 1 := ⟨μ s - 1, by have := hpos s hc; omega⟩
  rw [hm]
  simp only [whileLoop, hc, if_true]
  rcases hbody s hc with ⟨s', hs', hlt⟩ | ⟨e, he⟩
  · rw [hs', pure_bind, pure_bind]
    exact whileLoop_eq_of_measure hpos hbody (by omega)
  · rw [he]
    rfl

end Measure

theorem outcome_bind_eq_returned (h : (x >>= f).outcome = .returned b) :
    ∃ a, x.outcome = .returned a ∧ (f a).outcome = .returned b := by
  obtain ⟨o, c⟩ := x
  cases o with
  | returned a => exact ⟨a, rfl, h⟩
  | threw e => cases h
  | diverged => cases h

theorem outcome_bind_congr {y : Run ε α} {g : α → Run ε β} (h : x.outcome = y.outcome)
    (hfg : ∀ a, (f a).outcome = (g a).outcome) : (x >>= f).outcome = (y >>= g).outcome := by
  change (x.andThen f).outcome = (y.andThen g).outcome
  unfold andThen
  rw [h]
  cases y.outcome with
  | returned a => exact hfg a
  | threw e => rfl
  | diverged => rfl

end Run

end Machine
