import Mathlib

/-!
# Programs with state and exceptions

A program runs on a state and returns a value or throws; what it has done to the state before it
throws stays done.  A component answers one call after another, each on the state the call before
has left, also when that one threw.  One component refines another when a view of its states
answers every call as the other does; then so does every sequence of calls.
-/

set_option autoImplicit false

namespace Machine

abbrev Program (ε σ α : Type) : Type := EStateM ε σ α

variable {ε σ τ κ α β : Type}

variable {p : Program ε σ α} {f : α → Program ε σ β} {s s' : σ}

theorem bind_ok {a : α} (h : p s = .ok a s') : (p >>= f) s = f a s' := by
  change EStateM.bind p f s = f a s'
  rw [EStateM.bind, h]

theorem bind_error {e : ε} (h : p s = .error e s') : (p >>= f) s = .error e s' := by
  change EStateM.bind p f s = .error e s'
  rw [EStateM.bind, h]

variable (a : α) (e : ε)

@[simp] theorem pure_apply (s : σ) : (pure a : Program ε σ α) s = .ok a s := rfl

@[simp] theorem throw_apply (s : σ) : (throw e : Program ε σ α) s = .error e s := rfl

@[simp] theorem throw_bind (f : α → Program ε σ β) (s : σ) :
    ((throw e : Program ε σ α) >>= f) s = .error e s := rfl

@[simp] theorem get_bind (f : σ → Program ε σ β) (s : σ) : (get >>= f) s = f s s := rfl

@[simp] theorem modify_apply (g : σ → σ) (s : σ) :
    (modify g : Program ε σ PUnit) s = .ok ⟨⟩ (g s) := rfl

@[simp] theorem modify_bind (g : σ → σ) (f : PUnit → Program ε σ β) (s : σ) :
    (modify g >>= f) s = f ⟨⟩ (g s) := rfl

def onField (field : σ → τ) (put : τ → σ → σ) (p : Program ε τ α) : Program ε σ α := fun s =>
  match p (field s) with
  | .ok a t => .ok a (put t s)
  | .error e t => .error e (put t s)

section Field

variable {field : σ → τ} {put : τ → σ → σ} {p : Program ε τ α} {s : σ} {t : τ}

theorem onField_ok {a : α} (h : p (field s) = .ok a t) :
    onField field put p s = .ok a (put t s) := by
  rw [onField, h]

theorem onField_error {e : ε} (h : p (field s) = .error e t) :
    onField field put p s = .error e (put t s) := by
  rw [onField, h]

end Field

/-- What a call answers: the value it returns or the exception it throws. -/
def answer : EStateM.Result ε σ α → Except ε α
  | .ok a _ => .ok a
  | .error e _ => .error e

def after : EStateM.Result ε σ α → σ
  | .ok _ s => s
  | .error _ s => s

@[simp] theorem answer_ok (s : σ) : answer (.ok a s : EStateM.Result ε σ α) = .ok a := rfl

@[simp] theorem answer_error (s : σ) : answer (.error e s : EStateM.Result ε σ α) = .error e := rfl

@[simp] theorem after_ok (s : σ) : after (.ok a s : EStateM.Result ε σ α) = s := rfl

@[simp] theorem after_error (s : σ) : after (.error e s : EStateM.Result ε σ α) = s := rfl

def answers (call : κ → Program ε σ α) : List κ → σ → List (Except ε α)
  | [], _ => []
  | k :: ks, s => answer (call k s) :: answers call ks (after (call k s))

def afterAll (call : κ → Program ε σ α) : List κ → σ → σ
  | [], s => s
  | k :: ks, s => afterAll call ks (after (call k s))

theorem afterAll_append (call : κ → Program ε σ α) (ks ls : List κ) (s : σ) :
    afterAll call (ks ++ ls) s = afterAll call ls (afterAll call ks s) := by
  induction ks generalizing s with
  | nil => rfl
  | cons k ks ih => exact ih _

/-- Every call meets a condition on itself and on the state it starts in. -/
def AllMeet (M : κ → σ → Prop) (call : κ → Program ε σ α) : List κ → σ → Prop
  | [], _ => True
  | k :: ks, s => M k s ∧ AllMeet M call ks (after (call k s))

section AllMeet

variable {M : κ → σ → Prop} {call : κ → Program ε σ α} {ks : List κ} {s : σ}

theorem allMeet_of_forall (h : ∀ k s, M k s) : AllMeet M call ks s := by
  induction ks generalizing s with
  | nil => exact trivial
  | cons k ks ih => exact ⟨h k s, ih⟩

theorem AllMeet.of_prefix {ls : List κ} (h : AllMeet M call ks s) (hstart : ls <+: ks) :
    AllMeet M call ls s := by
  induction ls generalizing ks s with
  | nil => exact trivial
  | cons k ls ih =>
    obtain ⟨rest, rfl⟩ := hstart
    exact ⟨h.1, ih h.2 (List.prefix_append ls rest)⟩

end AllMeet

/-- From the states `s` and `t`, the two programs end in the same way and leave related states. -/
structure RefinesAt (R : σ → τ → Prop) (p : Program ε σ α) (q : Program ε τ α) (s : σ) (t : τ) :
    Prop where
  answer_eq : answer (p s) = answer (q t)
  related : R (after (p s)) (after (q t))

section Refinement

variable {R : σ → τ → Prop} {p : Program ε σ α} {q : Program ε τ α} {s s' : σ} {t t' : τ}

theorem RefinesAt.of_ok {a : α} (hp : p s = .ok a s') (hq : q t = .ok a t') (h : R s' t') :
    RefinesAt R p q s t := by
  constructor
  · rw [hp, hq, answer_ok, answer_ok]
  · rw [hp, hq, after_ok, after_ok]
    exact h

theorem RefinesAt.of_error {e : ε} (hp : p s = .error e s') (hq : q t = .error e t')
    (h : R s' t') : RefinesAt R p q s t := by
  constructor
  · rw [hp, hq, answer_error, answer_error]
  · rw [hp, hq, after_error, after_error]
    exact h

theorem RefinesAt.map (h : RefinesAt R p q s t) (f : α → β) :
    RefinesAt R (p >>= fun a => pure (f a)) (q >>= fun a => pure (f a)) s t := by
  obtain ⟨hanswer, hrelated⟩ := h
  cases hp : p s with
  | ok a s' =>
    rw [hp] at hanswer hrelated
    cases hq : q t with
    | ok b t' =>
      rw [hq] at hanswer hrelated
      obtain rfl := Except.ok.inj hanswer
      exact of_ok (bind_ok hp) (bind_ok hq) hrelated
    | error e t' =>
      rw [hq] at hanswer
      cases hanswer
  | error e s' =>
    rw [hp] at hanswer hrelated
    cases hq : q t with
    | ok b t' =>
      rw [hq] at hanswer
      cases hanswer
    | error e' t' =>
      rw [hq] at hanswer hrelated
      obtain rfl := Except.error.inj hanswer
      exact of_error (bind_error hp) (bind_error hq) hrelated

variable {callS : κ → Program ε σ α} {callT : κ → Program ε τ α}

/-- The calls of the condition are answered as those of the other component. -/
theorem run_refines_of_allMeet {M : κ → σ → Prop}
    (hstep : ∀ k s t, R s t → M k s → RefinesAt R (callS k) (callT k) s t) {ks : List κ}
    (h : R s t) (hmeet : AllMeet M callS ks s) :
    answers callS ks s = answers callT ks t ∧ R (afterAll callS ks s) (afterAll callT ks t) := by
  induction ks generalizing s t with
  | nil => exact ⟨rfl, h⟩
  | cons k ks ih =>
    have hk := hstep k s t h hmeet.1
    obtain ⟨hanswers, hrelated⟩ := ih hk.related hmeet.2
    refine ⟨?_, hrelated⟩
    rw [answers, answers, hk.answer_eq, hanswers]

/-- A call outside the condition is answered otherwise, so the first one shows in the answers. -/
theorem allMeet_of_answers_eq {M : κ → σ → Prop}
    (hstep : ∀ k s t, R s t → M k s → RefinesAt R (callS k) (callT k) s t)
    (hother : ∀ k s t, R s t → ¬M k s → answer (callS k s) ≠ answer (callT k t)) {ks : List κ}
    (h : R s t) (hanswers : answers callS ks s = answers callT ks t) :
    AllMeet M callS ks s := by
  induction ks generalizing s t with
  | nil => exact trivial
  | cons k ks ih =>
    rw [answers, answers, List.cons.injEq] at hanswers
    have hk : M k s := by
      by_contra hnot
      exact hother k s t h hnot hanswers.1
    exact ⟨hk, ih (hstep k s t h hk).related hanswers.2⟩

theorem run_refines (hstep : ∀ k s t, R s t → RefinesAt R (callS k) (callT k) s t) (ks : List κ)
    (h : R s t) :
    answers callS ks s = answers callT ks t ∧ R (afterAll callS ks s) (afterAll callT ks t) :=
  run_refines_of_allMeet (fun k s t h _ => hstep k s t h) h (allMeet_of_forall fun _ _ => trivial)

end Refinement

end Machine
