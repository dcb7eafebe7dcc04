import Mathlib

/-!
# Transitions

A machine that takes one action at a time: an action leads from a state to at most one state, and
is not possible where it leads to none.  A history is the list of the actions taken.  What the
first state has, and every action keeps, the last state has (`run_holds`); where an action keeps it
only under a condition, the histories whose actions all meet the condition keep it
(`run_holds_along`).
-/

set_option autoImplicit false

namespace Machine

variable {σ κ : Type}

def run (step : σ → κ → Option σ) : σ → List κ → Option σ
  | s, [] => some s
  | s, a :: as => (step s a).bind fun s' => run step s' as

/-- Every action of the history meets the condition in the state it is taken in. -/
def Along (step : σ → κ → Option σ) (P : σ → κ → Prop) : σ → List κ → Prop
  | _, [] => True
  | s, a :: as => P s a ∧ ∀ s' ∈ step s a, Along step P s' as

def decideAlong (step : σ → κ → Option σ) (P : σ → κ → Prop) [∀ s a, Decidable (P s a)] :
    (as : List κ) → (s : σ) → Decidable (Along step P s as)
  | [], _ => .isTrue trivial
  | a :: as, s =>
    have := decideAlong step P as
    inferInstanceAs (Decidable (P s a ∧ ∀ s' ∈ step s a, Along step P s' as))

instance (step : σ → κ → Option σ) (P : σ → κ → Prop) [∀ s a, Decidable (P s a)] (s : σ)
    (as : List κ) : Decidable (Along step P s as) :=
  decideAlong step P as s

variable {step : σ → κ → Option σ} {P : σ → κ → Prop} {I : σ → Prop}

variable {s s' : σ}

variable {as : List κ}

theorem run_cons_eq_some {a : κ} :
    run step s (a :: as) = some s' ↔ ∃ t, step s a = some t ∧ run step t as = some s' :=
  Option.bind_eq_some_iff

/-- By induction on the history: each action is taken from a state that has the invariant. -/
theorem run_holds_along (hstep : ∀ s a s', I s → P s a → step s a = some s' → I s')
    (as : List κ) (hs : I s) (hmeets : Along step P s as)
    (hrun : run step s as = some s') : I s' := by
  induction as generalizing s with
  | nil =>
    obtain rfl : s = s' := Option.some.inj hrun
    exact hs
  | cons a as ih =>
    obtain ⟨t, hone, hrest⟩ := run_cons_eq_some.mp hrun
    exact ih (hstep s a t hs hmeets.1 hone) (hmeets.2 t hone) hrest

/-- By induction on the history: where every action of the one machine is an action of the other,
from related states to related states, every history of the one is a history of the other. -/
theorem run_simulated {τ : Type} {step' : τ → κ → Option τ} {R : σ → τ → Prop}
    (hstep : ∀ s a s' t, R s t → step s a = some s' → ∃ t', step' t a = some t' ∧ R s' t')
    (as : List κ) {t : τ} (hs : R s t) (hrun : run step s as = some s') :
    ∃ t', run step' t as = some t' ∧ R s' t' := by
  induction as generalizing s t with
  | nil =>
    obtain rfl : s = s' := Option.some.inj hrun
    exact ⟨t, rfl, hs⟩
  | cons a as ih =>
    obtain ⟨u, hone, hrest⟩ := run_cons_eq_some.mp hrun
    obtain ⟨t', hone', hu⟩ := hstep s a u t hs hone
    obtain ⟨t'', hrest', ht''⟩ := ih hu hrest
    exact ⟨t'', run_cons_eq_some.mpr ⟨t', hone', hrest'⟩, ht''⟩

theorem run_append (as bs : List κ) (s : σ) :
    run step s (as ++ bs) = (run step s as).bind fun t => run step t bs := by
  induction as generalizing s with
  | nil => rfl
  | cons a as ih =>
    change (step s a).bind (fun t => run step t (as ++ bs)) = _
    simp only [ih]
    exact (Option.bind_assoc ..).symm

theorem along_of_forall (h : ∀ a ∈ as, ∀ s, P s a) (s : σ) : Along step P s as := by
  induction as generalizing s with
  | nil => exact trivial
  | cons a as ih =>
    exact ⟨h a List.mem_cons_self s, fun s' _ => ih (fun b hb => h b (List.mem_cons_of_mem a hb)) s'⟩

/-- What a condition gives for one action, from a state with the invariant, it gives along every
history that meets it. -/
theorem along_of_along {Q : σ → κ → Prop} (hstep : ∀ s a s', I s → P s a → step s a = some s' → I s')
    (hmeets : ∀ s a, I s → P s a → Q s a) (as : List κ) (hs : I s)
    (h : Along step P s as) : Along step Q s as := by
  induction as generalizing s with
  | nil => exact trivial
  | cons a as ih =>
    exact ⟨hmeets s a hs h.1, fun t hone => ih (hstep s a t hs h.1 hone) (h.2 t hone)⟩

end Machine

/-!
# Locks with readers, one writer and one upgrader

Who holds a lock that many readers share, that one writer holds alone, and that one upgrader holds
beside the readers, with the right to become the writer.  The holders carry their own laws: beside
a writer there is no reader, and no upgrader but the writer itself; the upgrader is not one of the
readers.  Each way to enter or to leave asks for what keeps them.
-/

namespace Machine

/-- Who holds the lock, and how. -/
structure Holders (ι : Type) where
  writer : Option ι
  upgrader : Option ι
  readers : Finset ι
  /-- Beside a writer there is no reader. -/
  readers_empty : writer.isSome → readers = ∅
  /-- Beside a writer there is no other upgrader. -/
  upgrader_eq : ∀ t u, writer = some t → upgrader = some u → u = t
  /-- The upgrader is not one of the readers. -/
  upgrader_notMem : ∀ u, upgrader = some u → u ∉ readers

namespace Holders

variable {ι : Type}

def free : Holders ι where
  writer := none
  upgrader := none
  readers := ∅
  readers_empty _ := rfl
  upgrader_eq _ _ h := nomatch h
  upgrader_notMem _ h := nomatch h

section Readers

variable [DecidableEq ι]

def enterRead (h : Holders ι) (t : ι) (hwriter : h.writer = none) (hother : h.upgrader ≠ some t) :
    Holders ι where
  writer := h.writer
  upgrader := h.upgrader
  readers := insert t h.readers
  readers_empty hsome := by
    rw [hwriter] at hsome
    cases hsome
  upgrader_eq := h.upgrader_eq
  upgrader_notMem u hu := by
    rw [Finset.mem_insert, not_or]
    refine ⟨?_, h.upgrader_notMem u hu⟩
    rintro rfl
    exact hother hu

def exitRead (h : Holders ι) (t : ι) : Holders ι where
  writer := h.writer
  upgrader := h.upgrader
  readers := h.readers.erase t
  readers_empty hsome := by rw [h.readers_empty hsome, Finset.erase_empty]
  upgrader_eq := h.upgrader_eq
  upgrader_notMem u hu hmem := h.upgrader_notMem u hu (Finset.mem_of_mem_erase hmem)

end Readers

/-- A thread becomes the writer: there is no reader, and no upgrader but itself. -/
def enterWrite (h : Holders ι) (t : ι) (hreaders : h.readers = ∅)
    (hupgrader : ∀ u, h.upgrader = some u → u = t) : Holders ι where
  writer := some t
  upgrader := h.upgrader
  readers := h.readers
  readers_empty _ := hreaders
  upgrader_eq s u hs hu := by
    obtain rfl := Option.some.inj hs
    exact hupgrader u hu
  upgrader_notMem := h.upgrader_notMem

def exitWrite (h : Holders ι) : Holders ι where
  writer := none
  upgrader := h.upgrader
  readers := h.readers
  readers_empty hsome := nomatch hsome
  upgrader_eq _ _ hs := nomatch hs
  upgrader_notMem := h.upgrader_notMem

/-- A thread that is not a reader becomes the upgrader: there is no writer but itself. -/
def enterUpgrade (h : Holders ι) (t : ι) (hnotMem : t ∉ h.readers)
    (hwriter : ∀ w, h.writer = some w → w = t) : Holders ι where
  writer := h.writer
  upgrader := some t
  readers := h.readers
  readers_empty := h.readers_empty
  upgrader_eq w u hw hu := by
    obtain rfl := Option.some.inj hu
    exact (hwriter w hw).symm
  upgrader_notMem u hu := by
    obtain rfl := Option.some.inj hu
    exact hnotMem

def exitUpgrade (h : Holders ι) : Holders ι where
  writer := h.writer
  upgrader := none
  readers := h.readers
  readers_empty := h.readers_empty
  upgrader_eq _ _ _ hu := nomatch hu
  upgrader_notMem _ hu := nomatch hu

end Holders

end Machine
