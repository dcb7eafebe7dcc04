import Mathlib

/-!
# Monitors

A state behind a mutex, with condition variables.  A client calls an operation, which holds the
mutex throughout and notifies some of the variables, or it waits: it looks at a condition with the
mutex held, and parks on a variable where the condition fails.  An invariant that every step keeps
holds at the end of every trace (`Trace.holds`); if whatever makes a condition true notifies the
variable its waiters park on, none is left parked on a true condition (`Trace.noLostWakeup`).
-/

set_option autoImplicit false

namespace Machine

/-- A wait: the variable it parks on, what it does before it looks at its condition, the condition,
and what it does once the condition holds.  Entering may have no defined result. -/
structure Waiting (σ ν ρ : Type) where
  on : ν
  enter : σ → Option (σ × List ν)
  ready : σ → Bool
  leave : σ → σ × List ν × ρ

/-- A monitor with operations `α`, waits `κ`, condition variables `ν` and replies `ρ`.  An operation
gives the state it leaves, the variables it notifies, and its reply. -/
structure Monitor (σ α κ ν ρ : Type) where
  call : α → σ → σ × List ν × ρ
  waiting : κ → Waiting σ ν ρ

namespace Monitor

/-- A client parked in a wait, and whether its variable was notified since it parked. -/
structure Parked (ι κ : Type) where
  client : ι
  wait : κ
  notified : Bool
deriving DecidableEq

/-- The state behind the mutex, and the clients that are parked. -/
structure World (σ ι κ : Type) where
  state : σ
  parked : List (Parked ι κ)

/-- What a client sees: the reply of an operation or of a wait, or that it parks. -/
inductive Event (ι α κ ρ : Type) where
  | called (c : ι) (a : α) (reply : ρ)
  | passed (c : ι) (k : κ) (reply : ρ)
  | parked (c : ι) (k : κ)
deriving DecidableEq

variable {σ ι α κ ν ρ : Type} [DecidableEq ν]

def notify (m : Monitor σ α κ ν ρ) (vars : List ν) (parked : List (Parked ι κ)) :
    List (Parked ι κ) :=
  parked.map fun p => if (m.waiting p.wait).on ∈ vars then { p with notified := true } else p

def World.blocked (w : World σ ι κ) : List ι :=
  w.parked.map Parked.client

/-- One step of one client. -/
inductive Step (m : Monitor σ α κ ν ρ) : World σ ι κ → Event ι α κ ρ → World σ ι κ → Prop where
  /-- A client calls an operation. -/
  | call {w : World σ ι κ} {c : ι} (a : α) (hfree : c ∉ w.blocked) :
      Step m w (.called c a (m.call a w.state).2.2)
        ⟨(m.call a w.state).1, m.notify (m.call a w.state).2.1 w.parked⟩
  /-- A client begins a wait and finds its condition true. -/
  | pass {w : World σ ι κ} {c : ι} (k : κ) {s : σ} {vars : List ν} (hfree : c ∉ w.blocked)
      (henter : (m.waiting k).enter w.state = some (s, vars))
      (hready : (m.waiting k).ready s = true) :
      Step m w (.passed c k ((m.waiting k).leave s).2.2)
        ⟨((m.waiting k).leave s).1, m.notify ((m.waiting k).leave s).2.1 (m.notify vars w.parked)⟩
  /-- A client begins a wait and parks. -/
  | park {w : World σ ι κ} {c : ι} (k : κ) {s : σ} {vars : List ν} (hfree : c ∉ w.blocked)
      (henter : (m.waiting k).enter w.state = some (s, vars))
      (hready : (m.waiting k).ready s = false) :
      Step m w (.parked c k) ⟨s, m.notify vars w.parked ++ [⟨c, k, false⟩]⟩
  /-- A notified client finds its condition true. -/
  | resume {s : σ} {l r : List (Parked ι κ)} {c : ι} {k : κ}
      (hready : (m.waiting k).ready s = true) :
      Step m ⟨s, l ++ ⟨c, k, true⟩ :: r⟩ (.passed c k ((m.waiting k).leave s).2.2)
        ⟨((m.waiting k).leave s).1, m.notify ((m.waiting k).leave s).2.1 (l ++ r)⟩
  /-- A notified client finds its condition false, and parks again. -/
  | relapse {s : σ} {l r : List (Parked ι κ)} {c : ι} {k : κ}
      (hready : (m.waiting k).ready s = false) :
      Step m ⟨s, l ++ ⟨c, k, true⟩ :: r⟩ (.parked c k) ⟨s, l ++ ⟨c, k, false⟩ :: r⟩

/-- A step with the worlds before and after it. -/
structure Transition (σ ι α κ ρ : Type) where
  before : World σ ι κ
  event : Event ι α κ ρ
  after : World σ ι κ

/-- The steps the clients took, beginning in the state `s` with no client parked. -/
inductive Trace (m : Monitor σ α κ ν ρ) (s : σ) :
    List (Transition σ ι α κ ρ) → World σ ι κ → Prop where
  | start : Trace m s [] ⟨s, []⟩
  | snoc {ts : List (Transition σ ι α κ ρ)} {w w' : World σ ι κ} {e : Event ι α κ ρ}
      (htrace : Trace m s ts w) (hstep : Step m w e w') : Trace m s (ts ++ [⟨w, e, w'⟩]) w'

def events (ts : List (Transition σ ι α κ ρ)) : List (Event ι α κ ρ) :=
  ts.map Transition.event

omit [DecidableEq ν] in
@[simp] theorem events_nil : events ([] : List (Transition σ ι α κ ρ)) = [] :=
  rfl

theorem events_snoc (ts : List (Transition σ ι α κ ρ)) (t : Transition σ ι α κ ρ) :
    events (ts ++ [t]) = events ts ++ [t.event] := by
  rw [events, List.map_append]
  rfl

variable {m : Monitor σ α κ ν ρ}

theorem clients_notify (vars : List ν) (parked : List (Parked ι κ)) :
    (m.notify vars parked).map Parked.client = parked.map Parked.client := by
  rw [notify, List.map_map]
  refine List.map_congr_left fun p _ => ?_
  rw [Function.comp_apply]
  split <;> rfl

theorem notify_nil (parked : List (Parked ι κ)) : m.notify [] parked = parked := by simp [notify]

def clientsIn [DecidableEq κ] (k : κ) (parked : List (Parked ι κ)) : List ι :=
  (parked.filter fun p => p.wait = k).map Parked.client

section ClientsIn

variable [DecidableEq κ]

variable (k : κ)

theorem clientsIn_notify (vars : List ν) (parked : List (Parked ι κ)) :
    clientsIn k (m.notify vars parked) = clientsIn k parked := by
  rw [clientsIn, notify, List.filter_map, List.map_map]
  have hfilter : ((fun p : Parked ι κ => decide (p.wait = k)) ∘ fun p =>
      if (m.waiting p.wait).on ∈ vars then { p with notified := true } else p) =
      fun p => decide (p.wait = k) := by
    funext p
    rw [Function.comp_apply]
    split <;> rfl
  rw [hfilter]
  refine List.map_congr_left fun p _ => ?_
  rw [Function.comp_apply]
  split <;> rfl

omit [DecidableEq ν] in
theorem clientsIn_append (l r : List (Parked ι κ)) :
    clientsIn k (l ++ r) = clientsIn k l ++ clientsIn k r := by
  rw [clientsIn, List.filter_append, List.map_append]
  rfl

omit [DecidableEq ν] in
theorem clientsIn_cons_self (c : ι) (b : Bool) (r : List (Parked ι κ)) :
    clientsIn k (⟨c, k, b⟩ :: r) = c :: clientsIn k r := by grind [clientsIn]

variable {k : κ}

omit [DecidableEq ν] in
theorem clientsIn_cons_of_ne {k' : κ} (hne : k' ≠ k) (c : ι) (b : Bool)
    (r : List (Parked ι κ)) : clientsIn k (⟨c, k', b⟩ :: r) = clientsIn k r := by grind [clientsIn]

omit [DecidableEq ν] in
theorem mem_blocked_of_mem_clientsIn {c : ι} {parked : List (Parked ι κ)}
    (h : c ∈ clientsIn k parked) : c ∈ parked.map Parked.client :=
  (List.filter_sublist.map Parked.client).subset h

end ClientsIn

variable {vars : List ν}

variable {parked : List (Parked ι κ)}

theorem of_mem_notify {p : Parked ι κ} (hp : p ∈ m.notify vars parked) (hnot : p.notified = false) :
    p ∈ parked ∧ (m.waiting p.wait).on ∉ vars := by
  obtain ⟨q, hq, rfl⟩ := List.mem_map.mp hp
  by_cases hon : (m.waiting q.wait).on ∈ vars
  · rw [if_pos hon] at hnot
    cases hnot
  · rw [if_neg hon]
    exact ⟨hq, hon⟩

/-- An invariant of the state: operations and waits keep it. -/
structure Keeps (m : Monitor σ α κ ν ρ) (I : σ → Prop) : Prop where
  call : ∀ (a : α) {s : σ}, I s → I (m.call a s).1
  enter : ∀ (k : κ) {s s' : σ} {vars : List ν}, I s → (m.waiting k).enter s = some (s', vars) → I s'
  leave : ∀ (k : κ) {s : σ}, I s → (m.waiting k).ready s = true → I ((m.waiting k).leave s).1

variable {I : σ → Prop} {w : World σ ι κ}

variable {w' : World σ ι κ} {e : Event ι α κ ρ}

theorem Keeps.step (hkeeps : Keeps m I) (hstep : Step m w e w') (h : I w.state) : I w'.state := by
  cases hstep with
  | call a => exact hkeeps.call a h
  | pass k hfree henter hready => exact hkeeps.leave k (hkeeps.enter k h henter) hready
  | park k hfree henter => exact hkeeps.enter k h henter
  | resume hready => exact hkeeps.leave _ h hready
  | relapse => exact h

variable {s : σ} {ts : List (Transition σ ι α κ ρ)}

/-- An invariant that every call keeps holds in every state reached. -/
theorem Trace.holds (hkeeps : Keeps m I) (h : I s) (htrace : Trace m s ts w) : I w.state := by
  induction htrace with
  | start => exact h
  | snoc _ hstep ih => exact hkeeps.step hstep ih

theorem Trace.of_mem (htrace : Trace m s ts w) {t : Transition σ ι α κ ρ} (ht : t ∈ ts) :
    (∃ us, Trace m s us t.before) ∧ Step m t.before t.event t.after := by
  induction htrace with
  | start => cases ht
  | snoc hprevious hstep ih => grind

theorem Trace.blocked_nodup (htrace : Trace m s ts w) : w.blocked.Nodup := by
  induction htrace with
  | start => exact List.nodup_nil
  | snoc _ hstep ih =>
    cases hstep with
    | call => rwa [World.blocked, clients_notify]
    | pass => rwa [World.blocked, clients_notify, clients_notify]
    | park k hfree => grind [World.blocked, clients_notify]
    | resume => grind [World.blocked, clients_notify]
    | relapse =>
      rw [World.blocked, List.map_append, List.map_cons] at ih ⊢
      exact ih

/-- A queue that every step lengthens at its back, shortens at its front, or leaves: what entered it
is what left it and then what it holds. -/
theorem Trace.fifo {β : Type} (queue : World σ ι κ → List β)
    (put take : Transition σ ι α κ ρ → Option β) (hstart : queue ⟨s, []⟩ = [])
    (hstep : ∀ {us w e w'}, Trace m s us w → Step m w e w' →
      (∃ x, put ⟨w, e, w'⟩ = some x ∧ take ⟨w, e, w'⟩ = none ∧ queue w' = queue w ++ [x]) ∨
      (∃ x, put ⟨w, e, w'⟩ = none ∧ take ⟨w, e, w'⟩ = some x ∧ queue w = x :: queue w') ∨
      (put ⟨w, e, w'⟩ = none ∧ take ⟨w, e, w'⟩ = none ∧ queue w' = queue w)) (htrace : Trace m s ts w) :
    ts.filterMap put = ts.filterMap take ++ queue w := by
  induction htrace with
  | start =>
    rw [hstart]
    rfl
  | snoc hprevious hlast ih => grind

/-- Nobody is parked on a true condition without having been notified. -/
def NoLostWakeup (m : Monitor σ α κ ν ρ) (w : World σ ι κ) : Prop :=
  ∀ p ∈ w.parked, p.notified = false → (m.waiting p.wait).ready w.state = false

/-- From `s` to `s'` no condition becomes true whose variable is not notified. -/
def Wakes (m : Monitor σ α κ ν ρ) (vars : List ν) (s s' : σ) : Prop :=
  ∀ k, (m.waiting k).ready s = false → (m.waiting k).ready s' = true → (m.waiting k).on ∈ vars

omit [DecidableEq ν] in
theorem Wakes.refl (vars : List ν) (s : σ) : m.Wakes vars s s := by
  intro k hnot hready
  rw [hnot] at hready
  cases hready

omit [DecidableEq ν] in
theorem Wakes.of_all (hall : ∀ k, (m.waiting k).on ∈ vars) (s s' : σ) : m.Wakes vars s s' :=
  fun k _ _ => hall k

/-- In the states of an invariant, whatever makes a condition true notifies its variable. -/
structure Notifies (m : Monitor σ α κ ν ρ) (I : σ → Prop) : Prop where
  call : ∀ (a : α) {s : σ}, I s → m.Wakes (m.call a s).2.1 s (m.call a s).1
  enter : ∀ (k : κ) {s s' : σ} {vars : List ν}, I s → (m.waiting k).enter s = some (s', vars) →
    m.Wakes vars s s'
  leave : ∀ (k : κ) {s : σ}, I s → (m.waiting k).ready s = true →
    m.Wakes ((m.waiting k).leave s).2.1 s ((m.waiting k).leave s).1

theorem NoLostWakeup.notify {s' : σ} (hwakes : m.Wakes vars s s') (h : m.NoLostWakeup ⟨s, parked⟩) :
    m.NoLostWakeup ⟨s', m.notify vars parked⟩ := by
  intro p hp hnot
  obtain ⟨hmem, hon⟩ := of_mem_notify hp hnot
  rw [← Bool.not_eq_true]
  intro hready
  exact hon (hwakes p.wait (h p hmem hnot) hready)

theorem NoLostWakeup.step (hkeeps : Keeps m I) (hnotifies : Notifies m I) (hstep : Step m w e w')
    (hI : I w.state)
    (h : m.NoLostWakeup w) : m.NoLostWakeup w' := by
  cases hstep with
  | call a => exact h.notify (hnotifies.call a hI)
  | pass k hfree henter hready =>
    exact (h.notify (hnotifies.enter k hI henter)).notify
      (hnotifies.leave k (hkeeps.enter k hI henter) hready)
  | park k hfree henter hready =>
    intro p hp hnot
    rcases List.mem_append.mp hp with hp | hp
    · exact h.notify (hnotifies.enter k hI henter) p hp hnot
    · obtain rfl := List.mem_singleton.mp hp
      exact hready
  | @resume s l r c k hready =>
    refine NoLostWakeup.notify (hnotifies.leave k hI hready) fun p hp hnot => h p ?_ hnot
    rw [List.mem_append, List.mem_cons]
    exact (List.mem_append.mp hp).imp id Or.inr
  | @relapse s l r c k hready =>
    intro p hp hnot
    rw [List.mem_append, List.mem_cons] at hp
    rcases hp with hp | rfl | hp
    · exact h p (List.mem_append.mpr (.inl hp)) hnot
    · exact hready
    · exact h p (List.mem_append.mpr (.inr (List.mem_cons_of_mem _ hp))) hnot

/-- In every state reached, a waiter that could go on has been notified. -/
theorem Trace.noLostWakeup (hkeeps : Keeps m I) (hnotifies : Notifies m I)
    (h : I s) (htrace : Trace m s ts w) :
    m.NoLostWakeup w := by
  induction htrace with
  | start => exact fun p hp => absurd hp List.not_mem_nil
  | snoc hprevious hstep ih => exact ih.step hkeeps hnotifies hstep (hprevious.holds hkeeps h)

end Monitor

end Machine
