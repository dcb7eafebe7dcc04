import SharpRuntime.Interface.BarrierThreads

/-!
# The phases of `Barrier`

A barrier is followed by the list of the threads that have arrived in the current phase, in order.
The record of what has happened says how each phase went, and the counts and the activity of the
threads say who is parked.  A phase ends with the arrival or the removal that leaves no one to wait
for; a waiter whose turn comes after the next phase has ended reads the outcome of that phase.
-/

set_option autoImplicit false

namespace SharpRuntime.Analysis.BarrierPhases

open Machine Model Interface.BarrierThreads
open Barrier
open Function

variable {ι ε : Type}

/-! ## The end of a phase -/

def completed (b : Barrier ι ε) (outcome : Option ε) : Barrier ι ε :=
  { b with
    remainingCount_ := b.participantCount_
    phaseCount_ := Int.bmod (b.phaseCount_ + 1) (2 ^ 64)
    lastPostPhaseException_ := if b.postPhaseAction_ then outcome else none
    actionCallerId_ := if b.postPhaseAction_ then none else b.actionCallerId_
    history := b.history ++
      ((if b.postPhaseAction_ then [.acted b.phaseCount_ outcome] else []) ++
        [.advanced b.phaseCount_]) }

theorem finishPhase_eq (me : ι) (outcome : Option ε) (b : Barrier ι ε) :
    finishPhase me outcome b =
      match (completed b outcome).lastPostPhaseException_ with
      | some e => .error (.barrierPostPhase e) (completed b outcome)
      | none => .ok ⟨⟩ (completed b outcome) := by
  obtain ⟨p, r, n, action, last, caller, disposed, history⟩ := b
  cases action
  · rfl
  · have hhistory : history ++ [BarrierEvent.acted n outcome] ++ [.advanced n] =
        history ++ ([.acted n outcome] ++ [.advanced n]) := List.append_assoc ..
    cases outcome <;>
      · simp only [completed, if_true, ← hhistory]
        rfl

/-! ## The record -/

variable {k : ℤ}

theorem course_note_of_eq (event : BarrierEvent ι ε) (b : Barrier ι ε)
    (h : eventPhase event = k) : course (note event b) k = course b k ++ [event] := by
  grind [course, note]

theorem course_note_of_ne (event : BarrierEvent ι ε) (b : Barrier ι ε)
    (h : eventPhase event ≠ k) : course (note event b) k = course b k := by grind [course, note]

theorem course_completed (b : Barrier ι ε) (outcome : Option ε) (k : ℤ) :
    course (completed b outcome) k = course b k ++
      if b.phaseCount_ = k then
        (if b.postPhaseAction_ then [.acted b.phaseCount_ outcome] else []) ++
          [.advanced b.phaseCount_]
      else [] := by grind [course, completed, eventPhase]

/-- An ended phase whose action has ended in this way, and from which these threads have
returned. -/
def endedCourse (postPhaseAction : Bool) (phase : ℤ) (arrivals returns : List ι)
    (outcome : Option ε) : List (BarrierEvent ι ε) :=
  arrivals.map (.arrived · phase) ++ (if postPhaseAction then [.acted phase outcome] else []) ++
    [.advanced phase] ++ returns.map (.left · phase outcome.isSome)

variable {postPhaseAction : Bool}

theorem any_isThrow_endedCourse {outcome : Option ε}
    (hnone : postPhaseAction = false → outcome = none) (phase : ℤ) (arrivals returns : List ι) :
    (endedCourse postPhaseAction phase arrivals returns outcome).any isThrow = outcome.isSome := by
  have harrivals : (arrivals.map (BarrierEvent.arrived (ε := ε) · phase)).any isThrow = false :=
    List.any_eq_false.mpr fun event hevent => by
      obtain ⟨t, -, rfl⟩ := List.mem_map.mp hevent
      exact Bool.false_ne_true
  have hreturns :
      (returns.map (BarrierEvent.left (ε := ε) · phase outcome.isSome)).any isThrow = false :=
    List.any_eq_false.mpr fun event hevent => by
      obtain ⟨t, -, rfl⟩ := List.mem_map.mp hevent
      exact Bool.false_ne_true
  rw [endedCourse, List.any_append, List.any_append, List.any_append, harrivals, hreturns]
  cases postPhaseAction with
  | false =>
    rw [hnone rfl]
    rfl
  | true => cases outcome <;> rfl

/-- The record of a barrier at which these threads have arrived in the current phase, in order. -/
structure Record (b : Barrier ι ε) (arrivals : List ι) : Prop where
  phase_nonneg : 0 ≤ b.phaseCount_
  /-- The field for the outcome holds that of the phase that ended last. -/
  outcome : 0 < b.phaseCount_ →
    b.lastPostPhaseException_.isSome = actionThrew b (b.phaseCount_ - 1)
  ended : ∀ k, 0 ≤ k → k < b.phaseCount_ → Ended b.postPhaseAction_ k (course b k)
  current : course b b.phaseCount_ = arrivals.map (.arrived · b.phaseCount_)
  outside : ∀ k, k < 0 ∨ b.phaseCount_ < k → course b k = []

variable {b b' : Barrier ι ε} {arrivals : List ι} {me : ι}

theorem Record.congr (h : Record b arrivals) (hphase : b'.phaseCount_ = b.phaseCount_)
    (haction : b'.postPhaseAction_ = b.postPhaseAction_)
    (hlast : b'.lastPostPhaseException_ = b.lastPostPhaseException_)
    (hhistory : b'.history = b.history) : Record b' arrivals := by
  have hcourse : ∀ k, course b' k = course b k := fun k => by rw [course, course, hhistory]
  constructor
  · rw [hphase]
    exact h.phase_nonneg
  · rw [hphase, hlast, actionThrew, hcourse]
    exact h.outcome
  · intro k hk hlt
    rw [haction, hcourse]
    exact h.ended k hk (hphase ▸ hlt)
  · rw [hphase, hcourse]
    exact h.current
  · intro k hk
    rw [hcourse]
    exact h.outside k (hphase ▸ hk)

theorem Record.arrive (h : Record b arrivals) (me : ι) :
    Record (note (.arrived me b.phaseCount_) b) (arrivals ++ [me]) := by
  have hcourse : ∀ k, k ≠ b.phaseCount_ →
      course (note (.arrived me b.phaseCount_) b) k = course b k := fun k hk =>
    course_note_of_ne _ b (Ne.symm hk)
  constructor
  · exact h.phase_nonneg
  · intro hpos
    change b.lastPostPhaseException_.isSome = (course _ (b.phaseCount_ - 1)).any isThrow
    rw [hcourse _ (by omega)]
    exact h.outcome hpos
  · intro k hk hlt
    change k < b.phaseCount_ at hlt
    rw [hcourse k (by omega)]
    exact h.ended k hk hlt
  · change course _ b.phaseCount_ = (arrivals ++ [me]).map (.arrived · b.phaseCount_)
    rw [course_note_of_eq (.arrived me b.phaseCount_) b (k := b.phaseCount_) rfl, h.current, List.map_append]
    rfl
  · intro k hk
    change k < 0 ∨ b.phaseCount_ < k at hk
    have hnonneg := h.phase_nonneg
    rw [hcourse k (by omega)]
    exact h.outside k hk

variable {threw : Bool}

theorem Record.leave (h : Record b arrivals) (hnonneg : 0 ≤ k)
    (hlt : k < b.phaseCount_) (hthrew : threw = actionThrew b k) (me : ι) :
    Record (note (.left me k threw) b) arrivals := by
  have hcourse : ∀ j, j ≠ k → course (note (.left me k threw) b) j = course b j := fun j hj =>
    course_note_of_ne _ b (Ne.symm hj)
  have hthrows : ∀ j, actionThrew (note (.left me k threw) b) j = actionThrew b j := fun j => by
    by_cases hj : k = j
    · rw [actionThrew, course_note_of_eq (.left me k threw) b hj, List.any_append]
      exact Bool.or_false _
    · rw [actionThrew, course_note_of_ne (.left me k threw) b hj, actionThrew]
  constructor
  · exact h.phase_nonneg
  · intro hpos
    rw [hthrows]
    exact h.outcome hpos
  · intro j hj hjlt
    by_cases hjk : j = k
    · subst hjk
      obtain ⟨arrived, returns, outcome, hnone, hended⟩ := h.ended j hj hlt
      have hsome : threw = outcome.isSome := by
        rw [hthrew, actionThrew, hended]
        exact any_isThrow_endedCourse hnone j arrived returns
      refine ⟨arrived, returns ++ [me], outcome, hnone, ?_⟩
      rw [course_note_of_eq (.left me j threw) b (k := j) rfl, hended, hsome, List.map_append]
      exact List.append_assoc _ _ _
    · rw [hcourse j hjk]
      exact h.ended j hj hjlt
  · change course _ b.phaseCount_ = _
    rw [hcourse _ (by omega)]
    exact h.current
  · intro j hj
    change j < 0 ∨ b.phaseCount_ < j at hj
    rw [hcourse j (by omega)]
    exact h.outside j hj

theorem Record.complete (h : Record b arrivals) (hlt : b.phaseCount_ < 2 ^ 63 - 1)
    (outcome : Option ε) :
    Record (completed b outcome) [] ∧ (completed b outcome).phaseCount_ = b.phaseCount_ + 1 := by
  have hnonneg := h.phase_nonneg
  have hphase : (completed b outcome).phaseCount_ = b.phaseCount_ + 1 := by
    change Int.bmod _ _ = _
    rw [Int.bmod_eq_of_le] <;> omega
  have hcourse : ∀ k, k ≠ b.phaseCount_ → course (completed b outcome) k = course b k :=
    fun k hk => by rw [course_completed, if_neg (Ne.symm hk), List.append_nil]
  have hended : course (completed b outcome) b.phaseCount_ =
      endedCourse b.postPhaseAction_ b.phaseCount_ arrivals []
        (if b.postPhaseAction_ then outcome else none) := by
    grind [course_completed, h.current, endedCourse]
  have hnone : b.postPhaseAction_ = false → (if b.postPhaseAction_ then outcome else none) = none :=
    fun haction => by rw [haction]; rfl
  refine ⟨⟨?_, ?_, ?_, ?_, ?_⟩, hphase⟩
  · omega
  · intro hpos
    rw [hphase, Int.add_sub_cancel, actionThrew, hended, any_isThrow_endedCourse hnone]
    rfl
  · intro k hk hklt
    by_cases hkb : k = b.phaseCount_
    · rw [hkb, hended]
      exact ⟨arrivals, [], _, hnone, rfl⟩
    · rw [hcourse k hkb]
      exact h.ended k hk (by omega)
  · rw [hphase, hcourse _ (by omega)]
    exact h.outside _ (by omega)
  · grind [h.outside]

/-! ## The threads -/

/-- The counts say how many threads are awaited, and the threads that have arrived are parked. -/
structure Crowd (w : BarrierWorld ι ε) (arrivals : List ι) : Prop where
  participants_le : w.barrier.participantCount_ ≤ 32767
  remaining_eq : w.barrier.remainingCount_ = w.barrier.participantCount_ - arrivals.length
  remaining_nonneg : 0 ≤ w.barrier.remainingCount_
  /-- Where there are participants, one of them is awaited. -/
  remaining_pos : 0 < w.barrier.participantCount_ → 0 < w.barrier.remainingCount_
  nodup : arrivals.Nodup
  mem_iff : ∀ t, t ∈ arrivals ↔ w.activity t = some (.waiting w.barrier.phaseCount_)
  waiting : ∀ t k, w.activity t = some (.waiting k) → 0 ≤ k ∧ k ≤ w.barrier.phaseCount_

/-- The barrier is followed by the arrivals of the current phase. -/
structure Follows (w : BarrierWorld ι ε) (arrivals : List ι) : Prop where
  record : Record w.barrier arrivals
  crowd : Crowd w arrivals

variable {w : BarrierWorld ι ε}

section Activity

variable [DecidableEq ι] {act : Option BarrierActivity}

theorem waiting_update_iff (hbefore : ∀ k, w.activity me ≠ some (.waiting k))
    (hafter : ∀ k, act ≠ some (.waiting k)) (t : ι) (k : ℤ) :
    update w.activity me act t = some (.waiting k) ↔
      w.activity t = some (.waiting k) := by
  by_cases ht : t = me
  · grind
  · rw [update_of_ne ht]

theorem Crowd.change (h : Crowd w arrivals) (hbefore : ∀ k, w.activity me ≠ some (.waiting k))
    (hafter : ∀ k, act ≠ some (.waiting k)) (hphase : b'.phaseCount_ = w.barrier.phaseCount_)
    (hparticipants : b'.participantCount_ ≤ 32767)
    (hremaining : b'.remainingCount_ - b'.participantCount_ =
      w.barrier.remainingCount_ - w.barrier.participantCount_)
    (hnonneg : 0 ≤ b'.remainingCount_)
    (hpos : 0 < b'.participantCount_ → 0 < b'.remainingCount_) :
    Crowd ⟨b', update w.activity me act⟩ arrivals := by
  have heq := h.remaining_eq
  refine ⟨hparticipants, ?_, hnonneg, hpos, h.nodup, fun t => ?_, fun t k ht => ?_⟩
  · simp
    omega
  · grind [h.mem_iff]
  · rw [hphase]
    exact h.waiting t k ((waiting_update_iff hbefore hafter t k).mp ht)

theorem Crowd.park (h : Crowd w arrivals) (hbefore : ∀ k, w.activity me ≠ some (.waiting k))
    (hphase : b'.phaseCount_ = w.barrier.phaseCount_) (hphase_nonneg : 0 ≤ b'.phaseCount_)
    (hparticipants : b'.participantCount_ = w.barrier.participantCount_)
    (hremaining : b'.remainingCount_ = w.barrier.remainingCount_ - 1)
    (hpos : 0 < b'.remainingCount_) :
    Crowd ⟨b', update w.activity me (some (.waiting b'.phaseCount_))⟩
      (arrivals ++ [me]) := by
  have heq := h.remaining_eq
  have hle := h.participants_le
  have hnotMem : me ∉ arrivals := fun hmem => hbefore _ ((h.mem_iff me).mp hmem)
  refine ⟨hparticipants ▸ hle, ?_, le_of_lt hpos, fun _ => hpos, ?_, fun t => ?_, fun t k ht => ?_⟩
  · simp
    omega
  · exact List.nodup_append.mpr ⟨h.nodup, List.nodup_singleton me,
      fun s hs t ht => fun hst => hnotMem (List.mem_singleton.mp ht ▸ hst ▸ hs)⟩
  · grind [h.mem_iff]
  · change update w.activity me (some (.waiting b'.phaseCount_)) t =
      some (.waiting k) at ht
    by_cases htme : t = me
    · grind
    · rw [update_of_ne htme] at ht
      rw [hphase]
      exact h.waiting t k ht

theorem Crowd.complete (h : Crowd w arrivals) (hbefore : ∀ k, w.activity me ≠ some (.waiting k))
    (hphase : b'.phaseCount_ = w.barrier.phaseCount_ + 1)
    (hparticipants : b'.participantCount_ ≤ 32767) (hnonneg : 0 ≤ b'.participantCount_)
    (hremaining : b'.remainingCount_ = b'.participantCount_) :
    Crowd ⟨b', update w.activity me none⟩ [] := by
  have hnone : ∀ k, (none : Option BarrierActivity) ≠ some (.waiting k) := fun _ => nofun
  have hwaiting : ∀ t k, update w.activity me none t = some (.waiting k) →
      0 ≤ k ∧ k ≤ w.barrier.phaseCount_ := fun t k ht =>
    h.waiting t k ((waiting_update_iff hbefore hnone t k).mp ht)
  refine ⟨hparticipants, ?_, hremaining ▸ hnonneg, fun hpos => hremaining ▸ hpos, List.nodup_nil,
    fun t => ?_, fun t k ht => ?_⟩
  · simp
    omega
  · grind
  · have hle := hwaiting t k ht
    grind

theorem Crowd.resume (h : Crowd w arrivals) {k : ℤ} (hme : w.activity me = some (.waiting k))
    (hlt : k < w.barrier.phaseCount_) (hphase : b'.phaseCount_ = w.barrier.phaseCount_)
    (hparticipants : b'.participantCount_ = w.barrier.participantCount_)
    (hremaining : b'.remainingCount_ = w.barrier.remainingCount_) :
    Crowd ⟨b', update w.activity me none⟩ arrivals := by
  refine ⟨hparticipants ▸ h.participants_le, ?_, hremaining ▸ h.remaining_nonneg, fun hpos => ?_,
    h.nodup, fun t => ?_, fun t j ht => ?_⟩
  · grind [h.remaining_eq]
  · rw [hremaining]
    exact h.remaining_pos (hparticipants ▸ hpos)
  · grind [h.mem_iff]
  · change update w.activity me none t = some (.waiting j) at ht
    by_cases htme : t = me
    · grind
    · rw [update_of_ne htme] at ht
      rw [hphase]
      exact h.waiting t j ht

end Activity

/-! ## What a step under the mutex does -/

def signalled (me : ι) (b : Barrier ι ε) : Barrier ι ε :=
  note (.arrived me b.phaseCount_) { b with remainingCount_ := b.remainingCount_ - 1 }

def removed (b : Barrier ι ε) : Barrier ι ε :=
  { b with
    participantCount_ := b.participantCount_ - 1
    remainingCount_ := b.remainingCount_ - 1 }

def added (b : Barrier ι ε) : Barrier ι ε :=
  { b with
    participantCount_ := b.participantCount_ + 1
    remainingCount_ := b.remainingCount_ + 1 }

section Steps

variable [DecidableEq ι]

theorem after_signalAndWait (w : BarrierWorld ι ε) (me : ι) (outcome : Option ε) :
    w.after me .signalAndWait (signalAndWait me outcome w.barrier) =
      if w.barrier.participantCount_ = 0 then w.finish me w.barrier
      else if w.barrier.remainingCount_ - 1 = 0 then
        w.leave me w.barrier.phaseCount_
          (completed (signalled me w.barrier) outcome).lastPostPhaseException_.isSome
          (completed (signalled me w.barrier) outcome)
      else ⟨signalled me w.barrier,
        update w.activity me (some (.waiting w.barrier.phaseCount_))⟩ := by
  rw [signalAndWait, get_bind]
  by_cases hnone : w.barrier.participantCount_ = 0
  · rw [if_pos hnone, if_pos hnone]
    rfl
  rw [if_neg hnone, if_neg hnone, modify_bind, get_bind]
  change w.after me .signalAndWait
    ((if w.barrier.remainingCount_ - 1 = 0 then _ else _ :
      BarrierProgram ι ε (Option ℤ)) (signalled me w.barrier)) = _
  by_cases hlast : w.barrier.remainingCount_ - 1 = 0
  · rw [if_pos hlast, if_pos hlast]
    have hfinish := finishPhase_eq me outcome (signalled me w.barrier)
    cases hthrown : (completed (signalled me w.barrier) outcome).lastPostPhaseException_ with
    | some e =>
      rw [hthrown] at hfinish
      rw [bind_error hfinish]
      rfl
    | none =>
      rw [hthrown] at hfinish
      rw [bind_ok hfinish]
      rfl
  · rw [if_neg hlast, if_neg hlast]
    rfl

theorem after_addParticipant (w : BarrierWorld ι ε) (me : ι) (outcome : Option ε) :
    w.after me .addParticipant (BarrierCall.addParticipant.body me outcome w.barrier) =
      w.finish me (if 32767 ≤ w.barrier.participantCount_ then w.barrier else added w.barrier) := by
  by_cases hfull : 32767 ≤ w.barrier.participantCount_
  · have hcall : ∃ message, addParticipant w.barrier =
        .error (.invalidOperation message) w.barrier := by
      rw [addParticipant, get_bind, if_pos hfull]
      exact ⟨_, rfl⟩
    obtain ⟨message, hcall⟩ := hcall
    rw [if_pos hfull, BarrierCall.body, bind_error hcall]
    rfl
  · have hcall : addParticipant w.barrier =
        .ok (w.barrier.participantCount_ + 1) (added w.barrier) := by
      rw [addParticipant, get_bind, if_neg hfull]
      rfl
    rw [if_neg hfull, BarrierCall.body, bind_ok hcall]
    rfl

theorem after_removeParticipant (w : BarrierWorld ι ε) (me : ι) (outcome : Option ε) :
    w.after me .removeParticipant (BarrierCall.removeParticipant.body me outcome w.barrier) =
      w.finish me
        (if w.barrier.participantCount_ = 0 ∨ w.barrier.remainingCount_ = 0 then w.barrier
        else if w.barrier.remainingCount_ - 1 = 0 then completed (removed w.barrier) outcome
        else removed w.barrier) := by
  rw [BarrierCall.body]
  by_cases hnone : w.barrier.participantCount_ = 0
  · have hcall : removeParticipant me outcome w.barrier =
        .error (.argumentOutOfRange "participantCount") w.barrier := by
      rw [removeParticipant, get_bind, if_pos hnone]
      rfl
    rw [if_pos (Or.inl hnone), bind_error hcall]
    rfl
  by_cases hzero : w.barrier.remainingCount_ = 0
  · have hcall : ∃ message, removeParticipant me outcome w.barrier =
        .error (.invalidOperation message) w.barrier := by
      rw [removeParticipant, get_bind, if_neg hnone, get_bind, if_pos hzero]
      exact ⟨_, rfl⟩
    obtain ⟨message, hcall⟩ := hcall
    rw [if_pos (Or.inr hzero), bind_error hcall]
    rfl
  have hcall : removeParticipant me outcome w.barrier =
      if w.barrier.remainingCount_ - 1 = 0 then finishPhase me outcome (removed w.barrier)
      else .ok ⟨⟩ (removed w.barrier) := by
    rw [removeParticipant, get_bind, if_neg hnone, get_bind, if_neg hzero, modify_bind, get_bind]
    split <;> rfl
  rw [if_neg (not_or.mpr ⟨hnone, hzero⟩)]
  by_cases hlast : w.barrier.remainingCount_ - 1 = 0
  · rw [if_pos hlast, finishPhase_eq] at hcall
    rw [if_pos hlast]
    cases hthrown : (completed (removed w.barrier) outcome).lastPostPhaseException_ with
    | some e =>
      rw [hthrown] at hcall
      rw [bind_error hcall]
      rfl
    | none =>
      rw [hthrown] at hcall
      rw [bind_ok hcall]
      rfl
  · rw [if_neg hlast] at hcall
    rw [if_neg hlast, bind_ok hcall]
    rfl

omit [DecidableEq ι] in
theorem wake_eq (b : Barrier ι ε) :
    wake b = match b.lastPostPhaseException_ with
      | some e => .error (.barrierPostPhase e) b
      | none => .ok ⟨⟩ b := by
  rw [wake, get_bind]
  cases b.lastPostPhaseException_ <;> rfl

theorem after_enter (me : ι) (b : Barrier ι ε) : after (Barrier.enter me b) = b := by
  obtain ⟨p, r, n, action, last, caller, disposed, history⟩ := b
  cases disposed with
  | true => rfl
  | false =>
    change after (throwIfCalledFromPostPhaseAction me _) = _
    rw [throwIfCalledFromPostPhaseAction, get_bind]
    split <;> rfl

end Steps

/-! ## Steps -/

theorem Crowd.finite_ncard (h : Crowd w arrivals) :
    (parked w).Finite ∧ (parked w).ncard = arrivals.length := by
  classical
  have hparked : parked w = (arrivals.toFinset : Set ι) := by
    ext t
    exact (h.mem_iff t).symm.trans List.mem_toFinset.symm
  rw [hparked, Set.ncard_coe_finset, List.toFinset_card_of_nodup h.nodup]
  exact ⟨arrivals.toFinset.finite_toSet, rfl⟩

theorem Crowd.completes_iff (h : Crowd w arrivals) (me : ι) (outcome : Option ε) :
    Completes w (.proceed me outcome) ↔ w.barrier.remainingCount_ = 1 ∧
      (w.activity me = some (.entered .signalAndWait) ∨
        w.activity me = some (.entered .removeParticipant)) := by
  have heq := h.remaining_eq
  rw [Completes, h.finite_ncard.2]
  constructor
  · grind
  · grind

variable {w' : BarrierWorld ι ε} {action : BarrierAction ι ε}

theorem advances_of_same
    (hphase : w'.barrier.phaseCount_ = w.barrier.phaseCount_) (hnot : ¬Completes w action) :
    Advances w action w' :=
  ⟨Or.inl hphase, iff_of_false (by omega) hnot⟩

theorem advances_of_next
    (hphase : w'.barrier.phaseCount_ = w.barrier.phaseCount_ + 1) (h : Completes w action) :
    Advances w action w' :=
  ⟨Or.inr hphase, iff_of_true hphase h⟩

def Keeps (w : BarrierWorld ι ε) (action : BarrierAction ι ε) (w' : BarrierWorld ι ε) : Prop :=
  (∃ arrivals, Follows w' arrivals) ∧ Advances w action w'

section Steps

variable [DecidableEq ι] {outcome : Option ε}

variable {action : BarrierAction ι ε}

theorem Follows.quiet {act : Option BarrierActivity}
    (h : Follows w arrivals) (hbefore : ∀ k, w.activity me ≠ some (.waiting k))
    (hafter : ∀ k, act ≠ some (.waiting k)) (hnot : ¬Completes w action)
    (hrecord : Record b' arrivals) (hphase : b'.phaseCount_ = w.barrier.phaseCount_)
    (hparticipants : b'.participantCount_ ≤ 32767)
    (hremaining : b'.remainingCount_ - b'.participantCount_ =
      w.barrier.remainingCount_ - w.barrier.participantCount_)
    (hnonneg : 0 ≤ b'.remainingCount_)
    (hpos : 0 < b'.participantCount_ → 0 < b'.remainingCount_) :
    Keeps w action ⟨b', update w.activity me act⟩ :=
  ⟨⟨arrivals, hrecord, h.crowd.change hbefore hafter hphase hparticipants hremaining hnonneg hpos⟩,
    advances_of_same hphase hnot⟩

theorem Follows.signal (h : Follows w arrivals)
    (hentered : w.activity me = some (.entered .signalAndWait))
    (htimely : Timely w (.proceed me outcome)) :
    Keeps w (.proceed me outcome)
      (w.after me .signalAndWait (signalAndWait me outcome w.barrier)) := by
  have hcrowd := h.crowd
  have hbefore : ∀ k, w.activity me ≠ some (.waiting k) := fun k hk => by
    rw [hentered] at hk
    cases hk
  have hnone : ∀ k, (none : Option BarrierActivity) ≠ some (.waiting k) := fun _ => nofun
  have hcompletes := hcrowd.completes_iff me outcome
  have hremaining := hcrowd.remaining_eq
  have hphase_nonneg := h.record.phase_nonneg
  rw [after_signalAndWait]
  by_cases hzero : w.barrier.participantCount_ = 0
  · rw [if_pos hzero]
    have hnonneg := hcrowd.remaining_nonneg
    exact h.quiet hbefore hnone (fun hc => absurd (hcompletes.mp hc).1 (by omega)) h.record rfl
      hcrowd.participants_le rfl hnonneg hcrowd.remaining_pos
  rw [if_neg hzero]
  have hnonneg := hcrowd.remaining_nonneg
  have hpos := hcrowd.remaining_pos (by omega)
  have hsignalled : Record (signalled me w.barrier) (arrivals ++ [me]) :=
    (h.record.congr rfl rfl rfl rfl : Record
      { w.barrier with remainingCount_ := w.barrier.remainingCount_ - 1 } arrivals).arrive me
  by_cases hlast : w.barrier.remainingCount_ - 1 = 0
  · rw [if_pos hlast]
    obtain ⟨hrecord, hphase⟩ := hsignalled.complete (htimely (by omega)) outcome
    have hphase : (completed (signalled me w.barrier) outcome).phaseCount_ =
      w.barrier.phaseCount_ + 1 := hphase
    have houtcome := hrecord.outcome (by omega)
    rw [hphase, Int.add_sub_cancel] at houtcome
    refine ⟨⟨[], hrecord.leave hphase_nonneg (by omega) houtcome me,
      hcrowd.complete hbefore hphase hcrowd.participants_le ?_ rfl⟩,
      advances_of_next hphase (hcompletes.mpr ⟨by omega, Or.inl hentered⟩)⟩
    change 0 ≤ w.barrier.participantCount_
    omega
  · rw [if_neg hlast]
    refine ⟨⟨arrivals ++ [me], hsignalled, hcrowd.park hbefore rfl hphase_nonneg rfl rfl ?_⟩,
      advances_of_same rfl fun hc => absurd (hcompletes.mp hc).1 (by omega)⟩
    change 0 < w.barrier.remainingCount_ - 1
    omega

theorem Follows.add (h : Follows w arrivals)
    (hentered : w.activity me = some (.entered .addParticipant)) :
    Keeps w (.proceed me outcome)
      (w.after me .addParticipant (BarrierCall.addParticipant.body me outcome w.barrier)) := by
  have hcrowd := h.crowd
  have hbefore : ∀ k, w.activity me ≠ some (.waiting k) := fun k hk => by
    rw [hentered] at hk
    cases hk
  have hnone : ∀ k, (none : Option BarrierActivity) ≠ some (.waiting k) := fun _ => nofun
  have hnot : ¬Completes w (.proceed me outcome) := fun hc => by
    have hother := ((hcrowd.completes_iff me outcome).mp hc).2
    rw [hentered] at hother
    obtain hother | hother := hother <;> cases hother
  rw [after_addParticipant]
  by_cases hfull : 32767 ≤ w.barrier.participantCount_
  · rw [if_pos hfull]
    exact h.quiet hbefore hnone hnot h.record rfl hcrowd.participants_le rfl
      hcrowd.remaining_nonneg hcrowd.remaining_pos
  · rw [if_neg hfull]
    have hnonneg := hcrowd.remaining_nonneg
    have hrecord : Record (added w.barrier) arrivals := h.record.congr rfl rfl rfl rfl
    refine h.quiet hbefore hnone hnot hrecord rfl ?_ ?_ ?_ fun _ => ?_
    · change w.barrier.participantCount_ + 1 ≤ 32767
      omega
    · change w.barrier.remainingCount_ + 1 - (w.barrier.participantCount_ + 1) = _
      omega
    · change 0 ≤ w.barrier.remainingCount_ + 1
      omega
    · change 0 < w.barrier.remainingCount_ + 1
      omega

theorem Follows.remove (h : Follows w arrivals)
    (hentered : w.activity me = some (.entered .removeParticipant))
    (htimely : Timely w (.proceed me outcome)) :
    Keeps w (.proceed me outcome)
      (w.after me .removeParticipant
        (BarrierCall.removeParticipant.body me outcome w.barrier)) := by
  have hcrowd := h.crowd
  have hbefore : ∀ k, w.activity me ≠ some (.waiting k) := fun k hk => by
    rw [hentered] at hk
    cases hk
  have hnone : ∀ k, (none : Option BarrierActivity) ≠ some (.waiting k) := fun _ => nofun
  have hcompletes := hcrowd.completes_iff me outcome
  have hle := hcrowd.participants_le
  have hremaining := hcrowd.remaining_eq
  have hnonneg := hcrowd.remaining_nonneg
  rw [after_removeParticipant]
  by_cases hzero : w.barrier.participantCount_ = 0 ∨ w.barrier.remainingCount_ = 0
  · rw [if_pos hzero]
    exact h.quiet hbefore hnone (fun hc => absurd (hcompletes.mp hc).1 (by omega)) h.record rfl
      hle rfl hnonneg hcrowd.remaining_pos
  rw [if_neg hzero]
  have hrecord : Record (removed w.barrier) arrivals := h.record.congr rfl rfl rfl rfl
  by_cases hlast : w.barrier.remainingCount_ - 1 = 0
  · rw [if_pos hlast]
    obtain ⟨hrecord, hphase⟩ := hrecord.complete (htimely (by omega)) outcome
    refine ⟨⟨[], hrecord, hcrowd.complete hbefore hphase ?_ ?_ rfl⟩,
      advances_of_next hphase (hcompletes.mpr ⟨by omega, Or.inr hentered⟩)⟩
    · change w.barrier.participantCount_ - 1 ≤ 32767
      omega
    · change 0 ≤ w.barrier.participantCount_ - 1
      omega
  · rw [if_neg hlast]
    refine h.quiet hbefore hnone (fun hc => absurd (hcompletes.mp hc).1 (by omega)) hrecord rfl
      ?_ ?_ ?_ fun _ => ?_
    · change w.barrier.participantCount_ - 1 ≤ 32767
      omega
    · change w.barrier.remainingCount_ - 1 - (w.barrier.participantCount_ - 1) = _
      omega
    · change 0 ≤ w.barrier.remainingCount_ - 1
      omega
    · change 0 < w.barrier.remainingCount_ - 1
      omega

theorem Follows.resume (h : Follows w arrivals) {k : ℤ}
    (hwaiting : w.activity me = some (.waiting k)) (hended : k < w.barrier.phaseCount_)
    (htimely : Timely w (.resume me)) :
    Keeps w (.resume me)
      (w.leave me k w.barrier.lastPostPhaseException_.isSome w.barrier) := by
  have hnonneg := (h.crowd.waiting me k hwaiting).1
  have hsame : actionThrew w.barrier (w.barrier.phaseCount_ - 1) = actionThrew w.barrier k := by
    rw [Timely, hwaiting] at htimely
    exact htimely
  have hthrew := (h.record.outcome (by omega)).trans hsame
  exact ⟨⟨arrivals, h.record.leave hnonneg hended hthrew me,
    h.crowd.resume hwaiting hended rfl rfl rfl⟩, advances_of_same rfl id⟩

/-- Only a waiter whose phase has ended takes a turn. -/
theorem step_resume {w' : BarrierWorld ι ε} (hstep : step w (.resume me) = some w') :
    ∃ k, w.activity me = some (.waiting k) ∧ k < w.barrier.phaseCount_ ∧
      w' = w.leave me k w.barrier.lastPostPhaseException_.isSome w.barrier := by
  rw [step] at hstep
  cases hme : w.activity me with
  | none =>
    rw [hme] at hstep
    cases hstep
  | some activity =>
    rw [hme] at hstep
    cases activity with
    | entered function => cases hstep
    | waiting k =>
      dsimp only at hstep
      by_cases hended : Barrier.ended k w.barrier = true
      · rw [if_pos hended, wake_eq] at hstep
        refine ⟨k, rfl, of_decide_eq_true hended, ?_⟩
        cases hlast : w.barrier.lastPostPhaseException_ <;> grind
      · grind

theorem keeps_step {w' : BarrierWorld ι ε} (h : Follows w arrivals)
    (htimely : Timely w action) (hstep : step w action = some w') : Keeps w action w' := by
  have hcrowd := h.crowd
  cases action with
  | call me function =>
    rw [step] at hstep
    cases hme : w.activity me with
    | some activity =>
      rw [hme] at hstep
      cases hstep
    | none =>
      rw [hme] at hstep
      have hbefore : ∀ k, w.activity me ≠ some (.waiting k) := fun k hk => by
        rw [hme] at hk
        cases hk
      have hchecks := after_enter me w.barrier
      have hquiet : ∀ act, (∀ k, act ≠ some (BarrierActivity.waiting k)) →
          Keeps w (.call me function) ⟨w.barrier, update w.activity me act⟩ :=
        fun act hact => h.quiet hbefore hact id h.record rfl hcrowd.participants_le rfl
          hcrowd.remaining_nonneg hcrowd.remaining_pos
      cases hresult : Barrier.enter me w.barrier with
      | ok a b =>
        rw [hresult] at hstep hchecks
        obtain rfl : b = w.barrier := hchecks
        grind
      | error e b =>
        rw [hresult] at hstep hchecks
        obtain rfl : b = w.barrier := hchecks
        cases hstep
        exact hquiet _ fun _ => nofun
  | proceed me outcome =>
    rw [step] at hstep
    cases hme : w.activity me with
    | none =>
      rw [hme] at hstep
      cases hstep
    | some activity =>
      rw [hme] at hstep
      cases activity with
      | waiting k => cases hstep
      | entered function =>
        cases hstep
        cases function with
        | signalAndWait => exact h.signal hme htimely
        | addParticipant => exact h.add hme
        | removeParticipant => exact h.remove hme htimely
  | resume me =>
    obtain ⟨k, hme, hended, rfl⟩ := step_resume hstep
    exact h.resume hme hended htimely
  | dispose me =>
    rw [step] at hstep
    cases hme : w.activity me with
    | some activity =>
      rw [hme] at hstep
      cases hstep
    | none =>
      rw [hme] at hstep
      cases hstep
      have hbefore : ∀ k, w.activity me ≠ some (.waiting k) := fun k hk => by
        rw [hme] at hk
        cases hk
      obtain ⟨disposed, hdispose⟩ : ∃ disposed,
          after (dispose me w.barrier) = { w.barrier with disposed_ := disposed } := by
        rw [dispose, throwIfCalledFromPostPhaseAction]
        by_cases hcaller : w.barrier.actionCallerId_ = some me
        · refine ⟨w.barrier.disposed_, ?_⟩
          rw [bind_error (by rw [get_bind, if_pos hcaller]; rfl)]
          rfl
        · refine ⟨true, ?_⟩
          rw [bind_ok (by rw [get_bind, if_neg hcaller]; rfl)]
          rfl
      rw [BarrierWorld.finish, hdispose]
      have hrecord : Record { w.barrier with disposed_ := disposed } arrivals :=
        h.record.congr rfl rfl rfl rfl
      exact h.quiet hbefore (fun _ => nofun) id hrecord rfl hcrowd.participants_le rfl
        hcrowd.remaining_nonneg hcrowd.remaining_pos

end Steps

/-! ## Runs -/

theorem Follows.phased (h : Follows w arrivals) : Phased w := by
  have hcrowd := h.crowd
  have heq := hcrowd.remaining_eq
  refine ⟨⟨hcrowd.remaining_nonneg, by omega⟩, ⟨hcrowd.finite_ncard.1, ?_⟩, h.record.ended,
    ⟨arrivals, h.record.current⟩, h.record.outside⟩
  rw [hcrowd.finite_ncard.2]
  exact heq

theorem threw_eq_of_phased (h : Phased w) (hnonneg : 0 ≤ k)
    (hlt : k < w.barrier.phaseCount_) (hmem : .left me k threw ∈ course w.barrier k) :
    threw = actionThrew w.barrier k := by
  obtain ⟨arrived, returns, outcome, hnone, hended⟩ := h.ended k hnonneg hlt
  have hany : actionThrew w.barrier k = outcome.isSome := by
    rw [actionThrew, hended]
    exact any_isThrow_endedCourse hnone k arrived returns
  rw [hended] at hmem
  rw [hany]
  cases hact : w.barrier.postPhaseAction_ <;> simp [hact] at hmem <;> exact hmem.2.symm

/-- A waiter whose turn comes while the outcome of the last phase differs from that of its own
returns as it should not. -/
theorem Follows.resumes_wrongly [DecidableEq ι] {w' : BarrierWorld ι ε} (h : Follows w arrivals)
    (huntimely : ¬Timely w (.resume me)) (hstep : step w (.resume me) = some w') : ¬Phased w' := by
  obtain ⟨k, hwaiting, hended, rfl⟩ := step_resume hstep
  rw [Timely, hwaiting] at huntimely
  intro hphased
  have hnonneg := (h.crowd.waiting me k hwaiting).1
  have hthrew := threw_eq_of_phased hphased hnonneg hended
    (List.mem_filter.mpr ⟨List.mem_append_right _ (List.mem_singleton_self _), decide_eq_true rfl⟩)
  have hsame : actionThrew (note (.left me k w.barrier.lastPostPhaseException_.isSome) w.barrier) k =
      actionThrew w.barrier k := by
    rw [actionThrew, course_note_of_eq (.left me k _) w.barrier (k := k) rfl, List.any_append]
    exact Bool.or_false _
  exact huntimely ((h.record.outcome (by omega)).symm.trans (hthrew.trans hsame))

theorem follows_start {participantCount : ℤ}
    (hnew : Barrier.new participantCount postPhaseAction = .ok b) : Follows (start b) [] := by
  rw [Barrier.new] at hnew
  by_cases hrange : participantCount < 0 ∨ 32767 < participantCount
  · rw [if_pos hrange] at hnew
    cases hnew
  · rw [if_neg hrange] at hnew
    cases hnew
    refine ⟨⟨le_refl _, fun hpos => absurd hpos (lt_irrefl _), fun k hk hlt => ?_, rfl,
      fun _ _ => rfl⟩, ⟨?_, (Int.sub_zero _).symm, ?_, id, List.nodup_nil,
      fun t => iff_of_false List.not_mem_nil nofun, fun t k ht => nomatch ht⟩⟩
    · change k < 0 at hlt
      omega
    · change participantCount ≤ 32767
      omega
    · change 0 ≤ participantCount
      omega

variable [DecidableEq ι]

/-- **Phases**: in whatever order any number of threads take their steps, if every waiter is given
its turn while the action of the phase that ended last has ended as that of its own phase has, then
the counts say how many threads are awaited, the phase number increases by one exactly when every
participant has arrived or been removed, and every phase runs its course: the arrivals, one run of
the action, the end, and the returns, which throw exactly if the action has thrown.  After the turn
of a waiter for which the condition does not hold this is no longer so. -/
theorem phased_of_timely {participantCount : ℤ} {postPhaseAction : Bool} {b : Barrier ι ε}
    (hnew : Barrier.new participantCount postPhaseAction = .ok b)
    (actions : List (BarrierAction ι ε)) {w : BarrierWorld ι ε}
    (htimely : Along step Timely (start b) actions)
    (hrun : run step (start b) actions = some w) :
    Phased w ∧
      (∀ action w', Timely w action → step w action = some w' → Advances w action w') ∧
      ∀ me w', ¬Timely w (.resume me) → step w (.resume me) = some w' → ¬Phased w' := by
  have hfollowed : ∃ arrivals, Follows w arrivals :=
    run_holds_along (I := fun w => ∃ arrivals, Follows w arrivals)
      (fun _ _ _ ⟨_, h⟩ hmeets hstep => (keeps_step h hmeets hstep).1) actions
      ⟨[], follows_start hnew⟩ htimely hrun
  obtain ⟨arrivals, h⟩ := hfollowed
  exact ⟨h.phased, fun _ _ hmeets hstep => (keeps_step h hmeets hstep).2,
    fun _ _ => h.resumes_wrongly⟩

/-- The action of the first phase throws; the thread that was parked returns from it while the second
phase is under way. -/
theorem phased_of_timely_one :
    ∃ w : BarrierWorld Bool Unit,
      course w.barrier 0 = [.arrived true 0, .arrived false 0, .acted 0 (some ()), .advanced 0,
        .left false 0 true, .left true 0 true] ∧
      Phased w ∧
      (∀ action w', Timely w action → step w action = some w' → Advances w action w') ∧
      ∀ me w', ¬Timely w (.resume me) → step w (.resume me) = some w' → ¬Phased w' :=
  ⟨_, rfl, phased_of_timely (show Barrier.new 2 true = .ok _ from rfl)
    [.call true .signalAndWait, .proceed true none, .call false .signalAndWait,
      .proceed false (some ()), .call false .signalAndWait, .proceed false none, .resume true]
    (by decide) rfl⟩

/-- One of two threads is parked in the first phase.  The other ends that phase, whose action does
not throw, takes its leave as a participant of the next, and ends the second phase, whose action
throws; only then does the first thread go on. -/
theorem not_phased :
    ∃ (actions : List (BarrierAction Bool Unit)) (b : Barrier Bool Unit)
      (w : BarrierWorld Bool Unit), Barrier.new 2 true = .ok b ∧
        run step (start b) actions = some w ∧ ¬Phased w := by
  refine ⟨[.call true .signalAndWait, .proceed true none, .call false .signalAndWait,
    .proceed false none, .call false .removeParticipant, .proceed false none,
    .call false .signalAndWait, .proceed false (some ()), .resume true], _, _, rfl, rfl, ?_⟩
  intro hphased
  have hthrew : true = actionThrew _ 0 := threw_eq_of_phased hphased (by decide) (by decide)
    (show BarrierEvent.left true 0 true ∈ _ by decide)
  cases hthrew

end SharpRuntime.Analysis.BarrierPhases
