import SharpRuntime.Interface.ChannelHistory

/-!
# A channel loses no wake-up

Three predicates are waited for, on two condition variables.  Reading and completing notify both
variables.  A write notifies only the readers' variable: while a writer waits, a write leaves the
state as it is (`tryWrite_of_not_ready`).  A reader that is counted on a rendezvous channel notifies
the writers' variable, and one that leaves can make no predicate true.
-/

set_option autoImplicit false

namespace SharpRuntime.Analysis.ChannelWakeups

open Machine Monitor Model
open ChannelWriterImpl
open Wakes

variable {ι τ ε : Type}

theorem on_mem_both (k : ChannelWait) :
    ((channel τ ε).waiting k).on ∈ [ConditionVariable.notFull, .notEmpty] ∧
      ((channel τ ε).waiting k).on ∈ [ConditionVariable.notEmpty, .notFull] := by
  generalize ((channel τ ε).waiting k).on = v
  cases v <;> exact ⟨by decide, by decide⟩

/-- While a writer would have to wait, `tryWrite` changes nothing. -/
theorem tryWrite_of_not_ready {s : ChannelState τ ε}
    (h : (waitToWriteAsync (τ := τ) (ε := ε)).ready s = false) (item : τ) :
    (tryWrite s item).1 = s := by
  dsimp only [waitToWriteAsync] at h
  rw [Bool.or_eq_false_iff, Bool.or_eq_false_iff, decide_eq_false_iff_not, not_not] at h
  obtain ⟨⟨hclosed, hmode⟩, hroom⟩ := h
  rw [tryWrite, hclosed, if_neg Bool.false_ne_true]
  by_cases hmeets : s.isRendezvous = true
  · grind
  · grind [makeRoom]

theorem tryWrite_notifies (s : ChannelState τ ε) (item : τ) :
    (tryWrite s item).1 = s ∨
      (tryWrite s item).2.1 = [.notEmpty] := by
  rw [tryWrite]
  split
  · exact .inl rfl
  · grind

theorem channel_notifies : Notifies (channel τ ε) fun _ => True where
  call a s _ := by
    cases a with
    | tryRead =>
      dsimp only [channel, ChannelReaderImpl.tryRead]
      split
      · exact refl _ _
      · exact of_all (fun k => (on_mem_both k).1) _ _
    | tryWrite item =>
      dsimp only [channel]
      rcases tryWrite_notifies s item with hstate | hvars
      · rw [hstate]
        exact refl _ _
      · intro k hnot hready
        rw [hvars]
        cases k with
        | waitToReadAsync => exact List.mem_singleton.mpr rfl
        | waitToWriteAsync =>
          rw [tryWrite_of_not_ready hnot item, hnot] at hready
          cases hready
        | completion => exact List.mem_singleton.mpr rfl
    | tryComplete error =>
      dsimp only [channel, tryComplete]
      split
      · exact refl _ _
      · exact of_all (fun k => (on_mem_both k).2) _ _
  enter k s s' vars _ henter := by
    cases k with
    | waitToReadAsync =>
      dsimp only [channel, ChannelReaderImpl.waitToReadAsync] at henter
      split at henter
      · split at henter
        · obtain ⟨rfl, rfl⟩ := Prod.mk.inj (Option.some.inj henter)
          -- the count is read by the writers' predicate alone
          intro k hnot hready
          cases k with
          | waitToReadAsync => exact absurd hready (by rw [Bool.not_eq_true]; exact hnot)
          | waitToWriteAsync => exact List.mem_singleton.mpr rfl
          | completion => exact absurd hready (by rw [Bool.not_eq_true]; exact hnot)
        · cases henter
      · grind [Wakes.refl]
    | waitToWriteAsync =>
      obtain ⟨rfl, rfl⟩ := Prod.mk.inj (Option.some.inj henter)
      exact Wakes.refl _ _
    | completion =>
      obtain ⟨rfl, rfl⟩ := Prod.mk.inj (Option.some.inj henter)
      exact refl _ _
  leave k s _ _ := by
    cases k with
    | waitToReadAsync =>
      dsimp only [channel, ChannelReaderImpl.waitToReadAsync]
      split
      · rename_i hmeets
        intro k hnot hready
        cases k with
        | waitToReadAsync => exact absurd hready (by rw [Bool.not_eq_true]; exact hnot)
        | waitToWriteAsync =>
          -- a peer that is there without the reader is there with it
          exfalso
          dsimp only [channel, waitToWriteAsync] at hnot hready
          have hmeets' : ChannelState.isRendezvous
              { s with waitingReaders := s.waitingReaders - 1 } = true := hmeets
          rw [if_pos hmeets, Bool.or_eq_false_iff] at hnot
          rw [if_pos hmeets', hnot.1, Bool.false_or, ChannelState.hasWaitingPeer,
            decide_eq_true_eq] at hready
          rw [ChannelState.hasWaitingPeer, decide_eq_false_iff_not] at hnot
          exact hnot.2 (hready.trans (by dsimp only; omega))
        | completion => exact absurd hready (by rw [Bool.not_eq_true]; exact hnot)
      · exact refl _ _
    | waitToWriteAsync => exact refl _ _
    | completion => exact refl _ _

theorem prioritized_on (k : ChannelWait) :
    ((prioritizedChannel τ ε).waiting k).on ∈ [ConditionVariable.notEmpty] := by
  cases k <;> exact List.mem_singleton.mpr rfl

theorem prioritized_notifies : Notifies (prioritizedChannel τ ε) fun _ => True where
  call a s _ := by
    cases a with
    | tryRead =>
      dsimp only [prioritizedChannel, PrioritizedChannelReaderImpl.tryRead]
      split
      · exact refl _ _
      · exact of_all prioritized_on _ _
    | tryWrite item =>
      dsimp only [prioritizedChannel, PrioritizedChannelWriterImpl.tryWrite]
      split
      · exact refl _ _
      · exact of_all prioritized_on _ _
    | tryComplete error =>
      dsimp only [prioritizedChannel, PrioritizedChannelWriterImpl.tryComplete]
      split
      · exact refl _ _
      · exact of_all prioritized_on _ _
  enter k s s' vars _ henter := by
    have hsame : s' = s := by
      cases k <;> exact (Prod.mk.inj (Option.some.inj henter)).1.symm
    rw [hsame]
    exact refl _ _
  leave k s _ _ := by
    cases k <;> exact refl _ _

theorem keeps_true {σ α κ ν ρ : Type} (m : Monitor σ α κ ν ρ) : Keeps m fun _ => True :=
  ⟨fun _ _ _ => trivial, fun _ _ _ _ _ _ => trivial, fun _ _ _ _ => trivial⟩

/-- **No waiter misses its wake-up**: whatever the clients of a channel do, whatever its capacity and
its mode, and whatever state it began in, nobody is parked on a true predicate without its variable
having been notified since it parked; and so for a prioritized channel, whatever its comparer. -/
theorem no_lost_wakeup :
    (∀ (s : ChannelState τ ε)
      (ts : List (Transition (ChannelState τ ε) ι (ChannelCall τ ε) ChannelWait (Reply τ ε)))
      (w : World (ChannelState τ ε) ι ChannelWait),
      Trace (channel τ ε) s ts w → (channel τ ε).NoLostWakeup w) ∧
    (∀ (s : PrioritizedChannelState τ ε)
      (ts : List (Transition (PrioritizedChannelState τ ε) ι (ChannelCall τ ε) ChannelWait
        (Reply τ ε)))
      (w : World (PrioritizedChannelState τ ε) ι ChannelWait),
      Trace (prioritizedChannel τ ε) s ts w → (prioritizedChannel τ ε).NoLostWakeup w) :=
  ⟨fun _ _ _ htrace => htrace.noLostWakeup (keeps_true _) channel_notifies trivial,
    fun _ _ _ htrace => htrace.noLostWakeup (keeps_true _) prioritized_notifies trivial⟩

/-- A reader parks on an empty channel and is notified by the write that follows. -/
theorem no_lost_wakeup_written :
    ∃ (ts : List (Transition (ChannelState ℕ ℕ) ℕ (ChannelCall ℕ ℕ) ChannelWait (Reply ℕ ℕ)))
      (w : World (ChannelState ℕ ℕ) ℕ ChannelWait),
      Trace (channel ℕ ℕ) Channel.createUnbounded ts w ∧
      w.parked = [⟨0, .waitToReadAsync, true⟩] ∧ (channel ℕ ℕ).NoLostWakeup w := by
  have hparked := (Trace.start (m := channel ℕ ℕ) (s := Channel.createUnbounded)).snoc
    (Step.park (c := 0) .waitToReadAsync List.not_mem_nil rfl rfl)
  have hwritten := hparked.snoc (Step.call (c := 1) (.tryWrite 7) (by decide))
  exact ⟨_, _, hwritten, rfl, no_lost_wakeup.1 _ _ _ hwritten⟩

end SharpRuntime.Analysis.ChannelWakeups

/-!
# A channel delivers in order

A channel that buffers, whatever its clients do and in whatever order, holds what the buffer of its
capacity and mode holds (`content_eq`).  What was accepted and what was delivered follow by
induction on the trace: in the modes that give nothing up they differ by the queue, and in every
mode nothing is delivered twice or out of order.
-/

namespace SharpRuntime.Analysis.ChannelDelivery

open Machine Monitor Interface Model

variable {ι τ ε : Type}

variable {s : ChannelState τ ε}

variable {k : ChannelWait}

theorem enter_frame {s' : ChannelState τ ε} {vars : List ConditionVariable}
    (h : ((channel τ ε).waiting k).enter s = some (s', vars)) :
    ∃ n, s' = { s with waitingReaders := n } := by
  cases k with
  | waitToReadAsync =>
    dsimp only [channel, ChannelReaderImpl.waitToReadAsync] at h
    split at h
    · grind
    · obtain ⟨rfl, -⟩ := Prod.mk.inj (Option.some.inj h)
      exact ⟨s.waitingReaders, rfl⟩
  | waitToWriteAsync =>
    obtain ⟨rfl, -⟩ := Prod.mk.inj (Option.some.inj h)
    exact ⟨s.waitingReaders, rfl⟩
  | completion =>
    obtain ⟨rfl, -⟩ := Prod.mk.inj (Option.some.inj h)
    exact ⟨s.waitingReaders, rfl⟩

theorem leave_frame (k : ChannelWait) (s : ChannelState τ ε) :
    ∃ n, (((channel τ ε).waiting k).leave s).1 = { s with waitingReaders := n } := by
  cases k with
  | waitToReadAsync =>
    dsimp only [channel, ChannelReaderImpl.waitToReadAsync]
    split
    · exact ⟨_, rfl⟩
    · exact ⟨s.waitingReaders, rfl⟩
  | waitToWriteAsync => exact ⟨s.waitingReaders, rfl⟩
  | completion => exact ⟨s.waitingReaders, rfl⟩

variable {w w' : World (ChannelState τ ε) ι ChannelWait} {e : ChannelEvent ι τ ε}

theorem step_cases (hstep : Step (channel τ ε) w e w') :
    (∃ c a, c ∉ w.blocked ∧ e = .called c a ((channel τ ε).call a w.state).2.2 ∧
      w'.state = ((channel τ ε).call a w.state).1) ∨
    ((∀ c a reply, e ≠ .called c a reply) ∧
      ∃ n, w'.state = { w.state with waitingReaders := n }) := by
  cases hstep with
  | call a hfree => exact .inl ⟨_, a, hfree, rfl, rfl⟩
  | @pass w c k s vars hfree henter hready =>
    obtain ⟨n, rfl⟩ := enter_frame henter
    obtain ⟨n', hleave⟩ := leave_frame k { w.state with waitingReaders := n }
    exact .inr ⟨nofun, n', hleave⟩
  | park k hfree henter => exact .inr ⟨nofun, enter_frame henter⟩
  | resume => exact .inr ⟨nofun, leave_frame _ _⟩
  | @relapse s => exact .inr ⟨nofun, s.waitingReaders, rfl⟩

variable {c : ι}

theorem of_passed {reply : Reply τ ε} (hstep : Step (channel τ ε) w (.passed c k reply) w') :
    ∃ n, ((channel τ ε).waiting k).ready { w.state with waitingReaders := n } = true ∧
      reply = (((channel τ ε).waiting k).leave { w.state with waitingReaders := n }).2.2 := by
  cases hstep with
  | pass k hfree henter hready =>
    obtain ⟨n, rfl⟩ := enter_frame henter
    exact ⟨n, hready, rfl⟩
  | @resume s l r c k hready => exact ⟨s.waitingReaders, hready, rfl⟩

theorem closed_of_step
    (hstep : Step (channel τ ε) w e w') (h : w.state.closed = true) : w'.state.closed = true := by
  rcases step_cases hstep with ⟨c, a, -, -, hstate⟩ | ⟨-, n, hstate⟩
  · grind [channel, ChannelReaderImpl.tryRead, ChannelWriterImpl.tryWrite, ChannelWriterImpl.tryComplete]
  · rw [hstate]
    exact h

theorem acceptedItem_of_closed (hstep : Step (channel τ ε) w e w') (h : w.state.closed = true) :
    acceptedItem e = none := by
  rcases step_cases hstep with ⟨c, a, -, rfl, -⟩ | ⟨hnot, -⟩
  · cases a with
    | tryRead => rfl
    | tryWrite item =>
      dsimp only [channel, ChannelWriterImpl.tryWrite]
      rw [if_pos h]
      rfl
    | tryComplete error => rfl
  · cases e with
    | called c a reply => exact absurd rfl (hnot c a reply)
    | passed => rfl
    | parked => rfl

variable {error : Option ε}

theorem closed_of_completed (hstep : Step (channel τ ε) w (.called c (.tryComplete error) .yes) w') :
    w'.state.closed = true := by
  rcases step_cases hstep with ⟨c, a, -, he, hstate⟩ | ⟨hnot, -⟩
  · grind [channel, ChannelWriterImpl.tryComplete]
  · exact absurd rfl (hnot c _ _)

variable {ts : List (Transition (ChannelState τ ε) ι (ChannelCall τ ε) ChannelWait (Reply τ ε))}

theorem accepted_after_complete
    (htrace : Trace (channel τ ε) s ts w)
    {us vs : List (ChannelEvent ι τ ε)}
    (hevents : events ts = us ++ .called c (.tryComplete error) .yes :: vs) :
    w.state.closed = true ∧ accepted vs = [] := by
  induction htrace generalizing vs with
  | start => exact absurd hevents (List.append_ne_nil_of_right_ne_nil _ (List.cons_ne_nil _ _)).symm
  | snoc hprevious hstep ih =>
    rw [events_snoc] at hevents
    rcases List.eq_nil_or_concat vs with rfl | ⟨vs, e, rfl⟩
    · obtain ⟨-, rfl⟩ := List.append_singleton_inj.mp hevents
      exact ⟨closed_of_completed hstep, rfl⟩
    · rw [List.concat_eq_append, ← List.cons_append, ← List.append_assoc] at hevents
      obtain ⟨hbefore, rfl⟩ := List.append_singleton_inj.mp hevents
      obtain ⟨hclosed, hnone⟩ := ih hbefore
      refine ⟨closed_of_step hstep hclosed, ?_⟩
      rw [List.concat_eq_append, accepted, List.filterMap_append]
      rw [accepted] at hnone
      rw [hnone, List.nil_append, List.filterMap_cons_none (acceptedItem_of_closed hstep hclosed),
        List.filterMap_nil]

theorem queue_of_toldClosed (hstep : Step (channel τ ε) w e w') (h : ToldClosed e) :
    w.state.queue = [] ∧ w.state.closed = true := by
  cases e with
  | called => exact h.elim
  | parked => exact h.elim
  | passed c k reply =>
    obtain ⟨n, hready, hreply⟩ := of_passed hstep
    cases k with
    | waitToReadAsync =>
      dsimp only [channel, ChannelReaderImpl.waitToReadAsync] at hready hreply
      cases hqueue : w.state.queue with
      | nil =>
        grind
      | cons x queue =>
        rw [hqueue] at hreply
        subst hreply
        exact h.elim
    | waitToWriteAsync => exact h.elim
    | completion =>
      obtain ⟨hclosed, hqueue⟩ := Bool.and_eq_true_iff.mp hready
      exact ⟨List.isEmpty_iff.mp hqueue, hclosed⟩

/-- A channel that buffers: its capacity is not zero, and the queue keeps to it. -/
structure Buffers (capacity : ℤ) (mode : BoundedChannelFullMode) (s : ChannelState τ ε) : Prop where
  capacity_eq : s.capacity = capacity
  mode_eq : s.fullMode = mode
  bounded : 0 ≤ capacity → (s.queue.length : ℤ) ≤ capacity

section Buffer

variable {capacity : ℤ} {mode : BoundedChannelFullMode}

variable {s : ChannelState τ ε}

theorem Buffers.isFull_iff (h : Buffers capacity mode s)
    (hcapacity : capacity ≠ 0) (hmax : capacity ≤ intcsMax) :
    s.isFull = true ↔ ¬ HasRoom capacity s.queue := by
  rw [ChannelState.isFull, h.capacity_eq, Bool.and_eq_true, decide_eq_true_eq, decide_eq_true_eq,
    HasRoom, not_or, not_lt, not_lt]
  by_cases hpos : 0 ≤ capacity
  · have hbounded := h.bounded hpos
    rw [toIntcs_of_le (by omega)]
    omega
  · omega

theorem length_written_le {queue : List τ} (hcapacity : capacity ≠ 0)
    (h : 0 ≤ capacity → (queue.length : ℤ) ≤ capacity) (item : τ) (hpos : 0 ≤ capacity) :
    ((written capacity mode queue item).length : ℤ) ≤ capacity := by
  have hbounded := h hpos
  rw [written]
  split
  · rename_i hroom
    rw [List.length_append, List.length_singleton]
    rcases hroom with hneg | hlt <;> omega
  · cases mode with
    | wait => exact hbounded
    | dropWrite => exact hbounded
    | dropNewest =>
      simp [overflowed]
      omega
    | dropOldest =>
      simp [overflowed]
      omega

/-- A write is refused, by a closed channel or one that is full and waits; or it is taken, and the
queue is what the buffer holds. -/
theorem Buffers.tryWrite_cases (h : Buffers capacity mode s)
    (hcapacity : capacity ≠ 0) (hmax : capacity ≤ intcsMax) (item : τ) :
    ChannelWriterImpl.tryWrite s item = (s, [], .no) ∨
    ((mode = .wait → HasRoom capacity s.queue) ∧ ∃ vars, ChannelWriterImpl.tryWrite s item =
      ({ s with queue := written capacity mode s.queue item }, vars, .yes)) := by
  have hmeets : s.isRendezvous = false := by
    rw [ChannelState.isRendezvous, h.capacity_eq, beq_eq_false_iff_ne]
    exact hcapacity
  have hfull := h.isFull_iff hcapacity hmax
  have hmake : ChannelWriterImpl.makeRoom s =
      if s.isFull then
        match mode with
        | .wait => .inl .no
        | .dropWrite => .inl .yes
        | .dropNewest => .inr s.queue.dropLast
        | .dropOldest => .inr s.queue.tail
      else .inr s.queue := by
    rw [ChannelWriterImpl.makeRoom, h.mode_eq]
    cases mode <;> rfl
  rw [ChannelWriterImpl.tryWrite, hmeets, hmake, written]
  by_cases hclosed : s.closed = true
  · exact .inl (by rw [if_pos hclosed])
  · rw [if_neg hclosed, if_neg Bool.false_ne_true]
    by_cases hroom : HasRoom capacity s.queue
    · grind
    · rw [if_pos (hfull.mpr hroom), if_neg hroom]
      cases mode with
      | wait => exact .inl rfl
      | dropWrite => exact .inr ⟨nofun, _, rfl⟩
      | dropNewest => exact .inr ⟨nofun, _, rfl⟩
      | dropOldest => exact .inr ⟨nofun, _, rfl⟩

variable {w w' : World (ChannelState τ ε) ι ChannelWait} {e : ChannelEvent ι τ ε}

/-- One step: the queue goes on as the buffer does, a read takes its head, and in the mode that
waits a write is taken only where there is room. -/
theorem Buffers.step (hcapacity : capacity ≠ 0) (hmax : capacity ≤ intcsMax)
    (hstep : Step (channel τ ε) w e w') (h : Buffers capacity mode w.state) :
    Buffers capacity mode w'.state ∧
      w'.state.queue = contentStep capacity mode w.state.queue e ∧
      (∀ x, deliveredItem e = some x → w.state.queue.head? = some x) ∧
      (∀ x, acceptedItem e = some x → mode = .wait → HasRoom capacity w.state.queue) := by
  rcases step_cases hstep with ⟨c, a, -, rfl, hstate⟩ | ⟨hnot, n, hstate⟩
  · rw [hstate]
    cases a with
    | tryRead =>
      dsimp only [channel, ChannelReaderImpl.tryRead]
      cases hqueue : w.state.queue with
      | nil => exact ⟨h, hqueue, (fun _ h => by cases h), fun _ h => by cases h⟩
      | cons x queue =>
        refine ⟨⟨h.capacity_eq, h.mode_eq, fun hpos => ?_⟩, rfl, fun y hy => ?_, fun _ h => by cases h⟩
        · have hbounded := h.bounded hpos
          grind
        · exact hy
    | tryWrite item =>
      dsimp only [channel]
      rcases h.tryWrite_cases hcapacity hmax item with hwrite | ⟨hroom, vars, hwrite⟩
      · rw [hwrite]
        exact ⟨h, rfl, (fun _ h => by cases h), fun _ h => by cases h⟩
      · rw [hwrite]
        exact ⟨⟨h.capacity_eq, h.mode_eq, length_written_le hcapacity h.bounded item⟩, rfl,
          (fun _ h => by cases h), fun _ _ => hroom⟩
    | tryComplete error =>
      dsimp only [channel, ChannelWriterImpl.tryComplete]
      split <;> exact ⟨⟨h.capacity_eq, h.mode_eq, h.bounded⟩, rfl, (fun _ h => by cases h),
        fun _ h => by cases h⟩
  · have hquiet : acceptedItem e = none ∧ deliveredItem e = none := by
      cases e with
      | called c a reply => exact absurd rfl (hnot c a reply)
      | passed => exact ⟨rfl, rfl⟩
      | parked => exact ⟨rfl, rfl⟩
    rw [hstate, contentStep, hquiet.1, hquiet.2]
    exact ⟨⟨h.capacity_eq, h.mode_eq, h.bounded⟩, rfl, (fun _ h => by cases h),
      fun _ h => by cases h⟩

theorem Buffers.queue_cases (hcapacity : capacity ≠ 0) (hmax : capacity ≤ intcsMax)
    (hstep : Step (channel τ ε) w e w') (h : Buffers capacity mode w.state) :
    (∃ x, acceptedItem e = some x ∧ deliveredItem e = none ∧
      (mode = .wait → HasRoom capacity w.state.queue) ∧
      w'.state.queue = written capacity mode w.state.queue x) ∨
    (∃ x, acceptedItem e = none ∧ deliveredItem e = some x ∧
      w.state.queue = x :: w'.state.queue) ∨
    (acceptedItem e = none ∧ deliveredItem e = none ∧ w'.state.queue = w.state.queue) := by
  obtain ⟨-, hqueue, hhead, hroom⟩ := h.step hcapacity hmax hstep
  rw [contentStep] at hqueue
  cases haccepted : acceptedItem e with
  | some x =>
    rw [haccepted] at hqueue
    have hdelivered : deliveredItem e = none := by
      cases e with
      | called c a reply => cases a <;> first | cases haccepted | rfl
      | passed => rfl
      | parked => rfl
    exact .inl ⟨x, rfl, hdelivered, hroom x haccepted, hqueue⟩
  | none =>
    rw [haccepted] at hqueue
    cases hdelivered : deliveredItem e with
    | some x =>
      rw [hdelivered] at hqueue
      refine .inr (.inl ⟨x, rfl, rfl, ?_⟩)
      rw [hqueue]
      exact (List.cons_head?_tail (hhead x hdelivered)).symm
    | none =>
      grind

theorem written_sublist (queue : List τ) (item : τ) :
    (written capacity mode queue item).Sublist (queue ++ [item]) := by
  rw [written]
  split
  · exact List.Sublist.refl _
  · cases mode with
    | wait => exact List.sublist_append_left queue [item]
    | dropWrite => exact List.sublist_append_left queue [item]
    | dropNewest => exact (List.dropLast_sublist queue).append_right [item]
    | dropOldest => exact (List.tail_sublist queue).append_right [item]

variable {s : ChannelState τ ε}
  {ts : List (Transition (ChannelState τ ε) ι (ChannelCall τ ε) ChannelWait (Reply τ ε))}
  {w : World (ChannelState τ ε) ι ChannelWait}

theorem Buffers.trace (hcapacity : capacity ≠ 0) (hmax : capacity ≤ intcsMax)
    (h : Buffers capacity mode s) (htrace : Trace (channel τ ε) s ts w) :
    Buffers capacity mode w.state := by
  induction htrace with
  | start => exact h
  | snoc _ hstep ih => exact (ih.step hcapacity hmax hstep).1

/-- The queue is what the accepted items leave in a buffer of the capacity and mode. -/
theorem content_eq (hcapacity : capacity ≠ 0) (hmax : capacity ≤ intcsMax)
    (h : Buffers capacity mode s) (hempty : s.queue = []) (htrace : Trace (channel τ ε) s ts w) :
    w.state.queue = content capacity mode (events ts) := by
  induction htrace with
  | start => exact hempty
  | snoc hprevious hstep ih =>
    have hqueue := ((h.trace hcapacity hmax hprevious).step hcapacity hmax hstep).2.1
    grind [events_snoc, content]

theorem delivered_sublist (hcapacity : capacity ≠ 0) (hmax : capacity ≤ intcsMax)
    (h : Buffers capacity mode s) (hempty : s.queue = []) (htrace : Trace (channel τ ε) s ts w) :
    (delivered (events ts) ++ w.state.queue).Sublist (accepted (events ts)) := by
  induction htrace with
  | start =>
    rw [hempty]
    exact List.Sublist.refl []
  | @snoc ts w w' e hprevious hstep ih =>
    rw [events_snoc, delivered, accepted, List.filterMap_append, List.filterMap_append]
    change (delivered (events ts) ++ _ ++ _).Sublist (accepted (events ts) ++ _)
    rcases (h.trace hcapacity hmax hprevious).queue_cases hcapacity hmax hstep with
      ⟨x, ha, hd, -, hqueue⟩ | ⟨x, ha, hd, hqueue⟩ | ⟨ha, hd, hqueue⟩
    · rw [List.filterMap_cons_none hd, List.filterMap_cons_some ha, List.filterMap_nil,
        List.filterMap_nil, List.append_nil, hqueue]
      have hwritten : (delivered (events ts) ++ written capacity mode w.state.queue x).Sublist
          (delivered (events ts) ++ (w.state.queue ++ [x])) :=
        (written_sublist w.state.queue x).append_left _
      rw [← List.append_assoc] at hwritten
      exact hwritten.trans (ih.append_right [x])
    · grind
    · grind

theorem accepted_eq (hcapacity : capacity ≠ 0) (hmax : capacity ≤ intcsMax)
    (h : Buffers capacity .wait s) (hempty : s.queue = []) (htrace : Trace (channel τ ε) s ts w) :
    accepted (events ts) = delivered (events ts) ++ w.state.queue := by
  rw [accepted, delivered, events, List.filterMap_map, List.filterMap_map]
  refine htrace.fifo (fun w => w.state.queue) _ _ hempty fun hprevious hstep => ?_
  rcases (h.trace hcapacity hmax hprevious).queue_cases hcapacity hmax hstep with
    ⟨x, ha, hd, hroom, hqueue⟩ | ⟨x, ha, hd, hqueue⟩ | hquiet
  · rw [written, if_pos (hroom rfl)] at hqueue
    exact .inl ⟨x, ha, hd, hqueue⟩
  · exact .inr (.inl ⟨x, ha, hd, hqueue⟩)
  · exact .inr (.inr hquiet)

end Buffer

theorem exists_drain
    (htrace : Trace (channel τ ε) s ts w)
    (hfree : c ∉ w.blocked) :
    ∃ us w', Trace (channel τ ε) s (ts ++ us) w' ∧ delivered (events us) = w.state.queue ∧
      w'.state.queue = [] := by
  obtain ⟨⟨queue, closed, closeError, capacity, mode, n⟩, parked⟩ := w
  induction queue generalizing ts parked with
  | nil => exact ⟨[], _, by rwa [List.append_nil], rfl, rfl⟩
  | cons x queue ih =>
    have hstep := Step.call (m := channel τ ε) ChannelCall.tryRead hfree
    obtain ⟨us, w', hmore, hdelivered, hqueue⟩ := ih _ (htrace.snoc hstep) (by
      rw [World.blocked, clients_notify]
      exact hfree)
    rw [List.append_assoc] at hmore
    refine ⟨_, w', hmore, ?_, hqueue⟩
    change x :: delivered (events us) = x :: queue
    rw [hdelivered]

theorem buffers_of_opened (h : Opened s) :
    Buffers s.capacity s.fullMode s ∧ s.capacity ≠ 0 ∧ s.capacity ≤ intcsMax ∧ s.queue = [] := by
  rcases h with rfl | ⟨options, hpos, rfl⟩
  · have hunbounded : ¬ (0 : ℤ) ≤ -1 := by decide
    have hmax : (-1 : ℤ) ≤ intcsMax := by decide
    exact ⟨⟨rfl, rfl, fun h => absurd h hunbounded⟩, fun h => hunbounded h.ge, hmax, rfl⟩
  · have hrange := options.range
    refine ⟨⟨rfl, rfl, fun h => h⟩, ?_, hrange.2, rfl⟩
    change options.capacity ≠ 0
    omega

/-- **A channel delivers in order, whatever its clients do**: the queue keeps to the capacity and
holds what the buffer holds, which gives up one item at each write that overflows it; where nothing
is given up, what was accepted is what was delivered and then the queue; once a `tryComplete`
succeeded nothing is accepted, what is queued can still be read, and a reader is told that the
channel is closed only with an empty queue. -/
theorem channel_delivers {s : ChannelState τ ε} (hopened : Opened s)
    {ts : List (Transition (ChannelState τ ε) ι (ChannelCall τ ε) ChannelWait (Reply τ ε))}
    {w : World (ChannelState τ ε) ι ChannelWait} (htrace : Trace (channel τ ε) s ts w) :
    (0 ≤ s.capacity → (w.state.queue.length : ℤ) ≤ s.capacity) ∧
    (s.fullMode = .wait → accepted (events ts) = delivered (events ts) ++ w.state.queue) ∧
    w.state.queue = content s.capacity s.fullMode (events ts) ∧
    (delivered (events ts) ++ w.state.queue).Sublist (accepted (events ts)) ∧
    (∀ us vs c error, events ts = us ++ .called c (.tryComplete error) .yes :: vs →
      accepted vs = []) ∧
    (∀ c, c ∉ w.blocked → ∃ us w', Trace (channel τ ε) s (ts ++ us) w' ∧
      delivered (events us) = w.state.queue ∧ w'.state.queue = []) ∧
    (∀ t ∈ ts, ToldClosed t.event → t.before.state.queue = [] ∧ t.before.state.closed = true) := by
  obtain ⟨hbuffers, hcapacity, hmax, hempty⟩ := buffers_of_opened hopened
  refine ⟨(hbuffers.trace hcapacity hmax htrace).bounded, fun hwait => ?_,
    content_eq hcapacity hmax hbuffers hempty htrace,
    delivered_sublist hcapacity hmax hbuffers hempty htrace,
    fun us vs c error hevents => (accepted_after_complete htrace hevents).2,
    fun c hfree => exists_drain htrace hfree,
    fun t ht htold => queue_of_toldClosed (htrace.of_mem ht).2 htold⟩
  rw [hwait] at hbuffers
  exact accepted_eq hcapacity hmax hbuffers hempty htrace

/-- Two writes to a channel for one item that drops the oldest: both are accepted, the second is
queued. -/
theorem channel_delivers_oldest_dropped :
    ∃ (ts : List (Transition (ChannelState ℕ ℕ) ℕ (ChannelCall ℕ ℕ) ChannelWait (Reply ℕ ℕ)))
      (w : World (ChannelState ℕ ℕ) ℕ ChannelWait),
      Trace (channel ℕ ℕ) (Channel.createBoundedOptions ⟨1, .dropOldest, by decide⟩) ts w ∧
      accepted (events ts) = [7, 8] ∧ w.state.queue = [8] ∧
      w.state.queue = content 1 .dropOldest (events ts) := by
  have hfirst := (Trace.start (m := channel ℕ ℕ)
    (s := Channel.createBoundedOptions ⟨1, .dropOldest, by decide⟩)).snoc
    (Step.call (c := 0) (.tryWrite 7) List.not_mem_nil)
  have hsecond := hfirst.snoc (Step.call (c := 1) (.tryWrite 8) List.not_mem_nil)
  exact ⟨_, _, hsecond, rfl, rfl,
    (channel_delivers (.inr ⟨⟨1, .dropOldest, by decide⟩, by decide, rfl⟩) hsecond).2.2.1⟩

end SharpRuntime.Analysis.ChannelDelivery
