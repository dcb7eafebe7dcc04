import SharpRuntime.Analysis.ChannelDelivery

/-!
# A rendezvous channel hands over

A channel of capacity zero takes an item only while more readers wait than items are queued; so the
queue is bounded by the readers that wait together with those that were told an item is there and
did not read yet.  The induction counts each reader once: a reader parks with an empty queue, when
only those that wait need be counted (`Covered.park`).
-/

set_option autoImplicit false

namespace SharpRuntime.Analysis.ChannelRendezvous

open Machine Monitor Interface Model ChannelDelivery
open ChannelReaderImpl
open ChannelWriterImpl

variable {ι τ ε : Type}

/-- A rendezvous channel: its queue and its count are numbers of the runtime. -/
structure Meets (mode : BoundedChannelFullMode) (s : ChannelState τ ε) : Prop where
  capacity_eq : s.capacity = 0
  mode_eq : s.fullMode = mode
  length_le : s.queue.length ≤ intcsMax
  count_le : s.waitingReaders ≤ intcsMax

section State

variable {mode : BoundedChannelFullMode} {s : ChannelState τ ε}

theorem Meets.isRendezvous (h : Meets mode s) : s.isRendezvous = true := by
  rw [ChannelState.isRendezvous, h.capacity_eq]
  rfl

theorem Meets.hasWaitingPeer_iff (h : Meets mode s) :
    s.hasWaitingPeer = true ↔ (s.queue.length : ℤ) < s.waitingReaders := by
  rw [ChannelState.hasWaitingPeer, decide_eq_true_eq, toIntcs_of_le h.length_le]

theorem Meets.tryWrite_cases (h : Meets mode s) (item : τ) :
    (∃ reply, tryWrite s item = (s, [], reply) ∧ (mode = .wait → reply = .no)) ∨
    ((s.queue.length : ℤ) < s.waitingReaders ∧ tryWrite s item =
      ({ s with queue := s.queue ++ [item] }, [.notEmpty], .yes)) := by
  rw [tryWrite, if_pos h.isRendezvous]
  by_cases hclosed : s.closed = true
  · exact .inl ⟨.no, by rw [if_pos hclosed], fun _ => rfl⟩
  · rw [if_neg hclosed]
    by_cases hpeer : s.hasWaitingPeer = true
    · exact .inr ⟨h.hasWaitingPeer_iff.mp hpeer, by rw [if_pos hpeer]⟩
    · grind [h.mode_eq]

end State

theorem meets_keeps (mode : BoundedChannelFullMode) : Keeps (channel τ ε) (Meets mode) where
  call a s h := by
    cases a with
    | tryRead =>
      dsimp only [channel, tryRead]
      cases hqueue : s.queue with
      | nil => exact h
      | cons x queue =>
        have hlength := h.length_le
        rw [hqueue, List.length_cons] at hlength
        exact ⟨h.capacity_eq, h.mode_eq, by dsimp only; omega, h.count_le⟩
    | tryWrite item =>
      dsimp only [channel]
      rcases h.tryWrite_cases item with ⟨reply, hwrite, -⟩ | ⟨hpeer, hwrite⟩
      · rw [hwrite]
        exact h
      · rw [hwrite]
        have hcount := h.count_le
        refine ⟨h.capacity_eq, h.mode_eq, ?_, hcount⟩
        simp
        omega
    | tryComplete error =>
      dsimp only [channel, tryComplete]
      split <;> exact ⟨h.capacity_eq, h.mode_eq, h.length_le, h.count_le⟩
  enter k s s' vars h henter := by
    cases k with
    | waitToReadAsync =>
      dsimp only [channel, waitToReadAsync] at henter
      rw [if_pos h.isRendezvous] at henter
      split at henter
      · rename_i hlt
        obtain ⟨rfl, -⟩ := Prod.mk.inj (Option.some.inj henter)
        exact ⟨h.capacity_eq, h.mode_eq, h.length_le, by dsimp only; omega⟩
      · cases henter
    | waitToWriteAsync =>
      obtain ⟨rfl, -⟩ := Prod.mk.inj (Option.some.inj henter)
      exact h
    | completion =>
      obtain ⟨rfl, -⟩ := Prod.mk.inj (Option.some.inj henter)
      exact h
  leave k s h _ := by
    cases k with
    | waitToReadAsync =>
      have hcount := h.count_le
      dsimp only [channel, waitToReadAsync]
      rw [if_pos h.isRendezvous]
      exact ⟨h.capacity_eq, h.mode_eq, h.length_le, by dsimp only; omega⟩
    | waitToWriteAsync => exact h
    | completion => exact h

/-- The count is the number of the readers inside, and every queued item has a reader inside or one
that was told of an item, is not inside again, and did not read yet. -/
structure Covered (w : World (ChannelState τ ε) ι ChannelWait) (grants : List ι) : Prop where
  count : w.state.waitingReaders = (readersInside w).length
  covered : ∃ fresh : List ι, fresh.Nodup ∧ fresh ⊆ grants ∧ fresh.Disjoint (readersInside w) ∧
    w.state.queue.length ≤ (readersInside w).length + fresh.length

variable {w : World (ChannelState τ ε) ι ChannelWait}

theorem covered_of_nil
    (hcount : w.state.waitingReaders = (readersInside w).length) (hqueue : w.state.queue = [])
    (grants : List ι) : Covered w grants := by
  refine ⟨hcount, [], List.nodup_nil, List.nil_subset _, List.disjoint_nil_left _, ?_⟩
  rw [hqueue]
  exact Nat.zero_le _

variable {w' : World (ChannelState τ ε) ι ChannelWait} {grants : List ι}

theorem Covered.congr (h : Covered w grants) (hinside : readersInside w' = readersInside w)
    (hcount : w'.state.waitingReaders = w.state.waitingReaders)
    (hqueue : w'.state.queue = w.state.queue) : Covered w' grants := by
  refine ⟨?_, ?_⟩
  · rw [hcount, hinside]
    exact h.count
  · rw [hqueue, hinside]
    exact h.covered

theorem Covered.mono {grants' : List ι}
    (h : Covered w grants) (hsubset : grants ⊆ grants') : Covered w grants' := by
  obtain ⟨hcount, fresh, hnodup, hfresh, hdisjoint, hlength⟩ := h
  exact ⟨hcount, fresh, hnodup, List.Subset.trans hfresh hsubset, hdisjoint, hlength⟩

section Step

variable [DecidableEq ι] {mode : BoundedChannelFullMode}
  {w : World (ChannelState τ ε) ι ChannelWait} {grants : List ι}

theorem Covered.called (h : Covered w grants) (hmeets : Meets mode w.state) (c : ι)
    (a : ChannelCall τ ε) :
    Covered ⟨((channel τ ε).call a w.state).1,
        (channel τ ε).notify ((channel τ ε).call a w.state).2.1 w.parked⟩
      (grantStep grants (.called c a ((channel τ ε).call a w.state).2.2)) := by
  have hinside : ∀ vars s', readersInside
      (⟨s', (channel τ ε).notify vars w.parked⟩ : World (ChannelState τ ε) ι ChannelWait) =
      readersInside w :=
    fun vars _ => clientsIn_notify (m := channel τ ε) .waitToReadAsync vars w.parked
  obtain ⟨hcount, fresh, hnodup, hsubset, hdisjoint, hlength⟩ := h
  cases a with
  | tryRead =>
    rw [channel_call_tryRead]
    cases hqueue : w.state.queue with
    | nil =>
      rw [tryRead_of_nil hqueue]
      exact Covered.congr ⟨hcount, fresh, hnodup, hsubset, hdisjoint, hlength⟩ (hinside [] _) rfl
        rfl
    | cons x queue =>
      rw [tryRead_of_cons hqueue]
      refine ⟨by rwa [hinside], fresh.erase c, hnodup.erase c, fun d hd => ?_, ?_, ?_⟩
      · obtain ⟨hne, hd⟩ := hnodup.mem_erase_iff.mp hd
        exact List.mem_filter.mpr ⟨hsubset hd, decide_eq_true hne⟩
      · rw [hinside]
        exact List.disjoint_of_subset_left List.erase_subset hdisjoint
      · grind
  | tryWrite item =>
    rw [channel_call_tryWrite]
    rcases hmeets.tryWrite_cases item with ⟨reply, hwrite, -⟩ | ⟨hpeer, hwrite⟩
    · rw [hwrite]
      exact Covered.congr ⟨hcount, fresh, hnodup, hsubset, hdisjoint, hlength⟩ (hinside [] _) rfl
        rfl
    · rw [hwrite]
      refine ⟨by rwa [hinside], fresh, hnodup, hsubset, by rwa [hinside], ?_⟩
      simp [hinside]
      omega
  | tryComplete error =>
    rw [channel_call_tryComplete]
    by_cases hclosed : w.state.closed = true
    · rw [tryComplete_of_closed hclosed]
      exact Covered.congr ⟨hcount, fresh, hnodup, hsubset, hdisjoint, hlength⟩ (hinside [] _) rfl
        rfl
    · rw [tryComplete_of_open hclosed]
      exact Covered.congr ⟨hcount, fresh, hnodup, hsubset, hdisjoint, hlength⟩ (hinside _ _) rfl
        rfl

theorem Covered.resumed {s : ChannelState τ ε} {l r : List (Parked ι ChannelWait)} {c : ι}
    (h : Covered ⟨s, l ++ ⟨c, .waitToReadAsync, true⟩ :: r⟩ grants) (hmeets : Meets mode s)
    (hnodup : (World.blocked (σ := ChannelState τ ε)
      ⟨s, l ++ ⟨c, .waitToReadAsync, true⟩ :: r⟩).Nodup) :
    Covered ⟨((waitToReadAsync (τ := τ) (ε := ε)).leave s).1, l ++ r⟩
      (grantStep grants
        (.passed c .waitToReadAsync
          ((waitToReadAsync (τ := τ) (ε := ε)).leave s).2.2)) := by
  obtain ⟨hcount, fresh, hfresh, hsubset, hdisjoint, hlength⟩ := h
  have hsplit : readersInside
      (⟨s, l ++ ⟨c, .waitToReadAsync, true⟩ :: r⟩ : World (ChannelState τ ε) ι ChannelWait) =
      clientsIn .waitToReadAsync l ++ c :: clientsIn .waitToReadAsync r := by
    rw [readersInside, clientsIn_append, clientsIn_cons_self]
  have hleft : ∀ s', readersInside
      (⟨s', l ++ r⟩ : World (ChannelState τ ε) ι ChannelWait) =
      clientsIn .waitToReadAsync l ++ clientsIn .waitToReadAsync r :=
    fun _ => clientsIn_append _ l r
  rw [hsplit] at hdisjoint
  have hcount' : s.waitingReaders - 1 =
      ((clientsIn .waitToReadAsync l ++ clientsIn .waitToReadAsync r).length : ℤ) := by grind
  dsimp only [waitToReadAsync]
  rw [if_pos hmeets.isRendezvous]
  cases hqueue : s.queue with
  | nil =>
    exact covered_of_nil (by rw [hleft]; exact hcount') rfl _
  | cons x queue =>
    have hnotin : c ∉ clientsIn .waitToReadAsync l ++ clientsIn .waitToReadAsync r := by
      rw [World.blocked, List.map_append, List.map_cons] at hnodup
      have hmiddle := (List.nodup_middle.mp hnodup).notMem
      rw [← List.map_append] at hmiddle
      rw [← clientsIn_append]
      exact fun hmem => hmiddle (mem_blocked_of_mem_clientsIn hmem)
    refine ⟨by rw [hleft]; exact hcount', c :: fresh, List.nodup_cons.mpr ⟨fun hmem => ?_, hfresh⟩,
      fun d hd => ?_, ?_, ?_⟩
    · exact hdisjoint hmem (List.mem_append.mpr (.inr List.mem_cons_self))
    · rcases List.mem_cons.mp hd with rfl | hd
      · exact List.mem_append.mpr (.inr (List.mem_singleton.mpr rfl))
      · exact List.mem_append.mpr (.inl (hsubset hd))
    · rw [hleft, List.disjoint_cons_left]
      refine ⟨hnotin, List.disjoint_of_subset_right (fun d hd => ?_) hdisjoint⟩
      grind
    · grind

theorem subset_grantStep_passed (c : ι) (k : ChannelWait) (reply : Reply τ ε) :
    grants ⊆ grantStep grants (.passed c k reply) := by
  cases k with
  | waitToReadAsync =>
    cases reply with
    | yes => exact List.subset_append_left _ _
    | no => exact List.Subset.refl _
    | item x => exact List.Subset.refl _
    | fault error => exact List.Subset.refl _
  | waitToWriteAsync => exact List.Subset.refl _
  | completion => exact List.Subset.refl _

/-- Every step keeps the queued items covered. -/
theorem Covered.step {w' : World (ChannelState τ ε) ι ChannelWait} {e : ChannelEvent ι τ ε}
    (hstep : Step (channel τ ε) w e w') (hmeets : Meets mode w.state) (hnodup : w.blocked.Nodup)
    (h : Covered w grants) : Covered w' (grantStep grants e) := by
  cases hstep with
  | call a => exact h.called hmeets _ a
  | @pass _ c k s vars hfree henter hready =>
    have hinside : ∀ vars' s', readersInside (⟨s', (channel τ ε).notify vars'
        ((channel τ ε).notify vars w.parked)⟩ : World (ChannelState τ ε) ι ChannelWait) =
        readersInside w := by
      intro vars' s'
      rw [readersInside, clientsIn_notify, clientsIn_notify]
      rfl
    refine Covered.mono ?_ (subset_grantStep_passed c k _)
    cases k with
    | waitToReadAsync =>
      dsimp only [channel, waitToReadAsync] at henter
      rw [if_pos hmeets.isRendezvous] at henter
      split at henter
      · obtain ⟨rfl, -⟩ := Prod.mk.inj (Option.some.inj henter)
        refine h.congr (hinside _ _) ?_ ?_
        · change (if w.state.isRendezvous then _ else _ : ChannelState τ ε).waitingReaders = _
          rw [if_pos hmeets.isRendezvous]
          exact add_sub_cancel_right _ _
        · change (if w.state.isRendezvous then _ else _ : ChannelState τ ε).queue = _
          rw [if_pos hmeets.isRendezvous]
      · cases henter
    | waitToWriteAsync =>
      obtain ⟨rfl, -⟩ := Prod.mk.inj (Option.some.inj henter)
      exact h.congr (hinside _ _) rfl rfl
    | completion =>
      obtain ⟨rfl, -⟩ := Prod.mk.inj (Option.some.inj henter)
      exact h.congr (hinside _ _) rfl rfl
  | @park _ c k s vars hfree henter hready =>
    cases k with
    | waitToReadAsync =>
      have hqueue : s.queue = [] :=
        List.isEmpty_iff.mp (by simpa using (Bool.or_eq_false_iff.mp hready).1)
      refine covered_of_nil ?_ hqueue grants
      dsimp only [channel, waitToReadAsync] at henter
      rw [if_pos hmeets.isRendezvous] at henter
      split at henter
      · obtain ⟨rfl, -⟩ := Prod.mk.inj (Option.some.inj henter)
        rw [readersInside, clientsIn_append, clientsIn_notify, List.length_append]
        change w.state.waitingReaders + 1 = (((readersInside w).length + 1 : ℕ) : ℤ)
        rw [h.count, Nat.cast_succ]
      · cases henter
    | waitToWriteAsync =>
      obtain ⟨rfl, -⟩ := Prod.mk.inj (Option.some.inj henter)
      refine h.congr ?_ rfl rfl
      rw [readersInside, clientsIn_append, clientsIn_notify, clientsIn_cons_of_ne (by decide)]
      exact List.append_nil _
    | completion =>
      obtain ⟨rfl, -⟩ := Prod.mk.inj (Option.some.inj henter)
      refine h.congr ?_ rfl rfl
      rw [readersInside, clientsIn_append, clientsIn_notify, clientsIn_cons_of_ne (by decide)]
      exact List.append_nil _
  | @resume s l r c k hready =>
    have hinside : ∀ vars s', readersInside (⟨s', (channel τ ε).notify vars (l ++ r)⟩ :
        World (ChannelState τ ε) ι ChannelWait) =
        clientsIn .waitToReadAsync l ++ clientsIn .waitToReadAsync r := by
      intro vars s'
      rw [readersInside, clientsIn_notify, clientsIn_append]
    cases k with
    | waitToReadAsync =>
      refine (h.resumed hmeets hnodup).congr ?_ rfl rfl
      rw [hinside]
      exact (clientsIn_append _ l r).symm
    | waitToWriteAsync =>
      refine h.congr ?_ rfl rfl
      rw [hinside, readersInside, clientsIn_append, clientsIn_cons_of_ne (by decide)]
    | completion =>
      refine h.congr ?_ rfl rfl
      rw [hinside, readersInside, clientsIn_append, clientsIn_cons_of_ne (by decide)]
  | @relapse s l r c k hready =>
    refine h.congr ?_ rfl rfl
    rw [readersInside, readersInside, clientsIn_append, clientsIn_append]
    cases k <;> rfl

end Step

section Trace

variable {s : ChannelState τ ε} {mode : BoundedChannelFullMode}
  {ts : List (Transition (ChannelState τ ε) ι (ChannelCall τ ε) ChannelWait (Reply τ ε))}
  {w : World (ChannelState τ ε) ι ChannelWait}

theorem covered_trace [DecidableEq ι] (hmeets : Meets mode s) (hcount : s.waitingReaders = 0)
    (hempty : s.queue = []) (htrace : Trace (channel τ ε) s ts w) :
    Covered w (granted (events ts)) := by
  induction htrace with
  | start => exact covered_of_nil hcount hempty _
  | snoc hprevious hstep ih =>
    rw [events_snoc, granted, List.foldl_append]
    exact ih.step hstep (hprevious.holds (meets_keeps mode) hmeets) hprevious.blocked_nodup

theorem Meets.queue_cases {w w' : World (ChannelState τ ε) ι ChannelWait} {e : ChannelEvent ι τ ε}
    (hstep : Step (channel τ ε) w e w') (h : Meets mode w.state) :
    (∃ x, appendedItem ⟨w, e, w'⟩ = some x ∧ deliveredItem e = none ∧
      w'.state.queue = w.state.queue ++ [x]) ∨
    (∃ x, appendedItem ⟨w, e, w'⟩ = none ∧ deliveredItem e = some x ∧
      w.state.queue = x :: w'.state.queue) ∨
    (appendedItem ⟨w, e, w'⟩ = none ∧ deliveredItem e = none ∧
      w'.state.queue = w.state.queue) := by
  -- a queue that stays as it is took no item
  have hquiet : w'.state.queue = w.state.queue → appendedItem ⟨w, e, w'⟩ = none := by
    grind [appendedItem]
  rcases step_cases hstep with ⟨c, a, -, rfl, hstate⟩ | ⟨hnot, n, hstate⟩
  · cases a with
    | tryRead =>
      rw [channel_call_tryRead] at hstate ⊢
      cases hqueue : w.state.queue with
      | nil =>
        rw [tryRead_of_nil hqueue] at hstate ⊢
        have hsame : w'.state.queue = w.state.queue := congrArg ChannelState.queue hstate
        exact .inr (.inr ⟨ite_self _, rfl, hsame.trans hqueue⟩)
      | cons x queue =>
        rw [tryRead_of_cons hqueue] at hstate ⊢
        exact .inr (.inl ⟨x, ite_self _, rfl, by rw [hstate]⟩)
    | tryWrite item =>
      rw [channel_call_tryWrite] at hstate hquiet ⊢
      rcases h.tryWrite_cases item with ⟨reply, hwrite, -⟩ | ⟨-, hwrite⟩
      · rw [hwrite] at hstate hquiet ⊢
        have hsame : w'.state.queue = w.state.queue := congrArg ChannelState.queue hstate
        exact .inr (.inr ⟨hquiet hsame, rfl, hsame⟩)
      · rw [hwrite] at hstate ⊢
        have hqueue : w'.state.queue = w.state.queue ++ [item] :=
          congrArg ChannelState.queue hstate
        refine .inl ⟨item, ?_, rfl, hqueue⟩
        rw [appendedItem, if_pos]
        · rfl
        · simp [hqueue]
    | tryComplete error =>
      have hsame : w'.state.queue = w.state.queue := by
        rw [hstate, channel_call_tryComplete, tryComplete]
        split <;> rfl
      exact .inr (.inr ⟨ite_self _, rfl, hsame⟩)
  · have hsame : w'.state.queue = w.state.queue := by rw [hstate]
    refine .inr (.inr ⟨hquiet hsame, ?_, hsame⟩)
    cases e with
    | called c a reply => exact absurd rfl (hnot c a reply)
    | passed => rfl
    | parked => rfl

theorem appended_eq (hmeets : Meets mode s) (hempty : s.queue = [])
    (htrace : Trace (channel τ ε) s ts w) :
    appended ts = delivered (events ts) ++ w.state.queue := by
  rw [appended, delivered, events, List.filterMap_map]
  refine htrace.fifo (fun w => w.state.queue) _ _ hempty fun hprevious hstep => ?_
  exact (hprevious.holds (meets_keeps mode) hmeets).queue_cases hstep

end Trace

theorem meets_created (options : BoundedChannelOptions) (hzero : options.capacity = 0) :
    Meets options.fullMode (Channel.createBoundedOptions options : ChannelState τ ε) := by
  have hmax : (0 : ℤ) ≤ intcsMax := by decide
  exact ⟨hzero, rfl, Nat.zero_le _, hmax⟩

theorem write_of_step {c : ι} {x : τ}
    {reply : Reply τ ε} (hstep : Step (channel τ ε) w (.called c (.tryWrite x) reply) w') :
    reply = (tryWrite w.state x).2.2 ∧
      w' = ⟨(tryWrite w.state x).1,
        (channel τ ε).notify (tryWrite w.state x).2.1 w.parked⟩ := by
  cases hstep with
  | call a => exact ⟨rfl, rfl⟩

/-- **A rendezvous channel hands over**: in the mode that waits, a write that returns true has
appended its item; what was appended was delivered, in order, or is in the queue; the count is that
of the readers inside `waitToReadAsync`; the queue is no longer than these and the calls that
returned true without a later successful read of their client; and in the modes that drop, a write
without a waiting peer changes nothing. -/
theorem rendezvous_hands_over [DecidableEq ι] (options : BoundedChannelOptions)
    (hzero : options.capacity = 0)
    {ts : List (Transition (ChannelState τ ε) ι (ChannelCall τ ε) ChannelWait (Reply τ ε))}
    {w : World (ChannelState τ ε) ι ChannelWait}
    (htrace : Trace (channel τ ε) (Channel.createBoundedOptions options) ts w) :
    (∀ t ∈ ts, ∀ c x, t.event = .called c (.tryWrite x) .yes → options.fullMode = .wait →
      t.after.state.queue = t.before.state.queue ++ [x]) ∧
    appended ts = delivered (events ts) ++ w.state.queue ∧
    w.state.waitingReaders = (readersInside w).length ∧
    w.state.queue.length ≤ (readersInside w).length + (granted (events ts)).length ∧
    (∀ t ∈ ts, ∀ c x reply, t.event = .called c (.tryWrite x) reply → options.fullMode ≠ .wait →
      t.before.state.hasWaitingPeer = false → t.after = t.before) := by
  have hmeets := meets_created (τ := τ) (ε := ε) options hzero
  have hcovered := covered_trace hmeets rfl rfl htrace
  obtain ⟨fresh, hnodup, hsubset, -, hlength⟩ := hcovered.covered
  have hfresh := (List.subperm_of_subset hnodup hsubset).length_le
  refine ⟨fun t ht c x hevent hwait => ?_, appended_eq hmeets rfl htrace, hcovered.count,
    by omega, fun t ht c x reply hevent hdrops hpeer => ?_⟩
  · obtain ⟨⟨us, hbefore⟩, hstep⟩ := htrace.of_mem ht
    rw [hevent] at hstep
    obtain ⟨hreply, hafter⟩ := write_of_step hstep
    rcases (hbefore.holds (meets_keeps _) hmeets).tryWrite_cases x with
      ⟨reply, hwrite, hno⟩ | ⟨-, hwrite⟩
    · grind
    · rw [hafter, hwrite]
  · obtain ⟨⟨us, hbefore⟩, hstep⟩ := htrace.of_mem ht
    rw [hevent] at hstep
    obtain ⟨-, hafter⟩ := write_of_step hstep
    have hstate := hbefore.holds (meets_keeps _) hmeets
    rcases hstate.tryWrite_cases x with ⟨reply, hwrite, -⟩ | ⟨hlt, -⟩
    · rw [hafter, hwrite, notify_nil]
    · rw [hstate.hasWaitingPeer_iff.mpr hlt] at hpeer
      cases hpeer

/-- A reader waits, an item is handed to it, and it is told so: the item is queued for the one call
that returned true. -/
theorem rendezvous_hands_over_one :
    ∃ (ts : List (Transition (ChannelState ℕ ℕ) ℕ (ChannelCall ℕ ℕ) ChannelWait (Reply ℕ ℕ)))
      (w : World (ChannelState ℕ ℕ) ℕ ChannelWait),
      Trace (channel ℕ ℕ) (Channel.createBoundedOptions ⟨0, .wait, by decide⟩) ts w ∧
      readersInside w = [] ∧ granted (events ts) = [0] ∧
      w.state.queue.length ≤ (readersInside w).length + (granted (events ts)).length ∧
      appended ts = delivered (events ts) ++ w.state.queue ∧ w.state.queue = [7] := by
  have hparked := (Trace.start (m := channel ℕ ℕ)
    (s := Channel.createBoundedOptions ⟨0, .wait, by decide⟩)).snoc
    (Step.park (c := 0) .waitToReadAsync List.not_mem_nil rfl rfl)
  have hwritten := hparked.snoc (Step.call (c := 1) (.tryWrite 7) (by decide))
  have hresumed := hwritten.snoc (Step.resume (l := []) (r := []) rfl)
  have hands := rendezvous_hands_over ⟨0, .wait, by decide⟩ rfl hresumed
  exact ⟨_, _, hresumed, rfl, rfl, hands.2.2.2.1, hands.2.1, rfl⟩

end SharpRuntime.Analysis.ChannelRendezvous
