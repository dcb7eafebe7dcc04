import SharpRuntime.Interface.LockThreads

/-!
# The mutual exclusion of `ReaderWriterLockSlim`

The lock is followed by its `Holders`: the flags and the counter say who holds it, and the counts of
each thread say what that thread holds.  A read taken below the write or the upgradeable lock is in
no counter; it stands as long as its thread keeps the stronger lock.
-/

set_option autoImplicit false

namespace SharpRuntime.Analysis.LockExclusion

open Machine Model Interface.LockThreads
open ReaderWriterLockSlim

variable {ι : Type} [DecidableEq ι]

/-! ## What the counts of a thread say -/

/-- The counts of a thread that holds the write lock, the upgradeable lock, a counted read lock, as
far as the three propositions hold. -/
structure Holds (counts : ThreadCounts) (writes upgrades reads : Prop) : Prop where
  reader_nonneg : 0 ≤ counts.reader
  writer_nonneg : 0 ≤ counts.writer
  upgrade_nonneg : 0 ≤ counts.upgrade
  writer_pos : 0 < counts.writer ↔ writes
  upgrade_pos : 0 < counts.upgrade ↔ upgrades
  counted : counts.readerCountsTowardGlobal = true ↔ reads
  reader_pos : reads → 0 < counts.reader
  /-- A read lock that is not counted stands below a stronger lock. -/
  sheltered : 0 < counts.reader → reads ∨ writes ∨ upgrades

/-- The lock is held by these holders. -/
structure HeldBy (s : ReaderWriterLockSlim ι) (h : Holders ι) : Prop where
  writerActive : s.writerActive_ = h.writer.isSome
  upgradeableActive : s.upgradeableActive_ = h.upgrader.isSome
  readers : s.readers_ = h.readers.card
  thread : ∀ t, Holds (s.threadCounts t) (h.writer = some t) (h.upgrader = some t) (t ∈ h.readers)

/-- What the counts of a thread are while it waits, or is about to. -/
def Awaits (counts : ThreadCounts) : LockMode → Prop
  | .read => counts.reader = 0 ∧ counts.writer = 0 ∧ counts.upgrade = 0
  | .write upgradingToWrite => counts.writer = 0 ∧
      if upgradingToWrite then 0 < counts.upgrade else counts.upgrade = 0 ∧ counts.reader = 0
  | .upgradeable => counts.reader = 0 ∧ counts.writer = 0 ∧ counts.upgrade = 0

/-- What the counts of a thread are between two steps of a function. -/
def Fits (counts : ThreadCounts) : LockActivity → Prop
  | .entering mode _ => Awaits counts mode
  | .granting => 0 < counts.writer ∧ counts.upgrade = 0
  | .waiting mode _ => Awaits counts mode
  | .disposing => True

/-- What a step of one thread leaves: a lock that is held by some holders, the counts of the other
threads, and counts of its own that fit what it does next.  A step that throws leaves the lock. -/
def Leaves (me : ι) (s : ReaderWriterLockSlim ι) :
    EStateM.Result LockFault (ReaderWriterLockSlim ι) LockProgress → Prop
  | .ok progress s' => (∃ h, HeldBy s' h) ∧
      (∀ t, t ≠ me → s'.threadCounts t = s.threadCounts t) ∧
      ∀ activity, progress = .pending activity → Fits (s'.threadCounts me) activity
  | .error .overflow _ => True
  | .error _ s' => s' = s

/-! ## Changes of one thread -/

variable {s s' : ReaderWriterLockSlim ι} {h h' : Holders ι} {me : ι} {counts : ThreadCounts}

theorem setCounts_other {t : ι} (hne : t ≠ me) :
    (setCounts me counts s).threadCounts t = s.threadCounts t :=
  Function.update_of_ne hne ..

theorem HeldBy.change (hs : HeldBy s h) (hwriterActive : s'.writerActive_ = h'.writer.isSome)
    (hupgradeableActive : s'.upgradeableActive_ = h'.upgrader.isSome)
    (hreaders : s'.readers_ = h'.readers.card)
    (hcounts : s'.threadCounts = Function.update s.threadCounts me counts)
    (hme : Holds counts (h'.writer = some me) (h'.upgrader = some me) (me ∈ h'.readers))
    (hother : ∀ t, t ≠ me → (h'.writer = some t ↔ h.writer = some t) ∧
      (h'.upgrader = some t ↔ h.upgrader = some t) ∧ (t ∈ h'.readers ↔ t ∈ h.readers)) :
    HeldBy s' h' := by
  refine ⟨hwriterActive, hupgradeableActive, hreaders, fun t => ?_⟩
  by_cases ht : t = me
  · subst ht
    rw [hcounts, Function.update_self]
    exact hme
  · obtain ⟨hwriter, hupgrader, hread⟩ := hother t ht
    rw [hcounts, Function.update_of_ne ht, hwriter, hupgrader, hread]
    exact hs.thread t

theorem HeldBy.sameHolders (hs : HeldBy s h)
    (hme : Holds counts (h.writer = some me) (h.upgrader = some me) (me ∈ h.readers)) :
    HeldBy (setCounts me counts s) h :=
  hs.change hs.writerActive hs.upgradeableActive hs.readers rfl hme
    fun _ _ => ⟨Iff.rfl, Iff.rfl, Iff.rfl⟩

omit [DecidableEq ι] in
theorem HeldBy.congr (hs : HeldBy s h) (hcounts : s'.threadCounts = s.threadCounts)
    (hreaders : s'.readers_ = s.readers_) (hwriterActive : s'.writerActive_ = s.writerActive_)
    (hupgradeableActive : s'.upgradeableActive_ = s.upgradeableActive_) : HeldBy s' h := by
  refine ⟨hwriterActive.trans hs.writerActive, hupgradeableActive.trans hs.upgradeableActive,
    hreaders.trans hs.readers, fun t => ?_⟩
  rw [hcounts]
  exact hs.thread t

omit [DecidableEq ι] in
theorem HeldBy.withdrawn (hs : HeldBy s h) (mode : LockMode) : HeldBy (withdraw mode s) h := by
  cases mode <;> exact hs.congr rfl rfl rfl rfl

omit [DecidableEq ι] in
theorem threadCounts_withdraw (mode : LockMode) (s : ReaderWriterLockSlim ι) :
    (withdraw mode s).threadCounts = s.threadCounts := by
  cases mode <;> rfl

/-! ## Taking the lock -/

omit [DecidableEq ι] in
theorem increment_eq (n : ℤ) (s : ReaderWriterLockSlim ι) :
    increment n s = if n < intcsMax then .ok (n + 1) s else .error .overflow s := by
  rw [increment]
  split <;> rfl

/-- What taking the lock leaves: it is held by some holders, and the counts of the other threads
are what they were. -/
def Takes (me : ι) (s : ReaderWriterLockSlim ι) :
    EStateM.Result LockFault (ReaderWriterLockSlim ι) Unit → Prop
  | .ok _ s' => (∃ h, HeldBy s' h) ∧ ∀ t, t ≠ me → s'.threadCounts t = s.threadCounts t
  | .error e _ => e = .overflow

omit [DecidableEq ι] in
theorem takes_increment {n : ℤ} {rest : ℤ → LockProgram ι Unit}
    (hrest : Takes me s (rest (n + 1) s)) : Takes me s ((increment n >>= rest) s) := by
  by_cases hroom : n < intcsMax
  · rw [bind_ok ((increment_eq _ s).trans (if_pos hroom))]
    exact hrest
  · rw [bind_error ((increment_eq _ s).trans (if_neg hroom))]
    exact rfl

omit [DecidableEq ι] in
theorem HeldBy.writer_eq_none (hs : HeldBy s h) (hactive : s.writerActive_ = false) :
    h.writer = none := by
  rw [hs.writerActive] at hactive
  exact Option.not_isSome_iff_eq_none.mp (Bool.eq_false_iff.mp hactive)

omit [DecidableEq ι] in
theorem HeldBy.upgrader_eq_none (hs : HeldBy s h) (hactive : s.upgradeableActive_ = false) :
    h.upgrader = none := by
  rw [hs.upgradeableActive] at hactive
  exact Option.not_isSome_iff_eq_none.mp (Bool.eq_false_iff.mp hactive)

omit [DecidableEq ι] in
theorem HeldBy.readers_eq_empty (hs : HeldBy s h) (hnone : s.readers_ = 0) : h.readers = ∅ := by
  rw [hs.readers] at hnone
  exact Finset.card_eq_zero.mp (Int.natCast_eq_zero.mp hnone)

theorem takes_read (hs : HeldBy s h) (hawaits : Awaits (s.threadCounts me) .read)
    (hwriter : h.writer = none) : Takes me s (acquire me .read s) := by
  obtain ⟨hreader, hnoWriter, hnoUpgrade⟩ := hawaits
  have hme := hs.thread me
  have hother : h.upgrader ≠ some me := fun hupgrader =>
    absurd (hme.upgrade_pos.mpr hupgrader) (by omega)
  have hnotMem : me ∉ h.readers := fun hmem => absurd (hme.reader_pos hmem) (by omega)
  refine takes_increment ⟨⟨h.enterRead me hwriter hother, hs.change hs.writerActive
    hs.upgradeableActive ?_ rfl ?_ fun t ht =>
      ⟨Iff.rfl, Iff.rfl, Finset.mem_insert.trans (or_iff_right ht)⟩⟩,
    fun t ht => setCounts_other ht⟩
  · change s.readers_ + 1 = _
    rw [Holders.enterRead, Finset.card_insert_of_notMem hnotMem, hs.readers, Nat.cast_succ]
  · exact { hme with
      reader_nonneg := Int.zero_le_ofNat 1
      counted := iff_of_true rfl (Finset.mem_insert_self _ _)
      reader_pos := fun _ => Int.zero_lt_one
      sheltered := fun _ => Or.inl (Finset.mem_insert_self _ _) }

/-- A thread that does not hold the write lock takes it: there is no writer, no reader, and no
upgrader but the thread itself. -/
theorem takes_write {upgradingToWrite : Bool} (hs : HeldBy s h) (hreaders : h.readers = ∅)
    (hwriter : h.writer = none) (hupgrader : ∀ u, h.upgrader = some u → u = me) :
    Takes me s (acquire me (.write upgradingToWrite) s) := by
  have hme := hs.thread me
  refine takes_increment ⟨⟨h.enterWrite me hreaders hupgrader, hs.change rfl hs.upgradeableActive
    hs.readers rfl ?_ fun t ht => ⟨?_, Iff.rfl, Iff.rfl⟩⟩, fun t ht => setCounts_other ht⟩
  · exact { hme with
      writer_nonneg := Int.add_nonneg hme.writer_nonneg (Int.zero_le_ofNat 1)
      writer_pos := iff_of_true (Int.lt_add_one_of_le hme.writer_nonneg) rfl
      sheltered := fun _ => Or.inr (Or.inl rfl) }
  · rw [hwriter]
    refine iff_of_false (fun h => ht (Option.some.inj h).symm) fun h => by cases h

theorem takes_upgradeable (hs : HeldBy s h) (hnotMem : me ∉ h.readers) (hupgrader : h.upgrader = none)
    (hwriter : ∀ w, h.writer = some w → w = me) :
    Takes me s (acquire me .upgradeable s) := by
  have hme := hs.thread me
  refine takes_increment ⟨⟨h.enterUpgrade me hnotMem hwriter, hs.change hs.writerActive rfl
    hs.readers rfl ?_ fun t ht => ⟨Iff.rfl, ?_, Iff.rfl⟩⟩, fun t ht => setCounts_other ht⟩
  · exact { hme with
      upgrade_nonneg := Int.add_nonneg hme.upgrade_nonneg (Int.zero_le_ofNat 1)
      upgrade_pos := iff_of_true (Int.lt_add_one_of_le hme.upgrade_nonneg) rfl
      sheltered := fun _ => Or.inr (Or.inr rfl) }
  · rw [hupgrader]
    refine iff_of_false (fun h => ht (Option.some.inj h).symm) fun h => by cases h

variable {mode : LockMode}

theorem takes_of_admits (hs : HeldBy s h)
    (hawaits : Awaits (s.threadCounts me) mode) (hadmits : admits mode s = true) :
    Takes me s (acquire me mode s) := by
  have hme := hs.thread me
  cases mode with
  | read =>
    rw [admits, Bool.and_eq_true, Bool.not_eq_true'] at hadmits
    exact takes_read hs hawaits (hs.writer_eq_none hadmits.1)
  | write upgradingToWrite =>
    obtain ⟨hnoWriter, hrest⟩ := hawaits
    have hnotWriter : h.writer ≠ some me := fun hwriter =>
      absurd (hme.writer_pos.mpr hwriter) (by omega)
    cases upgradingToWrite with
    | true =>
      -- The thread is the upgrader, and a writer would be the upgrader.
      have hupgrader := hme.upgrade_pos.mp hrest
      refine takes_write hs (hs.readers_eq_empty (eq_of_beq hadmits)) ?_ ?_
      · refine Option.eq_none_iff_forall_ne_some.mpr fun w hw => ?_
        obtain rfl := h.upgrader_eq w me hw hupgrader
        exact hnotWriter hw
      · intro u hu
        exact Option.some.inj (hu.symm.trans hupgrader)
    | false =>
      rw [admits, Bool.and_eq_true, Bool.and_eq_true, Bool.not_eq_true', Bool.not_eq_true']
        at hadmits
      obtain ⟨⟨hactive, hnone⟩, hupgradeable⟩ := hadmits
      refine takes_write hs (hs.readers_eq_empty (eq_of_beq hnone)) (hs.writer_eq_none hactive) fun u hu => ?_
      rw [hs.upgrader_eq_none hupgradeable] at hu
      cases hu
  | upgradeable =>
    have hreader := hawaits.1
    rw [admits, Bool.and_eq_true, Bool.not_eq_true', Bool.not_eq_true'] at hadmits
    refine takes_upgradeable hs
      (fun hmem => absurd (hme.reader_pos hmem) (by omega)) (hs.upgrader_eq_none hadmits.2)
      fun w hw => ?_
    rw [hs.writer_eq_none hadmits.1] at hw
    cases hw

/-! ## The steps of a function that waits -/

variable {progress : LockProgress}

omit [DecidableEq ι] in
theorem leaves_of_ok (hheld : ∃ h, HeldBy s' h)
    (hother : ∀ t, t ≠ me → s'.threadCounts t = s.threadCounts t)
    (hdone : ∀ activity, progress ≠ .pending activity) : Leaves me s (.ok progress s') :=
  ⟨hheld, hother, fun activity hpending => absurd hpending (hdone activity)⟩

omit [DecidableEq ι] in
theorem leaves_error (e : LockFault) : Leaves me s (.error e s) := by
  cases e <;> first | exact rfl | exact trivial

variable {activity : LockActivity}

omit [DecidableEq ι] in
theorem leaves_pending (hs : HeldBy s h)
    (hfits : Fits (s.threadCounts me) activity) : Leaves me s (.ok (.pending activity) s) := by
  refine ⟨⟨h, hs⟩, fun _ _ => rfl, fun next hnext => ?_⟩
  cases hnext
  exact hfits

variable {millisecondsTimeout : Int32}

theorem look_leaves {s₀ : ReaderWriterLockSlim ι} (hs : HeldBy s h)
    (hsame : s.threadCounts = s₀.threadCounts)
    (hawaits : Awaits (s.threadCounts me) mode) :
    Leaves me s₀ (look me mode millisecondsTimeout s) := by
  rw [look, get_bind]
  split
  case isFalse hrefused =>
    refine ⟨⟨h, hs⟩, fun t _ => congrFun hsame t, fun next hnext => ?_⟩
    cases hnext
    exact hawaits
  case isTrue hadmits =>
    have htakes := takes_of_admits hs hawaits hadmits
    cases htaken : acquire me mode s with
    | error e s' =>
      rw [htaken] at htakes
      obtain rfl : e = .overflow := htakes
      rw [bind_error htaken]
      exact trivial
    | ok u s' =>
      rw [htaken] at htakes
      obtain ⟨⟨h', hheld⟩, hother⟩ := htakes
      rw [bind_ok htaken]
      refine leaves_of_ok ⟨h', hheld.withdrawn mode⟩ (fun t ht => ?_) fun _ h => nomatch h
      rw [threadCounts_withdraw, hother t ht, hsame]

omit [DecidableEq ι] in
theorem announce_cases (mode : LockMode) (s : ReaderWriterLockSlim ι) :
    (∃ s', announce mode s = .ok () s' ∧ s'.threadCounts = s.threadCounts ∧
      ∀ h, HeldBy s h → HeldBy s' h) ∨
    ∃ s', announce mode s = .error .overflow s' := by
  have hcount : ∀ (n : ℤ) (f : ℤ → ReaderWriterLockSlim ι → ReaderWriterLockSlim ι),
      (∀ n, (f n s).threadCounts = s.threadCounts ∧ ∀ h, HeldBy s h → HeldBy (f n s) h) →
      (∃ s', (increment n >>= fun n => modify (f n) : LockProgram ι Unit) s = .ok () s' ∧
        s'.threadCounts = s.threadCounts ∧ ∀ h, HeldBy s h → HeldBy s' h) ∨
      ∃ s', (increment n >>= fun n => modify (f n) : LockProgram ι Unit) s
        = .error .overflow s' := by
    intro n f hf
    by_cases hroom : n < intcsMax
    · exact Or.inl ⟨f (n + 1) s, bind_ok ((increment_eq n s).trans (if_pos hroom)), hf (n + 1)⟩
    · exact Or.inr ⟨s, bind_error ((increment_eq n s).trans (if_neg hroom))⟩
  cases mode with
  | read => exact hcount _ _ fun n => ⟨rfl, fun h hs => hs.congr rfl rfl rfl rfl⟩
  | write upgradingToWrite => exact hcount _ _ fun n => ⟨rfl, fun h hs => hs.congr rfl rfl rfl rfl⟩
  | upgradeable => exact hcount _ _ fun n => ⟨rfl, fun h hs => hs.congr rfl rfl rfl rfl⟩

theorem beginWait_leaves (hs : HeldBy s h) (hawaits : Awaits (s.threadCounts me) mode) :
    Leaves me s (beginWait me mode millisecondsTimeout s) := by
  obtain ⟨s', hannounced, hsame, hheld⟩ | ⟨s', hfull⟩ := announce_cases mode s
  · rw [beginWait, bind_ok hannounced]
    refine look_leaves (hheld h hs) hsame ?_
    rw [hsame]
    exact hawaits
  · rw [beginWait, bind_error hfull]
    exact trivial

theorem grant_leaves (hs : HeldBy s h)
    (hfits : 0 < (s.threadCounts me).writer ∧ (s.threadCounts me).upgrade = 0) :
    Leaves me s (grant me s) := by
  have hme := hs.thread me
  have hwriter := hme.writer_pos.mp hfits.1
  have htakes : Takes me s (acquire me .upgradeable s) := by
    refine takes_upgradeable hs ?_ ?_ fun w hw => Option.some.inj (hw.symm.trans hwriter)
    · rw [h.readers_empty (Option.isSome_of_eq_some hwriter)]
      exact Finset.notMem_empty me
    · refine Option.eq_none_iff_forall_ne_some.mpr fun u hu => ?_
      obtain rfl := h.upgrader_eq me u hwriter hu
      exact absurd (hme.upgrade_pos.mpr hu) (by omega)
  rw [grant]
  cases htaken : acquire me .upgradeable s with
  | error e s' =>
    rw [htaken] at htakes
    obtain rfl : e = .overflow := htakes
    rw [bind_error htaken]
    exact trivial
  | ok u s' =>
    rw [htaken] at htakes
    rw [bind_ok htaken]
    exact leaves_of_ok htakes.1 htakes.2 fun _ h => nomatch h

omit [DecidableEq ι] in
theorem expire_leaves (hs : HeldBy s h) (mode : LockMode) : Leaves me s (expire mode s) := by
  change Leaves me s (.ok (.returned false) (withdraw mode s))
  refine leaves_of_ok ⟨h, hs.withdrawn mode⟩ (fun t _ => ?_) fun _ h => nomatch h
  rw [threadCounts_withdraw]

omit [DecidableEq ι] in
theorem finishDispose_leaves (hs : HeldBy s h) : Leaves me s (finishDispose me s) := by
  rw [finishDispose, get_bind]
  split
  case isTrue hheld => exact leaves_error _
  case isFalse hfree =>
    exact leaves_of_ok ⟨h, hs.congr rfl rfl rfl rfl⟩ (fun _ _ => rfl) fun _ h => nomatch h

theorem nextStep_leaves (hs : HeldBy s h)
    (hfits : Fits (s.threadCounts me) activity) : Leaves me s (nextStep me activity s) := by
  cases activity with
  | entering mode millisecondsTimeout => exact beginWait_leaves hs hfits
  | granting => exact grant_leaves hs hfits
  | waiting mode millisecondsTimeout => exact look_leaves hs rfl hfits
  | disposing => exact finishDispose_leaves hs

/-! ## The first step of a function that enters the lock -/

omit [DecidableEq ι] in
theorem checked_leaves {check : LockProgram ι Unit} {rest : LockProgram ι LockProgress}
    (hcheck : check s = .ok () s ∨ ∃ e, check s = .error e s) (hrest : Leaves me s (rest s)) :
    Leaves me s ((check >>= fun _ => rest) s) := by grind [bind_ok, bind_error, leaves_error]

omit [DecidableEq ι] in
theorem throwIfDisposed_cases (s : ReaderWriterLockSlim ι) :
    throwIfDisposed s = .ok () s ∨ ∃ e, throwIfDisposed s = .error e s := by
  rw [throwIfDisposed, get_bind]
  split
  case isTrue => exact Or.inr ⟨_, rfl⟩
  case isFalse => exact Or.inl rfl

omit [DecidableEq ι] in
theorem validateTimeout_cases (millisecondsTimeout : Int32) (s : ReaderWriterLockSlim ι) :
    validateTimeout millisecondsTimeout s = .ok () s ∨
      ∃ e, validateTimeout millisecondsTimeout s = .error e s := by
  rw [validateTimeout]
  split
  · exact Or.inr ⟨_, rfl⟩
  · exact Or.inl rfl

theorem recounted_leaves (hs : HeldBy s h)
    (hme : Holds counts (h.writer = some me) (h.upgrader = some me) (me ∈ h.readers))
    (hdone : ∀ activity, progress ≠ .pending activity) :
    Leaves me s (.ok progress (setCounts me counts s)) :=
  leaves_of_ok ⟨h, hs.sameHolders hme⟩ (fun _ ht => setCounts_other ht) hdone

theorem again_leaves (hs : HeldBy s h) {n : ℤ} {c : ℤ → ThreadCounts}
    (hagain : Holds (c (n + 1)) (h.writer = some me) (h.upgrader = some me)
      (me ∈ h.readers)) :
    Leaves me s ((do
      let n ← increment n
      modify (setCounts me (c n))
      pure (.returned true) : LockProgram ι LockProgress) s) := by
  by_cases hroom : n < intcsMax
  · rw [bind_ok ((increment_eq n s).trans (if_pos hroom))]
    exact recounted_leaves hs hagain fun _ h => nomatch h
  · rw [bind_error ((increment_eq n s).trans (if_neg hroom))]
    exact trivial

theorem tryEnterReadLock_leaves (hs : HeldBy s h) (millisecondsTimeout : Int32) :
    Leaves me s (tryEnterReadLock me millisecondsTimeout s) := by
  have hme := hs.thread me
  refine checked_leaves (throwIfDisposed_cases s)
    (checked_leaves (validateTimeout_cases _ s) ?_)
  rw [get_bind]
  by_cases hreader : 0 < (s.threadCounts me).reader
  · rw [if_pos hreader]
    split
    case isTrue => exact leaves_error _
    case isFalse =>
      refine again_leaves hs (c := fun n => { s.threadCounts me with reader := n }) ?_
      exact { hme with
        reader_nonneg := Int.add_nonneg hme.reader_nonneg (Int.zero_le_ofNat 1)
        reader_pos := fun _ => Int.lt_add_one_of_le hme.reader_nonneg
        sheltered := fun _ => hme.sheltered hreader }
  rw [if_neg hreader]
  split
  case isTrue => exact leaves_error _
  by_cases hstronger : 0 < (s.threadCounts me).writer ∨ 0 < (s.threadCounts me).upgrade
  · rw [if_pos hstronger]
    -- The read lock is not counted: its thread holds a stronger lock.
    refine recounted_leaves hs ?_ fun _ h => nomatch h
    have hnotMem : me ∉ h.readers := fun hmem => hreader (hme.reader_pos hmem)
    exact { hme with
      reader_nonneg := Int.zero_le_ofNat 1
      counted := iff_of_false Bool.false_ne_true hnotMem
      reader_pos := fun hmem => absurd hmem hnotMem
      sheltered := fun _ => Or.inr (hstronger.imp hme.writer_pos.mp hme.upgrade_pos.mp) }
  rw [if_neg hstronger]
  obtain ⟨hwriter, hupgrade⟩ := not_or.mp hstronger
  exact leaves_pending hs ⟨le_antisymm (not_lt.mp hreader) hme.reader_nonneg,
    le_antisymm (not_lt.mp hwriter) hme.writer_nonneg,
    le_antisymm (not_lt.mp hupgrade) hme.upgrade_nonneg⟩

theorem tryEnterWriteLock_leaves (hs : HeldBy s h) (millisecondsTimeout : Int32) :
    Leaves me s (tryEnterWriteLock me millisecondsTimeout s) := by
  have hme := hs.thread me
  refine checked_leaves (throwIfDisposed_cases s)
    (checked_leaves (validateTimeout_cases _ s) ?_)
  rw [get_bind]
  by_cases hwriter : 0 < (s.threadCounts me).writer
  · rw [if_pos hwriter]
    split
    case isTrue => exact leaves_error _
    case isFalse =>
      refine again_leaves hs (c := fun n => { s.threadCounts me with writer := n }) ?_
      exact { hme with
        writer_nonneg := Int.add_nonneg hme.writer_nonneg (Int.zero_le_ofNat 1)
        writer_pos := iff_of_true (Int.lt_add_one_of_le hme.writer_nonneg)
          (hme.writer_pos.mp hwriter) }
  rw [if_neg hwriter]
  split
  case isTrue => exact leaves_error _
  case isFalse hallowed =>
    refine leaves_pending hs ⟨le_antisymm (not_lt.mp hwriter) hme.writer_nonneg, ?_⟩
    by_cases hupgrade : 0 < (s.threadCounts me).upgrade
    · simp [hupgrade]
    · rw [if_neg (by rw [decide_eq_true_iff]; exact hupgrade)]
      rw [decide_eq_false hupgrade, Bool.not_false, Bool.true_and, decide_eq_true_iff] at hallowed
      exact ⟨le_antisymm (not_lt.mp hupgrade) hme.upgrade_nonneg,
        le_antisymm (not_lt.mp hallowed) hme.reader_nonneg⟩

theorem tryEnterUpgradeableReadLock_leaves (hs : HeldBy s h) (millisecondsTimeout : Int32) :
    Leaves me s (tryEnterUpgradeableReadLock me millisecondsTimeout s) := by
  have hme := hs.thread me
  refine checked_leaves (throwIfDisposed_cases s)
    (checked_leaves (validateTimeout_cases _ s) ?_)
  rw [get_bind]
  by_cases hupgrade : 0 < (s.threadCounts me).upgrade
  · rw [if_pos hupgrade]
    split
    case isTrue => exact leaves_error _
    case isFalse =>
      refine again_leaves hs (c := fun n => { s.threadCounts me with upgrade := n }) ?_
      exact { hme with
        upgrade_nonneg := Int.add_nonneg hme.upgrade_nonneg (Int.zero_le_ofNat 1)
        upgrade_pos := iff_of_true (Int.lt_add_one_of_le hme.upgrade_nonneg)
          (hme.upgrade_pos.mp hupgrade) }
  rw [if_neg hupgrade]
  have hnoUpgrade := le_antisymm (not_lt.mp hupgrade) hme.upgrade_nonneg
  by_cases hwriter : 0 < (s.threadCounts me).writer
  · rw [if_pos hwriter]
    split
    case isTrue => exact leaves_error _
    case isFalse => exact leaves_pending hs ⟨hwriter, hnoUpgrade⟩
  rw [if_neg hwriter]
  split
  case isTrue => exact leaves_error _
  case isFalse hreader =>
    exact leaves_pending hs ⟨le_antisymm (not_lt.mp hreader) hme.reader_nonneg,
      le_antisymm (not_lt.mp hwriter) hme.writer_nonneg, hnoUpgrade⟩

/-! ## The functions that leave the lock -/

theorem exitReadLock_leaves (hs : HeldBy s h) : Leaves me s (exitReadLock me s) := by
  have hme := hs.thread me
  rw [exitReadLock, get_bind]
  by_cases hfree : (s.threadCounts me).reader < 1
  · rw [if_pos hfree]
    exact leaves_error _
  rw [if_neg hfree]
  by_cases hlast : (s.threadCounts me).reader - 1 = 0 ∧
      (s.threadCounts me).readerCountsTowardGlobal = true
  · rw [if_pos hlast]
    have hmem := hme.counted.mp hlast.2
    refine leaves_of_ok ⟨h.exitRead me, hs.change hs.writerActive hs.upgradeableActive ?_ rfl ?_
      fun t ht => ⟨Iff.rfl, Iff.rfl, Finset.mem_erase.trans (and_iff_right ht)⟩⟩
      (fun t ht => setCounts_other ht) fun _ h => nomatch h
    · change s.readers_ - 1 = _
      have hcard := Finset.card_erase_add_one hmem
      rw [Holders.exitRead, hs.readers, ← hcard, Nat.cast_succ, Int.add_sub_cancel]
    · have hnotMem : me ∉ h.readers.erase me := Finset.notMem_erase me _
      exact { hme with
        reader_nonneg := hlast.1.ge
        counted := iff_of_false Bool.false_ne_true hnotMem
        reader_pos := fun hmem => absurd hmem hnotMem
        sheltered := fun hpos => absurd hlast.1 hpos.ne' }
  · rw [if_neg hlast]
    refine recounted_leaves hs ?_ fun _ h => nomatch h
    exact { hme with
      reader_nonneg := Int.sub_nonneg.mpr (not_lt.mp hfree)
      reader_pos := fun hmem => by
        have hnotLast : (s.threadCounts me).reader - 1 ≠ 0 := fun hzero =>
          hlast ⟨hzero, hme.counted.mpr hmem⟩
        change 0 < (s.threadCounts me).reader - 1
        omega
      sheltered := fun _ => hme.sheltered (by omega) }

theorem exitWriteLock_leaves (hs : HeldBy s h)
    (hfirst : (s.threadCounts me).writer = 1 → (s.threadCounts me).upgrade = 0 →
      (s.threadCounts me).reader = 0) : Leaves me s (exitWriteLock me s) := by
  have hme := hs.thread me
  rw [exitWriteLock, get_bind]
  by_cases hfree : (s.threadCounts me).writer < 1
  · rw [if_pos hfree]
    exact leaves_error _
  rw [if_neg hfree]
  have hwriter := hme.writer_pos.mp (by omega)
  by_cases hlast : (s.threadCounts me).writer - 1 = 0
  · rw [if_pos hlast]
    refine leaves_of_ok ⟨h.exitWrite, hs.change rfl hs.upgradeableActive hs.readers rfl ?_
      fun t ht => ⟨?_, Iff.rfl, Iff.rfl⟩⟩ (fun t ht => setCounts_other ht) fun _ h => nomatch h
    · exact { hme with
        writer_nonneg := hlast.ge
        writer_pos := iff_of_false hlast.not_gt fun h => nomatch h
        sheltered := fun hreader => by
          refine Or.inr (Or.inr (hme.upgrade_pos.mp ?_))
          by_contra hupgrade
          have hnone := hfirst (by omega) (le_antisymm (not_lt.mp hupgrade) hme.upgrade_nonneg)
          exact hreader.ne' hnone }
    · rw [hwriter]
      exact iff_of_false (fun h => nomatch h) fun h => ht (Option.some.inj h).symm
  · rw [if_neg hlast]
    refine recounted_leaves hs ?_ fun _ h => nomatch h
    exact { hme with
      writer_nonneg := Int.sub_nonneg.mpr (not_lt.mp hfree)
      writer_pos := by grind }

theorem exitUpgradeableReadLock_leaves (hs : HeldBy s h)
    (hfirst : (s.threadCounts me).upgrade = 1 → (s.threadCounts me).writer = 0 →
      (s.threadCounts me).reader = 0) : Leaves me s (exitUpgradeableReadLock me s) := by
  have hme := hs.thread me
  rw [exitUpgradeableReadLock, get_bind]
  by_cases hfree : (s.threadCounts me).upgrade < 1
  · rw [if_pos hfree]
    exact leaves_error _
  rw [if_neg hfree]
  have hupgrader := hme.upgrade_pos.mp (by omega)
  by_cases hlast : (s.threadCounts me).upgrade - 1 = 0
  · rw [if_pos hlast]
    refine leaves_of_ok ⟨h.exitUpgrade, hs.change hs.writerActive rfl hs.readers rfl ?_
      fun t ht => ⟨Iff.rfl, ?_, Iff.rfl⟩⟩ (fun t ht => setCounts_other ht) fun _ h => nomatch h
    · exact { hme with
        upgrade_nonneg := hlast.ge
        upgrade_pos := iff_of_false hlast.not_gt fun h => nomatch h
        sheltered := fun hreader => by
          refine Or.inr (Or.inl (hme.writer_pos.mp ?_))
          by_contra hwriter
          have hnone := hfirst (by omega) (le_antisymm (not_lt.mp hwriter) hme.writer_nonneg)
          exact hreader.ne' hnone }
    · rw [hupgrader]
      exact iff_of_false (fun h => nomatch h) fun h => ht (Option.some.inj h).symm
  · rw [if_neg hlast]
    refine recounted_leaves hs ?_ fun _ h => nomatch h
    exact { hme with
      upgrade_nonneg := Int.sub_nonneg.mpr (not_lt.mp hfree)
      upgrade_pos := by grind }

omit [DecidableEq ι] in
theorem dispose_leaves (hs : HeldBy s h) : Leaves me s (dispose s) := by
  rw [dispose, get_bind]
  split
  case isTrue => exact leaves_error _
  case isFalse => exact leaves_pending hs trivial

/-! ## Runs -/

/-- What every state of a run has: the lock is held by some holders, and the counts of a thread fit
what it does. -/
def Held (w : LockWorld ι) : Prop :=
  (∃ h, HeldBy w.lock h) ∧
  ∀ t activity, w.activity t = some activity → Fits (w.lock.threadCounts t) activity

variable {w : LockWorld ι}

theorem start_leaves (hs : HeldBy w.lock h) {function : LockCall}
    (hfirst : LeavesReadFirst w (.call me function)) :
    Leaves me w.lock (function.start me w.lock) := by
  cases function with
  | enterReadLock => exact tryEnterReadLock_leaves hs (-1)
  | tryEnterReadLock millisecondsTimeout => exact tryEnterReadLock_leaves hs millisecondsTimeout
  | exitReadLock => exact exitReadLock_leaves hs
  | enterWriteLock => exact tryEnterWriteLock_leaves hs (-1)
  | tryEnterWriteLock millisecondsTimeout => exact tryEnterWriteLock_leaves hs millisecondsTimeout
  | exitWriteLock => exact exitWriteLock_leaves hs hfirst
  | enterUpgradeableReadLock => exact tryEnterUpgradeableReadLock_leaves hs (-1)
  | tryEnterUpgradeableReadLock millisecondsTimeout =>
    exact tryEnterUpgradeableReadLock_leaves hs millisecondsTimeout
  | exitUpgradeableReadLock => exact exitUpgradeableReadLock_leaves hs hfirst
  | dispose => exact dispose_leaves hs

variable {w' : LockWorld ι}

theorem held_after (hw : Held w)
    {result : EStateM.Result LockFault (ReaderWriterLockSlim ι) LockProgress}
    (hleaves : Leaves me w.lock result) (hafter : w.after me result = some w') : Held w' := by
  obtain ⟨hheld, hfits⟩ := hw
  -- The other threads do what they did, with the counts they had.
  have hothers : ∀ {s' : ReaderWriterLockSlim ι} {next : Option LockActivity},
      (∀ t, t ≠ me → s'.threadCounts t = w.lock.threadCounts t) →
      (∀ activity, next = some activity → Fits (s'.threadCounts me) activity) →
      ∀ t activity, Function.update w.activity me next t = some activity →
        Fits (s'.threadCounts t) activity := by grind
  have hnone : ∀ {counts : ThreadCounts}, ∀ activity, none = some activity → Fits counts activity :=
    fun _ h => nomatch h
  cases result with
  | ok progress s' =>
    obtain ⟨hheld', hother, hpending⟩ := hleaves
    cases progress with
    | pending activity =>
      obtain rfl := Option.some.inj hafter
      refine ⟨hheld', hothers hother fun next hnext => ?_⟩
      exact hpending next (congrArg LockProgress.pending (Option.some.inj hnext))
    | returned acquired =>
      obtain rfl := Option.some.inj hafter
      exact ⟨hheld', hothers hother hnone⟩
    | finished =>
      obtain rfl := Option.some.inj hafter
      exact ⟨hheld', hothers hother hnone⟩
  | error e s' =>
    have hthrown : e ≠ .overflow → Held w' := by
      intro he
      obtain rfl : s' = w.lock := by
        cases e <;> first | exact hleaves | exact absurd rfl he
      obtain rfl : _ = w' := by
        cases e <;> first | exact Option.some.inj hafter | exact absurd rfl he
      exact ⟨hheld, hothers (fun _ _ => rfl) hnone⟩
    by_cases he : e = .overflow
    · subst he
      cases hafter
    · exact hthrown he

theorem held_step {action : LockAction ι} (hw : Held w)
    (hfirst : LeavesReadFirst w action) (hstep : step w action = some w') : Held w' := by
  obtain ⟨h, hs⟩ := hw.1
  cases action with
  | call me function =>
    rw [step] at hstep
    split at hstep
    case h_1 => exact held_after hw (start_leaves hs hfirst) hstep
    case h_2 => cases hstep
  | proceed me =>
    rw [step] at hstep
    split at hstep
    case h_1 => cases hstep
    case h_2 activity hactivity =>
      exact held_after hw (nextStep_leaves hs (hw.2 me activity hactivity)) hstep
  | timeOut me =>
    rw [step] at hstep
    split at hstep
    case h_1 mode millisecondsTimeout hactivity =>
      split at hstep
      case isTrue => exact held_after hw (expire_leaves hs mode) hstep
      case isFalse => cases hstep
    case h_2 => cases hstep

omit [DecidableEq ι] in
theorem held_start (recursionPolicy : LockRecursionPolicy) :
    Held (start recursionPolicy : LockWorld ι) := by
  refine ⟨⟨Holders.free, rfl, rfl, rfl, fun t => ?_⟩, fun _ _ h => nomatch h⟩
  exact {
    reader_nonneg := le_rfl
    writer_nonneg := le_rfl
    upgrade_nonneg := le_rfl
    writer_pos := iff_of_false (lt_irrefl 0) fun h => nomatch h
    upgrade_pos := iff_of_false (lt_irrefl 0) fun h => nomatch h
    counted := iff_of_false Bool.false_ne_true (Finset.notMem_empty t)
    reader_pos := fun hmem => absurd hmem (Finset.notMem_empty t)
    sheltered := fun hpos => absurd hpos (lt_irrefl 0) }

/-! ## Mutual exclusion -/

omit [DecidableEq ι] in
theorem HeldBy.exclusive (hs : HeldBy s h) : Exclusive s := by
  have hcounted : {t | 0 < (s.threadCounts t).reader ∧
      (s.threadCounts t).readerCountsTowardGlobal = true} = (h.readers : Set ι) := by
    ext t
    have ht := hs.thread t
    exact ⟨fun hcounts => ht.counted.mp hcounts.2,
      fun hmem => ⟨ht.reader_pos hmem, ht.counted.mpr hmem⟩⟩
  refine ⟨?_, ?_, ?_, ?_, ?_⟩
  · intro t u hwrites hne
    have hwriter := (hs.thread t).writer_pos.mp (of_decide_eq_true hwrites)
    have hnotWriter : h.writer ≠ some u := fun hu => hne (Option.some.inj (hu.symm.trans hwriter))
    have hnotUpgrader : h.upgrader ≠ some u := fun hu => hne (h.upgrader_eq t u hwriter hu)
    have hnotMem : u ∉ h.readers := by
      rw [h.readers_empty (Option.isSome_of_eq_some hwriter)]
      exact Finset.notMem_empty u
    refine ⟨decide_eq_false fun hreader => ?_,
      decide_eq_false fun hw => hnotWriter ((hs.thread u).writer_pos.mp hw),
      decide_eq_false fun hu => hnotUpgrader ((hs.thread u).upgrade_pos.mp hu)⟩
    obtain hmem | hw | hu := (hs.thread u).sheltered hreader
    · exact hnotMem hmem
    · exact hnotWriter hw
    · exact hnotUpgrader hu
  · intro t u ht hu
    have htUpgrader := (hs.thread t).upgrade_pos.mp (of_decide_eq_true ht)
    exact Option.some.inj
      (htUpgrader.symm.trans ((hs.thread u).upgrade_pos.mp (of_decide_eq_true hu)))
  · rw [hs.writerActive, Option.isSome_iff_exists]
    exact exists_congr fun t => (hs.thread t).writer_pos.symm
  · rw [hs.upgradeableActive, Option.isSome_iff_exists]
    exact exists_congr fun t => (hs.thread t).upgrade_pos.symm
  · rw [hcounted, Set.ncard_coe_finset]
    exact ⟨h.readers.finite_toSet, hs.readers⟩

/-- **Mutual exclusion**: in whatever order any number of threads take their steps, if each of them
leaves its read lock before the last write or upgradeable lock it holds, then the thread that holds
the write lock is the only one that holds the lock, one thread at most holds the upgradeable lock,
and the flags and the counter of the lock say who holds it. -/
theorem exclusive_of_leavesReadFirst (recursionPolicy : LockRecursionPolicy)
    (actions : List (LockAction ι)) {w : LockWorld ι}
    (hfirst : Along step LeavesReadFirst (start recursionPolicy) actions)
    (hrun : run step (start recursionPolicy) actions = some w) : Exclusive w.lock := by
  have hheld : Held w := run_holds_along (fun _ _ _ hw hP hstep => held_step hw hP hstep) actions
    (held_start recursionPolicy) hfirst hrun
  obtain ⟨h, hs⟩ := hheld.1
  exact hs.exclusive

/-- A thread reads below the upgradeable lock it holds, and leaves in the order that is safe; the
other thread waits for the write lock and is admitted. -/
theorem exclusive_of_leavesReadFirst_two :
    ∃ w : LockWorld Bool, w.lock.getIsWriteLockHeldProperty false = true ∧ Exclusive w.lock :=
  ⟨_, rfl, exclusive_of_leavesReadFirst .noRecursion
    [.call true .enterUpgradeableReadLock, .proceed true, .call true .enterReadLock,
      .call false .enterWriteLock, .proceed false, .call true .exitReadLock,
      .call true .exitUpgradeableReadLock, .proceed false] (by decide) rfl⟩

theorem not_exclusive_of_held {s : ReaderWriterLockSlim Bool}
    (hreader : s.getIsReadLockHeldProperty true = true)
    (hwriter : s.getIsWriteLockHeldProperty false = true) : ¬ Exclusive s := by
  intro hexclusive
  obtain ⟨hnoReader, -, -⟩ := hexclusive.writer_alone false true hwriter (by decide)
  rw [hreader] at hnoReader
  cases hnoReader

/-- A thread takes the upgradeable lock and then the read lock, or, where recursion is supported,
the write lock and then the read lock, and leaves the stronger lock first.  Its read lock is in no
counter, and another thread is given the write lock. -/
theorem not_exclusive :
    (∃ (actions : List (LockAction Bool)) (w : LockWorld Bool),
      run step (start .noRecursion) actions = some w ∧ ¬ Exclusive w.lock) ∧
    ∃ (actions : List (LockAction Bool)) (w : LockWorld Bool),
      run step (start .supportsRecursion) actions = some w ∧ ¬ Exclusive w.lock :=
  ⟨⟨[.call true .enterUpgradeableReadLock, .proceed true, .call true .enterReadLock,
      .call true .exitUpgradeableReadLock, .call false .enterWriteLock, .proceed false],
      _, rfl, not_exclusive_of_held rfl rfl⟩,
    ⟨[.call true .enterWriteLock, .proceed true, .call true .enterReadLock,
      .call true .exitWriteLock, .call false .enterWriteLock, .proceed false],
      _, rfl, not_exclusive_of_held rfl rfl⟩⟩

end SharpRuntime.Analysis.LockExclusion
