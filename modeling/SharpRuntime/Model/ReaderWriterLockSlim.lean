import SharpRuntime.Machine.Effects
import SharpRuntime.Model.Exception

/-!
# `ReaderWriterLockSlim`

`modules/threading/include/System/Threading/ReaderWriterLockSlim.hpp`, under the source's names;
bare line numbers are of this file.  `ι` is the type of the threads.

The counts of a thread are its own, so what a function that leaves the lock does to them is one step
with what it does under `stateMtx_`.  A function that enters reads `disposed_` without the mutex:
what it does before it takes the mutex is a step, and so is every look at the predicate of its wait.
A thread that has not been notified may look, too, and a wait with a time-out may end at any look
that fails.  A count that passes the largest `intcs` ends the step with no defined result.
-/

set_option autoImplicit false

namespace SharpRuntime.Model

open Machine

/-- SOURCE: LockRecursionPolicy.hpp:9-14 -/
inductive LockRecursionPolicy where
  | noRecursion
  | supportsRecursion
deriving DecidableEq

/-- How a function of a lock ends other than by returning. -/
inductive LockFault where
  | lockRecursion (message : String)
  | synchronizationLock (message : String)
  | objectDisposed (objectName : String)
  /-- An exception of the runtime. -/
  | runtime (e : Exception)
  /-- No exception of the source: a counter overflows. -/
  | overflow
deriving DecidableEq

/-- The counts of one thread.
SOURCE: 59-69 -/
structure ThreadCounts where
  reader : ℤ := 0
  writer : ℤ := 0
  upgrade : ℤ := 0
  readerCountsTowardGlobal : Bool := false
deriving DecidableEq

/-- The fields of a lock, and for each thread the entry its own table has for this lock; a thread
without an entry has counts of zero.
SOURCE: 71-140 -/
structure ReaderWriterLockSlim (ι : Type) where
  threadCounts : ι → ThreadCounts
  readers_ : ℤ
  waitingWriters_ : ℤ
  waitingReaders_ : ℤ
  waitingUpgraders_ : ℤ
  writerActive_ : Bool
  upgradeableActive_ : Bool
  disposed_ : Bool
  recursionPolicy_ : LockRecursionPolicy

/-- What a wait is for; a wait for the write lock knows whether it began with the upgradeable one
held. -/
inductive LockMode where
  | read
  | write (upgradingToWrite : Bool)
  | upgradeable
deriving DecidableEq

/-- What a thread does between two of its steps. -/
inductive LockActivity where
  /-- It is about to take the mutex, to wait. -/
  | entering (mode : LockMode) (millisecondsTimeout : Int32)
  /-- It holds the write lock and is about to take the mutex, for the upgradeable lock. -/
  | granting
  /-- It waits on `cv_`. -/
  | waiting (mode : LockMode) (millisecondsTimeout : Int32)
  /-- It has passed the first check of `dispose`. -/
  | disposing
deriving DecidableEq

/-- How a step of a function ends: the function returns, or has steps to go. -/
inductive LockProgress where
  | returned (acquired : Bool)
  | finished
  | pending (activity : LockActivity)
deriving DecidableEq

namespace ReaderWriterLockSlim

variable {ι : Type} [DecidableEq ι]

/-- SOURCE: 166-190 -/
def new (recursionPolicy : LockRecursionPolicy) : ReaderWriterLockSlim ι where
  threadCounts _ := {}
  readers_ := 0
  waitingWriters_ := 0
  waitingReaders_ := 0
  waitingUpgraders_ := 0
  writerActive_ := false
  upgradeableActive_ := false
  disposed_ := false
  recursionPolicy_ := recursionPolicy

/-- The lock with the counts of one thread replaced. -/
def setCounts (me : ι) (counts : ThreadCounts) (s : ReaderWriterLockSlim ι) :
    ReaderWriterLockSlim ι :=
  { s with threadCounts := Function.update s.threadCounts me counts }

/-- A step of a function of the lock. -/
abbrev LockProgram (ι α : Type) : Type := Program LockFault (ReaderWriterLockSlim ι) α

/-- `++` on an `intcs`. -/
def increment (n : ℤ) : LockProgram ι ℤ :=
  if n < intcsMax then pure (n + 1) else throw .overflow

/-- SOURCE: 142-145 -/
def throwIfDisposed : LockProgram ι Unit := do
  if (← get).disposed_ then throw (.objectDisposed "ReaderWriterLockSlim")

/-- SOURCE: 147 -/
def isReentrant (s : ReaderWriterLockSlim ι) : Bool :=
  s.recursionPolicy_ == .supportsRecursion

/-- SOURCE: 160-162 -/
def validateTimeout (millisecondsTimeout : Int32) : LockProgram ι Unit :=
  if millisecondsTimeout < -1 then
    throw (.runtime (.argumentOutOfRange "millisecondsTimeout"
      "'millisecondsTimeout' must be greater than or equal to -1."))
  else pure ()

/-- The predicates of the three waits.
SOURCE: 262, 331-333, 406 -/
def admits (mode : LockMode) (s : ReaderWriterLockSlim ι) : Bool :=
  match mode with
  | .read => !s.writerActive_ && s.waitingWriters_ == 0
  | .write true => s.readers_ == 0
  | .write false => !s.writerActive_ && s.readers_ == 0 && !s.upgradeableActive_
  | .upgradeable => !s.writerActive_ && !s.upgradeableActive_

/-- A thread counts itself among the waiting.
SOURCE: 259, 328, 404 -/
def announce (mode : LockMode) : LockProgram ι Unit := do
  let s ← get
  match mode with
  | .read =>
    let n ← increment s.waitingReaders_
    modify fun s => { s with waitingReaders_ := n }
  | .write _ =>
    let n ← increment s.waitingWriters_
    modify fun s => { s with waitingWriters_ := n }
  | .upgradeable =>
    let n ← increment s.waitingUpgraders_
    modify fun s => { s with waitingUpgraders_ := n }

/-- The waiter count is restored.
SOURCE: 119-127 -/
def withdraw (mode : LockMode) (s : ReaderWriterLockSlim ι) : ReaderWriterLockSlim ι :=
  match mode with
  | .read => { s with waitingReaders_ := s.waitingReaders_ - 1 }
  | .write _ => { s with waitingWriters_ := s.waitingWriters_ - 1 }
  | .upgradeable => { s with waitingUpgraders_ := s.waitingUpgraders_ - 1 }

/-- What a thread does once its predicate holds.
SOURCE: 264-266, 335-336, 407-408 -/
def acquire (me : ι) (mode : LockMode) : LockProgram ι Unit := do
  let s ← get
  let counts := s.threadCounts me
  match mode with
  | .read =>
    let n ← increment s.readers_
    modify fun s => setCounts me { counts with reader := 1, readerCountsTowardGlobal := true }
      { s with readers_ := n }
  | .write _ =>
    let n ← increment counts.writer
    modify fun s => setCounts me { counts with writer := n } { s with writerActive_ := true }
  | .upgradeable =>
    let n ← increment counts.upgrade
    modify fun s => setCounts me { counts with upgrade := n } { s with upgradeableActive_ := true }

/-- A look at the predicate: a thread that is admitted takes the lock and returns.
SOURCE: 149-158, 261-267, 331-337, 406-409 -/
def look (me : ι) (mode : LockMode) (millisecondsTimeout : Int32) :
    LockProgram ι LockProgress := do
  if admits mode (← get) then
    acquire me mode
    modify (withdraw mode)
    pure (.returned true)
  else pure (.pending (.waiting mode millisecondsTimeout))

/-- From taking the mutex to the first look.
SOURCE: 253-260, 318-329, 402-405 -/
def beginWait (me : ι) (mode : LockMode) (millisecondsTimeout : Int32) :
    LockProgram ι LockProgress := do
  announce mode
  look me mode millisecondsTimeout

/-- The time has run out and the predicate does not hold.
SOURCE: 149-158, 263, 334, 406 -/
def expire (mode : LockMode) : LockProgram ι LockProgress := do
  modify (withdraw mode)
  pure (.returned false)

/-- The write lock already held grants the upgradeable lock without a wait.
SOURCE: 389-394 -/
def grant (me : ι) : LockProgram ι LockProgress := do
  acquire me .upgradeable
  pure (.returned true)

/-- SOURCE: 231-268 -/
def tryEnterReadLock (me : ι) (millisecondsTimeout : Int32) : LockProgram ι LockProgress := do
  throwIfDisposed
  validateTimeout millisecondsTimeout
  let s ← get
  let counts := s.threadCounts me
  if 0 < counts.reader then
    if !isReentrant s then
      throw (.lockRecursion "Recursive read lock acquisitions not allowed in this mode.")
    else do
      let n ← increment counts.reader
      modify (setCounts me { counts with reader := n })
      pure (.returned true)
  else if !isReentrant s && decide (0 < counts.writer) then
    throw (.lockRecursion
      "A read lock may not be acquired with the write lock held in this mode.")
  else if 0 < counts.writer ∨ 0 < counts.upgrade then do
    -- The stronger lock admits its own reader, who is not counted.
    modify (setCounts me { counts with reader := 1, readerCountsTowardGlobal := false })
    pure (.returned true)
  else pure (.pending (.entering .read millisecondsTimeout))

/-- SOURCE: 207 -/
def enterReadLock (me : ι) : LockProgram ι LockProgress :=
  tryEnterReadLock me (-1)

/-- SOURCE: 296-338 -/
def tryEnterWriteLock (me : ι) (millisecondsTimeout : Int32) : LockProgram ι LockProgress := do
  throwIfDisposed
  validateTimeout millisecondsTimeout
  let s ← get
  let counts := s.threadCounts me
  if 0 < counts.writer then
    if !isReentrant s then
      throw (.lockRecursion "Recursive write lock acquisitions not allowed in this mode.")
    else do
      let n ← increment counts.writer
      modify (setCounts me { counts with writer := n })
      pure (.returned true)
  else
    let upgradingToWrite := decide (0 < counts.upgrade)
    if !upgradingToWrite && decide (0 < counts.reader) then
      throw (.lockRecursion
        ("Write lock may not be acquired with read lock held. This pattern is prone to " ++
        "deadlocks. Please ensure that read locks are released before taking a write " ++
        "lock. If an upgrade is necessary, use an upgrade lock in place of the read lock."))
    else pure (.pending (.entering (.write upgradingToWrite) millisecondsTimeout))

/-- SOURCE: 274 -/
def enterWriteLock (me : ι) : LockProgram ι LockProgress :=
  tryEnterWriteLock me (-1)

/-- SOURCE: 372-410 -/
def tryEnterUpgradeableReadLock (me : ι) (millisecondsTimeout : Int32) :
    LockProgram ι LockProgress := do
  throwIfDisposed
  validateTimeout millisecondsTimeout
  let s ← get
  let counts := s.threadCounts me
  if 0 < counts.upgrade then
    if !isReentrant s then
      throw (.lockRecursion "Recursive upgradeable lock acquisitions not allowed in this mode.")
    else do
      let n ← increment counts.upgrade
      modify (setCounts me { counts with upgrade := n })
      pure (.returned true)
  else if 0 < counts.writer then
    if !isReentrant s then
      throw (.lockRecursion
        ("Upgradeable lock may not be acquired with write lock held in this mode. " ++
        "Acquiring Upgradeable lock gives the ability to read along with an option " ++
        "to upgrade to a writer."))
    else pure (.pending .granting)
  else if 0 < counts.reader then
    throw (.lockRecursion "Upgradeable lock may not be acquired with read lock held.")
  else pure (.pending (.entering .upgradeable millisecondsTimeout))

/-- SOURCE: 350 -/
def enterUpgradeableReadLock (me : ι) : LockProgram ι LockProgress :=
  tryEnterUpgradeableReadLock me (-1)

/-- SOURCE: 210-226 -/
def exitReadLock (me : ι) : LockProgram ι LockProgress := do
  let counts := (← get).threadCounts me
  if counts.reader < 1 then
    throw (.synchronizationLock "The read lock is being released without being held.")
  else do
    let reader := counts.reader - 1
    if reader = 0 ∧ counts.readerCountsTowardGlobal then
      modify fun s => setCounts me { counts with reader, readerCountsTowardGlobal := false }
        { s with readers_ := s.readers_ - 1 }
    else modify (setCounts me { counts with reader })
    pure .finished

/-- SOURCE: 277-290 -/
def exitWriteLock (me : ι) : LockProgram ι LockProgress := do
  let counts := (← get).threadCounts me
  if counts.writer < 1 then
    throw (.synchronizationLock "The write lock is being released without being held.")
  else do
    let writer := counts.writer - 1
    if writer = 0 then
      modify fun s => setCounts me { counts with writer } { s with writerActive_ := false }
    else modify (setCounts me { counts with writer })
    pure .finished

/-- SOURCE: 353-366 -/
def exitUpgradeableReadLock (me : ι) : LockProgram ι LockProgress := do
  let counts := (← get).threadCounts me
  if counts.upgrade < 1 then
    throw (.synchronizationLock "The upgradeable lock is being released without being held.")
  else do
    let upgrade := counts.upgrade - 1
    if upgrade = 0 then
      modify fun s => setCounts me { counts with upgrade } { s with upgradeableActive_ := false }
    else modify (setCounts me { counts with upgrade })
    pure .finished

/-- The message of both checks of `dispose`.
SOURCE: 438-452 -/
def disposedWhileUsed : LockFault :=
  .synchronizationLock
    ("The lock is being disposed while still being used. It either is being held " ++
    "by a thread and/or has active waiters waiting to acquire the lock.")

/-- The first check, with the mutex held.
SOURCE: 436-443 -/
def dispose : LockProgram ι LockProgress := do
  let s ← get
  if 0 < s.waitingReaders_ ∨ 0 < s.waitingUpgraders_ ∨ 0 < s.waitingWriters_ then
    throw disposedWhileUsed
  else pure (.pending .disposing)

/-- The second check, and the mark.
SOURCE: 445-454 -/
def finishDispose (me : ι) : LockProgram ι LockProgress := do
  let counts := (← get).threadCounts me
  if 0 < counts.reader ∨ 0 < counts.writer ∨ 0 < counts.upgrade then throw disposedWhileUsed
  else do
    modify fun s => { s with disposed_ := true }
    pure .finished

/-- SOURCE: 457-461 -/
def getIsReadLockHeldProperty (s : ReaderWriterLockSlim ι) (me : ι) : Bool :=
  decide (0 < (s.threadCounts me).reader)

/-- SOURCE: 463-467 -/
def getIsWriteLockHeldProperty (s : ReaderWriterLockSlim ι) (me : ι) : Bool :=
  decide (0 < (s.threadCounts me).writer)

/-- SOURCE: 469-473 -/
def getIsUpgradeableReadLockHeldProperty (s : ReaderWriterLockSlim ι) (me : ι) : Bool :=
  decide (0 < (s.threadCounts me).upgrade)

end ReaderWriterLockSlim

end SharpRuntime.Model
