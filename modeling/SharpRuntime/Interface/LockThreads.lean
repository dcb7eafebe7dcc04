import SharpRuntime.Machine.Transitions
import SharpRuntime.Model.ReaderWriterLockSlim

/-!
# Threads that share a lock

Any number of threads call the functions of one `ReaderWriterLockSlim`, each one function at a time,
and their steps are taken in any order.  Beside this stand what the threads may rely on, and the way
of leaving the lock that the guarantee rests on.
-/

set_option autoImplicit false

namespace SharpRuntime.Interface.LockThreads

open Machine Model
open ReaderWriterLockSlim

variable {ι : Type} [DecidableEq ι]

/-- The lock, and what each thread is doing with it. -/
structure LockWorld (ι : Type) where
  lock : ReaderWriterLockSlim ι
  activity : ι → Option LockActivity

/-- The functions of the lock. -/
inductive LockCall where
  | enterReadLock
  | tryEnterReadLock (millisecondsTimeout : Int32)
  | exitReadLock
  | enterWriteLock
  | tryEnterWriteLock (millisecondsTimeout : Int32)
  | exitWriteLock
  | enterUpgradeableReadLock
  | tryEnterUpgradeableReadLock (millisecondsTimeout : Int32)
  | exitUpgradeableReadLock
  | dispose
deriving DecidableEq

def LockCall.start (me : ι) : LockCall → ReaderWriterLockSlim.LockProgram ι LockProgress
  | enterReadLock => ReaderWriterLockSlim.enterReadLock me
  | tryEnterReadLock millisecondsTimeout =>
    ReaderWriterLockSlim.tryEnterReadLock me millisecondsTimeout
  | exitReadLock => ReaderWriterLockSlim.exitReadLock me
  | enterWriteLock => ReaderWriterLockSlim.enterWriteLock me
  | tryEnterWriteLock millisecondsTimeout =>
    ReaderWriterLockSlim.tryEnterWriteLock me millisecondsTimeout
  | exitWriteLock => ReaderWriterLockSlim.exitWriteLock me
  | enterUpgradeableReadLock => ReaderWriterLockSlim.enterUpgradeableReadLock me
  | tryEnterUpgradeableReadLock millisecondsTimeout =>
    ReaderWriterLockSlim.tryEnterUpgradeableReadLock me millisecondsTimeout
  | exitUpgradeableReadLock => ReaderWriterLockSlim.exitUpgradeableReadLock me
  | dispose => ReaderWriterLockSlim.dispose

def nextStep (me : ι) : LockActivity → LockProgram ι LockProgress
  | .entering mode millisecondsTimeout =>
    beginWait me mode millisecondsTimeout
  | .granting => grant me
  | .waiting mode millisecondsTimeout => look me mode millisecondsTimeout
  | .disposing => finishDispose me

/-- What a thread may do: call a function, take the next step of the one it is in, or give its wait
up because the time has run out. -/
inductive LockAction (ι : Type) where
  | call (me : ι) (function : LockCall)
  | proceed (me : ι)
  | timeOut (me : ι)
deriving DecidableEq

/-- The world after a step of a thread; a step in which a counter overflows leads nowhere. -/
def LockWorld.after (w : LockWorld ι) (me : ι) :
    EStateM.Result LockFault (ReaderWriterLockSlim ι) LockProgress → Option (LockWorld ι)
  | .ok (.pending activity) lock => some ⟨lock, Function.update w.activity me (some activity)⟩
  | .ok _ lock => some ⟨lock, Function.update w.activity me none⟩
  | .error .overflow _ => none
  | .error _ lock => some ⟨lock, Function.update w.activity me none⟩

/-- One action of one thread.  A wait with the time-out `-1` has no end but admission, and one that
ends because of the time does so at a look that fails. -/
def step (w : LockWorld ι) : LockAction ι → Option (LockWorld ι)
  | .call me function =>
    match w.activity me with
    | none => w.after me (function.start me w.lock)
    | some _ => none
  | .proceed me =>
    match w.activity me with
    | none => none
    | some activity => w.after me (nextStep me activity w.lock)
  | .timeOut me =>
    match w.activity me with
    | some (.waiting mode millisecondsTimeout) =>
      if millisecondsTimeout ≠ -1 ∧ w.lock.admits mode = false then
        w.after me (expire mode w.lock)
      else none
    | _ => none

def start (recursionPolicy : LockRecursionPolicy) : LockWorld ι where
  lock := .new recursionPolicy
  activity _ := none

/-- What the threads rely on. -/
structure Exclusive (s : ReaderWriterLockSlim ι) : Prop where
  /-- The thread that holds the write lock is the only one that holds the lock. -/
  writer_alone : ∀ t u, s.getIsWriteLockHeldProperty t = true → u ≠ t →
    s.getIsReadLockHeldProperty u = false ∧ s.getIsWriteLockHeldProperty u = false ∧
      s.getIsUpgradeableReadLockHeldProperty u = false
  /-- One thread at most holds the upgradeable lock. -/
  upgrader_unique : ∀ t u, s.getIsUpgradeableReadLockHeldProperty t = true →
    s.getIsUpgradeableReadLockHeldProperty u = true → t = u
  writerActive_iff : s.writerActive_ = true ↔ ∃ t, 0 < (s.threadCounts t).writer
  upgradeableActive_iff : s.upgradeableActive_ = true ↔ ∃ t, 0 < (s.threadCounts t).upgrade
  /-- The reads counted globally are finitely many, and counted. -/
  readers_eq : {t | 0 < (s.threadCounts t).reader ∧
      (s.threadCounts t).readerCountsTowardGlobal = true}.Finite ∧
    s.readers_ = {t | 0 < (s.threadCounts t).reader ∧
      (s.threadCounts t).readerCountsTowardGlobal = true}.ncard

/-- A thread that leaves the last write or upgradeable lock it holds has left its read lock. -/
def LeavesReadFirst (w : LockWorld ι) : LockAction ι → Prop
  | .call me .exitWriteLock =>
    (w.lock.threadCounts me).writer = 1 → (w.lock.threadCounts me).upgrade = 0 →
      (w.lock.threadCounts me).reader = 0
  | .call me .exitUpgradeableReadLock =>
    (w.lock.threadCounts me).upgrade = 1 → (w.lock.threadCounts me).writer = 0 →
      (w.lock.threadCounts me).reader = 0
  | _ => True

instance (w : LockWorld ι) (action : LockAction ι) : Decidable (LeavesReadFirst w action) := by
  unfold LeavesReadFirst
  split <;> infer_instance

end SharpRuntime.Interface.LockThreads
