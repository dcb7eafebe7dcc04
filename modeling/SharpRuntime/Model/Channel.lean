import SharpRuntime.Machine.Monitor
import SharpRuntime.Model.Exception

/-!
# `Channel<T>`

`modules/threading-channels/include/System/Threading/Channels/Channel.hpp` (bare line numbers are of
this file) with the options of `ChannelOptions.hpp`, under the source's names.  A member that holds
the mutex throughout is a function of the state, with the condition variables it notifies and its
reply; a member that waits is a `Waiting`.  The completion error is a value of the type `ε`,
`nullptr` is `none`.
-/

set_option autoImplicit false

namespace SharpRuntime.Model

open Machine

/-- SOURCE: BoundedChannelFullMode.hpp:14-23 -/
inductive BoundedChannelFullMode where
  | wait
  | dropNewest
  | dropOldest
  | dropWrite
deriving DecidableEq

/-- The options of a bounded channel; their setters reject a negative capacity.
SOURCE: ChannelOptions.hpp:44-97 -/
structure BoundedChannelOptions where
  capacity : ℤ
  fullMode : BoundedChannelFullMode
  range : 0 ≤ capacity ∧ capacity ≤ intcsMax
deriving DecidableEq

/-- The two condition variables. -/
inductive ConditionVariable where
  | notEmpty
  | notFull
deriving DecidableEq

/-- What a member returns, or that it rethrows the completion error: an item, `true`, `false`, the
error. -/
inductive Reply (τ ε : Type) where
  | item (x : τ)
  | yes
  | no
  | fault (error : ε)
deriving DecidableEq

/-- The members that do not wait. -/
inductive ChannelCall (τ ε : Type) where
  | tryRead
  | tryWrite (item : τ)
  | tryComplete (error : Option ε)
deriving DecidableEq

/-- The members that wait. -/
inductive ChannelWait where
  | waitToReadAsync
  | waitToWriteAsync
  | completion
deriving DecidableEq

variable {τ ε : Type}

/-- What a waiting member does once the channel is closed: rethrow the error, or return. -/
def rethrowOr (closeError : Option ε) (reply : Reply τ ε) : Reply τ ε :=
  match closeError with
  | some error => .fault error
  | none => reply

/-- SOURCE: 189-226 -/
structure ChannelState (τ ε : Type) where
  queue : List τ
  closed : Bool
  closeError : Option ε
  capacity : ℤ
  fullMode : BoundedChannelFullMode
  waitingReaders : ℤ
deriving DecidableEq

namespace ChannelState

variable (s : ChannelState τ ε)

/-- SOURCE: 206 -/
def isRendezvous : Bool :=
  s.capacity == 0

/-- SOURCE: 213-215 -/
def hasWaitingPeer : Bool :=
  decide (toIntcs s.queue.length < s.waitingReaders)

/-- SOURCE: 223-226 -/
def isFull : Bool :=
  decide (0 < s.capacity) && decide (s.capacity ≤ toIntcs s.queue.length)

end ChannelState

namespace ChannelReaderImpl

variable (s : ChannelState τ ε)

/-- SOURCE: 236-259 -/
def tryRead : ChannelState τ ε × List ConditionVariable × Reply τ ε :=
  match s.queue with
  | [] => (s, [], .no)
  | item :: rest => ({ s with queue := rest }, [.notFull, .notEmpty], .item item)

/-- On a rendezvous channel the reader is counted before it waits, and the writers are woken; the
count has no value past the largest `intcs`.
SOURCE: 272-302 -/
def waitToReadAsync : Waiting (ChannelState τ ε) ConditionVariable (Reply τ ε) where
  on := .notEmpty
  enter s :=
    if s.isRendezvous then
      if s.waitingReaders < intcsMax then
        some ({ s with waitingReaders := s.waitingReaders + 1 }, [.notFull])
      else none
    else some (s, [])
  ready s := !s.queue.isEmpty || s.closed
  leave s :=
    (if s.isRendezvous then { s with waitingReaders := s.waitingReaders - 1 } else s, [],
      if s.queue.isEmpty then rethrowOr s.closeError .no else .yes)

/-- SOURCE: 304-311 -/
def getCompletionProperty : Waiting (ChannelState τ ε) ConditionVariable (Reply τ ε) where
  on := .notEmpty
  enter s := some (s, [])
  ready s := s.closed && s.queue.isEmpty
  leave s := (s, [], rethrowOr s.closeError .yes)

end ChannelReaderImpl

namespace ChannelWriterImpl

variable (s : ChannelState τ ε)

/-- What is left of a full queue for the item that is written, unless the write ends here.
SOURCE: 344-357 -/
def makeRoom : Reply τ ε ⊕ List τ :=
  if s.isFull then
    match s.fullMode with
    | .wait => .inl .no
    | .dropWrite => .inl .yes
    | .dropNewest => .inr s.queue.dropLast
    | .dropOldest => .inr s.queue.tail
  else .inr s.queue

/-- SOURCE: 321-372 -/
def tryWrite (item : τ) : ChannelState τ ε × List ConditionVariable × Reply τ ε :=
  if s.closed then (s, [], .no)
  else if s.isRendezvous then
    if s.hasWaitingPeer then ({ s with queue := s.queue ++ [item] }, [.notEmpty], .yes)
    else (s, [], if s.fullMode = .wait then .no else .yes)
  else
    match makeRoom s with
    | .inl reply => (s, [], reply)
    | .inr queue => ({ s with queue := queue ++ [item] }, [.notEmpty], .yes)

/-- SOURCE: 376-393 -/
def waitToWriteAsync : Waiting (ChannelState τ ε) ConditionVariable (Reply τ ε) where
  on := .notFull
  enter s := some (s, [])
  ready s :=
    s.closed || decide (s.fullMode ≠ .wait) ||
      if s.isRendezvous then s.hasWaitingPeer else !s.isFull
  leave s := (s, [], if s.closed then rethrowOr s.closeError .no else .yes)

/-- SOURCE: 395-403 -/
def tryComplete (error : Option ε) : ChannelState τ ε × List ConditionVariable × Reply τ ε :=
  if s.closed then (s, [], .no)
  else ({ s with closed := true, closeError := error }, [.notEmpty, .notFull], .yes)

end ChannelWriterImpl

/-- The members of a FIFO channel over its state. -/
def channel (τ ε : Type) :
    Monitor (ChannelState τ ε) (ChannelCall τ ε) ChannelWait ConditionVariable (Reply τ ε) where
  call
    | .tryRead, s => ChannelReaderImpl.tryRead s
    | .tryWrite item, s => ChannelWriterImpl.tryWrite s item
    | .tryComplete error, s => ChannelWriterImpl.tryComplete s error
  waiting
    | .waitToReadAsync => ChannelReaderImpl.waitToReadAsync
    | .waitToWriteAsync => ChannelWriterImpl.waitToWriteAsync
    | .completion => ChannelReaderImpl.getCompletionProperty

@[simp] theorem channel_call_tryRead (s : ChannelState τ ε) :
    (channel τ ε).call .tryRead s = ChannelReaderImpl.tryRead s :=
  rfl

@[simp] theorem channel_call_tryWrite (s : ChannelState τ ε) (item : τ) :
    (channel τ ε).call (.tryWrite item) s = ChannelWriterImpl.tryWrite s item :=
  rfl

@[simp] theorem channel_call_tryComplete (s : ChannelState τ ε) (error : Option ε) :
    (channel τ ε).call (.tryComplete error) s = ChannelWriterImpl.tryComplete s error :=
  rfl

variable {s : ChannelState τ ε}

theorem ChannelReaderImpl.tryRead_of_nil (h : s.queue = []) : tryRead s = (s, [], .no) := by
  rw [tryRead, h]

theorem ChannelReaderImpl.tryRead_of_cons {x : τ} {queue : List τ} (h : s.queue = x :: queue) :
    tryRead s = ({ s with queue := queue }, [.notFull, .notEmpty], .item x) := by
  rw [tryRead, h]

theorem ChannelWriterImpl.tryComplete_of_closed (h : s.closed = true)
    (error : Option ε) : tryComplete s error = (s, [], .no) := by
  rw [tryComplete, if_pos h]

theorem ChannelWriterImpl.tryComplete_of_open (h : ¬ s.closed = true)
    (error : Option ε) : tryComplete s error =
      ({ s with closed := true, closeError := error }, [.notEmpty, .notFull], .yes) := by
  rw [tryComplete, if_neg h]

namespace Channel

/-- SOURCE: 555-561 -/
def createUnbounded : ChannelState τ ε :=
  ⟨[], false, none, -1, .wait, 0⟩

/-- SOURCE: 569-577 -/
def createBoundedOptions (options : BoundedChannelOptions) : ChannelState τ ε :=
  ⟨[], false, none, options.capacity, options.fullMode, 0⟩

end Channel

/-- SOURCE: 415-427 -/
structure PrioritizedChannelState (τ ε : Type) where
  items : List τ
  comparer : τ → τ → Bool
  closed : Bool
  closeError : Option ε

/-- `std::multiset::insert`: behind every item that the new one does not precede. -/
def multisetInsert (comparer : τ → τ → Bool) (item : τ) (items : List τ) : List τ :=
  items.takeWhile (fun y => !comparer item y) ++
    item :: items.dropWhile (fun y => !comparer item y)

namespace PrioritizedChannelReaderImpl

variable (s : PrioritizedChannelState τ ε)

/-- SOURCE: 436-454 -/
def tryRead : PrioritizedChannelState τ ε × List ConditionVariable × Reply τ ε :=
  match s.items with
  | [] => (s, [], .no)
  | item :: rest => ({ s with items := rest }, [.notEmpty], .item item)

/-- SOURCE: 470-479 -/
def waitToReadAsync : Waiting (PrioritizedChannelState τ ε) ConditionVariable (Reply τ ε) where
  on := .notEmpty
  enter s := some (s, [])
  ready s := !s.items.isEmpty || s.closed
  leave s := (s, [], if s.items.isEmpty then rethrowOr s.closeError .no else .yes)

/-- SOURCE: 481-488 -/
def getCompletionProperty :
    Waiting (PrioritizedChannelState τ ε) ConditionVariable (Reply τ ε) where
  on := .notEmpty
  enter s := some (s, [])
  ready s := s.closed && s.items.isEmpty
  leave s := (s, [], rethrowOr s.closeError .yes)

end PrioritizedChannelReaderImpl

namespace PrioritizedChannelWriterImpl

variable (s : PrioritizedChannelState τ ε)

/-- SOURCE: 499-509 -/
def tryWrite (item : τ) : PrioritizedChannelState τ ε × List ConditionVariable × Reply τ ε :=
  if s.closed then (s, [], .no)
  else ({ s with items := multisetInsert s.comparer item s.items }, [.notEmpty], .yes)

/-- It holds the mutex and waits for nothing.
SOURCE: 515-523 -/
def waitToWriteAsync : Waiting (PrioritizedChannelState τ ε) ConditionVariable (Reply τ ε) where
  on := .notEmpty
  enter s := some (s, [])
  ready _ := true
  leave s := (s, [], if s.closed then rethrowOr s.closeError .no else .yes)

/-- SOURCE: 525-532 -/
def tryComplete (error : Option ε) :
    PrioritizedChannelState τ ε × List ConditionVariable × Reply τ ε :=
  if s.closed then (s, [], .no)
  else ({ s with closed := true, closeError := error }, [.notEmpty], .yes)

end PrioritizedChannelWriterImpl

/-- The members of a prioritized channel over its state. -/
def prioritizedChannel (τ ε : Type) :
    Monitor (PrioritizedChannelState τ ε) (ChannelCall τ ε) ChannelWait ConditionVariable
      (Reply τ ε) where
  call
    | .tryRead, s => PrioritizedChannelReaderImpl.tryRead s
    | .tryWrite item, s => PrioritizedChannelWriterImpl.tryWrite s item
    | .tryComplete error, s => PrioritizedChannelWriterImpl.tryComplete s error
  waiting
    | .waitToReadAsync => PrioritizedChannelReaderImpl.waitToReadAsync
    | .waitToWriteAsync => PrioritizedChannelWriterImpl.waitToWriteAsync
    | .completion => PrioritizedChannelReaderImpl.getCompletionProperty

end SharpRuntime.Model
