import SharpRuntime.Machine.Effects

/-!
# `Barrier`

`modules/threading/include/System/Threading/Barrier.hpp`, under the source's names; bare line
numbers are of this file.  `ι` is the type of the threads, `ε` that of the exceptions of a
post-phase action. What a function does under `mutex_` is one step, with what it reads before it
takes the mutex.  How the action ends is given with the step; its own calls on the barrier are
refused before they touch a field.  The counts stay between zero and 32767; the phase number is a
`longcs` that wraps.
-/

set_option autoImplicit false

namespace SharpRuntime.Model

open Machine

/-- How a function of a barrier ends other than by returning. -/
inductive BarrierFault (ε : Type) where
  | objectDisposed (objectName : String)
  | invalidOperation (message : String)
  | argumentOutOfRange (paramName : String)
  /-- SOURCE: BarrierPostPhaseException.hpp:21-23 -/
  | barrierPostPhase (innerException : ε)
deriving DecidableEq

/-- What happens at a barrier, with the number of the phase it belongs to. -/
inductive BarrierEvent (ι ε : Type) where
  /-- A thread has signalled. -/
  | arrived (me : ι) (phase : ℤ)
  /-- The post-phase action has run; it has thrown, or not. -/
  | acted (phase : ℤ) (outcome : Option ε)
  /-- The phase has ended. -/
  | advanced (phase : ℤ)
  /-- A thread has come back from `signalAndWait`, with a `BarrierPostPhaseException` or not. -/
  | left (me : ι) (phase : ℤ) (threw : Bool)
deriving DecidableEq

/-- The fields of a barrier.  Of the action it is told whether there is one.  The record of what has
happened is no field of the source, and nothing reads it.
SOURCE: 58-88 -/
structure Barrier (ι ε : Type) where
  participantCount_ : ℤ
  remainingCount_ : ℤ
  phaseCount_ : ℤ := 0
  postPhaseAction_ : Bool
  lastPostPhaseException_ : Option ε := none
  actionCallerId_ : Option ι := none
  disposed_ : Bool := false
  history : List (BarrierEvent ι ε) := []

namespace Barrier

variable {ι ε : Type}

/-- A step of a function of a barrier. -/
abbrev BarrierProgram (ι ε α : Type) : Type := Program (BarrierFault ε) (Barrier ι ε) α

/-- SOURCE: 107-112 -/
def new (participantCount : ℤ) (postPhaseAction : Bool) : Except (BarrierFault ε) (Barrier ι ε) :=
  if participantCount < 0 ∨ 32767 < participantCount then
    throw (.argumentOutOfRange "participantCount")
  else pure {
    participantCount_ := participantCount
    remainingCount_ := participantCount
    postPhaseAction_ := postPhaseAction }

/-- An entry of the record. -/
def note (event : BarrierEvent ι ε) (b : Barrier ι ε) : Barrier ι ε :=
  { b with history := b.history ++ [event] }

/-- SOURCE: 90-94 -/
def throwIfCalledFromPostPhaseAction [DecidableEq ι] (me : ι) : BarrierProgram ι ε Unit := do
  if (← get).actionCallerId_ = some me then
    throw (.invalidOperation "This method may not be called from within the postPhaseAction.")

/-- SOURCE: 100-103 -/
def throwIfDisposed : BarrierProgram ι ε Unit := do
  if (← get).disposed_ then throw (.objectDisposed "Barrier")

/-- What the three functions check before they take the mutex.
SOURCE: 148-149, 170-171, 186-187 -/
def enter [DecidableEq ι] (me : ι) : BarrierProgram ι ε Unit := do
  throwIfDisposed
  throwIfCalledFromPostPhaseAction me

/-- SOURCE: 218-252 -/
def finishPhase (me : ι) (outcome : Option ε) : BarrierProgram ι ε Unit := do
  modify fun b => { b with remainingCount_ := b.participantCount_ }
  if (← get).postPhaseAction_ then
    modify fun b => { b with actionCallerId_ := some me }
    modify fun b => note (.acted b.phaseCount_ outcome) { b with lastPostPhaseException_ := outcome }
    modify fun b => { b with actionCallerId_ := none }
  else
    modify fun b => { b with lastPostPhaseException_ := none }
  modify fun b => note (.advanced b.phaseCount_)
    { b with phaseCount_ := Int.bmod (b.phaseCount_ + 1) (2 ^ 64) }
  match (← get).lastPostPhaseException_ with
  | some e => throw (.barrierPostPhase e)
  | none => pure ()

/-- The signal, up to the return or to the wait for the end of a phase, whose number is the result.
SOURCE: 150-157 -/
def signalAndWait (me : ι) (outcome : Option ε) : BarrierProgram ι ε (Option ℤ) := do
  if (← get).participantCount_ = 0 then
    throw (.invalidOperation "The barrier has no registered participants.")
  else
    modify fun b => note (.arrived me b.phaseCount_)
      { b with remainingCount_ := b.remainingCount_ - 1 }
    if (← get).remainingCount_ = 0 then
      finishPhase me outcome
      pure none
    else pure (some (← get).phaseCount_)

/-- The predicate of the wait.
SOURCE: 163 -/
def ended (myPhase : ℤ) (b : Barrier ι ε) : Bool := decide (myPhase < b.phaseCount_)

/-- The end of a wait.
SOURCE: 159-160 -/
def wake : BarrierProgram ι ε Unit := do
  match (← get).lastPostPhaseException_ with
  | some e => throw (.barrierPostPhase e)
  | none => pure ()

/-- SOURCE: 172-177 -/
def addParticipant : BarrierProgram ι ε ℤ := do
  if 32767 ≤ (← get).participantCount_ then
    throw (.invalidOperation ("Adding the specified number of participants would cause the " ++
      "Barrier's participants count to exceed the maximum allowed."))
  else
    modify fun b => { b with
      participantCount_ := b.participantCount_ + 1
      remainingCount_ := b.remainingCount_ + 1 }
    pure (← get).participantCount_

/-- SOURCE: 188-196 -/
def removeParticipant (me : ι) (outcome : Option ε) : BarrierProgram ι ε Unit := do
  if (← get).participantCount_ = 0 then throw (.argumentOutOfRange "participantCount")
  else if (← get).remainingCount_ = 0 then
    throw (.invalidOperation ("The number of participants to remove would result in a negative " ++
      "number of remaining participants for this phase."))
  else
    modify fun b => { b with
      participantCount_ := b.participantCount_ - 1
      remainingCount_ := b.remainingCount_ - 1 }
    if (← get).remainingCount_ = 0 then finishPhase me outcome

/-- SOURCE: 206-209 -/
def dispose [DecidableEq ι] (me : ι) : BarrierProgram ι ε Unit := do
  throwIfCalledFromPostPhaseAction me
  modify fun b => { b with disposed_ := true }

end Barrier

end SharpRuntime.Model
