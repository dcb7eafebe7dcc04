import SharpRuntime.Machine.Transitions
import SharpRuntime.Model.Barrier

/-!
# Threads that meet at a barrier

Any number of threads call the functions of one `Barrier`, each one function at a time, and their
steps are taken in any order; a thread that waits may be given its turn any time after its phase has
ended.  Beside this stand what the threads may rely on, phase by phase, and the histories in which
they may.
-/

set_option autoImplicit false

namespace SharpRuntime.Interface.BarrierThreads

open Machine Model

variable {ι ε : Type} [DecidableEq ι]

/-- The functions whose work is done under the mutex. -/
inductive BarrierCall where
  | signalAndWait
  | addParticipant
  | removeParticipant
deriving DecidableEq

/-- What a thread does between two of its steps. -/
inductive BarrierActivity where
  /-- It has passed the checks of the function and is about to take the mutex. -/
  | entered (function : BarrierCall)
  /-- It waits on `cv_`. -/
  | waiting (myPhase : ℤ)
deriving DecidableEq

/-- The barrier, and what each thread is doing with it. -/
structure BarrierWorld (ι ε : Type) where
  barrier : Barrier ι ε
  activity : ι → Option BarrierActivity

/-- What a function does under the mutex; the phase to wait for, if it waits. -/
def BarrierCall.body (me : ι) (outcome : Option ε) :
    BarrierCall → Barrier.BarrierProgram ι ε (Option ℤ)
  | signalAndWait => Barrier.signalAndWait me outcome
  | addParticipant => do
    let _ ← Barrier.addParticipant
    pure none
  | removeParticipant => do
    Barrier.removeParticipant me outcome
    pure none

/-- What a thread may do.  A step under the mutex is told how the post-phase action ends, should the
step run it. -/
inductive BarrierAction (ι ε : Type) where
  | call (me : ι) (function : BarrierCall)
  | proceed (me : ι) (outcome : Option ε)
  | resume (me : ι)
  | dispose (me : ι)
deriving DecidableEq

def BarrierWorld.finish (w : BarrierWorld ι ε) (me : ι) (b : Barrier ι ε) : BarrierWorld ι ε :=
  ⟨b, Function.update w.activity me none⟩

def BarrierWorld.leave (w : BarrierWorld ι ε) (me : ι) (myPhase : ℤ) (threw : Bool)
    (b : Barrier ι ε) : BarrierWorld ι ε :=
  w.finish me (b.note (.left me myPhase threw))

def BarrierWorld.after (w : BarrierWorld ι ε) (me : ι) :
    BarrierCall → EStateM.Result (BarrierFault ε) (Barrier ι ε) (Option ℤ) → BarrierWorld ι ε
  | _, .ok (some myPhase) b => ⟨b, Function.update w.activity me (some (.waiting myPhase))⟩
  | .signalAndWait, .ok none b => w.leave me w.barrier.phaseCount_ false b
  | .signalAndWait, .error (.barrierPostPhase _) b => w.leave me w.barrier.phaseCount_ true b
  | _, .ok none b => w.finish me b
  | _, .error _ b => w.finish me b

def step (w : BarrierWorld ι ε) : BarrierAction ι ε → Option (BarrierWorld ι ε)
  | .call me function =>
    match w.activity me with
    | none =>
      match Barrier.enter me w.barrier with
      | .ok _ b => some ⟨b, Function.update w.activity me (some (.entered function))⟩
      | .error _ b => some (w.finish me b)
    | some _ => none
  | .proceed me outcome =>
    match w.activity me with
    | some (.entered function) => some (w.after me function (function.body me outcome w.barrier))
    | _ => none
  | .resume me =>
    match w.activity me with
    | some (.waiting myPhase) =>
      if Barrier.ended myPhase w.barrier then
        match Barrier.wake w.barrier with
        | .ok _ b => some (w.leave me myPhase false b)
        | .error _ b => some (w.leave me myPhase true b)
      else none
    | _ => none
  | .dispose me =>
    match w.activity me with
    | none => some (w.finish me (after (Barrier.dispose me w.barrier)))
    | some _ => none

def start (b : Barrier ι ε) : BarrierWorld ι ε where
  barrier := b
  activity _ := none

def eventPhase : BarrierEvent ι ε → ℤ
  | .arrived _ phase => phase
  | .acted phase _ => phase
  | .advanced phase => phase
  | .left _ phase _ => phase

def course (b : Barrier ι ε) (phase : ℤ) : List (BarrierEvent ι ε) :=
  b.history.filter fun event => eventPhase event = phase

def parked (w : BarrierWorld ι ε) : Set ι :=
  {t | w.activity t = some (.waiting w.barrier.phaseCount_)}

/-- The course of a phase that has ended: all arrivals, then one run of the post-phase action, if
the barrier has one, then the end of the phase, and only then the returns, each of which throws
exactly if the action has thrown. -/
def Ended (postPhaseAction : Bool) (phase : ℤ) (events : List (BarrierEvent ι ε)) : Prop :=
  ∃ (arrivals returns : List ι) (outcome : Option ε),
    (postPhaseAction = false → outcome = none) ∧
    events = arrivals.map (.arrived · phase) ++
      (if postPhaseAction then [.acted phase outcome] else []) ++ [.advanced phase] ++
      returns.map (.left · phase outcome.isSome)

/-- What the threads rely on between two steps. -/
structure Phased (w : BarrierWorld ι ε) : Prop where
  remaining_bounds : 0 ≤ w.barrier.remainingCount_ ∧
    w.barrier.remainingCount_ ≤ w.barrier.participantCount_
  remaining_eq : (parked w).Finite ∧
    w.barrier.remainingCount_ = w.barrier.participantCount_ - (parked w).ncard
  ended : ∀ k, 0 ≤ k → k < w.barrier.phaseCount_ →
    Ended w.barrier.postPhaseAction_ k (course w.barrier k)
  /-- In the current phase threads have arrived, and nothing else has happened. -/
  current : ∃ arrivals : List ι, course w.barrier w.barrier.phaseCount_ =
    arrivals.map (.arrived · w.barrier.phaseCount_)
  /-- Nothing has happened in a phase to come, and there is none before the first. -/
  outside : ∀ k, k < 0 ∨ w.barrier.phaseCount_ < k → course w.barrier k = []

/-- With this action every current participant has arrived or been removed. -/
def Completes (w : BarrierWorld ι ε) : BarrierAction ι ε → Prop
  | .proceed me _ =>
    0 < w.barrier.participantCount_ ∧
      (w.activity me = some (.entered .signalAndWait) ∧
          (parked w).ncard + 1 = w.barrier.participantCount_ ∨
        w.activity me = some (.entered .removeParticipant) ∧
          (parked w).ncard = w.barrier.participantCount_ - 1)
  | _ => False

/-- The phase number stays or increases by one, and it increases exactly when every current
participant has arrived or been removed. -/
def Advances (w : BarrierWorld ι ε) (action : BarrierAction ι ε) (w' : BarrierWorld ι ε) : Prop :=
  (w'.barrier.phaseCount_ = w.barrier.phaseCount_ ∨
      w'.barrier.phaseCount_ = w.barrier.phaseCount_ + 1) ∧
    (w'.barrier.phaseCount_ = w.barrier.phaseCount_ + 1 ↔ Completes w action)

/-- The event is a run of the post-phase action that has thrown. -/
def isThrow : BarrierEvent ι ε → Bool
  | .acted _ (some _) => true
  | _ => false

def actionThrew (b : Barrier ι ε) (phase : ℤ) : Bool := (course b phase).any isThrow

/-- A waiter is given its turn while the action of the phase that ended last has ended as that of
its own phase has, by throwing or not; and no phase ends with the largest `longcs` for its number. -/
def Timely (w : BarrierWorld ι ε) : BarrierAction ι ε → Prop
  | .proceed _ _ => w.barrier.remainingCount_ = 1 → w.barrier.phaseCount_ < 2 ^ 63 - 1
  | .resume me =>
    match w.activity me with
    | some (.waiting myPhase) =>
      actionThrew w.barrier (w.barrier.phaseCount_ - 1) = actionThrew w.barrier myPhase
    | _ => True
  | _ => True

instance (w : BarrierWorld ι ε) (action : BarrierAction ι ε) : Decidable (Timely w action) := by
  unfold Timely
  split
  · infer_instance
  · split <;> infer_instance
  · infer_instance

end SharpRuntime.Interface.BarrierThreads
