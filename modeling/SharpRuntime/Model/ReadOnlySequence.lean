import SharpRuntime.Model.Exception

/-!
# `ReadOnlySequence`

The class template of `modules/buffers/include/System/Buffers/ReadOnlySequence.hpp`, under the
source's names.

A view of memory is the list of the elements it covers; forming one records whether they lie in
the buffer.  A position is its integer: no function here reads its object. Lines cited without a
file are those of `ReadOnlySequence.hpp`.
-/

set_option autoImplicit false

namespace SharpRuntime.Model

open Machine

/-- SOURCE: SequencePosition.hpp:39-63 -/
structure SequencePosition where
  getInteger : Int32
deriving DecidableEq

/-- SOURCE: 28-51 -/
structure ReadOnlySequence (α : Type) where
  data : List α
  start : Int32
  end_ : Int32
  hasBuffer : Bool
deriving DecidableEq

namespace ReadOnlySequence

variable {α : Type}

/-- What a sequence is built from: a vector, or a pointer to readable elements and a length. -/
inductive Buffer (α : Type) where
  | vector (data : List α)
  | pointer (ptr : Option (List α)) (length : Int32)

/-- SOURCE: 70-76 -/
def validatedCopy (ptr : Option (List α)) (length : Int32) : Run Exception (List α) :=
  if length < 0 then Run.throwing (.outOfRange "length")
  else if ptr.isNone ∧ 0 < length then Run.throwing (.argumentNull "ptr" "Value cannot be null.")
  else do
    Run.observe (length.toInt ≤ (ptr.getD []).length)
    pure ((ptr.getD []).take length.toInt.toNat)

/-- The sequence of all of `data`, whose length is cast to an `int`.
SOURCE: 93-95 -/
def ofVector (data : List α) : ReadOnlySequence α :=
  { data, start := 0, end_ := Int32.ofInt data.length, hasBuffer := true }

/-- The constructors from a buffer.
SOURCE: 93-111 -/
def ofBuffer : Buffer α → Run Exception (ReadOnlySequence α)
  | .vector data => pure (ofVector data)
  | .pointer ptr length => ofVector <$> validatedCopy ptr length

variable (q : ReadOnlySequence α)

/-- SOURCE: 141-143 -/
def getStartProperty : SequencePosition := ⟨q.start⟩

/-- SOURCE: 149-151 -/
def getEndProperty : SequencePosition := ⟨q.end_⟩

/-- SOURCE: 165-167 -/
def getIsEmptyProperty : Bool := q.end_ ≤ q.start

/-- SOURCE: 264-280 -/
def getPositionFrom (offset : Int64) (origin : SequencePosition) :
    Run Exception SequencePosition :=
  if offset < 0 then Run.throwing (.outOfRange "offset")
  else if origin.getInteger < q.start ∨ q.end_ < origin.getInteger then
    Run.throwing (.outOfRange "offset")
  else do
    let room ← Run.signed 64 (q.end_.toInt - origin.getInteger.toInt)
    if room < offset.toInt then Run.throwing (.outOfRange "offset")
    else do
      let sum ← Run.signed 64 (origin.getInteger.toInt + offset.toInt)
      pure ⟨Int32.ofInt sum⟩

/-- SOURCE: 255-257 -/
def getPosition (offset : Int64) : Run Exception SequencePosition :=
  q.getPositionFrom offset q.getStartProperty

/-- The overload from two positions, on which the others rest.
SOURCE: 184-195 -/
def slicePositions (start end_ : SequencePosition) : Run Exception (ReadOnlySequence α) :=
  let s := start.getInteger
  let e := end_.getInteger
  if s < q.start ∨ q.end_ < e ∨ e < s then Run.throwing (.outOfRange "start")
  else
    -- `result` starts out as the default sequence, which has no buffer
    let result : ReadOnlySequence α := { data := [], start := 0, end_ := 0, hasBuffer := false }
    pure { result with data := q.data, start := s, end_ := e }

/-- The arguments of an overload of `slice`. -/
inductive Call where
  | positions (start end_ : SequencePosition)
  | fromPosition (start : SequencePosition)
  | range (start length : Int64)
  | fromOffset (start : Int64)
  | upTo (start : Int64) (end_ : SequencePosition)
  | rangeFrom (start : SequencePosition) (length : Int64)

/-- SOURCE: 184-247 -/
def slice : Call → Run Exception (ReadOnlySequence α)
  | .positions start end_ => q.slicePositions start end_
  | .fromPosition start => q.slicePositions start q.getEndProperty
  | .range start length => do
    let begin_ ← q.getPosition start
    let end_ ← q.getPositionFrom length begin_
    q.slicePositions begin_ end_
  | .fromOffset start => do
    let begin_ ← q.getPosition start
    q.slicePositions begin_ q.getEndProperty
  | .upTo start end_ => do
    let begin_ ← q.getPosition start
    q.slicePositions begin_ end_
  | .rangeFrom start length => do
    let end_ ← q.getPositionFrom length start
    q.slicePositions start end_

/-- A chain of slices, each of what the one before returned. -/
def sliceAll (q : ReadOnlySequence α) : List Call → Run Exception (ReadOnlySequence α)
  | [] => pure q
  | call :: calls => do
    let result ← q.slice call
    sliceAll result calls

/-- The elements of the buffer from `first` to `last`. -/
def elements (first last : ℤ) : Run Exception (List α) := do
  Run.observe (0 ≤ first ∧ first ≤ last ∧ last ≤ q.data.length)
  pure ((q.data.drop first.toNat).take (last - first).toNat)

/-- SOURCE: 173-176 -/
def first : Run Exception (List α) :=
  if q.getIsEmptyProperty then pure []
  else do
    let length ← Run.signed 32 (q.end_.toInt - q.start.toInt)
    q.elements q.start.toInt (q.start.toInt + length)

/-- Whether there was data, the data, and the position after the call.
SOURCE: 297-321 -/
def tryGet (position : SequencePosition) (advance : Bool) :
    Run Exception (Bool × List α × SequencePosition) :=
  let pos := position.getInteger
  if pos < q.start ∨ q.end_ < pos then Run.throwing (.outOfRange "position")
  else if q.end_ ≤ pos then pure (false, [], position)
  else do
    let length ← Run.signed 32 (q.end_.toInt - pos.toInt)
    let memory ← q.elements pos.toInt (pos.toInt + length)
    pure (true, memory, if advance then q.getEndProperty else position)

/-- SOURCE: 336-338 -/
def toArray : Run Exception (List α) :=
  q.elements q.start.toInt q.end_.toInt

/-- The elements of `destination` after the call.
SOURCE: 346-352 -/
def copyTo (destination : List α) : Run Exception (List α) := do
  let len ← Run.signed 32 (q.end_.toInt - q.start.toInt)
  if (destination.length : ℤ) < len then Run.throwing (.outOfRange "destination")
  else do
    let copied ← q.elements q.start.toInt q.end_.toInt
    pure (copied ++ destination.drop copied.length)

/-- The state of an enumerator over a sequence.
SOURCE: 365-368 -/
structure Enumerator where
  step : ℤ

/-- SOURCE: 408 -/
def getEnumerator : Enumerator := ⟨-1⟩

/-- SOURCE: 383-385 -/
def getCurrentProperty : Run Exception (List α) := q.first

/-- Whether there is a segment, and the enumerator after the call.
SOURCE: 393-400 -/
def moveNext (e : Enumerator) : Run Exception (Bool × Enumerator) :=
  if !q.hasBuffer then pure (false, e)
  else do
    let step ← Run.signed 32 (e.step + 1)
    pure (step == 0, ⟨step⟩)

/-- The segments a loop over the enumerator sees, in at most `fuel` rounds. -/
def segments : (fuel : ℕ) → Enumerator → Run Exception (List (List α))
  | 0, _ => Run.diverging
  | fuel + 1, e => do
    let (more, e) ← q.moveNext e
    if more then do
      let current ← q.getCurrentProperty
      let rest ← segments fuel e
      pure (current :: rest)
    else pure []

/-- The data a loop over `tryGet` sees, in at most `fuel` rounds. -/
def fragments : (fuel : ℕ) → SequencePosition → Run Exception (List (List α))
  | 0, _ => Run.diverging
  | fuel + 1, position => do
    let (got, memory, position) ← q.tryGet position true
    if got then do
      let rest ← fragments fuel position
      pure (memory :: rest)
    else pure []

end ReadOnlySequence

end SharpRuntime.Model
