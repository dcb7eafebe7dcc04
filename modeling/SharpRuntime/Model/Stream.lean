import SharpRuntime.Machine.Effects
import SharpRuntime.Machine.Tape
import SharpRuntime.Model.Exception

/-!
# Streams of bytes

The exceptions of the stream classes, the parts of `Stream` that are written in terms of the
functions a stream has to supply, and the plain stream: readable, writable and seekable, an array
of bytes with a position.

A call names a region of its caller's memory by a pointer, an offset and a count.  The bytes from
the pointer on are a list, as long as the call says; a call to read returns those it has put there,
so that the number it reports is their number.  Bare line numbers are of the file named last.
-/

set_option autoImplicit false

namespace SharpRuntime.Model

open Machine

/-- What a stream, or a reader or a writer over one, may throw. -/
inductive StreamException where
  /-- An exception of the runtime. -/
  | runtime (e : Exception)
  | io (message : String)
  | endOfStream (message : String)
  | objectDisposed (objectName message : String)
  /-- No exception of the source: the call has no result, or the bound on the rounds of a loop was
  too small. -/
  | diverged
deriving DecidableEq

/-- The end of the stream, with the text of its default constructor.
SOURCE: EndOfStreamException.cpp:8-15 -/
def StreamException.endOfStreamException : StreamException :=
  .endOfStream "Attempted to read past the end of the stream."

/-- A disposed object, named; the text of the message names it once more.
SOURCE: ObjectDisposedException.cpp:12-42 -/
def StreamException.objectDisposedException (objectName : String) : StreamException :=
  .objectDisposed objectName "Cannot access a disposed object."

/-- Where an offset counts from. -/
inductive SeekOrigin where
  | begin
  | current
  | end_
deriving DecidableEq

/-- The exception of a negative position or length.
SOURCE: MemoryStream.cpp:165-181, BufferedStream.cpp:212-241 -/
def valueOutOfRange : StreamException :=
  .runtime (.argumentOutOfRange "value" "Non-negative number required.")

/-- The exception of a negative argument.
SOURCE: MemoryStream.cpp:78-79, 104-105 -/
def negative (paramName : String) : StreamException :=
  .runtime (.argumentOutOfRange paramName "Non-negative number required.")

namespace Stream

variable {σ : Type}

/-- Moving the position, over the functions a stream supplies.
SOURCE: Stream.cpp:27-56 -/
def seek (getPositionProperty getLengthProperty : Program StreamException σ ℤ)
    (setPositionProperty : ℤ → Program StreamException σ Unit) (offset : ℤ) (origin : SeekOrigin) :
    Program StreamException σ ℤ := do
  let newPosition ← match origin with
    | .begin => pure offset
    | .current => do
      let position ← getPositionProperty
      pure (position + offset)
    | .end_ => do
      let length ← getLengthProperty
      pure (length + offset)
  if newPosition < 0 then
    throw (.io "An attempt was made to move the position before the beginning of the stream.")
  else do
    setPositionProperty newPosition
    pure newPosition

/-- SOURCE: 15-17 -/
def writeByte (write : Option (List UInt8) → ℤ → ℤ → Program StreamException σ Unit)
    (value : UInt8) : Program StreamException σ Unit :=
  write (some [value]) 0 1

/-- The byte that is read, or `-1` at the end of the stream.
SOURCE: 62-66 -/
def readByte (read : ℕ → Program StreamException σ (List UInt8)) : Program StreamException σ ℤ := do
  let bytes ← read 1
  match bytes with
  | [] => pure (-1)
  | b :: _ => pure b.toNat

end Stream

/-- The bytes of a region. -/
def regionBytes (buffer : Option (List UInt8)) (offset count : ℤ) : List UInt8 :=
  ((buffer.getD []).drop offset.toNat).take count.toNat

/-- What a stream with an array checks of a region.
SOURCE: MemoryStream.cpp:77-79, 103-105 -/
def checkRegion {σ : Type} (buffer : Option (List UInt8)) (offset count : ℤ) :
    Program StreamException σ Unit :=
  if buffer = none then throw (.runtime (.argumentNull "buffer" "Value cannot be null."))
  else if offset < 0 then throw (negative "offset")
  else if count < 0 then throw (negative "count")
  else pure ()

/-- An array of bytes and a position in it. -/
abbrev ByteStream : Type := Tape UInt8

namespace ByteStream

/-- All the bytes there are, up to the count. -/
def takeBytes (count : ℕ) : Program StreamException ByteStream (List UInt8) := fun t =>
  .ok (t.peek count) (t.skip (t.peek count).length)

def read (buffer : Option (List UInt8)) (offset count : ℤ) :
    Program StreamException ByteStream (List UInt8) := do
  checkRegion buffer offset count
  takeBytes count.toNat

def write (buffer : Option (List UInt8)) (offset count : ℤ) :
    Program StreamException ByteStream Unit := do
  checkRegion buffer offset count
  modify (·.put (regionBytes buffer offset count))

def flush : Program StreamException ByteStream Unit := pure ()

def getLengthProperty : Program StreamException ByteStream ℤ := do
  let t ← get
  pure t.content.length

def getPositionProperty : Program StreamException ByteStream ℤ := do
  let t ← get
  pure t.position

def setPositionProperty (value : ℤ) : Program StreamException ByteStream Unit :=
  if value < 0 then throw valueOutOfRange else modify (·.moveTo value.toNat)

def setLength (value : ℤ) : Program StreamException ByteStream Unit :=
  if value < 0 then throw valueOutOfRange else modify (·.resize value.toNat)

def writeByte (value : UInt8) : Program StreamException ByteStream Unit :=
  Stream.writeByte write value

def seek (offset : ℤ) (origin : SeekOrigin) : Program StreamException ByteStream ℤ :=
  Stream.seek getPositionProperty getLengthProperty setPositionProperty offset origin

end ByteStream

/-!
# The memory stream

A stream over a vector of bytes.  The pointer of a region is never null here.
-/

/-- The stream's fields, and the bound that every write keeps.
SOURCE: MemoryStream.hpp:16-23 -/
structure MemoryStream where
  data_ : List UInt8
  position_ : ℕ
  writable_ : Bool
  isOpen_ : Bool
  size_le : data_.length ≤ intcsMax

namespace MemoryStream

/-- An empty, writable stream.
SOURCE: MemoryStream.cpp:57-58 -/
def empty : MemoryStream := ⟨[], 0, true, true, Nat.zero_le _⟩

/-- SOURCE: 63-66 -/
def ensureNotClosed : Program StreamException MemoryStream Unit := do
  let s ← get
  if s.isOpen_ then pure () else throw (.objectDisposedException "Cannot access a closed Stream.")

/-- The bytes that are put into the caller's region, at its offset.
SOURCE: 74-86 -/
def read (offset count : ℤ) : Program StreamException MemoryStream (List UInt8) := do
  ensureNotClosed
  if offset < 0 then throw (negative "offset")
  else if count < 0 then throw (negative "count")
  else do
    let s ← get
    let remaining : ℤ := (s.data_.length : ℤ) - s.position_
    let toRead := min count remaining
    if toRead ≤ 0 then pure []
    else do
      set { s with position_ := s.position_ + toRead.toNat }
      pure ((s.data_.drop s.position_).take toRead.toNat)

/-- The vector after a write: it is resized first where it is too short. -/
def written (data : List UInt8) (position : ℕ) (bytes : List UInt8) : List UInt8 :=
  if position + bytes.length > data.length then
    overlay (zeroPadded data (position + bytes.length)) position bytes
  else overlay data position bytes

theorem length_written (data : List UInt8) (position : ℕ) (bytes : List UInt8) :
    (written data position bytes).length = max data.length (position + bytes.length) := by
  rw [written]
  split
  · rw [length_overlay, length_zeroPadded]
    omega
  · rw [length_overlay]

/-- SOURCE: 88-127 -/
def write (buffer : List UInt8) (offset count : ℤ) : Program StreamException MemoryStream Unit := do
  ensureNotClosed
  let s ← get
  if !s.writable_ then throw (.runtime (.notSupported "Stream does not support writing."))
  else if offset < 0 then throw (negative "offset")
  else if count < 0 then throw (negative "count")
  else if count = 0 then pure ()
  else
    let bytes := (buffer.drop offset.toNat).take count.toNat
    if h : s.position_ + bytes.length > intcsMax then throw (.io "Stream was too long.")
    else
      set { s with
        data_ := written s.data_ s.position_ bytes
        position_ := s.position_ + bytes.length
        size_le := by
          have hle := s.size_le
          rw [length_written]
          omega }

/-- A position at the end of its type has no successor, and the call no result.
SOURCE: 129-136 -/
def writeByte (value : UInt8) : Program StreamException MemoryStream Unit := do
  ensureNotClosed
  let s ← get
  if !s.writable_ then throw (.runtime (.notSupported "Stream does not support writing."))
  else if hroom : s.position_ < intcsMax then
    if h : s.position_ ≥ s.data_.length then
      set { s with
        data_ := s.data_ ++ [value]
        position_ := s.position_ + 1
        size_le := by
          rw [List.length_append, List.length_singleton]
          omega }
    else
      set { s with
        data_ := s.data_.set s.position_ value
        position_ := s.position_ + 1
        size_le := by
          rw [List.length_set]
          exact s.size_le }
  else throw .diverged

/-- SOURCE: 153-157 -/
def getLengthProperty : Program StreamException MemoryStream ℤ := do
  ensureNotClosed
  let s ← get
  pure s.data_.length

/-- SOURCE: 159-163 -/
def getPositionProperty : Program StreamException MemoryStream ℤ := do
  ensureNotClosed
  let s ← get
  pure s.position_

/-- SOURCE: 165-171 -/
def setPositionProperty (value : ℤ) : Program StreamException MemoryStream Unit := do
  ensureNotClosed
  if value < 0 then throw valueOutOfRange
  else modify fun s => { s with position_ := value.toNat }

/-- `vector::resize` drops the bytes past the length, or adds zeros.
SOURCE: 173-182 -/
def setLength (value : Int32) : Program StreamException MemoryStream Unit := do
  ensureNotClosed
  if value.toInt < 0 then throw valueOutOfRange
  else do
    let s ← get
    if !s.writable_ then throw (.runtime (.notSupported "Stream does not support writing."))
    else set { s with
      data_ := zeroPadded s.data_ value.toInt.toNat
      position_ := if s.position_ > value.toInt.toNat then value.toInt.toNat else s.position_
      size_le := by
        have hlt := value.toInt_lt
        rw [length_zeroPadded]
        unfold intcsMax
        omega }

/-- A sum past the end of its type has no result.
SOURCE: Stream.cpp:27-56 -/
def seek (offset : Int32) (origin : SeekOrigin) : Program StreamException MemoryStream ℤ :=
  Stream.seek getPositionProperty getLengthProperty
    (fun value => if value ≤ intcsMax then setPositionProperty value else throw .diverged)
    offset.toInt origin

/-- SOURCE: MemoryStream.hpp:137 -/
def getCanSeekProperty : Program StreamException MemoryStream Bool := do
  let s ← get
  pure s.isOpen_

/-- SOURCE: Stream.cpp:62-66 -/
def readByte : Program StreamException MemoryStream ℤ :=
  Stream.readByte fun count => read 0 count

end MemoryStream

/-!
# The buffered stream

One buffer in front of another stream, for bytes read ahead of its caller or for bytes not yet
written, never for both.  The numbers of the source are 32-bit; they are unbounded here, so that
the definitions are the source's wherever its arithmetic stays inside its range.
-/

/-- A buffered stream over a plain one.  `buffer_` is empty until it is first needed.
SOURCE: BufferedStream.hpp:28-45, BufferedStream.cpp:18-23 -/
structure BufferedStream where
  inner_ : ByteStream
  bufferSize_ : ℕ
  closed_ : Bool
  buffer_ : List UInt8
  readPos_ : ℕ
  readLen_ : ℕ
  writePos_ : ℕ
  bufferSize_pos : 0 < bufferSize_

namespace BufferedStream

variable {α : Type}

/-- The constructor, for a stream that is there.
SOURCE: 18-23 -/
def new (stream : ByteStream) (bufferSize : ℤ) : Except StreamException BufferedStream :=
  if h : bufferSize ≤ 0 then
    .error (.runtime (.argumentOutOfRange "bufferSize" "Positive number required."))
  else
    .ok ⟨stream, bufferSize.toNat, false, [], 0, 0, 0, by omega⟩

/-- A call on the stream behind the buffer. -/
def inner (p : Program StreamException ByteStream α) : Program StreamException BufferedStream α :=
  onField inner_ (fun t s => { s with inner_ := t }) p

/-- The stream behind the buffer is readable, writable and seekable.
SOURCE: BufferedStream.hpp:104-105 -/
def getCanSeekProperty : Program StreamException BufferedStream Bool := pure true

/-- SOURCE: 102-103 -/
def getCanWriteProperty : Program StreamException BufferedStream Bool := pure true

/-- SOURCE: BufferedStream.cpp:29-31 -/
def ensureNotClosed : Program StreamException BufferedStream Unit := do
  let s ← get
  if s.closed_ then throw (.objectDisposedException "Cannot access a closed stream.") else pure ()

/-- SOURCE: 33-35 -/
def ensureBufferAllocated : Program StreamException BufferedStream Unit :=
  modify fun s =>
    if s.buffer_ = [] then { s with buffer_ := List.replicate s.bufferSize_ 0 } else s

/-- SOURCE: 40-46 -/
def flushWrite : Program StreamException BufferedStream Unit := do
  let s ← get
  if s.writePos_ > 0 then do
    inner (ByteStream.write (some s.buffer_) 0 s.writePos_)
    modify fun s => { s with writePos_ := 0 }
    inner ByteStream.flush
  else pure ()

/-- Forgets the bytes read ahead. -/
def dropRead : Program StreamException BufferedStream Unit :=
  modify fun s => { s with readPos_ := 0, readLen_ := 0 }

/-- SOURCE: 51-56 -/
def flushRead : Program StreamException BufferedStream Unit := do
  let s ← get
  if s.readPos_ ≠ s.readLen_ then do
    let _ ← inner (ByteStream.seek ((s.readPos_ : ℤ) - s.readLen_) .current)
    dropRead
  else dropRead

/-- SOURCE: 58-69 -/
def clearReadBufferBeforeWrite : Program StreamException BufferedStream Unit := do
  let s ← get
  if s.readPos_ = s.readLen_ then dropRead
  else do
    let canSeek ← getCanSeekProperty
    if canSeek then flushRead
    else throw (.runtime (.notSupported
      ("Cannot write to a BufferedStream while the read buffer still has unconsumed data " ++
      "and the underlying stream does not support seeking.")))

/-- `memcpy` of `n` bytes, to or from a region, copies them.  A negative number of them is a huge
`size_t`; a null pointer and a negative offset name no byte.
SOURCE: 75, 123 -/
def Copies (region : Option (List UInt8)) (offset n : ℤ) : Prop :=
  n = 0 ∨ (0 < n ∧ region ≠ none ∧ 0 ≤ offset)

instance (region : Option (List UInt8)) (offset n : ℤ) : Decidable (Copies region offset n) :=
  inferInstanceAs (Decidable (_ ∨ _))

/-- A copy that goes astray has no result.
SOURCE: 71-78 -/
def readFromBuffer (dst : Option (List UInt8)) (offset count : ℤ) :
    Program StreamException BufferedStream (List UInt8) := do
  let s ← get
  let available : ℤ := (s.readLen_ : ℤ) - s.readPos_
  if available ≤ 0 then pure []
  else
    let n := min available count
    if Copies dst offset n then do
      set { s with readPos_ := s.readPos_ + n.toNat }
      pure ((s.buffer_.drop s.readPos_).take n.toNat)
    else throw .diverged

/-- Reads ahead: the bytes are stored at the front of the buffer.
SOURCE: 101-102 -/
def fillBuffer : Program StreamException BufferedStream Unit := do
  ensureBufferAllocated
  let s ← get
  let bytes ← inner (ByteStream.read (some s.buffer_) 0 s.bufferSize_)
  modify fun s => { s with buffer_ := overlay s.buffer_ 0 bytes, readLen_ := bytes.length }

/-- The part of `read` after the bytes read ahead.
SOURCE: 91-104 -/
def readRest (buffer : Option (List UInt8)) (offset count : ℤ) (fromBuffer : List UInt8) :
    Program StreamException BufferedStream (List UInt8) := do
  dropRead
  flushWrite
  let s ← get
  if (s.bufferSize_ : ℤ) ≤ count then do
    let bytes ← inner (ByteStream.read buffer offset count)
    pure (fromBuffer ++ bytes)
  else do
    fillBuffer
    let bytes ← readFromBuffer buffer offset count
    pure (fromBuffer ++ bytes)

/-- SOURCE: 80-105 -/
def read (buffer : Option (List UInt8)) (offset count : ℤ) :
    Program StreamException BufferedStream (List UInt8) := do
  ensureNotClosed
  let fromBuffer ← readFromBuffer buffer offset count
  if (fromBuffer.length : ℤ) = count then pure fromBuffer
  else
    readRest buffer (offset + fromBuffer.length) (count - fromBuffer.length) fromBuffer

/-- The part of a round that copies as much as there is room for.
SOURCE: 119-127 -/
def copyToBuffer (buffer : Option (List UInt8)) (offset n : ℤ) :
    Program StreamException BufferedStream Unit :=
  if n > 0 then do
    ensureBufferAllocated
    if Copies buffer offset n then
      modify fun s => { s with
        buffer_ := overlay s.buffer_ s.writePos_ (regionBytes buffer offset n)
        writePos_ := s.writePos_ + n.toNat }
    else throw .diverged
  else pure ()

/-- The part of a round that empties a full buffer.
SOURCE: 129-132 -/
def emptyIfFull : Program StreamException BufferedStream Unit := do
  let s ← get
  if s.writePos_ = s.bufferSize_ then do
    inner (ByteStream.write (some s.buffer_) 0 s.writePos_)
    modify fun s => { s with writePos_ := 0 }
  else pure ()

/-- SOURCE: 111-133 -/
def writeLoop : (rounds : ℕ) → Option (List UInt8) → (offset count : ℤ) →
    Program StreamException BufferedStream Unit
  | 0, _, _, _ => throw .diverged
  | rounds + 1, buffer, offset, count =>
    if count ≤ 0 then pure ()
    else do
      let s ← get
      if s.writePos_ = 0 ∧ (s.bufferSize_ : ℤ) ≤ count then
        inner (ByteStream.write buffer offset count)
      else do
        let space : ℤ := (s.bufferSize_ : ℤ) - s.writePos_
        let n := min space count
        copyToBuffer buffer offset n
        emptyIfFull
        if n > 0 then writeLoop rounds buffer (offset + n) (count - n)
        else writeLoop rounds buffer offset count

/-- A round takes a byte at least, but for the first one when the buffer is full.
SOURCE: 107-134 -/
def write (buffer : Option (List UInt8)) (offset count : ℤ) :
    Program StreamException BufferedStream Unit := do
  ensureNotClosed
  let s ← get
  if s.writePos_ = 0 then do
    clearReadBufferBeforeWrite
    writeLoop (count.toNat + 2) buffer offset count
  else writeLoop (count.toNat + 2) buffer offset count

/-- SOURCE: 140-144 -/
def storeByte (value : UInt8) : Program StreamException BufferedStream Unit := do
  ensureBufferAllocated
  let s ← get
  if s.bufferSize_ ≤ s.writePos_ then do
    inner (ByteStream.write (some s.buffer_) 0 s.writePos_)
    modify fun s => { s with writePos_ := 0 }
  else pure ()
  modify fun s => { s with
    buffer_ := s.buffer_.set s.writePos_ value
    writePos_ := s.writePos_ + 1 }

/-- SOURCE: 136-145 -/
def writeByte (value : UInt8) : Program StreamException BufferedStream Unit := do
  ensureNotClosed
  let s ← get
  if s.writePos_ = 0 then do
    clearReadBufferBeforeWrite
    storeByte value
  else storeByte value

/-- SOURCE: 147-167 -/
def flush : Program StreamException BufferedStream Unit := do
  ensureNotClosed
  let s ← get
  if s.writePos_ > 0 then flushWrite
  else if s.readPos_ < s.readLen_ then do
    let canSeek ← getCanSeekProperty
    if canSeek then flushRead else pure ()
    let canWrite ← getCanWriteProperty
    if canWrite then inner ByteStream.flush else pure ()
  else do
    let canWrite ← getCanWriteProperty
    if canWrite then inner ByteStream.flush else pure ()
    modify fun s => { s with writePos_ := 0, readPos_ := 0, readLen_ := 0 }

/-- SOURCE: 230-235 -/
def getPositionProperty : Program StreamException BufferedStream ℤ := do
  ensureNotClosed
  let canSeek ← getCanSeekProperty
  if canSeek then do
    let position ← inner ByteStream.getPositionProperty
    let s ← get
    pure (position + ((s.readPos_ : ℤ) - s.readLen_ + s.writePos_))
  else throw (.runtime (.notSupported "Stream does not support seeking."))

/-- Keeps the bytes read ahead when the new position lies among them.
SOURCE: 200-209 -/
def settleRead (oldPos newPos : ℤ) : Program StreamException BufferedStream ℤ := do
  let s ← get
  let readPosCandidate := newPos - (oldPos - s.readPos_)
  if readPosCandidate ≥ 0 ∧ readPosCandidate < s.readLen_ then do
    modify fun s => { s with readPos_ := readPosCandidate.toNat }
    let _ ← inner (ByteStream.seek ((s.readLen_ : ℤ) - readPosCandidate) .current)
    pure newPos
  else do
    dropRead
    pure newPos

/-- The part of `seek` for a buffer that holds no bytes to write.
SOURCE: 191-209 -/
def seekRead (offset : ℤ) (origin : SeekOrigin) : Program StreamException BufferedStream ℤ := do
  let s ← get
  let ahead : ℤ := (s.readLen_ : ℤ) - s.readPos_
  let offset := if ahead > 0 ∧ origin = .current then offset - ahead else offset
  let oldPos ← getPositionProperty
  let newPos ← inner (ByteStream.seek offset origin)
  settleRead oldPos newPos

/-- SOURCE: 181-210 -/
def seek (offset : ℤ) (origin : SeekOrigin) : Program StreamException BufferedStream ℤ := do
  ensureNotClosed
  let canSeek ← getCanSeekProperty
  if canSeek then do
    let s ← get
    if s.writePos_ > 0 then do
      flushWrite
      inner (ByteStream.seek offset origin)
    else seekRead offset origin
  else throw (.runtime (.notSupported "Stream does not support seeking."))

/-- SOURCE: 212-222 -/
def setLength (value : ℤ) : Program StreamException BufferedStream Unit :=
  if value < 0 then throw valueOutOfRange
  else do
    ensureNotClosed
    let canSeek ← getCanSeekProperty
    if canSeek then do
      let canWrite ← getCanWriteProperty
      if canWrite then do
        flush
        inner (ByteStream.setLength value)
      else throw (.runtime (.notSupported "Stream does not support writing."))
    else throw (.runtime (.notSupported "Stream does not support seeking."))

/-- SOURCE: 224-228 -/
def getLengthProperty : Program StreamException BufferedStream ℤ := do
  ensureNotClosed
  flushWrite
  inner ByteStream.getLengthProperty

/-- SOURCE: 237-241 -/
def setPositionProperty (value : ℤ) : Program StreamException BufferedStream Unit :=
  if value < 0 then throw valueOutOfRange
  else do
    let _ ← seek value .begin
    pure ()

end BufferedStream

end SharpRuntime.Model
