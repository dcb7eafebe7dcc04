import SharpRuntime.Model.Stream

/-!
# The binary writer

Primitive values written to a memory stream, integers with their low byte first.  The bits of a
float or a double are the word they are copied to before they are written. Lines cited without a
file are those of the file named last.
-/

set_option autoImplicit false

namespace SharpRuntime.Model

open Machine
open MemoryStream

/-- A writer over a memory stream.
SOURCE: BinaryWriter.cpp:14-20 -/
structure BinaryWriter where
  stream_ : MemoryStream
  disposed_ : Bool

namespace BinaryWriter

/-- A call on the stream. -/
def stream {α : Type} (p : Program StreamException MemoryStream α) :
    Program StreamException BinaryWriter α :=
  onField stream_ (fun m s => { s with stream_ := m }) p

/-- SOURCE: 34-37 -/
def throwIfDisposed : Program StreamException BinaryWriter Unit := do
  let s ← get
  if s.disposed_ then throw (.objectDisposed "BinaryWriter" "Cannot access a closed file.")
  else pure ()

/-- SOURCE: 39-42 -/
def writeBytes (buf : List UInt8) (count : ℤ) : Program StreamException BinaryWriter Unit := do
  throwIfDisposed
  stream (write buf 0 count)

/-- SOURCE: 44 -/
def writeBytecs (value : UInt8) : Program StreamException BinaryWriter Unit := writeBytes [value] 1

/-- SOURCE: 45 -/
def writeInt8 (value : Int8) : Program StreamException BinaryWriter Unit :=
  writeBytes [value.toUInt8] 1

/-- `static_cast<bytecs>` of an `int`. -/
def toByte (value : Int32) : UInt8 := value.toUInt32.toUInt8

/-- The operand is promoted to an `int`.
SOURCE: 47-52 -/
def writeShortcs (value : Int16) : Program StreamException BinaryWriter Unit :=
  writeBytes [toByte (value.toInt32 &&& 0xFF), toByte ((value.toInt32 >>> 8) &&& 0xFF)] 2

/-- SOURCE: 53 -/
def writeUshortcs (value : UInt16) : Program StreamException BinaryWriter Unit :=
  writeShortcs value.toInt16

/-- SOURCE: 55-62 -/
def writeIntcs (value : Int32) : Program StreamException BinaryWriter Unit :=
  writeBytes [toByte (value &&& 0xFF), toByte ((value >>> 8) &&& 0xFF),
    toByte ((value >>> 16) &&& 0xFF), toByte ((value >>> 24) &&& 0xFF)] 4

/-- SOURCE: 63 -/
def writeUint32 (value : UInt32) : Program StreamException BinaryWriter Unit :=
  writeIntcs value.toInt32

/-- SOURCE: 65-70 -/
def writeLongcs (value : Int64) : Program StreamException BinaryWriter Unit :=
  writeBytes ((List.range 8).map fun i =>
    ((value >>> Int64.ofNat (i * 8)) &&& 0xFF).toUInt64.toUInt8) 8

/-- SOURCE: 71 -/
def writeUint64 (value : UInt64) : Program StreamException BinaryWriter Unit :=
  writeLongcs value.toInt64

/-- SOURCE: 73-85 -/
def writeSingle (raw : UInt32) : Program StreamException BinaryWriter Unit := writeUint32 raw

/-- SOURCE: 86-91 -/
def writeDouble (raw : UInt64) : Program StreamException BinaryWriter Unit := writeUint64 raw

/-- SOURCE: 93-96 -/
def writeBool (value : Bool) : Program StreamException BinaryWriter Unit :=
  writeBytes [if value then 1 else 0] 1

theorem toNat_shiftRight_seven (u : UInt32) : (u >>> 7).toNat = u.toNat / 128 := by
  rw [UInt32.toNat_shiftRight]
  exact Nat.shiftRight_eq_div_pow _ _

/-- The loop over the groups of seven bits, the last group included.
SOURCE: 107-111 -/
def writeGroups (uValue : UInt32) : Program StreamException BinaryWriter Unit :=
  if uValue > 0x7F then do
    writeBytecs (uValue ||| ~~~0x7F).toUInt8
    writeGroups (uValue >>> 7)
  else writeBytecs uValue.toUInt8
termination_by uValue.toNat
decreasing_by
  have hlarge : (0x7F : UInt32).toNat < uValue.toNat := UInt32.lt_iff_toNat_lt.mp ‹_›
  have hnat : (0x7F : UInt32).toNat = 127 := rfl
  rw [toNat_shiftRight_seven]
  omega

/-- SOURCE: 105-112 -/
def write7BitEncodedInt (value : Int32) : Program StreamException BinaryWriter Unit :=
  writeGroups value.toUInt32

/-- A string, as its bytes.
SOURCE: 98-103 -/
def writeString (value : List UInt8) : Program StreamException BinaryWriter Unit := do
  write7BitEncodedInt (Int32.ofInt (toIntcs value.length))
  writeBytes value (toIntcs value.length)

end BinaryWriter

/-!
# The binary reader

Primitive values read from a memory stream, integers with their low byte first, and the characters
of UTF-8 text as UTF-16 code units.  A character above the Basic Multilingual Plane is returned as
two code units: the second one is kept pending in the reader until it is asked for.
-/

/-- A reader over a memory stream.
SOURCE: BinaryReader.hpp:39-46 -/
structure BinaryReader where
  stream_ : MemoryStream
  disposed_ : Bool
  hasPendingCharacter_ : Bool
  pendingCharacter_ : UInt16

namespace BinaryReader

/-- The constructor, for a stream that can be read.
SOURCE: BinaryReader.cpp:19-26, BinaryReader.hpp:42-46 -/
def new (stream : MemoryStream) : BinaryReader := ⟨stream, false, false, 0⟩

/-- A call on the stream. -/
def stream {α : Type} (p : Program StreamException MemoryStream α) :
    Program StreamException BinaryReader α :=
  onField stream_ (fun m s => { s with stream_ := m }) p

/-- SOURCE: BinaryReader.cpp:34-38 -/
def throwIfDisposed : Program StreamException BinaryReader Unit := do
  let s ← get
  if s.disposed_ then throw (.objectDisposed "BinaryReader" "Cannot access a closed file.")
  else pure ()

/-- A round reads a byte at least.
SOURCE: 43-49 -/
def readLoop : (rounds total count : ℕ) → Program StreamException BinaryReader (List UInt8)
  | 0, _, _ => throw .diverged
  | rounds + 1, total, count =>
    if total < count then do
      let bytes ← stream (read total ((count : ℤ) - total))
      if bytes.length = 0 then throw .endOfStreamException
      else do
        let rest ← readLoop rounds (total + bytes.length) count
        pure (bytes ++ rest)
    else pure []

/-- SOURCE: 40-50 -/
def readBytesExact (count : ℕ) : Program StreamException BinaryReader (List UInt8) := do
  throwIfDisposed
  readLoop (count + 1) 0 count

/-- What the lead byte of a character announces: the bits it holds, the least code point that
takes so many bytes, and the number of continuation bytes.
SOURCE: 67-97 -/
def readLead (lead : UInt8) : Program StreamException BinaryReader (ℕ × ℕ × ℕ) :=
  if lead &&& 0x80 = 0x00 then pure (lead.toNat, 0, 0)
  else if lead ≥ 0xC2 ∧ lead ≤ 0xDF then pure ((lead &&& 0x1F).toNat, 0x80, 1)
  else if lead ≥ 0xE0 ∧ lead ≤ 0xEF then pure ((lead &&& 0x0F).toNat, 0x800, 2)
  else if lead ≥ 0xF0 ∧ lead ≤ 0xF4 then pure ((lead &&& 0x07).toNat, 0x10000, 3)
  else throw (.runtime (.format "Invalid UTF-8 lead byte while reading a char."))

/-- SOURCE: 100-111 -/
def readContinuations : (continuationBytes codepoint : ℕ) →
    Program StreamException BinaryReader ℕ
  | 0, codepoint => pure codepoint
  | continuationBytes + 1, codepoint => do
    let rawContinuation ← stream readByte
    if rawContinuation < 0 then throw .endOfStreamException
    else do
      let continuation := UInt8.ofNat rawContinuation.toNat
      if continuation &&& 0xC0 ≠ 0x80 then
        throw (.runtime (.format "Invalid UTF-8 continuation byte while reading a char."))
      else
        readContinuations continuationBytes
          ((codepoint <<< 6) ||| (continuation &&& 0x3F).toNat)

/-- The checked code point as its first code unit; a second one becomes pending.
SOURCE: 113-129 -/
def deliver (codepoint minimumCodepoint : ℕ) :
    Program StreamException BinaryReader (Option UInt16) :=
  if codepoint < minimumCodepoint ∨ codepoint > 0x10FFFF ∨
      (codepoint ≥ 0xD800 ∧ codepoint ≤ 0xDFFF) then
    throw (.runtime (.format "Invalid UTF-8 scalar value while reading a char."))
  else if codepoint ≤ 0xFFFF then pure (some (UInt16.ofNat codepoint))
  else do
    let scalarOffset := codepoint - 0x10000
    modify fun s => { s with
      pendingCharacter_ := UInt16.ofNat (0xDC00 + (scalarOffset &&& 0x3FF))
      hasPendingCharacter_ := true }
    pure (some (UInt16.ofNat (0xD800 + (scalarOffset >>> 10))))

/-- The next code unit, or nothing at the end of the stream.
SOURCE: 52-130 -/
def tryReadChar : Program StreamException BinaryReader (Option UInt16) := do
  throwIfDisposed
  let s ← get
  if s.hasPendingCharacter_ then do
    set { s with hasPendingCharacter_ := false }
    pure (some s.pendingCharacter_)
  else do
    let rawLead ← stream readByte
    if rawLead < 0 then pure none
    else do
      let (codepoint, minimumCodepoint, continuationBytes) ←
        readLead (UInt8.ofNat rawLead.toNat)
      let codepoint ← readContinuations continuationBytes codepoint
      deliver codepoint minimumCodepoint

/-- SOURCE: 239-245 -/
def readChar : Program StreamException BinaryReader UInt16 := do
  let character ← tryReadChar
  match character with
  | some c => pure c
  | none => throw .endOfStreamException

/-- What `peekChar` does after it has read: everything is put back, also when the reading threw.
SOURCE: 222-236 -/
def restoring (originalPosition : ℤ) (hadPendingCharacter : Bool) (originalPendingCharacter : UInt16)
    (p : Program StreamException BinaryReader UInt16) : Program StreamException BinaryReader ℤ :=
  fun s =>
    match p s with
    | .ok character s' => (do
        stream (setPositionProperty originalPosition)
        modify fun s => { s with
          hasPendingCharacter_ := hadPendingCharacter
          pendingCharacter_ := originalPendingCharacter }
        pure (character.toNat : ℤ) : Program StreamException BinaryReader ℤ) s'
    | .error e s' => (do
        stream (setPositionProperty originalPosition)
        modify fun s => { s with
          hasPendingCharacter_ := hadPendingCharacter
          pendingCharacter_ := originalPendingCharacter }
        throw e : Program StreamException BinaryReader ℤ) s'

/-- SOURCE: 207-237 -/
def peekChar : Program StreamException BinaryReader ℤ := do
  throwIfDisposed
  let canSeek ← stream getCanSeekProperty
  if canSeek then do
    let originalPosition ← stream getPositionProperty
    let s ← get
    if s.hasPendingCharacter_ then pure (s.pendingCharacter_.toNat : ℤ)
    else do
      let length ← stream getLengthProperty
      if originalPosition ≥ length then pure (-1)
      else restoring originalPosition s.hasPendingCharacter_ s.pendingCharacter_ readChar
  else
    throw (.runtime (.notSupported
      "BinaryReader::PeekChar requires a seekable stream in this implementation."))

/-- SOURCE: 132-137 -/
def readByte : Program StreamException BinaryReader UInt8 := do
  let b ← readBytesExact 1
  pure (b.getD 0 0)

/-- SOURCE: 139-142 -/
def readSByte : Program StreamException BinaryReader Int8 := do
  let b ← readByte
  pure b.toInt8

/-- SOURCE: 144-151 -/
def readInt16 : Program StreamException BinaryReader Int16 := do
  let buf ← readBytesExact 2
  pure ((buf.getD 0 0).toUInt16 ||| ((buf.getD 1 0).toUInt16 <<< 8)).toInt16

/-- SOURCE: 153-156 -/
def readUInt16 : Program StreamException BinaryReader UInt16 := do
  let n ← readInt16
  pure n.toUInt16

/-- SOURCE: 158-167 -/
def readInt32 : Program StreamException BinaryReader Int32 := do
  let buf ← readBytesExact 4
  pure ((buf.getD 0 0).toUInt32 ||| ((buf.getD 1 0).toUInt32 <<< 8) |||
    ((buf.getD 2 0).toUInt32 <<< 16) ||| ((buf.getD 3 0).toUInt32 <<< 24)).toInt32

/-- SOURCE: 169-172 -/
def readUInt32 : Program StreamException BinaryReader UInt32 := do
  let n ← readInt32
  pure n.toUInt32

/-- SOURCE: 174-179 -/
def readInt64 : Program StreamException BinaryReader Int64 := do
  let lo ← readUInt32
  let hi ← readUInt32
  pure ((hi.toUInt64 <<< 32) ||| lo.toUInt64).toInt64

/-- SOURCE: 181-184 -/
def readUInt64 : Program StreamException BinaryReader UInt64 := do
  let n ← readInt64
  pure n.toUInt64

/-- The bits of the float.
SOURCE: 186-192 -/
def readSingle : Program StreamException BinaryReader UInt32 := readUInt32

/-- The bits of the double.
SOURCE: 194-200 -/
def readDouble : Program StreamException BinaryReader UInt64 := readUInt64

/-- SOURCE: 202-205 -/
def readBoolean : Program StreamException BinaryReader Bool := do
  let b ← readByte
  pure (b != 0)

/-- The groups that may be followed by another one, then the fifth byte.
SOURCE: 295-313 -/
def readGroups : (groups shift : ℕ) → (result : UInt32) → Program StreamException BinaryReader Int32
  | 0, shift, result => do
    let byteReadJustNow ← readByte
    if byteReadJustNow > 0b1111 then
      throw (.runtime (.format "Too many bytes in what should have been a 7-bit encoded integer."))
    else pure (result ||| (byteReadJustNow.toUInt32 <<< UInt32.ofNat shift)).toInt32
  | groups + 1, shift, result => do
    let byteReadJustNow ← readByte
    let result := result ||| ((byteReadJustNow.toUInt32 &&& 0x7F) <<< UInt32.ofNat shift)
    if byteReadJustNow ≤ 0x7F then pure result.toInt32
    else readGroups groups (shift + 7) result

/-- SOURCE: 289-314 -/
def read7BitEncodedInt : Program StreamException BinaryReader Int32 := readGroups 4 0 0

/-- The bytes of a string of a declared length.
SOURCE: 320-334 -/
def readStringBytes (length : Int32) : Program StreamException BinaryReader (List UInt8) :=
  if length < 0 then throw (.io "Invalid string length.")
  else if length = 0 then pure []
  else do
    let canSeek ← stream getCanSeekProperty
    if canSeek then do
      let streamLength ← stream getLengthProperty
      let position ← stream getPositionProperty
      let remaining := streamLength - position
      if remaining ≥ 0 ∧ length.toInt > remaining then
        throw (.endOfStream
          "BinaryReader::ReadString(): declared string length exceeds the remaining stream length.")
      else readBytesExact length.toInt.toNat
    else readBytesExact length.toInt.toNat

/-- SOURCE: 316-335 -/
def readString : Program StreamException BinaryReader (List UInt8) := do
  let length ← read7BitEncodedInt
  readStringBytes length

end BinaryReader

end SharpRuntime.Model
