import SharpRuntime.Machine.Bytes
import SharpRuntime.Model.BinaryStreams

/-!
# Calls on a stream

The calls a stream answers, one type for all of them, made on a plain stream and on a buffered
one.
-/

set_option autoImplicit false

namespace SharpRuntime.Interface

open Machine Model

/-- Every stream takes the region: there is a pointer, and no number is negative. -/
def ValidRegion (buffer : Option (List UInt8)) (offset count : ℤ) : Prop :=
  buffer ≠ none ∧ 0 ≤ offset ∧ 0 ≤ count

instance (buffer : Option (List UInt8)) (offset count : ℤ) :
    Decidable (ValidRegion buffer offset count) :=
  inferInstanceAs (Decidable (_ ∧ _))

/-- A region of a caller's memory: a pointer, the bytes from it on, with an offset and a count. -/
structure Region where
  buffer : Option (List UInt8)
  offset : ℤ
  count : ℤ
  /-- The bytes are as many as the call says. -/
  fits : ∀ bytes ∈ buffer, offset + count ≤ bytes.length
deriving DecidableEq

def Region.Valid (r : Region) : Prop := ValidRegion r.buffer r.offset r.count

instance (r : Region) : Decidable r.Valid := inferInstanceAs (Decidable (ValidRegion _ _ _))

/-- A call on a stream. -/
inductive StreamCall where
  | read (region : Region)
  | write (region : Region)
  | writeByte (value : UInt8)
  | seek (offset : ℤ) (origin : SeekOrigin)
  | getPositionProperty
  | setPositionProperty (value : ℤ)
  | getLengthProperty
  | setLength (value : ℤ)
  | flush
deriving DecidableEq

/-- What a call returns: nothing, the bytes it read, or a position or a length. -/
inductive StreamValue where
  | nothing
  | bytes (read : List UInt8)
  | number (n : ℤ)
deriving DecidableEq

namespace StreamCall

def onByteStream : StreamCall → Program StreamException ByteStream StreamValue
  | read r => do pure (.bytes (← ByteStream.read r.buffer r.offset r.count))
  | write r => do ByteStream.write r.buffer r.offset r.count; pure .nothing
  | writeByte value => do ByteStream.writeByte value; pure .nothing
  | seek offset origin => do pure (.number (← ByteStream.seek offset origin))
  | getPositionProperty => do pure (.number (← ByteStream.getPositionProperty))
  | setPositionProperty value => do ByteStream.setPositionProperty value; pure .nothing
  | getLengthProperty => do pure (.number (← ByteStream.getLengthProperty))
  | setLength value => do ByteStream.setLength value; pure .nothing
  | flush => do ByteStream.flush; pure .nothing

def onBufferedStream : StreamCall → Program StreamException BufferedStream StreamValue
  | read r => do pure (.bytes (← BufferedStream.read r.buffer r.offset r.count))
  | write r => do BufferedStream.write r.buffer r.offset r.count; pure .nothing
  | writeByte value => do BufferedStream.writeByte value; pure .nothing
  | seek offset origin => do pure (.number (← BufferedStream.seek offset origin))
  | getPositionProperty => do pure (.number (← BufferedStream.getPositionProperty))
  | setPositionProperty value => do BufferedStream.setPositionProperty value; pure .nothing
  | getLengthProperty => do pure (.number (← BufferedStream.getLengthProperty))
  | setLength value => do BufferedStream.setLength value; pure .nothing
  | flush => do BufferedStream.flush; pure .nothing

/-- Someone checks the region of the call: any stream takes it, or the call goes past the buffer to
the stream behind. -/
def Checked : StreamCall → BufferedStream → Prop
  | read r, s => r.Valid ∨ (s.readPos_ = s.readLen_ ∧ (s.bufferSize_ : ℤ) ≤ r.count)
  | write r, s => r.Valid ∨
    ((s.writePos_ = 0 ∨ s.writePos_ = s.bufferSize_) ∧ (s.bufferSize_ : ℤ) ≤ r.count)
  | _, _ => True

end StreamCall

/-!
# The binary format

The values a binary writer writes, the bytes each of them is written as, and the calls that write
and read a list of them.  A number is its bytes, the lowest first; a 7-bit encoded integer is its
groups of seven bits, the lowest first, each but the last with the high bit set; a string is its
length as such an integer, then its bytes.
-/

def groups (n : ℕ) : List UInt8 :=
  if n ≤ 0x7F then [UInt8.ofNat n] else UInt8.ofNat (0x80 + n % 128) :: groups (n / 128)
termination_by n

def groupsValue : List UInt8 → ℕ
  | [] => 0
  | b :: s => b.toNat % 128 + 128 * groupsValue s

def Continues (b : UInt8) : Prop := 0x80 ≤ b.toNat

/-- Groups of which only the last does not say that another one follows: `n + 1` of them at most,
and a last one of that many holds four bits. -/
def IsEncoded (n : ℕ) (s : List UInt8) : Prop :=
  ∃ cs b, s = cs ++ [b] ∧ (∀ c ∈ cs, Continues c) ∧ b.toNat ≤ 0x7F ∧ cs.length ≤ n ∧
    (cs.length = n → b.toNat ≤ 0x0F)

/-- The values of the format.  A float or a double is the word of its bits. -/
inductive BinaryValue where
  | byte (v : UInt8)
  | sbyte (v : Int8)
  | int16 (v : Int16)
  | uint16 (v : UInt16)
  | int32 (v : Int32)
  | uint32 (v : UInt32)
  | int64 (v : Int64)
  | uint64 (v : UInt64)
  | bool (v : Bool)
  | float (bits : UInt32)
  | double (bits : UInt64)
  | encodedInt (v : Int32)
  | string (bytes : List UInt8)
deriving DecidableEq

/-- The types of the format. -/
inductive BinaryType where
  | byte
  | sbyte
  | int16
  | uint16
  | int32
  | uint32
  | int64
  | uint64
  | bool
  | float
  | double
  | encodedInt
  | string
deriving DecidableEq

namespace BinaryValue

def type : BinaryValue → BinaryType
  | byte _ => .byte
  | sbyte _ => .sbyte
  | int16 _ => .int16
  | uint16 _ => .uint16
  | int32 _ => .int32
  | uint32 _ => .uint32
  | int64 _ => .int64
  | uint64 _ => .uint64
  | bool _ => .bool
  | float _ => .float
  | double _ => .double
  | encodedInt _ => .encodedInt
  | string _ => .string

def Fits : BinaryValue → Prop
  | string bytes => bytes.length < 2 ^ 31
  | _ => True

def encoding : BinaryValue → List UInt8
  | byte v => [v]
  | sbyte v => [v.toUInt8]
  | int16 v => bytesOf 2 v.toUInt16.toNat
  | uint16 v => bytesOf 2 v.toNat
  | int32 v => bytesOf 4 v.toUInt32.toNat
  | uint32 v => bytesOf 4 v.toNat
  | int64 v => bytesOf 8 v.toUInt64.toNat
  | uint64 v => bytesOf 8 v.toNat
  | bool v => [if v then 1 else 0]
  | float bits => bytesOf 4 bits.toNat
  | double bits => bytesOf 8 bits.toNat
  | encodedInt v => groups v.toUInt32.toNat
  | string bytes => groups bytes.length ++ bytes

def write : BinaryValue → Program StreamException BinaryWriter Unit
  | byte v => BinaryWriter.writeBytecs v
  | sbyte v => BinaryWriter.writeInt8 v
  | int16 v => BinaryWriter.writeShortcs v
  | uint16 v => BinaryWriter.writeUshortcs v
  | int32 v => BinaryWriter.writeIntcs v
  | uint32 v => BinaryWriter.writeUint32 v
  | int64 v => BinaryWriter.writeLongcs v
  | uint64 v => BinaryWriter.writeUint64 v
  | bool v => BinaryWriter.writeBool v
  | float bits => BinaryWriter.writeSingle bits
  | double bits => BinaryWriter.writeDouble bits
  | encodedInt v => BinaryWriter.write7BitEncodedInt v
  | string bytes => BinaryWriter.writeString bytes

end BinaryValue

def encodings (vs : List BinaryValue) : List UInt8 := vs.flatMap BinaryValue.encoding

def BinaryType.read : BinaryType → Program StreamException BinaryReader BinaryValue
  | byte => do pure (.byte (← BinaryReader.readByte))
  | sbyte => do pure (.sbyte (← BinaryReader.readSByte))
  | int16 => do pure (.int16 (← BinaryReader.readInt16))
  | uint16 => do pure (.uint16 (← BinaryReader.readUInt16))
  | int32 => do pure (.int32 (← BinaryReader.readInt32))
  | uint32 => do pure (.uint32 (← BinaryReader.readUInt32))
  | int64 => do pure (.int64 (← BinaryReader.readInt64))
  | uint64 => do pure (.uint64 (← BinaryReader.readUInt64))
  | bool => do pure (.bool (← BinaryReader.readBoolean))
  | float => do pure (.float (← BinaryReader.readSingle))
  | double => do pure (.double (← BinaryReader.readDouble))
  | encodedInt => do pure (.encodedInt (← BinaryReader.read7BitEncodedInt))
  | string => do pure (.string (← BinaryReader.readString))

def writeAll : List BinaryValue → Program StreamException BinaryWriter Unit
  | [] => pure ()
  | v :: vs => do
    v.write
    writeAll vs

def readAll : List BinaryType → Program StreamException BinaryReader (List BinaryValue)
  | [] => pure []
  | t :: ts => do
    let v ← t.read
    let vs ← readAll ts
    pure (v :: vs)

/-- A call for a character. -/
inductive CharCall where
  | readChar
  | peekChar
deriving DecidableEq

namespace CharCall

def onReader : CharCall → Program StreamException BinaryReader ℤ
  | readChar => do pure ((← BinaryReader.readChar).toNat : ℤ)
  | peekChar => BinaryReader.peekChar

/-- The call on a list of code units: `readChar` takes the first one, `peekChar` only shows it. -/
def onUnits : CharCall → Program StreamException (List UInt16) ℤ
  | readChar => fun us =>
    match us with
    | [] => .error .endOfStreamException []
    | u :: us => .ok u.toNat us
  | peekChar => fun us =>
    match us with
    | [] => .ok (-1) []
    | u :: us => .ok u.toNat (u :: us)

end CharCall

def movedTo (m : MemoryStream) (position : ℕ) : MemoryStream :=
  { m with position_ := position }

def passBytes (r : BinaryReader) (n : ℕ) : BinaryReader :=
  { r with stream_ := movedTo r.stream_ (r.stream_.position_ + n) }

def unread (r : BinaryReader) : List UInt8 := r.stream_.data_.drop r.stream_.position_

end SharpRuntime.Interface
