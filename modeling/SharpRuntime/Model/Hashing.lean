import SharpRuntime.Model.Exception

/-!
# The buffers of the hash algorithms

What the hash algorithms share: how a raw pointer with a length is checked, and how words are
read from bytes.  A pointer is `none` when it is null; otherwise it is the bytes it points at. Lines
cited without a file are those of the file named last.
-/

set_option autoImplicit false

namespace SharpRuntime.Model

open Machine

/-- The check of a raw source.
SOURCE: HashingArgumentValidation.hpp:53-76, HashingArgumentValidation.cpp:11-17 -/
def validateSource (source : Option (List UInt8)) (length : ℤ) : Run Exception Unit :=
  if length < 0 then
    Run.throwing (.argumentOutOfRange "length" "Non-negative number required.")
  else if 0 < length ∧ source = none then
    Run.throwing (.argumentNull "source" "Value cannot be null.")
  else pure ()

/-- The bytes a raw source of the given length hands over: none when the call is refused. -/
def sourceBytes (source : Option (List UInt8)) (length : ℤ) : List UInt8 :=
  (source.getD []).take length.toNat

/-- A raw source of the given length can be read: a null pointer is read nowhere, and any other
one points at that many bytes at least. -/
def Readable (source : Option (List UInt8)) (length : ℤ) : Prop :=
  ∀ bytes, source = some bytes → length ≤ bytes.length

theorem validateSource_some (bytes : List UInt8) (n : ℕ) :
    validateSource (some bytes) n = pure () := by
  rw [validateSource, if_neg (by omega), if_neg (by simp)]

/-- A call over a raw source is refused, is over nothing, or is over bytes that are there. -/
theorem source_cases {source : Option (List UInt8)} {length : ℤ} (hread : Readable source length) :
    (∃ e, validateSource source length = Run.throwing e ∧ sourceBytes source length = []) ∨
    (source = none ∧ length = 0) ∨
    ∃ bytes, ∃ n : ℕ, source = some bytes ∧ length = n ∧ n ≤ bytes.length := by
  by_cases hneg : length < 0
  · have hnone : length.toNat = 0 := by omega
    exact .inl ⟨_, if_pos hneg, by rw [sourceBytes, hnone, List.take_zero]⟩
  obtain ⟨n, rfl⟩ : ∃ n : ℕ, length = n := ⟨length.toNat, by omega⟩
  cases source with
  | none =>
    by_cases hzero : n = 0
    · exact .inr (.inl ⟨rfl, by rw [hzero, Nat.cast_zero]⟩)
    · have hpos : (0 : ℤ) < n := by omega
      exact .inl ⟨_, (if_neg hneg).trans (if_pos ⟨hpos, rfl⟩), List.take_nil⟩
  | some bytes => exact .inr (.inr ⟨bytes, n, rfl, rfl, by exact_mod_cast hread bytes rfl⟩)

/-- `std::memcpy` of `piece` into `buf` at `start`. -/
def memcpy (buf : List UInt8) (start : ℕ) (piece : List UInt8) : List UInt8 :=
  buf.take start ++ piece ++ buf.drop (start + piece.length)

/-- Four bytes as a little-endian word.
SOURCE: HashingByteOrder.hpp:36-41 -/
def readUInt32LittleEndian (source : List UInt8) : UInt32 :=
  (source.getD 0 0).toUInt32 ||| ((source.getD 1 0).toUInt32 <<< 8)
    ||| ((source.getD 2 0).toUInt32 <<< 16) ||| ((source.getD 3 0).toUInt32 <<< 24)

/-- Eight bytes as a little-endian word.
SOURCE: 44-47 -/
def readUInt64LittleEndian (source : List UInt8) : UInt64 :=
  (readUInt32LittleEndian source).toUInt64
    ||| ((readUInt32LittleEndian (source.drop 4)).toUInt64 <<< 32)

variable {buf piece : List UInt8} {start : ℕ}

theorem length_memcpy (h : start + piece.length ≤ buf.length) :
    (memcpy buf start piece).length = buf.length := by
  simp only [memcpy, List.length_append, List.length_take, List.length_drop]
  omega

theorem take_memcpy (h : start + piece.length ≤ buf.length) :
    (memcpy buf start piece).take (start + piece.length) = buf.take start ++ piece := by
  grind [memcpy]

/-!
# `Crc32ParameterSet` and `Crc64ParameterSet`

A parameter set is a polynomial, an initial value, a final mask and whether bits are reflected,
with the lookup table made from them.  The two classes differ in the width of a word and in the way
they reverse bits; the table, `update` and the hashers are the same code at both widths.
-/

/-- The fields of a parameter set of `w` bits.
SOURCE: Crc32ParameterSet.hpp, Crc64ParameterSet.hpp -/
structure CrcParameterSet (w : ℕ) where
  polynomial : BitVec w
  initialValue : BitVec w
  finalXorValue : BitVec w
  reflectValues : Bool
  lookupTable : List (BitVec w)
deriving DecidableEq

namespace CrcParameterSet

variable {w : ℕ}

/-- The register moved up by one place.
SOURCE: Crc32ParameterSet.cpp:24, Crc32ParameterSet.cpp:34 -/
def shiftOut (lastBit polynomial crc : BitVec w) : BitVec w :=
  if crc &&& lastBit ≠ 0 then (crc <<< 1) ^^^ polynomial else crc <<< 1

/-- The inner loop of the doubling fill: the `i` entries after the first `i` ones.
SOURCE: 25-27 -/
def fillNext (crc : BitVec w) (i : ℕ) (table : List (BitVec w)) : List (BitVec w) :=
  (List.range i).foldl (fun table j => table.set (i + j) (crc ^^^ table.getD j 0)) table

/-- The table when bits are not reflected: each round doubles the entries filled.
SOURCE: 21-28, Crc64ParameterSet.cpp:23-30 -/
def fillDoubling (lastBit polynomial : BitVec w) : Run Exception (List (BitVec w)) := do
  let (table, _, _) ← Run.whileLoop (fun (_, _, i) => decide (i < 256))
    (fun (table, crc, i) =>
      let crc := shiftOut lastBit polynomial crc
      pure (fillNext crc i table, crc, i <<< 1))
    256 (List.replicate 256 0, lastBit, 1)
  pure table

/-- The table when bits are reflected: each entry is made from its index with the bits reversed.
SOURCE: Crc32ParameterSet.cpp:29-38, Crc64ParameterSet.cpp:31-40 -/
def fillReflected (reverseBits : BitVec w → BitVec w) (lastBit polynomial : BitVec w) :
    List (BitVec w) :=
  (List.range' 1 255).foldl
    (fun table i =>
      let r := reverseBits (BitVec.ofNat w i)
      let r := (List.range 8).foldl (fun r _ => shiftOut lastBit polynomial r) r
      table.set i (reverseBits r))
    (List.replicate 256 0)

/-- SOURCE: Crc32ParameterSet.cpp:18-41, Crc64ParameterSet.cpp:20-43 -/
def generateLookupTable (reverseBits : BitVec w → BitVec w) (lastBit polynomial : BitVec w)
    (reflectInput : Bool) : Run Exception (List (BitVec w)) :=
  if !reflectInput then fillDoubling lastBit polynomial
  else pure (fillReflected reverseBits lastBit polynomial)

/-- SOURCE: Crc32ParameterSet.cpp:44-52, Crc64ParameterSet.cpp:46-54 -/
def create (reverseBits : BitVec w → BitVec w) (lastBit polynomial initialValue
    finalXorValue : BitVec w) (reflectValues : Bool) : Run Exception (CrcParameterSet w) := do
  let lookupTable ← generateLookupTable reverseBits lastBit polynomial reflectValues
  pure ⟨polynomial, initialValue, finalXorValue, reflectValues, lookupTable⟩

/-- The step of `update` for one byte when bits are reflected.
SOURCE: Crc32ParameterSet.cpp:74-75, Crc64ParameterSet.cpp:76-77 -/
def stepReflected (table : List (BitVec w)) (crc : BitVec w) (b : UInt8) : BitVec w :=
  let idx := (crc ^^^ b.toBitVec.setWidth w).setWidth 8
  table.getD idx.toNat 0 ^^^ (crc >>> 8)

/-- The step of `update` for one byte when bits are not reflected.
SOURCE: Crc32ParameterSet.cpp:79-80, Crc64ParameterSet.cpp:81-82 -/
def stepDirect (table : List (BitVec w)) (crc : BitVec w) (b : UInt8) : BitVec w :=
  let idx := ((crc >>> (w - 8)) ^^^ b.toBitVec.setWidth w).setWidth 8
  table.getD idx.toNat 0 ^^^ (crc <<< 8)

/-- SOURCE: Crc32ParameterSet.cpp:66-84, Crc64ParameterSet.cpp:68-86 -/
def update (set : CrcParameterSet w) (value : BitVec w) (source : Option (List UInt8)) (length : ℤ) :
    Run Exception (BitVec w) := do
  validateSource source length
  -- the loops read the source up to `length`
  Run.observe (length ≤ (source.getD []).length)
  if set.reflectValues then
    pure ((sourceBytes source length).foldl (stepReflected set.lookupTable) value)
  else
    pure ((sourceBytes source length).foldl (stepDirect set.lookupTable) value)

/-- SOURCE: Crc32ParameterSet.hpp:92, Crc64ParameterSet.hpp:90 -/
def finalize (set : CrcParameterSet w) (value : BitVec w) : BitVec w := value ^^^ set.finalXorValue

end CrcParameterSet

namespace Crc32ParameterSet

/-- SOURCE: Crc32ParameterSet.cpp:10-16 -/
def reverseBits (value : BitVec 32) : BitVec 32 :=
  let value := ((value &&& 0xAAAAAAAA#32) >>> 1) ||| ((value &&& 0x55555555#32) <<< 1)
  let value := ((value &&& 0xCCCCCCCC#32) >>> 2) ||| ((value &&& 0x33333333#32) <<< 2)
  let value := ((value &&& 0xF0F0F0F0#32) >>> 4) ||| ((value &&& 0x0F0F0F0F#32) <<< 4)
  ((value &&& 0x000000FF#32) <<< 24) ||| ((value &&& 0x0000FF00#32) <<< 8)
    ||| ((value &&& 0x00FF0000#32) >>> 8) ||| ((value &&& 0xFF000000#32) >>> 24)

/-- SOURCE: 44-52 -/
def create (polynomial initialValue finalXorValue : BitVec 32) (reflectValues : Bool) :
    Run Exception (CrcParameterSet 32) :=
  CrcParameterSet.create reverseBits 0x80000000#32 polynomial initialValue finalXorValue
    reflectValues

end Crc32ParameterSet

namespace Crc64ParameterSet

/-- SOURCE: Crc64ParameterSet.cpp:10-18 -/
def reverseBits (value : BitVec 64) : BitVec 64 :=
  let value := ((value &&& 0xAAAAAAAAAAAAAAAA#64) >>> 1) ||| ((value &&& 0x5555555555555555#64) <<< 1)
  let value := ((value &&& 0xCCCCCCCCCCCCCCCC#64) >>> 2) ||| ((value &&& 0x3333333333333333#64) <<< 2)
  let value := ((value &&& 0xF0F0F0F0F0F0F0F0#64) >>> 4) ||| ((value &&& 0x0F0F0F0F0F0F0F0F#64) <<< 4)
  let value := ((value &&& 0xFF00FF00FF00FF00#64) >>> 8) ||| ((value &&& 0x00FF00FF00FF00FF#64) <<< 8)
  let value :=
    ((value &&& 0xFFFF0000FFFF0000#64) >>> 16) ||| ((value &&& 0x0000FFFF0000FFFF#64) <<< 16)
  (value >>> 32) ||| (value <<< 32)

/-- SOURCE: 46-54 -/
def create (polynomial initialValue finalXorValue : BitVec 64) (reflectValues : Bool) :
    Run Exception (CrcParameterSet 64) :=
  CrcParameterSet.create reverseBits 0x8000000000000000#64 polynomial initialValue finalXorValue
    reflectValues

end Crc64ParameterSet

/-- The fields of `Crc32` and `Crc64`.
SOURCE: Crc32.hpp, Crc64.hpp -/
structure Crc (w : ℕ) where
  crc : BitVec w
  parameterSet : CrcParameterSet w
deriving DecidableEq

namespace Crc

variable {w : ℕ}

/-- SOURCE: Crc32.cpp:16-21, Crc64.cpp:16-21 -/
def create (parameterSet : CrcParameterSet w) : Crc w := ⟨parameterSet.initialValue, parameterSet⟩

/-- SOURCE: Crc32.cpp:26-28, Crc64.cpp:26-28 -/
def append (h : Crc w) (source : Option (List UInt8)) (length : ℤ) : Run Exception (Crc w) := do
  let crc ← h.parameterSet.update h.crc source length
  pure { h with crc := crc }

/-- SOURCE: Crc32.cpp:30-32, Crc64.cpp:30-32 -/
def reset (h : Crc w) : Crc w := { h with crc := h.parameterSet.initialValue }

/-- SOURCE: Crc32.hpp:72, Crc64.hpp:72 -/
def clone (h : Crc w) : Crc w := ⟨h.crc, h.parameterSet⟩

/-- SOURCE: Crc32.cpp:43-45, Crc64.cpp:43-45 -/
def getCurrentHash (h : Crc w) : BitVec w := h.parameterSet.finalize h.crc

end Crc

/-!
# `XxHash32` and `XxHash64`

The two hashers hold four lanes, the number of bytes appended so far and a buffer of one stripe.
They differ in the width of a word and in their constants; topping the buffer up, flushing it and
taking whole stripes from the source is the same code in both.  Words wrap as the machine's do.
-/

/-- The fields of a hasher whose words are `W`.
SOURCE: XxHash32.hpp:48-52, XxHash64.hpp:49-53 -/
structure XxHash (W : Type) where
  seed : W
  v1 : W
  v2 : W
  v3 : W
  v4 : W
  totalLength : UInt64
  buf : List UInt8
  bufLen : ℕ
deriving DecidableEq

namespace XxHash

variable {W : Type}

/-- `initState` with the two constants it uses.
SOURCE: XxHash32.cpp:20-25, XxHash64.cpp:25-30 -/
def initState [Add W] [Sub W] (prime1 prime2 : W) (h : XxHash W) : XxHash W :=
  { h with
    v1 := h.seed + prime1 + prime2
    v2 := h.seed + prime2
    v3 := h.seed
    v4 := h.seed - prime1 }

/-- The loop that takes whole stripes straight from the source.
SOURCE: XxHash32.cpp:81, XxHash64.cpp:86 -/
def takeStripes (stripe : ℕ) (processBlock : XxHash W → List UInt8 → XxHash W)
    (source : List UInt8) (stop : ℕ) : XxHash W × ℕ → Run Exception (XxHash W × ℕ) :=
  Run.whileLoop (fun s => decide (s.2 + stripe ≤ stop))
    (fun s => pure (processBlock s.1 (source.drop s.2), s.2 + stripe)) stop

/-- What `append` does with the source from position `p` on, once the buffer is empty.
SOURCE: XxHash32.cpp:81-84, XxHash64.cpp:86-89 -/
def appendRest (stripe : ℕ) (processBlock : XxHash W → List UInt8 → XxHash W)
    (source : List UInt8) (stop : ℕ) (h : XxHash W) (p : ℕ) : Run Exception (XxHash W) := do
  let (h, p) ← takeStripes stripe processBlock source stop (h, p)
  pure { h with
    buf := memcpy h.buf 0 ((source.drop p).take (stop - p))
    bufLen := stop - p }

/-- `append` for stripes of `stripe` bytes.
SOURCE: XxHash32.cpp:55-85, XxHash64.cpp:60-90 -/
def append (stripe : ℕ) (processBlock : XxHash W → List UInt8 → XxHash W) (h : XxHash W)
    (source : Option (List UInt8)) (length : ℤ) : Run Exception (XxHash W) := do
  validateSource source length
  if length = 0 then pure h
  else
    let bytes := source.getD []
    -- every read below is at a position before `length`
    Run.observe (length ≤ bytes.length)
    let stop := length.toNat
    let h := { h with totalLength := h.totalLength + UInt64.ofInt length }
    if 0 < h.bufLen then
      let need := stripe - h.bufLen
      let copy := if stop < need then stop else need
      let h := { h with
        buf := memcpy h.buf h.bufLen (bytes.take copy)
        bufLen := h.bufLen + copy }
      if h.bufLen < stripe then pure h
      else
        let h := processBlock h h.buf
        appendRest stripe processBlock bytes stop { h with bufLen := 0 } copy
    else
      appendRest stripe processBlock bytes stop h 0

/-- The private constructor `clone` uses: a fresh buffer with the pending bytes copied in.
SOURCE: XxHash32.cpp:41-51, XxHash64.cpp:46-56 -/
def clone (stripe : ℕ) (h : XxHash W) : XxHash W :=
  { h with buf := memcpy (List.replicate stripe 0) 0 (h.buf.take h.bufLen) }

/-- A hasher that has seen no byte, with its lanes not yet set. -/
def blank [Zero W] (stripe : ℕ) (seed : W) : XxHash W where
  seed := seed
  v1 := 0
  v2 := 0
  v3 := 0
  v4 := 0
  totalLength := 0
  buf := List.replicate stripe 0
  bufLen := 0

end XxHash

namespace XxHash64

def prime1 : UInt64 := 0x9E3779B185EBCA87
def prime2 : UInt64 := 0xC2B2AE3D27D4EB4F
def prime3 : UInt64 := 0x165667B19E3779F9
def prime4 : UInt64 := 0x85EBCA77C2B2AE63
def prime5 : UInt64 := 0x27D4EB2F165667C5

/-- SOURCE: 11 -/
def rotl64 (v n : UInt64) : UInt64 := (v <<< n) ||| (v >>> (64 - n))

/-- SOURCE: 13-18 -/
def round (acc input : UInt64) : UInt64 :=
  let acc := acc + input * prime2
  let acc := rotl64 acc 31
  acc * prime1

/-- SOURCE: 20-23 -/
def mergeAccumulator (h64 acc : UInt64) : UInt64 :=
  let h64 := h64 ^^^ round 0 acc
  h64 * prime1 + prime4

/-- SOURCE: 32-38 -/
def processBlock (h : XxHash UInt64) (block : List UInt8) : XxHash UInt64 :=
  { h with
    v1 := round h.v1 (readUInt64LittleEndian block)
    v2 := round h.v2 (readUInt64LittleEndian (block.drop 8))
    v3 := round h.v3 (readUInt64LittleEndian (block.drop 16))
    v4 := round h.v4 (readUInt64LittleEndian (block.drop 24)) }

/-- The constructor.
SOURCE: 40-44 -/
def create (seed : UInt64) : XxHash UInt64 :=
  (XxHash.blank 32 seed).initState prime1 prime2

def clone (h : XxHash UInt64) : XxHash UInt64 := h.clone 32

/-- SOURCE: 58 -/
def reset (h : XxHash UInt64) : XxHash UInt64 :=
  { h with totalLength := 0, bufLen := 0 }.initState prime1 prime2

def append (h : XxHash UInt64) (source : Option (List UInt8)) (length : ℤ) :
    Run Exception (XxHash UInt64) :=
  h.append 32 processBlock source length

/-- The loop over the whole lanes of the buffer.
SOURCE: 112-117 -/
def tailLanes (buf : List UInt8) (remaining : ℕ) :
    UInt64 × ℕ × ℕ → Run Exception (UInt64 × ℕ × ℕ) :=
  Run.whileLoop (fun (_, _, remaining) => decide (8 ≤ remaining))
    (fun (h64, p, remaining) =>
      let lane := readUInt64LittleEndian (buf.drop p)
      let h64 := h64 ^^^ round 0 lane
      let h64 := rotl64 h64 27 * prime1 + prime4
      pure (h64, p + 8, remaining - 8))
    remaining

/-- The loop over the bytes after the last lane.
SOURCE: 124-128 -/
def tailBytes (buf : List UInt8) (remaining : ℕ) :
    UInt64 × ℕ × ℕ → Run Exception (UInt64 × ℕ × ℕ) :=
  Run.whileLoop (fun (_, _, remaining) => decide (0 < remaining))
    (fun (h64, p, remaining) =>
      let h64 := h64 ^^^ (buf.getD p 0).toUInt64 * prime5
      let h64 := rotl64 h64 11 * prime1
      pure (h64, p + 1, remaining - 1))
    remaining

/-- The last mixing.
SOURCE: 130-132 -/
def avalanche (h64 : UInt64) : UInt64 :=
  let h64 := (h64 ^^^ h64 >>> 33) * prime2
  let h64 := (h64 ^^^ h64 >>> 29) * prime3
  h64 ^^^ h64 >>> 32

/-- SOURCE: 97-135 -/
def getCurrentHashAsUInt64 (h : XxHash UInt64) : Run Exception UInt64 := do
  let h64 :=
    if 32 ≤ h.totalLength then
      let h64 := rotl64 h.v1 1 + rotl64 h.v2 7 + rotl64 h.v3 12 + rotl64 h.v4 18
      let h64 := mergeAccumulator h64 h.v1
      let h64 := mergeAccumulator h64 h.v2
      let h64 := mergeAccumulator h64 h.v3
      mergeAccumulator h64 h.v4
    else h.seed + prime5
  let h64 := h64 + h.totalLength
  let (h64, p, remaining) ← tailLanes h.buf h.bufLen (h64, 0, h.bufLen)
  let (h64, p, remaining) :=
    if 4 ≤ remaining then
      let lane := readUInt32LittleEndian (h.buf.drop p)
      let h64 := h64 ^^^ lane.toUInt64 * prime1
      let h64 := rotl64 h64 23 * prime2 + prime3
      (h64, p + 4, remaining - 4)
    else (h64, p, remaining)
  let (h64, _, _) ← tailBytes h.buf remaining (h64, p, remaining)
  pure (avalanche h64)

/-- The word's bytes, the highest first.
SOURCE: 92-95 -/
def getCurrentHashCore (h : XxHash UInt64) : Run Exception (List UInt8) := do
  let h64 ← getCurrentHashAsUInt64 h
  pure ((List.range 8).map fun i => (h64 >>> (56 - 8 * UInt64.ofNat i)).toUInt8)

end XxHash64

namespace XxHash32

def prime1 : UInt32 := 0x9E3779B1
def prime2 : UInt32 := 0x85EBCA77
def prime3 : UInt32 := 0xC2B2AE3D
def prime4 : UInt32 := 0x27D4EB2F
def prime5 : UInt32 := 0x165667B1

/-- SOURCE: XxHash32.cpp:11 -/
def rotl32 (v n : UInt32) : UInt32 := (v <<< n) ||| (v >>> (32 - n))

/-- SOURCE: 13-18 -/
def round (acc input : UInt32) : UInt32 :=
  let acc := acc + input * prime2
  let acc := rotl32 acc 13
  acc * prime1

/-- SOURCE: 27-33 -/
def processBlock (h : XxHash UInt32) (block : List UInt8) : XxHash UInt32 :=
  { h with
    v1 := round h.v1 (readUInt32LittleEndian block)
    v2 := round h.v2 (readUInt32LittleEndian (block.drop 4))
    v3 := round h.v3 (readUInt32LittleEndian (block.drop 8))
    v4 := round h.v4 (readUInt32LittleEndian (block.drop 12)) }

/-- The constructor.
SOURCE: 35-39 -/
def create (seed : UInt32) : XxHash UInt32 :=
  (XxHash.blank 16 seed).initState prime1 prime2

def clone (h : XxHash UInt32) : XxHash UInt32 := h.clone 16

/-- SOURCE: 53 -/
def reset (h : XxHash UInt32) : XxHash UInt32 :=
  { h with totalLength := 0, bufLen := 0 }.initState prime1 prime2

def append (h : XxHash UInt32) (source : Option (List UInt8)) (length : ℤ) :
    Run Exception (XxHash UInt32) :=
  h.append 16 processBlock source length

/-- The loop over the whole lanes of the buffer.
SOURCE: 106-111 -/
def tailLanes (buf : List UInt8) (remaining : ℕ) :
    UInt32 × ℕ × ℕ → Run Exception (UInt32 × ℕ × ℕ) :=
  Run.whileLoop (fun (_, _, remaining) => decide (4 ≤ remaining))
    (fun (h32, p, remaining) =>
      let lane := readUInt32LittleEndian (buf.drop p)
      let h32 := h32 + lane * prime3
      let h32 := rotl32 h32 17 * prime4
      pure (h32, p + 4, remaining - 4))
    remaining

/-- The loop over the bytes after the last lane.
SOURCE: 112-116 -/
def tailBytes (buf : List UInt8) (remaining : ℕ) :
    UInt32 × ℕ × ℕ → Run Exception (UInt32 × ℕ × ℕ) :=
  Run.whileLoop (fun (_, _, remaining) => decide (0 < remaining))
    (fun (h32, p, remaining) =>
      let h32 := h32 + (buf.getD p 0).toUInt32 * prime5
      let h32 := rotl32 h32 11 * prime1
      pure (h32, p + 1, remaining - 1))
    remaining

/-- The last mixing.
SOURCE: 118-120 -/
def avalanche (h32 : UInt32) : UInt32 :=
  let h32 := (h32 ^^^ h32 >>> 15) * prime2
  let h32 := (h32 ^^^ h32 >>> 13) * prime3
  h32 ^^^ h32 >>> 16

/-- SOURCE: 95-123 -/
def getCurrentHashAsUInt32 (h : XxHash UInt32) : Run Exception UInt32 := do
  let h32 :=
    if 16 ≤ h.totalLength then
      rotl32 h.v1 1 + rotl32 h.v2 7 + rotl32 h.v3 12 + rotl32 h.v4 18
    else h.seed + prime5
  let h32 := h32 + h.totalLength.toUInt32
  let (h32, p, remaining) ← tailLanes h.buf h.bufLen (h32, 0, h.bufLen)
  let (h32, _, _) ← tailBytes h.buf remaining (h32, p, remaining)
  pure (avalanche h32)

/-- The word's bytes, the highest first.
SOURCE: 87-93 -/
def getCurrentHashCore (h : XxHash UInt32) : Run Exception (List UInt8) := do
  let h32 ← getCurrentHashAsUInt32 h
  pure [(h32 >>> 24).toUInt8, (h32 >>> 16).toUInt8, (h32 >>> 8).toUInt8, h32.toUInt8]

end XxHash32

/-!
# `Adler32`

Two sums of 32 bits, which are reduced once in a block.  A sum that wraps makes the run unclean.
-/

/-- The field of `Adler32`.
SOURCE: Adler32.hpp:48 -/
structure Adler32 where
  adler : UInt32
deriving DecidableEq

namespace Adler32

/-- SOURCE: Adler32.cpp:11 -/
def modBase : ℕ := 65521

/-- SOURCE: 13 -/
def nMax : ℤ := 5552

/-- SOURCE: Adler32.hpp:46 -/
def initialState : UInt32 := 1

/-- The two sums, with what is left of the source and its length. -/
structure Sums where
  s1 : ℕ
  s2 : ℕ
  source : List UInt8
  length : ℤ

/-- `s1 += source[i]; s2 += s1;`
SOURCE: Adler32.cpp:29-30 -/
def addByte (s : ℕ × ℕ) (b : UInt8) : Run Exception (ℕ × ℕ) := do
  let s1 ← Run.word 32 (s.1 + b.toNat)
  let s2 ← Run.word 32 (s.2 + s1)
  pure (s1, s2)

/-- SOURCE: 27-35 -/
def addBlock (s : Sums) : Run Exception Sums := do
  let k := if s.length < nMax then s.length else nMax
  let (s1, s2) ← (s.source.take k.toNat).foldlM addByte (s.s1, s.s2)
  pure ⟨s1 % modBase, s2 % modBase, s.source.drop k.toNat, s.length - k⟩

/-- SOURCE: 19-39 -/
def update (adler : UInt32) (source : Option (List UInt8)) (length : ℤ) : Run Exception UInt32 := do
  validateSource source length
  if length = 0 then pure adler
  else
    -- the loops read the source up to `length`
    Run.observe (length ≤ (source.getD []).length)
    let s1 := (adler &&& 0xFFFF).toNat
    let s2 := ((adler >>> 16) &&& 0xFFFF).toNat
    let s ← Run.whileLoop (fun s => decide (0 < s.length)) addBlock length.toNat
      ⟨s1, s2, source.getD [], length⟩
    pure ((UInt32.ofNat s.s2 <<< 16) ||| UInt32.ofNat s.s1)

/-- The constructor.
SOURCE: 49 -/
def create : Adler32 := ⟨initialState⟩

/-- SOURCE: 53-55 -/
def append (h : Adler32) (source : Option (List UInt8)) (length : ℤ) : Run Exception Adler32 := do
  let adler ← update h.adler source length
  pure ⟨adler⟩

/-- SOURCE: 57-59 -/
def reset (_ : Adler32) : Adler32 := ⟨initialState⟩

/-- SOURCE: Adler32.hpp:61 -/
def clone (h : Adler32) : Adler32 := ⟨h.adler⟩

/-- SOURCE: 68 -/
def getCurrentHashAsUInt32 (h : Adler32) : UInt32 := h.adler

/-- SOURCE: Adler32.cpp:92-94 -/
def hashToUInt32 (source : Option (List UInt8)) (length : ℤ) : Run Exception UInt32 :=
  update initialState source length

end Adler32

end SharpRuntime.Model
