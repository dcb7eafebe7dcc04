import SharpRuntime.Model.Exception

/-!
# `Base64`

The class of `modules/buffers/include/System/Buffers/Text/Base64.hpp`, under the source's names;
bare line numbers are of the file named last.  A span is the list of its elements; `char` and
`uint8_t` text are both read as bytes.  A destination is its length and the bytes stored so far,
whose number is the source's `di`; what is left of the text stands for the text and the cursor `si`.
-/

set_option autoImplicit false

namespace SharpRuntime.Model

open Machine

/-- SOURCE: OperationStatus.hpp:8-17 -/
inductive OperationStatus where
  | done
  | destinationTooSmall
  | needMoreData
  | invalidData
deriving DecidableEq

/-- What a call returns: its status, its two cursors, and the bytes stored in the destination. -/
structure Transfer where
  status : OperationStatus
  consumed : ℕ
  written : ℕ
  dst : List UInt8
deriving DecidableEq

/-- Some more elements have been consumed, and the characters stored. -/
def Transfer.advance (t : Transfer) (consumed : ℕ) (characters : List UInt8) : Transfer :=
  { t with
    consumed := t.consumed + consumed
    written := t.written + characters.length
    dst := t.dst ++ characters }

namespace Base64

/-- The longest source whose encoding has a length of its type. -/
def kMaximumEncodeLength : ℤ := 1610612733

def kEncTable : List UInt8 :=
  [ 'A', 'B', 'C', 'D', 'E', 'F', 'G', 'H', 'I', 'J', 'K', 'L', 'M', 'N', 'O', 'P',
    'Q', 'R', 'S', 'T', 'U', 'V', 'W', 'X', 'Y', 'Z', 'a', 'b', 'c', 'd', 'e', 'f',
    'g', 'h', 'i', 'j', 'k', 'l', 'm', 'n', 'o', 'p', 'q', 'r', 's', 't', 'u', 'v',
    'w', 'x', 'y', 'z', '0', '1', '2', '3', '4', '5', '6', '7', '8', '9', '+', '/' ].map
    Char.toUInt8

/-- The sextet of each byte; `-2` means `=` and `-1` means invalid.
SOURCE: Base64.hpp:37-55 -/
def kDecTable : List ℤ := [
  -1,-1,-1,-1,-1,-1,-1,-1,-1,-1,-1,-1,-1,-1,-1,-1,
  -1,-1,-1,-1,-1,-1,-1,-1,-1,-1,-1,-1,-1,-1,-1,-1,
  -1,-1,-1,-1,-1,-1,-1,-1,-1,-1,-1,62,-1,-1,-1,63,
  52,53,54,55,56,57,58,59,60,61,-1,-1,-1,-2,-1,-1,
  -1, 0, 1, 2, 3, 4, 5, 6, 7, 8, 9,10,11,12,13,14,
  15,16,17,18,19,20,21,22,23,24,25,-1,-1,-1,-1,-1,
  -1,26,27,28,29,30,31,32,33,34,35,36,37,38,39,40,
  41,42,43,44,45,46,47,48,49,50,51,-1,-1,-1,-1,-1 ] ++ List.replicate 128 (-1)

/-- SOURCE: 57-59 -/
def isWhitespace (c : UInt8) : Bool :=
  c == ' '.toUInt8 || c == '\t'.toUInt8 || c == '\r'.toUInt8 || c == '\n'.toUInt8

/-! ## Decoding -/

/-- The locals of `decodeCore`. -/
structure DecodeState where
  si : ℕ
  dst : List UInt8
  vals : ℕ → ℕ
  valCount : ℕ
  padCount : ℕ
  failCursor : ℕ
  consumed : ℕ
  written : ℕ

namespace DecodeState

/-- SOURCE: 66-69,82 -/
def initial : DecodeState := ⟨0, [], fun _ => 0, 0, 0, 0, 0, 0⟩

/-- SOURCE: 83-86 -/
def fail (st : DecodeState) (status : OperationStatus) : Transfer :=
  ⟨status, st.failCursor, st.written, st.dst⟩

/-- `vals[valCount++] = v`. -/
def push (st : DecodeState) (v : ℕ) : DecodeState :=
  { st with vals := Function.update st.vals st.valCount v, valCount := st.valCount + 1 }

/-- A character that is not white space: where a failure of its quantum would report its cursor.
SOURCE: 91 -/
def mark (st : DecodeState) : DecodeState :=
  if st.valCount = 0 then { st with failCursor := st.si } else st

/-- The bytes are stored and the quantum is committed.
SOURCE: 123-125,148 -/
def commit (st : DecodeState) (bytes : List UInt8) : DecodeState :=
  { st with dst := st.dst ++ bytes, consumed := st.si, written := (st.dst ++ bytes).length }

end DecodeState

/-- The character with the table entry `v` joins the quantum, unless it is invalid there.
SOURCE: 93-117 -/
def takeSymbol (isFinalBlock : Bool) (v : ℤ) (st : DecodeState) : Option DecodeState :=
  let st := { st with si := st.si + 1 }
  if v = -1 then none
  else if v = -2 then
    if !isFinalBlock then none
    else if st.valCount < 2 then none
    else some { st.push 0 with padCount := st.padCount + 1 }
  else if st.padCount > 0 then none
  else some (st.push v.toNat)

/-- The bytes of a quantum of four.
SOURCE: 120-147 -/
def quantumBytes (dstLen : ℕ) (st : DecodeState) : Except OperationStatus (List UInt8) :=
  let vals := st.vals
  if st.padCount = 0 then
    if dstLen - st.dst.length < 3 then .error .destinationTooSmall
    else
      let val := vals 0 <<< 18 ||| vals 1 <<< 12 ||| vals 2 <<< 6 ||| vals 3
      .ok [UInt8.ofNat (val >>> 16), UInt8.ofNat (val >>> 8), UInt8.ofNat val]
  else if st.padCount = 1 then
    if vals 2 &&& 0x03 ≠ 0 then .error .invalidData
    else if dstLen - st.dst.length < 2 then .error .destinationTooSmall
    else
      let val := vals 0 <<< 18 ||| vals 1 <<< 12 ||| vals 2 <<< 6
      .ok [UInt8.ofNat (val >>> 16), UInt8.ofNat (val >>> 8)]
  else
    if vals 1 &&& 0x0F ≠ 0 then .error .invalidData
    else if dstLen - st.dst.length < 1 then .error .destinationTooSmall
    else
      let val := vals 0 <<< 18 ||| vals 1 <<< 12
      .ok [UInt8.ofNat (val >>> 16)]

/-- Only white space may follow padding.
SOURCE: 160-164 -/
def afterPadding (srcLen : ℕ) (st : DecodeState) (src : List UInt8) : Transfer :=
  if src.all isWhitespace then ⟨.done, srcLen, st.written, st.dst⟩
  else ⟨.invalidData, st.consumed, st.written, st.dst⟩

/-- SOURCE: 170-175 -/
def endOfText (isFinalBlock : Bool) (st : DecodeState) : Transfer :=
  if st.valCount > 0 then
    if isFinalBlock then st.fail .invalidData
    else ⟨.needMoreData, st.consumed, st.written, st.dst⟩
  else ⟨.done, st.si, st.dst.length, st.dst⟩

/-- SOURCE: 88-175 -/
def decodeLoop (srcLen dstLen : ℕ) (isFinalBlock : Bool) : DecodeState → List UInt8 → Transfer
  | st, [] => endOfText isFinalBlock st
  | st, ch :: src =>
    if isWhitespace ch then decodeLoop srcLen dstLen isFinalBlock { st with si := st.si + 1 } src
    else
      match takeSymbol isFinalBlock (kDecTable.getD ch.toNat (-1)) st.mark with
      | none => st.mark.fail .invalidData
      | some st =>
        if st.valCount = 4 then
          match quantumBytes dstLen st with
          | .error status => st.fail status
          | .ok bytes =>
            if st.padCount > 0 then afterPadding srcLen (st.commit bytes) src
            else
              decodeLoop srcLen dstLen isFinalBlock
                { st.commit bytes with valCount := 0, padCount := 0 } src
        else decodeLoop srcLen dstLen isFinalBlock st src

/-- SOURCE: 63-176 -/
def decodeCore (src : List UInt8) (dstLen : ℕ) (isFinalBlock : Bool) : Transfer :=
  decodeLoop src.length dstLen isFinalBlock DecodeState.initial src

/-- SOURCE: 549-559,632-642 -/
def decodeFromUtf8 (utf8 : List UInt8) (bytesLength : ℕ) (isFinalBlock : Bool) : Transfer :=
  decodeCore utf8 bytesLength isFinalBlock

/-! ## Validation -/

/-- The locals of `validateCore` without its cursor. -/
structure ValidateState where
  di : ℕ
  vals : ℕ → ℕ
  valCount : ℕ
  padCount : ℕ

namespace ValidateState

/-- SOURCE: 186-188 -/
def initial : ValidateState := ⟨0, fun _ => 0, 0, 0⟩

/-- `vals[valCount++] = v`. -/
def push (st : ValidateState) (v : ℕ) : ValidateState :=
  { st with vals := Function.update st.vals st.valCount v, valCount := st.valCount + 1 }

end ValidateState

/-- SOURCE: 195-204 -/
def validateSymbol (v : ℤ) (st : ValidateState) : Option ValidateState :=
  if v = -1 then none
  else if v = -2 then
    if st.valCount < 2 then none
    else some { st.push 0 with padCount := st.padCount + 1 }
  else if st.padCount > 0 then none
  else some (st.push v.toNat)

/-- Whether the text is valid, and the value of `decodedLength`.
SOURCE: 190-222 -/
def validateLoop : ValidateState → List UInt8 → Bool × ℕ
  | st, [] => if st.valCount > 0 then (false, 0) else (true, st.di)
  | st, ch :: src =>
    if isWhitespace ch then validateLoop st src
    else
      match validateSymbol (kDecTable.getD ch.toNat (-1)) st with
      | none => (false, 0)
      | some st =>
        if st.valCount = 4 then
          if st.padCount = 1 ∧ st.vals 2 &&& 0x03 ≠ 0 then (false, 0)
          else if st.padCount = 2 ∧ st.vals 1 &&& 0x0F ≠ 0 then (false, 0)
          else
            let di := st.di + if st.padCount = 0 then 3 else if st.padCount = 1 then 2 else 1
            if st.padCount > 0 then
              if src.all isWhitespace then (true, di) else (false, 0)
            else validateLoop { st with di := di, valCount := 0, padCount := 0 } src
        else validateLoop st src

/-- SOURCE: 183-223 -/
def validateCore (src : List UInt8) : Bool × ℕ := validateLoop ValidateState.initial src

/-- SOURCE: 712-722 -/
def isValid (base64Text : List UInt8) : Bool × ℕ := validateCore base64Text

/-! ## Encoding -/

/-- The letter of the sextet of `b` that begins at the bit `shift`. -/
def letterAt (kEncTable : List UInt8) (b shift : ℕ) : UInt8 :=
  kEncTable.getD (b >>> shift &&& 0x3F) 0

/-- The loop over the whole groups of three bytes; it leaves what `src` points to after it, unless
the destination ends before it does.
SOURCE: 233-243 -/
def encodeGroups (kEncTable : List UInt8) (dstLen : ℕ) :
    (fullGroups : ℕ) → List UInt8 → Transfer → Except Transfer (List UInt8 × Transfer)
  | 0, src, t => .ok (src, t)
  | fullGroups + 1, src, t =>
    if dstLen - t.written < 4 then .error { t with status := .destinationTooSmall }
    else
      let b := (src.getD 0 0).toNat <<< 16 ||| (src.getD 1 0).toNat <<< 8 ||| (src.getD 2 0).toNat
      encodeGroups kEncTable dstLen fullGroups (src.drop 3)
        (t.advance 3 [letterAt kEncTable b 18, letterAt kEncTable b 12, letterAt kEncTable b 6,
          letterAt kEncTable b 0])

/-- The one or two bytes after the whole groups.
SOURCE: 249-265 -/
def encodeRemainder (dstLen remainder : ℕ) (src : List UInt8) (t : Transfer) : Transfer :=
  if dstLen - t.written < 4 then { t with status := .destinationTooSmall }
  else if remainder = 1 then
    let b := (src.getD 0 0).toNat <<< 16
    t.advance remainder [letterAt kEncTable b 18, letterAt kEncTable b 12, '='.toUInt8, '='.toUInt8]
  else
    let b := (src.getD 0 0).toNat <<< 16 ||| (src.getD 1 0).toNat <<< 8
    t.advance remainder
      [letterAt kEncTable b 18, letterAt kEncTable b 12, letterAt kEncTable b 6, '='.toUInt8]

/-- SOURCE: 226-267 -/
def encodeCore (src : List UInt8) (dstLen : ℕ) (isFinalBlock : Bool) : Transfer :=
  let fullGroups := src.length / 3
  let remainder := src.length % 3
  match encodeGroups kEncTable dstLen fullGroups src ⟨.done, 0, 0, []⟩ with
  | .error t => t
  | .ok (src, t) =>
    if !isFinalBlock ∧ remainder > 0 then { t with status := .needMoreData }
    else if isFinalBlock ∧ remainder > 0 then encodeRemainder dstLen remainder src t
    else t

/-- SOURCE: 328-338,474-484 -/
def encodeToUtf8 (bytes : List UInt8) (utf8Length : ℕ) (isFinalBlock : Bool) : Transfer :=
  encodeCore bytes utf8Length isFinalBlock

/-! ## Lengths -/

/-- SOURCE: 281-284 -/
def getMaxDecodedFromUtf8Length (base64Length : ℤ) : Run Exception ℤ :=
  if base64Length < 0 then
    Run.throwing (.argumentOutOfRange "base64Length" "Non-negative number required.")
  else Run.signed 32 (base64Length.tdiv 4 * 3)

/-- SOURCE: 290-292 -/
def getMaxDecodedLength (base64Length : ℤ) : Run Exception ℤ :=
  getMaxDecodedFromUtf8Length base64Length

/-- SOURCE: 299-303 -/
def getMaxEncodedToUtf8Length (bytesLength : ℤ) : Run Exception ℤ :=
  if bytesLength < 0 ∨ bytesLength > kMaximumEncodeLength then
    Run.throwing (.argumentOutOfRange "bytesLength"
      "Non-negative number required, and less than or equal to 1610612733.")
  else do
    let sum ← Run.signed 32 (bytesLength + 2)
    Run.signed 32 (sum.tdiv 3 * 4)

/-- SOURCE: 309-311 -/
def getEncodedLength (bytesLength : ℤ) : Run Exception ℤ := getMaxEncodedToUtf8Length bytesLength

/-! ## In place

The text and the bytes share one buffer, which every read and every store goes to. -/

/-- `buf[offset] = …; buf[offset + 1] = …` and so on. -/
def store : (buf : List UInt8) → (offset : ℕ) → List UInt8 → List UInt8
  | buf, _, [] => buf
  | buf, offset, c :: bytes => store (buf.set offset c) (offset + 1) bytes

/-- The last pack, which is not a whole group.
SOURCE: 429-443 -/
def encodeLastPack (fullGroups remainder : ℕ) (buf : List UInt8) : List UInt8 :=
  let dstOff := fullGroups * 4
  if remainder = 1 then
    let b := (buf.getD (fullGroups * 3) 0).toNat <<< 16
    store buf dstOff
      [letterAt kEncTable b 18, letterAt kEncTable b 12, '='.toUInt8, '='.toUInt8]
  else if remainder = 2 then
    let b := (buf.getD (fullGroups * 3) 0).toNat <<< 16 |||
      (buf.getD (fullGroups * 3 + 1) 0).toNat <<< 8
    store buf dstOff
      [letterAt kEncTable b 18, letterAt kEncTable b 12, letterAt kEncTable b 6, '='.toUInt8]
  else buf

/-- The whole groups, from the last one to the first.
SOURCE: 445-452; Base64Url.hpp:408-415 -/
def encodeGroupsInPlace (kEncTable : List UInt8) : (fullGroups : ℕ) → List UInt8 → List UInt8
  | 0, buf => buf
  | i + 1, buf =>
    let srcOff := i * 3
    let b := (buf.getD srcOff 0).toNat <<< 16 ||| (buf.getD (srcOff + 1) 0).toNat <<< 8 |||
      (buf.getD (srcOff + 2) 0).toNat
    encodeGroupsInPlace kEncTable i
      (store buf (i * 4)
        [letterAt kEncTable b 18, letterAt kEncTable b 12, letterAt kEncTable b 6,
          letterAt kEncTable b 0])

/-- The status, the value of `bytesWritten` and the buffer.
SOURCE: Base64.hpp:391-456 -/
def encodeToUtf8InPlace (buffer : List UInt8) (dataLength : ℤ) :
    Run Exception (OperationStatus × ℤ × List UInt8) :=
  if buffer.length = 0 then pure (.done, 0, buffer)
  else do
    let encodedLen ← getEncodedLength dataLength
    if encodedLen > buffer.length then pure (.destinationTooSmall, 0, buffer)
    else
      let fullGroups := (dataLength.tdiv 3).toNat
      let remainder := (dataLength.tmod 3).toNat
      let buf := encodeLastPack fullGroups remainder buffer
      pure (.done, encodedLen, encodeGroupsInPlace kEncTable fullGroups buf)

/-- `decodeLoop` where the destination is the text itself; `rest` characters are left.
SOURCE: 88-175 -/
def decodeLoopInPlace (srcLen dstLen : ℕ) (isFinalBlock : Bool) :
    (rest : ℕ) → DecodeState → (buf : List UInt8) → Transfer × List UInt8
  | 0, st, buf => (endOfText isFinalBlock st, buf)
  | rest + 1, st, buf =>
    let ch := buf.getD st.si 0
    if isWhitespace ch then
      decodeLoopInPlace srcLen dstLen isFinalBlock rest { st with si := st.si + 1 } buf
    else
      match takeSymbol isFinalBlock (kDecTable.getD ch.toNat (-1)) st.mark with
      | none => (st.mark.fail .invalidData, buf)
      | some st =>
        if st.valCount = 4 then
          match quantumBytes dstLen st with
          | .error status => (st.fail status, buf)
          | .ok bytes =>
            let buf := store buf st.dst.length bytes
            if st.padCount > 0 then (afterPadding srcLen (st.commit bytes) (buf.drop st.si), buf)
            else
              decodeLoopInPlace srcLen dstLen isFinalBlock rest
                { st.commit bytes with valCount := 0, padCount := 0 } buf
        else decodeLoopInPlace srcLen dstLen isFinalBlock rest st buf

/-- The status, the value of `bytesWritten` and the buffer.
SOURCE: 615-620 -/
def decodeFromUtf8InPlace (buffer : List UInt8) : OperationStatus × ℕ × List UInt8 :=
  let len := buffer.length
  let (t, buffer) := decodeLoopInPlace len len true len DecodeState.initial buffer
  (t.status, t.written, buffer)

end Base64

end SharpRuntime.Model

/-!
# `Base64Url`

The class of `modules/buffers/include/System/Buffers/Text/Base64Url.hpp`, under the source's
names.  Text, destination and cursors are as in `Base64`.
-/

namespace SharpRuntime.Model.Base64Url

open Machine

def kMaximumEncodeLength : ℤ := 1610612733

def kEncTable : List UInt8 :=
  [ 'A', 'B', 'C', 'D', 'E', 'F', 'G', 'H', 'I', 'J', 'K', 'L', 'M', 'N', 'O', 'P',
    'Q', 'R', 'S', 'T', 'U', 'V', 'W', 'X', 'Y', 'Z', 'a', 'b', 'c', 'd', 'e', 'f',
    'g', 'h', 'i', 'j', 'k', 'l', 'm', 'n', 'o', 'p', 'q', 'r', 's', 't', 'u', 'v',
    'w', 'x', 'y', 'z', '0', '1', '2', '3', '4', '5', '6', '7', '8', '9', '-', '_' ].map
    Char.toUInt8

/-- The sextet of each byte, and `-1` for no letter.
SOURCE: Base64Url.hpp:39-56 -/
def kDecTable : List ℤ := [
  -1,-1,-1,-1,-1,-1,-1,-1,-1,-1,-1,-1,-1,-1,-1,-1,
  -1,-1,-1,-1,-1,-1,-1,-1,-1,-1,-1,-1,-1,-1,-1,-1,
  -1,-1,-1,-1,-1,-1,-1,-1,-1,-1,-1,-1,-1,62,-1,-1,
  52,53,54,55,56,57,58,59,60,61,-1,-1,-1,-1,-1,-1,
  -1, 0, 1, 2, 3, 4, 5, 6, 7, 8, 9,10,11,12,13,14,
  15,16,17,18,19,20,21,22,23,24,25,-1,-1,-1,-1,63,
  -1,26,27,28,29,30,31,32,33,34,35,36,37,38,39,40,
  41,42,43,44,45,46,47,48,49,50,51,-1,-1,-1,-1,-1 ] ++ List.replicate 128 (-1)

/-- SOURCE: 58-60 -/
def isWhitespace (c : UInt8) : Bool :=
  c == ' '.toUInt8 || c == '\t'.toUInt8 || c == '\r'.toUInt8 || c == '\n'.toUInt8

/-- SOURCE: 71-73 -/
def isPadding (c : UInt8) : Bool := c == '='.toUInt8 || c == '%'.toUInt8

/-! ## Decoding -/

/-- The locals of `decodeCore`. -/
structure DecodeState where
  si : ℕ
  dst : List UInt8
  vals : ℕ → ℕ
  valCount : ℕ
  failCursor : ℕ
  consumed : ℕ
  written : ℕ

namespace DecodeState

/-- SOURCE: 86-89,100 -/
def initial : DecodeState := ⟨0, [], fun _ => 0, 0, 0, 0, 0⟩

/-- SOURCE: 101-104 -/
def fail (st : DecodeState) (status : OperationStatus) : Transfer :=
  ⟨status, st.failCursor, st.written, st.dst⟩

/-- `vals[valCount++] = v`. -/
def push (st : DecodeState) (v : ℕ) : DecodeState :=
  { st with vals := Function.update st.vals st.valCount v, valCount := st.valCount + 1 }

/-- A character that is not white space: where a failure of its quantum would report its cursor.
SOURCE: 109 -/
def mark (st : DecodeState) : DecodeState :=
  if st.valCount = 0 then { st with failCursor := st.si } else st

/-- The bytes are stored and the quantum is committed.
SOURCE: 139-143 -/
def commit (st : DecodeState) (bytes : List UInt8) : DecodeState :=
  { st with
    dst := st.dst ++ bytes
    consumed := st.si
    written := (st.dst ++ bytes).length
    valCount := 0 }

end DecodeState

/-- The number of padding characters, the first `padCount` of which have been read, if nothing else
but white space is left and there are at most two.
SOURCE: 121-127 -/
def countPadding : (padCount : ℕ) → List UInt8 → Option ℕ
  | padCount, [] => some padCount
  | padCount, p :: src =>
    if isWhitespace p then countPadding padCount src
    else if !isPadding p then none
    else if padCount = 2 then none
    else countPadding (padCount + 1) src

/-- The last quantum, which has fewer than four letters.
SOURCE: 147-172 -/
def endOfText (dstLen : ℕ) (isFinalBlock : Bool) (st : DecodeState) : Transfer :=
  let vals := st.vals
  if st.valCount > 0 then
    if !isFinalBlock then ⟨.needMoreData, st.consumed, st.written, st.dst⟩
    else if st.valCount = 1 then st.fail .invalidData
    else if st.valCount = 2 then
      if vals 1 &&& 0x0F ≠ 0 then st.fail .invalidData
      else if dstLen - st.dst.length < 1 then st.fail .destinationTooSmall
      else
        let val := vals 0 <<< 18 ||| vals 1 <<< 12
        let dst := st.dst ++ [UInt8.ofNat (val >>> 16)]
        ⟨.done, st.si, dst.length, dst⟩
    else
      if vals 2 &&& 0x03 ≠ 0 then st.fail .invalidData
      else if dstLen - st.dst.length < 2 then st.fail .destinationTooSmall
      else
        let val := vals 0 <<< 18 ||| vals 1 <<< 12 ||| vals 2 <<< 6
        let dst := st.dst ++ [UInt8.ofNat (val >>> 16), UInt8.ofNat (val >>> 8)]
        ⟨.done, st.si, dst.length, dst⟩
  else ⟨.done, st.si, st.dst.length, st.dst⟩

/-- SOURCE: 106-172 -/
def decodeLoop (dstLen : ℕ) (isFinalBlock : Bool) : DecodeState → List UInt8 → Transfer
  | st, [] => endOfText dstLen isFinalBlock st
  | st, ch :: src =>
    if isWhitespace ch then decodeLoop dstLen isFinalBlock { st with si := st.si + 1 } src
    else
      let st := st.mark
      if isPadding ch then
        if !isFinalBlock then st.fail .invalidData
        else if st.valCount < 2 then st.fail .invalidData
        else
          match countPadding 0 (ch :: src) with
          | none => st.fail .invalidData
          | some padCount =>
            if st.valCount + padCount > 4 then st.fail .invalidData
            else endOfText dstLen isFinalBlock { st with si := st.si + (ch :: src).length }
      else
        let v := kDecTable.getD ch.toNat (-1)
        if v < 0 then st.fail .invalidData
        else
          let st := { st.push v.toNat with si := st.si + 1 }
          if st.valCount = 4 then
            if dstLen - st.dst.length < 3 then st.fail .destinationTooSmall
            else
              let vals := st.vals
              let val := vals 0 <<< 18 ||| vals 1 <<< 12 ||| vals 2 <<< 6 ||| vals 3
              decodeLoop dstLen isFinalBlock
                (st.commit [UInt8.ofNat (val >>> 16), UInt8.ofNat (val >>> 8), UInt8.ofNat val]) src
          else decodeLoop dstLen isFinalBlock st src

/-- SOURCE: 83-173 -/
def decodeCore (src : List UInt8) (dstLen : ℕ) (isFinalBlock : Bool) : Transfer :=
  decodeLoop dstLen isFinalBlock DecodeState.initial src

/-- SOURCE: 500-510,578-588 -/
def decodeFromUtf8 (utf8 : List UInt8) (bytesLength : ℕ) (isFinalBlock : Bool) : Transfer :=
  decodeCore utf8 bytesLength isFinalBlock

/-! ## Validation -/

/-- The locals of `validateCore` without its cursor. -/
structure ValidateState where
  di : ℕ
  vals : ℕ → ℕ
  valCount : ℕ

namespace ValidateState

/-- SOURCE: 186-188 -/
def initial : ValidateState := ⟨0, fun _ => 0, 0⟩

/-- `vals[valCount++] = v`. -/
def push (st : ValidateState) (v : ℕ) : ValidateState :=
  { st with vals := Function.update st.vals st.valCount v, valCount := st.valCount + 1 }

end ValidateState

/-- SOURCE: 195-202 -/
def validatePadding : (padCount : ℕ) → List UInt8 → Option ℕ
  | padCount, [] => some padCount
  | padCount, p :: src =>
    if isWhitespace p then validatePadding padCount src
    else if !isPadding p then none
    else if padCount = 2 then none
    else validatePadding (padCount + 1) src

/-- SOURCE: 212-217 -/
def validateEnd (st : ValidateState) : Bool × ℕ :=
  if st.valCount = 1 then (false, 0)
  else if st.valCount = 2 ∧ st.vals 1 &&& 0x0F ≠ 0 then (false, 0)
  else if st.valCount = 3 ∧ st.vals 2 &&& 0x03 ≠ 0 then (false, 0)
  else (true, st.di + if st.valCount = 2 then 1 else if st.valCount = 3 then 2 else 0)

/-- Whether the text is valid, and the value of `decodedLength`.
SOURCE: 190-217 -/
def validateLoop : ValidateState → List UInt8 → Bool × ℕ
  | st, [] => validateEnd st
  | st, ch :: src =>
    if isWhitespace ch then validateLoop st src
    else if isPadding ch then
      if st.valCount < 2 then (false, 0)
      else
        match validatePadding 0 (ch :: src) with
        | none => (false, 0)
        | some padCount => if st.valCount + padCount > 4 then (false, 0) else validateEnd st
    else
      let v := kDecTable.getD ch.toNat (-1)
      if v < 0 then (false, 0)
      else
        let st := st.push v.toNat
        if st.valCount = 4 then validateLoop { st with di := st.di + 3, valCount := 0 } src
        else validateLoop st src

/-- SOURCE: 183-218 -/
def validateCore (src : List UInt8) : Bool × ℕ := validateLoop ValidateState.initial src

/-- SOURCE: 658-668 -/
def isValid (base64UrlText : List UInt8) : Bool × ℕ := validateCore base64UrlText

/-! ## Encoding -/

/-- The one or two bytes after the whole groups.
SOURCE: 243-256 -/
def encodeRemainder (dstLen remainder : ℕ) (src : List UInt8) (t : Transfer) : Transfer :=
  if remainder = 1 then
    if dstLen - t.written < 2 then { t with status := .destinationTooSmall }
    else
      let b := (src.getD 0 0).toNat <<< 16
      t.advance 1 [Base64.letterAt kEncTable b 18, Base64.letterAt kEncTable b 12]
  else if remainder = 2 then
    if dstLen - t.written < 3 then { t with status := .destinationTooSmall }
    else
      let b := (src.getD 0 0).toNat <<< 16 ||| (src.getD 1 0).toNat <<< 8
      t.advance 2 [Base64.letterAt kEncTable b 18, Base64.letterAt kEncTable b 12,
        Base64.letterAt kEncTable b 6]
  else t

/-- SOURCE: 222-258 -/
def encodeCore (src : List UInt8) (dstLen : ℕ) (isFinalBlock : Bool) : Transfer :=
  let fullGroups := src.length / 3
  let remainder := src.length % 3
  match Base64.encodeGroups kEncTable dstLen fullGroups src ⟨.done, 0, 0, []⟩ with
  | .error t => t
  | .ok (src, t) =>
    if !isFinalBlock ∧ remainder > 0 then { t with status := .needMoreData }
    else if isFinalBlock then encodeRemainder dstLen remainder src t
    else t

/-- SOURCE: 305-315,429-439 -/
def encodeToUtf8 (bytes : List UInt8) (utf8Length : ℕ) (isFinalBlock : Bool) : Transfer :=
  encodeCore bytes utf8Length isFinalBlock

/-! ## Lengths -/

/-- SOURCE: 277-283 -/
def getEncodedLength (bytesLength : ℤ) : Run Exception ℤ :=
  if bytesLength < 0 ∨ bytesLength > kMaximumEncodeLength then
    Run.throwing (.argumentOutOfRange "bytesLength"
      "Non-negative number required, and less than or equal to 1610612733.")
  else do
    let whole := bytesLength.tdiv 3
    let remainder := bytesLength.tmod 3
    let letters ← Run.signed 32 (whole * 4)
    Run.signed 32 (letters + if remainder > 0 then remainder + 1 else 0)

/-- SOURCE: 290-295 -/
def getMaxDecodedLength (base64UrlLength : ℤ) : Run Exception ℤ :=
  if base64UrlLength < 0 then
    Run.throwing (.argumentOutOfRange "base64UrlLength" "Non-negative number required.")
  else do
    let whole := base64UrlLength.tdiv 4
    let remainder := base64UrlLength.tmod 4
    let bytes ← Run.signed 32 (whole * 3)
    Run.signed 32 (bytes + if remainder > 0 then remainder - 1 else 0)

/-! ## In place -/

/-- The last pack, which is not a whole group.
SOURCE: 395-406 -/
def encodeLastPack (fullGroups remainder : ℕ) (buf : List UInt8) : List UInt8 :=
  let dstOff := fullGroups * 4
  if remainder = 1 then
    let b := (buf.getD (fullGroups * 3) 0).toNat <<< 16
    Base64.store buf dstOff [Base64.letterAt kEncTable b 18, Base64.letterAt kEncTable b 12]
  else if remainder = 2 then
    let b := (buf.getD (fullGroups * 3) 0).toNat <<< 16 |||
      (buf.getD (fullGroups * 3 + 1) 0).toNat <<< 8
    Base64.store buf dstOff
      [Base64.letterAt kEncTable b 18, Base64.letterAt kEncTable b 12,
        Base64.letterAt kEncTable b 6]
  else buf

/-- The result, the value of `bytesWritten` and the buffer.
SOURCE: 364-419 -/
def tryEncodeToUtf8InPlace (buffer : List UInt8) (dataLength : ℤ) :
    Run Exception (Bool × ℤ × List UInt8) :=
  if buffer.length = 0 then pure (true, 0, buffer)
  else do
    let encodedLen ← getEncodedLength dataLength
    if encodedLen > buffer.length then pure (false, 0, buffer)
    else
      let fullGroups := (dataLength.tdiv 3).toNat
      let remainder := (dataLength.tmod 3).toNat
      let buf := encodeLastPack fullGroups remainder buffer
      pure (true, encodedLen, Base64.encodeGroupsInPlace kEncTable fullGroups buf)

/-- The bytes that the last quantum has added to the destination are stored into the text.
SOURCE: 147-170 -/
def storeLast (st : DecodeState) (t : Transfer) (buf : List UInt8) : Transfer × List UInt8 :=
  (t, Base64.store buf st.dst.length (t.dst.drop st.dst.length))

/-- `decodeLoop` where the destination is the text itself; `rest` characters are left.
SOURCE: 106-172 -/
def decodeLoopInPlace (dstLen : ℕ) (isFinalBlock : Bool) :
    (rest : ℕ) → DecodeState → (buf : List UInt8) → Transfer × List UInt8
  | 0, st, buf => storeLast st (endOfText dstLen isFinalBlock st) buf
  | rest + 1, st, buf =>
    let ch := buf.getD st.si 0
    if isWhitespace ch then
      decodeLoopInPlace dstLen isFinalBlock rest { st with si := st.si + 1 } buf
    else
      let st := st.mark
      if isPadding ch then
        if !isFinalBlock then (st.fail .invalidData, buf)
        else if st.valCount < 2 then (st.fail .invalidData, buf)
        else
          match countPadding 0 (buf.drop st.si) with
          | none => (st.fail .invalidData, buf)
          | some padCount =>
            if st.valCount + padCount > 4 then (st.fail .invalidData, buf)
            else
              storeLast st (endOfText dstLen isFinalBlock { st with si := buf.length }) buf
      else
        let v := kDecTable.getD ch.toNat (-1)
        if v < 0 then (st.fail .invalidData, buf)
        else
          let st := { st.push v.toNat with si := st.si + 1 }
          if st.valCount = 4 then
            if dstLen - st.dst.length < 3 then (st.fail .destinationTooSmall, buf)
            else
              let vals := st.vals
              let val := vals 0 <<< 18 ||| vals 1 <<< 12 ||| vals 2 <<< 6 ||| vals 3
              let bytes := [UInt8.ofNat (val >>> 16), UInt8.ofNat (val >>> 8), UInt8.ofNat val]
              decodeLoopInPlace dstLen isFinalBlock rest (st.commit bytes)
                (Base64.store buf st.dst.length bytes)
          else decodeLoopInPlace dstLen isFinalBlock rest st buf

def invalidDataMessage : String :=
  "The input is not a valid Base-64 string as it contains a non-base 64 character, " ++
    "more than two padding characters, or an illegal character among the padding characters."

/-- The number of bytes written and the buffer; invalid text is thrown.
SOURCE: 561-568 -/
def decodeFromUtf8InPlace (buffer : List UInt8) : Run Exception ℕ × List UInt8 :=
  let len := buffer.length
  let (t, buffer) := decodeLoopInPlace len true len DecodeState.initial buffer
  (if t.status = .invalidData then Run.throwing (.format invalidDataMessage) else pure t.written,
    buffer)

end SharpRuntime.Model.Base64Url
