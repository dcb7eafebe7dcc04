import SharpRuntime.Model.Utf8Scalar

/-!
# `UnicodeEncoding` and `UTF32Encoding`

`modules/text/include/System/Text/UnicodeEncoding.hpp`, `UTF32Encoding.hpp`, the checks of
`detail/RawDecodeRange.hpp` and the decoding of a vector of `Encoding.hpp`, under the source's
names.

A pointer is an option, with the bytes it points to.  The buffer that `getBytes` writes into is
the list of the bytes written so far; a write at or past its size leaves the run unclean. Lines
cited without a file are those of the file named last.
-/

set_option autoImplicit false

namespace SharpRuntime.Model

open Machine Utf8Scalar

namespace Encoding

/-- SOURCE: RawDecodeRange.hpp:51-68 -/
def validateRawDecodeRange (data : Option (List UInt8)) (index count : ℤ) : Run Exception Bool :=
  if index < 0 then Run.throwing (.outOfRange "index")
  else if count < 0 then Run.throwing (.outOfRange "count")
  else if count = 0 then pure false
  else if data.isNone then Run.throwing (.argumentNull "data" "Value cannot be null.")
  else pure true

/-- The first byte to read and one past the last.
SOURCE: 91-102 -/
def checkedRawDecodeRange (data : Option (List UInt8)) (index count : ℤ) :
    Run Exception (ℕ × ℕ) :=
  (fun valid => if valid then (index.toNat, index.toNat + count.toNat) else (0, 0)) <$>
    validateRawDecodeRange data index count

/-- The replacement of the fallbacks that the encodings install.
SOURCE: UnicodeEncoding.hpp:200-203, UTF32Encoding.hpp:160-163 -/
def replacementText : List UInt8 := [0xEF, 0xBF, 0xBD]

/-- `appendDecoderFallback`, for a replacement fallback.
SOURCE: FallbackDispatch.hpp:32-36, DecoderFallback.hpp:122 -/
def appendDecoderFallback (out decoderFallback : List UInt8) : List UInt8 := out ++ decoderFallback

/-- One byte written at `pos`, which is where the bytes written so far end. -/
def put (size : ℕ) (out : List UInt8) (b : UInt8) : Run Exception (List UInt8) := do
  Run.observe (out.length < size)
  pure (out ++ [b])

end Encoding

open Encoding

/-- `byteOrderMark` is kept for its property; no method of the encoding reads it.
SOURCE: UnicodeEncoding.hpp:28-30 -/
structure UnicodeEncoding where
  bigEndian : Bool
  byteOrderMark : Bool
  decoderFallback : List UInt8

namespace UnicodeEncoding

/-- The encoding as it is constructed.
SOURCE: 33-37, 200-203 -/
def construct (bigEndian byteOrderMark : Bool) : UnicodeEncoding :=
  ⟨bigEndian, byteOrderMark, replacementText⟩

/-- SOURCE: 87-95 -/
def writeUnit (e : UnicodeEncoding) (size : ℕ) (out : List UInt8) (unit : ℕ) :
    Run Exception (List UInt8) :=
  let high := UInt8.ofNat ((unit >>> 8) &&& 0xFF)
  let low := UInt8.ofNat (unit &&& 0xFF)
  if e.bigEndian then put size out high >>= fun out => put size out low
  else put size out low >>= fun out => put size out high

/-- SOURCE: 84-112 -/
def getBytes (e : UnicodeEncoding) (s : List UInt8) : Run Exception (List UInt8) :=
  let size := s.length * 2 + 2
  decodeLoop s
    (fun out cp =>
      if cp < 0x10000 then e.writeUnit size out cp
      else
        let v := cp - 0x10000
        e.writeUnit size out (0xD800 + v >>> 10) >>= fun out =>
          e.writeUnit size out (0xDC00 + (v &&& 0x3FF)))
    []

/-- SOURCE: 205-209 -/
def readUnit (e : UnicodeEncoding) (data : List UInt8) (i : ℕ) : ℕ :=
  let b0 := (data.getD i 0).toNat
  let b1 := (data.getD (i + 1) 0).toNat
  if e.bigEndian then b0 <<< 8 ||| b1 else b1 <<< 8 ||| b0

/-- The unit at `i`, what is appended for it, and where the next one starts.
SOURCE: 153-178 -/
def decodeUnit (e : UnicodeEncoding) (data : List UInt8) (i tail : ℕ) (out : List UInt8) :
    ℕ × List UInt8 :=
  let unit := e.readUnit data i
  let i := i + 2
  if 0xD800 ≤ unit ∧ unit ≤ 0xDBFF then
    if i + 1 < tail then
      let low := e.readUnit data i
      if 0xDC00 ≤ low ∧ low ≤ 0xDFFF then
        (i + 2, appendUtf8Scalar out (0x10000 + ((unit - 0xD800) <<< 10 ||| (low - 0xDC00))))
      else (i, appendDecoderFallback out e.decoderFallback)
    else (i, appendDecoderFallback out e.decoderFallback)
  else if 0xDC00 ≤ unit ∧ unit ≤ 0xDFFF then (i, appendDecoderFallback out e.decoderFallback)
  else (i, appendUtf8Scalar out unit)

/-- SOURCE: 129-189 -/
def getString (e : UnicodeEncoding) (data : Option (List UInt8)) (index count : ℤ) :
    Run Exception (List UInt8) := do
  let (i, tail) ← checkedRawDecodeRange data index count
  let bytes := data.getD []
  let i := if 2 ≤ tail - i ∧ e.readUnit bytes i = 0xFEFF then i + 2 else i
  let (i, out) ← Run.whileLoop (fun p : ℕ × List UInt8 => decide (p.1 + 1 < tail))
    (fun p => pure (e.decodeUnit bytes p.1 tail p.2)) tail (i, [])
  pure (if i < tail then appendDecoderFallback out e.decoderFallback else out)

/-- The whole of a vector.
SOURCE: Encoding.hpp:112-114 -/
def getStringOf (e : UnicodeEncoding) (bytes : List UInt8) : Run Exception (List UInt8) :=
  e.getString (some bytes) 0 (toIntcs bytes.length)

end UnicodeEncoding

/-- SOURCE: UTF32Encoding.hpp:26-28 -/
structure UTF32Encoding where
  bigEndian : Bool
  byteOrderMark : Bool
  decoderFallback : List UInt8

namespace UTF32Encoding

/-- The encoding as it is constructed.
SOURCE: 31-35, 160-163 -/
def construct (bigEndian byteOrderMark : Bool) : UTF32Encoding :=
  ⟨bigEndian, byteOrderMark, replacementText⟩

/-- SOURCE: 165-177 -/
def writeUnit (e : UTF32Encoding) (size : ℕ) (out : List UInt8) (cp : ℕ) :
    Run Exception (List UInt8) :=
  let b0 := UInt8.ofNat (cp &&& 0xFF)
  let b1 := UInt8.ofNat ((cp >>> 8) &&& 0xFF)
  let b2 := UInt8.ofNat ((cp >>> 16) &&& 0xFF)
  let b3 := UInt8.ofNat ((cp >>> 24) &&& 0xFF)
  if ¬ e.bigEndian then
    put size out b0 >>= fun out => put size out b1 >>= fun out => put size out b2 >>= fun out =>
      put size out b3
  else
    put size out b3 >>= fun out => put size out b2 >>= fun out => put size out b1 >>= fun out =>
      put size out b0

/-- SOURCE: 83-96 -/
def getBytes (e : UTF32Encoding) (s : List UInt8) : Run Exception (List UInt8) :=
  decodeLoop s (fun result cp => e.writeUnit (s.length * 4 + 4) result cp) []

/-- SOURCE: 179-187 -/
def readUnit (e : UTF32Encoding) (data : List UInt8) (i : ℕ) : ℕ :=
  let b0 := (data.getD i 0).toNat
  let b1 := (data.getD (i + 1) 0).toNat
  let b2 := (data.getD (i + 2) 0).toNat
  let b3 := (data.getD (i + 3) 0).toNat
  if ¬ e.bigEndian then b0 ||| b1 <<< 8 ||| b2 <<< 16 ||| b3 <<< 24
  else b0 <<< 24 ||| b1 <<< 16 ||| b2 <<< 8 ||| b3

/-- What is appended for the unit at `i`.
SOURCE: 136-141 -/
def decodeUnit (e : UTF32Encoding) (data : List UInt8) (i : ℕ) (result : List UInt8) :
    List UInt8 :=
  let cp := e.readUnit data i
  if 0x10FFFF < cp ∨ 0xD800 ≤ cp ∧ cp ≤ 0xDFFF then appendDecoderFallback result e.decoderFallback
  else appendUtf8Scalar result cp

/-- SOURCE: 113-150 -/
def getString (e : UTF32Encoding) (data : Option (List UInt8)) (index count : ℤ) :
    Run Exception (List UInt8) := do
  let (start, tail) ← checkedRawDecodeRange data index count
  let bytes := data.getD []
  let start := if 4 ≤ tail - start ∧ e.readUnit bytes start = 0xFEFF then start + 4 else start
  let (i, result) ← Run.whileLoop (fun p : ℕ × List UInt8 => decide (p.1 + 3 < tail))
    (fun p => pure (p.1 + 4, e.decodeUnit bytes p.1 p.2)) tail (start, [])
  pure (if i < tail then appendDecoderFallback result e.decoderFallback else result)

/-- The whole of a vector.
SOURCE: Encoding.hpp:112-114 -/
def getStringOf (e : UTF32Encoding) (bytes : List UInt8) : Run Exception (List UInt8) :=
  e.getString (some bytes) 0 (toIntcs bytes.length)

end UTF32Encoding

/-!
# `UTF7Encoding`

`modules/text/include/System/Text/UTF7Encoding.hpp` and the decoding step of `Rune.hpp` it uses,
under the source's names.

What is left of the input stands for the input and a position in it.  The accumulator of bits is a
number: it is masked to fewer than eight bits before it is shifted, so 32 bits hold it.
-/

/-- The value and the bytes consumed.
SOURCE: Rune.hpp:68-86 -/
def Rune.tryGetRuneAt (value : List UInt8) (index : ℕ) : Step :=
  if value.length ≤ index then ⟨none, 0⟩ else tryDecodeUtf8Scalar value value.length index

/-- SOURCE: UTF7Encoding.hpp:33-34 -/
structure UTF7Encoding where
  allowOptionals : Bool

namespace UTF7Encoding

/-- SOURCE: 36-37 -/
def base64Alphabet : List UInt8 :=
  "ABCDEFGHIJKLMNOPQRSTUVWXYZabcdefghijklmnopqrstuvwxyz0123456789+/".toList.map Char.toUInt8

/-- The characters of the first `switch` of `isDirect`.
SOURCE: 48-50 -/
def directMarks : List ℕ := "'(),-./:? \t\r\n".toList.map Char.toNat

/-- The characters of its second `switch`.
SOURCE: 58-61 -/
def optionalMarks : List ℕ := "!\"#$%&*;<=>@[]^_`\x7b|\x7d".toList.map Char.toNat

/-- SOURCE: 39-66 -/
def isDirect (e : UTF7Encoding) (codePoint : ℕ) : Bool :=
  if 0x7F < codePoint ∨ codePoint = '+'.toNat then false
  else if 'A'.toNat ≤ codePoint ∧ codePoint ≤ 'Z'.toNat ∨
      'a'.toNat ≤ codePoint ∧ codePoint ≤ 'z'.toNat ∨
      '0'.toNat ≤ codePoint ∧ codePoint ≤ '9'.toNat then true
  else if codePoint ∈ directMarks then true
  else if ¬ e.allowOptionals then false
  else decide (codePoint ∈ optionalMarks)

/-- `none` stands for -1.
SOURCE: 109-116 -/
def base64Value (character : UInt8) : Option ℕ :=
  if 'A'.toUInt8 ≤ character ∧ character ≤ 'Z'.toUInt8 then
    some (character.toNat - 'A'.toNat)
  else if 'a'.toUInt8 ≤ character ∧ character ≤ 'z'.toUInt8 then
    some (character.toNat - 'a'.toNat + 26)
  else if '0'.toUInt8 ≤ character ∧ character ≤ '9'.toUInt8 then
    some (character.toNat - '0'.toNat + 52)
  else if character = '+'.toUInt8 then some 62
  else if character = '/'.toUInt8 then some 63
  else none

/-- The groups written so far, and the bits that are left over. -/
@[ext]
structure Bits where
  output : List UInt8
  buffer : ℕ
  bitCount : ℕ
deriving DecidableEq

/-- The inner loop of both directions: whole groups of `width` bits go out.  There are no more of
them than bits.
SOURCE: 82-87, 275-279 -/
def drainLoop (width : ℕ) (emit : ℕ → UInt8) : (fuel : ℕ) → Bits → Bits
  | 0, bits => bits
  | fuel + 1, bits =>
    if width ≤ bits.bitCount then
      let bitCount := bits.bitCount - width
      drainLoop width emit fuel
        ⟨bits.output ++ [emit (bits.buffer >>> bitCount)],
          if bitCount = 0 then 0 else bits.buffer &&& (1 <<< bitCount - 1), bitCount⟩
    else bits

/-- SOURCE: 82-87, 275-279 -/
def drain (width : ℕ) (emit : ℕ → UInt8) (bits : Bits) : Bits :=
  drainLoop width emit bits.bitCount bits

/-- A group of `count` bits comes in.
SOURCE: 80-87, 273-279 -/
def feed (width : ℕ) (emit : ℕ → UInt8) (count : ℕ) (bits : Bits) (group : ℕ) : Bits :=
  drain width emit ⟨bits.output, bits.buffer <<< count ||| group, bits.bitCount + count⟩

/-- SOURCE: 83-84 -/
def emitLetter (n : ℕ) : UInt8 := base64Alphabet.getD (n &&& 0x3F) 0

/-- SOURCE: 276 -/
def emitByte (n : ℕ) : UInt8 := UInt8.ofNat n

/-- The two bytes of each unit.
SOURCE: 74-79 -/
def unitBytes (codeUnits : List UInt16) : List ℕ :=
  codeUnits.flatMap fun codeUnit => [codeUnit.toNat >>> 8, codeUnit.toNat % 256]

/-- SOURCE: 68-97 -/
def appendShifted (output : List UInt8) (codeUnits : List UInt16) (appendTerminator : Bool) :
    List UInt8 :=
  let bits := (unitBytes codeUnits).foldl (feed 6 emitLetter 8) ⟨output ++ ['+'.toUInt8], 0, 0⟩
  let output := if bits.bitCount ≠ 0 then
    bits.output ++ [emitLetter (bits.buffer <<< (6 - bits.bitCount))] else bits.output
  if appendTerminator then output ++ ['-'.toUInt8] else output

/-- SOURCE: 99-107 -/
def appendCodePointAsUtf16 (codePoint : ℕ) (output : List UInt16) : List UInt16 :=
  if codePoint < 0x10000 then output ++ [UInt16.ofNat codePoint]
  else
    let adjusted := codePoint - 0x10000
    output ++ [UInt16.ofNat (0xD800 + adjusted >>> 10)] ++
      [UInt16.ofNat (0xDC00 + (adjusted &&& 0x3FF))]

/-- SOURCE: 187-192 -/
def flushShifted (output : List UInt8) (shifted : List UInt16) (appendTerminator : Bool) :
    List UInt8 :=
  if shifted ≠ [] then appendShifted output shifted appendTerminator else output

/-- What `getBytes` does with a code point.
SOURCE: 206-215 -/
def visit (e : UTF7Encoding) (state : List UInt8 × List UInt16) (codePoint : ℕ) :
    List UInt8 × List UInt16 :=
  let (output, shifted) := state
  if codePoint = '+'.toNat then
    (flushShifted output shifted true ++ ['+'.toUInt8] ++ ['-'.toUInt8], [])
  else if e.isDirect codePoint then
    let terminated := codePoint = '-'.toNat ∨ (base64Value (UInt8.ofNat codePoint)).isSome
    (flushShifted output shifted terminated ++ [UInt8.ofNat codePoint], [])
  else (output, appendCodePointAsUtf16 codePoint shifted)

/-- A step that consumes nothing ends the loop, as the end of the input does.
SOURCE: 182-219 -/
def getBytes (e : UTF7Encoding) (value : List UInt8) : Run Exception (List UInt8) := do
  let (_, output, shifted) ← Run.whileLoop
    (fun s : ℕ × List UInt8 × List UInt16 => decide (s.1 < value.length))
    (fun s =>
      let rune := Rune.tryGetRuneAt value s.1
      if rune.length = 0 then pure (value.length, s.2)
      else pure (s.1 + rune.length, e.visit s.2 (rune.codePoint.getD 0xFFFD)))
    value.length (0, [], [])
  pure (flushShifted output shifted true)

/-- SOURCE: 118-134 -/
def appendUtf8 (codePoint : ℕ) (output : List UInt8) : List UInt8 :=
  appendUtf8Scalar output codePoint

/-- SOURCE: 136 -/
def appendReplacement (output : List UInt8) : List UInt8 := appendUtf8 0xFFFD output

/-- The bytes come in pairs.
SOURCE: 138-159 -/
def appendUtf16Be (output : List UInt8) : List UInt8 → List UInt8
  | b0 :: b1 :: bytes =>
    let unit := b0.toNat <<< 8 ||| b1.toNat
    if 0xD800 ≤ unit ∧ unit ≤ 0xDBFF then
      match bytes with
      | b2 :: b3 :: rest =>
        let low := b2.toNat <<< 8 ||| b3.toNat
        if 0xDC00 ≤ low ∧ low ≤ 0xDFFF then
          appendUtf16Be
            (appendUtf8 (0x10000 + ((unit - 0xD800) <<< 10 ||| (low - 0xDC00))) output) rest
        else appendUtf16Be (appendReplacement output) (b2 :: b3 :: rest)
      | bytes => appendUtf16Be (appendReplacement output) bytes
    else if 0xDC00 ≤ unit ∧ unit ≤ 0xDFFF then appendUtf16Be (appendReplacement output) bytes
    else appendUtf16Be (appendUtf8 unit output) bytes
  | _ => output

/-- The loop over the letters of a shifted run: the bits, whether there was a letter, and what is
left.
SOURCE: 267-281 -/
def scanShifted : (bits : Bits) → (sawBase64 : Bool) → List UInt8 → Bits × Bool × List UInt8
  | bits, sawBase64, [] => (bits, sawBase64, [])
  | bits, sawBase64, character :: data =>
    match base64Value character with
    | none => (bits, sawBase64, character :: data)
    | some value => scanShifted (feed 8 emitByte 6 bits value) true data

/-- What stands after a `+` that no `-` follows.
SOURCE: 263-291 -/
def decodeShifted (data output : List UInt8) : List UInt8 × List UInt8 :=
  let (bits, sawBase64, data) := scanShifted ⟨[], 0, 0⟩ false data
  let data := if data.head? = some '-'.toUInt8 then data.tail else data
  if ¬ sawBase64 ∨ bits.output = [] ∨ (bits.bitCount ≠ 0 ∧ bits.buffer ≠ 0) ∨
      bits.output.length % 2 ≠ 0 then (data, appendReplacement output)
  else (data, appendUtf16Be output bits.output)

/-- One turn of the outer loop.
SOURCE: 245-291 -/
def decodeNext (data output : List UInt8) : List UInt8 × List UInt8 :=
  match data with
  | [] => ([], output)
  | character :: data =>
    if character ≠ '+'.toUInt8 then
      (data, if character < 0x80 then output ++ [character] else appendReplacement output)
    else if data.head? = some '-'.toUInt8 then (data.tail, output ++ ['+'.toUInt8])
    else decodeShifted data output

/-- SOURCE: 228-294 -/
def getString (data : Option (List UInt8)) (index count : ℤ) : Run Exception (List UInt8) := do
  if ← validateRawDecodeRange data index count then
    let bytes := ((data.getD []).drop index.toNat).take count.toNat
    let (_, output) ← Run.whileLoop (fun s : List UInt8 × List UInt8 => decide (s.1 ≠ []))
      (fun s => pure (decodeNext s.1 s.2)) bytes.length (bytes, [])
    pure output
  else pure []

/-- The whole of a vector.
SOURCE: Encoding.hpp:112-114 -/
def getStringOf (bytes : List UInt8) : Run Exception (List UInt8) :=
  getString (some bytes) 0 (toIntcs bytes.length)

end UTF7Encoding

end SharpRuntime.Model
