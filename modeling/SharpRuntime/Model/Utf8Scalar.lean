import SharpRuntime.Model.Exception

/-!
# The UTF-8 scalar codec

`modules/core/include/System/detail/Utf8Scalar.hpp` and the decoder of
`modules/core/include/System/detail/Utf8Text.hpp`, under the source's names.

A code point is a number, as `std::uint32_t` holds it.  Text is appended to a list of bytes, and
a cast to `char` keeps the low eight bits.
-/

set_option autoImplicit false

namespace SharpRuntime.Model.Utf8Scalar

open Machine

/-- What a decoding step reports: the scalar, when it returns `true`, and the bytes to advance by. -/
structure Step where
  codePoint : Option ℕ
  length : ℕ
deriving DecidableEq

/-- SOURCE: Utf8Scalar.hpp:52 -/
def isContinuation (b : UInt8) : Bool := b &&& 0xC0 = 0x80

/-- The last test of `tryDecodeUtf8Scalar`.
SOURCE: Utf8Scalar.hpp:88-94 -/
def accept (cp len : ℕ) : Step :=
  if 0x10FFFF < cp ∨ 0xD800 ≤ cp ∧ cp ≤ 0xDFFF then ⟨none, len⟩ else ⟨some cp, len⟩

/-- SOURCE: Utf8Scalar.hpp:50-95 -/
def tryDecodeUtf8Scalar (s : List UInt8) (size i : ℕ) : Step :=
  let c0 := s.getD i 0
  let c1 := s.getD (i + 1) 0
  let c2 := s.getD (i + 2) 0
  let c3 := s.getD (i + 3) 0
  if c0 < 0x80 then accept c0.toNat 1
  else if c0 &&& 0xE0 = 0xC0 ∧ i + 1 < size ∧ isContinuation c1 then
    let cp := (c0 &&& 0x1F).toNat <<< 6 ||| (c1 &&& 0x3F).toNat
    if cp < 0x80 then ⟨none, 1⟩ else accept cp 2
  else if c0 &&& 0xF0 = 0xE0 ∧ i + 2 < size ∧ isContinuation c1 ∧ isContinuation c2 then
    let cp := (c0 &&& 0x0F).toNat <<< 12 ||| (c1 &&& 0x3F).toNat <<< 6 ||| (c2 &&& 0x3F).toNat
    if cp < 0x800 then ⟨none, 1⟩ else accept cp 3
  else if c0 &&& 0xF8 = 0xF0 ∧ i + 3 < size ∧ isContinuation c1 ∧ isContinuation c2 ∧
      isContinuation c3 then
    let cp := (c0 &&& 0x07).toNat <<< 18 ||| (c1 &&& 0x3F).toNat <<< 12 |||
      (c2 &&& 0x3F).toNat <<< 6 ||| (c3 &&& 0x3F).toNat
    if cp < 0x10000 then ⟨none, 1⟩ else accept cp 4
  else ⟨none, 1⟩

/-- The code point, and the bytes to advance by.
SOURCE: Utf8Scalar.hpp:115-121 -/
def decodeUtf8Scalar (s : List UInt8) (i : ℕ) : ℕ × ℕ :=
  match tryDecodeUtf8Scalar s s.length i with
  | ⟨some codePoint, length⟩ => (codePoint, length)
  | ⟨none, _⟩ => (0xFFFD, 1)

/-- The loop in which a caller decodes a whole string; `visit` is what it does with a code point.
SOURCE: UnicodeEncoding.hpp:96-109, UTF32Encoding.hpp:86-93 -/
def decodeLoop {σ : Type} (s : List UInt8) (visit : σ → ℕ → Run Exception σ) (state : σ) :
    Run Exception σ :=
  Prod.snd <$> Run.whileLoop (fun p : ℕ × σ => decide (p.1 < s.length))
    (fun p => do
      let (codePoint, length) := decodeUtf8Scalar s p.1
      let state ← visit p.2 codePoint
      pure (p.1 + length, state))
    s.length (0, state)

/-- The code points of a string. -/
def decodeString (s : List UInt8) : Run Exception (List ℕ) :=
  decodeLoop s (fun decoded codePoint => pure (decoded ++ [codePoint])) []

/-- SOURCE: Utf8Scalar.hpp:129-145 -/
def appendUtf8Scalar (out : List UInt8) (codePoint : ℕ) : List UInt8 :=
  if codePoint < 0x80 then out ++ [UInt8.ofNat codePoint]
  else if codePoint < 0x800 then
    out ++ [UInt8.ofNat (0xC0 ||| codePoint >>> 6)] ++ [UInt8.ofNat (0x80 ||| codePoint &&& 0x3F)]
  else if codePoint < 0x10000 then
    out ++ [UInt8.ofNat (0xE0 ||| codePoint >>> 12)] ++
      [UInt8.ofNat (0x80 ||| (codePoint >>> 6) &&& 0x3F)] ++
      [UInt8.ofNat (0x80 ||| codePoint &&& 0x3F)]
  else
    out ++ [UInt8.ofNat (0xF0 ||| codePoint >>> 18)] ++
      [UInt8.ofNat (0x80 ||| (codePoint >>> 12) &&& 0x3F)] ++
      [UInt8.ofNat (0x80 ||| (codePoint >>> 6) &&& 0x3F)] ++
      [UInt8.ofNat (0x80 ||| codePoint &&& 0x3F)]

/-- SOURCE: Utf8Text.hpp:37-41 -/
structure Utf8Decoded where
  scalar : ℕ
  length : ℕ
  valid : Bool
deriving DecidableEq

/-- The loop over the bytes after the first, `none` where one is no continuation.
SOURCE: Utf8Text.hpp:78-82 -/
def continuations : (count scalar : ℕ) → List UInt8 → Option ℕ
  | 0, scalar, _ => some scalar
  | _ + 1, _, [] => none
  | count + 1, scalar, bi :: data =>
    if bi &&& 0xC0 ≠ 0x80 then none
    else continuations count (scalar <<< 6 ||| (bi &&& 0x3F).toNat) data

/-- SOURCE: Utf8Text.hpp:77-87 -/
def decodeLong (data : List UInt8) (length scalar minimum : ℕ) : Utf8Decoded :=
  if data.length < length then ⟨0, 1, false⟩
  else
    match continuations (length - 1) scalar (data.drop 1) with
    | none => ⟨0, 1, false⟩
    | some scalar =>
      if scalar < minimum then ⟨0, 1, false⟩
      else if 0xD800 ≤ scalar ∧ scalar ≤ 0xDFFF then ⟨0, 1, false⟩
      else if 0x10FFFF < scalar then ⟨0, 1, false⟩
      else ⟨scalar, length, true⟩

/-- SOURCE: Utf8Text.hpp:62-88 -/
def decodeUtf8 (data : List UInt8) : Utf8Decoded :=
  match data with
  | [] => ⟨0, 0, false⟩
  | b0 :: _ =>
    if b0 < 0x80 then ⟨b0.toNat, 1, true⟩
    else if b0 < 0xC2 then ⟨0, 1, false⟩
    else if b0 < 0xE0 then decodeLong data 2 (b0 &&& 0x1F).toNat 0x80
    else if b0 < 0xF0 then decodeLong data 3 (b0 &&& 0x0F).toNat 0x800
    else if b0 < 0xF5 then decodeLong data 4 (b0 &&& 0x07).toNat 0x10000
    else ⟨0, 1, false⟩

end SharpRuntime.Model.Utf8Scalar
