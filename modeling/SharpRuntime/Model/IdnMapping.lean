import SharpRuntime.Model.Utf8Scalar

/-!
# `IdnMapping`

`modules/globalization/src/System/Globalization/IdnMapping.cpp`, under the source's names; bare line
numbers are of this file.  The `int`s of the Punycode coder are never negative before they overflow,
so each is a number, and `int32` observes that it fits.  A place in a string is what is left of it.
The general category of a code point comes from a generated table and is a parameter.
-/

set_option autoImplicit false

namespace SharpRuntime.Model

open Machine Utf8Scalar

/-- The settings of an `IdnMapping`.
SOURCE: IdnMapping.hpp:161-162 -/
structure IdnMapping where
  allowUnassigned : Bool
  useStd3 : Bool

namespace IdnMapping

/-- SOURCE: IdnMapping.hpp:165-173 -/
def base : ℕ := 36

def tmin : ℕ := 1

def tmax : ℕ := 26

def skew : ℕ := 38

def damp : ℕ := 700

def initialBias : ℕ := 72

def initialN : ℕ := 0x80

def labelMax : ℕ := 63

def nameMax : ℕ := 255

/-- The exception of this class: an `ArgumentException` constructed from its text alone. -/
def malformed (text : String) : Exception := .argument ("IdnMapping: " ++ text) ""

/-- The `int` that a sum or a product of `int`s gives. -/
def int32 (n : ℕ) : Run Exception ℕ := do
  Run.observe (n ≤ intcsMax)
  pure n

/-- SOURCE: 15-17 -/
def asciiLower (c : ℕ) : ℕ := if 0x41 ≤ c ∧ c ≤ 0x5A then c + (0x61 - 0x41) else c

/-- SOURCE: IdnMapping.hpp:178 -/
def isBasic (c : ℕ) : Bool := decide (c < 0x80)

/-- One round of the decoding loop.
SOURCE: 42-47 -/
def nextCodePoint (s : List UInt8) (p : ℕ × List ℕ) : Run Exception (ℕ × List ℕ) :=
  match tryDecodeUtf8Scalar s s.length p.1 with
  | ⟨some cp, len⟩ => pure (p.1 + len, p.2 ++ [cp])
  | ⟨none, _⟩ => Run.throwing (malformed "invalid UTF-8 sequence.")

/-- SOURCE: 24-50 -/
def utf8ToCodePoints (s : List UInt8) : Run Exception (List ℕ) :=
  Prod.snd <$> Run.whileLoop (fun p : ℕ × List ℕ => decide (p.1 < s.length)) (nextCodePoint s)
    s.length (0, [])

/-- The function spells out `appendUtf8Scalar`.
SOURCE: 52-73 -/
def codePointsToUtf8 (cp : List ℕ) : List UInt8 := cp.foldl appendUtf8Scalar []

/-- The threshold of both digit loops.
SOURCE: 152, 207 -/
def threshold (k bias : ℕ) : ℕ :=
  if k ≤ bias then tmin else if bias + tmax ≤ k then tmax else k - bias

/-- One round of the loop of `adapt`.
SOURCE: 83-86 -/
def shrink (p : ℕ × ℕ) : Run Exception (ℕ × ℕ) := do
  let k ← int32 (p.2 + base)
  pure (p.1 / (base - tmin), k)

/-- SOURCE: 79-88 -/
def adapt (delta numpoints : ℕ) (firsttime : Bool) : Run Exception ℕ := do
  let delta := if firsttime then delta / damp else delta / 2
  let delta ← int32 (delta + delta / numpoints)
  let (delta, k) ← Run.whileLoop (fun p : ℕ × ℕ => decide ((base - tmin) * tmax / 2 < p.1)) shrink
    delta (delta, 0)
  let dividend ← int32 ((base - tmin + 1) * delta)
  let divisor ← int32 (delta + skew)
  int32 (k + dividend / divisor)

/-- SOURCE: 90-92 -/
def encodeDigit (d : ℕ) : UInt8 :=
  if d < 26 then UInt8.ofNat (0x61 + d) else UInt8.ofNat (0x30 + d - 26)

/-- SOURCE: 94-99 -/
def decodeDigit (c : UInt8) : Run Exception ℕ :=
  if 0x30 ≤ c ∧ c ≤ 0x39 then pure (c.toNat - 0x30 + 26)
  else if 0x61 ≤ c ∧ c ≤ 0x7A then pure (c.toNat - 0x61)
  else if 0x41 ≤ c ∧ c ≤ 0x5A then pure (c.toNat - 0x41)
  else Run.throwing (malformed "invalid Punycode digit.")

/-- The digits of `delta`; every digit but the last makes `q` smaller.
SOURCE: 150-157 -/
def writeDelta (bias delta : ℕ) (out : List UInt8) : Run Exception (List UInt8) := do
  let (_, q, out) ← Run.whileLoop
    (fun p : ℕ × ℕ × List UInt8 => decide (threshold p.1 bias ≤ p.2.1))
    (fun (k, q, out) => do
      let t := threshold k bias
      let k ← int32 (k + base)
      pure (k, (q - t) / (base - t), out ++ [encodeDigit (t + (q - t) % (base - t))]))
    delta (base, delta, out)
  pure (out ++ [encodeDigit q])

/-- What the encoder carries from code point to code point. -/
structure Encoder where
  out : List UInt8
  delta : ℕ
  bias : ℕ
  processed : ℕ

/-- The second loop over the label.
SOURCE: 147-162 -/
def encodeAt (numBasic n : ℕ) (e : Encoder) (c : ℕ) : Run Exception Encoder :=
  if c < n then do
    let delta ← int32 (e.delta + 1)
    pure { e with delta }
  else if c = n then do
    let out ← writeDelta e.bias e.delta e.out
    let bias ← adapt e.delta (e.processed + 1) (e.processed == numBasic)
    pure { out, delta := 0, bias, processed := e.processed + 1 }
  else pure e

/-- The smallest code point of the label from `n` on, the first loop over it.
SOURCE: 139-142 -/
def smallest (n : ℕ) (label : List ℕ) : ℕ :=
  label.foldl (fun m c => if n ≤ c ∧ c < m then c else m) intcsMax

/-- One round of the encoder: it takes in the smallest code point that is left.
SOURCE: 137-165 -/
def encodeRound (label : List ℕ) (numBasic : ℕ) (p : ℕ × Encoder) : Run Exception (ℕ × Encoder) := do
  let (n, e) := p
  let m := smallest n label
  let step ← int32 ((m - n) * (e.processed + 1))
  let delta ← int32 (e.delta + step)
  let e ← label.foldlM (encodeAt numBasic m) { e with delta }
  let delta ← int32 (e.delta + 1)
  let n ← int32 (m + 1)
  pure (n, { e with delta })

/-- SOURCE: 115-167 -/
def encodeLabel (label : List ℕ) : Run Exception (List UInt8) := do
  let basic := label.filter isBasic
  let out := basic.map fun c => UInt8.ofNat (asciiLower c)
  let numBasic := basic.length
  let inputLen ← int32 label.length
  if numBasic = inputLen then pure out
  else do
    let out := if 0 < numBasic then out ++ [0x2D] else out
    let (_, e) ← Run.whileLoop (fun p : ℕ × Encoder => decide (p.2.processed < inputLen))
      (encodeRound label numBasic) inputLen (initialN, ⟨out, 0, initialBias, numBasic⟩)
    pure e.out

/-- The digits of a distance, added to `i`: the sum, and what is left of the label.
SOURCE: 202-210 -/
def readDelta (bias : ℕ) : (k w i : ℕ) → List UInt8 → Run Exception (ℕ × List UInt8)
  | _, _, _, [] => Run.throwing (malformed "malformed Punycode.")
  | k, w, i, c :: rest => do
    let digit ← decodeDigit c
    let i ← int32 (i + digit * w)
    -- the sum in the threshold
    Run.observe (bias + tmax ≤ intcsMax)
    let t := threshold k bias
    if digit < t then pure (i, rest)
    else do
      let w ← int32 (w * (base - t))
      let k ← int32 (k + base)
      readDelta bias k w i rest

/-- What the decoder carries from insertion to insertion. -/
structure Decoder where
  out : List ℕ
  n : ℕ
  bias : ℕ
  i : ℕ
  rest : List UInt8

/-- SOURCE: 200-219 -/
def decodeNext (d : Decoder) : Run Exception Decoder := do
  let (i, rest) ← readDelta d.bias base 1 d.i d.rest
  let outLen ← int32 (d.out.length + 1)
  let bias ← adapt (i - d.i) outLen (d.i == 0)
  let n ← int32 (d.n + i / outLen)
  let i := i % outLen
  if n < 0x80 ∨ 0xD800 ≤ n ∧ n ≤ 0xDFFF ∨ 0x10FFFF < n then
    Run.throwing (malformed "invalid code point in Punycode.")
  else do
    Run.observe (i ≤ d.out.length)
    let next ← int32 (i + 1)
    pure { out := d.out.insertIdx i n, n, bias, i := next, rest }

/-- The basic code points, copied one by one.
SOURCE: 188-192 -/
def copyBasic (basic : List UInt8) : Run Exception (List ℕ) :=
  basic.foldlM (fun out c =>
    if 0x7F < c then Run.throwing (malformed "non-ASCII in basic portion.")
    else pure (out ++ [asciiLower c.toNat])) []

/-- The last delimiter of a label, `-1` where there is none.
SOURCE: 173-177 -/
def lastDelimiter (label : List UInt8) : ℤ :=
  match label.reverse.findIdx? (· == 0x2D) with
  | some k => (label.length : ℤ) - 1 - k
  | none => -1

/-- SOURCE: 170-221 -/
def decodeLabel (label : List UInt8) : Run Exception (List ℕ) := do
  let len ← int32 label.length
  let delimPos := lastDelimiter label
  if delimPos = (len : ℤ) - 1 then
    Run.throwing (malformed "malformed Punycode (trailing delimiter).")
  else do
    let out ← if 0 < delimPos then copyBasic (label.take delimPos.toNat) else pure []
    let asciiStart := if 0 < delimPos then delimPos.toNat + 1 else 0
    let d ← Run.whileLoop (fun d : Decoder => !d.rest.isEmpty) decodeNext len
      ⟨out, initialN, initialBias, 0, label.drop asciiStart⟩
    pure d.out

/-- SOURCE: 105-111 -/
def validateStd3Char (c : ℕ) (nextToLabelBoundary : Bool) : Run Exception Unit :=
  if 0x7F < c then pure ()
  else if c ≤ 0x2C ∨ c = 0x2F ∨ 0x3A ≤ c ∧ c ≤ 0x40 ∨ 0x5B ≤ c ∧ c ≤ 0x60 ∨ 0x7B ≤ c ∧ c ≤ 0x7F ∨
      c = 0x2D ∧ nextToLabelBoundary then
    Run.throwing (malformed "character is not allowed under UseStd3AsciiRules.")
  else pure ()

/-- The loop over the characters of a label.
SOURCE: 280-281 -/
def validateStd3 (label : List ℕ) : Run Exception Unit :=
  label.zipIdx.forM fun (c, i) => validateStd3Char c (i == 0 || i == label.length - 1)

/-- SOURCE: 279-282 -/
def checkStd3 (m : IdnMapping) (label : List ℕ) : Run Exception Unit :=
  if m.useStd3 then validateStd3 label else pure ()

/-- The loop over the labels of a name, which both directions share: what it appends to `result` for
the labels of `name`.  Every label is followed by a dot, except the last one; the name may end with
a dot.
SOURCE: 255-303, 332-364 -/
def eachLabel {α : Type} (isSeparator : α → Bool) (convert : List α → Run Exception (List UInt8)) :
    (fuel : ℕ) → List α → List UInt8 → Run Exception (List UInt8)
  | 0, _, _ => Run.diverging
  | fuel + 1, name, result =>
    match name.takeWhile (fun c => !isSeparator c), name.dropWhile (fun c => !isSeparator c) with
    | [], [] => pure result
    | [], _ :: _ => Run.throwing (malformed "empty label.")
    | c :: label, tail => do
      let converted ← convert (c :: label)
      match tail with
      | [] => pure (result ++ converted)
      | _ :: rest => eachLabel isSeparator convert fuel rest (result ++ converted ++ [0x2E])

/-- The dots that end a label.
SOURCE: 259-260 -/
def isSeparator (c : ℕ) : Bool := c == 0x2E || c == 0x3002 || c == 0xFF0E || c == 0xFF61

/-- One label of `getAscii`.
SOURCE: 269-297 -/
def labelToAscii (m : IdnMapping) (label : List ℕ) : Run Exception (List UInt8) := do
  if labelMax < label.length then Run.throwing (malformed "label exceeds 63 characters.")
  else do
    checkStd3 m label
    if label.all isBasic then pure (label.map fun c => UInt8.ofNat (asciiLower c))
    else do
      let encoded ← encodeLabel label
      let encoded := [0x78, 0x6E, 0x2D, 0x2D] ++ encoded
      if labelMax < encoded.length then
        Run.throwing (malformed "encoded label exceeds 63 characters.")
      else pure encoded

/-- `UnicodeCategory::OtherNotAssigned`.
SOURCE: UnicodeCategory.hpp:43 -/
def otherNotAssigned : ℕ := 29

variable (lookupUnicodeCategory : ℕ → ℕ)

/-- SOURCE: 238-309 -/
def getAscii (m : IdnMapping) (unicode : List UInt8) : Run Exception (List UInt8) := do
  if unicode = [] then Run.throwing (malformed "empty input.")
  else do
    let input ← utf8ToCodePoints unicode
    if !m.allowUnassigned && input.any (lookupUnicodeCategory · == otherNotAssigned) then
      Run.throwing (.argument
        "IdnMapping: input contains a Unicode code point unassigned in UCD 16.0." "unicode")
    else do
      let result ← eachLabel isSeparator (labelToAscii m) (input.length + 1) input []
      if nameMax < result.length then
        Run.throwing (malformed "encoded name exceeds 255 characters.")
      else pure result

/-- SOURCE: 228-235 -/
def equalsIgnoreCaseAscii (a b : List UInt8) : Bool :=
  a.map (fun c => asciiLower c.toNat) == b.map (fun c => asciiLower c.toNat)

/-- The case-insensitive test for the prefix `xn--`.
SOURCE: 347-351 -/
def isPunycode : List UInt8 → Bool
  | x :: n :: h :: h' :: _ =>
    (x == 0x78 || x == 0x58) && (n == 0x6E || n == 0x4E) && h == 0x2D && h' == 0x2D
  | _ => false

/-- One label of `getUnicode`.
SOURCE: 342-358 -/
def labelToUnicode (label : List UInt8) : Run Exception (List UInt8) :=
  if labelMax < label.length then Run.throwing (malformed "label exceeds 63 characters.")
  else if isPunycode label then do
    let decoded ← decodeLabel (label.drop 4)
    pure (codePointsToUtf8 decoded)
  else pure label

/-- SOURCE: 326-373 -/
def getUnicode (m : IdnMapping) (ascii : List UInt8) : Run Exception (List UInt8) := do
  if ascii = [] then Run.throwing (malformed "empty input.")
  else do
    let result ← eachLabel (· == 0x2E) labelToUnicode (ascii.length + 1) ascii []
    let roundtrip ← getAscii lookupUnicodeCategory m result
    if equalsIgnoreCaseAscii roundtrip ascii then pure result
    else Run.throwing (malformed "decoded name does not round-trip through GetAscii.")

end IdnMapping

end SharpRuntime.Model
