import SharpRuntime.Machine.Printed
import SharpRuntime.Model.Exception

/-!
# `Guid`

The text of a `Guid` in `modules/core/src/System/Guid.cpp`, under the source's names.  A string is
the list of its bytes, and a position in one is what is left of it.  A parser that fails leaves
nothing in `bytes`, and its status carries the text in `err`. Lines cited without a file are those
of `Guid.cpp`.
-/

set_option autoImplicit false

namespace SharpRuntime.Model

open Machine

/-- SOURCE: Guid.hpp:57 -/
structure Guid where
  bytes_ : Vector UInt8 16
deriving DecidableEq

namespace Guid

def msgUnrecognized : String := "Unrecognized Guid format."

def msgInvlen : String :=
  "Guid should contain 32 digits with 4 dashes (xxxxxxxx-xxxx-xxxx-xxxx-xxxxxxxxxxxx)."

def msgDashes : String := "Dashes are in the wrong position for GUID parsing."

def msgInvalidchar : String := "Guid string should only contain hexadecimal characters."

def msgBrace : String := "Expected \x7b0xdddddddd, etc\x7d."

def msgComma : String :=
  "Could not find a comma, or the length between the previous token and the comma was zero (i.e., '0x,'etc.)."

def msgHexprefix : String := "Expected 0x prefix."

def msgBraceAfterLast : String :=
  "Could not find a brace, or the length between the previous token and the brace was zero (i.e., '0x,'etc.)."

def msgEndbrace : String := "Could not find the ending brace."

def msgExtrajunk : String := "Additional non-parsable characters are at the end of the string."

def msgOverflowU32 : String := "Value was either too large or too small for a UInt32."

def msgOverflowByte : String := "Value was either too large or too small for an unsigned byte."

def msgInvalidFormatSpec : String :=
  "Format string can be only \"D\", \"d\", \"N\", \"n\", \"P\", \"p\", \"B\", \"b\", \"X\" or \"x\"."

/-- A `GuidParseStatus` other than `Ok`, with its message. -/
inductive GuidParseFailure where
  | format (err : String)
  | overflow (err : String)
deriving DecidableEq

/-- SOURCE: 49-51 -/
def isAsciiWhitespace (c : UInt8) : Bool :=
  c == ' '.toUInt8 || c == '\t'.toUInt8 || c == '\n'.toUInt8 || c == '\r'.toUInt8 || c == 12 ||
    c == 11

/-- SOURCE: 53-58 -/
def trim (s : List UInt8) : List UInt8 :=
  (s.dropWhile isAsciiWhitespace).rdropWhile isAsciiWhitespace

/-- SOURCE: 60-65 -/
def stripAsciiWhitespace (s : List UInt8) : List UInt8 := s.filter fun c => !isAsciiWhitespace c

/-- SOURCE: 67-72 -/
def hexVal (c : UInt8) : Option ℕ :=
  if '0'.toUInt8 ≤ c ∧ c ≤ '9'.toUInt8 then some (c - '0'.toUInt8).toNat
  else if 'a'.toUInt8 ≤ c ∧ c ≤ 'f'.toUInt8 then some ((c - 'a'.toUInt8).toNat + 10)
  else if 'A'.toUInt8 ≤ c ∧ c ≤ 'F'.toUInt8 then some ((c - 'A'.toUInt8).toNat + 10)
  else none

/-- SOURCE: 74-79 -/
def decodeByte (hi lo : UInt8) : Option UInt8 := do
  let h ← hexVal hi
  let l ← hexVal lo
  some (UInt8.ofNat (h <<< 4 ||| l))

/-- The loop over the digits of a component: its value if they are digits, and whether there are
too many.
SOURCE: 96-107 -/
def hexRun : (acc processedDigits : ℕ) → List UInt8 → Option ℕ × Bool
  | acc, processedDigits, [] => (some (acc % 2 ^ 32), decide (8 < processedDigits))
  | acc, processedDigits, c :: s =>
    match hexVal c with
    | none => (none, decide (8 < processedDigits))
    | some v => hexRun ((acc <<< 4 ||| v) % 2 ^ 64) (processedDigits + 1) s

/-- SOURCE: 90-108 -/
def tryParseHexRun (s : List UInt8) : Option ℕ × Bool :=
  if s.isEmpty then (none, false) else hexRun 0 0 (s.dropWhile (· == '0'.toUInt8))

/-- A digit of a fixed number of hexadecimal digits. -/
def kDigits (d : ℕ) : UInt8 := if d < 10 then UInt8.ofNat (48 + d) else UInt8.ofNat (87 + d)

/-- SOURCE: 118-126 -/
def hexFixed (v digits : ℕ) : List UInt8 := (Printed.fixed 16 digits v).map kDigits

/-- The bytes at sixteen pairs of positions.
SOURCE: 140-147, 157-164 -/
def decodeBytes (s : List UInt8) (idx : Fin 16 → ℕ × ℕ) :
    Except GuidParseFailure (Vector UInt8 16) :=
  let byte := fun k => decodeByte (s.getD (idx k).1 0) (s.getD (idx k).2 0)
  if ∀ k, (byte k).isSome then .ok (Vector.ofFn fun k => (byte k).getD 0)
  else .error (.format msgInvalidchar)

/-- The positions of the digits between the dashes.
SOURCE: 134-139 -/
def idx : Vector (ℕ × ℕ) 16 :=
  #v[(0, 1), (2, 3), (4, 5), (6, 7), (9, 10), (11, 12), (14, 15), (16, 17), (19, 20), (21, 22),
    (24, 25), (26, 27), (28, 29), (30, 31), (32, 33), (34, 35)]

/-- SOURCE: 129-149 -/
def tryParseExactD (s : List UInt8) : Except GuidParseFailure (Vector UInt8 16) :=
  if s.length ≠ 36 ∨ s.getD 8 0 ≠ '-'.toUInt8 ∨ s.getD 13 0 ≠ '-'.toUInt8 ∨
      s.getD 18 0 ≠ '-'.toUInt8 ∨ s.getD 23 0 ≠ '-'.toUInt8 then
    .error (.format (if s.length ≠ 36 then msgInvlen else msgDashes))
  else decodeBytes s fun k => idx[k]

/-- SOURCE: 152-166 -/
def tryParseExactN (s : List UInt8) : Except GuidParseFailure (Vector UInt8 16) :=
  if s.length ≠ 32 then .error (.format msgInvlen)
  else decodeBytes s fun k => (k * 2, k * 2 + 1)

/-- `tryParseExactD` between two brackets. -/
def betweenBrackets (front back : UInt8) (s : List UInt8) :
    Except GuidParseFailure (Vector UInt8 16) :=
  if s.length ≠ 38 ∨ s.head? ≠ some front ∨ s.getLast? ≠ some back then
    .error (.format msgInvlen)
  else tryParseExactD ((s.drop 1).take 36)

/-- SOURCE: 169-175 -/
def tryParseExactB (s : List UInt8) : Except GuidParseFailure (Vector UInt8 16) :=
  betweenBrackets '{'.toUInt8 '}'.toUInt8 s

/-- SOURCE: 178-184 -/
def tryParseExactP (s : List UInt8) : Except GuidParseFailure (Vector UInt8 16) :=
  betweenBrackets '('.toUInt8 ')'.toUInt8 s

/-- What is left after `0x`.
SOURCE: 195-197 -/
def hexPrefix : (s : List UInt8) → Option (List UInt8)
  | zero :: x :: num =>
    if zero = '0'.toUInt8 ∧ (x = 'x'.toUInt8 ∨ x = 'X'.toUInt8) then some num else none
  | _ => none

/-- The value of a component, and what is left after its terminator.
SOURCE: 199-220 -/
def parseComponent (terminator : UInt8) (s : List UInt8) :
    Except GuidParseFailure (ℕ × List UInt8) :=
  match hexPrefix s with
  | none => .error (.format msgHexprefix)
  | some num =>
    let digits := num.takeWhile (· != terminator)
    if digits.length = num.length ∨ digits.isEmpty then
      .error (.format (if terminator = ','.toUInt8 then msgComma else msgBraceAfterLast))
    else
      match tryParseHexRun digits with
      | (some outVal, false) => .ok (outVal, num.drop (digits.length + 1))
      | (_, true) => .error (.overflow msgOverflowU32)
      | (none, false) => .error (.format msgInvalidchar)

/-- One character.
SOURCE: 228-232, 248-252 -/
def expect (c : UInt8) (err : String) (s : List UInt8) : Except GuidParseFailure (List UInt8) :=
  if s.head? = some c then .ok s.tail else .error (.format err)

/-- The last components, of which `left` are to come.
SOURCE: 234-246 -/
def parseByteVals : (left : ℕ) → (byteVals : List ℕ) → (s : List UInt8) →
    Except GuidParseFailure (List ℕ × List UInt8)
  | 0, byteVals, s => .ok (byteVals, s)
  | left + 1, byteVals, s => do
    let (v, s) ← parseComponent (if left = 0 then '}'.toUInt8 else ','.toUInt8) s
    if 0xFF < v then .error (.overflow msgOverflowByte)
    else parseByteVals left (byteVals ++ [v]) s

/-- The bytes of the components.
SOURCE: 258-268 -/
def bytesOf (a b32 c32 : ℕ) (byteVals : List ℕ) : Vector UInt8 16 :=
  let bb := b32 &&& 0xFFFF
  let cc := c32 &&& 0xFFFF
  let byte := fun n : ℕ => UInt8.ofNat n
  #v[byte (a >>> 24 &&& 0xFF), byte (a >>> 16 &&& 0xFF), byte (a >>> 8 &&& 0xFF), byte (a &&& 0xFF),
    byte (bb >>> 8 &&& 0xFF), byte (bb &&& 0xFF), byte (cc >>> 8 &&& 0xFF), byte (cc &&& 0xFF),
    byte (byteVals.getD 0 0), byte (byteVals.getD 1 0), byte (byteVals.getD 2 0),
    byte (byteVals.getD 3 0), byte (byteVals.getD 4 0), byte (byteVals.getD 5 0),
    byte (byteVals.getD 6 0), byte (byteVals.getD 7 0)]

/-- SOURCE: 187-269 -/
def tryParseExactX (sIn : List UInt8) : Except GuidParseFailure (Vector UInt8 16) := do
  let s := stripAsciiWhitespace sIn
  let s ← expect '{'.toUInt8 msgBrace s
  let (a, s) ← parseComponent ','.toUInt8 s
  let (b32, s) ← parseComponent ','.toUInt8 s
  let (c32, s) ← parseComponent ','.toUInt8 s
  let s ← expect '{'.toUInt8 msgBrace s
  let (byteVals, s) ← parseByteVals 8 [] s
  let s ← expect '}'.toUInt8 msgEndbrace s
  if s ≠ [] then .error (.format msgExtrajunk) else .ok (bytesOf a b32 c32 byteVals)

/-- SOURCE: 271-282 -/
def dispatchExact (formatChar : UInt8) (s : List UInt8) :
    Except GuidParseFailure (Vector UInt8 16) :=
  let f := formatChar ||| 0x20
  if f = 'd'.toUInt8 then tryParseExactD s
  else if f = 'n'.toUInt8 then tryParseExactN s
  else if f = 'b'.toUInt8 then tryParseExactB s
  else if f = 'p'.toUInt8 then tryParseExactP s
  else if f = 'x'.toUInt8 then tryParseExactX s
  else .error (.format msgInvalidFormatSpec)

/-- SOURCE: 285-294 -/
def tryParseLoose (sIn : List UInt8) : Except GuidParseFailure (Vector UInt8 16) :=
  let s := trim sIn
  if s.length < 32 then .error (.format msgUnrecognized)
  else if s.getD 0 0 = '('.toUInt8 then tryParseExactP s
  else if s.getD 0 0 = '{'.toUInt8 then
    if s.getD 9 0 = '-'.toUInt8 then tryParseExactB s else tryParseExactX s
  else if s.getD 8 0 = '-'.toUInt8 then tryParseExactD s
  else tryParseExactN s

/-- The value of a parser that has succeeded, or the exception of its status.
SOURCE: 502-504, 548-550 -/
def orThrow (r : Except GuidParseFailure (Vector UInt8 16)) : Run Exception Guid :=
  match r with
  | .ok bytes => pure ⟨bytes⟩
  | .error (.overflow err) => Run.throwing (.overflow err)
  | .error (.format err) => Run.throwing (.format err)

/-- SOURCE: 498-505 -/
def parse (s : List UInt8) : Run Exception Guid := orThrow (tryParseLoose s)

/-- SOURCE: 543-551 -/
def parseExact (s format : List UInt8) : Run Exception Guid :=
  if format.length ≠ 1 then Run.throwing (.format msgInvalidFormatSpec)
  else orThrow (dispatchExact (format.getD 0 0) (trim s))

/-- SOURCE: Guid.hpp:65-68 -/
def getAProperty (g : Guid) : ℕ :=
  g.bytes_[0].toNat <<< 24 ||| g.bytes_[1].toNat <<< 16 ||| g.bytes_[2].toNat <<< 8 |||
    g.bytes_[3].toNat

/-- SOURCE: Guid.hpp:69-71 -/
def getBProperty (g : Guid) : ℕ := g.bytes_[4].toNat <<< 8 ||| g.bytes_[5].toNat

/-- SOURCE: Guid.hpp:72-74 -/
def getCProperty (g : Guid) : ℕ := g.bytes_[6].toNat <<< 8 ||| g.bytes_[7].toNat

/-- The digits with dashes.
SOURCE: 583-594 -/
def dashed (g : Guid) : List UInt8 :=
  hexFixed g.getAProperty 8 ++ ['-'.toUInt8] ++ hexFixed g.getBProperty 4 ++ ['-'.toUInt8] ++
    hexFixed g.getCProperty 4 ++ ['-'.toUInt8] ++ hexFixed g.bytes_[8].toNat 2 ++
    hexFixed g.bytes_[9].toNat 2 ++ ['-'.toUInt8] ++
    (g.bytes_.toList.drop 10).flatMap fun byte => hexFixed byte.toNat 2

/-- `0x` and digits. -/
def prefixed (v digits : ℕ) : List UInt8 := '0'.toUInt8 :: 'x'.toUInt8 :: hexFixed v digits

/-- SOURCE: 600-606 -/
def braced (g : Guid) : List UInt8 :=
  '{'.toUInt8 :: (prefixed g.getAProperty 8 ++ ','.toUInt8 :: (prefixed g.getBProperty 4 ++
    ','.toUInt8 :: (prefixed g.getCProperty 4 ++ ','.toUInt8 :: '{'.toUInt8 ::
      (List.intercalate [','.toUInt8]
        ((g.bytes_.toList.drop 8).map fun byte => prefixed byte.toNat 2) ++
        ['}'.toUInt8, '}'.toUInt8]))))

/-- SOURCE: 562-611 -/
def toStringCore (g : Guid) (format : List UInt8) : Run Exception (List UInt8) :=
  if 1 < format.length then Run.throwing (.format msgInvalidFormatSpec)
  else
    let f := if format.isEmpty then 'd'.toUInt8 else format.getD 0 0 ||| 0x20
    if f = 'n'.toUInt8 then pure (g.bytes_.toList.flatMap fun byte => hexFixed byte.toNat 2)
    else if f = 'd'.toUInt8 then pure g.dashed
    else if f = 'b'.toUInt8 then pure ('{'.toUInt8 :: (g.dashed ++ ['}'.toUInt8]))
    else if f = 'p'.toUInt8 then pure ('('.toUInt8 :: (g.dashed ++ [')'.toUInt8]))
    else if f = 'x'.toUInt8 then pure g.braced
    else Run.throwing (.format msgInvalidFormatSpec)

/-- SOURCE: 615 -/
def toString (g : Guid) (format : List UInt8) : Run Exception (List UInt8) := toStringCore g format

end Guid

end SharpRuntime.Model
