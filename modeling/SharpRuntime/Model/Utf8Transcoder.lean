import SharpRuntime.Machine.Transcoding
import SharpRuntime.Model.Base64
import SharpRuntime.Model.UnicodeEncoding

/-!
# `Unicode::Utf8`

`modules/text/include/System/Text/Unicode/Utf8.hpp`, under the source's names.

A destination is a list that is written in place.  A scan is given what is left of the source.
What a scan finds is a `Reading`: a scalar, some units that are invalid, or the need for more. Lines
cited without a file are those of `Utf8.hpp`.
-/

set_option autoImplicit false

namespace SharpRuntime.Model

open Machine Utf8Scalar

/-- What a call leaves behind: its status, the destination, and the two counts. -/
structure Transcoding (β : Type) where
  status : OperationStatus
  destination : List β
  read : ℤ
  written : ℤ
deriving DecidableEq

namespace Utf8Transcoder

/-- The length of the sequence after its first byte has been told apart, `none` where it is
invalid.
SOURCE: 51-62 -/
def checkedSequence (value : List UInt8) (len cp minCp : ℕ) : Option ℕ :=
  if value.length < len then none
  else
    match continuations (len - 1) cp (value.drop 1) with
    | none => none
    | some cp =>
      if cp < minCp then none
      else if 0x10FFFF < cp then none
      else if 0xD800 ≤ cp ∧ cp ≤ 0xDFFF then none
      else some len

/-- The length of the sequence in front, `none` where it is invalid.
SOURCE: 40-62 -/
def sequenceLength (value : List UInt8) : Option ℕ :=
  let b0 := value.getD 0 0
  if b0 < 0x80 then some 1
  else if b0 &&& 0xE0 = 0xC0 then checkedSequence value 2 (b0 &&& 0x1F).toNat 0x80
  else if b0 &&& 0xF0 = 0xE0 then checkedSequence value 3 (b0 &&& 0x0F).toNat 0x800
  else if b0 &&& 0xF8 = 0xF0 then checkedSequence value 4 (b0 &&& 0x07).toNat 0x10000
  else none

/-- A turn of the loop: it goes on behind a sequence, or returns its index.
SOURCE: 40-64 -/
def validate (value : List UInt8) (s : ℕ × Option ℤ) : ℕ × Option ℤ :=
  match sequenceLength (value.drop s.1) with
  | none => (s.1, some (toIntcs s.1))
  | some len => (s.1 + len, none)

/-- SOURCE: 37-67 -/
def indexOfInvalidSubsequence (value : List UInt8) : Run Exception ℤ := do
  let (_, found) ← Run.whileLoop
    (fun s : ℕ × Option ℤ => decide (s.1 < value.length ∧ s.2.isNone))
    (fun s => pure (validate value s)) value.length (0, none)
  pure (found.getD (-1))

/-- The cursors of a loop, the destination, and the status once the call returns. -/
structure Cursors (β : Type) where
  si : ℕ
  di : ℕ
  destination : List β
  status : Option OperationStatus

section Loop

variable {α β : Type} (needed : ℕ → ℕ) (units : ℕ → List β) (replaceInvalidSequences : Bool)

/-- Units written from a position on. -/
def store (destination : List β) (di : ℕ) (us : List β) : List β :=
  destination.take di ++ us ++ destination.drop (di + us.length)

/-- SOURCE: 136-163, 270-284 -/
def put (s : Cursors β) (cp consumed : ℕ) : Cursors β :=
  if s.destination.length < s.di + needed cp then
    { s with status := some .destinationTooSmall }
  else
    { s with
      si := s.si + consumed
      di := s.di + needed cp
      destination := store s.destination s.di (units cp) }

/-- A turn of the loop, after the source has been scanned.
SOURCE: 127-163, 260-284 -/
def turn (s : Cursors β) (scanned : Reading) : Cursors β :=
  match scanned with
  | .more => { s with status := some .needMoreData }
  | .bad consumed =>
    if ¬ replaceInvalidSequences then { s with status := some .invalidData }
    else put needed units s 0xFFFD consumed
  | .scalar cp consumed => put needed units s cp consumed

/-- SOURCE: 92-168, 186-289 -/
def transcode (scan : List α → Reading) (source : List α) (destination : List β) :
    Run Exception (Transcoding β) := do
  let s ← Run.whileLoop
    (fun s : Cursors β => decide (s.si < source.length ∧ s.status.isNone))
    (fun s => pure (turn needed units replaceInvalidSequences s (scan (source.drop s.si))))
    source.length ⟨0, 0, destination, none⟩
  pure ⟨s.status.getD .done, s.destination, toIntcs s.si, toIntcs s.di⟩

end Loop

namespace fromUtf16

/-- SOURCE: 94-125 -/
def scan (isFinalBlock : Bool) : List UInt16 → Reading
  | [] => .more
  | c :: source =>
    if 0xD800 ≤ c ∧ c ≤ 0xDBFF then
      match source with
      | c2 :: _ =>
        if 0xDC00 ≤ c2 ∧ c2 ≤ 0xDFFF then
          .scalar (0x10000 + (c.toNat - 0xD800) <<< 10 + (c2.toNat - 0xDC00)) 2
        else .bad 1
      | [] => if ¬ isFinalBlock then .more else .bad 1
    else if 0xDC00 ≤ c ∧ c ≤ 0xDFFF then .bad 1
    else .scalar c.toNat 1

/-- SOURCE: 136 -/
def needed (cp : ℕ) : ℕ :=
  if cp < 0x80 then 1 else if cp < 0x800 then 2 else if cp < 0x10000 then 3 else 4

/-- SOURCE: 143-162 -/
def units (cp : ℕ) : List UInt8 :=
  match needed cp with
  | 1 => [UInt8.ofNat cp]
  | 2 => [UInt8.ofNat (0xC0 ||| cp >>> 6), UInt8.ofNat (0x80 ||| cp &&& 0x3F)]
  | 3 => [UInt8.ofNat (0xE0 ||| cp >>> 12), UInt8.ofNat (0x80 ||| (cp >>> 6) &&& 0x3F),
      UInt8.ofNat (0x80 ||| cp &&& 0x3F)]
  | _ => [UInt8.ofNat (0xF0 ||| cp >>> 18), UInt8.ofNat (0x80 ||| (cp >>> 12) &&& 0x3F),
      UInt8.ofNat (0x80 ||| (cp >>> 6) &&& 0x3F), UInt8.ofNat (0x80 ||| cp &&& 0x3F)]

end fromUtf16

/-- SOURCE: 88-168 -/
def fromUtf16 (source : List UInt16) (destination : List UInt8)
    (replaceInvalidSequences isFinalBlock : Bool) : Run Exception (Transcoding UInt8) :=
  transcode fromUtf16.needed fromUtf16.units replaceInvalidSequences (fromUtf16.scan isFinalBlock)
    source destination

namespace toUtf16

/-- The bytes to go on by, which are never none.
SOURCE: 267 -/
def invalid (len : ℕ) : Reading := .bad (if len = 0 then 1 else len)

/-- The loop over the bytes after the first, from the `k`th on, and the tests after it; the bytes
that are still to be scanned are `left`.
SOURCE: 231-257 -/
def scanContinuation (isFinalBlock : Bool) (len minCp : ℕ) :
    (left k cp : ℕ) → List UInt8 → Reading
  | 0, _, cp, _ =>
    if cp < minCp ∨ 0x10FFFF < cp ∨ (0xD800 ≤ cp ∧ cp ≤ 0xDFFF) then invalid len
    else .scalar cp len
  | _ + 1, k, _, [] => if ¬ isFinalBlock then .more else invalid k
  | left + 1, k, cp, bk :: source =>
    if bk &&& 0xC0 ≠ 0x80 then invalid k
    else scanContinuation isFinalBlock len minCp left (k + 1) (cp <<< 6 ||| (bk &&& 0x3F).toNat)
      source

/-- SOURCE: 188-258 -/
def scan (isFinalBlock : Bool) : List UInt8 → Reading
  | [] => .more
  | b0 :: source =>
    if b0 < 0x80 then .scalar b0.toNat 1
    else if b0 &&& 0xE0 = 0xC0 then
      scanContinuation isFinalBlock 2 0x80 1 1 (b0 &&& 0x1F).toNat source
    else if b0 &&& 0xF0 = 0xE0 then
      scanContinuation isFinalBlock 3 0x800 2 1 (b0 &&& 0x0F).toNat source
    else if b0 &&& 0xF8 = 0xF0 then
      scanContinuation isFinalBlock 4 0x10000 3 1 (b0 &&& 0x07).toNat source
    else invalid 1

/-- SOURCE: 270 -/
def needed (cp : ℕ) : ℕ := if cp < 0x10000 then 1 else 2

/-- SOURCE: 277-283 -/
def units (cp : ℕ) : List UInt16 :=
  if needed cp = 1 then [UInt16.ofNat cp]
  else
    let v := cp - 0x10000
    [UInt16.ofNat (0xD800 + v >>> 10), UInt16.ofNat (0xDC00 + (v &&& 0x3FF))]

end toUtf16

/-- SOURCE: 182-289 -/
def toUtf16 (source : List UInt8) (destination : List UInt16)
    (replaceInvalidSequences isFinalBlock : Bool) : Run Exception (Transcoding UInt16) :=
  transcode toUtf16.needed toUtf16.units replaceInvalidSequences (toUtf16.scan isFinalBlock)
    source destination

end Utf8Transcoder

end SharpRuntime.Model
